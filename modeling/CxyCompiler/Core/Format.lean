import CxyCompiler.Core.Escapes
import CxyCompiler.Lib.Utf8

/-!
# Escaped text (`core/utils.c`, `core/format.c`)

`readChar` reads a character or the escape sequence of one, `printUtf8` prints a character, escaped
where it has an escape sequence, and the command `{sE}` of `format` prints each character that it
reads. `escapeString` replaces escape sequences in a text.

* `encodeUtf8_char`, `readChar_high` — **a character outside of ASCII is printed in UTF-8, and read
  back**.
* `escapeString_cons`, `escapeString_known`, `escapeString_unknown` — what `escapeString` does with
  a character and with an escape sequence.
* `convertEscapeSeq_cases` — **what is read behind a backslash**.
-/

namespace CxyCompiler.Core

open CxyCompiler.Lib.Numeral CxyCompiler.Lib.Utf8

/-! ## The functions -/

/-- An assertion holds that a character outside of ASCII fits. Source: `utils.c` `readChar`. -/
def readChar (str : List UInt8) (len : ℕ) : Option (ℕ × UInt32) :=
  if 0x80 ≤ charAt str 0 then
    let tmp := countLeadingOnes (charAt str 0)
    if len < tmp then none else convertEscapeSeq str tmp
  else convertEscapeSeq str len

/-- The byte for an escape sequence; in front of a digit, `\0` is taken for `\\`.
Source: `utils.c` `escapeString`, the cases of the `switch`. -/
def escapeByte (c next : UInt8) : Option UInt8 :=
  if c = ascii 'n' then some 10
  else if c = ascii 't' then some 9
  else if c = ascii 'v' then some 11
  else if c = ascii 'r' then some 13
  else if c = ascii 'a' then some 7
  else if c = ascii 'b' then some 8
  else if c = ascii '$' then some (ascii '$')
  else if c = ascii '"' then some (ascii '"')
  else if c = ascii '0' then if isdigit next then some (ascii '\\') else some 0
  else if c = ascii '\\' then some (ascii '\\')
  else none

/-- Source: the loop of `escapeString`; `n` bytes are left. -/
def escapeLoop : ℕ → List UInt8 → ℕ → List UInt8
  | 0, _, _ => []
  | rounds + 1, str, n =>
      if n = 0 then []
      else if charAt str 0 ≠ ascii '\\' then
        charAt str 0 :: escapeLoop rounds (str.drop 1) (n - 1)
      else if n - 1 < 1 then escapeLoop rounds (str.drop 1) (n - 1)
      else
        match escapeByte (charAt str 1) (charAt str 2) with
        | some c => c :: escapeLoop rounds (str.drop 2) (n - 2)
        | none => ascii '\\' :: escapeLoop rounds (str.drop 1) (n - 1)

/-- The text that is written to `dst`; every round of the loop passes a byte.
Source: `utils.c` `escapeString`. -/
def escapeString (str : List UInt8) (n : ℕ) : List UInt8 := escapeLoop n str n

/-- The character behind the backslash. Source: `format.c` `printUtf8`, the cases of the
`switch`. -/
def escapeOf (chr : UInt32) : Option UInt8 :=
  if chr = 0 then some (ascii '0')
  else if chr = 10 then some (ascii 'n')
  else if chr = 9 then some (ascii 't')
  else if chr = 11 then some (ascii 'v')
  else if chr = 13 then some (ascii 'r')
  else if chr = 7 then some (ascii 'a')
  else if chr = 8 then some (ascii 'b')
  else if chr = 34 then some (ascii '"')
  else if chr = 92 then some (ascii '\\')
  else if chr = 39 then some (ascii '\'')
  else none

/-- The program is aborted from 0x200000 on. Source: `format.c` `printUtf8`. -/
def encodeUtf8 (chr : UInt32) : Option (List UInt8) :=
  if chr < 0x80 then some [chr.toUInt8]
  else if chr < 0x800 then
    some [((0xC0 : UInt32) ||| (chr >>> 6)).toUInt8, ((0x80 : UInt32) ||| (chr &&& 0x3F)).toUInt8]
  else if chr < 0x10000 then
    some [((0xE0 : UInt32) ||| (chr >>> 12)).toUInt8,
      ((0x80 : UInt32) ||| ((chr >>> 6) &&& 0x3F)).toUInt8,
      ((0x80 : UInt32) ||| (chr &&& 0x3F)).toUInt8]
  else if chr < 0x200000 then
    some [((0xF0 : UInt32) ||| (chr >>> 18)).toUInt8,
      ((0x80 : UInt32) ||| ((chr >>> 12) &&& 0x3F)).toUInt8,
      ((0x80 : UInt32) ||| ((chr >>> 6) &&& 0x3F)).toUInt8,
      ((0x80 : UInt32) ||| (chr &&& 0x3F)).toUInt8]
  else none

/-- Source: `format.c` `printUtf8`. -/
def printUtf8 (chr : UInt32) (escaped : Bool) : Option (List UInt8) :=
  match if escaped then escapeOf chr else none with
  | some c => some [ascii '\\', c]
  | none => encodeUtf8 chr

/-- At most so many characters are printed; a command without a length stands for `UINT64_MAX`.
Source: `format.c` `formatArg`, the commands `{sE}` and `{sEl}`. -/
def formatEscaped : ℕ → List UInt8 → Option (List UInt8)
  | 0, _ => some []
  | len + 1, p =>
      if charAt p 0 = 0 then some []
      else
        match readChar p (len + 1) with
        | none => none
        | some (n, ch) =>
            match printUtf8 ch true, formatEscaped len (p.drop n) with
            | some s, some t => some (s ++ t)
            | _, _ => none

/-! ## UTF-8 -/

/-- A mark in front of the bits of a character. Kind: L -/
theorem toUInt8_mark {m w : UInt32} (k q : ℕ) (hm : m.toNat = 2 ^ k * q) (hw : w.toNat < 2 ^ k) :
    (m ||| w).toUInt8 = octet (w.toNat + m.toNat) := by
  rw [← UInt8.toNat_inj, UInt32.toNat_toUInt8, toNat_or k q hm hw, octet, UInt8.toNat_ofNat',
    Nat.add_comm]

theorem toNat_shiftRight (x : UInt32) (k : ℕ) (hk : k < 32) :
    (x >>> UInt32.ofNat k).toNat = x.toNat / 2 ^ k := by
  have hofNat : (UInt32.ofNat k).toNat = k := by
    rw [UInt32.toNat_ofNat']
    exact Nat.mod_eq_of_lt (by omega)
  rw [UInt32.toNat_shiftRight, hofNat, Nat.mod_eq_of_lt hk, Nat.shiftRight_eq_div_pow]

/-- **The octets that are printed**, for the four lengths. Kind: L -/
theorem encodeUtf8_cases (chr : UInt32) :
    (chr.toNat < 0x80 ∧ encodeUtf8 chr = some [octet chr.toNat]) ∨
    (0x80 ≤ chr.toNat ∧ chr.toNat < 0x800 ∧
      encodeUtf8 chr = some [octet (chr.toNat / 64 + 0xC0), octet (chr.toNat % 64 + 0x80)]) ∨
    (0x800 ≤ chr.toNat ∧ chr.toNat < 0x10000 ∧
      encodeUtf8 chr = some [octet (chr.toNat / 4096 + 0xE0), octet (chr.toNat / 64 % 64 + 0x80),
        octet (chr.toNat % 64 + 0x80)]) ∨
    (0x10000 ≤ chr.toNat ∧ chr.toNat < 0x200000 ∧
      encodeUtf8 chr = some [octet (chr.toNat / 262144 + 0xF0),
        octet (chr.toNat / 4096 % 64 + 0x80),
        octet (chr.toNat / 64 % 64 + 0x80), octet (chr.toNat % 64 + 0x80)]) ∨
    (0x200000 ≤ chr.toNat ∧ encodeUtf8 chr = none) := by
  have hone : chr < 0x80 ↔ chr.toNat < 0x80 := UInt32.lt_iff_toNat_lt
  have htwo : chr < 0x800 ↔ chr.toNat < 0x800 := UInt32.lt_iff_toNat_lt
  have hthree : chr < 0x10000 ↔ chr.toNat < 0x10000 := UInt32.lt_iff_toNat_lt
  have hfour : chr < 0x200000 ↔ chr.toNat < 0x200000 := UInt32.lt_iff_toNat_lt
  have h6 : (chr >>> UInt32.ofNat 6).toNat = chr.toNat / 2 ^ 6 := toNat_shiftRight chr 6 (by decide)
  have h12 : (chr >>> UInt32.ofNat 12).toNat = chr.toNat / 2 ^ 12 :=
    toNat_shiftRight chr 12 (by decide)
  have h18 : (chr >>> UInt32.ofNat 18).toNat = chr.toNat / 2 ^ 18 :=
    toNat_shiftRight chr 18 (by decide)
  have hlow : ∀ x : UInt32, ((0x80 : UInt32) ||| (x &&& 0x3F)).toUInt8 = octet
    (x.toNat % 64 + 0x80) := by
    intro x
    rw [toUInt8_mark 6 2 rfl (by rw [toNat_low]; omega), toNat_low]
    rfl
  unfold encodeUtf8
  by_cases h1 : chr.toNat < 0x80
  · left
    rw [if_pos (hone.mpr h1)]
    exact ⟨h1, rfl⟩
  rw [if_neg (by rw [hone]; exact h1)]
  right
  by_cases h2 : chr.toNat < 0x800
  · left
    refine ⟨Nat.not_lt.mp h1, h2, ?_⟩
    rw [if_pos (htwo.mpr h2), hlow,
      toUInt8_mark 6 3 rfl (by change (chr >>> UInt32.ofNat 6).toNat < _; omega)]
    change some [octet ((chr >>> UInt32.ofNat 6).toNat + 0xC0), _] = _
    rw [h6]
    rfl
  rw [if_neg (by rw [htwo]; exact h2)]
  right
  by_cases h3 : chr.toNat < 0x10000
  · left
    refine ⟨Nat.not_lt.mp h2, h3, ?_⟩
    rw [if_pos (hthree.mpr h3), hlow, hlow,
      toUInt8_mark 5 7 rfl (by change (chr >>> UInt32.ofNat 12).toNat < _; omega)]
    change some [octet ((chr >>> UInt32.ofNat 12).toNat + 0xE0),
      octet ((chr >>> UInt32.ofNat 6).toNat % 64 + 0x80), _] = _
    rw [h6, h12]
    rfl
  rw [if_neg (by rw [hthree]; exact h3)]
  right
  by_cases h4 : chr.toNat < 0x200000
  · left
    refine ⟨Nat.not_lt.mp h3, h4, ?_⟩
    rw [if_pos (hfour.mpr h4), hlow, hlow, hlow,
      toUInt8_mark 4 15 rfl (by change (chr >>> UInt32.ofNat 18).toNat < _; omega)]
    change some [octet ((chr >>> UInt32.ofNat 18).toNat + 0xF0),
      octet ((chr >>> UInt32.ofNat 12).toNat % 64 + 0x80),
      octet ((chr >>> UInt32.ofNat 6).toNat % 64 + 0x80), _] = _
    rw [h6, h12, h18]
    rfl
  · right
    rw [if_neg (by rw [hfour]; exact h4)]
    exact ⟨Nat.not_lt.mp h4, rfl⟩

/-- **A character is printed in UTF-8.** Kind: L -/
theorem encodeUtf8_char (c : Char) : encodeUtf8 c.val = some (String.utf8EncodeChar c) := by
  have hval : c.val.toNat = c.toNat := rfl
  have hcases := encodeUtf8_cases c.val
  rw [hval] at hcases
  rcases encode_cases c with ⟨h1, henc⟩ | ⟨h1, h2, henc⟩ | ⟨h1, h2, henc⟩ | ⟨h1, h2, henc⟩ <;>
    rcases hcases with ⟨g2, g⟩ | ⟨g1, g2, g⟩ | ⟨g1, g2, g⟩ | ⟨g1, g2, g⟩ | ⟨g1, g⟩ <;>
    first
      | exact g.trans (congrArg some henc.symm)
      | omega

/-- The length that the first octet says. Kind: L -/
theorem countLeadingOnes_spec (x : UInt8) :
    (0xC0 ≤ x.toNat → x.toNat < 0xE0 → countLeadingOnes x = 2) ∧
    (0xE0 ≤ x.toNat → x.toNat < 0xF0 → countLeadingOnes x = 3) ∧
    (0xF0 ≤ x.toNat → x.toNat < 0xF8 → countLeadingOnes x = 4) :=
  forall_byte (p := fun x => (0xC0 ≤ x.toNat → x.toNat < 0xE0 → countLeadingOnes x = 2) ∧
    (0xE0 ≤ x.toNat → x.toNat < 0xF0 → countLeadingOnes x = 3) ∧
    (0xF0 ≤ x.toNat → x.toNat < 0xF8 → countLeadingOnes x = 4)) (by decide +kernel) x

theorem toNat_mask (x : UInt8) : (x &&& 0x3F).toNat = x.toNat % 64 ∧
    (x &&& 0x1F).toNat = x.toNat % 32 ∧
    (x &&& 0xF).toNat = x.toNat % 16 ∧ (x &&& 0x7).toNat = x.toNat % 8 := by
  simp only [UInt8.toNat_and]
  exact ⟨Nat.and_two_pow_sub_one_eq_mod x.toNat 6, Nat.and_two_pow_sub_one_eq_mod x.toNat 5,
    Nat.and_two_pow_sub_one_eq_mod x.toNat 4, Nat.and_two_pow_sub_one_eq_mod x.toNat 3⟩

/-- The bits of an octet that is not the first. Kind: L -/
theorem toNat_continuation {n : ℕ} (h : n < 64) : (continuation (octet (n + 0x80))).toNat = n := by
  have hoctet : (octet (n + 0x80)).toNat = n + 0x80 := toNat_octet (by omega)
  rw [continuation, UInt8.toNat_toUInt32, (toNat_mask (octet (n + 0x80))).1, hoctet]
  omega

variable {a b c d : UInt8} {r : List UInt8}

theorem convertStrToUtf32_two (h : countLeadingOnes a = 2) : convertStrToUtf32 (a :: b :: r) 2 =
    some (2, ((a &&& 0x1F).toUInt32 <<< UInt32.ofNat 6) ||| continuation b) := by
  have hfirst : charAt (a :: b :: r) 0 = a := rfl
  unfold convertStrToUtf32
  dsimp only
  rw [hfirst, h]
  rfl

theorem convertStrToUtf32_three (h : countLeadingOnes a = 3) :
    convertStrToUtf32 (a :: b :: c :: r) 3 = some (3, ((a &&& 0xF).toUInt32 <<< UInt32.ofNat 12) |||
      (continuation b <<< UInt32.ofNat 6) ||| continuation c) := by
  have hfirst : charAt (a :: b :: c :: r) 0 = a := rfl
  unfold convertStrToUtf32
  dsimp only
  rw [hfirst, h]
  rfl

theorem convertStrToUtf32_four (h : countLeadingOnes a = 4) :
    convertStrToUtf32 (a :: b :: c :: d :: r) 4 =
      some (4, ((a &&& 0x7).toUInt32 <<< UInt32.ofNat 18) |||
        (continuation b <<< UInt32.ofNat 12) ||| (continuation c <<< UInt32.ofNat 6) |||
        continuation d) := by
  have hfirst : charAt (a :: b :: c :: d :: r) 0 = a := rfl
  unfold convertStrToUtf32
  dsimp only
  rw [hfirst, h]
  rfl

/-- **A character outside of ASCII is read.** Kind: L -/
theorem readChar_high {c : Char} (h : 0x80 ≤ c.toNat) (r : List UInt8) (len : ℕ) :
    readChar (String.utf8EncodeChar c ++ r) len =
      if len < (String.utf8EncodeChar c).length then none
      else some ((String.utf8EncodeChar c).length, c.val) := by
  have hread : ∀ {b : UInt8} {bs : List UInt8} {n : ℕ}, String.utf8EncodeChar c = b :: bs →
      countLeadingOnes b = n → (String.utf8EncodeChar c).length = n → 0x80 ≤ b.toNat →
      convertStrToUtf32 (String.utf8EncodeChar c ++ r) n = some (n, c.val) →
      readChar (String.utf8EncodeChar c ++ r) len =
        if len < (String.utf8EncodeChar c).length then none
        else some ((String.utf8EncodeChar c).length, c.val) := by
    intro b bs n henc hones hlen hhigh hconvert
    have hpos : n ≠ 0 := by
      rw [← hlen, henc]
      exact Nat.succ_ne_zero _
    have hfirst : charAt (String.utf8EncodeChar c ++ r) 0 = b := by
      rw [henc]
      rfl
    have hslash : b ≠ ascii '\\' := by
      rintro rfl
      exact absurd hhigh (by decide)
    have hle : (0x80 : UInt8) ≤ b := Iff.mpr UInt8.le_iff_toNat_le hhigh
    unfold readChar
    rw [hfirst, if_pos hle, hones, hlen]
    dsimp only
    unfold convertEscapeSeq
    rw [hfirst, if_neg hpos, if_neg hslash, if_pos hle, hconvert]
  rcases encode_cases c with ⟨h1, -⟩ | ⟨-, h2, henc⟩ | ⟨-, h2, henc⟩ | ⟨-, h2, henc⟩
  · omega
  · have hoctet := toNat_octet (by omega : c.toNat / 64 + 0xC0 < 256)
    have hones := (countLeadingOnes_spec (octet (c.toNat / 64 + 0xC0))).1 (by omega) (by omega)
    have hbits := (toNat_mask (octet (c.toNat / 64 + 0xC0))).2.1
    refine hread henc hones (by rw [henc]; rfl) (by omega) ?_
    rw [henc, List.cons_append, List.cons_append, convertStrToUtf32_two hones]
    have hlow := toNat_continuation (by omega : c.toNat % 64 < 64)
    have hhigh : (octet (c.toNat / 64 + 0xC0) &&& 0x1F).toUInt32.toNat = c.toNat / 64 := by
      rw [UInt8.toNat_toUInt32, hbits, hoctet]
      omega
    have hshift := toNat_shiftLeft 6 (by decide) (by rw [hhigh]; omega)
    rw [hhigh] at hshift
    congr 2
    rw [← UInt32.toNat_inj, toNat_or 6 _ hshift (by omega), hshift, hlow]
    change _ = c.toNat
    omega
  · have hoctet := toNat_octet (by omega : c.toNat / 4096 + 0xE0 < 256)
    have hones := (countLeadingOnes_spec (octet (c.toNat / 4096 + 0xE0))).2.1 (by omega) (by omega)
    have hbits := (toNat_mask (octet (c.toNat / 4096 + 0xE0))).2.2.1
    refine hread henc hones (by rw [henc]; rfl) (by omega) ?_
    rw [henc, List.cons_append, List.cons_append, List.cons_append, convertStrToUtf32_three hones]
    have hlow := toNat_continuation (by omega : c.toNat % 64 < 64)
    have hmid := toNat_continuation (by omega : c.toNat / 64 % 64 < 64)
    have hhigh : (octet (c.toNat / 4096 + 0xE0) &&& 0xF).toUInt32.toNat = c.toNat / 4096 := by
      rw [UInt8.toNat_toUInt32, hbits, hoctet]
      omega
    have hshift := toNat_shiftLeft 12 (by decide) (by rw [hhigh]; omega)
    have hshift' := toNat_shiftLeft 6 (by decide) (by rw [hmid]; omega)
    rw [hhigh] at hshift
    rw [hmid] at hshift'
    have hor := toNat_or 12 _ hshift (by rw [hshift']; omega)
    rw [hshift, hshift'] at hor
    congr 2
    rw [← UInt32.toNat_inj, toNat_or 6 (64 * (c.toNat / 4096) + c.toNat / 64 % 64)
      (by rw [hor]; omega) (by omega), hor, hlow]
    change _ = c.toNat
    omega
  · have hoctet := toNat_octet (by omega : c.toNat / 262144 + 0xF0 < 256)
    have hones := (countLeadingOnes_spec (octet (c.toNat / 262144 + 0xF0))).2.2 (by omega)
      (by omega)
    have hbits := (toNat_mask (octet (c.toNat / 262144 + 0xF0))).2.2.2
    refine hread henc hones (by rw [henc]; rfl) (by omega) ?_
    rw [henc, List.cons_append, List.cons_append, List.cons_append, List.cons_append,
      convertStrToUtf32_four hones]
    have hlow := toNat_continuation (by omega : c.toNat % 64 < 64)
    have hmid := toNat_continuation (by omega : c.toNat / 64 % 64 < 64)
    have hmid' := toNat_continuation (by omega : c.toNat / 4096 % 64 < 64)
    have hhigh : (octet (c.toNat / 262144 + 0xF0) &&& 0x7).toUInt32.toNat = c.toNat / 262144 := by
      rw [UInt8.toNat_toUInt32, hbits, hoctet]
      omega
    have hshift := toNat_shiftLeft 18 (by decide) (by rw [hhigh]; omega)
    have hshift' := toNat_shiftLeft 12 (by decide) (by rw [hmid']; omega)
    have hshift'' := toNat_shiftLeft 6 (by decide) (by rw [hmid]; omega)
    rw [hhigh] at hshift
    rw [hmid'] at hshift'
    rw [hmid] at hshift''
    have hor := toNat_or 18 _ hshift (by rw [hshift']; omega)
    rw [hshift, hshift'] at hor
    have hor' := toNat_or 12 (64 * (c.toNat / 262144) + c.toNat / 4096 % 64) (by rw [hor]; omega)
      (by rw [hshift'']; omega)
    rw [hor, hshift''] at hor'
    have hlast := toNat_or 6 (4096 * (c.toNat / 262144) + 64 * (c.toNat / 4096 % 64) +
      c.toNat / 64 % 64) (hor'.trans (by omega)) (hlow.trans_lt (by omega))
    rw [hor', hlow] at hlast
    refine congrArg (fun x => some (4, x)) (Iff.mp UInt32.toNat_inj (hlast.trans ?_))
    change _ = c.toNat
    omega

/-! ## What is unescaped -/

/-- The number of rounds does not matter. Kind: L -/
theorem escapeLoop_rounds : ∀ (rounds rounds' : ℕ) {n : ℕ}
    {str : List UInt8}, n ≤ rounds → n ≤ rounds' →
    escapeLoop rounds str n = escapeLoop rounds' str n := by
  intro rounds
  induction rounds with
  | zero =>
      intro rounds' n str hn _
      obtain rfl : n = 0 := Nat.le_zero.mp hn
      cases rounds' <;> rfl
  | succ rounds ih =>
      intro rounds' n str hn hn'
      by_cases hzero : n = 0
      · subst hzero
        cases rounds' <;> rfl
      · obtain ⟨rounds', rfl⟩ : ∃ k, rounds' = k + 1 := ⟨rounds' - 1, by omega⟩
        have hone : ∀ str, escapeLoop rounds str (n - 1) = escapeLoop rounds' str (n - 1) :=
          fun str => ih rounds' (by omega) (by omega)
        have htwo : ∀ str, escapeLoop rounds str (n - 2) = escapeLoop rounds' str (n - 2) :=
          fun str => ih rounds' (by omega) (by omega)
        unfold escapeLoop
        simp only [hone, htwo]

variable {x y : UInt8} {n m : ℕ} {s t : List UInt8} {ch : UInt32}

theorem escapeString_cons (h : x ≠ ascii '\\') :
    escapeString (x :: t) (n + 1) = x :: escapeString t n := by
  unfold escapeString
  rw [escapeLoop, if_neg (Nat.succ_ne_zero n)]
  exact if_pos h

theorem escapeString_last : escapeString (ascii '\\' :: t) 1 = [] := rfl

theorem escapeString_escape : escapeString (ascii '\\' :: x :: t) (n + 2) =
    match escapeByte x (charAt t 0) with
    | some c => c :: escapeString t n
    | none => ascii '\\' :: escapeString (x :: t) (n + 1) := by
  unfold escapeString
  rw [escapeLoop, if_neg (Nat.succ_ne_zero _)]
  refine (if_neg (not_not_intro rfl)).trans ((if_neg (by omega)).trans ?_)
  change (match escapeByte x (charAt t 0) with
    | some c => c :: escapeLoop (n + 1) t n
    | none => ascii '\\' :: escapeLoop (n + 1) (x :: t) (n + 1)) = _
  rw [escapeLoop_rounds (n + 1) n (Nat.le_succ n) (Nat.le_refl n)]

/-- A known escape sequence is replaced. Kind: L -/
theorem escapeString_known (h : escapeByte x (charAt t 0) = some y) :
    escapeString (ascii '\\' :: x :: t) (n + 2) = y :: escapeString t n := by
  rw [escapeString_escape, h]

/-- In front of another character the backslash is kept. Kind: L -/
theorem escapeString_unknown (h : escapeByte x (charAt t 0) = none) :
    escapeString (ascii '\\' :: x :: t) (n + 2) = ascii '\\' :: escapeString (x :: t) (n + 1) := by
  rw [escapeString_escape, h]

/-- Characters that are no backslash are kept. Kind: L -/
theorem escapeString_append (h : ascii '\\' ∉ s) :
    escapeString (s ++ t) (s ++ t).length = s ++ escapeString t t.length := by
  induction s with
  | nil => rfl
  | cons x s ih =>
      rw [List.mem_cons, not_or] at h
      rw [List.cons_append, List.length_cons, escapeString_cons (Ne.symm h.1), ih h.2]
      rfl

/-! ## What is read behind a backslash -/

/-- A character of ASCII that is neither a NUL nor a quote. -/
def Passed (c : UInt8) : Prop := c ≠ 0 ∧ c < 0x80 ∧ c ≠ ascii '\''

instance (c : UInt8) : Decidable (Passed c) := inferInstanceAs (Decidable (_ ∧ _ ∧ _))

/-- The first `k` characters. -/
def PassedAll (str : List UInt8) (k : ℕ) : Prop := ∀ i, i < k → Passed (charAt str i)

theorem charAt_drop (str : List UInt8) (k i : ℕ) : charAt (str.drop k) i = charAt str (k + i) := by
  unfold charAt
  rw [List.getD_eq_getElem?_getD, List.getD_eq_getElem?_getD, List.getElem?_drop]

theorem PassedAll.zero (str : List UInt8) : PassedAll str 0 :=
  fun _ hi => absurd hi (Nat.not_lt_zero _)

theorem PassedAll.add {str : List UInt8} {k j : ℕ} (h : PassedAll str k)
    (h' : PassedAll (str.drop k) j) :
    PassedAll str (k + j) := by
  intro i hi
  by_cases hk : i < k
  · exact h i hk
  · have hrest := h' (i - k) (by omega)
    rw [charAt_drop, Nat.add_sub_cancel' (Nat.not_lt.mp hk)] at hrest
    exact hrest

theorem PassedAll.one {str : List UInt8} (h : Passed (charAt str 0)) : PassedAll str 1 := by
  intro i hi
  obtain rfl : i = 0 := by omega
  exact h

theorem PassedAll.takeWhile {p : UInt8 → Bool} (hp : ∀ c, p c = true → Passed c) :
    ∀ str : List UInt8, PassedAll str (str.takeWhile p).length := by
  intro str
  induction str with
  | nil => exact PassedAll.zero []
  | cons c str ih =>
      by_cases hc : p c = true
      · rw [List.takeWhile_cons_of_pos hc, List.length_cons, Nat.add_comm]
        exact (@PassedAll.one (c :: str) (hp c hc)).add ih
      · rw [List.takeWhile_cons_of_neg hc]
        exact PassedAll.zero _

theorem PassedAll.split {str : List UInt8} {k : ℕ} (h : PassedAll str k) :
    ∃ xs r, str = xs ++ r ∧ xs.length = k ∧ ∀ c ∈ xs, Passed c := by
  have hle : k ≤ str.length := by
    by_contra hlt
    have hlast := (h str.length (by omega)).1
    unfold charAt at hlast
    rw [List.getD_eq_getElem?_getD, List.getElem?_eq_none (Nat.le_refl _)] at hlast
    exact hlast rfl
  refine ⟨str.take k, str.drop k, (List.take_append_drop k str).symm,
    List.length_take_of_le hle, ?_⟩
  intro c hc
  obtain ⟨i, hi, hget⟩ := List.mem_iff_getElem.mp hc
  rw [List.getElem_take] at hget
  rw [List.length_take_of_le hle] at hi
  have hpassed := h i hi
  unfold charAt at hpassed
  rwa [List.getD_eq_getElem?_getD, List.getElem?_eq_getElem (by omega), hget] at hpassed

theorem passed_spec (c : UInt8) : (isspace c = true → Passed c) ∧ (digitOf c ≠ none → Passed c) :=
  forall_byte (p := fun c => (isspace c = true → Passed c) ∧ (digitOf c ≠ none → Passed c))
    (by decide +kernel) c

theorem passed_of_isDigitOf {base : ℕ} {c : UInt8} (h : isDigitOf base c = true) : Passed c := by
  obtain ⟨d, hd, -⟩ := Iff.mp isDigitOf_iff h
  exact (passed_spec c).2 (by rw [hd]; exact Option.some_ne_none d)

theorem ulongDigits_read (base : ℕ) (negative : Bool) (read : ℕ) (str : List UInt8) :
    (ulongDigits base negative read str).read = read + (str.takeWhile (isDigitOf base)).length := by
  unfold ulongDigits
  dsimp only
  split_ifs <;> rfl

theorem strtoul_passed (str : List UInt8) (base : ℕ) : PassedAll str (strtoul str base).read := by
  have hspaces := PassedAll.takeWhile (fun c h => (passed_spec c).1 h) str
  have hdigits := fun str => PassedAll.takeWhile (fun c h => @passed_of_isDigitOf base c h) str
  have hfirst : ∀ {str : List UInt8} {c : UInt8}, str.head? = some c →
    Passed c → PassedAll str 1 := by
    intro str c hhead hc
    cases str with
    | nil => cases hhead
    | cons d str =>
        obtain rfl := Option.some.inj hhead
        exact PassedAll.one hc
  have hsign : ∀ rest : List UInt8, PassedAll rest
      (if rest.head? = some (ascii '-') ∨ rest.head? = some (ascii '+') then 1 else 0) := by
    intro rest
    split_ifs with h
    · rcases h with h | h
      · exact hfirst h (by decide)
      · exact hfirst h (by decide)
    · exact PassedAll.zero rest
  have hmark : ∀ rest : List UInt8, rest.head? = some (ascii '0') →
      ((rest.drop 1).head? = some (ascii 'x') ∨ (rest.drop 1).head? = some (ascii 'X')) →
      PassedAll rest 2 := by
    intro rest hzero hx
    refine (hfirst hzero (by decide)).add (j := 1) ?_
    rcases hx with hx | hx
    · exact hfirst hx (by decide)
    · exact hfirst hx (by decide)
  have hboth := hspaces.add (hsign _)
  unfold strtoul
  dsimp only
  generalize (str.takeWhile isspace).length = k at hboth ⊢
  generalize (if (str.drop k).head? = some (ascii '-') ∨ (str.drop k).head? = some (ascii '+')
    then 1 else 0) = j at hboth ⊢
  rw [List.drop_drop]
  split
  · next hhex =>
      have hall := (hboth.add (hmark _ hhex.2.1 hhex.2.2.1)).add (hdigits _)
      rw [← List.drop_drop] at hall
      rw [ulongDigits_read]
      exact hall
  · split
    · rw [ulongDigits_read]
      exact hboth.add (hdigits _)
    · exact PassedAll.zero str

theorem convertStrToCharOrd_passed (str : List UInt8) (base : ℕ) :
    PassedAll str (convertStrToCharOrd str base).1 := by
  unfold convertStrToCharOrd
  dsimp only
  split_ifs
  · exact strtoul_passed str base
  · exact PassedAll.zero str

theorem parseUnicodeEscape_passed (ptr : List UInt8) (n digits : ℕ) :
    (parseUnicodeEscape ptr n digits).1 = 0 ∨
      (parseUnicodeEscape ptr n digits).1 = 2 + digits ∧ PassedAll (ptr.drop 2) digits := by
  unfold parseUnicodeEscape
  dsimp only
  split_ifs with hn hdigits
  · exact Or.inl rfl
  · exact Or.inl rfl
  · exact Or.inl rfl
  · refine Or.inr ⟨rfl, fun i hi => ?_⟩
    rw [charAt_drop]
    apply @passed_of_isDigitOf 16
    by_contra hnot
    refine hdigits (List.any_eq_true.mpr ⟨_, List.mem_map.mpr ⟨i, List.mem_range.mpr hi, rfl⟩, ?_⟩)
    unfold isxdigit
    rw [Bool.not_eq_true] at hnot
    rw [hnot]
    rfl

theorem isdigit_spec (c : UInt8) : (isdigit c = true → isspace c = false ∧
    c ≠ ascii '-' ∧ c ≠ ascii '+' ∧
      (isDigitOf 8 c = true ∨ c = ascii '8' ∨ c = ascii '9')) ∧
    (isodigit c = true → isDigitOf 8 c = true ∧ isdigit c = true) :=
  forall_byte (p := fun c => (isdigit c = true → isspace c = false ∧ c ≠ ascii '-' ∧ c ≠ ascii '+' ∧
      (isDigitOf 8 c = true ∨ c = ascii '8' ∨ c = ascii '9')) ∧
    (isodigit c = true → isDigitOf 8 c = true ∧ isdigit c = true)) (by decide +kernel) c

theorem strtoul_digit (hx : isdigit x = true) : strtoul (x :: s) 8 =
    if isDigitOf 8 x = true then ulongDigits 8 false 0 (x :: s) else ⟨0, 0, false⟩ := by
  obtain ⟨hspace, hminus, hplus, -⟩ := (isdigit_spec x).1 hx
  have hspaces : (x :: s).takeWhile isspace = [] := by
    rw [List.takeWhile_cons_of_neg (by rw [hspace]; exact Bool.false_ne_true)]
  have hneg : (x :: s).head? ≠ some (ascii '-') := fun h => hminus (Option.some.inj h)
  have hpos : (x :: s).head? ≠ some (ascii '+') := fun h => hplus (Option.some.inj h)
  unfold strtoul
  dsimp only
  rw [hspaces]
  simp only [List.length_nil, List.drop_zero, hneg, hpos, or_self,
    if_false, decide_false, Nat.add_zero]
  rw [if_neg (fun h => absurd h.1 (by decide))]
  rfl

/-- Where a digit is not read, it is none of base 8, or the number is no character of one byte.
Kind: L -/
theorem convertStrToCharOrd_unread (hx : isdigit x = true)
    (h : (convertStrToCharOrd (x :: s) 8).1 = 0) :
    255 < (convertStrToCharOrd (x :: s) 8).2 ∨
      (convertStrToCharOrd (x :: s) 8).2 = 0 ∧ (x = ascii '8' ∨ x = ascii '9') := by
  unfold convertStrToCharOrd at h ⊢
  dsimp only at h ⊢
  rw [strtoul_digit hx] at h ⊢
  by_cases hoctal : isDigitOf 8 x = true
  · left
    rw [if_pos hoctal] at h ⊢
    split_ifs at h with hfits
    · rw [ulongDigits_read, List.takeWhile_cons_of_pos hoctal, List.length_cons] at h
      omega
    · rw [Bool.and_eq_true, not_and_or, decide_eq_true_iff, Bool.not_eq_true,
        Bool.not_eq_false'] at hfits
      rcases hfits with hbig | hover
      · exact UInt32.not_le.mp hbig
      · have hvalue : (ulongDigits 8 false 0 (x :: s)).value = 2 ^ 64 - 1 := by
          unfold ulongDigits at hover ⊢
          dsimp only at hover ⊢
          split_ifs at hover ⊢
          rfl
        rw [hvalue]
        decide
  · right
    rw [if_neg hoctal]
    exact ⟨rfl, ((isdigit_spec x).1 hx).2.2.2.resolve_left hoctal⟩

/-- More than one digit is read behind a zero. Kind: L -/
theorem convertStrToCharOrd_octal (hy : isDigitOf 8 y = true) :
    (convertStrToCharOrd (ascii '0' :: y :: t) 8).1 ≠ 1 := by
  have hzero : isDigitOf 8 (ascii '0') = true := by decide
  have hread : (strtoul (ascii '0' :: y :: t) 8).read =
    0 + ((t.takeWhile (isDigitOf 8)).length + 1 + 1) := by
    rw [strtoul_digit (by decide), if_pos hzero, ulongDigits_read, List.takeWhile_cons_of_pos hzero,
      List.takeWhile_cons_of_pos hy, List.length_cons, List.length_cons]
  unfold convertStrToCharOrd
  dsimp only
  split_ifs <;> omega

/-- Source: the `switch` of `convertEscapeSeq`. Kind: L -/
theorem convertEscapeSeq_slash (hn : 2 ≤ n) : convertEscapeSeq (ascii '\\' :: s) n =
    match simpleEscape (charAt s 0) with
    | some res => some (2, res)
    | none =>
        if charAt s 0 = ascii 'x' then
          if n ≤ 2 then some (0, 0)
          else some (2 + (convertStrToCharOrd (s.drop 1) 16).1,
            (convertStrToCharOrd (s.drop 1) 16).2)
        else if charAt s 0 = ascii '0' && !(isodigit (charAt s 1) && isodigit (charAt s 2)) then
          some (2, 0)
        else if charAt s 0 = ascii 'u' then
          if n < 6 then some (0, 0) else some (parseUnicodeEscape (ascii '\\' :: s) n 4)
        else if charAt s 0 = ascii 'U' then
          if n < 10 then some (0, 0) else some (parseUnicodeEscape (ascii '\\' :: s) n 8)
        else if isdigit (charAt s 0) then
          some (1 + (convertStrToCharOrd s 8).1, (convertStrToCharOrd s 8).2)
        else some (0, 0) := by
  have hfirst : charAt (ascii '\\' :: s) 0 = ascii '\\' := rfl
  unfold convertEscapeSeq
  rw [if_neg (by omega), if_pos hfirst, if_neg (by omega)]
  rfl

/-- **What is read behind a backslash**: nothing, one of the sequences of two characters, or
characters that are passed. Kind: L -/
theorem convertEscapeSeq_cases (h : convertEscapeSeq (ascii '\\' :: s) n = some (m, ch)) :
    m = 0 ∨ (∃ x t, s = x :: t ∧ simpleEscape x = some ch ∧ m = 2 ∧ 2 ≤ n) ∨
    (simpleEscape (charAt s 0) = none ∧
      (∃ xs t, s = xs ++ t ∧ m = xs.length + 1 ∧ ∀ c ∈ xs, Passed c) ∧
      (m = 1 → 255 < ch ∨ ch = 0 ∧ (charAt s 0 = ascii '8' ∨ charAt s 0 = ascii '9')) ∧
      (charAt s 0 = ascii '0' → isodigit (charAt s 1) = true ∧ m ≠ 2 ∨
        m = 2 ∧ ch = 0 ∧ 2 ≤ n)) := by
  have hother : ∀ {k : ℕ}, PassedAll s k → ∃ xs t, s = xs ++ t ∧ k + 1 = xs.length + 1 ∧
      ∀ c ∈ xs, Passed c := by
    intro k hk
    obtain ⟨xs, t, rfl, rfl, hxs⟩ := hk.split
    exact ⟨xs, t, rfl, rfl, hxs⟩
  by_cases hn : n < 2
  · left
    unfold convertEscapeSeq at h
    by_cases hzero : n = 0
    · rw [if_pos hzero] at h
      cases h
      rfl
    · have hfirst : charAt (ascii '\\' :: s) 0 = ascii '\\' := rfl
      rw [if_neg hzero, if_pos hfirst, if_pos (by omega)] at h
      cases h
      rfl
  rw [convertEscapeSeq_slash (Nat.not_lt.mp hn)] at h
  cases hsimple : simpleEscape (charAt s 0) with
  | some res =>
      rw [hsimple] at h
      cases h
      right; left
      cases s with
      | nil => cases hsimple
      | cons x t => exact ⟨x, t, rfl, hsimple, rfl, Nat.not_lt.mp hn⟩
  | none =>
      rw [hsimple] at h
      dsimp only at h
      by_cases hx : charAt s 0 = ascii 'x'
      · rw [if_pos hx] at h
        split_ifs at h with hshort
        · cases h
          exact Or.inl rfl
        · cases h
          refine Or.inr (Or.inr ⟨rfl, ?_, fun h => by
            omega, fun h => absurd (hx.symm.trans h) (by decide)⟩)
          have hone : PassedAll s 1 := PassedAll.one (by rw [hx]; decide)
          obtain ⟨xs, t, hs, hlen, hxs⟩ :=
            hother (hone.add (convertStrToCharOrd_passed (s.drop 1) 16))
          exact ⟨xs, t, hs, by rw [← hlen]; omega, hxs⟩
      rw [if_neg hx] at h
      have hdigits : ∀ {x t}, s = x :: t → isdigit x = true →
          (∃ xs t, s = xs ++ t ∧ 1 + (convertStrToCharOrd s 8).1 = xs.length + 1 ∧
            ∀ c ∈ xs, Passed c) ∧
          (1 + (convertStrToCharOrd s 8).1 = 1 → 255 < (convertStrToCharOrd s 8).2 ∨
            (convertStrToCharOrd s 8).2 = 0 ∧
              (charAt s 0 = ascii '8' ∨ charAt s 0 = ascii '9')) := by
        intro x t hs hdigit
        subst hs
        obtain ⟨xs, t, hs, hlen, hxs⟩ := hother (convertStrToCharOrd_passed (x :: t) 8)
        refine ⟨⟨xs, t, hs, by omega, hxs⟩, fun hone => ?_⟩
        exact convertStrToCharOrd_unread hdigit (by omega)
      by_cases hzero : charAt s 0 = ascii '0'
      · by_cases hoctal : isodigit (charAt s 1) = true ∧ isodigit (charAt s 2) = true
        · rw [hzero, hoctal.1, hoctal.2] at h
          change some (1 + (convertStrToCharOrd s 8).1, (convertStrToCharOrd s 8).2) = _ at h
          cases h
          rcases s with _ | ⟨x, _ | ⟨y, t⟩⟩
          · exact absurd hzero (by decide)
          · exact absurd hoctal.1 (by change ¬ isodigit 0 = true; decide)
          · obtain rfl : x = ascii '0' := hzero
            obtain ⟨hread, hone⟩ := hdigits rfl (by decide)
            have hmore := convertStrToCharOrd_octal (t := t) ((isdigit_spec y).2 hoctal.1).1
            exact Or.inr (Or.inr ⟨rfl, hread, hone, fun _ => Or.inl ⟨hoctal.1, by omega⟩⟩)
        · rw [if_pos (by
            rw [Bool.and_eq_true, decide_eq_true_iff, Bool.not_eq_true', Bool.and_eq_false_iff]
            refine ⟨hzero, ?_⟩
            rwa [not_and_or, Bool.not_eq_true, Bool.not_eq_true] at hoctal)] at h
          cases h
          obtain ⟨xs, t, hs, hlen, hxs⟩ := hother (@PassedAll.one s (by rw [hzero]; decide))
          exact Or.inr (Or.inr ⟨rfl, ⟨xs, t, hs, hlen, hxs⟩, fun h => absurd h (by decide),
            fun _ => Or.inr ⟨rfl, rfl, Nat.not_lt.mp hn⟩⟩)
      · rw [if_neg (by rw [decide_eq_false hzero]; exact Bool.false_ne_true)] at h
        have hunicode : ∀ {digits : ℕ}, Passed (charAt s 0) →
            some (parseUnicodeEscape (ascii '\\' :: s) n (digits + 1)) = some (m, ch) →
            m = 0 ∨ m ≠ 1 ∧ ∃ xs t, s = xs ++ t ∧ m = xs.length + 1 ∧ ∀ c ∈ xs, Passed c := by
          intro digits hpassed h
          rcases parseUnicodeEscape_passed (ascii '\\' :: s) n (digits + 1) with hm | ⟨hm, hds⟩
          · rw [Option.some.inj h] at hm
            exact Or.inl hm
          · rw [Option.some.inj h] at hm
            obtain ⟨xs, t, hs, hlen, hxs⟩ := hother ((PassedAll.one hpassed).add hds)
            exact Or.inr ⟨by omega, xs, t, hs, by omega, hxs⟩
        by_cases hu : charAt s 0 = ascii 'u'
        · rw [if_pos hu] at h
          split_ifs at h with hshort
          · cases h
            exact Or.inl rfl
          · rcases hunicode (by rw [hu]; decide) h with hm | ⟨hm, hread⟩
            · exact Or.inl hm
            · exact Or.inr (Or.inr ⟨rfl, hread, fun h => absurd h hm, fun h => absurd h hzero⟩)
        rw [if_neg hu] at h
        by_cases hU : charAt s 0 = ascii 'U'
        · rw [if_pos hU] at h
          split_ifs at h with hshort
          · cases h
            exact Or.inl rfl
          · rcases hunicode (by rw [hU]; decide) h with hm | ⟨hm, hread⟩
            · exact Or.inl hm
            · exact Or.inr (Or.inr ⟨rfl, hread, fun h => absurd h hm, fun h => absurd h hzero⟩)
        rw [if_neg hU] at h
        split_ifs at h with hdigit
        · cases h
          cases s with
          | nil => exact absurd hdigit (by decide)
          | cons x t =>
              obtain ⟨hread, hone⟩ := hdigits rfl hdigit
              exact Or.inr (Or.inr ⟨rfl, hread, hone, fun h => absurd h hzero⟩)
        · cases h
          exact Or.inl rfl

end CxyCompiler.Core
