import CxyCompiler.Lib.Block
import CxyCompiler.Lib.Numeral
import Mathlib.Algebra.Ring.Int.Defs

/-!
# 128-bit numerals (`core/utils.c`)

`strtou128` is the conversion behind integer literals; `formatu128` and `formati128` write a number
into a buffer, in chunks of 19 digits. A string in memory is the list of its bytes; it ends at a NUL
and, in the model, at the end of the list.

* `strtou128_digits` — **a text of digits is converted to what it stands for**, or the conversion
  reports that it does not fit.
* `formatu128_spec`, `formati128_spec` — what is written is the decimal numeral.
-/

namespace CxyCompiler.Core

open CxyCompiler.Lib CxyCompiler.Lib.Numeral

/-- Source: `__uint128_t`. -/
abbrev U128 := BitVec 128

/-- The values of `errno` that are set here. -/
inductive Errno
  | einval
  | erange
deriving DecidableEq, Repr

/-- Source: `isspace` of the C locale. -/
def isspace (c : UInt8) : Bool := c = 32 || (9 ≤ c && c ≤ 13)

/-! ## From a text to a number -/

/-- What `strtou128` returns, what is left at `*endptr`, and `errno` where it is set. -/
structure Converted where
  value : U128
  endptr : List UInt8
  errno : Option Errno
deriving DecidableEq, Repr

/-- Another digit would not fit. Source: `utils.c` `strtou128`, `cutoff` and `cutlim`. -/
def overflows (base : ℕ) (result : U128) (digit : ℕ) : Bool :=
  let cutoff := BitVec.allOnes 128 / BitVec.ofNat 128 base
  let cutlim := (BitVec.allOnes 128 % BitVec.ofNat 128 base).toNat
  cutoff < result || (result = cutoff && cutlim < digit)

/-- The loop of `strtou128`. -/
def convertDigits (base : ℕ) (result : U128) : List UInt8 → Converted
  | [] => ⟨result, [], none⟩
  | c :: str =>
      if c = 0 then ⟨result, c :: str, none⟩
      else
        match digitOf c with
        | none => ⟨result, c :: str, none⟩
        | some digit =>
            if base ≤ digit then ⟨result, c :: str, none⟩
            else if overflows base result digit then
              ⟨BitVec.allOnes 128, c :: str, some .erange⟩
            else
              convertDigits base (result * BitVec.ofNat 128 base + BitVec.ofNat 128 digit) str

/-- A `0x` of base 16 and a `0b` of base 2 are passed over. -/
def skipBasePrefix (base : ℕ) (str : List UInt8) : List UInt8 :=
  match str with
  | z :: x :: rest =>
      if base = 16 ∧ z = ascii '0' ∧ (x = ascii 'x' ∨ x = ascii 'X') then rest
      else if base = 2 ∧ z = ascii '0' ∧ (x = ascii 'b' ∨ x = ascii 'B') then rest
      else str
  | _ => str

/-- Source: `utils.c` `strtou128`; base 0 is refused before it is looked at. -/
def strtou128 (str : List UInt8) (base : ℕ) : Converted :=
  if base < 2 ∨ 36 < base then ⟨0, str, some .einval⟩
  else
    match str.dropWhile isspace with
    | [] => ⟨0, [], none⟩
    | c :: str =>
        if c = 0 then ⟨0, c :: str, none⟩
        else if c = ascii '+' then convertDigits base 0 (skipBasePrefix base str)
        else if c = ascii '-' then ⟨0, c :: str, some .erange⟩
        else convertDigits base 0 (skipBasePrefix base (c :: str))

/-! ## From a number to a text -/

/-- A buffer that is written: its cells, the next cell and how many are left. -/
structure Writer where
  cells : List UInt8
  buf : ℕ
  remaining : ℕ
deriving DecidableEq, Repr

/-- `snprintf(*buf, *remaining, …)` of a text, and the steps after it. A write outside of the buffer
is not defined. -/
def put (text : List UInt8) (w : Writer) : Option Writer := do
  let cells ←
    if w.remaining = 0 then some w.cells
    else Block.write w.cells w.buf (text.take (w.remaining - 1) ++ [0])
  if 0 < text.length ∧ text.length ≤ w.remaining then
    some ⟨cells, w.buf + text.length, w.remaining - text.length⟩
  else some ⟨cells, w.buf, w.remaining⟩

/-- Source: `utils.c` `pu64_to_buffer`. -/
def pu64_to_buffer (u : BitVec 64) : Writer → Option Writer := put (decimal u.toNat)

/-- Source: `utils.c` `pu640_to_buffer`; `%019` fills up with zeros. -/
def pu640_to_buffer (u : BitVec 64) : Writer → Option Writer := put (padded 19 u.toNat)

/-- Source: `utils.c` `d19_`. -/
def d19 : U128 := 10000000000000000000

/-- Source: `utils.c` `d38_`. -/
def d38 : U128 := d19 * d19

/-- Source: `utils.c` `formatu128`. -/
def formatu128 (u : U128) (buffer : List UInt8) : Option (List UInt8 × ℕ) :=
  if buffer.length = 0 then some (buffer, 0)
  else do
    let w : Writer := ⟨buffer, 0, buffer.length⟩
    let w ←
      if u < d19 then pu64_to_buffer (u.setWidth 64) w
      else if u < d38 then do
        let w ← pu64_to_buffer ((u / d19).setWidth 64) w
        pu640_to_buffer ((u % d19).setWidth 64) w
      else do
        let w ← pu64_to_buffer ((u / d38).setWidth 64) w
        let u := u % d38
        let w ← pu640_to_buffer ((u / d19).setWidth 64) w
        pu640_to_buffer ((u % d19).setWidth 64) w
    some (w.cells, buffer.length - w.remaining)

/-- The rest of a number behind a sign in the first cell of a buffer. -/
def formatBehind (sign : UInt8) (u : U128) (rest : List UInt8) : Option (List UInt8 × ℕ) := do
  let r ← formatu128 u rest
  some (sign :: r.1, r.2 + 1)

/-- Source: `utils.c` `formati128`. -/
def formati128 (i : BitVec 128) (buffer : List UInt8) : Option (List UInt8 × ℕ) :=
  match buffer with
  | [] => some ([], 0)
  | first :: rest =>
      if i.slt 0 then
        if rest = [] then some ([0], 0)
        else if i = BitVec.ofNat 128 1 <<< 127 then
          formatBehind (ascii '-') (BitVec.ofNat 128 1 <<< 127) rest
        else formatBehind (ascii '-') (-i) rest
      else formatu128 i (first :: rest)

/-! ## What the conversion returns -/

variable {base : ℕ}

/-- The test for overflow, for a quotient and a remainder. Kind: L -/
theorem overflow_bound {a d m b : ℕ} (hd : d < b) :
    (m / b < a ∨ a = m / b ∧ m % b < d) ↔ m < a * b + d := by
  have hdiv := Nat.div_add_mod m b
  have hrem := Nat.mod_lt m (Nat.zero_lt_of_lt hd)
  rw [Nat.mul_comm] at hdiv
  rcases Nat.lt_trichotomy a (m / b) with hlt | heq | hgt
  · have hle : (a + 1) * b ≤ m / b * b := Nat.mul_le_mul_right b hlt
    rw [Nat.succ_mul] at hle
    omega
  · subst heq
    omega
  · have hle : (m / b + 1) * b ≤ a * b := Nat.mul_le_mul_right b hgt
    rw [Nat.succ_mul] at hle
    omega

/-- **The test of `strtou128` is exact.** Kind: P -/
theorem overflows_iff {result : U128} {digit : ℕ} (hbase : base ≤ 36) (hd : digit < base) :
    overflows base result digit = true ↔ 2 ^ 128 ≤ result.toNat * base + digit := by
  have hbaseNat : (BitVec.ofNat 128 base).toNat = base := by
    rw [BitVec.toNat_ofNat]
    exact Nat.mod_eq_of_lt (by omega)
  have hcut : (BitVec.allOnes 128 / BitVec.ofNat 128 base).toNat = (2 ^ 128 - 1) / base := by
    rw [BitVec.toNat_udiv, hbaseNat, BitVec.toNat_allOnes]
  have hlim : (BitVec.allOnes 128 % BitVec.ofNat 128 base).toNat = (2 ^ 128 - 1) % base := by
    rw [BitVec.toNat_umod, hbaseNat, BitVec.toNat_allOnes]
  have hbound := overflow_bound (a := result.toNat) (m := 2 ^ 128 - 1) hd
  unfold overflows
  rw [Bool.or_eq_true, Bool.and_eq_true, decide_eq_true_iff, decide_eq_true_iff,
    decide_eq_true_iff, BitVec.lt_def, ← BitVec.toNat_inj, hcut, hlim, hbound]
  omega

theorem convertDigits_digit {c : UInt8} {digit : ℕ} (hc : digitOf c = some digit)
    (hd : digit < base) (result : U128) (str : List UInt8) :
    convertDigits base result (c :: str) =
      if overflows base result digit then ⟨BitVec.allOnes 128, c :: str, some .erange⟩
      else convertDigits base (result * BitVec.ofNat 128 base + BitVec.ofNat 128 digit) str := by
  have hnul : c ≠ 0 := by
    rintro rfl
    rw [show digitOf 0 = none by decide] at hc
    cases hc
  rw [convertDigits, if_neg hnul, hc]
  exact if_neg (Nat.not_le.mpr hd)

/-- The loop stops in front of everything else. Kind: L -/
theorem convertDigits_stops {rest : List UInt8} (h : ∀ c ∈ rest.head?, isDigitOf base c = false)
    (result : U128) : convertDigits base result rest = ⟨result, rest, none⟩ := by
  cases rest with
  | nil => rfl
  | cons c rest =>
      have hc := h c rfl
      rw [convertDigits]
      split_ifs
      · rfl
      · cases hdigit : digitOf c with
        | none => rfl
        | some digit =>
            have hle : base ≤ digit := by
              rw [isDigitOf, hdigit, Option.any_some, decide_eq_false_iff_not] at hc
              exact Nat.not_lt.mp hc
            exact if_pos hle

/-- **Digits are converted to what they stand for, behind what has been read.** Kind: L -/
theorem convertDigits_append {ds rest : List UInt8} (hbase : base ≤ 36) (hds : IsNumeral base ds)
    (hrest : ∀ c ∈ rest.head?, isDigitOf base c = false) (result : U128) :
    (ds.foldl (shift base) result.toNat < 2 ^ 128 →
      convertDigits base result (ds ++ rest) =
        ⟨BitVec.ofNat 128 (ds.foldl (shift base) result.toNat), rest, none⟩) ∧
    (2 ^ 128 ≤ ds.foldl (shift base) result.toNat →
      ∃ left, convertDigits base result (ds ++ rest) =
        ⟨BitVec.allOnes 128, left, some .erange⟩) := by
  induction ds generalizing result with
  | nil =>
      refine ⟨fun _ => ?_, fun h => absurd result.isLt (Nat.not_lt.mpr h)⟩
      rw [List.nil_append, convertDigits_stops hrest, List.foldl_nil, BitVec.ofNat_toNat,
        BitVec.setWidth_eq]
  | cons c ds ih =>
      obtain ⟨⟨digit, hdigit, hlt⟩, hds⟩ := hds.cons
      have hover := @overflows_iff base result _ hbase hlt
      have hshift : shift base result.toNat c = result.toNat * base + digit := by
        rw [shift, hdigit]
        rfl
      rw [List.cons_append, convertDigits_digit hdigit hlt, List.foldl_cons, hshift]
      by_cases h : 2 ^ 128 ≤ result.toNat * base + digit
      · -- more digits do not make the number smaller
        have hle := le_foldl_shift (Nat.zero_lt_of_lt hlt) ds (result.toNat * base + digit)
        rw [if_pos (Iff.mpr hover h)]
        exact ⟨fun hsmall => absurd hsmall (Nat.not_lt.mpr (Nat.le_trans h hle)),
          fun _ => ⟨_, rfl⟩⟩
      · have hnat : (result * BitVec.ofNat 128 base + BitVec.ofNat 128 digit).toNat =
            result.toNat * base + digit := by
          rw [BitVec.toNat_add, BitVec.toNat_mul, BitVec.toNat_ofNat, BitVec.toNat_ofNat,
            Nat.mod_eq_of_lt (by omega : base < 2 ^ 128),
            Nat.mod_eq_of_lt (by omega : digit < 2 ^ 128),
            Nat.mod_eq_of_lt (by omega : result.toNat * base < 2 ^ 128)]
          exact Nat.mod_eq_of_lt (Nat.not_le.mp h)
        rw [if_neg fun htrue => h (Iff.mp hover htrue), ← hnat]
        exact ih hds _

/-- A digit is none of the characters that `strtou128` treats in front of a number. Kind: L -/
theorem digit_first {c : UInt8} (h : isDigitOf base c = true) :
    isspace c = false ∧ c ≠ 0 ∧ c ≠ ascii '+' ∧ c ≠ ascii '-' := by
  have hsome : (digitOf c).isSome = true := by
    obtain ⟨d, hd, -⟩ := Iff.mp isDigitOf_iff h
    rw [hd]
    rfl
  have hnot : ∀ d : UInt8, digitOf d = none → c ≠ d := by
    rintro d hd rfl
    rw [hd] at hsome
    cases hsome
  refine ⟨?_, hnot 0 (by decide), hnot _ (by decide), hnot _ (by decide)⟩
  by_contra hspace
  rw [Bool.not_eq_false, isspace, Bool.or_eq_true, Bool.and_eq_true, decide_eq_true_iff,
    decide_eq_true_iff, decide_eq_true_iff, UInt8.le_iff_toNat_le, UInt8.le_iff_toNat_le,
    ← UInt8.toNat_inj] at hspace
  have hsmall : c.toNat ≤ 32 := by
    rcases hspace with heq | ⟨-, hle⟩
    · exact Nat.le_of_eq heq
    · exact Nat.le_trans hle (by decide)
  have hbelow : ∀ d e : UInt8, 32 < d.toNat → ¬ (d ≤ c ∧ c ≤ e) := by
    intro d e hd hde
    have hle := Iff.mp UInt8.le_iff_toNat_le hde.1
    omega
  rw [digitOf, if_neg (hbelow _ _ (by decide)), if_neg (hbelow _ _ (by decide)),
    if_neg (hbelow _ _ (by decide))] at hsome
  cases hsome

/-- Digits with nothing behind them that could make a prefix. Kind: L -/
theorem skipBasePrefix_digits {ds rest : List UInt8} (hds : IsNumeral base ds)
    (hrest : ∀ c ∈ rest.head?, digitOf c = none) :
    skipBasePrefix base (ds ++ rest) = ds ++ rest := by
  have hletters : ∀ x : UInt8, digitOf x = none ∨ isDigitOf base x = true →
      ¬ (base = 16 ∧ (x = ascii 'x' ∨ x = ascii 'X')) ∧
        ¬ (base = 2 ∧ (x = ascii 'b' ∨ x = ascii 'B')) := by
    intro x hx
    refine ⟨?_, ?_⟩ <;> rintro ⟨rfl, rfl | rfl⟩ <;> revert hx <;> decide
  have hsecond : ∀ z x r, ds ++ rest = z :: x :: r → digitOf z = none ∨
      (digitOf x = none ∨ isDigitOf base x = true) := by
    intro z x r h
    cases ds with
    | nil =>
        rw [List.nil_append] at h
        exact Or.inl (hrest z (by rw [h]; rfl))
    | cons d ds =>
        obtain ⟨-, h⟩ := List.cons.inj h
        cases ds with
        | nil =>
            have h : rest = x :: r := h
            exact Or.inr (Or.inl (hrest x (by rw [h]; rfl)))
        | cons e ds =>
            obtain ⟨rfl, -⟩ := List.cons.inj h
            exact Or.inr (Or.inr (hds e (List.mem_cons_of_mem d List.mem_cons_self)))
  unfold skipBasePrefix
  split
  · rename_i z x r heq
    rcases hsecond z x r heq with hz | hx
    · have hzero : z ≠ ascii '0' := by
        rintro rfl
        exact absurd hz (by decide)
      rw [if_neg fun h => hzero h.2.1, if_neg fun h => hzero h.2.1]
    · obtain ⟨h16, h2⟩ := hletters x hx
      rw [if_neg fun h => h16 ⟨h.1, h.2.2⟩, if_neg fun h => h2 ⟨h.1, h.2.2⟩]
  · rfl

/-- **A text of digits is converted to what it stands for**, and what is behind it is left; a number
that does not fit is reported. Kind: P -/
theorem strtou128_digits {c : UInt8} {ds rest : List UInt8} (hlow : 2 ≤ base) (hbase : base ≤ 36)
    (hds : IsNumeral base (c :: ds)) (hrest : ∀ c ∈ rest.head?, isDigitOf base c = false)
    (hskip : skipBasePrefix base (c :: ds ++ rest) = c :: ds ++ rest) :
    (value base (c :: ds) < 2 ^ 128 →
      strtou128 (c :: ds ++ rest) base = ⟨BitVec.ofNat 128 (value base (c :: ds)), rest, none⟩) ∧
    (2 ^ 128 ≤ value base (c :: ds) →
      ∃ left, strtou128 (c :: ds ++ rest) base = ⟨BitVec.allOnes 128, left, some .erange⟩) := by
  obtain ⟨hspace, hnul, hplus, hminus⟩ := digit_first (hds c List.mem_cons_self)
  have hstart : strtou128 (c :: ds ++ rest) base = convertDigits base 0 (c :: ds ++ rest) := by
    unfold strtou128
    rw [if_neg (by omega), List.cons_append, List.dropWhile_cons_of_neg (by rw [hspace]; decide)]
    dsimp only
    rw [if_neg hnul, if_neg hplus, if_neg hminus, ← List.cons_append, hskip]
  rw [hstart]
  exact convertDigits_append hbase hds hrest 0

/-! ## What is written -/

/-- A buffer after a text has been written from its start. -/
def Writer.behind (text buffer : List UInt8) : Writer :=
  ⟨text ++ 0 :: buffer.drop (text.length + 1), text.length, buffer.length - text.length⟩

/-- A text that fits is written behind what there is, with a NUL behind it. Kind: L -/
theorem put_append {p r text : List UInt8} (hpos : 0 < text.length) (h : text.length < r.length) :
    put text ⟨p ++ r, p.length, r.length⟩ =
      some ⟨p ++ text ++ 0 :: r.drop (text.length + 1), p.length + text.length,
        r.length - text.length⟩ := by
  have htake : text.take (r.length - 1) = text := List.take_of_length_le (by omega)
  have hlen : (text ++ [(0 : UInt8)]).length = text.length + 1 := by
    rw [List.length_append, List.length_singleton]
  have hwrite : Block.write (p ++ r) p.length (text ++ [0]) =
      some (p ++ text ++ 0 :: r.drop (text.length + 1)) := by
    rw [Block.write_append rfl (by omega), hlen]
    simp only [List.append_assoc, List.cons_append, List.nil_append]
  unfold put
  dsimp only
  rw [if_neg (by omega), htake, hwrite, Option.bind_eq_bind, Option.bind_some,
    if_pos ⟨hpos, Nat.le_of_lt h⟩]

theorem put_first {text buffer : List UInt8} (hpos : 0 < text.length)
    (h : text.length < buffer.length) :
    put text ⟨buffer, 0, buffer.length⟩ = some (Writer.behind text buffer) := by
  have hput := put_append (p := []) hpos h
  rw [List.nil_append, List.nil_append, List.length_nil, Nat.zero_add] at hput
  exact hput

theorem put_next {p text buffer : List UInt8} (hpos : 0 < text.length)
    (h : (p ++ text).length < buffer.length) :
    put text (Writer.behind p buffer) = some (Writer.behind (p ++ text) buffer) := by
  rw [List.length_append] at h
  have hleft : (0 :: buffer.drop (p.length + 1)).length = buffer.length - p.length := by
    rw [List.length_cons, List.length_drop]
    omega
  have hput := put_append (p := p) (r := 0 :: buffer.drop (p.length + 1)) hpos (by omega)
  rw [hleft, List.drop_succ_cons, List.drop_drop] at hput
  rw [Writer.behind, hput, Writer.behind, List.length_append, Nat.sub_sub,
    Nat.add_right_comm p.length 1]

theorem length_decimal_pos (n : ℕ) : 0 < (decimal n).length :=
  List.length_pos_iff.mpr (decimal_ne_nil n)

/-- Both chunks of a number with a low part of 19 digits. Kind: L -/
theorem decimal_chunks {u : ℕ} (h : 10 ^ 19 ≤ u) :
    decimal u = decimal (u / 10 ^ 19) ++ padded 19 (u % 10 ^ 19) := by
  have hsplit := decimal_mul_pow_add (a := u / 10 ^ 19) (b := u % 10 ^ 19) (k := 19)
    (Nat.div_pos h (by decide)) (by decide) (Nat.mod_lt _ (by decide))
  rwa [Nat.div_add_mod'] at hsplit

theorem length_padded_pos (n : ℕ) : 0 < (padded 19 n).length := by
  rw [padded, List.leftpad, List.length_append]
  exact Nat.add_pos_right _ (length_decimal_pos n)

/-- A number of at most 64 bits is handed over unchanged. Kind: L -/
theorem toNat_setWidth_of_lt {v : U128} (h : v.toNat < 2 ^ 64) :
    (v.setWidth 64).toNat = v.toNat := by
  rw [BitVec.toNat_setWidth, Nat.mod_eq_of_lt h]

/-- **What `formatu128` writes is the decimal numeral**, where it fits with its NUL. Kind: P -/
theorem formatu128_spec {u : U128} {buffer : List UInt8}
    (h : (decimal u.toNat).length < buffer.length) :
    formatu128 u buffer =
      some (decimal u.toNat ++ 0 :: buffer.drop ((decimal u.toNat).length + 1),
        (decimal u.toNat).length) := by
  have h19 : d19.toNat = 10 ^ 19 := by decide
  have h38 : d38.toNat = 10 ^ 38 := by decide
  have hu := u.isLt
  have hreturned : buffer.length - (buffer.length - (decimal u.toNat).length) =
      (decimal u.toNat).length := Nat.sub_sub_self (Nat.le_of_lt h)
  unfold formatu128
  rw [if_neg (by omega)]
  dsimp only
  by_cases hsmall : u < d19
  · have hlt : u.toNat < 10 ^ 19 := by
      rw [← h19]
      exact hsmall
    rw [if_pos hsmall, pu64_to_buffer, toNat_setWidth_of_lt (by omega),
      put_first (length_decimal_pos _) h, Option.bind_eq_bind, Option.bind_some, Writer.behind,
      hreturned]
  · have hge : 10 ^ 19 ≤ u.toNat := by
      rw [← h19]
      exact Nat.not_lt.mp hsmall
    have hchunks := decimal_chunks hge
    rw [if_neg hsmall]
    by_cases hmiddle : u < d38
    · have hlt : u.toNat < 10 ^ 38 := by
        rw [← h38]
        exact hmiddle
      have hdiv : ((u / d19).setWidth 64).toNat = u.toNat / 10 ^ 19 := by
        have hnat : (u / d19).toNat = u.toNat / 10 ^ 19 := by rw [BitVec.toNat_udiv, h19]
        rw [toNat_setWidth_of_lt (by omega), hnat]
      have hmod : ((u % d19).setWidth 64).toNat = u.toNat % 10 ^ 19 := by
        have hnat : (u % d19).toNat = u.toNat % 10 ^ 19 := by rw [BitVec.toNat_umod, h19]
        rw [toNat_setWidth_of_lt (by omega), hnat]
      rw [if_pos hmiddle, pu64_to_buffer, pu640_to_buffer, hdiv, hmod]
      rw [hchunks] at h hreturned ⊢
      have hfirst := h
      rw [List.length_append] at hfirst
      simp only [Option.bind_eq_bind, Option.bind_some, put_first (length_decimal_pos _)
        (Nat.lt_of_le_of_lt (Nat.le_add_right _ _) hfirst), put_next (length_padded_pos _) h]
      rw [Writer.behind, hreturned]
    · have hge' : 10 ^ 38 ≤ u.toNat := by
        rw [← h38]
        exact Nat.not_lt.mp hmiddle
      have hchunks' := decimal_chunks (u := u.toNat / 10 ^ 19) (by omega)
      have hhigh : ((u / d38).setWidth 64).toNat = u.toNat / 10 ^ 19 / 10 ^ 19 := by
        have hnat : (u / d38).toNat = u.toNat / 10 ^ 38 := by rw [BitVec.toNat_udiv, h38]
        rw [toNat_setWidth_of_lt (by omega), hnat]
        omega
      have hrest : (u % d38).toNat = u.toNat % 10 ^ 38 := by rw [BitVec.toNat_umod, h38]
      have hdiv : ((u % d38 / d19).setWidth 64).toNat = u.toNat / 10 ^ 19 % 10 ^ 19 := by
        have hnat : (u % d38 / d19).toNat = u.toNat % 10 ^ 38 / 10 ^ 19 := by
          rw [BitVec.toNat_udiv, hrest, h19]
        rw [toNat_setWidth_of_lt (by omega), hnat]
        omega
      have hmod : ((u % d38 % d19).setWidth 64).toNat = u.toNat % 10 ^ 19 := by
        have hnat : (u % d38 % d19).toNat = u.toNat % 10 ^ 38 % 10 ^ 19 := by
          rw [BitVec.toNat_umod, hrest, h19]
        rw [toNat_setWidth_of_lt (by omega), hnat]
        omega
      rw [if_neg hmiddle, pu64_to_buffer, pu640_to_buffer, pu640_to_buffer, hhigh, hdiv, hmod]
      rw [hchunks, hchunks'] at h hreturned ⊢
      have hsecond := h
      rw [List.length_append] at hsecond
      have hsecond := Nat.lt_of_le_of_lt (Nat.le_add_right _ _) hsecond
      have hfirst := hsecond
      rw [List.length_append] at hfirst
      simp only [Option.bind_eq_bind, Option.bind_some, put_first (length_decimal_pos _)
        (Nat.lt_of_le_of_lt (Nat.le_add_right _ _) hfirst), put_next (length_padded_pos _) hsecond,
        put_next (length_padded_pos _) h]
      rw [Writer.behind, hreturned]

/-- The decimal numeral of an integer. -/
def numeral (i : ℤ) : List UInt8 :=
  if i < 0 then ascii '-' :: decimal i.natAbs else decimal i.natAbs

theorem formatBehind_spec {sign : UInt8} {u : U128} {rest : List UInt8}
    (h : (decimal u.toNat).length < rest.length) :
    formatBehind sign u rest =
      some (sign :: (decimal u.toNat ++ 0 :: rest.drop ((decimal u.toNat).length + 1)),
        (decimal u.toNat).length + 1) := by
  rw [formatBehind, formatu128_spec h]
  rfl

/-- **What `formati128` writes is the decimal numeral**, where it fits with its NUL; the smallest
number is no exception. Kind: P -/
theorem formati128_spec {i : BitVec 128} {buffer : List UInt8}
    (h : (numeral i.toInt).length < buffer.length) :
    formati128 i buffer =
      some (numeral i.toInt ++ 0 :: buffer.drop ((numeral i.toInt).length + 1),
        (numeral i.toInt).length) := by
  have hi := i.isLt
  cases buffer with
  | nil => exact absurd h (Nat.not_lt_zero _)
  | cons first rest =>
      rw [formati128]
      by_cases hneg : i.slt 0
      · have hlt : i.toInt < 0 := by
          rw [BitVec.slt_iff_toInt_lt] at hneg
          exact hneg
        have hnat : i.toInt.natAbs = 2 ^ 128 - i.toNat := by
          rw [BitVec.toInt_eq_toNat_cond] at hlt ⊢
          split_ifs at hlt ⊢ <;> omega
        have hpos : 0 < i.toNat := by
          rw [BitVec.toInt_eq_toNat_cond] at hlt
          split_ifs at hlt <;> omega
        rw [numeral, if_pos hlt, List.length_cons, List.length_cons] at h
        have hroom := Nat.lt_of_succ_lt_succ h
        have hrest : rest ≠ [] := by
          rintro rfl
          exact absurd hroom (Nat.not_lt_zero _)
        rw [if_pos hneg, if_neg hrest, numeral, if_pos hlt]
        by_cases hmin : i = BitVec.ofNat 128 1 <<< 127
        · have habs : (BitVec.ofNat 128 1 <<< 127 : U128).toNat = i.toInt.natAbs := by
            rw [hnat, hmin]
            decide
          rw [if_pos hmin, formatBehind_spec (by rw [habs]; exact hroom), habs]
          rfl
        · have habs : (-i).toNat = i.toInt.natAbs := by
            rw [hnat, BitVec.toNat_neg]
            exact Nat.mod_eq_of_lt (by omega)
          rw [if_neg hmin, formatBehind_spec (by rw [habs]; exact hroom), habs]
          rfl
      · have hge : ¬ i.toInt < 0 := by
          rw [BitVec.slt_iff_toInt_lt] at hneg
          exact hneg
        have hnat : i.toInt.natAbs = i.toNat := by
          rw [BitVec.toInt_eq_toNat_cond] at hge ⊢
          split_ifs at hge ⊢ <;> omega
        rw [numeral, if_neg hge, hnat] at h ⊢
        rw [if_neg hneg, formatu128_spec h]

/-! ## Round trips -/

/-- A number that `formatu128` has written is read back, up to the NUL. Kind: L -/
theorem strtou128_decimal (u : U128) (rest : List UInt8) :
    strtou128 (decimal u.toNat ++ 0 :: rest) 10 = ⟨u, 0 :: rest, none⟩ := by
  have hds := isNumeral_decimal u.toNat
  have hvalue := value_decimal u.toNat
  have hskip : skipBasePrefix 10 (decimal u.toNat ++ 0 :: rest) = decimal u.toNat ++ 0 :: rest :=
    skipBasePrefix_digits hds fun c hc => by
      obtain rfl := Option.some.inj hc
      decide
  cases hdecimal : decimal u.toNat with
  | nil => exact absurd hdecimal (decimal_ne_nil _)
  | cons c ds =>
      rw [hdecimal] at hds hvalue hskip
      have hread := (strtou128_digits (by decide) (by decide) hds (fun c hc => by
        obtain rfl := Option.some.inj hc
        decide) hskip).1 (by rw [hvalue]; exact u.isLt)
      rw [hread, hvalue, BitVec.ofNat_toNat, BitVec.setWidth_eq]

/-- The rest of a block behind a string that ends there. -/
def EndsString (rest : List UInt8) : Prop := ∀ c ∈ rest.head?, c = 0

/-- **128-bit numerals round trip.** Any buffer will do that has room for the numeral and its NUL.
Kind: P -/
theorem numerals_round_trip :
    (∀ (u : U128) (buffer : List UInt8), (decimal u.toNat).length < buffer.length →
      ∃ rest, formatu128 u buffer =
          some (decimal u.toNat ++ 0 :: rest, (decimal u.toNat).length) ∧
        strtou128 (decimal u.toNat ++ 0 :: rest) 10 = ⟨u, 0 :: rest, none⟩) ∧
    (∀ (i : BitVec 128) (buffer : List UInt8), (numeral i.toInt).length < buffer.length →
      ∃ rest, formati128 i buffer =
        some (numeral i.toInt ++ 0 :: rest, (numeral i.toInt).length)) ∧
    (∀ (base : ℕ) (ds rest : List UInt8), 2 ≤ base → base ≤ 36 → IsNumeral base ds →
      EndsString rest →
      (value base ds < 2 ^ 128 →
        strtou128 (ds ++ rest) base = ⟨BitVec.ofNat 128 (value base ds), rest, none⟩) ∧
      (2 ^ 128 ≤ value base ds →
        (strtou128 (ds ++ rest) base).errno = some .erange ∧
          (strtou128 (ds ++ rest) base).value = BitVec.allOnes 128)) := by
  refine ⟨fun u buffer h => ⟨_, formatu128_spec h, strtou128_decimal u _⟩,
    fun i buffer h => ⟨_, formati128_spec h⟩, ?_⟩
  intro base ds rest hlow hbase hds hrest
  have hnone : ∀ c ∈ rest.head?, digitOf c = none := by
    intro c hc
    rw [hrest c hc]
    decide
  have hstop : ∀ c ∈ rest.head?, isDigitOf base c = false := by
    intro c hc
    rw [isDigitOf, hnone c hc]
    rfl
  cases ds with
  | nil =>
      refine ⟨fun _ => ?_, fun h => absurd h (Nat.not_le.mpr (Nat.two_pow_pos 128))⟩
      cases rest with
      | nil =>
          rw [strtou128, if_neg (by omega)]
          rfl
      | cons c rest =>
          obtain rfl := hrest c rfl
          rw [strtou128, if_neg (by omega)]
          rfl
  | cons c ds =>
      have hread := strtou128_digits hlow hbase hds hstop (skipBasePrefix_digits hds hnone)
      refine ⟨hread.1, fun h => ?_⟩
      obtain ⟨left, hleft⟩ := hread.2 h
      rw [hleft]
      exact ⟨rfl, rfl⟩

/-- The smallest number, in a buffer as large as the callers have. Kind: L -/
theorem smallest_round_trip :
    ∃ rest, formati128 (BitVec.intMin 128) (List.replicate 64 0) =
      some (numeral (-2 ^ 127) ++ 0 :: rest, (numeral (-2 ^ 127)).length) := by
  have hmin : (BitVec.intMin 128).toInt = -2 ^ 127 := by decide
  have hlen : (numeral (-2 ^ 127)).length < (List.replicate 64 (0 : UInt8)).length := by
    have hle : (decimal (2 ^ 127)).length ≤ 39 := length_decimal_le (by decide) (by decide)
    rw [List.length_replicate, numeral, if_pos (by decide), List.length_cons]
    exact Nat.lt_of_le_of_lt (Nat.succ_le_succ hle) (by decide)
  rw [← hmin] at hlen ⊢
  exact (numerals_round_trip).2.1 _ _ hlen

end CxyCompiler.Core
