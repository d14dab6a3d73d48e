import CxyCompiler.Stdlib.Base64

/-!
# Percent and hexadecimal texts (`stdlib/base64.cxy`, `stdlib/utils.cxy`, `runtime/builtins.cxy`)

As in Base64, a read behind the input is not defined, and a `char` is written as the UTF-8 of what
it is widened to.

* `percentEncodeBuffer`, `percentEncodeSizeBuffer`, `percentDecodeBuffer` — the text of a query.
* `toHexString`, `fromHex` — two digits for an octet.
* `percentDecodeBuffer_eq` — the decoder computes `decoded`: it ends and reads nothing behind its
  input.
* `codecs_iff` — **a text is read back if and only if it is ASCII**, all else holds of every text.
-/

namespace CxyCompiler.Stdlib.Percent

open CxyCompiler.Lib.Numeral (forall_byte)
open CxyCompiler.Stdlib.Base64

/-! ## Percent encoding -/

/-- The characters that are not encoded. Source: `base64.cxy` `percentEncodeBuffer`,
`percentEncodeSizeBuffer`. -/
def isUnreserved (c : UInt8) : Bool :=
  (decide (ch 'A' ≤ c) && decide (c ≤ ch 'Z')) || (decide (ch 'a' ≤ c) && decide (c ≤ ch 'z')) ||
    (decide (ch '0' ≤ c) && decide (c ≤ ch '9')) || c == ch '-' || c == ch '_' || c == ch '.' ||
      c == ch '~'

def hexChars : Bytes := text "0123456789ABCDEF"

/-- Source: `base64.cxy` `percentEncodeBuffer`, a round. -/
def percentEncodeByte (signed : Bool) (c : UInt8) : Bytes :=
  if c = ch ' ' then putChar signed (ch '+')
  else if isUnreserved c then putChar signed c
  else putChar signed (ch '%') ++ putChar signed (charOf hexChars (c >>> 4)) ++
    putChar signed (charOf hexChars (c &&& 0x0F))

/-- The rounds from `i` on. -/
def percentEncodeFrom (signed : Bool) (p : Bytes) : ℕ → ℕ → Except Fault Bytes
  | 0, _ => .ok []
  | n + 1, i => do
      let c ← read p i
      let out ← percentEncodeFrom signed p n (i + 1)
      .ok (percentEncodeByte signed c ++ out)

/-- Source: `base64.cxy` `percentEncodeBuffer`. -/
def percentEncodeBuffer (signed : Bool) (p : Bytes) (size : ℕ) : Except Fault Bytes :=
  percentEncodeFrom signed p size 0

/-- What a round adds to `encodedSize`. -/
def percentEncodedSize (c : UInt8) : UInt64 :=
  if c = ch ' ' then 1
  else if isUnreserved c then 1
  else 3

/-- The rounds from `i` on. -/
def percentEncodeSizeFrom (p : Bytes) : ℕ → ℕ → UInt64 → Except Fault UInt64
  | 0, _, encodedSize => .ok encodedSize
  | n + 1, i, encodedSize => do
      let c ← read p i
      percentEncodeSizeFrom p n (i + 1) (encodedSize + percentEncodedSize c)

/-- Source: `base64.cxy` `percentEncodeSizeBuffer`. -/
def percentEncodeSizeBuffer (p : Bytes) (size : ℕ) : Except Fault UInt64 :=
  percentEncodeSizeFrom p size 0 0

/-! ## Percent decoding -/

/-- A `char` that is negative is none of them. Source: `base64.cxy` and `utils.cxy`
`_hexCharToValue`. -/
def hexCharToValue (c : UInt8) : Int8 :=
  if ch '0' ≤ c ∧ c ≤ ch '9' then (c - ch '0').toInt8
  else if ch 'a' ≤ c ∧ c ≤ ch 'f' then (c - ch 'a' + 10).toInt8
  else if ch 'A' ≤ c ∧ c ≤ ch 'F' then (c - ch 'A' + 10).toInt8
  else -1

/-- `(high << 4) | low`. -/
def joinHex (high low : Int8) : UInt8 := ((high <<< 4) ||| low).toUInt8

/-- From `i` on; `fuel` is more than there are rounds. Source: `base64.cxy`
`percentDecodeBuffer`. -/
def percentDecodeFrom (signed : Bool) (p : Bytes) (size : ℕ) : ℕ → ℕ → Except Fault Bytes
  | 0, _ => .error .outside
  | fuel + 1, i =>
      if i < size then do
        let c ← read p i
        if c = ch '+' then do
          let out ← percentDecodeFrom signed p size fuel (i + 1)
          .ok (putChar signed (ch ' ') ++ out)
        else if c = ch '%' ∧ i + 2 < size then do
          let a ← read p (i + 1)
          let b ← read p (i + 2)
          if 0 ≤ hexCharToValue a ∧ 0 ≤ hexCharToValue b then do
            let out ← percentDecodeFrom signed p size fuel (i + 3)
            .ok (putChar signed (joinHex (hexCharToValue a) (hexCharToValue b)) ++ out)
          else do
            let out ← percentDecodeFrom signed p size fuel (i + 1)
            .ok (putChar signed c ++ out)
        else do
          let out ← percentDecodeFrom signed p size fuel (i + 1)
          .ok (putChar signed c ++ out)
      else .ok []

/-- Source: `base64.cxy` `percentDecodeBuffer`. -/
def percentDecodeBuffer (signed : Bool) (p : Bytes) (size : ℕ) : Except Fault Bytes :=
  percentDecodeFrom signed p size (size + 1) 0

/-! ## Hexadecimal texts -/

/-- Source: `builtins.cxy` `toHexString`, the characters. -/
def hexTable (caps : Bool) : Bytes := if caps then hexChars else text "0123456789abcdef"

/-- The digits of an octet. -/
def highDigit (caps : Bool) (c : UInt8) : UInt8 := charOf (hexTable caps) ((c >>> 4) &&& 0xF)

def lowDigit (caps : Bool) (c : UInt8) : UInt8 := charOf (hexTable caps) (c &&& 0xF)

/-- The rounds from `i` on. -/
def toHexFrom (signed caps : Bool) (p : Bytes) : ℕ → ℕ → Except Fault Bytes
  | 0, _ => .ok []
  | n + 1, i => do
      let c ← read p i
      let out ← toHexFrom signed caps p n (i + 1)
      .ok (putChar signed (highDigit caps c) ++ putChar signed (lowDigit caps c) ++ out)

/-- Source: `builtins.cxy` `toHexString`. -/
def toHexString (signed caps : Bool) (p : Bytes) (len : ℕ) : Except Fault Bytes :=
  toHexFrom signed caps p len 0

/-- What ends `fromHex`: an access outside, or an exception. -/
inductive HexFault
  | outside
  | invalidArgument (msg : String)
deriving DecidableEq, Repr

/-- `s.[i]`. -/
def readHex (s : Bytes) (i : ℕ) : Except HexFault UInt8 :=
  match s[i]? with
  | some c => .ok c
  | none => .error .outside

/-- `p.[i] = x`. -/
def write (p : Bytes) (i : ℕ) (x : UInt8) : Except HexFault Bytes :=
  if i < p.length then .ok (p.set i x) else .error .outside

/-- The rounds from `i` on. -/
def fromHexFrom (hexStr : Bytes) : ℕ → ℕ → Bytes → Except HexFault Bytes
  | 0, _, p => .ok p
  | n + 1, i, p =>
      if i % 2 = 0 then do
        let a ← readHex hexStr i
        let b ← readHex hexStr (i + 1)
        if hexCharToValue a < 0 ∨ hexCharToValue b < 0 then
          .error (.invalidArgument "Invalid hex character")
        else do
          let p ← write p (i / 2) (joinHex (hexCharToValue a) (hexCharToValue b))
          fromHexFrom hexStr n (i + 1) p
      else fromHexFrom hexStr n (i + 1) p

/-- What is in `data` then. Source: `utils.cxy` `fromHex`. -/
def fromHex (hexStr data : Bytes) (len : ℕ) : Except HexFault Bytes :=
  if hexStr.length % 2 ≠ 0 then .error (.invalidArgument "Invalid hex string: odd length")
  else if len < hexStr.length / 2 then .error (.invalidArgument "Output buffer too small")
  else fromHexFrom hexStr hexStr.length 0 data

/-! ## Digits -/

variable {signed caps : Bool} {s t u p : Bytes} {c : UInt8}

/-- The digits of an octet are ASCII, and it is what they are joined to. Kind: L -/
theorem digits_spec (caps : Bool) (c : UInt8) :
    isAscii (highDigit caps c) = true ∧ isAscii (lowDigit caps c) = true ∧
      0 ≤ hexCharToValue (highDigit caps c) ∧ 0 ≤ hexCharToValue (lowDigit caps c) ∧
      joinHex (hexCharToValue (highDigit caps c)) (hexCharToValue (lowDigit caps c)) = c := by
  revert c
  cases caps
  · exact forall_byte (by decide +kernel)
  · exact forall_byte (by decide +kernel)

theorem highDigit_caps (c : UInt8) : charOf hexChars (c >>> 4) = highDigit true c := by
  revert c
  exact forall_byte (by decide +kernel)

theorem isUnreserved_spec (c : UInt8) : isUnreserved c = true →
    isAscii c = true ∧ c ≠ ch '+' ∧ c ≠ ch '%' := by
  revert c
  exact forall_byte (by decide +kernel)

/-! ## What the encoders write -/

/-- The text of one octet. -/
def encoded (c : UInt8) : Bytes :=
  if c = ch ' ' then [ch '+']
  else if isUnreserved c then [c]
  else [ch '%', highDigit true c, lowDigit true c]

theorem percentEncodeByte_eq (signed : Bool)
    (c : UInt8) : percentEncodeByte signed c = encoded c := by
  obtain ⟨hhigh, hlow, -⟩ := digits_spec true c
  unfold percentEncodeByte encoded
  by_cases hspace : c = ch ' '
  · rw [if_pos hspace, if_pos hspace]
    exact putChar_ascii signed (by decide)
  · rw [if_neg hspace, if_neg hspace]
    by_cases hplain : isUnreserved c = true
    · rw [if_pos hplain, if_pos hplain]
      exact putChar_ascii signed (isUnreserved_spec c hplain).1
    · rw [if_neg hplain, if_neg hplain, putChar_ascii signed (show isAscii (ch '%') = true by
        decide),
        highDigit_caps, putChar_ascii signed hhigh]
      exact congrArg _ (putChar_ascii signed hlow)

theorem length_encoded (c : UInt8) : (encoded c).length.toUInt64 = percentEncodedSize c := by
  unfold encoded percentEncodedSize
  split_ifs <;> rfl

/-- What is read at `i`, and what is left then. Kind: L -/
theorem read_cons {i : ℕ} (h : p.drop i = c :: t) : Base64.read p i = .ok c ∧
    p.drop (i + 1) = t := by
  have hget : p[i]? = some c := by
    rw [← List.head?_drop, h]
    rfl
  refine ⟨?_, ?_⟩
  · unfold Base64.read
    rw [hget]
  · rw [← List.tail_drop, h]
    rfl

theorem percentEncodeFrom_eq (i : ℕ) (h : p.drop i = s) :
    percentEncodeFrom signed p s.length i = .ok (s.flatMap encoded) := by
  induction s generalizing i with
  | nil => rfl
  | cons c s ih =>
      obtain ⟨hread, hrest⟩ := read_cons h
      rw [List.length_cons, percentEncodeFrom, hread]
      change (percentEncodeFrom signed p s.length (i + 1)).bind _ = _
      rw [ih (i + 1) hrest, List.flatMap_cons, ← percentEncodeByte_eq signed c]
      rfl

/-- **The text that is encoded.** Kind: L -/
theorem percentEncodeBuffer_eq (signed : Bool) (s : Bytes) :
    percentEncodeBuffer signed s s.length = .ok (s.flatMap encoded) :=
  percentEncodeFrom_eq 0 List.drop_zero

theorem percentEncodeSizeFrom_eq (i : ℕ) (size : UInt64) (h : p.drop i = s) :
    percentEncodeSizeFrom p s.length i size = .ok (size + (s.flatMap encoded).length.toUInt64) := by
  induction s generalizing i size with
  | nil =>
      rw [List.length_nil, percentEncodeSizeFrom]
      exact congrArg Except.ok (UInt64.add_zero size).symm
  | cons c s ih =>
      obtain ⟨hread, hrest⟩ := read_cons h
      rw [List.length_cons, percentEncodeSizeFrom, hread]
      change percentEncodeSizeFrom p s.length (i + 1) (size + percentEncodedSize c) = _
      rw [ih (i + 1) _ hrest, List.flatMap_cons, List.length_append,
        ← length_encoded, UInt64.add_assoc]
      refine congrArg (fun k => Except.ok (size + k)) ?_
      exact (UInt64.ofNat_add _ _).symm

/-- **The size that is computed is that of the text.** Kind: P -/
theorem percentEncodeSizeBuffer_eq (s : Bytes) :
    percentEncodeSizeBuffer s s.length = .ok (s.flatMap encoded).length.toUInt64 := by
  unfold percentEncodeSizeBuffer
  rw [percentEncodeSizeFrom_eq 0 0 List.drop_zero, UInt64.zero_add]

theorem toHexFrom_eq (i : ℕ) (h : p.drop i = s) :
    toHexFrom signed caps p s.length i = .ok
      (s.flatMap (fun c => [highDigit caps c, lowDigit caps c])) := by
  induction s generalizing i with
  | nil => rfl
  | cons c s ih =>
      obtain ⟨hread, hrest⟩ := read_cons h
      obtain ⟨hhigh, hlow, -⟩ := digits_spec caps c
      rw [List.length_cons, toHexFrom, hread]
      change (toHexFrom signed caps p s.length (i + 1)).bind _ = _
      rw [ih (i + 1) hrest, List.flatMap_cons]
      change Except.ok (putChar signed _ ++ putChar signed _ ++ s.flatMap (fun c =>
        [highDigit caps c, lowDigit caps c])) = _
      rw [putChar_ascii signed hhigh, putChar_ascii signed hlow]
      rfl

/-- **The digits that are written.** Kind: L -/
theorem toHexString_eq (signed caps : Bool) (s : Bytes) :
    toHexString signed caps s s.length = .ok
      (s.flatMap (fun c => [highDigit caps c, lowDigit caps c])) :=
  toHexFrom_eq 0 List.drop_zero

/-! ## What the decoder writes -/

/-- The octet of two digits at the beginning of a text. -/
def octet : Bytes → Option UInt8
  | a :: b :: _ =>
      if 0 ≤ hexCharToValue a ∧ 0 ≤ hexCharToValue b then
        some (joinHex (hexCharToValue a) (hexCharToValue b))
      else none
  | _ => none

/-- A text is decoded from its beginning on. -/
def decoded (signed : Bool) : Bytes → Bytes
  | [] => []
  | c :: rest =>
      if c = ch '+' then putChar signed (ch ' ') ++ decoded signed rest
      else if c = ch '%' then
        match octet rest with
        | some x => putChar signed x ++ decoded signed (rest.drop 2)
        | none => putChar signed c ++ decoded signed rest
      else putChar signed c ++ decoded signed rest
termination_by t => t.length
decreasing_by
  · exact Nat.lt_succ_self _
  · rw [List.length_drop, List.length_cons]
    omega
  · exact Nat.lt_succ_self _
  · exact Nat.lt_succ_self _

theorem decoded_nil : decoded signed [] = [] := by
  rw [decoded]

theorem decoded_plus (t : Bytes) : decoded signed (ch '+' :: t) = ch ' ' :: decoded signed t := by
  rw [decoded, if_pos rfl, putChar_ascii signed (show isAscii (ch ' ') = true by decide)]
  rfl

theorem decoded_octet {x : UInt8} (h : octet t = some x) :
    decoded signed (ch '%' :: t) = putChar signed x ++ decoded signed (t.drop 2) := by
  rw [decoded, if_neg (by decide), if_pos rfl, h]

/-- **A percent sign without two digits is copied.** Kind: L -/
theorem decoded_percent (h : octet t = none) :
    decoded signed (ch '%' :: t) = ch '%' :: decoded signed t := by
  rw [decoded, if_neg (by decide), if_pos rfl, h,
    putChar_ascii signed (show isAscii (ch '%') = true by decide)]
  rfl

theorem decoded_plain (hplus : c ≠ ch '+') (hpercent : c ≠ ch '%') :
    decoded signed (c :: t) = putChar signed c ++ decoded signed t := by
  rw [decoded, if_neg hplus, if_neg hpercent]

theorem octet_short (h : t.length < 2) : octet t = none := by
  obtain _ | ⟨a, _ | ⟨b, t⟩⟩ := t
  · rfl
  · rfl
  · rw [List.length_cons, List.length_cons] at h
    omega

theorem exists_two (h : 2 ≤ t.length) : ∃ a b r, t = a :: b :: r := by
  obtain _ | ⟨a, _ | ⟨b, t⟩⟩ := t
  · exact absurd h (Nat.not_succ_le_zero _)
  · exact absurd (Nat.le_of_succ_le_succ h) (Nat.not_succ_le_zero _)
  · exact ⟨a, b, t, rfl⟩

/-- **The decoder ends, reads nothing behind its input and writes `decoded`.** Kind: P -/
theorem percentDecodeFrom_eq (fuel i : ℕ) (h : p.drop i = t) (hfuel : t.length < fuel) :
    percentDecodeFrom signed p p.length fuel i = .ok (decoded signed t) := by
  induction fuel generalizing i t with
  | zero => exact absurd hfuel (Nat.not_lt_zero _)
  | succ fuel ih =>
      have hlen : t.length = p.length - i := by rw [← h, List.length_drop]
      rw [percentDecodeFrom]
      obtain _ | ⟨c, rest⟩ := t
      · rw [List.length_nil] at hlen
        rw [if_neg (by omega), decoded_nil]
      · rw [List.length_cons] at hlen hfuel
        obtain ⟨hread, hrest⟩ := read_cons h
        have hcopy := ih (i + 1) hrest (by omega)
        rw [if_pos (by omega), hread]
        change (if c = ch '+' then _ else _) = _
        by_cases hplus : c = ch '+'
        · rw [if_pos hplus, hcopy, hplus, decoded_plus,
            putChar_ascii signed (show isAscii (ch ' ') = true by decide)]
          rfl
        · rw [if_neg hplus]
          by_cases hpercent : c = ch '%'
          · subst hpercent
            by_cases htwo : i + 2 < p.length
            · obtain ⟨a, b, r, rfl⟩ := @exists_two rest (by omega)
              obtain ⟨hreada, hresta⟩ := read_cons hrest
              obtain ⟨hreadb, hrestb⟩ := read_cons hresta
              rw [if_pos ⟨rfl, htwo⟩, hreada, hreadb]
              change (if 0 ≤ hexCharToValue a ∧ 0 ≤ hexCharToValue b then _ else _) = _
              by_cases hdigits : 0 ≤ hexCharToValue a ∧ 0 ≤ hexCharToValue b
              · rw [if_pos hdigits,
                  ih (i + 3) hrestb (by rw [List.length_cons, List.length_cons] at hfuel; omega),
                  decoded_octet (show octet (a :: b :: r) = _ from if_pos hdigits)]
                rfl
              · rw [if_neg hdigits, hcopy,
                  decoded_percent (show octet (a :: b :: r) = none from if_neg hdigits),
                  putChar_ascii signed (show isAscii (ch '%') = true by decide)]
                rfl
            · rw [if_neg (fun hand => htwo hand.2), hcopy,
                decoded_percent (@octet_short rest (by omega)),
                putChar_ascii signed (show isAscii (ch '%') = true by decide)]
              rfl
          · rw [if_neg (fun hand => hpercent hand.1), hcopy, decoded_plain hplus hpercent]
            rfl

theorem percentDecodeBuffer_eq (signed : Bool) (t : Bytes) :
    percentDecodeBuffer signed t t.length = .ok (decoded signed t) :=
  percentDecodeFrom_eq _ 0 List.drop_zero (Nat.lt_succ_self _)

theorem octet_append (t u : Bytes) : octet (t ++ ch '%' :: u) = octet t := by
  have hsign : ¬ 0 ≤ hexCharToValue (ch '%') := by decide
  obtain _ | ⟨a, _ | ⟨b, t⟩⟩ := t
  · obtain _ | ⟨b, u⟩ := u
    · rfl
    · have hfirst : ¬ (0 ≤ hexCharToValue (ch '%') ∧ 0 ≤ hexCharToValue b) :=
        not_and_of_not_left _ hsign
      change octet (ch '%' :: b :: u) = none
      rw [octet, if_neg hfirst]
  · have hsecond : ¬ (0 ≤ hexCharToValue a ∧ 0 ≤ hexCharToValue (ch '%')) :=
      not_and_of_not_right _ hsign
    exact if_neg hsecond
  · rfl

/-- **A sign without two digits is copied wherever it stands**, and what is before and behind it is
decoded. Kind: P -/
theorem decoded_malformed (signed : Bool) (s : Bytes) (h : octet u = none) :
    decoded signed (s ++ ch '%' :: u) = decoded signed s ++ ch '%' :: decoded signed u := by
  fun_induction decoded signed s with
  | case1 => exact decoded_percent h
  | case2 rest ih =>
      rw [List.cons_append, decoded_plus, ih, putChar_ascii signed (show isAscii (ch ' ') = true by
        decide)]
      rfl
  | case3 rest x hx hne ih =>
      have htwo : 2 ≤ rest.length := by
        by_contra hshort
        rw [octet_short (by omega)] at hx
        exact absurd hx (Option.some_ne_none x).symm
      rw [List.cons_append, decoded_octet ((octet_append rest u).trans hx),
        List.drop_append_of_le_length htwo, ih, List.append_assoc]
  | case4 rest hx hne ih =>
      rw [List.cons_append, decoded_percent ((octet_append rest u).trans hx), ih,
        putChar_ascii signed (show isAscii (ch '%') = true by decide)]
      rfl
  | case5 c rest hplus hpercent ih =>
      rw [List.cons_append, decoded_plain hplus hpercent, ih, List.append_assoc]

/-- **What is written for one octet is read back.** Kind: L -/
theorem decoded_encoded (c : UInt8) (t : Bytes) :
    decoded signed (encoded c ++ t) = putChar signed c ++ decoded signed t := by
  unfold encoded
  by_cases hspace : c = ch ' '
  · rw [if_pos hspace, hspace, putChar_ascii signed (show isAscii (ch ' ') = true by decide)]
    exact decoded_plus t
  · rw [if_neg hspace]
    by_cases hplain : isUnreserved c = true
    · obtain ⟨-, hplus, hpercent⟩ := isUnreserved_spec c hplain
      rw [if_pos hplain]
      exact decoded_plain hplus hpercent
    · obtain ⟨-, -, hhigh, hlow, hjoin⟩ := digits_spec true c
      rw [if_neg hplain]
      have hoctet : octet (highDigit true c :: lowDigit true c :: t) = some c := by
        rw [octet, if_pos ⟨hhigh, hlow⟩, hjoin]
      exact decoded_octet hoctet

theorem decoded_flatMap (signed : Bool) (s : Bytes) :
    decoded signed (s.flatMap encoded) = putChars signed s := by
  induction s with
  | nil => exact decoded_nil
  | cons c s ih =>
      rw [List.flatMap_cons, decoded_encoded, ih]
      rfl

/-! ## Hexadecimal texts -/

theorem readHex_cons {i : ℕ} (h : p.drop i = c :: t) : readHex p i = .ok c ∧
    p.drop (i + 1) = t := by
  have hget : p[i]? = some c := by
    rw [← List.head?_drop, h]
    rfl
  refine ⟨?_, ?_⟩
  · unfold readHex
    rw [hget]
  · rw [← List.tail_drop, h]
    rfl

theorem length_flatMap_digits (caps : Bool) (s : Bytes) :
    (s.flatMap fun c => [highDigit caps c, lowDigit caps c]).length = 2 * s.length := by
  induction s with
  | nil => rfl
  | cons c s ih =>
      rw [List.flatMap_cons, List.length_append, ih]
      change 2 + 2 * s.length = 2 * (s.length + 1)
      omega

theorem write_eq (t u : Bytes)
    (a x : UInt8) : write (t ++ a :: u) t.length x = .ok (t ++ x :: u) := by
  unfold write
  rw [if_pos (by rw [List.length_append, List.length_cons]; omega),
    List.set_append_right _ _ (le_refl _),
    Nat.sub_self]
  rfl

/-- With `t` written, the other octets are written behind it. Kind: L -/
theorem fromHexFrom_eq (i : ℕ)
    (h : p.drop i = s.flatMap fun c => [highDigit caps c, lowDigit caps c])
    (hi : i = 2 * t.length) (hroom : s.length ≤ u.length) :
    fromHexFrom p (2 * s.length) i (t ++ u) = .ok (t ++ (s ++ u.drop s.length)) := by
  induction s generalizing i t u with
  | nil => rfl
  | cons c s ih =>
      obtain _ | ⟨a, u⟩ := u
      · exact absurd hroom (Nat.not_succ_le_zero _)
      · rw [List.flatMap_cons] at h
        obtain ⟨hhigh, hrest⟩ := readHex_cons h
        obtain ⟨hlow, hrest⟩ := readHex_cons hrest
        obtain ⟨-, -, hhigh0, hlow0, hjoin⟩ := digits_spec caps c
        have hnone : ¬ (hexCharToValue (highDigit caps c) < 0 ∨
          hexCharToValue (lowDigit caps c) < 0) := by
          rw [not_or]
          exact ⟨Int8.not_lt.mpr hhigh0, Int8.not_lt.mpr hlow0⟩
        have hodd : ¬ (i + 1) % 2 = 0 := by omega
        have hplace : i / 2 = t.length := by omega
        have hnext := @ih (t ++ [c]) u (i + 1 + 1) hrest (by
          rw [List.length_append, List.length_singleton]
          omega) (Nat.le_of_succ_le_succ hroom)
        rw [List.append_assoc, List.append_assoc] at hnext
        rw [List.length_cons, show 2 * (s.length + 1) = 2 * s.length + 1 + 1 from rfl, fromHexFrom,
          if_pos (by omega), hhigh, hlow]
        change (if hexCharToValue (highDigit caps c) < 0 ∨ hexCharToValue (lowDigit caps c) < 0 then
          _
          else (write _ _ _).bind _) = _
        rw [if_neg hnone, hjoin, hplace, write_eq]
        change fromHexFrom p (2 * s.length + 1) (i + 1) (t ++ c :: u) = _
        rw [fromHexFrom, if_neg hodd]
        exact hnext

/-- **The octets are written again.** Kind: P -/
theorem fromHex_eq (caps : Bool) (s u : Bytes) (hroom : s.length ≤ u.length) :
    fromHex (s.flatMap fun c => [highDigit caps c, lowDigit caps c]) u u.length =
      .ok (s ++ u.drop s.length) := by
  unfold fromHex
  rw [length_flatMap_digits, if_neg (by omega), if_neg (by omega)]
  exact @fromHexFrom_eq caps s [] u _ 0 List.drop_zero rfl hroom

/-! ## All texts -/

/-- What the codecs are for, of a text: it is read back from its encoding, whose size is computed;
its digits of either case are read into any buffer that is long enough; decoding it reads nothing
outside, and copies each percent sign without two digits. -/
structure Codecs (signed : Bool) (s : Bytes) : Prop where
  roundTrip : ∃ t, percentEncodeBuffer signed s s.length = .ok t ∧
    percentDecodeBuffer signed t t.length = .ok s
  size : ∃ t, percentEncodeBuffer signed s s.length = .ok t ∧
    percentEncodeSizeBuffer s s.length = .ok t.length.toUInt64
  hex : ∀ caps data, s.length ≤ data.length →
    ∃ t, toHexString signed caps s s.length = .ok t ∧
      fromHex t data data.length = .ok (s ++ data.drop s.length)
  inside : ∃ t, percentDecodeBuffer signed s s.length = .ok t
  malformed : ∀ t u, s = t ++ ch '%' :: u → octet u = none →
    ∃ a b, percentDecodeBuffer signed t t.length = .ok a ∧
      percentDecodeBuffer signed u u.length = .ok b ∧
      percentDecodeBuffer signed s s.length = .ok (a ++ ch '%' :: b)

theorem roundTrip_iff (signed : Bool) (s : Bytes) :
    (∃ t, percentEncodeBuffer signed s s.length = .ok t ∧
      percentDecodeBuffer signed t t.length = .ok s) ↔ ∀ c ∈ s, isAscii c = true := by
  constructor
  · rintro ⟨t, hencode, hdecode⟩
    rw [percentEncodeBuffer_eq] at hencode
    rw [← Except.ok.inj hencode, percentDecodeBuffer_eq, decoded_flatMap] at hdecode
    exact (putChars_eq (Except.ok.inj hdecode) rfl).2
  · intro hascii
    refine ⟨_, percentEncodeBuffer_eq signed s, ?_⟩
    rw [percentDecodeBuffer_eq, decoded_flatMap, putChars_ascii hascii]

/-- **All of it holds of a text if and only if that is ASCII.** Kind: P -/
theorem codecs_iff (signed : Bool) (s : Bytes) : Codecs signed s ↔ ∀ c ∈ s, isAscii c = true := by
  constructor
  · intro h
    exact (roundTrip_iff signed s).mp h.roundTrip
  · intro hascii
    refine ⟨(roundTrip_iff signed s).mpr hascii, ⟨_, percentEncodeBuffer_eq signed s,
      percentEncodeSizeBuffer_eq s⟩, ?_, ⟨_, percentDecodeBuffer_eq signed s⟩, ?_⟩
    · intro caps data hroom
      exact ⟨_, toHexString_eq signed caps s, fromHex_eq caps s data hroom⟩
    · rintro t u rfl hoctet
      refine ⟨_, _, percentDecodeBuffer_eq signed t, percentDecodeBuffer_eq signed u, ?_⟩
      rw [percentDecodeBuffer_eq, decoded_malformed signed t hoctet]

/-- The octet 0xE9 is encoded, and decoded to none or to two others. Kind: L -/
theorem high_octet (signed : Bool) :
    percentEncodeBuffer signed [0xE9] 1 = .ok (text "%E9") ∧
      percentDecodeBuffer signed (text "%E9") 3 = .ok (if signed then [] else [0xC3, 0xA9]) ∧
      ¬ Codecs signed [0xE9] := by
  have hencode : percentEncodeBuffer signed [0xE9] 1 = .ok (text "%E9") := by
    cases signed <;> decide
  have hdecode : percentDecodeBuffer signed (text "%E9") 3 = .ok
    (if signed then [] else [0xC3, 0xA9]) := by
    cases signed <;> decide
  refine ⟨hencode, hdecode, fun h => ?_⟩
  obtain ⟨t, ht, hback⟩ := h.roundTrip
  rw [← Except.ok.inj (hencode.symm.trans ht)] at hback
  have hwrong := Except.ok.inj (hdecode.symm.trans hback)
  cases signed
  · exact absurd hwrong (by decide)
  · exact absurd hwrong (by decide)

/-- The text of the octet 0xE9, with either signedness of `char`. Kind: P -/
theorem decode_high : ¬ Codecs true [0xE9] ∧ ¬ Codecs false [0xE9] :=
  ⟨(high_octet true).2.2, (high_octet false).2.2⟩

end CxyCompiler.Stdlib.Percent
