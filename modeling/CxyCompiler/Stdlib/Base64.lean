import CxyCompiler.Lib.Sextets
import CxyCompiler.Stdlib.Value

/-!
# Base64 (`stdlib/base64.cxy`)

A pointer is what can be read from it on; a read behind the input is not defined. An encoder writes
characters of its alphabet, and a decoder writes `char`s, each as the UTF-8 of what it is widened
to.

* `encodeBuffer`, `decodeBuffer` — with padding.
* `urlEncodeBuffer`, `urlEncodeSize`, `urlDecodeBuffer` — without padding, in the alphabet for URLs.
-/

namespace CxyCompiler.Stdlib.Base64

open CxyCompiler.Lib.Sextets
open CxyCompiler.Lib.Numeral (forall_byte)

/-- What ends a function: a read behind the input, or an exception. -/
inductive Fault
  | outside
  | base64Error (msg : String)
deriving DecidableEq, Repr

/-! ## Tables -/

/-- Source: `base64.cxy` `b64table`. -/
def b64table : Bytes := text "ABCDEFGHIJKLMNOPQRSTUVWXYZabcdefghijklmnopqrstuvwxyz0123456789+/"

/-- Source: `base64.cxy` `b64tableU`. -/
def b64tableU : Bytes := text "ABCDEFGHIJKLMNOPQRSTUVWXYZabcdefghijklmnopqrstuvwxyz0123456789-_"

/-- The places of the characters of `b64table`, and 64 for all others. Source: `base64.cxy`
`ASCII_LOOKUP`. -/
def asciiLookup : Bytes :=
  (List.replicate 43 64 ++ [62] ++ List.replicate 3 64 ++ [63] ++ List.range' 52 10 ++
    List.replicate 7 64 ++ List.range 26 ++ List.replicate 6 64 ++ List.range' 26 26 ++
    List.replicate 133 64).map Nat.toUInt8

/-- A character of an alphabet. -/
def charOf (table : Bytes) (x : UInt8) : UInt8 := table.getD x.toNat 0

def lookup (c : UInt8) : UInt8 := asciiLookup.getD c.toNat 0

/-- `p.[i]`. -/
def read (p : Bytes) (i : ℕ) : Except Fault UInt8 :=
  match p[i]? with
  | some c => .ok c
  | none => .error .outside

/-- `ASCII_LOOKUP.[it.[i]]`. -/
def code (it : Bytes) (i : ℕ) : Except Fault UInt8 := (read it i).map lookup

/-! ## Encoding -/

/-- Source: `base64.cxy` `encodeBuffer`. -/
def encodeBuffer : Bytes → ℕ → Except Fault Bytes
  | p, size + 3 => do
      let a ← read p 0
      let b ← read p 1
      let c ← read p 2
      let out ← encodeBuffer (p.drop 3) size
      .ok (charOf b64table ((a &&& 0xFC) >>> 2) ::
        charOf b64table (((a &&& 0x03) <<< 4) ||| ((b &&& 0xF0) >>> 4)) ::
        charOf b64table (((b &&& 0x0F) <<< 2) ||| ((c &&& 0xC0) >>> 6)) ::
        charOf b64table (c &&& 0x3F) :: out)
  | p, 1 => do
      let a ← read p 0
      .ok (charOf b64table ((a &&& 0xFC) >>> 2) :: charOf b64table ((a &&& 0x03) <<< 4) ::
        text "==")
  | p, 2 => do
      let a ← read p 0
      let b ← read p 1
      .ok (charOf b64table ((a &&& 0xFC) >>> 2) ::
        charOf b64table (((a &&& 0x03) <<< 4) ||| ((b &&& 0xF0) >>> 4)) ::
        charOf b64table ((b &&& 0x0F) <<< 2) :: text "=")
  | _, 0 => .ok []

/-- The bound is a `u64`: below 2 it wraps around. Source: `base64.cxy` `urlEncodeBuffer`, the bound
of the loop. -/
def urlEncodeBound (size : ℕ) : ℕ := (size + (2 ^ 64 - 2)) % 2 ^ 64

/-- `os << <char>c` of characters one after another. -/
def putChars (signed : Bool) (cs : Bytes) : Bytes := cs.flatMap (putChar signed)

/-- A round reads further than the last one; `fuel` is more than there are rounds.
Source: `base64.cxy` `urlEncodeBuffer`, from `i` on. -/
def urlEncodeFrom (signed : Bool) (p : Bytes) (size : ℕ) : ℕ → ℕ → Except Fault Bytes
  | 0, _ => .error .outside
  | fuel + 1, i =>
      if i < urlEncodeBound size then do
        let a ← read p i
        let b ← read p (i + 1)
        let c ← read p (i + 2)
        let out ← urlEncodeFrom signed p size fuel (i + 3)
        .ok (putChars signed [charOf b64tableU ((a >>> 2) &&& 0x3F),
          charOf b64tableU (((a &&& 0x3) <<< 4) ||| ((b &&& 0xF0) >>> 4)),
          charOf b64tableU (((b &&& 0xF) <<< 2) ||| ((c &&& 0xC0) >>> 6)),
          charOf b64tableU (c &&& 0x3F)] ++ out)
      else if i < size then do
        let a ← read p i
        if i = size - 1 then
          .ok (putChars signed [charOf b64tableU ((a >>> 2) &&& 0x3F),
            charOf b64tableU ((a &&& 0x3) <<< 4)])
        else do
          let b ← read p (i + 1)
          .ok (putChars signed [charOf b64tableU ((a >>> 2) &&& 0x3F),
            charOf b64tableU (((a &&& 0x3) <<< 4) ||| ((b &&& 0xF0) >>> 4)),
            charOf b64tableU ((b &&& 0xF) <<< 2)])
      else .ok []

/-- Source: `base64.cxy` `urlEncodeBuffer`. -/
def urlEncodeBuffer (signed : Bool) (p : Bytes) (size : ℕ) : Except Fault Bytes :=
  urlEncodeFrom signed p size (p.length + 1) 0

/-- Source: `base64.cxy` `urlEncodeSize`; a `u64`. -/
def urlEncodeSize (size : ℕ) : ℕ :=
  let i := size - size % 2
  let len := if 0 < i then i * 2 else 0
  (if i < size then if i = size - 1 then len + 1 + 1 else len + 1 + 2 else len) % 2 ^ 64

/-! ## Decoding -/

/-- `ASCII_LOOKUP.[it.[k]] == 64 || …`. -/
def anyInvalid (it : Bytes) : List ℕ → Except Fault Bool
  | [] => .ok false
  | k :: ks => do
      let x ← code it k
      if x = 64 then .ok true else anyInvalid it ks

/-- The octets of four characters. -/
def putGroup (signed : Bool) (it : Bytes) : Except Fault Bytes := do
  let x ← code it 0
  let y ← code it 1
  let z ← code it 2
  let w ← code it 3
  .ok (putChars signed [join₁ x y, join₂ y z, join₃ z w])

/-- The octets of the characters at the end. -/
def putTail (signed : Bool) (it : Bytes) (sz : ℕ) : Except Fault Bytes := do
  let o₁ ←
    if 1 < sz then do
      let x ← code it 0
      let y ← code it 1
      .ok (putChars signed [join₁ x y])
    else .ok []
  let o₂ ←
    if 2 < sz then do
      let y ← code it 1
      let z ← code it 2
      .ok (putChars signed [join₂ y z])
    else .ok []
  let o₃ ←
    if 3 < sz then do
      let z ← code it 2
      let w ← code it 3
      .ok (putChars signed [join₃ z w])
    else .ok []
  .ok (o₁ ++ o₂ ++ o₃)

/-- `while (i < 4 && p.[i] != '=' && ASCII_LOOKUP.[it.[i]] != 64) i++`, with `n` rounds left; `p` is
where the input begins. -/
def countCodes (p it : Bytes) : ℕ → ℕ → Except Fault ℕ
  | 0, i => .ok i
  | n + 1, i => do
      let c ← read p i
      if c = ch '=' then .ok i
      else do
        let x ← code it i
        if x = 64 then .ok i else countCodes p it n (i + 1)

/-- `(sz - i) != 0 && it.[i] != '='`. -/
def badEnd (it : Bytes) (sz i : ℕ) : Except Fault Bool :=
  if sz = i then .ok false else (read it i).map fun c => decide (c ≠ ch '=')

/-- The characters at the end, with padding. -/
def decodeTail (signed : Bool) (p it : Bytes) (sz : ℕ) : Except Fault Bytes := do
  let i ← countCodes p it 4 0
  let bad ← badEnd it sz i
  if bad then .error (.base64Error "base64::decode - invalid base64 encoded string passed")
  else putTail signed it ((sz + (2 ^ 64 - (4 - i))) % 2 ^ 64)

/-- The loop of `decodeBuffer` and what is behind it. -/
def decodeFrom (signed : Bool) (p : Bytes) : Bytes → ℕ → Except Fault Bytes
  | it, sz + 5 => do
      let bad ← anyInvalid it [0, 1, 2, 3]
      if bad then .error (.base64Error "base64::decode - invalid base64 encoded string passed")
      else do
        let o ← putGroup signed it
        let out ← decodeFrom signed p (it.drop 4) (sz + 1)
        .ok (o ++ out)
  | it, 4 => decodeTail signed p it 4
  | it, 3 => decodeTail signed p it 3
  | it, 2 => decodeTail signed p it 2
  | it, 1 => decodeTail signed p it 1
  | it, 0 => decodeTail signed p it 0

/-- Source: `base64.cxy` `decodeBuffer`. -/
def decodeBuffer (signed : Bool) (p : Bytes) (size : ℕ) : Except Fault Bytes :=
  decodeFrom signed p p size

/-- Source: `base64.cxy` `urlDecodeBuffer`. -/
def urlDecodeBuffer (signed : Bool) : Bytes → ℕ → Except Fault Bytes
  | it, sz + 5 => do
      let bad ← anyInvalid it [0, 1, 2, 3]
      if bad then .error (.base64Error "Base64::urlDecode - invalid base64 encoded string passed")
      else do
        let o ← putGroup signed it
        let out ← urlDecodeBuffer signed (it.drop 4) (sz + 1)
        .ok (o ++ out)
  | it, 4 => putTail signed it 4
  | it, 3 => putTail signed it 3
  | it, 2 => putTail signed it 2
  | it, 1 => putTail signed it 1
  | it, 0 => putTail signed it 0

/-! ## What is written -/

variable {signed : Bool} {s t p it : Bytes} {x c : UInt8}

theorem isAscii_iff : isAscii c = true ↔ c.toNat < 128 := by
  unfold isAscii
  rw [decide_eq_true_iff, UInt8.lt_iff_toNat_lt]
  rfl

/-- ASCII characters are written as they are. Kind: L -/
theorem putChars_ascii (h : ∀ c ∈ s, isAscii c = true) : putChars signed s = s := by
  induction s with
  | nil => rfl
  | cons c s ih =>
      obtain ⟨hc, hs⟩ := List.forall_mem_cons.mp h
      have hrest : s.flatMap (putChar signed) = s := ih hs
      rw [putChars, List.flatMap_cons, putChar_ascii signed hc, hrest]
      rfl

/-- Every other character is written as none or as two. Kind: L -/
theorem length_putChars (signed : Bool) (s : Bytes) :
    (putChars signed s).length =
      if signed then s.countP isAscii
        else s.countP isAscii + 2 * s.countP (fun c => !isAscii c) := by
  induction s with
  | nil => cases signed <;> rfl
  | cons c s ih =>
      unfold putChars at ih ⊢
      rw [List.flatMap_cons, List.length_append, ih, List.countP_cons, List.countP_cons]
      cases hc : isAscii c with
      | true =>
          rw [putChar_ascii signed hc]
          cases signed <;> simp <;> omega
      | false =>
          cases signed with
          | true =>
              rw [putChar_signed hc]
              simp
          | false =>
              obtain ⟨a, b, hput, -⟩ := putChar_unsigned hc
              rw [hput]
              simp
              omega

/-- **What is written is what was to be written only in ASCII.** Kind: P -/
theorem putChars_eq (h : putChars signed t = s) (hlen : t.length = s.length) :
    t = s ∧ ∀ c ∈ s, isAscii c = true := by
  have hwritten := length_putChars signed t
  have hall : t.length = t.countP isAscii + t.countP (fun c => !isAscii c) := by
    simpa using List.length_eq_countP_add_countP isAscii
  have hcount : t.countP isAscii = t.length := by
    rw [h, ← hlen] at hwritten
    cases signed
    · rw [if_neg Bool.false_ne_true] at hwritten
      omega
    · rw [if_pos rfl] at hwritten
      omega
  have hascii := List.countP_eq_length.mp hcount
  rw [putChars_ascii hascii] at h
  subst h
  exact ⟨rfl, hascii⟩

/-! ## Where the decoder reads -/

/-- A read within the text succeeds. Kind: L -/
theorem read_inside {i : ℕ} (h : i < p.length) : ∃ c, read p i = .ok c := by
  unfold read
  rw [List.getElem?_eq_getElem h]
  exact ⟨_, rfl⟩

theorem code_inside {i : ℕ} (h : i < it.length) : ∃ x, code it i = .ok x := by
  obtain ⟨c, hc⟩ := read_inside h
  unfold code
  rw [hc]
  exact ⟨_, rfl⟩

/-- The test of a group reads within the codes. Kind: L -/
theorem anyInvalid_inside (ks : List ℕ)
    (h : ∀ k ∈ ks, k < it.length) : ∃ b, anyInvalid it ks = .ok b := by
  induction ks with
  | nil => exact ⟨false, rfl⟩
  | cons k ks ih =>
      obtain ⟨hk, hks⟩ := List.forall_mem_cons.mp h
      obtain ⟨x, hx⟩ := code_inside hk
      obtain ⟨b, hb⟩ := ih hks
      unfold anyInvalid
      rw [hx, hb]
      by_cases h64 : x = 64
      · exact ⟨true, if_pos h64⟩
      · exact ⟨b, if_neg h64⟩

/-- A group of four is read within the codes. Kind: L -/
theorem putGroup_inside (h : 4 ≤ it.length) : ∃ o, putGroup signed it = .ok o := by
  obtain ⟨x, hx⟩ := code_inside (show 0 < it.length by omega)
  obtain ⟨y, hy⟩ := code_inside (show 1 < it.length by omega)
  obtain ⟨z, hz⟩ := code_inside (show 2 < it.length by omega)
  obtain ⟨w, hw⟩ := code_inside (show 3 < it.length by omega)
  unfold putGroup
  rw [hx, hy, hz, hw]
  exact ⟨_, rfl⟩

theorem putTail_inside (h : 4 ≤ it.length) (sz : ℕ) : ∃ o, putTail signed it sz = .ok o := by
  obtain ⟨x, hx⟩ := code_inside (show 0 < it.length by omega)
  obtain ⟨y, hy⟩ := code_inside (show 1 < it.length by omega)
  obtain ⟨z, hz⟩ := code_inside (show 2 < it.length by omega)
  obtain ⟨w, hw⟩ := code_inside (show 3 < it.length by omega)
  unfold putTail
  rw [hx, hy, hz, hw]
  split_ifs <;> exact ⟨_, rfl⟩

/-- The count of codes reads within both texts. Kind: L -/
theorem countCodes_inside (n i : ℕ) (hp : i + n ≤ p.length) (hit : i + n ≤ it.length) :
    ∃ j, j ≤ i + n ∧ countCodes p it n i = .ok j := by
  induction n generalizing i with
  | zero => exact ⟨i, le_refl _, rfl⟩
  | succ n ih =>
      obtain ⟨c, hc⟩ := read_inside (show i < p.length by omega)
      obtain ⟨x, hx⟩ := code_inside (show i < it.length by omega)
      obtain ⟨j, hj, hrest⟩ := ih (i + 1) (by omega) (by omega)
      unfold countCodes
      rw [hc, hx]
      by_cases hpad : c = ch '='
      · exact ⟨i, Nat.le_add_right _ _, if_pos hpad⟩
      · by_cases h64 : x = 64
        · exact ⟨i, Nat.le_add_right _ _, (if_neg hpad).trans (if_pos h64)⟩
        · exact ⟨j, by omega, (if_neg hpad).trans ((if_neg h64).trans hrest)⟩

/-- The last group is read within the text. Kind: L -/
theorem decodeTail_inside (hp : 4 ≤ p.length) (hit : 5 ≤ it.length) (sz : ℕ) :
    decodeTail signed p it sz ≠ .error .outside := by
  obtain ⟨j, hj, hcount⟩ := @countCodes_inside p it 4 0 (by omega) (by omega)
  have hbad : ∃ b, badEnd it sz j = .ok b := by
    unfold badEnd
    obtain ⟨c, hc⟩ := read_inside (show j < it.length by omega)
    rw [hc]
    split_ifs <;> exact ⟨_, rfl⟩
  obtain ⟨b, hb⟩ := hbad
  obtain ⟨o, ho⟩ := @putTail_inside signed it (by omega) ((sz + (2 ^ 64 - (4 - j))) % 2 ^ 64)
  have hrun : decodeTail signed p it sz =
      if b = true then .error (.base64Error "base64::decode - invalid base64 encoded string passed")
      else .ok o := by
    unfold decodeTail
    rw [hcount]
    change (badEnd it sz j).bind _ = _
    rw [hb]
    change (if b = true then _ else putTail signed it _) = _
    rw [ho]
  rw [hrun]
  by_cases h : b = true
  · rw [if_pos h]
    intro heq
    cases heq
  · rw [if_neg h]
    intro heq
    cases heq

/-- **The decoder reads nothing behind its input** if that is longer than whole groups. Kind: P -/
theorem decodeFrom_inside (hp : 4 ≤ p.length) (it : Bytes) (sz : ℕ)
    (hit : 4 * ((sz - 1) / 4 + 1) + 1 ≤ it.length) : decodeFrom signed p it sz ≠
      .error .outside := by
  fun_induction decodeFrom signed p it sz with
  | case1 it sz ih =>
      obtain ⟨b, hb⟩ := @anyInvalid_inside it [0, 1, 2, 3] (by
        intro k hk
        have hk4 : k < 4 := by
          simp only [List.mem_cons, List.not_mem_nil, or_false] at hk
          omega
        omega)
      obtain ⟨o, ho⟩ := @putGroup_inside signed it (by omega)
      have hrest := ih (by rw [List.length_drop]; omega)
      rw [hb]
      change (if b = true then _ else (putGroup signed it).bind _) ≠ _
      rw [ho]
      by_cases h : b = true
      · rw [if_pos h]
        intro heq
        cases heq
      · rw [if_neg h]
        change (decodeFrom signed p (it.drop 4) (sz + 1)).bind _ ≠ _
        intro heq
        cases hout : decodeFrom signed p (it.drop 4) (sz + 1) with
        | ok out =>
            rw [hout] at heq
            cases heq
        | error fault =>
            rw [hout] at heq
            cases heq
            exact hrest hout
  | case2 => exact decodeTail_inside hp (by omega) 4
  | case3 => exact decodeTail_inside hp (by omega) 3
  | case4 => exact decodeTail_inside hp (by omega) 2
  | case5 => exact decodeTail_inside hp (by omega) 1
  | case6 => exact decodeTail_inside hp (by omega) 0

/-! ## Memory behind the input -/

/-- What the first one returns the second one returns too. -/
def Keeps {α : Type} (a b : Except Fault α) : Prop := ∀ x, a = .ok x → b = .ok x

theorem Keeps.refl {α : Type} (a : Except Fault α) : Keeps a a := fun _ h => h

/-- What keeps its results also does in sequence. Kind: L -/
theorem Keeps.bind {α β : Type} {a b : Except Fault α} {f g : α → Except Fault β} (h : Keeps a b)
    (hfg : ∀ x, Keeps (f x) (g x)) : Keeps (a >>= f) (b >>= g) := by
  intro y hy
  cases a with
  | error => cases hy
  | ok x =>
      rw [h x rfl]
      exact hfg x y hy

/-- Memory behind the text does not change what is read in it. Kind: L -/
theorem read_keeps (p m : Bytes) (i : ℕ) : Keeps (read p i) (read (p ++ m) i) := by
  intro c hc
  unfold read at hc ⊢
  cases hi : p[i]? with
  | none => simp [hi] at hc
  | some c' =>
      rw [List.getElem?_append_left (List.getElem?_eq_some_iff.mp hi).1]
      exact hc

theorem map_keeps {α β : Type} {a b : Except Fault α} (h : Keeps a b) (f : α → β) :
    Keeps (a.map f) (b.map f) := by
  intro y hy
  cases a with
  | error => cases hy
  | ok x =>
      rw [h x rfl]
      exact hy

theorem code_keeps (it m : Bytes) (i : ℕ) : Keeps (code it i) (code (it ++ m) i) :=
  map_keeps (read_keeps it m i) lookup

theorem anyInvalid_keeps (it m : Bytes) (ks : List ℕ) :
    Keeps (anyInvalid it ks) (anyInvalid (it ++ m) ks) := by
  induction ks with
  | nil => exact .refl _
  | cons k ks ih =>
      refine (code_keeps it m k).bind fun x => ?_
      split
      · exact .refl _
      · exact ih

theorem putGroup_keeps (it m : Bytes) : Keeps (putGroup signed it) (putGroup signed (it ++ m)) :=
  (code_keeps it m 0).bind fun _ => (code_keeps it m 1).bind fun _ =>
    (code_keeps it m 2).bind fun _ => (code_keeps it m 3).bind fun _ => .refl _

theorem putTail_keeps (it m : Bytes) (sz : ℕ) :
    Keeps (putTail signed it sz) (putTail signed (it ++ m) sz) := by
  unfold putTail
  -- Each octet is one branch and two reads.
  repeat
    first
    | exact .refl _
    | refine (code_keeps it m _).bind fun _ => ?_
    | split

/-- Memory behind the texts does not change a count that ends in them. Kind: L -/
theorem countCodes_keeps (p it m : Bytes) (n i : ℕ) :
    Keeps (countCodes p it n i) (countCodes (p ++ m) (it ++ m) n i) := by
  induction n generalizing i with
  | zero => exact .refl _
  | succ n ih =>
      refine (read_keeps p m i).bind fun c => ?_
      split
      · exact .refl _
      · refine (code_keeps it m i).bind fun x => ?_
        split
        · exact .refl _
        · exact ih (i + 1)

/-- Memory behind the text does not change a last group that lies in it. Kind: L -/
theorem decodeTail_keeps (p it m : Bytes) (sz : ℕ) :
    Keeps (decodeTail signed p it sz) (decodeTail signed (p ++ m) (it ++ m) sz) := by
  refine (countCodes_keeps p it m 4 0).bind fun i => ?_
  have hbad : Keeps (badEnd it sz i) (badEnd (it ++ m) sz i) := by
    unfold badEnd
    split
    · exact .refl _
    · exact map_keeps (read_keeps it m i) _
  refine hbad.bind fun bad => ?_
  split
  · exact .refl _
  · exact putTail_keeps it m _

/-- **What is decoded does not depend on the memory behind it**, where the decoder stays inside.
Kind: L -/
theorem decodeFrom_keeps (p it m : Bytes) (sz : ℕ) (hlen : sz ≤ it.length) :
    Keeps (decodeFrom signed p it sz) (decodeFrom signed (p ++ m) (it ++ m) sz) := by
  induction it, sz using decodeFrom.induct with
  | case1 it sz ih =>
      rw [decodeFrom, decodeFrom]
      refine (anyInvalid_keeps it m _).bind fun bad => ?_
      split
      · exact .refl _
      · refine (putGroup_keeps it m).bind fun o => ?_
        rw [List.drop_append_of_le_length (by omega)]
        exact (ih (by rw [List.length_drop]; omega)).bind fun _ => .refl _
  | case2 => exact decodeTail_keeps p _ m 4
  | case3 => exact decodeTail_keeps p _ m 3
  | case4 => exact decodeTail_keeps p _ m 2
  | case5 => exact decodeTail_keeps p _ m 1
  | case6 => exact decodeTail_keeps p _ m 0

/-! ## What is encoded -/

/-- The masks of the source take the first sextet. Kind: L -/
theorem masks (a : UInt8) : (a &&& 0xFC) >>> 2 = first a ∧ (a >>> 2) &&& 0x3F = first a ∧
    (a &&& 0xF0) >>> 4 = a >>> 4 ∧ (a &&& 0xC0) >>> 6 = a >>> 6 :=
  forall_byte (p := fun a => (a &&& 0xFC) >>> 2 = first a ∧ (a >>> 2) &&& 0x3F = first a ∧
    (a &&& 0xF0) >>> 4 = a >>> 4 ∧ (a &&& 0xC0) >>> 6 = a >>> 6) (by decide +kernel) a

theorem second_zero (a : UInt8) : (a &&& 3) <<< 4 = second a 0 := (UInt8.or_zero).symm

theorem third_zero (b : UInt8) : (b &&& 15) <<< 2 = third b 0 := (UInt8.or_zero).symm

/-- **A character of the table is looked up as its sextet**, in the other table up to 62. Kind: L -/
theorem code_char (x : UInt8) (h : x.toNat < 64) : lookup (charOf b64table x) = x ∧
    charOf b64table x ≠ ch '=' ∧
    lookup (charOf b64tableU x) = (if x.toNat < 62 then x else 64) ∧
    isAscii (charOf b64tableU x) = true := by
  have hall : ∀ n : ℕ, n < 64 → lookup (charOf b64table n.toUInt8) = n.toUInt8 ∧
      charOf b64table n.toUInt8 ≠ ch '=' ∧
      lookup (charOf b64tableU n.toUInt8) = (if n.toUInt8.toNat < 62 then n.toUInt8 else 64) ∧
      isAscii (charOf b64tableU n.toUInt8) = true := by decide +kernel
  have hx := hall x.toNat h
  rwa [show x.toNat.toUInt8 = x from UInt8.ofNat_toNat] at hx

/-- The padding behind a text. -/
def padding : ℕ → Bytes
  | n + 3 => padding n
  | 2 => text "="
  | 1 => text "=="
  | 0 => []

/-- A text in Base64. -/
def encoded (s : Bytes) : Bytes := (sextets s).map (charOf b64table) ++ padding s.length

/-- **`encodeBuffer` writes the sextets of a text in its alphabet**, with padding. Kind: P -/
theorem encodeBuffer_spec (s : Bytes) : encodeBuffer s s.length = .ok (encoded s) := by
  induction s using triples with
  | group a b c s ih =>
      have hrun : encodeBuffer (a :: b :: c :: s) (s.length + 3) =
          (encodeBuffer s s.length).bind fun out => .ok (charOf b64table ((a &&& 0xFC) >>> 2) ::
            charOf b64table (((a &&& 0x03) <<< 4) ||| ((b &&& 0xF0) >>> 4)) ::
            charOf b64table (((b &&& 0x0F) <<< 2) ||| ((c &&& 0xC0) >>> 6)) ::
            charOf b64table (c &&& 0x3F) :: out) := rfl
      change encodeBuffer (a :: b :: c :: s) (s.length + 3) = _
      rw [hrun, ih, (masks a).1, (masks b).2.2.1, (masks c).2.2.2]
      rfl
  | pair a b =>
      have hrun : encodeBuffer [a, b] 2 = .ok (charOf b64table ((a &&& 0xFC) >>> 2) ::
        charOf b64table (((a &&& 0x03) <<< 4) ||| ((b &&& 0xF0) >>> 4)) ::
        charOf b64table ((b &&& 0x0F) <<< 2) :: text "=") := rfl
      change encodeBuffer [a, b] 2 = _
      rw [hrun, (masks a).1, (masks b).2.2.1, third_zero]
      rfl
  | single a =>
      have hrun : encodeBuffer [a] 1 = .ok (charOf b64table ((a &&& 0xFC) >>> 2) ::
        charOf b64table ((a &&& 0x03) <<< 4) :: text "==") := rfl
      change encodeBuffer [a] 1 = _
      rw [hrun, (masks a).1, second_zero]
      rfl
  | nil => rfl

/-! ## What is decoded -/

theorem bind_ok {α β : Type} (a : α) (f : α → Except Fault β) :
    (.ok a : Except Fault α) >>= f = f a := rfl

theorem read_of_getElem? {i : ℕ} (h : it[i]? = some c) : read it i = .ok c := by
  rw [read, h]

theorem code_of_getElem? {i : ℕ} (h : it[i]? = some c) : code it i = .ok (lookup c) := by
  rw [code, read_of_getElem? h]
  rfl

/-- The input has four characters, and a padding at its start is one of the group. -/
def StartsAlike (p it : Bytes) : Prop :=
  ∀ i : ℕ, i < 4 → ∃ c, p[i]? = some c ∧ (c = ch '=' → it[i]? = some (ch '='))

/-- A character of the alphabet is counted. Kind: L -/
theorem countCodes_code {n i : ℕ} (hp : StartsAlike p it) (hi : i < 4) (hx : x.toNat < 64)
    (hc : it[i]? = some (charOf b64table x)) :
    countCodes p it (n + 1) i = countCodes p it n (i + 1) := by
  obtain ⟨d, hd, hpad⟩ := hp i hi
  obtain ⟨hlookup, hchar, -⟩ := code_char x hx
  have hne : d ≠ ch '=' := by
    intro heq
    rw [hpad heq] at hc
    exact hchar (Option.some.inj hc).symm
  have hsmall : x ≠ 64 := by
    rintro rfl
    exact absurd hx (by decide)
  rw [countCodes, read_of_getElem? hd, bind_ok, if_neg hne, code_of_getElem? hc, bind_ok, hlookup,
    if_neg hsmall]

/-- The count ends at the padding. Kind: L -/
theorem countCodes_padding {n i : ℕ} (hp : StartsAlike p it) (hi : i < 4)
    (hc : it[i]? = some (ch '=')) : countCodes p it (n + 1) i = .ok i := by
  obtain ⟨d, hd, -⟩ := hp i hi
  have hlookup : lookup (ch '=') = 64 := by decide
  rw [countCodes, read_of_getElem? hd, bind_ok]
  by_cases hpad : d = ch '='
  · exact if_pos hpad
  · rw [if_neg hpad, code_of_getElem? hc, bind_ok, hlookup, if_pos rfl]

/-- The end of a text that has been encoded. Kind: L -/
theorem decodeTail_of_count {n : ℕ} (hcount : countCodes p it 4 0 = .ok n)
    (hpad : n = 4 ∨ it[n]? = some (ch '=')) (hn : n ≤ 4) :
    decodeTail signed p it 4 = putTail signed it n := by
  have hbad : badEnd it 4 n = .ok false := by
    unfold badEnd
    rcases hpad with rfl | hpad
    · rfl
    · split_ifs
      · rfl
      · rw [read_of_getElem? hpad]
        rfl
  have hleft : (4 + (2 ^ 64 - (4 - n))) % 2 ^ 64 = n := by omega
  rw [decodeTail, hcount, bind_ok, hbad, bind_ok, if_neg Bool.false_ne_true, hleft]

theorem putGroup_cons {x y z w : UInt8} {t : Bytes} :
    putGroup signed (x :: y :: z :: w :: t) = .ok (putChars signed
      [join₁ (lookup x) (lookup y), join₂ (lookup y) (lookup z), join₃ (lookup z) (lookup w)]) :=
        rfl

theorem anyInvalid_cons {x y z w : UInt8} {t : Bytes} :
    anyInvalid (x :: y :: z :: w :: t) [0, 1, 2, 3] =
      .ok (decide (lookup x = 64 ∨ lookup y = 64 ∨ lookup z = 64 ∨ lookup w = 64)) := by
  have hstep : ∀ {k : ℕ} {ks : List ℕ} {c : UInt8}, (x :: y :: z :: w :: t)[k]? = some c →
      anyInvalid (x :: y :: z :: w :: t) (k :: ks) =
        if lookup c = 64 then .ok true else anyInvalid (x :: y :: z :: w :: t) ks := by
    intro k ks c hc
    rw [anyInvalid, code_of_getElem? hc, bind_ok]
  rw [hstep (c := x) rfl, hstep (c := y) rfl, hstep (c := z) rfl, hstep (c := w) rfl, anyInvalid]
  split_ifs <;> simp [*]

/-- Two codes make one character. Kind: L -/
theorem putTail_two {x y : UInt8} (t : Bytes) :
    putTail signed (x :: y :: t) 2 = .ok (putChars signed [join₁ (lookup x) (lookup y)]) := by
  change (.ok (putChars signed [join₁ (lookup x) (lookup y)] ++ [] ++ []) : Except Fault Bytes) = _
  rw [List.append_nil, List.append_nil]

/-- Three codes make two characters. Kind: L -/
theorem putTail_three {x y z : UInt8} (t : Bytes) :
    putTail signed (x :: y :: z :: t) 3 = .ok (putChars signed
      [join₁ (lookup x) (lookup y), join₂ (lookup y) (lookup z)]) := by
  change (.ok (putChars signed [join₁ (lookup x) (lookup y)] ++
    putChars signed [join₂ (lookup y) (lookup z)] ++ []) : Except Fault Bytes) = _
  simp only [putChars, List.flatMap_cons, List.flatMap_nil, List.append_nil]

/-- Four codes make three characters. Kind: L -/
theorem putTail_four {x y z w : UInt8} (t : Bytes) :
    putTail signed (x :: y :: z :: w :: t) 4 = .ok (putChars signed
      [join₁ (lookup x) (lookup y), join₂ (lookup y) (lookup z), join₃ (lookup z) (lookup w)]) := by
  change (.ok (putChars signed [join₁ (lookup x) (lookup y)] ++
    putChars signed [join₂ (lookup y) (lookup z)] ++
    putChars signed [join₃ (lookup z) (lookup w)]) : Except Fault Bytes) = _
  simp only [putChars, List.flatMap_cons, List.flatMap_nil, List.append_nil, List.append_assoc]

theorem putChars_append (s t : Bytes) :
    putChars signed (s ++ t) = putChars signed s ++ putChars signed t := List.flatMap_append

theorem lookup_char (h : x.toNat < 64) : lookup (charOf b64table x) = x := (code_char x h).1

theorem code_ne (h : x.toNat < 64) : x ≠ 64 := by
  rintro rfl
  exact absurd h (by decide)

/-- The loop goes on behind a group of the alphabet. Kind: L -/
theorem decodeFrom_group {x y z w : UInt8} {t : Bytes} (hx : x.toNat < 64) (hy : y.toNat < 64)
    (hz : z.toNat < 64) (hw : w.toNat < 64) (ht : t ≠ []) :
    decodeFrom signed p (charOf b64table x :: charOf b64table y :: charOf b64table z ::
        charOf b64table w :: t) (t.length + 4) =
      (decodeFrom signed p t t.length).map fun out =>
        putChars signed [join₁ x y, join₂ y z, join₃ z w] ++ out := by
  obtain ⟨k, hk⟩ := Nat.exists_eq_succ_of_ne_zero (List.length_eq_zero_iff.not.mpr ht)
  have hvalid : ¬ (x = 64 ∨ y = 64 ∨ z = 64 ∨ w = 64) := by
    rintro (h | h | h | h)
    · exact code_ne hx h
    · exact code_ne hy h
    · exact code_ne hz h
    · exact code_ne hw h
  rw [hk]
  change decodeFrom signed p _ (k + 5) = _
  rw [decodeFrom, anyInvalid_cons, bind_ok, putGroup_cons, bind_ok, lookup_char hx, lookup_char hy,
    lookup_char hz, lookup_char hw, if_neg (by rw [decide_eq_true_iff]; exact hvalid)]
  change (decodeFrom signed p t (k + 1)).bind _ = _
  cases decodeFrom signed p t (k + 1) with
  | error e => rfl
  | ok out => rfl

/-- Where the first group has no padding, every group will do. Kind: L -/
theorem StartsAlike.next {x y z w : UInt8} {t it : Bytes} (hx : x.toNat < 64) (hy : y.toNat < 64)
    (hz : z.toNat < 64) (hw : w.toNat < 64) (hp : StartsAlike p (charOf b64table x ::
      charOf b64table y :: charOf b64table z :: charOf b64table w :: t)) : StartsAlike p it := by
  intro i hi
  obtain ⟨c, hc, hpad⟩ := hp i hi
  refine ⟨c, hc, fun heq => ?_⟩
  have hfirst := hpad heq
  have hchar : ∀ {x : UInt8}, x.toNat < 64 → some (charOf b64table x) ≠ some (ch '=') :=
    fun hx h => (code_char _ hx).2.1 (Option.some.inj h)
  obtain rfl | rfl | rfl | rfl : i = 0 ∨ i = 1 ∨ i = 2 ∨ i = 3 := by omega
  · exact absurd hfirst (hchar hx)
  · exact absurd hfirst (hchar hy)
  · exact absurd hfirst (hchar hz)
  · exact absurd hfirst (hchar hw)

theorem encoded_ne_nil (hs : s ≠ []) : encoded s ≠ [] := by
  intro hnil
  have hlen := congrArg List.length hnil
  have hpos := List.length_pos_iff.mpr hs
  rw [encoded, List.length_append, List.length_map, length_sextets, List.length_nil] at hlen
  omega

/-- **What `encodeBuffer` has written is decoded**, where there is anything. Kind: P -/
theorem decodeFrom_encoded (hs : s ≠ []) (hp : StartsAlike p (encoded s)) :
    decodeFrom signed p (encoded s) (encoded s).length = .ok (putChars signed s) := by
  induction s using triples with
  | group a b c s ih =>
      have hx := first_lt a
      have hy := second_lt a b
      have hz := third_lt b c
      have hw := fourth_lt c
      have htext : encoded (a :: b :: c :: s) = charOf b64table (first a) ::
        charOf b64table (second a b) :: charOf b64table (third b c) ::
        charOf b64table (fourth c) :: encoded s := rfl
      have hgroup : putChars signed [join₁ (first a) (second a b), join₂ (second a b) (third b c),
          join₃ (third b c) (fourth c)] = putChars signed [a, b, c] := by
        rw [join₁_first, join₂_second, join₃_third]
      rw [htext] at hp ⊢
      cases s with
      | nil =>
          have hcount : countCodes p (charOf b64table (first a) :: charOf b64table (second a b) ::
              charOf b64table (third b c) :: charOf b64table (fourth c) :: encoded []) 4 0 =
              .ok 4 := by
            rw [countCodes_code hp (by decide) hx rfl, countCodes_code hp (by decide) hy rfl,
              countCodes_code hp (by decide) hz rfl, countCodes_code hp (by decide) hw rfl]
            rfl
          change decodeTail signed p _ 4 = _
          rw [decodeTail_of_count hcount (Or.inl rfl) (Nat.le_refl 4), putTail_four, lookup_char hx,
            lookup_char hy, lookup_char hz, lookup_char hw, hgroup]
      | cons d s =>
          have hne := encoded_ne_nil (List.cons_ne_nil d s)
          have hstart : StartsAlike p (encoded (d :: s)) := hp.next hx hy hz hw
          change decodeFrom signed p _ ((encoded (d :: s)).length + 4) = _
          rw [decodeFrom_group hx hy hz hw hne, ih (List.cons_ne_nil d s) hstart, hgroup]
          change (.ok (putChars signed [a, b, c] ++ putChars signed (d :: s)) :
            Except Fault Bytes) = _
          rw [← putChars_append]
          rfl
  | pair a b =>
      have hx := first_lt a
      have hy := second_lt a b
      have hz := third_lt b 0
      have htext : encoded [a, b] = [charOf b64table (first a), charOf b64table (second a b),
        charOf b64table (third b 0), ch '='] := rfl
      rw [htext] at hp ⊢
      have hcount : countCodes p [charOf b64table (first a), charOf b64table (second a b),
          charOf b64table (third b 0), ch '='] 4 0 = .ok 3 := by
        rw [countCodes_code hp (by decide) hx rfl, countCodes_code hp (by decide) hy rfl,
          countCodes_code hp (by decide) hz rfl, countCodes_padding hp (by decide) rfl]
      change decodeTail signed p _ 4 = _
      rw [decodeTail_of_count hcount (Or.inr rfl) (by decide), putTail_three, lookup_char hx,
        lookup_char hy, lookup_char hz, join₁_first, join₂_second]
  | single a =>
      have hx := first_lt a
      have hy := second_lt a 0
      have htext : encoded [a] = [charOf b64table (first a), charOf b64table (second a 0), ch '=',
        ch '='] := rfl
      rw [htext] at hp ⊢
      have hcount : countCodes p [charOf b64table (first a), charOf b64table (second a 0), ch '=',
          ch '='] 4 0 = .ok 2 := by
        rw [countCodes_code hp (by decide) hx rfl, countCodes_code hp (by decide) hy rfl,
          countCodes_padding hp (by decide) rfl]
      change decodeTail signed p _ 4 = _
      rw [decodeTail_of_count hcount (Or.inr rfl) (by decide), putTail_two, lookup_char hx,
        lookup_char hy, join₁_first]
  | nil => exact absurd rfl hs

/-- An encoded text is counted as it is read. Kind: L -/
theorem startsAlike_encoded (hs : s ≠ []) : StartsAlike (encoded s) (encoded s) := by
  have hlen : 4 ≤ (encoded s).length := by
    induction s using triples with
    | group a b c s => exact Nat.le_add_left 4 _
    | pair a b => exact Nat.le_refl 4
    | single a => exact Nat.le_refl 4
    | nil => exact absurd rfl hs
  intro i hi
  have hlt : i < (encoded s).length := Nat.lt_of_lt_of_le hi hlen
  refine ⟨(encoded s)[i], List.getElem?_eq_getElem hlt, fun heq => ?_⟩
  rw [List.getElem?_eq_getElem hlt, heq]

/-- **The round trip with padding**: it fails for the empty text, where the decoder reads behind its
input, and outside of ASCII. Kind: P -/
theorem decodeBuffer_encodeBuffer_iff (signed : Bool) (s : Bytes) :
    (∃ t, encodeBuffer s s.length = .ok t ∧ decodeBuffer signed t t.length = .ok s) ↔
      s ≠ [] ∧ ∀ c ∈ s, isAscii c = true := by
  constructor
  · rintro ⟨t, ht, hdecode⟩
    rw [encodeBuffer_spec] at ht
    rw [← Except.ok.inj ht] at hdecode
    have hne : s ≠ [] := by
      rintro rfl
      cases hdecode
    rw [decodeBuffer, decodeFrom_encoded hne (startsAlike_encoded hne)] at hdecode
    exact ⟨hne, (putChars_eq (Except.ok.inj hdecode) rfl).2⟩
  · rintro ⟨hne, hascii⟩
    refine ⟨_, encodeBuffer_spec s, ?_⟩
    rw [decodeBuffer, decodeFrom_encoded hne (startsAlike_encoded hne), putChars_ascii hascii]

/-! ## The alphabet for URLs -/

/-- A text in the alphabet for URLs. -/
def urlEncoded (s : Bytes) : Bytes := (sextets s).map (charOf b64tableU)

theorem putChars_url (signed : Bool) (s : Bytes) :
    putChars signed (urlEncoded s) = urlEncoded s := by
  refine putChars_ascii fun c hc => ?_
  obtain ⟨x, hx, rfl⟩ := List.mem_map.mp hc
  exact (code_char x (sextets_lt s x hx)).2.2.2

/-- The loop writes the encoding of what is left. Kind: L -/
theorem urlEncodeFrom_spec {fuel i : ℕ} (hlow : 2 ≤ s.length) (hsize : s.length < 2 ^ 64)
    (hi : i ≤ s.length) (hfuel : s.length < fuel + i) :
    urlEncodeFrom signed s s.length fuel i = .ok (putChars signed (urlEncoded (s.drop i))) := by
  have hbound : urlEncodeBound s.length = s.length - 2 := by
    unfold urlEncodeBound
    omega
  induction fuel generalizing i with
  | zero => omega
  | succ fuel ih =>
      have hleft : (s.drop i).length = s.length - i := List.length_drop
      have hread : ∀ {k : ℕ} {c : UInt8}, (s.drop i)[k]? = some c → read s (i + k) = .ok c := by
        intro k c hc
        rw [List.getElem?_drop] at hc
        exact read_of_getElem? hc
      rw [urlEncodeFrom, hbound]
      induction hdrop : s.drop i using triples with
      | group a b c t =>
          rw [hdrop] at hleft hread
          simp only [List.length_cons] at hleft
          have hnext : s.drop (i + 3) = t := by
            rw [← List.drop_drop, hdrop]
            rfl
          rw [if_pos (by omega), show read s i = .ok a from hread (k := 0) rfl, bind_ok,
            hread (k := 1) (c := b) rfl,
            bind_ok, hread (k := 2) (c := c) rfl, bind_ok, ih (by omega) (by omega), bind_ok, hnext,
            (masks a).2.1, (masks b).2.2.1, (masks c).2.2.2, ← putChars_append]
          rfl
      | pair a b =>
          rw [hdrop] at hleft hread
          simp only [List.length_cons, List.length_nil] at hleft
          rw [if_neg (by omega), if_pos (by omega),
            show read s i = .ok a from hread (k := 0) rfl, bind_ok,
            if_neg (by omega), hread (k := 1) (c := b) rfl, bind_ok, (masks a).2.1, (masks b).2.2.1,
            third_zero]
          rfl
      | single a =>
          rw [hdrop] at hleft hread
          simp only [List.length_cons, List.length_nil] at hleft
          rw [if_neg (by omega), if_pos (by omega),
            show read s i = .ok a from hread (k := 0) rfl, bind_ok,
            if_pos (by omega), (masks a).2.1, second_zero]
          rfl
      | nil =>
          rw [hdrop] at hleft
          simp only [List.length_nil] at hleft
          rw [if_neg (by omega), if_neg (by omega)]
          rfl

/-- **`urlEncodeBuffer` reads behind every text of less than two octets**, as its bound wraps
around; it writes the sextets of every other one. Kind: P -/
theorem urlEncodeBuffer_spec (signed : Bool) (s : Bytes) (hsize : s.length < 2 ^ 64) :
    urlEncodeBuffer signed s s.length =
      if 2 ≤ s.length then .ok (urlEncoded s) else .error .outside := by
  split_ifs with hlow
  · rw [urlEncodeBuffer, urlEncodeFrom_spec hlow hsize (Nat.zero_le _) (by omega), List.drop_zero,
      putChars_url]
  · have hfirst : 0 < urlEncodeBound s.length := by
      unfold urlEncodeBound
      omega
    rw [urlEncodeBuffer, urlEncodeFrom, if_pos hfirst]
    cases s with
    | nil => rfl
    | cons a s =>
        cases s with
        | nil => rfl
        | cons b s => exact absurd (Nat.le_add_left 2 s.length) hlow

/-- The size that is computed is never that of the text. Kind: L -/
theorem urlEncodeSize_ne (s : Bytes) (hlow : 2 ≤ s.length) (hsize : s.length < 2 ^ 64) :
    urlEncodeSize s.length ≠ (urlEncoded s).length := by
  rw [urlEncoded, List.length_map, length_sextets]
  unfold urlEncodeSize
  dsimp only
  split_ifs <;> omega

/-- Some character in front of the last group is none of the table. -/
def invalidBefore : Bytes → Bool
  | x :: y :: z :: w :: v :: s =>
      decide (x = 64 ∨ y = 64 ∨ z = 64 ∨ w = 64) || invalidBefore (v :: s)
  | _ => false

/-- **What `urlDecodeBuffer` writes**: the octets of the codes, unless a code is missing in front of
the last group. Kind: P -/
theorem urlDecodeBuffer_spec (signed : Bool) (it : Bytes) :
    urlDecodeBuffer signed it it.length =
      if invalidBefore (it.map lookup) then
        .error (.base64Error "Base64::urlDecode - invalid base64 encoded string passed")
      else .ok (putChars signed (octets (it.map lookup))) := by
  induction it using quadruples with
  | group x y z w t ih =>
      have hgroup : putChars signed (octets ((x :: y :: z :: w :: t).map lookup)) =
          putChars signed [join₁ (lookup x) (lookup y), join₂ (lookup y) (lookup z),
            join₃ (lookup z) (lookup w)] ++ putChars signed (octets (t.map lookup)) :=
        putChars_append [_, _, _] _
      cases t with
      | nil =>
          rw [hgroup]
          change putTail signed _ 4 = .ok _
          rw [putTail_four]
          exact congrArg Except.ok (List.append_nil _).symm
      | cons v t =>
          have hinvalid : invalidBefore ((x :: y :: z :: w :: v :: t).map lookup) =
              (decide (lookup x = 64 ∨ lookup y = 64 ∨ lookup z = 64 ∨ lookup w = 64) ||
                invalidBefore ((v :: t).map lookup)) := rfl
          change urlDecodeBuffer signed _ (t.length + 5) = _
          rw [hgroup, hinvalid, urlDecodeBuffer, anyInvalid_cons, bind_ok, putGroup_cons, bind_ok]
          cases decide (lookup x = 64 ∨ lookup y = 64 ∨ lookup z = 64 ∨ lookup w = 64) with
          | true => rfl
          | false =>
              change (urlDecodeBuffer signed (v :: t) (v :: t).length).bind _ = _
              rw [ih, Bool.false_or]
              split_ifs
              · rfl
              · rfl
  | triple x y z => exact putTail_three []
  | pair x y => exact putTail_two []
  | single x => rfl
  | nil => rfl

/-- The codes of the URL table, looked up in the other one. Kind: L -/
theorem map_lookup_urlEncoded (s : Bytes) : (urlEncoded s).map lookup =
    (sextets s).map fun x => if x.toNat < 62 then x else 64 := by
  rw [urlEncoded, List.map_map]
  refine List.map_congr_left fun x hx => ?_
  exact (code_char x (sextets_lt s x hx)).2.2.1

/-- The number of octets depends only on the number of sextets. Kind: L -/
theorem length_octets_map (f : UInt8 → UInt8) (t : Bytes) :
    (octets (t.map f)).length = (octets t).length := by
  induction t using quadruples with
  | group x y z w t ih =>
      have hleft : octets ((x :: y :: z :: w :: t).map f) =
        join₁ (f x) (f y) :: join₂ (f y) (f z) :: join₃ (f z) (f w) :: octets (t.map f) := rfl
      rw [hleft, octets]
      simp only [List.length_cons, ih]
  | triple x y z => rfl
  | pair x y => rfl
  | single x => rfl
  | nil => rfl

/-- A missing code in the last place of a group is seen in its octet. Kind: L -/
theorem join₃_missing (z w : UInt8) (hw : w.toNat < 64) (h : join₃ z 64 = join₃ z w) :
    w.toNat < 62 := by
  have hleft : (join₃ z 64).toNat % 64 = 0 :=
    forall_byte (p := fun z => (join₃ z 64).toNat % 64 = 0) (by decide +kernel) z
  have hparts := (toNat_parts z).2.2.2.2.2.2.2.2
  rw [h, join₃, toNat_or_of_lt hparts hw] at hleft
  omega

/-- In an ASCII text that is read back no code is missing. Kind: L -/
theorem sextets_of_octets (hascii : ∀ c ∈ s, isAscii c = true)
    (h : octets ((sextets s).map fun x => if x.toNat < 62 then x else 64) = s) :
    ∀ x ∈ sextets s, x.toNat < 62 := by
  have hfirst : ∀ a : UInt8, isAscii a = true → (first a).toNat < 62 := fun a ha => by
    rw [isAscii_iff] at ha
    rw [toNat_first]
    omega
  have hsecond : ∀ a b : UInt8, isAscii b = true → (second a b).toNat < 62 := fun a b hb => by
    rw [isAscii_iff] at hb
    rw [toNat_second]
    omega
  have hthird : ∀ b c : UInt8, isAscii c = true → (third b c).toNat < 62 := fun b c hc => by
    rw [isAscii_iff] at hc
    rw [toNat_third]
    omega
  induction s using triples with
  | group a b c s ih =>
      obtain ⟨ha, hascii⟩ := List.forall_mem_cons.mp hascii
      obtain ⟨hb, hascii⟩ := List.forall_mem_cons.mp hascii
      obtain ⟨hc, hascii⟩ := List.forall_mem_cons.mp hascii
      simp only [sextets, List.map_cons, octets, List.cons.injEq, if_pos (hfirst a ha),
        if_pos (hsecond a b hb), if_pos (hthird b c hc)] at h
      obtain ⟨-, -, hgroup, hrest⟩ := h
      have hfourth : (fourth c).toNat < 62 := by
        by_contra hnot
        rw [if_neg hnot] at hgroup
        refine hnot (join₃_missing (third b c) (fourth c) (fourth_lt c) ?_)
        rw [hgroup, join₃_third]
      simp only [sextets, List.forall_mem_cons]
      exact ⟨hfirst a ha, hsecond a b hb, hthird b c hc, hfourth, ih hascii hrest⟩
  | pair a b =>
      obtain ⟨ha, hascii⟩ := List.forall_mem_cons.mp hascii
      obtain ⟨hb, -⟩ := List.forall_mem_cons.mp hascii
      simp only [sextets, List.forall_mem_cons]
      exact ⟨hfirst a ha, hsecond a b hb, hthird b 0 rfl, List.forall_mem_nil _⟩
  | single a =>
      obtain ⟨ha, -⟩ := List.forall_mem_cons.mp hascii
      simp only [sextets, List.forall_mem_cons]
      exact ⟨hfirst a ha, hsecond a 0 rfl, List.forall_mem_nil _⟩
  | nil => exact List.forall_mem_nil _

theorem invalidBefore_eq_false (h : ∀ x ∈ t, x ≠ 64) : invalidBefore t = false := by
  induction t using quadruples with
  | group x y z w t ih =>
      cases t with
      | nil => rfl
      | cons v t =>
          obtain ⟨hx, h⟩ := List.forall_mem_cons.mp h
          obtain ⟨hy, h⟩ := List.forall_mem_cons.mp h
          obtain ⟨hz, h⟩ := List.forall_mem_cons.mp h
          obtain ⟨hw, h⟩ := List.forall_mem_cons.mp h
          rw [invalidBefore, ih h, decide_eq_false (by simp [hx, hy, hz, hw])]
          rfl
  | triple x y z => rfl
  | pair x y => rfl
  | single x => rfl
  | nil => rfl

/-- **The round trip in the alphabet for URLs**: it fails for less than two octets, outside of
ASCII, and where a sextet is one of the two special characters, which the table of the decoder does
not have. Kind: P -/
theorem urlDecodeBuffer_urlEncodeBuffer_iff (signed : Bool) (s : Bytes)
    (hsize : s.length < 2 ^ 64) :
    (∃ t, urlEncodeBuffer signed s s.length = .ok t ∧
      urlDecodeBuffer signed t t.length = .ok s) ↔
      2 ≤ s.length ∧ (∀ c ∈ s, isAscii c = true) ∧ ∀ x ∈ sextets s, x.toNat < 62 := by
  rw [urlEncodeBuffer_spec signed s hsize]
  constructor
  · rintro ⟨t, ht, hdecode⟩
    split_ifs at ht with hlow
    · rw [← Except.ok.inj ht, urlDecodeBuffer_spec, map_lookup_urlEncoded] at hdecode
      split_ifs at hdecode
      have hlen : (octets ((sextets s).map fun x => if x.toNat < 62 then x else 64)).length =
          s.length := by rw [length_octets_map, octets_sextets]
      obtain ⟨heq, hascii⟩ := putChars_eq (Except.ok.inj hdecode) hlen
      exact ⟨hlow, hascii, sextets_of_octets hascii heq⟩
  · rintro ⟨hlow, hascii, hsextets⟩
    have hcodes : (sextets s).map (fun x => if x.toNat < 62 then x else 64) = sextets s := by
      have hid : ∀ x ∈ sextets s, (if x.toNat < 62 then x else 64) = id x :=
        fun x hx => if_pos (hsextets x hx)
      rw [List.map_congr_left hid, List.map_id]
    have hvalid : invalidBefore (sextets s) = false :=
      invalidBefore_eq_false fun x hx => code_ne (sextets_lt s x hx)
    refine ⟨urlEncoded s, if_pos hlow, ?_⟩
    rw [urlDecodeBuffer_spec, map_lookup_urlEncoded, hcodes, hvalid, octets_sextets,
      putChars_ascii hascii]
    rfl

/-- **Each part of Base64 and where it does what it is for.** Padded texts that are not empty are
read back in ASCII; texts of two octets or more are encoded for URLs, and read back in ASCII without
special characters; the size that is computed is never that of the text. Kind: P -/
theorem round_trips_iff (signed : Bool) (s : Bytes) (hsize : s.length < 2 ^ 64) :
    ((∃ t, encodeBuffer s s.length = .ok t ∧ decodeBuffer signed t t.length = .ok s) ↔
      s ≠ [] ∧ ∀ c ∈ s, isAscii c = true) ∧
    (∃ t, encodeBuffer s s.length = .ok t) ∧
    ((∃ t, urlEncodeBuffer signed s s.length = .ok t) ↔ 2 ≤ s.length) ∧
    ((∃ t, urlEncodeBuffer signed s s.length = .ok t ∧
      urlDecodeBuffer signed t t.length = .ok s) ↔
      2 ≤ s.length ∧ (∀ c ∈ s, isAscii c = true) ∧ ∀ x ∈ sextets s, x.toNat < 62) ∧
    ¬ ∃ t, urlEncodeBuffer signed s s.length = .ok t ∧ urlEncodeSize s.length = t.length := by
  refine ⟨decodeBuffer_encodeBuffer_iff signed s, ⟨_, encodeBuffer_spec s⟩, ?_,
    urlDecodeBuffer_urlEncodeBuffer_iff signed s hsize, ?_⟩
  · rw [urlEncodeBuffer_spec signed s hsize]
    split_ifs with hlow
    · exact iff_of_true ⟨_, rfl⟩ hlow
    · exact iff_of_false (fun ⟨t, ht⟩ => by cases ht) hlow
  · rintro ⟨t, ht, hlen⟩
    rw [urlEncodeBuffer_spec signed s hsize] at ht
    split_ifs at ht with hlow
    rw [← Except.ok.inj ht] at hlen
    exact urlEncodeSize_ne s hlow hsize hlen

theorem round_trips_hello :
    ((∃ t, encodeBuffer (text "hello") 5 = .ok t ∧
      decodeBuffer true t t.length = .ok (text "hello")) ↔
      text "hello" ≠ [] ∧ ∀ c ∈ text "hello", isAscii c = true) :=
  (round_trips_iff true (text "hello") (by decide)).1

/-- The empty text, the octet 255, and texts for URLs that are not read back. Kind: P -/
theorem not_read_back :
    (∃ t, encodeBuffer [] 0 = .ok t ∧ decodeBuffer true t t.length = .error .outside) ∧
    (∀ signed, ∃ t, encodeBuffer [255] 1 = .ok t ∧
      decodeBuffer signed t t.length ≠ .ok [255]) ∧
    urlEncodeBuffer true [] 0 = .error .outside ∧
    (∃ t, urlEncodeBuffer true (text "hi?") 3 = .ok t ∧
      urlDecodeBuffer true t t.length = .ok (text "hi@") ∧
      urlEncodeSize 3 ≠ t.length) := by
  refine ⟨⟨[], rfl, rfl⟩, fun signed => ⟨text "/w==", by decide, ?_⟩, by decide,
    ⟨text "aGk_", by decide, by decide, by decide⟩⟩
  cases signed <;> decide

end CxyCompiler.Stdlib.Base64
