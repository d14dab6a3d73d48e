import CxyCompiler.Core.FormatRound
import CxyCompiler.Core.Numerals
import CxyCompiler.Core.StrPool
import CxyCompiler.Middle.EvaluateExact
import Mathlib.Data.List.TakeWhile

/-!
# Strings built at compile time (`middle/eval/binary.c`)

* `Pool` — the interned strings; `Pool.Finds`: the string found for a text agrees with it on its
  length.
* `evalStringBuilderAppend` — the text of a literal.
* `Concatenation` — a string to which literals, and concatenations in parentheses, are added.
* `concatenates_iff` — **the result is the text of the parts, unless there is a negative integer, a
  NUL, a single literal in parentheses, or another string found for one of the texts**.
-/

namespace CxyCompiler.Middle.Evaluate

open CxyCompiler.Core CxyCompiler.Lib.Double CxyCompiler.Lib.Numeral

/-- The bytes of a text. -/
def asciiText (s : String) : List UInt8 := s.toList.map ascii

/-! ## Building a string -/

/-- Strings by their addresses. Source: `strpool.c` `makeString`. -/
structure Pool where
  content : Ptr → List UInt8
  makeString : List UInt8 → Ptr
  /-- What `sprintf` writes for `%g`. -/
  float : F64 → List UInt8
  nonzero : ∀ p, 0 ∉ content p

/-- What is found for a text starts with it, up to its first NUL: a new copy, or a string that
agrees with it on its length. Source: `strpool.c` `makeString`, `compareStrFind`. -/
def Pool.Finds (pool : Pool) (s : List UInt8) : Prop :=
  s.takeWhile (· ≠ 0) <+: pool.content (pool.makeString s)

/-- Source: `sb.c` `wcharToStr`. -/
def wcharToStr (chr : UInt32) : Option (List UInt8) := encodeUtf8 chr

/-- Source: `sb.h` `stringBuilderAppendChar`. -/
def stringBuilderAppendChar (sb : List UInt8) (c : UInt32) : Option (List UInt8) :=
  (wcharToStr c).map (sb ++ ·)

/-- Source: `sb.c` `stringBuilderAppendUInt`. -/
def stringBuilderAppendUInt (sb : List UInt8) (num : U128) : Option (List UInt8) :=
  (formatu128 num (List.replicate 64 0)).map fun r => sb ++ r.1.take r.2

/-- Source: `sb.c` `stringBuilderAppendBool`. -/
def stringBuilderAppendBool (sb : List UInt8) (v : Bool) : List UInt8 :=
  sb ++ asciiText (if v then "true" else "false")

/-- The text of a literal behind what there is; `null` has none, and a character from 0x200000 on
aborts. Source: `binary.c` `evalStringBuilderAppend`. -/
def evalStringBuilderAppend (pool : Pool) (sb : List UInt8) : Literal → Option (List UInt8)
  | .string s => some (sb ++ pool.content s)
  | .int bits isNegative => do
      let sb ← if isNegative then stringBuilderAppendChar sb 45 else some sb
      stringBuilderAppendUInt sb bits
  | .float v => some (sb ++ pool.float v)
  | .char c => stringBuilderAppendChar sb c
  | .bool b => some (stringBuilderAppendBool sb b)
  | .null => none

/-- The comptime evaluator over a pool. -/
def Pool.strings (pool : Pool) : Comptime.Strings where
  isNonEmpty p := pool.content p ≠ []
  strcmp p q :=
    strncmp (pool.content p) (pool.content q)
      ((pool.content p).length + (pool.content q).length + 1)
  concat p l :=
    pool.makeString
      (((evalStringBuilderAppend pool [] (.string p)).bind (evalStringBuilderAppend pool · l)).getD
        [])
  checkCast e := some (.cast e)

/-! ## Concatenations -/

/-- A literal of a program. -/
inductive Item where
  | text (s : Ptr)
  | char (c : Char)
  | bool (b : Bool)
  | int (z : Value)

def Item.literal : Item → Literal
  | .text s => .string s
  | .char c => .char c.val
  | .bool b => .bool b
  | .int z => .int (BitVec.ofInt 128 z) (decide (z.val < 0))

/-- A string with literals and concatenations in parentheses added to it. -/
inductive Concatenation where
  | text (s : Ptr)
  | add (c : Concatenation) (i : Item)
  | nest (c d : Concatenation)

def Concatenation.toExpr (overlaid : Bool) : Concatenation → Expr
  | .text s => .lit (.string s)
  | .add c i => .binary .add (c.toExpr overlaid) (.lit i.literal) overlaid
  | .nest c d => .binary .add (c.toExpr overlaid) (.group (d.toExpr overlaid)) overlaid

/-- The decimal numeral, with a minus sign in front of a negative one. -/
def numeral (z : ℤ) : List UInt8 :=
  if z < 0 then ascii '-' :: decimal z.natAbs else decimal z.natAbs

section

variable (pool : Pool)

/-- What a literal stands for. -/
def Item.denotation : Item → List UInt8
  | .text s => pool.content s
  | .char c => String.utf8EncodeChar c
  | .bool b => asciiText (if b then "true" else "false")
  | .int z => numeral z

def Concatenation.denotation : Concatenation → List UInt8
  | .text s => pool.content s
  | .add c i => c.denotation ++ i.denotation pool
  | .nest c d => c.denotation ++ d.denotation

/-- **The result is a string of that text.** -/
def Concatenates (c : Concatenation) (overlaid : Bool) : Prop :=
  ∃ p, Comptime.evaluate pool.strings (c.toExpr overlaid) = some (.lit (.string p)) ∧
    pool.content p = c.denotation pool

/-- An integer is not negative, or the least one; a character is not a NUL. -/
def Item.Plain : Item → Prop
  | .text _ | .bool _ => True
  | .char c => c.toNat ≠ 0
  | .int z => 0 ≤ z.val ∨ z.val = -2 ^ 127

def Concatenation.isText : Concatenation → Bool
  | .text _ => true
  | _ => false

/-- Each literal is plain, parentheses stand around concatenations, and the string found for each
text is that text. -/
def Concatenation.Plain : Concatenation → Prop
  | .text _ => True
  | .add c i =>
      c.Plain ∧ i.Plain ∧
        pool.content (pool.makeString (c.denotation pool ++ i.denotation pool)) =
          c.denotation pool ++ i.denotation pool
  | .nest c d =>
      c.Plain ∧ d.Plain ∧ d.isText = false ∧
        pool.content (pool.makeString (c.denotation pool ++ d.denotation pool)) =
          c.denotation pool ++ d.denotation pool

/-! ## What is written -/

/-- The text that the builder writes for a literal. -/
def Item.written : Item → List UInt8
  | .int z => (if z.val < 0 then [ascii '-'] else []) ++ decimal (BitVec.ofInt 128 z).toNat
  | i => i.denotation pool

/-- The string that the evaluation leaves; a single literal in parentheses aborts it. -/
def Concatenation.built : Concatenation → Option Ptr
  | .text s => some s
  | .add c i => c.built.map fun p => pool.makeString (pool.content p ++ i.written pool)
  | .nest c d =>
      if d.isText then none
      else c.built.bind fun p => d.built.map fun q =>
        pool.makeString (pool.content p ++ pool.content q)

/-- The pool finds each text that is built. -/
def Concatenation.Found : Concatenation → Prop
  | .text _ => True
  | .add c i => c.Found ∧ ∀ p, c.built pool = some p → pool.Finds (pool.content p ++ i.written pool)
  | .nest c d =>
      c.Found ∧ d.Found ∧ ∀ p q, c.built pool = some p → d.built pool = some q →
        pool.Finds (pool.content p ++ pool.content q)

variable {pool}

theorem stringBuilderAppendUInt_spec (sb : List UInt8) (num : U128) :
    stringBuilderAppendUInt sb num = some (sb ++ decimal num.toNat) := by
  have hlength : (decimal num.toNat).length ≤ 39 := by
    apply length_decimal_le (by norm_num)
    have := num.isLt
    omega
  unfold stringBuilderAppendUInt
  rw [formatu128_spec (by rw [List.length_replicate]; omega), Option.map_some, List.take_left]

theorem append_written (sb : List UInt8) (i : Item) :
    evalStringBuilderAppend pool sb i.literal = some (sb ++ i.written pool) := by
  cases i with
  | text s => rfl
  | bool b => rfl
  | char c =>
      show (wcharToStr c.val).map (sb ++ ·) = _
      rw [wcharToStr, encodeUtf8_char]
      rfl
  | int z =>
      have hminus : stringBuilderAppendChar sb 45 = some (sb ++ [ascii '-']) := rfl
      unfold Item.literal evalStringBuilderAppend Item.written
      by_cases hneg : z.val < 0
      · simp only [hneg, decide_true, if_true, hminus, stringBuilderAppendUInt_spec,
          Option.bind_eq_bind, Option.bind_some, List.append_assoc]
      · simp only [hneg, decide_false, Bool.false_eq_true, if_false, stringBuilderAppendUInt_spec,
          Option.bind_eq_bind, Option.bind_some, List.nil_append]

theorem concat_written (p : Ptr) (i : Item) :
    pool.strings.concat p i.literal = pool.makeString (pool.content p ++ i.written pool) := by
  show pool.makeString ((evalStringBuilderAppend pool _ i.literal).getD []) = _
  rw [append_written]
  rfl

theorem toNat_ofInt {z : ℤ} (hz : Representable z) :
    (BitVec.ofInt 128 z).toNat = if z < 0 then (2 ^ 128 + z).toNat else z.toNat := by
  unfold Representable at hz
  rw [BitVec.toNat_ofInt]
  split_ifs <;> omega

/-- The number behind the sign is the one it should be for an integer that is plain, and greater
else. Kind: L -/
theorem written_int (z : Value) :
    (numeral z).length ≤ ((Item.int z).written pool).length ∧
      ((Item.int z).written pool = numeral z ↔ (Item.int z).Plain) := by
  have hz := z.property
  unfold Item.written Item.Plain numeral
  dsimp only
  rw [toNat_ofInt hz]
  unfold Representable at hz
  by_cases hneg : z.val < 0
  · simp only [hneg, if_true, List.singleton_append, List.length_cons, List.cons.injEq, true_and]
    constructor
    · exact Nat.add_le_add_right (length_decimal_mono (by omega)) 1
    · constructor
      · intro h
        have := decimal_injective h
        omega
      · intro h
        congr 1
        omega
  · have hsame : z.val.toNat = z.val.natAbs := by omega
    simp only [hneg, if_false, List.nil_append, hsame, le_refl, true_and, true_iff]
    omega

theorem decimal_nonzero (n : ℕ) : 0 ∉ decimal n := by
  intro h
  have := isNumeral_decimal n 0 h
  revert this
  decide

/-- A literal without a NUL is written without one, and not shorter than it should be. Kind: L -/
theorem written_spec {i : Item} (h0 : 0 ∉ i.denotation pool) :
    0 ∉ i.written pool ∧ (i.denotation pool).length ≤ (i.written pool).length ∧
      (i.written pool = i.denotation pool → i.Plain) := by
  cases i with
  | text s => exact ⟨h0, le_rfl, fun _ => trivial⟩
  | bool b => exact ⟨h0, le_rfl, fun _ => trivial⟩
  | char c =>
      refine ⟨h0, le_rfl, fun _ hc => h0 ?_⟩
      show 0 ∈ String.utf8EncodeChar c
      rw [CxyCompiler.Lib.Utf8.encode_ascii (by omega), hc]
      exact List.mem_singleton_self _
  | int z =>
      obtain ⟨hlength, hplain⟩ := @written_int pool z
      refine ⟨?_, hlength, hplain.mp⟩
      unfold Item.written
      rw [List.mem_append, not_or]
      refine ⟨?_, decimal_nonzero _⟩
      split_ifs
      · decide
      · exact List.not_mem_nil

theorem written_plain {i : Item} (h : i.Plain) : i.written pool = i.denotation pool := by
  cases i with
  | int z => exact (written_int z).2.mpr h
  | _ => rfl

/-! ## The result -/

theorem isLiteralExpr_toExpr (c : Concatenation) (overlaid : Bool) :
    isLiteralExpr (c.toExpr overlaid) = c.isText := by
  cases c <;> rfl

theorem evaluate_toExpr (c : Concatenation) (overlaid : Bool) :
    Comptime.evaluate pool.strings (c.toExpr overlaid) =
      (c.built pool).map fun p => .lit (.string p) := by
  induction c with
  | text s => rfl
  | add c i ih =>
      have hlit : ∀ p, Comptime.evalStringConcatenation pool.strings p (.lit i.literal) =
          some (.lit (.string (pool.strings.concat p i.literal))) := by
        intro p
        cases i <;> rfl
      simp only [Concatenation.toExpr, Comptime.evaluate,
        Concatenation.built, ih, Option.bind_eq_bind]
      cases c.built pool with
      | none => rfl
      | some p => exact (hlit p).trans (by rw [concat_written]; rfl)
  | nest c d ihc ihd =>
      simp only [Concatenation.toExpr, Comptime.evaluate, Concatenation.built, ihc, ihd,
        isLiteralExpr_toExpr, Option.bind_eq_bind]
      cases c.built pool with
      | none => cases d.isText <;> rfl
      | some p =>
          cases htext : d.isText with
          | true =>
              -- the parentheses stay around the literal, which then has no text
              have hverify : Comptime.verifyBinaryExprOperand .add (.lit (.string p))
                  (.group (d.toExpr overlaid)) = true :=
                    (isLiteralExpr_toExpr d overlaid).trans htext
              exact if_pos hverify
          | false =>
              cases d.built pool with
              | none => rfl
              | some q => exact congrArg (fun p =>
                  some (Expr.lit (.string p))) (concat_written p (.text q))

/-- The string found for two texts one after the other is not shorter than they should be, and is
what they should be only if both are. Kind: L -/
theorem found_append {a b a' b' : List UInt8} (hstart : pool.Finds (a' ++ b')) (ha0 : 0 ∉ a')
    (hb0 : 0 ∉ b') (ha : a.length ≤ a'.length)
    (hb : b.length ≤ b'.length) :
    (a ++ b).length ≤ (pool.content (pool.makeString (a' ++ b'))).length ∧
      (pool.content (pool.makeString (a' ++ b')) = a ++ b → a' = a ∧ b' = b) := by
  have hall : (a' ++ b').takeWhile (· ≠ 0) = a' ++ b' := by
    apply List.takeWhile_eq_self_iff.mpr
    intro x hx
    rw [decide_eq_true_iff]
    rintro rfl
    rcases List.mem_append.mp hx with hx | hx
    · exact ha0 hx
    · exact hb0 hx
  rw [Pool.Finds, hall] at hstart
  have hlength := hstart.length_le
  rw [List.length_append] at hlength
  constructor
  · rw [List.length_append]
    omega
  · intro heq
    rw [heq, List.length_append] at hlength
    have hboth : a' ++ b' = a ++ b := by
      rw [heq] at hstart
      apply hstart.eq_of_length
      rw [List.length_append, List.length_append]
      omega
    exact List.append_inj hboth (by omega)

/-- A result is not shorter than the text, and is the text only if the parts are plain. Kind: L -/
theorem built_spec (c : Concatenation) (hfound : c.Found pool)
    (h0 : 0 ∉ c.denotation pool) : ∀ {p : Ptr}, c.built pool = some p →
    (c.denotation pool).length ≤ (pool.content p).length ∧
      (pool.content p = c.denotation pool → c.Plain pool) := by
  induction c with
  | text s =>
      intro p hp
      obtain rfl := Option.some.inj hp
      exact ⟨le_rfl, fun _ => trivial⟩
  | add c i ih =>
      intro p hp
      obtain ⟨q, hq, rfl⟩ := Option.map_eq_some_iff.mp hp
      have h0' : 0 ∉ c.denotation pool ∧ 0 ∉ i.denotation pool := by
        simpa [Concatenation.denotation, not_or] using h0
      obtain ⟨hlen, hplain⟩ := ih hfound.1 h0'.1 hq
      obtain ⟨hw0, hwlen, hwplain⟩ := written_spec h0'.2
      obtain ⟨hle, hsplit⟩ := found_append (hfound.2 q hq) (pool.nonzero q) hw0 hlen hwlen
      refine ⟨hle, fun heq => ?_⟩
      obtain ⟨h1, h2⟩ := hsplit heq
      refine ⟨hplain h1, hwplain h2, ?_⟩
      rw [← h1, ← h2, heq, h1, h2]
      rfl
  | nest c d ihc ihd =>
      intro p hp
      simp only [Concatenation.built] at hp
      by_cases htext : d.isText = true
      · rw [if_pos htext] at hp
        cases hp
      rw [if_neg htext] at hp
      obtain ⟨q, hq, hp⟩ := Option.bind_eq_some_iff.mp hp
      obtain ⟨r, hr, rfl⟩ := Option.map_eq_some_iff.mp hp
      have h0' : 0 ∉ c.denotation pool ∧ 0 ∉ d.denotation pool := by
        simpa [Concatenation.denotation, not_or] using h0
      obtain ⟨hlen, hplain⟩ := ihc hfound.1 h0'.1 hq
      obtain ⟨hlen', hplain'⟩ := ihd hfound.2.1 h0'.2 hr
      obtain ⟨hle, hsplit⟩ :=
        found_append (hfound.2.2 q r hq hr) (pool.nonzero q) (pool.nonzero r) hlen hlen'
      refine ⟨hle, fun heq => ?_⟩
      obtain ⟨h1, h2⟩ := hsplit heq
      refine ⟨hplain h1, hplain' h2, by simpa using htext, ?_⟩
      rw [← h1, ← h2, heq, h1, h2]
      rfl

theorem built_plain (c : Concatenation) (h : c.Plain pool) :
    ∃ p, c.built pool = some p ∧ pool.content p = c.denotation pool := by
  induction c with
  | text s => exact ⟨s, rfl, rfl⟩
  | add c i ih =>
      obtain ⟨hc, hi, hfound⟩ := h
      obtain ⟨p, hp, heq⟩ := ih hc
      refine ⟨_, Option.map_eq_some_iff.mpr ⟨p, hp, rfl⟩, ?_⟩
      rw [heq, written_plain hi]
      exact hfound
  | nest c d ihc ihd =>
      obtain ⟨hc, hd, htext, hfound⟩ := h
      obtain ⟨p, hp, heqc⟩ := ihc hc
      obtain ⟨q, hq, heqd⟩ := ihd hd
      refine ⟨pool.makeString (pool.content p ++ pool.content q), ?_, ?_⟩
      · simp only [Concatenation.built, htext, Bool.false_eq_true,
          if_false, hp, hq, Option.bind_some,
          Option.map_some]
      · rw [heqc, heqd]
        exact hfound

/-- **A string built at compile time is the text of its parts exactly if the parts are plain.**
Kind: P -/
theorem concatenates_iff {pool : Pool} {c : Concatenation} (hfound : c.Found pool)
    (overlaid : Bool) :
    Concatenates pool c overlaid ↔ c.Plain pool := by
  unfold Concatenates
  rw [evaluate_toExpr]
  constructor
  · rintro ⟨p, hp, heq⟩
    obtain ⟨q, hq, hpq⟩ := Option.map_eq_some_iff.mp hp
    obtain rfl : q = p := by simpa using hpq
    have h0 := pool.nonzero q
    rw [heq] at h0
    exact (built_spec c hfound h0 hq).2 heq
  · intro h
    obtain ⟨p, hp, heq⟩ := built_plain c h
    exact ⟨p, by rw [hp]; rfl, heq⟩

end

/-- Three strings. -/
def somePool : Pool where
  content p :=
    if p = 1 then asciiText "a"
    else if p = 2 then asciiText "a7"
    else if p = 3 then asciiText "a-340282366920938463463374607431768211451"
    else []
  makeString s :=
    if s = asciiText "a7" then 2
    else if s = asciiText "a-340282366920938463463374607431768211451" then 3
    else 0
  float _ := []
  nonzero p := by
    split_ifs
    · decide
    · decide
    · decide
    · exact List.not_mem_nil

/-- `"a" + 7`. Kind: P -/
theorem concatenates_seven :
    Concatenates somePool (.add (.text 1) (.int ⟨7, by decide⟩)) false ↔
      (Concatenation.add (.text 1) (.int ⟨7, by decide⟩)).Plain somePool := by
  apply concatenates_iff
  refine ⟨trivial, fun p hp => ?_⟩
  obtain rfl := Option.some.inj hp
  exact ⟨[], by decide⟩

/-- `"a" + -5` gives another text, and `"a" + ("a")` none. Kind: P -/
theorem negative_not_concatenated :
    ¬ Concatenates somePool (.add (.text 1) (.int ⟨-5, by decide⟩)) false ∧
    ¬ Concatenates somePool (.nest (.text 1) (.text 1)) false := by
  unfold Concatenates
  simp only [evaluate_toExpr]
  constructor
  · rintro ⟨p, hp, heq⟩
    obtain ⟨q, hq, hpq⟩ := Option.map_eq_some_iff.mp hp
    obtain rfl : q = p := by simpa using hpq
    obtain rfl := Option.some.inj hq
    revert heq
    decide
  · rintro ⟨p, hp, -⟩
    cases hp

end CxyCompiler.Middle.Evaluate
