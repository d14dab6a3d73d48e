import CxyCompiler.Lib.Double
import CxyCompiler.Lib.Numeral

/-!
# Values of the standard library (`stdlib/value.cxy`) and output streams

A value is what a JSON or YAML text stands for. The entries of an object stand in the order in
which the hash table is iterated; as entries are only ever set, the table is a finite map
(`Stdlib.HashMapRuns`).

* `Value`, `setEntry`: values, and setting an entry of an object.
* `Value.Wf`: the keys of every object are distinct, and its iterator comes by all of its entries.
* `Value.Same`: the same structure with the same scalars, numbers by value, objects as maps.
* `appendChar`, `putChar`: writing one character, as UTF-8 of what the character is widened to.

Sources: `stdlib/value.cxy`, `runtime/builtins.cxy`.
-/

namespace CxyCompiler.Stdlib

open CxyCompiler.Lib.Double
open CxyCompiler.Lib.Numeral (forall_byte)

/-! ## Bytes -/

/-- The text of a `String`. -/
abbrev Bytes : Type := List UInt8

/-- An ASCII character. -/
def ch (c : Char) : UInt8 := c.toNat.toUInt8

/-- A text of ASCII characters. -/
def text (s : String) : Bytes := s.toList.map ch

def isAscii (c : UInt8) : Bool := c < 0x80

/-- The `char` of C is signed on some targets and unsigned on others; `signed` says which.
Source: the parameter of `appendChar` at a `char`. -/
def widen (signed : Bool) (c : UInt8) : UInt32 :=
  if signed && !isAscii c then 0xFFFFFF00 ||| c.toUInt32 else c.toUInt32

/-- A continuation byte. -/
def trail (c : UInt32) : UInt8 := ((0x80 : UInt32) ||| (c &&& 0x3F)).toUInt8

/-- Nothing is written from 0x200000 on. Source: `builtins.cxy` `OutputStream.appendChar`. -/
def appendChar (c : UInt32) : Bytes :=
  if c < 0x80 then [c.toUInt8]
  else if c < 0x800 then [((0xC0 : UInt32) ||| (c >>> 6)).toUInt8, trail c]
  else if c < 0x10000 then
    [((0xE0 : UInt32) ||| (c >>> 12)).toUInt8, trail (c >>> 6), trail c]
  else if c < 0x200000 then
    [((0xF0 : UInt32) ||| (c >>> 16)).toUInt8, trail (c >>> 12), trail (c >>> 6), trail c]
  else []

/-- `os << c` for a `char`. Source: `builtins.cxy` `OutputStream.<<`. -/
def putChar (signed : Bool) (c : UInt8) : Bytes := appendChar (widen signed c)

/-- The characters of a text are checked one by one. Kind: L -/
theorem forall_mem_text {p : UInt8 → Prop} [DecidablePred p] {s : Bytes}
    (h : s.all (fun c => decide (p c)) = true) : ∀ c ∈ s, p c :=
  fun c hc => of_decide_eq_true (List.all_eq_true.mp h c hc)

/-- What is written for an ASCII character, and for another one on the targets of both kinds.
Kind: L -/
theorem putChar_spec (c : UInt8) : if isAscii c = true then putChar true c = [c] ∧
    putChar false c = [c]
    else putChar true c = [] ∧
      putChar false c = [((0xC0 : UInt32) ||| (c.toUInt32 >>> 6)).toUInt8, trail c.toUInt32] ∧
      isAscii ((0xC0 : UInt32) ||| (c.toUInt32 >>> 6)).toUInt8 = false ∧
      isAscii (trail c.toUInt32) = false :=
  forall_byte (p := fun c => if isAscii c = true then putChar true c = [c] ∧ putChar false c = [c]
    else putChar true c = [] ∧
      putChar false c = [((0xC0 : UInt32) ||| (c.toUInt32 >>> 6)).toUInt8, trail c.toUInt32] ∧
      isAscii ((0xC0 : UInt32) ||| (c.toUInt32 >>> 6)).toUInt8 = false ∧
      isAscii (trail c.toUInt32) = false) (by decide +kernel) c

/-- **An ASCII character is written as it is.** Kind: L -/
theorem putChar_ascii (signed : Bool) {c : UInt8}
    (h : isAscii c = true) : putChar signed c = [c] := by
  have hspec := putChar_spec c
  rw [if_pos h] at hspec
  obtain ⟨hsigned, hunsigned⟩ := hspec
  cases signed with
  | false => exact hunsigned
  | true => exact hsigned

/-- Where `char` is signed, other characters are not written. Kind: L -/
theorem putChar_signed {c : UInt8} (h : isAscii c = false) : putChar true c = [] := by
  have hspec := putChar_spec c
  rw [if_neg (by rw [h]; decide)] at hspec
  exact hspec.1

/-- Where `char` is unsigned, two characters are written for another one. Kind: L -/
theorem putChar_unsigned {c : UInt8} (h : isAscii c = false) :
    ∃ a b, putChar false c = [a, b] ∧ isAscii a = false ∧ isAscii b = false := by
  have hspec := putChar_spec c
  rw [if_neg (by rw [h]; decide)] at hspec
  exact ⟨_, _, hspec.2⟩

/-- The digits of a number. Source: `builtins.cxy` `sputu128`. -/
def digits (n : ℕ) : Bytes := (Nat.toDigits 10 n).map ch

/-- Source: `builtins.cxy` `OutputStream.appendSignedInt`, `sputi128`. -/
def appendSignedInt (i : ℤ) : Bytes :=
  if i < 0 then ch '-' :: digits i.natAbs else digits i.natAbs

/-! ## Values -/

/-- Source: `value.cxy` `Value`. -/
inductive Value
  | null
  | bool (b : Bool)
  | int (i : Int64)
  | float (f : F64)
  | string (s : Bytes)
  | array (items : List Value)
  | object (entries : List (Bytes × Value))

/-- An entry is replaced where there is one. Source: `value.cxy` `Value.set`. -/
def setEntry (key : Bytes) (value : Value) : List (Bytes × Value) → List (Bytes × Value)
  | [] => [(key, value)]
  | (k, v) :: es => if k = key then (key, value) :: es else (k, v) :: setEntry key value es

theorem mem_keys_setEntry {k key : Bytes} {x : Value} {es : List (Bytes × Value)} :
    k ∈ (setEntry key x es).map Prod.fst ↔ k = key ∨ k ∈ es.map Prod.fst := by
  induction es with
  | nil => simp [setEntry]
  | cons e es ih =>
      obtain ⟨k', x'⟩ := e
      by_cases hk : k' = key
      · simp [setEntry, hk]
      · simp only [setEntry, if_neg hk, List.map_cons, List.mem_cons, ih]
        tauto

theorem setEntry_new {key : Bytes} {x : Value} {es : List (Bytes × Value)}
    (h : key ∉ es.map Prod.fst) : setEntry key x es = es ++ [(key, x)] := by
  induction es with
  | nil => rfl
  | cons e es ih =>
      obtain ⟨k', x'⟩ := e
      simp only [List.map_cons, List.mem_cons, not_or] at h
      rw [setEntry, if_neg (fun he => h.1 he.symm), ih h.2]
      rfl

/-- The iterator of a hash table counts slots with an `i8` (`Stdlib.HashMapEach`). A table of so
many entries has 101 slots, so that all of them are counted; the next larger one has 197. -/
def shownEntries : ℕ := 90

mutual

/-- The keys of every object are distinct, and its iterator comes by all of its entries. -/
def Value.Wf : Value → Prop
  | .array xs => Value.WfItems xs
  | .object es => ((es.map Prod.fst).Nodup ∧ es.length ≤ shownEntries) ∧ Value.WfEntries es
  | _ => True

def Value.WfItems : List Value → Prop
  | [] => True
  | x :: xs => x.Wf ∧ Value.WfItems xs

def Value.WfEntries : List (Bytes × Value) → Prop
  | [] => True
  | (_, x) :: es => x.Wf ∧ Value.WfEntries es

end

mutual

/-- How many arrays and objects the innermost value stands in. -/
def Value.depth : Value → ℕ
  | .array xs => Value.depthItems xs
  | .object es => Value.depthEntries es
  | _ => 0

def Value.depthItems : List Value → ℕ
  | [] => 0
  | x :: xs => max (x.depth + 1) (Value.depthItems xs)

def Value.depthEntries : List (Bytes × Value) → ℕ
  | [] => 0
  | (_, x) :: es => max (x.depth + 1) (Value.depthEntries es)

end

/-- A double has the value of an integer. -/
def isValueOf (i : Int64) : F64 → Prop
  | .fin s m => signed s m = i.toInt
  | _ => False

/-- **Equal values**: the same structure and the same scalars; an integer may come back as a
double of its value, and objects are compared as maps. -/
inductive Value.Same : Value → Value → Prop
  | null : Same .null .null
  | bool (b : Bool) : Same (.bool b) (.bool b)
  | int (i : Int64) : Same (.int i) (.int i)
  | number {i : Int64} {f : F64} : isValueOf i f → Same (.int i) (.float f)
  | string (s : Bytes) : Same (.string s) (.string s)
  | array {xs ys : List Value} : List.Forall₂ Same xs ys → Same (.array xs) (.array ys)
  | object {es fs : List (Bytes × Value)} :
      (∀ k, k ∈ es.map Prod.fst ↔ k ∈ fs.map Prod.fst) →
      (∀ k v w, (k, v) ∈ es → (k, w) ∈ fs → Same v w) → Same (.object es) (.object fs)

end CxyCompiler.Stdlib
