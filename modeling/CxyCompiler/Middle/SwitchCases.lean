import CxyCompiler.Lib.CInteger
import CxyCompiler.Lib.Qsort

/-!
# The cases of an integer switch

The values and ranges of a switch are sorted, and each is compared with the one before it: the same
comparison sorts them and finds what they have in common. It puts a value before a range that ends
before the value, but two values, and two ranges, in the order of their numbers. A value may be a
number, a character or a member of an enumeration, in parentheses too, and not every two of these
can be compared.

* `Literal`, `Match` — the values, and what a case matches.
* `getLiteralValue`, `compareLiteralNode` — the number of a value, and the comparison; assertions
  fail in both.
* `checkDuplicateCaseMatches` — the errors for neighbours.
* `checkCaseStmt`, `checkSwitchStmt` — what is checked of one case, and of all.
* `Match.Common` — what the comparison is for: two cases have a value in common.
* `Correct` — **the compiler goes on, and reports an error exactly for cases that have a common
  value**.
* `duplicates_correct_iff` — **it does so, whatever the order in which cases are sorted, exactly if
  no assertion fails and the comparison is true to the values of the cases**.

Sources: `middle/sema/switch.c`, `frontend/ast.c`, `frontend/types.c`, `frontend/ttable.c`,
`middle/eval/literal.c`.
-/

namespace CxyCompiler.Middle.SwitchCases

open Lib
open Lib.CInteger (Ty)

/-! ## Values of cases -/

/-- An enumeration, by its identity; its base is a character type or an integer type.
Source: `types.h` `tEnum`. -/
structure EnumType where
  id : ℕ
  charBase : Bool
  deriving DecidableEq

/-- What a case or the bound of a range may be after its type check. An `address` is the lower half
of a pointer that a node has where a character literal has its character. Casts to numbers and
characters have been folded by `castLiteral`; `other` is what is not a literal.
Source: `ast.h` `intLiteral`, `charLiteral`, `path`, `groupExpr`, `castExpr`. -/
inductive Literal
  | integerLit (value : ℤ)
  | floatLit
  | boolLit (value : Bool)
  | charLit (value : ℤ)
  | enumLit (type : EnumType) (value : ℤ) (address : ℤ)
  | groupExpr (expr : Literal) (address : ℤ)
  | castExpr (target : EnumType) (expr : Literal)
  | other
  deriving DecidableEq

/-- The types that are told apart. -/
inductive LiteralType
  | integer
  | float
  | bool
  | char
  | enum (type : EnumType)
  deriving DecidableEq

namespace Literal

/-- Source: `check.c` `checkLiteral`, `checkGroupExpr`; `cast.c` `checkCastExpr`. -/
def type : Literal → LiteralType
  | integerLit _ | other => .integer
  | floatLit => .float
  | boolLit _ => .bool
  | charLit _ => .char
  | enumLit type _ _ => .enum type
  | groupExpr expr _ => expr.type
  | castExpr target _ => .enum target

/-- Source: `ast.c` `isIntegralLiteral`. -/
def isIntegralLiteral : Literal → Bool
  | integerLit _ | floatLit | boolLit _ | charLit _ | enumLit _ _ _ => true
  | groupExpr expr _ | castExpr _ expr => expr.isIntegralLiteral
  | other => false

/-- What stands where a character literal has its character. Source: `ast.h` `AstNode`. -/
def word : Literal → ℤ
  | integerLit value => value % 2 ^ 32
  | charLit value => value
  | enumLit _ _ address | groupExpr _ address => address
  | _ => 0

end Literal

/-- What a case matches: a value, or the range between two, both included.
Source: `ast.h` `caseStmt`, `rangeExpr`. -/
inductive Match
  | literal (l : Literal)
  | rangeExpr (start stop : Literal)
  deriving DecidableEq

/-- The number of a value, as an `i64`. In parentheses a number fails the assertion of
`integerLiteralValue`, a member that of `getEnumLiteralValue`, and a character is read from the
wrong node. Source: `switch.c` `getLiteralValue`. -/
def getLiteralValue (l : Literal) : Option ℤ :=
  match l.type, l with
  | .enum _, .enumLit _ value _ => some value
  | .enum _, _ => none
  | .char, l => some l.word
  | _, .integerLit value => some (value.bmod 18446744073709551616)
  | _, _ => none

/-- The number of a value whose type has been set to the error type.
Source: `switch.c` `getLiteralValue`, `checkDuplicateCaseMatches`. -/
def getFailedValue : Literal → Option ℤ
  | .integerLit value => some (value.bmod 18446744073709551616)
  | _ => none

/-! ## The comparison -/

/-- Source: `switch.c` `isIntegerInRange`. -/
def isIntegerInRange (start stop : Literal) (value : ℤ) : Option ℤ := do
  let min ← getLiteralValue start
  let max ← getLiteralValue stop
  some (if value < min then -1 else if max < value then 1 else 0)

/-- Source: `switch.c` `isOverlappingRange`. -/
def isOverlappingRange (startLhs stopLhs startRhs stopRhs : Literal) : Option ℤ := do
  let minLhs ← getLiteralValue startLhs
  let maxLhs ← getLiteralValue stopLhs
  let minRhs ← getLiteralValue startRhs
  let maxRhs ← getLiteralValue stopRhs
  some (if maxLhs < minRhs then -1 else if maxRhs < minLhs then 1 else 0)

/-- Source: `switch.c` `cxy_compare`. -/
def cxyCompare (x y : ℤ) : ℤ := if x < y then -1 else if y < x then 1 else 0

/-- The branch for each kind of the first value. What has the tag of a group or a cast comes to the
branch for members, and so does what is neither a member nor a literal; floats and truth values do
not come here. Source: `switch.c` `compareLiteralNode`. -/
def compareLiterals (failed : Bool) : Literal → Literal → Option ℤ
  | .integerLit lhs, rhs => do
      let lhs ← getLiteralValue (.integerLit lhs)
      let rhs ← getLiteralValue rhs
      some (cxyCompare lhs rhs)
  | .charLit lhs, rhs => some (cxyCompare lhs rhs.word)
  | .enumLit type lhs _, .enumLit type' rhs _ =>
      if failed || type ≠ type' then none else some (cxyCompare lhs rhs)
  | _, _ => none

/-- The comparison of two cases; `failed` says that the first one has been reported, which sets its
type to the error type. Source: `switch.c` `compareLiteralNode`. -/
def compareLiteralNode (failed : Bool) : Match → Match → Option ℤ
  | .rangeExpr startLhs stopLhs, .rangeExpr startRhs stopRhs =>
      isOverlappingRange startLhs stopLhs startRhs stopRhs
  | .rangeExpr start stop, .literal rhs => do
      let value ← getLiteralValue rhs
      isIntegerInRange start stop value
  | .literal lhs, .rangeExpr start stop => do
      let value ← if failed then getFailedValue lhs else getLiteralValue lhs
      let sign ← isIntegerInRange start stop value
      some (-sign)
  | .literal lhs, .literal rhs => compareLiterals failed lhs rhs

/-! ## The checks -/

/-- The cases that are reported after the case `prev`, each with the one before it.
Source: `switch.c` `checkDuplicateCaseMatches`. -/
def checkAfter (failed : Bool) (prev : Match) : List Match → Option (List (Match × Match))
  | [] => some []
  | m :: rest => do
      let sign ← compareLiteralNode failed prev m
      let errors ← checkAfter (decide (sign = 0)) m rest
      some (if sign = 0 then (m, prev) :: errors else errors)

/-- Source: `switch.c` `checkDuplicateCaseMatches`. -/
def checkDuplicateCaseMatches : List Match → Option (List (Match × Match))
  | [] => some []
  | prev :: rest => checkAfter false prev rest

/-- The least and the greatest number of an integer type.
Source: `types.c` `getIntegerTypeMinMax`. -/
def getIntegerTypeMinMax (type : Ty) : ℤ × ℤ :=
  if type.signed then (-(type.half : ℤ), type.half - 1) else (0, 2 * (type.half : ℤ) - 1)

/-- No result where the bounds are reversed, which is an assertion that fails. The least number of
an unsigned type is compared as a `u128`. Source: `ttable.c` `isIntegerTypeInRange`. -/
def isIntegerTypeInRange (type : Ty) (min max : ℤ) : Option Bool :=
  if min ≤ max then
    let minMax := getIntegerTypeMinMax type
    some <|
      if type.signed then min ≤ minMax.2 && minMax.1 ≤ max
      else min % 340282366920938463463374607431768211456 ≤ minMax.2 && minMax.1 ≤ max
  else none

/-- Whether a condition of an integer type goes with the type of a case.
Source: `types.c` `isTypeCastAssignable`, from an integer type. -/
def isTypeCastAssignable (type : LiteralType) (cond : Ty) : Bool :=
  match type with
  | .integer | .float => true
  | .bool => false
  | .char => cond.bits ≤ 32
  | .enum t => !t.charBase || cond.bits ≤ 32

/-- Whether the case passes, or is reported; the default case has no match. That the bounds of a
range have types that go together and with the condition is taken for granted.
Source: `switch.c` `checkCaseStmt`. -/
def checkCaseStmt (cond : Ty) : Option Match → Option Bool
  | some (.rangeExpr min max) =>
      if !min.isIntegralLiteral || !max.isIntegralLiteral then some false
      else do
        let iMin ← getLiteralValue min
        let iMax ← getLiteralValue max
        isIntegerTypeInRange cond iMin iMax
  | some (.literal l) =>
      if !isTypeCastAssignable l.type cond then some false
      else if l.isIntegralLiteral then do
        let value ← getLiteralValue l
        isIntegerTypeInRange cond value value
      else some false
  | none => some true

/-- Whether all cases pass. Source: `switch.c` `checkSwitchStmt`, the first pass. -/
def checkCases (cond : Ty) : List (Option Match) → Option Bool
  | [] => some true
  | m :: rest => (checkCaseStmt cond m).bind fun ok => (checkCases cond rest).map (ok && ·)

/-- Source: `switch.c` `checkSwitchStmt`, the array `matches`. -/
def matchesOf (cases : List (Option Match)) : List Match := cases.filterMap id

/-- The duplicates that are reported, or nothing where a case has not passed.
Source: `switch.c` `checkSwitchStmt`. -/
def checkSwitchStmt (qsort : List Match → Option (List Match)) (cond : Ty)
    (cases : List (Option Match)) : Option (Option (List (Match × Match))) := do
  let ok ← checkCases cond cases
  if ok then do
    let cases ← qsort (matchesOf cases)
    let errors ← checkDuplicateCaseMatches cases
    some (some errors)
  else some none

/-! ## What is checked -/

namespace Literal

/-- The number that a value stands for. -/
def value? : Literal → Option ℤ
  | integerLit value | charLit value | enumLit _ value _ => some value
  | boolLit value => some (if value then 1 else 0)
  | groupExpr expr _ | castExpr _ expr => expr.value?
  | floatLit | other => none

/-- No assertion fails when its number is read: it is a number, a character or a member that stands
by itself, or a character in parentheses. -/
def Readable : Literal → Bool
  | integerLit _ | charLit _ | enumLit _ _ _ => true
  | groupExpr expr _ => expr.type = .char
  | _ => false

/-- Neither comparison of the two fails an assertion: both are members of one enumeration, or
numbers and characters that stand by themselves. -/
def Comparable : Literal → Literal → Bool
  | enumLit type _ _, enumLit type' _ _ => type = type'
  | integerLit _, integerLit _ | integerLit _, charLit _ => true
  | charLit _, integerLit _ | charLit _, charLit _ => true
  | _, _ => false

end Literal

namespace Match

/-- The least and the greatest value. -/
def bounds : Match → Option (ℤ × ℤ)
  | literal l => l.value?.map fun x => (x, x)
  | rangeExpr start stop =>
      match start.value?, stop.value? with
      | some min, some max => some (min, max)
      | _, _ => none

/-- The case matches a value. -/
def Has (m : Match) (x : ℤ) : Prop := ∃ b, m.bounds = some b ∧ b.1 ≤ x ∧ x ≤ b.2

/-- Two cases match one value. -/
def Common (m n : Match) : Prop := ∃ x, m.Has x ∧ n.Has x

/-- No assertion fails when the case is checked: its values are readable, and a range does not end,
as far as its bounds are read, before it starts. -/
def Checkable (cond : Ty) : Match → Prop
  | literal l =>
      isTypeCastAssignable l.type cond = true → l.isIntegralLiteral = true → l.Readable = true
  | rangeExpr start stop =>
      start.isIntegralLiteral = true → stop.isIntegralLiteral = true →
        (start.Readable = true ∧ stop.Readable = true) ∧
          ∀ min ∈ getLiteralValue start, ∀ max ∈ getLiteralValue stop, min ≤ max

/-- Ranges can be compared with every case. -/
def Comparable : Match → Match → Bool
  | literal l, literal r => l.Comparable r
  | _, _ => true

variable {m n : Match}

theorem common_iff : m.Common n ↔ ∃ a ∈ m.bounds, ∃ b ∈ n.bounds,
    (a.1 ≤ a.2 ∧ b.1 ≤ b.2) ∧ a.1 ≤ b.2 ∧ b.1 ≤ a.2 := by
  constructor
  · rintro ⟨x, ⟨a, ha, hax⟩, b, hb, hbx⟩
    exact ⟨a, ha, b, hb, ⟨hax.1.trans hax.2, hbx.1.trans hbx.2⟩, hax.1.trans hbx.2,
      hbx.1.trans hax.2⟩
  · rintro ⟨a, ha, b, hb, ⟨haa, hbb⟩, hab, hba⟩
    exact ⟨max a.1 b.1, ⟨a, ha, le_max_left .., max_le haa hba⟩,
      b, hb, le_max_right .., max_le hab hbb⟩

instance : Decidable (m.Common n) := decidable_of_iff' _ common_iff

end Match

/-- Two of the cases have a common value. -/
def Overlapping (l : List Match) : Prop := ¬ l.Pairwise fun m n => ¬ m.Common n

instance (l : List Match) : Decidable (Overlapping l) := by
  unfold Overlapping
  infer_instance

/-- **The compiler goes on, and if it comes to look for duplicates, it reports an error exactly for
cases of which two have a common value.** -/
def Correct (qsort : List Match → Option (List Match)) (cond : Ty) (cases : List (Option Match)) :
    Prop :=
  ∃ result, checkSwitchStmt qsort cond cases = some result ∧
    ∀ errors, result = some errors → (errors ≠ [] ↔ Overlapping (matchesOf cases))

/-- The comparison while the cases are sorted. -/
abbrev compare : Match → Match → Option ℤ := compareLiteralNode false

/-- Two of the cases compare as equal, in one order or the other. -/
def Equal (l : List Match) : Prop :=
  ¬ l.Pairwise fun m n => compare m n ≠ some 0 ∧ compare n m ≠ some 0

/-- The cases can be arranged such that no two neighbours compare as equal. -/
def Separable (l : List Match) : Prop :=
  ∃ r : List Match, r.Perm l ∧ r.IsChain fun m n => compare m n ≠ some 0

/-- No case that equals the one before it is followed by one that it cannot be compared with once
its type is the error type. -/
def Proceeds : List Match → Prop
  | x :: y :: z :: rest =>
      ¬ (compare x y = some 0 ∧ compareLiteralNode true y z = none) ∧ Proceeds (y :: z :: rest)
  | _ => True

/-- What has to be the case: no assertion fails for any case; and if all cases pass, then any two
can be compared, two compare as equal exactly if two overlap, those that overlap are ordered by the
comparison or cannot be separated, and in no arrangement that the sort may leave a reported case
stands before one that it cannot be compared with any more. -/
structure Sound (cond : Ty) (cases : List (Option Match)) : Prop where
  checkable : ∀ m ∈ matchesOf cases, m.Checkable cond
  comparable : checkCases cond cases = some true →
    (matchesOf cases).Pairwise fun m n => m.Comparable n = true
  fits : checkCases cond cases = some true →
    (Equal (matchesOf cases) ↔ Overlapping (matchesOf cases))
  ordered : checkCases cond cases = some true → Overlapping (matchesOf cases) →
    Qsort.Orders (Qsort.sign compare) (matchesOf cases) ∨ ¬ Separable (matchesOf cases)
  proceeds : checkCases cond cases = some true →
    ∀ r, Qsort.Arranged compare (matchesOf cases) r → Proceeds r

/-! ## One case -/

section Values

variable {l r : Literal} {cond : Ty}

/-- A number is read exactly from a readable value. Kind: L -/
theorem getLiteralValue_isSome : (getLiteralValue l).isSome = l.Readable := by
  cases l with
  | groupExpr expr address =>
      unfold getLiteralValue Literal.Readable
      cases h : expr.type <;> simp [Literal.type, h]
  | integerLit | floatLit | boolLit | charLit | enumLit | castExpr | other => rfl

theorem isIntegerTypeInRange_isSome {type : Ty} {min max : ℤ} :
    (isIntegerTypeInRange type min max).isSome ↔ min ≤ max := by
  unfold isIntegerTypeInRange
  by_cases h : min ≤ max
  · rw [if_pos h]
    exact iff_of_true rfl h
  · rw [if_neg h]
    exact iff_of_false Bool.false_ne_true h

/-- The check of a case goes on exactly if no assertion fails. Kind: L -/
theorem checkCaseStmt_isSome (cond : Ty) (m : Match) :
    (checkCaseStmt cond (some m)).isSome ↔ m.Checkable cond := by
  cases m with
  | literal l =>
      rw [checkCaseStmt, Match.Checkable, ← getLiteralValue_isSome]
      cases isTypeCastAssignable l.type cond with
      | false => simp
      | true =>
      cases l.isIntegralLiteral with
      | false => simp
      | true =>
      cases getLiteralValue l with
      | none => simp
      | some value => simpa using isIntegerTypeInRange_isSome.mpr (le_refl value)
  | rangeExpr start stop =>
      rw [checkCaseStmt, Match.Checkable, ← getLiteralValue_isSome, ← getLiteralValue_isSome]
      cases start.isIntegralLiteral with
      | false => simp
      | true =>
      cases stop.isIntegralLiteral with
      | false => simp
      | true =>
      cases getLiteralValue start with
      | none => simp
      | some min =>
      cases getLiteralValue stop with
      | none => simp
      | some max => simpa using isIntegerTypeInRange_isSome

/-- A case that passes has readable values. -/
def Match.Readable : Match → Prop
  | .literal l => l.Readable = true
  | .rangeExpr start stop => start.Readable = true ∧ stop.Readable = true

theorem readable_of_pass {m : Match} (h : checkCaseStmt cond (some m) = some true) :
    m.Readable := by
  have hcheck := (checkCaseStmt_isSome cond m).mp (Option.isSome_of_eq_some h)
  cases m with
  | literal l =>
      rw [checkCaseStmt] at h
      split_ifs at h with htype hlit
      · simp at h
      · exact hcheck (by simpa using htype) hlit
      · simp at h
  | rangeExpr start stop =>
      rw [checkCaseStmt] at h
      split_ifs at h with hlit
      · simp at h
      · simp only [Bool.or_eq_true, Bool.not_eq_true', not_or, Bool.not_eq_false] at hlit
        exact (hcheck hlit.1 hlit.2).1

/-! ## One comparison -/

/-- Two readable values can be compared in both orders exactly if they are of one kind. Kind: L -/
theorem compareLiterals_isSome (hl : l.Readable = true) (hr : r.Readable = true) :
    (compareLiterals false l r).isSome ∧ (compareLiterals false r l).isSome ↔
      l.Comparable r = true := by
  rw [← getLiteralValue_isSome] at hl hr
  obtain ⟨x, hx⟩ := Option.isSome_iff_exists.mp hl
  obtain ⟨y, hy⟩ := Option.isSome_iff_exists.mp hr
  cases l <;> cases r <;>
    simp only [compareLiterals, Literal.Comparable, hx, hy] <;>
    grind

theorem isIntegerInRange_isSome {start stop : Literal} (hstart : start.Readable = true)
    (hstop : stop.Readable = true) (value : ℤ) : (isIntegerInRange start stop value).isSome := by
  rw [← getLiteralValue_isSome] at hstart hstop
  obtain ⟨x, hx⟩ := Option.isSome_iff_exists.mp hstart
  obtain ⟨y, hy⟩ := Option.isSome_iff_exists.mp hstop
  unfold isIntegerInRange
  rw [hx, hy]
  rfl

/-- **Two cases that pass can be compared in both orders** exactly if they are ranges or of one
kind. Kind: L -/
theorem compare_isSome {m n : Match} (hm : m.Readable) (hn : n.Readable) :
    (compare m n).isSome ∧ (compare n m).isSome ↔ m.Comparable n = true := by
  have hmixed : ∀ {start stop v : Literal}, start.Readable = true → stop.Readable = true →
      v.Readable = true → (compare (.rangeExpr start stop) (.literal v)).isSome ∧
        (compare (.literal v) (.rangeExpr start stop)).isSome := by
    intro start stop v hstart hstop hv
    rw [← getLiteralValue_isSome] at hv
    obtain ⟨x, hx⟩ := Option.isSome_iff_exists.mp hv
    obtain ⟨c, hc⟩ := Option.isSome_iff_exists.mp (isIntegerInRange_isSome hstart hstop x)
    simp [compare, compareLiteralNode, hx, hc]
  cases m with
  | literal l =>
      cases n with
      | literal r => exact compareLiterals_isSome hm hn
      | rangeExpr start stop => exact iff_of_true (hmixed hn.1 hn.2 hm).symm rfl
  | rangeExpr start stop =>
      cases n with
      | literal r => exact iff_of_true (hmixed hm.1 hm.2 hn) rfl
      | rangeExpr start' stop' =>
          refine iff_of_true ?_ rfl
          obtain ⟨a, ha⟩ := Option.isSome_iff_exists.mp (getLiteralValue_isSome.trans hm.1)
          obtain ⟨b, hb⟩ := Option.isSome_iff_exists.mp (getLiteralValue_isSome.trans hm.2)
          obtain ⟨c, hc⟩ := Option.isSome_iff_exists.mp (getLiteralValue_isSome.trans hn.1)
          obtain ⟨d, hd⟩ := Option.isSome_iff_exists.mp (getLiteralValue_isSome.trans hn.2)
          simp [compare, compareLiteralNode, isOverlappingRange, ha, hb, hc, hd]

/-- A case that has been reported compares as before, or not at all. Kind: L -/
theorem compareLiteralNode_failed {m n : Match} {c : ℤ} (h : compareLiteralNode true m n = some c) :
    compare m n = some c := by
  cases m with
  | rangeExpr => cases n <;> exact h
  | literal l =>
      cases n with
      | literal r =>
          cases l <;> cases r <;> first | exact h | simp [compareLiteralNode, compareLiterals] at h
      | rangeExpr start stop =>
          cases l <;> first | exact h | simp [compareLiteralNode, getFailedValue] at h

end Values

/-! ## All cases -/

section Cases

variable {cond : Ty} {cases : List (Option Match)}

/-- The first pass goes on exactly if no assertion fails for any case. Kind: L -/
theorem checkCases_isSome (cond : Ty) :
    ∀ cases, (checkCases cond cases).isSome ↔ ∀ m ∈ matchesOf cases, m.Checkable cond
  | [] => iff_of_true rfl fun _ h => absurd h List.not_mem_nil
  | none :: rest => by
      unfold checkCases matchesOf
      rw [List.filterMap_cons_none rfl, ← matchesOf, ← checkCases_isSome cond rest]
      change ((checkCases cond rest).map (true && ·)).isSome ↔ _
      rw [Option.isSome_map]
  | some m :: rest => by
      unfold checkCases matchesOf
      rw [List.filterMap_cons_some (rfl : id (some m) = some m), ← matchesOf,
        List.forall_mem_cons, ← checkCaseStmt_isSome cond m, ← checkCases_isSome cond rest]
      rcases checkCaseStmt cond (some m) with _ | ok
      · exact iff_of_false Bool.false_ne_true fun h => Bool.false_ne_true h.1
      · change ((checkCases cond rest).map (ok && ·)).isSome ↔ _
        rw [Option.isSome_map]
        exact (and_iff_right rfl).symm

/-- Where all cases pass, their values are readable. Kind: L -/
theorem readable_of_checkCases :
    ∀ {cases}, checkCases cond cases = some true → ∀ m ∈ matchesOf cases, m.Readable
  | [], _, _, h => absurd h List.not_mem_nil
  | c :: rest, hpass, m, hm => by
      obtain ⟨ok, hc, hrest⟩ := Option.bind_eq_some_iff.mp hpass
      obtain ⟨ok', hok', hand⟩ := Option.map_eq_some_iff.mp hrest
      obtain ⟨rfl, rfl⟩ := Bool.and_eq_true_iff.mp hand
      cases c with
      | none => exact readable_of_checkCases hok' m hm
      | some n =>
          rcases List.mem_cons.mp hm with rfl | hm
          · exact readable_of_pass hc
          · exact readable_of_checkCases hok' m hm

/-- Cases that pass can be compared exactly if they are ranges or of one kind. Kind: L -/
theorem comparable_iff (h : checkCases cond cases = some true) :
    Qsort.Comparable compare (matchesOf cases) ↔
      (matchesOf cases).Pairwise fun m n => m.Comparable n = true := by
  have hread := readable_of_checkCases h
  exact List.Pairwise.iff_of_mem fun hm hn => compare_isSome (hread _ hm) (hread _ hn)

end Cases

/-! ## Neighbours -/

section Neighbours

variable {l r : List Match}

/-- Nothing is reported where no two neighbours compare as equal. Kind: L -/
theorem checkAfter_spec : ∀ {failed : Bool} {prev : Match} {l : List Match},
    (∀ z ∈ l.head?, (compareLiteralNode failed prev z).isSome) →
    Qsort.Comparable compare (prev :: l) → Proceeds (prev :: l) →
    ∃ errors, checkAfter failed prev l = some errors ∧
      (errors = [] ↔ (prev :: l).IsChain fun m n => compare m n ≠ some 0)
  | failed, prev, [], _, _, _ => ⟨[], rfl, iff_of_true rfl (List.isChain_singleton prev)⟩
  | failed, prev, m :: rest, hhead, hcmp, hproceeds => by
      obtain ⟨c, hc⟩ := Option.isSome_iff_exists.mp (hhead m rfl)
      have hcompare : compare prev m = some c := by
        cases failed with
        | false => exact hc
        | true => exact compareLiteralNode_failed hc
      have hnext : ∀ z ∈ rest.head?, (compareLiteralNode (decide (c = 0)) m z).isSome := by
        intro z hz
        obtain ⟨rest', rfl⟩ : ∃ rest', rest = z :: rest' := by
          cases rest with
          | nil => cases hz
          | cons y ys => exact ⟨ys, by rw [Option.some.inj hz]⟩
        by_cases hzero : c = 0
        · rw [decide_eq_true hzero, Option.isSome_iff_ne_none]
          exact fun hnone => hproceeds.1 ⟨hzero ▸ hcompare, hnone⟩
        · rw [decide_eq_false hzero]
          exact ((List.pairwise_cons.mp (List.pairwise_cons.mp hcmp).2).1 z
            (List.mem_cons_self ..)).1
      have hrest : Proceeds (m :: rest) := by
        cases rest with
        | nil => exact trivial
        | cons z zs => exact hproceeds.2
      obtain ⟨errors, herrors, hiff⟩ :=
        checkAfter_spec hnext (List.pairwise_cons.mp hcmp).2 hrest
      refine ⟨if c = 0 then (m, prev) :: errors else errors, ?_, ?_⟩
      · simp only [checkAfter, hc, Option.bind_eq_bind, Option.bind_some, herrors]
      · rw [List.isChain_cons_cons, hcompare, ← hiff]
        by_cases hzero : c = 0 <;> simp [hzero]

/-- Nothing comes of it where a reported case stands before one that it cannot be compared with.
Kind: L -/
theorem checkAfter_stops : ∀ {failed : Bool} {prev : Match} {l : List Match},
    ¬ Proceeds (prev :: l) → checkAfter failed prev l = none
  | _, _, [], h => absurd trivial h
  | _, _, [_], h => absurd trivial h
  | failed, x, y :: z :: rest, h => by
      cases hc : compareLiteralNode failed x y with
      | none => simp [checkAfter, hc]
      | some c =>
          have hcompare : compare x y = some c := by
            cases failed with
            | false => exact hc
            | true => exact compareLiteralNode_failed hc
          have hstop : checkAfter (decide (c = 0)) y (z :: rest) = none := by
            by_cases hbroken : compare x y = some 0 ∧ compareLiteralNode true y z = none
            · obtain rfl : c = 0 := Option.some.inj (hcompare.symm.trans hbroken.1)
              simp [checkAfter, hbroken.2]
            · exact checkAfter_stops fun hrest => h ⟨hbroken, hrest⟩
          rw [checkAfter, hc]
          simp only [Option.bind_eq_bind, Option.bind_some, hstop, Option.bind_none]

/-- **The errors for neighbours**, where any two cases can be compared: there are some exactly if
two neighbours compare as equal. Kind: L -/
theorem checkDuplicateCaseMatches_spec (hcmp : Qsort.Comparable compare r) :
    (∃ errors, checkDuplicateCaseMatches r = some errors ∧
      (errors ≠ [] ↔ ¬ r.IsChain fun m n => compare m n ≠ some 0)) ↔ Proceeds r := by
  cases r with
  | nil => exact iff_of_true ⟨[], rfl, by simp⟩ trivial
  | cons prev rest =>
      constructor
      · rintro ⟨errors, herrors, -⟩
        by_contra hnot
        rw [checkDuplicateCaseMatches, checkAfter_stops hnot] at herrors
        cases herrors
      · intro hproceeds
        have hhead : ∀ z ∈ rest.head?, (compareLiteralNode false prev z).isSome := by
          intro z hz
          exact ((List.pairwise_cons.mp hcmp).1 z (List.mem_of_mem_head? hz)).1
        obtain ⟨errors, herrors, hiff⟩ := checkAfter_spec hhead hcmp hproceeds
        exact ⟨errors, herrors, not_congr hiff⟩

/-! ## Arrangements -/

theorem equal_perm (hr : r.Perm l) : Equal r ↔ Equal l :=
  not_congr (hr.pairwise_iff fun {_ _} h => h.symm)

/-- Neighbours that compare as equal are two cases that do. Kind: L -/
theorem equal_of_chain (h : ¬ r.IsChain fun m n => compare m n ≠ some 0) : Equal r :=
  fun hpair => h (hpair.imp fun hmn => hmn.1).isChain

/-- Two cases that compare as equal can be put next to each other. Kind: L -/
theorem exists_neighbours (h : Equal l) :
    ∃ r : List Match, r.Perm l ∧ ¬ r.IsChain fun m n => compare m n ≠ some 0 := by
  unfold Equal at h
  rw [List.pairwise_iff_forall_sublist] at h
  push Not at h
  obtain ⟨m, n, hsub, hzero⟩ := h
  obtain ⟨rest, hperm⟩ := hsub.exists_perm_append
  by_cases hmn : compare m n = some 0
  · exact ⟨[m, n] ++ rest, hperm.symm, fun hchain => (List.isChain_cons_cons.mp hchain).1 hmn⟩
  · refine ⟨[n, m] ++ rest, ((List.Perm.swap m n rest).trans hperm.symm), fun hchain => ?_⟩
    exact (List.isChain_cons_cons.mp hchain).1 (hzero hmn)

/-- **Cases in order are equal only if neighbours are.** Kind: L -/
theorem not_equal_of_ordered (hcmp : Qsort.Comparable compare r)
    (horders : Qsort.Orders (Qsort.sign compare) r)
    (hsorted : r.Pairwise fun m n => Qsort.sign compare m n ≤ 0)
    (hchain : r.IsChain fun m n => compare m n ≠ some 0) : ¬ Equal r := by
  have hne : r.IsChain fun m n => Qsort.sign compare m n ≠ 0 := by
    rw [List.isChain_iff_getElem] at hchain ⊢
    intro i hi
    have hsome := List.pairwise_iff_getElem.mp hcmp i (i + 1) (by omega) hi i.lt_succ_self
    obtain ⟨c, hc⟩ := Option.isSome_iff_exists.mp hsome.1
    rw [Qsort.sign, hc, Option.getD_some]
    rintro rfl
    exact hchain i hi hc
  have hneg := Qsort.pairwise_neg horders hsorted hne
  refine not_not.mpr (hneg.imp_of_mem fun {m n} hm hn hlt => ⟨fun hzero => ?_, fun hzero => ?_⟩)
  · rw [Qsort.sign, hzero, Option.getD_some] at hlt
    exact lt_irrefl _ hlt
  · have hpos := (horders.flip m hm n hn).mp hlt
    rw [Qsort.sign, hzero, Option.getD_some] at hpos
    exact lt_irrefl _ hpos

/-- **In every arrangement neighbours are equal exactly if cases overlap**, exactly if equal cases
are those that overlap, and they are ordered or cannot be separated. Kind: L -/
theorem arrangements_iff (hcmp : Qsort.Comparable compare l) :
    (∀ r, Qsort.Arranged compare l r →
      ((¬ r.IsChain fun m n => compare m n ≠ some 0) ↔ Overlapping l)) ↔
      (Equal l ↔ Overlapping l) ∧
        (Overlapping l → Qsort.Orders (Qsort.sign compare) l ∨ ¬ Separable l) := by
  constructor
  · intro h
    refine ⟨⟨fun hequal => ?_, fun hover => ?_⟩, fun hover => ?_⟩
    · by_cases horders : Qsort.Orders (Qsort.sign compare) l
      · obtain ⟨r, hr⟩ := Qsort.exists_arranged compare l
        refine (h r hr).mp fun hchain => ?_
        exact not_equal_of_ordered (hcmp.perm hr.perm) (horders.perm hr.perm) (hr.sorted horders)
          hchain ((equal_perm hr.perm).mpr hequal)
      · obtain ⟨r, hperm, hchain⟩ := exists_neighbours hequal
        exact (h r ⟨hperm, fun horders' => absurd horders' horders⟩).mp hchain
    · obtain ⟨r, hr⟩ := Qsort.exists_arranged compare l
      exact (equal_perm hr.perm).mp (equal_of_chain ((h r hr).mpr hover))
    · by_contra hnot
      push Not at hnot
      obtain ⟨horders, r, hperm, hchain⟩ := hnot
      exact (h r ⟨hperm, fun horders' => absurd horders' horders⟩).mpr hover hchain
  · rintro ⟨hfits, hordered⟩ r hr
    refine ⟨fun hchain => hfits.mp ((equal_perm hr.perm).mp (equal_of_chain hchain)),
      fun hover hchain => ?_⟩
    rcases hordered hover with horders | hsep
    · exact not_equal_of_ordered (hcmp.perm hr.perm) (horders.perm hr.perm) (hr.sorted horders)
        hchain ((equal_perm hr.perm).mpr (hfits.mpr hover))
    · exact hsep ⟨r, hr.perm, hchain⟩

end Neighbours

/-! ## The check -/

section Check

variable {cond : Ty} {cases : List (Option Match)}

/-- Where a case does not pass, the switch is reported without looking for duplicates. Kind: L -/
theorem correct_of_fail {qsort : List Match → Option (List Match)}
    (h : checkCases cond cases = some false) : Correct qsort cond cases := by
  refine ⟨none, ?_, fun errors herrors => by cases herrors⟩
  rw [checkSwitchStmt, h]
  rfl

/-- Where all cases pass, correctness is about the errors. Kind: L -/
theorem correct_of_pass {qsort : List Match → Option (List Match)}
    (h : checkCases cond cases = some true) :
    Correct qsort cond cases ↔ ∃ r errors, qsort (matchesOf cases) = some r ∧
      checkDuplicateCaseMatches r = some errors ∧
        (errors ≠ [] ↔ Overlapping (matchesOf cases)) := by
  unfold Correct checkSwitchStmt
  simp only [h, Option.bind_eq_bind, Option.bind_some, if_true]
  constructor
  · rintro ⟨result, hresult, hiff⟩
    obtain ⟨r, hr, hresult⟩ := Option.bind_eq_some_iff.mp hresult
    obtain ⟨errors, herrors, hresult⟩ := Option.bind_eq_some_iff.mp hresult
    exact ⟨r, errors, hr, herrors, hiff errors (Option.some.inj hresult).symm⟩
  · rintro ⟨r, errors, hr, herrors, hiff⟩
    refine ⟨some errors, by rw [hr, Option.bind_some, herrors, Option.bind_some], ?_⟩
    intro errors' herrors'
    rwa [← Option.some.inj herrors']

/-- **An error is reported exactly for cases with a common value**, however they are sorted, exactly
if no assertion fails and the comparison is true to the cases. Kind: P -/
theorem duplicates_correct_iff (cond : Ty) (cases : List (Option Match)) :
    (∀ qsort, Qsort.SortsOrStops compare qsort → Correct qsort cond cases) ↔ Sound cond cases := by
  cases hpass : checkCases cond cases with
  | none =>
      have hnot : ¬ ∀ m ∈ matchesOf cases, m.Checkable cond := by
        rw [← checkCases_isSome, hpass]
        exact Bool.false_ne_true
      refine iff_of_false (fun h => ?_) fun hsound => hnot hsound.checkable
      obtain ⟨result, hresult, -⟩ := h _ (Qsort.sortsOrStops_msort compare)
      rw [checkSwitchStmt, hpass] at hresult
      cases hresult
  | some ok =>
      have hcheck := (checkCases_isSome cond cases).mp (Option.isSome_of_eq_some hpass)
      cases ok with
      | false =>
          refine iff_of_true (fun _ _ => correct_of_fail hpass) ⟨hcheck, ?_, ?_, ?_, ?_⟩ <;>
            (intro h; rw [hpass] at h; cases h)
      | true =>
          have hsorts := @Qsort.forall_sortsOrStops_iff _ (matchesOf cases) compare
            (fun sorted => ∃ r errors, sorted = some r ∧
              checkDuplicateCaseMatches r = some errors ∧
                (errors ≠ [] ↔ Overlapping (matchesOf cases)))
            (fun ⟨_, _, hnone, _⟩ => by cases hnone)
          simp only [correct_of_pass hpass]
          rw [hsorts]
          constructor
          · rintro ⟨hcmp, h⟩
            have hruns : ∀ r, Qsort.Arranged compare (matchesOf cases) r → Proceeds r ∧
                ((¬ r.IsChain fun m n => compare m n ≠ some 0) ↔
                  Overlapping (matchesOf cases)) := by
              intro r hr
              obtain ⟨_, errors, heq, herrors, hiff⟩ := h r hr
              obtain rfl := Option.some.inj heq
              have hproceeds : Proceeds r := by
                by_contra hnot
                cases r with
                | nil => exact hnot trivial
                | cons x rest =>
                    rw [checkDuplicateCaseMatches, checkAfter_stops hnot] at herrors
                    cases herrors
              obtain ⟨errors', herrors', hiff'⟩ :=
                (checkDuplicateCaseMatches_spec (hcmp.perm hr.perm)).mpr hproceeds
              obtain rfl := Option.some.inj (herrors.symm.trans herrors')
              exact ⟨hproceeds, hiff'.symm.trans hiff⟩
            obtain ⟨hfits, hordered⟩ :=
              (arrangements_iff hcmp).mp fun r hr => (hruns r hr).2
            exact ⟨hcheck, fun _ => (comparable_iff hpass).mp hcmp, fun _ => hfits,
              fun _ => hordered, fun _ r hr => (hruns r hr).1⟩
          · intro hsound
            have hcmp := (comparable_iff hpass).mpr (hsound.comparable hpass)
            refine ⟨hcmp, fun r hr => ?_⟩
            obtain ⟨errors, herrors, hiff⟩ :=
              (checkDuplicateCaseMatches_spec (hcmp.perm hr.perm)).mpr
                (hsound.proceeds hpass r hr)
            refine ⟨r, errors, rfl, herrors, hiff.trans ?_⟩
            exact (arrangements_iff hcmp).mpr ⟨hsound.fits hpass, hsound.ordered hpass⟩ r hr

/-- `5` is also in the range from `4`, but the merge sort puts the range from `1` to `2` between the
two; `(5)` fails an assertion when its number is read, and so does a member of an enumeration that
is compared with a number, or with another member after it has been reported. Kind: P -/
theorem missed_between_value_and_range :
    ¬ Correct (MergeSort.msort compare) CInteger.int
      [some (.literal (.integerLit 5)), some (.rangeExpr (.integerLit 1) (.integerLit 2)),
        some (.rangeExpr (.integerLit 4) (.integerLit 6))] ∧
    ¬ Correct (MergeSort.msort compare) CInteger.int
      [some (.literal (.groupExpr (.integerLit 5) 0))] ∧
    ¬ Correct (MergeSort.msort compare) CInteger.int
      [some (.literal (.enumLit ⟨0, false⟩ 1 0)), some (.literal (.integerLit 5))] ∧
    ¬ Correct (MergeSort.msort compare) CInteger.int
      [some (.literal (.enumLit ⟨0, false⟩ 1 0)), some (.literal (.enumLit ⟨0, false⟩ 1 0)),
        some (.literal (.enumLit ⟨0, false⟩ 2 0))] := by
  refine ⟨?_, ?_, ?_, ?_⟩
  · rw [correct_of_pass (by decide)]
    rintro ⟨r, errors, hr, herrors, hiff⟩
    obtain rfl := Option.some.inj hr
    obtain rfl := Option.some.inj herrors
    exact absurd hiff (by decide)
  · rintro ⟨result, hresult, -⟩
    cases hresult
  · rintro ⟨result, hresult, -⟩
    cases hresult
  · rintro ⟨result, hresult, -⟩
    cases hresult

end Check

end CxyCompiler.Middle.SwitchCases
