import Mathlib.Algebra.Order.Ring.Int
import Mathlib.Data.List.Basic

/-!
# What a loop at compile time goes over

The evaluator goes over members, types, the elements of an expression, the characters of a string
and the numbers of a range with one iterator, which can also be asked for its count and for the
value at an index.

* `newComptimeIterator`, `comptimeIteratorHasNext`, `comptimeIteratorNext`, `comptimeIteratorCount`,
  `comptimeIteratorAt`: the iterator.
* `iterate`: the loop.
* `Correct`: the values are those at the indices, and those of a range make a progression.
* **`correct_iff`**: which ranges and indices that holds for; it holds for everything else but a
  member without a declaration.

Source: `frontend/iterable.c`.
-/

namespace CxyCompiler.Frontend.Iterable

/-! ## Sources -/

/-- The conversion to `i64`, where arithmetic wraps around. -/
def i64 (x : ℤ) : ℤ := x.bmod 18446744073709551616

/-- The conversion to `u64`. -/
def u64 (x : ℤ) : ℕ := (x % 18446744073709551616).toNat

/-- The tag of a type, with its members; a member of a struct or class has its declaration.
Source: `types.h` `Type`. -/
inductive TypeBody (ν τ : Type)
  | struct (members : List (Option ν))
  | «class» (members : List (Option ν))
  | union (members : List τ)
  | tuple (members : List τ)
  | other

/-- The node of a `comptimeOnly` node, with the nodes that an iterator may take from it. `other` has
the node itself and those behind it. Source: `ast.h` `AstNode`. -/
inductive Decl (ν : Type)
  | structDecl (members : List ν)
  | classDecl (members : List ν)
  | unionDecl (members : List ν)
  | enumDecl (options : List ν)
  | tupleType (elements : List ν)
  | funcDecl (params : List ν)
  | funcType (params : List ν)
  | closureExpr (params : List ν)
  | funcParamDecl (variadic : Bool) (elements : Option (List ν))
  | other (nodes : List ν)

/-- The bounds and the step are integer literals. Source: `ast.h` `rangeExpr`. -/
structure Range where
  start : Option ℤ
  stop : Option ℤ
  step : Option ℤ
  down : Bool

/-- Source: `ast.h` `AstNode`. -/
inductive Source (ν τ : Type)
  | comptimeOnly (iterable : Bool) (node : Option (Decl ν)) (type : Option (TypeBody ν τ))
  | arrayExpr (elements : List ν)
  | tupleExpr (elements : List ν)
  | rangeExpr (range : Range)
  | stringLit (value : List UInt8)
  | funcParamDecl (variadic : Bool) (nodes : List ν)
  | other

/-! ## The iterator -/

/-- The four states that are a list of nodes. -/
inductive ListKind
  | members
  | arrayExpr
  | tupleExpr
  | varArgs

/-- The two states that are an index into the members of a type. -/
inductive TypeKind
  | tupleType
  | unionType

/-- Source: `iterable.h` `ComptimeIterator`. -/
inductive ComptimeIterator (ν τ : Type)
  | members (container : List (Option ν)) (index : ℕ)
  | list (kind : ListKind) (current : List ν)
  | types (kind : TypeKind) (members : List τ) (index : ℕ)
  | stringLit (str : List UInt8) (index length : ℕ)
  | range (current stop step : ℤ)
  | invalid

/-- The nodes that an iterator gives. Source: `iterable.c` `comptimeIteratorNext`. -/
inductive Value (ν τ : Type)
  | node (node : ν)
  | typeReference (type : τ)
  | charLiteral (c : UInt8)
  | integerLiteral (value : ℤ)
  deriving DecidableEq

section

variable {ν τ : Type}

/-- Source: `iterable.c` `getRangeStart`. -/
def getRangeStart (range : Range) : ℤ :=
  match range.start with
  | some value => i64 value
  | none => 0

/-- Source: `iterable.c` `getRangeEnd`. -/
def getRangeEnd (range : Range) : ℤ :=
  match range.stop with
  | some value => i64 value
  | none => 0

/-- The nodes that are taken from a declaration; none is no list. -/
def Decl.nodes : Decl ν → List ν
  | .structDecl members | .classDecl members | .unionDecl members => members
  | .enumDecl options => options
  | .tupleType elements => elements
  | .funcDecl params | .funcType params | .closureExpr params => params
  | .funcParamDecl variadic elements => if variadic then elements.getD [] else []
  | .other nodes => nodes

/-- The type is preferred to the nodes. -/
def Decl.iterator : Decl ν → Option (TypeBody ν τ) → Option (ComptimeIterator ν τ)
  | .structDecl _, some (.struct members) | .structDecl _, some (.class members) =>
    some (.members members 0)
  | .classDecl _, some (.struct members) | .classDecl _, some (.class members) =>
    some (.members members 0)
  | .unionDecl _, some (.union members) => some (.types .unionType members 0)
  | .tupleType _, some (.tuple members) => some (.types .tupleType members 0)
  | node, _ => if node.nodes = [] then none else some (.list .members node.nodes)

/-- The iterator for a type without nodes. -/
def TypeBody.iterator : TypeBody ν τ → ComptimeIterator ν τ
  | .tuple members => .types .tupleType members 0
  | .union members => .types .unionType members 0
  | _ => .invalid

/-- Source: `iterable.c` `newComptimeIterator`. -/
def newComptimeIterator : Source ν τ → ComptimeIterator ν τ
  | .comptimeOnly true node type =>
      match node.bind fun node => node.iterator type with
      | some it => it
      | none => (type.map TypeBody.iterator).getD .invalid
  | .comptimeOnly false _ _ => .invalid
  | .arrayExpr elements => .list .arrayExpr elements
  | .tupleExpr elements => .list .tupleExpr elements
  | .rangeExpr range => .range (getRangeStart range) (getRangeEnd range)
      (if range.down then -1 else 1)
  | .stringLit value => .stringLit value 0 (value.takeWhile (· ≠ 0)).length
  | .funcParamDecl variadic nodes => if variadic then .list .varArgs nodes else .invalid
  | .other => .invalid

/-- Source: `iterable.c` `comptimeIteratorHasNext`. -/
def comptimeIteratorHasNext : ComptimeIterator ν τ → Bool
  | .members container index => index < container.length
  | .list _ current => !current.isEmpty
  | .types _ members index => index < members.length
  | .stringLit _ index length => index < length
  | .range current stop step => if step > 0 then current < stop else current > stop
  | .invalid => false

/-- The value and the iterator behind it. Source: `iterable.c` `comptimeIteratorNext`. -/
def comptimeIteratorNext : ComptimeIterator ν τ → Option (Value ν τ) × ComptimeIterator ν τ
  | .members container index =>
      if h : index < container.length then
        (container[index].map .node, .members container (index + 1))
      else (none, .members container index)
  | .list kind [] => (none, .list kind [])
  | .list kind (node :: rest) => (some (.node node), .list kind rest)
  | .types kind members index =>
      if h : index < members.length then
        (some (.typeReference members[index]), .types kind members (index + 1))
      else (none, .types kind members index)
  | .stringLit str index length =>
      if index < length then ((str[index]?).map .charLiteral, .stringLit str (index + 1) length)
      else (none, .stringLit str index length)
  | .range current stop step =>
      if comptimeIteratorHasNext (.range current stop step : ComptimeIterator ν τ) then
        (some (.integerLiteral current), .range (i64 (current + step)) stop step)
      else (none, .range current stop step)
  | .invalid => (none, .invalid)

/-- Source: `iterable.c` `comptimeIteratorCount`. -/
def comptimeIteratorCount : ComptimeIterator ν τ → ℕ
  | .members container _ => container.length
  | .list _ current => current.length
  | .types _ members _ => members.length
  | .stringLit _ _ length => length
  | .range start stop step =>
      if step = 0 then 0
      else if step > 0 then
        if start ≥ stop then 0
        else u64 ((i64 (i64 (i64 (stop - start) + step) - 1)).tdiv step)
      else if start ≤ stop then 0
      else u64 ((i64 (i64 (i64 (start - stop) - step) - 1)).tdiv (-step))
  | .invalid => 0

/-- Source: `iterable.c` `comptimeIteratorAt`. -/
def comptimeIteratorAt : ComptimeIterator ν τ → ℕ → Option (Value ν τ)
  | .members container _, index => (container[index]?).bind fun decl => decl.map .node
  | .list _ current, index => (current[index]?).map .node
  | .types _ members _, index => (members[index]?).map .typeReference
  | .stringLit str _ length, index => if index ≥ length then none
      else (str[index]?).map .charLiteral
  | .range current stop step, index =>
      let value := i64 (current + i64 (i64 index * step))
      if step > 0 then if value ≥ stop then none else some (.integerLiteral value)
      else if value ≤ stop then none else some (.integerLiteral value)
  | .invalid, _ => none

/-- The loop. Source: `eval/for.c` `evalForStmtWithIterator`. -/
def iterate : ℕ → ComptimeIterator ν τ → Option (List (Option (Value ν τ)))
  | 0, _ => none
  | rounds + 1, it =>
      if comptimeIteratorHasNext it then
        (iterate rounds (comptimeIteratorNext it).2).map ((comptimeIteratorNext it).1 :: ·)
      else some []

end

/-! ## The loop -/

section

variable {ν τ : Type}

/-- A loop over as many states as it takes to come to one without a next value. Kind: L -/
theorem iterate_counted {f : ℕ → ComptimeIterator ν τ} {v : ℕ → Option (Value ν τ)} {n : ℕ}
    (hmore : ∀ k < n, comptimeIteratorHasNext (f k) = true ∧
      comptimeIteratorNext (f k) = (v k, f (k + 1)))
    (hend : comptimeIteratorHasNext (f n) = false) :
    ∀ left k, k + left = n → iterate (left + 1) (f k) = some ((List.range' k left).map v)
  | 0, k, hk => by
      obtain rfl : k = n := hk
      rw [iterate, hend, if_neg Bool.false_ne_true]
      rfl
  | left + 1, k, hk => by
      obtain ⟨hnext, hvalue⟩ := hmore k (by omega)
      rw [iterate, hnext, if_pos rfl, hvalue, iterate_counted hmore hend left (k + 1) (by omega)]
      rfl

/-- A loop through known states yields their values. Kind: L -/
theorem loop_of_states {f : ℕ → ComptimeIterator ν τ} {v : ℕ → Option (Value ν τ)} {n : ℕ}
    (hmore : ∀ k < n, comptimeIteratorHasNext (f k) = true ∧
      comptimeIteratorNext (f k) = (v k, f (k + 1)))
    (hend : comptimeIteratorHasNext (f n) = false) :
    ∃ rounds, iterate rounds (f 0) = some ((List.range n).map v) := by
  refine ⟨n + 1, ?_⟩
  rw [iterate_counted hmore hend n 0 (Nat.zero_add n), List.range_eq_range']

/-- The loop goes over what the iterator has at its indices. -/
def Listed (it : ComptimeIterator ν τ) : Prop :=
  ∃ rounds, iterate rounds it = some
    ((List.range (comptimeIteratorCount it)).map (comptimeIteratorAt it))

/-- Members are listed alike by all operations. Kind: L -/
theorem members_listed (container : List (Option ν)) :
    Listed (.members container 0 : ComptimeIterator ν τ) := by
  refine loop_of_states (f := fun k => .members container k) (fun k hk => ⟨decide_eq_true hk, ?_⟩)
    (decide_eq_false (Nat.lt_irrefl _))
  have hk' : k < container.length := hk
  simp only [comptimeIteratorNext, dif_pos hk', comptimeIteratorAt, List.getElem?_eq_getElem hk',
    Option.bind_some]

/-- Nodes are listed alike by all operations. Kind: L -/
theorem list_listed (kind : ListKind) (nodes : List ν) : Listed
    (.list kind nodes : ComptimeIterator ν τ) := by
  have hdrop := loop_of_states (f := fun k => (.list kind (nodes.drop k) : ComptimeIterator ν τ))
    (v := comptimeIteratorAt (.list kind nodes)) (n := nodes.length) (fun k hk => ?_) ?_
  · rwa [List.drop_zero] at hdrop
  · rw [List.drop_eq_getElem_cons hk]
    simp only [comptimeIteratorHasNext, comptimeIteratorNext, comptimeIteratorAt,
      List.getElem?_eq_getElem hk]
    exact ⟨rfl, rfl⟩
  · simp [comptimeIteratorHasNext]

/-- Types are listed alike by all operations. Kind: L -/
theorem types_listed (kind : TypeKind) (members : List τ) :
    Listed (.types kind members 0 : ComptimeIterator ν τ) := by
  refine loop_of_states (f := fun k => .types kind members k) (fun k hk => ⟨decide_eq_true hk, ?_⟩)
    (decide_eq_false (Nat.lt_irrefl _))
  have hk' : k < members.length := hk
  simp only [comptimeIteratorNext, dif_pos hk', comptimeIteratorAt, List.getElem?_eq_getElem hk',
    Option.map_some]

/-- Characters are listed alike by all operations. Kind: L -/
theorem stringLit_listed (str : List UInt8) (length : ℕ) :
    Listed (.stringLit str 0 length : ComptimeIterator ν τ) := by
  refine loop_of_states (f := fun k => .stringLit str k length) (fun k hk =>
    ⟨decide_eq_true hk, ?_⟩)
    (decide_eq_false (Nat.lt_irrefl _))
  have hk' : k < length := hk
  simp only [comptimeIteratorNext, if_pos hk', comptimeIteratorAt, if_neg (Nat.not_le.mpr hk')]

/-! ## Ranges -/

/-- A number of 64 bits with a sign. -/
def Fits (x : ℤ) : Prop := -9223372036854775808 ≤ x ∧ x < 9223372036854775808

theorem i64_fits (x : ℤ) : Fits (i64 x) := by
  unfold Fits i64 Int.bmod
  dsimp only
  split_ifs <;> omega

theorem i64_of_fits {x : ℤ} (h : Fits x) : i64 x = x := by
  unfold Fits at h
  unfold i64 Int.bmod
  dsimp only
  split_ifs <;> omega

/-- Additions wrap around as one. Kind: L -/
theorem i64_add_i64 (x y : ℤ) : i64 (x + i64 y) = i64 (x + y) := by
  unfold i64
  rw [Int.add_bmod_bmod]

/-- The direction of an iterator. -/
def Range.direction (range : Range) : ℤ := if range.down then -1 else 1

theorem Range.direction_cases (range : Range) : range.direction = 1 ∨ range.direction = -1 := by
  unfold Range.direction
  split_ifs
  exacts [.inr rfl, .inl rfl]

/-- How many numbers an iterator goes over. -/
def span (d lo hi : ℤ) : ℕ := (d * (hi - lo)).toNat

/-- A range goes on while numbers are left. Kind: L -/
theorem range_hasNext {d lo hi : ℤ} (hd : d = 1 ∨ d = -1) :
    comptimeIteratorHasNext (.range lo hi d : ComptimeIterator ν τ) = decide
      (0 < span d lo hi) := by
  unfold comptimeIteratorHasNext span
  obtain rfl | rfl := hd <;> simp only [] <;> grind

/-- The count of a range is that of its numbers. Kind: L -/
theorem range_count {d lo hi : ℤ} (hd : d = 1 ∨ d = -1) (hlo : Fits lo) (hhi : Fits hi) :
    comptimeIteratorCount (.range lo hi d : ComptimeIterator ν τ) = span d lo hi := by
  unfold Fits at hlo hhi
  unfold comptimeIteratorCount span u64 i64 Int.bmod
  obtain rfl | rfl := hd
  · simp only [Int.tdiv_one]
    grind
  · simp only [Int.neg_neg, Int.tdiv_one]
    grind

/-- A number from which a progression goes on. -/
def Ahead (s x hi : ℤ) : Prop := if s < 0 then hi < x else x < hi

instance (s x hi : ℤ) : Decidable (Ahead s x hi) := by
  unfold Ahead
  infer_instance

/-- A number of a range by its place. Kind: L -/
theorem range_at {d lo hi : ℤ} (hd : d = 1 ∨ d = -1) (i : ℕ) :
    comptimeIteratorAt (.range lo hi d : ComptimeIterator ν τ) i =
      if Ahead d (i64 (lo + d * i)) hi then some (.integerLiteral (i64 (lo + d * i)))
        else none := by
  have hmul : i64 (i64 i * d) = i64 (d * i) := by
    unfold i64
    rw [Int.bmod_mul_bmod, mul_comm]
  unfold comptimeIteratorAt Ahead
  dsimp only
  rw [hmul, i64_add_i64]
  obtain rfl | rfl := hd <;> grind

/-- What is ahead of the end is reached without an overflow. Kind: L -/
theorem range_ahead {d lo hi : ℤ} (hd : d = 1 ∨ d = -1) (hlo : Fits lo) (hhi : Fits hi) {k : ℕ}
    (hk : k < span d lo hi) : Ahead d (lo + d * k) hi ∧ i64 (lo + d * k) = lo + d * k ∧
      i64 (lo + d * k + d) = lo + d * (k + 1 : ℕ) := by
  have hfits : Fits (lo + d * k) ∧ Fits (lo + d * k + d) ∧ Ahead d (lo + d * k) hi := by
    unfold span at hk
    unfold Fits Ahead at *
    obtain rfl | rfl := hd <;> grind
  refine ⟨hfits.2.2, i64_of_fits hfits.1, ?_⟩
  rw [i64_of_fits hfits.2.1, Int.natCast_add, Int.natCast_one, mul_add, mul_one, add_assoc]

/-- By their places the numbers of a range come in order. Kind: L -/
theorem range_values {d lo hi : ℤ} (hd : d = 1 ∨ d = -1) (hlo : Fits lo) (hhi : Fits hi) :
    (List.range (span d lo hi)).map (comptimeIteratorAt (.range lo hi d : ComptimeIterator ν τ)) =
      (List.range (span d lo hi)).map fun k => some (.integerLiteral (lo + d * k)) := by
  refine List.map_congr_left fun k hk => ?_
  obtain ⟨hahead, hfits, -⟩ := range_ahead hd hlo hhi (List.mem_range.mp hk)
  rw [range_at hd, hfits, if_pos hahead]

/-- The numbers of a range are listed alike by all operations. Kind: L -/
theorem range_listed {d lo hi : ℤ} (hd : d = 1 ∨ d = -1) (hlo : Fits lo) (hhi : Fits hi) :
    Listed (.range lo hi d : ComptimeIterator ν τ) := by
  have hloop := loop_of_states (f := fun k => (.range (lo + d * k) hi d : ComptimeIterator ν τ))
    (v := fun k => some (.integerLiteral (lo + d * k))) (n := span d lo hi) (fun k hk => ?_) ?_
  · rw [Int.natCast_zero, mul_zero, add_zero] at hloop
    unfold Listed
    rw [range_count hd hlo hhi, range_values hd hlo hhi]
    exact hloop
  · obtain ⟨hahead, -, hnext⟩ := range_ahead hd hlo hhi hk
    have hmore : comptimeIteratorHasNext
      (.range (lo + d * k) hi d : ComptimeIterator ν τ) = true := by
      rw [range_hasNext hd, decide_eq_true_eq]
      unfold span Ahead at *
      obtain rfl | rfl := hd <;> grind
    refine ⟨hmore, ?_⟩
    rw [comptimeIteratorNext, if_pos hmore, hnext]
  · rw [range_hasNext hd, decide_eq_false_iff_not]
    unfold span
    obtain rfl | rfl := hd <;> grind

/-! ## What is asked of an iterator -/

def Range.lo (range : Range) : ℤ := range.start.getD 0

def Range.hi (range : Range) : ℤ := range.stop.getD 0

/-- The step that a range has, one up or down if none was given. -/
def Range.by (range : Range) : ℤ := range.step.getD range.direction

/-- The numbers from `lo` on with a step, up to the last one that is ahead of `hi`. -/
def Progression (lo hi s : ℤ) (ns : List ℤ) : Prop :=
  (∀ k : ℕ, ∀ n, ns[k]? = some n → n = lo + s * k ∧ Ahead s n hi) ∧
    ¬ Ahead s (lo + s * ns.length) hi

/-- A loop ends, its values are those at the indices below the count, there is a value at an index
exactly if it is below the count, and the values for a range are the numbers from its start on with
its step. -/
def Correct (source : Source ν τ) (index : UInt64) : Prop :=
  ∃ values rounds, iterate rounds (newComptimeIterator source) = some values ∧
    values = (List.range (comptimeIteratorCount (newComptimeIterator source))).map
      (comptimeIteratorAt (newComptimeIterator source)) ∧
    (comptimeIteratorAt (newComptimeIterator source) index.toNat = none ↔
      comptimeIteratorCount (newComptimeIterator source) ≤ index.toNat) ∧
    ∀ range, source = .rangeExpr range → ∃ ns : List ℤ,
      values = ns.map (fun n => some (.integerLiteral n)) ∧
      Progression range.lo range.hi range.by ns

/-- A range has no numbers, also for the iterator; or its bounds are numbers of 64 bits and its step
is the direction, or the iterator and it have only the first number. -/
def Range.Plain (range : Range) : Prop :=
  (¬ Ahead range.by range.lo range.hi ∧ ¬ Ahead range.direction (i64 range.lo) (i64 range.hi)) ∨
    Fits range.lo ∧ Ahead range.by range.lo range.hi ∧
      (range.by = range.direction ∧ Fits range.hi ∨
        ¬ Ahead range.by (range.lo + range.by) range.hi ∧ i64 range.hi = range.lo + range.direction)

/-- The number at an index is one of 64 bits, or what it wraps around to is not ahead of the end. -/
def Range.Holds (range : Range) (index : ℕ) : Prop :=
  if range.down then -9223372036854775808 ≤ i64 range.lo - index ∨
    i64 range.lo - index + 18446744073709551616 ≤ i64 range.hi
  else i64 range.lo + index < 9223372036854775808 ∨
    i64 range.hi ≤ i64 range.lo + index - 18446744073709551616

/-- The members of the type of a struct or class. -/
def Source.container : Source ν τ → List (Option ν)
  | .comptimeOnly true (some (.structDecl _)) (some (.struct members)) => members
  | .comptimeOnly true (some (.structDecl _)) (some (.class members)) => members
  | .comptimeOnly true (some (.classDecl _)) (some (.struct members)) => members
  | .comptimeOnly true (some (.classDecl _)) (some (.class members)) => members
  | _ => []

def Source.Sound (source : Source ν τ) (index : ℕ) : Prop :=
  source.container[index]? ≠ some none ∧ ∀ range, source = .rangeExpr range →
    range.Plain ∧ range.Holds index

theorem getRangeStart_eq (range : Range) : getRangeStart range = i64 range.lo := by
  unfold getRangeStart Range.lo
  cases range.start <;> rfl

theorem getRangeEnd_eq (range : Range) : getRangeEnd range = i64 range.hi := by
  unfold getRangeEnd Range.hi
  cases range.stop <;> rfl

theorem newComptimeIterator_range (range : Range) :
    newComptimeIterator (.rangeExpr range : Source ν τ) =
      .range (i64 range.lo) (i64 range.hi) range.direction := by
  rw [newComptimeIterator, getRangeStart_eq, getRangeEnd_eq]
  rfl

/-! ## Everything but ranges -/

/-- An iterator that is not over a range has been made right. -/
def Made (container : List (Option ν)) (it : ComptimeIterator ν τ) : Prop :=
  Listed it ∧ ∀ i, (comptimeIteratorAt it i = none ↔ comptimeIteratorCount it ≤ i) ↔
    container[i]? ≠ some none

theorem members_made (container : List (Option ν)) : Made container
    (.members container 0 : ComptimeIterator ν τ) := by
  refine ⟨members_listed container, fun i => ?_⟩
  simp only [comptimeIteratorAt, comptimeIteratorCount]
  by_cases hi : i < container.length
  · rw [List.getElem?_eq_getElem hi, Option.bind_some, iff_false_right (Nat.not_le.mpr hi)]
    cases hdecl : container[i] with
    | none => simp
    | some decl => simp
  · rw [List.getElem?_eq_none (Nat.not_lt.mp hi)]
    simp only [Option.bind_none, true_iff, ne_eq, reduceCtorEq, not_false_eq_true, iff_true]
    exact Nat.not_lt.mp hi

theorem list_made (kind : ListKind) (nodes : List ν) : Made []
    (.list kind nodes : ComptimeIterator ν τ) := by
  refine ⟨list_listed kind nodes, fun i => ?_⟩
  simp [comptimeIteratorAt, comptimeIteratorCount]

theorem types_made (kind : TypeKind) (members : List τ) :
    Made ([] : List (Option ν)) (.types kind members 0 : ComptimeIterator ν τ) := by
  refine ⟨types_listed kind members, fun i => ?_⟩
  simp [comptimeIteratorAt, comptimeIteratorCount]

theorem invalid_made : Made [] (.invalid : ComptimeIterator ν τ) :=
  ⟨⟨1, rfl⟩, fun i => by simp [comptimeIteratorAt, comptimeIteratorCount]⟩

theorem stringLit_made (value : List UInt8) :
    Made [] (.stringLit value 0 (value.takeWhile (· ≠ 0)).length : ComptimeIterator ν τ) := by
  refine ⟨stringLit_listed _ _, fun i => ?_⟩
  have hle : (value.takeWhile (· ≠ 0)).length ≤ value.length := (List.takeWhile_prefix _).length_le
  simp only [comptimeIteratorAt, comptimeIteratorCount, List.getElem?_nil, ne_eq, reduceCtorEq,
    not_false_eq_true, iff_true]
  by_cases hi : i ≥ (value.takeWhile (· ≠ 0)).length
  · rw [if_pos hi]
    exact iff_of_true rfl hi
  · have hi' : i < value.length := by omega
    rw [if_neg hi, List.getElem?_eq_getElem hi']
    exact iff_of_false (by simp) hi

theorem typeIterator_made (type : Option (TypeBody ν τ)) :
    Made [] ((type.map TypeBody.iterator).getD .invalid) := by
  rcases type with _ | _ | _ | _ | _ | _
  all_goals first
    | exact invalid_made
    | exact types_made _ _

/-- A declaration for compile time is made by its kind. Kind: L -/
theorem comptimeOnly_made (node : Option (Decl ν)) (type : Option (TypeBody ν τ)) :
    Made (Source.comptimeOnly true node type).container
      (newComptimeIterator (.comptimeOnly true node type)) := by
  have hlist : ∀ node : Decl ν, node.iterator type = (if node.nodes = [] then none else
      some (.list .members node.nodes)) →
        (Source.comptimeOnly true (some node) type).container = [] →
      Made (Source.comptimeOnly true (some node) type).container
        (newComptimeIterator (.comptimeOnly true (some node) type)) := by
    intro node hiterator hcontainer
    rw [hcontainer, newComptimeIterator, Option.bind_some, hiterator]
    by_cases hnil : node.nodes = []
    · rw [if_pos hnil]
      exact typeIterator_made type
    · rw [if_neg hnil]
      exact list_made .members node.nodes
  cases node with
  | none => exact typeIterator_made type
  | some node =>
      cases node <;> rcases type with _ | _ | _ | _ | _ | _
      all_goals first
        | exact members_made _
        | exact types_made _ _
        | exact hlist _ rfl rfl

/-- **Every iterator but that of a range is made by its source.** Kind: L -/
theorem newComptimeIterator_made (source : Source ν τ)
    (hrange : ∀ range, source ≠ .rangeExpr range) :
    Made source.container (newComptimeIterator source) := by
  cases source with
  | comptimeOnly iterable node type =>
      cases iterable with
      | true => exact comptimeOnly_made node type
      | false => exact invalid_made
  | arrayExpr elements => exact list_made .arrayExpr elements
  | tupleExpr elements => exact list_made .tupleExpr elements
  | rangeExpr range => exact absurd rfl (hrange range)
  | stringLit value => exact stringLit_made value
  | funcParamDecl variadic nodes =>
      cases variadic with
      | true => exact list_made .varArgs nodes
      | false => exact invalid_made
  | other => exact invalid_made

/-! ## Ranges that are right -/

theorem span_pos_iff {d lo hi : ℤ} (hd : d = 1 ∨ d = -1) : 0 < span d lo hi ↔ Ahead d lo hi := by
  unfold span Ahead
  obtain rfl | rfl := hd <;> grind

/-- The numbers of a range end at its bound. Kind: L -/
theorem add_span {d lo hi : ℤ} (hd : d = 1 ∨ d = -1)
    (h : 0 < span d lo hi) : lo + d * span d lo hi = hi := by
  unfold span at *
  obtain rfl | rfl := hd <;> grind

/-- The numbers that an iterator goes over. -/
def numbers (d lo hi : ℤ) : List ℤ := (List.range (span d lo hi)).map fun k : ℕ => lo + d * (k : ℤ)

theorem numbers_length (d lo hi : ℤ) : (numbers d lo hi).length = span d lo hi := by
  rw [numbers, List.length_map, List.length_range]

/-- Which number stands at a place. Kind: L -/
theorem numbers_getElem? {d lo hi : ℤ} {k : ℕ} {n : ℤ} :
    (numbers d lo hi)[k]? = some n ↔ k < span d lo hi ∧ n = lo + d * k := by
  unfold numbers
  by_cases hk : k < span d lo hi
  · simp [hk, eq_comm]
  · simp [hk]

/-- **What the iterator goes over is a progression** only where both are empty, or start alike and
have one number or go on alike. Kind: P -/
theorem progression_iff {d lo hi s lo' hi' : ℤ} (hd : d = 1 ∨ d = -1) :
    Progression lo hi s (numbers d lo' hi') ↔ (¬ Ahead s lo hi ∧ ¬ Ahead d lo' hi') ∨
      (lo' = lo ∧ Ahead s lo hi ∧ (s = d ∧ hi' = hi ∨ ¬ Ahead s (lo + s) hi ∧ hi' = lo + d)) := by
  constructor
  · rintro ⟨hnumbers, hend⟩
    rw [numbers_length] at hend
    have hat : ∀ k : ℕ, k < span d lo' hi' → lo' + d * k = lo + s * k ∧ Ahead s (lo' + d * k) hi :=
      fun k hk => hnumbers k _ (numbers_getElem?.mpr ⟨hk, rfl⟩)
    by_cases hpos : 0 < span d lo' hi'
    · obtain ⟨hlo, hahead⟩ := hat 0 hpos
      rw [Int.natCast_zero, mul_zero, mul_zero, add_zero, add_zero] at hlo
      subst hlo
      rw [Int.natCast_zero, mul_zero, add_zero] at hahead
      have hlast := add_span hd hpos
      refine .inr ⟨rfl, hahead, ?_⟩
      by_cases hone : span d lo' hi' = 1
      · rw [hone, Int.natCast_one, mul_one] at hend hlast
        exact .inr ⟨hend, hlast.symm⟩
      · -- from two numbers on, the steps are the same
        obtain ⟨hsecond, -⟩ := hat 1 (by omega)
        have hs : s = d := by
          rw [Int.natCast_one, mul_one, mul_one] at hsecond
          omega
        subst hs
        obtain ⟨-, hbefore⟩ := hat (span s lo' hi' - 1) (by omega)
        rw [hlast] at hend
        have hcast : ((span s lo' hi' - 1 : ℕ) : ℤ) = span s lo' hi' - 1 := by omega
        rw [hcast, mul_sub, mul_one, ← add_sub_assoc, hlast] at hbefore
        refine .inl ⟨rfl, ?_⟩
        unfold Ahead at hend hbefore
        obtain rfl | rfl := hd <;> grind
    · have hzero : span d lo' hi' = 0 := by omega
      rw [hzero, Int.natCast_zero, mul_zero, add_zero] at hend
      exact .inl ⟨hend, fun hahead => hpos ((span_pos_iff hd).mpr hahead)⟩
  · rintro (⟨hno, hno'⟩ | ⟨rfl, hahead, ⟨rfl, rfl⟩ | ⟨hend, rfl⟩⟩)
    · have hzero : span d lo' hi' = 0 := by
        have := (span_pos_iff hd).not.mpr hno'
        omega
      refine ⟨fun k n hn => ?_, ?_⟩
      · have := (numbers_getElem?.mp hn).1
        omega
      · rwa [numbers_length, hzero, Int.natCast_zero, mul_zero, add_zero]
    · have hpos := (span_pos_iff hd).mpr hahead
      refine ⟨fun k n hn => ?_, ?_⟩
      · obtain ⟨hk, rfl⟩ := numbers_getElem?.mp hn
        refine ⟨rfl, ?_⟩
        unfold span Ahead at *
        obtain rfl | rfl := hd <;> grind
      · rw [numbers_length, add_span hd hpos]
        unfold Ahead
        split_ifs <;> exact lt_irrefl _
    · have hone : span d lo' (lo' + d) = 1 := by
        unfold span
        obtain rfl | rfl := hd <;> grind
      refine ⟨fun k n hn => ?_, ?_⟩
      · obtain ⟨hk, rfl⟩ := numbers_getElem?.mp hn
        obtain rfl : k = 0 := by omega
        rw [Int.natCast_zero, mul_zero, mul_zero, add_zero]
        exact ⟨rfl, hahead⟩
      · rwa [numbers_length, hone, Int.natCast_one, mul_one]

theorem i64_eq_iff {x : ℤ} : i64 x = x ↔ Fits x := ⟨fun h => h ▸ i64_fits x, i64_of_fits⟩

/-- The numbers are those of the range if and only if it is plain. Kind: L -/
theorem plain_iff (range : Range) : Progression range.lo range.hi range.by
    (numbers range.direction (i64 range.lo) (i64 range.hi)) ↔ range.Plain := by
  rw [progression_iff range.direction_cases, i64_eq_iff, i64_eq_iff]
  rfl

/-- A value at an index behind the count is one to which the addition wraps around. Kind: L -/
theorem range_holds (range : Range) {index : ℕ} (hindex : index < 18446744073709551616) :
    (comptimeIteratorAt (.range (i64 range.lo) (i64 range.hi) range.direction :
      ComptimeIterator ν τ) index = none ↔
      span range.direction (i64 range.lo) (i64 range.hi) ≤ index) ↔ range.Holds index := by
  rw [range_at range.direction_cases, ite_eq_right_iff]
  have hlo := i64_fits range.lo
  have hhi := i64_fits range.hi
  unfold Range.Holds
  generalize i64 range.lo = lo at *
  generalize i64 range.hi = hi at *
  simp only [reduceCtorEq, imp_false]
  unfold Fits at hlo hhi
  unfold Ahead span i64 Int.bmod Range.direction
  cases range.down with
  | false =>
      simp only [Bool.false_eq_true, if_false, one_mul]
      grind
  | true =>
      simp only [if_true, Int.neg_one_mul]
      grind

/-- **Iteration at compile time is right exactly if** a member that is asked for has a declaration,
and a range is plain and its index does not wrap around to a number of it. Kind: P -/
theorem correct_iff (source : Source ν τ) (index : UInt64) :
    Correct source index ↔ source.Sound index.toNat := by
  by_cases hsource : ∃ range, source = .rangeExpr range
  · obtain ⟨range, rfl⟩ := hsource
    have hd := range.direction_cases
    have hlo := i64_fits range.lo
    have hhi := i64_fits range.hi
    obtain ⟨rounds, hrounds⟩ := range_listed (ν := ν) (τ := τ) hd hlo hhi
    have hvalues : (List.range (span range.direction (i64 range.lo) (i64 range.hi))).map
        (comptimeIteratorAt (.range (i64 range.lo) (i64 range.hi) range.direction :
          ComptimeIterator ν τ)) =
        (numbers range.direction (i64 range.lo) (i64 range.hi)).map fun n =>
          some (.integerLiteral n) := by
      rw [range_values hd hlo hhi, numbers, List.map_map]
      rfl
    unfold Correct Source.Sound
    rw [newComptimeIterator_range, range_count hd hlo hhi,
      range_holds range index.toNat_lt, hvalues]
    rw [range_count hd hlo hhi, hvalues] at hrounds
    constructor
    · rintro ⟨values, -, -, rfl, hat, hns⟩
      obtain ⟨ns, hns, hprogression⟩ := hns range rfl
      have hinjective : Function.Injective fun n : ℤ =>
        (some (.integerLiteral n) : Option (Value ν τ)) :=
        fun m n h => Value.integerLiteral.inj (Option.some.inj h)
      obtain rfl := List.map_injective_iff.mpr hinjective hns
      refine ⟨by simp [Source.container], ?_⟩
      rintro _ ⟨⟩
      exact ⟨(plain_iff range).mp hprogression, hat⟩
    · rintro ⟨-, hrange⟩
      obtain ⟨hplain, hat⟩ := hrange range rfl
      refine ⟨_, rounds, hrounds, rfl, hat, ?_⟩
      rintro _ ⟨⟩
      exact ⟨_, rfl, (plain_iff range).mpr hplain⟩
  · have hrange : ∀ range, source ≠ .rangeExpr range := fun range h => hsource ⟨range, h⟩
    obtain ⟨⟨rounds, hrounds⟩, hat⟩ := newComptimeIterator_made source hrange
    constructor
    · rintro ⟨-, -, -, -, hcount, -⟩
      exact ⟨(hat index.toNat).mp hcount, fun range h => absurd h (hrange range)⟩
    · rintro ⟨hmember, -⟩
      exact ⟨_, rounds, hrounds, rfl, (hat index.toNat).mpr hmember, fun range h =>
        absurd h (hrange range)⟩

/-- The bounds of `18446744073709551616..18446744073709551618` are cut, and the first number is 0.
Kind: P -/
theorem bounds_cut :
    ¬ Correct (.rangeExpr ⟨some 18446744073709551616, some 18446744073709551618, none, false⟩ :
      Source ℕ ℕ) 0 := by
  rintro ⟨values, -, -, hvalues, -, hns⟩
  obtain ⟨ns, hns, hnumbers, -⟩ := hns _ rfl
  have hfirst : values[0]? = some (some (.integerLiteral 0)) := by
    rw [hvalues]
    decide
  rw [hns, List.getElem?_map] at hfirst
  obtain ⟨n, hn, hvalue⟩ := Option.map_eq_some_iff.mp hfirst
  obtain rfl := Value.integerLiteral.inj (Option.some.inj hvalue)
  exact absurd (hnumbers 0 0 hn).1 (by decide)

end

end CxyCompiler.Frontend.Iterable
