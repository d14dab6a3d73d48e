import CxyCompiler.Lib.Flow

/-!
# Removal of unreachable statements (`middle/sema/check.c`)

The checker keeps one flag, `returnState`, and drops the statements of a block behind a point where
it is set. All that matters of an expression is the blocks in it, of a `catch` and of a closure.

* `checkNode`, `checkBlockStmt`, `checkFunctionBody` — the flag, and the tree with the dropped
  statements marked.
* `paths`, `stmtsPaths` — the meaning: the paths through a body, whatever its conditions are.
* `state_sound` — **where the flag gets set, the code does not end normally**; a deferred statement
  is not executed where it stands, and the flag that it sets is not taken back.
* `exposed` — a statement that a path comes to, and that stands behind such a deferred statement.
* `removal_sound_iff` — **what is dropped is never executed if and only if nothing is exposed**; the
  return at the end of the body is always right.
* `lost_of_quiet` — nothing is where no deferred statement returns on all its paths.
-/

namespace CxyCompiler.Middle.Unreachable

open Lib.Flow

/-! ## Trees -/

/-- The `else` of an `if` and the bodies of loops and cases are nodes of any kind. An expression
with several operands is a nest of pairs. Source: `ast.h` `AstNode`. -/
inductive Node (μ : Type) where
  | expr (mark : μ)
  | pair (mark : μ) (first second : Node μ)
  /-- `expr catch body` -/
  | catchExpr (mark : μ) (expr body : Node μ)
  | closureExpr (mark : μ) (body : Node μ)
  | exprStmt (mark : μ) (expr : Node μ)
  /-- A declaration with its initial value. -/
  | varDecl (mark : μ) (init : Node μ)
  | blockStmt (mark : μ) (stmts : List (Node μ))
  /-- An `if` without `else`. -/
  | ifStmt (mark : μ) (cond body : Node μ)
  | ifElse (mark : μ) (cond body otherwise : Node μ)
  | whileStmt (mark : μ) (cond body : Node μ)
  | forStmt (mark : μ) (range body : Node μ)
  /-- `total`: one of the cases is always taken. -/
  | switchStmt (mark : μ) (cond : Node μ) (cases : List (Node μ)) (total : Bool)
  | matchStmt (mark : μ) (expr : Node μ) (cases : List (Node μ)) (total : Bool)
  | deferStmt (mark : μ) (stmt : Node μ)
  | returnStmt (mark : μ) (isRaise : Bool) (expr : Node μ)

variable {μ ν : Type}

def Node.isDefer : Node μ → Bool
  | .deferStmt .. => true
  | _ => false

/-- The nodes behind which the checker looks for unreachable ones. Source: `check.c`
`hasUnreachable`. -/
def Node.ends : Node μ → Bool
  | .returnStmt .. | .blockStmt .. | .exprStmt .. => true
  | _ => false

def Node.label : Node μ → μ
  | .expr m | .pair m .. | .catchExpr m .. | .closureExpr m .. | .exprStmt m .. | .varDecl m ..
  | .blockStmt m .. | .ifStmt m .. | .ifElse m .. | .whileStmt m .. | .forStmt m .. | .switchStmt m
    ..
  | .matchStmt m .. | .deferStmt m .. | .returnStmt m .. => m

mutual

/-- All marks replaced. -/
def Node.mark (k : ν) : Node μ → Node ν
  | .expr _ => .expr k
  | .pair _ a b => .pair k (a.mark k) (b.mark k)
  | .catchExpr _ e b => .catchExpr k (e.mark k) (b.mark k)
  | .closureExpr _ b => .closureExpr k (b.mark k)
  | .exprStmt _ e => .exprStmt k (e.mark k)
  | .varDecl _ e => .varDecl k (e.mark k)
  | .blockStmt _ stmts => .blockStmt k (markAll k stmts)
  | .ifStmt _ c b => .ifStmt k (c.mark k) (b.mark k)
  | .ifElse _ c b e => .ifElse k (c.mark k) (b.mark k) (e.mark k)
  | .whileStmt _ c b => .whileStmt k (c.mark k) (b.mark k)
  | .forStmt _ r b => .forStmt k (r.mark k) (b.mark k)
  | .switchStmt _ c cases total => .switchStmt k (c.mark k) (markAll k cases) total
  | .matchStmt _ e cases total => .matchStmt k (e.mark k) (markAll k cases) total
  | .deferStmt _ s => .deferStmt k (s.mark k)
  | .returnStmt _ isRaise e => .returnStmt k isRaise (e.mark k)

def markAll (k : ν) : List (Node μ) → List (Node ν)
  | [] => []
  | n :: ns => n.mark k :: markAll k ns

end

/-! ## The checker -/

/-- What becomes of a node. -/
inductive Mark
  | kept
  /-- Cut off by `reportUnreachable`, or part of what is. -/
  | cut
  /-- The return that `checkBlockStmt` appends. -/
  | implicit
deriving DecidableEq

/-- Source: `check.c` `hasUnreachable`. -/
def hasUnreachable (returnState : Bool) (stmt : Node μ) (next : List (Node μ)) : Bool :=
  returnState && !next.isEmpty && stmt.ends

mutual

/-- The flag after a node from the flag before it, and the node with its marks. Source: `check.c`
`checkReturnStmt`, `checkDeferStmt`, `checkWhileStmt`, `if.c` `checkIfStmt`, `for.c` `checkForStmt`,
`switch.c` `checkSwitchStmt`, `match.c` `checkMatchStmt`, `binary.c` `checkBinaryExpr`, `closure.c`
`checkClosureExpr`. -/
def checkNode (returnState : Bool) : Node Unit → Bool × Node Mark
  | .expr _ => (returnState, .expr .kept)
  | .pair _ a b =>
      let a := checkNode returnState a
      let b := checkNode a.1 b
      (b.1, .pair .kept a.2 b.2)
  | .catchExpr _ e b =>
      let e := checkNode returnState e
      (returnState, .catchExpr .kept e.2 (checkNode e.1 b).2)
  | .closureExpr _ b => (returnState, .closureExpr .kept (checkNode false b).2)
  | .exprStmt _ e =>
      let e := checkNode returnState e
      (e.1, .exprStmt .kept e.2)
  | .varDecl _ e =>
      let e := checkNode returnState e
      (e.1, .varDecl .kept e.2)
  | .blockStmt _ stmts =>
      let stmts := checkBlockStmt returnState stmts
      (stmts.1, .blockStmt .kept stmts.2)
  | .ifStmt _ c b =>
      let c := checkNode returnState c
      let b := checkNode false b
      (b.1 && c.1, .ifStmt .kept c.2 b.2)
  | .ifElse _ c b e =>
      let c := checkNode returnState c
      let b := checkNode false b
      let e := checkNode false e
      (b.1 && e.1, .ifElse .kept c.2 b.2 e.2)
  | .whileStmt _ c b =>
      let c := checkNode returnState c
      (c.1, .whileStmt .kept c.2 (checkNode false b).2)
  | .forStmt _ r b =>
      let r := checkNode returnState r
      (r.1, .forStmt .kept r.2 (checkNode false b).2)
  | .switchStmt _ c cases total =>
      let c := checkNode returnState c
      (false, .switchStmt .kept c.2 (checkCases cases) total)
  | .matchStmt _ e cases total =>
      let e := checkNode returnState e
      (e.1, .matchStmt .kept e.2 (checkCases cases) total)
  | .deferStmt _ s =>
      let s := checkNode returnState s
      (s.1, .deferStmt .kept s.2)
  | .returnStmt _ isRaise e =>
      let e := checkNode returnState e
      (e.1 || !isRaise, .returnStmt .kept isRaise e.2)

/-- The loop over the statements; what it is left in front of is cut off. Source: `check.c`
`checkBlockStmt`, `reportUnreachable`. -/
def checkBlockStmt (returnState : Bool) : List (Node Unit) → Bool × List (Node Mark)
  | [] => (returnState, [])
  | stmt :: next =>
      let checked := checkNode returnState stmt
      if hasUnreachable checked.1 stmt next then (checked.1, checked.2 :: markAll .cut next)
      else
        let rest := checkBlockStmt checked.1 next
        (rest.1, checked.2 :: rest.2)

/-- Source: `switch.c` `checkSwitchStmt`, `match.c` `checkMatchStmt`. -/
def checkCases : List (Node Unit) → List (Node Mark)
  | [] => []
  | case :: cases => (checkNode false case).2 :: checkCases cases

end

def implicitReturn : Node Mark := .returnStmt .implicit true (.expr .implicit)

/-- The body of a function that returns a void result ends in a return unless the flag is set. The
parent of the body is the function; for other blocks `getNodeReturnType` has no result. Source:
`check.c` `checkBlockStmt`, `function.c` `checkFunctionBody`. -/
def checkFunctionBody (isVoidResult : Bool) (body : List (Node Unit)) : List (Node Mark) :=
  let checked := checkBlockStmt false body
  if isVoidResult && !checked.1 then checked.2 ++ [implicitReturn] else checked.2

/-! ## Paths -/

mutual

/-- A `catch` block may be executed or not, and a closure is called any number of times. -/
def paths : Node μ → Paths μ
  | .expr m => visit m skip
  | .pair m a b => visit m (seq (paths a) (paths b))
  | .catchExpr m e b => visit m (seq (paths e) (skip ∪ paths b))
  | .closureExpr m b => visit m (repeated (call (paths b)))
  | .exprStmt m e | .varDecl m e => visit m (paths e)
  | .blockStmt m stmts => visit m (stmtsPaths stmts)
  | .ifStmt m c b => visit m (seq (paths c) (skip ∪ paths b))
  | .ifElse m c b e => visit m (seq (paths c) (paths b ∪ paths e))
  | .whileStmt m c b => visit m (seq (paths c) (repeated (seq (paths b) (paths c))))
  | .forStmt m r b => visit m (seq (paths r) (repeated (paths b)))
  | .switchStmt m c cases total | .matchStmt m c cases total =>
      visit m (seq (paths c) (if total && !cases.isEmpty then casesPaths cases
        else skip ∪ casesPaths cases))
  | .deferStmt m s => visit m (paths s)
  | .returnStmt m _ e => visit m (seq (paths e) leave)

/-- A deferred statement is executed behind the rest of its block, however that ends, so the last
one comes first. -/
def stmtsPaths : List (Node μ) → Paths μ
  | [] => skip
  | s :: stmts =>
      if s.isDefer then ensure (stmtsPaths stmts) (paths s) else seq (paths s) (stmtsPaths stmts)

def casesPaths : List (Node μ) → Paths μ
  | [] => ∅
  | case :: cases => paths case ∪ casesPaths cases

end

/-- What is cut off is executed on no path of the body, and where the function returns a void
result, every path that comes to the end of the body goes on through the return behind it. -/
structure Sound (isVoidResult : Bool) (body : List (Node Unit)) : Prop where
  unreached : ¬ Visits (stmtsPaths (checkBlockStmt false body).2) .cut
  returned : isVoidResult = true → ∀ t, (t, .normal) ∈ stmtsPaths (checkBlockStmt false body).2 →
    ∃ t₁ t₂ r, t = t₁ ++ t₂ ∧ (r, .left) ∈ paths implicitReturn ∧
      (t₁ ++ r ++ t₂, .left) ∈ stmtsPaths (checkFunctionBody isVoidResult body)

/-! ## The condition -/

mutual

/-- Some path through the node ends normally. -/
def completes : Node μ → Bool
  | .expr _ | .closureExpr .. => true
  | .pair _ a b => completes a && completes b
  | .catchExpr _ e _ | .exprStmt _ e | .varDecl _ e => completes e
  | .blockStmt _ stmts => completesAll stmts
  | .ifStmt _ c _ | .whileStmt _ c _ | .forStmt _ c _ => completes c
  | .ifElse _ c b e => completes c && (completes b || completes e)
  | .switchStmt _ c cases total | .matchStmt _ c cases total =>
      completes c && (!(total && !cases.isEmpty) || completesAny cases)
  | .deferStmt _ s => completes s
  | .returnStmt .. => false

def completesAll : List (Node μ) → Bool
  | [] => true
  | s :: stmts => completes s && completesAll stmts

def completesAny : List (Node μ) → Bool
  | [] => false
  | case :: cases => completes case || completesAny cases

end

mutual

/-- Whether the flag is set behind a node. -/
def returns (before : Bool) : Node μ → Bool
  | .expr _ | .catchExpr .. | .closureExpr .. => before
  | .pair _ a b => returns (returns before a) b
  | .exprStmt _ e | .varDecl _ e => returns before e
  | .blockStmt _ stmts => returnsAll before stmts
  | .ifStmt _ c b => returns false b && returns before c
  | .ifElse _ _ b e => returns false b && returns false e
  | .whileStmt _ c _ | .forStmt _ c _ | .matchStmt _ c _ _ => returns before c
  | .switchStmt .. => false
  | .deferStmt _ s => returns before s
  | .returnStmt _ isRaise e => returns before e || !isRaise

def returnsAll (before : Bool) : List (Node μ) → Bool
  | [] => before
  | s :: stmts => hasUnreachable (returns before s) s stmts || returnsAll (returns before s) stmts

end

/-- A statement that returns on all its paths, as it is taken by itself. Kind: D -/
def closes (n : Node μ) : Bool := returns false n

/-- A statement that takes nothing back: a deferred statement that is open in front of it, and
returns on all its paths, is so behind it. Kind: D -/
def keeps (n : Node μ) : Bool := returns true n

/-- A deferred statement that returns on all its paths is open behind a statement of a block, where
`isOpen` tells that one is open in front of it. Kind: D -/
def openBehind (isOpen : Bool) (n : Node μ) : Bool := (n.isDefer && closes n) || (isOpen && keeps n)

mutual

/-- A path through the node comes behind a statement or a block with a deferred statement open that
returns on all its paths; `isOpen` tells that one is open in front of the node. Kind: D -/
def exposed (isOpen : Bool) : Node μ → Bool
  | .expr _ => false
  | .pair _ a b => exposed isOpen a || (completes a && exposed (isOpen && keeps a) b)
  | .catchExpr _ e b => exposed isOpen e || (completes e && exposed (isOpen && keeps e) b)
  | .closureExpr _ b => exposed false b
  | .exprStmt _ e | .varDecl _ e | .deferStmt _ e | .returnStmt _ _ e => exposed isOpen e
  | .blockStmt _ stmts => exposedAll isOpen stmts
  | .ifStmt _ c b | .whileStmt _ c b | .forStmt _ c b =>
      exposed isOpen c || (completes c && exposed false b)
  | .ifElse _ c b e => exposed isOpen c || (completes c && (exposed false b || exposed false e))
  | .switchStmt _ c cases _ | .matchStmt _ c cases _ =>
      exposed isOpen c || (completes c && exposedCases cases)

def exposedAll (isOpen : Bool) : List (Node μ) → Bool
  | [] => false
  | s :: stmts =>
      exposed isOpen s || ((completes s || s.isDefer) &&
        (hasUnreachable (openBehind isOpen s) s stmts || exposedAll (openBehind isOpen s) stmts))

def exposedCases : List (Node μ) → Bool
  | [] => false
  | case :: cases => exposed false case || exposedCases cases

end

mutual

/-- No deferred statement in the node returns on all its paths. Kind: D -/
def quiet : Node μ → Bool
  | .expr _ => true
  | .pair _ a b | .catchExpr _ a b | .ifStmt _ a b | .whileStmt _ a b | .forStmt _ a b =>
      quiet a && quiet b
  | .closureExpr _ e | .exprStmt _ e | .varDecl _ e | .returnStmt _ _ e => quiet e
  | .blockStmt _ stmts => quietAll stmts
  | .ifElse _ c b e => quiet c && quiet b && quiet e
  | .switchStmt _ c cases _ | .matchStmt _ c cases _ => quiet c && quietAll cases
  | .deferStmt _ s => !closes s && quiet s

def quietAll : List (Node μ) → Bool
  | [] => true
  | s :: stmts => quiet s && quietAll stmts

end

/-! ## Paths of a tree -/

mutual

/-- Every node has a path. Kind: L -/
theorem paths_nonempty : ∀ n : Node μ, (paths n).Nonempty
  | .expr m => visit_nonempty m skip_nonempty
  | .pair m a b => visit_nonempty m (seq_nonempty (paths_nonempty a) (paths_nonempty b))
  | .catchExpr m e _ => visit_nonempty m
      (seq_nonempty (paths_nonempty e) (skip_nonempty.mono Set.subset_union_left))
  | .closureExpr m _ => visit_nonempty m (repeated_nonempty _)
  | .exprStmt m e => visit_nonempty m (paths_nonempty e)
  | .varDecl m e => visit_nonempty m (paths_nonempty e)
  | .blockStmt m stmts => visit_nonempty m (stmtsPaths_nonempty stmts)
  | .ifStmt m c _ => visit_nonempty m
      (seq_nonempty (paths_nonempty c) (skip_nonempty.mono Set.subset_union_left))
  | .ifElse m c b _ =>
      visit_nonempty m (seq_nonempty (paths_nonempty c)
        ((paths_nonempty b).mono Set.subset_union_left))
  | .whileStmt m c _ => visit_nonempty m (seq_nonempty (paths_nonempty c) (repeated_nonempty _))
  | .forStmt m r _ => visit_nonempty m (seq_nonempty (paths_nonempty r) (repeated_nonempty _))
  | .switchStmt m c cases total =>
      visit_nonempty m (seq_nonempty (paths_nonempty c) (taken_nonempty total cases))
  | .matchStmt m e cases total =>
      visit_nonempty m (seq_nonempty (paths_nonempty e) (taken_nonempty total cases))
  | .deferStmt m s => visit_nonempty m (paths_nonempty s)
  | .returnStmt m _ e => visit_nonempty m (seq_nonempty (paths_nonempty e) leave_nonempty)

theorem stmtsPaths_nonempty : ∀ stmts : List (Node μ), (stmtsPaths stmts).Nonempty
  | [] => skip_nonempty
  | s :: stmts => by
      rw [stmtsPaths]
      split_ifs
      · exact ensure_nonempty (stmtsPaths_nonempty stmts) (paths_nonempty s)
      · exact seq_nonempty (paths_nonempty s) (stmtsPaths_nonempty stmts)

theorem taken_nonempty (total : Bool) : ∀ cases : List (Node μ),
    (if total && !cases.isEmpty then casesPaths cases else skip ∪ casesPaths cases).Nonempty
  | [] => by
      rw [List.isEmpty_nil, Bool.not_true, Bool.and_false, if_neg Bool.false_ne_true]
      exact skip_nonempty.mono Set.subset_union_left
  | case :: cases => by
      split_ifs
      · exact (paths_nonempty case).mono Set.subset_union_left
      · exact skip_nonempty.mono Set.subset_union_left

end

mutual

/-- **`completes` tells whether a path ends normally.** Kind: L -/
theorem completes_iff : ∀ n : Node μ, Completes (paths n) ↔ completes n = true
  | .expr m => by simp [paths, completes]
  | .pair m a b => by simp [paths, completes, completes_iff a, completes_iff b]
  | .catchExpr m e b => by simp [paths, completes, completes_iff e]
  | .closureExpr m b => by simp [paths, completes]
  | .exprStmt m e => by simp [paths, completes, completes_iff e]
  | .varDecl m e => by simp [paths, completes, completes_iff e]
  | .blockStmt m stmts => by simp [paths, completes, completesAll_iff stmts]
  | .ifStmt m c b => by simp [paths, completes, completes_iff c]
  | .ifElse m c b e => by simp [paths, completes, completes_iff c, completes_iff b, completes_iff e]
  | .whileStmt m c b => by simp [paths, completes, completes_iff c]
  | .forStmt m r b => by simp [paths, completes, completes_iff r]
  | .switchStmt m c cases total => by
      rw [paths, completes, completes_visit, completes_seq, completes_iff c,
        taken_iff total cases, Bool.and_eq_true]
  | .matchStmt m e cases total => by
      rw [paths, completes, completes_visit, completes_seq, completes_iff e,
        taken_iff total cases, Bool.and_eq_true]
  | .deferStmt m s => by simp [paths, completes, completes_iff s]
  | .returnStmt m isRaise e => by simp [paths, completes]

/-- A block ends normally if and only if each of its statements can. Kind: L -/
theorem completesAll_iff : ∀ stmts : List (Node μ), Completes (stmtsPaths stmts) ↔
    completesAll stmts = true
  | [] => by simp [stmtsPaths, completesAll]
  | s :: stmts => by
      rw [stmtsPaths, completesAll, Bool.and_eq_true]
      split_ifs
      · rw [completes_ensure, completesAll_iff stmts, completes_iff s, and_comm]
      · rw [completes_seq, completes_iff s, completesAll_iff stmts]

/-- Of the cases one must end normally. Kind: L -/
theorem completesAny_iff : ∀ cases : List (Node μ), Completes (casesPaths cases) ↔
    completesAny cases = true
  | [] => by simp [casesPaths, completesAny]
  | case :: cases => by
      rw [casesPaths, completesAny, Bool.or_eq_true, completes_union, completes_iff case,
        completesAny_iff cases]

/-- A `switch` ends normally through a case, or when none must be taken. Kind: L -/
theorem taken_iff (total : Bool) (cases : List (Node μ)) :
    Completes (if total && !cases.isEmpty then casesPaths cases else skip ∪ casesPaths cases) ↔
      (!(total && !cases.isEmpty) || completesAny cases) = true := by
  split_ifs with h
  · rw [completesAny_iff cases, h, Bool.not_true, Bool.false_or]
  · rw [Bool.eq_false_iff.mpr h, Bool.not_false, Bool.true_or]
    exact iff_of_true (completes_union.mpr (.inl completes_skip)) rfl

end

/-! ## The checked tree -/

theorem markAll_isEmpty (k : ν) (ns : List (Node μ)) : (markAll k ns).isEmpty = ns.isEmpty := by
  cases ns with
  | nil => rfl
  | cons n ns => rfl

mutual

/-- Marks do not matter to how a node ends. Kind: L -/
theorem completes_mark (k : ν) : ∀ n : Node μ, completes (n.mark k) = completes n
  | .expr _ | .closureExpr .. | .returnStmt .. => rfl
  | .pair _ a b => by rw [Node.mark, completes, completes, completes_mark k a, completes_mark k b]
  | .catchExpr _ e _ | .exprStmt _ e | .varDecl _ e => by
      rw [Node.mark, completes, completes, completes_mark k e]
  | .blockStmt _ stmts => by rw [Node.mark, completes, completes, completesAll_mark k stmts]
  | .ifStmt _ c _ | .whileStmt _ c _ | .forStmt _ c _ => by
      rw [Node.mark, completes, completes, completes_mark k c]
  | .ifElse _ c b e => by
      rw [Node.mark, completes, completes, completes_mark k c,
        completes_mark k b, completes_mark k e]
  | .switchStmt _ c cases _ | .matchStmt _ c cases _ => by
      rw [Node.mark, completes, completes, completes_mark k c,
        completesAny_mark k cases, markAll_isEmpty]
  | .deferStmt _ s => by rw [Node.mark, completes, completes, completes_mark k s]

theorem completesAll_mark (k : ν) : ∀ stmts : List (Node μ),
    completesAll (markAll k stmts) = completesAll stmts
  | [] => rfl
  | s :: stmts => by rw [markAll, completesAll, completesAll, completes_mark k s,
      completesAll_mark k stmts]

theorem completesAny_mark (k : ν) : ∀ cases : List (Node μ),
    completesAny (markAll k cases) = completesAny cases
  | [] => rfl
  | c :: cases => by rw [markAll, completesAny, completesAny, completes_mark k c,
      completesAny_mark k cases]

end

mutual

theorem mark_source (k : ν) : ∀ n : Node Unit, (n.mark k).mark () = n
  | .expr _ => rfl
  | .pair _ a b => by rw [Node.mark, Node.mark, mark_source k a, mark_source k b]
  | .catchExpr _ e b => by rw [Node.mark, Node.mark, mark_source k e, mark_source k b]
  | .closureExpr _ b => by rw [Node.mark, Node.mark, mark_source k b]
  | .exprStmt _ e | .varDecl _ e | .deferStmt _ e | .returnStmt _ _ e => by
      rw [Node.mark, Node.mark, mark_source k e]
  | .blockStmt _ stmts => by rw [Node.mark, Node.mark, markAll_source k stmts]
  | .ifStmt _ c b | .whileStmt _ c b | .forStmt _ c b => by
      rw [Node.mark, Node.mark, mark_source k c, mark_source k b]
  | .ifElse _ c b e => by rw [Node.mark, Node.mark, mark_source k c,
      mark_source k b, mark_source k e]
  | .switchStmt _ c cases _ | .matchStmt _ c cases _ => by
      rw [Node.mark, Node.mark, mark_source k c, markAll_source k cases]

theorem markAll_source (k : ν) : ∀ ns : List (Node Unit), markAll () (markAll k ns) = ns
  | [] => rfl
  | n :: ns => by rw [markAll, markAll, mark_source k n, markAll_source k ns]

end

mutual

/-- **The marked tree is the source.** Kind: L -/
theorem checkNode_source (b : Bool) : ∀ n : Node Unit, (checkNode b n).2.mark () = n
  | .expr _ => rfl
  | .pair _ x y => by rw [checkNode, Node.mark, checkNode_source b x, checkNode_source _ y]
  | .catchExpr _ e y => by rw [checkNode, Node.mark, checkNode_source b e, checkNode_source _ y]
  | .closureExpr _ y => by rw [checkNode, Node.mark, checkNode_source false y]
  | .exprStmt _ e | .varDecl _ e | .deferStmt _ e | .returnStmt _ _ e => by
      rw [checkNode, Node.mark, checkNode_source b e]
  | .blockStmt _ stmts => by rw [checkNode, Node.mark, checkBlockStmt_source b stmts]
  | .ifStmt _ c y | .whileStmt _ c y | .forStmt _ c y => by
      rw [checkNode, Node.mark, checkNode_source b c, checkNode_source false y]
  | .ifElse _ c y e => by
      rw [checkNode, Node.mark, checkNode_source b c, checkNode_source false y,
        checkNode_source false e]
  | .switchStmt _ c cases _ | .matchStmt _ c cases _ => by
      rw [checkNode, Node.mark, checkNode_source b c, checkCases_source cases]

/-- The checker changes only the marks. Kind: L -/
theorem checkBlockStmt_source (b : Bool) : ∀ stmts : List (Node Unit),
    markAll () (checkBlockStmt b stmts).2 = stmts
  | [] => rfl
  | s :: stmts => by
      rw [checkBlockStmt]
      dsimp only
      split_ifs
      · rw [markAll, checkNode_source b s, markAll_source _ stmts]
      · rw [markAll, checkNode_source b s, checkBlockStmt_source _ stmts]

theorem checkCases_source : ∀ cases : List (Node Unit), markAll () (checkCases cases) = cases
  | [] => rfl
  | c :: cases => by rw [checkCases, markAll, checkNode_source false c, checkCases_source cases]

end

theorem completes_check (b : Bool) (n : Node Unit) : completes (checkNode b n).2 = completes n := by
  rw [← completes_mark () (checkNode b n).2, checkNode_source]

mutual

/-- The flag behind a node is computed from the tree alone. Kind: L -/
theorem checkNode_state (b : Bool) : ∀ n : Node Unit, (checkNode b n).1 = returns b n
  | .expr _ | .catchExpr .. | .closureExpr .. | .switchStmt .. => rfl
  | .pair _ x y => by rw [checkNode, returns, checkNode_state b x, checkNode_state _ y]
  | .exprStmt _ e | .varDecl _ e | .deferStmt _ e => by rw [checkNode, returns, checkNode_state b e]
  | .returnStmt _ isRaise e => by rw [checkNode, returns, checkNode_state b e]
  | .blockStmt _ stmts => by rw [checkNode, returns, checkBlockStmt_state b stmts]
  | .ifStmt _ c y => by rw [checkNode, returns, checkNode_state b c, checkNode_state false y]
  | .whileStmt _ c _ | .forStmt _ c _ | .matchStmt _ c _ _ => by
    rw [checkNode, returns, checkNode_state b c]
  | .ifElse _ _ y e => by rw [checkNode, returns, checkNode_state false y, checkNode_state false e]

/-- The flag behind a block is computed from its statements alone. Kind: L -/
theorem checkBlockStmt_state (b : Bool) : ∀ stmts : List (Node Unit),
    (checkBlockStmt b stmts).1 = returnsAll b stmts
  | [] => rfl
  | s :: stmts => by
      rw [checkBlockStmt, returnsAll, checkNode_state b s]
      dsimp only
      split_ifs with h
      · have hset : returns b s = true := by
          unfold hasUnreachable at h
          rw [Bool.and_eq_true, Bool.and_eq_true] at h
          exact h.1.1
        rw [h, Bool.true_or, hset]
      · rw [Bool.eq_false_iff.mpr h, Bool.false_or, checkBlockStmt_state _ stmts]

end

/-! ## The flag -/

mutual

/-- **Where the flag gets set, the code does not end normally.** Kind: P -/
theorem state_sound (b : Bool) : ∀ n : Node μ, returns b n = true → b = true ∨ completes n = false
  | .expr _ => .inl
  | .catchExpr .. => .inl
  | .closureExpr .. => .inl
  | .pair _ x y => by
      intro h
      rw [completes, Bool.and_eq_false_iff]
      rcases state_sound _ y h with hx | hy
      · exact (state_sound b x hx).imp_right .inl
      · exact .inr (.inr hy)
  | .exprStmt _ e => state_sound b e
  | .varDecl _ e => state_sound b e
  | .deferStmt _ s => state_sound b s
  | .blockStmt _ stmts => state_sound_all b stmts
  | .ifStmt _ c _ => by
      intro h
      rw [returns, Bool.and_eq_true] at h
      exact state_sound b c h.2
  | .ifElse _ c y e => by
      intro h
      rw [returns, Bool.and_eq_true] at h
      have hy := (state_sound false y h.1).resolve_left Bool.false_ne_true
      have he := (state_sound false e h.2).resolve_left Bool.false_ne_true
      rw [completes, hy, he, Bool.or_false, Bool.and_false]
      exact .inr rfl
  | .whileStmt _ c _ => state_sound b c
  | .forStmt _ r _ => state_sound b r
  | .switchStmt .. => fun h => absurd h Bool.false_ne_true
  | .matchStmt _ e _ _ => by
      intro h
      rw [completes, Bool.and_eq_false_iff]
      exact (state_sound b e h).imp_right .inl
  | .returnStmt .. => fun _ => .inr rfl

/-- Where the statements set the flag, the block does not end normally. Kind: L -/
theorem state_sound_all (b : Bool) :
    ∀ stmts : List (Node μ), returnsAll b stmts = true → b = true ∨ completesAll stmts = false
  | [] => .inl
  | s :: stmts => by
      intro h
      rw [completesAll, Bool.and_eq_false_iff]
      have hset : returns b s = true ∨ completesAll stmts = false := by
        rcases Bool.or_eq_true .. ▸ h with hcut | hrest
        · unfold hasUnreachable at hcut
          rw [Bool.and_eq_true, Bool.and_eq_true] at hcut
          exact .inl hcut.1.1
        · exact state_sound_all _ stmts hrest
      rcases hset with hs | hstmts
      · exact (state_sound b s hs).imp_right .inl
      · exact .inr (.inr hstmts)

end

mutual

/-- The flag is set behind a node where it is set in front of it, if it is set there without.
Kind: L -/
theorem returns_mono {b b' : Bool} (h : b = true → b' = true) :
    ∀ n : Node μ, returns b n = true → returns b' n = true
  | .expr _ => h
  | .catchExpr .. => h
  | .closureExpr .. => h
  | .pair _ x y => returns_mono (returns_mono h x) y
  | .exprStmt _ e => returns_mono h e
  | .varDecl _ e => returns_mono h e
  | .deferStmt _ s => returns_mono h s
  | .blockStmt _ stmts => returnsAll_mono h stmts
  | .ifStmt _ c _ => by
      rw [returns, returns, Bool.and_eq_true, Bool.and_eq_true]
      exact And.imp_right (returns_mono h c)
  | .ifElse .. => id
  | .whileStmt _ c _ => returns_mono h c
  | .forStmt _ r _ => returns_mono h r
  | .switchStmt .. => id
  | .matchStmt _ e _ _ => returns_mono h e
  | .returnStmt _ _ e => by
      rw [returns, returns, Bool.or_eq_true, Bool.or_eq_true]
      exact Or.imp_left (returns_mono h e)

/-- A flag that is set stays set. Kind: L -/
theorem returnsAll_mono {b b' : Bool} (h : b = true → b' = true) :
    ∀ stmts : List (Node μ), returnsAll b stmts = true → returnsAll b' stmts = true
  | [] => h
  | s :: stmts => by
      have hs := returns_mono h s
      rw [returnsAll, returnsAll, Bool.or_eq_true, Bool.or_eq_true]
      refine Or.imp (fun hcut => ?_) (returnsAll_mono hs stmts)
      unfold hasUnreachable at hcut ⊢
      rw [Bool.and_eq_true, Bool.and_eq_true] at hcut ⊢
      exact ⟨⟨hs hcut.1.1, hcut.1.2⟩, hcut.2⟩

end

/-- The flag behind a node is set by the node, or was set and is not taken back. Kind: L -/
theorem returns_eq (b : Bool) (n : Node μ) : returns b n = (closes n || (b && keeps n)) := by
  unfold closes keeps
  cases b with
  | false => rw [Bool.false_and, Bool.or_false]
  | true =>
      rw [Bool.true_and]
      cases h : returns false n with
      | false => rw [Bool.false_or]
      | true => exact (@returns_mono _ false true (fun _ => rfl) n h).trans (Bool.true_or _).symm

/-- **Behind code that ends normally the flag is set only if it was before**, by a deferred
statement that is open. Kind: L -/
theorem returns_of_completes {b : Bool} {n : Node μ} (h : completes n = true) :
    returns b n = (b && keeps n) := by
  have hcloses : closes n = false := by
    by_contra hset
    rcases state_sound false n (Bool.not_eq_false _ ▸ hset) with hb | hn
    · exact Bool.false_ne_true hb
    · exact Bool.false_ne_true (hn.symm.trans h)
  rw [returns_eq, hcloses, Bool.false_or]

/-- In a block it is set by a deferred statement. Kind: L -/
theorem returns_of_reached {b : Bool} {n : Node μ} (h : completes n = true ∨ n.isDefer = true) :
    returns b n = openBehind b n := by
  unfold openBehind
  cases hdefer : n.isDefer with
  | true => rw [returns_eq, Bool.true_and]
  | false =>
      rw [returns_of_completes (h.resolve_right (Bool.eq_false_iff.mp hdefer)), Bool.false_and,
        Bool.false_or]

/-! ## What is cut off -/

/-- A node visits its own mark. Kind: L -/
theorem visits_label (n : Node μ) : Visits (paths n) n.label := by
  obtain ⟨A, hA⟩ : ∃ A, paths n = visit n.label A := by
    cases n <;> exact ⟨_, rfl⟩
  obtain ⟨⟨t, o⟩, ht⟩ := paths_nonempty n
  rw [hA] at ht ⊢
  obtain ⟨t', -, ht'⟩ := mem_visit.mp ht
  exact (visits_visit ⟨_, ht'⟩).mpr (.inl rfl)

theorem label_mark (k : ν) (n : Node μ) : (n.mark k).label = k := by
  cases n <;> rfl

theorem isDefer_check (b : Bool) (n : Node Unit) : (checkNode b n).2.isDefer = n.isDefer := by
  cases n <;> rfl

theorem visits_markAll (k : ν) {ns : List (Node μ)}
    (h : ns ≠ []) : Visits (stmtsPaths (markAll k ns)) k := by
  obtain ⟨n, ns, rfl⟩ := List.exists_cons_of_ne_nil h
  have hfirst : Visits (paths (n.mark k)) k := by
    have hlabel := visits_label (n.mark k)
    rwa [label_mark] at hlabel
  rw [markAll, stmtsPaths]
  split_ifs
  · exact (visits_ensure (stmtsPaths_nonempty _) (paths_nonempty _)).mpr (.inr hfirst)
  · exact (visits_seq (stmtsPaths_nonempty _)).mpr (.inl hfirst)

theorem visits_kept {A : Paths Mark}
    (hA : A.Nonempty) : Visits (visit .kept A) .cut ↔ Visits A .cut := by
  rw [visits_visit hA]
  exact or_iff_right Mark.noConfusion

/-- Where statements are cut off: the flag is set, some follow, and this one ends the block.
Kind: L -/
theorem hasUnreachable_iff {b : Bool} {s : Node μ} {next : List (Node μ)} :
    hasUnreachable b s next = true ↔ b = true ∧ next ≠ [] ∧ s.ends = true := by
  unfold hasUnreachable
  rw [Bool.and_eq_true, Bool.and_eq_true, and_assoc, Bool.not_eq_true', List.isEmpty_eq_false_iff]

theorem ends_not_defer {s : Node μ} (h : s.ends = true) : s.isDefer = false := by
  cases s with
  | deferStmt => exact absurd h Bool.false_ne_true
  | _ => rfl

/-- A cut in a `switch` is one in a case. Kind: L -/
theorem visits_taken {total : Bool} {cases : List (Node Mark)} :
    Visits (if total && !cases.isEmpty then casesPaths cases else skip ∪ casesPaths cases) .cut ↔
      Visits (casesPaths cases) .cut := by
  split_ifs
  · exact Iff.rfl
  · rw [visits_union]
    exact or_iff_right not_visits_skip

mutual

/-- **A path through a node visits what is cut off if and only if it is exposed.** Kind: P -/
theorem visits_node (b : Bool) :
    ∀ n : Node Unit, Visits (paths (checkNode b n).2) .cut ↔ exposed b n = true
  | .expr _ => by
      rw [checkNode, paths, visits_kept skip_nonempty]
      exact iff_of_false not_visits_skip Bool.false_ne_true
  | .pair _ x y => by
      rw [checkNode, paths, visits_kept (seq_nonempty (paths_nonempty _) (paths_nonempty _)),
        visits_seq (paths_nonempty _), visits_node b x, visits_node _ y,
          completes_iff, completes_check,
        checkNode_state, exposed, Bool.or_eq_true, Bool.and_eq_true]
      exact or_congr_right (and_congr_right fun h => by rw [returns_of_completes h])
  | .catchExpr _ e y => by
      have hskip : (skip ∪ paths (checkNode (checkNode b e).1 y).2).Nonempty :=
        skip_nonempty.mono Set.subset_union_left
      rw [checkNode, paths, visits_kept (seq_nonempty (paths_nonempty _) hskip),
        visits_seq hskip, visits_union,
        or_iff_right not_visits_skip, visits_node b e, visits_node _ y,
          completes_iff, completes_check,
        checkNode_state, exposed, Bool.or_eq_true, Bool.and_eq_true]
      exact or_congr_right (and_congr_right fun h => by rw [returns_of_completes h])
  | .closureExpr _ y => by
      rw [checkNode, paths, visits_kept (repeated_nonempty _), visits_repeated, visits_call,
        visits_node false y, exposed]
  | .exprStmt _ e => by rw [checkNode, paths,
      visits_kept (paths_nonempty _), visits_node b e, exposed]
  | .varDecl _ e => by rw [checkNode, paths, visits_kept (paths_nonempty _),
      visits_node b e, exposed]
  | .deferStmt _ s => by rw [checkNode, paths,
      visits_kept (paths_nonempty _), visits_node b s, exposed]
  | .returnStmt _ _ e => by
      rw [checkNode, paths, visits_kept (seq_nonempty (paths_nonempty _) leave_nonempty),
        visits_seq leave_nonempty, visits_node b e, exposed]
      exact or_iff_left fun h => not_visits_leave h.2
  | .blockStmt _ stmts => by
      rw [checkNode, paths, visits_kept (stmtsPaths_nonempty _), visits_stmts b stmts, exposed]
  | .ifStmt _ c y => by
      have hskip : (skip ∪ paths (checkNode false y).2).Nonempty :=
        skip_nonempty.mono Set.subset_union_left
      rw [checkNode, paths, visits_kept (seq_nonempty (paths_nonempty _) hskip),
        visits_seq hskip, visits_union,
        or_iff_right not_visits_skip, visits_node b c, visits_node false y,
          completes_iff, completes_check,
        exposed, Bool.or_eq_true, Bool.and_eq_true]
  | .ifElse _ c y e => by
      have hbranch : (paths (checkNode false y).2 ∪ paths (checkNode false e).2).Nonempty :=
        (paths_nonempty _).mono Set.subset_union_left
      rw [checkNode, paths, visits_kept (seq_nonempty (paths_nonempty _) hbranch),
        visits_seq hbranch, visits_union,
        visits_node b c, visits_node false y, visits_node false e,
          completes_iff, completes_check, exposed,
        Bool.or_eq_true, Bool.and_eq_true, Bool.or_eq_true]
  | .whileStmt _ c y => by
      rw [checkNode, paths, visits_kept (seq_nonempty (paths_nonempty _) (repeated_nonempty _)),
        visits_seq (repeated_nonempty _), visits_repeated,
          visits_seq (paths_nonempty _), visits_node b c,
        visits_node false y, completes_iff, completes_check, exposed, Bool.or_eq_true,
          Bool.and_eq_true]
      constructor
      · rintro (hc | ⟨hc, hy | ⟨-, hc'⟩⟩)
        · exact .inl hc
        · exact .inr ⟨hc, hy⟩
        · exact .inl hc'
      · exact Or.imp_right fun h => ⟨h.1, .inl h.2⟩
  | .forStmt _ r y => by
      rw [checkNode, paths, visits_kept (seq_nonempty (paths_nonempty _) (repeated_nonempty _)),
        visits_seq (repeated_nonempty _), visits_repeated, visits_node b r,
          visits_node false y, completes_iff,
        completes_check, exposed, Bool.or_eq_true, Bool.and_eq_true]
  | .switchStmt _ c cases total => by
      rw [checkNode, paths, visits_kept (seq_nonempty (paths_nonempty _) (taken_nonempty _ _)),
        visits_seq (taken_nonempty _ _), visits_taken, visits_cases cases,
          visits_node b c, completes_iff,
        completes_check, exposed, Bool.or_eq_true, Bool.and_eq_true]
  | .matchStmt _ e cases total => by
      rw [checkNode, paths, visits_kept (seq_nonempty (paths_nonempty _) (taken_nonempty _ _)),
        visits_seq (taken_nonempty _ _), visits_taken, visits_cases cases,
          visits_node b e, completes_iff,
        completes_check, exposed, Bool.or_eq_true, Bool.and_eq_true]

/-- A path through a block comes to a cut if and only if something is exposed. Kind: L -/
theorem visits_stmts (b : Bool) :
    ∀ stmts : List (Node Unit), Visits (stmtsPaths (checkBlockStmt b stmts).2) .cut ↔
      exposedAll b stmts = true
  | [] => iff_of_false not_visits_skip Bool.false_ne_true
  | s :: next => by
      -- where a path comes behind the statement, the flag is that of the open deferred statements
      have hopen : ((completes s || s.isDefer) && (hasUnreachable (openBehind b s) s next ||
          exposedAll (openBehind b s) next)) = ((completes s || s.isDefer) &&
            (hasUnreachable (returns b s) s next || exposedAll (returns b s) next)) := by
        cases hreach : completes s || s.isDefer with
        | false => rfl
        | true => rw [returns_of_reached (Bool.or_eq_true .. ▸ hreach)]
      rw [checkBlockStmt, exposedAll, hopen, checkNode_state]
      dsimp only
      split_ifs with hcut
      · obtain ⟨-, hnext, hends⟩ := hasUnreachable_iff.mp hcut
        have htail := visits_markAll Mark.cut hnext
        rw [stmtsPaths, isDefer_check, ends_not_defer hends, if_neg Bool.false_ne_true,
          visits_seq (stmtsPaths_nonempty _), visits_node b s, completes_iff,
            completes_check, hcut, Bool.true_or,
          Bool.and_true, Bool.or_false, Bool.or_eq_true, and_iff_left htail]
      · rw [Bool.eq_false_iff.mpr hcut, Bool.false_or, stmtsPaths, isDefer_check, Bool.or_eq_true,
          Bool.and_eq_true]
        cases hdefer : s.isDefer
        · rw [if_neg Bool.false_ne_true, visits_seq (stmtsPaths_nonempty _),
            visits_node b s, visits_stmts _ next,
            completes_iff, completes_check, Bool.or_false]
        · rw [if_pos rfl, visits_ensure (stmtsPaths_nonempty _) (paths_nonempty _), visits_node b s,
            visits_stmts _ next, Bool.or_true, or_comm, and_iff_right rfl]

/-- A path through a case comes to a cut if and only if something is exposed. Kind: L -/
theorem visits_cases :
    ∀ cases : List (Node Unit), Visits (casesPaths (checkCases cases)) .cut ↔
      exposedCases cases = true
  | [] => iff_of_false not_visits_empty Bool.false_ne_true
  | c :: cases => by
      rw [checkCases, casesPaths, visits_union, visits_node false c, visits_cases cases,
        exposedCases, Bool.or_eq_true]

end

/-! ## The end of the body -/

/-- A return behind a block ends the paths that end normally. Kind: L -/
theorem append_return {r : Node μ} (hr : r.isDefer = false) : ∀ {stmts : List (Node μ)}
    {t : List μ},
    (t, .normal) ∈ stmtsPaths stmts → ∃ t₁ t₂, t = t₁ ++ t₂ ∧
      ∀ u, (u, .left) ∈ paths r → (t₁ ++ u ++ t₂, .left) ∈ stmtsPaths (stmts ++ [r]) := by
  intro stmts
  induction stmts with
  | nil =>
    intro t ht
    refine ⟨[], [], (mem_skip.mp ht).1, fun u hu => ?_⟩
    rw [List.nil_append, List.nil_append, List.append_nil, stmtsPaths, hr,
      if_neg Bool.false_ne_true]
    exact .inl ⟨rfl, hu⟩
  | cons s stmts ih =>
    intro t ht
    rw [List.cons_append, stmtsPaths]
    rw [stmtsPaths] at ht
    split_ifs at ht ⊢
    · obtain ⟨⟨q, o⟩, hq, ⟨d, o'⟩, hd, rfl, ho⟩ := mem_ensure.mp ht
      obtain ⟨rfl, rfl⟩ := Outcome.join_eq_normal.mp ho.symm
      obtain ⟨t₁, t₂, rfl, h⟩ := ih hq
      refine ⟨t₁, t₂ ++ d, List.append_assoc .., fun u hu =>
        mem_ensure.mpr ⟨_, h u hu, _, hd, ?_, rfl⟩⟩
      rw [List.append_assoc (t₁ ++ u)]
    · rcases mem_seq.mp ht with ⟨ho, -⟩ | ⟨a, c, rfl, ha, hc⟩
      · exact absurd ho Outcome.noConfusion
      · obtain ⟨t₁, t₂, rfl, h⟩ := ih hc
        refine ⟨a ++ t₁, t₂, (List.append_assoc ..).symm, fun u hu => ?_⟩
        rw [List.append_assoc a, List.append_assoc a]
        exact append_mem_seq ha (h u hu)

/-- **A path that comes to the end of the body goes on through the implicit return.** Kind: P -/
theorem end_returns (body : List (Node Unit)) {t : List Mark}
    (ht : (t, .normal) ∈ stmtsPaths (checkBlockStmt false body).2) :
    ∃ t₁ t₂ r, t = t₁ ++ t₂ ∧ (r, .left) ∈ paths implicitReturn ∧
      (t₁ ++ r ++ t₂, .left) ∈ stmtsPaths (checkFunctionBody true body) := by
  have hends : completesAll body = true := by
    rw [← checkBlockStmt_source false body, completesAll_mark]
    exact (completesAll_iff _).mp ⟨t, ht⟩
  have hunset : (checkBlockStmt false body).1 = false := by
    rw [checkBlockStmt_state]
    by_contra hset
    rcases state_sound_all false body (Bool.not_eq_false _ ▸ hset) with h | h
    · exact absurd h Bool.false_ne_true
    · exact absurd (hends.symm.trans h) Bool.noConfusion
  have hr : ([.implicit, .implicit], .left) ∈ paths implicitReturn :=
    cons_mem_visit.mpr (append_mem_seq (cons_mem_visit.mpr (mem_skip.mpr ⟨rfl, rfl⟩))
      (mem_leave.mpr ⟨rfl, rfl⟩))
  obtain ⟨t₁, t₂, htrace, h⟩ := append_return (r := implicitReturn) rfl ht
  refine ⟨t₁, t₂, _, htrace, hr, ?_⟩
  rw [checkFunctionBody, hunset, Bool.not_false, Bool.and_true, if_pos rfl]
  exact h _ hr

/-! ## Soundness -/

/-- **What is cut off is executed on no path if and only if nothing is exposed.**
Source: `check.c` `checkBlockStmt`. Kind: P -/
theorem removal_sound_iff (isVoidResult : Bool) (body : List (Node Unit)) :
    Sound isVoidResult body ↔ exposedAll false body = false := by
  rw [← Bool.not_eq_true, ← visits_stmts]
  constructor
  · exact Sound.unreached
  · intro h
    refine ⟨h, ?_⟩
    rintro rfl t ht
    exact end_returns body ht

mutual

/-- Where no deferred statement returns on all its paths, none is ever open. Kind: L -/
theorem exposed_of_quiet : ∀ n : Node μ, quiet n = true → exposed false n = false
  | .expr _ => fun _ => rfl
  | .pair _ a b => by
      intro h
      rw [quiet, Bool.and_eq_true] at h
      rw [exposed, Bool.false_and, exposed_of_quiet a h.1, exposed_of_quiet b h.2,
        Bool.and_false, Bool.or_false]
  | .catchExpr _ e b => by
      intro h
      rw [quiet, Bool.and_eq_true] at h
      rw [exposed, Bool.false_and, exposed_of_quiet e h.1, exposed_of_quiet b h.2,
        Bool.and_false, Bool.or_false]
  | .closureExpr _ e => exposed_of_quiet e
  | .exprStmt _ e => exposed_of_quiet e
  | .varDecl _ e => exposed_of_quiet e
  | .returnStmt _ _ e => exposed_of_quiet e
  | .blockStmt _ stmts => exposedAll_of_quiet stmts
  | .ifStmt _ c b | .whileStmt _ c b | .forStmt _ c b => by
      intro h
      rw [quiet, Bool.and_eq_true] at h
      rw [exposed, exposed_of_quiet c h.1, exposed_of_quiet b h.2, Bool.and_false, Bool.or_false]
  | .ifElse _ c b e => by
      intro h
      rw [quiet, Bool.and_eq_true, Bool.and_eq_true] at h
      rw [exposed, exposed_of_quiet c h.1.1, exposed_of_quiet b h.1.2, exposed_of_quiet e h.2,
        Bool.or_false, Bool.and_false, Bool.or_false]
  | .switchStmt _ c cases _ | .matchStmt _ c cases _ => by
      intro h
      rw [quiet, Bool.and_eq_true] at h
      rw [exposed, exposed_of_quiet c h.1, exposedCases_of_quiet cases h.2,
        Bool.and_false, Bool.or_false]
  | .deferStmt _ s => by
      intro h
      rw [quiet, Bool.and_eq_true] at h
      exact exposed_of_quiet s h.2

/-- In a block of quiet statements nothing is exposed. Kind: L -/
theorem exposedAll_of_quiet : ∀ stmts : List (Node μ), quietAll stmts = true →
    exposedAll false stmts = false
  | [] => fun _ => rfl
  | s :: stmts => by
      intro h
      rw [quietAll, Bool.and_eq_true] at h
      have hopen : openBehind false s = false := by
        unfold openBehind
        rw [Bool.false_and, Bool.or_false]
        cases s with
        | deferStmt m s =>
            have hs := h.1
            rw [quiet, Bool.and_eq_true, Bool.not_eq_true'] at hs
            exact hs.1
        | _ => rfl
      rw [exposedAll, hopen, hasUnreachable, Bool.false_and, Bool.false_and, Bool.false_or,
        exposed_of_quiet s h.1, exposedAll_of_quiet stmts h.2, Bool.and_false, Bool.or_false]

/-- In quiet cases nothing is exposed. Kind: L -/
theorem exposedCases_of_quiet : ∀ cases : List (Node μ), quietAll cases = true →
    exposedCases cases = false
  | [] => fun _ => rfl
  | c :: cases => by
      intro h
      rw [quietAll, Bool.and_eq_true] at h
      rw [exposedCases, exposed_of_quiet c h.1, exposedCases_of_quiet cases h.2, Bool.or_false]

end

/-- **Nothing is lost of a body whose deferred statements do not return on all their paths.**
Kind: P -/
theorem lost_of_quiet (body : List (Node Unit)) (h : quietAll body = true) :
    ¬ Visits (stmtsPaths (checkBlockStmt false body).2) .cut := by
  rw [visits_stmts, exposedAll_of_quiet body h]
  exact Bool.false_ne_true

/-- `defer { return } a() b()`. -/
def deferredReturn : List (Node Unit) :=
  [.deferStmt () (.blockStmt () [.returnStmt () false (.expr ())]), .exprStmt () (.expr ()),
    .exprStmt () (.expr ())]

/-- The call of `b` is cut off, and executed. Kind: P -/
theorem deferred_return_cuts :
    (checkBlockStmt false deferredReturn).2.map Node.label = [.kept, .kept, .cut] ∧
      ¬ Sound false deferredReturn :=
  ⟨rfl, fun h => h.unreached ((visits_stmts false deferredReturn).mpr rfl)⟩

end CxyCompiler.Middle.Unreachable
