import Mathlib.Data.List.Basic

/-!
# Lowering of `defer` (`middle/defer.c`)

A function body is a list of statements. Expressions and conditions are numbers: all that matters
of them is when they are evaluated.

* `visitBlock` — the pass. A statement is visited in the scope of the innermost block; what a visit
  adds goes in front of the current statement of that block.
* `exec` — the meaning of statements along a path, as a list of choices: the events of the path,
  what it has deferred in the enclosing block, and how it leaves the statement. With `live` unset a
  `defer` does nothing, as for the passes after this one.
* `run` — a block with the deferred statements that its end runs.
-/

namespace CxyCompiler.Middle.Defer

/-! ## Statements -/

/-- The bodies of `if`, of loops and of functions are blocks (`shake.c` makes them so); the `else`
of an `if` is a block or an `if`, and `noop` where there is none. The body of a case is any
statement, and what is deferred is an expression or a block. `for` is a loop as `while` is. Source:
`ast.h` `AstNode`, `parser.c` `deferStatement`. -/
inductive Stmt where
  | noop
  | expr (id : ℕ)
  | deferStmt (stmt : Stmt)
  | block (stmts : List Stmt)
  | ifStmt (cond : ℕ) (body : List Stmt) (otherwise : Stmt)
  | whileStmt (cond : ℕ) (body : List Stmt)
  | switchStmt (cond : ℕ) (cases : List Stmt)
  | breakStmt
  | continueStmt
  | returnStmt (expr : Option ℕ)
  | funcDecl (body : List Stmt)

def Stmt.isNoop : Stmt → Bool
  | .noop => true
  | _ => false

/-! ## The pass -/

/-- Source: `scope.h` `BlockScope`. -/
structure BlockScope where
  /-- The deferred statements, in the order of their `defer`. -/
  data : List Stmt
  /-- `bscSealed` -/
  isSealed : Bool
  /-- The block is the body of a `while` or a `for`. -/
  isLoopBody : Bool

/-- Source: `defer.c` `blockScopeNeedsSealing`. -/
def blockScopeNeedsSealing (scope : BlockScope) : Bool := !scope.isSealed && !scope.data.isEmpty

/-- Source: `defer.c` `blockScopeSealIntoList`. -/
def blockScopeSealIntoList (scope : BlockScope) : List Stmt := scope.data.reverse

/-- Source: `defer.c` `visitReturnStmt`. -/
def returnExpressions : List BlockScope → List Stmt
  | [] => []
  | scope :: scopes =>
      (if blockScopeNeedsSealing scope then blockScopeSealIntoList scope else []) ++
        returnExpressions scopes

/-- Source: `defer.c` `visitBreakContinue`. -/
def breakExpressions : List BlockScope → List Stmt
  | [] => []
  | scope :: scopes =>
      if scope.isLoopBody then blockScopeSealIntoList scope
      else (if blockScopeNeedsSealing scope then blockScopeSealIntoList scope else []) ++
        breakExpressions scopes

/-- What stands between the previous statement of the block and the current one, after more is
added. The place of the last addition is restored when a visit returns, so what was added by an
earlier visit is unlinked, or, in front of the first statement, pushed on. Source: `visitor.c`
`astModifierAdd`, `defer.c` `withSavedStack`. -/
def astModifierAdd (hasPrevious : Bool) (added more : List Stmt) : List Stmt :=
  if more.isEmpty then added else if hasPrevious then more else more ++ added

/-- The result of a visit: what is added in front of the current statement of the block, the
statement, and the scope of the block. -/
structure Visit where
  added : List Stmt
  stmt : Stmt
  scope : BlockScope

mutual

/-- A deferred statement is not visited. Source: `defer.c` `visitDeferStmt`, `visitReturnStmt`,
`visitBreakContinue`, `visitFuncDecl`, `visitor.c` `astVisitFallbackVisitAll`. -/
def visitStmt (scope : BlockScope) (scopes : List BlockScope) (hasPrevious : Bool) : Stmt → Visit
  | .noop => ⟨[], .noop, scope⟩
  | .expr id => ⟨[], .expr id, scope⟩
  | .deferStmt stmt => ⟨[], .noop, { scope with data := scope.data ++ [stmt] }⟩
  | .block stmts =>
      ⟨[], .block ((visitStmts ⟨[], false, false⟩ (scope :: scopes) false stmts).filter
        (!·.isNoop)), scope⟩
  | .ifStmt cond body otherwise =>
      let body := (visitStmts ⟨[], false, false⟩ (scope :: scopes) false body).filter (!·.isNoop)
      let v := visitStmt scope scopes hasPrevious otherwise
      ⟨v.added, .ifStmt cond body v.stmt, v.scope⟩
  | .whileStmt cond body =>
      ⟨[], .whileStmt cond ((visitStmts ⟨[], false, true⟩ (scope :: scopes) false body).filter
        (!·.isNoop)), scope⟩
  | .switchStmt cond cases =>
      let v := visitCases scope scopes hasPrevious [] cases
      ⟨v.1, .switchStmt cond v.2.1, v.2.2⟩
  | .breakStmt =>
      ⟨breakExpressions (scope :: scopes), .breakStmt, { scope with isSealed := true }⟩
  | .continueStmt =>
      ⟨breakExpressions (scope :: scopes), .continueStmt, { scope with isSealed := true }⟩
  | .returnStmt expr =>
      ⟨returnExpressions (scope :: scopes), .returnStmt expr, { scope with isSealed := true }⟩
  | .funcDecl body =>
      ⟨[], .funcDecl ((visitStmts ⟨[], false, false⟩ (scope :: scopes) false body).filter
        (!·.isNoop)), scope⟩

/-- The bodies of the cases, one after the other. Source: `visitor.c` `astVisitManyNodes`. -/
def visitCases (scope : BlockScope) (scopes : List BlockScope) (hasPrevious : Bool)
    (added : List Stmt) : List Stmt → List Stmt × List Stmt × BlockScope
  | [] => (added, [], scope)
  | body :: cases =>
      let v := visitStmt scope scopes hasPrevious body
      let r := visitCases v.scope scopes hasPrevious
        (astModifierAdd hasPrevious added v.added) cases
      (r.1, v.stmt :: r.2.1, r.2.2)

/-- The loop of `visitBlockStmt`, which stops once the scope is sealed. Source: `defer.c`
`visitBlockStmt`. -/
def visitStmts (scope : BlockScope) (scopes : List BlockScope) (hasPrevious : Bool) :
    List Stmt → List Stmt
  | [] => if blockScopeNeedsSealing scope then blockScopeSealIntoList scope else []
  | stmt :: stmts =>
      if scope.isSealed then stmt :: stmts
      else
        let v := visitStmt scope scopes hasPrevious stmt
        v.added ++ v.stmt :: visitStmts v.scope scopes true stmts

end

/-- Source: `defer.c` `visitBlockStmt`. -/
def visitBlock (isLoopBody : Bool) (scopes : List BlockScope) (stmts : List Stmt) : List Stmt :=
  (visitStmts ⟨[], false, isLoopBody⟩ scopes false stmts).filter (!·.isNoop)

/-- The body of a function of the program. Source: `defer.c` `simplifyDeferStatements`. -/
def simplifyDeferStatements (body : List Stmt) : List Stmt := visitBlock false [] body

/-! ## Execution -/

inductive Event where
  | expr (id : ℕ)
  | cond (id choice : ℕ)
  | enter
  | leave
  deriving DecidableEq, Repr

/-- How a path leaves a statement; `cut` where the choices end inside it. The expression of a
`return` is part of the outcome: it is not ordered with the deferred expressions. -/
inductive Outcome where
  | normal
  | brk
  | cont
  | ret (expr : Option ℕ)
  | cut
  deriving DecidableEq, Repr

/-- The events of a path, how it ends, and the choices not yet made. -/
structure Result where
  trace : List Event
  outcome : Outcome
  choices : List ℕ
  deriving DecidableEq, Repr

def Result.after (trace : List Event) (r : Result) : Result := { r with trace := trace ++ r.trace }

/-- The action is executed however the path has ended. Where it ends otherwise than normally, that
is how the path goes on. -/
def Result.andThen (r : Result) (action : List ℕ → Result) : Result :=
  if r.outcome = .cut then r
  else
    let s := action r.choices
    ⟨r.trace ++ s.trace, if s.outcome = .normal then r.outcome else s.outcome, s.choices⟩

structure Run extends Result where
  /-- What the path has deferred in the enclosing block. -/
  deferred : List (List ℕ → Result)

def Run.of (r : Result) : Run := ⟨r, []⟩

def Run.after (trace : List Event) (r : Run) : Run := { r with toResult := r.toResult.after trace }

/-- Leaving a block runs what the path has deferred in it, the last first. -/
def Run.leave (r : Run) : Result := r.deferred.foldr (fun action s => s.andThen action) r.toResult

def execLoop (cond : ℕ) (body : List ℕ → Result) : ℕ → List ℕ → Result
  | 0, choices => ⟨[], .cut, choices⟩
  | _ + 1, [] => ⟨[], .cut, []⟩
  | n + 1, k :: choices =>
      if k = 0 then ⟨[.cond cond 0], .normal, choices⟩
      else
        let r := body choices
        match r.outcome with
        | .normal | .cont => (execLoop cond body n r.choices).after (.cond cond k :: r.trace)
        | .brk => ⟨.cond cond k :: r.trace, .normal, r.choices⟩
        | .ret _ | .cut => r.after [.cond cond k]

/-- A call of a function, where the path has one. -/
def execCall (r : Result) : Result :=
  match r.outcome with
  | .cut => ⟨.enter :: r.trace, .cut, r.choices⟩
  | _ => ⟨.enter :: r.trace ++ [.leave], .normal, r.choices⟩

mutual

/-- A condition or a switch takes a choice; a loop one each time round. A path through the
declaration of a function may call it. -/
def exec (live : Bool) : Stmt → List ℕ → Run
  | .noop, choices => .of ⟨[], .normal, choices⟩
  | .expr id, choices => .of ⟨[.expr id], .normal, choices⟩
  | .deferStmt stmt, choices =>
      ⟨⟨[], .normal, choices⟩, if live then [fun choices => (exec live stmt choices).toResult]
        else []⟩
  | .block stmts, choices => .of (execStmts live stmts choices).leave
  | .ifStmt _ _ _, [] => .of ⟨[], .cut, []⟩
  | .ifStmt cond body otherwise, k :: choices =>
      if k = 0 then (exec live otherwise choices).after [.cond cond 0]
      else .of ((execStmts live body choices).leave.after [.cond cond k])
  | .whileStmt cond body, choices =>
      .of (execLoop cond (fun choices => (execStmts live body choices).leave) (choices.length + 1)
        choices)
  | .switchStmt _ _, [] => .of ⟨[], .cut, []⟩
  | .switchStmt cond cases, k :: choices =>
      (execCase live cases k choices).after [.cond cond k]
  | .breakStmt, choices => .of ⟨[], .brk, choices⟩
  | .continueStmt, choices => .of ⟨[], .cont, choices⟩
  | .returnStmt expr, choices => .of ⟨[], .ret expr, choices⟩
  | .funcDecl _, [] => .of ⟨[], .cut, []⟩
  | .funcDecl body, k :: choices =>
      if k = 0 then .of ⟨[], .normal, choices⟩
      else .of (execCall (execStmts live body choices).leave)

/-- The chosen case; none where the choice is past the last one. -/
def execCase (live : Bool) : List Stmt → ℕ → List ℕ → Run
  | [], _, choices => .of ⟨[], .normal, choices⟩
  | body :: _, 0, choices => exec live body choices
  | _ :: cases, k + 1, choices => execCase live cases k choices

def execStmts (live : Bool) : List Stmt → List ℕ → Run
  | [], choices => .of ⟨[], .normal, choices⟩
  | stmt :: stmts, choices =>
      let r := exec live stmt choices
      match r.outcome with
      | .normal =>
          let r' := execStmts live stmts r.choices
          ⟨r'.toResult.after r.trace, r.deferred ++ r'.deferred⟩
      | _ => r

end

/-- A block along a path. -/
def run (live : Bool) (stmts : List Stmt) (choices : List ℕ) : Result :=
  (execStmts live stmts choices).leave

end CxyCompiler.Middle.Defer
