import CxyCompiler.Middle.Defer

/-!
# Lowering `defer` preserves the paths

The scope of a deferred statement is the innermost block, a `return` of a nested function takes the
scopes of the enclosing one with it, and a deferred statement is not visited. The pass is right
where none of it shows:

* `Context`, `okStmts` — what the enclosing scopes have deferred, and the condition: a case body
  that is not a block defers nothing and leaves the block only where nothing is deferred, a nested
  function returns only where the enclosing one has deferred nothing, and a deferred statement
  defers nothing, leaves no loop around it and returns only if nothing is deferred before it.
* `quietStmts` — the pass has nothing to do.
* `Tame` — statements that the pass may put in front of an exit.
* `visitStmt_exec`, `visitStmts_exec` — a lowered statement takes the same path, and then runs what
  the scopes it leaves have deferred.
* `simplifyDeferStatements_run` — **a lowered function body has the paths of the body.**
-/

namespace CxyCompiler.Middle.Defer

/-! ## The condition -/

/-- What the scopes around a statement have deferred. -/
structure Context where
  /-- In some scope. -/
  pending : Bool
  /-- In some scope up to the body of the innermost loop. -/
  loopPending : Bool
  /-- In some scope of an enclosing function. -/
  outerPending : Bool
  /-- In a loop of this function. -/
  inLoop : Bool

mutual

/-- There is nothing to lower in the statement. -/
def quietStmt (c : Context) : Stmt → Bool
  | .noop | .expr _ => true
  | .deferStmt _ => false
  | .block stmts => quietStmts c stmts
  | .ifStmt _ body otherwise => quietStmts c body && quietStmt c otherwise
  | .whileStmt _ body => quietStmts { c with loopPending := false, inLoop := true } body
  | .switchStmt _ cases => quietStmts c cases
  | .breakStmt | .continueStmt => c.inLoop && !c.loopPending
  | .returnStmt _ => !c.pending && !c.outerPending
  | .funcDecl body => quietStmts ⟨false, false, false, false⟩ body

def quietStmts (c : Context) : List Stmt → Bool
  | [] => true
  | stmt :: stmts => quietStmt c stmt && quietStmts c stmts

end

mutual

/-- The visit of the statement seals the scope it stands in. -/
def exits : Stmt → Bool
  | .breakStmt | .continueStmt | .returnStmt _ => true
  | .ifStmt _ _ otherwise => exits otherwise
  | .switchStmt _ cases => exitsCases cases
  | _ => false

def exitsCases : List Stmt → Bool
  | [] => false
  | body :: cases => exits body || exitsCases cases

end

/-- The condition on a deferred statement: it stands in no loop, and what is deferred before it
would be lost with a `return`. -/
def okDeferred (c : Context) (stmt : Stmt) : Bool :=
  quietStmt { c with loopPending := false, inLoop := false } stmt

mutual

/-- The condition on a statement that is not the direct child of a block. -/
def okStmt (c : Context) : Stmt → Bool
  | .noop | .expr _ => true
  | .deferStmt _ => false
  | .block stmts => okStmts c stmts
  | .ifStmt _ body otherwise => okStmts c body && okStmt c otherwise
  | .whileStmt _ body => okStmts { c with loopPending := false, inLoop := true } body
  | .switchStmt _ cases => okCases c cases
  | .breakStmt | .continueStmt => c.inLoop && !c.loopPending
  | .returnStmt _ => !c.pending && !c.outerPending
  | .funcDecl body => okStmts { c with outerPending := c.pending, inLoop := false } body

def okCases (c : Context) : List Stmt → Bool
  | [] => true
  | body :: cases => okStmt c body && okCases c cases

/-- **The condition on the statements of a block.** What stands after a `break`, a `continue` or a
`return` is never reached. -/
def okStmts (c : Context) : List Stmt → Bool
  | [] => true
  | .deferStmt stmt :: stmts =>
      okDeferred c stmt && okStmts { c with pending := true, loopPending := true } stmts
  | .breakStmt :: _ | .continueStmt :: _ => c.inLoop
  | .returnStmt _ :: _ => !c.outerPending
  | stmt :: stmts =>
      okStmt c stmt && if exits stmt then quietStmts c stmts else okStmts c stmts

end

/-- The body of a function that is not nested in another. -/
def okBody (body : List Stmt) : Bool := okStmts ⟨false, false, false, false⟩ body

/-! ## Results -/

/-- A path leaves with a `return`, or with a `break` or a `continue`, only if it may. -/
def Outcome.Allowed (ret brk : Prop) : Outcome → Prop
  | .normal | .cut => True
  | .brk | .cont => brk
  | .ret _ => ret

/-- The deferred statements are executed however the path has ended, the first first. -/
def Result.runs (r : Result) (stmts : List Stmt) : Result :=
  stmts.foldl (fun r stmt => r.andThen fun choices => (exec true stmt choices).toResult) r

section results

variable {ret brk ret' brk' : Prop} {r : Result} {stmts stmts' : List Stmt}

/-- More outcomes may be allowed. Kind: L -/
theorem Outcome.Allowed.mono {o : Outcome} (h : o.Allowed ret brk) (hret : ret → ret')
    (hbrk : brk → brk') : o.Allowed ret' brk' := by
  cases o <;> first | trivial | exact hret h | exact hbrk h

@[simp] theorem Result.after_nil (r : Result) : r.after [] = r := rfl

@[simp] theorem Result.after_after (r : Result) (t t' : List Event) :
    (r.after t').after t = r.after (t ++ t') := by
  simp [Result.after]

/-- A trace in front stays in front. Kind: L -/
theorem Result.andThen_after (t : List Event) (action : List ℕ → Result) :
    (r.after t).andThen action = (r.andThen action).after t := by
  unfold andThen
  by_cases hcut : r.outcome = .cut
  · rw [if_pos hcut, if_pos (show (r.after t).outcome = .cut from hcut)]
  · rw [if_neg hcut, if_neg (show (r.after t).outcome ≠ .cut from hcut)]
    simp only [after, List.append_assoc]
    rfl

/-- Behind a run that was cut off nothing happens. Kind: L -/
theorem Result.andThen_cut (h : r.outcome = .cut) (action : List ℕ → Result) :
    r.andThen action = r := if_pos h

@[simp] theorem Result.runs_nil : r.runs [] = r := rfl

theorem Result.runs_cons {stmt : Stmt} : r.runs (stmt :: stmts) =
    (r.andThen fun choices => (exec true stmt choices).toResult).runs stmts := rfl

/-- Deferred statements run one list after the other. Kind: L -/
theorem Result.runs_append : r.runs (stmts ++ stmts') = (r.runs stmts).runs stmts' :=
  List.foldl_append

/-- A trace in front of the deferred statements stays there. Kind: L -/
theorem Result.runs_after (t : List Event) : (r.after t).runs stmts = (r.runs stmts).after t := by
  induction stmts generalizing r with
  | nil => rfl
  | cons stmt stmts ih => rw [runs_cons, runs_cons, andThen_after, ih]

/-- Where a run was cut off, nothing deferred runs. Kind: L -/
theorem Result.runs_cut (h : r.outcome = .cut) : r.runs stmts = r := by
  induction stmts with
  | nil => rfl
  | cons stmt stmts ih => rw [runs_cons, andThen_cut h, ih]

/-- A block runs what is deferred later first. Kind: L -/
theorem Run.leave_defer (r : Run) (stmt : Stmt) :
    Run.leave ⟨r.toResult, (fun choices => (exec true stmt choices).toResult) :: r.deferred⟩ =
      r.leave.runs [stmt] := rfl

/-- A scope without deferred statements is left at once. Kind: L -/
theorem Run.leave_of_deferred {r : Run} (h : r.deferred = []) : r.leave = r.toResult := by
  rw [Run.leave, h, List.foldr_nil]

theorem Run.eq_of_deferred {r : Run} (h : r.deferred = []) : r = .of r.toResult := by
  cases r with
  | mk result deferred =>
      obtain rfl : deferred = [] := h
      rfl

@[simp] theorem Run.leave_of : (Run.of r).leave = r := rfl

/-- A loop takes the `break` of its body. Kind: L -/
theorem execLoop_allowed {cond : ℕ} {body : List ℕ → Result}
    (hbody : ∀ choices, (body choices).outcome.Allowed ret brk) (n : ℕ) (choices : List ℕ) :
    (execLoop cond body n choices).outcome.Allowed ret False := by
  induction n generalizing choices with
  | zero => trivial
  | succ n ih =>
      match choices with
      | [] => trivial
      | k :: choices =>
          have hb := hbody choices
          unfold execLoop
          split_ifs
          · trivial
          · dsimp only
            split <;> rename_i ho <;> first
              | exact ih _
              | trivial
              | (rw [ho] at hb; simp only [Result.after, ho]; exact hb)

/-- No outcome of a deferred statement leaves it. Kind: L -/
theorem execCall_allowed (r : Result) : (execCall r).outcome.Allowed False False := by
  unfold execCall
  split <;> trivial

end results

/-! ## Quiet statements -/

/-- How a path may leave a statement that has nothing to lower. -/
def Context.quiet (c : Context) (o : Outcome) : Prop :=
  o.Allowed (c.pending = false ∧ c.outerPending = false) (c.inLoop = true ∧ c.loopPending = false)

/-- The statement runs alike before and after the pass. -/
structure QuietRun (c : Context) (lowered source : Run) : Prop where
  same : lowered = source
  deferred : source.deferred = []
  outcome : c.quiet source.outcome

mutual

/-- Quiet statements do the same before and after the pass, and defer nothing. Kind: L -/
theorem quietStmt_exec {c : Context} : ∀ {stmt : Stmt}, quietStmt c stmt = true →
    ∀ choices, QuietRun c (exec false stmt choices) (exec true stmt choices)
  | .noop, _, _ => ⟨rfl, rfl, trivial⟩
  | .expr _, _, _ => ⟨rfl, rfl, trivial⟩
  | .deferStmt _, h, _ => by simp [quietStmt] at h
  | .block stmts, h, choices => by
      rw [quietStmt] at h
      obtain ⟨hsame, hdef, hout⟩ := quietStmts_exec h choices
      refine ⟨?_, rfl, ?_⟩
      · simp only [exec, hsame]
      · simp only [exec, Run.leave_of_deferred hdef]
        exact hout
  | .ifStmt _ _ _, _, [] => ⟨rfl, rfl, trivial⟩
  | .ifStmt cond body otherwise, h, k :: choices => by
      rw [quietStmt, Bool.and_eq_true] at h
      obtain ⟨hsame, hdef, hout⟩ := quietStmts_exec h.1 choices
      obtain ⟨hsame', hdef', hout'⟩ := quietStmt_exec h.2 choices
      by_cases hk : k = 0
      · simp only [exec, if_pos hk, hsame']
        exact ⟨rfl, hdef', hout'⟩
      · simp only [exec, if_neg hk, hsame, Run.leave_of_deferred hdef]
        exact ⟨rfl, rfl, hout⟩
  | .whileStmt cond body, h, choices => by
      rw [quietStmt] at h
      have hbody := quietStmts_exec h
      refine ⟨?_, rfl, ?_⟩
      · simp only [exec, (hbody _).same]
      · have hallowed : ∀ choices, Context.quiet { c with loopPending := false, inLoop := true }
            (execStmts true body choices).leave.outcome := by
          intro choices
          rw [Run.leave_of_deferred (hbody choices).deferred]
          exact (hbody choices).outcome
        exact (execLoop_allowed hallowed _ _).mono id False.elim
  | .switchStmt _ _, _, [] => ⟨rfl, rfl, trivial⟩
  | .switchStmt cond cases, h, k :: choices => by
      rw [quietStmt] at h
      obtain ⟨hsame, hdef, hout⟩ := quietCases_exec h k choices
      simp only [exec, hsame]
      exact ⟨rfl, hdef, hout⟩
  | .breakStmt, h, _ => by
      refine ⟨rfl, rfl, ?_⟩
      show c.inLoop = true ∧ c.loopPending = false
      simpa [quietStmt] using h
  | .continueStmt, h, _ => by
      refine ⟨rfl, rfl, ?_⟩
      show c.inLoop = true ∧ c.loopPending = false
      simpa [quietStmt] using h
  | .returnStmt _, h, _ => by
      refine ⟨rfl, rfl, ?_⟩
      show c.pending = false ∧ c.outerPending = false
      simpa [quietStmt] using h
  | .funcDecl _, _, [] => ⟨rfl, rfl, trivial⟩
  | .funcDecl body, h, k :: choices => by
      rw [quietStmt] at h
      obtain ⟨hsame, -, -⟩ := quietStmts_exec h choices
      by_cases hk : k = 0
      · simp only [exec, if_pos hk]
        exact ⟨rfl, rfl, trivial⟩
      · simp only [exec, if_neg hk, hsame]
        exact ⟨rfl, rfl, (execCall_allowed _).mono False.elim False.elim⟩

/-- The cases of a quiet `switch`. Kind: L -/
theorem quietCases_exec {c : Context} : ∀ {cases : List Stmt}, quietStmts c cases = true →
    ∀ k choices, QuietRun c (execCase false cases k choices) (execCase true cases k choices)
  | [], _, _, _ => ⟨rfl, rfl, trivial⟩
  | body :: cases, h, 0, choices => by
      rw [quietStmts, Bool.and_eq_true] at h
      exact quietStmt_exec h.1 choices
  | body :: cases, h, k + 1, choices => by
      rw [quietStmts, Bool.and_eq_true] at h
      exact quietCases_exec h.2 k choices

/-- A list of quiet statements. Kind: L -/
theorem quietStmts_exec {c : Context} : ∀ {stmts : List Stmt}, quietStmts c stmts = true →
    ∀ choices, QuietRun c (execStmts false stmts choices) (execStmts true stmts choices)
  | [], _, _ => ⟨rfl, rfl, trivial⟩
  | stmt :: stmts, h, choices => by
      rw [quietStmts, Bool.and_eq_true] at h
      obtain ⟨hsame, hdef, hout⟩ := quietStmt_exec h.1 choices
      obtain ⟨hsame', hdef', hout'⟩ := quietStmts_exec h.2 (exec true stmt choices).choices
      simp only [execStmts, hsame, hsame']
      split
      · exact ⟨rfl, by simp [hdef, hdef'], hout'⟩
      · exact ⟨rfl, hdef, hout⟩

end

/-! ## Deferred statements -/

/-- A deferred statement runs alike before and after the pass, leaves no loop, and returns only if
it may. -/
structure Plain (ret : Prop) (stmt : Stmt) : Prop where
  same : ∀ choices, exec false stmt choices = .of (exec true stmt choices).toResult
  outcome : ∀ choices, (exec true stmt choices).outcome.Allowed ret False

/-- **Only the last of the statements may return**, so that each of them is executed. -/
def Tame : List Stmt → Prop
  | [] => True
  | stmt :: stmts => Plain (stmts = []) stmt ∧ Tame stmts

section deferred

variable {c : Context} {stmt : Stmt} {stmts stmts' : List Stmt} {r : Result}

/-- What may be deferred runs alike before and after the pass. Kind: L -/
theorem plain_of_okDeferred (h : okDeferred c stmt = true) :
    Plain (c.pending = false ∧ c.outerPending = false) stmt where
  same choices := by
    obtain ⟨hsame, hdef, -⟩ := quietStmt_exec h choices
    rw [hsame]
    exact Run.eq_of_deferred hdef
  outcome choices := (quietStmt_exec h choices).outcome.mono id fun hbrk =>
    Bool.false_ne_true hbrk.1

theorem Tame.left (h : Tame (stmts ++ stmts')) : Tame stmts := by
  induction stmts with
  | nil => trivial
  | cons stmt stmts ih =>
      refine ⟨⟨h.1.same, fun choices => (h.1.outcome choices).mono ?_ id⟩, ih h.2⟩
      intro hnil
      exact (List.append_eq_nil_iff.mp hnil).1

/-- How a path ends after the deferred statements: as it did, cut, or with a `return` of the last of
them all. Kind: L -/
theorem Result.runs_outcome (h : Tame (stmts ++ stmts')) :
    (r.runs stmts).outcome = r.outcome ∨ (r.runs stmts).outcome = .cut ∨
      ∃ expr, (r.runs stmts).outcome = .ret expr ∧ stmts' = [] := by
  induction stmts generalizing r with
  | nil => exact .inl rfl
  | cons stmt stmts ih =>
      rw [runs_cons]
      by_cases hcut : r.outcome = .cut
      · rw [andThen_cut hcut, runs_cut hcut]
        exact .inl rfl
      · have hout := h.1.outcome r.choices
        set s := r.andThen fun choices => (exec true stmt choices).toResult with hs
        have hso : s.outcome = if (exec true stmt r.choices).outcome = .normal then r.outcome
            else (exec true stmt r.choices).outcome := by
          rw [hs, andThen, if_neg hcut]
        cases ho : (exec true stmt r.choices).outcome with
        | normal =>
            rw [ho, if_pos rfl] at hso
            rw [← hso]
            exact ih h.2
        | cut =>
            rw [ho, if_neg (by simp)] at hso
            exact .inr (.inl ((congrArg Result.outcome (runs_cut hso)).trans hso))
        | brk | cont =>
            rw [ho] at hout
            exact hout.elim
        | ret expr =>
            rw [ho] at hout hso
            obtain ⟨rfl, rfl⟩ := List.append_eq_nil_iff.mp hout
            exact .inr (.inr ⟨expr, hso, rfl⟩)

/-- A deferred statement adds only its own outcomes. Kind: L -/
theorem Result.runs_allowed {ret ret' brk : Prop} (h : Plain ret stmt) (hret : ret → ret')
    (ho : r.outcome.Allowed ret' brk) : (r.runs [stmt]).outcome.Allowed ret' brk := by
  simp only [runs_cons, runs_nil, andThen]
  split_ifs with hcut hnormal
  · exact ho
  · exact ho
  · exact (h.outcome r.choices).mono hret False.elim

/-- The statements that are put in front of others are executed as if these had ended first.
Kind: L -/
theorem execStmts_tame {o : Outcome} (htame : Tame stmts) (ho : o ≠ .cut)
    (h : ∀ choices, execStmts false stmts' choices = .of ⟨[], o, choices⟩) (choices : List ℕ) :
    execStmts false (stmts ++ stmts') choices = .of (Result.runs ⟨[], o, choices⟩ stmts) := by
  induction stmts generalizing choices with
  | nil => exact h choices
  | cons stmt stmts ih =>
      have hout := htame.1.outcome choices
      set s := (exec true stmt choices).toResult with hs
      have hfirst : Result.andThen ⟨[], o, choices⟩ (fun choices =>
        (exec true stmt choices).toResult) =
          ⟨s.trace, if s.outcome = .normal then o else s.outcome, s.choices⟩ := if_neg ho
      simp only [List.cons_append, execStmts, htame.1.same, Result.runs_cons, hfirst, ← hs]
      cases hso : s.outcome with
      | normal =>
          simp only [Run.of, hso, ih htame.2, if_pos]
          rw [← Result.runs_after]
          simp [Result.after]
      | brk | cont =>
          rw [hso] at hout
          exact hout.elim
      | cut =>
          have hleft : (⟨s.trace, .cut, s.choices⟩ : Result) = s := by rw [← hso]
          simp only [Run.of, hso, reduceCtorEq, if_false, hleft, Result.runs_cut hso]
      | ret expr =>
          rw [hso] at hout
          obtain rfl : stmts = [] := hout
          have hleft : (⟨s.trace, .ret expr, s.choices⟩ : Result) = s := by rw [← hso]
          simp only [Run.of, hso, reduceCtorEq, if_false, hleft, Result.runs_nil]

end deferred

/-! ## What the scopes have deferred -/

/-- What a `return` has to run. -/
def returnPending : List BlockScope → List Stmt
  | [] => []
  | scope :: scopes => scope.data.reverse ++ returnPending scopes

/-- What a `break` or a `continue` has to run. -/
def breakPending : List BlockScope → List Stmt
  | [] => []
  | scope :: scopes =>
      scope.data.reverse ++ if scope.isLoopBody then [] else breakPending scopes

/-- A sealed scope has deferred nothing. -/
def Live (scopes : List BlockScope) : Prop :=
  ∀ scope ∈ scopes, scope.isSealed = true → scope.data = []

structure Context.Fits (c : Context) (scopes : List BlockScope) : Prop where
  live : Live scopes
  tame : Tame (returnPending scopes)
  pending : c.pending = false → returnPending scopes = []
  loopPending : c.loopPending = false → breakPending scopes = []

/-- Leaving the scopes around a block, where they are left. -/
def Result.exit (isLoopBody : Bool) (scopes : List BlockScope) (r : Result) : Result :=
  match r.outcome with
  | .normal | .cut => r
  | .brk | .cont => if isLoopBody then r else r.runs (breakPending scopes)
  | .ret _ => r.runs (returnPending scopes)

section scopes

variable {c : Context} {scope : BlockScope} {scopes : List BlockScope} {r : Result}

theorem Live.cons_iff : Live (scope :: scopes) ↔
    (scope.isSealed = true → scope.data = []) ∧ Live scopes := by
  simp [Live]

/-- A live scope adds its data to what an exit collects. Kind: L -/
theorem sealed_or_empty (h : scope.isSealed = true → scope.data = []) :
    (if blockScopeNeedsSealing scope then blockScopeSealIntoList scope else []) =
      scope.data.reverse := by
  unfold blockScopeNeedsSealing blockScopeSealIntoList
  cases hs : scope.isSealed with
  | true => simp [h hs]
  | false => cases scope.data <;> simp

/-- A `return` runs what every scope of the function has pending. Kind: L -/
theorem returnExpressions_eq (h : Live scopes) : returnExpressions scopes =
    returnPending scopes := by
  induction scopes with
  | nil => rfl
  | cons scope scopes ih =>
      obtain ⟨hscope, hscopes⟩ := Iff.mp Live.cons_iff h
      rw [returnExpressions, sealed_or_empty hscope, ih hscopes, returnPending]

/-- A `break` runs what the scopes up to the loop have pending. Kind: L -/
theorem breakExpressions_eq (h : Live scopes) : breakExpressions scopes = breakPending scopes := by
  induction scopes with
  | nil => rfl
  | cons scope scopes ih =>
      obtain ⟨hscope, hscopes⟩ := Iff.mp Live.cons_iff h
      rw [breakExpressions, sealed_or_empty hscope, ih hscopes, breakPending]
      split <;> simp [blockScopeSealIntoList]

/-- A `break` leaves the inner ones of the scopes that a `return` leaves. Kind: L -/
theorem breakPending_prefix (scopes : List BlockScope) :
    ∃ rest, returnPending scopes = breakPending scopes ++ rest := by
  induction scopes with
  | nil => exact ⟨[], rfl⟩
  | cons scope scopes ih =>
      obtain ⟨rest, hrest⟩ := ih
      cases hl : scope.isLoopBody with
      | true => exact ⟨returnPending scopes, by simp [returnPending, breakPending, hl]⟩
      | false => exact ⟨rest, by simp [returnPending, breakPending, hl, hrest]⟩

/-- Where nothing is pending for a `return`, nothing is for a `break`. Kind: L -/
theorem breakPending_nil (h : returnPending scopes = []) : breakPending scopes = [] := by
  obtain ⟨rest, hrest⟩ := breakPending_prefix scopes
  exact (List.append_eq_nil_iff.mp (hrest.symm.trans h)).1

theorem Context.Fits.tame_break (h : c.Fits scopes) : Tame (breakPending scopes) := by
  obtain ⟨rest, hrest⟩ := breakPending_prefix scopes
  exact Tame.left (hrest ▸ h.tame)

/-- A new scope has nothing pending. Kind: L -/
theorem Context.Fits.push (h : c.Fits scopes) : c.Fits (⟨[], false, false⟩ :: scopes) where
  live := Iff.mpr Live.cons_iff ⟨fun _ => rfl, h.live⟩
  tame := h.tame
  pending := h.pending
  loopPending := h.loopPending

/-- The body of a new loop inside the scopes. Kind: L -/
theorem Context.Fits.pushLoop (h : c.Fits scopes) :
    Context.Fits { c with loopPending := false, inLoop := true } (⟨[], false, true⟩ :: scopes) where
  live := Iff.mpr Live.cons_iff ⟨fun _ => rfl, h.live⟩
  tame := h.tame
  pending := h.pending
  loopPending _ := rfl

/-- A sealed scope that fits is as good as an open one. Kind: L -/
theorem Context.Fits.seal (h : c.Fits (scope :: scopes)) (hdata : scope.data = []) :
    c.Fits ({ scope with isSealed := true } :: scopes) where
  live := Iff.mpr Live.cons_iff ⟨fun _ => hdata, (Iff.mp Live.cons_iff h.live).2⟩
  tame := h.tame
  pending := h.pending
  loopPending := h.loopPending

/-- From a deferred statement on something is pending. Kind: L -/
theorem Context.Fits.defer (h : c.Fits (scope :: scopes)) (hopen : scope.isSealed = false)
    {stmt : Stmt} (hok : okDeferred c stmt = true) :
    Context.Fits { c with pending := true, loopPending := true }
      ({ scope with data := scope.data ++ [stmt] } :: scopes) where
  live := Iff.mpr Live.cons_iff ⟨fun hs => by simp [hopen] at hs, (Iff.mp Live.cons_iff h.live).2⟩
  tame := by
    have hplain := plain_of_okDeferred hok
    rw [returnPending, List.reverse_append, List.append_assoc]
    refine ⟨⟨hplain.same, fun choices => (hplain.outcome choices).mono (fun hret => ?_) id⟩, h.tame⟩
    exact h.pending hret.1
  pending hp := by simp at hp
  loopPending hp := by simp at hp

/-- What has left an open block otherwise than by its end leaves its scope and those around it.
Kind: L -/
theorem Result.exit_cons (h : c.Fits (scope :: scopes)) (ho : r.outcome ≠ .normal) :
    r.exit false (scope :: scopes) = (r.runs scope.data.reverse).exit scope.isLoopBody scopes := by
  have hrun := runs_outcome (r := r) h.tame
  cases hr : r.outcome with
  | normal => exact absurd hr ho
  | cut => simp [exit, hr, runs_cut hr]
  | brk | cont =>
      rw [hr] at hrun
      simp only [exit, hr, breakPending, runs_append, Bool.false_eq_true, if_false]
      obtain hs | hs | ⟨expr, hs, hnil⟩ := hrun
      · simp only [hs]
        cases scope.isLoopBody <;> simp
      · simp only [hs, runs_cut hs]
      · simp [hs, hnil, breakPending_nil hnil]
  | ret expr =>
      rw [hr] at hrun
      simp only [exit, hr, returnPending, runs_append]
      obtain hs | hs | ⟨expr, hs, hnil⟩ := hrun
      · simp only [hs]
      · simp only [hs, runs_cut hs]
      · simp [hs, hnil]

/-- At the end of an open block. Kind: L -/
theorem Result.exit_normal (h : c.Fits (scope :: scopes)) (ho : r.outcome = .normal) :
    (r.runs scope.data.reverse).exit scope.isLoopBody scopes = r.runs scope.data.reverse := by
  obtain hs | hs | ⟨expr, hs, hnil⟩ := runs_outcome (r := r) h.tame
  · simp [exit, hs, ho]
  · simp [exit, hs]
  · simp [exit, hs, hnil]

/-- Where nothing is deferred, the scopes are left without a trace. Kind: L -/
theorem Result.exit_quiet (h : c.Fits (scope :: scopes)) (ho : c.quiet r.outcome) :
    r.exit false (scope :: scopes) = r := by
  cases hr : r.outcome with
  | normal | cut => simp [exit, hr]
  | brk | cont =>
      rw [hr] at ho
      simp [exit, hr, h.loopPending ho.2]
  | ret expr =>
      rw [hr] at ho
      simp [exit, hr, h.pending ho.1]

/-- What ends a block early still does behind its deferred statements. Kind: L -/
theorem Result.exit_ne_normal (h : c.Fits (scope :: scopes)) (ho : r.outcome ≠ .normal) :
    (r.exit false (scope :: scopes)).outcome ≠ .normal := by
  have hruns : ∀ {stmts : List Stmt}, Tame stmts → (r.runs stmts).outcome ≠ .normal := by
    intro stmts htame
    obtain hs | hs | ⟨expr, hs, -⟩ := @runs_outcome stmts [] r
      (by rw [List.append_nil]; exact htame)
    · rwa [hs]
    · simp [hs]
    · simp [hs]
  unfold exit
  cases hr : r.outcome with
  | normal => exact absurd hr ho
  | cut => simp [hr]
  | brk | cont => exact hruns h.tame_break
  | ret expr => exact hruns h.tame

theorem Result.exit_after (isLoopBody : Bool) (t : List Event) :
    (r.after t).exit isLoopBody scopes = (r.exit isLoopBody scopes).after t := by
  unfold exit
  cases hr : r.outcome with
  | normal | cut => simp [after, hr]
  | brk | cont =>
      have hr' : (r.after t).outcome = _ := hr
      simp only [hr', runs_after]
      split <;> rfl
  | ret expr =>
      have hr' : (r.after t).outcome = _ := hr
      simp only [hr', runs_after]

/-- A loop runs what its body has deferred each time round, and what is deferred around it when a
`return` leaves it. Kind: L -/
theorem execLoop_exit {cond : ℕ} {body body' : List ℕ → Result} (h : c.Fits scopes)
    (hbody : ∀ choices, body' choices = (body choices).exit true scopes) (n : ℕ)
    (choices : List ℕ) :
    execLoop cond body' n choices = (execLoop cond body n choices).exit false scopes := by
  induction n generalizing choices with
  | zero => rfl
  | succ n ih =>
      match choices with
      | [] => rfl
      | k :: choices =>
          by_cases hk : k = 0
          · simp [execLoop, hk, Result.exit]
          · simp only [execLoop, if_neg hk, hbody]
            cases ho : (body choices).outcome with
            | normal | cont =>
                have hstay : (body choices).exit true scopes = body choices := by
                  simp [Result.exit, ho]
                simp only [hstay, ho, ih, Result.exit_after]
            | brk | cut => simp [Result.exit, Result.after, ho]
            | ret expr =>
                have hrun : ((body choices).runs (returnPending scopes)).outcome = _ ∨ _ ∨ _ :=
                  Result.runs_outcome (by rw [List.append_nil]; exact h.tame)
                rw [ho] at hrun
                have hleft : (body choices).exit true scopes =
                    (body choices).runs (returnPending scopes) := by simp [Result.exit, ho]
                have hleft' : ((body choices).after [.cond cond k]).exit false scopes =
                    ((body choices).runs (returnPending scopes)).after [.cond cond k] := by
                  rw [Result.exit_after]
                  simp [Result.exit, ho]
                obtain hs | hs | ⟨expr, hs, -⟩ := hrun <;> simp only [hleft, hleft', hs]

end scopes

/-! ## Lowered statements -/

/-- Statements that do nothing may be dropped. Kind: L -/
theorem execStmts_filter (live : Bool) (stmts : List Stmt) (choices : List ℕ) :
    execStmts live (stmts.filter (!·.isNoop)) choices = execStmts live stmts choices := by
  induction stmts generalizing choices with
  | nil => rfl
  | cons stmt stmts ih =>
      cases hn : stmt.isNoop with
      | true =>
          have hnoop : stmt = .noop := by
            cases stmt <;> simp_all [Stmt.isNoop]
          subst hnoop
          rw [List.filter_cons_of_neg (by simp [hn]), ih]
          rfl
      | false =>
          rw [List.filter_cons_of_pos (by simp [hn])]
          simp only [execStmts, ih]

/-- What a visit makes of a statement of a context that is not the direct child of a block. -/
structure LoweredStmt (c : Context) (scope : BlockScope) (scopes : List BlockScope) (stmt : Stmt)
    (v : Visit) : Prop where
  added : v.added = []
  scope_eq : v.scope = if exits stmt then { scope with isSealed := true } else scope
  data : exits stmt = true → scope.data = []
  exec_eq : ∀ choices, exec false v.stmt choices =
    .of ((exec true stmt choices).toResult.exit false (scope :: scopes))
  deferred : ∀ choices, (exec true stmt choices).deferred = []
  outcome : ∀ choices,
    (exec true stmt choices).outcome.Allowed (c.outerPending = false) (c.inLoop = true)

structure LoweredCases (c : Context) (scope : BlockScope) (scopes : List BlockScope)
    (cases : List Stmt) (v : List Stmt × List Stmt × BlockScope) : Prop where
  added : v.1 = []
  scope_eq : v.2.2 = if exitsCases cases then { scope with isSealed := true } else scope
  data : exitsCases cases = true → scope.data = []
  exec_eq : ∀ k choices, execCase false v.2.1 k choices =
    .of ((execCase true cases k choices).toResult.exit false (scope :: scopes))
  deferred : ∀ k choices, (execCase true cases k choices).deferred = []
  outcome : ∀ k choices,
    (execCase true cases k choices).outcome.Allowed (c.outerPending = false) (c.inLoop = true)

/-- **What the pass makes of the statements of a block**: the same path, and then what the path has
deferred in the block, what was deferred in it before, and what the scopes around it have that the
path leaves. -/
structure LoweredStmts (c : Context) (scope : BlockScope) (scopes : List BlockScope)
    (stmts lowered : List Stmt) : Prop where
  exec_eq : ∀ choices, execStmts false lowered choices =
    .of (((execStmts true stmts choices).leave.runs scope.data.reverse).exit scope.isLoopBody
      scopes)
  outcome : ∀ choices,
    (execStmts true stmts choices).leave.outcome.Allowed (c.outerPending = false) (c.inLoop = true)

section statements

variable {c : Context} {scope : BlockScope} {scopes : List BlockScope}
  {hasPrevious isLoopBody : Bool}
  {stmt : Stmt} {stmts cases body lowered : List Stmt}

/-- A lowered body runs as the body with what it defers at its end. Kind: L -/
theorem LoweredStmts.run (h : LoweredStmts c ⟨[], false, isLoopBody⟩ scopes stmts lowered)
    (choices : List ℕ) : (execStmts false (lowered.filter (!·.isNoop)) choices).leave =
      (execStmts true stmts choices).leave.exit isLoopBody scopes := by
  rw [execStmts_filter, h.exec_eq]
  rfl

/-- A statement that leaves the block is the last to run. Kind: L -/
theorem execStmts_left {live : Bool} {choices : List ℕ}
    (ho : (exec live stmt choices).outcome ≠ .normal) :
    execStmts live (stmt :: stmts) choices = exec live stmt choices := by
  rw [execStmts]
  split
  · next h => exact absurd h ho
  · rfl

/-- Behind a statement that ends normally the others run. Kind: L -/
theorem execStmts_normal {live : Bool} {choices : List ℕ} {r : Result}
    (hexec : exec live stmt choices = .of r) (ho : r.outcome = .normal) :
    execStmts live (stmt :: stmts) choices = (execStmts live stmts r.choices).after r.trace := by
  rw [execStmts, hexec]
  simp only [Run.of, ho]
  rfl

theorem Run.leave_after (r : Run) (t : List Event) : (r.after t).leave = r.leave.after t := by
  obtain ⟨r, deferred⟩ := r
  induction deferred with
  | nil => rfl
  | cons action deferred ih =>
      have hstep : ∀ s : Result,
        Run.leave ⟨s, action :: deferred⟩ = (Run.leave ⟨s, deferred⟩).andThen action :=
        fun _ => rfl
      rw [Run.after, hstep, hstep, ← Result.andThen_after, ← ih]
      rfl

/-- Statements behind an exit that the pass does not visit. Kind: L -/
theorem lowered_untouched (hfits : c.Fits (scope :: scopes)) (hdata : scope.data = [])
    (hquiet : quietStmts c stmts = true) : LoweredStmts c scope scopes stmts stmts := by
  have hrun := quietStmts_exec hquiet
  have hleft : ∀ choices, (execStmts true stmts choices).leave =
    (execStmts true stmts choices).toResult :=
    fun choices => Run.leave_of_deferred (hrun choices).deferred
  constructor
  · intro choices
    have hexit := Result.exit_quiet hfits (hrun choices).outcome
    by_cases ho : (execStmts true stmts choices).outcome = .normal
    · rw [hleft, Result.exit_normal hfits ho, hdata, (hrun choices).same]
      exact Run.eq_of_deferred (hrun choices).deferred
    · rw [Result.exit_cons hfits ho] at hexit
      rw [hleft, hexit, (hrun choices).same]
      exact Run.eq_of_deferred (hrun choices).deferred
  · intro choices
    rw [hleft]
    exact (hrun choices).outcome.mono And.right And.left

/-- An exit that is not the direct child of a block, where nothing is deferred. Kind: L -/
theorem lowered_exit {o : Outcome} (hexits : exits stmt = true)
    (hexec : ∀ live choices, exec live stmt choices = .of ⟨[], o, choices⟩)
    (hfits : c.Fits (scope :: scopes)) (hquiet : c.quiet o) (hdata : scope.data = []) :
    LoweredStmt c scope scopes stmt ⟨[], stmt, { scope with isSealed := true }⟩ where
  added := rfl
  scope_eq := by rw [if_pos hexits]
  data _ := hdata
  exec_eq choices := by
    rw [hexec, hexec]
    exact congrArg Run.of (Result.exit_quiet hfits hquiet).symm
  deferred choices := by rw [hexec]; rfl
  outcome choices := by
    rw [hexec]
    exact hquiet.mono And.right And.left

/-- A statement of the path that leaves nothing and seals nothing. Kind: L -/
theorem lowered_simple {stmt' : Stmt} (hexits : exits stmt = false)
    (hexec : ∀ choices, exec false stmt' choices =
      .of ((exec true stmt choices).toResult.exit false (scope :: scopes)))
    (hdeferred : ∀ choices, (exec true stmt choices).deferred = [])
    (ho : ∀ choices,
      (exec true stmt choices).outcome.Allowed (c.outerPending = false) (c.inLoop = true)) :
    LoweredStmt c scope scopes stmt ⟨[], stmt', scope⟩ where
  added := rfl
  scope_eq := by simp [hexits]
  data h := by simp [hexits] at h
  exec_eq := hexec
  deferred := hdeferred
  outcome := ho

/-- At a `break` nothing is pending up to the loop. Kind: L -/
theorem lowered_break (hfits : c.Fits (scope :: scopes))
    (hok : (c.inLoop && !c.loopPending) = true) :
    breakExpressions (scope :: scopes) = [] ∧ scope.data = [] ∧ c.quiet .brk := by
  simp only [Bool.and_eq_true, Bool.not_eq_true'] at hok
  have hpending := hfits.loopPending hok.2
  refine ⟨(breakExpressions_eq hfits.live).trans hpending, ?_, hok⟩
  simpa using (List.append_eq_nil_iff.mp hpending).1

/-- At a `return` nothing is pending in the function. Kind: L -/
theorem lowered_return (hfits : c.Fits (scope :: scopes))
    (hok : (!c.pending && !c.outerPending) = true) (expr : Option ℕ) :
    returnExpressions (scope :: scopes) = [] ∧ scope.data = [] ∧ c.quiet (.ret expr) := by
  simp only [Bool.and_eq_true, Bool.not_eq_true'] at hok
  have hpending := hfits.pending hok.1
  refine ⟨(returnExpressions_eq hfits.live).trans hpending, ?_, hok⟩
  simpa using (List.append_eq_nil_iff.mp hpending).1

/-- A block, from its statements. Kind: L -/
theorem lowered_block (hbody : LoweredStmts c ⟨[], false, false⟩ (scope :: scopes) body lowered) :
    LoweredStmt c scope scopes (.block body) ⟨[], .block (lowered.filter (!·.isNoop)), scope⟩ := by
  refine lowered_simple rfl ?_ (fun _ => rfl) hbody.outcome
  intro choices
  rw [exec, exec, hbody.run]
  rfl

/-- An `if`, from its body and its `else`. Kind: L -/
theorem lowered_if {cond : ℕ} {otherwise : Stmt} {v : Visit}
    (hbody : LoweredStmts c ⟨[], false, false⟩ (scope :: scopes) body lowered)
    (hother : LoweredStmt c scope scopes otherwise v) :
    LoweredStmt c scope scopes (.ifStmt cond body otherwise)
      ⟨v.added, .ifStmt cond (lowered.filter (!·.isNoop)) v.stmt, v.scope⟩ where
  added := hother.added
  scope_eq := hother.scope_eq
  data := hother.data
  exec_eq choices := by
    match choices with
    | [] => rfl
    | k :: choices =>
        by_cases hk : k = 0
        · simp only [exec, if_pos hk, hother.exec_eq]
          exact congrArg Run.of (Result.exit_after _ _).symm
        · simp only [exec, if_neg hk, hbody.run]
          exact congrArg Run.of (Result.exit_after _ _).symm
  deferred choices := by
    match choices with
    | [] => rfl
    | k :: choices =>
        by_cases hk : k = 0
        · simp only [exec, if_pos hk]
          exact hother.deferred choices
        · simp only [exec, if_neg hk]
          rfl
  outcome choices := by
    match choices with
    | [] => trivial
    | k :: choices =>
        by_cases hk : k = 0
        · simp only [exec, if_pos hk]
          exact hother.outcome choices
        · simp only [exec, if_neg hk]
          exact hbody.outcome choices

/-- A loop, from its body in a context with nothing pending for the loop. Kind: L -/
theorem lowered_while {cond : ℕ} (hfits : c.Fits (scope :: scopes))
    (hbody : LoweredStmts { c with loopPending := false, inLoop := true } ⟨[], false, true⟩
      (scope :: scopes) body lowered) :
    LoweredStmt c scope scopes (.whileStmt cond body)
      ⟨[], .whileStmt cond (lowered.filter (!·.isNoop)), scope⟩ := by
  refine lowered_simple rfl ?_ (fun _ => rfl) ?_
  · intro choices
    exact congrArg Run.of (execLoop_exit hfits hbody.run _ _)
  · intro choices
    exact (execLoop_allowed hbody.outcome _ _).mono id False.elim

/-- A `switch`, from its cases. Kind: L -/
theorem lowered_switch {cond : ℕ} {v : List Stmt × List Stmt × BlockScope}
    (hcases : LoweredCases c scope scopes cases v) :
    LoweredStmt c scope scopes (.switchStmt cond cases) ⟨v.1, .switchStmt cond v.2.1, v.2.2⟩ where
  added := hcases.added
  scope_eq := hcases.scope_eq
  data := hcases.data
  exec_eq choices := by
    match choices with
    | [] => rfl
    | k :: choices =>
        simp only [exec, hcases.exec_eq]
        exact congrArg Run.of (Result.exit_after _ _).symm
  deferred choices := by
    match choices with
    | [] => rfl
    | k :: choices => exact hcases.deferred k choices
  outcome choices := by
    match choices with
    | [] => trivial
    | k :: choices => exact hcases.outcome k choices

/-- A nested function leaves nothing to the enclosing one. Kind: L -/
theorem lowered_func (hfits : c.Fits (scope :: scopes))
    (hbody : LoweredStmts { c with outerPending := c.pending, inLoop := false } ⟨[], false, false⟩
      (scope :: scopes) body lowered) :
    LoweredStmt c scope scopes (.funcDecl body)
      ⟨[], .funcDecl (lowered.filter (!·.isNoop)), scope⟩ := by
  have hrun : ∀ choices, (execStmts false (lowered.filter (!·.isNoop)) choices).leave =
      (execStmts true body choices).leave := by
    intro choices
    have hout := hbody.outcome choices
    rw [hbody.run, Result.exit]
    cases ho : (execStmts true body choices).leave.outcome with
    | normal | cut => rfl
    | brk | cont =>
        rw [ho] at hout
        exact absurd hout (by simp [Outcome.Allowed])
    | ret expr =>
        rw [ho] at hout
        simp [hfits.pending hout]
  refine lowered_simple rfl ?_ ?_ ?_
  · intro choices
    match choices with
    | [] => rfl
    | k :: choices =>
        simp only [exec, hrun]
        split_ifs
        · rfl
        · have hcall := execCall_allowed (execStmts true body choices).leave
          refine congrArg Run.of (Result.exit_quiet hfits ?_).symm
          exact hcall.mono False.elim False.elim
  · intro choices
    match choices with
    | [] => rfl
    | k :: choices =>
        simp only [exec]
        split_ifs <;> rfl
  · intro choices
    match choices with
    | [] => trivial
    | k :: choices =>
        simp only [exec]
        split_ifs
        · trivial
        · exact (execCall_allowed _).mono False.elim False.elim

theorem lowered_nil_case : LoweredCases c scope scopes [] ([], [], scope) where
  added := rfl
  scope_eq := rfl
  data h := by simp [exitsCases] at h
  exec_eq k choices := rfl
  deferred _ _ := rfl
  outcome _ _ := trivial

/-- After a case that has sealed the scope, the next one finds nothing deferred in it. Kind: L -/
theorem lowered_cons_case {body : Stmt} {v : Visit}
    {r : List Stmt × List Stmt × BlockScope} (hbody : LoweredStmt c scope scopes body v)
    (hcases : LoweredCases c v.scope scopes cases r) :
    LoweredCases c scope scopes (body :: cases) (r.1, v.stmt :: r.2.1, r.2.2) := by
  have hdata : v.scope.data = scope.data := by
    rw [hbody.scope_eq]
    split <;> rfl
  have hexit : Result.exit false (v.scope :: scopes) = Result.exit false (scope :: scopes) := by
    funext r
    rw [hbody.scope_eq]
    split <;> rfl
  constructor
  · exact hcases.added
  · rw [hcases.scope_eq, hbody.scope_eq]
    cases hb : exits body <;> cases hc : exitsCases cases <;> simp [exitsCases, hb, hc]
  · intro h
    rcases Bool.or_eq_true_iff.mp h with h | h
    · exact hbody.data h
    · rw [← hdata]
      exact hcases.data h
  · intro k choices
    match k with
    | 0 => exact hbody.exec_eq choices
    | k + 1 =>
        rw [← hexit]
        exact hcases.exec_eq k choices
  · intro k choices
    match k with
    | 0 => exact hbody.deferred choices
    | k + 1 => exact hcases.deferred k choices
  · intro k choices
    match k with
    | 0 => exact hbody.outcome choices
    | k + 1 => exact hcases.outcome k choices

/-- At the end of a block what it has deferred is added. Kind: L -/
theorem lowered_nil (hfits : c.Fits (scope :: scopes)) :
    LoweredStmts c scope scopes [] (visitStmts scope scopes hasPrevious []) := by
  constructor
  · intro choices
    have hadded : visitStmts scope scopes hasPrevious [] = scope.data.reverse ++ [] := by
      rw [List.append_nil, ← sealed_or_empty (Iff.mp Live.cons_iff hfits.live).1, visitStmts]
    rw [hadded, execStmts_tame (Tame.left hfits.tame) (o := .normal) nofun fun _ => rfl]
    exact congrArg Run.of (Result.exit_normal hfits rfl).symm
  · intro choices
    trivial

/-- A deferred statement moves into the scope that it stands in. Kind: L -/
theorem lowered_defer
    (hstmts : LoweredStmts { c with pending := true, loopPending := true }
      { scope with data := scope.data ++ [stmt] } scopes stmts
      (visitStmts { scope with data := scope.data ++ [stmt] } scopes true stmts))
    (hok : okDeferred c stmt = true) (hopen : scope.isSealed = false) :
    LoweredStmts c scope scopes (.deferStmt stmt :: stmts)
      (visitStmts scope scopes hasPrevious (.deferStmt stmt :: stmts)) := by
  have hleave : ∀ choices, (execStmts true (.deferStmt stmt :: stmts) choices).leave =
      (execStmts true stmts choices).leave.runs [stmt] := fun choices =>
    Run.leave_defer (execStmts true stmts choices) stmt
  constructor
  · intro choices
    have h := hstmts.exec_eq choices
    rw [hleave, ← Result.runs_append]
    simp only [visitStmts, hopen, Bool.false_eq_true, if_false, visitStmt, List.nil_append,
      List.reverse_append] at h ⊢
    exact h
  · intro choices
    rw [hleave]
    exact Result.runs_allowed (plain_of_okDeferred hok) And.right (hstmts.outcome choices)

/-- An exit among the statements of a block: what follows is not visited. Kind: L -/
theorem lowered_direct_exit {o : Outcome} (hfits : c.Fits (scope :: scopes))
    (hopen : scope.isSealed = false) {added : List Stmt}
    (hvisit : visitStmt scope scopes hasPrevious stmt =
      ⟨added, stmt, { scope with isSealed := true }⟩)
    (hexec : ∀ live choices, exec live stmt choices = .of ⟨[], o, choices⟩)
    (hne : o ≠ .normal) (hcut : o ≠ .cut) (htame : Tame added)
    (hadded : ∀ choices, Result.runs ⟨[], o, choices⟩ added =
      Result.exit false (scope :: scopes) ⟨[], o, choices⟩)
    (ho : o.Allowed (c.outerPending = false) (c.inLoop = true)) :
    LoweredStmts c scope scopes (stmt :: stmts)
      (visitStmts scope scopes hasPrevious (stmt :: stmts)) := by
  have hsource : ∀ live stmts choices, execStmts live (stmt :: stmts) choices =
      .of ⟨[], o, choices⟩ := by
    intro live stmts choices
    simp only [execStmts, hexec]
    cases o <;> first | exact absurd rfl hne | rfl
  constructor
  · intro choices
    have hseal : visitStmts scope scopes hasPrevious (stmt :: stmts) = added ++ stmt ::
        visitStmts { scope with isSealed := true } scopes true stmts := by
      simp only [visitStmts, hopen, Bool.false_eq_true, if_false, hvisit]
    rw [hseal, execStmts_tame htame hcut (hsource false _), hsource, Run.leave_of, hadded,
      Result.exit_cons hfits hne]
  · intro choices
    rw [hsource]
    exact ho

/-- A statement and those behind it, which are dropped where it exits. Kind: L -/
theorem lowered_cons (hfits : c.Fits (scope :: scopes)) (hopen : scope.isSealed = false)
    (hok : (okStmt c stmt && if exits stmt then quietStmts c stmts else okStmts c stmts) = true)
    (hvisit : okStmt c stmt = true →
      LoweredStmt c scope scopes stmt (visitStmt scope scopes hasPrevious stmt))
    (hstmts : okStmts c stmts = true →
      LoweredStmts c scope scopes stmts (visitStmts scope scopes true stmts)) :
    LoweredStmts c scope scopes (stmt :: stmts)
      (visitStmts scope scopes hasPrevious (stmt :: stmts)) := by
  rw [Bool.and_eq_true] at hok
  obtain ⟨hokStmt, hokRest⟩ := hok
  have hstmt := hvisit hokStmt
  -- what the statements after the first one do
  have hrest : LoweredStmts c scope scopes stmts
      (visitStmts (visitStmt scope scopes hasPrevious stmt).scope scopes true stmts) := by
    rw [hstmt.scope_eq]
    cases he : exits stmt with
    | false => exact hstmts (by simpa [he] using hokRest)
    | true =>
        have hquiet : quietStmts c stmts = true := by simpa [he] using hokRest
        have huntouched : visitStmts { scope with isSealed := true } scopes true stmts = stmts := by
          cases stmts <;> simp [visitStmts, blockScopeNeedsSealing]
        rw [if_pos rfl, huntouched]
        exact lowered_untouched hfits (hstmt.data he) hquiet
  -- the visit puts nothing in front of the first one
  have hlowered : visitStmts scope scopes hasPrevious (stmt :: stmts) =
      (visitStmt scope scopes hasPrevious stmt).stmt ::
        visitStmts (visitStmt scope scopes hasPrevious stmt).scope scopes true stmts := by
    simp only [visitStmts, hopen, Bool.false_eq_true, if_false, hstmt.added, List.nil_append]
  have hleft : ∀ choices, (exec true stmt choices).leave = (exec true stmt choices).toResult :=
    fun choices => Run.leave_of_deferred (hstmt.deferred choices)
  constructor
  · intro choices
    rw [hlowered]
    by_cases ho : (exec true stmt choices).outcome = .normal
    · have hexec : exec false (visitStmt scope scopes hasPrevious stmt).stmt choices =
          .of (exec true stmt choices).toResult := by
        rw [hstmt.exec_eq, Result.exit, ho]
      rw [execStmts_normal hexec ho,
        execStmts_normal (Run.eq_of_deferred (hstmt.deferred choices)) ho,
        hrest.exec_eq]
      simp only [Run.leave_after, Result.runs_after, Result.exit_after]
      rfl
    · have hne : ((exec true stmt choices).toResult.exit false (scope :: scopes)).outcome ≠
        .normal :=
        Result.exit_ne_normal hfits ho
      rw [execStmts_left (by rw [hstmt.exec_eq]; exact hne),
        hstmt.exec_eq, execStmts_left ho, hleft,
        Result.exit_cons hfits ho]
  · intro choices
    by_cases ho : (exec true stmt choices).outcome = .normal
    · rw [execStmts_normal (Run.eq_of_deferred (hstmt.deferred choices)) ho, Run.leave_after]
      exact hrest.outcome _
    · rw [execStmts_left ho, hleft]
      exact hstmt.outcome choices

end statements

mutual

/-- **One statement: what the pass makes of it runs as the statement did.** Kind: L -/
theorem visitStmt_exec {c : Context} {scope : BlockScope} {scopes : List BlockScope}
    (hfits : c.Fits (scope :: scopes)) (hasPrevious : Bool) :
    ∀ {stmt : Stmt}, okStmt c stmt = true →
      LoweredStmt c scope scopes stmt (visitStmt scope scopes hasPrevious stmt)
  | .noop, _ => lowered_simple rfl (fun _ => rfl) (fun _ => rfl) fun _ => trivial
  | .expr _, _ => lowered_simple rfl (fun _ => rfl) (fun _ => rfl) fun _ => trivial
  | .deferStmt _, hok => by simp [okStmt] at hok
  | .block body, hok => by
      rw [okStmt] at hok
      exact lowered_block (visitStmts_exec hfits.push rfl false hok)
  | .ifStmt cond body otherwise, hok => by
      rw [okStmt, Bool.and_eq_true] at hok
      exact lowered_if (visitStmts_exec hfits.push rfl false hok.1)
        (visitStmt_exec hfits hasPrevious hok.2)
  | .whileStmt cond body, hok => by
      rw [okStmt] at hok
      exact lowered_while hfits (visitStmts_exec hfits.pushLoop rfl false hok)
  | .switchStmt cond cases, hok => by
      rw [okStmt] at hok
      exact lowered_switch (visitCases_exec hfits hasPrevious hok)
  | .breakStmt, hok => by
      obtain ⟨hnone, hdata, hquiet⟩ := lowered_break hfits hok
      simp only [visitStmt, hnone]
      exact lowered_exit rfl (fun _ _ => rfl) hfits hquiet hdata
  | .continueStmt, hok => by
      obtain ⟨hnone, hdata, hquiet⟩ := lowered_break hfits hok
      simp only [visitStmt, hnone]
      exact lowered_exit (o := .cont) rfl (fun _ _ => rfl) hfits hquiet hdata
  | .returnStmt expr, hok => by
      obtain ⟨hnone, hdata, hquiet⟩ := lowered_return hfits hok expr
      simp only [visitStmt, hnone]
      exact lowered_exit rfl (fun _ _ => rfl) hfits hquiet hdata
  | .funcDecl body, hok => by
      rw [okStmt] at hok
      have hinner : Context.Fits { c with outerPending := c.pending, inLoop := false }
          (⟨[], false, false⟩ :: scope :: scopes) :=
        ⟨hfits.push.live, hfits.push.tame, hfits.push.pending, hfits.push.loopPending⟩
      exact lowered_func hfits (visitStmts_exec hinner rfl false hok)

/-- The cases of a `switch`, one after the other. Kind: L -/
theorem visitCases_exec {c : Context} {scope : BlockScope} {scopes : List BlockScope}
    (hfits : c.Fits (scope :: scopes)) (hasPrevious : Bool) :
    ∀ {cases : List Stmt}, okCases c cases = true →
      LoweredCases c scope scopes cases (visitCases scope scopes hasPrevious [] cases)
  | [], _ => lowered_nil_case
  | body :: cases, hok => by
      rw [okCases, Bool.and_eq_true] at hok
      have hbody := visitStmt_exec hfits hasPrevious hok.1
      have hfits' : c.Fits ((visitStmt scope scopes hasPrevious body).scope :: scopes) := by
        rw [hbody.scope_eq]
        split_ifs with hexits
        · exact hfits.seal (hbody.data hexits)
        · exact hfits
      have hcases := visitCases_exec hfits' hasPrevious hok.2
      have hadd : astModifierAdd hasPrevious []
          (visitStmt scope scopes hasPrevious body).added = [] := by
        rw [hbody.added]
        rfl
      simp only [visitCases, hadd]
      exact lowered_cons_case hbody hcases

/-- The statements of a block, in order. Kind: L -/
theorem visitStmts_exec {c : Context} {scope : BlockScope} {scopes : List BlockScope}
    (hfits : c.Fits (scope :: scopes)) (hopen : scope.isSealed = false) (hasPrevious : Bool) :
    ∀ {stmts : List Stmt}, okStmts c stmts = true →
      LoweredStmts c scope scopes stmts (visitStmts scope scopes hasPrevious stmts)
  | [], _ => lowered_nil hfits
  | .deferStmt stmt :: stmts, hok => by
      rw [okStmts, Bool.and_eq_true] at hok
      exact lowered_defer (visitStmts_exec (hfits.defer hopen hok.1) hopen true hok.2) hok.1 hopen
  | .breakStmt :: stmts, hok =>
      lowered_direct_exit hfits hopen rfl (fun _ _ => rfl) nofun nofun
        (breakExpressions_eq hfits.live ▸ hfits.tame_break)
        (fun _ => by rw [breakExpressions_eq hfits.live]; rfl) hok
  | .continueStmt :: stmts, hok =>
      lowered_direct_exit (o := .cont) hfits hopen rfl (fun _ _ => rfl) nofun nofun
        (breakExpressions_eq hfits.live ▸ hfits.tame_break)
        (fun _ => by rw [breakExpressions_eq hfits.live]; rfl) hok
  | .returnStmt expr :: stmts, hok => by
      have houter : c.outerPending = false := by simpa [okStmts] using hok
      exact lowered_direct_exit (o := .ret expr) hfits hopen rfl (fun _ _ => rfl) nofun nofun
        (returnExpressions_eq hfits.live ▸ hfits.tame)
        (fun _ => by rw [returnExpressions_eq hfits.live]; rfl) houter
  | .noop :: stmts, hok => lowered_cons hfits hopen hok (visitStmt_exec hfits hasPrevious)
      (visitStmts_exec hfits hopen true)
  | .expr _ :: stmts, hok => lowered_cons hfits hopen hok (visitStmt_exec hfits hasPrevious)
      (visitStmts_exec hfits hopen true)
  | .block _ :: stmts, hok => lowered_cons hfits hopen hok (visitStmt_exec hfits hasPrevious)
      (visitStmts_exec hfits hopen true)
  | .ifStmt _ _ _ :: stmts, hok => lowered_cons hfits hopen hok (visitStmt_exec hfits hasPrevious)
      (visitStmts_exec hfits hopen true)
  | .whileStmt _ _ :: stmts, hok => lowered_cons hfits hopen hok (visitStmt_exec hfits hasPrevious)
      (visitStmts_exec hfits hopen true)
  | .switchStmt _ _ :: stmts, hok => lowered_cons hfits hopen hok (visitStmt_exec hfits hasPrevious)
      (visitStmts_exec hfits hopen true)
  | .funcDecl _ :: stmts, hok => lowered_cons hfits hopen hok (visitStmt_exec hfits hasPrevious)
      (visitStmts_exec hfits hopen true)

end

-- a block that is deferred loses what it defers itself, and a `return` in it what is deferred
-- before
example :
    let body : List Stmt := [.deferStmt (.expr 1),
      .deferStmt (.block [.deferStmt (.expr 2), .returnStmt none])]
    (run true body []).trace = [.expr 2, .expr 1] ∧
      (run false (simplifyDeferStatements body) []).trace = [] := by
  decide

end CxyCompiler.Middle.Defer
