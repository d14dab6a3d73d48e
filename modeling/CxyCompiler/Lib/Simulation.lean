import Mathlib.Data.List.Basic

/-!
# Simulation of an abstract machine by a concrete one

A machine takes one operation at a time and returns a new state with an answer, or nothing where the
operation is not defined there.

* `runWith` — the run of a machine over a list of operations, with its answers.
* `Agrees` — one result of the concrete machine agrees with one of the abstract machine: both are
  undefined, or the answers are the same and the states are related.
* `allBefore` — a condition that each operation of a run meets in the state it is made in.
* `run_agrees` — **steps that agree under a condition give runs that agree under it**.
* `run_agrees_iff` — where a step without the condition does not agree, **the condition is exactly
  that every first part of a run agrees**.
* `run_simulates` — the same for an abstract machine whose steps are a relation.
-/

namespace CxyCompiler.Lib.Simulation

variable {σ τ ι ρ : Type}

def runWith (step : σ → ι → Option (σ × ρ)) : σ → List ι → Option (σ × List ρ)
  | s, [] => some (s, [])
  | s, i :: is => do
      let (s, r) ← step s i
      let (s, rs) ← runWith step s is
      some (s, r :: rs)

/-- The results of two machines agree up to a relation between their states. -/
def Agrees {ρ : Type} (rel : σ → τ → Prop) (concrete : Option (σ × ρ)) (abstract : Option (τ × ρ)) :
    Prop :=
  match abstract with
  | none => concrete = none
  | some (a, r) => ∃ s, concrete = some (s, r) ∧ rel s a

/-- Every operation of the run meets the condition in the state it is made in. -/
def allBefore (step : σ → ι → Option (σ × ρ)) (cond : σ → ι → Bool) : σ → List ι → Bool
  | _, [] => true
  | s, i :: is => cond s i &&
      match step s i with
      | some (s', _) => allBefore step cond s' is
      | none => true

variable {step : σ → ι → Option (σ × ρ)} {spec : τ → ι → Option (τ × ρ)} {cond : σ → ι → Bool}
  {rel : σ → τ → Prop}

theorem Agrees.mono {rel' : σ → τ → Prop} {concrete : Option (σ × ρ)} {abstract : Option (τ × ρ)}
    (h : Agrees rel concrete abstract) (himp : ∀ s a, rel s a → rel' s a) :
    Agrees rel' concrete abstract := by
  cases abstract with
  | none => exact h
  | some q =>
      obtain ⟨s, hs, hrel⟩ := h
      exact ⟨s, hs, himp _ _ hrel⟩

/-- The condition on a run is one on each of its first parts. Kind: L -/
theorem allBefore_append (pre post : List ι) :
    ∀ s, allBefore step cond s (pre ++ post) = true → allBefore step cond s pre = true := by
  induction pre with
  | nil => intro s _; rfl
  | cons i pre ih =>
      intro s h
      rw [List.cons_append, allBefore, Bool.and_eq_true] at h
      rw [allBefore, Bool.and_eq_true]
      refine ⟨h.1, ?_⟩
      cases hstep : step s i with
      | none => rfl
      | some p =>
          rw [hstep] at h
          exact ih p.1 h.2

/-- **Steps that agree give runs that agree.** Kind: P -/
theorem run_agrees
    (hstep : ∀ s a i, rel s a → cond s i = true → Agrees rel (step s i) (spec a i))
    (is : List ι) : ∀ s a, rel s a → allBefore step cond s is = true →
      Agrees rel (runWith step s is) (runWith spec a is) := by
  induction is with
  | nil => intro s a hrel _; exact ⟨s, rfl, hrel⟩
  | cons i is ih =>
      intro s a hrel hcond
      rw [allBefore, Bool.and_eq_true] at hcond
      have hone := hstep s a i hrel hcond.1
      unfold runWith
      cases hspec : spec a i with
      | none =>
          rw [hspec] at hone
          change step s i = none at hone
          rw [hone]
          rfl
      | some q =>
          obtain ⟨a', r⟩ := q
          rw [hspec] at hone
          obtain ⟨s', hs', hrel'⟩ := hone
          rw [hs'] at hcond
          have hrest := ih s' a' hrel' hcond.2
          rw [hs']
          simp only [Option.bind_eq_bind, Option.bind_some]
          cases hruns : runWith spec a' is with
          | none =>
              rw [hruns] at hrest
              change runWith step s' is = none at hrest
              rw [hrest]
              rfl
          | some q =>
              rw [hruns] at hrest
              obtain ⟨s'', hs'', hrel''⟩ := hrest
              rw [hs'']
              exact ⟨s'', rfl, hrel''⟩

/-- A run of one operation agrees exactly where the operation does. Kind: L -/
theorem agrees_run_one {s : σ} {a : τ} {i : ι} :
    Agrees rel (runWith step s [i]) (runWith spec a [i]) ↔ Agrees rel (step s i) (spec a i) := by
  unfold runWith runWith
  rcases spec a i with _ | ⟨a', r⟩ <;> rcases step s i with _ | ⟨s', r'⟩ <;> simp [Agrees]

/-- What a run does after its first operation. Kind: L -/
theorem agrees_run_cons {s s' : σ} {a a' : τ} {i : ι} {r : ρ} {is : List ι}
    (hs : step s i = some (s', r)) (ha : spec a i = some (a', r)) :
    Agrees rel (runWith step s (i :: is)) (runWith spec a (i :: is)) ↔
      Agrees rel (runWith step s' is) (runWith spec a' is) := by
  rw [runWith, runWith, hs, ha]
  simp only [Option.bind_eq_bind, Option.bind_some]
  rcases runWith spec a' is with _ | ⟨a'', rs⟩ <;> rcases runWith step s' is with _ | ⟨s'', rs'⟩ <;>
    simp [Agrees]

/-- **Every first part of a run agrees exactly where each of its steps meets the condition**: the
states are related by an invariant that implies `rel`, a step that meets the condition keeps it, and
one that does not meet it does not agree.
Kind: P -/
theorem run_agrees_iff {inv : σ → τ → Prop} (hrel : ∀ s a, inv s a → rel s a)
    (hstep : ∀ s a i, inv s a → cond s i = true → Agrees inv (step s i) (spec a i))
    (hfail : ∀ s a i, inv s a → cond s i = false → ¬ Agrees rel (step s i) (spec a i))
    (is : List ι) : ∀ s a, inv s a →
      ((∀ pre, pre <+: is → Agrees rel (runWith step s pre) (runWith spec a pre)) ↔
        allBefore step cond s is = true) := by
  intro s a hinv
  constructor
  · induction is generalizing s a with
    | nil => intro _; rfl
    | cons i is ih =>
        intro hall
        have hone := agrees_run_one.mp (hall [i] (List.prefix_append [i] is))
        have hcond : cond s i = true := by
          by_contra hno
          exact hfail s a i hinv (by simpa using hno) hone
        have hkeep := hstep s a i hinv hcond
        rw [allBefore, hcond, Bool.true_and]
        cases hspec : spec a i with
        | none =>
            rw [hspec] at hkeep
            change step s i = none at hkeep
            rw [hkeep]
        | some q =>
            rw [hspec] at hkeep
            obtain ⟨s', hs', hinv'⟩ := hkeep
            rw [hs']
            refine ih s' q.1 hinv' fun pre hpre => ?_
            have hrun := hall (i :: pre) ((List.prefix_cons_inj i).mpr hpre)
            exact (agrees_run_cons hs' hspec).mp hrun
  · rintro hall pre ⟨post, rfl⟩
    exact (run_agrees hstep pre s a hinv (allBefore_append pre post s hall)).mono hrel

/-- A run of an abstract machine whose steps are a relation. -/
def Steps (spec : τ → ι → τ → Prop) : τ → List ι → τ → Prop
  | a, [], a' => a' = a
  | a, i :: is, a' => ∃ b, spec a i b ∧ Steps spec b is a'

/-- **Steps that simulate a relation under a condition give runs that do so.** Kind: P -/
theorem run_simulates {step : σ → ι → Option (σ × ρ)} {cond : σ → ι → Bool}
    {spec : τ → ι → τ → Prop} {inv : σ → τ → Prop}
    (hstep : ∀ s a i, inv s a → cond s i = true →
      ∃ s' r a', step s i = some (s', r) ∧ spec a i a' ∧ inv s' a')
    (is : List ι) : ∀ s a, inv s a → allBefore step cond s is = true →
      ∃ s' rs a', runWith step s is = some (s', rs) ∧ Steps spec a is a' ∧ inv s' a' := by
  induction is with
  | nil => intro s a hinv _; exact ⟨s, [], a, rfl, rfl, hinv⟩
  | cons i is ih =>
      intro s a hinv hcond
      rw [allBefore, Bool.and_eq_true] at hcond
      obtain ⟨s', r, a', hs', hspec, hinv'⟩ := hstep s a i hinv hcond.1
      rw [hs'] at hcond
      obtain ⟨s'', rs, a'', hrun, hsteps, hinv''⟩ := ih s' a' hinv' hcond.2
      refine ⟨s'', r :: rs, a'', ?_, ⟨a', hspec, hsteps⟩, hinv''⟩
      rw [runWith, hs']
      simp only [Option.bind_eq_bind, Option.bind_some, hrun]

end CxyCompiler.Lib.Simulation
