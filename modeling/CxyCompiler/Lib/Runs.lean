import Mathlib.Data.List.Basic

/-!
# Invariants along the runs of a machine

A machine takes one event at a time where it is enabled, and a run is a list of events.

* `run` — the state after a run.
* `AllMeet` — a condition that each event of a run meets in the state it happens in.
* `inv_of_run` — **an invariant that each step keeps under a condition holds after each run whose
  steps meet it**.
* `run_property_iff` — where a step without the condition breaks a property, **the condition is
  exactly that the property holds in every state of the run**.
-/

namespace CxyCompiler.Lib.Runs

variable {σ ι : Type} {step : σ → ι → Option σ} {cond : σ → ι → Prop} {inv prop : σ → Prop}

def run (step : σ → ι → Option σ) : σ → List ι → Option σ
  | s, [] => some s
  | s, i :: is => (step s i).bind fun s' => run step s' is

def AllMeet (step : σ → ι → Option σ) (cond : σ → ι → Prop) : σ → List ι → Prop
  | _, [] => True
  | s, i :: is => ∀ s', step s i = some s' → cond s i ∧ AllMeet step cond s' is

/-- The first step of a run, and the rest. Kind: L -/
theorem run_cons {s s' : σ} {i : ι} {is : List ι} :
    run step s (i :: is) = some s' ↔ ∃ t, step s i = some t ∧ run step t is = some s' :=
  Option.bind_eq_some_iff

/-- The condition on a run whose first step is known. Kind: L -/
theorem allMeet_cons {s s' : σ} {i : ι} {is : List ι} (h : step s i = some s') (hi : cond s i)
    (his : AllMeet step cond s' is) : AllMeet step cond s (i :: is) := by
  intro t ht
  rw [h] at ht
  cases ht
  exact ⟨hi, his⟩

/-- **An invariant of the steps is one of the runs.** Kind: P -/
theorem inv_of_run (hstep : ∀ s i s', inv s → cond s i → step s i = some s' → inv s')
    (is : List ι) : ∀ s s', inv s → AllMeet step cond s is → run step s is = some s' → inv s' := by
  induction is with
  | nil =>
      intro s s' hinv _ hrun
      cases hrun
      exact hinv
  | cons i is ih =>
      intro s s' hinv hall hrun
      obtain ⟨t, ht, hrest⟩ := run_cons.mp hrun
      obtain ⟨hi, hall'⟩ := hall t ht
      exact ih t s' (hstep s i t hinv hi ht) hall' hrest

/-- An invariant that every step keeps. Kind: L -/
theorem inv_of_every_run (hstep : ∀ s i s', inv s → step s i = some s' → inv s') (is : List ι)
    {s s' : σ} (hinv : inv s) (hrun : run step s is = some s') : inv s' := by
  have hall : ∀ (is : List ι) (s : σ), AllMeet step (fun _ _ => True) s is := by
    intro is
    induction is with
    | nil => exact fun _ => trivial
    | cons i is ih => exact fun s t _ => ⟨trivial, ih t⟩
  exact inv_of_run (fun s i t h _ ht => hstep s i t h ht) is s s' hinv (hall is s) hrun

/-- A condition on a run is one on its first parts. Kind: L -/
theorem AllMeet.of_prefix {pre is : List ι} (hpre : pre <+: is) : ∀ {s : σ},
    AllMeet step cond s is → AllMeet step cond s pre := by
  obtain ⟨post, rfl⟩ := hpre
  induction pre with
  | nil => intro s _; trivial
  | cons i pre ih =>
      intro s h t ht
      obtain ⟨hi, hrest⟩ := h t ht
      exact ⟨hi, ih hrest⟩

/-- **Every state of a run has the property exactly where each step meets the condition.**
Kind: P -/
theorem run_property_iff (hprop : ∀ s, inv s → prop s)
    (hstep : ∀ s i s', inv s → cond s i → step s i = some s' → inv s')
    (hfail : ∀ s i s', inv s → ¬ cond s i → step s i = some s' → ¬ prop s')
    (is : List ι) : ∀ s, inv s →
      ((∀ pre s', pre <+: is → run step s pre = some s' → prop s') ↔ AllMeet step cond s is) := by
  intro s hinv
  constructor
  · induction is generalizing s with
    | nil => intro _; trivial
    | cons i is ih =>
        intro hall t ht
        have hprop' : prop t := by
          refine hall [i] t (List.prefix_append [i] is) ?_
          rw [run_cons]
          exact ⟨t, ht, rfl⟩
        have hi : cond s i := by
          by_contra hno
          exact hfail s i t hinv hno ht hprop'
        refine ⟨hi, ih t (hstep s i t hinv hi ht) fun pre s' hpre hrun => ?_⟩
        refine hall (i :: pre) s' ((List.prefix_cons_inj i).mpr hpre) ?_
        rw [run_cons]
        exact ⟨t, ht, hrun⟩
  · intro hall pre s' hpre hrun
    exact hprop s' (inv_of_run hstep pre s s' hinv (hall.of_prefix hpre) hrun)

end CxyCompiler.Lib.Runs
