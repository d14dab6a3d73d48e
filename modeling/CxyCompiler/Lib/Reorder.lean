import Mathlib.Data.List.Perm.Basic
import CxyCompiler.Lib.Runs

/-!
# Steps that may change places

Two events of a machine are independent if it does not matter which of them happens first. Then a
run may be put in another order.

* `Independent` — in any state, one and then the other is the other and then the one.
* `run_perm` — a run of events that are independent of one another, in any order.
* `run_partition` — events of one kind can all happen before those of the other kind.
* **`run_reorder`** — where events of one kind are independent of all others, any order that keeps
  the order of the other kind leads to the same state.
-/

namespace CxyCompiler.Lib.Runs

variable {σ ι : Type} {step : σ → ι → Option σ}

def Independent (step : σ → ι → Option σ) (i j : ι) : Prop :=
  ∀ s, (step s i).bind (step · j) = (step s j).bind (step · i)

theorem Independent.symm {i j : ι} (h : Independent step i j) : Independent step j i :=
  fun s => (h s).symm

theorem run_append (is js : List ι) : ∀ s,
    run step s (is ++ js) = (run step s is).bind fun t => run step t js := by
  induction is with
  | nil => exact fun s => rfl
  | cons i is ih =>
      intro s
      have hcons : ∀ ks, run step s (i :: ks) = (step s i).bind fun t => run step t ks :=
        fun _ => rfl
      rw [List.cons_append, hcons, hcons, Option.bind_assoc]
      exact Option.bind_congr fun t _ => ih t

/-- Two runs with the same first event. Kind: L -/
theorem run_congr {is js : List ι} (h : ∀ s, run step s is = run step s js) (i : ι) (s : σ) :
    run step s (i :: is) = run step s (i :: js) := Option.bind_congr fun t _ => h t

/-- The first two events change places. Kind: L -/
theorem run_swap {i j : ι} (h : Independent step i j) (is : List ι) (s : σ) :
    run step s (i :: j :: is) = run step s (j :: i :: is) := by
  have hpair : ∀ a b, run step s (a :: b :: is) =
      ((step s a).bind (step · b)).bind fun t => run step t is := by
    intro a b
    rw [Option.bind_assoc]
    rfl
  rw [hpair, hpair, h s]

/-- **Events that are independent of one another happen in any order.** Kind: P -/
theorem run_perm {is js : List ι} (h : is.Perm js)
    (hall : ∀ i ∈ is, ∀ j ∈ is, i ≠ j → Independent step i j) : ∀ s,
      run step s is = run step s js := by
  induction h with
  | nil => exact fun s => rfl
  | cons i h ih =>
      refine run_congr (ih fun a ha b hb => ?_) i
      exact hall a (List.mem_cons_of_mem _ ha) b (List.mem_cons_of_mem _ hb)
  | swap i j is =>
      intro s
      by_cases heq : j = i
      · rw [heq]
      · apply run_swap
        exact hall j (List.mem_cons_self ..) i (List.mem_cons_of_mem _ (List.mem_cons_self ..)) heq
  | trans h₁ h₂ ih₁ ih₂ =>
      intro s
      rw [ih₁ hall, ih₂]
      exact fun a ha b hb => hall a (h₁.mem_iff.mpr ha) b (h₁.mem_iff.mpr hb)

/-- An event moves behind those it is independent of. Kind: L -/
theorem run_move {i : ι} {is : List ι} (h : ∀ j ∈ is, Independent step i j) (js : List ι) :
    ∀ s, run step s (i :: (is ++ js)) = run step s (is ++ i :: js) := by
  induction is with
  | nil => exact fun s => rfl
  | cons j is ih =>
      obtain ⟨hj, his⟩ := List.forall_mem_cons.mp h
      intro s
      rw [List.cons_append, run_swap hj, List.cons_append]
      exact run_congr (ih his) j s

/-- **Events of one kind come first**, where they are independent of those of the other kind.
Kind: P -/
theorem run_partition (p : ι → Bool) (is : List ι)
    (h : ∀ i ∈ is, ∀ j ∈ is, p i = true → p j = false → Independent step i j) :
    ∀ s, run step s is = run step s (is.filter p ++ is.filter fun i => !p i) := by
  induction is with
  | nil => exact fun s => rfl
  | cons i is ih =>
      have his := ih fun a ha b hb => h a (List.mem_cons_of_mem _ ha) b (List.mem_cons_of_mem _ hb)
      intro s
      rw [run_congr his i s]
      cases hi : p i with
      | true =>
          rw [List.filter_cons_of_pos hi, List.filter_cons_of_neg (by rw [hi]; decide)]
          rfl
      | false =>
          rw [List.filter_cons_of_neg (by rw [hi]; decide),
            List.filter_cons_of_pos (by rw [hi]; rfl)]
          apply run_move
          intro j hj
          obtain ⟨hmem, hp⟩ := List.mem_filter.mp hj
          exact (h j (List.mem_cons_of_mem _ hmem) i (List.mem_cons_self ..) hp hi).symm

/-- **An order that keeps the events of the second kind in order leads to the same state**, where
the events of the first kind are independent of all others. Kind: P -/
theorem run_reorder (p : ι → Bool) {is js : List ι} (hperm : is.Perm js)
    (hrest : (is.filter fun i => !p i) = js.filter fun i => !p i)
    (h : ∀ i ∈ is, ∀ j ∈ is, p i = true → i ≠ j → Independent step i j) (s : σ) :
    run step s is = run step s js := by
  have hne : ∀ {i j : ι}, p i = true → p j = false → i ≠ j := by
    intro i j hi hj heq
    rw [heq, hj] at hi
    cases hi
  have hfirst : ∀ t, run step t (is.filter p) = run step t (js.filter p) := by
    refine run_perm (hperm.filter p) fun i hi j hj => ?_
    obtain ⟨hi, hpi⟩ := List.mem_filter.mp hi
    exact h i hi j (List.mem_filter.mp hj).1 hpi
  rw [run_partition p is fun i hi j hj hpi hpj => h i hi j hj hpi (hne hpi hpj),
    run_partition p js fun i hi j hj hpi hpj =>
      h i (hperm.mem_iff.mpr hi) j (hperm.mem_iff.mpr hj) hpi (hne hpi hpj),
    run_append, run_append, hfirst, hrest]

end CxyCompiler.Lib.Runs
