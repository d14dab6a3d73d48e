import CxyCompiler.Core.Hmap

/-!
# Runs of the Robin Hood map refine a finite map

A run is a sequence of `hmapPut`, `hmapRemove` and `hmapGet` on one table. Its abstract state maps a
key to the element last put with an equal key and not since removed.

* `specStep`, `finiteMap` — the abstract state of a run.
* `Refines t m` — what an observer of the table sees of the map `m`.
* `Inv t m` — **the run invariant**; `step_inv` is the step lemma and `run_inv` the run lemma.
* `run_refines_map` — **every state of a run refines its finite map**, where each `put` of a live
  key finds it the first of its home. `put_again_duplicates` is a run that does not.
-/

namespace CxyCompiler.Core.RobinHoodMap

open CxyCompiler.Lib.Probing CxyCompiler.Lib.RobinHood

inductive Op (α : Type) where
  | put (elem : α)
  | remove (elem : α)
  | get (elem : α)

section

variable {α : Type} (hash : α → ℕ) (equal : α → α → Bool)

def step (fuel : ℕ) (t : Hmap α) : Op α → Option (Hmap α)
  | .put x => (hmapPut hash equal fuel t x).map (·.1)
  | .remove x => hmapRemove hash equal fuel t x
  | .get x => (hmapGet hash equal t x).map fun _ => t

def run (fuel : ℕ) (t : Hmap α) (ops : List (Op α)) : Option (Hmap α) :=
  ops.foldlM (step hash equal fuel) t

/-- The abstract effect of an operation. -/
def specStep (m : α → Option α) : Op α → α → Option α
  | .put x => fun y => if equal x y then some x else m y
  | .remove x => fun y => if equal x y then none else m y
  | .get _ => m

/-- The element last put with an equal key and not since removed. -/
def finiteMap (ops : List (Op α)) : α → Option α := ops.foldl (specStep equal) fun _ => none

/-- A `put` of a live key finds it the first of its home. -/
def putsFirst (t : Hmap α) : Op α → Bool
  | .put x => firstOfHome equal t x
  | _ => true

/-- Every `put` of the run meets `putsFirst` in the state it is made in. -/
def allPutsFirst (fuel : ℕ) (t : Hmap α) : List (Op α) → Bool
  | [] => true
  | op :: ops => putsFirst equal t op &&
      match step hash equal fuel t op with
      | some t' => allPutsFirst fuel t' ops
      | none => true

/-- The table shows the finite map `m`: lookups return its elements, no two slots hold equal keys,
and `nitems` is the number of its keys up to `equal`. -/
structure Refines (t : Hmap α) (m : α → Option α) : Prop where
  get : ∀ x, hmapGet hash equal t x = some (m x)
  distinct : ∀ i < t.nslots, ∀ j < t.nslots, i ≠ j → ∀ e f, t.data i = some e → t.data j = some f →
    equal e.elem f.elem = false
  nitems : ∃ keys : List α, keys.length = t.nitems ∧ keys.Pairwise (Unequal equal) ∧
    ∀ x, (m x).isSome = true ↔ ∃ k ∈ keys, equal k x = true

/-- **The run invariant.** -/
structure Inv (t : Hmap α) (m : α → Option α) : Prop where
  wf : Wf hash equal t
  roomy : Roomy t
  lookup : ∀ x y, m x = some y ↔ y ∈ elems t ∧ equal y x = true

variable {hash equal} {t : Hmap α} {m : α → Option α}

theorem create_inv (capacity : ℕ) :
    Inv hash equal (hmapCreateWithCapacity (α := α) capacity) (fun _ => none) where
  wf := create_wf capacity
  roomy := create_roomy capacity
  lookup := by simp [elems, items, hmapCreateWithCapacity, contents]

/-- No element of the table is equal to `x`, so `x` has no element. Kind: L -/
theorem Inv.lookup_none (h : Inv hash equal t m) {x : α} (hno : ∀ y ∈ elems t, equal y x = false) :
    m x = none := by
  cases hm : m x with
  | none => rfl
  | some y =>
      obtain ⟨hy, hyx⟩ := (h.lookup x y).mp hm
      simp [hno y hy] at hyx

theorem Inv.put (hc : HashConsistent hash equal) (h : Inv hash equal t m) {x : α}
    (hfirst : firstOfHome equal t x = true) (fuel : ℕ) :
    ∃ t', step hash equal (fuel + 2) t (.put x) = some t' ∧
      Inv hash equal t' (specStep equal m (.put x)) := by
  obtain ⟨t', i, added, hput, hwf, hroom, hcases⟩ := hmapPut_spec hc h.wf h.roomy hfirst fuel
  refine ⟨t', by simp [step, hput], hwf, hroom, fun y z => ?_⟩
  -- the elements of the new table are `x` and those of the old one not equal to it
  have hmem : ∀ z, z ∈ elems t' ↔ z = x ∨ z ∈ elems t ∧ equal z x = false := by
    intro z
    rcases hcases with ⟨hnew, hperm⟩ | ⟨y, others, hyx, hout, hin⟩
    · rw [hperm.mem_iff, List.mem_cons]
      exact or_congr_right ⟨fun hz => ⟨hz, hnew z hz⟩, And.left⟩
    · rw [hin.mem_iff, List.mem_cons]
      have hpair := (hout.pairwise_iff Unequal.symm).mp (elems_pairwise h.wf)
      obtain ⟨hhead, -⟩ := List.pairwise_cons.mp hpair
      refine or_congr_right ⟨fun hz => ⟨hout.mem_iff.mpr (List.mem_cons_of_mem _ hz), ?_⟩, ?_⟩
      · by_contra hzx
        have := hc.trans _ _ _ (by simpa using hzx) (hc.symm _ _ hyx)
        simp [(hhead z hz).2] at this
      · rintro ⟨hz, hzx⟩
        rcases List.mem_cons.mp (hout.mem_iff.mp hz) with rfl | hz
        · simp [hyx] at hzx
        · exact hz
  rw [hmem]
  unfold specStep
  dsimp only
  split_ifs with hxy
  · constructor
    · intro hz
      rw [Option.some.injEq] at hz
      subst hz
      exact ⟨Or.inl rfl, hxy⟩
    · rintro ⟨rfl | ⟨hz, hzx⟩, hzy⟩
      · rfl
      · have := hc.trans _ _ _ hzy (hc.symm _ _ hxy)
        simp [hzx] at this
  · rw [h.lookup]
    constructor
    · rintro ⟨hz, hzy⟩
      refine ⟨Or.inr ⟨hz, ?_⟩, hzy⟩
      by_contra hzx
      exact hxy (hc.trans _ _ _ (hc.symm z x (by simpa using hzx)) hzy)
    · rintro ⟨rfl | ⟨hz, -⟩, hzy⟩
      · exact absurd hzy hxy
      · exact ⟨hz, hzy⟩

theorem Inv.remove (hc : HashConsistent hash equal) (h : Inv hash equal t m) (x : α) (fuel : ℕ) :
    ∃ t', step hash equal (fuel + 2) t (.remove x) = some t' ∧
      Inv hash equal t' (specStep equal m (.remove x)) := by
  obtain ⟨t', hrem, hwf, hroom, hcases⟩ := hmapRemove_spec hc h.wf h.roomy x (fuel + 1)
  refine ⟨t', hrem, hwf, hroom, fun y z => ?_⟩
  have hmem : ∀ z, z ∈ elems t' ↔ z ∈ elems t ∧ equal z x = false := by
    intro z
    rcases hcases with ⟨w, hwx, hperm⟩ | ⟨rfl, hno⟩
    · have hpair := (hperm.pairwise_iff Unequal.symm).mp (elems_pairwise h.wf)
      obtain ⟨hhead, -⟩ := List.pairwise_cons.mp hpair
      rw [hperm.mem_iff, List.mem_cons]
      constructor
      · intro hz
        refine ⟨Or.inr hz, ?_⟩
        by_contra hzx
        have := hc.trans _ _ _ (by simpa using hzx) (hc.symm _ _ hwx)
        simp [(hhead z hz).2] at this
      · rintro ⟨rfl | hz, hzx⟩
        · simp [hwx] at hzx
        · exact hz
    · exact ⟨fun hz => ⟨hz, hno z hz⟩, And.left⟩
  rw [hmem]
  unfold specStep
  dsimp only
  split_ifs with hxy
  · refine ⟨fun hz => by simp at hz, ?_⟩
    rintro ⟨⟨-, hzx⟩, hzy⟩
    have := hc.trans _ _ _ hzy (hc.symm _ _ hxy)
    simp [hzx] at this
  · rw [h.lookup]
    constructor
    · rintro ⟨hz, hzy⟩
      refine ⟨⟨hz, ?_⟩, hzy⟩
      by_contra hzx
      exact hxy (hc.trans _ _ _ (hc.symm z x (by simpa using hzx)) hzy)
    · rintro ⟨⟨hz, -⟩, hzy⟩
      exact ⟨hz, hzy⟩

theorem Inv.get_eq (hc : HashConsistent hash equal) (h : Inv hash equal t m) (x : α) :
    hmapGet hash equal t x = some (m x) := by
  rcases hmapGet_spec hc h.wf h.roomy x with ⟨y, hy, hget, hyx⟩ | ⟨hget, hno⟩
  · rw [hget, (h.lookup x y).mpr ⟨hy, hyx⟩]
  · rw [hget, h.lookup_none hno]

/-- One operation keeps the invariant. Kind: P -/
theorem step_inv (hc : HashConsistent hash equal) (h : Inv hash equal t m) (op : Op α)
    (hfirst : putsFirst equal t op = true) (fuel : ℕ) :
    ∃ t', step hash equal (fuel + 2) t op = some t' ∧ Inv hash equal t' (specStep equal m op) := by
  cases op with
  | put x => exact h.put hc hfirst fuel
  | remove x => exact h.remove hc x fuel
  | get x => exact ⟨t, by simp [step, h.get_eq hc], h⟩

/-- A run whose puts find their keys first keeps the invariant. Kind: P -/
theorem run_inv (hc : HashConsistent hash equal) (fuel : ℕ) (ops : List (Op α)) :
    ∀ (t : Hmap α) (m : α → Option α), Inv hash equal t m →
      allPutsFirst hash equal (fuel + 2) t ops = true →
      ∃ t', run hash equal (fuel + 2) t ops = some t' ∧
        Inv hash equal t' (ops.foldl (specStep equal) m) := by
  induction ops with
  | nil => intro t m h _; exact ⟨t, rfl, h⟩
  | cons op ops ih =>
      intro t m h hfirst
      rw [allPutsFirst, Bool.and_eq_true] at hfirst
      obtain ⟨t₁, hstep, hinv⟩ := step_inv hc h op hfirst.1 fuel
      obtain ⟨t₂, hrun, hinv₂⟩ := ih t₁ _ hinv (by simpa [hstep] using hfirst.2)
      refine ⟨t₂, ?_, hinv₂⟩
      unfold run at hrun ⊢
      rw [List.foldlM_cons, hstep]
      exact hrun

/-- The condition on a run is one on each of its prefixes. Kind: L -/
theorem allPutsFirst_take (fuel : ℕ) (pre post : List (Op α)) :
    ∀ t : Hmap α, allPutsFirst hash equal fuel t (pre ++ post) = true →
      allPutsFirst hash equal fuel t pre = true := by
  induction pre with
  | nil => intro t _; rfl
  | cons op pre ih =>
      intro t h
      rw [List.cons_append, allPutsFirst, Bool.and_eq_true] at h
      rw [allPutsFirst, Bool.and_eq_true]
      refine ⟨h.1, ?_⟩
      cases hstep : step hash equal fuel t op with
      | none => rfl
      | some t' =>
          rw [hstep] at h
          exact ih t' h.2

/-- The invariant gives an observer the finite map. Kind: P -/
theorem Inv.refines (hc : HashConsistent hash equal) (h : Inv hash equal t m) :
    Refines hash equal t m where
  get := h.get_eq hc
  distinct := by
    intro i hi j hj hij e f he hf
    rcases Nat.lt_or_gt_of_ne hij with hlt | hgt
    · exact (pairwise_contents h.wf.distinct hlt hj he hf).1
    · exact (pairwise_contents h.wf.distinct hgt hi hf he).2
  nitems := by
    refine ⟨elems t, (nitems_eq_length h.wf).symm, elems_pairwise h.wf, fun x => ?_⟩
    rw [Option.isSome_iff_exists]
    exact exists_congr fun y => h.lookup x y

/-- **Every state of a run refines the finite map of its operations**, where each `put` of a live
key finds it the first of its home. Kind: P -/
theorem run_refines_map (hc : HashConsistent hash equal) (capacity fuel : ℕ) (ops : List (Op α))
    (hfirst : allPutsFirst hash equal (fuel + 2) (hmapCreateWithCapacity capacity) ops = true)
    (pre post : List (Op α)) (hpre : ops = pre ++ post) :
    ∃ t, run hash equal (fuel + 2) (hmapCreateWithCapacity capacity) pre = some t ∧
      Refines hash equal t (finiteMap equal pre) := by
  subst hpre
  obtain ⟨t, hrun, hinv⟩ := run_inv hc fuel pre _ _ (create_inv capacity)
    (allPutsFirst_take (fuel + 2) pre post _ hfirst)
  exact ⟨t, hrun, hinv.refines hc⟩

end

/-- Elements with a key and a value, all of one hash. Kind: L -/
theorem constant_hashConsistent :
    HashConsistent (α := ℕ × ℕ) (fun _ => 0) (fun x y => x.1 == y.1) where
  refl := by simp
  symm := by
    intro x y hxy
    rw [beq_iff_eq] at *
    exact hxy.symm
  trans := by
    intro x y z hxy hyz
    rw [beq_iff_eq] at *
    exact hxy.trans hyz
  hash_eq := by simp

/-- A run in which the key put last is updated and an earlier one is removed. Kind: L -/
theorem run_refines_map_update :
    ∃ t, run (α := ℕ × ℕ) (fun _ => 0) (fun x y => x.1 == y.1) 2 (hmapCreateWithCapacity 0)
        [.put (1, 10), .put (2, 20), .put (2, 30), .remove (1, 0)] = some t ∧
      Refines (fun _ => 0) (fun x y => x.1 == y.1) t (finiteMap (fun x y => x.1 == y.1)
        [.put (1, 10), .put (2, 20), .put (2, 30), .remove (1, 0)]) :=
  run_refines_map constant_hashConsistent 0 0
    [.put (1, 10), .put (2, 20), .put (2, 30), .remove (1, 0)] (by decide) _ [] rfl

/-- Putting a key again that is not the first of its home leaves both elements in the table: after
the removal of the new one, a lookup returns the old one. Kind: L -/
theorem put_again_duplicates :
    HashConsistent (α := ℕ × ℕ) (fun _ => 0) (fun x y => x.1 == y.1) ∧
      ∃ t, run (α := ℕ × ℕ) (fun _ => 0) (fun x y => x.1 == y.1) 2 (hmapCreateWithCapacity 0)
          [.put (1, 10), .put (2, 20), .put (1, 30), .remove (1, 0)] = some t ∧
        hmapGet (fun _ => 0) (fun x y => x.1 == y.1) t (1, 0) = some (some (1, 10)) ∧
        t.nitems = 2 ∧
        finiteMap (fun x y => x.1 == y.1)
          [.put (1, 10), .put (2, 20), .put (1, 30), .remove (1, 0)] (1, 0) = none := by
  refine ⟨constant_hashConsistent, ?_⟩
  have hrun : ((run (α := ℕ × ℕ) (fun _ => 0) (fun x y => x.1 == y.1) 2 (hmapCreateWithCapacity 0)
      [.put (1, 10), .put (2, 20), .put (1, 30), .remove (1, 0)]).map fun t =>
        (hmapGet (fun _ => 0) (fun x y => x.1 == y.1) t (1, 0), t.nitems)) =
      some (some (some (1, 10)), 2) := by decide
  obtain ⟨t, ht, hobs⟩ := Option.map_eq_some_iff.mp hrun
  rw [Prod.mk.injEq] at hobs
  exact ⟨t, ht, hobs.1, hobs.2, by decide⟩

end CxyCompiler.Core.RobinHoodMap
