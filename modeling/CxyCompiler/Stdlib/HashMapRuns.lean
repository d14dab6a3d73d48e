import CxyCompiler.Stdlib.HashMap

/-!
# Runs of the library hash map refine a finite map

A run is a sequence of insertions, removals, lookups and clears on one map. Its abstract state maps
a key to the value of its last effective insertion, since it was last removed.

* `specStep`, `finiteMap` — the abstract state of a run.
* `Refines t m` — what `get`, `contains` and `size` show of the map `m`.
* `Inv t m` — **the run invariant**; `step_inv` is the step lemma and `run_inv` the run lemma.
* `hashMap_run_refines` — **every state of a run refines its finite map**, where the removals move
  entries past the end in order. `remove_loses_key` is a run that does not.
-/

namespace CxyCompiler.Stdlib.HashMap

open CxyCompiler.Lib.Probing CxyCompiler.Lib.RobinHood

inductive Op (K V : Type) where
  | insert (key : K) (value : V) (replace : Bool)
  | remove (key : K)
  | get (key : K)
  | contains (key : K)
  | clear

section

variable {K V : Type} (hasher : K → ℕ) (cmp : K → K → Bool)

def step (t : HashMap K V) : Op K V → Option (HashMap K V)
  | .insert k v replace => (insert hasher cmp t k v replace).map (·.1)
  | .remove k => remove hasher cmp t k
  | .get k => (get hasher cmp t k).map fun _ => t
  | .contains k => (contains hasher cmp t k).map fun _ => t
  | .clear => some (clear t)

def run (t : HashMap K V) (ops : List (Op K V)) : Option (HashMap K V) :=
  ops.foldlM (step hasher cmp) t

/-- An insertion without `replace` has no effect on a live key. -/
def specStep (m : K → Option V) : Op K V → K → Option V
  | .insert k v replace => fun y => if cmp k y then some (if replace then v else (m y).getD v)
      else m y
  | .remove k => fun y => if cmp k y then none else m y
  | .get _ | .contains _ => m
  | .clear => fun _ => none

/-- The value of the last effective insertion of a key that was not removed since. -/
def finiteMap (ops : List (Op K V)) : K → Option V := ops.foldl (specStep cmp) fun _ => none

/-- The search of a removal finds what a lookup does and its moves are in order, and an insertion
leaves at most `2 ^ 63` slots. -/
def keepsOrder (t : HashMap K V) : Op K V → Bool
  | .insert _ _ _ => idealSize (t.size + 1) ≤ 2 ^ 63
  | .remove k =>
      findRemoved hasher cmp t k == getInternal hasher cmp t k &&
        match getInternal hasher cmp t k with
        | some (some i) => movesInOrder t.capacity t.capacity (set t.nodes i none) i
        | _ => true
  | _ => true

/-- Every operation of the run meets `keepsOrder` in the state it is made in. -/
def allKeepOrder (t : HashMap K V) : List (Op K V) → Bool
  | [] => true
  | op :: ops => keepsOrder hasher cmp t op &&
      match step hasher cmp t op with
      | some t' => allKeepOrder t' ops
      | none => true

/-- The map shows the finite map `m`: `get` and `contains` agree with it, and `size` is the number
of its keys up to `cmp`. -/
structure Refines (t : HashMap K V) (m : K → Option V) : Prop where
  get : ∀ k, get hasher cmp t k = some (m k)
  contains : ∀ k, contains hasher cmp t k = some (m k).isSome
  size : ∃ keys : List K, keys.length = t.size ∧
    keys.Pairwise (fun x y => cmp x y = false ∧ cmp y x = false) ∧
    ∀ k, (m k).isSome = true ↔ ∃ x ∈ keys, cmp x k = true

/-- **The run invariant.** -/
structure Inv (t : HashMap K V) (m : K → Option V) : Prop where
  wf : Wf hasher cmp t
  roomy : Roomy t
  lookup : ∀ k v, m k = some v ↔ ∃ x ∈ pairs t, x.2 = v ∧ cmp x.1 k = true

variable {hasher cmp} {t : HashMap K V} {m : K → Option V}

theorem init_inv {initialCapacity : ℕ} (hbound : idealSize initialCapacity ≤ 2 ^ 63) :
    Inv hasher cmp (init (K := K) (V := V) initialCapacity) (fun _ => none) where
  wf := wf_empty hbound
  roomy := Or.inr (idealSize_mono (Nat.zero_le _))
  lookup := by simp [init, pairs_empty]

/-- A list of pairs shows the value `v` for the key `k`. -/
def Shows (cmp : K → K → Bool) (xs : List (K × V)) (k : K) (v : V) : Prop :=
  ∃ x ∈ xs, x.2 = v ∧ cmp x.1 k = true

theorem Shows.perm_iff {xs ys : List (K × V)} (h : List.Perm xs ys) (k : K) (v : V) :
    Shows cmp xs k v ↔ Shows cmp ys k v :=
  exists_congr fun _ => and_congr_left fun _ => h.mem_iff

/-- A list without the key `k` shows nothing for an equal one. Kind: L -/
theorem not_shows (hc : Consistent hasher cmp) {xs : List (K × V)} {k y : K}
    (hno : ∀ x ∈ xs, cmp x.1 k = false) (hky : cmp k y = true) (v : V) : ¬ Shows cmp xs y v := by
  rintro ⟨x, hx, -, hxy⟩
  have hxk := hc.trans _ _ _ hxy (hc.symm _ _ hky)
  rw [hno x hx] at hxk
  simp at hxk

/-- The values that a list shows with one more pair, of the key `k`. Kind: L -/
theorem shows_cons (hc : Consistent hasher cmp) {x : K × V} {xs : List (K × V)} {k : K}
    (hxk : cmp x.1 k = true) (hno : ∀ z ∈ xs, cmp z.1 k = false) (y : K) (v : V) :
    Shows cmp (x :: xs) y v ↔ if cmp k y then x.2 = v else Shows cmp xs y v := by
  split_ifs with hky
  · constructor
    · rintro ⟨z, hz, hzv, hzy⟩
      rcases List.mem_cons.mp hz with rfl | hz
      · exact hzv
      · exact absurd ⟨z, hz, hzv, hzy⟩ (not_shows hc hno hky v)
    · intro hxv
      exact ⟨x, List.mem_cons_self, hxv, hc.trans _ _ _ hxk hky⟩
  · constructor
    · rintro ⟨z, hz, hzv, hzy⟩
      rcases List.mem_cons.mp hz with rfl | hz
      · exact absurd (hc.trans _ _ _ (hc.symm _ _ hxk) hzy) hky
      · exact ⟨z, hz, hzv, hzy⟩
    · rintro ⟨z, hz, hzv, hzy⟩
      exact ⟨z, List.mem_cons_of_mem _ hz, hzv, hzy⟩

/-- The pairs beside one of the key `k` have other keys. Kind: L -/
theorem Inv.others (hc : Consistent hasher cmp) (h : Inv hasher cmp t m) {x : K × V}
    {others : List (K × V)} {k : K} (hxk : cmp x.1 k = true)
    (hperm : List.Perm (pairs t) (x :: others)) : ∀ z ∈ others, cmp z.1 k = false := by
  intro z hz
  have hpair := (hperm.pairwise_iff Unequal.symm).mp (pairs_pairwise h.wf)
  obtain ⟨hhead, -⟩ := List.pairwise_cons.mp hpair
  by_contra hzk
  have hzx := hc.trans _ _ _ (by simpa using hzk) (hc.symm _ _ hxk)
  rw [(hhead z hz).2] at hzx
  simp at hzx

/-- No pair of the map has the key `k`, so it has no value. Kind: L -/
theorem Inv.lookup_none (hc : Consistent hasher cmp) (h : Inv hasher cmp t m) {k y : K}
    (hno : ∀ x ∈ pairs t, cmp x.1 k = false) (hky : cmp k y = true) : m y = none := by
  cases hm : m y with
  | none => rfl
  | some v => exact absurd ((h.lookup y v).mp hm) (not_shows hc hno hky v)

theorem Inv.insert (hc : Consistent hasher cmp) (h : Inv hasher cmp t m) (k : K) (v : V)
    (replace : Bool) (hbound : idealSize (t.size + 1) ≤ 2 ^ 63) :
    ∃ t', step hasher cmp t (.insert k v replace) = some t' ∧
      Inv hasher cmp t' (specStep cmp m (.insert k v replace)) := by
  obtain ⟨t', status, hins, hwf, hroom, hcases⟩ := insert_spec hc h.wf h.roomy hbound k v replace
  refine ⟨t', by simp [step, hins], hwf, hroom, fun y w => ?_⟩
  show specStep cmp m (.insert k v replace) y = some w ↔ Shows cmp (pairs t') y w
  rcases hcases with ⟨-, hno, hperm⟩ | ⟨-, x, others, hxk, hbefore, hafter⟩
  · rw [Shows.perm_iff hperm, shows_cons hc (hc.refl k) hno]
    unfold specStep
    dsimp only
    split_ifs with hky hrep
    · rw [Option.some.injEq]
    · rw [h.lookup_none hc hno hky, Option.getD_none, Option.some.injEq]
    · exact h.lookup y w
  · have hothers := h.others hc hxk hbefore
    have hlook : ∀ w, m y = some w ↔ if cmp k y then x.2 = w else Shows cmp others y w := by
      intro w
      rw [← shows_cons hc hxk hothers, ← Shows.perm_iff hbefore]
      exact h.lookup y w
    have hkey : cmp (if replace then (k, v) else x).1 k = true := by
      split_ifs
      · exact hc.refl k
      · exact hxk
    rw [Shows.perm_iff hafter, shows_cons hc hkey hothers]
    unfold specStep
    dsimp only
    by_cases hky : cmp k y = true
    · have hm : m y = some x.2 := by
        rw [hlook, if_pos hky]
      rw [if_pos hky, if_pos hky, hm, Option.getD_some, Option.some.injEq]
      split_ifs <;> rfl
    · rw [if_neg hky, if_neg hky, hlook, if_neg hky]

theorem Inv.remove (hc : Consistent hasher cmp) (h : Inv hasher cmp t m) (k : K)
    (horder : keepsOrder hasher cmp t (.remove k) = true) :
    ∃ t', step hasher cmp t (.remove k) = some t' ∧
      Inv hasher cmp t' (specStep cmp m (.remove k)) := by
  rw [keepsOrder, Bool.and_eq_true, beq_iff_eq] at horder
  obtain ⟨t', hrem, hwf, hroom, hcases⟩ := remove_spec hc h.wf h.roomy k horder.1 (by
    intro i hi
    simpa [hi] using horder.2)
  refine ⟨t', hrem, hwf, hroom, fun y w => ?_⟩
  show specStep cmp m (.remove k) y = some w ↔ Shows cmp (pairs t') y w
  unfold specStep
  dsimp only
  rcases hcases with ⟨x, hxk, hperm⟩ | ⟨rfl, hno⟩
  · have hothers := h.others hc hxk hperm
    split_ifs with hky
    · simp only [false_iff]
      exact not_shows hc hothers hky w
    · have hlook := h.lookup y w
      change _ ↔ Shows cmp (pairs t) y w at hlook
      rw [hlook, Shows.perm_iff hperm, shows_cons hc hxk hothers, if_neg hky]
  · split_ifs with hky
    · simp only [false_iff]
      exact not_shows hc hno hky w
    · exact h.lookup y w

theorem Inv.clear (h : Inv hasher cmp t m) : Inv hasher cmp (clear t) fun _ => none := by
  obtain ⟨hwf, hroom, hpairs⟩ := clear_spec h.wf
  exact ⟨hwf, hroom, by simp [hpairs]⟩

theorem Inv.get_eq (hc : Consistent hasher cmp) (h : Inv hasher cmp t m) (k : K) :
    get hasher cmp t k = some (m k) := by
  rcases getInternal_spec hc h.wf h.roomy k with ⟨i, e, hfind, hi, he, hk, -⟩ | ⟨hfind, hno⟩
  · have hmem : e.elem ∈ pairs t := List.mem_map.mpr ⟨e, mem_contents.mpr ⟨i, hi, he⟩, rfl⟩
    have hm := (h.lookup k e.elem.2).mpr ⟨e.elem, hmem, rfl, hk⟩
    simp [get, hfind, he, hm]
  · simp [get, hfind, h.lookup_none hc hno (hc.refl k)]

theorem Inv.contains_eq (hc : Consistent hasher cmp) (h : Inv hasher cmp t m) (k : K) :
    contains hasher cmp t k = some (m k).isSome := by
  rcases getInternal_spec hc h.wf h.roomy k with ⟨i, e, hfind, hi, he, hk, -⟩ | ⟨hfind, hno⟩
  · have hmem : e.elem ∈ pairs t := List.mem_map.mpr ⟨e, mem_contents.mpr ⟨i, hi, he⟩, rfl⟩
    have hm := (h.lookup k e.elem.2).mpr ⟨e.elem, hmem, rfl, hk⟩
    simp [contains, hfind, hm]
  · simp [contains, hfind, h.lookup_none hc hno (hc.refl k)]

/-- One operation keeps the invariant. Kind: P -/
theorem step_inv (hc : Consistent hasher cmp) (h : Inv hasher cmp t m) (op : Op K V)
    (horder : keepsOrder hasher cmp t op = true) :
    ∃ t', step hasher cmp t op = some t' ∧ Inv hasher cmp t' (specStep cmp m op) := by
  cases op with
  | insert k v replace => exact h.insert hc k v replace (by simpa [keepsOrder] using horder)
  | remove k => exact h.remove hc k horder
  | get k => exact ⟨t, by simp [step, h.get_eq hc], h⟩
  | contains k => exact ⟨t, by simp [step, h.contains_eq hc], h⟩
  | clear => exact ⟨_, rfl, h.clear⟩

/-- A run whose operations meet the condition keeps the invariant. Kind: P -/
theorem run_inv (hc : Consistent hasher cmp) (ops : List (Op K V)) :
    ∀ (t : HashMap K V) (m : K → Option V), Inv hasher cmp t m →
      allKeepOrder hasher cmp t ops = true →
      ∃ t', run hasher cmp t ops = some t' ∧ Inv hasher cmp t' (ops.foldl (specStep cmp) m) := by
  induction ops with
  | nil => intro t m h _; exact ⟨t, rfl, h⟩
  | cons op ops ih =>
      intro t m h horder
      rw [allKeepOrder, Bool.and_eq_true] at horder
      obtain ⟨t₁, hstep, hinv⟩ := step_inv hc h op horder.1
      obtain ⟨t₂, hrun, hinv₂⟩ := ih t₁ _ hinv (by simpa [hstep] using horder.2)
      refine ⟨t₂, ?_, hinv₂⟩
      unfold run at hrun ⊢
      rw [List.foldlM_cons, hstep]
      exact hrun

/-- The condition on a run is one on each of its prefixes. Kind: L -/
theorem allKeepOrder_take (pre post : List (Op K V)) :
    ∀ t : HashMap K V, allKeepOrder hasher cmp t (pre ++ post) = true →
      allKeepOrder hasher cmp t pre = true := by
  induction pre with
  | nil => intro t _; rfl
  | cons op pre ih =>
      intro t h
      rw [List.cons_append, allKeepOrder, Bool.and_eq_true] at h
      rw [allKeepOrder, Bool.and_eq_true]
      refine ⟨h.1, ?_⟩
      cases hstep : step hasher cmp t op with
      | none => rfl
      | some t' =>
          rw [hstep] at h
          exact ih t' h.2

/-- The invariant gives an observer the finite map. Kind: P -/
theorem Inv.refines (hc : Consistent hasher cmp) (h : Inv hasher cmp t m) :
    Refines hasher cmp t m where
  get := h.get_eq hc
  contains := h.contains_eq hc
  size := by
    refine ⟨(pairs t).map Prod.fst, by rw [List.length_map, size_eq_length h.wf],
      List.pairwise_map.mpr (pairs_pairwise h.wf), fun k => ?_⟩
    rw [Option.isSome_iff_exists]
    constructor
    · rintro ⟨v, hv⟩
      obtain ⟨x, hx, -, hxk⟩ := (h.lookup k v).mp hv
      exact ⟨x.1, List.mem_map_of_mem hx, hxk⟩
    · rintro ⟨y, hy, hyk⟩
      obtain ⟨x, hx, rfl⟩ := List.mem_map.mp hy
      exact ⟨x.2, (h.lookup k x.2).mpr ⟨x, hx, rfl, hyk⟩⟩

/-- **Every state of a run refines the finite map of its operations**, where the removals move the
entries that are stored past the end in order. Kind: P -/
theorem hashMap_run_refines (hc : Consistent hasher cmp) (initialCapacity : ℕ)
    (hbound : idealSize initialCapacity ≤ 2 ^ 63) (ops : List (Op K V))
    (horder : allKeepOrder hasher cmp (init initialCapacity) ops = true)
    (pre post : List (Op K V)) (hpre : ops = pre ++ post) :
    ∃ t, run hasher cmp (init initialCapacity) pre = some t ∧
      Refines hasher cmp t (finiteMap cmp pre) := by
  subst hpre
  obtain ⟨t, hrun, hinv⟩ := run_inv hc pre _ _ (init_inv hbound)
    (allKeepOrder_take pre post _ horder)
  exact ⟨t, hrun, hinv.refines hc⟩

end

theorem identity_consistent : Consistent (K := ℕ) id (· == ·) where
  refl := by simp
  symm := by
    intro x y hxy
    rw [beq_iff_eq] at *
    exact hxy.symm
  trans := by
    intro x y z hxy hyz
    rw [beq_iff_eq] at *
    exact hxy.trans hyz
  hash_eq := by
    intro x y hxy
    rw [beq_iff_eq] at hxy
    rw [hxy]

/-- A run that updates a key, keeps the value of another and removes a third. Kind: L -/
theorem hashMap_run_refines_remove :
    ∃ t, run (K := ℕ) (V := ℕ) id (· == ·) (init 0) [.insert 3 30 true, .insert 8 80 true,
        .insert 3 31 true, .insert 8 81 false, .insert 4 40 true, .remove 3] = some t ∧
      Refines id (· == ·) t (finiteMap (· == ·) [.insert 3 30 true, .insert 8 80 true,
        .insert 3 31 true, .insert 8 81 false, .insert 4 40 true, .remove 3]) :=
  hashMap_run_refines identity_consistent 0 (by decide) [.insert 3 30 true, .insert 8 80 true,
    .insert 3 31 true, .insert 8 81 false, .insert 4 40 true, .remove 3] (by decide) _ [] rfl

/-- The keys `3`, `8`, `4` and `13` share the end of a table of five slots. The removal of `3` moves
`4` back to the last slot before `13`, which then is not found any more. Kind: L -/
theorem remove_loses_key :
    Consistent (K := ℕ) id (· == ·) ∧
      ∃ t, run (K := ℕ) (V := ℕ) id (· == ·) (init 0) [.insert 3 30 true, .insert 8 80 true,
          .insert 4 40 true, .insert 13 130 true, .remove 3] = some t ∧
        get id (· == ·) t 13 = some none ∧ contains id (· == ·) t 13 = some false ∧ t.size = 3 ∧
        finiteMap (· == ·) [.insert 3 30 true, .insert 8 80 true, .insert 4 40 true,
          .insert 13 130 true, .remove 3] 13 = some 130 := by
  refine ⟨identity_consistent, ?_⟩
  have hrun : ((run (K := ℕ) (V := ℕ) id (· == ·) (init 0) [.insert 3 30 true, .insert 8 80 true,
      .insert 4 40 true, .insert 13 130 true, .remove 3]).map fun t =>
        (get id (· == ·) t 13, contains id (· == ·) t 13, t.size)) =
      some (some none, some false, 3) := by decide
  obtain ⟨t, ht, hobs⟩ := Option.map_eq_some_iff.mp hrun
  simp only [Prod.mk.injEq] at hobs
  exact ⟨t, ht, hobs.1, hobs.2.1, hobs.2.2, by decide⟩

end CxyCompiler.Stdlib.HashMap
