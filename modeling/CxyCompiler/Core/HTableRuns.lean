import CxyCompiler.Core.HTable

/-!
# Runs of a hash table refine a finite set

A run is a sequence of insertions, lookups, removals and clears on one table; an element is removed
through the pointer that a lookup returned. The abstract state of a run is the set of elements
inserted and not since removed, up to the caller's `compare`.

* `HashConsistent` — what the callers promise: `compare` is an equivalence and equal elements have
  equal hashes.
* `present ops` — the abstract state after the operations `ops`.
* `RefinesSet t p` — what an observer of the table sees of the set `p`.
* `Inv t p` — **the run invariant**, the representation invariant together with the link between
  the stored entries and `p`. `step_inv` is the step lemma and `run_inv` the run lemma.
* `run_refines` — every state of a run whose removals all meet `keepsChains` refines the abstract
  state. `remove_across_end_loses_element` is a run of three operations that does not.
-/

namespace CxyCompiler.Core.HTableRuns

open CxyCompiler.Lib.Probing

/-! ## Operations and runs -/

/-- An operation of a client of the table. -/
inductive Op (α : Type) where
  | insert (elem : α)
  | find (elem : α)
  | remove (elem : α)
  | clear

section

variable {α : Type} (hash : α → HashCode) (compare : α → α → Bool)

/-- One operation. An element is removed through the pointer a lookup of it returned; where the
lookup returned `NULL` there is nothing to remove. -/
def step [Inhabited α] (t : HashTable α) : Op α → Option (HashTable α)
  | .insert x => (insertInHashTable compare id t x (hash x)).map (·.2)
  | .find x => (findInHashTable compare t x (hash x)).map fun _ => t
  | .remove x => do
      match ← findInHashTable compare t x (hash x) with
      | none => some t
      | some index => removeFromHashTable t index
  | .clear => some (clearHashTable t)

/-- A sequence of operations. -/
def run [Inhabited α] (t : HashTable α) (ops : List (Op α)) : Option (HashTable α) :=
  ops.foldlM (step hash compare) t

/-- The abstract effect of an operation on the set of present elements. -/
def specStep (p : α → Bool) : Op α → α → Bool
  | .insert x => fun y => p y || compare x y
  | .find _ => p
  | .remove x => fun y => p y && !compare x y
  | .clear => fun _ => false

/-- The elements inserted and not since removed. -/
def present (ops : List (Op α)) : α → Bool := ops.foldl (specStep compare) fun _ => false

/-- A removal whose scan moves nothing across the end of the array in front of its home. -/
def keepsChains (t : HashTable α) : Op α → Bool
  | .remove x =>
      match findInHashTable compare t x (hash x) with
      | some (some index) => noMoveAcrossEnd t t.capacity index (incr t.capacity index)
      | _ => true
  | _ => true

/-- Every removal of the run meets `keepsChains` in the state it is made in. -/
def removalsKeepChains [Inhabited α] (t : HashTable α) : List (Op α) → Bool
  | [] => true
  | op :: ops => keepsChains hash compare t op &&
      match step hash compare t op with
      | some t' => removalsKeepChains t' ops
      | none => true

/-- What the callers of the table promise. -/
structure HashConsistent : Prop where
  refl : ∀ x, compare x x = true
  symm : ∀ x y, compare x y = true → compare y x = true
  trans : ∀ x y z, compare x y = true → compare y z = true → compare x z = true
  hash_eq : ∀ x y, compare x y = true → hash x = hash y

/-- The table shows the set `p`: exactly its elements are found, no two stored elements with
equal hashes compare equal, and `size` is the number of occupied buckets. -/
structure RefinesSet (t : HashTable α) (p : α → Bool) : Prop where
  found : ∀ x, p x = true → ∃ i, findInHashTable compare t x (hash x) = some (some i) ∧
    i < t.capacity ∧ isBucketOccupied t i = true ∧ compare (t.elems i) x = true
  not_found : ∀ x, p x = false → findInHashTable compare t x (hash x) = some none
  distinct : ∀ i < t.capacity, ∀ j < t.capacity, isBucketOccupied t i = true →
    isBucketOccupied t j = true → i ≠ j → t.hashes i = t.hashes j →
    compare (t.elems i) (t.elems j) = false
  size_eq : t.size = ((List.range t.capacity).filter (isBucketOccupied t)).length

/-! ## The run invariant -/

/-- **The run invariant.** -/
structure Inv (t : HashTable α) (p : α → Bool) : Prop where
  wf : Wf t
  hash_eq : ∀ e ∈ entries t, e.1 = hash e.2 ||| OCCUPIED_MASK
  distinct : (entries t).Pairwise fun e f => compare e.2 f.2 = false
  present_iff : ∀ x, p x = true ↔ ∃ e ∈ entries t, compare e.2 x = true

variable {hash compare} {t : HashTable α} {p : α → Bool}

theorem new_inv [Inhabited α] (capacity : ℕ) :
    Inv hash compare (newHashTableWithCapacity (α := α) capacity) (fun _ => false) where
  wf := new_wf capacity
  hash_eq := by simp [entries_new]
  distinct := by simp [entries_new]
  present_iff := by simp [entries_new]

/-- A stored element that compares equal to `x` is stored under the hash of `x`. Kind: L -/
theorem Inv.hash_of_compare (hc : HashConsistent hash compare) (h : Inv hash compare t p)
    {e : HashCode × α} (he : e ∈ entries t) {x : α} (hx : compare e.2 x = true) :
    e.1 = hash x ||| OCCUPIED_MASK := by
  rw [h.hash_eq e he, hc.hash_eq e.2 x hx]

/-- Lookup under the invariant: a bucket that holds `x` if `x` is present, else `NULL`. Kind: L -/
theorem Inv.find (hc : HashConsistent hash compare) (h : Inv hash compare t p) (x : α) :
    (∃ i, findInHashTable compare t x (hash x) = some (some i) ∧ i < t.capacity ∧
      isBucketOccupied t i = true ∧ compare (t.elems i) x = true ∧ p x = true) ∨
    (findInHashTable compare t x (hash x) = some none ∧ p x = false) := by
  obtain ⟨r, hfind, hsome, hnone⟩ := find_spec compare h.wf x (hash x)
  cases r with
  | some i =>
      obtain ⟨hi, hocc, -, hcmp⟩ := hsome i rfl
      have hmem : (t.hashes i, t.elems i) ∈ entries t := Iff.mpr mem_entries ⟨i, hi, hocc, rfl⟩
      exact Or.inl ⟨i, hfind, hi, hocc, hcmp, (h.present_iff x).mpr ⟨_, hmem, hcmp⟩⟩
  | none =>
      refine Or.inr ⟨hfind, ?_⟩
      by_contra hp
      obtain ⟨e, he, hcmp⟩ := (h.present_iff x).mp (by simpa using hp)
      have := hnone rfl e he (h.hash_of_compare hc he hcmp)
      simp [hcmp] at this

theorem Inv.insert [Inhabited α] (hc : HashConsistent hash compare) (h : Inv hash compare t p)
    (x : α) :
    ∃ t', step hash compare t (.insert x) = some t' ∧
      Inv hash compare t' (specStep compare p (.insert x)) := by
  obtain ⟨b, t', hins, hwf, hfalse, htrue⟩ := insert_spec compare h.wf id x (hash x)
  refine ⟨t', by simp [step, hins], ?_⟩
  cases b with
  | false =>
      obtain ⟨rfl, e, he, -, hex⟩ := hfalse rfl
      refine ⟨h.wf, h.hash_eq, h.distinct, fun y => ?_⟩
      simp only [specStep, Bool.or_eq_true]
      rw [← h.present_iff y]
      constructor
      · rintro (hp | hxy)
        · exact hp
        · exact (h.present_iff y).mpr ⟨e, he, hc.trans _ _ _ hex hxy⟩
      · exact Or.inl
  | true =>
      obtain ⟨hnew, hperm⟩ := htrue rfl
      have hnocmp : ∀ e ∈ entries t, compare e.2 x = false := by
        intro e he
        by_contra hcmp
        have hcmp' : compare e.2 x = true := by simpa using hcmp
        exact hcmp (hnew e he (h.hash_of_compare hc he hcmp'))
      refine ⟨hwf, ?_, ?_, fun y => ?_⟩
      · intro e he
        rcases List.mem_cons.mp (hperm.mem_iff.mp he) with rfl | he'
        · rfl
        · exact h.hash_eq e he'
      · rw [hperm.pairwise_iff (fun {e f} hef => by
          by_contra hfe
          simp [hc.symm _ _ (by simpa using hfe)] at hef)]
        refine List.pairwise_cons.mpr ⟨fun e he => ?_, h.distinct⟩
        by_contra hxe
        have hex := hc.symm _ _ (show compare x e.2 = true by simpa using hxe)
        simp [hnocmp e he] at hex
      · simp only [specStep, Bool.or_eq_true, h.present_iff y]
        constructor
        · rintro (⟨e, he, hcmp⟩ | hxy)
          · exact ⟨e, hperm.mem_iff.mpr (List.mem_cons_of_mem _ he), hcmp⟩
          · exact ⟨_, hperm.mem_iff.mpr List.mem_cons_self, hxy⟩
        · rintro ⟨e, he, hcmp⟩
          rcases List.mem_cons.mp (hperm.mem_iff.mp he) with rfl | he'
          · exact Or.inr hcmp
          · exact Or.inl ⟨e, he', hcmp⟩

theorem Inv.remove [Inhabited α] (hc : HashConsistent hash compare) (h : Inv hash compare t p)
    (x : α) (hkeep : keepsChains hash compare t (.remove x) = true) :
    ∃ t', step hash compare t (.remove x) = some t' ∧
      Inv hash compare t' (specStep compare p (.remove x)) := by
  rcases h.find hc x with ⟨i, hfind, hi, hocc, hix, -⟩ | ⟨hfind, hpx⟩
  · have hsafe : noMoveAcrossEnd t t.capacity i (incr t.capacity i) = true := by
      simpa [keepsChains, hfind] using hkeep
    obtain ⟨t', hrem, hwf, hperm⟩ := remove_spec h.wf hi hocc hsafe
    have hpair := h.distinct
    rw [hperm.pairwise_iff (fun {e f} hef => by
      by_contra hfe
      simp [hc.symm _ _ (by simpa using hfe)] at hef), List.pairwise_cons] at hpair
    have hsub : ∀ e ∈ entries t', e ∈ entries t := fun e he =>
      hperm.mem_iff.mpr (List.mem_cons_of_mem _ he)
    refine ⟨t', by simp [step, hfind, hrem], hwf, fun e he => h.hash_eq e (hsub e he), hpair.2,
      fun y => ?_⟩
    simp only [specStep, Bool.and_eq_true, Bool.not_eq_true', h.present_iff y]
    constructor
    · rintro ⟨⟨e, he, hey⟩, hxy⟩
      rcases List.mem_cons.mp (hperm.mem_iff.mp he) with rfl | he'
      · -- the removed entry equals `x`, and `y` does not
        have := hc.trans _ _ _ (hc.symm _ _ hix) hey
        simp [hxy] at this
      · exact ⟨e, he', hey⟩
    · rintro ⟨e, he, hey⟩
      refine ⟨⟨e, hsub e he, hey⟩, ?_⟩
      by_contra hxy
      have hiy := hc.trans _ _ _ hix (show compare x y = true by simpa using hxy)
      have hie := hc.trans _ _ _ hiy (hc.symm _ _ hey)
      simp [hpair.1 e he] at hie
  · refine ⟨t, by simp [step, hfind], h.wf, h.hash_eq, h.distinct, fun y => ?_⟩
    rw [← h.present_iff y]
    simp only [specStep, Bool.and_eq_true, Bool.not_eq_true', and_iff_left_iff_imp]
    intro hpy
    by_contra hxy
    obtain ⟨e, he, hey⟩ := (h.present_iff y).mp hpy
    have hex := hc.trans _ _ _ hey (hc.symm x y (by simpa using hxy))
    have := (h.present_iff x).mpr ⟨e, he, hex⟩
    simp [hpx] at this

/-- One operation keeps the invariant. Kind: P -/
theorem step_inv [Inhabited α] (hc : HashConsistent hash compare) (h : Inv hash compare t p)
    (op : Op α) (hkeep : keepsChains hash compare t op = true) :
    ∃ t', step hash compare t op = some t' ∧ Inv hash compare t' (specStep compare p op) := by
  cases op with
  | insert x => exact h.insert hc x
  | find x =>
      refine ⟨t, ?_, h⟩
      rcases h.find hc x with ⟨i, hfind, -⟩ | ⟨hfind, -⟩ <;> simp [step, hfind]
  | remove x => exact h.remove hc x hkeep
  | clear =>
      obtain ⟨hwf, hnil⟩ := clear_spec h.wf
      exact ⟨_, rfl, hwf, by simp [hnil], by simp [hnil], by simp [hnil, specStep]⟩

/-- A run whose removals keep the chains keeps the invariant. Kind: P -/
theorem run_inv [Inhabited α] (hc : HashConsistent hash compare) (ops : List (Op α)) :
    ∀ (t : HashTable α) (p : α → Bool), Inv hash compare t p →
      removalsKeepChains hash compare t ops = true →
      ∃ t', run hash compare t ops = some t' ∧
        Inv hash compare t' (ops.foldl (specStep compare) p) := by
  induction ops with
  | nil => intro t p h _; exact ⟨t, rfl, h⟩
  | cons op ops ih =>
      intro t p h hkeep
      rw [removalsKeepChains, Bool.and_eq_true] at hkeep
      obtain ⟨t₁, hstep, hinv⟩ := step_inv hc h op hkeep.1
      have hrest : removalsKeepChains hash compare t₁ ops = true := by
        simpa [hstep] using hkeep.2
      obtain ⟨t₂, hrun, hinv₂⟩ := ih t₁ _ hinv hrest
      refine ⟨t₂, ?_, hinv₂⟩
      unfold run at hrun ⊢
      rw [List.foldlM_cons, hstep]
      exact hrun

/-- The condition on a run is one on each of its prefixes. Kind: L -/
theorem removalsKeepChains_take [Inhabited α] (pre post : List (Op α)) :
    ∀ t : HashTable α, removalsKeepChains hash compare t (pre ++ post) = true →
      removalsKeepChains hash compare t pre = true := by
  induction pre with
  | nil => intro t _; rfl
  | cons op pre ih =>
      intro t h
      rw [List.cons_append, removalsKeepChains, Bool.and_eq_true] at h
      rw [removalsKeepChains, Bool.and_eq_true]
      refine ⟨h.1, ?_⟩
      cases hstep : step hash compare t op with
      | none => rfl
      | some t' =>
          rw [hstep] at h
          exact ih t' h.2

/-- The invariant gives an observer the set. Kind: P -/
theorem Inv.refinesSet (hc : HashConsistent hash compare) (h : Inv hash compare t p) :
    RefinesSet hash compare t p where
  found := by
    intro x hx
    rcases h.find hc x with ⟨i, hfind, hi, hocc, hcmp, -⟩ | ⟨-, hpx⟩
    · exact ⟨i, hfind, hi, hocc, hcmp⟩
    · simp [hx] at hpx
  not_found := by
    intro x hx
    rcases h.find hc x with ⟨i, -, -, -, -, hpx⟩ | ⟨hfind, -⟩
    · simp [hx] at hpx
    · exact hfind
  distinct := by
    intro i hi j hj hocci hoccj hij _
    by_contra hcmp
    have hcmp' : compare (t.elems i) (t.elems j) = true := by simpa using hcmp
    rcases Nat.lt_or_gt_of_ne hij with hlt | hgt
    · have := pairwise_slots h.distinct hlt hj hocci hoccj
      simp [hcmp'] at this
    · have := pairwise_slots h.distinct hgt hi hoccj hocci
      simp [hc.symm _ _ hcmp'] at this
  size_eq := by rw [h.wf.size_eq, length_entries]

/-- **Every state of a run refines the set of the elements inserted and not since removed**, where
the scans of the removals move nothing across the end of the array in front of its home. Kind: P -/
theorem run_refines [Inhabited α] (hc : HashConsistent hash compare) (capacity : ℕ)
    (ops : List (Op α))
    (hkeep : removalsKeepChains hash compare (newHashTableWithCapacity capacity) ops = true)
    (pre post : List (Op α)) (hpre : ops = pre ++ post) :
    ∃ t, run hash compare (newHashTableWithCapacity capacity) pre = some t ∧
      RefinesSet hash compare t (present compare pre) := by
  subst hpre
  obtain ⟨t, hrun, hinv⟩ := run_inv hc pre _ _ (new_inv capacity)
    (removalsKeepChains_take pre post _ hkeep)
  exact ⟨t, hrun, hinv.refinesSet hc⟩

end

theorem id_hashConsistent : HashConsistent (α := UInt32) id (· == ·) where
  refl := by simp
  symm := by
    intro x y hxy
    rw [beq_iff_eq] at *
    exact hxy.symm
  trans := by
    intro x y z hxy hyz
    rw [beq_iff_eq] at *
    exact hxy.trans hyz
  hash_eq := by simp

/-- A run in which a removal closes a chain of three entries: the buckets of `1`, `8` and `15` are
`3`, `4` and `5` of seven. Kind: L -/
theorem run_refines_chain :
    ∃ t, run (α := UInt32) id (· == ·) (newHashTableWithCapacity 0)
        [.insert 1, .insert 8, .insert 15, .remove 1, .find 15] = some t ∧
      RefinesSet id (· == ·) t
        (present (· == ·) [.insert 1, .insert 8, .insert 15, .remove 1, .find 15]) :=
  run_refines id_hashConsistent 0 [.insert 1, .insert 8, .insert 15, .remove 1, .find 15]
    (by decide) _ [] rfl

/-- A removal that loses another element: `4` hashes to the last of seven buckets and `5` to the
first; removing `4` moves `5` in front of its home, where no lookup finds it. Kind: L -/
theorem remove_across_end_loses_element :
    HashConsistent (α := UInt32) id (· == ·) ∧
      ¬ ∃ t, run (α := UInt32) id (· == ·) (newHashTableWithCapacity 0)
          [.insert 4, .insert 5, .remove 4] = some t ∧
        RefinesSet id (· == ·) t (present (· == ·) [.insert 4, .insert 5, .remove 4]) := by
  refine ⟨id_hashConsistent, ?_⟩
  rintro ⟨t, hrun, href⟩
  have hlost : (run (α := UInt32) id (· == ·) (newHashTableWithCapacity 0)
      [.insert 4, .insert 5, .remove 4]).bind
        (fun t => findInHashTable (· == ·) t 5 (5 : UInt32)) = some none := by decide
  obtain ⟨i, hfind, -⟩ := href.found 5 (by decide)
  rw [hrun, Option.bind_some] at hlost
  rw [id, hlost] at hfind
  simp at hfind

end CxyCompiler.Core.HTableRuns
