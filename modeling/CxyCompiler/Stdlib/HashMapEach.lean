import CxyCompiler.Stdlib.HashMapRuns
import CxyCompiler.Lib.Loop

/-!
# Iteration of the library hash map (`stdlib/hash.cxy`)

Three scans over the slots: the closure of `..`, `each` and `map`. A `HashMap` hands out an entry as
the pair of its key and its value, a `HashSet` as its key: `view` is what is handed out. All of them
count slots with `var i = 0`, which is an `i8`.

* `nextRound`, `forRound`, `eachRound`, `mapRound` — the loops of the source, one round at a time.
* `for_leaves`, `each_leaves` — `..` and `each` come by the entries of the first 128 slots once, in
  order: all of them, where there are no more slots (`shownPairs_eq`).
* `not_leaves_map` — `map` stays at the first slot: it does not end on a map that has slots.
* `Iterates` — all three end, and hand out every entry once, in one order.
* `iterates_iff_cleared` — **a state of a run iterates exactly where nothing was inserted since a
  `clear`**; `insert_not_iterates` is a map of one entry.
-/

namespace CxyCompiler.Stdlib.HashMap

open CxyCompiler.Lib.Loop CxyCompiler.Lib.Probing CxyCompiler.Lib.RobinHood
open CxyCompiler.Runtime (toU64 toI8 nextI8)

section

variable {K V α β : Type} (view : K × V → α) (t : HashMap K V)

/-! ## The three scans -/

/-- `_nodes.[i]`, at an index that was compared as a `u64`. -/
def nodeAt (i : ℤ) : Option (Entry (K × V)) := t.nodes (toU64 i).toNat

/-- A round of the closure, which stands at slot `i`. It leaves with what it hands out and the slot
it goes on from when it is called again. Source: `hash.cxy` `..`. -/
def nextRound (i : ℤ) : Option ((Option α × ℤ) ⊕ ℤ) :=
  if toU64 i < t.capacity then
    match nodeAt t i with
    | some e => some (.inl (some (view e.elem), nextI8 i))
    | none => some (.inr (nextI8 i))
  else some (.inl (none, i))

/-- A round of a `for` loop over `..`: it calls the closure until that hands out `null`. -/
def forRound (s : ℤ × List α) : Option (List α ⊕ ℤ × List α) :=
  (loop (nextRound view t) (t.capacity + 1) s.1).map fun
    | (some x, i) => .inr (i, s.2 ++ [x])
    | (none, _) => .inl s.2

/-- The arguments that `fun` was called with are kept. Source: `hash.cxy` `each`. -/
def eachRound (s : ℤ × List α) : Option (List α ⊕ ℤ × List α) :=
  if toU64 s.1 < t.capacity then
    match nodeAt t s.1 with
    | some e => some (.inr (nextI8 s.1, s.2 ++ [view e.elem]))
    | none => some (.inr (nextI8 s.1, s.2))
  else some (.inl s.2)

/-- The body of this loop does not advance `i`. Source: `hash.cxy` `map`. -/
def mapRound (transform : α → β) (s : ℤ × List β) : Option (List β ⊕ ℤ × List β) :=
  if toU64 s.1 < t.capacity then
    match nodeAt t s.1 with
    | some e => some (.inr (s.1, s.2 ++ [transform (view e.elem)]))
    | none => some (.inr (s.1, s.2))
  else some (.inl s.2)

/-- **Iteration as it is asked for**: every live entry once, in one order for all three scans. -/
structure Visits (xs : List (K × V)) : Prop where
  perm : List.Perm xs (pairs t)
  size : xs.length = t.size
  iterator : Leaves (forRound view t) (0, []) (xs.map view)
  each : Leaves (eachRound view t) (0, []) (xs.map view)
  map : ∀ {β : Type} (transform : α → β),
    Leaves (mapRound view t transform) (0, []) (xs.map (transform ∘ view))

def Iterates : Prop := ∃ xs, Visits view t xs

/-! ## What the scans come by -/

/-- The number of slots that an `i8` counts. -/
def shown : ℕ := min t.capacity 128

/-- The pairs of these slots, from slot `i` on. -/
def pairsFrom (i : ℕ) : List (K × V) :=
  ((List.range' i (shown t - i)).filterMap t.nodes).map (·.elem)

def shownPairs : List (K × V) := pairsFrom t 0

/-- The counter behind `i` slots: it is negative behind the last one. -/
def counter (i : ℕ) : ℤ := if i < 128 then i else -128

variable {view t} {i : ℕ}

/-- **In a table of at most 128 slots all pairs are shown.** Kind: P -/
theorem shownPairs_eq (h : t.capacity ≤ 128) : shownPairs t = pairs t := by
  rw [shownPairs, pairsFrom, pairs, items, contents, List.range_eq_range', Nat.sub_zero, shown,
    Nat.min_eq_left h]

theorem nextI8_counter (h : i < shown t) : nextI8 (counter i) = counter (i + 1) := by
  unfold shown at h
  unfold nextI8 toI8 counter
  split_ifs <;> omega

/-- The loops go on exactly in front of a slot that is shown. Kind: L -/
theorem counter_lt_iff (hcap : t.capacity ≤ 2 ^ 63) : toU64
    (counter i) < t.capacity ↔ i < shown t := by
  unfold toU64 counter shown
  split_ifs <;> omega

theorem nodeAt_counter (h : i < shown t) : nodeAt t (counter i) = t.nodes i := by
  unfold shown at h
  have hslot : (toU64 (counter i)).toNat = i := by
    unfold toU64 counter
    split_ifs <;> omega
  rw [nodeAt, hslot]

theorem pairsFrom_end (h : ¬ i < shown t) : pairsFrom t i = [] := by
  rw [pairsFrom, show shown t - i = 0 by omega]
  rfl

/-- The slots from `i` on, with the first one apart. Kind: L -/
theorem range'_slot (h : i < shown t) :
    List.range' i (shown t - i) = i :: List.range' (i + 1) (shown t - (i + 1)) := by
  rw [show shown t - i = shown t - (i + 1) + 1 by omega, List.range'_succ]

theorem pairsFrom_none (h : i < shown t) (hi : t.nodes i = none) :
    pairsFrom t i = pairsFrom t (i + 1) := by
  rw [pairsFrom, range'_slot h, List.filterMap_cons_none hi, ← pairsFrom]

theorem pairsFrom_some (h : i < shown t) {e : Entry (K × V)} (hi : t.nodes i = some e) :
    pairsFrom t i = e.elem :: pairsFrom t (i + 1) := by
  rw [pairsFrom, range'_slot h, List.filterMap_cons_some hi, List.map_cons, ← pairsFrom]

/-- `each` calls `fun` with every entry that is shown from slot `i` on. Kind: L -/
theorem each_leaves_from (hcap : t.capacity ≤ 2 ^ 63) : ∀ (k i : ℕ)
    (calls : List α), shown t - i = k →
    Leaves (eachRound view t) (counter i, calls) (calls ++ (pairsFrom t i).map view) := by
  intro k
  induction k with
  | zero =>
      intro i calls hk
      have hend : ¬ i < shown t := by omega
      apply leaves_of_inl
      rw [eachRound, if_neg (mt (counter_lt_iff hcap).mp hend), pairsFrom_end hend, List.map_nil,
        List.append_nil]
  | succ k ih =>
      intro i calls hk
      have hlt : i < shown t := by omega
      rcases hi : t.nodes i with _ | e
      · have hround : eachRound view t (counter i, calls) = some
          (.inr (counter (i + 1), calls)) := by
          rw [eachRound, if_pos ((counter_lt_iff hcap).mpr hlt)]
          dsimp only
          rw [nodeAt_counter hlt, hi, nextI8_counter hlt]
        rw [leaves_iff_of_inr hround, pairsFrom_none hlt hi]
        apply ih
        omega
      · have hround : eachRound view t (counter i, calls) =
            some (.inr (counter (i + 1), calls ++ [view e.elem])) := by
          rw [eachRound, if_pos ((counter_lt_iff hcap).mpr hlt)]
          dsimp only
          rw [nodeAt_counter hlt, hi, nextI8_counter hlt]
        rw [leaves_iff_of_inr hround, pairsFrom_some hlt hi, List.map_cons,
          List.append_cons calls _ (List.map view _)]
        apply ih
        omega

/-- **`each` comes by every entry that is shown once.** Kind: P -/
theorem each_leaves (hcap : t.capacity ≤ 2 ^ 63) :
    Leaves (eachRound view t) (0, []) ((shownPairs t).map view) :=
  each_leaves_from hcap _ 0 [] rfl

/-- A call of the closure hands out the first entry from its slot on, and stands behind it.
Kind: L -/
theorem next_spec (hcap : t.capacity ≤ 2 ^ 63) : ∀ (k i : ℕ), shown t - i < k →
    ∃ j, loop (nextRound view t) k (counter i) = some ((pairsFrom t i).head?.map view, counter j) ∧
      pairsFrom t j = (pairsFrom t i).tail := by
  intro k
  induction k with
  | zero => intro i hk; omega
  | succ k ih =>
      intro i hk
      unfold loop
      by_cases hlt : i < shown t
      · rcases hi : t.nodes i with _ | e
        · have hround : nextRound view t (counter i) = some (.inr (counter (i + 1))) := by
            rw [nextRound, if_pos ((counter_lt_iff hcap).mpr hlt), nodeAt_counter hlt, hi,
              nextI8_counter hlt]
          rw [hround, pairsFrom_none hlt hi]
          apply ih
          omega
        · have hround : nextRound view t (counter i) =
              some (.inl (some (view e.elem), counter (i + 1))) := by
            rw [nextRound, if_pos ((counter_lt_iff hcap).mpr hlt), nodeAt_counter hlt, hi,
              nextI8_counter hlt]
          rw [hround, pairsFrom_some hlt hi]
          exact ⟨i + 1, rfl, rfl⟩
      · have hround : nextRound view t (counter i) = some (.inl (none, counter i)) := by
          rw [nextRound, if_neg (mt (counter_lt_iff hcap).mp hlt)]
        rw [hround, pairsFrom_end hlt]
        exact ⟨i, rfl, pairsFrom_end hlt⟩

/-- The loop over `..` comes by every entry that is shown from slot `i` on. Kind: L -/
theorem for_leaves_from (hcap : t.capacity ≤ 2 ^ 63) (xs : List (K × V)) :
    ∀ (i : ℕ) (seen : List α), pairsFrom t i = xs →
      Leaves (forRound view t) (counter i, seen) (seen ++ xs.map view) := by
  have hrounds : ∀ i, shown t - i < t.capacity + 1 := by
    intro i
    unfold shown
    omega
  induction xs with
  | nil =>
      intro i seen hxs
      obtain ⟨j, hnext, -⟩ := @next_spec _ _ _ view t hcap (t.capacity + 1) i (hrounds i)
      apply leaves_of_inl
      rw [forRound, hnext, hxs, List.map_nil, List.append_nil]
      rfl
  | cons x xs ih =>
      intro i seen hxs
      obtain ⟨j, hnext, hrest⟩ := @next_spec _ _ _ view t hcap (t.capacity + 1) i (hrounds i)
      have hround : forRound view t (counter i, seen) = some
        (.inr (counter j, seen ++ [view x])) := by
        rw [forRound, hnext, hxs]
        rfl
      rw [leaves_iff_of_inr hround, List.map_cons, List.append_cons seen _ (List.map view _)]
      apply ih
      rw [hrest, hxs]
      rfl

/-- **A `for` loop over `..` comes by every entry that is shown once.** Kind: P -/
theorem for_leaves (hcap : t.capacity ≤ 2 ^ 63) :
    Leaves (forRound view t) (0, []) ((shownPairs t).map view) :=
  for_leaves_from hcap (shownPairs t) 0 [] rfl

/-- **`map` does not end on a map that has slots**: it stays at the first of them. Kind: P -/
theorem not_leaves_map (h : 0 < t.capacity) (transform : α → β) (output : List β) :
    ¬ Leaves (mapRound view t transform) (0, []) output := by
  have hzero : toU64 0 < t.capacity := by
    unfold toU64
    omega
  apply @not_leaves_of_goes_on _ _ _ _ output (fun s : ℤ × List β => s.1 = 0)
  · rintro ⟨i, out⟩ rfl
    rcases hi : nodeAt t 0 with _ | e
    · refine ⟨(0, out), ?_, rfl⟩
      rw [mapRound, if_pos hzero]
      dsimp only
      rw [hi]
    · refine ⟨(0, out ++ [transform (view e.elem)]), ?_, rfl⟩
      rw [mapRound, if_pos hzero]
      dsimp only
      rw [hi]
  · rfl

/-- **A map iterates exactly where it has no slots.** Kind: P -/
theorem iterates_iff_capacity (hsize : t.capacity = 0 → t.size = 0) :
    Iterates view t ↔ t.capacity = 0 := by
  constructor
  · rintro ⟨xs, hxs⟩
    by_contra hcap
    exact not_leaves_map (Nat.pos_of_ne_zero hcap) id _ (hxs.map id)
  · intro hcap
    have hnone : ¬ 0 < shown t := by
      unfold shown
      omega
    have hnil : pairs t = [] := by
      rw [← shownPairs_eq (by omega)]
      exact pairsFrom_end hnone
    have heach := @each_leaves _ _ _ view t (by omega)
    have hfor := @for_leaves _ _ _ view t (by omega)
    rw [shownPairs_eq (by omega), hnil] at heach hfor
    refine ⟨[], by rw [hnil], (hsize hcap).symm, hfor, heach, fun transform => ?_⟩
    have hend : ¬ toU64 0 < t.capacity := by
      rw [hcap]
      decide
    apply leaves_of_inl
    rw [mapRound, if_neg hend]
    rfl

end

/-! ## The slots of a run -/

section

variable {K V α : Type} {hasher : K → ℕ} {cmp : K → K → Bool} {t t' : HashMap K V}

def clearedStep (c : Bool) : Op K V → Bool
  | .insert _ _ _ => false
  | .clear => true
  | _ => c

/-- Nothing was inserted since the last `clear`. -/
def cleared (ops : List (Op K V)) : Bool := ops.foldl clearedStep false

/-- A map without slots has no entries, and it has none of them exactly where `c` says so. -/
def Slotless (t : HashMap K V) (c : Bool) : Prop :=
  (t.capacity = 0 ↔ c = true) ∧ (t.capacity = 0 → t.size = 0)

theorem allocated_capacity_ne : (allocated t).capacity ≠ 0 := by
  unfold allocated
  split_ifs with h
  · exact (lt_idealSize 1).ne_bot
  · exact h

theorem insertInternal_capacity {k : K} {v : V} {replace : Bool} {r : HashMap K V × Bool}
    (h : insertInternal hasher cmp t k v replace = some r) :
    r.1.capacity = (allocated t).capacity := by
  unfold insertInternal at h
  obtain ⟨⟨nodes, i, added⟩, -, hr⟩ := Option.bind_eq_some_iff.mp h
  rw [← Option.some.inj hr]

theorem rehash_capacity {newCapacity : ℕ} (hne : newCapacity ≠ 0)
    (h : rehash hasher cmp t newCapacity = some t') : t'.capacity = newCapacity := by
  unfold rehash at h
  generalize hnew :
    ({ capacity := newCapacity, size := 0, nodes := fun _ => none } : HashMap K V) = new
    at h
  have hcap : new.capacity = newCapacity := by rw [← hnew]
  clear hnew
  revert new
  induction List.range t.capacity with
  | nil =>
      intro new h hcap
      rw [← Option.some.inj h, hcap]
  | cons i l ih =>
      intro new h hcap
      rw [List.foldlM_cons] at h
      obtain ⟨new', hput, hrest⟩ := Option.bind_eq_some_iff.mp h
      apply ih new' hrest
      rcases hi : t.nodes i with _ | e <;> rw [hi] at hput
      · rw [← Option.some.inj hput, hcap]
      · obtain ⟨r, hins, rfl⟩ := Option.map_eq_some_iff.mp hput
        rw [insertInternal_capacity hins, allocated, if_neg (by omega), hcap]

theorem insert_capacity_ne {k : K} {v : V} {replace : Bool} {r : HashMap K V × Bool}
    (h : insert hasher cmp t k v replace = some r) : r.1.capacity ≠ 0 := by
  unfold insert at h
  obtain ⟨⟨t₁, status⟩, hins, h⟩ := Option.bind_eq_some_iff.mp h
  have hcap : t₁.capacity ≠ 0 := by
    rw [insertInternal_capacity hins]
    exact allocated_capacity_ne
  cases status with
  | false => rw [← Option.some.inj h]; exact hcap
  | true =>
      obtain ⟨t₂, hmore, hr⟩ := Option.bind_eq_some_iff.mp h
      rw [← Option.some.inj hr]
      unfold resizeMore at hmore
      dsimp only at hmore
      split_ifs at hmore with hgrow
      · have hne : idealSize t₁.size ≠ 0 := by omega
        rw [rehash_capacity hne hmore]
        exact hne
      · rw [← Option.some.inj hmore]
        exact hcap

theorem remove_capacity {k : K} (hsize : t.capacity = 0 → t.size = 0)
    (h : remove hasher cmp t k = some t') : t' = t ∨ t.capacity ≠ 0 ∧ t'.capacity ≠ 0 := by
  by_cases hzero : t.size = 0
  · left
    have hfind : findRemoved hasher cmp t k = some none := by rw [findRemoved, if_pos hzero]
    unfold remove at h
    rw [hfind] at h
    exact (Option.some.inj h).symm
  · have hcap : t.capacity ≠ 0 := fun h0 => hzero (hsize h0)
    unfold remove at h
    obtain ⟨_ | i, -, h⟩ := Option.bind_eq_some_iff.mp h
    · exact Or.inl (Option.some.inj h).symm
    · right
      obtain ⟨nodes, -, h⟩ := Option.bind_eq_some_iff.mp h
      unfold resizeLess at h
      dsimp only at h
      refine ⟨hcap, ?_⟩
      split_ifs at h with hless
      · have hne : idealSize (t.size - 1) ≠ 0 := (lt_idealSize _).ne_bot
        rw [rehash_capacity hne h]
        exact hne
      · rw [← Option.some.inj h]
        exact hcap

theorem step_slotless {c : Bool} (h : Slotless t c) {op : Op K V}
    (hstep : step hasher cmp t op = some t') : Slotless t' (clearedStep c op) := by
  cases op with
  | insert k v replace =>
      obtain ⟨r, hr, rfl⟩ := Option.map_eq_some_iff.mp hstep
      have hne := insert_capacity_ne hr
      exact ⟨⟨fun h0 => absurd h0 hne, fun hc => absurd hc Bool.false_ne_true⟩, fun h0 =>
        absurd h0 hne⟩
  | remove k =>
      rcases remove_capacity h.2 hstep with rfl | ⟨hne, hne'⟩
      · exact h
      · refine ⟨⟨fun h0 => absurd h0 hne', fun hc => absurd (h.1.mpr hc) hne⟩, fun h0 =>
          absurd h0 hne'⟩
  | get k =>
      obtain ⟨_, -, rfl⟩ := Option.map_eq_some_iff.mp hstep
      exact h
  | contains k =>
      obtain ⟨_, -, rfl⟩ := Option.map_eq_some_iff.mp hstep
      exact h
  | clear =>
      rw [← Option.some.inj hstep]
      unfold clear
      split_ifs with h0
      · exact ⟨⟨fun _ => rfl, fun _ => h0⟩, h.2⟩
      · exact ⟨⟨fun _ => rfl, fun _ => rfl⟩, fun _ => rfl⟩

theorem run_slotless (ops : List (Op K V)) : ∀ {t : HashMap K V} {c : Bool}, Slotless t c →
    run hasher cmp t ops = some t' → Slotless t' (ops.foldl clearedStep c) := by
  induction ops with
  | nil =>
      intro t c h hrun
      rw [← Option.some.inj hrun]
      exact h
  | cons op ops ih =>
      intro t c h hrun
      unfold run at hrun
      rw [List.foldlM_cons] at hrun
      obtain ⟨t₁, hstep, hrest⟩ := Option.bind_eq_some_iff.mp hrun
      rw [List.foldl_cons]
      exact ih (step_slotless h hstep) hrest

/-- **A state of a run iterates exactly where nothing was inserted since a `clear`**; a map that is
never cleared does not iterate. Kind: P -/
theorem iterates_iff_cleared (view : K × V → α) (initialCapacity : ℕ) (ops : List (Op K V))
    (hrun : run hasher cmp (init initialCapacity) ops = some t) :
    Iterates view t ↔ cleared ops = true := by
  have hne : (init (K := K) (V := V) initialCapacity).capacity ≠ 0 := (lt_idealSize _).ne_bot
  have hinit : Slotless (init (K := K) (V := V) initialCapacity) false :=
    ⟨⟨fun h0 => absurd h0 hne, by simp⟩, fun h0 => absurd h0 hne⟩
  obtain ⟨hslots, hsize⟩ := run_slotless ops hinit hrun
  rw [iterates_iff_capacity hsize]
  exact hslots

end

/-- After an insertion and a removal, and after a `clear`. Kind: L -/
theorem iterates_iff_cleared_runs :
    (∃ t, run (K := ℕ) (V := ℕ) id (· == ·) (init 0)
      [.insert 3 30 true, .insert 8 80 true, .remove 3] =
        some t ∧ (Iterates id t ↔ false = true)) ∧
      ∃ t, run (K := ℕ) (V := Unit) id (· == ·) (init 0) [.insert 3 () true, .clear] = some t ∧
        (Iterates Prod.fst t ↔ true = true) := by
  have hrun : (run (K := ℕ) (V := ℕ) id (· == ·) (init 0)
      [.insert 3 30 true, .insert 8 80 true, .remove 3]).isSome = true := by decide
  have hrun' : (run (K := ℕ) (V := Unit) id (· == ·) (init 0)
      [.insert 3 () true, .clear]).isSome = true := by decide
  obtain ⟨t, ht⟩ := Option.isSome_iff_exists.mp hrun
  obtain ⟨t', ht'⟩ := Option.isSome_iff_exists.mp hrun'
  exact ⟨⟨t, ht, iterates_iff_cleared id 0 _ ht⟩, ⟨t', ht', iterates_iff_cleared Prod.fst 0 _ ht'⟩⟩

/-- `map` does not end on a map of one entry. Kind: L -/
theorem insert_not_iterates :
    ∃ t, run (K := ℕ) (V := ℕ) id (· == ·) (init 0) [.insert 3 30 true] = some t ∧
      ¬ Iterates id t := by
  have hrun : ((run (K := ℕ) (V := ℕ) id (· == ·) (init 0) [.insert 3 30 true]).map
      fun t => t.capacity) = some 5 := by decide
  obtain ⟨t, ht, hcap⟩ := Option.map_eq_some_iff.mp hrun
  refine ⟨t, ht, fun h => ?_⟩
  obtain ⟨xs, hxs⟩ := h
  exact not_leaves_map (by omega) id _ (hxs.map id)

end CxyCompiler.Stdlib.HashMap
