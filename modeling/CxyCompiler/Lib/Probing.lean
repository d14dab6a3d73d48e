import Mathlib.Data.List.Perm.Basic
import Mathlib.Data.List.Range
import Mathlib.Logic.Function.Basic
import Mathlib.Tactic.Linarith
import Mathlib.Tactic.SplitIfs

/-!
# Linear probing on a ring of slots

A ring of `n` slots is a function `s : ℕ → Option β` read below `n`; every entry has a home slot
`home e < n`. Nothing here knows about hashes, keys or capacities.

* `gap n b i` — how many steps of `incr n` lead from `b` to `i` on the ring.
* `probeWhile n go fuel i` — walk the ring from `i` while `go` holds; `probeWhile_spec` says where
  the walk stops as soon as some slot of the ring stops it.
* `Reachable n home s` — **the probing invariant**: no slot between the home of an entry and its
  position is empty. `Reachable.update_some` adds an entry at the first empty slot of its chain.
* `ReachableBut n home s h p` — the invariant while the hole `h` of a deletion is being shifted
  and the scan stands at `p`: a chain may be interrupted at `h` only, and only for entries at `p`
  or later. `start`, `skip`, `move` and `stop` are its four rules.
* `contents n s` — the entries as a list; `contents_update_some`, `contents_update_none` and
  `contents_move` say what an update does to it, up to order.
-/

namespace CxyCompiler.Lib.Probing

/-! ## Distances on the ring -/

/-- The slot after `i`. -/
def incr (n i : ℕ) : ℕ := if i + 1 ≥ n then 0 else i + 1

/-- The number of steps from `b` to `i`. -/
def gap (n b i : ℕ) : ℕ := if b ≤ i then i - b else i + n - b

theorem incr_lt {n i : ℕ} (hn : 0 < n) : incr n i < n := by
  unfold incr
  split_ifs <;> omega

@[simp] theorem gap_self (n b : ℕ) : gap n b b = 0 := by simp [gap]

theorem gap_lt {n b i : ℕ} (hb : b < n) (hi : i < n) : gap n b i < n := by
  unfold gap
  split_ifs <;> omega

theorem gap_eq_zero {n b i : ℕ} (hb : b < n) : gap n b i = 0 ↔ b = i := by
  unfold gap
  split_ifs <;> omega

/-- Two slots at the same distance from `b` are one slot. Kind: L -/
theorem gap_inj {n b i j : ℕ} (hb : b < n) (hi : i < n) (hj : j < n)
    (h : gap n b i = gap n b j) : i = j := by
  unfold gap at h
  split_ifs at h <;> omega

/-- A step towards `i` shortens the way to `i` by one. Kind: L -/
theorem gap_incr {n b i : ℕ} (hb : b < n) (hi : i < n) (hne : b ≠ i) :
    gap n (incr n b) i + 1 = gap n b i := by
  unfold gap incr
  split_ifs <;> omega

/-- A step of the far end lengthens the way by one, unless it closes the ring. Kind: L -/
theorem gap_incr_right {n h p : ℕ} (hh : h < n) (hp : p < n) (hne : incr n p ≠ h) :
    gap n h (incr n p) = gap n h p + 1 := by
  unfold incr at hne ⊢
  unfold gap
  split_ifs at hne ⊢ <;> omega

/-- A slot met strictly after `h` on the way from `b` to `i` lies between `h` and `i`. Kind: L -/
theorem gap_lt_of_between {n b h p i : ℕ} (hb : b < n) (hh : h < n) (hp : p < n) (hi : i < n)
    (hhi : gap n b h < gap n b i) (hpi : gap n h p < gap n h i) :
    gap n b p < gap n b i := by
  unfold gap at *
  split_ifs at * <;> omega

/-! ## Walking the ring -/

/-- Walk from `i` while `go` holds, for at most `fuel` slots. -/
def probeWhile (n : ℕ) (go : ℕ → Bool) : ℕ → ℕ → Option ℕ
  | 0, _ => none
  | fuel + 1, i => if go i then probeWhile n go fuel (incr n i) else some i

/-- **Where a walk stops.** If some slot of the ring stops the walk, `n` steps of fuel are enough,
and the walk stops at the first slot that does. Kind: P -/
theorem probeWhile_spec {n : ℕ} (go : ℕ → Bool) {b e : ℕ} (hb : b < n) (he : e < n)
    (hstop : go e = false) :
    ∃ i, probeWhile n go n b = some i ∧ i < n ∧ go i = false ∧
      ∀ j < n, gap n b j < gap n b i → go j = true := by
  suffices h : ∀ fuel b, b < n → gap n b e < fuel →
      ∃ i, probeWhile n go fuel b = some i ∧ i < n ∧ go i = false ∧
        ∀ j < n, gap n b j < gap n b i → go j = true from
    h n b hb (gap_lt hb he)
  intro fuel
  induction fuel with
  | zero => intro b _ h; omega
  | succ fuel ih =>
      intro b hb hlt
      by_cases hgo : go b = true
      · have hne : b ≠ e := by rintro rfl; simp [hstop] at hgo
        have hstep := gap_incr hb he hne
        obtain ⟨i, hi, hin, hgi, hall⟩ := ih (incr n b) (incr_lt (by omega)) (by omega)
        refine ⟨i, by simp [probeWhile, hgo, hi], hin, hgi, fun j hj hji => ?_⟩
        by_cases hbj : b = j
        · exact hbj ▸ hgo
        · have hbi : b ≠ i := by rintro rfl; simp [hgi] at hgo
          have h1 := gap_incr hb hj hbj
          have h2 := gap_incr hb hin hbi
          exact hall j hj (by omega)
      · refine ⟨b, by simp [probeWhile, hgo], hb, by simpa using hgo, fun j _ hj => ?_⟩
        simp at hj

/-! ## The probing invariant -/

variable {β : Type*} {n : ℕ} {home : β → ℕ} {s : ℕ → Option β}

/-- Every slot between the home of an entry and its position is taken. -/
def Reachable (n : ℕ) (home : β → ℕ) (s : ℕ → Option β) : Prop :=
  ∀ i < n, ∀ e, s i = some e → ∀ j < n, gap n (home e) j < gap n (home e) i → s j ≠ none

/-- Adding an entry at the first empty slot of its chain keeps the invariant. Kind: L -/
theorem Reachable.update_some (hs : Reachable n home s) {i : ℕ} (e : β)
    (hi : ∀ j < n, gap n (home e) j < gap n (home e) i → s j ≠ none) :
    Reachable n home (Function.update s i (some e)) := by
  intro k hk f hf j hj hjk
  by_cases hji : j = i
  · subst hji; simp
  rw [Function.update_of_ne hji]
  by_cases hki : k = i
  · subst hki
    rw [Function.update_self, Option.some.injEq] at hf
    subst hf
    exact hi j hj hjk
  · rw [Function.update_of_ne hki] at hf
    exact hs k hk f hf j hj hjk

/-- The invariant while a deletion shifts its hole: `h` is the hole, the scan stands at `p`, and
a chain may be interrupted at `h` only for entries not yet scanned. -/
def ReachableBut (n : ℕ) (home : β → ℕ) (s : ℕ → Option β) (h p : ℕ) : Prop :=
  s h = none ∧ ∀ i < n, ∀ e, s i = some e → ∀ j < n, gap n (home e) j < gap n (home e) i →
    s j ≠ none ∨ (j = h ∧ gap n h p ≤ gap n h i)

/-- Emptying a slot opens the hole there. Kind: L -/
theorem ReachableBut.start (hs : Reachable n home s) {h : ℕ} (hh : h < n) :
    ReachableBut n home (Function.update s h none) h (incr n h) := by
  refine ⟨by simp, fun i hi e he j hj hji => ?_⟩
  have hih : i ≠ h := by rintro rfl; simp at he
  rw [Function.update_of_ne hih] at he
  by_cases hjh : j = h
  · right
    refine ⟨hjh, ?_⟩
    have h1 : gap n h i ≠ 0 := fun h0 => hih ((gap_eq_zero hh).mp h0).symm
    by_cases hne : incr n h = h
    · rw [hne]; simp
    · have := gap_incr_right hh hh hne
      simp at this
      omega
  · left
    rw [Function.update_of_ne hjh]
    exact hs i hi e he j hj hji

/-- The scan passes over an entry whose chain does not contain the hole. Kind: L -/
theorem ReachableBut.skip {h p : ℕ} {e : β} (hs : ReachableBut n home s h p) (hh : h < n)
    (hp : p < n) (he : s p = some e) (hskip : ¬ gap n (home e) h < gap n (home e) p) :
    ReachableBut n home s h (incr n p) := by
  refine ⟨hs.1, fun i hi f hf j hj hji => ?_⟩
  rcases hs.2 i hi f hf j hj hji with hsome | ⟨rfl, hle⟩
  · exact Or.inl hsome
  · refine Or.inr ⟨rfl, ?_⟩
    by_cases hpi : p = i
    · subst hpi
      rw [he, Option.some.injEq] at hf
      subst hf
      exact absurd hji hskip
    · by_cases hne : incr n p = j
      · rw [hne]; simp
      · rw [gap_incr_right hh hp hne]
        have : gap n j p ≠ gap n j i := fun h0 => hpi (gap_inj hh hp hi h0)
        omega

/-- The scan moves an entry whose chain contains the hole into it; its old slot is the new hole.
Kind: L -/
theorem ReachableBut.move {h p : ℕ} {e : β} (hs : ReachableBut n home s h p) (hh : h < n)
    (hp : p < n) (he : s p = some e) (hmove : gap n (home e) h < gap n (home e) p) :
    ReachableBut n home (Function.update (Function.update s h (some e)) p none) p (incr n p) := by
  have hhp : h ≠ p := by rintro rfl; rw [hs.1] at he; simp at he
  refine ⟨by simp, fun i hi f hf j hj hji => ?_⟩
  have hip : i ≠ p := by rintro rfl; simp at hf
  rw [Function.update_of_ne hip] at hf
  by_cases hjp : j = p
  · refine Or.inr ⟨hjp, ?_⟩
    have h1 : gap n p i ≠ 0 := fun h0 => hip ((gap_eq_zero hp).mp h0).symm
    by_cases hne : incr n p = p
    · rw [hne]; simp
    · have := gap_incr_right hp hp hne
      simp at this
      omega
  left
  rw [Function.update_of_ne hjp]
  by_cases hjh : j = h
  · subst hjh; simp
  rw [Function.update_of_ne hjh]
  by_cases hih : i = h
  · subst hih
    rw [Function.update_self, Option.some.injEq] at hf
    subst hf
    rcases hs.2 p hp e he j hj (by omega) with hsome | ⟨hj', _⟩
    · exact hsome
    · exact absurd hj' hjh
  · rw [Function.update_of_ne hih] at hf
    rcases hs.2 i hi f hf j hj hji with hsome | ⟨hj', _⟩
    · exact hsome
    · exact absurd hj' hjh

/-- The scan stops at an empty slot: no chain is interrupted any more. Kind: L -/
theorem ReachableBut.stop {h p : ℕ} (hs : ReachableBut n home s h p) (hhome : ∀ e, home e < n)
    (hh : h < n) (hp : p < n) (hempty : s p = none) (hhp : h ≠ p) : Reachable n home s := by
  intro i hi e he j hj hji
  rcases hs.2 i hi e he j hj hji with hsome | ⟨rfl, hle⟩
  · exact hsome
  · -- `p` lies strictly between the hole and `i`, hence on the chain of `i`
    have hpi : p ≠ i := by rintro rfl; rw [hempty] at he; simp at he
    have hlt : gap n j p < gap n j i :=
      lt_of_le_of_ne hle fun h0 => hpi (gap_inj hh hp hi h0)
    have hbetween := gap_lt_of_between (hhome e) hh hp hi hji hlt
    rcases hs.2 i hi e he p hp hbetween with hsome | ⟨hpj, _⟩
    · exact absurd hempty hsome
    · exact absurd hpj.symm hhp

/-! ## The contents of a ring -/

/-- The entries of the ring, in slot order. -/
def contents (n : ℕ) (s : ℕ → Option β) : List β := (List.range n).filterMap s

theorem mem_contents {e : β} : e ∈ contents n s ↔ ∃ i < n, s i = some e := by
  simp [contents]

/-- Filling an empty slot adds one entry. Kind: L -/
theorem contents_update_some {i : ℕ} (e : β) (hi : i < n) (hempty : s i = none) :
    List.Perm (contents n (Function.update s i (some e))) (e :: contents n s) := by
  unfold contents
  induction n with
  | zero => omega
  | succ n ih =>
      rw [List.range_succ, List.filterMap_append, List.filterMap_append]
      by_cases hin : i = n
      · subst hin
        have hpre : (List.range i).filterMap (Function.update s i (some e)) =
            (List.range i).filterMap s := by
          apply List.filterMap_congr
          intro j hj
          rw [Function.update_of_ne]
          exact (List.mem_range.mp hj).ne
        rw [hpre]
        simp [hempty]
      · have hlast : [n].filterMap (Function.update s i (some e)) = [n].filterMap s := by
          simp [List.filterMap_cons, Function.update_of_ne (Ne.symm hin)]
        rw [hlast]
        exact (ih (by omega)).append_right _

/-- Emptying a taken slot drops its entry. Kind: L -/
theorem contents_update_none {i : ℕ} {e : β} (hi : i < n) (he : s i = some e) :
    List.Perm (contents n s) (e :: contents n (Function.update s i none)) := by
  have h := contents_update_some (s := Function.update s i none) e hi (by simp)
  rwa [Function.update_idem, ← he, Function.update_eq_self] at h

/-- Moving an entry into an empty slot changes nothing but the order. Kind: L -/
theorem contents_move {h p : ℕ} {e : β} (hh : h < n) (hp : p < n) (hempty : s h = none)
    (he : s p = some e) :
    List.Perm (contents n (Function.update (Function.update s h (some e)) p none))
      (contents n s) := by
  have hhp : h ≠ p := by rintro rfl; rw [hempty] at he; simp at he
  have h1 := contents_update_some e hh hempty
  have h2 := contents_update_none (s := Function.update s h (some e)) hp
    (by rw [Function.update_of_ne hhp.symm]; exact he)
  exact ((h1.symm.trans h2).cons_inv).symm

/-- A relation between the entries, in slot order, is one between taken slots. Kind: L -/
theorem pairwise_contents {r : β → β → Prop} (h : (contents n s).Pairwise r) {i j : ℕ} {e f : β}
    (hij : i < j) (hj : j < n) (he : s i = some e) (hf : s j = some f) : r e f := by
  unfold contents at h
  rw [List.pairwise_filterMap, List.pairwise_iff_getElem] at h
  have := h i j (by simpa using hij.trans hj) (by simpa using hj) hij
  simp only [List.getElem_range] at this
  exact this e he f hf

/-- A ring with fewer entries than slots has an empty slot. Kind: L -/
theorem exists_empty (h : (contents n s).length < n) : ∃ i < n, s i = none := by
  by_contra hc
  push Not at hc
  have hlen : (contents n s).length = n := by
    unfold contents
    clear h
    induction n with
    | zero => simp
    | succ n ih =>
        obtain ⟨e, he⟩ := Option.ne_none_iff_exists'.mp (hc n (by omega))
        rw [List.range_succ, List.filterMap_append, List.length_append,
          ih fun i hi => hc i (by omega)]
        simp [he]
  omega

end CxyCompiler.Lib.Probing
