import Mathlib.Data.List.Chain
import Mathlib.Data.List.Perm.Basic
import Mathlib.Order.Lattice

/-!
# Merge sort with a comparison that can fail

A comparison gives the sign of a difference, or no result. The sort has no result once it makes a
comparison that has none.

* `msort` — halves are sorted and merged, the first half goes first where the comparison is not
  positive.
* `Ordered cmp x y` — a comparison of `x` and `y` that was made puts `x` first.
* `msort_some` — **a sort with a result is a permutation in which neighbours have been compared**.
* `msort_total` — the sort has a result when all comparisons have one.
* `msort_ne_none_iff` — where elements of one key cannot be compared, **the sort has a result
  exactly if no two of them occur**.
-/

namespace CxyCompiler.Lib.MergeSort

variable {α : Type} (cmp : α → α → Option Int)

/-- A list with head `x` is merged with another; `rest` merges the tail. -/
def mergeHead (x : α) (xs : List α) (rest : List α → Option (List α)) : List α → Option (List α)
  | [] => some (x :: xs)
  | y :: ys =>
      (cmp x y).bind fun c =>
        if c ≤ 0 then (rest (y :: ys)).map (x :: ·) else (mergeHead x xs rest ys).map (y :: ·)

def merge : List α → List α → Option (List α)
  | [] => some
  | x :: xs => mergeHead cmp x xs (merge xs)

/-- The sort, halving at most so often. -/
def msortRounds : ℕ → List α → Option (List α)
  | 0, l => some l
  | rounds + 1, l =>
      if l.length ≤ 1 then some l
      else
        (msortRounds rounds (l.take (l.length / 2))).bind fun xs =>
          (msortRounds rounds (l.drop (l.length / 2))).bind fun ys => merge cmp xs ys

def msort (l : List α) : Option (List α) := msortRounds cmp l.length l

def Ordered (x y : α) : Prop := (∃ c ≤ 0, cmp x y = some c) ∨ ∃ c > 0, cmp y x = some c

variable {cmp}

/-! ## Merging -/

theorem merge_cons_cons (x y : α) (xs ys : List α) :
    merge cmp (x :: xs) (y :: ys) = (cmp x y).bind fun c =>
      if c ≤ 0 then (merge cmp xs (y :: ys)).map (x :: ·)
      else (merge cmp (x :: xs) ys).map (y :: ·) := rfl

/-- What merging two lists in order gives. -/
structure Merged (cmp : α → α → Option Int) (xs ys r : List α) : Prop where
  perm : r.Perm (xs ++ ys)
  chain : xs.IsChain (Ordered cmp) → ys.IsChain (Ordered cmp) → r.IsChain (Ordered cmp)
  head : ∀ z ∈ r.head?, z ∈ xs.head? ∨ z ∈ ys.head?

theorem merge_some : ∀ {xs ys r : List α}, merge cmp xs ys = some r → Merged cmp xs ys r
  | [], ys, r, h => by
      obtain rfl := Option.some.inj h
      exact ⟨List.Perm.refl _, fun _ hy => hy, fun z hz => .inr hz⟩
  | x :: xs, [], r, h => by
      obtain rfl := Option.some.inj h
      refine ⟨?_, fun hx _ => hx, fun z hz => .inl hz⟩
      rw [List.append_nil]
  | x :: xs, y :: ys, r, h => by
      rw [merge_cons_cons] at h
      obtain ⟨c, hc, h⟩ := Option.bind_eq_some_iff.mp h
      by_cases hle : c ≤ 0
      · rw [if_pos hle] at h
        obtain ⟨r, hr, rfl⟩ := Option.map_eq_some_iff.mp h
        have hm := merge_some hr
        refine ⟨hm.perm.cons x, fun hx hy => ?_, fun z hz => .inl hz⟩
        rw [List.isChain_cons]
        refine ⟨fun z hz => ?_, hm.chain hx.tail hy⟩
        rcases hm.head z hz with hz | hz
        · exact (List.isChain_cons.mp hx).1 z hz
        · rw [← Option.some.inj hz]
          exact .inl ⟨c, hle, hc⟩
      · rw [if_neg hle] at h
        obtain ⟨r, hr, rfl⟩ := Option.map_eq_some_iff.mp h
        have hm := merge_some hr
        refine ⟨(hm.perm.cons y).trans List.perm_middle.symm, fun hx hy => ?_, fun z hz => .inr hz⟩
        rw [List.isChain_cons]
        refine ⟨fun z hz => ?_, hm.chain hx hy.tail⟩
        rcases hm.head z hz with hz | hz
        · rw [← Option.some.inj hz]
          exact .inr ⟨c, Int.not_le.mp hle, hc⟩
        · exact (List.isChain_cons.mp hy).1 z hz
termination_by xs ys => xs.length + ys.length

theorem merge_total : ∀ {xs ys : List α}, (∀ x ∈ xs, ∀ y ∈ ys, cmp x y ≠ none) →
    merge cmp xs ys ≠ none
  | [], ys, _, h => by cases h
  | x :: xs, [], _, h => by cases h
  | x :: xs, y :: ys, hcmp, h => by
      obtain ⟨c, hc⟩ := Option.ne_none_iff_exists'.mp
        (hcmp x (List.mem_cons_self ..) y (List.mem_cons_self ..))
      rw [merge_cons_cons, hc, Option.bind_some] at h
      by_cases hle : c ≤ 0
      · rw [if_pos hle, Option.map_eq_none_iff] at h
        exact merge_total (fun a ha => hcmp a (List.mem_cons_of_mem x ha)) h
      · rw [if_neg hle, Option.map_eq_none_iff] at h
        exact merge_total (fun a ha b hb => hcmp a ha b (List.mem_cons_of_mem y hb)) h
termination_by xs ys => xs.length + ys.length

/-! ## Sorting -/

theorem half_lt {l : List α} (h : ¬ l.length ≤ 1) {rounds : ℕ} (hr : l.length ≤ rounds + 1) :
    (l.take (l.length / 2)).length ≤ rounds ∧ (l.drop (l.length / 2)).length ≤ rounds := by
  rw [List.length_take, List.length_drop]
  omega

theorem msortRounds_some : ∀ (rounds : ℕ) {l r : List α}, l.length ≤ rounds →
    msortRounds cmp rounds l = some r → r.Perm l ∧ r.IsChain (Ordered cmp) := by
  intro rounds
  induction rounds with
  | zero =>
      intro l r hl h
      obtain rfl := Option.some.inj h
      obtain rfl := List.length_eq_zero_iff.mp (Nat.le_zero.mp hl)
      exact ⟨List.Perm.refl _, List.IsChain.nil⟩
  | succ rounds ih =>
      intro l r hl h
      unfold msortRounds at h
      by_cases hshort : l.length ≤ 1
      · rw [if_pos hshort] at h
        obtain rfl := Option.some.inj h
        refine ⟨List.Perm.refl _, ?_⟩
        rcases l with _ | ⟨x, _ | ⟨y, l⟩⟩
        · exact List.IsChain.nil
        · exact List.IsChain.singleton x
        · rw [List.length_cons, List.length_cons] at hshort
          omega
      · rw [if_neg hshort] at h
        obtain ⟨xs, hxs, h⟩ := Option.bind_eq_some_iff.mp h
        obtain ⟨ys, hys, h⟩ := Option.bind_eq_some_iff.mp h
        obtain ⟨hfirst, hsecond⟩ := half_lt hshort hl
        obtain ⟨hxperm, hxchain⟩ := ih hfirst hxs
        obtain ⟨hyperm, hychain⟩ := ih hsecond hys
        have hm := merge_some h
        refine ⟨hm.perm.trans ?_, hm.chain hxchain hychain⟩
        have happend := hxperm.append hyperm
        rwa [List.take_append_drop] at happend

theorem msortRounds_total : ∀ (rounds : ℕ) {l : List α}, l.length ≤ rounds →
    (l.Pairwise fun x y => cmp x y ≠ none) → msortRounds cmp rounds l ≠ none := by
  intro rounds
  induction rounds with
  | zero => intro l _ _ h; cases h
  | succ rounds ih =>
      intro l hl hpair h
      unfold msortRounds at h
      by_cases hshort : l.length ≤ 1
      · rw [if_pos hshort] at h
        cases h
      · rw [if_neg hshort] at h
        obtain ⟨hfirst, hsecond⟩ := half_lt hshort hl
        rw [← List.take_append_drop (l.length / 2) l, List.pairwise_append] at hpair
        obtain ⟨hpfirst, hpsecond, hcross⟩ := hpair
        obtain ⟨xs, hxs⟩ := Option.ne_none_iff_exists'.mp (ih hfirst hpfirst)
        obtain ⟨ys, hys⟩ := Option.ne_none_iff_exists'.mp (ih hsecond hpsecond)
        have hxperm := (msortRounds_some rounds hfirst hxs).1
        have hyperm := (msortRounds_some rounds hsecond hys).1
        rw [hxs, hys, Option.bind_some, Option.bind_some] at h
        refine merge_total (fun x hx y hy => ?_) h
        exact hcross x (hxperm.mem_iff.mp hx) y (hyperm.mem_iff.mp hy)

/-- **A sort with a result** is a permutation in which neighbours have been compared. Kind: P -/
theorem msort_some {l r : List α} (h : msort cmp l = some r) :
    r.Perm l ∧ r.IsChain (Ordered cmp) :=
  msortRounds_some l.length (le_refl _) h

/-- The sort has a result when all comparisons have one. Kind: L -/
theorem msort_total {l : List α} (h : l.Pairwise fun x y => cmp x y ≠ none) : msort cmp l ≠ none :=
  msortRounds_total l.length (le_refl _) h

/-! ## Keys -/

section Keys

variable {κ : Type} [LinearOrder κ] {key : α → κ} {l r : List α}

/-- Where comparisons go by a key, the sort does. Kind: L -/
theorem msort_sorted (hle : ∀ x y c, cmp x y = some c → c ≤ 0 → key x ≤ key y)
    (hge : ∀ x y c, cmp x y = some c → 0 < c → key y ≤ key x) (h : msort cmp l = some r) :
    r.Pairwise fun x y => key x ≤ key y := by
  have hchain : r.IsChain fun x y => key x ≤ key y := by
    refine (msort_some h).2.imp fun x y hxy => ?_
    rcases hxy with ⟨c, hc, hcmp⟩ | ⟨c, hc, hcmp⟩
    · exact hle x y c hcmp hc
    · exact hge y x c hcmp hc
  have htrans : IsTrans α fun x y => key x ≤ key y := ⟨fun _ _ _ => le_trans⟩
  exact List.isChain_iff_pairwise.mp hchain

/-- Elements of one key stand side by side, so that two of them would have been compared. Kind: L -/
theorem pairwise_of_chain {P : κ → Prop}
    (hnone : ∀ x y, cmp x y = none ↔ key x = key y ∧ P (key x)) :
    ∀ {r : List α}, r.IsChain (Ordered cmp) → (r.Pairwise fun x y => key x ≤ key y) →
      r.Pairwise fun x y => cmp x y ≠ none
  | [], _, _ => List.Pairwise.nil
  | [x], _, _ => List.pairwise_singleton _ x
  | x :: y :: r, hchain, hsorted => by
      obtain ⟨hx, hrest⟩ := List.pairwise_cons.mp hsorted
      refine List.pairwise_cons.mpr ⟨fun z hz hcmp => ?_, pairwise_of_chain hnone hchain.tail hrest⟩
      obtain ⟨hkey, hP⟩ := (hnone x z).mp hcmp
      have hxy : key x ≤ key y := hx y (List.mem_cons_self ..)
      have hyz : key y ≤ key z := by
        rcases List.mem_cons.mp hz with rfl | hz
        · exact le_refl _
        · exact (List.pairwise_cons.mp hrest).1 z hz
      have heq : key x = key y := le_antisymm hxy (hkey ▸ hyz)
      have hfirst : cmp x y = none := (hnone x y).mpr ⟨heq, hP⟩
      have hsecond : cmp y x = none := (hnone y x).mpr ⟨heq.symm, heq ▸ hP⟩
      rcases (List.isChain_cons_cons.mp hchain).1 with ⟨c, -, hc⟩ | ⟨c, -, hc⟩
      · cases hfirst.symm.trans hc
      · cases hsecond.symm.trans hc

/-- **The sort has a result exactly if no two elements occur that cannot be compared.** Kind: P -/
theorem msort_ne_none_iff {P : κ → Prop} (hle : ∀ x y c, cmp x y = some c → c ≤ 0 → key x ≤ key y)
    (hge : ∀ x y c, cmp x y = some c → 0 < c → key y ≤ key x)
    (hnone : ∀ x y, cmp x y = none ↔ key x = key y ∧ P (key x)) :
    msort cmp l ≠ none ↔ l.Pairwise fun x y => cmp x y ≠ none := by
  refine ⟨fun h => ?_, msort_total⟩
  obtain ⟨r, hr⟩ := Option.ne_none_iff_exists'.mp h
  obtain ⟨hperm, hchain⟩ := msort_some hr
  have hpair := pairwise_of_chain hnone hchain (msort_sorted hle hge hr)
  refine (hperm.pairwise_iff fun {x y} hxy hyx => hxy ?_).mp hpair
  obtain ⟨hkey, hP⟩ := (hnone y x).mp hyx
  exact (hnone x y).mpr ⟨hkey.symm, hkey ▸ hP⟩

end Keys

end CxyCompiler.Lib.MergeSort
