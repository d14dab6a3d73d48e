import Mathlib.Data.List.Sort
import Mathlib.Order.Compare

/-!
# Sorting and searching (`core/utils.c`)

* `binarySearch` — the search of a sorted array.
* `Qsort` — what `qsort` promises: the elements in the order of their keys, equal keys in any order.
* `findByKey` — an element of a sorted copy. **It finds one with the key if there is one.**
-/

namespace CxyCompiler.Core

section

variable {α : Type}

/-- The loop; `compare` tells how the key lies to an element.
Source: `utils.c` `binarySearch`. -/
def binarySearchLoop (compare : α → Ordering) (arr : List α) : ℕ → ℤ → ℤ → Option ℕ
  | 0, _, _ => none
  | fuel + 1, lower, upper =>
      if lower ≤ upper then
        let mid := lower + (upper - lower) / 2
        match arr[mid.toNat]?.map compare with
        | some .eq => some mid.toNat
        | some .gt => binarySearchLoop compare arr fuel (mid + 1) upper
        | some .lt => binarySearchLoop compare arr fuel lower (mid - 1)
        | none => none
      else none

/-- Source: `utils.c` `binarySearch`. -/
def binarySearch (compare : α → Ordering) (arr : List α) : Option ℕ :=
  binarySearchLoop compare arr (arr.length + 1) 0 (arr.length - 1)

variable {compare : α → Ordering} {arr : List α}

theorem binarySearchLoop_eq_some {fuel i : ℕ} : ∀ {lower upper : ℤ},
    binarySearchLoop compare arr fuel lower upper = some i →
      ∃ x, arr[i]? = some x ∧ compare x = .eq := by
  induction fuel with
  | zero =>
      intro lower upper h
      simp [binarySearchLoop] at h
  | succ fuel ih =>
      intro lower upper h
      rw [binarySearchLoop] at h
      split_ifs at h with hle
      dsimp only at h
      split at h
      · next heq =>
          obtain ⟨x, hx, hcomp⟩ := Option.map_eq_some_iff.mp heq
          obtain rfl := Option.some.inj h
          exact ⟨x, hx, hcomp⟩
      · exact ih h
      · exact ih h
      · exact absurd h (by simp)

/-- The comparison falls along the array. -/
def Falls (compare : α → Ordering) (arr : List α) : Prop :=
  ∀ (i j : ℕ) (x y : α), i < j → arr[i]? = some x → arr[j]? = some y →
    (compare x = .lt → compare y = .lt) ∧ (compare y = .gt → compare x = .gt)

/-- An element with the key stays between the bounds until it is found. Kind: L -/
theorem binarySearchLoop_eq_none (hfalls : Falls compare arr) {fuel k : ℕ} {x : α}
    (hk : arr[k]? = some x) (hx : compare x = .eq) : ∀ {lower upper : ℤ}, 0 ≤ lower →
      upper < arr.length → upper - lower + 1 < fuel → lower ≤ k → (k : ℤ) ≤ upper →
      binarySearchLoop compare arr fuel lower upper ≠ none := by
  induction fuel with
  | zero =>
      intro lower upper h0 hlen hfuel hl hu
      omega
  | succ fuel ih =>
      intro lower upper h0 hlen hfuel hl hu
      rw [binarySearchLoop, if_pos (hl.trans hu)]
      dsimp only
      set mid := lower + (upper - lower) / 2 with hmid
      have hmid0 : 0 ≤ mid := by omega
      have hin : mid.toNat < arr.length := by omega
      have hy : arr[mid.toNat]? = some arr[mid.toNat] := List.getElem?_eq_getElem hin
      rw [hy, Option.map_some]
      cases hcomp : compare arr[mid.toNat] with
      | eq => simp
      | gt =>
          -- the key lies above the middle
          refine ih (by omega) hlen (by omega) ?_ hu
          by_contra hlow
          rcases Nat.lt_or_ge k mid.toNat with hlt | hge
          · have := (hfalls k mid.toNat x _ hlt hk hy).2 hcomp
            rw [hx] at this
            exact absurd this (by simp)
          · have hkm : k = mid.toNat := by omega
            subst hkm
            rw [hy, Option.some.injEq] at hk
            rw [hk, hx] at hcomp
            exact absurd hcomp (by simp)
      | lt =>
          refine ih h0 (by omega) (by omega) hl ?_
          by_contra hhigh
          rcases Nat.lt_or_ge mid.toNat k with hlt | hge
          · have := (hfalls mid.toNat k _ x hlt hy hk).1 hcomp
            rw [hx] at this
            exact absurd this (by simp)
          · have hkm : k = mid.toNat := by omega
            subst hkm
            rw [hy, Option.some.injEq] at hk
            rw [hk, hx] at hcomp
            exact absurd hcomp (by simp)

/-- **The search of a sorted array fails only if no element has the key.** Kind: P -/
theorem binarySearch_ne_none (hfalls : Falls compare arr) {x : α} (hmem : x ∈ arr)
    (hx : compare x = .eq) : binarySearch compare arr ≠ none := by
  obtain ⟨k, hk, hkx⟩ := List.mem_iff_getElem.mp hmem
  have hget : arr[k]? = some x := by rw [List.getElem?_eq_getElem hk, hkx]
  refine binarySearchLoop_eq_none hfalls hget hx (le_refl 0) ?_ ?_ ?_ ?_ <;> push_cast <;> omega

end

/-! ## Elements with a key -/

section

variable {N : Type} [LinearOrder N] {α : Type}

/-- A sort of any elements by the order of their keys. -/
structure Qsort (N : Type) [LinearOrder N] where
  sort : {α : Type} → (α → N) → List α → List α
  perm : ∀ {α : Type} (key : α → N) (l : List α), (sort key l).Perm l
  sorted : ∀ {α : Type} (key : α → N) (l : List α), (sort key l).Pairwise fun x y => key x ≤ key y

/-- A stable sort, as in glibc. -/
def insertionQsort (N : Type) [LinearOrder N] : Qsort N where
  sort key l := l.insertionSort fun x y => key x ≤ key y
  perm key l := List.perm_insertionSort _ l
  sorted key l := by
    have htrans : IsTrans _ fun x y => key x ≤ key y := ⟨fun _ _ _ => le_trans⟩
    have htotal : Std.Total fun x y => key x ≤ key y := ⟨fun _ _ => le_total _ _⟩
    exact List.pairwise_insertionSort (fun x y => key x ≤ key y) l

/-- The element that a search finds by its key in the sorted copy.
Source: `types.c` `makeTypeMembersContainer`, `findNamedTypeMemberInContainer`. -/
def findByKey (Q : Qsort N) (key : α → N) (l : List α) (name : N) : Option α :=
  (binarySearch (fun x => compare name (key x)) (Q.sort key l)).bind ((Q.sort key l)[·]?)

variable {Q : Qsort N} {key : α → N} {l : List α} {name : N}

theorem falls_sort (name : N) : Falls (fun x => compare name (key x)) (Q.sort key l) := by
  intro i j x y hij hx hy
  obtain ⟨hi, rfl⟩ := List.getElem?_eq_some_iff.mp hx
  obtain ⟨hj, rfl⟩ := List.getElem?_eq_some_iff.mp hy
  have hle := List.pairwise_iff_getElem.mp (Q.sorted key l) i j hi hj hij
  simp only [compare_lt_iff_lt, compare_gt_iff_gt]
  exact ⟨fun h => h.trans_le hle, fun h => hle.trans_lt h⟩

/-- **What is found has the key.** Kind: P -/
theorem findByKey_eq_some {x : α} (h : findByKey Q key l name = some x) : x ∈ l ∧ key x = name := by
  obtain ⟨i, hi, hx⟩ := Option.bind_eq_some_iff.mp h
  obtain ⟨y, hy, hcomp⟩ := binarySearchLoop_eq_some hi
  obtain rfl := Option.some.inj (hy.symm.trans hx)
  refine ⟨(Q.perm key l).mem_iff.mp (List.mem_of_getElem? hx), ?_⟩
  exact (compare_eq_iff_eq.mp hcomp).symm

/-- **If nothing is found, nothing has the key.** Kind: P -/
theorem findByKey_eq_none (h : findByKey Q key l name = none) {x : α}
    (hx : x ∈ l) : key x ≠ name := by
  intro hkey
  have hmem : x ∈ Q.sort key l := (Q.perm key l).mem_iff.mpr hx
  have hne := binarySearch_ne_none (falls_sort name) hmem
    (compare_eq_iff_eq.mpr hkey.symm)
  obtain ⟨i, hi⟩ := Option.ne_none_iff_exists'.mp hne
  obtain ⟨y, hy, -⟩ := binarySearchLoop_eq_some hi
  rw [findByKey, hi, Option.bind_some, hy] at h
  exact absurd h (by simp)

end

end CxyCompiler.Core
