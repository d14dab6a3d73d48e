import CxyCompiler.Lib.MergeSort

/-!
# The sort of the C library

The library sorts an array by a comparison that gives the sign of a difference. It promises an array
in order where the comparison orders the elements; where it does not, the elements may come in any
order.

* `Orders cmp l` — the comparison orders the elements of an array.
* `Sorts cmp sort` — what the library promises. `mergeSort` keeps it.
* `exists_sorts_at` — an array may be arranged in any way that is not out of order.
* `pairwise_neg` — **in order, elements that are not equal to their neighbours are all different**.
* `SortsOrStops cmp sort` — the promise where a comparison may stop the program.
* `forall_sortsOrStops_iff` — **what every such sort does, in terms of the arrangements that are
  allowed**.
* `sorts_key_iff` — **every sort goes by a key exactly if the comparison does**.
-/

namespace CxyCompiler.Lib.Qsort

variable {α : Type} {cmp : α → α → ℤ} {l r : List α}

structure Orders (cmp : α → α → ℤ) (l : List α) : Prop where
  flip : ∀ x ∈ l, ∀ y ∈ l, cmp x y < 0 ↔ 0 < cmp y x
  trans : ∀ x ∈ l, ∀ y ∈ l, ∀ z ∈ l, cmp x y ≤ 0 → cmp y z ≤ 0 → cmp x z ≤ 0

structure Sorts (cmp : α → α → ℤ) (sort : List α → List α) : Prop where
  perm : ∀ l, (sort l).Perm l
  sorted : ∀ l, Orders cmp l → (sort l).Pairwise fun x y => cmp x y ≤ 0

/-! ## Elements in order -/

theorem orders_iff : Orders cmp l ↔ (∀ x ∈ l, ∀ y ∈ l, cmp x y < 0 ↔ 0 < cmp y x) ∧
    ∀ x ∈ l, ∀ y ∈ l, ∀ z ∈ l, cmp x y ≤ 0 → cmp y z ≤ 0 → cmp x z ≤ 0 :=
  ⟨fun h => ⟨h.flip, h.trans⟩, fun h => ⟨h.1, h.2⟩⟩

instance : Decidable (Orders cmp l) := decidable_of_iff' _ orders_iff

theorem Orders.of_mem (h : Orders cmp l) (hr : ∀ x ∈ r, x ∈ l) : Orders cmp r :=
  ⟨fun x hx y hy => h.flip x (hr x hx) y (hr y hy),
    fun x hx y hy z hz => h.trans x (hr x hx) y (hr y hy) z (hr z hz)⟩

theorem Orders.perm (h : Orders cmp l) (hr : r.Perm l) : Orders cmp r :=
  h.of_mem fun _ => hr.mem_iff.mp

/-- A relation between neighbours that is transitive on the list holds throughout. Kind: L -/
theorem pairwise_of_chain {R : α → α → Prop} : ∀ {l : List α}, l.IsChain R →
    (∀ x ∈ l, ∀ y ∈ l, ∀ z ∈ l, R x y → R y z → R x z) → l.Pairwise R
  | [], _, _ => List.Pairwise.nil
  | [x], _, _ => List.pairwise_singleton R x
  | x :: y :: l, h, htrans => by
      obtain ⟨hxy, hrest⟩ := List.isChain_cons_cons.mp h
      have hpair : (y :: l).Pairwise R := by
        refine pairwise_of_chain hrest fun a ha b hb c hc => ?_
        exact htrans a (List.mem_cons_of_mem x ha) b (List.mem_cons_of_mem x hb) c
          (List.mem_cons_of_mem x hc)
      refine List.pairwise_cons.mpr ⟨fun z hz => ?_, hpair⟩
      rcases List.mem_cons.mp hz with rfl | hz'
      · exact hxy
      · exact htrans x (List.mem_cons_self ..) y (List.mem_cons_of_mem x (List.mem_cons_self ..)) z
          (List.mem_cons_of_mem x hz) hxy ((List.pairwise_cons.mp hpair).1 z hz')

theorem Orders.trans_neg (h : Orders cmp l) {x y z : α} (hx : x ∈ l) (hy : y ∈ l) (hz : z ∈ l)
    (hxy : cmp x y < 0) (hyz : cmp y z < 0) : cmp x z < 0 := by
  have hle := h.trans x hx y hy z hz hxy.le hyz.le
  refine lt_of_le_of_ne hle fun heq => ?_
  -- `z` and `x` are equal, so that `z` comes before `y` as `x` does
  have hzx : cmp z x ≤ 0 := not_lt.mp fun hpos => heq.not_lt ((h.flip x hx z hz).mpr hpos)
  have hzy := h.trans z hz x hx y hy hzx hxy.le
  exact absurd ((h.flip y hy z hz).mp hyz) (not_lt.mpr hzy)

/-- **In order, elements that are not equal to their neighbours are all different.** Kind: P -/
theorem pairwise_neg (h : Orders cmp l) (hsorted : l.Pairwise fun x y => cmp x y ≤ 0)
    (hne : l.IsChain fun x y => cmp x y ≠ 0) : l.Pairwise fun x y => cmp x y < 0 := by
  have hchain : l.IsChain fun x y => cmp x y < 0 := by
    rw [List.isChain_iff_getElem] at hne ⊢
    intro i hi
    exact lt_of_le_of_ne (List.pairwise_iff_getElem.mp hsorted i (i + 1) _ hi i.lt_succ_self)
      (hne i hi)
  exact pairwise_of_chain hchain fun x hx y hy z hz => h.trans_neg hx hy hz

/-! ## Sorts -/

/-- Halves are sorted and merged. -/
def mergeSort (cmp : α → α → ℤ) (l : List α) : List α :=
  (MergeSort.msort (fun x y => some (cmp x y)) l).getD l

theorem mergeSort_spec (cmp : α → α → ℤ) (l : List α) :
    (mergeSort cmp l).Perm l ∧ (mergeSort cmp l).IsChain fun x y => cmp x y ≤ 0 ∨ 0 < cmp y x := by
  have htotal : MergeSort.msort (fun x y => some (cmp x y)) l ≠ none :=
    MergeSort.msort_total (List.pairwise_of_forall fun _ _ => Option.some_ne_none _)
  obtain ⟨r, hr⟩ := Option.ne_none_iff_exists'.mp htotal
  obtain ⟨hperm, hchain⟩ := MergeSort.msort_some hr
  unfold mergeSort
  rw [hr, Option.getD_some]
  refine ⟨hperm, hchain.imp fun x y hxy => ?_⟩
  rcases hxy with ⟨c, hc, hcmp⟩ | ⟨c, hc, hcmp⟩
  · exact .inl (Option.some.inj hcmp ▸ hc)
  · exact .inr (Option.some.inj hcmp ▸ hc)

/-- **A merge sort keeps the promise.** Kind: P -/
theorem sorts_mergeSort (cmp : α → α → ℤ) : Sorts cmp (mergeSort cmp) where
  perm l := (mergeSort_spec cmp l).1
  sorted l h := by
    obtain ⟨hperm, hchain⟩ := mergeSort_spec cmp l
    have hr := h.perm hperm
    have hall : (mergeSort cmp l).Pairwise fun x y => cmp x y ≤ 0 ∨ 0 < cmp y x := by
      refine pairwise_of_chain hchain fun x hx y hy z hz hxy hyz => .inl ?_
      refine hr.trans x hx y hy z hz ?_ ?_
      · exact hxy.elim id fun hpos => ((hr.flip x hx y hy).mpr hpos).le
      · exact hyz.elim id fun hpos => ((hr.flip y hy z hz).mpr hpos).le
    refine hall.imp_of_mem fun {x y} hx hy hxy => ?_
    exact hxy.elim id fun hpos => ((hr.flip x hx y hy).mpr hpos).le

/-- **An array may be arranged in any way that is not out of order.** Kind: P -/
theorem exists_sorts_at (hr : r.Perm l) (h : Orders cmp l → r.Pairwise fun x y => cmp x y ≤ 0) :
    ∃ sort, Sorts cmp sort ∧ sort l = r := by
  classical
  refine ⟨Function.update (mergeSort cmp) l r, ⟨fun l' => ?_, fun l' h' => ?_⟩,
    Function.update_self ..⟩
  · by_cases heq : l' = l
    · rw [heq, Function.update_self]
      exact hr
    · rw [Function.update_of_ne heq]
      exact (sorts_mergeSort cmp).perm l'
  · by_cases heq : l' = l
    · rw [heq, Function.update_self]
      exact h (heq ▸ h')
    · rw [Function.update_of_ne heq]
      exact (sorts_mergeSort cmp).sorted l' h'

/-! ## Comparisons that may stop the program -/

section Stopping

variable {cmp : α → α → Option ℤ}

/-- The sign, as far as there is one. -/
def sign (cmp : α → α → Option ℤ) (x y : α) : ℤ := (cmp x y).getD 0

/-- Any two elements of the array can be compared. -/
def Comparable (cmp : α → α → Option ℤ) (l : List α) : Prop :=
  l.Pairwise fun x y => (cmp x y).isSome ∧ (cmp y x).isSome

instance : Decidable (Comparable cmp l) := inferInstanceAs (Decidable (l.Pairwise _))

theorem Comparable.perm (h : Comparable cmp l) (hr : r.Perm l) : Comparable cmp r :=
  (hr.pairwise_iff fun {_ _} h => h.symm).mpr h

/-- An arrangement that the library may leave. -/
structure Arranged (cmp : α → α → Option ℤ) (l r : List α) : Prop where
  perm : r.Perm l
  sorted : Orders (sign cmp) l → r.Pairwise fun x y => sign cmp x y ≤ 0

/-- The library compares no element with itself, and otherwise may compare any two elements in any
order: it stops only where two elements cannot be compared. -/
structure SortsOrStops (cmp : α → α → Option ℤ) (sort : List α → Option (List α)) : Prop where
  stops : ∀ l, sort l = none → ¬ Comparable cmp l
  arranged : ∀ l r, sort l = some r → Comparable cmp l → Arranged cmp l r

/-- A sort that tries all comparisons first. -/
def careful (cmp : α → α → Option ℤ) (sort : List α → List α) (l : List α) : Option (List α) :=
  if Comparable cmp l then some (sort l) else none

theorem sortsOrStops_careful {sort : List α → List α} (h : Sorts (sign cmp) sort) :
    SortsOrStops cmp (careful cmp sort) := by
  refine ⟨fun l hl => ?_, fun l r hr _ => ?_⟩
  · unfold careful at hl
    split_ifs at hl with hcmp
    exact hcmp
  · unfold careful at hr
    split_ifs at hr
    obtain rfl := Option.some.inj hr
    exact ⟨h.perm l, h.sorted l⟩

/-- **A merge sort keeps the promise**, and stops at the first comparison that does. Kind: P -/
theorem sortsOrStops_msort (cmp : α → α → Option ℤ) : SortsOrStops cmp (MergeSort.msort cmp) := by
  refine ⟨fun l hl hcmp => ?_, fun l r hr hcmp => ⟨(MergeSort.msort_some hr).1, fun horders => ?_⟩⟩
  · refine MergeSort.msort_total (hcmp.imp fun {x y} hxy hnone => ?_) hl
    simp [hnone] at hxy
  · obtain ⟨hperm, hchain⟩ := MergeSort.msort_some hr
    have ho := horders.perm hperm
    have hall : r.IsChain fun x y => sign cmp x y ≤ 0 ∨ 0 < sign cmp y x := by
      refine hchain.imp fun x y hxy => ?_
      unfold sign
      obtain ⟨c, hc, hcmp⟩ | ⟨c, hc, hcmp⟩ := hxy
      · exact .inl (by rwa [hcmp])
      · exact .inr (by rwa [hcmp])
    have hle : ∀ x ∈ r, ∀ y ∈ r, sign cmp x y ≤ 0 ∨ 0 < sign cmp y x → sign cmp x y ≤ 0 :=
      fun x hx y hy hxy => hxy.elim id fun hpos => ((ho.flip x hx y hy).mpr hpos).le
    refine (pairwise_of_chain hall fun x hx y hy z hz hxy hyz => .inl ?_).imp_of_mem
      fun {x y} hx hy hxy => hle x hx y hy hxy
    exact ho.trans x hx y hy z hz (hle x hx y hy hxy) (hle y hy z hz hyz)

/-- There is an arrangement. Kind: L -/
theorem exists_arranged (cmp : α → α → Option ℤ) (l : List α) : ∃ r, Arranged cmp l r :=
  ⟨_, (sorts_mergeSort (sign cmp)).perm l, (sorts_mergeSort (sign cmp)).sorted l⟩

/-- **What every sort does** is to go on, and to leave any arrangement that is allowed. Kind: L -/
theorem forall_sortsOrStops_iff {P : Option (List α) → Prop} (hstop : ¬ P none) :
    (∀ sort, SortsOrStops cmp sort → P (sort l)) ↔
      Comparable cmp l ∧ ∀ r, Arranged cmp l r → P (some r) := by
  constructor
  · intro h
    have hcmp : Comparable cmp l := by
      by_contra hnot
      have hp := h _ (sortsOrStops_careful (sorts_mergeSort (sign cmp)))
      rw [careful, if_neg hnot] at hp
      exact hstop hp
    refine ⟨hcmp, fun r hr => ?_⟩
    obtain ⟨sort, hsort, heq⟩ := exists_sorts_at hr.perm hr.sorted
    have hp := h _ (sortsOrStops_careful hsort)
    rwa [careful, if_pos hcmp, heq] at hp
  · rintro ⟨hcmp, h⟩ sort hsort
    cases hr : sort l with
    | none => exact absurd hcmp (hsort.stops l hr)
    | some r => exact h r (hsort.arranged l r hr hcmp)

end Stopping

/-! ## Sorting by a key -/

section Keys

variable {κ : Type} [LinearOrder κ] {key : α → κ}

/-- The comparison, with equal elements put in the order opposite to that of their keys. -/
def against (cmp : α → α → ℤ) (key : α → κ) (x y : α) : ℤ :=
  if cmp x y = 0 then if key y < key x then -1 else if key x < key y then 1 else 0 else cmp x y

theorem against_nonpos {x y : α} : against cmp key x y ≤ 0 ↔
    cmp x y < 0 ∨ cmp x y = 0 ∧ key y ≤ key x := by
  unfold against
  grind

theorem Orders.against (h : Orders cmp l) (key : α → κ) : Orders (against cmp key) l := by
  refine ⟨fun x hx y hy => ?_, fun x hx y hy z hz hxy hyz => ?_⟩
  · have hflip := h.flip x hx y hy
    have hback := h.flip y hy x hx
    unfold Qsort.against
    grind
  · rw [against_nonpos] at hxy hyz ⊢
    have hle := h.trans x hx y hy z hz (by grind) (by grind)
    have hzx := h.flip x hx z hz
    have hyx := h.flip x hx y hy
    have hzy := h.flip y hy z hz
    have hback := h.trans y hy z hz x hx
    have hback' := h.trans z hz x hx y hy
    grind

/-- Of two elements the one with the smaller key comes first. Kind: L -/
theorem rel_of_key_lt {R : α → α → Prop} (hkey : r.Pairwise fun x y => key x ≤ key y)
    (hR : r.Pairwise R)
    {x y : α} (hx : x ∈ r) (hy : y ∈ r) (hlt : key x < key y) : R x y := by
  obtain ⟨i, hi, rfl⟩ := List.getElem_of_mem hx
  obtain ⟨j, hj, rfl⟩ := List.getElem_of_mem hy
  rcases lt_trichotomy i j with hij | rfl | hji
  · exact List.pairwise_iff_getElem.mp hR i j hi hj hij
  · exact absurd hlt (lt_irrefl _)
  · exact absurd (List.pairwise_iff_getElem.mp hkey j i hj hi hji) (not_le.mpr hlt)

/-- **Every sort goes by a key exactly if the comparison does**, where elements of one key are
equal. Kind: P -/
theorem sorts_key_iff (hself : ∀ x y, key x = key y → cmp x y = 0) :
    (∀ sort, Sorts cmp sort → (sort l).Pairwise fun x y => key x ≤ key y) ↔
      ∀ x ∈ l, ∀ y ∈ l, key x < key y → cmp x y < 0 ∧ 0 < cmp y x := by
  constructor
  · intro h x hx y hy hlt
    by_cases horders : Orders cmp l
    · have hagainst := horders.against key
      have hsort := sorts_mergeSort (against cmp key)
      have hperm := hsort.perm l
      have hsorted := hsort.sorted l hagainst
      obtain ⟨sort, hsorts, heq⟩ := exists_sorts_at hperm fun _ => hsorted.imp fun {a b} hab => by
        rcases against_nonpos.mp hab with hneg | ⟨hzero, -⟩
        · exact hneg.le
        · exact hzero.le
      have hkey := heq ▸ h sort hsorts
      -- the element with the smaller key comes first, and is not there for being equal
      have hneg : cmp x y < 0 := by
        rcases against_nonpos.mp
          (rel_of_key_lt hkey hsorted (hperm.mem_iff.mpr hx) (hperm.mem_iff.mpr hy) hlt)
          with hneg | ⟨-, hle⟩
        · exact hneg
        · exact absurd hlt (not_lt.mpr hle)
      exact ⟨hneg, (horders.flip x hx y hy).mp hneg⟩
    · have hne : x ≠ y := fun heq => (heq ▸ hlt).ne rfl
      classical
      have hperm : (y :: x :: (l.erase y).erase x).Perm l := by
        refine (List.Perm.cons y (List.perm_cons_erase ?_).symm).trans
          (List.perm_cons_erase hy).symm
        exact (List.mem_erase_of_ne hne).mpr hx
      obtain ⟨sort, hsort, heq⟩ := exists_sorts_at hperm fun horders' => absurd horders' horders
      have hkey := heq ▸ h sort hsort
      exact absurd ((List.pairwise_cons.mp hkey).1 x (List.mem_cons_self ..)) (not_le.mpr hlt)
  · intro h sort hsort
    have hcmp : ∀ x ∈ l, ∀ y ∈ l, (cmp x y ≤ 0 ↔ key x ≤ key y) ∧
      (0 < cmp x y ↔ key y < key x) := by
      intro x hx y hy
      rcases lt_trichotomy (key x) (key y) with hlt | heq | hlt
      · have hxy := h x hx y hy hlt
        exact ⟨iff_of_true hxy.1.le hlt.le, iff_of_false hxy.1.not_gt hlt.not_gt⟩
      · have hxy := hself x y heq
        exact ⟨iff_of_true hxy.le heq.le, iff_of_false hxy.not_gt heq.not_gt⟩
      · have hyx := h y hy x hx hlt
        exact ⟨iff_of_false hyx.2.not_ge hlt.not_ge, iff_of_true hyx.2 hlt⟩
    have horders : Orders cmp l := by
      refine ⟨fun x hx y hy => ?_, fun x hx y hy z hz hxy hyz => ?_⟩
      · have hxy := hcmp x hx y hy
        have hyx := hcmp y hy x hx
        have hzero := hself x y
        grind
      · rw [(hcmp x hx y hy).1] at hxy
        rw [(hcmp y hy z hz).1] at hyz
        exact (hcmp x hx z hz).1.mpr (hxy.trans hyz)
    refine (hsort.sorted l horders).imp_of_mem fun {x y} hx hy hxy => ?_
    have hperm := hsort.perm l
    exact (hcmp x (hperm.mem_iff.mp hx) y (hperm.mem_iff.mp hy)).1.mp hxy

end Keys

end CxyCompiler.Lib.Qsort
