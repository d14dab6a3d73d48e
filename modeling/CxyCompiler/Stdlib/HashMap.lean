import CxyCompiler.Core.Hmap
import CxyCompiler.Runtime.StringHash

/-!
# The hash map of the standard library (`stdlib/hash.cxy`)

The same Robin Hood probing as the map of the compiler, written in Cxy. A resident is displaced only
by an entry that is further from home. `probe` computes with `u64`: an entry that is stored past the
end of the slots, in front of its home, seems further from home than any other.

* `insert`, `remove`, `get`, `contains`, `clear` — the operations, for keys with a hash and a
  comparison. A `HashSet` is a map with the values of `Unit`.
* `Wf`, `Roomy` — **the representation invariant**, and that at least one slot is empty.
* `movesInOrder` — a removal that moves the entry of the first slot back to the last one finds it at
  least as far from home as the others that are stored past the end.
* `insert_spec`, `remove_spec`, `getInternal_spec`, `clear_spec` — one specification for each
  operation.
-/

namespace CxyCompiler.Stdlib

open CxyCompiler.Lib.Probing CxyCompiler.Lib.RobinHood
open CxyCompiler.Runtime (toI8 toU64)

/-- Source: `hash.cxy` `HashMap`. -/
structure HashMap (K V : Type) where
  capacity : ℕ
  size : ℕ
  nodes : ℕ → Option (Entry (K × V))

namespace HashMap

/-- The computation of `hmapIdealSize`, on the same table. Source: `hash.cxy` `idealSize`. -/
def idealSize (size : ℕ) : ℕ := Core.RobinHoodMap.hmapIdealSize size

/-- `v < 0` holds of no `u64`. Source: `hash.cxy` `probe`. -/
def probe (i home : ℕ) : ℕ := (i + 2 ^ 64 - home) % 2 ^ 64

section

variable {K V : Type} (hasher : K → ℕ) (cmp : K → K → Bool)

/-- Source: `hash.cxy` `HashMap.init`. -/
def init (initialCapacity : ℕ) : HashMap K V :=
  { capacity := idealSize initialCapacity, size := 0, nodes := fun _ => none }

/-- The slots are allocated by the first insertion after `clear`. -/
def allocated (t : HashMap K V) : HashMap K V :=
  if t.capacity = 0 then { t with capacity := idealSize 1, nodes := fun _ => none } else t

/-- Source: `hash.cxy` `insertInternal`, `insertInternalWithValue`. -/
def insertInternal (t : HashMap K V) (key : K) (value : V) (replace : Bool) :
    Option (HashMap K V × Bool) := do
  let t := allocated t
  let home := hasher key % t.capacity
  let (nodes, _, added) ← insertLoop t.capacity probe (fun j p => p < j) (fun x y => cmp x.1 y.1)
    replace t.capacity t.nodes home 0 ⟨home, (key, value)⟩
  some ({ t with nodes := nodes, size := if added then t.size + 1 else t.size }, added)

/-- Source: `hash.cxy` `rehash`. -/
def rehash (t : HashMap K V) (newCapacity : ℕ) : Option (HashMap K V) :=
  (List.range t.capacity).foldlM
    (fun (new : HashMap K V) i =>
      match t.nodes i with
      | some e => (insertInternal hasher cmp new e.elem.1 e.elem.2 true).map (·.1)
      | none => some new)
    { capacity := newCapacity, size := 0, nodes := fun _ => none }

/-- Source: `hash.cxy` `resizeMore`. -/
def resizeMore (t : HashMap K V) : Option (HashMap K V) :=
  let newSize := idealSize t.size
  if newSize > t.capacity then rehash hasher cmp t newSize else some t

/-- Source: `hash.cxy` `resizeLess`. -/
def resizeLess (t : HashMap K V) : Option (HashMap K V) :=
  let newSize := idealSize t.size
  if newSize < t.capacity then rehash hasher cmp t newSize else some t

/-- `[]=` is `insert` with `replace`. Source: `hash.cxy` `insert`. -/
def insert (t : HashMap K V) (key : K) (value : V) (replace : Bool) :
    Option (HashMap K V × Bool) := do
  let (t, status) ← insertInternal hasher cmp t key value replace
  if status then
    let t ← resizeMore hasher cmp t
    some (t, status)
  else some (t, status)

/-- Source: `hash.cxy` `getInternal`. -/
def getInternal (t : HashMap K V) (key : K) : Option (Option ℕ) :=
  if t.size = 0 then some none
  else seek t.capacity probe t.nodes (fun x => cmp x.1 key) t.capacity (hasher key % t.capacity) 0

/-- Source: `hash.cxy` `get`. -/
def get (t : HashMap K V) (key : K) : Option (Option V) := do
  match ← getInternal hasher cmp t key with
  | some i => some ((t.nodes i).map (·.elem.2))
  | none => some none

/-- Source: `hash.cxy` `contains`. -/
def contains (t : HashMap K V) (key : K) : Option Bool :=
  (getInternal hasher cmp t key).map (·.isSome)

/-- The search of a removal. Its `var j = 0` is an `i8`, the smallest type that the literal fits in,
and a comparison extends it to a `u64` with its sign. Source: `hash.cxy` `remove`. -/
def removeLoop (t : HashMap K V) (key : K) : ℕ → ℕ → ℤ → Option (Option ℕ)
  | 0, _, _ => none
  | fuel + 1, i, j =>
      match t.nodes i with
      | none => some none
      | some e =>
          if (probe i e.home : ℤ) < toU64 j then some none
          else if cmp e.elem.1 key then some (some i)
          else removeLoop t key fuel ((i + 1) % t.capacity) (toI8 (j + 1))

/-- Source: `hash.cxy` `remove`. -/
def findRemoved (t : HashMap K V) (key : K) : Option (Option ℕ) :=
  if t.size = 0 then some none else removeLoop cmp t key t.capacity (hasher key % t.capacity) 0

/-- Source: `hash.cxy` `remove`. -/
def remove (t : HashMap K V) (key : K) : Option (HashMap K V) := do
  match ← findRemoved hasher cmp t key with
  | none => some t
  | some i =>
      let nodes ← shiftLoop t.capacity probe t.capacity (set t.nodes i none) i
      resizeLess hasher cmp { t with nodes := nodes, size := t.size - 1 }

/-- Source: `hash.cxy` `clear`. -/
def clear (t : HashMap K V) : HashMap K V :=
  if t.capacity = 0 then t else { capacity := 0, size := 0, nodes := fun _ => none }

end

/-! ## Entries stored past the end -/

/-- Each move of the entry of the first slot back to the last one finds it at least as far from home
as the other entries that are stored past the end. -/
def movesInOrder {α : Type} (n : ℕ) : ℕ → (ℕ → Option (Entry α)) → ℕ → Bool
  | 0, _, _ => true
  | fuel + 1, s, i =>
      match s ((i + 1) % n) with
      | some f =>
          if 0 < probe ((i + 1) % n) f.home then
            ((i + 1) % n != 0 || (List.range n).all fun k =>
              match s k with
              | some e => k == 0 || e.home ≤ k || f.home ≤ e.home
              | none => true) &&
              movesInOrder n fuel (set (set s i (some f)) ((i + 1) % n) none) ((i + 1) % n)
          else true
      | none => true

theorem probe_of_le {i b : ℕ} (h : b ≤ i) (hi : i < 2 ^ 64) : probe i b = i - b := by
  unfold probe
  omega

theorem probe_of_lt {i b : ℕ} (h : i < b) (hb : b < 2 ^ 64) : probe i b = 2 ^ 64 - (b - i) := by
  unfold probe
  omega

theorem probeOk {n : ℕ} (hn : n ≤ 2 ^ 63) : ProbeOk n probe := by
  intro i hi b hb
  rcases Nat.lt_or_ge i b with hlt | hge
  · refine Or.inr ⟨by omega, ?_⟩
    rw [probe_of_lt hlt (by omega)]
    omega
  · left
    rw [probe_of_le hge (by omega), gap, if_pos hge]

theorem swapOk : SwapOk fun j p => decide (p < j) where
  displaced := by simp; omega
  passed := by simp

/-- In order, the moves of a shift are allowed. Kind: L -/
theorem movesOk_of_movesInOrder {α : Type} {n : ℕ} (hn : n ≤ 2 ^ 63) :
    ∀ (fuel : ℕ) (s : ℕ → Option (Entry α)) (h : ℕ), OrderedBut n probe s h → h < n →
      movesInOrder n fuel s h = true → MovesOk n probe fuel s h := by
  intro fuel
  induction fuel with
  | zero => intro s h _ _ _; trivial
  | succ fuel ih =>
      intro s h hs hh horder f hf haway
      have hni : incr n h < n := incr_lt (by omega)
      have hfh := hs.home_lt _ hni f hf
      rw [movesInOrder, add_one_mod hh, hf] at horder
      simp only [if_pos haway, Bool.and_eq_true] at horder
      have hmove : MoveOk n probe s h f := by
        intro i hi e he hini hlt
        have heh := hs.home_lt i hi e he
        obtain ⟨hgap, hpast⟩ := gap_past heh hh hi hlt
        have hgaplt := gap_lt heh hh
        by_cases hzero : incr n h = 0
        · -- the entry of the first slot goes to the last one, where its distance is the true one
          have hlast : h + 1 = n := by
            unfold incr at hzero
            split_ifs at hzero
            omega
          have hi0 : i ≠ 0 := fun h0 => hini (h0.trans hzero.symm)
          have hwrapped : i < e.home := by
            unfold gap at hlt
            split_ifs at hlt <;> omega
          have hall := horder.1
          simp only [hzero, bne_self_eq_false, Bool.false_or] at hall
          have hk := List.all_eq_true.mp hall i (List.mem_range.mpr hi)
          simp only [he, Bool.or_eq_true, beq_iff_eq, decide_eq_true_eq] at hk
          have hle : f.home ≤ e.home := by omega
          rw [probe_of_le (by omega) (by omega)]
          unfold gap
          split_ifs <;> omega
        · have hnext : incr n h = h + 1 := by
            unfold incr at hzero ⊢
            split_ifs at hzero ⊢
            · omega
            · rfl
          rcases hs.path i hi e he _ hni (hpast hini) with hjj | ⟨g, hg, hle⟩
          · omega
          · rw [hf, Option.some.injEq] at hg
            subst hg
            rcases Nat.lt_or_ge h f.home with hfar | hnear
            · rcases Nat.lt_or_ge (incr n h) f.home with hfar' | hhome
              · rw [probe_of_lt hfar (by omega)]
                omega
              · rw [probe_of_le hhome (by omega)] at haway
                omega
            · rw [probe_of_le (by omega) (by omega)] at hle
              rw [probe_of_le hnear (by omega)]
              omega
      exact ⟨hmove, ih _ _ (hs.move (probeOk hn) hh hf haway hmove) hni horder.2⟩

/-! ## The representation invariant -/

section

variable {K V : Type} (hasher : K → ℕ) (cmp : K → K → Bool)

/-- The hash is consistent with the comparison of keys, which is an equivalence. -/
structure Consistent : Prop where
  refl : ∀ x, cmp x x = true
  symm : ∀ x y, cmp x y = true → cmp y x = true
  trans : ∀ x y z, cmp x y = true → cmp y z = true → cmp x z = true
  hash_eq : ∀ x y, cmp x y = true → hasher x = hasher y

def cmpKeys (x y : K × V) : Bool := cmp x.1 y.1

/-- The entries of the table. -/
def items (t : HashMap K V) : List (Entry (K × V)) := contents t.capacity t.nodes

/-- The keys with their values. -/
def pairs (t : HashMap K V) : List (K × V) := (items t).map (·.elem)

/-- **The representation invariant.** -/
structure Wf (t : HashMap K V) : Prop where
  capacity_le : t.capacity ≤ 2 ^ 63
  ordered : Ordered t.capacity probe t.nodes
  size_eq : t.size = (items t).length
  home_eq : ∀ e ∈ items t, e.home = hasher e.elem.1 % t.capacity
  distinct : (items t).Pairwise (Distinct (cmpKeys cmp))

/-- The next insertion finds an empty slot, or allocates the slots. -/
def Roomy (t : HashMap K V) : Prop := t.capacity = 0 ∨ idealSize t.size ≤ t.capacity

/-- Two pairs of different keys. -/
def Unequal (x y : K × V) : Prop := cmp x.1 y.1 = false ∧ cmp y.1 x.1 = false

variable {hasher cmp} {t : HashMap K V}

theorem Unequal.symm {x y : K × V} (h : Unequal cmp x y) : Unequal cmp y x := ⟨h.2, h.1⟩

theorem lt_idealSize (n : ℕ) : n < idealSize n := Core.RobinHoodMap.lt_hmapIdealSize n

theorem idealSize_mono {n m : ℕ} (h : n ≤ m) : idealSize n ≤ idealSize m :=
  Core.RobinHoodMap.hmapIdealSize_mono h

theorem pairs_pairwise (h : Wf hasher cmp t) : (pairs t).Pairwise (Unequal cmp) :=
  List.pairwise_map.mpr h.distinct

theorem size_eq_length (h : Wf hasher cmp t) : t.size = (pairs t).length := by
  rw [h.size_eq, pairs, List.length_map]

theorem wf_empty {n : ℕ} (hn : n ≤ 2 ^ 63) :
    Wf hasher cmp ({ capacity := n, size := 0, nodes := fun _ => none } : HashMap K V) :=
  ⟨hn, Ordered.empty, by simp [items, contents], by simp [items, contents],
    by simp [items, contents]⟩

theorem pairs_empty (n : ℕ) :
    pairs ({ capacity := n, size := 0, nodes := fun _ => none } : HashMap K V) = [] := by
  simp [pairs, items, contents]

theorem Wf.exists_empty (h : Wf hasher cmp t) (hroom : t.size < t.capacity) :
    ∃ i < t.capacity, t.nodes i = none := by
  apply CxyCompiler.Lib.Probing.exists_empty
  rw [h.size_eq] at hroom
  exact hroom

/-- The slots that an insertion works on. Kind: L -/
theorem Wf.allocated (h : Wf hasher cmp t) (hroom : Roomy t) :
    Wf hasher cmp (allocated t) ∧ Roomy (HashMap.allocated t) ∧
      (HashMap.allocated t).size < (HashMap.allocated t).capacity ∧
      pairs (HashMap.allocated t) = pairs t ∧ (HashMap.allocated t).size = t.size := by
  unfold HashMap.allocated
  by_cases hzero : t.capacity = 0
  · have hnil : items t = [] := by simp [items, hzero, contents]
    have hsize : t.size = 0 := by rw [h.size_eq, hnil]; rfl
    have hideal : idealSize 1 = 5 := by decide
    rw [if_pos hzero, hsize, hideal]
    refine ⟨wf_empty (by omega), Or.inr (show idealSize 0 ≤ 5 by decide), show 0 < 5 by decide, ?_,
      rfl⟩
    rw [pairs_empty, pairs, hnil]
    rfl
  · rw [if_neg hzero]
    rcases hroom with h0 | hroom
    · exact absurd h0 hzero
    · exact ⟨h, Or.inr hroom, (lt_idealSize _).trans_le hroom, rfl, rfl⟩

/-! ## Insertion -/

theorem Wf.home_of_cmp (hc : Consistent hasher cmp) (h : Wf hasher cmp t) {e : Entry (K × V)}
    (he : e ∈ items t) {k : K} (hk : cmp e.elem.1 k = true) : e.home = hasher k % t.capacity := by
  rw [h.home_eq e he, hc.hash_eq _ _ hk]

theorem distinct_of_not_cmp (hc : Consistent hasher cmp) {x y : K × V} {b b' : ℕ}
    (h : cmp y.1 x.1 = false) : Distinct (cmpKeys cmp) ⟨b, x⟩ ⟨b', y⟩ := by
  refine ⟨?_, h⟩
  by_contra hxy
  have := hc.symm x.1 y.1 (by simpa [cmpKeys] using hxy)
  simp [h] at this

/-- A new key is added to slots that have room. Kind: L -/
theorem insertLoop_new (hc : Consistent hasher cmp) (h : Wf hasher cmp t)
    (hroom : t.size < t.capacity) {k : K} (v : V) (replace : Bool)
    (hnew : ∀ x ∈ pairs t, cmp x.1 k = false) :
    ∃ nodes i, insertLoop t.capacity probe (fun j p => decide (p < j)) (cmpKeys cmp) replace
        t.capacity t.nodes (hasher k % t.capacity) 0 ⟨hasher k % t.capacity, (k, v)⟩ =
          some (nodes, i, true) ∧
      Wf hasher cmp { t with nodes := nodes, size := t.size + 1 } ∧
      List.Perm (pairs { t with nodes := nodes, size := t.size + 1 }) ((k, v) :: pairs t) := by
  obtain ⟨e₀, he₀, hempty⟩ := h.exists_empty hroom
  have hhome : hasher k % t.capacity < t.capacity := Nat.mod_lt _ (by omega)
  have hdistinct : ((⟨hasher k % t.capacity, (k, v)⟩ : Entry (K × V)) :: items t).Pairwise
      (Distinct (cmpKeys cmp)) := by
    refine List.pairwise_cons.mpr ⟨fun e he => ?_, h.distinct⟩
    exact distinct_of_not_cmp hc (hnew e.elem (List.mem_map_of_mem he))
  obtain ⟨nodes, i, hrun, hordered, hperm⟩ := insertLoop_absent replace swapOk
    (probeOk h.capacity_le) h.ordered he₀ hempty hhome hdistinct
  refine ⟨nodes, i, hrun, ⟨h.capacity_le, hordered, ?_, ?_, ?_⟩, hperm.map Entry.elem⟩
  · rw [h.size_eq]
    exact hperm.length_eq.symm
  · intro e he
    rcases List.mem_cons.mp (hperm.mem_iff.mp he) with rfl | he
    · rfl
    · exact h.home_eq e he
  · exact (hperm.pairwise_iff Distinct.symm).mpr hdistinct

/-- A key that is there is found on the way, and its value replaced if asked for. Kind: L -/
theorem insertLoop_old (hc : Consistent hasher cmp) (h : Wf hasher cmp t) {k : K} (v : V)
    (replace : Bool) {e : Entry (K × V)} (he : e ∈ items t) (hk : cmp e.elem.1 k = true) :
    ∃ nodes i, insertLoop t.capacity probe (fun j p => decide (p < j)) (cmpKeys cmp) replace
        t.capacity t.nodes (hasher k % t.capacity) 0 ⟨hasher k % t.capacity, (k, v)⟩ =
          some (nodes, i, false) ∧ Wf hasher cmp { t with nodes := nodes } ∧ ∃ others,
      List.Perm (pairs t) (e.elem :: others) ∧
        List.Perm (pairs { t with nodes := nodes })
          ((if replace then (k, v) else e.elem) :: others) := by
  obtain ⟨q, hq, heq⟩ := mem_contents.mp he
  have hhome := h.home_of_cmp hc he hk
  have hpass : ∀ j < t.capacity, gap t.capacity (hasher k % t.capacity) j <
      gap t.capacity (hasher k % t.capacity) q → ∀ f, t.nodes j = some f →
      cmpKeys cmp f.elem (k, v) = false ∧
        decide (probe j f.home < gap t.capacity (hasher k % t.capacity) j) = false := by
    intro j hj hjq f hf
    rw [← hhome] at hjq ⊢
    obtain ⟨g, hg, hle⟩ := h.ordered.path q hq e heq j hj hjq
    rw [hf, Option.some.injEq] at hg
    subst hg
    refine ⟨?_, by simpa using hle⟩
    by_contra hfk
    have hfe := hc.trans _ _ _ (by simpa [cmpKeys] using hfk) (hc.symm _ _ hk)
    have hne : j ≠ q := by rintro rfl; omega
    rcases Nat.lt_or_gt_of_ne hne with hlt | hgt
    · have := (pairwise_contents h.distinct hlt hq hf heq).1
      simp [cmpKeys, hfe] at this
    · have := (pairwise_contents h.distinct hgt hj heq hf).2
      simp [cmpKeys, hfe] at this
  have hrun := insertLoop_present (fun j p => decide (p < j)) replace h.ordered hq heq
    (show e.home = (⟨hasher k % t.capacity, (k, v)⟩ : Entry (K × V)).home from hhome) hk hpass
  obtain ⟨others, hout, hin⟩ := contents_set (c := ⟨hasher k % t.capacity, (k, v)⟩) hq heq
  cases replace with
  | false =>
      exact ⟨t.nodes, q, hrun, h, others.map Entry.elem, hout.map Entry.elem, hout.map Entry.elem⟩
  | true =>
      refine ⟨set t.nodes q (some ⟨hasher k % t.capacity, (k, v)⟩), q, hrun,
        ⟨h.capacity_le, h.ordered.replace hq heq hhome, ?_, ?_, ?_⟩, others.map Entry.elem,
        hout.map Entry.elem, hin.map Entry.elem⟩
      · rw [h.size_eq]
        exact hout.length_eq.trans hin.length_eq.symm
      · intro f hf
        rcases List.mem_cons.mp (hin.mem_iff.mp hf) with rfl | hf
        · rfl
        · exact h.home_eq f (hout.mem_iff.mpr (List.mem_cons_of_mem _ hf))
      · have hdist := (hout.pairwise_iff Distinct.symm).mp h.distinct
        obtain ⟨hehead, hothers⟩ := List.pairwise_cons.mp hdist
        refine (hin.pairwise_iff Distinct.symm).mpr
          (List.pairwise_cons.mpr ⟨fun f hf => ?_, hothers⟩)
        apply distinct_of_not_cmp hc
        by_contra hfk
        have := hc.trans _ _ _ (by simpa using hfk) (hc.symm _ _ hk)
        have hno := (hehead f hf).2
        simp [cmpKeys, this] at hno

/-- **What an insertion does to the pairs**: a new key is added, an old one keeps its value or gets
the new one. -/
def Inserts (cmp : K → K → Bool) (k : K) (v : V) (replace : Bool) (before after : List (K × V))
    (status : Bool) : Prop :=
  (status = true ∧ (∀ x ∈ before, cmp x.1 k = false) ∧ List.Perm after ((k, v) :: before)) ∨
    status = false ∧ ∃ x others, cmp x.1 k = true ∧ List.Perm before (x :: others) ∧
      List.Perm after ((if replace then (k, v) else x) :: others)

theorem insertInternal_spec (hc : Consistent hasher cmp) (h : Wf hasher cmp t) (hroom : Roomy t)
    (k : K) (v : V) (replace : Bool) :
    ∃ t' status, insertInternal hasher cmp t k v replace = some (t', status) ∧ Wf hasher cmp t' ∧
      t'.capacity = (allocated t).capacity ∧ t'.size = (if status then t.size + 1 else t.size) ∧
      Inserts cmp k v replace (pairs t) (pairs t') status := by
  obtain ⟨hwf, -, hlt, hpairs, hsize⟩ := h.allocated hroom
  by_cases hex : ∃ e ∈ items (allocated t), cmp e.elem.1 k = true
  · obtain ⟨e, he, hk⟩ := hex
    obtain ⟨nodes, i, hrun, hwf', others, hout, hin⟩ := insertLoop_old hc hwf v replace he hk
    refine ⟨{ allocated t with nodes := nodes }, false, ?_, hwf', rfl, hsize,
      Or.inr ⟨rfl, e.elem, others, hk, hpairs ▸ hout, hin⟩⟩
    simp only [insertInternal]
    change (insertLoop (allocated t).capacity probe (fun j p => decide (p < j))
      (cmpKeys cmp) replace
      _ _ _ _ _).bind _ = _
    rw [hrun]
    rfl
  · push Not at hex
    have hnew : ∀ x ∈ pairs (allocated t), cmp x.1 k = false := by
      intro x hx
      obtain ⟨e, he, rfl⟩ := List.mem_map.mp hx
      simpa using hex e he
    obtain ⟨nodes, i, hrun, hwf', hperm⟩ := insertLoop_new hc hwf hlt v replace hnew
    refine ⟨{ allocated t with
        nodes := nodes, size := (allocated t).size + 1 }, true, ?_, hwf', rfl,
      by simp [hsize], Or.inl ⟨rfl, hpairs ▸ hnew, hpairs ▸ hperm⟩⟩
    simp only [insertInternal]
    change (insertLoop (allocated t).capacity probe (fun j p => decide (p < j))
      (cmpKeys cmp) replace
      _ _ _ _ _).bind _ = _
    rw [hrun]
    rfl

/-- A rehash puts all pairs into the new slots, which are enough for them. Kind: L -/
theorem rehash_fold (hc : Consistent hasher cmp) (N : ℕ) :
    ∀ (l : List (Entry (K × V))) (new : HashMap K V), Wf hasher cmp new → new.capacity = N →
      new.size + l.length < N → (l.map (·.elem) ++ pairs new).Pairwise (Unequal cmp) →
      ∃ t', l.foldlM (fun new e =>
          (insertInternal hasher cmp new e.elem.1 e.elem.2 true).map (·.1)) new = some t' ∧
        Wf hasher cmp t' ∧ t'.capacity = N ∧
          List.Perm (pairs t') (l.map (·.elem) ++ pairs new) := by
  intro l
  induction l with
  | nil =>
      intro new hwf hcap _ _
      exact ⟨new, rfl, hwf, hcap, List.Perm.refl _⟩
  | cons e l ih =>
      intro new hwf hcap hroom hdist
      rw [List.map_cons, List.cons_append, List.pairwise_cons] at hdist
      obtain ⟨hhead, htail⟩ := hdist
      rw [List.length_cons] at hroom
      have hne : new.capacity ≠ 0 := by omega
      have halloc : allocated new = new := if_neg hne
      obtain ⟨nodes, i, hrun, hwf₁, hperm₁⟩ := insertLoop_new hc hwf (by omega) e.elem.2 true
        (fun x hx => (hhead x (List.mem_append_right _ hx)).2)
      have hput : insertInternal hasher cmp new e.elem.1 e.elem.2 true =
          some ({ new with nodes := nodes, size := new.size + 1 }, true) := by
        simp only [insertInternal, halloc]
        change (insertLoop new.capacity probe (fun j p => decide (p < j)) (cmpKeys cmp) true
          _ _ _ _ _).bind _ = _
        rw [hrun]
        rfl
      have hperm : List.Perm
          (l.map (·.elem) ++ pairs { new with nodes := nodes, size := new.size + 1 })
          (e.elem :: (l.map (·.elem) ++ pairs new)) :=
        (hperm₁.append_left _).trans List.perm_middle
      obtain ⟨t', hfold, hwf', hcap', hperm'⟩ := ih _ hwf₁ hcap (by simp only; omega)
        ((hperm.pairwise_iff Unequal.symm).mpr (List.pairwise_cons.mpr ⟨hhead, htail⟩))
      refine ⟨t', ?_, hwf', hcap', hperm'.trans hperm⟩
      rw [List.foldlM_cons, hput]
      exact hfold

theorem rehash_spec (hc : Consistent hasher cmp) (h : Wf hasher cmp t)
    (hbound : idealSize t.size ≤ 2 ^ 63) :
    ∃ t', rehash hasher cmp t (idealSize t.size) = some t' ∧ Wf hasher cmp t' ∧ Roomy t' ∧
      List.Perm (pairs t') (pairs t) := by
  have hlt := lt_idealSize t.size
  obtain ⟨t', hrun, hwf, hcap, hperm⟩ := rehash_fold hc (idealSize t.size) (items t) _
    (wf_empty hbound) rfl (by rw [← h.size_eq]; simpa using hlt) (by
      rw [pairs_empty, List.append_nil]
      exact pairs_pairwise h)
  rw [pairs_empty, List.append_nil] at hperm
  refine ⟨t', ?_, hwf, Or.inr ?_, hperm⟩
  · rw [rehash, ← hrun, items, contents, List.foldlM_filterMap]
    congr 1
    funext new i
    cases t.nodes i <;> rfl
  · have hlen : t'.size = t.size := by
      rw [size_eq_length hwf, size_eq_length h]
      exact hperm.length_eq
    rw [hlen, hcap]

/-- **`insert`** adds a new key, or gives an old one the new value if asked for. Kind: P -/
theorem insert_spec (hc : Consistent hasher cmp) (h : Wf hasher cmp t) (hroom : Roomy t)
    (hbound : idealSize (t.size + 1) ≤ 2 ^ 63) (k : K) (v : V) (replace : Bool) :
    ∃ t' status, insert hasher cmp t k v replace = some (t', status) ∧ Wf hasher cmp t' ∧ Roomy t' ∧
      Inserts cmp k v replace (pairs t) (pairs t') status := by
  obtain ⟨t₁, status, hrun, hwf₁, hcap₁, hsize₁, hins⟩ := insertInternal_spec hc h hroom k v replace
  obtain ⟨-, hroomy, -, -, hsize⟩ := h.allocated hroom
  cases status with
  | false =>
      refine ⟨t₁, false, by simp [insert, hrun], hwf₁, ?_, hins⟩
      simp only [Bool.false_eq_true, if_false] at hsize₁
      unfold Roomy at hroomy ⊢
      rw [hsize₁, hcap₁, ← hsize]
      exact hroomy
  | true =>
      simp only [if_true] at hsize₁
      by_cases hgrow : idealSize t₁.size > t₁.capacity
      · obtain ⟨t', hrehash, hwf, hroom', hperm⟩ :=
          rehash_spec hc hwf₁ (by rw [hsize₁]; exact hbound)
        refine ⟨t', true, ?_, hwf, hroom', ?_⟩
        · simp [insert, hrun, resizeMore, hgrow, hrehash]
        · rcases hins with ⟨-, hnew, hp⟩ | ⟨hf, -⟩
          · exact Or.inl ⟨rfl, hnew, hperm.trans hp⟩
          · simp at hf
      · exact ⟨t₁, true, by simp [insert, hrun, resizeMore, hgrow], hwf₁, Or.inr (not_lt.mp hgrow),
          hins⟩

/-! ## Lookup and removal -/

theorem getInternal_spec (hc : Consistent hasher cmp) (h : Wf hasher cmp t) (hroom : Roomy t)
    (k : K) : (∃ i e, getInternal hasher cmp t k = some (some i) ∧ i < t.capacity ∧
      t.nodes i = some e ∧ cmp e.elem.1 k = true ∧ 0 < t.size) ∨
      getInternal hasher cmp t k = some none ∧ ∀ x ∈ pairs t, cmp x.1 k = false := by
  by_cases hzero : t.size = 0
  · right
    refine ⟨by simp [getInternal, hzero], ?_⟩
    have hnil : pairs t = [] := by
      rw [← List.length_eq_zero_iff, ← size_eq_length h, hzero]
    simp [hnil]
  · have hlt : t.size < t.capacity := by
      rcases hroom with h0 | hroom
      · have := h.size_eq
        simp [items, h0, contents] at this
        omega
      · exact (lt_idealSize _).trans_le hroom
    obtain ⟨e₀, he₀, hempty⟩ := h.exists_empty hlt
    obtain ⟨r, hr, hsome, hnone⟩ := seek_spec h.ordered (probeOk h.capacity_le)
      (fun x => cmp x.1 k) (Nat.mod_lt (hasher k) (by omega)) he₀ hempty
    cases r with
    | some i =>
        obtain ⟨hi, e, he, hk⟩ := hsome i rfl
        exact Or.inl ⟨i, e, by simp [getInternal, hzero, hr], hi, he, hk, by omega⟩
    | none =>
        refine Or.inr ⟨by simp [getInternal, hzero, hr], ?_⟩
        intro x hx
        obtain ⟨e, he, rfl⟩ := List.mem_map.mp hx
        by_contra hex
        obtain ⟨q, hq, hqe⟩ := mem_contents.mp he
        have := hnone rfl q hq e hqe (h.home_of_cmp hc he (by simpa using hex))
        exact hex this

/-- **`remove`** takes out the key, where its search finds what a lookup does and its moves are in
order. Kind: P -/
theorem remove_spec (hc : Consistent hasher cmp) (h : Wf hasher cmp t) (hroom : Roomy t) (k : K)
    (hsame : findRemoved hasher cmp t k = getInternal hasher cmp t k)
    (horder : ∀ i, getInternal hasher cmp t k = some (some i) →
      movesInOrder t.capacity t.capacity (set t.nodes i none) i = true) :
    ∃ t', remove hasher cmp t k = some t' ∧ Wf hasher cmp t' ∧ Roomy t' ∧
      ((∃ x, cmp x.1 k = true ∧ List.Perm (pairs t) (x :: pairs t')) ∨
        t' = t ∧ ∀ x ∈ pairs t, cmp x.1 k = false) := by
  rcases getInternal_spec hc h hroom k with ⟨i, e, hfind, hi, he, hk, hpos⟩ | ⟨hfind, hno⟩
  · have hideal : idealSize t.size ≤ t.capacity := by
      rcases hroom with h0 | hroom
      · omega
      · exact hroom
    obtain ⟨e₀, he₀, hempty⟩ := h.exists_empty ((lt_idealSize _).trans_le hideal)
    obtain ⟨nodes, hshift, hordered, hperm⟩ :=
      shiftLoop_spec (probeOk h.capacity_le) h.ordered hi he
      he₀ hempty (movesOk_of_movesInOrder h.capacity_le _ _ _ (OrderedBut.start h.ordered i) hi
        (horder i hfind))
    have hdist := (hperm.pairwise_iff Distinct.symm).mp h.distinct
    have hwf : Wf hasher cmp { t with nodes := nodes, size := t.size - 1 } := by
      refine ⟨h.capacity_le, hordered, ?_, ?_, (List.pairwise_cons.mp hdist).2⟩
      · show t.size - 1 = (contents t.capacity nodes).length
        rw [h.size_eq]
        show (contents t.capacity t.nodes).length - 1 = _
        rw [hperm.length_eq, List.length_cons, Nat.add_sub_cancel]
      · intro f hf
        exact h.home_eq f (hperm.mem_iff.mpr (List.mem_cons_of_mem _ hf))
    have hpairs : List.Perm (pairs t)
        (e.elem :: pairs { t with nodes := nodes, size := t.size - 1 }) := hperm.map Entry.elem
    have hmono : idealSize (t.size - 1) ≤ t.capacity :=
      (idealSize_mono (Nat.sub_le _ _)).trans hideal
    by_cases hless : idealSize (t.size - 1) < t.capacity
    · obtain ⟨t', hrehash, hwf', hroom', hperm'⟩ := rehash_spec hc hwf
        (hmono.trans h.capacity_le)
      refine ⟨t', ?_, hwf', hroom', Or.inl ⟨e.elem, hk, hpairs.trans (hperm'.symm.cons _)⟩⟩
      simp only [remove, hsame, hfind, Option.bind_eq_bind, Option.bind_some, hshift, resizeLess,
        if_pos hless]
      exact hrehash
    · refine ⟨_, ?_, hwf, Or.inr hmono, Or.inl ⟨e.elem, hk, hpairs⟩⟩
      simp only [remove, hsame, hfind, Option.bind_eq_bind, Option.bind_some, hshift, resizeLess,
        if_neg hless]
  · exact ⟨t, by simp [remove, hsame, hfind], h, hroom, Or.inr ⟨rfl, hno⟩⟩

/-- **`clear`** empties the map. Kind: P -/
theorem clear_spec (h : Wf hasher cmp t) :
    Wf hasher cmp (clear t) ∧ Roomy (clear t) ∧ pairs (clear t) = [] := by
  unfold clear
  by_cases hzero : t.capacity = 0
  · rw [if_pos hzero]
    exact ⟨h, Or.inl hzero, by simp [pairs, items, hzero, contents]⟩
  · rw [if_neg hzero]
    exact ⟨wf_empty (by omega), Or.inl rfl, pairs_empty 0⟩

end

end HashMap

end CxyCompiler.Stdlib
