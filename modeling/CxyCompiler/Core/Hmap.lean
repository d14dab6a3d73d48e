import CxyCompiler.Lib.RobinHood
import Mathlib.Algebra.Order.Ring.Nat

/-!
# The Robin Hood hash map (`core/hmap.c`)

A slot is empty or holds the home of its element (`hash % nslots`, stored one up) and the element.
The division by the load factor `0.9` is exact for the sizes a table can have.

* `hmapPutInternal`, `hmapPut`, `hmapRemove`, `hmapGet`, `hmapRehash` — the operations, as
  instances of the loops of Robin Hood probing. A resident is displaced at equal distances too. The
  nested `hmapPut` of a rehash takes `fuel`.
* `Wf`, `Roomy` — **the representation invariant**, and that at least one slot is empty.
* `firstOfHome` — no other element of its home comes before the element that a `put` updates.
* `hmapPut_spec`, `hmapRemove_spec`, `hmapGet_spec` — one specification for each operation.
* `hmapNext`, `hmapLoop_eq` — a loop over the items.
-/

namespace CxyCompiler.Core.RobinHoodMap

open CxyCompiler.Lib.Probing CxyCompiler.Lib.RobinHood

/-! ## Sizes -/

/-- Source: `hmap.c` `HMAP_RIMES`. -/
def HMAP_RIMES : List ℕ :=
  [0, 1, 5, 11, 23, 53, 101, 197, 389, 683, 1259, 2417, 4733, 9371, 18617, 37097, 74093, 148073,
    296099, 592019, 1100009, 2200013, 4400021, 8800019]

/-- `while (last < size) last <<= 1`. Source: `hmap.c` `hmapIdealSize`. -/
def doubleTo (size : ℕ) : ℕ → ℕ → ℕ
  | 0, last => last
  | fuel + 1, last => if last < size then doubleTo size fuel (last <<< 1) else last

/-- Source: `hmap.c` `hmapIdealSize`. -/
def hmapIdealSize (size : ℕ) : ℕ :=
  let size := (size + 1) * 10 / 9
  match HMAP_RIMES.find? (size ≤ ·) with
  | some prime => prime
  | none => doubleTo size size 8800019

/-! ## The table -/

/-- Source: `hmap.h` `Hmap`. -/
structure Hmap (α : Type) where
  nslots : ℕ
  nitems : ℕ
  data : ℕ → Option (Entry α)

/-- Source: `hmap.c` `hmapProbe`. -/
def hmapProbe (nslots i home : ℕ) : ℕ :=
  let v : ℤ := (i : ℤ) - home
  (if v < 0 then nslots + v else v).toNat

section

variable {α : Type} (hash : α → ℕ) (equal : α → α → Bool)

/-- Source: `hmap.h` `hmapCreateWithCapacity`, `hmap.c` `hmapInitWithCapacity`. -/
def hmapCreateWithCapacity (capacity : ℕ) : Hmap α :=
  { nslots := hmapIdealSize capacity, nitems := 0, data := fun _ => none }

/-- Source: `hmap.h` `hmapCreate`. -/
def hmapCreate : Hmap α := hmapCreateWithCapacity 0

/-- The table, the slot that the status points to, and whether an item was added.
Source: `hmap.c` `hmapPutInternal`. -/
def hmapPutInternal (t : Hmap α) (x : α) : Option (Hmap α × ℕ × Bool) := do
  let home := hash x % t.nslots
  let (data, i, added) ← insertLoop t.nslots (hmapProbe t.nslots) (fun j p => p ≤ j) equal true
    t.nslots t.data home 0 ⟨home, x⟩
  some ({ t with data := data, nitems := if added then t.nitems + 1 else t.nitems }, i, added)

/-- `put` is the nested `hmapPut`. Source: `hmap.c` `hmapRehash`. -/
def hmapRehash (put : Hmap α → α → Option (Hmap α × ℕ × Bool)) (t : Hmap α) (newCapacity : ℕ) :
    Option (Hmap α) :=
  (List.range t.nslots).foldlM
    (fun (new : Hmap α) i =>
      match t.data i with
      | some e => (put new e.elem).map (·.1)
      | none => some new)
    { nslots := newCapacity, nitems := 0, data := fun _ => none }

/-- Source: `hmap.c` `hmapResizeMore`. -/
def hmapResizeMore (put : Hmap α → α → Option (Hmap α × ℕ × Bool)) (t : Hmap α) :
    Option (Hmap α) :=
  let newSize := hmapIdealSize t.nitems
  if newSize > t.nslots then hmapRehash put t newSize else some t

/-- Source: `hmap.c` `hmapResizeLess`. -/
def hmapResizeLess (put : Hmap α → α → Option (Hmap α × ℕ × Bool)) (t : Hmap α) :
    Option (Hmap α) :=
  let newSize := hmapIdealSize t.nitems
  if newSize < t.nslots then hmapRehash put t newSize else some t

/-- Source: `hmap.c` `hmapPut`. -/
def hmapPut : ℕ → Hmap α → α → Option (Hmap α × ℕ × Bool)
  | 0, _, _ => none
  | fuel + 1, t, x => do
      let (t, i, added) ← hmapPutInternal hash equal t x
      if added then
        let t ← hmapResizeMore (hmapPut fuel) t
        some (t, i, added)
      else some (t, i, added)

/-- The search loop common to `hmapRemove` and `hmapGet`. -/
def hmapFind (t : Hmap α) (x : α) : Option (Option ℕ) :=
  seek t.nslots (hmapProbe t.nslots) t.data (fun y => equal y x) t.nslots (hash x % t.nslots) 0

/-- Source: `hmap.c` `hmapRemove`. -/
def hmapRemove (fuel : ℕ) (t : Hmap α) (x : α) : Option (Hmap α) :=
  if t.nslots = 0 then some t
  else do
    match ← hmapFind hash equal t x with
    | none => some t
    | some i =>
        let data ← shiftLoop t.nslots (hmapProbe t.nslots) t.nslots (set t.data i none) i
        hmapResizeLess (hmapPut hash equal fuel) { t with data := data, nitems := t.nitems - 1 }

/-- The key is not one of the items of the table itself. Source: `hmap.c` `hmapGet`. -/
def hmapGet (t : Hmap α) (x : α) : Option (Option α) :=
  if t.nslots = 0 then some none
  else do
    match ← hmapFind hash equal t x with
    | none => some none
    | some i => some ((t.data i).map (·.elem))

end

/-! ## Sizes leave room -/

theorem hmapProbe_eq {n i b : ℕ} (hb : b < n) : hmapProbe n i b = gap n b i := by
  unfold hmapProbe gap
  dsimp only
  split_ifs <;> omega

theorem doubleTo_ge {size : ℕ} : ∀ (fuel last : ℕ), 0 < last → size ≤ last + fuel →
    size ≤ doubleTo size fuel last ∧ last ≤ doubleTo size fuel last := by
  intro fuel
  induction fuel with
  | zero => intro last _ h; exact ⟨h, le_rfl⟩
  | succ fuel ih =>
      intro last hpos h
      rw [doubleTo]
      split_ifs with hlt
      · obtain ⟨hsize, hlast⟩ := ih (last <<< 1) (by omega) (by omega)
        exact ⟨hsize, by omega⟩
      · exact ⟨by omega, le_rfl⟩

theorem doubleTo_mono {size size' : ℕ} (h : size ≤ size') : ∀ (fuel fuel' last : ℕ), 0 < last →
    size' ≤ last + fuel' → doubleTo size fuel last ≤ doubleTo size' fuel' last := by
  intro fuel
  induction fuel with
  | zero => intro fuel' last hpos hfuel; exact (doubleTo_ge fuel' last hpos hfuel).2
  | succ fuel ih =>
      intro fuel' last hpos hfuel
      rw [doubleTo]
      split_ifs with hlt
      · match fuel' with
        | 0 => omega
        | fuel' + 1 =>
            rw [doubleTo, if_pos (by omega)]
            exact ih fuel' (last <<< 1) (by omega) (by omega)
      · exact (doubleTo_ge fuel' last hpos hfuel).2

theorem find_mono {size size' : ℕ} (h : size ≤ size') : ∀ {l : List ℕ}, l.Pairwise (· < ·) →
    ∀ {p' : ℕ}, l.find? (size' ≤ ·) = some p' → ∃ p, l.find? (size ≤ ·) = some p ∧ p ≤ p' := by
  intro l hl p' hp'
  induction l with
  | nil => simp at hp'
  | cons a l ih =>
      obtain ⟨ha, hl⟩ := List.pairwise_cons.mp hl
      have hmem := List.mem_of_find?_eq_some hp'
      by_cases hsize : size ≤ a
      · refine ⟨a, by simp [hsize], ?_⟩
        rcases List.mem_cons.mp hmem with rfl | hmem
        · exact le_rfl
        · exact (ha p' hmem).le
      · have hsize' : ¬ size' ≤ a := by omega
        rw [List.find?_cons_of_neg (by simpa using hsize')] at hp'
        obtain ⟨p, hp, hle⟩ := ih hl hp'
        exact ⟨p, by rw [List.find?_cons_of_neg (by simpa using hsize)]; exact hp, hle⟩

theorem hmapIdealSize_mono {a b : ℕ} (h : a ≤ b) : hmapIdealSize a ≤ hmapIdealSize b := by
  have hsize : (a + 1) * 10 / 9 ≤ (b + 1) * 10 / 9 := by omega
  have hsorted : HMAP_RIMES.Pairwise (· < ·) := by decide
  have hmax : ∀ p ∈ HMAP_RIMES, p ≤ 8800019 := by decide
  unfold hmapIdealSize
  dsimp only
  cases hb : HMAP_RIMES.find? ((b + 1) * 10 / 9 ≤ ·) with
  | some p' =>
      obtain ⟨p, hp, hle⟩ := find_mono hsize hsorted hb
      rw [hp]
      exact hle
  | none =>
      have hbig := (doubleTo_ge ((b + 1) * 10 / 9) 8800019 (by omega)
        (Nat.le_add_left _ _) : (b + 1) * 10 / 9 ≤ _ ∧ _)
      cases ha : HMAP_RIMES.find? ((a + 1) * 10 / 9 ≤ ·) with
      | some p => exact (hmax p (List.mem_of_find?_eq_some ha)).trans hbig.2
      | none => exact doubleTo_mono hsize _ _ _ (by omega) (by omega)

/-- The ideal size leaves at least one slot empty. Kind: L -/
theorem lt_hmapIdealSize (a : ℕ) : a < hmapIdealSize a := by
  have hsize : a < (a + 1) * 10 / 9 := by omega
  unfold hmapIdealSize
  dsimp only
  cases ha : HMAP_RIMES.find? ((a + 1) * 10 / 9 ≤ ·) with
  | some p =>
      have := List.find?_some ha
      simp only [decide_eq_true_eq] at this
      exact hsize.trans_le this
  | none =>
      exact hsize.trans_le (doubleTo_ge _ _ (by omega) (Nat.le_add_left _ _)).1

/-! ## The representation invariant -/

section

variable {α : Type} (hash : α → ℕ) (equal : α → α → Bool)

/-- What the callers promise of `hash` and `equal`. -/
structure HashConsistent : Prop where
  refl : ∀ x, equal x x = true
  symm : ∀ x y, equal x y = true → equal y x = true
  trans : ∀ x y z, equal x y = true → equal y z = true → equal x z = true
  hash_eq : ∀ x y, equal x y = true → hash x = hash y

/-- The entries of the table. -/
def items (t : Hmap α) : List (Entry α) := contents t.nslots t.data

/-- **The representation invariant.** -/
structure Wf (t : Hmap α) : Prop where
  pos : 0 < t.nslots
  ordered : Ordered t.nslots (hmapProbe t.nslots) t.data
  nitems_eq : t.nitems = (items t).length
  home_eq : ∀ e ∈ items t, e.home = hash e.elem % t.nslots
  distinct : (items t).Pairwise (Distinct equal)

/-- The next `put` finds an empty slot. -/
def Roomy (t : Hmap α) : Prop := hmapIdealSize t.nitems ≤ t.nslots

/-- No other element of the same home comes before the one that is equal to `x`. -/
def firstOfHome (t : Hmap α) (x : α) : Bool :=
  (List.range t.nslots).all fun q =>
    match t.data q with
    | some e =>
        !equal e.elem x || (List.range t.nslots).all fun k =>
          match t.data k with
          | some f => !(f.home == e.home &&
              hmapProbe t.nslots k e.home < hmapProbe t.nslots q e.home)
          | none => true
    | none => true

variable {hash equal} {t : Hmap α}

theorem probeOk (n : ℕ) : ProbeOk n (hmapProbe n) := fun _ _ _ hb => Or.inl (hmapProbe_eq hb)

theorem swapOk : SwapOk fun j p => decide (p ≤ j) where
  displaced := by simp
  passed := by simp; omega

theorem Roomy.lt (h : Roomy t) : t.nitems < t.nslots := (lt_hmapIdealSize _).trans_le h

theorem create_wf (capacity : ℕ) : Wf hash equal (hmapCreateWithCapacity (α := α) capacity) where
  pos := Nat.zero_lt_of_lt (lt_hmapIdealSize capacity)
  ordered := Ordered.empty
  nitems_eq := by simp [items, hmapCreateWithCapacity, contents]
  home_eq := by simp [items, hmapCreateWithCapacity, contents]
  distinct := by simp [items, hmapCreateWithCapacity, contents]

theorem create_roomy (capacity : ℕ) : Roomy (hmapCreateWithCapacity (α := α) capacity) :=
  hmapIdealSize_mono (Nat.zero_le capacity)

theorem Wf.exists_empty (h : Wf hash equal t) (hroom : t.nitems < t.nslots) :
    ∃ i < t.nslots, t.data i = none := by
  apply CxyCompiler.Lib.Probing.exists_empty
  rw [h.nitems_eq] at hroom
  exact hroom

/-! ## Insertion -/

theorem Wf.home_of_equal (hc : HashConsistent hash equal) (h : Wf hash equal t) {e : Entry α}
    (he : e ∈ items t) {x : α} (hx : equal e.elem x = true) : e.home = hash x % t.nslots := by
  rw [h.home_eq e he, hc.hash_eq _ _ hx]

theorem distinct_of_not_equal (hc : HashConsistent hash equal) {x y : α} {b b' : ℕ}
    (h : equal y x = false) : Distinct equal ⟨b, x⟩ ⟨b', y⟩ := by
  refine ⟨?_, h⟩
  by_contra hxy
  have := hc.symm x y (by simpa using hxy)
  simp [h] at this

theorem hmapPutInternal_absent (hc : HashConsistent hash equal) (h : Wf hash equal t)
    (hroom : t.nitems < t.nslots) {x : α} (hnew : ∀ e ∈ items t, equal e.elem x = false) :
    ∃ t' i, hmapPutInternal hash equal t x = some (t', i, true) ∧ Wf hash equal t' ∧
      t'.nslots = t.nslots ∧ t'.nitems = t.nitems + 1 ∧
      List.Perm (items t') (⟨hash x % t.nslots, x⟩ :: items t) := by
  obtain ⟨e₀, he₀, hempty⟩ := h.exists_empty hroom
  have hhome : hash x % t.nslots < t.nslots := Nat.mod_lt _ h.pos
  have hdistinct : ((⟨hash x % t.nslots, x⟩ : Entry α) :: items t).Pairwise (Distinct equal) := by
    refine List.pairwise_cons.mpr ⟨fun e he => ?_, h.distinct⟩
    exact distinct_of_not_equal hc (hnew e he)
  obtain ⟨data, i, hrun, hordered, hperm⟩ := insertLoop_absent true swapOk (probeOk _) h.ordered
    he₀ hempty hhome hdistinct
  refine ⟨{ t with data := data, nitems := t.nitems + 1 }, i, ?_, ⟨h.pos, hordered, ?_, ?_, ?_⟩,
    rfl, rfl, hperm⟩
  · simp [hmapPutInternal, hrun]
  · rw [h.nitems_eq]
    exact hperm.length_eq.symm
  · intro e he
    rcases List.mem_cons.mp (hperm.mem_iff.mp he) with rfl | he
    · rfl
    · exact h.home_eq e he
  · exact (hperm.pairwise_iff Distinct.symm).mpr hdistinct

theorem firstOfHome_spec {x : α} (hfirst : firstOfHome equal t x = true) {q k : ℕ} {e f : Entry α}
    (hq : q < t.nslots) (hk : k < t.nslots) (he : t.data q = some e) (hf : t.data k = some f)
    (hx : equal e.elem x = true) (hhome : f.home = e.home) :
    hmapProbe t.nslots q e.home ≤ hmapProbe t.nslots k e.home := by
  have h := List.all_eq_true.mp hfirst q (List.mem_range.mpr hq)
  simp only [he, hx, Bool.not_true, Bool.false_or] at h
  have h' := List.all_eq_true.mp h k (List.mem_range.mpr hk)
  simpa [hf, hhome] using h'

/-- An equal element in the place of one. Kind: L -/
theorem Wf.replace (hc : HashConsistent hash equal) (h : Wf hash equal t) {q : ℕ} {e : Entry α}
    (hq : q < t.nslots) (heq : t.data q = some e) {x : α} (hx : equal e.elem x = true) :
    Wf hash equal { t with data := set t.data q (some ⟨hash x % t.nslots, x⟩) } ∧ ∃ others,
      List.Perm (items t) (e :: others) ∧
        List.Perm (items { t with data := set t.data q (some ⟨hash x % t.nslots, x⟩) })
          (⟨hash x % t.nslots, x⟩ :: others) := by
  have hhome := h.home_of_equal hc (mem_contents.mpr ⟨q, hq, heq⟩) hx
  obtain ⟨others, hout, hin⟩ := contents_set (c := ⟨hash x % t.nslots, x⟩) hq heq
  refine ⟨⟨h.pos, h.ordered.replace hq heq hhome, ?_, ?_, ?_⟩, others, hout, hin⟩
  · rw [h.nitems_eq]
    exact hout.length_eq.trans hin.length_eq.symm
  · intro f hf
    rcases List.mem_cons.mp (hin.mem_iff.mp hf) with rfl | hf
    · rfl
    · exact h.home_eq f (hout.mem_iff.mpr (List.mem_cons_of_mem _ hf))
  · have hdist := (hout.pairwise_iff Distinct.symm).mp h.distinct
    obtain ⟨hehead, hothers⟩ := List.pairwise_cons.mp hdist
    refine (hin.pairwise_iff Distinct.symm).mpr (List.pairwise_cons.mpr ⟨fun f hf => ?_, hothers⟩)
    apply distinct_of_not_equal hc
    by_contra hfx
    have hxe := hc.symm _ _ hx
    have := hc.trans _ _ _ (by simpa using hfx) hxe
    simp [(hehead f hf).2] at this

/-- An element that is the first of its home is replaced. Kind: L -/
theorem hmapPutInternal_present (hc : HashConsistent hash equal) (h : Wf hash equal t) {x : α}
    (hfirst : firstOfHome equal t x = true) {e : Entry α} (he : e ∈ items t)
    (hx : equal e.elem x = true) :
    ∃ t' i, hmapPutInternal hash equal t x = some (t', i, false) ∧ Wf hash equal t' ∧
      t'.nslots = t.nslots ∧ t'.nitems = t.nitems ∧ ∃ others,
      List.Perm (items t) (e :: others) ∧
        List.Perm (items t') (⟨hash x % t.nslots, x⟩ :: others) := by
  obtain ⟨q, hq, heq⟩ := mem_contents.mp he
  have hhome := h.home_of_equal hc he hx
  have hb : e.home < t.nslots := h.ordered.home_lt q hq e heq
  have hpass : ∀ k < t.nslots, gap t.nslots (hash x % t.nslots) k <
      gap t.nslots (hash x % t.nslots) q → ∀ f, t.data k = some f →
      equal f.elem x = false ∧
        decide (hmapProbe t.nslots k f.home ≤ gap t.nslots (hash x % t.nslots) k) = false := by
    intro k hk hkq f hf
    rw [← hhome] at hkq ⊢
    have hfh := h.ordered.home_lt k hk f hf
    -- on the way to `e` only another element of its home could be displaced
    have hnothome : f.home ≠ e.home := by
      intro hfe
      have hle := firstOfHome_spec hfirst hq hk heq hf hx hfe
      rw [hmapProbe_eq hb, hmapProbe_eq hb] at hle
      omega
    obtain ⟨g, hg, hle⟩ := h.ordered.path q hq e heq k hk hkq
    rw [hf, Option.some.injEq] at hg
    subst hg
    constructor
    · by_contra hfx
      exact hnothome ((h.home_of_equal hc (mem_contents.mpr ⟨k, hk, hf⟩) (by simpa using hfx)).trans
        hhome.symm)
    · rw [hmapProbe_eq hfh] at hle ⊢
      have hne : gap t.nslots e.home k ≠ gap t.nslots f.home k := by
        intro heq'
        apply hnothome
        unfold gap at heq'
        split_ifs at heq' <;> omega
      simp only [decide_eq_false_iff_not]
      omega
  have hrun := insertLoop_present (fun j p => decide (p ≤ j)) true h.ordered hq heq
    (show e.home = (⟨hash x % t.nslots, x⟩ : Entry α).home from hhome) hx hpass
  obtain ⟨hwf, others, hout, hin⟩ := h.replace hc hq heq hx
  exact ⟨{ t with data := set t.data q (some ⟨hash x % t.nslots, x⟩) }, q, by
    simp [hmapPutInternal, hrun],
    hwf, rfl, rfl, others, hout, hin⟩

/-- The elements of the table. -/
def elems (t : Hmap α) : List α := (items t).map (·.elem)

/-- Neither of two elements is equal to the other. -/
def Unequal (equal : α → α → Bool) (x y : α) : Prop := equal x y = false ∧ equal y x = false

theorem Unequal.symm {x y : α} (h : Unequal equal x y) : Unequal equal y x := ⟨h.2, h.1⟩

theorem elems_pairwise (h : Wf hash equal t) : (elems t).Pairwise (Unequal equal) :=
  List.pairwise_map.mpr h.distinct

theorem nitems_eq_length (h : Wf hash equal t) : t.nitems = (elems t).length := by
  rw [h.nitems_eq, elems, List.length_map]

/-- A new element, where the table need not grow. Kind: L -/
theorem hmapPut_fits (hc : HashConsistent hash equal) (h : Wf hash equal t)
    (hroom : hmapIdealSize (t.nitems + 1) ≤ t.nslots) {x : α}
    (hnew : ∀ y ∈ elems t, equal y x = false) (fuel : ℕ) :
    ∃ t' i, hmapPut hash equal (fuel + 1) t x = some (t', i, true) ∧ Wf hash equal t' ∧
      t'.nslots = t.nslots ∧ t'.nitems = t.nitems + 1 ∧ List.Perm (elems t') (x :: elems t) := by
  have hlt : t.nitems < t.nslots := by
    have := lt_hmapIdealSize (t.nitems + 1)
    omega
  obtain ⟨t', i, hrun, hwf, hslots, hitems, hperm⟩ := hmapPutInternal_absent hc h hlt
    (fun e he => hnew e.elem (List.mem_map_of_mem he))
  refine ⟨t', i, ?_, hwf, hslots, hitems, hperm.map _⟩
  have hno : ¬ hmapIdealSize t'.nitems > t'.nslots := by
    rw [hitems, hslots]
    omega
  simp [hmapPut, hrun, hmapResizeMore, hno]

/-- A rehash puts all elements into the new slots, which are enough for them. Kind: L -/
theorem rehash_fold (hc : HashConsistent hash equal) (fuel N : ℕ) :
    ∀ (l : List (Entry α)) (new : Hmap α), Wf hash equal new → new.nslots = N →
      hmapIdealSize (new.nitems + l.length) ≤ N →
      (l.map (·.elem) ++ elems new).Pairwise (Unequal equal) →
      ∃ t', l.foldlM (fun new e => (hmapPut hash equal (fuel + 1) new e.elem).map (·.1)) new =
          some t' ∧ Wf hash equal t' ∧ t'.nslots = N ∧
        List.Perm (elems t') (l.map (·.elem) ++ elems new) := by
  intro l
  induction l with
  | nil =>
      intro new hwf hslots _ _
      exact ⟨new, rfl, hwf, hslots, List.Perm.refl _⟩
  | cons e l ih =>
      intro new hwf hslots hroom hdist
      rw [List.map_cons, List.cons_append, List.pairwise_cons] at hdist
      obtain ⟨hhead, htail⟩ := hdist
      have hmono : hmapIdealSize (new.nitems + 1) ≤ new.nslots := by
        rw [hslots]
        refine (hmapIdealSize_mono ?_).trans hroom
        rw [List.length_cons]
        omega
      obtain ⟨t₁, i, hput, hwf₁, hslots₁, hitems₁, hperm₁⟩ := hmapPut_fits hc hwf hmono
        (fun y hy => (hhead y (List.mem_append_right _ hy)).2) fuel
      have hperm : List.Perm (l.map (·.elem) ++ elems t₁)
          (e.elem :: (l.map (·.elem) ++ elems new)) :=
        (hperm₁.append_left _).trans List.perm_middle
      obtain ⟨t', hrun, hwf', hslots', hperm'⟩ := ih t₁ hwf₁ (hslots₁.trans hslots)
        (by rw [hitems₁]; rw [List.length_cons] at hroom; convert hroom using 2; omega)
        ((hperm.pairwise_iff Unequal.symm).mpr (List.pairwise_cons.mpr ⟨hhead, htail⟩))
      refine ⟨t', ?_, hwf', hslots', hperm'.trans hperm⟩
      rw [List.foldlM_cons, hput]
      exact hrun

theorem hmapRehash_spec (hc : HashConsistent hash equal) (h : Wf hash equal t) (fuel : ℕ) :
    ∃ t', hmapRehash (hmapPut hash equal (fuel + 1)) t (hmapIdealSize t.nitems) = some t' ∧
      Wf hash equal t' ∧ Roomy t' ∧ List.Perm (elems t') (elems t) := by
  have hpos : 0 < hmapIdealSize t.nitems := Nat.zero_lt_of_lt (lt_hmapIdealSize _)
  have hempty : Wf hash equal
      ({ nslots := hmapIdealSize t.nitems, nitems := 0, data := fun _ => none } : Hmap α) :=
    ⟨hpos, Ordered.empty, by simp [items, contents], by simp [items, contents],
      by simp [items, contents]⟩
  have hnil : elems ({ nslots := hmapIdealSize t.nitems, nitems := 0, data := fun _ => none } :
      Hmap α) = [] := by simp [elems, items, contents]
  obtain ⟨t', hrun, hwf, hslots, hperm⟩ := rehash_fold hc fuel (hmapIdealSize t.nitems) (items t) _
    hempty rfl (by rw [h.nitems_eq, Nat.zero_add]) (by
      rw [hnil, List.append_nil]
      exact elems_pairwise h)
  rw [hnil, List.append_nil] at hperm
  refine ⟨t', ?_, hwf, ?_, hperm⟩
  · rw [hmapRehash, ← hrun, items, contents, List.foldlM_filterMap]
    congr 1
    funext new i
    cases t.data i <;> rfl
  · have hlen : t'.nitems = t.nitems := by
      rw [nitems_eq_length hwf, nitems_eq_length h]
      exact hperm.length_eq
    rw [Roomy, hlen, hslots]

theorem hmapPut_absent (hc : HashConsistent hash equal) (h : Wf hash equal t) (hroom : Roomy t)
    {x : α} (hnew : ∀ y ∈ elems t, equal y x = false) (fuel : ℕ) :
    ∃ t' i, hmapPut hash equal (fuel + 2) t x = some (t', i, true) ∧ Wf hash equal t' ∧ Roomy t' ∧
      List.Perm (elems t') (x :: elems t) := by
  obtain ⟨t₁, i, hrun, hwf₁, hslots₁, hitems₁, hperm₁⟩ := hmapPutInternal_absent hc h hroom.lt
    (fun e he => hnew e.elem (List.mem_map_of_mem he))
  by_cases hgrow : hmapIdealSize t₁.nitems > t₁.nslots
  · obtain ⟨t', hrehash, hwf, hroom', hperm⟩ := hmapRehash_spec hc hwf₁ fuel
    refine ⟨t', i, ?_, hwf, hroom', hperm.trans (hperm₁.map _)⟩
    rw [hmapPut, hrun]
    simp [hmapResizeMore, hgrow, hrehash]
  · refine ⟨t₁, i, ?_, hwf₁, not_lt.mp hgrow, hperm₁.map _⟩
    rw [hmapPut, hrun]
    simp [hmapResizeMore, hgrow]

/-- **`hmapPut`** adds a new element, or replaces the one equal to it. Kind: P -/
theorem hmapPut_spec (hc : HashConsistent hash equal) (h : Wf hash equal t) (hroom : Roomy t)
    {x : α} (hfirst : firstOfHome equal t x = true) (fuel : ℕ) :
    ∃ t' i added, hmapPut hash equal (fuel + 2) t x = some (t', i, added) ∧ Wf hash equal t' ∧
      Roomy t' ∧ (((∀ y ∈ elems t, equal y x = false) ∧ List.Perm (elems t') (x :: elems t)) ∨
        ∃ y others, equal y x = true ∧ List.Perm (elems t) (y :: others) ∧
          List.Perm (elems t') (x :: others)) := by
  by_cases hex : ∃ e ∈ items t, equal e.elem x = true
  · obtain ⟨e, he, hx⟩ := hex
    obtain ⟨t', i, hrun, hwf, hslots, hitems, others, hout, hin⟩ :=
      hmapPutInternal_present hc h hfirst he hx
    refine ⟨t', i, false, by simp [hmapPut, hrun], hwf, by rw [Roomy, hitems, hslots]; exact hroom,
      Or.inr ⟨e.elem, others.map Entry.elem, hx, hout.map Entry.elem, hin.map Entry.elem⟩⟩
  · push Not at hex
    have hnew : ∀ y ∈ elems t, equal y x = false := by
      intro y hy
      obtain ⟨e, he, rfl⟩ := List.mem_map.mp hy
      simpa using hex e he
    obtain ⟨t', i, hput, hwf, hroom', hperm⟩ := hmapPut_absent hc h hroom hnew fuel
    exact ⟨t', i, true, hput, hwf, hroom', Or.inl ⟨hnew, hperm⟩⟩

/-! ## Lookup and removal -/

/-- The search finds the element equal to `x`. Kind: L -/
theorem hmapFind_spec (hc : HashConsistent hash equal) (h : Wf hash equal t) (hroom : Roomy t)
    (x : α) : (∃ i e, hmapFind hash equal t x = some (some i) ∧ i < t.nslots ∧
      t.data i = some e ∧ equal e.elem x = true) ∨
      hmapFind hash equal t x = some none ∧ ∀ y ∈ elems t, equal y x = false := by
  obtain ⟨e₀, he₀, hempty⟩ := h.exists_empty hroom.lt
  obtain ⟨r, hr, hsome, hnone⟩ := seek_spec h.ordered (probeOk _) (fun y => equal y x)
    (Nat.mod_lt (hash x) h.pos) he₀ hempty
  cases r with
  | some i =>
      obtain ⟨hi, e, he, hx⟩ := hsome i rfl
      exact Or.inl ⟨i, e, hr, hi, he, hx⟩
  | none =>
      refine Or.inr ⟨hr, ?_⟩
      intro y hy
      obtain ⟨e, he, rfl⟩ := List.mem_map.mp hy
      by_contra hex
      obtain ⟨q, hq, hqe⟩ := mem_contents.mp he
      have := hnone rfl q hq e hqe (h.home_of_equal hc he (by simpa using hex))
      exact hex this

/-- **`hmapGet`** returns the element equal to `x`. Kind: P -/
theorem hmapGet_spec (hc : HashConsistent hash equal) (h : Wf hash equal t) (hroom : Roomy t)
    (x : α) : (∃ y ∈ elems t, hmapGet hash equal t x = some (some y) ∧ equal y x = true) ∨
      hmapGet hash equal t x = some none ∧ ∀ y ∈ elems t, equal y x = false := by
  have hpos : t.nslots ≠ 0 := h.pos.ne'
  rcases hmapFind_spec hc h hroom x with ⟨i, e, hfind, hi, he, hx⟩ | ⟨hfind, hno⟩
  · refine Or.inl ⟨e.elem, List.mem_map_of_mem (mem_contents.mpr ⟨i, hi, he⟩), ?_, hx⟩
    simp [hmapGet, hpos, hfind, he]
  · exact Or.inr ⟨by simp [hmapGet, hpos, hfind], hno⟩

/-- **`hmapRemove`** takes out the element equal to `x`. Kind: P -/
theorem hmapRemove_spec (hc : HashConsistent hash equal) (h : Wf hash equal t) (hroom : Roomy t)
    (x : α) (fuel : ℕ) :
    ∃ t', hmapRemove hash equal (fuel + 1) t x = some t' ∧ Wf hash equal t' ∧ Roomy t' ∧
      ((∃ y, equal y x = true ∧ List.Perm (elems t) (y :: elems t')) ∨
        t' = t ∧ ∀ y ∈ elems t, equal y x = false) := by
  have hpos : t.nslots ≠ 0 := h.pos.ne'
  rcases hmapFind_spec hc h hroom x with ⟨i, e, hfind, hi, he, hx⟩ | ⟨hfind, hno⟩
  · obtain ⟨e₀, he₀, hempty⟩ := h.exists_empty hroom.lt
    obtain ⟨data, hshift, hordered, hperm⟩ := shiftLoop_spec (probeOk _) h.ordered hi he he₀ hempty
      (movesOk_of_gap (fun _ _ _ hb => hmapProbe_eq hb) _ _ _ (OrderedBut.start h.ordered i) hi)
    have hdist := (hperm.pairwise_iff Distinct.symm).mp h.distinct
    have hlen := hperm.length_eq
    have hwf : Wf hash equal { t with data := data, nitems := t.nitems - 1 } := by
      refine ⟨h.pos, hordered, ?_, ?_, (List.pairwise_cons.mp hdist).2⟩
      · show t.nitems - 1 = (contents t.nslots data).length
        rw [h.nitems_eq]
        show (contents t.nslots t.data).length - 1 = _
        rw [hlen, List.length_cons, Nat.add_sub_cancel]
      · intro f hf
        exact h.home_eq f (hperm.mem_iff.mpr (List.mem_cons_of_mem _ hf))
    have helems : List.Perm (elems t)
        (e.elem :: elems { t with data := data, nitems := t.nitems - 1 }) := hperm.map _
    by_cases hless : hmapIdealSize (t.nitems - 1) < t.nslots
    · obtain ⟨t', hrehash, hwf', hroom', hperm'⟩ := hmapRehash_spec hc hwf fuel
      refine ⟨t', ?_, hwf', hroom', Or.inl ⟨e.elem, hx, helems.trans (hperm'.symm.cons _)⟩⟩
      simp only [hmapRemove, if_neg hpos, hfind, Option.bind_eq_bind, Option.bind_some, hshift,
        hmapResizeLess, if_pos hless]
      exact hrehash
    · refine ⟨_, ?_, hwf, ?_, Or.inl ⟨e.elem, hx, helems⟩⟩
      · simp only [hmapRemove, if_neg hpos, hfind, Option.bind_eq_bind, Option.bind_some, hshift,
          hmapResizeLess, if_neg hless]
      · exact (hmapIdealSize_mono (Nat.sub_le _ _)).trans hroom
  · exact ⟨t, by simp [hmapRemove, hpos, hfind], h, hroom, Or.inr ⟨rfl, hno⟩⟩

/-! ## Iteration -/

/-- The loop of `hmapNext`, for as many slots as are left. -/
def nextItem (t : Hmap α) : ℕ → ℕ → Option (α × ℕ)
  | 0, _ => none
  | left + 1, index =>
      match t.data index with
      | some e => some (e.elem, index + 1)
      | none => nextItem t left (index + 1)

/-- The next item and the index of the iterator behind it. Source: `hmap.c` `hmapNext`. -/
def hmapNext (t : Hmap α) (index : ℕ) : Option (α × ℕ) := nextItem t (t.nslots - index) index

/-- `while ((item = hmapNext(&it)))` with a body that may fail. -/
def hmapLoop {β : Type} (body : β → α → Option β) (t : Hmap α) : ℕ → ℕ → β → Option β
  | 0, _, _ => none
  | rounds + 1, index, s =>
      match hmapNext t index with
      | none => some s
      | some (x, index) => (body s x).bind fun s => hmapLoop body t rounds index s

/-- The items from a slot on. -/
def itemsFrom (t : Hmap α) (left index : ℕ) : List α :=
  ((List.range' index left).filterMap t.data).map (·.elem)

theorem itemsFrom_succ (t : Hmap α) (left index : ℕ) : itemsFrom t (left + 1) index =
    ((t.data index).map (·.elem)).toList ++ itemsFrom t left (index + 1) := by
  rw [itemsFrom, List.range'_succ]
  cases hdata : t.data index with
  | none => rw [List.filterMap_cons_none hdata]; rfl
  | some e => rw [List.filterMap_cons_some hdata]; rfl

/-- The next item is the first one from the index on. Kind: L -/
theorem nextItem_spec (t : Hmap α) : ∀ left index : ℕ,
    (nextItem t left index = none ∧ itemsFrom t left index = []) ∨
      ∃ x skip, nextItem t left index = some (x, index + skip + 1) ∧ skip < left ∧
        itemsFrom t left index = x :: itemsFrom t (left - skip - 1) (index + skip + 1)
  | 0, index => .inl ⟨rfl, rfl⟩
  | left + 1, index => by
      rw [nextItem, itemsFrom_succ]
      cases hdata : t.data index with
      | some e => exact .inr ⟨e.elem, 0, rfl, left.succ_pos, rfl⟩
      | none =>
          obtain ⟨hnext, hitems⟩ | ⟨x, skip, hnext, hlt, hitems⟩ := nextItem_spec t left (index + 1)
          · exact .inl ⟨hnext, hitems⟩
          · have hindex : index + 1 + skip + 1 = index + (skip + 1) + 1 := by omega
            have hleft : left - skip - 1 = left + 1 - (skip + 1) - 1 := by omega
            rw [hindex] at hnext hitems
            rw [hleft] at hitems
            exact .inr ⟨x, skip + 1, hnext, Nat.succ_lt_succ hlt, hitems⟩

/-- **A loop goes through the items in the order of the slots.** Kind: P -/
theorem hmapLoop_eq {β : Type} (body : β → α → Option β) (t : Hmap α) : ∀ (rounds index : ℕ)
    (s : β),
    t.nslots - index < rounds →
      hmapLoop body t rounds index s = (itemsFrom t (t.nslots - index) index).foldlM body s
  | 0, _, _, h => absurd h (Nat.not_lt_zero _)
  | rounds + 1, index, s, h => by
      rw [hmapLoop, hmapNext]
      obtain ⟨hnext, hitems⟩ | ⟨x, skip, hnext, hlt, hitems⟩ :=
        nextItem_spec t (t.nslots - index) index
      · rw [hnext, hitems]
        rfl
      · have hleft : t.nslots - index - skip - 1 = t.nslots - (index + skip + 1) := by omega
        rw [hnext, hitems, hleft, List.foldlM_cons]
        have hrest : ∀ s, hmapLoop body t rounds (index + skip + 1) s =
            (itemsFrom t (t.nslots - (index + skip + 1)) (index + skip + 1)).foldlM body s :=
          fun s => hmapLoop_eq body t rounds (index + skip + 1) s (by omega)
        exact congrArg (body s x).bind (funext hrest)

theorem itemsFrom_zero (t : Hmap α) : itemsFrom t t.nslots 0 = elems t := by
  rw [itemsFrom, ← List.range_eq_range']
  rfl

end

end CxyCompiler.Core.RobinHoodMap
