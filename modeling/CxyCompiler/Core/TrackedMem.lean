import Mathlib.Data.UInt
import CxyCompiler.Lib.Links
import CxyCompiler.Lib.Runs

/-!
# Tracked blocks of a memory pool (`core/mempool.c`)

A pool keeps the blocks that are allocated on their own in a list that is linked in both directions;
the links are in a header in front of each block. The addresses that the allocator returns are part
of an operation: any that no live block has. What is not defined (an access to a freed block, or to
a header that the block has no room for) has no result.

* `allocTrackedMem`, `reallocTrackedMem`, `freeMemPool` — the functions, on the live blocks.
* `Right` — the blocks of the list are the live ones, each once, and the links are inverse.
* `tracked_runs_iff` — **every state of a run is right if and only if no block is moved**, and every
  block has room for its header.
-/

namespace CxyCompiler.Core.TrackedMem

open CxyCompiler.Lib.Links CxyCompiler.Lib.Runs

/-! ## The functions -/

/-- A live block with its header; the value is its size. Source: `mempool.h` `TrackedMemoryItem`. -/
abbrev TrackedMemoryItem := Node UInt64

/-- The live blocks and `trackedAllocations`. Source: `mempool.h` `MemPool`. -/
structure MemPool where
  blocks : Cells UInt64
  first : Option ℕ
  last : Option ℕ
  allocated : UInt64
deriving DecidableEq

/-- `sizeof(TrackedMemoryItem)`. -/
def header : UInt64 := 24

/-- Source: `mempool.c` `newMemPool`. -/
def newMemPool : MemPool := ⟨∅, none, none, 0⟩

/-- `malloc` returns `a`. Source: `mempool.c` `allocTrackedMem`. -/
def allocTrackedMem (pool : MemPool) (size : UInt64) (a : ℕ) : Option MemPool :=
  if size + header < header then none
  else
    match pool.first with
    | none =>
        some ⟨pool.blocks.insert a ⟨none, none, size⟩, some a, some a, pool.allocated + size⟩
    | some _ => do
        let last ← pool.last
        let blocks ← linkNext (pool.blocks.insert a ⟨some last, none, size⟩) (some last) (some a)
        some ⟨blocks, pool.first, some a, pool.allocated + size⟩

/-- `realloc` returns `a`; it is asked for `size` bytes, with the header. Source: `mempool.c`
`reallocTrackedMem`. -/
def reallocTrackedMem (pool : MemPool) (ptr : ℕ) (size : UInt64) (a : ℕ) : Option MemPool := do
  let item ← pool.blocks.lookup ptr
  if size < header then none
  else
    let blocks := (pool.blocks.erase ptr).insert a { item with value := size }
    let blocks ← linkNext blocks item.prev (some a)
    some ⟨blocks, pool.first, pool.last, pool.allocated - item.value + size⟩

/-- Source: `mempool.c` `freeMemPool`. -/
def freeMemPool (pool : MemPool) : Option MemPool := do
  let blocks ← freeAll pool.blocks.keys.length pool.blocks pool.first
  some ⟨blocks, none, none, 0⟩

/-- An operation, with the address that the allocator returns. -/
inductive Op where
  | alloc (size : UInt64) (a : ℕ)
  | realloc (ptr : ℕ) (size : UInt64) (a : ℕ)
  | free

/-- The allocator returns an address that no live block has, or that of the block itself, and only
live blocks are reallocated. A state without a value is one after something that is not defined. -/
def step : Option MemPool → Op → Option (Option MemPool)
  | none, _ => none
  | some pool, .alloc size a =>
      if (pool.blocks.lookup a).isSome then none else some (allocTrackedMem pool size a)
  | some pool, .realloc ptr size a =>
      if (pool.blocks.lookup ptr).isSome ∧ (a = ptr ∨ ¬ (pool.blocks.lookup a).isSome) then
        some (reallocTrackedMem pool ptr size a)
      else none
  | some pool, .free => some (freeMemPool pool)

/-! ## What the list is for -/

/-- The blocks between `first` and `last` are the live ones, each once, linked in both
directions. -/
structure Lists (pool : MemPool) (xs : List (ℕ × UInt64)) : Prop where
  segment : Segment pool.blocks none xs none
  nodup : (addresses xs).Nodup
  live : ∀ a, (pool.blocks.lookup a).isSome = true ↔ a ∈ addresses xs
  first_eq : pool.first = first xs none
  last_eq : pool.last = last none xs

def Right (s : Option MemPool) : Prop := ∃ pool, s = some pool ∧ ∃ xs, Lists pool xs

/-- **The run invariant**: moreover the sizes are those that were asked for. -/
def Inv (s : Option MemPool) : Prop := ∃ pool, s = some pool ∧
  ∃ xs, Lists pool xs ∧ pool.allocated = (xs.map Prod.snd).sum

/-- The size of a new block does not overflow with the header, and a block is not moved and keeps
room for its header. -/
def InPlace : Op → Prop
  | .alloc size _ => header ≤ size + header
  | .realloc ptr size a => a = ptr ∧ header ≤ size
  | .free => True

variable {pool : MemPool} {xs : List (ℕ × UInt64)} {a ptr : ℕ} {size : UInt64}

theorem step_alloc : step (some pool) (.alloc size a) =
    if (pool.blocks.lookup a).isSome then none else some (allocTrackedMem pool size a) := rfl

theorem step_realloc : step (some pool) (.realloc ptr size a) =
    if (pool.blocks.lookup ptr).isSome ∧ (a = ptr ∨ ¬ (pool.blocks.lookup a).isSome) then
      some (reallocTrackedMem pool ptr size a) else none := rfl

theorem inv_new : Inv (some newMemPool) :=
  ⟨_, rfl, [], ⟨trivial, List.nodup_nil, fun a => by simp [newMemPool], rfl, rfl⟩, rfl⟩

/-! ## Steps that keep the list -/

theorem alloc_inv (h : Lists pool xs) (hsum : pool.allocated = (xs.map Prod.snd).sum)
    (ha : a ∉ addresses xs)
    (hsize : header ≤ size + header) : ∃ pool', allocTrackedMem pool size a = some pool' ∧
      Lists pool' (xs ++ [(a, size)]) ∧
      pool'.allocated = ((xs ++ [(a, size)]).map Prod.snd).sum := by
  have hnodup : (addresses (xs ++ [(a, size)])).Nodup := by
    rw [addresses_append, List.nodup_append]
    refine ⟨h.nodup, by simp, fun b hb c hc hbc => ha ?_⟩
    rw [addresses_cons, addresses_nil, List.mem_singleton] at hc
    rwa [hbc, hc] at hb
  have hlast : some a = last none (xs ++ [(a, size)]) := by rw [last_append]; rfl
  have hallocated : pool.allocated + size = ((xs ++ [(a, size)]).map Prod.snd).sum := by
    rw [hsum, List.map_append, List.sum_append]
    simp
  unfold allocTrackedMem
  rw [if_neg (UInt64.not_lt.mpr hsize)]
  rcases List.eq_nil_or_concat xs with rfl | ⟨ys, y, rfl⟩
  · have hfirst : pool.first = none := h.first_eq
    rw [hfirst]
    refine ⟨_, rfl, ⟨⟨AList.lookup_insert _, trivial⟩, hnodup, ?_, rfl, rfl⟩, hallocated⟩
    intro b
    rw [isSome_insert, h.live]
    simp
  · rw [List.concat_eq_append] at h ha hnodup hlast hallocated ⊢
    have hlasteq : last none (ys ++ [y]) = some y.1 := by rw [last_append]; rfl
    obtain ⟨b, -, hb⟩ := @first_of_ne_nil _ (ys ++ [y]) (by simp)
    have hfirst : pool.first = some b := h.first_eq.trans (hb none)
    have hseg := h.segment.insert ha ⟨some y.1, none, size⟩
    obtain ⟨blocks, hlink, hchain, hframe, hlive⟩ :=
      @linkNext_segment _ _ (some a) none (ys ++ [y]) hseg h.nodup
    rw [hlasteq] at hlink
    rw [hfirst, h.last_eq, hlasteq]
    simp only [Option.bind_eq_bind, Option.bind_some, hlink]
    refine ⟨_, rfl, ⟨segment_append.mpr ⟨hchain, ?_, trivial⟩, hnodup, ?_, ?_, hlast⟩, hallocated⟩
    · rw [hframe a ha, AList.lookup_insert, hlasteq]
      rfl
    · intro c
      rw [hlive, isSome_insert, h.live, @addresses_append _ (ys ++ [y]), List.mem_append, or_comm]
      simp
    · rw [first_append, hb]

theorem free_inv (h : Lists pool xs) : ∃ pool', freeMemPool pool = some pool' ∧ Lists pool' [] ∧
    pool'.allocated = 0 := by
  obtain ⟨blocks, hfree, hlive⟩ := freeAll_segment h.segment h.nodup (h.segment.length_le h.nodup)
  unfold freeMemPool
  rw [h.first_eq, hfree]
  refine ⟨_, rfl, ⟨trivial, List.nodup_nil, fun a => ?_, rfl, rfl⟩, rfl⟩
  rw [hlive, h.live]
  simp

/-- A block that stays where it is keeps its place in the list. Kind: L -/
theorem realloc_inv (h : Lists pool xs) (hsum : pool.allocated = (xs.map Prod.snd).sum)
    (hptr : ptr ∈ addresses xs) (hsize : header ≤ size) :
    ∃ pool' xs', reallocTrackedMem pool ptr size ptr = some pool' ∧ Lists pool' xs' ∧
      pool'.allocated = (xs'.map Prod.snd).sum := by
  obtain ⟨pre, v, post, rfl⟩ := exists_split hptr
  obtain ⟨hpre, hpost, hxpre, hxpost, hdisjoint⟩ := nodup_split h.nodup
  obtain ⟨hsegpre, hcell, hsegpost⟩ := segment_append.mp h.segment
  have hcell' : pool.blocks.lookup ptr = some ⟨last none pre, first post none, v⟩ := hcell
  have haddresses : addresses (pre ++ (ptr, size) :: post) = addresses
    (pre ++ (ptr, v) :: post) := by
    simp
  have hpre' : Segment ((pool.blocks.erase ptr).insert ptr ⟨last none pre, first post none, size⟩)
    none pre
      (some ptr) := (hsegpre.erase hxpre).insert hxpre _
  have hpost' : Segment ((pool.blocks.erase ptr).insert ptr ⟨last none pre, first post none, size⟩)
      (some ptr) post none := (hsegpost.erase hxpost).insert hxpost _
  obtain ⟨blocks, hlink, hchain, hframe, hlive⟩ :=
    @linkNext_segment _ _ (some ptr) (some ptr) pre hpre' hpre
  refine ⟨⟨blocks, pool.first, pool.last, pool.allocated - v + size⟩,
    pre ++ (ptr, size) :: post, ?_, ?_, ?_⟩
  · unfold reallocTrackedMem
    rw [hcell']
    change (if size < header then none else _) = _
    rw [if_neg (UInt64.not_lt.mpr hsize)]
    simp only [Option.bind_eq_bind, hlink]
    rfl
  · refine ⟨segment_append.mpr ⟨hchain, ?_, ?_⟩, haddresses ▸ h.nodup, fun b => ?_, ?_, ?_⟩
    · rw [hframe ptr hxpre, AList.lookup_insert]
    · exact hpost'.congr fun b hb => hframe b fun hmem => hdisjoint b hmem hb
    · rw [hlive, isSome_insert, isSome_erase, h.live, haddresses]
      constructor
      · rintro (rfl | ⟨-, hmem⟩)
        · exact hptr
        · exact hmem
      · intro hmem
        by_cases hb : b = ptr
        · exact Or.inl hb
        · exact Or.inr ⟨hb, hmem⟩
    · exact h.first_eq.trans (by rw [first_append, first_append]; rfl)
    · exact h.last_eq.trans (by rw [last_append, last_append]; rfl)
  · rw [hsum]
    simp only [List.map_append, List.map_cons, List.sum_append, List.sum_cons]
    grind

/-! ## Steps that break the list -/

theorem live_of_first (h : Lists pool xs)
    (ha : pool.first = some a) : (pool.blocks.lookup a).isSome = true := by
  rw [h.live]
  rw [h.first_eq] at ha
  cases xs with
  | nil => exact absurd ha (Option.some_ne_none a).symm
  | cons x xs =>
      rw [← Option.some.inj ha]
      exact List.mem_cons_self

theorem live_of_last (h : Lists pool xs)
    (ha : pool.last = some a) : (pool.blocks.lookup a).isSome = true := by
  rw [h.live]
  rw [h.last_eq] at ha
  obtain ⟨b, hb, hlast⟩ := @last_of_ne_nil _ xs (by
    rintro rfl
    exact absurd ha (Option.some_ne_none a).symm)
  rw [hlast none] at ha
  rwa [← Option.some.inj ha]

/-- What a live block is linked back to is live. Kind: L -/
theorem live_of_prev (h : Lists pool xs) {b : ℕ} {item : TrackedMemoryItem}
    (hb : pool.blocks.lookup b = some item) (ha : item.prev = some a) :
    (pool.blocks.lookup a).isSome = true := by
  have hmem : b ∈ addresses xs := by
    rw [← h.live, hb]
    rfl
  obtain ⟨pre, v, post, rfl⟩ := exists_split hmem
  obtain ⟨-, hcell, -⟩ := segment_append.mp h.segment
  obtain rfl : item = ⟨last none pre, first post none, v⟩ := Option.some.inj (hb.symm.trans hcell)
  change last none pre = some a at ha
  obtain ⟨c, hc, hlast⟩ := @last_of_ne_nil _ pre (by
    rintro rfl
    exact absurd ha (Option.some_ne_none a).symm)
  rw [hlast none] at ha
  rw [h.live, ← Option.some.inj ha, addresses_append]
  exact List.mem_append_left _ hc

/-- **A block that is moved leaves a link to where it was**: from the pool, if it is the first or
the last one, and otherwise from the block behind it. Kind: L -/
theorem realloc_moved (h : Lists pool xs) (hptr : ptr ∈ addresses xs) (ha : a ∉ addresses xs) :
    ¬ Right (reallocTrackedMem pool ptr size a) := by
  obtain ⟨pre, v, post, rfl⟩ := exists_split hptr
  obtain ⟨hpre, hpost, hxpre, hxpost, hdisjoint⟩ := nodup_split h.nodup
  obtain ⟨hsegpre, hcell, hsegpost⟩ := segment_append.mp h.segment
  have hcell' : pool.blocks.lookup ptr = some ⟨last none pre, first post none, v⟩ := hcell
  have hne : a ≠ ptr := fun heq => ha (heq ▸ hptr)
  have hapre : a ∉ addresses pre :=
    fun hmem => ha (by rw [addresses_append]; exact List.mem_append_left _ hmem)
  rintro ⟨pool', hpool', ys, hlists⟩
  unfold reallocTrackedMem at hpool'
  rw [hcell'] at hpool'
  change (if size < header then none else _) = _ at hpool'
  split_ifs at hpool' with hsize
  obtain ⟨blocks, hlink, hpool'⟩ := Option.bind_eq_some_iff.mp hpool'
  have hfirst : pool'.first = pool.first := by rw [← Option.some.inj hpool']
  have hlast : pool'.last = pool.last := by rw [← Option.some.inj hpool']
  have hblocks : pool'.blocks = blocks := by rw [← Option.some.inj hpool']
  have hpre' : Segment ((pool.blocks.erase ptr).insert a ⟨last none pre, first post none, size⟩)
    none pre
      (some ptr) := (hsegpre.erase hxpre).insert hapre _
  obtain ⟨blocks', hlink', -, hframe, hlive⟩ :=
    @linkNext_segment _ _ (some a) (some ptr) pre hpre' hpre
  obtain rfl := Option.some.inj (hlink.symm.trans hlink')
  -- the address that is left is not live any more
  have hdead : ¬ (pool'.blocks.lookup ptr).isSome = true := by
    rw [hblocks, hlive, isSome_insert, isSome_erase]
    rintro (heq | ⟨hself, -⟩)
    · exact hne heq.symm
    · exact hself rfl
  cases pre with
  | nil => exact hdead (live_of_first hlists (hfirst.trans h.first_eq))
  | cons p pre =>
      cases post with
      | nil =>
          apply hdead
          apply live_of_last hlists
          rw [hlast, h.last_eq, last_append]
          rfl
      | cons b post =>
          have hb : pool'.blocks.lookup b.1 = some ⟨some ptr, first post none, b.2⟩ := by
            have hbpre : b.1 ∉ addresses (p :: pre) :=
              fun hmem => hdisjoint b.1 hmem List.mem_cons_self
            have hba : b.1 ≠ a := by
              rintro rfl
              refine ha ?_
              rw [addresses_append]
              exact List.mem_append_right _ (List.mem_cons_of_mem _ List.mem_cons_self)
            have hbptr : b.1 ≠ ptr := by
              rintro rfl
              exact hxpost List.mem_cons_self
            rw [hblocks, hframe b.1 hbpre, AList.lookup_insert_ne hba, AList.lookup_erase_ne hbptr]
            exact hsegpost.1
          exact hdead (live_of_prev hlists hb rfl)

/-! ## Runs -/

/-- **A step in place keeps the invariant.** Kind: L -/
theorem step_inv (s : Option MemPool) (op : Op) (s' : Option MemPool) (hinv : Inv s)
    (hop : InPlace op)
    (hstep : step s op = some s') : Inv s' := by
  obtain ⟨pool, rfl, xs, h, hsum⟩ := hinv
  cases op with
  | alloc size a =>
      rw [step_alloc] at hstep
      split_ifs at hstep with hfree
      rw [h.live] at hfree
      obtain ⟨pool', hpool', hlists, hallocated⟩ := alloc_inv h hsum hfree hop
      exact ⟨pool', (Option.some.inj hstep).symm.trans hpool', _, hlists, hallocated⟩
  | realloc ptr size a =>
      obtain ⟨rfl, hsize⟩ := hop
      rw [step_realloc] at hstep
      split_ifs at hstep with hlive
      rw [h.live] at hlive
      obtain ⟨pool', xs', hpool', hlists, hallocated⟩ := realloc_inv h hsum hlive.1 hsize
      exact ⟨pool', (Option.some.inj hstep).symm.trans hpool', xs', hlists, hallocated⟩
  | free =>
      obtain ⟨pool', hpool', hlists, hallocated⟩ := free_inv h
      exact ⟨pool', (Option.some.inj hstep).symm.trans hpool', [], hlists, hallocated⟩

/-- **Any other step breaks the list.** Kind: L -/
theorem step_breaks (s : Option MemPool) (op : Op) (s' : Option MemPool) (hinv : Inv s)
    (hop : ¬ InPlace op)
    (hstep : step s op = some s') : ¬ Right s' := by
  obtain ⟨pool, rfl, xs, h, -⟩ := hinv
  cases op with
  | alloc size a =>
      rw [step_alloc] at hstep
      split_ifs at hstep with hfree
      have hnone : allocTrackedMem pool size a = none := if_pos (UInt64.not_le.mp hop)
      rw [← Option.some.inj hstep, hnone]
      rintro ⟨pool', hpool', -⟩
      exact absurd hpool' (Option.some_ne_none pool').symm
  | realloc ptr size a =>
      rw [step_realloc] at hstep
      split_ifs at hstep with hlive
      obtain ⟨hptr, haddress⟩ := hlive
      rw [h.live] at hptr haddress
      rw [← Option.some.inj hstep]
      rcases haddress with rfl | ha
      · have hsize : size < header := by
          rw [← UInt64.not_le]
          exact fun hle => hop ⟨rfl, hle⟩
        obtain ⟨item, hitem⟩ := Option.isSome_iff_exists.mp ((h.live a).mpr hptr)
        have hnone : reallocTrackedMem pool a size a = none := by
          unfold reallocTrackedMem
          rw [hitem]
          exact if_pos hsize
        rw [hnone]
        rintro ⟨pool', hpool', -⟩
        exact absurd hpool' (Option.some_ne_none pool').symm
      · exact realloc_moved h hptr ha
  | free => exact absurd trivial hop

/-- **Every state of a run is right if and only if no block is moved**, and every block has room for
its header: the list holds the live blocks, each once, and freeing the pool frees each of them once.
Kind: P -/
theorem tracked_runs_iff (ops : List Op) :
    (∀ pre s, pre <+: ops → run step (some newMemPool) pre = some s → Right s) ↔
      AllMeet step (fun _ op => InPlace op) (some newMemPool) ops :=
  run_property_iff (fun s h => by
    obtain ⟨pool, rfl, xs, hlists, -⟩ := h
    exact ⟨pool, rfl, xs, hlists⟩) step_inv step_breaks ops (some newMemPool) inv_new

/-- The first of two blocks is moved, and the pool still begins at its old address: freeing the pool
follows a freed block. Kind: P -/
theorem moved_first : run step (some newMemPool) [.alloc 8 1, .alloc 8 2, .realloc 1 32 3, .free] =
    some none ∧ ¬ Right none := by
  refine ⟨by decide, ?_⟩
  rintro ⟨pool, hpool, -⟩
  exact absurd hpool (Option.some_ne_none pool).symm

end CxyCompiler.Core.TrackedMem
