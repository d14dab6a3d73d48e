import CxyCompiler.Lib.Links
import CxyCompiler.Lib.Runs

/-!
# The stacks of coroutines (`stdlib/coro.cxy`)

A coroutine is kept at the top of its stack, so there is one for each stack in use. The scheduler
caches the stacks of finished coroutines in a list that is threaded through the first words of the
stacks. A stack is named by its base; the system may map a new one at any base that is not mapped.

* `push`, `pop` — the list of `list.cxy`.
* `allocStack`, `freeStack`, `step` — a coroutine starts (`prologue`) or finishes (`epilogue`).
* `Accounted` — **each mapped stack is in use by one coroutine or in the cache once**, and no other
  is.
* `Inv`, `step_inv` — the invariant, which a step keeps where the cache is not full.
* `finish_full` — a coroutine that finishes where the cache is full leaves a stack behind.
* `accounted_iff` — **the exact runs whose stacks are all accounted for**; `stack_leaked` is one
  that is not.
-/

namespace CxyCompiler.Stdlib.CoroutineStacks

open CxyCompiler.Lib.Links CxyCompiler.Lib.Runs Function

/-! ## The cache -/

/-- Source: `list.cxy` `List`. -/
structure Queue where
  head : Option ℕ
  tail : Option ℕ
  count : ℕ

/-- Source: `coro.cxy` `MAX_CACHED_STACKS`. -/
def MAX_CACHED_STACKS : ℕ := 32

/-- The list `stacks` of the scheduler, the first word of each stack, the stacks that are mapped and
those of the coroutines that have not finished. Source: `coro.cxy` `CoroutineScheduler`. -/
structure Scheduler where
  cachedStacks : Queue
  link : ℕ → Option ℕ
  mapped : List ℕ
  live : List ℕ

def init : Scheduler :=
  { cachedStacks := { head := none, tail := none, count := 0 }
    link := fun _ => none
    mapped := []
    live := [] }

/-- An item with a link fails the assertion. Source: `list.cxy` `List.push`. -/
def push (s : Scheduler) (item : ℕ) : Option Scheduler :=
  if (s.link item).isSome then none
  else
    match s.cachedStacks.head with
    | none =>
        some { s with
          cachedStacks :=
            { head := some item, tail := some item, count := s.cachedStacks.count + 1 } }
    | some _ => s.cachedStacks.tail.map fun tail =>
        { s with
          link := update s.link tail (some item)
          cachedStacks :=
            { s.cachedStacks with tail := some item, count := s.cachedStacks.count + 1 } }

/-- Source: `list.cxy` `List.pop`. -/
def pop (s : Scheduler) : Option ℕ × Scheduler :=
  match s.cachedStacks.head with
  | none => (none, s)
  | some item =>
      (some item, { s with
        link := update s.link item none
        cachedStacks := {
          head := s.link item
          tail := if (s.link item).isNone then none else s.cachedStacks.tail
          count := s.cachedStacks.count - 1 } })

/-! ## Coroutines -/

/-- A new mapping is zeroed, and is not put over one that is there. -/
def mmap (s : Scheduler) (base : ℕ) : Option Scheduler :=
  if base ∈ s.mapped then none
  else some { s with mapped := base :: s.mapped, link := update s.link base none }

/-- The system puts a new stack at `base`, if it is asked for one. Source: `coro.cxy`
`allocStack`. -/
def allocStack (s : Scheduler) (base : ℕ) : Option (ℕ × Scheduler) :=
  match pop s with
  | (some stack, s) => some (stack, s)
  | (none, s) => (mmap s base).map fun s => (base, s)

/-- Source: `coro.cxy` `freeStack`. -/
def freeStack (s : Scheduler) (base : ℕ) : Option Scheduler :=
  if MAX_CACHED_STACKS ≤ s.cachedStacks.count then
    match pop s with
    | (some stack, s) => some { s with mapped := s.mapped.erase stack }
    | (none, s) => some s
  else push s base

/-- A coroutine starts, or the one on `stack` finishes and leaves `word` at the base of it. -/
inductive Op where
  | start (base : ℕ)
  | finish (stack : ℕ) (word : Option ℕ)

/-- Source: `coro.cxy` `prologue`, `epilogue`. -/
def step (s : Scheduler) : Op → Option Scheduler
  | .start base => (allocStack s base).map fun r => { r.2 with live := r.1 :: r.2.live }
  | .finish stack word =>
      if stack ∈ s.live then
        freeStack { s with live := s.live.erase stack, link := update s.link stack word } stack
      else none

/-- **Each mapped stack is in use by one coroutine or in the cache once**, not both, and no other
is. -/
def Accounted (s : Scheduler) : Prop :=
  ∃ cache, Chain s.link s.cachedStacks.head cache ∧ ∀ a,
    (a ∈ s.mapped ∧ (s.live.count a = 1 ∧ cache.count a = 0 ∨
      s.live.count a = 0 ∧ cache.count a = 1)) ∨
      (a ∉ s.mapped ∧ s.live.count a = 0 ∧ cache.count a = 0)

/-- A coroutine does not finish where the cache is full. -/
def Spare (s : Scheduler) : Op → Prop
  | .start _ => True
  | .finish _ _ => s.cachedStacks.count < MAX_CACHED_STACKS

/-! ## The invariant -/

/-- The cache is a list of stacks. -/
structure Threads (s : Scheduler) (cache : List ℕ) : Prop where
  chain : Chain s.link s.cachedStacks.head cache
  tail : s.cachedStacks.tail = cache.getLast?
  count : s.cachedStacks.count = cache.length

/-- **The mapped stacks are those in use and those in the cache, each once.** -/
structure Inv (s : Scheduler) : Prop where
  cache : ∃ cache, Threads s cache ∧ (s.live ++ cache).Nodup ∧ List.Perm s.mapped (s.live ++ cache)

variable {s s' : Scheduler} {cache : List ℕ} {a : ℕ}

theorem init_inv : Inv init := ⟨[], ⟨rfl, rfl, rfl⟩, List.nodup_nil, List.Perm.refl _⟩

/-- What is mapped once, in use or in the cache, is accounted for. Kind: L -/
theorem Inv.accounted (h : Inv s) : Accounted s := by
  obtain ⟨cache, hthreads, hnodup, hperm⟩ := h.cache
  refine ⟨cache, hthreads.chain, fun a => ?_⟩
  obtain ⟨hlive, hcache, hdisjoint⟩ := List.nodup_append.mp hnodup
  by_cases ha : a ∈ s.mapped
  · refine Or.inl ⟨ha, ?_⟩
    rcases List.mem_append.mp (hperm.mem_iff.mp ha) with hal | hac
    · left
      refine ⟨List.count_eq_one_of_mem hlive hal, List.count_eq_zero_of_not_mem fun hac => ?_⟩
      exact hdisjoint a hal a hac rfl
    · right
      refine ⟨List.count_eq_zero_of_not_mem fun hal => ?_, List.count_eq_one_of_mem hcache hac⟩
      exact hdisjoint a hal a hac rfl
  · have hno := fun hmem => ha (hperm.mem_iff.mpr hmem)
    refine Or.inr ⟨ha, List.count_eq_zero_of_not_mem ?_, List.count_eq_zero_of_not_mem ?_⟩
    · exact fun hal => hno (List.mem_append_left _ hal)
    · exact fun hac => hno (List.mem_append_right _ hac)

/-- An item that is pushed is the last one. Kind: L -/
theorem push_spec (h : Threads s cache) (hnew : a ∉ cache) (hnodup : cache.Nodup)
    (hpush : push s a = some s') :
    Threads s' (cache ++ [a]) ∧ s'.live = s.live ∧ s'.mapped = s.mapped := by
  unfold push at hpush
  split_ifs at hpush with hlink
  have hend : s.link a = none := by simpa using hlink
  rcases List.eq_nil_or_concat cache with rfl | ⟨init, last, rfl⟩
  · have hhead : s.cachedStacks.head = none := h.chain
    rw [hhead] at hpush
    obtain rfl := Option.some.inj hpush
    refine ⟨⟨⟨rfl, hend⟩, rfl, ?_⟩, rfl, rfl⟩
    simp [h.count]
  · rw [List.concat_eq_append] at *
    have htail : s.cachedStacks.tail = some last := by
      rw [h.tail]
      simp
    obtain ⟨item, hhead⟩ : ∃ item, s.cachedStacks.head = some item := by
      rcases init with _ | ⟨x, init⟩
      · exact ⟨last, h.chain.1⟩
      · exact ⟨x, h.chain.1⟩
    rw [hhead, htail] at hpush
    obtain rfl := Option.some.inj hpush
    refine ⟨⟨?_, ?_, ?_⟩, rfl, rfl⟩
    · have hlast : last ∉ init := fun hmem =>
        (List.nodup_append.mp hnodup).2.2 last hmem last (List.mem_singleton_self last) rfl
      rw [List.append_assoc]
      exact h.chain.snoc hlast hnew hend
    · simp
    · simp [h.count]

theorem pop_nil (h : Threads s []) : pop s = (none, s) := by
  have hhead : s.cachedStacks.head = none := h.chain
  rw [pop, hhead]

/-- The item that is popped is the first one. Kind: L -/
theorem pop_cons (h : Threads s (a :: cache)) (hnodup : (a :: cache).Nodup) :
    ∃ s', pop s = (some a, s') ∧ Threads s' cache ∧ s'.live = s.live ∧ s'.mapped = s.mapped := by
  obtain ⟨hhead, hchain⟩ := h.chain
  rw [pop, hhead]
  refine ⟨_, rfl, ⟨hchain.update (List.nodup_cons.mp hnodup).1 none, ?_, ?_⟩, rfl, rfl⟩
  · dsimp only
    rcases cache with _ | ⟨b, cache⟩
    · have hlink : s.link a = none := hchain
      rw [hlink]
      rfl
    · rw [hchain.1, h.tail]
      simp
  · dsimp only
    rw [h.count, List.length_cons, Nat.add_sub_cancel]

/-- A coroutine that starts takes the oldest stack of the cache, or a new one. Kind: L -/
theorem start_inv {base : ℕ} (h : Inv s) (hstep : step s (.start base) = some s') : Inv s' := by
  obtain ⟨cache, hthreads, hnodup, hperm⟩ := h.cache
  obtain ⟨⟨stack, s₁⟩, halloc, rfl⟩ := Option.map_eq_some_iff.mp hstep
  unfold allocStack at halloc
  rcases cache with _ | ⟨a, cache⟩
  · rw [pop_nil hthreads] at halloc
    obtain ⟨s₂, hmap, hpair⟩ := Option.map_eq_some_iff.mp halloc
    obtain ⟨rfl, rfl⟩ := Prod.mk.inj hpair
    unfold mmap at hmap
    split_ifs at hmap with hmem
    obtain rfl := Option.some.inj hmap
    rw [List.append_nil] at hnodup hperm
    refine ⟨[], ⟨hthreads.chain, hthreads.tail, hthreads.count⟩, ?_, ?_⟩
    · rw [List.append_nil]
      exact List.nodup_cons.mpr ⟨fun hlive => hmem (hperm.mem_iff.mpr hlive), hnodup⟩
    · rw [List.append_nil]
      exact hperm.cons base
  · obtain ⟨s₂, hpop, hthreads₂, hlive, hmapped⟩ :=
      pop_cons hthreads (List.nodup_append.mp hnodup).2.1
    rw [hpop] at halloc
    obtain ⟨rfl, rfl⟩ := Prod.mk.inj (Option.some.inj halloc)
    refine ⟨cache, ⟨hthreads₂.chain, hthreads₂.tail, hthreads₂.count⟩, ?_, ?_⟩
    · show (a :: s₂.live ++ cache).Nodup
      rw [hlive]
      exact List.perm_middle.nodup_iff.mp hnodup
    · show List.Perm s₂.mapped (a :: s₂.live ++ cache)
      rw [hlive, hmapped]
      exact hperm.trans List.perm_middle

/-- A stack that is in use is not in the cache. Kind: L -/
theorem live_not_cached (hnodup : (s.live ++ cache).Nodup) {stack : ℕ} (hlive : stack ∈ s.live) :
    stack ∉ cache :=
  fun hmem => (List.nodup_append.mp hnodup).2.2 stack hlive stack hmem rfl

/-- The cache while a coroutine finishes. Kind: L -/
theorem Threads.finish (h : Threads s cache) {stack : ℕ} (hnew : stack ∉ cache) (word : Option ℕ) :
    Threads { s with live := s.live.erase stack, link := update s.link stack word } cache :=
  ⟨h.chain.update hnew word, h.tail, h.count⟩

/-- A coroutine that finishes has its stack cached, where there is room. Kind: L -/
theorem finish_inv {stack : ℕ} {word : Option ℕ} (h : Inv s)
    (hroom : s.cachedStacks.count < MAX_CACHED_STACKS)
      (hstep : step s (.finish stack word) = some s') : Inv s' := by
  obtain ⟨cache, hthreads, hnodup, hperm⟩ := h.cache
  unfold step at hstep
  dsimp only at hstep
  split_ifs at hstep with hmem
  have hnew := live_not_cached hnodup hmem
  rw [freeStack, if_neg (by dsimp only; omega)] at hstep
  obtain ⟨hthreads', hlive, hmapped⟩ :=
    push_spec (hthreads.finish hnew word) hnew (List.nodup_append.mp hnodup).2.1 hstep
  have hmoved : List.Perm (s.live ++ cache) (s'.live ++ (cache ++ [stack])) := by
    rw [hlive]
    refine ((List.perm_cons_erase hmem).append_right cache).trans ?_
    rw [← List.append_assoc]
    exact (List.perm_append_singleton stack _).symm
  refine ⟨cache ++ [stack], hthreads', hmoved.nodup_iff.mp hnodup, ?_⟩
  rw [hmapped]
  exact hperm.trans hmoved

/-- **A step keeps the invariant**, unless a coroutine finishes where the cache is full. Kind: P -/
theorem step_inv (s : Scheduler) (op : Op) (s' : Scheduler) (h : Inv s) (hspare : Spare s op)
    (hstep : step s op = some s') : Inv s' := by
  cases op with
  | start base => exact start_inv h hstep
  | finish stack word => exact finish_inv h hspare hstep

/-- **A coroutine that finishes where the cache is full leaves its stack behind**: it is mapped, not
in use and not in the cache. Kind: P -/
theorem finish_full (s : Scheduler) (op : Op) (s' : Scheduler) (h : Inv s) (hspare : ¬ Spare s op)
    (hstep : step s op = some s') : ¬ Accounted s' := by
  cases op with
  | start base => exact absurd trivial hspare
  | finish stack word =>
      obtain ⟨cache, hthreads, hnodup, hperm⟩ := h.cache
      have hfull : MAX_CACHED_STACKS ≤ s.cachedStacks.count := Nat.le_of_not_lt hspare
      unfold step at hstep
      dsimp only at hstep
      split_ifs at hstep with hmem
      have hnew := live_not_cached hnodup hmem
      rw [freeStack, if_pos hfull] at hstep
      obtain ⟨hlive, hcache, -⟩ := List.nodup_append.mp hnodup
      rcases cache with _ | ⟨a, cache⟩
      · rw [hthreads.count] at hfull
        exact absurd hfull (by decide)
      · obtain ⟨s₂, hpop, hthreads₂, hlive₂, hmapped₂⟩ :=
          pop_cons (hthreads.finish hnew word) hcache
        rw [hpop] at hstep
        obtain rfl := Option.some.inj hstep
        obtain ⟨hne, hnot⟩ := List.ne_and_not_mem_of_not_mem_cons hnew
        rintro ⟨cache', hchain, hall⟩
        obtain rfl := chain_unique hchain hthreads₂.chain
        have hmapped : stack ∈ s₂.mapped.erase a := by
          rw [hmapped₂, List.mem_erase_of_ne hne]
          exact hperm.mem_iff.mpr (List.mem_append_left _ hmem)
        have hgone : s₂.live.count stack = 0 := by
          rw [hlive₂]
          exact List.count_eq_zero_of_not_mem hlive.not_mem_erase
        have hout : cache'.count stack = 0 := List.count_eq_zero_of_not_mem hnot
        rcases hall stack with ⟨-, ⟨huse, -⟩ | ⟨-, hin⟩⟩ | ⟨hno, -⟩
        · dsimp only at huse
          omega
        · omega
        · exact hno hmapped

/-- **All stacks are accounted for in every state of a run exactly where no coroutine finishes while
the cache is full.** Kind: P -/
theorem accounted_iff (ops : List Op) :
    (∀ pre s, pre <+: ops → run step init pre = some s → Accounted s) ↔
      AllMeet step Spare init ops :=
  run_property_iff (fun _ h => h.accounted) step_inv finish_full ops init init_inv

/-- 33 coroutines start and finish. The cache takes the stacks of the first 32; the last one to
finish has the oldest of them unmapped, and leaves its own behind. Kind: L -/
theorem stack_leaked :
    ∃ s, run step init ((List.range 33).map Op.start ++ (List.range 33).map
      (Op.finish · none)) = some s ∧
      32 ∈ s.mapped ∧ s.live = [] ∧
        Chain s.link s.cachedStacks.head (List.range' 1 31) ∧ ¬ Accounted s := by
  have hrun : ((run step init
      ((List.range 33).map Op.start ++ (List.range 33).map (Op.finish · none))).map fun s =>
        (decide (32 ∈ s.mapped), s.live,
          decide (Chain s.link s.cachedStacks.head (List.range' 1 31)))) =
      some (true, [], true) := by decide +kernel
  obtain ⟨s, hs, hobs⟩ := Option.map_eq_some_iff.mp hrun
  simp only [Prod.mk.injEq, decide_eq_true_eq] at hobs
  obtain ⟨hmapped, hlive, hchain⟩ := hobs
  refine ⟨s, hs, hmapped, hlive, hchain, ?_⟩
  rintro ⟨cache, hcache, hall⟩
  obtain rfl := chain_unique hcache hchain
  rcases hall 32 with ⟨-, ⟨huse, -⟩ | ⟨-, hin⟩⟩ | ⟨hno, -⟩
  · rw [hlive] at huse
    cases huse
  · revert hin
    decide
  · exact hno hmapped

end CxyCompiler.Stdlib.CoroutineStacks
