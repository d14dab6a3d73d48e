import Mathlib.Algebra.Ring.Int.Defs
import Mathlib.Algebra.Order.Ring.Nat
import CxyCompiler.Lib.Runs
import Mathlib.Data.Int.Notation
import Mathlib.Logic.Function.Basic

/-!
# The semaphore of the coroutines

`Semaphore` (`stdlib/coro.cxy`) counts permits in an atomic number of 32 bits. Each atomic operation
and each section under `_osMutex` is one step here, and so is each resumption.

* `step` — one step of one coroutine.
* `Inv` — who waits is in one place.
* `Counts` — the steps that keep the count: the decrement of `acquire` finds a permit, and the
  increment of `release` does not wrap around.
* `Kept` — the steps that leave no waiter behind while there are permits.
* `semaphore_run` — **the count is never negative exactly where each step `Counts`, and no waiter is
  left behind where each step is also `Kept`**. `two_acquirers` is a run where one does not.
-/

namespace CxyCompiler.Stdlib

open CxyCompiler.Lib.Runs Function

namespace Semaphore

/-- Where a coroutine is: outside of all operations, behind the test of `acquire` that found no
permit, in `_waiters` or to be resumed, resumed, behind the test that found a permit, behind the
load of `tryAcquire`, behind the increment of `release`, and in `release` with a waiter to
resume. -/
inductive Pc (ι : Type) where
  | idle
  | mustWait
  | waiting
  | woken
  | mayTake
  | trying (current : ℤ)
  | releasing
  | waking (w : ι)
  deriving DecidableEq

end Semaphore

/-- The semaphore, where each coroutine is, and how many acquisitions and releases were made.
Source: `coro.cxy` `Semaphore` -/
structure Semaphore (ι : Type) where
  count : ℤ
  waiters : List ι
  pc : ι → Semaphore.Pc ι
  acquired : ℕ
  released : ℕ

namespace Semaphore

variable {ι : Type} [DecidableEq ι]

/-- The steps of `acquire`, `tryAcquire` and `release`. -/
inductive Op where
  | test
  | enqueue
  | take
  | load
  | swap
  | release
  | pop
  | resume
  deriving DecidableEq

/-- A number of 32 bits wraps around. -/
def wrap (x : ℤ) : ℤ := x.bmod (2 ^ 32)

/-- The test of the loop of `acquire`. -/
def test (s : Semaphore ι) (c : ι) : Semaphore ι :=
  { s with pc := update s.pc c (if s.count ≤ 0 then .mustWait else .mayTake) }

/-- One step of the coroutine `c`.
Source: `coro.cxy` `Semaphore.acquire`, `Semaphore.tryAcquire`, `Semaphore.release` -/
def step (s : Semaphore ι) (e : ι × Op) : Option (Semaphore ι) :=
  match e.2, s.pc e.1 with
  | .test, .idle => some (test s e.1)
  | .test, .woken => some (test s e.1)
  | .enqueue, .mustWait =>
      some { s with waiters := s.waiters ++ [e.1], pc := update s.pc e.1 .waiting }
  | .take, .mayTake =>
      some { s with
        count := wrap (s.count - 1)
        pc := update s.pc e.1 .idle
        acquired := s.acquired + 1 }
  | .load, .idle =>
      if s.count ≤ 0 then some s else some { s with pc := update s.pc e.1 (.trying s.count) }
  | .swap, .trying current =>
      if s.count = current then
        some { s with
          count := wrap (current - 1)
          pc := update s.pc e.1 .idle
          acquired := s.acquired + 1 }
      else some { s with pc := update s.pc e.1 .idle }
  | .release, .idle =>
      some { s with
        count := wrap (s.count + 1)
        pc := update s.pc e.1 .releasing
        released := s.released + 1 }
  | .pop, .releasing =>
      match s.waiters with
      | [] => some { s with pc := update s.pc e.1 .idle }
      | w :: ws => some { s with waiters := ws, pc := update s.pc e.1 (.waking w) }
  | .resume, .waking w => some { s with pc := update (update s.pc e.1 .idle) w .woken }
  | _, _ => none

/-- Source: `coro.cxy` `Semaphore.init`. -/
def init (initial : Int32) : Semaphore ι :=
  { count := initial.toInt, waiters := [], pc := fun _ => .idle, acquired := 0, released := 0 }

/-- Who waits is in one place, and a count that was loaded by `tryAcquire` is positive. -/
structure Inv (s : Semaphore ι) : Prop where
  waiting : ∀ c ∈ s.waiters, s.pc c = .waiting
  nodup : s.waiters.Nodup
  waking : ∀ c w, s.pc c = .waking w → s.pc w = .waiting ∧ w ∉ s.waiters
  apart : ∀ c d w, s.pc c = .waking w → s.pc d = .waking w → c = d
  trying : ∀ c n, s.pc c = .trying n → 0 < n

theorem step_cases {s s' : Semaphore ι} {c : ι} {op : Op} (h : step s (c, op) = some s') :
    (op = .test ∧ (s.pc c = .idle ∨ s.pc c = .woken) ∧ s' = test s c) ∨
    (op = .enqueue ∧ s.pc c = .mustWait ∧
      s' = { s with waiters := s.waiters ++ [c], pc := update s.pc c .waiting }) ∨
    (op = .take ∧ s.pc c = .mayTake ∧
      s' = { s with
        count := wrap (s.count - 1)
        pc := update s.pc c .idle
        acquired := s.acquired + 1 }) ∨
    (op = .load ∧ s' = s) ∨
    (op = .load ∧ s.pc c = .idle ∧ 0 < s.count ∧
      s' = { s with pc := update s.pc c (.trying s.count) }) ∨
    (op = .swap ∧ s.pc c = .trying s.count ∧
      s' = { s with
        count := wrap (s.count - 1)
        pc := update s.pc c .idle
        acquired := s.acquired + 1 }) ∨
    (op = .swap ∧ (∃ n, s.pc c = .trying n) ∧ s' = { s with pc := update s.pc c .idle }) ∨
    (op = .release ∧ s.pc c = .idle ∧
      s' = { s with
        count := wrap (s.count + 1)
        pc := update s.pc c .releasing
        released := s.released + 1 }) ∨
    (op = .pop ∧ s.pc c = .releasing ∧ s.waiters = [] ∧
      s' = { s with pc := update s.pc c .idle }) ∨
    (op = .pop ∧ s.pc c = .releasing ∧ ∃ w ws, s.waiters = w :: ws ∧
      s' = { s with waiters := ws, pc := update s.pc c (.waking w) }) ∨
    (op = .resume ∧ ∃ w, s.pc c = .waking w ∧
      s' = { s with pc := update (update s.pc c .idle) w .woken }) := by
  unfold step at h
  cases op <;> cases hpc : s.pc c <;> simp only [hpc, reduceCtorEq] at h
  · exact Or.inl ⟨rfl, Or.inl rfl, (Option.some.inj h).symm⟩
  · exact Or.inl ⟨rfl, Or.inr rfl, (Option.some.inj h).symm⟩
  · exact Or.inr (Or.inl ⟨rfl, rfl, (Option.some.inj h).symm⟩)
  · exact Or.inr (Or.inr (Or.inl ⟨rfl, rfl, (Option.some.inj h).symm⟩))
  · right; right; right
    split_ifs at h with hzero
    · exact Or.inl ⟨rfl, (Option.some.inj h).symm⟩
    · exact Or.inr (Or.inl ⟨rfl, rfl, by omega, (Option.some.inj h).symm⟩)
  · right; right; right; right; right
    split_ifs at h with heq
    · subst heq
      exact Or.inl ⟨rfl, rfl, (Option.some.inj h).symm⟩
    · exact Or.inr (Or.inl ⟨rfl, ⟨_, rfl⟩, (Option.some.inj h).symm⟩)
  · right; right; right; right; right; right; right
    exact Or.inl ⟨rfl, rfl, (Option.some.inj h).symm⟩
  · right; right; right; right; right; right; right; right
    cases hw : s.waiters with
    | nil =>
        rw [hw] at h
        exact Or.inl ⟨rfl, rfl, rfl, (Option.some.inj h).symm⟩
    | cons w ws =>
        rw [hw] at h
        exact Or.inr (Or.inl ⟨rfl, rfl, w, ws, rfl, (Option.some.inj h).symm⟩)
  · right; right; right; right; right; right; right; right; right; right
    exact ⟨rfl, _, rfl, (Option.some.inj h).symm⟩

/-- **Each step keeps the invariant.** Kind: P -/
theorem step_inv {s s' : Semaphore ι} {c : ι} {op : Op} (hinv : Inv s)
    (h : step s (c, op) = some s') : Inv s' := by
  obtain ⟨hw, hn, hk, ha, ht⟩ := hinv
  rcases step_cases h with ⟨-, hc, rfl⟩ | ⟨-, hc, rfl⟩ | ⟨-, hc, rfl⟩ | ⟨-, rfl⟩ |
    ⟨-, hc, hpos, rfl⟩ | ⟨-, hc, rfl⟩ | ⟨-, ⟨n, hc⟩, rfl⟩ | ⟨-, hc, rfl⟩ | ⟨-, hc, -, rfl⟩ |
    ⟨-, hc, w, ws, hcons, rfl⟩ | ⟨-, w, hc, rfl⟩
  · constructor <;> simp only [test, update_apply] <;> grind
  · constructor <;> simp only [update_apply] <;> grind
  · constructor <;> simp only [update_apply] <;> grind
  · exact ⟨hw, hn, hk, ha, ht⟩
  · constructor <;> simp only [update_apply] <;> grind
  · constructor <;> simp only [update_apply] <;> grind
  · constructor <;> simp only [update_apply] <;> grind
  · constructor <;> simp only [update_apply] <;> grind
  · constructor <;> simp only [update_apply] <;> grind
  · constructor <;> simp only [update_apply] <;> grind
  · constructor <;> simp only [update_apply] <;> grind

/-! ## The count -/

/-- The decrement of `acquire` finds a permit, and the increment of `release` does not wrap
around. -/
def Counts (s : Semaphore ι) (e : ι × Op) : Prop :=
  (e.2 = .take → 0 < s.count) ∧ (e.2 = .release → s.count + 1 < 2 ^ 31)

/-- The count is not negative, and no more permits were acquired than there were. -/
def Bounded (initial : Int32) (s : Semaphore ι) : Prop :=
  0 ≤ s.count ∧ (s.acquired : ℤ) - s.released ≤ initial.toInt

/-- **The invariant of the count.** -/
structure Counted (initial : Int32) (s : Semaphore ι) : Prop where
  inv : Inv s
  nonneg : 0 ≤ s.count
  lt : s.count < 2 ^ 31
  balance : s.count = initial.toInt + s.released - s.acquired

theorem wrap_of_mem {x : ℤ} (h0 : 0 ≤ x) (h1 : x < 2 ^ 31) : wrap x = x := by
  unfold wrap
  rw [Int.bmod_def]
  split <;> omega

omit [DecidableEq ι] in
theorem Counted.bounded {initial : Int32} {s : Semaphore ι} (h : Counted initial s) :
    Bounded initial s := by
  have hbalance := h.balance
  have hnonneg := h.nonneg
  exact ⟨hnonneg, by omega⟩

omit [DecidableEq ι] in
theorem init_counted {initial : Int32} (hpos : 0 ≤ initial.toInt) :
    Counted initial (init initial : Semaphore ι) where
  inv := by constructor <;> simp [init]
  nonneg := hpos
  lt := by
    have hlt := initial.toInt_lt
    exact hlt
  balance := by simp [init]

/-- **A step that `Counts` keeps the invariant of the count.** Kind: P -/
theorem step_counted {initial : Int32} (s : Semaphore ι) (e : ι × Op) (s' : Semaphore ι)
    (hinv : Counted initial s) (hop : Counts s e) (h : step s e = some s') :
    Counted initial s' := by
  obtain ⟨c, op⟩ := e
  have hnext := step_inv hinv.inv h
  obtain ⟨hall, hnonneg, hlt, hbalance⟩ := hinv
  have htake (hpos : 0 < s.count) : wrap (s.count - 1) = s.count - 1 :=
    wrap_of_mem (by omega) (by omega)
  rcases step_cases h with ⟨-, -, rfl⟩ | ⟨-, -, rfl⟩ | ⟨rfl, -, rfl⟩ | ⟨-, rfl⟩ |
    ⟨-, -, -, rfl⟩ | ⟨-, hc, rfl⟩ | ⟨-, -, rfl⟩ | ⟨rfl, -, rfl⟩ | ⟨-, -, -, rfl⟩ |
    ⟨-, -, w, ws, -, rfl⟩ | ⟨-, w, -, rfl⟩
  · exact ⟨hnext, hnonneg, hlt, hbalance⟩
  · exact ⟨hnext, hnonneg, hlt, hbalance⟩
  · have hpos := hop.1 rfl
    have heq := htake hpos
    refine ⟨hnext, ?_, ?_, ?_⟩ <;> dsimp only <;> omega
  · exact ⟨hnext, hnonneg, hlt, hbalance⟩
  · exact ⟨hnext, hnonneg, hlt, hbalance⟩
  · -- the count is still the positive one that was loaded
    have hpos := hall.trying c _ hc
    have heq := htake hpos
    refine ⟨hnext, ?_, ?_, ?_⟩ <;> dsimp only <;> omega
  · exact ⟨hnext, hnonneg, hlt, hbalance⟩
  · have hroom := hop.2 rfl
    have heq : wrap (s.count + 1) = s.count + 1 := wrap_of_mem (by omega) hroom
    refine ⟨hnext, ?_, ?_, ?_⟩ <;> dsimp only <;> omega
  · exact ⟨hnext, hnonneg, hlt, hbalance⟩
  · exact ⟨hnext, hnonneg, hlt, hbalance⟩
  · exact ⟨hnext, hnonneg, hlt, hbalance⟩

theorem count_of_take {s s' : Semaphore ι} {c : ι} (h : step s (c, .take) = some s') :
    s'.count = wrap (s.count - 1) := by
  unfold step at h
  cases hpc : s.pc c <;> simp only [hpc, reduceCtorEq] at h
  cases h
  rfl

theorem count_of_release {s s' : Semaphore ι} {c : ι} (h : step s (c, .release) = some s') :
    s'.count = wrap (s.count + 1) := by
  unfold step at h
  cases hpc : s.pc c <;> simp only [hpc, reduceCtorEq] at h
  cases h
  rfl

/-- **A step that does not makes the count negative.** Kind: P -/
theorem step_negative {initial : Int32} (s : Semaphore ι) (e : ι × Op) (s' : Semaphore ι)
    (hinv : Counted initial s) (hop : ¬ Counts s e) (h : step s e = some s') :
    ¬ Bounded initial s' := by
  obtain ⟨c, op⟩ := e
  obtain ⟨-, hnonneg, hlt, -⟩ := hinv
  have hshape : (op = .take ∧ s.count = 0) ∨ (op = .release ∧ s.count = 2 ^ 31 - 1) := by
    by_contra hno
    refine hop ⟨fun hop => ?_, fun hop => ?_⟩
    · by_contra hle
      exact hno (Or.inl ⟨hop, by omega⟩)
    · by_contra hle
      exact hno (Or.inr ⟨hop, by omega⟩)
  rintro ⟨hnext, -⟩
  rcases hshape with ⟨rfl, hzero⟩ | ⟨rfl, hmax⟩
  · have hwrap : wrap (0 - 1) = -1 := by decide
    rw [count_of_take h, hzero, hwrap] at hnext
    omega
  · have hwrap : wrap (2 ^ 31 - 1 + 1) = -2 ^ 31 := by decide
    rw [count_of_release h, hmax, hwrap] at hnext
    omega

/-! ## The waiters -/

/-- A `release` is in progress that has not popped a waiter yet. -/
def Releasing (s : Semaphore ι) : Prop := ∃ d, s.pc d = .releasing

/-- A `release` is in progress. -/
def InProgress (s : Semaphore ι) (c : ι) : Prop :=
  s.pc c = .releasing ∨ ∃ w, s.pc c = .waking w

/-- A coroutine joins the waiters while there is no permit or a `release` still has to pop one, and
a `release` leaves a waiter behind only where this is so after it. -/
def Kept (s : Semaphore ι) (e : ι × Op) : Prop :=
  (e.2 = .enqueue → s.count ≤ 0 ∨ Releasing s) ∧
    (e.2 = .pop → s.waiters.tail = [] ∨ s.count ≤ 0 ∨ ∃ d, d ≠ e.1 ∧ s.pc d = .releasing)

def Awake (s : Semaphore ι) : Prop := s.waiters = [] ∨ s.count ≤ 0 ∨ Releasing s

/-- No waiter is suspended while there are permits and no `release` is in progress. -/
def NoneLeft (s : Semaphore ι) : Prop :=
  0 < s.count → (∀ c, ¬ InProgress s c) → s.waiters = []

/-- **A step that is `Kept` leaves no waiter behind.** Kind: P -/
theorem step_awake {initial : Int32} {s s' : Semaphore ι} {e : ι × Op} (hinv : Counted initial s)
    (hawake : Awake s) (hcounts : Counts s e) (hkept : Kept s e) (h : step s e = some s') :
    Awake s' := by
  obtain ⟨c, op⟩ := e
  obtain ⟨hall, hnonneg, hlt, -⟩ := hinv
  -- another `release` stays where it is, and a smaller count has no more permits
  have hstay : ∀ {x : Pc ι} {n : ℤ} {k l : ℕ}, s.pc c ≠ .releasing → n ≤ s.count →
      Awake ⟨n, s.waiters, update s.pc c x, k, l⟩ := by
    intro x n k l hc hn
    rcases hawake with hnil | hcount | ⟨d, hd⟩
    · exact Or.inl hnil
    · exact Or.inr (Or.inl (Int.le_trans hn hcount))
    · have hne : d ≠ c := by
        rintro rfl
        exact hc hd
      exact Or.inr (Or.inr ⟨d, (update_of_ne hne _ _).trans hd⟩)
  have hless (hpos : 0 < s.count) : wrap (s.count - 1) ≤ s.count := by
    rw [wrap_of_mem (by omega) (by omega)]
    omega
  rcases step_cases h with ⟨-, hc, rfl⟩ | ⟨rfl, hc, rfl⟩ | ⟨rfl, hc, rfl⟩ | ⟨-, rfl⟩ |
    ⟨-, hc, -, rfl⟩ | ⟨-, hc, rfl⟩ | ⟨-, ⟨n, hc⟩, rfl⟩ | ⟨-, -, rfl⟩ | ⟨-, -, hnil, rfl⟩ |
    ⟨rfl, hc, w, ws, hcons, rfl⟩ | ⟨-, w, hc, rfl⟩
  · refine hstay ?_ (Int.le_refl _)
    rcases hc with hc | hc <;> rw [hc] <;> simp
  · rcases hkept.1 rfl with hcount | ⟨d, hd⟩
    · exact Or.inr (Or.inl hcount)
    · have hne : d ≠ c := by
        rintro rfl
        rw [hc] at hd
        cases hd
      exact Or.inr (Or.inr ⟨d, (update_of_ne hne _ _).trans hd⟩)
  · exact hstay (by rw [hc]; simp) (hless (hcounts.1 rfl))
  · exact hawake
  · exact hstay (by rw [hc]; simp) (Int.le_refl _)
  · exact hstay (by rw [hc]; simp) (hless (hall.trying c _ hc))
  · exact hstay (by rw [hc]; simp) (Int.le_refl _)
  · exact Or.inr (Or.inr ⟨c, update_self _ _ _⟩)
  · exact Or.inl hnil
  · rcases hkept.2 rfl with hrest | hcount | ⟨d, hne, hd⟩
    · rw [hcons, List.tail_cons] at hrest
      exact Or.inl hrest
    · exact Or.inr (Or.inl hcount)
    · exact Or.inr (Or.inr ⟨d, (update_of_ne hne _ _).trans hd⟩)
  · have hw := (hall.waking c w hc).1
    rcases hawake with hnil | hcount | ⟨d, hd⟩
    · exact Or.inl hnil
    · exact Or.inr (Or.inl hcount)
    · have hdw : d ≠ w := by
        rintro rfl
        rw [hw] at hd
        cases hd
      have hdc : d ≠ c := by
        rintro rfl
        rw [hc] at hd
        cases hd
      refine Or.inr (Or.inr ⟨d, ?_⟩)
      change update (update s.pc c .idle) w .woken d = .releasing
      rw [update_of_ne hdw, update_of_ne hdc, hd]

/-! ## Runs -/

/-- **The count is never negative exactly where each step `Counts`, and no waiter is left behind
where each step is also `Kept`.** Source: `coro.cxy` `Semaphore` Kind: P -/
theorem semaphore_run {initial : Int32} (hpos : 0 ≤ initial.toInt) (ops : List (ι × Op)) :
    ((∀ pre s, pre <+: ops → run step (init initial) pre = some s → Bounded initial s) ↔
        AllMeet step Counts (init initial) ops) ∧
      (AllMeet step (fun s e => Counts s e ∧ Kept s e) (init initial) ops →
        ∀ s, run step (init initial) ops = some s → NoneLeft s) := by
  constructor
  · exact run_property_iff (fun _ h => h.bounded) step_counted step_negative ops (init initial)
      (init_counted hpos)
  · intro hall s hrun
    have hkeep : ∀ (s : Semaphore ι) (e : ι × Op) (s' : Semaphore ι),
        Counted initial s ∧ Awake s → Counts s e ∧ Kept s e → step s e = some s' →
          Counted initial s' ∧ Awake s' := by
      rintro s e s' ⟨hcounted, hawake⟩ ⟨hcounts, hkept⟩ h
      exact ⟨step_counted s e s' hcounted hcounts h, step_awake hcounted hawake hcounts hkept h⟩
    obtain ⟨-, hawake⟩ := inv_of_run hkeep ops (init initial) s ⟨init_counted hpos, Or.inl rfl⟩
      hall hrun
    intro hcount hnone
    rcases hawake with hnil | hzero | ⟨d, hd⟩
    · exact hnil
    · exact absurd hcount (by omega)
    · exact absurd (Or.inl hd) (hnone d)

/-- One coroutine takes the permit, another one waits and is woken. -/
def handOver : List (ℕ × Op) :=
  [(0, .test), (0, .take), (1, .test), (1, .enqueue), (0, .release), (0, .pop), (0, .resume),
    (1, .test), (1, .take)]

theorem handOver_kept : AllMeet step (fun s e => Counts s e ∧ Kept s e) (init 1) handOver := by
  have hother {s : Semaphore ℕ} {c : ℕ} {op : Op} (h : op = .test ∨ op = .resume) :
      Counts s (c, op) ∧ Kept s (c, op) := by
    rcases h with rfl | rfl <;> exact ⟨⟨nofun, nofun⟩, nofun, nofun⟩
  refine allMeet_cons rfl (hother (Or.inl rfl)) ?_
  refine allMeet_cons rfl ⟨⟨fun _ => by decide, nofun⟩, nofun, nofun⟩ ?_
  refine allMeet_cons rfl (hother (Or.inl rfl)) ?_
  refine allMeet_cons rfl ⟨⟨nofun, nofun⟩, fun _ => Or.inl (by decide), nofun⟩ ?_
  refine allMeet_cons rfl ⟨⟨nofun, fun _ => by decide⟩, nofun, nofun⟩ ?_
  refine allMeet_cons rfl ⟨⟨nofun, nofun⟩, nofun, fun _ => Or.inl rfl⟩ ?_
  refine allMeet_cons rfl (hother (Or.inr rfl)) (allMeet_cons rfl (hother (Or.inl rfl)) ?_)
  refine allMeet_cons rfl ⟨⟨fun _ => by decide, nofun⟩, nofun, nofun⟩ ?_
  trivial

theorem semaphore_run_handOver : ∃ s, run step (init 1) handOver = some s ∧ NoneLeft s := by
  obtain ⟨s, hs⟩ : ∃ s, run step (init 1) handOver = some s :=
    Option.isSome_iff_exists.mp (by decide)
  exact ⟨s, hs, (semaphore_run (by decide) handOver).2 handOver_kept s hs⟩

/-- Two coroutines find the one permit, and both take it. Kind: P -/
theorem two_acquirers :
    ¬ ∀ (initial : Int32) (ops : List (ℕ × Op)) (s : Semaphore ℕ), 0 ≤ initial.toInt →
      run step (init initial) ops = some s → Bounded initial s ∧ NoneLeft s := by
  intro h
  have hrun : (run step (init 1 : Semaphore ℕ)
      [(0, .test), (1, .test), (0, .take), (1, .take)]).map Semaphore.count = some (-1) := by decide
  obtain ⟨s, hs, hcount⟩ := Option.map_eq_some_iff.mp hrun
  have hnonneg := (h 1 _ s (by decide) hs).1.1
  rw [hcount] at hnonneg
  exact absurd hnonneg (by decide)

end Semaphore

end CxyCompiler.Stdlib
