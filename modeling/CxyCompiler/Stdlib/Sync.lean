import CxyCompiler.Lib.Runs
import Mathlib.Logic.Function.Basic

/-!
# The mutex and the wait group of the coroutines

`Mutex` and `WaitGroup` (`stdlib/coro.cxy`) suspend coroutines of any scheduler thread. Each atomic
operation and each section under `_osMutex` is one step here, and so is each resumption.

* `Mutex.step`, `WaitGroup.step` — one step of one coroutine.
* `step` — the two objects together; a coroutine is in one operation at a time.
* `Mutex.Inv`, `WaitGroup.Inv` — **the invariants of all runs**.
* `Kept` — a coroutine joins the waiters of the mutex while it is locked, and those of the group
  while its count is not 0 or a `done` still has to take them; no `add` brings the count of a group
  with waiters to 0.
* `sync_run` — **at most one coroutine holds the mutex in every state of every run, and no wake-up
  is lost in a run whose steps are all `Kept`**. `unlock_before_enqueue` is a run where one is not.
-/

namespace CxyCompiler.Stdlib.Sync

open CxyCompiler.Lib.Runs Function

variable {ι : Type} [DecidableEq ι]

/-! ## The mutex -/

/-- Where a coroutine is in an operation of the mutex: outside, behind the failed compare-and-swap
of `lock`, in `_waiters` or handed the lock, resumed, and in `unlock` with a waiter to resume. -/
inductive MutexPc (ι : Type) where
  | out
  | refused
  | waiting
  | woken
  | waking (w : ι)
  deriving DecidableEq

/-- The mutex, where each coroutine is, and which are past `lock` and not past `unlock`.
Source: `coro.cxy` `Mutex` -/
structure Mutex (ι : Type) where
  locked : Bool
  holder : Option ι
  waiters : List ι
  pc : ι → MutexPc ι
  inside : ι → Bool

/-- The steps of `lock`, `tryLock` and `unlock`. -/
inductive MutexOp where
  | lock
  | enqueue
  | proceed
  | tryLock
  | unlock
  | resume
  deriving DecidableEq

/-- The compare-and-swap of `lock` and `tryLock`, which succeeds. -/
def Mutex.take (m : Mutex ι) (c : ι) : Mutex ι :=
  { m with locked := true, holder := some c, inside := update m.inside c true }

/-- One step of the coroutine `c`; `unlock` is for one that is past `lock`.
Source: `coro.cxy` `Mutex.lock`, `Mutex.tryLock`, `Mutex.unlock` -/
def Mutex.step (m : Mutex ι) (c : ι) (op : MutexOp) : Option (Mutex ι) :=
  match op, m.pc c with
  | .lock, .out =>
      if m.locked then some { m with pc := update m.pc c .refused } else some (m.take c)
  | .enqueue, .refused =>
      some { m with waiters := m.waiters ++ [c], pc := update m.pc c .waiting }
  | .proceed, .woken =>
      some { m with pc := update m.pc c .out, inside := update m.inside c true }
  | .tryLock, .out => if m.locked then some m else some (m.take c)
  | .unlock, .out =>
      if m.inside c then
        match m.waiters with
        | [] => some { m with locked := false, holder := none, inside := update m.inside c false }
        | w :: ws =>
            some { m with holder := some w, waiters := ws, pc := update m.pc c (.waking w) }
      else none
  | .resume, .waking w =>
      some { m with
        pc := update (update m.pc c .out) w .woken
        inside := update m.inside c false }
  | _, _ => none

def Mutex.init : Mutex ι :=
  { locked := false, holder := none, waiters := [], pc := fun _ => .out, inside := fun _ => false }

/-- The coroutine has the lock: it is past `lock`, or was resumed there. -/
def Mutex.Owns (m : Mutex ι) (c : ι) : Prop := m.inside c = true ∨ m.pc c = .woken

/-- **The invariant of all runs of a mutex.** -/
structure Mutex.Inv (m : Mutex ι) : Prop where
  unique : ∀ c d, m.Owns c → m.Owns d → c = d
  locked : ∀ c, m.Owns c → m.locked = true
  waking : ∀ c w, m.pc c = .waking w → m.inside c = true ∧ m.pc w = .waiting ∧ w ∉ m.waiters
  waiting : ∀ c ∈ m.waiters, m.pc c = .waiting
  nodup : m.waiters.Nodup

theorem Mutex.step_cases {m m' : Mutex ι} {c : ι} {op : MutexOp} (h : m.step c op = some m') :
    (op = .lock ∧ m.pc c = .out ∧ m.locked = true ∧ m' = { m with pc := update m.pc c .refused }) ∨
    ((op = .lock ∨ op = .tryLock) ∧ m.pc c = .out ∧ m.locked = false ∧ m' = m.take c) ∨
    (op = .enqueue ∧ m.pc c = .refused ∧
      m' = { m with waiters := m.waiters ++ [c], pc := update m.pc c .waiting }) ∨
    (op = .proceed ∧ m.pc c = .woken ∧
      m' = { m with pc := update m.pc c .out, inside := update m.inside c true }) ∨
    (op = .tryLock ∧ m' = m) ∨
    (op = .unlock ∧ m.pc c = .out ∧ m.inside c = true ∧ m.waiters = [] ∧
      m' = { m with locked := false, holder := none, inside := update m.inside c false }) ∨
    (op = .unlock ∧ m.pc c = .out ∧ m.inside c = true ∧ ∃ w ws, m.waiters = w :: ws ∧
      m' = { m with holder := some w, waiters := ws, pc := update m.pc c (.waking w) }) ∨
    (op = .resume ∧ ∃ w, m.pc c = .waking w ∧
      m' = { m with
        pc := update (update m.pc c .out) w .woken
        inside := update m.inside c false }) := by
  unfold Mutex.step at h
  cases op <;> cases hpc : m.pc c <;> simp only [hpc, reduceCtorEq] at h
  · split_ifs at h with hl
    · exact Or.inl ⟨rfl, rfl, hl, (Option.some.inj h).symm⟩
    · exact Or.inr (Or.inl ⟨Or.inl rfl, rfl, by simpa using hl, (Option.some.inj h).symm⟩)
  · exact Or.inr (Or.inr (Or.inl ⟨rfl, rfl, (Option.some.inj h).symm⟩))
  · exact Or.inr (Or.inr (Or.inr (Or.inl ⟨rfl, rfl, (Option.some.inj h).symm⟩)))
  · split_ifs at h with hl
    · exact Or.inr (Or.inr (Or.inr (Or.inr (Or.inl ⟨rfl, (Option.some.inj h).symm⟩))))
    · exact Or.inr (Or.inl ⟨Or.inr rfl, rfl, by simpa using hl, (Option.some.inj h).symm⟩)
  · split_ifs at h with hin
    refine Or.inr (Or.inr (Or.inr (Or.inr (Or.inr ?_))))
    cases hw : m.waiters with
    | nil =>
        rw [hw] at h
        exact Or.inl ⟨rfl, rfl, hin, rfl, (Option.some.inj h).symm⟩
    | cons w ws =>
        rw [hw] at h
        exact Or.inr (Or.inl ⟨rfl, rfl, hin, w, ws, rfl, (Option.some.inj h).symm⟩)
  · refine Or.inr (Or.inr (Or.inr (Or.inr (Or.inr (Or.inr (Or.inr ⟨rfl, _, rfl, ?_⟩))))))
    exact (Option.some.inj h).symm

/-- **Each step keeps the invariant of the mutex.** Kind: P -/
theorem Mutex.step_inv {m m' : Mutex ι} {c : ι} {op : MutexOp} (hinv : m.Inv)
    (h : m.step c op = some m') : m'.Inv := by
  obtain ⟨hu, hl, hk, hw, hn⟩ := hinv
  simp only [Mutex.Owns] at hu hl
  rcases Mutex.step_cases h with ⟨-, hc, -, rfl⟩ | ⟨-, hc, hfree, rfl⟩ | ⟨-, hc, rfl⟩ |
    ⟨-, hc, rfl⟩ | ⟨-, rfl⟩ | ⟨-, hc, hin, hnil, rfl⟩ | ⟨-, hc, hin, w, ws, hcons, rfl⟩ |
    ⟨-, w, hc, rfl⟩
  · constructor <;> simp only [Mutex.Owns, update_apply] <;> grind
  · -- no coroutine has the lock before, as the mutex is not locked
    constructor <;> simp only [Mutex.Owns, Mutex.take, update_apply] <;> grind
  · constructor <;> simp only [Mutex.Owns, update_apply] <;> grind
  · constructor <;> simp only [Mutex.Owns, update_apply] <;> grind
  · exact ⟨hu, hl, hk, hw, hn⟩
  · -- the only one that has the lock gives it up
    constructor <;> simp only [Mutex.Owns, update_apply] <;> grind
  · constructor <;> simp only [Mutex.Owns, update_apply] <;> grind
  · -- the lock goes from `c` to `w`
    constructor <;> simp only [Mutex.Owns, update_apply] <;> grind

omit [DecidableEq ι] in
theorem Mutex.init_inv : (Mutex.init : Mutex ι).Inv := by
  constructor <;> simp [Mutex.init, Mutex.Owns]

/-- A coroutine joins the waiters while the mutex is locked. -/
def Mutex.Kept (m : Mutex ι) (op : MutexOp) : Prop := op = .enqueue → m.locked = true

/-- No coroutine waits for a mutex that is not locked. -/
def Mutex.Awake (m : Mutex ι) : Prop := m.locked = false → m.waiters = []

/-- **No wake-up of the mutex is lost in a step that is `Kept`.** Kind: P -/
theorem Mutex.step_awake {m m' : Mutex ι} {c : ι} {op : MutexOp} (hawake : m.Awake)
    (hop : m.Kept op) (h : m.step c op = some m') : m'.Awake := by
  unfold Mutex.Awake Mutex.Kept at *
  rcases Mutex.step_cases h with ⟨-, -, hlocked, rfl⟩ | ⟨-, -, -, rfl⟩ | ⟨rfl, -, rfl⟩ |
    ⟨-, -, rfl⟩ | ⟨-, rfl⟩ | ⟨-, -, -, hnil, rfl⟩ | ⟨-, -, -, w, ws, hcons, rfl⟩ | ⟨-, w, -, rfl⟩
  · exact hawake
  · intro hfree
    cases hfree
  · intro hfree
    rw [hop rfl] at hfree
    cases hfree
  · exact hawake
  · exact hawake
  · exact fun _ => hnil
  · intro hfree
    rw [hawake hfree] at hcons
    cases hcons
  · exact hawake

/-! ## The wait group -/

/-- Where a coroutine is in an operation of the wait group: behind the load of `wait` that was not
0, in `_waiters` or to be resumed, resumed, behind the decrement of `done` that found 1, and in
`done` with the waiters to resume. -/
inductive GroupPc (ι : Type) where
  | idle
  | missed
  | waiting
  | woken
  | last
  | waking (ws : List ι)
  deriving DecidableEq

/-- The wait group, and where each coroutine is. The counter wraps around at 32 bits.
Source: `coro.cxy` `WaitGroup` -/
structure WaitGroup (ι : Type) where
  count : Int32
  waiters : List ι
  pc : ι → GroupPc ι

/-- The steps of `add`, `done` and `wait`. -/
inductive GroupOp where
  | add (n : Int32)
  | done
  | drain
  | resume
  | wait
  | enqueue
  | proceed
  deriving DecidableEq

/-- The waiters that are still to be resumed, or nothing where there are none. -/
def stillWaking (ws : List ι) : GroupPc ι := if ws = [] then .idle else .waking ws

/-- One step of the coroutine `c`.
Source: `coro.cxy` `WaitGroup.add`, `WaitGroup.done`, `WaitGroup.wait` -/
def WaitGroup.step (g : WaitGroup ι) (c : ι) (op : GroupOp) : Option (WaitGroup ι) :=
  match op, g.pc c with
  | .add n, .idle => some { g with count := g.count + n }
  | .done, .idle =>
      if g.count = 1 then some { g with count := g.count - 1, pc := update g.pc c .last }
      else some { g with count := g.count - 1 }
  | .drain, .last =>
      some { g with waiters := [], pc := update g.pc c (stillWaking g.waiters) }
  | .resume, .waking (w :: ws) =>
      some { g with pc := update (update g.pc c (stillWaking ws)) w .woken }
  | .wait, .idle => if g.count = 0 then some g else some { g with pc := update g.pc c .missed }
  | .enqueue, .missed =>
      some { g with waiters := g.waiters ++ [c], pc := update g.pc c .waiting }
  | .proceed, .woken => some { g with pc := update g.pc c .idle }
  | _, _ => none

def WaitGroup.init : WaitGroup ι := { count := 0, waiters := [], pc := fun _ => .idle }

/-- **The invariant of all runs of a wait group**: who waits is in one place. -/
structure WaitGroup.Inv (g : WaitGroup ι) : Prop where
  waiting : ∀ c ∈ g.waiters, g.pc c = .waiting
  nodup : g.waiters.Nodup
  waking : ∀ c ws, g.pc c = .waking ws → ws.Nodup ∧ ∀ w ∈ ws, g.pc w = .waiting ∧ w ∉ g.waiters
  apart : ∀ c d ws vs, g.pc c = .waking ws → g.pc d = .waking vs → c ≠ d → ∀ w ∈ ws, w ∉ vs

/-- A `done` is in progress that found the last count and has not taken the waiters yet. -/
def WaitGroup.Draining (g : WaitGroup ι) : Prop := ∃ d, g.pc d = .last

/-- A `done` is in progress. -/
def WaitGroup.InProgress (g : WaitGroup ι) (c : ι) : Prop :=
  g.pc c = .last ∨ ∃ ws, g.pc c = .waking ws

/-- A coroutine joins the waiters while the count is not 0 or a `done` still has to take them, and
no `add` brings the count to 0 while there are waiters that no `done` will take. -/
def WaitGroup.Kept (g : WaitGroup ι) (op : GroupOp) : Prop :=
  (op = .enqueue → g.count ≠ 0 ∨ g.Draining) ∧
    ∀ n, op = .add n → g.waiters = [] ∨ g.count + n ≠ 0 ∨ g.Draining

/-- The waiters wait for a count that is not 0, or for a `done` that will take them. -/
def WaitGroup.Awake (g : WaitGroup ι) : Prop := g.waiters = [] ∨ g.count ≠ 0 ∨ g.Draining

theorem WaitGroup.step_cases {g g' : WaitGroup ι} {c : ι} {op : GroupOp}
    (h : g.step c op = some g') :
    (∃ n, op = .add n ∧ g' = { g with count := g.count + n }) ∨
    (op = .done ∧ g.pc c = .idle ∧ g.count = 1 ∧
      g' = { g with count := g.count - 1, pc := update g.pc c .last }) ∨
    (op = .done ∧ g.count ≠ 1 ∧ g' = { g with count := g.count - 1 }) ∨
    (op = .drain ∧ g.pc c = .last ∧
      g' = { g with waiters := [], pc := update g.pc c (stillWaking g.waiters) }) ∨
    (op = .resume ∧ ∃ w ws, g.pc c = .waking (w :: ws) ∧
      g' = { g with pc := update (update g.pc c (stillWaking ws)) w .woken }) ∨
    (op = .wait ∧ g' = g) ∨
    (op = .wait ∧ g.pc c = .idle ∧ g.count ≠ 0 ∧ g' = { g with pc := update g.pc c .missed }) ∨
    (op = .enqueue ∧ g.pc c = .missed ∧
      g' = { g with waiters := g.waiters ++ [c], pc := update g.pc c .waiting }) ∨
    (op = .proceed ∧ g.pc c = .woken ∧ g' = { g with pc := update g.pc c .idle }) := by
  unfold WaitGroup.step at h
  cases op <;> cases hpc : g.pc c <;> simp only [hpc, reduceCtorEq] at h
  · exact Or.inl ⟨_, rfl, (Option.some.inj h).symm⟩
  · right
    split_ifs at h with hone
    · exact Or.inl ⟨rfl, rfl, hone, (Option.some.inj h).symm⟩
    · exact Or.inr (Or.inl ⟨rfl, hone, (Option.some.inj h).symm⟩)
  · exact Or.inr (Or.inr (Or.inr (Or.inl ⟨rfl, rfl, (Option.some.inj h).symm⟩)))
  · rename_i ws
    rcases ws with _ | ⟨w, ws⟩
    · cases h
    · exact Or.inr (Or.inr (Or.inr (Or.inr (Or.inl ⟨rfl, w, ws, rfl, (Option.some.inj h).symm⟩))))
  · right; right; right; right; right
    split_ifs at h with hzero
    · exact Or.inl ⟨rfl, (Option.some.inj h).symm⟩
    · exact Or.inr (Or.inl ⟨rfl, rfl, hzero, (Option.some.inj h).symm⟩)
  · right; right; right; right; right; right; right
    exact Or.inl ⟨rfl, rfl, (Option.some.inj h).symm⟩
  · right; right; right; right; right; right; right
    exact Or.inr ⟨rfl, rfl, (Option.some.inj h).symm⟩

/-- **Each step keeps the invariant of the wait group.** Kind: P -/
theorem WaitGroup.step_inv {g g' : WaitGroup ι} {c : ι} {op : GroupOp} (hinv : g.Inv)
    (h : g.step c op = some g') : g'.Inv := by
  obtain ⟨hw, hn, hk, ha⟩ := hinv
  rcases WaitGroup.step_cases h with ⟨n, -, rfl⟩ | ⟨-, hc, -, rfl⟩ | ⟨-, -, rfl⟩ | ⟨-, hc, rfl⟩ |
    ⟨-, w, ws, hc, rfl⟩ | ⟨-, rfl⟩ | ⟨-, hc, -, rfl⟩ | ⟨-, hc, rfl⟩ | ⟨-, hc, rfl⟩
  · exact ⟨hw, hn, hk, ha⟩
  · constructor <;> simp only [update_apply] <;> grind
  · exact ⟨hw, hn, hk, ha⟩
  · constructor <;> simp only [update_apply, stillWaking] <;> grind
  · -- each `done` still has to resume a part of what it had to before
    have hpart : ∀ x vs, update (update g.pc c (stillWaking ws)) w .woken x = .waking vs →
        ∃ us, g.pc x = .waking us ∧ vs.Nodup ∧ ∀ u ∈ vs, u ∈ us ∧ u ≠ w := by
      intro x vs hx
      simp only [update_apply, stillWaking] at hx
      grind
    refine ⟨?_, hn, ?_, ?_⟩
    · intro x hx
      simp only [update_apply]
      grind
    · intro x vs hx
      obtain ⟨us, hus, hno, hmem⟩ := hpart x vs hx
      refine ⟨hno, fun u hu => ?_⟩
      obtain ⟨huw, hout⟩ := (hk x us hus).2 u (hmem u hu).1
      simp only [update_apply]
      grind
    · intro x y vs vs' hx hy hxy u hu hu'
      obtain ⟨us, hus, -, hmem⟩ := hpart x vs hx
      obtain ⟨us', hus', -, hmem'⟩ := hpart y vs' hy
      exact ha x y us us' hus hus' hxy u (hmem u hu).1 (hmem' u hu').1
  · exact ⟨hw, hn, hk, ha⟩
  · constructor <;> simp only [update_apply] <;> grind
  · constructor <;> simp only [update_apply] <;> grind
  · constructor <;> simp only [update_apply] <;> grind

omit [DecidableEq ι] in
theorem WaitGroup.init_inv : (WaitGroup.init : WaitGroup ι).Inv := by
  constructor <;> simp [WaitGroup.init]

/-- **No wake-up of the wait group is lost in a step that is `Kept`.** Kind: P -/
theorem WaitGroup.step_awake {g g' : WaitGroup ι} {c : ι} {op : GroupOp} (hinv : g.Inv)
    (hawake : g.Awake) (hop : g.Kept op) (h : g.step c op = some g') : g'.Awake := by
  -- a `done` that has not taken the waiters yet stays where it is, unless it is the one that steps
  have hstay : ∀ {x : GroupPc ι}, g.pc c ≠ .last → g.Awake →
      WaitGroup.Awake { g with pc := update g.pc c x } := by
    rintro x hc (hnil | hcount | ⟨d, hd⟩)
    · exact Or.inl hnil
    · exact Or.inr (Or.inl hcount)
    · refine Or.inr (Or.inr ⟨d, ?_⟩)
      have hne : d ≠ c := by
        rintro rfl
        exact hc hd
      exact (update_of_ne hne _ _).trans hd
  rcases WaitGroup.step_cases h with ⟨n, rfl, rfl⟩ | ⟨-, -, -, rfl⟩ | ⟨-, hone, rfl⟩ | ⟨-, -, rfl⟩ |
    ⟨-, w, ws, hc, rfl⟩ | ⟨-, rfl⟩ | ⟨-, hc, -, rfl⟩ | ⟨rfl, hc, rfl⟩ | ⟨-, hc, rfl⟩
  · exact hop.2 n rfl
  · exact Or.inr (Or.inr ⟨c, update_self _ _ _⟩)
  · rcases hawake with hnil | - | hdrain
    · exact Or.inl hnil
    · refine Or.inr (Or.inl fun hzero => hone ?_)
      dsimp only at hzero
      grind
    · exact Or.inr (Or.inr hdrain)
  · exact Or.inl rfl
  · have hw := ((hinv.waking c _ hc).2 w List.mem_cons_self).1
    rcases hawake with hnil | hcount | ⟨d, hd⟩
    · exact Or.inl hnil
    · exact Or.inr (Or.inl hcount)
    · have hdw : d ≠ w := by
        rintro rfl
        rw [hw] at hd
        cases hd
      have hdc : d ≠ c := by
        rintro rfl
        rw [hc] at hd
        cases hd
      refine Or.inr (Or.inr ⟨d, ?_⟩)
      change update (update g.pc c (stillWaking ws)) w .woken d = .last
      rw [update_of_ne hdw, update_of_ne hdc, hd]
  · exact hawake
  · exact hstay (by rw [hc]; simp) hawake
  · rcases hop.1 rfl with hcount | ⟨d, hd⟩
    · exact Or.inr (Or.inl hcount)
    · refine Or.inr (Or.inr ⟨d, (update_of_ne ?_ _ _).trans hd⟩)
      rintro rfl
      rw [hc] at hd
      cases hd
  · exact hstay (by rw [hc]; simp) hawake

/-! ## Both together -/

structure State (ι : Type) where
  mutex : Mutex ι
  group : WaitGroup ι

inductive Op where
  | mutex (op : MutexOp)
  | group (op : GroupOp)
  deriving DecidableEq

/-- A coroutine steps in one of the objects while it is in no operation of the other. -/
def step (s : State ι) (e : ι × Op) : Option (State ι) :=
  match e.2 with
  | .mutex op =>
      if s.group.pc e.1 = .idle then (s.mutex.step e.1 op).map fun m => { s with mutex := m }
      else none
  | .group op =>
      if s.mutex.pc e.1 = .out then (s.group.step e.1 op).map fun g => { s with group := g }
      else none

def init : State ι := { mutex := Mutex.init, group := WaitGroup.init }

/-- The step keeps every waiter within reach of a wake-up. -/
def Kept (s : State ι) (e : ι × Op) : Prop :=
  match e.2 with
  | .mutex op => s.mutex.Kept op
  | .group op => s.group.Kept op

structure Inv (s : State ι) : Prop where
  mutex : s.mutex.Inv
  group : s.group.Inv

theorem step_cases {s s' : State ι} {e : ι × Op} (h : step s e = some s') :
    (∃ op m, e.2 = .mutex op ∧ s.mutex.step e.1 op = some m ∧ s' = { s with mutex := m }) ∨
    ∃ op g, e.2 = .group op ∧ s.group.step e.1 op = some g ∧ s' = { s with group := g } := by
  unfold step at h
  cases hop : e.2 with
  | mutex op =>
      rw [hop] at h
      dsimp only at h
      split_ifs at h
      obtain ⟨m, hm, rfl⟩ := Option.map_eq_some_iff.mp h
      exact Or.inl ⟨op, m, rfl, hm, rfl⟩
  | group op =>
      rw [hop] at h
      dsimp only at h
      split_ifs at h
      obtain ⟨g, hg, rfl⟩ := Option.map_eq_some_iff.mp h
      exact Or.inr ⟨op, g, rfl, hg, rfl⟩

omit [DecidableEq ι] in
theorem init_inv : Inv (init : State ι) := ⟨Mutex.init_inv, WaitGroup.init_inv⟩

/-- **Each step keeps the invariant of both.** Kind: P -/
theorem step_inv (s : State ι) (e : ι × Op) (s' : State ι) (hinv : Inv s)
    (h : step s e = some s') : Inv s' := by
  rcases step_cases h with ⟨op, m, -, hm, rfl⟩ | ⟨op, g, -, hg, rfl⟩
  · exact ⟨Mutex.step_inv hinv.mutex hm, hinv.group⟩
  · exact ⟨hinv.mutex, WaitGroup.step_inv hinv.group hg⟩

/-- No coroutine waits for a mutex that is not locked, or for a wait group whose count is 0 while no
`done` is in progress. -/
def NoneLost (s : State ι) : Prop :=
  (s.mutex.locked = false → s.mutex.waiters = []) ∧
    (s.group.count = 0 → (∀ c, ¬ s.group.InProgress c) → s.group.waiters = [])

/-- **At most one coroutine is past `lock` and not past `unlock`, in every state of every run, and
no wake-up is lost in a run whose steps are all `Kept`.** Source: `coro.cxy` `Mutex`, `WaitGroup`
Kind: P -/
theorem sync_run {ops : List (ι × Op)} {s : State ι} (hrun : run step init ops = some s) :
    (∀ c d, s.mutex.inside c = true → s.mutex.inside d = true → c = d) ∧
      (AllMeet step Kept init ops → NoneLost s) := by
  have hinv := inv_of_every_run step_inv ops init_inv hrun
  refine ⟨fun c d hc hd => hinv.mutex.unique c d (Or.inl hc) (Or.inl hd), fun hall => ?_⟩
  have hkeep : ∀ (s : State ι) (e : ι × Op) (s' : State ι),
      (Inv s ∧ s.mutex.Awake ∧ s.group.Awake) → Kept s e → step s e = some s' →
        Inv s' ∧ s'.mutex.Awake ∧ s'.group.Awake := by
    rintro s e s' ⟨hinv, hm, hg⟩ hop h
    refine ⟨step_inv s e s' hinv h, ?_⟩
    unfold Kept at hop
    rcases step_cases h with ⟨op, m, he, hm', rfl⟩ | ⟨op, g, he, hg', rfl⟩
    · rw [he] at hop
      exact ⟨Mutex.step_awake hm hop hm', hg⟩
    · rw [he] at hop
      exact ⟨hm, WaitGroup.step_awake hinv.group hg hop hg'⟩
  have hstart : Inv (init : State ι) ∧ (init : State ι).mutex.Awake ∧
    (init : State ι).group.Awake :=
    ⟨init_inv, fun _ => rfl, Or.inl rfl⟩
  obtain ⟨-, hm, hg⟩ := inv_of_run hkeep ops init s hstart hall hrun
  refine ⟨hm, fun hzero hnone => ?_⟩
  rcases hg with hnil | hcount | ⟨d, hd⟩
  · exact hnil
  · exact absurd hzero hcount
  · exact absurd (Or.inl hd) (hnone d)

/-- One coroutine hands the mutex to another, and then wakes it from the wait group. -/
def handOver : List (ℕ × Op) :=
  [(0, .mutex .lock), (1, .mutex .lock), (1, .mutex .enqueue), (0, .mutex .unlock),
    (0, .mutex .resume), (1, .mutex .proceed), (0, .group (.add 1)), (1, .group .wait),
    (1, .group .enqueue), (0, .group .done), (0, .group .drain), (0, .group .resume),
    (1, .group .proceed)]

theorem handOver_kept : AllMeet step Kept init handOver := by
  have hlock {s : State ℕ} {c : ℕ} {op : MutexOp} (h : op ≠ .enqueue) : Kept s (c, .mutex op) :=
    fun heq => absurd heq h
  have hgroup {s : State ℕ} {c : ℕ} {op : GroupOp} (h : op ≠ .enqueue) (hadd : ∀ n, op ≠ .add n) :
      Kept s (c, .group op) := ⟨fun heq => absurd heq h, fun n heq => absurd heq (hadd n)⟩
  refine allMeet_cons rfl (hlock (by decide)) (allMeet_cons rfl (hlock (by decide)) ?_)
  refine allMeet_cons rfl (fun _ => rfl) (allMeet_cons rfl (hlock (by decide)) ?_)
  refine allMeet_cons rfl (hlock (by decide)) (allMeet_cons rfl (hlock (by decide)) ?_)
  refine allMeet_cons rfl ⟨nofun, fun _ _ => Or.inl rfl⟩ ?_
  refine allMeet_cons rfl (hgroup (by decide) nofun) ?_
  refine allMeet_cons rfl ⟨fun _ => Or.inl (by decide), nofun⟩ ?_
  refine allMeet_cons rfl (hgroup (by decide) nofun)
    (allMeet_cons rfl (hgroup (by decide) nofun) ?_)
  refine allMeet_cons rfl (hgroup (by decide) nofun)
    (allMeet_cons rfl (hgroup (by decide) nofun) ?_)
  trivial

theorem sync_run_handOver : ∃ s, run step init handOver = some s ∧
    (∀ c d, s.mutex.inside c = true → s.mutex.inside d = true → c = d) ∧ NoneLost s := by
  obtain ⟨s, hs⟩ : ∃ s, run step init handOver = some s :=
    Option.isSome_iff_exists.mp (by decide)
  obtain ⟨hone, hlost⟩ := sync_run hs
  exact ⟨s, hs, hone, hlost handOver_kept⟩

/-- The holder unlocks between the failed compare-and-swap of `lock` and the push to `_waiters`.
Kind: P -/
theorem unlock_before_enqueue :
    ¬ ∀ (ops : List (ℕ × Op)) (s : State ℕ), run step init ops = some s →
      (∀ c d, s.mutex.inside c = true → s.mutex.inside d = true → c = d) ∧ NoneLost s := by
  intro h
  have hrun : (run step (init : State ℕ) [(0, .mutex .lock), (1, .mutex .lock),
      (0, .mutex .unlock), (1, .mutex .enqueue)]).map
        (fun s => (s.mutex.locked, s.mutex.waiters)) = some (false, [1]) := by decide
  obtain ⟨s, hs, hend⟩ := Option.map_eq_some_iff.mp hrun
  simp only [Prod.mk.injEq] at hend
  have hnil := (h _ s hs).2.1 hend.1
  rw [hend.2] at hnil
  cases hnil

end CxyCompiler.Stdlib.Sync
