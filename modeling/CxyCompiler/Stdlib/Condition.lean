import CxyCompiler.Stdlib.Sync

/-!
# The condition variable of the coroutines

A coroutine that holds a mutex can wait at a `ConditionVariable` (`stdlib/coro.cxy`) until another
one notifies it, or until a time is over. As at the mutex, each atomic operation, each section under
`_osMutex` and each resumption is one step.

* `step` — one step of one coroutine, at the condition variable or at its mutex.
* `Right` — **at most one coroutine holds the mutex, and each one that waits is in one place**: in
  the list, taken out of it by a notifier, or resumed.
* `Inv`, `step_inv` — the invariant, which each step keeps but the end of a time.
* `right_iff_noTimeout` — **every state of a run is right if and only if no wait ends by its time**.
  `timeout_breaks_lock` is a run where one does: the coroutine stays in the list, and is notified
  while it waits for the mutex again.

What the link of a coroutine that is still in the list does to the other lists that it joins is left
out.
-/

namespace CxyCompiler.Stdlib.Condition

open CxyCompiler.Lib.Runs Function
open CxyCompiler.Stdlib.Sync (Mutex MutexOp)

variable {ι : Type} [DecidableEq ι]

/-- Where a coroutine is in an operation of the condition variable: outside, in the list and not
past `unlock`, suspended, behind that, and in `notify` or `notifyAll` with waiters to resume. -/
inductive Pc (ι : Type) where
  | idle
  | unlocking
  | asleep
  | relocking
  | waking (ws : List ι)
  deriving DecidableEq

/-- The condition variable with the mutex that is used with it, whose wait has a time, and which
have been resumed by a notifier and have not gone on. Source: `coro.cxy` `ConditionVariable` -/
structure State (ι : Type) where
  mutex : Mutex ι
  waiters : List ι
  pc : ι → Pc ι
  timed : ι → Bool
  ready : ι → Bool

/-- The steps of `wait`, `waitTimeout`, `notify` and `notifyAll`, those at the mutex among them. -/
inductive Op where
  | mutex (op : MutexOp)
  | wait (timed : Bool)
  | timeout
  | notify
  | notifyAll
  | resume
  | proceed
  deriving DecidableEq

/-- The steps at the mutex that are possible there. -/
def Pc.allows : Pc ι → MutexOp → Bool
  | .idle, _ => true
  | .unlocking, op => op = .unlock ∨ op = .resume
  | .relocking, op => op = .lock ∨ op = .enqueue ∨ op = .proceed
  | _, _ => false

/-- Behind `unlock` is `suspend`, and behind the second `lock` the end of `wait`. -/
def Pc.behind (inside : Bool) : Pc ι → Pc ι
  | .unlocking => if inside then .unlocking else .asleep
  | .relocking => if inside then .idle else .relocking
  | p => p

/-- The waiters that are still to be resumed, or nothing where there are none. -/
def stillWaking (ws : List ι) : Pc ι := if ws = [] then .idle else .waking ws

/-- The first waiters are taken out of the list. -/
def State.take (s : State ι) (c : ι) (n : ℕ) : State ι :=
  { s with waiters := s.waiters.drop n, pc := update s.pc c (stillWaking (s.waiters.take n)) }

@[simp] theorem State.take_waiters (s : State ι) (c : ι) (n : ℕ) : (s.take c n).waiters =
    s.waiters.drop n := rfl

@[simp] theorem State.take_pc (s : State ι) (c : ι) (n : ℕ) :
    (s.take c n).pc = update s.pc c (stillWaking (s.waiters.take n)) := rfl

@[simp] theorem State.take_ready (s : State ι) (c : ι) (n : ℕ) : (s.take c n).ready = s.ready := rfl

@[simp] theorem State.take_mutex (s : State ι) (c : ι) (n : ℕ) : (s.take c n).mutex = s.mutex := rfl

/-- One step of a coroutine; `wait` is for one that holds the mutex, and one that is still in the
list is not pushed again. Source: `coro.cxy` `ConditionVariable.wait`,
`ConditionVariable.waitTimeout`, `ConditionVariable.notify`,
`ConditionVariable.notifyAll`, `resumeWaiter` -/
def step (s : State ι) (e : ι × Op) : Option (State ι) :=
  let c := e.1
  match e.2, s.pc c with
  | .mutex op, p =>
      if p.allows op then
        (s.mutex.step c op).map fun m =>
          { s with mutex := m, pc := update s.pc c (p.behind (m.inside c)) }
      else none
  | .wait timed, .idle =>
      if s.mutex.pc c = .out ∧ s.mutex.inside c = true ∧ c ∉ s.waiters then
        some { s with
          waiters := s.waiters ++ [c]
          pc := update s.pc c .unlocking
          timed := update s.timed c timed }
      else none
  | .timeout, .asleep => if s.timed c then some { s with pc := update s.pc c .relocking } else none
  | .notify, .idle => if s.mutex.pc c = .out then some (s.take c 1) else none
  | .notifyAll, .idle => if s.mutex.pc c = .out then some (s.take c s.waiters.length) else none
  | .resume, .waking (w :: ws) =>
      some { s with pc := update s.pc c (stillWaking ws), ready := update s.ready w true }
  | .proceed, p =>
      if s.ready c = true ∧ p = .asleep then
        some { s with pc := update s.pc c .relocking, ready := update s.ready c false }
      else if s.ready c = true ∧ s.mutex.pc c = .waiting then
        -- the `suspend` of `lock` returns
        some { s with
          mutex := { s.mutex with pc := update s.mutex.pc c .woken }
          ready := update s.ready c false }
      else none
  | _, _ => none

def init : State ι :=
  { mutex := Mutex.init, waiters := [], pc := fun _ => .idle
    timed := fun _ => false, ready := fun _ => false }

/-- The coroutine is in `wait` and has not gone on there. -/
def State.Waits (s : State ι) (c : ι) : Prop := s.pc c = .unlocking ∨ s.pc c = .asleep

/-- The notifier `d` has taken `c` out of the list and still has to resume it. -/
def State.Taken (s : State ι) (d c : ι) : Prop := ∃ ws, s.pc d = .waking ws ∧ c ∈ ws

/-- **At most one coroutine holds the mutex, and who waits is in one place**: no notification is
lost, none resumes two coroutines, and none goes to a coroutine that does not wait. -/
structure Right (s : State ι) : Prop where
  one : ∀ c d, s.mutex.inside c = true → s.mutex.inside d = true → c = d
  nodup : s.waiters.Nodup
  listed : ∀ c ∈ s.waiters, s.Waits c ∧ s.ready c = false ∧ ∀ d, ¬ s.Taken d c
  taken : ∀ c d, s.Taken d c → s.Waits c ∧ s.ready c = false ∧ ∀ d', s.Taken d' c → d' = d
  ready : ∀ c, s.ready c = true → s.Waits c
  reached : ∀ c, s.Waits c → c ∈ s.waiters ∨ (∃ d, s.Taken d c) ∨ s.ready c = true

/-- The invariant of the runs without time-outs. -/
structure Inv (s : State ι) : Prop where
  right : Right s
  mutex : s.mutex.Inv
  asleep : ∀ c, s.pc c = .asleep → s.mutex.pc c = .out
  unlocking : ∀ c, s.pc c = .unlocking → s.mutex.pc c ≠ .waiting
  waking : ∀ c ws, s.pc c = .waking ws → ws.Nodup

omit [DecidableEq ι] in
theorem init_inv : Inv (init : State ι) := by
  refine ⟨⟨?_, List.nodup_nil, ?_, ?_, ?_, ?_⟩, Mutex.init_inv, ?_, ?_, ?_⟩ <;>
    simp [init, Mutex.init, State.Waits, State.Taken]

omit [DecidableEq ι] in
theorem stillWaking_spec (ws : List ι) :
    stillWaking ws ≠ .unlocking ∧ stillWaking ws ≠ .asleep ∧
      ∀ vs, stillWaking ws = .waking vs → vs = ws := by
  unfold stillWaking
  split_ifs <;> simp [eq_comm]

theorem taken_iff {s : State ι} {c d x : ι} {ws : List ι} (h : s.pc c = stillWaking ws) :
    s.Taken d x ↔ if d = c then x ∈ ws else s.Taken d x := by
  split_ifs with hd
  · subst hd
    rw [State.Taken, h, stillWaking]
    split_ifs with hnil
    · simp [hnil]
    · simp
  · rfl

/-- A step at the mutex changes what it says of one coroutine, and of one that it resumes.
Kind: L -/
theorem mutex_step {m m' : Mutex ι} {c : ι} {op : MutexOp} (hinv : m.Inv)
    (h : m.step c op = some m') :
    (∀ d, d ≠ c → m.pc d ≠ .waiting → m'.pc d = m.pc d) ∧
    (op = .unlock ∨ op = .resume → m'.pc c ≠ .waiting ∧
      (m'.inside c = false → m'.pc c = .out)) := by
  have hwaking := hinv.waking
  rcases Mutex.step_cases h with ⟨rfl, -, -, rfl⟩ | ⟨rfl | rfl, -, -, rfl⟩ | ⟨rfl, -, rfl⟩ | ⟨rfl,
    -, rfl⟩ | ⟨rfl, rfl⟩ |
    ⟨rfl, hc, -, -, rfl⟩ | ⟨rfl, hc, hin, w, ws, hcons, rfl⟩ | ⟨rfl, w, hc, rfl⟩
  all_goals
    simp only [Mutex.take, update_apply]
    grind

/-- A step at the mutex does not change who waits, nor who was taken out of the list. Kind: L -/
theorem Inv.atMutex {s : State ι} {c : ι} {op : MutexOp} {m : Mutex ι} (h : Inv s)
    (hallows : (s.pc c).allows op = true)
    (hm : s.mutex.step c op = some m) :
    Inv { s with mutex := m, pc := update s.pc c ((s.pc c).behind (m.inside c)) } := by
  obtain ⟨hothers, hown⟩ := mutex_step h.mutex hm
  have hminv := Mutex.step_inv h.mutex hm
  have hwaits : ∀ d, State.Waits { s with
      mutex := m, pc := update s.pc c ((s.pc c).behind (m.inside c)) } d ↔ s.Waits d := by
    intro d
    simp only [State.Waits, update_apply]
    cases hpc : s.pc c <;> grind [Pc.behind]
  have htaken : ∀ d x, State.Taken { s with
      mutex := m, pc := update s.pc c ((s.pc c).behind (m.inside c)) } d x ↔ s.Taken d x := by
    intro d x
    simp only [State.Taken, update_apply]
    cases hpc : s.pc c <;> grind [Pc.behind, Pc.allows]
  refine ⟨⟨fun d x hd hx => hminv.unique d x (Or.inl hd) (Or.inl hx), h.right.nodup,
    ?_, ?_, ?_, ?_⟩, hminv, ?_, ?_, ?_⟩
  · simp only [hwaits, htaken]
    exact h.right.listed
  · simp only [hwaits, htaken]
    exact h.right.taken
  · simp only [hwaits]
    exact h.right.ready
  · simp only [hwaits, htaken]
    exact h.right.reached
  · have := h.asleep
    have := h.unlocking
    simp only [update_apply]
    cases hpc : s.pc c <;> grind [Pc.behind, Pc.allows]
  · have := h.unlocking
    simp only [update_apply]
    cases hpc : s.pc c <;> grind [Pc.behind, Pc.allows]
  · have := h.waking
    simp only [update_apply]
    cases hpc : s.pc c <;> grind [Pc.behind, Pc.allows]

omit [DecidableEq ι] in
/-- A coroutine outside of the operations is in no place. Kind: L -/
theorem Inv.idle {s : State ι} {c : ι} (h : Inv s) (hc : s.pc c = .idle) :
    ¬ s.Waits c ∧ c ∉ s.waiters ∧ s.ready c = false ∧ ∀ x, ¬ s.Taken c x ∧ ¬ s.Taken x c := by
  have hno : ¬ s.Waits c := by simp [State.Waits, hc]
  have hready : s.ready c = false := by
    by_contra hr
    exact hno (h.right.ready c (by simpa using hr))
  refine ⟨hno, fun hmem => hno (h.right.listed c hmem).1, hready, fun x =>
    ⟨?_, fun ht => hno (h.right.taken c x ht).1⟩⟩
  rintro ⟨ws, hws, -⟩
  rw [hc] at hws
  cases hws

theorem Inv.push {s : State ι} {c : ι} (h : Inv s) (hc : s.pc c = .idle)
    (hout : s.mutex.pc c = .out) (timed : Bool) :
    Inv { s with
      waiters := s.waiters ++ [c], pc := update s.pc c .unlocking
      timed := update s.timed c timed } := by
  obtain ⟨hno, hmem, hr, hfree⟩ := h.idle hc
  obtain ⟨⟨hone, hnodup, hlisted, htaken, hready, hreached⟩, hmutex,
    hasleep, hunlocking, hwaking⟩ := h
  set s' : State ι := { s with
    waiters := s.waiters ++ [c], pc := update s.pc c .unlocking
    timed := update s.timed c timed }
  have hwaits : ∀ x, s'.Waits x ↔ x = c ∨ s.Waits x := by
    intro x
    simp only [s', State.Waits, update_apply]
    grind
  have hsame : ∀ d x, s'.Taken d x ↔ s.Taken d x := by
    intro d x
    simp only [s', State.Taken, update_apply]
    grind
  refine ⟨⟨hone, ?_, ?_, ?_, ?_, ?_⟩, hmutex, ?_, ?_, ?_⟩
  all_goals
    simp only [hwaits, hsame, s', update_apply]
    grind

/-- A notifier takes waiters out of the list. Kind: L -/
theorem Inv.take {s : State ι} {c : ι} (h : Inv s) (hc : s.pc c = .idle)
    (n : ℕ) : Inv (s.take c n) := by
  obtain ⟨hno, -, hr, hfree⟩ := h.idle hc
  obtain ⟨⟨hone, hnodup, hlisted, htaken, hready, hreached⟩, hmutex,
    hasleep, hunlocking, hwaking⟩ := h
  have hstill := stillWaking_spec (s.waiters.take n)
  have hapart : ∀ x ∈ s.waiters.take n, x ∉ s.waiters.drop n :=
    fun x hx hx' => List.disjoint_take_drop hnodup (Nat.le_refl n) hx hx'
  have hmem : ∀ x, x ∈ s.waiters ↔ x ∈ s.waiters.take n ∨ x ∈ s.waiters.drop n := by
    intro x
    rw [← List.mem_append, List.take_append_drop]
  have hwaits : ∀ x, (s.take c n).Waits x ↔ s.Waits x := by
    intro x
    simp only [State.Waits, State.take_pc, update_apply]
    grind
  have hsame : ∀ d x, (s.take c n).Taken d x ↔ (d = c ∧ x ∈ s.waiters.take n) ∨ s.Taken d x := by
    intro d x
    rw [taken_iff (update_self c _ _)]
    split_ifs with hd
    · grind
    · simp [State.Taken, hd]
  refine ⟨⟨hone, hnodup.sublist (List.drop_sublist _ _), ?_, ?_, ?_, ?_⟩, hmutex, ?_, ?_, ?_⟩
  all_goals
    simp only [hwaits, hsame, State.take_waiters, State.take_pc, State.take_ready,
      State.take_mutex, update_apply]
    grind

theorem Inv.resume {s : State ι} {c w : ι} {ws : List ι} (h : Inv s)
    (hc : s.pc c = .waking (w :: ws)) :
    Inv { s with pc := update s.pc c (stillWaking ws), ready := update s.ready w true } := by
  obtain ⟨⟨hone, hnodup, hlisted, htaken, hready, hreached⟩, hmutex,
    hasleep, hunlocking, hwaking⟩ := h
  set s' : State ι :=
    { s with pc := update s.pc c (stillWaking ws), ready := update s.ready w true }
  have hstill := stillWaking_spec ws
  obtain ⟨hw, hws⟩ := List.nodup_cons.mp (hwaking c _ hc)
  have hfirst : s.Taken c w := ⟨_, hc, List.mem_cons_self⟩
  have hwaits : ∀ x, s'.Waits x ↔ s.Waits x := by
    intro x
    simp only [s', State.Waits, update_apply]
    grind
  have hsame : ∀ d x, s'.Taken d x ↔ s.Taken d x ∧ x ≠ w := by
    intro d x
    have hold : s.Taken c x ↔ x = w ∨ x ∈ ws := by
      simp [State.Taken, hc]
    rw [taken_iff (update_self c _ _)]
    split_ifs with hd
    · grind
    · have hother : s'.Taken d x ↔ s.Taken d x := by
        simp only [State.Taken, s', update_of_ne hd]
      rw [hother]
      refine ⟨fun ht => ⟨ht, ?_⟩, And.left⟩
      rintro rfl
      exact hd ((htaken x c hfirst).2.2 d ht)
  refine ⟨⟨hone, hnodup, ?_, ?_, ?_, ?_⟩, hmutex, ?_, ?_, ?_⟩
  all_goals
    simp only [hwaits, hsame, s', update_apply]
    grind

/-- A coroutine that was resumed goes on. Kind: L -/
theorem Inv.proceed {s : State ι} {c : ι} (h : Inv s) (hr : s.ready c = true)
    (hc : s.pc c = .asleep) :
    Inv { s with pc := update s.pc c .relocking, ready := update s.ready c false } := by
  obtain ⟨⟨hone, hnodup, hlisted, htaken, hready, hreached⟩, hmutex,
    hasleep, hunlocking, hwaking⟩ := h
  set s' : State ι := { s with pc := update s.pc c .relocking, ready := update s.ready c false }
  have hwaits : ∀ x, s'.Waits x ↔ s.Waits x ∧ x ≠ c := by
    intro x
    simp only [s', State.Waits, update_apply]
    grind
  have hsame : ∀ d x, s'.Taken d x ↔ s.Taken d x := by
    intro d x
    simp only [s', State.Taken, update_apply]
    grind
  refine ⟨⟨hone, hnodup, ?_, ?_, ?_, ?_⟩, hmutex, ?_, ?_, ?_⟩
  all_goals
    simp only [hwaits, hsame, s', update_apply]
    grind

/-- **Each step but a time-out keeps the invariant.** Kind: P -/
theorem step_inv (s : State ι) (e : ι × Op) (s' : State ι) (hinv : Inv s) (he : e.2 ≠ .timeout)
    (h : step s e = some s') : Inv s' := by
  obtain ⟨c, op⟩ := e
  unfold step at h
  cases op with
  | mutex op =>
      dsimp only at h
      split_ifs at h with hallows
      obtain ⟨m, hm, rfl⟩ := Option.map_eq_some_iff.mp h
      exact hinv.atMutex hallows hm
  | wait timed =>
      cases hpc : s.pc c <;> simp only [hpc, reduceCtorEq] at h
      split_ifs at h with hin
      cases h
      exact hinv.push hpc hin.1 timed
  | timeout => exact absurd rfl he
  | notify | notifyAll =>
      cases hpc : s.pc c <;> simp only [hpc, reduceCtorEq] at h
      split_ifs at h
      cases h
      exact hinv.take hpc _
  | resume =>
      rcases hpc : s.pc c with _ | _ | _ | _ | _ | ⟨w, ws⟩ <;> simp only [hpc, reduceCtorEq] at h
      cases h
      exact hinv.resume hpc
  | proceed =>
      dsimp only at h
      split_ifs at h with hasleep hwaiting
      · cases h
        exact hinv.proceed hasleep.1 hasleep.2
      · -- who was resumed waits at the condition variable, and not for the mutex
        exfalso
        rcases hinv.right.ready _ hwaiting.1 with hunlocking | hasleep
        · exact hinv.unlocking _ hunlocking hwaiting.2
        · cases (hinv.asleep _ hasleep).symm.trans hwaiting.2

/-- A coroutine whose time is over stays where it was. Kind: L -/
theorem step_timeout (s : State ι) (e : ι × Op) (s' : State ι) (hinv : Inv s)
    (he : ¬ e.2 ≠ .timeout)
    (h : step s e = some s') : ¬ Right s' := by
  obtain ⟨c, op⟩ := e
  obtain rfl := not_not.mp he
  intro hright
  cases hpc : s.pc c <;> simp only [step, hpc, reduceCtorEq] at h
  split_ifs at h
  cases h
  have hgone : ¬ State.Waits { s with pc := update s.pc c .relocking } c := by
    simp [State.Waits]
  rcases hinv.right.reached c (Or.inr hpc) with hmem | ⟨d, ws, hd, hmem⟩ | hready
  · exact hgone (hright.listed c hmem).1
  · have hne : d ≠ c := by
      rintro rfl
      rw [hpc] at hd
      cases hd
    exact hgone (hright.taken c d ⟨ws, (update_of_ne hne _ _).trans hd, hmem⟩).1
  · exact hgone (hright.ready c hready)

/-- **In every state of a run at most one coroutine holds the mutex and who waits is in one place,
if and only if no wait ends by its time.** Kind: P -/
theorem right_iff_noTimeout (ops : List (ι × Op)) :
    (∀ pre s, pre <+: ops → run step init pre = some s → Right s) ↔
      AllMeet step (fun _ e => e.2 ≠ .timeout) init ops :=
  run_property_iff (fun _ h => h.right) step_inv step_timeout ops init init_inv

/-- 0 waits, its time is over, and it waits for the mutex, which 1 holds. The notification of 1
resumes it there, and it goes on without the mutex. -/
def timedOut : List (ℕ × Op) :=
  [(0, .mutex .lock), (0, .wait true), (0, .mutex .unlock), (0, .timeout),
    (1, .mutex .lock), (0, .mutex .lock),
    (0, .mutex .enqueue), (1, .notify), (1, .resume), (0, .proceed), (0, .mutex .proceed)]

theorem timeout_breaks_lock : ∃ s, run step init timedOut = some s ∧ s.mutex.inside 0 = true ∧
    s.mutex.inside 1 = true := by
  have hrun : (run step init timedOut).map (fun s => (s.mutex.inside 0, s.mutex.inside 1)) = some
    (true, true) := by decide
  obtain ⟨s, hs, hend⟩ := Option.map_eq_some_iff.mp hrun
  exact ⟨s, hs, (Prod.mk.inj hend).1, (Prod.mk.inj hend).2⟩

end CxyCompiler.Stdlib.Condition
