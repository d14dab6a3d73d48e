import CxyCompiler.Lib.Runs
import CxyCompiler.Stdlib.CircularBuffer
import CxyCompiler.Stdlib.CoroutineList
import Mathlib.Algebra.Order.Ring.Int

/-!
# The channel of the coroutines

`Channel` (`stdlib/coro.cxy`) has a circular buffer and one slot for a sender and one for a receiver
that waits. The coroutines take turns: one is running until it waits, and those that can go on are
in the list `ready` of the scheduler, in the order in which they were resumed.

* `step` — one turn of the running coroutine at the channel, a resumption, or the next coroutine of
  `ready`.
* `Delivered` — **what was sent and not yet received is what the buffer contains**, in this order.
* `Kept` — a value is put into a buffer that has an element for it, and a sender that goes on after
  it waited finds room.
* `delivered_iff` — **every state of a run is one where all was delivered exactly where each step is
  `Kept`**. `sent_value_lost` is a run where one is not.
-/

namespace CxyCompiler.Stdlib.Channel

open CxyCompiler.Lib.Runs CoroutineList Function

variable {ι T : Type}

/-! ## The scheduler and the channel -/

/-- Where a coroutine is: outside of the channel, or waiting in `send` with its value, or in
`receive`. -/
inductive Pc (T : Type) where
  | out
  | sending (x : T)
  | receiving

/-- The scheduler, the channel, where each coroutine is, the values of the sends that have returned
and those that were received. There is no buffer any more after an access outside of its block.
Source: `coro.cxy` `CoroutineScheduler`, `Coroutine`, `Channel` -/
structure State (ι T : Type) where
  link : ι → Option ι
  ready : Queue ι
  flag : ι → Bool
  running : Option ι
  started : ι → Bool
  buffer : Option (CircularBuffer T)
  sender : Option ι
  receiver : Option ι
  pc : ι → Pc T
  sent : List T
  received : List T

/-- What the running coroutine does: at the channel, or to wait for its turn or for something else,
or to start another one; the next of the list goes on; or a coroutine is resumed from elsewhere. -/
inductive Event (ι T : Type) where
  | send (x : T)
  | receive
  | yld
  | suspend
  | spawn (c : ι)
  | next
  | resume (c : ι)

variable [DecidableEq ι]

/-- A channel of the capacity `n` before any step of the coroutine `main`.
Source: `coro.cxy` `CoroutineScheduler.init`, `Channel.init` -/
def init (n : ℤ) (main : ι) : State ι T where
  link := fun _ => none
  ready := CoroutineList.empty
  flag := fun _ => false
  running := some main
  started := update (fun _ => false) main true
  buffer := CircularBuffer.init n
  sender := none
  receiver := none
  pc := fun _ => .out
  sent := []
  received := []

/-- Source: `coro.cxy` `CoroutineScheduler.resume`. -/
def resume (s : State ι T) (c : ι) : Option (State ι T) :=
  (push s.link s.ready c).map fun r =>
    { s with link := r.1, ready := r.2, flag := update s.flag c true }

def resumeIfAny (s : State ι T) : Option ι → Option (State ι T)
  | none => some s
  | some c => resume s c

/-- The second half of a send; a value that the buffer does not take is discarded.
Source: `coro.cxy` `Channel.send` -/
def finishSend (s : State ι T) (x : T) : Option (State ι T) :=
  resumeIfAny
    { s with
      buffer := s.buffer.bind fun buffer => (buffer.push x).map Prod.fst
      sent := s.sent ++ [x] }
    s.receiver

/-- The value that `receive` returns is received. -/
def taken (s : State ι T) : Option (CircularBuffer T × CircularBuffer.Outcome T) → State ι T
  | none => { s with buffer := none }
  | some (buffer, .value x) => { s with buffer := some buffer, received := s.received ++ x.toList }
  | some (buffer, _) => { s with buffer := some buffer }

/-- The second half of a receive. Source: `coro.cxy` `Channel.receive`. -/
def finishReceive (s : State ι T) : Option (State ι T) :=
  (resumeIfAny s s.sender).map fun s => taken s (s.buffer.bind CircularBuffer.pop)

/-- The coroutine goes on where it waited. Source: `coro.cxy` `Channel.send`, `Channel.receive`. -/
def goOn (s : State ι T) (c : ι) : Option (State ι T) :=
  match s.pc c with
  | .out => some s
  | .sending x => finishSend { s with sender := none, pc := update s.pc c .out } x
  | .receiving => finishReceive { s with receiver := none, pc := update s.pc c .out }

/-- No step is possible where an assertion fails, and at the channel where there is no buffer any
more. Source: `coro.cxy` `Channel.send`, `Channel.receive`,
`CoroutineScheduler.yld`, `suspend`, `prologue` -/
def step (s : State ι T) : Event ι T → Option (State ι T)
  | .send x =>
      s.running.bind fun r => s.buffer.bind fun buffer =>
        if buffer.size = buffer.capacity then
          some { s with sender := some r, pc := update s.pc r (.sending x), running := none }
        else finishSend s x
  | .receive =>
      s.running.bind fun r => s.buffer.bind fun buffer =>
        if buffer.size = 0 then
          some { s with receiver := some r, pc := update s.pc r .receiving, running := none }
        else finishReceive s
  | .yld => s.running.bind fun r => (resume s r).map fun s => { s with running := none }
  | .suspend => s.running.map fun _ => { s with running := none }
  | .spawn c =>
      s.running.bind fun r =>
        if s.started c then none
        else (resume s r).map fun s =>
          { s with running := some c, started := update s.started c true }
  | .next =>
      if s.running.isSome then none
      else
        match pop s.link s.ready with
        | (none, _) => none
        | (some c, link, ready) =>
            if s.flag c then
              goOn { s with
                link := link, ready := ready, flag := update s.flag c false, running := some c } c
            else none
  | .resume c => if s.started c then resume s c else none

/-! ## Delivery -/

/-- The elements of the buffer, the oldest first. -/
def contents (buffer : CircularBuffer T) : List T :=
  (List.range buffer.size).filterMap fun k : ℕ =>
    (buffer.buffer[(buffer.head + k) % buffer.capacity]?).join

/-- **What was sent and not yet received is what the buffer contains.** -/
def Delivered (s : State ι T) : Prop :=
  ∃ buffer, s.buffer = some buffer ∧ s.sent = s.received ++ contents buffer

/-- A buffer has an element for a value that is put into it, and a sender that goes on after it
waited finds room. -/
def Kept (n : ℤ) (s : State ι T) : Event ι T → Prop
  | .send _ => ∀ buffer, s.buffer = some buffer → buffer.size ≠ buffer.capacity → 0 < n
  | .next => ∀ buffer c x, s.buffer = some buffer → s.ready.head = some c → s.pc c = .sending x →
      buffer.size ≠ buffer.capacity ∧ 0 < n
  | _ => True

/-! ## The invariant -/

section Invariant

variable {n : ℤ} {s s' t : State ι T} {x : T} {c : ι}

def Inv (n : ℤ) (s : State ι T) : Prop :=
  ∃ buffer q, s.buffer = some buffer ∧ buffer.Holds n q ∧ s.sent = s.received ++ q

/-- Two states agree on the values. -/
structure Same (s t : State ι T) : Prop where
  buffer : t.buffer = s.buffer
  sent : t.sent = s.sent
  received : t.received = s.received

omit [DecidableEq ι] in
theorem Inv.of_same (h : Inv n s) (hsame : Same s t) : Inv n t := by
  obtain ⟨buffer, q, hbuffer, hholds, hsent⟩ := h
  exact ⟨buffer, q, hsame.buffer.trans hbuffer, hholds, by rw [hsame.sent, hsame.received, hsent]⟩

omit [DecidableEq ι] in
theorem Delivered.of_same (h : Delivered t) (hsame : Same s t) : Delivered s := by
  obtain ⟨buffer, hbuffer, hsent⟩ := h
  exact ⟨buffer, hsame.buffer.symm.trans hbuffer, by rw [← hsame.sent, ← hsame.received, hsent]⟩

theorem contents_of_holds {buffer : CircularBuffer T} {q : List T} (h : buffer.Holds n q) :
    contents buffer = q := by
  unfold contents
  rw [h.size, h.head, h.capacity]
  rcases h.oldest with rfl | ⟨x, rfl, hx⟩
  · rfl
  · simp [hx]

omit [DecidableEq ι] in
theorem Inv.delivered (h : Inv n s) : Delivered s := by
  obtain ⟨buffer, q, hbuffer, hholds, hsent⟩ := h
  exact ⟨buffer, hbuffer, by rw [contents_of_holds hholds, hsent]⟩

/-! ## Resumptions -/

/-- A resumption does not touch the values. Kind: L -/
theorem resume_same (h : resume s c = some t) : Same s t := by
  obtain ⟨r, -, rfl⟩ := Option.map_eq_some_iff.mp h
  exact ⟨rfl, rfl, rfl⟩

theorem resumeIfAny_same {o : Option ι} (h : resumeIfAny s o = some t) : Same s t := by
  cases o with
  | none =>
      obtain rfl := Option.some.inj h
      exact ⟨rfl, rfl, rfl⟩
  | some c => exact resume_same h

/-! ## The two operations -/

/-- **A value that finds room is queued.** Kind: L -/
theorem finishSend_inv {buffer : CircularBuffer T} (h : Inv n s) (hbuffer : s.buffer = some buffer)
    (hroom : buffer.size ≠ buffer.capacity) (hn : 0 < n)
      (hstep : finishSend s x = some t) : Inv n t := by
  obtain ⟨buffer', q, hbuffer', hholds, hsent⟩ := h
  obtain rfl : buffer = buffer' := Option.some.inj (hbuffer.symm.trans hbuffer')
  have hempty : q = [] := by
    rcases hholds.oldest with hnil | ⟨y, rfl, -⟩
    · exact hnil
    · exact absurd (hholds.size.trans hholds.capacity.symm) hroom
  subst hempty
  obtain ⟨pushed, hpush, hpushed⟩ :=
    @CircularBuffer.push_fits T n 1 buffer [] hholds Nat.one_pos x (.inl ⟨rfl, hn⟩)
  refine Inv.of_same ⟨pushed, [x], ?_, hpushed, ?_⟩ (resumeIfAny_same hstep)
  · change (s.buffer.bind fun buffer => (buffer.push x).map Prod.fst) = some pushed
    rw [hbuffer, Option.bind_some, hpush, Option.map_some]
  · change s.sent ++ [x] = s.received ++ [x]
    rw [hsent, List.append_nil]

/-- **A value that finds no room is lost**, and one that finds no element is written elsewhere.
Kind: L -/
theorem finishSend_lost {buffer : CircularBuffer T} (h : Inv n s) (hbuffer : s.buffer = some buffer)
    (hno : ¬ (buffer.size ≠ buffer.capacity ∧ 0 < n))
      (hstep : finishSend s x = some t) : ¬ Delivered t := by
  obtain ⟨buffer', q, hbuffer', hholds, hsent⟩ := h
  obtain rfl : buffer = buffer' := Option.some.inj (hbuffer.symm.trans hbuffer')
  intro hdelivered
  obtain ⟨after, hafter, hall⟩ := hdelivered.of_same (resumeIfAny_same hstep)
  change (s.buffer.bind fun buffer => (buffer.push x).map Prod.fst) = some after at hafter
  change s.sent ++ [x] = s.received ++ contents after at hall
  rw [hbuffer, Option.bind_some, CircularBuffer.push] at hafter
  by_cases hfull : buffer.size = buffer.capacity
  · rw [if_pos hfull] at hafter
    obtain rfl : buffer = after := Option.some.inj hafter
    rw [contents_of_holds hholds, hsent] at hall
    have hlength := congrArg List.length hall
    simp at hlength
  · have hn : ¬ 0 < n := fun hn => hno ⟨hfull, hn⟩
    have hlen := hholds.length
    rw [if_neg hfull, hholds.tail, if_neg (by omega)] at hafter
    cases hafter

/-- **A value that is received is the oldest one.** Kind: L -/
theorem finishReceive_inv (h : Inv n s) (hstep : finishReceive s = some t) : Inv n t := by
  obtain ⟨r, hresume, rfl⟩ := Option.map_eq_some_iff.mp hstep
  obtain ⟨buffer, q, hbuffer, hholds, hsent⟩ := h.of_same (resumeIfAny_same hresume)
  obtain ⟨popped, hpop, hpopped⟩ := @CircularBuffer.pop_spec T n 1 buffer q hholds
  rw [hbuffer, Option.bind_some, hpop]
  cases q with
  | nil => exact ⟨popped, [], rfl, hpopped, hsent⟩
  | cons y q =>
      refine ⟨popped, q, rfl, hpopped, ?_⟩
      change r.sent = (r.received ++ [y]) ++ q
      rw [hsent, List.append_assoc]
      rfl

/-! ## The steps -/

theorem goOn_inv (h : Inv n s) (hstep : goOn s c = some t)
    (hkept : ∀ buffer x, s.buffer = some buffer → s.pc c = .sending x →
      buffer.size ≠ buffer.capacity ∧ 0 < n) : Inv n t := by
  unfold goOn at hstep
  cases hpc : s.pc c with
  | out =>
      rw [hpc] at hstep
      obtain rfl := Option.some.inj hstep
      exact h
  | sending x =>
      rw [hpc] at hstep
      obtain ⟨buffer, q, hbuffer, hholds, hsent⟩ := h
      obtain ⟨hroom, hn⟩ := hkept buffer x hbuffer hpc
      refine finishSend_inv ?_ ?_ hroom hn hstep
      · exact ⟨buffer, q, hbuffer, hholds, hsent⟩
      · exact hbuffer
  | receiving =>
      rw [hpc] at hstep
      refine finishReceive_inv ?_ hstep
      exact h.of_same ⟨rfl, rfl, rfl⟩

theorem goOn_lost {buffer : CircularBuffer T} (h : Inv n s) (hpc : s.pc c = .sending x)
    (hbuffer : s.buffer = some buffer) (hno : ¬ (buffer.size ≠ buffer.capacity ∧ 0 < n))
    (hstep : goOn s c = some t) : ¬ Delivered t := by
  unfold goOn at hstep
  rw [hpc] at hstep
  refine finishSend_lost ?_ ?_ hno hstep
  · exact h.of_same ⟨rfl, rfl, rfl⟩
  · exact hbuffer

/-- The first coroutine of the list goes on. Kind: L -/
theorem next_cases (h : step s .next = some t) :
    ∃ c s', s.ready.head = some c ∧ Same s s' ∧ s'.pc = s.pc ∧ goOn s' c = some t := by
  unfold step pop at h
  split_ifs at h with hrunning
  cases hhead : s.ready.head with
  | none =>
      rw [hhead] at h
      cases h
  | some c =>
      rw [hhead] at h
      dsimp only at h
      by_cases hflag : s.flag c = true
      · rw [if_pos hflag] at h
        refine ⟨c, _, rfl, ?_, ?_, h⟩
        · exact ⟨rfl, rfl, rfl⟩
        · rfl
      · rw [if_neg hflag] at h
        cases h

/-- **A step that is kept delivers.** Kind: P -/
theorem step_inv (s : State ι T) (e : Event ι T) (t : State ι T) (h : Inv n s) (hkept : Kept n s e)
    (hstep : step s e = some t) : Inv n t := by
  cases e with
  | send x =>
      obtain ⟨r, -, hstep⟩ := Option.bind_eq_some_iff.mp hstep
      obtain ⟨buffer, hbuffer, hstep⟩ := Option.bind_eq_some_iff.mp hstep
      split_ifs at hstep with hfull
      · obtain rfl := Option.some.inj hstep
        exact h.of_same ⟨rfl, rfl, rfl⟩
      · exact finishSend_inv h hbuffer hfull (hkept buffer hbuffer hfull) hstep
  | receive =>
      obtain ⟨r, -, hstep⟩ := Option.bind_eq_some_iff.mp hstep
      obtain ⟨buffer, hbuffer, hstep⟩ := Option.bind_eq_some_iff.mp hstep
      split_ifs at hstep with hempty
      · obtain rfl := Option.some.inj hstep
        exact h.of_same ⟨rfl, rfl, rfl⟩
      · exact finishReceive_inv h hstep
  | yld =>
      obtain ⟨r, -, hstep⟩ := Option.bind_eq_some_iff.mp hstep
      obtain ⟨s', hresume, rfl⟩ := Option.map_eq_some_iff.mp hstep
      exact (h.of_same (resume_same hresume)).of_same ⟨rfl, rfl, rfl⟩
  | suspend =>
      obtain ⟨r, -, rfl⟩ := Option.map_eq_some_iff.mp hstep
      exact h.of_same ⟨rfl, rfl, rfl⟩
  | spawn c =>
      obtain ⟨r, -, hstep⟩ := Option.bind_eq_some_iff.mp hstep
      split_ifs at hstep with hstarted
      obtain ⟨s', hresume, rfl⟩ := Option.map_eq_some_iff.mp hstep
      exact (h.of_same (resume_same hresume)).of_same ⟨rfl, rfl, rfl⟩
  | next =>
      obtain ⟨c, s', hhead, hsame, hpc, hgo⟩ := next_cases hstep
      refine goOn_inv (h.of_same hsame) hgo fun buffer x hbuffer hsending => ?_
      exact hkept buffer c x (hsame.buffer ▸ hbuffer) hhead (hpc ▸ hsending)
  | resume c =>
      change (if s.started c then resume s c else none) = some t at hstep
      split_ifs at hstep with hstarted
      exact h.of_same (resume_same hstep)

/-- **A step that is not kept loses a value.** Kind: P -/
theorem step_lost (s : State ι T) (e : Event ι T) (t : State ι T) (h : Inv n s)
    (hkept : ¬ Kept n s e)
    (hstep : step s e = some t) : ¬ Delivered t := by
  cases e with
  | send x =>
      unfold Kept at hkept
      push Not at hkept
      obtain ⟨buffer, hbuffer, hroom, hn⟩ := hkept
      obtain ⟨r, -, hstep⟩ := Option.bind_eq_some_iff.mp hstep
      rw [hbuffer, Option.bind_some, if_neg hroom] at hstep
      exact finishSend_lost h hbuffer (fun hand => absurd hand.2 (Int.not_lt.mpr hn)) hstep
  | next =>
      unfold Kept at hkept
      push Not at hkept
      obtain ⟨buffer, c, x, hbuffer, hhead, hpc, hno⟩ := hkept
      obtain ⟨c', s', hhead', hsame, hpc', hgo⟩ := next_cases hstep
      obtain rfl : c = c' := Option.some.inj (hhead.symm.trans hhead')
      refine goOn_lost (h.of_same hsame) (hpc' ▸ hpc) (hsame.buffer.trans hbuffer)
        (fun hand => ?_) hgo
      exact absurd hand.2 (Int.not_lt.mpr (hno hand.1))
  | receive => exact absurd trivial hkept
  | yld => exact absurd trivial hkept
  | suspend => exact absurd trivial hkept
  | spawn c => exact absurd trivial hkept
  | resume c => exact absurd trivial hkept

theorem init_inv (hn : 0 ≤ n) (main : ι) : Inv n (init n main : State ι T) := by
  obtain ⟨buffer, hinit, hholds⟩ := @CircularBuffer.init_holds T n hn
  exact ⟨buffer, [], hinit, hholds, rfl⟩

theorem nonneg_of_delivered {main : ι} (h : Delivered (init n main : State ι T)) : 0 ≤ n := by
  obtain ⟨buffer, hbuffer, -⟩ := h
  by_contra hn
  change CircularBuffer.init n = some buffer at hbuffer
  rw [CircularBuffer.init, CircularBuffer.calloc, if_pos (Int.not_le.mp hn)] at hbuffer
  cases hbuffer

end Invariant

/-! ## The runs -/

/-- **What was sent and not yet received is in the buffer, in every state of a run**, exactly where
the channel has no negative capacity and each step of the run is kept. Kind: P -/
theorem delivered_iff (n : ℤ) (main : ι) (events : List (Event ι T)) :
    (∀ pre s, pre <+: events → run step (init n main) pre = some s → Delivered s) ↔
      0 ≤ n ∧ AllMeet step (Kept n) (init n main) events := by
  constructor
  · intro h
    have hn : 0 ≤ n := nonneg_of_delivered (h [] (init n main) (List.nil_prefix) rfl)
    refine ⟨hn, ?_⟩
    exact (run_property_iff (fun _ => Inv.delivered) step_inv step_lost events _
      (init_inv hn main)).mp h
  · rintro ⟨hn, hall⟩
    exact (run_property_iff (fun _ => Inv.delivered) step_inv step_lost events _
      (init_inv hn main)).mpr hall

/-- Coroutine 1 fills the channel and waits in a second `send`. Coroutine 0 receives and resumes it,
but sends a value itself before it has to wait for its turn. -/
def overtaken : List (Event ℕ ℕ) :=
  [.spawn 1, .send 10, .send 20, .next, .receive, .send 30, .yld, .next]

/-- **The value 20 is lost**: its `send` returns, and the buffer has no room. Kind: P -/
theorem sent_value_lost : ∃ s, run step (init 1 0) overtaken = some s ∧ ¬ Delivered s := by
  refine ⟨_, rfl, ?_⟩
  rintro ⟨buffer, hbuffer, hsent⟩
  obtain rfl := Option.some.inj hbuffer
  revert hsent
  decide

end CxyCompiler.Stdlib.Channel
