import CxyCompiler.Lib.Loop
import Mathlib.Data.Int.Notation

/-!
# The circular buffer of the standard library (`stdlib/buffer.cxy`)

A block of elements with the indices of its oldest element and of the next free one. An access
outside of the block has the result `none`, and so has the creation of a block of a negative size.

* `init`, `push`, `pop`, `peek`, `deinitRound` — the operations. `this._capacity = _capacity ?: 1`
  reads the field that it sets, which is zero in a new object: the capacity is 1.
* `specStep`, `specRun` — **a queue of at most `m` elements**, and the outcomes of its operations.
* `Conforms` — a run with the outcomes of the queue, and a destruction that releases what is queued.
* `Fits` — every push finds the queue empty, with a block that has an element, or full.
* `conforms_iff` — **the exact runs that conform**; `second_push_raises` is one that does not.
-/

namespace CxyCompiler.Stdlib

open CxyCompiler.Lib.Loop

/-- Source: `buffer.cxy` `CircularBuffer`. -/
structure CircularBuffer (T : Type) where
  buffer : List (Option T)
  capacity : ℕ
  head : ℕ
  tail : ℕ
  size : ℕ

namespace CircularBuffer

variable {T : Type}

/-- The object before its `init` is called: its memory is zeroed. -/
def zeroed : CircularBuffer T := { buffer := [], capacity := 0, head := 0, tail := 0, size := 0 }

/-- `x ?: y`. -/
def elvis (x y : ℕ) : ℕ := if x = 0 then y else x

/-- A block of a negative size is more than `malloc` has, and `memset` is called on null. Source:
`builtins.cxy` `__calloc`. -/
def calloc (capacity : ℤ) : Option (List (Option T)) :=
  if capacity < 0 then none else some (List.replicate capacity.toNat none)

/-- Source: `buffer.cxy` `CircularBuffer.init`. -/
def init (capacity : ℤ) : Option (CircularBuffer T) :=
  (calloc capacity).map fun block =>
    { (zeroed : CircularBuffer T) with
      capacity := elvis (zeroed : CircularBuffer T).capacity 1, buffer := block }

inductive Op (T : Type) where
  | push (value : T)
  | pop
  | peek

/-- What a caller sees. -/
inductive Outcome (T : Type) where
  | raised
  | done
  | value (x : Option T)
  | null

/-- Source: `buffer.cxy` `CircularBuffer.push`. -/
def push (s : CircularBuffer T) (value : T) : Option (CircularBuffer T × Outcome T) :=
  if s.size = s.capacity then some (s, .raised)
  else if s.tail < s.buffer.length then
    some ({ s with
      buffer := s.buffer.set s.tail (some value)
      tail := (s.tail + 1) % s.capacity
      size := s.size + 1 }, .done)
  else none

/-- The value is moved out of the block. Source: `buffer.cxy` `CircularBuffer.pop`. -/
def pop (s : CircularBuffer T) : Option (CircularBuffer T × Outcome T) :=
  if s.size = 0 then some (s, .raised)
  else
    (s.buffer[s.head]?).map fun value =>
      ({ s with
        buffer := s.buffer.set s.head none
        head := (s.head + 1) % s.capacity
        size := s.size - 1 }, .value value)

/-- Source: `buffer.cxy` `CircularBuffer.peek`. -/
def peek (s : CircularBuffer T) : Option (CircularBuffer T × Outcome T) :=
  if s.size = 0 then some (s, .null) else (s.buffer[s.head]?).map fun value => (s, .value value)

/-- A round of the loop that releases the elements. Source: `buffer.cxy` `CircularBuffer.deinit`. -/
def deinitRound (s : CircularBuffer T × List T) : Option (List T ⊕ CircularBuffer T × List T) :=
  if s.1.head ≠ s.1.tail then
    (s.1.buffer[s.1.head]?).map fun value =>
      .inr ({ s.1 with head := (s.1.head + 1) % s.1.capacity }, s.2 ++ value.toList)
  else some (.inl s.2)

/-- Elements without a destructor are not released. Source: `buffer.cxy` `CircularBuffer.deinit`. -/
def Releases (destructible : Bool) (s : CircularBuffer T) (released : List T) : Prop :=
  if destructible then Leaves deinitRound (s, []) released else released = []

def step (s : CircularBuffer T) : Op T → Option (CircularBuffer T × Outcome T)
  | .push value => push s value
  | .pop => pop s
  | .peek => peek s

def run : CircularBuffer T → List (Op T) → Option (CircularBuffer T × List (Outcome T))
  | s, [] => some (s, [])
  | s, op :: ops => do
      let (s, outcome) ← step s op
      let (s, outcomes) ← run s ops
      some (s, outcome :: outcomes)

/-! ## The queue -/

/-- **A queue of at most `m` elements**, the oldest first. -/
def specStep (m : ℕ) (q : List T) : Op T → List T × Outcome T
  | .push value => if q.length = m then (q, .raised) else (q ++ [value], .done)
  | .pop =>
      match q with
      | [] => ([], .raised)
      | x :: q => (q, .value (some x))
  | .peek =>
      match q with
      | [] => ([], .null)
      | x :: q => (x :: q, .value (some x))

def specRun (m : ℕ) : List T → List (Op T) → List T × List (Outcome T)
  | q, [] => (q, [])
  | q, op :: ops =>
      let (q, outcome) := specStep m q op
      let (q, outcomes) := specRun m q ops
      (q, outcome :: outcomes)

/-- The run has the outcomes of the queue, and a destruction releases what is queued. -/
def Conforms (n : ℤ) (destructible : Bool) (ops : List (Op T)) : Prop :=
  ∃ s s' : CircularBuffer T, init n = some s ∧
    run s ops = some (s', (specRun (max n 1).toNat [] ops).2) ∧
    ∃ released, Releases destructible s' released ∧
      released = if destructible then (specRun (max n 1).toNat [] ops).1 else []

/-- A push finds the queue empty, and there is an element to write, or full. -/
def FitsStep (n : ℤ) (m : ℕ) (q : List T) : Op T → Prop
  | .push _ => q = [] ∧ 0 < n ∨ q.length = m
  | _ => True

/-- Every push finds the queue so. -/
def Fits (n : ℤ) (m : ℕ) : List T → List (Op T) → Prop
  | _, [] => True
  | q, op :: ops => FitsStep n m q op ∧ Fits n m (specStep m q op).1 ops

/-! ## The runs that conform -/

/-- The buffer holds the queue, which has one element at most. -/
structure Holds (n : ℤ) (s : CircularBuffer T) (q : List T) : Prop where
  capacity : s.capacity = 1
  head : s.head = 0
  tail : s.tail = 0
  size : s.size = q.length
  length : s.buffer.length = n.toNat
  oldest : q = [] ∨ ∃ x, q = [x] ∧ s.buffer[0]? = some (some x)

variable {n : ℤ} {m : ℕ} {s : CircularBuffer T} {q : List T}

/-- A push that fits has the outcome of the queue. Kind: L -/
theorem push_fits (h : Holds n s q) (hm : 0 < m) {value : T} (hfit : FitsStep n m q (.push value)) :
    ∃ s', push s value = some (s', (specStep m q (.push value)).2) ∧
      Holds n s' (specStep m q (.push value)).1 := by
  obtain ⟨hcap, hhead, htail, hsize, hlen, hold⟩ := h
  rcases hold with rfl | ⟨x, rfl, hx⟩
  · have hempty : ¬ ([] : List T).length = m := by
      rw [List.length_nil]
      omega
    have hpos : 0 < n := by
      rcases hfit with ⟨-, hpos⟩ | hfull
      · exact hpos
      · exact absurd hfull hempty
    have hroom : ¬ s.size = s.capacity := by
      rw [hsize, hcap]
      simp
    rw [specStep, if_neg hempty, push, if_neg hroom, htail, hlen, if_pos (by omega)]
    refine ⟨_, rfl, hcap, hhead, ?_, ?_, ?_, Or.inr ⟨value, rfl, ?_⟩⟩
    · simp [hcap]
    · simp [hsize]
    · simp [hlen]
    · rw [List.getElem?_set_self (by omega)]
  · have hfull : s.size = s.capacity := by
      rw [hsize, hcap]
      rfl
    have hone : [x].length = m := by
      rcases hfit with ⟨hnil, -⟩ | hone
      · cases hnil
      · exact hone
    rw [specStep, if_pos hone, push, if_pos hfull]
    exact ⟨s, rfl, hcap, hhead, htail, hsize, hlen, Or.inr ⟨x, rfl, hx⟩⟩

/-- A push that does not fit has another outcome: it raises, or it writes behind the block.
Kind: L -/
theorem push_unfit (h : Holds n s q) (hm : 0 < m) {value : T}
    (hfit : ¬ FitsStep n m q (.push value))
    (s' : CircularBuffer T) : push s value ≠ some (s', (specStep m q (.push value)).2) := by
  obtain ⟨hcap, hhead, htail, hsize, hlen, hold⟩ := h
  unfold FitsStep at hfit
  push Not at hfit
  rw [specStep, if_neg hfit.2]
  rcases hold with rfl | ⟨x, rfl, hx⟩
  · have hroom : ¬ s.size = s.capacity := by
      rw [hsize, hcap]
      simp
    have hn := hfit.1 rfl
    rw [push, if_neg hroom, htail, hlen, if_neg (by omega)]
    intro hdone
    cases hdone
  · have hfull : s.size = s.capacity := by
      rw [hsize, hcap]
      rfl
    rw [push, if_pos hfull]
    intro hraise
    cases hraise

/-- A `pop` has the outcome of the queue. Kind: L -/
theorem pop_spec (h : Holds n s q) :
    ∃ s', pop s = some (s', (specStep m q .pop).2) ∧ Holds n s' (specStep m q .pop).1 := by
  obtain ⟨hcap, hhead, htail, hsize, hlen, hold⟩ := h
  rcases hold with rfl | ⟨x, rfl, hx⟩
  · have hzero : s.size = 0 := hsize
    rw [pop, if_pos hzero]
    exact ⟨s, rfl, hcap, hhead, htail, hsize, hlen, Or.inl rfl⟩
  · have hne : ¬ s.size = 0 := by
      rw [hsize]
      simp
    rw [pop, if_neg hne, hhead, hx]
    refine ⟨_, rfl, hcap, ?_, htail, ?_, ?_, Or.inl rfl⟩
    · simp [hcap]
    · simp [hsize, specStep]
    · simp [hlen]

/-- A `peek` has the outcome of the queue. Kind: L -/
theorem peek_spec (h : Holds n s q) :
    ∃ s', peek s = some (s', (specStep m q .peek).2) ∧ Holds n s' (specStep m q .peek).1 := by
  have hq : (specStep m q .peek).1 = q := by
    rcases q with _ | ⟨x, q⟩ <;> rfl
  rw [hq]
  refine ⟨s, ?_, h⟩
  rcases h.oldest with rfl | ⟨x, rfl, hx⟩
  · have hzero : s.size = 0 := h.size
    rw [peek, if_pos hzero]
    rfl
  · have hne : ¬ s.size = 0 := by
      rw [h.size]
      simp
    rw [peek, if_neg hne, h.head, hx]
    rfl

/-- **An operation that fits has the outcome of the queue.** Kind: P -/
theorem step_fits (h : Holds n s q) (hm : 0 < m) {op : Op T} (hfit : FitsStep n m q op) :
    ∃ s', step s op = some (s', (specStep m q op).2) ∧ Holds n s' (specStep m q op).1 := by
  cases op with
  | push value => exact push_fits h hm hfit
  | pop => exact pop_spec h
  | peek => exact peek_spec h

/-- **One that does not fit has another.** Kind: P -/
theorem step_unfit (h : Holds n s q) (hm : 0 < m) {op : Op T} (hfit : ¬ FitsStep n m q op)
    (s' : CircularBuffer T) : step s op ≠ some (s', (specStep m q op).2) := by
  cases op with
  | push value => exact push_unfit h hm hfit s'
  | pop => exact absurd trivial hfit
  | peek => exact absurd trivial hfit

/-- **A run has the outcomes of the queue exactly where its operations fit**, and then holds what
the queue does. Kind: P -/
theorem run_iff (hm : 0 < m) (ops : List (Op T)) : ∀ {s : CircularBuffer T}
    {q : List T}, Holds n s q →
    ((∃ s', run s ops = some (s', (specRun m q ops).2)) ↔ Fits n m q ops) ∧
      ∀ s', run s ops = some (s', (specRun m q ops).2) → Holds n s' (specRun m q ops).1 := by
  induction ops with
  | nil =>
      intro s q h
      refine ⟨iff_of_true ⟨s, rfl⟩ trivial, fun s' hs' => ?_⟩
      obtain ⟨rfl, -⟩ := Prod.mk.inj (Option.some.inj hs')
      exact h
  | cons op ops ih =>
      intro s q h
      by_cases hfit : FitsStep n m q op
      · obtain ⟨s₁, hstep, h₁⟩ := step_fits h hm hfit
        have hrun : ∀ s', run s (op :: ops) = some (s', (specRun m q (op :: ops)).2) ↔
            run s₁ ops = some (s', (specRun m (specStep m q op).1 ops).2) := by
          intro s'
          rw [run, hstep]
          rcases hrest : run s₁ ops with _ | ⟨s₂, outcomes⟩
          · simp [hrest]
          · simp [hrest, specRun]
        simp only [hrun]
        obtain ⟨hiff, hholds⟩ := ih h₁
        refine ⟨?_, hholds⟩
        rw [hiff, Fits]
        exact (and_iff_right hfit).symm
      · have hno : ∀ s', run s (op :: ops) ≠ some (s', (specRun m q (op :: ops)).2) := by
          intro s' hs'
          rw [run] at hs'
          obtain ⟨⟨s₁, outcome⟩, hstep, hs'⟩ := Option.bind_eq_some_iff.mp hs'
          obtain ⟨⟨s₂, outcomes⟩, hrest, hs'⟩ := Option.bind_eq_some_iff.mp hs'
          obtain ⟨-, houts⟩ := Prod.mk.inj (Option.some.inj hs')
          obtain ⟨rfl, -⟩ := List.cons.inj houts
          exact step_unfit h hm hfit s₁ hstep
        refine ⟨iff_of_false ?_ fun hfits => hfit hfits.1, fun s' hs' => absurd hs' (hno s')⟩
        rintro ⟨s', hs'⟩
        exact hno s' hs'

/-- Nothing is released of a buffer whose indices are one. Kind: L -/
theorem releases_iff (h : Holds n s q) (destructible : Bool) (released : List T) :
    Releases destructible s released ↔ released = [] := by
  unfold Releases
  split_ifs
  · have hround : deinitRound (s, ([] : List T)) = some (.inl []) := by
      rw [deinitRound, if_neg (by rw [h.head, h.tail]; simp)]
    have hleaves := leaves_of_inl hround
    constructor
    · intro hrel
      exact leaves_unique hrel hleaves
    · rintro rfl
      exact hleaves
  · exact Iff.rfl

theorem init_holds (hn : 0 ≤ n) : ∃ s : CircularBuffer T, init n = some s ∧ Holds n s [] := by
  rw [init, calloc, if_neg (by omega)]
  exact ⟨_, rfl, rfl, rfl, rfl, rfl, by simp, Or.inl rfl⟩

/-- **The exact runs that conform**: the capacity is not negative, every push finds the queue empty,
with an element to write, or full, and the queue is empty when elements with a destructor are
destroyed. Kind: P -/
theorem conforms_iff (n : ℤ) (destructible : Bool) (ops : List (Op T)) :
    Conforms n destructible ops ↔ 0 ≤ n ∧ Fits n (max n 1).toNat [] ops ∧
      (destructible = true → (specRun (max n 1).toNat [] ops).1 = []) := by
  by_cases hn : 0 ≤ n
  · obtain ⟨s, hinit, h⟩ := init_holds (T := T) hn
    obtain ⟨hiff, hholds⟩ := run_iff (m := (max n 1).toNat) (by omega) ops h
    rw [← hiff]
    constructor
    · rintro ⟨s₀, s', hs₀, hrun, released, hrel, heq⟩
      rw [hinit] at hs₀
      obtain rfl := Option.some.inj hs₀
      refine ⟨hn, ⟨s', hrun⟩, fun hd => ?_⟩
      rw [releases_iff (hholds s' hrun)] at hrel
      rw [hrel, if_pos hd] at heq
      exact heq.symm
    · rintro ⟨-, ⟨s', hrun⟩, hempty⟩
      refine ⟨s, s', hinit, hrun, [], (releases_iff (hholds s' hrun) _ _).mpr rfl, ?_⟩
      split_ifs with hd
      · exact (hempty hd).symm
      · rfl
  · apply iff_of_false
    · rintro ⟨s, s', hinit, -⟩
      rw [init, calloc, if_pos (by omega)] at hinit
      cases hinit
    · rintro ⟨hpos, -⟩
      exact hn hpos

/-- The second of three pushes into a buffer that is asked for ten elements raises. Kind: L -/
theorem second_push_raises :
    ¬ Conforms 10 false [Op.push 1, Op.push 2, Op.push 3] ∧
      ((init 10).bind fun s => run s [Op.push 1, Op.push 2]).map (·.2) =
        some [Outcome.done, Outcome.raised] := by
  refine ⟨?_, rfl⟩
  rintro ⟨s, s', hinit, hrun, -⟩
  obtain rfl := Option.some.inj hinit
  have houts : some [Outcome.done, .raised, .raised] =
      some [(Outcome.done : Outcome ℕ), .done, .done] := congrArg (Option.map Prod.snd) hrun
  cases houts

end CircularBuffer

end CxyCompiler.Stdlib
