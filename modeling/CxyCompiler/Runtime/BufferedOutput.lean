import CxyCompiler.Lib.Block
import CxyCompiler.Lib.Simulation

/-!
# The buffered output stream of the runtime

`BufferedOutputStream` (`runtime/builtins.cxy`) keeps bytes back in a buffer and hands blocks of
them to the virtual `flush`.

* `append`, `sync` — the operations, with the blocks that `flush` was given.
* `written` — what was flushed, followed by what the buffer holds.
* `inOrder` — the block does not have exactly the length of the room that is left while the buffer
  holds bytes (or it commutes with them).
* `stream_preserved_iff` — **in every state of a run what is written is what was appended, exactly
  where every operation is `inOrder`**. `append_overtakes` is a run where one is not.
-/

namespace CxyCompiler.Runtime.BufferedOutput

open CxyCompiler.Lib CxyCompiler.Lib.Simulation

/-- The stream, and the blocks that were passed to `flush`.
Source: `builtins.cxy` `BufferedOutputStream` -/
structure BufferedOutputStream where
  buffer : List UInt8
  capacity : ℕ
  size : ℕ
  flushed : List (List UInt8)
  deriving DecidableEq

/-- `block` is the memory that `malloc(capacity)` returned, with whatever bytes it holds.
Source: `builtins.cxy` `BufferedOutputStream.init` -/
def init (block : List UInt8) : BufferedOutputStream :=
  { buffer := block, capacity := block.length, size := 0, flushed := [] }

def flush (s : BufferedOutputStream) (str : List UInt8) : BufferedOutputStream :=
  { s with flushed := s.flushed ++ [str] }

/-- Source: `builtins.cxy` `BufferedOutputStream.sync`. -/
def sync (s : BufferedOutputStream) : BufferedOutputStream :=
  if 0 < s.size then { flush s (s.buffer.take s.size) with size := 0 } else s

/-- The last step of `append`: a block that is smaller than the room goes to the buffer, any other
is flushed. Source: `builtins.cxy` `BufferedOutputStream.append` -/
def put (s : BufferedOutputStream) (data : List UInt8) (room : ℕ) :
    Option (BufferedOutputStream × Option ℕ) :=
  if data.length < room then do
    let buffer ← Block.write s.buffer s.size data
    some ({ s with buffer, size := s.size + data.length }, some data.length)
  else some (flush s data, some data.length)

/-- Source: `builtins.cxy` `BufferedOutputStream.append`. -/
def append (s : BufferedOutputStream) (data : List UInt8) :
    Option (BufferedOutputStream × Option ℕ) :=
  let room := s.capacity - s.size
  if data.length > room ∧ s.size > 0 then put (sync s) data s.capacity else put s data room

/-- The bytes that the buffer holds. -/
def contents (s : BufferedOutputStream) : List UInt8 := s.buffer.take s.size

/-- The blocks that were flushed, and then the buffer. -/
def written (s : BufferedOutputStream) : List UInt8 := s.flushed.flatten ++ contents s

inductive Op where
  | append (data : List UInt8)
  | sync
  deriving DecidableEq

def step (s : BufferedOutputStream) : Op → Option (BufferedOutputStream × Option ℕ)
  | .append data => append s data
  | .sync => some (sync s, none)

/-- The stream of bytes itself: `append` adds its bytes at the end, `sync` does nothing. -/
def specStep (stream : List UInt8) : Op → Option (List UInt8 × Option ℕ)
  | .append data => some (stream ++ data, some data.length)
  | .sync => some (stream, none)

/-- The bytes of all `append` calls, in call order. -/
def appended (ops : List Op) : List UInt8 :=
  ops.flatMap fun op => match op with
    | .append data => data
    | .sync => []

/-- The block does not have exactly the length of the room while the buffer holds bytes, or it
commutes with these bytes. -/
def inOrder (s : BufferedOutputStream) : Op → Bool
  | .append data => s.size = 0 || data.length ≠ s.capacity - s.size ||
      data ++ contents s = contents s ++ data
  | .sync => true

/-- The buffer is full at no time, so the subtraction that gives the room never wraps around. -/
structure Wf (s : BufferedOutputStream) : Prop where
  length : s.buffer.length = s.capacity
  size : s.size = 0 ∨ s.size < s.capacity

def Inv (s : BufferedOutputStream) (stream : List UInt8) : Prop := Wf s ∧ written s = stream

section

variable {s : BufferedOutputStream}

theorem Wf.size_le (h : Wf s) : s.size ≤ s.capacity := by
  rcases h.size with h | h <;> omega

theorem Wf.length_contents (h : Wf s) : (contents s).length = s.size := by
  rw [contents, List.length_take, h.length, Nat.min_eq_left h.size_le]

theorem contents_of_size (h : s.size = 0) : contents s = [] := by rw [contents, h, List.take_zero]

theorem init_inv (block : List UInt8) : Inv (init block) [] := by
  refine ⟨⟨rfl, Or.inl rfl⟩, ?_⟩
  simp [written, contents, init]

theorem sync_inv (h : Wf s) : Wf (sync s) ∧ written (sync s) = written s := by
  unfold sync
  split_ifs with hs
  · refine ⟨⟨h.length, Or.inl rfl⟩, ?_⟩
    simp [written, contents, flush]
  · exact ⟨h, rfl⟩

theorem size_sync : (sync s).size = 0 := by
  unfold sync
  split_ifs with hs
  · rfl
  · omega

theorem capacity_sync : (sync s).capacity = s.capacity := by
  unfold sync flush
  split_ifs <;> rfl

/-- What reaches the buffer comes after what it holds, and a block that is flushed directly is in
order where it commutes with the buffer. Kind: L -/
theorem put_inv (h : Wf s) {data : List UInt8}
    (hcomm : s.capacity - s.size ≤ data.length → data ++ contents s = contents s ++ data) :
    ∃ s', put s data (s.capacity - s.size) = some (s', some data.length) ∧
      Inv s' (written s ++ data) := by
  unfold put
  split_ifs with hroom
  · have hsplit : s.buffer = contents s ++ s.buffer.drop s.size := (List.take_append_drop _ _).symm
    have hlen : s.size = (contents s).length := h.length_contents.symm
    have hfit : data.length ≤ (s.buffer.drop s.size).length := by
      rw [List.length_drop, h.length]
      omega
    have hwrite : Block.write s.buffer s.size data =
        some (contents s ++ data ++ (s.buffer.drop s.size).drop data.length) := by
      conv_lhs => rw [hsplit]
      exact Block.write_append hlen hfit
    rw [hwrite]
    refine ⟨_, rfl, ⟨?_, Or.inr ?_⟩, ?_⟩
    · exact (Block.length_of_write hwrite).trans h.length
    · exact Nat.add_lt_of_lt_sub' hroom
    · have htake : s.size + data.length = (contents s ++ data).length := by
        rw [List.length_append, ← hlen]
      change s.flushed.flatten ++ List.take (s.size + data.length) _ = _
      rw [htake, List.take_left, written, List.append_assoc]
  · refine ⟨_, rfl, ⟨h.length, h.size⟩, ?_⟩
    have hshow : written (flush s data) = s.flushed.flatten ++ (data ++ contents s) := by
      simp [written, contents, flush]
    rw [hshow, hcomm (by omega), written, List.append_assoc]

/-- A step that is in order keeps the stream. Kind: L -/
theorem step_inv {stream : List UInt8} (h : Inv s stream) (op : Op) (hop : inOrder s op = true) :
    Agrees Inv (step s op) (specStep stream op) := by
  obtain ⟨hwf, rfl⟩ := h
  cases op with
  | sync => exact ⟨sync s, rfl, sync_inv hwf⟩
  | append data =>
      change ∃ s', append s data = some (s', some data.length) ∧ Inv s' (written s ++ data)
      simp only [inOrder, Bool.or_eq_true, decide_eq_true_eq] at hop
      unfold append
      dsimp only
      split_ifs with hlarge
      · obtain ⟨hwf', hsame⟩ := sync_inv hwf
        have hempty : data ++ contents (sync s) = contents (sync s) ++ data := by
          rw [contents_of_size size_sync, List.append_nil, List.nil_append]
        have hput := put_inv hwf' fun _ => hempty
        rw [size_sync, capacity_sync, Nat.sub_zero, hsame] at hput
        exact hput
      · refine put_inv hwf fun hroom => ?_
        rcases hop with (hempty | hne) | hcomm
        · simp [contents_of_size hempty]
        · simp [contents_of_size (s := s) (by omega)]
        · exact hcomm

/-- A step that is not in order puts its block before the bytes of the buffer. Kind: L -/
theorem step_overtakes {stream : List UInt8} (h : Inv s stream) (op : Op)
    (hop : inOrder s op = false) :
    ¬ Agrees (fun s stream => written s = stream) (step s op) (specStep stream op) := by
  obtain ⟨-, rfl⟩ := h
  cases op with
  | sync => simp [inOrder] at hop
  | append data =>
      simp only [inOrder, Bool.or_eq_false_iff, decide_eq_false_iff_not, ne_eq,
        Decidable.not_not] at hop
      obtain ⟨⟨hsize, hroom⟩, hcomm⟩ := hop
      have hflush : step s (.append data) = some (flush s data, some data.length) := by
        rw [step, append, if_neg (by omega), put, if_neg (by omega)]
      rintro ⟨s', hs', hw⟩
      rw [hflush] at hs'
      cases hs'
      apply hcomm
      have hshow : written (flush s data) = s.flushed.flatten ++ (data ++ contents s) := by
        simp [written, contents, flush]
      rw [hshow, written, List.append_assoc] at hw
      exact List.append_cancel_left hw

end

/-- Every `append` answers with the size of its block. -/
def answers (ops : List Op) : List (Option ℕ) :=
  ops.map fun op => match op with
    | .append data => some data.length
    | .sync => none

theorem spec_run (ops : List Op) : ∀ stream,
    runWith specStep stream ops = some (stream ++ appended ops, answers ops) := by
  induction ops with
  | nil => intro stream; simp [runWith, appended, answers]
  | cons op ops ih =>
      intro stream
      cases op with
      | sync => simp [runWith, specStep, ih, appended, answers]
      | append data => simp [runWith, specStep, ih, appended, answers]

/-- After the calls `ops` what was flushed and then the buffer are the bytes that were appended. -/
def Preserved (block : List UInt8) (ops : List Op) : Prop :=
  ∃ s, runWith step (init block) ops = some (s, answers ops) ∧
    s.flushed.flatten ++ s.buffer.take s.size = appended ops

theorem preserved_iff {block : List UInt8} {ops : List Op} :
    Preserved block ops ↔ Agrees (fun s stream => written s = stream)
      (runWith step (init block) ops) (runWith specStep [] ops) := by
  rw [spec_run, List.nil_append]
  exact Iff.rfl

/-- **The stream is preserved exactly where no block overtakes the buffer.**
Source: `builtins.cxy` `BufferedOutputStream.append`, `sync`
Kind: P -/
theorem stream_preserved_iff (block : List UInt8) (ops : List Op) :
    (∀ pre, pre <+: ops → Preserved block pre) ↔
      allBefore step inOrder (init block) ops = true := by
  have hiff := run_agrees_iff (fun s stream (h : Inv s stream) => h.2)
    (fun _ _ op h => step_inv h op) (fun _ _ op h => step_overtakes h op) ops _ _ (init_inv block)
  rw [← hiff]
  exact forall₂_congr fun pre _ => preserved_iff

/-- After one byte, a block of exactly the room that is left is flushed before it. Kind: P -/
theorem append_overtakes :
    ¬ ∀ block ops, Preserved block ops := by
  intro h
  obtain ⟨s, hrun, hw⟩ := h [0, 0, 0] [.append [1], .append [2, 3]]
  have hend : runWith step (init [0, 0, 0]) [.append [1], .append [2, 3]] =
      some (⟨[1, 0, 0], 3, 1, [[2, 3]]⟩, [some 1, some 2]) := by decide
  rw [hend] at hrun
  cases hrun
  exact absurd hw (by decide)

end CxyCompiler.Runtime.BufferedOutput
