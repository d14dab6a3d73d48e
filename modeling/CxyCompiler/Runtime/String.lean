import Mathlib.Algebra.Order.Ring.Nat
import CxyCompiler.Lib.Block
import CxyCompiler.Lib.Simulation
import Mathlib.Data.List.DropRight

/-!
# The string of the runtime

`String` (`runtime/builtins.cxy`) keeps its bytes at the front of an allocated block of `_capacity +
1` bytes, so that there is one more for the NUL behind them.

* `grow`, `append`, `reserve`, `resize`, `trimLeft`, `trimRight`, `trim`, `clear` — the operations.
  What the allocator leaves in new memory is any bytes; a write outside of the block or through the
  null pointer is not defined.
* `SpecStep` — the same operations on a list of bytes.
* `Represents s ever xs` — what `__str()` and, behind the first byte ever appended, the C string of
  the block denote is `xs`.
* `keepsTerminator` — the terminator is in place after the step, and the step is defined.
* `string_run_represents` — **every state of a run whose steps all are `keepsTerminator` represents
  the bytes of the run**. `trimLeft_unterminated` is a run where one is not.
-/

namespace CxyCompiler.Runtime

open CxyCompiler.Lib CxyCompiler.Lib.Simulation

/-- The block is null before the first allocation and after `clear`.
Source: `builtins.cxy` `String` -/
structure String where
  data : Option (List UInt8)
  capacity : ℕ
  size : ℕ
  deriving DecidableEq

namespace String

/-- Source: `builtins.cxy` `String.init`. -/
def init : String := { data := none, capacity := 0, size := 0 }

/-- The doubling loop of `grow`. A capacity of 64 bits is 0 after 64 rounds, and the loop does not
end once it is. -/
def doubled : ℕ → ℕ → ℕ → Option ℕ
  | 0, _, _ => none
  | rounds + 1, capacity, newSize =>
      if capacity < newSize then doubled rounds (capacity * 2 % 2 ^ 64) newSize else some capacity

/-- The size that `grow` asks for. -/
def newSize (s : String) (growSize : ℕ) : ℕ := max ((s.size + growSize) % 2 ^ 64) 16

/-- Source: `builtins.cxy` `String.grow`. -/
def grow (s : String) (growSize : ℕ) (fresh : ℕ → UInt8) : Option String :=
  match s.data with
  | none =>
      let data := Block.realloc fresh [] ((newSize s growSize + 1) % 2 ^ 64)
      some { s with data := some data, capacity := newSize s growSize }
  | some mem =>
      if s.capacity < newSize s growSize then do
        let capacity ← doubled 65 s.capacity (newSize s growSize)
        let data ← Block.write (Block.realloc fresh mem ((capacity + 1) % 2 ^ 64)) s.size [0]
        some { s with data := some data, capacity }
      else some s

/-- The caller gets the pointer behind the string.
Source: `builtins.cxy` `String.reserve` -/
def reserve (s : String) (size : ℕ) (fresh : ℕ → UInt8) : Option String := grow s size fresh

/-- Source: `builtins.cxy` `String.resize`. -/
def resize (s : String) (newSize : ℕ) : Option String :=
  if s.capacity ≥ newSize then do
    let mem ← s.data
    let data ← Block.write mem newSize [0]
    some { s with data := some data, size := newSize }
  else none

/-- Source: `builtins.cxy` `String.clear`. -/
def clear (s : String) : String :=
  match s.data with
  | none => s
  | some _ => { data := none, capacity := 0, size := 0 }

/-- Source: `builtins.cxy` `String.append`. -/
def append (s : String) (str : List UInt8) (fresh : ℕ → UInt8) : Option String :=
  if str.length ≠ 0 then do
    let s ← grow s str.length fresh
    let mem ← s.data
    let mem ← Block.write mem s.size str
    let data ← Block.write mem (s.size + str.length) [0]
    some { s with data := some data, size := s.size + str.length }
  else some s

/-- Source: `builtins.cxy` `isSpace`, for the C locale. -/
def isSpace (c : UInt8) : Bool := c = 32 || 9 ≤ c && c ≤ 13

/-- The bytes that the loop of `trimLeft` counts. -/
def leading (p : UInt8 → Bool) : List UInt8 → ℕ
  | [] => 0
  | c :: cs => if p c then leading p cs + 1 else 0

/-- Source: `builtins.cxy` `String.trimLeft`. -/
def trimLeftBy (p : UInt8 → Bool) (s : String) : Option String :=
  match s.data with
  | none => if s.size = 0 then some s else none
  | some mem =>
      let i := leading p (mem.take s.size)
      if i ≠ 0 then do
        let data ← Block.move mem 0 i (s.size - i)
        some { s with data := some data, size := s.size - i }
      else some s

/-- The size that the loop of `trimRight` ends with. -/
def trimmed (p : UInt8 → Bool) (mem : List UInt8) : ℕ → Option ℕ
  | 0 => some 0
  | size + 1 => do
      let c ← mem[size]?
      if p c then trimmed p mem size else some (size + 1)

/-- Source: `builtins.cxy` `String.trimRight`. -/
def trimRightBy (p : UInt8 → Bool) (s : String) : Option String :=
  match s.data with
  | none => if s.size = 0 ∧ s.capacity = 0 then some s else none
  | some mem => do
      let size ← trimmed p mem s.size
      if s.capacity > 0 then
        let data ← Block.write mem size [0]
        some { s with data := some data, size }
      else some { s with size }

/-- Source: `builtins.cxy` `String.trimLeft`. -/
def trimLeft (s : String) : Option String := trimLeftBy isSpace s

/-- Source: `builtins.cxy` `String.trimLeft`. -/
def trimLeftChar (ch : UInt8) (s : String) : Option String := trimLeftBy (· == ch) s

/-- Source: `builtins.cxy` `String.trimRight`. -/
def trimRight (s : String) : Option String := trimRightBy isSpace s

/-- Source: `builtins.cxy` `String.trimRight`. -/
def trimRightChar (ch : UInt8) (s : String) : Option String := trimRightBy (· == ch) s

/-- Source: `builtins.cxy` `String.trim`. -/
def trim (s : String) : Option String := (trimLeft s).bind trimRight

/-- Source: `builtins.cxy` `String.trim`. -/
def trimChar (ch : UInt8) (s : String) : Option String :=
  (trimLeftChar ch s).bind (trimRightChar ch)

/-- An operation, with what the allocator leaves in the memory it returns. The constructors with an
argument are the first `append` of a run. -/
inductive Op where
  | append (str : List UInt8) (fresh : ℕ → UInt8)
  | reserve (size : UInt64) (fresh : ℕ → UInt8)
  | resize (newSize : UInt64)
  | trimLeft
  | trimLeftChar (ch : UInt8)
  | trimRight
  | trimRightChar (ch : UInt8)
  | trim
  | trimChar (ch : UInt8)
  | clear

def stepString (s : String) : Op → Option String
  | .append str fresh => append s str fresh
  | .reserve size fresh => reserve s size.toNat fresh
  | .resize n => resize s n.toNat
  | .trimLeft => trimLeft s
  | .trimLeftChar ch => trimLeftChar ch s
  | .trimRight => trimRight s
  | .trimRightChar ch => trimRightChar ch s
  | .trim => trim s
  | .trimChar ch => trimChar ch s
  | .clear => some (clear s)

/-- The operation appends at least one byte. -/
def appends : Op → Bool
  | .append str _ => str ≠ []
  | _ => false

/-- A step, with whether a byte was ever appended. -/
def step (s : String × Bool) (op : Op) : Option ((String × Bool) × Unit) :=
  (stepString s.1 op).map fun s' => ((s', s.2 || appends op), ())

/-- The operations on the bytes. The bytes that `resize` adds are those that the block holds
there. -/
def SpecStep (xs : List UInt8) (op : Op) (xs' : List UInt8) : Prop :=
  match op with
  | .append str _ => xs' = xs ++ str
  | .reserve _ _ => xs' = xs
  | .resize n => xs'.length = n.toNat ∧ xs'.take xs.length = xs.take n.toNat
  | .trimLeft => xs' = xs.dropWhile isSpace
  | .trimLeftChar ch => xs' = xs.dropWhile (· == ch)
  | .trimRight => xs' = xs.rdropWhile isSpace
  | .trimRightChar ch => xs' = xs.rdropWhile (· == ch)
  | .trim => xs' = (xs.dropWhile isSpace).rdropWhile isSpace
  | .trimChar ch => xs' = (xs.dropWhile (· == ch)).rdropWhile (· == ch)
  | .clear => xs' = []

/-- What `__str()` denotes. -/
def view (s : String) : List UInt8 := (s.data.getD []).take s.size

/-- What `str()` denotes as a C string. -/
def cString (mem : List UInt8) : List UInt8 := mem.takeWhile (· ≠ 0)

/-- The string denotes `xs`, both with its size and, where a byte was ever appended and none is NUL,
as a C string. -/
structure Represents (s : String) (ever : Bool) (xs : List UInt8) : Prop where
  size_le : s.size ≤ s.capacity
  size : s.size = xs.length
  view : view s = xs
  terminator : ∀ mem, s.data = some mem → ever = true → mem[s.size]? = some 0
  cString : ∀ mem, s.data = some mem → ever = true → (0 : UInt8) ∉ xs → cString mem = xs

/-- `grow` ends, and asks for a byte count that does not wrap around. -/
def canGrow (s : String) (growSize : ℕ) : Bool :=
  match s.data with
  | none => newSize s growSize + 1 < 2 ^ 64
  | some _ => s.capacity ≥ newSize s growSize || (doubled 65 s.capacity (newSize s growSize)).isSome

/-- `trimLeft` removes nothing, or the byte that comes to stand behind the string is NUL. -/
def leavesNul (p : UInt8 → Bool) (s : String) : Bool :=
  let i := leading p (view s)
  i = 0 || (s.data.getD [])[s.size - i]? = some 0

/-- The operation is defined, and leaves a NUL behind the string where a byte was ever appended. -/
def keepsTerminator (s : String × Bool) : Op → Bool
  | .append str _ => str = [] || s.1.size + str.length < 2 ^ 64 && canGrow s.1 str.length
  | .reserve size fresh =>
      canGrow s.1 size.toNat && (s.1.data.isSome || !s.2 || fresh 0 = 0)
  | .resize n => s.1.data.isSome && s.1.capacity ≥ n.toNat
  | .trimLeft => !s.2 || leavesNul isSpace s.1
  | .trimLeftChar ch => !s.2 || leavesNul (· == ch) s.1
  | _ => true

/-- The block holds `xs`, then the byte `c`, then `r`. -/
structure Holds (s : String) (xs : List UInt8) (c : UInt8) (r : List UInt8) : Prop where
  data : s.data = some (xs ++ c :: r)
  size : s.size = xs.length
  block : (xs ++ c :: r).length = s.capacity + 1
  pos : 0 < s.capacity
  bound : s.capacity + 1 < 2 ^ 64

/-- **The run invariant**: there is no block and no byte, or the byte behind the string is NUL once
one was appended. -/
def Inv (s : String) (ever : Bool) (xs : List UInt8) : Prop :=
  (s = init ∧ xs = []) ∨ ∃ c r, Holds s xs c r ∧ (ever = true → c = 0)

section

variable {s : String} {ever : Bool} {xs r : List UInt8} {c : UInt8} {p : UInt8 → Bool}

theorem Holds.le_capacity (h : Holds s xs c r) : xs.length ≤ s.capacity := by
  have hblock := h.block
  rw [List.length_append, List.length_cons] at hblock
  omega

theorem Holds.view (h : Holds s xs c r) : view s = xs := by
  rw [String.view, h.data, h.size, Option.getD_some, List.take_left]

/-- A NUL behind the bytes ends the C string there. Kind: L -/
theorem cString_append (hxs : (0 : UInt8) ∉ xs) : cString (xs ++ 0 :: r) = xs := by
  unfold cString
  rw [List.takeWhile_append_of_pos]
  · simp
  · intro b hb
    simp only [ne_eq, decide_not, Bool.not_eq_true', decide_eq_false_iff_not]
    rintro rfl
    exact hxs hb

theorem Inv.represents (h : Inv s ever xs) : Represents s ever xs := by
  rcases h with ⟨rfl, rfl⟩ | ⟨c, r, h, hc⟩
  · exact ⟨Nat.le_refl 0, rfl, rfl, fun _ h => (by cases h), fun _ h => (by cases h)⟩
  · refine ⟨h.size ▸ h.le_capacity, h.size, h.view, ?_, ?_⟩
    · intro mem hmem hever
      rw [h.data] at hmem
      cases hmem
      rw [h.size, List.getElem?_append_right (Nat.le_refl _), Nat.sub_self, hc hever]
      rfl
    · intro mem hmem hever hxs
      rw [h.data] at hmem
      cases hmem
      rw [hc hever]
      exact cString_append hxs

/-! ## One step -/

/-- The loop ends with a capacity that is large enough, and leaves room for the terminator.
Kind: L -/
theorem doubled_spec {n : ℕ} (rounds : ℕ) : ∀ {c c' : ℕ}, doubled rounds c n = some c' →
    n ≤ c' ∧ (c' = c ∨ c' + 1 < 2 ^ 64) := by
  induction rounds with
  | zero => intro c c' h; cases h
  | succ rounds ih =>
      intro c c' h
      unfold doubled at h
      split_ifs at h with hlt
      · obtain ⟨hle, heq | hbound⟩ := ih h
        · exact ⟨hle, Or.inr (by omega)⟩
        · exact ⟨hle, Or.inr hbound⟩
      · cases h
        exact ⟨by omega, Or.inl rfl⟩

/-- `grow` keeps the bytes and makes room for `n` more. Kind: L -/
theorem grow_inv (h : Inv s ever xs) {n : ℕ} {fresh : ℕ → UInt8} (hn : canGrow s n = true)
    (hfresh : s.data = none → ever = true → fresh 0 = 0) :
    ∃ s' c r, grow s n fresh = some s' ∧ Holds s' xs c r ∧ (ever = true → c = 0) ∧
      (xs.length + n < 2 ^ 64 → xs.length + n ≤ s'.capacity) := by
  rcases h with ⟨rfl, rfl⟩ | ⟨c, r, h, hc⟩
  · have hbytes : newSize init n + 1 < 2 ^ 64 := of_decide_eq_true hn
    have hpos : 16 ≤ newSize init n := Nat.le_max_right _ _
    have hblock : Block.realloc fresh [] ((newSize init n + 1) % 2 ^ 64) =
        fresh 0 :: (List.range (newSize init n)).map (fresh ∘ Nat.succ) := by
      rw [Nat.mod_eq_of_lt hbytes, Block.realloc, List.length_nil, Nat.sub_zero,
        List.range_succ_eq_map, List.map_cons, List.map_map]
      rfl
    unfold grow
    rw [hblock]
    refine ⟨_, fresh 0, _, rfl, ⟨rfl, rfl, ?_, ?_, hbytes⟩, hfresh rfl, ?_⟩
    · simp
    · exact Nat.lt_of_lt_of_le (by decide) hpos
    · intro hlt
      rw [List.length_nil, Nat.zero_add] at hlt ⊢
      refine Nat.le_trans ?_ (Nat.le_max_left _ _)
      rw [init, Nat.zero_add, Nat.mod_eq_of_lt hlt]
  · have hroom : xs.length + n < 2 ^ 64 → xs.length + n ≤ newSize s n := by
      intro hlt
      refine Nat.le_trans ?_ (Nat.le_max_left _ _)
      rw [h.size, Nat.mod_eq_of_lt hlt]
    unfold grow
    rw [h.data]
    dsimp only
    split_ifs with hfull
    · have hsome : (doubled 65 s.capacity (newSize s n)).isSome = true := by
        simp only [canGrow, h.data, Bool.or_eq_true, decide_eq_true_eq] at hn
        exact hn.resolve_left (by omega)
      obtain ⟨capacity, hcap⟩ := Option.isSome_iff_exists.mp hsome
      obtain ⟨hle, hnew⟩ := doubled_spec 65 hcap
      have hbytes : capacity + 1 < 2 ^ 64 := hnew.resolve_left (by omega)
      have hxs := h.le_capacity
      obtain ⟨r', hr', hlen⟩ : ∃ r', Block.realloc fresh (xs ++ c :: r) (capacity + 1) = xs ++ r' ∧
          (xs ++ r').length = capacity + 1 := Block.realloc_append (by omega)
      obtain ⟨d, t, rfl⟩ : ∃ d t, r' = d :: t := by
        rcases r' with _ | ⟨d, t⟩
        · rw [List.append_nil] at hlen
          omega
        · exact ⟨d, t, rfl⟩
      rw [hcap]
      simp only [Option.bind_eq_bind, Option.bind_some]
      rw [Nat.mod_eq_of_lt hbytes, hr', Block.write_one h.size]
      refine ⟨_, 0, t, rfl, ⟨rfl, h.size, ?_, ?_, hbytes⟩, fun _ => rfl, ?_⟩
      · rw [← hlen]
        simp
      · dsimp only
        omega
      · intro hlt
        exact Nat.le_trans (hroom hlt) hle
    · refine ⟨s, c, r, rfl, h, hc, fun hlt => Nat.le_trans (hroom hlt) (by omega)⟩

theorem append_inv (h : Inv s ever xs) {str : List UInt8} {fresh : ℕ → UInt8}
    (hop : keepsTerminator (s, ever) (.append str fresh) = true) :
    ∃ s', append s str fresh = some s' ∧ Inv s' (ever || appends (.append str fresh))
      (xs ++ str) := by
  by_cases hstr : str = []
  · subst hstr
    refine ⟨s, rfl, ?_⟩
    rw [List.append_nil, appends]
    simpa using h
  · have hlen : str.length ≠ 0 := by simpa using hstr
    simp only [keepsTerminator, Bool.or_eq_true, decide_eq_true_eq, hstr, false_or,
      Bool.and_eq_true] at hop
    obtain ⟨hbytes, hgrow⟩ := hop
    have hweak : Inv s false xs := by
      rcases h with h | ⟨c, r, h, -⟩
      · exact Or.inl h
      · exact Or.inr ⟨c, r, h, fun hf => by cases hf⟩
    obtain ⟨s', c, r, hs', hholds, -, hroom⟩ : ∃ s' c r, grow s str.length fresh = some s' ∧ _ :=
      grow_inv hweak hgrow fun _ hf => by cases hf
    have hsize : s.size = xs.length := h.represents.size
    have hfit := hroom (hsize ▸ hbytes)
    have hblock := hholds.block
    rw [List.length_append] at hblock
    have hwrite : Block.write (xs ++ c :: r) s'.size str =
        some (xs ++ str ++ (c :: r).drop str.length) :=
      Block.write_append hholds.size (by omega)
    obtain ⟨d, t, hrest⟩ : ∃ d t, (c :: r).drop str.length = d :: t := by
      rcases hrest : (c :: r).drop str.length with _ | ⟨d, t⟩
      · have hshort := congrArg List.length hrest
        rw [List.length_drop, List.length_nil] at hshort
        omega
      · exact ⟨d, t, rfl⟩
    have hend : Block.write (xs ++ str ++ d :: t) (s'.size + str.length) [0] =
        some (xs ++ str ++ 0 :: t) := Block.write_one (by rw [hholds.size, List.length_append])
    rw [hrest] at hwrite
    unfold append
    rw [if_pos hlen, hs']
    simp only [Option.bind_eq_bind, Option.bind_some, hholds.data, hwrite, hend]
    refine ⟨_, rfl, Or.inr ⟨0, t, ⟨rfl, ?_, ?_, hholds.pos, hholds.bound⟩, fun _ => rfl⟩⟩
    · rw [hholds.size, List.length_append]
    · have htail := congrArg List.length hrest
      rw [List.length_drop, List.length_cons] at htail
      simp only [List.length_append, List.length_cons] at hblock htail ⊢
      omega

theorem resize_inv (h : Inv s ever xs) {n : UInt64}
    (hop : keepsTerminator (s, ever) (.resize n) = true) :
    ∃ s' xs', resize s n.toNat = some s' ∧ SpecStep xs (.resize n) xs' ∧ Inv s' ever xs' := by
  simp only [keepsTerminator, Bool.and_eq_true, decide_eq_true_eq] at hop
  obtain ⟨hdata, hn⟩ := hop
  rcases h with ⟨rfl, rfl⟩ | ⟨c, r, h, -⟩
  · cases hdata
  · have hlen : n.toNat < (xs ++ c :: r).length := by
      rw [h.block]
      omega
    have hsplit := List.take_append_drop n.toNat (xs ++ c :: r)
    rw [List.drop_eq_getElem_cons hlen] at hsplit
    have htake : ((xs ++ c :: r).take n.toNat).length = n.toNat := by
      rw [List.length_take]
      omega
    have hwrite : Block.write (xs ++ c :: r) n.toNat [0] =
        some ((xs ++ c :: r).take n.toNat ++ 0 :: (xs ++ c :: r).drop (n.toNat + 1)) := by
      conv_lhs => rw [← hsplit]
      exact Block.write_one htake.symm
    unfold resize
    rw [if_pos hn, h.data]
    simp only [Option.bind_eq_bind, Option.bind_some, hwrite]
    refine ⟨_, (xs ++ c :: r).take n.toNat, rfl, ⟨htake, ?_⟩, Or.inr ⟨0, _, ⟨rfl, ?_, ?_, h.pos,
      h.bound⟩, fun _ => rfl⟩⟩
    · rw [List.take_take, Nat.min_comm, ← List.take_take, List.take_left]
    · exact htake.symm
    · exact (Block.length_of_write hwrite).trans h.block

theorem drop_leading (p : UInt8 → Bool) (xs : List UInt8) :
    xs.drop (leading p xs) = xs.dropWhile p ∧ leading p xs ≤ xs.length := by
  induction xs with
  | nil => exact ⟨rfl, Nat.le_refl 0⟩
  | cons c cs ih =>
      unfold leading
      by_cases hc : p c = true
      · rw [if_pos hc, List.drop_succ_cons, List.dropWhile_cons_of_pos hc, List.length_cons]
        exact ⟨ih.1, Nat.succ_le_succ ih.2⟩
      · rw [if_neg hc, List.dropWhile_cons_of_neg hc]
        exact ⟨rfl, Nat.zero_le _⟩

/-- `trimLeft` moves the bytes that stay to the front, and does not write behind them. Kind: L -/
theorem trimLeftBy_holds (h : Holds s xs c r) :
    ∃ s' c' r', trimLeftBy p s = some s' ∧ Holds s' (xs.dropWhile p) c' r' ∧
      (leavesNul p s = true → c = 0 → c' = 0) := by
  obtain ⟨hdrop, hle⟩ := drop_leading p xs
  unfold trimLeftBy
  rw [h.data, h.size]
  dsimp only
  rw [List.take_left]
  split_ifs with hi
  · have hrest : (xs.drop (leading p xs)).length = xs.length - leading p xs := List.length_drop
    have hsplit : xs ++ c :: r =
        [] ++ xs.take (leading p xs) ++ xs.drop (leading p xs) ++ (c :: r) := by
      rw [List.nil_append, List.take_append_drop]
    have hq : leading p xs = ([] ++ xs.take (leading p xs)).length := by
      rw [List.nil_append, List.length_take, Nat.min_eq_left hle]
    have hmove : Block.move (xs ++ c :: r) 0 (leading p xs) (xs.length - leading p xs) =
        some (xs.drop (leading p xs) ++ (xs ++ c :: r).drop (xs.drop (leading p xs)).length) := by
      have hfront : 0 = ([] : List UInt8).length := rfl
      conv_lhs => rw [hsplit]
      rw [Block.move_append hfront hq hrest.symm, List.nil_append, List.take_append_drop]
    have hlt : (xs.drop (leading p xs)).length < (xs ++ c :: r).length := by
      rw [List.length_append, List.length_cons, hrest]
      omega
    rw [List.drop_eq_getElem_cons hlt] at hmove
    simp only [Option.bind_eq_bind, hmove, Option.bind_some]
    rw [← hdrop]
    refine ⟨_, _, _, rfl, ⟨rfl, hrest.symm, ?_, h.pos, h.bound⟩, ?_⟩
    · exact (Block.length_of_move hmove).trans h.block
    · intro hnul _
      simp only [leavesNul, h.view, Bool.or_eq_true, decide_eq_true_eq, hi, false_or, h.data,
        Option.getD_some, h.size, ← hrest] at hnul
      rw [List.getElem?_eq_getElem hlt, Option.some.injEq] at hnul
      exact hnul
  · have hzero : leading p xs = 0 := by simpa using hi
    rw [hzero, List.drop_zero] at hdrop
    rw [← hdrop]
    exact ⟨s, c, r, rfl, h, fun _ hc => hc⟩

theorem trimmed_eq (xs : List UInt8) : ∀ t : List UInt8,
    trimmed p (xs ++ t) xs.length = some (xs.rdropWhile p).length := by
  induction xs using List.reverseRecOn with
  | nil => intro t; rfl
  | append_singleton ys y ih =>
      intro t
      have hread : (ys ++ [y] ++ t)[ys.length]? = some y := by simp
      rw [List.length_append, List.length_singleton, trimmed, hread, List.rdropWhile_concat]
      simp only [Option.bind_eq_bind, Option.bind_some]
      split_ifs with hy
      · rw [List.append_assoc]
        exact ih _
      · rw [List.length_append, List.length_singleton]

/-- `trimRight` writes a NUL behind the bytes that stay. Kind: L -/
theorem trimRightBy_holds (h : Holds s xs c r) :
    ∃ s' r', trimRightBy p s = some s' ∧ Holds s' (xs.rdropWhile p) 0 r' := by
  obtain ⟨zs, hzs⟩ := List.rdropWhile_prefix p xs
  obtain ⟨d, t, hrest⟩ : ∃ d t, zs ++ c :: r = d :: t := by
    rcases zs with _ | ⟨z, zs⟩
    · exact ⟨c, r, rfl⟩
    · exact ⟨z, zs ++ c :: r, rfl⟩
  have hsplit : xs ++ c :: r = xs.rdropWhile p ++ d :: t := by
    conv_lhs => rw [← hzs]
    rw [List.append_assoc, hrest]
  have hwrite : Block.write (xs ++ c :: r) (xs.rdropWhile p).length [0] =
      some (xs.rdropWhile p ++ 0 :: t) := by
    rw [hsplit]
    exact Block.write_one rfl
  unfold trimRightBy
  rw [h.data, h.size]
  simp only [Option.bind_eq_bind, trimmed_eq, Option.bind_some]
  rw [if_pos h.pos, hwrite]
  refine ⟨_, t, rfl, ⟨rfl, rfl, ?_, h.pos, h.bound⟩⟩
  exact (Block.length_of_write hwrite).trans h.block

theorem trimLeftBy_inv (h : Inv s ever xs) (hop : ever = true → leavesNul p s = true) :
    ∃ s', trimLeftBy p s = some s' ∧ Inv s' ever (xs.dropWhile p) := by
  rcases h with ⟨rfl, rfl⟩ | ⟨c, r, h, hc⟩
  · exact ⟨init, rfl, Or.inl ⟨rfl, rfl⟩⟩
  · obtain ⟨s', c', r', hs', hholds, hnul⟩ := trimLeftBy_holds (p := p) h
    exact ⟨s', hs', Or.inr ⟨c', r', hholds, fun hever => hnul (hop hever) (hc hever)⟩⟩

theorem trimRightBy_inv (h : Inv s ever xs) :
    ∃ s', trimRightBy p s = some s' ∧ Inv s' ever (xs.rdropWhile p) := by
  rcases h with ⟨rfl, rfl⟩ | ⟨c, r, h, -⟩
  · exact ⟨init, rfl, Or.inl ⟨rfl, rfl⟩⟩
  · obtain ⟨s', r', hs', hholds⟩ := trimRightBy_holds (p := p) h
    exact ⟨s', hs', Or.inr ⟨0, r', hholds, fun _ => rfl⟩⟩

/-- `trimRight` mends what `trimLeft` leaves. Kind: L -/
theorem trimBy_inv (h : Inv s ever xs) :
    ∃ s', (trimLeftBy p s).bind (trimRightBy p) = some s' ∧
      Inv s' ever ((xs.dropWhile p).rdropWhile p) := by
  rcases h with ⟨rfl, rfl⟩ | ⟨c, r, h, -⟩
  · exact ⟨init, rfl, Or.inl ⟨rfl, rfl⟩⟩
  · obtain ⟨s₁, c₁, r₁, hs₁, hholds₁, -⟩ := trimLeftBy_holds (p := p) h
    obtain ⟨s₂, r₂, hs₂, hholds₂⟩ := trimRightBy_holds (p := p) hholds₁
    refine ⟨s₂, ?_, Or.inr ⟨0, r₂, hholds₂, fun _ => rfl⟩⟩
    rw [hs₁, Option.bind_some, hs₂]

theorem clear_inv (h : Inv s ever xs) : Inv (clear s) ever [] := by
  rcases h with ⟨rfl, rfl⟩ | ⟨c, r, h, -⟩
  · exact Or.inl ⟨rfl, rfl⟩
  · refine Or.inl ⟨?_, rfl⟩
    rw [clear, h.data]
    rfl

theorem step_of_string {op : Op} {s' : String} (h : stepString s op = some s') :
    step (s, ever) op = some ((s', ever || appends op), ()) := by
  rw [step, h]
  rfl

/-- **A step that keeps the terminator keeps the invariant.** Kind: P -/
theorem step_inv (h : Inv s ever xs) (op : Op) (hop : keepsTerminator (s, ever) op = true) :
    ∃ s' xs', stepString s op = some s' ∧ SpecStep xs op xs' ∧
      Inv s' (ever || appends op) xs' := by
  cases op with
  | append str fresh =>
      obtain ⟨s', hs', hinv⟩ := append_inv h hop
      exact ⟨s', _, hs', rfl, hinv⟩
  | reserve size fresh =>
      simp only [appends, Bool.or_false]
      simp only [keepsTerminator, Bool.and_eq_true, Bool.or_eq_true, Bool.not_eq_true',
        decide_eq_true_eq] at hop
      obtain ⟨s', c, r, hs', hholds, hc, -⟩ := grow_inv h hop.1 fun hdata hever => by
        rcases hop.2 with (hsome | hfalse) | hnul
        · rw [hdata] at hsome
          cases hsome
        · rw [hever] at hfalse
          cases hfalse
        · exact hnul
      exact ⟨s', xs, hs', rfl, Or.inr ⟨c, r, hholds, hc⟩⟩
  | resize n =>
      simp only [appends, Bool.or_false]
      exact resize_inv h hop
  | trimLeft =>
      simp only [appends, Bool.or_false]
      obtain ⟨s', hs', hinv⟩ := trimLeftBy_inv h fun hever => by
        simpa [keepsTerminator, hever] using hop
      exact ⟨s', _, hs', rfl, hinv⟩
  | trimLeftChar ch =>
      simp only [appends, Bool.or_false]
      obtain ⟨s', hs', hinv⟩ := trimLeftBy_inv h fun hever => by
        simpa [keepsTerminator, hever] using hop
      exact ⟨s', _, hs', rfl, hinv⟩
  | trimRight =>
      simp only [appends, Bool.or_false]
      obtain ⟨s', hs', hinv⟩ := trimRightBy_inv h
      exact ⟨s', _, hs', rfl, hinv⟩
  | trimRightChar ch =>
      simp only [appends, Bool.or_false]
      obtain ⟨s', hs', hinv⟩ := trimRightBy_inv h
      exact ⟨s', _, hs', rfl, hinv⟩
  | trim =>
      simp only [appends, Bool.or_false]
      obtain ⟨s', hs', hinv⟩ := trimBy_inv h
      exact ⟨s', _, hs', rfl, hinv⟩
  | trimChar ch =>
      simp only [appends, Bool.or_false]
      obtain ⟨s', hs', hinv⟩ := trimBy_inv h
      exact ⟨s', _, hs', rfl, hinv⟩
  | clear =>
      simp only [appends, Bool.or_false]
      exact ⟨_, [], rfl, rfl, clear_inv h⟩

end

/-- The flag of a run says whether one of its operations appends a byte. Kind: L -/
theorem flag_of_run (ops : List Op) : ∀ {s s' : String} {ever ever' : Bool} {rs : List Unit},
    runWith step (s, ever) ops = some ((s', ever'), rs) → ever' = (ever || ops.any appends) := by
  induction ops with
  | nil =>
      intro s s' ever ever' rs h
      cases h
      rw [List.any_nil, Bool.or_false]
  | cons op ops ih =>
      intro s s' ever ever' rs h
      rw [runWith, step] at h
      cases hs : stepString s op with
      | none =>
          rw [hs] at h
          cases h
      | some s₁ =>
          rw [hs] at h
          simp only [Option.map_some, Option.bind_eq_bind, Option.bind_some] at h
          obtain ⟨⟨q, rs'⟩, hrun, heq⟩ := Option.bind_eq_some_iff.mp h
          cases heq
          rw [ih hrun, List.any_cons, Bool.or_assoc]

/-- **Every state of a run whose steps all keep the terminator represents the bytes of the run.**
Source: `builtins.cxy` `String`
Kind: P -/
theorem string_run_represents {ops : List Op}
    (hops : allBefore step keepsTerminator (init, false) ops = true) :
    ∃ s rs xs, runWith step (init, false) ops = some ((s, ops.any appends), rs) ∧
      Steps SpecStep [] ops xs ∧ Represents s (ops.any appends) xs := by
  have hstep : ∀ (s : String × Bool) (xs : List UInt8) (op : Op), Inv s.1 s.2 xs →
      keepsTerminator s op = true → ∃ s' r xs', step s op = some (s', r) ∧ SpecStep xs op xs' ∧
        Inv s'.1 s'.2 xs' := by
    intro s xs op hinv hop
    obtain ⟨s', xs', hs', hspec, hinv'⟩ := step_inv hinv op hop
    exact ⟨_, (), xs', step_of_string hs', hspec, hinv'⟩
  obtain ⟨⟨s, ever⟩, rs, xs, hrun, hsteps, hinv⟩ :=
    run_simulates hstep ops (init, false) [] (Or.inl ⟨rfl, rfl⟩) hops
  have hflag := flag_of_run ops hrun
  rw [Bool.false_or] at hflag
  subst hflag
  exact ⟨s, rs, xs, hrun, hsteps, hinv.represents⟩

/-- A run with an allocation, a removal on both sides and a `clear`. Kind: P -/
theorem string_run_represents_sample :
    ∃ s rs xs, runWith step (init, false)
        [.append [32, 97, 32] fun _ => 7, .trim, .trimLeft, .clear, .append [98] fun _ => 7] =
          some ((s, true), rs) ∧
      Steps SpecStep []
        [.append [32, 97, 32] fun _ => 7, .trim, .trimLeft, .clear, .append [98] fun _ => 7] xs ∧
      Represents s true xs :=
  string_run_represents (by decide)

/-- `trimLeft` of `" a"` leaves the bytes `a`, `a`, NUL in the block, so that the C string has one
byte too many. Kind: P -/
theorem trimLeft_unterminated :
    ¬ ∀ ops : List Op, ∃ s rs xs, runWith step (init, false) ops = some ((s, ops.any appends), rs) ∧
      Steps SpecStep [] ops xs ∧ Represents s (ops.any appends) xs := by
  intro h
  obtain ⟨s, rs, xs, hrun, -, hrep⟩ := h [.append [32, 97] fun _ => 7, .trimLeft]
  have hend : (runWith step (init, false) [.append [32, 97] fun _ => 7, .trimLeft]).bind
      (fun q => q.1.1.data.bind fun mem => mem[q.1.1.size]?) = some 97 := by decide
  rw [hrun, Option.bind_some] at hend
  obtain ⟨mem, hmem, hread⟩ := Option.bind_eq_some_iff.mp hend
  rw [hrep.terminator mem hmem rfl] at hread
  exact absurd hread (by decide)

end String

end CxyCompiler.Runtime
