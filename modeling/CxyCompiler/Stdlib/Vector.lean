import Mathlib.Algebra.Order.Ring.Nat
import CxyCompiler.Lib.Block
import CxyCompiler.Lib.Simulation
import Mathlib.Data.Int.Notation

/-!
# The vector of the library

`Vector` (`stdlib/vector.cxy`) keeps its elements at the front of an allocated block, which `grow`
makes half as large again when it is full.

* `grow`, `push`, `pop`, `shift`, `resize`, `setAt`, `removeAt`, `insertAt` — the operations on the
  block. A read or a write outside of it is not defined, and neither is a call whose assertion
  fails.
* `specStep` — the same operations on the list of elements.
* `Refines v xs` — the block has `_capacity` elements, and the first `_size` of them are `xs`.
* `Inv e v xs` — **the run invariant** for elements of `e` bytes; `step_inv` is its step lemma.
* `vector_run_refines_iff` — **every state of a run refines its list, exactly where each growth
  starts from a capacity of at least 2** and no byte count wraps around. `push_outside` is a run
  where one does not.
-/

namespace CxyCompiler.Stdlib

open CxyCompiler.Lib CxyCompiler.Lib.Simulation

/-- The elements of the allocated block; one without a value is not initialised.
Source: `vector.cxy` `Vector` -/
structure Vector (T : Type) where
  data : List (Option T)
  size : ℕ
  capacity : ℕ
  deriving DecidableEq

namespace Vector

variable {T : Type} (e : ℕ)

/-- The number of elements of `e` bytes in a block of `e * n` bytes, where the product wraps around
at 64 bits. -/
def allocated (n : ℕ) : ℕ := if e * n < 2 ^ 64 then n else e * n % 2 ^ 64 / e

/-- Source: `vector.cxy` `Vector.init`. -/
def init (initialSize : UInt64) : Vector T :=
  { data := List.replicate (allocated e initialSize.toNat) none, size := 0,
    capacity := initialSize.toNat }

/-- Source: `vector.cxy` `Vector.grow`. -/
def grow (v : Vector T) : Vector T :=
  if v.size ≥ v.capacity then
    let capacity := (v.capacity + v.capacity / 2) % 2 ^ 64
    { v with data := Block.realloc (fun _ => none) v.data (allocated e capacity), capacity }
  else v

/-- Source: `vector.cxy` `Vector.push`. -/
def push (v : Vector T) (item : T) : Option (Vector T) := do
  let v := grow e v
  let data ← Block.write v.data v.size [some item]
  some { v with data, size := v.size + 1 }

/-- The element at an index that was asserted. -/
def read (v : Vector T) (i : ℕ) : Option T := v.data[i]?.join

/-- Source: `vector.cxy` `Vector.pop`. -/
def pop (v : Vector T) : Option (Vector T × T) :=
  if v.size > 0 then do
    let item ← read v (v.size - 1)
    some ({ v with size := v.size - 1 }, item)
  else none

/-- Source: `vector.cxy` `Vector.shift`. -/
def shift (v : Vector T) : Option (Vector T × T) :=
  if v.size > 0 then do
    let item ← read v 0
    let data ← Block.move v.data 0 1 (v.size - 1)
    some ({ v with data, size := v.size - 1 }, item)
  else none

/-- Source: `vector.cxy` `Vector.resize`. -/
def resize (v : Vector T) (newSize : ℕ) : Vector T :=
  let size := if newSize < v.size then newSize else v.size
  { data := Block.realloc (fun _ => none) v.data (allocated e newSize), size, capacity := newSize }

/-- Source: `vector.cxy` `Vector.shrink`. -/
def shrink (v : Vector T) : Vector T := resize e v v.size

/-- Source: `vector.cxy` `Vector.clear`. -/
def clear (v : Vector T) : Vector T := { v with size := 0 }

/-- The index is widened with its sign and compared without one, so a negative one is too large. -/
def assertLt (index : ℤ) (bound : ℕ) : Option ℕ :=
  if 0 ≤ index ∧ index < bound then some index.toNat else none

/-- Source: `vector.cxy` `Vector.[]=`. -/
def setAt (v : Vector T) (index : ℤ) (value : T) : Option (Vector T) := do
  let i ← assertLt index v.size
  let data ← Block.write v.data i [some value]
  some { v with data }

/-- Source: `vector.cxy` `Vector.removeAt`. -/
def removeAt (v : Vector T) (index : ℤ) : Option (Vector T) := do
  let i ← assertLt index v.size
  let data ← Block.move v.data i (i + 1) (v.size - i - 1)
  let data ← Block.write data (v.size - 1) [none]
  some { v with data, size := v.size - 1 }

/-- Source: `vector.cxy` `Vector.insertAt`. -/
def insertAt (v : Vector T) (index : ℤ) (value : T) : Option (Vector T) := do
  let i ← assertLt index (v.size + 1)
  let v := grow e v
  if i = v.size then
    let data ← Block.write v.data v.size [some value]
    some { v with data, size := v.size + 1 }
  else
    let data ← Block.move v.data (i + 1) i (v.size - i)
    let data ← Block.write data i [some value]
    some { v with data, size := v.size + 1 }

inductive Op (T : Type) where
  | push (item : T)
  | pop
  | shift
  | insertAt (index : ℤ) (value : T)
  | removeAt (index : ℤ)
  | setAt (index : ℤ) (value : T)
  | resize (newSize : UInt64)
  | shrink
  | clear
  deriving DecidableEq

/-- A step, with the element that `pop` and `shift` return. -/
def step (v : Vector T) : Op T → Option (Vector T × Option T)
  | .push x => (push e v x).map fun v => (v, none)
  | .pop => (pop v).map fun (v, x) => (v, some x)
  | .shift => (shift v).map fun (v, x) => (v, some x)
  | .insertAt i x => (insertAt e v i x).map fun v => (v, none)
  | .removeAt i => (removeAt v i).map fun v => (v, none)
  | .setAt i x => (setAt v i x).map fun v => (v, none)
  | .resize n => some (resize e v n.toNat, none)
  | .shrink => some (shrink e v, none)
  | .clear => some (clear v, none)

/-- The operations on the list of elements, defined where their assertions hold. -/
def specStep (xs : List T) : Op T → Option (List T × Option T)
  | .push x => some (xs ++ [x], none)
  | .pop => xs.getLast?.map fun x => (xs.dropLast, some x)
  | .shift => xs.head?.map fun x => (xs.tail, some x)
  | .insertAt index x =>
      (assertLt index (xs.length + 1)).map fun i => (xs.take i ++ x :: xs.drop i, none)
  | .removeAt index => (assertLt index xs.length).map fun i => (xs.take i ++ xs.drop (i + 1), none)
  | .setAt index x => (assertLt index xs.length).map fun i => (xs.set i x, none)
  | .resize n => some (xs.take n.toNat, none)
  | .shrink => some (xs, none)
  | .clear => some ([], none)

/-- The block has `_capacity` elements, and the first `_size` of them are `xs`. -/
structure Refines (v : Vector T) (xs : List T) : Prop where
  elements : v.data.take v.size = xs.map some
  size_le : v.size ≤ v.capacity
  block : v.data.length = v.capacity

/-- A block of `n` elements can be asked for. -/
def fits (n : ℕ) : Bool := n < 2 ^ 64 && e * n < 2 ^ 64

/-- A vector that is full has a capacity of at least 2, and one half more of it fits. -/
def canGrow (v : Vector T) : Bool :=
  v.size < v.capacity || 2 ≤ v.capacity && fits e (v.capacity + v.capacity / 2)

/-- Each growth starts from a capacity of at least 2, and no byte count wraps around. -/
def hasRoom (v : Vector T) : Op T → Bool
  | .push _ => canGrow e v
  | .insertAt index _ => (assertLt index (v.size + 1)).isNone || canGrow e v
  | .resize n => fits e n.toNat
  | _ => true

/-- **The run invariant.** -/
structure Inv (v : Vector T) (xs : List T) : Prop where
  block : v.data.length = v.capacity
  fits : fits e v.capacity = true
  size : v.size = xs.length
  elements : ∃ r, v.data = xs.map some ++ r

section

variable {e : ℕ} {v : Vector T} {xs : List T}

theorem Inv.refines (h : Inv e v xs) : Refines v xs := by
  obtain ⟨r, hr⟩ := h.elements
  have hlen : v.size = (xs.map some).length := by rw [h.size, List.length_map]
  refine ⟨by rw [hr, hlen, List.take_left], ?_, h.block⟩
  have hblock := h.block
  rw [hr, List.length_append, ← hlen] at hblock
  omega

/-! ## The size of a block -/

theorem fits_iff {n : ℕ} : fits e n = true ↔ n < 2 ^ 64 ∧ e * n < 2 ^ 64 := by
  simp [fits]

theorem allocated_of_fits {n : ℕ} (h : fits e n = true) : allocated e n = n :=
  if_pos (fits_iff.mp h).2

theorem allocated_le (n : ℕ) : allocated e n ≤ n := by
  unfold allocated
  split_ifs with h
  · exact Nat.le_refl n
  · exact Nat.le_trans (Nat.div_le_div_right (Nat.mod_le _ _))
      (Nat.div_le_of_le_mul (Nat.le_refl _))

/-- A byte count that wraps around is that of fewer elements. Kind: L -/
theorem allocated_lt {n : ℕ} (hn : n < 2 ^ 64) (h : fits e n = false) : allocated e n < n := by
  have hbytes : 2 ^ 64 ≤ e * n := by
    by_contra hlt
    rw [fits_iff.mpr ⟨hn, by omega⟩] at h
    cases h
  rw [allocated, if_neg (by omega)]
  apply Nat.div_lt_of_lt_mul
  exact Nat.lt_of_lt_of_le (Nat.mod_lt _ (by decide)) hbytes

/-- **A growth from less than 2 elements, or past 64 bits, does not give a larger block.**
Kind: P -/
theorem allocated_grown_le {c : ℕ} (hc : fits e c = true)
    (h : ¬ (2 ≤ c ∧ fits e (c + c / 2) = true)) :
    allocated e ((c + c / 2) % 2 ^ 64) ≤ c := by
  obtain ⟨hc64, hbytes⟩ := fits_iff.mp hc
  by_cases hwrap : 2 ^ 64 ≤ c + c / 2
  · have hmod : (c + c / 2) % 2 ^ 64 ≤ c := by omega
    exact Nat.le_trans (allocated_le _) hmod
  · rw [Nat.mod_eq_of_lt (by omega)]
    by_cases hsmall : c < 2
    · have hsame : c + c / 2 = c := by omega
      rw [hsame]
      exact Nat.le_of_eq (allocated_of_fits hc)
    · have hover : ¬ e * (c + c / 2) < 2 ^ 64 := by
        intro hlt
        exact h ⟨by omega, fits_iff.mpr ⟨by omega, hlt⟩⟩
      have hhalf : e * (c / 2) ≤ e * c := Nat.mul_le_mul_left e (Nat.div_le_self c 2)
      have hrest : e * (c + c / 2) % 2 ^ 64 ≤ e * (c / 2) := by
        rw [Nat.mul_add] at hover ⊢
        omega
      rw [allocated, if_neg hover]
      calc e * (c + c / 2) % 2 ^ 64 / e ≤ e * (c / 2) / e := Nat.div_le_div_right hrest
        _ ≤ c / 2 := Nat.div_le_of_le_mul (Nat.le_refl _)
        _ ≤ c := Nat.div_le_self c 2

/-! ## One step -/

/-- A vector that can grow has room for one more element afterwards. Kind: L -/
theorem grow_inv (h : Inv e v xs) (hroom : canGrow e v = true) :
    Inv e (grow e v) xs ∧ (grow e v).size < (grow e v).capacity := by
  simp only [canGrow, Bool.or_eq_true, decide_eq_true_eq, Bool.and_eq_true] at hroom
  unfold grow
  split_ifs with hfull
  · rcases hroom with hlt | ⟨htwo, hfits⟩
    · exact absurd hlt (by omega)
    · have hmod : (v.capacity + v.capacity / 2) % 2 ^ 64 = v.capacity + v.capacity / 2 :=
        Nat.mod_eq_of_lt (fits_iff.mp hfits).1
      obtain ⟨r, hr⟩ := h.elements
      have hle : (xs.map some).length ≤ v.capacity + v.capacity / 2 := by
        have hblock := h.block
        rw [hr, List.length_append] at hblock
        omega
      obtain ⟨r', hr', -⟩ : ∃ r', Block.realloc (fun _ => none) (xs.map some ++ r) _ =
        xs.map some ++ r' ∧ _ :=
        Block.realloc_append hle
      dsimp only
      rw [hmod, allocated_of_fits hfits]
      refine ⟨⟨Block.length_realloc _ _ _, hfits, h.size, r', ?_⟩, ?_⟩
      · rw [hr, hr']
      · have hsize := h.refines.size_le
        omega
  · exact ⟨h, by omega⟩

/-- The block, split behind the elements, where it is not full. Kind: L -/
theorem exists_free (h : Inv e v xs) (hroom : v.size < v.capacity) :
    ∃ c r, v.data = xs.map some ++ c :: r := by
  obtain ⟨r, hr⟩ := h.elements
  rcases r with _ | ⟨c, r⟩
  · have hblock := h.block
    rw [hr, List.append_nil, List.length_map, ← h.size] at hblock
    omega
  · exact ⟨c, r, hr⟩

theorem assertLt_eq_some {index : ℤ} {bound i : ℕ} (h : assertLt index bound = some i) :
    i < bound := by
  unfold assertLt at h
  split_ifs at h with hb
  cases h
  omega

theorem push_inv (h : Inv e v xs) (hroom : canGrow e v = true) (x : T) :
    ∃ v', push e v x = some v' ∧ Inv e v' (xs ++ [x]) := by
  obtain ⟨hg, hlt⟩ := grow_inv h hroom
  obtain ⟨c, r, hr⟩ := exists_free hg hlt
  have hwrite : Block.write (grow e v).data (grow e v).size [some x] =
      some (xs.map some ++ some x :: r) := by
    rw [hr]
    exact Block.write_one (by rw [hg.size, List.length_map])
  unfold push
  simp only [Option.bind_eq_bind, hwrite]
  refine ⟨_, rfl, ?_, hg.fits, ?_, r, ?_⟩
  · rw [← hg.block, hr]
    simp
  · rw [List.length_append, ← hg.size]
    rfl
  · simp

theorem pop_inv {x : T} (h : Inv e v (xs ++ [x])) :
    ∃ v', pop v = some (v', x) ∧ Inv e v' xs := by
  obtain ⟨r, hr⟩ := h.elements
  have hsize : v.size = xs.length + 1 := by rw [h.size]; simp
  have hread : read v (v.size - 1) = some x := by
    rw [read, hr, hsize]
    simp
  unfold pop
  rw [if_pos (by omega), hread]
  refine ⟨_, rfl, h.block, h.fits, ?_, some x :: r, ?_⟩
  · simp [hsize]
  · rw [hr]
    simp

theorem shift_inv {x : T} (h : Inv e v (x :: xs)) :
    ∃ v', shift v = some (v', x) ∧ Inv e v' xs := by
  obtain ⟨r, hr⟩ := h.elements
  have hsize : v.size = xs.length + 1 := by rw [h.size]; simp
  have hread : read v 0 = some x := by
    rw [read, hr]
    rfl
  have hmove : Block.move v.data 0 1 (v.size - 1) =
      some (xs.map some ++ ([some x] ++ xs.map some ++ r).drop (xs.map some).length) := by
    have hblock : v.data = [] ++ [some x] ++ xs.map some ++ r := by rw [hr]; rfl
    have hlen : v.size - 1 = (xs.map some).length := by rw [hsize, List.length_map]; rfl
    have hmove := Block.move_append (p := []) (q := [some x]) (r := r) rfl rfl hlen
    rw [hblock]
    exact hmove
  unfold shift
  rw [if_pos (by omega), hread]
  simp only [Option.bind_eq_bind, Option.bind_some, hmove]
  refine ⟨_, rfl, (Block.length_of_move hmove).trans h.block, h.fits, ?_, _, rfl⟩
  simp [hsize]

theorem map_split {i : ℕ} (hi : i < xs.length) (r : List (Option T)) :
    xs.map some ++ r =
      (xs.take i).map some ++ [some xs[i]] ++ (xs.drop (i + 1)).map some ++ r := by
  rw [List.append_assoc _ [some xs[i]], List.singleton_append, ← List.map_cons,
    ← List.drop_eq_getElem_cons hi, ← List.map_append, List.take_append_drop]

theorem length_map_take {i : ℕ} (hi : i ≤ xs.length) : ((xs.take i).map some).length = i := by
  rw [List.length_map, List.length_take, Nat.min_eq_left hi]

theorem setAt_inv (h : Inv e v xs) {index : ℤ} {i : ℕ} (hi : assertLt index xs.length = some i)
    (x : T) : ∃ v', setAt v index x = some v' ∧ Inv e v' (xs.set i x) := by
  have hlt := assertLt_eq_some hi
  obtain ⟨r, hr⟩ := h.elements
  have hwrite : Block.write v.data i [some x] =
      some ((xs.take i).map some ++ some x :: ((xs.drop (i + 1)).map some ++ r)) := by
    rw [hr, map_split hlt, List.append_assoc, List.append_assoc, List.singleton_append]
    exact Block.write_one (length_map_take (Nat.le_of_lt hlt)).symm
  unfold setAt
  rw [h.size, hi]
  simp only [Option.bind_eq_bind, Option.bind_some, hwrite]
  refine ⟨_, rfl, (Block.length_of_write hwrite).trans h.block, h.fits, ?_, r, ?_⟩
  · rw [List.length_set]
  · rw [List.set_eq_take_append_cons_drop, if_pos hlt, List.map_append, List.map_cons,
      List.append_assoc, List.cons_append]

theorem removeAt_inv (h : Inv e v xs) {index : ℤ} {i : ℕ}
    (hi : assertLt index xs.length = some i) :
    ∃ v', removeAt v index = some v' ∧ Inv e v' (xs.take i ++ xs.drop (i + 1)) := by
  have hlt := assertLt_eq_some hi
  have hi' := length_map_take (Nat.le_of_lt hlt)
  obtain ⟨r, hr⟩ := h.elements
  obtain ⟨t, ht, hmove⟩ : ∃ t, 1 ≤ t.length ∧
      Block.move v.data i (i + 1) (xs.length - i - 1) =
        some ((xs.take i ++ xs.drop (i + 1)).map some ++ t) := by
    refine ⟨([some xs[i]] ++ (xs.drop (i + 1)).map some ++ r).drop
      ((xs.drop (i + 1)).map some).length, ?_, ?_⟩
    · simp only [List.length_drop, List.length_append, List.length_singleton]
      omega
    · rw [hr, map_split hlt, List.map_append]
      apply Block.move_append hi'.symm
      · rw [List.length_append, hi']
        rfl
      · rw [List.length_map, List.length_drop]
        rfl
  have hlen : xs.length - 1 = ((xs.take i ++ xs.drop (i + 1)).map some).length := by
    rw [List.length_map, List.length_append, List.length_take, List.length_drop]
    omega
  have hwrite : Block.write ((xs.take i ++ xs.drop (i + 1)).map some ++ t) (xs.length - 1) [none] =
      some ((xs.take i ++ xs.drop (i + 1)).map some ++ [none] ++ t.drop 1) :=
    Block.write_append hlen ht
  unfold removeAt
  rw [h.size, hi]
  simp only [Option.bind_eq_bind, Option.bind_some, hmove, hwrite]
  refine ⟨_, rfl, ?_, h.fits, ?_, _, List.append_assoc _ _ _⟩
  · exact ((Block.length_of_write hwrite).trans (Block.length_of_move hmove)).trans h.block
  · rw [List.length_map] at hlen
    exact hlen

theorem insertAt_inv (h : Inv e v xs) (hroom : canGrow e v = true) {index : ℤ} {i : ℕ}
    (hi : assertLt index (xs.length + 1) = some i) (x : T) :
    ∃ v', insertAt e v index x = some v' ∧ Inv e v' (xs.take i ++ x :: xs.drop i) := by
  have hle : i ≤ xs.length := Nat.le_of_lt_succ (assertLt_eq_some hi)
  obtain ⟨hg, hlt⟩ := grow_inv h hroom
  obtain ⟨c, r, hr⟩ := exists_free hg hlt
  unfold insertAt
  rw [h.size, hi]
  simp only [Option.bind_eq_bind, Option.bind_some]
  split_ifs with hend
  · have hwrite : Block.write (grow e v).data (grow e v).size [some x] =
        some (xs.map some ++ some x :: r) := by
      rw [hr]
      exact Block.write_one (by rw [hg.size, List.length_map])
    rw [hwrite, hend, hg.size, List.take_length, List.drop_length]
    refine ⟨_, rfl, ?_, hg.fits, by simp, r, by simp⟩
    exact (Block.length_of_write hwrite).trans hg.block
  · have hgap : (Block.move (grow e v).data (i + 1) i ((grow e v).size - i)).bind
        (fun data => Block.write data i [some x]) =
          some ((xs.take i).map some ++ [some x] ++ (xs.drop i).map some ++ r) := by
      have hi' := length_map_take hle
      have hsplit : (grow e v).data = (xs.take i).map some ++ (xs.drop i).map some ++ c :: r := by
        rw [← List.map_append, List.take_append_drop, hr]
      rw [hsplit, Block.move_write_append hi'.symm (by rw [hi']; rfl) _ (by simp)]
      · rfl
      · rw [List.length_map, List.length_drop, hg.size]
    obtain ⟨data₁, hmove, hwrite⟩ := Option.bind_eq_some_iff.mp hgap
    rw [hmove]
    simp only [Option.bind_some, hwrite]
    refine ⟨_, rfl, ?_, hg.fits, ?_, r, ?_⟩
    · exact ((Block.length_of_write hwrite).trans (Block.length_of_move hmove)).trans hg.block
    · rw [hg.size]
      simp only [List.length_append, List.length_take, List.length_cons, List.length_drop]
      omega
    · simp

theorem resize_inv (h : Inv e v xs) {n : ℕ} (hn : fits e n = true) :
    Inv e (resize e v n) (xs.take n) := by
  obtain ⟨r, hr⟩ := h.elements
  have hle : ((xs.take n).map some).length ≤ n := by
    rw [List.length_map, List.length_take]
    exact Nat.min_le_left _ _
  have hsplit : v.data = (xs.take n).map some ++ ((xs.drop n).map some ++ r) := by
    rw [← List.append_assoc, ← List.map_append, List.take_append_drop, hr]
  obtain ⟨r', hr', -⟩ : ∃ r', Block.realloc (fun _ => none) ((xs.take n).map some ++
      ((xs.drop n).map some ++ r)) n = (xs.take n).map some ++ r' ∧ _ := Block.realloc_append hle
  unfold resize
  rw [allocated_of_fits hn, h.size]
  refine ⟨Block.length_realloc _ _ _, hn, ?_, r', ?_⟩
  · dsimp only
    rw [List.length_take]
    split_ifs <;> omega
  · rw [hsplit, hr']

/-- **A step that has room keeps the invariant.** Kind: P -/
theorem step_inv (h : Inv e v xs) (op : Op T) (hop : hasRoom e v op = true) :
    Agrees (Inv e) (step e v op) (specStep xs op) := by
  cases op with
  | push x =>
      obtain ⟨v', hv', hinv⟩ := push_inv h hop x
      exact ⟨v', by rw [step, hv']; rfl, hinv⟩
  | pop =>
      rcases List.eq_nil_or_concat xs with rfl | ⟨ys, x, rfl⟩
      · have hsize : ¬ v.size > 0 := by rw [h.size]; simp
        change (pop v).map _ = none
        rw [pop, if_neg hsize]
        rfl
      · rw [List.concat_eq_append] at h ⊢
        obtain ⟨v', hv', hinv⟩ := pop_inv h
        rw [specStep, List.getLast?_concat, List.dropLast_concat]
        exact ⟨v', by rw [step, hv']; rfl, hinv⟩
  | shift =>
      rcases xs with _ | ⟨x, xs⟩
      · have hsize : ¬ v.size > 0 := by rw [h.size]; simp
        change (shift v).map _ = none
        rw [shift, if_neg hsize]
        rfl
      · obtain ⟨v', hv', hinv⟩ := shift_inv h
        exact ⟨v', by rw [step, hv']; rfl, hinv⟩
  | insertAt index x =>
      rw [hasRoom, h.size, Bool.or_eq_true] at hop
      rw [specStep]
      cases hi : assertLt index (xs.length + 1) with
      | none =>
          change (insertAt e v index x).map _ = none
          rw [insertAt, h.size, hi]
          rfl
      | some i =>
          rw [hi] at hop
          obtain ⟨v', hv', hinv⟩ := insertAt_inv h (hop.resolve_left (by simp)) hi x
          exact ⟨v', by rw [step, hv']; rfl, hinv⟩
  | removeAt index =>
      rw [specStep]
      cases hi : assertLt index xs.length with
      | none =>
          change (removeAt v index).map _ = none
          rw [removeAt, h.size, hi]
          rfl
      | some i =>
          obtain ⟨v', hv', hinv⟩ := removeAt_inv h hi
          exact ⟨v', by rw [step, hv']; rfl, hinv⟩
  | setAt index x =>
      rw [specStep]
      cases hi : assertLt index xs.length with
      | none =>
          change (setAt v index x).map _ = none
          rw [setAt, h.size, hi]
          rfl
      | some i =>
          obtain ⟨v', hv', hinv⟩ := setAt_inv h hi x
          exact ⟨v', by rw [step, hv']; rfl, hinv⟩
  | resize n => exact ⟨_, rfl, resize_inv h hop⟩
  | shrink =>
      have hfits : fits e v.size = true := by
        have hle := h.refines.size_le
        obtain ⟨hcap, hbytes⟩ := fits_iff.mp h.fits
        refine fits_iff.mpr ⟨by omega, ?_⟩
        exact Nat.lt_of_le_of_lt (Nat.mul_le_mul_left e hle) hbytes
      have hinv := resize_inv h hfits
      rw [h.size, List.take_length] at hinv
      exact ⟨_, rfl, by rw [shrink, h.size]; exact hinv⟩
  | clear =>
      obtain ⟨r, hr⟩ := h.elements
      exact ⟨_, rfl, h.block, h.fits, rfl, v.data, rfl⟩

/-! ## The steps without room -/

/-- A vector that cannot grow has no element behind the last one. Kind: L -/
theorem length_grow_le (h : Inv e v xs) (hroom : canGrow e v = false) :
    (grow e v).data.length ≤ v.size ∧ (grow e v).size = v.size := by
  simp only [canGrow, Bool.or_eq_false_iff, decide_eq_false_iff_not, Bool.and_eq_false_iff] at hroom
  obtain ⟨hfull, hbad⟩ := hroom
  have hcap : v.size = v.capacity := by
    have hle := h.refines.size_le
    omega
  unfold grow
  rw [if_pos (by omega)]
  refine ⟨?_, rfl⟩
  rw [Block.length_realloc, hcap]
  apply allocated_grown_le h.fits
  rintro ⟨htwo, hfits⟩
  rcases hbad with hlt | hno
  · exact hlt htwo
  · rw [hfits] at hno
    cases hno

/-- **A step without room writes outside of the block, or makes one that is too small.** Kind: P -/
theorem step_outside (h : Inv e v xs) (op : Op T) (hop : hasRoom e v op = false) :
    ¬ Agrees Refines (step e v op) (specStep xs op) := by
  cases op with
  | push x =>
      obtain ⟨hlen, hsize⟩ := length_grow_le h hop
      have hwrite : Block.write (grow e v).data (grow e v).size [some x] = none := by
        rw [Block.write, if_neg]
        rw [List.length_singleton]
        omega
      rintro ⟨v', hv', -⟩
      simp [step, push, hwrite] at hv'
  | insertAt index x =>
      rw [hasRoom, h.size, Bool.or_eq_false_iff] at hop
      obtain ⟨hi, hroom⟩ := hop
      obtain ⟨i, hi⟩ := Option.isSome_iff_exists.mp (by simpa using hi)
      obtain ⟨hlen, hsize⟩ := length_grow_le h hroom
      have hwrite : Block.write (grow e v).data (grow e v).size [some x] = none := by
        rw [Block.write, if_neg]
        rw [List.length_singleton]
        omega
      have hmove : i ≤ (grow e v).size →
          Block.move (grow e v).data (i + 1) i ((grow e v).size - i) = none := by
        intro hle
        unfold Block.move
        split_ifs with hin
        · rw [Block.write, if_neg]
          rw [List.length_take, List.length_drop]
          omega
        · rfl
      have hle : i ≤ (grow e v).size := by
        rw [hsize, h.size]
        exact Nat.le_of_lt_succ (assertLt_eq_some hi)
      have hnone : insertAt e v index x = none := by
        unfold insertAt
        rw [h.size, hi]
        simp only [Option.bind_eq_bind, Option.bind_some]
        split_ifs with hend
        · rw [hwrite]
          rfl
        · rw [hmove hle]
          rfl
      rw [specStep, hi]
      rintro ⟨v', hv', -⟩
      simp [step, hnone] at hv'
  | resize n =>
      have hsmall := allocated_lt n.toNat_lt hop
      rintro ⟨v', hv', href⟩
      cases hv'
      have hblock := href.block
      rw [resize, Block.length_realloc] at hblock
      dsimp only at hblock
      omega
  | _ => simp [hasRoom] at hop

theorem init_inv {c : UInt64} (hc : fits e c.toNat = true) : Inv e (init e c : Vector T) [] where
  block := by rw [init, List.length_replicate, allocated_of_fits hc]
  fits := hc
  size := rfl
  elements := ⟨_, rfl⟩

end

/-- **Every state of a run refines its list exactly where the run has room**: the first block can be
asked for, each growth starts from a capacity of at least 2, and no byte count wraps around. Source:
`vector.cxy` `Vector` Kind: P -/
theorem vector_run_refines_iff (e : ℕ) (c : UInt64) (ops : List (Op T)) :
    (∀ pre, pre <+: ops →
        Agrees Refines (runWith (step e) (init e c : Vector T) pre) (runWith specStep [] pre)) ↔
      e * c.toNat < 2 ^ 64 ∧ allBefore (step e) (hasRoom e) (init e c : Vector T) ops = true := by
  have hiff (hc : fits e c.toNat = true) := run_agrees_iff (fun _ _ h => Inv.refines h)
    (fun _ _ op h => step_inv h op) (fun _ _ op h => step_outside h op) ops (init e c : Vector T) []
    (init_inv hc)
  constructor
  · intro hall
    have hfits : fits e c.toNat = true := by
      obtain ⟨v, hv, href⟩ := hall [] List.nil_prefix
      cases hv
      have hblock := href.block
      rw [init, List.length_replicate] at hblock
      by_contra hno
      have hlt := allocated_lt c.toNat_lt (by simpa using hno)
      exact absurd hblock (Nat.ne_of_lt hlt)
    exact ⟨(fits_iff.mp hfits).2, (hiff hfits).mp hall⟩
  · rintro ⟨hbytes, hall⟩
    exact (hiff (fits_iff.mpr ⟨c.toNat_lt, hbytes⟩)).mpr hall

/-- With an initial capacity of 1 the second `push` writes outside of the block. Kind: P -/
theorem push_outside :
    ¬ ∀ (e : ℕ) (c : UInt64) (ops : List (Op ℕ)),
      Agrees Refines (runWith (step e) (init e c : Vector ℕ) ops) (runWith specStep [] ops) := by
  intro h
  obtain ⟨v, hrun, -⟩ := h 8 1 [.push 5, .push 6]
  have hnone : runWith (step 8) (init 8 1 : Vector ℕ) [.push 5, .push 6] = none := by decide
  rw [hnone] at hrun
  cases hrun

end Vector

end CxyCompiler.Stdlib
