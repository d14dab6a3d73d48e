import Mathlib.Data.List.Basic
import Mathlib.Data.List.Range

/-!
# Blocks of memory

An allocated block is the list of its cells. A write or a move outside of it is not defined.

* `write`, `move` — `memcpy` into a block, and `memmove` inside of one.
* `write_append` — **a write behind a prefix keeps the prefix**.
* `move_append` — a move reads its whole source before it writes.
* `realloc` — a block of another size, with the cells that both have.
-/

namespace CxyCompiler.Lib.Block

variable {α : Type}

/-- The cells `xs` written from the index `i` on. -/
def write (mem : List α) (i : ℕ) (xs : List α) : Option (List α) :=
  if i + xs.length ≤ mem.length then
    some (mem.take i ++ xs ++ mem.drop (i + xs.length))
  else none

/-- The `n` cells from `src` on, moved to `dst`; the two ranges may overlap. -/
def move (mem : List α) (dst src n : ℕ) : Option (List α) :=
  if src + n ≤ mem.length then write mem dst ((mem.drop src).take n) else none

/-- A block of `n` cells; `fresh` says what the allocator leaves in the new ones. -/
def realloc (fresh : ℕ → α) (mem : List α) (n : ℕ) : List α :=
  mem.take n ++ (List.range (n - mem.length)).map fresh

theorem length_of_write {mem mem' : List α} {i : ℕ} {xs : List α}
    (h : write mem i xs = some mem') : mem'.length = mem.length := by
  unfold write at h
  split_ifs at h with hbound
  cases h
  simp only [List.length_append, List.length_take, List.length_drop]
  omega

theorem length_of_move {mem mem' : List α} {dst src n : ℕ} (h : move mem dst src n = some mem') :
    mem'.length = mem.length := by
  unfold move at h
  split_ifs at h
  exact length_of_write h

/-- **A write behind a prefix keeps the prefix.** Kind: P -/
theorem write_append {p xs r : List α} {i : ℕ} (hi : i = p.length) (h : xs.length ≤ r.length) :
    write (p ++ r) i xs = some (p ++ xs ++ r.drop xs.length) := by
  subst hi
  have hbound : p.length + xs.length ≤ (p ++ r).length := by
    rw [List.length_append]
    omega
  rw [write, if_pos hbound, List.take_left, List.drop_append]
  simp

theorem write_one {p r : List α} {x y : α} {i : ℕ} (hi : i = p.length) :
    write (p ++ x :: r) i [y] = some (p ++ y :: r) := by
  rw [write_append hi (by simp)]
  simp

/-- **A move reads its whole source first.** Kind: P -/
theorem move_append {p q s r : List α} {dst src n : ℕ} (hdst : dst = p.length)
    (hsrc : src = (p ++ q).length) (hn : n = s.length) :
    move (p ++ q ++ s ++ r) dst src n = some (p ++ s ++ (q ++ s ++ r).drop s.length) := by
  subst hsrc hn
  have hbound : (p ++ q).length + s.length ≤ (p ++ q ++ s ++ r).length := by
    simp only [List.length_append]
    omega
  have hread : ((p ++ q ++ s ++ r).drop (p ++ q).length).take s.length = s := by
    rw [List.append_assoc (p ++ q), List.drop_left, List.take_left]
  rw [move, if_pos hbound, hread]
  have hassoc : p ++ q ++ s ++ r = p ++ (q ++ s ++ r) := by simp only [List.append_assoc]
  rw [hassoc, write_append hdst]
  simp only [List.length_append]
  omega

/-- A move by `k` cells to the right, and the cells `xs` written into the gap. Kind: L -/
theorem move_write_append {p s xs r : List α} {dst src n : ℕ} (hsrc : src = p.length)
    (hdst : dst = p.length + xs.length) (hn : n = s.length) (hroom : xs.length ≤ r.length) :
    (move (p ++ s ++ r) dst src n).bind (fun mem => write mem src xs) =
      some (p ++ xs ++ s ++ r.drop xs.length) := by
  subst hsrc hdst hn
  have hbound : p.length + s.length ≤ (p ++ s ++ r).length := by
    simp only [List.length_append]
    omega
  have hread : ((p ++ s ++ r).drop p.length).take s.length = s := by
    rw [List.append_assoc, List.drop_left, List.take_left]
  -- the gap `g` is as long as what is written into it
  obtain ⟨g, t, hgt, hgap⟩ : ∃ g t, s ++ r = g ++ t ∧ g.length = xs.length := by
    refine ⟨(s ++ r).take xs.length, (s ++ r).drop xs.length, (List.take_append_drop _ _).symm, ?_⟩
    rw [List.length_take, List.length_append]
    omega
  have hrest : t.drop s.length = r.drop xs.length := by
    have hdrop := congrArg (List.drop (s.length + xs.length)) hgt
    rw [← List.drop_drop, List.drop_left, Nat.add_comm, ← List.drop_drop, ← hgap,
      List.drop_left] at hdrop
    rw [← hdrop, hgap]
  have hfit : s.length ≤ t.length := by
    have hlen := congrArg List.length hgt
    rw [List.length_append, List.length_append, hgap] at hlen
    omega
  have hfirst : write (p ++ g ++ t) (p.length + xs.length) s =
      some (p ++ (g ++ (s ++ r.drop xs.length))) := by
    rw [write_append (by rw [List.length_append, hgap]) hfit, hrest]
    simp only [List.append_assoc]
  rw [move, if_pos hbound, hread, List.append_assoc, hgt, ← List.append_assoc, hfirst,
    Option.bind_some, write_append rfl, ← hgap, List.drop_left]
  · simp only [List.append_assoc]
  · rw [List.length_append]
    omega

theorem length_realloc (fresh : ℕ → α) (mem : List α) (n : ℕ) :
    (realloc fresh mem n).length = n := by
  simp only [realloc, List.length_append, List.length_take, List.length_map, List.length_range]
  omega

/-- A block that does not get smaller keeps its cells. Kind: L -/
theorem realloc_append {fresh : ℕ → α} {p r : List α} {n : ℕ} (h : p.length ≤ n) :
    ∃ r', realloc fresh (p ++ r) n = p ++ r' ∧ (p ++ r').length = n := by
  refine ⟨r.take (n - p.length) ++ (List.range (n - (p ++ r).length)).map fresh, ?_, ?_⟩
  · rw [realloc, List.take_append, List.take_of_length_le h, List.append_assoc]
  · simp only [List.length_append, List.length_take, List.length_map, List.length_range]
    omega

end CxyCompiler.Lib.Block
