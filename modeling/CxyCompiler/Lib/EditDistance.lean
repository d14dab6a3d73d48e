import Mathlib.Data.List.Basic
import Mathlib.Order.Bounds.Basic
import Mathlib.Order.MinMax

/-!
# Edit distance

A text is edited by putting a character in, by taking one out or by changing one; the distance of
two texts is the least number of edits that lead from one to the other.

* `Edit`, `Edits` — one edit, and so many of them.
* `distance` — the recursion over the first characters.
* `distance_isLeast` — **it is the least number of edits**.
* `distance_cons_self` — **an equal first character is left alone**.
-/

namespace CxyCompiler.Lib.EditDistance

variable {α : Type}

/-- One edit, at any place. -/
inductive Edit : List α → List α → Prop
  | insert (c : α) (xs : List α) : Edit xs (c :: xs)
  | delete (c : α) (xs : List α) : Edit (c :: xs) xs
  | substitute (c d : α) (xs : List α) : Edit (c :: xs) (d :: xs)
  | cons (c : α) {xs ys : List α} : Edit xs ys → Edit (c :: xs) (c :: ys)

/-- So many edits, one after another. -/
inductive Edits : ℕ → List α → List α → Prop
  | refl (xs : List α) : Edits 0 xs xs
  | step {n : ℕ} {xs ys zs : List α} : Edits n xs ys → Edit ys zs → Edits (n + 1) xs zs

theorem Edits.cons (c : α) {n : ℕ} {xs ys : List α} (h : Edits n xs ys) :
    Edits n (c :: xs) (c :: ys) := by
  induction h with
  | refl xs => exact .refl (c :: xs)
  | step _ hedit ih => exact .step ih (.cons c hedit)

theorem Edits.trans {m n : ℕ} {xs ys zs : List α} (h : Edits m xs ys) (h' : Edits n ys zs) :
    Edits (m + n) xs zs := by
  induction h' with
  | refl _ => exact h
  | step _ hedit ih => exact .step (ih h) hedit

theorem Edits.one {xs ys : List α} (h : Edit xs ys) : Edits 1 xs ys := .step (.refl xs) h

variable [DecidableEq α]

def distance : List α → List α → ℕ
  | [], ys => ys.length
  | x :: xs, [] => (x :: xs).length
  | x :: xs, y :: ys =>
      min (distance xs (y :: ys) + 1) (min (distance (x :: xs) ys + 1)
        (distance xs ys + if x = y then 0 else 1))

/-! ## How far one edit leads -/

variable {x y : α} {xs ys zs : List α}

@[simp] theorem distance_nil_left (ys : List α) : distance [] ys = ys.length := by
  rw [distance]

@[simp] theorem distance_nil_right (xs : List α) : distance xs [] = xs.length := by
  cases xs with
  | nil => exact distance_nil_left []
  | cons x xs => rw [distance]

theorem distance_cons_cons : distance (x :: xs) (y :: ys) =
    min (distance xs (y :: ys) + 1) (min (distance (x :: xs) ys + 1)
      (distance xs ys + if x = y then 0 else 1)) := by
  rw [distance]

theorem distance_comm (xs ys : List α) : distance xs ys = distance ys xs := by
  fun_induction distance xs ys with
  | case1 ys => rw [distance_nil_right]
  | case2 x xs => rw [distance_nil_left]
  | case3 x xs y ys ihx ihy ih =>
      rw [ihx, ihy, ih, distance_cons_cons, min_left_comm]
      simp only [eq_comm]

theorem distance_cons_left_le (x : α)
    (xs ys : List α) : distance (x :: xs) ys ≤ distance xs ys + 1 := by
  cases ys with
  | nil => rw [distance_nil_right, distance_nil_right, List.length_cons]
  | cons y ys =>
      rw [distance_cons_cons]
      exact min_le_left _ _

theorem distance_le_cons_left (x : α)
    (xs ys : List α) : distance xs ys ≤ distance (x :: xs) ys + 1 := by
  induction ys with
  | nil =>
      rw [distance_nil_right, distance_nil_right, List.length_cons]
      omega
  | cons y ys ih =>
      have hright := distance_cons_left_le y ys xs
      rw [distance_comm (y :: ys), distance_comm ys] at hright
      rw [distance_cons_cons]
      omega

theorem distance_substitute_le (x y : α) (xs ys : List α) :
    distance ys (y :: xs) ≤ distance ys (x :: xs) + 1 := by
  induction ys with
  | nil => rw [distance_nil_left, distance_nil_left, List.length_cons, List.length_cons]; omega
  | cons z ys ih =>
      rw [distance_cons_cons, distance_cons_cons]
      split_ifs <;> omega

/-- **One edit changes a distance by at most one.** Kind: L -/
theorem distance_edit_le (h : Edit ys zs) (xs : List α) : distance xs zs ≤ distance xs ys + 1 := by
  induction h generalizing xs with
  | insert c ys =>
      have := distance_cons_left_le c ys xs
      rwa [distance_comm, distance_comm xs]
  | delete c ys =>
      have := distance_le_cons_left c ys xs
      rwa [distance_comm, distance_comm xs]
  | substitute c d ys => exact distance_substitute_le c d ys xs
  | cons c _ ih =>
      induction xs with
      | nil =>
          have := ih []
          rw [distance_nil_left, distance_nil_left] at this ⊢
          rw [List.length_cons, List.length_cons]
          omega
      | cons x xs ihx =>
          have hkeep := ih (x :: xs)
          have hboth := ih xs
          rw [distance_cons_cons, distance_cons_cons]
          omega

/-- **An equal first character is left alone.** Kind: P -/
theorem distance_cons_self (x : α)
    (xs ys : List α) : distance (x :: xs) (x :: ys) = distance xs ys := by
  have hleft := distance_le_cons_left x xs ys
  have hright := distance_le_cons_left x ys xs
  rw [distance_comm ys, distance_comm (x :: ys)] at hright
  rw [distance_cons_cons, if_pos rfl]
  omega

/-! ## The least number of edits -/

theorem distance_self (xs : List α) : distance xs xs = 0 := by
  induction xs with
  | nil => exact distance_nil_left []
  | cons x xs ih => rw [distance_cons_self, ih]

theorem distance_le_of_edits {n : ℕ} (h : Edits n xs ys) : distance xs ys ≤ n := by
  induction h with
  | refl xs => rw [distance_self]
  | step _ hedit ih => exact (distance_edit_le hedit _).trans (Nat.succ_le_succ ih)

omit [DecidableEq α] in
theorem edits_nil_left (ys : List α) : Edits ys.length [] ys := by
  induction ys with
  | nil => exact .refl []
  | cons y ys ih => exact .step ih (.insert y ys)

omit [DecidableEq α] in
theorem edits_nil_right (xs : List α) : Edits xs.length xs [] := by
  induction xs with
  | nil => exact .refl []
  | cons x xs ih =>
      rw [List.length_cons, Nat.add_comm]
      exact (Edits.one (.delete x xs)).trans ih

theorem edits_distance (xs ys : List α) : Edits (distance xs ys) xs ys := by
  fun_induction distance xs ys with
  | case1 ys => exact edits_nil_left ys
  | case2 x xs => exact edits_nil_right (x :: xs)
  | case3 x xs y ys ihx ihy ih =>
      have hdelete : Edits (distance xs (y :: ys) + 1) (x :: xs) (y :: ys) := by
        rw [Nat.add_comm]
        exact (Edits.one (.delete x xs)).trans ihx
      have hinsert : Edits (distance (x :: xs) ys + 1) (x :: xs) (y :: ys) :=
        .step ihy (.insert y ys)
      have hboth : Edits (distance xs ys + if x = y then 0 else 1) (x :: xs) (y :: ys) := by
        by_cases hxy : x = y
        · rw [if_pos hxy, hxy, Nat.add_zero]
          exact ih.cons y
        · rw [if_neg hxy]
          exact .step (ih.cons x) (.substitute x y ys)
      rcases min_choice (distance xs (y :: ys) + 1) (min (distance (x :: xs) ys + 1)
        (distance xs ys + if x = y then 0 else 1)) with h | h
      · rwa [h]
      · rw [h]
        rcases min_choice (distance (x :: xs) ys + 1) (distance xs ys + if x = y then 0
          else 1) with h | h
        · rwa [h]
        · rwa [h]

/-- **The distance is the least number of edits.** Kind: P -/
theorem distance_isLeast (xs ys : List α) : IsLeast {n | Edits n xs ys} (distance xs ys) :=
  ⟨edits_distance xs ys, fun _ h => distance_le_of_edits h⟩

end CxyCompiler.Lib.EditDistance
