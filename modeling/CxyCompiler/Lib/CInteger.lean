import Mathlib.Algebra.Order.Ring.Nat
import Mathlib.Algebra.Order.Ring.Int
import Mathlib.Data.Int.ModEq

/-!
# Integers of C

An integer type has a width and may have a sign; its values are the numbers it can hold. Conversions
and arithmetic wrap around.

* `Ty.Has`, `Ty.wrap` — the numbers of a type, and the conversion to it.
* `usual` — the type of both operands of a comparison: small ones become `int`, and of two others
  the larger one or the unsigned one is taken.
* `same_iff` — **the comparison of numbers of a type with those of a type that is no larger**.
-/

namespace CxyCompiler.Lib.CInteger

@[ext] structure Ty where
  signed : Bool
  bits : ℕ
  pos : 0 < bits

namespace Ty

/-- Half of how many numbers there are. -/
def half (t : Ty) : ℕ := 2 ^ (t.bits - 1)

def Has (t : Ty) (x : ℤ) : Prop :=
  if t.signed then -(t.half : ℤ) ≤ x ∧ x < t.half else 0 ≤ x ∧ x < 2 * (t.half : ℤ)

instance (t : Ty) (x : ℤ) : Decidable (t.Has x) := by
  unfold Has
  infer_instance

/-- The conversion to the type. -/
def wrap (t : Ty) (x : ℤ) : ℤ := if t.signed then x.bmod (2 * t.half) else x % (2 * (t.half : ℤ))

theorem half_pos (t : Ty) : 0 < t.half := Nat.two_pow_pos _

theorem two_half (t : Ty) : 2 * t.half = 2 ^ t.bits := by
  unfold half
  rw [← Nat.pow_succ', Nat.succ_eq_add_one, Nat.sub_add_cancel t.pos]

theorem half_le {t u : Ty} (h : t.bits ≤ u.bits) : t.half ≤ u.half :=
  Nat.pow_le_pow_right (by decide) (Nat.sub_le_sub_right h 1)

theorem two_half_le {t u : Ty} (h : t.bits < u.bits) : 2 * t.half ≤ u.half := by
  rw [two_half]
  exact Nat.pow_le_pow_right (by decide) (Nat.le_sub_one_of_lt h)

variable {t u : Ty} {x y : ℤ}

theorem has_signed (h : t.signed = true) : t.Has x ↔ -(t.half : ℤ) ≤ x ∧ x < t.half := by
  unfold Has
  rw [if_pos h]

theorem has_unsigned (h : t.signed = false) : t.Has x ↔ 0 ≤ x ∧ x < 2 * (t.half : ℤ) := by
  unfold Has
  rw [if_neg (by rw [h]; exact Bool.false_ne_true)]

/-- **A number of the type stays as it is.** Kind: L -/
theorem wrap_of_has (h : t.Has x) : t.wrap x = x := by
  have hpos := t.half_pos
  unfold wrap
  cases hs : t.signed with
  | false =>
      rw [has_unsigned hs] at h
      exact Int.emod_eq_of_lt h.1 h.2
  | true =>
      rw [has_signed hs] at h
      refine Int.bmod_eq_of_le ?_ ?_
      · omega
      · omega

theorem has_wrap (t : Ty) (x : ℤ) : t.Has (t.wrap x) := by
  have hpos := t.half_pos
  unfold wrap
  cases hs : t.signed with
  | false =>
      rw [has_unsigned hs]
      exact ⟨Int.emod_nonneg _ (by omega), Int.emod_lt_of_pos _ (by omega)⟩
  | true =>
      rw [has_signed hs]
      have hlow := @Int.le_bmod x (2 * t.half) (by omega)
      have hhigh := @Int.bmod_lt x (2 * t.half) (by omega)
      constructor
      · change _ ≤ x.bmod (2 * t.half)
        omega
      · change x.bmod (2 * t.half) < _
        omega

/-- **Numbers are converted to the same one if they differ by a multiple.** Kind: L -/
theorem wrap_eq_wrap_iff : t.wrap x = t.wrap y ↔ (2 * (t.half : ℤ)) ∣ x - y := by
  unfold wrap
  cases hs : t.signed with
  | false => exact Int.emod_eq_emod_iff_emod_sub_eq_zero.trans (Int.dvd_iff_emod_eq_zero).symm
  | true =>
      have hdvd := @Int.dvd_iff_bmod_eq_zero (2 * t.half) (x - y)
      rw [Nat.cast_mul] at hdvd
      exact Int.bmod_eq_bmod_iff_bmod_sub_eq_zero.trans hdvd.symm

theorem wrap_add_wrap (t : Ty) (x y : ℤ) : t.wrap (t.wrap x + y) = t.wrap (x + y) := by
  have hdvd := wrap_eq_wrap_iff.mp (wrap_of_has (t.has_wrap x))
  rwa [wrap_eq_wrap_iff, add_sub_add_right_eq_sub]

end Ty

/-! ## Comparing -/

def int : Ty := ⟨true, 32, by decide⟩

def promote (t : Ty) : Ty := if t.bits < 32 then int else t

/-- The usual arithmetic conversions. -/
def usual (t u : Ty) : Ty :=
  let t := promote t
  let u := promote u
  if t.signed = u.signed then if t.bits ≤ u.bits then u else t
  else if t.signed then if t.bits ≤ u.bits then u else t
  else if u.bits ≤ t.bits then t else u

/-- `x == y`. -/
def same (t u : Ty) (x y : ℤ) : Bool := decide ((usual t u).wrap x = (usual t u).wrap y)

/-- All numbers of `u` are numbers of `t`, or `t` is unsigned and as large. -/
def Assignable (t u : Ty) : Prop :=
  if t.signed && !u.signed then u.bits < t.bits else u.bits ≤ t.bits

instance (t u : Ty) : Decidable (Assignable t u) := by
  unfold Assignable
  infer_instance

variable {t u : Ty} {x y : ℤ}

theorem assignable_le (h : Assignable t u) : u.bits ≤ t.bits := by
  unfold Assignable at h
  split_ifs at h with hsign
  · exact h.le
  · exact h

theorem usual_small (ht : t.bits < 32) (hu : u.bits < 32) : usual t u = int := by
  unfold usual promote
  rw [if_pos ht, if_pos hu]
  rfl

theorem usual_large (ht : ¬ t.bits < 32) (h : Assignable t u) : usual t u = t := by
  have hbits := assignable_le h
  unfold usual promote
  rw [if_neg ht]
  by_cases hu : u.bits < 32
  · rw [if_pos hu]
    change (if t.signed = true then if t.bits ≤ 32 then int else t else if t.signed = true then _
      else if 32 ≤ t.bits then t else int) = t
    cases hs : t.signed with
    | false => rw [if_neg Bool.false_ne_true, if_neg Bool.false_ne_true, if_pos (not_lt.mp ht)]
    | true =>
        rw [if_pos rfl]
        split_ifs with h32
        · exact Ty.ext hs.symm (le_antisymm (not_lt.mp ht) h32)
        · rfl
  · rw [if_neg hu]
    change (if t.signed = u.signed then if t.bits ≤ u.bits then u else t
      else if t.signed = true then
      if t.bits ≤ u.bits then u else t else if u.bits ≤ t.bits then t else u) = t
    by_cases hsame : t.signed = u.signed
    · rw [if_pos hsame]
      split_ifs with hle
      · exact Ty.ext hsame.symm (le_antisymm hbits hle)
      · rfl
    · rw [if_neg hsame, if_pos hbits]
      split_ifs with hs hle
      · have hlt : u.bits < t.bits := by
          unfold Assignable at h
          rwa [if_pos] at h
          rw [hs] at hsame ⊢
          rw [Bool.true_and, Bool.not_eq_true', ← Bool.not_eq_true]
          exact fun hu => hsame hu.symm
        omega
      · rfl
      · rfl

theorem int_has (ht : t.bits < 32) (h : t.Has x) : int.Has x := by
  have hhalf : 2 * t.half ≤ int.half := Ty.two_half_le ht
  rw [Ty.has_signed rfl]
  cases hs : t.signed with
  | false =>
      rw [Ty.has_unsigned hs] at h
      omega
  | true =>
      rw [Ty.has_signed hs] at h
      omega

/-- What is not a number of an unsigned type is negative. Kind: L -/
theorem negative_of_not_has (h : Assignable t u) (hy : u.Has y) (hnot : ¬ t.Has y) :
    t.signed = false ∧ y < 0 ∧ 0 ≤ y + t.half := by
  have hhalf := Ty.half_le (assignable_le h)
  have hpos := u.half_pos
  cases ht : t.signed with
  | true =>
      refine absurd ?_ hnot
      rw [Ty.has_signed ht]
      cases hu : u.signed with
      | true =>
          rw [Ty.has_signed hu] at hy
          omega
      | false =>
          rw [Ty.has_unsigned hu] at hy
          have hlt : u.bits < t.bits := by
            unfold Assignable at h
            rwa [ht, hu] at h
          have htwo := Ty.two_half_le hlt
          omega
  | false =>
      rw [Ty.has_unsigned ht] at hnot
      cases hu : u.signed with
      | true =>
          rw [Ty.has_signed hu] at hy
          exact ⟨rfl, by omega, by omega⟩
      | false =>
          rw [Ty.has_unsigned hu] at hy
          omega

/-- **A number of a type is compared with one of a type that is no larger** as they are, except for
a negative one, which stands for a number of an unsigned type that is not promoted. Kind: P -/
theorem same_iff (h : Assignable t u) (hx : t.Has x) (hy : u.Has y) :
    same t u x y = true ↔ if t.Has y then x = y else 32 ≤ t.bits ∧ x = y + 2 * t.half := by
  have hbits := assignable_le h
  unfold same
  rw [decide_eq_true_iff]
  by_cases hsmall : t.bits < 32
  · have hu : u.bits < 32 := lt_of_le_of_lt hbits hsmall
    rw [usual_small hsmall hu, Ty.wrap_of_has (int_has hsmall hx), Ty.wrap_of_has (int_has hu hy)]
    by_cases hhas : t.Has y
    · rw [if_pos hhas]
    · rw [if_neg hhas]
      refine iff_of_false ?_ (fun hand => absurd hsmall (not_lt.mpr hand.1))
      rintro rfl
      exact hhas hx
  · rw [usual_large hsmall h, Ty.wrap_of_has hx]
    by_cases hhas : t.Has y
    · rw [if_pos hhas, Ty.wrap_of_has hhas]
    · obtain ⟨hs, hneg, hlow⟩ := negative_of_not_has h hy hhas
      have hwrap : t.wrap y = y + 2 * t.half := by
        have hshift : t.wrap y = t.wrap (y + 2 * t.half) := by
          rw [Ty.wrap_eq_wrap_iff]
          exact ⟨-1, by omega⟩
        rw [hshift]
        apply Ty.wrap_of_has
        rw [Ty.has_unsigned hs]
        omega
      rw [if_neg hhas, hwrap]
      exact ⟨fun heq => ⟨not_lt.mp hsmall, heq⟩, fun hand => hand.2⟩

end CxyCompiler.Lib.CInteger
