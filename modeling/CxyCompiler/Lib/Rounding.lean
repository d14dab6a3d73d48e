import CxyCompiler.Lib.Double
import Mathlib.Data.Nat.Log

/-!
# Integers in double precision

* `rounded v` — the integer that stands for `v` when only 53 significant bits are kept.
* `Holds x w` — the double is the integer `w`.
* `holds_ofInt`, `Holds.add`, `Holds.sub`, `Holds.mul`, `Holds.neg` — **an operation on integers
  rounds its exact result**, as long as that is far from the largest double.
* `rounded_of_small`, `rounded_eq_iff` — nothing is lost below `2 ^ 53`, and nothing else becomes
  small.
-/

namespace CxyCompiler.Lib.Double

/-- The quotient nearest to `n / d`, the even one of two. -/
def nearest (n d : ℕ) : ℕ :=
  if 2 * (n % d) < d then n / d
  else if d < 2 * (n % d) then n / d + 1
  else if n / d % 2 = 0 then n / d
  else n / d + 1

/-- The last bit that is kept of a number. -/
def unit (n : ℕ) : ℕ := 2 ^ (n.log2 - 52)

def roundedNat (n : ℕ) : ℕ := nearest n (unit n) * unit n

/-- **The nearest integer with 53 significant bits.** -/
def rounded (v : ℤ) : ℤ := v.sign * roundedNat v.natAbs

/-! ## Magnitudes -/

theorem unit_pos (n : ℕ) : 0 < unit n := Nat.pow_pos (by norm_num)

theorem nearest_one (n : ℕ) : nearest n 1 = n := by
  unfold nearest
  simp [Nat.mod_one]

/-- A quotient of natural numbers is rounded to the nearest one. Kind: L -/
theorem roundEven_div (n : ℕ) {d : ℕ} (hd : 0 < d) : roundEven ((n : ℚ) / d) = nearest n d := by
  have hd' : (0 : ℚ) < d := by exact_mod_cast hd
  have hfloor : ⌊(n : ℚ) / d⌋ = ((n / d : ℕ) : ℤ) := by
    have := Rat.floor_intCast_div_natCast n d
    simpa using this
  have hrest : (n : ℚ) / d - ((n / d : ℕ) : ℚ) = ((n % d : ℕ) : ℚ) / d := by
    have hsum : (n : ℚ) = d * ((n / d : ℕ) : ℚ) + ((n % d : ℕ) : ℚ) := by
      exact_mod_cast (Nat.div_add_mod n d).symm
    rw [eq_div_iff hd'.ne', sub_mul, div_mul_cancel₀ _ hd'.ne']
    linarith
  have hlow : ((n % d : ℕ) : ℚ) / d < 1 / 2 ↔ 2 * (n % d) < d := by
    rw [div_lt_div_iff₀ hd' (by norm_num), one_mul, mul_comm]
    exact_mod_cast Iff.rfl
  have hhigh : 1 / 2 < ((n % d : ℕ) : ℚ) / d ↔ d < 2 * (n % d) := by
    rw [div_lt_div_iff₀ (by norm_num) hd', one_mul, mul_comm]
    exact_mod_cast Iff.rfl
  have heven : (((n / d : ℕ) : ℤ) % 2 = 0) ↔ n / d % 2 = 0 := by omega
  unfold roundEven nearest
  simp only [hfloor, Int.cast_natCast, hrest, hlow, hhigh, heven]
  split_ifs <;> push_cast <;> rfl

theorem roundEven_intCast (k : ℤ) : roundEven (k : ℚ) = k := by
  unfold roundEven
  simp

theorem log_natCast (n : ℕ) : Int.log 2 (n : ℚ) = (n.log2 : ℤ) := by
  rw [Int.log_natCast, Nat.log2_eq_log_two]

/-- A whole magnitude is rounded to a whole one. Kind: L -/
theorem roundMag_natCast (n : ℕ) : roundMag (n : ℚ) = roundedNat n := by
  by_cases hn : n = 0
  · subst hn
    simp [roundMag, roundedNat, nearest]
  have hpos : (0 : ℚ) < n := by exact_mod_cast Nat.pos_of_ne_zero hn
  unfold roundMag
  rw [if_neg (not_le.mpr hpos)]
  by_cases hbig : 52 ≤ n.log2
  · -- the last bit that is kept is a whole number
    have hlast : lastBit (n : ℚ) = ((n.log2 - 52 : ℕ) : ℤ) := by
      unfold lastBit
      rw [log_natCast]
      omega
    have hunit : (2 : ℚ) ^ lastBit (n : ℚ) = (unit n : ℕ) := by
      rw [hlast, zpow_natCast]
      unfold unit
      push_cast
      rfl
    rw [hunit, roundEven_div n (unit_pos n)]
    unfold roundedNat
    push_cast
    rfl
  · -- every bit is kept
    have hlast : lastBit (n : ℚ) = -((52 - n.log2 : ℕ) : ℤ) := by
      unfold lastBit
      rw [log_natCast]
      omega
    have hunit : unit n = 1 := by
      unfold unit
      rw [Nat.sub_eq_zero_of_le (by omega), pow_zero]
    have hpow : (2 : ℚ) ^ lastBit (n : ℚ) ≠ 0 := (zpow_pos (by norm_num) _).ne'
    have hquot : (n : ℚ) / 2 ^ lastBit (n : ℚ) = ((n * 2 ^ (52 - n.log2) : ℕ) : ℤ) := by
      rw [hlast, zpow_neg, div_inv_eq_mul, zpow_natCast]
      push_cast
      rfl
    unfold roundedNat
    rw [hunit, nearest_one, mul_one]
    conv_lhs => rw [hquot]
    rw [roundEven_intCast, ← hquot, div_mul_cancel₀ _ hpow]

theorem nearest_mul_le (n d : ℕ) : nearest n d * d ≤ n + d := by
  have hle : nearest n d ≤ n / d + 1 := by
    unfold nearest
    split_ifs <;> omega
  calc nearest n d * d ≤ (n / d + 1) * d := Nat.mul_le_mul_right d hle
    _ = n / d * d + d := by ring
    _ ≤ n + d := Nat.add_le_add_right (Nat.div_mul_le_self n d) d

theorem unit_le {n : ℕ} (hn : n ≠ 0) : unit n ≤ n :=
  (Nat.pow_le_pow_right (by norm_num) (Nat.sub_le _ _)).trans (Nat.log2_self_le hn)

/-- Rounding at most doubles a magnitude. Kind: L -/
theorem roundedNat_le (n : ℕ) : roundedNat n ≤ 2 * n := by
  by_cases hn : n = 0
  · subst hn
    decide
  · have h := nearest_mul_le n (unit n)
    have hu := unit_le hn
    unfold roundedNat
    omega

/-- Rounding at most halves a magnitude. Kind: L -/
theorem le_roundedNat (n : ℕ) : n ≤ 2 * roundedNat n := by
  have hle : n / unit n ≤ nearest n (unit n) := by
    unfold nearest
    split_ifs <;> omega
  have hmul : n / unit n * unit n ≤ roundedNat n := Nat.mul_le_mul_right _ hle
  have hdiv := Nat.div_add_mod' n (unit n)
  by_cases hsmall : n.log2 ≤ 52
  · have hunit : unit n = 1 := by
      unfold unit
      rw [Nat.sub_eq_zero_of_le hsmall, pow_zero]
    rw [hunit, Nat.mod_one] at hdiv
    rw [hunit] at hmul
    omega
  · -- the unit is at most half of the number
    have hn : n ≠ 0 := by
      rintro rfl
      exact hsmall (by decide)
    have hunit : 2 * unit n ≤ n := by
      calc 2 * unit n = 2 ^ (n.log2 - 52 + 1) := by
            unfold unit
            rw [pow_succ]
            ring
        _ ≤ 2 ^ n.log2 := Nat.pow_le_pow_right (by norm_num) (by omega)
        _ ≤ n := Nat.log2_self_le hn
    have hrest := Nat.mod_lt n (unit_pos n)
    omega

theorem roundedNat_of_small {n : ℕ} (hn : n < 2 ^ 53) : roundedNat n = n := by
  have hlog : n.log2 ≤ 52 := by
    by_cases h : n = 0
    · subst h
      decide
    · exact Nat.le_of_lt_succ ((Nat.log2_lt h).mpr hn)
  unfold roundedNat unit
  rw [Nat.sub_eq_zero_of_le hlog, pow_zero, nearest_one, mul_one]

/-! ## Integers -/

@[simp] theorem rounded_zero : rounded 0 = 0 := rfl

theorem natAbs_rounded (v : ℤ) : (rounded v).natAbs = roundedNat v.natAbs := by
  unfold rounded
  by_cases hv : v = 0
  · subst hv
    decide
  · rw [Int.natAbs_mul, Int.natAbs_sign_of_ne_zero hv, one_mul, Int.natAbs_natCast]

theorem natAbs_rounded_le (v : ℤ) : (rounded v).natAbs ≤ 2 * v.natAbs := by
  rw [natAbs_rounded]
  exact roundedNat_le _

/-- **Nothing is lost below `2 ^ 53`.** Kind: L -/
theorem rounded_of_small {v : ℤ} (hv : v.natAbs < 2 ^ 53) : rounded v = v := by
  unfold rounded
  rw [roundedNat_of_small hv, Int.sign_mul_natAbs]

/-- **A small number is the rounding of itself only.** Kind: L -/
theorem rounded_eq_iff {v k : ℤ} (hk : k.natAbs < 2 ^ 52) : rounded v = k ↔ v = k := by
  constructor
  · intro h
    have hle := le_roundedNat v.natAbs
    rw [← natAbs_rounded, h] at hle
    rw [← h, rounded_of_small (by omega)]
  · rintro rfl
    exact rounded_of_small (by omega)

/-- A sign and a magnitude that are those of an integer, if it is not zero, give its rounding.
Kind: L -/
theorem signed_roundedNat {s : Bool} {w : ℤ} (hs : w ≠ 0 → s = decide (w < 0)) :
    signed s (roundedNat w.natAbs : ℚ) = (rounded w : ℚ) := by
  by_cases hw : w = 0
  · subst hw
    simp [signed, roundedNat, nearest]
  rw [hs hw]
  unfold signed rounded
  by_cases hneg : w < 0
  · simp [hneg, Int.sign_eq_neg_one_of_neg hneg]
  · have hpos : 0 < w := by omega
    simp [hneg, Int.sign_eq_one_of_pos hpos]

/-- The double is this integer. -/
def Holds (x : F64) (w : ℤ) : Prop := ∃ s m, x = .fin s m ∧ 0 ≤ m ∧ signed s m = (w : ℚ)

/-- The magnitude is that of the integer. Kind: L -/
theorem mag_eq {s : Bool} {m : ℚ} {w : ℤ} (hm : 0 ≤ m) (h : signed s m = (w : ℚ)) :
    m = (w.natAbs : ℚ) := by
  have habs : m = |(w : ℚ)| := by
    rw [← h]
    unfold signed
    split_ifs
    · rw [abs_neg, abs_of_nonneg hm]
    · rw [abs_of_nonneg hm]
  rw [habs, Nat.cast_natAbs, Int.cast_abs]

/-- The sign is that of the integer, if it is not zero. Kind: L -/
theorem sign_iff {s : Bool} {m : ℚ} {w : ℤ} (hw : w ≠ 0) (hm : 0 ≤ m) (h : signed s m = (w : ℚ)) :
    s = true ↔ w < 0 := by
  have hw' : (w : ℚ) ≠ 0 := by exact_mod_cast hw
  unfold signed at h
  rw [← Int.cast_lt_zero (R := ℚ), ← h]
  cases s with
  | false => simpa using hm
  | true =>
      simp only [if_true, true_iff, neg_lt_zero] at h ⊢
      apply lt_of_le_of_ne hm
      rintro rfl
      exact hw' (by rw [← h, neg_zero])

/-- Numbers below this bound are rounded to finite doubles. -/
def Bounded (w : ℤ) : Prop := w.natAbs < 2 ^ 1000

/-- What is rounded from a whole magnitude is that integer's rounding. Kind: L -/
theorem holds_ofMag {s : Bool} {w : ℤ} (hw : Bounded w) (hs : w ≠ 0 → s = decide (w < 0)) :
    Holds (ofMag s (w.natAbs : ℚ)) (rounded w) := by
  have hfin : ¬ (2 : ℚ) ^ 1024 ≤ roundMag (w.natAbs : ℚ) := by
    rw [roundMag_natCast, not_le]
    have hle := roundedNat_le w.natAbs
    have hlt : roundedNat w.natAbs < 2 ^ 1024 := by
      unfold Bounded at hw
      omega
    exact_mod_cast hlt
  unfold ofMag
  rw [if_neg hfin, roundMag_natCast]
  exact ⟨_, _, rfl, Nat.cast_nonneg _, signed_roundedNat hs⟩

theorem abs_intCast (w : ℤ) : |(w : ℚ)| = (w.natAbs : ℚ) := by
  rw [Nat.cast_natAbs, Int.cast_abs]

/-- **An integer becomes its rounding.** Kind: P -/
theorem holds_ofInt {v : ℤ} (hv : Bounded v) : Holds (ofInt v) (rounded v) := by
  unfold ofInt
  rw [abs_intCast]
  exact holds_ofMag hv fun _ => rfl

section

variable {x y : F64} {v w : ℤ}

theorem Holds.neg (hx : Holds x v) : Holds (neg x) (-v) := by
  obtain ⟨s, m, rfl, hm, hs⟩ := hx
  refine ⟨!s, m, rfl, hm, ?_⟩
  unfold signed at hs ⊢
  cases s <;> simp at hs ⊢ <;> linarith

theorem Holds.add (hx : Holds x v) (hy : Holds y w) (hb : Bounded (v + w)) :
    Holds (add x y) (rounded (v + w)) := by
  obtain ⟨s, m, rfl, hm, hs⟩ := hx
  obtain ⟨t, n, rfl, hn, ht⟩ := hy
  have hsum : signed s m + signed t n = ((v + w : ℤ) : ℚ) := by
    rw [hs, ht]
    push_cast
    rfl
  unfold Double.add
  simp only [hsum, Int.cast_eq_zero]
  by_cases hz : v + w = 0
  · rw [if_pos hz, hz]
    exact ⟨_, _, rfl, le_rfl, by unfold signed; split_ifs <;> simp⟩
  · rw [if_neg hz, abs_intCast]
    exact holds_ofMag hb fun _ => by simp only [Int.cast_lt_zero]

theorem Holds.sub (hx : Holds x v) (hy : Holds y w) (hb : Bounded (v - w)) :
    Holds (sub x y) (rounded (v - w)) := by
  rw [sub_eq_add_neg] at hb ⊢
  exact hx.add hy.neg hb

theorem Holds.mul (hx : Holds x v) (hy : Holds y w) (hb : Bounded (v * w)) :
    Holds (mul x y) (rounded (v * w)) := by
  obtain ⟨s, m, rfl, hm, hs⟩ := hx
  obtain ⟨t, n, rfl, hn, ht⟩ := hy
  have hmag : m * n = ((v * w).natAbs : ℚ) := by
    rw [mag_eq hm hs, mag_eq hn ht, Int.natAbs_mul]
    push_cast
    rfl
  unfold Double.mul
  dsimp only
  rw [hmag]
  apply holds_ofMag hb
  intro hz
  have hv : v ≠ 0 := left_ne_zero_of_mul hz
  have hw : w ≠ 0 := right_ne_zero_of_mul hz
  have h1 := sign_iff hv hm hs
  have h2 := sign_iff hw hn ht
  rw [Bool.eq_iff_iff, decide_eq_true_iff, mul_neg_iff, ← h1, ← h2]
  have h3 : 0 < v ↔ s = false := by
    rw [← Bool.not_eq_true, h1]
    omega
  have h4 : 0 < w ↔ t = false := by
    rw [← Bool.not_eq_true, h2]
    omega
  rw [h3, h4]
  cases s <;> cases t <;> simp

theorem Holds.truncate (hx : Holds x v) : truncate x = some v := by
  obtain ⟨s, m, rfl, hm, hs⟩ := hx
  have hmag := mag_eq hm hs
  rw [hmag] at hs ⊢
  unfold signed at hs
  unfold Double.truncate
  simp only [Int.floor_natCast]
  apply congrArg some
  apply Int.cast_injective (α := ℚ)
  cases s with
  | false => exact hs
  | true =>
      rw [← hs, if_pos rfl, if_pos rfl, Int.cast_neg, Int.cast_natCast]

theorem Holds.isZero (hx : Holds x v) : isZero x = decide (v = 0) := by
  obtain ⟨s, m, rfl, hm, hs⟩ := hx
  have hmag := mag_eq hm hs
  simp only [Double.isZero, hmag, beq_eq_decide, Nat.cast_eq_zero, Int.natAbs_eq_zero]

theorem Holds.eq (hx : Holds x v) (hy : Holds y w) : eq x y = decide (v = w) := by
  obtain ⟨s, m, rfl, -, hs⟩ := hx
  obtain ⟨t, n, rfl, -, ht⟩ := hy
  simp [Double.eq, hs, ht, beq_eq_decide]

theorem Holds.lt (hx : Holds x v) (hy : Holds y w) : lt x y = decide (v < w) := by
  obtain ⟨s, m, rfl, -, hs⟩ := hx
  obtain ⟨t, n, rfl, -, ht⟩ := hy
  simp [Double.lt, hs, ht]

theorem Holds.le (hx : Holds x v) (hy : Holds y w) : le x y = decide (v ≤ w) := by
  unfold Double.le
  rw [hx.lt hy, hx.eq hy, Bool.eq_iff_iff]
  simp only [Bool.or_eq_true, decide_eq_true_iff]
  omega

end

end CxyCompiler.Lib.Double
