import Mathlib.Algebra.Ring.Int.Defs
import Mathlib.Algebra.Order.Ring.Nat
import Mathlib.Data.Int.Order.Basic

/-!
# Durations (`stdlib/time.cxy`)

A duration is a number of a unit. A comparison converts the left one into the unit of the right one:
towards a smaller unit by a product, towards a greater one by a division that truncates.

* `Years.as`, …, `Millis.as`, `Duration.as` — the conversions.
* `Duration.eq`, `Duration.lt`, `Duration.gt` — the comparisons.
* `as_toInt` — a conversion truncates the number of milliseconds.
* `comparisons_consistent_iff` — **comparisons are consistent exactly where neither side is
  truncated to the other one**.
-/

namespace CxyCompiler.Stdlib.Time

/-- The structures `Years`, …, `Millis`. -/
inductive TimeUnit
  | years
  | months
  | days
  | hours
  | minutes
  | seconds
  | millis
deriving DecidableEq, Repr

/-- What a conversion does to the value. -/
inductive Scale
  | same
  | times (k : ℕ)
  | quotient (k : ℕ)
deriving DecidableEq, Repr

/-! ## Conversions -/

/-- Source: `time.cxy` `Years.as`. -/
def Years.as : TimeUnit → Scale
  | .years => .same
  | .months => .times 12
  | .days => .times 365
  | .hours => .times 8760
  | .minutes => .times 525600
  | .seconds => .times 31536000
  | .millis => .times 31536000000

/-- Source: `time.cxy` `Months.as`. -/
def Months.as : TimeUnit → Scale
  | .years => .quotient 12
  | .months => .same
  | .days => .times 30
  | .hours => .times 720
  | .minutes => .times 43200
  | .seconds => .times 2592000
  | .millis => .times 2592000000

/-- Source: `time.cxy` `Days.as`. -/
def Days.as : TimeUnit → Scale
  | .years => .quotient 365
  | .months => .quotient 30
  | .days => .same
  | .hours => .times 24
  | .minutes => .times 1440
  | .seconds => .times 86400
  | .millis => .times 86400000

/-- Source: `time.cxy` `Hours.as`. -/
def Hours.as : TimeUnit → Scale
  | .years => .quotient 8760
  | .months => .quotient 720
  | .days => .quotient 24
  | .hours => .same
  | .minutes => .times 60
  | .seconds => .times 3600
  | .millis => .times 3600000

/-- Source: `time.cxy` `Minutes.as`. -/
def Minutes.as : TimeUnit → Scale
  | .years => .quotient 525600
  | .months => .quotient 43200
  | .days => .quotient 1440
  | .hours => .quotient 60
  | .minutes => .same
  | .seconds => .times 60
  | .millis => .times 60000

/-- Source: `time.cxy` `Seconds.as`. -/
def Seconds.as : TimeUnit → Scale
  | .years => .quotient 31536000
  | .months => .quotient 2592000
  | .days => .quotient 86400
  | .hours => .quotient 3600
  | .minutes => .quotient 60
  | .seconds => .same
  | .millis => .times 1000

/-- Source: `time.cxy` `Millis.as`. -/
def Millis.as : TimeUnit → Scale
  | .years => .quotient 31536000000
  | .months => .quotient 2592000000
  | .days => .quotient 86400000
  | .hours => .quotient 3600000
  | .minutes => .quotient 60000
  | .seconds => .quotient 1000
  | .millis => .same

def TimeUnit.as : TimeUnit → TimeUnit → Scale
  | .years => Years.as
  | .months => Months.as
  | .days => Days.as
  | .hours => Hours.as
  | .minutes => Minutes.as
  | .seconds => Seconds.as
  | .millis => Millis.as

def Scale.apply (value : Int64) : Scale → Int64
  | .same => value
  | .times k => value * Int64.ofNat k
  | .quotient k => value / Int64.ofNat k

structure Duration where
  unit : TimeUnit
  value : Int64
deriving DecidableEq, Repr

namespace Duration

/-- The value of `this as Unit`. -/
def as (a : Duration) (unit : TimeUnit) : Int64 := (a.unit.as unit).apply a.value

/-! ## Comparisons -/

/-- Source: `time.cxy` `==` of each unit. -/
def eq (a b : Duration) : Bool := a.as b.unit = b.value

/-- Source: `time.cxy` `!=` of each unit. -/
def ne (a b : Duration) : Bool := !a.eq b

/-- Source: `time.cxy` `<` of each unit. -/
def lt (a b : Duration) : Bool := a.as b.unit < b.value

/-- Source: `time.cxy` `>` of each unit. -/
def gt (a b : Duration) : Bool := b.value < a.as b.unit

/-- Source: `time.cxy` `<=` of each unit. -/
def le (a b : Duration) : Bool := !a.gt b

/-- Source: `time.cxy` `>=` of each unit. -/
def ge (a b : Duration) : Bool := !a.lt b

end Duration

/-! ## Milliseconds -/

/-- The milliseconds of a unit. -/
def TimeUnit.millisPer : TimeUnit → ℕ
  | .years => 31536000000
  | .months => 2592000000
  | .days => 86400000
  | .hours => 3600000
  | .minutes => 60000
  | .seconds => 1000
  | .millis => 1

namespace Duration

/-- How long a duration is. -/
def inMillis (a : Duration) : ℤ := a.value.toInt * a.unit.millisPer

/-- The duration does not overflow when it is converted to `Millis`. -/
def Fits (a : Duration) : Prop := -2 ^ 63 ≤ a.inMillis ∧ a.inMillis < 2 ^ 63

/-- Truncated to the unit of the other one, the duration has its value, but it is not as long. -/
def Truncated (a b : Duration) : Prop :=
  a.inMillis.tdiv b.unit.millisPer = b.value.toInt ∧ a.inMillis ≠ b.inMillis

end Duration

/-- What a conversion is, by the milliseconds of the units. -/
def Scale.converts (from_ to_ : ℕ) : Scale → Bool
  | .same => from_ = to_
  | .times k => k < 2 ^ 63 && from_ = k * to_
  | .quotient k => 1 < k && k < 2 ^ 63 && to_ = k * from_

/-- **The tables agree with the milliseconds**, for all units but years. Kind: L -/
theorem converts {u v : TimeUnit} (hu : u ≠ .years) (hv : v ≠ .years) :
    (u.as v).converts u.millisPer v.millisPer = true := by
  cases u <;> cases v <;> first
    | exact absurd rfl hu
    | exact absurd rfl hv
    | decide

theorem millisPer_pos (u : TimeUnit) : 0 < u.millisPer := by
  cases u <;> decide

/-- A product that fits does not wrap around. Kind: L -/
theorem toInt_mul_ofNat {x : Int64} {k : ℕ} (hk : k < 2 ^ 63) (hlow : -2 ^ 63 ≤ x.toInt * k)
    (hhigh : x.toInt * k < 2 ^ 63) : (x * Int64.ofNat k).toInt = x.toInt * k := by
  rw [Int64.toInt_mul, Int64.toInt_ofNat_of_lt hk]
  exact Int.bmod_eq_of_le hlow hhigh

theorem toInt_div_ofNat {x : Int64} {k : ℕ} (hpos : 0 < k) (hk : k < 2 ^ 63) :
    (x / Int64.ofNat k).toInt = x.toInt.tdiv k := by
  have hne : Int64.ofNat k ≠ -1 := by
    intro heq
    have hval := Int64.toInt_ofNat_of_lt hk
    rw [heq] at hval
    have hneg : (-1 : Int64).toInt = -1 := by decide
    omega
  rw [Int64.toInt_div_of_ne_right _ _ hne, Int64.toInt_ofNat_of_lt hk]

/-- Where a product fits, a factor does. Kind: L -/
theorem between_of_mul {y f : ℤ} (hf : 1 ≤ f) (h : -2 ^ 63 ≤ y * f ∧ y * f < 2 ^ 63) :
    -2 ^ 63 ≤ y ∧ y < 2 ^ 63 := by
  rcases Int.le_total 0 y with hy | hy
  · have hle : y * 1 ≤ y * f := Int.mul_le_mul_of_nonneg_left hf hy
    omega
  · have hle : y * f ≤ y * 1 := Int.mul_le_mul_of_nonpos_left hy hf
    omega

/-- **A conversion truncates the number of milliseconds.** Kind: P -/
theorem as_toInt {a : Duration} {unit : TimeUnit} (ha : a.unit ≠ .years) (hunit : unit ≠ .years)
    (hfits : a.Fits) : (a.as unit).toInt = a.inMillis.tdiv unit.millisPer := by
  have hconverts := converts ha hunit
  have hpos := millisPer_pos unit
  have hpos' := millisPer_pos a.unit
  unfold Duration.as
  unfold Duration.Fits Duration.inMillis at hfits
  unfold Duration.inMillis
  cases hscale : a.unit.as unit with
  | same =>
      rw [hscale] at hconverts
      have heq : a.unit.millisPer = unit.millisPer := of_decide_eq_true hconverts
      rw [heq, Int.mul_tdiv_cancel _ (by omega)]
      rfl
  | times k =>
      rw [hscale, Scale.converts, Bool.and_eq_true, decide_eq_true_iff, decide_eq_true_iff]
        at hconverts
      obtain ⟨hk, heq⟩ := hconverts
      have hprod : a.value.toInt * a.unit.millisPer = a.value.toInt * k * unit.millisPer := by
        rw [heq, Nat.cast_mul, Int.mul_assoc]
      rw [hprod] at hfits ⊢
      rw [Int.mul_tdiv_cancel _ (by omega)]
      obtain ⟨hlow, hhigh⟩ := between_of_mul (by omega) hfits
      exact toInt_mul_ofNat hk hlow hhigh
  | quotient k =>
      rw [hscale, Scale.converts, Bool.and_eq_true, Bool.and_eq_true, decide_eq_true_iff,
        decide_eq_true_iff, decide_eq_true_iff] at hconverts
      obtain ⟨⟨hk1, hk⟩, heq⟩ := hconverts
      have hcancel : a.value.toInt * a.unit.millisPer = a.unit.millisPer * a.value.toInt :=
        Int.mul_comm _ _
      have hunit' : (unit.millisPer : ℤ) = a.unit.millisPer * k := by
        rw [heq, Nat.cast_mul, Int.mul_comm]
      rw [hcancel, hunit', Int.mul_tdiv_mul_of_pos _ _ (by omega)]
      exact toInt_div_ofNat (by omega) hk

/-! ## Consistency -/

/-- What comparisons of two durations have to say. -/
structure Consistent (a b : Duration) : Prop where
  symmetric : a.eq b = true ↔ b.eq a = true
  equal : a.eq b = true ↔ a.inMillis = b.inMillis
  opposite : a.lt b = true ↔ b.gt a = true
  shorter : a.lt b = true ↔ a.inMillis < b.inMillis
  one : (a.lt b = true ∧ a.eq b = false ∧ a.gt b = false) ∨
    (a.lt b = false ∧ a.eq b = true ∧ a.gt b = false) ∨
    (a.lt b = false ∧ a.eq b = false ∧ a.gt b = true)

/-- A truncated quotient against a whole number. Kind: L -/
theorem tdiv_compare {m y f : ℤ} (hf : 0 < f) :
    (m = y * f → m.tdiv f = y) ∧ (m < y * f → m.tdiv f ≤ y) ∧ (y * f < m → y ≤ m.tdiv f) := by
  have hexact : (y * f).tdiv f = y := Int.mul_tdiv_cancel y (Int.ne_of_gt hf)
  refine ⟨fun h => by rw [h, hexact], fun h => ?_, fun h => ?_⟩
  · have hle := Int.tdiv_le_tdiv hf (Int.le_of_lt h)
    rwa [hexact] at hle
  · have hle := Int.tdiv_le_tdiv hf (Int.le_of_lt h)
    rwa [hexact] at hle

/-- The comparisons of two durations, by the conversion of the left one. Kind: L -/
theorem compares {a b : Duration} (ha : a.unit ≠ .years) (hb : b.unit ≠ .years) (hfits : a.Fits) :
    (a.eq b = true ↔ a.inMillis.tdiv b.unit.millisPer = b.value.toInt) ∧
    (a.lt b = true ↔ a.inMillis.tdiv b.unit.millisPer < b.value.toInt) ∧
    (a.gt b = true ↔ b.value.toInt < a.inMillis.tdiv b.unit.millisPer) := by
  have has := as_toInt ha hb hfits
  unfold Duration.eq Duration.lt Duration.gt
  rw [decide_eq_true_iff, decide_eq_true_iff, decide_eq_true_iff, ← Int64.toInt_inj,
    Int64.lt_iff_toInt_lt, Int64.lt_iff_toInt_lt, has]
  exact ⟨Iff.rfl, Iff.rfl, Iff.rfl⟩

/-- **Where the left duration is not truncated to the right one, the comparisons are those of the
milliseconds.** Kind: P -/
theorem compares_millis {a b : Duration} (ha : a.unit ≠ .years) (hb : b.unit ≠ .years)
    (hfits : a.Fits) (htruncated : ¬ a.Truncated b) :
    (a.eq b = true ↔ a.inMillis = b.inMillis) ∧ (a.lt b = true ↔ a.inMillis < b.inMillis) ∧
    (a.gt b = true ↔ b.inMillis < a.inMillis) := by
  obtain ⟨heq, hlt, hgt⟩ := compares ha hb hfits
  have hpos : (0 : ℤ) < b.unit.millisPer := Int.natCast_pos.mpr (millisPer_pos _)
  have hm := tdiv_compare (m := a.inMillis) (y := b.value.toInt) hpos
  change (a.inMillis = b.inMillis → _) ∧ (a.inMillis < b.inMillis → _) ∧
    (b.inMillis < a.inMillis → _) at hm
  unfold Duration.Truncated at htruncated
  refine ⟨?_, ?_, ?_⟩
  · rw [heq]
    omega
  · rw [hlt]
    omega
  · rw [hgt]
    omega

/-- **Comparisons are consistent exactly where neither duration is truncated to the other one.**
Kind: P -/
theorem comparisons_consistent_iff {a b : Duration} (ha : a.unit ≠ .years) (hb : b.unit ≠ .years)
    (hfitsA : a.Fits) (hfitsB : b.Fits) :
    Consistent a b ↔ ¬ a.Truncated b ∧ ¬ b.Truncated a := by
  constructor
  · rintro ⟨hsymmetric, hequal, -, -, -⟩
    have heqA := (compares ha hb hfitsA).1
    have heqB := (compares hb ha hfitsB).1
    refine ⟨fun h => h.2 (hequal.mp (heqA.mpr h.1)), fun h => h.2 ?_⟩
    exact (hequal.mp (hsymmetric.mpr (heqB.mpr h.1))).symm
  · rintro ⟨hA, hB⟩
    obtain ⟨heqA, hltA, hgtA⟩ := compares_millis ha hb hfitsA hA
    obtain ⟨heqB, -, hgtB⟩ := compares_millis hb ha hfitsB hB
    have hone : ∀ x y z : Bool, ((x = true ∧ y = false ∧ z = false) ∨
        (x = false ∧ y = true ∧ z = false) ∨ (x = false ∧ y = false ∧ z = true)) ↔
        ((x = true ∧ ¬ y = true ∧ ¬ z = true) ∨ (¬ x = true ∧ y = true ∧ ¬ z = true) ∨
        (¬ x = true ∧ ¬ y = true ∧ z = true)) := by decide
    refine ⟨?_, heqA, ?_, hltA, ?_⟩
    · rw [heqA, heqB]
      exact eq_comm
    · rw [hltA, hgtB]
    · rw [hone, heqA, hltA, hgtA]
      omega

/-- A day and 49 hours. Kind: L -/
theorem day_hours_consistent : Consistent ⟨.days, 1⟩ ⟨.hours, 49⟩ := by
  refine (comparisons_consistent_iff (a := ⟨.days, 1⟩) (b := ⟨.hours, 49⟩) (by decide) (by decide)
    ?_ ?_).2 ?_
  · exact ⟨by decide, by decide⟩
  · exact ⟨by decide, by decide⟩
  · exact ⟨fun h => absurd h.1 (by decide), fun h => absurd h.1 (by decide)⟩

/-- 25 hours are equal to a day, but a day is not equal to 25 hours. Kind: P -/
theorem hours_day_inconsistent : Duration.eq ⟨.hours, 25⟩ ⟨.days, 1⟩ = true ∧
    Duration.eq ⟨.days, 1⟩ ⟨.hours, 25⟩ = false ∧ Duration.gt ⟨.hours, 25⟩ ⟨.days, 1⟩ = false ∧
    Duration.lt ⟨.days, 1⟩ ⟨.hours, 25⟩ = true ∧
    ¬ Consistent ⟨.hours, 25⟩ ⟨.days, 1⟩ := by
  refine ⟨by decide, by decide, by decide, by decide, fun h => ?_⟩
  exact absurd (h.symmetric.mp (by decide)) (by decide)

end CxyCompiler.Stdlib.Time
