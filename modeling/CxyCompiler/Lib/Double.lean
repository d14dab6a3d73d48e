import Mathlib.Data.Int.Log
import Mathlib.Algebra.Order.Round
import Mathlib.Data.Rat.Floor

/-!
# Double precision numbers

A finite double is a sign and a magnitude; results are rounded to 53 significant bits, to even on
ties, and to infinity from `2 ^ 1024` on.

* `ofInt`, `add`, `sub`, `mul`, `div`, `neg` — the operations.
* `eq`, `lt`, `le`, `isZero` — the comparisons; no number compares to a NaN.
* `truncate` — the integer part, where there is one.
* `isZero_ofInt` — **rounding an integer gives zero only for zero**.
-/

namespace CxyCompiler.Lib.Double

inductive F64 where
  | nan
  | inf (neg : Bool)
  | fin (neg : Bool) (mag : ℚ)
  deriving DecidableEq

/-- The nearest integer, the even one of two. -/
def roundEven (x : ℚ) : ℤ :=
  let below := ⌊x⌋
  if x - below < 1 / 2 then below
  else if 1 / 2 < x - below then below + 1
  else if below % 2 = 0 then below
  else below + 1

/-- The exponent of the last bit of a magnitude. -/
def lastBit (q : ℚ) : ℤ := max (Int.log 2 q - 52) (-1074)

def roundMag (q : ℚ) : ℚ := if q ≤ 0 then 0 else roundEven (q / 2 ^ lastBit q) * 2 ^ lastBit q

def ofMag (neg : Bool) (q : ℚ) : F64 :=
  if 2 ^ 1024 ≤ roundMag q then .inf neg else .fin neg (roundMag q)

def ofInt (v : ℤ) : F64 := ofMag (decide (v < 0)) |(v : ℚ)|

def signed (neg : Bool) (mag : ℚ) : ℚ := if neg then -mag else mag

def neg : F64 → F64
  | .nan => .nan
  | .inf s => .inf !s
  | .fin s m => .fin (!s) m

def add : F64 → F64 → F64
  | .nan, _ | _, .nan => .nan
  | .inf s, .inf t => if s = t then .inf s else .nan
  | .inf s, .fin _ _ | .fin _ _, .inf s => .inf s
  | .fin s m, .fin t n =>
      let sum := signed s m + signed t n
      if sum = 0 then .fin (s && t) 0 else ofMag (decide (sum < 0)) |sum|

def sub (x y : F64) : F64 := add x (neg y)

def mul : F64 → F64 → F64
  | .nan, _ | _, .nan => .nan
  | .inf s, .inf t => .inf (s != t)
  | .inf s, .fin t m | .fin s m, .inf t => if m = 0 then .nan else .inf (s != t)
  | .fin s m, .fin t n => ofMag (s != t) (m * n)

def div : F64 → F64 → F64
  | .nan, _ | _, .nan => .nan
  | .inf _, .inf _ => .nan
  | .inf s, .fin t _ => .inf (s != t)
  | .fin s _, .inf t => .fin (s != t) 0
  | .fin s m, .fin t n =>
      if n = 0 then (if m = 0 then .nan else .inf (s != t)) else ofMag (s != t) (m / n)

def eq : F64 → F64 → Bool
  | .inf s, .inf t => s == t
  | .fin s m, .fin t n => signed s m == signed t n
  | _, _ => false

def lt : F64 → F64 → Bool
  | .inf s, .inf t => s && !t
  | .inf s, .fin _ _ => s
  | .fin _ _, .inf t => !t
  | .fin s m, .fin t n => signed s m < signed t n
  | _, _ => false

def le (x y : F64) : Bool := lt x y || eq x y

def isZero : F64 → Bool
  | .fin _ m => m == 0
  | _ => false

def truncate : F64 → Option ℤ
  | .fin s m => some (if s then -⌊m⌋ else ⌊m⌋)
  | _ => none

/-- A magnitude of at least one is not rounded to zero. Kind: L -/
theorem roundMag_pos {q : ℚ} (hq : 1 ≤ q) : 0 < roundMag q := by
  have hpos : (0 : ℚ) < q := by linarith
  have hpow : (0 : ℚ) < 2 ^ lastBit q := zpow_pos (by norm_num) _
  unfold roundMag
  rw [if_neg (not_le.mpr hpos)]
  apply mul_pos _ hpow
  rw [Int.cast_pos]
  -- the quotient by the last bit is at least one
  have hlog : (2 : ℚ) ^ Int.log 2 q ≤ q := by
    have := Int.zpow_log_le_self (b := 2) (by norm_num) hpos
    simpa using this
  have hlog0 : 0 ≤ Int.log 2 q := by
    rw [Int.log_of_one_le_right 2 hq]
    exact Int.natCast_nonneg _
  have hlast : lastBit q ≤ Int.log 2 q := by
    unfold lastBit
    omega
  have hquot : 1 ≤ q / 2 ^ lastBit q := by
    rw [le_div_iff₀ hpow, one_mul]
    exact (zpow_le_zpow_right₀ (by norm_num) hlast).trans hlog
  have hfloor : 1 ≤ ⌊q / 2 ^ lastBit q⌋ := by
    rw [Int.le_floor]
    exact_mod_cast hquot
  unfold roundEven
  dsimp only
  split_ifs <;> omega

/-- **An integer becomes zero only if it is zero.** Kind: P -/
theorem isZero_ofInt (v : ℤ) : isZero (ofInt v) = decide (v = 0) := by
  by_cases hv : v = 0
  · subst hv
    decide +kernel
  · have hmag : (1 : ℚ) ≤ |(v : ℚ)| := by
      rw [← Int.cast_abs]
      exact_mod_cast Int.one_le_abs hv
    have hpos := roundMag_pos hmag
    rw [decide_eq_false hv]
    unfold ofInt ofMag
    split_ifs
    · rfl
    · exact beq_eq_false_iff_ne.mpr (ne_of_gt hpos)

end CxyCompiler.Lib.Double
