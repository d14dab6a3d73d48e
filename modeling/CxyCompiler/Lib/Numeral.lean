import Mathlib.Algebra.Order.Ring.Nat
import Mathlib.Data.List.Basic
import Mathlib.Data.UInt

/-!
# Numerals

Texts of ASCII digits and the numbers they stand for.

* `digitOf` — the value of a digit; letters of both cases go on from 10.
* `IsNumeral`, `value` — texts of digits of a base, and **what they stand for**.
* `decimal` — the decimal numeral of a number; `value_decimal` reads it back.
* `decimal_mul_pow_add` — **a number is written as its high part and `k` digits of its low part**,
  with zeros in front of the low part.
-/

namespace CxyCompiler.Lib.Numeral

/-- An ASCII character. -/
def ascii (c : Char) : UInt8 := c.toNat.toUInt8

/-- A property of all characters is checked one by one. Kind: L -/
theorem forall_byte {p : UInt8 → Prop} (h : ∀ n : ℕ, n < 256 → p n.toUInt8) (c : UInt8) : p c := by
  have := h c.toNat c.toNat_lt
  rwa [show c.toNat.toUInt8 = c from UInt8.ofNat_toNat] at this

/-! ## Digits -/

/-- The value of a digit. -/
def digitOf (c : UInt8) : Option ℕ :=
  if ascii '0' ≤ c ∧ c ≤ ascii '9' then some (c.toNat - 48)
  else if ascii 'a' ≤ c ∧ c ≤ ascii 'z' then some (c.toNat - 97 + 10)
  else if ascii 'A' ≤ c ∧ c ≤ ascii 'Z' then some (c.toNat - 65 + 10)
  else none

/-- The characters that are digits of a base. -/
def isDigitOf (base : ℕ) (c : UInt8) : Bool := (digitOf c).any (· < base)

/-- A text of digits. -/
def IsNumeral (base : ℕ) (ds : List UInt8) : Prop := ∀ c ∈ ds, isDigitOf base c = true

/-- The number read so far, and a digit behind it. -/
def shift (base acc : ℕ) (c : UInt8) : ℕ := acc * base + (digitOf c).getD 0

/-- What a text of digits stands for. -/
def value (base : ℕ) (ds : List UInt8) : ℕ := ds.foldl (shift base) 0

variable {base : ℕ} {c : UInt8} {ds : List UInt8}

theorem isDigitOf_iff : isDigitOf base c = true ↔ ∃ d, digitOf c = some d ∧ d < base := by
  unfold isDigitOf
  cases digitOf c <;> simp

theorem IsNumeral.cons (h : IsNumeral base (c :: ds)) :
    (∃ d, digitOf c = some d ∧ d < base) ∧ IsNumeral base ds :=
  ⟨Iff.mp isDigitOf_iff (h c List.mem_cons_self), fun d hd => h d (List.mem_cons_of_mem c hd)⟩

theorem isNumeral_takeWhile (base : ℕ) (s : List UInt8) :
    IsNumeral base (s.takeWhile (isDigitOf base)) :=
  fun c hc => List.all_eq_true.mp List.all_takeWhile c hc

/-- What is left behind the characters of a class begins with none of them. Kind: L -/
theorem head_dropWhile (p : UInt8 → Bool) (s : List UInt8) :
    ∀ c ∈ (s.dropWhile p).head?, p c = false := by
  intro c hc
  have hnot := List.head?_dropWhile_not p s
  rw [Option.mem_def] at hc
  rw [hc] at hnot
  exact Bool.eq_false_iff.mpr (by simpa using hnot)

@[simp] theorem value_nil : value base [] = 0 := rfl

theorem value_append_one (ds : List UInt8) (c : UInt8) :
    value base (ds ++ [c]) = shift base (value base ds) c := by
  rw [value, List.foldl_append]
  rfl

/-- A number does not get smaller when digits are read. Kind: L -/
theorem le_foldl_shift (hbase : 0 < base) (ds : List UInt8) (acc : ℕ) :
    acc ≤ ds.foldl (shift base) acc := by
  induction ds generalizing acc with
  | nil => exact Nat.le_refl acc
  | cons c ds ih =>
      have hshift : acc ≤ shift base acc c :=
        Nat.le_trans (Nat.le_mul_of_pos_right acc hbase) (Nat.le_add_right _ _)
      exact Nat.le_trans hshift (ih _)

/-! ## Decimal numerals -/

/-- A decimal digit. -/
def digit (d : ℕ) : UInt8 := ascii d.digitChar

/-- The decimal numeral of a number. -/
def decimal (n : ℕ) : List UInt8 := (Nat.toDigits 10 n).map ascii

theorem digitOf_digit {d : ℕ} (h : d < 10) : digitOf (digit d) = some d := by
  have hall : ∀ d : ℕ, d < 10 → digitOf (digit d) = some d := by decide
  exact hall d h

theorem decimal_of_lt {n : ℕ} (h : n < 10) : decimal n = [digit n] := by
  rw [decimal, Nat.toDigits_of_lt_base h]
  rfl

theorem decimal_of_le {n : ℕ} (h : 10 ≤ n) : decimal n = decimal (n / 10) ++ [digit (n % 10)] := by
  rw [decimal, Nat.toDigits_of_base_le (by decide) h, List.map_append]
  rfl

theorem decimal_ne_nil (n : ℕ) : decimal n ≠ [] := by
  simp [decimal, Nat.toDigits_ne_nil]

theorem isNumeral_decimal (n : ℕ) : IsNumeral 10 (decimal n) := by
  induction n using Nat.strong_induction_on with | h n ih
  have hdigit : ∀ d, d < 10 → isDigitOf 10 (digit d) = true :=
    fun d hd => Iff.mpr isDigitOf_iff ⟨d, digitOf_digit hd, hd⟩
  rcases Nat.lt_or_ge n 10 with hlt | hge
  · rw [decimal_of_lt hlt]
    intro c hc
    rw [List.mem_singleton.mp hc]
    exact hdigit n hlt
  · rw [decimal_of_le hge]
    intro c hc
    rcases List.mem_append.mp hc with hc | hc
    · exact ih (n / 10) (by omega) c hc
    · rw [List.mem_singleton.mp hc]
      exact hdigit (n % 10) (by omega)

/-- **The decimal numeral of a number stands for it.** Kind: P -/
theorem value_decimal (n : ℕ) : value 10 (decimal n) = n := by
  induction n using Nat.strong_induction_on with | h n ih
  have hshift : ∀ m d, d < 10 → shift 10 m (digit d) = m * 10 + d := by
    intro m d hd
    rw [shift, digitOf_digit hd]
    rfl
  rcases Nat.lt_or_ge n 10 with hlt | hge
  · rw [decimal_of_lt hlt]
    have := hshift 0 n hlt
    rw [Nat.zero_mul, Nat.zero_add] at this
    exact this
  · rw [decimal_of_le hge, value_append_one, ih (n / 10) (by omega), hshift _ _ (by omega)]
    omega

theorem decimal_injective {n m : ℕ} (h : decimal n = decimal m) : n = m := by
  rw [← value_decimal n, ← value_decimal m, h]

/-- The numeral of a number that is not 0 does not begin with 0. Kind: L -/
theorem decimal_eq_cons {n : ℕ}
    (hn : 0 < n) : ∃ d ds, 0 < d ∧ d < 10 ∧ decimal n = digit d :: ds := by
  induction n using Nat.strong_induction_on with | h n ih
  rcases Nat.lt_or_ge n 10 with hlt | hge
  · exact ⟨n, [], hn, hlt, decimal_of_lt hlt⟩
  · obtain ⟨d, ds, hpos, hd, heq⟩ := ih (n / 10) (by omega) (by omega)
    refine ⟨d, ds ++ [digit (n % 10)], hpos, hd, ?_⟩
    rw [decimal_of_le hge, heq]
    rfl

/-- A greater number has no shorter numeral. Kind: L -/
theorem length_decimal_mono {n : ℕ} : ∀ {m : ℕ},
    n ≤ m → (decimal n).length ≤ (decimal m).length := by
  induction n using Nat.strong_induction_on with | h n ih
  intro m hle
  rcases Nat.lt_or_ge n 10 with hlt | hge
  · rw [decimal_of_lt hlt]
    exact List.length_pos_iff.mpr (decimal_ne_nil m)
  · rw [decimal_of_le hge, decimal_of_le (hge.trans hle), List.length_append, List.length_append]
    exact Nat.add_le_add_right (ih (n / 10) (by omega) (Nat.div_le_div_right hle)) 1

/-- The decimal numeral of a number below `10 ^ k`, with zeros in front of it. -/
def padded (k n : ℕ) : List UInt8 := (decimal n).leftpad k (ascii '0')

theorem length_decimal_le {n k : ℕ} (hk : 0 < k) (h : n < 10 ^ k) : (decimal n).length ≤ k := by
  induction k generalizing n with
  | zero => omega
  | succ k ih =>
      rcases Nat.lt_or_ge n 10 with hlt | hge
      · rw [decimal_of_lt hlt]
        exact Nat.succ_le_succ (Nat.zero_le k)
      · have hpos : 0 < k := by
          rcases Nat.eq_zero_or_pos k with rfl | hpos
          · rw [Nat.zero_add, Nat.pow_one] at h
            omega
          · exact hpos
        have hdiv : n / 10 < 10 ^ k := by
          rw [Nat.pow_succ] at h
          omega
        rw [decimal_of_le hge, List.length_append]
        exact Nat.succ_le_succ (ih hpos hdiv)

/-- The last digit of a padded numeral. Kind: L -/
theorem padded_succ {k n : ℕ} (hk : 0 < k) :
    padded (k + 1) n = padded k (n / 10) ++ [digit (n % 10)] := by
  unfold padded List.leftpad
  rcases Nat.lt_or_ge n 10 with hlt | hge
  · have hzero : digit 0 = ascii '0' := rfl
    rw [decimal_of_lt hlt, Nat.div_eq_of_lt hlt, Nat.mod_eq_of_lt hlt,
      decimal_of_lt (by omega : 0 < 10), hzero, ← List.replicate_succ',
      List.length_singleton, List.length_singleton, Nat.add_sub_cancel, Nat.sub_add_cancel hk]
  · have hlen : k + 1 - ((decimal (n / 10)).length + 1) = k - (decimal (n / 10)).length := by omega
    rw [decimal_of_le hge, List.length_append, List.length_singleton, hlen, List.append_assoc]

/-- **The digits of a high part and of a low part.** Kind: P -/
theorem decimal_mul_pow_add {a b k : ℕ} (ha : 0 < a) (hk : 0 < k) (hb : b < 10 ^ k) :
    decimal (a * 10 ^ k + b) = decimal a ++ padded k b := by
  induction k generalizing b with
  | zero => omega
  | succ k ih =>
      have hpow : a * 10 ^ (k + 1) = a * 10 ^ k * 10 := by rw [Nat.pow_succ, Nat.mul_assoc]
      have hpos : 0 < a * 10 ^ k := Nat.mul_pos ha (Nat.pow_pos (by decide))
      have hlast : decimal (a * 10 ^ (k + 1) + b) =
          decimal (a * 10 ^ k + b / 10) ++ [digit (b % 10)] := by
        have hdiv : (a * 10 ^ (k + 1) + b) / 10 = a * 10 ^ k + b / 10 := by omega
        have hmod : (a * 10 ^ (k + 1) + b) % 10 = b % 10 := by omega
        rw [decimal_of_le (by omega), hdiv, hmod]
      rcases Nat.eq_zero_or_pos k with rfl | hk
      · have hb : b < 10 := hb
        have hpad : padded (0 + 1) b = [digit (b % 10)] := by
          rw [padded, decimal_of_lt hb, Nat.mod_eq_of_lt hb]
          rfl
        rw [hlast, hpad, Nat.pow_zero, Nat.mul_one, Nat.div_eq_of_lt hb, Nat.add_zero]
      · have hb' : b / 10 < 10 ^ k := by
          rw [Nat.pow_succ] at hb
          omega
        rw [hlast, ih hk hb', padded_succ hk, List.append_assoc]

end CxyCompiler.Lib.Numeral
