import CxyCompiler.Core.Numerals
import CxyCompiler.Stdlib.Value

/-!
# Integers on an output stream (`runtime/builtins.cxy`)

Each integer is cast to `i128` and written from there, in chunks of 19 digits.

* `sputu128_eq` — **the chunks are the decimal numeral**.
* `sputi128_eq` — of a negative number, the sign and the numeral of the rest; the smallest one is
  its own negative.
* `writeInteger_iff` — **the numeral is written if and only if the value fits into `i128`**.
-/

namespace CxyCompiler.Stdlib.OutputStream

open CxyCompiler.Core CxyCompiler.Lib.Numeral

/-! ## The functions -/

/-- `sprintf` with `%llu`. Source: `builtins.cxy` `sputu128`. -/
def putU64 (u : BitVec 64) : List UInt8 := decimal u.toNat

/-- `sprintf` with `%019llu`. Source: `builtins.cxy` `sputu128`. -/
def putChunk (u : BitVec 64) : List UInt8 := padded 19 u.toNat

/-- Source: `builtins.cxy` `D19`. -/
def D19 : BitVec 64 := 10000000000000000000

/-- Source: `builtins.cxy` `D38`. -/
def D38 : U128 := D19.setWidth 128 * D19.setWidth 128

/-- What is written to the buffer. Source: `builtins.cxy` `sputu128`. -/
def sputu128 (value : U128) : List UInt8 :=
  if value < D19.setWidth 128 then putU64 (value.setWidth 64)
  else if value < D38 then
    putU64 ((value / D19.setWidth 128).setWidth 64) ++ putChunk
      ((value % D19.setWidth 128).setWidth 64)
  else
    let remaining := value % D38
    putU64 ((value / D38).setWidth 64) ++ putChunk ((remaining / D19.setWidth 128).setWidth 64) ++
      putChunk ((remaining % D19.setWidth 128).setWidth 64)

/-- Source: `builtins.cxy` `sputi128`. -/
def sputi128 (value : BitVec 128) (size : ℕ) : List UInt8 :=
  if value.toInt < 0 then if 1 < size then ascii '-' :: sputu128 (-value) else []
  else sputu128 value

/-- Source: `builtins.cxy` `OutputStream.appendSignedInt`. -/
def appendSignedInt (num : BitVec 128) : List UInt8 := sputi128 num 64

/-- Source: `types.h` `INTEGER_TYPE_LIST`. -/
inductive IntegerType
  | u8 | u16 | u32 | u64 | u128
  | i8 | i16 | i32 | i64 | i128
  deriving DecidableEq

namespace IntegerType

def bits : IntegerType → ℕ
  | u8 | i8 => 8
  | u16 | i16 => 16
  | u32 | i32 => 32
  | u64 | i64 => 64
  | u128 | i128 => 128

def isSigned : IntegerType → Bool
  | u8 | u16 | u32 | u64 | u128 => false
  | i8 | i16 | i32 | i64 | i128 => true

/-- The number that a value of the type stands for. -/
def toInt (t : IntegerType) (v : BitVec t.bits) : ℤ := if t.isSigned then v.toInt else v.toNat

/-- The cast `<i128>val`. -/
def toI128 (t : IntegerType) (v : BitVec t.bits) : BitVec 128 :=
  if t.isSigned then v.signExtend 128 else v.setWidth 128

end IntegerType

/-- `os << v` for an integer. Source: `builtins.cxy` `OutputStream.<<`. -/
def writeInteger (t : IntegerType) (v : BitVec t.bits) : List UInt8 := appendSignedInt (t.toI128 v)

/-! ## The chunks -/

/-- **The chunks are the decimal numeral.** Kind: L -/
theorem sputu128_eq (u : U128) : sputu128 u = decimal u.toNat := by
  have h19 : (D19.setWidth 128).toNat = 10 ^ 19 := by decide
  have h38 : D38.toNat = 10 ^ 38 := by decide
  have hu := u.isLt
  have hput : ∀ {v : U128} {n : ℕ}, v.toNat = n → n < 2 ^ 64 → (v.setWidth 64).toNat = n := by
    rintro v n rfl hn
    exact toNat_setWidth_of_lt hn
  have hless : ∀ {d : U128}, u < d ↔ u.toNat < d.toNat := BitVec.lt_def
  unfold sputu128 putU64 putChunk
  dsimp only
  by_cases hsmall : u.toNat < 10 ^ 19
  · rw [if_pos (by rw [hless, h19]; exact hsmall), hput rfl (by omega)]
  rw [if_neg (by rw [hless, h19]; exact hsmall), decimal_chunks (not_lt.mp hsmall)]
  by_cases hmiddle : u.toNat < 10 ^ 38
  · rw [if_pos (by rw [hless, h38]; exact hmiddle),
      hput (by rw [BitVec.toNat_udiv, h19]) (by omega),
      hput (by rw [BitVec.toNat_umod, h19]) (by omega)]
  · have hrest : (u % D38).toNat = u.toNat % 10 ^ 38 := by rw [BitVec.toNat_umod, h38]
    have hhigh : ((u / D38).setWidth 64).toNat = u.toNat / 10 ^ 19 / 10 ^ 19 := by
      apply hput
      · rw [BitVec.toNat_udiv, h38]
        omega
      · omega
    have hmid : ((u % D38 / D19.setWidth 128).setWidth 64).toNat = u.toNat / 10 ^ 19 % 10 ^ 19 := by
      apply hput
      · rw [BitVec.toNat_udiv, hrest, h19]
        omega
      · omega
    have hlow : ((u % D38 % D19.setWidth 128).setWidth 64).toNat = u.toNat % 10 ^ 19 := by
      apply hput
      · rw [BitVec.toNat_umod, hrest, h19]
        omega
      · omega
    rw [if_neg (by rw [hless, h38]; exact hmiddle), hhigh, hmid, hlow,
      ← decimal_chunks (u := u.toNat / 10 ^ 19) (by omega)]

/-- **A negative number is written as its sign and the numeral of the rest**, also the smallest one.
 Kind: L -/
theorem sputi128_eq (i : BitVec 128) {size : ℕ}
    (hsize : 1 < size) : sputi128 i size = numeral i.toInt := by
  unfold sputi128 numeral
  rw [if_pos hsize, sputu128_eq, sputu128_eq]
  by_cases hneg : i.toInt < 0
  · have habs : (-i).toNat = i.toInt.natAbs := by
      have hlt := i.isLt
      rw [BitVec.toInt_eq_toNat_cond] at hneg ⊢
      rw [BitVec.toNat_neg]
      split_ifs at hneg ⊢ with hhigh
      · omega
      · omega
    rw [if_pos hneg, if_pos hneg, habs]
  · have habs : i.toNat = i.toInt.natAbs := by
      have hlt := i.isLt
      rw [BitVec.toInt_eq_toNat_cond] at hneg ⊢
      split_ifs at hneg ⊢ with hhigh
      · omega
      · omega
    rw [if_neg hneg, if_neg hneg, habs]

/-! ## The cast -/

/-- The value of a type of at most 127 bits, or of a signed one, is kept. Kind: L -/
theorem toI128_toInt (t : IntegerType) (v : BitVec t.bits) (h : t.toInt v < 2 ^ 127) :
    (t.toI128 v).toInt = t.toInt v := by
  have hbits : t.bits ≤ 128 := by cases t <;> decide
  unfold IntegerType.toI128
  unfold IntegerType.toInt at h ⊢
  by_cases hsigned : t.isSigned = true
  · rw [if_pos hsigned, if_pos hsigned]
    exact BitVec.toInt_signExtend_of_le hbits
  · rw [if_neg hsigned] at h
    have hle : 2 ^ t.bits ≤ 2 ^ 128 := Nat.pow_le_pow_right (by decide) hbits
    have hlt := v.isLt
    have hset : (v.setWidth 128).toNat = v.toNat := by
      rw [BitVec.toNat_setWidth]
      exact Nat.mod_eq_of_lt (lt_of_lt_of_le hlt hle)
    rw [if_neg hsigned, if_neg hsigned, BitVec.toInt_eq_toNat_cond, hset, if_pos (by omega)]

theorem minus_ne_decimal (s : List UInt8) (n : ℕ) : ascii '-' :: s ≠ decimal n := by
  intro h
  have hdigit := isNumeral_decimal n (ascii '-') (by rw [← h]; exact List.mem_cons_self)
  exact absurd hdigit (by decide)

theorem numeral_injective {i j : ℤ} (h : numeral i = numeral j) : i = j := by
  unfold numeral at h
  split_ifs at h with hi hj hj
  · have habs := decimal_injective (List.cons.inj h).2
    omega
  · exact absurd h (minus_ne_decimal _ _)
  · exact absurd h.symm (minus_ne_decimal _ _)
  · have habs := decimal_injective h
    omega

/-- **The decimal numeral is written if and only if the value is below 2^127**, the bound of the
type that it is cast to. Kind: P -/
theorem writeInteger_iff (t : IntegerType) (v : BitVec t.bits) :
    writeInteger t v = numeral (t.toInt v) ↔ t.toInt v < 2 ^ 127 := by
  unfold writeInteger appendSignedInt
  rw [sputi128_eq _ (by decide)]
  constructor
  · intro h
    rw [← numeral_injective h]
    exact BitVec.toInt_lt
  · intro h
    rw [toI128_toInt t v h]

/-- The first number of `u128` that is written with a sign, 2^127. -/
def firstSigned : BitVec 128 := 170141183460469231731687303715884105728

theorem writeInteger_large : writeInteger .u128 firstSigned ≠ numeral
    (IntegerType.u128.toInt firstSigned) := by
  have hcast : (IntegerType.u128.toI128 firstSigned).toInt =
    -170141183460469231731687303715884105728 := rfl
  have hvalue : IntegerType.u128.toInt firstSigned = 170141183460469231731687303715884105728 := rfl
  unfold writeInteger appendSignedInt
  rw [sputi128_eq _ (by decide), hcast, hvalue]
  intro h
  exact absurd (numeral_injective h) (by decide)

end CxyCompiler.Stdlib.OutputStream
