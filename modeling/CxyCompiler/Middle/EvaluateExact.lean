import CxyCompiler.Lib.Rounding
import CxyCompiler.Middle.EvaluateAgree

/-!
# Integers through doubles

The comptime evaluator computes with doubles, also on integers. An integer literal carries 128 bits
and its sign.

* `literal` — the literal of a number from `-2 ^ 127` to `2 ^ 128 - 1`.
* `exactInteger`, `exactTruth` — what an operator says of two numbers.
* `operand` — the number that the evaluator has for a literal: its signed reading, rounded.
* `folds_exactly_iff` — **folding is exact where the operation on these numbers rounds to the exact
  result, and the byte that lies over the sign flag is right**.
-/

namespace CxyCompiler.Middle.Evaluate

open CxyCompiler.Lib.Double

/-! ## Exact results -/

def Representable (z : ℤ) : Prop := -2 ^ 127 ≤ z ∧ z < 2 ^ 128

instance (z : ℤ) : Decidable (Representable z) := inferInstanceAs (Decidable (_ ∧ _))

/-- A number that an integer literal can be. -/
abbrev Value := {z : ℤ // Representable z}

def literal (z : ℤ) : Expr := .lit (.int (BitVec.ofInt 128 z) (decide (z < 0)))

/-- A bitwise operator in two's complement; 129 bits hold every literal. -/
def bitwise (f : BitVec 129 → BitVec 129 → BitVec 129) (a b : ℤ) : ℤ :=
  (f (BitVec.ofInt 129 a) (BitVec.ofInt 129 b)).toInt

/-- The integer that an operator gives; a division by zero and a negative shift have none. -/
def exactInteger (op : BinaryOp) (a b : ℤ) : Option ℤ :=
  match op with
  | .add => some (a + b)
  | .sub => some (a - b)
  | .mul => some (a * b)
  | .div => if b = 0 then none else some (a.tdiv b)
  | .mod => if b = 0 then none else some (a.tmod b)
  | .bAnd => some (bitwise (· &&& ·) a b)
  | .bOr => some (bitwise (· ||| ·) a b)
  | .bXor => some (bitwise (· ^^^ ·) a b)
  | .shl => if b < 0 then none else some (a * 2 ^ b.toNat)
  | .shr => if b < 0 then none else some (a >>> b.toNat)
  | _ => none

/-- The truth value that a comparison or a logical operator gives. -/
def exactTruth (op : BinaryOp) (a b : ℤ) : Option Bool :=
  match op with
  | .eq => some (a = b)
  | .ne => some (a ≠ b)
  | .lt => some (a < b)
  | .gt => some (b < a)
  | .leq => some (a ≤ b)
  | .geq => some (b ≤ a)
  | .lAnd => some (a ≠ 0 ∧ b ≠ 0)
  | .lOr => some (a ≠ 0 ∨ b ≠ 0)
  | _ => none

def exactUnary (op : UnaryOp) (a : ℤ) : Option ℤ :=
  match op with
  | .plus => some a
  | .minus => some (-a)
  | .compl => some (-a - 1)
  | .not | .other => none

/-! ## The numbers of the evaluator -/

/-- The signed reading of 128 bits. -/
def reading (z : ℤ) : ℤ := z.bmod (2 ^ 128)

def operand (z : ℤ) : ℤ := rounded (reading z)

/-- The number fits into 64 bits. -/
def Narrow (x : ℤ) : Prop := -2 ^ 63 ≤ x ∧ x < 2 ^ 63

instance (x : ℤ) : Decidable (Narrow x) := inferInstanceAs (Decidable (_ ∧ _))

/-- The operation on rounded operands: on 64-bit integers for all but three operators. -/
def onOperands (op : BinaryOp) (x y : ℤ) : Option ℤ :=
  match op with
  | .add | .sub | .mul => exactInteger op x y
  | .div | .mod =>
      if Narrow x ∧ Narrow y ∧ ¬ (x = -2 ^ 63 ∧ y = -1) then exactInteger op x y else none
  | .bAnd | .bOr | .bXor => if Narrow x ∧ Narrow y then exactInteger op x y else none
  | .shl => if Narrow x ∧ 0 ≤ y ∧ y < 64 then some ((x * 2 ^ y.toNat).bmod (2 ^ 64)) else none
  | .shr => if Narrow x ∧ 0 ≤ y ∧ y < 64 then exactInteger op x y else none
  | _ => none

/-! ## Exactness -/

section

variable (strings : Comptime.Strings)

/-- **Folding gives the exact result, wherever there is one.** -/
def FoldsBinary (op : BinaryOp) (a b : ℤ) (overlaid : Bool) : Prop :=
  (∀ z, exactInteger op a b = some z → Representable z →
    Comptime.evaluate strings (.binary op (literal a) (literal b) overlaid) = some (literal z)) ∧
  ∀ t, exactTruth op a b = some t →
    Comptime.evaluate strings (.binary op (literal a) (literal b) overlaid) = some (.lit (.bool t))

def FoldsUnary (op : UnaryOp) (a : ℤ) : Prop :=
  (∀ z, exactUnary op a = some z → Representable z →
    Comptime.evaluate strings (.unary op true (literal a)) = some (literal z)) ∧
  (op = .not →
    Comptime.evaluate strings (.unary op true (literal a)) = some (.lit (.bool (a = 0))))

/-- The rounding of the operands and of the result does not show, the result is below `2 ^ 127`, and
the overlaid byte is its sign. Comparisons go by the rounded operands. -/
def BinaryFaithful (op : BinaryOp) (a b : ℤ) (overlaid : Bool) : Prop :=
  (∀ z, exactInteger op a b = some z → Representable z →
    ∃ w, onOperands op (operand a) (operand b) = some w ∧ rounded w = z ∧ z < 2 ^ 127 ∧
      (overlaid = true ↔ z < 0)) ∧
  exactTruth op (operand a) (operand b) = exactTruth op a b

/-- A sign leaves a number that rounding leaves; `~` is refused. -/
def UnaryFaithful (op : UnaryOp) (a : ℤ) : Prop :=
  ∀ z, exactUnary op a = some z → Representable z → op ≠ .compl ∧ operand a = a

variable {strings}

/-! ## Literals -/

theorem literal_bits (a : ℤ) : (BitVec.ofInt 128 a).toInt = reading a := BitVec.toInt_ofInt a

theorem natAbs_reading (a : ℤ) : (reading a).natAbs ≤ 2 ^ 127 := by
  unfold reading
  have h1 := Int.le_bmod (x := a) (m := 2 ^ 128) (by norm_num)
  have h2 := Int.bmod_lt (x := a) (m := 2 ^ 128) (by norm_num)
  omega

theorem reading_eq {a : ℤ} (h : Representable a) : reading a = if a < 2 ^ 127 then a
    else a - 2 ^ 128 := by
  unfold Representable at h
  unfold reading Int.bmod
  dsimp only
  split_ifs <;> omega

theorem natAbs_operand (a : ℤ) : (operand a).natAbs ≤ 2 ^ 128 := by
  have h1 := natAbs_rounded_le (reading a)
  have h2 := natAbs_reading a
  unfold operand
  omega

/-- The value of a literal is its rounded reading. Kind: L -/
theorem value_literal (a : ℤ) :
    ∃ v, nodeGetNumericLiteral (literal a) = some v ∧ Holds v (operand a) := by
  refine ⟨_, rfl, ?_⟩
  rw [literal_bits]
  apply holds_ofInt
  have := natAbs_reading a
  unfold Bounded
  omega

theorem toRange_holds {v : F64} {w : ℤ} (hv : Holds v w) (low high : ℤ) :
    toRange low high v = if low ≤ w ∧ w < high then some w else none := by
  unfold toRange
  rw [hv.truncate]
  simp only [Option.filter_some, Bool.and_eq_true, decide_eq_true_iff]

theorem reading_of_bits {w z : ℤ} (h : BitVec.ofInt 128 w = BitVec.ofInt 128 z) :
    reading w = reading z := by
  rw [← literal_bits w, ← literal_bits z, h]

/-- Setting an integer result is exact if it is the result, is below `2 ^ 127`, and has the sign of
the overlaid byte. Kind: L -/
theorem set_iff {v : F64} {w z : ℤ} (hv : Holds v w) (a b : ℤ) (overlaid : Bool)
    (hz : Representable z) :
    nodeSetNumericLiteral overlaid (literal a) (literal b) v = some (literal z) ↔
      w = z ∧ z < 2 ^ 127 ∧ (overlaid = true ↔ z < 0) := by
  have hset : nodeSetNumericLiteral overlaid (literal a) (literal b) v =
      (toI128 v).bind fun bits =>
        (if overlaid then some bits else toU128 v).bind fun bits =>
          some (.lit (.int bits overlaid)) := by
    simp only [literal, nodeSetNumericLiteral, isFloat]
    cases overlaid <;> rfl
  rw [hset]
  unfold toI128 toU128
  rw [toRange_holds hv, toRange_holds hv]
  unfold literal
  unfold Representable at hz
  by_cases hw : -2 ^ 127 ≤ w ∧ w < 2 ^ 127
  · rw [if_pos hw]
    have hw' : -2 ^ 127 ≤ w ∧ w < 2 ^ 128 := by omega
    cases overlaid with
    | true =>
        simp only [if_true, Option.map_some, Option.bind_some, Option.some.injEq, Expr.lit.injEq,
          Literal.int.injEq, true_iff]
        rw [eq_comm (a := true), decide_eq_true_iff]
        constructor
        · rintro ⟨hbits, hneg⟩
          have h1 := reading_of_bits hbits
          rw [reading_eq hw', reading_eq hz] at h1
          split_ifs at h1 <;> omega
        · rintro ⟨rfl, -, hneg⟩
          exact ⟨rfl, hneg⟩
    | false =>
        by_cases hpos : 0 ≤ w
        · rw [if_pos ⟨hpos, by omega⟩]
          simp only [Bool.false_eq_true, if_false, Option.map_some, Option.bind_some,
            Option.some.injEq, Expr.lit.injEq, Literal.int.injEq, false_iff]
          rw [eq_comm (a := false), decide_eq_false_iff_not]
          constructor
          · rintro ⟨hbits, hneg⟩
            have h1 := reading_of_bits hbits
            rw [reading_eq hw', reading_eq hz] at h1
            split_ifs at h1 <;> omega
          · rintro ⟨rfl, -, hneg⟩
            exact ⟨rfl, hneg⟩
        · rw [if_neg (by omega)]
          simp only [Bool.false_eq_true, if_false, Option.map_none,
            Option.bind_none, Option.map_some,
            Option.bind_some, reduceCtorEq, false_iff, not_and, not_lt]
          omega
  · rw [if_neg hw]
    simp only [Option.map_none, Option.bind_none, reduceCtorEq, false_iff, not_and]
    rintro rfl
    omega

/-! ## The operations -/

/-- The operators that work on the doubles themselves. -/
def takesDoubles : BinaryOp → Bool
  | .add | .sub | .mul => true
  | _ => false

theorem signExtend_ofInt {x : ℤ} (hx : Narrow x) :
    (BitVec.ofInt 64 x).signExtend 129 = BitVec.ofInt 129 x := by
  apply BitVec.eq_of_toInt_eq
  unfold Narrow at hx
  rw [BitVec.toInt_signExtend_of_le (by norm_num),
    BitVec.toInt_ofInt_eq_self (by norm_num) hx.1 hx.2,
    BitVec.toInt_ofInt_eq_self (by norm_num) (by omega) (by omega)]

/-- 64 bits are enough for a bitwise operator on numbers that they hold. Kind: L -/
theorem bitwise_narrow {f : BitVec 129 → BitVec 129 → BitVec 129}
    {g : BitVec 64 → BitVec 64 → BitVec 64}
    (hfg : ∀ u v, (g u v).signExtend 129 = f (u.signExtend 129) (v.signExtend 129)) {x y : ℤ}
    (hx : Narrow x) (hy : Narrow y) :
    (g (BitVec.ofInt 64 x) (BitVec.ofInt 64 y)).toInt = bitwise f x y := by
  unfold bitwise
  rw [← signExtend_ofInt hx, ← signExtend_ofInt hy, ← hfg,
    BitVec.toInt_signExtend_of_le (by norm_num)]

theorem toInt_shiftLeft_ofInt (x : ℤ) (n : ℕ) :
    (BitVec.ofInt 64 x <<< n).toInt = (x * 2 ^ n).bmod (2 ^ 64) := by
  have hpow : BitVec.twoPow 64 n = BitVec.ofInt 64 (2 ^ n) := by
    have hcast : (2 ^ n : ℤ) = ((2 ^ n : ℕ) : ℤ) := by push_cast; rfl
    apply BitVec.eq_of_toNat_eq
    rw [BitVec.toNat_twoPow, hcast, BitVec.ofInt_natCast, BitVec.toNat_ofNat]
  rw [BitVec.shiftLeft_eq_mul_twoPow, hpow, ← BitVec.ofInt_mul, BitVec.toInt_ofInt]

theorem toInt_sshiftRight_ofInt {x : ℤ} (hx : Narrow x) (n : ℕ) :
    ((BitVec.ofInt 64 x).sshiftRight n).toInt = x >>> n := by
  rw [BitVec.toInt_sshiftRight, BitVec.toInt_ofInt_eq_self (by norm_num) hx.1 hx.2]

/-- On numbers of 64 bits the operation of the code is exact, unless it traps or a shift wraps.
Kind: L -/
theorem integerOperation_eq {op : BinaryOp} (hop : takesDoubles op = false) {x y : ℤ}
    (hx : Narrow x)
    (hy : Narrow y) : integerOperation op x y = onOperands op x y := by
  unfold integerOperation onOperands exactInteger
  cases op with
  | add | sub | mul => simp [takesDoubles] at hop
  | bAnd => simp only [hx, hy, and_self, if_true,
      bitwise_narrow (fun _ _ => BitVec.signExtend_and) hx hy]
  | bOr => simp only [hx, hy, and_self, if_true,
      bitwise_narrow (fun _ _ => BitVec.signExtend_or) hx hy]
  | bXor => simp only [hx, hy, and_self, if_true,
      bitwise_narrow (fun _ _ => BitVec.signExtend_xor) hx hy]
  | div | mod =>
      by_cases hzero : y = 0
      · simp [hzero]
      · by_cases hover : x = -2 ^ 63 ∧ y = -1
        · simp [hover]
        · simp only [hx, hy, hover, hzero, not_false_eq_true, and_self, if_true, if_false]
          exact if_neg (by simpa using hover)
  | shl =>
      by_cases hrange : 0 ≤ y ∧ y < 64
      · simp only [hrange, hx, and_self, decide_true, Bool.and_self, if_true, toInt_shiftLeft_ofInt]
      · simp [hrange]
  | shr =>
      by_cases hrange : 0 ≤ y ∧ y < 64
      · have hneg : ¬ y < 0 := by omega
        simp only [hrange, hx, hneg, and_self, decide_true, Bool.and_self, if_true, if_false,
          toInt_sshiftRight_ofInt hx]
      · simp [hrange]
  | _ => rfl

theorem onOperands_none {op : BinaryOp} (hop : takesDoubles op = false) {x y : ℤ}
    (h : ¬ (Narrow x ∧ Narrow y)) : onOperands op x y = none := by
  unfold onOperands
  cases op with
  | add | sub | mul => simp [takesDoubles] at hop
  | div | mod => exact if_neg fun hn => h ⟨hn.1, hn.2.1⟩
  | bAnd | bOr | bXor => exact if_neg h
  | shl | shr =>
      refine if_neg fun hn => h ⟨hn.1, ?_⟩
      unfold Narrow
      omega
  | _ => rfl

theorem viaI64_literals {op : BinaryOp} (hop : takesDoubles op = false) (a b : ℤ) :
    viaI64 op (literal a) (literal b) = (onOperands op (operand a) (operand b)).map ofInt := by
  obtain ⟨u, hu, hua⟩ := value_literal a
  obtain ⟨v, hv, hvb⟩ := value_literal b
  have hto : ∀ {v : F64} {w : ℤ}, Holds v w → toI64 v = if Narrow w then some w else none :=
    fun h => toRange_holds h _ _
  unfold viaI64
  simp only [hu, hv, Option.bind_eq_bind, Option.bind_some, hto hua, hto hvb]
  by_cases hn : Narrow (operand a) ∧ Narrow (operand b)
  · rw [if_pos hn.1, if_pos hn.2, Option.bind_some, Option.bind_some,
      integerOperation_eq hop hn.1 hn.2]
  · rw [onOperands_none hop hn]
    by_cases ha : Narrow (operand a)
    · rw [if_pos ha, if_neg fun hb => hn ⟨ha, hb⟩]
      rfl
    · rw [if_neg ha]
      rfl

theorem natAbs_toInt_le {n : ℕ} (u : BitVec n) : u.toInt.natAbs ≤ 2 ^ n := by
  have h1 := BitVec.le_toInt u
  have h2 := BitVec.toInt_lt (x := u)
  have h3 : (2 : ℕ) ^ (n - 1) ≤ 2 ^ n := Nat.pow_le_pow_right (by norm_num) (Nat.sub_le n 1)
  have h4 : (2 : ℤ) ^ (n - 1) = ((2 ^ (n - 1) : ℕ) : ℤ) := by push_cast; rfl
  omega

/-- No operation on rounded operands comes near the largest double. Kind: L -/
theorem onOperands_bounded {op : BinaryOp} {x y w : ℤ} (hx : x.natAbs ≤ 2 ^ 128)
    (hy : y.natAbs ≤ 2 ^ 128) (hw : onOperands op x y = some w) : Bounded w := by
  have hbound : w.natAbs ≤ 2 ^ 256 := by
    unfold onOperands exactInteger at hw
    cases op with
    | add | sub =>
        obtain rfl := Option.some.inj hw
        omega
    | mul =>
        obtain rfl := Option.some.inj hw
        rw [Int.natAbs_mul]
        exact (Nat.mul_le_mul hx hy).trans (by norm_num)
    | div =>
        dsimp only at hw
        split_ifs at hw
        obtain rfl := Option.some.inj hw
        have := Int.natAbs_tdiv_le_natAbs x y
        omega
    | mod =>
        dsimp only at hw
        split_ifs at hw
        obtain rfl := Option.some.inj hw
        rw [Int.natAbs_tmod]
        have := Nat.mod_le x.natAbs y.natAbs
        omega
    | bAnd | bOr | bXor =>
        dsimp only at hw
        split_ifs at hw
        obtain rfl := Option.some.inj hw
        exact (natAbs_toInt_le _).trans (by norm_num)
    | shl =>
        dsimp only at hw
        split_ifs at hw
        obtain rfl := Option.some.inj hw
        rw [← toInt_shiftLeft_ofInt]
        exact (natAbs_toInt_le _).trans (by norm_num)
    | shr =>
        dsimp only at hw
        split_ifs at hw with hn
        obtain rfl := Option.some.inj hw
        rw [← toInt_sshiftRight_ofInt hn.1]
        exact (natAbs_toInt_le _).trans (by norm_num)
    | _ => simp at hw
  unfold Bounded
  omega

/-- An integer operator fails where the operation on its operands does, else it sets the rounding of
its result. Kind: L -/
theorem evaluate_integer {op : BinaryOp} {a b z : ℤ} (hz : exactInteger op a b = some z)
    (overlaid : Bool) :
    (onOperands op (operand a) (operand b) = none ∧
      Comptime.evaluate strings (.binary op (literal a) (literal b) overlaid) = none) ∨
    ∃ w v, onOperands op (operand a) (operand b) = some w ∧ Holds v (rounded w) ∧
      Comptime.evaluate strings (.binary op (literal a) (literal b) overlaid) =
        nodeSetNumericLiteral overlaid (literal a) (literal b) v := by
  have hset : ∃ r, Comptime.evaluate strings (.binary op (literal a) (literal b) overlaid) =
      r.bind (nodeSetNumericLiteral overlaid (literal a) (literal b)) ∧
      ((onOperands op (operand a) (operand b) = none ∧ r = none) ∨
        ∃ w v, onOperands op (operand a) (operand b) = some w ∧ Holds v (rounded w) ∧
          r = some v) := by
    obtain ⟨u, hu, hua⟩ := value_literal a
    obtain ⟨v, hv, hvb⟩ := value_literal b
    have hvia : ∀ f, viaF64 f (literal a) (literal b) = some (f u v) := by
      intro f
      simp [viaF64, hu, hv]
    have hxa := natAbs_operand a
    have hyb := natAbs_operand b
    have hnarrow : takesDoubles op = false →
        (onOperands op (operand a) (operand b) = none ∧ viaI64 op (literal a) (literal b) = none) ∨
        ∃ w v, onOperands op (operand a) (operand b) = some w ∧ Holds v (rounded w) ∧
          viaI64 op (literal a) (literal b) = some v := by
      intro hop
      rw [viaI64_literals hop]
      cases hon : onOperands op (operand a) (operand b) with
      | none => exact .inl ⟨rfl, rfl⟩
      | some w => exact .inr ⟨w, _, rfl, holds_ofInt (onOperands_bounded hxa hyb hon), rfl⟩
    cases op with
    | add =>
        have hb : Bounded (operand a + operand b) := @onOperands_bounded .add _ _ _ hxa hyb rfl
        exact ⟨_, rfl, .inr ⟨_, _, rfl, hua.add hvb hb, hvia _⟩⟩
    | sub =>
        have hb : Bounded (operand a - operand b) := @onOperands_bounded .sub _ _ _ hxa hyb rfl
        exact ⟨_, rfl, .inr ⟨_, _, rfl, hua.sub hvb hb, hvia _⟩⟩
    | mul =>
        have hb : Bounded (operand a * operand b) := @onOperands_bounded .mul _ _ _ hxa hyb rfl
        exact ⟨_, rfl, .inr ⟨_, _, rfl, hua.mul hvb hb, hvia _⟩⟩
    | div | mod | bAnd | bOr | bXor | shl | shr => exact ⟨_, rfl, hnarrow rfl⟩
    | _ => simp [exactInteger] at hz
  obtain ⟨r, heval, ⟨hnone, rfl⟩ | ⟨w, v, hon, hv, rfl⟩⟩ := hset
  · exact .inl ⟨hnone, heval⟩
  · exact .inr ⟨w, v, hon, hv, heval⟩

theorem truth_literal {a : ℤ} {v : F64} (hv : nodeGetNumericLiteral (literal a) = some v) :
    Comptime.truth (literal a) = some (!isZero v) := by
  have hliteral : isLiteralExpr (literal a) = true := rfl
  unfold Comptime.truth
  rw [if_pos hliteral, hv]
  rfl

/-- A comparison or a logical operator says what it says of the operands of the evaluator.
Kind: L -/
theorem evaluate_truth {op : BinaryOp} {a b : ℤ} {t : Bool}
    (ht : exactTruth op (operand a) (operand b) = some t) (overlaid : Bool) :
    Comptime.evaluate strings (.binary op (literal a) (literal b) overlaid) =
      some (.lit (.bool t)) := by
  obtain ⟨u, hu, hua⟩ := value_literal a
  obtain ⟨v, hv, hvb⟩ := value_literal b
  have hcompare : ∀ f, compareF64 f (literal a) (literal b) = some (.lit (.bool (f u v))) := by
    intro f
    simp [compareF64, hu, hv]
  have hlogic : ∀ f, Comptime.evalLogic f (literal a) (literal b) =
      some (.lit (.bool (f (!isZero u) (!isZero v)))) := by
    intro f
    simp only [Comptime.evalLogic, truth_literal hu, truth_literal hv]
    rfl
  cases op with
  | eq =>
      obtain rfl := Option.some.inj ht
      exact (hcompare eq).trans (by rw [hua.eq hvb])
  | ne =>
      obtain rfl := Option.some.inj ht
      exact (hcompare fun x y => !eq x y).trans (by rw [hua.eq hvb, decide_not])
  | lt =>
      obtain rfl := Option.some.inj ht
      exact (hcompare lt).trans (by rw [hua.lt hvb])
  | gt =>
      obtain rfl := Option.some.inj ht
      exact (hcompare fun x y => lt y x).trans (by rw [hvb.lt hua])
  | leq =>
      obtain rfl := Option.some.inj ht
      exact (hcompare le).trans (by rw [hua.le hvb])
  | geq =>
      obtain rfl := Option.some.inj ht
      exact (hcompare fun x y => le y x).trans (by rw [hvb.le hua])
  | lAnd =>
      obtain rfl := Option.some.inj ht
      apply (hlogic (· && ·)).trans
      simp only [hua.isZero, hvb.isZero, ne_eq, Bool.decide_and, decide_not]
  | lOr =>
      obtain rfl := Option.some.inj ht
      apply (hlogic (· || ·)).trans
      simp only [hua.isZero, hvb.isZero, ne_eq, Bool.decide_or, decide_not]
  | _ => simp [exactTruth] at ht

theorem exactTruth_isSome (op : BinaryOp) (a b x y : ℤ) :
    (exactTruth op a b).isSome = (exactTruth op x y).isSome := by
  cases op <;> rfl

/-! ## The two conditions -/

theorem folds_binary_iff (op : BinaryOp) (a b : ℤ) (overlaid : Bool) :
    FoldsBinary strings op a b overlaid ↔ BinaryFaithful op a b overlaid := by
  unfold FoldsBinary BinaryFaithful
  apply and_congr
  · apply forall_congr'
    intro z
    apply forall_congr'
    intro hz
    apply forall_congr'
    intro hrep
    rcases @evaluate_integer strings _ _ _ _ hz overlaid with ⟨hon, heval⟩ | ⟨w, v, hon, hv, heval⟩
    · rw [hon, heval]
      simp
    · rw [hon, heval, set_iff hv a b overlaid hrep]
      simp
  · have hsome := exactTruth_isSome op a b (operand a) (operand b)
    cases ht : exactTruth op (operand a) (operand b) with
    | none =>
        rw [ht] at hsome
        have hnone : exactTruth op a b = none := Option.isNone_iff_eq_none.mp (by simpa using hsome)
        simp [hnone]
    | some t =>
        rw [ht] at hsome
        obtain ⟨t', ht'⟩ := Option.isSome_iff_exists.mp hsome
        rw [ht', evaluate_truth ht]
        simp

theorem literal_inj {w z : ℤ} (hw : Representable w) (hz : Representable z) :
    literal w = literal z ↔ w = z := by
  refine ⟨fun h => ?_, fun h => by rw [h]⟩
  unfold literal at h
  simp only [Expr.lit.injEq, Literal.int.injEq, decide_eq_decide] at h
  have h1 := reading_of_bits h.1
  rw [reading_eq hw, reading_eq hz] at h1
  unfold Representable at hw hz
  split_ifs at h1 <;> omega

/-- A number whose sign is recorded is its literal, if there is one. Kind: L -/
theorem signedInteger_holds {v : F64} {w : ℤ} (hv : Holds v w) :
    signedInteger v = if Representable w then some (literal w) else none := by
  have hzero : Holds (ofInt 0) 0 := holds_ofInt (by unfold Bounded; norm_num)
  unfold signedInteger toI128 toU128 literal Representable
  simp only [hv.lt hzero, toRange_holds hv]
  by_cases hneg : w < 0
  · simp only [hneg, decide_true, if_true]
    by_cases hlow : -2 ^ 127 ≤ w
    · rw [if_pos (by omega), if_pos (by omega)]
      rfl
    · rw [if_neg (by omega), if_neg (by omega)]
      rfl
  · simp only [hneg, decide_false, Bool.false_eq_true, if_false]
    by_cases hhigh : w < 2 ^ 128
    · rw [if_pos (by omega), if_pos (by omega)]
      rfl
    · rw [if_neg (by omega), if_neg (by omega)]
      rfl

/-- A sign gives the exact result if rounding leaves the operand. Kind: L -/
theorem signedOperand_iff {f : F64 → F64} {g : ℤ → ℤ} (hfg : ∀ v w, Holds v w → Holds (f v) (g w))
    {a z : ℤ} (hz : Representable z) :
    signedOperand f (literal a) = some (literal z) ↔ g (operand a) = z := by
  obtain ⟨u, hu, hua⟩ := value_literal a
  have hrun : signedOperand f (literal a) = signedInteger (f u) := by
    simp [signedOperand, hu]
  rw [hrun, signedInteger_holds (hfg u _ hua)]
  by_cases hw : Representable (g (operand a))
  · rw [if_pos hw, Option.some.injEq, literal_inj hw hz]
  · rw [if_neg hw]
    simp only [reduceCtorEq, false_iff]
    rintro rfl
    exact hw hz

theorem folds_unary_iff (op : UnaryOp) {a : ℤ} (ha : Representable a) :
    FoldsUnary strings op a ↔ UnaryFaithful op a := by
  unfold FoldsUnary UnaryFaithful
  cases op with
  | plus =>
      have heval : Comptime.evaluate strings (.unary .plus true (literal a)) =
          signedOperand id (literal a) := rfl
      rw [heval]
      have hiff := signedOperand_iff (f := id) (g := id) (fun _ _ h => h) (a := a) ha
      simp [exactUnary, hiff, ha]
  | minus =>
      have heval : Comptime.evaluate strings (.unary .minus true (literal a)) =
          signedOperand neg (literal a) := rfl
      rw [heval]
      have hiff : ∀ z, Representable z → (signedOperand neg (literal a) = some (literal z) ↔
          -operand a = z) := fun z hz => signedOperand_iff (fun _ _ h => h.neg) hz
      simp only [exactUnary, Option.some.injEq, reduceCtorEq, false_implies, and_true, ne_eq,
        not_false_eq_true, true_and]
      constructor
      · rintro h z rfl hrep
        have := (hiff _ hrep).mp (h _ rfl hrep)
        omega
      · rintro h z rfl hrep
        rw [hiff _ hrep, h _ rfl hrep]
  | compl =>
      have heval : Comptime.evaluate strings (.unary .compl true (literal a)) = some .error := rfl
      rw [heval]
      simp [exactUnary, literal]
  | not =>
      have heval : Comptime.evaluate strings (.unary .not true (literal a)) =
          some (.lit (.bool !((BitVec.ofInt 128 a).toInt != 0))) := rfl
      rw [heval, literal_bits]
      have hzero : reading a = 0 ↔ a = 0 := by
        rw [reading_eq ha]
        unfold Representable at ha
        split_ifs <;> omega
      have hbne : (reading a != 0) = !decide (a = 0) := by
        rw [bne, beq_eq_decide]
        simp only [hzero]
      simp [exactUnary, hbne]
  | other => simp [exactUnary]

/-- **Folding is exact exactly where the rounding of operands and result does not show and the sign
flag is right.** Kind: P -/
theorem folds_exactly_iff (strings : Comptime.Strings) (op : BinaryOp) (sign : UnaryOp)
    (a b : Value)
    (overlaid : Bool) :
    (FoldsBinary strings op a b overlaid ↔ BinaryFaithful op a b overlaid) ∧
    (FoldsUnary strings sign a ↔ UnaryFaithful sign a) :=
  ⟨folds_binary_iff op a b overlaid, folds_unary_iff sign a.property⟩

/-- `2 ^ 53 + 1` plus zero loses its last bit, the sign of a sum is what lies over it, and `~` is
refused. Kind: P -/
theorem folding_inexact :
    ¬ FoldsBinary someStrings .add (2 ^ 53 + 1) 0 false ∧
    ¬ FoldsBinary someStrings .add 1 2 true ∧
    ¬ FoldsBinary someStrings .sub 1 2 false ∧
    ¬ FoldsUnary someStrings .compl 0 := by
  refine ⟨?_, ?_, ?_, ?_⟩
  · rw [folds_binary_iff]
    intro h
    obtain ⟨w, hw, hround, -⟩ := h.1 (2 ^ 53 + 1) rfl (by decide)
    obtain rfl := Option.some.inj hw
    revert hround
    decide
  · rw [folds_binary_iff]
    intro h
    obtain ⟨w, -, -, -, hsign⟩ := h.1 3 rfl (by decide)
    revert hsign
    decide
  · rw [folds_binary_iff]
    intro h
    obtain ⟨w, -, -, -, hsign⟩ := h.1 (-1) rfl (by decide)
    revert hsign
    decide
  · rw [folds_unary_iff .compl (by decide)]
    intro h
    exact (h (-1) rfl (by decide)).1 rfl

end

end CxyCompiler.Middle.Evaluate
