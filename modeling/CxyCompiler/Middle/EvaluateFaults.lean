import CxyCompiler.Middle.EvaluateExact

/-!
# Division and shift operands

Both evaluators divide and shift 64-bit integers that they convert from doubles.

* `Application` — an operator with the values of its operands; `applied` lists those of an
  evaluation.
* `Faults` — the integer operation is one that traps, or that C leaves undefined; so is the
  conversion of an operand to 64 bits that do not hold it.
* `Guarded` — what the operand literals have to be.
* `evaluate_faults`, `visit_faults` — an operation that faults leaves no result, also no error.
* `faults_iff` — **the operations of an evaluation fault where its operand literals are not
  guarded**.
-/

namespace CxyCompiler.Middle.Evaluate

open CxyCompiler.Lib.Double

structure Application where
  op : BinaryOp
  lhs : Expr
  rhs : Expr

/-- A division or a shift of integers. -/
def Application.onIntegers (x : Application) : Bool :=
  [BinaryOp.div, .mod, .shl, .shr].contains x.op && !isFloat x.lhs && !isFloat x.rhs &&
    !Comptime.isString x.lhs && !Comptime.isString x.rhs

/-- The operators that an evaluation applies, in order, up to one that fails. -/
def Comptime.applied (strings : Strings) : Expr → List Application
  | .lit _ | .error => []
  | .range a b =>
      applied strings a ++
        (evaluate strings a).elim [] fun x => if isError x then [] else applied strings b
  | .group e | .cast e => if isLiteralExpr e then [] else applied strings e
  | .unary _ _ e => applied strings e
  | .binary op l r _ =>
      applied strings l ++ (evaluate strings l).elim [] fun x =>
        if isError x then []
        else applied strings r ++ (evaluate strings r).elim [] fun y =>
          if isError y then [] else if verifyBinaryExprOperand op x y then [⟨op, x, y⟩] else []
  | .ternary c t e =>
      applied strings c ++ (evaluate strings c).elim [] fun x =>
        if isError x then []
        else (evalBooleanCast strings x).elim [] fun b =>
          if b then (if isTernary t then applied strings t else [])
          else if isTernary e then applied strings e else []

def Preprocessor.applied (isNonEmpty : Ptr → Bool) : Expr → List Application
  | .lit _ | .error => []
  | .range a b =>
      applied isNonEmpty a ++ (visit isNonEmpty a).elim [] fun _ => applied isNonEmpty b
  | .group e | .cast e => applied isNonEmpty e
  | .unary _ _ e => applied isNonEmpty e
  | .binary op l r _ =>
      applied isNonEmpty l ++ (visit isNonEmpty l).elim [] fun x =>
        applied isNonEmpty r ++ (visit isNonEmpty r).elim [] fun y =>
          if isNumericLiteral x && isNumericLiteral y then [⟨op, x, y⟩] else []
  | .ternary c t e =>
      applied isNonEmpty c ++ (visit isNonEmpty c).elim [] fun x =>
        match preprocessorAsBoolean isNonEmpty x with
        | some true => applied isNonEmpty t
        | some false => applied isNonEmpty e
        | none =>
            applied isNonEmpty t ++ (visit isNonEmpty t).elim [] fun _ => applied isNonEmpty e

/-- Both operands are 64-bit integers, the divisor is not zero, no least value is divided by `-1`,
and a shift is by less than the width of its operand. -/
def Sound (op : BinaryOp) (v w : F64) : Prop :=
  ∃ x y, toI64 v = some x ∧ toI64 w = some y ∧
    match op with
    | .div | .mod => y ≠ 0 ∧ ¬ (x = -2 ^ 63 ∧ y = -1)
    | .shl | .shr => 0 ≤ y ∧ y < 64
    | _ => True

/-- **An integer operation is performed that is not sound.** -/
def Faults (x : Application) : Prop :=
  x.onIntegers = true ∧ ∃ v w, nodeGetNumericLiteral x.lhs = some v ∧
    nodeGetNumericLiteral x.rhs = some w ∧ ¬ Sound x.op v w

/-! ## Literals as operands -/

namespace Literal

def IsZero : Literal → Prop
  | null => True
  | bool b => b = false
  | char c => c = 0
  | int bits _ => bits = 0
  | float v => truncate v = some 0
  | string _ => False

def IsMinusOne : Literal → Prop
  | int bits _ => bits = -1
  | float v => truncate v = some (-1)
  | _ => False

/-- The literal becomes the least 64-bit integer. -/
def IsLeast : Literal → Prop
  | int bits _ => rounded bits.toInt = -2 ^ 63
  | float v => truncate v = some (-2 ^ 63)
  | _ => False

def IsShift : Literal → Prop
  | null | bool _ | string _ => True
  | char c => c < 64
  | int bits _ => 0 ≤ bits.toInt ∧ bits.toInt < 64
  | float v => ∃ y, truncate v = some y ∧ 0 ≤ y ∧ y < 64

/-- The literal becomes a number of 64 bits. -/
def IsNarrow : Literal → Prop
  | int bits _ => Narrow (rounded bits.toInt)
  | float v => ∃ y, truncate v = some y ∧ Narrow y
  | _ => True

end Literal

def Literal.isText : Literal → Bool
  | .string _ => true
  | _ => false

/-- The literal of an operand, also in parentheses or under a cast. -/
def operandLiteral : Expr → Option Literal
  | .lit l => some l
  | .group e | .cast e => operandLiteral e
  | _ => none

/-- What a division or a shift of integers asks of the literals it applies to. -/
def Application.Guarded (x : Application) : Prop :=
  x.onIntegers = true → ∀ l r, operandLiteral x.lhs = some l → operandLiteral x.rhs = some r →
    l.isText = false → r.isText = false →
    l.IsNarrow ∧ r.IsNarrow ∧ (x.op = .div ∨ x.op = .mod → ¬ r.IsZero ∧
      ¬ (l.IsLeast ∧ r.IsMinusOne)) ∧
      (x.op = .shl ∨ x.op = .shr → r.IsShift)

/-- The double of a literal. -/
def Literal.value : Literal → Option F64
  | .null => some (ofInt 0)
  | .bool b => some (ofInt b.toNat)
  | .char c => some (ofInt c.toNat)
  | .int bits _ => some (ofInt bits.toInt)
  | .float v => some v
  | .string _ => none

theorem value_of (e : Expr) : nodeGetNumericLiteral e = (operandLiteral e).bind Literal.value := by
  induction e with
  | lit l => cases l <;> rfl
  | group e ih | cast e ih => exact ih
  | _ => rfl

/-! ## Guards -/

theorem truncate_ofInt {z : ℤ} (hz : z.natAbs ≤ 2 ^ 127) : truncate (ofInt z) = some (rounded z) :=
  (holds_ofInt (by unfold Bounded; omega)).truncate

theorem toI64_eq_some {v : F64} {k : ℤ}
    (hk : Narrow k) : toI64 v = some k ↔ truncate v = some k := by
  unfold toI64 toRange
  rw [Option.filter_eq_some_iff]
  simp only [Bool.and_eq_true, decide_eq_true_iff]
  exact and_iff_left hk

theorem natAbs_bits (bits : BitVec 128) : bits.toInt.natAbs ≤ 2 ^ 127 := by
  have h1 := BitVec.le_toInt bits
  have h2 := BitVec.toInt_lt (x := bits)
  omega

theorem natAbs_char (c : UInt32) : (c.toNat : ℤ).natAbs ≤ 2 ^ 127 := by
  have := c.toNat_lt
  omega

theorem truncate_bool_iff {b : Bool} {k : ℤ} :
    truncate (ofInt (b.toNat : ℤ)) = some k ↔ (b.toNat : ℤ) = k := by
  have hle := b.toNat_le
  rw [truncate_ofInt (by omega), rounded_of_small (by omega), Option.some.injEq]

theorem truncate_null_iff {k : ℤ} : truncate (ofInt 0) = some k ↔ 0 = k := by
  rw [truncate_ofInt (by norm_num), rounded_zero, Option.some.injEq]

theorem truncate_char_iff {c : UInt32} {k : ℤ} :
    truncate (ofInt (c.toNat : ℤ)) = some k ↔ (c.toNat : ℤ) = k := by
  have hlt := c.toNat_lt
  rw [truncate_ofInt (natAbs_char c), rounded_of_small (by omega), Option.some.injEq]

theorem truncate_int_iff {bits : BitVec 128} {k : ℤ} (hk : k.natAbs < 2 ^ 52) :
    truncate (ofInt bits.toInt) = some k ↔ bits.toInt = k := by
  rw [truncate_ofInt (natAbs_bits bits), Option.some.injEq, rounded_eq_iff hk]

theorem isZero_iff {l : Literal} {v : F64}
    (hv : l.value = some v) : toI64 v = some 0 ↔ l.IsZero := by
  rw [toI64_eq_some (by unfold Narrow; norm_num)]
  cases l with
  | string s => cases hv
  | float w =>
      obtain rfl := Option.some.inj hv
      rfl
  | null =>
      obtain rfl := Option.some.inj hv
      rw [truncate_null_iff]
      simp [Literal.IsZero]
  | bool b =>
      obtain rfl := Option.some.inj hv
      rw [truncate_bool_iff]
      cases b <;> simp [Literal.IsZero]
  | char c =>
      obtain rfl := Option.some.inj hv
      rw [truncate_char_iff, Int.natCast_eq_zero]
      exact UInt32.toNat_inj (b := 0)
  | int bits isNegative =>
      obtain rfl := Option.some.inj hv
      rw [truncate_int_iff (by norm_num)]
      exact BitVec.toInt_inj (y := 0)

/-- A literal that is negative as a number is an integer or a float. Kind: L -/
theorem negative_iff {l : Literal} {v : F64} {k : ℤ} (hk : k < 0) (hv : l.value = some v) :
    truncate v = some k ↔
      (∃ bits isNegative, l = .int bits isNegative ∧ rounded bits.toInt = k) ∨
      ∃ w, l = .float w ∧ truncate w = some k := by
  cases l with
  | string s => cases hv
  | float w =>
      obtain rfl := Option.some.inj hv
      simp
  | null =>
      obtain rfl := Option.some.inj hv
      rw [truncate_null_iff]
      simp
      omega
  | bool b =>
      obtain rfl := Option.some.inj hv
      rw [truncate_bool_iff]
      simp
      omega
  | char c =>
      obtain rfl := Option.some.inj hv
      rw [truncate_char_iff]
      simp
      omega
  | int bits isNegative =>
      obtain rfl := Option.some.inj hv
      rw [truncate_ofInt (natAbs_bits bits)]
      simp

theorem isLeast_iff {l : Literal} {v : F64} (hv : l.value = some v) :
    toI64 v = some (-2 ^ 63) ↔ l.IsLeast := by
  rw [toI64_eq_some (by unfold Narrow; norm_num), negative_iff (by norm_num) hv]
  cases l <;> simp [Literal.IsLeast]

theorem isMinusOne_iff {l : Literal} {v : F64} (hv : l.value = some v) :
    toI64 v = some (-1) ↔ l.IsMinusOne := by
  rw [toI64_eq_some (by unfold Narrow; norm_num), negative_iff (by norm_num) hv]
  cases l with
  | int bits isNegative =>
      have hbits : bits.toInt = -1 ↔ bits = -1 := BitVec.toInt_inj (y := -1)
      simp [Literal.IsMinusOne, rounded_eq_iff, hbits]
  | _ => simp [Literal.IsMinusOne]

theorem isShift_iff {l : Literal} {v : F64} (hv : l.value = some v) :
    (∃ y, toI64 v = some y ∧ 0 ≤ y ∧ y < 64) ↔ l.IsShift := by
  have hnarrow : (∃ y, toI64 v = some y ∧ 0 ≤ y ∧ y < 64) ↔
      ∃ y, truncate v = some y ∧ 0 ≤ y ∧ y < 64 := by
    apply exists_congr
    intro y
    refine and_congr_left fun hy => toI64_eq_some ?_
    unfold Narrow
    omega
  rw [hnarrow]
  cases l with
  | string s => cases hv
  | float w =>
      obtain rfl := Option.some.inj hv
      rfl
  | null =>
      obtain rfl := Option.some.inj hv
      simp [truncate_null_iff, Literal.IsShift]
  | bool b =>
      obtain rfl := Option.some.inj hv
      have hle := b.toNat_le
      simp only [truncate_bool_iff, Literal.IsShift, iff_true]
      exact ⟨_, rfl, by omega⟩
  | char c =>
      obtain rfl := Option.some.inj hv
      simp only [truncate_char_iff, Literal.IsShift, exists_eq_left']
      rw [UInt32.lt_iff_toNat_lt]
      show 0 ≤ (c.toNat : ℤ) ∧ (c.toNat : ℤ) < 64 ↔ c.toNat < 64
      omega
  | int bits isNegative =>
      obtain rfl := Option.some.inj hv
      simp only [Literal.IsShift]
      constructor
      · rintro ⟨y, hy, h0, h64⟩
        rw [truncate_int_iff (by omega)] at hy
        omega
      · intro h
        exact ⟨_, (truncate_int_iff (by omega)).mpr rfl, h⟩

/-- A literal that is narrow becomes a number of 64 bits, and no other does. Kind: L -/
theorem isNarrow_iff {l : Literal} {v : F64}
    (hv : l.value = some v) : (∃ x, toI64 v = some x) ↔ l.IsNarrow := by
  have hnarrow : (∃ x, toI64 v = some x) ↔ ∃ x, truncate v = some x ∧ Narrow x := by
    constructor
    · rintro ⟨x, hx⟩
      have hrange := (Option.filter_eq_some_iff.mp hx).2
      simp only [Bool.and_eq_true, decide_eq_true_iff] at hrange
      exact ⟨x, (toI64_eq_some hrange).mp hx, hrange⟩
    · rintro ⟨x, hx, hrange⟩
      exact ⟨x, (toI64_eq_some hrange).mpr hx⟩
  rw [hnarrow]
  cases l with
  | string s => cases hv
  | float w =>
      obtain rfl := Option.some.inj hv
      rfl
  | null =>
      obtain rfl := Option.some.inj hv
      exact iff_of_true ⟨0, truncate_null_iff.mpr rfl, by unfold Narrow; norm_num⟩ trivial
  | bool b =>
      obtain rfl := Option.some.inj hv
      have hle := b.toNat_le
      exact iff_of_true ⟨_, truncate_bool_iff.mpr rfl, by unfold Narrow; omega⟩ trivial
  | char c =>
      obtain rfl := Option.some.inj hv
      have hlt := c.toNat_lt
      exact iff_of_true ⟨_, truncate_char_iff.mpr rfl, by unfold Narrow; omega⟩ trivial
  | int bits isNegative =>
      obtain rfl := Option.some.inj hv
      rw [truncate_ofInt (natAbs_bits bits)]
      simp [Literal.IsNarrow]

theorem isSome_value (l : Literal) : l.value.isSome = !l.isText := by
  cases l <;> rfl

theorem sound_iff (op : BinaryOp) {l r : Literal} {v w : F64} (hv : l.value = some v)
    (hw : r.value = some w) :
    Sound op v w ↔ l.IsNarrow ∧ r.IsNarrow ∧
      (op = .div ∨ op = .mod → ¬ r.IsZero ∧ ¬ (l.IsLeast ∧ r.IsMinusOne)) ∧
      (op = .shl ∨ op = .shr → r.IsShift) := by
  rw [← isNarrow_iff hv, ← isNarrow_iff hw, ← isZero_iff hw, ← isLeast_iff hv,
    ← isMinusOne_iff hw, ← isShift_iff hw]
  unfold Sound
  constructor
  · rintro ⟨x, y, hx, hy, hop⟩
    refine ⟨⟨x, hx⟩, ⟨y, hy⟩, ?_, ?_⟩
    · rintro (rfl | rfl) <;> simpa [hx, hy] using hop
    · rintro (rfl | rfl) <;> exact ⟨y, hy, hop⟩
  · rintro ⟨⟨x, hx⟩, ⟨y, hy⟩, hdiv, hshift⟩
    refine ⟨x, y, hx, hy, ?_⟩
    simp only [hx, hy, Option.some.injEq, exists_eq_left'] at hdiv hshift
    cases op <;> first | exact hdiv (by simp) | exact hshift (by simp) | trivial

/-- **An operation faults where its operand literals are not guarded.** Kind: L -/
theorem not_faults_iff (x : Application) : ¬ Faults x ↔ x.Guarded := by
  unfold Faults Application.Guarded
  simp only [value_of]
  constructor
  · intro h hon l r hl hr htl htr
    obtain ⟨v, hv⟩ := Option.isSome_iff_exists.mp ((isSome_value l).trans (by rw [htl]; rfl))
    obtain ⟨w, hw⟩ := Option.isSome_iff_exists.mp ((isSome_value r).trans (by rw [htr]; rfl))
    rw [← sound_iff x.op hv hw]
    by_contra hnot
    exact h ⟨hon, v, w, by rw [hl]; exact hv, by rw [hr]; exact hw, hnot⟩
  · rintro h ⟨hon, v, w, hv, hw, hnot⟩
    obtain ⟨l, hl, hlv⟩ := Option.bind_eq_some_iff.mp hv
    obtain ⟨r, hr, hrw⟩ := Option.bind_eq_some_iff.mp hw
    apply hnot
    rw [sound_iff x.op hlv hrw]
    apply h hon l r hl hr
    · have hsome := isSome_value l
      rw [hlv] at hsome
      simpa using hsome
    · have hsome := isSome_value r
      rw [hrw] at hsome
      simpa using hsome

/-! ## No diagnostic -/

/-- An operation that is not sound has no result. Kind: L -/
theorem viaI64_not_sound {op : BinaryOp} {l r : Expr} {v w : F64}
    (hv : nodeGetNumericLiteral l = some v) (hw : nodeGetNumericLiteral r = some w)
    (hnot : ¬ Sound op v w) : viaI64 op l r = none := by
  unfold viaI64
  simp only [hv, hw, Option.bind_eq_bind, Option.bind_some]
  cases ha : toI64 v with
  | none => rfl
  | some a =>
      cases hb : toI64 w with
      | none => rfl
      | some b =>
          simp only [Option.bind_some, Option.map_eq_none_iff]
          unfold Sound at hnot
          simp only [ha, hb, Option.some.injEq, exists_and_left, exists_eq_left'] at hnot
          unfold integerOperation
          cases op with
          | div | mod =>
              simp only [ne_eq, not_and_or, not_not] at hnot
              exact if_pos (by simpa using hnot)
          | shl | shr =>
              apply if_neg
              simpa using hnot
          | _ => exact absurd trivial hnot

theorem onIntegers_cases {x : Application} (h : x.onIntegers = true) :
    (x.op = .div ∨ x.op = .mod ∨ x.op = .shl ∨ x.op = .shr) ∧
      (isFloat x.lhs || isFloat x.rhs) = false ∧
      (Comptime.isString x.lhs || Comptime.isString x.rhs) = false := by
  unfold Application.onIntegers at h
  simp only [Bool.and_eq_true, Bool.not_eq_true', List.contains_eq_mem, List.mem_cons,
    List.not_mem_nil, or_false, decide_eq_true_iff] at h
  obtain ⟨⟨⟨⟨hop, hl⟩, hr⟩, hsl⟩, hsr⟩ := h
  exact ⟨hop, by rw [hl, hr]; rfl, by rw [hsl, hsr]; rfl⟩

theorem evalOperation_faults {strings : Comptime.Strings} {op : BinaryOp} {l r : Expr}
    {overlaid : Bool} (h : Faults ⟨op, l, r⟩) :
    Comptime.evalOperation strings op l r overlaid = none := by
  obtain ⟨hon, v, w, hv, hw, hnot⟩ := h
  obtain ⟨hop, hfloat, hstring⟩ := onIntegers_cases hon
  dsimp only at hop hfloat hstring hv hw hnot
  have hvia := viaI64_not_sound hv hw hnot
  rcases hop with rfl | rfl | rfl | rfl <;>
    simp only [Comptime.evalOperation, Comptime.refusingStrings, hstring, hfloat, hvia,
      Bool.false_eq_true, if_false, Option.bind_none]

theorem preprocessorEval_faults {op : BinaryOp} {l r : Expr} {overlaid : Bool}
    (h : Faults ⟨op, l, r⟩) : Preprocessor.preprocessorEvalBinaryExpr op l r overlaid = none := by
  obtain ⟨hon, v, w, hv, hw, hnot⟩ := h
  obtain ⟨hop, hfloat, -⟩ := onIntegers_cases hon
  dsimp only at hop hfloat hv hw hnot
  have hvia := viaI64_not_sound hv hw hnot
  rcases hop with rfl | rfl | rfl | rfl <;>
    simp only [Preprocessor.preprocessorEvalBinaryExpr, hfloat, hvia, Bool.false_eq_true, if_false,
      Option.bind_none]

/-- What follows the value of an operand has no result if it faults. Kind: L -/
theorem bind_of_mem {x : Application} {first : List Application} {value : Option Expr}
    {next : Expr → List Application} {rest : Expr → Option Expr}
    (hx : x ∈ first ++ value.elim [] next) (hfirst : x ∈ first → value = none)
    (hrest : ∀ y, x ∈ next y → rest y = none) : value.bind rest = none := by
  cases value with
  | none => rfl
  | some y =>
      rcases List.mem_append.mp hx with hx | hx
      · cases hfirst hx
      · exact hrest y hx

/-- An evaluation that performs an operation that is not sound has no result, also no error node.
Kind: P -/
theorem evaluate_faults {strings : Comptime.Strings} {e : Expr} {x : Application}
    (hx : x ∈ Comptime.applied strings e) (h : Faults x) : Comptime.evaluate strings e = none := by
  induction e with
  | lit l => cases hx
  | error => cases hx
  | range a b iha ihb =>
      refine bind_of_mem hx iha fun y hx => ?_
      obtain ⟨herr, hx⟩ := List.mem_ite_nil_left.mp hx
      rw [if_neg herr, ihb hx]
      rfl
  | group e ih =>
      obtain ⟨hlit, hx⟩ := List.mem_ite_nil_left.mp hx
      exact (if_neg hlit).trans (ih hx)
  | cast e ih =>
      obtain ⟨hlit, hx⟩ := List.mem_ite_nil_left.mp hx
      rw [Comptime.evaluate, if_neg hlit, ih hx]
      rfl
  | unary op isPrefix e ih =>
      simp only [Comptime.evaluate, Option.bind_eq_bind, ih hx, Option.bind_none]
  | binary op l r overlaid ihl ihr =>
      refine bind_of_mem hx ihl fun y hx => ?_
      obtain ⟨herr, hx⟩ := List.mem_ite_nil_left.mp hx
      rw [if_neg herr]
      refine bind_of_mem hx ihr fun z hx => ?_
      obtain ⟨herr', hx⟩ := List.mem_ite_nil_left.mp hx
      obtain ⟨hverify, hx⟩ := List.mem_ite_nil_right.mp hx
      rw [if_neg herr', if_pos hverify]
      rw [List.mem_singleton] at hx
      subst hx
      exact evalOperation_faults h
  | ternary c t e ihc iht ihe =>
      refine bind_of_mem hx ihc fun y hx => ?_
      obtain ⟨herr, hx⟩ := List.mem_ite_nil_left.mp hx
      rw [if_neg herr]
      cases hcast : Comptime.evalBooleanCast strings y with
      | none =>
          rw [hcast] at hx
          cases hx
      | some b =>
          rw [hcast] at hx
          cases b with
          | true =>
              obtain ⟨hter, hx⟩ := List.mem_ite_nil_right.mp hx
              exact (if_pos hter).trans (iht hx)
          | false =>
              obtain ⟨hter, hx⟩ := List.mem_ite_nil_right.mp hx
              exact (if_pos hter).trans (ihe hx)

theorem visit_faults {isNonEmpty : Ptr → Bool} {e : Expr} {x : Application}
    (hx : x ∈ Preprocessor.applied isNonEmpty e) (h : Faults x) :
    Preprocessor.visit isNonEmpty e = none := by
  induction e with
  | lit l => cases hx
  | error => cases hx
  | range a b iha ihb =>
      refine bind_of_mem hx iha fun y hx => ?_
      rw [ihb hx]
      rfl
  | group e ih | cast e ih =>
      simp only [Preprocessor.visit, ih hx, Option.map_none]
  | unary op isPrefix e ih =>
      simp only [Preprocessor.visit, Option.bind_eq_bind, ih hx, Option.bind_none]
  | binary op l r overlaid ihl ihr =>
      refine bind_of_mem hx ihl fun y hx => ?_
      refine bind_of_mem hx ihr fun z hx => ?_
      obtain ⟨hnum, hx⟩ := List.mem_ite_nil_right.mp hx
      rw [if_pos hnum]
      rw [List.mem_singleton] at hx
      subst hx
      exact preprocessorEval_faults h
  | ternary c t e ihc iht ihe =>
      refine bind_of_mem hx ihc fun y hx => ?_
      cases hcast : Preprocessor.preprocessorAsBoolean isNonEmpty y with
      | none =>
          rw [hcast] at hx
          refine bind_of_mem hx iht fun z hx => ?_
          rw [ihe hx]
          rfl
      | some b =>
          rw [hcast] at hx
          cases b with
          | true => exact iht hx
          | false => exact ihe hx

/-- **An evaluation performs sound divisions and shifts only if it applies each to guarded
literals**; else it has no result, and no error is left in its place. Kind: P -/
theorem faults_iff (strings : Comptime.Strings) (e : Expr) :
    ((∀ x ∈ Comptime.applied strings e, ¬ Faults x) ↔
      ∀ x ∈ Comptime.applied strings e, x.Guarded) ∧
    ((∀ x ∈ Preprocessor.applied strings.isNonEmpty e, ¬ Faults x) ↔
      ∀ x ∈ Preprocessor.applied strings.isNonEmpty e, x.Guarded) ∧
    ((∃ x ∈ Comptime.applied strings e, ¬ x.Guarded) → Comptime.evaluate strings e = none) ∧
    ((∃ x ∈ Preprocessor.applied strings.isNonEmpty e, ¬ x.Guarded) →
      Preprocessor.visit strings.isNonEmpty e = none) := by
  simp only [← not_faults_iff, not_not, true_and]
  constructor
  · rintro ⟨x, hx, h⟩
    exact evaluate_faults hx h
  · rintro ⟨x, hx, h⟩
    exact visit_faults hx h

/-- `1 / 0` and `1 << 64` are performed. Kind: P -/
theorem division_by_zero :
    (∃ x ∈ Comptime.applied someStrings (.binary .div (literal 1) (literal 0) false), Faults x) ∧
    (∃ x ∈ Preprocessor.applied someStrings.isNonEmpty
      (.binary .shl (literal 1) (literal 64) false),
      Faults x) := by
  refine ⟨⟨⟨.div, literal 1, literal 0⟩, ?_, ?_⟩, ⟨⟨.shl, literal 1, literal 64⟩, ?_, ?_⟩⟩
  · exact List.mem_singleton_self _
  · rw [← not_not (a := Faults _), not_faults_iff]
    intro h
    exact ((h rfl _ _ rfl rfl rfl rfl).2.2.1 (.inl rfl)).1 rfl
  · exact List.mem_singleton_self _
  · rw [← not_not (a := Faults _), not_faults_iff]
    intro h
    have hshift := (h rfl _ _ rfl rfl rfl rfl).2.2.2 (.inl rfl)
    exact absurd hshift.2 (by decide)

end CxyCompiler.Middle.Evaluate
