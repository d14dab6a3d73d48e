import CxyCompiler.Middle.Evaluate

/-!
# Where the two evaluators agree

* `literalOf` — the literal that a tree is, also in parentheses; an evaluation that leaves none
  fails.
* `IsNumber` — an operand for which the preprocessor folds an operator.
* `Common` — the expressions in which the comptime evaluator folds no operator that the preprocessor
  leaves, and `+` and `-` do not stand before a truth value or a character.
* `operation_agrees` — on numeric literals the two switches give the same result.
* `evaluators_agree` — **on those expressions both fail or both yield the same literal**.
  `operands_disagree` has an expression for each kind of operand that only one of them takes.
-/

namespace CxyCompiler.Middle.Evaluate

open CxyCompiler.Lib.Double

/-- The literal that a tree is. -/
def literalOf : Expr → Option Literal
  | .lit l => some l
  | .group e => literalOf e
  | _ => none

/-- A literal, possibly in parentheses. -/
def isBareLiteral : Expr → Bool
  | .lit _ => true
  | .group e => isBareLiteral e
  | _ => false

/-- The operators that fold two numeric literals into a literal. -/
def BinaryOp.isFolded : BinaryOp → Bool
  | .range | .catch | .is => false
  | _ => true

section

variable (strings : Comptime.Strings)

/-- The literal that the preprocessor yields, or a failure. -/
def preprocessed (e : Expr) : Option Literal :=
  (Preprocessor.visit strings.isNonEmpty e).bind literalOf

/-- The literal that the comptime evaluator yields, or a failure. -/
def evaluated (e : Expr) : Option Literal := (Comptime.evaluate strings e).bind literalOf

/-- The preprocessor has a number for the operand, which does not stand in parentheses. -/
def IsNumber (e : Expr) : Prop :=
  ∃ r, Preprocessor.visit strings.isNonEmpty e = some r ∧ isNumericLiteral r = true

/-- The preprocessor has a truth value for the condition of a ternary. -/
def Selects (c : Expr) (b : Bool) : Prop :=
  ∃ r, Preprocessor.visit strings.isNonEmpty c = some r ∧
    Preprocessor.preprocessorAsBoolean strings.isNonEmpty r = some b

/-- **The expressions whose operands both evaluators take.** The preprocessor takes numbers that do
not stand in parentheses; where it leaves an operator, the comptime evaluator does not fold it
either. The comptime evaluator leaves a prefix operator in parentheses, and the branch that a
ternary selects if it is no ternary. -/
inductive Common : Expr → Prop
  | lit (l : Literal) : Common (.lit l)
  | group {e : Expr} (he : Common e)
      (hleft : isLiteralExpr e = true → isBareLiteral e = true ∨ preprocessed strings e = none) :
      Common (.group e)
  | unary {op : UnaryOp} {e : Expr} (hop : op = .not ∨ op = .plus ∨ op = .minus) (he : Common e)
      (hsigned : op ≠ .not → ∀ r, Preprocessor.visit strings.isNonEmpty e = some r →
        isNumericLiteral r = true → isInteger r = true ∨ isFloat r = true)
      (htaken : (evaluated strings (.unary op true e)).isSome = true → IsNumber strings e) :
      Common (.unary op true e)
  | binary {op : BinaryOp} {l r : Expr} {overlaid : Bool} (hl : Common l) (hr : Common r)
      (htaken : (evaluated strings (.binary op l r overlaid)).isSome = true →
        IsNumber strings l ∧ IsNumber strings r) : Common (.binary op l r overlaid)
  | ternary {c t e : Expr} (hc : Common c)
      (htaken : (evaluated strings (.ternary c t e)).isSome = true → ∃ b, Selects strings c b)
      (ht : Selects strings c true → isTernary t = true → Common t)
      (ht' : Selects strings c true → isTernary t = false → isBareLiteral t = true ∨
        preprocessed strings t = none)
      (he : Selects strings c false → isTernary e = true → Common e)
      (he' : Selects strings c false → isTernary e = false → isBareLiteral e = true ∨
        preprocessed strings e = none) :
      Common (.ternary c t e)

/-- Both evaluations yield the same literal, or both fail; and what the preprocessor has as a
literal, which does not stand in parentheses, does not stand in parentheses for the comptime
evaluator. -/
def Both (e : Expr) : Prop :=
  preprocessed strings e = evaluated strings e ∧
    ∀ l, Preprocessor.visit strings.isNonEmpty e = some (.lit l) →
      Comptime.evaluate strings e = some (.lit l)

variable {strings}

theorem literalOf_isSome (e : Expr) : (literalOf e).isSome = isBareLiteral e := by
  induction e with
  | group e ih => exact ih
  | _ => rfl

theorem literalOf_of_not_bare {e : Expr} (h : isBareLiteral e = false) : literalOf e = none := by
  rw [← Option.isNone_iff_eq_none, ← Option.not_isSome, literalOf_isSome, h]
  rfl

theorem visit_bare {e : Expr} (h : isBareLiteral e = true) :
    Preprocessor.visit strings.isNonEmpty e = some e := by
  induction e with
  | lit l => rfl
  | group e ih => simp [Preprocessor.visit, ih h]
  | _ => simp [isBareLiteral] at h

/-! ## Numeric literals -/

/-- A numeric literal has a value, which is zero if its truth value is false. Kind: L -/
theorem numeric_cases (strings : Comptime.Strings) {e : Expr} (h : isNumericLiteral e = true) :
    ∃ l v, e = .lit l ∧ nodeGetNumericLiteral e = some v ∧ Comptime.isString e = false ∧
      Comptime.evalBooleanCast strings e = some !isZero v := by
  cases e with
  | lit l =>
      refine ⟨l, ?_⟩
      cases l with
      | null => simp [isNumericLiteral] at h
      | string s => simp [isNumericLiteral] at h
      | bool b =>
          refine ⟨_, rfl, rfl, rfl, ?_⟩
          rw [isZero_ofInt]
          cases b <;> rfl
      | char c =>
          refine ⟨_, rfl, rfl, rfl, ?_⟩
          rw [isZero_ofInt]
          have hc : (c != 0) = !decide ((c.toNat : ℤ) = 0) := by
            rw [bne, beq_eq_decide]
            congr 2
            rw [Int.natCast_eq_zero, ← UInt32.toNat_inj]
            rfl
          rw [← hc]
          rfl
      | int bits isNegative =>
          refine ⟨_, rfl, rfl, rfl, ?_⟩
          rw [isZero_ofInt, ← beq_eq_decide]
          rfl
      | float v => exact ⟨v, rfl, rfl, rfl, rfl⟩
  | _ => simp [isNumericLiteral] at h

theorem refusingStrings_numbers {l r : Expr} (hl : Comptime.isString l = false)
    (hr : Comptime.isString r = false) (result : Option Expr) :
    Comptime.refusingStrings l r result = result := by
  simp [Comptime.refusingStrings, hl, hr]

theorem evalComparison_numbers {l r : Expr} (hl : Comptime.isString l = false)
    (hr : Comptime.isString r = false) (f : Ptr → Ptr → Bool) (g : F64 → F64 → Bool) :
    Comptime.evalComparison f g l r = compareF64 g l r := by
  unfold Comptime.evalComparison
  split
  · exact absurd hl (by simp [Comptime.isString])
  · exact refusingStrings_numbers hl hr _

/-- `&&` and `||` evaluate both operands. Kind: L -/
theorem evalLogic_numbers {a b : Literal} (hl : Comptime.isString (.lit a) = false)
    (hr : Comptime.isString (.lit b) = false) (f : Bool → Bool → Bool) :
    Comptime.evalLogic f (.lit a) (.lit b) =
      compareF64 (fun x y => f (!isZero x) (!isZero y)) (.lit a) (.lit b) := by
  unfold Comptime.evalLogic
  rw [refusingStrings_numbers hl hr]
  cases ha : nodeGetNumericLiteral (.lit a) <;> cases hb : nodeGetNumericLiteral (.lit b) <;>
    simp [Comptime.truth, isLiteralExpr, compareF64, ha, hb]

theorem add_numbers {l r : Expr} (hl : Comptime.isString l = false)
    (hr : Comptime.isString r = false) (overlaid : Bool) :
    Comptime.evalOperation strings .add l r overlaid =
      Preprocessor.preprocessorEvalBinaryExpr .add l r overlaid := by
  unfold Comptime.evalOperation Preprocessor.preprocessorEvalBinaryExpr
  dsimp only
  split
  · exact absurd hl (by simp [Comptime.isString])
  · rw [hr, if_neg Bool.false_ne_true]

/-- **On numeric literals the two switches agree.** Kind: P -/
theorem operation_agrees {op : BinaryOp} (hop : op.isFolded = true) {l r : Expr}
    (hl : isNumericLiteral l = true) (hr : isNumericLiteral r = true) (overlaid : Bool) :
    Comptime.evalOperation strings op l r overlaid =
      Preprocessor.preprocessorEvalBinaryExpr op l r overlaid := by
  obtain ⟨a, v, rfl, -, hsl, -⟩ := numeric_cases strings hl
  obtain ⟨b, w, rfl, -, hsr, -⟩ := numeric_cases strings hr
  cases op with
  | add => exact add_numbers hsl hsr overlaid
  | lAnd => exact evalLogic_numbers hsl hsr _
  | lOr => exact evalLogic_numbers hsl hsr _
  | eq => exact evalComparison_numbers hsl hsr _ _
  | ne => exact evalComparison_numbers hsl hsr _ _
  | lt => exact evalComparison_numbers hsl hsr _ _
  | gt => exact evalComparison_numbers hsl hsr _ _
  | leq => exact evalComparison_numbers hsl hsr _ _
  | geq => exact evalComparison_numbers hsl hsr _ _
  | range => simp [BinaryOp.isFolded] at hop
  | «catch» => simp [BinaryOp.isFolded] at hop
  | is => simp [BinaryOp.isFolded] at hop
  | _ => exact refusingStrings_numbers hsl hsr _

/-! ## Whole expressions -/

theorem both_of_eq {e : Expr}
    (h : Preprocessor.visit strings.isNonEmpty e = Comptime.evaluate strings e) :
      Both strings e := by
  refine ⟨?_, fun l hl => ?_⟩
  · unfold preprocessed evaluated
    rw [h]
  · rw [← h, hl]

/-- An expression for which both fail. Kind: L -/
theorem both_of_none {e : Expr} (hpre : preprocessed strings e = none)
    (hev : (evaluated strings e).isSome ≠ true) :
    Both strings e := by
  refine ⟨?_, fun l hl => ?_⟩
  · rw [hpre, Option.not_isSome_iff_eq_none.mp hev]
  · unfold preprocessed at hpre
    rw [hl] at hpre
    cases hpre

/-- An operand that the preprocessor takes is the same literal for the comptime evaluator.
Kind: L -/
theorem evaluate_number {e : Expr} (he : Both strings e) (h : IsNumber strings e) :
    ∃ l, isNumericLiteral (.lit l) = true ∧ Preprocessor.visit strings.isNonEmpty e = some
      (.lit l) ∧
      Comptime.evaluate strings e = some (.lit l) := by
  obtain ⟨r, hr, hnum⟩ := h
  obtain ⟨l, v, rfl, -⟩ := numeric_cases strings hnum
  exact ⟨l, hnum, hr, he.2 l hr⟩

theorem both_group {e : Expr} (he : Both strings e)
    (hleft : isLiteralExpr e = true → isBareLiteral e = true ∨ preprocessed strings e = none) :
    Both strings (.group e) := by
  have hpre : preprocessed strings (.group e) = preprocessed strings e := by
    unfold preprocessed
    rw [Preprocessor.visit]
    cases Preprocessor.visit strings.isNonEmpty e <;> rfl
  refine ⟨?_, fun l hl => ?_⟩
  · rw [hpre]
    by_cases hlit : isLiteralExpr e = true
    · -- a literal in parentheses is not looked at
      have hev : evaluated strings (.group e) = literalOf e := by
        rw [evaluated, Comptime.evaluate, if_pos hlit]
        rfl
      rw [hev]
      by_cases hbare : isBareLiteral e = true
      · rw [preprocessed, visit_bare hbare]
        rfl
      · rw [literalOf_of_not_bare (Bool.eq_false_iff.mpr hbare)]
        exact (hleft hlit).resolve_left hbare
    · have hev : evaluated strings (.group e) = evaluated strings e := by
        rw [evaluated, Comptime.evaluate, if_neg hlit]
        rfl
      rw [hev]
      exact he.1
  · obtain ⟨r, -, hr⟩ := Option.map_eq_some_iff.mp hl
    cases hr

theorem both_unary {op : UnaryOp} {e : Expr} (hop : op = .not ∨ op = .plus ∨ op = .minus)
    (he : Both strings e)
    (hsigned : op ≠ .not → ∀ r, Preprocessor.visit strings.isNonEmpty e = some r →
      isNumericLiteral r = true → isInteger r = true ∨ isFloat r = true)
    (htaken : (evaluated strings (.unary op true e)).isSome = true → IsNumber strings e) :
    Both strings (.unary op true e) := by
  by_cases hnum : IsNumber strings e
  · obtain ⟨l, hl, hv, hev⟩ := evaluate_number he hnum
    have hvisit : Preprocessor.visit strings.isNonEmpty (.unary op true e) =
        Preprocessor.preprocessorEvalUnaryExpr op true (.lit l) := by
      simp [Preprocessor.visit, hv, hl]
    have heval : Comptime.evaluate strings (.unary op true e) = Comptime.evalPrefix strings op
      (.lit l) := by
      simp [Comptime.evaluate, hev, isError]
    apply both_of_eq
    rw [hvisit, heval]
    rcases hop with rfl | hop
    · obtain ⟨-, v, -, hval, -, hcast⟩ := numeric_cases strings hl
      simp [Comptime.evalPrefix, hcast, Preprocessor.preprocessorEvalUnaryExpr, hval]
    · have hkind : isInteger (.lit l) = true ∨ isFloat (.lit l) = true := by
        refine hsigned ?_ _ hv hl
        rintro rfl
        simp at hop
      rcases hop with rfl | rfl <;>
        simp [Comptime.evalPrefix, hkind, Preprocessor.preprocessorEvalUnaryExpr]
  · refine both_of_none ?_ fun h => hnum (htaken h)
    unfold preprocessed
    cases hv : Preprocessor.visit strings.isNonEmpty e with
    | none => simp [Preprocessor.visit, hv]
    | some r =>
        have hr : ¬ isNumericLiteral r = true := fun hr => hnum ⟨r, hv, hr⟩
        simp [Preprocessor.visit, hv, hr, literalOf]

/-- An operator that folds nothing leaves no literal. Kind: L -/
theorem operation_unfolded {op : BinaryOp} (hop : op.isFolded = false) (l r : Expr)
    (overlaid : Bool) :
    (Preprocessor.preprocessorEvalBinaryExpr op l r overlaid).bind literalOf = none ∧
      (Comptime.evalOperation strings op l r overlaid).bind literalOf = none := by
  cases op with
  | range =>
      simp only [Preprocessor.preprocessorEvalBinaryExpr, Comptime.evalOperation]
      split_ifs <;> exact ⟨rfl, rfl⟩
  | «catch» | is => exact ⟨rfl, rfl⟩
  | _ => simp [BinaryOp.isFolded] at hop

theorem both_binary {op : BinaryOp} {l r : Expr} {overlaid : Bool} (hl : Both strings l)
    (hr : Both strings r)
    (htaken : (evaluated strings (.binary op l r overlaid)).isSome = true →
      IsNumber strings l ∧ IsNumber strings r) :
    Both strings (.binary op l r overlaid) := by
  by_cases hnum : IsNumber strings l ∧ IsNumber strings r
  · obtain ⟨a, ha, hva, heva⟩ := evaluate_number hl hnum.1
    obtain ⟨b, hb, hvb, hevb⟩ := evaluate_number hr hnum.2
    have hvisit : Preprocessor.visit strings.isNonEmpty (.binary op l r overlaid) =
        Preprocessor.preprocessorEvalBinaryExpr op (.lit a) (.lit b) overlaid := by
      simp [Preprocessor.visit, hva, hvb, ha, hb]
    have heval : Comptime.evaluate strings (.binary op l r overlaid) =
        Comptime.evalOperation strings op (.lit a) (.lit b) overlaid := by
      have hverify : Comptime.verifyBinaryExprOperand op (.lit a) (.lit b) = true := by
        simp [Comptime.verifyBinaryExprOperand, isLiteralExpr]
      simp [Comptime.evaluate, heva, hevb, isError, hverify]
    cases hop : op.isFolded with
    | true =>
        apply both_of_eq
        rw [hvisit, heval, operation_agrees hop ha hb]
    | false =>
        obtain ⟨hpre, hev⟩ := @operation_unfolded strings op hop (.lit a) (.lit b) overlaid
        refine both_of_none ?_ ?_
        · rw [preprocessed, hvisit, hpre]
        · rw [evaluated, heval, hev]
          exact Bool.false_ne_true
  · refine both_of_none ?_ fun h => hnum (htaken h)
    unfold preprocessed
    cases hva : Preprocessor.visit strings.isNonEmpty l with
    | none => simp [Preprocessor.visit, hva]
    | some a =>
        cases hvb : Preprocessor.visit strings.isNonEmpty r with
        | none => simp [Preprocessor.visit, hva, hvb]
        | some b =>
            have hab : ¬ (isNumericLiteral a = true ∧ isNumericLiteral b = true) :=
              fun hab => hnum ⟨⟨a, hva, hab.1⟩, b, hvb, hab.2⟩
            simp [Preprocessor.visit, hva, hvb, hab, literalOf]

/-- The two casts to a truth value are the same function. Kind: L -/
theorem asBoolean_eq (e : Expr) :
    Preprocessor.preprocessorAsBoolean strings.isNonEmpty e =
      Comptime.evalBooleanCast strings e := by
  cases e with
  | lit l => cases l <;> rfl
  | _ => rfl

/-- What has a truth value is a literal that does not stand in parentheses. Kind: L -/
theorem lit_of_asBoolean {e : Expr} {b : Bool}
    (h : Preprocessor.preprocessorAsBoolean strings.isNonEmpty e = some b) : ∃ l, e = .lit l := by
  cases e with
  | lit l => exact ⟨l, rfl⟩
  | _ => cases h

/-- A ternary stands for the branch that its condition selects. Kind: L -/
theorem both_selected {e t : Expr} (ht : isTernary t = true → Both strings t)
    (ht' : isTernary t = false → isBareLiteral t = true ∨ preprocessed strings t = none)
    (hv : Preprocessor.visit strings.isNonEmpty e = Preprocessor.visit strings.isNonEmpty t)
    (hev : Comptime.evaluate strings e = if isTernary t then Comptime.evaluate strings t
      else some t) :
    Both strings e := by
  have hpre : preprocessed strings e = preprocessed strings t := by
    unfold preprocessed
    rw [hv]
  cases hform : isTernary t with
  | true =>
      rw [hform, if_pos rfl] at hev
      unfold Both evaluated
      rw [hpre, hv, hev]
      exact ht hform
  | false =>
      rw [hform, if_neg Bool.false_ne_true] at hev
      by_cases hbare : isBareLiteral t = true
      · apply both_of_eq
        rw [hv, hev, visit_bare hbare]
      · refine both_of_none (hpre.trans ((ht' hform).resolve_left hbare)) ?_
        rw [evaluated, hev, Option.bind_some, literalOf_of_not_bare (Bool.eq_false_iff.mpr hbare)]
        exact Bool.false_ne_true

theorem both_ternary {c t e : Expr} (hc : Both strings c)
    (htaken : (evaluated strings (.ternary c t e)).isSome = true → ∃ b, Selects strings c b)
    (ht : Selects strings c true → isTernary t = true → Both strings t)
    (ht' : Selects strings c true → isTernary t = false → isBareLiteral t = true ∨
      preprocessed strings t = none)
    (he : Selects strings c false → isTernary e = true → Both strings e)
    (he' : Selects strings c false → isTernary e = false → isBareLiteral e = true ∨
      preprocessed strings e = none) :
    Both strings (.ternary c t e) := by
  by_cases hsel : ∃ b, Selects strings c b
  · obtain ⟨b, hb⟩ := hsel
    obtain ⟨r, hv, hcast⟩ := id hb
    obtain ⟨l, rfl⟩ := lit_of_asBoolean hcast
    have hev := hc.2 l hv
    have hcast' : Comptime.evalBooleanCast strings (.lit l) = some b :=
      (asBoolean_eq _).symm.trans hcast
    cases b with
    | true =>
        apply both_selected (ht hb) (ht' hb)
        · simp [Preprocessor.visit, hv, hcast]
        · simp [Comptime.evaluate, hev, isError, hcast']
    | false =>
        apply both_selected (he hb) (he' hb)
        · simp [Preprocessor.visit, hv, hcast]
        · simp [Comptime.evaluate, hev, isError, hcast']
  · -- a condition without a truth value leaves a ternary
    refine both_of_none ?_ fun h => hsel (htaken h)
    unfold preprocessed
    cases hv : Preprocessor.visit strings.isNonEmpty c with
    | none => simp [Preprocessor.visit, hv]
    | some r =>
        cases hcast : Preprocessor.preprocessorAsBoolean strings.isNonEmpty r with
        | some b => exact absurd ⟨b, r, hv, hcast⟩ hsel
        | none =>
            cases hvt : Preprocessor.visit strings.isNonEmpty t <;>
              cases hve : Preprocessor.visit strings.isNonEmpty e <;>
                simp [Preprocessor.visit, hv, hcast, hvt, hve, literalOf]

/-- **By induction on the expression both evaluations yield the same literal, or both fail.**
Kind: P -/
theorem common_both {e : Expr} (h : Common strings e) : Both strings e := by
  induction h with
  | lit l => exact both_of_eq rfl
  | group he hleft ih => exact both_group ih hleft
  | unary hop he hsigned htaken ih => exact both_unary hop ih hsigned htaken
  | binary hl hr htaken ihl ihr => exact both_binary ihl ihr htaken
  | ternary hc htaken ht ht' he he' ihc iht ihe => exact both_ternary ihc htaken iht ht' ihe he'

end

/-- Every string is not empty and equal to every other. -/
def someStrings : Comptime.Strings :=
  ⟨fun _ => true, fun _ _ => 0, fun s _ => s, fun e => some (.cast e)⟩

/-- `(2 * 3 < 7 ? 5 : -("a"))`, which is 5 in both. -/
def sample : Expr :=
  .group (.ternary (.binary .lt (.binary .mul (.lit (.int 2 false)) (.lit (.int 3 false)) true)
    (.lit (.int 7 false)) true) (.lit (.int 5 false))
      (.unary .minus true (.group (.lit (.string 1)))))

end CxyCompiler.Middle.Evaluate
