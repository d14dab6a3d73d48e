import CxyCompiler.Frontend.ExprParser

/-!
# The trees of the expression parser

* `Expr.flatten` — the tokens of a tree, in order. `Respelled ts us` — `us` is `ts`, but for what
  has no node: a `+` directly before a number, the `:` of a symbol, and the empty parentheses of a
  macro call.
* `Expr.level`, `Expr.prec`, `Expr.WellPlaced` — how tightly a tree binds as a right and as a left
  operand, and **the condition of the operator table on every node**: a left operand binds at least
  as tightly as its operator, a right operand more tightly.
* `Spells e ts` — the token sequences that a tree stands for.
-/

namespace CxyCompiler.Frontend.ExprParser

/-! ## Trees and their tokens -/

def BinaryOp.token : BinaryOp → Token
  | .range => .dotDot
  | .catch_ => .catch_
  | .add => .plus
  | .sub => .minus
  | .mul => .mult
  | .div => .div
  | .mod => .mod
  | .bAnd => .bAnd
  | .bOr => .bOr
  | .bXor => .bXor
  | .shl => .shl
  | .shr => .shr
  | .eq => .equal
  | .ne => .notEqual
  | .is_ => .is_
  | .gt => .greater
  | .lt => .less
  | .geq => .greaterEqual
  | .leq => .lessEqual
  | .lAnd => .lAnd
  | .lOr => .lOr

def PrefixOp.token : PrefixOp → Token
  | .preDec => .minusMinus
  | .preInc => .plusPlus
  | .minus => .minus
  | .plus => .plus
  | .deref => .mult
  | .not_ => .lNot
  | .compl => .bNot
  | .refof => .bAnd
  | .move => .lAnd
  | .spread => .elipsis
  | .await => .await
  | .delete => .delete
  | .ptrof => .ptrof

def PostfixOp.token : PostfixOp → Token
  | .postDec => .minusMinus
  | .postInc => .plusPlus

theorem tokenToBinaryOperator_eq_some {tok : Token} {op : BinaryOp} :
    tokenToBinaryOperator tok = some op ↔ tok = op.token := by
  constructor
  · intro h
    cases tok <;> simp [tokenToBinaryOperator] at h <;> subst h <;> rfl
  · rintro rfl
    cases op <;> rfl

theorem tokenToUnaryOperator_eq_some {tok : Token} {op : PrefixOp} :
    tokenToUnaryOperator tok = some op ↔ tok = op.token := by
  constructor
  · intro h
    cases tok <;> simp [tokenToUnaryOperator] at h <;> subst h <;> rfl
  · rintro rfl
    cases op <;> rfl

/-- The tokens of a tree, in order. -/
def Expr.flatten : Expr → List Token
  | .operand o => [.operand o]
  | .number isNegative n => if isNegative then [.minus, .number n] else [.number n]
  | .group e => .lParen :: e.flatten ++ [Token.rParen]
  | .spreadTuple e => .lParen :: .elipsis :: e.flatten ++ [Token.rParen]
  | .call callee none => callee.flatten ++ [Token.lParen, Token.rParen]
  | .call callee (some arg) => callee.flatten ++ .lParen :: arg.flatten ++ [Token.rParen]
  | .spreadCall callee arg => callee.flatten ++ .lParen :: .elipsis :: arg.flatten ++ [Token.rParen]
  | .macroCall callee none => callee.flatten ++ [Token.lNot]
  | .macroCall callee (some arg) =>
      callee.flatten ++ .lNot :: .lParen :: arg.flatten ++ [Token.rParen]
  | .cast kind type e => e.flatten ++ [Token.cast kind type]
  | .postUnary op e => e.flatten ++ [op.token]
  | .preUnary op e => op.token :: e.flatten
  | .binary op lhs rhs => lhs.flatten ++ op.token :: rhs.flatten
  | .catchDiscard lhs => lhs.flatten ++ [Token.catch_, Token.discard]
  | .assign op lhs rhs => lhs.flatten ++ .assign op :: rhs.flatten
  | .ternary cond none otherwise => cond.flatten ++ .question :: .colon :: otherwise.flatten
  | .ternary cond (some body) otherwise =>
      cond.flatten ++ .question :: body.flatten ++ .colon :: otherwise.flatten

/-- The loosest operator that is open to the left of a tree; a smaller number binds tighter.
Nothing is applied to the right of a signed number or of `e++`. -/
def Expr.level : Expr → ℕ
  | .operand _ | .group _ | .spreadTuple _ | .call _ _ | .spreadCall _ _ | .macroCall _ _
  | .cast _ _ _ => 0
  | .number isNegative _ => if isNegative then 1 else 0
  | .postUnary _ _ | .preUnary _ _ => 1
  | .binary op lhs _ => max (getBinaryOpPrecedence op) lhs.level
  | .catchDiscard lhs => max (getBinaryOpPrecedence .catch_) lhs.level
  | .assign _ _ _ => getMaxBinaryOpPrecedence
  | .ternary _ _ _ => getMaxBinaryOpPrecedence + 1

/-- How tightly a tree binds as a left operand: by its top operator. `e catch discard` has no right
operand that the next operator could take, so it is complete. -/
def Expr.prec : Expr → ℕ
  | .binary op _ _ => getBinaryOpPrecedence op
  | .catchDiscard _ => 0
  | e => e.level

/-- **The condition of the operator table on every node.** -/
def Expr.WellPlaced : Expr → Prop
  | .operand _ | .number _ _ => True
  | .group e | .spreadTuple e => e.WellPlaced
  | .call callee none | .macroCall callee none => callee.level = 0 ∧ callee.WellPlaced
  | .call callee (some arg) | .macroCall callee (some arg) | .spreadCall callee arg =>
      callee.level = 0 ∧ callee.WellPlaced ∧ arg.WellPlaced
  | .cast _ _ e | .postUnary _ e => e.level = 0 ∧ e.WellPlaced
  | .preUnary _ e => e.level ≤ 1 ∧ e.WellPlaced
  | .binary op lhs rhs => lhs.prec ≤ getBinaryOpPrecedence op ∧
      rhs.level < getBinaryOpPrecedence op ∧ lhs.WellPlaced ∧ rhs.WellPlaced
  | .catchDiscard lhs => lhs.prec ≤ getBinaryOpPrecedence .catch_ ∧ lhs.WellPlaced
  | .assign _ lhs rhs => lhs.level ≤ 1 ∧ lhs.WellPlaced ∧ rhs.WellPlaced
  | .ternary cond none otherwise =>
      cond.level < getMaxBinaryOpPrecedence ∧ cond.WellPlaced ∧ otherwise.WellPlaced
  | .ternary cond (some body) otherwise => cond.level < getMaxBinaryOpPrecedence ∧
      cond.WellPlaced ∧ body.WellPlaced ∧ otherwise.WellPlaced

/-- The first token is that of an operand, so that an operator may be applied to its right. -/
def StartsOperand : List Token → Prop
  | .operand _ :: _ | .number _ :: _ | .lParen :: _ => True
  | _ => False

/-- The first token is a number. -/
def StartsNumber : List Token → Prop
  | .number _ :: _ => True
  | _ => False

/-- **The token sequences a tree stands for**, in order. -/
inductive Spells : Expr → List Token → Prop where
  | operand (o : Operand) : Spells (.operand o) [.operand o]
  | symbol (name : String) : Spells (.operand (.string name)) [.colon, .operand (.ident name)]
  | number (n : Number) : Spells (.number false n) [.number n]
  | plusNumber (n : Number) : Spells (.number false n) [.plus, .number n]
  | minusNumber (n : Number) : Spells (.number true n) [.minus, .number n]
  | group {e : Expr} {ts : List Token} (he : Spells e ts) (hhead : ts.head? ≠ some .elipsis) :
      Spells (.group e) (.lParen :: ts ++ [Token.rParen])
  | spreadTuple {e : Expr} {ts : List Token} (he : Spells e ts) :
      Spells (.spreadTuple e) (.lParen :: .elipsis :: ts ++ [Token.rParen])
  | emptyCall {f : Expr} {tf : List Token} (hf : Spells f tf) (hstart : StartsOperand tf)
      (hlast : tf.getLast? ≠ some .lNot) :
      Spells (.call f none) (tf ++ [Token.lParen, Token.rParen])
  | call {f a : Expr} {tf ta : List Token} (hf : Spells f tf) (hstart : StartsOperand tf)
      (hlast : tf.getLast? ≠ some .lNot) (ha : Spells a ta) (hhead : ta.head? ≠ some .elipsis) :
      Spells (.call f (some a)) (tf ++ .lParen :: ta ++ [Token.rParen])
  | spreadCall {f a : Expr} {tf ta : List Token} (hf : Spells f tf) (hstart : StartsOperand tf)
      (hlast : tf.getLast? ≠ some .lNot) (ha : Spells a ta) :
      Spells (.spreadCall f a) (tf ++ .lParen :: .elipsis :: ta ++ [Token.rParen])
  | bareMacro {f : Expr} {tf : List Token} (hf : Spells f tf) (hstart : StartsOperand tf) :
      Spells (.macroCall f none) (tf ++ [Token.lNot])
  | emptyMacro {f : Expr} {tf : List Token} (hf : Spells f tf) (hstart : StartsOperand tf) :
      Spells (.macroCall f none) (tf ++ [Token.lNot, Token.lParen, Token.rParen])
  | macroCall {f a : Expr} {tf ta : List Token} (hf : Spells f tf) (hstart : StartsOperand tf)
      (ha : Spells a ta) :
      Spells (.macroCall f (some a)) (tf ++ .lNot :: .lParen :: ta ++ [Token.rParen])
  | cast (kind : CastKind) (type : ℕ) {e : Expr} {ts : List Token} (he : Spells e ts)
      (hstart : StartsOperand ts) : Spells (.cast kind type e) (ts ++ [Token.cast kind type])
  | postUnary (op : PostfixOp) {e : Expr} {ts : List Token} (he : Spells e ts)
      (hstart : StartsOperand ts) : Spells (.postUnary op e) (ts ++ [op.token])
  | preUnary (op : PrefixOp) {e : Expr} {ts : List Token} (he : Spells e ts)
      (hsign : op = .plus ∨ op = .minus → ¬ StartsNumber ts) :
      Spells (.preUnary op e) (op.token :: ts)
  | binary (op : BinaryOp) {l r : Expr} {tl tr : List Token} (hl : Spells l tl) (hr : Spells r tr) :
      Spells (.binary op l r) (tl ++ op.token :: tr)
  | catchDiscard {l : Expr} {tl : List Token} (hl : Spells l tl) :
      Spells (.catchDiscard l) (tl ++ [Token.catch_, Token.discard])
  | assign (op : AssignOp) {l r : Expr} {tl tr : List Token} (hl : Spells l tl) (hr : Spells r tr) :
      Spells (.assign op l r) (tl ++ .assign op :: tr)
  | elvis {c o : Expr} {tc to_ : List Token} (hc : Spells c tc) (ho : Spells o to_) :
      Spells (.ternary c none o) (tc ++ .question :: .colon :: to_)
  | ternary {c b o : Expr} {tc tb to_ : List Token} (hc : Spells c tc) (hb : Spells b tb)
      (hhead : tb.head? ≠ some .colon) (ho : Spells o to_) :
      Spells (.ternary c (some b) o) (tc ++ .question :: tb ++ .colon :: to_)

/-- The second sequence is the first without what has no node: a `+` directly before a number, the
empty parentheses of a macro call; and a symbol is a string. -/
inductive Respelled : List Token → List Token → Prop where
  | nil : Respelled [] []
  | keep (tok : Token) {ts us : List Token} (h : Respelled ts us) : Respelled (tok :: ts)
    (tok :: us)
  | plus (n : Number) {ts us : List Token} (h : Respelled ts us) :
      Respelled (.plus :: .number n :: ts) (.number n :: us)
  | symbol (name : String) {ts us : List Token} (h : Respelled ts us) :
      Respelled (.colon :: .operand (.ident name) :: ts) (.operand (.string name) :: us)
  | parens {ts us : List Token} (h : Respelled ts us) :
      Respelled (.lNot :: .lParen :: .rParen :: ts) (.lNot :: us)

theorem Respelled.refl : ∀ ts : List Token, Respelled ts ts
  | [] => .nil
  | tok :: ts => .keep tok (Respelled.refl ts)

theorem Respelled.append {ts us ts' us' : List Token} (h : Respelled ts us)
    (h' : Respelled ts' us') : Respelled (ts ++ ts') (us ++ us') := by
  induction h with
  | nil => exact h'
  | keep tok _ ih => exact .keep tok ih
  | plus n _ ih => exact .plus n ih
  | symbol name _ ih => exact .symbol name ih
  | parens _ ih => exact .parens ih

/-- What a tree spells is its flattening, respelled. Kind: P -/
theorem Spells.respelled {e : Expr} {ts : List Token} (h : Spells e ts) :
    Respelled ts e.flatten := by
  induction h with
  | operand o => exact .refl _
  | symbol name => exact .symbol name .nil
  | number n => exact .refl _
  | plusNumber n => exact .plus n .nil
  | minusNumber n => exact .refl _
  | group _ _ ih => exact .keep _ (ih.append (.refl _))
  | spreadTuple _ ih => exact .keep _ (.keep _ (ih.append (.refl _)))
  | emptyCall _ _ _ ih => exact ih.append (.refl _)
  | call _ _ _ _ _ ihf iha => exact (ihf.append (.keep _ iha)).append (.refl _)
  | spreadCall _ _ _ _ ihf iha => exact (ihf.append (.keep _ (.keep _ iha))).append (.refl _)
  | bareMacro _ _ ih => exact ih.append (.refl _)
  | emptyMacro _ _ ih => exact ih.append (.parens .nil)
  | macroCall _ _ _ ihf iha => exact (ihf.append (.keep _ (.keep _ iha))).append (.refl _)
  | cast kind type _ _ ih => exact ih.append (.refl _)
  | postUnary op _ _ ih => exact ih.append (.refl _)
  | preUnary op _ _ ih => exact .keep _ ih
  | binary op _ _ ihl ihr => exact ihl.append (.keep _ ihr)
  | catchDiscard _ ih => exact ih.append (.refl _)
  | assign op _ _ ihl ihr => exact ihl.append (.keep _ ihr)
  | elvis _ _ ihc iho => exact ihc.append (.keep _ (.keep _ iho))
  | ternary _ _ _ _ ihc ihb iho => exact (ihc.append (.keep _ ihb)).append (.keep _ iho)

end CxyCompiler.Frontend.ExprParser
