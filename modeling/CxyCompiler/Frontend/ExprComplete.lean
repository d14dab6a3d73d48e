import CxyCompiler.Frontend.ExprSound

/-!
# Completeness of the expression parser

* `Yields f r` — with enough fuel, `f` returns `r`.
* `Completes e ts` — each function of the parser reads `ts` as `e` where the level of `e` allows it
  and what follows does not belong to it.
* `Spells.completes` — by induction on how the tree spells the tokens.
* `expression_tree` — **the tree of an accepted sequence is the only well-placed one that spells
  it**, and its flattening is the sequence but for what has no node.
* `expression_reads_iff` — **where an expression may end, the parser reads as a tree what the tree
  spells, and nothing else**.
-/

namespace CxyCompiler.Frontend.ExprParser

open Filter

/-! ## Enough fuel -/

/-- With enough fuel the function returns this. -/
def Yields (f : ℕ → Option (Expr × List Token)) (r : Expr × List Token) : Prop :=
  ∀ᶠ fuel in atTop, f fuel = some r

theorem yields_succ {f : ℕ → Option (Expr × List Token)} {r : Expr × List Token}
    (h : ∀ᶠ fuel in atTop, f (fuel + 1) = some r) : Yields f r := by
  rw [Yields, ← map_add_atTop_eq_nat 1]
  exact h

/-- Two results for large fuel are one. Kind: L -/
theorem Yields.unique {f : ℕ → Option (Expr × List Token)} {r r' : Expr × List Token}
    (h : Yields f r) (h' : Yields f r') : r = r' := by
  obtain ⟨fuel, hr, hr'⟩ := (h.and h').exists
  exact Option.some.inj (hr.symm.trans hr')

/-! ## What may follow -/

/-- The next token is not applied to the operand before it. -/
def NoPostfix : List Token → Prop
  | .plusPlus :: _ | .minusMinus :: _ | .lNot :: _ | .lParen :: _ | .cast _ _ :: _ => False
  | _ => True

def NoAssign : List Token → Prop
  | .assign _ :: _ => False
  | _ => True

/-- The end of a condition: of the whole expression or at the `?`. -/
def EndsBinary : List Token → Prop
  | [] | .rParen :: _ | .colon :: _ | .question :: _ => True
  | _ => False

/-- The end of a whole expression. -/
def Closes : List Token → Prop
  | [] | .rParen :: _ | .colon :: _ => True
  | _ => False

section rest

variable {rest : List Token}

/-- What ends an expression ends a chain of binary operators. Kind: L -/
theorem Closes.endsBinary (h : Closes rest) : EndsBinary rest := by
  unfold Closes at h
  split at h <;> trivial

theorem EndsBinary.noPostfix (h : EndsBinary rest) : NoPostfix rest := by
  unfold EndsBinary at h
  split at h <;> trivial

theorem EndsBinary.noAssign (h : EndsBinary rest) : NoAssign rest := by
  unfold EndsBinary at h
  split at h <;> trivial

/-- At the end of a chain no operator of any level is next. Kind: L -/
theorem EndsBinary.nextAtLeast (h : EndsBinary rest) (level : ℕ) : NextAtLeast level rest := by
  intro op hop
  unfold EndsBinary at h
  split at h <;> simp [nextBinaryOp, tokenToBinaryOperator] at hop h

theorem noPostfix_op (op : BinaryOp) (ts : List Token) : NoPostfix (op.token :: ts) := by
  cases op <;> trivial

theorem noAssign_op (op : BinaryOp) (ts : List Token) : NoAssign (op.token :: ts) := by
  cases op <;> trivial

/-- Where no postfix is, no argument list is either. Kind: L -/
theorem NoPostfix.noArgsLeft (h : NoPostfix rest) (used : List Token) : NoArgsLeft used rest := by
  intro _ hhead
  obtain ⟨us, rfl⟩ := List.head?_eq_some_iff.mp hhead
  exact h

end rest

/-! ## How a spelling starts -/

/-- The tokens an expression can start with. -/
def IsStart : Token → Prop
  | .operand _ | .number _ | .lParen | .colon => True
  | tok => (tokenToUnaryOperator tok).isSome

/-- An expression starts with one of these tokens, and not with an operand and a colon. -/
def Starts : List Token → Prop
  | [] => False
  | tok :: ts => IsStart tok ∧ ((∃ o, tok = .operand o) → ts.head? ≠ some .colon)

/-- A beginning stays one in front of tokens that do not begin with a colon. Kind: L -/
theorem Starts.append {ts us : List Token} (h : Starts ts) (hus : us.head? ≠ some .colon) :
    Starts (ts ++ us) := by
  match ts, h with
  | [tok], ⟨hstart, hcolon⟩ => exact ⟨hstart, fun _ => hus⟩
  | tok :: tok' :: ts, ⟨hstart, hcolon⟩ => exact ⟨hstart, hcolon⟩

/-- The first tokens of an expression begin one. Kind: L -/
theorem Spells.starts {e : Expr} {ts : List Token} (h : Spells e ts) : Starts ts := by
  induction h with
  | operand | symbol | number | plusNumber | minusNumber | group | spreadTuple =>
      simp [Starts, IsStart, tokenToUnaryOperator]
  | preUnary op _ _ _ => cases op <;> simp [Starts, IsStart, PrefixOp.token, tokenToUnaryOperator]
  | emptyCall _ _ _ ih | bareMacro _ _ ih | emptyMacro _ _ ih | cast _ _ _ _ ih
  | catchDiscard _ ih => exact ih.append (by simp)
  | call _ _ _ _ _ ih | spreadCall _ _ _ _ ih | macroCall _ _ _ ih  =>
      rw [List.append_assoc]
      exact ih.append (by simp)
  | postUnary op _ _ ih => exact ih.append (by cases op <;> simp [PostfixOp.token])
  | binary op _ _ ih => exact ih.append (by cases op <;> simp [BinaryOp.token])
  | assign op _ _ ih | elvis _ _ ih => exact ih.append (by simp)
  | ternary _ _ _ _ ih =>
      rw [List.append_assoc]
      exact ih.append (by simp)

section starts

variable {e : Expr} {ts : List Token}

/-- An expression does not begin with a token that begins none. Kind: L -/
theorem Spells.head_ne (h : Spells e ts) {tok : Token} (htok : ¬ IsStart tok) (rest : List Token) :
    (ts ++ rest).head? ≠ some tok := by
  intro hhead
  match ts, h.starts with
  | tok' :: ts, ⟨hstart, _⟩ =>
      have : tok' = tok := by simpa using hhead
      exact htok (this ▸ hstart)

theorem Spells.head_append (h : Spells e ts) (rest : List Token) :
    (ts ++ rest).head? = ts.head? := by
  match ts, h.ne_nil with
  | _ :: _, _ => rfl

/-- A group is never taken for the parameters of a closure. Kind: L -/
theorem Spells.not_maybeClosure (h : Spells e ts) (rest : List Token) :
    maybeClosure (ts ++ .rParen :: rest) = false := by
  match ts, h.starts with
  | [tok], ⟨hstart, hcolon⟩ =>
      unfold maybeClosure
      split <;> simp_all [IsStart, tokenToUnaryOperator]
  | tok :: tok' :: ts, ⟨hstart, hcolon⟩ =>
      unfold maybeClosure
      split <;> simp_all [IsStart, tokenToUnaryOperator]

/-- Behind an operator there is an operand, so `>` is not the first half of `>>`. Kind: L -/
theorem Spells.nextBinaryOp (h : Spells e ts) (op : BinaryOp) (rest : List Token) :
    nextBinaryOp (op.token :: (ts ++ rest)) = some op := by
  have hfunc : (ts ++ rest).head? ≠ some .func :=
    h.head_ne (by simp [IsStart, tokenToUnaryOperator]) rest
  unfold ExprParser.nextBinaryOp
  split
  · rename_i heq
    rw [(List.cons.inj heq).2] at hfunc
    simp at hfunc
  · rename_i heq
    rw [← (List.cons.inj heq).1]
    exact tokenToBinaryOperator_eq_some.mpr rfl
  · simp at *

end starts

/-! ## One step of each function -/

section steps

variable {fuel : ℕ} {e : Expr} {ts rest : List Token}

/-- A group around what is read. Kind: L -/
theorem primary_group (hclosure : maybeClosure ts = false) (hhead : ts.head? ≠ some .elipsis)
    (he : expression fuel ts = some (e, .rParen :: rest)) :
    primary (fuel + 1) (.lParen :: ts) = some (.group e, rest) := by
  unfold primary
  simp only [hclosure, Bool.false_eq_true, if_false]
  split
  · simp at hhead
  · simp [he, consumeRParen]

/-- A spread tuple around what is read. Kind: L -/
theorem primary_spreadTuple (he : expression fuel ts = some (e, .rParen :: rest)) :
    primary (fuel + 1) (.lParen :: .elipsis :: ts) = some (.spreadTuple e, rest) := by
  simp [primary, maybeClosure, he, consumeRParen]

/-- A macro call without an argument list. Kind: L -/
theorem macroExpression_bare (f : Expr) (hhead : rest.head? ≠ some .lParen) :
    macroExpression (fuel + 1) f rest = some (.macroCall f none, rest) := by
  unfold macroExpression
  split
  · simp at hhead
  · simp at hhead
  · rfl

/-- A macro call with an argument. Kind: L -/
theorem macroExpression_arg (f : Expr) (hhead : ts.head? ≠ some .rParen)
    (he : expression fuel ts = some (e, .rParen :: rest)) :
    macroExpression (fuel + 1) f (.lParen :: ts) = some (.macroCall f (some e), rest) := by
  unfold macroExpression
  split
  · rename_i heq
    cases heq
    simp at hhead
  · rename_i heq
    cases heq
    simp [he, consumeRParen]
  · rename_i hno
    exact absurd rfl (hno ts)

/-- A call with an argument. Kind: L -/
theorem callExpression_arg (f : Expr) (hparen : ts.head? ≠ some .rParen)
    (hspread : ts.head? ≠ some .elipsis) (he : expression fuel ts = some (e, .rParen :: rest)) :
    callExpression (fuel + 1) f ts = some (.call f (some e), rest) := by
  unfold callExpression
  split
  · simp at hparen
  · simp at hspread
  · simp [he, consumeRParen]

/-- A call with a spread argument. Kind: L -/
theorem callExpression_spread (f : Expr) (he : expression fuel ts = some (e, .rParen :: rest)) :
    callExpression (fuel + 1) f (.elipsis :: ts) = some (.spreadCall f e, rest) := by
  simp [callExpression, he, consumeRParen]

/-- The loop over postfixes ends where none is. Kind: L -/
theorem postfixLoop_stop (e : Expr) (h : NoPostfix rest) :
    postfixLoop (fuel + 1) e rest = some (e, rest) := by
  unfold postfixLoop
  split <;> first | rfl | exact absurd h id

/-- What begins an operand has no prefix operator. Kind: L -/
theorem prefixExpr_operand (h : StartsOperand ts) (us : List Token) :
    prefixExpr (fuel + 1) (ts ++ us) = postfixExpr fuel (ts ++ us) := by
  match ts, h with
  | .operand _ :: _, _ => rfl
  | .number _ :: _, _ => rfl
  | .lParen :: _, _ => rfl

/-- A sign in front of a number belongs to the number, any other prefix is an operator. Kind: L -/
theorem prefixExpr_unary {op : PrefixOp} (hsign : op = .plus ∨ op = .minus → ¬ StartsNumber ts)
    (he : prefixExpr fuel ts = some (e, rest)) :
    prefixExpr (fuel + 1) (op.token :: ts) = some (.preUnary op e, rest) := by
  unfold prefixExpr
  split
  · rename_i heq
    cases op <;> simp [PrefixOp.token] at heq
    subst heq
    exact absurd trivial (hsign (Or.inr rfl))
  · rename_i heq
    cases op <;> simp [PrefixOp.token] at heq
    subst heq
    exact absurd trivial (hsign (Or.inl rfl))
  · rename_i heq
    cases op <;> simp [PrefixOp.token] at heq
  · rename_i heq
    cases op <;> simp [PrefixOp.token] at heq
  · simp at *
  · rename_i tok ts heq
    cases heq
    rw [tokenToUnaryOperator_eq_some.mpr rfl]
    simp [he]

/-- The loop ends at an operator that binds too weakly. Kind: L -/
theorem binaryLoop_stop (lhs : Expr) {prec : ℕ} (h : NextAtLeast prec rest) :
    binaryLoop (fuel + 1) lhs prec rest = some (lhs, rest) := by
  unfold binaryLoop
  split
  · rfl
  · rename_i op hop
    rw [if_pos (h op hop)]

/-- An operator that binds strongly enough takes its right operand, and the loop goes on. Kind: L -/
theorem binaryLoop_op (lhs : Expr) {op : BinaryOp} {prec : ℕ} {rhs : Expr}
    (hnext : nextBinaryOp (op.token :: ts) = some op) (hprec : getBinaryOpPrecedence op < prec)
    (hdiscard : ts.head? ≠ some .discard)
    (hrhs : binary fuel (getBinaryOpPrecedence op) ts = some (rhs, rest)) :
    binaryLoop (fuel + 1) lhs prec (op.token :: ts) =
      binaryLoop fuel (.binary op lhs rhs) prec rest := by
  conv_lhs => unfold binaryLoop
  rw [hnext]
  simp only [if_neg (not_le.mpr hprec)]
  split
  · rename_i heq
    rw [(List.cons.inj heq).2] at hdiscard
    simp at hdiscard
  · rename_i heq
    cases heq
    rw [hrhs]
    rfl
  · simp at *

/-- A `catch discard` has no right operand. Kind: L -/
theorem binaryLoop_discard (lhs : Expr) {prec : ℕ}
    (hprec : getBinaryOpPrecedence .catch_ < prec) :
    binaryLoop (fuel + 1) lhs prec (.catch_ :: .discard :: ts) =
      binaryLoop fuel (.catchDiscard lhs) prec ts := by
  rw [binaryLoop]
  simp only [nextBinaryOp, tokenToBinaryOperator, if_neg (not_le.mpr hprec)]

end steps

/-! ## Completeness -/

/-- The loop of `postfix` that has read the tree goes on as that after its primary expression. -/
def ReadAsOperand (e : Expr) (ts : List Token) : Prop :=
  ∀ ⦃rest r⦄, NoArgsLeft ts rest → Yields (postfixLoop · e rest) r →
    Yields (postfixExpr · (ts ++ rest)) r

def ReadAsPrefix (e : Expr) (ts : List Token) : Prop :=
  ∀ ⦃rest⦄, NoPostfix rest → Yields (prefixExpr · (ts ++ rest)) (e, rest)

/-- The loop of `binary` that has read the tree goes on as that after its leftmost operand. -/
def ReadAsBinary (e : Expr) (ts : List Token) : Prop :=
  ∀ ⦃prec rest r⦄, e.level < prec → NoPostfix rest → NoAssign rest → NextAtLeast e.prec rest →
    Yields (binaryLoop · e prec rest) r →
      ∃ lhs us, NoAssign us ∧ Yields (prefixExpr · (ts ++ rest)) (lhs, us) ∧
        Yields (binaryLoop · lhs prec us) r

/-- **Each function reads the tokens as the tree**, where its level allows it and what follows does
not belong to it. -/
structure Completes (e : Expr) (ts : List Token) : Prop where
  operand : e.level = 0 → StartsOperand ts → ReadAsOperand e ts
  prefixExpr : e.level ≤ 1 → ReadAsPrefix e ts
  binary : e.level < getMaxBinaryOpPrecedence → ReadAsBinary e ts
  ternary : ∀ ⦃rest⦄, Closes rest → Yields (ternary · (ts ++ rest)) (e, rest)

section completes

variable {e : Expr} {ts rest : List Token}

/-- What completes is read by the whole parser. Kind: L -/
theorem Completes.expression (h : Completes e ts) (hrest : Closes rest) :
    Yields (ExprParser.expression · (ts ++ rest)) (e, rest) :=
  yields_succ (h.ternary hrest)

/-- A chain is read up to an operator outside its level. Kind: L -/
theorem ReadAsBinary.binary (h : ReadAsBinary e ts) {prec : ℕ} (hlevel : e.level < prec)
    (hpost : NoPostfix rest) (hassign : NoAssign rest) (hnext : NextAtLeast prec rest) :
    Yields (ExprParser.binary · prec (ts ++ rest)) (e, rest) := by
  have hstop : Yields (binaryLoop · e prec rest) (e, rest) :=
    yields_succ (Eventually.of_forall fun fuel => binaryLoop_stop e hnext)
  have hlow : NextAtLeast e.prec rest := fun op hop =>
    ((prec_le_level e).trans hlevel.le).trans (hnext op hop)
  obtain ⟨lhs, us, -, hpre, hloop⟩ := h hlevel hpost hassign hlow hstop
  apply yields_succ
  filter_upwards [hpre, hloop] with fuel hpre hloop
  simp [ExprParser.binary, hpre, hloop]

/-- A chain without an assignment is what the parser of assignments reads. Kind: L -/
theorem ReadAsBinary.assign (h : ReadAsBinary e ts) (hlevel : e.level < getMaxBinaryOpPrecedence)
    (hrest : EndsBinary rest) : Yields (ExprParser.assign · (ts ++ rest)) (e, rest) := by
  have hstop : Yields (binaryLoop · e getMaxBinaryOpPrecedence rest) (e, rest) :=
    yields_succ (Eventually.of_forall fun fuel => binaryLoop_stop e (hrest.nextAtLeast _))
  obtain ⟨lhs, us, hus, hpre, hloop⟩ :=
    h hlevel hrest.noPostfix hrest.noAssign (hrest.nextAtLeast _) hstop
  apply yields_succ
  filter_upwards [hpre, hloop] with fuel hpre hloop
  unfold ExprParser.assign
  rw [hpre]
  simp only [Option.bind_eq_bind, Option.bind_some]
  split
  · exact absurd hus id
  · exact hloop

/-- Nothing but a `?` continues the condition. Kind: L -/
theorem ternary_of_assign (h : Yields (assign · ts) (e, rest)) (hrest : Closes rest) :
    Yields (ternary · ts) (e, rest) := by
  apply yields_succ
  filter_upwards [h] with fuel h
  unfold ternary
  rw [h]
  simp only [Option.bind_eq_bind, Option.bind_some]
  split
  · exact absurd hrest id
  · exact absurd hrest id
  · rfl

/-- An operand with its prefixes is a chain of no operator. Kind: L -/
theorem ReadAsPrefix.binary (h : ReadAsPrefix e ts) : ReadAsBinary e ts := by
  intro prec rest r _ hpost hassign _ hloop
  exact ⟨e, rest, hassign, h hpost, hloop⟩

/-- A binary expression completes when it is read as a chain. Kind: L -/
theorem Completes.of_binary (hlow : 1 < e.level) (hhigh : e.level < getMaxBinaryOpPrecedence)
    (h : ReadAsBinary e ts) : Completes e ts where
  operand hlevel := by omega
  prefixExpr hlevel := by omega
  binary _ := h
  ternary _ hrest := ternary_of_assign (h.assign hhigh hrest.endsBinary) hrest

/-- A unary expression completes when it is read as an operand with prefixes. Kind: L -/
theorem Completes.of_readAsPrefix (hlevel : e.level ≤ 1) (hpre : ReadAsPrefix e ts)
    (hoperand : e.level = 0 → StartsOperand ts → ReadAsOperand e ts) : Completes e ts where
  operand := hoperand
  prefixExpr _ := hpre
  binary _ := hpre.binary
  ternary _ hrest := ternary_of_assign
    (hpre.binary.assign (hlevel.trans_lt (by decide)) hrest.endsBinary) hrest

/-- An operand completes when the loop over postfixes goes on with it. Kind: L -/
theorem Completes.of_operand (hlevel : e.level = 0) (hstart : StartsOperand ts)
    (h : ReadAsOperand e ts) : Completes e ts := by
  refine .of_readAsPrefix (by omega) ?_ fun _ _ => h
  intro rest hrest
  have hstop : Yields (postfixLoop · e rest) (e, rest) :=
    yields_succ (Eventually.of_forall fun fuel => postfixLoop_stop e hrest)
  apply yields_succ
  filter_upwards [h (hrest.noArgsLeft ts) hstop] with fuel h
  rw [prefixExpr_operand hstart]
  exact h

/-- An assignment or a conditional completes when it is read at the top. Kind: L -/
theorem Completes.of_ternary (hlevel : getMaxBinaryOpPrecedence ≤ e.level)
    (h : ∀ ⦃rest⦄, Closes rest → Yields (ExprParser.ternary · (ts ++ rest)) (e, rest)) :
    Completes e ts where
  operand hzero := by rw [hzero] at hlevel; exact absurd hlevel (by decide)
  prefixExpr hone := absurd (hlevel.trans hone) (by decide)
  binary hlt := absurd hlt (not_lt.mpr hlevel)
  ternary := h

end completes

/-! ### The spellings -/

section spellings

variable {e f a l r : Expr} {ts tf ta tl tr rest : List Token}

/-- A primary expression is read in front of any postfixes. Kind: L -/
theorem readAsOperand_primary (h : ∀ rest, Yields (primary · (ts ++ rest)) (e, rest)) :
    ReadAsOperand e ts := by
  intro rest r _ hloop
  apply yields_succ
  filter_upwards [h rest, hloop] with fuel hprimary hloop
  simp [postfixExpr, hprimary, hloop]

/-- What is applied to the right of an operand. Kind: L -/
theorem ReadAsOperand.append {us : List Token} (hf : ReadAsOperand f tf)
    (hargs : ∀ rest, NoArgsLeft tf (us ++ rest))
    (hloop : ∀ {rest r}, NoArgsLeft (tf ++ us) rest → Yields (postfixLoop · e rest) r →
      Yields (postfixLoop · f (us ++ rest)) r) : ReadAsOperand e (tf ++ us) := by
  intro rest r hrest hr
  rw [List.append_assoc]
  exact hf (hargs rest) (hloop hrest hr)

theorem completes_operand (o : Operand) : Completes (.operand o) [.operand o] := by
  refine .of_operand rfl trivial (readAsOperand_primary fun rest => ?_)
  exact yields_succ (Eventually.of_forall fun _ => rfl)

/-- A number without a sign. Kind: L -/
theorem completes_number (n : Number) : Completes (.number false n) [.number n] := by
  refine .of_operand rfl trivial (readAsOperand_primary fun rest => ?_)
  exact yields_succ (Eventually.of_forall fun _ => rfl)

/-- A name behind a colon is a string. Kind: L -/
theorem completes_symbol (name : String) :
    Completes (.operand (.string name)) [.colon, .operand (.ident name)] := by
  refine .of_readAsPrefix (Nat.zero_le 1) ?_ fun _ hstart => absurd hstart id
  intro rest _
  exact yields_succ (Eventually.of_forall fun _ => rfl)

/-- A number with a plus is the number. Kind: L -/
theorem completes_plusNumber (n : Number) :
    Completes (.number false n) [.plus, .number n] := by
  refine .of_readAsPrefix (Nat.zero_le 1) ?_ fun _ hstart => absurd hstart id
  intro rest _
  exact yields_succ (Eventually.of_forall fun _ => rfl)

/-- A number with a minus is a negative number, not an operator on one. Kind: L -/
theorem completes_minusNumber (n : Number) :
    Completes (.number true n) [.minus, .number n] := by
  refine .of_readAsPrefix le_rfl ?_ fun _ hstart => absurd hstart id
  intro rest _
  exact yields_succ (Eventually.of_forall fun _ => rfl)

/-- What completes also does in parentheses. Kind: L -/
theorem completes_group (hspells : Spells e ts) (hhead : ts.head? ≠ some .elipsis)
    (he : Completes e ts) : Completes (.group e) (.lParen :: ts ++ [Token.rParen]) := by
  refine .of_operand rfl trivial (readAsOperand_primary fun rest => ?_)
  apply yields_succ
  filter_upwards [he.expression (show Closes (.rParen :: rest) from trivial)] with fuel he
  have happend : .lParen :: ts ++ [Token.rParen] ++ rest = .lParen :: (ts ++ .rParen :: rest) := by
    simp
  rw [happend]
  refine primary_group (hspells.not_maybeClosure rest) ?_ he
  rwa [hspells.head_append]

/-- A spread tuple completes when its expression does. Kind: L -/
theorem completes_spreadTuple (he : Completes e ts) :
    Completes (.spreadTuple e) (.lParen :: .elipsis :: ts ++ [Token.rParen]) := by
  refine .of_operand rfl trivial (readAsOperand_primary fun rest => ?_)
  apply yields_succ
  filter_upwards [he.expression (show Closes (.rParen :: rest) from trivial)] with fuel he
  have happend : .lParen :: .elipsis :: ts ++ [Token.rParen] ++ rest =
      .lParen :: .elipsis :: (ts ++ .rParen :: rest) := by simp
  rw [happend]
  exact primary_spreadTuple he

/-- Nothing is left for the arguments of a callee that does not end in `!`. Kind: L -/
theorem noArgsLeft_of_last (hlast : tf.getLast? ≠ some .lNot) (rest : List Token) :
    NoArgsLeft tf rest := fun h => absurd h hlast

/-- Behind a call the loop over postfixes goes on with it. Kind: L -/
theorem postfixLoop_call {us : List Token} {r : Expr × List Token}
    (hcall : Yields (callExpression · f us) (e, rest)) (hloop : Yields (postfixLoop · e rest) r) :
    Yields (postfixLoop · f (.lParen :: us)) r := by
  apply yields_succ
  filter_upwards [hcall, hloop] with fuel hcall hloop
  simp [postfixLoop, hcall, hloop]

/-- Behind a macro call the loop over postfixes goes on with it. Kind: L -/
theorem postfixLoop_macro {us : List Token} {r : Expr × List Token}
    (hmac : Yields (macroExpression · f us) (e, rest)) (hloop : Yields (postfixLoop · e rest) r) :
    Yields (postfixLoop · f (.lNot :: us)) r := by
  apply yields_succ
  filter_upwards [hmac, hloop] with fuel hmac hloop
  simp [postfixLoop, hmac, hloop]

/-- A call without an argument; behind a `!` it would be a macro call. Kind: L -/
theorem completes_emptyCall (hstart : StartsOperand tf) (hlast : tf.getLast? ≠ some .lNot)
    (hlevel : f.level = 0) (hf : Completes f tf) :
    Completes (.call f none) (tf ++ [Token.lParen, Token.rParen]) := by
  refine .of_operand rfl (hstart.append _) ((hf.operand hlevel hstart).append
    (fun _ => noArgsLeft_of_last hlast _) ?_)
  intro rest r _ hloop
  exact postfixLoop_call (yields_succ (Eventually.of_forall fun _ => rfl)) hloop

/-- A call with an argument. Kind: L -/
theorem completes_call (hstart : StartsOperand tf) (hlast : tf.getLast? ≠ some .lNot)
    (hlevel : f.level = 0) (hf : Completes f tf) (hspells : Spells a ta)
    (hhead : ta.head? ≠ some .elipsis) (ha : Completes a ta) :
    Completes (.call f (some a)) (tf ++ .lParen :: ta ++ [Token.rParen]) := by
  rw [List.append_assoc]
  refine .of_operand rfl (hstart.append _) ((hf.operand hlevel hstart).append
    (fun _ => noArgsLeft_of_last hlast _) ?_)
  intro rest r _ hloop
  simp only [List.cons_append, List.append_assoc, List.nil_append]
  refine postfixLoop_call (yields_succ ?_) hloop
  filter_upwards [ha.expression (show Closes (.rParen :: rest) from trivial)] with fuel ha
  exact callExpression_arg f (hspells.head_ne (by simp [IsStart, tokenToUnaryOperator]) _)
    (by rwa [hspells.head_append]) ha

/-- A call with a spread argument. Kind: L -/
theorem completes_spreadCall (hstart : StartsOperand tf) (hlast : tf.getLast? ≠ some .lNot)
    (hlevel : f.level = 0) (hf : Completes f tf) (ha : Completes a ta) :
    Completes (.spreadCall f a) (tf ++ .lParen :: .elipsis :: ta ++ [Token.rParen]) := by
  rw [List.append_assoc]
  refine .of_operand rfl (hstart.append _) ((hf.operand hlevel hstart).append
    (fun _ => noArgsLeft_of_last hlast _) ?_)
  intro rest r _ hloop
  simp only [List.cons_append, List.append_assoc, List.nil_append]
  refine postfixLoop_call (yields_succ ?_) hloop
  filter_upwards [ha.expression (show Closes (.rParen :: rest) from trivial)] with fuel ha
  exact callExpression_spread f ha

/-- A `!` is not a parenthesis of arguments. Kind: L -/
theorem noArgsLeft_cons {tok : Token} (htok : tok ≠ .lParen) (tf us : List Token) :
    NoArgsLeft tf (tok :: us) := by
  intro _ hhead
  exact htok (by simpa using hhead)

/-- A macro call without parentheses. Kind: L -/
theorem completes_bareMacro (hstart : StartsOperand tf) (hlevel : f.level = 0)
    (hf : Completes f tf) : Completes (.macroCall f none) (tf ++ [Token.lNot]) := by
  refine .of_operand rfl (hstart.append _) ((hf.operand hlevel hstart).append
    (fun _ => noArgsLeft_cons (by simp) _ _) ?_)
  intro rest r hrest hloop
  refine postfixLoop_macro (yields_succ (Eventually.of_forall fun _ => ?_)) hloop
  exact macroExpression_bare f (hrest (by simp))

/-- A macro call with nothing in its parentheses is the one without them. Kind: L -/
theorem completes_emptyMacro (hstart : StartsOperand tf) (hlevel : f.level = 0)
    (hf : Completes f tf) :
    Completes (.macroCall f none) (tf ++ [Token.lNot, Token.lParen, Token.rParen]) := by
  refine .of_operand rfl (hstart.append _) ((hf.operand hlevel hstart).append
    (fun _ => noArgsLeft_cons (by simp) _ _) ?_)
  intro rest r _ hloop
  exact postfixLoop_macro (yields_succ (Eventually.of_forall fun _ => rfl)) hloop

/-- A macro call with an argument. Kind: L -/
theorem completes_macroCall (hstart : StartsOperand tf) (hlevel : f.level = 0)
    (hf : Completes f tf) (hspells : Spells a ta) (ha : Completes a ta) :
    Completes (.macroCall f (some a)) (tf ++ .lNot :: .lParen :: ta ++ [Token.rParen]) := by
  rw [List.append_assoc]
  refine .of_operand rfl (hstart.append _) ((hf.operand hlevel hstart).append
    (fun _ => noArgsLeft_cons (by simp) _ _) ?_)
  intro rest r _ hloop
  simp only [List.cons_append, List.append_assoc, List.nil_append]
  refine postfixLoop_macro (yields_succ ?_) hloop
  filter_upwards [ha.expression (show Closes (.rParen :: rest) from trivial)] with fuel ha
  exact macroExpression_arg f (hspells.head_ne (by simp [IsStart, tokenToUnaryOperator]) _) ha

/-- A cast of an operand. Kind: L -/
theorem completes_cast (kind : CastKind) (type : ℕ) (hstart : StartsOperand ts)
    (hlevel : e.level = 0) (he : Completes e ts) :
    Completes (.cast kind type e) (ts ++ [Token.cast kind type]) := by
  refine .of_operand rfl (hstart.append _) ((he.operand hlevel hstart).append
    (fun _ => noArgsLeft_cons (by simp) _ _) ?_)
  intro rest r _ hloop
  exact yields_succ hloop

/-- An operator behind an operand. Kind: L -/
theorem completes_postUnary (op : PostfixOp) (hstart : StartsOperand ts) (hlevel : e.level = 0)
    (he : Completes e ts) : Completes (.postUnary op e) (ts ++ [op.token]) := by
  refine .of_readAsPrefix le_rfl ?_ fun hzero => absurd hzero (by simp [Expr.level])
  intro rest _
  have hargs : NoArgsLeft ts (op.token :: rest) :=
    noArgsLeft_cons (by cases op <;> simp [PostfixOp.token]) _ _
  have hloop : Yields (postfixLoop · e (op.token :: rest)) (.postUnary op e, rest) :=
    yields_succ (Eventually.of_forall fun _ => by cases op <;> rfl)
  apply yields_succ
  filter_upwards [he.operand hlevel hstart hargs hloop] with fuel he
  rw [List.append_assoc, prefixExpr_operand hstart]
  exact he

/-- An operator in front of an operand; a sign in front of a number is part of it. Kind: L -/
theorem completes_preUnary (op : PrefixOp) (hspells : Spells e ts)
    (hsign : op = .plus ∨ op = .minus → ¬ StartsNumber ts) (hlevel : e.level ≤ 1)
    (he : Completes e ts) : Completes (.preUnary op e) (op.token :: ts) := by
  refine .of_readAsPrefix le_rfl ?_ fun hzero => absurd hzero (by simp [Expr.level])
  intro rest hrest
  apply yields_succ
  filter_upwards [he.prefixExpr hlevel hrest] with fuel he
  refine prefixExpr_unary (fun hop hnumber => hsign hop ?_) he
  cases ts with
  | nil => exact absurd rfl hspells.ne_nil
  | cons t ts => cases t <;> exact hnumber

/-- **A binary operator: weaker or equal on the left, stronger on the right.** Kind: L -/
theorem completes_binary (op : BinaryOp) (hl : Completes l tl) (hr : Completes r tr)
    (hspells : Spells r tr) (hleft : l.prec ≤ getBinaryOpPrecedence op)
    (hlevel : l.level < getMaxBinaryOpPrecedence)
    (hright : r.level < getBinaryOpPrecedence op) :
    Completes (.binary op l r) (tl ++ op.token :: tr) := by
  have hmax := getBinaryOpPrecedence_lt op
  refine .of_binary (lt_max_of_lt_left (getBinaryOpPrecedence_pos op)) (max_lt hmax hlevel) ?_
  intro prec rest res hprec hpost hassign hnext hloop
  have hop : getBinaryOpPrecedence op < prec := (le_max_left _ _).trans_lt hprec
  have hnext' : NextAtLeast l.prec (op.token :: (tr ++ rest)) := by
    intro op' hop'
    rw [hspells.nextBinaryOp, Option.some.injEq] at hop'
    exact hop' ▸ hleft
  -- the right operand ends where the loop of `op` would go on
  have hrhs := (hr.binary (hright.trans hmax)).binary hright hpost hassign hnext
  rw [List.append_assoc, List.cons_append]
  refine hl.binary hlevel ((le_max_right _ _).trans_lt hprec) (noPostfix_op op _)
    (noAssign_op op _) hnext' (yields_succ ?_)
  filter_upwards [hrhs, hloop] with fuel hrhs hloop
  rw [binaryLoop_op l (hspells.nextBinaryOp op rest) hop
    (hspells.head_ne (by simp [IsStart, tokenToUnaryOperator]) _) hrhs]
  exact hloop

/-- A `catch discard` behind a chain. Kind: L -/
theorem completes_catchDiscard (hl : Completes l tl)
    (hleft : l.prec ≤ getBinaryOpPrecedence .catch_) (hlevel : l.level < getMaxBinaryOpPrecedence) :
    Completes (.catchDiscard l) (tl ++ [Token.catch_, Token.discard]) := by
  refine .of_binary (lt_max_of_lt_left (by decide)) (max_lt (by decide) hlevel) ?_
  intro prec rest res hprec _ _ _ hloop
  have hop : getBinaryOpPrecedence .catch_ < prec := (le_max_left _ _).trans_lt hprec
  have hnext : NextAtLeast l.prec ([.catch_, .discard] ++ rest) := by
    intro op' hop'
    rw [show nextBinaryOp _ = some .catch_ from rfl, Option.some.injEq] at hop'
    exact hop' ▸ hleft
  rw [List.append_assoc]
  refine hl.binary hlevel ((le_max_right _ _).trans_lt hprec) trivial trivial hnext (yields_succ ?_)
  filter_upwards [hloop] with fuel hloop
  rw [List.cons_append, List.cons_append, binaryLoop_discard l hop]
  exact hloop

/-- An assignment takes an operand on the left and any assignment on the right. Kind: L -/
theorem completes_assign (op : AssignOp) (hl : Completes l tl) (hlevel : l.level ≤ 1)
    (hr : Completes r tr) : Completes (.assign op l r) (tl ++ .assign op :: tr) := by
  refine .of_ternary le_rfl ?_
  intro rest hrest
  rw [List.append_assoc, List.cons_append]
  have hassign : Yields (assign · (tl ++ .assign op :: (tr ++ rest))) (.assign op l r, rest) := by
    apply yields_succ
    have hpre := hl.prefixExpr hlevel (show NoPostfix (.assign op :: (tr ++ rest)) from trivial)
    filter_upwards [hpre, hr.ternary hrest] with fuel hpre hternary
    simp [assign, hpre, hternary]
  exact ternary_of_assign hassign hrest

section ternaries

variable {c b o : Expr} {tc tb to_ : List Token}

/-- A conditional without a middle. Kind: L -/
theorem completes_elvis (hc : Completes c tc) (hlevel : c.level < getMaxBinaryOpPrecedence)
    (ho : Completes o to_) : Completes (.ternary c none o) (tc ++ .question :: .colon :: to_) := by
  refine .of_ternary (Nat.le_succ _) ?_
  intro rest hrest
  rw [List.append_assoc, List.cons_append, List.cons_append]
  have hcond := (hc.binary hlevel).assign hlevel
    (show EndsBinary (.question :: .colon :: (to_ ++ rest)) from trivial)
  apply yields_succ
  filter_upwards [hcond, ho.ternary hrest] with fuel hcond hother
  simp [ternary, hcond, hother]

/-- A conditional with a middle, which does not begin with a colon. Kind: L -/
theorem completes_ternary (hc : Completes c tc) (hlevel : c.level < getMaxBinaryOpPrecedence)
    (hspells : Spells b tb) (hhead : tb.head? ≠ some .colon) (hb : Completes b tb)
    (ho : Completes o to_) :
    Completes (.ternary c (some b) o) (tc ++ .question :: tb ++ .colon :: to_) := by
  refine .of_ternary (Nat.le_succ _) ?_
  intro rest hrest
  simp only [List.cons_append, List.append_assoc]
  have hcond := (hc.binary hlevel).assign hlevel
    (show EndsBinary (.question :: (tb ++ .colon :: (to_ ++ rest))) from trivial)
  have hbody := hb.ternary (show Closes (.colon :: (to_ ++ rest)) from trivial)
  apply yields_succ
  filter_upwards [hcond, hbody, ho.ternary hrest] with fuel hcond hbody hother
  unfold ternary
  rw [hcond]
  simp only [Option.bind_eq_bind, Option.bind_some]
  split
  · rename_i heq
    -- a body that starts with a colon would have been taken for `?:`
    rw [← hspells.head_append (.colon :: (to_ ++ rest)), (List.cons.inj heq).2] at hhead
    simp at hhead
  · rename_i heq
    rw [← (List.cons.inj heq).2, hbody]
    simp [hother]
  · rename_i hno
    exact absurd rfl (hno _)

end ternaries

end spellings

/-- A well-placed left operand holds no assignment and no ternary. Kind: L -/
theorem Expr.WellPlaced.level_lt : ∀ {e : Expr}, e.WellPlaced →
    e.prec < getMaxBinaryOpPrecedence → e.level < getMaxBinaryOpPrecedence
  | .binary op _ _, h, _ =>
      have hmax := getBinaryOpPrecedence_lt op
      max_lt hmax (level_lt h.2.2.1 (h.1.trans_lt hmax))
  | .catchDiscard _, h, _ => max_lt (by decide) (level_lt h.2 (h.1.trans_lt (by decide)))
  | .operand _, _, h | .number _ _, _, h | .group _, _, h | .spreadTuple _, _, h | .call _ _, _, h
  | .spreadCall _ _, _, h | .macroCall _ _, _, h | .cast _ _ _, _, h | .postUnary _ _, _, h
  | .preUnary _ _, _, h | .assign _ _ _, _, h | .ternary _ _ _, _, h => h

/-- **The parser reads every spelling of a well-placed tree as that tree.** Kind: P -/
theorem Spells.completes {e : Expr} {ts : List Token} (h : Spells e ts) (hplaced : e.WellPlaced) :
    Completes e ts := by
  induction h with
  | operand o => exact completes_operand o
  | symbol name => exact completes_symbol name
  | number n => exact completes_number n
  | plusNumber n => exact completes_plusNumber n
  | minusNumber n => exact completes_minusNumber n
  | group he hhead ih => exact completes_group he hhead (ih hplaced)
  | spreadTuple _ ih => exact completes_spreadTuple (ih hplaced)
  | emptyCall _ hstart hlast ih =>
      obtain ⟨hlevel, hf⟩ := hplaced
      exact completes_emptyCall hstart hlast hlevel (ih hf)
  | call _ hstart hlast ha hhead ihf iha =>
      obtain ⟨hlevel, hf, harg⟩ := hplaced
      exact completes_call hstart hlast hlevel (ihf hf) ha hhead (iha harg)
  | spreadCall _ hstart hlast _ ihf iha =>
      obtain ⟨hlevel, hf, harg⟩ := hplaced
      exact completes_spreadCall hstart hlast hlevel (ihf hf) (iha harg)
  | bareMacro _ hstart ih =>
      obtain ⟨hlevel, hf⟩ := hplaced
      exact completes_bareMacro hstart hlevel (ih hf)
  | emptyMacro _ hstart ih =>
      obtain ⟨hlevel, hf⟩ := hplaced
      exact completes_emptyMacro hstart hlevel (ih hf)
  | macroCall _ hstart ha ihf iha =>
      obtain ⟨hlevel, hf, harg⟩ := hplaced
      exact completes_macroCall hstart hlevel (ihf hf) ha (iha harg)
  | cast kind type _ hstart ih =>
      obtain ⟨hlevel, he⟩ := hplaced
      exact completes_cast kind type hstart hlevel (ih he)
  | postUnary op _ hstart ih =>
      obtain ⟨hlevel, he⟩ := hplaced
      exact completes_postUnary op hstart hlevel (ih he)
  | preUnary op he hsign ih =>
      obtain ⟨hlevel, hoperand⟩ := hplaced
      exact completes_preUnary op he hsign hlevel (ih hoperand)
  | binary op _ hr ihl ihr =>
      obtain ⟨hleft, hright, hl, hrhs⟩ := hplaced
      have hlevel := hl.level_lt (hleft.trans_lt (getBinaryOpPrecedence_lt op))
      exact completes_binary op (ihl hl) (ihr hrhs) hr hleft hlevel hright
  | catchDiscard _ ih =>
      obtain ⟨hleft, hl⟩ := hplaced
      exact completes_catchDiscard (ih hl) hleft (hl.level_lt (hleft.trans_lt (by decide)))
  | assign op _ _ ihl ihr =>
      obtain ⟨hlevel, hl, hr⟩ := hplaced
      exact completes_assign op (ihl hl) hlevel (ihr hr)
  | elvis _ _ ihc iho =>
      obtain ⟨hlevel, hc, ho⟩ := hplaced
      exact completes_elvis (ihc hc) hlevel (iho ho)
  | ternary _ hb hhead _ ihc ihb iho =>
      obtain ⟨hlevel, hc, hbody, ho⟩ := hplaced
      exact completes_ternary (ihc hc) hlevel hb hhead (ihb hbody) (iho ho)

/-- **What is spelled is read back**, by induction on the spelling. Kind: L -/
theorem Spells.yields {e : Expr} {ts : List Token} (h : Spells e ts) (hplaced : e.WellPlaced) :
    Yields (expression · ts) (e, []) := by
  have := (h.completes hplaced).expression (show Closes [] from trivial)
  simpa using this

/-- The parser accepts exactly the spellings of the well-placed trees. Kind: P -/
theorem accepts_iff {ts : List Token} {e : Expr} :
    Accepts ts e ↔ Spells e ts ∧ e.WellPlaced :=
  ⟨expression_sound, fun h => (h.1.yields h.2).exists⟩

/-- **The tree of an accepted sequence is the well-placed tree that spells it**, and there is no
other. Kind: P -/
theorem expression_tree {ts : List Token} {e : Expr} (h : Accepts ts e) :
    Respelled ts e.flatten ∧ e.WellPlaced ∧ Spells e ts ∧
      ∀ e', Spells e' ts → e'.WellPlaced → e' = e := by
  obtain ⟨hspells, hplaced⟩ := accepts_iff.mp h
  refine ⟨hspells.respelled, hplaced, hspells, ?_⟩
  intro e' hspells' hplaced'
  exact congrArg Prod.fst ((hspells'.yields hplaced').unique (hspells.yields hplaced))

/-- `a + b * c ? d : e`. Kind: P -/
theorem expression_tree_ternary :
    let v : String → Token := fun name => .operand (.ident name)
    let x : String → Expr := fun name => .operand (.ident name)
    let ts := [v "a", .plus, v "b", .mult, v "c", .question, v "d", .colon, v "e"]
    let e := Expr.ternary (.binary .add (x "a") (.binary .mul (x "b") (x "c"))) (some (x "d"))
      (x "e")
    Accepts ts e ∧ ∀ e', Spells e' ts → e'.WellPlaced → e' = e :=
  ⟨⟨20, rfl⟩, (expression_tree ⟨20, rfl⟩).2.2.2⟩

/-- `+ 5` is read as `5`: the sign has no node. Kind: P -/
theorem plus_number_flatten :
    ¬ ∀ (ts : List Token) (e : Expr), Accepts ts e → e.flatten = ts := by
  intro h
  have hflat := h [.plus, .number (.int 5)] (.number false (.int 5)) ⟨5, rfl⟩
  simp [Expr.flatten] at hflat

/-- **In front of what closes an expression the parser reads the tokens as a tree if and only if the
tree is well placed and spells them.** Kind: P -/
theorem expression_reads_iff {rest : List Token} (hrest : Closes rest) (ts : List Token)
    (e : Expr) :
    (∀ᶠ fuel in atTop, expression fuel (ts ++ rest) = some (e, rest)) ↔
      Spells e ts ∧ e.WellPlaced := by
  constructor
  · intro h
    obtain ⟨fuel, hfuel⟩ := h.exists
    obtain ⟨used, hused, hreads, -⟩ := (sound fuel).expression hfuel
    obtain rfl := List.append_cancel_right hused
    exact ⟨hreads.spells, hreads.placed⟩
  · rintro ⟨hspells, hplaced⟩
    exact (hspells.completes hplaced).expression hrest

/-- `...a` before a parenthesis. Kind: L -/
theorem expression_reads_iff_sample :
    let a : Token := .operand (.ident "a")
    let e := Expr.preUnary .spread (.operand (.ident "a"))
    (∀ᶠ fuel in atTop, expression fuel ([.elipsis, a] ++ [.rParen]) = some (e, [.rParen])) ↔
      Spells e [.elipsis, a] ∧ e.WellPlaced :=
  @expression_reads_iff [.rParen] trivial _ _

end CxyCompiler.Frontend.ExprParser
