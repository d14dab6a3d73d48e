import CxyCompiler.Frontend.ExprGrammar

/-!
# Soundness of the expression parser

* `Sound fuel` — what each function of the parser returns: a tree that spells the tokens it has
  taken and is well placed at its level, and where it stops.
* `sound` — by induction on the fuel, with one lemma for each function.
* `expression_sound` — **the tree of an accepted sequence spells it and is well placed.**
-/

namespace CxyCompiler.Frontend.ExprParser

/-! ## What the functions return -/

/-- A tree of at most the given level that spells the tokens. -/
structure Reads (level : ℕ) (e : Expr) (ts : List Token) : Prop where
  spells : Spells e ts
  placed : e.WellPlaced
  level_le : e.level ≤ level

/-- A tree to which an operator may be applied on the right. -/
structure ReadsOperand (e : Expr) (ts : List Token) : Prop extends Reads 0 e ts where
  starts : StartsOperand ts

theorem Reads.mono {l l' : ℕ} {e : Expr} {ts : List Token} (h : Reads l e ts) (hl : l ≤ l') :
    Reads l' e ts := ⟨h.spells, h.placed, h.level_le.trans hl⟩

/-- A bare macro call is not followed by a parenthesis, which would be that of its arguments. -/
def NoArgsLeft (used rest : List Token) : Prop :=
  used.getLast? = some .lNot → rest.head? ≠ some .lParen

/-- The next operator, if any, is of the given level or above. -/
def NextAtLeast (level : ℕ) (ts : List Token) : Prop :=
  ∀ op, nextBinaryOp ts = some op → level ≤ getBinaryOpPrecedence op

/-- **What each function returns** with the given fuel. -/
structure Sound (fuel : ℕ) : Prop where
  primary : ∀ {ts e rest}, primary fuel ts = some (e, rest) →
    ∃ used, ts = used ++ rest ∧ ReadsOperand e used ∧ used.getLast? ≠ some .lNot
  macroExpression : ∀ {f tf ts e rest}, macroExpression fuel f ts = some (e, rest) →
    ReadsOperand f tf → ∃ used, ts = used ++ rest ∧ ReadsOperand e (tf ++ .lNot :: used) ∧
      NoArgsLeft (tf ++ .lNot :: used) rest
  callExpression : ∀ {f tf ts e rest}, callExpression fuel f ts = some (e, rest) →
    ReadsOperand f tf → tf.getLast? ≠ some .lNot →
      ∃ used, ts = used ++ rest ∧ ReadsOperand e (tf ++ .lParen :: used) ∧
        NoArgsLeft (tf ++ .lParen :: used) rest
  postfixLoop : ∀ {e te ts e' rest}, postfixLoop fuel e ts = some (e', rest) →
    ReadsOperand e te → NoArgsLeft te ts → ∃ used, ts = used ++ rest ∧ Reads 1 e' (te ++ used)
  postfixExpr : ∀ {ts e rest}, postfixExpr fuel ts = some (e, rest) →
    ∃ used, ts = used ++ rest ∧ Reads 1 e used
  prefixExpr : ∀ {ts e rest}, prefixExpr fuel ts = some (e, rest) →
    ∃ used, ts = used ++ rest ∧ Reads 1 e used
  binaryLoop : ∀ {lhs tl level ts e rest}, binaryLoop fuel lhs (level + 1) ts = some (e, rest) →
    Reads level lhs tl → 1 ≤ level → NextAtLeast lhs.prec ts →
      ∃ used, ts = used ++ rest ∧ Reads level e (tl ++ used) ∧ NextAtLeast (level + 1) rest
  binary : ∀ {level ts e rest}, binary fuel (level + 1) ts = some (e, rest) → 1 ≤ level →
    ∃ used, ts = used ++ rest ∧ Reads level e used ∧ NextAtLeast (level + 1) rest
  assign : ∀ {ts e rest}, assign fuel ts = some (e, rest) →
    ∃ used, ts = used ++ rest ∧ (Reads 13 e used ∨
      Reads 14 e used ∧ rest.head? ≠ some .question)
  ternary : ∀ {ts e rest}, ternary fuel ts = some (e, rest) →
    ∃ used, ts = used ++ rest ∧ Reads 15 e used ∧ rest.head? ≠ some .question
  expression : ∀ {ts e rest}, expression fuel ts = some (e, rest) →
    ∃ used, ts = used ++ rest ∧ Reads 15 e used ∧ rest.head? ≠ some .question

theorem sound_zero : Sound 0 := by
  constructor <;> intros <;> simp_all [primary, macroExpression, callExpression, postfixLoop,
    postfixExpr, prefixExpr, binaryLoop, binary, assign, ternary, expression]

theorem consumeRParen_eq_some {ts rest : List Token} (h : consumeRParen ts = some rest) :
    ts = .rParen :: rest := by
  unfold consumeRParen at h
  split at h
  · rw [Option.some.injEq] at h
    rw [h]
  · simp at h

/-- A tree is spelled by one token at least. Kind: L -/
theorem Spells.ne_nil {e : Expr} {ts : List Token} (h : Spells e ts) : ts ≠ [] := by
  cases h <;> simp

theorem StartsOperand.append {ts : List Token} (h : StartsOperand ts) (us : List Token) :
    StartsOperand (ts ++ us) := by
  match ts, h with
  | .operand _ :: _, _ => trivial
  | .number _ :: _, _ => trivial
  | .lParen :: _, _ => trivial

section functions

variable {fuel : ℕ} {ts rest : List Token} {e : Expr}

theorem noArgsLeft_rParen (used rest : List Token) : NoArgsLeft (used ++ [Token.rParen]) rest := by
  intro hlast
  simp at hlast

/-- An expression in parentheses, after the opening one. Kind: L -/
theorem sound_parenthesised (h : Sound fuel) {arg : Expr} {ts' : List Token}
    (harg : expression fuel ts = some (arg, ts')) (hclose : consumeRParen ts' = some rest) :
    ∃ used, ts = used ++ .rParen :: rest ∧ Reads 15 arg used := by
  obtain ⟨used, rfl, hreads, -⟩ := h.expression harg
  rw [consumeRParen_eq_some hclose]
  exact ⟨used, rfl, hreads⟩

theorem sound_primary (h : Sound fuel) (hts : primary (fuel + 1) ts = some (e, rest)) :
    ∃ used, ts = used ++ rest ∧ ReadsOperand e used ∧ used.getLast? ≠ some .lNot := by
  unfold primary at hts
  split at hts
  · rename_i o ts
    cases hts
    exact ⟨[.operand o], rfl, ⟨⟨.operand o, trivial, le_rfl⟩, trivial⟩, by simp⟩
  · rename_i n ts
    cases hts
    exact ⟨[.number n], rfl, ⟨⟨.number n, trivial, le_rfl⟩, trivial⟩, by simp⟩
  · rename_i ts
    split_ifs at hts with hclosure
    split at hts
    · obtain ⟨⟨arg, ts'⟩, harg, hts⟩ := Option.bind_eq_some_iff.mp hts
      obtain ⟨ts'', hclose, hts⟩ := Option.bind_eq_some_iff.mp hts
      cases hts
      obtain ⟨used, rfl, hreads⟩ := sound_parenthesised h harg hclose
      have hstart : StartsOperand (.lParen :: .elipsis :: used ++ [Token.rParen]) := trivial
      exact ⟨.lParen :: .elipsis :: used ++ [Token.rParen], by simp,
        ⟨⟨.spreadTuple hreads.spells, hreads.placed, le_rfl⟩, hstart⟩,
        by rw [List.getLast?_concat]; simp⟩
    · rename_i hhead
      obtain ⟨⟨arg, ts'⟩, harg, hts⟩ := Option.bind_eq_some_iff.mp hts
      obtain ⟨ts'', hclose, hts⟩ := Option.bind_eq_some_iff.mp hts
      cases hts
      obtain ⟨used, rfl, hreads⟩ := sound_parenthesised h harg hclose
      have hstart : StartsOperand (.lParen :: used ++ [Token.rParen]) := trivial
      refine ⟨.lParen :: used ++ [Token.rParen], by simp,
        ⟨⟨.group hreads.spells ?_, hreads.placed, le_rfl⟩, hstart⟩,
        by rw [List.getLast?_concat]; simp⟩
      intro hfirst
      obtain ⟨us, rfl⟩ := List.head?_eq_some_iff.mp hfirst
      exact hhead _ rfl
  · simp at hts

theorem sound_macroExpression (h : Sound fuel) {f : Expr} {tf : List Token}
    (hts : macroExpression (fuel + 1) f ts = some (e, rest)) (hf : ReadsOperand f tf) :
    ∃ used, ts = used ++ rest ∧ ReadsOperand e (tf ++ .lNot :: used) ∧
      NoArgsLeft (tf ++ .lNot :: used) rest := by
  have hzero : f.level = 0 := Nat.le_zero.mp hf.level_le
  unfold macroExpression at hts
  split at hts
  · cases hts
    refine ⟨[.lParen, .rParen], rfl, ⟨⟨.emptyMacro hf.spells hf.starts, ⟨hzero, hf.placed⟩,
      le_rfl⟩, hf.starts.append _⟩, ?_⟩
    intro hlast
    simp at hlast
  · obtain ⟨⟨arg, ts'⟩, harg, hts⟩ := Option.bind_eq_some_iff.mp hts
    obtain ⟨ts'', hclose, hts⟩ := Option.bind_eq_some_iff.mp hts
    cases hts
    obtain ⟨used, rfl, hreads⟩ := sound_parenthesised h harg hclose
    refine ⟨.lParen :: used ++ [Token.rParen], by simp, ?_⟩
    have happend : tf ++ .lNot :: (.lParen :: used ++ [Token.rParen]) =
        tf ++ .lNot :: .lParen :: used ++ [Token.rParen] := by simp
    rw [happend]
    exact ⟨⟨⟨.macroCall hf.spells hf.starts hreads.spells, ⟨hzero, hf.placed, hreads.placed⟩,
      le_rfl⟩, (hf.starts.append _).append _⟩, noArgsLeft_rParen _ _⟩
  · rename_i hempty harg
    cases hts
    refine ⟨[], rfl, ⟨⟨.bareMacro hf.spells hf.starts, ⟨hzero, hf.placed⟩, le_rfl⟩,
      hf.starts.append _⟩, ?_⟩
    intro _ hhead
    obtain ⟨us, rfl⟩ := List.head?_eq_some_iff.mp hhead
    exact harg us rfl

theorem sound_callExpression (h : Sound fuel) {f : Expr} {tf : List Token}
    (hts : callExpression (fuel + 1) f ts = some (e, rest)) (hf : ReadsOperand f tf)
    (hlast : tf.getLast? ≠ some .lNot) :
    ∃ used, ts = used ++ rest ∧ ReadsOperand e (tf ++ .lParen :: used) ∧
      NoArgsLeft (tf ++ .lParen :: used) rest := by
  have hzero : f.level = 0 := Nat.le_zero.mp hf.level_le
  unfold callExpression at hts
  split at hts
  · cases hts
    refine ⟨[.rParen], rfl, ⟨⟨.emptyCall hf.spells hf.starts hlast, ⟨hzero, hf.placed⟩, le_rfl⟩,
      hf.starts.append _⟩, ?_⟩
    intro hlast
    simp at hlast
  · obtain ⟨⟨arg, ts'⟩, harg, hts⟩ := Option.bind_eq_some_iff.mp hts
    obtain ⟨ts'', hclose, hts⟩ := Option.bind_eq_some_iff.mp hts
    cases hts
    obtain ⟨used, rfl, hreads⟩ := sound_parenthesised h harg hclose
    refine ⟨.elipsis :: used ++ [Token.rParen], by simp, ?_⟩
    have happend : tf ++ .lParen :: (.elipsis :: used ++ [Token.rParen]) =
        tf ++ .lParen :: .elipsis :: used ++ [Token.rParen] := by simp
    rw [happend]
    exact ⟨⟨⟨.spreadCall hf.spells hf.starts hlast hreads.spells,
      ⟨hzero, hf.placed, hreads.placed⟩, le_rfl⟩, (hf.starts.append _).append _⟩,
      noArgsLeft_rParen _ _⟩
  · rename_i hempty hspread
    obtain ⟨⟨arg, ts'⟩, harg, hts⟩ := Option.bind_eq_some_iff.mp hts
    obtain ⟨ts'', hclose, hts⟩ := Option.bind_eq_some_iff.mp hts
    cases hts
    obtain ⟨used, rfl, hreads⟩ := sound_parenthesised h harg hclose
    have hhead : used.head? ≠ some .elipsis := by
      intro hfirst
      obtain ⟨us, rfl⟩ := List.head?_eq_some_iff.mp hfirst
      exact hspread _ rfl
    refine ⟨used ++ [Token.rParen], by simp, ?_⟩
    have happend :
        tf ++ .lParen :: (used ++ [Token.rParen]) = tf ++ .lParen :: used ++ [Token.rParen] := by
      simp
    rw [happend]
    exact ⟨⟨⟨.call hf.spells hf.starts hlast hreads.spells hhead,
      ⟨hzero, hf.placed, hreads.placed⟩, le_rfl⟩, (hf.starts.append _).append _⟩,
      noArgsLeft_rParen _ _⟩

theorem sound_postfixLoop (h : Sound fuel) {operand : Expr} {te : List Token}
    (hts : postfixLoop (fuel + 1) operand ts = some (e, rest)) (he : ReadsOperand operand te)
    (hargs : NoArgsLeft te ts) : ∃ used, ts = used ++ rest ∧ Reads 1 e (te ++ used) := by
  have hzero : operand.level = 0 := Nat.le_zero.mp he.level_le
  unfold postfixLoop at hts
  split at hts
  · cases hts
    exact ⟨[.plusPlus], rfl, .postUnary .postInc he.spells he.starts, ⟨hzero, he.placed⟩, le_rfl⟩
  · cases hts
    exact ⟨[.minusMinus], rfl, .postUnary .postDec he.spells he.starts, ⟨hzero, he.placed⟩, le_rfl⟩
  · obtain ⟨⟨operand', ts'⟩, hmac, hloop⟩ := Option.bind_eq_some_iff.mp hts
    obtain ⟨used, rfl, hoperand', hargs'⟩ := h.macroExpression hmac he
    obtain ⟨used', rfl, hreads⟩ := h.postfixLoop hloop hoperand' hargs'
    exact ⟨.lNot :: used ++ used', by simp, by simpa using hreads⟩
  · have hlast : te.getLast? ≠ some .lNot := fun hlast => hargs hlast rfl
    obtain ⟨⟨operand', ts'⟩, hcall, hloop⟩ := Option.bind_eq_some_iff.mp hts
    obtain ⟨used, rfl, hoperand', hargs'⟩ := h.callExpression hcall he hlast
    obtain ⟨used', rfl, hreads⟩ := h.postfixLoop hloop hoperand' hargs'
    exact ⟨.lParen :: used ++ used', by simp, by simpa using hreads⟩
  · rename_i kind type ts'
    have hcast : ReadsOperand (.cast kind type operand) (te ++ [Token.cast kind type]) :=
      ⟨⟨.cast kind type he.spells he.starts, ⟨hzero, he.placed⟩, le_rfl⟩, he.starts.append _⟩
    obtain ⟨used, rfl, hreads⟩ := h.postfixLoop hts hcast (by
      intro hlast
      simp at hlast)
    exact ⟨.cast kind type :: used, rfl, by simpa using hreads⟩
  · cases hts
    refine ⟨[], rfl, ?_⟩
    rw [List.append_nil]
    exact he.toReads.mono (Nat.zero_le 1)

theorem sound_postfixExpr (h : Sound fuel) (hts : postfixExpr (fuel + 1) ts = some (e, rest)) :
    ∃ used, ts = used ++ rest ∧ Reads 1 e used := by
  unfold postfixExpr at hts
  obtain ⟨⟨operand, ts'⟩, hprimary, hloop⟩ := Option.bind_eq_some_iff.mp hts
  obtain ⟨used, rfl, hoperand, hlast⟩ := h.primary hprimary
  obtain ⟨used', rfl, hreads⟩ := h.postfixLoop hloop hoperand fun hnot => absurd hnot hlast
  exact ⟨used ++ used', by simp, hreads⟩

theorem sound_prefixExpr (h : Sound fuel) (hts : prefixExpr (fuel + 1) ts = some (e, rest)) :
    ∃ used, ts = used ++ rest ∧ Reads 1 e used := by
  unfold prefixExpr at hts
  split at hts
  · rename_i n ts
    cases hts
    exact ⟨[.minus, .number n], rfl, .minusNumber n, trivial, le_rfl⟩
  · rename_i n ts
    cases hts
    exact ⟨[.plus, .number n], rfl, .plusNumber n, trivial, Nat.zero_le 1⟩
  · rename_i name ts
    cases hts
    exact ⟨[.colon, .operand (.ident name)], rfl, .symbol name, trivial, Nat.zero_le 1⟩
  · simp at hts
  · simp at hts
  · rename_i tok ts hminus hplus hsymbol hcolon
    split at hts
    · rename_i op hop
      obtain ⟨⟨operand, ts'⟩, hpre, hsome⟩ := Option.bind_eq_some_iff.mp hts
      cases hsome
      obtain ⟨used, rfl, hreads⟩ := h.prefixExpr hpre
      rw [tokenToUnaryOperator_eq_some] at hop
      subst hop
      refine ⟨op.token :: used, rfl, .preUnary op hreads.spells ?_,
        ⟨hreads.level_le, hreads.placed⟩, le_rfl⟩
      -- a number after a sign is read with it
      intro hsign hnumber
      match used, hnumber with
      | .number n :: us, _ =>
          rcases hsign with rfl | rfl
          · exact hplus n _ rfl rfl
          · exact hminus n _ rfl rfl
    · obtain ⟨used, hused, hreads⟩ := h.postfixExpr hts
      exact ⟨used, hused, hreads⟩

theorem getBinaryOpPrecedence_pos (op : BinaryOp) : 2 ≤ getBinaryOpPrecedence op := by
  cases op <;> decide

theorem getBinaryOpPrecedence_lt (op : BinaryOp) :
    getBinaryOpPrecedence op < getMaxBinaryOpPrecedence := by
  cases op <;> decide

theorem nextBinaryOp_cons {tok : Token} {op : BinaryOp} (h : nextBinaryOp (tok :: ts) = some op) :
    tok = op.token := by
  unfold nextBinaryOp at h
  split at h
  · simp at h
  · rename_i heq
    cases heq
    exact tokenToBinaryOperator_eq_some.mp h
  · simp at h

theorem sound_binaryLoop (h : Sound fuel) {lhs : Expr} {tl : List Token} {level : ℕ}
    (hts : binaryLoop (fuel + 1) lhs (level + 1) ts = some (e, rest)) (hl : Reads level lhs tl)
    (hlevel : 1 ≤ level) (hnext : NextAtLeast lhs.prec ts) :
    ∃ used, ts = used ++ rest ∧ Reads level e (tl ++ used) ∧ NextAtLeast (level + 1) rest := by
  unfold binaryLoop at hts
  split at hts
  · rename_i hnone
    cases hts
    refine ⟨[], rfl, by simpa using hl, ?_⟩
    intro op hop
    simp [hnone] at hop
  · rename_i op hop
    split_ifs at hts with hstop
    · cases hts
      refine ⟨[], rfl, by simpa using hl, ?_⟩
      intro op' hop'
      rw [hop, Option.some.injEq] at hop'
      exact hop' ▸ hstop
    · have hlt : getBinaryOpPrecedence op ≤ level := by omega
      have hlow := hnext op hop
      split at hts
      · rename_i ts
        have hcatch : op = .catch_ := by
          have : tokenToBinaryOperator .catch_ = some op := hop
          simpa [tokenToBinaryOperator] using this.symm
        subst hcatch
        have hl' : Reads level (.catchDiscard lhs) (tl ++ [Token.catch_, Token.discard]) :=
          ⟨.catchDiscard hl.spells, ⟨hlow, hl.placed⟩, max_le hlt hl.level_le⟩
        obtain ⟨used, rfl, hreads, hstop'⟩ :=
          h.binaryLoop hts hl' hlevel fun op' _ => Nat.zero_le _
        exact ⟨.catch_ :: .discard :: used, rfl, by simpa using hreads, hstop'⟩
      · rename_i tok ts hcatch
        obtain ⟨⟨rhs, ts'⟩, hrhs, hloop⟩ := Option.bind_eq_some_iff.mp hts
        -- the right operand stops at the first operator of the same level
        have hpos := getBinaryOpPrecedence_pos op
        have hlevel' : getBinaryOpPrecedence op - 1 + 1 = getBinaryOpPrecedence op := by omega
        rw [← hlevel'] at hrhs
        obtain ⟨used, rfl, hr, hstop'⟩ := h.binary hrhs (by omega)
        rw [hlevel'] at hstop'
        have htok := nextBinaryOp_cons hop
        subst htok
        have hl' : Reads level (.binary op lhs rhs) (tl ++ op.token :: used) := by
          refine ⟨.binary op hl.spells hr.spells, ⟨hlow, ?_, hl.placed, hr.placed⟩,
            max_le hlt hl.level_le⟩
          have := hr.level_le
          omega
        obtain ⟨used', rfl, hreads, hstop''⟩ := h.binaryLoop hloop hl' hlevel hstop'
        exact ⟨op.token :: used ++ used', by simp, by simpa using hreads, hstop''⟩
      · simp at hts

theorem prec_le_level (e : Expr) : e.prec ≤ e.level := by
  cases e <;> simp [Expr.prec, Expr.level]

/-- What `prefix` returns is complete: every operator after it is looser. Kind: L -/
theorem nextAtLeast_of_level (hlevel : e.level ≤ 1) (ts : List Token) : NextAtLeast e.prec ts := by
  intro op hop
  have := getBinaryOpPrecedence_pos op
  have := prec_le_level e
  omega

theorem sound_binary (h : Sound fuel) {level : ℕ}
    (hts : binary (fuel + 1) (level + 1) ts = some (e, rest)) (hlevel : 1 ≤ level) :
    ∃ used, ts = used ++ rest ∧ Reads level e used ∧ NextAtLeast (level + 1) rest := by
  unfold binary at hts
  obtain ⟨⟨lhs, ts'⟩, hpre, hloop⟩ := Option.bind_eq_some_iff.mp hts
  obtain ⟨used, rfl, hl⟩ := h.prefixExpr hpre
  obtain ⟨used', rfl, hreads, hstop⟩ :=
    h.binaryLoop hloop (hl.mono hlevel) hlevel (nextAtLeast_of_level hl.level_le ts')
  exact ⟨used ++ used', by simp, hreads, hstop⟩

theorem sound_assign (h : Sound fuel) (hts : assign (fuel + 1) ts = some (e, rest)) :
    ∃ used, ts = used ++ rest ∧ (Reads 13 e used ∨
      Reads 14 e used ∧ rest.head? ≠ some .question) := by
  unfold assign at hts
  obtain ⟨⟨lhs, ts'⟩, hpre, htail⟩ := Option.bind_eq_some_iff.mp hts
  obtain ⟨used, rfl, hl⟩ := h.prefixExpr hpre
  dsimp only at htail
  split at htail
  · rename_i op ts'
    obtain ⟨⟨rhs, ts''⟩, hrhs, hsome⟩ := Option.bind_eq_some_iff.mp htail
    cases hsome
    obtain ⟨used', rfl, hr, hquestion⟩ := h.ternary hrhs
    refine ⟨used ++ .assign op :: used', by simp, Or.inr ⟨?_, hquestion⟩⟩
    exact ⟨.assign op hl.spells hr.spells, ⟨hl.level_le, hl.placed, hr.placed⟩, le_rfl⟩
  · obtain ⟨used', rfl, hreads, -⟩ :=
      h.binaryLoop (show binaryLoop fuel lhs (13 + 1) _ = _ from htail) (hl.mono (by omega))
        (by omega) (nextAtLeast_of_level hl.level_le _)
    exact ⟨used ++ used', by simp, Or.inl hreads⟩

theorem sound_ternary (h : Sound fuel) (hts : ternary (fuel + 1) ts = some (e, rest)) :
    ∃ used, ts = used ++ rest ∧ Reads 15 e used ∧ rest.head? ≠ some .question := by
  unfold ternary at hts
  obtain ⟨⟨cond, ts'⟩, hassign, htail⟩ := Option.bind_eq_some_iff.mp hts
  obtain ⟨used, rfl, hcond⟩ := h.assign hassign
  dsimp only at htail
  split at htail
  · obtain ⟨⟨rhs, ts''⟩, hrhs, hsome⟩ := Option.bind_eq_some_iff.mp htail
    cases hsome
    obtain ⟨used', rfl, hr, hquestion⟩ := h.ternary hrhs
    obtain hcond | ⟨-, hno⟩ := hcond
    · refine ⟨used ++ .question :: .colon :: used', by simp, ?_, hquestion⟩
      exact ⟨.elvis hcond.spells hr.spells,
        ⟨Nat.lt_succ_of_le hcond.level_le, hcond.placed, hr.placed⟩, le_rfl⟩
    · exact absurd rfl hno
  · rename_i ts' hcolon
    obtain ⟨⟨body, ts''⟩, hbody, hrest⟩ := Option.bind_eq_some_iff.mp htail
    obtain ⟨usedb, rfl, hb, -⟩ := h.ternary hbody
    dsimp only at hrest
    split at hrest
    · rename_i ts''
      obtain ⟨⟨rhs, tsr⟩, hrhs, hsome⟩ := Option.bind_eq_some_iff.mp hrest
      cases hsome
      obtain ⟨used', rfl, hr, hquestion⟩ := h.ternary hrhs
      have hhead : usedb.head? ≠ some .colon := by
        intro hfirst
        obtain ⟨us, rfl⟩ := List.head?_eq_some_iff.mp hfirst
        exact hcolon _ rfl
      obtain hcond | ⟨-, hno⟩ := hcond
      · refine ⟨used ++ .question :: usedb ++ .colon :: used', by simp, ?_, hquestion⟩
        exact ⟨.ternary hcond.spells hb.spells hhead hr.spells,
          ⟨Nat.lt_succ_of_le hcond.level_le, hcond.placed, hb.placed, hr.placed⟩, le_rfl⟩
      · exact absurd rfl hno
    · simp at hrest
  · rename_i hquestion
    cases htail
    refine ⟨used, rfl, ?_, ?_⟩
    · exact hcond.elim (fun h => h.mono (by omega)) fun h => h.1.mono (by omega)
    · intro hhead
      obtain ⟨us, rfl⟩ := List.head?_eq_some_iff.mp hhead
      exact hquestion us rfl

end functions

/-- **What the parser returns is well placed and spells the tokens taken.** Kind: L -/
theorem sound (fuel : ℕ) : Sound fuel := by
  induction fuel with
  | zero => exact sound_zero
  | succ fuel h =>
      exact {
        primary := sound_primary h
        macroExpression := sound_macroExpression h
        callExpression := sound_callExpression h
        postfixLoop := sound_postfixLoop h
        postfixExpr := sound_postfixExpr h
        prefixExpr := sound_prefixExpr h
        binaryLoop := sound_binaryLoop h
        binary := sound_binary h
        assign := sound_assign h
        ternary := sound_ternary h
        expression := fun hts => h.ternary hts }

/-- An accepted sequence is spelled by its tree, which is well placed. Kind: P -/
theorem expression_sound {ts : List Token} {e : Expr} (h : Accepts ts e) :
    Spells e ts ∧ e.WellPlaced := by
  obtain ⟨fuel, hfuel⟩ := h
  obtain ⟨used, rfl, hreads, -⟩ := (sound fuel).expression hfuel
  rw [List.append_nil]
  exact ⟨hreads.spells, hreads.placed⟩

end CxyCompiler.Frontend.ExprParser
