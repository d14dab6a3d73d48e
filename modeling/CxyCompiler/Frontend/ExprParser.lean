import Mathlib.Order.Filter.AtTopBot.Basic

/-!
# The expression parser (`frontend/parser.c`, `frontend/operator.c`)

The tokens are operands, the operators of the tables of `operator.h`, parentheses, the `?` and `:`
of a ternary, and the `discard` of a `catch`. A cast (`as Type`, `! as Type`, `!: Type`) is one
token: its type is not made of operators. `<` where an operand is expected opens an implicit cast
`<Type>`, a bracket and not an operator, so the model refuses it there. There is no comma, so a
call has at most one argument.

* `tokenToBinaryOperator`, `getBinaryOpPrecedence` — the operator table; a smaller number binds
  tighter.
* `prefixExpr`, `postfixExpr`, `binary`, `assign`, `ternary`, `expression` — the parser, on a list
  of tokens, with `fuel` for its recursion; it returns nothing where the source throws.
-/

namespace CxyCompiler.Frontend.ExprParser

/-! ## Operators -/

/-- Source: `operator.h` `AST_BINARY_EXPR_LIST`. -/
inductive BinaryOp where
  | range | catch_ | add | sub | mul | div | mod | bAnd | bOr | bXor | shl | shr
  | eq | ne | is_ | gt | lt | geq | leq | lAnd | lOr
  deriving DecidableEq, Repr

/-- Source: `operator.h` `AST_PREFIX_EXPR_LIST`. -/
inductive PrefixOp where
  | preDec | preInc | minus | plus | deref | not_ | compl | refof | move | spread | await | delete
  | ptrof
  deriving DecidableEq, Repr

/-- Source: `operator.h` `AST_POSTFIX_EXPR_LIST`. -/
inductive PostfixOp where
  | postDec | postInc
  deriving DecidableEq, Repr

/-- Source: `operator.h` `AST_ASSIGN_EXPR_LIST`. -/
inductive AssignOp where
  | assign | add | sub | mul | div | mod | bAnd | bOr | bXor | shl | shr
  deriving DecidableEq, Repr

/-- The casts of `postfixCast`. -/
inductive CastKind where
  | as | bangAs | bangColon
  deriving DecidableEq, Repr

/-- The primary expressions of one token, other than numbers. -/
inductive Operand where
  | ident (name : String)
  | this | super | thisClass
  | null
  | bool (value : Bool)
  | char (value : UInt32)
  | string (value : String)
  deriving DecidableEq, Repr

inductive Number where
  | int (value : BitVec 128)
  | float (bits : UInt64)
  deriving DecidableEq, Repr

/-- Source: `token.h` `TokenTag`. -/
inductive Token where
  | operand (o : Operand)
  | number (n : Number)
  | lParen | rParen | question | colon | discard | func
  | plusPlus | minusMinus | plus | minus | mult | div | mod
  | lNot | bNot | bAnd | bOr | bXor | lAnd | lOr | elipsis | await | delete | ptrof
  | shl | shr | equal | notEqual | is_ | less | greater | lessEqual | greaterEqual | dotDot | catch_
  | assign (op : AssignOp)
  | cast (kind : CastKind) (type : ℕ)
  deriving DecidableEq, Repr

/-- Source: `operator.c` `tokenToBinaryOperator`. -/
def tokenToBinaryOperator : Token → Option BinaryOp
  | .dotDot => some .range
  | .catch_ => some .catch_
  | .plus => some .add
  | .minus => some .sub
  | .mult => some .mul
  | .div => some .div
  | .mod => some .mod
  | .bAnd => some .bAnd
  | .bOr => some .bOr
  | .bXor => some .bXor
  | .shl => some .shl
  | .shr => some .shr
  | .equal => some .eq
  | .notEqual => some .ne
  | .is_ => some .is_
  | .greater => some .gt
  | .less => some .lt
  | .greaterEqual => some .geq
  | .lessEqual => some .leq
  | .lAnd => some .lAnd
  | .lOr => some .lOr
  | _ => none

/-- Source: `operator.c` `getBinaryOpPrecedence`. -/
def getBinaryOpPrecedence : BinaryOp → ℕ
  | .mul | .div | .mod => 2
  | .add | .sub => 3
  | .shl | .shr => 4
  | .gt | .lt | .geq | .leq => 5
  | .eq | .ne | .is_ => 6
  | .bAnd => 7
  | .bXor => 8
  | .bOr => 9
  | .catch_ => 10
  | .lAnd => 11
  | .lOr => 12
  | .range => 13

/-- Source: `operator.c` `getMaxBinaryOpPrecedence`. -/
def getMaxBinaryOpPrecedence : ℕ := 14

/-- Source: `operator.c` `tokenToUnaryOperator`. -/
def tokenToUnaryOperator : Token → Option PrefixOp
  | .minusMinus => some .preDec
  | .plusPlus => some .preInc
  | .minus => some .minus
  | .plus => some .plus
  | .mult => some .deref
  | .lNot => some .not_
  | .bNot => some .compl
  | .bAnd => some .refof
  | .lAnd => some .move
  | .elipsis => some .spread
  | .await => some .await
  | .delete => some .delete
  | .ptrof => some .ptrof
  | _ => none

/-- Source: `operator.c` `tokenToPostfixUnaryOperator`. -/
def tokenToPostfixUnaryOperator : Token → Option PostfixOp
  | .minusMinus => some .postDec
  | .plusPlus => some .postInc
  | _ => none

/-! ## Trees -/

/-- The nodes the parser builds. `path` and `identifier` nodes of one name are both an `operand`,
and `( ... e )` is the tuple of one spread. Source: `ast.h` `AstNode`. -/
inductive Expr where
  | operand (o : Operand)
  | number (isNegative : Bool) (n : Number)
  | group (expr : Expr)
  | spreadTuple (expr : Expr)
  | call (callee : Expr) (arg : Option Expr)
  | spreadCall (callee arg : Expr)
  | macroCall (callee : Expr) (arg : Option Expr)
  | cast (kind : CastKind) (type : ℕ) (expr : Expr)
  | postUnary (op : PostfixOp) (operand : Expr)
  | preUnary (op : PrefixOp) (operand : Expr)
  | binary (op : BinaryOp) (lhs rhs : Expr)
  /-- `lhs catch discard`, whose right operand is an empty block. -/
  | catchDiscard (lhs : Expr)
  | assign (op : AssignOp) (lhs rhs : Expr)
  /-- Without a body for `?:`. -/
  | ternary (cond : Expr) (body : Option Expr) (otherwise : Expr)

/-! ## The parser -/

/-- `( a : …` and `( ) : …` are read as closures. Source: `parser.c` `maybeClosure`, after the
parenthesis. -/
def maybeClosure : List Token → Bool
  | .operand (.ident _) :: .colon :: _ => true
  | .rParen :: .colon :: _ => true
  | _ => false

/-- Source: `parser.c` `consume0`, for a closing parenthesis. -/
def consumeRParen : List Token → Option (List Token)
  | .rParen :: ts => some ts
  | _ => none

/-- The operator on which the loop of `binary` goes on: a `-` in front of `func` is none.
Source: `parser.c` `binary`. -/
def nextBinaryOp : List Token → Option BinaryOp
  | .minus :: .func :: _ => none
  | tok :: _ => tokenToBinaryOperator tok
  | [] => none

mutual

/-- Source: `parser.c` `primary_`, `parenExpr`. A closure needs a `=>`, which is no token here. -/
def primary : ℕ → List Token → Option (Expr × List Token)
  | 0, _ => none
  | fuel + 1, ts =>
      match ts with
      | .operand o :: ts => some (.operand o, ts)
      | .number n :: ts => some (.number false n, ts)
      | .lParen :: ts =>
          if maybeClosure ts then none
          else match ts with
            | .elipsis :: ts => do
                let (e, ts) ← expression fuel ts
                let ts ← consumeRParen ts
                some (.spreadTuple e, ts)
            | ts => do
                let (e, ts) ← expression fuel ts
                let ts ← consumeRParen ts
                some (.group e, ts)
      | _ => none

/-- After the `!`. Source: `parser.c` `macroExpression`. -/
def macroExpression : ℕ → Expr → List Token → Option (Expr × List Token)
  | 0, _, _ => none
  | fuel + 1, callee, ts =>
      match ts with
      | .lParen :: .rParen :: ts => some (.macroCall callee none, ts)
      | .lParen :: ts => do
          let (arg, ts) ← expression fuel ts
          let ts ← consumeRParen ts
          some (.macroCall callee (some arg), ts)
      | ts => some (.macroCall callee none, ts)

/-- After the parenthesis. Source: `parser.c` `callExpression`, `parseCallArguments`. -/
def callExpression : ℕ → Expr → List Token → Option (Expr × List Token)
  | 0, _, _ => none
  | fuel + 1, callee, ts =>
      match ts with
      | .rParen :: ts => some (.call callee none, ts)
      | .elipsis :: ts => do
          let (arg, ts) ← expression fuel ts
          let ts ← consumeRParen ts
          some (.spreadCall callee arg, ts)
      | ts => do
          let (arg, ts) ← expression fuel ts
          let ts ← consumeRParen ts
          some (.call callee (some arg), ts)

/-- The loop of `postfix`. A cast or a macro call directly after a primary expression is read by
`postfixCast` and `parsePath` in the source, with the same result. Source: `parser.c` `postfix`. -/
def postfixLoop : ℕ → Expr → List Token → Option (Expr × List Token)
  | 0, _, _ => none
  | fuel + 1, operand, ts =>
      match ts with
      | .plusPlus :: ts => some (.postUnary .postInc operand, ts)
      | .minusMinus :: ts => some (.postUnary .postDec operand, ts)
      | .lNot :: ts => do
          let (operand, ts) ← macroExpression fuel operand ts
          postfixLoop fuel operand ts
      | .lParen :: ts => do
          let (operand, ts) ← callExpression fuel operand ts
          postfixLoop fuel operand ts
      | .cast kind type :: ts => postfixLoop fuel (.cast kind type operand) ts
      | ts => some (operand, ts)

/-- Source: `parser.c` `postfix`. -/
def postfixExpr : ℕ → List Token → Option (Expr × List Token)
  | 0, _ => none
  | fuel + 1, ts => do
      let (operand, ts) ← primary fuel ts
      postfixLoop fuel operand ts

/-- Source: `parser.c` `prefix`, `parseSymbol`. -/
def prefixExpr : ℕ → List Token → Option (Expr × List Token)
  | 0, _ => none
  | fuel + 1, ts =>
      match ts with
      | .minus :: .number n :: ts => some (.number true n, ts)
      | .plus :: .number n :: ts => some (.number false n, ts)
      | .colon :: .operand (.ident name) :: ts => some (.operand (.string name), ts)
      | .colon :: _ => none
      | [] => none
      | tok :: ts =>
          match tokenToUnaryOperator tok with
          | some op => do
              let (operand, ts) ← prefixExpr fuel ts
              some (.preUnary op operand, ts)
          | none => postfixExpr fuel (tok :: ts)

/-- The loop of `binary`. Source: `parser.c` `binary`. -/
def binaryLoop : ℕ → Expr → ℕ → List Token → Option (Expr × List Token)
  | 0, _, _, _ => none
  | fuel + 1, lhs, prec, ts =>
      match nextBinaryOp ts with
      | none => some (lhs, ts)
      | some op =>
          if getBinaryOpPrecedence op ≥ prec then some (lhs, ts)
          else match ts with
            | .catch_ :: .discard :: ts => binaryLoop fuel (.catchDiscard lhs) prec ts
            | _ :: ts => do
                let (rhs, ts) ← binary fuel (getBinaryOpPrecedence op) ts
                binaryLoop fuel (.binary op lhs rhs) prec ts
            | [] => none

/-- Without a left operand. Source: `parser.c` `binary`. -/
def binary : ℕ → ℕ → List Token → Option (Expr × List Token)
  | 0, _, _ => none
  | fuel + 1, prec, ts => do
      let (lhs, ts) ← prefixExpr fuel ts
      binaryLoop fuel lhs prec ts

/-- Source: `parser.c` `assign`. -/
def assign : ℕ → List Token → Option (Expr × List Token)
  | 0, _ => none
  | fuel + 1, ts => do
      let (lhs, ts) ← prefixExpr fuel ts
      match ts with
      | .assign op :: ts => do
          let (rhs, ts) ← ternary fuel ts
          some (.assign op lhs rhs, ts)
      | ts => binaryLoop fuel lhs getMaxBinaryOpPrecedence ts

/-- Source: `parser.c` `ternary`. -/
def ternary : ℕ → List Token → Option (Expr × List Token)
  | 0, _ => none
  | fuel + 1, ts => do
      let (cond, ts) ← assign fuel ts
      match ts with
      | .question :: .colon :: ts => do
          let (rhs, ts) ← ternary fuel ts
          some (.ternary cond none rhs, ts)
      | .question :: ts => do
          let (lhs, ts) ← ternary fuel ts
          match ts with
          | .colon :: ts => do
              let (rhs, ts) ← ternary fuel ts
              some (.ternary cond (some lhs) rhs, ts)
          | _ => none
      | ts => some (cond, ts)

/-- Source: `parser.c` `expression`. -/
def expression : ℕ → List Token → Option (Expr × List Token)
  | 0, _ => none
  | fuel + 1, ts => ternary fuel ts

end

/-- The parser reads the whole token sequence as this tree. -/
def Accepts (ts : List Token) (e : Expr) : Prop := ∃ fuel, expression fuel ts = some (e, [])

end CxyCompiler.Frontend.ExprParser
