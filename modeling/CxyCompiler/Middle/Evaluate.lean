import CxyCompiler.Lib.Double
import Mathlib.Data.UInt

/-!
# The two compile-time evaluators (`middle/preprocess`, `middle/eval`)

Both rewrite a syntax tree in place. The model returns the tree that stands in its place afterwards;
`none` is a run that aborts, traps or whose result C leaves undefined.

The body of a node is a union: `intLiteral.isNegative` lies over the first byte of the address of
the right operand of a binary expression. A binary expression carries whether that byte is not zero.

* `nodeGetNumericLiteral`, `nodeSetNumericLiteral` — shared by the two.
* `Preprocessor.visit` — the preprocessor folds operators on numeric literals.
* `Comptime.evaluate` — the comptime evaluator also takes strings, `null` and parentheses.
-/

namespace CxyCompiler.Middle.Evaluate

open CxyCompiler.Lib.Double

/-- The address of an interned string. -/
abbrev Ptr := UInt64

/-- Source: `ast.h` `AstNode`. -/
inductive Literal where
  | null
  | bool (value : Bool)
  | char (value : UInt32)
  | int (bits : BitVec 128) (isNegative : Bool)
  | float (value : F64)
  | string (value : Ptr)
  deriving DecidableEq

/-- Source: `operator.h` `AST_BINARY_EXPR_LIST`. -/
inductive BinaryOp where
  | range | catch | add | sub | mul | div | mod | bAnd | bOr | bXor | shl | shr | eq | ne | is | gt
    | lt
  | geq | leq | lAnd | lOr
  deriving DecidableEq

/-- The operators that neither evaluator knows are `other`.
Source: `operator.h` `AST_UNARY_EXPR_LIST`. -/
inductive UnaryOp where
  | minus | plus | not | compl | other
  deriving DecidableEq

/-- Source: `ast.h` `AstNode`. -/
inductive Expr where
  | lit (value : Literal)
  | error
  | group (expr : Expr)
  /-- A cast or a typed expression, whose type only the type checker reads. -/
  | cast (expr : Expr)
  | unary (op : UnaryOp) (isPrefix : Bool) (operand : Expr)
  | binary (op : BinaryOp) (lhs rhs : Expr) (overlaid : Bool)
  | ternary (cond body otherwise : Expr)
  | range (start stop : Expr)
  deriving DecidableEq

/-- Source: `ast.c` `isNumericLiteral`. -/
def isNumericLiteral : Expr → Bool
  | .lit (.int _ _) | .lit (.float _) | .lit (.char _) | .lit (.bool _) => true
  | _ => false

/-- Source: `ast.c` `isLiteralExpr`. -/
def isLiteralExpr : Expr → Bool
  | .lit _ => true
  | .group e | .cast e => isLiteralExpr e
  | .unary _ _ e => isLiteralExpr e
  | _ => false

def isBool : Expr → Bool
  | .lit (.bool _) => true
  | _ => false

def isChar : Expr → Bool
  | .lit (.char _) => true
  | _ => false

def isInteger : Expr → Bool
  | .lit (.int _ _) => true
  | _ => false

def isFloat : Expr → Bool
  | .lit (.float _) => true
  | _ => false

def isNull : Expr → Bool
  | .lit .null => true
  | _ => false

def isError : Expr → Bool
  | .error => true
  | _ => false

def isTernary : Expr → Bool
  | .ternary _ _ _ => true
  | _ => false

/-! ## Numbers -/

/-- A conversion to an integer type; out of its range C leaves the result undefined. -/
def toRange (low high : ℤ) (v : F64) : Option ℤ :=
  (truncate v).filter fun z => low ≤ z && z < high

def toI64 (v : F64) : Option ℤ := toRange (-2 ^ 63) (2 ^ 63) v

/-- Source: `literal.c` `(i128)value`. -/
def toI128 (v : F64) : Option (BitVec 128) :=
  (toRange (-2 ^ 127) (2 ^ 127) v).map (BitVec.ofInt 128)

/-- Source: `literal.c` `(u128)value`. -/
def toU128 (v : F64) : Option (BitVec 128) := (toRange 0 (2 ^ 128) v).map (BitVec.ofInt 128)

/-- The value of a literal, also in parentheses or under a cast. Source: `literal.c`
`nodeGetNumericLiteral`. -/
def nodeGetNumericLiteral : Expr → Option F64
  | .lit .null => some (ofInt 0)
  | .lit (.bool b) => some (ofInt b.toNat)
  | .lit (.char c) => some (ofInt c.toNat)
  | .lit (.int bits _) => some (ofInt bits.toInt)
  | .lit (.float v) => some v
  | .group e | .cast e => nodeGetNumericLiteral e
  | _ => none

/-- A number whose sign is recorded. -/
def signedInteger (value : F64) : Option Expr :=
  let isNegative := lt value (ofInt 0)
  (if isNegative then toI128 value else toU128 value).map fun bits => .lit (.int bits isNegative)

/-- The kind of the result follows the kinds of the operands. For an integer on the left the sign is
the overlaid byte. Source: `literal.c` `nodeSetNumericLiteral`. -/
def nodeSetNumericLiteral (overlaid : Bool) (lhs rhs : Expr) (value : F64) : Option Expr :=
  match lhs with
  | .lit (.bool _) =>
      if isBool rhs then some (.lit (.bool (isZero value)))
      else if isChar rhs || isInteger rhs then signedInteger value
      else some (.lit (.float value))
  | .lit (.char _) =>
      if isBool rhs || isChar rhs then
        (toRange 0 (2 ^ 32) value).map fun z => .lit (.char (UInt32.ofNat z.toNat))
      else if isInteger rhs then signedInteger value
      else some (.lit (.float value))
  | .lit (.int _ _) =>
      if isFloat rhs then some (.lit (.float value))
      else do
        let bits ← toI128 value
        let bits ← if overlaid then some bits else toU128 value
        some (.lit (.int bits overlaid))
  | .lit (.float _) => some (.lit (.float value))
  | .group e => nodeSetNumericLiteral overlaid e rhs value
  | _ => none

/-- An operation on 64-bit integers; a division by zero traps. -/
def integerOperation (op : BinaryOp) (a b : ℤ) : Option ℤ :=
  match op with
  | .div => if b = 0 || (a = -2 ^ 63 && b = -1) then none else some (a.tdiv b)
  | .mod => if b = 0 || (a = -2 ^ 63 && b = -1) then none else some (a.tmod b)
  | .shl => if 0 ≤ b && b < 64 then some (BitVec.ofInt 64 a <<< b.toNat).toInt else none
  | .shr => if 0 ≤ b && b < 64 then some ((BitVec.ofInt 64 a).sshiftRight b.toNat).toInt else none
  | .bAnd => some (BitVec.ofInt 64 a &&& BitVec.ofInt 64 b).toInt
  | .bOr => some (BitVec.ofInt 64 a ||| BitVec.ofInt 64 b).toInt
  | .bXor => some (BitVec.ofInt 64 a ^^^ BitVec.ofInt 64 b).toInt
  | _ => none

/-- `(f64)((i64)lhs OP (i64)rhs)`. -/
def viaI64 (op : BinaryOp) (lhs rhs : Expr) : Option F64 := do
  let a ← toI64 (← nodeGetNumericLiteral lhs)
  let b ← toI64 (← nodeGetNumericLiteral rhs)
  (integerOperation op a b).map ofInt

/-- `lhs OP rhs` on doubles. -/
def viaF64 (f : F64 → F64 → F64) (lhs rhs : Expr) : Option F64 := do
  let a ← nodeGetNumericLiteral lhs
  let b ← nodeGetNumericLiteral rhs
  some (f a b)

/-- A comparison of doubles. -/
def compareF64 (f : F64 → F64 → Bool) (lhs rhs : Expr) : Option Expr := do
  let a ← nodeGetNumericLiteral lhs
  let b ← nodeGetNumericLiteral rhs
  some (.lit (.bool (f a b)))

/-- The number that a prefix `+` or `-` leaves; the test for a float is made on the expression
itself and never holds. Source: `evaluate.c`, `unary.c` `evalPrefixMinusOperation`. -/
def signedOperand (f : F64 → F64) (operand : Expr) : Option Expr := do
  let v ← nodeGetNumericLiteral operand
  signedInteger (f v)

/-- Source: `evaluate.c`, `unary.c` `evalBitNotOperation`. -/
def bitNot (operand : Expr) : Option Expr := do
  let v ← nodeGetNumericLiteral operand
  let z ← toRange 0 (2 ^ 64) v
  some (.lit (.int ((~~~ BitVec.ofInt 64 z).setWidth 128) false))

/-! ## The preprocessor -/

namespace Preprocessor

/-- Source: `evaluate.c` `preprocessorAsBoolean`. -/
def preprocessorAsBoolean (isNonEmpty : Ptr → Bool) : Expr → Option Bool
  | .lit (.bool b) => some b
  | .lit .null => some false
  | .lit (.char c) => some (c != 0)
  | .lit (.int bits _) => some (bits.toInt != 0)
  | .lit (.float v) => some !isZero v
  | .lit (.string s) => some (isNonEmpty s)
  | _ => none

/-- Source: `evaluate.c` `preprocessorEvalBinaryExpr`. -/
def preprocessorEvalBinaryExpr (op : BinaryOp) (lhs rhs : Expr) (overlaid : Bool) : Option Expr :=
  match op with
  | .add =>
      if isBool lhs && isBool rhs then some .error
      else (viaF64 add lhs rhs).bind (nodeSetNumericLiteral overlaid lhs rhs)
  | .sub => (viaF64 sub lhs rhs).bind (nodeSetNumericLiteral overlaid lhs rhs)
  | .mul => (viaF64 mul lhs rhs).bind (nodeSetNumericLiteral overlaid lhs rhs)
  | .div =>
      if isFloat lhs || isFloat rhs then (viaF64 div lhs rhs).map fun v => .lit (.float v)
      else (viaI64 .div lhs rhs).bind (nodeSetNumericLiteral overlaid lhs rhs)
  | .mod | .shl | .shr | .bAnd | .bOr | .bXor =>
      if isFloat lhs || isFloat rhs then some .error
      else (viaI64 op lhs rhs).bind (nodeSetNumericLiteral overlaid lhs rhs)
  | .lAnd => compareF64 (fun a b => !isZero a && !isZero b) lhs rhs
  | .lOr => compareF64 (fun a b => !isZero a || !isZero b) lhs rhs
  | .eq => compareF64 eq lhs rhs
  | .ne => compareF64 (fun a b => !eq a b) lhs rhs
  | .lt => compareF64 lt lhs rhs
  | .gt => compareF64 (fun a b => lt b a) lhs rhs
  | .leq => compareF64 le lhs rhs
  | .geq => compareF64 (fun a b => le b a) lhs rhs
  | .range =>
      if isInteger lhs && isInteger rhs then some (.range lhs rhs)
      else some (.binary op lhs rhs overlaid)
  | .is | .catch => some (.binary op lhs rhs overlaid)

/-- Source: `evaluate.c` `preprocessorEvalUnaryExpr`. -/
def preprocessorEvalUnaryExpr (op : UnaryOp) (isPrefix : Bool) (operand : Expr) : Option Expr :=
  match op with
  | .plus => signedOperand id operand
  | .minus => signedOperand neg operand
  | .not => (nodeGetNumericLiteral operand).map fun v => .lit (.bool (isZero v))
  | .compl =>
      if isInteger operand || isChar operand then bitNot operand
      else some (.unary op isPrefix operand)
  | .other => some (.unary op isPrefix operand)

/-- Source: `preprocessor.c` `visitBinaryExpr`, `visitUnaryExpr`, `visitTernaryExpr`. -/
def visit (isNonEmpty : Ptr → Bool) : Expr → Option Expr
  | .lit l => some (.lit l)
  | .error => some .error
  | .range a b => do
      let a ← visit isNonEmpty a
      let b ← visit isNonEmpty b
      some (.range a b)
  | .group e => (visit isNonEmpty e).map .group
  | .cast e => (visit isNonEmpty e).map .cast
  | .unary op isPrefix e => do
      let e ← visit isNonEmpty e
      if isNumericLiteral e then preprocessorEvalUnaryExpr op isPrefix e
      else some (.unary op isPrefix e)
  | .binary op l r overlaid => do
      let l ← visit isNonEmpty l
      let r ← visit isNonEmpty r
      if isNumericLiteral l && isNumericLiteral r then preprocessorEvalBinaryExpr op l r overlaid
      else some (.binary op l r overlaid)
  | .ternary c t e => do
      let c ← visit isNonEmpty c
      match preprocessorAsBoolean isNonEmpty c with
      | some true => visit isNonEmpty t
      | some false => visit isNonEmpty e
      | none => do
          let t ← visit isNonEmpty t
          let e ← visit isNonEmpty e
          some (.ternary c t e)

end Preprocessor

/-! ## The comptime evaluator -/

namespace Comptime

/-- What the evaluator does with strings: whether one is not empty, `strcmp`, and the interned
concatenation with the text of a literal; and what the type checker makes of a cast of an evaluated
expression. -/
structure Strings where
  isNonEmpty : Ptr → Bool
  strcmp : Ptr → Ptr → ℤ
  concat : Ptr → Literal → Ptr
  checkCast : Expr → Option Expr

variable (strings : Strings)

/-- Source: `binary.c` `evalStringConcatenation`; what has no text aborts. -/
def evalStringConcatenation (s : Ptr) (rhs : Expr) : Option Expr :=
  match rhs with
  | .lit .null => none
  | .lit l => some (.lit (.string (strings.concat s l)))
  | _ => none

/-- Source: `literal.c` `evalBooleanCast`. -/
def evalBooleanCast : Expr → Option Bool
  | .lit (.bool b) => some b
  | .lit .null => some false
  | .lit (.char c) => some (c != 0)
  | .lit (.int bits _) => some (bits.toInt != 0)
  | .lit (.float v) => some !isZero v
  | .lit (.string s) => some (strings.isNonEmpty s)
  | _ => none

def isString : Expr → Bool
  | .lit (.string _) => true
  | _ => false

/-- An arithmetic operator refuses strings. -/
def refusingStrings (lhs rhs : Expr) (result : Option Expr) : Option Expr :=
  if isString lhs || isString rhs then some .error else result

/-- A comparison: of two strings by `strcmp` or by address, else of two numbers.
Source: `binary.c` `CXY_DEFINE_BINARY_COMP_OPERATOR`. -/
def evalComparison (onStrings : Ptr → Ptr → Bool) (onNumbers : F64 → F64 → Bool) (lhs rhs : Expr) :
    Option Expr :=
  match lhs, rhs with
  | .lit (.string s), .lit (.string t) => some (.lit (.bool (onStrings s t)))
  | _, _ => refusingStrings lhs rhs (compareF64 onNumbers lhs rhs)

/-- The truth value of an operand of `&&` and `||`. -/
def truth (e : Expr) : Option Bool :=
  if isLiteralExpr e then (nodeGetNumericLiteral e).map fun v => !isZero v else some !isNull e

/-- Source: `binary.c` `evalLAndOperation`, `evalLOrOperation`. -/
def evalLogic (f : Bool → Bool → Bool) (lhs rhs : Expr) : Option Expr :=
  refusingStrings lhs rhs do
    let a ← truth lhs
    let b ← truth rhs
    some (.lit (.bool (f a b)))

/-- Source: `binary.c` `evalBinaryExpr`, the switch. -/
def evalOperation (op : BinaryOp) (lhs rhs : Expr) (overlaid : Bool) : Option Expr :=
  match op with
  | .add =>
      match lhs with
      | .lit (.string s) => evalStringConcatenation strings s rhs
      | _ =>
          if isString rhs then some .error
          else if isBool lhs && isBool rhs then some .error
          else (viaF64 add lhs rhs).bind (nodeSetNumericLiteral overlaid lhs rhs)
  | .sub => refusingStrings lhs rhs
      ((viaF64 sub lhs rhs).bind (nodeSetNumericLiteral overlaid lhs rhs))
  | .mul => refusingStrings lhs rhs
      ((viaF64 mul lhs rhs).bind (nodeSetNumericLiteral overlaid lhs rhs))
  | .div => refusingStrings lhs rhs
      (if isFloat lhs || isFloat rhs then (viaF64 div lhs rhs).map fun v => .lit (.float v)
      else (viaI64 .div lhs rhs).bind (nodeSetNumericLiteral overlaid lhs rhs))
  | .mod | .shl | .shr | .bAnd | .bOr | .bXor => refusingStrings lhs rhs
      (if isFloat lhs || isFloat rhs then some .error
      else (viaI64 op lhs rhs).bind (nodeSetNumericLiteral overlaid lhs rhs))
  | .lAnd => evalLogic (· && ·) lhs rhs
  | .lOr => evalLogic (· || ·) lhs rhs
  | .eq => evalComparison (· == ·) eq lhs rhs
  | .ne => evalComparison (· != ·) (fun a b => !eq a b) lhs rhs
  | .lt => evalComparison (fun s t => strings.strcmp s t < 0) lt lhs rhs
  | .gt => evalComparison (fun s t => strings.strcmp s t > 0) (fun a b => lt b a) lhs rhs
  | .leq => evalComparison (fun s t => strings.strcmp s t ≤ 0) le lhs rhs
  | .geq => evalComparison (fun s t => strings.strcmp s t ≥ 0) (fun a b => le b a) lhs rhs
  | .range => if isInteger lhs && isInteger rhs then some (.range lhs rhs) else some .error
  | .is => some (.binary op lhs rhs overlaid)
  | .catch => some .error

/-- Source: `binary.c` `verifyBinaryExprOperand`. -/
def verifyBinaryExprOperand (op : BinaryOp) (lhs rhs : Expr) : Bool :=
  op == .lAnd || op == .lOr || (isLiteralExpr lhs && isLiteralExpr rhs)

/-- An operand of `+` and `-` that is neither an integer nor a float becomes an error, under an
expression that stays. The case for `~` is written with the operator of a binary `&`, which no unary
expression has. Source: `unary.c` `evalUnaryExpr`, the switch. -/
def evalPrefix (op : UnaryOp) (operand : Expr) : Option Expr :=
  match op with
  | .plus =>
      if isInteger operand || isFloat operand then signedOperand id operand
      else some (.unary op true .error)
  | .minus =>
      if isInteger operand || isFloat operand then signedOperand neg operand
      else some (.unary op true .error)
  | .not =>
      match evalBooleanCast strings operand with
      | some b => some (.lit (.bool !b))
      | none => some (.unary op true .error)
  | .compl | .other => some .error

/-- A literal is left as it is, also in parentheses. The branch that a ternary selects is evaluated
only if it is a ternary itself. Source: `eval.c` `evaluate`, `evalGroupExpr`, `evalCastExpr`,
`evalTernaryExpr`, `binary.c` `evalBinaryExpr`, `unary.c` `evalUnaryExpr`. -/
def evaluate : Expr → Option Expr
  | .lit l => some (.lit l)
  | .error => some .error
  | .range a b => do
      let a ← evaluate a
      if isError a then some .error
      else
        let b ← evaluate b
        if isError b then some .error else some (.range a b)
  | .group e =>
      if isLiteralExpr e then some (.group e) else evaluate e
  | .cast e =>
      if isLiteralExpr e then some (.cast e)
      else do
        let e ← evaluate e
        if isError e then some .error else strings.checkCast e
  | .unary op isPrefix e => do
      let e ← evaluate e
      if isError e then some .error
      else if isPrefix then evalPrefix strings op e
      else some (.unary op isPrefix e)
  | .binary op l r overlaid => do
      let l ← evaluate l
      if isError l then some .error
      else
        let r ← evaluate r
        if isError r then some .error
        else if verifyBinaryExprOperand op l r then evalOperation strings op l r overlaid
        else some .error
  | .ternary c t e => do
      let c ← evaluate c
      if isError c then some .error
      else
        match evalBooleanCast strings c with
        | some true => if isTernary t then evaluate t else some t
        | some false => if isTernary e then evaluate e else some e
        | none => some .error

end Comptime

end CxyCompiler.Middle.Evaluate
