import CxyCompiler.Lib.Qsort
import CxyCompiler.Lib.Rounding

/-!
# The values of an enum

Options without a value are given one before names are resolved, one more than the value before.
Values are read as a double for this, and the sum is an `i64`. The values are then checked against
the base type, and the options of the type are sorted by value with a comparison that cuts the
difference to an `int`. A value that is given is a literal, in parentheses and under casts maybe;
the check folds a cast, and reads what stands there as an integer literal, whatever it is.

* `Value`, `Value.number` — the values that may be given, and how they are counted on from.
* `bindEnumDecl`, `evalEnumDecl` — the two passes that give values. After the first, no option lacks
  one.
* `checkValue`, `checkEnumDecl` — the check of a value, and the options of the type, or nothing
  where an error is reported.
* `spec` — what the values are to be.
* `Correct` — **an enum whose values lie in its base type has a type with these values, in order;
  any other is refused**.
* `values_correct_iff` — **it is so, however the options are sorted, exactly if the values that are
  given are read as they are, the others are small, no double rounds them and differences keep their
  sign in an `int`**.

Sources: `bind/resolve.c`, `eval/enum.c`, `eval/literal.c`, `sema/enum.c`, `sema/cast.c`, `types.c`.
-/

namespace CxyCompiler.Middle.EnumValues

open Lib

variable {ν : Type}

/-! ## Types -/

/-- The base types of an enum. Source: `types.h` `PRIM_TYPE_LIST`. -/
inductive PrtId
  | char
  | cChar
  | i8
  | u8
  | i16
  | u16
  | i32
  | u32
  | i64
  | u64
  | i128
  | u128
  deriving DecidableEq

namespace PrtId

/-- In bytes. Source: `types.h` `PRIM_TYPE_LIST`. -/
def size : PrtId → ℕ
  | char | i32 | u32 => 4
  | cChar | i8 | u8 => 1
  | i16 | u16 => 2
  | i64 | u64 => 8
  | i128 | u128 => 16

/-- Source: `types.h` `SIGNED_INTEGER_TYPE_LIST`. -/
def isSigned : PrtId → Bool
  | i8 | i16 | i32 | i64 | i128 => true
  | _ => false

/-- Source: `types.c` `isCharacterType`. -/
def isCharacterType : PrtId → Bool
  | char | cChar => true
  | _ => false

/-- Source: `types.c` `getIntegerTypeMinMax`. -/
def minMax : PrtId → ℤ × ℤ
  | char => (0, 4294967295)
  | cChar => (0, 255)
  | i8 => (-128, 127)
  | u8 => (0, 255)
  | i16 => (-32768, 32767)
  | u16 => (0, 65535)
  | i32 => (-2147483648, 2147483647)
  | u32 => (0, 4294967295)
  | i64 => (-9223372036854775808, 9223372036854775807)
  | u64 => (0, 18446744073709551615)
  | i128 => (-170141183460469231731687303715884105728, 170141183460469231731687303715884105727)
  | u128 => (0, 340282366920938463463374607431768211455)

end PrtId

/-- Between base types. Source: `types.c` `isTypeAssignableFrom`, the case `typPrimitive`. -/
def isBaseAssignableFrom (target source : PrtId) : Bool :=
  if target.isCharacterType then source.isCharacterType
  else if source.isCharacterType then false
  else if target.isSigned && !source.isSigned then decide (source.size < target.size)
  else decide (source.size ≤ target.size)

/-- The types of values: those above, an enum by its base, and what is none of these.
Source: `types.h` `Type`. -/
inductive ValueType
  | prim (id : PrtId)
  | enum (base : PrtId)
  | float
  | bool
  | other
  deriving DecidableEq

/-- To a base type. Source: `types.c` `isTypeAssignableFrom`. -/
def isTypeAssignableFrom (base : PrtId) : ValueType → Bool
  | .prim id | .enum id => isBaseAssignableFrom base id
  | .float | .bool | .other => false

/-- From a number or a character to a base type. Source: `types.c` `isTypeCastAssignable`, the case
`typPrimitive`. -/
def isBaseCastAssignable (target source : PrtId) : Bool :=
  if target.isCharacterType then decide (source.size ≤ 4) else true

/-- Casts; a type that is none of those above is not one to cast to.
Source: `types.c` `isTypeCastAssignable`. -/
def isTypeCastAssignable : ValueType → ValueType → Bool
  | .prim target, .prim source => isBaseCastAssignable target source
  | .prim target, .float | .prim target, .bool => !target.isCharacterType
  | .prim target, .enum base =>
      if target.isCharacterType then isBaseAssignableFrom target base
      else isBaseCastAssignable target base
  | .enum base, .prim source => !source.isCharacterType && isBaseCastAssignable base source
  | .enum target, .enum base => isBaseAssignableFrom target base
  | .float, .prim _ | .float, .float => true
  | .float, .enum base => !base.isCharacterType
  | .bool, .bool => true
  | _, _ => false

/-- The last branch is not taken by an `i128`. Source: `ttable.c` `getIntegerTypeForLiteral`. -/
def getIntegerTypeForLiteral (literal : ℤ) : PrtId :=
  if -128 ≤ literal ∧ literal ≤ 127 then .i8
  else if -32768 ≤ literal ∧ literal ≤ 32767 then .i16
  else if -2147483648 ≤ literal ∧ literal ≤ 2147483647 then .i32
  else if -170141183460469231731687303715884105728 ≤ literal ∧
    literal ≤ 170141183460469231731687303715884105727 then .i128
  else .i64

/-! ## Values and options -/

/-- An integer literal: an `i128` if it is negative, and a `u128` otherwise.
Source: `ast.h` `intLiteral`. -/
structure Literal where
  value : ℤ
  low : -170141183460469231731687303715884105728 ≤ value
  high : value < 340282366920938463463374607431768211456

/-- Source: `ast.h` `integerLiteralValue`, and the field `intLiteral.value`. -/
def Literal.integerLiteralValue (literal : Literal) : ℤ :=
  literal.value.bmod 340282366920938463463374607431768211456

/-- A value that may be given: what `isIntegralLiteral` holds of before types are known. A float is
the number it is cut to, and an `address` the pointer in a node that stands in the place of an
integer. Other values stop `bindEnumDecl`. Source: `ast.c` `isIntegralLiteral`. -/
inductive Value
  | integerLit (literal : Literal)
  | charLit (value : UInt32)
  | floatLit (value : ℤ)
  | boolLit (value : Bool)
  | groupExpr (expr : Value) (address : ℕ)
  | castExpr (target : ValueType) (expr : Value) (address : ℕ)

/-- As a double, cut to an integer. Source: `eval/literal.c` `nodeGetNumericLiteral`. -/
def Value.number : Value → ℤ
  | integerLit literal => Double.rounded literal.integerLiteralValue
  | charLit value => value.toNat
  | floatLit value => value
  | boolLit value => value.toNat
  | groupExpr expr _ | castExpr _ expr _ => expr.number

def i64 (x : ℤ) : ℤ := x.bmod 18446744073709551616

/-- The conversion of a double to an `i64`. C leaves it open where the double does not fit, and
x86-64 gives the least one. -/
def i64OfDouble (x : ℤ) : ℤ :=
  if -9223372036854775808 ≤ x ∧ x < 9223372036854775808 then x else -9223372036854775808

theorem i64_range (x : ℤ) : -9223372036854775808 ≤ i64 x ∧ i64 x < 9223372036854775808 := by
  unfold i64 Int.bmod
  grind

/-- The literal of an `i64`. Source: `ast.c` `makeIntegerLiteral`. -/
def makeIntegerLiteral (value : ℤ) : Literal where
  value := i64 value
  low := le_trans (by decide) (i64_range value).1
  high := lt_trans (i64_range value).2 (by decide)

/-- Source: `ast.h` `enumOption`. -/
structure EnumOption (ν : Type) where
  name : ν
  value : Option Value

/-- An option of the type; `decl` is the number of its node. Source: `types.h` `EnumOptionDecl`. -/
structure EnumOptionDecl (ν : Type) where
  name : ν
  value : ℤ
  decl : ℕ
  deriving DecidableEq

/-! ## The passes -/

/-- Source: `bind/resolve.c` `bindEnumDecl`, the loop. -/
def bindOptions : ℤ → List (EnumOption ν) → List (EnumOption ν)
  | _, [] => []
  | nextValue, ⟨name, none⟩ :: rest =>
      ⟨name, some (.integerLit (makeIntegerLiteral nextValue))⟩ ::
        bindOptions (i64 (nextValue + 1)) rest
  | _, ⟨name, some value⟩ :: rest =>
      ⟨name, some value⟩ :: bindOptions (i64 (i64OfDouble value.number + 1)) rest

/-- Source: `bind/resolve.c` `bindEnumDecl`. -/
def bindEnumDecl (options : List (EnumOption ν)) : List (EnumOption ν) := bindOptions 0 options

/-- The options with their values. An option without one leaves `value` as it is.
Source: `eval/enum.c` `evalEnumDecl`, the loop. -/
def evalOptions : ℤ → List (EnumOption ν) → List (ν × Value)
  | _, [] => []
  | value, ⟨name, none⟩ :: rest =>
      (name, .integerLit (makeIntegerLiteral value)) :: evalOptions value rest
  | _, ⟨name, some value⟩ :: rest =>
      (name, value) :: evalOptions (i64 (i64OfDouble value.number + 1)) rest

/-- Source: `eval/enum.c` `evalEnumDecl`. -/
def evalEnumDecl (options : List (EnumOption ν)) : List (ν × Value) := evalOptions 0 options

/-! ## The check of a value -/

/-- The nodes that casts tell apart; a cast that is not folded is none of the literals.
Source: `ast.h` `AstNode.tag`. -/
inductive Tag
  | integerLit
  | charLit
  | floatLit
  | boolLit
  | groupExpr
  | castExpr
  deriving DecidableEq

/-- A value after its check: its type, its node, what the node has as the value of an integer
literal, and the number it is as a double. -/
structure Checked where
  type : ValueType
  tag : Tag
  value : ℤ
  number : ℤ
  deriving DecidableEq

/-- The number in the type; wide types keep it. Source: `sema/cast.c` `castIntegerLiteral`. -/
def PrtId.cast (id : PrtId) (x : ℤ) : ℤ :=
  match id with
  | .i8 | .i16 | .i32 | .i64 => x.bmod (2 ^ (8 * id.size))
  | .cChar | .u8 | .u16 | .char | .u32 | .u64 => x % 2 ^ (8 * id.size)
  | .i128 | .u128 => x

/-- The conversions of a float under a cast, of a negative one to an `i128` and of another to a
`u64`. Source: `sema/cast.c` `castLiteral`. -/
def integerOfFloat (x : ℤ) : ℤ :=
  if x < 0 then max x (-170141183460469231731687303715884105728)
  else if x < 18446744073709551616 then x else 0

/-- The conversion of a double to an `i32`, on x86-64. -/
def i32OfDouble (x : ℤ) : ℤ :=
  if -2147483648 ≤ x ∧ x < 2147483648 then x else -2147483648

/-- The literal that a cast to a type is folded to. A group or a cast in the place of a literal
fails an assertion. The character is written over the lower bytes of what stood there, and the test
for `prtCChar` reads another node. Source: `sema/cast.c` `castLiteral`. -/
def castLiteral (target : ValueType) (address : ℕ) (c : Checked) : Option Checked :=
  match target with
  | .prim id =>
      if id.isCharacterType then
        let char := i32OfDouble c.number % 4294967296
        some ⟨target, .charLit, c.value - c.value % 4294967296 + char, char⟩
      else
        (match c.tag with
          | .integerLit | .boolLit => some c.value
          | .charLit => some (c.value % 4294967296)
          | .floatLit => some (integerOfFloat c.number)
          | .groupExpr | .castExpr => none).map fun x =>
            ⟨target, .integerLit, id.cast x, Double.rounded (id.cast x)⟩
  | .float =>
      match c.tag with
      | .floatLit | .integerLit => some ⟨target, .floatLit, c.number, c.number⟩
      | _ => none
  | .enum _ => some ⟨target, .castExpr, 18446744073709551616 * address, c.number⟩
  | .bool | .other => none

/-- No result where an assertion fails. What cannot be cast is reported and left as it is.
Source: `sema/check.c` `checkLiteral`, `checkGroupExpr`; `sema/cast.c` `checkCastExpr`. -/
def checkValue : Value → Option Checked
  | .integerLit literal =>
      let x := literal.integerLiteralValue
      some ⟨.prim (getIntegerTypeForLiteral x), .integerLit, x, Double.rounded x⟩
  | .charLit value => some ⟨.prim .char, .charLit, value.toNat, value.toNat⟩
  | .floatLit value => some ⟨.float, .floatLit, value, value⟩
  | .boolLit value => some ⟨.bool, .boolLit, value.toNat, value.toNat⟩
  | .groupExpr expr address =>
      (checkValue expr).map fun c => ⟨c.type, .groupExpr, address, c.number⟩
  | .castExpr target expr address =>
      (checkValue expr).bind fun c =>
        if isTypeCastAssignable target c.type then castLiteral target address c
        else some ⟨.other, .castExpr, 18446744073709551616 * address, c.number⟩

/-- The value's type is assignable to the base, and what is read, as a `u128`, is not greater than
the greatest number of the base. Source: `sema/enum.c` `checkEnumDecl`, the loop. -/
def checkOption (base : PrtId) (c : Checked) : Bool :=
  isTypeAssignableFrom base c.type &&
    decide (c.value % 340282366920938463463374607431768211456 ≤ base.minMax.2)

/-- Source: `sema/enum.c` `compareEnumOptionsByValue`. -/
def compareEnumOptionsByValue (lhs rhs : EnumOptionDecl ν) : ℤ :=
  (i64 (lhs.value - rhs.value)).bmod 4294967296

/-- The options, numbered in the order in which they are written. -/
def numbered (l : List (ν × ℤ)) : List (EnumOptionDecl ν) :=
  l.zipIdx.map fun option => ⟨option.1.1, option.1.2, option.2⟩

/-- The values after their checks, unless an assertion fails.
Source: `sema/enum.c` `checkEnumDecl`, the loop. -/
def checkOptions : List (ν × Value) → Option (List (ν × Checked))
  | [] => some []
  | (name, value) :: rest =>
      (checkValue value).bind fun c => (checkOptions rest).map ((name, c) :: ·)

/-- The options of the type, or nothing where an error is reported; no result where an assertion
fails. Source: `sema/enum.c` `checkEnumDecl`. -/
def checkEnumDecl (qsort : List (EnumOptionDecl ν) → List (EnumOptionDecl ν)) (base : PrtId)
    (options : List (EnumOption ν)) : Option (Option (List (EnumOptionDecl ν))) :=
  (checkOptions (evalEnumDecl options)).map fun checked =>
    if checked.all fun option => checkOption base option.2 then
      some <| qsort <| numbered <| checked.map fun option => (option.1, i64 option.2.value)
    else none

/-! ## What the values are to be -/

/-- The type of a value. -/
def Value.type : Value → ValueType
  | integerLit literal => .prim (getIntegerTypeForLiteral literal.integerLiteralValue)
  | charLit _ => .prim .char
  | floatLit _ => .float
  | boolLit _ => .bool
  | groupExpr expr _ => expr.type
  | castExpr target expr _ => if isTypeCastAssignable target expr.type then target else .other

/-- The number a value stands for; a cast takes it into its type. -/
def Value.scalar : Value → ℤ
  | integerLit literal => literal.value
  | charLit value => value.toNat
  | floatLit value => value
  | boolLit value => value.toNat
  | groupExpr expr _ => expr.scalar
  | castExpr (.prim id) expr _ => id.cast expr.scalar
  | castExpr _ expr _ => expr.scalar

/-- The integer that is given, if it is one: floats and truth values are not. -/
def Value.value? (value : Value) : Option ℤ :=
  match value.type with
  | .prim _ | .enum _ => some value.scalar
  | .float | .bool | .other => none

/-- The value of an option without one is one more than that before. -/
def specValues : ℤ → List (EnumOption ν) → Option (List (ν × ℤ))
  | _, [] => some []
  | next, ⟨name, none⟩ :: rest => (specValues (next + 1) rest).map ((name, next) :: ·)
  | _, ⟨name, some value⟩ :: rest =>
      value.value?.bind fun x => (specValues (x + 1) rest).map ((name, x) :: ·)

/-- The options of the enum with their values. -/
def spec (options : List (EnumOption ν)) : Option (List (ν × ℤ)) := specValues 0 options

/-- All values lie in the base type. -/
def InRange (base : PrtId) (l : List (ν × ℤ)) : Prop :=
  ∀ option ∈ l, base.minMax.1 ≤ option.2 ∧ option.2 ≤ base.minMax.2

instance (base : PrtId) (l : List (ν × ℤ)) : Decidable (InRange base l) := by
  unfold InRange
  infer_instance

/-- The numbers of values. -/
def numbers : List (ν × Value) → Option (List (ν × ℤ))
  | [] => some []
  | (name, value) :: rest => value.value?.bind fun x => (numbers rest).map ((name, x) :: ·)

/-- **An enum whose values lie in its base type gets them, and a type that has them in order; any
other enum is refused.** -/
def Correct (qsort : List (EnumOptionDecl ν) → List (EnumOptionDecl ν)) (base : PrtId)
    (options : List (EnumOption ν)) : Prop :=
  (∀ l, spec options = some l → InRange base l →
    numbers (evalEnumDecl (bindEnumDecl options)) = some l ∧
    ∃ result, checkEnumDecl qsort base (bindEnumDecl options) = some (some result) ∧
      result.Perm (numbered l) ∧ result.Pairwise fun x y => x.value ≤ y.value) ∧
  ((∀ l, spec options = some l → ¬ InRange base l) →
    checkEnumDecl qsort base (bindEnumDecl options) = some none)

/-- How large values may be that are written as numbers. -/
def PrtId.limit : PrtId → ℤ
  | char | cChar => 0
  | i8 | u8 => 128
  | i16 | u16 => 32768
  | i32 | u32 | i64 | u64 => 2147483648
  | i128 | u128 => 9223372036854775808

/-- A value that is given passes its check, and what is read is the number it stands for. -/
def Value.Kept (base : PrtId) (value : Value) : Prop :=
  ∃ c, checkValue value = some c ∧ checkOption base c = true ∧ value.value? = some (i64 c.value)

/-- Values before options without one are counted on from as they are. -/
def Exact (options : List (EnumOption ν)) : Prop :=
  options.IsChain fun x y => y.value = none → ∀ value ∈ x.value, value.value? = some value.number

/-- A value that is given is a literal by itself. -/
def Value.IsLiteral : Value → Prop
  | groupExpr _ _ | castExpr _ _ _ => False
  | _ => True

/-- A value that is given is an integer literal. -/
def Value.IsInteger : Value → Prop
  | integerLit _ => True
  | _ => False

/-- A number that an option without a value is given does not pass, or a value that is given does
not; `next` is counted on from the last one that is given, as a double. -/
def SomeRefused (base : PrtId) : ℤ → List (EnumOption ν) → Prop
  | _, [] => False
  | next, ⟨_, none⟩ :: rest =>
      (¬ (0 ≤ next ∧ next < base.limit) ∧ base ≠ .u128) ∨ SomeRefused base (i64 (next + 1)) rest
  | _, ⟨_, some value⟩ :: rest =>
      (∃ c ∈ checkValue value, checkOption base c = false) ∨
        SomeRefused base (i64 (i64OfDouble value.number + 1)) rest

/-- What has to be the case. -/
structure Sound (base : PrtId) (options : List (EnumOption ν)) : Prop where
  kept : ∀ l, spec options = some l → InRange base l →
    ∀ option ∈ options, ∀ value ∈ option.value, value.Kept base
  small : ∀ l, spec options = some l → InRange base l →
    List.Forall₂ (fun option x => option.value = none → 0 ≤ x.2 ∧ x.2 < base.limit) options l
  exact : ∀ l, spec options = some l → InRange base l → Exact options
  spread : ∀ l, spec options = some l → InRange base l → ∀ x ∈ l, ∀ y ∈ l, x.2 < y.2 →
    0 < (y.2 - x.2) % 4294967296 ∧ (y.2 - x.2) % 4294967296 < 2147483648
  literals : (∀ l, spec options = some l → ¬ InRange base l) →
    (∀ option ∈ options, ∀ value ∈ option.value, value.IsLiteral) →
      base = .u128 → ∃ option ∈ options, ∃ value ∈ option.value, ¬ value.IsInteger
  others : (∀ l, spec options = some l → ¬ InRange base l) →
    (¬ ∀ option ∈ options, ∀ value ∈ option.value, value.IsLiteral) →
      (∀ option ∈ options, ∀ value ∈ option.value, checkValue value ≠ none) ∧
        SomeRefused base 0 options

/-! ## Numbers -/

section Numbers

variable {literal : Literal} {base : PrtId}

theorem integerLiteralValue_range (literal : Literal) :
    -170141183460469231731687303715884105728 ≤ literal.integerLiteralValue ∧
      literal.integerLiteralValue < 170141183460469231731687303715884105728 := by
  unfold Literal.integerLiteralValue Int.bmod
  grind

/-- A literal that is read as a number that is not negative is read as written. Kind: L -/
theorem integerLiteralValue_of_nonneg (h : 0 ≤ literal.integerLiteralValue) :
    literal.integerLiteralValue = literal.value := by
  have hlow := literal.low
  have hhigh := literal.high
  unfold Literal.integerLiteralValue Int.bmod at h ⊢
  grind

theorem i64_of_small {x : ℤ} (hlow : -9223372036854775808 ≤ x) (hhigh : x < 9223372036854775808) :
    i64 x = x := by
  unfold i64 Int.bmod
  grind

theorem i64_i64 (x : ℤ) : i64 (i64 x) = i64 x := i64_of_small (i64_range x).1 (i64_range x).2

theorem i64_add_one (x : ℤ) : i64 (x + 1) = i64 (i64 x + 1) := by
  unfold i64 Int.bmod
  grind

theorem integerLiteralValue_make (x : ℤ) : (makeIntegerLiteral x).integerLiteralValue = i64 x := by
  have hrange := i64_range x
  change (i64 x).bmod 340282366920938463463374607431768211456 = i64 x
  generalize i64 x = y at hrange
  unfold Int.bmod
  grind

theorem rounded_nonneg {x : ℤ} (h : 0 ≤ x) : 0 ≤ Double.rounded x :=
  mul_nonneg (Int.sign_nonneg_iff.mpr h) (Int.natCast_nonneg _)

/-- **The number after a literal** is one more than what the literal is rounded to, if it is not
negative. Kind: L -/
theorem i64_next {x : ℤ} (hx : 0 ≤ x) (h : 0 ≤ i64 (i64OfDouble (Double.rounded x) + 1)) :
    i64 (i64OfDouble (Double.rounded x) + 1) = Double.rounded x + 1 ∧
      Double.rounded x < 9223372036854775808 := by
  have hround := rounded_nonneg hx
  generalize Double.rounded x = y at h hround
  unfold i64 i64OfDouble Int.bmod at h ⊢
  grind

/-- A number is counted on from as it is, where the next one is an `i64` that is not negative.
Kind: L -/
theorem i64_next_iff {x y : ℤ} (hlow : 0 ≤ x + 1) (hhigh : x + 1 < 9223372036854775808) :
    i64 (i64OfDouble y + 1) = x + 1 ↔ y = x := by
  unfold i64 i64OfDouble Int.bmod
  grind

theorem compare_iff {x y : EnumOptionDecl ν} :
    compareEnumOptionsByValue x y < 0 ∧ 0 < compareEnumOptionsByValue y x ↔
      0 < (y.value - x.value) % 4294967296 ∧ (y.value - x.value) % 4294967296 < 2147483648 := by
  have hcut : ∀ d : ℤ, (i64 d).bmod 4294967296 = d.bmod 4294967296 := by
    intro d
    unfold i64 Int.bmod
    grind
  unfold compareEnumOptionsByValue
  rw [hcut, hcut]
  unfold Int.bmod
  grind

theorem compare_self {x y : EnumOptionDecl ν} (h : x.value = y.value) :
    compareEnumOptionsByValue x y = 0 := by
  unfold compareEnumOptionsByValue
  rw [h, sub_self]
  rfl

/-- What a base accepts. -/
def PrtId.Accepts (base : PrtId) (x : ℤ) : Prop :=
  0 ≤ x ∧ x < base.limit ∨ base = i128 ∧ 0 ≤ x ∨ base = u128

/-- A literal passes if it is not negative and the signed type as wide as the base, but of at most
32 bits, holds it; `i128` accepts all that are not negative and `u128` accepts all. Kind: L -/
theorem checkOption_iff (base : PrtId) (literal : Literal) :
    (∃ c ∈ checkValue (.integerLit literal), checkOption base c = true) ↔
      base.Accepts literal.integerLiteralValue := by
  have hrange := integerLiteralValue_range literal
  simp only [checkValue, Option.mem_def, Option.some.injEq, exists_eq_left', checkOption]
  unfold getIntegerTypeForLiteral PrtId.Accepts
  generalize literal.integerLiteralValue = x at hrange
  rw [Bool.and_eq_true, decide_eq_true_iff]
  cases base <;> simp only [PrtId.limit, PrtId.minMax] <;> split_ifs <;>
    simp only [isTypeAssignableFrom, isBaseAssignableFrom, PrtId.isCharacterType, PrtId.isSigned,
      PrtId.size] <;> grind

theorem limit_le (base : PrtId) : base.limit ≤ 9223372036854775808 := by
  cases base <;> decide

end Numbers

/-! ## Values that are kept -/

section Kept

variable {base : PrtId}

theorem checkValue_integerLit (literal : Literal) :
    ∃ c, checkValue (.integerLit literal) = some c ∧ c.value = literal.integerLiteralValue :=
  ⟨_, rfl, rfl⟩

theorem value?_integerLit (literal : Literal) :
    (Value.integerLit literal).value? = some literal.value := rfl

/-- A number that is given is kept as one that is found by counting is. Kind: L -/
theorem kept_make_iff {x : ℤ} :
    (Value.integerLit (makeIntegerLiteral x)).Kept base ↔ base.Accepts (i64 x) := by
  rw [← integerLiteralValue_make, ← checkOption_iff]
  constructor
  · rintro ⟨c, hc, hcheck, -⟩
    exact ⟨c, hc, hcheck⟩
  · rintro ⟨c, hc, hcheck⟩
    obtain ⟨c', hc', hvalue⟩ := checkValue_integerLit (makeIntegerLiteral x)
    obtain rfl := Option.some.inj (hc.symm.trans hc')
    refine ⟨c, hc, hcheck, ?_⟩
    rw [hvalue, integerLiteralValue_make, i64_i64]
    rfl

/-- **A number that lies in the base is kept** if it is not negative and small. Kind: L -/
theorem kept_integerLit_iff {literal : Literal} (hlow : base.minMax.1 ≤ literal.value)
    (hhigh : literal.value ≤ base.minMax.2) :
    (Value.integerLit literal).Kept base ↔ 0 ≤ literal.value ∧ literal.value < base.limit := by
  have hrange := i64_range literal.integerLiteralValue
  have hread : (Value.integerLit literal).Kept base ↔
      base.Accepts literal.integerLiteralValue ∧
        literal.value = i64 literal.integerLiteralValue := by
    rw [← checkOption_iff]
    constructor
    · rintro ⟨c, hc, hcheck, hvalue⟩
      obtain ⟨c', hc', hread⟩ := checkValue_integerLit literal
      obtain rfl := Option.some.inj (hc.symm.trans hc')
      rw [hread, value?_integerLit] at hvalue
      exact ⟨⟨c, hc, hcheck⟩, Option.some.inj hvalue⟩
    · rintro ⟨⟨c, hc, hcheck⟩, hvalue⟩
      obtain ⟨c', hc', hread⟩ := checkValue_integerLit literal
      obtain rfl := Option.some.inj (hc.symm.trans hc')
      exact ⟨c, hc, hcheck, by rw [hread, value?_integerLit, ← hvalue]⟩
  rw [hread]
  unfold PrtId.Accepts
  unfold Literal.integerLiteralValue i64 Int.bmod at *
  cases base <;> simp only [PrtId.limit, PrtId.minMax] at * <;> grind

/-- **A character is kept** in a base of characters that it lies in. Kind: L -/
theorem kept_charLit_iff {value : UInt32} (hhigh : (value.toNat : ℤ) ≤ base.minMax.2) :
    (Value.charLit value).Kept base ↔ base.isCharacterType = true := by
  have hlt : (value.toNat : ℤ) < 4294967296 := by exact_mod_cast value.toNat_lt
  have hread : i64 (value.toNat : ℤ) = value.toNat := i64_of_small (by omega) (by omega)
  unfold Value.Kept
  simp only [checkValue, Option.some.injEq, exists_eq_left', checkOption, Value.value?, Value.type,
    Value.scalar, hread]
  rw [Int.emod_eq_of_lt (by omega) (by omega), decide_eq_true hhigh]
  cases base <;> decide

/-- **What a number is cut to is kept** if it is assignable to the base, not negative and an `i64`.
Kind: L -/
theorem kept_cast_iff {id : PrtId} (hid : id.isCharacterType = false) (hsize : id.size ≤ 8)
    {literal : Literal} {address : ℕ} (hlow : base.minMax.1 ≤ id.cast literal.value)
    (hhigh : id.cast literal.value ≤ base.minMax.2) :
    (Value.castExpr (.prim id) (.integerLit literal) address).Kept base ↔
      isBaseAssignableFrom base id = true ∧ 0 ≤ id.cast literal.value ∧
        id.cast literal.value < 9223372036854775808 := by
  have hcast : id.cast literal.integerLiteralValue = id.cast literal.value := by
    unfold Literal.integerLiteralValue PrtId.cast Int.bmod
    cases id <;> simp only [PrtId.size] at hsize ⊢ <;> grind
  have hto : ∀ source, isBaseCastAssignable id source = true := by
    intro source
    rw [isBaseCastAssignable, hid]
    rfl
  unfold Value.Kept
  simp only [checkValue, Option.bind_some, isTypeCastAssignable, hto, if_true, castLiteral, hid,
    Bool.false_eq_true, if_false, Option.map_some, Option.some.injEq, exists_eq_left', checkOption,
    isTypeAssignableFrom, Value.value?, Value.type, Value.scalar, hcast, Bool.and_eq_true,
    decide_eq_true_iff, and_assoc]
  generalize id.cast literal.value = w at hlow hhigh
  refine and_congr_right fun _ => ?_
  unfold i64 Int.bmod
  cases base <;> simp only [PrtId.minMax] at hlow hhigh ⊢ <;> grind

end Kept

/-! ## The values that are given -/

section Given

variable {options : List (EnumOption ν)} {base : PrtId} {next next' : ℤ} {l : List (ν × ℤ)}

/-- The options with the values that both passes leave. -/
def given : ℤ → List (EnumOption ν) → List (ν × Value)
  | _, [] => []
  | next, ⟨name, none⟩ :: rest =>
      (name, .integerLit (makeIntegerLiteral next)) :: given (i64 (next + 1)) rest
  | _, ⟨name, some value⟩ :: rest =>
      (name, value) :: given (i64 (i64OfDouble value.number + 1)) rest

/-- After names are resolved no option lacks a value, so that the second pass gives none. Kind: L -/
theorem evalOptions_bindOptions : ∀ (options : List (EnumOption ν)) (value next : ℤ),
    evalOptions value (bindOptions next options) = given next options
  | [], _, _ => rfl
  | ⟨name, none⟩ :: rest, value, next => by
      rw [bindOptions, evalOptions, given, evalOptions_bindOptions rest]
  | ⟨name, some literal⟩ :: rest, value, next => by
      rw [bindOptions, evalOptions, given, evalOptions_bindOptions rest]

theorem evalEnumDecl_bindEnumDecl (options : List (EnumOption ν)) :
    evalEnumDecl (bindEnumDecl options) = given 0 options := evalOptions_bindOptions options 0 0

/-- The number that the next option without a value is given is right. -/
def Next (options : List (EnumOption ν)) (next next' : ℤ) : Prop :=
  ∀ option ∈ options.head?, option.value = none → i64 next = next'

/-- Options without a value are to have an `i64` that is not negative. -/
abbrev Small (options : List (EnumOption ν)) (l : List (ν × ℤ)) : Prop :=
  List.Forall₂ (fun option x => option.value = none → 0 ≤ x.2 ∧ x.2 < 9223372036854775808) options l

/-- An option without a value that comes next is to have the next number. Kind: L -/
theorem small_head {option : EnumOption ν} (hspec : specValues next' options = some l)
    (hsmall : Small options l) (h : option ∈ options.head?) (hnone : option.value = none) :
    0 ≤ next' ∧ next' < 9223372036854775808 := by
  obtain ⟨rest, rfl⟩ := List.head?_eq_some_iff.mp h
  obtain ⟨name, value⟩ := option
  obtain rfl : value = none := hnone
  obtain ⟨l', -, rfl⟩ := Option.map_eq_some_iff.mp hspec
  cases hsmall with
  | cons hhead _ => exact hhead rfl

theorem numbers_cons {name : ν} {value : Value} {G : List (ν × Value)} {x : ℤ}
    (h : value.value? = some x) :
    numbers ((name, value) :: G) = some ((name, x) :: l) ↔ numbers G = some l := by
  rw [numbers, h, Option.bind_some]
  cases numbers G <;> simp

/-- **Options are given the values they are to have** exactly if those before options without one
are counted on from as they are. Kind: L -/
theorem numbers_given_iff : ∀ {options : List (EnumOption ν)} {next next' : ℤ} {l : List (ν × ℤ)},
    specValues next' options = some l → Small options l →
      (numbers (given next options) = some l ↔ Next options next next' ∧ Exact options)
  | [], _, _, _, hspec, _ => iff_of_true hspec ⟨fun _ h => (by cases h), List.isChain_nil⟩
  | ⟨name, none⟩ :: rest, next, next', l, hspec, hsmall => by
      obtain ⟨l', hrest, rfl⟩ := Option.map_eq_some_iff.mp hspec
      obtain ⟨hhead, hsmall'⟩ := List.forall₂_cons.mp hsmall
      have hexact : Exact (⟨name, none⟩ :: rest) ↔ Exact rest := by
        rw [Exact, List.isChain_cons, ← Exact]
        exact and_iff_right fun _ _ _ _ h => by cases h
      have hnext : Next (⟨name, none⟩ :: rest) next next' ↔ i64 next = next' :=
        ⟨fun h => h _ rfl rfl, fun h _ _ _ => h⟩
      rw [hexact, hnext, given]
      by_cases heq : i64 next = next'
      · have hvalue : (Value.integerLit (makeIntegerLiteral next)).value? = some next' :=
          congrArg some heq
        rw [numbers_cons hvalue, numbers_given_iff hrest hsmall', and_iff_right heq]
        refine and_iff_right fun option hoption hnone => ?_
        have hlow : 0 ≤ next' := (hhead rfl).1
        have hlt := (small_head hrest hsmall' hoption hnone).2
        rw [i64_i64, i64_add_one, heq]
        exact i64_of_small (by omega) hlt
      · refine iff_of_false (fun h => heq ?_) fun h => heq h.1
        rw [numbers, value?_integerLit, Option.bind_some] at h
        obtain ⟨l'', -, hl⟩ := Option.map_eq_some_iff.mp h
        exact congrArg Prod.snd (List.cons_eq_cons.mp hl).1
  | ⟨name, some value⟩ :: rest, next, next', l, hspec, hsmall => by
      obtain ⟨x, hx, hspec⟩ := Option.bind_eq_some_iff.mp hspec
      obtain ⟨l', hrest, rfl⟩ := Option.map_eq_some_iff.mp hspec
      obtain ⟨-, hsmall'⟩ := List.forall₂_cons.mp hsmall
      have hnext : Next (⟨name, some value⟩ :: rest) next next' := fun option hoption hnone => by
        obtain rfl := Option.some.inj hoption
        cases hnone
      rw [given, numbers_cons hx, numbers_given_iff hrest hsmall',
        and_iff_right hnext, Exact, Exact,
        List.isChain_cons]
      refine and_congr_left fun _ => forall₃_congr fun option hoption hnone => ?_
      obtain ⟨hlow, hlt⟩ := small_head hrest hsmall' hoption hnone
      rw [i64_i64, i64_next_iff hlow hlt]
      constructor
      · rintro heq value' hvalue'
        obtain rfl := Option.some.inj hvalue'
        rw [heq, hx]
      · intro h
        exact (Option.some.inj (hx.symm.trans (h value rfl))).symm

/-- The check goes on exactly if no assertion fails for a value. Kind: L -/
theorem checkOptions_isSome : ∀ {G : List (ν × Value)},
    (checkOptions G).isSome ↔ ∀ option ∈ G, checkValue option.2 ≠ none
  | [] => iff_of_true rfl fun _ h => absurd h List.not_mem_nil
  | (name, value) :: G => by
      rw [checkOptions, List.forall_mem_cons, ← checkOptions_isSome]
      cases checkValue value with
      | none => simp
      | some c => simp

/-- **What the check reads is what the options are to have** exactly if every value is kept.
Kind: L -/
theorem kept_iff : ∀ {G : List (ν × Value)} {l : List (ν × ℤ)}, numbers G = some l →
    ((∃ checked, checkOptions G = some checked ∧
        (checked.all fun option => checkOption base option.2) = true ∧
        (checked.map fun option => (option.1, i64 option.2.value)) = l) ↔
      ∀ option ∈ G, option.2.Kept base)
  | [], _, h => by
      obtain rfl := Option.some.inj h
      exact iff_of_true ⟨[], rfl, rfl, rfl⟩ fun _ h => absurd h List.not_mem_nil
  | (name, value) :: G, l, h => by
      obtain ⟨x, hx, h⟩ := Option.bind_eq_some_iff.mp h
      obtain ⟨l', hl', rfl⟩ := Option.map_eq_some_iff.mp h
      rw [List.forall_mem_cons, ← kept_iff hl']
      constructor
      · rintro ⟨checked, hchecked, hall, hmap⟩
        obtain ⟨c, hc, hchecked⟩ := Option.bind_eq_some_iff.mp hchecked
        obtain ⟨rest, hrest, rfl⟩ := Option.map_eq_some_iff.mp hchecked
        rw [List.all_cons, Bool.and_eq_true] at hall
        rw [List.map_cons, List.cons_eq_cons] at hmap
        exact ⟨⟨c, hc, hall.1, hx.trans (congrArg some (congrArg Prod.snd hmap.1).symm)⟩,
          rest, hrest, hall.2, hmap.2⟩
      · rintro ⟨⟨c, hc, hcheck, hvalue⟩, rest, hrest, hall, hmap⟩
        refine ⟨(name, c) :: rest, ?_, ?_, ?_⟩
        · rw [checkOptions, hc, Option.bind_some, hrest, Option.map_some]
        · rw [List.all_cons, hall, hcheck, Bool.and_self]
        · rw [List.map_cons, hmap, Option.some.inj (hx.symm.trans hvalue)]

/-- The values that the passes leave are kept exactly if those that are given are, and the others
are accepted. Kind: L -/
theorem kept_given_iff : ∀ {options : List (EnumOption ν)} {next : ℤ} {l : List (ν × ℤ)},
    numbers (given next options) = some l →
      ((∀ option ∈ given next options, option.2.Kept base) ↔
        (∀ option ∈ options, ∀ value ∈ option.value, value.Kept base) ∧
          List.Forall₂ (fun option x => option.value = none → base.Accepts x.2 ∧
            -9223372036854775808 ≤ x.2 ∧ x.2 < 9223372036854775808) options l)
  | [], _, l, h => by
      obtain rfl := Option.some.inj h
      exact iff_of_true (fun _ h => absurd h List.not_mem_nil)
        ⟨fun _ h => absurd h List.not_mem_nil, .nil⟩
  | ⟨name, none⟩ :: rest, next, l, h => by
      rw [given, numbers, value?_integerLit, Option.bind_some] at h
      obtain ⟨l', hl', rfl⟩ := Option.map_eq_some_iff.mp h
      rw [given, List.forall_mem_cons, List.forall_mem_cons, kept_given_iff hl', kept_make_iff,
        List.forall₂_cons]
      have hvalue : (makeIntegerLiteral next).value = i64 next := rfl
      have hrange := i64_range next
      simp only [hvalue, hrange, Option.mem_def, reduceCtorEq,
        false_implies, implies_true, true_and,
        and_true, true_implies]
      tauto
  | ⟨name, some value⟩ :: rest, next, l, h => by
      obtain ⟨x, hx, h⟩ := Option.bind_eq_some_iff.mp h
      obtain ⟨l', hl', rfl⟩ := Option.map_eq_some_iff.mp h
      rw [given, List.forall_mem_cons, List.forall_mem_cons, kept_given_iff hl', List.forall₂_cons]
      simp only [Option.mem_def, Option.some.injEq, forall_eq',
        reduceCtorEq, false_implies, true_and,
        and_assoc]

/-- The number of a node tells its option. Kind: L -/
theorem numbered_perm {l r : List (ν × ℤ)} (h : (numbered l).Perm (numbered r)) : l = r := by
  have hsorted : ∀ s : List (ν × ℤ), (numbered s).Pairwise fun x y => x.decl < y.decl := by
    intro s
    unfold numbered
    rw [List.pairwise_map]
    refine List.pairwise_iff_getElem.mpr fun i j hi hj hij => ?_
    rw [List.getElem_zipIdx, List.getElem_zipIdx]
    simpa using hij
  have heq : numbered l = numbered r :=
    h.eq_of_pairwise (fun x y _ _ hxy hyx => absurd hxy (lt_asymm hyx)) (hsorted l) (hsorted r)
  have hback : ∀ s : List (ν × ℤ), (numbered s).map (fun x => (x.name, x.value)) = s := by
    intro s
    unfold numbered
    rw [List.map_map]
    exact List.zipIdx_map_fst 0 s
  rw [← hback l, heq, hback]

theorem mem_numbered {l : List (ν × ℤ)} {x : EnumOptionDecl ν} (h : x ∈ numbered l) :
    (x.name, x.value) ∈ l := by
  obtain ⟨option, hoption, rfl⟩ := List.mem_map.mp h
  exact List.fst_mem_of_mem_zipIdx hoption

theorem exists_numbered {l : List (ν × ℤ)} {x : ν × ℤ} (h : x ∈ l) :
    ∃ decl ∈ numbered l, decl.value = x.2 := by
  obtain ⟨i, hi, rfl⟩ := List.getElem_of_mem h
  refine ⟨⟨l[i].1, l[i].2, i⟩, List.mem_map.mpr ⟨(l[i], i), ?_, rfl⟩, rfl⟩
  exact List.mk_mem_zipIdx_iff_getElem?.mpr (List.getElem?_eq_getElem hi)

/-! ## Values that are refused -/

/-- **Some option is refused** exactly if a value that the passes leave is. Kind: L -/
theorem someRefused_iff : ∀ {options : List (EnumOption ν)} {next : ℤ}, i64 next = next →
    (SomeRefused base next options ↔
      ∃ option ∈ given next options, ∃ c ∈ checkValue option.2, checkOption base c = false)
  | [], _, _ => iff_of_false id fun ⟨_, h, _⟩ => absurd h List.not_mem_nil
  | ⟨name, none⟩ :: rest, next, hnext => by
      have hrefused : (∃ c ∈ checkValue (.integerLit (makeIntegerLiteral next)),
          checkOption base c = false) ↔ ¬ (0 ≤ next ∧ next < base.limit) ∧ base ≠ .u128 := by
        have hiff := checkOption_iff base (makeIntegerLiteral next)
        rw [integerLiteralValue_make, hnext] at hiff
        have hrange := i64_range next
        rw [hnext] at hrange
        obtain ⟨c, hc, -⟩ := checkValue_integerLit (makeIntegerLiteral next)
        simp only [hc, Option.mem_def, Option.some.injEq, exists_eq_left'] at hiff ⊢
        rw [← Bool.not_eq_true, hiff]
        unfold PrtId.Accepts
        cases base <;> simp only [PrtId.limit] <;> grind
      rw [SomeRefused, given, List.exists_mem_cons_iff, hrefused, someRefused_iff (i64_i64 _)]
  | ⟨name, some value⟩ :: rest, next, _ => by
      rw [SomeRefused, given, List.exists_mem_cons_iff, someRefused_iff (i64_i64 _)]

/-- The check comes to an end, and what it says of an enum. Kind: L -/
theorem checkEnumDecl_eq {qsort : List (EnumOptionDecl ν) → List (EnumOptionDecl ν)}
    {result : Option (List (EnumOptionDecl ν))} :
    checkEnumDecl qsort base (bindEnumDecl options) = some result ↔
      ∃ checked, checkOptions (given 0 options) = some checked ∧
        (if checked.all fun option => checkOption base option.2 then
          some (qsort (numbered (checked.map fun option => (option.1, i64 option.2.value))))
        else none) = result := by
  unfold checkEnumDecl
  rw [evalEnumDecl_bindEnumDecl, Option.map_eq_some_iff]

/-- The checks of values, as they stand in the list. Kind: L -/
theorem exists_refused_iff : ∀ {G : List (ν × Value)} {checked : List (ν × Checked)},
    checkOptions G = some checked →
      ((checked.all fun option => checkOption base option.2) = false ↔
        ∃ option ∈ G, ∃ c ∈ checkValue option.2, checkOption base c = false)
  | [], _, h => by
      obtain rfl := Option.some.inj h
      exact iff_of_false Bool.noConfusion fun ⟨_, h, _⟩ => absurd h List.not_mem_nil
  | (name, value) :: G, checked, h => by
      obtain ⟨c, hc, h⟩ := Option.bind_eq_some_iff.mp h
      obtain ⟨rest, hrest, rfl⟩ := Option.map_eq_some_iff.mp h
      rw [List.all_cons, Bool.and_eq_false_iff, exists_refused_iff hrest,
        List.exists_mem_cons_iff]
      refine or_congr_left ?_
      simp only [hc, Option.mem_def, Option.some.injEq, exists_eq_left']

/-- The values that are given are checked; those that the passes make always are. Kind: L -/
theorem checks_given : ∀ {options : List (EnumOption ν)} {next : ℤ},
    (∀ option ∈ given next options, checkValue option.2 ≠ none) ↔
      ∀ option ∈ options, ∀ value ∈ option.value, checkValue value ≠ none
  | [], _ => iff_of_true (fun _ h => absurd h List.not_mem_nil) fun _ h => absurd h List.not_mem_nil
  | ⟨name, none⟩ :: rest, next => by
      rw [given, List.forall_mem_cons, List.forall_mem_cons, checks_given]
      refine and_congr_left fun _ => iff_of_true ?_ fun _ h => by cases h
      exact Option.some_ne_none _
  | ⟨name, some value⟩ :: rest, next => by
      rw [given, List.forall_mem_cons, List.forall_mem_cons, checks_given]
      refine and_congr_left fun _ => ?_
      simp only [Option.mem_def, Option.some.injEq, forall_eq']

/-- **An enum is refused** exactly if no assertion fails and some option is refused. Kind: L -/
theorem refused_iff {qsort : List (EnumOptionDecl ν) → List (EnumOptionDecl ν)} :
    checkEnumDecl qsort base (bindEnumDecl options) = some none ↔
      (∀ option ∈ options, ∀ value ∈ option.value, checkValue value ≠ none) ∧
        SomeRefused base 0 options := by
  rw [checkEnumDecl_eq, ← @checks_given ν options 0, ← checkOptions_isSome,
    someRefused_iff (by decide)]
  constructor
  · rintro ⟨checked, hchecked, h⟩
    refine ⟨Option.isSome_of_eq_some hchecked, (exists_refused_iff hchecked).mp ?_⟩
    by_contra hall
    rw [if_pos (by simpa using hall)] at h
    cases h
  · rintro ⟨hsome, hrefused⟩
    obtain ⟨checked, hchecked⟩ := Option.isSome_iff_exists.mp hsome
    refine ⟨checked, hchecked, if_neg ?_⟩
    rw [(exists_refused_iff hchecked).mpr hrefused]
    exact Bool.false_ne_true

end Given

/-! ## Literals that pass -/

section Literals

variable {options : List (EnumOption ν)} {base : PrtId} {next next' : ℤ} {l : List (ν × ℤ)}

/-- How an option whose literal passes may miss its value: only after a literal that is rounded.
Kind: D -/
def Near (d : ℤ) (option : ν × Value) (x : ν × ℤ) : Prop :=
  ∃ literal, option.2 = .integerLit literal ∧ (x.2 = literal.integerLiteralValue ∨
    literal.integerLiteralValue < 9223372036854775808 ∧
      |x.2 - literal.integerLiteralValue| ≤ d)

/-- The option is given an integer literal from zero on and below `bound`. Kind: D -/
def Below (bound : ℤ) (option : ν × Value) : Prop :=
  ∃ literal, option.2 = .integerLit literal ∧
    0 ≤ literal.integerLiteralValue ∧ literal.integerLiteralValue < bound

/-- An option without a value that comes next is given the next number. Kind: L -/
theorem below_head {option : EnumOption ν} {bound : ℤ} (h : ∀ x ∈ given next options, Below bound x)
    (hoption : option ∈ options.head?) (hnone : option.value = none) : 0 ≤ i64 next := by
  obtain ⟨rest, rfl⟩ := List.head?_eq_some_iff.mp hoption
  obtain ⟨name, value⟩ := option
  obtain rfl : value = none := hnone
  obtain ⟨literal, hliteral, hlow, -⟩ := h (name, _) (List.mem_cons_self ..)
  obtain rfl := Value.integerLit.inj hliteral
  rwa [integerLiteralValue_make] at hlow

/-- **Options whose literals are not negative are not far from the values they are to have**, if
such literals are not rounded by more than `d`. Kind: L -/
theorem given_near {d bound : ℤ} (hd : 0 ≤ d)
    (hround : ∀ x, 0 ≤ x → x < bound → Double.rounded x < 9223372036854775808 →
      |x - Double.rounded x| ≤ d) :
    ∀ {options : List (EnumOption ν)} {next next' : ℤ},
      (∀ option ∈ options.head?, option.value = none → |next' - i64 next| ≤ d) →
      (∀ option ∈ given next options, Below bound option) →
        ∃ l, specValues next' options = some l ∧ List.Forall₂ (Near d) (given next options) l
  | [], _, _, _, _ => ⟨[], rfl, .nil⟩
  | ⟨name, none⟩ :: rest, next, next', hnext, hgiven => by
      have hhead : 0 ≤ i64 next := below_head hgiven rfl rfl
      obtain ⟨-, hrest⟩ := List.forall_mem_cons.mp hgiven
      have hdist : |next' - i64 next| ≤ d := hnext _ rfl rfl
      have hnext' : ∀ option ∈ rest.head?, option.value = none →
          |next' + 1 - i64 (i64 (next + 1))| ≤ d := by
        intro option hoption hnone
        have hpos := below_head hrest hoption hnone
        rw [i64_i64, i64_add_one] at hpos
        have hrange := i64_range next
        have hstep : i64 (i64 next + 1) = i64 next + 1 := by
          generalize i64 next = x at hpos hrange hhead
          unfold i64 Int.bmod at hpos ⊢
          grind
        rw [i64_i64, i64_add_one, hstep, add_sub_add_right_eq_sub]
        exact hdist
      obtain ⟨l, hl, hnear⟩ := given_near hd hround hnext' hrest
      refine ⟨(name, next') :: l, congrArg (Option.map ((name, next') :: ·)) hl, .cons ?_ hnear⟩
      refine ⟨_, rfl, .inr ?_⟩
      rw [integerLiteralValue_make]
      exact ⟨(i64_range next).2, hdist⟩
  | ⟨name, some value⟩ :: rest, next, next', hnext, hgiven => by
      obtain ⟨⟨literal, hliteral, hlow, hhigh⟩, hrest⟩ := List.forall_mem_cons.mp hgiven
      obtain rfl : value = .integerLit literal := hliteral
      have hvalue := integerLiteralValue_of_nonneg hlow
      have hnext' : ∀ option ∈ rest.head?, option.value = none →
          |literal.value + 1 - i64 (i64 (i64OfDouble (Value.integerLit literal).number + 1))| ≤
            d := by
        intro option hoption hnone
        have hpos := below_head hrest hoption hnone
        rw [i64_i64] at hpos
        obtain ⟨hstep, hlt⟩ := i64_next hlow hpos
        rw [i64_i64, Value.number, hstep, ← hvalue, add_sub_add_right_eq_sub]
        exact hround _ hlow hhigh hlt
      obtain ⟨l, hl, hnear⟩ := given_near hd hround hnext' hrest
      refine ⟨(name, literal.value) :: l, ?_, .cons ⟨literal, rfl, .inl hvalue.symm⟩ hnear⟩
      rw [specValues, value?_integerLit, Option.bind_some, hl, Option.map_some]

theorem sub_rounded {x : ℤ} (hx : 0 ≤ x) (h : Double.rounded x < 9223372036854775808) :
    |x - Double.rounded x| ≤ 18446744073709551616 := by
  have hround := rounded_nonneg hx
  have hle := Double.le_roundedNat x.natAbs
  rw [← Double.natAbs_rounded] at hle
  rw [abs_le]
  omega

/-- What is near a literal that passes lies in the base type. Kind: L -/
theorem inRange_of_near {d : ℤ} {G : List (ν × Value)} (h : List.Forall₂ (Near d) G l)
    (hrange : ∀ option ∈ G, ∀ x, Near d option x → base.minMax.1 ≤ x.2 ∧ x.2 ≤ base.minMax.2) :
    InRange base l := by
  induction h with
  | nil => exact fun _ hmem => absurd hmem List.not_mem_nil
  | cons hrel _ ih =>
      obtain ⟨hhead, hrest⟩ := List.forall_mem_cons.mp hrange
      exact List.forall_mem_cons.mpr ⟨hhead _ hrel, ih hrest⟩

/-- Integer literals that pass are values in the base type, unless that is `u128`. Kind: L -/
theorem inRange_of_integers (hbase : base ≠ .u128)
    (h : ∀ option ∈ given 0 options, ∃ literal, option.2 = .integerLit literal ∧
      base.Accepts literal.integerLiteralValue) :
    ∃ l, spec options = some l ∧ InRange base l := by
  by_cases hwide : base = .i128
  · -- an `i128` enum may miss values, but by less than what is left above an `i64`
    have hbelow : ∀ option ∈ given 0 options,
        Below 170141183460469231731687303715884105728 option := by
      intro option hoption
      obtain ⟨literal, hliteral, haccept⟩ := h option hoption
      refine ⟨literal, hliteral, ?_, (integerLiteralValue_range literal).2⟩
      unfold PrtId.Accepts at haccept
      grind
    obtain ⟨l, hl, hnear⟩ := @given_near ν 18446744073709551616 _ (by decide)
      (fun x hx _ hlt => sub_rounded hx hlt) options 0 0 (fun _ _ _ => by decide) hbelow
    refine ⟨l, hl, inRange_of_near hnear fun option hoption x hrel => ?_⟩
    obtain ⟨literal, hliteral, haccept⟩ := h option hoption
    obtain ⟨literal', hliteral', hrel⟩ := hrel
    obtain rfl := Value.integerLit.inj (hliteral'.symm.trans hliteral)
    have hrange := integerLiteralValue_range literal'
    unfold PrtId.Accepts at haccept
    subst hwide
    simp only [PrtId.minMax]
    rcases hrel with heq | ⟨hlt, hdist⟩
    · omega
    · rw [abs_le] at hdist
      grind [PrtId.limit]
  · -- the literals of any other base are not rounded
    have hnarrow : ∀ option ∈ given 0 options, Below base.limit option := by
      intro option hoption
      obtain ⟨literal, hliteral, haccept⟩ := h option hoption
      refine ⟨literal, hliteral, ?_⟩
      unfold PrtId.Accepts at haccept
      grind
    have hsmall : base.limit ≤ 2147483648 := by
      cases base <;> simp_all [PrtId.limit]
    have hround : ∀ x, 0 ≤ x → x < base.limit → Double.rounded x < 9223372036854775808 →
        |x - Double.rounded x| ≤ 0 := by
      intro x hx hlt _
      rw [Double.rounded_of_small (by omega), sub_self, abs_zero]
    obtain ⟨l, hl, hnear⟩ :=
      @given_near ν _ _ (le_refl _) hround options 0 0 (fun _ _ _ => by decide) hnarrow
    refine ⟨l, hl, inRange_of_near hnear fun option hoption x hrel => ?_⟩
    obtain ⟨literal, hliteral, hlimit⟩ := hnarrow option hoption
    obtain ⟨literal', hliteral', hrel⟩ := hrel
    obtain rfl := Value.integerLit.inj (hliteral'.symm.trans hliteral)
    have heq : x.2 = literal'.integerLiteralValue := by
      rcases hrel with heq | ⟨-, hdist⟩
      · exact heq
      · exact sub_eq_zero.mp (abs_nonpos_iff.mp hdist)
    rw [heq]
    cases base <;> simp only [PrtId.limit, PrtId.minMax] at hlimit ⊢ <;> omega

/-- Characters that are not greater than the greatest of the base are values in it. Kind: L -/
theorem inRange_of_chars : ∀ {options : List (EnumOption ν)} {next : ℤ} (next' : ℤ),
    (∀ option ∈ given next options, ∃ value : UInt32, option.2 = .charLit value ∧
      base.minMax.1 ≤ value.toNat ∧ value.toNat ≤ base.minMax.2) →
      ∃ l, specValues next' options = some l ∧ InRange base l
  | [], _, _, _ => ⟨[], rfl, fun _ h => absurd h List.not_mem_nil⟩
  | ⟨name, none⟩ :: rest, next, next', h => by
      obtain ⟨value, hvalue, -⟩ := h (name, _) (List.mem_cons_self ..)
      cases hvalue
  | ⟨name, some value⟩ :: rest, next, next', h => by
      obtain ⟨⟨char, hchar, hbounds⟩, hrest⟩ := List.forall_mem_cons.mp h
      obtain rfl : value = .charLit char := hchar
      obtain ⟨l, hl, hrange⟩ := inRange_of_chars ((char.toNat : ℤ) + 1) hrest
      refine ⟨(name, char.toNat) :: l, ?_, List.forall_mem_cons.mpr ⟨hbounds, hrange⟩⟩
      exact congrArg (Option.map ((name, (char.toNat : ℤ)) :: ·)) hl

/-- A literal that passes is an integer or a character that the base accepts. Kind: L -/
theorem accepted_literal {value : Value} (hliteral : value.IsLiteral) {c : Checked}
    (hc : checkValue value = some c) (hcheck : checkOption base c = true) :
    (base.isCharacterType = false ∧ ∃ literal, value = .integerLit literal ∧
      base.Accepts literal.integerLiteralValue) ∨
    (base.isCharacterType = true ∧ ∃ char : UInt32, value = .charLit char ∧
      base.minMax.1 ≤ char.toNat ∧ char.toNat ≤ base.minMax.2) := by
  cases value with
  | integerLit literal =>
      have haccept := (checkOption_iff base literal).mp ⟨c, hc, hcheck⟩
      refine .inl ⟨?_, literal, rfl, haccept⟩
      unfold PrtId.Accepts at haccept
      cases base <;> simp only [PrtId.limit, PrtId.isCharacterType] at haccept ⊢ <;> grind
  | charLit char =>
      obtain rfl := Option.some.inj hc
      have hlt : (char.toNat : ℤ) < 4294967296 := by exact_mod_cast char.toNat_lt
      rw [checkOption, Bool.and_eq_true, decide_eq_true_iff,
        Int.emod_eq_of_lt (by dsimp only; omega) (by dsimp only; omega)] at hcheck
      obtain ⟨htype, hle⟩ := hcheck
      have hchar : base.isCharacterType = true := by
        cases base <;> first | rfl | exact absurd htype Bool.false_ne_true
      refine .inr ⟨hchar, char, rfl, ?_, hle⟩
      cases base <;> exact Int.natCast_nonneg _
  | floatLit value =>
      obtain rfl := Option.some.inj hc
      exact absurd hcheck (by rw [checkOption, isTypeAssignableFrom, Bool.false_and]; decide)
  | boolLit value =>
      obtain rfl := Option.some.inj hc
      exact absurd hcheck (by rw [checkOption, isTypeAssignableFrom, Bool.false_and]; decide)
  | groupExpr expr address => exact hliteral.elim
  | castExpr target expr address => exact hliteral.elim

/-- Literals come through their checks. Kind: L -/
theorem checkValue_literal {value : Value} (h : value.IsLiteral) : checkValue value ≠ none := by
  cases value with
  | integerLit | charLit | floatLit | boolLit => exact Option.some_ne_none _
  | groupExpr expr address => exact h.elim
  | castExpr target expr address => exact h.elim

/-- The passes leave literals where literals are given. Kind: L -/
theorem isLiteral_given : ∀ {options : List (EnumOption ν)} {next : ℤ},
    (∀ option ∈ options, ∀ value ∈ option.value, value.IsLiteral) →
      ∀ option ∈ given next options, option.2.IsLiteral
  | [], _, _ => fun _ h => absurd h List.not_mem_nil
  | ⟨name, none⟩ :: rest, next, h =>
      List.forall_mem_cons.mpr ⟨trivial, isLiteral_given (List.forall_mem_cons.mp h).2⟩
  | ⟨name, some value⟩ :: rest, next, h => by
      obtain ⟨hhead, hrest⟩ := List.forall_mem_cons.mp h
      exact List.forall_mem_cons.mpr ⟨hhead value rfl, isLiteral_given hrest⟩

/-- The passes leave integers exactly where integers are given. Kind: L -/
theorem isInteger_given : ∀ {options : List (EnumOption ν)} {next : ℤ},
    (∀ option ∈ given next options, option.2.IsInteger) ↔
      ∀ option ∈ options, ∀ value ∈ option.value, value.IsInteger
  | [], _ => iff_of_true (fun _ h => absurd h List.not_mem_nil) fun _ h => absurd h List.not_mem_nil
  | ⟨name, none⟩ :: rest, next => by
      rw [given, List.forall_mem_cons, List.forall_mem_cons, isInteger_given]
      exact and_congr_left fun _ => iff_of_true trivial fun _ h => by cases h
  | ⟨name, some value⟩ :: rest, next => by
      rw [given, List.forall_mem_cons, List.forall_mem_cons, isInteger_given]
      refine and_congr_left fun _ => ?_
      simp only [Option.mem_def, Option.some.injEq, forall_eq']

/-- **Literals that are not values in the base type are refused**, unless all are integers for a
`u128`. Kind: L -/
theorem literals_refused_iff (hliteral : ∀ option ∈ options,
    ∀ value ∈ option.value, value.IsLiteral)
    (hrange : ∀ l, spec options = some l → ¬ InRange base l) :
    SomeRefused base 0 options ↔
      (base = .u128 → ∃ option ∈ options, ∃ value ∈ option.value, ¬ value.IsInteger) := by
  have hgiven : ∀ option ∈ given 0 options, option.2.IsLiteral := isLiteral_given hliteral
  have hnot : (∃ option ∈ options, ∃ value ∈ option.value, ¬ value.IsInteger) ↔
      ¬ ∀ option ∈ given 0 options, option.2.IsInteger := by
    rw [isInteger_given]
    push Not
    rfl
  rw [someRefused_iff (by decide), hnot]
  constructor
  · rintro ⟨option, hoption, c, hc, hcheck⟩ rfl hinteger
    have hthis := hinteger option hoption
    revert hc hcheck hthis
    cases option.2 with
    | integerLit literal =>
        intro hc hcheck _
        obtain ⟨c', hc', hcheck'⟩ := (checkOption_iff .u128 literal).mpr (.inr (.inr rfl))
        obtain rfl := Option.some.inj (hc.symm.trans hc')
        exact Bool.false_ne_true (hcheck.symm.trans hcheck')
    | _ => exact fun _ _ h => h.elim
  · intro hbase
    by_contra hall
    have haccepted : ∀ option ∈ given 0 options,
        (base.isCharacterType = false ∧ ∃ literal, option.2 = .integerLit literal ∧
          base.Accepts literal.integerLiteralValue) ∨
        (base.isCharacterType = true ∧ ∃ char : UInt32, option.2 = .charLit char ∧
          base.minMax.1 ≤ char.toNat ∧ char.toNat ≤ base.minMax.2) := by
      intro option hoption
      obtain ⟨c, hc⟩ := Option.ne_none_iff_exists'.mp (checkValue_literal (hgiven option hoption))
      refine accepted_literal (hgiven option hoption) hc ?_
      by_contra hcheck
      exact hall ⟨option, hoption, c, hc, Bool.eq_false_iff.mpr hcheck⟩
    cases hchar : base.isCharacterType with
    | true =>
        obtain ⟨l, hl, hin⟩ := inRange_of_chars 0 fun option hoption => by
          obtain ⟨hint, -⟩ | ⟨-, h⟩ := haccepted option hoption
          · exact absurd (hint.symm.trans hchar) Bool.false_ne_true
          · exact h
        exact hrange l hl hin
    | false =>
        have hints : ∀ option ∈ given 0 options, ∃ literal, option.2 = .integerLit literal ∧
            base.Accepts literal.integerLiteralValue := fun option hoption => by
          obtain ⟨-, h⟩ | ⟨hcharacter, -⟩ := haccepted option hoption
          · exact h
          · exact absurd (hchar.symm.trans hcharacter) Bool.false_ne_true
        have hwide : base ≠ .u128 := fun h => hbase h fun option hoption => by
          obtain ⟨literal, hliteral, -⟩ := hints option hoption
          rw [hliteral]
          trivial
        obtain ⟨l, hl, hin⟩ := inRange_of_integers hwide hints
        exact hrange l hl hin

end Literals

/-! ## The check -/

section Check

variable {base : PrtId} {options : List (EnumOption ν)} {l : List (ν × ℤ)}
  {qsort : List (EnumOptionDecl ν) → List (EnumOptionDecl ν)}

/-- The type has its options as `qsort` leaves them. Kind: L -/
theorem stored_of_perm (hsort : ∀ l, (qsort l).Perm l) {result : List (EnumOptionDecl ν)}
    (hresult : checkEnumDecl qsort base (bindEnumDecl options) = some (some result))
    (hperm : result.Perm (numbered l)) :
    (∃ checked, checkOptions (given 0 options) = some checked ∧
      (checked.all fun option => checkOption base option.2) = true ∧
      (checked.map fun option => (option.1, i64 option.2.value)) = l) ∧
      result = qsort (numbered l) := by
  obtain ⟨checked, hchecked, hif⟩ := checkEnumDecl_eq.mp hresult
  by_cases hall : (checked.all fun option => checkOption base option.2) = true
  · rw [if_pos hall, Option.some.injEq] at hif
    have hl : (checked.map fun option => (option.1, i64 option.2.value)) = l :=
      numbered_perm ((hsort _).symm.trans (hif ▸ hperm))
    exact ⟨⟨checked, hchecked, hall, hl⟩, hl ▸ hif.symm⟩
  · rw [if_neg hall] at hif
    cases hif

/-- Values that are kept are those of the type. Kind: L -/
theorem checkEnumDecl_of_kept (hnumbers : numbers (given 0 options) = some l)
    (hkept : ∀ option ∈ given 0 options, option.2.Kept base) :
    checkEnumDecl qsort base (bindEnumDecl options) = some (some (qsort (numbered l))) := by
  obtain ⟨checked, hchecked, hall, hmap⟩ := (kept_iff hnumbers).mpr hkept
  exact checkEnumDecl_eq.mpr ⟨checked, hchecked, by rw [if_pos hall, hmap]⟩

/-- What a base accepts is small, if it lies in the base and is an `i64`. Kind: L -/
theorem small_of_accepts {x : ℤ} (haccept : base.Accepts x)
    (hbounds : base.minMax.1 ≤ x ∧ x ≤ base.minMax.2) (hlt : x < 9223372036854775808) :
    0 ≤ x ∧ x < base.limit := by
  unfold PrtId.Accepts at haccept
  rcases haccept with h | ⟨rfl, hpos⟩ | rfl
  · exact h
  · exact ⟨hpos, hlt⟩
  · exact ⟨hbounds.1, hlt⟩

/-- **Values in the base type are given and stored** exactly if those that are given are kept, the
others are small, and those before others are counted on from as they are. Kind: L -/
theorem stored_iff (hsort : ∀ l, (qsort l).Perm l) (hspec : spec options = some l)
    (hrange : InRange base l) :
    (numbers (given 0 options) = some l ∧ ∃ result,
        checkEnumDecl qsort base (bindEnumDecl options) = some (some result) ∧
          result.Perm (numbered l)) ↔
      (∀ option ∈ options, ∀ value ∈ option.value, value.Kept base) ∧
      List.Forall₂ (fun option x => option.value = none → 0 ≤ x.2 ∧ x.2 < base.limit) options l ∧
      Exact options := by
  have hlimit : List.Forall₂ (fun option x => option.value = none → 0 ≤ x.2 ∧ x.2 < base.limit)
      options l → Small options l := by
    refine fun h => h.imp fun option x hx hnone => ?_
    exact ⟨(hx hnone).1, (hx hnone).2.trans_le (limit_le base)⟩
  constructor
  · rintro ⟨hnumbers, result, hresult, hperm⟩
    obtain ⟨hstored, -⟩ := stored_of_perm hsort hresult hperm
    obtain ⟨hkept, haccepts⟩ := (kept_given_iff hnumbers).mp ((kept_iff hnumbers).mp hstored)
    have hsmall : List.Forall₂ (fun option x => option.value = none → 0 ≤ x.2 ∧ x.2 < base.limit)
        options l := by
      obtain ⟨hlength, hzip⟩ := List.forall₂_iff_zip.mp haccepts
      refine List.forall₂_iff_zip.mpr ⟨hlength, fun {option x} hmem hnone => ?_⟩
      obtain ⟨haccept, -, hlt⟩ := hzip hmem hnone
      exact small_of_accepts haccept (hrange x (List.of_mem_zip hmem).2) hlt
    exact ⟨hkept, hsmall, ((numbers_given_iff hspec (hlimit hsmall)).mp hnumbers).2⟩
  · rintro ⟨hkept, hsmall, hexact⟩
    have hnumbers : numbers (given 0 options) = some l :=
      (numbers_given_iff hspec (hlimit hsmall)).mpr ⟨fun _ _ _ => rfl, hexact⟩
    have haccepts : List.Forall₂ (fun option x => option.value = none → base.Accepts x.2 ∧
        -9223372036854775808 ≤ x.2 ∧ x.2 < 9223372036854775808) options l := by
      refine hsmall.imp fun option x hx hnone => ?_
      obtain ⟨hlow, hhigh⟩ := hx hnone
      exact ⟨.inl ⟨hlow, hhigh⟩, by omega, hhigh.trans_le (limit_le base)⟩
    exact ⟨hnumbers, _, checkEnumDecl_of_kept hnumbers
      ((kept_given_iff hnumbers).mpr ⟨hkept, haccepts⟩),
      hsort _⟩

/-- **However options are sorted, they come in order** exactly if differences keep their sign in an
`int`. Kind: L -/
theorem sorted_iff :
    (∀ qsort : List (EnumOptionDecl ν) → List (EnumOptionDecl ν),
        Qsort.Sorts compareEnumOptionsByValue qsort →
          (qsort (numbered l)).Pairwise fun x y => x.value ≤ y.value) ↔
      ∀ x ∈ l, ∀ y ∈ l, x.2 < y.2 →
        0 < (y.2 - x.2) % 4294967296 ∧ (y.2 - x.2) % 4294967296 < 2147483648 := by
  rw [Qsort.sorts_key_iff fun x y => compare_self (x := x) (y := y)]
  constructor
  · intro h x hx y hy hlt
    obtain ⟨x', hx', hxvalue⟩ := exists_numbered hx
    obtain ⟨y', hy', hyvalue⟩ := exists_numbered hy
    rw [← hxvalue, ← hyvalue] at hlt ⊢
    exact compare_iff.mp (h x' hx' y' hy' hlt)
  · intro h x hx y hy hlt
    exact compare_iff.mpr (h _ (mem_numbered hx) _ (mem_numbered hy) hlt)

end Check

end CxyCompiler.Middle.EnumValues
