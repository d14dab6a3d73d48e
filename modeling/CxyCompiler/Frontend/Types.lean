import CxyCompiler.Core.Hash

/-!
# Types and their comparison (`frontend/types.h`, `frontend/ttable.c`)

A type lives at an address of a heap and refers to other types by address; names are addresses of
pooled strings. The heap is explicit because the table compares by address before it compares by
content, and because some of its operations update types in place.

* `Ty`, `Body`, `Heap` — the fields of `Type` that the functions below read.
* `unwrapType`, `resolveType`, `isClassType`, `isStructType` — the helpers.
* `hashType`, `compareTypes` — the two recursions over types, each written as one layer
  (`hashBody`, `compareBody`) with the recursive call as a parameter.

Every recursion takes fuel; `none` is a call that does not return: a cyclic type, a read through
`NULL`, a failed assertion, or `unreachable`.
-/

namespace CxyCompiler.Frontend

open CxyCompiler.Core

/-! ## Flags -/

/-- Source: `flag.h` `Flags`. -/
abbrev Flags := UInt64

/-- Source: `flag.h` `BIT`. -/
def bit (n : UInt64) : Flags := 1 <<< n

def flgNone : Flags := 0
def flgConst : Flags := bit 8
def flgClosure : Flags := bit 12
def flgFuncTypeParam : Flags := bit 15
def flgForwardDecl : Flags := bit 20
def flgExtern : Flags := bit 37
def flgOptional : Flags := bit 41
def flgReferenceMembers : Flags := bit 43
def flgSlice : Flags := bit 45
def flgAnonymous : Flags := bit 59

/-- The flags that are part of a type. Source: `flag.h` `flgTypeApplicable`. -/
def flgTypeApplicable : Flags :=
  flgExtern ||| flgConst ||| flgOptional ||| flgClosure ||| flgSlice ||| flgFuncTypeParam |||
    flgReferenceMembers ||| flgAnonymous

theorem UInt64.or_and_right (x y z : UInt64) : (x ||| y) &&& z = (x &&& z) ||| (y &&& z) :=
  UInt64.toBitVec_inj.1 BitVec.and_or_distrib_right

/-! ## The heap -/

/-- The address of a type. -/
abbrev Addr := ℕ

/-- The address of a string or of a syntax node. -/
abbrev Ptr := UInt64

/-- Source: `types.h` `TTag`. -/
inductive TTag where
  | error | container | literal | auto | void | null | info | this | primitive | string | pointer
  | reference | optional | array | map | alias | union | untaggedUnion | opaqueType | tuple | func
  | enum | module | struct | «class» | interface | generic | applied | wrapped | exception | result
  deriving DecidableEq, Repr

/-- The number of a tag in the enumeration of the source. -/
def TTag.code (t : TTag) : ℕ := t.ctorIdx

/-- The value of a literal type: the literals, and the expressions around a literal that
`isLiteralExpr` accepts. -/
inductive Lit where
  | integer (isNegative : Bool) (uValue : BitVec 128)
  | bool (value : Bool)
  | char (value : UInt32)
  | float (bits : UInt64)
  | string (value : Ptr)
  | null
  | typed (expr : Lit)
  | cast (expr : Lit)
  | group (expr : Lit)
  | unary (operand : Lit)
  | enumLit
  deriving DecidableEq

/-- What `nodeIs` asks of the declaration of a member. -/
inductive MemberDecl where
  | fieldDecl | fieldExpr | other
  deriving DecidableEq, Repr

/-- Source: `types.h` `NamedTypeMember`. -/
structure Member where
  name : Ptr
  type : Addr
  decl : MemberDecl
  deriving DecidableEq

/-- The part of a function declaration that types read. -/
structure FuncDecl where
  parentScope : Option Ptr
  deriving DecidableEq

/-- The variants of a type. A child that the source may leave `NULL` is an `Option`; the members
of a struct are its `sortedMembers`, and the declaration of an opaque type is the type recorded in
it. Source: `types.h` `Type`. -/
inductive Body where
  | error
  | container
  | literal (value : Lit)
  | auto
  | void
  | null
  | info (target : Addr)
  | this (that : Option Addr)
  | primitive (id : UInt32)
  | string
  | pointer (pointed : Addr) (isAllocated : Bool)
  | reference (referred : Addr)
  | optional (target : Addr)
  | array (len : UInt64) (elementType : Addr)
  | map (key value : Addr)
  | alias (aliased : Option Addr)
  | union (members : List Addr)
  | untaggedUnion
  | opaqueType (decl : Option (Option Addr))
  | tuple (members : List Addr)
  | func (params : List Addr) (retType : Addr) (decl : Option FuncDecl)
  | enum
  | module (path : Ptr)
  | struct (members : Option (List Member))
  | «class»
  | interface
  | generic (paramsCount : UInt64) (decl : Ptr)
  | applied (src : Addr) (args : List Addr)
  | wrapped (target : Addr)
  | exception (decl : Ptr)
  | result (target : Addr)
  deriving DecidableEq

def Body.tag : Body → TTag
  | .error => .error
  | .container => .container
  | .literal _ => .literal
  | .auto => .auto
  | .void => .void
  | .null => .null
  | .info _ => .info
  | .this _ => .this
  | .primitive _ => .primitive
  | .string => .string
  | .pointer _ _ => .pointer
  | .reference _ => .reference
  | .optional _ => .optional
  | .array _ _ => .array
  | .map _ _ => .map
  | .alias _ => .alias
  | .union _ => .union
  | .untaggedUnion => .untaggedUnion
  | .opaqueType _ => .opaqueType
  | .tuple _ => .tuple
  | .func _ _ _ => .func
  | .enum => .enum
  | .module _ => .module
  | .struct _ => .struct
  | .class => .class
  | .interface => .interface
  | .generic _ _ => .generic
  | .applied _ _ => .applied
  | .wrapped _ => .wrapped
  | .exception _ => .exception
  | .result _ => .result

/-- Source: `types.h` `Type`. -/
structure Ty where
  flags : Flags
  index : ℕ
  name : Option Ptr
  ns : Option Ptr
  body : Body
  deriving DecidableEq

def Ty.tag (t : Ty) : TTag := t.body.tag

/-- Source: `flag.h` `hasFlag`. -/
def hasFlag (t : Ty) (flag : Flags) : Bool := t.flags &&& flag != 0

/-- The types and the strings in memory. -/
structure Heap where
  types : Addr → Ty
  strings : Ptr → List UInt8

/-! ## Wrappers, aliases and the class test -/

/-- The loop of `unwrapType`; `tmp` are the flags collected so far.
Source: `ttable.c` `unwrapType`. -/
def unwrapLoop (h : Heap) : ℕ → Flags → Addr → Option (Addr × Flags)
  | 0, _, _ => none
  | fuel + 1, tmp, a =>
      match (h.types a).body with
      | .wrapped target => unwrapLoop h fuel (tmp ||| (h.types a).flags) target
      | _ => some (a, (tmp ||| (h.types a).flags) &&& flgTypeApplicable)

/-- Source: `ttable.c` `unwrapType`. -/
def unwrapType (h : Heap) (fuel : ℕ) (a : Addr) : Option (Addr × Flags) :=
  unwrapLoop h fuel flgNone a

/-- A resolved type is not resolved again, so a round of the loop is one recursive call.
Source: `ttable.c` `resolveType`. -/
def resolveType (h : Heap) : ℕ → Option Addr → Option (Option Addr)
  | _, none => some none
  | 0, some _ => none
  | fuel + 1, some a =>
      match (h.types a).body with
      | .alias aliased => resolveType h fuel aliased
      | .info target => resolveType h fuel (some target)
      | .opaqueType decl =>
          if hasFlag (h.types a) flgForwardDecl then do
            let type ← decl
            let resolved ← resolveType h fuel type
            some (resolved.or (some a))
          else some (some a)
      | _ => some (some a)

/-- A type with this tag, or a `This` type of one. -/
def isOrThisIs (h : Heap) (tag : TTag) (a : Addr) : Bool :=
  match (h.types a).body with
  | .this (some that) => (h.types that).tag == tag
  | _ => (h.types a).tag == tag

/-- Source: `types.c` `isClassType`. -/
def isClassType (h : Heap) (fuel : ℕ) (a : Addr) : Option Bool := do
  match ← resolveType h fuel (some a) with
  | none => some false
  | some resolved => do
      let (type, _) ← unwrapType h fuel resolved
      some (isOrThisIs h .class type)

/-- Source: `types.c` `isStructType`. -/
def isStructType (h : Heap) (fuel : ℕ) (a : Addr) : Option Bool := do
  let (type, _) ← unwrapType h fuel a
  some (isOrThisIs h .struct type)

/-- Source: `types.h` `isClassOrStructType`. -/
def isClassOrStructType (h : Heap) (fuel : ℕ) (a : Addr) : Option Bool := do
  if ← isClassType h fuel a then some true else isStructType h fuel a

/-! ## Hashing -/

/-- The flags that go into a hash; none do for classes and structs. -/
def hashedFlags (h : Heap) (fuel : ℕ) (a : Addr) : Option (Option Flags) :=
  (isClassOrStructType h fuel a).map fun classOrStruct =>
    if classOrStruct then none else some ((h.types a).flags &&& flgTypeApplicable)

/-- Source: `ttable.c` `hashTypes`, `hashUnionMembers`. -/
def hashTypes (h : Heap) (hash : HashCode) (types : List Addr) : HashCode :=
  types.foldl (fun hash a => hashUint64 hash (UInt64.ofNat (h.types a).tag.code)) hash

/-- Source: `ttable.c` `hashAstNode`. -/
def hashAstNode (h : Heap) (hash : HashCode) : Lit → Option HashCode
  | .integer _ uValue => some (hashUint128 hash uValue)
  | .bool value => some (hashUint8 hash (if value then 1 else 0))
  | .char value => some (hashUint32 hash value)
  | .float bits => some (hashUint64 hash bits)
  | .string value => some (hashStr hash (h.strings value))
  | .null => some hash
  | .typed expr => hashAstNode h hash expr
  | .cast expr => hashAstNode h hash expr
  | .group expr => hashAstNode h hash expr
  | .unary operand => hashAstNode h hash operand
  | .enumLit => none

/-- A name that must be there. -/
def hashName (h : Heap) (hash : HashCode) (name : Option Ptr) : Option HashCode :=
  name.map fun name => hashStr hash (h.strings name)

/-- A name that may be `NULL`. -/
def hashNameIfAny (h : Heap) (hash : HashCode) : Option Ptr → HashCode
  | some name => hashStr hash (h.strings name)
  | none => hash

/-- The members of an anonymous struct that go into its hash. -/
def isHashedMember (m : Member) : Bool := m.decl == .fieldDecl || m.decl == .fieldExpr

/-- The part of `hashType` after the tag and the flags.
Source: `ttable.c` `hashType`. -/
def hashBody (h : Heap) (rec : HashCode → Addr → Option HashCode) (t : Ty) (hash : HashCode) :
    Option HashCode :=
  match t.body with
  | .auto | .null | .void | .error | .this _ | .string => some hash
  | .literal value => hashAstNode h hash value
  | .primitive id => some (hashUint32 hash id)
  | .pointer pointed isAllocated => rec (hashUint8 hash (if isAllocated then 1 else 0)) pointed
  | .reference referred => rec hash referred
  | .array len elementType => do
      let hash ← rec hash elementType
      some (hashUint64 hash len)
  | .map key value => do
      let hash ← rec hash key
      rec hash value
  | .alias aliased =>
      if hasFlag t flgExtern then hashName h hash t.name
      else do
        let aliased ← aliased
        rec hash aliased
  | .untaggedUnion | .opaqueType _ | .container => hashName h hash t.name
  | .optional target | .info target | .wrapped target => rec hash target
  | .union members | .tuple members => some (hashTypes h hash members)
  | .func params retType _ => rec (hashTypes h (hashNameIfAny h hash t.name) params) retType
  | .struct members =>
      if hasFlag t flgAnonymous then do
        let members ← members
        (members.filter isHashedMember).foldlM
          (fun hash m => rec (hashStr hash (h.strings m.name)) m.type) hash
      else some (hashNameIfAny h (hashNameIfAny h hash t.name) t.ns)
  | .enum | .module _ => some (hashNameIfAny h (hashNameIfAny h hash t.name) t.ns)
  | .generic paramsCount decl =>
      some (hashNameIfAny h (hashPtr (hashUint64 hash paramsCount) decl) t.name)
  | .applied src args => do
      let hash ← rec hash src
      some (hashTypes h hash args)
  | .exception decl => some (hashPtr hash decl)
  | .result target => rec hash target
  -- `csAssert0("invalid type")` asserts a string literal, which never fails
  | .interface | .class => some hash

/-- Source: `ttable.c` `hashType`. -/
def hashType (h : Heap) : ℕ → HashCode → Addr → Option HashCode
  | 0, _, _ => none
  | fuel + 1, hash, a => do
      let t := h.types a
      let hash := hashUint32 hash (UInt32.ofNat t.tag.code)
      match ← hashedFlags h (fuel + 1) a with
      | none => hashBody h (hashType h fuel) t hash
      | some flags => hashBody h (hashType h fuel) t (hashUint64 hash flags)

/-! ## Comparison -/

/-- `&&` on calls that may not return. -/
def andThen (a : Option Bool) (b : Unit → Option Bool) : Option Bool := do
  if ← a then b () else some false

/-- Source: `ttable.c` `compareManyTypes`, `compareUnionMembers`, called with equal counts. -/
def compareManyTypes (rec : Addr → Addr → Option Bool) : List Addr → List Addr → Option Bool
  | l :: ls, r :: rs => andThen (rec l r) fun _ => compareManyTypes rec ls rs
  | _, _ => some true

/-- `==` on two floating-point values given by their bits: no value equals a NaN, and the two zeros
are equal. -/
def floatEq (a b : UInt64) : Bool :=
  let isNaN (x : UInt64) : Bool := x &&& 0x7fffffffffffffff > 0x7ff0000000000000
  let isZero (x : UInt64) : Bool := x &&& 0x7fffffffffffffff == 0
  !isNaN a && !isNaN b && (a == b || (isZero a && isZero b))

/-- Source: `ttable.c` `compareAstNodes`. -/
def compareAstNodes (lhs rhs : Lit) : Option Bool :=
  match lhs with
  | .null => match rhs with
      | .null => some true
      | _ => some false
  | .char a => match rhs with
      | .char b => some (a == b)
      | _ => some false
  | .bool a => match rhs with
      | .bool b => some (a == b)
      | _ => some false
  | .integer negA a => match rhs with
      | .integer negB b => some (negA == negB && a == b)
      | _ => some false
  | .float a => match rhs with
      | .float b => some (floatEq a b)
      | _ => some false
  | .string a => match rhs with
      | .string b => some (a == b)
      | _ => some false
  -- literals of one of these kinds fail the assertion of the source
  | .typed _ => match rhs with
      | .typed _ => none
      | _ => some false
  | .cast _ => match rhs with
      | .cast _ => none
      | _ => some false
  | .group _ => match rhs with
      | .group _ => none
      | _ => some false
  | .unary _ => match rhs with
      | .unary _ => none
      | _ => some false
  | .enumLit => match rhs with
      | .enumLit => none
      | _ => some false

/-- The scopes of two function declarations, where both are known, are one scope. -/
def sameScope (left right : Option FuncDecl) : Bool :=
  match left.bind (·.parentScope), right.bind (·.parentScope) with
  | some l, some r => l == r
  | _, _ => true

/-- The loop over the fields of two anonymous structs, up to the end of the shorter one. -/
def compareFields (rec : Addr → Addr → Option Bool) : List Member → List Member → Option Bool
  | l :: ls, r :: rs =>
      if l.name ≠ r.name then some false
      else andThen (rec l.type r.type) fun _ => compareFields rec ls rs
  | _, _ => some true

/-- The branch of `compareTypes` for two anonymous structs. The counts are `u64`; the loop skips
what is not a `FieldDecl` on the left and what is neither a `FieldDecl` nor a `FieldExpr` on the
right. Source: `ttable.c` `compareTypes`. -/
def compareAnonymousStructs (rec : Addr → Addr → Option Bool) (membersL membersR : List Member) :
    Option Bool :=
  if UInt64.ofNat membersL.length - 3 ≠ UInt64.ofNat membersR.length then some false
  else compareFields rec (membersL.filter (·.decl == .fieldDecl)) (membersR.filter isHashedMember)

/-- The switch of `compareTypes`. It is reached with two types of one tag; for two tags the model
returns nothing. Source: `ttable.c` `compareTypes`. -/
def compareBody (rec : Addr → Addr → Option Bool) (left right : Ty) : Option Bool :=
  match left.body with
  | .auto => do
      let .auto := right.body | none
      some true
  | .error => do
      let .error := right.body | none
      some true
  | .void => do
      let .void := right.body | none
      some true
  | .null => do
      let .null := right.body | none
      some true
  | .literal a => do
      let .literal b := right.body | none
      compareAstNodes a b
  | .primitive a => do
      let .primitive b := right.body | none
      some (a == b)
  | .pointer a allocA => do
      let .pointer b allocB := right.body | none
      andThen (rec a b) fun _ => some (allocA == allocB)
  | .reference a => do
      let .reference b := right.body | none
      rec a b
  | .array lenA a => do
      let .array lenB b := right.body | none
      if lenA = lenB then rec a b else some false
  | .map keyA valueA => do
      let .map keyB valueB := right.body | none
      andThen (rec keyA keyB) fun _ => rec valueA valueB
  | .alias a => do
      let .alias b := right.body | none
      if hasFlag left flgExtern then some (left.name == right.name)
      else do
        let a ← a
        let b ← b
        rec a b
  | .optional a => do
      let .optional b := right.body | none
      rec a b
  | .untaggedUnion => do
      let .untaggedUnion := right.body | none
      some (left.name == right.name)
  | .opaqueType _ => do
      let .opaqueType _ := right.body | none
      some (left.name == right.name)
  | .this a => do
      let .this b := right.body | none
      some (a.isSome && a == b)
  | .tuple a => do
      let .tuple b := right.body | none
      if a.length = b.length then compareManyTypes rec a b else some false
  | .union a => do
      let .union b := right.body | none
      if a.length = b.length then compareManyTypes rec a b else some false
  | .func paramsA retA declA => do
      let .func paramsB retB declB := right.body | none
      if left.name ≠ right.name then some false
      else if left.name.isSome && !sameScope declA declB then some false
      else if paramsA.length = paramsB.length then
        andThen (rec retA retB) fun _ => compareManyTypes rec paramsA paramsB
      else some false
  | .applied srcA argsA => do
      let .applied srcB argsB := right.body | none
      andThen (rec srcA srcB) fun _ =>
        if argsA.length = argsB.length then compareManyTypes rec argsA argsB else some false
  | .string => do
      let .string := right.body | none
      some true
  | .module a => do
      let .module b := right.body | none
      some (a == b)
  | .struct membersA => do
      let .struct membersB := right.body | none
      if hasFlag left flgAnonymous && hasFlag right flgAnonymous then do
        let membersA ← membersA
        let membersB ← membersB
        compareAnonymousStructs rec membersA membersB
      else some (left.name == right.name && left.ns == right.ns)
  | .class => do
      let .class := right.body | none
      some (left.name == right.name && left.ns == right.ns)
  | .enum => do
      let .enum := right.body | none
      some (left.name == right.name && left.ns == right.ns)
  | .interface => do
      let .interface := right.body | none
      some (left.name == right.name && left.ns == right.ns)
  | .generic _ declA => do
      let .generic _ declB := right.body | none
      some (left.name == right.name && left.ns == right.ns && declA == declB)
  | .info a => do
      let .info b := right.body | none
      rec a b
  | .exception a => do
      let .exception b := right.body | none
      some (a == b)
  | .result a => do
      let .result b := right.body | none
      rec a b
  | .container | .wrapped _ => none

/-- Source: `ttable.c` `compareTypes`. -/
def compareTypes (h : Heap) : ℕ → Addr → Addr → Option Bool
  | 0, _, _ => none
  | fuel + 1, lhs, rhs => do
      let (left, lhsFlags) ← unwrapType h (fuel + 1) lhs
      let (right, rhsFlags) ← unwrapType h (fuel + 1) rhs
      if left = right then some (lhsFlags == rhsFlags)
      else if (h.types left).tag ≠ (h.types right).tag || lhsFlags ≠ rhsFlags then some false
      else compareBody (compareTypes h fuel) (h.types left) (h.types right)

end CxyCompiler.Frontend
