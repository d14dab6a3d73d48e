import CxyCompiler.Core.Utf8Decode
import CxyCompiler.Frontend.Compare
import Mathlib.Data.Nat.Digits.Lemmas

/-!
# Mangled names (`middle/mangle.c`)

The code of a type is written without separators; a mangled name is the base name, a marker, the
codes of the types and `E`.

* `decimal`, `signedDecimal` — how numbers are printed.
* `mangleAstNode`, `mangleType` — the code of a literal and of a type.
* `makeMangledName` — the whole name, cut at the first NUL as every C string.
-/

namespace CxyCompiler.Middle.Mangle

open CxyCompiler.Frontend

def byte (c : Char) : UInt8 := UInt8.ofNat c.toNat

def bytes (s : List Char) : List UInt8 := s.map byte

/-- What C reads of a string. -/
def cstr (s : List UInt8) : List UInt8 := s.takeWhile (· != 0)

/-- A string without NUL. -/
structure CString where
  data : List UInt8
  noNul : (0 : UInt8) ∉ data
  deriving DecidableEq

/-- Source: `format.c` `formatArg`. -/
def decimal (n : ℕ) : List UInt8 :=
  (if n = 0 then [0] else (Nat.digits 10 n).reverse).map fun d => UInt8.ofNat (48 + d)

/-- Source: `utils.c` `formati128`. -/
def signedDecimal (z : ℤ) : List UInt8 :=
  if z < 0 then byte '-' :: decimal z.natAbs else decimal z.natAbs

/-- The index of a float or a string goes through a 32-bit field of the argument.
Source: `mangle.c` `mangleAstNode`. -/
def mangleAstNode (idx : ℕ) : Lit → Option (List UInt8)
  | .null => some (bytes ['L', 'n', '_'])
  | .bool value => some (bytes ['L', 'b', '_'] ++
      bytes (if value then ['t', 'r', 'u', 'e'] else ['f', 'a', 'l', 's', 'e']))
  | .char value => (Core.printUtf8 value false).map fun s => bytes ['L', 'c', '_'] ++ s
  | .integer isNegative uValue => some <|
      if isNegative then bytes ['L', 'i', '_'] ++ signedDecimal uValue.toInt
      else bytes ['L', 'u', '_'] ++ decimal uValue.toNat
  | .float _ => some (bytes ['L', 'f', '_'] ++ decimal (idx % 2 ^ 32))
  | .string _ => some (bytes ['L', 's', '_'] ++ decimal (idx % 2 ^ 32))
  | .typed _ | .cast _ | .group _ | .unary _ | .enumLit => none

/-- The names of the integers and floats, the first letters of the other primitive types.
Source: `types.h` `PRIM_TYPE_LIST`. -/
def primitiveNames : List (List Char) :=
  [['b'], ['w'], ['c'], ['u', '8'], ['u', '1', '6'], ['u', '3', '2'], ['u', '6', '4'],
    ['u', '1', '2', '8'], ['i', '8'], ['i', '1', '6'], ['i', '3', '2'], ['i', '6', '4'],
    ['i', '1', '2', '8'], ['f', '3', '2'], ['f', '6', '4']]

/-- Source: `mangle.c` `mangleType`, the case of a primitive type. -/
def primitiveCode (id : UInt32) : Option (List Char) := primitiveNames[id.toNat]?

/-- The namespace and the name of a type. -/
def qualified (h : Heap) (t : Ty) : List UInt8 :=
  ((t.ns.map fun s => cstr (h.strings s)).getD []) ++
    ((t.name.map fun s => cstr (h.strings s)).getD [])

/-- The codes of a list of types. -/
def mangleTypes (rec : Addr → Option (List UInt8)) : List Addr → Option (List UInt8)
  | [] => some []
  | a :: as => do
      let code ← rec a
      let codes ← mangleTypes rec as
      some (code ++ codes)

/-- Source: `mangle.c` `mangleType`, the switch. -/
def mangleBody (h : Heap) (rec : Addr → Option (List UInt8)) (t : Ty) : Option (List UInt8) :=
  match t.body with
  | .primitive id => (primitiveCode id).map bytes
  | .string => some [byte 's']
  | .array len elementType => do
      let code ← rec elementType
      some (byte 'A' :: decimal len.toNat ++ code)
  | .tuple members => do
      let codes ← mangleTypes rec members
      some (byte 'T' :: codes ++ [byte '_'])
  | .union members =>
      if members.length > 3 then some (byte 'U' :: decimal t.index ++ [byte '_'])
      else do
        let codes ← mangleTypes rec members
        some (byte 'U' :: byte '_' :: codes ++ [byte '_'])
  | .func params retType _ => do
      let codes ← mangleTypes rec params
      let code ← rec retType
      some (byte 'F' :: codes ++ code ++ [byte '_'])
  | .pointer pointed _ => do
      let code ← rec pointed
      some (byte 'P' :: code)
  | .reference referred => do
      let code ← rec referred
      some (byte 'R' :: code)
  | .literal value => mangleAstNode t.index value
  | _ => some (byte 'Z' :: qualified h t ++ [byte '_'])

/-- Source: `mangle.c` `mangleType`. -/
def mangleType (h : Heap) : ℕ → Addr → Option (List UInt8)
  | 0, _ => none
  | fuel + 1, a => do
      let (x, flags) ← unwrapType h (fuel + 1) a
      let y ← (← resolveType h (fuel + 1) (some x))
      let code ← mangleBody h (mangleType h fuel) (h.types y)
      some (if flags &&& flgConst = 0 then code else byte 'c' :: code)

/-- The base name with its marker. -/
def marked (name : CString) (isConst : Bool) : List UInt8 :=
  name.data ++ bytes (if isConst then ['I', 'c', '_'] else ['I', '_'])

/-- Source: `mangle.c` `makeMangledName`. -/
def makeMangledName (h : Heap) (fuel : ℕ) (name : CString) (types : List Addr) (isConst : Bool) :
    Option (List UInt8) := do
  let codes ← mangleTypes (mangleType h fuel) types
  some (cstr (marked name isConst ++ codes ++ [byte 'E']))

end CxyCompiler.Middle.Mangle
