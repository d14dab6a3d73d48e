import CxyCompiler.Core.Utils

/-!
# Virtual tables (`middle/sema/inheritance.c`, `class.c`, `middle/simplify/simplify.c`)

A class is a list of members, an inheritance chain a list of classes with the base of each after it.
A table is the list of the fields of its struct, each with the value it is initialised with; a class
of the chain is named by the number of classes above it.

* `inheritanceBuildVTableType` — the table of a class that declares virtual functions.
* `inheritanceBuildVTable` — the table of a class that only overrides those of its base.
* `virtualDispatch` — the function that a call through the table of a static class reaches.
* `ChainOk` — what the tables of a chain are for.
-/

namespace CxyCompiler.Middle.Inheritance

open CxyCompiler.Core

section

variable {N S : Type} [LinearOrder N]

/-- A member function. Only a virtual one may have no body.
Source: `parser.c` `funcDecl`. -/
structure Func (N S : Type) where
  name : N
  signature : S
  isVirtual : Bool
  hasBody : Bool
  abstract_virtual : hasBody = true ∨ isVirtual = true
  deriving DecidableEq

inductive Member (N S : Type) where
  | func (f : Func N S)
  | field (name : N)
  deriving DecidableEq

def Member.name : Member N S → N
  | .func f => f.name
  | .field name => name

/-- The members of a class type. -/
structure Class (N S : Type) where
  members : List (Member N S)

def Member.func? : Member N S → Option (Func N S)
  | .func f => some f
  | .field _ => none

def Class.functions (c : Class N S) : List (Func N S) := c.members.filterMap Member.func?

/-- The flag that a class takes from its member functions.
Source: `class.c` `evalClassMembers`. -/
def Class.isVirtual (c : Class N S) : Bool := c.functions.any (·.isVirtual)

/-- The value of a field of a table: the number of a class, a function of a class, null, or the
declaration of a field, taken for that of a function. -/
inductive Value (N S : Type) where
  | tid (cls : ℕ)
  | func (cls : ℕ) (f : Func N S)
  | null
  | field
  deriving DecidableEq

/-- A field of a table; that of `__tid` has no function type. -/
structure Slot (N S : Type) where
  name : N
  type : Option S
  value : Value N S
  deriving DecidableEq

/-- The fields of the struct and those of its initialiser, which always have the same names. -/
abbrev VTable (N S : Type) := List (Slot N S)

variable (Q : Qsort N)

/-- Source: `types.c` `findMemberDeclInType`. -/
def findMemberDeclInType (c : Class N S) (name : N) : Option (Member N S) :=
  findByKey Q Member.name c.members name

/-- Source: `inheritance.c` `vTableMembersFind`. -/
def vTableMembersFind (members : VTable N S) (name : N) : Option (Slot N S) :=
  members.find? fun s => decide (s.name = name)

/-- A function of the class replaces that of its base, whatever its signature.
Source: `inheritance.c` `inheritanceChainBuildVTableType`. -/
def overrideSlot (cls : ℕ) (node : Class N S) (s : Slot N S) : Slot N S :=
  match findMemberDeclInType Q node s.name with
  | some (.func f) => { s with value := .func cls f }
  | _ => s

/-- Source: `inheritance.c` `inheritanceChainBuildVTableType`, the loop over the members. -/
def insertSlot (cls : ℕ) (t : VTable N S) (member : Member N S) : VTable N S :=
  match member with
  | .field _ => t
  | .func f =>
      if f.isVirtual = true ∧ vTableMembersFind t f.name = none then
        t ++ [⟨f.name, some f.signature, if f.hasBody then .func cls f else .null⟩]
      else t

/-- Source: `inheritance.c` `inheritanceChainBuildVTableType`. -/
def inheritanceChainBuildVTableType : List (Class N S) → VTable N S → VTable N S
  | [], t => t
  | [node], t => if node.isVirtual then node.members.foldl (insertSlot 0) t else t
  | node :: base :: bases, t =>
      let t := (inheritanceChainBuildVTableType (base :: bases) t).map
        (overrideSlot Q (bases.length + 1) node)
      if node.isVirtual then node.members.foldl (insertSlot (bases.length + 1)) t else t

variable (tid : N)

/-- Source: `inheritance.c` `inheritanceBuildVTableType`. -/
def inheritanceBuildVTableType (chain : List (Class N S)) : VTable N S :=
  inheritanceChainBuildVTableType Q chain [⟨tid, none, .tid (chain.length - 1)⟩]

/-- Source: `inheritance.c` `inheritanceBuildVTable`, the loop. -/
def copySlot (cls : ℕ) (node : Class N S) (s : Slot N S) : Slot N S :=
  match findMemberDeclInType Q node s.name with
  | some (.func f) => { s with value := if f.hasBody then .func cls f else .null }
  | some (.field _) => { s with value := .field }
  | none => s

/-- Source: `inheritance.c` `inheritanceBuildVTable`. -/
def inheritanceBuildVTable (node : Class N S) (bases : List (Class N S)) : VTable N S :=
  match inheritanceBuildVTableType Q tid bases with
  | [] => []
  | _ :: fields => ⟨tid, none, .tid bases.length⟩ :: fields.map (copySlot Q bases.length node)

/-- The table that objects of the last class of a chain carry. A class whose own functions are not
virtual looks at its base only. Source: `class.c` `checkClassDecl`. -/
def vTable : List (Class N S) → Option (VTable N S)
  | [] => none
  | node :: bases =>
      if node.isVirtual then some (inheritanceBuildVTableType Q tid (node :: bases))
      else
        match bases with
        | [] => none
        | base :: _ => if base.isVirtual then some (inheritanceBuildVTable Q tid node bases)
            else none

/-- A call through the field of the static class's table that has the name, on an object of another
class. Source: `simplify.c` `virtualDispatch`. -/
def virtualDispatch (static object : List (Class N S)) (name : N) : Option (Value N S) := do
  let type ← vTable Q tid static
  let field ← findByKey Q (fun s => s.1.name) type.zipIdx name
  let table ← vTable Q tid object
  let slot ← table[field.2]?
  some slot.value

/-! ## What the tables are for -/

/-- The names and types of the fields. -/
def slots (t : VTable N S) : List (N × Option S) := t.map fun s => (s.name, s.type)

/-- An overriding function has the name and the signature. -/
def Same (g f : Func N S) : Prop := g.name = f.name ∧ g.signature = f.signature

def Declares (c : Class N S) (f : Func N S) : Prop := ∃ g ∈ c.functions, Same g f

/-- The value is the function of the nearest class that declares `f`; where that has no body, it is
no function of another signature. -/
def Reaches (chain : List (Class N S)) (f : Func N S) (v : Value N S) : Prop :=
  ∃ (above : List (Class N S)) (c : Class N S) (below : List (Class N S)) (g : Func N S),
    chain = above ++ c :: below ∧ (∀ d ∈ above, ¬ Declares d f) ∧ g ∈ c.functions ∧
    Same g f ∧ (v = .func below.length g ∨
      g.hasBody = false ∧ (v = .null ∨ ∃ k g', v = .func k g' ∧ Same g' f))

/-- **The table of the last class of a chain.** -/
structure ClassOk (chain : List (Class N S)) : Prop where
  extends_base : ∀ node bases, chain = node :: bases →
    slots ((vTable Q tid bases).getD []) <+: slots ((vTable Q tid chain).getD [])
  has_slot : ∀ c ∈ chain, ∀ f ∈ c.functions, f.isVirtual = true →
    (f.name, some f.signature) ∈ slots ((vTable Q tid chain).getD [])
  dispatches : ∀ above c below, chain = above ++ c :: below → c.isVirtual = true →
    ∀ d ∈ c :: below, ∀ f ∈ d.functions, f.isVirtual = true →
      ∃ v, virtualDispatch Q tid (c :: below) chain f.name = some v ∧ Reaches chain f v

/-- **The tables of all classes of a chain.** -/
def ChainOk (chain : List (Class N S)) : Prop :=
  ∀ above below, chain = above ++ below → ClassOk Q tid below

/-! ## When they are right -/

/-- What a class may declare under the name of a virtual function of its bases: the member that is
found by the name is a function of the signature. A field may be found only in a class that declares
virtual functions itself, and then it must hide no implementation. -/
def Overrides (node : Class N S) (f : Func N S) : Prop :=
  match findMemberDeclInType Q node f.name with
  | none => True
  | some (.func g) => g.signature = f.signature
  | some (.field _) => node.isVirtual = true ∧
      (Declares node f → ∃ g ∈ node.functions, Same g f ∧ g.hasBody = false)

/-- **No level is skipped, no two virtual functions of the chain share a name but not the signature,
none is named `__tid`, and what overrides one has its signature.** -/
def Consistent : List (Class N S) → Prop
  | [] => True
  | node :: bases =>
      (node.isVirtual = true ∨ (∃ base ∈ bases.head?, base.isVirtual = true) ∨
        ∀ c ∈ node :: bases, c.isVirtual = false) ∧
      (∀ f ∈ node.functions, f.isVirtual = true → f.name ≠ tid ∧
        ∀ c ∈ node :: bases, ∀ g ∈ c.functions, g.isVirtual = true → g.name = f.name →
          g.signature = f.signature) ∧
      (∀ c ∈ bases, ∀ f ∈ c.functions, f.isVirtual = true → Overrides Q node f) ∧
      Consistent bases

end

end CxyCompiler.Middle.Inheritance
