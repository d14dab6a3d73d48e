import Mathlib.Logic.Function.Basic
import Mathlib.Data.List.Basic

/-!
# The lists of coroutines (`stdlib/list.cxy`)

A coroutine is linked into a list through a field of its own, and there is one such field: a
coroutine that is in a list cannot be in another one.

`push` and `pop` are the operations of a list, with the links of all coroutines.
-/

namespace CxyCompiler.Stdlib.CoroutineList

open Function

variable {ι : Type}

/-- Source: `list.cxy` `List`. -/
structure Queue (ι : Type) where
  head : Option ι
  tail : Option ι
  deriving DecidableEq

def empty : Queue ι := ⟨none, none⟩

variable [DecidableEq ι]

/-- An item with a link fails the assertion. Source: `list.cxy` `List.push`. -/
def push (link : ι → Option ι) (q : Queue ι) (item : ι) : Option ((ι → Option ι) × Queue ι) :=
  if (link item).isSome then none
  else
    match q.head with
    | none => some (link, ⟨some item, some item⟩)
    | some _ => q.tail.map fun tail => (update link tail (some item), { q with tail := some item })

/-- Source: `list.cxy` `List.pop`. -/
def pop (link : ι → Option ι) (q : Queue ι) : Option ι × (ι → Option ι) × Queue ι :=
  match q.head with
  | none => (none, link, q)
  | some item =>
      (some item, update link item none,
        ⟨link item, if (link item).isNone then none else q.tail⟩)

end CxyCompiler.Stdlib.CoroutineList
