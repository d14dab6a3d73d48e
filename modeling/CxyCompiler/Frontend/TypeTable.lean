import CxyCompiler.Core.HTable
import CxyCompiler.Frontend.TypeFlags

/-!
# The type table (`frontend/ttable.c`)

The table maps the contents of a type to the one `Type` that stands for it. A request is a type
that its caller has built at an address of its own; where the request is new, the source copies it
to a fresh address and stores that one. Nothing else refers to the request, so the model stores the
address of the request itself.

* `getOrInsertTypeScoped`, `replaceTypeScoped`, `removeFromTypeTable`, `changeFunctionRetType`,
  `updateStructType`, `makeStructType` and the other operations — with `fuel` for the recursions
  over types. An operation returns nothing where the source would not return: a hash or a
  comparison with a stored type that does not.
* `requestAll` — a sequence of requests, with the pointers they return.
* `requests_canonical` — **two requests that compare equal get one pointer**, where types that
  compare equal are built alike and the comparison is symmetric and transitive on the requests.
-/

namespace CxyCompiler.Frontend

open CxyCompiler.Core CxyCompiler.Lib.Probing

/-! ## The table and its operations -/

/-- Source: `ttable.h` `TypeTable`. -/
structure TypeTable where
  heap : Heap
  /-- The first address not yet allocated. -/
  next : Addr
  types : HashTable Addr
  typeCount : ℕ

/-- A table without types, on a given heap. -/
def emptyTypeTable (heap : Heap) (next : Addr) : TypeTable := ⟨heap, next, newHashTable, 0⟩

/-- Source: `ttable.c` `compareTypesWrapper`. -/
def compareTypesWrapper (h : Heap) (fuel : ℕ) (left right : Addr) : Bool :=
  compareTypes h fuel left right == some true

/-- The comparisons of a type with the stored ones return. -/
def comparisonsReturn (fuel : ℕ) (table : TypeTable) (type : Addr) : Bool :=
  (entries table.types).all fun e => (compareTypes table.heap fuel e.2 type).isSome

/-- A lookup by content: the bucket of the stored type, or `NULL`. -/
def findType (fuel : ℕ) (table : TypeTable) (type : Addr) : Option (HashCode × Option ℕ) := do
  let hash ← hashType table.heap fuel hashInit type
  if comparisonsReturn fuel table type then do
    let found ← findInHashTable (compareTypesWrapper table.heap fuel) table.types type hash
    some (hash, found)
  else none

/-- `newType->index = index`. -/
def Heap.setIndex (h : Heap) (a : Addr) (index : ℕ) : Heap :=
  h.set a { h.types a with index := index }

/-- The result says whether the type was there. A failed insertion would go unnoticed: the
assertion on it is one on a string literal.
Source: `ttable.c` `getOrInsertTypeScoped`. -/
def getOrInsertTypeScoped (fuel : ℕ) (table : TypeTable) (type : Addr) :
    Option ((Bool × Addr) × TypeTable) := do
  let (hash, found) ← findType fuel table type
  match found with
  | some index => some ((true, table.types.elems index), table)
  | none => do
      let (_, types) ←
        insertInHashTable (compareTypesWrapper table.heap fuel) id table.types type hash
      some ((false, type), { table with
        types := types
        heap := table.heap.setIndex type table.typeCount
        typeCount := table.typeCount + 1 })

/-- Place the type a caller builds for a request. -/
def TypeTable.alloc (table : TypeTable) (init : Ty) : TypeTable :=
  { table with heap := table.heap.set table.next init, next := table.next + 1 }

/-- The common end of the `make…Type` functions, the namespace of `init` already set.
Source: `ttable.c` `getOrInsertType`. -/
def getOrInsertType (fuel : ℕ) (table : TypeTable) (init : Ty) :
    Option ((Bool × Addr) × TypeTable) :=
  getOrInsertTypeScoped fuel (table.alloc init) table.next

/-- Source: `ttable.c` `removeFromTypeTable`. -/
def removeFromTypeTable (fuel : ℕ) (table : TypeTable) (type : Addr) : Option TypeTable := do
  let (_, found) ← findType fuel table type
  match found with
  | some index => do
      let types ← removeFromHashTable table.types index
      some { table with types := types }
  | none => some table

/-- `memcpy` writes every field of the type, the index included.
Source: `ttable.c` `replaceTypeScoped`. -/
def replaceTypeScoped (fuel : ℕ) (table : TypeTable) (type : Addr) (with_ : Ty) :
    Option (Addr × TypeTable) := do
  let (_, found) ← findType fuel table type
  let (newType, table) ← match found with
    | some index => do
        let newType := table.types.elems index
        let table ← removeFromTypeTable fuel table newType
        some (newType, table)
    | none => some (table.next,
        { table with next := table.next + 1, typeCount := table.typeCount + 1 })
  let table := { table with heap := table.heap.set newType with_ }
  let hash ← hashType table.heap fuel hashInit newType
  if comparisonsReturn fuel table newType then do
    let (_, types) ←
      insertInHashTable (compareTypesWrapper table.heap fuel) id table.types newType hash
    some (newType, { table with types := types })
  else none

/-- Source: `ttable.c` `changeFunctionRetType`. -/
def changeFunctionRetType (fuel : ℕ) (table : TypeTable) (func ret : Addr) :
    Option (Addr × TypeTable) := do
  let .func params _ decl := (table.heap.types func).body | none
  replaceTypeScoped fuel table func
    { table.heap.types func with body := .func params ret decl }

/-- A type with the given members. -/
def Ty.withMembers (t : Ty) (members : List Member) : Ty :=
  match t.body with
  | .struct _ => { t with body := .struct (some members) }
  | _ => t

/-- The members of a class are read by no function of the model, so for a class this adds the
flags only. Source: `ttable.c` `updateStructType`, `updateClassType`. -/
def updateStructType (table : TypeTable) (type : Addr) (members : List Member) (flags : Flags) :
    TypeTable :=
  let t := (table.heap.types type).withMembers members
  { table with heap := table.heap.set type { t with flags := t.flags ||| flags } }

/-- The members of a named struct are set after it is found to be new.
Source: `ttable.c` `makeStructType`. -/
def makeStructType (fuel : ℕ) (table : TypeTable) (name ns : Option Ptr) (members : List Member)
    (flags : Flags) : Option (Addr × TypeTable) := do
  if flags &&& flgAnonymous != 0 then do
    let ((_, type), table) ←
      getOrInsertType fuel table ⟨flags, 0, name, ns, .struct (some members)⟩
    some (type, table)
  else do
    let ((found, type), table) ← getOrInsertType fuel table ⟨flags, 0, name, ns, .struct none⟩
    if found then some (type, table)
    else some (type, { table with
      heap := table.heap.set type ((table.heap.types type).withMembers members) })

/-- Source: `ttable.c` `makeClassType`. -/
def makeClassType (fuel : ℕ) (table : TypeTable) (name ns : Option Ptr) (flags : Flags) :
    Option (Addr × TypeTable) := do
  let ((_, type), table) ← getOrInsertType fuel table ⟨flags, 0, name, ns, .class⟩
  some (type, table)

/-- The wrappers around a resolved type, taken off with their flags.
Source: `ttable.c` `flattenWrappedType`. -/
def flattenLoop (h : Heap) : ℕ → Flags → Addr → Option (Addr × Flags)
  | 0, _, _ => none
  | fuel + 1, tmp, a =>
      match (h.types a).body with
      | .wrapped target => flattenLoop h fuel (tmp ||| (h.types a).flags) target
      | _ => some (a, tmp)

/-- Source: `ttable.c` `flattenWrappedType`. -/
def flattenWrappedType (h : Heap) (fuel : ℕ) (type : Option Addr) (flags : Flags) :
    Option (Option Addr × Flags) := do
  match ← resolveType h fuel type with
  | none => some (none, flags)
  | some resolved => do
      let (a, tmp) ← flattenLoop h fuel flgNone resolved
      some (some a, flags ||| tmp)

/-- Source: `ttable.c` `makeAliasType`. -/
def makeAliasType (fuel : ℕ) (table : TypeTable) (aliased : Option Addr) (name ns : Option Ptr)
    (flags : Flags) : Option (Addr × TypeTable) := do
  let (aliased, flags) ← flattenWrappedType table.heap fuel aliased flags
  let ((_, type), table) ← getOrInsertType fuel table ⟨flags, 0, name, ns, .alias aliased⟩
  some (type, table)

/-- Source: `ttable.c` `makeWrappedType`. -/
def makeWrappedType (fuel : ℕ) (table : TypeTable) (target : Addr) (ns : Option Ptr)
    (flags : Flags) : Option (Addr × TypeTable) := do
  if (table.heap.types target).flags &&& flags == flags then some (target, table)
  else do
    let (target, flags) ← flattenWrappedType table.heap fuel (some target) flags
    let target ← target
    let ((_, type), table) ← getOrInsertType fuel table ⟨flags, 0, none, ns, .wrapped target⟩
    some (type, table)

/-- Source: `ttable.c` `replaceStructType`. -/
def replaceStructType (fuel : ℕ) (table : TypeTable) (og : Addr) (ns : Option Ptr)
    (members : List Member) (flags : Flags) : Option (Addr × TypeTable) := do
  let table ← removeFromTypeTable fuel table og
  makeStructType fuel table (table.heap.types og).name ns members flags

/-- Source: `ttable.c` `replaceClassType`. -/
def replaceClassType (fuel : ℕ) (table : TypeTable) (og : Addr) (ns : Option Ptr)
    (flags : Flags) : Option (Addr × TypeTable) := do
  let table ← removeFromTypeTable fuel table og
  makeClassType fuel table (table.heap.types og).name ns flags

/-- Source: `ttable.c` `replaceAliasType`. -/
def replaceAliasType (fuel : ℕ) (table : TypeTable) (og : Addr) (aliased : Option Addr)
    (ns : Option Ptr) (flags : Flags) : Option (Addr × TypeTable) := do
  let table ← removeFromTypeTable fuel table og
  makeAliasType fuel table aliased (table.heap.types og).name ns flags

/-! ## Lookup by content -/

variable {fuel : ℕ} {table : TypeTable}

theorem setIndex_view (h : Heap) (a : Addr) (index : ℕ) : h.view = (h.setIndex a index).view := by
  unfold Heap.view
  congr 1
  funext b
  by_cases hb : b = a
  · subst hb
    rw [Heap.setIndex, Heap.set_self]
    rfl
  · rw [Heap.setIndex, Heap.set_of_ne _ _ hb]

/-- **A lookup by content** finds a stored type that compares equal and has the hash, or there is
none. Kind: P -/
theorem findType_spec (hwf : Wf table.types) {type : Addr} {hash : HashCode}
    (hhash : hashType table.heap fuel hashInit type = some hash)
    (hret : ∀ e ∈ entries table.types, compareTypes table.heap fuel e.2 type ≠ none) :
    ∃ found, findType fuel table type = some (hash, found) ∧
      (∀ i, found = some i → i < table.types.capacity ∧ isBucketOccupied table.types i = true ∧
        table.types.hashes i = hash ||| OCCUPIED_MASK ∧
        compareTypes table.heap fuel (table.types.elems i) type = some true) ∧
      (found = none → ∀ e ∈ entries table.types, e.1 = hash ||| OCCUPIED_MASK →
        compareTypes table.heap fuel e.2 type ≠ some true) := by
  have hguard : comparisonsReturn fuel table type = true := by
    rw [comparisonsReturn, List.all_eq_true]
    exact fun e he => Option.isSome_iff_ne_none.mpr (hret e he)
  obtain ⟨r, hfind, hsome, hnone⟩ :=
    find_spec (compareTypesWrapper table.heap fuel) hwf type hash
  refine ⟨r, by simp [findType, hhash, hguard, hfind], fun i hi => ?_, fun hr e he heq => ?_⟩
  · obtain ⟨hlt, hocc, hh, hcmp⟩ := hsome i hi
    exact ⟨hlt, hocc, hh, by simpa [compareTypesWrapper] using hcmp⟩
  · have := hnone hr e he heq
    simpa [compareTypesWrapper] using this

/-- After a lookup that found nothing, the insertion succeeds. Kind: L -/
theorem insert_of_not_found (hwf : Wf table.types) {type : Addr} {hash : HashCode}
    (hnone : ∀ e ∈ entries table.types, e.1 = hash ||| OCCUPIED_MASK →
      compareTypes table.heap fuel e.2 type ≠ some true) :
    ∃ types, insertInHashTable (compareTypesWrapper table.heap fuel) id table.types type hash =
        some (true, types) ∧ Wf types ∧
      List.Perm (entries types) ((hash ||| OCCUPIED_MASK, type) :: entries table.types) := by
  obtain ⟨b, types, hins, hwf', hfalse, htrue⟩ :=
    insert_spec (compareTypesWrapper table.heap fuel) hwf id type hash
  cases b with
  | false =>
      obtain ⟨-, e, he, heq, hcmp⟩ := hfalse rfl
      exact absurd (by simpa [compareTypesWrapper] using hcmp) (hnone e he heq)
  | true => exact ⟨types, hins, hwf', (htrue rfl).2⟩

/-! ## Requests -/

/-- A sequence of requests and the pointers they return. -/
def requestAll (fuel : ℕ) (table : TypeTable) : List Addr → Option (List Addr × TypeTable)
  | [] => some ([], table)
  | q :: qs => do
      let ((_, result), table) ← getOrInsertTypeScoped fuel table q
      let (results, table) ← requestAll fuel table qs
      some (result :: results, table)

/-- The requests of a heap on which the table is canonical: their hashes and comparisons return,
those that compare equal are built alike, and the comparison is symmetric and transitive. -/
structure Canonical (h : Heap) (fuel : ℕ) (qs : List Addr) : Prop where
  hash_returns : ∀ q ∈ qs, hashType h fuel hashInit q ≠ none
  compare_returns : ∀ p ∈ qs, ∀ q ∈ qs, compareTypes h fuel p q ≠ none
  alike : ∀ p ∈ qs, ∀ q ∈ qs, compareTypes h fuel p q = some true → hashAlike h fuel p q = true
  symm : ∀ p ∈ qs, ∀ q ∈ qs, compareTypes h fuel p q = some true →
    compareTypes h fuel q p = some true
  trans : ∀ p ∈ qs, ∀ q ∈ qs, ∀ r ∈ qs, compareTypes h fuel p q = some true →
    compareTypes h fuel q r = some true → compareTypes h fuel p r = some true

/-- The invariant of a sequence of requests among `qs`: the heap is `h` up to indices, every stored
type is a request stored under its hash, and no two of them compare equal. -/
structure RequestInv (h : Heap) (fuel : ℕ) (qs : List Addr) (table : TypeTable) : Prop where
  view : h.view = table.heap.view
  wf : Wf table.types
  stored : ∀ e ∈ entries table.types, e.2 ∈ qs ∧
    ∃ hash, hashType h fuel hashInit e.2 = some hash ∧ e.1 = hash ||| OCCUPIED_MASK
  distinct : (entries table.types).Pairwise fun e f =>
    compareTypes h fuel e.2 f.2 ≠ some true ∧ compareTypes h fuel f.2 e.2 ≠ some true

/-- The pointer returned for a request is a stored type that compares equal to it. -/
def StandsFor (h : Heap) (fuel : ℕ) (table : TypeTable) (result q : Addr) : Prop :=
  (∃ hash, (hash, result) ∈ entries table.types) ∧ compareTypes h fuel result q = some true

variable {h : Heap} {qs : List Addr}

/-- A type whose comparison with itself returns compares equal to itself. Kind: L -/
theorem compareTypes_self {q : Addr} (hret : compareTypes h fuel q q ≠ none) :
    compareTypes h fuel q q = some true := by
  cases fuel with
  | zero => simp [compareTypes] at hret
  | succ n =>
      refine compareTypes_refl fun hun => hret ?_
      simp [compareTypes, hun]

theorem RequestInv.step (hc : Canonical h fuel qs) (hinv : RequestInv h fuel qs table) {q : Addr}
    (hq : q ∈ qs) :
    ∃ found result table', getOrInsertTypeScoped fuel table q = some ((found, result), table') ∧
      RequestInv h fuel qs table' ∧ StandsFor h fuel table' result q ∧
      ∀ e ∈ entries table.types, e ∈ entries table'.types := by
  obtain ⟨hash, hhash⟩ := Option.ne_none_iff_exists'.mp (hc.hash_returns q hq)
  have hcmp : ∀ a b, compareTypes table.heap fuel a b = compareTypes h fuel a b :=
    compareTypes_of_view_eq hinv.view fuel
  have hhash' : hashType table.heap fuel hashInit q = some hash := by
    rw [hashType_of_view_eq hinv.view, hhash]
  have hret : ∀ e ∈ entries table.types, compareTypes table.heap fuel e.2 q ≠ none := by
    intro e he
    rw [hcmp]
    exact hc.compare_returns e.2 (hinv.stored e he).1 q hq
  obtain ⟨found, hfind, hsome, hnone⟩ := findType_spec hinv.wf hhash' hret
  cases found with
  | some i =>
      obtain ⟨hlt, hocc, -, heq⟩ := hsome i rfl
      refine ⟨true, table.types.elems i, table, by simp [getOrInsertTypeScoped, hfind], hinv,
        ⟨⟨table.types.hashes i, ?_⟩, by rw [← hcmp]; exact heq⟩, fun e he => he⟩
      exact Iff.mpr mem_entries ⟨i, hlt, hocc, rfl⟩
  | none =>
      have hno := hnone rfl
      obtain ⟨types, hins, hwf', hperm⟩ := insert_of_not_found hinv.wf hno
      -- a stored type that compares equal to the request would have its hash
      have hnew : ∀ e ∈ entries table.types, compareTypes h fuel e.2 q ≠ some true := by
        intro e he heq
        obtain ⟨heqs, hash', hh', he1⟩ := hinv.stored e he
        obtain ⟨m, hm⟩ := equalBelowWrappers_of_compareTypes heq
        have := hashType_eq_of_alike fuel m e.2 q hashInit hm (hc.alike e.2 heqs q hq heq)
        rw [hh', hhash, Option.some.injEq] at this
        exact hno e he (this ▸ he1) (by rw [hcmp]; exact heq)
      refine ⟨false, q, ⟨table.heap.setIndex q table.typeCount, table.next, types,
        table.typeCount + 1⟩, by simp [getOrInsertTypeScoped, hfind, hins], ?_, ?_, ?_⟩
      · refine ⟨hinv.view.trans (setIndex_view _ _ _), hwf', ?_, ?_⟩
        · intro e he
          rcases List.mem_cons.mp (hperm.mem_iff.mp he) with rfl | he'
          · exact ⟨hq, hash, hhash, rfl⟩
          · exact hinv.stored e he'
        · rw [hperm.pairwise_iff (fun {e f} hef => hef.symm)]
          refine List.pairwise_cons.mpr ⟨fun e he => ⟨fun heq => ?_, hnew e he⟩, hinv.distinct⟩
          exact hnew e he (hc.symm q hq e.2 (hinv.stored e he).1 heq)
      · exact ⟨⟨_, hperm.mem_iff.mpr List.mem_cons_self⟩,
          compareTypes_self (hc.compare_returns q hq q hq)⟩
      · exact fun e he => hperm.mem_iff.mpr (List.mem_cons_of_mem _ he)

theorem RequestInv.run (hc : Canonical h fuel qs) (rs : List Addr) : ∀ table : TypeTable,
    RequestInv h fuel qs table → (∀ r ∈ rs, r ∈ qs) →
      ∃ results table', requestAll fuel table rs = some (results, table') ∧
        RequestInv h fuel qs table' ∧ List.Forall₂ (StandsFor h fuel table') results rs ∧
        ∀ e ∈ entries table.types, e ∈ entries table'.types := by
  induction rs with
  | nil => intro table hinv _; exact ⟨[], table, rfl, hinv, .nil, fun e he => he⟩
  | cons r rs ih =>
      intro table hinv hrs
      obtain ⟨found, result, table₁, hstep, hinv₁, hstands, hkeep⟩ := hinv.step hc (hrs r (by simp))
      obtain ⟨results, table₂, hrun, hinv₂, hall, hkeep₂⟩ :=
        ih table₁ hinv₁ fun r hr => hrs r (by simp [hr])
      obtain ⟨⟨hash, hmem⟩, heq⟩ := hstands
      exact ⟨result :: results, table₂, by simp [requestAll, hstep, hrun], hinv₂,
        .cons ⟨⟨hash, hkeep₂ _ hmem⟩, heq⟩ hall, fun e he => hkeep₂ e (hkeep e he)⟩

/-- Two stored types that compare equal are one. Kind: L -/
theorem RequestInv.unique (hinv : RequestInv h fuel qs table) {e f : HashCode × Addr}
    (he : e ∈ entries table.types) (hf : f ∈ entries table.types)
    (hef : compareTypes h fuel e.2 f.2 = some true) : e = f := by
  by_contra hne
  have : Std.Symm fun e f : HashCode × Addr =>
      compareTypes h fuel e.2 f.2 ≠ some true ∧ compareTypes h fuel f.2 e.2 ≠ some true :=
    ⟨fun e f hef => hef.symm⟩
  exact (hinv.distinct.forall he hf hne).1 hef

/-- **Hash-consing is canonical.** Types that compare equal and are built alike have one hash; and
on a new table, two requests that compare equal get one pointer. Kind: P -/
theorem requests_canonical (h : Heap) (fuel : ℕ) :
    (∀ a b, hashAlike h fuel a b = true → compareTypes h fuel a b = some true →
      hashType h fuel hashInit a = hashType h fuel hashInit b) ∧
    ∀ (qs : List Addr) (next : Addr), Canonical h fuel qs →
      ∃ results table, requestAll fuel (emptyTypeTable h next) qs = some (results, table) ∧
        ∀ (i j : ℕ) (p q r r' : Addr), qs[i]? = some p → qs[j]? = some q → results[i]? = some r →
          results[j]? = some r' → compareTypes h fuel p q = some true → r = r' := by
  refine ⟨fun a b halike hab => ?_, fun qs next hc => ?_⟩
  · obtain ⟨m, hm⟩ := equalBelowWrappers_of_compareTypes hab
    exact hashType_eq_of_alike fuel m a b hashInit hm halike
  have hempty : entries (emptyTypeTable h next).types = [] := entries_new 4
  have hinv : RequestInv h fuel qs (emptyTypeTable h next) :=
    ⟨rfl, new_wf 4, by simp [hempty], by simp [hempty]⟩
  obtain ⟨results, table, hrun, hinv', hall, -⟩ :=
    RequestInv.run hc qs _ hinv fun q hq => hq
  refine ⟨results, table, hrun, fun i j p q r r' hp hq hr hr' hpq => ?_⟩
  have hstands : ∀ (i : ℕ) (p r : Addr), qs[i]? = some p → results[i]? = some r →
      StandsFor h fuel table r p := by
    intro i p r hp hr
    obtain ⟨hi, rfl⟩ := List.getElem?_eq_some_iff.mp hp
    obtain ⟨hi', rfl⟩ := List.getElem?_eq_some_iff.mp hr
    exact hall.get hi' hi
  obtain ⟨⟨hash, hmem⟩, heq⟩ := hstands i p r hp hr
  obtain ⟨⟨hash', hmem'⟩, heq'⟩ := hstands j q r' hq hr'
  have hpin := List.mem_of_getElem? hp
  have hqin := List.mem_of_getElem? hq
  have hrin := (hinv'.stored _ hmem).1
  have hrin' := (hinv'.stored _ hmem').1
  have hrq := hc.trans r hrin p hpin q hqin heq hpq
  have hrr' := hc.trans r hrin q hqin r' hrin' hrq (hc.symm r' hrin' q hqin heq')
  exact congrArg Prod.snd (hinv'.unique hmem hmem' hrr')

/-- Two requests for `const ^i32` and two for `const` wrappers of one `^i32`. -/
def requestHeap : Heap :=
  heapOf [⟨flgNone, 0, some 1, none, .primitive 10⟩, ⟨flgNone, 0, none, none, .pointer 0 false⟩,
    ⟨flgConst, 0, none, none, .wrapped 1⟩, ⟨flgConst, 0, none, none, .wrapped 1⟩,
    ⟨flgConst, 0, none, none, .reference 0⟩, ⟨flgConst, 0, none, none, .reference 0⟩]

theorem requestHeap_canonical : Canonical requestHeap 3 [0, 1, 2, 4, 3, 5] where
  hash_returns := by decide
  compare_returns := by decide
  alike := by decide
  symm := by decide
  trans := by decide

/-- The two wrappers, requested with other types in between, get one pointer. Kind: L -/
theorem requests_canonical_wrappers :
    hashType requestHeap 3 hashInit 2 = hashType requestHeap 3 hashInit 3 ∧
      ∃ results table, requestAll 3 (emptyTypeTable requestHeap 6) [0, 1, 2, 4, 3, 5] =
        some (results, table) ∧ ∀ r r', results[2]? = some r → results[4]? = some r' → r = r' := by
  obtain ⟨hhash, hrun⟩ := requests_canonical requestHeap 3
  refine ⟨hhash 2 3 (by decide) (by decide), ?_⟩
  obtain ⟨results, table, hall, heq⟩ := hrun [0, 1, 2, 4, 3, 5] 6 requestHeap_canonical
  exact ⟨results, table, hall, fun r r' hr hr' =>
    heq 2 4 2 3 r r' rfl rfl hr hr' (by decide)⟩

/-- `const ^i32` and the `const` wrapper around `^i32` compare equal, have different hashes, and get
two pointers. Kind: L -/
theorem equal_types_two_pointers :
    compareTypes pointerHeap 3 1 3 = some true ∧
      (hashType pointerHeap 3 hashInit 1).map (· ||| OCCUPIED_MASK) ≠
        (hashType pointerHeap 3 hashInit 3).map (· ||| OCCUPIED_MASK) ∧
      (requestAll 3 (emptyTypeTable pointerHeap 4) [0, 2, 1, 3]).map (·.1) =
        some [0, 2, 1, 3] := by
  decide +kernel

end CxyCompiler.Frontend
