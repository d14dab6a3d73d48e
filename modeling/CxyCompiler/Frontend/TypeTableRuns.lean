import CxyCompiler.Frontend.TypeTable

/-!
# Runs of the type table

A run is a sequence of the operations that build, replace, remove and update types. The table is
right in a state when every stored type sits in its bucket under the hash of its current contents,
no two stored types compare equal and no two have one index.

* `TableOk` — **the state property.**
* `meets` — what an operation needs of the state it is made in: a type that compares equal to a
  stored one compares so from both sides and has its hash; a function whose return type changes is
  stored and no other stored type refers to it; a struct or class that is updated is named, and the
  flags added cannot make it equal to another type; a removal moves nothing across the end of the
  table in front of its home.
* `TableInv` — the run invariant. `step_inv` is the step lemma, from one lemma for each kind of
  operation, and `run_inv` the run lemma.
* `run_tableOk` — every state of a run whose operations all meet `meets` is right.
-/

namespace CxyCompiler.Frontend.TypeTableRuns

open CxyCompiler.Core CxyCompiler.Lib.Probing

/-! ## Operations and runs -/

/-- An operation of a client of the table. `make` stands for every `make…Type` function that ends
in `getOrInsertType` on a type it has built. -/
inductive TableOp where
  | make (init : Ty)
  | makeStruct (name ns : Option Ptr) (members : List Member) (flags : Flags)
  | makeAlias (aliased : Option Addr) (name ns : Option Ptr) (flags : Flags)
  | changeFunctionRetType (func ret : Addr)
  | remove (type : Addr)
  | replaceStruct (og : Addr) (ns : Option Ptr) (members : List Member) (flags : Flags)
  | replaceClass (og : Addr) (ns : Option Ptr) (flags : Flags)
  | replaceAlias (og : Addr) (aliased : Option Addr) (ns : Option Ptr) (flags : Flags)
  | update (type : Addr) (members : List Member) (flags : Flags)

/-- One operation. -/
def step (fuel : ℕ) (table : TypeTable) : TableOp → Option TypeTable
  | .make init => (getOrInsertType fuel table init).map (·.2)
  | .makeStruct name ns members flags =>
      (makeStructType fuel table name ns members flags).map (·.2)
  | .makeAlias aliased name ns flags => (makeAliasType fuel table aliased name ns flags).map (·.2)
  | .changeFunctionRetType func ret => (changeFunctionRetType fuel table func ret).map (·.2)
  | .remove type => removeFromTypeTable fuel table type
  | .replaceStruct og ns members flags =>
      (replaceStructType fuel table og ns members flags).map (·.2)
  | .replaceClass og ns flags => (replaceClassType fuel table og ns flags).map (·.2)
  | .replaceAlias og aliased ns flags => (replaceAliasType fuel table og aliased ns flags).map (·.2)
  | .update type members flags => some (updateStructType table type members flags)

/-- A sequence of operations. -/
def run (fuel : ℕ) (table : TypeTable) (ops : List TableOp) : Option TypeTable :=
  ops.foldlM (step fuel) table

/-- **The table is right.** -/
structure TableOk (fuel : ℕ) (table : TypeTable) : Prop where
  hash_eq : ∀ e ∈ entries table.types,
    (hashType table.heap fuel hashInit e.2).map (· ||| OCCUPIED_MASK) = some e.1
  distinct : (entries table.types).Pairwise fun e f =>
    compareTypes table.heap fuel e.2 f.2 ≠ some true ∧
      compareTypes table.heap fuel f.2 e.2 ≠ some true
  index_ne : (entries table.types).Pairwise fun e f =>
    (table.heap.types e.2).index ≠ (table.heap.types f.2).index

/-! ## What an operation needs -/

/-- The stored type `p` and the new type `a`: their comparison returns, and where they compare equal
from one side they do as the table compares them, and have one hash. -/
def fitsWith (fuel : ℕ) (h : Heap) (a p : Addr) : Bool :=
  (compareTypes h fuel p a).isSome &&
    (!(compareTypes h fuel p a == some true || compareTypes h fuel a p == some true) ||
      (compareTypes h fuel p a == some true &&
        hashType h fuel hashInit p == hashType h fuel hashInit a))

/-- The new type fits with every stored one, other than itself. -/
def fits (fuel : ℕ) (table : TypeTable) (a : Addr) : Bool :=
  (hashType table.heap fuel hashInit a).isSome &&
    (entries table.types).all fun e => e.2 == a || fitsWith fuel table.heap a e.2

/-- A request on types that are there, and that fits. -/
def meetsMake (fuel : ℕ) (table : TypeTable) (init : Ty) : Bool :=
  init.refs.all (· < table.next) && fits fuel (table.alloc init) table.next

/-- A lookup that returns, and whose bucket can be removed. -/
def meetsRemove (fuel : ℕ) (table : TypeTable) (type : Addr) : Bool :=
  match findType fuel table type with
  | some (_, some index) =>
      noMoveAcrossEnd table.types table.types.capacity index (incr table.types.capacity index)
  | some (_, none) => true
  | none => false

/-- No way through the types referred to leads from `a` to `f`. -/
def avoids (h : Heap) (f : Addr) : ℕ → Addr → Bool
  | 0, _ => false
  | n + 1, a => a != f && (h.types a).refs.all (avoids h f n)

/-- The function with its new return type. -/
def withRetType (t : Ty) (ret : Addr) : Ty :=
  match t.body with
  | .func params _ decl => { t with body := .func params ret decl }
  | _ => t

/-- A stored function, to which no other stored type refers, and which fits with its new return
type. -/
def meetsChange (fuel : ℕ) (table : TypeTable) (func ret : Addr) : Bool :=
  (table.heap.types func).tag == .func && ret < table.next &&
    ((entries table.types).any fun e => e.2 == func) && meetsRemove fuel table func &&
    ((entries table.types).all fun e => e.2 == func || avoids table.heap func fuel e.2) &&
    fits fuel { table with
      heap := table.heap.set func (withRetType (table.heap.types func) ret) } func

/-- No wrapper around the type, and no other type of its kind and name. -/
def onlyOfItsName (table : TypeTable) (s : Addr) : Bool :=
  (List.range table.next).all fun a =>
    (table.heap.types a).body != .wrapped s &&
      (a == s || (table.heap.types a).tag != (table.heap.types s).tag ||
        (table.heap.types a).name != (table.heap.types s).name ||
        (table.heap.types a).ns != (table.heap.types s).ns)

/-- A class or named struct that stays one, and flags that cannot make it equal to another type. -/
def meetsUpdate (table : TypeTable) (type : Addr) (flags : Flags) : Bool :=
  decide (type < table.next) && decide (table.heap.types type).IsNamed &&
    decide ((table.heap.addFlags type flags).types type).IsNamed &&
    (((table.heap.types type).flags ||| flags) &&& flgTypeApplicable ==
      (table.heap.types type).flags &&& flgTypeApplicable || onlyOfItsName table type)

/-- The type that `makeStructType` asks for. -/
def structRequest (name ns : Option Ptr) (members : List Member) (flags : Flags) : Ty :=
  if flags &&& flgAnonymous != 0 then ⟨flags, 0, name, ns, .struct (some members)⟩
  else ⟨flags, 0, name, ns, .struct none⟩

/-- The request of `makeAliasType`, once its target is flattened. -/
def meetsMakeAlias (fuel : ℕ) (table : TypeTable) (aliased : Option Addr) (name ns : Option Ptr)
    (flags : Flags) : Bool :=
  match flattenWrappedType table.heap fuel aliased flags with
  | some (aliased, flags) => meetsMake fuel table ⟨flags, 0, name, ns, .alias aliased⟩
  | none => false

/-- A removal, and what follows it in the state it leaves. -/
def meetsReplace (fuel : ℕ) (table : TypeTable) (og : Addr) (next : TypeTable → Bool) : Bool :=
  meetsRemove fuel table og &&
    match removeFromTypeTable fuel table og with
    | some table => next table
    | none => false

/-- **What an operation needs of the state it is made in.** -/
def meets (fuel : ℕ) (table : TypeTable) : TableOp → Bool
  | .make init => meetsMake fuel table init
  | .makeStruct name ns members flags => meetsMake fuel table (structRequest name ns members flags)
  | .makeAlias aliased name ns flags => meetsMakeAlias fuel table aliased name ns flags
  | .changeFunctionRetType func ret => meetsChange fuel table func ret
  | .remove type => meetsRemove fuel table type
  | .replaceStruct og ns members flags => meetsReplace fuel table og fun table =>
      meetsMake fuel table (structRequest (table.heap.types og).name ns members flags)
  | .replaceClass og ns flags => meetsReplace fuel table og fun table =>
      meetsMake fuel table ⟨flags, 0, (table.heap.types og).name, ns, .class⟩
  | .replaceAlias og aliased ns flags => meetsReplace fuel table og fun table =>
      meetsMakeAlias fuel table aliased (table.heap.types og).name ns flags
  | .update type _ flags => meetsUpdate table type flags

/-- Every operation of the run meets its condition. -/
def runMeets (fuel : ℕ) (table : TypeTable) : List TableOp → Bool
  | [] => true
  | op :: ops => meets fuel table op &&
      match step fuel table op with
      | some table => runMeets fuel table ops
      | none => true

/-! ## The run invariant -/

/-- **The run invariant.** -/
structure TableInv (fuel : ℕ) (table : TypeTable) : Prop where
  wf : Wf table.types
  stored : ∀ e ∈ entries table.types, e.2 < table.next ∧
    (hashType table.heap fuel hashInit e.2).map (· ||| OCCUPIED_MASK) = some e.1
  distinct : (entries table.types).Pairwise fun e f =>
    compareTypes table.heap fuel e.2 f.2 ≠ some true ∧
      compareTypes table.heap fuel f.2 e.2 ≠ some true
  index_ne : (entries table.types).Pairwise fun e f =>
    (table.heap.types e.2).index ≠ (table.heap.types f.2).index
  index_lt : ∀ e ∈ entries table.types, (table.heap.types e.2).index < table.typeCount
  closed : Closed (· < table.next) table.heap
  unallocated : ∀ a, table.next ≤ a → (table.heap.types a).body = .error

variable {fuel : ℕ} {table : TypeTable}

theorem TableInv.ok (hinv : TableInv fuel table) : TableOk fuel table :=
  ⟨fun e he => (hinv.stored e he).2, hinv.distinct, hinv.index_ne⟩

/-- Two stored types that compare equal are one entry. Kind: L -/
theorem TableInv.unique (hinv : TableInv fuel table) {e f : HashCode × Addr}
    (he : e ∈ entries table.types) (hf : f ∈ entries table.types)
    (hef : compareTypes table.heap fuel e.2 f.2 = some true) : e = f := by
  by_contra hne
  have : Std.Symm fun e f : HashCode × Addr =>
      compareTypes table.heap fuel e.2 f.2 ≠ some true ∧
        compareTypes table.heap fuel f.2 e.2 ≠ some true := ⟨fun e f hef => hef.symm⟩
  exact (hinv.distinct.forall he hf hne).1 hef

/-- The invariant passes to a table with fewer entries. Kind: L -/
theorem TableInv.of_perm_cons (hinv : TableInv fuel table) {types : HashTable Addr} (hwf : Wf types)
    {e : HashCode × Addr} (hperm : List.Perm (entries table.types) (e :: entries types)) :
    TableInv fuel { table with types := types } := by
  have hsub : ∀ f ∈ entries types, f ∈ entries table.types := fun f hf =>
    hperm.mem_iff.mpr (List.mem_cons_of_mem _ hf)
  have hdist := hinv.distinct
  rw [hperm.pairwise_iff (fun {e f} hef => hef.symm)] at hdist
  have hindex := hinv.index_ne
  rw [hperm.pairwise_iff (fun {e f} hef => hef.symm)] at hindex
  exact ⟨hwf, fun f hf => hinv.stored f (hsub f hf), (List.pairwise_cons.mp hdist).2,
    (List.pairwise_cons.mp hindex).2, fun f hf => hinv.index_lt f (hsub f hf), hinv.closed,
    hinv.unallocated⟩

/-- The invariant passes to a heap on which the stored types hash as before, compare equal no more
than before and keep their indices. Kind: L -/
theorem TableInv.of_heap (hinv : TableInv fuel table) {h : Heap} {next typeCount : ℕ}
    (hnext : table.next ≤ next) (hcount : table.typeCount ≤ typeCount)
    (hhash : ∀ e ∈ entries table.types,
      hashType h fuel hashInit e.2 = hashType table.heap fuel hashInit e.2)
    (hcmp : ∀ e ∈ entries table.types, ∀ f ∈ entries table.types,
      compareTypes h fuel e.2 f.2 = some true →
        compareTypes table.heap fuel e.2 f.2 = some true)
    (hindex : ∀ e ∈ entries table.types, (h.types e.2).index = (table.heap.types e.2).index)
    (hclosed : Closed (· < next) h)
    (hunalloc : ∀ a, next ≤ a → (h.types a).body = .error) :
    TableInv fuel ⟨h, next, table.types, typeCount⟩ where
  wf := hinv.wf
  stored := by
    intro e he
    obtain ⟨hlt, hh⟩ := hinv.stored e he
    exact ⟨lt_of_lt_of_le hlt hnext, by rw [hhash e he]; exact hh⟩
  distinct := by
    refine hinv.distinct.imp_of_mem fun {e f} he hf hef => ?_
    exact ⟨fun heq => hef.1 (hcmp e he f hf heq), fun heq => hef.2 (hcmp f hf e he heq)⟩
  index_ne := by
    refine hinv.index_ne.imp_of_mem fun {e f} he hf hef => ?_
    change (h.types e.2).index ≠ (h.types f.2).index
    rw [hindex e he, hindex f hf]
    exact hef
  index_lt := by
    intro e he
    have := hinv.index_lt e he
    change (h.types e.2).index < typeCount
    rw [hindex e he]
    exact this.trans_le hcount
  closed := hclosed
  unallocated := hunalloc

/-! ## Insertion and removal -/

theorem fitsWith_spec {h : Heap} {a p : Addr} (hfit : fitsWith fuel h a p = true) :
    compareTypes h fuel p a ≠ none ∧
      (compareTypes h fuel p a = some true ∨ compareTypes h fuel a p = some true →
        compareTypes h fuel p a = some true ∧
          hashType h fuel hashInit p = hashType h fuel hashInit a) := by
  simp only [fitsWith, Bool.and_eq_true, Bool.or_eq_true, Bool.not_eq_true', beq_iff_eq,
    Option.isSome_iff_ne_none] at hfit
  refine ⟨hfit.1, fun hor => ?_⟩
  obtain hno | hyes := hfit.2
  · rw [Bool.or_eq_false_iff] at hno
    obtain hpa | hap := hor
    · simp [hpa] at hno
    · simp [hap] at hno
  · exact hyes

/-- What `fits` says of a type that is not stored. Kind: L -/
theorem fits_spec {a : Addr} (hfit : fits fuel table a = true)
    (hnot : ∀ e ∈ entries table.types, e.2 ≠ a) :
    (∃ hash, hashType table.heap fuel hashInit a = some hash) ∧
      ∀ e ∈ entries table.types, compareTypes table.heap fuel e.2 a ≠ none ∧
        (compareTypes table.heap fuel e.2 a = some true ∨
          compareTypes table.heap fuel a e.2 = some true →
          compareTypes table.heap fuel e.2 a = some true ∧
            hashType table.heap fuel hashInit e.2 = hashType table.heap fuel hashInit a) := by
  rw [fits, Bool.and_eq_true, List.all_eq_true] at hfit
  refine ⟨Option.isSome_iff_exists.mp hfit.1, fun e he => fitsWith_spec ?_⟩
  have := hfit.2 e he
  rw [Bool.or_eq_true, beq_iff_eq] at this
  exact this.resolve_left (hnot e he)

/-- **Insertion of a type that fits**: it succeeds or, where the type is there, changes nothing.
Kind: P -/
theorem TableInv.insert (hinv : TableInv fuel table) {a : Addr} (ha : a < table.next)
    (hfit : fits fuel table a = true) (hnot : ∀ e ∈ entries table.types, e.2 ≠ a)
    (hindex : ∀ e ∈ entries table.types,
      (table.heap.types e.2).index ≠ (table.heap.types a).index)
    (hcount : (table.heap.types a).index < table.typeCount) {hash : HashCode}
    (hhash : hashType table.heap fuel hashInit a = some hash) :
    ∃ b types, insertInHashTable (compareTypesWrapper table.heap fuel) id table.types a hash =
      some (b, types) ∧ TableInv fuel { table with types := types } := by
  obtain ⟨-, hequal⟩ := fits_spec hfit hnot
  obtain ⟨b, types, hins, hwf, hfalse, htrue⟩ :=
    insert_spec (compareTypesWrapper table.heap fuel) hinv.wf id a hash
  refine ⟨b, types, hins, ?_⟩
  cases b with
  | false =>
      obtain ⟨rfl, -⟩ := hfalse rfl
      exact hinv
  | true =>
      obtain ⟨hnone, hperm⟩ := htrue rfl
      have hno : ∀ e ∈ entries table.types,
          ¬ (compareTypes table.heap fuel e.2 a = some true ∨
            compareTypes table.heap fuel a e.2 = some true) := by
        intro e he hor
        obtain ⟨heq, hsame⟩ := (hequal e he).2 hor
        have hstored := (hinv.stored e he).2
        rw [hsame, hhash, Option.map_some, Option.some.injEq] at hstored
        have := hnone e he hstored.symm
        simp [compareTypesWrapper, heq] at this
      refine ⟨hwf, ?_, ?_, ?_, ?_, hinv.closed, hinv.unallocated⟩
      · intro e he
        rcases List.mem_cons.mp (hperm.mem_iff.mp he) with rfl | he'
        · exact ⟨ha, by simp [hhash]⟩
        · exact hinv.stored e he'
      · rw [hperm.pairwise_iff (fun {e f} hef => hef.symm)]
        refine List.pairwise_cons.mpr ⟨fun e he => ?_, hinv.distinct⟩
        exact ⟨fun heq => hno e he (Or.inr heq), fun heq => hno e he (Or.inl heq)⟩
      · rw [hperm.pairwise_iff (fun {e f} hef => hef.symm)]
        exact List.pairwise_cons.mpr ⟨fun e he => (hindex e he).symm, hinv.index_ne⟩
      · intro e he
        rcases List.mem_cons.mp (hperm.mem_iff.mp he) with rfl | he'
        · exact hcount
        · exact hinv.index_lt e he'

theorem findType_cases (hinv : TableInv fuel table) {type : Addr} {hash : HashCode}
    {found : Option ℕ} (hfind : findType fuel table type = some (hash, found)) :
    hashType table.heap fuel hashInit type = some hash ∧
      (∀ i, found = some i → i < table.types.capacity ∧ isBucketOccupied table.types i = true ∧
        compareTypes table.heap fuel (table.types.elems i) type = some true) ∧
      (found = none → ∀ e ∈ entries table.types, e.1 = hash ||| OCCUPIED_MASK →
        compareTypes table.heap fuel e.2 type ≠ some true) ∧
      ∀ e ∈ entries table.types, compareTypes table.heap fuel e.2 type ≠ none := by
  have hhash : hashType table.heap fuel hashInit type = some hash := by
    unfold findType at hfind
    cases hh : hashType table.heap fuel hashInit type with
    | none => simp [hh] at hfind
    | some hash' =>
        simp only [hh, Option.bind_eq_bind, Option.bind_some] at hfind
        split_ifs at hfind
        cases hf : findInHashTable (compareTypesWrapper table.heap fuel) table.types type hash' with
        | none => simp [hf] at hfind
        | some r => simp [hf] at hfind; rw [hfind.1]
  have hret : ∀ e ∈ entries table.types, compareTypes table.heap fuel e.2 type ≠ none := by
    intro e he
    simp only [findType, hhash, Option.bind_eq_bind, Option.bind_some] at hfind
    split_ifs at hfind with hguard
    rw [comparisonsReturn, List.all_eq_true] at hguard
    exact Option.isSome_iff_ne_none.mp (hguard e he)
  obtain ⟨found', hfind', hsome, hnone⟩ := findType_spec hinv.wf hhash hret
  rw [hfind, Option.some.injEq, Prod.mk.injEq] at hfind'
  obtain ⟨-, rfl⟩ := hfind'
  refine ⟨hhash, fun i hi => ?_, hnone, hret⟩
  obtain ⟨hlt, hocc, -, heq⟩ := hsome i hi
  exact ⟨hlt, hocc, heq⟩

/-- **Removal.** Kind: P -/
theorem TableInv.remove (hinv : TableInv fuel table) {type : Addr}
    (hmeets : meetsRemove fuel table type = true) :
    ∃ types, removeFromTypeTable fuel table type = some { table with types := types } ∧
      TableInv fuel { table with types := types } ∧
      ∀ hash i, findType fuel table type = some (hash, some i) →
        List.Perm (entries table.types)
          ((table.types.hashes i, table.types.elems i) :: entries types) := by
  unfold meetsRemove at hmeets
  split at hmeets
  · rename_i hash i hfind
    obtain ⟨-, hsome, -, -⟩ := findType_cases hinv hfind
    obtain ⟨hlt, hocc, -⟩ := hsome i rfl
    obtain ⟨types, hrem, hwf, hperm⟩ := remove_spec hinv.wf hlt hocc hmeets
    refine ⟨types, by simp [removeFromTypeTable, hfind, hrem], hinv.of_perm_cons hwf hperm, ?_⟩
    intro hash' i' heq
    rw [hfind, Option.some.injEq, Prod.mk.injEq, Option.some.injEq] at heq
    rw [← heq.2]
    exact hperm
  · rename_i hash hfind
    refine ⟨table.types, by simp [removeFromTypeTable, hfind], hinv, ?_⟩
    intro hash' i' heq
    simp [hfind] at heq
  · simp at hmeets

/-! ## Requests -/

theorem view_body_eq_error {t : Ty} (ht : t.view.body = .error) : t.body = .error := by
  obtain heq | ⟨ms, -, hview, -⟩ := t.view_body
  · rw [← heq, ht]
  · simp [hview] at ht

theorem refs_view (t : Ty) : t.view.refs = t.refs := by
  unfold Ty.refs
  obtain heq | ⟨ms, hb, hview, hanon⟩ := t.view_body
  · rw [heq]
    rfl
  · rw [hb, hview]
    cases ms <;> simp [hanon]

/-- The invariant passes to a heap of the same view. Kind: L -/
theorem TableInv.of_view (hinv : TableInv fuel table) {h : Heap} {typeCount : ℕ}
    (hview : table.heap.view = h.view) (hcount : table.typeCount ≤ typeCount)
    (hindex : ∀ e ∈ entries table.types, (h.types e.2).index = (table.heap.types e.2).index) :
    TableInv fuel ⟨h, table.next, table.types, typeCount⟩ := by
  have htypes : ∀ a, (table.heap.types a).view = (h.types a).view := fun a =>
    congrFun (congrArg Heap.types hview) a
  refine hinv.of_heap le_rfl hcount (fun e _ => hashType_of_view_eq hview _ _ _)
    (fun e _ f _ heq => ?_) hindex (fun a ha c hc => ?_) (fun a ha => ?_)
  · rw [← compareTypes_of_view_eq hview]
    exact heq
  · rw [← refs_view, ← htypes, refs_view] at hc
    exact hinv.closed a ha c hc
  · refine view_body_eq_error ?_
    rw [← htypes, Ty.view, hinv.unallocated a ha]

/-- Placing a request on types that are there. Kind: L -/
theorem TableInv.alloc (hinv : TableInv fuel table) {init : Ty}
    (hrefs : ∀ c ∈ init.refs, c < table.next) : TableInv fuel (table.alloc init) := by
  have hset : ∀ a, a < table.next →
      (table.heap.set table.next init).types a = table.heap.types a := fun a ha =>
    table.heap.set_of_ne init (Nat.ne_of_lt ha)
  have hagree : AgreeOn (· < table.next) table.heap (table.heap.set table.next init) :=
    ⟨hset, rfl, hinv.closed⟩
  refine hinv.of_heap (Nat.le_succ _) le_rfl ?_ ?_ ?_ ?_ ?_
  · exact fun e he => hashType_frame hagree fuel e.2 (hinv.stored e he).1 _
  · intro e he f hf heq
    rw [← compareTypes_frame hagree fuel e.2 f.2 (hinv.stored e he).1 (hinv.stored f hf).1]
    exact heq
  · intro e he
    rw [hset e.2 (hinv.stored e he).1]
  · intro a ha c hc
    by_cases hnext : a = table.next
    · subst hnext
      rw [Heap.set_self] at hc
      exact (hrefs c hc).trans (Nat.lt_succ_self _)
    · have hlt : a < table.next := Nat.lt_of_le_of_ne (Nat.lt_succ_iff.mp ha) hnext
      rw [hset a hlt] at hc
      exact (hinv.closed a hlt c hc).trans (Nat.lt_succ_self _)
  · intro a ha
    rw [Heap.set_of_ne _ _ (Nat.ne_of_gt (Nat.lt_of_succ_le ha))]
    exact hinv.unallocated a (Nat.le_of_succ_le ha)

theorem fits_of_view_eq {h : Heap} {typeCount : ℕ} {a : Addr} (hview : table.heap.view = h.view) :
    fits fuel ⟨h, table.next, table.types, typeCount⟩ a = fits fuel table a := by
  simp only [fits, fitsWith, hashType_of_view_eq hview, compareTypes_of_view_eq hview]

/-- **A request that fits.** It returns a stored type, and a new one is the request with its
index. Kind: P -/
theorem TableInv.make (hinv : TableInv fuel table) {init : Ty}
    (hmeets : meetsMake fuel table init = true) :
    ∃ found type table', getOrInsertType fuel table init = some ((found, type), table') ∧
      TableInv fuel table' ∧
      (found = false → table'.heap.types type = { init with index := table.typeCount }) := by
  rw [meetsMake, Bool.and_eq_true, List.all_eq_true] at hmeets
  obtain ⟨hrefs, hfit⟩ := hmeets
  have hinv₀ : TableInv fuel (table.alloc init) := hinv.alloc (by simpa using hrefs)
  have hnot : ∀ e ∈ entries (table.alloc init).types, e.2 ≠ table.next := fun e he =>
    Nat.ne_of_lt (hinv.stored e he).1
  obtain ⟨⟨hash, hhash⟩, hequal⟩ := fits_spec hfit hnot
  obtain ⟨found, hfind, -, -⟩ :=
    findType_spec hinv₀.wf hhash fun e he => (hequal e he).1
  cases found with
  | some i =>
      exact ⟨true, _, table.alloc init, by
        simp only [getOrInsertType, getOrInsertTypeScoped, hfind]
        rfl, hinv₀, by simp⟩
  | none =>
      -- the index is set after the insertion, and read by nothing before it
      have hview := setIndex_view (table.alloc init).heap table.next table.typeCount
      have hinv₁ : TableInv fuel ⟨(table.alloc init).heap.setIndex table.next table.typeCount,
          table.next + 1, (table.alloc init).types, table.typeCount + 1⟩ := by
        refine hinv₀.of_view hview (Nat.le_succ _) fun e he => ?_
        rw [Heap.setIndex, Heap.set_of_ne _ _ (hnot e he)]
      have hself : ((table.alloc init).heap.setIndex table.next table.typeCount).types
          table.next = { init with index := table.typeCount } := by
        simp [Heap.setIndex, TypeTable.alloc]
      have hindex : ∀ e ∈ entries (table.alloc init).types,
          (((table.alloc init).heap.setIndex table.next table.typeCount).types e.2).index ≠
            (((table.alloc init).heap.setIndex table.next table.typeCount).types
              table.next).index := by
        intro e he
        rw [hself, Heap.setIndex, Heap.set_of_ne _ _ (hnot e he), TypeTable.alloc,
          Heap.set_of_ne _ _ (hnot e he)]
        exact Nat.ne_of_lt (hinv.index_lt e he)
      have hhash₁ : hashType ((table.alloc init).heap.setIndex table.next table.typeCount) fuel
          hashInit table.next = some hash := by
        rw [hashType_of_view_eq hview]
        exact hhash
      obtain ⟨b, types, hins, hinv₂⟩ := hinv₁.insert (Nat.lt_succ_self table.next)
        ((fits_of_view_eq hview).trans hfit) hnot hindex
        (by rw [hself]; exact Nat.lt_succ_self _) hhash₁
      have hcmp : compareTypesWrapper
          ((table.alloc init).heap.setIndex table.next table.typeCount) fuel =
            compareTypesWrapper (table.alloc init).heap fuel := by
        funext p q
        rw [compareTypesWrapper, compareTypesWrapper, compareTypes_of_view_eq hview]
      rw [hcmp] at hins
      refine ⟨false, table.next, _, by
        simp only [getOrInsertType, getOrInsertTypeScoped, hfind, Option.bind_eq_bind,
          Option.bind_some, hins]
        rfl, hinv₂, fun _ => hself⟩

/-- Members of a named struct are not read. Kind: L -/
theorem withMembers_view {t : Ty} (ht : t.IsNamed) (members : List Member) :
    (t.withMembers members).view = t.view := by
  obtain hb | ⟨ms, hb⟩ := ht.body
  · rw [Ty.withMembers, hb]
  · have hanon : hasFlag t flgAnonymous = false := by
      simpa [Ty.IsNamed, Ty.tag, hb, Body.tag] using ht
    have hanon' : t.flags &&& flgAnonymous = 0 := by simpa [hasFlag] using hanon
    simp [Ty.withMembers, Ty.view, hb, hasFlag, hanon']

theorem set_view {h : Heap} {a : Addr} {t : Ty} (ht : t.view = (h.types a).view) :
    h.view = (h.set a t).view := by
  unfold Heap.view
  congr 1
  funext b
  by_cases hb : b = a
  · subst hb
    rw [Heap.set_self, ht]
  · rw [Heap.set_of_ne _ _ hb]

theorem withMembers_index (t : Ty) (members : List Member) :
    (t.withMembers members).index = t.index := by
  unfold Ty.withMembers
  cases t.body <;> rfl

theorem set_index {h : Heap} {a : Addr} {t : Ty} (ht : t.index = (h.types a).index) (b : Addr) :
    ((h.set a t).types b).index = (h.types b).index := by
  by_cases hb : b = a
  · subst hb
    rw [Heap.set_self, ht]
  · rw [Heap.set_of_ne _ _ hb]

/-- Setting the members of a named struct keeps the invariant. Kind: L -/
theorem TableInv.setMembers (hinv : TableInv fuel table) {type : Addr}
    (hnamed : (table.heap.types type).IsNamed) (members : List Member) :
    TableInv fuel { table with
      heap := table.heap.set type ((table.heap.types type).withMembers members) } :=
  hinv.of_view (set_view (withMembers_view hnamed members)) le_rfl fun e _ =>
    set_index (withMembers_index _ _) e.2

theorem TableInv.makeStruct (hinv : TableInv fuel table) {name ns : Option Ptr}
    {members : List Member} {flags : Flags}
    (hmeets : meetsMake fuel table (structRequest name ns members flags) = true) :
    ∃ type table', makeStructType fuel table name ns members flags = some (type, table') ∧
      TableInv fuel table' := by
  obtain ⟨found, type, table', hget, hinv', hnew⟩ := hinv.make hmeets
  unfold structRequest at hget hnew
  by_cases hanon : (flags &&& flgAnonymous != 0) = true
  · rw [if_pos hanon] at hget
    exact ⟨type, table', by simp only [makeStructType, if_pos hanon, hget]; rfl, hinv'⟩
  · rw [if_neg hanon] at hget hnew
    cases found with
    | true => exact ⟨type, table', by simp only [makeStructType, if_neg hanon, hget]; rfl, hinv'⟩
    | false =>
        have hnamed : (table'.heap.types type).IsNamed := by
          rw [hnew rfl]
          exact Or.inr ⟨rfl, by simpa [hasFlag] using hanon⟩
        exact ⟨type, _, by simp only [makeStructType, if_neg hanon, hget]; rfl,
          hinv'.setMembers hnamed members⟩

theorem TableInv.makeAlias (hinv : TableInv fuel table) {aliased : Option Addr}
    {name ns : Option Ptr} {flags : Flags}
    (hmeets : meetsMakeAlias fuel table aliased name ns flags = true) :
    ∃ type table', makeAliasType fuel table aliased name ns flags = some (type, table') ∧
      TableInv fuel table' := by
  unfold meetsMakeAlias at hmeets
  split at hmeets
  · rename_i aliased' flags' hflat
    obtain ⟨found, type, table', hget, hinv', -⟩ := hinv.make hmeets
    exact ⟨type, table', by simp only [makeAliasType, hflat, Option.bind_eq_bind, Option.bind_some,
      hget], hinv'⟩
  · simp at hmeets

/-! ## Updates in place -/

/-- Nothing is read through a class or a named struct. Kind: L -/
theorem refs_named {t : Ty} (ht : t.IsNamed) : t.refs = [] := by
  unfold Ty.refs
  obtain hb | ⟨ms, hb⟩ := ht.body
  · rw [hb]
  · have hanon : hasFlag t flgAnonymous = false := by
      simpa [Ty.IsNamed, Ty.tag, hb, Body.tag] using ht
    cases ms <;> simp [hb, hanon]

theorem onlyOfItsName_spec (hinv : TableInv fuel table) {s : Addr}
    (hnamed : (table.heap.types s).IsNamed) (honly : onlyOfItsName table s = true) :
    OnlyOfItsName table.heap s := by
  rw [onlyOfItsName, List.all_eq_true] at honly
  have hbelow : ∀ a, a < table.next → _ := fun a ha => honly a (List.mem_range.mpr ha)
  refine ⟨fun a hwrap => ?_, fun a hne htag hnames => ?_⟩
  · rcases Nat.lt_or_ge a table.next with hlt | hge
    · have := hbelow a hlt
      simp [hwrap] at this
    · simp [hinv.unallocated a hge] at hwrap
  · rcases Nat.lt_or_ge a table.next with hlt | hge
    · have := hbelow a hlt
      simp [hne, htag, hnames.1, hnames.2] at this
    · have herr : (table.heap.types a).tag = .error := by rw [Ty.tag, hinv.unallocated a hge]; rfl
      have hs : (table.heap.types s).tag = .error := htag.symm.trans herr
      simp [Ty.IsNamed, hs] at hnamed

theorem withMembers_flags (t : Ty) (members : List Member) (flags : Flags) :
    { t.withMembers members with flags := (t.withMembers members).flags ||| flags } =
      ({ t with flags := t.flags ||| flags } : Ty).withMembers members := by
  obtain ⟨f, i, name, ns, body⟩ := t
  cases body <;> rfl

/-- An update is an addition of flags and then a change of members. Kind: L -/
theorem updateStructType_eq (type : Addr) (members : List Member) (flags : Flags) :
    updateStructType table type members flags = { table with
      heap := (table.heap.addFlags type flags).set type
        (((table.heap.addFlags type flags).types type).withMembers members) } := by
  have hset : ∀ t t' : Ty, (table.heap.set type t).set type t' = table.heap.set type t' := by
    intro t t'
    simp only [Heap.set, Heap.mk.injEq, and_true]
    funext b
    by_cases hb : b = type <;> simp [hb]
  rw [Heap.addFlags, hset, Heap.set_self, ← withMembers_flags]
  rfl

/-- Flags added to a class or named struct. Kind: L -/
theorem TableInv.addFlags (hinv : TableInv fuel table) {type : Addr} {flags : Flags}
    (hmeets : meetsUpdate table type flags = true) :
    TableInv fuel { table with heap := table.heap.addFlags type flags } ∧
      ((table.heap.addFlags type flags).types type).IsNamed := by
  simp only [meetsUpdate, Bool.and_eq_true, decide_eq_true_eq, Bool.or_eq_true, beq_iff_eq]
    at hmeets
  obtain ⟨⟨⟨hlt, hnamed⟩, hnamed'⟩, hflags⟩ := hmeets
  refine ⟨hinv.of_heap le_rfl le_rfl (fun e _ => hashType_addFlags hnamed hnamed' fuel _ _)
    (fun e _ f _ => ?_) (fun e _ => ?_) (fun a ha c hc => ?_) (fun a ha => ?_), hnamed'⟩
  · obtain hsame | honly := hflags
    · exact compareTypes_addFlags_same hnamed hnamed' hsame fuel e.2 f.2
    · exact compareTypes_addFlags hnamed hnamed' (onlyOfItsName_spec hinv hnamed honly) fuel e.2 f.2
  · refine set_index ?_ e.2
    rfl
  · by_cases htype : a = type
    · subst htype
      simp [refs_named hnamed'] at hc
    · rw [addFlags_of_ne htype] at hc
      exact hinv.closed a ha c hc
  · rw [addFlags_body]
    exact hinv.unallocated a ha

/-- **An update in place.** Kind: P -/
theorem TableInv.update (hinv : TableInv fuel table) {type : Addr} {flags : Flags}
    (hmeets : meetsUpdate table type flags = true) (members : List Member) :
    TableInv fuel (updateStructType table type members flags) := by
  obtain ⟨hinv', hnamed⟩ := hinv.addFlags hmeets
  rw [updateStructType_eq]
  exact hinv'.setMembers hnamed members

/-! ## A new return type -/

/-- The addresses from which the function is not reached are closed under reads. Kind: L -/
theorem closed_avoids (h : Heap) (f : Addr) : Closed (fun a => ∃ n, avoids h f n a = true) h := by
  rintro a ⟨n, hn⟩ c hc
  cases n with
  | zero => simp [avoids] at hn
  | succ n =>
      rw [avoids, Bool.and_eq_true, List.all_eq_true] at hn
      exact ⟨n, hn.2 c hc⟩

theorem avoids_ne {h : Heap} {f a : Addr} (ha : ∃ n, avoids h f n a = true) : a ≠ f := by
  obtain ⟨n, hn⟩ := ha
  cases n with
  | zero => simp [avoids] at hn
  | succ n =>
      rw [avoids, Bool.and_eq_true] at hn
      simpa using hn.1

/-- Writing a function changes nothing that does not lead to it. Kind: L -/
theorem agreeOn_avoids (h : Heap) (f : Addr) (t : Ty) :
    AgreeOn (fun a => ∃ n, avoids h f n a = true) h (h.set f t) :=
  ⟨fun _ ha => h.set_of_ne t (avoids_ne ha), rfl, closed_avoids h f⟩

/-- The invariant without an entry for the function, after the function is written. Kind: L -/
theorem TableInv.setFunc (hinv : TableInv fuel table) {func : Addr} {t : Ty}
    (hfunc : func < table.next) (hrefs : ∀ c ∈ t.refs, c < table.next)
    (havoid : ∀ e ∈ entries table.types, avoids table.heap func fuel e.2 = true) :
    TableInv fuel { table with heap := table.heap.set func t } := by
  have hagree := agreeOn_avoids table.heap func t
  refine hinv.of_heap le_rfl le_rfl (fun e he => ?_) (fun e he f hf heq => ?_) (fun e he => ?_)
    (fun a ha c hc => ?_) (fun a ha => ?_)
  · exact hashType_frame hagree fuel e.2 ⟨fuel, havoid e he⟩ _
  · rw [← compareTypes_frame hagree fuel e.2 f.2 ⟨fuel, havoid e he⟩ ⟨fuel, havoid f hf⟩]
    exact heq
  · rw [hagree.types e.2 ⟨fuel, havoid e he⟩]
  · by_cases haf : a = func
    · subst haf
      rw [Heap.set_self] at hc
      exact hrefs c hc
    · rw [Heap.set_of_ne _ _ haf] at hc
      exact hinv.closed a ha c hc
  · rw [Heap.set_of_ne _ _ (Nat.ne_of_gt (lt_of_lt_of_le hfunc ha))]
    exact hinv.unallocated a ha

/-- A lookup of a stored type finds the type itself. Kind: L -/
theorem TableInv.find_stored (hinv : TableInv fuel table) {e : HashCode × Addr}
    (he : e ∈ entries table.types) (hmeets : meetsRemove fuel table e.2 = true) :
    ∃ hash i, findType fuel table e.2 = some (hash, some i) ∧
      (table.types.hashes i, table.types.elems i) = e := by
  rcases hfind : findType fuel table e.2 with _ | ⟨hash, found⟩
  · simp [meetsRemove, hfind] at hmeets
  obtain ⟨hhash, hsome, hnone, hret⟩ := findType_cases hinv hfind
  cases found with
  | none =>
      have hstored := (hinv.stored e he).2
      rw [hhash, Option.map_some, Option.some.injEq] at hstored
      exact absurd (compareTypes_self (hret e he)) (hnone rfl e he hstored.symm)
  | some i =>
      obtain ⟨hlt, hocc, heq⟩ := hsome i rfl
      exact ⟨hash, i, rfl, hinv.unique (Iff.mpr mem_entries ⟨i, hlt, hocc, rfl⟩) he heq⟩

theorem fits_of_subset {h : Heap} {next a : Addr} {types types' : HashTable Addr} {typeCount : ℕ}
    (hsub : ∀ e ∈ entries types', e ∈ entries types)
    (hfit : fits fuel ⟨h, next, types, typeCount⟩ a = true) :
    fits fuel ⟨h, next, types', typeCount⟩ a = true := by
  rw [fits, Bool.and_eq_true, List.all_eq_true] at hfit ⊢
  exact ⟨hfit.1, fun e he => hfit.2 e (hsub e he)⟩

/-- **A new return type** of a stored function that no other stored type leads to. Kind: P -/
theorem TableInv.change (hinv : TableInv fuel table) {func ret : Addr}
    (hmeets : meetsChange fuel table func ret = true) :
    ∃ type table', changeFunctionRetType fuel table func ret = some (type, table') ∧
      TableInv fuel table' := by
  simp only [meetsChange, Bool.and_eq_true, beq_iff_eq, decide_eq_true_eq, List.any_eq_true,
    List.all_eq_true, Bool.or_eq_true] at hmeets
  obtain ⟨⟨⟨⟨⟨htag, hret⟩, e, he, rfl⟩, hremove⟩, havoid⟩, hfit⟩ := hmeets
  obtain ⟨params, ret₀, decl, hbody⟩ : ∃ params ret₀ decl,
      (table.heap.types e.2).body = .func params ret₀ decl := by
    unfold Ty.tag at htag
    cases hb : (table.heap.types e.2).body <;> simp [hb, Body.tag] at htag ⊢
  have hwith : withRetType (table.heap.types e.2) ret =
      { table.heap.types e.2 with body := .func params ret decl } := by
    rw [withRetType, hbody]
  rw [hwith] at hfit
  obtain ⟨hash, i, hfind, hslot⟩ := hinv.find_stored he hremove
  obtain ⟨types, hrem, hinv₁, hperm⟩ := hinv.remove hremove
  have hperm := hperm hash i hfind
  rw [hslot] at hperm
  have hsub : ∀ f ∈ entries types, f ∈ entries table.types := fun f hf =>
    hperm.mem_iff.mpr (List.mem_cons_of_mem _ hf)
  have hindex := hinv.index_ne
  rw [hperm.pairwise_iff (fun {e f} hef => hef.symm), List.pairwise_cons] at hindex
  have hnot : ∀ f ∈ entries types, f.2 ≠ e.2 := fun f hf heq => hindex.1 f hf (by rw [heq])
  have hfunc := (hinv.stored e he).1
  have hinv₂ : TableInv fuel ⟨table.heap.set e.2
      { table.heap.types e.2 with body := .func params ret decl }, table.next, types,
      table.typeCount⟩ := by
    refine hinv₁.setFunc hfunc (fun c hc => ?_) fun f hf => ?_
    · simp only [Ty.refs, List.mem_cons] at hc
      obtain rfl | hc := hc
      · exact hret
      · exact hinv.closed e.2 hfunc c (by simp [Ty.refs, hbody, hc])
    · exact (havoid f (hsub f hf)).resolve_left (hnot f hf)
  have hfit' := fits_of_subset hsub hfit
  obtain ⟨⟨hash', hhash'⟩, hequal⟩ := fits_spec hfit' hnot
  have hself : ∀ t : Ty, (table.heap.set e.2 t).types e.2 = t := table.heap.set_self e.2
  obtain ⟨b, types', hins, hinv₃⟩ := hinv₂.insert hfunc hfit' hnot
    (fun f hf => by
      simp only [hself, Heap.set_of_ne _ _ (hnot f hf)]
      exact (hindex.1 f hf).symm)
    (by simpa using hinv.index_lt e he) hhash'
  have hreturn : comparisonsReturn fuel ⟨table.heap.set e.2
      { table.heap.types e.2 with body := .func params ret decl }, table.next, types,
      table.typeCount⟩ e.2 = true := by
    rw [comparisonsReturn, List.all_eq_true]
    exact fun f hf => Option.isSome_iff_ne_none.mpr (hequal f hf).1
  have helem : table.types.elems i = e.2 := congrArg Prod.snd hslot
  refine ⟨e.2, _, ?_, hinv₃⟩
  simp only [changeFunctionRetType, hbody, replaceTypeScoped, hfind, Option.bind_eq_bind,
    Option.bind_some, helem, hrem, hhash', hreturn, if_true, hins]

/-! ## Runs -/

theorem TableInv.replace (hinv : TableInv fuel table) {og : Addr} {next : TypeTable → Bool}
    (hmeets : meetsReplace fuel table og next = true) :
    ∃ table', removeFromTypeTable fuel table og = some table' ∧ TableInv fuel table' ∧
      next table' = true := by
  rw [meetsReplace, Bool.and_eq_true] at hmeets
  obtain ⟨types, hrem, hinv', -⟩ := hinv.remove hmeets.1
  simp only [hrem] at hmeets
  exact ⟨_, hrem, hinv', hmeets.2⟩

/-- **The step lemma**: an operation that meets its condition returns and keeps the invariant.
Kind: P -/
theorem step_inv (hinv : TableInv fuel table) (op : TableOp) (hmeets : meets fuel table op = true) :
    ∃ table', step fuel table op = some table' ∧ TableInv fuel table' := by
  cases op with
  | make init =>
      obtain ⟨found, type, table', hget, hinv', -⟩ := hinv.make hmeets
      exact ⟨table', by simp [step, hget], hinv'⟩
  | makeStruct name ns members flags =>
      obtain ⟨type, table', hmake, hinv'⟩ := hinv.makeStruct hmeets
      exact ⟨table', by simp [step, hmake], hinv'⟩
  | makeAlias aliased name ns flags =>
      obtain ⟨type, table', hmake, hinv'⟩ := hinv.makeAlias hmeets
      exact ⟨table', by simp [step, hmake], hinv'⟩
  | changeFunctionRetType func ret =>
      obtain ⟨type, table', hchange, hinv'⟩ := hinv.change hmeets
      exact ⟨table', by simp [step, hchange], hinv'⟩
  | remove type =>
      obtain ⟨types, hrem, hinv', -⟩ := hinv.remove hmeets
      exact ⟨_, hrem, hinv'⟩
  | replaceStruct og ns members flags =>
      obtain ⟨table₁, hrem, hinv₁, hnext⟩ := hinv.replace hmeets
      obtain ⟨type, table', hmake, hinv'⟩ := hinv₁.makeStruct hnext
      exact ⟨table', by simp [step, replaceStructType, hrem, hmake], hinv'⟩
  | replaceClass og ns flags =>
      obtain ⟨table₁, hrem, hinv₁, hnext⟩ := hinv.replace hmeets
      obtain ⟨found, type, table', hget, hinv', -⟩ := hinv₁.make hnext
      exact ⟨table', by simp [step, replaceClassType, makeClassType, hrem, hget], hinv'⟩
  | replaceAlias og aliased ns flags =>
      obtain ⟨table₁, hrem, hinv₁, hnext⟩ := hinv.replace hmeets
      obtain ⟨type, table', hmake, hinv'⟩ := hinv₁.makeAlias hnext
      exact ⟨table', by simp [step, replaceAliasType, hrem, hmake], hinv'⟩
  | update type members flags => exact ⟨_, rfl, hinv.update hmeets members⟩

/-- **The run lemma**, for every state of the run. Kind: P -/
theorem run_inv (ops : List TableOp) : ∀ table : TypeTable, TableInv fuel table →
    runMeets fuel table ops = true → ∀ n, ∃ table', run fuel table (ops.take n) = some table' ∧
      TableInv fuel table' := by
  induction ops with
  | nil => intro table hinv _ n; exact ⟨table, by simp [run], hinv⟩
  | cons op ops ih =>
      intro table hinv hmeets n
      cases n with
      | zero => exact ⟨table, rfl, hinv⟩
      | succ n =>
          rw [runMeets, Bool.and_eq_true] at hmeets
          obtain ⟨table₁, hstep, hinv₁⟩ := step_inv hinv op hmeets.1
          simp only [hstep] at hmeets
          obtain ⟨table', hrun, hinv'⟩ := ih table₁ hinv₁ hmeets.2 n
          refine ⟨table', ?_, hinv'⟩
          rw [List.take_succ_cons, run, List.foldlM_cons, hstep]
          exact hrun

/-- The heap before a type is allocated. -/
def emptyHeap (strings : Ptr → List UInt8) : Heap where
  types _ := ⟨flgNone, 0, none, none, .error⟩
  strings := strings

theorem empty_inv (fuel : ℕ) (strings : Ptr → List UInt8) :
    TableInv fuel (emptyTypeTable (emptyHeap strings) 0) := by
  have hempty : entries (emptyTypeTable (emptyHeap strings) 0).types = [] := entries_new 4
  refine ⟨new_wf 4, by simp [hempty], by simp [hempty], by simp [hempty], by simp [hempty], ?_, ?_⟩
  · exact fun a ha => absurd ha (Nat.not_lt_zero a)
  · exact fun a _ => rfl

/-- **Every state of a run of the table whose operations all meet their condition is right**: stored
hashes are those of the current contents, no two stored types compare equal, and no two have one
index. Kind: P -/
theorem run_tableOk (fuel : ℕ) (strings : Ptr → List UInt8) (ops : List TableOp)
    (hmeets : runMeets fuel (emptyTypeTable (emptyHeap strings) 0) ops = true) (n : ℕ) :
    ∃ table, run fuel (emptyTypeTable (emptyHeap strings) 0) (ops.take n) = some table ∧
      TableOk fuel table := by
  obtain ⟨table, hrun, hinv⟩ := run_inv ops _ (empty_inv fuel strings) hmeets n
  exact ⟨table, hrun, hinv.ok⟩

/-- Strings of one byte. -/
def someStrings (p : Ptr) : List UInt8 := [p.toUInt8]

/-- `i32`, `auto`, `void`, a function whose return type becomes `void`, a struct that is updated,
pointers to both, and removals. -/
def someRun : List TableOp :=
  [.make ⟨flgNone, 0, some 1, none, .primitive 10⟩, .make ⟨flgNone, 0, none, none, .auto⟩,
    .make ⟨flgNone, 0, none, none, .void⟩, .make ⟨flgNone, 0, some 2, none, .func [0] 1 none⟩,
    .changeFunctionRetType 3 2, .makeStruct (some 3) none [] flgNone,
    .make ⟨flgNone, 0, none, none, .pointer 4 false⟩,
    .make ⟨flgNone, 0, none, none, .pointer 3 false⟩, .update 4 [⟨4, 0, .fieldDecl⟩] flgNone,
    .remove 6, .replaceAlias 6 (some 0) none flgNone, .replaceClass 4 none flgNone]

theorem run_tableOk_someRun :
    runMeets 6 (emptyTypeTable (emptyHeap someStrings) 0) someRun = true ∧
      ∃ table, run 6 (emptyTypeTable (emptyHeap someStrings) 0) (someRun.take 12) = some table ∧
        TableOk 6 table := by
  have hmeets : runMeets 6 (emptyTypeTable (emptyHeap someStrings) 0) someRun = true := by
    decide +kernel
  exact ⟨hmeets, run_tableOk 6 someStrings someRun hmeets 12⟩

/-- A function with return type `auto`, a pointer to it, and then the return type `void`. -/
def pointerToFuncRun : List TableOp :=
  [.make ⟨flgNone, 0, some 1, none, .primitive 10⟩, .make ⟨flgNone, 0, none, none, .auto⟩,
    .make ⟨flgNone, 0, none, none, .void⟩, .make ⟨flgNone, 0, some 2, none, .func [0] 1 none⟩,
    .make ⟨flgNone, 0, none, none, .pointer 3 false⟩, .changeFunctionRetType 3 2]

/-- The stored hashes are those of the current contents. -/
def hashesCurrent (fuel : ℕ) (table : TypeTable) : Bool :=
  (entries table.types).all fun e =>
    (hashType table.heap fuel hashInit e.2).map (· ||| OCCUPIED_MASK) == some e.1

/-- The new return type changes the hash of the pointer to the function, which stays in the bucket
of its old hash. Kind: L -/
theorem changeFunctionRetType_stale_pointer :
    ∃ table, run 6 (emptyTypeTable (emptyHeap someStrings) 0) pointerToFuncRun = some table ∧
      ¬ TableOk 6 table := by
  have hrun : (run 6 (emptyTypeTable (emptyHeap someStrings) 0) pointerToFuncRun).map
      (hashesCurrent 6) = some false := by
    decide +kernel
  obtain ⟨table, htable, hstale⟩ := Option.map_eq_some_iff.mp hrun
  refine ⟨table, htable, fun hok => ?_⟩
  have : hashesCurrent 6 table = true := by
    rw [hashesCurrent, List.all_eq_true]
    intro e he
    rw [hok.hash_eq e he]
    exact beq_self_eq_true _
  simp [this] at hstale

end CxyCompiler.Frontend.TypeTableRuns
