import CxyCompiler.Core.HTable
import CxyCompiler.Lib.Simulation

/-!
# Scopes (`lang/middle/bind/scope.c`)

An `Env` points to the innermost open scope and to the first one. Scopes are records of a memory
that are linked in both directions; a popped scope stays behind its predecessor and is used again by
the next push. A field read through `NULL` or of a freed record, and a failed assertion, is `none`.

The log `L` only receives diagnostics and is left out. A name is the address of an interned string.

* `pushScope`, `popScope`, `releaseScope`, `defineSymbol`, `updateSymbol`, `findSymbol` — the
  operations of the source.
* `TableOk t m` — the symbol table `t` holds the bindings `m`; one lemma per operation on tables.
* `Chain` — **the scopes of an `Env`**: a doubly linked list, the open scopes first.
-/

namespace CxyCompiler.Middle.Bind

open CxyCompiler.Core CxyCompiler.Lib.Probing

/-- The address of an interned string. -/
abbrev Name := UInt64

/-- Source: `scope.h` `Symbol`. -/
structure Symbol (N : Type) where
  name : Name
  node : N
deriving Inhabited

/-- The links are addresses of scopes. Source: `scope.h` `Scope`. -/
structure Scope (N : Type) where
  symbols : HashTable (Symbol N)
  node : Option N
  next : Option ℕ
  prev : Option ℕ

/-- Source: `scope.h` `Env`. -/
structure Env where
  scope : Option ℕ
  first : Option ℕ

/-- The scopes that are allocated, and the next address to allocate. -/
structure Memory (N : Type) where
  scopes : ℕ → Option (Scope N)
  fresh : ℕ

/-- The builtins: whether they are loaded, the declaration of a name and its visibility.
Source: `builtins.c` `isBuiltinsInitialized`, `findBuiltinDecl`. -/
structure Builtins (N : Type) where
  isInitialized : Bool
  findBuiltinDecl : Name → Option N
  isPublic : N → Bool

section

variable {N : Type} [Inhabited N]

/-- Source: `scope.c` `compareSymbols`. -/
def compareSymbols (lhs rhs : Symbol N) : Bool := lhs.name == rhs.name

/-- Source: `utils.h` `isIgnoreVar`. -/
def isIgnoreVar (text : Name → String) (s : Name) : Bool := s != 0 && text s == "_"

def Memory.write (m : Memory N) (a : ℕ) (s : Option (Scope N)) : Memory N :=
  { m with scopes := fun b => if b = a then s else m.scopes b }

/-- Source: `scope.c` `newScope`. -/
def newScope (m : Memory N) (prev : Option ℕ) : Option (Memory N × ℕ) :=
  let next := m.fresh
  let m := { m.write next (some ⟨newHashTable, none, none, prev⟩) with fresh := next + 1 }
  match prev with
  | none => some (m, next)
  | some p => do
      let s ← m.scopes p
      some (m.write p (some { s with next := some next }), next)

/-- A list of scopes longer than the number of allocated ones is a cycle.
Source: `scope.c` `freeScopes`. -/
def freeScopes : ℕ → Memory N → Option ℕ → Option (Memory N)
  | _, m, none => some m
  | 0, _, some _ => none
  | fuel + 1, m, some a => do
      let s ← m.scopes a
      freeScopes fuel (m.write a none) s.next

/-- The scope that a push enters: the first one, a recycled one or a new one.
Source: `scope.c` `pushScope`. -/
def enterScope (m : Memory N) (env : Env) : Option (Memory N × Env) :=
  match env.scope with
  | none => some (m, { env with scope := env.first })
  | some a => do
      let s ← m.scopes a
      match s.next with
      | some b => some (m, { env with scope := some b })
      | none =>
          let (m, b) ← newScope m (some a)
          some (m, { env with scope := some b })

/-- Source: `scope.c` `pushScope`. -/
def pushScope (m : Memory N) (env : Env) (node : N) : Option (Memory N × Env) := do
  let (m, env) ← enterScope m env
  let a ← env.scope
  let s ← m.scopes a
  some (m.write a (some { s with node := some node }), env)

/-- The result holds the memory, the `Env` and the `Env` that the scope is released into.
Source: `scope.c` `releaseScope`. -/
def releaseScope (m : Memory N) (env : Env) : Option (Memory N × Env × Env) := do
  let a ← env.scope
  let into : Env := { first := some a, scope := some a }
  if env.first ≠ env.scope then
    let s ← m.scopes a
    let p ← s.prev
    let ps ← m.scopes p
    let m := m.write p (some { ps with next := s.next })
    let s ← m.scopes a
    let m := m.write a (some { s with prev := none })
    let s ← m.scopes a
    let m := m.write a (some { s with next := none })
    -- the link is read after it was cleared
    let s ← m.scopes a
    some (m, { env with scope := s.next }, into)
  else
    let s ← m.scopes a
    let m ← freeScopes m.fresh m s.next
    let s ← m.scopes a
    some (m.write a (some { s with next := none }), { scope := none, first := none }, into)

/-- Source: `scope.c` `popScope`. -/
def popScope (m : Memory N) (env : Env) : Option (Memory N × Env) := do
  let a ← env.scope
  let s ← m.scopes a
  some (m.write a (some { s with symbols := clearHashTable s.symbols }),
    { env with scope := s.prev })

/-- Source: `scope.c` `environmentInit`. -/
def environmentInit (m : Memory N) (node : N) : Option (Memory N × Env) := do
  let (m, a) ← newScope m none
  pushScope m { scope := none, first := some a } node

/-- The hash of a name, as the operations compute it. -/
def hashName (name : Name) : HashCode := hashPtr hashInit name

/-- Source: `scope.c` `defineSymbol`. -/
def defineSymbol (text : Name → String) (m : Memory N) (env : Env) (name : Name) (node : N) :
    Option (Memory N × Bool) := do
  let a ← env.scope
  if isIgnoreVar text name then some (m, false)
  else
    let s ← m.scopes a
    let (wasInserted, symbols) ← insertInHashTable compareSymbols id s.symbols ⟨name, node⟩
      (hashName name)
    some (m.write a (some { s with symbols }), wasInserted)

/-- Source: `scope.c` `updateSymbol`. -/
def updateSymbol (text : Name → String) (m : Memory N) (env : Env) (name : Name) (node : N) :
    Option (Memory N) := do
  let a ← env.scope
  if isIgnoreVar text name then some m
  else
    let s ← m.scopes a
    let (wasInserted, symbols) ← insertInHashTable compareSymbols id s.symbols ⟨name, node⟩
      (hashName name)
    if wasInserted then some (m.write a (some { s with symbols }))
    else
      let i ← ← findInHashTable compareSymbols symbols ⟨name, node⟩ (hashName name)
      let symbols := symbols.store i (symbols.hashes i) { symbols.elems i with node := node }
      some (m.write a (some { s with symbols }))

/-- The node that a scope's table has for a name. Source: `scope.c` `findSymbol`. -/
def lookupSymbol (t : HashTable (Symbol N)) (name : Name) : Option (Option N) := do
  let i ← findInHashTable compareSymbols t ⟨name, default⟩ (hashName name)
  some (i.map fun i => (t.elems i).node)

/-- The loop of `findSymbol`; a walk longer than the number of allocated scopes never ends.
Source: `scope.c` `findSymbol`. -/
def findLoop (m : Memory N) (name : Name) : ℕ → Option ℕ → Option (Option N)
  | _, none => some none
  | 0, some _ => none
  | fuel + 1, some a => do
      let s ← m.scopes a
      match ← lookupSymbol s.symbols name with
      | some node => some (some node)
      | none => findLoop m name fuel s.prev

/-- The public builtin of a name. Source: `scope.c` `findSymbol`. -/
def findBuiltin (builtins : Builtins N) (name : Name) : Option N :=
  if builtins.isInitialized then (builtins.findBuiltinDecl name).filter builtins.isPublic else none

/-- Source: `scope.c` `findSymbol`. -/
def findSymbol (builtins : Builtins N) (m : Memory N) (env : Env) (name : Name) :
    Option (Option N) := do
  match ← findLoop m name m.fresh env.scope with
  | some node => some (some node)
  | none => some (findBuiltin builtins name)

/-! ## Symbol tables -/

/-- **The table holds the bindings `m`.** -/
structure TableOk (t : HashTable (Symbol N)) (m : Name → Option N) : Prop where
  wf : Wf t
  hash_eq : ∀ e ∈ entries t, e.1 = hashName e.2.name ||| OCCUPIED_MASK
  distinct : (entries t).Pairwise fun e f => e.2.name ≠ f.2.name
  lookup : ∀ name node, m name = some node ↔ ∃ e ∈ entries t, e.2.name = name ∧ e.2.node = node

variable {t : HashTable (Symbol N)} {b : Name → Option N}

theorem TableOk.new : TableOk (newHashTable : HashTable (Symbol N)) fun _ => none where
  wf := new_wf 4
  hash_eq := by simp [newHashTable, entries_new]
  distinct := by simp [newHashTable, entries_new]
  lookup := by simp [newHashTable, entries_new]

theorem TableOk.clear (h : TableOk t b) : TableOk (clearHashTable t) fun _ => none := by
  obtain ⟨hwf, hnil⟩ := clear_spec h.wf
  exact ⟨hwf, by simp [hnil], by simp [hnil], by simp [hnil]⟩

omit [Inhabited N] in
/-- A name without an entry has no binding. Kind: L -/
theorem TableOk.eq_none (h : TableOk t b) {name : Name} (hno : ∀ e ∈ entries t, e.2.name ≠ name) :
    b name = none := by
  cases hb : b name with
  | none => rfl
  | some node =>
      obtain ⟨e, he, hname, -⟩ := (h.lookup name node).mp hb
      exact absurd hname (hno e he)

omit [Inhabited N] in
/-- No entry with the hash of a name compares equal to it, so none has the name. Kind: L -/
theorem TableOk.no_name (h : TableOk t b) {name : Name} {node : N}
    (hno : ∀ e ∈ entries t, e.1 = hashName name ||| OCCUPIED_MASK →
      compareSymbols e.2 ⟨name, node⟩ = false) : ∀ e ∈ entries t, e.2.name ≠ name := by
  rintro e he rfl
  have := hno e he (h.hash_eq e he)
  simp [compareSymbols] at this

omit [Inhabited N] in
/-- A lookup finds the bucket of the entry that has the name. Kind: L -/
theorem TableOk.find (h : TableOk t b) (name : Name) (node : N) :
    (∃ i, findInHashTable compareSymbols t ⟨name, node⟩ (hashName name) = some (some i) ∧
      i < t.capacity ∧ isBucketOccupied t i = true ∧ (t.elems i).name = name ∧
      b name = some (t.elems i).node) ∨
    findInHashTable compareSymbols t ⟨name, node⟩ (hashName name) = some none ∧ b name = none := by
  obtain ⟨r, hfind, hsome, hnone⟩ := find_spec compareSymbols h.wf (⟨name, node⟩ : Symbol N)
    (hashName name)
  cases r with
  | some i =>
      obtain ⟨hi, hocc, -, hcmp⟩ := hsome i rfl
      have hname : (t.elems i).name = name := by simpa [compareSymbols] using hcmp
      refine Or.inl ⟨i, hfind, hi, hocc, hname, ?_⟩
      rw [h.lookup]
      exact ⟨_, Iff.mpr mem_entries ⟨i, hi, hocc, rfl⟩, hname, rfl⟩
  | none => exact Or.inr ⟨hfind, h.eq_none (h.no_name (hnone rfl))⟩

theorem TableOk.lookupSymbol_eq (h : TableOk t b) (name : Name) :
    lookupSymbol t name = some (b name) := by
  rcases h.find name default with ⟨i, hfind, -, -, -, hb⟩ | ⟨hfind, hb⟩
  · simp [lookupSymbol, hfind, hb]
  · simp [lookupSymbol, hfind, hb]

/-- The bindings with one more. -/
def extend (b : Name → Option N) (name : Name) (node : N) : Name → Option N :=
  fun x => if x = name then some node else b x

/-- **Insertion** adds the binding of a name that has none, and nothing else. Kind: P -/
theorem TableOk.insert (h : TableOk t b) (name : Name) (node : N) :
    ∃ t', insertInHashTable compareSymbols id t ⟨name, node⟩ (hashName name) =
        some ((b name).isNone, t') ∧
      TableOk t' (if (b name).isNone then extend b name node else b) := by
  obtain ⟨inserted, t', hins, hwf, hfalse, htrue⟩ :=
    insert_spec compareSymbols h.wf id (⟨name, node⟩ : Symbol N) (hashName name)
  cases inserted with
  | false =>
      obtain ⟨rfl, e, he, -, hcmp⟩ := hfalse rfl
      have hb : b name = some e.2.node :=
        (h.lookup name e.2.node).mpr ⟨e, he, by simpa [compareSymbols] using hcmp, rfl⟩
      refine ⟨t', by simp [hins, hb], ?_⟩
      simpa [hb] using h
  | true =>
      obtain ⟨hno, hperm⟩ := htrue rfl
      have hname := h.no_name hno
      have hb := h.eq_none hname
      refine ⟨t', by simp [hins, hb], ?_⟩
      rw [hb, Option.isNone_none, if_pos rfl]
      refine ⟨hwf, ?_, ?_, fun x n => ?_⟩
      · intro e he
        rcases List.mem_cons.mp (hperm.mem_iff.mp he) with rfl | he'
        · rfl
        · exact h.hash_eq e he'
      · rw [hperm.pairwise_iff (fun hef => Ne.symm hef)]
        exact List.pairwise_cons.mpr ⟨fun e he => Ne.symm (hname e he), h.distinct⟩
      · simp only [hperm.mem_iff, List.mem_cons, extend]
        split_ifs with hx
        · subst hx
          constructor
          · rintro hn
            exact ⟨_, Or.inl rfl, rfl, Option.some.inj hn⟩
          · rintro ⟨e, rfl | he, hen, rfl⟩
            · rfl
            · exact absurd hen (hname e he)
        · rw [h.lookup]
          constructor
          · rintro ⟨e, he, hen⟩
            exact ⟨e, Or.inr he, hen⟩
          · rintro ⟨e, rfl | he, hen, hnode⟩
            · exact absurd hen.symm hx
            · exact ⟨e, he, hen, hnode⟩

/-- Overwriting the element of a bucket exchanges one entry for another. Kind: L -/
theorem entries_store {α : Type} {t : HashTable α} {i : ℕ} (hi : i < t.capacity)
    (hocc : isBucketOccupied t i = true) (elem : α) :
    ∃ others, List.Perm (entries t) ((t.hashes i, t.elems i) :: others) ∧
      List.Perm (entries (t.store i (t.hashes i) elem)) ((t.hashes i, elem) :: others) := by
  refine ⟨_, contents_update_none hi (slot_of_occupied hocc), ?_⟩
  have hslot := @slot_store _ t i _ elem hocc
  have hperm := contents_update_some (s := Function.update (slot t) i none) (t.hashes i, elem) hi
    (by simp)
  rw [Function.update_idem, ← hslot] at hperm
  exact hperm

omit [Inhabited N] in
/-- **Overwriting the node** of the entry that has a name. Kind: P -/
theorem TableOk.rebind (h : TableOk t b) {i : ℕ} (hi : i < t.capacity)
    (hocc : isBucketOccupied t i = true) (node : N) :
    TableOk (t.store i (t.hashes i) { t.elems i with node := node })
      (extend b (t.elems i).name node) := by
  obtain ⟨others, hold, hnew⟩ := entries_store hi hocc { t.elems i with node := node }
  have hpair := (hold.pairwise_iff (fun hef => Ne.symm hef)).mp h.distinct
  obtain ⟨hhead, htail⟩ := List.pairwise_cons.mp hpair
  have hothers : ∀ e ∈ others, e ∈ entries t := fun e he =>
    hold.mem_iff.mpr (List.mem_cons_of_mem _ he)
  have hslot := @slot_store _ t i _ { t.elems i with node := node } hocc
  refine ⟨⟨?_, h.wf.size_lt, ?_⟩, ?_, ?_, ?_⟩
  · show t.size = _
    rw [hnew.length_eq, List.length_cons, h.wf.size_eq, hold.length_eq, List.length_cons]
  · -- the free buckets and the homes stay
    show Reachable t.capacity (home t.capacity) _
    rw [hslot]
    intro j hj e he k hk hlt
    have hreach : ∀ e', slot t j = some e' → home t.capacity e' = home t.capacity e →
        slot t k ≠ none := fun e' he' hhome =>
      h.wf.reachable j hj e' he' k hk (by rw [hhome]; exact hlt)
    have hk' : slot t k ≠ none := by
      by_cases hji : j = i
      · subst hji
        rw [Function.update_self, Option.some.injEq] at he
        subst he
        exact hreach _ (slot_of_occupied hocc) rfl
      · rw [Function.update_of_ne hji] at he
        exact hreach e he rfl
    by_cases hki : k = i
    · subst hki
      rw [Function.update_self]
      simp
    · rw [Function.update_of_ne hki]
      exact hk'
  · intro e he
    rcases List.mem_cons.mp (hnew.mem_iff.mp he) with rfl | he'
    · exact h.hash_eq (t.hashes i, t.elems i) (Iff.mpr mem_entries ⟨i, hi, hocc, rfl⟩)
    · exact h.hash_eq e (hothers e he')
  · rw [hnew.pairwise_iff (fun hef => Ne.symm hef)]
    exact List.pairwise_cons.mpr ⟨hhead, htail⟩
  · intro x n
    simp only [hnew.mem_iff, List.mem_cons, extend]
    split_ifs with hx
    · subst hx
      constructor
      · intro hn
        exact ⟨_, Or.inl rfl, rfl, Option.some.inj hn⟩
      · rintro ⟨e, rfl | he, hen, rfl⟩
        · rfl
        · exact absurd hen.symm (hhead e he)
    · rw [h.lookup]
      constructor
      · rintro ⟨e, he, hen, hnode⟩
        rcases List.mem_cons.mp (hold.mem_iff.mp he) with rfl | he'
        · exact absurd hen.symm hx
        · exact ⟨e, Or.inr he', hen, hnode⟩
      · rintro ⟨e, rfl | he, hen, hnode⟩
        · exact absurd hen.symm hx
        · exact ⟨e, hothers e he, hen, hnode⟩

/-! ## The scopes of an `Env` -/

/-- The scope below depth `d` of a list of scopes. -/
def below (cs : List ℕ) : ℕ → Option ℕ
  | 0 => none
  | d + 1 => cs[d]?

/-- **The scopes at the addresses `cs` are linked in both directions**, and the `i`-th holds the
bindings `f i`. -/
structure Chain (m : Memory N) (cs : List ℕ) (f : ℕ → Name → Option N) : Prop where
  nodup : cs.Nodup
  bound : ∀ c ∈ cs, c < m.fresh
  linked : ∀ i c, cs[i]? = some c → ∃ s, m.scopes c = some s ∧ s.prev = below cs i ∧
    s.next = cs[i + 1]? ∧ TableOk s.symbols (f i)

variable {m : Memory N} {cs : List ℕ} {f : ℕ → Name → Option N}

omit [Inhabited N] in
/-- A list of distinct allocated scopes is no longer than their number. Kind: L -/
theorem Chain.length_le (h : Chain m cs f) : cs.length ≤ m.fresh := by
  rw [← List.toFinset_card_of_nodup h.nodup, ← Finset.card_range m.fresh]
  apply Finset.card_le_card
  intro c hc
  rw [Finset.mem_range]
  exact h.bound c (List.mem_toFinset.mp hc)

omit [Inhabited N] in
/-- Two places of a list of scopes are one. Kind: L -/
theorem Chain.index_unique (h : Chain m cs f) {i j c : ℕ} (hi : cs[i]? = some c)
    (hj : cs[j]? = some c) : i = j := by
  obtain ⟨hi', hic⟩ := List.getElem?_eq_some_iff.mp hi
  obtain ⟨hj', hjc⟩ := List.getElem?_eq_some_iff.mp hj
  exact h.nodup.getElem_inj_iff.mp (hic.trans hjc.symm)

omit [Inhabited N] in
/-- Writing a scope that keeps its links. Kind: L -/
theorem Chain.write (h : Chain m cs f) {i c : ℕ} (hi : cs[i]? = some c) {s : Scope N}
    (hprev : s.prev = below cs i) (hnext : s.next = cs[i + 1]?) {b : Name → Option N}
    (htable : TableOk s.symbols b) :
    Chain (m.write c (some s)) cs fun j => if j = i then b else f j := by
  refine ⟨h.nodup, h.bound, fun j c' hj => ?_⟩
  unfold Memory.write
  dsimp only
  by_cases hc : c' = c
  · subst hc
    have hji := h.index_unique hj hi
    subst hji
    exact ⟨s, if_pos rfl, hprev, hnext, by rwa [if_pos rfl]⟩
  · have hji : j ≠ i := by
      rintro rfl
      rw [hi, Option.some.injEq] at hj
      exact hc hj.symm
    rw [if_neg hc, if_neg hji]
    exact h.linked j c' hj

/-- The bindings that a walk from depth `d` to the first scope finds. -/
def visible (f : ℕ → Name → Option N) (name : Name) : ℕ → Option N
  | 0 => none
  | d + 1 => (f d name).or (visible f name d)

/-- **The walk of `findSymbol`** returns the innermost binding. Kind: P -/
theorem Chain.findLoop_eq (h : Chain m cs f) (name : Name) (d : ℕ) :
    ∀ fuel, d ≤ cs.length → d ≤ fuel → findLoop m name fuel (below cs d) =
      some (visible f name d) := by
  induction d with
  | zero => intro fuel _ _; cases fuel <;> rfl
  | succ d ih =>
      intro fuel hd hfuel
      obtain ⟨fuel, rfl⟩ : ∃ k, fuel = k + 1 := ⟨fuel - 1, by omega⟩
      have hc : cs[d]? = some cs[d] := List.getElem?_eq_getElem (by omega)
      obtain ⟨s, hs, hprev, -, htable⟩ := h.linked d _ hc
      show findLoop m name (fuel + 1) cs[d]? = _
      rw [hc]
      simp only [findLoop, hs, Option.bind_eq_bind, Option.bind_some,
        htable.lookupSymbol_eq, visible]
      cases hf : f d name with
      | some node => rfl
      | none =>
          dsimp only
          rw [hprev, ih fuel (by omega) (by omega), Option.none_or]

theorem Chain.findSymbol_eq (h : Chain m cs f) (builtins : Builtins N) {env : Env} {d : ℕ}
    (hd : d ≤ cs.length) (hscope : env.scope = below cs d) (name : Name) :
    findSymbol builtins m env name =
      some ((visible f name d).or (findBuiltin builtins name)) := by
  unfold findSymbol
  rw [hscope, h.findLoop_eq name d m.fresh hd (hd.trans h.length_le)]
  cases hv : visible f name d with
  | none => rfl
  | some node => rfl

theorem Chain.newScope (h : Chain m cs f) {d c : ℕ} (hd : cs.length = d + 1)
    (hc : cs[d]? = some c) :
    ∃ m', newScope m (some c) = some (m', m.fresh) ∧
      Chain m' (cs ++ [m.fresh]) fun j => if j = d + 1 then fun _ => none else f j := by
  obtain ⟨s, hs, hprev, hnext, htable⟩ := h.linked d c hc
  have hcmem : c ∈ cs := List.mem_of_getElem? hc
  have hlt := h.bound c hcmem
  have hbelow : ∀ i ≤ d + 1, below (cs ++ [m.fresh]) i = below cs i := by
    intro i hi
    cases i with
    | zero => rfl
    | succ i => exact List.getElem?_append_left (by omega)
  refine ⟨⟨fun a => if a = c then some { s with next := some m.fresh }
      else if a = m.fresh then some ⟨newHashTable, none, none, some c⟩ else m.scopes a,
    m.fresh + 1⟩, ?_, ?_⟩
  · unfold Bind.newScope Memory.write
    simp only [if_neg (Nat.ne_of_lt hlt), hs, Option.bind_eq_bind, Option.bind_some]
  · refine ⟨?_, ?_, ?_⟩
    · rw [List.nodup_append]
      refine ⟨h.nodup, List.nodup_singleton _, ?_⟩
      intro a ha b hb
      rw [List.mem_singleton] at hb
      have := h.bound a ha
      omega
    · intro a ha
      rcases List.mem_append.mp ha with ha | ha
      · exact (h.bound a ha).trans (Nat.lt_succ_self _)
      · rw [List.mem_singleton.mp ha]
        exact Nat.lt_succ_self _
    · intro i a hi
      dsimp only
      rcases Nat.lt_or_ge i cs.length with hil | hil
      · rw [List.getElem?_append_left hil] at hi
        have halt := h.bound a (List.mem_of_getElem? hi)
        have hid : i ≠ d + 1 := by omega
        rw [if_neg hid, hbelow i (by omega)]
        by_cases hac : a = c
        · subst hac
          have hi' := h.index_unique hi hc
          subst hi'
          rw [if_pos rfl]
          refine ⟨_, rfl, hprev, ?_, htable⟩
          rw [List.getElem?_append_right (by omega), hd, Nat.sub_self]
          rfl
        · rw [if_neg hac, if_neg (Nat.ne_of_lt halt)]
          obtain ⟨s', hs', hprev', hnext', htable'⟩ := h.linked i a hi
          refine ⟨s', hs', hprev', ?_, htable'⟩
          have hil' : i + 1 < cs.length := by
            by_contra hge
            have : i = d := by omega
            subst this
            rw [hc, Option.some.injEq] at hi
            exact hac hi.symm
          rw [hnext', List.getElem?_append_left hil']
      · have hid : i = d + 1 := by
          have := (List.getElem?_eq_some_iff.mp hi).1
          rw [List.length_append, List.length_singleton] at this
          omega
        subst hid
        rw [List.getElem?_append_right (by omega), hd, Nat.sub_self] at hi
        rw [List.getElem?_cons_zero, Option.some.injEq] at hi
        subst hi
        rw [if_neg (Nat.ne_of_gt hlt), if_pos rfl, if_pos rfl]
        refine ⟨_, rfl, ?_, ?_, TableOk.new⟩
        · rw [hbelow _ (Nat.le_refl _)]
          exact hc.symm
        · rw [List.getElem?_eq_none (by simp; omega)]

end

end CxyCompiler.Middle.Bind
