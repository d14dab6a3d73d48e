import CxyCompiler.Core.HTable

/-!
# String interning (`core/strpool.c`)

The strings of a pool live in blocks allocated from its memory pool; a pointer is the number of its
block, in order of allocation, and a block holds the bytes of its string and a terminating zero.
The table of the pool holds pointers. A string argument is the list of its bytes, `none` is `NULL`.

* `makeStringSized`, `makeString` — the two entry points; `none` as a result is the failed
  assertion of the source or a walk that never ends.
* `PoolWf` — **the pool invariant**: the table holds every block under the hash of its string, and
  no two blocks hold one string. Every call keeps it (`makeStringSized_spec`).
* `Interns args results pool` — what interning is for: the blocks returned hold the arguments, and
  two of them are one block exactly when the two arguments are one string.
* `prefersItself pool str` — the lookup of `str` does not stop at another string. It can, because
  `strncmp` is bounded by the length of `str`: a longer string of the same hash that starts with
  `str` matches too.
* `makeAll_interns_iff` — a sequence of calls interns its arguments if and only if each of them is
  made in a state with `prefersItself`.
-/

namespace CxyCompiler.Core

open CxyCompiler.Lib.Probing

/-! ## The pool -/

/-- The C library's bounded comparison, on the bytes at two addresses.
Source: `string.h` `strncmp`. -/
def strncmp (a b : List UInt8) : ℕ → ℤ
  | 0 => 0
  | n + 1 =>
      let x := a.headD 0
      let y := b.headD 0
      if x ≠ y then x.toNat - y.toNat
      else if x = 0 then 0
      else strncmp a.tail b.tail n

/-- Source: `strpool.h` `StrPool`. -/
structure StrPool where
  /-- The blocks allocated from the memory pool. -/
  memory : List (List UInt8)
  /-- The interned strings, by pointer. -/
  table : HashTable ℕ

/-- Source: `strpool.c` `newStrPool`. -/
def newStrPool : StrPool := ⟨[], newHashTable⟩

/-- The key is a `SizedString`: `right` are its `len` bytes.
Source: `strpool.c` `compareStrFind`. -/
def compareStrFind (memory : List (List UInt8)) (left : ℕ) (right : List UInt8) : Bool :=
  strncmp (memory.getD left []) right right.length == 0

/-- Source: `strpool.c` `compareStrInsert`. -/
def compareStrInsert (memory : List (List UInt8)) (left : ℕ) (right : List UInt8) : Bool :=
  strncmp (memory.getD left []) right right.length == 0

/-- The block a new string is copied to. -/
def block (str : List UInt8) : List UInt8 := str ++ [0]

/-- What the table stores for the key of an insertion is its first field, the new pointer.
Source: `strpool.c` `makeStringSized`. -/
def makeStringSized (pool : StrPool) : Option (List UInt8) → Option (Option ℕ × StrPool)
  | none => some (none, pool)
  | some str => do
      let hash := hashRawBytes hashInit str
      match ← findInHashTable (compareStrFind pool.memory) pool.table str hash with
      | some index => some (some (pool.table.elems index), pool)
      | none =>
          let newStr := pool.memory.length
          let memory := pool.memory ++ [block str]
          let (inserted, table) ←
            insertInHashTable (compareStrInsert memory) (fun _ => newStr) pool.table str hash
          if inserted then some (some newStr, ⟨memory, table⟩) else none

/-- The bytes of a C string before its terminator. -/
def cstr (str : List UInt8) : List UInt8 := str.takeWhile (· ≠ 0)

/-- Source: `strpool.c` `makeString`. -/
def makeString (pool : StrPool) (str : Option (List UInt8)) : Option (Option ℕ × StrPool) :=
  makeStringSized pool (str.map cstr)

/-! ## Sequences of calls -/

/-- A call of a client of the pool. -/
inductive Call where
  | makeString (str : Option (List UInt8))
  | makeStringSized (str : Option (List UInt8))

/-- The string a call is given. -/
def Call.arg : Call → Option (List UInt8)
  | .makeString str => str.map cstr
  | .makeStringSized str => str

/-- One call. -/
def Call.make (pool : StrPool) : Call → Option (Option ℕ × StrPool)
  | .makeString str => Core.makeString pool str
  | .makeStringSized str => Core.makeStringSized pool str

theorem Call.make_eq (pool : StrPool) (c : Call) :
    c.make pool = Core.makeStringSized pool c.arg := by
  cases c <;> rfl

/-- A sequence of calls, with the pointers they return. -/
def makeAll (pool : StrPool) : List Call → Option (List (Option ℕ) × StrPool)
  | [] => some ([], pool)
  | c :: cs => do
      let (result, pool) ← c.make pool
      let (results, pool) ← makeAll pool cs
      some (result :: results, pool)

/-- The pointer a call returned points to the string it was given. -/
def Returned (pool : StrPool) : Option ℕ → Option (List UInt8) → Prop
  | some ptr, some str => pool.memory[ptr]? = some (block str)
  | none, none => True
  | _, _ => False

/-- **Interning.** -/
structure Interns (args : List (Option (List UInt8))) (results : List (Option ℕ))
    (pool : StrPool) : Prop where
  /-- Every call returns a string with the bytes it was given. -/
  bytes : List.Forall₂ (Returned pool) results args
  /-- Two calls return one pointer exactly when they were given one string. -/
  eq_iff : ∀ i < args.length, ∀ j < args.length, results[i]? = results[j]? ↔ args[i]? = args[j]?

/-- No other string stops the lookup of `str`: where a string with the hash of `str` compares
equal to it without being it, `str` is stored before it on the chain. -/
def prefersItself (pool : StrPool) (str : List UInt8) : Prop :=
  let hash := hashRawBytes hashInit str ||| OCCUPIED_MASK
  let t := pool.table
  ∀ i < t.capacity, isBucketOccupied t i = true → t.hashes i = hash →
    strncmp (pool.memory.getD (t.elems i) []) str str.length = 0 →
    pool.memory[t.elems i]? ≠ some (block str) →
    ∃ j < t.capacity, isBucketOccupied t j = true ∧ t.hashes j = hash ∧
      pool.memory[t.elems j]? = some (block str) ∧
      gap t.capacity (firstBucket t hash) j < gap t.capacity (firstBucket t hash) i

/-- Every call of the sequence is made in a state with `prefersItself`. -/
def callsPreferThemselves (pool : StrPool) : List Call → Prop
  | [] => True
  | c :: cs => (∀ str, c.arg = some str → prefersItself pool str) ∧
      ∀ result pool', c.make pool = some (result, pool') → callsPreferThemselves pool' cs

/-! ## The pool invariant -/

/-- A string matches the block it was copied to. Kind: L -/
theorem strncmp_append (str rest : List UInt8) : strncmp (str ++ rest) str str.length = 0 := by
  induction str with
  | nil => rfl
  | cons x str ih =>
      simp only [List.length_cons, strncmp, List.cons_append, List.headD_cons, List.tail_cons,
        ne_eq, not_true_eq_false, if_false, ih, ite_self]

theorem block_injective {a b : List UInt8} (h : block a = block b) : a = b :=
  List.append_cancel_right h

/-- **The pool invariant.** -/
structure PoolWf (pool : StrPool) : Prop where
  wf : Wf pool.table
  /-- Every entry is a block stored under the hash of its string. -/
  stored : ∀ e ∈ entries pool.table, ∃ str, pool.memory[e.2]? = some (block str) ∧
    e.1 = hashRawBytes hashInit str ||| OCCUPIED_MASK
  /-- Every block is in the table. -/
  all : ∀ ptr < pool.memory.length, ∃ e ∈ entries pool.table, e.2 = ptr
  nodup : pool.memory.Nodup

theorem newStrPool_wf : PoolWf newStrPool where
  wf := new_wf 4
  stored := by
    intro e he
    have : entries (newHashTableWithCapacity (α := ℕ) 4) = [] := entries_new 4
    simp [newStrPool, newHashTable, this] at he
  all := by simp [newStrPool]
  nodup := by simp [newStrPool]

variable {pool : StrPool}

/-- The entry of a block that holds `str`. Kind: L -/
theorem PoolWf.entry_of_block (h : PoolWf pool) {str : List UInt8} {ptr : ℕ}
    (hptr : pool.memory[ptr]? = some (block str)) :
    (hashRawBytes hashInit str ||| OCCUPIED_MASK, ptr) ∈ entries pool.table := by
  obtain ⟨hlt, -⟩ := List.getElem?_eq_some_iff.mp hptr
  obtain ⟨e, he, rfl⟩ := h.all ptr hlt
  obtain ⟨str', hmem, hhash⟩ := h.stored e he
  rw [hptr, Option.some.injEq] at hmem
  rw [block_injective hmem, ← hhash]
  exact he

theorem compareStrFind_block {memory : List (List UInt8)} {ptr : ℕ} {str : List UInt8}
    (h : memory[ptr]? = some (block str)) : compareStrFind memory ptr str = true := by
  simp [compareStrFind, List.getD_eq_getElem?_getD, h, block, strncmp_append]

/-- A lookup that finds nothing: no block holds the string. Kind: L -/
theorem PoolWf.fresh (h : PoolWf pool) {str : List UInt8}
    (hnone : ∀ e ∈ entries pool.table, e.1 = hashRawBytes hashInit str ||| OCCUPIED_MASK →
      compareStrFind pool.memory e.2 str = false) : block str ∉ pool.memory := by
  intro hmem
  obtain ⟨ptr, hptr⟩ := List.mem_iff_getElem?.mp hmem
  have := hnone _ (h.entry_of_block hptr) rfl
  rw [compareStrFind_block hptr] at this
  simp at this

/-- An insertion after a lookup that found nothing succeeds and keeps the invariant. Kind: L -/
theorem PoolWf.insert (h : PoolWf pool) {str : List UInt8}
    (hnone : ∀ e ∈ entries pool.table, e.1 = hashRawBytes hashInit str ||| OCCUPIED_MASK →
      compareStrFind pool.memory e.2 str = false) :
    ∃ table, insertInHashTable (compareStrInsert (pool.memory ++ [block str]))
        (fun _ => pool.memory.length) pool.table str (hashRawBytes hashInit str) =
          some (true, table) ∧ PoolWf ⟨pool.memory ++ [block str], table⟩ := by
  obtain ⟨b, table, hins, hwf, hfalse, htrue⟩ :=
    insert_spec (compareStrInsert (pool.memory ++ [block str])) h.wf (fun _ => pool.memory.length)
      str (hashRawBytes hashInit str)
  have hold : ∀ e ∈ entries pool.table,
      (pool.memory ++ [block str])[e.2]? = pool.memory[e.2]? := by
    intro e he
    obtain ⟨str', hmem, -⟩ := h.stored e he
    obtain ⟨hlt, -⟩ := List.getElem?_eq_some_iff.mp hmem
    exact List.getElem?_append_left hlt
  cases b with
  | false =>
      obtain ⟨-, e, he, hhash, hcmp⟩ := hfalse rfl
      have := hnone e he hhash
      simp only [compareStrFind, compareStrInsert, List.getD_eq_getElem?_getD] at this hcmp
      rw [hold e he, this] at hcmp
      simp at hcmp
  | true =>
      obtain ⟨-, hperm⟩ := htrue rfl
      refine ⟨table, hins, hwf, ?_, ?_, ?_⟩
      · intro e he
        rcases List.mem_cons.mp (hperm.mem_iff.mp he) with rfl | he'
        · exact ⟨str, by simp, rfl⟩
        · obtain ⟨str', hmem, hhash⟩ := h.stored e he'
          exact ⟨str', by simpa only [hold e he'] using hmem, hhash⟩
      · intro ptr hptr
        rcases Nat.lt_or_ge ptr pool.memory.length with hlt | hge
        · obtain ⟨e, he, heq⟩ := h.all ptr hlt
          exact ⟨e, hperm.mem_iff.mpr (List.mem_cons_of_mem _ he), heq⟩
        · refine ⟨_, hperm.mem_iff.mpr List.mem_cons_self, ?_⟩
          simp at hptr
          omega
      · rw [List.nodup_append]
        refine ⟨h.nodup, by simp, ?_⟩
        intro a ha b hb hab
        rw [List.mem_singleton] at hb
        exact h.fresh hnone (hb ▸ hab ▸ ha)

/-- **One call.** It returns, keeps the invariant and the old blocks, and what it returns is the
string it was given if and only if no other string stops its lookup. Kind: P -/
theorem makeStringSized_spec (h : PoolWf pool) (str : List UInt8) :
    ∃ ptr pool', makeStringSized pool (some str) = some (some ptr, pool') ∧ PoolWf pool' ∧
      pool.memory <+: pool'.memory ∧ ptr < pool'.memory.length ∧
      (pool'.memory[ptr]? = some (block str) ↔ prefersItself pool str) := by
  obtain ⟨r, hfind, hsome, hnone⟩ :=
    find_spec (compareStrFind pool.memory) h.wf str (hashRawBytes hashInit str)
  cases r with
  | none =>
      have hno := hnone rfl
      obtain ⟨table, hins, hwf⟩ := h.insert hno
      refine ⟨pool.memory.length, ⟨pool.memory ++ [block str], table⟩,
        by simp [makeStringSized, hfind, hins], hwf, List.prefix_append _ _, by simp, ?_⟩
      refine ⟨fun _ i hi hocc hhash hcmp _ => ?_, fun _ => by simp⟩
      have := hno _ (Iff.mpr mem_entries ⟨i, hi, hocc, rfl⟩) hhash
      simp only [compareStrFind, hcmp] at this
      simp at this
  | some k =>
      obtain ⟨hk, hocc, hhash, hcmp⟩ := hsome k rfl
      obtain ⟨str', hblock, -⟩ := h.stored _ (Iff.mpr mem_entries ⟨k, hk, hocc, rfl⟩)
      obtain ⟨hlt, -⟩ := List.getElem?_eq_some_iff.mp hblock
      refine ⟨pool.table.elems k, pool, by simp [makeStringSized, hfind], h, List.prefix_refl _,
        hlt, ?_⟩
      constructor
      · -- the first match is the string itself, so every other match comes later
        intro hself i hi hocci hhashi hcmpi hne
        refine ⟨k, hk, hocc, hhash, hself, ?_⟩
        have hfirst := firstBucket_lt h.wf (hashRawBytes hashInit str ||| OCCUPIED_MASK)
        rcases lt_trichotomy
          (gap pool.table.capacity (firstBucket pool.table (hashRawBytes hashInit str |||
            OCCUPIED_MASK)) k)
          (gap pool.table.capacity (firstBucket pool.table (hashRawBytes hashInit str |||
            OCCUPIED_MASK)) i) with hki | hki | hki
        · exact hki
        · rw [gap_inj hfirst hk hi hki] at hself
          exact absurd hself hne
        · have := find_first _ h.wf hfind hi hki
          simp only [bucketMatches, hhashi, compareStrFind, hcmpi] at this
          simp at this
      · intro hpref
        by_contra hne
        obtain ⟨j, hj, -, hhashj, hblockj, hjk⟩ :=
          hpref k hk hocc hhash (by simpa [compareStrFind] using hcmp) hne
        have := find_first _ h.wf hfind hj hjk
        simp [bucketMatches, hhashj, compareStrFind_block hblockj] at this

/-- What a call returned stays where it is. Kind: L -/
theorem Returned.mono {pool' : StrPool} (h : pool.memory <+: pool'.memory) {ptr : ℕ}
    (hptr : ptr < pool.memory.length) (str : List UInt8) :
    Returned pool' (some ptr) (some str) ↔ pool.memory[ptr]? = some (block str) := by
  obtain ⟨rest, hrest⟩ := h
  simp only [Returned, ← hrest, List.getElem?_append_left hptr]

/-- **A sequence of calls.** Kind: P -/
theorem makeAll_spec (cs : List Call) :
    ∀ pool : StrPool, PoolWf pool →
      ∃ results pool', makeAll pool cs = some (results, pool') ∧ PoolWf pool' ∧
        pool.memory <+: pool'.memory ∧
        (List.Forall₂ (Returned pool') results (cs.map Call.arg) ↔
          callsPreferThemselves pool cs) := by
  induction cs with
  | nil =>
      intro pool h
      exact ⟨[], pool, rfl, h, List.prefix_refl _, by simp [callsPreferThemselves]⟩
  | cons c cs ih =>
      intro pool h
      cases harg : c.arg with
      | none =>
          obtain ⟨results, pool', hall, hwf, hpre, hiff⟩ := ih pool h
          have hmake : c.make pool = some (none, pool) := by
            rw [c.make_eq, harg]
            rfl
          refine ⟨none :: results, pool', by simp [makeAll, hmake, hall], hwf, hpre, ?_⟩
          simp [harg, Returned, callsPreferThemselves, hmake, hiff]
      | some str =>
          obtain ⟨ptr, pool₁, hmake, hwf₁, hpre₁, hptr, hself⟩ := makeStringSized_spec h str
          rw [← harg, ← c.make_eq] at hmake
          obtain ⟨results, pool', hall, hwf, hpre, hiff⟩ := ih pool₁ hwf₁
          refine ⟨some ptr :: results, pool', by simp [makeAll, hmake, hall], hwf,
            hpre₁.trans hpre, ?_⟩
          rw [List.map_cons, harg, List.forall₂_cons, Returned.mono hpre hptr, hself, hiff]
          simp [callsPreferThemselves, harg, hmake]

/-- Blocks that hold the arguments are one block exactly when the arguments are one string: no two
blocks hold one string. Kind: L -/
theorem PoolWf.eq_iff (h : PoolWf pool) {r r' : Option ℕ} {a a' : Option (List UInt8)}
    (hr : Returned pool r a) (hr' : Returned pool r' a') : r = r' ↔ a = a' := by
  match r, a, r', a', hr, hr' with
  | none, none, none, none, _, _ => simp
  | none, none, some _, some _, _, _ => simp
  | some _, some _, none, none, _, _ => simp
  | some ptr, some str, some ptr', some str', hr, hr' =>
      simp only [Returned] at hr hr'
      rw [Option.some.injEq, Option.some.injEq]
      constructor
      · rintro rfl
        rw [hr, Option.some.injEq] at hr'
        exact block_injective hr'
      · rintro rfl
        obtain ⟨hlt, -⟩ := List.getElem?_eq_some_iff.mp hr
        exact (List.getElem?_inj hlt h.nodup).mp (hr.trans hr'.symm)

/-- **A sequence of calls on a new pool interns its arguments if and only if no call's lookup is
stopped by another string.** Kind: P -/
theorem makeAll_interns_iff (cs : List Call) :
    ∃ results pool, makeAll newStrPool cs = some (results, pool) ∧
      (Interns (cs.map Call.arg) results pool ↔ callsPreferThemselves newStrPool cs) := by
  obtain ⟨results, pool, hall, hwf, -, hiff⟩ := makeAll_spec cs newStrPool newStrPool_wf
  refine ⟨results, pool, hall, ?_⟩
  rw [← hiff]
  refine ⟨Interns.bytes, fun hbytes => ⟨hbytes, fun i hi j hj => ?_⟩⟩
  have hlen := hbytes.length_eq
  have hr := List.Forall₂.get hbytes (hlen ▸ hi) hi
  have hr' := List.Forall₂.get hbytes (hlen ▸ hj) hj
  rw [List.getElem?_eq_getElem hi, List.getElem?_eq_getElem hj,
    List.getElem?_eq_getElem (hlen ▸ hi), List.getElem?_eq_getElem (hlen ▸ hj),
    Option.some.injEq, Option.some.injEq]
  exact hwf.eq_iff hr hr'

/-- `jfqgyh`, then `jfqgy`: the two hashes differ in the occupied bit only, and the second string is
a prefix of the first, so the second call returns the first string. Kind: L -/
theorem makeString_returns_longer_string :
    ¬ ∃ results pool,
      makeAll newStrPool [.makeString (some [106, 102, 113, 103, 121, 104]),
        .makeString (some [106, 102, 113, 103, 121])] = some (results, pool) ∧
      Interns ([Call.makeString (some [106, 102, 113, 103, 121, 104]),
        Call.makeString (some [106, 102, 113, 103, 121])].map Call.arg) results pool := by
  rintro ⟨results, pool, hall, hint⟩
  have hsame : (makeAll newStrPool [.makeString (some [106, 102, 113, 103, 121, 104]),
      .makeString (some [106, 102, 113, 103, 121])]).map (·.1) = some [some 0, some 0] := by
    decide +kernel
  rw [hall, Option.map_some, Option.some.injEq] at hsame
  subst hsame
  have hargs := (hint.eq_iff 0 (by decide) 1 (by decide)).mp rfl
  revert hargs
  decide

end CxyCompiler.Core
