import CxyCompiler.Core.Hash
import CxyCompiler.Lib.Probing

/-!
# The open-addressing hash table (`core/htable.c`, `core/primes.h`)

The table is the pair of parallel arrays of the source: `hashes i` is `0` in a free bucket and
carries the occupied bit otherwise, `elems i` is the element stored there. An array is a function
on indices, read below `capacity`. A loop of the source that walks the buckets runs with
`capacity` steps of fuel: after a full turn it would only repeat itself, so `none` stands for a
walk that never ends.

* `insertInHashTable`, `findInHashTable`, `rehashTable`, `removeFromHashTable`, `clearHashTable` —
  the operations, for an element type `α`, a key type `κ` and the caller's `compare`; the element
  stored for a key is `copy key`, the first `elemSize` bytes of the key.
* `slot t i` — the entry of a bucket, the reading of the two arrays that the probing library
  works on.
* `Wf t` — **the representation invariant**: `size` counts the occupied buckets, at least one
  bucket is free, and no free bucket lies between an entry and its home.
* `find_spec`, `insert_spec`, `remove_spec`, `clear_spec` — one specification per operation.
  The one of `removeFromHashTable` needs `noMoveAcrossEnd`: its comparison
  `desired <= index || desired > next` is the cyclic one only while the scan has not wrapped.
-/

namespace CxyCompiler.Core

open CxyCompiler.Lib.Probing

/-! ## Capacities -/

/-- Source: `primes.h` `primes`. -/
def primes : List ℕ :=
  [7, 17, 31, 67, 257, 1031, 4093, 8191, 16381, 32381, 65539, 131071, 262147, 524287, 1048583]

/-- The binary search of `nextPrime`; it returns the final `k`. The interval shrinks in every
round, so `primes.length` rounds are enough.
Source: `primes.h` `nextPrime`. -/
def nextPrimeSearch (i : ℕ) : ℕ → ℕ → ℕ → ℕ
  | 0, _, k => k
  | fuel + 1, j, k =>
      if j < k then
        let m := (j + k) / 2
        let p := primes.getD m 0
        if p ≤ i then nextPrimeSearch i fuel (m + 1) k else nextPrimeSearch i fuel j m
      else k

/-- Source: `primes.h` `nextPrime`. -/
def nextPrime (i : ℕ) : ℕ :=
  let k := nextPrimeSearch i primes.length 0 primes.length
  primes.getD (if k ≥ primes.length then primes.length - 1 else k) 0

/-- Every case of the switch, and its default, is the remainder.
Source: `primes.h` `modPrime`. -/
def modPrime (i p : ℕ) : ℕ := i % p

theorem nextPrime_pos (i : ℕ) : 0 < nextPrime i := by
  have hall : ∀ k < primes.length, 0 < primes.getD k 0 := by decide
  have hpos : 0 < primes.length := by decide
  unfold nextPrime
  apply hall
  split_ifs <;> omega

/-! ## The table -/

/-- The bit that marks a used bucket. Source: `htable.c` `OCCUPIED_MASK`. -/
def OCCUPIED_MASK : HashCode := 0x80000000

/-- Source: `htable.c` `MAX_LOAD_FACTOR`. -/
def MAX_LOAD_FACTOR : ℕ := 70

/-- Source: `htable.h` `HashTable`. -/
structure HashTable (α : Type) where
  /-- The number of buckets. -/
  capacity : ℕ
  /-- The number of stored elements. -/
  size : ℕ
  /-- The hash of each bucket, with the occupied bit. -/
  hashes : ℕ → HashCode
  /-- The element of each bucket. -/
  elems : ℕ → α

/-- Source: `htable.c` `isOccupiedHash`. -/
def isOccupiedHash (hash : HashCode) : Bool := hash &&& OCCUPIED_MASK != 0

section

variable {α κ : Type}

/-- Source: `htable.c` `isBucketOccupied`. -/
def isBucketOccupied (t : HashTable α) (i : ℕ) : Bool := isOccupiedHash (t.hashes i)

/-- Source: `htable.c` `needsRehash`. -/
def needsRehash (t : HashTable α) : Bool := t.size * 100 ≥ t.capacity * MAX_LOAD_FACTOR

/-- Write one bucket: the `memcpy` of the element and the store of the hash. -/
def HashTable.store (t : HashTable α) (i : ℕ) (hash : HashCode) (elem : α) : HashTable α :=
  { t with
    hashes := fun j => if j = i then hash else t.hashes j
    elems := fun j => if j = i then elem else t.elems j }

/-- The hashes of a new table are zeroed (`calloc`), its elements are not (`malloc`).
Source: `htable.c` `newHashTableWithCapacity`. -/
def newHashTableWithCapacity [Inhabited α] (capacity : ℕ) : HashTable α :=
  { capacity := nextPrime capacity, size := 0, hashes := fun _ => 0, elems := fun _ => default }

/-- Source: `htable.c` `newHashTable`, `DEFAULT_HASH_TABLE_CAPACITY`. -/
def newHashTable [Inhabited α] : HashTable α := newHashTableWithCapacity 4

/-- The capacity a table grows to. Source: `htable.c` `rehashTable`. -/
def grownCapacity (capacity : ℕ) : ℕ :=
  let newCapacity := nextPrime capacity
  if newCapacity ≤ capacity then capacity * 2 + 1 else newCapacity

/-- The body of the loop of `rehashTable`: bucket `i` of the old table goes to the first free
bucket of its chain in the new one.
Source: `htable.c` `rehashTable`. -/
def rehashBucket (old new : HashTable α) (i : ℕ) : Option (HashTable α) :=
  let hash := old.hashes i
  if !isOccupiedHash hash then some new
  else do
    let index ← probeWhile new.capacity (isBucketOccupied new) new.capacity
      (modPrime hash.toNat new.capacity)
    some (new.store index hash (old.elems i))

/-- Source: `htable.c` `rehashTable`. -/
def rehashTable [Inhabited α] (t : HashTable α) : Option (HashTable α) :=
  (List.range t.capacity).foldlM (rehashBucket t)
    { capacity := grownCapacity t.capacity, size := t.size, hashes := fun _ => 0,
      elems := fun _ => default }

variable (compare : α → κ → Bool)

/-- Bucket `i` holds an element with this hash that compares equal to the key. -/
def bucketMatches (t : HashTable α) (elem : κ) (hash : HashCode) (i : ℕ) : Bool :=
  t.hashes i == hash && compare (t.elems i) elem

/-- The walk common to insertion and lookup: past occupied buckets that do not match. -/
def probeFor (t : HashTable α) (elem : κ) (hash : HashCode) : Option ℕ :=
  probeWhile t.capacity (fun i => isBucketOccupied t i && !bucketMatches compare t elem hash i)
    t.capacity (modPrime hash.toNat t.capacity)

/-- Source: `htable.c` `insertInHashTable`. -/
def insertInHashTable [Inhabited α] (copy : κ → α) (t : HashTable α) (elem : κ) (hash : HashCode) :
    Option (Bool × HashTable α) := do
  let hash := hash ||| OCCUPIED_MASK
  let index ← probeFor compare t elem hash
  if isBucketOccupied t index then some (false, t)
  else
    let t := { t.store index hash (copy elem) with size := t.size + 1 }
    if needsRehash t then (rehashTable t).map (true, ·) else some (true, t)

/-- The result is the bucket of the element found, or `none` for `NULL`.
Source: `htable.c` `findInHashTable`. -/
def findInHashTable (t : HashTable α) (elem : κ) (hash : HashCode) : Option (Option ℕ) := do
  let index ← probeFor compare t elem (hash ||| OCCUPIED_MASK)
  some (if isBucketOccupied t index then some index else none)

/-- The loop of `removeFromHashTable`; it returns the table and the final hole.
Source: `htable.c` `removeFromHashTable`. -/
def removeShift : ℕ → HashTable α → ℕ → ℕ → Option (HashTable α × ℕ)
  | 0, _, _, _ => none
  | fuel + 1, t, index, nextIndex =>
      if !isBucketOccupied t nextIndex then some (t, index)
      else
        let nextHash := t.hashes nextIndex
        let desiredIndex := modPrime nextHash.toNat t.capacity
        if desiredIndex ≤ index || desiredIndex > nextIndex then
          removeShift fuel (t.store index nextHash (t.elems nextIndex)) nextIndex
            (incr t.capacity nextIndex)
        else removeShift fuel t index (incr t.capacity nextIndex)

/-- The element to remove is given by its bucket, which is what `elem` points into.
Source: `htable.c` `removeFromHashTable`. -/
def removeFromHashTable (t : HashTable α) (index : ℕ) : Option (HashTable α) := do
  let (t, index) ← removeShift t.capacity t index (incr t.capacity index)
  some { t with hashes := fun j => if j = index then 0 else t.hashes j, size := t.size - 1 }

/-- Source: `htable.c` `clearHashTable`. -/
def clearHashTable (t : HashTable α) : HashTable α :=
  if t.size == 0 then t else { t with size := 0, hashes := fun _ => 0 }

end

/-! ## Entries and the representation invariant -/

section

variable {α κ : Type} {t : HashTable α}

/-- The entry of a bucket: its hash and its element. -/
def slot (t : HashTable α) (i : ℕ) : Option (HashCode × α) :=
  if isBucketOccupied t i then some (t.hashes i, t.elems i) else none

/-- The bucket at which the chain of an entry starts. -/
def home (capacity : ℕ) (e : HashCode × α) : ℕ := modPrime e.1.toNat capacity

/-- The entries of a table. -/
def entries (t : HashTable α) : List (HashCode × α) := contents t.capacity (slot t)

/-- **The representation invariant.** -/
structure Wf (t : HashTable α) : Prop where
  /-- `size` counts the occupied buckets. -/
  size_eq : t.size = (entries t).length
  /-- At least one bucket is free. -/
  size_lt : t.size < t.capacity
  /-- No free bucket lies between an entry and its home. -/
  reachable : Reachable t.capacity (home t.capacity) (slot t)

theorem isOccupiedHash_or (h : HashCode) : isOccupiedHash (h ||| OCCUPIED_MASK) = true := by
  have hne : (h ||| OCCUPIED_MASK) &&& OCCUPIED_MASK = OCCUPIED_MASK := by
    apply UInt32.toBitVec_inj.mp
    rw [UInt32.toBitVec_and, UInt32.toBitVec_or]
    ext i hi
    simp only [BitVec.getElem_or, BitVec.getElem_and]
    cases h.toBitVec[i] <;> cases OCCUPIED_MASK.toBitVec[i] <;> rfl
  simp only [isOccupiedHash, hne]
  decide

@[simp] theorem isOccupiedHash_zero : isOccupiedHash 0 = false := by decide

theorem home_lt {capacity : ℕ} (h : 0 < capacity) (e : HashCode × α) : home capacity e < capacity :=
  Nat.mod_lt _ h

theorem slot_eq_none {i : ℕ} : slot t i = none ↔ isBucketOccupied t i = false := by
  unfold slot
  split_ifs with h <;> simp [h]

theorem slot_eq_some {i : ℕ} {e : HashCode × α} :
    slot t i = some e ↔ isBucketOccupied t i = true ∧ e = (t.hashes i, t.elems i) := by
  unfold slot
  split_ifs with h
  · simp [h, eq_comm]
  · simp [h]

theorem slot_of_occupied {i : ℕ} (h : isBucketOccupied t i = true) :
    slot t i = some (t.hashes i, t.elems i) := slot_eq_some.mpr ⟨h, rfl⟩

/-- Storing an entry with the occupied bit fills its slot. Kind: L -/
theorem slot_store {i : ℕ} {hash : HashCode} {elem : α} (h : isOccupiedHash hash = true) :
    slot (t.store i hash elem) = Function.update (slot t) i (some (hash, elem)) := by
  funext j
  by_cases hj : j = i
  · subst hj
    simp [slot, isBucketOccupied, HashTable.store, h]
  · rw [Function.update_of_ne hj]
    unfold slot isBucketOccupied HashTable.store
    simp only [hj, if_false]

theorem mem_entries {e : HashCode × α} :
    e ∈ entries t ↔ ∃ i < t.capacity, isBucketOccupied t i = true ∧
      e = (t.hashes i, t.elems i) := by
  simp [entries, mem_contents, slot_eq_some]

theorem length_entries :
    (entries t).length = ((List.range t.capacity).filter (isBucketOccupied t)).length := by
  unfold entries contents
  induction List.range t.capacity with
  | nil => rfl
  | cons i l ih =>
      by_cases hocc : isBucketOccupied t i = true
      · rw [List.filterMap_cons_some (slot_of_occupied hocc), List.filter_cons_of_pos hocc,
          List.length_cons, List.length_cons, ih]
      · rw [List.filterMap_cons_none (Iff.mpr slot_eq_none (by simpa using hocc)),
          List.filter_cons_of_neg hocc, ih]

/-- A relation between the entries is one between the occupied buckets. Kind: L -/
theorem pairwise_slots {r : HashCode × α → HashCode × α → Prop} (h : (entries t).Pairwise r)
    {i j : ℕ} (hij : i < j) (hj : j < t.capacity) (hocci : isBucketOccupied t i = true)
    (hoccj : isBucketOccupied t j = true) : r (t.hashes i, t.elems i) (t.hashes j, t.elems j) :=
  pairwise_contents h hij hj (slot_of_occupied hocci) (slot_of_occupied hoccj)

theorem Wf.capacity_pos (h : Wf t) : 0 < t.capacity := by
  have := h.size_lt
  omega

theorem Wf.exists_free (h : Wf t) : ∃ i < t.capacity, isBucketOccupied t i = false := by
  have hlt := h.size_lt
  rw [h.size_eq] at hlt
  obtain ⟨i, hi, hfree⟩ := exists_empty hlt
  exact ⟨i, hi, Iff.mp slot_eq_none hfree⟩

/-- A table whose buckets are all free has no entries. Kind: L -/
theorem entries_zero (capacity size : ℕ) (elems : ℕ → α) :
    entries ⟨capacity, size, fun _ => 0, elems⟩ = [] := by
  simp [entries, contents, slot, isBucketOccupied]

theorem wf_zero {capacity : ℕ} (h : 0 < capacity) (elems : ℕ → α) :
    Wf ⟨capacity, 0, fun _ => 0, elems⟩ where
  size_eq := by simp [entries_zero]
  size_lt := h
  reachable := by
    intro i _ e he
    simp [slot, isBucketOccupied] at he

theorem new_wf [Inhabited α] (capacity : ℕ) : Wf (newHashTableWithCapacity (α := α) capacity) :=
  wf_zero (nextPrime_pos capacity) _

theorem entries_new [Inhabited α] (capacity : ℕ) :
    entries (newHashTableWithCapacity (α := α) capacity) = [] := entries_zero _ _ _

/-! ## Lookup and insertion -/

section lookup

variable (compare : α → κ → Bool)

/-- The bucket at which the walk for a hash starts. -/
def firstBucket (t : HashTable α) (hash : HashCode) : ℕ := modPrime hash.toNat t.capacity

theorem firstBucket_lt (h : Wf t) (hash : HashCode) : firstBucket t hash < t.capacity :=
  Nat.mod_lt _ h.capacity_pos

/-- **The common walk.** It ends at the first bucket of the chain that is free or matches; if it
ends at a free bucket, no entry with this hash matches. Kind: P -/
theorem probeFor_spec (h : Wf t) (elem : κ) (hash : HashCode) :
    ∃ i, probeFor compare t elem hash = some i ∧ i < t.capacity ∧
      (isBucketOccupied t i = true → bucketMatches compare t elem hash i = true) ∧
      (isBucketOccupied t i = false →
        ∀ e ∈ entries t, e.1 = hash → compare e.2 elem = false) ∧
      ∀ j < t.capacity,
        gap t.capacity (firstBucket t hash) j < gap t.capacity (firstBucket t hash) i →
        isBucketOccupied t j = true ∧ bucketMatches compare t elem hash j = false := by
  obtain ⟨f, hf, hfree⟩ := h.exists_free
  have hhome := firstBucket_lt h hash
  obtain ⟨i, hprobe, hi, hstop, hall⟩ :=
    probeWhile_spec (fun i => isBucketOccupied t i && !bucketMatches compare t elem hash i)
      hhome hf (by simp [hfree])
  refine ⟨i, hprobe, hi, fun hocc => by simpa [hocc] using hstop, fun hempty => ?_, ?_⟩
  · rintro e he rfl
    obtain ⟨k, hk, hocc, rfl⟩ := Iff.mp mem_entries he
    -- the free bucket cannot lie before the entry on its chain, so the walk passed the entry
    have hne : i ≠ k := by rintro rfl; simp [hempty] at hocc
    have hlt : gap t.capacity (firstBucket t (t.hashes k)) k <
        gap t.capacity (firstBucket t (t.hashes k)) i := by
      rcases lt_trichotomy (gap t.capacity (firstBucket t (t.hashes k)) k)
        (gap t.capacity (firstBucket t (t.hashes k)) i) with hlt | heq | hgt
      · exact hlt
      · exact absurd (gap_inj hhome hk hi heq).symm hne
      · exact absurd (Iff.mpr slot_eq_none hempty)
          (h.reachable k hk _ (slot_of_occupied hocc) i hi hgt)
    have hgo := hall k hk hlt
    simpa [hocc, bucketMatches] using hgo
  · intro j hj hlt
    simpa using hall j hj hlt

/-- **Lookup.** It returns a bucket whose entry has this hash and matches, or `NULL` when there is
none. Kind: P -/
theorem find_spec (h : Wf t) (elem : κ) (hash : HashCode) :
    ∃ r, findInHashTable compare t elem hash = some r ∧
      (∀ i, r = some i → i < t.capacity ∧ isBucketOccupied t i = true ∧
        t.hashes i = hash ||| OCCUPIED_MASK ∧ compare (t.elems i) elem = true) ∧
      (r = none → ∀ e ∈ entries t, e.1 = hash ||| OCCUPIED_MASK → compare e.2 elem = false) := by
  obtain ⟨i, hprobe, hi, hocc, hfree, -⟩ := probeFor_spec compare h elem (hash ||| OCCUPIED_MASK)
  refine ⟨if isBucketOccupied t i then some i else none, by simp [findInHashTable, hprobe], ?_, ?_⟩
  · intro j hj
    split_ifs at hj with hb
    rw [Option.some.injEq] at hj
    subst hj
    have hmatch := hocc hb
    simp only [bucketMatches, Bool.and_eq_true, beq_iff_eq] at hmatch
    exact ⟨hi, hb, hmatch⟩
  · intro hnone
    split_ifs at hnone with hb
    exact hfree (by simpa using hb)

/-- The bucket a lookup returns is the first of its chain that matches. Kind: L -/
theorem find_first (h : Wf t) {elem : κ} {hash : HashCode} {i : ℕ}
    (hfind : findInHashTable compare t elem hash = some (some i)) {j : ℕ} (hj : j < t.capacity)
    (hlt : gap t.capacity (firstBucket t (hash ||| OCCUPIED_MASK)) j <
      gap t.capacity (firstBucket t (hash ||| OCCUPIED_MASK)) i) :
    bucketMatches compare t elem (hash ||| OCCUPIED_MASK) j = false := by
  obtain ⟨k, hprobe, -, -, -, hall⟩ := probeFor_spec compare h elem (hash ||| OCCUPIED_MASK)
  have hki : k = i := by
    simp only [findInHashTable, hprobe, Option.bind_eq_bind, Option.bind_some,
      Option.some.injEq] at hfind
    split_ifs at hfind
    exact Option.some.inj hfind
  subst hki
  exact (hall j hj hlt).2

/-- Storing a new entry at the free bucket its walk ends at. Kind: L -/
theorem Wf.store (elem : α) (size : ℕ) {i : ℕ} {hash : HashCode}
    (hreach : Reachable t.capacity (home t.capacity) (slot t)) (hi : i < t.capacity)
    (hocc : isOccupiedHash hash = true) (hfree : isBucketOccupied t i = false)
    (hchain : ∀ j < t.capacity, gap t.capacity (modPrime hash.toNat t.capacity) j <
      gap t.capacity (modPrime hash.toNat t.capacity) i → slot t j ≠ none) :
    Reachable t.capacity (home t.capacity) (slot { t.store i hash elem with size := size }) ∧
      List.Perm (entries { t.store i hash elem with size := size })
        ((hash, elem) :: entries t) := by
  have hslot : slot { t.store i hash elem with size := size } =
      Function.update (slot t) i (some (hash, elem)) := slot_store hocc
  refine ⟨?_, ?_⟩
  · rw [hslot]
    exact hreach.update_some (hash, elem) hchain
  · unfold entries
    rw [hslot]
    exact contents_update_some _ hi (Iff.mpr slot_eq_none hfree)

/-- One round of `rehashTable` moves one bucket's entry, if it has one. Kind: L -/
theorem rehashBucket_spec (old : HashTable α) {new : HashTable α} (i : ℕ)
    (hreach : Reachable new.capacity (home new.capacity) (slot new))
    (hroom : (entries new).length < new.capacity) :
    ∃ new', rehashBucket old new i = some new' ∧ new'.capacity = new.capacity ∧
      new'.size = new.size ∧ Reachable new'.capacity (home new'.capacity) (slot new') ∧
      List.Perm (entries new') ((slot old i).toList ++ entries new) := by
  by_cases hocc : isOccupiedHash (old.hashes i) = true
  · obtain ⟨f, hf, hfree⟩ := exists_empty hroom
    have hhome : modPrime (old.hashes i).toNat new.capacity < new.capacity :=
      Nat.mod_lt _ (by omega)
    obtain ⟨k, hprobe, hk, hstop, hall⟩ :=
      probeWhile_spec (isBucketOccupied new) hhome hf (Iff.mp slot_eq_none hfree)
    obtain ⟨hreach', hperm⟩ := Wf.store (old.elems i) new.size hreach hk hocc hstop
      (fun j hj hlt hnone => by simpa [Iff.mp slot_eq_none hnone] using hall j hj hlt)
    refine ⟨new.store k (old.hashes i) (old.elems i), by
      simp [rehashBucket, hocc, hprobe], rfl, rfl,
      hreach', ?_⟩
    rw [slot_of_occupied hocc]
    exact hperm
  · exact ⟨new, by simp [rehashBucket, hocc], rfl, rfl, hreach, by
      simp [slot, isBucketOccupied, hocc]⟩

theorem lt_grownCapacity (capacity : ℕ) : capacity < grownCapacity capacity := by
  unfold grownCapacity
  dsimp only
  split_ifs <;> omega

/-- Moving the buckets of a range, one after another, moves their entries. Kind: L -/
theorem foldlM_rehashBucket_spec (old : HashTable α) (l : List ℕ) :
    ∀ new : HashTable α, Reachable new.capacity (home new.capacity) (slot new) →
      (l.filterMap (slot old)).length + (entries new).length < new.capacity →
      ∃ new', l.foldlM (rehashBucket old) new = some new' ∧ new'.capacity = new.capacity ∧
        new'.size = new.size ∧ Reachable new'.capacity (home new'.capacity) (slot new') ∧
        List.Perm (entries new') (l.filterMap (slot old) ++ entries new) := by
  induction l with
  | nil =>
      intro new hreach _
      exact ⟨new, rfl, rfl, rfl, hreach, by simp⟩
  | cons i l ih =>
      intro new hreach hroom
      have hsplit : (i :: l).filterMap (slot old) =
          (slot old i).toList ++ l.filterMap (slot old) := by
        cases h : slot old i <;> simp [h]
      rw [hsplit, List.length_append] at hroom
      obtain ⟨new₁, hstep, hcap, hsize, hreach₁, hperm⟩ :=
        rehashBucket_spec old i hreach (by omega)
      have hlen := hperm.length_eq
      rw [List.length_append] at hlen
      obtain ⟨new₂, hrest, hcap₂, hsize₂, hreach₂, hperm₂⟩ := ih new₁ hreach₁ (by omega)
      refine ⟨new₂, by simp [List.foldlM_cons, hstep, hrest], hcap₂.trans hcap,
        hsize₂.trans hsize, hreach₂, ?_⟩
      rw [hsplit]
      refine hperm₂.trans ((hperm.append_left _).trans ?_)
      rw [← List.append_assoc]
      exact List.perm_append_comm.append_right _

/-- **Rehashing.** It ends, keeps the entries and restores the invariant. Kind: P -/
theorem rehash_spec [Inhabited α] (hsize : t.size = (entries t).length)
    (hle : t.size ≤ t.capacity) :
    ∃ t', rehashTable t = some t' ∧ Wf t' ∧ List.Perm (entries t') (entries t) := by
  have hlt := lt_grownCapacity t.capacity
  obtain ⟨t', hrun, hcap, hsz, hreach, hperm⟩ :=
    foldlM_rehashBucket_spec t (List.range t.capacity)
      ⟨grownCapacity t.capacity, t.size, fun _ => 0, fun _ => default⟩
      (wf_zero (by omega) _).reachable
      (by
        rw [entries_zero]
        change (entries t).length + 0 < _
        simp only
        omega)
  rw [entries_zero, List.append_nil] at hperm
  have hcap' : t'.capacity = grownCapacity t.capacity := hcap
  have hsz' : t'.size = t.size := hsz
  exact ⟨t', hrun, ⟨by rw [hsz', hsize]; exact hperm.length_eq.symm, by omega, hreach⟩, hperm⟩

/-- **Insertion.** Either a matching entry was there and nothing changes, or there was none and
the entry is added. Kind: P -/
theorem insert_spec [Inhabited α] (h : Wf t) (copy : κ → α) (elem : κ) (hash : HashCode) :
    ∃ b t', insertInHashTable compare copy t elem hash = some (b, t') ∧ Wf t' ∧
      (b = false → t' = t ∧
        ∃ e ∈ entries t, e.1 = hash ||| OCCUPIED_MASK ∧ compare e.2 elem = true) ∧
      (b = true → (∀ e ∈ entries t, e.1 = hash ||| OCCUPIED_MASK → compare e.2 elem = false) ∧
        List.Perm (entries t') ((hash ||| OCCUPIED_MASK, copy elem) :: entries t)) := by
  obtain ⟨i, hprobe, hi, hocc, hfree, hall⟩ :=
    probeFor_spec compare h elem (hash ||| OCCUPIED_MASK)
  by_cases hb : isBucketOccupied t i = true
  · refine ⟨false, t, by simp [insertInHashTable, hprobe, hb], h, fun _ => ⟨rfl, ?_⟩, by simp⟩
    have hmatch := hocc hb
    simp only [bucketMatches, Bool.and_eq_true, beq_iff_eq] at hmatch
    exact ⟨_, Iff.mpr mem_entries ⟨i, hi, hb, rfl⟩, hmatch⟩
  · have hb' : isBucketOccupied t i = false := by simpa using hb
    have hnone := hfree hb'
    obtain ⟨hreach, hperm⟩ := Wf.store (copy elem) (t.size + 1) h.reachable hi
      (isOccupiedHash_or hash) hb' fun j hj hlt hempty => by
        simpa [Iff.mp slot_eq_none hempty] using (hall j hj hlt).1
    set t₁ : HashTable α :=
      { t.store i (hash ||| OCCUPIED_MASK) (copy elem) with size := t.size + 1 } with ht₁
    have hsize : t₁.size = (entries t₁).length := by
      rw [hperm.length_eq, List.length_cons, ← h.size_eq]
    have hcap : t₁.capacity = t.capacity := rfl
    have hsz : t₁.size = t.size + 1 := rfl
    have hlt := h.size_lt
    by_cases hre : needsRehash t₁ = true
    · obtain ⟨t₂, hrun, hwf, hperm₂⟩ := rehash_spec hsize (by omega)
      exact ⟨true, t₂, by simp [insertInHashTable, hprobe, hb, ← ht₁, hre, hrun], hwf, by simp,
        fun _ => ⟨hnone, hperm₂.trans hperm⟩⟩
    · refine ⟨true, t₁, by simp [insertInHashTable, hprobe, hb, ← ht₁, hre], ⟨hsize, ?_, hreach⟩,
        by simp, fun _ => ⟨hnone, hperm⟩⟩
      have hload : ¬ t₁.size * 100 ≥ t₁.capacity * 70 := by
        simpa [needsRehash, MAX_LOAD_FACTOR] using hre
      omega

end lookup

/-! ## Removal -/

/-- **The scan of a removal moves nothing across the end of the array in front of its home.** The
scan is the one of `removeFromHashTable`; what is asked of it concerns only a move made after the
scan has wrapped while the hole has not (`nextIndex < index`): there the source compares as if the
array did not wrap, and the move is right only for an entry whose home is behind the hole. -/
def noMoveAcrossEnd (t : HashTable α) : ℕ → ℕ → ℕ → Bool
  | 0, _, _ => true
  | fuel + 1, index, nextIndex =>
      if !isBucketOccupied t nextIndex then true
      else
        let desiredIndex := modPrime (t.hashes nextIndex).toNat t.capacity
        if desiredIndex ≤ index || desiredIndex > nextIndex then
          (index < nextIndex || (nextIndex < desiredIndex && desiredIndex ≤ index)) &&
            noMoveAcrossEnd t fuel nextIndex (incr t.capacity nextIndex)
        else noMoveAcrossEnd t fuel index (incr t.capacity nextIndex)

/-- The comparison of the source, where it is not made across the end of the array, says whether
the chain of the entry contains the hole. Kind: L -/
theorem chain_contains_hole_iff {n b h p : ℕ} (hb : b < n) (hh : h < n) (hp : p < n)
    (hside : h < p ∨ (p < b ∧ b ≤ h)) :
    (b ≤ h ∨ b > p) ↔ gap n b h < gap n b p := by
  unfold gap
  split_ifs <;> omega

/-- The table with the hole of the scan emptied: what the final store of `0` will leave. -/
def openSlot (t : HashTable α) (h : ℕ) : ℕ → Option (HashCode × α) :=
  Function.update (slot t) h none

/-- Copying a bucket into the hole moves its entry there and the hole to it. Kind: L -/
theorem openSlot_store {h p : ℕ} (hocc : isBucketOccupied t p = true) :
    openSlot (t.store h (t.hashes p) (t.elems p)) p =
      Function.update (Function.update (openSlot t h) h (some (t.hashes p, t.elems p))) p none := by
  unfold openSlot
  rw [slot_store hocc, Function.update_idem]

theorem noMoveAcrossEnd_congr (t t' : HashTable α) (hcap : t'.capacity = t.capacity) {e : ℕ}
    (he : e < t.capacity) (hfree : isBucketOccupied t e = false) :
    ∀ fuel index p, p < t.capacity →
      (∀ k < t.capacity, gap t.capacity p k ≤ gap t.capacity p e → t'.hashes k = t.hashes k) →
      noMoveAcrossEnd t' fuel index p = noMoveAcrossEnd t fuel index p := by
  intro fuel
  induction fuel with
  | zero => intro index p _ _; rfl
  | succ fuel ih =>
      intro index p hp hsame
      have hpsame : t'.hashes p = t.hashes p := hsame p hp (by simp)
      have hoccsame : isBucketOccupied t' p = isBucketOccupied t p := by
        simp [isBucketOccupied, hpsame]
      unfold noMoveAcrossEnd
      rw [hoccsame, hpsame, hcap]
      by_cases hocc : isBucketOccupied t p = true
      · have hpe : p ≠ e := by rintro rfl; simp [hfree] at hocc
        have hrest : ∀ idx, noMoveAcrossEnd t' fuel idx (incr t.capacity p) =
            noMoveAcrossEnd t fuel idx (incr t.capacity p) := by
          intro idx
          refine ih idx _ (incr_lt (by omega)) fun k hk hle => hsame k hk ?_
          by_cases hpk : p = k
          · subst hpk; simp
          · have h1 := gap_incr hp he hpe
            have h2 := gap_incr hp hk hpk
            omega
        simp only [hrest]
      · simp [hocc]

/-- **The shifting loop.** From a table whose chains are broken at most at the hole, the loop ends,
keeps the entries and repairs every chain. `e` is a free bucket, which bounds the scan. Kind: P -/
theorem removeShift_spec {e : ℕ} :
    ∀ (fuel : ℕ) (t : HashTable α) (h p : ℕ), h < t.capacity → p < t.capacity → e < t.capacity →
      isBucketOccupied t e = false → h ≠ e → gap t.capacity p e < fuel →
      gap t.capacity h p + gap t.capacity p e = gap t.capacity h e → h ≠ p →
      ReachableBut t.capacity (home t.capacity) (openSlot t h) h p →
      noMoveAcrossEnd t fuel h p = true →
      ∃ t' h', removeShift fuel t h p = some (t', h') ∧ t'.capacity = t.capacity ∧
        t'.size = t.size ∧ h' < t.capacity ∧
        Reachable t.capacity (home t.capacity) (openSlot t' h') ∧
        List.Perm (contents t.capacity (openSlot t' h')) (contents t.capacity (openSlot t h)) := by
  intro fuel
  induction fuel with
  | zero => intro t h p _ _ _ _ _ hlt; omega
  | succ fuel ih =>
      intro t h p hh hp he hfree hhe hlt hway hhp hbut hsafe
      have hslotp : openSlot t h p = slot t p := Function.update_of_ne hhp.symm _ _
      by_cases hocc : isBucketOccupied t p = true
      · have hpe : p ≠ e := by rintro rfl; simp [hfree] at hocc
        have hstep := gap_incr hp he hpe
        have hpn : incr t.capacity p < t.capacity := incr_lt (by omega)
        have hentry : openSlot t h p = some (t.hashes p, t.elems p) := by
          rw [hslotp, slot_of_occupied hocc]
        have hph := gap_lt hh hp
        -- one step further, the scan has still not come back to the hole
        have hpos : gap t.capacity h p ≠ 0 := fun h0 => hhp ((gap_eq_zero hh).mp h0)
        have hnot : incr t.capacity p ≠ h := by
          intro hc
          rw [hc] at hstep
          omega
        have hway' : gap t.capacity h (incr t.capacity p) +
            gap t.capacity (incr t.capacity p) e = gap t.capacity h e := by
          rw [gap_incr_right hh hp hnot]
          omega
        by_cases hmove : modPrime (t.hashes p).toNat t.capacity ≤ h ∨
            modPrime (t.hashes p).toNat t.capacity > p
        · have hrun : removeShift (fuel + 1) t h p =
              removeShift fuel (t.store h (t.hashes p) (t.elems p)) p (incr t.capacity p) := by
            rw [removeShift]
            simp [hocc, hmove]
          have hsafe' : (h < p ∨ (p < modPrime (t.hashes p).toNat t.capacity ∧
              modPrime (t.hashes p).toNat t.capacity ≤ h)) ∧
              noMoveAcrossEnd t fuel p (incr t.capacity p) = true := by
            rw [noMoveAcrossEnd] at hsafe
            simpa [hocc, hmove] using hsafe
          have hchain := (chain_contains_hole_iff (home_lt (by omega) (t.hashes p, t.elems p)) hh hp
            hsafe'.1).mp hmove
          have hopen := openSlot_store (t := t) (h := h) hocc
          have hfree' : isBucketOccupied (t.store h (t.hashes p) (t.elems p)) e = false := by
            simpa [isBucketOccupied, HashTable.store, hhe.symm] using hfree
          have hincr : p ≠ incr t.capacity p := by
            intro hc
            rw [← hc] at hstep
            omega
          have hcongr := noMoveAcrossEnd_congr t (t.store h (t.hashes p) (t.elems p))
            rfl he hfree fuel p (incr t.capacity p) hpn (by
              intro k hk hle
              have hkh : k ≠ h := by
                rintro rfl
                have h1 := gap_incr hp hh (Ne.symm hhp)
                have h2 : gap t.capacity p k ≤ gap t.capacity p e := by omega
                have h3 : gap t.capacity k p + gap t.capacity p k = t.capacity := by
                  unfold gap
                  split_ifs <;> omega
                have h4 := gap_lt hh he
                omega
              simp [HashTable.store, hkh])
          obtain ⟨t', h', hres, hcap, hsize, hh', hreach, hperm⟩ :=
            ih (t.store h (t.hashes p) (t.elems p)) p (incr t.capacity p) hp hpn he hfree' hpe
              (by change gap t.capacity _ e < fuel; omega)
              (by
                change gap t.capacity p (incr t.capacity p) +
                  gap t.capacity (incr t.capacity p) e = gap t.capacity p e
                rw [gap_incr_right hp hp hincr.symm]
                simp
                omega)
              hincr
              (by
                rw [hopen]
                exact hbut.move hh hp hentry hchain)
              (hcongr.trans hsafe'.2)
          refine ⟨t', h', hrun.trans hres, hcap, hsize, hh', hreach, hperm.trans ?_⟩
          rw [hopen]
          exact contents_move hh hp hbut.1 hentry
        · have hrun : removeShift (fuel + 1) t h p =
              removeShift fuel t h (incr t.capacity p) := by
            rw [removeShift]
            simp [hocc, hmove]
          have hside : h < p := by omega
          have hchain : ¬ gap t.capacity (home t.capacity (t.hashes p, t.elems p)) h <
              gap t.capacity (home t.capacity (t.hashes p, t.elems p)) p := by
            intro hc
            exact hmove ((chain_contains_hole_iff (home_lt (by omega) (t.hashes p, t.elems p)) hh hp
              (Or.inl hside)).mpr hc)
          have hsafe' : noMoveAcrossEnd t fuel h (incr t.capacity p) = true := by
            rw [noMoveAcrossEnd] at hsafe
            simpa [hocc, hmove] using hsafe
          obtain ⟨t', h', hres, hcap, hsize, hh', hreach, hperm⟩ :=
            ih t h (incr t.capacity p) hh hpn he hfree hhe (by omega) hway' hnot.symm
              (hbut.skip hh hp hentry hchain) hsafe'
          exact ⟨t', h', hrun.trans hres, hcap, hsize, hh', hreach, hperm⟩
      · refine ⟨t, h, by rw [removeShift]; simp [hocc], rfl, rfl, hh, ?_, List.Perm.refl _⟩
        refine hbut.stop (fun e => home_lt (by omega) e) hh hp ?_ hhp
        rw [hslotp]
        exact Iff.mpr slot_eq_none (by simpa using hocc)

/-- **Removal.** Where the scan moves nothing across the end in front of its home, removing the
element of an occupied bucket removes its entry and nothing else. Kind: P -/
theorem remove_spec (h : Wf t) {i : ℕ} (hi : i < t.capacity) (hocc : isBucketOccupied t i = true)
    (hsafe : noMoveAcrossEnd t t.capacity i (incr t.capacity i) = true) :
    ∃ t', removeFromHashTable t i = some t' ∧ Wf t' ∧
      List.Perm (entries t) ((t.hashes i, t.elems i) :: entries t') := by
  obtain ⟨e, he, hfree⟩ := h.exists_free
  have hie : i ≠ e := by rintro rfl; simp [hfree] at hocc
  have hstep := gap_incr hi he hie
  have hne : i ≠ incr t.capacity i := by
    intro hc
    rw [← hc] at hstep
    omega
  have hlt := gap_lt hi he
  have hone : gap t.capacity i (incr t.capacity i) = 1 := by
    rw [gap_incr_right hi hi hne.symm]
    simp
  obtain ⟨t₁, k, hrun, hcap, hsize, hk, hreach, hperm⟩ :=
    removeShift_spec t.capacity t i (incr t.capacity i) hi (incr_lt (by omega)) he hfree hie
      (by omega) (by omega) hne (ReachableBut.start h.reachable hi) hsafe
  set t' : HashTable α :=
    { t₁ with hashes := fun j => if j = k then 0 else t₁.hashes j, size := t₁.size - 1 } with ht'
  have hcap' : t'.capacity = t.capacity := hcap
  have hslot : slot t' = openSlot t₁ k := by
    funext j
    unfold openSlot
    by_cases hj : j = k
    · subst hj
      simp [slot, isBucketOccupied, ht']
    · rw [Function.update_of_ne hj]
      unfold slot isBucketOccupied
      simp only [ht', hj, if_false]
  have hentries : List.Perm (entries t) ((t.hashes i, t.elems i) :: entries t') := by
    have h1 : List.Perm (entries t) _ := contents_update_none hi (slot_of_occupied hocc)
    have h2 : List.Perm (entries t') (contents t.capacity (openSlot t i)) := by
      unfold entries
      rw [hslot, hcap']
      exact hperm
    exact h1.trans (h2.symm.cons _)
  refine ⟨t', by simp [removeFromHashTable, hrun, ht'], ⟨?_, ?_, ?_⟩, hentries⟩
  · have hlen := hentries.length_eq
    rw [List.length_cons, ← h.size_eq] at hlen
    change t₁.size - 1 = _
    omega
  · have hs := h.size_lt
    change t₁.size - 1 < t'.capacity
    omega
  · rw [hslot, hcap']
    exact hreach

/-- **Clearing** empties the table. Kind: P -/
theorem clear_spec (h : Wf t) : Wf (clearHashTable t) ∧ entries (clearHashTable t) = [] := by
  unfold clearHashTable
  split_ifs with hz
  · refine ⟨h, ?_⟩
    have hsize := h.size_eq
    rw [beq_iff_eq.mp hz] at hsize
    exact List.length_eq_zero_iff.mp hsize.symm
  · exact ⟨wf_zero h.capacity_pos _, entries_zero _ _ _⟩

end

end CxyCompiler.Core
