import Mathlib.Algebra.Ring.Int.Defs
import CxyCompiler.Core.Hash
import CxyCompiler.Lib.Loop
import CxyCompiler.Runtime.String

/-!
# Hashing and comparing strings

The three strings of the language (`runtime/builtins.cxy`): `string` is a C string, `__string` an
address with a size, and `String` owns its block. A hash map asks two things of a key, its hash and
`==`.

* `hashFnv1aString`, `hashFnv1aNString`, `hashFnv1aBytes` — the loops that hash. `var i = 0` is an
  `i8`, the smallest type that the literal fits in, and a range is left when its end is met.
* `String.compare`, `StringView.compare`, `CString.equals` — the loops that compare.
* `Keyed.Agree` — the hashes of two values end, equal values hash alike, and values are equal
  exactly where their sizes and their bytes are.
* `foldBytes_leaves`, `not_leaves_foldBytes` — **`hash_fnv1a_bytes` leaves out the last byte**, and
  runs over the end of a block it is to hash nothing of.
* `strings_agree_iff` — **the exact conditions under which the values of each type agree**.
-/

namespace CxyCompiler.Runtime

open CxyCompiler.Core (HashCode hashInit)
open CxyCompiler.Lib.Loop

/-- An address, with the memory from there on. Null has none. -/
abbrev Pointer := Option (List UInt8)

/-- `p.[i]`, which has no value outside of the memory. -/
def charAt : Pointer → ℤ → Option UInt8
  | none, _ => none
  | some mem, i => if 0 ≤ i then mem[i.toNat]? else none

def toI8 (i : ℤ) : ℤ := (i + 2 ^ 7) % 2 ^ 8 - 2 ^ 7

def toI32 (i : ℤ) : ℤ := (i + 2 ^ 31) % 2 ^ 32 - 2 ^ 31

def toU64 (i : ℤ) : ℤ := i % 2 ^ 64

/-! ## The loops that hash -/

/-- Source: `builtins.cxy` `hash_fnv1a_uint8`. -/
def hashFnv1aUint8 (h : HashCode) (x : UInt8) : HashCode := (h ^^^ x.toUInt32) * 0x01000193

/-- `while (str.[i] != 0)`. -/
def untilNul (str : Pointer) (i : ℤ) : Option Bool := (charAt str i).map (· != 0)

/-- `i++` of an `i8`. -/
def nextI8 (i : ℤ) : ℤ := toI8 (i + 1)

/-- `i++` of a `u64`. -/
def nextU64 (i : ℤ) : ℤ := toU64 (i + 1)

/-- Source: `builtins.cxy` `hash_fnv1a_string`. -/
def hashFnv1aString (rounds : ℕ) (h : HashCode) (str : Pointer) : Option HashCode :=
  loop (foldRound hashFnv1aUint8 (untilNul str) (charAt str) nextI8) rounds (h, 0)

/-- The index is compared as a `u64`, to which an `i8` is extended with its sign.
Source: `builtins.cxy` `hash_fnv1a_n_string` -/
def hashFnv1aNString (rounds : ℕ) (h : HashCode) (str : Pointer) (len : ℕ) : Option HashCode :=
  loop (foldRound hashFnv1aUint8 (fun i => some (toU64 i < len)) (charAt str) nextI8) rounds (h, 0)

/-- The loop of `hash_fnv1a_bytes`: `for (const i: 0..size-1)` takes a `u64` from 0 while it is not
`size - 1`. -/
def foldBytes {β : Type} (f : β → UInt8 → β) (rounds : ℕ) (b : β) (ptr : Pointer)
    (size : ℕ) : Option β :=
  loop (foldRound f (fun i => some (i != toU64 (size - 1))) (charAt ptr) nextU64) rounds (b, 0)

/-- Source: `builtins.cxy` `hash_fnv1a_bytes`. -/
def hashFnv1aBytes (rounds : ℕ) (h : HashCode) (ptr : Pointer) (size : ℕ) : Option HashCode :=
  foldBytes hashFnv1aUint8 rounds h ptr size

/-! ## Comparing -/

/-- One byte of `String.compare`. -/
def compareRound (data other : Pointer) (size : ℕ) (i : ℤ) : Option (ℤ ⊕ ℤ) :=
  if i ≠ size then
    match charAt data i, charAt other i with
    | some a, some b =>
        if a ≠ b then some (.inl (a.toNat - b.toNat)) else some (.inr (nextU64 i))
    | _, _ => none
  else some (.inl 0)

/-- Source: `builtins.cxy` `String.compare`. -/
def String.compare (rounds : ℕ) (s : String) (other : Pointer) (size : ℕ) : Option ℤ :=
  if s.size ≠ size then some (toI32 (toU64 (s.size - size)))
  else loop (compareRound s.data other s.size) rounds 0

/-- Source: `builtins.cxy` `String.==`. -/
def String.equals (rounds : ℕ) (s other : String) : Option Bool :=
  (s.compare rounds other.data other.size).map (· == 0)

/-- Source: `builtins.cxy` `String.hash`. -/
def String.hash (rounds : ℕ) (s : String) : Option HashCode :=
  match s.data with
  | some mem => hashFnv1aBytes rounds hashInit (some mem) s.size
  | none => some hashInit

/-- The bytes from `i` on, at most `n` of them and no further than a NUL. -/
def strncmp (s other : Pointer) : ℕ → ℕ → Option ℤ
  | 0, _ => some 0
  | n + 1, i =>
      match charAt s i, charAt other i with
      | some a, some b =>
          if a ≠ b then some (a.toNat - b.toNat) else if a = 0 then some 0
            else strncmp s other n (i + 1)
      | _, _ => none

/-- The size of the memory. -/
def Pointer.length (p : Pointer) : ℕ := (p.getD []).length

/-- A string of the language: null, or memory with a NUL in it. No memory has 2^63 bytes. -/
structure CString where
  s : Pointer
  terminated : ∀ mem, s = some mem → (0 : UInt8) ∈ mem
  bound : s.length < 2 ^ 63

/-- Source: `builtins.cxy` `__string`. -/
structure StringView where
  s : Pointer
  size : ℕ
  size_le : size ≤ s.length
  bound : s.length < 2 ^ 63

/-- Source: `builtins.cxy` `__string.compare`. -/
def StringView.compare (v other : StringView) : Option ℤ :=
  if v.size = other.size then strncmp v.s other.s v.size 0
  else if v.size < other.size then some (-1)
  else some 1

/-- Source: `builtins.cxy` `__string.==`. -/
def StringView.equals (v other : StringView) : Option Bool := (v.compare other).map (· == 0)

/-- Source: `builtins.cxy` `__string.hash`. -/
def StringView.hash (rounds : ℕ) (v : StringView) : Option HashCode :=
  hashFnv1aNString rounds hashInit v.s v.size

/-- The bytes of a C string. -/
def CString.bytes (c : CString) : List UInt8 := String.cString (c.s.getD [])

theorem CString.length_bytes (c : CString) : c.bytes.length ≤ c.s.length :=
  List.Sublist.length_le (List.takeWhile_sublist _)

/-- The size is `strlen`, and 0 for null.
Source: `builtins.cxy` `__string.init` -/
def StringView.init (c : CString) : StringView where
  s := c.s
  size := c.bytes.length
  size_le := c.length_bytes
  bound := c.bound

/-- The compiler wraps the left side into a `__string`, whose `==` takes the right side as one.
Source: `sema/binary.c` `checkBinaryExpr` -/
def CString.equals (c other : CString) : Option Bool :=
  (StringView.init c).equals (StringView.init other)

/-- Source: `builtins.cxy` `hash`. -/
def CString.hash (rounds : ℕ) (c : CString) : Option HashCode := hashFnv1aString rounds hashInit c.s

/-- A `String` as its operations leave it. -/
structure OwnedString where
  str : String
  size_le : str.size ≤ Pointer.length str.data
  bound : Pointer.length str.data < 2 ^ 63

/-- What a hash map takes of its keys, and the bytes that they stand for. -/
structure Keyed (α : Type) where
  equals : ℕ → α → α → Option Bool
  hash : ℕ → α → Option HashCode
  bytes : α → List UInt8

def ownedStrings : Keyed OwnedString where
  equals rounds a b := a.str.equals rounds b.str
  hash rounds a := a.str.hash rounds
  bytes a := a.str.view

def stringViews : Keyed StringView where
  equals _ a b := a.equals b
  hash := StringView.hash
  bytes v := (v.s.getD []).take v.size

def cStrings : Keyed CString where
  equals _ a b := a.equals b
  hash := CString.hash
  bytes := CString.bytes

/-- **Hash and equality agree for two values.** -/
structure Keyed.Agree {α : Type} (k : Keyed α) (a b : α) : Prop where
  hashes : (∃ rounds code, k.hash rounds a = some code) ∧ ∃ rounds code, k.hash rounds b = some code
  hash_eq : ∀ {rounds code code'}, k.equals rounds a b = some true → k.hash rounds a = some code →
    k.hash rounds b = some code' → code = code'
  equals : ∃ rounds, k.equals rounds a b = some (decide (k.bytes a = k.bytes b))

/-! ## What the loops fold -/

section

variable {mem : List UInt8} {more : ℤ → Option Bool} {wrap : ℤ → ℤ}

theorem charAt_nat (mem : List UInt8) (k : ℕ) : charAt (some mem) (k : ℤ) = mem[k]? := by
  unfold charAt
  dsimp only
  rw [if_pos (Int.natCast_nonneg k), Int.toNat_natCast]

/-- Below a bound, the index of a loop is the number of its rounds. Kind: L -/
theorem iterate_wrap {bound : ℕ} (hwrap : ∀ k : ℕ, k < bound → wrap k = k) :
    ∀ n : ℕ, n < bound → Nat.iterate (fun i => wrap (i + 1)) n 0 = (n : ℤ) := by
  intro n
  induction n with
  | zero => intro _; rfl
  | succ n ih =>
      intro hn
      rw [Function.iterate_succ_apply', ih (by omega)]
      exact_mod_cast hwrap (n + 1) hn

theorem iterate_wrap_bound {bound : ℕ} (hwrap : ∀ k : ℕ, k < bound + 1 → wrap k = k) :
    Nat.iterate (fun i => wrap (i + 1)) (bound + 1) 0 = wrap (bound + 1) := by
  rw [Function.iterate_succ_apply', iterate_wrap hwrap bound (Nat.lt_succ_self _)]

/-- The loop comes by the bytes below a bound. Kind: L -/
theorem reads_take {bound : ℕ} (hwrap : ∀ k : ℕ, k < bound → wrap k = k) (n : ℕ) :
    ∀ (i : ℕ) (j : ℤ), (0 < n → j = i) → i + n ≤ bound → i + n ≤ mem.length →
      (∀ k : ℕ, k < i + n → more k = some true) →
      Reads more (charAt (some mem)) (fun i => wrap (i + 1)) j ((mem.drop i).take n) := by
  induction n with
  | zero => intro i j _ _ _ _; exact trivial
  | succ n ih =>
      intro i j hj hbound hlen hmore
      have hi : i < mem.length := by omega
      rw [hj (Nat.succ_pos n), List.drop_eq_getElem_cons hi, List.take_succ_cons]
      refine ⟨hmore i (by omega), ?_, ih (i + 1) _ ?_ (by omega) (by omega) ?_⟩
      · rw [charAt_nat, List.getElem?_eq_getElem hi]
      · intro hn
        exact_mod_cast hwrap (i + 1) (by omega)
      · intro k hk
        exact hmore k (by omega)

theorem toI8_nat (k : ℕ) (h : k < 127 + 1) : toI8 k = k := by
  unfold toI8
  omega

theorem toU64_nat (k : ℕ) (h : k < 2 ^ 64) : toU64 k = k := by
  unfold toU64
  omega

theorem iterate_nextI8 {n : ℕ} (h : n < 128) : Nat.iterate nextI8 n 0 = (n : ℤ) :=
  iterate_wrap toI8_nat n h

/-- The index after 128 rounds is negative. Kind: L -/
theorem iterate_nextI8_wrapped : Nat.iterate nextI8 128 0 = -128 :=
  iterate_wrap_bound toI8_nat

theorem iterate_nextU64 {n : ℕ} (h : n < 2 ^ 64) : Nat.iterate nextU64 n 0 = (n : ℤ) :=
  iterate_wrap toU64_nat n h

/-- A negative index is outside of every memory. Kind: L -/
theorem charAt_wrapped (p : Pointer) : charAt p (-128) = none := by
  rcases p with _ | mem
  · rfl
  · rfl

/-- **`hash_fnv1a_bytes` folds all bytes but the last one.** Kind: P -/
theorem foldBytes_leaves {β : Type} (f : β → UInt8 → β) (b : β) {size : ℕ} (hpos : 0 < size)
    (hsize : size ≤ mem.length) (hmem : mem.length < 2 ^ 63) :
    ∃ rounds, foldBytes f rounds b (some mem) size = some ((mem.take (size - 1)).foldl f b) := by
  have hlen : (mem.take (size - 1)).length = size - 1 := by
    rw [List.length_take]
    omega
  have hlast : toU64 ((size : ℤ) - 1) = ((size - 1 : ℕ) : ℤ) := by
    unfold toU64
    omega
  apply fold_leaves
  · apply reads_take toU64_nat (size - 1) 0 0 (fun _ => rfl) (by omega) (by omega)
    intro k hk
    rw [hlast]
    simp only [Option.some.injEq, bne_iff_ne, ne_eq]
    omega
  · rw [hlen, hlast, iterate_nextU64 (by omega), bne_self_eq_false]

/-- **It has no result for a block that it is to fold nothing of.** Kind: P -/
theorem not_leaves_foldBytes {β : Type} (f : β → UInt8 → β) (b : β) (hmem : mem.length < 2 ^ 63) :
    ¬ ∃ rounds c, foldBytes f rounds b (some mem) 0 = some c := by
  rintro ⟨rounds, c, h⟩
  have hiter := iterate_nextU64 (n := mem.length) (by omega)
  have hend : toU64 ((0 : ℕ) - 1) = 2 ^ 64 - 1 := by decide
  have hreads : Reads (fun i => some (i != toU64 ((0 : ℕ) - 1))) (charAt (some mem)) nextU64 0
      (mem.take mem.length) := by
    apply reads_take toU64_nat mem.length 0 0 (fun _ => rfl) (by omega) (by omega)
    intro k hk
    rw [hend]
    simp only [Option.some.injEq, bne_iff_ne, ne_eq]
    omega
  rw [List.take_length] at hreads
  refine not_leaves_fold hreads ?_ ?_ ⟨rounds, h⟩
  · rw [hiter, hend]
    simp only [ne_eq, Option.some.injEq, bne_eq_false_iff_eq]
    omega
  · rw [hiter, charAt_nat]
    exact List.getElem?_eq_none (Nat.le_refl _)

/-- `hash_fnv1a_n_string` folds 128 bytes at most. Kind: L -/
theorem hashFnv1aNString_leaves (h : HashCode) {len : ℕ} (hlen : len ≤ mem.length)
    (hmem : mem.length < 2 ^ 63) :
    ∃ rounds, hashFnv1aNString rounds h (some mem) len =
      some ((mem.take (min len 128)).foldl hashFnv1aUint8 h) := by
  have htake : (mem.take (min len 128)).length = min len 128 := by
    rw [List.length_take]
    omega
  apply fold_leaves
  · apply reads_take toI8_nat (min len 128) 0 0 (fun _ => rfl) (by omega) (by omega)
    intro k hk
    rw [toU64_nat k (by omega)]
    simp only [Option.some.injEq, decide_eq_true_eq]
    omega
  · rw [htake]
    rcases Nat.lt_or_ge len 128 with hshort | hlong
    · rw [Nat.min_eq_left (by omega), iterate_nextI8 hshort, toU64_nat len (by omega)]
      simp only [Int.lt_irrefl, decide_false]
    · have hwrapped : toU64 (-128) = 2 ^ 64 - 128 := by decide
      rw [Nat.min_eq_right hlong, iterate_nextI8_wrapped, hwrapped]
      simp only [Option.some.injEq, decide_eq_false_iff_not]
      omega

/-- The bytes of a C string are not NUL. Kind: L -/
theorem cString_ne_zero {k : ℕ} (hk : k < (String.cString mem).length) :
    untilNul (some mem) k = some true := by
  have hpre : String.cString mem <+: mem := List.takeWhile_prefix _
  have hget : mem[k]? = some (String.cString mem)[k] := by
    obtain ⟨rest, hrest⟩ := hpre
    rw [← List.getElem?_eq_getElem hk]
    nth_rewrite 1 [← hrest]
    exact List.getElem?_append_left hk
  have hne : (String.cString mem)[k] ≠ 0 := by
    have hmem := List.mem_takeWhile_imp (List.getElem_mem hk)
    simpa using hmem
  unfold untilNul
  rw [charAt_nat, hget]
  simp only [Option.map_some, Option.some.injEq, bne_iff_ne, ne_eq]
  exact hne

theorem cString_end (hz : (0 : UInt8) ∈ mem) : mem[(String.cString mem).length]? = some 0 := by
  induction mem with
  | nil => cases hz
  | cons c mem ih =>
      unfold String.cString at ih ⊢
      by_cases hc : c = 0
      · subst hc
        rfl
      · rw [List.takeWhile_cons_of_pos (by simpa using hc), List.length_cons,
          List.getElem?_cons_succ]
        exact ih ((List.mem_cons.mp hz).resolve_left fun h => hc h.symm)

/-- The loop of `hash_fnv1a_string` comes by the bytes below 128. Kind: L -/
theorem cString_reads {n : ℕ} (hn : n ≤ (String.cString mem).length) (h128 : n ≤ 128) :
    Reads (untilNul (some mem)) (charAt (some mem)) nextI8 0 (mem.take n) := by
  have hle : (String.cString mem).length ≤ mem.length :=
    List.Sublist.length_le (List.takeWhile_sublist _)
  apply reads_take toI8_nat n 0 0 (fun _ => rfl) (by omega) (by omega)
  intro k hk
  exact cString_ne_zero (by omega)

/-- `hash_fnv1a_string` folds a string of fewer than 128 bytes. Kind: L -/
theorem hashFnv1aString_leaves (h : HashCode) (hz : (0 : UInt8) ∈ mem)
    (hshort : (String.cString mem).length < 128) :
    ∃ rounds, hashFnv1aString rounds h (some mem) =
      some ((String.cString mem).foldl hashFnv1aUint8 h) := by
  have htake : mem.take (String.cString mem).length = String.cString mem :=
    (List.prefix_iff_eq_take.mp (List.takeWhile_prefix _)).symm
  have hreads := cString_reads (Nat.le_refl (String.cString mem).length) (by omega)
  rw [htake] at hreads
  apply fold_leaves hreads
  rw [iterate_nextI8 hshort]
  unfold untilNul
  rw [charAt_nat, cString_end hz]
  rfl

theorem not_leaves_hashFnv1aString (h : HashCode) (hlong : 128 ≤ (String.cString mem).length) :
    ¬ ∃ rounds c, hashFnv1aString rounds h (some mem) = some c := by
  rintro ⟨rounds, c, hr⟩
  have hle : (String.cString mem).length ≤ mem.length :=
    List.Sublist.length_le (List.takeWhile_sublist _)
  have hlen : (mem.take 128).length = 128 := by
    rw [List.length_take]
    omega
  refine not_leaves_fold (cString_reads hlong (Nat.le_refl _)) ?_ ?_ ⟨rounds, hr⟩
  · rw [hlen, iterate_nextI8_wrapped]
    unfold untilNul
    rw [charAt_wrapped]
    simp only [Option.map_none, ne_eq, reduceCtorEq, not_false_eq_true]
  · rw [hlen, iterate_nextI8_wrapped, charAt_wrapped]

/-! ## What the loops compare -/

/-- Two bytes differ where their difference is not 0. Kind: L -/
theorem byte_sub_ne_zero {a b : UInt8} (h : a ≠ b) : (a.toNat : ℤ) - b.toNat ≠ 0 := by
  intro h0
  apply h
  apply UInt8.toNat_inj.mp
  omega

/-- `strncmp` finds two texts alike where they are up to a NUL. Kind: L -/
theorem strncmp_spec (mem mem' : List UInt8)
    (n : ℕ) : ∀ i : ℕ, i + n ≤ mem.length → i + n ≤ mem'.length →
    ∃ d, strncmp (some mem) (some mem') n i = some d ∧
      (d = 0 ↔ String.cString ((mem.drop i).take n) = String.cString ((mem'.drop i).take n)) := by
  induction n with
  | zero => intro i _ _; exact ⟨0, rfl, iff_of_true rfl rfl⟩
  | succ n ih =>
      intro i h h'
      have hi : i < mem.length := by omega
      have hi' : i < mem'.length := by omega
      unfold strncmp
      rw [charAt_nat, charAt_nat, List.getElem?_eq_getElem hi, List.getElem?_eq_getElem hi',
        List.drop_eq_getElem_cons hi, List.drop_eq_getElem_cons hi', List.take_succ_cons,
        List.take_succ_cons]
      unfold String.cString at ih ⊢
      generalize mem[i] = a, mem'[i] = b
      dsimp only
      by_cases hab : a = b
      · subst hab
        rw [if_neg (by simp)]
        by_cases ha : a = 0
        · rw [if_pos ha, List.takeWhile_cons_of_neg (by simpa using ha),
            List.takeWhile_cons_of_neg (by simpa using ha)]
          exact ⟨0, rfl, iff_of_true rfl rfl⟩
        · rw [if_neg ha, List.takeWhile_cons_of_pos (by simpa using ha),
            List.takeWhile_cons_of_pos (by simpa using ha)]
          obtain ⟨d, hd, hiff⟩ := ih (i + 1) (by omega) (by omega)
          refine ⟨d, hd, hiff.trans ?_⟩
          rw [List.cons.injEq, eq_self_iff_true, true_and]
      · rw [if_pos hab]
        refine ⟨_, rfl, iff_of_false (byte_sub_ne_zero hab) ?_⟩
        intro heq
        -- one of the two texts goes on behind this byte, and the other does not
        by_cases ha : a = 0 <;> by_cases hb : b = 0
        · exact hab (ha.trans hb.symm)
        · rw [List.takeWhile_cons_of_neg (by simpa using ha),
            List.takeWhile_cons_of_pos (by simpa using hb)] at heq
          cases heq
        · rw [List.takeWhile_cons_of_pos (by simpa using ha),
            List.takeWhile_cons_of_neg (by simpa using hb)] at heq
          cases heq
        · rw [List.takeWhile_cons_of_pos (by simpa using ha),
            List.takeWhile_cons_of_pos (by simpa using hb)] at heq
          exact hab (List.cons.inj heq).1

/-- The loop of `String.compare` finds two texts alike where they are. Kind: L -/
theorem compareRound_spec (mem mem' : List UInt8) {size : ℕ} (h : size ≤ mem.length)
    (h' : size ≤ mem'.length)
    (hmem : mem.length < 2 ^ 63) (n : ℕ) : ∀ i : ℕ, i + n = size →
    ∃ d, Leaves (compareRound (some mem) (some mem') size) i d ∧
      (d = 0 ↔ (mem.drop i).take n = (mem'.drop i).take n) := by
  induction n with
  | zero =>
      intro i hi
      refine ⟨0, leaves_of_inl ?_, iff_of_true rfl rfl⟩
      unfold compareRound
      rw [if_neg]
      simp only [ne_eq, Nat.cast_inj, not_not]
      omega
  | succ n ih =>
      intro i hi
      have hlt : i < mem.length := by omega
      have hlt' : i < mem'.length := by omega
      rw [List.drop_eq_getElem_cons hlt, List.drop_eq_getElem_cons hlt', List.take_succ_cons,
        List.take_succ_cons]
      have hround : compareRound (some mem) (some mem') size i =
          if mem[i] ≠ mem'[i] then some (.inl ((mem[i].toNat : ℤ) - mem'[i].toNat))
          else some (.inr ((i + 1 : ℕ) : ℤ)) := by
        have hnext : nextU64 i = ((i + 1 : ℕ) : ℤ) := toU64_nat (i + 1) (by omega)
        unfold compareRound
        rw [if_pos (by omega), charAt_nat, charAt_nat, List.getElem?_eq_getElem hlt,
          List.getElem?_eq_getElem hlt', hnext]
      by_cases hab : mem[i] = mem'[i]
      · rw [if_neg (not_not.mpr hab)] at hround
        obtain ⟨d, hd, hiff⟩ := ih (i + 1) (by omega)
        refine ⟨d, (leaves_iff_of_inr hround).mpr hd, hiff.trans ?_⟩
        rw [List.cons.injEq, hab, eq_self_iff_true, true_and]
      · rw [if_pos hab] at hround
        refine ⟨_, leaves_of_inl hround, iff_of_false (byte_sub_ne_zero hab) ?_⟩
        intro heq
        exact hab (List.cons.inj heq).1

end

/-! ## Agreement -/

/-- **Two values agree where both hashes end and no other values count as equal**: it is enough that
the hash is one of the bytes. Kind: L -/
theorem Keyed.agree_iff {α : Type} (k : Keyed α) (ends : α → Prop) (hashOf : List UInt8 → HashCode)
    {a b : α} {confused : Prop}
    (hhash : ∀ x code, (∃ rounds, k.hash rounds x = some code) ↔ ends x ∧ code = hashOf (k.bytes x))
    (hequals : ∀ e : Bool, (∃ rounds, k.equals rounds a b = some e) ↔
      (e = true ↔ k.bytes a = k.bytes b ∨ confused))
    (hconfused : confused → k.bytes a ≠ k.bytes b) :
    k.Agree a b ↔ ends a ∧ ends b ∧ ¬ confused := by
  constructor
  · rintro ⟨⟨⟨rounds, code, ha⟩, rounds', code', hb⟩, -, hagree⟩
    refine ⟨((hhash a code).mp ⟨rounds, ha⟩).1, ((hhash b code').mp ⟨rounds', hb⟩).1, ?_⟩
    intro hc
    have htrue := ((hequals _).mp hagree).mpr (Or.inr hc)
    exact hconfused hc (of_decide_eq_true htrue)
  · rintro ⟨ha, hb, hc⟩
    obtain ⟨rounds, hra⟩ := (hhash a _).mpr ⟨ha, rfl⟩
    obtain ⟨rounds', hrb⟩ := (hhash b _).mpr ⟨hb, rfl⟩
    refine ⟨⟨⟨rounds, _, hra⟩, rounds', _, hrb⟩, ?_, ?_⟩
    · intro rounds code code' heq hca hcb
      have hbytes := (((hequals true).mp ⟨rounds, heq⟩).mp rfl).resolve_right hc
      rw [((hhash a code).mp ⟨rounds, hca⟩).2, ((hhash b code').mp ⟨rounds, hcb⟩).2, hbytes]
    · apply (hequals _).mpr
      rw [decide_eq_true_iff]
      exact ⟨Or.inl, fun h => h.resolve_right hc⟩

/-- Null is read as memory without a byte is. Kind: L -/
theorem charAt_getD (p : Pointer) : charAt p = charAt (some (p.getD [])) := by
  rcases p with _ | mem
  · funext i
    unfold charAt
    dsimp only
    split_ifs <;> rfl
  · rfl

theorem strncmp_getD (p q : Pointer) (n : ℕ) :
    ∀ i, strncmp p q n i = strncmp (some (p.getD [])) (some (q.getD [])) n i := by
  induction n with
  | zero => intro i; rfl
  | succ n ih =>
      intro i
      unfold strncmp
      rw [charAt_getD p, charAt_getD q, ih]

/-! ### `String` -/

/-- The string has a block and no byte. -/
def OwnedString.OwnsEmpty (a : OwnedString) : Prop := a.str.data.isSome ∧ a.str.size = 0

/-- The sizes are told apart by more than 32 bits hold. -/
def OwnedString.FarSizes (a b : OwnedString) : Prop :=
  a.str.size ≠ b.str.size ∧ a.str.size % 2 ^ 32 = b.str.size % 2 ^ 32

theorem OwnedString.length_view (a : OwnedString) : a.str.view.length = a.str.size := by
  unfold String.view
  rw [List.length_take]
  exact Nat.min_eq_left a.size_le

theorem OwnedString.hash_iff (a : OwnedString) (code : HashCode) :
    (∃ rounds, a.str.hash rounds = some code) ↔
      ¬ a.OwnsEmpty ∧ code = a.str.view.dropLast.foldl hashFnv1aUint8 hashInit := by
  obtain ⟨⟨data, capacity, size⟩, hsize, hmem⟩ := a
  unfold String.hash OwnsEmpty String.view
  dsimp only at hsize hmem ⊢
  rcases data with _ | mem
  · have h0 : size = 0 := Nat.le_zero.mp hsize
    subst h0
    simp only [Option.some.injEq, exists_const, Option.isSome_none, Bool.false_eq_true, false_and,
      not_false_eq_true, Option.getD_none, List.take_nil,
        List.dropLast_nil, List.foldl_nil, true_and]
    exact eq_comm
  · rw [Option.getD_some]
    rcases Nat.eq_zero_or_pos size with rfl | hpos
    · refine iff_of_false ?_ fun h => h.1 ⟨rfl, rfl⟩
      rintro ⟨rounds, h⟩
      exact not_leaves_foldBytes hashFnv1aUint8 hashInit hmem ⟨rounds, code, h⟩
    · have hleaves := foldBytes_leaves hashFnv1aUint8 hashInit hpos hsize hmem
      have htake : (mem.take size).dropLast = mem.take (size - 1) := by
        rw [List.dropLast_eq_take, List.length_take, List.take_take]
        have hle : size ≤ mem.length := hsize
        congr 1
        omega
      rw [htake]
      constructor
      · intro h
        exact ⟨fun he => absurd he.2 (by omega), leaves_unique h hleaves⟩
      · rintro ⟨-, rfl⟩
        exact hleaves

theorem OwnedString.equals_iff (a b : OwnedString) (e : Bool) :
    (∃ rounds, a.str.equals rounds b.str = some e) ↔
      (e = true ↔ a.str.view = b.str.view ∨ a.FarSizes b) := by
  by_cases hsize : a.str.size = b.str.size
  · have hfar : ¬ a.FarSizes b := fun h => h.1 hsize
    have hspec := compareRound_spec (a.str.data.getD []) (b.str.data.getD []) a.size_le
      (hsize ▸ b.size_le) a.bound a.str.size 0 (Nat.zero_add _)
    obtain ⟨d, ⟨rounds, hd⟩, hiff⟩ := hspec
    rw [Nat.cast_zero] at hd
    have hcompare : ∀ rounds, a.str.compare rounds b.str.data b.str.size =
        loop (compareRound (some (a.str.data.getD [])) (some (b.str.data.getD [])) a.str.size)
          rounds 0 := by
      intro rounds
      unfold String.compare compareRound
      rw [if_neg (not_not.mpr hsize), charAt_getD a.str.data, charAt_getD b.str.data]
    have hview : (d == 0) = true ↔ a.str.view = b.str.view ∨ a.FarSizes b := by
      rw [beq_iff_eq, hiff, or_iff_left hfar]
      unfold String.view
      rw [List.drop_zero, List.drop_zero, ← hsize]
    rw [← hview]
    unfold String.equals
    constructor
    · rintro ⟨rounds', h⟩
      rw [hcompare] at h
      obtain ⟨d', hd', rfl⟩ := Option.map_eq_some_iff.mp h
      rw [leaves_unique ⟨rounds', hd'⟩ ⟨rounds, hd⟩]
    · intro he
      refine ⟨rounds, ?_⟩
      rw [hcompare, hd, Option.map_some, Bool.eq_iff_iff.mpr he.symm]
  · have hview : ¬ a.str.view = b.str.view := by
      intro h
      apply hsize
      rw [← a.length_view, ← b.length_view, h]
    have hfar : (toI32 (toU64 (a.str.size - b.str.size)) == 0) = true ↔ a.FarSizes b := by
      unfold toI32 toU64 FarSizes
      rw [beq_iff_eq]
      omega
    have hequals : ∀ rounds, a.str.equals rounds b.str =
        some (toI32 (toU64 (a.str.size - b.str.size)) == 0) := by
      intro rounds
      unfold String.equals String.compare
      rw [if_pos hsize, Option.map_some]
    rw [or_iff_right hview, ← hfar, ← Bool.eq_iff_iff]
    simp only [hequals, Option.some.injEq, exists_const]
    exact eq_comm

/-! ### `__string` -/

/-- The bytes of the string. -/
def StringView.bytes (v : StringView) : List UInt8 := stringViews.bytes v

/-- The strings are of one size and alike up to a NUL, and differ behind it. -/
def StringView.DifferBehindNul (v w : StringView) : Prop :=
  v.size = w.size ∧ String.cString v.bytes = String.cString w.bytes ∧ v.bytes ≠ w.bytes

theorem StringView.length_bytes (v : StringView) : v.bytes.length = v.size := by
  unfold bytes stringViews
  dsimp only
  rw [List.length_take]
  exact Nat.min_eq_left v.size_le

theorem StringView.hash_iff (v : StringView) (code : HashCode) :
    (∃ rounds, v.hash rounds = some code) ↔
      code = (v.bytes.take 128).foldl hashFnv1aUint8 hashInit := by
  have hnull : ∀ rounds, v.hash rounds = hashFnv1aNString rounds hashInit
    (some (v.s.getD [])) v.size := by
    intro rounds
    unfold StringView.hash hashFnv1aNString
    rw [charAt_getD v.s]
  have hleaves := hashFnv1aNString_leaves hashInit v.size_le v.bound
  have htake : v.bytes.take 128 = (v.s.getD []).take (min v.size 128) := by
    unfold bytes stringViews
    dsimp only
    rw [List.take_take, Nat.min_comm]
  simp only [hnull, htake]
  constructor
  · intro h
    exact leaves_unique h hleaves
  · rintro rfl
    exact hleaves

theorem StringView.equals_iff (v w : StringView) (e : Bool) :
    v.equals w = some e ↔
      (e = true ↔ v.size = w.size ∧ String.cString v.bytes = String.cString w.bytes) := by
  unfold equals compare
  by_cases hsize : v.size = w.size
  · have hw : w.bytes = (w.s.getD []).take v.size := by rw [hsize]; rfl
    obtain ⟨d, hd, hiff⟩ := strncmp_spec (v.s.getD []) (w.s.getD []) v.size 0
      (by rw [Nat.zero_add]; exact v.size_le) (by rw [Nat.zero_add, hsize]; exact w.size_le)
    rw [if_pos hsize, strncmp_getD, hd, and_iff_right hsize, Option.map_some, hw]
    rw [List.drop_zero, List.drop_zero] at hiff
    rw [Option.some.injEq, Bool.eq_iff_iff, beq_iff_eq, hiff]
    exact iff_comm
  · rw [if_neg hsize, eq_comm]
    split_ifs <;> simp [hsize]

/-! ### `string` -/

theorem CString.bytes_init (c : CString) : (StringView.init c).bytes = c.bytes :=
  (List.prefix_iff_eq_take.mp (List.takeWhile_prefix _)).symm

/-- The string is there, and shorter than an `i8` can count. -/
def CString.Counted (c : CString) : Prop := c.s.isSome ∧ c.bytes.length < 128

theorem CString.hash_iff (c : CString) (code : HashCode) :
    (∃ rounds, c.hash rounds = some code) ↔
      c.Counted ∧ code = c.bytes.foldl hashFnv1aUint8 hashInit := by
  obtain ⟨s, hterminated, hmem⟩ := c
  unfold hash Counted bytes
  dsimp only
  rcases s with _ | mem
  · refine iff_of_false ?_ fun h => absurd h.1.1 (by simp)
    rintro ⟨rounds, h⟩
    exact not_leaves_of_none rfl ⟨rounds, h⟩
  · rw [Option.getD_some]
    rcases Nat.lt_or_ge (String.cString mem).length 128 with hshort | hlong
    · have hleaves := hashFnv1aString_leaves hashInit (hterminated mem rfl) hshort
      constructor
      · intro h
        exact ⟨⟨rfl, hshort⟩, leaves_unique h hleaves⟩
      · rintro ⟨-, rfl⟩
        exact hleaves
    · refine iff_of_false ?_ fun h => absurd h.1.2 (by omega)
      rintro ⟨rounds, h⟩
      exact not_leaves_hashFnv1aString hashInit hlong ⟨rounds, code, h⟩

theorem CString.equals_iff (a b : CString) (e : Bool) :
    a.equals b = some e ↔ (e = true ↔ a.bytes = b.bytes) := by
  have hidem : ∀ c : CString, String.cString c.bytes = c.bytes := fun _ => List.takeWhile_idem
  unfold equals
  rw [StringView.equals_iff, CString.bytes_init, CString.bytes_init, hidem, hidem]
  have hiff : ((StringView.init a).size = (StringView.init b).size ∧ a.bytes = b.bytes) ↔
      a.bytes = b.bytes :=
    and_iff_right_of_imp fun h => congrArg List.length h
  rw [hiff]

/-! ### All of them -/

/-- The loop of `hash_fnv1a_bytes` comes by every byte of its range, in order. -/
def FoldsEvery (mem : List UInt8) (size : ℕ) : Prop :=
  ∃ rounds, foldBytes (fun bytes x => bytes ++ [x]) rounds [] (some mem) size = some (mem.take size)

/-- A range of memory. -/
structure Range where
  mem : List UInt8
  size : ℕ
  size_le : size ≤ mem.length
  bound : mem.length < 2 ^ 63

theorem not_foldsEvery (r : Range) : ¬ FoldsEvery r.mem r.size := by
  rintro ⟨rounds, h⟩
  rcases Nat.eq_zero_or_pos r.size with hzero | hpos
  · rw [hzero] at h
    exact not_leaves_foldBytes _ _ r.bound ⟨rounds, _, h⟩
  · have hleaves := foldBytes_leaves (fun bytes x => bytes ++ [x]) [] hpos r.size_le r.bound
    have heq := leaves_unique ⟨rounds, h⟩ hleaves
    have hlen := congrArg List.length heq
    rw [List.foldl_append_eq_append, List.nil_append, ← List.flatMap_def, List.flatMap_singleton',
      List.length_take, List.length_take] at hlen
    have hle := r.size_le
    omega

/-- **Hash and equality agree** for two `String`s where neither owns a block it has no byte in and
their sizes do not differ by a multiple of 2^32, for two `__string`s where they do not differ only
behind a NUL, and for two `string`s where both are there and have fewer than 128 bytes;
`hash_fnv1a_bytes` comes by every byte of no range. Kind: P -/
theorem strings_agree_iff (r : Range) (a b : OwnedString) (v w : StringView) (x y : CString) :
    (FoldsEvery r.mem r.size ↔ False) ∧
      (ownedStrings.Agree a b ↔ ¬ a.OwnsEmpty ∧ ¬ b.OwnsEmpty ∧ ¬ a.FarSizes b) ∧
      (stringViews.Agree v w ↔ ¬ v.DifferBehindNul w) ∧
      (cStrings.Agree x y ↔ x.Counted ∧ y.Counted) := by
  refine ⟨iff_false_intro (not_foldsEvery r), ?_, ?_, ?_⟩
  · apply Keyed.agree_iff ownedStrings (fun a => ¬ a.OwnsEmpty)
      (fun xs => xs.dropLast.foldl hashFnv1aUint8 hashInit) OwnedString.hash_iff
    · exact a.equals_iff b
    · intro hfar heq
      apply hfar.1
      rw [← a.length_view, ← b.length_view]
      exact congrArg List.length heq
  · have hiff : (v.size = w.size ∧ String.cString v.bytes = String.cString w.bytes) ↔
        v.bytes = w.bytes ∨ v.DifferBehindNul w := by
      constructor
      · rintro ⟨hsize, hcString⟩
        by_cases heq : v.bytes = w.bytes
        · exact Or.inl heq
        · exact Or.inr ⟨hsize, hcString, heq⟩
      · rintro (heq | ⟨hsize, hcString, -⟩)
        · exact ⟨by rw [← v.length_bytes, heq, w.length_bytes], congrArg _ heq⟩
        · exact ⟨hsize, hcString⟩
    have hequals : ∀ e : Bool, (∃ rounds, stringViews.equals rounds v w = some e) ↔
        (e = true ↔ stringViews.bytes v = stringViews.bytes w ∨ v.DifferBehindNul w) := by
      intro e
      exact (exists_const ℕ).trans ((v.equals_iff w e).trans (iff_congr Iff.rfl hiff))
    have hagree := Keyed.agree_iff stringViews (fun _ => True)
      (fun xs => (xs.take 128).foldl hashFnv1aUint8 hashInit)
      (fun x code => (x.hash_iff code).trans (and_iff_right trivial).symm) hequals fun h => h.2.2
    rw [true_and, true_and] at hagree
    exact hagree
  · have hequals : ∀ e : Bool, (∃ rounds, cStrings.equals rounds x y = some e) ↔
        (e = true ↔ cStrings.bytes x = cStrings.bytes y ∨ False) := by
      intro e
      rw [or_false]
      exact (exists_const ℕ).trans (x.equals_iff y e)
    have hagree := Keyed.agree_iff cStrings CString.Counted (fun xs =>
      xs.foldl hashFnv1aUint8 hashInit)
      CString.hash_iff hequals False.elim
    rw [not_false_iff, and_true] at hagree
    exact hagree

def emptied : OwnedString where
  str := { data := some (List.replicate 17 0), capacity := 16, size := 0 }
  size_le := Nat.zero_le _
  bound := by decide

def viewOf (mem : List UInt8) (h : mem.length < 2 ^ 63) : StringView where
  s := some mem
  size := mem.length
  size_le := Nat.le_refl _
  bound := h

/-- A `String` that is emptied has no hash, and the `__string`s `"a\0b"` and `"a\0c"` are equal but
have different hashes. Kind: P -/
theorem strings_disagree :
    (∀ rounds code, emptied.str.hash rounds ≠ some code) ∧
      ∃ rounds, (viewOf [97, 0, 98] (by decide)).equals
        (viewOf [97, 0, 99] (by decide)) = some true ∧
        (viewOf [97, 0, 98] (by decide)).hash rounds ≠ none ∧
        (viewOf [97, 0, 99] (by decide)).hash rounds ≠ none ∧
        (viewOf [97, 0, 98] (by decide)).hash rounds ≠
          (viewOf [97, 0, 99] (by decide)).hash rounds := by
  constructor
  · intro rounds code h
    exact ((emptied.hash_iff code).mp ⟨rounds, h⟩).1 ⟨rfl, rfl⟩
  · exact ⟨4, by decide⟩

end CxyCompiler.Runtime
