import CxyCompiler.Lib.Search
import CxyCompiler.Stdlib.Value

/-!
# Searching strings (`runtime/builtins.cxy`)

A `__string` is a pointer and a size, and its bytes may be any, NUL included. The loops of the
searches count with unsigned and signed numbers; each byte is read behind a test of its index here,
so that a search that reads outside of the string fails.

* `Str` — strings; `indexOf`, `rIndexOf`, `find`, `rfind`, `startswith`, `endswith` — the functions.
* `Searches` — **what the functions should return**, for a string, a character and a pattern.
* `Clean` — where they do; `searches_iff` — **they do there and nowhere else**.
-/

namespace CxyCompiler.Stdlib

open CxyCompiler.Lib.Search

/-! ## The functions -/

/-- Source: `builtins.cxy` `__string`. -/
structure Str where
  data : Bytes
  fits : data.length < 2 ^ 64

/-- The test of a loop, which reads the character. -/
def isAt (s : Bytes) (ch : UInt8) (i : ℕ) : Option Bool := s[i]?.map fun c => decide (c = ch)

/-- The conversion to `i64`. -/
def toI64 (n : ℕ) : ℤ := (n : ℤ).bmod (2 ^ 64)

/-- Source: C's `strncmp`. -/
def strncmp : ℕ → Bytes → Bytes → ℤ
  | 0, _, _ => 0
  | n + 1, s, t =>
      if s.headD 0 ≠ t.headD 0 then (s.headD 0).toNat - (t.headD 0).toNat
      else if s.headD 0 = 0 then 0
      else strncmp n s.tail t.tail

namespace Str

/-- Source: `builtins.cxy` `__string.size`. -/
def size (s : Str) : ℕ := s.data.length

/-- Source: `builtins.cxy` `__string.compare`. -/
def compare (s other : Str) : ℤ :=
  if s.size = other.size then strncmp s.size s.data other.data
  else if s.size < other.size then -1
  else 1

/-- None where an assertion fails. Source: `builtins.cxy` `__string.substr`. -/
def substr (s : Str) (start : ℕ) (count : ℤ) : Option Str :=
  if s.size < start then none
  else if count ≠ -1 ∧ ¬ (0 ≤ count ∧ count ≤ (s.size - start : ℕ)) then none
  else
    let count := if count = -1 then toI64 (s.size - start) else count
    some ⟨(s.data.drop start).take (count % 2 ^ 64).toNat, by
      rw [List.length_take, List.length_drop]
      exact lt_of_le_of_lt (le_trans (Nat.min_le_right _ _) (Nat.sub_le _ _)) s.fits⟩

/-- Source: `builtins.cxy` `__string.indexOf`. -/
def indexOf (s : Str) (ch : UInt8) : Option (Option ℕ) := firstFrom (isAt s.data ch) s.size 0

/-- The loop ends in front of the index 0. Source: `builtins.cxy` `__string.rIndexOf`. -/
def rIndexOf (s : Str) (ch : UInt8) : Option (Option ℕ) :=
  if s.size = 0 then some none else lastFrom (isAt s.data ch) 1 s.size

/-- Source: `builtins.cxy` `__string.endswith`. -/
def endswith (s suffix : Str) : Option Bool :=
  if s.size < suffix.size then some false
  else (s.substr (s.size - suffix.size) (-1)).map fun t => decide (t.compare suffix = 0)

/-- Source: `builtins.cxy` `__string.startswith`. -/
def startswith (s suffix : Str) : Option Bool :=
  if s.size < suffix.size then some false
  else (s.substr 0 (toI64 suffix.size)).map fun t => decide (t.compare suffix = 0)

/-- `memcmp` reads as many bytes as the pattern has. Source: `builtins.cxy` `__string.find`,
`rfind`. -/
def matchesAt (s part : Str) (j : ℕ) : Option Bool :=
  if j + part.size ≤ s.size then some (decide ((s.data.drop j).take part.size = part.data))
    else none

/-- The pattern is not empty. Source: `builtins.cxy` `__string.find`, the loop with `i` and `j`. -/
def findLoop (s part : Str) : ℕ → ℕ → Option (Option ℕ)
  | 0, _ => some none
  | i + 1, j =>
      if part.size ≤ i + 1 then
        (s.matchesAt part j).bind fun found => if found then some (some j)
          else findLoop s part i (j + 1)
      else some none

/-- Source: `builtins.cxy` `__string.find`. -/
def find (s part : Str) : Option (Option ℕ) :=
  if part.size = 0 then some (if s.size = 0 then none else some (s.size - 1))
    else s.findLoop part s.size 0

/-- Source: `builtins.cxy` `__string.rfind`. -/
def rfind (s part : Str) : Option (Option ℕ) :=
  if part.size ≤ s.size then
    if part.size = 0 then some (if s.size = 0 then none else some (s.size - 1))
    else
      let j := toI64 (s.size - part.size)
      if j < 0 then some none else lastFrom (s.matchesAt part) 0 (j.toNat + 1)
  else some none

end Str

/-- Source: `builtins.cxy` `String`. -/
structure StringBuf where
  data : Bytes
  fits : data.length < 2 ^ 64

namespace StringBuf

/-- Source: `builtins.cxy` `String.__str`. -/
def str (s : StringBuf) : Str := ⟨s.data, s.fits⟩

/-- Source: `builtins.cxy` `String.indexOf`. -/
def indexOf (s : StringBuf) (ch : UInt8) : Option (Option ℕ) :=
  firstFrom (isAt s.data ch) s.data.length 0

/-- Source: `builtins.cxy` `String.rIndexOf`. -/
def rIndexOf (s : StringBuf) (ch : UInt8) : Option (Option ℕ) :=
  if s.data.length = 0 then some none else lastFrom (isAt s.data ch) 1 s.data.length

end StringBuf

/-! ## What they should return -/

/-- Where a character occurs. -/
def indices (s : Bytes) (ch : UInt8) : Set ℕ := {i | s[i]? = some ch}

/-- Where a pattern begins. -/
def occurrences (s p : Bytes) : Set ℕ := {j | p <+: s.drop j}

/-- **No search fails, and each returns what it should.** -/
structure Searches (s : Str) (ch : UInt8) (p : Str) : Prop where
  indexOf : ∃ r, s.indexOf ch = some r ∧ LeastIn (indices s.data ch) r
  rIndexOf : ∃ r, s.rIndexOf ch = some r ∧ GreatestIn (indices s.data ch) r
  find : ∃ r, s.find p = some r ∧ LeastIn (occurrences s.data p.data) r
  rfind : ∃ r, s.rfind p = some r ∧ GreatestIn (occurrences s.data p.data) r
  startswith : ∃ b, s.startswith p = some b ∧ (b = true ↔ p.data <+: s.data)
  endswith : ∃ b, s.endswith p = some b ∧ (b = true ↔ p.data <:+ s.data)
  own : ∀ b : StringBuf, b.str = s → b.indexOf ch = s.indexOf ch ∧ b.rIndexOf ch = s.rIndexOf ch

/-- The part of a text that `strncmp` looks at. -/
def upToNul (s : Bytes) : Bytes := s.takeWhile (· ≠ 0)

/-- **Where they do**: the character is not at the first index only, no part of the string at an end
is the pattern up to a NUL and differs behind it, and the numbers fit into `i64`. -/
structure Clean (s : Str) (ch : UInt8) (p : Str) : Prop where
  notFirstOnly : 0 ∈ indices s.data ch → ∃ i ∈ indices s.data ch, i ≠ 0
  start : p.size ≤ s.size → upToNul (s.data.take p.size) = upToNul p.data → p.data <+: s.data
  ending : p.size ≤ s.size → upToNul
    (s.data.drop (s.size - p.size)) = upToNul p.data → p.data <:+ s.data
  distance : (occurrences s.data p.data).Nonempty → s.size - p.size < 2 ^ 63
  length : p.size ≤ s.size → p.size < 2 ^ 63 ∨ p.size = 2 ^ 64 - 1

/-! ## The loops -/

variable {s p : Str} {ch : UInt8}

theorem isAt_spec {s : Bytes} {i : ℕ} (hi : i < s.length) :
    ∃ b, isAt s ch i = some b ∧ (b = true ↔ i ∈ indices s ch) := by
  refine ⟨decide (s[i] = ch), ?_, ?_⟩
  · rw [isAt, List.getElem?_eq_getElem hi, Option.map_some]
  · rw [decide_eq_true_eq, indices, Set.mem_ofPred_eq, List.getElem?_eq_getElem hi, Option.some_inj]

theorem indices_lt {s : Bytes} {i : ℕ} (hi : i ∈ indices s ch) : i < s.length :=
  (List.getElem?_eq_some_iff.mp hi).1

theorem matchesAt_spec {j : ℕ} (hj : j + p.size ≤ s.size) :
    ∃ b, s.matchesAt p j = some b ∧ (b = true ↔ j ∈ occurrences s.data p.data) := by
  refine ⟨_, by rw [Str.matchesAt, if_pos hj], ?_⟩
  rw [decide_eq_true_eq, occurrences, Set.mem_ofPred_eq, List.prefix_iff_eq_take, Str.size, eq_comm]

theorem occurrences_le {j : ℕ} (hp : p.data ≠ [])
    (hj : j ∈ occurrences s.data p.data) : j + p.size ≤ s.size := by
  have hlen := List.IsPrefix.length_le hj
  have hpos := List.length_pos_iff.mpr hp
  rw [List.length_drop] at hlen
  unfold Str.size
  omega

theorem findLoop_eq (hp : p.data ≠ []) (i j : ℕ) :
    s.findLoop p i j = firstFrom (s.matchesAt p) (i + 1 - p.size) j := by
  have hpos : 0 < p.size := List.length_pos_iff.mpr hp
  induction i generalizing j with
  | zero =>
      have hzero : 0 + 1 - p.size = 0 := by omega
      rw [hzero]
      rfl
  | succ i ih =>
      by_cases hle : p.size ≤ i + 1
      · have hsucc : i + 1 + 1 - p.size = i + 1 - p.size + 1 := by omega
        rw [Str.findLoop, if_pos hle, hsucc, firstFrom, ih]
      · have hzero : i + 1 + 1 - p.size = 0 := by omega
        rw [Str.findLoop, if_neg hle, hzero]
        rfl

/-- **`indexOf` returns the least index.** Kind: L -/
theorem indexOf_spec (s : Str)
    (ch : UInt8) : ∃ r, s.indexOf ch = some r ∧ LeastIn (indices s.data ch) r := by
  obtain ⟨r, hr, hleast⟩ := @firstFrom_spec (isAt s.data ch) (indices s.data ch) s.size 0
    fun j _ hj => isAt_spec (by rw [Nat.zero_add] at hj; exact hj)
  have hset : {j | j ∈ indices s.data ch ∧ 0 ≤ j ∧ j < 0 + s.size} = indices s.data ch := by
    ext j
    refine ⟨fun h => h.1, fun h => ⟨h, Nat.zero_le _, ?_⟩⟩
    rw [Nat.zero_add]
    exact indices_lt h
  rw [hset] at hleast
  exact ⟨r, hr, hleast⟩

/-- **`rIndexOf` returns the greatest index but 0.** Kind: L -/
theorem rIndexOf_spec (s : Str) (ch : UInt8) :
    ∃ r, s.rIndexOf ch = some r ∧ GreatestIn {i | i ∈ indices s.data ch ∧ i ≠ 0} r := by
  have hset : {j | j ∈ indices s.data ch ∧ 1 ≤ j ∧ j < s.size} =
    {i | i ∈ indices s.data ch ∧ i ≠ 0} := by
    ext j
    exact ⟨fun h => ⟨h.1, Nat.one_le_iff_ne_zero.mp h.2.1⟩,
      fun h => ⟨h.1, Nat.one_le_iff_ne_zero.mpr h.2, indices_lt h.1⟩⟩
  by_cases hempty : s.size = 0
  · refine ⟨none, by rw [Str.rIndexOf, if_pos hempty], Set.eq_empty_iff_forall_notMem.mpr ?_⟩
    rintro j ⟨hj, -⟩
    exact absurd (indices_lt hj) (by rw [← Str.size, hempty]; exact Nat.not_lt_zero _)
  · obtain ⟨r, hr, hgreatest⟩ := @lastFrom_spec (isAt s.data ch) (indices s.data ch) 1 s.size
      fun j _ hj => isAt_spec hj
    rw [hset] at hgreatest
    exact ⟨r, by rw [Str.rIndexOf, if_neg hempty]; exact hr, hgreatest⟩

/-- **`find` returns the least occurrence.** Kind: L -/
theorem find_spec (hp : p.data ≠ []) : ∃ r,
    s.find p = some r ∧ LeastIn (occurrences s.data p.data) r := by
  have hpos : 0 < p.size := List.length_pos_iff.mpr hp
  obtain ⟨r, hr, hleast⟩ := @firstFrom_spec (s.matchesAt p) (occurrences s.data p.data)
    (s.size + 1 - p.size) 0
    fun j _ hj => matchesAt_spec (by omega)
  have hset : {j | j ∈ occurrences s.data p.data ∧ 0 ≤ j ∧ j < 0 + (s.size + 1 - p.size)} =
      occurrences s.data p.data := by
    ext j
    refine ⟨fun h => h.1, fun h => ⟨h, Nat.zero_le _, ?_⟩⟩
    have hle := occurrences_le hp h
    omega
  rw [hset] at hleast
  exact ⟨r, by rw [Str.find, if_neg hpos.ne', findLoop_eq hp]; exact hr, hleast⟩

theorem toI64_of_lt {n : ℕ} (hn : n < 2 ^ 63) : toI64 n = n := by
  unfold toI64
  rw [Int.bmod_def]
  omega

theorem toI64_of_le {n : ℕ} (hn : 2 ^ 63 ≤ n) (hn' : n < 2 ^ 64) : toI64 n = (n : ℤ) - 2 ^ 64 := by
  unfold toI64
  rw [Int.bmod_def]
  omega

/-- **`rfind` returns the greatest occurrence**, where the index fits into `i64`. Kind: L -/
theorem rfind_spec (hp : p.data ≠ []) (hdistance : s.size - p.size < 2 ^ 63) :
    ∃ r, s.rfind p = some r ∧ GreatestIn (occurrences s.data p.data) r := by
  have hpos : 0 < p.size := List.length_pos_iff.mpr hp
  by_cases hle : p.size ≤ s.size
  · obtain ⟨r, hr, hgreatest⟩ :=
      @lastFrom_spec (s.matchesAt p) (occurrences s.data p.data) 0 (s.size - p.size + 1)
      fun j _ hj => matchesAt_spec (by omega)
    have hset : {j | j ∈ occurrences s.data p.data ∧ 0 ≤ j ∧ j < s.size - p.size + 1} =
        occurrences s.data p.data := by
      ext j
      refine ⟨fun h => h.1, fun h => ⟨h, Nat.zero_le _, ?_⟩⟩
      have hend := occurrences_le hp h
      omega
    rw [hset] at hgreatest
    refine ⟨r, ?_, hgreatest⟩
    rw [Str.rfind, if_pos hle, if_neg hpos.ne', toI64_of_lt hdistance]
    dsimp only
    rw [if_neg (not_lt.mpr (Int.natCast_nonneg _)), Int.toNat_natCast]
    exact hr
  · refine ⟨none, by rw [Str.rfind, if_neg hle], Set.eq_empty_iff_forall_notMem.mpr ?_⟩
    intro j hj
    have hend := occurrences_le hp hj
    omega

/-- Where there is no occurrence, none is found, whatever the index is. Kind: L -/
theorem rfind_none (hp : p.data ≠ []) (h : ¬ (occurrences s.data p.data).Nonempty) :
    ∃ r, s.rfind p = some r ∧ GreatestIn (occurrences s.data p.data) r := by
  have hs : s.size < 2 ^ 64 := s.fits
  by_cases hdistance : s.size - p.size < 2 ^ 63
  · exact rfind_spec hp hdistance
  · have hpos : 0 < p.size := List.length_pos_iff.mpr hp
    have hcast := toI64_of_le (n := s.size - p.size) (not_lt.mp hdistance) (by omega)
    refine ⟨none, ?_, Set.not_nonempty_iff_eq_empty.mp h⟩
    rw [Str.rfind, if_pos (by omega), if_neg hpos.ne']
    dsimp only
    rw [if_pos (by omega)]

/-! ## The ends -/

/-- **`strncmp` looks at the texts up to a NUL.** Kind: L -/
theorem strncmp_eq_zero {n : ℕ} : ∀ {s t : Bytes}, s.length = n → t.length = n →
    (strncmp n s t = 0 ↔ upToNul s = upToNul t) := by
  induction n with
  | zero =>
      intro s t hs ht
      rw [List.length_eq_zero_iff.mp hs, List.length_eq_zero_iff.mp ht]
      exact iff_of_true rfl rfl
  | succ n ih =>
      intro s t hs ht
      obtain ⟨c, s, rfl⟩ := List.exists_cons_of_length_eq_add_one hs
      obtain ⟨d, t, rfl⟩ := List.exists_cons_of_length_eq_add_one ht
      rw [strncmp, List.headD_cons, List.headD_cons]
      unfold upToNul
      by_cases hne : c ≠ d
      · rw [if_pos hne]
        refine iff_of_false ?_ ?_
        · intro hzero
          have hnat : c.toNat = d.toNat := by omega
          exact hne (UInt8.toNat_inj.mp hnat)
        · intro heq
          rw [List.takeWhile_cons, List.takeWhile_cons] at heq
          by_cases hc : c = 0
          · rw [if_neg (by simp [hc]),
              if_pos (by simpa using fun h => hne (hc.trans h.symm))] at heq
            cases heq
          · rw [if_pos (by simpa using hc)] at heq
            by_cases hd : d = 0
            · rw [if_neg (by simp [hd])] at heq
              cases heq
            · rw [if_pos (by simpa using hd)] at heq
              exact hne (List.cons.inj heq).1
      · rw [if_neg hne]
        obtain rfl := not_not.mp hne
        by_cases hc : c = 0
        · rw [if_pos hc]
          refine iff_of_true rfl ?_
          rw [List.takeWhile_cons_of_neg (by simp [hc]), List.takeWhile_cons_of_neg (by simp [hc])]
        · rw [if_neg hc, List.takeWhile_cons_of_pos (by simpa using hc),
            List.takeWhile_cons_of_pos (by simpa using hc), List.cons_inj_right]
          exact ih (Nat.succ_injective hs) (Nat.succ_injective ht)

theorem compare_eq_zero {t : Str}
    (h : t.size = p.size) : t.compare p = 0 ↔ upToNul t.data = upToNul p.data := by
  rw [Str.compare, if_pos h]
  exact strncmp_eq_zero rfl h.symm

theorem toNat_toI64 {n : ℕ} (hn : n < 2 ^ 64) : (toI64 n % 2 ^ 64).toNat = n := by
  unfold toI64
  rw [Int.bmod_def]
  omega

theorem substr_spec {start n : ℕ} {count : ℤ} (hn : start + n ≤ s.size)
    (hcount : count = -1 ∧ start + n = s.size ∨ count = n) :
    ∃ t, s.substr start count = some t ∧ t.data = (s.data.drop start).take n := by
  have hs : s.size < 2 ^ 64 := s.fits
  have hassert : ¬ (count ≠ -1 ∧ ¬ (0 ≤ count ∧ count ≤ (s.size - start : ℕ))) := by omega
  have htake : ((if count = -1 then toI64 (s.size - start) else count) % 2 ^ 64).toNat = n := by
    rcases hcount with ⟨hall, hsum⟩ | hn'
    · have hleft : s.size - start = n := by omega
      rw [if_pos hall, hleft]
      exact toNat_toI64 (by omega)
    · rw [if_neg (by omega), hn']
      omega
  unfold Str.substr
  rw [if_neg (by omega), if_neg hassert]
  exact ⟨_, rfl, congrArg (fun k => (s.data.drop start).take k) htake⟩

theorem endswith_spec (hle : p.size ≤ s.size) :
    s.endswith p = some (decide (upToNul (s.data.drop (s.size - p.size)) = upToNul p.data)) := by
  obtain ⟨t, ht, hdata⟩ := @substr_spec s (s.size - p.size) p.size (-1) (by omega)
    (.inl ⟨rfl, by omega⟩)
  have hlen : (s.data.drop (s.size - p.size)).length = p.size := by
    rw [List.length_drop]
    exact Nat.sub_sub_self hle
  rw [List.take_of_length_le (le_of_eq hlen)] at hdata
  have hsize : t.size = p.size := by rw [Str.size, hdata, hlen]
  rw [Str.endswith, if_neg (not_lt.mpr hle), ht, Option.map_some, Option.some_inj, decide_eq_decide,
    compare_eq_zero hsize, hdata]

theorem startswith_spec (hle : p.size ≤ s.size) (hlength : p.size < 2 ^ 63 ∨ p.size = 2 ^ 64 - 1) :
    s.startswith p = some (decide (upToNul (s.data.take p.size) = upToNul p.data)) := by
  have hs : s.size < 2 ^ 64 := s.fits
  have hcount : toI64 p.size = -1 ∧ 0 + p.size = s.size ∨ toI64 p.size = p.size := by
    rcases hlength with hshort | hall
    · exact .inr (toI64_of_lt hshort)
    · have hcast := toI64_of_le (n := p.size) (by omega) p.fits
      exact .inl ⟨by omega, by omega⟩
  obtain ⟨t, ht, hdata⟩ := @substr_spec s 0 p.size _ (by omega) hcount
  rw [List.drop_zero] at hdata
  have hsize : t.size = p.size := by
    rw [Str.size, hdata, List.length_take]
    exact Nat.min_eq_left hle
  rw [Str.startswith, if_neg (not_lt.mpr hle), ht, Option.map_some,
    Option.some_inj, decide_eq_decide,
    compare_eq_zero hsize, hdata]

theorem startswith_aborts (hle : p.size ≤ s.size) (hlong : 2 ^ 63 ≤ p.size)
    (hnot : p.size ≠ 2 ^ 64 - 1) :
    s.startswith p = none := by
  have hp : p.size < 2 ^ 64 := p.fits
  have hcast := toI64_of_le hlong hp
  rw [Str.startswith, if_neg (not_lt.mpr hle), Str.substr,
    if_neg (Nat.not_lt_zero _), if_pos (by omega)]
  rfl

theorem prefix_iff_take : p.data <+: s.data ↔ s.data.take p.size = p.data := by
  rw [List.prefix_iff_eq_take, Str.size, eq_comm]

theorem suffix_iff_drop : p.data <:+ s.data ↔ s.data.drop (s.size - p.size) = p.data := by
  rw [List.suffix_iff_eq_drop, Str.size, Str.size, eq_comm]

/-! ## The searches -/

/-- **The searches return what they should if and only if the condition holds.** Kind: P -/
theorem searches_iff (hp : p.data ≠ []) : Searches s ch p ↔ Clean s ch p := by
  have hpos : 0 < p.size := List.length_pos_iff.mpr hp
  have hps : p.size < 2 ^ 64 := p.fits
  constructor
  · intro h
    have hlength : p.size ≤ s.size → p.size < 2 ^ 63 ∨ p.size = 2 ^ 64 - 1 := by
      intro hle
      by_contra hnot
      rw [not_or] at hnot
      obtain ⟨b, hb, -⟩ := h.startswith
      rw [startswith_aborts hle (not_lt.mp hnot.1) hnot.2] at hb
      cases hb
    refine ⟨?_, ?_, ?_, ?_, hlength⟩
    · intro hzero
      obtain ⟨r, hr, hgreatest⟩ := h.rIndexOf
      obtain ⟨r', hr', hspec⟩ := rIndexOf_spec s ch
      obtain rfl : r = r' := Option.some.inj (hr.symm.trans hr')
      cases r with
      | none => exact absurd hzero (Set.eq_empty_iff_forall_notMem.mp hgreatest 0)
      | some i => exact ⟨i, hspec.1.1, hspec.1.2⟩
    · intro hle heq
      obtain ⟨b, hb, hiff⟩ := h.startswith
      rw [startswith_spec hle (hlength hle), decide_eq_true heq] at hb
      exact hiff.mp (Option.some.inj hb).symm
    · intro hle heq
      obtain ⟨b, hb, hiff⟩ := h.endswith
      rw [endswith_spec hle, decide_eq_true heq] at hb
      exact hiff.mp (Option.some.inj hb).symm
    · rintro ⟨j, hj⟩
      by_contra hfar
      have hend := occurrences_le hp hj
      have hs : s.size < 2 ^ 64 := s.fits
      have hcast := toI64_of_le (n := s.size - p.size) (not_lt.mp hfar) (by omega)
      obtain ⟨r, hr, hgreatest⟩ := h.rfind
      rw [Str.rfind, if_pos (by omega), if_neg hpos.ne'] at hr
      dsimp only at hr
      rw [if_pos (by omega)] at hr
      obtain rfl : none = r := Option.some.inj hr
      exact Set.eq_empty_iff_forall_notMem.mp hgreatest j hj
  · intro h
    refine ⟨indexOf_spec s ch, ?_, find_spec hp, ?_, ?_, ?_, ?_⟩
    · obtain ⟨r, hr, hspec⟩ := rIndexOf_spec s ch
      refine ⟨r, hr, ?_⟩
      cases r with
      | none =>
          refine Set.eq_empty_iff_forall_notMem.mpr fun i hi => ?_
          have hnone := Set.eq_empty_iff_forall_notMem.mp hspec
          by_cases hi0 : i = 0
          · obtain ⟨k, hk, hk0⟩ := h.notFirstOnly (hi0 ▸ hi)
            exact hnone k ⟨hk, hk0⟩
          · exact hnone i ⟨hi, hi0⟩
      | some i =>
          refine ⟨hspec.1.1, fun k hk => ?_⟩
          by_cases hk0 : k = 0
          · rw [hk0]
            exact Nat.zero_le _
          · exact hspec.2 ⟨hk, hk0⟩
    · by_cases hsome : (occurrences s.data p.data).Nonempty
      · exact rfind_spec hp (h.distance hsome)
      · exact rfind_none hp hsome
    · by_cases hle : p.size ≤ s.size
      · refine ⟨_, startswith_spec hle (h.length hle), ?_⟩
        rw [decide_eq_true_eq]
        refine ⟨h.start hle, fun hprefix => ?_⟩
        rw [prefix_iff_take.mp hprefix]
      · refine ⟨false, by rw [Str.startswith, if_pos (not_le.mp hle)],
          iff_of_false Bool.false_ne_true ?_⟩
        exact fun hprefix => hle hprefix.length_le
    · by_cases hle : p.size ≤ s.size
      · refine ⟨_, endswith_spec hle, ?_⟩
        rw [decide_eq_true_eq]
        refine ⟨h.ending hle, fun hsuffix => ?_⟩
        rw [suffix_iff_drop.mp hsuffix]
      · refine ⟨false, by rw [Str.endswith, if_pos (not_le.mp hle)],
          iff_of_false Bool.false_ne_true ?_⟩
        exact fun hsuffix => hle hsuffix.length_le
    · rintro b rfl
      exact ⟨rfl, rfl⟩

theorem searches_iff_text : text "b" ≠ [] ∧
    (Searches ⟨text "ab", by decide⟩ (Stdlib.ch 'b') ⟨text "b", by decide⟩ ↔
    Clean ⟨text "ab", by decide⟩ (Stdlib.ch 'b') ⟨text "b", by decide⟩) :=
  ⟨by decide, searches_iff (by decide)⟩

/-- The first character of a text is not found from behind. Kind: L -/
theorem rIndexOf_first : ¬ Searches ⟨text "ab", by decide⟩ (Stdlib.ch 'a') ⟨text "b", by
    decide⟩ := by
  intro h
  obtain ⟨r, hr, hgreatest⟩ := h.rIndexOf
  have hnone : Str.rIndexOf ⟨text "ab", by decide⟩ (Stdlib.ch 'a') = some none := by decide
  obtain rfl : none = r := Option.some.inj (hnone.symm.trans hr)
  exact Set.eq_empty_iff_forall_notMem.mp hgreatest 0 rfl

end CxyCompiler.Stdlib
