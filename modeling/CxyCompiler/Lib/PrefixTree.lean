import Mathlib.Data.List.Basic
import Mathlib.Data.List.Nodup
import Mathlib.Data.List.Infix

/-!
# Prefix trees

A prefix tree whose nodes are the positions of a list: each node has the word that leads to it from
the root. Words are over any alphabet, and an entry is a word with a datum.

* `Tree names` — **the nodes form a prefix tree**: the root is first, a word has one node, and a
  node has its parent. `Tree.grow` adds a leaf.
* `child names w c` — where the word `w` leads when it is lengthened by `c`; `child_grow` says what
  a new leaf does to the children.
* `Found entries k r` — `r` is the datum of the word `k`, if it has one.
* `Longest entries p r` — `r` is the datum of the longest entry in front of `p`, with its length. It
  is kept up along a word: `Longest.take`, `Longest.skip` and `Longest.stop`.
* `Longest.found` — a word has a datum where the longest entry in front of it has its length.
-/

namespace CxyCompiler.Lib.PrefixTree

variable {κ D : Type}

/-! ## Nodes and their words -/

/-- **The nodes form a prefix tree.** -/
structure Tree (names : List (List κ)) : Prop where
  root : names[0]? = some []
  nodup : names.Nodup
  closed : ∀ w c, w ++ [c] ∈ names → w ∈ names

section

variable {names : List (List κ)} {w v : List κ} {c : κ}

theorem Tree.start : Tree ([[]] : List (List κ)) := ⟨rfl, by simp, by simp⟩

theorem Tree.mem_of_append (h : Tree names) (u : List κ) : w ++ u ∈ names → w ∈ names := by
  induction u using List.reverseRecOn with
  | nil => rw [List.append_nil]; exact id
  | append_singleton u c ih =>
      intro hmem
      rw [← List.append_assoc] at hmem
      exact ih (h.closed _ _ hmem)

theorem Tree.mem_of_prefix (h : Tree names) (hv : v ∈ names) (hwv : w <+: v) : w ∈ names := by
  obtain ⟨u, rfl⟩ := hwv
  exact h.mem_of_append u hv

theorem Tree.grow (h : Tree names) (hw : w ∈ names) (hnew : w ++ [c] ∉ names) :
    Tree (names ++ [w ++ [c]]) where
  root := by
    have hpos : 0 < names.length := List.length_pos_of_mem hw
    rw [List.getElem?_append_left hpos]
    exact h.root
  nodup := by
    rw [List.nodup_append]
    refine ⟨h.nodup, by simp, ?_⟩
    rintro u hu _ hv rfl
    exact hnew (List.mem_singleton.mp hv ▸ hu)
  closed := by
    intro u d hu
    rcases List.mem_append.mp hu with hu | hu
    · exact List.mem_append_left _ (h.closed u d hu)
    · obtain ⟨rfl, -⟩ := List.append_inj' (List.mem_singleton.mp hu) rfl
      exact List.mem_append_left _ hw

end

/-! ## Where words lead -/

section

variable [DecidableEq κ] {names : List (List κ)} {w v : List κ} {c : κ} {a : ℕ}

/-- The node that the word leads to from the root. -/
def place (names : List (List κ)) (w : List κ) : Option ℕ := names.findIdx? (· == w)

def child (names : List (List κ)) (w : List κ) (c : κ) : Option ℕ := place names (w ++ [c])

theorem place_eq_none : place names w = none ↔ w ∉ names := by
  rw [place, List.findIdx?_eq_none_iff]
  constructor
  · intro h hw
    simpa using h w hw
  · rintro h x hx
    rw [beq_eq_false_iff_ne]
    rintro rfl
    exact h hx

theorem place_eq_some (h : names.Nodup) : place names w = some a ↔ names[a]? = some w := by
  rw [place, List.findIdx?_eq_some_iff_getElem, List.getElem?_eq_some_iff]
  constructor
  · rintro ⟨ha, heq, -⟩
    exact ⟨ha, by simpa using heq⟩
  · rintro ⟨ha, heq⟩
    refine ⟨ha, by simpa using heq, fun j hj hjw => ?_⟩
    have hsame : names[j] = names[a] := by
      rw [heq]
      simpa using hjw
    have := (List.Nodup.getElem_inj_iff h).mp hsame
    omega

theorem place_append (hv : v ∉ names) :
    place (names ++ [v]) w = if w = v then some names.length else place names w := by
  rw [place, List.findIdx?_append]
  split_ifs with hwv
  · subst hwv
    have hnone : names.findIdx? (· == w) = none := place_eq_none.mpr hv
    rw [hnone]
    simp
  · have hvw : (v == w) = false := by simpa using fun h => hwv h.symm
    simp [List.findIdx?_cons, hvw, place]

theorem child_grow (hnew : w ++ [c] ∉ names) (v : List κ) (d : κ) :
    child (names ++ [w ++ [c]]) v d = if v = w ∧ d = c then some names.length
      else child names v d := by
  have hiff : v ++ [d] = w ++ [c] ↔ v = w ∧ d = c := by simp
  rw [child, place_append hnew]
  simp only [hiff]
  rfl

end

/-! ## The entries in front of a word -/

def Found (entries : List (List κ × D)) (k : List κ) (r : Option D) : Prop :=
  ∀ d, r = some d ↔ (k, d) ∈ entries

def Longest (entries : List (List κ × D)) (p : List κ) : Option (ℕ × D) → Prop
  | none => ∀ e ∈ entries, ¬ e.1 <+: p
  | some (n, d) => ∃ k, (k, d) ∈ entries ∧ k <+: p ∧ k.length = n ∧
      ∀ e ∈ entries, e.1 <+: p → e.1.length ≤ n

/-- The datum of an entry in front of a word of `n` symbols that is the whole word. -/
def whole (n : ℕ) : Option (ℕ × D) → Option D
  | some (i, d) => if i = n then some d else none
  | none => none

section

variable {entries : List (List κ × D)} {w p k : List κ} {r : Option (ℕ × D)} {c : κ} {d : D}

theorem Found.not_mem (h : Found entries k none) : ∀ e ∈ entries, e.1 ≠ k := by
  rintro ⟨_, d⟩ he rfl
  have := (h d).mpr he
  cases this

/-- Words with the same entries in front of them. Kind: L -/
theorem Longest.congr (h : Longest entries w r) (hwp : w <+: p)
    (hsame : ∀ e ∈ entries, e.1 <+: p → e.1 <+: w) : Longest entries p r := by
  rcases r with _ | ⟨n, d⟩
  · intro e he hep
    exact h e he (hsame e he hep)
  · obtain ⟨k, hk, hkw, hlen, hmax⟩ := h
    exact ⟨k, hk, hkw.trans hwp, hlen, fun e he hep => hmax e he (hsame e he hep)⟩

/-- No entry is in front of the empty word. Kind: L -/
theorem Longest.start (h : ∀ e ∈ entries, e.1 ≠ []) : Longest entries [] none := by
  intro e he hpre
  exact h e he (List.prefix_nil.mp hpre)

theorem Longest.take (h : (w ++ [c], d) ∈ entries) :
    Longest entries (w ++ [c]) (some (w.length + 1, d)) := by
  refine ⟨w ++ [c], h, List.prefix_refl _, by simp, fun e _ he => ?_⟩
  simpa using he.length_le

theorem Longest.skip (h : Longest entries w r) (hno : Found entries (w ++ [c]) none) :
    Longest entries (w ++ [c]) r := by
  apply h.congr (List.prefix_append _ _)
  intro e he hpre
  rcases List.prefix_concat_iff.mp hpre with heq | hpre
  · exact absurd heq (hno.not_mem e he)
  · exact hpre

/-- No entry goes on like the longer word. Kind: L -/
theorem Longest.stop (h : Longest entries w r) {cs : List κ}
    (hno : ∀ e ∈ entries, ¬ w ++ [c] <+: e.1) : Longest entries (w ++ c :: cs) r := by
  apply h.congr (List.prefix_append _ _)
  intro e he hpre
  have hlong : w ++ [c] <+: w ++ c :: cs := ⟨cs, by simp⟩
  rcases List.prefix_or_prefix_of_prefix hpre hlong with hshort | hlong
  · rcases List.prefix_concat_iff.mp hshort with heq | hpre
    · exact absurd (heq ▸ List.prefix_refl _) (hno e he)
    · exact hpre
  · exact absurd hlong (hno e he)

theorem longest_map_iff {μ : Type} {f : κ → μ} (hf : Function.Injective f) :
    Longest (entries.map fun e => (e.1.map f, e.2)) (p.map f) r ↔ Longest entries p r := by
  rcases r with _ | ⟨n, d⟩
  · simp only [Longest, List.forall_mem_map, List.prefix_map_iff_of_injective hf]
  · simp only [Longest, List.forall_mem_map, List.prefix_map_iff_of_injective hf, List.length_map]
    constructor
    · rintro ⟨k, hk, hkp, hlen, hmax⟩
      obtain ⟨e, he, heq⟩ := List.mem_map.mp hk
      obtain ⟨rfl, rfl⟩ := Prod.mk.inj heq
      rw [List.length_map] at hlen
      exact ⟨e.1, he, (List.prefix_map_iff_of_injective hf).mp hkp, hlen, hmax⟩
    · rintro ⟨k, hk, hkp, hlen, hmax⟩
      refine ⟨k.map f, List.mem_map.mpr ⟨_, hk, rfl⟩, hkp.map f, ?_, hmax⟩
      rw [List.length_map]
      exact hlen

/-- **A word has a datum where the longest entry in front of it has its length.** Kind: P -/
theorem Longest.found (h : Longest entries k r) (hkeys : (entries.map Prod.fst).Nodup) :
    Found entries k (whole k.length r) := by
  intro d'
  rcases r with _ | ⟨n, d⟩
  · constructor
    · intro hd
      cases hd
    · intro hd
      exact absurd (List.prefix_refl k) (h _ hd)
  · obtain ⟨l, hl, hlk, hlen, hmax⟩ := h
    unfold whole
    dsimp only
    split_ifs with hn
    · have hlk' : l = k := hlk.eq_of_length (hlen.trans hn)
      subst hlk'
      constructor
      · intro hd
        rw [← Option.some.inj hd]
        exact hl
      · intro hd
        have hsame := List.inj_on_of_nodup_map hkeys hl hd rfl
        rw [(Prod.mk.inj hsame).2]
    · constructor
      · intro hd
        cases hd
      · intro hd
        have hge := hmax _ hd (List.prefix_refl k)
        have hle := hlk.length_le
        dsimp only at hge
        omega

end

end CxyCompiler.Lib.PrefixTree
