import Mathlib.Data.List.Induction
import Mathlib.Data.Set.Lattice
import Mathlib.Order.Bounds.Basic

/-!
# Searching a range of indices

A search tests one index after the other, upwards or downwards, and returns the first one that
passes; a test can fail, and then the search does.

* `LeastIn`, `GreatestIn` — the result that a search should have, for the set of the indices that
  pass.
* `firstFrom`, `lastFrom` — the loops.
* `firstFrom_spec`, `lastFrom_spec` — **they return the least and the greatest index of their
  range**.
* `nearer`, `nearest_spec` — a search for the least cost.
-/

namespace CxyCompiler.Lib.Search

def LeastIn (S : Set ℕ) (r : Option ℕ) : Prop := r.elim (S = ∅) (IsLeast S)

def GreatestIn (S : Set ℕ) (r : Option ℕ) : Prop := r.elim (S = ∅) (IsGreatest S)

/-- So many indices, from `i` on upwards. -/
def firstFrom (test : ℕ → Option Bool) : ℕ → ℕ → Option (Option ℕ)
  | 0, _ => some none
  | n + 1, i => (test i).bind fun found => if found then some (some i) else firstFrom test n (i + 1)

/-- The indices below `n`, downwards to `low`. -/
def lastFrom (test : ℕ → Option Bool) (low : ℕ) : ℕ → Option (Option ℕ)
  | 0 => some none
  | n + 1 =>
      if n < low then some none
      else (test n).bind fun found => if found then some (some n) else lastFrom test low n

variable {test : ℕ → Option Bool} {S : Set ℕ}

/-- **The least index of the range.** Kind: P -/
theorem firstFrom_spec {n i : ℕ}
    (htest : ∀ j, i ≤ j → j < i + n → ∃ b, test j = some b ∧ (b = true ↔ j ∈ S)) :
    ∃ r, firstFrom test n i = some r ∧ LeastIn {j | j ∈ S ∧ i ≤ j ∧ j < i + n} r := by
  induction n generalizing i with
  | zero =>
      refine ⟨none, rfl, Set.eq_empty_iff_forall_notMem.mpr ?_⟩
      rintro j ⟨-, hle, hlt⟩
      omega
  | succ n ih =>
      obtain ⟨b, hb, hmem⟩ := htest i (le_refl i) (by omega)
      cases b with
      | true =>
          refine ⟨some i, by rw [firstFrom, hb]; rfl, ⟨hmem.mp rfl, le_refl i, by omega⟩, ?_⟩
          rintro j ⟨-, hle, -⟩
          exact hle
      | false =>
          have hi : i ∉ S := fun h => Bool.false_ne_true (hmem.mpr h)
          obtain ⟨r, hr, hleast⟩ := @ih (i + 1) fun j hle hlt => htest j (by omega) (by omega)
          -- the index that has not passed can be left out
          have hset : {j | j ∈ S ∧ i ≤ j ∧ j < i + (n + 1)} =
            {j | j ∈ S ∧ i + 1 ≤ j ∧ j < i + 1 + n} := by
            ext j
            constructor
            · rintro ⟨hj, hle, hlt⟩
              have hne : i ≠ j := fun h => hi (h ▸ hj)
              exact ⟨hj, by omega, by omega⟩
            · rintro ⟨hj, hle, hlt⟩
              exact ⟨hj, by omega, by omega⟩
          refine ⟨r, by rw [firstFrom, hb]; exact hr, ?_⟩
          rw [hset]
          exact hleast

/-- **The greatest index of the range.** Kind: P -/
theorem lastFrom_spec {low n : ℕ}
    (htest : ∀ j, low ≤ j → j < n → ∃ b, test j = some b ∧ (b = true ↔ j ∈ S)) :
    ∃ r, lastFrom test low n = some r ∧ GreatestIn {j | j ∈ S ∧ low ≤ j ∧ j < n} r := by
  induction n with
  | zero =>
      refine ⟨none, rfl, Set.eq_empty_iff_forall_notMem.mpr ?_⟩
      rintro j ⟨-, -, hlt⟩
      omega
  | succ n ih =>
      by_cases hlow : n < low
      · refine ⟨none, by rw [lastFrom, if_pos hlow], Set.eq_empty_iff_forall_notMem.mpr ?_⟩
        rintro j ⟨-, hle, hlt⟩
        omega
      · obtain ⟨b, hb, hmem⟩ := htest n (by omega) (by omega)
        cases b with
        | true =>
            refine ⟨some n, by
              rw [lastFrom, if_neg hlow, hb]; rfl, ⟨hmem.mp rfl, by omega, by omega⟩, ?_⟩
            rintro j ⟨-, -, hlt⟩
            omega
        | false =>
            have hn : n ∉ S := fun h => Bool.false_ne_true (hmem.mpr h)
            obtain ⟨r, hr, hgreatest⟩ := ih fun j hle hlt => htest j hle (by omega)
            have hset : {j | j ∈ S ∧ low ≤ j ∧ j < n + 1} = {j | j ∈ S ∧ low ≤ j ∧ j < n} := by
              ext j
              constructor
              · rintro ⟨hj, hle, hlt⟩
                have hne : j ≠ n := fun h => hn (h ▸ hj)
                exact ⟨hj, hle, by omega⟩
              · rintro ⟨hj, hle, hlt⟩
                exact ⟨hj, hle, by omega⟩
            refine ⟨r, by rw [lastFrom, if_neg hlow, hb]; exact hr, ?_⟩
            rw [hset]
            exact hgreatest

/-! ## The least cost -/

section

variable {β : Type} {cost : β → ℕ}

/-- One more element: the bound is the least cost so far, and only a smaller one changes it. -/
def nearer (cost : β → ℕ) (best : ℕ × Option β) (x : β) : ℕ × Option β :=
  if cost x < best.1 then (cost x, some x) else best

/-- **The first of the elements of least cost**, if that is below the bound. Kind: P -/
theorem nearest_spec (cost : β → ℕ) (xs : List β) (bound : ℕ) :
    (xs.foldl (nearer cost) (bound, none) = (bound, none) ∧ ∀ x ∈ xs, bound ≤ cost x) ∨
    ∃ pre x post, xs = pre ++ x :: post ∧ xs.foldl (nearer cost) (bound, none) = (cost x, some x) ∧
      cost x < bound ∧ (∀ y ∈ pre, cost x < cost y) ∧ ∀ y ∈ post, cost x ≤ cost y := by
  induction xs using List.reverseRecOn with
  | nil => exact Or.inl ⟨rfl, fun x hx => absurd hx List.not_mem_nil⟩
  | append_singleton xs z ih =>
      rw [List.foldl_append, List.foldl_cons, List.foldl_nil]
      rcases ih with ⟨hfold, hall⟩ | ⟨pre, x, post, rfl, hfold, hlt, hpre, hpost⟩
      · rw [hfold]
        unfold nearer
        dsimp only
        by_cases hz : cost z < bound
        · rw [if_pos hz]
          refine Or.inr ⟨xs, z, [], rfl, rfl, hz, ?_, fun y hy => absurd hy List.not_mem_nil⟩
          exact fun y hy => hz.trans_le (hall y hy)
        · rw [if_neg hz]
          refine Or.inl ⟨rfl, fun y hy => ?_⟩
          rcases List.mem_append.mp hy with hy | hy
          · exact hall y hy
          · rw [List.mem_singleton.mp hy]
            exact not_lt.mp hz
      · rw [hfold]
        unfold nearer
        dsimp only
        by_cases hz : cost z < cost x
        · rw [if_pos hz]
          refine Or.inr ⟨pre ++ x :: post, z, [], rfl, rfl, hz.trans hlt, ?_,
            fun y hy => absurd hy List.not_mem_nil⟩
          intro y hy
          rcases List.mem_append.mp hy with hy | hy
          · exact hz.trans (hpre y hy)
          · rcases List.mem_cons.mp hy with rfl | hy
            · exact hz
            · exact hz.trans_le (hpost y hy)
        · rw [if_neg hz]
          refine Or.inr ⟨pre, x, post ++ [z], by rw [List.append_assoc]; rfl, rfl, hlt, hpre, ?_⟩
          intro y hy
          rcases List.mem_append.mp hy with hy | hy
          · exact hpost y hy
          · rw [List.mem_singleton.mp hy]
            exact not_lt.mp hz

end

end CxyCompiler.Lib.Search
