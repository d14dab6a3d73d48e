import Mathlib.Data.List.Basic
import Mathlib.Logic.Function.Iterate

/-!
# Loops that read memory

A round of a loop leaves with a value, goes on with a state, or has no result, as a read outside of
the memory has none.

* `loop`, `Leaves` — what a loop gives within some rounds, and whether it gives anything at all.
* `leaves_unique` — **a loop gives one value, however many rounds it is granted**.
* `foldRound` — the round of a loop that folds the byte at an index while a test holds.
* `fold_leaves`, `not_leaves_fold` — **such a loop gives the fold of the bytes it comes by**, and
  nothing where it comes by an index that cannot be read.
* `indexRound`, `index_leaves_iff` — a loop that folds the indices themselves.
-/

namespace CxyCompiler.Lib.Loop

variable {σ α β ι : Type}

/-- What the loop leaves with, within so many rounds. -/
def loop (round : σ → Option (α ⊕ σ)) : ℕ → σ → Option α
  | 0, _ => none
  | rounds + 1, s =>
      match round s with
      | none => none
      | some (.inl a) => some a
      | some (.inr s') => loop round rounds s'

/-- The loop ends, with this value. -/
def Leaves (round : σ → Option (α ⊕ σ)) (s : σ) (a : α) : Prop :=
  ∃ rounds, loop round rounds s = some a

section

variable {round : σ → Option (α ⊕ σ)} {s s' : σ} {a a' : α}

/-- More rounds do not change the value. Kind: L -/
theorem loop_add (k : ℕ) : ∀ (rounds : ℕ) {s : σ}, loop round rounds s = some a →
    loop round (rounds + k) s = some a := by
  intro rounds
  induction rounds with
  | zero => intro s h; cases h
  | succ rounds ih =>
      intro s h
      rw [Nat.add_right_comm]
      unfold loop at h ⊢
      rcases hround : round s with _ | b | s' <;> rw [hround] at h
      · exact h
      · exact h
      · exact ih h

/-- **A loop gives one value.** Kind: P -/
theorem leaves_unique (h : Leaves round s a) (h' : Leaves round s a') : a = a' := by
  obtain ⟨rounds, h⟩ := h
  obtain ⟨rounds', h'⟩ := h'
  have hadd := loop_add rounds' rounds h
  rw [Nat.add_comm, loop_add rounds rounds' h'] at hadd
  exact (Option.some.inj hadd).symm

theorem leaves_of_inl (h : round s = some (.inl a)) : Leaves round s a :=
  ⟨1, by unfold loop; rw [h]⟩

theorem leaves_iff_of_inr (h : round s = some (.inr s')) : Leaves round s a ↔
    Leaves round s' a := by
  constructor
  · rintro ⟨_ | rounds, hr⟩
    · cases hr
    · unfold loop at hr
      rw [h] at hr
      exact ⟨rounds, hr⟩
  · rintro ⟨rounds, hr⟩
    refine ⟨rounds + 1, ?_⟩
    unfold loop
    rw [h]
    exact hr

/-- States with the same round end alike. Kind: L -/
theorem leaves_congr (h : round s = round s') : Leaves round s a ↔ Leaves round s' a := by
  have hloop : ∀ rounds, loop round rounds s = loop round rounds s' := by
    rintro (_ | rounds)
    · rfl
    · unfold loop
      rw [h]
  unfold Leaves
  simp only [hloop]

/-- **A loop whose states all go on does not end.** Kind: P -/
theorem not_leaves_of_goes_on {P : σ → Prop}
    (hP : ∀ s, P s → ∃ s', round s = some (.inr s') ∧ P s') (h : P s) : ¬ Leaves round s a := by
  rintro ⟨rounds, hr⟩
  induction rounds generalizing s with
  | zero => cases hr
  | succ rounds ih =>
      obtain ⟨s', hround, hs'⟩ := hP s h
      unfold loop at hr
      rw [hround] at hr
      exact ih hs' hr

/-- A round that goes on where it began. Kind: L -/
theorem not_leaves_of_stays (h : round s = some (.inr s)) : ¬ Leaves round s a := by
  apply @not_leaves_of_goes_on σ α round s a (· = s)
  · rintro _ rfl
    exact ⟨_, h, rfl⟩
  · rfl

theorem not_leaves_of_none (h : round s = none) : ¬ Leaves round s a := by
  rintro ⟨_ | rounds, hr⟩
  · cases hr
  · unfold loop at hr
    rw [h] at hr
    cases hr

end

/-! ## Folding bytes -/

/-- While `more` holds of the index, the byte there is folded. -/
def foldRound (f : β → α → β) (more : ι → Option Bool) (get : ι → Option α) (next : ι → ι)
    (s : β × ι) : Option (β ⊕ β × ι) :=
  match more s.2 with
  | none => none
  | some false => some (.inl s.1)
  | some true => (get s.2).map fun x => .inr (f s.1 x, next s.2)

variable {f : β → α → β} {more : ι → Option Bool} {get : ι → Option α} {next : ι → ι}

theorem foldRound_byte {b : β} {i : ι} {x : α} (hmore : more i = some true)
    (hget : get i = some x) :
    foldRound f more get next (b, i) = some (.inr (f b x, next i)) := by
  unfold foldRound
  rw [hmore]
  dsimp only
  rw [hget]
  rfl

/-- The indices from `i` on hold the bytes, and the test lets the loop come by them. -/
def Reads (more : ι → Option Bool) (get : ι → Option α) (next : ι → ι) : ι → List α → Prop
  | _, [] => True
  | i, x :: xs => more i = some true ∧ get i = some x ∧ Reads more get next (next i) xs

/-- The loop comes by all of the bytes it can read. Kind: L -/
theorem leaves_fold_iff (xs : List α) : ∀ {i : ι} {b c : β}, Reads more get next i xs →
    (Leaves (foldRound f more get next) (b, i) c ↔
      Leaves (foldRound f more get next) (xs.foldl f b, Nat.iterate next xs.length i) c) := by
  induction xs with
  | nil => intro i b c _; exact Iff.rfl
  | cons x xs ih =>
      intro i b c h
      obtain ⟨hmore, hget, hrest⟩ := h
      rw [leaves_iff_of_inr (foldRound_byte hmore hget)]
      exact ih hrest

/-- **The loop ends with the fold of the bytes in front of the index where the test fails.**
Kind: P -/
theorem fold_leaves {xs : List α} {i : ι} {b : β} (h : Reads more get next i xs)
    (hend : more (Nat.iterate next xs.length i) = some false) :
    Leaves (foldRound f more get next) (b, i) (xs.foldl f b) := by
  rw [leaves_fold_iff xs h]
  apply leaves_of_inl
  unfold foldRound
  rw [hend]

/-- **The loop does not end where it comes by an index that cannot be read.** Kind: P -/
theorem not_leaves_fold {xs : List α} {i : ι} {b c : β} (h : Reads more get next i xs)
    (hmore : more (Nat.iterate next xs.length i) ≠ some false)
    (hget : get (Nat.iterate next xs.length i) = none) :
    ¬ Leaves (foldRound f more get next) (b, i) c := by
  rw [leaves_fold_iff xs h]
  apply not_leaves_of_none
  unfold foldRound
  rcases hm : more (Nat.iterate next xs.length i) with _ | _ | _
  · rfl
  · exact absurd hm hmore
  · dsimp only
    rw [hget]
    rfl

/-! ## Folding the indices -/

section

variable {test : ι → Bool} {f : β → ι → β}

/-- While `test` holds of the index, the index is folded. -/
def indexRound (f : β → ι → β) (test : ι → Bool) (next : ι → ι) : β × ι → Option (β ⊕ β × ι) :=
  foldRound f (fun i => some (test i)) some next

theorem indexRound_on {b : β} {i : ι} (h : test i = true) :
    indexRound f test next (b, i) = some (.inr (f b i, next i)) :=
  foldRound_byte (congrArg some h) rfl

theorem indexRound_off {b : β} {i : ι} (h : test i = false) :
    indexRound f test next (b, i) = some (.inl b) := by
  unfold indexRound foldRound
  dsimp only
  rw [h]

/-- The indices that the loop comes by. -/
def indices (next : ι → ι) (i : ι) (n : ℕ) : List ι := (List.range n).map fun j =>
    Nat.iterate next j i

theorem indices_succ (i : ι) (n : ℕ) : indices next i (n + 1) = i :: indices next (next i) n := by
  unfold indices
  rw [List.range_succ_eq_map, List.map_cons, List.map_map]
  rfl

/-- **The loop ends with the fold of the indices in front of the first one where the test fails**,
and it does not end where there is none. Kind: P -/
theorem index_leaves_iff {b c : β} {i : ι} : Leaves (indexRound f test next) (b, i) c ↔
    ∃ n, (∀ j < n, test (Nat.iterate next j i) = true) ∧ test (Nat.iterate next n i) = false ∧
      c = (indices next i n).foldl f b := by
  constructor
  · rintro ⟨rounds, h⟩
    induction rounds generalizing b i with
    | zero => exact absurd h (Option.some_ne_none c).symm
    | succ rounds ih =>
        unfold loop at h
        cases htest : test i with
        | false =>
            rw [indexRound_off htest] at h
            exact ⟨0, fun j hj => absurd hj (Nat.not_lt_zero j), htest, (Option.some.inj h).symm⟩
        | true =>
            rw [indexRound_on htest] at h
            obtain ⟨n, hon, hoff, hc⟩ := ih h
            refine ⟨n + 1, ?_, hoff, ?_⟩
            · rintro (_ | j) hj
              · exact htest
              · exact hon j (Nat.lt_of_succ_lt_succ hj)
            · rw [indices_succ, List.foldl_cons]
              exact hc
  · rintro ⟨n, hon, hoff, rfl⟩
    induction n generalizing b i with
    | zero => exact leaves_of_inl (indexRound_off hoff)
    | succ n ih =>
        have htest : test i = true := hon 0 (Nat.succ_pos n)
        rw [leaves_iff_of_inr (indexRound_on htest), indices_succ, List.foldl_cons]
        exact ih (fun j hj => hon (j + 1) (Nat.succ_lt_succ hj)) hoff

theorem foldl_snoc (b xs : List ι) : xs.foldl (fun acc x => acc ++ [x]) b = b ++ xs := by
  induction xs generalizing b with
  | nil => exact (List.append_nil b).symm
  | cons x xs ih => rw [List.foldl_cons, ih, List.append_assoc, List.singleton_append]

/-- The indices themselves are collected. Kind: L -/
theorem collect_leaves_iff {i : ι} {xs : List ι} :
    Leaves (indexRound (fun acc x => acc ++ [x]) test next) ([], i) xs ↔
      ∃ n, (∀ j < n, test (Nat.iterate next j i) = true) ∧ test (Nat.iterate next n i) = false ∧
        xs = indices next i n := by
  rw [index_leaves_iff]
  simp only [foldl_snoc, List.nil_append]

end

end CxyCompiler.Lib.Loop
