import Mathlib.Data.Set.Basic

/-!
# Paths of structured code

A path is the list of the points that it visits, and how it ends: normally, or by leaving all of the
code. A piece of code is the set of its paths, whatever the conditions in it are.

* `seq`, `ensure`, `repeated`, `call` — one piece after the other, a piece that is executed however
  the one before ends, any number of rounds, and a procedure that is left on its own.
* `Completes`, `Visits` — a path ends normally; a path visits a point.
* `visits_seq`, `visits_ensure`, `visits_repeated` — **what is visited in a composition**.
-/

namespace CxyCompiler.Lib.Flow

inductive Outcome
  | normal
  | left
deriving DecidableEq

/-- The end of two pieces of which both are executed. -/
def Outcome.join : Outcome → Outcome → Outcome
  | .normal, o => o
  | .left, _ => .left

abbrev Paths (μ : Type) := Set (List μ × Outcome)

variable {μ : Type} {A B : Paths μ} {m k : μ} {s t : List μ} {o : Outcome}

/-! ## Composition -/

def skip : Paths μ := {([], .normal)}

def leave : Paths μ := {([], .left)}

def visit (m : μ) (A : Paths μ) : Paths μ := {p | ∃ t, p.1 = m :: t ∧ (t, p.2) ∈ A}

def seq (A B : Paths μ) : Paths μ :=
  {p | (p.2 = .left ∧ p ∈ A) ∨ ∃ s t, p.1 = s ++ t ∧ (s, .normal) ∈ A ∧ (t, p.2) ∈ B}

/-- `B` is executed however `A` ends. -/
def ensure (A B : Paths μ) : Paths μ :=
  {p | ∃ q ∈ A, ∃ r ∈ B, p = (q.1 ++ r.1, q.2.join r.2)}

inductive Repeats (A : Paths μ) : List μ → Outcome → Prop
  | done : Repeats A [] .normal
  | leave {t : List μ} (h : (t, .left) ∈ A) : Repeats A t .left
  | again {s t : List μ} {o : Outcome} (h : (s, .normal) ∈ A) (ht : Repeats A t o) : Repeats A
    (s ++ t) o

def repeated (A : Paths μ) : Paths μ := {p | Repeats A p.1 p.2}

/-- However the procedure ends, its caller goes on. -/
def call (A : Paths μ) : Paths μ := {p | p.2 = .normal ∧ ∃ o, (p.1, o) ∈ A}

/-! ## Membership -/

@[simp] theorem mem_skip : (t, o) ∈ (skip : Paths μ) ↔ t = [] ∧ o = .normal :=
  Prod.mk.injEq .. ▸ Iff.rfl

@[simp] theorem mem_leave : (t, o) ∈ (leave : Paths μ) ↔ t = [] ∧ o = .left :=
  Prod.mk.injEq .. ▸ Iff.rfl

theorem mem_visit : (t, o) ∈ visit m A ↔ ∃ t', t = m :: t' ∧ (t', o) ∈ A := Iff.rfl

theorem cons_mem_visit : (m :: t, o) ∈ visit m A ↔ (t, o) ∈ A := by
  rw [mem_visit]
  constructor
  · rintro ⟨t', ht, h⟩
    rw [(List.cons.inj ht).2]
    exact h
  · intro h
    exact ⟨t, rfl, h⟩

theorem mem_seq : (t, o) ∈ seq A B ↔
    (o = .left ∧ (t, o) ∈ A) ∨ ∃ t₁ t₂, t = t₁ ++ t₂ ∧ (t₁, .normal) ∈ A ∧ (t₂, o) ∈ B := Iff.rfl

/-- A path through both parts. Kind: L -/
theorem append_mem_seq (hs : (s, .normal) ∈ A) (ht : (t, o) ∈ B) : (s ++ t, o) ∈ seq A B :=
  .inr ⟨s, t, rfl, hs, ht⟩

theorem mem_ensure : (t, o) ∈ ensure A B ↔
    ∃ q ∈ A, ∃ r ∈ B, t = q.1 ++ r.1 ∧ o = q.2.join r.2 := by
  refine exists_congr fun q => and_congr_right fun _ => exists_congr fun r =>
    and_congr_right fun _ => ?_
  rw [Prod.mk.injEq]

/-! ## Normal ends -/

def Completes (A : Paths μ) : Prop := ∃ t, (t, .normal) ∈ A

@[simp] theorem completes_skip : Completes (skip : Paths μ) := ⟨[], rfl⟩

@[simp] theorem not_completes_leave : ¬ Completes (leave : Paths μ) := by
  rintro ⟨t, ht⟩
  exact absurd (mem_leave.mp ht).2 (by decide)

@[simp] theorem not_completes_empty : ¬ Completes (∅ : Paths μ) := by
  rintro ⟨t, ht⟩
  exact ht

@[simp] theorem completes_union : Completes (A ∪ B) ↔ Completes A ∨ Completes B := exists_or

@[simp] theorem completes_visit : Completes (visit m A) ↔ Completes A := by
  constructor
  · rintro ⟨_, t, -, h⟩
    exact ⟨t, h⟩
  · rintro ⟨t, h⟩
    exact ⟨m :: t, t, rfl, h⟩

@[simp] theorem completes_seq : Completes (seq A B) ↔ Completes A ∧ Completes B := by
  constructor
  · rintro ⟨_, ⟨hleft, -⟩ | ⟨s, t, -, hs, ht⟩⟩
    · exact absurd hleft Outcome.noConfusion
    · exact ⟨⟨s, hs⟩, ⟨t, ht⟩⟩
  · rintro ⟨⟨s, hs⟩, ⟨t, ht⟩⟩
    exact ⟨s ++ t, append_mem_seq hs ht⟩

/-- Two outcomes join to the normal one only when both are. Kind: L -/
theorem Outcome.join_eq_normal
    {o o' : Outcome} : o.join o' = .normal ↔ o = .normal ∧ o' = .normal := by
  cases o with
  | normal => exact (and_iff_right rfl).symm
  | left => exact iff_of_false Outcome.noConfusion fun h => Outcome.noConfusion h.1

@[simp] theorem completes_ensure : Completes (ensure A B) ↔ Completes A ∧ Completes B := by
  constructor
  · rintro ⟨t, ht⟩
    obtain ⟨⟨s, o⟩, hs, ⟨t, o'⟩, ht, -, hjoin⟩ := mem_ensure.mp ht
    obtain ⟨rfl, rfl⟩ := Outcome.join_eq_normal.mp hjoin.symm
    exact ⟨⟨s, hs⟩, ⟨t, ht⟩⟩
  · rintro ⟨⟨s, hs⟩, ⟨t, ht⟩⟩
    exact ⟨s ++ t, mem_ensure.mpr ⟨_, hs, _, ht, rfl, rfl⟩⟩

@[simp] theorem completes_repeated : Completes (repeated A) := ⟨[], Repeats.done⟩

/-! ## Nonempty pieces -/

theorem skip_nonempty : (skip : Paths μ).Nonempty := ⟨_, rfl⟩

theorem leave_nonempty : (leave : Paths μ).Nonempty := ⟨_, rfl⟩

theorem visit_nonempty (m : μ) (h : A.Nonempty) : (visit m A).Nonempty := by
  obtain ⟨⟨t, o⟩, ht⟩ := h
  exact ⟨(m :: t, o), t, rfl, ht⟩

/-- A sequence has a path when both parts have one. Kind: L -/
theorem seq_nonempty (hA : A.Nonempty) (hB : B.Nonempty) : (seq A B).Nonempty := by
  obtain ⟨⟨s, o⟩, hs⟩ := hA
  obtain ⟨⟨t, o'⟩, ht⟩ := hB
  cases o with
  | normal => exact ⟨_, append_mem_seq hs ht⟩
  | left => exact ⟨_, .inl ⟨rfl, hs⟩⟩

theorem ensure_nonempty (hA : A.Nonempty) (hB : B.Nonempty) : (ensure A B).Nonempty := by
  obtain ⟨q, hq⟩ := hA
  obtain ⟨r, hr⟩ := hB
  exact ⟨_, q, hq, r, hr, rfl⟩

theorem repeated_nonempty (A : Paths μ) : (repeated A).Nonempty := ⟨([], .normal), Repeats.done⟩

/-! ## Visited points -/

def Visits (A : Paths μ) (m : μ) : Prop := ∃ t o, (t, o) ∈ A ∧ m ∈ t

@[simp] theorem not_visits_skip : ¬ Visits (skip : Paths μ) k := by
  rintro ⟨t, o, h, hk⟩
  rw [(mem_skip.mp h).1] at hk
  exact absurd hk List.not_mem_nil

@[simp] theorem not_visits_leave : ¬ Visits (leave : Paths μ) k := by
  rintro ⟨t, o, h, hk⟩
  rw [(mem_leave.mp h).1] at hk
  exact absurd hk List.not_mem_nil

@[simp] theorem not_visits_empty : ¬ Visits (∅ : Paths μ) k := by
  rintro ⟨t, o, h, -⟩
  exact h

@[simp] theorem visits_union : Visits (A ∪ B) k ↔ Visits A k ∨ Visits B k := by
  constructor
  · rintro ⟨t, o, h | h, hk⟩
    · exact .inl ⟨t, o, h, hk⟩
    · exact .inr ⟨t, o, h, hk⟩
  · rintro (⟨t, o, h, hk⟩ | ⟨t, o, h, hk⟩)
    · exact ⟨t, o, .inl h, hk⟩
    · exact ⟨t, o, .inr h, hk⟩

/-- Which marks are visited behind a mark. Kind: L -/
theorem visits_visit (hA : A.Nonempty) : Visits (visit m A) k ↔ k = m ∨ Visits A k := by
  constructor
  · rintro ⟨_, o, ⟨t, rfl, h⟩, hk⟩
    rcases List.mem_cons.mp hk with rfl | hk
    · exact .inl rfl
    · exact .inr ⟨t, o, h, hk⟩
  · rintro (rfl | ⟨t, o, h, hk⟩)
    · obtain ⟨⟨t, o⟩, ht⟩ := hA
      exact ⟨k :: t, o, cons_mem_visit.mpr ht, List.mem_cons_self⟩
    · exact ⟨m :: t, o, cons_mem_visit.mpr h, List.mem_cons_of_mem _ hk⟩

/-- **The second piece is visited if the first one can end normally.** Kind: P -/
theorem visits_seq (hB : B.Nonempty) : Visits (seq A B) k ↔
    Visits A k ∨ (Completes A ∧ Visits B k) := by
  constructor
  · rintro ⟨_, o, ⟨-, h⟩ | ⟨s, t, rfl, hs, ht⟩, hk⟩
    · exact .inl ⟨_, o, h, hk⟩
    · rcases List.mem_append.mp hk with hk | hk
      · exact .inl ⟨s, _, hs, hk⟩
      · exact .inr ⟨⟨s, hs⟩, ⟨t, o, ht, hk⟩⟩
  · rintro (⟨s, o, hs, hk⟩ | ⟨⟨s, hs⟩, ⟨t, o, ht, hk⟩⟩)
    · obtain ⟨⟨t, o'⟩, ht⟩ := hB
      cases o with
      | normal => exact ⟨s ++ t, o', append_mem_seq hs ht, List.mem_append_left _ hk⟩
      | left => exact ⟨s, .left, .inl ⟨rfl, hs⟩, hk⟩
    · exact ⟨s ++ t, o, append_mem_seq hs ht, List.mem_append_right _ hk⟩

/-- **Both pieces are visited.** Kind: P -/
theorem visits_ensure (hA : A.Nonempty) (hB : B.Nonempty) :
    Visits (ensure A B) k ↔ Visits A k ∨ Visits B k := by
  constructor
  · rintro ⟨t, o, ht, hk⟩
    obtain ⟨⟨s, o₁⟩, hs, ⟨r, o₂⟩, hr, rfl, -⟩ := mem_ensure.mp ht
    rcases List.mem_append.mp hk with hk | hk
    · exact .inl ⟨s, o₁, hs, hk⟩
    · exact .inr ⟨r, o₂, hr, hk⟩
  · rintro (⟨s, o, hs, hk⟩ | ⟨t, o, ht, hk⟩)
    · obtain ⟨r, hr⟩ := hB
      exact ⟨_, _, mem_ensure.mpr ⟨_, hs, r, hr, rfl, rfl⟩, List.mem_append_left _ hk⟩
    · obtain ⟨q, hq⟩ := hA
      exact ⟨_, _, mem_ensure.mpr ⟨q, hq, _, ht, rfl, rfl⟩, List.mem_append_right _ hk⟩

/-- **The rounds visit what one of them visits.** Kind: P -/
@[simp] theorem visits_repeated : Visits (repeated A) k ↔ Visits A k := by
  constructor
  · rintro ⟨t, o, ht, hk⟩
    replace ht : Repeats A t o := ht
    induction ht with
    | done => exact absurd hk List.not_mem_nil
    | leave h => exact ⟨_, _, h, hk⟩
    | again h _ ih =>
      rcases List.mem_append.mp hk with hk | hk
      · exact ⟨_, _, h, hk⟩
      · exact ih hk
  · rintro ⟨t, o, h, hk⟩
    cases o with
    | normal => exact ⟨t ++ [], .normal, Repeats.again h Repeats.done, List.mem_append_left _ hk⟩
    | left => exact ⟨t, .left, Repeats.leave h, hk⟩

@[simp] theorem visits_call : Visits (call A) k ↔ Visits A k := by
  constructor
  · rintro ⟨t, _, ⟨-, o, h⟩, hk⟩
    exact ⟨t, o, h, hk⟩
  · rintro ⟨t, o, h, hk⟩
    exact ⟨t, .normal, ⟨rfl, o, h⟩, hk⟩

end CxyCompiler.Lib.Flow
