import CxyCompiler.Lib.CInteger
import CxyCompiler.Lib.Loop

/-!
# Range loops

A `for` over a range becomes a `while` that compares its variable with the end by `!=`. The bounds
and the step are numbers here, and the body neither leaves the loop nor assigns to the variable; it
is the list of the values that it is executed with. A compile-time `for` goes over the same range
with an iterator of its own.

* `Range` — a range that `checkRangeExpr` accepts; `simplifyForRangeStmt`, `comptimeFor` — the
  loops.
* `Progression` — the values start, start + step, … that lie before the end.
* `Lands` — some value is the end, and is the first one that does not lie before it.
* `right_iff` — **the loop executes its body with those values, and ends, if and only if it lands**.

Sources: `middle/simplify/simplify.c`, `middle/sema/for.c`,
`frontend/iterable.c`, `middle/eval/eval.c`.
-/

namespace CxyCompiler.Middle.ForRange

open Lib.CInteger Lib.Loop

/-! ## Ranges and loops -/

/-- Accepted ranges of integers: the end is of a type that can be assigned to that of the start. The
type of the step is not looked at, as the end is checked in its place, and only a range with a step
can be `down`. Source: `for.c` `checkRangeExpr`; `parser.c` `range`. -/
structure Range where
  type : Ty
  start : ℤ
  endType : Ty
  stop : ℤ
  step : Option ℤ
  down : Bool
  start_has : type.Has start
  stop_has : endType.Has stop
  assignable : Assignable type endType
  down_step : down = true → step.isSome = true

/-- The operators that test for equality. Source: `frontend/operator.h`. -/
inductive Operator
  | opEq
  | opNe
deriving DecidableEq

/-- `var x = init; while (x op bound) { body; x += update }`. -/
structure WhileLoop where
  type : Ty
  init : ℤ
  op : Operator
  boundType : Ty
  bound : ℤ
  update : ℤ

/-- Source: `simplify.c` `simplifyForRangeStmt`. -/
def simplifyForRangeStmt (r : Range) : WhileLoop where
  type := r.type
  init := r.start
  op := .opNe
  boundType := r.endType
  bound := r.stop
  update := r.step.getD 1

/-- `x op bound`. -/
def WhileLoop.condition (w : WhileLoop) (x : ℤ) : Bool :=
  match w.op with
  | .opEq => same w.type w.boundType x w.bound
  | .opNe => !same w.type w.boundType x w.bound

/-- `x += update`. -/
def WhileLoop.advance (w : WhileLoop) (x : ℤ) : ℤ := w.type.wrap (x + w.update)

/-- A run of the loop executes the body with these values and ends. -/
def WhileLoop.Executes (w : WhileLoop) (vs : List ℤ) : Prop :=
  Leaves (indexRound (fun acc x => acc ++ [x]) w.condition w.advance) ([], w.init) vs

/-! ## At compile time -/

def i64 : Ty := ⟨true, 64, by decide⟩

/-- Source: `iterable.h` `ComptimeIterator`, of a range. -/
structure ComptimeIterator where
  stop : ℤ
  step : ℤ

/-- The bounds are truncated, and the step of the range is not looked at. Source: `iterable.c`
`newComptimeIterator`, `getRangeStart`, `getRangeEnd`. -/
def newComptimeIterator (r : Range) : ComptimeIterator × ℤ :=
  (⟨i64.wrap r.stop, if r.down then -1 else 1⟩, i64.wrap r.start)

/-- Source: `iterable.c` `comptimeIteratorHasNext`. -/
def ComptimeIterator.hasNext (it : ComptimeIterator) (current : ℤ) : Bool :=
  if 0 < it.step then decide (current < it.stop) else decide (it.stop < current)

/-- What is next after a value. Source: `iterable.c` `comptimeIteratorNext`. -/
def ComptimeIterator.next (it : ComptimeIterator) (current : ℤ) : ℤ := i64.wrap (current + it.step)

/-- An integer as the step is an error. Source: `eval.c` `evalRangeExpr`. -/
def evalRangeExpr (r : Range) : Bool := r.step.isNone

/-- A compile-time `for` over the range is accepted and goes over these values. Source: `eval/for.c`
`evalForStmtWithIterator`. -/
def ComptimeFor (r : Range) (vs : List ℤ) : Prop :=
  evalRangeExpr r = true ∧
    Leaves (indexRound (fun acc x => acc ++ [x]) (newComptimeIterator r).1.hasNext
      (newComptimeIterator r).1.next) ([], (newComptimeIterator r).2) vs

/-! ## What the loops are for -/

/-- `v` lies before `e`: below it for a positive step, above it for a negative one. -/
def Before (d v e : ℤ) : Prop := (0 < d ∧ v < e) ∨ (d < 0 ∧ e < v)

/-- As many of the values lie before the end. -/
def Count (s e d : ℤ) (n : ℕ) : Prop := ∀ j : ℕ, Before d (s + j * d) e ↔ j < n

/-- The values that lie before the end, in their order. -/
def Progression (s e d : ℤ) (vs : List ℤ) : Prop :=
  ∃ n : ℕ, Count s e d n ∧ vs = (List.range n).map fun j : ℕ => s + j * d

/-- The loop executes its body with the values of the range, and ends. -/
def Right (r : Range) : Prop :=
  ∃ vs, Progression r.start r.stop (r.step.getD 1) vs ∧ (simplifyForRangeStmt r).Executes vs

/-- The loop at compile time goes over the same values. -/
def Agrees (r : Range) : Prop := ∃ vs, ComptimeFor r vs ∧ (simplifyForRangeStmt r).Executes vs

/-- The first value that does not lie before the end is the end, up to a multiple of how many
numbers the variable can hold. If the end itself is not among those (a negative end of an unsigned
variable), the variable is not smaller than `int`, and no value before the end is a number it does
not have or the one that the end stands for. -/
def Lands (t : Ty) (s e d : ℤ) : Prop :=
  ∃ n : ℕ, Count s e d n ∧ (2 * (t.half : ℤ)) ∣ s + n * d - e ∧
    (t.Has e ∨ 32 ≤ t.bits ∧ ∀ j < n, t.Has (s + j * d) ∧ s + j * d ≠ e + 2 * t.half)

/-! ## What the loop executes -/

theorem iterate_advance (r : Range) (j : ℕ) :
    Nat.iterate (simplifyForRangeStmt r).advance j r.start =
      r.type.wrap (r.start + j * r.step.getD 1) := by
  induction j with
  | zero =>
      rw [Nat.cast_zero, zero_mul, add_zero, Ty.wrap_of_has r.start_has]
      rfl
  | succ j ih =>
      rw [Function.iterate_succ_apply', ih]
      change r.type.wrap (r.type.wrap _ + r.step.getD 1) = _
      rw [Ty.wrap_add_wrap, add_assoc, Nat.cast_succ, add_one_mul]

theorem executes_iff (r : Range) (vs : List ℤ) : (simplifyForRangeStmt r).Executes vs ↔
    ∃ n : ℕ, (∀ j < n, same r.type r.endType
      (r.type.wrap (r.start + j * r.step.getD 1)) r.stop = false) ∧
      same r.type r.endType (r.type.wrap (r.start + n * r.step.getD 1)) r.stop = true ∧
      vs = (List.range n).map fun j : ℕ => r.type.wrap (r.start + j * r.step.getD 1) := by
  have hcond : ∀ x, (simplifyForRangeStmt r).condition x = !same r.type r.endType x r.stop :=
    fun x => rfl
  have hindices : ∀ n, indices (simplifyForRangeStmt r).advance r.start n =
      (List.range n).map fun j : ℕ => r.type.wrap (r.start + j * r.step.getD 1) :=
    fun n => List.map_congr_left fun j _ => iterate_advance r j
  unfold WhileLoop.Executes
  rw [collect_leaves_iff]
  change (∃ n, (∀ j < n, (simplifyForRangeStmt r).condition
    (Nat.iterate (simplifyForRangeStmt r).advance j r.start) = true) ∧
      (simplifyForRangeStmt r).condition
      (Nat.iterate (simplifyForRangeStmt r).advance n r.start) = false ∧
      vs = indices (simplifyForRangeStmt r).advance r.start n) ↔ _
  simp only [hcond, iterate_advance, hindices, Bool.not_eq_true', Bool.not_eq_false']

/-- The loop is right if it does not wrap around or end before the end, and ends there. Kind: L -/
theorem right_iff_steps (r : Range) : Right r ↔ ∃ n : ℕ, Count r.start r.stop (r.step.getD 1) n ∧
    (∀ j < n, r.type.Has (r.start + j * r.step.getD 1) ∧
      same r.type r.endType (r.start + j * r.step.getD 1) r.stop = false) ∧
    same r.type r.endType (r.type.wrap (r.start + n * r.step.getD 1)) r.stop = true := by
  unfold Right
  simp only [executes_iff]
  constructor
  · rintro ⟨vs, ⟨n, hcount, rfl⟩, m, hon, hoff, heq⟩
    have hlen : n = m := by
      have hlength := congrArg List.length heq
      rwa [List.length_map, List.length_map, List.length_range, List.length_range] at hlength
    subst hlen
    have hwrap : ∀ j < n, r.type.wrap (r.start + j * r.step.getD 1) =
      r.start + j * r.step.getD 1 := by
      intro j hj
      exact (List.map_inj_left.mp heq j (List.mem_range.mpr hj)).symm
    refine ⟨n, hcount, ?_, hoff⟩
    intro j hj
    refine ⟨?_, ?_⟩
    · rw [← hwrap j hj]
      exact Ty.has_wrap _ _
    · rw [← hwrap j hj]
      exact hon j hj
  · rintro ⟨n, hcount, hsteps, hoff⟩
    have hwrap : ∀ j < n, r.type.wrap (r.start + j * r.step.getD 1) = r.start + j * r.step.getD 1 :=
      fun j hj => Ty.wrap_of_has (hsteps j hj).1
    refine ⟨_, ⟨n, hcount, rfl⟩, n, ?_, hoff, ?_⟩
    · intro j hj
      rw [hwrap j hj]
      exact (hsteps j hj).2
    · exact List.map_congr_left fun j hj => (hwrap j (List.mem_range.mp hj)).symm

/-! ## Where it lands -/

/-- Values before an end of the type are numbers of the type. Kind: L -/
theorem has_of_before {t : Ty} {s e d : ℤ} (hs : t.Has s) (he : t.Has e) {j : ℕ}
    (h : Before d (s + j * d) e) : t.Has (s + j * d) := by
  have hbetween : (s ≤ s + j * d ∧ s + j * d ≤ e) ∨ (e ≤ s + j * d ∧ s + j * d ≤ s) := by
    rcases h with ⟨hd, hlt⟩ | ⟨hd, hlt⟩
    · have hnonneg : 0 ≤ (j : ℤ) * d := mul_nonneg (Int.natCast_nonneg j) hd.le
      omega
    · have hnonpos : (j : ℤ) * d ≤ 0 := mul_nonpos_of_nonneg_of_nonpos (Int.natCast_nonneg j) hd.le
      omega
  cases ht : t.signed with
  | false =>
      rw [Ty.has_unsigned ht] at hs he ⊢
      omega
  | true =>
      rw [Ty.has_signed ht] at hs he ⊢
      omega

theorem ne_of_before {d v e : ℤ} (h : Before d v e) : v ≠ e := by
  rcases h with ⟨-, hlt⟩ | ⟨-, hlt⟩
  · omega
  · omega

/-- **The loop executes its body with the values of the range, and ends, if and only if it lands.**
Kind: P -/
theorem right_iff (r : Range) : Right r ↔ Lands r.type r.start r.stop (r.step.getD 1) := by
  rw [right_iff_steps]
  unfold Lands
  refine exists_congr fun n => and_congr_right fun hcount => ?_
  have hwrap := Ty.has_wrap r.type (r.start + n * r.step.getD 1)
  have hend := same_iff r.assignable hwrap r.stop_has
  have hsame := fun j (hj : r.type.Has (r.start + j * r.step.getD 1)) =>
    same_iff r.assignable hj r.stop_has
  by_cases hhas : r.type.Has r.stop
  · simp only [if_pos hhas] at hend hsame
    rw [hend, and_iff_left (Or.inl hhas)]
    have hdvd : r.type.wrap (r.start + n * r.step.getD 1) = r.stop ↔
        (2 * (r.type.half : ℤ)) ∣ r.start + n * r.step.getD 1 - r.stop := by
      rw [← Ty.wrap_eq_wrap_iff, Ty.wrap_of_has hhas]
    rw [hdvd]
    apply and_iff_right
    intro j hj
    have hbefore := (hcount j).mpr hj
    have hin := has_of_before r.start_has hhas hbefore
    refine ⟨hin, ?_⟩
    rw [← Bool.not_eq_true, hsame j hin]
    exact ne_of_before hbefore
  · simp only [if_neg hhas] at hend hsame
    have hshift : r.type.wrap (r.start + n * r.step.getD 1) = r.stop + 2 * r.type.half ↔
        (2 * (r.type.half : ℤ)) ∣ r.start + n * r.step.getD 1 - r.stop := by
      obtain ⟨hs, hneg, hlow⟩ := negative_of_not_has r.assignable r.stop_has hhas
      have hin : r.type.Has (r.stop + 2 * r.type.half) := by
        rw [Ty.has_unsigned hs]
        omega
      rw [← Ty.wrap_eq_wrap_iff, ← Ty.wrap_of_has hin]
      have heq : r.type.wrap (r.stop + 2 * r.type.half) = r.type.wrap r.stop := by
        rw [Ty.wrap_eq_wrap_iff]
        exact ⟨1, by omega⟩
      rw [heq]
    rw [hend, hshift]
    constructor
    · rintro ⟨hsteps, hlarge, hdvd⟩
      refine ⟨hdvd, Or.inr ⟨hlarge, fun j hj => ?_⟩⟩
      obtain ⟨hin, hne⟩ := hsteps j hj
      refine ⟨hin, fun heq => ?_⟩
      rw [← Bool.not_eq_true, hsame j hin] at hne
      exact hne ⟨hlarge, heq⟩
    · rintro ⟨hdvd, hnot | ⟨hlarge, hsteps⟩⟩
      · exact absurd hnot hhas
      · refine ⟨fun j hj => ?_, hlarge, hdvd⟩
        obtain ⟨hin, hne⟩ := hsteps j hj
        refine ⟨hin, ?_⟩
        rw [← Bool.not_eq_true, hsame j hin]
        exact fun hand => hne hand.2

theorem eq_of_dvd {m x : ℤ} (h : m ∣ x) (hlow : -m < x) (hhigh : x < m) : x = 0 := by
  have hm : 0 < m := by omega
  obtain ⟨k, rfl⟩ := h
  have hk : k = 0 := by
    by_contra hne
    rcases lt_or_gt_of_ne hne with hneg | hpos
    · have := Int.mul_le_mul_of_nonneg_left (show k ≤ -1 by omega) hm.le
      omega
    · have := Int.mul_le_mul_of_nonneg_left (show 1 ≤ k by omega) hm.le
      omega
  rw [hk, mul_zero]

/-- Two numbers of a type that differ by a multiple of how many there are. Kind: L -/
theorem eq_of_dvd_sub {t : Ty} {x y : ℤ} (hx : t.Has x) (hy : t.Has y)
    (h : (2 * (t.half : ℤ)) ∣ x - y) : x = y := by
  have hwrap := Ty.wrap_eq_wrap_iff.mpr h
  rwa [Ty.wrap_of_has hx, Ty.wrap_of_has hy] at hwrap

/-! ## The loop at compile time -/

theorem count_one {s e : ℤ} {n : ℕ} : Count s e 1 n ↔ (n : ℤ) = max 0 (e - s) := by
  unfold Count Before
  constructor
  · intro h
    have hn := h n
    have hpred := h (n - 1)
    omega
  · intro h j
    omega

/-- Without a step, the iterator comes by the values of the truncated range. Kind: L -/
theorem comptimeFor_iff (r : Range) (vs : List ℤ) : ComptimeFor r vs ↔
    r.step = none ∧ Progression (i64.wrap r.start) (i64.wrap r.stop) 1 vs := by
  unfold ComptimeFor evalRangeExpr
  rw [Option.isNone_iff_eq_none]
  refine and_congr_right fun hstep => ?_
  have hdown : r.down = false := by
    rw [← Bool.not_eq_true]
    intro h
    have hsome := r.down_step h
    rw [hstep] at hsome
    exact Bool.false_ne_true hsome
  have hit : newComptimeIterator r = (⟨i64.wrap r.stop, 1⟩, i64.wrap r.start) := by
    unfold newComptimeIterator
    rw [hdown]
    rfl
  have hs := i64.has_wrap r.start
  have he := i64.has_wrap r.stop
  rw [hit]
  dsimp only
  generalize i64.wrap r.start = s at hs ⊢
  generalize i64.wrap r.stop = e at he ⊢
  have hnext : ∀ j, Nat.iterate (ComptimeIterator.next ⟨e, 1⟩) j s = i64.wrap (s + j) := by
    intro j
    induction j with
    | zero => rw [Nat.cast_zero, add_zero, Ty.wrap_of_has hs]; rfl
    | succ j ih =>
        rw [Function.iterate_succ_apply', ih]
        change i64.wrap (i64.wrap _ + 1) = _
        rw [Ty.wrap_add_wrap, add_assoc, Nat.cast_succ]
  have hmore : ∀ x, ComptimeIterator.hasNext ⟨e, 1⟩ x = decide (x < e) :=
    fun x => if_pos Int.zero_lt_one
  rw [Ty.has_signed rfl] at hs he
  -- up to the end, nothing wraps around
  have hwrap : ∀ n : ℕ, s + n ≤ max s e → i64.wrap (s + n) = s + n := by
    intro n hn
    apply Ty.wrap_of_has
    rw [Ty.has_signed rfl]
    omega
  rw [collect_leaves_iff]
  simp only [hmore, hnext, decide_eq_true_iff, decide_eq_false_iff_not]
  unfold Progression
  have hindices : ∀ n : ℕ, s + n ≤ max s e → indices (ComptimeIterator.next ⟨e, 1⟩) s n =
      (List.range n).map fun j : ℕ => s + j * 1 := by
    intro n hn
    refine List.map_congr_left fun j hj => ?_
    rw [List.mem_range] at hj
    rw [hnext, hwrap j (by omega), mul_one]
  have hreach : ∀ n : ℕ, (∀ j < n, i64.wrap (s + (j : ℕ)) < e) → s + n ≤ max s e := by
    intro n hn
    induction n with
    | zero => omega
    | succ n ih =>
        have hprev := ih fun j hj => hn j (Nat.lt_succ_of_lt hj)
        have hlast := hn n (Nat.lt_succ_self n)
        rw [hwrap n hprev] at hlast
        omega
  refine exists_congr fun n => ?_
  rw [count_one]
  constructor
  · rintro ⟨hon, hoff, rfl⟩
    have hle := hreach n hon
    rw [hwrap n hle] at hoff
    refine ⟨?_, hindices n hle⟩
    obtain _ | m := n
    · omega
    · have hlast := hon m (Nat.lt_succ_self m)
      rw [hwrap m (by omega)] at hlast
      omega
  · rintro ⟨hn, rfl⟩
    have hle : s + n ≤ max s e := by omega
    refine ⟨fun j hj => ?_, ?_, (hindices n hle).symm⟩
    · rw [hwrap j (by omega)]
      omega
    · rw [hwrap n hle]
      omega

/-- Truncated, an end that is passed at the start stays so if the loop lands. Kind: L -/
theorem truncated_le {t u : Ty} {s e : ℤ} (h : Assignable t u) (hs : t.Has s) (he : u.Has e)
    (hlands : Lands t s e 1) (hle : e ≤ s) : i64.wrap e ≤ i64.wrap s := by
  obtain ⟨n, hcount, hdvd, hend⟩ := hlands
  have hn : n = 0 := by
    have := count_one.mp hcount
    omega
  subst hn
  rw [Nat.cast_zero, zero_mul, add_zero] at hdvd
  by_cases hhas : t.Has e
  · rw [eq_of_dvd_sub hs hhas hdvd]
  · obtain ⟨hsign, hneg, hlow⟩ := negative_of_not_has h he hhas
    rw [Ty.has_unsigned hsign] at hs
    have hshift : s - e - 2 * (t.half : ℤ) = 0 :=
      eq_of_dvd (Int.dvd_sub hdvd (Int.dvd_refl _)) (by omega) (by omega)
    rcases Nat.lt_or_ge t.bits 64 with hsmall | hlarge
    · have hroom : 2 * t.half ≤ i64.half := Ty.two_half_le hsmall
      rw [Ty.wrap_of_has, Ty.wrap_of_has]
      · exact hle
      · rw [Ty.has_signed rfl]
        omega
      · rw [Ty.has_signed rfl]
        omega
    · have hmultiple : 2 * (i64.half : ℤ) ∣ 2 * (t.half : ℤ) := by
        have hpow : 2 * i64.half ∣ 2 * t.half := by
          rw [Ty.two_half, Ty.two_half]
          exact Nat.pow_dvd_pow 2 hlarge
        exact_mod_cast hpow
      apply le_of_eq
      rw [Ty.wrap_eq_wrap_iff, ← Int.dvd_neg, neg_sub]
      exact hmultiple.trans hdvd

theorem agrees_iff {r : Range} (h : Right r) : Agrees r ↔
    r.step = none ∧ (r.start < r.stop → i64.Has r.start ∧ i64.Has r.stop) := by
  have hlands := (right_iff r).mp h
  obtain ⟨vs, hprog, hexec⟩ := h
  have hagrees : Agrees r ↔ ComptimeFor r vs := by
    constructor
    · rintro ⟨vs', hcomptime, hexec'⟩
      rwa [leaves_unique hexec hexec']
    · exact fun hcomptime => ⟨vs, hcomptime, hexec⟩
  rw [hagrees, comptimeFor_iff]
  refine and_congr_right fun hstep => ?_
  rw [hstep] at hprog hlands
  obtain ⟨n, hcount, rfl⟩ := hprog
  have hn := count_one.mp hcount
  constructor
  · rintro ⟨m, hm, heq⟩ hlt
    have hmn : n = m := by
      have hlength := congrArg List.length heq
      rwa [List.length_map, List.length_map, List.length_range, List.length_range] at hlength
    subst hmn
    have hfirst := List.map_inj_left.mp heq 0 (List.mem_range.mpr (by omega))
    rw [Nat.cast_zero, zero_mul, add_zero, zero_mul, add_zero] at hfirst
    have hm := count_one.mp hm
    have hstop : r.stop = i64.wrap r.stop := by omega
    rw [hfirst, hstop]
    exact ⟨Ty.has_wrap _ _, Ty.has_wrap _ _⟩
  · intro hhas
    by_cases hlt : r.start < r.stop
    · obtain ⟨hs, he⟩ := hhas hlt
      rw [Ty.wrap_of_has hs, Ty.wrap_of_has he]
      exact ⟨n, hcount, rfl⟩
    · have hle := truncated_le r.assignable r.start_has r.stop_has hlands (not_lt.mp hlt)
      have hzero : n = 0 := by omega
      subst hzero
      exact ⟨0, count_one.mpr (by omega), rfl⟩

/-- **The loop goes over its range if and only if it lands, and over the same values as the loop at
compile time if moreover the range has no step** and its bounds, if any value lies between them, are
of the type `i64`. Kind: P -/
theorem range_loops_iff (r : Range) :
    (Right r ↔ Lands r.type r.start r.stop (r.step.getD 1)) ∧
      (Right r ∧ Agrees r ↔ Lands r.type r.start r.stop (r.step.getD 1) ∧ r.step = none ∧
        (r.start < r.stop → i64.Has r.start ∧ i64.Has r.stop)) := by
  refine ⟨right_iff r, ?_⟩
  rw [← right_iff]
  exact and_congr_right fun h => agrees_iff h

/-- `range(0, 5, 2)` of `i32`. -/
def overshooting : Range :=
  ⟨int, 0, int, 5, some 2, false, by decide, by decide, by decide,
    fun _ => rfl⟩

/-- `5..3` of `i32`. -/
def passed : Range :=
  ⟨int, 5, int, 3, none, false, by decide, by decide, by decide,
    fun h => absurd h Bool.false_ne_true⟩

/-- The loop over the first one does not end, and that over the second one executes its body
although the end is passed at the start. Kind: P -/
theorem loops_wrong : (¬ ∃ vs, (simplifyForRangeStmt overshooting).Executes vs) ∧
    ¬ (simplifyForRangeStmt passed).Executes [] ∧ ¬ Right passed := by
  have hpassed : ¬ (simplifyForRangeStmt passed).Executes [] := by
    rw [executes_iff]
    rintro ⟨_ | n, -, hoff, hvs⟩
    · exact absurd hoff (by decide)
    · exact absurd (congrArg List.length hvs) (by simp)
  refine ⟨?_, hpassed, ?_⟩
  · rintro ⟨vs, hexec⟩
    obtain ⟨n, -, hoff, -⟩ := (executes_iff overshooting vs).mp hexec
    rw [same_iff overshooting.assignable (Ty.has_wrap _ _) overshooting.stop_has,
      if_pos (show overshooting.type.Has overshooting.stop by decide)] at hoff
    -- what is added up is even, and so is what it is wrapped around by
    have hdvd := Ty.wrap_eq_wrap_iff.mp (Ty.wrap_of_has (Ty.has_wrap overshooting.type
      (overshooting.start + n * overshooting.step.getD 1)))
    rw [hoff] at hdvd
    have hhalf : (overshooting.type.half : ℤ) = 2147483648 := by decide
    rw [hhalf] at hdvd
    change 2 * 2147483648 ∣ (5 : ℤ) - (0 + n * 2) at hdvd
    omega
  · rintro ⟨vs, ⟨n, hcount, rfl⟩, hexec⟩
    have hn : n = 0 := by
      have hzero := (hcount 0).mpr
      unfold Before at hzero
      by_contra hne
      have hbefore := hzero (Nat.pos_of_ne_zero hne)
      change (0 < (1 : ℤ) ∧ (5 : ℤ) + (0 : ℕ) * 1 < 3) ∨ ((1 : ℤ) < 0 ∧ _) at hbefore
      omega
    subst hn
    exact hpassed hexec

end CxyCompiler.Middle.ForRange
