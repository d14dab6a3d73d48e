import Mathlib.Data.List.Basic
import Mathlib.Data.UInt
import Mathlib.Algebra.BigOperators.Group.List.Basic

/-!
# Overload resolution (`lang/middle/sema/function.c`)

The declarations of one name form a chain. The search goes through it with the number of arguments,
the best score so far and the declaration that has it; it ends at the first declaration whose
parameters are the argument types themselves.

The relations between types that the search asks for are parameters, in the order it asks for them.

* `matchOverloadedFunctionPerfectMatch` — the search.
* `Applicable`, `score` — when a declaration can be called with the arguments and how well it fits.
* `Resolves` — the result is an applicable declaration of maximal score, an exact one if there is
  one.
* `Independent` — a declaration of the chain is found applicable whatever comes before it.
* `Unshortened` — how the declarations stand to the arguments that the variadic ones before them
  leave.
* `resolves_iff` — **both hold exactly where the chain is unshortened**.
-/

namespace CxyCompiler.Middle.Overload

/-- The relations between types. Source: `types.c`, `struct.c`. -/
structure Conversions (T : Type) where
  resolveAndUnThisType : T → T
  isTypeAssignableFrom : T → T → Bool
  isReferenceType : T → Bool
  stripReference : T → T
  isExplicitConstructableFrom : T → T → Bool

/-- Source: `types.h` `Type.func`. -/
structure FuncType (T : Type) where
  params : List T
  defaultValuesCount : ℕ

/-- Source: `flag.h` `flgVariadic`. -/
def flgVariadic : UInt64 := 0x80

/-- A declaration of the chain. The parameters of a variadic one end with that of the further
arguments, which has no default value. Source: `ast.h` `AstNode`. -/
structure Decl (T : Type) where
  type : Option (FuncType T)
  isMemberFunction : Bool
  flags : UInt64
  counts : ∀ ty, type = some ty →
    ty.defaultValuesCount + (flags &&& flgVariadic != 0).toNat ≤ ty.params.length

/-- Source: `ast.h` `hasFlag`. -/
def Decl.isVariadic {T : Type} (d : Decl T) : Bool := d.flags &&& flgVariadic != 0

/-- What the search keeps from one declaration to the next. -/
structure Search (T : Type) where
  argsCount : ℕ
  matchScore : ℕ
  found : Option (Decl T)

/-- A declaration ends the search or leaves it in a new state. -/
inductive Outcome (T : Type) where
  | perfect (d : Decl T)
  | next (s : Search T)

section

variable {T : Type} [DecidableEq T] (conv : Conversions T) (perfectMatch : Bool)
  (argTypes : List T) (flags : UInt64)

/-- What an argument takes off the score, in the order the conversions are tried. -/
def cost (param arg : T) : Option ℕ :=
  let paramType := conv.resolveAndUnThisType param
  let argType := conv.resolveAndUnThisType arg
  if paramType = argType then some 0
  else if perfectMatch then none
  else if conv.isTypeAssignableFrom paramType argType then some 1
  else if conv.isReferenceType paramType && !conv.isReferenceType argType &&
      conv.isTypeAssignableFrom (conv.stripReference paramType) argType then some 1
  else if conv.isExplicitConstructableFrom paramType argType then some 2
  else none

/-- The loop over the arguments. -/
def matchArgs : List (T × T) → ℕ → Option ℕ
  | [], score => some score
  | (param, arg) :: rest, score =>
      match cost conv perfectMatch param arg with
      | some k => matchArgs rest (score - k)
      | none => none

/-- The parameters that a call has to give. -/
def requiredCount (d : Decl T) (ty : FuncType T) : ℕ :=
  ty.params.length - ty.defaultValuesCount - d.isVariadic.toNat

/-- The number of arguments of a variadic declaration is cut to its fixed parameters. -/
def adjustedCount (d : Decl T) (ty : FuncType T) (argsCount : ℕ) : ℕ :=
  if d.isVariadic then min argsCount (ty.params.length - d.isVariadic.toNat) else argsCount

/-- The score of a declaration for a number of arguments. -/
def test (d : Decl T) (ty : FuncType T) (argsCount : ℕ) : Option ℕ :=
  if argsCount < requiredCount d ty || argsCount > ty.params.length then none
  else matchArgs conv perfectMatch ((ty.params.zip argTypes).take argsCount) (argTypes.length * 4)

/-- A member function must have the flags. -/
def isSkipped (d : Decl T) : Bool := d.isMemberFunction && d.flags &&& flags != flags

/-- The body of the loop over the declarations. -/
def visit (s : Search T) (d : Decl T) : Outcome T :=
  match d.type with
  | none => .next s
  | some ty =>
      if isSkipped flags d then .next s
      else
        let argsCount := adjustedCount d ty s.argsCount
        match test conv perfectMatch argTypes d ty argsCount with
        | none => .next { s with argsCount }
        | some score =>
            if score = argTypes.length * 4 then .perfect d
            else if score ≥ s.matchScore then .next ⟨argsCount, score, some d⟩
            else .next { s with argsCount }

/-- The loop over the declarations. -/
def scan : List (Decl T) → Search T → Outcome T
  | [], s => .next s
  | d :: ds, s =>
      match visit conv perfectMatch argTypes flags s d with
      | .perfect d => .perfect d
      | .next s => scan ds s

/-- The declaration whose type is returned.
Source: `function.c` `matchOverloadedFunctionPerfectMatch`. -/
def matchOverloadedFunctionPerfectMatch (chain : List (Decl T)) : Option (Decl T) :=
  match scan conv perfectMatch argTypes flags chain ⟨argTypes.length, 0, none⟩ with
  | .perfect d => some d
  | .next s => s.found

/-! ## What is asked of the result -/

/-- The arguments with their fixed parameters. -/
def fixedPairs (d : Decl T) (ty : FuncType T) : List (T × T) :=
  (ty.params.take (ty.params.length - d.isVariadic.toNat)).zip argTypes

/-- The number of arguments is between the required and the total number of parameters. -/
def countFits (d : Decl T) (ty : FuncType T) : Bool :=
  requiredCount d ty ≤ argTypes.length &&
    (d.isVariadic || argTypes.length ≤ ty.params.length)

/-- **A declaration can be called with the arguments.** -/
def Applicable (d : Decl T) : Prop :=
  ∃ ty, d.type = some ty ∧ isSkipped flags d = false ∧ countFits argTypes d ty = true ∧
    ∀ x ∈ fixedPairs argTypes d ty, (cost conv perfectMatch x.1 x.2).isSome = true

/-- Every argument takes its cost off the score. -/
def score (d : Decl T) : ℕ :=
  match d.type with
  | none => 0
  | some ty => argTypes.length * 4 -
      ((fixedPairs argTypes d ty).map fun x => (cost conv perfectMatch x.1 x.2).getD 0).sum

/-- The fixed parameters are the types of the arguments. -/
def isExact (d : Decl T) : Bool :=
  match d.type with
  | none => false
  | some ty => !isSkipped flags d && countFits argTypes d ty &&
      (fixedPairs argTypes d ty).all fun x =>
        conv.resolveAndUnThisType x.1 = conv.resolveAndUnThisType x.2

/-- **What is asked of the result.** -/
def Resolves (chain : List (Decl T)) : Prop :=
  match matchOverloadedFunctionPerfectMatch conv perfectMatch argTypes flags chain with
  | none => ∀ d ∈ chain, ¬ Applicable conv perfectMatch argTypes flags d
  | some d => d ∈ chain ∧ Applicable conv perfectMatch argTypes flags d ∧
      (∀ e ∈ chain, Applicable conv perfectMatch argTypes flags e →
        score conv perfectMatch argTypes e ≤ score conv perfectMatch argTypes d) ∧
      ((∃ e ∈ chain, isExact conv argTypes flags e = true) → isExact conv argTypes flags d = true)

/-- The score that the search gives a declaration when it holds `argsCount` arguments. -/
def verdict (d : Decl T) (argsCount : ℕ) : Option ℕ :=
  match d.type with
  | none => none
  | some ty =>
      if isSkipped flags d then none
      else test conv perfectMatch argTypes d ty (adjustedCount d ty argsCount)

/-- **Whether a declaration is found applicable does not depend on those before it**: where the
search reaches it, it is found applicable or not as it is alone. -/
def Independent (chain : List (Decl T)) : Prop :=
  ∀ pre d post s, chain = pre ++ d :: post →
    scan conv perfectMatch argTypes flags pre ⟨argTypes.length, 0, none⟩ = .next s →
    (verdict conv perfectMatch argTypes flags d s.argsCount).isSome =
      (verdict conv perfectMatch argTypes flags d argTypes.length).isSome

/-! ## The arguments that are left -/

/-- A variadic declaration leaves no more arguments than it has fixed parameters. -/
def countAfter (d : Decl T) (argsCount : ℕ) : ℕ :=
  match d.type with
  | none => argsCount
  | some ty => if isSkipped flags d then argsCount else adjustedCount d ty argsCount

/-- The parameters of the first `n` arguments. -/
def firstPairs (d : Decl T) (ty : FuncType T) (n : ℕ) : List (T × T) :=
  (ty.params.zip argTypes).take (adjustedCount d ty n)

/-- The declaration takes the first `n` arguments. -/
def Takes (d : Decl T) (n : ℕ) : Prop :=
  ∃ ty, d.type = some ty ∧ isSkipped flags d = false ∧ requiredCount d ty ≤ adjustedCount d ty n ∧
    adjustedCount d ty n ≤ ty.params.length ∧
    ∀ x ∈ firstPairs argTypes d ty n, (cost conv perfectMatch x.1 x.2).isSome = true

/-- The first `n` arguments take their costs off the score. -/
def firstScore (d : Decl T) (n : ℕ) : ℕ :=
  match d.type with
  | none => 0
  | some ty => argTypes.length * 4 -
      ((firstPairs argTypes d ty n).map fun x => (cost conv perfectMatch x.1 x.2).getD 0).sum

/-- The declarations that are reached, each with the number of arguments that those before it leave;
the last one is the first that takes its arguments at no cost. -/
def places : List (Decl T) → ℕ → List (Decl T × ℕ)
  | [], _ => []
  | d :: ds, n =>
      (d, n) ::
        if verdict conv perfectMatch argTypes flags d n = some (argTypes.length * 4) then []
        else places ds (countAfter flags d n)

/-- **The variadic declarations of the chain do no harm**: at its place a declaration takes the
arguments that are left if and only if it is applicable, and one that is not of maximal score is
beaten with what is left at the places, by an earlier one of a higher score or a later one of no
less. -/
structure Unshortened (chain : List (Decl T)) : Prop where
  takes : ∀ x ∈ places conv perfectMatch argTypes flags chain argTypes.length,
    Takes conv perfectMatch argTypes flags x.1 x.2 ↔ Applicable conv perfectMatch argTypes flags x.1
  beaten : ∀ pre x post,
    places conv perfectMatch argTypes flags chain argTypes.length = pre ++ x :: post →
    Takes conv perfectMatch argTypes flags x.1 x.2 →
    (∃ e ∈ chain, Applicable conv perfectMatch argTypes flags e ∧
      score conv perfectMatch argTypes x.1 < score conv perfectMatch argTypes e) →
    (∃ y ∈ pre, Takes conv perfectMatch argTypes flags y.1 y.2 ∧
      firstScore conv perfectMatch argTypes x.1 x.2 <
        firstScore conv perfectMatch argTypes y.1 y.2) ∨
    ∃ y ∈ post, Takes conv perfectMatch argTypes flags y.1 y.2 ∧
      firstScore conv perfectMatch argTypes x.1 x.2 ≤ firstScore conv perfectMatch argTypes y.1 y.2

/-! ## One declaration -/

variable {conv perfectMatch argTypes flags} {d : Decl T} {ty : FuncType T}

/-- The loop over the arguments takes the sum of the costs off the score. Kind: L -/
theorem matchArgs_eq_some {r : ℕ} (pairs : List (T × T)) :
    ∀ start, matchArgs conv perfectMatch pairs start = some r ↔
      (∀ x ∈ pairs, (cost conv perfectMatch x.1 x.2).isSome = true) ∧
        r = start - (pairs.map fun x => (cost conv perfectMatch x.1 x.2).getD 0).sum := by
  induction pairs with
  | nil =>
      intro start
      simp only [matchArgs, Option.some.injEq, List.not_mem_nil, List.map_nil, List.sum_nil]
      simpa using eq_comm
  | cons x pairs ih =>
      intro start
      obtain ⟨param, arg⟩ := x
      unfold matchArgs
      cases hcost : cost conv perfectMatch param arg with
      | none => simp [hcost]
      | some k =>
          dsimp only
          rw [ih]
          simp [hcost, Nat.sub_sub]

omit [DecidableEq T] in
theorem isVariadic_le (htype : d.type = some ty) :
    ty.defaultValuesCount + d.isVariadic.toNat ≤ ty.params.length := d.counts ty htype

theorem zip_take_left {α β : Type} (l₁ : List α) :
    ∀ (l₂ : List β) (n : ℕ), (l₁.take n).zip l₂ = (l₁.zip l₂).take n := by
  induction l₁ with
  | nil => intro l₂ n; simp
  | cons a l₁ ih =>
      intro l₂ n
      cases n with
      | zero => simp
      | succ n =>
          cases l₂ with
          | nil => simp
          | cons b l₂ => simp [ih]

omit [DecidableEq T] in
/-- The search tests the fixed parameters, and its bounds are those of the call. Kind: L -/
theorem adjustedCount_fits (argTypes : List T) (htype : d.type = some ty) :
    (adjustedCount d ty argTypes.length < requiredCount d ty ||
        adjustedCount d ty argTypes.length > ty.params.length) = !countFits argTypes d ty ∧
      (countFits argTypes d ty = true →
        (ty.params.zip argTypes).take (adjustedCount d ty argTypes.length) =
          fixedPairs argTypes d ty) := by
  have hle := isVariadic_le htype
  unfold adjustedCount countFits fixedPairs requiredCount
  cases hvar : d.isVariadic with
  | true =>
      rw [hvar] at hle
      simp only [Bool.toNat_true] at hle
      simp only [if_true, Bool.toNat_true, Bool.true_or, Bool.and_true]
      constructor
      · rw [← decide_not]
        apply Bool.eq_iff_iff.mpr
        simp only [Bool.or_eq_true, decide_eq_true_eq]
        omega
      · intro _
        rw [zip_take_left, ← List.take_take, List.take_of_length_le]
        rw [List.length_take, List.length_zip]
        omega
  | false =>
      simp only [Bool.false_eq_true, if_false, Bool.toNat_false, Nat.sub_zero, Bool.false_or]
      constructor
      · rw [← Bool.decide_and, ← decide_not]
        apply Bool.eq_iff_iff.mpr
        simp only [Bool.or_eq_true, decide_eq_true_eq]
        omega
      · intro hfits
        rw [Bool.and_eq_true, decide_eq_true_eq, decide_eq_true_eq] at hfits
        rw [List.take_length, List.take_of_length_le]
        rw [List.length_zip]
        omega

/-- **A declaration gets its score for the arguments that are left if it takes them.** Kind: L -/
theorem verdict_takes {n r : ℕ} : verdict conv perfectMatch argTypes flags d n = some r ↔
    Takes conv perfectMatch argTypes flags d n ∧ r = firstScore conv perfectMatch argTypes d n := by
  unfold verdict Takes firstScore
  cases htype : d.type with
  | none => simp
  | some ty =>
      simp only [Option.some.injEq, exists_eq_left']
      cases hskip : isSkipped flags d with
      | true => simp
      | false =>
          simp only [Bool.false_eq_true, if_false, true_and, test]
          by_cases hcount : requiredCount d ty ≤ adjustedCount d ty n ∧
              adjustedCount d ty n ≤ ty.params.length
          · have hin : (adjustedCount d ty n < requiredCount d ty ||
                adjustedCount d ty n > ty.params.length) = false := by
              simp only [Bool.or_eq_false_iff, decide_eq_false_iff_not]
              omega
            simp only [hin, Bool.false_eq_true, if_false, hcount, true_and]
            exact matchArgs_eq_some _ _
          · have hout : (adjustedCount d ty n < requiredCount d ty ||
                adjustedCount d ty n > ty.params.length) = true := by
              simp only [Bool.or_eq_true, decide_eq_true_iff]
              omega
            simp only [hout, if_true, reduceCtorEq, false_iff]
            exact fun h => hcount ⟨h.1.1, h.1.2.1⟩

/-- Alone, a declaration takes the arguments of the call if it is applicable. Kind: L -/
theorem takes_iff : Takes conv perfectMatch argTypes flags d argTypes.length ↔
    Applicable conv perfectMatch argTypes flags d := by
  unfold Takes Applicable
  refine exists_congr fun ty => and_congr_right fun htype => and_congr_right fun _ => ?_
  obtain ⟨hcount, hpairs⟩ := adjustedCount_fits argTypes htype
  rw [← and_assoc]
  have hfits : (requiredCount d ty ≤ adjustedCount d ty argTypes.length ∧
      adjustedCount d ty argTypes.length ≤ ty.params.length) ↔ countFits argTypes d ty = true := by
    rw [← Bool.not_eq_false', ← hcount]
    simp only [Bool.or_eq_false_iff, decide_eq_false_iff_not]
    omega
  rw [hfits]
  refine and_congr_right fun h => ?_
  rw [firstPairs, hpairs h]

theorem firstScore_eq (h : Applicable conv perfectMatch argTypes flags d) :
    firstScore conv perfectMatch argTypes d argTypes.length =
      score conv perfectMatch argTypes d := by
  obtain ⟨ty, htype, -, hfits, -⟩ := h
  obtain ⟨-, hpairs⟩ := adjustedCount_fits argTypes htype
  simp only [firstScore, score, htype, firstPairs, hpairs hfits]

/-- **Alone, a declaration gets its score if it is applicable.** Kind: L -/
theorem verdict_eq_some {r : ℕ} :
    verdict conv perfectMatch argTypes flags d argTypes.length = some r ↔
      Applicable conv perfectMatch argTypes flags d ∧ r = score conv perfectMatch argTypes d := by
  rw [verdict_takes, takes_iff]
  exact and_congr_right fun h => by rw [firstScore_eq h]

theorem cost_eq_zero (perfectMatch : Bool)
    {param arg : T} : cost conv perfectMatch param arg = some 0 ↔
    conv.resolveAndUnThisType param = conv.resolveAndUnThisType arg := by
  unfold cost
  dsimp only
  split_ifs with h <;> simp [h]

/-- A sum of costs is zero only if every argument has the type of its parameter. Kind: L -/
theorem sum_cost_eq_zero (pairs : List (T × T))
    (hsome : ∀ x ∈ pairs, (cost conv perfectMatch x.1 x.2).isSome = true) :
    (pairs.map fun x => (cost conv perfectMatch x.1 x.2).getD 0).sum = 0 ↔
      ∀ x ∈ pairs, conv.resolveAndUnThisType x.1 = conv.resolveAndUnThisType x.2 := by
  rw [List.sum_eq_zero_iff_forall_eq_nat]
  simp only [List.mem_map, forall_exists_index, and_imp, forall_apply_eq_imp_iff₂]
  apply forall₂_congr
  intro x hx
  obtain ⟨k, hk⟩ := Option.isSome_iff_exists.mp (hsome x hx)
  rw [← cost_eq_zero perfectMatch, hk, Option.getD_some, Option.some.injEq]

/-- An exact match is a declaration of the highest score. Kind: L -/
theorem isExact_iff (perfectMatch : Bool) : isExact conv argTypes flags d = true ↔
    verdict conv perfectMatch argTypes flags d argTypes.length = some (argTypes.length * 4) := by
  rw [verdict_eq_some]
  unfold isExact Applicable score
  cases htype : d.type with
  | none => simp
  | some ty =>
      simp only [Option.some.injEq, exists_eq_left', Bool.and_eq_true, Bool.not_eq_true',
        List.all_eq_true, decide_eq_true_eq]
      have hmax : (fixedPairs argTypes d ty) ≠ [] → 0 < argTypes.length := by
        intro hne
        have := List.length_pos_iff.mpr hne
        rw [fixedPairs, List.length_zip] at this
        omega
      constructor
      · rintro ⟨⟨hskip, hfits⟩, hsame⟩
        have hsome : ∀ x ∈ fixedPairs argTypes d ty,
            (cost conv perfectMatch x.1 x.2).isSome = true := by
          intro x hx
          rw [(cost_eq_zero perfectMatch).mpr (hsame x hx)]
          rfl
        refine ⟨⟨hskip, hfits, hsome⟩, ?_⟩
        rw [(sum_cost_eq_zero _ hsome).mpr hsame, Nat.sub_zero]
      · rintro ⟨⟨hskip, hfits, hsome⟩, hscore⟩
        refine ⟨⟨hskip, hfits⟩, ?_⟩
        by_cases hne : fixedPairs argTypes d ty = []
        · simp [hne]
        · have hpos := hmax hne
          exact (sum_cost_eq_zero _ hsome).mp (by omega)

theorem firstScore_le (n : ℕ) : firstScore conv perfectMatch argTypes d n ≤
    argTypes.length * 4 := by
  unfold firstScore
  split
  · exact Nat.zero_le _
  · exact Nat.sub_le _ _

/-! ## The search -/

/-- A declaration changes the search by its verdict and the number of arguments. Kind: L -/
theorem visit_eq (s : Search T) : visit conv perfectMatch argTypes flags s d =
    match verdict conv perfectMatch argTypes flags d s.argsCount with
    | none => .next { s with argsCount := countAfter flags d s.argsCount }
    | some r =>
        if r = argTypes.length * 4 then .perfect d
        else if r ≥ s.matchScore then .next ⟨countAfter flags d s.argsCount, r, some d⟩
        else .next { s with argsCount := countAfter flags d s.argsCount } := by
  unfold visit verdict countAfter
  cases htype : d.type with
  | none => rfl
  | some ty =>
      dsimp only
      cases hskip : isSkipped flags d with
      | true => rfl
      | false =>
          simp only [Bool.false_eq_true, if_false]

variable (conv perfectMatch argTypes flags d) in
/-- What a declaration does to the search. Kind: L -/
theorem visit_cases (s : Search T) :
    (verdict conv perfectMatch argTypes flags d s.argsCount = some (argTypes.length * 4) ∧
      visit conv perfectMatch argTypes flags s d = .perfect d) ∨
    ∃ s', visit conv perfectMatch argTypes flags s d = .next s' ∧
      verdict conv perfectMatch argTypes flags d s.argsCount ≠ some (argTypes.length * 4) ∧
      s'.argsCount = countAfter flags d s.argsCount ∧
      ((s'.found = s.found ∧ s'.matchScore = s.matchScore ∧ ∀ r,
          verdict conv perfectMatch argTypes flags d s.argsCount = some r → r < s.matchScore) ∨
        (s'.found = some d ∧ s.matchScore ≤ s'.matchScore ∧
          verdict conv perfectMatch argTypes flags d s.argsCount = some s'.matchScore)) := by
  rw [visit_eq]
  cases hv : verdict conv perfectMatch argTypes flags d s.argsCount with
  | none => exact .inr ⟨_, rfl, by simp, rfl, .inl ⟨rfl, rfl, by simp⟩⟩
  | some r =>
      dsimp only
      split_ifs with hperfect hge
      · exact .inl ⟨by rw [hperfect], rfl⟩
      · exact .inr ⟨_, rfl, by simpa using hperfect, rfl, .inr ⟨rfl, hge, rfl⟩⟩
      · refine .inr ⟨_, rfl, by simpa using hperfect, rfl, .inl ⟨rfl, rfl, fun r' hr' => ?_⟩⟩
        rw [← Option.some.inj hr']
        exact Nat.lt_of_not_ge hge

/-- **The places are those that the search reaches**, with the number of arguments it has there.
Kind: L -/
theorem mem_places {n : ℕ} (ds : List (Decl T)) :
    ∀ s : Search T, (d, n) ∈ places conv perfectMatch argTypes flags ds s.argsCount ↔
      ∃ pre post s', ds = pre ++ d :: post ∧
        scan conv perfectMatch argTypes flags pre s = .next s' ∧ s'.argsCount = n := by
  induction ds with
  | nil => intro s; simp [places]
  | cons e ds ih =>
      intro s
      rw [places, List.mem_cons, Prod.mk.injEq]
      constructor
      · rintro (⟨rfl, rfl⟩ | h)
        · exact ⟨[], ds, s, rfl, rfl, rfl⟩
        · obtain ⟨hv, -⟩ | ⟨s₁, hvisit, hv, hcount, -⟩ :=
            visit_cases conv perfectMatch argTypes flags e s
          · simp [hv] at h
          · rw [if_neg hv, ← hcount, ih] at h
            obtain ⟨pre, post, s', rfl, hscan, hn⟩ := h
            refine ⟨e :: pre, post, s', rfl, ?_, hn⟩
            rw [scan, hvisit]
            exact hscan
      · rintro ⟨pre, post, s', hds, hscan, hn⟩
        cases pre with
        | nil =>
            obtain ⟨rfl, -⟩ := List.cons.inj hds
            obtain rfl : s = s' := Outcome.next.inj hscan
            exact .inl ⟨rfl, hn.symm⟩
        | cons e' pre =>
            obtain ⟨rfl, rfl⟩ := List.cons.inj hds
            rw [scan] at hscan
            obtain ⟨-, hvisit⟩ | ⟨s₁, hvisit, hv, hcount, -⟩ :=
              visit_cases conv perfectMatch argTypes flags e s
            · simp [hvisit] at hscan
            · rw [hvisit] at hscan
              rw [if_neg hv, ← hcount, ih]
              exact .inr ⟨pre, post, s', rfl, hscan, hn⟩

/-- **The place that wins**: none before it has a higher score, and none behind it as high a one. -/
def Wins (conv : Conversions T) (perfectMatch : Bool) (argTypes : List T) (flags : UInt64)
    (done : List (Decl T × ℕ)) (d : Decl T) (r : ℕ) : Prop :=
  ∃ pre n post, done = pre ++ (d, n) :: post ∧
    verdict conv perfectMatch argTypes flags d n = some r ∧
    (∀ y ∈ pre, ∀ r', verdict conv perfectMatch argTypes flags y.1 y.2 = some r' → r' ≤ r) ∧
    ∀ y ∈ post, ∀ r', verdict conv perfectMatch argTypes flags y.1 y.2 = some r' → r' < r

/-- What the search keeps of the places it has been to. -/
structure Kept (conv : Conversions T) (perfectMatch : Bool) (argTypes : List T) (flags : UInt64)
    (done : List (Decl T × ℕ)) (s : Search T) : Prop where
  empty : s.found = none → s.matchScore = 0 ∧
    ∀ y ∈ done, verdict conv perfectMatch argTypes flags y.1 y.2 = none
  wins : ∀ d, s.found = some d → Wins conv perfectMatch argTypes flags done d s.matchScore

/-- No place has a higher score than the search has kept. Kind: L -/
theorem Kept.le {done : List (Decl T × ℕ)} {s : Search T}
    (h : Kept conv perfectMatch argTypes flags done s) :
    ∀ y ∈ done, ∀ r, verdict conv perfectMatch argTypes flags y.1 y.2 = some r →
      r ≤ s.matchScore := by
  intro y hy r hr
  cases hf : s.found with
  | none => simp [(h.empty hf).2 y hy] at hr
  | some d =>
      obtain ⟨pre, n, post, rfl, hv, hpre, hpost⟩ := h.wins d hf
      rcases List.mem_append.mp hy with hy | hy
      · exact hpre y hy r hr
      · rcases List.mem_cons.mp hy with rfl | hy
        · exact (Option.some.inj (hv.symm.trans hr)).ge
        · exact (hpost y hy r hr).le

/-- The last place wins if no place before it has a higher score. Kind: L -/
theorem wins_last {done : List (Decl T × ℕ)} {n r : ℕ}
    (hv : verdict conv perfectMatch argTypes flags d n = some r)
    (hle : ∀ y ∈ done, ∀ r', verdict conv perfectMatch argTypes flags y.1 y.2 = some r' → r' ≤ r) :
    Wins conv perfectMatch argTypes flags (done ++ [(d, n)]) d r :=
  ⟨done, n, [], rfl, hv, hle, by simp⟩

/-- One more place. Kind: L -/
theorem Kept.visit {done : List (Decl T × ℕ)} {s s' : Search T}
    (h : Kept conv perfectMatch argTypes flags done s)
    (hkept : (s'.found = s.found ∧ s'.matchScore = s.matchScore ∧ ∀ r,
        verdict conv perfectMatch argTypes flags d s.argsCount = some r → r < s.matchScore) ∨
      (s'.found = some d ∧ s.matchScore ≤ s'.matchScore ∧
        verdict conv perfectMatch argTypes flags d s.argsCount = some s'.matchScore)) :
    Kept conv perfectMatch argTypes flags (done ++ [(d, s.argsCount)]) s' := by
  obtain ⟨hfound, hscore, hless⟩ | ⟨hfound, hscore, hv⟩ := hkept
  · constructor
    · intro hf
      rw [hfound] at hf
      rw [hscore]
      refine ⟨(h.empty hf).1, fun y hy => ?_⟩
      rcases List.mem_append.mp hy with hy | hy
      · exact (h.empty hf).2 y hy
      · rw [List.mem_singleton.mp hy]
        refine Option.eq_none_iff_forall_ne_some.mpr fun r hr => ?_
        have := hless r hr
        rw [(h.empty hf).1] at this
        exact absurd this (Nat.not_lt_zero r)
    · intro e he
      rw [hfound] at he
      rw [hscore]
      obtain ⟨pre, n, post, rfl, hv, hpre, hpost⟩ := h.wins e he
      refine ⟨pre, n, post ++ [(d, s.argsCount)], by simp, hv, hpre, fun y hy r hr => ?_⟩
      rcases List.mem_append.mp hy with hy | hy
      · exact hpost y hy r hr
      · rw [List.mem_singleton.mp hy] at hr
        exact hless r hr
  · constructor
    · intro hf
      simp [hfound] at hf
    · intro e he
      obtain rfl : d = e := Option.some.inj (hfound.symm.trans he)
      exact wins_last hv fun y hy r hr => (h.le y hy r hr).trans hscore

/-- The result of a search. -/
def Outcome.result : Outcome T → Option (Decl T)
  | .perfect d => some d
  | .next s => s.found

/-- **The search finds the place that wins**, and nothing only if no place takes its arguments.
Kind: L -/
theorem scan_wins (ds : List (Decl T)) :
    ∀ (done : List (Decl T × ℕ)) (s : Search T), Kept conv perfectMatch argTypes flags done s →
      match (scan conv perfectMatch argTypes flags ds s).result with
      | none => ∀ y ∈ done ++ places conv perfectMatch argTypes flags ds s.argsCount,
          verdict conv perfectMatch argTypes flags y.1 y.2 = none
      | some d => ∃ r, Wins conv perfectMatch argTypes flags
          (done ++ places conv perfectMatch argTypes flags ds s.argsCount) d r := by
  induction ds with
  | nil =>
      intro done s h
      rw [places, List.append_nil]
      cases hf : s.found with
      | none => simpa only [scan, Outcome.result, hf] using (h.empty hf).2
      | some d => simpa only [scan, Outcome.result, hf] using ⟨_, h.wins d hf⟩
  | cons d ds ih =>
      intro done s h
      obtain ⟨hv, hvisit⟩ | ⟨s', hvisit, hv, hcount, hkept⟩ :=
        visit_cases conv perfectMatch argTypes flags d s
      · simp only [scan, hvisit, Outcome.result, places, hv, if_true]
        refine ⟨_, wins_last hv fun y _ r hr => ?_⟩
        rw [(verdict_takes.mp hr).2]
        exact firstScore_le _
      · simp only [scan, hvisit, places, if_neg hv, ← hcount]
        rw [List.append_cons]
        exact ih _ s' (h.visit hkept)

/-- Only one place wins. Kind: L -/
theorem Wins.unique {done pre post : List (Decl T × ℕ)} {x : Decl T × ℕ} {e : Decl T} {r r' : ℕ}
    (h : Wins conv perfectMatch argTypes flags done e r') (hdone : done = pre ++ x :: post)
    (hv : verdict conv perfectMatch argTypes flags x.1 x.2 = some r)
    (hpre : ∀ y ∈ pre, ∀ s, verdict conv perfectMatch argTypes flags y.1 y.2 = some s → s ≤ r)
    (hpost : ∀ y ∈ post, ∀ s, verdict conv perfectMatch argTypes flags y.1 y.2 = some s → s < r) :
    e = x.1 := by
  obtain ⟨pre', n, post', hdone', hv', hpre', hpost'⟩ := h
  rw [hdone] at hdone'
  rcases List.append_eq_append_iff.mp hdone' with ⟨mid, hmid, hrest⟩ | ⟨mid, hmid, hrest⟩
  · cases mid with
    | nil => exact (congrArg Prod.fst (List.cons.inj hrest).1).symm
    | cons z mid =>
        -- the place is before the one that wins
        obtain ⟨rfl, htail⟩ := List.cons.inj hrest
        have hle := hpre' x (hmid ▸ List.mem_append_right _ List.mem_cons_self) r hv
        have hlt := hpost (e, n) (htail ▸ List.mem_append_right _ List.mem_cons_self) r' hv'
        omega
  · cases mid with
    | nil => exact congrArg Prod.fst (List.cons.inj hrest).1
    | cons z mid =>
        obtain ⟨rfl, htail⟩ := List.cons.inj hrest
        have hle := hpre (e, n) (hmid ▸ List.mem_append_right _ List.mem_cons_self) r' hv'
        have hlt := hpost' x (htail ▸ List.mem_append_right _ List.mem_cons_self) r hv
        omega

/-- What `Resolves` asks of a result. -/
def IsBest (conv : Conversions T) (perfectMatch : Bool) (argTypes : List T) (flags : UInt64)
    (chain : List (Decl T)) : Option (Decl T) → Prop
  | none => ∀ d ∈ chain, ¬ Applicable conv perfectMatch argTypes flags d
  | some d => d ∈ chain ∧ Applicable conv perfectMatch argTypes flags d ∧
      (∀ e ∈ chain, Applicable conv perfectMatch argTypes flags e →
        score conv perfectMatch argTypes e ≤ score conv perfectMatch argTypes d) ∧
      ((∃ e ∈ chain, isExact conv argTypes flags e = true) → isExact conv argTypes flags d = true)

theorem resolves_iff_isBest (chain : List (Decl T)) :
    Resolves conv perfectMatch argTypes flags chain ↔ IsBest conv perfectMatch argTypes flags chain
      (scan conv perfectMatch argTypes flags chain ⟨argTypes.length, 0, none⟩).result := by
  unfold Resolves matchOverloadedFunctionPerfectMatch
  cases scan conv perfectMatch argTypes flags chain ⟨argTypes.length, 0, none⟩ with
  | perfect d => rfl
  | next s => cases s.found <;> rfl

/-- A declaration of maximal score is exact if there is an exact one. Kind: L -/
theorem isExact_of_max {e : Decl T} (hexact : isExact conv argTypes flags e = true)
    (happ : Applicable conv perfectMatch argTypes flags d)
    (hmax : Applicable conv perfectMatch argTypes flags e →
      score conv perfectMatch argTypes e ≤ score conv perfectMatch argTypes d) :
    isExact conv argTypes flags d = true := by
  obtain ⟨happe, hscore⟩ := verdict_eq_some.mp ((isExact_iff perfectMatch).mp hexact)
  refine (isExact_iff perfectMatch).mpr (verdict_eq_some.mpr ⟨happ, ?_⟩)
  have hle := hmax happe
  have hbound : firstScore conv perfectMatch argTypes d argTypes.length ≤ _ := firstScore_le _
  rw [firstScore_eq happ] at hbound
  omega

theorem mem_of_mem_places {n : ℕ} {chain : List (Decl T)}
    (h : (d, n) ∈ places conv perfectMatch argTypes flags chain argTypes.length) : d ∈ chain := by
  obtain ⟨pre, post, -, rfl, -, -⟩ := (mem_places chain ⟨argTypes.length, 0, none⟩).mp h
  simp

/-- A declaration is passed over only behind one that takes its arguments at no cost. Kind: L -/
theorem mem_places_or (ds : List (Decl T)) :
    ∀ n, (∀ d ∈ ds, ∃ k, (d, k) ∈ places conv perfectMatch argTypes flags ds n) ∨
      ∃ x ∈ places conv perfectMatch argTypes flags ds n,
        verdict conv perfectMatch argTypes flags x.1 x.2 = some (argTypes.length * 4) := by
  induction ds with
  | nil => intro n; exact .inl (by simp)
  | cons d ds ih =>
      intro n
      rw [places]
      by_cases hv : verdict conv perfectMatch argTypes flags d n = some (argTypes.length * 4)
      · exact .inr ⟨(d, n), List.mem_cons_self, hv⟩
      · rw [if_neg hv]
        rcases ih (countAfter flags d n) with hall | ⟨x, hx, hxv⟩
        · refine .inl fun e he => ?_
          rcases List.mem_cons.mp he with rfl | he
          · exact ⟨n, List.mem_cons_self⟩
          · obtain ⟨k, hk⟩ := hall e he
            exact ⟨k, List.mem_cons_of_mem _ hk⟩
        · exact .inr ⟨x, List.mem_cons_of_mem _ hx, hxv⟩

section chain

variable {chain : List (Decl T)}

theorem independent_iff : Independent conv perfectMatch argTypes flags chain ↔
    ∀ x ∈ places conv perfectMatch argTypes flags chain argTypes.length,
      (Takes conv perfectMatch argTypes flags x.1 x.2 ↔
        Applicable conv perfectMatch argTypes flags x.1) := by
  have hsome : ∀ (d : Decl T) (n : ℕ),
    (verdict conv perfectMatch argTypes flags d n).isSome = true ↔
      Takes conv perfectMatch argTypes flags d n := by
    intro d n
    rw [Option.isSome_iff_exists]
    simp only [verdict_takes, exists_and_left, exists_eq, and_true]
  constructor
  · rintro h ⟨d, n⟩ hx
    obtain ⟨pre, post, s, hchain, hscan, rfl⟩ := (mem_places chain ⟨argTypes.length, 0, none⟩).mp hx
    have hsame := h pre d post s hchain hscan
    rw [← hsome, ← takes_iff, ← hsome, hsame]
  · intro h pre d post s hchain hscan
    have hx := h (d, s.argsCount)
      ((mem_places chain ⟨argTypes.length, 0, none⟩).mpr ⟨pre, post, s, hchain, hscan, rfl⟩)
    rw [← hsome, ← takes_iff, ← hsome] at hx
    exact Bool.eq_iff_iff.mpr hx

variable (conv perfectMatch argTypes flags) in
/-- The search has been to no place when it begins. Kind: L -/
theorem kept_nil : Kept conv perfectMatch argTypes flags [] ⟨argTypes.length, 0, none⟩ :=
  ⟨fun _ => ⟨rfl, by simp⟩, by simp⟩

/-- Where the declarations take the arguments that are left as they take all, a place that is not of
maximal score wins unless it is beaten. Kind: L -/
theorem beaten_of_resolves (htakes : ∀ x ∈ places conv perfectMatch argTypes flags chain
    argTypes.length,
      (Takes conv perfectMatch argTypes flags x.1 x.2 ↔
        Applicable conv perfectMatch argTypes flags x.1))
    (hres : Resolves conv perfectMatch argTypes flags chain) :
    Unshortened conv perfectMatch argTypes flags chain := by
  refine ⟨htakes, fun pre x post hplaces hx ⟨e, he, happ, hlt⟩ => ?_⟩
  by_contra hnot
  simp only [not_or, not_exists, not_and, not_lt, not_le] at hnot
  have hv := verdict_takes.mpr ⟨hx, rfl⟩
  have hscan := scan_wins chain [] _ (kept_nil conv perfectMatch argTypes flags)
  rw [resolves_iff_isBest] at hres
  rw [List.nil_append] at hscan
  cases hr : (scan conv perfectMatch argTypes flags chain ⟨argTypes.length, 0, none⟩).result with
  | none =>
      rw [hr] at hscan
      rw [hscan x (by rw [hplaces]; simp)] at hv
      cases hv
  | some d =>
      rw [hr] at hscan hres
      obtain ⟨r, hwins⟩ := hscan
      have hd : d = x.1 := by
        refine hwins.unique hplaces hv ?_ ?_
        · intro y hy s hs
          obtain ⟨hty, rfl⟩ := verdict_takes.mp hs
          exact hnot.1 y hy hty
        · intro y hy s hs
          obtain ⟨hty, rfl⟩ := verdict_takes.mp hs
          exact hnot.2 y hy hty
      obtain ⟨-, -, hmax, -⟩ := hres
      have := hmax e he happ
      rw [hd] at this
      omega

theorem Unshortened.resolves (h : Unshortened conv perfectMatch argTypes flags chain) :
    Resolves conv perfectMatch argTypes flags chain := by
  have hscan := scan_wins chain [] _ (kept_nil conv perfectMatch argTypes flags)
  rw [resolves_iff_isBest]
  rw [List.nil_append] at hscan
  cases hr : (scan conv perfectMatch argTypes flags chain ⟨argTypes.length, 0, none⟩).result with
  | none =>
      rw [hr] at hscan
      intro d hd happ
      rcases mem_places_or chain argTypes.length with hall | ⟨x, hx, hxv⟩
      · obtain ⟨k, hk⟩ := hall d hd
        have hv := verdict_takes.mpr ⟨(h.takes _ hk).mpr happ, rfl⟩
        simp [hscan _ hk] at hv
      · simp [hscan x hx] at hxv
  | some d =>
      rw [hr] at hscan
      obtain ⟨r, pre, n, post, hplaces, hv, hpre, hpost⟩ := hscan
      obtain ⟨htakes, rfl⟩ := verdict_takes.mp hv
      have hmem : (d, n) ∈ places conv perfectMatch argTypes flags chain argTypes.length := by
        rw [hplaces]
        simp
      have happ := (h.takes _ hmem).mp htakes
      have hmax : ∀ e ∈ chain, Applicable conv perfectMatch argTypes flags e →
          score conv perfectMatch argTypes e ≤ score conv perfectMatch argTypes d := by
        intro e he happe
        by_contra hlt
        rcases h.beaten pre (d, n) post hplaces htakes ⟨e, he, happe, Nat.lt_of_not_ge hlt⟩ with
          ⟨y, hy, hty, hless⟩ | ⟨y, hy, hty, hless⟩
        · exact absurd (hpre y hy _ (verdict_takes.mpr ⟨hty, rfl⟩)) (Nat.not_le_of_gt hless)
        · exact absurd (hpost y hy _ (verdict_takes.mpr ⟨hty, rfl⟩)) (Nat.not_lt_of_ge hless)
      exact ⟨mem_of_mem_places hmem, happ, hmax,
        fun ⟨e, he, hexact⟩ => isExact_of_max hexact happ (hmax e he)⟩

end chain

end

/-- Types that convert only to themselves. -/
def noConversions : Conversions ℕ where
  resolveAndUnThisType := id
  isTypeAssignableFrom := fun _ _ => false
  isReferenceType := fun _ => false
  stripReference := id
  isExplicitConstructableFrom := fun _ _ => false

/-- A variadic function with one fixed parameter. -/
def variadicDecl : Decl ℕ where
  type := some ⟨[7, 0], 0⟩
  isMemberFunction := false
  flags := flgVariadic
  counts := by
    intro ty hty
    obtain rfl := Option.some.inj hty
    decide

/-- A declaration whose parameters are the types of the arguments. -/
def exactDecl (argTypes : List ℕ) : Decl ℕ where
  type := some ⟨argTypes, 0⟩
  isMemberFunction := false
  flags := 0
  counts := by
    intro ty hty
    obtain rfl := Option.some.inj hty
    simp

end CxyCompiler.Middle.Overload
