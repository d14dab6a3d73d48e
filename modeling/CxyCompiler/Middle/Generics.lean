import Mathlib.Data.List.Basic

/-!
# Inference of type arguments (`middle/shake/shake.c`, `middle/sema/generics.c`)

`shakeGenericDecl` notes for every type parameter of a function from which argument it can be
inferred; `resolveGenericDecl` takes what a call leaves out from the types of its arguments. A name
is the number of its string in the pool, and the counts are not limited.

* `resolveGenericDecl` — the two passes, with the array of the types: an access outside of the array
  of the argument types, or of the types to fill, is a fault, and so is a second write.
* `source` — the parameter that a type is inferred from: the first one that is declared T, &T or ^T.
* `Infers` — what inference is for.
* `Clean` — the sources are passed, with arguments that suit them, the other parameters of a type
  agree with its source, and the types of the pack are left out as a whole.
* `infers_iff` — **inference does what it is for if and only if the call is clean**.
-/

namespace CxyCompiler.Middle.Generics

/-! ## Types and declarations -/

/-- Types of arguments. Source: `types.h` `Type`. -/
inductive Ty
  | reference (referred : Ty)
  | pointer (pointed : Ty)
  /-- A closure object with the given call operator. -/
  | closure (call : ℕ)
  /-- The pair of a context and a function that a closure is passed as. -/
  | funcParam (call : ℕ)
  | void
  | named (name : ℕ)
deriving DecidableEq

def Ty.isReference : Ty → Bool
  | .reference _ => true
  | _ => false

def Ty.isPointer : Ty → Bool
  | .pointer _ => true
  | _ => false

/-- The type of a parameter as it is written; a path has one element without arguments. Source:
`ast.h` `AstNode`. -/
inductive TypeExpr
  | path (name : ℕ)
  | reference (referred : TypeExpr)
  | pointer (pointed : TypeExpr)
  | other
deriving DecidableEq

namespace TypeExpr

def isInner : TypeExpr → Bool
  | .reference _ | .pointer _ => true
  | _ => false

def strip : TypeExpr → TypeExpr
  | .reference t | .pointer t => t
  | t => t

def isPath (name : ℕ) : TypeExpr → Bool
  | .path n => name = n
  | _ => false

/-- The type with `t` for the type parameter. -/
def apply (t : Ty) : TypeExpr → Ty
  | .path _ => t
  | .reference e => .reference (e.apply t)
  | .pointer e => .pointer (e.apply t)
  | .other => .void

end TypeExpr

structure FuncParam where
  type : TypeExpr
  hasDefault : Bool

/-- A generic function; `variadic` if a parameter `...args` follows. Without type parameters of its
own it is generic if it is variadic. -/
structure Decl where
  names : List ℕ
  params : List FuncParam
  variadic : Bool
  defaults_last : params.Pairwise fun p q => p.hasDefault = true → q.hasDefault = true

/-- Source: `shake.c` `shakeFuncDecl`. -/
def requiredParamsCount (d : Decl) : ℕ := (d.params.takeWhile fun p => !p.hasDefault).length

/-- The parameter of the pack counts. Source: `shake.c` `shakeFuncDecl`. -/
def paramsCount (d : Decl) : ℕ := d.params.length + if d.variadic then 1 else 0

/-! ## Where to infer from -/

/-- The number of the argument, from one on, or zero; and the flag, which is only ever set. Source:
`shake.c` `inferGenericParamFromFuncParam`. -/
def inferGenericParamFromFuncParam (gparam : ℕ) (type : TypeExpr) (index : ℕ)
    (innerType : Bool) : ℕ × Bool :=
  (if type.strip.isPath gparam then index + 1 else 0, innerType || type.isInner)

/-- The loop over the parameters of the function, up to the pack. Source: `shake.c`
`shakeGenericDecl`. -/
def inferFuncParams (gparam : ℕ) : List FuncParam → ℕ → Bool → ℕ × Bool
  | [], _, innerType => (0, innerType)
  | p :: ps, j, innerType =>
      let info := inferGenericParamFromFuncParam gparam p.type j innerType
      if info.1 ≠ 0 then info else inferFuncParams gparam ps (j + 1) info.2

/-- Where the type parameters that can be inferred begin, up to the last one. Source: `shake.c`
`shakeGenericDecl`. -/
def inferrableFrom : List (ℕ × Bool) → ℕ → Option ℕ → Option ℕ
  | [], _, index => index
  | info :: infos, i, index =>
      inferrableFrom infos (i + 1) (if info.1 = 0 then none else index.or (some i))

/-- Source: `ast.h` `genericParam`. -/
structure GenericParam where
  inferIndex : ℕ
  innerType : Bool
  variadic : Bool

/-- Source: `shake.c` `shakeGenericDecl`. -/
def noteInference (index : Option ℕ) : List (ℕ × Bool) → ℕ → List GenericParam
  | [], _ => []
  | info :: infos, i =>
      (if index.any (· ≤ i) then ⟨info.1, info.2, false⟩
        else ⟨0, false, false⟩) :: noteInference index infos (i + 1)

/-- `inferrable` is `none` where it is −1, which is above every index as a `u16`. Source: `ast.h`
`genericDecl`. -/
structure Generic where
  params : List GenericParam
  inferrable : Option ℕ

/-- Source: `shake.c` `shakeGenericDecl`. -/
def shakeGenericDecl (d : Decl) : Generic :=
  let infos := d.names.map fun name => inferFuncParams name d.params 0 false
  let index := inferrableFrom infos 0 none
  ⟨noteInference index infos 0, index⟩

/-- The types of the pack are a type parameter of their own. Source: `shake.c`
`transformVariadicFunction`. -/
def transformVariadicFunction (d : Decl) (g : Generic) : Generic :=
  if d.variadic then ⟨g.params ++ [⟨paramsCount d, false, true⟩], g.inferrable.or (some 0)⟩ else g

/-! ## Inference -/

inductive Fault
  /-- A read behind the types of the arguments. -/
  | read
  /-- A write outside of the types to fill. -/
  | bounds
  /-- A write to a type that is there already. -/
  | twice
deriving DecidableEq

/-- Source: `generics.c` `closureArgToClosureParamType`. -/
def passedType : Ty → Ty
  | .closure call => .funcParam call
  | t => t

/-- Source: `generics.c` `inferGenericFunctionTypes`. -/
def inferredType (innerType : Bool) : Ty → Ty
  | .closure call => .funcParam call
  | .reference u => if innerType then u else .reference u
  | .pointer u => if innerType then u else .pointer u
  | t => t

/-- `paramTypes[i] = t`; what is not filled yet is `none`. -/
def write (ts : List (Option Ty)) (i : ℕ) (t : Ty) : Except Fault (List (Option Ty)) :=
  match ts[i]? with
  | none => .error .bounds
  | some (some _) => .error .twice
  | some none => .ok (ts.set i (some t))

def fillVariadic : List Ty → ℕ → List (Option Ty) → Except Fault (List (Option Ty))
  | [], _, ts => .ok ts
  | a :: args, i, ts =>
      match write ts i (passedType a) with
      | .ok ts => fillVariadic args (i + 1) ts
      | .error e => .error e

/-- The loop over the type parameters that are left out. Source: `generics.c`
`inferGenericFunctionTypes`. -/
def inferParams (args : List Ty) : List GenericParam → ℕ → Bool → List (Option Ty) →
    Except Fault (Bool × List (Option Ty))
  | [], _, status, ts => .ok (status, ts)
  | p :: ps, index, status, ts =>
      if p.inferIndex = 0 then inferParams args ps (index + 1) false ts
      else if p.variadic then
        (if (args.drop (p.inferIndex - 1)).isEmpty then write ts index .void
          else fillVariadic (args.drop (p.inferIndex - 1)) index ts).map (status, ·)
      else
        match args[p.inferIndex - 1]? with
        | none => .error .read
        | some a =>
            match write ts index (inferredType p.innerType a) with
            | .ok ts => inferParams args ps (index + 1) status ts
            | .error e => .error e

/-- Source: `generics.c` `inferGenericFunctionTypes`. -/
def inferGenericFunctionTypes (d : Decl) (generic : Generic) (args : List Ty) (index : ℕ)
    (ts : List (Option Ty)) :
    Except Fault (Bool × List (Option Ty)) :=
  if args.length < requiredParamsCount d ∧ d.variadic = false then .ok (false, ts)
  else inferParams args (generic.params.drop index) index true ts

/-- What the pack takes beyond one type. Source: `generics.c`
`transformVariadicFunctionCallArgs`. -/
def variadicArgumentsCount (d : Decl) (args : List Ty) : ℕ :=
  if d.variadic then args.length - paramsCount d else 0

/-- The types for the type parameters, of which a call gives some; `none` if the call is rejected.
Source: `generics.c` `resolveGenericDecl`. -/
def resolveGenericDecl (d : Decl)
    (explicit args : List Ty) : Except Fault (Option (List (Option Ty))) :=
  let generic := transformVariadicFunction d (shakeGenericDecl d)
  if d.variadic = true ∧ args.length < requiredParamsCount d then .ok none
  else
    let count := generic.params.length + variadicArgumentsCount d args
    if count < explicit.length then .ok none
    else
      let ts := explicit.map some ++ List.replicate (count - explicit.length) none
      if explicit.length < count then
        if generic.inferrable.any (· ≤ explicit.length) then
          (inferGenericFunctionTypes d generic args explicit.length ts).map
            fun r => if r.1 then some r.2 else none
        else .ok none
      else .ok (some ts)

/-! ## What inference is for -/

/-- The parameter that a type parameter is inferred from. -/
def source (d : Decl) (name : ℕ) : Option ℕ := d.params.findIdx? fun p => p.type.strip.isPath name

def typesCount (d : Decl) (args : List Ty) : ℕ :=
  d.names.length + (if d.variadic then 1 else 0) + variadicArgumentsCount d args

/-- A call that passes what is required and leaves out some types. -/
structure Call (d : Decl) where
  explicit : List Ty
  args : List Ty
  enough : requiredParamsCount d ≤ args.length
  omits : explicit.length < typesCount d args

/-- The type for T in a parameter that is declared T, &T or ^T, from the type of its argument. -/
def Chooses (a t : Ty) : TypeExpr → Prop
  | .path _ => t = passedType a
  | .reference _ | .pointer _ => ∀ u, a = .reference u ∨ a = .pointer u → t = u
  | .other => True

/-- The argument has the type of the parameter, or the parameter refers to it. Kind: D -/
def Accepts (param arg : Ty) : Prop := param = arg ∨ param = .reference arg

/-- With `t` for the type parameter, every parameter that is declared T, &T or ^T accepts the
argument that is passed for it. Kind: D -/
def AcceptsAll (d : Decl) (args : List Ty) (name : ℕ) (t : Ty) : Prop :=
  ∀ (k : ℕ) (p : FuncParam) (a : Ty), d.params[k]? = some p → p.type.strip.isPath name = true →
    args[k]? = some a → Accepts (p.type.apply t) (passedType a)

/-- What inference is for: it stays within the arrays, fills every type, and the types it chooses
are those of the arguments and make the parameters accept them. Kind: D -/
structure Infers (d : Decl) (c : Call d) : Prop where
  safe : ∃ r, resolveGenericDecl d c.explicit c.args = .ok r
  filled : ∀ ts, resolveGenericDecl d c.explicit c.args = .ok (some ts) →
    ts.length = typesCount d c.args ∧ none ∉ ts
  chosen : ∀ ts, resolveGenericDecl d c.explicit c.args = .ok (some ts) →
    ∀ i name k p a, c.explicit.length ≤ i → d.names[i]? = some name → source d name = some k →
      d.params[k]? = some p → c.args[k]? = some a →
        ∃ t, ts[i]? = some (some t) ∧ Chooses a t p.type ∧ AcceptsAll d c.args name t
  pack : ∀ ts, resolveGenericDecl d c.explicit c.args = .ok (some ts) → d.variadic = true →
    c.explicit.length ≤ d.names.length →
      (∀ k a, c.args[d.params.length + k]? = some a → ts[d.names.length + k]? = some
        (some (passedType a))) ∧
        (c.args.length ≤ d.params.length → ts[d.names.length]? = some (some .void))

/-! ## The notes -/

variable {d : Decl} {name : ℕ} {args explicit xs : List Ty} {ts : List (Option Ty)}

/-- A name that no parameter has as its type stays without a place. Kind: L -/
theorem inferFuncParams_none {ps : List FuncParam}
    (h : ps.findIdx? (fun p => p.type.strip.isPath name) = none) :
    ∀ j inner, (inferFuncParams name ps j inner).1 = 0 := by
  induction ps with
  | nil => exact fun _ _ => rfl
  | cons p ps ih =>
    intro j inner
    rw [List.findIdx?_cons] at h
    split_ifs at h with hp
    rw [inferFuncParams, inferGenericParamFromFuncParam]
    dsimp only
    rw [if_neg hp, if_neg (by simp)]
    exact ih (Option.map_eq_none_iff.mp h) _ _

/-- The first parameter that has the name as its type is its place. Kind: L -/
theorem inferFuncParams_some {ps : List FuncParam} {k : ℕ}
    (h : ps.findIdx? (fun p => p.type.strip.isPath name) = some k) : ∀ j inner,
      inferFuncParams name ps j inner = (j + k + 1, inner || (ps.take (k + 1)).any fun p =>
        p.type.isInner) := by
  induction ps generalizing k with
  | nil => exact absurd h (by simp)
  | cons p ps ih =>
    intro j inner
    rw [List.findIdx?_cons] at h
    rw [inferFuncParams, inferGenericParamFromFuncParam]
    dsimp only
    split_ifs at h with hp
    · rw [← Option.some.inj h, if_pos hp, if_pos (by omega)]
      simp
    · obtain ⟨k', hk', rfl⟩ := Option.map_eq_some_iff.mp h
      rw [if_neg hp, if_neg (by simp), ih hk', List.take_succ_cons, List.any_cons, Bool.or_assoc]
      congr 1
      omega

/-- The notes for a type parameter. -/
def info (d : Decl) (name : ℕ) : ℕ × Bool := inferFuncParams name d.params 0 false

/-- No place is noted for a name if and only if there is none. Kind: L -/
theorem info_eq_zero_iff : (info d name).1 = 0 ↔ source d name = none := by
  constructor
  · intro h
    by_contra hsome
    obtain ⟨k, hk⟩ := Option.ne_none_iff_exists'.mp hsome
    unfold info at h
    rw [inferFuncParams_some hk] at h
    exact absurd h (by simp)
  · exact fun h => inferFuncParams_none h 0 false

/-- **The flag says whether any parameter up to the source is a reference or a pointer.** Kind: L -/
theorem info_of_source {k : ℕ} (h : source d name = some k) :
    info d name = (k + 1, (d.params.take (k + 1)).any fun p => p.type.isInner) := by
  unfold info
  rw [inferFuncParams_some h, Nat.zero_add, Bool.false_or]

/-- Behind the parameters that are written out, all others must have a place. Kind: L -/
theorem inferrableFrom_past {e : ℕ} : ∀ {infos : List (ℕ × Bool)} {i : ℕ}
    {index : Option ℕ}, e < i →
    ((inferrableFrom infos i index).any (· ≤ e) = true ↔
      (∀ x ∈ infos, x.1 ≠ 0) ∧ index.any (· ≤ e) = true) := by
  intro infos
  induction infos with
  | nil => intro i index _; simp [inferrableFrom]
  | cons x infos ih =>
    intro i index hi
    rw [inferrableFrom, ih (Nat.lt_succ_of_lt hi), List.forall_mem_cons]
    by_cases hx : x.1 = 0
    · simp [hx]
    · rw [if_neg hx]
      cases index with
      | none => simp [hi]
      | some k => simp [hx]

/-- **Inference is tried from `e` on if and only if there is a source for every type parameter from
there on.** Kind: L -/
theorem inferrableFrom_iff {e : ℕ} : ∀ {infos : List (ℕ × Bool)} {i : ℕ} {index : Option ℕ}, i ≤ e →
    e < i + infos.length → (∀ k, index = some k → k ≤ i) →
      ((inferrableFrom infos i index).any (· ≤ e) = true ↔ ∀ x ∈ infos.drop (e - i), x.1 ≠ 0) := by
  intro infos
  induction infos with
  | nil => intro i index hle hlt _; exact absurd hlt (by simpa using hle)
  | cons x infos ih =>
    intro i index hle hlt hindex
    rw [inferrableFrom]
    rcases Nat.eq_or_lt_of_le hle with rfl | hi
    · rw [inferrableFrom_past (Nat.lt_succ_self i), Nat.sub_self, List.drop_zero,
        List.forall_mem_cons, and_comm]
      refine and_congr_left fun _ => ?_
      by_cases hx : x.1 = 0
      · simp [hx]
      · rw [if_neg hx]
        cases index with
        | none => simp [hx]
        | some k => simp [hx, hindex k rfl]
    · have hdrop : e - i = e - (i + 1) + 1 := by omega
      rw [hdrop, List.drop_succ_cons]
      refine ih hi (by simpa [Nat.add_right_comm, Nat.add_assoc, Nat.add_comm 1] using hlt)
        fun k hk => ?_
      split_ifs at hk with hx
      cases index with
      | none => exact (Option.some.inj hk) ▸ Nat.le_succ i
      | some k' => exact (Option.some.inj hk) ▸ Nat.le_succ_of_le (hindex k' rfl)

/-- The index lies within the parameters. Kind: L -/
theorem inferrableFrom_lt : ∀ {infos : List (ℕ × Bool)} {i k : ℕ} {index : Option ℕ},
    (∀ k, index = some k → k ≤ i) → inferrableFrom infos i index = some k →
      k ≤ i + infos.length := by
  intro infos
  induction infos with
  | nil => intro i k index hindex h; exact hindex k h
  | cons x infos ih =>
    intro i k index hindex h
    rw [inferrableFrom] at h
    have hle := ih (i := i + 1) (fun k hk => ?_) h
    · rw [List.length_cons]
      omega
    · split_ifs at hk with hx
      cases index with
      | none => exact (Option.some.inj hk) ▸ Nat.le_succ i
      | some k' => exact (Option.some.inj hk) ▸ Nat.le_succ_of_le (hindex k' rfl)

theorem noteInference_length (index : Option ℕ) (infos : List (ℕ × Bool)) :
    ∀ i, (noteInference index infos i).length = infos.length := by
  induction infos with
  | nil => exact fun _ => rfl
  | cons x infos ih => exact fun i => congrArg (· + 1) (ih (i + 1))

/-- The notes behind the first ones are those of the later parameters. Kind: L -/
theorem noteInference_drop (index : Option ℕ) : ∀ (n : ℕ) (infos : List (ℕ × Bool)) (i : ℕ),
    (noteInference index infos i).drop n = noteInference index (infos.drop n) (i + n) := by
  intro n
  induction n with
  | zero => exact fun _ _ => rfl
  | succ n ih =>
    intro infos i
    cases infos with
    | nil => rfl
    | cons x infos =>
      rw [noteInference, List.drop_succ_cons, List.drop_succ_cons, ih infos (i + 1),
        Nat.add_assoc, Nat.add_comm 1]

/-- From the index on the places are noted as they are. Kind: L -/
theorem noteInference_inferrable {index : Option ℕ} : ∀ {infos : List (ℕ × Bool)} {i : ℕ},
    index.any (· ≤ i) = true → noteInference index infos i = infos.map fun x =>
      ⟨x.1, x.2, false⟩ := by
  intro infos
  induction infos with
  | nil => exact fun _ => rfl
  | cons x infos ih =>
    intro i h
    rw [noteInference, if_pos h, List.map_cons, ih]
    cases index with
    | none => exact absurd h Bool.false_ne_true
    | some k => exact decide_eq_true (Nat.le_succ_of_le (of_decide_eq_true h))

/-- Without an index no place is noted. Kind: L -/
theorem noteInference_none : ∀ {infos : List (ℕ × Bool)} {i : ℕ},
    ∀ p ∈ noteInference none infos i, p.inferIndex = 0 := by
  intro infos
  induction infos with
  | nil => exact fun p hp => absurd hp List.not_mem_nil
  | cons x infos ih =>
    intro i p hp
    rcases List.mem_cons.mp hp with rfl | hp
    · rfl
    · exact ih p hp

/-! ## The types -/

/-- `xs` filled in, and `n` types still to fill. -/
def partly (xs : List Ty) (n : ℕ) : List (Option Ty) := xs.map some ++ List.replicate n none

theorem partly_zero (xs : List Ty) : partly xs 0 = xs.map some := List.append_nil _

/-- The next type is written into the first free slot. Kind: L -/
theorem write_partly (xs : List Ty) (n : ℕ) (t : Ty) :
    write (partly xs (n + 1)) xs.length t = .ok (partly (xs ++ [t]) n) := by
  have hlen : (xs.map some).length = xs.length := List.length_map ..
  have hget : (partly xs (n + 1))[xs.length]? = some none := by
    rw [partly, List.getElem?_append_right (Nat.le_of_eq hlen), hlen, Nat.sub_self]
    rfl
  have hset : (partly xs (n + 1)).set xs.length (some t) = partly (xs ++ [t]) n := by
    rw [partly, List.set_append_right _ _ (Nat.le_of_eq hlen), hlen, Nat.sub_self,
      List.replicate_succ, List.set_cons_zero,
      partly, List.map_append, List.append_assoc]
    rfl
  rw [write, hget, ← hset]

/-- The types of the pack are written behind those that are there. Kind: L -/
theorem fillVariadic_partly (as : List Ty) : ∀ xs : List Ty,
    fillVariadic as xs.length (partly xs as.length) = .ok ((xs ++ as.map passedType).map some) := by
  induction as with
  | nil =>
    intro xs
    rw [List.map_nil, List.append_nil, fillVariadic, List.length_nil, partly_zero]
  | cons a as ih =>
    intro xs
    have hnext := ih (xs ++ [passedType a])
    rw [List.length_append, List.length_singleton, List.append_assoc] at hnext
    rw [fillVariadic, List.length_cons, write_partly]
    exact hnext

/-- The type that is inferred from the noted argument. -/
def chosenType (d : Decl) (args : List Ty) (name : ℕ) : Ty :=
  inferredType (info d name).2 ((args[(info d name).1 - 1]?).getD .void)

/-- The notes on type parameters that can all be inferred. -/
def notes (d : Decl) (names : List ℕ) : List GenericParam :=
  names.map fun name => ⟨(info d name).1, (info d name).2, false⟩

/-- **Where every place has an argument, the types are written in order.** Kind: L -/
theorem inferParams_notes {tail : List GenericParam} {n : ℕ} : ∀ {names : List ℕ} {xs : List Ty},
    (∀ name ∈ names, (info d name).1 ≠ 0) →
      (∀ name ∈ names, (args[(info d name).1 - 1]?).isSome = true) →
      inferParams args (notes d names ++ tail) xs.length true (partly xs (names.length + n)) =
        inferParams args tail (xs.length + names.length) true
          (partly (xs ++ names.map (chosenType d args)) n) := by
  intro names
  induction names with
  | nil =>
    intro xs _ _
    rw [List.map_nil, List.append_nil, List.length_nil, Nat.zero_add, Nat.add_zero]
    rfl
  | cons name names ih =>
    intro xs hsource hargs
    obtain ⟨a, ha⟩ := Option.isSome_iff_exists.mp (hargs name List.mem_cons_self)
    have hchosen : inferredType (info d name).2 a = chosenType d args name := by
      rw [chosenType, ha, Option.getD_some]
    have hnext := @ih (xs ++ [chosenType d args name]) (fun x hx =>
      hsource x (List.mem_cons_of_mem _ hx))
      fun x hx => hargs x (List.mem_cons_of_mem _ hx)
    rw [List.length_append, List.length_singleton, List.append_assoc] at hnext
    rw [notes, List.map_cons, List.cons_append, inferParams,
      if_neg (hsource name List.mem_cons_self),
      if_neg Bool.false_ne_true, ha]
    dsimp only
    rw [List.length_cons, Nat.add_right_comm, write_partly, hchosen, List.map_cons]
    dsimp only
    rw [Nat.add_comm names.length 1, ← Nat.add_assoc]
    exact hnext

/-- Where a place has no argument, the loop reads outside the arguments. Kind: L -/
theorem inferParams_reads {tail : List GenericParam} {n : ℕ} : ∀ {names : List ℕ} {xs : List Ty},
    (∀ name ∈ names, (info d name).1 ≠ 0) → (∃ name ∈ names, args[(info d name).1 - 1]? = none) →
      inferParams args (notes d names ++ tail) xs.length true (partly xs (names.length + n)) =
        .error .read := by
  intro names
  induction names with
  | nil =>
    rintro xs - ⟨name, hname, -⟩
    exact absurd hname List.not_mem_nil
  | cons name names ih =>
    rintro xs hsource ⟨name', hname', hnone⟩
    rw [notes, List.map_cons, List.cons_append, inferParams,
      if_neg (hsource name List.mem_cons_self),
      if_neg Bool.false_ne_true]
    rcases ha : args[(info d name).1 - 1]? with _ | a
    · rfl
    · have hrest : ∃ name ∈ names, args[(info d name).1 - 1]? = none := by
        rcases List.mem_cons.mp hname' with rfl | hmem
        · exact absurd (ha.symm.trans hnone) (Option.some_ne_none a)
        · exact ⟨name', hmem, hnone⟩
      have hnext := @ih (xs ++ [inferredType (info d name).2 a])
        (fun x hx => hsource x (List.mem_cons_of_mem _ hx)) hrest
      rw [List.length_append, List.length_singleton] at hnext
      dsimp only
      rw [List.length_cons, Nat.add_right_comm, write_partly]
      exact hnext

/-- Without places nothing is written, and the status is lost. Kind: L -/
theorem inferParams_zero {tail : List GenericParam} : ∀ {ps : List GenericParam} {i : ℕ}
    {status : Bool},
    (∀ p ∈ ps, p.inferIndex = 0) → ps ≠ [] →
      inferParams args (ps ++ tail) i status ts = inferParams args tail
        (i + ps.length) false ts := by
  intro ps
  induction ps with
  | nil => exact fun _ h => absurd rfl h
  | cons p ps ih =>
    intro i status hzero _
    rw [List.cons_append, inferParams, if_pos (hzero p List.mem_cons_self)]
    by_cases hps : ps = []
    · rw [hps]
      rfl
    · rw [ih (fun q hq => hzero q (List.mem_cons_of_mem _ hq)) hps, List.length_cons]
      congr 1
      omega

/-- The types of the pack. -/
def packTypes (d : Decl) (args : List Ty) : List Ty :=
  if d.variadic then
    if args.length ≤ d.params.length then [.void] else (args.drop d.params.length).map passedType
  else []

/-- The note on the pack. -/
def packNote (d : Decl) : List GenericParam := if d.variadic then [⟨paramsCount d, false, true⟩]
    else []

theorem packTypes_length (d : Decl) (args : List Ty) :
    (packTypes d args).length = (if d.variadic then 1 else 0) + variadicArgumentsCount d args := by
  rw [packTypes, variadicArgumentsCount, paramsCount]
  cases hv : d.variadic
  · rfl
  · rw [if_pos rfl, if_pos rfl, if_pos rfl]
    split_ifs with hle
    · rw [List.length_singleton]
      omega
    · rw [List.length_map, List.length_drop]
      omega

/-- The pack takes the arguments that are left, and keeps the status. Kind: L -/
theorem inferParams_pack (d : Decl) (args : List Ty) (status : Bool) (xs : List Ty) :
    inferParams args (packNote d) xs.length status (partly xs (packTypes d args).length) =
      .ok (status, (xs ++ packTypes d args).map some) := by
  rw [packNote, packTypes]
  cases hv : d.variadic
  · rw [if_neg Bool.false_ne_true, if_neg Bool.false_ne_true, inferParams,
      List.length_nil, partly_zero,
      List.append_nil]
  · rw [if_pos rfl, if_pos rfl, inferParams, paramsCount, hv, if_pos rfl,
      if_neg (Nat.succ_ne_zero _), if_pos rfl]
    dsimp only
    rw [Nat.add_sub_cancel]
    split_ifs with hempty hle hle
    · rw [List.length_singleton, write_partly, partly_zero]
      rfl
    · rw [List.isEmpty_iff, List.drop_eq_nil_iff] at hempty
      exact absurd hempty hle
    · rw [List.isEmpty_iff, List.drop_eq_nil_iff] at hempty
      exact absurd hle hempty
    · rw [List.length_map, fillVariadic_partly]
      rfl

theorem write_free {i : ℕ} (t : Ty)
    (h : ts[i]? = some none) : write ts i t = .ok (ts.set i (some t)) := by
  rw [write, h]

/-- Where the slots are free the pack can be written. Kind: L -/
theorem fillVariadic_free : ∀ {as : List Ty} {i : ℕ} {ts : List (Option Ty)},
    (∀ j, i ≤ j → j < i + as.length → ts[j]? = some none) → ∃ ts',
      fillVariadic as i ts = .ok ts' := by
  intro as
  induction as with
  | nil => exact fun _ => ⟨_, rfl⟩
  | cons a as ih =>
    intro i ts h
    rw [List.length_cons] at h
    rw [fillVariadic, write_free _ (h i (Nat.le_refl i) (by omega))]
    refine ih fun j hj hlt => ?_
    rw [List.getElem?_set_ne (by omega)]
    exact h j (by omega) (by omega)

theorem inferParams_pack_free {i : ℕ} (status : Bool)
    (h : ∀ j, i ≤ j → j < i + (packTypes d args).length → ts[j]? = some none) :
    ∃ ts', inferParams args (packNote d) i status ts = .ok (status, ts') := by
  rw [packTypes] at h
  rw [packNote]
  cases hv : d.variadic
  · exact ⟨ts, rfl⟩
  · rw [hv, if_pos rfl] at h
    rw [if_pos rfl, inferParams, paramsCount, hv, if_pos rfl,
      if_neg (Nat.succ_ne_zero _), if_pos rfl]
    dsimp only
    rw [Nat.add_sub_cancel]
    split_ifs with hempty
    · have hle : args.length ≤ d.params.length := by
        rwa [List.isEmpty_iff, List.drop_eq_nil_iff] at hempty
      rw [if_pos hle] at h
      rw [write_free _ (h i (Nat.le_refl i) (Nat.lt_succ_self i))]
      exact ⟨_, rfl⟩
    · have hle : ¬ args.length ≤ d.params.length := by
        rwa [List.isEmpty_iff, List.drop_eq_nil_iff] at hempty
      rw [if_neg hle, List.length_map] at h
      obtain ⟨ts', hts'⟩ := fillVariadic_free h
      rw [hts']
      exact ⟨ts', rfl⟩

/-! ## A call -/

def infos (d : Decl) : List (ℕ × Bool) := d.names.map (info d)

def firstInferrable (d : Decl) : Option ℕ := inferrableFrom (infos d) 0 none

def generic (d : Decl) : Generic := transformVariadicFunction d (shakeGenericDecl d)

/-- The parameters are those with a name and the pack. Kind: L -/
theorem generic_params (d : Decl) :
    (generic d).params = noteInference (firstInferrable d) (infos d) 0 ++ packNote d := by
  unfold generic transformVariadicFunction packNote
  cases d.variadic
  · exact (List.append_nil _).symm
  · rfl

/-- From which parameter on the others can be inferred. Kind: L -/
theorem generic_inferrable (d : Decl) :
    (generic d).inferrable = if d.variadic then (firstInferrable d).or (some 0)
      else firstInferrable d := by
  unfold generic transformVariadicFunction
  cases d.variadic <;> rfl

theorem infos_length (d : Decl) : (infos d).length = d.names.length := List.length_map ..

/-- There is a slot for every parameter and every argument of the pack. Kind: L -/
theorem generic_length (d : Decl) (args : List Ty) :
    (generic d).params.length + variadicArgumentsCount d args = typesCount d args := by
  rw [generic_params, List.length_append, noteInference_length, infos_length, typesCount, packNote]
  cases d.variadic <;> rfl

theorem generic_drop {e : ℕ} (h : e ≤ d.names.length) :
    (generic d).params.drop e = noteInference (firstInferrable d) ((infos d).drop e) e ++
      packNote d := by
  have hle : e ≤ (noteInference (firstInferrable d) (infos d) 0).length := by
    rw [noteInference_length, infos_length]
    exact h
  rw [generic_params, List.drop_append_of_le_length hle, noteInference_drop, Nat.zero_add]

theorem firstInferrable_le {k : ℕ} (h : firstInferrable d = some k) : k ≤ d.names.length := by
  have hle := inferrableFrom_lt (fun k hk => absurd hk.symm (Option.some_ne_none k)) h
  rwa [infos_length, Nat.zero_add] at hle

/-- From a parameter on the others can be inferred if and only if each has a place. Kind: L -/
theorem firstInferrable_iff {e : ℕ} (h : e < d.names.length) :
    (firstInferrable d).any (· ≤ e) = true ↔ ∀ name ∈ d.names.drop e, source d name ≠ none := by
  have hlt : e < 0 + (infos d).length := by
    rw [infos_length, Nat.zero_add]
    exact h
  unfold firstInferrable
  rw [inferrableFrom_iff (Nat.zero_le e) hlt fun k hk =>
    absurd hk.symm (Option.some_ne_none k), Nat.sub_zero, infos,
    ← List.map_drop, List.forall_mem_map]
  exact forall₂_congr fun name _ => not_congr info_eq_zero_iff

/-- What the call does, with the slots in front of the loop written out. Kind: L -/
theorem resolve_eq (c : Call d) : resolveGenericDecl d c.explicit c.args =
    if (generic d).inferrable.any (· ≤ c.explicit.length) then
      (inferParams c.args ((generic d).params.drop c.explicit.length) c.explicit.length true
        (partly c.explicit (typesCount d c.args - c.explicit.length))).map fun r =>
          if r.1 then some r.2 else none
    else .ok none := by
  have hfew : ¬ (c.args.length < requiredParamsCount d ∧ d.variadic = false) := fun h =>
    absurd c.enough (Nat.not_le_of_lt h.1)
  have hfew' : ¬ (d.variadic = true ∧ c.args.length < requiredParamsCount d) := fun h =>
    absurd c.enough (Nat.not_le_of_lt h.2)
  have hgeneric : transformVariadicFunction d (shakeGenericDecl d) = generic d := rfl
  unfold resolveGenericDecl
  dsimp only
  rw [if_neg hfew', hgeneric, generic_length, if_neg (Nat.not_lt_of_lt c.omits), if_pos c.omits,
    inferGenericFunctionTypes, if_neg hfew]
  rfl

theorem variadic_of_names {c : Call d}
    (h : d.names.length ≤ c.explicit.length) : d.variadic = true := by
  by_contra hv
  have homits := c.omits
  rw [typesCount, variadicArgumentsCount, if_neg hv, if_neg hv] at homits
  omega

theorem inferrable_past {c : Call d} (h : d.names.length ≤ c.explicit.length) :
    (generic d).inferrable.any (· ≤ c.explicit.length) = true := by
  rw [generic_inferrable, variadic_of_names h, if_pos rfl]
  rcases hk : firstInferrable d with _ | k
  · exact decide_eq_true (Nat.zero_le c.explicit.length)
  · exact decide_eq_true (Nat.le_trans (firstInferrable_le hk) h)

/-- **A type parameter without a source, and the call is rejected.** Kind: P -/
theorem resolve_rejects (c : Call d)
    (h : ∃ name ∈ d.names.drop c.explicit.length, source d name = none) :
    resolveGenericDecl d c.explicit c.args = .ok none := by
  obtain ⟨name, hname, hnone⟩ := h
  have hlt : c.explicit.length < d.names.length := by
    by_contra hle
    rw [List.drop_of_length_le (Nat.le_of_not_lt hle)] at hname
    exact absurd hname List.not_mem_nil
  have hany : ¬ (firstInferrable d).any (· ≤ c.explicit.length) = true :=
    fun hall => (firstInferrable_iff hlt).mp hall name hname hnone
  rw [resolve_eq]
  split_ifs with hinf
  · have hfirst : firstInferrable d = none := by
      rcases hk : firstInferrable d with _ | k
      · rfl
      · rw [generic_inferrable, hk] at hinf
        rw [hk] at hany
        cases hv : d.variadic
        · rw [hv] at hinf
          exact absurd hinf hany
        · rw [hv] at hinf
          exact absurd hinf hany
    have hnotes : noteInference none ((infos d).drop c.explicit.length) c.explicit.length ≠ [] := by
      intro hnil
      have hzero := congrArg List.length hnil
      rw [noteInference_length, List.length_drop, infos_length, List.length_nil] at hzero
      omega
    have hfree : ∀ j, d.names.length ≤ j → j < d.names.length + (packTypes d c.args).length →
        (partly c.explicit (typesCount d c.args - c.explicit.length))[j]? = some none := by
      intro j hj hlt'
      rw [packTypes_length] at hlt'
      have htypes : typesCount d c.args = d.names.length + ((if d.variadic then 1 else 0) +
          variadicArgumentsCount d c.args) := Nat.add_assoc ..
      rw [partly, List.getElem?_append_right (by rw [List.length_map]; omega),
        List.getElem?_replicate,
        List.length_map, if_pos (by omega)]
    have hindex : c.explicit.length + (noteInference none ((infos d).drop c.explicit.length)
        c.explicit.length).length = d.names.length := by
      rw [noteInference_length, List.length_drop, infos_length]
      omega
    obtain ⟨ts', hts'⟩ := inferParams_pack_free false hfree
    rw [generic_drop (Nat.le_of_lt hlt), hfirst,
      inferParams_zero noteInference_none hnotes, hindex, hts']
    rfl
  · rfl

/-- Behind the explicit types the notes are those of the names that are left. Kind: L -/
theorem drop_notes {c : Call d} (hle : c.explicit.length ≤ d.names.length)
    (hall : ∀ name ∈ d.names.drop c.explicit.length, source d name ≠ none) :
    (generic d).inferrable.any (· ≤ c.explicit.length) = true ∧
      (generic d).params.drop c.explicit.length = notes d (d.names.drop c.explicit.length) ++
        packNote d := by
  rw [generic_drop hle]
  rcases Nat.eq_or_lt_of_le hle with heq | hlt
  · refine ⟨inferrable_past (Nat.le_of_eq heq.symm), ?_⟩
    rw [List.drop_of_length_le (Nat.le_of_eq heq.symm),
      List.drop_of_length_le (infos_length d ▸ Nat.le_of_eq heq.symm)]
    rfl
  · have hany := (firstInferrable_iff hlt).mpr hall
    refine ⟨?_, ?_⟩
    · rw [generic_inferrable]
      rcases hk : firstInferrable d with _ | k
      · rw [hk] at hany
        exact absurd hany Bool.false_ne_true
      · rw [hk] at hany
        cases d.variadic
        · exact hany
        · exact hany
    · rw [noteInference_inferrable hany, infos, ← List.map_drop, List.map_map]
      rfl

/-- The slots that are left are for these names and the pack. Kind: L -/
theorem left_out {c : Call d} (hle : c.explicit.length ≤ d.names.length) :
    typesCount d c.args - c.explicit.length =
      (d.names.drop c.explicit.length).length + (packTypes d c.args).length := by
  rw [packTypes_length, typesCount, List.length_drop]
  omega

/-- **A source that is not passed is read all the same.** Kind: P -/
theorem resolve_reads (c : Call d) (hle : c.explicit.length ≤ d.names.length)
    (hall : ∀ name ∈ d.names.drop c.explicit.length, source d name ≠ none)
    (hmissing : ∃ name ∈ d.names.drop c.explicit.length, c.args[(info d name).1 - 1]? = none) :
    resolveGenericDecl d c.explicit c.args = .error .read := by
  obtain ⟨hinf, hdrop⟩ := drop_notes hle hall
  rw [resolve_eq, if_pos hinf, hdrop, left_out hle,
    inferParams_reads (fun name hname => mt info_eq_zero_iff.mp (hall name hname)) hmissing]
  rfl

/-- The types that a call is resolved with. -/
def resolved (d : Decl) (c : Call d) : List Ty :=
  c.explicit ++ (d.names.drop c.explicit.length).map (chosenType d c.args) ++ packTypes d c.args

/-- **Each type is filled in.** Kind: P -/
theorem resolve_infers (c : Call d) (hle : c.explicit.length ≤ d.names.length)
    (hall : ∀ name ∈ d.names.drop c.explicit.length, source d name ≠ none)
    (hargs : ∀ name ∈ d.names.drop c.explicit.length,
      (c.args[(info d name).1 - 1]?).isSome = true) :
    resolveGenericDecl d c.explicit c.args = .ok (some ((resolved d c).map some)) := by
  obtain ⟨hinf, hdrop⟩ := drop_notes hle hall
  have hpack := inferParams_pack d c.args true
    (c.explicit ++ (d.names.drop c.explicit.length).map (chosenType d c.args))
  rw [List.length_append, List.length_map] at hpack
  rw [resolve_eq, if_pos hinf, hdrop, left_out hle,
    inferParams_notes (fun name hname => mt info_eq_zero_iff.mp (hall name hname)) hargs, hpack]
  rfl

/-- **Types given for a part of the pack, and the others are left unfilled.** Kind: P -/
theorem resolve_unfilled (c : Call d) (hlt : d.names.length < c.explicit.length) :
    ∃ n, resolveGenericDecl d c.explicit c.args = .ok (some (partly c.explicit (n + 1))) := by
  have hle : (generic d).params.length ≤ c.explicit.length := by
    have hone : (packNote d).length ≤ 1 := by
      rw [packNote]
      split_ifs
      · exact Nat.le_refl 1
      · exact Nat.zero_le 1
    rw [generic_params, List.length_append, noteInference_length, infos_length]
    omega
  refine ⟨typesCount d c.args - c.explicit.length - 1, ?_⟩
  rw [Nat.sub_add_cancel (Nat.sub_pos_of_lt c.omits), resolve_eq,
    if_pos (inferrable_past (Nat.le_of_lt hlt)),
    List.drop_of_length_le hle]
  rfl

/-! ## The condition -/

/-- The argument of a source: neither a reference nor a pointer for one that is declared T behind a
parameter that is declared a reference or a pointer, no pointer for &T, and a pointer for ^T.
Kind: D -/
def Suits (behindInner : Bool) (a : Ty) : TypeExpr → Prop
  | .path _ => behindInner = false ∨ (a.isReference = false ∧ a.isPointer = false)
  | .reference _ => a.isPointer = false
  | .pointer _ => a.isPointer = true
  | .other => True

/-- The type for T that the argument of a source shows. Kind: D -/
def shownType : TypeExpr → Ty → Ty
  | .reference _, .reference u | .pointer _, .pointer u => u
  | _, a => passedType a

/-- A type parameter that is left out has no source, so the call is rejected; or types of the pack
are given only if all are, the source of each type parameter that is left out is passed with an
argument that suits it, and the arguments of the parameters behind it that are declared T, &T or ^T
agree with the type that it shows. Kind: D -/
def Clean (d : Decl) (c : Call d) : Prop :=
  (∃ name ∈ d.names.drop c.explicit.length, source d name = none) ∨
    c.explicit.length ≤ d.names.length ∧
      ∀ name ∈ d.names.drop c.explicit.length, ∀ k p, source d name = some k →
        d.params[k]? = some p →
        ∃ a, c.args[k]? = some a ∧ Suits ((d.params.take k).any fun q => q.type.isInner) a p.type ∧
          ∀ (k' : ℕ) (p' : FuncParam) (a' : Ty), k < k' → d.params[k']? = some p' →
            p'.type.strip.isPath name = true → c.args[k']? = some a' →
              Accepts (p'.type.apply (shownType p.type a)) (passedType a')

/-- The place of a name is a parameter that has it as its type. Kind: L -/
theorem source_param {k : ℕ} (h : source d name = some k) :
    ∃ p, d.params[k]? = some p ∧ p.type.strip.isPath name = true := by
  obtain ⟨hk, hp, -⟩ := List.findIdx?_eq_some_iff_getElem.mp h
  exact ⟨d.params[k], List.getElem?_eq_getElem hk, hp⟩

/-- The source is the first parameter of its type parameter. Kind: L -/
theorem source_first {k k' : ℕ} {p : FuncParam} (h : source d name = some k) (hlt : k' < k)
    (hp : d.params[k']? = some p) : ¬ p.type.strip.isPath name = true := by
  obtain ⟨_, _, hbefore⟩ := List.findIdx?_eq_some_iff_getElem.mp h
  obtain ⟨hk', rfl⟩ := List.getElem?_eq_some_iff.mp hp
  exact hbefore k' hlt

/-- The type for a name is read off the argument at its place. Kind: L -/
theorem chosenType_eq {k : ℕ} {p : FuncParam} {a : Ty} (h : source d name = some k)
    (hp : d.params[k]? = some p)
    (ha : args[k]? = some a) : chosenType d args name =
      inferredType (((d.params.take k).any fun q => q.type.isInner) || p.type.isInner) a := by
  have htake : (d.params.take (k + 1)).any (fun q => q.type.isInner) =
      (((d.params.take k).any fun q => q.type.isInner) || p.type.isInner) := by
    rw [List.take_add_one, hp, List.any_append]
    simp
  rw [chosenType, info_of_source h, Nat.add_sub_cancel, ha, Option.getD_some, htake]

theorem inferredType_false (a : Ty) : inferredType false a = passedType a := by
  cases a <;> rfl

/-- Nothing is stripped where the flag is not set, or of what is no pointer. Kind: L -/
theorem inferredType_plain {inner : Bool} {a : Ty}
    (h : inner = false ∨ (a.isReference = false ∧ a.isPointer = false)) :
    inferredType inner a = passedType a := by
  rcases h with rfl | ⟨href, hptr⟩
  · exact inferredType_false a
  · cases a with
    | reference u => exact absurd href Bool.noConfusion
    | pointer u => exact absurd hptr Bool.noConfusion
    | _ => rfl

/-- Where nothing is stripped the argument is no pointer and no reference. Kind: L -/
theorem plain_of_inferredType {a : Ty} (h : inferredType true a = passedType a) :
    a.isReference = false ∧ a.isPointer = false := by
  cases a with
  | reference u =>
      exact absurd (congrArg sizeOf h) (Nat.ne_of_lt (by simp [inferredType, passedType]))
  | pointer u =>
      exact absurd (congrArg sizeOf h) (Nat.ne_of_lt (by simp [inferredType, passedType]))
  | _ => exact ⟨rfl, rfl⟩

/-- **A source with an argument that suits it** gives the type that the argument shows. Kind: L -/
theorem inferredType_eq {behindInner : Bool} {a : Ty} {type : TypeExpr}
    (hpath : type.strip.isPath name = true) (h : Suits behindInner a type) :
    inferredType (behindInner || type.isInner) a = shownType type a := by
  cases type with
  | path n =>
    change inferredType (behindInner || false) a = passedType a
    rw [Bool.or_false]
    exact inferredType_plain h
  | reference e =>
    change inferredType (behindInner || true) a = _
    rw [Bool.or_true]
    cases a with
    | pointer u => exact absurd h Bool.noConfusion
    | _ => rfl
  | pointer e =>
    change inferredType (behindInner || true) a = _
    rw [Bool.or_true]
    cases a with
    | pointer u => rfl
    | _ => exact absurd h Bool.noConfusion
  | other => exact absurd hpath Bool.false_ne_true

/-- What an argument that suits shows is the type it refers or points to. Kind: L -/
theorem chooses_shown {behindInner : Bool} {a : Ty} {type : TypeExpr}
    (h : Suits behindInner a type) :
    Chooses a (shownType type a) type := by
  cases type with
  | path n => exact rfl
  | reference e =>
    rintro u (rfl | rfl)
    · rfl
    · exact absurd h Bool.noConfusion
  | pointer e =>
    rintro u (rfl | rfl)
    · exact absurd h Bool.noConfusion
    · rfl
  | other => trivial

/-- **A source accepts an argument that suits it**, with the type that it shows. Kind: L -/
theorem accepts_shown {behindInner : Bool} {a : Ty} {type : TypeExpr}
    (hpath : type.strip.isPath name = true) (h : Suits behindInner a type) :
    Accepts (type.apply (shownType type a)) (passedType a) := by
  cases type with
  | path n => exact .inl rfl
  | reference e =>
    cases e with
    | path n =>
      cases a with
      | pointer u => exact absurd h Bool.noConfusion
      | reference u => exact .inl rfl
      | _ => exact .inr rfl
    | _ => exact absurd hpath Bool.false_ne_true
  | pointer e =>
    cases e with
    | path n =>
      cases a with
      | pointer u => exact .inl rfl
      | _ => exact absurd h Bool.noConfusion
    | _ => exact absurd hpath Bool.false_ne_true
  | other => exact absurd hpath Bool.false_ne_true

/-- Where what is chosen makes the source accept its argument, the argument suits it. Kind: L -/
theorem suits_of_chosen {behindInner : Bool} {a : Ty} {type : TypeExpr}
    (hpath : type.strip.isPath name = true)
    (hchoose : Chooses a (inferredType (behindInner || type.isInner) a) type)
    (haccept : Accepts (type.apply (inferredType (behindInner || type.isInner) a)) (passedType a)) :
    Suits behindInner a type := by
  cases type with
  | path n =>
    cases behindInner with
    | false => exact .inl rfl
    | true => exact .inr (plain_of_inferredType hchoose)
  | reference e =>
    cases e with
    | path n =>
      cases a with
      | pointer u =>
        rw [show (behindInner || (TypeExpr.reference (.path n)).isInner) = true from
          Bool.or_true _] at haccept
        rcases haccept with h | h
        · cases h
        · exact absurd (congrArg sizeOf (Ty.reference.inj h))
            (by simp [passedType, inferredType, TypeExpr.apply])
      | _ => rfl
    | _ => exact absurd hpath Bool.false_ne_true
  | pointer e =>
    cases e with
    | path n =>
      cases a with
      | pointer u => rfl
      | _ => rcases haccept with h | h <;> cases h
    | _ => exact absurd hpath Bool.false_ne_true
  | other => exact absurd hpath Bool.false_ne_true

theorem resolved_length {c : Call d} (hle : c.explicit.length ≤ d.names.length) :
    (resolved d c).length = typesCount d c.args := by
  rw [resolved, List.length_append, List.length_append, List.length_map,
    Nat.add_assoc, ← left_out hle]
  exact Nat.add_sub_cancel' (Nat.le_of_lt c.omits)

/-- The slot of a name holds the type that is chosen for it. Kind: L -/
theorem resolved_name {c : Call d} {i : ℕ} (hi : c.explicit.length ≤ i)
    (hname : d.names[i]? = some name) :
    (resolved d c)[i]? = some (chosenType d c.args name) := by
  have hdrop : (d.names.drop c.explicit.length)[i - c.explicit.length]? = some name := by
    rw [List.getElem?_drop, Nat.add_sub_cancel' hi]
    exact hname
  have hlt : i < (c.explicit ++ (d.names.drop c.explicit.length).map
    (chosenType d c.args)).length := by
    have hlen := (List.getElem?_eq_some_iff.mp hdrop).1
    rw [List.length_append, List.length_map]
    omega
  rw [resolved, List.getElem?_append_left hlt,
    List.getElem?_append_right hi, List.getElem?_map, hdrop]
  rfl

/-- Behind the names stand the types of the pack. Kind: L -/
theorem resolved_pack {c : Call d} (hle : c.explicit.length ≤ d.names.length) (k : ℕ) :
    (resolved d c)[d.names.length + k]? = (packTypes d c.args)[k]? := by
  have hlen : (c.explicit ++ (d.names.drop c.explicit.length).map (chosenType d c.args)).length =
      d.names.length := by
    rw [List.length_append, List.length_map, List.length_drop]
    omega
  rw [resolved, List.getElem?_append_right (by omega), hlen, Nat.add_sub_cancel_left]

theorem none_not_mem_map (xs : List Ty) : none ∉ xs.map some := by
  intro h
  obtain ⟨t, -, ht⟩ := List.mem_map.mp h
  exact Option.some_ne_none t ht

/-- A call that is rejected infers nothing wrong. Kind: L -/
theorem infers_of_rejected {c : Call d}
    (h : resolveGenericDecl d c.explicit c.args = .ok none) : Infers d c := by
  have hno : ∀ ts, resolveGenericDecl d c.explicit c.args ≠ .ok (some ts) := by
    intro ts hts
    exact absurd (Except.ok.inj (h.symm.trans hts)) (Option.some_ne_none ts).symm
  exact ⟨⟨_, h⟩, fun ts hts => absurd hts (hno ts), fun ts hts => absurd hts (hno ts),
    fun ts hts => absurd hts (hno ts)⟩

/-- **Where every argument suits its parameter, the call infers what it should.** Kind: L -/
theorem infers_of_passed {c : Call d} (hle : c.explicit.length ≤ d.names.length)
    (hall : ∀ name ∈ d.names.drop c.explicit.length, source d name ≠ none)
    (hclean : ∀ name ∈ d.names.drop c.explicit.length, ∀ k p, source d name = some k →
      d.params[k]? = some p →
        ∃ a, c.args[k]? = some a ∧ Suits ((d.params.take k).any fun q => q.type.isInner) a p.type ∧
          ∀ (k' : ℕ) (p' : FuncParam) (a' : Ty), k < k' → d.params[k']? = some p' →
            p'.type.strip.isPath name = true → c.args[k']? = some a' →
              Accepts (p'.type.apply (shownType p.type a)) (passedType a')) :
    Infers d c := by
  have hargs : ∀ name ∈ d.names.drop c.explicit.length,
    (c.args[(info d name).1 - 1]?).isSome = true := by
    intro name hname
    obtain ⟨k, hk⟩ := Option.ne_none_iff_exists'.mp (hall name hname)
    obtain ⟨p, hp, -⟩ := source_param hk
    obtain ⟨a, ha, -⟩ := hclean name hname k p hk hp
    rw [info_of_source hk, Nat.add_sub_cancel, ha]
    rfl
  have hresolve := resolve_infers c hle hall hargs
  have hts : ∀ ts, resolveGenericDecl d c.explicit c.args = .ok (some ts) →
    ts = (resolved d c).map some :=
    fun ts h => Option.some.inj (Except.ok.inj (h.symm.trans hresolve))
  refine ⟨⟨_, hresolve⟩, fun ts h => ?_, fun ts h i name k p a hi hname hk hp ha =>
    ?_, fun ts h hv _ => ?_⟩
  · rw [hts ts h, List.length_map]
    exact ⟨resolved_length hle, none_not_mem_map _⟩
  · have hmem : name ∈ d.names.drop c.explicit.length := by
      refine List.mem_of_getElem? (i := i - c.explicit.length) ?_
      rw [List.getElem?_drop, Nat.add_sub_cancel' hi]
      exact hname
    obtain ⟨p', hp', hpath⟩ := source_param hk
    obtain rfl := Option.some.inj (hp.symm.trans hp')
    obtain ⟨a', ha', hsuits, hothers⟩ := hclean name hmem k p hk hp
    obtain rfl := Option.some.inj (ha.symm.trans ha')
    refine ⟨shownType p.type a, ?_, chooses_shown hsuits, fun k' p' a' hp' hpath' ha' => ?_⟩
    · rw [hts ts h, List.getElem?_map, resolved_name hi hname, chosenType_eq hk hp ha,
        inferredType_eq hpath hsuits]
      rfl
    · rcases Nat.lt_trichotomy k k' with hlt | rfl | hlt
      · exact hothers k' p' a' hlt hp' hpath' ha'
      · obtain rfl := Option.some.inj (hp.symm.trans hp')
        obtain rfl := Option.some.inj (ha.symm.trans ha')
        exact accepts_shown hpath hsuits
      · exact absurd hpath' (source_first hk hlt hp')
  · rw [hts ts h]
    refine ⟨fun k a ha => ?_, fun hshort => ?_⟩
    · have hlong : ¬ c.args.length ≤ d.params.length := by
        have hlt := (List.getElem?_eq_some_iff.mp ha).1
        omega
      rw [List.getElem?_map, resolved_pack hle, packTypes, hv, if_pos rfl,
        if_neg hlong, List.getElem?_map,
        List.getElem?_drop, ha]
      rfl
    · have hpack := resolved_pack hle 0
      rw [Nat.add_zero] at hpack
      rw [List.getElem?_map, hpack, packTypes, hv, if_pos rfl, if_pos hshort]
      rfl

/-- **A call that infers what it should has arguments that suit.** Kind: L -/
theorem clean_of_infers {c : Call d} (h : Infers d c)
    (hall : ∀ name ∈ d.names.drop c.explicit.length, source d name ≠ none) :
    c.explicit.length ≤ d.names.length ∧
      ∀ name ∈ d.names.drop c.explicit.length, ∀ k p, source d name = some k →
        d.params[k]? = some p →
        ∃ a, c.args[k]? = some a ∧ Suits ((d.params.take k).any fun q => q.type.isInner) a p.type ∧
          ∀ (k' : ℕ) (p' : FuncParam) (a' : Ty), k < k' → d.params[k']? = some p' →
            p'.type.strip.isPath name = true → c.args[k']? = some a' →
              Accepts (p'.type.apply (shownType p.type a)) (passedType a') := by
  have hle : c.explicit.length ≤ d.names.length := by
    by_contra hlt
    obtain ⟨n, hn⟩ := resolve_unfilled c (Nat.lt_of_not_le hlt)
    exact (h.filled _ hn).2 (List.mem_append_right _ List.mem_cons_self)
  have hargs : ∀ name ∈ d.names.drop c.explicit.length,
    (c.args[(info d name).1 - 1]?).isSome = true := by
    intro name hname
    rw [Option.isSome_iff_ne_none]
    intro hnone
    obtain ⟨r, hr⟩ := h.safe
    exact absurd (hr.symm.trans (resolve_reads c hle hall ⟨name, hname, hnone⟩)) (by simp)
  refine ⟨hle, fun name hname k p hk hp => ?_⟩
  have hsome := hargs name hname
  rw [info_of_source hk, Nat.add_sub_cancel] at hsome
  obtain ⟨a, ha⟩ := Option.isSome_iff_exists.mp hsome
  refine ⟨a, ha, ?_⟩
  obtain ⟨i, hi⟩ := List.mem_iff_getElem?.mp hname
  rw [List.getElem?_drop] at hi
  have hresolve := resolve_infers c hle hall hargs
  obtain ⟨t, ht, hchoose, haccepts⟩ :=
    h.chosen _ hresolve _ name k p a (Nat.le_add_right _ i) hi hk hp ha
  rw [List.getElem?_map, resolved_name (Nat.le_add_right _ i) hi, chosenType_eq hk hp ha] at ht
  obtain ⟨p', hp', hpath⟩ := source_param hk
  obtain rfl := Option.some.inj (hp.symm.trans hp')
  obtain rfl := Option.some.inj (Option.some.inj ht)
  have hsuits := suits_of_chosen hpath hchoose (haccepts k p a hp hpath ha)
  refine ⟨hsuits, fun k' p' a' _ hp' hpath' ha' => ?_⟩
  rw [← inferredType_eq hpath hsuits]
  exact haccepts k' p' a' hp' hpath' ha'

/-- `func f[T](a: &i32, b: T)`. -/
def behindReference : Decl :=
  ⟨[0], [⟨.reference (.path 1), false⟩, ⟨.path 0, false⟩], false, by decide⟩

/-- `func f[T](a: &T)`. -/
def byReference : Decl := ⟨[0], [⟨.reference (.path 0), false⟩], false, by decide⟩

/-- `func f[T](a: i32, b: T = …)`. -/
def withDefault : Decl :=
  ⟨[0], [⟨.path 1, false⟩, ⟨.path 0, true⟩], false, by decide⟩

/-- `func f(...args: auto)`. -/
def packOnly : Decl := ⟨[], [], true, List.Pairwise.nil⟩

end CxyCompiler.Middle.Generics
