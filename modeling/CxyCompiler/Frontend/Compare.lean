import CxyCompiler.Frontend.Types

/-!
# `compareTypes` as an equivalence relation

Three branches of the comparison are not symmetric or not transitive by themselves: two anonymous
structs are compared over the member count of the left one less three, the scope of a named
function is compared only where both scopes are known, and the `Extern` and `Anonymous` flags are
read from the left type while the flags compared include those of its wrappers.

* `compareTypes_true_iff` — what a comparison that returns `true` says about the two unwrapped
  types.
* `Unambiguous h` — no types of the heap meet one of the three branches in that way.
* `BodyEq.symm`, `BodyEq.trans` — one layer, given the law for the layer below.
* `compareTypes_equivalence` — **`compareTypes` is reflexive, and symmetric and transitive on the
  unambiguous heaps.**
-/

namespace CxyCompiler.Frontend

open CxyCompiler.Core

/-! ## Unfolding a comparison -/

@[simp] theorem andThen_eq_true {a : Option Bool} {b : Unit → Option Bool} :
    andThen a b = some true ↔ a = some true ∧ b () = some true := by
  unfold andThen
  match a with
  | none => simp
  | some true => simp
  | some false => simp

variable {h : Heap}

/-- A comparison returns `true` when the two unwrapped types carry the same flags and are one type
or two of one tag whose contents compare equal. Kind: L -/
theorem compareTypes_true_iff {n : ℕ} {a b : Addr} :
    compareTypes h (n + 1) a b = some true ↔
      ∃ x y f, unwrapType h (n + 1) a = some (x, f) ∧ unwrapType h (n + 1) b = some (y, f) ∧
        (x = y ∨ x ≠ y ∧ (h.types x).tag = (h.types y).tag ∧
          compareBody (compareTypes h n) (h.types x) (h.types y) = some true) := by
  rw [compareTypes]
  rcases hx : unwrapType h (n + 1) a with _ | ⟨x, f⟩
  · simp
  rcases hy : unwrapType h (n + 1) b with _ | ⟨y, g⟩
  · simp
  simp only [Option.bind_eq_bind, Option.bind_some, Option.some.injEq, Prod.mk.injEq]
  constructor
  · intro htrue
    split_ifs at htrue with hxy hne
    · rw [Option.some.injEq, beq_iff_eq] at htrue
      exact ⟨x, y, f, ⟨rfl, rfl⟩, ⟨rfl, htrue.symm⟩, Or.inl hxy⟩
    · simp at htrue
    · simp only [ne_eq, Bool.or_eq_true, decide_eq_true_eq, not_or, not_not] at hne
      exact ⟨x, y, f, ⟨rfl, rfl⟩, ⟨rfl, hne.2.symm⟩, Or.inr ⟨hxy, hne.1, htrue⟩⟩
  · rintro ⟨x', y', f', ⟨rfl, rfl⟩, ⟨rfl, rfl⟩, rfl | ⟨hxy, htag, hbody⟩⟩
    · simp
    · rw [if_neg hxy, if_neg (by simp [htag]), hbody]

/-! ## The types that are treated unlike from the two sides -/

/-- A type without its wrappers. -/
def unwrapped (h : Heap) (n : ℕ) (a : Addr) : Option Addr := (unwrapType h n a).map Prod.fst

def Ty.isAlias (t : Ty) : Bool :=
  match t.body with
  | .alias _ => true
  | _ => false

/-- A struct that carries `Anonymous` itself. -/
def Ty.isAnonymous (t : Ty) : Bool :=
  match t.body with
  | .struct _ => hasFlag t flgAnonymous
  | _ => false

/-- The scope of a named function, and whether it is known. -/
def Ty.scope (t : Ty) : Option (Option FuncDecl) :=
  match t.body with
  | .func _ _ decl => if t.name.isSome then some decl else none
  | _ => none

/-- **The types of a heap are treated alike from both sides.** -/
structure Unambiguous (h : Heap) : Prop where
  /-- No two distinct anonymous structs compare equal. -/
  anonymous : ∀ n a b x y, compareTypes h n a b = some true → unwrapped h n a = some x →
    unwrapped h n b = some y → (h.types x).isAnonymous = true →
      (h.types y).isAnonymous = true → x = y
  /-- An alias that carries `Extern` itself and one that has it from a wrapper compare equal in both
  orders or in none. -/
  externAlias : ∀ n a b x y, unwrapped h n a = some x → unwrapped h n b = some y →
    (h.types x).isAlias = true → (h.types y).isAlias = true → hasFlag (h.types x) flgExtern = true →
    hasFlag (h.types y) flgExtern = false →
    (compareTypes h n a b = some true ↔ compareTypes h n b a = some true)
  /-- A struct that is not anonymous itself does not compare equal to two distinct ones that are. -/
  wrappedAnonymous : ∀ n a b c x y z, compareTypes h n a b = some true →
    compareTypes h n b c = some true → unwrapped h n a = some x → unwrapped h n b = some y →
    unwrapped h n c = some z → (h.types x).isAnonymous = true → (h.types y).isAnonymous = false →
    (h.types z).isAnonymous = true → x = z
  /-- A function of unknown scope compares equal to functions of one scope only. -/
  scope : ∀ n a b c x y z declX declY declZ, compareTypes h n a b = some true →
    compareTypes h n b c = some true → unwrapped h n a = some x → unwrapped h n b = some y →
    unwrapped h n c = some z → (h.types x).scope = some declX → (h.types y).scope = some declY →
    (h.types z).scope = some declZ → declY.bind (·.parentScope) = none →
      sameScope declX declZ = true

theorem unwrapped_of_eq {n : ℕ} {a x : Addr} {f : Flags} (hx : unwrapType h n a = some (x, f)) :
    unwrapped h n a = some x := by
  rw [unwrapped, hx]
  rfl

/-! ## What a comparison that returns `true` says about the contents -/

variable {rec : Addr → Addr → Option Bool} {l r t : Ty}

/-- The contents of two types compare equal, with `rec` for the types they refer to: one
constructor for each way through the switch of `compareTypes`. -/
inductive BodyEq (rec : Addr → Addr → Option Bool) (l r : Ty) : Body → Body → Prop
  | auto : BodyEq rec l r .auto .auto
  | error : BodyEq rec l r .error .error
  | void : BodyEq rec l r .void .void
  | null : BodyEq rec l r .null .null
  | string : BodyEq rec l r .string .string
  | literal {a b : Lit} (heq : compareAstNodes a b = some true) :
      BodyEq rec l r (.literal a) (.literal b)
  | primitive {id : UInt32} : BodyEq rec l r (.primitive id) (.primitive id)
  | pointer {a b : Addr} {alloc : Bool} (heq : rec a b = some true) :
      BodyEq rec l r (.pointer a alloc) (.pointer b alloc)
  | reference {a b : Addr} (heq : rec a b = some true) : BodyEq rec l r (.reference a)
    (.reference b)
  | array {len : UInt64} {a b : Addr} (heq : rec a b = some true) :
      BodyEq rec l r (.array len a) (.array len b)
  | map {k k' v v' : Addr} (hkey : rec k k' = some true) (hvalue : rec v v' = some true) :
      BodyEq rec l r (.map k v) (.map k' v')
  | externAlias {a b : Option Addr} (hflag : hasFlag l flgExtern = true) (hname : l.name = r.name) :
      BodyEq rec l r (.alias a) (.alias b)
  | aliased {a b : Addr} (hflag : hasFlag l flgExtern = false) (heq : rec a b = some true) :
      BodyEq rec l r (.alias (some a)) (.alias (some b))
  | optional {a b : Addr} (heq : rec a b = some true) : BodyEq rec l r (.optional a) (.optional b)
  | untaggedUnion (hname : l.name = r.name) : BodyEq rec l r .untaggedUnion .untaggedUnion
  | opaqueType {d d' : Option (Option Addr)} (hname : l.name = r.name) :
      BodyEq rec l r (.opaqueType d) (.opaqueType d')
  | this {that : Addr} : BodyEq rec l r (.this (some that)) (.this (some that))
  | tuple {as bs : List Addr} (heq : List.Forall₂ (fun a b => rec a b = some true) as bs) :
      BodyEq rec l r (.tuple as) (.tuple bs)
  | union {as bs : List Addr} (heq : List.Forall₂ (fun a b => rec a b = some true) as bs) :
      BodyEq rec l r (.union as) (.union bs)
  | func {as bs : List Addr} {a b : Addr} {d d' : Option FuncDecl} (hname : l.name = r.name)
      (hscope : l.name.isSome = true → sameScope d d' = true) (hret : rec a b = some true)
      (heq : List.Forall₂ (fun a b => rec a b = some true) as bs) :
      BodyEq rec l r (.func as a d) (.func bs b d')
  | applied {as bs : List Addr} {a b : Addr} (hsrc : rec a b = some true)
      (heq : List.Forall₂ (fun a b => rec a b = some true) as bs) :
      BodyEq rec l r (.applied a as) (.applied b bs)
  | module {path : Ptr} : BodyEq rec l r (.module path) (.module path)
  | anonymous {ms ms' : List Member} (hflagl : hasFlag l flgAnonymous = true)
      (hflagr : hasFlag r flgAnonymous = true)
      (heq : compareAnonymousStructs rec ms ms' = some true) :
      BodyEq rec l r (.struct (some ms)) (.struct (some ms'))
  | struct {ms ms' : Option (List Member)}
      (hflag : (hasFlag l flgAnonymous && hasFlag r flgAnonymous) = false)
      (hname : l.name = r.name) (hns : l.ns = r.ns) : BodyEq rec l r (.struct ms) (.struct ms')
  | class (hname : l.name = r.name) (hns : l.ns = r.ns) : BodyEq rec l r .class .class
  | enum (hname : l.name = r.name) (hns : l.ns = r.ns) : BodyEq rec l r .enum .enum
  | interface (hname : l.name = r.name) (hns : l.ns = r.ns) : BodyEq rec l r .interface .interface
  | generic {c c' : UInt64} {d : Ptr} (hname : l.name = r.name) (hns : l.ns = r.ns) :
      BodyEq rec l r (.generic c d) (.generic c' d)
  | info {a b : Addr} (heq : rec a b = some true) : BodyEq rec l r (.info a) (.info b)
  | exception {d : Ptr} : BodyEq rec l r (.exception d) (.exception d)
  | result {a b : Addr} (heq : rec a b = some true) : BodyEq rec l r (.result a) (.result b)

/-- Two lists of one length compare equal member by member. Kind: L -/
theorem compareManyTypes_eq_true {as bs : List Addr} (hlen : as.length = bs.length) :
    compareManyTypes rec as bs = some true ↔
      List.Forall₂ (fun a b => rec a b = some true) as bs := by
  induction as generalizing bs with
  | nil =>
      cases bs with
      | nil => simp [compareManyTypes]
      | cons b bs => simp at hlen
  | cons a as ih =>
      cases bs with
      | nil => simp at hlen
      | cons b bs =>
          rw [compareManyTypes, andThen_eq_true, List.forall₂_cons, ih (by simpa using hlen)]

/-! The ways through the switch that end in `true`, where a kind has conditions of its own. -/

section Switch

variable (hlr : compareBody rec l r = some true)

include hlr

theorem BodyEq.of_pointer {a b : Addr} {alloc alloc' : Bool} (hl : l.body = .pointer a alloc)
    (hr : r.body = .pointer b alloc') : BodyEq rec l r (.pointer a alloc) (.pointer b alloc') := by
  simp only [compareBody, hl, hr] at hlr
  rw [andThen_eq_true, Option.some.injEq, beq_iff_eq] at hlr
  obtain ⟨heq, rfl⟩ := hlr
  exact .pointer heq

theorem BodyEq.of_array {len len' : UInt64} {a b : Addr} (hl : l.body = .array len a)
    (hr : r.body = .array len' b) : BodyEq rec l r (.array len a) (.array len' b) := by
  simp only [compareBody, hl, hr] at hlr
  split_ifs at hlr with hlen
  · subst hlen
    exact .array hlr
  · simp at hlr

/-- An extern alias has a name only; behind another there are the types. Kind: L -/
theorem BodyEq.of_alias {a b : Option Addr} (hl : l.body = .alias a) (hr : r.body = .alias b) :
    BodyEq rec l r (.alias a) (.alias b) := by
  simp only [compareBody, hl, hr] at hlr
  split_ifs at hlr with hflag
  · rw [Option.some.injEq, beq_iff_eq] at hlr
    exact .externAlias hflag hlr
  · cases a with
    | none => simp at hlr
    | some a =>
        cases b with
        | none => simp at hlr
        | some b => exact .aliased (by simpa using hflag) hlr

theorem BodyEq.of_this {a b : Option Addr} (hl : l.body = .this a) (hr : r.body = .this b) :
    BodyEq rec l r (.this a) (.this b) := by
  simp only [compareBody, hl, hr] at hlr
  rw [Option.some.injEq, Bool.and_eq_true, beq_iff_eq, Option.isSome_iff_exists] at hlr
  obtain ⟨⟨that, rfl⟩, rfl⟩ := hlr
  exact .this

theorem BodyEq.of_tuple {as bs : List Addr} (hl : l.body = .tuple as) (hr : r.body = .tuple bs) :
    BodyEq rec l r (.tuple as) (.tuple bs) := by
  simp only [compareBody, hl, hr] at hlr
  split_ifs at hlr with hlen
  · exact .tuple ((compareManyTypes_eq_true hlen).mp hlr)
  · simp at hlr

theorem BodyEq.of_union {as bs : List Addr} (hl : l.body = .union as) (hr : r.body = .union bs) :
    BodyEq rec l r (.union as) (.union bs) := by
  simp only [compareBody, hl, hr] at hlr
  split_ifs at hlr with hlen
  · exact .union ((compareManyTypes_eq_true hlen).mp hlr)
  · simp at hlr

/-- Functions agree in their names, where they have one in their scopes, and in their types.
Kind: L -/
theorem BodyEq.of_func {as bs : List Addr} {a b : Addr} {d d' : Option FuncDecl}
    (hl : l.body = .func as a d) (hr : r.body = .func bs b d') :
    BodyEq rec l r (.func as a d) (.func bs b d') := by
  simp only [compareBody, hl, hr] at hlr
  split_ifs at hlr with hname hscope hlen
  · simp at hlr
  · simp at hlr
  · rw [andThen_eq_true, compareManyTypes_eq_true hlen] at hlr
    refine .func (not_not.mp hname) (fun hsome => ?_) hlr.1 hlr.2
    simpa [hsome] using hscope
  · simp at hlr

theorem BodyEq.of_applied {as bs : List Addr} {a b : Addr} (hl : l.body = .applied a as)
    (hr : r.body = .applied b bs) : BodyEq rec l r (.applied a as) (.applied b bs) := by
  simp only [compareBody, hl, hr] at hlr
  rw [andThen_eq_true] at hlr
  obtain ⟨hsrc, hargs⟩ := hlr
  split_ifs at hargs with hlen
  · exact .applied hsrc ((compareManyTypes_eq_true hlen).mp hargs)
  · simp at hargs

/-- Two anonymous structures are compared by their members, any others by their names. Kind: L -/
theorem BodyEq.of_struct {ms ms' : Option (List Member)} (hl : l.body = .struct ms)
    (hr : r.body = .struct ms') : BodyEq rec l r (.struct ms) (.struct ms') := by
  simp only [compareBody, hl, hr] at hlr
  split_ifs at hlr with hflag
  · rw [Bool.and_eq_true] at hflag
    cases ms with
    | none => simp at hlr
    | some ms =>
        cases ms' with
        | none => simp at hlr
        | some ms' => exact .anonymous hflag.1 hflag.2 hlr
  · rw [Option.some.injEq, Bool.and_eq_true, beq_iff_eq, beq_iff_eq] at hlr
    exact .struct (by simpa using hflag) hlr.1 hlr.2

end Switch

/-- The ways through the switch that end in `true`. Kind: L -/
theorem bodyEq_of_compareBody (hlr : compareBody rec l r = some true) :
    BodyEq rec l r l.body r.body := by
  have hbody := hlr
  unfold compareBody at hlr
  split at hlr
  case h_1 hl =>
      split at hlr
      · rename_i hr
        rw [hl, hr]
        exact .auto
      · simp at hlr
  case h_2 hl =>
      split at hlr
      · rename_i hr
        rw [hl, hr]
        exact .error
      · simp at hlr
  case h_3 hl =>
      split at hlr
      · rename_i hr
        rw [hl, hr]
        exact .void
      · simp at hlr
  case h_4 hl =>
      split at hlr
      · rename_i hr
        rw [hl, hr]
        exact .null
      · simp at hlr
  case h_5 a hl =>
      split at hlr
      · rename_i b hr
        rw [hl, hr]
        exact .literal hlr
      · simp at hlr
  case h_6 a hl =>
      split at hlr
      · rename_i b hr
        simp only [Option.some.injEq, beq_iff_eq] at hlr
        subst hlr
        rw [hl, hr]
        exact .primitive
      · simp at hlr
  case h_7 a alloc hl =>
      split at hlr
      · rename_i b alloc' hr
        rw [hl, hr]
        exact .of_pointer hbody hl hr
      · simp at hlr
  case h_8 a hl =>
      split at hlr
      · rename_i b hr
        rw [hl, hr]
        exact .reference hlr
      · simp at hlr
  case h_9 len a hl =>
      split at hlr
      · rename_i len' b hr
        rw [hl, hr]
        exact .of_array hbody hl hr
      · simp at hlr
  case h_10 k v hl =>
      split at hlr
      · rename_i k' v' hr
        rw [andThen_eq_true] at hlr
        rw [hl, hr]
        exact .map hlr.1 hlr.2
      · simp at hlr
  case h_11 a hl =>
      split at hlr
      · rename_i b hr
        rw [hl, hr]
        exact .of_alias hbody hl hr
      · simp at hlr
  case h_12 a hl =>
      split at hlr
      · rename_i b hr
        rw [hl, hr]
        exact .optional hlr
      · simp at hlr
  case h_13 hl =>
      split at hlr
      · rename_i hr
        rw [Option.some.injEq, beq_iff_eq] at hlr
        rw [hl, hr]
        exact .untaggedUnion hlr
      · simp at hlr
  case h_14 d hl =>
      split at hlr
      · rename_i d' hr
        rw [Option.some.injEq, beq_iff_eq] at hlr
        rw [hl, hr]
        exact .opaqueType hlr
      · simp at hlr
  case h_15 a hl =>
      split at hlr
      · rename_i b hr
        rw [hl, hr]
        exact .of_this hbody hl hr
      · simp at hlr
  case h_16 as hl =>
      split at hlr
      · rename_i bs hr
        rw [hl, hr]
        exact .of_tuple hbody hl hr
      · simp at hlr
  case h_17 as hl =>
      split at hlr
      · rename_i bs hr
        rw [hl, hr]
        exact .of_union hbody hl hr
      · simp at hlr
  case h_18 as a d hl =>
      split at hlr
      · rename_i bs b d' hr
        rw [hl, hr]
        exact .of_func hbody hl hr
      · simp at hlr
  case h_19 a as hl =>
      split at hlr
      · rename_i b bs hr
        rw [hl, hr]
        exact .of_applied hbody hl hr
      · simp at hlr
  case h_20 hl =>
      split at hlr
      · rename_i hr
        rw [hl, hr]
        exact .string
      · simp at hlr
  case h_21 a hl =>
      split at hlr
      · rename_i b hr
        rw [Option.some.injEq, beq_iff_eq] at hlr
        subst hlr
        rw [hl, hr]
        exact .module
      · simp at hlr
  case h_22 ms hl =>
      split at hlr
      · rename_i ms' hr
        rw [hl, hr]
        exact .of_struct hbody hl hr
      · simp at hlr
  case h_23 hl =>
      split at hlr
      · rename_i hr
        rw [Option.some.injEq, Bool.and_eq_true, beq_iff_eq, beq_iff_eq] at hlr
        rw [hl, hr]
        exact .class hlr.1 hlr.2
      · simp at hlr
  case h_24 hl =>
      split at hlr
      · rename_i hr
        rw [Option.some.injEq, Bool.and_eq_true, beq_iff_eq, beq_iff_eq] at hlr
        rw [hl, hr]
        exact .enum hlr.1 hlr.2
      · simp at hlr
  case h_25 hl =>
      split at hlr
      · rename_i hr
        rw [Option.some.injEq, Bool.and_eq_true, beq_iff_eq, beq_iff_eq] at hlr
        rw [hl, hr]
        exact .interface hlr.1 hlr.2
      · simp at hlr
  case h_26 c d hl =>
      split at hlr
      · rename_i c' d' hr
        simp only [Option.some.injEq, Bool.and_eq_true, beq_iff_eq] at hlr
        obtain ⟨⟨hname, hns⟩, rfl⟩ := hlr
        rw [hl, hr]
        exact .generic hname hns
      · simp at hlr
  case h_27 a hl =>
      split at hlr
      · rename_i b hr
        rw [hl, hr]
        exact .info hlr
      · simp at hlr
  case h_28 a hl =>
      split at hlr
      · rename_i b hr
        rw [Option.some.injEq, beq_iff_eq] at hlr
        subst hlr
        rw [hl, hr]
        exact .exception
      · simp at hlr
  case h_29 a hl =>
      split at hlr
      · rename_i b hr
        rw [hl, hr]
        exact .result hlr
      · simp at hlr
  case h_30 => simp at hlr
  case h_31 => simp at hlr

theorem BodyEq.compareBody (hlr : BodyEq rec l r l.body r.body) :
    compareBody rec l r = some true := by
  unfold Frontend.compareBody
  generalize hbl : l.body = bl at hlr
  generalize hbr : r.body = br at hlr
  cases hlr with
  | tuple heq => simp [heq.length_eq, compareManyTypes_eq_true, heq]
  | union heq => simp [heq.length_eq, compareManyTypes_eq_true, heq]
  | @func as bs a b d d' hname hscope hret heq =>
      have hno : ¬ ((l.name.isSome && !sameScope d d') = true) := by
        intro hc
        rw [Bool.and_eq_true] at hc
        simp [hscope hc.1] at hc
      dsimp only
      rw [if_neg (not_not.mpr hname), if_neg hno, if_pos heq.length_eq, andThen_eq_true,
        compareManyTypes_eq_true heq.length_eq]
      exact ⟨hret, heq⟩
  | applied hsrc heq => simp [heq.length_eq, compareManyTypes_eq_true, heq, hsrc]
  | struct hflag hname hns =>
      simp only [hflag, hname, hns]
      simp
  | _ => simp [*]

theorem compareBody_eq_true : compareBody rec l r = some true ↔ BodyEq rec l r l.body r.body :=
  ⟨bodyEq_of_compareBody, BodyEq.compareBody⟩

theorem BodyEq.scopes {d d' : Option FuncDecl} (hlr : BodyEq rec l r l.body r.body)
    (hl : l.scope = some d) (hr : r.scope = some d') : sameScope d d' = true := by
  unfold Ty.scope at hl hr
  generalize l.body = bl at hlr hl
  generalize r.body = br at hlr hr
  cases hlr with
  | func hname hscope _ _ =>
      dsimp only at hl hr
      split_ifs at hl with hsome
      rw [if_pos (hname ▸ hsome)] at hr
      rw [← Option.some.inj hl, ← Option.some.inj hr]
      exact hscope hsome
  | _ => simp at hl

/-! ## Literals and scopes -/

theorem floatEq_symm {a b : UInt64} (hab : floatEq a b = true) : floatEq b a = true := by
  simp only [floatEq, Bool.and_eq_true, Bool.or_eq_true, beq_iff_eq] at hab ⊢
  obtain ⟨⟨ha, hb⟩, heq | ⟨hza, hzb⟩⟩ := hab
  · exact ⟨⟨hb, ha⟩, Or.inl heq.symm⟩
  · exact ⟨⟨hb, ha⟩, Or.inr ⟨hzb, hza⟩⟩

theorem floatEq_trans {a b c : UInt64} (hab : floatEq a b = true) (hbc : floatEq b c = true) :
    floatEq a c = true := by
  simp only [floatEq, Bool.and_eq_true, Bool.or_eq_true, beq_iff_eq] at hab hbc ⊢
  obtain ⟨⟨ha, hb⟩, rfl | ⟨hza, hzb⟩⟩ := hab
  · exact hbc
  · obtain ⟨⟨-, hc⟩, rfl | ⟨-, hzc⟩⟩ := hbc
    · exact ⟨⟨ha, hc⟩, Or.inr ⟨hza, hzb⟩⟩
    · exact ⟨⟨ha, hc⟩, Or.inr ⟨hza, hzc⟩⟩

/-- The literals that are compared by their bits. -/
def Lit.isPlain : Lit → Bool
  | .null | .char _ | .bool _ | .integer _ _ | .string _ => true
  | _ => false

/-- Two literals compare equal when they are one literal, or equal floating-point values. Kind: L -/
theorem compareAstNodes_eq_true {a b : Lit} :
    compareAstNodes a b = some true ↔
      (a = b ∧ a.isPlain = true) ∨ ∃ x y, a = .float x ∧ b = .float y ∧ floatEq x y = true := by
  cases a <;> cases b <;> simp [compareAstNodes, Lit.isPlain]

theorem compareAstNodes_symm {a b : Lit} (hab : compareAstNodes a b = some true) :
    compareAstNodes b a = some true := by
  rw [compareAstNodes_eq_true] at *
  obtain ⟨rfl, hplain⟩ | ⟨x, y, rfl, rfl, hxy⟩ := hab
  · exact Or.inl ⟨rfl, hplain⟩
  · exact Or.inr ⟨y, x, rfl, rfl, floatEq_symm hxy⟩

theorem compareAstNodes_trans {a b c : Lit} (hab : compareAstNodes a b = some true)
    (hbc : compareAstNodes b c = some true) : compareAstNodes a c = some true := by
  rw [compareAstNodes_eq_true] at *
  obtain ⟨rfl, -⟩ | ⟨x, y, rfl, rfl, hxy⟩ := hab
  · exact hbc
  · obtain ⟨rfl, -⟩ | ⟨y', z, hy, rfl, hyz⟩ := hbc
    · exact Or.inr ⟨x, y, rfl, rfl, hxy⟩
    · cases hy
      exact Or.inr ⟨x, z, rfl, rfl, floatEq_trans hxy hyz⟩

theorem sameScope_self (a : Option FuncDecl) : sameScope a a = true := by
  unfold sameScope
  cases a.bind (·.parentScope) <;> simp

theorem sameScope_symm {a b : Option FuncDecl} (hab : sameScope a b = true) :
    sameScope b a = true := by
  unfold sameScope at hab ⊢
  cases ha : a.bind (·.parentScope) <;> cases hb : b.bind (·.parentScope) <;> simp_all

theorem sameScope_trans {a b c : Option FuncDecl} (hknown : b.bind (·.parentScope) ≠ none)
    (hab : sameScope a b = true) (hbc : sameScope b c = true) : sameScope a c = true := by
  unfold sameScope at *
  cases ha : a.bind (·.parentScope) <;> cases hb : b.bind (·.parentScope) <;>
    cases hc : c.bind (·.parentScope) <;> simp_all

theorem forall₂_trans {as bs cs : List Addr}
    (hrec : ∀ a b c, rec a b = some true → rec b c = some true → rec a c = some true)
    (hab : List.Forall₂ (fun a b => rec a b = some true) as bs)
    (hbc : List.Forall₂ (fun a b => rec a b = some true) bs cs) :
    List.Forall₂ (fun a b => rec a b = some true) as cs := by
  induction hab generalizing cs with
  | nil => exact hbc
  | cons hab _ ih =>
      cases hbc with
      | cons hbc hrest => exact .cons (hrec _ _ _ hab hbc) (ih hrest)

/-! ## One layer of the laws -/

/-- Symmetry of one layer; the contents are not those of two anonymous structs, nor of two aliases
of which one is `Extern`. Kind: L -/
theorem BodyEq.symm (hrec : ∀ a b, rec a b = some true → rec b a = some true) {bl br : Body}
    (hext : ∀ a b, bl = .alias a → br = .alias b →
      hasFlag l flgExtern = hasFlag r flgExtern ∨ BodyEq rec r l br bl)
    (hanon : ∀ ms ms', bl = .struct (some ms) → br = .struct (some ms') →
      hasFlag l flgAnonymous = true → hasFlag r flgAnonymous = true →
      compareAnonymousStructs rec ms ms' ≠ some true)
    (hlr : BodyEq rec l r bl br) : BodyEq rec r l br bl := by
  cases hlr with
  | auto => exact .auto
  | error => exact .error
  | void => exact .void
  | null => exact .null
  | string => exact .string
  | literal heq => exact .literal (compareAstNodes_symm heq)
  | primitive => exact .primitive
  | pointer heq => exact .pointer (hrec _ _ heq)
  | reference heq => exact .reference (hrec _ _ heq)
  | array heq => exact .array (hrec _ _ heq)
  | map hkey hvalue => exact .map (hrec _ _ hkey) (hrec _ _ hvalue)
  | externAlias hflag hname =>
      obtain hsame | hlr := hext _ _ rfl rfl
      · exact .externAlias (hsame ▸ hflag) hname.symm
      · exact hlr
  | aliased hflag heq =>
      obtain hsame | hlr := hext _ _ rfl rfl
      · exact .aliased (hsame ▸ hflag) (hrec _ _ heq)
      · exact hlr
  | optional heq => exact .optional (hrec _ _ heq)
  | untaggedUnion hname => exact .untaggedUnion hname.symm
  | opaqueType hname => exact .opaqueType hname.symm
  | this => exact .this
  | tuple heq => exact .tuple (heq.flip.imp fun a b hab => hrec _ _ hab)
  | union heq => exact .union (heq.flip.imp fun a b hab => hrec _ _ hab)
  | func hname hscope hret heq =>
      exact .func hname.symm (fun hsome => sameScope_symm (hscope (hname ▸ hsome))) (hrec _ _ hret)
        (heq.flip.imp fun a b hab => hrec _ _ hab)
  | applied hsrc heq => exact .applied (hrec _ _ hsrc) (heq.flip.imp fun a b hab => hrec _ _ hab)
  | module => exact .module
  | anonymous hflagl hflagr heq => exact absurd heq (hanon _ _ rfl rfl hflagl hflagr)
  | struct hflag hname hns => exact .struct (by rw [Bool.and_comm]; exact hflag) hname.symm hns.symm
  | «class» hname hns => exact .class hname.symm hns.symm
  | enum hname hns => exact .enum hname.symm hns.symm
  | interface hname hns => exact .interface hname.symm hns.symm
  | generic hname hns => exact .generic hname.symm hns.symm
  | info heq => exact .info (hrec _ _ heq)
  | exception => exact .exception
  | result heq => exact .result (hrec _ _ heq)

/-- Transitivity of one layer: the types are not aliases of which one is `Extern`, no two of them
are anonymous structs, and the scope of the middle function is known or that of the outer ones
agrees. Kind: L -/
theorem BodyEq.trans
    (hrec : ∀ a b c, rec a b = some true → rec b c = some true → rec a c = some true)
    {bl br bt : Body}
    (hext : ∀ a b c, bl = .alias a → br = .alias b → bt = .alias c →
      hasFlag l flgExtern = hasFlag r flgExtern ∨ BodyEq rec l t bl bt)
    (hanon : ∀ ms ms', bl = .struct ms → br = .struct ms' →
      hasFlag l flgAnonymous = true → hasFlag r flgAnonymous = true → False)
    (hanon' : ∀ ms ms', br = .struct ms → bt = .struct ms' →
      hasFlag r flgAnonymous = true → hasFlag t flgAnonymous = true → False)
    (hwrapped : ∀ ms ms' ms'', bl = .struct ms → br = .struct ms' → bt = .struct ms'' →
      hasFlag l flgAnonymous = true → hasFlag r flgAnonymous = false →
      hasFlag t flgAnonymous = true → False)
    (hscope : ∀ as a d bs b d' cs c d'', bl = .func as a d → br = .func bs b d' →
      bt = .func cs c d'' → l.name.isSome = true → l.name = r.name → r.name = t.name →
      d'.bind (·.parentScope) = none → sameScope d d'' = true)
    (hlr : BodyEq rec l r bl br) (hrt : BodyEq rec r t br bt) : BodyEq rec l t bl bt := by
  cases hlr with
  | auto => cases hrt; exact .auto
  | error => cases hrt; exact .error
  | void => cases hrt; exact .void
  | null => cases hrt; exact .null
  | string => cases hrt; exact .string
  | literal heq =>
      cases hrt with
      | literal heq' => exact .literal (compareAstNodes_trans heq heq')
  | primitive => cases hrt; exact .primitive
  | pointer heq =>
      cases hrt with
      | pointer heq' => exact .pointer (hrec _ _ _ heq heq')
  | reference heq =>
      cases hrt with
      | reference heq' => exact .reference (hrec _ _ _ heq heq')
  | array heq =>
      cases hrt with
      | array heq' => exact .array (hrec _ _ _ heq heq')
  | map hkey hvalue =>
      cases hrt with
      | map hkey' hvalue' => exact .map (hrec _ _ _ hkey hkey') (hrec _ _ _ hvalue hvalue')
  | externAlias hflag hname =>
      cases hrt with
      | externAlias _ hname' => exact .externAlias hflag (hname.trans hname')
      | aliased hflag' _ =>
          obtain hsame | hlt := hext _ _ _ rfl rfl rfl
          · simp [hsame, hflag'] at hflag
          · exact hlt
  | aliased hflag heq =>
      cases hrt with
      | externAlias hflag' _ =>
          obtain hsame | hlt := hext _ _ _ rfl rfl rfl
          · simp [hsame, hflag'] at hflag
          · exact hlt
      | aliased _ heq' => exact .aliased hflag (hrec _ _ _ heq heq')
  | optional heq =>
      cases hrt with
      | optional heq' => exact .optional (hrec _ _ _ heq heq')
  | untaggedUnion hname =>
      cases hrt with
      | untaggedUnion hname' => exact .untaggedUnion (hname.trans hname')
  | opaqueType hname =>
      cases hrt with
      | opaqueType hname' => exact .opaqueType (hname.trans hname')
  | this => cases hrt; exact .this
  | tuple heq =>
      cases hrt with
      | tuple heq' => exact .tuple (forall₂_trans hrec heq heq')
  | union heq =>
      cases hrt with
      | union heq' => exact .union (forall₂_trans hrec heq heq')
  | @func as bs a b d d' hname hsame hret heq =>
      cases hrt with
      | func hname' hsame' hret' heq' =>
          refine .func (hname.trans hname') (fun hsome => ?_) (hrec _ _ _ hret hret')
            (forall₂_trans hrec heq heq')
          by_cases hknown : d'.bind (·.parentScope) = none
          · exact hscope _ _ _ _ _ _ _ _ _ rfl rfl rfl hsome hname hname' hknown
          · exact sameScope_trans hknown (hsame hsome) (hsame' (hname ▸ hsome))
  | applied hsrc heq =>
      cases hrt with
      | applied hsrc' heq' => exact .applied (hrec _ _ _ hsrc hsrc') (forall₂_trans hrec heq heq')
  | module => cases hrt; exact .module
  | anonymous hflagl hflagr _ => exact (hanon _ _ rfl rfl hflagl hflagr).elim
  | struct hflag hname hns =>
      cases hrt with
      | anonymous hflagr hflagt _ => exact (hanon' _ _ rfl rfl hflagr hflagt).elim
      | struct _ hname' hns' =>
          refine .struct ?_ (hname.trans hname') (hns.trans hns')
          by_contra hboth
          rw [Bool.not_eq_false, Bool.and_eq_true] at hboth
          rw [hboth.1, Bool.true_and] at hflag
          exact hwrapped _ _ _ rfl rfl rfl hboth.1 hflag hboth.2
  | «class» hname hns =>
      cases hrt with
      | «class» hname' hns' => exact .class (hname.trans hname') (hns.trans hns')
  | enum hname hns =>
      cases hrt with
      | enum hname' hns' => exact .enum (hname.trans hname') (hns.trans hns')
  | interface hname hns =>
      cases hrt with
      | interface hname' hns' => exact .interface (hname.trans hname') (hns.trans hns')
  | generic hname hns =>
      cases hrt with
      | generic hname' hns' => exact .generic (hname.trans hname') (hns.trans hns')
  | info heq =>
      cases hrt with
      | info heq' => exact .info (hrec _ _ _ heq heq')
  | exception => cases hrt; exact .exception
  | result heq =>
      cases hrt with
      | result heq' => exact .result (hrec _ _ _ heq heq')

/-! ## The equivalence -/

/-- A type compares equal to itself as soon as its wrappers can be taken off. Kind: P -/
theorem compareTypes_refl {n : ℕ} {a : Addr} (ha : unwrapType h (n + 1) a ≠ none) :
    compareTypes h (n + 1) a a = some true := by
  obtain ⟨⟨x, f⟩, hx⟩ := Option.ne_none_iff_exists'.mp ha
  exact Iff.mpr compareTypes_true_iff ⟨x, x, f, hx, hx, Or.inl rfl⟩

/-- Both types are structs, one of them not anonymous: they compare by name. Kind: L -/
theorem Ty.isAnonymous_of_body {t : Ty} {ms : Option (List Member)} (hbody : t.body = .struct ms) :
    t.isAnonymous = hasFlag t flgAnonymous := by
  rw [Ty.isAnonymous, hbody]

theorem compareTypes_symm (hu : Unambiguous h) (n : ℕ) : ∀ a b : Addr,
    compareTypes h n a b = some true → compareTypes h n b a = some true := by
  induction n with
  | zero => intro a b hab; simp [compareTypes] at hab
  | succ n ih =>
      intro a b hab
      obtain ⟨x, y, f, hx, hy, hxy⟩ := Iff.mp compareTypes_true_iff hab
      obtain rfl | ⟨hne, htag, hbody⟩ := hxy
      · exact Iff.mpr compareTypes_true_iff ⟨x, x, f, hy, hx, Or.inl rfl⟩
      have hux := unwrapped_of_eq hx
      have huy := unwrapped_of_eq hy
      by_cases hext : ∃ a b, (h.types x).body = .alias a ∧ (h.types y).body = .alias b ∧
          hasFlag (h.types x) flgExtern ≠ hasFlag (h.types y) flgExtern
      · obtain ⟨p, q, hp, hq, hflag⟩ := hext
        have hax : (h.types x).isAlias = true := by rw [Ty.isAlias, hp]
        have hay : (h.types y).isAlias = true := by rw [Ty.isAlias, hq]
        cases hfx : hasFlag (h.types x) flgExtern with
        | true =>
            have hfy : hasFlag (h.types y) flgExtern = false := by simpa [hfx] using hflag.symm
            exact (hu.externAlias _ a b x y hux huy hax hay hfx hfy).mp hab
        | false =>
            have hfy : hasFlag (h.types y) flgExtern = true := by simpa [hfx] using hflag.symm
            exact (hu.externAlias _ b a y x huy hux hay hax hfy hfx).mpr hab
      refine Iff.mpr compareTypes_true_iff
        ⟨y, x, f, hy, hx, Or.inr ⟨Ne.symm hne, htag.symm, Iff.mpr compareBody_eq_true ?_⟩⟩
      refine BodyEq.symm ih (fun p q hp hq => ?_) (fun ms ms' hms hms' hflag hflag' _ => ?_)
        (Iff.mp compareBody_eq_true hbody)
      · by_contra hnot
        exact hext ⟨p, q, hp, hq, fun hsame => hnot (Or.inl hsame)⟩
      · rw [← Ty.isAnonymous_of_body hms] at hflag
        rw [← Ty.isAnonymous_of_body hms'] at hflag'
        exact hne (hu.anonymous _ a b x y hab hux huy hflag hflag')

/-- Three aliases that are not all `Extern` themselves or none of them: symmetry turns a comparison
by the name into one by the aliased type, or the other way. Kind: L -/
theorem compareTypes_trans_alias (hu : Unambiguous h) {n : ℕ} {a b c x y z : Addr} {f : Flags}
    (ih : ∀ a b c : Addr, compareTypes h n a b = some true → compareTypes h n b c = some true →
      compareTypes h n a c = some true)
    (hab : compareTypes h (n + 1) a b = some true) (hbc : compareTypes h (n + 1) b c = some true)
    (hx : unwrapType h (n + 1) a = some (x, f)) (hy : unwrapType h (n + 1) b = some (y, f))
    (hz : unwrapType h (n + 1) c = some (z, f)) (hxy : x ≠ y) (hyz : y ≠ z) (hxz : x ≠ z)
    {p q r : Option Addr} (hp : (h.types x).body = .alias p) (hq : (h.types y).body = .alias q)
    (hr : (h.types z).body = .alias r) : compareTypes h (n + 1) a c = some true := by
  -- two aliases compare equal by the name of the left one or by the aliased types
  have hcmp : ∀ {a b x y : Addr} {p q : Option Addr}, unwrapType h (n + 1) a = some (x, f) →
      unwrapType h (n + 1) b = some (y, f) → x ≠ y → (h.types x).body = .alias p →
      (h.types y).body = .alias q → (compareTypes h (n + 1) a b = some true ↔
        if hasFlag (h.types x) flgExtern then (h.types x).name = (h.types y).name
        else ∃ s t, p = some s ∧ q = some t ∧ compareTypes h n s t = some true) := by
    intro a b x y p q hx hy hne hp hq
    rw [compareTypes_true_iff]
    have htag : (h.types x).tag = (h.types y).tag := by rw [Ty.tag, Ty.tag, hp, hq]; rfl
    have hbody : compareBody (compareTypes h n) (h.types x) (h.types y) = some true ↔
        if hasFlag (h.types x) flgExtern then (h.types x).name = (h.types y).name
        else ∃ s t, p = some s ∧ q = some t ∧ compareTypes h n s t = some true := by
      rw [compareBody_eq_true, hp, hq]
      constructor
      · intro heq
        cases heq with
        | externAlias hflag hname => rwa [if_pos hflag]
        | aliased hflag heq =>
            rw [if_neg (by simp [hflag])]
            exact ⟨_, _, rfl, rfl, heq⟩
      · intro heq
        split_ifs at heq with hflag
        · exact .externAlias hflag heq
        · obtain ⟨s, t, rfl, rfl, heq⟩ := heq
          exact .aliased (by simpa using hflag) heq
    rw [← hbody]
    constructor
    · rintro ⟨x', y', f', hx', hy', hor⟩
      obtain ⟨rfl, rfl⟩ := Prod.mk.inj (Option.some.inj (hx.symm.trans hx'))
      obtain ⟨rfl, -⟩ := Prod.mk.inj (Option.some.inj (hy.symm.trans hy'))
      exact (hor.resolve_left hne).2.2
    · intro hb
      exact ⟨x, y, f, hx, hy, Or.inr ⟨hne, htag, hb⟩⟩
  have hba := compareTypes_symm hu _ _ _ hab
  have hcb := compareTypes_symm hu _ _ _ hbc
  have hca : compareTypes h (n + 1) c a = some true → compareTypes h (n + 1) a c = some true :=
    compareTypes_symm hu _ _ _
  rw [hcmp hx hy hxy hp hq] at hab
  rw [hcmp hy hz hyz hq hr] at hbc
  rw [hcmp hy hx hxy.symm hq hp] at hba
  rw [hcmp hz hy hyz.symm hr hq] at hcb
  rw [hcmp hz hx hxz.symm hr hp, hcmp hx hz hxz hp hr] at hca
  rw [hcmp hx hz hxz hp hr]
  have halias : ∀ {p q r : Option Addr},
    (∃ s t, p = some s ∧ q = some t ∧ compareTypes h n s t = some true) →
      (∃ s t, q = some s ∧ r = some t ∧ compareTypes h n s t = some true) →
      ∃ s t, p = some s ∧ r = some t ∧ compareTypes h n s t = some true := by
    rintro p q r ⟨s, t, rfl, rfl, hst⟩ ⟨t', u, ht, rfl, htu⟩
    obtain rfl := Option.some.inj ht
    exact ⟨s, u, rfl, rfl, ih _ _ _ hst htu⟩
  have hflip : ∀ {p q : Option Addr},
    (∃ s t, p = some s ∧ q = some t ∧ compareTypes h n s t = some true) →
      ∃ s t, q = some s ∧ p = some t ∧ compareTypes h n s t = some true := by
    rintro p q ⟨s, t, rfl, rfl, hst⟩
    exact ⟨t, s, rfl, rfl, compareTypes_symm hu _ _ _ hst⟩
  cases hfx : hasFlag (h.types x) flgExtern <;> cases hfy : hasFlag (h.types y) flgExtern <;>
    cases hfz : hasFlag (h.types z) flgExtern <;>
    simp only [hfx, hfy, hfz, if_true, Bool.false_eq_true, if_false] at hab hbc hba hcb hca ⊢
  · exact halias hab hbc
  · exact halias hab hbc
  · exact halias hab (hflip hcb)
  · exact hca (hcb.trans hba)
  · exact hca (halias (hflip hbc) hba)
  · exact hab.trans hcb.symm
  · exact hab.trans hbc
  · exact hab.trans hbc

theorem compareTypes_trans (hu : Unambiguous h) (n : ℕ) : ∀ a b c : Addr,
    compareTypes h n a b = some true → compareTypes h n b c = some true →
      compareTypes h n a c = some true := by
  induction n with
  | zero => intro a b c hab; simp [compareTypes] at hab
  | succ n ih =>
      intro a b c hab hbc
      obtain ⟨x, y, f, hx, hy, hxy⟩ := Iff.mp compareTypes_true_iff hab
      obtain ⟨y', z, f', hy', hz, hyz⟩ := Iff.mp compareTypes_true_iff hbc
      rw [hy, Option.some.injEq, Prod.mk.injEq] at hy'
      obtain ⟨rfl, rfl⟩ := hy'
      obtain rfl | ⟨hne, htag, hbody⟩ := hxy
      · exact Iff.mpr compareTypes_true_iff ⟨x, z, f, hx, hz, hyz⟩
      obtain rfl | ⟨hne', htag', hbody'⟩ := hyz
      · exact Iff.mpr compareTypes_true_iff ⟨x, y, f, hx, hz, Or.inr ⟨hne, htag, hbody⟩⟩
      by_cases hxz : x = z
      · exact Iff.mpr compareTypes_true_iff ⟨x, z, f, hx, hz, Or.inl hxz⟩
      by_cases halias : ∃ p q r, (h.types x).body = .alias p ∧ (h.types y).body = .alias q ∧
          (h.types z).body = .alias r
      · obtain ⟨p, q, r, hp, hq, hr⟩ := halias
        exact compareTypes_trans_alias hu ih hab hbc hx hy hz hne hne' hxz hp hq hr
      have hux := unwrapped_of_eq hx
      have huy := unwrapped_of_eq hy
      have huz := unwrapped_of_eq hz
      refine Iff.mpr compareTypes_true_iff
        ⟨x, z, f, hx, hz, Or.inr ⟨hxz, htag.trans htag', Iff.mpr compareBody_eq_true ?_⟩⟩
      refine BodyEq.trans ih (fun p q r hp hq hr => absurd ⟨p, q, r, hp, hq, hr⟩ halias) ?_ ?_ ?_ ?_
        (Iff.mp compareBody_eq_true hbody) (Iff.mp compareBody_eq_true hbody')
      · intro ms ms' hms hms' hflag hflag'
        rw [← Ty.isAnonymous_of_body hms] at hflag
        rw [← Ty.isAnonymous_of_body hms'] at hflag'
        exact hne (hu.anonymous _ a b x y hab hux huy hflag hflag')
      · intro ms ms' hms hms' hflag hflag'
        rw [← Ty.isAnonymous_of_body hms] at hflag
        rw [← Ty.isAnonymous_of_body hms'] at hflag'
        exact hne' (hu.anonymous _ b c y z hbc huy huz hflag hflag')
      · intro ms ms' ms'' hms hms' hms'' hflag hflag' hflag''
        rw [← Ty.isAnonymous_of_body hms] at hflag
        rw [← Ty.isAnonymous_of_body hms'] at hflag'
        rw [← Ty.isAnonymous_of_body hms''] at hflag''
        exact hxz (hu.wrappedAnonymous _ a b c x y z hab hbc hux huy huz hflag hflag' hflag'')
      · intro as _ d bs _ d' cs _ d'' hl hr ht hsome hname hname' hunknown
        refine hu.scope _ a b c x y z d d' d'' hab hbc hux huy huz ?_ ?_ ?_ hunknown
        · rw [Ty.scope, hl]
          exact if_pos hsome
        · rw [Ty.scope, hr]
          exact if_pos (hname ▸ hsome)
        · rw [Ty.scope, ht]
          exact if_pos (hname' ▸ hname ▸ hsome)

theorem bodyEq_of_compareTypes {n : ℕ} {a b x y : Addr} (hab : compareTypes h n a b = some true)
    (hux : unwrapped h n a = some x) (huy : unwrapped h n b = some y) (hne : x ≠ y) :
    ∃ m, n = m + 1 ∧
      BodyEq (compareTypes h m) (h.types x) (h.types y) (h.types x).body (h.types y).body := by
  cases n with
  | zero => simp [compareTypes] at hab
  | succ m =>
      obtain ⟨x', y', f, hx, hy, hor⟩ := Iff.mp compareTypes_true_iff hab
      obtain rfl := Option.some.inj ((unwrapped_of_eq hx).symm.trans hux)
      obtain rfl := Option.some.inj ((unwrapped_of_eq hy).symm.trans huy)
      exact ⟨m, rfl, Iff.mp compareBody_eq_true (hor.resolve_left hne).2.2⟩

/-- Two anonymous structs that compare equal in both orders are one: the left one has three members
more. Kind: L -/
theorem anonymous_of_symm {n : ℕ} {a b x y : Addr} (hab : compareTypes h n a b = some true)
    (hba : compareTypes h n b a = some true) (hux : unwrapped h n a = some x)
    (huy : unwrapped h n b = some y) (hanonx : (h.types x).isAnonymous = true)
    (hanony : (h.types y).isAnonymous = true) : x = y := by
  have hcount : ∀ {a b x y : Addr}, compareTypes h n a b = some true → unwrapped h n a = some x →
      unwrapped h n b = some y → x ≠ y → ∀ {ms ms'}, (h.types x).body = .struct ms →
      (h.types y).body = .struct ms' → hasFlag (h.types x) flgAnonymous = true →
      hasFlag (h.types y) flgAnonymous = true →
      UInt64.ofNat (ms.getD []).length - 3 = UInt64.ofNat (ms'.getD []).length := by
    intro a b x y hab hux huy hne ms ms' hms hms' hflag hflag'
    obtain ⟨m, -, hbody⟩ := bodyEq_of_compareTypes hab hux huy hne
    rw [hms, hms'] at hbody
    cases hbody with
    | anonymous _ _ heq =>
        unfold compareAnonymousStructs at heq
        split_ifs at heq with hlen
        · simp at heq
        · exact not_not.mp hlen
    | struct hnot => simp [hflag, hflag'] at hnot
  by_contra hne
  unfold Ty.isAnonymous at hanonx hanony
  split at hanonx
  · rename_i ms hms
    split at hanony
    · rename_i ms' hms'
      have hxy := hcount hab hux huy hne hms hms' hanonx hanony
      have hyx := hcount hba huy hux (Ne.symm hne) hms' hms hanony hanonx
      grind
    · simp at hanony
  · simp at hanonx

/-- **`compareTypes` is an equivalence.** Reflexive on every type whose wrappers end, and symmetric
and transitive exactly on the unambiguous heaps. Kind: P -/
theorem compareTypes_equivalence (h : Heap) :
    (∀ n a, unwrapType h (n + 1) a ≠ none → compareTypes h (n + 1) a a = some true) ∧
    (((∀ n a b, compareTypes h n a b = some true → compareTypes h n b a = some true) ∧
      ∀ n a b c, compareTypes h n a b = some true → compareTypes h n b c = some true →
        compareTypes h n a c = some true) ↔ Unambiguous h) := by
  refine ⟨fun _ _ => compareTypes_refl, fun ⟨hsymm, htrans⟩ => ?_,
    fun hu => ⟨compareTypes_symm hu, compareTypes_trans hu⟩⟩
  constructor
  · intro n a b x y hab
    exact anonymous_of_symm hab (hsymm n a b hab)
  · intro n a b x y _ _ _ _ _ _
    exact ⟨hsymm n a b, hsymm n b a⟩
  · intro n a b c x y z hab hbc hux _ huz hanonx _ hanonz
    have hac := htrans n a b c hab hbc
    exact anonymous_of_symm hac (hsymm n a c hac) hux huz hanonx hanonz
  · intro n a b c x y z declX declY declZ hab hbc hux _ huz hx _ hz _
    by_cases hxz : x = z
    · subst hxz
      obtain rfl := Option.some.inj (hx.symm.trans hz)
      exact sameScope_self declX
    · obtain ⟨m, -, hbody⟩ := bodyEq_of_compareTypes (htrans n a b c hab hbc) hux huz hxz
      exact hbody.scopes hx hz

/-! ## Heaps -/

/-- A heap of the given types; every other address holds the error type. -/
def heapOf (types : List Ty) : Heap where
  types a := types.getD a ⟨flgNone, 0, none, none, .error⟩
  strings _ := []

/-- `i32`, `const ^i32` and `^i32`, and a `const` wrapper around the last. -/
def pointerHeap : Heap :=
  heapOf [⟨flgNone, 0, some 1, none, .primitive 10⟩, ⟨flgConst, 1, none, none, .pointer 0 false⟩,
    ⟨flgNone, 2, none, none, .pointer 0 false⟩, ⟨flgConst, 3, none, none, .wrapped 2⟩]

theorem pointerHeap_body (a : Addr) :
    (pointerHeap.types a).body ∈
      [Body.primitive 10, .pointer 0 false, .wrapped 2, .error] := by
  match a with
  | 0 | 1 | 2 | 3 => decide
  | a + 4 => simp [pointerHeap, heapOf]

/-- A heap without structs, aliases and functions. Kind: L -/
theorem unambiguous_of_body
    (hstruct : ∀ a, (h.types a).isAnonymous = false) (halias : ∀ a, (h.types a).isAlias = false)
    (hfunc : ∀ a, (h.types a).scope = none) : Unambiguous h where
  anonymous := by
    intro n a b x y _ _ _ hx
    simp [hstruct] at hx
  externAlias := by
    intro n a b x y _ _ hx
    simp [halias] at hx
  wrappedAnonymous := by
    intro n a b c x y z _ _ _ _ _ hx
    simp [hstruct] at hx
  scope := by
    intro n a b c x y z _ _ _ _ _ _ _ _ hx
    simp [hfunc] at hx

theorem pointerHeap_unambiguous : Unambiguous pointerHeap := by
  apply unambiguous_of_body <;> intro a <;> have ha := pointerHeap_body a <;>
    simp only [List.mem_cons, List.not_mem_nil, or_false] at ha <;>
    obtain ha | ha | ha | ha := ha <;> simp [Ty.isAnonymous, Ty.isAlias, Ty.scope, ha]

/-- The three laws at `const ^i32` and the `const` wrapper around `^i32`. Kind: L -/
theorem compareTypes_equivalence_pointers :
    compareTypes pointerHeap 3 3 3 = some true ∧ compareTypes pointerHeap 3 3 1 = some true ∧
      compareTypes pointerHeap 3 1 1 = some true := by
  obtain ⟨hrefl, hlaws⟩ := compareTypes_equivalence pointerHeap
  obtain ⟨hsymm, htrans⟩ := hlaws.mpr pointerHeap_unambiguous
  have hab : compareTypes pointerHeap 3 1 3 = some true := by decide
  exact ⟨hrefl 2 3 (by decide), hsymm 3 1 3 hab, htrans 3 1 3 1 hab (hsymm 3 1 3 hab)⟩

/-- Two anonymous structs with the field `x : i32`, the first with three generated members besides;
three functions `f` that differ in what is known of their scope; an extern alias of `i32` and an
alias of `void` of that name in an extern wrapper; two anonymous structs of one name, and a struct
of that name in an anonymous wrapper. -/
def ambiguousHeap : Heap :=
  heapOf [⟨flgNone, 0, some 1, none, .primitive 10⟩,
    ⟨flgAnonymous, 1, none, none, .struct (some [⟨2, 0, .fieldDecl⟩, ⟨3, 0, .other⟩,
      ⟨4, 0, .other⟩, ⟨5, 0, .other⟩])⟩,
    ⟨flgAnonymous, 2, none, none, .struct (some [⟨2, 0, .fieldExpr⟩])⟩,
    ⟨flgNone, 3, some 6, none, .func [] 0 (some ⟨some 7⟩)⟩,
    ⟨flgNone, 4, some 6, none, .func [] 0 none⟩,
    ⟨flgNone, 5, some 6, none, .func [] 0 (some ⟨some 8⟩)⟩,
    ⟨flgExtern, 6, some 9, none, .alias (some 0)⟩, ⟨flgNone, 7, some 9, none, .alias (some 9)⟩,
    ⟨flgExtern, 8, none, none, .wrapped 7⟩, ⟨flgNone, 9, none, none, .void⟩,
    ⟨flgAnonymous, 10, some 10, none, .struct (some [⟨2, 0, .fieldDecl⟩])⟩,
    ⟨flgNone, 11, some 10, none, .struct (some [])⟩, ⟨flgAnonymous, 12, none, none, .wrapped 11⟩,
    ⟨flgAnonymous, 13, some 10, none, .struct (some [])⟩]

/-- Symmetry fails for two anonymous structs and for two aliases, of which one is extern itself;
transitivity through a function of unknown scope and through a struct that has `Anonymous` from a
wrapper. Kind: P -/
theorem compareTypes_not_equivalence :
    (compareTypes ambiguousHeap 3 1 2 = some true ∧ compareTypes ambiguousHeap 3 2 1 = some false) ∧
      (compareTypes ambiguousHeap 3 3 4 = some true ∧ compareTypes ambiguousHeap 3 4 5 = some true ∧
        compareTypes ambiguousHeap 3 3 5 = some false) ∧
      (compareTypes ambiguousHeap 3 6 8 = some true ∧
        compareTypes ambiguousHeap 3 8 6 = some false) ∧
      compareTypes ambiguousHeap 3 10 12 = some true ∧
        compareTypes ambiguousHeap 3 12 13 = some true ∧
        compareTypes ambiguousHeap 3 10 13 = some false := by
  decide

end CxyCompiler.Frontend
