import CxyCompiler.Frontend.TypeHash

/-!
# What the hash and the comparison read

The type table updates types in place, so it matters which parts of the heap a hash or a comparison
depends on.

* `Ty.view` — a type without what is never read: its index, and the members of a named struct.
  `hashType_view` and `compareTypes_view` say that a heap and its view are hashed and compared
  alike.
* `Ty.refs` — the types read through a type; `Reaches h a b` is its transitive closure.
* `hashType_frame`, `compareTypes_frame` — two heaps that agree on a set closed under `refs` are
  hashed and compared alike on it.
-/

namespace CxyCompiler.Frontend

open CxyCompiler.Core

variable {h h' : Heap}

/-! ## The types read through a type -/

/-- The types that the hash and the comparison read through a type. -/
def Ty.refs (t : Ty) : List Addr :=
  match t.body with
  | .info a | .reference a | .optional a | .wrapped a | .result a => [a]
  | .pointer a _ | .array _ a => [a]
  | .map k v => [k, v]
  | .this (some a) => [a]
  | .alias (some a) => [a]
  | .opaqueType (some (some a)) => [a]
  | .union as | .tuple as => as
  | .func as a _ => a :: as
  | .applied a as => a :: as
  | .struct (some ms) => if hasFlag t flgAnonymous then ms.map (·.type) else []
  | _ => []

/-- A set of addresses that no read leaves. -/
def Closed (S : Addr → Prop) (h : Heap) : Prop := ∀ a, S a → ∀ c ∈ (h.types a).refs, S c

/-- The heaps agree on a set of addresses, and on the strings. -/
structure AgreeOn (S : Addr → Prop) (h h' : Heap) : Prop where
  types : ∀ a, S a → h'.types a = h.types a
  strings : h'.strings = h.strings
  closed : Closed S h

variable {S : Addr → Prop}

theorem unwrapLoop_frame (hS : AgreeOn S h h') : ∀ (n : ℕ) (tmp : Flags) (a : Addr), S a →
    unwrapLoop h' n tmp a = unwrapLoop h n tmp a ∧
      ∀ x f, unwrapLoop h n tmp a = some (x, f) → S x := by
  intro n
  induction n with
  | zero => intro tmp a _; simp [unwrapLoop]
  | succ n ih =>
      intro tmp a ha
      rw [unwrapLoop, unwrapLoop, hS.types a ha]
      cases hb : (h.types a).body
      case wrapped target => exact ih _ target (hS.closed a ha target (by simp [Ty.refs, hb]))
      all_goals
        refine ⟨rfl, fun x f hx => ?_⟩
        simp only [Option.some.injEq, Prod.mk.injEq] at hx
        exact hx.1 ▸ ha

theorem resolveType_frame (hS : AgreeOn S h h') : ∀ (n : ℕ) (a : Option Addr),
    (∀ x ∈ a, S x) → resolveType h' n a = resolveType h n a ∧
      ∀ x, resolveType h n a = some (some x) → S x := by
  intro n
  induction n with
  | zero =>
      intro a ha
      cases a <;> simp [resolveType]
  | succ n ih =>
      intro a ha
      cases a with
      | none => simp [resolveType]
      | some a =>
          have hSa : S a := ha a rfl
          rw [resolveType, resolveType, hS.types a hSa]
          cases hb : (h.types a).body
          case «alias» aliased =>
            refine ih aliased fun x hx => hS.closed a hSa x ?_
            rw [Option.mem_def] at hx
            simp [Ty.refs, hb, hx]
          case info target =>
            refine ih (some target) fun x hx => ?_
            rw [Option.mem_some] at hx
            exact hx ▸ hS.closed a hSa target (by simp [Ty.refs, hb])
          case opaqueType decl =>
            dsimp only
            split_ifs
            · cases decl with
              | none => simp
              | some type =>
                  obtain ⟨heq, hin⟩ := ih type fun x hx => hS.closed a hSa x (by
                    rw [Option.mem_def] at hx
                    simp [Ty.refs, hb, hx])
                  simp only [Option.bind_eq_bind, Option.bind_some, heq, true_and]
                  intro x hx
                  cases hr : resolveType h n type with
                  | none => simp [hr] at hx
                  | some r =>
                      cases r with
                      | none => simp [hr] at hx; exact hx ▸ hSa
                      | some r => simp [hr] at hx; exact hx ▸ hin r hr
            · simp
              exact hSa
          all_goals
            simp
            exact hSa

theorem isOrThisIs_frame (hS : AgreeOn S h h') (tag : TTag) {a : Addr} (ha : S a) :
    isOrThisIs h' tag a = isOrThisIs h tag a := by
  unfold isOrThisIs
  rw [hS.types a ha]
  cases hb : (h.types a).body
  case this that =>
    cases that with
    | none => rfl
    | some that =>
        dsimp only
        rw [hS.types that (hS.closed a ha that (by simp [Ty.refs, hb]))]
  all_goals rfl

theorem hashedFlags_frame (hS : AgreeOn S h h') (n : ℕ) {a : Addr} (ha : S a) :
    hashedFlags h' n a = hashedFlags h n a := by
  have hclass : isClassType h' n a = isClassType h n a := by
    obtain ⟨heq, hin⟩ := resolveType_frame hS n (some a) (by simpa using ha)
    unfold isClassType
    rw [heq]
    cases hr : resolveType h n (some a) with
    | none => rfl
    | some r =>
        cases r with
        | none => rfl
        | some x =>
            have hx := hin x hr
            obtain ⟨hun, hunin⟩ := unwrapLoop_frame hS n flgNone x hx
            simp only [Option.bind_eq_bind, Option.bind_some, unwrapType, hun]
            rcases hu : unwrapLoop h n flgNone x with _ | ⟨y, f⟩
            · rfl
            · simp [isOrThisIs_frame hS .class (hunin y f hu)]
  have hstruct : isStructType h' n a = isStructType h n a := by
    obtain ⟨hun, hunin⟩ := unwrapLoop_frame hS n flgNone a ha
    unfold isStructType unwrapType
    rw [hun]
    rcases hu : unwrapLoop h n flgNone a with _ | ⟨y, f⟩
    · rfl
    · simp [isOrThisIs_frame hS .struct (hunin y f hu)]
  unfold hashedFlags isClassOrStructType
  rw [hclass, hstruct, hS.types a ha]

theorem hashTypes_frame (hS : AgreeOn S h h') (hash : HashCode) {as : List Addr}
    (has : ∀ a ∈ as, S a) : hashTypes h' hash as = hashTypes h hash as := by
  unfold hashTypes
  induction as generalizing hash with
  | nil => rw [List.foldl_nil, List.foldl_nil]
  | cons a as ih =>
      rw [List.foldl_cons, List.foldl_cons, hS.types a (has a (by simp)),
        ih _ fun b hb => has b (by simp [hb])]

theorem hashAstNode_strings (hstr : h'.strings = h.strings) (hash : HashCode) (v : Lit) :
    hashAstNode h' hash v = hashAstNode h hash v := by
  induction v generalizing hash with
  | integer _ _ | bool _ | char _ | float _ | null | enumLit => rfl
  | string value => rw [hashAstNode, hashAstNode, hstr]
  | typed _ ih | cast _ ih | group _ ih | unary _ ih => exact ih hash

theorem foldlM_congr {α β : Type} {f g : α → β → Option α} {l : List β}
    (hfg : ∀ b ∈ l, ∀ a, f a b = g a b) (a : α) : l.foldlM f a = l.foldlM g a := by
  induction l generalizing a with
  | nil => rfl
  | cons b l ih =>
      rw [List.foldlM_cons, List.foldlM_cons, hfg b (by simp)]
      congr 1
      funext a
      exact ih (fun c hc => hfg c (by simp [hc])) a

/-- One layer of the hash reads the types referred to and the strings. Kind: L -/
theorem hashBody_frame (hS : AgreeOn S h h') {rec rec' : HashCode → Addr → Option HashCode} {t : Ty}
    (hrefs : ∀ a ∈ t.refs, S a) (hrec : ∀ a, S a → ∀ hash, rec' hash a = rec hash a)
    (hash : HashCode) : hashBody h' rec' t hash = hashBody h rec t hash := by
  have hname : ∀ hash name, hashNameIfAny h' hash name = hashNameIfAny h hash name := by
    intro hash name
    cases name <;> simp [hashNameIfAny, hS.strings]
  unfold hashBody
  unfold Ty.refs at hrefs
  cases hb : t.body <;> simp only [hb] at hrefs ⊢
  case literal v => exact hashAstNode_strings hS.strings hash v
  case pointer a alloc => exact hrec a (hrefs a (by simp)) _
  case reference a => exact hrec a (hrefs a (by simp)) _
  case optional a => exact hrec a (hrefs a (by simp)) _
  case info a => exact hrec a (hrefs a (by simp)) _
  case wrapped a => exact hrec a (hrefs a (by simp)) _
  case result a => exact hrec a (hrefs a (by simp)) _
  case array len a => rw [hrec a (hrefs a (by simp))]
  case map k v =>
    rw [hrec k (hrefs k (by simp))]
    congr 1
    funext hash
    exact hrec v (hrefs v (by simp)) _
  case «alias» a =>
    cases a with
    | none => simp [hashName, hS.strings]
    | some a =>
        have hSa := hrec a (hrefs a (by simp))
        simp [hashName, hS.strings, hSa]
  case untaggedUnion => simp [hashName, hS.strings]
  case opaqueType d => simp [hashName, hS.strings]
  case container => simp [hashName, hS.strings]
  case union as => rw [hashTypes_frame hS hash hrefs]
  case tuple as => rw [hashTypes_frame hS hash hrefs]
  case func as a d =>
    rw [hname, hashTypes_frame hS _ fun b hb => hrefs b (by simp [hb])]
    exact hrec a (hrefs a (by simp)) _
  case applied a as =>
    rw [hrec a (hrefs a (by simp))]
    congr 1
    funext hash
    rw [hashTypes_frame hS _ fun b hb => hrefs b (by simp [hb])]
  case struct ms =>
    by_cases hanon : hasFlag t flgAnonymous = true
    · rw [if_pos hanon, if_pos hanon]
      cases ms with
      | none => rfl
      | some ms =>
          simp only [hanon, if_true, List.mem_map] at hrefs
          simp only [Option.bind_eq_bind, Option.bind_some, hS.strings]
          refine foldlM_congr (fun m hm hash => ?_) hash
          exact hrec m.type (hrefs _ ⟨m, (List.mem_filter.mp hm).1, rfl⟩) _
    · rw [if_neg hanon, if_neg hanon, hname, hname]
  case enum => rw [hname, hname]
  case module p => rw [hname, hname]
  case generic c d => rw [hname]

/-- Two heaps that agree on a closed set are hashed alike on it. Kind: P -/
theorem hashType_frame (hS : AgreeOn S h h') (n : ℕ) : ∀ a, S a → ∀ hash,
    hashType h' n hash a = hashType h n hash a := by
  induction n with
  | zero => intro a _ hash; rfl
  | succ n ih =>
      intro a ha hash
      have hlayer := fun hash => hashBody_frame hS (hS.closed a ha) ih hash
      rw [hashType, hashType, hashedFlags_frame hS (n + 1) ha, hS.types a ha]
      congr 1
      funext flags
      cases flags with
      | none => exact hlayer _
      | some flags => exact hlayer _

theorem compareManyTypes_congr {rec rec' : Addr → Addr → Option Bool} :
    ∀ as bs : List Addr, (∀ a ∈ as, ∀ b ∈ bs, rec' a b = rec a b) →
      compareManyTypes rec' as bs = compareManyTypes rec as bs
  | [], [], _ => rfl
  | [], _ :: _, _ => rfl
  | _ :: _, [], _ => rfl
  | a :: as, b :: bs, hrec => by
      rw [compareManyTypes, compareManyTypes, hrec a (by simp) b (by simp),
        compareManyTypes_congr as bs fun a ha b hb => hrec a (by simp [ha]) b (by simp [hb])]

theorem compareFields_congr {rec rec' : Addr → Addr → Option Bool} :
    ∀ ls rs : List Member, (∀ l ∈ ls, ∀ r ∈ rs, rec' l.type r.type = rec l.type r.type) →
      compareFields rec' ls rs = compareFields rec ls rs
  | [], [], _ => rfl
  | [], _ :: _, _ => rfl
  | _ :: _, [], _ => rfl
  | l :: ls, r :: rs, hrec => by
      rw [compareFields, compareFields, hrec l (by simp) r (by simp),
        compareFields_congr ls rs fun a ha b hb => hrec a (by simp [ha]) b (by simp [hb])]

/-- One layer of the comparison reads the types referred to. Kind: L -/
theorem compareBody_congr {rec rec' : Addr → Addr → Option Bool} {l r : Ty}
    (hrec : ∀ a ∈ l.refs, ∀ b ∈ r.refs, rec' a b = rec a b) :
    compareBody rec' l r = compareBody rec l r := by
  unfold compareBody
  split <;> try rfl
  all_goals split <;> try rfl
  · rename_i a _ hl _ b _ hr
    rw [hrec a (by simp [Ty.refs, hl]) b (by simp [Ty.refs, hr])]
  · rename_i a hl _ b hr
    exact hrec a (by simp [Ty.refs, hl]) b (by simp [Ty.refs, hr])
  · rename_i _ a hl _ _ b hr
    rw [hrec a (by simp [Ty.refs, hl]) b (by simp [Ty.refs, hr])]
  · rename_i k v hl _ k' v' hr
    rw [hrec k (by simp [Ty.refs, hl]) k' (by simp [Ty.refs, hr]),
      hrec v (by simp [Ty.refs, hl]) v' (by simp [Ty.refs, hr])]
  · rename_i a hl _ b hr
    cases a with
    | none => rfl
    | some a =>
        cases b with
        | none => rfl
        | some b =>
            have hab := hrec a (by simp [Ty.refs, hl]) b (by simp [Ty.refs, hr])
            simp only [Option.bind_eq_bind, Option.bind_some, hab]
  · rename_i a hl _ b hr
    exact hrec a (by simp [Ty.refs, hl]) b (by simp [Ty.refs, hr])
  · rename_i as hl _ bs hr
    rw [compareManyTypes_congr as bs fun a ha b hb =>
      hrec a (by simpa [Ty.refs, hl] using ha) b (by simpa [Ty.refs, hr] using hb)]
  · rename_i as hl _ bs hr
    rw [compareManyTypes_congr as bs fun a ha b hb =>
      hrec a (by simpa [Ty.refs, hl] using ha) b (by simpa [Ty.refs, hr] using hb)]
  · rename_i as a _ hl _ bs b _ hr
    rw [hrec a (by simp [Ty.refs, hl]) b (by simp [Ty.refs, hr]),
      compareManyTypes_congr as bs fun c hc d hd =>
        hrec c (by simp [Ty.refs, hl, hc]) d (by simp [Ty.refs, hr, hd])]
  · rename_i a as hl _ b bs hr
    rw [hrec a (by simp [Ty.refs, hl]) b (by simp [Ty.refs, hr]),
      compareManyTypes_congr as bs fun c hc d hd =>
        hrec c (by simp [Ty.refs, hl, hc]) d (by simp [Ty.refs, hr, hd])]
  · rename_i ms hl _ ms' hr
    by_cases hanon : (hasFlag l flgAnonymous && hasFlag r flgAnonymous) = true
    · rw [if_pos hanon, if_pos hanon]
      rw [Bool.and_eq_true] at hanon
      cases ms with
      | none => rfl
      | some ms =>
          cases ms' with
          | none => rfl
          | some ms' =>
              simp only [Option.bind_eq_bind, Option.bind_some, compareAnonymousStructs]
              rw [compareFields_congr _ _ fun m hm m' hm' => ?_]
              refine hrec m.type ?_ m'.type ?_
              · simp only [Ty.refs, hl, hanon.1, if_true]
                exact List.mem_map_of_mem (List.mem_filter.mp hm).1
              · simp only [Ty.refs, hr, hanon.2, if_true]
                exact List.mem_map_of_mem (List.mem_filter.mp hm').1
    · rw [if_neg hanon, if_neg hanon]
  · rename_i a hl _ b hr
    exact hrec a (by simp [Ty.refs, hl]) b (by simp [Ty.refs, hr])
  · rename_i a hl _ b hr
    exact hrec a (by simp [Ty.refs, hl]) b (by simp [Ty.refs, hr])

/-- Two heaps that agree on a closed set are compared alike on it. Kind: P -/
theorem compareTypes_frame (hS : AgreeOn S h h') (n : ℕ) : ∀ a b, S a → S b →
    compareTypes h' n a b = compareTypes h n a b := by
  induction n with
  | zero => intro a b _ _; rfl
  | succ n ih =>
      intro a b ha hb
      obtain ⟨hxeq, hxin⟩ := unwrapLoop_frame hS (n + 1) flgNone a ha
      obtain ⟨hyeq, hyin⟩ := unwrapLoop_frame hS (n + 1) flgNone b hb
      rw [compareTypes, compareTypes, unwrapType, unwrapType, unwrapType, unwrapType, hxeq, hyeq]
      rcases hx : unwrapLoop h (n + 1) flgNone a with _ | ⟨x, f⟩
      · rfl
      rcases hy : unwrapLoop h (n + 1) flgNone b with _ | ⟨y, g⟩
      · rfl
      have hSx := hxin x f hx
      have hSy := hyin y g hy
      have hbody : compareBody (compareTypes h' n) (h.types x) (h.types y) =
          compareBody (compareTypes h n) (h.types x) (h.types y) :=
        compareBody_congr fun c hc d hd => ih c d (hS.closed x hSx c hc) (hS.closed y hSy d hd)
      simp only [Option.bind_eq_bind, Option.bind_some, hS.types x hSx, hS.types y hSy, hbody]

/-! ## What is never read -/

/-- A type without its index and, for a named struct, its members. -/
def Ty.view (t : Ty) : Ty :=
  { t with
    index := 0
    body := match t.body with
      | .struct ms => if hasFlag t flgAnonymous then .struct ms else .struct none
      | b => b }

/-- A heap of views. -/
def Heap.view (h : Heap) : Heap := { h with types := fun a => (h.types a).view }

@[simp] theorem Ty.view_flags (t : Ty) : t.view.flags = t.flags := rfl
@[simp] theorem Ty.view_name (t : Ty) : t.view.name = t.name := rfl
@[simp] theorem Ty.view_ns (t : Ty) : t.view.ns = t.ns := rfl
@[simp] theorem Heap.view_types (h : Heap) (a : Addr) : h.view.types a = (h.types a).view := rfl
@[simp] theorem Heap.view_strings (h : Heap) : h.view.strings = h.strings := rfl
@[simp] theorem hasFlag_view (t : Ty) (flag : Flags) : hasFlag t.view flag = hasFlag t flag := rfl

/-- The view changes the contents of named structs only. Kind: L -/
theorem Ty.view_body (t : Ty) :
    t.view.body = t.body ∨
      ∃ ms, t.body = .struct ms ∧ t.view.body = .struct none ∧ hasFlag t flgAnonymous = false := by
  unfold Ty.view
  cases hb : t.body
  case struct ms =>
    by_cases hanon : hasFlag t flgAnonymous = true
    · simp [hanon]
    · simp [hanon]
  all_goals exact Or.inl rfl

@[simp] theorem Ty.view_tag (t : Ty) : t.view.tag = t.tag := by
  unfold Ty.tag
  obtain heq | ⟨ms, hb, hview, -⟩ := t.view_body
  · rw [heq]
  · rw [hb, hview]
    rfl

theorem unwrapLoop_view : ∀ (n : ℕ) (tmp : Flags) (a : Addr),
    unwrapLoop h.view n tmp a = unwrapLoop h n tmp a := by
  intro n
  induction n with
  | zero => intro tmp a; rfl
  | succ n ih =>
      intro tmp a
      rw [unwrapLoop, unwrapLoop, Heap.view_types]
      obtain heq | ⟨ms, hb, hview, -⟩ := (h.types a).view_body
      · rw [heq]
        cases hb : (h.types a).body
        case wrapped target => exact ih _ target
        all_goals rfl
      · rw [hview, hb]
        rfl

theorem resolveType_view : ∀ (n : ℕ) (a : Option Addr),
    resolveType h.view n a = resolveType h n a := by
  intro n
  induction n with
  | zero => intro a; cases a <;> rfl
  | succ n ih =>
      intro a
      cases a with
      | none => rfl
      | some a =>
          rw [resolveType, resolveType, Heap.view_types]
          obtain heq | ⟨ms, hb, hview, -⟩ := (h.types a).view_body
          · rw [heq]
            cases hb : (h.types a).body
            case «alias» aliased => exact ih aliased
            case info target => exact ih _
            case opaqueType decl => simp only [hasFlag_view, ih]
            all_goals rfl
          · rw [hview, hb]

theorem isOrThisIs_view (tag : TTag) (a : Addr) : isOrThisIs h.view tag a = isOrThisIs h tag a := by
  unfold isOrThisIs
  rw [Heap.view_types]
  obtain heq | ⟨ms, hb, hview, -⟩ := (h.types a).view_body
  · rw [heq]
    cases hb : (h.types a).body
    case this that =>
      cases that with
      | none => simp
      | some that => simp
    all_goals simp
  · rw [hview, hb]
    simp

theorem hashedFlags_view (n : ℕ) (a : Addr) : hashedFlags h.view n a = hashedFlags h n a := by
  unfold hashedFlags isClassOrStructType isClassType isStructType unwrapType
  simp only [resolveType_view, unwrapLoop_view, isOrThisIs_view, Heap.view_types, Ty.view_flags]

theorem hashBody_view {rec : HashCode → Addr → Option HashCode} (t : Ty) (hash : HashCode) :
    hashBody h.view rec t.view hash = hashBody h rec t hash := by
  have htypes : ∀ hash as, hashTypes h.view hash as = hashTypes h hash as := by
    intro hash as
    unfold hashTypes
    simp only [Heap.view_types, Ty.view_tag]
  have hlit : ∀ hash v, hashAstNode h.view hash v = hashAstNode h hash v :=
    hashAstNode_strings rfl
  have hname : ∀ hash name, hashNameIfAny h.view hash name = hashNameIfAny h hash name := by
    intro hash name
    cases name <;> rfl
  have hname' : ∀ hash name, hashName h.view hash name = hashName h hash name := fun _ _ => rfl
  unfold hashBody
  obtain heq | ⟨ms, hb, hview, hanon⟩ := t.view_body
  · rw [heq]
    simp only [htypes, hlit, hname, hname', hasFlag_view, Ty.view_name, Ty.view_ns,
      Heap.view_strings]
  · rw [hview, hb]
    simp only [hasFlag_view, hanon, hname, Ty.view_name, Ty.view_ns]
    rfl

/-- A heap and its view are hashed alike. Kind: P -/
theorem hashType_view (n : ℕ) : ∀ hash a, hashType h.view n hash a = hashType h n hash a := by
  induction n with
  | zero => intro hash a; rfl
  | succ n ih =>
      intro hash a
      have hrec : hashType h.view n = hashType h n := by
        funext hash a
        exact ih hash a
      rw [hashType, hashType, hashedFlags_view, hrec]
      simp only [Heap.view_types, hashBody_view, Ty.view_tag]

theorem compareBody_view {rec : Addr → Addr → Option Bool} (l r : Ty) :
    compareBody rec l.view r.view = compareBody rec l r := by
  unfold compareBody
  obtain hl | ⟨ms, hbl, hvl, hal⟩ := l.view_body
  · obtain hr | ⟨ms', hbr, hvr, har⟩ := r.view_body
    · rw [hl, hr]
      rfl
    · simp only [hl, hvr, hbr, hasFlag_view, Ty.view_name, Ty.view_ns]
      cases hb : l.body <;> simp [har]
  · obtain hr | ⟨ms', hbr, hvr, har⟩ := r.view_body
    · simp only [hvl, hbl, hr, hasFlag_view, Ty.view_name, Ty.view_ns]
      cases hb : r.body <;> simp [hal]
    · simp [hvl, hbl, hvr, hbr, hal]

/-- A heap and its view are compared alike. Kind: P -/
theorem compareTypes_view (n : ℕ) : ∀ a b, compareTypes h.view n a b = compareTypes h n a b := by
  induction n with
  | zero => intro a b; rfl
  | succ n ih =>
      intro a b
      have hrec : compareTypes h.view n = compareTypes h n := by
        funext a b
        exact ih a b
      rw [compareTypes, compareTypes, hrec]
      simp only [unwrapType, unwrapLoop_view, Heap.view_types, Ty.view_tag, compareBody_view]

/-- Heaps with one view are hashed and compared alike. Kind: L -/
theorem hashType_of_view_eq (hview : h.view = h'.view) (n : ℕ) (hash : HashCode) (a : Addr) :
    hashType h' n hash a = hashType h n hash a := by
  rw [← hashType_view, ← hview, hashType_view]

theorem compareTypes_of_view_eq (hview : h.view = h'.view) (n : ℕ) (a b : Addr) :
    compareTypes h' n a b = compareTypes h n a b := by
  rw [← compareTypes_view, ← hview, compareTypes_view]

/-! ## Writing a type -/

/-- Write one type. -/
def Heap.set (h : Heap) (a : Addr) (t : Ty) : Heap :=
  { h with types := fun b => if b = a then t else h.types b }

@[simp] theorem Heap.set_self (h : Heap) (a : Addr) (t : Ty) : (h.set a t).types a = t := by
  simp [Heap.set]

theorem Heap.set_of_ne (h : Heap) {a b : Addr} (t : Ty) (hab : b ≠ a) :
    (h.set a t).types b = h.types b := by
  simp [Heap.set, hab]

end CxyCompiler.Frontend
