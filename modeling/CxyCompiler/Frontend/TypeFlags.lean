import CxyCompiler.Frontend.TypeFrame

/-!
# Adding flags to a class or a named struct

`updateStructType` and `updateClassType` set flags of a type that may be stored and referred to.
The flags of structs and classes are not hashed, but they are compared, their own and those of
their wrappers.

* `Ty.IsNamed` — a class, or a struct that is not anonymous.
* `hashType_addFlags` — the flags added change no hash.
* `OnlyOfItsName` — the type has no wrapper and no namesake.
* `compareTypes_addFlags` — **then the flags added make no two types equal.**
-/

namespace CxyCompiler.Frontend

open CxyCompiler.Core

variable {h h' : Heap}

/-- `type->flags |= flags`. -/
def Heap.addFlags (h : Heap) (s : Addr) (flags : Flags) : Heap :=
  h.set s { h.types s with flags := (h.types s).flags ||| flags }

/-- A class, or a struct that is not anonymous. -/
def Ty.IsNamed (t : Ty) : Prop :=
  t.tag = .class ∨ t.tag = .struct ∧ hasFlag t flgAnonymous = false

instance (t : Ty) : Decidable t.IsNamed := inferInstanceAs (Decidable (_ ∨ _))

theorem Ty.IsNamed.body {t : Ty} (ht : t.IsNamed) :
    t.body = .class ∨ ∃ members, t.body = .struct members := by
  unfold Ty.IsNamed Ty.tag at ht
  cases hb : t.body <;> simp [hb, Body.tag] at ht ⊢

theorem Ty.IsNamed.not_wrapped {t : Ty} (ht : t.IsNamed) (a : Addr) : t.body ≠ .wrapped a := by
  obtain hb | ⟨members, hb⟩ := ht.body <;> simp [hb]

section addFlags

variable {s : Addr} {flags : Flags}

theorem addFlags_of_ne {a : Addr} (ha : a ≠ s) : (h.addFlags s flags).types a = h.types a :=
  h.set_of_ne _ ha

@[simp] theorem addFlags_body (a : Addr) :
    ((h.addFlags s flags).types a).body = (h.types a).body := by
  by_cases ha : a = s
  · subst ha
    simp [Heap.addFlags]
  · rw [addFlags_of_ne ha]

@[simp] theorem addFlags_tag (a : Addr) :
    ((h.addFlags s flags).types a).tag = (h.types a).tag := by
  rw [Ty.tag, Ty.tag, addFlags_body]

theorem unwrapLoop_addFlags : ∀ (n : ℕ) (tmp tmp' : Flags) (a : Addr),
    (unwrapLoop (h.addFlags s flags) n tmp a).map (·.1) = (unwrapLoop h n tmp' a).map (·.1) := by
  intro n
  induction n with
  | zero => intro tmp tmp' a; rfl
  | succ n ih =>
      intro tmp tmp' a
      rw [unwrapLoop, unwrapLoop, addFlags_body]
      cases hb : (h.types a).body
      case wrapped target => exact ih _ _ target
      all_goals rfl

theorem isOrThisIs_addFlags (tag : TTag) (a : Addr) :
    isOrThisIs (h.addFlags s flags) tag a = isOrThisIs h tag a := by
  unfold isOrThisIs
  simp only [addFlags_body, addFlags_tag]

theorem resolveType_addFlags (hs : (h.types s).IsNamed) : ∀ (n : ℕ)
    (a : Option Addr), resolveType (h.addFlags s flags) n a = resolveType h n a := by
  intro n
  induction n with
  | zero => intro a; cases a <;> rfl
  | succ n ih =>
      intro a
      cases a with
      | none => rfl
      | some a =>
          rw [resolveType, resolveType, addFlags_body]
          cases hb : (h.types a).body
          case «alias» aliased => exact ih aliased
          case info target => exact ih _
          case opaqueType decl =>
            have ha : a ≠ s := by
              rintro rfl
              obtain hb' | ⟨members, hb'⟩ := hs.body <;> simp [hb'] at hb
            simp only [addFlags_of_ne ha, ih]
          all_goals rfl

theorem isClassOrStructType_addFlags (hs : (h.types s).IsNamed) (n : ℕ) (a : Addr) :
    isClassOrStructType (h.addFlags s flags) n a = isClassOrStructType h n a := by
  have hstruct : ∀ (h : Heap) (a : Addr), isStructType h n a =
      ((unwrapLoop h n flgNone a).map (·.1)).map (isOrThisIs h .struct) := by
    intro h a
    unfold isStructType unwrapType
    cases unwrapLoop h n flgNone a <;> rfl
  have hclass : ∀ (h : Heap) (a : Addr), isClassType h n a = (resolveType h n (some a)).bind
      fun r => r.elim (some false) fun resolved =>
        ((unwrapLoop h n flgNone resolved).map (·.1)).map (isOrThisIs h .class) := by
    intro h a
    unfold isClassType unwrapType
    cases resolveType h n (some a) with
    | none => rfl
    | some r =>
        cases r with
        | none => rfl
        | some resolved => cases hun : unwrapLoop h n flgNone resolved <;> simp [hun]
  have htag : ∀ tag, isOrThisIs (h.addFlags s flags) tag = isOrThisIs h tag := by
    intro tag
    funext a
    exact isOrThisIs_addFlags tag a
  unfold isClassOrStructType
  simp only [hstruct, hclass, resolveType_addFlags hs, unwrapLoop_addFlags n flgNone flgNone, htag]

theorem isClassOrStructType_named (hs : (h.types s).IsNamed) (n : ℕ) :
    isClassOrStructType h (n + 1) s = some true := by
  obtain hb | ⟨members, hb⟩ := hs.body
  all_goals
    have hun : unwrapType h (n + 1) s = some (s, (flgNone ||| (h.types s).flags) &&&
        flgTypeApplicable) := by
      rw [unwrapType, unwrapLoop, hb]
    have hres : resolveType h (n + 1) (some s) = some (some s) := by
      rw [resolveType, hb]
    simp [isClassOrStructType, isClassType, isStructType, hun, hres, isOrThisIs, hb, Ty.tag,
      Body.tag]

theorem hashedFlags_addFlags (hs : (h.types s).IsNamed) (n : ℕ) (a : Addr) :
    hashedFlags (h.addFlags s flags) (n + 1) a = hashedFlags h (n + 1) a := by
  unfold hashedFlags
  rw [isClassOrStructType_addFlags hs]
  by_cases ha : a = s
  · subst ha
    rw [isClassOrStructType_named hs]
    rfl
  · rw [addFlags_of_ne ha]

/-- Flags added to a class or a named struct change no hash. Kind: P -/
theorem hashType_addFlags (hs : (h.types s).IsNamed)
    (hs' : ((h.addFlags s flags).types s).IsNamed) (n : ℕ) :
    ∀ hash a, hashType (h.addFlags s flags) n hash a = hashType h n hash a := by
  induction n with
  | zero => intro hash a; rfl
  | succ n ih =>
      intro hash a
      have hrec : hashType (h.addFlags s flags) n = hashType h n := by
        funext hash a
        exact ih hash a
      have hbody : ∀ t hash, hashBody (h.addFlags s flags) (hashType h n) t hash =
          hashBody h (hashType h n) t hash := by
        intro t hash
        have htypes : ∀ hash as, hashTypes (h.addFlags s flags) hash as = hashTypes h hash as := by
          intro hash as
          unfold hashTypes
          simp only [addFlags_tag]
        have hlit : ∀ hash v, hashAstNode (h.addFlags s flags) hash v = hashAstNode h hash v :=
          hashAstNode_strings rfl
        have hname : ∀ hash name, hashNameIfAny (h.addFlags s flags) hash name =
            hashNameIfAny h hash name := by
          intro hash name
          cases name <;> rfl
        unfold hashBody
        simp only [htypes, hlit, hname]
        rfl
      have hlayer : ∀ hash, hashBody (h.addFlags s flags) (hashType h n)
          ((h.addFlags s flags).types a) hash = hashBody h (hashType h n) (h.types a) hash := by
        intro hash
        rw [hbody]
        by_cases ha : a = s
        · subst ha
          unfold hashBody
          obtain hb | ⟨members, hb⟩ := hs.body
          · rw [addFlags_body, hb]
          · have hanon : hasFlag (h.types a) flgAnonymous = false := by
              simpa [Ty.IsNamed, Ty.tag, hb, Body.tag] using hs
            have hanon' : hasFlag ((h.addFlags a flags).types a) flgAnonymous = false := by
              simpa [Ty.IsNamed, Ty.tag, hb, Body.tag] using hs'
            rw [addFlags_body, hb]
            simp only [hanon, hanon']
            simp [Heap.addFlags]
        · rw [addFlags_of_ne ha]
      rw [hashType, hashType, hashedFlags_addFlags hs, hrec]
      simp only [addFlags_tag, hlayer]

/-- Nothing that an added flag could make equal to the type: no wrapper around it, and no other
type of its kind and name. -/
structure OnlyOfItsName (h : Heap) (s : Addr) : Prop where
  no_wrapper : ∀ a, (h.types a).body ≠ .wrapped s
  no_namesake : ∀ a, a ≠ s → (h.types a).tag = (h.types s).tag →
    ¬ ((h.types a).name = (h.types s).name ∧ (h.types a).ns = (h.types s).ns)

/-- An unwrapping that starts elsewhere collects the same flags. Kind: L -/
theorem unwrapLoop_addFlags_eq (flags : Flags) (honly : OnlyOfItsName h s) : ∀ (n : ℕ)
    (tmp : Flags) (a : Addr),
    a ≠ s → unwrapLoop (h.addFlags s flags) n tmp a = unwrapLoop h n tmp a ∧
      ∀ x f, unwrapLoop h n tmp a = some (x, f) → x ≠ s := by
  intro n
  induction n with
  | zero => intro tmp a _; simp [unwrapLoop]
  | succ n ih =>
      intro tmp a ha
      rw [unwrapLoop, unwrapLoop, addFlags_of_ne ha]
      cases hb : (h.types a).body
      case wrapped target =>
        refine ih _ target ?_
        rintro rfl
        exact honly.no_wrapper a hb
      all_goals
        refine ⟨rfl, fun x f hx => ?_⟩
        simp only [Option.some.injEq, Prod.mk.injEq] at hx
        exact hx.1 ▸ ha

theorem compareFields_mono {rec rec' : Addr → Addr → Option Bool}
    (hrec : ∀ a b, rec' a b = some true → rec a b = some true) :
    ∀ ls rs : List Member, compareFields rec' ls rs = some true →
      compareFields rec ls rs = some true
  | [], [], _ => rfl
  | [], _ :: _, _ => rfl
  | _ :: _, [], _ => rfl
  | l :: ls, r :: rs, hlr => by
      rw [compareFields] at hlr ⊢
      split_ifs at hlr ⊢ with hname
      · simp at hlr
      · rw [andThen_eq_true] at hlr ⊢
        exact ⟨hrec _ _ hlr.1, compareFields_mono hrec ls rs hlr.2⟩

/-- One layer of the comparison is monotone in the comparison of the layer below. Kind: L -/
theorem BodyEq.mono {rec rec' : Addr → Addr → Option Bool} {l r : Ty} {bl br : Body}
    (hrec : ∀ a b, rec' a b = some true → rec a b = some true) (hlr : BodyEq rec' l r bl br) :
    BodyEq rec l r bl br := by
  cases hlr with
  | auto => exact .auto
  | error => exact .error
  | void => exact .void
  | null => exact .null
  | string => exact .string
  | literal heq => exact .literal heq
  | primitive => exact .primitive
  | pointer heq => exact .pointer (hrec _ _ heq)
  | reference heq => exact .reference (hrec _ _ heq)
  | array heq => exact .array (hrec _ _ heq)
  | map hkey hvalue => exact .map (hrec _ _ hkey) (hrec _ _ hvalue)
  | externAlias hflag hname => exact .externAlias hflag hname
  | aliased hflag heq => exact .aliased hflag (hrec _ _ heq)
  | optional heq => exact .optional (hrec _ _ heq)
  | untaggedUnion hname => exact .untaggedUnion hname
  | opaqueType hname => exact .opaqueType hname
  | this => exact .this
  | tuple heq => exact .tuple (heq.imp hrec)
  | union heq => exact .union (heq.imp hrec)
  | func hname hscope hret heq => exact .func hname hscope (hrec _ _ hret) (heq.imp hrec)
  | applied hsrc heq => exact .applied (hrec _ _ hsrc) (heq.imp hrec)
  | module => exact .module
  | anonymous hflagl hflagr heq =>
      refine .anonymous hflagl hflagr ?_
      unfold compareAnonymousStructs at heq ⊢
      split_ifs at heq ⊢ with hcount
      · simp at heq
      · exact compareFields_mono hrec _ _ heq
  | struct hflag hname hns => exact .struct hflag hname hns
  | «class» hname hns => exact .class hname hns
  | enum hname hns => exact .enum hname hns
  | interface hname hns => exact .interface hname hns
  | generic hname hns => exact .generic hname hns
  | info heq => exact .info (hrec _ _ heq)
  | exception => exact .exception
  | result heq => exact .result (hrec _ _ heq)

/-- Contents that compare equal have one tag, and those of named types one name. Kind: L -/
theorem BodyEq.names {rec : Addr → Addr → Option Bool} {l r : Ty}
    (hlr : BodyEq rec l r l.body r.body) (hnamed : l.IsNamed ∨ r.IsNamed) :
    l.tag = r.tag ∧ l.name = r.name ∧ l.ns = r.ns := by
  unfold Ty.IsNamed at hnamed
  unfold Ty.tag at hnamed ⊢
  generalize l.body = bl at hlr hnamed
  generalize r.body = br at hlr hnamed
  cases hlr with
  | struct _ hname hns => exact ⟨rfl, hname, hns⟩
  | «class» hname hns => exact ⟨rfl, hname, hns⟩
  | anonymous hflagl hflagr _ => simp [Body.tag, hflagl, hflagr] at hnamed
  | _ => simp [Body.tag] at hnamed

/-- Two types of one tag and name, one of them named, compare equal. Kind: L -/
theorem BodyEq.of_names {rec : Addr → Addr → Option Bool} {l r : Ty}
    (hnamed : l.IsNamed ∨ r.IsNamed) (htag : l.tag = r.tag) (hname : l.name = r.name)
    (hns : l.ns = r.ns) : BodyEq rec l r l.body r.body := by
  unfold Ty.IsNamed at hnamed
  unfold Ty.tag at hnamed htag
  cases hl : l.body <;> simp only [hl, Body.tag] at htag hnamed
  case struct ms =>
    cases hr : r.body <;> simp only [hr, reduceCtorEq] at htag
    refine .struct ?_ hname hns
    simp only [hr] at hnamed
    obtain hflag | hflag := hnamed <;> simp at hflag <;> simp [hflag]
  case «class» =>
    cases hr : r.body <;> simp only [hr, reduceCtorEq] at htag
    exact .class hname hns
  all_goals
    rw [← htag] at hnamed
    simp at hnamed

/-- Flags added that are no type flags, or that the type has, change no comparison. Kind: L -/
theorem compareTypes_addFlags_same (hs : (h.types s).IsNamed)
    (hs' : ((h.addFlags s flags).types s).IsNamed)
    (hsame : ((h.types s).flags ||| flags) &&& flgTypeApplicable =
      (h.types s).flags &&& flgTypeApplicable) (n : ℕ) : ∀ a b,
    compareTypes (h.addFlags s flags) n a b = some true → compareTypes h n a b = some true := by
  have hun : ∀ (n : ℕ) (tmp : Flags) (a : Addr),
      unwrapLoop (h.addFlags s flags) n tmp a = unwrapLoop h n tmp a := by
    intro n
    induction n with
    | zero => intro tmp a; rfl
    | succ n ih =>
        intro tmp a
        by_cases ha : a = s
        · subst ha
          obtain hb | ⟨members, hb⟩ := hs.body
          all_goals
            rw [unwrapLoop, unwrapLoop, addFlags_body, hb]
            simp only [Heap.addFlags, Heap.set_self]
            rw [UInt64.or_and_right, hsame, ← UInt64.or_and_right]
        · rw [unwrapLoop, unwrapLoop, addFlags_of_ne ha]
          cases hb : (h.types a).body
          case wrapped target => exact ih _ target
          all_goals rfl
  induction n with
  | zero => intro a b hab; simp [compareTypes] at hab
  | succ n ih =>
      intro a b hab
      obtain ⟨x, y, f, hx, hy, hxy⟩ := Iff.mp compareTypes_true_iff hab
      rw [unwrapType, hun] at hx hy
      refine Iff.mpr compareTypes_true_iff ⟨x, y, f, hx, hy, ?_⟩
      obtain heq | ⟨hne, htag, hbodies⟩ := hxy
      · exact Or.inl heq
      refine Or.inr ⟨hne, by simpa using htag, Iff.mpr compareBody_eq_true ?_⟩
      have hbodies' := Iff.mp compareBody_eq_true hbodies
      by_cases hnamed : x = s ∨ y = s
      · -- for a named type, its tag and its names are all that is compared
        have hor : ((h.addFlags s flags).types x).IsNamed ∨
            ((h.addFlags s flags).types y).IsNamed := by
          obtain rfl | rfl := hnamed
          · exact Or.inl hs'
          · exact Or.inr hs'
        have hor' : (h.types x).IsNamed ∨ (h.types y).IsNamed := by
          obtain rfl | rfl := hnamed
          · exact Or.inl hs
          · exact Or.inr hs
        obtain ⟨htag', hname, hns⟩ := hbodies'.names hor
        have hnames : ∀ c, ((h.addFlags s flags).types c).name = (h.types c).name ∧
            ((h.addFlags s flags).types c).ns = (h.types c).ns := by
          intro c
          by_cases hc : c = s
          · subst hc
            simp [Heap.addFlags]
          · rw [addFlags_of_ne hc]
            exact ⟨rfl, rfl⟩
        rw [(hnames x).1, (hnames y).1] at hname
        rw [(hnames x).2, (hnames y).2] at hns
        exact .of_names hor' (by simpa using htag') hname hns
      · rw [not_or] at hnamed
        rw [addFlags_of_ne hnamed.1, addFlags_of_ne hnamed.2] at hbodies'
        exact hbodies'.mono ih

/-- **Flags added to a class or named struct that is the only one of its name make no two types
equal.** Kind: P -/
theorem compareTypes_addFlags (hs : (h.types s).IsNamed)
    (hs' : ((h.addFlags s flags).types s).IsNamed) (honly : OnlyOfItsName h s) (n : ℕ) : ∀ a b,
    compareTypes (h.addFlags s flags) n a b = some true → compareTypes h n a b = some true := by
  have hname : ((h.addFlags s flags).types s).name = (h.types s).name := by simp [Heap.addFlags]
  have hns : ((h.addFlags s flags).types s).ns = (h.types s).ns := by simp [Heap.addFlags]
  induction n with
  | zero => intro a b hab; simp [compareTypes] at hab
  | succ n ih =>
      intro a b hab
      obtain ⟨x, y, f, hx, hy, hxy⟩ := Iff.mp compareTypes_true_iff hab
      by_cases hxs : x = s
      · by_cases hys : y = s
        · -- only the type itself unwraps to the type
          have has : a = s := by
            by_contra ha
            obtain ⟨heq, hne⟩ := unwrapLoop_addFlags_eq flags honly (n + 1) flgNone a ha
            exact hne x f (heq ▸ hx) hxs
          have hbs : b = s := by
            by_contra hb
            obtain ⟨heq, hne⟩ := unwrapLoop_addFlags_eq flags honly (n + 1) flgNone b hb
            exact hne y f (heq ▸ hy) hys
          subst has hbs
          refine compareTypes_refl ?_
          rw [unwrapType, unwrapLoop]
          obtain hb | ⟨members, hb⟩ := hs.body <;> simp [hb]
        · obtain heq | ⟨-, -, hbodies⟩ := hxy
          · exact absurd (heq.symm.trans hxs) hys
          · subst hxs
            obtain ⟨htag, hname', hns'⟩ := (Iff.mp compareBody_eq_true hbodies).names (Or.inl hs')
            rw [addFlags_tag, addFlags_tag] at htag
            rw [addFlags_of_ne hys] at hname' hns'
            exact absurd ⟨hname'.symm.trans hname, hns'.symm.trans hns⟩
              (honly.no_namesake y hys htag.symm)
      · by_cases hys : y = s
        · obtain heq | ⟨-, -, hbodies⟩ := hxy
          · exact absurd (heq.trans hys) hxs
          · subst hys
            obtain ⟨htag, hname', hns'⟩ := (Iff.mp compareBody_eq_true hbodies).names (Or.inr hs')
            rw [addFlags_tag, addFlags_tag] at htag
            rw [addFlags_of_ne hxs] at hname' hns'
            exact absurd ⟨hname'.trans hname, hns'.trans hns⟩ (honly.no_namesake x hxs htag)
        · have has : a ≠ s := by
            rintro rfl
            exact hxs (unwrapType_self hs'.not_wrapped hx)
          have hbs : b ≠ s := by
            rintro rfl
            exact hys (unwrapType_self hs'.not_wrapped hy)
          have hx' : unwrapType h (n + 1) a = some (x, f) :=
            (unwrapLoop_addFlags_eq flags honly (n + 1) flgNone a has).1.symm.trans hx
          have hy' : unwrapType h (n + 1) b = some (y, f) :=
            (unwrapLoop_addFlags_eq flags honly (n + 1) flgNone b hbs).1.symm.trans hy
          refine Iff.mpr compareTypes_true_iff ⟨x, y, f, hx', hy', ?_⟩
          obtain heq | ⟨hne, htag, hbodies⟩ := hxy
          · exact Or.inl heq
          · rw [addFlags_of_ne hxs, addFlags_of_ne hys] at htag hbodies
            exact Or.inr ⟨hne, htag,
              Iff.mpr compareBody_eq_true ((Iff.mp compareBody_eq_true hbodies).mono ih)⟩

end addFlags

end CxyCompiler.Frontend
