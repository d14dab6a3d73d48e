import CxyCompiler.Frontend.Compare

/-!
# When equal types have equal hashes

`hashType` hashes a type as it is built, wrappers included; `compareTypes` takes wrappers off,
merges their flags and compares some types by less than what is hashed. Two types that compare equal
have one hash where they are built alike in this respect.

* `hashAlike` — **built alike**: the hashed tags and flags agree on the way down, and wherever a
  comparison looks at less than the hash (modules, floating-point literals, generics, anonymous
  structs) the hashed part agrees too.
* `EqualBelowWrappers` — what `compareTypes` says of two types, up to the flags; it passes to the
  targets of two wrappers, which the comparison itself does not.
* `hashType_eq_of_alike` — the hash lemma, by induction on the depth of the hash.
-/

namespace CxyCompiler.Frontend

open CxyCompiler.Core

variable {h : Heap}

/-! ## Types built alike -/

/-- The tags of a list of types, which is all that the hash takes from them. -/
def tags (h : Heap) (types : List Addr) : List TTag := types.map fun a => (h.types a).tag

/-- The contents of two types that compare equal are hashed alike, with `rec` for the types they
refer to. -/
def bodyAlike (h : Heap) (rec : Addr → Addr → Bool) (l r : Ty) : Bool :=
  match l.body with
  | .wrapped a => match r.body with
      | .wrapped b => rec a b
      | _ => true
  | .pointer a _ => match r.body with
      | .pointer b _ => rec a b
      | _ => true
  | .reference a => match r.body with
      | .reference b => rec a b
      | _ => true
  | .optional a => match r.body with
      | .optional b => rec a b
      | _ => true
  | .info a => match r.body with
      | .info b => rec a b
      | _ => true
  | .result a => match r.body with
      | .result b => rec a b
      | _ => true
  | .array _ a => match r.body with
      | .array _ b => rec a b
      | _ => true
  | .map k v => match r.body with
      | .map k' v' => rec k k' && rec v v'
      | _ => true
  | .alias a => match r.body with
      | .alias b => hasFlag l flgExtern == hasFlag r flgExtern &&
          match a, b with
          | some a, some b => hasFlag l flgExtern || rec a b
          | _, _ => true
      | _ => true
  | .union as => match r.body with
      | .union bs => tags h as == tags h bs
      | _ => true
  | .tuple as => match r.body with
      | .tuple bs => tags h as == tags h bs
      | _ => true
  | .func as a _ => match r.body with
      | .func bs b _ => tags h as == tags h bs && rec a b
      | _ => true
  | .applied a as => match r.body with
      | .applied b bs => rec a b && tags h as == tags h bs
      | _ => true
  | .module _ => l.name == r.name && l.ns == r.ns
  | .generic c _ => match r.body with
      | .generic c' _ => c == c'
      | _ => true
  | .literal (.float a) => match r.body with
      | .literal (.float b) => a == b
      | _ => true
  | .struct ms => match r.body with
      | .struct ms' => hasFlag l flgAnonymous == hasFlag r flgAnonymous &&
          match ms, ms' with
          | some ms, some ms' => !hasFlag l flgAnonymous ||
              (ms.filter isHashedMember == ms.filter (·.decl == .fieldDecl) &&
                (ms.filter isHashedMember).length == (ms'.filter isHashedMember).length &&
                ((ms.filter isHashedMember).zip (ms'.filter isHashedMember)).all
                  fun p => rec p.1.type p.2.type)
          | _, _ => true
      | _ => true
  | _ => true

/-- **Two types are built alike.** -/
def hashAlike (h : Heap) : ℕ → Addr → Addr → Bool
  | 0, _, _ => true
  | n + 1, a, b => a == b ||
      ((h.types a).tag == (h.types b).tag &&
        hashedFlags h (n + 1) a == hashedFlags h (n + 1) b &&
        bodyAlike h (hashAlike h n) (h.types a) (h.types b))

/-! ## Equality below the wrappers -/

/-- The unwrapped types are one type, or their contents compare equal. -/
def EqualBelowWrappers (h : Heap) (n : ℕ) (a b : Addr) : Prop :=
  ∃ k k' x y f g, unwrapType h k a = some (x, f) ∧ unwrapType h k' b = some (y, g) ∧
    (x = y ∨ compareBody (compareTypes h n) (h.types x) (h.types y) = some true)

theorem equalBelowWrappers_of_compareTypes {n : ℕ} {a b : Addr}
    (hab : compareTypes h n a b = some true) : ∃ m, EqualBelowWrappers h m a b := by
  cases n with
  | zero => simp [compareTypes] at hab
  | succ n =>
      obtain ⟨x, y, f, hx, hy, hxy⟩ := Iff.mp compareTypes_true_iff hab
      exact ⟨n, n + 1, n + 1, x, y, f, f, hx, hy, hxy.imp_right fun hbody => hbody.2.2⟩

/-- Where an unwrapping ends does not depend on the flags collected. Kind: L -/
theorem unwrapLoop_tmp : ∀ (n : ℕ) (tmp tmp' : Flags) (a x : Addr) (f : Flags),
    unwrapLoop h n tmp a = some (x, f) → ∃ f', unwrapLoop h n tmp' a = some (x, f') := by
  intro n
  induction n with
  | zero => intro tmp tmp' a x f hun; simp [unwrapLoop] at hun
  | succ n ih =>
      intro tmp tmp' a x f hun
      rw [unwrapLoop] at hun ⊢
      split at hun
      · exact ih _ _ _ x f hun
      · simp only [Option.some.injEq, Prod.mk.injEq] at hun
        exact ⟨_, by rw [hun.1]⟩

theorem unwrapType_wrapped {k : ℕ} {a s x : Addr} {f : Flags}
    (hbody : (h.types a).body = .wrapped s)
    (hun : unwrapType h k a = some (x, f)) : ∃ k' f', unwrapType h k' s = some (x, f') := by
  cases k with
  | zero => simp [unwrapType, unwrapLoop] at hun
  | succ k =>
      rw [unwrapType, unwrapLoop, hbody] at hun
      obtain ⟨f', hf'⟩ := unwrapLoop_tmp k _ flgNone s x f hun
      exact ⟨k, f', hf'⟩

theorem unwrapType_self {k : ℕ} {a x : Addr} {f : Flags}
    (hbody : ∀ s, (h.types a).body ≠ .wrapped s)
      (hun : unwrapType h k a = some (x, f)) : x = a := by
  cases k with
  | zero => simp [unwrapType, unwrapLoop] at hun
  | succ k =>
      rw [unwrapType, unwrapLoop] at hun
      split at hun
      · rename_i s hs
        exact absurd hs (hbody s)
      · simp only [Option.some.injEq, Prod.mk.injEq] at hun
        exact hun.1.symm

/-! ## The hash lemma -/

theorem hashTypes_eq {as bs : List Addr} (htags : tags h as = tags h bs) (hash : HashCode) :
    hashTypes h hash as = hashTypes h hash bs := by
  have hfold : ∀ (types : List Addr) (hash : HashCode), hashTypes h hash types =
      (tags h types).foldl (fun hash tag => hashUint64 hash (UInt64.ofNat tag.code)) hash := by
    intro types hash
    rw [tags, List.foldl_map]
    rfl
  rw [hfold, hfold, htags]

/-- Fields that compare equal one by one. Kind: L -/
theorem compareFields_eq_true {rec : Addr → Addr → Option Bool} {ls rs : List Member}
    (hlen : ls.length = rs.length) :
    compareFields rec ls rs = some true ↔
      List.Forall₂ (fun l r => l.name = r.name ∧ rec l.type r.type = some true) ls rs := by
  induction ls generalizing rs with
  | nil =>
      cases rs with
      | nil => simp [compareFields]
      | cons r rs => simp at hlen
  | cons l ls ih =>
      cases rs with
      | nil => simp at hlen
      | cons r rs =>
          rw [compareFields, List.forall₂_cons, ← ih (by simpa using hlen)]
          by_cases hname : l.name = r.name
          · simp [hname]
          · simp [hname]

/-- Fields with equal names and equal hashes hash to one value. Kind: L -/
theorem foldlM_fields_eq {rec : HashCode → Addr → Option HashCode} {ls rs : List Member}
    (hlr : List.Forall₂ (fun l r => l.name = r.name ∧ ∀ hash, rec hash l.type = rec hash r.type)
      ls rs) (hash : HashCode) :
    ls.foldlM (fun hash m => rec (hashStr hash (h.strings m.name)) m.type) hash =
      rs.foldlM (fun hash m => rec (hashStr hash (h.strings m.name)) m.type) hash := by
  induction hlr generalizing hash with
  | nil => rfl
  | cons hmem _ ih =>
      rw [List.foldlM_cons, List.foldlM_cons, hmem.1, hmem.2]
      congr 1
      funext hash
      exact ih hash

theorem forall₂_of_zip_all {p : Member → Member → Prop} {q : Member → Member → Bool}
    {ls rs : List Member} (hp : List.Forall₂ p ls rs)
    (hq : (ls.zip rs).all (fun pr => q pr.1 pr.2) = true) :
    List.Forall₂ (fun l r => p l r ∧ q l r = true) ls rs := by
  induction hp with
  | nil => exact .nil
  | cons hlr _ ih =>
      rw [List.zip_cons_cons, List.all_cons, Bool.and_eq_true] at hq
      exact .cons ⟨hlr, hq.1⟩ (ih hq.2)

theorem hashBody_eq_of_alike {cmp : Addr → Addr → Option Bool} {alike : Addr → Addr → Bool}
    {rec : HashCode → Addr → Option HashCode} {l r : Ty}
    (hrec : ∀ a b hash, cmp a b = some true → alike a b = true → rec hash a = rec hash b)
    (hlr : BodyEq cmp l r l.body r.body) (halike : bodyAlike h alike l r = true)
    (hash : HashCode) : hashBody h rec l hash = hashBody h rec r hash := by
  unfold hashBody
  unfold bodyAlike at halike
  generalize l.body = bl at hlr halike
  generalize r.body = br at hlr halike
  cases hlr with
  | auto | error | void | null | string | primitive | this => rfl
  | «class» | interface | exception => rfl
  | literal heq =>
      obtain ⟨rfl, -⟩ | ⟨x, y, rfl, rfl, -⟩ := Iff.mp compareAstNodes_eq_true heq
      · rfl
      · dsimp only at halike ⊢
        rw [beq_iff_eq.mp halike]
  | pointer heq => exact hrec _ _ _ heq halike
  | reference heq => exact hrec _ _ _ heq halike
  | optional heq => exact hrec _ _ _ heq halike
  | info heq => exact hrec _ _ _ heq halike
  | result heq => exact hrec _ _ _ heq halike
  | array heq =>
      dsimp only
      rw [hrec _ _ _ heq halike]
  | map hkey hvalue =>
      dsimp only at halike ⊢
      rw [Bool.and_eq_true] at halike
      rw [hrec _ _ _ hkey halike.1]
      congr 1
      funext hash
      exact hrec _ _ _ hvalue halike.2
  | externAlias hflag hname =>
      dsimp only at halike ⊢
      rw [Bool.and_eq_true, beq_iff_eq] at halike
      rw [← halike.1, hflag, if_pos rfl, if_pos rfl, hname]
  | aliased hflag heq =>
      dsimp only at halike ⊢
      rw [Bool.and_eq_true, beq_iff_eq, hflag, Bool.false_or] at halike
      rw [← halike.1, hflag]
      exact hrec _ _ _ heq halike.2
  | untaggedUnion hname => dsimp only; rw [hname]
  | opaqueType hname => dsimp only; rw [hname]
  | enum hname hns => dsimp only; rw [hname, hns]
  | tuple heq => dsimp only at halike ⊢; rw [hashTypes_eq (beq_iff_eq.mp halike)]
  | union heq => dsimp only at halike ⊢; rw [hashTypes_eq (beq_iff_eq.mp halike)]
  | func hname hscope hret heq =>
      dsimp only at halike ⊢
      rw [Bool.and_eq_true, beq_iff_eq] at halike
      rw [hname, hashTypes_eq halike.1]
      exact hrec _ _ _ hret halike.2
  | applied hsrc heq =>
      dsimp only at halike ⊢
      rw [Bool.and_eq_true, beq_iff_eq] at halike
      rw [hrec _ _ _ hsrc halike.1]
      congr 1
      funext hash
      rw [hashTypes_eq halike.2]
  | module =>
      dsimp only at halike ⊢
      rw [Bool.and_eq_true, beq_iff_eq, beq_iff_eq] at halike
      rw [halike.1, halike.2]
  | generic hname hns =>
      dsimp only at halike ⊢
      rw [beq_iff_eq.mp halike, hname]
  | struct hflag hname hns =>
      dsimp only at halike ⊢
      rw [Bool.and_eq_true, beq_iff_eq] at halike
      rw [← halike.1, Bool.and_self] at hflag
      rw [← halike.1, hflag, hname, hns]
      rfl
  | anonymous hflagl hflagr heq =>
      dsimp only at halike ⊢
      rw [hflagl, hflagr, Bool.not_true, Bool.false_or, Bool.and_eq_true, Bool.and_eq_true,
        Bool.and_eq_true, beq_iff_eq, beq_iff_eq, beq_iff_eq] at halike
      obtain ⟨-, ⟨hfields, hlen⟩, hall⟩ := halike
      rw [hflagl, hflagr, if_pos rfl, if_pos rfl]
      unfold compareAnonymousStructs at heq
      split_ifs at heq
      · simp at heq
      rw [← hfields, compareFields_eq_true hlen] at heq
      refine foldlM_fields_eq ((forall₂_of_zip_all (q := fun m m' => alike m.type m'.type) heq
        hall).imp ?_) hash
      intro m m' hm
      exact ⟨hm.1.1, fun hash => hrec _ _ hash hm.1.2 hm.2⟩

/-- **The hash lemma.** Types that are equal below their wrappers and built alike have one hash.
Kind: P -/
theorem hashType_eq_of_alike (m : ℕ) : ∀ (n : ℕ) (a b : Addr) (hash : HashCode),
    EqualBelowWrappers h n a b → hashAlike h m a b = true →
      hashType h m hash a = hashType h m hash b := by
  induction m with
  | zero => intro n a b hash _ _; rfl
  | succ m ih =>
      intro n a b hash hab halike
      by_cases heq : a = b
      · rw [heq]
      simp only [hashAlike, Bool.or_eq_true, beq_iff_eq, heq, false_or, Bool.and_eq_true] at halike
      obtain ⟨⟨htag, hflags⟩, hbody⟩ := halike
      have hlayer : ∀ hash, hashBody h (hashType h m) (h.types a) hash =
          hashBody h (hashType h m) (h.types b) hash := by
        intro hash
        obtain ⟨k, k', x, y, f, g, hx, hy, hxy⟩ := hab
        by_cases hwrap : ∃ s, (h.types a).body = .wrapped s
        · -- both are wrappers: the comparison is about what they wrap
          obtain ⟨s, hs⟩ := hwrap
          have htag' : (h.types b).body.tag = .wrapped := by
            have : (h.types b).tag = (h.types a).tag := htag.symm
            rw [Ty.tag, Ty.tag, hs] at this
            exact this
          obtain ⟨t, ht⟩ : ∃ t, (h.types b).body = .wrapped t := by
            cases hb : (h.types b).body <;> simp [hb, Body.tag] at htag'
            exact ⟨_, rfl⟩
          obtain ⟨k₁, f₁, hx₁⟩ := unwrapType_wrapped hs hx
          obtain ⟨k₂, f₂, hy₂⟩ := unwrapType_wrapped ht hy
          have hst : hashAlike h m s t = true := by simpa [bodyAlike, hs, ht] using hbody
          have := ih n s t hash ⟨k₁, k₂, x, y, f₁, f₂, hx₁, hy₂, hxy⟩ hst
          simpa [hashBody, hs, ht] using this
        · have hwrapa : ∀ s, (h.types a).body ≠ .wrapped s := fun s hs => hwrap ⟨s, hs⟩
          have hwrapb : ∀ s, (h.types b).body ≠ .wrapped s := by
            intro s hs
            have : (h.types a).body.tag = .wrapped := by
              change (h.types a).tag = _
              rw [htag, Ty.tag, hs]
              rfl
            cases ha : (h.types a).body <;> simp [ha, Body.tag] at this
            exact hwrapa _ ha
          obtain rfl := unwrapType_self hwrapa hx
          obtain rfl := unwrapType_self hwrapb hy
          obtain hxy | hxy := hxy
          · exact absurd hxy heq
          · refine hashBody_eq_of_alike (fun c d hash hcd halike => ?_)
              (Iff.mp compareBody_eq_true hxy) hbody hash
            obtain ⟨n', hn'⟩ := equalBelowWrappers_of_compareTypes hcd
            exact ih n' c d hash hn' halike
      rw [hashType, hashType, htag, hflags]
      congr 1
      funext flags
      cases flags with
      | none => exact hlayer _
      | some flags => exact hlayer _

end CxyCompiler.Frontend
