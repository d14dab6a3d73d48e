import CxyCompiler.Package.VersionRanges

/-!
# The check of versions in a Cxyfile and the parser behind it

The check of `validators.c` looks at the shape of a version only; the parser of `types.c` also
wants its numbers to fit into 32 bits, and takes a constraint without operator for a wildcard
when it has an `x` or `X` anywhere.

* `numbersFit`: the three numbers of a version fit.
* **`validated_agrees`**: a version that passes the check is read exactly when its numbers fit; a
  dependency's version that passes is read with the operator and the version it shows exactly
  when, besides, it has an operator or no `x` or `X`.
-/

namespace CxyCompiler.Package

/-! ## What the check accepts -/

/-- The number at the start of a text and what stands behind the character after it. -/
def leadingNumber (s : CString) : ℕ × CString :=
  (valueFrom 0 (s.takeWhile Char.isDigit), (s.dropWhile Char.isDigit).drop 1)

/-- The three numbers of a version fit into 32 bits. -/
def numbersFit (s : CString) : Bool :=
  let major := leadingNumber s
  let minor := leadingNumber major.2
  let patch := leadingNumber minor.2
  major.1 ≤ UINT32_MAX && (minor.1 ≤ UINT32_MAX && patch.1 ≤ UINT32_MAX)

theorem takeWhile_digits {ds p : CString} (hds : ∀ c ∈ ds, c.isDigit = true) (hp : NoDigit p) :
    (ds ++ p).takeWhile Char.isDigit = ds ∧ (ds ++ p).dropWhile Char.isDigit = p := by
  rw [List.takeWhile_append_of_pos hds, List.dropWhile_append_of_pos hds]
  cases p with
  | nil => simp
  | cons c p => simp [hp c (by simp)]

theorem leadingNumber_numeral {ds p : CString} {n : ℕ} (h : Numeral ds n) (hp : NoDigit p) :
    leadingNumber (ds ++ p) = (n, p.drop 1) := by
  obtain ⟨htake, hdrop⟩ := takeWhile_digits h.digits hp
  rw [leadingNumber, htake, hdrop, h.value]

theorem validateNumber_ok {missing : String} {dot : Bool} {p r : CString}
    (h : validateNumber missing dot p = .ok r) :
    ∃ ds n, Numeral ds n ∧ p = ds ++ (if dot then '.' :: r else r) ∧
      NoDigit (if dot then '.' :: r else r) := by
  cases p with
  | nil => cases h
  | cons c q =>
      simp only [validateNumber] at h
      split at h
      · cases h
      next hc =>
      split at h
      · cases h
      obtain ⟨hsplit, hds, hrest⟩ := digits_split (c :: q)
      have hne : (c :: q).takeWhile Char.isDigit ≠ [] := by
        simp only [Bool.not_eq_true', Bool.not_eq_false] at hc
        simp [hc]
      have hr : (c :: q).dropWhile Char.isDigit = if dot then '.' :: r else r := by
        split at h
        · next hdot =>
          split at h
          · next heq =>
            cases h
            rw [heq, if_pos hdot]
          · cases h
        · next hdot =>
          cases h
          rw [if_neg hdot]
      rw [hr] at hsplit hrest
      exact ⟨_, _, ⟨hne, hds, rfl⟩, hsplit, hrest⟩

theorem validateBuild_none {p : CString} (h : validateBuild p = none) :
    p = [] ∨ ∃ q, p = '+' :: q := by
  unfold validateBuild at h
  split at h
  · exact Or.inl rfl
  · next q => exact Or.inr ⟨q, rfl⟩
  · cases h

/-- What passes the check of the suffix is read. Kind: L -/
theorem validateSuffix_none {p : CString} (h : validateSuffix p = none) :
    ∃ r, parseSuffix p = some r := by
  unfold validateSuffix at h
  split at h
  · exact ⟨_, rfl⟩
  · rcases validateBuild_none h with rfl | ⟨q, rfl⟩
    · exact ⟨_, rfl⟩
    · exact ⟨_, rfl⟩

/-- **The versions the check accepts** are three numerals with dots between them and a suffix.
Kind: L -/
theorem validateSemanticVersion_none {s : CString} (h : validateSemanticVersion s = none) :
    ∃ da db dc a b c suffix r, s = da ++ '.' :: (db ++ '.' :: (dc ++ suffix)) ∧ Numeral da a ∧
      Numeral db b ∧ Numeral dc c ∧ parseSuffix suffix = some r := by
  simp only [validateSemanticVersion] at h
  split at h
  · cases h
  split at h
  · cases h
  split at h
  · cases h
  next p h1 =>
  split at h
  · cases h
  next q h2 =>
  split at h
  · cases h
  next r h3 =>
  obtain ⟨da, a, ha, hs, -⟩ := validateNumber_ok h1
  obtain ⟨db, b, hb, hp, -⟩ := validateNumber_ok h2
  obtain ⟨dc, c, hc, hq, -⟩ := validateNumber_ok h3
  obtain ⟨res, hres⟩ := validateSuffix_none h
  refine ⟨da, db, dc, a, b, c, r, res, ?_, ha, hb, hc, hres⟩
  rw [hs, hp, hq]
  rfl

/-! ## Checked versions are read when their numbers fit -/

theorem noDigit_dot (p : CString) : NoDigit ('.' :: p) := noDigit_cons (by decide)

theorem numbersFit_iff {da db dc suffix : CString} {a b c : ℕ} (ha : Numeral da a)
    (hb : Numeral db b) (hc : Numeral dc c) (hs : NoDigit suffix) :
    numbersFit (da ++ '.' :: (db ++ '.' :: (dc ++ suffix))) = true ↔
      a ≤ UINT32_MAX ∧ b ≤ UINT32_MAX ∧ c ≤ UINT32_MAX := by
  simp only [numbersFit, leadingNumber_numeral ha (noDigit_dot _), List.drop_one, List.tail_cons,
    leadingNumber_numeral hb (noDigit_dot _), leadingNumber_numeral hc hs, Bool.and_eq_true,
    decide_eq_true_eq]

/-- A number that does not fit is not read. Kind: L -/
theorem parseVersionNumbers_overflow {da db dc suffix : CString} {a b c : ℕ} (ha : Numeral da a)
    (hb : Numeral db b) (hc : Numeral dc c)
    (h : ¬ (a ≤ UINT32_MAX ∧ b ≤ UINT32_MAX ∧ c ≤ UINT32_MAX)) :
    parseVersionNumbers (da ++ '.' :: (db ++ '.' :: (dc ++ suffix))) = none := by
  by_cases hfa : a ≤ UINT32_MAX
  · by_cases hfb : b ≤ UINT32_MAX
    · have hfc : UINT32_MAX < c := by
        by_contra hfc
        exact h ⟨hfa, hfb, not_lt.mp hfc⟩
      obtain ⟨m, d, q, hparse, -, -⟩ := hc.parse_overflow suffix hfc
      simp [parseVersionNumbers, ha.parse_fits (noDigit_dot _) hfa,
        hb.parse_fits (noDigit_dot _) hfb, hparse]
    · obtain ⟨m, d, q, hparse, -, -⟩ := hb.parse_overflow ('.' :: (dc ++ suffix)) (not_le.mp hfb)
      simp [parseVersionNumbers, ha.parse_fits (noDigit_dot _) hfa, hparse]
  · obtain ⟨m, d, q, hparse, -, -⟩ :=
      ha.parse_overflow ('.' :: (db ++ '.' :: (dc ++ suffix))) (not_le.mp hfa)
    simp [parseVersionNumbers, hparse]

/-- **A checked version is read exactly when its numbers fit.** Kind: L -/
theorem validated_parses {s : CString} (h : validateSemanticVersion s = none) :
    (∃ v, parseSemanticVersion s = some v) ↔ numbersFit s = true := by
  obtain ⟨da, db, dc, a, b, c, suffix, r, rfl, ha, hb, hc, hs⟩ := validateSemanticVersion_none h
  rw [numbersFit_iff ha hb hc (parseSuffix_noDigit hs)]
  constructor
  · rintro ⟨v, hv⟩
    by_contra hbig
    obtain ⟨d, ds, rfl⟩ := List.exists_cons_of_ne_nil ha.ne
    have hskip := skipV_append (show [] ∈ vPrefixes by simp [vPrefixes])
      (p := d :: ds ++ '.' :: (db ++ '.' :: (dc ++ suffix))) (c := d)
      (by simp) (ha.digits d (by simp))
    rw [List.nil_append] at hskip
    simp only [parseSemanticVersion] at hv
    rw [if_neg (by simp), hskip, parseVersionNumbers_overflow ha hb hc hbig] at hv
    cases hv
  · rintro ⟨hfa, hfb, hfc⟩
    refine ⟨⟨.ofNat a, .ofNat b, .ofNat c, r.1, r.2⟩, parseSemanticVersion_iff.mpr
      ⟨[], by simp [vPrefixes], da, db, dc, suffix, rfl, ?_, ?_, ?_, hs⟩⟩
    · rwa [toNat_ofNat hfa]
    · rwa [toNat_ofNat hfb]
    · rwa [toNat_ofNat hfc]

/-! ## Versions of dependencies -/

/-- The kind of constraint that the operator of a dependency's version announces; without
operator an exact version. -/
def announced : CString → VersionConstraintType
  | '*' :: p => if p = [] then .any else .exact
  | '^' :: _ => .caret
  | '~' :: _ => .tilde
  | '>' :: p => if p.head? = some '=' then .greaterEq else .greater
  | '<' :: p => if p.head? = some '=' then .lessEq else .less
  | _ => .exact

/-- The parser gives the announced kind of constraint and the version that has been checked. -/
def ReadAsChecked (version : CString) : Prop :=
  ∃ k, parseVersionConstraint (some version) = some k ∧ k.type = announced version ∧
    (version = ['*'] ∨ parseSemanticVersion (versionToValidate version) = some k.version)

/-- The versions of dependencies that the parser reads as the check does. -/
def readAsChecked (version : CString) : Bool :=
  version = ['*'] || (numbersFit (versionToValidate version) &&
    (announced version ≠ .exact || !(versionToValidate version).any isWildcard))

/-- The text that is checked stands behind an operator or nothing, and spaces. Kind: L -/
theorem versionToValidate_split (version : CString) :
    ∃ sp, Spaces sp ∧
      ((∃ o : Operator, announced version = o.type ∧
          version = o.text ++ (sp ++ versionToValidate version)) ∨
        version = sp ++ versionToValidate version) := by
  have hsplit : ∀ p : CString, Spaces (p.takeWhile fun c => c = ' ') ∧
      p = p.takeWhile (fun c => c = ' ') ++ p.dropWhile fun c => c = ' ' := by
    refine fun p => ⟨fun c hc => ?_, (List.takeWhile_append_dropWhile).symm⟩
    have hc' := List.mem_takeWhile_imp hc
    simp only [decide_eq_true_eq] at hc'
    subst hc'
    decide
  refine ⟨(skipConstraintOperator version).takeWhile fun c => c = ' ', (hsplit _).1, ?_⟩
  have hop : (∃ o : Operator, announced version = o.type ∧
      version = o.text ++ skipConstraintOperator version) ∨
      version = skipConstraintOperator version := by
    unfold skipConstraintOperator
    split
    · exact Or.inl ⟨.caret, rfl, rfl⟩
    · exact Or.inl ⟨.tilde, rfl, rfl⟩
    · exact Or.inl ⟨.greaterEq, rfl, rfl⟩
    · exact Or.inl ⟨.lessEq, rfl, rfl⟩
    · next c p h => exact Or.inl ⟨.greater, by
          simp [announced, show c ≠ '=' from h, Operator.type], rfl⟩
    · next c p h => exact Or.inl ⟨.less, by
          simp [announced, show c ≠ '=' from h, Operator.type], rfl⟩
    · exact Or.inr rfl
  rcases hop with ⟨o, ho, hv⟩ | hv
  · exact Or.inl ⟨o, ho, hv.trans (congrArg (o.text ++ ·) (hsplit _).2)⟩
  · exact Or.inr (hv.trans (hsplit _).2)

/-- A text the check accepts does not start with an operator. Kind: L -/
theorem announced_plain {c : Char} {p sp : CString} (hsp : Spaces sp) (hc : isPlain c = true) :
    announced (sp ++ c :: p) = .exact := by
  have hhead : ∀ (d : Char) (q : CString), d ≠ '*' → d ≠ '^' → d ≠ '~' → d ≠ '>' → d ≠ '<' →
      announced (d :: q) = .exact := by
    intro d q h1 h2 h3 h4 h5
    simp [announced, h1, h2, h3, h4, h5]
  cases sp with
  | nil =>
      simp only [isPlain, Bool.and_eq_true, decide_eq_true_eq] at hc
      exact hhead c p hc.2.2.2.2.2.1 hc.2.1 hc.2.2.1 hc.2.2.2.1 hc.2.2.2.2.1
  | cons d sp =>
      have hd := hsp d (by simp)
      have hne : ∀ e : Char, isspace e = false → d ≠ e := by
        rintro e he rfl
        rw [hd] at he
        cases he
      exact hhead d _ (hne _ (by decide)) (hne _ (by decide)) (hne _ (by decide))
        (hne _ (by decide)) (hne _ (by decide))

/-- **Checked versions of dependencies are read as they were checked** exactly when their numbers
fit and, without an operator, they have no `x` or `X` anywhere. Kind: L -/
theorem readAsChecked_iff {version : CString} (h : validateDependencyVersion version = none) :
    ReadAsChecked version ↔ readAsChecked version = true := by
  by_cases hany : version = ['*']
  · subst hany
    exact ⟨fun _ => rfl, fun _ => ⟨_, rfl, rfl, Or.inl rfl⟩⟩
  rw [validateDependencyVersion, if_neg hany] at h
  have hfit := validated_parses h
  simp only [ReadAsChecked, readAsChecked, hany, decide_false, Bool.false_or, false_or,
    Bool.and_eq_true, ← hfit, Bool.or_eq_true, decide_eq_true_eq, ne_eq, Bool.not_eq_true']
  obtain ⟨sp, hsp, hv⟩ := versionToValidate_split version
  constructor
  · rintro ⟨k, hk, htype, hbase⟩
    refine ⟨⟨_, hbase⟩, ?_⟩
    rcases hv with ⟨o, ho, -⟩ | hv
    · left
      rw [ho]
      cases o <;> decide
    · right
      obtain ⟨c, p, hcp, hc⟩ := plain_head_of_version hbase
      have hparse := parse_plain hsp hcp hc
      rw [← hv, hk] at hparse
      by_contra hw
      rw [Bool.not_eq_false] at hw
      rw [if_pos hw, Option.some.injEq] at hparse
      have hexact : announced version = .exact := by
        rw [hv, hcp]
        exact announced_plain hsp hc
      rw [hparse, hexact] at htype
      cases htype
  · rintro ⟨⟨v, hbase⟩, hw⟩
    rcases hv with ⟨o, ho, hv⟩ | hv
    · have hparse := parse_op o (show Spaces [] by simp [Spaces]) hsp hbase
      rw [List.nil_append, ← hv] at hparse
      exact ⟨_, hparse, ho.symm, hbase⟩
    · obtain ⟨c, p, hcp, hc⟩ := plain_head_of_version hbase
      have hexact : announced version = .exact := by
        rw [hv, hcp]
        exact announced_plain hsp hc
      have hparse := parse_plain hsp hcp hc
      rw [← hv, if_neg (by simpa using hw.resolve_left (· hexact)), hbase] at hparse
      exact ⟨_, hparse, hexact.symm, hbase⟩

/-- **What the check of versions promises the parser.** A version that passes is read exactly when
its numbers fit into 32 bits; a dependency's version that passes is read with the announced
operator and the checked version exactly when, besides, it has an operator or no `x` or `X`.
Kind: P -/
theorem validated_agrees {version dependency : CString}
    (hv : validateSemanticVersion version = none)
    (hd : validateDependencyVersion dependency = none) :
    ((∃ v, parseSemanticVersion version = some v) ↔ numbersFit version = true) ∧
      (ReadAsChecked dependency ↔ readAsChecked dependency = true) :=
  ⟨validated_parses hv, readAsChecked_iff hd⟩

theorem validated_agrees_sample :
    ((∃ v, parseSemanticVersion "1.2.3-rc.1".toList = some v) ↔
      numbersFit "1.2.3-rc.1".toList = true) ∧
      (ReadAsChecked ">= 0.4.0".toList ↔ readAsChecked ">= 0.4.0".toList = true) :=
  validated_agrees (by decide) (by decide)

/-- **Checked and not read**: `4294967296.0.0` passes the check and is no version for the parser,
`1.2.3-next` passes and is taken for a wildcard. Kind: P -/
theorem validated_not_read :
    (validateSemanticVersion "4294967296.0.0".toList = none ∧
      parseSemanticVersion "4294967296.0.0".toList = none) ∧
      validateDependencyVersion "1.2.3-next".toList = none ∧
      announced "1.2.3-next".toList = .exact ∧
      (parseVersionConstraint (some "1.2.3-next".toList)).map VersionConstraint.type =
        some .wildcard := by
  decide

end CxyCompiler.Package
