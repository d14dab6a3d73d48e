import Mathlib.Data.List.TakeWhile
import CxyCompiler.Package.Versions

/-!
# The texts that are read as versions

* `Numeral`: a text of digits and its value.
* **`parseSemanticVersion_iff`**: a text is read as a version exactly when it is three numerals
  below 2^32 with dots between them, maybe behind a `v`, and a suffix.
* **`compareSemanticVersions_order`**: the comparison of versions that have been read is a total
  order; it ignores what follows `+` exactly where there is no prerelease part.
-/

namespace CxyCompiler.Package

/-! ## Numerals -/

/-- The value of digits behind a number that has been read. -/
def valueFrom (n : ℕ) (ds : CString) : ℕ := ds.foldl (fun n c => n * 10 + digitValue c) n

/-- Digits, and the number they stand for. -/
structure Numeral (ds : CString) (n : ℕ) : Prop where
  ne : ds ≠ []
  digits : ∀ c ∈ ds, c.isDigit = true
  value : valueFrom 0 ds = n

/-- The text does not go on with a digit. -/
def NoDigit (p : CString) : Prop := ∀ c ∈ p.head?, c.isDigit = false

theorem noDigit_nil : NoDigit [] := by simp [NoDigit]

theorem noDigit_cons {c : Char} {p : CString} (h : c.isDigit = false) : NoDigit (c :: p) := by
  simpa [NoDigit] using h

theorem le_valueFrom (n : ℕ) (ds : CString) : n ≤ valueFrom n ds := by
  induction ds generalizing n with
  | nil => exact le_refl n
  | cons c ds ih =>
      have := ih (n * 10 + digitValue c)
      simp only [valueFrom, List.foldl_cons] at this ⊢
      omega

theorem digitValue_le {c : Char} (h : c.isDigit = true) : digitValue c ≤ 9 := by
  simp only [Char.isDigit, Bool.and_eq_true, decide_eq_true_eq, UInt32.le_iff_toNat_le,
    ge_iff_le] at h
  have h0 : '0'.val.toNat = 48 := rfl
  have h9 : '9'.val.toNat = 57 := rfl
  have hc : c.toNat = c.val.toNat := rfl
  have hz : '0'.toNat = 48 := rfl
  unfold digitValue
  omega

/-- The test of `parseNumber` finds out whether the next digit would not fit. Kind: L -/
theorem overflow_iff {d : ℕ} (hd : d ≤ 9) (n : ℕ) :
    (UINT32_MAX - d) / 10 < n ↔ UINT32_MAX < n * 10 + d := by
  simp only [UINT32_MAX]
  omega

/-- **Reading digits that fit.** Kind: L -/
theorem parseDigits_fits {ds p : CString} (hds : ∀ c ∈ ds, c.isDigit = true) (hp : NoDigit p)
    {n : ℕ} (hfit : valueFrom n ds ≤ UINT32_MAX) :
    parseDigits n (ds ++ p) = ⟨true, valueFrom n ds, p⟩ := by
  induction ds generalizing n with
  | nil =>
      cases p with
      | nil => rfl
      | cons c p => simp [parseDigits, hp c (by simp), valueFrom]
  | cons c ds ih =>
      simp only [List.mem_cons, forall_eq_or_imp] at hds
      have hd := digitValue_le hds.1
      have hle : n * 10 + digitValue c ≤ UINT32_MAX := (le_valueFrom _ ds).trans hfit
      have hno : ¬ (UINT32_MAX - digitValue c) / 10 < n := by
        rw [overflow_iff hd]
        omega
      simp only [List.cons_append, parseDigits, hds.1, if_pos, if_neg hno]
      exact ih hds.2 hfit

/-- **Reading digits that do not fit** stops at one of them. Kind: L -/
theorem parseDigits_overflow {ds p : CString} (hds : ∀ c ∈ ds, c.isDigit = true) {n : ℕ}
    (hn : n ≤ UINT32_MAX) (hbig : UINT32_MAX < valueFrom n ds) :
    ∃ m d q, parseDigits n (ds ++ p) = ⟨false, m, d :: q⟩ ∧ m ≤ UINT32_MAX ∧ d.isDigit = true := by
  induction ds generalizing n with
  | nil => exact absurd hbig (not_lt.mpr hn)
  | cons c ds ih =>
      simp only [List.mem_cons, forall_eq_or_imp] at hds
      have hd := digitValue_le hds.1
      simp only [List.cons_append, parseDigits, hds.1, if_pos]
      split
      · exact ⟨n, c, ds ++ p, rfl, hn, hds.1⟩
      · next hno =>
        rw [overflow_iff hd, not_lt] at hno
        exact ih hds.2 hno hbig

theorem parseNumber_of_noDigit {p : CString} (hp : NoDigit p) : parseNumber p = ⟨false, 0, p⟩ := by
  cases p with
  | nil => rfl
  | cons c p => simp [parseNumber, hp c (by simp)]

theorem parseNumber_of_digit {ds : CString} (hne : ds ≠ []) (hds : ∀ c ∈ ds, c.isDigit = true)
    (p : CString) : parseNumber (ds ++ p) = parseDigits 0 (ds ++ p) := by
  cases ds with
  | nil => exact absurd rfl hne
  | cons c ds => simp [parseNumber, hds c (by simp)]

theorem Numeral.parse_fits {ds p : CString} {n : ℕ} (h : Numeral ds n) (hp : NoDigit p)
    (hfit : n ≤ UINT32_MAX) : parseNumber (ds ++ p) = ⟨true, n, p⟩ := by
  obtain ⟨hne, hds, rfl⟩ := h
  rw [parseNumber_of_digit hne hds, parseDigits_fits hds hp hfit]

theorem Numeral.parse_overflow {ds : CString} {n : ℕ} (h : Numeral ds n) (p : CString)
    (hbig : UINT32_MAX < n) :
    ∃ m d q, parseNumber (ds ++ p) = ⟨false, m, d :: q⟩ ∧ m ≤ UINT32_MAX ∧ d.isDigit = true := by
  obtain ⟨hne, hds, rfl⟩ := h
  rw [parseNumber_of_digit hne hds]
  exact parseDigits_overflow hds (Nat.zero_le _) hbig

/-- Every text is digits and something that does not go on with a digit. Kind: L -/
theorem digits_split (p : CString) :
    p = p.takeWhile Char.isDigit ++ p.dropWhile Char.isDigit ∧
      (∀ c ∈ p.takeWhile Char.isDigit, c.isDigit = true) ∧ NoDigit (p.dropWhile Char.isDigit) := by
  refine ⟨(List.takeWhile_append_dropWhile).symm, fun c hc => List.mem_takeWhile_imp hc, ?_⟩
  intro c hc
  have := List.head?_dropWhile_not Char.isDigit p
  rw [Option.mem_def.mp hc] at this
  simpa using this

/-- **What `parseNumber` accepts.** Kind: L -/
theorem parseNumber_ok {p : CString} (h : (parseNumber p).ok = true) :
    ∃ ds, p = ds ++ (parseNumber p).rest ∧ Numeral ds (parseNumber p).num ∧
      NoDigit (parseNumber p).rest ∧ (parseNumber p).num ≤ UINT32_MAX := by
  obtain ⟨hp, hds, hrest⟩ := digits_split p
  by_cases hne : p.takeWhile Char.isDigit = []
  · rw [hne, List.nil_append] at hp
    rw [hp, parseNumber_of_noDigit hrest] at h
    cases h
  · have hnum : Numeral (p.takeWhile Char.isDigit) (valueFrom 0 (p.takeWhile Char.isDigit)) :=
      ⟨hne, hds, rfl⟩
    by_cases hfit : valueFrom 0 (p.takeWhile Char.isDigit) ≤ UINT32_MAX
    · have hparse := hnum.parse_fits hrest hfit
      rw [← hp] at hparse
      rw [hparse]
      exact ⟨_, hp, hnum, hrest, hfit⟩
    · obtain ⟨m, d, q, hparse, -, -⟩ :=
        hnum.parse_overflow (p.dropWhile Char.isDigit) (not_le.mp hfit)
      rw [← hp] at hparse
      rw [hparse] at h
      cases h

/-! ## Versions -/

theorem toNat_ofNat {n : ℕ} (h : n ≤ UINT32_MAX) : (UInt32.ofNat n).toNat = n :=
  UInt32.toNat_ofNat_of_lt (by simp only [UINT32_MAX, UInt32.size] at h ⊢; omega)

theorem toNat_le_max (u : UInt32) : u.toNat ≤ UINT32_MAX := by
  have := u.toNat_lt
  simp only [UINT32_MAX]
  omega

/-- What is read behind the numbers does not go on with a digit. Kind: L -/
theorem parseSuffix_noDigit {p : CString} {r : Option CString × Option CString}
    (h : parseSuffix p = some r) : NoDigit p := by
  cases p with
  | nil => exact noDigit_nil
  | cons c p =>
      refine noDigit_cons ?_
      unfold parseSuffix at h
      dsimp only at h
      split at h
      · contradiction
      · next heq => cases heq; decide
      · next heq => cases heq; decide
      · cases h

/-- Three numerals with dots between them, and a suffix. Kind: L -/
theorem parseVersionNumbers_iff {p : CString} {v : SemanticVersion} :
    parseVersionNumbers p = some v ↔ ∃ a b c suffix,
      p = a ++ '.' :: (b ++ '.' :: (c ++ suffix)) ∧ Numeral a v.major.toNat ∧
        Numeral b v.minor.toNat ∧ Numeral c v.patch.toNat ∧
        parseSuffix suffix = some (v.prerelease, v.build) := by
  constructor
  · intro h
    simp only [parseVersionNumbers] at h
    split at h
    · cases h
    next hma =>
    obtain ⟨a, hp, ha, -, hfa⟩ := parseNumber_ok (by simpa using hma)
    split at h
    next q hq =>
      split at h
      · cases h
      next hmi =>
      obtain ⟨b, hq', hb, -, hfb⟩ := parseNumber_ok (by simpa using hmi)
      split at h
      next r hr =>
        split at h
        · cases h
        next hpa =>
        obtain ⟨c, hr', hc, -, hfc⟩ := parseNumber_ok (by simpa using hpa)
        obtain ⟨s, hs, rfl⟩ := Option.map_eq_some_iff.mp h
        refine ⟨a, b, c, _, ?_, ?_, ?_, ?_, hs⟩
        · rw [← hr', ← hr, ← hq', ← hq]
          exact hp
        · rwa [toNat_ofNat hfa]
        · rwa [toNat_ofNat hfb]
        · rwa [toNat_ofNat hfc]
      · cases h
    · cases h
  · rintro ⟨a, b, c, suffix, rfl, ha, hb, hc, hs⟩
    have hdot : ∀ q : CString, NoDigit ('.' :: q) := fun q => noDigit_cons (by decide)
    simp only [parseVersionNumbers, ha.parse_fits (hdot _) (toNat_le_max _),
      hb.parse_fits (hdot _) (toNat_le_max _),
      hc.parse_fits (parseSuffix_noDigit hs) (toNat_le_max _), hs, Option.map_some,
      UInt32.ofNat_toNat]
    rfl

/-- What may stand before the first number of a version. -/
def vPrefixes : List CString := [[], ['v'], ['V']]

theorem skipV_split (s : CString) : ∃ pre ∈ vPrefixes, s = pre ++ skipV s := by
  unfold skipV
  split
  · exact ⟨['v'], by simp [vPrefixes], rfl⟩
  · exact ⟨['V'], by simp [vPrefixes], rfl⟩
  · exact ⟨[], by simp [vPrefixes], rfl⟩

theorem skipV_append {pre p : CString} (hpre : pre ∈ vPrefixes) {c : Char} (hc : c ∈ p.head?)
    (hd : c.isDigit = true) : skipV (pre ++ p) = p := by
  simp only [vPrefixes, List.mem_cons, List.not_mem_nil, or_false] at hpre
  rcases hpre with rfl | rfl | rfl
  · cases p with
    | nil => rfl
    | cons d p =>
        simp only [List.head?_cons, Option.mem_def, Option.some.injEq] at hc
        subst hc
        simp only [List.nil_append]
        unfold skipV
        split
        · next heq => cases heq; simp at hd
        · next heq => cases heq; simp at hd
        · rfl
  · rfl
  · rfl

/-- **The texts that are read as versions.** Kind: P -/
theorem parseSemanticVersion_iff {s : CString} {v : SemanticVersion} :
    parseSemanticVersion s = some v ↔ ∃ pre ∈ vPrefixes, ∃ a b c suffix,
      s = pre ++ (a ++ '.' :: (b ++ '.' :: (c ++ suffix))) ∧ Numeral a v.major.toNat ∧
        Numeral b v.minor.toNat ∧ Numeral c v.patch.toNat ∧
        parseSuffix suffix = some (v.prerelease, v.build) := by
  constructor
  · intro h
    simp only [parseSemanticVersion] at h
    split at h
    · cases h
    obtain ⟨pre, hpre, hs⟩ := skipV_split s
    obtain ⟨a, b, c, suffix, hp, hrest⟩ := parseVersionNumbers_iff.mp h
    exact ⟨pre, hpre, a, b, c, suffix, by rw [← hp]; exact hs, hrest⟩
  · rintro ⟨pre, hpre, a, b, c, suffix, rfl, ha, hb, hc, hs⟩
    have hne : pre ++ (a ++ '.' :: (b ++ '.' :: (c ++ suffix))) ≠ [] := by simp
    obtain ⟨d, ds, rfl⟩ := List.exists_cons_of_ne_nil ha.ne
    rw [parseSemanticVersion, if_neg hne,
      skipV_append hpre (c := d) (by simp) (ha.digits d (by simp))]
    exact parseVersionNumbers_iff.mpr ⟨d :: ds, b, c, suffix, rfl, ha, hb, hc, hs⟩

/-! ## The order of versions that have been read -/

/-- A version without the part after `+`. -/
def stripBuild (s : CString) : CString := s.takeWhile fun c => c ≠ '+'

/-- The version without its suffix. -/
def SemanticVersion.core (v : SemanticVersion) : SemanticVersion :=
  { v with prerelease := none, build := none }

theorem numeral_noSuffix {ds : CString} {n : ℕ} (h : Numeral ds n) :
    ∀ c ∈ ds, c ≠ '-' ∧ c ≠ '+' := by
  intro c hc
  have hd := h.digits c hc
  exact ⟨by rintro rfl; simp at hd, by rintro rfl; simp at hd⟩

/-- A version is its numbers and what stands behind them. Kind: L -/
theorem parse_core {s : CString} {v : SemanticVersion} (h : parseSemanticVersion s = some v) :
    ∃ nums suffix, s = nums ++ suffix ∧ (∀ c ∈ nums, c ≠ '-' ∧ c ≠ '+') ∧
      parseSemanticVersion nums = some v.core ∧
      parseSuffix suffix = some (v.prerelease, v.build) := by
  obtain ⟨pre, hpre, a, b, c, suffix, rfl, ha, hb, hc, hs⟩ := parseSemanticVersion_iff.mp h
  refine ⟨pre ++ (a ++ '.' :: (b ++ '.' :: c)), suffix, by simp, ?_, ?_, hs⟩
  · have hpre' : ∀ d ∈ pre, d ≠ '-' ∧ d ≠ '+' := by
      simp only [vPrefixes, List.mem_cons, List.not_mem_nil, or_false] at hpre
      rcases hpre with rfl | rfl | rfl <;> simp
    intro d hd
    simp only [List.mem_append, List.mem_cons] at hd
    rcases hd with hd | hd | rfl | hd | rfl | hd
    · exact hpre' d hd
    · exact numeral_noSuffix ha d hd
    · decide
    · exact numeral_noSuffix hb d hd
    · decide
    · exact numeral_noSuffix hc d hd
  · exact parseSemanticVersion_iff.mpr
      ⟨pre, hpre, a, b, c, [], by simp, ha, hb, hc, rfl⟩

/-- What is left of a version without the part after `+`. Kind: L -/
theorem parse_stripBuild {s : CString} {v : SemanticVersion} (h : parseSemanticVersion s = some v) :
    ∃ nums, (∀ c ∈ nums, c ≠ '-') ∧ parseSemanticVersion nums = some v.core ∧
      ((v.prerelease = none ∧ stripBuild s = nums) ∨
        ∃ p q, v.prerelease = some p ∧ s = nums ++ '-' :: p ∧ stripBuild s = nums ++ '-' :: q) := by
  obtain ⟨nums, suffix, rfl, hnums, hcore, hs⟩ := parse_core h
  have hstrip : ∀ t : CString, stripBuild (nums ++ t) = nums ++ stripBuild t :=
    fun t => List.takeWhile_append_of_pos fun c hc => by simpa using (hnums c hc).2
  refine ⟨nums, fun c hc => (hnums c hc).1, hcore, ?_⟩
  rw [hstrip]
  unfold parseSuffix at hs
  dsimp only at hs
  split at hs
  · simp only [Option.some.injEq, Prod.mk.injEq] at hs
    exact Or.inl ⟨hs.1.symm, by simp [stripBuild]⟩
  · next p =>
    simp only [Option.some.injEq, Prod.mk.injEq] at hs
    exact Or.inr ⟨p, stripBuild p, hs.1.symm, rfl, by simp [stripBuild]⟩
  · simp only [Option.some.injEq, Prod.mk.injEq] at hs
    exact Or.inl ⟨hs.1.symm, by simp [stripBuild]⟩
  · cases hs

theorem sign_eq_zero {α : Type} [LinearOrder α] (a b : α) : sign a b = 0 ↔ a = b := by
  rcases lt_trichotomy a b with h | h | h
  · simp [sign, h, h.ne]
  · simp [sign, h]
  · simp [sign, h, h.not_gt, h.ne']

theorem sign_neg {α : Type} [LinearOrder α] (a b : α) : sign b a = -sign a b := by
  rcases lt_trichotomy a b with h | h | h
  · simp [sign, h, h.not_gt]
  · simp [sign, h]
  · simp [sign, h, h.not_gt]

theorem sign_nonpos {α : Type} [LinearOrder α] (a b : α) : sign a b ≤ 0 ↔ a ≤ b := by
  rcases lt_trichotomy a b with h | h | h
  · simp [sign, h, h.le]
  · simp [sign, h]
  · simp [sign, h, h.not_gt, h.not_ge]

theorem sign_neg_iff {α : Type} [LinearOrder α] (a b : α) : sign a b < 0 ↔ a < b := by
  rcases lt_trichotomy a b with h | h | h
  · simp [sign, h]
  · simp [sign, h]
  · simp [sign, h, h.not_gt]

/-- Two versions read from texts that differ only after `+` compare equal exactly when they have
no prerelease part or are the same text. Kind: L -/
theorem compare_build {s t : CString} {v w : SemanticVersion} (hs : parseSemanticVersion s = some v)
    (ht : parseSemanticVersion t = some w) (h : stripBuild s = stripBuild t) :
    compareSemanticVersions v w = 0 ↔ '-' ∉ stripBuild s ∨ s = t := by
  obtain ⟨nums, hnums, hcore, hv⟩ := parse_stripBuild hs
  obtain ⟨nums', hnums', hcore', hw⟩ := parse_stripBuild ht
  have htake : ∀ (m : CString), (∀ c ∈ m, c ≠ '-') → ∀ r : CString, r = [] ∨ (∃ q, r = '-' :: q) →
      (m ++ r).takeWhile (fun c => c ≠ '-') = m := by
    rintro m hm r (rfl | ⟨q, rfl⟩)
    · simpa using hm
    · rw [List.takeWhile_append_of_pos fun c hc => by simpa using hm c hc]
      simp
  have heq : ∀ (m m' r r' : CString), (∀ c ∈ m, c ≠ '-') → (∀ c ∈ m', c ≠ '-') →
      (r = [] ∨ ∃ q, r = '-' :: q) → (r' = [] ∨ ∃ q, r' = '-' :: q) →
        m ++ r = m' ++ r' → m = m' := by
    intro m m' r r' hm hm' hr hr' h
    rw [← htake m hm r hr, h, htake m' hm' r' hr']
  rw [compareSemanticVersions_eq, sign_eq_zero]
  rcases hv with ⟨hvp, hvs⟩ | ⟨p, q, hvp, rfl, hvs⟩
    <;> rcases hw with ⟨hwp, hws⟩ | ⟨p', q', hwp, rfl, hws⟩
  · have hsame : nums = nums' := by rw [← hvs, ← hws, h]
    rw [hsame, hcore', Option.some.injEq] at hcore
    have hno : '-' ∉ stripBuild s := by
      rw [hvs]
      exact fun hc => hnums _ hc rfl
    simp only [hno, not_false_eq_true, true_or, iff_true]
    simp only [SemanticVersion.core, SemanticVersion.mk.injEq] at hcore
    simp [SemanticVersion.precedence, hvp, hwp, hcore]
  · have : '-' ∈ stripBuild s := by
      rw [h, hws]
      simp
    rw [hvs] at this
    exact absurd rfl (hnums _ this)
  · have : '-' ∈ stripBuild t := by
      rw [← h, hvs]
      simp
    rw [hws] at this
    exact absurd rfl (hnums' _ this)
  · have hsame : nums = nums' :=
      heq nums nums' _ _ hnums hnums' (Or.inr ⟨q, rfl⟩) (Or.inr ⟨q', rfl⟩) (by rw [← hvs, ← hws, h])
    subst hsame
    rw [hcore', Option.some.injEq] at hcore
    simp only [SemanticVersion.core, SemanticVersion.mk.injEq] at hcore
    have hin : '-' ∈ stripBuild (nums ++ '-' :: p) := by
      rw [hvs]
      simp
    simp [SemanticVersion.precedence, hvp, hwp, hcore, hin, prereleaseRank]

/-- **The comparison of versions that have been read is a total order.** It goes by major, minor
and patch, puts a prerelease before its release, and does not see the part after `+` exactly
where there is no prerelease part: `prerelease` points to a suffix that has that part too.
Kind: P -/
theorem compareSemanticVersions_order {s t u : CString} {v w x : SemanticVersion}
    (hs : parseSemanticVersion s = some v) (ht : parseSemanticVersion t = some w)
    (_hu : parseSemanticVersion u = some x) :
    (compareSemanticVersions v v = 0 ∧
      compareSemanticVersions w v = -compareSemanticVersions v w ∧
      (compareSemanticVersions v w ≤ 0 → compareSemanticVersions w x ≤ 0 →
        compareSemanticVersions v x ≤ 0)) ∧
    ((v.major < w.major → compareSemanticVersions v w = -1) ∧
      (v.major = w.major → v.minor < w.minor → compareSemanticVersions v w = -1) ∧
      (v.major = w.major → v.minor = w.minor → v.patch < w.patch →
        compareSemanticVersions v w = -1) ∧
      (v.major = w.major → v.minor = w.minor → v.patch = w.patch → v.prerelease ≠ none →
        w.prerelease = none → compareSemanticVersions v w = -1)) ∧
    (stripBuild s = stripBuild t →
      (compareSemanticVersions v w = 0 ↔ '-' ∉ stripBuild s ∨ s = t)) := by
  refine ⟨⟨?_, ?_, ?_⟩, ⟨?_, ?_, ?_, ?_⟩, compare_build hs ht⟩
  · rw [compareSemanticVersions_eq, sign_eq_zero]
  · rw [compareSemanticVersions_eq, compareSemanticVersions_eq, sign_neg]
  · simp only [compareSemanticVersions_eq, sign_nonpos]
    exact le_trans
  · intro h
    simp [compareSemanticVersions, h]
  · intro h1 h2
    simp [compareSemanticVersions, h1, h2]
  · intro h1 h2 h3
    simp [compareSemanticVersions, h1, h2, h3]
  · intro h1 h2 h3 h4 h5
    obtain ⟨p, hp⟩ := Option.ne_none_iff_exists'.mp h4
    simp [compareSemanticVersions, h1, h2, h3, h5, hp]

theorem compareSemanticVersions_order_sample :
    compareSemanticVersions ⟨1, 0, 0, none, some ['1']⟩ ⟨1, 0, 0, none, some ['2']⟩ = 0 :=
  ((compareSemanticVersions_order (s := "1.0.0+1".toList) (t := "1.0.0+2".toList)
    (u := "2.0.0-rc".toList) (x := ⟨2, 0, 0, some ['r', 'c'], none⟩) (by decide) (by decide)
    (by decide)).2.2 (by decide)).mpr (Or.inl (by decide))

/-- **Two versions that differ only after `+` and do not compare equal**: `1.0.0-alpha+1` and
`1.0.0-alpha+2`. Kind: P -/
theorem compareSemanticVersions_build_differs : ∃ v w,
    parseSemanticVersion "1.0.0-alpha+1".toList = some v ∧
      parseSemanticVersion "1.0.0-alpha+2".toList = some w ∧
      stripBuild "1.0.0-alpha+1".toList = stripBuild "1.0.0-alpha+2".toList ∧
      compareSemanticVersions v w = -1 :=
  ⟨_, _, rfl, rfl, by decide, by decide⟩

end CxyCompiler.Package
