import Mathlib.Data.Set.Insert
import CxyCompiler.Package.VersionText

/-!
# Version constraints and the intervals they are documented to mean

* `Form`, `Reads`: the documented forms of constraints and their texts.
* `Form.range`: the interval of a form in the order of precedence.
* `Form.kept`: where the code keeps to it. `a.0.x` is taken for `a.x`, because a minor of zero
  stands for a missing one; a version with `x`, `X` or `*` in its suffix is taken for a wildcard;
  and a number before a wildcard that does not fit is cut short without an error.
* **`versionSatisfiesConstraint_range`**: a constraint holds for the release versions of its
  interval exactly where its form is kept.
-/

namespace CxyCompiler.Package

/-! ## The documented constraints -/

/-- The operators of constraints. -/
inductive Operator
  | caret
  | tilde
  | greater
  | greaterEq
  | less
  | lessEq
  deriving DecidableEq

def Operator.text : Operator → CString
  | .caret => ['^']
  | .tilde => ['~']
  | .greater => ['>']
  | .greaterEq => ['>', '=']
  | .less => ['<']
  | .lessEq => ['<', '=']

def Operator.type : Operator → VersionConstraintType
  | .caret => .caret
  | .tilde => .tilde
  | .greater => .greater
  | .greaterEq => .greaterEq
  | .less => .less
  | .lessEq => .lessEq

/-- What a constraint says: an operator and a version, `a.b.x`, `a.x`, `*`, or a version with its
text. -/
inductive Form
  | op (o : Operator) (v : SemanticVersion)
  | patchWildcard (a b : ℕ)
  | minorWildcard (a : ℕ)
  | any
  | exact (s : CString) (v : SemanticVersion)

def Spaces (sp : CString) : Prop := ∀ c ∈ sp, isspace c = true

/-- The texts of the documented constraints. -/
inductive Reads : CString → Form → Prop
  | op {sp sp' s : CString} {v : SemanticVersion} (o : Operator) (hsp : Spaces sp)
      (hsp₂ : Spaces sp') (hv : parseSemanticVersion s = some v) :
      Reads (sp ++ (o.text ++ (sp' ++ s))) (.op o v)
  | patchWildcard {sp da db : CString} {a b : ℕ} {x : Char} (hsp : Spaces sp) (ha : Numeral da a)
      (hb : Numeral db b) (hx : isWildcard x = true) :
      Reads (sp ++ (da ++ '.' :: (db ++ ['.', x]))) (.patchWildcard a b)
  | minorWildcard {sp da : CString} {a : ℕ} {x : Char} (hsp : Spaces sp) (ha : Numeral da a)
      (hx : isWildcard x = true) : Reads (sp ++ (da ++ ['.', x])) (.minorWildcard a)
  | any {sp : CString} (hsp : Spaces sp) : Reads (sp ++ ['*']) .any
  | empty : Reads [] .any
  | exact {sp s : CString} {v : SemanticVersion} (hsp : Spaces sp)
      (hv : parseSemanticVersion s = some v) : Reads (sp ++ s) (.exact s v)

/-- The next change of the leftmost part of a version that is not zero. -/
def caretBound (v : SemanticVersion) : Precedence :=
  if 0 < v.major.toNat then release (v.major.toNat + 1) 0 0
  else if 0 < v.minor.toNat then release 0 (v.minor.toNat + 1) 0
  else release 0 0 (v.patch.toNat + 1)

/-- The interval of an operator and a version. -/
def Operator.range (v : SemanticVersion) : Operator → Set Precedence
  | .caret => Set.Ico v.precedence (caretBound v)
  | .tilde => Set.Ico v.precedence (release v.major.toNat (v.minor.toNat + 1) 0)
  | .greater => Set.Ioi v.precedence
  | .greaterEq => Set.Ici v.precedence
  | .less => Set.Iio v.precedence
  | .lessEq => Set.Iic v.precedence

/-- **The interval a constraint is documented to mean.** -/
def Form.range : Form → Set Precedence
  | .op o v => o.range v
  | .patchWildcard a b => Set.Ico (release a b 0) (release a (b + 1) 0)
  | .minorWildcard a => Set.Ico (release a 0 0) (release (a + 1) 0 0)
  | .any => Set.univ
  | .exact _ v => {v.precedence}

/-- Where the code keeps to the interval. -/
def Form.kept : Form → Bool
  | .op _ _ => true
  | .patchWildcard a b => 0 < b && (a ≤ UINT32_MAX && b ≤ UINT32_MAX)
  | .minorWildcard a => a ≤ UINT32_MAX
  | .any => true
  | .exact s _ => !s.any isWildcard

/-! ## The parser on the documented texts -/

theorem skip_spaces {sp p : CString} (hsp : Spaces sp) (hp : ∀ c ∈ p.head?, isspace c = false) :
    (sp ++ p).dropWhile isspace = p := by
  rw [List.dropWhile_append_of_pos hsp]
  cases p with
  | nil => rfl
  | cons c p => rw [List.dropWhile_cons_of_neg (by simp [hp c (by simp)])]

theorem head_of_version {s : CString} {v : SemanticVersion} (h : parseSemanticVersion s = some v) :
    ∃ c p, s = c :: p ∧ (c.isDigit = true ∨ c = 'v' ∨ c = 'V') := by
  obtain ⟨pre, hpre, a, b, c, suffix, rfl, ha, -, -, -⟩ := parseSemanticVersion_iff.mp h
  obtain ⟨d, ds, rfl⟩ := List.exists_cons_of_ne_nil ha.ne
  simp only [vPrefixes, List.mem_cons, List.not_mem_nil, or_false] at hpre
  rcases hpre with rfl | rfl | rfl
  · exact ⟨d, _, rfl, Or.inl (ha.digits d (by simp))⟩
  · exact ⟨'v', _, rfl, Or.inr (Or.inl rfl)⟩
  · exact ⟨'V', _, rfl, Or.inr (Or.inr rfl)⟩

/-- A character that no operator starts with. -/
def isPlain (c : Char) : Bool :=
  !isspace c && (c ≠ '^' && (c ≠ '~' && (c ≠ '>' && (c ≠ '<' && (c ≠ '*' && c ≠ '=')))))

theorem isPlain_of_digit {c : Char} (h : c.isDigit = true) : isPlain c = true := by
  have hne : ∀ d : Char, d.isDigit = false → c ≠ d := by
    rintro d hd rfl
    rw [h] at hd
    cases hd
  simp [isPlain, isspace, hne ' ' (by decide), hne '\t' (by decide), hne '\n' (by decide),
    hne '\x0b' (by decide), hne '\x0c' (by decide), hne '\r' (by decide), hne '^' (by decide),
    hne '~' (by decide), hne '>' (by decide), hne '<' (by decide), hne '*' (by decide),
    hne '=' (by decide)]

theorem plain_head_of_version {s : CString} {v : SemanticVersion}
    (h : parseSemanticVersion s = some v) : ∃ c p, s = c :: p ∧ isPlain c = true := by
  obtain ⟨c, p, rfl, hc⟩ := head_of_version h
  refine ⟨c, p, rfl, ?_⟩
  rcases hc with hc | rfl | rfl
  · exact isPlain_of_digit hc
  · decide
  · decide

theorem plain_not_space {c : Char} (h : isPlain c = true) : isspace c = false := by
  simp only [isPlain, Bool.and_eq_true, Bool.not_eq_true'] at h
  exact h.1

theorem constraintOperator_plain {c : Char} {p : CString} (h : isPlain c = true) :
    constraintOperator (c :: p) =
      (if (c :: p).any isWildcard then .wildcard else .exact, c :: p) := by
  simp only [isPlain, Bool.and_eq_true, decide_eq_true_eq] at h
  unfold constraintOperator
  split
  all_goals first | rfl | (next heq => cases heq; simp_all)

theorem constraintOperator_op {p : CString} (o : Operator) (hp : p.head? ≠ some '=') :
    constraintOperator (o.text ++ p) = (o.type, p) := by
  have hgt : ∀ c q, c ≠ '=' → constraintOperator ('>' :: c :: q) = (.greater, c :: q) := by
    intro c q hc
    simp [constraintOperator, hc]
  have hlt : ∀ c q, c ≠ '=' → constraintOperator ('<' :: c :: q) = (.less, c :: q) := by
    intro c q hc
    simp [constraintOperator, hc]
  cases o with
  | greater =>
      cases p with
      | nil => rfl
      | cons c p => exact hgt c p (by simpa using hp)
  | less =>
      cases p with
      | nil => rfl
      | cons c p => exact hlt c p (by simpa using hp)
  | _ => rfl

theorem parseVersionConstraint_ne {s : CString} (hs : s ≠ []) :
    parseVersionConstraint (some s) =
      match constraintOperator (s.dropWhile isspace) with
      | (.any, _) => some ⟨.any, .zero, some s⟩
      | (.wildcard, p) => some ⟨.wildcard, parseWildcard (p.dropWhile isspace), some s⟩
      | (type, p) => (parseSemanticVersion (p.dropWhile isspace)).map fun v =>
          ⟨type, v, some s⟩ := by
  cases s with
  | nil => exact absurd rfl hs
  | cons c s => rfl

theorem parse_op {sp sp' s : CString} {v : SemanticVersion} (o : Operator) (hsp : Spaces sp)
    (hsp₂ : Spaces sp') (hv : parseSemanticVersion s = some v) :
    parseVersionConstraint (some (sp ++ (o.text ++ (sp' ++ s)))) =
      some ⟨o.type, v, some (sp ++ (o.text ++ (sp' ++ s)))⟩ := by
  obtain ⟨c, p, rfl, hc⟩ := plain_head_of_version hv
  have hne : sp ++ (o.text ++ (sp' ++ c :: p)) ≠ [] := by simp
  have htext : ∀ d ∈ (o.text ++ (sp' ++ c :: p)).head?, isspace d = false := by
    cases o <;> simp [Operator.text] <;> decide
  have hop : (sp' ++ c :: p).head? ≠ some '=' := by
    cases sp' with
    | nil =>
        rintro h
        simp only [List.nil_append, List.head?_cons, Option.some.injEq] at h
        subst h
        exact absurd hc (by decide)
    | cons d sp' =>
        rintro h
        simp only [List.cons_append, List.head?_cons, Option.some.injEq] at h
        subst h
        exact absurd (hsp₂ '=' (by simp)) (by decide)
  rw [parseVersionConstraint_ne hne, skip_spaces hsp htext, constraintOperator_op o hop]
  have hrest : (sp' ++ c :: p).dropWhile isspace = c :: p :=
    skip_spaces hsp₂ (by simpa using plain_not_space hc)
  cases o <;> simp [Operator.type, hrest, hv]

theorem parse_plain {sp s : CString} {c : Char} {p : CString} (hsp : Spaces sp) (hs : s = c :: p)
    (hc : isPlain c = true) :
    parseVersionConstraint (some (sp ++ s)) =
      if s.any isWildcard then some ⟨.wildcard, parseWildcard s, some (sp ++ s)⟩
      else (parseSemanticVersion s).map fun v => ⟨.exact, v, some (sp ++ s)⟩ := by
  subst hs
  have hhead : ∀ d ∈ (c :: p).head?, isspace d = false := by simpa using plain_not_space hc
  have hskip : (c :: p).dropWhile isspace = c :: p :=
    skip_spaces (show Spaces [] by simp [Spaces]) hhead
  rw [parseVersionConstraint_ne (by simp), skip_spaces hsp hhead, constraintOperator_plain hc]
  cases hw : (c :: p).any isWildcard with
  | true => simp only [if_true, hskip]
  | false => simp only [Bool.false_eq_true, if_false, hskip]

/-! ## The order of releases -/

theorem release_lt (a b c a' b' c' : ℕ) :
    release a b c < release a' b' c' ↔ a < a' ∨ a = a' ∧ (b < b' ∨ b = b' ∧ c < c') := by
  simp [release, Prod.Lex.toLex_lt_toLex]

theorem precedence_le_release (w : SemanticVersion) (a b c : ℕ) :
    w.precedence ≤ release a b c ↔ w.major.toNat < a ∨
      w.major.toNat = a ∧ (w.minor.toNat < b ∨ w.minor.toNat = b ∧ w.patch.toNat ≤ c) := by
  simp [release, SemanticVersion.precedence, Prod.Lex.toLex_le_toLex, Nat.le_iff_lt_or_eq]

theorem release_le (a b c a' b' c' : ℕ) :
    release a b c ≤ release a' b' c' ↔ a < a' ∨ a = a' ∧ (b < b' ∨ b = b' ∧ c ≤ c') := by
  simp [release, Prod.Lex.toLex_le_toLex, Nat.le_iff_lt_or_eq]

theorem precedence_release {v : SemanticVersion} (h : v.prerelease = none) :
    v.precedence = release v.major.toNat v.minor.toNat v.patch.toNat := by
  simp [SemanticVersion.precedence, release, h, prereleaseRank]

/-! ## What the constraints hold for -/

/-- From a version at most `v` on, the next change of the leftmost part of it that is not zero is
what the code tests. Kind: L -/
theorem satisfies_caret {v w : SemanticVersion} (hv : v.prerelease = none)
    (h : w.precedence ≤ v.precedence) :
    v.precedence < caretBound w ↔
      (if 0 < w.major then v.major = w.major
      else if 0 < w.minor then v.major = 0 ∧ v.minor = w.minor
      else v.major = 0 ∧ v.minor = 0 ∧ v.patch = w.patch) := by
  rw [precedence_release hv, precedence_le_release] at h
  rw [precedence_release hv, caretBound]
  simp only [UInt32.lt_iff_toNat_lt, UInt32.toNat_zero, ← UInt32.toNat_inj]
  split
  · rw [release_lt]
    omega
  · split
    · rw [release_lt]
      omega
    · rw [release_lt]
      omega

theorem satisfies_tilde {v w : SemanticVersion} (hv : v.prerelease = none)
    (h : w.precedence ≤ v.precedence) :
    v.precedence < release w.major.toNat (w.minor.toNat + 1) 0 ↔
      v.major = w.major ∧ v.minor = w.minor := by
  rw [precedence_release hv, precedence_le_release] at h
  rw [precedence_release hv, release_lt, ← UInt32.toNat_inj, ← UInt32.toNat_inj]
  omega

/-- **An operator holds for the releases of its interval.** Kind: L -/
theorem satisfies_op {v w : SemanticVersion} (hv : v.prerelease = none) (o : Operator)
    (raw : Option CString) :
    versionSatisfiesConstraint v ⟨o.type, w, raw⟩ = true ↔ v.precedence ∈ o.range w := by
  cases o with
  | caret =>
      simp only [versionSatisfiesConstraint, Operator.type, Operator.range, Set.mem_Ico,
        compareSemanticVersions_eq, sign_neg_iff]
      split
      · next h => simp [h.not_ge]
      · next h =>
        rw [not_lt] at h
        simp only [h, true_and, satisfies_caret hv h]
        split
        · simp
        · split <;> simp
  | tilde =>
      simp only [versionSatisfiesConstraint, Operator.type, Operator.range, Set.mem_Ico,
        compareSemanticVersions_eq, sign_neg_iff]
      split
      · next h => simp [h.not_ge]
      · next h =>
        rw [not_lt] at h
        simp [h, satisfies_tilde hv h]
  | greater =>
      simp only [versionSatisfiesConstraint, Operator.type, Operator.range, Set.mem_Ioi,
        compareSemanticVersions_eq, decide_eq_true_eq, ← not_le, sign_nonpos]
  | greaterEq =>
      simp only [versionSatisfiesConstraint, Operator.type, Operator.range, Set.mem_Ici,
        compareSemanticVersions_eq, decide_eq_true_eq, ← not_lt, sign_neg_iff]
  | less =>
      simp only [versionSatisfiesConstraint, Operator.type, Operator.range, Set.mem_Iio,
        compareSemanticVersions_eq, decide_eq_true_eq, sign_neg_iff]
  | lessEq =>
      simp only [versionSatisfiesConstraint, Operator.type, Operator.range, Set.mem_Iic,
        compareSemanticVersions_eq, decide_eq_true_eq, sign_nonpos]

/-- The release with these numbers. -/
def releaseVersion (a b c : UInt32) : SemanticVersion := ⟨a, b, c, none, none⟩

theorem satisfies_wildcard (v w : SemanticVersion) (raw : Option CString) :
    versionSatisfiesConstraint v ⟨.wildcard, w, raw⟩ = true ↔
      v.major = w.major ∧ (0 < w.minor → v.minor = w.minor) := by
  simp only [versionSatisfiesConstraint, ne_eq, ite_not]
  split
  · next h =>
    split
    · next h' => simp [h, h']
    · next h' => simp [h, h']
  · next h => simp [h]

/-- A wildcard holds for the releases with its major and minor, whatever their patch. Kind: L -/
theorem satisfies_wildcard_own (w : SemanticVersion) (c : UInt32) (raw : Option CString) :
    versionSatisfiesConstraint (releaseVersion w.major w.minor c) ⟨.wildcard, w, raw⟩ = true :=
  (satisfies_wildcard _ w raw).mpr ⟨rfl, fun _ => rfl⟩

theorem numeral_plain {ds : CString} {n : ℕ} (h : Numeral ds n) (p : CString) :
    ∃ c q, ds ++ p = c :: q ∧ isPlain c = true ∧ isWildcard c = false := by
  obtain ⟨c, ds, rfl⟩ := List.exists_cons_of_ne_nil h.ne
  have hd := h.digits c (by simp)
  have hne : ∀ d : Char, d.isDigit = false → c ≠ d := by
    rintro d hd' rfl
    rw [hd] at hd'
    cases hd'
  refine ⟨c, ds ++ p, rfl, isPlain_of_digit hd, ?_⟩
  simp [isWildcard, hne 'x' (by decide), hne 'X' (by decide), hne '*' (by decide)]

/-- A number before a wildcard that does not fit is cut short, and what follows is not read.
Kind: L -/
theorem parseWildcard_overflow {da p : CString} {a : ℕ} (ha : Numeral da a)
    (hbig : UINT32_MAX < a) :
    ∃ m ≤ UINT32_MAX, parseWildcard (da ++ p) = ⟨.ofNat m, 0, 0, none, none⟩ := by
  obtain ⟨m, d, q, hparse, hm, hd⟩ := ha.parse_overflow p hbig
  refine ⟨m, hm, ?_⟩
  have hdot : d ≠ '.' := by
    rintro rfl
    cases hd
  simp only [parseWildcard, hparse]
  split
  · next heq => exact absurd (List.cons.inj heq).1 hdot
  · rfl

theorem parseWildcard_minor {da : CString} {a : ℕ} {x : Char} (ha : Numeral da a)
    (hx : isWildcard x = true) (hfit : a ≤ UINT32_MAX) :
    parseWildcard (da ++ ['.', x]) = ⟨.ofNat a, 0, 0, none, none⟩ := by
  simp [parseWildcard, ha.parse_fits (noDigit_cons (c := '.') (by decide)) hfit, atWildcard, hx]

theorem parseWildcard_patch {da db : CString} {a b : ℕ} {x : Char} (ha : Numeral da a)
    (hb : Numeral db b) (hx : isWildcard x = true) (hfit : a ≤ UINT32_MAX)
      (hfit' : b ≤ UINT32_MAX) :
    parseWildcard (da ++ '.' :: (db ++ ['.', x])) = ⟨.ofNat a, .ofNat b, 0, none, none⟩ := by
  obtain ⟨c, q, hq, -, hc⟩ := numeral_plain hb ['.', x]
  have hat : atWildcard (db ++ ['.', x]) = false := by simp [hq, atWildcard, hc]
  have hat' : atWildcard [x] = true := hx
  simp only [parseWildcard, ha.parse_fits (noDigit_cons (c := '.') (by decide)) hfit, hat, hat',
    Bool.false_eq_true, if_false, hb.parse_fits (noDigit_cons (c := '.') (by decide)) hfit',
    if_true]

theorem parseWildcard_minor_overflow {da db p : CString} {a b : ℕ} (ha : Numeral da a)
    (hb : Numeral db b) (hfit : a ≤ UINT32_MAX) (hbig : UINT32_MAX < b) :
    ∃ m ≤ UINT32_MAX, parseWildcard (da ++ '.' :: (db ++ p)) = ⟨.ofNat a,
      .ofNat m, 0, none, none⟩ := by
  obtain ⟨c, q, hq, -, hc⟩ := numeral_plain hb p
  obtain ⟨m, d, q', hparse, hm, hd⟩ := hb.parse_overflow p hbig
  refine ⟨m, hm, ?_⟩
  have hat : atWildcard (db ++ p) = false := by simp [hq, atWildcard, hc]
  have hdot : d ≠ '.' := by
    rintro rfl
    cases hd
  simp only [parseWildcard, ha.parse_fits (noDigit_cons (c := '.') (by decide)) hfit, hat,
    Bool.false_eq_true, if_false, hparse]
  split
  · next heq => exact absurd (List.cons.inj heq).1 hdot
  · rfl

/-! ## Constraints and intervals -/

/-- A release of the interval of `a.b.x`. Kind: L -/
theorem mem_patchWildcard {v : SemanticVersion} (hv : v.prerelease = none) (a b : ℕ) :
    v.precedence ∈ (Form.patchWildcard a b).range ↔ v.major.toNat = a ∧ v.minor.toNat = b := by
  simp only [Form.range, precedence_release hv, Set.mem_Ico, release_le, release_lt]
  omega

theorem mem_minorWildcard {v : SemanticVersion} (hv : v.prerelease = none) (a : ℕ) :
    v.precedence ∈ (Form.minorWildcard a).range ↔ v.major.toNat = a := by
  simp only [Form.range, precedence_release hv, Set.mem_Ico, release_le, release_lt]
  omega

/-- The constraint of `a.b.x` holds for the releases of its interval exactly where `b` is not zero
and both numbers fit. Kind: L -/
theorem satisfies_patchWildcard {da db : CString} {a b : ℕ} {x : Char} (ha : Numeral da a)
    (hb : Numeral db b) (hx : isWildcard x = true) (raw : Option CString) :
    (∀ v : SemanticVersion, v.prerelease = none →
      (versionSatisfiesConstraint v
        ⟨.wildcard, parseWildcard (da ++ '.' :: (db ++ ['.', x])), raw⟩ =
        true ↔ v.precedence ∈ (Form.patchWildcard a b).range)) ↔
      (Form.patchWildcard a b).kept = true := by
  simp only [Form.kept, Bool.and_eq_true, decide_eq_true_eq]
  constructor
  · intro h
    -- releases that the constraint read holds for
    have hown : ∀ w, parseWildcard (da ++ '.' :: (db ++ ['.', x])) = w →
        w.major.toNat = a ∧ w.minor.toNat = b := by
      rintro w rfl
      have hmem := (h (releaseVersion _ _ 0) rfl).mp (satisfies_wildcard_own _ 0 raw)
      exact (mem_patchWildcard (v := releaseVersion _ _ 0) rfl a b).mp hmem
    by_cases hfa : a ≤ UINT32_MAX
    · by_cases hfb : b ≤ UINT32_MAX
      · refine ⟨Nat.pos_of_ne_zero ?_, hfa, hfb⟩
        rintro rfl
        have hone := (h (releaseVersion (.ofNat a) 1 0) rfl).mp (by
          rw [parseWildcard_patch ha hb hx hfa hfb, satisfies_wildcard]
          exact ⟨rfl, fun h0 => absurd (show (0 : UInt32) < 0 from h0) (by decide)⟩)
        have hminor : (1 : UInt32).toNat = 0 := ((mem_patchWildcard rfl a 0).mp hone).2
        exact absurd hminor (by decide)
      · obtain ⟨m, hm, hw⟩ := parseWildcard_minor_overflow ha hb hfa (not_le.mp hfb) (p := ['.', x])
        have := (hown _ hw).2
        rw [toNat_ofNat hm] at this
        omega
    · obtain ⟨m, hm, hw⟩ := parseWildcard_overflow ha (not_le.mp hfa) (p := '.' :: (db ++ ['.', x]))
      have := (hown _ hw).1
      rw [toNat_ofNat hm] at this
      omega
  · rintro ⟨hpos, hfa, hfb⟩ v hv
    rw [parseWildcard_patch ha hb hx hfa hfb, satisfies_wildcard, mem_patchWildcard hv,
      UInt32.lt_iff_toNat_lt, ← UInt32.toNat_inj, ← UInt32.toNat_inj, toNat_ofNat hfa,
      toNat_ofNat hfb]
    simp [hpos]

/-- The constraint of `a.x` holds for the releases of its interval exactly where `a` fits.
Kind: L -/
theorem satisfies_minorWildcard {da : CString} {a : ℕ} {x : Char} (ha : Numeral da a)
    (hx : isWildcard x = true) (raw : Option CString) :
    (∀ v : SemanticVersion, v.prerelease = none →
      (versionSatisfiesConstraint v ⟨.wildcard, parseWildcard (da ++ ['.', x]), raw⟩ = true ↔
        v.precedence ∈ (Form.minorWildcard a).range)) ↔ (Form.minorWildcard a).kept = true := by
  simp only [Form.kept, decide_eq_true_eq]
  constructor
  · intro h
    by_contra hbig
    obtain ⟨m, hm, hw⟩ := parseWildcard_overflow ha (not_le.mp hbig) (p := ['.', x])
    have hmem := (h (releaseVersion _ _ 0) rfl).mp (satisfies_wildcard_own _ 0 raw)
    have hown := (mem_minorWildcard rfl a).mp hmem
    simp only [hw, releaseVersion, toNat_ofNat hm] at hown
    omega
  · intro hfa v hv
    rw [parseWildcard_minor ha hx hfa, satisfies_wildcard, mem_minorWildcard hv,
      ← UInt32.toNat_inj, toNat_ofNat hfa]
    simp

/-- A version taken for a wildcard holds for a release that it is not. Kind: L -/
theorem satisfies_misread (s : CString) (w : SemanticVersion) (raw : Option CString) :
    ¬ ∀ v : SemanticVersion, v.prerelease = none →
      (versionSatisfiesConstraint v ⟨.wildcard, parseWildcard s, raw⟩ = true ↔
        v.precedence ∈ (Form.exact s w).range) := by
  intro h
  have hown : ∀ c : UInt32, c = w.patch := by
    intro c
    have hc := (h _ rfl).mp (satisfies_wildcard_own (parseWildcard s) c raw)
    simp only [Form.range, Set.mem_singleton_iff, SemanticVersion.precedence, toLex_inj,
      Prod.mk.injEq] at hc
    exact UInt32.toNat_inj.mp hc.2.2.1
  exact absurd ((hown 0).trans (hown 1).symm) (by decide)

/-- **Constraints mean their documented intervals where their form is kept.** Every documented text
is accepted, and the constraint read holds for exactly the releases of its interval if and only
if the text is not `a.0.x`, not a version with a wildcard letter in its suffix, and has no number
that does not fit before a wildcard. Kind: P -/
theorem versionSatisfiesConstraint_range {c : CString} {f : Form} (hc : Reads c f) :
    ∃ k, parseVersionConstraint (some c) = some k ∧
      ((∀ v : SemanticVersion, v.prerelease = none →
        (versionSatisfiesConstraint v k = true ↔ v.precedence ∈ f.range)) ↔ f.kept = true) := by
  cases hc with
  | op o hsp hsp₂ hv =>
      refine ⟨_, parse_op o hsp hsp₂ hv, ?_⟩
      simp only [Form.kept, iff_true]
      exact fun v hrel => satisfies_op hrel o _
  | patchWildcard hsp ha hb hx =>
      rename_i sp da db a b x
      obtain ⟨d, q, hq, hd, -⟩ := numeral_plain ha ('.' :: (db ++ ['.', x]))
      have hany : (da ++ '.' :: (db ++ ['.', x])).any isWildcard = true := by simp [hx]
      refine ⟨_, by rw [parse_plain hsp hq hd, if_pos hany], ?_⟩
      exact satisfies_patchWildcard ha hb hx _
  | minorWildcard hsp ha hx =>
      rename_i sp da a x
      obtain ⟨d, q, hq, hd, -⟩ := numeral_plain ha ['.', x]
      have hany : (da ++ ['.', x]).any isWildcard = true := by simp [hx]
      refine ⟨_, by rw [parse_plain hsp hq hd, if_pos hany], ?_⟩
      exact satisfies_minorWildcard ha hx _
  | any hsp =>
      refine ⟨_, by
        rw [parseVersionConstraint_ne (by simp), skip_spaces hsp (by simp; decide)]
        rfl, ?_⟩
      simp [versionSatisfiesConstraint, Form.range, Form.kept]
  | empty =>
      refine ⟨_, rfl, ?_⟩
      simp [versionSatisfiesConstraint, Form.range, Form.kept]
  | exact hsp hv =>
      rename_i sp s w
      obtain ⟨d, q, hq, hd⟩ := plain_head_of_version hv
      have hparse := parse_plain hsp hq hd
      cases hw : s.any isWildcard with
      | true =>
          rw [hw, if_pos rfl] at hparse
          refine ⟨_, hparse, ?_⟩
          simp only [Form.kept, hw, Bool.not_true, Bool.false_eq_true, iff_false]
          exact satisfies_misread s w _
      | false =>
          rw [hw, if_neg (by simp), hv, Option.map_some] at hparse
          refine ⟨_, hparse, ?_⟩
          simp only [Form.kept, hw, Bool.not_false, iff_true]
          intro v _
          simp only [versionSatisfiesConstraint, decide_eq_true_eq, compareSemanticVersions_eq,
            sign_eq_zero, Form.range, Set.mem_singleton_iff]

theorem versionSatisfiesConstraint_range_sample :
    ∃ k, parseVersionConstraint (some "^0.2.3".toList) = some k ∧
      ((∀ v : SemanticVersion, v.prerelease = none → (versionSatisfiesConstraint v k = true ↔
        v.precedence ∈ (Form.op .caret ⟨0, 2, 3, none, none⟩).range)) ↔
        (Form.op .caret ⟨0, 2, 3, none, none⟩).kept = true) :=
  versionSatisfiesConstraint_range (c := "^0.2.3".toList)
    (Reads.op (s := "0.2.3".toList) .caret (show Spaces [] by simp [Spaces])
      (show Spaces [] by simp [Spaces]) (by decide))

/-- **`1.0.x` holds for 1.1.0**, which is not in `[1.0.0, 1.1.0)`. Kind: P -/
theorem versionSatisfiesConstraint_zero_minor :
    Reads "1.0.x".toList (.patchWildcard 1 0) ∧
      ∃ k, parseVersionConstraint (some "1.0.x".toList) = some k ∧
        versionSatisfiesConstraint (releaseVersion 1 1 0) k = true ∧
        (releaseVersion 1 1 0).precedence ∉ (Form.patchWildcard 1 0).range := by
  refine ⟨?_, _, rfl, by decide, ?_⟩
  · exact Reads.patchWildcard (x := 'x') (show Spaces [] by simp [Spaces])
      (show Numeral ['1'] 1 from ⟨by simp, by simp, rfl⟩)
      (show Numeral ['0'] 0 from ⟨by simp, by simp, rfl⟩) rfl
  · rw [mem_patchWildcard rfl]
    decide

end CxyCompiler.Package
