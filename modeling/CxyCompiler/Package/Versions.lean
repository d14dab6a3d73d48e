import Mathlib.Data.Char
import Mathlib.Data.List.Lex
import Mathlib.Data.Prod.Lex
import Mathlib.Order.WithBot
import Mathlib.Order.Interval.Set.Defs

/-!
# Semantic versions and version constraints

`types.c` reads versions `1.2.3-alpha+5` and constraints `^1.2.3` and compares them;
`validators.c` checks versions before a Cxyfile is accepted.

* `parseNumber`, `parseSemanticVersion`: the reader of versions.
* `parseVersionConstraint`, `versionSatisfiesConstraint`: the reader and the meaning of
  constraints.
* `validateSemanticVersion`, `validateDependencyVersion`: what a Cxyfile may contain.
* **`compareSemanticVersions_eq`**: the comparison is that of a linear order.

A C string is the list of its characters before the terminating NUL. The suffixes that
`prerelease` and `build` point to go to the end of the string they were read from.

Sources: `package/types.c`, `package/validators.c`, `package/cxyfile.c`.
-/

namespace CxyCompiler.Package

/-- A string of C, without its NUL. -/
abbrev CString := List Char

/-- Source: `isspace` of the C locale. -/
def isspace (c : Char) : Bool :=
  c = ' ' || c = '\t' || c = '\n' || c = '\x0b' || c = '\x0c' || c = '\r'

def UINT32_MAX : ℕ := 4294967295

/-! ## Numbers -/

/-- The value of a digit. -/
def digitValue (c : Char) : ℕ := c.toNat - '0'.toNat

/-- What reading a number gives: whether one was there and fitted, its value, and the text behind
it. -/
structure Scan where
  ok : Bool
  num : ℕ
  rest : CString
  deriving DecidableEq

/-- The loop of `parseNumber`. Source: `types.c` `parseNumber`. -/
def parseDigits (num : ℕ) : CString → Scan
  | [] => ⟨true, num, []⟩
  | c :: p =>
      if c.isDigit then
        if (UINT32_MAX - digitValue c) / 10 < num then ⟨false, num, c :: p⟩
        else parseDigits (num * 10 + digitValue c) p
      else ⟨true, num, c :: p⟩

/-- Read a number into a variable that is 0. Source: `types.c` `parseNumber`. -/
def parseNumber : CString → Scan
  | [] => ⟨false, 0, []⟩
  | c :: p => if c.isDigit then parseDigits 0 (c :: p) else ⟨false, 0, c :: p⟩

/-! ## Versions -/

/-- Source: `types.h` `SemanticVersion`. -/
structure SemanticVersion where
  major : UInt32
  minor : UInt32
  patch : UInt32
  prerelease : Option CString
  build : Option CString
  deriving DecidableEq

/-- `(SemanticVersion){0, 0, 0, NULL, NULL}`. -/
def SemanticVersion.zero : SemanticVersion := ⟨0, 0, 0, none, none⟩

/-- The part after the numbers: `prerelease` points behind `-`, `build` behind `+`.
Source: `types.c` `parseSemanticVersion`. -/
def parseSuffix (p : CString) : Option (Option CString × Option CString) :=
  let build : CString → Option CString
    | '+' :: p => some p
    | _ => none
  match p with
  | [] => some (none, none)
  | '-' :: p => some (some p, build (p.dropWhile fun c => c ≠ '+'))
  | '+' :: p => some (none, build ('+' :: p))
  | _ => none

/-- Source: `types.c` `parseSemanticVersion`, the part after an optional `v`. -/
def parseVersionNumbers (p : CString) : Option SemanticVersion :=
  let major := parseNumber p
  if !major.ok then none else
  match major.rest with
  | '.' :: p =>
      let minor := parseNumber p
      if !minor.ok then none else
      match minor.rest with
      | '.' :: p =>
          let patch := parseNumber p
          if !patch.ok then none else
          (parseSuffix patch.rest).map fun s =>
            ⟨.ofNat major.num, .ofNat minor.num, .ofNat patch.num, s.1, s.2⟩
      | _ => none
  | _ => none

/-- Skip an optional `v`. -/
def skipV : CString → CString
  | 'v' :: p => p
  | 'V' :: p => p
  | p => p

/-- Source: `types.c` `parseSemanticVersion`. -/
def parseSemanticVersion (str : CString) : Option SemanticVersion :=
  if str = [] then none else parseVersionNumbers (skipV str)

/-- Characters compared as unsigned bytes. Source: `strcmp`. -/
def strcmp : CString → CString → Int
  | [], [] => 0
  | [], _ :: _ => -1
  | _ :: _, [] => 1
  | a :: as, b :: bs => if a = b then strcmp as bs else if a < b then -1 else 1

/-- Source: `types.c` `compareSemanticVersions`. -/
def compareSemanticVersions (a b : SemanticVersion) : Int :=
  if a.major < b.major then -1
  else if b.major < a.major then 1
  else if a.minor < b.minor then -1
  else if b.minor < a.minor then 1
  else if a.patch < b.patch then -1
  else if b.patch < a.patch then 1
  else match a.prerelease, b.prerelease with
    | none, some _ => 1
    | some _, none => -1
    | some p, some q =>
        let cmp := strcmp p q
        if cmp ≠ 0 then (if cmp < 0 then -1 else 1) else 0
    | none, none => 0

/-! ## Constraints -/

/-- Source: `types.h` `VersionConstraintType`. -/
inductive VersionConstraintType
  | exact
  | caret
  | tilde
  | greater
  | greaterEq
  | less
  | lessEq
  | wildcard
  | any
  deriving DecidableEq

/-- `raw` is the text of the constraint, none for NULL. Source: `types.h` `VersionConstraint`. -/
structure VersionConstraint where
  type : VersionConstraintType
  version : SemanticVersion
  raw : Option CString
  deriving DecidableEq

def isWildcard (c : Char) : Bool := c = 'x' || c = 'X' || c = '*'

/-- The text at `p` starts with a wildcard letter. -/
def atWildcard : CString → Bool
  | c :: _ => isWildcard c
  | [] => false

/-- Read what there is of numbers before a wildcard; that no number is there is not noticed.
Source: `types.c` `parseVersionConstraint`. -/
def parseWildcard (p : CString) : SemanticVersion :=
  let major := parseNumber p
  match major.rest with
  | '.' :: v =>
      if atWildcard v then ⟨.ofNat major.num, 0, 0, none, none⟩ else
      let minor := parseNumber v
      match minor.rest with
      | '.' :: v =>
          if atWildcard v then ⟨.ofNat major.num, .ofNat minor.num, 0, none, none⟩
          else ⟨.ofNat major.num, .ofNat minor.num, .ofNat (parseNumber v).num, none, none⟩
      | _ => ⟨.ofNat major.num, .ofNat minor.num, 0, none, none⟩
  | _ => ⟨.ofNat major.num, 0, 0, none, none⟩

/-- The operator at the start of a constraint and the text behind it.
Source: `types.c` `parseVersionConstraint`. -/
def constraintOperator : CString → VersionConstraintType × CString
  | '^' :: p => (.caret, p)
  | '~' :: p => (.tilde, p)
  | '>' :: '=' :: p => (.greaterEq, p)
  | '>' :: p => (.greater, p)
  | '<' :: '=' :: p => (.lessEq, p)
  | '<' :: p => (.less, p)
  | '*' :: p => (.any, p)
  | p => (if p.any isWildcard then .wildcard else .exact, p)

/-- Source: `types.c` `parseVersionConstraint`. -/
def parseVersionConstraint (str : Option CString) : Option VersionConstraint :=
  match str with
  | none => some ⟨.any, .zero, none⟩
  | some [] => some ⟨.any, .zero, some []⟩
  | some s =>
      match constraintOperator (s.dropWhile isspace) with
      | (.any, _) => some ⟨.any, .zero, some s⟩
      | (.wildcard, p) => some ⟨.wildcard, parseWildcard (p.dropWhile isspace), some s⟩
      | (type, p) => (parseSemanticVersion (p.dropWhile isspace)).map fun v => ⟨type, v, some s⟩

/-- Source: `types.c` `versionSatisfiesConstraint`. -/
def versionSatisfiesConstraint (version : SemanticVersion) (constraint : VersionConstraint) :
    Bool :=
  let cmp := compareSemanticVersions version constraint.version
  match constraint.type with
  | .exact => cmp = 0
  | .caret =>
      if cmp < 0 then false
      else if 0 < constraint.version.major then version.major = constraint.version.major
      else if 0 < constraint.version.minor then
        version.major = 0 && version.minor = constraint.version.minor
      else version.major = 0 && (version.minor = 0 && version.patch = constraint.version.patch)
  | .tilde =>
      if cmp < 0 then false
      else version.major = constraint.version.major && version.minor = constraint.version.minor
  | .greater => 0 < cmp
  | .greaterEq => 0 ≤ cmp
  | .less => cmp < 0
  | .lessEq => cmp ≤ 0
  | .wildcard =>
      if version.major ≠ constraint.version.major then false
      else if 0 < constraint.version.minor then version.minor = constraint.version.minor
      else true
  | .any => true

/-! ## Validation -/

def atDigit : CString → Bool
  | c :: _ => c.isDigit
  | [] => false

/-- One number of a version and the dot behind it, when `dot` is set; none of the messages is
given when it is well formed. `strtoul` goes to the end of the digits, whatever their value.
Source: `validators.c` `validateSemanticVersion`. -/
def validateNumber (missing : String) (dot : Bool) (p : CString) : Except String CString :=
  match p with
  | c :: q =>
      if !c.isDigit then .error missing
      else if c = '0' && atDigit q then
        .error "version components cannot have leading zeros"
      else
        let rest := p.dropWhile Char.isDigit
        if dot then
          match rest with
          | '.' :: r => .ok r
          | _ => .error "version must be in format MAJOR.MINOR.PATCH (e.g., '1.0.0')"
        else .ok rest
  | [] => .error missing

def isIdentifierChar (c : Char) : Bool := c.isAlphanum || c = '.' || c = '-'

/-- The part from `+` on. Source: `validators.c` `validateSemanticVersion`. -/
def validateBuild : CString → Option String
  | [] => none
  | '+' :: p =>
      if p = [] then some "build metadata cannot be empty"
      else if p.all isIdentifierChar then none
      else some "build metadata can only contain alphanumeric characters, dots, and hyphens"
  | _ => some "invalid version format"

/-- The part after the numbers. Source: `validators.c` `validateSemanticVersion`. -/
def validateSuffix : CString → Option String
  | '-' :: p =>
      if p = [] || p.head? = some '+' then some "prerelease identifier cannot be empty"
      else if (p.takeWhile fun c => c ≠ '+').all isIdentifierChar then
        validateBuild (p.dropWhile fun c => c ≠ '+')
      else some
        "prerelease identifier can only contain alphanumeric characters, dots, and hyphens"
  | p => validateBuild p

/-- The message for an invalid version, none for a valid one.
Source: `validators.c` `validateSemanticVersion`. -/
def validateSemanticVersion (version : CString) : Option String :=
  if version = [] then some "version cannot be empty"
  else if version.head? = some 'v' || version.head? = some 'V' then
    some "version must not start with 'v' prefix"
  else match validateNumber "version must start with a number" true version with
    | .error e => some e
    | .ok p => match validateNumber "minor version must be a number" true p with
      | .error e => some e
      | .ok p => match validateNumber "patch version must be a number" false p with
        | .error e => some e
        | .ok p => validateSuffix p

/-- The text of a dependency's version behind its operator, as the check skips it.
Source: `cxyfile.c` `parseDependency`. -/
def skipConstraintOperator : CString → CString
  | '^' :: p => p
  | '~' :: p => p
  | '>' :: '=' :: p => p
  | '<' :: '=' :: p => p
  | '>' :: c :: p => c :: p
  | '<' :: c :: p => c :: p
  | p => p

/-- The base version that is checked. Source: `cxyfile.c` `parseDependency`. -/
def versionToValidate (version : CString) : CString :=
  (skipConstraintOperator version).dropWhile fun c => c = ' '

/-- The message for an invalid version of a dependency. Source: `cxyfile.c` `parseDependency`. -/
def validateDependencyVersion (version : CString) : Option String :=
  if version = ['*'] then none else validateSemanticVersion (versionToValidate version)

/-! ## The order of versions -/

/-- Where a version stands in the order: by its numbers, and before its release with the text of
its prerelease. -/
abbrev Precedence : Type := ℕ ×ₗ ℕ ×ₗ ℕ ×ₗ WithTop CString

/-- The place of the release `a.b.c`. -/
def release (a b c : ℕ) : Precedence := toLex (a, toLex (b, toLex (c, ⊤)))

/-- A release comes behind all its prereleases. -/
def prereleaseRank : Option CString → WithTop CString
  | none => ⊤
  | some p => p

def SemanticVersion.precedence (v : SemanticVersion) : Precedence :=
  toLex (v.major.toNat, toLex (v.minor.toNat, toLex (v.patch.toNat, prereleaseRank v.prerelease)))

/-- The sign of a comparison. -/
def sign {α : Type} [LT α] [DecidableLT α] (a b : α) : Int :=
  if a < b then -1 else if b < a then 1 else 0

theorem strcmp_eq (p q : CString) : strcmp p q = sign p q := by
  induction p generalizing q with
  | nil =>
      cases q with
      | nil => rfl
      | cons b bs => simp [strcmp, sign]
  | cons a as ih =>
      cases q with
      | nil => simp [strcmp, sign]
      | cons b bs =>
          by_cases hab : a = b
          · subst hab
            simp [strcmp, sign, ih]
          · rcases lt_or_gt_of_ne hab with h | h
            · simp [strcmp, sign, hab, h, List.cons_lt_cons_iff]
            · simp [strcmp, sign, hab, Ne.symm hab, h, h.not_gt, List.cons_lt_cons_iff]

/-- Pairs are compared by the first component, and by the second where that is the same. Kind: L -/
theorem sign_toLex {α β : Type} [LinearOrder α] [LinearOrder β] (a a' : α) (b b' : β) :
    sign (toLex (a, b)) (toLex (a', b')) =
      if a < a' then -1 else if a' < a then 1 else sign b b' := by
  rcases lt_trichotomy a a' with h | h | h
  · simp [sign, Prod.Lex.toLex_lt_toLex, h]
  · subst h
    simp [sign, Prod.Lex.toLex_lt_toLex]
  · simp [sign, Prod.Lex.toLex_lt_toLex, h, h.not_gt, h.ne']

/-- **The comparison is that of the order of precedence.** Kind: P -/
theorem compareSemanticVersions_eq (a b : SemanticVersion) :
    compareSemanticVersions a b = sign a.precedence b.precedence := by
  simp only [compareSemanticVersions, SemanticVersion.precedence, sign_toLex,
    UInt32.lt_iff_toNat_lt]
  congr 6
  rcases a.prerelease with _ | p <;> rcases b.prerelease with _ | q
  · simp [sign, prereleaseRank]
  · simp [sign, prereleaseRank]
  · simp [sign, prereleaseRank]
  · simp only [strcmp_eq, sign, prereleaseRank, WithTop.coe_lt_coe]
    rcases lt_trichotomy p q with h | h | h
    · simp [h]
    · simp [h]
    · simp [h, h.not_gt]

end CxyCompiler.Package
