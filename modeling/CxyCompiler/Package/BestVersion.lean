import CxyCompiler.Lib.MergeSort
import CxyCompiler.Package.Resolver

/-!
# The best version of a repository

`gitFetchTags` reads the tags of a repository from the output of git and sorts those that are
versions. `findBestMatchingVersion` goes through them from the highest one down to the first that
satisfies all constraints.

The text of a prerelease is part of the output of git, and the output is freed before the tags are
sorted. From then on a comparison that comes by two prereleases of the same numbers has no result.

* `gitFetchTags`, `findBestMatchingVersion`: the source. `compareFreed` is its comparison once the
  text of the first version is freed.
* `Best`: what is asked of the tag: it satisfies the constraints, and none that does is higher.
* `scan_cases`: what the way down from the highest tag comes to.
* **`best_version_iff`**: the best version is found exactly if no two tags are prereleases of one
  version (`Clash`) and no tag that is reached is checked against a prerelease of its version
  (`Readable`).

Where no two tags clash their order does not depend on how texts of prereleases are compared.

Sources: `package/gitops.c`, `package/resolver.c`, `package/types.c`.
-/

namespace CxyCompiler.Package.BestVersion

open CxyCompiler.Lib.MergeSort

/-! ## The tags -/

/-- The tokens of a text, without empty ones. Source: `strtok`. -/
def strtok (c : Char) (str : CString) : List CString := (str.splitOn c).filter (· ≠ [])

/-- One `v` is taken off the name, and `parseSemanticVersion` takes off another one. -/
def tagVersion (tagName : CString) : Option SemanticVersion :=
  match tagName with
  | 'v' :: versionStr => parseSemanticVersion versionStr
  | 'V' :: versionStr => parseSemanticVersion versionStr
  | versionStr => parseSemanticVersion versionStr

def refsTags : CString := ['r', 'e', 'f', 's', '/', 't', 'a', 'g', 's', '/']

/-- A line of the output. Source: the loop of `gitops.c` `gitFetchTags`. -/
def parseTag (line : CString) : Option GitTag :=
  match line.dropWhile (· ≠ '\t') with
  | [] => none
  | _ :: ref =>
      if refsTags.isPrefixOf ref then
        let tagName := ref.drop 10
        (tagVersion tagName).map fun version => ⟨tagName, line.takeWhile (· ≠ '\t'), version⟩
      else none

/-- The comparison when the text of the prerelease of `a` is freed.
Source: `types.c` `compareSemanticVersions`. -/
def compareFreed (a b : SemanticVersion) : Option Int :=
  if a.major < b.major then some (-1)
  else if b.major < a.major then some 1
  else if a.minor < b.minor then some (-1)
  else if b.minor < a.minor then some 1
  else if a.patch < b.patch then some (-1)
  else if b.patch < a.patch then some 1
  else match a.prerelease, b.prerelease with
    | none, some _ => some 1
    | some _, none => some (-1)
    | some _, some _ => none
    | none, none => some 0

/-- Source: `gitops.c` `compareGitTagsByVersion`. -/
def compareGitTagsByVersion (a b : GitTag) : Option Int := compareFreed a.version b.version

/-- `git` is the output of `git ls-remote --tags --refs` for a repository, none when it fails. The
result is `none` when freed text is read, `some none` when there are no tags to be had. Source:
`gitops.c` `gitFetchTags`. -/
def gitFetchTags (git : CString → Option CString) (repository : Option CString) :
    Option (Option (List GitTag)) :=
  match repository with
  | none => some none
  | some [] => some none
  | some repositoryUrl =>
      match git repositoryUrl with
      | none => some none
      | some output =>
          let tags := (strtok '\n' output).filterMap parseTag
          if 1 < tags.length then (msort compareGitTagsByVersion tags).map some
            else some (some tags)

/-- The comparison comes before the type of the constraint is looked at.
Source: `types.c` `versionSatisfiesConstraint`. -/
def satisfiesFreed (tag : GitTag) (constraint : VersionConstraint) : Option Bool :=
  (compareFreed tag.version constraint.version).map fun _ =>
    versionSatisfiesConstraint tag.version constraint

/-- Source: the inner loop of `resolver.c` `findBestMatchingVersion`. -/
def satisfiesEach (tag : GitTag) : List VersionConstraint → Option Bool
  | [] => some true
  | constraint :: constraints =>
      if constraint.type = .any then satisfiesEach tag constraints
      else
        match satisfiesFreed tag constraint with
        | none => none
        | some false => some false
        | some true => satisfiesEach tag constraints

/-- Source: the outer loop of `resolver.c` `findBestMatchingVersion`. -/
def scan (constraints : List VersionConstraint) : List GitTag → Option (Option GitTag)
  | [] => some none
  | tag :: tags =>
      match satisfiesEach tag constraints with
      | none => none
      | some true => some (some tag)
      | some false => scan constraints tags

/-- Source: `resolver.c` `findBestMatchingVersion`. -/
def findBestMatchingVersion (git : CString → Option CString) (repository : Option CString)
    (constraints : List VersionConstraint) : Option (Option GitTag) :=
  match gitFetchTags git repository with
  | none => none
  | some none => some none
  | some (some tags) => if tags = [] then some none else scan constraints tags.reverse

/-! ## What is asked -/

/-- A tag of a repository, as git lists it. -/
structure RemoteTag where
  commit : CString
  name : CString
  commit_line : '\t' ∉ commit ∧ '\n' ∉ commit
  name_line : '\n' ∉ name

def RemoteTag.line (t : RemoteTag) : CString := t.commit ++ '\t' :: refsTags ++ t.name

/-- One tag on each line. -/
def lsRemote (remote : List RemoteTag) : CString := remote.flatMap fun t => t.line ++ ['\n']

/-- The tags that are versions. -/
def versionTags (remote : List RemoteTag) : List GitTag :=
  remote.filterMap fun t => (tagVersion t.name).map fun version => ⟨t.name, t.commit, version⟩

def satisfiesAll (constraints : List VersionConstraint) (tag : GitTag) : Bool :=
  constraints.all fun constraint =>
    constraint.type = .any || versionSatisfiesConstraint tag.version constraint

/-- **A tag that satisfies all constraints is found, and none that does is higher**; or none
does. -/
def Best (tags : List GitTag) (constraints : List VersionConstraint) : Option (Option GitTag) → Prop
  | none => False
  | some none => ∀ t ∈ tags, satisfiesAll constraints t = false
  | some (some best) => best ∈ tags ∧ satisfiesAll constraints best = true ∧
      ∀ t ∈ tags, satisfiesAll constraints t = true →
        ¬ best.version.precedence < t.version.precedence

/-- Both are prereleases of one version. -/
def Clash (a b : SemanticVersion) : Prop :=
  a.major = b.major ∧ a.minor = b.minor ∧ a.patch = b.patch ∧
    a.prerelease ≠ none ∧ b.prerelease ≠ none

instance (a b : SemanticVersion) : Decidable (Clash a b) :=
  inferInstanceAs (Decidable (_ ∧ _ ∧ _ ∧ _ ∧ _))

/-- Up to the first constraint that the tag does not satisfy, none is a prerelease of the same
version. -/
def Readable (tag : GitTag) : List VersionConstraint → Prop
  | [] => True
  | constraint :: constraints =>
      if constraint.type = .any then Readable tag constraints
      else ¬ Clash tag.version constraint.version ∧
        (versionSatisfiesConstraint tag.version constraint = true → Readable tag constraints)

/-! ## Comparisons -/

/-- A version whose text of the prerelease is not looked at. -/
def blank (v : SemanticVersion) : SemanticVersion :=
  { v with prerelease := v.prerelease.map fun _ => [] }

/-- The place of a version, but for the text of its prerelease. -/
def rank (v : SemanticVersion) : Precedence := (blank v).precedence

def IsPrerelease (k : Precedence) : Prop := (ofLex (ofLex (ofLex k).2).2).2 ≠ ⊤

theorem number_trichotomy (a b : UInt32) : a < b ∨ a = b ∨ b < a := by
  rw [UInt32.lt_iff_toNat_lt, UInt32.lt_iff_toNat_lt, ← UInt32.toNat_inj]
  exact lt_trichotomy a.toNat b.toNat

theorem compareFreed_clash {a b : SemanticVersion} (h : Clash a b) : compareFreed a b = none := by
  obtain ⟨hmajor, hminor, hpatch, ha, hb⟩ := h
  obtain ⟨p, hp⟩ := Option.ne_none_iff_exists'.mp ha
  obtain ⟨q, hq⟩ := Option.ne_none_iff_exists'.mp hb
  unfold compareFreed
  rw [hmajor, hminor, hpatch, hp, hq]
  simp only [UInt32.lt_irrefl, if_false]

theorem compareFreed_of_not {a b : SemanticVersion} (h : ¬ Clash a b) :
    compareFreed a b = some (compareSemanticVersions a b) ∧
      compareSemanticVersions a b = compareSemanticVersions (blank a) (blank b) := by
  unfold Clash at h
  unfold compareFreed compareSemanticVersions blank
  dsimp only
  rcases number_trichotomy a.major b.major with hmajor | hmajor | hmajor
  · simp only [hmajor, if_true, and_self]
  · rcases number_trichotomy a.minor b.minor with hminor | hminor | hminor
    · simp only [hmajor, hminor, UInt32.lt_irrefl, if_true, if_false, and_self]
    · rcases number_trichotomy a.patch b.patch with hpatch | hpatch | hpatch
      · simp only [hmajor, hminor, hpatch, UInt32.lt_irrefl, if_true, if_false, and_self]
      · simp only [hmajor, hminor, hpatch, UInt32.lt_irrefl, if_false]
        cases hp : a.prerelease with
        | none => cases b.prerelease <;> exact ⟨rfl, rfl⟩
        | some p =>
            cases hq : b.prerelease with
            | none => exact ⟨rfl, rfl⟩
            | some q =>
                refine absurd ⟨hmajor, hminor, hpatch, ?_, ?_⟩ h
                · rw [hp]
                  exact Option.some_ne_none p
                · rw [hq]
                  exact Option.some_ne_none q
      · simp only [hmajor, hminor, hpatch, UInt32.lt_asymm hpatch,
          UInt32.lt_irrefl, if_true, if_false, and_self]
    · simp only [hmajor, hminor, UInt32.lt_asymm hminor,
        UInt32.lt_irrefl, if_true, if_false, and_self]
  · simp only [hmajor, UInt32.lt_asymm hmajor, if_true, if_false, and_self]

theorem compareFreed_eq_none_iff {a b : SemanticVersion} : compareFreed a b = none ↔ Clash a b := by
  refine ⟨fun h => ?_, compareFreed_clash⟩
  by_contra hnot
  cases h.symm.trans (compareFreed_of_not hnot).1

/-- A comparison that is made goes by the places. Kind: L -/
theorem compareFreed_some {a b : SemanticVersion} {c : Int} (h : compareFreed a b = some c) :
    c = sign (rank a) (rank b) := by
  have hnot : ¬ Clash a b := by
    intro hclash
    cases h.symm.trans (compareFreed_clash hclash)
  obtain ⟨hcompare, hblank⟩ := compareFreed_of_not hnot
  rw [h, hblank, compareSemanticVersions_eq, Option.some.injEq] at hcompare
  exact hcompare

theorem isPrerelease_rank (v : SemanticVersion) : IsPrerelease (rank v) ↔ v.prerelease ≠ none := by
  unfold IsPrerelease rank SemanticVersion.precedence blank
  cases v.prerelease with
  | none => exact iff_of_false (fun h => h rfl) fun h => h rfl
  | some p => exact iff_of_true (WithTop.coe_ne_top) (Option.some_ne_none p)

theorem clash_iff {a b : SemanticVersion} : Clash a b ↔
    rank a = rank b ∧ IsPrerelease (rank a) := by
  have hlast : a.prerelease ≠ none →
      (prereleaseRank (blank a).prerelease = prereleaseRank (blank b).prerelease ↔
        b.prerelease ≠ none) := by
    intro ha
    obtain ⟨p, hp⟩ := Option.ne_none_iff_exists'.mp ha
    unfold blank
    rw [hp]
    cases b.prerelease with
    | none => exact iff_of_false WithTop.coe_ne_top fun h => h rfl
    | some q => exact iff_of_true rfl (Option.some_ne_none q)
  rw [isPrerelease_rank]
  unfold rank SemanticVersion.precedence Clash
  rw [toLex_inj, Prod.mk.injEq, toLex_inj, Prod.mk.injEq, toLex_inj,
    Prod.mk.injEq, UInt32.toNat_inj,
    UInt32.toNat_inj, UInt32.toNat_inj]
  constructor
  · rintro ⟨hmajor, hminor, hpatch, ha, hb⟩
    exact ⟨⟨hmajor, hminor, hpatch, (hlast ha).mpr hb⟩, ha⟩
  · rintro ⟨⟨hmajor, hminor, hpatch, heq⟩, ha⟩
    exact ⟨hmajor, hminor, hpatch, ha, (hlast ha).mp heq⟩

theorem sign_nonpos {α : Type} [LinearOrder α] {a b : α} (h : sign a b ≤ 0) : a ≤ b := by
  by_contra hlt
  rw [not_le] at hlt
  unfold sign at h
  rw [if_neg hlt.not_gt, if_pos hlt] at h
  exact absurd h (by decide)

theorem sign_pos {α : Type} [LinearOrder α] {a b : α} (h : 0 < sign a b) : b ≤ a := by
  by_contra hlt
  rw [not_le] at hlt
  unfold sign at h
  rw [if_pos hlt] at h
  exact absurd h (by decide)

/-- Without a clash the places decide which version is higher. Kind: L -/
theorem lt_iff_of_not_clash {a b : SemanticVersion} (h : ¬ Clash a b) :
    a.precedence < b.precedence ↔ rank a < rank b := by
  have hsign : sign a.precedence b.precedence = sign (rank a) (rank b) := by
    rw [← compareSemanticVersions_eq, (compareFreed_of_not h).2, compareSemanticVersions_eq]
    rfl
  have hneg : ∀ x y : Precedence, sign x y = -1 ↔ x < y := by
    intro x y
    unfold sign
    by_cases hlt : x < y
    · rw [if_pos hlt]
      exact iff_of_true rfl hlt
    · rw [if_neg hlt]
      refine iff_of_false ?_ hlt
      split <;> decide
  rw [← hneg, hsign, hneg]

/-! ## One tag -/

variable {constraints : List VersionConstraint}

theorem satisfiesEach_readable : ∀ {tag : GitTag} {constraints : List VersionConstraint},
    Readable tag constraints → satisfiesEach tag constraints = some (satisfiesAll constraints tag)
  | _, [], _ => rfl
  | tag, constraint :: constraints, h => by
      unfold Readable at h
      unfold satisfiesEach satisfiesAll
      rw [List.all_cons]
      by_cases hany : constraint.type = .any
      · rw [if_pos hany] at h ⊢
        rw [decide_eq_true hany, Bool.true_or, Bool.true_and]
        exact satisfiesEach_readable h
      · rw [if_neg hany] at h ⊢
        obtain ⟨hclash, hrest⟩ := h
        unfold satisfiesFreed
        rw [(compareFreed_of_not hclash).1, Option.map_some, decide_eq_false hany, Bool.false_or]
        cases hsat : versionSatisfiesConstraint tag.version constraint with
        | false => rfl
        | true => exact satisfiesEach_readable (hrest hsat)

theorem satisfiesEach_unreadable : ∀ {tag : GitTag} {constraints : List VersionConstraint},
    ¬ Readable tag constraints → satisfiesEach tag constraints = none
  | _, [], h => absurd trivial h
  | tag, constraint :: constraints, h => by
      unfold Readable at h
      unfold satisfiesEach
      by_cases hany : constraint.type = .any
      · rw [if_pos hany] at h ⊢
        exact satisfiesEach_unreadable h
      · rw [if_neg hany] at h ⊢
        unfold satisfiesFreed
        by_cases hclash : Clash tag.version constraint.version
        · rw [compareFreed_clash hclash]
          rfl
        · rw [(compareFreed_of_not hclash).1, Option.map_some]
          cases hsat : versionSatisfiesConstraint tag.version constraint with
          | false =>
              refine absurd ⟨hclash, fun htrue => ?_⟩ h
              cases hsat.symm.trans htrue
          | true => exact satisfiesEach_unreadable fun hrest => h ⟨hclash, fun _ => hrest⟩

/-- A release is never compared by the text of a prerelease. Kind: L -/
theorem readable_release {tag : GitTag} (h : tag.version.prerelease = none) :
    ∀ constraints, Readable tag constraints
  | [] => trivial
  | constraint :: constraints => by
      unfold Readable
      have hclash : ¬ Clash tag.version constraint.version := fun hc => hc.2.2.2.1 h
      split
      · exact readable_release h constraints
      · exact ⟨hclash, fun _ => readable_release h constraints⟩

/-- The tags that the way down has passed. -/
def Passed (constraints : List VersionConstraint) (pre : List GitTag) : Prop :=
  ∀ u ∈ pre, Readable u constraints ∧ satisfiesAll constraints u = false

/-- **The way down** ends at a tag that cannot be checked, at one that satisfies the constraints, or
behind the last one. Kind: L -/
theorem scan_cases (constraints : List VersionConstraint) : ∀ ts : List GitTag,
    (∃ pre t post, ts = pre ++ t :: post ∧ Passed constraints pre ∧ ¬ Readable t constraints ∧
      scan constraints ts = none) ∨
    (∃ pre t post, ts = pre ++ t :: post ∧ Passed constraints pre ∧ Readable t constraints ∧
      satisfiesAll constraints t = true ∧ scan constraints ts = some (some t)) ∨
    (Passed constraints ts ∧ scan constraints ts = some none)
  | [] => .inr (.inr ⟨fun u hu => absurd hu List.not_mem_nil, rfl⟩)
  | t :: ts => by
      have hnil : Passed constraints [] := fun u hu => absurd hu List.not_mem_nil
      unfold scan
      by_cases hread : Readable t constraints
      · rw [satisfiesEach_readable hread]
        cases hsat : satisfiesAll constraints t with
        | true => exact .inr (.inl ⟨[], t, ts, rfl, hnil, hread, hsat, rfl⟩)
        | false =>
            have hcons : ∀ {pre}, Passed constraints pre → Passed constraints (t :: pre) := by
              intro pre hpre
              exact List.forall_mem_cons.mpr ⟨⟨hread, hsat⟩, hpre⟩
            rcases scan_cases constraints ts with ⟨pre, u, post, heq, hpre, hu, hscan⟩ |
              ⟨pre, u, post, heq, hpre, hu, hscan⟩ | ⟨hpre, hscan⟩
            · exact .inl ⟨t :: pre, u, post, congrArg (t :: ·) heq, hcons hpre, hu, hscan⟩
            · exact .inr (.inl ⟨t :: pre, u, post, congrArg (t :: ·) heq, hcons hpre, hu, hscan⟩)
            · exact .inr (.inr ⟨hcons hpre, hscan⟩)
      · rw [satisfiesEach_unreadable hread]
        exact .inl ⟨[], t, ts, rfl, hnil, hread, rfl⟩

/-! ## All tags -/

/-- The tags can be sorted, and each that is reached can be checked. -/
structure Clear (tags : List GitTag) (constraints : List VersionConstraint) : Prop where
  distinct : tags.Pairwise fun t u => ¬ Clash t.version u.version
  readable : ∀ t ∈ tags, (∀ u ∈ tags, t.version.precedence < u.version.precedence →
    satisfiesAll constraints u = false) → Readable t constraints

theorem Clash.symm {a b : SemanticVersion} (h : Clash a b) : Clash b a :=
  ⟨h.1.symm, h.2.1.symm, h.2.2.1.symm, h.2.2.2.2, h.2.2.2.1⟩

/-- The way down through sorted tags finds the best one exactly if all tags reached can be checked.
Kind: P -/
theorem scan_best {tags : List GitTag}
    (hdistinct : tags.Pairwise fun t u => ¬ Clash t.version u.version)
    (hsorted : tags.Pairwise fun t u => rank u.version ≤ rank t.version) :
    Best tags constraints (scan constraints tags) ↔ Clear tags constraints := by
  have hclash : ∀ {t u}, t ∈ tags → u ∈ tags → t ≠ u → ¬ Clash t.version u.version := by
    intro t u ht hu hne
    have hsymm : Std.Symm fun t u : GitTag => ¬ Clash t.version u.version :=
      ⟨fun _ _ h hc => h hc.symm⟩
    exact hdistinct.forall ht hu hne
  have hhigher : ∀ {t u}, t ∈ tags → u ∈ tags → t.version.precedence < u.version.precedence →
      rank t.version < rank u.version := by
    intro t u ht hu hlt
    have hne : t ≠ u := by
      rintro rfl
      exact lt_irrefl _ hlt
    exact (lt_iff_of_not_clash (hclash ht hu hne)).mp hlt
  have hbehind : ∀ {pre t post u}, tags = pre ++ t :: post → u ∈ post →
      rank u.version ≤ rank t.version := by
    intro pre t post u heq hu
    rw [heq, List.pairwise_append] at hsorted
    exact (List.pairwise_cons.mp hsorted.2.1).1 u hu
  have hsplit : ∀ {pre t post u}, tags = pre ++ t :: post → u ∈ tags →
    u ∈ pre ∨ u = t ∨ u ∈ post := by
    intro pre t post u heq hu
    rw [heq, List.mem_append, List.mem_cons] at hu
    exact hu
  have hmem : ∀ {pre t post}, tags = pre ++ t :: post → t ∈ tags := by
    intro pre t post heq
    rw [heq]
    exact List.mem_append_right _ (List.mem_cons_self ..)
  rcases scan_cases constraints tags with ⟨pre, t, post, heq, hpre, ht, hscan⟩ |
    ⟨pre, t, post, heq, hpre, ht, hsat, hscan⟩ | ⟨hpre, hscan⟩ <;> rw [hscan]
  · refine iff_of_false id fun hclear => ht (hclear.readable t (hmem heq) fun u hu hlt => ?_)
    have hrank := hhigher (hmem heq) hu hlt
    rcases hsplit heq hu with hu | rfl | hu
    · exact (hpre u hu).2
    · exact absurd hrank (lt_irrefl _)
    · exact absurd hrank (hbehind heq hu).not_gt
  · refine iff_of_true ⟨hmem heq, hsat, fun u hu hsatu hlt => ?_⟩ ⟨hdistinct, fun u hu hreached =>
      ?_⟩
    · have hrank := hhigher (hmem heq) hu hlt
      rcases hsplit heq hu with hu | rfl | hu
      · cases hsatu.symm.trans (hpre u hu).2
      · exact lt_irrefl _ hrank
      · exact (hbehind heq hu).not_gt hrank
    · rcases hsplit heq hu with hu | rfl | hpost
      · exact (hpre u hu).1
      · exact ht
      · -- a tag behind the one found is no lower only if it is a release of the same version
        by_contra hread
        have hne : u ≠ t := by
          rintro rfl
          exact hread ht
        have hnot := hclash hu (hmem heq) hne
        have hlow : ¬ rank u.version < rank t.version := by
          rw [← lt_iff_of_not_clash hnot]
          intro hlt
          cases hsat.symm.trans (hreached t (hmem heq) hlt)
        have hsame : rank u.version = rank t.version :=
          le_antisymm (hbehind heq hpost) (not_lt.mp hlow)
        have hpre : u.version.prerelease ≠ none := fun h => hread (readable_release h constraints)
        exact hnot (clash_iff.mpr ⟨hsame, (isPrerelease_rank u.version).mpr hpre⟩)
  · exact iff_of_true (fun u hu => (hpre u hu).2) ⟨hdistinct, fun u hu _ => (hpre u hu).1⟩

/-- Neither the tag that is best nor the condition depends on the order of the tags. Kind: L -/
theorem best_perm {tags tags' : List GitTag} (h : tags.Perm tags') (o : Option (Option GitTag)) :
    Best tags constraints o ↔ Best tags' constraints o := by
  unfold Best
  rcases o with _ | _ | best
  · exact Iff.rfl
  · simp only [h.mem_iff]
  · simp only [h.mem_iff]

theorem clear_perm {tags tags' : List GitTag} (h : tags.Perm tags') :
    Clear tags constraints ↔ Clear tags' constraints := by
  have hpair := h.pairwise_iff (R := fun t u : GitTag => ¬ Clash t.version u.version)
    fun hc hd => hc hd.symm
  constructor
  · rintro ⟨hdistinct, hread⟩
    refine ⟨hpair.mp hdistinct, ?_⟩
    simpa only [h.mem_iff] using hread
  · rintro ⟨hdistinct, hread⟩
    refine ⟨hpair.mpr hdistinct, ?_⟩
    simpa only [h.mem_iff] using hread

def tagRank (t : GitTag) : Precedence := rank t.version

theorem key_of_nonpos (t u : GitTag) (c : Int) (hc : compareGitTagsByVersion t u = some c)
    (hle : c ≤ 0) :
    tagRank t ≤ tagRank u := by
  rw [compareFreed_some hc] at hle
  exact sign_nonpos hle

theorem key_of_pos (t u : GitTag) (c : Int) (hc : compareGitTagsByVersion t u = some c)
    (hlt : 0 < c) :
    tagRank u ≤ tagRank t := by
  rw [compareFreed_some hc] at hlt
  exact sign_pos hlt

/-- The sort has a result exactly if no two tags clash. Kind: L -/
theorem sort_ne_none_iff (tags : List GitTag) :
    msort compareGitTagsByVersion tags ≠ none ↔
      tags.Pairwise fun t u => ¬ Clash t.version u.version := by
  have hnone : ∀ t u, compareGitTagsByVersion t u = none ↔
      tagRank t = tagRank u ∧ IsPrerelease (tagRank t) := by
    intro t u
    unfold compareGitTagsByVersion tagRank
    rw [compareFreed_eq_none_iff, clash_iff]
  rw [msort_ne_none_iff key_of_nonpos key_of_pos hnone]
  unfold compareGitTagsByVersion
  simp only [ne_eq, compareFreed_eq_none_iff]

theorem sort_sorted {tags r : List GitTag} (h : msort compareGitTagsByVersion tags = some r) :
    r.Pairwise fun t u => rank t.version ≤ rank u.version := by
  exact msort_sorted key_of_nonpos key_of_pos h

/-! ## The output of git -/

theorem dropWhile_tab (t : RemoteTag) : t.line.dropWhile (· ≠ '\t') =
    '\t' :: refsTags ++ t.name := by
  have hcommit : ∀ c ∈ t.commit, (decide (c ≠ '\t')) = true := by
    rintro c hc
    exact decide_eq_true fun heq => t.commit_line.1 (heq ▸ hc)
  unfold RemoteTag.line
  rw [List.append_assoc, List.dropWhile_append_of_pos hcommit]
  rfl

theorem takeWhile_tab (t : RemoteTag) : t.line.takeWhile (· ≠ '\t') = t.commit := by
  have hcommit : ∀ c ∈ t.commit, (decide (c ≠ '\t')) = true := by
    rintro c hc
    exact decide_eq_true fun heq => t.commit_line.1 (heq ▸ hc)
  unfold RemoteTag.line
  rw [List.append_assoc, List.takeWhile_append_of_pos hcommit]
  exact List.append_nil _

theorem parseTag_line (t : RemoteTag) :
    parseTag t.line = (tagVersion t.name).map fun version => ⟨t.name, t.commit, version⟩ := by
  have hprefix : refsTags.isPrefixOf (refsTags ++ t.name) = true :=
    List.isPrefixOf_iff_prefix.mpr (List.prefix_append ..)
  have hdrop : (refsTags ++ t.name).drop refsTags.length = t.name := List.drop_left
  have hlength : refsTags.length = 10 := rfl
  rw [hlength] at hdrop
  unfold parseTag
  rw [dropWhile_tab, takeWhile_tab, List.cons_append]
  dsimp only
  rw [if_pos hprefix, hdrop]

/-- **Each line is read as the tag it lists.** Kind: L -/
theorem tags_of_output (remote : List RemoteTag) :
    (strtok '\n' (lsRemote remote)).filterMap parseTag = versionTags remote := by
  induction remote with
  | nil => rfl
  | cons t remote ih =>
      have hline : '\n' ∉ t.line := by
        unfold RemoteTag.line
        rw [List.mem_append, List.mem_append, List.mem_cons, not_or, not_or, not_or]
        exact ⟨⟨t.commit_line.2, by decide, by decide⟩, t.name_line⟩
      have hne : t.line ≠ [] := by
        intro h
        have := congrArg List.length h
        unfold RemoteTag.line at this
        rw [List.length_append, List.length_append, List.length_cons] at this
        exact absurd this (by rw [List.length_nil]; omega)
      have hsplit : lsRemote (t :: remote) = t.line ++ '\n' :: lsRemote remote := by
        unfold lsRemote
        rw [List.flatMap_cons, List.append_assoc]
        rfl
      have hkeep : ∀ ls : List CString, (t.line :: ls).filter (· ≠ []) = t.line :: ls.filter
        (· ≠ []) := by
        intro ls
        exact List.filter_cons_of_pos (decide_eq_true hne)
      unfold versionTags strtok at ih ⊢
      rw [hsplit, List.splitOn_append_cons_self_of_not_mem hline, hkeep, List.filterMap_cons,
        List.filterMap_cons, parseTag_line, ih]

/-- Tags that need no sorting are sorted. Kind: L -/
theorem msort_short {tags : List GitTag} (h : ¬ 1 < tags.length) :
    msort compareGitTagsByVersion tags = some tags := by
  rcases tags with _ | ⟨t, _ | ⟨u, tags⟩⟩
  · rfl
  · rfl
  · rw [List.length_cons, List.length_cons] at h
    omega

section Found

variable {git : CString → Option CString} {repository : CString} {remote : List RemoteTag}

theorem gitFetchTags_eq (hrepository : repository ≠ [])
    (hgit : git repository = some (lsRemote remote)) :
    gitFetchTags git (some repository) =
      (msort compareGitTagsByVersion (versionTags remote)).map some := by
  obtain ⟨c, cs, rfl⟩ := List.exists_cons_of_ne_nil hrepository
  unfold gitFetchTags
  dsimp only
  rw [hgit]
  dsimp only
  rw [tags_of_output]
  by_cases hmany : 1 < (versionTags remote).length
  · rw [if_pos hmany]
  · rw [if_neg hmany, msort_short hmany]
    rfl

/-- **The best version of a repository is found exactly if no two of its tags clash and each tag
reached can be checked.** Kind: P -/
theorem best_version_iff (hrepository : repository ≠ [])
    (hgit : git repository = some (lsRemote remote)) (constraints : List VersionConstraint) :
    Best (versionTags remote) constraints
        (findBestMatchingVersion git (some repository) constraints) ↔
      Clear (versionTags remote) constraints := by
  unfold findBestMatchingVersion
  rw [gitFetchTags_eq hrepository hgit]
  cases hsort : msort compareGitTagsByVersion (versionTags remote) with
  | none =>
      refine iff_of_false id fun hclear => ?_
      exact (sort_ne_none_iff (versionTags remote)).mpr hclear.distinct hsort
  | some r =>
      have hperm : r.reverse.Perm (versionTags remote) :=
        (List.reverse_perm r).trans (msort_some hsort).1
      have hdistinct := (sort_ne_none_iff (versionTags remote)).mp
        (by rw [hsort]; exact Option.some_ne_none r)
      have hsorted : r.reverse.Pairwise fun t u => rank u.version ≤ rank t.version :=
        List.pairwise_reverse.mpr (sort_sorted hsort)
      have hdistinct' : r.reverse.Pairwise fun t u => ¬ Clash t.version u.version :=
        (hperm.pairwise_iff fun hc hd => hc hd.symm).mpr hdistinct
      have hscan : (if r = [] then some none else scan constraints r.reverse) =
          scan constraints r.reverse := by
        by_cases hnil : r = []
        · rw [if_pos hnil, hnil]
          rfl
        · rw [if_neg hnil]
      show Best (versionTags remote) constraints (if r = [] then _ else _) ↔ _
      rw [hscan, ← best_perm hperm, ← clear_perm hperm]
      exact scan_best hdistinct' hsorted

end Found

/-! ## Two repositories -/

def plainTag (name : CString) (h : '\n' ∉ name) : RemoteTag :=
  ⟨['4', 'f'], name, by decide, h⟩

def releases : List RemoteTag :=
  [plainTag ['v', '1', '.', '1', '0', '.', '0'] (by decide), plainTag ['x'] (by decide),
    plainTag ['1', '.', '9', '.', '0', '-', 'a'] (by decide)]

def prereleases : List RemoteTag :=
  [plainTag ['1', '.', '0', '.', '0', '-', 'a'] (by decide),
    plainTag ['1', '.', '0', '.', '0', '-', 'b'] (by decide)]

theorem releases_best :
    Best (versionTags releases) []
      (findBestMatchingVersion (fun _ => some (lsRemote releases)) (some ['r']) []) := by
  have hclear : Clear (versionTags releases) [] := ⟨by decide, fun _ _ _ => trivial⟩
  exact (best_version_iff (List.cons_ne_nil _ _) rfl []).mpr hclear

/-- The two prereleases of 1.0.0 are compared by freed text. Kind: P -/
theorem prereleases_without_best :
    ¬ Best (versionTags prereleases) []
      (findBestMatchingVersion (fun _ => some (lsRemote prereleases)) (some ['r']) []) := by
  have hsort : msort compareGitTagsByVersion (versionTags prereleases) = none := by decide
  unfold findBestMatchingVersion
  rw [gitFetchTags_eq (List.cons_ne_nil _ _) rfl, hsort]
  exact id

end CxyCompiler.Package.BestVersion
