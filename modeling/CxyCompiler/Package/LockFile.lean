import CxyCompiler.Package.Resolver
import CxyCompiler.Package.VersionText

/-!
# The lock file

`generateLockFile` hands the resolved dependencies to libyaml as a stream of events, those of
production in one sequence and those of development in another; `loadLockFile` goes through the
events of a file with a few flags. Of a version only the three numbers are written.

* `Libyaml`: the emitter and the parser, which are not in the source.
* `generateLockFile`, `loadLockFile`: the writer and the reader.
* `load_dependency`: **one dependency is read back without the suffix of its version**.
* **`loadLockFile_generateLockFile`**: what is read back is the same set of dependencies exactly
  when no version has a prerelease part or build metadata.

Source: `package/resolver.c`.
-/

namespace CxyCompiler.Package

/-! ## Events -/

/-- Source: libyaml's `yaml_event_type_t`, those that are emitted, with the text of a scalar. -/
inductive YamlEvent
  | streamStart
  | streamEnd
  | documentStart
  | documentEnd
  | mappingStart
  | mappingEnd
  | sequenceStart
  | sequenceEnd
  | scalar (value : CString)
  deriving DecidableEq

/-- `parse` gives the events of a text up to its end or the first error. -/
structure Libyaml where
  emit : List YamlEvent → CString
  parse : CString → List YamlEvent

/-! ## The writer -/

/-- Source: `EMIT_SCALAR_KEY` followed by `EMIT_SCALAR_VALUE`. -/
def emitField (key : String) (value : CString) : List YamlEvent :=
  [.scalar key.toList, .scalar value]

/-- A field that is left out when it is NULL. -/
def emitOptional (key : String) (value : Option CString) : List YamlEvent :=
  value.elim [] (emitField key)

/-- `%u.%u.%u`. -/
def versionNumbers (v : SemanticVersion) : CString :=
  Nat.toDigits 10 v.major.toNat ++ '.' :: (Nat.toDigits 10 v.minor.toNat ++
    '.' :: Nat.toDigits 10 v.patch.toNat)

/-- Source: `resolver.c` `emitResolvedDependency`. -/
def emitResolvedDependency (dep : ResolvedDependency) : List YamlEvent :=
  [YamlEvent.mappingStart] ++ emitField "name" dep.name ++
    emitOptional "repository" dep.repository ++ emitField "version" (versionNumbers dep.version) ++
    emitOptional "tag" dep.tag ++ emitOptional "commit" dep.commit ++
    emitOptional "checksum" dep.checksum ++ [YamlEvent.mappingEnd]

/-- A key with a sequence of dependencies. -/
def emitSection (key : String) (deps : List ResolvedDependency) : List YamlEvent :=
  [YamlEvent.scalar key.toList, YamlEvent.sequenceStart] ++
    deps.flatMap emitResolvedDependency ++ [YamlEvent.sequenceEnd]

/-- The events of a lock file. Source: `resolver.c` `generateLockFile`. -/
def generateLockFile (ctx : Context) : List YamlEvent :=
  [YamlEvent.streamStart, YamlEvent.documentStart, YamlEvent.mappingStart] ++
    emitSection "dependencies" (ctx.resolved.filter fun dep => !dep.isDev) ++
    (if ctx.resolved.any ResolvedDependency.isDev then
      emitSection "devDependencies" (ctx.resolved.filter ResolvedDependency.isDev) else []) ++
    [.mappingEnd, .documentEnd, .streamEnd]

/-! ## The reader -/

/-- The variables of `loadLockFile` and the dependencies loaded so far. -/
structure Loader where
  inDependencies : Bool
  inDevDependencies : Bool
  inDependencyMap : Bool
  currentDep : ResolvedDependency
  currentKey : Option CString
  resolved : List ResolvedDependency

/-- A dependency of zeros; its NULL name is read as an empty one. -/
def blankDependency : ResolvedDependency := ⟨[], none, .zero, none, none, none, false⟩

/-- The value of a key; what the parser leaves of a version it cannot read is not modelled. -/
def setField (dep : ResolvedDependency) (key value : CString) : ResolvedDependency :=
  if key = "name".toList then { dep with name := value }
  else if key = "repository".toList then { dep with repository := some value }
  else if key = "version".toList then
    { dep with version := (parseSemanticVersion value).getD dep.version }
  else if key = "tag".toList then { dep with tag := some value }
  else if key = "commit".toList then { dep with commit := some value }
  else if key = "checksum".toList then { dep with checksum := some value }
  else dep

/-- One event. Source: `resolver.c` `loadLockFile`, the `switch`. -/
def loadEvent (l : Loader) : YamlEvent → Loader
  | .mappingStart =>
      if l.inDependencies || l.inDevDependencies then
        { l with inDependencyMap := true,
                 currentDep := { blankDependency with isDev := l.inDevDependencies } }
      else l
  | .mappingEnd =>
      if l.inDependencyMap then
        { l with resolved := l.resolved ++ [l.currentDep], inDependencyMap := false }
      else l
  | .sequenceEnd =>
      if l.inDependencies then { l with inDependencies := false }
      else if l.inDevDependencies then { l with inDevDependencies := false }
      else l
  | .scalar value =>
      if !l.inDependencies && !l.inDevDependencies then
        if value = "dependencies".toList then { l with inDependencies := true }
        else if value = "devDependencies".toList then { l with inDevDependencies := true }
        else l
      else if l.inDependencyMap then
        match l.currentKey with
        | none => { l with currentKey := some value }
        | some key => { l with currentDep := setField l.currentDep key value, currentKey := none }
      else l
  | _ => l

/-- Events up to the end of the stream; without one the parser has found an error.
Source: `resolver.c` `loadLockFile`, the loop. -/
def loadEvents : Loader → List YamlEvent → Bool × Loader
  | l, [] => (false, l)
  | l, .streamEnd :: _ => (true, l)
  | l, e :: es => loadEvents (loadEvent l e) es

/-- None for a file that does not exist. Source: `resolver.c` `loadLockFile`. -/
def loadLockFile (yaml : Libyaml) (file : Option CString) (ctx : Context) : Bool × Context :=
  match file with
  | none => (false, ctx)
  | some text =>
      let r := loadEvents ⟨false, false, false, blankDependency, none, ctx.resolved⟩
        (yaml.parse text)
      (r.1, { ctx with resolved := r.2.resolved })

/-! ## Versions -/

/-- The digits that are printed for a number. Kind: L -/
theorem numeral_toDigits (n : ℕ) : Numeral (Nat.toDigits 10 n) n := by
  refine ⟨Nat.toDigits_ne_nil, fun c hc =>
    Nat.isDigit_of_mem_toDigits (by decide) (by decide) hc, ?_⟩
  have h := Nat.ofDigitChars_ten_toDigits (n := n)
  rw [Nat.ofDigitChars_eq_foldl] at h
  rw [← h]
  unfold valueFrom digitValue
  congr 2
  funext m c
  rw [Nat.mul_comm]

/-- **The numbers of a version are read back.** Kind: L -/
theorem parse_versionNumbers (v : SemanticVersion) :
    parseSemanticVersion (versionNumbers v) = some v.core :=
  parseSemanticVersion_iff.mpr ⟨[], by simp [vPrefixes], _, _, _, [], by
    simp [versionNumbers, SemanticVersion.core],
    numeral_toDigits _, numeral_toDigits _, numeral_toDigits _, rfl⟩

/-! ## Reading what was written -/

/-- What is read back of a dependency. -/
def ResolvedDependency.stored (dep : ResolvedDependency) : ResolvedDependency :=
  { dep with version := dep.version.core }

/-- The reader is in a section and not in a dependency. -/
structure Loader.Between (l : Loader) : Prop where
  section_ : (l.inDependencies || l.inDevDependencies) = true
  noMap : l.inDependencyMap = false
  noKey : l.currentKey = none

def loadAll (l : Loader) (es : List YamlEvent) : Loader := es.foldl loadEvent l

theorem loadAll_append (l : Loader) (es es' : List YamlEvent) :
    loadAll l (es ++ es') = loadAll (loadAll l es) es' := List.foldl_append

theorem load_field {a b : Bool} (h : (a || b) = true) (dep : ResolvedDependency)
    (rs : List ResolvedDependency) (key : String) (value : CString) :
    loadAll ⟨a, b, true, dep, none, rs⟩ (emitField key value) =
      ⟨a, b, true, setField dep key.toList value, none, rs⟩ := by
  have h' : (!a && !b) = false := by
    rw [← Bool.not_or, h]
    rfl
  simp only [loadAll, emitField, List.foldl_cons, List.foldl_nil, loadEvent, h', if_true,
    Bool.false_eq_true, if_false]

theorem load_optional {a b : Bool} (h : (a || b) = true) (dep : ResolvedDependency)
    (rs : List ResolvedDependency) (key : String) (value : Option CString) :
    loadAll ⟨a, b, true, dep, none, rs⟩ (emitOptional key value) =
      ⟨a, b, true, value.elim dep (setField dep key.toList), none, rs⟩ := by
  cases value with
  | none => rfl
  | some value => exact load_field h dep rs key value

/-- **One dependency is read back without the suffix of its version.** Kind: L -/
theorem load_dependency {l : Loader} (h : l.Between) {dep : ResolvedDependency}
    (hdev : dep.isDev = l.inDevDependencies) :
    loadAll l (emitResolvedDependency dep) =
      { l with currentDep := dep.stored, resolved := l.resolved ++ [dep.stored] } := by
  obtain ⟨name, repository, version, tag, commit, checksum, isDev⟩ := dep
  obtain ⟨a, b, inMap, cur, key, rs⟩ := l
  obtain ⟨hsec, hmap, hkey⟩ := h
  dsimp only at hsec hmap hkey hdev
  subst hmap hkey hdev
  have hstart : loadAll ⟨a, isDev, false, cur, none, rs⟩ [.mappingStart] =
      ⟨a, isDev, true, { blankDependency with isDev := isDev }, none, rs⟩ := by
    simp only [loadAll, List.foldl_cons, List.foldl_nil, loadEvent, hsec, if_true]
  have hversion : ∀ d, setField d "version".toList (versionNumbers version) =
      { d with version := version.core } := by
    intro d
    change { d with version := (parseSemanticVersion (versionNumbers version)).getD d.version } = _
    rw [parse_versionNumbers]
    rfl
  unfold emitResolvedDependency
  simp only [loadAll_append, hstart, load_field hsec, load_optional hsec, hversion]
  cases repository <;> cases tag <;> cases commit <;> cases checksum <;> rfl

/-- **A sequence of dependencies is read back in order.** Kind: L -/
theorem load_dependencies {deps : List ResolvedDependency} {l : Loader} (h : l.Between)
    (hdev : ∀ dep ∈ deps, dep.isDev = l.inDevDependencies) :
    ∃ cur, loadAll l (deps.flatMap emitResolvedDependency) =
      { l with
        currentDep := cur
        resolved := l.resolved ++ deps.map ResolvedDependency.stored } := by
  induction deps generalizing l with
  | nil => exact ⟨l.currentDep, by simp [loadAll]⟩
  | cons dep deps ih =>
      obtain ⟨hdep, hdeps⟩ := List.forall_mem_cons.mp hdev
      rw [List.flatMap_cons, loadAll_append, load_dependency h hdep]
      obtain ⟨cur, hcur⟩ := ih (l := { l with
        currentDep := dep.stored, resolved := l.resolved ++ [dep.stored] }) ⟨h.1, h.2, h.3⟩ hdeps
      refine ⟨cur, ?_⟩
      rw [hcur]
      simp

/-- The reader is outside of all sections. -/
structure Loader.Outside (l : Loader) : Prop where
  noDependencies : l.inDependencies = false
  noDevDependencies : l.inDevDependencies = false
  noMap : l.inDependencyMap = false
  noKey : l.currentKey = none

/-- The key of a section. -/
def sectionKey (isDev : Bool) : String := if isDev then "devDependencies" else "dependencies"

/-- **A section is read back in order.** Kind: L -/
theorem load_section {l : Loader} (h : l.Outside) (isDev : Bool) {deps : List ResolvedDependency}
    (hdev : ∀ dep ∈ deps, dep.isDev = isDev) :
    ∃ cur, loadAll l (emitSection (sectionKey isDev) deps) =
      { l with
        currentDep := cur
        resolved := l.resolved ++ deps.map ResolvedDependency.stored } := by
  obtain ⟨inDependencies, inDevDependencies, inDependencyMap, cur, currentKey, resolved⟩ := l
  obtain ⟨h₁, h₂, h₃, h₄⟩ := h
  dsimp only at h₁ h₂ h₃ h₄
  subst h₁ h₂ h₃ h₄
  obtain ⟨cur', hcur⟩ := load_dependencies (l := ⟨!isDev, isDev, false, cur, none, resolved⟩)
    ⟨by simp, rfl, rfl⟩ hdev
  refine ⟨cur', ?_⟩
  have hopen : loadAll ⟨false, false, false, cur, none, resolved⟩
      [.scalar (sectionKey isDev).toList, .sequenceStart] =
        ⟨!isDev, isDev, false, cur, none, resolved⟩ := by
    cases isDev <;> rfl
  unfold emitSection
  rw [loadAll_append, loadAll_append, hopen, hcur]
  cases isDev <;> rfl

/-- The reader goes on after events that do not end the stream. Kind: L -/
theorem loadEvents_append {es : List YamlEvent} (h : .streamEnd ∉ es) (l : Loader)
    (rest : List YamlEvent) : loadEvents l (es ++ rest) = loadEvents (loadAll l es) rest := by
  induction es generalizing l with
  | nil => rfl
  | cons e es ih =>
      simp only [List.mem_cons, not_or] at h
      have hone : loadEvents l (e :: (es ++ rest)) = loadEvents (loadEvent l e) (es ++ rest) := by
        rw [loadEvents]
        exact fun he => h.1 he.symm
      rw [List.cons_append, hone, ih h.2]
      rfl

theorem streamEnd_not_mem_dependency (dep : ResolvedDependency) :
    .streamEnd ∉ emitResolvedDependency dep := by
  have hopt : ∀ key value, .streamEnd ∉ emitOptional key value := by
    intro key value
    cases value <;> simp [emitOptional, emitField]
  simp [emitResolvedDependency, emitField, hopt]

theorem streamEnd_not_mem_section (key : String) (deps : List ResolvedDependency) :
    .streamEnd ∉ emitSection key deps := by
  simp [emitSection, streamEnd_not_mem_dependency]

/-- **The lock file is read back**: first the dependencies of production, then those of
development, without the suffixes of their versions. Kind: P -/
theorem load_generated (ctx : Context) (dep : ResolvedDependency)
    (rs : List ResolvedDependency) :
    ∃ l, loadEvents ⟨false, false, false, dep, none, rs⟩ (generateLockFile ctx) = (true, l) ∧
      l.resolved = rs ++ ((ctx.resolved.filter fun dep => !dep.isDev) ++
        ctx.resolved.filter ResolvedDependency.isDev).map ResolvedDependency.stored := by
  obtain ⟨cur₁, h₁⟩ := load_section (l := ⟨false, false, false, dep, none, rs⟩)
    ⟨rfl, rfl, rfl, rfl⟩ false
    (fun d (hd : d ∈ ctx.resolved.filter fun dep => !dep.isDev) => by
      simpa using (List.mem_filter.mp hd).2)
  obtain ⟨cur₂, h₂⟩ := load_section (l := ⟨false, false, false, cur₁, none,
      rs ++ (ctx.resolved.filter fun dep => !dep.isDev).map ResolvedDependency.stored⟩)
    ⟨rfl, rfl, rfl, rfl⟩ true
    (fun d (hd : d ∈ ctx.resolved.filter ResolvedDependency.isDev) => (List.mem_filter.mp hd).2)
  have hhead : ∀ es, loadEvents ⟨false, false, false, dep, none, rs⟩
      ([YamlEvent.streamStart, YamlEvent.documentStart, YamlEvent.mappingStart] ++ es) =
        loadEvents ⟨false, false, false, dep, none, rs⟩ es := fun _ => rfl
  have htail : ∀ cur rs, loadEvents ⟨false, false, false, cur, none, rs⟩
      [.mappingEnd, .documentEnd, .streamEnd] = (true, ⟨false, false, false, cur, none, rs⟩) :=
    fun _ _ => rfl
  unfold generateLockFile
  rw [List.append_assoc, List.append_assoc, hhead,
    loadEvents_append (streamEnd_not_mem_section _ _),
    show "dependencies" = sectionKey false from rfl, h₁]
  by_cases hany : ctx.resolved.any ResolvedDependency.isDev = true
  · rw [if_pos hany, loadEvents_append (streamEnd_not_mem_section _ _),
      show "devDependencies" = sectionKey true from rfl, h₂, htail]
    exact ⟨_, rfl, by simp⟩
  · have hnone : ctx.resolved.filter ResolvedDependency.isDev = [] := by
      simpa [List.filter_eq_nil_iff] using hany
    rw [if_neg hany, hnone, List.nil_append, htail]
    exact ⟨_, rfl, by simp⟩

/-- A version without prerelease part and build metadata. -/
def SemanticVersion.plain (v : SemanticVersion) : Bool := v.prerelease.isNone && v.build.isNone

theorem stored_eq_iff (dep : ResolvedDependency) : dep.stored = dep ↔ dep.version.plain = true := by
  obtain ⟨name, repository, ⟨major, minor, patch, prerelease, build⟩, tag,
    commit, checksum, isDev⟩ := dep
  cases prerelease <;> cases build <;>
    simp [ResolvedDependency.stored, SemanticVersion.core, SemanticVersion.plain]

/-- **The round trip.** When libyaml reads back the events it has written, the lock file of a
resolution is loaded, and what is loaded is the same set of dependencies if and only if all
versions are plain. Kind: P -/
theorem loadLockFile_generateLockFile (yaml : Libyaml) (ctx : Context)
    (hyaml : yaml.parse (yaml.emit (generateLockFile ctx)) = generateLockFile ctx) :
    ∃ loaded, loadLockFile yaml (some (yaml.emit (generateLockFile ctx))) initResolverContext =
        (true, loaded) ∧
      ((∀ dep, dep ∈ loaded.resolved ↔ dep ∈ ctx.resolved) ↔
        ∀ dep ∈ ctx.resolved, dep.version.plain = true) := by
  obtain ⟨l, hl, hres⟩ := load_generated ctx blankDependency initResolverContext.resolved
  refine ⟨{ initResolverContext with resolved := l.resolved }, ?_, ?_⟩
  · simp only [loadLockFile, hyaml, hl]
  have hmem : ∀ dep, dep ∈ l.resolved ↔ ∃ d ∈ ctx.resolved, d.stored = dep := by
    intro dep
    rw [hres]
    simp only [initResolverContext, List.nil_append, List.mem_map, List.mem_append,
      List.mem_filter, ← and_or_left]
    simp
  simp only [hmem]
  constructor
  · intro hall dep hdep
    obtain ⟨d, -, hd⟩ := (hall dep).mpr hdep
    rw [← hd]
    rfl
  · intro hplain dep
    constructor
    · rintro ⟨d, hd, rfl⟩
      rwa [(stored_eq_iff d).mpr (hplain d hd)]
    · intro hdep
      exact ⟨dep, hdep, (stored_eq_iff dep).mpr (hplain dep hdep)⟩

/-- A resolution whose only dependency has the tag `v1.0.0`, and its lock file. -/
def sampleLocked (tag : String) (version : SemanticVersion) : Context :=
  { initResolverContext with
    resolved := [⟨['d'], some ['r'], version, some tag.toList, none, none, false⟩] }

def sampleLockFile : String :=
  "dependencies:\n- name: d\n  repository: r\n  version: 1.0.0\n  tag: v1.0.0\n"

/-- A libyaml that writes and reads the sample. -/
def sampleYaml : Libyaml where
  emit _ := sampleLockFile.toList
  parse text := if text = sampleLockFile.toList then
    generateLockFile (sampleLocked "v1.0.0" ⟨1, 0, 0, none, none⟩) else []

theorem loadLockFile_generateLockFile_sample :
    ∃ loaded, loadLockFile sampleYaml (some sampleLockFile.toList) initResolverContext =
        (true, loaded) ∧
      ((∀ dep, dep ∈ loaded.resolved ↔
          dep ∈ (sampleLocked "v1.0.0" ⟨1, 0, 0, none, none⟩).resolved) ↔
        ∀ dep ∈ (sampleLocked "v1.0.0" ⟨1, 0, 0, none, none⟩).resolved,
          dep.version.plain = true) :=
  loadLockFile_generateLockFile sampleYaml (sampleLocked "v1.0.0" ⟨1, 0, 0, none, none⟩)
    (by simp only [sampleYaml, if_true])

/-- A dependency on a prerelease. -/
def prereleaseDependency : PackageDependency :=
  ⟨['d'], some ['r'], none, some "v1.0.0-beta.1".toList, none, false⟩

/-- What its resolution records. -/
def prereleaseContext : Context :=
  { sampleLocked "v1.0.0-beta.1" ⟨1, 0, 0, some "beta.1".toList, none⟩ with
    visited := [⟨prereleaseDependency, ⟨.any, .zero, none⟩, true⟩] }

/-- **A prerelease part is lost**: the resolution of a dependency with the tag `v1.0.0-beta.1`
succeeds, and the lock file does not give it back. Kind: P -/
theorem loadLockFile_prerelease_lost :
    resolveDependencies sampleWorld 0 initResolverContext ⟨['m'], [prereleaseDependency], []⟩ =
        some (true, prereleaseContext) ∧
      ∀ yaml : Libyaml,
        yaml.parse (yaml.emit (generateLockFile prereleaseContext)) =
          generateLockFile prereleaseContext →
        ¬ ∃ loaded, loadLockFile yaml (some (yaml.emit (generateLockFile prereleaseContext)))
            initResolverContext = (true, loaded) ∧
          ∀ dep, dep ∈ loaded.resolved ↔ dep ∈ prereleaseContext.resolved := by
  refine ⟨by decide, fun yaml hyaml ⟨loaded, hload, hsame⟩ => ?_⟩
  obtain ⟨l, hl, hres⟩ := load_generated prereleaseContext blankDependency
    initResolverContext.resolved
  simp only [loadLockFile, hyaml, hl, Prod.mk.injEq, true_and] at hload
  have hmem := (hsame _).mpr List.mem_cons_self
  rw [← hload, hres] at hmem
  simp [initResolverContext, ResolvedDependency.stored, SemanticVersion.core] at hmem

end CxyCompiler.Package
