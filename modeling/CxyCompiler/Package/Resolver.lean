import Mathlib.Data.List.Nodup
import CxyCompiler.Package.Versions

/-!
# The dependency resolver

`resolver.c` walks over the dependencies of a package, and over those of each package that is
given by a path, and records a version for every name at the first edge that leads to it: 0.0.0
for a path, the version in the tag for a tag, otherwise the highest tag of the repository that
satisfies the constraint of that edge. A later edge to the same name is checked against the
version recorded.

* `World`: the tags of the repositories and the Cxyfiles behind the paths.
* `resolveDependency`, `resolveDependencies`: the walk; the fuel bounds how deep paths lead.
* **`resolveDependencies_sound`**: when the walk succeeds every name is recorded once, and the
  version recorded satisfies all edges exactly when every path or tag that came first satisfies
  its own.

`Context.visited` is not in the source: it lists the edges in the order they are visited, and
whether each was the first to its name.

Sources: `package/resolver.c`, `package/types.h`.
-/

namespace CxyCompiler.Package

/-! ## Packages -/

/-- Source: `types.h` `PackageDependency`, what the resolver uses of it. -/
structure PackageDependency where
  name : CString
  repository : Option CString
  version : Option CString
  tag : Option CString
  path : Option CString
  isDev : Bool
  deriving DecidableEq

/-- Source: `gitops.h` `GitTag`. -/
structure GitTag where
  name : CString
  commit : CString
  version : SemanticVersion
  deriving DecidableEq

/-- Source: `types.h` `PackageMetadata`, what the resolver uses of it. -/
structure PackageMetadata where
  name : CString
  dependencies : List PackageDependency
  devDependencies : List PackageDependency

/-- What is outside the program: `fetchTags` gives the tags of a repository that are versions, in
ascending order (none when git fails), `loadCxyfile` the dependencies of the package at a path
(none when there is no Cxyfile or it is not well formed). -/
structure World where
  fetchTags : CString → Option (List GitTag)
  loadCxyfile : CString → Option (List PackageDependency)

/-- Source: `resolver.h` `ResolvedDependency`. -/
structure ResolvedDependency where
  name : CString
  repository : Option CString
  version : SemanticVersion
  tag : Option CString
  commit : Option CString
  checksum : Option CString
  isDev : Bool
  deriving DecidableEq

/-- Source: `resolver.h` `VersionConflict`. -/
structure VersionConflict where
  packageName : CString
  constraints : List VersionConstraint
  requestedBy : List CString
  deriving DecidableEq

/-- An edge that has been visited, and whether it was the first to its name. -/
structure Visit where
  dep : PackageDependency
  constraint : VersionConstraint
  first : Bool
  deriving DecidableEq

/-- Source: `resolver.h` `ResolverContext`. -/
structure Context where
  resolved : List ResolvedDependency
  conflicts : List VersionConflict
  allowDevDeps : Bool
  visited : List Visit
  deriving DecidableEq

/-- Source: `resolver.c` `initResolverContext`. -/
def initResolverContext : Context := ⟨[], [], true, []⟩

namespace Context

def visit (ctx : Context) (v : Visit) : Context := { ctx with visited := ctx.visited ++ [v] }

/-- Source: `pushOnDynArray(&ctx->resolved, …)`. -/
def push (ctx : Context) (r : ResolvedDependency) : Context :=
  { ctx with resolved := ctx.resolved ++ [r] }

@[simp] theorem visit_resolved (ctx : Context) (v : Visit) :
    (ctx.visit v).resolved = ctx.resolved := rfl

@[simp] theorem visit_visited (ctx : Context) (v : Visit) :
    (ctx.visit v).visited = ctx.visited ++ [v] := rfl

@[simp] theorem visit_conflicts (ctx : Context) (v : Visit) :
    (ctx.visit v).conflicts = ctx.conflicts := rfl

@[simp] theorem push_resolved (ctx : Context) (r : ResolvedDependency) :
    (ctx.push r).resolved = ctx.resolved ++ [r] := rfl

@[simp] theorem push_visited (ctx : Context) (r : ResolvedDependency) :
    (ctx.push r).visited = ctx.visited := rfl

@[simp] theorem push_conflicts (ctx : Context) (r : ResolvedDependency) :
    (ctx.push r).conflicts = ctx.conflicts := rfl

end Context

/-! ## The resolver -/

/-- Source: `resolver.c` `isDependencyResolved`. -/
def isDependencyResolved (ctx : Context) (name : CString) : Option ResolvedDependency :=
  ctx.resolved.find? fun dep => dep.name = name

/-- Source: `resolver.c` `findBestMatchingVersion`. -/
def findBestMatchingVersion (w : World) (repository : CString)
    (constraints : List VersionConstraint) : Option GitTag :=
  match w.fetchTags repository with
  | none => none
  | some tags => tags.reverse.find? fun tag => constraints.all fun constraint =>
      constraint.type = .any || versionSatisfiesConstraint tag.version constraint

/-- Source: `resolver.c` `addVersionConflict`. -/
def addConflict (packageName : CString) (constraint : VersionConstraint) (requestedBy : CString) :
    List VersionConflict → List VersionConflict
  | [] => [⟨packageName, [constraint], [requestedBy]⟩]
  | c :: cs =>
      if c.packageName = packageName then
        { c with constraints := c.constraints ++ [constraint],
                 requestedBy := c.requestedBy ++ [requestedBy] } :: cs
      else c :: addConflict packageName constraint requestedBy cs

def addVersionConflict (ctx : Context) (packageName : CString) (constraint : VersionConstraint)
    (requestedBy : CString) : Context :=
  { ctx with conflicts := addConflict packageName constraint requestedBy ctx.conflicts }

/-- A string that is not NULL and not empty. -/
def present : Option CString → Option CString
  | some (c :: s) => some (c :: s)
  | _ => none

/-- The version in a tag, or 0.0.0. Source: `resolver.c` `resolveDependency`. -/
def tagVersion (tag : CString) : SemanticVersion := (parseSemanticVersion tag).getD .zero

/-- The result of a walk: none when the fuel is not enough, else whether it succeeded. -/
abbrev Walk : Type := Option (Bool × Context)

/-- One edge; `transitive` walks over the package at a path.
Source: `resolver.c` `resolveDependency`. -/
def resolveEdge (w : World) (transitive : Context → CString → CString → Walk) (ctx : Context)
    (dep : PackageDependency) (requestedBy : CString) (constraint : VersionConstraint) : Walk :=
  match isDependencyResolved ctx dep.name with
  | some existing =>
      let ctx := ctx.visit ⟨dep, constraint, false⟩
      if constraint.type ≠ .any && !versionSatisfiesConstraint existing.version constraint then
        some (false, addVersionConflict ctx dep.name constraint requestedBy)
      else some (true, ctx)
  | none =>
      let ctx := ctx.visit ⟨dep, constraint, true⟩
      match present dep.path with
      | some path =>
          transitive (ctx.push ⟨dep.name, none, .zero, none, none, none, dep.isDev⟩) path dep.name
      | none =>
          match present dep.repository with
          | none => some (false, ctx)
          | some repository =>
              match present dep.tag with
              | some tag => some (true, ctx.push
                  ⟨dep.name, some repository, tagVersion tag, some tag, none, none, dep.isDev⟩)
              | none =>
                  match findBestMatchingVersion w repository [constraint] with
                  | none => some (false, ctx)
                  | some best => some (true, ctx.push ⟨dep.name, some repository, best.version,
                      some best.name, some best.commit, none, dep.isDev⟩)

/-- The dependencies of a package in the order of its Cxyfile.
Source: `resolver.c` `resolveTransitiveDependencies`, `resolveDependencies`. -/
def resolveEach (resolve : Context → PackageDependency → VersionConstraint → Walk) :
    Context → List PackageDependency → Walk
  | ctx, [] => some (true, ctx)
  | ctx, dep :: deps =>
      match parseVersionConstraint dep.version with
      | none => some (false, ctx)
      | some constraint =>
          match resolve ctx dep constraint with
          | some (true, ctx) => resolveEach resolve ctx deps
          | r => r

/-- A package without Cxyfile has no dependencies.
Source: `resolver.c` `resolveTransitiveDependencies`. -/
def resolveTransitiveDependencies (w : World)
    (resolve : Context → PackageDependency → CString → VersionConstraint → Walk) (ctx : Context)
    (packagePath packageName : CString) : Walk :=
  match w.loadCxyfile packagePath with
  | none => some (true, ctx)
  | some deps => resolveEach (fun ctx dep c => resolve ctx dep packageName c) ctx deps

/-- Source: `resolver.c` `resolveDependency`. -/
def resolveDependency (w : World) :
    ℕ → Context → PackageDependency → CString → VersionConstraint → Walk
  | 0 => resolveEdge w fun _ _ _ => none
  | fuel + 1 => resolveEdge w (resolveTransitiveDependencies w (resolveDependency w fuel))

/-- The dependencies of the root that are visited: first those of production. -/
def rootDependencies (allowDevDeps : Bool) (root : PackageMetadata) : List PackageDependency :=
  root.dependencies ++ (if allowDevDeps then root.devDependencies else [])

/-- Source: `resolver.c` `resolveDependencies`. -/
def resolveDependencies (w : World) (fuel : ℕ) (ctx : Context) (root : PackageMetadata) : Walk :=
  match resolveEach (fun ctx dep c => resolveDependency w fuel ctx dep root.name c) ctx
      (rootDependencies ctx.allowDevDeps root) with
  | some (true, ctx) => some (ctx.conflicts.isEmpty, ctx)
  | r => r

/-! ## What a successful walk has recorded -/

/-- The version of an edge with a path or a tag, whatever its constraint. -/
def pinnedVersion (dep : PackageDependency) : Option SemanticVersion :=
  match present dep.path with
  | some _ => some .zero
  | none => (present dep.tag).map tagVersion

/-- The edge was not the first to its name, or has neither path nor tag, or its constraint holds
for the version of its path or tag. -/
def Visit.kept (v : Visit) : Bool :=
  !v.first || match pinnedVersion v.dep with
    | none => true
    | some version => versionSatisfiesConstraint version v.constraint

/-- **The invariant of the walk**: every name is recorded once, and the version recorded for an
edge satisfies it exactly when the edge is kept. -/
structure Recorded (ctx : Context) : Prop where
  nodup : (ctx.resolved.map ResolvedDependency.name).Nodup
  visits : ∀ v ∈ ctx.visited, ∃ r ∈ ctx.resolved, r.name = v.dep.name ∧
    (versionSatisfiesConstraint r.version v.constraint = true ↔ v.kept = true)

theorem isDependencyResolved_some {ctx : Context} {name : CString} {r : ResolvedDependency}
    (h : isDependencyResolved ctx name = some r) : r ∈ ctx.resolved ∧ r.name = name :=
  ⟨List.mem_of_find?_eq_some h, by simpa using List.find?_some h⟩

theorem isDependencyResolved_none {ctx : Context} {name : CString}
    (h : isDependencyResolved ctx name = none) :
      name ∉ ctx.resolved.map ResolvedDependency.name := by
  intro hmem
  obtain ⟨r, hr, rfl⟩ := List.mem_map.mp hmem
  have := List.find?_eq_none.mp h r hr
  simp at this

theorem satisfies_any {v : SemanticVersion} {c : VersionConstraint} (h : c.type = .any) :
    versionSatisfiesConstraint v c = true := by
  simp [versionSatisfiesConstraint, h]

/-- The tag that is chosen satisfies the constraint. Kind: L -/
theorem findBestMatchingVersion_satisfies {w : World} {repository : CString}
    {c : VersionConstraint} {best : GitTag}
    (h : findBestMatchingVersion w repository [c] = some best) :
    versionSatisfiesConstraint best.version c = true := by
  unfold findBestMatchingVersion at h
  split at h
  · cases h
  · have := List.find?_some h
    simp only [List.all_cons, List.all_nil, Bool.and_true, Bool.or_eq_true,
      decide_eq_true_eq] at this
    exact this.elim satisfies_any id

/-- A later edge to a name that is recorded. Kind: L -/
theorem Recorded.visit {ctx : Context} (h : Recorded ctx) {v : Visit} {r : ResolvedDependency}
    (hr : r ∈ ctx.resolved) (hname : r.name = v.dep.name)
    (hv : versionSatisfiesConstraint r.version v.constraint = true ↔ v.kept = true) :
    Recorded (ctx.visit v) := by
  refine ⟨h.nodup, fun u hu => ?_⟩
  simp only [Context.visit_visited, List.mem_append, List.mem_singleton] at hu
  rcases hu with hu | rfl
  · exact h.visits u hu
  · exact ⟨r, hr, hname, hv⟩

theorem Recorded.push {ctx : Context} (h : Recorded ctx) {v : Visit} {r : ResolvedDependency}
    (hnew : isDependencyResolved ctx v.dep.name = none) (hname : r.name = v.dep.name)
    (hv : versionSatisfiesConstraint r.version v.constraint = true ↔ v.kept = true) :
    Recorded ((ctx.visit v).push r) := by
  constructor
  · simp only [Context.push_resolved, Context.visit_resolved, List.map_append, List.map_cons,
      List.map_nil]
    refine List.Nodup.append h.nodup (List.nodup_singleton _) ?_
    rw [List.disjoint_singleton, hname]
    exact isDependencyResolved_none hnew
  · intro u hu
    simp only [Context.push_visited, Context.visit_visited, List.mem_append,
      List.mem_singleton] at hu
    simp only [Context.push_resolved, Context.visit_resolved, List.mem_append, List.mem_singleton]
    rcases hu with hu | rfl
    · obtain ⟨r', hr', hrest⟩ := h.visits u hu
      exact ⟨r', Or.inl hr', hrest⟩
    · exact ⟨r, Or.inr rfl, hname, hv⟩

/-- **One edge keeps the invariant.** Kind: L -/
theorem resolveEdge_recorded {w : World} {transitive : Context → CString → CString → Walk}
    (ht : ∀ ctx p n ctx', Recorded ctx → transitive ctx p n = some (true, ctx') → Recorded ctx')
    {ctx ctx' : Context} {dep : PackageDependency} {by_ : CString} {c : VersionConstraint}
    (hctx : Recorded ctx) (h : resolveEdge w transitive ctx dep by_ c = some (true, ctx')) :
    Recorded ctx' := by
  unfold resolveEdge at h
  split at h
  · next existing hex =>
    obtain ⟨hmem, hname⟩ := isDependencyResolved_some hex
    dsimp only at h
    split at h
    · simp at h
    · next hok =>
      simp only [Option.some.injEq, Prod.mk.injEq, true_and] at h
      subst h
      refine hctx.visit hmem hname ⟨fun _ => rfl, fun _ => ?_⟩
      by_cases hany : c.type = .any
      · exact satisfies_any hany
      · simpa [hany] using hok
  · next hnone =>
    dsimp only at h
    split at h
    · next path hpath =>
      refine ht _ _ _ _ (hctx.push hnone rfl ?_) h
      simp [Visit.kept, pinnedVersion, hpath]
    next hpath =>
    split at h
    · simp at h
    split at h
    · next tag htag =>
      simp only [Option.some.injEq, Prod.mk.injEq, true_and] at h
      subst h
      refine hctx.push hnone rfl ?_
      simp [Visit.kept, pinnedVersion, hpath, htag]
    next htag =>
    split at h
    · simp at h
    · next best hbest =>
      simp only [Option.some.injEq, Prod.mk.injEq, true_and] at h
      subst h
      refine hctx.push hnone rfl ?_
      simp [Visit.kept, pinnedVersion, hpath, htag, findBestMatchingVersion_satisfies hbest]

/-- **The dependencies of a package keep the invariant.** Kind: L -/
theorem resolveEach_recorded
    {resolve : Context → PackageDependency → VersionConstraint → Walk}
    (hr : ∀ ctx d c ctx', Recorded ctx → resolve ctx d c = some (true, ctx') → Recorded ctx')
    {deps : List PackageDependency} {ctx ctx' : Context} (hctx : Recorded ctx)
    (h : resolveEach resolve ctx deps = some (true, ctx')) : Recorded ctx' := by
  induction deps generalizing ctx with
  | nil =>
      simp only [resolveEach, Option.some.injEq, Prod.mk.injEq, true_and] at h
      exact h ▸ hctx
  | cons d deps ih =>
      simp only [resolveEach] at h
      split at h
      · simp at h
      next c _ =>
      split at h
      · next hd => exact ih (hr _ _ _ _ hctx hd) h
      · next hno => exact absurd h (hno _)

theorem resolveDependency_recorded (w : World) (fuel : ℕ) {ctx ctx' : Context}
    {dep : PackageDependency} {by_ : CString} {c : VersionConstraint} (hctx : Recorded ctx)
    (h : resolveDependency w fuel ctx dep by_ c = some (true, ctx')) : Recorded ctx' := by
  induction fuel generalizing ctx ctx' dep by_ c with
  | zero =>
      refine resolveEdge_recorded (fun _ _ _ _ _ h => ?_) hctx h
      cases h
  | succ fuel ih =>
      refine resolveEdge_recorded (fun ctx p n ctx' hctx h => ?_) hctx h
      unfold resolveTransitiveDependencies at h
      split at h
      · simp only [Option.some.injEq, Prod.mk.injEq, true_and] at h
        exact h ▸ hctx
      · exact resolveEach_recorded (fun _ _ _ _ => ih) hctx h

theorem resolveDependencies_recorded {w : World} {fuel : ℕ} {ctx ctx' : Context}
    {root : PackageMetadata} (hctx : Recorded ctx)
    (h : resolveDependencies w fuel ctx root = some (true, ctx')) : Recorded ctx' := by
  unfold resolveDependencies at h
  split at h
  · next ctx₁ hall =>
    have hrec := resolveEach_recorded
      (fun _ _ _ _ hctx hd => resolveDependency_recorded w fuel hctx hd) hctx hall
    simp only [Option.some.injEq, Prod.mk.injEq] at h
    exact h.2 ▸ hrec
  · next hno => exact absurd h (hno _)

/-- **What a successful resolution has recorded.** Every name occurs once, and the versions
recorded satisfy all edges that were visited if and only if every edge that came first to its
name and has a path or a tag holds for 0.0.0 or the version in the tag. Kind: P -/
theorem resolveDependencies_sound {w : World} {fuel : ℕ} {allowDevDeps : Bool} {ctx : Context}
    {root : PackageMetadata}
    (h : resolveDependencies w fuel { initResolverContext with allowDevDeps } root =
      some (true, ctx)) :
    (ctx.resolved.map ResolvedDependency.name).Nodup ∧
      ((∀ v ∈ ctx.visited, ∃ r ∈ ctx.resolved, r.name = v.dep.name ∧
          versionSatisfiesConstraint r.version v.constraint = true) ↔
        ∀ v ∈ ctx.visited, v.kept = true) := by
  have hinit : Recorded { initResolverContext with allowDevDeps } :=
    ⟨by simp [initResolverContext], by simp [initResolverContext]⟩
  have hrec := resolveDependencies_recorded hinit h
  refine ⟨hrec.nodup, fun hall v hv => ?_, fun hall v hv => ?_⟩
  · obtain ⟨r, hr, hname, hsat⟩ := hall v hv
    obtain ⟨r', hr', hname', hiff⟩ := hrec.visits v hv
    have hsame : r = r' := List.inj_on_of_nodup_map hrec.nodup hr hr' (hname.trans hname'.symm)
    exact hiff.mp (hsame ▸ hsat)
  · obtain ⟨r, hr, hname, hiff⟩ := hrec.visits v hv
    exact ⟨r, hr, hname, hiff.mpr (hall v hv)⟩

/-- A repository with the tags 1.2.0 and 1.9.0, and no Cxyfiles. -/
def sampleWorld : World where
  fetchTags r := if r = ['r'] then
    some [⟨"v1.2.0".toList, ['a'], ⟨1, 2, 0, none, none⟩⟩,
      ⟨"v1.9.0".toList, ['b'], ⟨1, 9, 0, none, none⟩⟩] else none
  loadCxyfile _ := none

/-- A dependency on the repository of the sample. -/
def sampleDependency (version : String) : PackageDependency :=
  ⟨['d'], some ['r'], some version.toList, none, none, false⟩

theorem exists_of_run {o : Option (Bool × Context)} {ok : Bool} {p : Context → Prop}
    [DecidablePred p] (h : o.any (fun r => decide (r.1 = ok ∧ p r.2)) = true) :
    ∃ ctx, o = some (ok, ctx) ∧ p ctx := by
  cases o with
  | none => cases h
  | some r =>
      obtain ⟨ok', ctx⟩ := r
      obtain ⟨rfl, hp⟩ := of_decide_eq_true h
      exact ⟨ctx, rfl, hp⟩

theorem resolveDependencies_sound_sample :
    ∃ ctx, resolveDependencies sampleWorld 0 initResolverContext
        ⟨['m'], [sampleDependency "^1.2.0", sampleDependency "1.9.0"], []⟩ = some (true, ctx) ∧
      ((ctx.resolved.map ResolvedDependency.name).Nodup ∧
        ((∀ v ∈ ctx.visited, ∃ r ∈ ctx.resolved, r.name = v.dep.name ∧
            versionSatisfiesConstraint r.version v.constraint = true) ↔
          ∀ v ∈ ctx.visited, v.kept = true)) := by
  have hex : ∃ ctx, resolveDependencies sampleWorld 0 initResolverContext
      ⟨['m'], [sampleDependency "^1.2.0", sampleDependency "1.9.0"], []⟩ = some
        (true, ctx) ∧ True :=
    exists_of_run (by decide +kernel)
  obtain ⟨ctx, hrun, -⟩ := hex
  exact ⟨ctx, hrun, @resolveDependencies_sound sampleWorld 0 true ctx
    ⟨['m'], [sampleDependency "^1.2.0", sampleDependency "1.9.0"], []⟩ hrun⟩

/-- **A path is recorded as 0.0.0 whatever its constraint**: a dependency on `^1.0.0` at a path
resolves to 0.0.0. Kind: P -/
theorem resolveDependencies_path_unchecked :
    ∃ ctx, resolveDependencies sampleWorld 1 initResolverContext
        ⟨['m'], [⟨['d'], none, some "^1.0.0".toList, none, some "../d".toList, false⟩], []⟩ =
          some (true, ctx) ∧
      ∃ v ∈ ctx.visited, ∀ r ∈ ctx.resolved, r.name = v.dep.name →
        versionSatisfiesConstraint r.version v.constraint = false :=
  exists_of_run (by decide +kernel)

end CxyCompiler.Package
