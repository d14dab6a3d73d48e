import CxyCompiler.Lib.FirstVisit
import CxyCompiler.Package.Resolver

/-!
# The order of the dependencies

The walk of the resolver is one that follows each package once (`Lib.FirstVisit`): the edges are
the dependencies, the target of an edge is the name of its package. What the first edge to a name
records stands for all later ones, so the order in which dependencies are listed can decide
between success and a conflict. It does not when the edges to one package agree, or when no version
satisfies them all.

* `choice`: the version an edge records when it is the first to its package.
* `Agree`, `Clash`: edges to one package choose the same version, agree on whether it satisfies
  them, and lead to the same dependencies; no version offered satisfies them all, nor does the one
  that the first of them chooses.
* `run_walk`, `walk_run`: a run that succeeds is a walk, and a walk whose later edges accept the
  version chosen is a run that succeeds.
* **`resolveDependencies_order`**: where the edges to each package agree or clash, dependencies
  listed in any other order give the same result.
-/

namespace CxyCompiler.Package

open CxyCompiler.Lib
open CxyCompiler.Lib.FirstVisit (Reach Coherent)

/-! ## What an edge chooses -/

/-- What is recorded at the first edge to a package. -/
def firstRecord (w : World) (dep : PackageDependency) (constraint : VersionConstraint) :
    Option ResolvedDependency :=
  match present dep.path with
  | some _ => some ⟨dep.name, none, .zero, none, none, none, dep.isDev⟩
  | none =>
      match present dep.repository with
      | none => none
      | some repository =>
          match present dep.tag with
          | some tag =>
              some ⟨dep.name, some repository, tagVersion tag, some tag, none, none, dep.isDev⟩
          | none => (findBestMatchingVersion w repository [constraint]).map fun best =>
              ⟨dep.name, some repository, best.version, some best.name, some best.commit, none,
                dep.isDev⟩

/-- The version an edge records when it is the first to its package. -/
def choice (w : World) (dep : PackageDependency) : Option SemanticVersion :=
  (parseVersionConstraint dep.version).bind fun c =>
    (firstRecord w dep c).map ResolvedDependency.version

/-- The dependencies of the package that an edge leads to. -/
def children (w : World) (dep : PackageDependency) : List PackageDependency :=
  match parseVersionConstraint dep.version, present dep.path with
  | some _, some path => (w.loadCxyfile path).getD []
  | _, _ => []

/-- A version satisfies the constraint of an edge. -/
def meets (dep : PackageDependency) (version : SemanticVersion) : Bool :=
  (parseVersionConstraint dep.version).any (versionSatisfiesConstraint version)

/-- An edge is satisfied by its own choice. -/
def accepts (w : World) (dep : PackageDependency) : Bool := (choice w dep).any (meets dep)

/-- The constraint of an edge can be read. -/
def readable (dep : PackageDependency) : Bool := (parseVersionConstraint dep.version).isSome

/-- The versions an edge can be resolved to: 0.0.0 for a path, that of a tag, or those of all
tags of the repository. -/
def offered (w : World) (dep : PackageDependency) : List SemanticVersion :=
  match pinnedVersion dep with
  | some version => [version]
  | none => (((present dep.repository).bind w.fetchTags).getD []).map GitTag.version

/-- **Edges to one package agree**: those in reach whose constraints can be read choose the same
version, are all satisfied by it or none is, and lead to the same dependencies. -/
def OneChoice (w : World) (es : List PackageDependency) : Prop :=
  ∀ e e', Reach (children w) es e → Reach (children w) es e' → e.name = e'.name →
    readable e = true → readable e' = true →
    choice w e = choice w e' ∧ accepts w e = accepts w e' ∧
      (children w e).Perm (children w e')

/-- The edges to a package of this name agree. -/
def Agree (w : World) (es : List PackageDependency) (name : CString) : Prop :=
  ∀ e e', Reach (children w) es e → Reach (children w) es e' → e.name = name → e'.name = name →
    readable e = true → readable e' = true →
    choice w e = choice w e' ∧ accepts w e = accepts w e' ∧ (children w e).Perm (children w e')

/-- The edges that no run leaves out: those of the root, and of packages whose edges agree. -/
inductive Sure (w : World) (es : List PackageDependency) : PackageDependency → Prop
  | start {e : PackageDependency} : e ∈ es → Sure w es e
  | child {e d : PackageDependency} : Sure w es e → Agree w es e.name →
    d ∈ children w e → Sure w es d

/-- **No version satisfies the edges to a package**: none that is offered satisfies all of them, and
what one of them chooses is refused by another one that no run leaves out. -/
structure Clash (w : World) (es : List PackageDependency) (name : CString) : Prop where
  offered : ∀ e, Reach (children w) es e → e.name = name → ∀ v ∈ offered w e,
    ∃ e', Reach (children w) es e' ∧ e'.name = name ∧ meets e' v = false
  chosen : ∀ e, Reach (children w) es e → e.name = name → ∀ v, choice w e = some v →
    ∃ e', Sure w es e' ∧ e'.name = name ∧ e' ≠ e ∧ meets e' v = false

/-- **The edges to every package agree or clash.** -/
def Settled (w : World) (es : List PackageDependency) : Prop :=
  ∀ e, Reach (children w) es e → Agree w es e.name ∨ Clash w es e.name

/-- Where the edges to each package agree there is one choice. Kind: L -/
theorem oneChoice_of_agree {w : World} {es : List PackageDependency}
    (h : ∀ e, Reach (children w) es e → Agree w es e.name) : OneChoice w es :=
  fun e e' he he' hname => h e he e e' he he' rfl hname.symm

/-- The record is that of the package. Kind: L -/
theorem firstRecord_name {w : World} {dep : PackageDependency} {c : VersionConstraint}
    {r : ResolvedDependency} (h : firstRecord w dep c = some r) : r.name = dep.name := by
  unfold firstRecord at h
  split at h
  · simp only [Option.some.injEq] at h
    exact h ▸ rfl
  split at h
  · cases h
  split at h
  · simp only [Option.some.injEq] at h
    exact h ▸ rfl
  · obtain ⟨best, -, rfl⟩ := Option.map_eq_some_iff.mp h
    rfl

theorem choice_eq {w : World} {dep : PackageDependency} {c : VersionConstraint}
    (h : parseVersionConstraint dep.version = some c) :
    choice w dep = (firstRecord w dep c).map ResolvedDependency.version := by
  rw [choice, h, Option.bind_some]

/-- A version is chosen only under a constraint that can be read. Kind: L -/
theorem choice_isSome {w : World} {dep : PackageDependency} (h : (choice w dep).isSome = true) :
    ∃ c r, parseVersionConstraint dep.version = some c ∧ firstRecord w dep c = some r := by
  unfold choice at h
  cases hc : parseVersionConstraint dep.version with
  | none => simp [hc] at h
  | some c =>
      rw [hc, Option.bind_some, Option.isSome_map] at h
      obtain ⟨r, hr⟩ := Option.isSome_iff_exists.mp h
      exact ⟨c, r, rfl, hr⟩

theorem meets_eq {dep : PackageDependency} {c : VersionConstraint} {v : SemanticVersion}
    (h : parseVersionConstraint dep.version = some c) :
    meets dep v = versionSatisfiesConstraint v c := by
  rw [meets, h, Option.any_some]

theorem accepts_eq {w : World} {dep : PackageDependency} {v : SemanticVersion}
    (h : choice w dep = some v) : accepts w dep = meets dep v := by
  rw [accepts, h, Option.any_some]

/-- An edge that its own choice does not satisfy has a path or a tag. Kind: L -/
theorem offered_of_not_accepts {w : World} {dep : PackageDependency} {v : SemanticVersion}
    (hv : choice w dep = some v) (h : accepts w dep = false) : offered w dep = [v] := by
  cases hc : parseVersionConstraint dep.version with
  | none => simp [choice, hc] at hv
  | some c =>
      rw [accepts_eq hv, meets_eq hc] at h
      rw [choice_eq hc] at hv
      unfold firstRecord at hv
      unfold offered pinnedVersion
      cases hpath : present dep.path with
      | some p =>
          simp only [hpath, Option.map_some, Option.some.injEq] at hv ⊢
          rw [hv]
      | none =>
      cases hrep : present dep.repository with
      | none => simp [hpath, hrep] at hv
      | some repository =>
      cases htag : present dep.tag with
      | some tag =>
          simp only [hpath, hrep, htag, Option.map_some, Option.some.injEq] at hv ⊢
          rw [hv]
      | none =>
          simp only [hpath, hrep, htag, Option.map_map] at hv
          obtain ⟨best, hbest, rfl⟩ := Option.map_eq_some_iff.mp hv
          have := findBestMatchingVersion_satisfies hbest
          simp only [Function.comp_apply] at h
          rw [h] at this
          cases this

/-! ## One edge -/

/-- A package whose name is recorded is found. Kind: L -/
theorem isDependencyResolved_mem {ctx : Context} {name : CString}
    (h : name ∈ ctx.resolved.map ResolvedDependency.name) :
    ∃ r, isDependencyResolved ctx name = some r := by
  cases hr : isDependencyResolved ctx name with
  | none => exact absurd h (isDependencyResolved_none hr)
  | some r => exact ⟨r, rfl⟩

/-- **One edge**: a later one is checked against what is recorded; the first one to a package
records its choice and is followed. Kind: P -/
theorem resolveEdge_eq (w : World) (transitive : Context → CString → CString → Walk)
    (ctx : Context) (dep : PackageDependency) (by_ : CString) (c : VersionConstraint) :
    resolveEdge w transitive ctx dep by_ c =
      match isDependencyResolved ctx dep.name with
      | some existing =>
          if versionSatisfiesConstraint existing.version c then
            some (true, ctx.visit ⟨dep, c, false⟩)
          else some (false, addVersionConflict (ctx.visit ⟨dep, c, false⟩) dep.name c by_)
      | none =>
          match firstRecord w dep c with
          | none => some (false, ctx.visit ⟨dep, c, true⟩)
          | some r =>
              match present dep.path with
              | some path => transitive ((ctx.visit ⟨dep, c, true⟩).push r) path dep.name
              | none => some (true, (ctx.visit ⟨dep, c, true⟩).push r) := by
  unfold resolveEdge firstRecord
  cases isDependencyResolved ctx dep.name with
  | some existing =>
      by_cases hany : c.type = .any
      · simp [hany, satisfies_any hany]
      · by_cases hsat : versionSatisfiesConstraint existing.version c = true <;> simp [hany, hsat]
  | none =>
      cases present dep.path with
      | some path => rfl
      | none =>
      cases present dep.repository with
      | none => rfl
      | some repository =>
      cases present dep.tag with
      | some tag => rfl
      | none => cases hf : findBestMatchingVersion w repository [c] <;> simp [hf]

/-- The dependencies of a package are resolved one by one. Kind: L -/
theorem resolveTransitiveDependencies_eq (w : World) (fuel : ℕ) (ctx : Context)
    (path name : CString) :
    resolveTransitiveDependencies w (resolveDependency w fuel) ctx path name =
      resolveEach (fun ctx dep c => resolveDependency w fuel ctx dep name c) ctx
        ((w.loadCxyfile path).getD []) := by
  unfold resolveTransitiveDependencies
  cases w.loadCxyfile path <;> rfl

/-- The first edge to a package is followed by the walk over its dependencies. Kind: L -/
theorem resolveDependency_first {w : World} {fuel : ℕ} {ctx : Context} {dep : PackageDependency}
    {by_ : CString} {c : VersionConstraint} {r : ResolvedDependency}
    (hc : parseVersionConstraint dep.version = some c)
    (hnone : isDependencyResolved ctx dep.name = none) (hr : firstRecord w dep c = some r) :
    resolveDependency w (fuel + 1) ctx dep by_ c =
      resolveEach (fun ctx d c => resolveDependency w fuel ctx d dep.name c)
        ((ctx.visit ⟨dep, c, true⟩).push r) (children w dep) := by
  rw [resolveDependency, resolveEdge_eq]
  simp only [hnone, hr]
  unfold children
  rw [hc]
  cases hpath : present dep.path with
  | none => rfl
  | some path => exact resolveTransitiveDependencies_eq w fuel _ path dep.name

/-- A package that is recorded with a version that will do is not visited again. Kind: L -/
theorem resolveDependency_seen {w : World} {ctx : Context} {dep : PackageDependency}
    {c : VersionConstraint} {r : ResolvedDependency} (fuel : ℕ) (by_ : CString)
    (hsome : isDependencyResolved ctx dep.name = some r)
    (hsat : versionSatisfiesConstraint r.version c = true) :
    resolveDependency w fuel ctx dep by_ c = some (true, ctx.visit ⟨dep, c, false⟩) := by
  cases fuel <;> (rw [resolveDependency, resolveEdge_eq]; simp only [hsome, hsat, if_true])

/-! ## Runs and walks -/

/-- The versions recorded, by name. -/
def Context.table (ctx : Context) : List (CString × Option SemanticVersion) :=
  ctx.resolved.map fun r => (r.name, some r.version)

/-- What an edge adds to the table when it is the first to its package. -/
def entry (w : World) (dep : PackageDependency) : CString × Option SemanticVersion :=
  (dep.name, choice w dep)

/-- The edges visited so far. -/
def Context.edges (ctx : Context) : List PackageDependency := ctx.visited.map Visit.dep

/-- Of two edges to one package both are satisfied by their choice. -/
def Compatible (w : World) (e e' : PackageDependency) : Prop :=
  e.name = e'.name → accepts w e = true ∧ accepts w e' = true

/-- **The invariant of a run that has succeeded so far**, from the edges `es` of the root: the
table is made of choices of visited edges, and has all their names; two visited edges to one
package are compatible. -/
structure Sound (w : World) (es : List PackageDependency) (ctx : Context) : Prop where
  chosen : ∀ k ∈ ctx.table, ∃ e ∈ ctx.edges, entry w e = k
  named : ∀ e ∈ ctx.edges, e.name ∈ ctx.resolved.map ResolvedDependency.name
  reached : ∀ e ∈ ctx.edges, Reach (children w) es e ∧ readable e = true
  compatible : ctx.edges.Pairwise (Compatible w)

theorem readable_iff {dep : PackageDependency} :
    readable dep = true ↔ ∃ c, parseVersionConstraint dep.version = some c :=
  Option.isSome_iff_exists

/-- What a later edge finds in the table is its own choice. Kind: L -/
theorem Sound.found {w : World} {es : List PackageDependency} {ctx : Context}
    (h : Sound w es ctx) (hone : OneChoice w es) {dep : PackageDependency}
    (hreach : Reach (children w) es dep) (hread : readable dep = true) {r : ResolvedDependency}
    (hr : isDependencyResolved ctx dep.name = some r) :
    choice w dep = some r.version ∧
      ∀ e ∈ ctx.edges, e.name = dep.name → accepts w e = accepts w dep := by
  obtain ⟨hmem, hname⟩ := isDependencyResolved_some hr
  obtain ⟨e, he, hent⟩ := h.chosen _ (List.mem_map_of_mem hmem)
  simp only [entry, Prod.mk.injEq] at hent
  have heq := hone e dep (h.reached e he).1 hreach (hent.1.trans hname) (h.reached e he).2 hread
  refine ⟨heq.1 ▸ hent.2, fun e' he' hn => ?_⟩
  exact (hone e' dep (h.reached e' he').1 hreach hn (h.reached e' he').2 hread).2.1

/-- A later edge that is satisfied keeps the invariant. Kind: L -/
theorem Sound.visit {w : World} {es : List PackageDependency} {ctx : Context}
    (h : Sound w es ctx) {v : Visit} (hreach : Reach (children w) es v.dep)
    (hread : readable v.dep = true)
    (hname : v.dep.name ∈ ctx.resolved.map ResolvedDependency.name)
    (hcomp : ∀ e ∈ ctx.edges, Compatible w e v.dep) : Sound w es (ctx.visit v) := by
  have hedges : (ctx.visit v).edges = ctx.edges ++ [v.dep] := by simp [Context.edges]
  refine ⟨fun k hk => ?_, fun e he => ?_, fun e he => ?_, ?_⟩
  · obtain ⟨e, he, hent⟩ := h.chosen k hk
    exact ⟨e, hedges ▸ List.mem_append_left _ he, hent⟩
  · rw [hedges, List.mem_append, List.mem_singleton] at he
    rcases he with he | rfl
    · exact h.named e he
    · exact hname
  · rw [hedges, List.mem_append, List.mem_singleton] at he
    rcases he with he | rfl
    · exact h.reached e he
    · exact ⟨hreach, hread⟩
  · rw [hedges, List.pairwise_append]
    exact ⟨h.compatible, List.pairwise_singleton _ _, by simpa using hcomp⟩

/-- The first edge to a package keeps the invariant. Kind: L -/
theorem Sound.first {w : World} {es : List PackageDependency} {ctx : Context}
    (h : Sound w es ctx) {dep : PackageDependency} {c : VersionConstraint}
    {r : ResolvedDependency} (hreach : Reach (children w) es dep)
    (hc : parseVersionConstraint dep.version = some c) (hr : firstRecord w dep c = some r)
    (hnone : isDependencyResolved ctx dep.name = none) :
    Sound w es ((ctx.visit ⟨dep, c, true⟩).push r) := by
  have hedges : ((ctx.visit ⟨dep, c, true⟩).push r).edges = ctx.edges ++ [dep] := by
    simp [Context.edges]
  have hnew := isDependencyResolved_none hnone
  refine ⟨fun k hk => ?_, fun e he => ?_, fun e he => ?_, ?_⟩
  · rw [hedges]
    simp only [Context.table, Context.push_resolved, Context.visit_resolved, List.map_append,
      List.map_cons, List.map_nil, List.mem_append, List.mem_singleton] at hk
    rcases hk with hk | rfl
    · obtain ⟨e, he, hent⟩ := h.chosen k hk
      exact ⟨e, List.mem_append_left _ he, hent⟩
    · refine ⟨dep, List.mem_append_right _ (List.mem_singleton_self _), ?_⟩
      rw [entry, choice_eq hc, hr, firstRecord_name hr, Option.map_some]
  · rw [hedges, List.mem_append, List.mem_singleton] at he
    simp only [Context.push_resolved, Context.visit_resolved, List.map_append, List.map_cons,
      List.map_nil, List.mem_append, List.mem_singleton]
    rcases he with he | rfl
    · exact Or.inl (h.named e he)
    · exact Or.inr (firstRecord_name hr).symm
  · rw [hedges, List.mem_append, List.mem_singleton] at he
    rcases he with he | rfl
    · exact h.reached e he
    · exact ⟨hreach, readable_iff.mpr ⟨c, hc⟩⟩
  · rw [hedges, List.pairwise_append]
    refine ⟨h.compatible, List.pairwise_singleton _ _, fun e he d hd hname => ?_⟩
    rw [List.mem_singleton.mp hd] at hname
    exact absurd (hname ▸ h.named e he) hnew

/-- What a run over edges has added: the edges visited, and the choices of those that were first. -/
structure Followed (w : World) (ctx ctx' : Context) (v f : List PackageDependency) : Prop where
  edges : ctx'.edges = ctx.edges ++ v
  table : ctx'.table = ctx.table ++ f.map (entry w)
  conflicts : ctx'.conflicts = ctx.conflicts

theorem names_eq (ctx : Context) :
    ctx.resolved.map ResolvedDependency.name = ctx.table.map Prod.fst := by
  simp [Context.table, List.map_map, Function.comp_def]

/-- What is recorded are the packages that were followed. Kind: L -/
theorem Followed.names {w : World} {ctx ctx' : Context} {v f : List PackageDependency}
    (h : Followed w ctx ctx' v f) : ctx'.resolved.map ResolvedDependency.name =
      ctx.resolved.map ResolvedDependency.name ++ f.map PackageDependency.name := by
  rw [names_eq, names_eq, h.table, List.map_append, List.map_map]
  rfl

theorem Followed.refl (w : World) (ctx : Context) : Followed w ctx ctx [] [] :=
  ⟨by simp, by simp, rfl⟩

/-- One part of the traversal after the other. Kind: L -/
theorem Followed.trans {w : World} {ctx ctx₁ ctx₂ : Context} {v₁ f₁ v₂ f₂ : List PackageDependency}
    (h₁ : Followed w ctx ctx₁ v₁ f₁) (h₂ : Followed w ctx₁ ctx₂ v₂ f₂) :
    Followed w ctx ctx₂ (v₁ ++ v₂) (f₁ ++ f₂) := by
  refine ⟨?_, ?_, h₂.conflicts.trans h₁.conflicts⟩
  · rw [h₂.edges, h₁.edges, List.append_assoc]
  · rw [h₂.table, h₁.table, List.map_append, List.append_assoc]

theorem Followed.visit (w : World) (ctx : Context) (v : Visit) :
    Followed w ctx (ctx.visit v) [v.dep] [] :=
  ⟨by simp [Context.edges], by simp [Context.table], rfl⟩

/-- A first visit records the package and follows it. Kind: L -/
theorem Followed.first {w : World} {ctx : Context} {dep : PackageDependency}
    {c : VersionConstraint} {r : ResolvedDependency}
    (hc : parseVersionConstraint dep.version = some c) (hr : firstRecord w dep c = some r) :
    Followed w ctx ((ctx.visit ⟨dep, c, true⟩).push r) [dep] [dep] := by
  refine ⟨by simp [Context.edges], ?_, rfl⟩
  have hent : entry w dep = (r.name, some r.version) := by
    rw [entry, choice_eq hc, hr, firstRecord_name hr, Option.map_some]
  simp [Context.table, hent]

/-- What an edge has done when the run goes on after it. Kind: L -/
theorem resolveDependency_true {w : World} {fuel : ℕ} {ctx ctx' : Context}
    {dep : PackageDependency} {by_ : CString} {c : VersionConstraint}
    (hc : parseVersionConstraint dep.version = some c)
    (h : resolveDependency w fuel ctx dep by_ c = some (true, ctx')) :
    (∃ r, isDependencyResolved ctx dep.name = some r ∧
      versionSatisfiesConstraint r.version c = true ∧ ctx' = ctx.visit ⟨dep, c, false⟩) ∨
    (isDependencyResolved ctx dep.name = none ∧ ∃ r, firstRecord w dep c = some r ∧
      ((children w dep = [] ∧ ctx' = (ctx.visit ⟨dep, c, true⟩).push r) ∨
        ∃ k, fuel = k + 1 ∧ resolveEach (fun ctx d c => resolveDependency w k ctx d dep.name c)
          ((ctx.visit ⟨dep, c, true⟩).push r) (children w dep) = some (true, ctx'))) := by
  cases hres : isDependencyResolved ctx dep.name with
  | some r =>
      refine Or.inl ⟨r, rfl, ?_⟩
      by_cases hsat : versionSatisfiesConstraint r.version c = true
      · rw [resolveDependency_seen fuel by_ hres hsat] at h
        simp only [Option.some.injEq, Prod.mk.injEq, true_and] at h
        exact ⟨hsat, h.symm⟩
      · cases fuel <;>
        · rw [resolveDependency, resolveEdge_eq] at h
          simp [hres, hsat] at h
  | none =>
      refine Or.inr ⟨rfl, ?_⟩
      cases hr : firstRecord w dep c with
      | none =>
          cases fuel <;>
          · rw [resolveDependency, resolveEdge_eq] at h
            simp [hres, hr] at h
      | some r =>
          refine ⟨r, rfl, ?_⟩
          cases fuel with
          | succ k =>
              rw [resolveDependency_first hc hres hr] at h
              exact Or.inr ⟨k, rfl, h⟩
          | zero =>
              rw [resolveDependency, resolveEdge_eq] at h
              cases hpath : present dep.path with
              | some p => simp [hres, hr, hpath] at h
              | none =>
                  simp only [hres, hr, hpath, Option.some.injEq, Prod.mk.injEq, true_and] at h
                  exact Or.inl ⟨by simp [children, hpath], h.symm⟩

/-- The dependencies of what is reached are reached. Kind: L -/
theorem children_in_reach {w : World} {es : List PackageDependency} {dep : PackageDependency}
    (h : Reach (children w) es dep) : ∀ d ∈ children w dep, Reach (children w) es d :=
  fun _ hd => h.child hd

/-- **A run that succeeds is a walk**, and keeps the invariant. The induction is on the fuel, and
for each on the list of edges. Kind: P -/
theorem run_walk {w : World} {es : List PackageDependency} (hone : OneChoice w es) (fuel : ℕ) :
    ∀ (todo : List PackageDependency) (ctx ctx' : Context) (by_ : CString), Sound w es ctx →
      (∀ e ∈ todo, Reach (children w) es e) →
      resolveEach (fun ctx d c => resolveDependency w fuel ctx d by_ c) ctx todo =
        some (true, ctx') →
      Sound w es ctx' ∧ ∃ v f, Followed w ctx ctx' v f ∧
        FirstVisit.Walk (children w) PackageDependency.name
          (ctx.resolved.map ResolvedDependency.name) todo v f := by
  induction fuel using Nat.strong_induction_on with | h fuel ihfuel
  intro todo
  induction todo with
  | nil =>
      intro ctx ctx' by_ hs _ h
      simp only [resolveEach, Option.some.injEq, Prod.mk.injEq, true_and] at h
      subst h
      exact ⟨hs, [], [], .refl w ctx, .nil _⟩
  | cons dep todo ih =>
      intro ctx ctx' by_ hs htodo h
      obtain ⟨hdep, htodo⟩ := List.forall_mem_cons.mp htodo
      simp only [resolveEach] at h
      split at h
      · simp at h
      next c hc =>
      have hread : readable dep = true := readable_iff.mpr ⟨c, hc⟩
      split at h
      swap
      · next hno => exact absurd h (hno _)
      next ctx₁ hedge =>
      rcases resolveDependency_true hc hedge with ⟨r, hr, hsat, rfl⟩ | ⟨hnone, r, hr, hrest⟩
      · obtain ⟨hchoice, hsame⟩ := hs.found hone hdep hread hr
        have hacc : accepts w dep = true := by rw [accepts_eq hchoice, meets_eq hc, hsat]
        obtain ⟨hmem, hname⟩ := isDependencyResolved_some hr
        have hin : dep.name ∈ ctx.resolved.map ResolvedDependency.name :=
          List.mem_map.mpr ⟨r, hmem, hname⟩
        have hs₁ : Sound w es (ctx.visit ⟨dep, c, false⟩) :=
          hs.visit hdep hread hin fun e he hn => ⟨(hsame e he hn).trans hacc, hacc⟩
        obtain ⟨hs', v, f, hf, hw⟩ := ih _ _ by_ hs₁ htodo h
        exact ⟨hs', dep :: v, f, (Followed.visit w ctx _).trans hf, .seen hin hw⟩
      · have hs₁ := hs.first hdep hc hr hnone
        have hf₁ : Followed w ctx ((ctx.visit ⟨dep, c, true⟩).push r) [dep] [dep] := .first hc hr
        have hmid : Sound w es ctx₁ ∧ ∃ v f,
            Followed w ((ctx.visit ⟨dep, c, true⟩).push r) ctx₁ v f ∧
            FirstVisit.Walk (children w) PackageDependency.name
              (((ctx.visit ⟨dep, c, true⟩).push r).resolved.map ResolvedDependency.name)
              (children w dep) v f := by
          rcases hrest with ⟨hnil, rfl⟩ | ⟨k, hk, hrun⟩
          · exact ⟨hs₁, [], [], .refl w _, by rw [hnil]; exact .nil _⟩
          · exact ihfuel k (by omega) _ _ _ _ hs₁ (children_in_reach hdep) hrun
        obtain ⟨hs₂, v₁, f₁, hv₁, hw₁⟩ := hmid
        obtain ⟨hs', v₂, f₂, hv₂, hw₂⟩ := ih _ _ by_ hs₂ htodo h
        refine ⟨hs', dep :: (v₁ ++ v₂), dep :: (f₁ ++ f₂), ?_, ?_⟩
        · simpa using (hf₁.trans hv₁).trans hv₂
        · rw [hf₁.names] at hw₁
          rw [hv₁.names, hf₁.names] at hw₂
          exact .first (isDependencyResolved_none hnone) hw₁ hw₂

/-- **A run that succeeds has checked what it has visited**: an edge that was not the first to its
package is satisfied by what is recorded. Kind: L -/
theorem run_checked (w : World) (fuel : ℕ) :
    ∀ (todo : List PackageDependency) (ctx ctx' : Context) (by_ : CString),
      resolveEach (fun ctx d c => resolveDependency w fuel ctx d by_ c) ctx todo =
        some (true, ctx') →
      ∃ v f, Followed w ctx ctx' v f ∧ FirstVisit.Walk (children w) PackageDependency.name
          (ctx.resolved.map ResolvedDependency.name) todo v f ∧
        ∀ e ∈ v, readable e = true ∧
          (e ∈ f ∨ ∃ version, (e.name, some version) ∈ ctx'.table ∧ meets e version = true) := by
  induction fuel using Nat.strong_induction_on with | h fuel ihfuel
  intro todo
  induction todo with
  | nil =>
      intro ctx ctx' by_ h
      simp only [resolveEach, Option.some.injEq, Prod.mk.injEq, true_and] at h
      subst h
      exact ⟨[], [], .refl w ctx, .nil _, by simp⟩
  | cons dep todo ih =>
      intro ctx ctx' by_ h
      simp only [resolveEach] at h
      split at h
      · simp at h
      next c hc =>
      have hread : readable dep = true := readable_iff.mpr ⟨c, hc⟩
      split at h
      swap
      · next hno => exact absurd h (hno _)
      next ctx₁ hedge =>
      rcases resolveDependency_true hc hedge with ⟨r, hr, hsat, rfl⟩ | ⟨hnone, r, hr, hrest⟩
      · obtain ⟨hmem, hname⟩ := isDependencyResolved_some hr
        obtain ⟨v, f, hf, hw, hall⟩ := ih _ _ by_ h
        refine ⟨dep :: v, f, (Followed.visit w ctx _).trans hf,
          .seen (List.mem_map.mpr ⟨r, hmem, hname⟩) hw,
            List.forall_mem_cons.mpr ⟨⟨hread, .inr ?_⟩, hall⟩⟩
        refine ⟨r.version, ?_, by rw [meets_eq hc, hsat]⟩
        rw [hf.table, ← hname]
        exact List.mem_append_left _ (List.mem_map_of_mem hmem)
      · have hf₁ : Followed w ctx ((ctx.visit ⟨dep, c, true⟩).push r) [dep] [dep] := .first hc hr
        have hmid : ∃ v f, Followed w ((ctx.visit ⟨dep, c, true⟩).push r) ctx₁ v f ∧
            FirstVisit.Walk (children w) PackageDependency.name
              (((ctx.visit ⟨dep, c, true⟩).push r).resolved.map ResolvedDependency.name)
              (children w dep) v f ∧ ∀ e ∈ v, readable e = true ∧
                (e ∈ f ∨ ∃ version, (e.name, some version) ∈ ctx₁.table ∧
                  meets e version = true) := by
          rcases hrest with ⟨hnil, rfl⟩ | ⟨k, hk, hrun⟩
          · exact ⟨[], [], .refl w _, by rw [hnil]; exact .nil _, by simp⟩
          · exact ihfuel k (by omega) _ _ _ _ hrun
        obtain ⟨v₁, f₁, hv₁, hw₁, hall₁⟩ := hmid
        obtain ⟨v₂, f₂, hv₂, hw₂, hall₂⟩ := ih _ _ by_ h
        refine ⟨dep :: (v₁ ++ v₂), dep :: (f₁ ++ f₂), ?_, ?_, ?_⟩
        · simpa using (hf₁.trans hv₁).trans hv₂
        · rw [hf₁.names] at hw₁
          rw [hv₁.names, hf₁.names] at hw₂
          exact .first (isDependencyResolved_none hnone) hw₁ hw₂
        · refine List.forall_mem_cons.mpr ⟨⟨hread, .inl List.mem_cons_self⟩,
            List.forall_mem_append.mpr ⟨fun e he => ?_, fun e he => ?_⟩⟩
          · obtain ⟨hre, hin | ⟨version, hmem, hmeets⟩⟩ := hall₁ e he
            · exact ⟨hre, .inl (List.mem_cons_of_mem _ (List.mem_append_left _ hin))⟩
            · refine ⟨hre, .inr ⟨version, ?_, hmeets⟩⟩
              rw [hv₂.table]
              exact List.mem_append_left _ hmem
          · obtain ⟨hre, hin | hlater⟩ := hall₂ e he
            · exact ⟨hre, .inl (List.mem_cons_of_mem _ (List.mem_append_right _ hin))⟩
            · exact ⟨hre, .inr hlater⟩

/-- **A walk whose edges are compatible is a run that succeeds**, given enough fuel. Kind: P -/
theorem walk_run {w : World} {es : List PackageDependency} (hone : OneChoice w es)
    {m : List CString} {todo v f : List PackageDependency}
    (h : FirstVisit.Walk (children w) PackageDependency.name m todo v f) :
    ∀ ctx : Context, ctx.resolved.map ResolvedDependency.name = m → Sound w es ctx →
      (ctx.edges ++ v).Pairwise (Compatible w) →
      (∀ e ∈ v, Reach (children w) es e ∧ (choice w e).isSome = true) →
      ∃ k ctx', Sound w es ctx' ∧ Followed w ctx ctx' v f ∧ ∀ fuel, k ≤ fuel → ∀ by_,
        resolveEach (fun ctx d c => resolveDependency w fuel ctx d by_ c) ctx todo =
          some (true, ctx') := by
  induction h with
  | nil m =>
      intro ctx _ hs _ _
      exact ⟨0, ctx, hs, .refl w ctx, fun _ _ _ => rfl⟩
  | @seen m dep todo v f hm _ ih =>
      intro ctx hctx hs hcomp hv
      obtain ⟨⟨hreach, hsome⟩, hv⟩ := List.forall_mem_cons.mp hv
      obtain ⟨c, _, hc, -⟩ := choice_isSome hsome
      have hread : readable dep = true := readable_iff.mpr ⟨c, hc⟩
      obtain ⟨r, hr⟩ := isDependencyResolved_mem (hctx ▸ hm)
      obtain ⟨hchoice, -⟩ := hs.found hone hreach hread hr
      have hpair : ∀ e ∈ ctx.edges, Compatible w e dep := fun e he =>
        (List.pairwise_append.mp hcomp).2.2 e he dep List.mem_cons_self
      have hacc : accepts w dep = true := by
        obtain ⟨hmem, hname⟩ := isDependencyResolved_some hr
        obtain ⟨e, he, hent⟩ := hs.chosen _ (List.mem_map_of_mem hmem)
        simp only [entry, Prod.mk.injEq] at hent
        exact (hpair e he (hent.1.trans hname)).2
      have hsat : versionSatisfiesConstraint r.version c = true := by
        rw [← meets_eq hc, ← accepts_eq hchoice, hacc]
      have hs₁ := hs.visit (v := ⟨dep, c, false⟩) hreach hread (hctx ▸ hm) hpair
      have hf₁ := Followed.visit w ctx ⟨dep, c, false⟩
      obtain ⟨k, ctx', hs', hf, hrun⟩ := ih (ctx.visit ⟨dep, c, false⟩) hctx hs₁
        (by rw [hf₁.edges]; simpa using hcomp) hv
      refine ⟨k, ctx', hs', hf₁.trans hf, fun fuel hk by_ => ?_⟩
      simp only [resolveEach, hc, resolveDependency_seen fuel by_ hr hsat]
      exact hrun fuel hk by_
  | @first m dep todo v₁ f₁ v₂ f₂ hm _ _ ih₁ ih₂ =>
      intro ctx hctx hs hcomp hv
      obtain ⟨⟨hreach, hsome⟩, hv⟩ := List.forall_mem_cons.mp hv
      obtain ⟨hv₁, hv₂⟩ := List.forall_mem_append.mp hv
      obtain ⟨c, r, hc, hr⟩ := choice_isSome hsome
      have hnone : isDependencyResolved ctx dep.name = none := by
        cases hres : isDependencyResolved ctx dep.name with
        | none => rfl
        | some r =>
            obtain ⟨hmem, hname⟩ := isDependencyResolved_some hres
            exact absurd (hctx ▸ List.mem_map.mpr ⟨r, hmem, hname⟩) hm
      have hs₁ := hs.first hreach hc hr hnone
      have hf₁ : Followed w ctx ((ctx.visit ⟨dep, c, true⟩).push r) [dep] [dep] := .first hc hr
      have hcomp₁ : (((ctx.visit ⟨dep, c, true⟩).push r).edges ++ v₁ ++ v₂).Pairwise
          (Compatible w) := by
        rw [hf₁.edges]
        simpa using hcomp
      obtain ⟨k₁, ctx₁, hs₂, hf₂, hrun₁⟩ := ih₁ _ (by rw [hf₁.names, hctx]; rfl) hs₁
        (List.pairwise_append.mp hcomp₁).1 hv₁
      obtain ⟨k₂, ctx₂, hs₃, hf₃, hrun₂⟩ := ih₂ ctx₁ (by rw [hf₂.names, hf₁.names, hctx]; rfl) hs₂
        (by rw [hf₂.edges]; exact hcomp₁) hv₂
      refine ⟨max (k₁ + 1) k₂, ctx₂, hs₃, by simpa using (hf₁.trans hf₂).trans hf₃,
        fun fuel hk by_ => ?_⟩
      obtain ⟨j, rfl⟩ : ∃ j, fuel = j + 1 := ⟨fuel - 1, by omega⟩
      simp only [resolveEach, hc, resolveDependency_first hc hnone hr,
        hrun₁ j (by omega) dep.name]
      exact hrun₂ (j + 1) (by omega) by_

/-! ## Lists in another order -/

/-- The dependencies of the root and of each package are listed in another order. -/
structure Reordered (w w' : World) (root root' : PackageMetadata) : Prop where
  tags : w'.fetchTags = w.fetchTags
  files : ∀ path, ((w.loadCxyfile path).getD []).Perm ((w'.loadCxyfile path).getD [])
  dependencies : root.dependencies.Perm root'.dependencies
  devDependencies : root.devDependencies.Perm root'.devDependencies

namespace Reordered

variable {w w' : World} {root root' : PackageMetadata}

theorem symm (h : Reordered w w' root root') : Reordered w' w root' root :=
  ⟨h.tags.symm, fun p => (h.files p).symm, h.dependencies.symm, h.devDependencies.symm⟩

/-- Reordering keeps the dependencies of each package. Kind: L -/
theorem children_perm (h : Reordered w w' root root') (dep : PackageDependency) :
    (children w dep).Perm (children w' dep) := by
  unfold children
  split
  · exact h.files _
  · rfl

theorem choice_eq (h : Reordered w w' root root') (dep : PackageDependency) :
    choice w' dep = choice w dep := by
  unfold choice firstRecord findBestMatchingVersion
  rw [h.tags]

theorem accepts_eq (h : Reordered w w' root root') (dep : PackageDependency) :
    accepts w' dep = accepts w dep := by
  rw [accepts, h.choice_eq, accepts]

/-- Reordering keeps the dependencies of the root. Kind: L -/
theorem root_perm (h : Reordered w w' root root') (allowDevDeps : Bool) :
    (rootDependencies allowDevDeps root).Perm (rootDependencies allowDevDeps root') := by
  unfold rootDependencies
  refine h.dependencies.append ?_
  split
  · exact h.devDependencies
  · rfl

/-- Reordering keeps what is reached. Kind: L -/
theorem reach (h : Reordered w w' root root') {allowDevDeps : Bool} {e : PackageDependency}
    (he : Reach (children w) (rootDependencies allowDevDeps root) e) :
    Reach (children w') (rootDependencies allowDevDeps root') e :=
  he.mono (h.root_perm allowDevDeps).subset fun d => (h.children_perm d).subset

/-- Reordering keeps that there is one choice. Kind: L -/
theorem oneChoice (h : Reordered w w' root root') {allowDevDeps : Bool}
    (hone : OneChoice w (rootDependencies allowDevDeps root)) :
    OneChoice w' (rootDependencies allowDevDeps root') := by
  intro e e' he he' hname hr hr'
  obtain ⟨hc, ha, hp⟩ := hone e e' (h.symm.reach he) (h.symm.reach he') hname hr hr'
  refine ⟨?_, ?_, ?_⟩
  · rw [h.choice_eq, h.choice_eq, hc]
  · rw [h.accepts_eq, h.accepts_eq, ha]
  · exact (h.children_perm e).symm.trans (hp.trans (h.children_perm e'))

/-- Reordering keeps that the edges agree. Kind: L -/
theorem agree (h : Reordered w w' root root') {allowDevDeps : Bool} {name : CString}
    (hagree : Agree w (rootDependencies allowDevDeps root) name) :
    Agree w' (rootDependencies allowDevDeps root') name := by
  intro e e' he he' hn hn' hr hr'
  obtain ⟨hc, ha, hp⟩ := hagree e e' (h.symm.reach he) (h.symm.reach he') hn hn' hr hr'
  refine ⟨?_, ?_, ?_⟩
  · rw [h.choice_eq, h.choice_eq, hc]
  · rw [h.accepts_eq, h.accepts_eq, ha]
  · exact (h.children_perm e).symm.trans (hp.trans (h.children_perm e'))

/-- Reordering keeps the edges that are surely followed. Kind: L -/
theorem sure (h : Reordered w w' root root') {allowDevDeps : Bool} {e : PackageDependency}
    (he : Sure w (rootDependencies allowDevDeps root) e) :
    Sure w' (rootDependencies allowDevDeps root') e := by
  induction he with
  | start he => exact .start ((h.root_perm allowDevDeps).mem_iff.mp he)
  | child _ ha hd ih => exact ih.child (h.agree ha) ((h.children_perm _).mem_iff.mp hd)

/-- Reordering keeps a clash. Kind: L -/
theorem clash (h : Reordered w w' root root') {allowDevDeps : Bool} {name : CString}
    (hclash : Clash w (rootDependencies allowDevDeps root) name) :
    Clash w' (rootDependencies allowDevDeps root') name where
  offered e he hn v hv := by
    rw [offered, h.tags] at hv
    obtain ⟨e', he', hrest⟩ := hclash.offered e (h.symm.reach he) hn v hv
    exact ⟨e', h.reach he', hrest⟩
  chosen e he hn v hv := by
    rw [h.choice_eq] at hv
    obtain ⟨e', he', hrest⟩ := hclash.chosen e (h.symm.reach he) hn v hv
    exact ⟨e', h.sure he', hrest⟩

end Reordered

/-! ## The whole resolution -/

section Resolution

variable {w w' : World} {root root' : PackageMetadata} {allowDevDeps : Bool}

/-- The context a resolution starts in. -/
def startContext (allowDevDeps : Bool) : Context := { initResolverContext with allowDevDeps }

theorem sound_start (w : World) (es : List PackageDependency) (allowDevDeps : Bool) :
    Sound w es (startContext allowDevDeps) := by
  constructor <;> simp [startContext, initResolverContext, Context.table, Context.edges]

/-- A visited edge has a choice, and it is the version recorded for its package. Kind: L -/
theorem Sound.recorded {es : List PackageDependency} {ctx : Context} (h : Sound w es ctx)
    (hone : OneChoice w es) {e : PackageDependency} (he : e ∈ ctx.edges) :
    ∃ r, isDependencyResolved ctx e.name = some r ∧ choice w e = some r.version := by
  obtain ⟨r, hr⟩ := isDependencyResolved_mem (h.named e he)
  obtain ⟨hreach, hread⟩ := h.reached e he
  exact ⟨r, hr, (h.found hone hreach hread hr).1⟩

/-- **A resolution that succeeds is a walk from the root.** Kind: P -/
theorem resolution_walk (hone : OneChoice w (rootDependencies allowDevDeps root)) {fuel : ℕ}
    {ctx : Context}
    (h : resolveDependencies w fuel (startContext allowDevDeps) root = some (true, ctx)) :
    Sound w (rootDependencies allowDevDeps root) ctx ∧ ∃ f,
      ctx.resolved.map ResolvedDependency.name = f.map PackageDependency.name ∧
      FirstVisit.Walk (children w) PackageDependency.name [] (rootDependencies allowDevDeps root)
        ctx.edges f := by
  unfold resolveDependencies at h
  split at h
  swap
  · next hno => exact absurd h (hno _)
  next ctx₁ hrun =>
  simp only [Option.some.injEq, Prod.mk.injEq] at h
  obtain ⟨-, rfl⟩ := h
  obtain ⟨hs, v, f, hf, hw⟩ := run_walk hone fuel _ _ _ _ (sound_start w _ allowDevDeps)
    (fun e he => .start he) hrun
  have hv : ctx₁.edges = v := by
    simpa [startContext, initResolverContext, Context.edges] using hf.edges
  refine ⟨hs, f, by simpa [startContext, initResolverContext] using hf.names, ?_⟩
  rw [hv]
  exact hw

/-- A sound context with one choice has edges that agree. Kind: L -/
theorem Sound.coherent {es : List PackageDependency} {ctx : Context} (h : Sound w es ctx)
    (hone : OneChoice w es) : Coherent (children w) PackageDependency.name ctx.edges :=
  fun e he e' he' hname => (hone e e' (h.reached e he).1 (h.reached e' he').1 hname
    (h.reached e he).2 (h.reached e' he').2).2.2

theorem Compatible.symm {e e' : PackageDependency} (h : Compatible w e e') : Compatible w e' e :=
  fun hname => (h hname.symm).symm

/-- A resolution that succeeds does so when everything is listed in another order. Kind: L -/
theorem resolution_reordered (h : Reordered w w' root root')
    (hone : OneChoice w (rootDependencies allowDevDeps root)) {fuel : ℕ} {ctx : Context}
    (hrun : resolveDependencies w fuel (startContext allowDevDeps) root = some (true, ctx)) :
    ∃ fuel' ctx', resolveDependencies w' fuel' (startContext allowDevDeps) root' =
      some (true, ctx') := by
  obtain ⟨hs, f, -, hw⟩ := resolution_walk hone hrun
  have hall : ∀ e, Reach (children w') (rootDependencies allowDevDeps root') e → e ∈ ctx.edges :=
    fun e he => hw.complete (hs.coherent hone) (h.symm.reach he)
  obtain ⟨v', f', hw'⟩ : ∃ v' f', FirstVisit.Walk (children w') PackageDependency.name []
      (rootDependencies allowDevDeps root') v' f' :=
    FirstVisit.Walk.exists (ctx.edges.map PackageDependency.name).toFinset
      (p := fun e => Reach (children w') (rootDependencies allowDevDeps root') e)
      (fun e he => List.mem_toFinset.mpr (List.mem_map_of_mem (hall e he)))
      (fun e he => children_in_reach he) _ _ _ (fun e he => .start he) (Nat.lt_succ_self _)
  obtain ⟨hperm, -⟩ := hw.order_free hw' (h.root_perm allowDevDeps) h.children_perm
    (hs.coherent hone)
  have hcomp : v'.Pairwise (Compatible w') := by
    refine (hperm.pairwise_iff Compatible.symm).mp hs.compatible |>.imp ?_
    intro a b hab hname
    rw [h.accepts_eq, h.accepts_eq]
    exact hab hname
  obtain ⟨k, ctx', -, hf, hrun'⟩ := walk_run (h.oneChoice hone) hw' (startContext allowDevDeps) rfl
    (sound_start w' _ allowDevDeps) (by simpa [startContext, initResolverContext, Context.edges])
    (fun e he => ⟨hw'.in_reach e he, by
      obtain ⟨r, -, hr⟩ := hs.recorded hone (hperm.mem_iff.mpr he)
      rw [h.choice_eq, hr]
      rfl⟩)
  refine ⟨k, ctx', ?_⟩
  have hno : ctx'.conflicts.isEmpty = true := by rw [hf.conflicts]; rfl
  unfold resolveDependencies
  rw [show (startContext allowDevDeps).allowDevDeps = allowDevDeps from rfl, hrun' k le_rfl]
  simp only [hno]

/-- Two resolutions that succeed have recorded the same versions. Kind: L -/
theorem resolution_versions (h : Reordered w w' root root')
    (hone : OneChoice w (rootDependencies allowDevDeps root)) {fuel fuel' : ℕ}
    {ctx ctx' : Context}
    (hrun : resolveDependencies w fuel (startContext allowDevDeps) root = some (true, ctx))
    (hrun' : resolveDependencies w' fuel' (startContext allowDevDeps) root' = some (true, ctx'))
    (name : CString) : (isDependencyResolved ctx name).map ResolvedDependency.version =
      (isDependencyResolved ctx' name).map ResolvedDependency.version := by
  obtain ⟨hs, f, hf, hw⟩ := resolution_walk hone hrun
  obtain ⟨hs', f', hf', hw'⟩ := resolution_walk (h.oneChoice hone) hrun'
  obtain ⟨hperm, hnames⟩ := hw.order_free hw' (h.root_perm allowDevDeps) h.children_perm
    (hs.coherent hone)
  by_cases hmem : name ∈ f.map PackageDependency.name
  · obtain ⟨e, he, rfl⟩ := List.mem_map.mp hmem
    obtain ⟨r, hr, hv⟩ := hs.recorded hone (hw.first_subset he)
    obtain ⟨r', hr', hv'⟩ := hs'.recorded (h.oneChoice hone) (hperm.mem_iff.mp (hw.first_subset he))
    rw [h.choice_eq] at hv'
    rw [hr, hr', Option.map_some, Option.map_some, ← hv, ← hv']
  · have absent : ∀ {c : Context}, name ∉ c.resolved.map ResolvedDependency.name →
        isDependencyResolved c name = none := by
      intro c hc
      cases hr : isDependencyResolved c name with
      | none => rfl
      | some r =>
          obtain ⟨hr, hn⟩ := isDependencyResolved_some hr
          exact absurd (List.mem_map.mpr ⟨r, hr, hn⟩) hc
    rw [absent (hf ▸ hmem), absent (hf' ▸ fun hm => hmem (hnames.mem_iff.mpr hm))]

/-! ## Packages that no version satisfies -/

/-- An edge in reach is one that no run leaves out, or the edges to a package before it do not
agree. Kind: L -/
theorem sure_or {es : List PackageDependency} {e : PackageDependency}
    (h : Reach (children w) es e) : Sure w es e ∨ ∃ e₀, Sure w es e₀ ∧ ¬ Agree w es e₀.name := by
  induction h with
  | start he => exact .inl (.start he)
  | @child e d _ hd ih =>
      obtain he | hother := ih
      · by_cases ha : Agree w es e.name
        · exact .inl (he.child ha hd)
        · exact .inr ⟨e, he, ha⟩
      · exact .inr hother

/-- What is surely followed is reached. Kind: L -/
theorem Sure.reach {es : List PackageDependency} {e : PackageDependency} (h : Sure w es e) :
    Reach (children w) es e := by
  induction h with
  | start he => exact .start he
  | child _ _ hd ih => exact ih.child hd

/-- A walk whose edges can be read visits every edge that no run leaves out. Kind: L -/
theorem Sure.visited {es v f : List PackageDependency} {e : PackageDependency} (h : Sure w es e)
    (hw : FirstVisit.Walk (children w) PackageDependency.name [] es v f)
    (hread : ∀ e ∈ v, readable e = true) : e ∈ v := by
  induction h with
  | start he => exact hw.start_subset he
  | @child e d he ha hd ih =>
      obtain hm | ⟨e', he', hname⟩ := hw.reached e ih
      · exact absurd hm List.not_mem_nil
      have hv' := hw.first_subset he'
      have hd' : d ∈ children w e' := (ha e e' he.reach (hw.in_reach e' hv') rfl hname (hread e ih)
        (hread e' hv')).2.2.mem_iff.mp hd
      exact hw.visited_perm.mem_iff.mpr
        (List.mem_append_right _ (List.mem_flatMap.mpr ⟨e', he', hd'⟩))

/-- **A resolution with a clash that no run leaves out does not succeed.** Kind: L -/
theorem Clash.fails {e₀ : PackageDependency}
    (h : Clash w (rootDependencies allowDevDeps root) e₀.name)
    (he₀ : Sure w (rootDependencies allowDevDeps root) e₀) (fuel : ℕ) (ctx : Context) :
    resolveDependencies w fuel (startContext allowDevDeps) root ≠ some (true, ctx) := by
  intro hrun
  unfold resolveDependencies at hrun
  split at hrun
  swap
  · next hno => exact absurd hrun (hno _)
  next ctx₁ hrun' =>
  obtain ⟨v, f, hf, hw, hall⟩ := run_checked w fuel _ _ _ _ hrun'
  have hwalk : FirstVisit.Walk (children w) PackageDependency.name []
      (rootDependencies allowDevDeps root) v f := hw
  have htable : ctx₁.table = f.map (entry w) := by
    simpa [startContext, initResolverContext, Context.table] using hf.table
  have hread : ∀ e ∈ v, readable e = true := fun e he => (hall e he).1
  -- the first edge to the package has recorded its choice
  obtain hm | ⟨e, he, hname⟩ := hwalk.reached e₀ (he₀.visited hwalk hread)
  · exact absurd hm List.not_mem_nil
  have hnodup : (f.map PackageDependency.name).Nodup := by simpa using hwalk.nodup List.nodup_nil
  have hrecorded : ∀ version, (e.name, some version) ∈ ctx₁.table → choice w e = some version := by
    intro version hmem
    rw [htable] at hmem
    obtain ⟨e', he', hent⟩ := List.mem_map.mp hmem
    simp only [entry, Prod.mk.injEq] at hent
    rw [← List.inj_on_of_nodup_map hnodup he' he hent.1]
    exact hent.2
  -- an edge that refuses it has been checked
  have hin := hwalk.in_reach e (hwalk.first_subset he)
  have hsome : ∃ version, choice w e = some version := by
    have hmem : (e.name, choice w e) ∈ ctx₁.table := by
      rw [htable]
      exact List.mem_map_of_mem he
    obtain ⟨r, -, hr⟩ := List.mem_map.mp hmem
    exact ⟨r.version, (Prod.mk.inj hr).2.symm⟩
  obtain ⟨version, hversion⟩ := hsome
  obtain ⟨e', hsure, hname', hne, hmeets⟩ := h.chosen e hin hname version hversion
  obtain ⟨-, hfirst | ⟨version', hmem, hmeets'⟩⟩ := hall e' (hsure.visited hwalk hread)
  · exact hne (List.inj_on_of_nodup_map hnodup hfirst he (hname'.trans hname.symm))
  · rw [hname', ← hname] at hmem
    have hsame := (hrecorded version' hmem).symm.trans hversion
    rw [Option.some.inj hsame, hmeets] at hmeets'
    cases hmeets'

/-- Where the edges to every package agree or clash, they all agree or no resolution succeeds.
Kind: L -/
theorem Settled.cases (h : Settled w (rootDependencies allowDevDeps root)) :
    OneChoice w (rootDependencies allowDevDeps root) ∨
      ∃ e, Sure w (rootDependencies allowDevDeps root) e ∧
        Clash w (rootDependencies allowDevDeps root) e.name := by
  by_cases hall : ∀ e, Reach (children w) (rootDependencies allowDevDeps root) e →
      Agree w (rootDependencies allowDevDeps root) e.name
  · exact .inl (oneChoice_of_agree hall)
  · simp only [not_forall] at hall
    obtain ⟨e, he, hnot⟩ := hall
    obtain hsure | ⟨e₀, hsure, hnot₀⟩ := sure_or he
    · exact .inr ⟨e, hsure, (h e he).resolve_left hnot⟩
    · exact .inr ⟨e₀, hsure, (h e₀ hsure.reach).resolve_left hnot₀⟩

/-! ## Conflicts -/

/-- **The invariant of every run**, whatever comes of it: the table is made of choices, and a
conflict is about a package with an edge that its own choice does not satisfy, if its edges
agree. -/
structure Placed (w : World) (es : List PackageDependency) (ctx : Context) : Prop where
  chosen : ∀ k ∈ ctx.table, ∃ e, Reach (children w) es e ∧ readable e = true ∧ entry w e = k
  conflicts : ∀ c ∈ ctx.conflicts, ∃ e, Reach (children w) es e ∧ readable e = true ∧
    e.name = c.packageName ∧
      (Agree w es c.packageName → ∃ v, choice w e = some v ∧ meets e v = false)

/-- Noting a conflict makes up no other package. Kind: L -/
theorem addConflict_mem {name : CString} {c : VersionConstraint} {by_ : CString}
    {k : VersionConflict} : ∀ {cs : List VersionConflict}, k ∈ addConflict name c by_ cs →
      k.packageName = name ∨ ∃ k' ∈ cs, k'.packageName = k.packageName
  | [], h => by
      simp only [addConflict, List.mem_singleton] at h
      exact Or.inl (h ▸ rfl)
  | k₀ :: cs, h => by
      simp only [addConflict] at h
      split at h
      · next hname =>
        rcases List.mem_cons.mp h with rfl | h
        · exact Or.inl hname
        · exact Or.inr ⟨k, List.mem_cons_of_mem _ h, rfl⟩
      · rcases List.mem_cons.mp h with rfl | h
        · exact Or.inr ⟨k, List.mem_cons_self, rfl⟩
        · rcases addConflict_mem h with hk | ⟨k', hk', hn⟩
          · exact Or.inl hk
          · exact Or.inr ⟨k', List.mem_cons_of_mem _ hk', hn⟩

/-- One edge keeps the invariant of every run. Kind: L -/
theorem Placed.edge {es : List PackageDependency} {transitive : Context → CString → CString → Walk}
    {ctx : Context} {dep : PackageDependency} {by_ : CString} {c : VersionConstraint}
    (hctx : Placed w es ctx)
    (hreach : Reach (children w) es dep) (hc : parseVersionConstraint dep.version = some c)
    (ht : ∀ ctx path ok ctx', present dep.path = some path → Placed w es ctx →
      transitive ctx path dep.name = some (ok, ctx') → Placed w es ctx')
    {ok : Bool} {ctx' : Context} (h : resolveEdge w transitive ctx dep by_ c = some (ok, ctx')) :
    Placed w es ctx' := by
  have hread : readable dep = true := readable_iff.mpr ⟨c, hc⟩
  have hvisit : ∀ v, Placed w es (ctx.visit v) := fun v => ⟨hctx.chosen, hctx.conflicts⟩
  rw [resolveEdge_eq] at h
  split at h
  · next existing hex =>
    split at h
    · simp only [Option.some.injEq, Prod.mk.injEq] at h
      exact h.2 ▸ hvisit _
    · next hsat =>
      simp only [Option.some.injEq, Prod.mk.injEq] at h
      rw [← h.2]
      refine ⟨hctx.chosen, fun k hk => ?_⟩
      rcases addConflict_mem hk with hname | ⟨k', hk', hname⟩
      · refine ⟨dep, hreach, hread, hname.symm, fun hagree => ⟨existing.version, ?_, ?_⟩⟩
        swap
        · rw [meets_eq hc]
          simpa using hsat
        -- what is recorded for the package is the choice of this edge too
        obtain ⟨hmem, hn⟩ := isDependencyResolved_some hex
        obtain ⟨e, he, hre, hent⟩ := hctx.chosen _ (List.mem_map_of_mem hmem)
        simp only [entry, Prod.mk.injEq] at hent
        exact (hagree e dep he hreach (hent.1.trans (hn.trans hname.symm)) hname.symm hre hread).1 ▸
          hent.2
      · obtain ⟨e, he⟩ := hctx.conflicts k' hk'
        exact ⟨e, hname ▸ he⟩
  · split at h
    · simp only [Option.some.injEq, Prod.mk.injEq] at h
      exact h.2 ▸ hvisit _
    next r hr =>
    have hpush : Placed w es ((ctx.visit ⟨dep, c, true⟩).push r) := by
      refine ⟨fun k hk => ?_, hctx.conflicts⟩
      simp only [Context.table, Context.push_resolved, Context.visit_resolved, List.map_append,
        List.map_cons, List.map_nil, List.mem_append, List.mem_singleton] at hk
      rcases hk with hk | rfl
      · exact hctx.chosen k hk
      · refine ⟨dep, hreach, hread, ?_⟩
        rw [entry, choice_eq hc, hr, firstRecord_name hr, Option.map_some]
    split at h
    · next path hpath => exact ht _ _ _ _ hpath hpush h
    · simp only [Option.some.injEq, Prod.mk.injEq] at h
      exact h.2 ▸ hpush

/-- A list of edges keeps the invariant of every run. Kind: L -/
theorem Placed.each {es : List PackageDependency}
    {resolve : Context → PackageDependency → VersionConstraint → Walk}
    (hr : ∀ ctx dep c ok ctx', Reach (children w) es dep →
      parseVersionConstraint dep.version = some c → Placed w es ctx →
      resolve ctx dep c = some (ok, ctx') → Placed w es ctx')
    {todo : List PackageDependency} (htodo : ∀ e ∈ todo, Reach (children w) es e) {ctx : Context}
    (hctx : Placed w es ctx) {ok : Bool} {ctx' : Context}
    (h : resolveEach resolve ctx todo = some (ok, ctx')) : Placed w es ctx' := by
  induction todo generalizing ctx with
  | nil =>
      simp only [resolveEach, Option.some.injEq, Prod.mk.injEq] at h
      exact h.2 ▸ hctx
  | cons dep todo ih =>
      obtain ⟨hdep, htodo⟩ := List.forall_mem_cons.mp htodo
      simp only [resolveEach] at h
      split at h
      · simp only [Option.some.injEq, Prod.mk.injEq] at h
        exact h.2 ▸ hctx
      next c hc =>
      split at h
      · next ctx₁ hd => exact ih htodo (hr _ _ _ _ _ hdep hc hctx hd) h
      · exact hr _ _ _ _ _ hdep hc hctx h

/-- **What is recorded and reported lies on edges that are reached.** Kind: L -/
theorem resolveDependency_placed {es : List PackageDependency} (fuel : ℕ) {ctx : Context}
    {dep : PackageDependency} {by_ : CString} {c : VersionConstraint}
    (hreach : Reach (children w) es dep) (hc : parseVersionConstraint dep.version = some c)
    (hctx : Placed w es ctx) {ok : Bool} {ctx' : Context}
    (h : resolveDependency w fuel ctx dep by_ c = some (ok, ctx')) : Placed w es ctx' := by
  induction fuel generalizing ctx dep by_ c ok ctx' with
  | zero => exact hctx.edge hreach hc (fun _ _ _ _ _ _ h => by cases h) h
  | succ fuel ih =>
      refine hctx.edge hreach hc (fun ctx path ok ctx' hpath hctx h => ?_) h
      rw [resolveTransitiveDependencies_eq] at h
      have hchildren : children w dep = (w.loadCxyfile path).getD [] := by
        simp only [children, hc, hpath]
      rw [← hchildren] at h
      exact Placed.each (fun _ _ _ _ _ hr hc hp hd => ih hr hc hp hd)
        (children_in_reach hreach) hctx h

/-- A conflict is about a package none of whose versions satisfies all edges to it. Kind: L -/
theorem resolution_conflict (hsettled : Settled w (rootDependencies allowDevDeps root)) {fuel : ℕ}
    {ok : Bool} {ctx : Context}
    (h : resolveDependencies w fuel (startContext allowDevDeps) root = some (ok, ctx))
    {k : VersionConflict} (hk : k ∈ ctx.conflicts) {e : PackageDependency}
    (he : Reach (children w) (rootDependencies allowDevDeps root) e)
      (hname : e.name = k.packageName)
    {v : SemanticVersion} (hv : v ∈ offered w e) :
    ∃ e', Reach (children w) (rootDependencies allowDevDeps root) e' ∧
      e'.name = k.packageName ∧ meets e' v = false := by
  have hstart : Placed w (rootDependencies allowDevDeps root) (startContext allowDevDeps) := by
    constructor <;> simp [startContext, initResolverContext, Context.table]
  have hplaced : Placed w (rootDependencies allowDevDeps root) ctx := by
    have hroot : ∀ {ok ctx}, resolveEach
        (fun ctx dep c => resolveDependency w fuel ctx dep root.name c) (startContext allowDevDeps)
        (rootDependencies allowDevDeps root) = some (ok, ctx) →
        Placed w (rootDependencies allowDevDeps root) ctx := fun h =>
      Placed.each (fun _ _ _ _ _ hr hc hp hd => resolveDependency_placed fuel hr hc hp hd)
        (fun e he => .start he) hstart h
    unfold resolveDependencies at h
    split at h
    · next ctx₁ hrun =>
      simp only [Option.some.injEq, Prod.mk.injEq] at h
      exact h.2 ▸ hroot hrun
    · exact hroot h
  obtain ⟨e', he', hread', hname', hconflict⟩ := hplaced.conflicts k hk
  obtain hagree | hclash := hsettled e he
  swap
  · rw [← hname]
    exact hclash.offered e he rfl v hv
  rw [hname] at hagree
  obtain ⟨v', hv', hmeets⟩ := hconflict hagree
  by_cases hread : readable e = true
  · obtain ⟨hchoice, haccepts, -⟩ := hagree e e' he he' hname hname' hread hread'
    rw [accepts_eq hv', hmeets] at haccepts
    rw [hv'] at hchoice
    rw [offered_of_not_accepts hchoice haccepts, List.mem_singleton] at hv
    exact ⟨e, he, hname, by rw [hv, ← accepts_eq hchoice, haccepts]⟩
  · have hnone : parseVersionConstraint e.version = none := by simpa [readable] using hread
    exact ⟨e, he, hname, by rw [meets, hnone, Option.any_none]⟩

end Resolution

/-- **Order independence.** When edges to one package agree or clash, and everything is listed in
another order: the resolution succeeds in one order if and only if it does in the other, the
versions recorded are the same, and a conflict is reported only for a package none of whose versions
satisfies all edges to it. Kind: P -/
theorem resolveDependencies_order {w w' : World} {root root' : PackageMetadata}
    {allowDevDeps : Bool} (h : Reordered w w' root root')
    (hsettled : Settled w (rootDependencies allowDevDeps root)) :
    ((∃ fuel ctx, resolveDependencies w fuel (startContext allowDevDeps) root = some (true, ctx)) ↔
      ∃ fuel ctx, resolveDependencies w' fuel (startContext allowDevDeps) root' =
        some (true, ctx)) ∧
    (∀ fuel ctx fuel' ctx',
      resolveDependencies w fuel (startContext allowDevDeps) root = some (true, ctx) →
      resolveDependencies w' fuel' (startContext allowDevDeps) root' = some (true, ctx') →
      ∀ name, (isDependencyResolved ctx name).map ResolvedDependency.version =
        (isDependencyResolved ctx' name).map ResolvedDependency.version) ∧
    (∀ fuel ok ctx,
      resolveDependencies w fuel (startContext allowDevDeps) root = some (ok, ctx) →
      ∀ k ∈ ctx.conflicts, ∀ e, Reach (children w) (rootDependencies allowDevDeps root) e →
        e.name = k.packageName → ∀ v ∈ offered w e,
        ∃ e', Reach (children w) (rootDependencies allowDevDeps root) e' ∧
          e'.name = k.packageName ∧ meets e' v = false) := by
  rw [← and_assoc]
  refine ⟨?_, fun fuel ok ctx hrun k hk e he hname v hv =>
    resolution_conflict hsettled hrun hk he hname hv⟩
  obtain hone | ⟨e, hsure, hclash⟩ := hsettled.cases
  · refine ⟨⟨?_, ?_⟩, ?_⟩
    · rintro ⟨fuel, ctx, hrun⟩
      exact resolution_reordered h hone hrun
    · rintro ⟨fuel, ctx, hrun⟩
      exact resolution_reordered h.symm (h.oneChoice hone) hrun
    · intro fuel ctx fuel' ctx' hrun hrun'
      exact resolution_versions h hone hrun hrun'
  · have hfails := hclash.fails hsure
    have hfails' := (h.clash hclash).fails (h.sure hsure)
    refine ⟨⟨?_, ?_⟩, ?_⟩
    · rintro ⟨fuel, ctx, hrun⟩
      exact absurd hrun (hfails fuel ctx)
    · rintro ⟨fuel, ctx, hrun⟩
      exact absurd hrun (hfails' fuel ctx)
    · intro fuel ctx fuel' ctx' hrun _
      exact absurd hrun (hfails fuel ctx)

/-- Two dependencies on the repository of the sample. -/
def sampleRoot (first second : String) : PackageMetadata :=
  ⟨['m'], [sampleDependency first, sampleDependency second], []⟩

theorem sampleWorld_reach {es : List PackageDependency} {e : PackageDependency}
    (h : Reach (children sampleWorld) es e) : e ∈ es := by
  induction h with
  | start he => exact he
  | @child e d _ hd _ =>
      have hnone : children sampleWorld e = [] := by
        unfold children
        split <;> rfl
      rw [hnone] at hd
      exact absurd hd List.not_mem_nil

theorem resolveDependencies_order_sample :
    ((∃ fuel ctx, resolveDependencies sampleWorld fuel (startContext true)
        (sampleRoot "^1.2.0" "1.9.0") = some (true, ctx)) ↔
      ∃ fuel ctx, resolveDependencies sampleWorld fuel (startContext true)
        (sampleRoot "1.9.0" "^1.2.0") = some (true, ctx)) := by
  refine (@resolveDependencies_order sampleWorld sampleWorld (sampleRoot "^1.2.0" "1.9.0")
    (sampleRoot "1.9.0" "^1.2.0") true ⟨rfl, fun _ =>
      List.Perm.refl _, List.Perm.swap _ _ _, List.Perm.refl _⟩
    ?_).1
  refine fun _ _ => .inl ?_
  intro e e' he he' _ _ _ _
  have hall : ∀ d ∈ rootDependencies true (sampleRoot "^1.2.0" "1.9.0"),
      choice sampleWorld d = some ⟨1, 9, 0, none, none⟩ ∧ accepts sampleWorld d = true ∧
        children sampleWorld d = [] := by decide +kernel
  obtain ⟨h₁, h₂, h₃⟩ := hall e (sampleWorld_reach he)
  obtain ⟨h₁', h₂', h₃'⟩ := hall e' (sampleWorld_reach he')
  rw [h₁, h₁', h₂, h₂', h₃, h₃']
  exact ⟨rfl, rfl, List.Perm.refl _⟩

/-- **The first edge decides**: `^1.2.0` before `1.2.0` chooses 1.9.0 and reports a conflict,
in the other order the resolution succeeds with 1.2.0, which satisfies both. Kind: P -/
theorem resolveDependencies_order_matters :
    (∃ ctx, resolveDependencies sampleWorld 0 (startContext true) (sampleRoot "^1.2.0" "1.2.0") =
        some (false, ctx) ∧ ctx.conflicts ≠ []) ∧
      (∃ ctx, resolveDependencies sampleWorld 0 (startContext true)
        (sampleRoot "1.2.0" "^1.2.0") = some (true, ctx)) ∧
      (∀ dep ∈ (sampleRoot "^1.2.0" "1.2.0").dependencies,
        (⟨1, 2, 0, none, none⟩ : SemanticVersion) ∈ offered sampleWorld dep ∧
          meets dep ⟨1, 2, 0, none, none⟩ = true) := by
  refine ⟨exists_of_run (by decide +kernel), ?_, by decide +kernel⟩
  have hex : ∃ ctx, resolveDependencies sampleWorld 0 (startContext true)
      (sampleRoot "1.2.0" "^1.2.0") = some (true, ctx) ∧ True :=
    exists_of_run (by decide +kernel)
  obtain ⟨ctx, hrun, -⟩ := hex
  exact ⟨ctx, hrun⟩

end CxyCompiler.Package
