import Mathlib.Algebra.Order.Ring.Nat
import CxyCompiler.Lib.DepthFirst

/-!
# The graph of types

Before the code of a program is generated, its types are put into a graph. A node has an edge to
each type that its definition mentions, and the definitions are written in the order in which a
depth-first search leaves the nodes.

* `TypeTable`: the types in memory, which refer to each other by address.
* `addTypeGraphNode`, `addTypeGraphNodeToModule`: the graph is built.
* `visitGraphNode`, `visitTypeGraph`: a pass over the graph.

A hash table of the source is the list of what was put into it, and `listing` stands for the order
in which it lists that, which depends on addresses. The other functions of the type table that are
called here are fields of `TypeTable`. A callback of a visitor that is `NULL` is one that does
nothing.

Source: `frontend/typegraph.c`, `frontend/typegraph.h`.
-/

namespace CxyCompiler.Frontend.TypeOrder

open CxyCompiler.Lib.DepthFirst

/-! ## Types -/

/-- What `nodeIs` asks of the declaration of a member. -/
inductive MemberDecl
  | fieldDecl
  | funcDecl
  | other
  deriving DecidableEq

/-- Source: `types.h` `NamedTypeMember`. -/
structure Member (τ : Type) where
  type : τ
  decl : MemberDecl

/-- The variants of a type, as far as the graph reads them; an exception has the type recorded in
its declaration. Source: `types.h` `Type`. -/
inductive Body (ι : Type)
  | array (elementType : ι)
  | tuple (members : List ι)
  | union (members : List ι)
  | struct (members : List (Member ι))
  | func (retType : ι) (params : List ι)
  | «class» (base : Option ι) (interfaces : List ι) (members : List (Member ι))
  | untaggedUnion (members : List ι)
  | module (members : List (Member (Option ι)))
  | wrapped (target : ι)
  | alias (aliased : ι)
  | pointer (pointed : ι)
  | reference (referred : ι)
  | optional (target : ι)
  | result (target : ι)
  | exception (decl : ι)
  | enum
  | this (that : Option ι)
  | info (target : ι)
  | other

/-- The types in memory, by address. Source: `ttable.c`, `types.c`. -/
structure TypeTable (ι : Type) where
  body : ι → Body ι
  stripAll : ι → ι
  isPrimitiveType : ι → Bool
  hasTypeDecl : ι → Bool

/-- The tags of a type that an edge leads to. Source: `typegraph.c` `addNodeEdge`. -/
def Body.takesEdge {ι : Type} : Body ι → Bool
  | .this _ | .info _ | .other => false
  | _ => true

def Body.isModule {ι : Type} : Body ι → Bool
  | .module _ => true
  | _ => false

/-! ## The graph -/

/-- The nodes in the order they were added, and the edges and marks of a node.
Source: `typegraph.h` `TypeGraph`, `typegraph.c` `GraphNode`. -/
structure TypeGraph (ι : Type) where
  module : ι
  nodes : List ι
  edges : ι → List ι
  visited : ι → BitVec 32

/-- What a branch of `addTypeGraphNode` does with a type: it is added, and it may get an edge
before. -/
inductive Step (ι : Type)
  | depend (type : ι)
  | only (type : ι)

def Step.type {ι : Type} : Step ι → ι
  | .depend type => type
  | .only type => type

section

variable {ι : Type} (T : TypeTable ι)

/-- Source: `typegraph.c` `addSyntheticFunctionTypes`. -/
def addSyntheticFunctionTypes (funcType : ι) : List (Step ι) :=
  match T.body funcType with
  | .func retType params =>
      (((retType :: params).map T.stripAll).filter fun type =>
        !T.isPrimitiveType type && !T.hasTypeDecl type).map .only
  | _ => []

def memberSteps (ntm : Member ι) : List (Step ι) :=
  if ntm.decl = .funcDecl then addSyntheticFunctionTypes T ntm.type else [.depend ntm.type]

/-- The branches of the switch. Source: `typegraph.c` `addTypeGraphNode`. -/
def steps (type : ι) : List (Step ι) :=
  match T.body type with
  | .array elementType => [.depend elementType]
  | .tuple members => members.map .depend
  | .union members => members.map .depend
  | .struct members => members.flatMap (memberSteps T)
  | .func retType params => .depend retType :: params.map .depend
  | .class base interfaces members =>
      base.toList.map .depend ++ interfaces.map .depend ++ members.flatMap (memberSteps T)
  | .untaggedUnion members => members.map .depend
  | .module members => members.flatMap fun ntm =>
      match ntm.type with
      | none => []
      | some type => memberSteps T ⟨type, ntm.decl⟩
  | .wrapped target => [.depend target]
  | .alias aliased => [.depend aliased]
  | .optional target => [.depend target]
  | .result target => [.depend target]
  | .exception decl => [.depend decl]
  | .pointer _ | .reference _ | .enum | .this _ | .info _ | .other => []

variable [DecidableEq ι]

/-- Source: `typegraph.c` `getOrCreateNode`, `newGraphNode`. -/
def TypeGraph.addNode (g : TypeGraph ι) (type : ι) : TypeGraph ι :=
  { g with
    nodes := g.nodes ++ [type]
    edges := Function.update g.edges type []
    visited := Function.update g.visited type 0 }

/-- Source: `typegraph.c` `addNodeEdge`. -/
def addNodeEdge (g : TypeGraph ι) (node type : ι) : TypeGraph ι :=
  if node = type || !(T.body type).takesEdge || type ∈ g.edges node then g
  else { g with edges := Function.update g.edges node (g.edges node ++ [type]) }

def addEdge (g : TypeGraph ι) (node : ι) : Step ι → TypeGraph ι
  | .depend type => addNodeEdge T g node type
  | .only _ => g

/-- Source: `typegraph.c` `addTypeGraphNode`. -/
def addTypeGraphNode : ℕ → TypeGraph ι → ι → Option (TypeGraph ι)
  | 0, _, _ => none
  | rounds + 1, g, type =>
      if type ∈ g.nodes then some g
      else (steps T type).foldlM (fun g step =>
        addTypeGraphNode rounds (addEdge T g type step) step.type)
        (g.addNode type)

/-- Source: `typegraph.c` `addTypeGraphNodeToModule`. -/
def addTypeGraphNodeToModule (rounds : ℕ) (g : TypeGraph ι)
    (type : Option ι) : Option (TypeGraph ι) :=
  match type with
  | none => some g
  | some type =>
      if (T.body type).isModule then some g
      else if g.module ∉ g.nodes ∨ type ∈ g.nodes then some g
      else addTypeGraphNode T rounds (addNodeEdge T g g.module type) type

/-- Source: `typegraph.c` `newTypeGraph`. -/
def newTypeGraph (rounds : ℕ) (module : ι) : Option (TypeGraph ι) :=
  addTypeGraphNode T rounds ⟨module, [], fun _ => [], fun _ => 0⟩ module

/-- The two ways to add a type. -/
inductive Added (ι : Type)
  | node (type : ι)
  | toModule (type : Option ι)

def addType (rounds : ℕ) (g : TypeGraph ι) : Added ι → Option (TypeGraph ι)
  | .node type => addTypeGraphNode T rounds g type
  | .toModule type => addTypeGraphNodeToModule T rounds g type

/-- The graph of a module with some types added. -/
def buildGraph (rounds : ℕ) (module : ι) (added : List (Added ι)) : Option (TypeGraph ι) :=
  (newTypeGraph T rounds module).bind fun g => added.foldlM (addType T rounds) g

/-! ## A pass -/

/-- A shift in 64 bits, of which a mark keeps 32. Source: `utils.h` `BIT`. -/
def bit (pass : ℕ) : BitVec 32 := BitVec.ofNat 32 (2 ^ pass)

def TypeGraph.isVisited (g : TypeGraph ι) (pass : ℕ) (type : ι) : Bool :=
  g.visited type &&& bit pass != 0

def TypeGraph.mark (g : TypeGraph ι) (pass : ℕ) (type : ι) : TypeGraph ι :=
  { g with visited := Function.update g.visited type (g.visited type ||| bit pass) }

/-- The trace has the calls of `previsit` and those of `visit`.
Source: `typegraph.c` `visitGraphNode`. -/
def visitGraphNode (listing : List ι → List ι) (pass : ℕ) :
    ℕ → TypeGraph ι × Trace ι → ι → Option (TypeGraph ι × Trace ι)
  | 0, _, _ => none
  | rounds + 1, (g, calls), type =>
      if type ∉ g.nodes ∨ g.isVisited pass type then some (g, calls)
      else ((listing (g.edges type)).foldlM (visitGraphNode listing pass rounds)
        (g.mark pass type, ⟨calls.entered ++ [type], calls.left⟩)).map fun (g, calls) =>
          (g, ⟨calls.entered, calls.left ++ [type]⟩)

/-- Source: `typegraph.c` `visitTypeGraph`. -/
def visitTypeGraph (listing : List ι → List ι) (rounds : ℕ) (g : TypeGraph ι) (visitAll : Bool)
    (pass : ℕ) :
    Option (TypeGraph ι × Trace ι) :=
  if visitAll then (listing g.nodes).foldlM (visitGraphNode listing pass rounds) (g, ⟨[], []⟩)
  else (visitGraphNode listing pass rounds (g, ⟨[], []⟩) g.module).bind fun state =>
    (listing g.nodes).foldlM (visitGraphNode listing pass rounds) state

end

/-! ## What a graph is built from -/

section

variable {ι : Type} (T : TypeTable ι)

/-- A type is added when another one is. -/
def Uses (a b : ι) : Prop := b ∈ (steps T a).map Step.type

def Depends (a b : ι) : Prop := a ≠ b ∧ (T.body b).takesEdge = true ∧ .depend b ∈ steps T a

/-- The type that a call adds, if it may add one. -/
def start : Added ι → Option ι
  | .node type => some type
  | .toModule none => none
  | .toModule (some type) => if (T.body type).isModule then none else some type

/-- A module and some added types need a type. -/
def Used (module : ι) (added : List (Added ι)) (type : ι) : Prop :=
  ∃ t ∈ module :: added.filterMap (start T), Leads (Uses T) t type

/-- The module gets an edge to a type when that is added to it and no earlier type needs it. -/
def Attached (module : ι) (added : List (Added ι)) (type : ι) : Prop :=
  (T.body type).isModule = false ∧ (T.body type).takesEdge = true ∧
    ∃ pre post, added = pre ++ .toModule (some type) :: post ∧ ¬ Used T module pre type

/-- The edges of the graph. -/
def Linked (module : ι) (added : List (Added ι)) (a b : ι) : Prop :=
  Used T module added a ∧ Depends T a b ∨ a = module ∧ Attached T module added b

variable {T}

theorem used_module {module : ι} {added : List (Added ι)} : Used T module added module :=
  ⟨module, List.mem_cons_self, .refl⟩

theorem Used.uses {module : ι} {added : List (Added ι)} {a b : ι} (h : Used T module added a)
    (hab : Uses T a b) : Used T module added b := by
  obtain ⟨t, ht, hlead⟩ := h
  exact ⟨t, ht, hlead.tail hab⟩

theorem used_snoc {module : ι} {added : List (Added ι)} {x : Added ι} {a : ι} :
    Used T module (added ++ [x]) a ↔ Used T module added a ∨ ∃ t ∈ start T x,
      Leads (Uses T) t a := by
  have hstarts : module :: (added ++ [x]).filterMap (start T) =
      (module :: added.filterMap (start T)) ++ (start T x).toList := by
    rw [List.filterMap_append, List.cons_append]
    cases hx : start T x with
    | none => rw [List.filterMap_cons_none hx]; rfl
    | some t => rw [List.filterMap_cons_some hx]; rfl
  unfold Used
  rw [hstarts]
  constructor
  · rintro ⟨t, ht, hlead⟩
    obtain ht | ht := List.mem_append.mp ht
    · exact .inl ⟨t, ht, hlead⟩
    · exact .inr ⟨t, mem_toList.mp ht, hlead⟩
  · rintro (⟨t, ht, hlead⟩ | ⟨t, ht, hlead⟩)
    · exact ⟨t, List.mem_append_left _ ht, hlead⟩
    · exact ⟨t, List.mem_append_right _ (mem_toList.mpr ht), hlead⟩

theorem attached_snoc {module : ι} {added : List (Added ι)} {x : Added ι} {b : ι} :
    Attached T module (added ++ [x]) b ↔ Attached T module added b ∨
      (x = .toModule (some b) ∧ (T.body b).isModule = false ∧ (T.body b).takesEdge = true ∧
        ¬ Used T module added b) := by
  constructor
  · rintro ⟨hmodule, hedge, pre, post, hsplit, hnot⟩
    obtain rfl | ⟨post, z, rfl⟩ := List.eq_nil_or_concat post
    · obtain ⟨rfl, hx⟩ := List.append_inj' hsplit rfl
      exact .inr ⟨(List.cons.inj hx).1, hmodule, hedge, hnot⟩
    · rw [List.concat_eq_append, ← List.cons_append, ← List.append_assoc] at hsplit
      exact .inl ⟨hmodule, hedge, pre, post, (List.append_inj' hsplit rfl).1, hnot⟩
  · rintro (⟨hmodule, hedge, pre, post, rfl, hnot⟩ | ⟨rfl, hmodule, hedge, hnot⟩)
    · exact ⟨hmodule, hedge, pre, post ++ [x], by rw [List.append_assoc, List.cons_append], hnot⟩
    · exact ⟨hmodule, hedge, added, [], rfl, hnot⟩

end

/-! ## The graph that is built -/

section

variable {ι : Type} [DecidableEq ι] {T : TypeTable ι}

/-- A graph with other edges of a node. -/
def TypeGraph.withEdges (g : TypeGraph ι) (node : ι) (edges : List ι) : TypeGraph ι :=
  { g with edges := Function.update g.edges node edges }

theorem withEdges_edges {g : TypeGraph ι} {n : ι} {es : List ι} :
    (g.withEdges n es).edges = Function.update g.edges n es := rfl

theorem withEdges_self {g : TypeGraph ι} {n : ι} : g.withEdges n (g.edges n) = g := by
  rw [TypeGraph.withEdges, Function.update_eq_self]

theorem withEdges_twice {g : TypeGraph ι} {n : ι} {es es' : List ι} :
    (g.withEdges n es).withEdges n es' = g.withEdges n es' := by
  rw [TypeGraph.withEdges, withEdges_edges, Function.update_idem]
  rfl

theorem addNode_edges {g : TypeGraph ι} {n : ι} : (g.addNode n).edges n = [] :=
  Function.update_self ..

/-- What adding some types does to a graph: nodes that are in it keep their edges, and a new node
has its own. -/
structure Grown (T : TypeTable ι) (g g' : TypeGraph ι) (types : List ι) : Prop where
  module : g'.module = g.module
  visited : (∀ a, g.visited a = 0) → ∀ a, g'.visited a = 0
  starts : ∀ t ∈ types, t ∈ g'.nodes
  mono : ∀ a ∈ g.nodes, a ∈ g'.nodes
  old : ∀ a, a ∈ g.nodes ∨ a ∉ g'.nodes → g'.edges a = g.edges a
  new : ∀ a ∈ g'.nodes, a ∉ g.nodes → (∃ t ∈ types, Leads (Uses T) t a) ∧
    (∀ b, b ∈ g'.edges a ↔ Depends T a b) ∧ ∀ b, Uses T a b → b ∈ g'.nodes

omit [DecidableEq ι] in
theorem Grown.refl {g : TypeGraph ι} {types : List ι}
    (h : ∀ t ∈ types, t ∈ g.nodes) : Grown T g g types where
  module := rfl
  visited := id
  starts := h
  mono := fun _ ha => ha
  old := fun _ _ => rfl
  new := fun _ ha hnot => absurd ha hnot

theorem Grown.trans {g g₁ g₂ : TypeGraph ι} {types others : List ι} (h₁ : Grown T g g₁ types)
    (h₂ : Grown T g₁ g₂ others) : Grown T g g₂ (types ++ others) where
  module := h₂.module.trans h₁.module
  visited := fun h => h₂.visited (h₁.visited h)
  starts := fun t ht => (List.mem_append.mp ht).elim (fun ht => h₂.mono t (h₁.starts t ht))
    (h₂.starts t)
  mono := fun a ha => h₂.mono a (h₁.mono a ha)
  old := fun a ha => by
    have h : a ∈ g₁.nodes ∨ a ∉ g₂.nodes := ha.imp_left (h₁.mono a)
    rw [h₂.old a h, h₁.old a (ha.imp_right fun hnot hold => hnot (h₂.mono a hold))]
  new := fun a ha hnot => by
    by_cases hmid : a ∈ g₁.nodes
    · obtain ⟨⟨t, ht, hlead⟩, hedges, hclosed⟩ := h₁.new a hmid hnot
      refine ⟨⟨t, List.mem_append_left _ ht, hlead⟩, fun b => ?_, fun b hb =>
        h₂.mono b (hclosed b hb)⟩
      rw [h₂.old a (.inl hmid)]
      exact hedges b
    · obtain ⟨⟨t, ht, hlead⟩, hedges, hclosed⟩ := h₂.new a ha hmid
      exact ⟨⟨t, List.mem_append_right _ ht, hlead⟩, hedges, hclosed⟩

/-- Other edges of a node that was in the graph change nothing. Kind: L -/
theorem Grown.withEdges {g g' : TypeGraph ι} {types : List ι} {n : ι} (h : Grown T g g' types)
    (hn : n ∈ g.nodes) (es : List ι) : Grown T (g.withEdges n es) (g'.withEdges n es) types where
  module := h.module
  visited := h.visited
  starts := h.starts
  mono := h.mono
  old := fun a ha => by
    rw [withEdges_edges, withEdges_edges]
    by_cases han : a = n
    · rw [han, Function.update_self, Function.update_self]
    · rw [Function.update_of_ne han, Function.update_of_ne han, h.old a ha]
  new := fun a ha hnot => by
    have han : a ≠ n := fun han => hnot (han ▸ hn)
    rw [withEdges_edges, Function.update_of_ne han]
    exact h.new a ha hnot

/-! ## What adding a type does -/

theorem addNodeEdge_eq {g : TypeGraph ι} {n t : ι} : ∃ es, addNodeEdge T g n t = g.withEdges n es ∧
    ∀ b, b ∈ es ↔ b ∈ g.edges n ∨ (n ≠ b ∧ (T.body b).takesEdge = true ∧ t = b) := by
  unfold addNodeEdge
  by_cases hskip : n = t || !(T.body t).takesEdge || t ∈ g.edges n
  · refine ⟨g.edges n, by rw [if_pos hskip, withEdges_self], fun b => (or_iff_left_of_imp ?_).symm⟩
    rintro ⟨hne, hedge, rfl⟩
    simpa [hne, hedge] using hskip
  · refine ⟨g.edges n ++ [t], if_neg hskip, fun b => ?_⟩
    rw [List.mem_append, List.mem_singleton]
    refine or_congr_right ⟨?_, fun h => h.2.2.symm⟩
    rintro rfl
    simp only [Bool.or_eq_true, decide_eq_true_eq, Bool.not_eq_true', not_or,
      Bool.not_eq_false] at hskip
    exact ⟨hskip.1.1, hskip.1.2, rfl⟩

theorem addEdge_eq {g : TypeGraph ι} {n : ι}
    {step : Step ι} : ∃ es, addEdge T g n step = g.withEdges n es ∧
    ∀ b, b ∈ es ↔ b ∈ g.edges n ∨ (n ≠ b ∧ (T.body b).takesEdge = true ∧ step = .depend b) := by
  cases step with
  | depend t =>
      obtain ⟨es, hes, hmem⟩ := addNodeEdge_eq (T := T) (g := g) (n := n) (t := t)
      refine ⟨es, hes, fun b => (hmem b).trans ?_⟩
      rw [Step.depend.injEq]
  | only t => exact ⟨g.edges n, withEdges_self.symm, fun b => by simp⟩

/-- Several branches in turn, for a node of the graph. Kind: L -/
theorem steps_grown {rounds : ℕ} {n : ι}
    (hcall : ∀ g t g', addTypeGraphNode T rounds g t = some g' → Grown T g g' [t]) :
    ∀ {todo : List (Step ι)} {g g' : TypeGraph ι}, n ∈ g.nodes →
      todo.foldlM (fun g step =>
        addTypeGraphNode T rounds (addEdge T g n step) step.type) g = some g' →
      ∃ es, (∀ b, b ∈ es ↔ b ∈ g.edges n ∨
        (n ≠ b ∧ (T.body b).takesEdge = true ∧ .depend b ∈ todo)) ∧
        Grown T (g.withEdges n es) g' (todo.map Step.type)
  | [], g, g', _, h => by
      obtain rfl := Option.some.inj h
      refine ⟨g.edges n, fun b => by simp, ?_⟩
      rw [withEdges_self]
      exact .refl (List.forall_mem_nil _)
  | step :: todo, g, g', hn, h => by
      rw [List.foldlM_cons] at h
      obtain ⟨mid, hmid, hrest⟩ := Option.bind_eq_some_iff.mp h
      obtain ⟨es₁, hes₁, hmem₁⟩ := @addEdge_eq ι _ T g n step
      rw [hes₁] at hmid
      have hfirst := hcall _ _ _ hmid
      have hedges : mid.edges n = es₁ := by
        rw [hfirst.old n (.inl hn), withEdges_edges, Function.update_self]
      obtain ⟨es, hmem, hgrown⟩ := steps_grown hcall (hfirst.mono n hn) hrest
      refine ⟨es, fun b => ?_, ?_⟩
      · rw [hmem, hedges, hmem₁, or_assoc, ← and_or_left, ← and_or_left, List.mem_cons,
          @eq_comm _ (Step.depend b) step]
      · have hfirst' := hfirst.withEdges hn es
        rw [withEdges_twice] at hfirst'
        exact hfirst'.trans hgrown

/-- **What `addTypeGraphNode` does.** Kind: P -/
theorem addTypeGraphNode_grown : ∀ (rounds : ℕ) {g g' : TypeGraph ι} {type : ι},
    addTypeGraphNode T rounds g type = some g' → Grown T g g' [type]
  | 0, _, _, _, h => by cases h
  | rounds + 1, g, g', type, h => by
      rw [addTypeGraphNode] at h
      by_cases hold : type ∈ g.nodes
      · rw [if_pos hold] at h
        obtain rfl := Option.some.inj h
        exact .refl (List.forall_mem_singleton.mpr hold)
      · rw [if_neg hold] at h
        have htype : type ∈ (g.addNode type).nodes :=
          List.mem_append_right _ (List.mem_singleton_self type)
        obtain ⟨es, hmem, hgrown⟩ :=
          steps_grown (fun _ _ _ => addTypeGraphNode_grown rounds) htype h
        have hne : ∀ a, a ∈ g.nodes ∨ a ∉ g'.nodes → a ≠ type := by
          rintro a ha rfl
          exact ha.elim hold fun hnot => hnot (hgrown.mono a htype)
        refine ⟨hgrown.module, fun hzero => hgrown.visited fun a => ?_,
          List.forall_mem_singleton.mpr (hgrown.mono type htype),
          fun a ha => hgrown.mono a (List.mem_append_left _ ha), fun a ha => ?_, fun a ha hnot =>
            ?_⟩
        · by_cases hat : a = type
          · rw [hat]
            exact Function.update_self ..
          · exact (Function.update_of_ne hat ..).trans (hzero a)
        · rw [hgrown.old a (ha.imp_left fun ha => List.mem_append_left _ ha), withEdges_edges,
            Function.update_of_ne (hne a ha)]
          exact Function.update_of_ne (hne a ha) ..
        · by_cases hat : a = type
          · subst hat
            refine ⟨⟨a, List.mem_singleton_self a, .refl⟩, fun b => ?_, fun b hb =>
              hgrown.starts b hb⟩
            rw [hgrown.old a (.inl htype), withEdges_edges, Function.update_self, hmem]
            refine or_iff_right fun hb => List.not_mem_nil (a := b) ?_
            rwa [addNode_edges] at hb
          · have hfresh : a ∉ (g.addNode type).nodes := fun h =>
              (List.mem_append.mp h).elim hnot fun h => hat (List.mem_singleton.mp h)
            obtain ⟨⟨t, ht, hlead⟩, hrest⟩ := hgrown.new a ha hfresh
            exact ⟨⟨type, List.mem_singleton_self type, .head ht hlead⟩, hrest⟩

/-! ## Building ends -/

/-- The calls of `addTypeGraphNode` are a search. Kind: L -/
theorem addTypeGraphNode_visit : ∀ (rounds : ℕ) {g : TypeGraph ι} {type : ι} {s s' : Trace ι},
    s.entered = g.nodes → visit (fun a => (steps T a).map Step.type) rounds s type = some s' →
      ∃ g', addTypeGraphNode T rounds g type = some g' ∧ s'.entered = g'.nodes
  | 0, _, _, _, _, _, h => by cases h
  | rounds + 1, g, type, s, s', hs, h => by
      have hsteps : ∀ (todo : List (Step ι)) {g : TypeGraph ι}
        {s s' : Trace ι}, s.entered = g.nodes →
          visits (fun a => (steps T a).map Step.type) rounds s (todo.map Step.type) = some s' →
          ∃ g', todo.foldlM (fun g step =>
            addTypeGraphNode T rounds (addEdge T g type step) step.type) g =
            some g' ∧ s'.entered = g'.nodes := by
        intro todo
        induction todo with
        | nil =>
            intro g s s' hs h
            obtain rfl := Option.some.inj h
            exact ⟨g, rfl, hs⟩
        | cons step todo ih =>
            intro g s s' hs h
            obtain ⟨mid, hmid, hrest⟩ := visits_cons h
            obtain ⟨es, hes, -⟩ := @addEdge_eq ι _ T g type step
            have hs' : s.entered = (addEdge T g type step).nodes := by rw [hes]; exact hs
            obtain ⟨g₁, hg₁, hnodes⟩ := addTypeGraphNode_visit rounds hs' hmid
            obtain ⟨g', hg', hnodes'⟩ := ih hnodes hrest
            refine ⟨g', ?_, hnodes'⟩
            rw [List.foldlM_cons, hg₁]
            exact hg'
      rw [addTypeGraphNode]
      by_cases hold : type ∈ g.nodes
      · obtain rfl := visit_seen (hs ▸ hold) h
        exact ⟨g, if_pos hold, hs⟩
      · obtain ⟨k, mid, hk, hmid, rfl⟩ := visit_new (hs ▸ hold) h
        obtain rfl := Nat.succ.inj hk
        rw [if_neg hold]
        obtain ⟨g', hg', hnodes⟩ :=
          hsteps (steps T type) (g := g.addNode type) (congrArg (· ++ [type]) hs) hmid
        exact ⟨g', hg', hnodes⟩

/-- **As many rounds as there are types are enough to add one.** Kind: P -/
theorem addTypeGraphNode_total [Fintype ι] {rounds : ℕ} (hrounds : Fintype.card ι < rounds)
    {g : TypeGraph ι}
    (hnodup : g.nodes.Nodup) (type : ι) :
    ∃ g', addTypeGraphNode T rounds g type = some g' ∧ g'.nodes.Nodup := by
  obtain ⟨s', hs', hnodup', -⟩ := @visit_total ι _ (fun a => (steps T a).map Step.type) _ rounds
    ⟨g.nodes, []⟩ type hnodup (by omega)
  obtain ⟨g', hg', hnodes⟩ := addTypeGraphNode_visit rounds rfl hs'
  exact ⟨g', hg', hnodes ▸ hnodup'⟩

/-! ## The graph of a module -/

/-- The graph of a module to which some types were added. -/
structure Built (T : TypeTable ι) (module : ι) (added : List (Added ι))
    (g : TypeGraph ι) : Prop where
  root : g.module = module
  visited : ∀ a, g.visited a = 0
  nodup : g.nodes.Nodup
  nodes : ∀ a, a ∈ g.nodes ↔ Used T module added a
  edges : ∀ a b, b ∈ g.edges a ↔ Linked T module added a b

/-- What a call does with a type: the module may get an edge to it, and it is added. Kind: L -/
theorem addType_grown [Fintype ι] {rounds : ℕ} (hrounds : Fintype.card ι < rounds) {g : TypeGraph ι}
    (hmodule : g.module ∈ g.nodes) (hnodup : g.nodes.Nodup) (x : Added ι) :
    ∃ es g', addType T rounds g x = some g' ∧ g'.nodes.Nodup ∧
      Grown T (g.withEdges g.module es) g' (start T x).toList ∧
      ∀ b, b ∈ es ↔ b ∈ g.edges g.module ∨ (x = .toModule (some b) ∧ (T.body b).isModule = false ∧
        (T.body b).takesEdge = true ∧ b ∉ g.nodes) := by
  have hstay : ∀ {ts : List ι}, (∀ t ∈ ts, t ∈ g.nodes) →
      Grown T (g.withEdges g.module (g.edges g.module)) g ts := by
    intro ts hts
    rw [withEdges_self]
    exact .refl hts
  cases x with
  | node t =>
      obtain ⟨g', hg', hnodup'⟩ := addTypeGraphNode_total hrounds hnodup t
      refine ⟨g.edges g.module, g', hg', hnodup', ?_, fun b => by simp⟩
      rw [withEdges_self]
      exact addTypeGraphNode_grown rounds hg'
  | toModule type =>
      cases type with
      | none => exact ⟨g.edges g.module, g, rfl, hnodup, hstay (List.forall_mem_nil _), fun b => by
          simp⟩
      | some t =>
          by_cases hkind : (T.body t).isModule = true
          · refine ⟨g.edges g.module, g, if_pos hkind, hnodup, ?_, fun b =>
              (or_iff_left_of_imp ?_).symm⟩
            · have hstart : start T (.toModule (some t)) = none := if_pos hkind
              rw [hstart]
              exact hstay (List.forall_mem_nil _)
            · rintro ⟨hb, hnot, -⟩
              obtain rfl := Option.some.inj (Added.toModule.inj hb)
              exact absurd hkind (ne_true_of_eq_false hnot)
          · have hstart : start T (.toModule (some t)) = some t := if_neg hkind
            rw [hstart]
            by_cases hold : t ∈ g.nodes
            · refine ⟨g.edges g.module, g, ?_, hnodup, hstay (List.forall_mem_singleton.mpr hold),
                fun b => (or_iff_left_of_imp ?_).symm⟩
              · exact (if_neg hkind).trans (if_pos (.inr hold))
              · rintro ⟨hb, -, -, hnot⟩
                obtain rfl := Option.some.inj (Added.toModule.inj hb)
                exact absurd hold hnot
            · obtain ⟨es, hes, hmem⟩ := addNodeEdge_eq (T := T) (g := g) (n := g.module) (t := t)
              obtain ⟨g', hg', hnodup'⟩ :=
                addTypeGraphNode_total (T := T) (g := g.withEdges g.module es)
                hrounds hnodup t
              refine ⟨es, g', ?_, hnodup', addTypeGraphNode_grown rounds hg', fun b => ?_⟩
              · have hnone : ¬ (g.module ∉ g.nodes ∨ t ∈ g.nodes) :=
                  fun h => h.elim (· hmodule) hold
                refine (if_neg hkind).trans ((if_neg hnone).trans ?_)
                rw [hes]
                exact hg'
              · rw [hmem]
                refine or_congr_right ⟨?_, ?_⟩
                · rintro ⟨-, hedge, rfl⟩
                  exact ⟨rfl, Bool.not_eq_true _ ▸ hkind, hedge, hold⟩
                · rintro ⟨hb, -, hedge, hnot⟩
                  obtain rfl := Option.some.inj (Added.toModule.inj hb)
                  exact ⟨fun hm => hold (hm ▸ hmodule), hedge, rfl⟩

theorem Built.mem_grown {module : ι} {added : List (Added ι)} {g g' : TypeGraph ι} {x : Added ι}
    {es : List ι}
    (h : Built T module added g) (hgrown : Grown T (g.withEdges g.module es) g' (start T x).toList)
      (a : ι) :
    a ∈ g'.nodes ↔ Used T module (added ++ [x]) a := by
  rw [used_snoc]
  constructor
  · intro ha
    by_cases hold : a ∈ g.nodes
    · exact .inl ((h.nodes a).mp hold)
    · obtain ⟨⟨t, ht, hlead⟩, -⟩ := hgrown.new a ha hold
      exact .inr ⟨t, mem_toList.mp ht, hlead⟩
  · rintro (hused | ⟨t, ht, hlead⟩)
    · exact hgrown.mono a ((h.nodes a).mpr hused)
    · induction hlead with
      | refl => exact hgrown.starts t (mem_toList.mpr ht)
      | @tail b c _ hbc ih =>
          by_cases hold : b ∈ g.nodes
          · exact hgrown.mono c ((h.nodes c).mpr (((h.nodes b).mp hold).uses hbc))
          · exact (hgrown.new b ih hold).2.2 c hbc

/-- **One more type that is added.** Kind: P -/
theorem Built.step [Fintype ι] {rounds : ℕ} (hrounds : Fintype.card ι < rounds) {module : ι}
    {added : List (Added ι)} {g : TypeGraph ι} (h : Built T module added g) (x : Added ι) :
    ∃ g', addType T rounds g x = some g' ∧ Built T module (added ++ [x]) g' := by
  have hmodule : g.module ∈ g.nodes := (h.nodes g.module).mpr (h.root ▸ used_module)
  obtain ⟨es, g', hg', hnodup', hgrown, hmem⟩ := addType_grown hrounds hmodule h.nodup x
  have hnodes := h.mem_grown hgrown
  refine ⟨g', hg', hgrown.module.trans h.root, hgrown.visited h.visited, hnodup', hnodes, fun a b =>
    ?_⟩
  unfold Linked
  rw [attached_snoc, ← hnodes]
  by_cases hroot : a = module
  · -- the module, which may have got an edge
    have ha : a = g.module := hroot.trans h.root.symm
    have hedges : g'.edges a = es := by
      rw [hgrown.old a (.inl (ha ▸ hmodule)), withEdges_edges, ha, Function.update_self]
    have hold : b ∈ g.edges g.module ↔ Depends T a b ∨ Attached T module added b := by
      rw [← ha, h.edges, Linked, ← h.nodes]
      simp only [hroot, true_and, (h.nodes module).mpr used_module]
    have hnew : module ∈ g'.nodes := hgrown.mono module (h.root ▸ hmodule)
    rw [hedges, hmem, hold, h.nodes, or_assoc]
    simp only [hnew, hroot, true_and]
  · have hold : ∀ a, a ≠ module → a ∈ g.nodes ∨ a ∉ g'.nodes → g'.edges a = g.edges a := by
      intro a ha hstay
      rw [hgrown.old a hstay, withEdges_edges, Function.update_of_ne (h.root ▸ ha)]
    simp only [hroot, false_and, or_false]
    by_cases hin : a ∈ g.nodes
    · rw [hold a hroot (.inl hin), h.edges, Linked, ← h.nodes]
      simp only [hroot, false_and, or_false, hin, hgrown.mono a hin]
    · by_cases hnew : a ∈ g'.nodes
      · rw [(hgrown.new a hnew hin).2.1]
        exact (and_iff_right hnew).symm
      · rw [hold a hroot (.inr hnew), h.edges, Linked, ← h.nodes]
        simp only [hroot, false_and, or_false, hin, hnew]

theorem newTypeGraph_built [Fintype ι] {rounds : ℕ} (hrounds : Fintype.card ι < rounds)
    (module : ι) :
    ∃ g, newTypeGraph T rounds module = some g ∧ Built T module [] g := by
  obtain ⟨g, hg, hnodup⟩ := addTypeGraphNode_total (T := T)
    (g := ⟨module, [], fun _ => [], fun _ => 0⟩) hrounds List.nodup_nil module
  have hgrown := addTypeGraphNode_grown rounds hg
  have hnodes : ∀ a, a ∈ g.nodes ↔ Used T module [] a := by
    refine fun a => ⟨fun ha => (hgrown.new a ha List.not_mem_nil).1, ?_⟩
    rintro ⟨t, ht, hlead⟩
    induction hlead with
    | refl => exact hgrown.starts t ht
    | @tail b c _ hbc ih => exact (hgrown.new b ih List.not_mem_nil).2.2 c hbc
  have hnone : ∀ b, ¬ Attached T module [] b := by
    rintro b ⟨-, -, pre, post, hsplit, -⟩
    exact absurd hsplit (by simp)
  refine ⟨g, hg, hgrown.module, hgrown.visited fun _ => rfl, hnodup, hnodes, fun a b => ?_⟩
  rw [Linked, ← hnodes]
  simp only [hnone, and_false, or_false]
  by_cases ha : a ∈ g.nodes
  · rw [(hgrown.new a ha List.not_mem_nil).2.1]
    exact (and_iff_right ha).symm
  · rw [hgrown.old a (.inr ha)]
    simp only [ha, false_and, List.not_mem_nil]

theorem addTypes_built [Fintype ι] {rounds : ℕ} (hrounds : Fintype.card ι < rounds) {module : ι} :
    ∀ (added done : List (Added ι)) {g : TypeGraph ι}, Built T module done g →
      ∃ g', added.foldlM (addType T rounds) g = some g' ∧ Built T module (done ++ added) g'
  | [], done, g, h => ⟨g, rfl, (List.append_nil done).symm ▸ h⟩
  | x :: added, done, g, h => by
      obtain ⟨mid, hmid, hbuilt⟩ := h.step hrounds x
      obtain ⟨g', hg', hbuilt'⟩ := addTypes_built hrounds added (done ++ [x]) hbuilt
      refine ⟨g', ?_, List.append_cons done x added ▸ hbuilt'⟩
      rw [List.foldlM_cons, hmid]
      exact hg'

/-- **Building the graph ends, and its nodes and edges are those of the types.** Kind: P -/
theorem buildGraph_built [Fintype ι] {rounds : ℕ} (hrounds : Fintype.card ι < rounds) (module : ι)
    (added : List (Added ι)) : ∃ g, buildGraph T rounds module added = some g ∧
      Built T module added g := by
  obtain ⟨g, hg, hbuilt⟩ := newTypeGraph_built hrounds module
  obtain ⟨g', hg', hbuilt'⟩ := addTypes_built hrounds added [] hbuilt
  exact ⟨g', Option.bind_eq_some_iff.mpr ⟨g, hg, hg'⟩, hbuilt'⟩

/-! ## What a pass does -/

theorem bit_getLsbD (pass i : ℕ) : (bit pass).getLsbD i =
    (decide (i < 32) && decide (pass = i)) := by
  rw [bit, BitVec.getLsbD_ofNat, Nat.testBit_two_pow]

/-- A mark is there when it was set, and the other marks stay. Kind: L -/
theorem or_bit {pass : ℕ} (hpass : pass < 32) (v : BitVec 32) (other : ℕ) :
    ((v ||| bit pass) &&& bit other != 0) = (decide (other = pass) || v &&& bit other != 0) := by
  by_cases hother : other = pass
  · subst hother
    rw [decide_eq_true rfl, Bool.true_or, bne_iff_ne]
    intro hzero
    have hbit := congrArg (·.getLsbD other) hzero
    simp only [BitVec.getLsbD_and, BitVec.getLsbD_or, bit_getLsbD,
      hpass, decide_true, Bool.and_true,
      Bool.or_true] at hbit
    exact absurd hbit (by simp)
  · have heq : (v ||| bit pass) &&& bit other = v &&& bit other := by
      refine BitVec.eq_of_getLsbD_eq fun i _ => ?_
      rw [BitVec.getLsbD_and, BitVec.getLsbD_or, BitVec.getLsbD_and, bit_getLsbD, bit_getLsbD]
      grind
    rw [heq, decide_eq_false hother, Bool.false_or]

/-- A graph in which a pass has marked some nodes. -/
def TypeGraph.marked (g : TypeGraph ι) (pass : ℕ) (done : List ι) : TypeGraph ι :=
  { g with visited := fun a => if a ∈ done then g.visited a ||| bit pass else g.visited a }

theorem marked_isVisited {g : TypeGraph ι} {pass : ℕ} (hpass : pass < 32) (done : List ι)
    (other : ℕ) (a : ι) :
    (g.marked pass done).isVisited other a =
      (decide (a ∈ done) && decide (other = pass) || g.isVisited other a) := by
  unfold TypeGraph.isVisited TypeGraph.marked
  by_cases ha : a ∈ done
  · simp only [ha, if_true, decide_true, Bool.true_and]
    exact or_bit hpass _ _
  · simp only [ha, if_false, decide_false, Bool.false_and, Bool.false_or]

theorem mark_marked {g : TypeGraph ι} {pass : ℕ} {done : List ι} {a : ι} (ha : a ∉ done) :
    (g.marked pass done).mark pass a = g.marked pass (done ++ [a]) := by
  unfold TypeGraph.mark TypeGraph.marked
  congr 1
  funext b
  by_cases hb : b = a
  · subst hb
    rw [Function.update_self, if_pos (List.mem_append_right _ (List.mem_singleton_self b))]
    simp only [ha, if_false]
  · rw [Function.update_of_ne hb]
    simp only [List.mem_append, List.mem_singleton, hb, or_false]

/-- A pass over a graph, none of whose nodes it has visited. -/
structure Ready (g : TypeGraph ι) (listing : List ι → List ι) (pass : ℕ) : Prop where
  small : pass < 32
  perm : ∀ l, (listing l).Perm l
  fresh : ∀ a, g.isVisited pass a = false
  closed : ∀ a ∈ g.nodes, ∀ b ∈ g.edges a, b ∈ g.nodes

/-- The state of a pass. -/
def TypeGraph.at (g : TypeGraph ι) (pass : ℕ) (s : Trace ι) : TypeGraph ι × Trace ι :=
  (g.marked pass s.entered, s)

section

variable {g : TypeGraph ι} {listing : List ι → List ι} {pass : ℕ}

theorem visitGraphNode_map {rounds : ℕ}
    (hvisit : ∀ s, ∀ type ∈ g.nodes, visitGraphNode listing pass rounds (g.at pass s) type =
      (visit (fun a => listing (g.edges a)) rounds s type).map (g.at pass)) :
    ∀ (types : List ι) (s : Trace ι), (∀ type ∈ types, type ∈ g.nodes) →
      types.foldlM (visitGraphNode listing pass rounds) (g.at pass s) =
        (visits (fun a => listing (g.edges a)) rounds s types).map (g.at pass)
  | [], s, _ => rfl
  | type :: types, s, htypes => by
      obtain ⟨htype, hrest⟩ := List.forall_mem_cons.mp htypes
      unfold visits
      rw [List.foldlM_cons, List.foldlM_cons, hvisit s type htype]
      cases visit (fun a => listing (g.edges a)) rounds s type with
      | none => rfl
      | some mid => exact visitGraphNode_map hvisit types mid hrest

/-- **A pass from a node is a depth-first search.** Kind: P -/
theorem visitGraphNode_eq (h : Ready g listing pass) : ∀ (rounds : ℕ)
    (s : Trace ι), ∀ type ∈ g.nodes,
    visitGraphNode listing pass rounds (g.at pass s) type =
      (visit (fun a => listing (g.edges a)) rounds s type).map (g.at pass)
  | 0, _, _, _ => rfl
  | rounds + 1, s, type, htype => by
      have hvisited : (g.marked pass s.entered).isVisited pass type = decide
        (type ∈ s.entered) := by
        rw [marked_isVisited h.small, h.fresh, decide_eq_true rfl, Bool.and_true, Bool.or_false]
      rw [TypeGraph.at, visitGraphNode, visit, hvisited]
      by_cases hold : type ∈ s.entered
      · rw [if_pos hold, if_pos (.inr (decide_eq_true hold))]
        rfl
      · have hskip : ¬ (type ∉ (g.marked pass s.entered).nodes ∨
          decide (type ∈ s.entered) = true) :=
          fun hskip => hskip.elim (· htype) fun hskip => hold (of_decide_eq_true hskip)
        rw [if_neg hold, if_neg hskip, mark_marked hold]
        have hedges : ∀ b ∈ listing (g.edges type), b ∈ g.nodes := fun b hb =>
          h.closed type htype b ((h.perm _).mem_iff.mp hb)
        have hfold := visitGraphNode_map (visitGraphNode_eq h rounds) _
          ⟨s.entered ++ [type], s.left⟩ hedges
        rw [TypeGraph.at] at hfold
        change Option.map _ (List.foldlM _ _ (listing (g.edges type))) = _
        rw [hfold]
        unfold visits
        rw [Option.map_map, Option.map_map]
        rfl

/-- **`visitTypeGraph` is a search from the module, if it starts there, and then from every node.**
Kind: P -/
theorem visitTypeGraph_eq (h : Ready g listing pass) (hmodule : g.module ∈ g.nodes) (rounds : ℕ)
    (visitAll : Bool) : visitTypeGraph listing rounds g visitAll pass =
      (tour (fun a => listing (g.edges a)) rounds
        ((if visitAll then none else some g.module).toList ++ listing g.nodes)).map
          (g.at pass) := by
  have hvisit := visitGraphNode_eq h rounds
  have hnodes : ∀ type ∈ listing g.nodes, type ∈ g.nodes := fun a ha => (h.perm _).mem_iff.mp ha
  cases visitAll with
  | true => exact visitGraphNode_map hvisit _ ⟨[], []⟩ hnodes
  | false =>
      exact visitGraphNode_map hvisit (g.module :: listing g.nodes) ⟨[], []⟩
        (List.forall_mem_cons.mpr ⟨hmodule, hnodes⟩)

end

end

/-! ## The order of the definitions -/

section

variable {ι : Type} {T : TypeTable ι}

/-- The types that a value has in it. -/
def Body.parts : Body ι → List ι
  | .array elementType => [elementType]
  | .tuple members => members
  | .struct members => (members.filter (·.decl = .fieldDecl)).map Member.type
  | .class _ _ members => (members.filter (·.decl = .fieldDecl)).map Member.type
  | _ => []

def Body.isClass : Body ι → Bool
  | .class .. => true
  | _ => false

/-- A type has another one in it by value. A value of a class is a pointer, and a type that takes no
edge, such as a primitive one, has no definition of its own. -/
def Contains (T : TypeTable ι) (a b : ι) : Prop :=
  b ∈ (T.body a).parts ∧ (T.body b).isClass = false ∧ (T.body b).takesEdge = true

def Acyclic (T : TypeTable ι) : Prop := ∀ a, ¬ Relation.TransGen (Contains T) a a

theorem Acyclic.ne (h : Acyclic T) {a b : ι} (hab : Contains T a b) : b ≠ a := by
  rintro rfl
  exact h b (.single hab)

theorem Built.closed {module : ι} {added : List (Added ι)} {g : TypeGraph ι}
    (h : Built T module added g) :
    ∀ a ∈ g.nodes, ∀ b ∈ g.edges a, b ∈ g.nodes := by
  intro a ha b hb
  obtain ⟨-, -, -, hstep⟩ | ⟨-, hmodule, -, pre, post, rfl, -⟩ := (h.edges a b).mp hb
  · exact (h.nodes b).mpr (((h.nodes a).mp ha).uses (List.mem_map.mpr ⟨_, hstep, rfl⟩))
  · have hstart : start T (.toModule (some b)) = some b := if_neg (ne_true_of_eq_false hmodule)
    refine (h.nodes b).mpr ⟨b, List.mem_cons_of_mem module ?_, .refl⟩
    exact List.mem_filterMap.mpr ⟨_, List.mem_append_right pre List.mem_cons_self, hstart⟩

theorem Built.source {module : ι} {added : List (Added ι)} {g : TypeGraph ι}
    (h : Built T module added g)
    (a b : ι) (hab : Linked T module added a b) : a ∈ g.nodes := by
  obtain ⟨ha, -⟩ | ⟨rfl, -⟩ := hab
  · exact (h.nodes a).mpr ha
  · exact (h.nodes a).mpr used_module

theorem Built.fresh {module : ι} {added : List (Added ι)} {g : TypeGraph ι}
    (h : Built T module added g)
    (pass : ℕ) (a : ι) : g.isVisited pass a = false := by
  unfold TypeGraph.isVisited
  rw [h.visited a]
  simp

end

section

variable {ι : Type} [DecidableEq ι] {T : TypeTable ι}

/-- Passes one after the other. -/
def runPasses (listing : List ι → List ι) (rounds : ℕ) (g : TypeGraph ι)
    (passes : List (Bool × ℕ)) :
    Option (TypeGraph ι) :=
  passes.foldlM (fun g p => (visitTypeGraph listing rounds g p.1 p.2).map Prod.fst) g

/-- The graph gets built with every added type in it, and each pass has a mark of its own, visits
every node once, and visits what a type contains before the type, for every order in which the hash
tables list their entries. -/
def Ordered [Fintype ι] (T : TypeTable ι) (module : ι) (added : List (Added ι))
    (visitAll : Bool) : Prop :=
  ∀ rounds, Fintype.card ι < rounds → ∃ g, buildGraph T rounds module added = some g ∧
    (∀ type, .node type ∈ added → type ∈ g.nodes) ∧
    ∀ listing : List ι → List ι, (∀ l, (listing l).Perm l) → ∀ (earlier : List (Bool × ℕ))
      (pass : ℕ),
      (earlier.map Prod.snd ++ [pass]).Nodup → (∀ p ∈ earlier.map Prod.snd ++ [pass], p < 32) →
      ∃ mid g' calls, runPasses listing rounds g earlier = some mid ∧
        visitTypeGraph listing rounds mid visitAll pass = some (g', calls) ∧
        calls.entered.Perm g.nodes ∧ calls.left.Perm g.nodes ∧
        (Acyclic T → ∀ a ∈ g.nodes, ∀ b, Contains T a b → Before b a calls.left)

/-- The marks of some passes, and the graph as it was. -/
structure Passed (g g' : TypeGraph ι) (passes : List ℕ) : Prop where
  module : g'.module = g.module
  nodes : g'.nodes = g.nodes
  edges : g'.edges = g.edges
  visited : ∀ pass, pass ∉ passes → ∀ a, g'.isVisited pass a = g.isVisited pass a

/-- The start of a search, if it does not start anywhere. -/
def first (visitAll : Bool) (module : ι) : Option ι := if visitAll then none else some module

theorem visitTypeGraph_tour [Fintype ι] {g : TypeGraph ι} {listing : List ι → List ι}
    {pass rounds : ℕ}
    (hrounds : Fintype.card ι < rounds) (h : Ready g listing pass) (hmodule : g.module ∈ g.nodes)
    (visitAll : Bool) : ∃ s, visitTypeGraph listing rounds g visitAll pass = some (g.at pass s) ∧
      tour (fun a => listing (g.edges a)) rounds
        ((first visitAll g.module).toList ++ listing g.nodes) = some s := by
  obtain ⟨s, hs⟩ := @tour_total ι _ (fun a => listing (g.edges a)) _ rounds hrounds
    ((first visitAll g.module).toList ++ listing g.nodes)
  refine ⟨s, ?_, hs⟩
  rw [visitTypeGraph_eq h hmodule rounds visitAll]
  unfold first at hs
  rw [hs]
  rfl

/-- Passes that have marks of their own end. Kind: L -/
theorem runPasses_total [Fintype ι] {listing : List ι → List ι} (hperm : ∀ l, (listing l).Perm l)
    {rounds : ℕ}
    (hrounds : Fintype.card ι < rounds) : ∀ (passes : List (Bool × ℕ)) {g : TypeGraph ι},
      g.module ∈ g.nodes → (∀ a ∈ g.nodes, ∀ b ∈ g.edges a, b ∈ g.nodes) →
        (passes.map Prod.snd).Nodup →
      (∀ p ∈ passes.map Prod.snd, p < 32 ∧ ∀ a, g.isVisited p a = false) →
      ∃ g', runPasses listing rounds g passes = some g' ∧ Passed g g' (passes.map Prod.snd)
  | [], g, _, _, _, _ => ⟨g, rfl, rfl, rfl, rfl, fun _ _ _ => rfl⟩
  | (visitAll, pass) :: passes, g, hmodule, hclosed, hnodup, hpasses => by
      obtain ⟨⟨hsmall, hfresh⟩, hrest⟩ := List.forall_mem_cons.mp hpasses
      obtain ⟨hnew, hnodup⟩ := List.nodup_cons.mp hnodup
      obtain ⟨s, hs, -⟩ := visitTypeGraph_tour hrounds ⟨hsmall, hperm, hfresh,
        hclosed⟩ hmodule visitAll
      have hother : ∀ p, p ≠ pass → ∀ a,
        (g.marked pass s.entered).isVisited p a = g.isVisited p a := by
        intro p hp a
        rw [marked_isVisited hsmall, decide_eq_false hp, Bool.and_false, Bool.false_or]
      have hrest' : ∀ p ∈ passes.map Prod.snd,
          p < 32 ∧ ∀ a, (g.marked pass s.entered).isVisited p a = false := by
        refine fun p hp => ⟨(hrest p hp).1, fun a => ?_⟩
        rw [hother p (fun hpp => hnew (hpp ▸ hp)) a]
        exact (hrest p hp).2 a
      obtain ⟨g', hg', hpassed⟩ :=
        runPasses_total hperm hrounds passes (g := g.marked pass s.entered)
        hmodule hclosed hnodup hrest'
      refine ⟨g', ?_, hpassed.module, hpassed.nodes, hpassed.edges, fun p hp a => ?_⟩
      · unfold runPasses
        rw [List.foldlM_cons, hs]
        exact hg'
      · obtain ⟨hp, hprest⟩ := not_or.mp fun h => hp (List.mem_cons.mpr h)
        rw [hpassed.visited p hprest, hother p hp]

omit [DecidableEq ι] in
/-- A type depends on each type that it contains. Kind: L -/
theorem Contains.depends {a b : ι} (h : Contains T a b) (hne : a ≠ b) : Depends T a b := by
  obtain ⟨hpart, -, hedge⟩ := h
  refine ⟨hne, hedge, ?_⟩
  have hfield : ∀ members : List (Member ι),
      b ∈ (members.filter (·.decl = .fieldDecl)).map Member.type → .depend b ∈ members.flatMap
        (memberSteps T) := by
    intro members hb
    obtain ⟨ntm, hntm, rfl⟩ := List.mem_map.mp hb
    obtain ⟨hmem, hdecl⟩ := List.mem_filter.mp hntm
    refine List.mem_flatMap.mpr ⟨ntm, hmem, ?_⟩
    have hfield : ntm.decl = .fieldDecl := of_decide_eq_true hdecl
    rw [memberSteps, if_neg (by rw [hfield]; decide)]
    exact List.mem_singleton_self _
  unfold steps
  cases hbody : T.body a <;> rw [hbody] at hpart
    <;> simp only [Body.parts, List.not_mem_nil] at hpart
  case array => exact List.mem_singleton.mpr (congrArg Step.depend (List.mem_singleton.mp hpart))
  case tuple => exact List.mem_map.mpr ⟨b, hpart, rfl⟩
  case struct => exact hfield _ hpart
  case «class» => exact List.mem_append_right _ (hfield _ hpart)

/-- The definitions are ordered if no way leads to a type before one that it contains. Kind: L -/
theorem ordered_of_notEarly [Fintype ι] {module : ι} {added : List (Added ι)} {visitAll : Bool}
    (h : Acyclic T → ∀ a b, Used T module added a → Contains T a b →
      ¬ Early (Linked T module added) (first visitAll module) b a) :
        Ordered T module added visitAll := by
  intro rounds hrounds
  obtain ⟨g, hg, hbuilt⟩ := buildGraph_built (T := T) hrounds module added
  refine ⟨g, hg, fun t ht => ?_, fun listing hperm earlier pass hnodup hsmall => ?_⟩
  · exact (hbuilt.nodes t).mpr
      ⟨t, List.mem_cons_of_mem module (List.mem_filterMap.mpr ⟨_, ht, rfl⟩), .refl⟩
  have hroot : g.module ∈ g.nodes := (hbuilt.nodes _).mpr (hbuilt.root ▸ used_module)
  obtain ⟨hdistinct, -, hapart⟩ := List.nodup_append.mp hnodup
  obtain ⟨mid, hmid, hpassed⟩ := runPasses_total hperm hrounds earlier hroot hbuilt.closed hdistinct
    fun p hp => ⟨hsmall p (List.mem_append_left _ hp), hbuilt.fresh p⟩
  have hlast : pass ∈ [pass] := List.mem_singleton_self pass
  have hready : Ready mid listing pass := by
    refine ⟨hsmall pass (List.mem_append_right _ hlast), hperm, fun a => ?_, ?_⟩
    · rw [hpassed.visited pass (fun hp => hapart pass hp pass hlast rfl)]
      exact hbuilt.fresh pass a
    · rw [hpassed.nodes, hpassed.edges]
      exact hbuilt.closed
  have hroot' : mid.module ∈ mid.nodes := by
    rw [hpassed.module, hpassed.nodes]
    exact hroot
  obtain ⟨s, hs, htour⟩ := visitTypeGraph_tour hrounds hready hroot' visitAll
  rw [hpassed.edges, hpassed.nodes, hpassed.module] at htour
  have hE : ∀ a b, Linked T module added a b ↔ b ∈ listing (g.edges a) :=
    fun a b => ((hperm _).mem_iff.trans (hbuilt.edges a b)).symm
  have hstarts : ∀ n, n ∈ (first visitAll g.module).toList ++ listing g.nodes ↔ n ∈ g.nodes := by
    intro n
    rw [List.mem_append, (hperm _).mem_iff]
    refine or_iff_right_of_imp fun hn => ?_
    cases visitAll with
    | true => exact absurd hn List.not_mem_nil
    | false => exact List.mem_singleton.mp hn ▸ hroot
  have honce := tour_once hE hbuilt.nodup (fun a ha b hb =>
    hbuilt.closed a ha b ((hbuilt.edges a b).mpr hb))
    hstarts htour
  refine ⟨mid, _, s, hmid, hs, honce.1, honce.2, fun hacyclic a ha b hab => ?_⟩
  rw [hbuilt.root] at htour
  exact (tour_iff (fun a b => (hbuilt.edges a b).symm) ha
    (hacyclic.ne hab) hbuilt.source hrounds).mpr
    (h hacyclic a b ((hbuilt.nodes a).mp ha) hab) listing hperm s htour

/-- The definitions are ordered wherever no type leads back to one that contains it. Kind: L -/
theorem ordered_of_apart [Fintype ι] {module : ι} {added : List (Added ι)} {visitAll : Bool}
    (hapart : ∀ a b, Used T module added a → Contains T a b → ¬ Leads (Linked T module added) b a) :
    Ordered T module added visitAll := by
  refine ordered_of_notEarly fun hacyclic a b ha hab => ?_
  exact not_early (.inl ⟨ha, hab.depends (hacyclic.ne hab).symm⟩) (hapart a b ha hab)

end

/-- A module with `struct A { c: C }`, `class C { b: B }` and `struct B { a: A }`, in this order. -/
def classBetween : TypeTable (Fin 4) where
  body type :=
    match type with
    | 0 => .module [⟨some 1, .other⟩, ⟨some 2, .other⟩, ⟨some 3, .other⟩]
    | 1 => .struct [⟨2, .fieldDecl⟩]
    | 2 => .class none [] [⟨3, .fieldDecl⟩]
    | 3 => .struct [⟨1, .fieldDecl⟩]
  stripAll := id
  isPrimitiveType _ := false
  hasTypeDecl _ := true

/-- How many types a value has in it, one inside the other. -/
def depth : Fin 4 → ℕ
  | 2 => 2
  | 3 => 1
  | _ => 0

theorem classBetween_acyclic : Acyclic classBetween := by
  intro a ha
  have hrank : ∀ a b, Contains classBetween a b → depth b < depth a := by
    unfold Contains
    decide
  have hlt : ∀ {b}, Relation.TransGen (Contains classBetween) a b → depth b < depth a := by
    intro b hb
    induction hb with
    | single hab => exact hrank _ _ hab
    | tail _ hbc ih => exact (hrank _ _ hbc).trans ih
  exact Nat.lt_irrefl _ (hlt ha)

end CxyCompiler.Frontend.TypeOrder
