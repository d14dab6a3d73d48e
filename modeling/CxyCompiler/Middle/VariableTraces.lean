import CxyCompiler.Core.Hmap
import Mathlib.Data.List.Nodup

/-!
# The states of the local variables

The memory pass keeps a trace of each local variable of the open blocks in a hash map. Before it
goes into a branch it takes an array of the traces, and puts the states of the array back
afterwards. The map lists the traces in the order of their slots, which depends on the addresses of
the declarations; `hash` stands for these.

* `captureVariableState`, `restoreVariableState`: the array.
* `Event`, `step`, `run`: what the pass does with the traces between two arrays.
* `Tracked`: **the invariant of a run**; the traces are numbered in the order of the declarations.
* `run_tracked`: the run lemma.
* **`capture_then_restore`**: the array has each trace at its number, and the states come back.

Source: `middle/mem/manage.c`, `core/array.c`.
-/

namespace CxyCompiler.Middle.VariableTraces

open CxyCompiler.Core.RobinHoodMap CxyCompiler.Lib.RobinHood CxyCompiler.Lib.Probing

/-! ## Arrays -/

/-- Memory that was not written is `none`. Source: `array.h` `DynArray`. -/
structure DynArray (α : Type) where
  capacity : ℕ
  size : ℕ
  elems : ℕ → Option α

/-- Source: `array.c` `newDynArrayWithSize`. -/
def newDynArrayWithSize {α : Type} (size : ℕ) : DynArray α := ⟨size, size, fun _ => none⟩

/-- Source: `array.c` `growDynArray`. -/
def growDynArray {α : Type} (array : DynArray α) (capacity : ℕ) : DynArray α :=
  let doubleCapacity := array.capacity * 2
  { array with capacity := if doubleCapacity > capacity then doubleCapacity else capacity }

/-- Source: `array.c` `pushOnDynArrayExplicit`. -/
def pushOnDynArray {α : Type} (array : DynArray α) (elem : α) : DynArray α :=
  let array := if array.size ≥ array.capacity then growDynArray array (array.size + 1) else array
  { array with size := array.size + 1, elems := Function.update array.elems array.size (some elem) }

/-- A write to the memory of the array, which it must not miss. -/
def DynArray.write {α : Type} (array : DynArray α) (i : ℕ) (elem : α) : Option (DynArray α) :=
  if i < array.capacity then some { array with elems := Function.update array.elems i (some elem) }
    else none

/-! ## Traces -/

/-- Source: `ast.h` `VariableState`. -/
inductive VariableState
  | vtsUninitialized
  | vtsAssigned
  | vtsNullified
  | vtsMaybeAssigned
  | vtsMoved
  | vtsDropped
  deriving DecidableEq

/-- Nodes of the tree are addresses; `node` is `variable` in the source. The number of variables
that are live at once bounds `idx`. Source: `manage.c` `VariableTrace`. -/
structure VariableTrace (ν : Type) where
  node : ν
  state : VariableState := .vtsUninitialized
  dropFlags : Option ν := none
  scope : Option ν := none
  lastDropScope : Option ν := none
  used : Bool := false
  destroyed : Bool := false
  idx : ℕ := 0

/-- `traces` is `variables` in the source. `blocks` has the open blocks with their locals, the
innermost first: `currentBlock` and `locals`, and what the calls of `visitBlockStmt` have saved of
them. Source: `manage.c` `MemContext`. -/
structure MemContext (ν : Type) where
  traces : Hmap (VariableTrace ν)
  blocks : List (ν × List ν)

section

variable {ν : Type} [DecidableEq ν] (hash : ν → ℕ)

/-- Source: `manage.c` `compareVariableTrace`. -/
def compareVariableTrace (lhs rhs : VariableTrace ν) : Bool := lhs.node = rhs.node

/-- Source: `manage.c` `hashVariableTrace`. -/
def hashVariableTrace (vt : VariableTrace ν) : ℕ := hash vt.node

/-- Source: `manage.c` `findVariableTrace`. -/
def findVariableTrace (ctx : MemContext ν) (node : ν) : Option (Option (VariableTrace ν)) :=
  hmapGet (hashVariableTrace hash) compareVariableTrace ctx.traces { node := node }

/-- A write through the pointer that `findVariableTrace` returns. -/
def writeVariableTrace (ctx : MemContext ν) (node : ν) (f : VariableTrace ν → VariableTrace ν) :
    Option (MemContext ν) := do
  match ← hmapFind (hashVariableTrace hash) compareVariableTrace ctx.traces { node := node } with
  | none => none
  | some i =>
      let data := ctx.traces.data
      some { ctx with
        traces := { ctx.traces with data := set data i ((data i).map fun e =>
          ⟨e.home, f e.elem⟩) } }

/-- `hmapPut` calls itself for the elements of a table that grows, and no deeper.
Source: `manage.c` `insertVariableTrace`. -/
def insertVariableTrace (ctx : MemContext ν) (node : ν)
    (state : VariableState) : Option (MemContext ν) := do
  let vt : VariableTrace ν :=
    { node := node, scope := ctx.blocks.head?.map Prod.fst, state := state
      idx := ctx.traces.nitems }
  let (traces, _, added) ← hmapPut (hashVariableTrace hash) compareVariableTrace 2 ctx.traces vt
  if added then some { ctx with traces := traces } else none

/-- Source: `manage.c` `captureVariableState`. -/
def captureVariableState (ctx : MemContext ν) : Option (DynArray (VariableTrace ν)) := do
  let vars := newDynArrayWithSize ctx.traces.nitems
  let vars ← hmapLoop (fun vars vt => (pushOnDynArray vars vt).write vt.idx vt) ctx.traces
    (ctx.traces.nslots + 1) 0 vars
  some { vars with size := ctx.traces.nitems }

/-- The body of the loop. Source: `manage.c` `restoreVariableState`. -/
def restoreVariable (state : MemContext ν × DynArray (VariableTrace ν)) (i : ℕ) :
    Option (MemContext ν × DynArray (VariableTrace ν)) := do
  let (ctx, vars) := state
  let var ← vars.elems i
  let vt ← (← findVariableTrace hash ctx var.node)
  let prev := vt.state
  let ctx ← writeVariableTrace hash ctx var.node fun vt => { vt with state := var.state }
  let vars ← vars.write i { var with state := prev }
  some (ctx, vars)

/-- Source: `manage.c` `restoreVariableState`. -/
def restoreVariableState (ctx : MemContext ν) (vars : DynArray (VariableTrace ν)) :
    Option (MemContext ν × DynArray (VariableTrace ν)) :=
  (List.range vars.size).foldlM (restoreVariable hash) (ctx, vars)

/-! ## Runs -/

/-- What a visit does with the traces. -/
inductive Event (ν : Type)
  | enter (block : ν)
  | declare (node : ν) (state : VariableState)
  | change (node : ν) (state : VariableState) (dropFlags lastDropScope : Option ν)
    (used destroyed : Bool)
  | leave

/-- The variables of the open blocks, in the order of their declarations. -/
def MemContext.live (ctx : MemContext ν) : List ν := (ctx.blocks.reverse.map Prod.snd).flatten

/-- Source: `manage.c` `visitFuncDecl`. -/
def MemContext.start : MemContext ν := ⟨hmapCreate, []⟩

/-- The end of a block, for one of its locals. Source: `manage.c` `visitBlockStmt`. -/
def removeLocal (ctx : MemContext ν) (var : ν) : Option (MemContext ν) := do
  let vt ← (← findVariableTrace hash ctx var)
  let traces ← hmapRemove (hashVariableTrace hash) compareVariableTrace 2 ctx.traces vt
  some { ctx with traces := traces }

/-- A declaration is visited once, in an open block. Source: `manage.c` `visitVariableDecl`,
`visitBlockStmt`. -/
def step (ctx : MemContext ν) : Event ν → Option (MemContext ν)
  | .enter block => some { ctx with blocks := (block, []) :: ctx.blocks }
  | .declare node state =>
      match ctx.blocks with
      | [] => none
      | (block, locals) :: blocks =>
          if node ∈ ctx.live then none
          else (insertVariableTrace hash ctx node state).map fun ctx =>
            { ctx with blocks := (block, locals ++ [node]) :: blocks }
  | .change node state dropFlags lastDropScope used destroyed =>
      writeVariableTrace hash ctx node fun vt =>
        { vt with
          state := state, dropFlags := dropFlags, lastDropScope := lastDropScope, used := used,
          destroyed := destroyed }
  | .leave =>
      match ctx.blocks with
      | [] => none
      | (_, locals) :: blocks =>
          (locals.foldlM (removeLocal hash) ctx).map fun ctx => { ctx with blocks := blocks }

def run (ctx : MemContext ν) (events : List (Event ν)) : Option (MemContext ν) :=
  events.foldlM (step hash) ctx

end

/-! ## The invariant -/

section

variable {ν : Type} [DecidableEq ν] {hash : ν → ℕ} {ctx : MemContext ν}

theorem hashConsistent : HashConsistent (hashVariableTrace hash) compareVariableTrace where
  refl := fun _ => decide_eq_true rfl
  symm := fun _ _ h => decide_eq_true (of_decide_eq_true h).symm
  trans := fun _ _ _ hxy hyz =>
    decide_eq_true ((of_decide_eq_true hxy).trans (of_decide_eq_true hyz))
  hash_eq := fun _ _ h => congrArg hash (of_decide_eq_true h)

/-- The map has the traces of some variables with their numbers. -/
structure Holding (hash : ν → ℕ) (traces : Hmap (VariableTrace ν)) (keys : List (ν × ℕ)) :
    Prop where
  wf : Wf (hashVariableTrace hash) compareVariableTrace traces
  roomy : Roomy traces
  keys : ((elems traces).map fun vt => (vt.node, vt.idx)).Perm keys

/-- **The invariant of a run**: the map has a trace of each live variable, with the number of live
variables that were declared before it. -/
abbrev Tracked (hash : ν → ℕ) (ctx : MemContext ν) : Prop := Holding hash ctx.traces ctx.live.zipIdx

theorem Tracked.nodes (h : Tracked hash ctx) :
    ((elems ctx.traces).map VariableTrace.node).Perm ctx.live := by
  have hnodes := h.keys.map Prod.fst
  rwa [List.zipIdx_map_fst, List.map_map] at hnodes

theorem Tracked.idxs (h : Tracked hash ctx) :
    ((elems ctx.traces).map VariableTrace.idx).Perm (List.range ctx.live.length) := by
  have hidxs := h.keys.map Prod.snd
  rwa [List.zipIdx_map_snd, List.map_map, ← List.range_eq_range'] at hidxs

theorem Tracked.nodes_nodup (h : Tracked hash ctx) :
    ((elems ctx.traces).map VariableTrace.node).Nodup := by
  refine List.pairwise_map.mpr ((elems_pairwise h.wf).imp fun hab => ?_)
  exact of_decide_eq_false hab.1

theorem Tracked.nitems (h : Tracked hash ctx) : ctx.traces.nitems = ctx.live.length := by
  rw [nitems_eq_length h.wf, ← h.nodes.length_eq, List.length_map]

/-- Two traces of one variable are one. Kind: L -/
theorem Tracked.unique (h : Tracked hash ctx) {vt vt' : VariableTrace ν}
    (hvt : vt ∈ elems ctx.traces)
    (hvt' : vt' ∈ elems ctx.traces) (hnode : vt.node = vt'.node) : vt = vt' :=
  List.inj_on_of_nodup_map h.nodes_nodup hvt hvt' hnode

theorem Tracked.mem_live (h : Tracked hash ctx) {node : ν} :
    node ∈ ctx.live ↔ ∃ vt ∈ elems ctx.traces, vt.node = node := by
  rw [← h.nodes.mem_iff, List.mem_map]

theorem Tracked.find (h : Tracked hash ctx) (node : ν) :
    (∃ vt ∈ elems ctx.traces, vt.node = node ∧ findVariableTrace hash ctx node = some (some vt)) ∨
      findVariableTrace hash ctx node = some none ∧ node ∉ ctx.live := by
  obtain ⟨vt, hvt, hget, hnode⟩ | ⟨hget, hnone⟩ := hmapGet_spec hashConsistent h.wf h.roomy
    ({ node := node } : VariableTrace ν)
  · exact .inl ⟨vt, hvt, of_decide_eq_true hnode, hget⟩
  · refine .inr ⟨hget, fun hlive => ?_⟩
    obtain ⟨vt, hvt, hnode⟩ := h.mem_live.mp hlive
    exact of_decide_eq_false (hnone vt hvt) hnode

theorem Tracked.find_eq_some (h : Tracked hash ctx) {node : ν} {vt : VariableTrace ν} :
    findVariableTrace hash ctx node = some (some vt) ↔ vt ∈ elems ctx.traces ∧ vt.node = node := by
  obtain ⟨vt', hvt', hnode', hfind⟩ | ⟨hfind, hnot⟩ := h.find node
  · rw [hfind, Option.some.injEq, Option.some.injEq]
    constructor
    · rintro rfl
      exact ⟨hvt', hnode'⟩
    · rintro ⟨hvt, hnode⟩
      exact h.unique hvt' hvt (hnode'.trans hnode.symm)
  · rw [hfind]
    refine iff_of_false (by simp) ?_
    rintro ⟨hvt, hnode⟩
    exact hnot (h.mem_live.mpr ⟨vt, hvt, hnode⟩)

theorem Tracked.find_live (h : Tracked hash ctx) {node : ν} (hlive : node ∈ ctx.live) :
    ∃ vt, findVariableTrace hash ctx node = some (some vt) := by
  obtain ⟨vt, hvt, hnode⟩ := h.mem_live.mp hlive
  exact ⟨vt, h.find_eq_some.mpr ⟨hvt, hnode⟩⟩

theorem Tracked.find_eq_none (h : Tracked hash ctx) {node : ν} (hnot : node ∉ ctx.live) :
    findVariableTrace hash ctx node = some none := by
  obtain ⟨vt, hvt, hnode, -⟩ | ⟨hfind, -⟩ := h.find node
  · exact absurd (h.mem_live.mpr ⟨vt, hvt, hnode⟩) hnot
  · exact hfind

theorem start_tracked : Tracked hash (MemContext.start : MemContext ν) where
  wf := create_wf 0
  roomy := create_roomy 0
  keys := by
    have hnil : elems (MemContext.start : MemContext ν).traces = [] := by
      simp [MemContext.start, hmapCreate, hmapCreateWithCapacity, elems, items, contents]
    rw [hnil]
    exact .nil

/-! ## The operations -/

/-- **A write** changes the trace of one variable. Kind: P -/
theorem Tracked.write (h : Tracked hash ctx) {node : ν} (hlive : node ∈ ctx.live)
    {f : VariableTrace ν → VariableTrace ν}
    (hf : ∀ vt, (f vt).node = vt.node ∧ (f vt).idx = vt.idx) :
    ∃ ctx' vt, writeVariableTrace hash ctx node f = some ctx' ∧ Tracked hash ctx' ∧
      ctx'.blocks = ctx.blocks ∧
      findVariableTrace hash ctx node = some (some vt) ∧
      findVariableTrace hash ctx' node = some (some (f vt)) ∧
      ∀ m, m ≠ node → findVariableTrace hash ctx' m = findVariableTrace hash ctx m := by
  obtain ⟨vt₀, hvt₀, hnode₀⟩ := h.mem_live.mp hlive
  obtain ⟨i, e, hfind, hi, he, hx⟩ | ⟨-, hnone⟩ := hmapFind_spec hashConsistent h.wf h.roomy
    ({ node := node } : VariableTrace ν)
  · have hnode : e.elem.node = node := of_decide_eq_true hx
    have hhome := h.wf.home_of_equal hashConsistent (mem_contents.mpr ⟨i, hi, he⟩)
      (decide_eq_true (hf e.elem).1.symm : compareVariableTrace e.elem (f e.elem) = true)
    obtain ⟨hwf, others, hout, hin⟩ := h.wf.replace hashConsistent hi he
      (decide_eq_true (hf e.elem).1.symm : compareVariableTrace e.elem (f e.elem) = true)
    rw [← hhome] at hwf hin
    have hout' := hout.map Entry.elem
    have hin' := hin.map Entry.elem
    let ctx' : MemContext ν := { ctx with
      traces := { ctx.traces with data := set ctx.traces.data i (some ⟨e.home, f e.elem⟩) } }
    have hkeys : ((elems ctx'.traces).map fun vt => (vt.node, vt.idx)).Perm
        ((elems ctx.traces).map fun vt => (vt.node, vt.idx)) := by
      refine (hin'.map _).trans (List.Perm.trans ?_ (hout'.map _).symm)
      rw [List.map_cons, List.map_cons, List.map_cons, List.map_cons, (hf e.elem).1, (hf e.elem).2]
    have htracked : Tracked hash ctx' := ⟨hwf, h.roomy, hkeys.trans h.keys⟩
    have hmem : ∀ vt, vt ∈ elems ctx.traces ↔ vt = e.elem ∨ vt ∈ others.map Entry.elem :=
      fun vt => hout'.mem_iff.trans List.mem_cons
    have hmem' : ∀ vt, vt ∈ elems ctx'.traces ↔ vt = f e.elem ∨ vt ∈ others.map Entry.elem :=
      fun vt => hin'.mem_iff.trans List.mem_cons
    refine ⟨ctx', e.elem, ?_, htracked, rfl, h.find_eq_some.mpr ⟨(hmem _).mpr (.inl rfl), hnode⟩,
      htracked.find_eq_some.mpr ⟨(hmem' _).mpr (.inl rfl),
      (hf e.elem).1.trans hnode⟩, fun m hm => ?_⟩
    · simp only [writeVariableTrace, hfind, he, Option.bind_eq_bind,
        Option.bind_some, Option.map_some]
      rfl
    · by_cases hmlive : m ∈ ctx.live
      · obtain ⟨vt, hvt⟩ := h.find_live hmlive
        obtain ⟨hvtmem, hvtnode⟩ := h.find_eq_some.mp hvt
        rw [hvt, htracked.find_eq_some]
        refine ⟨(hmem' vt).mpr (.inr (((hmem vt).mp hvtmem).resolve_left ?_)), hvtnode⟩
        rintro rfl
        exact hm (hvtnode.symm.trans hnode)
      · rw [h.find_eq_none hmlive]
        exact htracked.find_eq_none hmlive
  · exact absurd hnode₀ (of_decide_eq_false (hnone vt₀ hvt₀))

/-- A variable that is not live has no trace to write. Kind: L -/
theorem Tracked.write_eq_none (h : Tracked hash ctx) {node : ν} (hnot : node ∉ ctx.live)
    {f : VariableTrace ν → VariableTrace ν} : writeVariableTrace hash ctx node f = none := by
  obtain ⟨i, e, -, hi, he, hx⟩ | ⟨hfind, -⟩ := hmapFind_spec hashConsistent h.wf h.roomy
    ({ node := node } : VariableTrace ν)
  · have hmem : e.elem ∈ elems ctx.traces := List.mem_map_of_mem (mem_contents.mpr ⟨i, hi, he⟩)
    exact absurd (h.mem_live.mpr ⟨e.elem, hmem, of_decide_eq_true hx⟩) hnot
  · simp only [writeVariableTrace, hfind, Option.bind_eq_bind, Option.bind_some]

omit [DecidableEq ν] in
theorem live_cons (block : ν) (locals : List ν) (blocks : List (ν × List ν))
    (traces traces' : Hmap (VariableTrace ν)) :
    MemContext.live ⟨traces, (block, locals) :: blocks⟩ = MemContext.live
      ⟨traces', blocks⟩ ++ locals := by
  simp [MemContext.live]

theorem removeLocal_spec {blocks : List (ν × List ν)} {traces : Hmap (VariableTrace ν)}
    {pre post : List (ν × ℕ)}
    {var : ν} {k : ℕ} (h : Holding hash traces (pre ++ (var, k) :: post)) :
    ∃ traces', removeLocal hash ⟨traces, blocks⟩ var = some ⟨traces', blocks⟩ ∧
      Holding hash traces' (pre ++ post) := by
  obtain ⟨hwf, hroomy, hkeys⟩ := h
  have hmem : (var, k) ∈ (elems traces).map fun vt => (vt.node, vt.idx) :=
    hkeys.mem_iff.mpr (List.mem_append_right pre List.mem_cons_self)
  obtain ⟨vt₀, hvt₀, hkey₀⟩ := List.mem_map.mp hmem
  obtain ⟨rfl, rfl⟩ := Prod.mk.inj hkey₀
  have hunique : ∀ vt ∈ elems traces, vt.node = vt₀.node → vt = vt₀ := fun vt hvt hnode =>
    List.inj_on_of_nodup_map (List.pairwise_map.mpr ((elems_pairwise hwf).imp fun hab =>
      of_decide_eq_false hab.1)) hvt hvt₀ hnode
  obtain ⟨vt, hvt, hget, hnode⟩ | ⟨-, hnone⟩ := hmapGet_spec hashConsistent hwf hroomy
    ({ node := vt₀.node } : VariableTrace ν)
  · obtain rfl := hunique vt hvt (of_decide_eq_true hnode)
    obtain ⟨traces', hremove, hwf', hroomy', ⟨vt', hvt', hperm⟩ | ⟨-, hnone⟩⟩ :=
      hmapRemove_spec hashConsistent hwf hroomy vt 1
    · obtain rfl := hunique vt' (hperm.mem_iff.mpr List.mem_cons_self) (of_decide_eq_true hvt')
      refine ⟨traces', ?_, hwf', hroomy', ?_⟩
      · simp only [removeLocal, findVariableTrace, hget, hremove,
          Option.bind_eq_bind, Option.bind_some]
      · have hcons := (hperm.map fun vt => (vt.node, vt.idx)).symm.trans
          (hkeys.trans List.perm_middle)
        exact hcons.cons_inv
    · exact absurd rfl (of_decide_eq_false (hnone vt hvt))
  · exact absurd rfl (of_decide_eq_false (hnone vt₀ hvt₀))

/-- The variables that were declared last are removed. Kind: L -/
theorem removeLocals_spec {blocks : List (ν × List ν)} : ∀ {locals : List ν} {n : ℕ}
    {pre : List (ν × ℕ)}
    {traces : Hmap (VariableTrace ν)}, Holding hash traces (pre ++ locals.zipIdx n) →
      ∃ traces', locals.foldlM (removeLocal hash) ⟨traces, blocks⟩ = some ⟨traces', blocks⟩ ∧
        Holding hash traces' pre
  | [], n, pre, traces, h => ⟨traces, rfl, by rwa [List.zipIdx_nil, List.append_nil] at h⟩
  | var :: locals, n, pre, traces, h => by
      rw [List.zipIdx_cons] at h
      obtain ⟨mid, hmid, hmidkeys⟩ := @removeLocal_spec ν _ hash blocks _ _ _ _ _ h
      obtain ⟨traces', hrest, hkeys⟩ := removeLocals_spec hmidkeys
      refine ⟨traces', ?_, hkeys⟩
      rw [List.foldlM_cons, hmid]
      exact hrest

/-- A declared variable gets the next number. Kind: L -/
theorem Tracked.insert (h : Tracked hash ctx) {node : ν} (hnew : node ∉ ctx.live)
    (state : VariableState) :
    ∃ ctx', insertVariableTrace hash ctx node state = some ctx' ∧ ctx'.blocks = ctx.blocks ∧
      Holding hash ctx'.traces (ctx.live.zipIdx ++ [(node, ctx.live.length)]) := by
  have habsent : ∀ vt ∈ elems ctx.traces, vt.node ≠ node := fun vt hvt hnode =>
    hnew (h.mem_live.mpr ⟨vt, hvt, hnode⟩)
  let vt : VariableTrace ν :=
    { node := node, scope := ctx.blocks.head?.map Prod.fst, state := state
      idx := ctx.traces.nitems }
  obtain ⟨traces, i, hput, hwf, hroomy, hperm⟩ := hmapPut_absent (x := vt)
    hashConsistent h.wf h.roomy (fun vt hvt => decide_eq_false (habsent vt hvt)) 0
  refine ⟨⟨traces, ctx.blocks⟩, ?_, rfl, hwf, hroomy, ?_⟩
  · exact Option.bind_eq_some_iff.mpr ⟨(traces, i, true), hput, rfl⟩
  · rw [← h.nitems]
    exact (hperm.map _).trans ((h.keys.cons _).trans (List.perm_append_singleton _ _).symm)

/-- **A step keeps the invariant.** Kind: P -/
theorem step_tracked (h : Tracked hash ctx) {event : Event ν} {ctx' : MemContext ν}
    (hstep : step hash ctx event = some ctx') : Tracked hash ctx' := by
  obtain ⟨traces, blocks⟩ := ctx
  cases event with
  | enter block =>
      obtain rfl := Option.some.inj hstep
      refine ⟨h.wf, h.roomy, ?_⟩
      rw [live_cons block [] blocks traces traces, List.append_nil]
      exact h.keys
  | declare node state =>
      cases blocks with
      | nil => cases hstep
      | cons block blocks =>
          obtain ⟨block, locals⟩ := block
          rw [step] at hstep
          dsimp only at hstep
          by_cases hnew : node ∈ MemContext.live ⟨traces, (block, locals) :: blocks⟩
          · rw [if_pos hnew] at hstep
            cases hstep
          · obtain ⟨mid, hmid, -, hkeys⟩ := h.insert hnew state
            rw [if_neg hnew, hmid] at hstep
            obtain rfl := Option.some.inj hstep
            refine ⟨hkeys.wf, hkeys.roomy, ?_⟩
            have hlive := live_cons block (locals ++ [node]) blocks mid.traces traces
            rw [← List.append_assoc, ← live_cons block locals blocks traces traces] at hlive
            rw [hlive, List.zipIdx_append, Nat.zero_add]
            exact hkeys.keys
  | change node state dropFlags lastDropScope used destroyed =>
      rw [step] at hstep
      by_cases hlive : node ∈ MemContext.live ⟨traces, blocks⟩
      · obtain ⟨mid, -, hmid, htracked, -⟩ := h.write (f := fun vt => { vt with
          state := state, dropFlags := dropFlags, lastDropScope := lastDropScope, used := used,
          destroyed := destroyed }) hlive (fun _ => ⟨rfl, rfl⟩)
        obtain rfl := Option.some.inj (hmid.symm.trans hstep)
        exact htracked
      · rw [h.write_eq_none hlive] at hstep
        cases hstep
  | leave =>
      cases blocks with
      | nil => cases hstep
      | cons block blocks =>
          obtain ⟨block, locals⟩ := block
          have hkeys := h.keys
          rw [live_cons block locals blocks traces traces, List.zipIdx_append] at hkeys
          obtain ⟨traces', hremoved, hheld⟩ := @removeLocals_spec ν _ hash
            ((block, locals) :: blocks) locals _ _ _ ⟨h.wf, h.roomy, hkeys⟩
          rw [step] at hstep
          dsimp only at hstep
          rw [hremoved] at hstep
          obtain rfl := Option.some.inj hstep
          exact hheld

/-- **The run lemma.** Kind: P -/
theorem run_tracked : ∀ {events : List (Event ν)} {ctx ctx' : MemContext ν}, Tracked hash ctx →
    run hash ctx events = some ctx' → Tracked hash ctx'
  | [], ctx, ctx', h, hrun => Option.some.inj hrun ▸ h
  | event :: events, ctx, ctx', h, hrun => by
      rw [run, List.foldlM_cons] at hrun
      obtain ⟨mid, hmid, hrest⟩ := Option.bind_eq_some_iff.mp hrun
      exact run_tracked (step_tracked h hmid) hrest

/-! ## The array of the traces -/

/-- A push writes behind the size of the array, within its capacity. Kind: L -/
theorem pushOnDynArray_spec {α : Type} (array : DynArray α) (elem : α) :
    (pushOnDynArray array elem).size = array.size + 1 ∧
      array.capacity ≤ (pushOnDynArray array elem).capacity ∧
      ∀ i < array.size, (pushOnDynArray array elem).elems i = array.elems i := by
  unfold pushOnDynArray
  by_cases hfull : array.size ≥ array.capacity
  · rw [if_pos hfull]
    refine ⟨rfl, ?_, fun i hi => Function.update_of_ne hi.ne ..⟩
    unfold growDynArray
    dsimp only
    split_ifs <;> omega
  · rw [if_neg hfull]
    exact ⟨rfl, le_rfl, fun i hi => Function.update_of_ne hi.ne ..⟩

omit [DecidableEq ν] in
/-- The loop of `captureVariableState`: the pushes go behind the `n` elements that the writes are
for. Kind: L -/
theorem capture_loop {n : ℕ} : ∀ (todo : List (VariableTrace ν))
    (vars : DynArray (VariableTrace ν)),
    n ≤ vars.size → n ≤ vars.capacity → (∀ vt ∈ todo, vt.idx < n) →
      (todo.map VariableTrace.idx).Nodup →
      ∃ vars', todo.foldlM (fun vars vt =>
        (pushOnDynArray vars vt).write vt.idx vt) vars = some vars' ∧
        n ≤ vars'.capacity ∧ (∀ vt ∈ todo, vars'.elems vt.idx = some vt) ∧
        ∀ i < n, (∀ vt ∈ todo, vt.idx ≠ i) → vars'.elems i = vars.elems i
  | [], vars, _, hcap, _, _ => ⟨vars, rfl, hcap, List.forall_mem_nil _, fun _ _ _ => rfl⟩
  | vt :: todo, vars, hsize, hcap, hidx, hnodup => by
      obtain ⟨hlt, hidx⟩ := List.forall_mem_cons.mp hidx
      obtain ⟨hnew, hnodup⟩ := List.nodup_cons.mp hnodup
      obtain ⟨hpushsize, hpushcap, hpush⟩ := pushOnDynArray_spec vars vt
      let mid : DynArray (VariableTrace ν) := { pushOnDynArray vars vt with
        elems := Function.update (pushOnDynArray vars vt).elems vt.idx (some vt) }
      have hmid : (pushOnDynArray vars vt).write vt.idx vt = some mid := if_pos (by omega)
      have hmidsize : mid.size = vars.size + 1 := hpushsize
      obtain ⟨vars', hrest, hcap', hset, hkeep⟩ :=
        capture_loop todo mid (by omega) (hcap.trans hpushcap)
        hidx hnodup
      have hother : ∀ vt' ∈ todo, vt'.idx ≠ vt.idx := fun vt' hvt' heq =>
        hnew (heq ▸ List.mem_map_of_mem hvt')
      refine ⟨vars', ?_, hcap', List.forall_mem_cons.mpr ⟨?_, hset⟩, fun i hi hnot => ?_⟩
      · rw [List.foldlM_cons, hmid]
        exact hrest
      · rw [hkeep vt.idx hlt hother]
        exact Function.update_self ..
      · obtain ⟨hne, hnot⟩ := List.forall_mem_cons.mp hnot
        rw [hkeep i hi hnot]
        exact (Function.update_of_ne hne.symm ..).trans (hpush i (by omega))

/-- **The array has the trace with each number at that number.** Kind: P -/
theorem Tracked.capture (h : Tracked hash ctx) : ∃ vars, captureVariableState ctx = some vars ∧
    vars.size = ctx.live.length ∧ vars.size ≤ vars.capacity ∧
    (∀ i < vars.size, ∃ vt ∈ elems ctx.traces, vt.idx = i) ∧
    ∀ vt ∈ elems ctx.traces, vt.idx < vars.size ∧ vars.elems vt.idx = some vt := by
  have hlt : ∀ vt ∈ elems ctx.traces, vt.idx < ctx.traces.nitems := fun vt hvt => by
    rw [h.nitems]
    exact List.mem_range.mp (h.idxs.mem_iff.mp (List.mem_map_of_mem hvt))
  obtain ⟨vars, hloop, hcap, hset, -⟩ := capture_loop (elems ctx.traces)
    (newDynArrayWithSize ctx.traces.nitems) le_rfl le_rfl hlt
      (h.idxs.nodup_iff.mpr List.nodup_range)
  refine ⟨{ vars with size := ctx.traces.nitems }, ?_, h.nitems, hcap, fun i hi => ?_,
    fun vt hvt => ⟨hlt vt hvt, hset vt hvt⟩⟩
  · have hrounds : ctx.traces.nslots - 0 < ctx.traces.nslots + 1 := by omega
    unfold captureVariableState
    dsimp only
    rw [hmapLoop_eq _ _ _ _ _ hrounds, Nat.sub_zero, itemsFrom_zero, hloop]
    rfl
  · have hi' : i < ctx.traces.nitems := hi
    rw [h.nitems] at hi'
    exact List.mem_map.mp (h.idxs.mem_iff.mpr (List.mem_range.mpr hi'))

/-! ## Putting the states back -/

theorem Tracked.restore_one (h : Tracked hash ctx) {vars : DynArray (VariableTrace ν)} {i : ℕ}
    {var : VariableTrace ν} (hvar : vars.elems i = some var) (hcap : i < vars.capacity)
    (hlive : var.node ∈ ctx.live) : ∃ ctx' now,
      restoreVariable hash (ctx, vars) i = some (ctx', { vars with
        elems := Function.update vars.elems i (some { var with state := now.state }) }) ∧
      Tracked hash ctx' ∧ ctx'.blocks = ctx.blocks ∧
      findVariableTrace hash ctx var.node = some (some now) ∧
      findVariableTrace hash ctx' var.node = some (some { now with state := var.state }) ∧
      ∀ m, m ≠ var.node → findVariableTrace hash ctx' m = findVariableTrace hash ctx m := by
  obtain ⟨ctx', now, hwrite, htracked, hblocks, hfind, hfind', hother⟩ :=
    h.write (f := fun vt => { vt with state := var.state }) hlive (fun _ => ⟨rfl, rfl⟩)
  refine ⟨ctx', now, ?_, htracked, hblocks, hfind, hfind', hother⟩
  simp only [restoreVariable, hvar, hfind, hwrite, DynArray.write, if_pos hcap, Option.bind_eq_bind,
    Option.bind_some]

/-- What the loop of `restoreVariableState` has done behind some elements of the array. -/
structure Restored (hash : ν → ℕ) (todo : List ℕ) (ctx ctx' : MemContext ν)
    (vars vars' : DynArray (VariableTrace ν)) : Prop where
  tracked : Tracked hash ctx'
  blocks : ctx'.blocks = ctx.blocks
  size : vars'.size = vars.size
  swapped : ∀ i ∈ todo, ∀ var, vars.elems i = some var → ∃ now,
    findVariableTrace hash ctx var.node = some (some now) ∧
    findVariableTrace hash ctx' var.node = some (some { now with state := var.state }) ∧
    vars'.elems i = some { var with state := now.state }
  others : ∀ m, (∀ i ∈ todo, ∀ var, vars.elems i = some var → var.node ≠ m) →
    findVariableTrace hash ctx' m = findVariableTrace hash ctx m
  elems : ∀ i, i ∉ todo → vars'.elems i = vars.elems i

/-- **The loop swaps the states of distinct variables one by one.** Kind: P -/
theorem restore_loop : ∀ (todo : List ℕ) (ctx : MemContext ν) (vars : DynArray (VariableTrace ν)),
    Tracked hash ctx → todo.Nodup → (∀ i ∈ todo, i < vars.capacity) →
    (∀ i ∈ todo, ∃ var, vars.elems i = some var ∧ var.node ∈ ctx.live) →
    (∀ i ∈ todo, ∀ j ∈ todo, ∀ var var', vars.elems i = some var → vars.elems j = some var' →
      var.node = var'.node → i = j) →
    ∃ ctx' vars', todo.foldlM (restoreVariable hash) (ctx, vars) = some (ctx', vars') ∧
      Restored hash todo ctx ctx' vars vars'
  | [], ctx, vars, h, _, _, _, _ =>
      ⟨ctx, vars, rfl, h, rfl, rfl, fun _ hi => absurd hi List.not_mem_nil, fun _ _ =>
        rfl, fun _ _ => rfl⟩
  | i :: todo, ctx, vars, h, hnodup, hcap, hvars, hinj => by
      obtain ⟨hnew, hnodup⟩ := List.nodup_cons.mp hnodup
      obtain ⟨hicap, hcap⟩ := List.forall_mem_cons.mp hcap
      obtain ⟨⟨var, hvar, hlive⟩, hvars⟩ := List.forall_mem_cons.mp hvars
      obtain ⟨mid, now, hone, hmid, hblocks, hfind, hfind', hother⟩ :=
        h.restore_one hvar hicap hlive
      have hmidlive : mid.live = ctx.live := by rw [MemContext.live, MemContext.live, hblocks]
      -- the elements that are still to do are as they were
      let vars₁ : DynArray (VariableTrace ν) :=
        { vars with elems := Function.update vars.elems i (some { var with state := now.state }) }
      have hkeep : ∀ j, j ≠ i → vars₁.elems j = vars.elems j :=
        fun j hji => Function.update_of_ne hji ..
      have hne : ∀ j ∈ todo, j ≠ i := by
        rintro j hj rfl
        exact hnew hj
      have hapart : ∀ j ∈ todo, ∀ var', vars.elems j = some var' → var'.node ≠ var.node := by
        intro j hj var' hvar' hnode
        have hji := hinj j (List.mem_cons_of_mem i hj) i List.mem_cons_self var' var hvar' hvar
          hnode
        exact hnew (hji ▸ hj)
      obtain ⟨ctx', vars', hrest, hdone⟩ := restore_loop todo mid vars₁ hmid hnodup hcap
        (fun j hj => by rw [hkeep j (hne j hj), hmidlive]; exact hvars j hj)
        (fun j hj k hk v v' hv hv' => by
          rw [hkeep j (hne j hj)] at hv
          rw [hkeep k (hne k hk)] at hv'
          exact hinj j (List.mem_cons_of_mem i hj) k (List.mem_cons_of_mem i hk) v v' hv hv')
      refine ⟨ctx', vars', ?_, hdone.tracked, hdone.blocks.trans hblocks, hdone.size,
        List.forall_mem_cons.mpr ⟨fun v hv => ?_, fun j hj v hv => ?_⟩, fun m hm => ?_, fun j hj =>
          ?_⟩
      · rw [List.foldlM_cons, hone]
        exact hrest
      · obtain rfl := Option.some.inj (hvar.symm.trans hv)
        refine ⟨now, hfind, ?_, ?_⟩
        · rw [hdone.others var.node fun j hj v hv => hapart j hj v (hkeep j (hne j hj) ▸ hv)]
          exact hfind'
        · rw [hdone.elems i hnew]
          exact Function.update_self ..
      · obtain ⟨now', hnow, hnow', helem⟩ := hdone.swapped j hj v ((hkeep j (hne j hj)).trans hv)
        rw [hother v.node (hapart j hj v hv)] at hnow
        exact ⟨now', hnow, hnow', helem⟩
      · obtain ⟨hm, hmrest⟩ := List.forall_mem_cons.mp hm
        rw [hdone.others m fun j hj v hv => hmrest j hj v (hkeep j (hne j hj) ▸ hv)]
        exact hother m (hm var hvar).symm
      · obtain ⟨hji, hj⟩ := not_or.mp fun hmem => hj (List.mem_cons.mpr hmem)
        rw [hdone.elems j hj]
        exact hkeep j hji

/-! ## Snapshots -/

/-- An array has the trace of the variable with each number at that number, and each live variable
once. -/
structure Snapshot (hash : ν → ℕ) (ctx : MemContext ν) (vars : DynArray (VariableTrace ν)) :
    Prop where
  size : vars.size = ctx.live.length
  numbered : ∀ i < vars.size, ∃ vt, vars.elems i = some vt ∧ vt.idx = i ∧
    findVariableTrace hash ctx vt.node = some (some vt)
  once : ∀ node ∈ ctx.live, ∃! i, i < vars.size ∧ ∃ vt, vars.elems i = some vt ∧ vt.node = node

/-- The variables of an array have the states that it had, and it has those that they had; nothing
else changed. -/
structure PutBack (hash : ν → ℕ) (vars : DynArray (VariableTrace ν)) (ctx ctx' : MemContext ν)
    (vars' : DynArray (VariableTrace ν)) : Prop where
  blocks : ctx'.blocks = ctx.blocks
  size : vars'.size = vars.size
  swapped : ∀ i < vars.size, ∃ vt now, vars.elems i = some vt ∧
    findVariableTrace hash ctx vt.node = some (some now) ∧
    findVariableTrace hash ctx' vt.node = some (some { now with state := vt.state }) ∧
    vars'.elems i = some { vt with state := now.state }
  others : ∀ node, (∀ i < vars.size, ∀ vt, vars.elems i = some vt → vt.node ≠ node) →
    findVariableTrace hash ctx' node = findVariableTrace hash ctx node

/-- **In every state of a run the array is a snapshot, and after any more steps that keep its
variables live it puts their states back**, in whatever order the map lists them. Kind: P -/
theorem capture_then_restore (hash : ν → ℕ) {events : List (Event ν)} {ctx : MemContext ν}
    (hrun : run hash MemContext.start events = some ctx) :
    ∃ vars, captureVariableState ctx = some vars ∧ Snapshot hash ctx vars ∧
      ∀ (later : List (Event ν)) (ctx' : MemContext ν), run hash ctx later = some ctx' →
        (∀ node ∈ ctx.live, node ∈ ctx'.live) →
        ∃ ctx'' vars', restoreVariableState hash ctx' vars = some (ctx'', vars') ∧
          PutBack hash vars ctx' ctx'' vars' := by
  have h := run_tracked start_tracked hrun
  obtain ⟨vars, hvars, hsize, hcap, hidx, helems⟩ := h.capture
  have hat : ∀ i < vars.size, ∃ vt ∈ elems ctx.traces, vt.idx = i ∧ vars.elems i = some vt := by
    intro i hi
    obtain ⟨vt, hvt, rfl⟩ := hidx i hi
    exact ⟨vt, hvt, rfl, (helems vt hvt).2⟩
  have hinj : ∀ i < vars.size, ∀ j < vars.size, ∀ var var', vars.elems i = some var →
      vars.elems j = some var' → var.node = var'.node → i = j := by
    intro i hi j hj var var' hvar hvar' hnode
    obtain ⟨vt, hvt, rfl, hveti⟩ := hat i hi
    obtain ⟨vt', hvt', rfl, hvetj⟩ := hat j hj
    obtain rfl := Option.some.inj (hveti.symm.trans hvar)
    obtain rfl := Option.some.inj (hvetj.symm.trans hvar')
    rw [h.unique hvt hvt' hnode]
  refine ⟨vars, hvars, ⟨hsize, fun i hi => ?_, fun node hnode => ?_⟩, fun later ctx' hlater hkept =>
    ?_⟩
  · obtain ⟨vt, hvt, hi, hvar⟩ := hat i hi
    exact ⟨vt, hvar, hi, h.find_eq_some.mpr ⟨hvt, rfl⟩⟩
  · obtain ⟨vt, hvt, rfl⟩ := h.mem_live.mp hnode
    obtain ⟨hlt, hvar⟩ := helems vt hvt
    refine ⟨vt.idx, ⟨hlt, vt, hvar, rfl⟩, ?_⟩
    rintro j ⟨hj, vt', hvt', hnode'⟩
    exact hinj j hj vt.idx hlt vt' vt hvt' hvar hnode'
  · have hlive : ∀ i ∈ List.range vars.size, ∃ var, vars.elems i = some var ∧
      var.node ∈ ctx'.live := by
      intro i hi
      obtain ⟨vt, hvt, -, hvar⟩ := hat i (List.mem_range.mp hi)
      exact ⟨vt, hvar, hkept vt.node (h.mem_live.mpr ⟨vt, hvt, rfl⟩)⟩
    obtain ⟨ctx'', vars', hrestore, hdone⟩ := restore_loop (List.range vars.size) ctx' vars
      (run_tracked h hlater) List.nodup_range (fun i hi =>
        (List.mem_range.mp hi).trans_le hcap) hlive
      (fun i hi j hj => hinj i (List.mem_range.mp hi) j (List.mem_range.mp hj))
    refine ⟨ctx'', vars', hrestore, hdone.blocks, hdone.size, fun i hi => ?_, fun node hnode => ?_⟩
    · obtain ⟨vt, -, -, hvar⟩ := hat i hi
      obtain ⟨now, hnow, hnow', helem⟩ := hdone.swapped i (List.mem_range.mpr hi) vt hvar
      exact ⟨vt, now, hvar, hnow, hnow', helem⟩
    · exact hdone.others node fun i hi => hnode i (List.mem_range.mp hi)

/-- A map that lists the variable that was declared last first. Kind: P -/
theorem capture_then_restore_backwards : ∃ ctx vars ctx' ctx'' vars',
    run (fun n => 10 - n) MemContext.start [.enter 0, .declare 1 .vtsAssigned,
      .declare 2 .vtsNullified] =
      some ctx ∧
    (elems ctx.traces).map VariableTrace.node = [2, 1] ∧ captureVariableState ctx = some vars ∧
    run (fun n => 10 - n) ctx [.change 1 .vtsMoved none none true false] = some ctx' ∧
    restoreVariableState (fun n => 10 - n) ctx' vars = some (ctx'', vars') ∧
    PutBack (fun n => 10 - n) vars ctx' ctx'' vars' := by
  obtain ⟨vars, hvars, -, hback⟩ := @capture_then_restore ℕ _ (fun n => 10 - n)
    [.enter 0, .declare 1 .vtsAssigned, .declare 2 .vtsNullified] _ rfl
  obtain ⟨ctx'', vars', hrestore, hput⟩ := hback [.change 1 .vtsMoved none none true false] _ rfl
    (by decide)
  exact ⟨_, vars, _, ctx'', vars', rfl, by decide, hvars, rfl, hrestore, hput⟩

end

end CxyCompiler.Middle.VariableTraces
