import CxyCompiler.Lib.Postorder
import CxyCompiler.Package.Versions

/-!
# The order of the scripts

A script of a package names the scripts that run before it. `types.c` puts them in order by a search
from the script asked for, with a list of the scripts the search is in and one of those it has left.

* `resolveScriptDepsRecursive`, `resolveScriptDependencies`: the search.
* `validateScripts`: the checks that run before it.
* `recursive_search`: the search is that of `Lib.Postorder`.
* **`script_order`**: the search succeeds exactly if all scripts in reach exist and are on no cycle.
  The order then holds these scripts, each once and behind those it needs, the one asked for last.

The source compares names that are no null pointers: the reader of the Cxyfile gives each script
one.

Source: `package/types.c`.
-/

namespace CxyCompiler.Package.Scripts

open CxyCompiler.Lib

/-- Source: `types.h` `PackageScript`, what the search uses of it. -/
structure PackageScript where
  name : CString
  command : Option CString
  dependencies : List CString

/-- Source: `types.h` `PackageMetadata`, what the search uses of it. -/
structure PackageMetadata where
  scripts : List PackageScript

/-- What is logged. -/
inductive ScriptError where
  | circular (name : CString)
  | undefined (name : CString)
  | nameRequired
  | missingCommand (name : CString)
  | dependsOnUndefined (name depName : CString)
  deriving DecidableEq

def ScriptError.text : ScriptError → CString
  | circular name => "circular script dependency detected: '".toList ++ name ++ ['\'']
  | undefined name => "undefined script referenced: '".toList ++ name ++ ['\'']
  | nameRequired => "script name is required".toList
  | missingCommand name => "script '".toList ++ name ++ "' is missing command".toList
  | dependsOnUndefined name depName =>
      "script '".toList ++ name ++ "' depends on undefined script '".toList ++ depName ++ ['\'']

/-- The arrays of a search, and the log. -/
structure Search where
  executionOrder : List CString
  visiting : List CString
  visited : List CString
  log : List ScriptError

def Search.logError (s : Search) (error : ScriptError) : Search :=
  { s with log := s.log ++ [error] }

/-- Source: `types.c` `findScript`. -/
def findScript (metadata : PackageMetadata) (name : CString) : Option PackageScript :=
  metadata.scripts.find? fun script => script.name == name

/-- The loop over the dependencies, up to the first that fails. -/
def resolveEach (resolve : CString → Search → Option (Bool × Search)) :
    List CString → Search → Option (Bool × Search)
  | [], s => some (true, s)
  | depName :: rest, s =>
      match resolve depName s with
      | some (true, s) => resolveEach resolve rest s
      | r => r

/-- `none` when the rounds are used up. Source: `types.c` `resolveScriptDepsRecursive`. -/
def resolveScriptDepsRecursive (metadata : PackageMetadata) :
    ℕ → CString → Search → Option (Bool × Search)
  | 0, _, _ => none
  | rounds + 1, scriptName, s =>
      if scriptName ∈ s.visited then some (true, s)
      else if scriptName ∈ s.visiting then some (false, s.logError (.circular scriptName))
      else
        match findScript metadata scriptName with
        | none => some (false, s.logError (.undefined scriptName))
        | some script =>
            match resolveEach (resolveScriptDepsRecursive metadata rounds) script.dependencies
              { s with visiting := s.visiting ++ [scriptName] } with
            | some (true, s) =>
                some (true, { s with
                  visiting := s.visiting.dropLast
                  executionOrder := s.executionOrder ++ [scriptName]
                  visited := s.visited ++ [scriptName] })
            | r => r

/-- The search from one script, over a log. -/
def resolveFrom (metadata : PackageMetadata) (rounds : ℕ) (scriptName : CString)
    (log : List ScriptError) : Option (Bool × Search) :=
  resolveScriptDepsRecursive metadata rounds scriptName ⟨[], [], [], log⟩

/-- Whether it succeeds, and the order. Source: `types.c` `resolveScriptDependencies`. -/
def resolveScriptDependencies (metadata : PackageMetadata) (rounds : ℕ) (scriptName : CString)
    (log : List ScriptError) : Option (Bool × List CString × List ScriptError) :=
  (resolveFrom metadata rounds scriptName log).map fun r => (r.1, r.2.executionOrder, r.2.log)

/-- The errors of one script. -/
def checkScript (metadata : PackageMetadata) (script : PackageScript) : List ScriptError :=
  if script.name = [] then [.nameRequired]
  else
    (if script.command.getD [] = [] then [.missingCommand script.name] else []) ++
      (script.dependencies.filter fun depName => (findScript metadata depName).isNone).map
        (.dependsOnUndefined script.name)

/-- The loop that looks for cycles, up to the first script that fails. -/
def checkCycles (metadata : PackageMetadata) (rounds : ℕ) :
    List PackageScript → List ScriptError → Option (Bool × List ScriptError)
  | [], log => some (true, log)
  | script :: rest, log =>
      match resolveFrom metadata rounds script.name log with
      | some (true, s) => checkCycles metadata rounds rest s.log
      | r => r.map fun r => (r.1, r.2.log)

/-- Source: `types.c` `validateScripts`. -/
def validateScripts (metadata : PackageMetadata) (rounds : ℕ) (log : List ScriptError) :
    Option (Bool × List ScriptError) :=
  let errors := metadata.scripts.flatMap (checkScript metadata)
  if errors = [] then checkCycles metadata rounds metadata.scripts log
  else some (false, log ++ errors)

/-! ## The graph -/

def dependenciesOf (metadata : PackageMetadata) (name : CString) : Option (List CString) :=
  (findScript metadata name).map PackageScript.dependencies

def DependsOn (metadata : PackageMetadata) : CString → CString → Prop :=
  Postorder.Edge (dependenciesOf metadata)

def Reachable (metadata : PackageMetadata) : CString → CString → Prop :=
  Relation.ReflTransGen (DependsOn metadata)

def OnCycle (metadata : PackageMetadata) (name : CString) : Prop :=
  Relation.TransGen (DependsOn metadata) name name

theorem bad_iff (metadata : PackageMetadata) (name : CString) :
    Postorder.Bad (dependenciesOf metadata) name ↔
      ¬ ((findScript metadata name).isSome ∧ ¬ OnCycle metadata name) := by
  have hnone : dependenciesOf metadata name = none ↔ ¬ (findScript metadata name).isSome := by
    unfold dependenciesOf
    rw [Option.map_eq_none_iff, Option.not_isSome_iff_eq_none]
  unfold Postorder.Bad
  rw [hnone, not_and_or, not_not]
  rfl

theorem mem_names {metadata : PackageMetadata} {name : CString}
    (h : dependenciesOf metadata name ≠ none) : name ∈ metadata.scripts.map PackageScript.name := by
  cases hfind : findScript metadata name with
  | none => exact absurd (by unfold dependenciesOf; rw [hfind]; rfl) h
  | some script =>
      have hname := List.find?_some hfind
      apply List.mem_map.mpr
      exact ⟨script, List.mem_of_find?_eq_some hfind, eq_of_beq hname⟩

/-! ## The search of the source -/

/-- A search of the source and one of the library: the same end, and on success the same lists. -/
def Same (s : Search) : Option (Bool × Search) → Option (Option (List CString)) → Prop
  | none, none => True
  | some (false, _), some none => True
  | some (true, s'), some (some visited) =>
      s' = { s with executionOrder := visited, visited := visited }
  | _, _ => False

theorem each_search {metadata : PackageMetadata} {rounds : ℕ} {visiting : List CString}
    (hstep : ∀ name s, s.visiting = visiting → s.executionOrder = s.visited →
      Same s (resolveScriptDepsRecursive metadata rounds name s)
        (Postorder.search (dependenciesOf metadata) rounds visiting name s.visited)) :
    ∀ names s, s.visiting = visiting → s.executionOrder = s.visited →
      Same s (resolveEach (resolveScriptDepsRecursive metadata rounds) names s)
        (Postorder.each (Postorder.search (dependenciesOf metadata) rounds visiting) names
          s.visited) := by
  intro names
  induction names with
  | nil =>
      rintro ⟨order, path, visited, log⟩ - heq
      obtain rfl : order = visited := heq
      rfl
  | cons name names ih =>
      intro s hpath heq
      have h := hstep name s hpath heq
      unfold resolveEach Postorder.each
      rcases hr : resolveScriptDepsRecursive metadata rounds name s with _ | ⟨_ | _, s'⟩ <;>
        rcases hv : Postorder.search (dependenciesOf metadata) rounds visiting name s.visited
          with _ | _ | visited <;> rw [hr, hv] at h
      all_goals first
        | exact h.elim
        | exact trivial
        | skip
      obtain rfl : s' = { s with executionOrder := visited, visited := visited } := h
      exact ih _ hpath rfl

/-- **The search of the source is that of the library.** Kind: P -/
theorem recursive_search (metadata : PackageMetadata) : ∀ (rounds : ℕ) (name : CString)
    (s : Search),
    s.executionOrder = s.visited →
      Same s (resolveScriptDepsRecursive metadata rounds name s)
        (Postorder.search (dependenciesOf metadata) rounds s.visiting name s.visited) := by
  intro rounds
  induction rounds with
  | zero => intro name s _; exact trivial
  | succ rounds ih =>
      rintro name ⟨order, visiting, visited, log⟩ heq
      obtain rfl : order = visited := heq
      unfold resolveScriptDepsRecursive Postorder.search
      dsimp only
      by_cases hseen : name ∈ order
      · rw [if_pos hseen, if_pos hseen]
        rfl
      rw [if_neg hseen, if_neg hseen]
      by_cases hin : name ∈ visiting
      · rw [if_pos hin, if_pos hin]
        exact trivial
      rw [if_neg hin, if_neg hin]
      unfold dependenciesOf
      cases hfind : findScript metadata name with
      | none => exact trivial
      | some script =>
          have hstep : ∀ k t, t.visiting = visiting ++ [name] → t.executionOrder = t.visited →
              Same t (resolveScriptDepsRecursive metadata rounds k t)
                (Postorder.search (dependenciesOf metadata) rounds
                  (visiting ++ [name]) k t.visited) := by
            intro k t ht hk
            rw [← ht]
            exact ih k t hk
          have heach := each_search hstep script.dependencies
            ⟨order, visiting ++ [name], order, log⟩ rfl rfl
          unfold dependenciesOf at heach
          dsimp only [Option.map_some] at heach ⊢
          rcases hr : resolveEach (resolveScriptDepsRecursive metadata rounds) script.dependencies
              ⟨order, visiting ++ [name], order, log⟩ with _ | ⟨_ | _, s'⟩ <;>
            rcases hv : Postorder.each (Postorder.search
              (fun n => (findScript metadata n).map PackageScript.dependencies) rounds
              (visiting ++ [name])) script.dependencies order with _ | _ | visited <;>
            rw [hr, hv] at heach
          all_goals first
            | exact heach.elim
            | exact trivial
            | skip
          obtain rfl : s' = ⟨visited, visiting ++ [name], visited, log⟩ := heach
          have hpop : (visiting ++ [name]).dropLast = visiting := List.dropLast_concat
          dsimp only
          rw [hpop]
          rfl

section Results

variable {metadata : PackageMetadata} {rounds : ℕ} {scriptName : CString} {log : List ScriptError}

theorem resolveFrom_same (metadata : PackageMetadata) (rounds : ℕ) (scriptName : CString)
    (log : List ScriptError) :
    Same ⟨[], [], [], log⟩ (resolveFrom metadata rounds scriptName log)
      (Postorder.search (dependenciesOf metadata) rounds [] scriptName []) :=
  recursive_search metadata rounds scriptName ⟨[], [], [], log⟩ rfl

theorem resolveFrom_success {s : Search}
    (h : resolveFrom metadata rounds scriptName log = some (true, s)) :
    Postorder.search (dependenciesOf metadata) rounds [] scriptName [] = some
      (some s.executionOrder) ∧
      s.log = log := by
  have hsame := resolveFrom_same metadata rounds scriptName log
  rw [h] at hsame
  rcases hv : Postorder.search (dependenciesOf metadata) rounds [] scriptName
    [] with _ | _ | visited <;>
    rw [hv] at hsame
  · exact hsame.elim
  · exact hsame.elim
  · obtain rfl : s = ⟨visited, [], visited, log⟩ := hsame
    exact ⟨rfl, rfl⟩

theorem resolveFrom_of_search {order : List CString}
    (h : Postorder.search (dependenciesOf metadata) rounds [] scriptName [] = some (some order)) :
    resolveFrom metadata rounds scriptName log = some (true, ⟨order, [], order, log⟩) := by
  have hsame := resolveFrom_same metadata rounds scriptName log
  rw [h] at hsame
  rcases hr : resolveFrom metadata rounds scriptName log with _ | ⟨_ | _, s⟩ <;> rw [hr] at hsame
  · exact hsame.elim
  · exact hsame.elim
  · obtain rfl : s = ⟨order, [], order, log⟩ := hsame
    rfl

theorem resolveFrom_ends (hrounds : metadata.scripts.length < rounds) :
    resolveFrom metadata rounds scriptName log ≠ none := by
  intro h
  have hsame := resolveFrom_same metadata rounds scriptName log
  have htotal : Postorder.search (dependenciesOf metadata) rounds [] scriptName [] ≠ none := by
    apply Postorder.search_total (fun _ => mem_names) rounds [] scriptName [] List.nodup_nil
    · exact fun v hv => absurd hv List.not_mem_nil
    · rw [List.length_map, List.length_nil]
      omega
  rw [h] at hsame
  rcases hv : Postorder.search (dependenciesOf metadata) rounds [] scriptName
    [] with _ | _ | visited <;>
    rw [hv] at hsame
  · exact htotal hv
  · exact hsame.elim
  · exact hsame.elim

theorem resolveFrom_iff (hrounds : metadata.scripts.length < rounds) :
    (∃ s, resolveFrom metadata rounds scriptName log = some (true, s)) ↔
      ∀ name, Reachable metadata scriptName name →
        (findScript metadata name).isSome ∧ ¬ OnCycle metadata name := by
  have hlength : (metadata.scripts.map PackageScript.name).length < rounds := by
    rw [List.length_map]
    exact hrounds
  have hiff := Postorder.search_iff (n := scriptName) (fun _ => @mem_names metadata _) hlength
  have hgood : (∀ m, Postorder.Reach (dependenciesOf metadata) scriptName m →
      ¬ Postorder.Bad (dependenciesOf metadata) m) ↔ ∀ name, Reachable metadata scriptName name →
        (findScript metadata name).isSome ∧ ¬ OnCycle metadata name := by
    apply forall₂_congr
    intro m _
    rw [bad_iff, not_not]
  rw [← hgood, ← hiff]
  constructor
  · rintro ⟨s, h⟩
    exact ⟨s.executionOrder, (resolveFrom_success h).1⟩
  · rintro ⟨order, h⟩
    exact ⟨_, resolveFrom_of_search h⟩

/-- **Scripts found valid have no cycle**: each search of the loop has succeeded. Kind: L -/
theorem checkCycles_true : ∀ {scripts log log'},
    checkCycles metadata rounds scripts log = some (true, log') →
    ∀ script ∈ scripts, ∃ visited,
      Postorder.search (dependenciesOf metadata) rounds [] script.name [] = some
        (some visited) := by
  intro scripts
  induction scripts with
  | nil => intro log log' _ script hs; exact absurd hs List.not_mem_nil
  | cons first rest ih =>
      intro log log' h script hs
      unfold checkCycles at h
      rcases hr : resolveFrom metadata rounds first.name log with _ | ⟨_ | _, s⟩ <;> rw [hr] at h
      · cases h
      · cases h
      · rcases List.mem_cons.mp hs with rfl | hs
        · exact ⟨_, (resolveFrom_success hr).1⟩
        · exact ih h script hs

theorem checkCycles_ends (hrounds : metadata.scripts.length < rounds) :
    ∀ {scripts log}, checkCycles metadata rounds scripts log ≠ none := by
  intro scripts
  induction scripts with
  | nil => intro log h; cases h
  | cons first rest ih =>
      intro log h
      unfold checkCycles at h
      rcases hr : resolveFrom metadata rounds first.name log with _ | ⟨_ | _, s⟩ <;> rw [hr] at h
      · exact resolveFrom_ends hrounds hr
      · cases h
      · exact ih h

/-- What an order is to be: the scripts in reach, each once, those a script needs before it, and the
one asked for last. -/
structure ExecutionOrder (metadata : PackageMetadata) (scriptName : CString)
    (order : List CString) :
    Prop where
  mem : ∀ name, name ∈ order ↔ Reachable metadata scriptName name
  nodup : order.Nodup
  before : ∀ pre name post, order = pre ++ name :: post →
    ∀ dep, DependsOn metadata name dep → dep ∈ pre
  last : order.getLast? = some scriptName

theorem executionOrder_of_search {order : List CString}
    (h : Postorder.search (dependenciesOf metadata) rounds [] scriptName [] = some (some order)) :
    ExecutionOrder metadata scriptName order := by
  obtain ⟨hsorted, hmem, front, hlast⟩ := Postorder.search_order h
  refine ⟨hmem, hsorted.nodup, ?_, ?_⟩
  · rintro pre name post heq dep ⟨ds, hds, hdep⟩
    obtain ⟨ds', hds', hall⟩ := hsorted.before pre name post heq
    obtain rfl := Option.some.inj (hds.symm.trans hds')
    exact hall dep hdep
  · rw [hlast]
    exact List.getLast?_concat

end Results

/-- **Scripts are put in order exactly if all in reach exist and are on no cycle**; and a package
found valid has an order for each of its scripts. Kind: P -/
theorem script_order (metadata : PackageMetadata) (rounds : ℕ)
    (hrounds : metadata.scripts.length < rounds) :
    (∀ scriptName log,
      (∃ r, resolveScriptDependencies metadata rounds scriptName log = some r) ∧
      ((∃ order log', resolveScriptDependencies metadata rounds scriptName log =
          some (true, order, log')) ↔
        ∀ name, Reachable metadata scriptName name →
          (findScript metadata name).isSome ∧ ¬ OnCycle metadata name) ∧
      ∀ order log', resolveScriptDependencies metadata rounds scriptName log = some
        (true, order, log') →
        ExecutionOrder metadata scriptName order) ∧
    ∀ log, (∃ r, validateScripts metadata rounds log = some r) ∧
      ∀ log', validateScripts metadata rounds log = some (true, log') → ∀ script ∈ metadata.scripts,
        ∀ log, ∃ order, resolveScriptDependencies metadata rounds script.name log =
          some (true, order, log) := by
  have hsuccess : ∀ {scriptName log order log'},
      resolveScriptDependencies metadata rounds scriptName log = some (true, order, log') →
      ∃ s, resolveFrom metadata rounds scriptName log = some (true, s) ∧
        s.executionOrder = order := by
    intro scriptName log order log' h
    obtain ⟨⟨valid, s⟩, hs, heq⟩ := Option.map_eq_some_iff.mp h
    obtain ⟨rfl, hrest⟩ := Prod.mk.inj heq
    exact ⟨s, hs, (Prod.mk.inj hrest).1⟩
  refine ⟨fun scriptName log => ⟨?_, ?_, ?_⟩, fun log => ⟨?_, ?_⟩⟩
  · obtain ⟨r, hr⟩ := Option.ne_none_iff_exists'.mp
      (@resolveFrom_ends metadata rounds scriptName log hrounds)
    exact ⟨_, congrArg (Option.map _) hr⟩
  · rw [← @resolveFrom_iff metadata rounds scriptName log hrounds]
    constructor
    · rintro ⟨order, log', h⟩
      obtain ⟨s, hs, -⟩ := hsuccess h
      exact ⟨s, hs⟩
    · rintro ⟨s, hs⟩
      exact ⟨_, _, congrArg (Option.map _) hs⟩
  · intro order log' h
    obtain ⟨s, hs, rfl⟩ := hsuccess h
    exact executionOrder_of_search (resolveFrom_success hs).1
  · by_cases herrors : metadata.scripts.flatMap (checkScript metadata) = []
    · obtain ⟨r, hr⟩ := Option.ne_none_iff_exists'.mp
        (@checkCycles_ends metadata rounds hrounds metadata.scripts log)
      exact ⟨r, (if_pos herrors).trans hr⟩
    · exact ⟨_, if_neg herrors⟩
  · intro log' h script hs log''
    by_cases herrors : metadata.scripts.flatMap (checkScript metadata) = []
    · obtain ⟨visited, hv⟩ := checkCycles_true ((if_pos herrors).symm.trans h) script hs
      exact ⟨visited, congrArg (Option.map _) (resolveFrom_of_search hv)⟩
    · cases (if_neg herrors).symm.trans h

def buildAndTest : PackageMetadata :=
  ⟨[⟨['t'], some ['m'], [['b'], ['g'], ['b']]⟩, ⟨['b'], some ['m'], [['g']]⟩,
    ⟨['g'], some ['m'], []⟩]⟩

theorem script_order_three :
    buildAndTest.scripts.length < 4 ∧
      ExecutionOrder buildAndTest ['t'] [['g'], ['b'], ['t']] :=
  ⟨by decide,
    ((script_order buildAndTest 4 (by decide)).1 ['t'] []).2.2 [['g'], ['b'], ['t']] [] (by decide)⟩

end CxyCompiler.Package.Scripts
