import CxyCompiler.Middle.Scope

/-!
# Runs of an `Env` refine a stack of finite maps

The abstract state of an `Env` is the stack of the bindings of its open scopes, innermost first,
with the public builtins below it.

* `specStep` — what an operation does to the stack and what it answers.
* `Rel` — **the simulation relation**: the open scopes of the chain hold the maps of the stack and
  the recycled ones behind them hold nothing.
* `step_agrees` — one step of the `Env` agrees with one of the stack, but for a release of a scope
  that is not the first.
* `scope_run_refines` — **every run without such a release agrees with the run of the stack**.
-/

namespace CxyCompiler.Middle.Bind

open CxyCompiler.Core CxyCompiler.Lib.Simulation

inductive Op (N : Type) where
  | push (node : N)
  | pop
  | release
  | define (name : Name) (node : N)
  | update (name : Name) (node : N)
  | find (name : Name)

/-- What an operation answers. A release answers with what the other `Env` then finds. -/
inductive Answer (N : Type) where
  | done
  | defined (wasInserted : Bool)
  | found (node : Option N)
  | released (findSymbol : Name → Option (Option N))

/-- An `Env` with the memory its scopes are in. -/
structure State (N : Type) where
  memory : Memory N
  env : Env

/-- The bindings of the open scopes, innermost first. The `Env` is usable until its first scope is
released. -/
structure Stack (N : Type) where
  maps : List (Name → Option N)
  usable : Bool

section

variable {N : Type} [Inhabited N] (text : Name → String) (builtins : Builtins N)

def step (s : State N) : Op N → Option (State N × Answer N)
  | .push node => (pushScope s.memory s.env node).map fun (m, env) => (⟨m, env⟩, .done)
  | .pop => (popScope s.memory s.env).map fun (m, env) => (⟨m, env⟩, .done)
  | .release => (releaseScope s.memory s.env).map fun (m, env, into) =>
      (⟨m, env⟩, .released (findSymbol builtins m into))
  | .define name node => (defineSymbol text s.memory s.env name node).map fun (m, wasInserted) =>
      (⟨m, s.env⟩, .defined wasInserted)
  | .update name node => (updateSymbol text s.memory s.env name node).map fun m =>
      (⟨m, s.env⟩, .done)
  | .find name => (findSymbol builtins s.memory s.env name).map fun node => (s, .found node)

/-- The innermost binding of a name. -/
def lookup : List (Name → Option N) → Name → Option N
  | [], _ => none
  | b :: maps, name => (b name).or (lookup maps name)

/-- What an operation does to a stack of finite maps. -/
def specStep (a : Stack N) : Op N → Option (Stack N × Answer N)
  | .push _ => if a.usable then some ({ a with maps := (fun _ => none) :: a.maps }, .done) else none
  | .pop =>
      match a.maps with
      | [] => none
      | _ :: rest => some ({ a with maps := rest }, .done)
  | .release =>
      match a.maps with
      | [] => none
      | b :: rest => some (⟨rest, !rest.isEmpty⟩,
          .released fun name => some ((b name).or (findBuiltin builtins name)))
  | .define name node =>
      match a.maps with
      | [] => none
      | b :: rest =>
          if isIgnoreVar text name || (b name).isSome then some (a, .defined false)
          else some ({ a with maps := extend b name node :: rest }, .defined true)
  | .update name node =>
      match a.maps with
      | [] => none
      | b :: rest =>
          if isIgnoreVar text name then some (a, .done)
          else some ({ a with maps := extend b name node :: rest }, .done)
  | .find name => some (a, .found ((lookup a.maps name).or (findBuiltin builtins name)))

/-- A release finds the first scope the only open one. -/
def releasesFirst (s : State N) : Op N → Bool
  | .release => s.env.scope.isNone || s.env.scope == s.env.first
  | _ => true

/-! ## The simulation relation -/

/-- The bindings at each depth of a stack. -/
def levels : List (Name → Option N) → ℕ → Name → Option N
  | [], _ => fun _ => none
  | b :: maps, i => if i = maps.length then b else levels maps i

/-- **The simulation relation.** -/
inductive Rel : State N → Stack N → Prop
  | live {s : State N} {maps : List (Name → Option N)} (cs : List ℕ) (hne : cs ≠ [])
      (hlen : maps.length ≤ cs.length) (hfirst : s.env.first = cs[0]?)
      (hscope : s.env.scope = below cs maps.length) (hchain : Chain s.memory cs (levels maps)) :
      Rel s ⟨maps, true⟩
  | dead {s : State N} (hfirst : s.env.first = none) (hscope : s.env.scope = none) : Rel s
    ⟨[], false⟩

variable {text builtins} {m : Memory N} {cs : List ℕ} {maps : List (Name → Option N)}

omit [Inhabited N] in
theorem levels_of_le {i : ℕ} (h : maps.length ≤ i) : levels maps i = fun _ => none := by
  induction maps with
  | nil => rfl
  | cons b maps ih =>
      rw [List.length_cons] at h
      rw [levels, if_neg (by omega), ih (by omega)]

omit [Inhabited N] in
theorem visible_congr {f g : ℕ → Name → Option N} {d : ℕ} (h : ∀ i < d, f i = g i) (name : Name) :
    visible f name d = visible g name d := by
  induction d with
  | zero => rfl
  | succ d ih => rw [visible, visible, h d (by omega), ih fun i hi => h i (by omega)]

omit [Inhabited N] in
theorem visible_levels (maps : List (Name → Option N)) (name : Name) :
    visible (levels maps) name maps.length = lookup maps name := by
  induction maps with
  | nil => rfl
  | cons b maps ih =>
      rw [List.length_cons, visible, lookup, ← ih]
      congr 1
      · rw [levels, if_pos rfl]
      · apply visible_congr
        intro i hi
        rw [levels, if_neg (by omega)]

omit [Inhabited N] in
/-- The innermost scope of a chain with its links and its table. Kind: L -/
theorem Chain.innermost {b : Name → Option N} {rest : List (Name → Option N)}
    (hchain : Chain m cs (levels (b :: rest))) (hlen : (b :: rest).length ≤ cs.length) :
    ∃ c s, below cs (b :: rest).length = some c ∧ cs[rest.length]? = some c ∧
      m.scopes c = some s ∧ s.prev = below cs rest.length ∧ s.next = cs[rest.length + 1]? ∧
      TableOk s.symbols b := by
  have hc : cs[rest.length]? = some cs[rest.length] :=
    List.getElem?_eq_getElem (by rw [List.length_cons] at hlen; omega)
  obtain ⟨s, hs, hprev, hnext, htable⟩ := hchain.linked _ _ hc
  rw [levels, if_pos rfl] at htable
  exact ⟨_, s, hc, hc, hs, hprev, hnext, htable⟩

omit [Inhabited N] in
/-- Writing the table of the innermost scope changes the first map of the stack. Kind: L -/
theorem Chain.write_innermost {b b' : Name → Option N} {rest : List (Name → Option N)}
    (hchain : Chain m cs (levels (b :: rest))) {c : ℕ} (hc : cs[rest.length]? = some c)
      {s : Scope N}
    (hprev : s.prev = below cs rest.length) (hnext : s.next = cs[rest.length + 1]?)
    (htable : TableOk s.symbols b') : Chain (m.write c (some s)) cs (levels (b' :: rest)) := by
  have hwrite := hchain.write hc hprev hnext htable
  have hlevels : (fun j => if j = rest.length then b' else levels (b :: rest) j) =
      levels (b' :: rest) := by
    funext j
    rw [levels, levels]
    split_ifs <;> rfl
  rwa [hlevels] at hwrite

/-! ## One step -/

/-- A push enters a scope that holds nothing, and sets its node. Kind: L -/
theorem push_of_enter {m m' : Memory N} {env env' : Env}
    (henter : enterScope m env = some (m', env'))
    (hchain : Chain m' cs (levels maps)) (hlen : maps.length < cs.length)
    (hfirst : env'.first = cs[0]?) (hscope : env'.scope = cs[maps.length]?) (node : N) :
    ∃ s', step text builtins ⟨m, env⟩ (.push node) = some (s', .done) ∧
      Rel s' ⟨(fun _ => none) :: maps, true⟩ := by
  have hc : cs[maps.length]? = some cs[maps.length] := List.getElem?_eq_getElem hlen
  obtain ⟨s, hs, hprev, hnext, htable⟩ := hchain.linked _ _ hc
  refine ⟨⟨m'.write cs[maps.length] (some { s with node := some node }), env'⟩, ?_, ?_⟩
  · simp [step, pushScope, henter, hscope, hc, hs]
  · refine Rel.live cs (fun h => by simp [h] at hlen) hlen hfirst hscope ?_
    have hwrite := hchain.write (s := { s with node := some node }) hc hprev hnext htable
    rw [levels_of_le (Nat.le_refl _)] at hwrite
    exact hwrite

theorem push_agrees {s : State N} {a : Stack N} (h : Rel s a) (node : N) :
    Agrees Rel (step text builtins s (.push node)) (specStep text builtins a (.push node)) := by
  cases h with
  | dead hfirst hscope =>
      show step text builtins s (.push node) = none
      simp [step, pushScope, enterScope, hscope, hfirst]
  | @live maps cs hne hlen hfirst hscope hchain =>
      show ∃ s', step text builtins s (.push node) = some (s', .done) ∧
        Rel s' ⟨(fun _ => none) :: maps, true⟩
      cases maps with
      | nil =>
          have hscope' : s.env.scope = none := hscope
          have henter : enterScope s.memory s.env =
              some (s.memory, { s.env with scope := s.env.first }) := by
            rw [enterScope, hscope']
          exact push_of_enter henter hchain (List.length_pos_iff.mpr hne) hfirst hfirst node
      | cons b rest =>
          obtain ⟨c, sc, hbelow, hc, hsc, hprev, hnext, htable⟩ := hchain.innermost hlen
          rw [hbelow] at hscope
          rcases Nat.lt_or_ge (rest.length + 1) cs.length with hlt | hge
          · -- a recycled scope stands behind the innermost one
            have hn : cs[rest.length + 1]? = some cs[rest.length + 1] :=
              List.getElem?_eq_getElem hlt
            have henter : enterScope s.memory s.env =
                some (s.memory, { s.env with scope := some cs[rest.length + 1] }) := by
              simp [enterScope, hscope, hsc, hnext, hn]
            exact push_of_enter henter hchain hlt hfirst hn.symm node
          · have hlen' : cs.length = rest.length + 1 := by
              rw [List.length_cons] at hlen
              omega
            obtain ⟨m', hnew, hchain'⟩ := hchain.newScope hlen' hc
            have hlevels : (fun j => if j = rest.length + 1 then fun _ => none
                else levels (b :: rest) j) = levels (b :: rest) := by
              funext j
              split_ifs with hj
              · rw [levels_of_le (by rw [hj, List.length_cons])]
              · rfl
            rw [hlevels] at hchain'
            have henter : enterScope s.memory s.env =
                some (m', { s.env with scope := some s.memory.fresh }) := by
              simp [enterScope, hscope, hsc, hnext, List.getElem?_eq_none hge, hnew]
            refine push_of_enter henter hchain' (by simp [hlen']) ?_ ?_ node
            · rw [List.getElem?_append_left (by omega)]
              exact hfirst
            · rw [List.getElem?_append_right (by simp [hlen'])]
              simp [hlen']

theorem pop_agrees {s : State N} {a : Stack N} (h : Rel s a) :
    Agrees Rel (step text builtins s .pop) (specStep text builtins a .pop) := by
  cases h with
  | dead hfirst hscope =>
      show step text builtins s .pop = none
      simp [step, popScope, hscope]
  | @live maps cs hne hlen hfirst hscope hchain =>
      cases maps with
      | nil =>
          have hscope' : s.env.scope = none := hscope
          show step text builtins s .pop = none
          simp [step, popScope, hscope']
      | cons b rest =>
          obtain ⟨c, sc, hbelow, hc, hsc, hprev, hnext, htable⟩ := hchain.innermost hlen
          rw [hbelow] at hscope
          refine ⟨⟨s.memory.write c (some { sc with symbols := clearHashTable sc.symbols }),
            { s.env with scope := sc.prev }⟩, ?_, ?_⟩
          · simp [step, popScope, hscope, hsc]
          · refine Rel.live cs hne (by rw [List.length_cons] at hlen; omega) hfirst hprev ?_
            have hwrite := hchain.write_innermost
              (s := { sc with symbols := clearHashTable sc.symbols }) hc hprev hnext htable.clear
            have hlevels : levels ((fun _ => none) :: rest) = levels rest := by
              funext j
              rw [levels]
              split_ifs with hj
              · rw [levels_of_le (Nat.le_of_eq hj.symm)]
              · rfl
            rwa [hlevels] at hwrite

theorem define_agrees {s : State N} {a : Stack N} (h : Rel s a) (name : Name) (node : N) :
    Agrees Rel (step text builtins s (.define name node))
      (specStep text builtins a (.define name node)) := by
  cases h with
  | dead hfirst hscope =>
      show step text builtins s (.define name node) = none
      simp [step, defineSymbol, hscope]
  | @live maps cs hne hlen hfirst hscope hchain =>
      cases maps with
      | nil =>
          have hscope' : s.env.scope = none := hscope
          show step text builtins s (.define name node) = none
          simp [step, defineSymbol, hscope']
      | cons b rest =>
          obtain ⟨c, sc, hbelow, hc, hsc, hprev, hnext, htable⟩ := hchain.innermost hlen
          have hrel : Rel s ⟨b :: rest, true⟩ := Rel.live cs hne hlen hfirst hscope hchain
          rw [hbelow] at hscope
          unfold specStep
          dsimp only
          by_cases hign : isIgnoreVar text name = true
          · rw [hign, Bool.true_or, if_pos rfl]
            exact ⟨s, by simp [step, defineSymbol, hscope, hign], hrel⟩
          · obtain ⟨t, hins, htable'⟩ := htable.insert name node
            rw [Bool.not_eq_true] at hign
            have hstep : step text builtins s (.define name node) =
                some (⟨s.memory.write c (some { sc with symbols := t }), s.env⟩,
                  .defined (b name).isNone) := by
              simp [step, defineSymbol, hscope, hign, hsc, hins]
            have hwrite := hchain.write_innermost (s := { sc with symbols := t }) hc hprev hnext
              htable'
            have hscope' : s.env.scope = below cs (b :: rest).length := by rw [hscope, hbelow]
            rw [hign, Bool.false_or, hstep]
            cases hb : b name with
            | none =>
                rw [hb] at hwrite
                exact ⟨_, rfl, Rel.live cs hne hlen hfirst hscope' hwrite⟩
            | some old =>
                rw [hb] at hwrite
                exact ⟨_, rfl, Rel.live cs hne hlen hfirst hscope' hwrite⟩

theorem update_agrees {s : State N} {a : Stack N} (h : Rel s a) (name : Name) (node : N) :
    Agrees Rel (step text builtins s (.update name node))
      (specStep text builtins a (.update name node)) := by
  cases h with
  | dead hfirst hscope =>
      show step text builtins s (.update name node) = none
      simp [step, updateSymbol, hscope]
  | @live maps cs hne hlen hfirst hscope hchain =>
      cases maps with
      | nil =>
          have hscope' : s.env.scope = none := hscope
          show step text builtins s (.update name node) = none
          simp [step, updateSymbol, hscope']
      | cons b rest =>
          obtain ⟨c, sc, hbelow, hc, hsc, hprev, hnext, htable⟩ := hchain.innermost hlen
          have hrel : Rel s ⟨b :: rest, true⟩ := Rel.live cs hne hlen hfirst hscope hchain
          have hscope' := hscope
          rw [hbelow] at hscope
          unfold specStep
          dsimp only
          by_cases hign : isIgnoreVar text name = true
          · rw [hign, if_pos rfl]
            exact ⟨s, by simp [step, updateSymbol, hscope, hign], hrel⟩
          · rw [if_neg hign]
            rw [Bool.not_eq_true] at hign
            obtain ⟨t, hins, htable'⟩ := htable.insert name node
            -- either way the table then holds the new binding
            obtain ⟨t', hupdate, hok⟩ : ∃ t', updateSymbol text s.memory s.env name node =
                some (s.memory.write c (some { sc with symbols := t' })) ∧
                TableOk t' (extend b name node) := by
              cases hb : b name with
              | none =>
                  rw [hb] at hins htable'
                  exact ⟨t, by simp [updateSymbol, hscope, hign, hsc, hins], htable'⟩
              | some old =>
                  rw [hb] at hins htable'
                  simp only [Option.isNone_some, Bool.false_eq_true, if_false] at htable' hins
                  rcases htable'.find name node with ⟨i, hfind, hi, hocc, hname, -⟩ | ⟨-, hnone⟩
                  · refine ⟨t.store i (t.hashes i) { t.elems i with node := node }, ?_, ?_⟩
                    · simp [updateSymbol, hscope, hign, hsc, hins, hfind]
                    · have hok := htable'.rebind hi hocc node
                      rwa [hname] at hok
                  · rw [hb] at hnone
                    simp at hnone
            refine ⟨⟨s.memory.write c (some { sc with symbols := t' }), s.env⟩, ?_, ?_⟩
            · simp [step, hupdate]
            · exact Rel.live cs hne hlen hfirst hscope'
                (hchain.write_innermost (s := { sc with symbols := t' }) hc hprev hnext hok)

/-- `findSymbol` returns the innermost binding, or else the public builtin. Kind: L -/
theorem Rel.findSymbol_eq {s : State N} {a : Stack N} (h : Rel s a) (name : Name) :
    findSymbol builtins s.memory s.env name =
      some ((lookup a.maps name).or (findBuiltin builtins name)) := by
  cases h with
  | dead hfirst hscope =>
      unfold findSymbol
      rw [hscope]
      cases s.memory.fresh <;> rfl
  | @live maps cs hne hlen hfirst hscope hchain =>
      rw [hchain.findSymbol_eq builtins hlen hscope, visible_levels]

omit [Inhabited N] in
/-- Freeing the recycled scopes leaves the others as they are. Kind: L -/
theorem Chain.freeScopes_eq {f : ℕ → Name → Option N} (h : Chain m cs f) (k : ℕ) :
    ∀ (i fuel : ℕ) (m' : Memory N), i + k = cs.length → k ≤ fuel →
      (∀ j c, i ≤ j → cs[j]? = some c → m'.scopes c = m.scopes c) →
      ∃ m'', freeScopes fuel m' cs[i]? = some m'' ∧ m''.fresh = m'.fresh ∧
        ∀ c, (∀ j, i ≤ j → cs[j]? ≠ some c) → m''.scopes c = m'.scopes c := by
  induction k with
  | zero =>
      intro i fuel m' hi _ _
      rw [List.getElem?_eq_none (by omega)]
      refine ⟨m', ?_, rfl, fun _ _ => rfl⟩
      cases fuel <;> rfl
  | succ k ih =>
      intro i fuel m' hi hfuel hsame
      obtain ⟨fuel, rfl⟩ : ∃ n, fuel = n + 1 := ⟨fuel - 1, by omega⟩
      have hc : cs[i]? = some cs[i] := List.getElem?_eq_getElem (by omega)
      obtain ⟨s, hs, -, hnext, -⟩ := h.linked _ _ hc
      have hs' := hsame i _ (Nat.le_refl _) hc
      obtain ⟨m'', hfree, hfresh, hkeep⟩ := ih (i + 1) fuel (m'.write cs[i] none) (by omega)
        (by omega) (by
          intro j c hj hjc
          have hne : c ≠ cs[i] := by
            rintro rfl
            have := h.index_unique hjc hc
            omega
          simp only [Memory.write, if_neg hne]
          exact hsame j c (by omega) hjc)
      refine ⟨m'', ?_, hfresh, ?_⟩
      · rw [hc]
        simp only [freeScopes, hs', hs, Option.bind_eq_bind, Option.bind_some, hnext, hfree]
      · intro c hno
        rw [hkeep c fun j hj => hno j (by omega)]
        have hne : c ≠ cs[i] := by
          rintro rfl
          exact hno i (Nat.le_refl _) hc
        simp only [Memory.write, if_neg hne]

theorem release_agrees {s : State N} {a : Stack N} (h : Rel s a)
    (hcond : releasesFirst s .release = true) :
    Agrees Rel (step text builtins s .release) (specStep text builtins a .release) := by
  cases h with
  | dead hfirst hscope =>
      show step text builtins s .release = none
      simp [step, releaseScope, hscope]
  | @live maps cs hne hlen hfirst hscope hchain =>
      cases maps with
      | nil =>
          have hscope' : s.env.scope = none := hscope
          show step text builtins s .release = none
          simp [step, releaseScope, hscope']
      | cons b rest =>
          obtain ⟨c, sc, hbelow, hc, hsc, hprev, hnext, htable⟩ := hchain.innermost hlen
          rw [hbelow] at hscope
          have heq : s.env.first = some c := by
            rw [releasesFirst, hscope, Option.isNone_some, Bool.false_or, beq_iff_eq] at hcond
            exact hcond.symm
          -- the innermost scope is the first one
          have hrest : rest.length = 0 := by
            rw [hfirst] at heq
            exact (hchain.index_unique heq hc).symm
          obtain rfl := List.length_eq_zero_iff.mp hrest
          obtain ⟨m', hfree, hfresh, hkeep⟩ := hchain.freeScopes_eq (cs.length - 1) 1 s.memory.fresh
            s.memory (by rw [List.length_singleton] at hlen; omega)
            ((Nat.sub_le _ _).trans hchain.length_le) fun _ _ _ _ => rfl
          have hsc' : m'.scopes c = some sc := by
            rw [hkeep c ?_, hsc]
            intro j hj hjc
            have := hchain.index_unique hjc hc
            rw [List.length_nil] at this
            omega
          have hchain' : Chain (m'.write c (some { sc with next := none })) [c] fun _ => b := by
            refine ⟨List.nodup_singleton c, ?_, ?_⟩
            · intro a ha
              rw [List.mem_singleton.mp ha]
              show c < m'.fresh
              rw [hfresh]
              exact hchain.bound c (List.mem_of_getElem? hc)
            · intro i a hi
              have hi0 : i = 0 := by
                have := (List.getElem?_eq_some_iff.mp hi).1
                rw [List.length_singleton] at this
                omega
              subst hi0
              rw [List.getElem?_cons_zero, Option.some.injEq] at hi
              subst hi
              exact ⟨{ sc with next := none }, if_pos rfl, hprev, rfl, htable⟩
          refine ⟨⟨m'.write c (some { sc with next := none }), ⟨none, none⟩⟩, ?_,
            Rel.dead rfl rfl⟩
          have hfind : findSymbol builtins (m'.write c (some { sc with next := none }))
              ⟨some c, some c⟩ = fun name => some ((b name).or (findBuiltin builtins name)) := by
            funext name
            rw [hchain'.findSymbol_eq builtins (Nat.le_refl 1) rfl]
            rw [visible, visible, Option.or_none]
          have hnext' : sc.next = cs[1]? := hnext
          simp [step, releaseScope, hscope, heq, hsc, hnext', hfree, hsc', hfind]

/-- **One step agrees with the stack**, but for a release of a scope that is not the first.
Kind: P -/
theorem step_agrees (s : State N) (a : Stack N) (op : Op N) (h : Rel s a)
    (hcond : releasesFirst s op = true) :
    Agrees Rel (step text builtins s op) (specStep text builtins a op) := by
  cases op with
  | push node => exact push_agrees h node
  | pop => exact pop_agrees h
  | release => exact release_agrees h hcond
  | define name node => exact define_agrees h name node
  | update name node => exact update_agrees h name node
  | find name => exact ⟨s, by simp [step, h.findSymbol_eq], h⟩

/-! ## Runs -/

/-- The state of a new `Env`. -/
def start (m : Memory N) (node : N) : Option (State N) :=
  (environmentInit m node).map fun (m, env) => ⟨m, env⟩

theorem start_rel (m : Memory N) (node : N) :
    ∃ s₀, start m node = some s₀ ∧ Rel s₀ ⟨[fun _ => none], true⟩ := by
  have hchain : Chain { m.write m.fresh (some ⟨newHashTable, none, none, none⟩) with
      fresh := m.fresh + 1 } [m.fresh] (levels []) := by
    refine ⟨List.nodup_singleton _, by simp, ?_⟩
    intro i c hi
    have hi0 : i = 0 := by
      have := (List.getElem?_eq_some_iff.mp hi).1
      rw [List.length_singleton] at this
      omega
    subst hi0
    rw [List.getElem?_cons_zero, Option.some.injEq] at hi
    subst hi
    exact ⟨_, if_pos rfl, rfl, rfl, TableOk.new⟩
  have henter : enterScope { m.write m.fresh (some ⟨newHashTable, none, none, none⟩) with
      fresh := m.fresh + 1 } ⟨none, some m.fresh⟩ = some (_, ⟨some m.fresh, some m.fresh⟩) := rfl
  let noBuiltins : Builtins N := ⟨false, fun _ => none, fun _ => false⟩
  obtain ⟨s, hpush, hrel⟩ := @push_of_enter N _ (fun _ => "") noBuiltins _ _ _ _ _ _ henter hchain
    (Nat.zero_lt_one) rfl rfl node
  refine ⟨s, ?_, hrel⟩
  obtain ⟨p, hp, hs⟩ := Option.map_eq_some_iff.mp hpush
  rw [Prod.mk.injEq] at hs
  rw [← hs.1, start, environmentInit, newScope]
  simp only [Option.bind_eq_bind, Option.bind_some]
  rw [hp]
  rfl

variable (text builtins) in
/-- **Every run of an `Env` agrees with the run of a stack of finite maps**, where no scope is
released but the first: the answers are the same, and in every state `findSymbol` returns the
innermost binding or else the public builtin. Kind: P -/
theorem scope_run_refines (m : Memory N) (node : N) (ops : List (Op N))
    (hcond : ∀ s₀, start m node = some s₀ →
      allBefore (step text builtins) releasesFirst s₀ ops = true) :
    ∃ s₀, start m node = some s₀ ∧ ∀ pre post, ops = pre ++ post →
      Agrees (fun s a => ∀ name, findSymbol builtins s.memory s.env name =
          some ((lookup a.maps name).or (findBuiltin builtins name)))
        (runWith (step text builtins) s₀ pre)
        (runWith (specStep text builtins) ⟨[fun _ => none], true⟩ pre) := by
  obtain ⟨s₀, hstart, hrel⟩ := start_rel m node
  refine ⟨s₀, hstart, ?_⟩
  rintro pre post rfl
  have hrun := run_agrees (@step_agrees N _ text builtins) pre s₀ _ hrel
    (allBefore_append pre post s₀ (hcond s₀ hstart))
  exact hrun.mono fun s a h => h.findSymbol_eq

end

def noBuiltins : Builtins ℕ := ⟨false, fun _ => none, fun _ => false⟩

/-- A name is shadowed and rebound in an inner scope, and the scope is entered again. Kind: L -/
theorem scope_run_refines_shadow :
    ∃ s₀, start (N := ℕ) ⟨fun _ => none, 0⟩ 0 = some s₀ ∧ ∀ pre post,
      [Op.define 1 10, .push 1, .define 1 11, .update 1 12, .find 1,
        .pop, .find 1, .push 2, .find 1] =
        pre ++ post →
      Agrees (fun s a => ∀ name, findSymbol noBuiltins s.memory s.env name =
          some ((lookup a.maps name).or (findBuiltin noBuiltins name)))
        (runWith (step (fun _ => "x") noBuiltins) s₀ pre)
        (runWith (specStep (fun _ => "x") noBuiltins) ⟨[fun _ => none], true⟩ pre) := by
  apply scope_run_refines
  intro s₀ hs₀
  have h : ((start (N := ℕ) ⟨fun _ => none, 0⟩ 0).map fun s₀ =>
      allBefore (step (fun _ => "x") noBuiltins) releasesFirst s₀ [.define 1 10, .push 1,
        .define 1 11, .update 1 12, .find 1, .pop, .find 1, .push 2, .find 1]) = some true := by
    decide +kernel
  rw [hs₀] at h
  exact Option.some.inj h

/-- A name defined in the first scope is not found any more after an inner scope was pushed and
released. Kind: L -/
theorem release_loses_scopes :
    ∃ s₀, start (N := ℕ) ⟨fun _ => none, 0⟩ 0 = some s₀ ∧
      ¬ Agrees (fun s a => ∀ name, findSymbol noBuiltins s.memory s.env name =
          some ((lookup a.maps name).or (findBuiltin noBuiltins name)))
        (runWith (step (fun _ => "x") noBuiltins) s₀ [.define 1 10, .push 1, .release])
        (runWith (specStep (fun _ => "x") noBuiltins) ⟨[fun _ => none], true⟩
          [.define 1 10, .push 1, .release]) := by
  obtain ⟨s₀, hs₀, -⟩ := start_rel (N := ℕ) ⟨fun _ => none, 0⟩ 0
  refine ⟨s₀, hs₀, ?_⟩
  have hrun : ((start (N := ℕ) ⟨fun _ => none, 0⟩ 0).bind fun s₀ =>
      (runWith (step (fun _ => "x") noBuiltins) s₀ [.define 1 10, .push 1, .release]).map fun p =>
        findSymbol noBuiltins p.1.memory p.1.env 1) = some (some none) := by decide
  rw [hs₀, Option.bind_some] at hrun
  obtain ⟨p, hp, hnone⟩ := Option.map_eq_some_iff.mp hrun
  rw [hp]
  rintro ⟨s, hs, hfind⟩
  rw [Option.some.injEq] at hs
  have hname := hfind 1
  rw [hs] at hnone
  rw [hnone] at hname
  simp [lookup, extend] at hname

end CxyCompiler.Middle.Bind
