import CxyCompiler.Lib.EditDistance
import CxyCompiler.Lib.Search
import CxyCompiler.Middle.ScopeRuns

/-!
# Spelling suggestions (`lang/middle/bind/scope.c`)

Where a name is not found, the nearest name of the open scopes is suggested. The distance is
computed within a budget; what is returned beyond it is only known to be larger.

* `levenshteinDistance`, `suggestSimilarSymbol` — the functions; the suggestion is the symbol that
  the note is about.
* `levenshteinDistance_spec` — **within its budget the distance is the edit distance**.
* `IsNearest` — a visible symbol of least distance, if that is below two.
* `spelling_suggestions` — both, for all texts and in every state of an `Env`, of the symbols of the
  open scopes and for names of more than two characters. `suggestions_missed`: a short name gets no
  suggestion, and a builtin is never one.
-/

namespace CxyCompiler.Middle.Bind

open CxyCompiler.Core CxyCompiler.Lib.EditDistance CxyCompiler.Lib.Search

/-! ## The functions -/

/-- Of strings without their ends. Source: `scope.c` `levenshteinDistance`. -/
def levenshteinDistance : List UInt8 → List UInt8 → ℕ → ℕ
  | [], rhs, _ => rhs.length
  | l :: lhs, [], _ => (l :: lhs).length
  | l :: lhs, r :: rhs, minDist =>
      if l = r then levenshteinDistance lhs rhs minDist
      else
        match minDist with
        | 0 => 1
        | minDist + 1 =>
            let a := levenshteinDistance lhs (r :: rhs) minDist
            let b := levenshteinDistance (l :: lhs) rhs minDist
            let c := levenshteinDistance lhs rhs minDist
            1 + min c (min a b)
termination_by lhs rhs _ => lhs.length + rhs.length

section

variable {N : Type} (text : Name → List UInt8) (name : Name)

/-- The bound and the similar symbol after one more symbol. Source: `scope.c`
`suggestSimilarSymbol`. -/
def suggestSymbol (best : ℕ × Option (Symbol N)) (symbol : Symbol N) : ℕ × Option (Symbol N) :=
  let dist := levenshteinDistance (text name) (text symbol.name) best.1
  if dist < best.1 then (dist, some symbol) else best

/-- The loop over the buckets of a scope. Source: `scope.c` `suggestSimilarSymbol`. -/
def suggestTable (t : HashTable (Symbol N))
    (best : ℕ × Option (Symbol N)) : ℕ × Option (Symbol N) :=
  (List.range t.capacity).foldl (fun best i =>
    if isBucketOccupied t i then suggestSymbol text name best (t.elems i) else best) best

/-- The loop over the scopes; a walk longer than the number of allocated scopes never ends.
Source: `scope.c` `suggestSimilarSymbol`. -/
def suggestLoop (m : Memory N) : ℕ → Option ℕ → ℕ × Option (Symbol N) →
    Option (ℕ × Option (Symbol N))
  | _, none, best => some best
  | 0, some _, _ => none
  | fuel + 1, some a, best => do
      let s ← m.scopes a
      suggestLoop m fuel s.prev (suggestTable text name s.symbols best)

/-- The symbol that a note suggests. Source: `scope.c` `suggestSimilarSymbol`. -/
def suggestSimilarSymbol (m : Memory N) (env : Env) : Option (Option (Symbol N)) :=
  let minDist := 2
  if (text name).length ≤ minDist then some none
  else (suggestLoop text name m m.fresh env.scope (minDist, none)).map Prod.snd

end

/-! ## The distance -/

theorem distance_pos {x y : UInt8} (h : x ≠ y)
    (xs ys : List UInt8) : 0 < distance (x :: xs) (y :: ys) := by
  rw [distance_cons_cons, if_neg h]
  omega

/-- **The distance is the edit distance, or both are above the budget.** The induction is on the
texts; an equal first character leaves the budget as it is, since the edit distance leaves it alone
too. Kind: P -/
theorem levenshteinDistance_spec (a b : List UInt8) (m : ℕ) :
    levenshteinDistance a b m = distance a b ∨
      (m < levenshteinDistance a b m ∧ m < distance a b) := by
  fun_induction levenshteinDistance a b m with
  | case1 rhs m => exact Or.inl (distance_nil_left rhs).symm
  | case2 l lhs m => exact Or.inl (distance_nil_right (l :: lhs)).symm
  | case3 l lhs m rhs ih =>
      rw [distance_cons_self]
      exact ih
  | case4 l lhs r rhs hne => exact Or.inr ⟨Nat.zero_lt_one, distance_pos hne lhs rhs⟩
  | case5 l lhs r rhs hne m a b c iha ihb ihc =>
      rw [distance_cons_cons, if_neg hne]
      omega

/-- A distance is found below the budget if it is there. Kind: L -/
theorem levenshteinDistance_lt_iff (a b : List UInt8) (m : ℕ) :
    levenshteinDistance a b m < m ↔ distance a b < m := by
  rcases levenshteinDistance_spec a b m with h | ⟨h, h'⟩
  · rw [h]
  · omega

/-! ## The symbols of the scopes -/

variable {N : Type} {text : Name → List UInt8} {name : Name} {m : Memory N} {cs : List ℕ}
  {f : ℕ → Name → Option N}

/-- How far the name is from that of a symbol. -/
def cost (text : Name → List UInt8) (name : Name) (s : Symbol N) : ℕ :=
  distance (text name) (text s.name)

theorem suggestSymbol_eq : @suggestSymbol N text name = nearer (cost text name) := by
  funext best s
  unfold suggestSymbol nearer cost
  dsimp only
  by_cases h : distance (text name) (text s.name) < best.1
  · rw [if_pos ((levenshteinDistance_lt_iff _ _ _).mpr h), if_pos h]
    rcases levenshteinDistance_spec (text name) (text s.name) best.1 with heq | ⟨-, hlt⟩
    · rw [heq]
    · omega
  · rw [if_neg (fun hlt => h ((levenshteinDistance_lt_iff _ _ _).mp hlt)), if_neg h]

/-- The symbols of a table, in the order of its buckets. -/
def symbolsOf (t : HashTable (Symbol N)) : List (Symbol N) := (entries t).map Prod.snd

theorem suggestTable_eq (t : HashTable (Symbol N)) (best : ℕ × Option (Symbol N)) :
    suggestTable text name t best = (symbolsOf t).foldl (nearer (cost text name)) best := by
  unfold suggestTable symbolsOf entries Lib.Probing.contents
  rw [suggestSymbol_eq]
  generalize List.range t.capacity = is
  induction is generalizing best with
  | nil => rfl
  | cons i is ih =>
      rw [List.foldl_cons, ih, List.filterMap_cons]
      unfold slot
      by_cases hocc : isBucketOccupied t i = true
      · rw [if_pos hocc, if_pos hocc]
        rfl
      · rw [if_neg hocc, if_neg hocc]

/-- The symbols of the open scopes, the innermost first. -/
def openSymbols (m : Memory N) (cs : List ℕ) : ℕ → List (Symbol N)
  | 0 => []
  | d + 1 => ((below cs (d + 1)).bind m.scopes).elim [] (fun s => symbolsOf s.symbols) ++
      openSymbols m cs d

theorem mem_symbolsOf {t : HashTable (Symbol N)} {b : Name → Option N} (h : TableOk t b)
    {s : Symbol N} :
    s ∈ symbolsOf t ↔ b s.name = some s.node := by
  unfold symbolsOf
  rw [List.mem_map, h.lookup]
  constructor
  · rintro ⟨e, he, rfl⟩
    exact ⟨e, he, rfl, rfl⟩
  · rintro ⟨e, he, hname, hnode⟩
    refine ⟨e, he, ?_⟩
    rcases e with ⟨hash, symbol⟩
    rcases symbol with ⟨n, node⟩
    rcases s with ⟨n', node'⟩
    exact congrArg₂ Symbol.mk hname hnode

theorem openSymbols_succ (h : Chain m cs f) {d : ℕ}
    (hd : d < cs.length) : ∃ s, m.scopes cs[d] = some s ∧
    s.prev = below cs d ∧ TableOk s.symbols (f d) ∧
    openSymbols m cs (d + 1) = symbolsOf s.symbols ++ openSymbols m cs d := by
  have hget : cs[d]? = some cs[d] := List.getElem?_eq_getElem hd
  obtain ⟨s, hs, hprev, -, htable⟩ := h.linked d _ hget
  refine ⟨s, hs, hprev, htable, ?_⟩
  have hbelow : below cs (d + 1) = some cs[d] := hget
  rw [openSymbols, hbelow, Option.bind_some, hs]
  rfl

theorem suggestLoop_eq (h : Chain m cs f) (d : ℕ) : ∀ (fuel : ℕ) (best : ℕ × Option (Symbol N)),
    d ≤ cs.length → d ≤ fuel → suggestLoop text name m fuel (below cs d) best =
      some ((openSymbols m cs d).foldl (nearer (cost text name)) best) := by
  induction d with
  | zero => intro fuel best _ _; cases fuel <;> rfl
  | succ d ih =>
      intro fuel best hd hfuel
      obtain ⟨fuel, rfl⟩ : ∃ k, fuel = k + 1 := ⟨fuel - 1, by omega⟩
      obtain ⟨s, hs, hprev, -, hsymbols⟩ := openSymbols_succ h (Nat.lt_of_succ_le hd)
      have hbelow : below cs (d + 1) = some cs[d] := List.getElem?_eq_getElem (Nat.lt_of_succ_le hd)
      rw [hbelow, suggestLoop, hs]
      change suggestLoop text name m fuel s.prev _ = _
      rw [hprev, ih fuel _ (by omega) (by omega), suggestTable_eq, hsymbols, List.foldl_append]

/-- A visible binding is that of a symbol. Kind: L -/
theorem mem_openSymbols (h : Chain m cs f) {n : Name} {node : N} (d : ℕ) (hd : d ≤ cs.length)
    (hvisible : visible f n d = some node) : ⟨n, node⟩ ∈ openSymbols m cs d := by
  induction d with
  | zero => exact absurd hvisible (Option.some_ne_none node).symm
  | succ d ih =>
      obtain ⟨s, -, -, htable, hsymbols⟩ := openSymbols_succ h (Nat.lt_of_succ_le hd)
      rw [hsymbols, List.mem_append, mem_symbolsOf htable]
      rw [visible] at hvisible
      cases hf : f d n with
      | some node' =>
          rw [hf, Option.some_or] at hvisible
          exact Or.inl hvisible
      | none =>
          rw [hf, Option.none_or] at hvisible
          exact Or.inr (ih (by omega) hvisible)

theorem mem_or_split {β : Type} {as bs pre post : List β} {x : β}
    (h : as ++ bs = pre ++ x :: post) :
    x ∈ as ∨ ∃ rest, pre = as ++ rest ∧ bs = rest ++ x :: post := by
  rcases List.append_eq_append_iff.mp h with ⟨rest, hpre, hbs⟩ | ⟨rest, has, hrest⟩
  · exact Or.inr ⟨rest, hpre, hbs⟩
  · cases rest with
    | nil =>
        rw [List.append_nil] at has
        exact Or.inr ⟨[], by rw [List.append_nil, has], hrest.symm⟩
    | cons z rest =>
        obtain ⟨rfl, -⟩ := List.cons.inj hrest
        exact Or.inl (has ▸ List.mem_append_right pre List.mem_cons_self)

/-- The first symbol of a name has the visible binding. Kind: L -/
theorem visible_of_first (h : Chain m cs f) (d : ℕ) (hd : d ≤ cs.length)
    {pre post : List (Symbol N)}
    {x : Symbol N} (hsplit : openSymbols m cs d = pre ++ x :: post)
      (hpre : ∀ y ∈ pre, y.name ≠ x.name) :
    visible f x.name d = some x.node := by
  induction d generalizing pre with
  | zero =>
      have hlength := congrArg List.length hsplit
      rw [List.length_append, List.length_cons] at hlength
      exact absurd hlength (Nat.ne_of_lt (by change 0 < _; omega))
  | succ d ih =>
      obtain ⟨s, -, -, htable, hsymbols⟩ := openSymbols_succ h (Nat.lt_of_succ_le hd)
      rw [hsymbols] at hsplit
      rw [visible]
      rcases mem_or_split hsplit with hmem | ⟨rest, rfl, hrest⟩
      · rw [(mem_symbolsOf htable).mp hmem, Option.some_or]
      · have hnone : f d x.name = none := by
          rw [Option.eq_none_iff_forall_ne_some]
          intro node hf
          have hmem := (@mem_symbolsOf N _ _ htable ⟨x.name, node⟩).mpr hf
          exact hpre ⟨x.name, node⟩ (List.mem_append_left rest hmem) rfl
        rw [hnone, Option.none_or]
        exact ih (by omega) hrest fun y hy => hpre y (List.mem_append_right _ hy)

/-! ## What is suggested -/

/-- A visible symbol whose name is nearest, with fewer than two edits; and no symbol if no visible
name is as near. -/
def IsNearest (vis : Name → Option N) (text : Name → List UInt8)
    (name : Name) : Option (Symbol N) → Prop
  | none => ∀ n node, vis n = some node → 2 ≤ distance (text name) (text n)
  | some s => vis s.name = some s.node ∧ distance (text name) (text s.name) < 2 ∧
      ∀ n node, vis n = some node → distance (text name) (text s.name) ≤ distance (text name)
        (text n)

/-- **The nearest of the symbols of the open scopes is suggested**, for a name of more than two
characters. Kind: P -/
theorem suggest_of_chain (text : Name → List UInt8) (name : Name) (h : Chain m cs f) {env : Env}
    {d : ℕ}
    (hd : d ≤ cs.length) (henv : env.scope = below cs d) (hlong : ¬ (text name).length ≤ 2) :
    ∃ r, suggestSimilarSymbol text name m env = some r ∧
      IsNearest (fun n => visible f n d) text name r := by
  unfold suggestSimilarSymbol
  dsimp only
  rw [if_neg hlong, henv, suggestLoop_eq h d _ _ hd (hd.trans h.length_le), Option.map_some]
  refine ⟨_, rfl, ?_⟩
  rcases nearest_spec (cost text name) (openSymbols m cs d) 2 with
    ⟨hfold, hall⟩ | ⟨pre, x, post, hsplit, hfold, hlt, hpre, hpost⟩
  · rw [hfold]
    exact fun n node hvisible => hall _ (mem_openSymbols h d hd hvisible)
  · rw [hfold]
    refine ⟨visible_of_first h d hd hsplit ?_, hlt, ?_⟩
    · rintro y hy hname
      have hless := hpre y hy
      unfold cost at hless
      rw [hname] at hless
      exact lt_irrefl _ hless
    · intro n node hvisible
      have hmem := mem_openSymbols h d hd hvisible
      rw [hsplit] at hmem
      rcases List.mem_append.mp hmem with hmem | hmem
      · exact (hpre _ hmem).le
      · rcases List.mem_cons.mp hmem with rfl | hmem
        · exact le_refl _
        · exact hpost _ hmem

/-- A short name gets no suggestion. Kind: L -/
theorem suggest_short {text : Name → List UInt8} {name : Name} (hshort : (text name).length ≤ 2)
    (m : Memory N) (env : Env) :
    suggestSimilarSymbol text name m env = some none := if_pos hshort

/-- What is suggested in a state that corresponds to a stack of scopes. Kind: L -/
theorem suggest_of_rel [Inhabited N] {s : State N} {a : Stack N} (h : Rel s a)
    (text : Name → List UInt8) (name : Name)
    (hlong : ¬ (text name).length ≤ 2) :
    ∃ r, suggestSimilarSymbol text name s.memory s.env = some r ∧
      IsNearest (lookup a.maps) text name r := by
  cases h with
  | @live maps cs hne hlen hfirst hscope hchain =>
      obtain ⟨r, hr, hnearest⟩ := suggest_of_chain text name hchain hlen hscope hlong
      refine ⟨r, hr, ?_⟩
      have hvisible : (fun n => visible (levels maps) n maps.length) = lookup maps :=
        funext (visible_levels maps)
      rwa [hvisible] at hnearest
  | dead hfirst hscope =>
      refine ⟨none, ?_, fun n node hnone => absurd hnone (Option.some_ne_none node).symm⟩
      unfold suggestSimilarSymbol
      dsimp only
      rw [if_neg hlong, hscope]
      cases s.memory.fresh <;> rfl

/-- **Within its budget the distance is the least number of edits**, and beyond it larger than the
budget; in every state of an `Env` the suggestion for a name of more than two characters is a symbol
of the open scopes of least distance, if that is below two, and one that `findSymbol` finds.
Kind: P -/
theorem spelling_suggestions [Inhabited N] :
    (∀ a b m, ∃ k, IsLeast {n | Edits n a b} k ∧ (k ≤ m → levenshteinDistance a b m = k) ∧
      (m < k → m < levenshteinDistance a b m)) ∧
    ∀ (text : Name → List UInt8) (name : Name) (s : State N) (a : Stack N), Rel s a →
      ∃ r, suggestSimilarSymbol text name s.memory s.env = some r ∧
        (if (text name).length ≤ 2 then r = none else IsNearest (lookup a.maps) text name r) ∧
        ∀ builtins, ∀ x ∈ r, findSymbol builtins s.memory s.env x.name = some (some x.node) := by
  constructor
  · intro a b m
    have hspec := levenshteinDistance_spec a b m
    refine ⟨distance a b, distance_isLeast a b, ?_, ?_⟩
    · omega
    · omega
  · intro text name s a hrel
    by_cases hshort : (text name).length ≤ 2
    · refine ⟨none, suggest_short hshort _ _, if_pos hshort ▸ rfl, fun builtins x hx => ?_⟩
      cases hx
    · obtain ⟨r, hr, hnearest⟩ := suggest_of_rel hrel text name hshort
      refine ⟨r, hr, if_neg hshort ▸ hnearest, ?_⟩
      rintro builtins x rfl
      rw [hrel.findSymbol_eq, hnearest.1, Option.some_or]

/-- A new `Env` in which the symbol 2 has been defined. Kind: L -/
theorem defined_rel : ∃ s, Rel s ⟨[extend (fun _ => none) 2 (7 : ℕ)], true⟩ := by
  obtain ⟨s, -, hrel⟩ := start_rel (⟨fun _ => none, 0⟩ : Memory ℕ) 0
  obtain ⟨s', -, hrel'⟩ := @define_agrees _ _ (fun _ => "x") noBuiltins _ _ hrel 2 7
  exact ⟨s', hrel'⟩

/-- `Strin`, and `Strip` and `String`. -/
def strings (name : Name) : List UInt8 :=
  [83, 116, 114, 105] ++ if name = 1 then [110] else if name = 2 then [112] else [110, 103]

/-- `Strin` in a scope with the symbol `Strip`. Kind: L -/
theorem spelling_suggestions_defined : ∃ s : State ℕ,
    ∃ r, suggestSimilarSymbol strings 1 s.memory s.env = some r ∧
      (if (strings 1).length ≤ 2 then r = none else
        IsNearest (lookup [extend (fun _ => none) 2 7]) strings 1 r) ∧
      ∀ builtins, ∀ x ∈ r, findSymbol builtins s.memory s.env x.name = some (some x.node) := by
  obtain ⟨s, hrel⟩ := defined_rel
  exact ⟨s, (@spelling_suggestions ℕ _).2 strings 1 s _ hrel⟩

/-- `ab`, and `abc`. -/
def letters (name : Name) : List UInt8 := if name = 1 then [97, 98] else [97, 98, 99]

/-- The builtin `String`. -/
def stringBuiltin : Builtins ℕ :=
  ⟨true, fun name => if name = 3 then some 9 else none, fun _ => true⟩

/-- Next to a symbol `abc` nothing is suggested for `ab`, and next to the builtin `String` nothing
for `Strin`. Kind: P -/
theorem suggestions_missed :
    (∃ s : State ℕ, ∃ a, Rel s a ∧ ¬ ∃ r, suggestSimilarSymbol letters 1 s.memory s.env = some r ∧
      IsNearest (fun n => (findSymbol noBuiltins s.memory s.env n).join) letters 1 r) ∧
    ∃ s : State ℕ, ∃ a, Rel s a ∧ ¬ ∃ r, suggestSimilarSymbol strings 1 s.memory s.env = some r ∧
      IsNearest (fun n => (findSymbol stringBuiltin s.memory s.env n).join) strings 1 r := by
  constructor
  · obtain ⟨s, hrel⟩ := defined_rel
    refine ⟨s, _, hrel, ?_⟩
    rintro ⟨r, hr, hnearest⟩
    obtain rfl := Option.some.inj ((suggest_short (by decide) _ _).symm.trans hr)
    have hvisible : (findSymbol noBuiltins s.memory s.env 2).join = some 7 := by
      rw [hrel.findSymbol_eq]
      rfl
    have hone : distance (letters 1) (letters 2) = 1 := by
      simp [letters, distance_cons_self, distance_nil_left]
    exact absurd (hone ▸ hnearest 2 7 hvisible) (by decide)
  · obtain ⟨s, -, hrel⟩ := start_rel (⟨fun _ => none, 0⟩ : Memory ℕ) 0
    refine ⟨s, _, hrel, ?_⟩
    rintro ⟨r, hr, hnearest⟩
    obtain ⟨r', hr', hopen⟩ := suggest_of_rel hrel strings 1 (by decide)
    obtain rfl := Option.some.inj (hr'.symm.trans hr)
    cases r' with
    | some x => exact absurd hopen.1 (by simp [lookup])
    | none =>
        have hvisible : (findSymbol stringBuiltin s.memory s.env 3).join = some 9 := by
          rw [hrel.findSymbol_eq]
          rfl
        have hone : distance (strings 1) (strings 3) = 1 := by
          simp [strings, distance_cons_self, distance_nil_left]
        exact absurd (hone ▸ hnearest 3 9 hvisible) (by decide)

end CxyCompiler.Middle.Bind
