import CxyCompiler.Lib.Numeral
import CxyCompiler.Stdlib.Trie
import Mathlib.Data.List.MinMax

/-!
# The routes of the http server (`stdlib/http.cxy`)

A route is added with the text of its path, in which `/{name}` stands for any segment. The text
before the first of them is the key of a trie, whose data are the lists of the routes with this key;
what follows is a pattern, which is matched with the rest of a request's path. `stem` is the
`prefix` of a route.

* `parsePattern`, `Route.ofText`, `matchPattern`, `leafFind`, `Router.add`, `Router.find` — the
  functions. A failed assertion is the result `none`.
* `Template`, `Fills` — the texts of paths, and the paths that they stand for.
* `text_matches_iff` — **a route matches the paths that its text stands for, and no others, and
  captures what stands for the names**.
* `Inv`, `add_inv` — the lists of the trie hold the routes that were added, each at its stem.
* `find_best` — **a search answers with the first of the routes of the longest stem that serve the
  request and have the fewest names**, and `unanswered_iff` says which requests it does not answer
  though a route serves them.
-/

namespace CxyCompiler.Stdlib.Http

open CxyCompiler.Lib CxyCompiler.Lib.PrefixTree
open CxyCompiler.Stdlib.Trie (addKey findPrefix filled findPrefix_spec mem_filled wide)

/-! ## The functions -/

abbrev Bytes := List UInt8

def slash : UInt8 := 47

def question : UInt8 := 63

def openBrace : UInt8 := 123

def closeBrace : UInt8 := 125

/-- Source: `http.cxy` `RouteSegment`, with one constructor for each `SegmentType`. -/
inductive RouteSegment
  | static (value : Bytes)
  | dynamic (value : Bytes)
deriving DecidableEq

/-- What the router uses of a route and of its attributes, which are set when it has been added.
Source: `http.cxy` `Route`, `RouteAttrs`. -/
structure Route where
  methods : UInt32
  stem : Bytes
  pattern : List RouteSegment
  isStatic : Bool
deriving DecidableEq

/-- Up to the byte before the first `{`, and from there on. -/
def cut (s : Bytes) : Bytes × Bytes :=
  let n := (s.takeWhile (· ≠ openBrace)).length
  if n = s.length then (s, []) else (s.take (n - 1), s.drop (n - 1))

theorem cut_length_le (s : Bytes) : (cut s).2.length ≤ s.length := by
  rw [cut]
  split_ifs
  · exact Nat.zero_le _
  · rw [List.length_drop]
    exact Nat.sub_le _ _

/-- The name before the next `}`, and what follows it. -/
def cutName (s : Bytes) : Option (Bytes × Bytes) :=
  match s.dropWhile (· ≠ closeBrace) with
  | [] => none
  | _ :: rest => some (s.takeWhile (· ≠ closeBrace), rest)

theorem cutName_length_le {s name rest : Bytes}
    (h : cutName s = some (name, rest)) : rest.length ≤ s.length := by
  have hle := (List.dropWhile_suffix (l := s) (· ≠ closeBrace)).length_le
  rw [cutName] at h
  split at h
  · cases h
  · rename_i hdrop
    obtain ⟨-, rfl⟩ := Prod.mk.inj (Option.some.inj h)
    rw [hdrop, List.length_cons] at hle
    exact Nat.le_of_succ_le hle

/-- What is not at a `/` is skipped. Source: `http.cxy` `Router.parsePattern`. -/
def parsePattern : Bytes → Option (List RouteSegment)
  | [] => some []
  | c :: s =>
      if c ≠ slash then parsePattern s
      else if s.head? = some openBrace then
        match _h : cutName s.tail with
        | none => none
        | some (name, rest) => (parsePattern rest).map (.dynamic name :: ·)
      else (parsePattern (cut s).2).map (.static (slash :: (cut s).1) :: ·)
termination_by s => s.length
decreasing_by
  · exact Nat.lt_succ_self _
  · exact Nat.lt_succ_of_le ((cutName_length_le _h).trans (by simp))
  · exact Nat.lt_succ_of_le (cut_length_le s)

/-- The route that is made of the text of a path. Source: `http.cxy` `Router.add`. -/
def Route.ofText (methods : UInt32) (path : Bytes) (isStatic : Bool) : Option Route :=
  if path.head? = some slash then
    (parsePattern (cut path).2).map fun pattern => ⟨methods, (cut path).1, pattern, isStatic⟩
  else none

/-- The parameters of a request: the last value first. -/
abbrev Params := List (Bytes × Bytes)

/-- A byte of a captured value. -/
def isValueByte (c : UInt8) : Bool := c ≠ slash && c ≠ question

/-- Whether the rest of a path matches, and the parameters, to which captured values are added on
the way. Source: `http.cxy` `RouteLeaf.matchPattern`, `Request.param`. -/
def matchPattern (isStatic : Bool) : List RouteSegment → Bytes → Params → Bool × Params
  | [], s, params => (s.isEmpty || s.head? == some question || isStatic, params)
  | .static value :: segments, s, params =>
      if value.isPrefixOf s then matchPattern isStatic segments (s.drop value.length) params
        else (false, params)
  | .dynamic name :: segments, s, params =>
      if s.head? = some slash then
        let value := s.tail.takeWhile isValueByte
        if value.isEmpty then (false, params)
        else matchPattern isStatic segments (s.tail.dropWhile isValueByte) ((name, value) :: params)
      else (false, params)

/-- Source: `http.cxy` `Route.isMethodSupported`. -/
def Route.isMethodSupported (route : Route) (method : UInt32) : Bool :=
  route.methods &&& (1 <<< method) != 0

/-- Source: `http.cxy` `RouteLeaf.find`, the count of the dynamic segments. -/
def Route.dynamicCount (route : Route) : ℕ :=
  route.pattern.countP fun | .static _ => false | .dynamic _ => true

/-- The local variables of the search. -/
structure Search where
  bestMatch : Option Route
  bestDynamicCount : ℕ
  found : Bool
  params : Params

/-- Source: `http.cxy` `RouteLeaf.find`, the body of the loop. -/
def tryRoute (method : UInt32) (remainingPath : Bytes) (s : Search) (route : Route) : Search :=
  if route.isMethodSupported method then
    let r := matchPattern route.isStatic route.pattern remainingPath s.params
    if r.1 then
      if route.dynamicCount < s.bestDynamicCount then ⟨some route, route.dynamicCount, true, r.2⟩
      else { s with found := true, params := r.2 }
    else { s with params := r.2 }
  else s

/-- No route, or the one that was found, which is not set where every one has too many names; and
the parameters. Source: `http.cxy` `RouteLeaf.find`. -/
def leafFind (method : UInt32) (remainingPath : Bytes) (routes : List Route) (params : Params) :
    Option (Option Route) × Params :=
  let s := routes.foldl (tryRoute method remainingPath) ⟨none, 999999, false, params⟩
  (if s.found then some s.bestMatch else none, s.params)

/-- The trie of leaves, and the leaves by their addresses. Source: `http.cxy` `Router`,
`RouteLeaf`. -/
structure Router where
  routes : Trie.Heap ℕ
  leaves : List (List Route)

/-- Source: `http.cxy` `Router.init`. -/
def Router.init : Router := ⟨[Trie.TrieNode.init 0], []⟩

/-- The leaf of exactly this prefix gets the route, or a new one. Source: `http.cxy`
`Router.add`. -/
def Router.add (signed : Bool) (router : Router) (route : Route) : Option Router := do
  match ← findPrefix signed router.routes route.stem with
  | some (consumed, leaf) =>
      if consumed = route.stem.length then
        return { router with leaves := router.leaves.modify leaf (· ++ [route]) }
      else
        let routes ← addKey signed router.routes route.stem router.leaves.length
        return ⟨routes, router.leaves ++ [[route]]⟩
  | none =>
      let routes ← addKey signed router.routes route.stem router.leaves.length
      return ⟨routes, router.leaves ++ [[route]]⟩

/-- Source: `http.cxy` `Router.find`, `Router.handle`. -/
def Router.find (signed : Bool) (router : Router) (method : UInt32) (path : Bytes)
    (params : Params) :
    Option (Option (Option Route) × Params) := do
  match ← findPrefix signed router.routes path with
  | none => return (none, params)
  | some (consumed, leaf) =>
      let routes ← router.leaves[leaf]?
      return leafFind method (path.drop consumed) routes params

/-- A new router, and its routes. -/
def serve (signed : Bool) (routes : List Route) : Option Router :=
  routes.foldlM (Router.add signed) Router.init

/-! ## The text of a route -/

/-- What follows the stem: a name, and the text up to the next one. -/
abbrev Part := Bytes × Bytes

def textOf (parts : List Part) : Bytes :=
  parts.flatMap fun p => slash :: openBrace :: (p.1 ++ closeBrace :: p.2)

def segmentsOf (parts : List Part) : List RouteSegment :=
  parts.flatMap fun p => .dynamic p.1 :: if p.2.isEmpty then [] else [.static p.2]

/-- The text of a path, with a name in braces in the place of a segment. -/
structure Template where
  stem : Bytes
  parts : List Part

def Template.text (t : Template) : Bytes := t.stem ++ textOf t.parts

structure Template.Valid (t : Template) : Prop where
  start : t.text.head? = some slash
  stem : openBrace ∉ t.stem
  parts : ∀ p ∈ t.parts, closeBrace ∉ p.1 ∧ openBrace ∉ p.2 ∧ (p.2 = [] ∨ p.2.head? = some slash)

variable {s u value : Bytes} {parts : List Part} {isStatic : Bool}

/-- A brace behind a `/` is where it is cut. Kind: L -/
theorem cut_text (h : openBrace ∉ s)
    (parts : List Part) : cut (s ++ textOf parts) = (s, textOf parts) := by
  have hs : ∀ c ∈ s, decide (c ≠ openBrace) = true := by
    intro c hc
    rw [decide_eq_true_eq]
    rintro rfl
    exact h hc
  rcases parts with _ | ⟨p, parts⟩
  · have htake : (s ++ textOf []).takeWhile (· ≠ openBrace) = s ++ textOf [] := by
      rw [textOf, List.flatMap_nil, List.append_nil]
      exact List.takeWhile_eq_self_iff.mpr hs
    rw [cut, htake]
    simp [textOf]
  · have htake : (s ++ textOf (p :: parts)).takeWhile (· ≠ openBrace) = s ++ [slash] := by
      rw [List.takeWhile_append_of_pos hs]
      rfl
    have hne : (s ++ [slash]).length ≠ (s ++ textOf (p :: parts)).length := by
      simp [textOf]
    rw [cut, htake, if_neg hne, List.length_append, List.length_singleton, Nat.add_sub_cancel,
      List.take_left, List.drop_left]

theorem parsePattern_text : ∀ parts : List Part,
    (∀ p ∈ parts, closeBrace ∉ p.1 ∧ openBrace ∉ p.2 ∧ (p.2 = [] ∨ p.2.head? = some slash)) →
    parsePattern (textOf parts) = some (segmentsOf parts)
  | [], _ => by
      rw [textOf, List.flatMap_nil, parsePattern]
      rfl
  | ⟨name, text⟩ :: parts, h => by
      obtain ⟨⟨hname, htext, hstart⟩, hrest⟩ := List.forall_mem_cons.mp h
      have ih := parsePattern_text parts hrest
      have hparts : textOf (⟨name, text⟩ :: parts) =
          slash :: openBrace :: (name ++ closeBrace :: (text ++ textOf parts)) := by
        simp [textOf]
      have hcut : cutName (name ++ closeBrace :: (text ++ textOf parts)) = some
        (name, text ++ textOf parts) := by
        have hname' : ∀ c ∈ name, decide (c ≠ closeBrace) = true := by
          intro c hc
          rw [decide_eq_true_eq]
          rintro rfl
          exact hname hc
        rw [cutName, List.dropWhile_append_of_pos hname', List.takeWhile_append_of_pos hname']
        simp
      have hbehind : parsePattern (text ++ textOf parts) =
          some ((if text.isEmpty then [] else [.static text]) ++ segmentsOf parts) := by
        rcases text with _ | ⟨c, t⟩
        · exact ih
        · obtain rfl : c = slash := by simpa using hstart
          have hhead : (t ++ textOf parts).head? ≠ some openBrace := by
            intro hhead
            rcases t with _ | ⟨d, t⟩
            · rcases parts with _ | ⟨p, parts⟩
              · cases hhead
              · exact absurd (Option.some.inj hhead) (by decide)
            · obtain rfl := Option.some.inj hhead
              exact htext (by simp)
          rw [List.cons_append, parsePattern, if_neg (by simp), if_neg hhead,
            cut_text (fun hmem => htext (List.mem_cons_of_mem _ hmem)), ih]
          rfl
      rw [hparts, parsePattern, if_neg (by simp), if_pos List.head?_cons]
      split
      · rename_i hnone
        rw [List.tail_cons, hcut] at hnone
        cases hnone
      · rename_i hsome
        rw [List.tail_cons, hcut] at hsome
        obtain ⟨rfl, rfl⟩ := Prod.mk.inj (Option.some.inj hsome)
        rw [hbehind]
        rfl

theorem ofText_text {t : Template} (h : t.Valid) (methods : UInt32) (isStatic : Bool) :
    Route.ofText methods t.text isStatic = some
      ⟨methods, t.stem, segmentsOf t.parts, isStatic⟩ := by
  rw [Route.ofText, if_pos h.start, Template.text, cut_text h.stem,
    parsePattern_text t.parts h.parts]
  rfl

/-! ## What a route matches -/

/-- A value ends here. -/
def Ends (s : Bytes) : Prop := ∀ c ∈ s.head?, isValueByte c = false

/-- **The rests of paths that the parts stand for**, with a value for each name. A static route has
all paths below it. -/
def Fills (isStatic : Bool) : List Part → List Bytes → Bytes → Prop
  | [], values, s => values = [] ∧ (s = [] ∨ s.head? = some question ∨ isStatic = true)
  | _ :: _, [], _ => False
  | p :: parts, value :: values, s => value ≠ [] ∧ (∀ c ∈ value, isValueByte c = true) ∧
      ∃ u, s = slash :: (value ++ (p.2 ++ u)) ∧ Ends (p.2 ++ u) ∧ Fills isStatic parts values u

theorem value_ends (hvalue : ∀ c ∈ value, isValueByte c = true) (hends : Ends u) :
    (value ++ u).takeWhile isValueByte = value ∧ (value ++ u).dropWhile isValueByte = u := by
  rw [List.takeWhile_append_of_pos hvalue, List.dropWhile_append_of_pos hvalue]
  rcases u with _ | ⟨c, u⟩
  · exact ⟨List.append_nil _, rfl⟩
  · have hc : ¬ isValueByte c = true := by
      rw [hends c rfl]
      exact Bool.false_ne_true
    rw [List.takeWhile_cons_of_neg hc, List.dropWhile_cons_of_neg hc, List.append_nil]
    exact ⟨rfl, rfl⟩

theorem matchPattern_static (text : Bytes) (segments : List RouteSegment) (params : Params) :
    matchPattern isStatic ((if text.isEmpty then [] else [.static text]) ++ segments) s params =
      if text.isPrefixOf s then matchPattern isStatic segments (s.drop text.length) params
        else (false, params) := by
  rcases text with _ | ⟨c, text⟩
  · rfl
  · rfl

/-- **A pattern matches what its parts stand for, and captures the values.** Kind: P -/
theorem matchPattern_segments (isStatic : Bool) : ∀ (parts : List Part) (s : Bytes)
    (params params' : Params),
    matchPattern isStatic (segmentsOf parts) s params = (true, params') ↔
      ∃ values, Fills isStatic parts values s ∧
        params' = ((parts.map Prod.fst).zip values).reverse ++ params
  | [], s, params, params' => by
      rw [segmentsOf, List.flatMap_nil, matchPattern, Prod.mk.injEq]
      simp only [Fills, Bool.or_eq_true, List.isEmpty_iff, beq_iff_eq, or_assoc]
      constructor
      · rintro ⟨hs, rfl⟩
        exact ⟨[], ⟨rfl, hs⟩, rfl⟩
      · rintro ⟨values, ⟨rfl, hs⟩, rfl⟩
        exact ⟨hs, rfl⟩
  | ⟨name, text⟩ :: parts, s, params, params' => by
      have ih := matchPattern_segments isStatic parts
      have hsegments : segmentsOf (⟨name, text⟩ :: parts) =
          .dynamic name :: ((if text.isEmpty then [] else [.static text]) ++ segmentsOf parts) :=
            rfl
      rw [hsegments, matchPattern]
      constructor
      · intro h
        by_cases hhead : s.head? = some slash
        · obtain ⟨t, rfl⟩ := List.head?_eq_some_iff.mp hhead
          rw [if_pos hhead, List.tail_cons] at h
          by_cases hempty : (t.takeWhile isValueByte).isEmpty = true
          · rw [if_pos hempty] at h
            cases h
          · rw [if_neg hempty, matchPattern_static] at h
            by_cases htext : text.isPrefixOf (t.dropWhile isValueByte) = true
            · rw [if_pos htext] at h
              obtain ⟨values, hfills, rfl⟩ := (ih _ _ _).mp h
              obtain ⟨u, hu⟩ := List.isPrefixOf_iff_prefix.mp htext
              rw [← hu, List.drop_left] at hfills
              refine ⟨_ :: values,
                ⟨by simpa using hempty, fun c hc =>
                List.mem_takeWhile_imp hc, u, ?_, ?_, hfills⟩, ?_⟩
              · rw [hu, List.takeWhile_append_dropWhile]
              · rw [hu]
                exact Numeral.head_dropWhile isValueByte t
              · simp
            · rw [if_neg htext] at h
              cases h
        · rw [if_neg hhead] at h
          cases h
      · rintro ⟨values, hfills, rfl⟩
        rcases values with _ | ⟨value, values⟩
        · exact hfills.elim
        · obtain ⟨hne, hvalue, u, rfl, hends, hfills⟩ := hfills
          obtain ⟨htake, hdrop⟩ := value_ends hvalue hends
          rw [if_pos List.head?_cons, List.tail_cons, htake, hdrop,
            if_neg (by simpa using hne), matchPattern_static,
            if_pos (by simp), List.drop_left, (ih _ _ _).mpr ⟨values, hfills, rfl⟩]
          simp

theorem matchPattern_fst (isStatic : Bool) : ∀ (segments : List RouteSegment) (s : Bytes)
    (params params' : Params),
    (matchPattern isStatic segments s params).1 = (matchPattern isStatic segments s params').1
  | [], _, _, _ => rfl
  | .static value :: segments, s, params, params' => by
      rw [matchPattern, matchPattern]
      split_ifs
      · exact matchPattern_fst isStatic segments _ params params'
      · rfl
  | .dynamic name :: segments, s, params, params' => by
      rw [matchPattern, matchPattern]
      split_ifs
      · dsimp only
        split_ifs
        · rfl
        · exact matchPattern_fst isStatic segments _ _ _
      · rfl

/-- The route answers requests of this method for such a rest of a path. -/
def Route.serves (method : UInt32) (rest : Bytes) (route : Route) : Bool :=
  route.isMethodSupported method && (matchPattern route.isStatic route.pattern rest []).1

/-- Such routes can be the best one. -/
def Route.counts (route : Route) : Bool := route.dynamicCount < 999999

/-- What the search knows about the routes that it has tried. -/
structure Tried (method : UInt32) (rest : Bytes) (routes : List Route) (s : Search) : Prop where
  best : s.bestMatch = (routes.filter fun r =>
    r.serves method rest && r.counts).argmin Route.dynamicCount
  count : s.bestDynamicCount = (s.bestMatch.map Route.dynamicCount).getD 999999
  found : s.found = routes.any (Route.serves method rest)

variable {method : UInt32} {rest : Bytes} {routes : List Route} {search : Search}

theorem tryRoute_tried (h : Tried method rest routes search) (route : Route) :
    Tried method rest (routes ++ [route]) (tryRoute method rest search route) := by
  have hother : ∀ params, route.serves method rest = false →
      Tried method rest (routes ++ [route]) { search with params := params } := by
    intro params hserves
    refine ⟨?_, h.count, ?_⟩
    · rw [List.filter_append, List.filter_cons_of_neg (by simp [hserves]),
        List.filter_nil, List.append_nil]
      exact h.best
    · rw [List.any_append, List.any_cons, hserves, List.any_nil, Bool.or_false, Bool.or_false]
      exact h.found
  unfold tryRoute
  by_cases hmethod : route.isMethodSupported method = true
  · rw [if_pos hmethod]
    have hserves : route.serves method rest =
      (matchPattern route.isStatic route.pattern rest search.params).1 := by
      rw [Route.serves, hmethod, Bool.true_and]
      exact matchPattern_fst _ _ _ _ _
    by_cases hmatch : (matchPattern route.isStatic route.pattern rest search.params).1 = true
    · rw [hmatch] at hserves
      have hany : (routes ++ [route]).any (Route.serves method rest) = true := by
        rw [List.any_append, List.any_cons, hserves]
        simp
      rw [if_pos hmatch]
      by_cases hcounts : route.counts = true
      · have hbest : ((routes ++ [route]).filter fun r =>
          r.serves method rest && r.counts).argmin Route.dynamicCount =
            if route.dynamicCount < search.bestDynamicCount then some route
              else search.bestMatch := by
          rw [List.filter_append, List.filter_cons_of_pos
            (by simp [hserves, hcounts]), List.filter_nil,
            List.argmin_concat, ← h.best, h.count]
          have hlt : route.dynamicCount < 999999 := by simpa [Route.counts] using hcounts
          rcases search.bestMatch with _ | best
          · exact (if_pos hlt).symm
          · rfl
        split_ifs at hbest ⊢
        · exact ⟨hbest.symm, rfl, hany.symm⟩
        · exact ⟨hbest.symm, h.count, hany.symm⟩
      · have hle : ¬ route.dynamicCount < search.bestDynamicCount := by
          have hge : 999999 ≤ route.dynamicCount := by simpa [Route.counts] using hcounts
          have hcount : search.bestDynamicCount ≤ 999999 := by
            rw [h.count]
            rcases hbest : search.bestMatch with _ | best
            · exact le_rfl
            · have hmem := List.argmin_mem (Option.mem_def.mpr (h.best.symm.trans hbest))
              have hbound := (Bool.and_eq_true_iff.mp (List.mem_filter.mp hmem).2).2
              exact (of_decide_eq_true hbound).le
          omega
        rw [if_neg hle]
        refine ⟨?_, h.count, hany.symm⟩
        rw [List.filter_append, List.filter_cons_of_neg (by simp [hcounts]),
          List.filter_nil, List.append_nil]
        exact h.best
    · rw [if_neg hmatch]
      exact hother _ (hserves.trans (Bool.eq_false_iff.mpr hmatch))
  · rw [if_neg hmethod]
    exact hother search.params (by rw [Route.serves, Bool.eq_false_iff.mpr hmethod, Bool.false_and])

/-- **A leaf answers with the first of the routes that serve and have the fewest names.** Kind: P -/
theorem leafFind_eq (method : UInt32) (rest : Bytes) (routes : List Route) (params : Params) :
    (leafFind method rest routes params).1 =
      if routes.any (Route.serves method rest) then
        some ((routes.filter fun r => r.serves method rest && r.counts).argmin Route.dynamicCount)
      else none := by
  have htried : ∀ routes : List Route,
      Tried method rest routes
        (routes.foldl (tryRoute method rest) ⟨none, 999999, false, params⟩) := by
    intro routes
    induction routes using List.reverseRecOn with
    | nil => exact ⟨rfl, rfl, rfl⟩
    | append_singleton routes route ih =>
        rw [List.foldl_append]
        exact tryRoute_tried ih route
  rw [leafFind, (htried routes).found, ← (htried routes).best]

/-! ## The router -/

/-- **The leaves hold the routes that were added**, each at its stem, and the trie has the stems. -/
structure Inv (signed : Bool) (router : Router) (routes : List Route)
    (stems : List Bytes) : Prop where
  trie : ∃ names, Trie.Inv router.routes names (wide signed stems.zipIdx)
  nodup : stems.Nodup
  leaves : router.leaves = stems.map fun stem => routes.filter fun r => r.stem = stem
  stem_mem : ∀ stem, stem ∈ stems ↔ stem ∈ routes.map Route.stem

variable {signed : Bool} {router : Router} {stems : List Bytes}

theorem init_inv : Inv signed Router.init [] [] :=
  ⟨⟨_, Trie.start_inv⟩, List.nodup_nil, rfl, fun _ => Iff.rfl⟩

theorem mem_zipIdx {stem : Bytes} {i : ℕ} : (stem, i) ∈ stems.zipIdx ↔ stems[i]? = some stem := by
  rw [List.mem_zipIdx_iff_getElem?]

/-- A search of a stem in the trie ends at it, if it has a leaf. Kind: L -/
theorem Inv.find_stem (h : Inv signed router routes stems) (stem : Bytes) :
    ∃ r, findPrefix signed router.routes stem = some r ∧
      ∀ i, whole stem.length r = some i ↔ stems[i]? = some stem ∧ stem ≠ [] := by
  obtain ⟨names, htrie⟩ := h.trie
  obtain ⟨r, hr, hlongest⟩ := findPrefix_spec htrie stem
  have hkeys : ((filled stems.zipIdx).map Prod.fst).Nodup := by
    refine List.Nodup.sublist (List.filter_sublist.map _) ?_
    rw [List.zipIdx_map_fst]
    exact h.nodup
  refine ⟨r, hr, fun i => ?_⟩
  rw [hlongest.found hkeys i, mem_filled, mem_zipIdx]

theorem Inv.push (h : Inv signed router routes stems) (route : Route) {i : ℕ}
    (hi : stems[i]? = some route.stem) :
    Inv signed { router with leaves := router.leaves.modify i (· ++ [route]) }
      (routes ++ [route]) stems := by
  refine ⟨h.trie, h.nodup, ?_, fun stem => ?_⟩
  · apply List.ext_getElem?
    intro j
    dsimp only
    rw [List.getElem?_modify, h.leaves, List.getElem?_map, List.getElem?_map]
    rcases hj : stems[j]? with _ | stem
    · simp
    · rw [Option.map_some, Option.map_some, List.filter_append]
      by_cases hij : i = j
      · subst hij
        obtain rfl := Option.some.inj (hi.symm.trans hj)
        simp
      · have hne : route.stem ≠ stem := by
          rintro rfl
          exact hij ((List.getElem?_inj (List.getElem?_eq_some_iff.mp hi).1 h.nodup).mp
            (hi.trans hj.symm))
        simp [hij, hne]
  · rw [h.stem_mem, List.map_append, List.mem_append]
    refine ⟨Or.inl, fun hmem => hmem.elim id fun hmem => ?_⟩
    obtain rfl := List.mem_singleton.mp hmem
    exact (h.stem_mem _).mp (List.mem_of_getElem? hi)

theorem Inv.addLeaf (h : Inv signed router routes stems) (route : Route)
    (hnew : route.stem ∉ stems) :
    ∃ heap, addKey signed router.routes route.stem router.leaves.length = some heap ∧
      Inv signed ⟨heap, router.leaves ++ [[route]]⟩ (routes ++ [route])
        (stems ++ [route.stem]) := by
  obtain ⟨names, htrie⟩ := h.trie
  have hwide : ∀ e ∈ wide signed stems.zipIdx, e.1 ≠ route.stem.map (widen signed) := by
    intro e he heq
    obtain ⟨⟨stem, i⟩, hmem, rfl⟩ := List.mem_map.mp he
    obtain rfl := (Trie.widen_injective signed).list_map heq
    exact hnew (List.mem_of_getElem? (mem_zipIdx.mp hmem))
  obtain ⟨heap, names', hadd, hinv⟩ :=
    Trie.addKey_inv htrie signed route.stem router.leaves.length hwide
  have hlength : router.leaves.length = stems.length := by
    rw [h.leaves, List.length_map]
  refine ⟨heap, hadd, ⟨names', ?_⟩, ?_, ?_, fun stem => ?_⟩
  · rw [List.zipIdx_append, wide, List.map_append]
    rw [hlength] at hinv
    simpa [wide] using hinv
  · exact List.nodup_append.mpr ⟨h.nodup, List.nodup_singleton _, fun a ha b hb => by
      rw [List.mem_singleton.mp hb]
      rintro rfl
      exact hnew ha⟩
  · dsimp only
    have hold : stems.map (fun stem => (routes ++ [route]).filter fun r =>
      r.stem = stem) = router.leaves := by
      rw [h.leaves]
      refine List.map_congr_left fun stem hstem => ?_
      have hne : route.stem ≠ stem := by
        rintro rfl
        exact hnew hstem
      simp [hne]
    have hnone : routes.filter (fun r => r.stem = route.stem) = [] := by
      rw [List.filter_eq_nil_iff]
      intro r hr hstem
      exact hnew ((h.stem_mem _).mpr (List.mem_map.mpr ⟨r, hr, of_decide_eq_true hstem⟩))
    rw [List.map_append, hold, List.map_singleton, List.filter_append, hnone]
    simp
  · rw [List.mem_append, List.map_append, List.mem_append, h.stem_mem]
    rfl

/-- A second route without a stem fails: the first one is at the root, where no search ends.
Kind: L -/
theorem Inv.addKey_bare (h : Inv signed router routes stems) (hbare : [] ∈ stems) (leaf : ℕ) :
    addKey signed router.routes [] leaf = none := by
  obtain ⟨names, htrie⟩ := h.trie
  obtain ⟨node, hnode⟩ := htrie.node htrie.tree.root
  obtain ⟨i, hi⟩ := List.mem_iff_getElem?.mp hbare
  have hdata : node.data = some i :=
    (htrie.data 0 node [] hnode htrie.tree.root i).mpr
      (List.mem_map.mpr ⟨([], i), mem_zipIdx.mpr hi, rfl⟩)
  simp [addKey, hnode, hdata]

theorem add_eq {route : Route} {r : Option (ℕ × ℕ)}
    (hr : findPrefix signed router.routes route.stem = some r) :
    router.add signed route = match whole route.stem.length r with
      | some leaf => some { router with leaves := router.leaves.modify leaf (· ++ [route]) }
      | none => (addKey signed router.routes route.stem router.leaves.length).map fun heap =>
          ⟨heap, router.leaves ++ [[route]]⟩ := by
  have hadd : ∀ x : Option (Trie.Heap ℕ),
    (do let heap ← x; return Router.mk heap (router.leaves ++ [[route]])) =
      x.map fun heap => Router.mk heap (router.leaves ++ [[route]]) := fun x => by cases x <;> rfl
  rw [Router.add, hr]
  rcases r with _ | ⟨consumed, leaf⟩
  · exact hadd _
  · rw [whole]
    by_cases hconsumed : consumed = route.stem.length
    · simp [hconsumed]
    · simp only [Option.bind_eq_bind, Option.bind_some, if_neg hconsumed]
      exact hadd _

/-- **One route more.** Kind: P -/
theorem add_inv (h : Inv signed router routes stems) (route : Route)
    (hbare : route.stem = [] → [] ∉ stems) :
    ∃ router' stems', router.add signed route = some router' ∧
      Inv signed router' (routes ++ [route]) stems' := by
  obtain ⟨r, hr, hfound⟩ := h.find_stem route.stem
  rw [add_eq hr]
  rcases hwhole : whole route.stem.length r with _ | i
  · have hnew : route.stem ∉ stems := by
      intro hmem
      have hne : route.stem ≠ [] := fun hnil => hbare hnil (hnil ▸ hmem)
      obtain ⟨i, hi⟩ := List.mem_iff_getElem?.mp hmem
      rw [(hfound i).mpr ⟨hi, hne⟩] at hwhole
      cases hwhole
    obtain ⟨heap, hadd, hinv⟩ := h.addLeaf route hnew
    exact ⟨_, _, by rw [hadd]; rfl, hinv⟩
  · exact ⟨_, _, rfl, h.push route ((hfound i).mp hwhole).1⟩

/-- **The routes can be added exactly where at most one of them has no stem.** Kind: P -/
theorem serve_spec (signed : Bool) (routes : List Route) :
    (routes.countP (fun r => r.stem = []) ≤ 1 →
      ∃ router stems, serve signed routes = some router ∧ Inv signed router routes stems) ∧
    (1 < routes.countP (fun r => r.stem = []) → serve signed routes = none) := by
  induction routes using List.reverseRecOn with
  | nil => exact ⟨fun _ => ⟨_, _, rfl, init_inv⟩, fun h => absurd h (by decide)⟩
  | append_singleton routes route ih =>
      have hserve : serve signed (routes ++ [route]) = (serve signed routes).bind
        (Router.add signed · route) := by
        rw [serve, List.foldlM_append]
        simp [serve]
      rw [hserve, List.countP_append, List.countP_singleton]
      refine ⟨fun hcount => ?_, fun hcount => ?_⟩
      · obtain ⟨router, stems, hrouter, hinv⟩ := ih.1 (by omega)
        have hbare : route.stem = [] → [] ∉ stems := by
          intro hnil hmem
          obtain ⟨r, hr, hstem⟩ := List.mem_map.mp ((hinv.stem_mem _).mp hmem)
          have hpos : 0 < routes.countP (fun r => r.stem = []) :=
            List.countP_pos_iff.mpr ⟨r, hr, by simpa using hstem⟩
          rw [if_pos (by simpa using hnil)] at hcount
          omega
        obtain ⟨router', stems', hadd, hinv'⟩ := add_inv hinv route hbare
        exact ⟨router', stems', by rw [hrouter]; exact hadd, hinv'⟩
      · rcases Nat.lt_or_ge 1 (routes.countP fun r => r.stem = []) with hmany | hfew
        · rw [ih.2 hmany]
          rfl
        · obtain ⟨router, stems, hrouter, hinv⟩ := ih.1 hfew
          by_cases hnil : route.stem = []
          · rw [if_pos (by simpa using hnil)] at hcount
            obtain ⟨r, hr, hstem⟩ := List.countP_pos_iff.mp (Nat.lt_of_succ_lt_succ hcount)
            have hbare : [] ∈ stems :=
              (hinv.stem_mem _).mpr (List.mem_map.mpr ⟨r, hr, of_decide_eq_true hstem⟩)
            obtain ⟨r, hr, hfound⟩ := hinv.find_stem route.stem
            have hnone : whole route.stem.length r = none :=
              Option.eq_none_iff_forall_ne_some.mpr fun i hi => ((hfound i).mp hi).2 hnil
            rw [hrouter, Option.bind_some, add_eq hr, hnone, hnil]
            dsimp only
            rw [hinv.addKey_bare hbare, Option.map_none]
          · rw [if_neg (by simpa using hnil)] at hcount
            omega

/-! ## What is found -/

/-- Of the stems in front of a path the route has the longest. -/
def Route.deepest (routes : List Route) (path : Bytes) (route : Route) : Bool :=
  route.stem ≠ [] ∧ route.stem <+: path ∧ ∀ r ∈ routes,
    r.stem <+: path → r.stem.length ≤ route.stem.length

/-- The route answers such requests. -/
def Route.answers (routes : List Route) (method : UInt32) (path : Bytes) (route : Route) : Bool :=
  route.deepest routes path && route.serves method (path.drop route.stem.length)

/-- **The abstract router**: the first route with the fewest names among those of the longest stem
that serve the request, which is missing where all of them have too many names. -/
def answer (routes : List Route) (method : UInt32) (path : Bytes) : Option (Option Route) :=
  if routes.any (Route.answers routes method path) then
    some ((routes.filter fun r =>
      r.answers routes method path && r.counts).argmin Route.dynamicCount)
  else none

theorem Inv.find_eq (h : Inv signed router routes stems) (method : UInt32) (path : Bytes)
    (params : Params) :
    ∃ params', router.find signed method path params = some
      (answer routes method path, params') := by
  obtain ⟨names, htrie⟩ := h.trie
  obtain ⟨r, hr, hlongest⟩ := findPrefix_spec htrie path
  have hfilled : ∀ {route}, route ∈ routes → route.stem ≠ [] → ∃ i,
    (route.stem, i) ∈ filled stems.zipIdx := by
    intro route hroute hne
    obtain ⟨i, hi⟩ := List.mem_iff_getElem?.mp ((h.stem_mem _).mpr (List.mem_map_of_mem hroute))
    exact ⟨i, mem_filled.mpr ⟨mem_zipIdx.mpr hi, hne⟩⟩
  rw [Router.find, hr]
  rcases r with _ | ⟨n, i⟩
  · have hnone : ¬ routes.any (Route.answers routes method path) = true := by
      intro hany
      obtain ⟨route, hroute, hanswers⟩ := List.any_eq_true.mp hany
      obtain ⟨hne, hpre, -⟩ := of_decide_eq_true (Bool.and_eq_true_iff.mp hanswers).1
      obtain ⟨i, hi⟩ := hfilled hroute hne
      exact hlongest _ hi hpre
    exact ⟨params, by rw [answer, if_neg hnone]; rfl⟩
  · obtain ⟨stem, hstem, hpre, rfl, hmax⟩ := hlongest
    obtain ⟨hi, hne⟩ := mem_filled.mp hstem
    rw [mem_zipIdx] at hi
    have hdeepest : ∀ route ∈ routes, route.deepest routes path = decide (route.stem = stem) := by
      intro route hroute
      rw [Route.deepest, decide_eq_decide]
      constructor
      · rintro ⟨hne', hpre', hall⟩
        obtain ⟨j, hj⟩ := hfilled hroute hne'
        obtain ⟨r', hr', hstem'⟩ := List.mem_map.mp ((h.stem_mem _).mp (List.mem_of_getElem? hi))
        have hge := hall r' hr' (hstem'.symm ▸ hpre)
        rw [hstem'] at hge
        exact (List.prefix_of_prefix_length_le hpre' hpre (hmax _ hj hpre')).eq_of_length
          (Nat.le_antisymm (hmax _ hj hpre') hge)
      · rintro rfl
        refine ⟨hne, hpre, fun r' hr' hpre' => ?_⟩
        rcases eq_or_ne r'.stem [] with hnil | hne'
        · rw [hnil]
          exact Nat.zero_le _
        · obtain ⟨j, hj⟩ := hfilled hr' hne'
          exact hmax _ hj hpre'
    have hanswers : ∀ route ∈ routes, route.answers routes method path =
        (decide (route.stem = stem) && route.serves method (path.drop stem.length)) := by
      intro route hroute
      rw [Route.answers, hdeepest route hroute]
      by_cases heq : route.stem = stem
      · rw [heq]
      · rw [decide_eq_false heq, Bool.false_and, Bool.false_and]
    have hleaf : router.leaves[i]? = some (routes.filter fun r => r.stem = stem) := by
      rw [h.leaves, List.getElem?_map, hi, Option.map_some]
    refine ⟨(leafFind method (path.drop stem.length) (routes.filter fun r =>
      r.stem = stem) params).2, ?_⟩
    simp only [Option.bind_eq_bind, Option.bind_some, hleaf]
    congr 1
    refine Prod.ext ?_ rfl
    have hany : (routes.any fun r =>
      decide (r.stem = stem) && r.serves method (path.drop stem.length)) =
        routes.any (Route.answers routes method path) := by
      rw [Bool.eq_iff_iff, List.any_eq_true, List.any_eq_true]
      exact exists_congr fun r => and_congr_right fun hr => by rw [hanswers r hr]
    have hfilter : (routes.filter fun r => (r.serves method (path.drop stem.length) && r.counts) &&
      decide (r.stem = stem)) =
        routes.filter fun r => r.answers routes method path && r.counts := by
      refine List.filter_congr fun r hr => ?_
      rw [hanswers r hr, Bool.and_comm, Bool.and_assoc]
    rw [leafFind_eq, List.any_filter, List.filter_filter, hany, hfilter]
    rfl

/-- **A router of which at most one route has no stem answers every request as the abstract router
does.** Kind: P -/
theorem find_best (signed : Bool) (routes : List Route)
    (hbare : routes.countP (fun r => r.stem = []) ≤ 1) :
    ∃ router, serve signed routes = some router ∧ ∀ method path params, ∃ params',
      router.find signed method path params = some (answer routes method path, params') := by
  obtain ⟨router, stems, hserve, hinv⟩ := (serve_spec signed routes).1 hbare
  exact ⟨router, hserve, hinv.find_eq⟩

/-- **A request is not answered exactly where each route that serves it has no stem, or stands
behind one whose stem reaches further into the path.** Kind: P -/
theorem unanswered_iff (signed : Bool) (routes : List Route)
    (hbare : routes.countP (fun r => r.stem = []) ≤ 1) :
    ∃ router, serve signed routes = some router ∧ ∀ method path params,
      (∃ params', router.find signed method path params = some (none, params')) ↔
        ∀ r ∈ routes, r.stem <+: path → r.serves method (path.drop r.stem.length) = true →
          r.stem = [] ∨ ∃ r' ∈ routes, r'.stem <+: path ∧ r.stem.length < r'.stem.length := by
  obtain ⟨router, stems, hserve, hinv⟩ := (serve_spec signed routes).1 hbare
  refine ⟨router, hserve, fun method path params => ?_⟩
  obtain ⟨params', hfind⟩ := hinv.find_eq method path params
  have hnone : (∃ params', router.find signed method path params = some (none, params')) ↔
      ¬ routes.any (Route.answers routes method path) = true := by
    rw [hfind, answer]
    split_ifs with hany
    · simp [hany]
    · simp [hany]
  rw [hnone, List.any_eq_true, not_exists]
  refine forall_congr' fun r => ?_
  rw [not_and]
  refine imp_congr_right fun _ => ?_
  rw [Route.answers, Route.deepest, Bool.and_eq_true, decide_eq_true_eq]
  constructor
  · intro h hpre hserves
    by_contra hnot
    push Not at hnot
    exact h ⟨⟨hnot.1, hpre, hnot.2⟩, hserves⟩
  · rintro h ⟨⟨hne, hpre, hlongest⟩, hserves⟩
    rcases h hpre hserves with hnil | ⟨r', hr', hpre', hlt⟩
    · exact hne hnil
    · exact absurd (hlongest r' hr' hpre') (Nat.not_le.mpr hlt)

/-- `GET /a/{x}` and `GET /a/b`. -/
def sampleRoutes : List Route :=
  [⟨2, [47, 97], [.dynamic [120]], false⟩, ⟨2, [47, 97, 47, 98], [], false⟩]

theorem find_best_sample : ∃ router, serve true sampleRoutes = some router ∧
    ∀ method path params, ∃ params',
    router.find true method path params = some (answer sampleRoutes method path, params') :=
  find_best true sampleRoutes (by decide)

/-- The second route hides the first one from `/a/bc`. -/
example : answer sampleRoutes 1 [47, 97, 47, 99] = some
    (some ⟨2, [47, 97], [.dynamic [120]], false⟩) ∧
    answer sampleRoutes 1 [47, 97, 47, 98, 99] = none := by decide

theorem unanswered_iff_sample : ∃ router, serve true sampleRoutes = some router ∧
    ∀ method path params,
    (∃ params', router.find true method path params = some (none, params')) ↔
      ∀ r ∈ sampleRoutes, r.stem <+: path → r.serves method (path.drop r.stem.length) = true →
        r.stem = [] ∨ ∃ r' ∈ sampleRoutes, r'.stem <+: path ∧ r.stem.length < r'.stem.length :=
  unanswered_iff true sampleRoutes (by decide)

end CxyCompiler.Stdlib.Http
