import CxyCompiler.Lib.Links

/-!
# Replacing a node of a list (`frontend/ast.c`)

A list of nodes is a pointer to the first of them, each with a pointer to the next. The loops are
granted a number of rounds, and a null pointer that is followed has no result.

* `getLastAstNode`, `replaceAstNodeInList` — the functions, on the links of all nodes.
* `Replacement` — a list, a node of it and another list for its place.
* `replaced_iff` — **the node is replaced in place if and only if it is the first one, and the other
  list is not empty, or it is the last one**.
-/

namespace CxyCompiler.Frontend.ReplaceNode

open Lib.Links

variable {ι : Type} [DecidableEq ι]

/-! ## The functions -/

/-- Source: `ast.c` `getLastAstNode`, of a node. -/
def getLastAstNode (link : ι → Option ι) : ℕ → ι → Option ι
  | 0, _ => none
  | rounds + 1, node =>
      match link node with
      | some next => getLastAstNode link rounds next
      | none => some node

/-- The links after the loop, which has come to `it` behind `prev`. Source: `ast.c`
`replaceAstNodeInList`. -/
def replaceBehind (link : ι → Option ι) (node : ι) (repl : Option ι) :
    ℕ → ι → Option ι → Option (ι → Option ι)
  | 0, _, _ => none
  | _ + 1, _, none => some link
  | rounds + 1, prev, some it =>
      if it = node then some (Function.update link prev repl)
      else replaceBehind link node repl rounds it (link it)

/-- What `*list` and the links are then. Source: `ast.c` `replaceAstNodeInList`. -/
def replaceAstNodeInList (rounds : ℕ) (link : ι → Option ι) (list : Option ι) (node : ι)
    (repl : Option ι) : Option (Option ι × (ι → Option ι)) :=
  if list = some node then do
    let first ← repl
    let last ← getLastAstNode link rounds first
    return (repl, Function.update link last (link node))
  else do
    let first ← list
    let link' ← replaceBehind link node repl rounds first (link first)
    return (list, link')

/-! ## Lists -/

/-- A list with a node, and a list for the place of the node that shares none with it. -/
structure Replacement (ι : Type) where
  link : ι → Option ι
  list : Option ι
  before : List ι
  node : ι
  after : List ι
  repl : Option ι
  nodes : List ι
  list_chain : Chain link list (before ++ node :: after)
  repl_chain : Chain link repl nodes
  nodup : ((before ++ node :: after) ++ nodes).Nodup

/-- With enough rounds, the list is left with the other list in place of the node. -/
def Right (r : Replacement ι) : Prop :=
  ∃ rounds list' link', replaceAstNodeInList rounds r.link r.list r.node r.repl = some
    (list', link') ∧
    Chain link' list' (r.before ++ r.nodes ++ r.after)

/-! ## The loops -/

variable {link : ι → Option ι} {r : Option ι} {node : ι}

omit [DecidableEq ι] in
theorem getLastAstNode_spec {ns : List ι} {b a : ι} (h : Chain link (some a) (ns ++ [b])) :
    getLastAstNode link (ns.length + 1) a = some b := by
  induction ns generalizing a with
  | nil =>
      obtain ⟨hab, hend⟩ := h
      obtain rfl := Option.some.inj hab
      change link a = none at hend
      rw [getLastAstNode, hend]
  | cons n ns ih =>
      obtain ⟨han, hrest⟩ := h
      obtain rfl := Option.some.inj han
      obtain ⟨next, hnext⟩ : ∃ next, link a = some next := by
        cases ns with
        | nil => exact ⟨b, hrest.1⟩
        | cons m ns => exact ⟨m, hrest.1⟩
      rw [List.length_cons, getLastAstNode, hnext]
      exact ih (hnext ▸ hrest)

/-- The loop leads the link of the node in front on to the other list, and drops what was behind.
Kind: L -/
theorem replaceBehind_spec {repl : Option ι} {ns ms : List ι} {p q : ι} {it : Option ι}
    (h : Chain link it (ns ++ node :: ms)) (hno : node ∉ ns) (hlast : (p :: ns).getLast? = some q)
    (rounds : ℕ) :
    replaceBehind link node repl rounds p it =
      if ns.length < rounds then some (Function.update link q repl) else none := by
  induction ns generalizing p it rounds with
  | nil =>
      obtain rfl : p = q := Option.some.inj hlast
      obtain _ | rounds := rounds
      · rfl
      · rw [h.1, replaceBehind, if_pos rfl, List.length_nil, if_pos (Nat.succ_pos rounds)]
  | cons n ns ih =>
      obtain ⟨hne, hno⟩ := List.ne_and_not_mem_of_not_mem_cons hno
      obtain _ | rounds := rounds
      · rfl
      · rw [h.1, replaceBehind, if_neg (Ne.symm hne), ih h.2 hno hlast rounds, List.length_cons]
        by_cases hlt : ns.length < rounds
        · rw [if_pos hlt, if_pos (Nat.succ_lt_succ hlt)]
        · rw [if_neg hlt, if_neg (fun hlt' => hlt (Nat.lt_of_succ_lt_succ hlt'))]

/-! ## The list that is left -/

/-- Behind another node, the list is left without what was behind the node. Kind: L -/
theorem replace_behind (r : Replacement ι) (hne : r.before ≠ []) (rounds : ℕ) :
    ∃ link', Chain link' r.list (r.before ++ r.nodes) ∧
      replaceAstNodeInList rounds r.link r.list r.node r.repl =
        if r.before.length ≤ rounds then some (r.list, link') else none := by
  obtain ⟨link, list, before, node, after, repl, nodes, hlist, hrepl, hno⟩ := r
  obtain _ | ⟨p, bs⟩ := before
  · exact absurd rfl hne
  · obtain ⟨init, q, hsplit⟩ : ∃ init q, p :: bs = init ++ [q] :=
      ⟨(p :: bs).dropLast, (p :: bs).getLast hne, (List.dropLast_append_getLast hne).symm⟩
    have hlast : (p :: bs).getLast? = some q := by rw [hsplit, List.getLast?_concat]
    have hall : ((init ++ [q]) ++ node :: after ++ nodes).Nodup := hsplit ▸ hno
    obtain ⟨hfront, -, hdisjoint⟩ := List.nodup_append.mp hall
    obtain ⟨hbefore, -, hbehind⟩ := List.nodup_append.mp hfront
    have hq : q ∉ init := by
      obtain ⟨-, -, hinit⟩ := List.nodup_append.mp hbefore
      exact fun hmem => hinit q hmem q (List.mem_singleton_self q) rfl
    have hnode : node ∉ p :: bs := by
      rw [hsplit]
      exact fun hmem => hbehind node hmem node List.mem_cons_self rfl
    have hnodes : q ∉ nodes := fun hmem => hdisjoint q (by simp) q hmem rfl
    obtain ⟨hpne, hbs⟩ := List.ne_and_not_mem_of_not_mem_cons hnode
    refine ⟨Function.update link q repl, ?_, ?_⟩
    · change Chain _ list ((p :: bs) ++ nodes)
      rw [hsplit, List.append_assoc]
      have hchain : Chain link list (init ++ q :: (node :: after)) := by
        have := hlist
        rw [hsplit, List.append_assoc] at this
        exact this
      exact hchain.redirect hq (hrepl.update hnodes repl)
    · obtain rfl : list = some p := hlist.1
      have hloop := @replaceBehind_spec ι _ link node repl bs after p q
        (link p) hlist.2 hbs hlast rounds
      unfold replaceAstNodeInList
      dsimp only
      rw [if_neg (fun heq => hpne (Option.some.inj heq).symm)]
      change (replaceBehind link node repl rounds p (link p)).bind _ = _
      rw [hloop, List.length_cons]
      by_cases hlt : bs.length < rounds
      · rw [if_pos hlt, if_pos (Nat.succ_le_of_lt hlt)]
        rfl
      · rw [if_neg hlt, if_neg (fun hle => hlt (Nat.lt_of_succ_le hle))]
        rfl

/-- **The first node is replaced in place** by a list that is not empty. Kind: L -/
theorem replace_first (r : Replacement ι) (hfirst : r.before = []) : Right r ↔ r.nodes ≠ [] := by
  obtain ⟨link, list, before, node, after, repl, nodes, hlist, hrepl, hno⟩ := r
  dsimp only at hfirst
  subst hfirst
  have hnode : list = some node := hlist.1
  constructor
  · rintro ⟨rounds, list', link', hresult, -⟩ hnil
    dsimp only at hresult hnil
    subst hnil
    obtain rfl : repl = none := hrepl
    unfold replaceAstNodeInList at hresult
    rw [if_pos hnode] at hresult
    exact absurd hresult (Option.some_ne_none _).symm
  · intro hne
    change nodes ≠ [] at hne
    obtain ⟨init, q, rfl⟩ : ∃ init q, nodes = init ++ [q] :=
      ⟨nodes.dropLast, nodes.getLast hne, (List.dropLast_append_getLast hne).symm⟩
    obtain ⟨first, rfl⟩ : ∃ first, repl = some first := by
      cases init with
      | nil => exact ⟨q, hrepl.1⟩
      | cons n ns => exact ⟨n, hrepl.1⟩
    obtain ⟨-, hnodes, hdisjoint⟩ := List.nodup_append.mp hno
    have hq : q ∉ init := by
      obtain ⟨-, -, hinit⟩ := List.nodup_append.mp hnodes
      exact fun hmem => hinit q hmem q (List.mem_singleton_self q) rfl
    have hafter : q ∉ after := by
      intro hmem
      exact hdisjoint q (List.mem_cons_of_mem _ hmem) q (by simp) rfl
    refine ⟨init.length + 1, some first, Function.update link q (link node), ?_, ?_⟩
    · unfold replaceAstNodeInList
      dsimp only
      rw [if_pos hnode]
      change (getLastAstNode link (init.length + 1) first).bind _ = _
      rw [getLastAstNode_spec hrepl]
      rfl
    · change Chain _ (some first) ([] ++ (init ++ [q]) ++ after)
      rw [List.nil_append, List.append_assoc]
      exact hrepl.redirect hq (hlist.2.update hafter _)

/-- **The node is replaced in place if and only if it is the first one**, and the list for its place
is not empty, **or it is the last one.** Kind: P -/
theorem replaced_iff (r : Replacement ι) :
    Right r ↔ (r.before = [] ∧ r.nodes ≠ []) ∨ (r.before ≠ [] ∧ r.after = []) := by
  by_cases hfirst : r.before = []
  · rw [replace_first r hfirst]
    constructor
    · exact fun hne => Or.inl ⟨hfirst, hne⟩
    · rintro (⟨-, hne⟩ | ⟨hnot, -⟩)
      · exact hne
      · exact absurd hfirst hnot
  · constructor
    · rintro ⟨rounds, list', link', hresult, hchain⟩
      obtain ⟨left, hleft, hloop⟩ := replace_behind r hfirst rounds
      refine Or.inr ⟨hfirst, ?_⟩
      rw [hloop] at hresult
      split_ifs at hresult with hle
      obtain ⟨rfl, rfl⟩ := Prod.mk.inj (Option.some.inj hresult)
      have hlists := chain_unique hleft hchain
      exact List.self_eq_append_right.mp hlists
    · rintro (⟨hnil, -⟩ | ⟨-, hafter⟩)
      · exact absurd hnil hfirst
      · obtain ⟨left, hleft, hloop⟩ := replace_behind r hfirst r.before.length
        refine ⟨r.before.length, r.list, left, ?_, ?_⟩
        · rw [hloop, if_pos (le_refl _)]
        · rw [hafter, List.append_nil]
          exact hleft

/-- A list of three nodes, and a node for the place of the second one. -/
def middle : Replacement ℕ where
  link := fun n => if n = 0 then some 1 else if n = 1 then some 2 else none
  list := some 0
  before := [0]
  node := 1
  after := [2]
  repl := some 3
  nodes := [3]
  list_chain := by decide
  repl_chain := by decide
  nodup := by decide

/-- The third node is lost. Kind: P -/
theorem middle_loses_last : ¬ Right middle ∧
    ∃ link', replaceAstNodeInList 2 middle.link middle.list middle.node middle.repl =
      some (some 0, link') ∧ Chain link' (some 0) [0, 3] := by
  obtain ⟨left, hleft, hloop⟩ := replace_behind middle (by decide) 2
  refine ⟨?_, left, hloop, hleft⟩
  rintro ⟨rounds, list', link', hresult, hchain⟩
  obtain ⟨left', hleft', hloop'⟩ := replace_behind middle (by decide) rounds
  rw [hloop'] at hresult
  split_ifs at hresult with hle
  obtain ⟨rfl, rfl⟩ := Prod.mk.inj (Option.some.inj hresult)
  exact absurd (chain_unique hleft' hchain) (by decide)

end CxyCompiler.Frontend.ReplaceNode
