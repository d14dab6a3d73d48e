import CxyCompiler.Middle.Scope

/-!
# The declarations of an overloaded function (`lang/middle/bind/scope.c`)

A symbol of a scope leads to the first declaration of its name and to the last one. The declarations
between them are linked in the nodes themselves: each has a link to the next one,
one to the first, and its number.

* `defineFunctionDecl` — a declaration is put behind the last one of its name.
* `define_eq`: what that does to the bindings of the scope (`linkDecl`).
* `Linked` — the links and numbers after some declarations; `run_linked` keeps them.
* `OverloadChain` — the links from the symbol come by the declarations, in order, with their
  numbers.
* **`overload_chain_iff`**: declarations of one name form such a chain exactly if the scope has no
  symbol of that name before, the name is not `_`, no declaration comes twice, there are at most
  65536 of them, the first has the number zero and the last no link. A name that `defineSymbol` has
  bound, as an import does, has no last declaration to be linked.
-/

namespace CxyCompiler.Middle.Bind

open CxyCompiler.Core

/-- The fields of a declaration that link it. Source: `ast.h` `AstNode`. -/
structure Decl (A : Type) where
  isFuncDecl : Bool
  index : UInt16
  first : Option A
  link : Option A

/-- What a symbol has besides its name. Source: `scope.h` `Symbol`. -/
structure Binding (A : Type) where
  index : UInt16
  node : A
  last : Option A
deriving Inhabited

/-- The nodes, by their addresses. -/
abbrev Decls (A : Type) := A → Decl A

section

variable {A : Type} [DecidableEq A] [Inhabited A]

def Decls.setIndex (ast : Decls A) (n : A) (index : UInt16) : Decls A :=
  Function.update ast n { ast n with index }

def Decls.setFirst (ast : Decls A) (n first : A) : Decls A :=
  Function.update ast n { ast n with first := some first }

def Decls.setLink (ast : Decls A) (n link : A) : Decls A :=
  Function.update ast n { ast n with link := some link }

/-- What becomes of a symbol and of the nodes. `L` is whether there is a log.
Source: `scope.c` `defineFunctionDecl`. -/
def linkDecl (L wasInserted : Bool) (sym : Binding A) (ast : Decls A) (node : A) :
    Option (Binding A × Decls A) := do
  let (sym, ast) ←
    if !wasInserted && L && !(ast sym.node).isFuncDecl then some (sym, ast)
    else if !wasInserted then
      let ast := ast.setIndex node sym.index
      let last ← sym.last
      some ({ sym with last := some node }, ast.setLink last node)
    else some ({ sym with last := some node }, ast)
  some ({ sym with index := sym.index + 1 }, ast.setFirst node sym.node)

/-- Source: `scope.c` `defineFunctionDecl`. -/
def defineFunctionDecl (text : Name → String) (L : Bool) (env : Env) (name : Name)
    (m : Memory (Binding A)) (ast : Decls A) (node : A) :
    Option (Memory (Binding A) × Decls A) := do
  let a ← env.scope
  if isIgnoreVar text name then some (m, ast)
  else
    let s ← m.scopes a
    let symbol : Symbol (Binding A) := ⟨name, ⟨0, node, none⟩⟩
    let (wasInserted, symbols) ← insertInHashTable compareSymbols id s.symbols symbol
      (hashName name)
    let i ← ← findInHashTable compareSymbols symbols symbol (hashName name)
    let (sym, ast) ← linkDecl L wasInserted (symbols.elems i).node ast node
    let symbols := symbols.store i (symbols.hashes i) { symbols.elems i with node := sym }
    some (m.write a (some { s with symbols }), ast)

/-- Declarations of one name, one after the other. -/
def defineFunctionDecls (text : Name → String) (L : Bool) (env : Env) (name : Name) :
    Memory (Binding A) → Decls A → List A → Option (Memory (Binding A) × Decls A)
  | m, ast, [] => some (m, ast)
  | m, ast, node :: nodes => do
      let (m, ast) ← defineFunctionDecl text L env name m ast node
      defineFunctionDecls text L env name m ast nodes

/-! ## Fields -/

section Fields

variable (ast : Decls A) (n m x : A) (k : UInt16)

omit [Inhabited A]

/-- A field of a node that another node, or a field beside it, is written over. Kind: L -/
theorem field_same {β : Type} (f : Decl A → β) {d : Decl A} (h : f d = f (ast n)) :
    f (Function.update ast n d m) = f (ast m) := by
  by_cases heq : m = n
  · rw [heq, Function.update_self, h]
  · rw [Function.update_of_ne heq]

theorem field_update {β : Type} (f : Decl A → β) (d : Decl A) :
    f (Function.update ast n d m) = if m = n then f d else f (ast m) := by
  by_cases heq : m = n
  · rw [heq, Function.update_self, if_pos rfl]
  · rw [Function.update_of_ne heq, if_neg heq]

theorem setIndex_first : ((ast.setIndex n k) m).first = (ast m).first :=
  field_same ast n m Decl.first rfl

theorem setIndex_link : ((ast.setIndex n k) m).link = (ast m).link :=
  field_same ast n m Decl.link rfl

theorem setIndex_index : ((ast.setIndex n k) m).index = if m = n then k else (ast m).index :=
  field_update ast n m Decl.index _

theorem setFirst_index : ((ast.setFirst n x) m).index = (ast m).index :=
  field_same ast n m Decl.index rfl

theorem setFirst_link : ((ast.setFirst n x) m).link = (ast m).link :=
  field_same ast n m Decl.link rfl

theorem setFirst_first : ((ast.setFirst n x) m).first = if m = n then some x else (ast m).first :=
  field_update ast n m Decl.first _

theorem setLink_index : ((ast.setLink n x) m).index = (ast m).index :=
  field_same ast n m Decl.index rfl

theorem setLink_first : ((ast.setLink n x) m).first = (ast m).first :=
  field_same ast n m Decl.first rfl

theorem setLink_link : ((ast.setLink n x) m).link = if m = n then some x else (ast m).link :=
  field_update ast n m Decl.link _

theorem isFuncDecl_written (last : A) :
    ((((ast.setIndex n k).setLink last n).setFirst n x) m).isFuncDecl = (ast m).isFuncDecl := by
  have hfirst : ∀ ast' : Decls A, ((ast'.setFirst n x) m).isFuncDecl = (ast' m).isFuncDecl :=
    fun ast' => field_same ast' n m Decl.isFuncDecl rfl
  have hlink : ∀ ast' : Decls A, ((ast'.setLink last n) m).isFuncDecl = (ast' m).isFuncDecl :=
    fun ast' => field_same ast' last m Decl.isFuncDecl rfl
  rw [hfirst, hlink]
  exact field_same ast n m Decl.isFuncDecl rfl

end Fields

/-! ## The symbol of the name -/

/-- The symbol that a declaration finds, or makes. -/
def symbolFor (o : Option (Binding A)) (node : A) : Binding A := o.getD ⟨0, node, none⟩

omit [DecidableEq A] [Inhabited A] in
theorem extend_same (b : Name → Option (Binding A)) (name : Name) (e e' : Binding A) :
    extend (extend b name e) name e' = extend b name e' := by
  funext x
  unfold extend
  split <;> rfl

omit [DecidableEq A] [Inhabited A] in
theorem extend_self (b : Name → Option (Binding A)) (name : Name) (e : Binding A) :
    extend b name e name = some e := if_pos rfl

variable {text : Name → String} {L : Bool} {env : Env} {name : Name} {m : Memory (Binding A)}
  {ast : Decls A} {a : ℕ} {s : Scope (Binding A)} {b : Name → Option (Binding A)}

/-- **A declaration changes the symbol of its name**, as `linkDecl` says, and no other. Kind: P -/
theorem define_eq (L : Bool) (ast : Decls A) (hscope : env.scope = some a)
    (hs : m.scopes a = some s) (hb : TableOk s.symbols b)
    (hname : isIgnoreVar text name = false) (node : A) :
    ∃ write : Binding A → Scope (Binding A),
      (∀ e, TableOk (write e).symbols (extend b name e)) ∧
      defineFunctionDecl text L env name m ast node =
        (linkDecl L (b name).isNone (symbolFor (b name) node) ast node).map fun r =>
          (m.write a (some (write r.1)), r.2) := by
  obtain ⟨t, hinsert, ht⟩ := hb.insert name ⟨0, node, none⟩
  have hfound : (if (b name).isNone then extend b name ⟨0, node, none⟩ else b) name =
      some (symbolFor (b name) node) := by
    unfold symbolFor
    cases hbn : b name with
    | none => exact extend_self ..
    | some e => exact hbn
  rcases ht.find name ⟨0, node, none⟩ with ⟨i, hfind, hi, hocc, hn, hsym⟩ | ⟨-, hnone⟩
  · refine ⟨fun e => { s with symbols := t.store i (t.hashes i) { t.elems i with node := e } },
      fun e => ?_, ?_⟩
    · have hre := ht.rebind hi hocc e
      rw [hn] at hre
      convert hre using 1
      split
      · exact (extend_same ..).symm
      · rfl
    · rw [hfound] at hsym
      unfold defineFunctionDecl
      simp only [hscope, hname, hs, hinsert, hfind, Option.bind_eq_bind, Option.bind_some,
        Bool.false_eq_true, if_false, ← Option.some.inj hsym]
      cases linkDecl L (b name).isNone (symbolFor (b name) node) ast node <;> rfl
  · rw [hfound] at hnone
    cases hnone

/-! ## Chains -/

/-- The declarations that a walk along the links comes by. -/
def Path (ast : Decls A) : Option A → List A → Prop
  | p, [] => p = none
  | p, n :: ns => p = some n ∧ Path ast (ast n).link ns

/-- **The links from the symbol come by the declarations**, each with its number and a link to the
first. -/
structure OverloadChain (ast : Decls A) (sym : Binding A) (ns : List A) : Prop where
  path : Path ast (some sym.node) ns
  index : ∀ i n, ns[i]? = some n → (ast n).index.toNat = i
  first : ∀ n ∈ ns, (ast n).first = some sym.node

omit [DecidableEq A] [Inhabited A] in
theorem path_unique : ∀ {ns ns' : List A} {p : Option A}, Path ast p ns → Path ast p ns' → ns = ns'
  | [], [], _, _, _ => rfl
  | [], n :: ns', _, h, h' => by
      cases h.symm.trans h'.1
  | n :: ns, [], _, h, h' => by
      cases h'.symm.trans h.1
  | n :: ns, n' :: ns', _, h, h' => by
      obtain rfl := Option.some.inj (h.1.symm.trans h'.1)
      rw [path_unique h.2 h'.2]

omit [DecidableEq A] [Inhabited A] in
theorem path_suffix : ∀ {pre : List A} {n : A} {post : List A} {p : Option A},
    Path ast p (pre ++ n :: post) → Path ast (some n) (n :: post)
  | [], _, _, _, h => ⟨rfl, h.2⟩
  | _ :: _, _, _, _, h => path_suffix h.2

omit [DecidableEq A] [Inhabited A] in
/-- A walk that ends comes by no declaration twice. Kind: L -/
theorem path_nodup : ∀ {ns : List A} {p : Option A}, Path ast p ns → ns.Nodup
  | [], _, _ => List.nodup_nil
  | n :: ns, _, h => by
      rw [List.nodup_cons]
      refine ⟨fun hmem => ?_, path_nodup h.2⟩
      obtain ⟨pre, post, heq⟩ := List.append_of_mem hmem
      have hrest := h.2
      rw [heq] at hrest
      have hself : Path ast (some n) (n :: ns) := And.intro rfl h.2
      have hlength := congrArg List.length (path_unique (path_suffix hrest) hself)
      rw [heq, List.length_cons, List.length_cons, List.length_append, List.length_cons] at hlength
      omega

/-- What the nodes are once `done` are declared, `head` before all others. -/
structure Linked (ast₀ ast : Decls A) (head : A) (done : List A) : Prop where
  first : ∀ n ∈ done, (ast n).first = some head
  index : ∀ i n, done[i]? = some n →
    (ast n).index = if i = 0 then (ast₀ n).index else UInt16.ofNat i
  link : ∀ i n, done[i]? = some n →
    (ast n).link = if i + 1 < done.length then done[i + 1]? else (ast₀ n).link
  other : ∀ n, n ∉ done → ast n = ast₀ n
  isFuncDecl : ∀ n, (ast n).isFuncDecl = (ast₀ n).isFuncDecl

omit [Inhabited A] in
theorem linked_single (ast : Decls A) (head : A) :
    Linked ast (ast.setFirst head head) head [head] where
  first := List.forall_mem_singleton.mpr (by rw [setFirst_first, if_pos rfl])
  index i n hi := by
    obtain ⟨rfl, rfl⟩ : i = 0 ∧ head = n := by
      rcases i with _ | i
      · exact ⟨rfl, Option.some.inj hi⟩
      · cases hi
    rw [setFirst_index, if_pos rfl]
  link i n hi := by
    have hlast : ¬ i + 1 < [head].length := by
      rw [List.length_singleton]
      omega
    rw [setFirst_link, if_neg hlast]
  other n hn := Function.update_of_ne (fun h => hn (List.mem_singleton.mpr h)) ..
  isFuncDecl n := field_same ast head n Decl.isFuncDecl rfl

omit [Inhabited A] in
/-- **One more declaration.** Kind: L -/
theorem Linked.snoc {ast₀ : Decls A} {head last node : A} {pre : List A}
    (h : Linked ast₀ ast head (pre ++ [last])) (hnew : node ∉ pre ++ [last])
    (hnodup : (pre ++ [last]).Nodup) :
    Linked ast₀
      (((ast.setIndex node (UInt16.ofNat (pre.length + 1))).setLink last node).setFirst node head)
      head (pre ++ [last] ++ [node]) := by
  have hne : node ≠ last := by
    rintro rfl
    exact hnew (List.mem_append_right _ (List.mem_singleton_self _))
  have hlength : (pre ++ [last]).length = pre.length + 1 := by
    rw [List.length_append, List.length_singleton]
  have hcases : ∀ {i n}, (pre ++ [last] ++ [node])[i]? = some n →
      (pre ++ [last])[i]? = some n ∧ n ≠ node ∨ i = pre.length + 1 ∧ n = node := by
    intro i n hi
    rcases Nat.lt_or_ge i (pre ++ [last]).length with hlt | hge
    · rw [List.getElem?_append_left hlt] at hi
      refine .inl ⟨hi, ?_⟩
      rintro rfl
      exact hnew (List.mem_of_getElem? hi)
    · obtain ⟨hi', hn⟩ := List.getElem?_eq_some_iff.mp hi
      rw [List.length_append, List.length_singleton] at hi'
      obtain rfl : i = (pre ++ [last]).length := by omega
      rw [List.getElem?_concat_length] at hi
      exact .inr ⟨hlength, (Option.some.inj hi).symm⟩
  refine ⟨fun n hn => ?_, fun i n hi => ?_, fun i n hi => ?_, fun n hn => ?_, fun n => ?_⟩
  · rw [setFirst_first, setLink_first, setIndex_first]
    by_cases heq : n = node
    · rw [if_pos heq]
    · rw [if_neg heq]
      refine h.first n ?_
      rcases List.mem_append.mp hn with hn | hn
      · exact hn
      · exact absurd (List.mem_singleton.mp hn) heq
  · rw [setFirst_index, setLink_index, setIndex_index]
    rcases hcases hi with ⟨hi', heq⟩ | ⟨rfl, rfl⟩
    · rw [if_neg heq]
      exact h.index i n hi'
    · rw [if_pos rfl, if_neg (Nat.succ_ne_zero _)]
  · rw [setFirst_link, setLink_link, setIndex_link, List.length_append, hlength,
      List.length_singleton]
    rcases hcases hi with ⟨hi', heq⟩ | ⟨rfl, rfl⟩
    · obtain ⟨hlt, -⟩ := List.getElem?_eq_some_iff.mp hi'
      rw [hlength] at hlt
      rw [if_pos (Nat.succ_lt_succ hlt)]
      by_cases hlast : n = last
      · subst hlast
        have hat : (pre ++ [n])[pre.length]? = some n := List.getElem?_concat_length
        obtain rfl : i = pre.length := by
          obtain ⟨hi₁, hn₁⟩ := List.getElem?_eq_some_iff.mp hi'
          obtain ⟨hi₂, hn₂⟩ := List.getElem?_eq_some_iff.mp hat
          exact hnodup.getElem_inj_iff.mp (hn₁.trans hn₂.symm)
        rw [if_pos rfl, ← hlength, List.getElem?_concat_length]
      · rw [if_neg hlast, h.link i n hi', hlength]
        have hlt' : i + 1 < pre.length + 1 := by
          refine lt_of_le_of_ne hlt fun heq' => hlast ?_
          obtain rfl : i = pre.length := by omega
          rw [List.getElem?_concat_length] at hi'
          exact (Option.some.inj hi').symm
        have hbound : i + 1 < (pre ++ [last]).length := by
          rw [hlength]
          exact hlt'
        rw [if_pos hlt']
        exact (List.getElem?_append_left hbound).symm
    · rw [if_neg (lt_irrefl _), if_neg hne, h.other n hnew]
  · rw [List.mem_append, List.mem_singleton, not_or] at hn
    have hlast : n ≠ last := by
      rintro rfl
      exact hn.1 (List.mem_append_right _ (List.mem_singleton_self _))
    unfold Decls.setFirst Decls.setLink Decls.setIndex
    rw [Function.update_of_ne hn.2, Function.update_of_ne hlast, Function.update_of_ne hn.2,
      h.other n hn.1]
  · rw [isFuncDecl_written]
    exact h.isFuncDecl n

omit [DecidableEq A] [Inhabited A] in
/-- The walk over linked declarations ends if the last one had no link. Kind: L -/
theorem path_linked {ast₀ : Decls A} {head : A} {done : List A} (h : Linked ast₀ ast head done) :
    ∀ {pre : List A} {n : A} {post : List A}, done = pre ++ n :: post →
      (Path ast (some n) (n :: post) ↔ ∀ l ∈ done.getLast?, (ast₀ l).link = none) := by
  intro pre n post
  induction post generalizing pre n with
  | nil =>
      rintro rfl
      have hat : (pre ++ [n])[pre.length]? = some n := List.getElem?_concat_length
      have hlink := h.link pre.length n hat
      have hend : ¬ pre.length + 1 < (pre ++ [n]).length := by
        rw [List.length_append, List.length_singleton]
        omega
      rw [if_neg hend] at hlink
      rw [List.getLast?_concat]
      unfold Path Path
      rw [hlink]
      constructor
      · rintro ⟨-, hnone⟩ l hl
        rw [← Option.some.inj hl]
        exact hnone
      · exact fun hl => ⟨rfl, hl n rfl⟩
  | cons q post ih =>
      intro heq
      have hlength : done.length = pre.length + (post.length + 1 + 1) := by
        rw [heq, List.length_append]
        rfl
      have hat : done[pre.length]? = some n := by
        rw [heq, List.getElem?_append_right (le_refl _), Nat.sub_self]
        rfl
      have hnext : done[pre.length + 1]? = some q := by
        rw [heq, List.getElem?_append_right (Nat.le_add_right ..), Nat.add_sub_cancel_left]
        rfl
      have hlink := h.link pre.length n hat
      rw [if_pos (by omega), hnext] at hlink
      have hrest := @ih (pre ++ [n]) q (by rw [heq, List.append_assoc]; rfl)
      rw [← hrest]
      show (some n = some n ∧ Path ast (ast n).link (q :: post)) ↔ _
      rw [hlink]
      exact and_iff_right rfl

omit [DecidableEq A] [Inhabited A] in
/-- **Linked declarations form a chain** if their number fits in 16 bits, the first had the number
zero and the last no link. Kind: L -/
theorem Linked.chain_iff {ast₀ : Decls A} {head last : A} {rest : List A} {index : UInt16}
    (h : Linked ast₀ ast head (head :: rest)) :
    OverloadChain ast ⟨index, head, some last⟩ (head :: rest) ↔
      (head :: rest).length ≤ 65536 ∧ (ast₀ head).index = 0 ∧
        ∀ l ∈ (head :: rest).getLast?, (ast₀ l).link = none := by
  have hpath : Path ast (some head) (head :: rest) ↔ _ := path_linked h (List.nil_append _).symm
  constructor
  · rintro ⟨hp, hindex, -⟩
    refine ⟨?_, ?_, hpath.mp hp⟩
    · by_contra hlong
      rw [not_le] at hlong
      have hat := List.getElem?_eq_getElem hlong
      have hi := hindex 65536 _ hat
      rw [h.index 65536 _ hat, if_neg (by decide)] at hi
      exact absurd hi (by decide)
    · have hi := hindex 0 head rfl
      rw [h.index 0 head rfl, if_pos rfl] at hi
      exact UInt16.toNat_inj.mp hi
  · rintro ⟨hlength, hzero, hlast⟩
    refine ⟨hpath.mpr hlast, fun i n hi => ?_, h.first⟩
    obtain ⟨hlt, -⟩ := List.getElem?_eq_some_iff.mp hi
    rw [h.index i n hi]
    by_cases hi0 : i = 0
    · subst hi0
      rw [if_pos rfl, ← Option.some.inj hi, hzero]
      rfl
    · rw [if_neg hi0]
      exact Nat.mod_eq_of_lt (hlt.trans_le hlength)

/-! ## A run of declarations -/

/-- The scope and the nodes once `done` are declared. -/
structure Declared (name : Name) (a : ℕ) (ast₀ : Decls A) (head last : A) (m : Memory (Binding A))
    (ast : Decls A) (pre : List A) : Prop where
  linked : Linked ast₀ ast head (pre ++ [last])
  scope : ∃ s b, m.scopes a = some s ∧ TableOk s.symbols b ∧
    b name = some ⟨UInt16.ofNat (pre.length + 1), head, some last⟩

omit [DecidableEq A] [Inhabited A] in
theorem write_same (m : Memory (Binding A)) (a : ℕ) (s : Option (Scope (Binding A))) :
    (m.write a s).scopes a = s := if_pos rfl

/-- The first declaration of a name that the scope does not have. Kind: L -/
theorem declared_first (L : Bool) (ast : Decls A) (hscope : env.scope = some a)
    (hs : m.scopes a = some s)
    (hb : TableOk s.symbols b) (hname : isIgnoreVar text name = false) (hnone : b name = none)
    (head : A) :
    ∃ m' ast', defineFunctionDecl text L env name m ast head = some (m', ast') ∧
      Declared name a ast head head m' ast' [] := by
  obtain ⟨write, hwrite, heq⟩ := define_eq L ast hscope hs hb hname head
  rw [hnone] at heq
  refine ⟨_, _, heq, linked_single ast head, _, _, write_same .., hwrite _, extend_self ..⟩

/-- **A further declaration.** Kind: L -/
theorem Declared.snoc {ast₀ : Decls A} {head last : A} {pre : List A}
    (h : Declared name a ast₀ head last m ast pre) (hscope : env.scope = some a)
    (hname : isIgnoreVar text name = false) (hfunc : (ast₀ head).isFuncDecl = true) {node : A}
    (hnodup : (pre ++ [last] ++ [node]).Nodup) :
    ∃ m' ast', defineFunctionDecl text L env name m ast node = some (m', ast') ∧
      Declared name a ast₀ head node m' ast' (pre ++ [last]) := by
  obtain ⟨s, b, hs, hb, hsym⟩ := h.scope
  obtain ⟨hpre, -, hnew⟩ := List.nodup_append.mp hnodup
  obtain ⟨write, hwrite, heq⟩ := define_eq L ast hscope hs hb hname node
  have hhead : (ast head).isFuncDecl = true := by rw [h.linked.isFuncDecl, hfunc]
  have hfresh : node ∉ pre ++ [last] :=
    fun hmem => hnew node hmem node (List.mem_singleton_self _) rfl
  have hlinked := h.linked.snoc hfresh hpre
  have hindex : UInt16.ofNat (pre.length + 1) + 1 = UInt16.ofNat ((pre ++ [last]).length + 1) := by
    rw [List.length_append, List.length_singleton]
    exact (UInt16.ofNat_add ..).symm
  rw [hsym] at heq
  unfold symbolFor linkDecl at heq
  simp only [Option.getD_some, Option.isNone_some, Bool.not_false,
    Bool.true_and, hhead, Bool.not_true,
    Bool.and_false, Bool.false_eq_true, if_false, if_true, Option.bind_eq_bind, Option.bind_some,
    Option.map_some] at heq
  refine ⟨_, _, heq, hlinked, _, _, write_same .., hwrite _, ?_⟩
  rw [extend_self, hindex]

/-- **Distinct declarations are all linked.** Kind: P -/
theorem run_linked {ast₀ : Decls A} {head : A} (hscope : env.scope = some a)
    (hname : isIgnoreVar text name = false) (hfunc : (ast₀ head).isFuncDecl = true) :
    ∀ (nodes : List A) {pre : List A} {last : A} {m : Memory (Binding A)} {ast : Decls A},
      Declared name a ast₀ head last m ast pre → (pre ++ [last] ++ nodes).Nodup →
      ∃ m' ast' last' pre', defineFunctionDecls text L env name m ast nodes = some (m', ast') ∧
        pre' ++ [last'] = pre ++ [last] ++ nodes ∧
          Declared name a ast₀ head last' m' ast' pre' := by
  intro nodes
  induction nodes with
  | nil =>
      intro pre last m ast h _
      exact ⟨m, ast, last, pre, rfl, (List.append_nil _).symm, h⟩
  | cons node nodes ih =>
      intro pre last m ast h hnodup
      have hassoc : pre ++ [last] ++ node :: nodes = pre ++ [last] ++ [node] ++ nodes := by
        rw [List.append_assoc _ [node]]
        rfl
      rw [hassoc] at hnodup ⊢
      obtain ⟨m₁, ast₁, hdefine, h₁⟩ := h.snoc (L := L) hscope hname hfunc
        (List.nodup_append.mp hnodup).1
      obtain ⟨m', ast', last', pre', hrun, heq, h'⟩ := ih h₁ hnodup
      refine ⟨m', ast', last', pre', ?_, heq, h'⟩
      unfold defineFunctionDecls
      rw [hdefine]
      exact hrun

omit [Inhabited A] in
/-- The first declaration of a symbol stays. Kind: L -/
theorem linkDecl_node {wasInserted : Bool} {sym : Binding A} {node : A} {r : Binding A × Decls A}
    (h : linkDecl L wasInserted sym ast node = some r) : r.1.node = sym.node := by
  unfold linkDecl at h
  by_cases hlog : (!wasInserted && L && !(ast sym.node).isFuncDecl) = true
  · rw [if_pos hlog] at h
    obtain rfl := Option.some.inj h
    rfl
  rw [if_neg hlog] at h
  by_cases hold : (!wasInserted) = true
  · rw [if_pos hold] at h
    cases hlast : sym.last with
    | none =>
        rw [hlast] at h
        cases h
    | some last =>
        rw [hlast] at h
        obtain rfl := Option.some.inj h
        rfl
  · rw [if_neg hold] at h
    obtain rfl := Option.some.inj h
    rfl

theorem run_node (hscope : env.scope = some a) (hname : isIgnoreVar text name = false) :
    ∀ (nodes : List A) {m : Memory (Binding A)} {ast : Decls A} {s : Scope (Binding A)}
      {b : Name → Option (Binding A)} {sym : Binding A} {r : Memory (Binding A) × Decls A},
      m.scopes a = some s → TableOk s.symbols b → b name = some sym →
      defineFunctionDecls text L env name m ast nodes = some r →
      ∃ s' b' sym', r.1.scopes a = some s' ∧ TableOk s'.symbols b' ∧ b' name = some sym' ∧
        sym'.node = sym.node := by
  intro nodes
  induction nodes with
  | nil =>
      intro m ast s b sym r hs hb hsym h
      obtain rfl := Option.some.inj h
      exact ⟨s, b, sym, hs, hb, hsym, rfl⟩
  | cons node nodes ih =>
      intro m ast s b sym r hs hb hsym h
      obtain ⟨write, hwrite, heq⟩ := define_eq L ast hscope hs hb hname node
      unfold defineFunctionDecls at h
      rw [heq, hsym] at h
      cases hlink : linkDecl L (some sym).isNone (symbolFor (some sym) node) ast node with
      | none =>
          rw [hlink] at h
          cases h
      | some p =>
          rw [hlink] at h
          obtain ⟨s', b', sym', hs', hb', hsym', hnode⟩ :=
            ih (write_same ..) (hwrite p.1) (extend_self ..) h
          exact ⟨s', b', sym', hs', hb', hsym', hnode.trans (linkDecl_node hlink)⟩

theorem run_ignored (hscope : env.scope = some a)
    (hname : isIgnoreVar text name = true) : ∀ nodes : List A,
      defineFunctionDecls text L env name m ast nodes = some (m, ast)
  | [] => rfl
  | node :: nodes => by
      have hdefine : defineFunctionDecl text L env name m ast node = some (m, ast) := by
        unfold defineFunctionDecl
        rw [hscope, hname]
        rfl
      unfold defineFunctionDecls
      rw [hdefine]
      exact run_ignored hscope hname nodes

omit [Inhabited A] in
/-- A symbol without a last declaration, as `defineSymbol` makes it, is not linked to a further one:
the declaration is refused or has no result. Kind: L -/
theorem linkDecl_plain {sym : Binding A} (hlast : sym.last = none) (node : A)
    (hfunc : (L && !(ast sym.node).isFuncDecl) = false) : linkDecl L false sym ast node = none := by
  unfold linkDecl
  rw [Bool.not_false, Bool.true_and,
    if_neg (by rw [hfunc]; exact Bool.false_ne_true), if_pos rfl, hlast]
  rfl

/-! ## When the declarations form a chain -/

/-- The symbol of the name leads to a chain of the declarations. -/
def Chained (name : Name) (a : ℕ) (ns : List A)
    (r : Option (Memory (Binding A) × Decls A)) : Prop :=
  ∃ m ast s sym, r = some (m, ast) ∧ m.scopes a = some s ∧
    lookupSymbol s.symbols name = some (some sym) ∧ OverloadChain ast sym ns

structure Chainable (text : Name → String) (b : Name → Option (Binding A)) (ast : Decls A)
    (name : Name)
    (head : A) (rest : List A) : Prop where
  named : isIgnoreVar text name = false
  unbound : b name = none
  nodup : (head :: rest).Nodup
  length : (head :: rest).length ≤ 65536
  index : (ast head).index = 0
  link : ∀ l ∈ (head :: rest).getLast?, (ast l).link = none

/-- **Declarations of one name form a chain exactly if `Chainable` holds.** Before them the name has
no symbol, or one that is no overload yet. Kind: P -/
theorem overload_chain_iff (hscope : env.scope = some a) (hs : m.scopes a = some s)
    (hb : TableOk s.symbols b) (head : A) (rest : List A)
    (hfunc : ∀ n ∈ head :: rest, (ast n).isFuncDecl = true)
    (hplain : ∀ sym, b name = some sym → isIgnoreVar text name = false ∧ sym.last = none) :
    Chained name a (head :: rest) (defineFunctionDecls text L env name m ast (head :: rest)) ↔
      Chainable text b ast name head rest := by
  have hhead := hfunc head (List.mem_cons_self ..)
  cases hname : isIgnoreVar text name with
  | true =>
      constructor
      · rintro ⟨m', ast', s', sym, hrun, hs', hlookup, -⟩
        rw [run_ignored hscope hname, Option.some.injEq, Prod.mk.injEq] at hrun
        obtain ⟨rfl, -⟩ := hrun
        obtain rfl := Option.some.inj (hs.symm.trans hs')
        rw [hb.lookupSymbol_eq] at hlookup
        have hnot := (hplain sym (Option.some.inj hlookup)).1
        rw [hname] at hnot
        cases hnot
      · rintro ⟨hnamed, -⟩
        rw [hname] at hnamed
        cases hnamed
  | false =>
  cases hbound : b name with
  | some sym =>
      constructor
      · rintro ⟨m', ast', s', sym', hrun, hs', hlookup, hchain⟩
        exfalso
        obtain ⟨s₁, b₁, sym₁, hs₁, hb₁, hsym₁, hnode⟩ := run_node hscope hname _ hs hb hbound hrun
        obtain rfl := Option.some.inj (hs₁.symm.trans hs')
        rw [hb₁.lookupSymbol_eq, hsym₁] at hlookup
        obtain rfl := Option.some.inj (Option.some.inj hlookup)
        have hfirst : sym.node = head := hnode.symm.trans (Option.some.inj hchain.path.1)
        obtain ⟨write, -, heq⟩ := define_eq L ast hscope hs hb hname head
        have hnone : linkDecl L false sym ast head = none := by
          apply linkDecl_plain (hplain sym hbound).2
          rw [hfirst, hhead]
          exact Bool.and_false L
        unfold defineFunctionDecls at hrun
        rw [heq, hbound] at hrun
        unfold symbolFor at hrun
        rw [Option.isNone_some, Option.getD_some, hnone] at hrun
        cases hrun
      · intro h
        cases hbound.symm.trans h.unbound
  | none =>
      obtain ⟨m₁, ast₁, hdefine, h₁⟩ := declared_first L ast hscope hs hb hname hbound head
      have hrun : defineFunctionDecls text L env name m ast (head :: rest) =
          defineFunctionDecls text L env name m₁ ast₁ rest := by
        rw [defineFunctionDecls, hdefine]
        rfl
      rw [hrun]
      by_cases hnodup : (head :: rest).Nodup
      · obtain ⟨m', ast', last, pre, hrest, heq, h'⟩ :=
          run_linked (L := L) hscope hname hhead rest h₁ hnodup
        obtain ⟨s', b', hs', hb', hsym'⟩ := h'.scope
        have hlinked := h'.linked
        rw [heq] at hlinked
        have hiff := @Linked.chain_iff A ast' ast head last rest
          (UInt16.ofNat (pre.length + 1)) hlinked
        rw [hrest]
        constructor
        · rintro ⟨m₂, ast₂, s₂, sym₂, hr, hs₂, hlookup, hchain⟩
          obtain ⟨rfl, rfl⟩ := Prod.mk.inj (Option.some.inj hr)
          obtain rfl := Option.some.inj (hs'.symm.trans hs₂)
          rw [hb'.lookupSymbol_eq, hsym'] at hlookup
          obtain rfl := Option.some.inj (Option.some.inj hlookup)
          obtain ⟨hlength, hindex, hlink⟩ := hiff.mp hchain
          exact ⟨hname, hbound, hnodup, hlength, hindex, hlink⟩
        · intro h
          refine ⟨m', ast', s', _, rfl, hs', ?_, hiff.mpr ⟨h.length, h.index, h.link⟩⟩
          rw [hb'.lookupSymbol_eq, hsym']
      · constructor
        · rintro ⟨m₂, ast₂, s₂, sym₂, -, -, -, hchain⟩
          exact absurd (path_nodup hchain.path) hnodup
        · exact fun h => absurd h.nodup hnodup

end

/-! ## A scope of a file -/

def fileScope : Memory (Binding ℕ) :=
  ⟨fun a => if a = 0 then some ⟨newHashTable, none, none, none⟩ else none, 1⟩

def functions : Decls ℕ := fun _ => ⟨true, 0, none, none⟩

theorem three_overloads_chain :
    Chained 7 0 [1, 2, 3]
      (defineFunctionDecls (fun _ => "f") true ⟨some 0, some 0⟩ 7 fileScope functions
        [1, 2, 3]) := by
  have hlink : ∀ l ∈ [1, 2, 3].getLast?, (functions l).link = none := fun _ _ => rfl
  have hname : isIgnoreVar (fun _ => "f") 7 = false := by decide
  refine (overload_chain_iff rfl rfl TableOk.new 1 [2, 3] (fun _ _ => rfl) ?_).mpr
    ⟨hname, rfl, by decide, by decide, rfl, hlink⟩
  exact fun sym hsym => absurd hsym (Option.some_ne_none sym).symm

/-- An import binds `f` to a function, and no function `f` of the file itself is declared.
Kind: P -/
theorem import_without_chain :
    ∃ m, defineSymbol (fun _ => "f") fileScope ⟨some 0, some 0⟩ 7 ⟨0, 1, none⟩ = some (m, true) ∧
      ∀ L, ¬ Chained 7 0 [2, 3]
        (defineFunctionDecls (fun _ => "f") L ⟨some 0, some 0⟩ 7 m functions [2, 3]) := by
  have hname : isIgnoreVar (fun _ => "f") 7 = false := by decide
  have hnew : TableOk (newHashTable : HashTable (Symbol (Binding ℕ))) fun _ => none := TableOk.new
  obtain ⟨t, hinsert, ht⟩ := hnew.insert 7 ⟨0, 1, none⟩
  refine ⟨fileScope.write 0 (some ⟨t, none, none, none⟩), ?_, fun L => ?_⟩
  · have hs : fileScope.scopes 0 = some ⟨newHashTable, none, none, none⟩ := rfl
    unfold defineSymbol
    simp only [hname, hs, hinsert, Option.bind_eq_bind, Option.bind_some,
      Bool.false_eq_true, if_false]
    rfl
  · rintro ⟨m, ast, s, sym, hrun, -⟩
    have hscope : (⟨some 0, some 0⟩ : Env).scope = some 0 := rfl
    obtain ⟨write, -, heq⟩ := define_eq (s := ⟨t, none, none, none⟩) L functions hscope
      (write_same fileScope 0 _) ht hname 2
    have hnone : linkDecl L false (⟨0, 1, none⟩ : Binding ℕ) functions 2 = none :=
      linkDecl_plain rfl 2 (Bool.and_false L)
    have hbound : (if Option.isNone (none : Option (Binding ℕ)) then
        extend (fun _ => none) 7 (⟨0, 1, none⟩ : Binding ℕ) else fun _ => none) 7 =
        some ⟨0, 1, none⟩ := rfl
    unfold defineFunctionDecls at hrun
    rw [heq, hbound] at hrun
    unfold symbolFor at hrun
    rw [Option.isNone_some, Option.getD_some, hnone] at hrun
    cases hrun

end CxyCompiler.Middle.Bind
