import CxyCompiler.Lib.PrefixTree
import CxyCompiler.Runtime.StringHash
import CxyCompiler.Stdlib.HashMapRuns
import CxyCompiler.Stdlib.Value
import Mathlib.Data.Fintype.Card

/-!
# The trie of the standard library (`stdlib/trie.cxy`)

The nodes of a trie are on the heap, the root among them: an address is a position in the list of
all nodes, and the root has the first. A node leads on through a hash map of characters. A key is
the bytes of a string, and a byte is widened to a `wchar` when it is looked up.

* `nodeAdd`, `addKey`, `findPrefix`, `find` — the operations. A failed assertion is the result
  `none`.
* `Inv` — **the invariant**: the nodes form a prefix tree, and each holds the datum of its key.
* `nodeAdd_inv`, `addKey_inv`, `build_inv` — a step, an addition and all of them keep it.
* `findPrefix_spec`, `find_spec` — what the searches find: **every key but the empty one**.
* `finds_iff` — **a trie finds what was added exactly where the empty key was not**;
  `empty_key_not_found` is one with the empty key.
-/

namespace CxyCompiler.Stdlib.Trie

open CxyCompiler.Core (HashCode hashInit)
open CxyCompiler.Lib.PrefixTree
open CxyCompiler.Runtime (hashFnv1aUint8)

/-! ## The operations -/

/-- Source: `builtins.cxy` `hash_fnv1a_uint16`. -/
def hashFnv1aUint16 (h : HashCode) (x : UInt16) : HashCode :=
  hashFnv1aUint8 (hashFnv1aUint8 h (x &&& 0xff).toUInt8) (x >>> 8).toUInt8

/-- Source: `builtins.cxy` `hash_fnv1a_uint32`. -/
def hashFnv1aUint32 (h : HashCode) (x : UInt32) : HashCode :=
  hashFnv1aUint16 (hashFnv1aUint16 h (x &&& 0xffff).toUInt16) (x >>> 16).toUInt16

/-- Source: `builtins.cxy` `hash`, of a `wchar`. -/
def hashWchar (c : UInt32) : ℕ := (hashFnv1aUint32 hashInit c).toNat

/-- Source: `trie.cxy` `TrieNode`. -/
structure TrieNode (D : Type) where
  children : HashMap UInt32 ℕ
  tag : UInt8
  data : Option D

/-- The nodes by their addresses. -/
abbrev Heap (D : Type) := List (TrieNode D)

variable {D : Type}

/-- Source: `trie.cxy` `TrieNode.init`. -/
def TrieNode.init (c : UInt8) : TrieNode D :=
  { children := HashMap.init 0, tag := c, data := none }

/-- Source: `trie.cxy` `TrieNode.get`. -/
def TrieNode.get (node : TrieNode D) (c : UInt32) : Option (Option ℕ) :=
  HashMap.get hashWchar (· == ·) node.children c

/-- The child of the node at `a`, which is allocated if it is not there. Source: `trie.cxy`
`TrieNode.add`. -/
def nodeAdd (heap : Heap D) (a : ℕ) (c : UInt32) : Option (Heap D × ℕ) := do
  let node ← heap[a]?
  match ← node.get c with
  | some child => some (heap, child)
  | none =>
      let (children, _) ← HashMap.insert hashWchar (· == ·) node.children c heap.length true
      some (heap.set a { node with children := children } ++ [TrieNode.init c.toUInt8], heap.length)

/-- Source: `trie.cxy` `Trie.add`. -/
def addKey (signed : Bool) (heap : Heap D) (key : List UInt8) (data : D) : Option (Heap D) := do
  let (heap, a) ← key.foldlM (fun s c => nodeAdd s.1 s.2 (widen signed c)) (heap, 0)
  let node ← heap[a]?
  if node.data.isSome then none else some (heap.set a { node with data := some data })

/-- The loop of the search stands at the node `a`, behind `i` characters. Source: `trie.cxy`
`Trie.find` of a prefix. -/
def findLoop (signed : Bool) (heap : Heap D) :
    ℕ → ℕ → Option (ℕ × D) → List UInt8 → Option (Option (ℕ × D))
  | _, _, found, [] => some found
  | a, i, found, c :: cs => do
      let node ← heap[a]?
      match ← node.get (widen signed c) with
      | none => some found
      | some b =>
          let node ← heap[b]?
          match node.data with
          | some data => findLoop signed heap b (i + 1) (some (i + 1, data)) cs
          | none => findLoop signed heap b (i + 1) found cs

/-- Source: `trie.cxy` `Trie.find` of a prefix. -/
def findPrefix (signed : Bool) (heap : Heap D) (key : List UInt8) : Option (Option (ℕ × D)) :=
  findLoop signed heap 0 0 none key

/-- Source: `trie.cxy` `Trie.find`. -/
def find (signed : Bool) (heap : Heap D) (key : List UInt8) : Option (Option D) := do
  match ← findPrefix signed heap key with
  | some (idx, data) => if idx = key.length then some (some data) else some none
  | none => some none

/-- A new trie, and a call of `add` for each key. Source: `trie.cxy` `Trie.init`, `Trie.add`. -/
def build (signed : Bool) (adds : List (List UInt8 × D)) : Option (Heap D) :=
  adds.foldlM (fun heap e => addKey signed heap e.1 e.2) [TrieNode.init 0]

/-- **The searches find what was added.** -/
structure Finds (signed : Bool) (heap : Heap D) (adds : List (List UInt8 × D)) : Prop where
  exact : ∀ k, ∃ r, find signed heap k = some r ∧ Found adds k r
  longest : ∀ p, ∃ r, findPrefix signed heap p = some r ∧ Longest adds p r

/-! ## The children of a node -/

/-- The children of a node are at most as many as there are characters. Kind: L -/
theorem children_size_le {t : HashMap UInt32 ℕ} {m : UInt32 → Option ℕ}
    (h : HashMap.Inv hashWchar (· == ·) t m) : t.size ≤ 2 ^ 32 := by
  have hnodup : ((HashMap.pairs t).map fun x => x.1.toFin).Nodup := by
    refine List.pairwise_map.mpr ((HashMap.pairs_pairwise h.wf).imp fun {x y} hxy heq => ?_)
    have hne : (x.1 == y.1) = false := hxy.1
    rw [beq_eq_false_iff_ne] at hne
    exact hne (UInt32.toFin_inj.mp heq)
  rw [HashMap.size_eq_length h.wf, ← List.length_map (fun x : UInt32 × ℕ => x.1.toFin)]
  have hcard := hnodup.length_le_card
  rwa [Fintype.card_fin] at hcard

theorem hashWchar_consistent : HashMap.Consistent hashWchar (· == ·) where
  refl := by simp
  symm := by
    intro x y hxy
    rw [beq_iff_eq] at *
    exact hxy.symm
  trans := by
    intro x y z hxy hyz
    rw [beq_iff_eq] at *
    exact hxy.trans hyz
  hash_eq := by
    intro x y hxy
    rw [beq_iff_eq] at hxy
    rw [hxy]

/-- A child is put into the map of a node. Kind: L -/
theorem children_insert {t : HashMap UInt32 ℕ} {m : UInt32 → Option ℕ}
    (h : HashMap.Inv hashWchar (· == ·) t m) (c : UInt32) (b : ℕ) :
    ∃ r, HashMap.insert hashWchar (· == ·) t c b true = some r ∧
      HashMap.Inv hashWchar (· == ·) r.1 fun d => if d = c then some b else m d := by
  have hbound : HashMap.idealSize (t.size + 1) ≤ 2 ^ 63 :=
    (HashMap.idealSize_mono (Nat.succ_le_succ (children_size_le h))).trans (by decide)
  obtain ⟨t', hstep, hinv⟩ := h.insert hashWchar_consistent c b true hbound
  obtain ⟨r, hr, rfl⟩ := Option.map_eq_some_iff.mp hstep
  refine ⟨r, hr, ?_⟩
  have hspec : HashMap.specStep (· == ·) m (.insert c b true) = fun d =>
    if d = c then some b else m d := by
    funext d
    unfold HashMap.specStep
    by_cases hdc : d = c
    · simp [hdc]
    · simp [hdc, Ne.symm hdc]
  rw [← hspec]
  exact hinv

/-! ## The invariant -/

/-- **The nodes form a prefix tree, and each holds the datum of its key.** -/
structure Inv (heap : Heap D) (names : List (List UInt32)) (entries : List (List UInt32 × D)) :
    Prop where
  length_eq : names.length = heap.length
  tree : Tree names
  children : ∀ (a : ℕ) (node : TrieNode D) (w : List UInt32),
    heap[a]? = some node → names[a]? = some w →
    HashMap.Inv hashWchar (· == ·) node.children (child names w)
  data : ∀ (a : ℕ) (node : TrieNode D) (w : List UInt32),
    heap[a]? = some node → names[a]? = some w → Found entries w node.data
  keys : ∀ e ∈ entries, e.1 ∈ names

variable {heap : Heap D} {names : List (List UInt32)} {entries : List (List UInt32 × D)} {a : ℕ}
  {w : List UInt32} {c : UInt32}

theorem start_inv : Inv ([TrieNode.init 0] : Heap D) [[]] [] where
  length_eq := rfl
  tree := Tree.start
  children := by
    intro a node w hnode hw
    obtain ⟨ha, rfl⟩ := List.getElem?_eq_some_iff.mp hnode
    obtain rfl : a = 0 := Nat.lt_one_iff.mp ha
    rw [← Option.some.inj hw]
    exact HashMap.init_inv (by decide)
  data := by
    intro a node w hnode _
    obtain ⟨ha, rfl⟩ := List.getElem?_eq_some_iff.mp hnode
    obtain rfl : a = 0 := Nat.lt_one_iff.mp ha
    simp [Found, TrieNode.init]
  keys := by simp

theorem Inv.node (h : Inv heap names entries) (ha : names[a]? = some w) :
    ∃ node : TrieNode D, heap[a]? = some node := by
  have hlt : a < heap.length := by
    rw [← h.length_eq]
    exact (List.getElem?_eq_some_iff.mp ha).1
  exact ⟨heap[a], List.getElem?_eq_getElem hlt⟩

/-- A node leads to the node of the longer word. Kind: L -/
theorem Inv.get_eq (h : Inv heap names entries) {node : TrieNode D} (hnode : heap[a]? = some node)
    (ha : names[a]? = some w) (c : UInt32) : node.get c = some (child names w c) :=
  (h.children a node w hnode ha).get_eq hashWchar_consistent c

theorem grown_cases {x y node : TrieNode D} {v w : List UInt32} {i : ℕ}
    (hlen : names.length = heap.length) (hnode : (heap.set a x ++ [y])[i]? = some node)
    (hw : (names ++ [v])[i]? = some w) :
    (i = heap.length ∧ node = y ∧ w = v) ∨
      (names[i]? = some w ∧ (i = a ∧ node = x ∨ i ≠ a ∧ heap[i]? = some node)) := by
  rcases Nat.lt_trichotomy i heap.length with hlt | heq | hgt
  · right
    rw [List.getElem?_append_left (by simpa using hlt), List.getElem?_set] at hnode
    rw [List.getElem?_append_left (by omega)] at hw
    refine ⟨hw, ?_⟩
    split_ifs at hnode with ha hia
    · exact Or.inl ⟨ha.symm, (Option.some.inj hnode).symm⟩
    · exact Or.inr ⟨Ne.symm ha, hnode⟩
  · left
    subst heq
    simp only [List.getElem?_append_right, List.length_set, le_refl, Nat.sub_self,
      List.getElem?_cons_zero] at hnode
    rw [← hlen] at hw
    simp only [List.getElem?_append_right, le_refl, Nat.sub_self, List.getElem?_cons_zero] at hw
    exact ⟨rfl, (Option.some.inj hnode).symm, (Option.some.inj hw).symm⟩
  · have hnone : (heap.set a x ++ [y])[i]? = none := by
      rw [List.getElem?_eq_none_iff]
      simp
      omega
    rw [hnone] at hnode
    cases hnode

/-- No entry has a word without a node. Kind: L -/
theorem Inv.found_none (h : Inv heap names entries) (hw : w ∉ names) : Found entries w none := by
  intro d
  constructor
  · intro hd
    cases hd
  · intro hd
    exact absurd (h.keys _ hd) hw

/-- **One character of an addition**: it leads to the node of the longer word, which may be new.
Kind: P -/
theorem nodeAdd_inv (h : Inv heap names entries) (ha : names[a]? = some w) (c : UInt32) :
    ∃ heap' names' b, nodeAdd heap a c = some (heap', b) ∧ Inv heap' names' entries ∧
      names'[b]? = some (w ++ [c]) := by
  obtain ⟨node, hnode⟩ := h.node ha
  have hget := h.get_eq hnode ha c
  rcases hchild : child names w c with _ | b
  · obtain ⟨r, hins, hr⟩ := children_insert (h.children a node w hnode ha) c heap.length
    have hnew : w ++ [c] ∉ names := place_eq_none.mp hchild
    refine ⟨heap.set a { node with children := r.1 } ++ [TrieNode.init c.toUInt8],
      names ++ [w ++ [c]], heap.length, ?_, ?_, ?_⟩
    · simp only [nodeAdd, hnode, hget, hchild, hins, Option.bind_eq_bind, Option.bind_some]
    · refine ⟨by simp [h.length_eq], h.tree.grow (List.mem_of_getElem? ha) hnew, ?_, ?_, ?_⟩
      · intro i node' w' hnode' hw'
        rcases grown_cases h.length_eq hnode' hw' with ⟨-, rfl, rfl⟩ | ⟨hi,
          ⟨rfl, rfl⟩ | ⟨hia, hnode'⟩⟩
        · have hleaf : child (names ++ [w ++ [c]]) (w ++ [c]) = fun _ => none := by
            funext d
            rw [child_grow hnew, if_neg (by simp)]
            exact place_eq_none.mpr fun hmem => hnew (h.tree.closed _ _ hmem)
          rw [hleaf]
          exact HashMap.init_inv (by decide)
        · have heq : w' = w := Option.some.inj (hi.symm.trans ha)
          subst heq
          have hgrown : child (names ++ [w' ++ [c]]) w' =
              fun d => if d = c then some heap.length else child names w' d := by
            funext d
            rw [child_grow hnew, h.length_eq]
            simp
          rw [hgrown]
          exact hr
        · have hne : w' ≠ w := by
            rintro rfl
            have hpos := (List.getElem?_eq_some_iff.mp hi).1
            exact hia ((List.getElem?_inj hpos h.tree.nodup).mp (hi.trans ha.symm))
          have hsame : child (names ++ [w ++ [c]]) w' = child names w' := by
            funext d
            rw [child_grow hnew, if_neg (fun hwd => hne hwd.1)]
          rw [hsame]
          exact h.children i node' w' hnode' hi
      · intro i node' w' hnode' hw'
        rcases grown_cases h.length_eq hnode' hw' with ⟨-, rfl, rfl⟩ | ⟨hi,
          ⟨rfl, rfl⟩ | ⟨-, hnode'⟩⟩
        · exact h.found_none hnew
        · exact h.data i node w' hnode hi
        · exact h.data i node' w' hnode' hi
      · intro e he
        exact List.mem_append_left _ (h.keys e he)
    · rw [← h.length_eq, List.getElem?_append_right (le_refl _), Nat.sub_self]
      rfl
  · refine ⟨heap, names, b, ?_, h, (place_eq_some h.tree.nodup).mp hchild⟩
    simp only [nodeAdd, hnode, hget, hchild, Option.bind_eq_bind, Option.bind_some]

/-- The characters of a key, one after the other. Kind: L -/
theorem descend_inv (cs : List UInt32) : ∀ {heap : Heap D} {names : List (List UInt32)} {a : ℕ}
    {w : List UInt32}, Inv heap names entries → names[a]? = some w →
    ∃ heap' names' b, cs.foldlM (fun s c => nodeAdd s.1 s.2 c) (heap, a) = some (heap', b) ∧
      Inv heap' names' entries ∧ names'[b]? = some (w ++ cs) := by
  induction cs with
  | nil =>
      intro heap names a w h ha
      exact ⟨heap, names, a, rfl, h, by rw [List.append_nil]; exact ha⟩
  | cons c cs ih =>
      intro heap names a w h ha
      obtain ⟨heap₁, names₁, a₁, hstep, h₁, ha₁⟩ := nodeAdd_inv h ha c
      obtain ⟨heap', names', b, hrest, h', hb⟩ := ih h₁ ha₁
      refine ⟨heap', names', b, ?_, h', ?_⟩
      · rw [List.foldlM_cons, hstep]
        exact hrest
      · rw [hb, List.append_assoc]
        rfl

/-- The datum of a new key is put into its node. Kind: L -/
theorem Inv.put (h : Inv heap names entries) {node : TrieNode D} (hnode : heap[a]? = some node)
    (ha : names[a]? = some w) (hnew : ∀ e ∈ entries, e.1 ≠ w) (data : D) :
    Inv (heap.set a { node with data := some data }) names (entries ++ [(w, data)]) where
  length_eq := by rw [h.length_eq, List.length_set]
  tree := h.tree
  children := by
    intro i node' w' hnode' hw'
    rw [List.getElem?_set] at hnode'
    split_ifs at hnode' with hia hlt
    · subst hia
      rw [← Option.some.inj hnode']
      exact h.children a node w' hnode hw'
    · exact h.children i node' w' hnode' hw'
  data := by
    intro i node' w' hnode' hw' d
    rw [List.mem_append, List.mem_singleton, Prod.mk.injEq]
    rw [List.getElem?_set] at hnode'
    split_ifs at hnode' with hia hlt
    · subst hia
      have heq : w' = w := Option.some.inj (hw'.symm.trans ha)
      subst heq
      rw [← Option.some.inj hnode']
      constructor
      · intro hd
        exact Or.inr ⟨rfl, (Option.some.inj hd).symm⟩
      · rintro (hd | ⟨-, rfl⟩)
        · exact absurd rfl (hnew _ hd)
        · rfl
    · have hne : w' ≠ w := by
        rintro rfl
        have hpos := (List.getElem?_eq_some_iff.mp hw').1
        exact hia ((List.getElem?_inj hpos h.tree.nodup).mp (hw'.trans ha.symm)).symm
      rw [h.data i node' w' hnode' hw' d]
      simp [hne]
  keys := by
    intro e he
    rcases List.mem_append.mp he with he | he
    · exact h.keys e he
    · rw [List.mem_singleton.mp he]
      exact List.mem_of_getElem? ha

/-- **An addition of a new key.** Kind: P -/
theorem addKey_inv (h : Inv heap names entries) (signed : Bool) (key : List UInt8) (data : D)
    (hnew : ∀ e ∈ entries, e.1 ≠ key.map (widen signed)) :
    ∃ heap' names', addKey signed heap key data = some heap' ∧
      Inv heap' names' (entries ++ [(key.map (widen signed), data)]) := by
  obtain ⟨heap₁, names₁, a, hdesc, h₁, ha⟩ := descend_inv (key.map (widen signed)) h h.tree.root
  rw [List.nil_append] at ha
  rw [List.foldlM_map] at hdesc
  obtain ⟨node, hnode⟩ := h₁.node ha
  have hdata : node.data = none := by
    rcases hd : node.data with _ | d
    · rfl
    · exact absurd rfl (hnew _ ((h₁.data a node _ hnode ha d).mp hd))
  refine ⟨_, names₁, ?_, h₁.put hnode ha hnew data⟩
  simp [addKey, hdesc, hnode, hdata]

/-- The entries of the additions: a byte of a key is widened. -/
def wide (signed : Bool) (adds : List (List UInt8 × D)) : List (List UInt32 × D) :=
  adds.map fun e => (e.1.map (widen signed), e.2)

theorem widen_injective (signed : Bool) : Function.Injective (widen signed) := by
  have hback : ∀ c : UInt8, (widen signed c).toUInt8 = c := by
    intro c
    unfold widen
    split_ifs
    · rw [UInt32.toUInt8_or, UInt8.toUInt8_toUInt32]
      exact UInt8.zero_or
    · exact UInt8.toUInt8_toUInt32 c
  intro c d hcd
  rw [← hback c, hcd, hback]

/-- **A trie is built of distinct keys.** Kind: P -/
theorem build_inv (signed : Bool) (adds : List (List UInt8 × D))
    (hkeys : (adds.map Prod.fst).Nodup) :
    ∃ heap names, build signed adds = some heap ∧ Inv heap names (wide signed adds) := by
  suffices hrun : ∀ (rest made : List (List UInt8 × D)) (heap : Heap D)
    (names : List (List UInt32)),
      ((made ++ rest).map Prod.fst).Nodup → Inv heap names (wide signed made) →
      ∃ heap' names', rest.foldlM (fun heap e => addKey signed heap e.1 e.2) heap = some heap' ∧
        Inv heap' names' (wide signed (made ++ rest)) from
    hrun adds [] _ _ hkeys start_inv
  intro rest
  induction rest with
  | nil =>
      intro made heap names _ h
      refine ⟨heap, names, rfl, ?_⟩
      rw [List.append_nil]
      exact h
  | cons e rest ih =>
      intro made heap names hnodup h
      have hnew : ∀ x ∈ wide signed made, x.1 ≠ e.1.map (widen signed) := by
        intro x hx hxe
        obtain ⟨y, hy, rfl⟩ := List.mem_map.mp hx
        have hye : y.1 = e.1 := (widen_injective signed).list_map hxe
        rw [List.map_append, List.nodup_append] at hnodup
        exact hnodup.2.2 _ (List.mem_map_of_mem hy) _ (by simp) hye
      obtain ⟨heap₁, names₁, hadd, h₁⟩ := addKey_inv h signed e.1 e.2 hnew
      have hwide : wide signed made ++ [(e.1.map (widen signed), e.2)] = wide signed
        (made ++ [e]) := by
        simp [wide]
      rw [hwide] at h₁
      rw [List.append_cons] at hnodup
      obtain ⟨heap', names', hrest, h'⟩ := ih (made ++ [e]) heap₁ names₁ hnodup h₁
      refine ⟨heap', names', ?_, ?_⟩
      · rw [List.foldlM_cons, hadd]
        exact hrest
      · rw [List.append_cons]
        exact h'

/-! ## What the searches find -/

/-- The entries but that of the empty key. -/
def filled {κ : Type} (entries : List (List κ × D)) : List (List κ × D) :=
  entries.filter fun e => !e.1.isEmpty

theorem mem_filled {κ : Type} {entries : List (List κ × D)} {e : List κ × D} :
    e ∈ filled entries ↔ e ∈ entries ∧ e.1 ≠ [] := by
  simp [filled]

theorem found_filled {κ : Type} {entries : List (List κ × D)} {k : List κ} {r : Option D}
    (h : Found entries k r) (hk : k ≠ []) : Found (filled entries) k r := by
  intro d
  rw [h d, mem_filled]
  exact (and_iff_left hk).symm

/-- The loop goes on with what it found behind the character. Kind: L -/
theorem findLoop_spec (h : Inv heap names entries) (signed : Bool) (cs : List UInt8) :
    ∀ {a : ℕ} {w : List UInt32} {found : Option (ℕ × D)}, names[a]? = some w →
      Longest (filled entries) w found →
      ∃ r, findLoop signed heap a w.length found cs = some r ∧
        Longest (filled entries) (w ++ cs.map (widen signed)) r := by
  induction cs with
  | nil =>
      intro a w found _ hfound
      refine ⟨found, rfl, ?_⟩
      rw [List.map_nil, List.append_nil]
      exact hfound
  | cons c cs ih =>
      intro a w found ha hfound
      obtain ⟨node, hnode⟩ := h.node ha
      have hget := h.get_eq hnode ha (widen signed c)
      rcases hchild : child names w (widen signed c) with _ | b
      · refine ⟨found, ?_, ?_⟩
        · simp [findLoop, hnode, hget, hchild]
        · rw [List.map_cons]
          apply hfound.stop
          intro e he hpre
          have hmem := h.tree.mem_of_prefix (h.keys e (mem_filled.mp he).1) hpre
          exact place_eq_none.mp hchild hmem
      · have hb := (place_eq_some h.tree.nodup).mp hchild
        obtain ⟨node', hnode'⟩ := h.node hb
        have hdata := found_filled (h.data b node' _ hnode' hb) (by simp)
        have hlen : (w ++ [widen signed c]).length = w.length + 1 := by simp
        rcases hd : node'.data with _ | d
        · rw [hd] at hdata
          obtain ⟨r, hr, hlong⟩ := ih hb (hfound.skip hdata)
          refine ⟨r, ?_, ?_⟩
          · rw [hlen] at hr
            simp [findLoop, hnode, hget, hchild, hnode', hd, hr]
          · rw [List.map_cons, List.append_cons]
            exact hlong
        · obtain ⟨r, hr, hlong⟩ := ih hb (Longest.take ((hdata d).mp hd))
          refine ⟨r, ?_, ?_⟩
          · rw [hlen] at hr
            simp [findLoop, hnode, hget, hchild, hnode', hd, hr]
          · rw [List.map_cons, List.append_cons]
            exact hlong

/-- **The search of a prefix finds the longest key, the empty one apart.** Kind: P -/
theorem findPrefix_spec {signed : Bool} {adds : List (List UInt8 × D)}
    (h : Inv heap names (wide signed adds)) (p : List UInt8) :
    ∃ r, findPrefix signed heap p = some r ∧ Longest (filled adds) p r := by
  obtain ⟨r, hr, hlong⟩ := findLoop_spec h signed p h.tree.root
    (Longest.start fun _ he => (mem_filled.mp he).2)
  refine ⟨r, hr, ?_⟩
  have hfilled : filled (wide signed adds) = wide signed (filled adds) := by
    rw [filled, wide, List.filter_map, wide, filled]
    congr 2
    funext e
    simp
  rw [hfilled] at hlong
  exact (longest_map_iff (widen_injective signed)).mp hlong

/-- **The search of a key finds it, unless it is empty.** Kind: P -/
theorem find_spec {signed : Bool} {adds : List (List UInt8 × D)}
    (h : Inv heap names (wide signed adds)) (hkeys : (adds.map Prod.fst).Nodup) (k : List UInt8) :
    ∃ r, find signed heap k = some r ∧ Found (filled adds) k r := by
  obtain ⟨r, hr, hlong⟩ := findPrefix_spec h k
  refine ⟨whole k.length r, ?_, hlong.found (hkeys.sublist (List.filter_sublist.map _))⟩
  rw [find, hr]
  rcases r with _ | ⟨i, d⟩
  · rfl
  · by_cases hi : i = k.length
    · simp [whole, hi]
    · simp [whole, hi]

theorem filled_of_nil_notMem {κ : Type} {entries : List (List κ × D)}
    (h : [] ∉ entries.map Prod.fst) :
    filled entries = entries := by
  apply List.filter_eq_self.mpr
  intro e he
  have hne : e.1 ≠ [] := by
    intro hnil
    exact h (List.mem_map.mpr ⟨e, he, hnil⟩)
  simpa using hne

/-- **A trie finds what was added exactly where the empty key was not added.** Kind: P -/
theorem finds_iff (signed : Bool) (adds : List (List UInt8 × D))
    (hkeys : (adds.map Prod.fst).Nodup) :
    ∃ heap, build signed adds = some heap ∧ (Finds signed heap adds ↔ [] ∉ adds.map Prod.fst) := by
  obtain ⟨heap, names, hbuild, hinv⟩ := build_inv signed adds hkeys
  refine ⟨heap, hbuild, fun h hmem => ?_, fun h => ?_⟩
  · obtain ⟨⟨_, d⟩, he, rfl⟩ := List.mem_map.mp hmem
    obtain ⟨r, hr, hfound⟩ := h.exact []
    have hnone : find signed heap ([] : List UInt8) = some none := rfl
    rw [hnone] at hr
    rw [← Option.some.inj hr] at hfound
    exact hfound.not_mem _ he rfl
  · have hfilled := filled_of_nil_notMem h
    refine ⟨fun k => ?_, fun p => ?_⟩
    · have hfind := find_spec hinv hkeys k
      rwa [hfilled] at hfind
    · have hfind := findPrefix_spec hinv p
      rwa [hfilled] at hfind

/-- Keys with a common start, one of them in front of another. Kind: L -/
theorem finds_iff_prefixes :
    ∃ heap, build true [([97, 98], 1), ([97], 2), ([0xC3, 0xA9], 3),
      ([97, 98, 99], 4)] = some heap ∧
      (Finds true heap [([97, 98], 1), ([97], 2), ([0xC3, 0xA9], 3), ([97, 98, 99], 4)] ↔
        [] ∉ [([97, 98], 1), ([97], 2), ([0xC3, 0xA9], 3), ([97, 98, 99], 4)].map
          (Prod.fst : List UInt8 × ℕ → List UInt8)) :=
  finds_iff true [([97, 98], 1), ([97], 2), ([0xC3, 0xA9], 3), ([97, 98, 99], 4)] (by decide)

/-- The empty key is not found after it was added, and it is not found in front of another.
Kind: L -/
theorem empty_key_not_found :
    ∃ heap, build true [([], 1)] = some heap ∧ find true heap [] = some none ∧
      findPrefix true heap [97] = some none ∧ ¬ Finds true heap [([], 1)] := by
  refine ⟨[{ (TrieNode.init 0 : TrieNode ℕ) with data := some 1 }], rfl, rfl, by
    decide, fun h => ?_⟩
  obtain ⟨r, hr, hfound⟩ := h.exact []
  have hnone : find true [{ (TrieNode.init 0 : TrieNode ℕ) with data := some 1 }] [] = some none :=
    rfl
  rw [hnone] at hr
  rw [← Option.some.inj hr] at hfound
  exact hfound.not_mem ([], 1) (by simp) rfl

end CxyCompiler.Stdlib.Trie
