import CxyCompiler.Lib.Links
import CxyCompiler.Lib.Simulation

/-!
# The linked list of the library

`LinkedList` (`stdlib/list.cxy`) keeps its values in cells of their own, linked in both directions,
with pointers to the first and the last cell and a counter. Its iterators are addresses of cells.

* `insert`, `shift`, `push`, `pop`, `erase`, `clear` — the operations. A read or a write of a cell
  that is not allocated is not defined, and the address of a new cell is any free one.
* `specStep` — the same operations on the sequence of values, each with the iterator that points to
  it.
* `Refines l xs` — what can be seen of the list `l` is the sequence `xs`.
* `Inv l xs` — **the run invariant**; `step_inv` is its step lemma.
* `linkedList_run_refines_iff` — **every state of a run refines its sequence, exactly where no
  `shift` takes an element and no `pop` takes the last one**. `shift_keeps_size` is a run where one
  does.
-/

namespace CxyCompiler.Stdlib

open CxyCompiler.Lib.Links CxyCompiler.Lib.Simulation

/-- Source: `list.cxy` `ListItem`. -/
abbrev ListItem (T : Type) := Node T

/-- The list, and the cells that are allocated.
Source: `list.cxy` `LinkedList` -/
structure LinkedList (T : Type) where
  cells : Cells T
  head : Option ℕ
  tail : Option ℕ
  size : ℕ
  deriving DecidableEq

namespace LinkedList

/-- What a call returns: nothing, an element, or an `InvalidOperationError`. -/
inductive Answer (T : Type) where
  | unit
  | value (v : T)
  | raised
  deriving DecidableEq

variable {T : Type}

/-- Source: `list.cxy` `LinkedList`. -/
def init : LinkedList T := { cells := ∅, head := none, tail := none, size := 0 }

/-- The allocator returns the address `a`, which no cell has. -/
def calloc (cells : Cells T) (a : ℕ) (item : ListItem T) : Option (Cells T) :=
  if (cells.lookup a).isSome then none else some (cells.insert a item)

/-- Source: `list.cxy` `LinkedList.insert`. -/
def insert (l : LinkedList T) (a : ℕ) (value : T) (it : Option ℕ) : Option (LinkedList T) :=
  match l.head, it with
  | none, _ => do
      let cells ← calloc l.cells a ⟨none, none, value⟩
      some { cells, head := some a, tail := some a, size := l.size + 1 }
  | some b, none => do
      let cells ← calloc l.cells a ⟨none, some b, value⟩
      let cells ← linkPrev cells (some b) (some a)
      some { l with cells, head := some a, size := l.size + 1 }
  | some _, some i => do
      let cell ← l.cells.lookup i
      let cells ← calloc l.cells a ⟨some i, cell.next, value⟩
      let cells ← linkNext cells (some i) (some a)
      let cells ← linkPrev cells cell.next (some a)
      let tail := if cell.next = none then some a else l.tail
      some { l with cells, tail, size := l.size + 1 }

/-- The counter is left as it is, and so is `_tail`.
Source: `list.cxy` `LinkedList.shift` -/
def shift (l : LinkedList T) : Option (LinkedList T × Answer T) :=
  match l.head with
  | none => some (l, .raised)
  | some b => do
      let item ← l.cells.lookup b
      let cells ← linkPrev l.cells item.next none
      some ({ l with cells := cells.erase b, head := item.next }, .value item.value)

/-- Source: `list.cxy` `LinkedList.push`. -/
def push (l : LinkedList T) (a : ℕ) (value : T) : Option (LinkedList T) :=
  match l.tail with
  | none => do
      let cells ← calloc l.cells a ⟨none, none, value⟩
      some { cells, head := some a, tail := some a, size := l.size + 1 }
  | some b => do
      let cells ← calloc l.cells a ⟨some b, none, value⟩
      let cells ← linkNext cells (some b) (some a)
      some { l with cells, tail := some a, size := l.size + 1 }

/-- `_head` is left as it is.
Source: `list.cxy` `LinkedList.pop` -/
def pop (l : LinkedList T) : Option (LinkedList T × Answer T) :=
  match l.tail with
  | none => some (l, .raised)
  | some b => do
      let item ← l.cells.lookup b
      let cells ← linkNext l.cells item.prev none
      some ({ l with cells := cells.erase b, tail := item.prev, size := l.size - 1 },
        .value item.value)

/-- Source: `list.cxy` `LinkedList.erase`. -/
def erase (l : LinkedList T) (it : Option ℕ) : Option (LinkedList T) :=
  match it with
  | none => some l
  | some i => do
      let item ← l.cells.lookup i
      let cells ← linkNext l.cells item.prev item.next
      let cells ← linkPrev cells item.next item.prev
      let head := if l.head = some i then item.next else l.head
      let tail := if l.tail = some i then item.prev else l.tail
      some { cells := cells.erase i, head, tail, size := l.size - 1 }

/-- Source: `list.cxy` `LinkedList.clear`. -/
def clear (l : LinkedList T) : Option (LinkedList T) := do
  let cells ← freeAll l.cells.keys.length l.cells l.head
  some { cells, head := none, tail := none, size := 0 }

/-- An operation, with the address of the cell that it allocates. -/
inductive Op (T : Type) where
  | push (a : ℕ) (value : T)
  | pop
  | shift
  | insert (a : ℕ) (value : T) (it : Option ℕ)
  | erase (it : Option ℕ)
  | clear
  deriving DecidableEq

def step (l : LinkedList T) : Op T → Option (LinkedList T × Answer T)
  | .push a v => (push l a v).map fun l => (l, .unit)
  | .pop => pop l
  | .shift => shift l
  | .insert a v it => (insert l a v it).map fun l => (l, .unit)
  | .erase it => (erase l it).map fun l => (l, .unit)
  | .clear => (clear l).map fun l => (l, .unit)

/-! ## The sequence -/

def insertAfter (i : ℕ) (x : ℕ × T) : List (ℕ × T) → List (ℕ × T)
  | [] => []
  | y :: ys => if y.1 = i then y :: x :: ys else y :: insertAfter i x ys

/-- At the front without an iterator and in the empty sequence, else behind the iterator. -/
def specInsert (x : ℕ × T) (it : Option ℕ) (xs : List (ℕ × T)) : Option (List (ℕ × T)) :=
  match it with
  | none => some (x :: xs)
  | some i =>
      if xs = [] then some [x]
      else if i ∈ addresses xs then some (insertAfter i x xs)
      else none

/-- The operations on a sequence. Those with an iterator are defined where it is valid; `insert`
does not look at it in the empty sequence. -/
def specStep (xs : List (ℕ × T)) : Op T → Option (List (ℕ × T) × Answer T)
  | .push a v => if a ∈ addresses xs then none else some (xs ++ [(a, v)], .unit)
  | .pop => match xs.getLast? with
      | none => some (xs, .raised)
      | some x => some (xs.dropLast, .value x.2)
  | .shift => match xs with
      | [] => some ([], .raised)
      | x :: xs => some (xs, .value x.2)
  | .insert a v it =>
      if a ∈ addresses xs then none
      else (specInsert (a, v) it xs).map fun xs => (xs, .unit)
  | .erase none => some (xs, .unit)
  | .erase (some i) =>
      if i ∈ addresses xs then some (xs.filter fun x => x.1 ≠ i, .unit) else none
  | .clear => some ([], .unit)

/-- The list shows the sequence `xs`: from `_head` along `next`, from `_tail` along `prev` in
reverse, and by its counter. -/
structure Refines (l : LinkedList T) (xs : List (ℕ × T)) : Prop where
  forward : Visits l.cells Node.next l.head xs
  backward : Visits l.cells Node.prev l.tail xs.reverse
  head : l.head = none ↔ xs = []
  tail : l.tail = none ↔ xs = []
  size : l.size = xs.length

/-- No element is taken by `shift`, and the only one of a list is not taken by `pop`. -/
def keepsEnds (l : LinkedList T) : Op T → Bool
  | .shift => l.head = none
  | .pop => l.head = none || l.head ≠ l.tail
  | _ => true

/-- **The run invariant**: the cells that are allocated are those of the chain. -/
structure Inv (l : LinkedList T) (xs : List (ℕ × T)) : Prop where
  segment : Segment l.cells none xs none
  nodup : (addresses xs).Nodup
  live : ∀ a, (l.cells.lookup a).isSome = true ↔ a ∈ addresses xs
  head : l.head = first xs none
  tail : l.tail = last none xs
  size : l.size = xs.length

section

variable {l : LinkedList T} {xs : List (ℕ × T)}

theorem Inv.refines (h : Inv l xs) : Refines l xs where
  forward := h.head ▸ h.segment.forward
  backward := h.tail ▸ h.segment.backward
  head := by rw [h.head, first_eq_none_iff]
  tail := by rw [h.tail, last_eq_none_iff]
  size := h.size

theorem init_inv : Inv (init : LinkedList T) [] where
  segment := trivial
  nodup := List.nodup_nil
  live := by simp [init]
  head := rfl
  tail := rfl
  size := rfl

/-- A new cell is at an address that no cell of the chain has. Kind: L -/
theorem calloc_of_notMem (h : Inv l xs) {a : ℕ} (ha : a ∉ addresses xs) (item : ListItem T) :
    calloc l.cells a item = some (l.cells.insert a item) := by
  rw [calloc, if_neg]
  rwa [h.live]

theorem calloc_of_mem (h : Inv l xs) {a : ℕ} (ha : a ∈ addresses xs) (item : ListItem T) :
    calloc l.cells a item = none := by
  rw [calloc, if_pos]
  rwa [h.live]

/-! ## One step -/

theorem push_inv (h : Inv l xs) {a : ℕ} (ha : a ∉ addresses xs) (v : T) :
    ∃ l', push l a v = some l' ∧ Inv l' (xs ++ [(a, v)]) := by
  have hnodup : (addresses (xs ++ [(a, v)])).Nodup := by
    rw [addresses_append, List.nodup_append]
    refine ⟨h.nodup, by simp, fun b hb c hc hbc => ha ?_⟩
    rw [addresses_cons, addresses_nil, List.mem_singleton] at hc
    rwa [hbc, hc] at hb
  have hsize : l.size + 1 = (xs ++ [(a, v)]).length := by rw [h.size]; simp
  have hlast : some a = last none (xs ++ [(a, v)]) := by rw [last_append]; rfl
  unfold push
  cases htail : l.tail with
  | none =>
      have hnil : xs = [] := last_eq_none_iff.mp (h.tail ▸ htail)
      subst hnil
      dsimp only
      rw [calloc_of_notMem h ha]
      refine ⟨_, rfl, ⟨AList.lookup_insert _, trivial⟩, hnodup, ?_, rfl, rfl, hsize⟩
      intro b
      rw [isSome_insert, h.live]
      simp
  | some b =>
      have hb : last none xs = some b := h.tail ▸ htail
      have hseg := h.segment.insert ha ⟨some b, none, v⟩
      obtain ⟨cells, hlink, hxs, hframe, hlive⟩ := linkNext_segment (q := some a) hseg h.nodup
      rw [hb] at hlink
      dsimp only
      rw [calloc_of_notMem h ha]
      simp only [Option.bind_eq_bind, Option.bind_some, hlink]
      refine ⟨_, rfl, segment_append.mpr ⟨hxs, ?_, trivial⟩, hnodup, ?_, ?_, hlast, hsize⟩
      · rw [hframe a ha, AList.lookup_insert, hb]
        rfl
      · intro c
        rw [hlive, isSome_insert, h.live, addresses_append, List.mem_append, or_comm]
        simp
      · rw [h.head, first_append]
        cases xs with
        | nil => simp at hb
        | cons x xs => rfl

theorem insert_front_inv (h : Inv l xs) (hne : xs ≠ []) {a : ℕ} (ha : a ∉ addresses xs) (v : T) :
    ∃ l', insert l a v none = some l' ∧ Inv l' ((a, v) :: xs) := by
  obtain ⟨b, -, hb⟩ := first_of_ne_nil hne
  have hhead : l.head = some b := h.head.trans (hb none)
  have hseg := h.segment.insert ha ⟨none, some b, v⟩
  obtain ⟨cells, hlink, hxs, hframe, hlive⟩ := linkPrev_segment (q := some a) hseg h.nodup
  rw [hb] at hlink
  unfold insert
  rw [hhead]
  dsimp only
  rw [calloc_of_notMem h ha]
  simp only [Option.bind_eq_bind, Option.bind_some, hlink]
  refine ⟨_, rfl, ⟨?_, hxs⟩, List.nodup_cons.mpr ⟨ha, h.nodup⟩, ?_, rfl, ?_, ?_⟩
  · rw [hframe a ha, AList.lookup_insert, hb]
  · intro c
    rw [hlive, isSome_insert, h.live, addresses_cons, List.mem_cons]
  · obtain ⟨c, -, hc⟩ := last_of_ne_nil hne
    rw [h.tail, hc, last_cons, hc]
  · rw [h.size, List.length_cons]

theorem insertAfter_split {i : ℕ} {x : ℕ × T} {w : T} {pre post : List (ℕ × T)}
    (hi : i ∉ addresses pre) :
    insertAfter i x (pre ++ (i, w) :: post) = pre ++ (i, w) :: x :: post := by
  induction pre with
  | nil => simp [insertAfter]
  | cons y pre ih =>
      rw [addresses_cons, List.mem_cons, not_or] at hi
      rw [List.cons_append, insertAfter, if_neg (fun h => hi.1 h.symm), ih hi.2, List.cons_append]

theorem filter_split {i : ℕ} {w : T} {pre post : List (ℕ × T)} (hpre : i ∉ addresses pre)
    (hpost : i ∉ addresses post) :
    (pre ++ (i, w) :: post).filter (fun x => x.1 ≠ i) = pre ++ post := by
  have hkeep : ∀ ys : List (ℕ × T), i ∉ addresses ys → ys.filter (fun x => x.1 ≠ i) = ys := by
    intro ys hys
    refine List.filter_eq_self.mpr fun x hx => ?_
    simp only [ne_eq, decide_not, Bool.not_eq_true', decide_eq_false_iff_not]
    rintro rfl
    exact hys (List.mem_map.mpr ⟨x, hx, rfl⟩)
  rw [List.filter_append, List.filter_cons_of_neg (by simp), hkeep pre hpre, hkeep post hpost]

theorem insert_after_inv {a i : ℕ} {w : T} {pre post : List (ℕ × T)}
    (h : Inv l (pre ++ (i, w) :: post)) (ha : a ∉ addresses (pre ++ (i, w) :: post)) (v : T) :
    ∃ l', insert l a v (some i) = some l' ∧ Inv l' (pre ++ (i, w) :: (a, v) :: post) := by
  obtain ⟨hpre, hi, hpost⟩ := segment_append.mp h.segment
  obtain ⟨-, hnopost, hipre, hipost, hdis⟩ := nodup_split h.nodup
  rw [addresses_append, addresses_cons, List.mem_append, List.mem_cons, not_or, not_or] at ha
  obtain ⟨hapre, hai, hapost⟩ := ha
  have ha : a ∉ addresses (pre ++ (i, w) :: post) := by
    rw [addresses_append, addresses_cons, List.mem_append, List.mem_cons, not_or, not_or]
    exact ⟨hapre, hai, hapost⟩
  -- the links of the new cell, then the one of the cell before it, then the one of the cell after
  -- it
  have hpost' := (hpost.insert hapost ⟨some i, first post none, v⟩).insert hipost
    ⟨last none pre, some a, w⟩
  obtain ⟨cells, hlink, hsegpost, hframe, hlive⟩ := linkPrev_segment (q := some a) hpost' hnopost
  have hne : pre ++ (i, w) :: post ≠ [] := by simp
  obtain ⟨b, -, hhead⟩ := first_of_ne_nil hne
  unfold insert
  rw [h.head, hhead]
  dsimp only
  have hlookup : (l.cells.insert a ⟨some i, first post none, v⟩).lookup i =
      some ⟨last none pre, first post none, w⟩ := by
    rw [AList.lookup_insert_ne (Ne.symm hai), hi]
  have hnext : linkNext (l.cells.insert a ⟨some i, first post none, v⟩) (some i) (some a) =
      some ((l.cells.insert a ⟨some i, first post none, v⟩).insert i
        ⟨last none pre, some a, w⟩) := by
    rw [linkNext, hlookup, Option.map_some]
  rw [hi]
  simp only [Option.bind_eq_bind, Option.bind_some, calloc_of_notMem h ha, hnext, hlink]
  refine ⟨_, rfl, segment_append.mpr ⟨?_, ?_, ?_, hsegpost⟩, ?_, ?_, ?_, ?_, ?_⟩
  · refine hpre.congr fun c hc => ?_
    rw [hframe c (hdis c hc), AList.lookup_insert_ne, AList.lookup_insert_ne]
    · rintro rfl
      exact hapre hc
    · rintro rfl
      exact hipre hc
  · rw [hframe i hipost, AList.lookup_insert]
    rfl
  · rw [hframe a hapost, AList.lookup_insert_ne hai, AList.lookup_insert]
  · have hperm : List.Perm (addresses (pre ++ (i, w) :: (a, v) :: post))
        (a :: addresses (pre ++ (i, w) :: post)) := by
      simp only [addresses_append, addresses_cons]
      refine List.Perm.trans ?_ List.perm_middle
      exact List.Perm.append_left _ (List.Perm.swap _ _ _)
    exact hperm.nodup_iff.mpr (List.nodup_cons.mpr ⟨ha, h.nodup⟩)
  · intro c
    rw [hlive, isSome_insert, isSome_insert, h.live]
    simp only [addresses_append, addresses_cons, List.mem_append, List.mem_cons]
    tauto
  · rw [← hhead none, first_append, first_append]
    rfl
  · rw [last_append, last_cons, last_cons]
    split_ifs with hnil
    · rw [first_eq_none_iff] at hnil
      rw [hnil]
      rfl
    · rw [first_eq_none_iff] at hnil
      obtain ⟨c, -, hc⟩ := last_of_ne_nil hnil
      rw [h.tail, last_append, last_cons, hc, hc]
  · rw [h.size]
    simp only [List.length_append, List.length_cons]
    omega

theorem erase_inv {i : ℕ} {w : T} {pre post : List (ℕ × T)}
    (h : Inv l (pre ++ (i, w) :: post)) :
    ∃ l', erase l (some i) = some l' ∧ Inv l' (pre ++ post) := by
  obtain ⟨hpre, hi, hpost⟩ := segment_append.mp h.segment
  obtain ⟨hnopre, hnopost, hipre, hipost, hdis⟩ := nodup_split h.nodup
  obtain ⟨c₁, hlink₁, hpre₁, hframe₁, hlive₁⟩ :=
    linkNext_segment (q := first post none) hpre hnopre
  have hpost₁ : Segment c₁ (some i) post none :=
    hpost.congr fun b hb => hframe₁ b fun hmem => hdis b hmem hb
  obtain ⟨c₂, hlink₂, hpost₂, hframe₂, hlive₂⟩ :=
    linkPrev_segment (q := last none pre) hpost₁ hnopost
  have hpre₂ : Segment c₂ none pre (first post none) :=
    hpre₁.congr fun b hb => hframe₂ b (hdis b hb)
  unfold erase
  dsimp only
  rw [hi]
  simp only [Option.bind_eq_bind, Option.bind_some, hlink₁, hlink₂]
  refine ⟨_, rfl, segment_append.mpr ⟨hpre₂.erase hipre, hpost₂.erase hipost⟩, ?_, ?_, ?_, ?_, ?_⟩
  · rw [addresses_append, List.nodup_append]
    refine ⟨hnopre, hnopost, ?_⟩
    rintro b hb c hc rfl
    exact hdis b hb hc
  · intro b
    rw [isSome_erase, hlive₂, hlive₁, h.live]
    simp only [addresses_append, addresses_cons, List.mem_append, List.mem_cons]
    constructor
    · tauto
    · rintro (hb | hb)
      · exact ⟨fun hbi => hipre (hbi ▸ hb), Or.inl hb⟩
      · exact ⟨fun hbi => hipost (hbi ▸ hb), Or.inr (Or.inr hb)⟩
  · rw [h.head, first_append, first_append, first_cons]
    cases pre with
    | nil => rw [first_nil, if_pos rfl, first_nil]
    | cons y pre =>
        rw [first_cons, first_cons, if_neg]
        simp only [addresses_cons, List.mem_cons, not_or] at hipre
        exact fun hy => hipre.1 (Option.some.inj hy).symm
  · rw [h.tail, last_append, last_append, last_cons]
    by_cases hnil : post = []
    · subst hnil
      rw [last_nil, if_pos rfl, last_nil]
    · obtain ⟨b, hb, hlast⟩ := last_of_ne_nil hnil
      have hbi : some b ≠ some i := by
        intro hbi
        rw [Option.some.inj hbi] at hb
        exact hipost hb
      rw [hlast, hlast]
      exact if_neg hbi
  · rw [h.size]
    simp

theorem pop_inv {ys : List (ℕ × T)} {x : ℕ × T} (h : Inv l (ys ++ [x])) (hne : ys ≠ []) :
    ∃ l', pop l = some (l', .value x.2) ∧ Inv l' ys := by
  obtain ⟨hys, hx, -⟩ := segment_append.mp h.segment
  obtain ⟨hnoys, -, hxys, -, -⟩ := nodup_split h.nodup
  obtain ⟨cells, hlink, hys', hframe, hlive⟩ := linkNext_segment (q := none) hys hnoys
  have htail : l.tail = some x.1 := by rw [h.tail, last_append]; rfl
  unfold pop
  rw [htail]
  dsimp only
  rw [hx]
  simp only [Option.bind_eq_bind, Option.bind_some, hlink]
  refine ⟨_, rfl, hys'.erase hxys, hnoys, ?_, ?_, rfl, ?_⟩
  · intro b
    rw [isSome_erase, hlive, h.live, addresses_append, addresses_cons, List.mem_append]
    constructor
    · rintro ⟨hbx, hb | hb⟩
      · exact hb
      · exact absurd (List.mem_singleton.mp hb) hbx
    · intro hb
      refine ⟨?_, Or.inl hb⟩
      rintro rfl
      exact hxys hb
  · obtain ⟨b, -, hb⟩ := first_of_ne_nil hne
    rw [h.head, first_append, hb, hb]
  · rw [h.size]
    simp

theorem clear_inv (h : Inv l xs) : ∃ l', clear l = some l' ∧ Inv l' [] := by
  obtain ⟨cells, hfree, hlive⟩ := freeAll_segment h.segment h.nodup (h.segment.length_le h.nodup)
  unfold clear
  rw [h.head, hfree]
  refine ⟨_, rfl, trivial, List.nodup_nil, fun a => ?_, rfl, rfl, rfl⟩
  rw [hlive, h.live]
  simp

/-- **A step that keeps the ends keeps the invariant.** Kind: P -/
theorem step_inv (h : Inv l xs) (op : Op T) (hop : keepsEnds l op = true) :
    Agrees Inv (step l op) (specStep xs op) := by
  cases op with
  | push a v =>
      by_cases ha : a ∈ addresses xs
      · rw [specStep, if_pos ha]
        change (push l a v).map _ = none
        unfold push
        cases l.tail <;> simp [calloc_of_mem h ha]
      · obtain ⟨l', hl', hinv⟩ := push_inv h ha v
        rw [specStep, if_neg ha]
        exact ⟨l', by rw [step, hl']; rfl, hinv⟩
  | pop =>
      rcases List.eq_nil_or_concat xs with rfl | ⟨ys, x, rfl⟩
      · refine ⟨l, ?_, h⟩
        rw [step, pop, h.tail]
        rfl
      · rw [List.concat_eq_append] at h ⊢
        have hne : ys ≠ [] := by
          rintro rfl
          rw [List.nil_append] at h
          simp [keepsEnds, h.head, h.tail] at hop
        obtain ⟨l', hl', hinv⟩ := pop_inv h hne
        rw [specStep, List.getLast?_concat, List.dropLast_concat]
        exact ⟨l', hl', hinv⟩
  | shift =>
      have hhead : l.head = none := by simpa [keepsEnds] using hop
      have hnil : xs = [] := first_eq_none_iff.mp (h.head ▸ hhead)
      subst hnil
      refine ⟨l, ?_, h⟩
      rw [step, shift, hhead]
  | insert a v it =>
      by_cases ha : a ∈ addresses xs
      · rw [specStep, if_pos ha]
        change (insert l a v it).map _ = none
        unfold insert
        rcases l.head with _ | b
        · simp [calloc_of_mem h ha]
        · rcases it with _ | i
          · simp [calloc_of_mem h ha]
          · cases l.cells.lookup i <;> simp [calloc_of_mem h ha]
      · rw [specStep, if_neg ha]
        rcases xs with _ | ⟨x, xs⟩
        · -- the empty list does not look at the iterator, as `push` on it
          obtain ⟨l', hl', hinv⟩ := push_inv h ha v
          have hspec : specInsert (a, v) it [] = some [(a, v)] := by
            cases it <;> rfl
          rw [hspec]
          refine ⟨l', ?_, hinv⟩
          have hsame : insert l a v it = push l a v := by
            unfold insert push
            rw [h.head, h.tail]
            rfl
          rw [step, hsame, hl']
          rfl
        · rcases it with _ | i
          · obtain ⟨l', hl', hinv⟩ := insert_front_inv h (List.cons_ne_nil x xs) ha v
            exact ⟨l', by rw [step, hl']; rfl, hinv⟩
          · rw [specInsert, if_neg (List.cons_ne_nil x xs)]
            by_cases hi : i ∈ addresses (x :: xs)
            · obtain ⟨pre, w, post, hsplit⟩ := exists_split hi
              rw [if_pos hi, hsplit]
              rw [hsplit] at h ha
              obtain ⟨l', hl', hinv⟩ := insert_after_inv h ha v
              have hipre := (nodup_split h.nodup).2.2.1
              rw [insertAfter_split hipre]
              exact ⟨l', by rw [step, hl']; rfl, hinv⟩
            · rw [if_neg hi]
              change (insert l a v (some i)).map _ = none
              have hfree : l.cells.lookup i = none := by
                rw [← h.live] at hi
                simpa using hi
              unfold insert
              rw [h.head, first_cons]
              dsimp only
              rw [hfree]
              rfl
  | erase it =>
      rcases it with _ | i
      · exact ⟨l, rfl, h⟩
      · by_cases hi : i ∈ addresses xs
        · obtain ⟨pre, w, post, rfl⟩ := exists_split hi
          obtain ⟨l', hl', hinv⟩ := erase_inv h
          obtain ⟨-, -, hipre, hipost, -⟩ := nodup_split h.nodup
          rw [specStep, if_pos hi, filter_split hipre hipost]
          exact ⟨l', by rw [step, hl']; rfl, hinv⟩
        · rw [specStep, if_neg hi]
          have hfree : l.cells.lookup i = none := by
            rw [← h.live] at hi
            simpa using hi
          change (erase l (some i)).map _ = none
          rw [erase, hfree]
          rfl
  | clear =>
      obtain ⟨l', hl', hinv⟩ := clear_inv h
      exact ⟨l', by rw [step, hl']; rfl, hinv⟩

/-! ## The ends that are not kept -/

theorem size_of_shift {l' : LinkedList T} {r : Answer T} (h : shift l = some (l', r)) :
    l'.size = l.size := by
  unfold shift at h
  split at h
  · cases h
    rfl
  · simp only [Option.bind_eq_bind, Option.bind_eq_some_iff] at h
    obtain ⟨_, _, _, _, heq⟩ := h
    cases heq
    rfl

theorem head_of_pop {l' : LinkedList T} {r : Answer T} (h : pop l = some (l', r)) :
    l'.head = l.head := by
  unfold pop at h
  split at h
  · cases h
    rfl
  · simp only [Option.bind_eq_bind, Option.bind_eq_some_iff] at h
    obtain ⟨_, _, _, _, heq⟩ := h
    cases heq
    rfl

theorem step_breaks (h : Inv l xs) (op : Op T) (hop : keepsEnds l op = false) :
    ¬ Agrees Refines (step l op) (specStep xs op) := by
  have hshape : op = .shift ∨ op = .pop := by
    cases op <;> simp_all [keepsEnds]
  rcases hshape with rfl | rfl
  · have hhead : l.head ≠ none := by simpa [keepsEnds] using hop
    rw [h.head, Ne, first_eq_none_iff] at hhead
    obtain ⟨x, xs, rfl⟩ := List.exists_cons_of_ne_nil hhead
    rintro ⟨l', hl', href⟩
    have hsize := size_of_shift hl'
    rw [href.size, h.size, List.length_cons] at hsize
    omega
  · simp only [keepsEnds, Bool.or_eq_false_iff, decide_eq_false_iff_not, Decidable.not_not, ne_eq]
      at hop
    obtain ⟨hhead, hends⟩ := hop
    have hne : xs ≠ [] := by rwa [h.head, first_eq_none_iff] at hhead
    obtain ⟨x, ys, rfl⟩ := List.exists_cons_of_ne_nil hne
    have hnil : ys = [] := by
      by_contra hys
      obtain ⟨b, hb, hlast⟩ := last_of_ne_nil hys
      rw [h.head, h.tail, last_cons, hlast, first_cons, Option.some.injEq] at hends
      exact (List.nodup_cons.mp h.nodup).1 (hends ▸ hb)
    subst hnil
    rintro ⟨l', hl', href⟩
    have hkept := head_of_pop hl'
    rw [href.head.mpr rfl] at hkept
    exact hhead hkept.symm

end

/-- **Every state of a run refines its sequence exactly where the ends are kept**: no `shift` takes
an element, and no `pop` takes the only one. Source: `list.cxy` `LinkedList` Kind: P -/
theorem linkedList_run_refines_iff (ops : List (Op T)) :
    (∀ pre, pre <+: ops →
        Agrees Refines (runWith step (init : LinkedList T) pre) (runWith specStep [] pre)) ↔
      allBefore step keepsEnds (init : LinkedList T) ops = true :=
  run_agrees_iff (fun _ _ h => h.refines) (fun _ _ op h => step_inv h op)
    (fun _ _ op h => step_breaks h op) ops _ _ init_inv

/-- After `shift` of the only element the counter is still 1, and `_tail` points to the freed cell.
Kind: P -/
theorem shift_keeps_size :
    ¬ ∀ ops : List (Op ℕ),
      Agrees Refines (runWith step (init : LinkedList ℕ) ops) (runWith specStep [] ops) := by
  intro h
  obtain ⟨l, hrun, href⟩ := h [.push 8 5, .shift]
  have hend : (runWith step (init : LinkedList ℕ) [.push 8 5, .shift]).map (fun p => p.1.size) =
      some 1 := by decide
  rw [hrun] at hend
  have hsize := href.size
  simp only [Option.map_some, Option.some.injEq] at hend
  rw [hend] at hsize
  exact absurd hsize (by decide)

end LinkedList

end CxyCompiler.Stdlib
