import Mathlib.Data.List.AList
import Mathlib.Data.List.Induction

/-!
# Doubly linked cells

Cells that are linked in both directions, by address. A list of addresses with their values
describes a chain of them.

* `first`, `last` — the address of the first and of the last cell of a chain, or what stands beside
  it.
* `Segment h p xs n` — the cells of `xs` stand one after the other between `p` and `n`.
* `segment_append` — **a chain is the chain of its parts**.
* `linkPrev`, `linkNext` — one link of a cell changed; `linkPrev_segment` and `linkNext_segment` say
  what that does to the chain it begins or ends.
* `freeAll` — the loop that frees a chain; `freeAll_segment` says that it frees each cell once.
* `Visits` — **what a walk along one of the links sees**; `Segment.forward` and `Segment.backward`.
* `Chain link p ns` — the addresses that a walk along single links comes by. `chain_unique`,
  `Chain.update`, `Chain.snoc` and `Chain.redirect` say what it is after a link was changed.
-/

namespace CxyCompiler.Lib.Links

structure Node (α : Type) where
  prev : Option ℕ
  next : Option ℕ
  value : α
  deriving DecidableEq

/-- The cells that are allocated, by their addresses. -/
abbrev Cells (α : Type) := AList fun _ : ℕ => Node α

variable {α : Type}

/-- The address of the first cell, and `n` where there is none. -/
def first : List (ℕ × α) → Option ℕ → Option ℕ
  | [], n => n
  | x :: _, _ => some x.1

/-- The address of the last cell, and `p` where there is none. -/
def last : Option ℕ → List (ℕ × α) → Option ℕ
  | p, [] => p
  | _, x :: xs => last (some x.1) xs

/-- The cells of `xs` are linked to each other, the first one back to `p` and the last one on to
`n`. -/
def Segment (h : Cells α) : Option ℕ → List (ℕ × α) → Option ℕ → Prop
  | _, [], _ => True
  | p, x :: xs, n => h.lookup x.1 = some ⟨p, first xs n, x.2⟩ ∧ Segment h (some x.1) xs n

/-- What a walk along the link `next` sees from `p` on. -/
def Visits (h : Cells α) (next : Node α → Option ℕ) : Option ℕ → List (ℕ × α) → Prop
  | p, [] => p = none
  | p, x :: xs => p = some x.1 ∧
      ∃ c, h.lookup x.1 = some c ∧ c.value = x.2 ∧ Visits h next (next c) xs

def addresses (xs : List (ℕ × α)) : List ℕ := xs.map Prod.fst

/-- `if (p != null) p.prev = q`. -/
def linkPrev (h : Cells α) (p q : Option ℕ) : Option (Cells α) :=
  match p with
  | none => some h
  | some b => (h.lookup b).map fun c => h.insert b { c with prev := q }

/-- `if (p != null) p.next = q`. -/
def linkNext (h : Cells α) (p q : Option ℕ) : Option (Cells α) :=
  match p with
  | none => some h
  | some b => (h.lookup b).map fun c => h.insert b { c with next := q }

section

variable {h h' : Cells α} {p q n : Option ℕ} {x : ℕ × α} {xs ys : List (ℕ × α)}

@[simp] theorem first_nil : first ([] : List (ℕ × α)) n = n := rfl

@[simp] theorem first_cons : first (x :: xs) n = some x.1 := rfl

@[simp] theorem last_nil : last p ([] : List (ℕ × α)) = p := rfl

@[simp] theorem last_cons : last p (x :: xs) = last (some x.1) xs := rfl

@[simp] theorem addresses_nil : addresses ([] : List (ℕ × α)) = [] := rfl

@[simp] theorem addresses_cons : addresses (x :: xs) = x.1 :: addresses xs := rfl

@[simp] theorem addresses_append : addresses (xs ++ ys) = addresses xs ++ addresses ys :=
  List.map_append

theorem first_append : first (xs ++ ys) n = first xs (first ys n) := by
  cases xs <;> rfl

theorem last_append : last p (xs ++ ys) = last (last p xs) ys := by
  induction xs generalizing p with
  | nil => rfl
  | cons x xs ih => exact ih

theorem first_eq_none_iff : first xs none = none ↔ xs = [] := by
  cases xs <;> simp

theorem last_some_ne_none {a : ℕ} : last (some a) xs ≠ none := by
  induction xs generalizing a with
  | nil => simp
  | cons x xs ih => exact ih

theorem last_eq_none_iff : last none xs = none ↔ xs = [] := by
  cases xs with
  | nil => simp
  | cons x xs => simp [last_some_ne_none]

/-- The last cell of a chain that has one. Kind: L -/
theorem last_of_ne_nil (hne : xs ≠ []) : ∃ b ∈ addresses xs, ∀ p, last p xs = some b := by
  cases xs with
  | nil => exact absurd rfl hne
  | cons x xs =>
      induction xs generalizing x with
      | nil => exact ⟨x.1, List.mem_cons_self, fun _ => rfl⟩
      | cons y ys ih =>
          obtain ⟨b, hb, hlast⟩ := ih y (by simp)
          exact ⟨b, List.mem_cons_of_mem _ hb, fun _ => hlast (some x.1)⟩

/-- The first cell of a chain that has one. Kind: L -/
theorem first_of_ne_nil (hne : xs ≠ []) : ∃ b ∈ addresses xs, ∀ n, first xs n = some b := by
  cases xs with
  | nil => exact absurd rfl hne
  | cons x xs => exact ⟨x.1, List.mem_cons_self, fun _ => rfl⟩

/-- A chain with a given cell, split there. Kind: L -/
theorem exists_split {a : ℕ} (ha : a ∈ addresses xs) :
    ∃ pre v post, xs = pre ++ (a, v) :: post := by
  obtain ⟨⟨b, v⟩, hx, rfl⟩ := List.mem_map.mp ha
  obtain ⟨pre, post, rfl⟩ := List.append_of_mem hx
  exact ⟨pre, v, post, rfl⟩

/-- Where no address occurs twice, a cell is on neither side of itself, and the sides share none.
Kind: L -/
theorem nodup_split {pre post : List (ℕ × α)} (hno : (addresses (pre ++ x :: post)).Nodup) :
    (addresses pre).Nodup ∧ (addresses post).Nodup ∧ x.1 ∉ addresses pre ∧ x.1 ∉ addresses post ∧
      ∀ a ∈ addresses pre, a ∉ addresses post := by
  rw [addresses_append, addresses_cons, List.nodup_append, List.nodup_cons] at hno
  obtain ⟨hpre, ⟨hx, hpost⟩, hdis⟩ := hno
  refine ⟨hpre, hpost, fun hmem => hdis _ hmem _ List.mem_cons_self rfl, hx, fun a ha hmem => ?_⟩
  exact hdis a ha a (List.mem_cons_of_mem _ hmem) rfl

/-- **A chain is the chain of its parts.** Kind: P -/
theorem segment_append :
    Segment h p (xs ++ ys) n ↔ Segment h p xs (first ys n) ∧ Segment h (last p xs) ys n := by
  induction xs generalizing p with
  | nil => simp [Segment]
  | cons x xs ih => rw [List.cons_append, Segment, Segment, ih, first_append, last_cons, and_assoc]

/-- A chain depends on its own cells only. Kind: L -/
theorem Segment.congr (hs : Segment h p xs n)
    (heq : ∀ a ∈ addresses xs, h'.lookup a = h.lookup a) : Segment h' p xs n := by
  induction xs generalizing p with
  | nil => trivial
  | cons x xs ih =>
      obtain ⟨hx, hxs⟩ := hs
      refine ⟨(heq x.1 List.mem_cons_self).trans hx, ih hxs fun a ha => ?_⟩
      exact heq a (List.mem_cons_of_mem _ ha)

/-- A cell at an address outside of it changes no chain. Kind: L -/
theorem Segment.insert (hs : Segment h p xs n) {a : ℕ} (ha : a ∉ addresses xs) (c : Node α) :
    Segment (h.insert a c) p xs n := by
  refine hs.congr fun b hb => AList.lookup_insert_ne ?_
  rintro rfl
  exact ha hb

/-- A cell that is freed changes no chain that it is not in. Kind: L -/
theorem Segment.erase (hs : Segment h p xs n) {a : ℕ} (ha : a ∉ addresses xs) :
    Segment (h.erase a) p xs n := by
  refine hs.congr fun b hb => AList.lookup_erase_ne ?_
  rintro rfl
  exact ha hb

theorem Segment.isSome (hs : Segment h p xs n) {a : ℕ} (ha : a ∈ addresses xs) :
    (h.lookup a).isSome = true := by
  induction xs generalizing p with
  | nil => cases ha
  | cons x xs ih =>
      obtain ⟨hx, hxs⟩ := hs
      rcases List.mem_cons.mp ha with rfl | ha
      · rw [hx]
        rfl
      · exact ih hxs ha

/-- **Another cell before a chain changes its first cell only.** Kind: P -/
theorem linkPrev_segment (hs : Segment h p xs none) (hno : (addresses xs).Nodup) :
    ∃ h', linkPrev h (first xs none) q = some h' ∧ Segment h' q xs none ∧
      (∀ a, a ∉ addresses xs → h'.lookup a = h.lookup a) ∧
      ∀ a, (h'.lookup a).isSome = (h.lookup a).isSome := by
  cases xs with
  | nil => exact ⟨h, rfl, trivial, fun _ _ => rfl, fun _ => rfl⟩
  | cons x xs =>
      obtain ⟨hx, hxs⟩ := hs
      obtain ⟨hx', -⟩ := List.nodup_cons.mp hno
      refine ⟨h.insert x.1 ⟨q, first xs none, x.2⟩, ?_, ⟨AList.lookup_insert h, ?_⟩, ?_, ?_⟩
      · rw [first_cons, linkPrev, hx, Option.map_some]
      · exact hxs.insert hx' _
      · intro a ha
        exact AList.lookup_insert_ne fun hax => ha (hax ▸ List.mem_cons_self)
      · intro a
        by_cases hax : a = x.1
        · rw [hax, AList.lookup_insert, hx]
          rfl
        · rw [AList.lookup_insert_ne hax]

/-- **Another cell behind a chain changes its last cell only.** Kind: P -/
theorem linkNext_segment (hs : Segment h none xs n) (hno : (addresses xs).Nodup) :
    ∃ h', linkNext h (last none xs) q = some h' ∧ Segment h' none xs q ∧
      (∀ a, a ∉ addresses xs → h'.lookup a = h.lookup a) ∧
      ∀ a, (h'.lookup a).isSome = (h.lookup a).isSome := by
  rcases List.eq_nil_or_concat xs with rfl | ⟨ys, y, rfl⟩
  · exact ⟨h, rfl, trivial, fun _ _ => rfl, fun _ => rfl⟩
  · rw [List.concat_eq_append] at hs hno ⊢
    obtain ⟨hys, hy, -⟩ := segment_append.mp hs
    have hout : y.1 ∉ addresses ys := by
      rw [addresses_append, List.nodup_append] at hno
      exact fun hmem => hno.2.2 _ hmem _ (by simp) rfl
    refine ⟨h.insert y.1 ⟨last none ys, q, y.2⟩, ?_, ?_, ?_, ?_⟩
    · rw [last_append, last_cons, last_nil, linkNext, hy, Option.map_some]
    · exact segment_append.mpr ⟨hys.insert hout _, AList.lookup_insert h, trivial⟩
    · intro a ha
      refine AList.lookup_insert_ne fun hay => ha ?_
      rw [hay, addresses_append]
      exact List.mem_append_right _ List.mem_cons_self
    · intro a
      by_cases hay : a = y.1
      · rw [hay, AList.lookup_insert, hy]
        rfl
      · rw [AList.lookup_insert_ne hay]

/-- **A walk along `next` sees the chain.** Kind: P -/
theorem Segment.forward (hs : Segment h p xs none) :
    Visits h Node.next (first xs none) xs := by
  induction xs generalizing p with
  | nil => rfl
  | cons x xs ih =>
      obtain ⟨hx, hxs⟩ := hs
      exact ⟨rfl, _, hx, rfl, ih hxs⟩

/-- **A walk along `prev` sees the chain backwards.** Kind: P -/
theorem Segment.backward (hs : Segment h none xs n) :
    Visits h Node.prev (last none xs) xs.reverse := by
  induction xs using List.reverseRecOn generalizing n with
  | nil => rfl
  | append_singleton xs x ih =>
      obtain ⟨hxs, hx, -⟩ := segment_append.mp hs
      rw [List.reverse_append, last_append]
      exact ⟨rfl, _, hx, rfl, ih hxs⟩

theorem isSome_insert {cells : Cells α} {a b : ℕ} {c : Node α} :
    ((cells.insert a c).lookup b).isSome = true ↔ b = a ∨ (cells.lookup b).isSome = true := by
  rw [AList.lookup_isSome, AList.lookup_isSome, AList.mem_insert]

theorem isSome_erase {cells : Cells α} {a b : ℕ} :
    ((cells.erase a).lookup b).isSome = true ↔ b ≠ a ∧ (cells.lookup b).isSome = true := by
  rw [AList.lookup_isSome, AList.lookup_isSome, AList.mem_erase]

/-- A chain has no more cells than there are. Kind: L -/
theorem Segment.length_le (hs : Segment h p xs n) (hno : (addresses xs).Nodup) :
    xs.length ≤ h.keys.length := by
  have hsub : addresses xs ⊆ h.keys := by
    intro a ha
    rw [← AList.mem_keys, ← AList.lookup_isSome]
    exact hs.isSome ha
  have hle := (List.subperm_of_subset hno hsub).length_le
  rwa [addresses, List.length_map] at hle

end

/-! ## Freeing a chain -/

/-- The loop that frees the cells one after the other. Each round frees one, so the number of cells
bounds the rounds. -/
def freeAll : ℕ → Cells α → Option ℕ → Option (Cells α)
  | _, cells, none => some cells
  | 0, _, some _ => none
  | n + 1, cells, some b => do
      let item ← cells.lookup b
      freeAll n (cells.erase b) item.next

/-- **The loop frees each cell of the chain once.** Kind: P -/
theorem freeAll_segment {xs : List (ℕ × α)} : ∀ {n : ℕ} {cells : Cells α} {p : Option ℕ},
    Segment cells p xs none → (addresses xs).Nodup → xs.length ≤ n →
      ∃ cells', freeAll n cells (first xs none) = some cells' ∧
        ∀ a, (cells'.lookup a).isSome = true ↔
          a ∉ addresses xs ∧ (cells.lookup a).isSome = true := by
  induction xs with
  | nil =>
      intro n cells p _ _ _
      refine ⟨cells, by cases n <;> rfl, fun a => ?_⟩
      simp
  | cons x xs ih =>
      intro n cells p hs hno hlen
      obtain ⟨m, rfl⟩ : ∃ m, n = m + 1 := ⟨n - 1, by rw [List.length_cons] at hlen; omega⟩
      obtain ⟨hx, hxs⟩ := hs
      obtain ⟨hxno, hno⟩ := List.nodup_cons.mp hno
      obtain ⟨cells', hfree, hlive⟩ := ih (hxs.erase hxno) hno (Nat.le_of_succ_le_succ hlen)
      refine ⟨cells', ?_, fun a => ?_⟩
      · rw [first_cons, freeAll, hx]
        exact hfree
      · rw [hlive, isSome_erase, addresses_cons, List.mem_cons, not_or]
        tauto

/-! ## Single links -/

/-- A walk along the links from `p` on comes by `ns`. -/
def Chain {ι : Type} (link : ι → Option ι) : Option ι → List ι → Prop
  | p, [] => p = none
  | p, n :: ns => p = some n ∧ Chain link (link n) ns

section

variable {ι : Type} {link : ι → Option ι} {r : Option ι}

theorem chain_unique : ∀ {ns ns' : List ι}
    {r : Option ι}, Chain link r ns → Chain link r ns' → ns = ns'
  | [], [], _, _, _ => rfl
  | [], n :: _, _, h, h' => by
      rw [Chain] at h
      rw [h] at h'
      cases h'.1
  | n :: _, [], _, h, h' => by
      rw [Chain] at h'
      rw [h'] at h
      cases h.1
  | n :: ns, n' :: ns', r, h, h' => by
      obtain rfl : n = n' := Option.some.inj (h.1.symm.trans h'.1)
      rw [chain_unique h.2 h'.2]

variable [DecidableEq ι] {a : ι}

instance decidableChain (link : ι → Option ι) : ∀ (r : Option ι)
    (ns : List ι), Decidable (Chain link r ns)
  | r, [] => inferInstanceAs (Decidable (r = none))
  | r, n :: ns =>
      have := decidableChain link (link n) ns
      inferInstanceAs (Decidable (r = some n ∧ Chain link (link n) ns))

/-- A link that the walk does not come by. Kind: L -/
theorem Chain.update {ns : List ι} (h : Chain link r ns) (ha : a ∉ ns) (v : Option ι) :
    Chain (Function.update link a v) r ns := by
  induction ns generalizing r with
  | nil => exact h
  | cons n ns ih =>
      obtain ⟨hr, hrest⟩ := h
      obtain ⟨hne, hns⟩ := List.ne_and_not_mem_of_not_mem_cons ha
      refine ⟨hr, ?_⟩
      rw [Function.update_of_ne (Ne.symm hne)]
      exact ih hrest hns

/-- The last link is led on to a new end. Kind: L -/
theorem Chain.snoc {ns : List ι} {b : ι} (h : Chain link r (ns ++ [b])) (hb : b ∉ ns)
    (ha : a ∉ ns ++ [b])
    (hend : link a = none) : Chain (Function.update link b (some a)) r (ns ++ [b, a]) := by
  induction ns generalizing r with
  | nil =>
      refine ⟨h.1, ?_⟩
      have hab : a ≠ b := by simpa using ha
      rw [Function.update_self]
      refine ⟨rfl, ?_⟩
      rw [Function.update_of_ne hab]
      exact hend
  | cons n ns ih =>
      obtain ⟨hbn, hbns⟩ := List.ne_and_not_mem_of_not_mem_cons hb
      refine ⟨h.1, ?_⟩
      rw [Function.update_of_ne (Ne.symm hbn)]
      exact ih h.2 hbns fun hmem => ha (List.mem_cons_of_mem _ hmem)

/-- **A link is led on to another chain**, in place of what was behind it. Kind: P -/
theorem Chain.redirect {ns ms ms' : List ι} {b : ι} {q : Option ι}
    (h : Chain link r (ns ++ b :: ms))
    (hb : b ∉ ns) (hq : Chain (Function.update link b q) q ms') :
    Chain (Function.update link b q) r (ns ++ b :: ms') := by
  induction ns generalizing r with
  | nil =>
      refine ⟨h.1, ?_⟩
      rw [Function.update_self]
      exact hq
  | cons n ns ih =>
      obtain ⟨hbn, hbns⟩ := List.ne_and_not_mem_of_not_mem_cons hb
      refine ⟨h.1, ?_⟩
      rw [Function.update_of_ne (Ne.symm hbn)]
      exact ih h.2 hbns

end

end CxyCompiler.Lib.Links
