import Mathlib.Data.List.Nodup
import Mathlib.Data.List.Perm.Subperm
import Mathlib.Logic.Relation

/-!
# Depth-first search with two lists

A search of a graph keeps the nodes it is in (`visiting`) and those it has left (`visited`). It
fails at a node that the graph does not have and at one it is in.

* `search` — the search from one node; `each` over a list of nodes.
* `Sorted` — each node of a list has all its successors before it.
* `search_success`, `search_failure` — **a search leaves a sorted list of the nodes in reach, or a
  node in reach is missing or on a cycle**.
* `search_total` — as many rounds as there are nodes are enough.
* `search_iff` — a search from nowhere succeeds exactly if no node in reach is missing or on a
  cycle.
-/

namespace CxyCompiler.Lib.Postorder

variable {N : Type} (next : N → Option (List N))

/-- A search of each node of a list; `none` is a search that does not end, `some none` one that
fails. -/
def each (visit : N → List N → Option (Option (List N))) : List N → List N →
    Option (Option (List N))
  | [], visited => some (some visited)
  | n :: ns, visited =>
      match visit n visited with
      | some (some visited) => each visit ns visited
      | r => r

def Edge (a b : N) : Prop := ∃ ds, next a = some ds ∧ b ∈ ds

def Reach : N → N → Prop := Relation.ReflTransGen (Edge next)

/-- **Each node of the list has its successors before it**, and no node is there twice. -/
structure Sorted (order : List N) : Prop where
  nodup : order.Nodup
  before : ∀ pre n post, order = pre ++ n :: post → ∃ ds, next n = some ds ∧ ∀ d ∈ ds, d ∈ pre

/-- A node is missing or on a cycle. -/
def Bad (n : N) : Prop := next n = none ∨ Relation.TransGen (Edge next) n n

variable {next}

theorem Sorted.nil : Sorted next [] where
  nodup := List.nodup_nil
  before pre n post h := by simp at h

theorem Sorted.snoc {order : List N} (h : Sorted next order) {n : N} {ds : List N}
    (hnew : n ∉ order) (hn : next n = some ds) (hds : ∀ d ∈ ds, d ∈ order) :
    Sorted next (order ++ [n]) where
  nodup := by
    rw [List.nodup_append]
    refine ⟨h.nodup, List.nodup_singleton n, ?_⟩
    rintro a ha b hb rfl
    rw [List.mem_singleton.mp hb] at ha
    exact hnew ha
  before pre m post heq := by
    rcases List.eq_nil_or_concat post with rfl | ⟨post, x, rfl⟩
    · obtain ⟨rfl, hm⟩ := List.append_inj' heq rfl
      obtain rfl := (List.cons.inj hm).1
      exact ⟨ds, hn, hds⟩
    · rw [List.concat_eq_append, ← List.cons_append, ← List.append_assoc] at heq
      obtain ⟨rfl, -⟩ := List.append_inj' heq rfl
      exact h.before pre m post rfl

/-- What is in a sorted list is in the graph, with all its successors. Kind: L -/
theorem Sorted.closed {order : List N} (h : Sorted next order) {n m : N} (hn : n ∈ order)
    (hreach : Reach next n m) : m ∈ order := by
  induction hreach with
  | refl => exact hn
  | @tail a b _ hedge ih =>
      obtain ⟨pre, post, heq⟩ := List.append_of_mem ih
      obtain ⟨ds, hds, hall⟩ := h.before pre a post heq
      obtain ⟨ds', hds', hb⟩ := hedge
      obtain rfl := Option.some.inj (hds.symm.trans hds')
      rw [heq]
      exact List.mem_append_left _ (hall b hb)

/-- What a node leads to stands before it. Kind: L -/
theorem Sorted.before_of_trans {order : List N} (h : Sorted next order) {n m : N}
    (htrans : Relation.TransGen (Edge next) n m) : ∀ {pre post},
      order = pre ++ n :: post → m ∈ pre := by
  have hedge : ∀ {a b pre post}, order = pre ++ a :: post → Edge next a b → b ∈ pre := by
    rintro a b pre post heq ⟨ds, hds, hb⟩
    obtain ⟨ds', hds', hall⟩ := h.before pre a post heq
    obtain rfl := Option.some.inj (hds.symm.trans hds')
    exact hall b hb
  induction htrans with
  | single he => exact fun heq => hedge heq he
  | @tail a b _ he ih =>
      intro pre post heq
      obtain ⟨p, q, rfl⟩ := List.append_of_mem (ih heq)
      have hb := hedge (by rw [heq, List.append_assoc, List.cons_append]) he
      exact List.mem_append_left _ hb

/-- **No node of a sorted list is missing or on a cycle.** Kind: L -/
theorem Sorted.not_bad {order : List N} (h : Sorted next order) {n : N} (hn : n ∈ order) :
    ¬ Bad next n := by
  obtain ⟨pre, post, heq⟩ := List.append_of_mem hn
  rintro (hnone | hcycle)
  · obtain ⟨ds, hds, -⟩ := h.before pre n post heq
    rw [hnone] at hds
    cases hds
  · have hpre := h.before_of_trans hcycle heq
    have hnodup := h.nodup
    rw [heq, List.nodup_append] at hnodup
    exact hnodup.2.2 n hpre n (List.mem_cons_self ..) rfl

/-! ## The search of a list -/

/-- What a successful search adds: a sorted list goes on with nodes in reach. -/
structure Extends (next : N → Option (List N)) (ns : List N) (visited visited' : List N) :
    Prop where
  sorted : Sorted next visited'
  new : ∃ new, visited' = visited ++ new ∧ ∀ m ∈ new, ∃ n ∈ ns, Reach next n m
  mem : ∀ n ∈ ns, n ∈ visited'

theorem each_success {visit : N → List N → Option (Option (List N))}
    (hvisit : ∀ n visited visited', Sorted next visited → visit n visited = some (some visited') →
      Extends next [n] visited visited') :
    ∀ {ns visited visited'}, Sorted next visited → each visit ns visited = some (some visited') →
      Extends next ns visited visited' := by
  intro ns
  induction ns with
  | nil =>
      intro visited visited' hsorted h
      obtain rfl := Option.some.inj (Option.some.inj h)
      exact ⟨hsorted, ⟨[], (List.append_nil _).symm, fun m hm => absurd hm List.not_mem_nil⟩,
        fun n hn => absurd hn List.not_mem_nil⟩
  | cons n ns ih =>
      intro visited visited' hsorted h
      unfold each at h
      rcases hv : visit n visited with _ | _ | mid <;> rw [hv] at h
      · cases h
      · cases h
      · obtain ⟨hmid, ⟨new, rfl, hnew⟩, hmem⟩ := hvisit n visited mid hsorted hv
        obtain ⟨hsorted', ⟨new', rfl, hnew'⟩, hmem'⟩ := ih hmid h
        refine ⟨hsorted', ⟨new ++ new', List.append_assoc .., ?_⟩, ?_⟩
        · intro m hm
          rcases List.mem_append.mp hm with hm | hm
          · obtain ⟨k, hk, hreach⟩ := hnew m hm
            exact ⟨k, List.mem_cons.mpr (.inl (List.mem_singleton.mp hk)), hreach⟩
          · obtain ⟨k, hk, hreach⟩ := hnew' m hm
            exact ⟨k, List.mem_cons_of_mem n hk, hreach⟩
        · intro k hk
          rcases List.mem_cons.mp hk with rfl | hk
          · exact List.mem_append_left _ (hmem k (List.mem_singleton_self k))
          · exact hmem' k hk

theorem each_failure {visit : N → List N → Option (Option (List N))} :
    ∀ {ns visited}, each visit ns visited = some none →
      ∃ n ∈ ns, ∃ visited, visit n visited = some none := by
  intro ns
  induction ns with
  | nil => intro visited h; cases h
  | cons n ns ih =>
      intro visited h
      unfold each at h
      rcases hv : visit n visited with _ | _ | mid <;> rw [hv] at h
      · cases h
      · exact ⟨n, List.mem_cons_self .., visited, hv⟩
      · obtain ⟨k, hk, w, hw⟩ := ih h
        exact ⟨k, List.mem_cons_of_mem n hk, w, hw⟩

theorem each_total {visit : N → List N → Option (Option (List N))} :
    ∀ {ns visited}, (∀ n ∈ ns, ∀ visited, visit n visited ≠ none) →
      each visit ns visited ≠ none := by
  intro ns
  induction ns with
  | nil => intro visited _ h; cases h
  | cons n ns ih =>
      intro visited hvisit h
      unfold each at h
      rcases hv : visit n visited with _ | _ | mid <;> rw [hv] at h
      · exact hvisit n (List.mem_cons_self ..) visited hv
      · cases h
      · exact ih (fun k hk => hvisit k (List.mem_cons_of_mem n hk)) h

/-! ## The search of a node -/

/-- The search from one node: a node seen is done, a node it is in is a cycle. -/
def search [DecidableEq N] (next : N → Option (List N)) : ℕ → List N → N → List N →
    Option (Option (List N))
  | 0, _, _, _ => none
  | rounds + 1, visiting, n, visited =>
      if n ∈ visited then some (some visited)
      else if n ∈ visiting then some none
      else
        match next n with
        | none => some none
        | some ds =>
            match each (search next rounds (visiting ++ [n])) ds visited with
            | some (some visited) => some (some (visited ++ [n]))
            | r => r

variable [DecidableEq N]

/-- **A successful search leaves a sorted list with the node and what is in its reach.** Kind: P -/
theorem search_success : ∀ (rounds : ℕ) (visiting : List N) (n : N) (visited visited' : List N),
    Sorted next visited → search next rounds visiting n visited = some (some visited') →
    Extends next [n] visited visited' := by
  intro rounds
  induction rounds with
  | zero => intro visiting n visited visited' _ h; cases h
  | succ rounds ih =>
      intro visiting n visited visited' hsorted h
      unfold search at h
      by_cases hseen : n ∈ visited
      · rw [if_pos hseen] at h
        obtain rfl := Option.some.inj (Option.some.inj h)
        exact ⟨hsorted, ⟨[], (List.append_nil _).symm, fun m hm => absurd hm List.not_mem_nil⟩,
          List.forall_mem_singleton.mpr hseen⟩
      rw [if_neg hseen] at h
      by_cases hin : n ∈ visiting
      · rw [if_pos hin] at h
        cases h
      rw [if_neg hin] at h
      cases hn : next n with
      | none =>
          rw [hn] at h
          cases h
      | some ds =>
          rw [hn] at h
          dsimp only at h
          rcases he : each (search next rounds (visiting ++ [n])) ds visited with _ | _ | mid <;>
            rw [he] at h
          · cases h
          · cases h
          · obtain rfl := Option.some.inj (Option.some.inj h)
            obtain ⟨hmid, ⟨new, rfl, hnew⟩, hmem⟩ :=
              each_success (fun k v v' => ih (visiting ++ [n]) k v v') hsorted he
            have hfresh : n ∉ visited ++ new := by
              intro hmem'
              rcases List.mem_append.mp hmem' with hold | hmem'
              · exact hseen hold
              · obtain ⟨d, hd, hreach⟩ := hnew n hmem'
                have hcycle : Relation.TransGen (Edge next) n n :=
                  Relation.TransGen.head' ⟨ds, hn, hd⟩ hreach
                exact hmid.not_bad (List.mem_append_right _ hmem') (.inr hcycle)
            refine ⟨hmid.snoc hfresh hn hmem, ⟨new ++ [n], List.append_assoc .., ?_⟩, ?_⟩
            · intro m hm
              refine ⟨n, List.mem_singleton_self n, ?_⟩
              rcases List.mem_append.mp hm with hm | hm
              · obtain ⟨d, hd, hreach⟩ := hnew m hm
                exact Relation.ReflTransGen.head ⟨ds, hn, hd⟩ hreach
              · rw [List.mem_singleton.mp hm]
                exact Relation.ReflTransGen.refl
            · exact List.forall_mem_singleton.mpr
                (List.mem_append_right _ (List.mem_singleton_self n))

/-- A search from a node not seen yet ends with the node. Kind: L -/
theorem search_last {rounds : ℕ} {visiting visited visited' : List N} {n : N} (hnew : n ∉ visited)
    (h : search next rounds visiting n visited = some (some visited')) :
    ∃ pre, visited' = pre ++ [n] := by
  cases rounds with
  | zero => cases h
  | succ rounds =>
      unfold search at h
      rw [if_neg hnew] at h
      by_cases hin : n ∈ visiting
      · rw [if_pos hin] at h
        cases h
      rw [if_neg hin] at h
      cases hn : next n with
      | none =>
          rw [hn] at h
          cases h
      | some ds =>
          rw [hn] at h
          dsimp only at h
          rcases he : each (search next rounds (visiting ++ [n])) ds visited with _ | _ | mid <;>
            rw [he] at h
          · cases h
          · cases h
          · exact ⟨mid, (Option.some.inj (Option.some.inj h)).symm⟩

/-- **A search that fails has a node in reach that is missing or on a cycle.** Kind: P -/
theorem search_failure : ∀ (rounds : ℕ) (visiting : List N) (n : N) (visited : List N),
    (∀ v ∈ visiting, Relation.TransGen (Edge next) v n) →
    search next rounds visiting n visited = some none → ∃ m, Reach next n m ∧ Bad next m := by
  intro rounds
  induction rounds with
  | zero => intro visiting n visited _ h; cases h
  | succ rounds ih =>
      intro visiting n visited hpath h
      unfold search at h
      by_cases hseen : n ∈ visited
      · rw [if_pos hseen] at h
        cases h
      rw [if_neg hseen] at h
      by_cases hin : n ∈ visiting
      · exact ⟨n, Relation.ReflTransGen.refl, .inr (hpath n hin)⟩
      rw [if_neg hin] at h
      cases hn : next n with
      | none => exact ⟨n, Relation.ReflTransGen.refl, .inl hn⟩
      | some ds =>
          rw [hn] at h
          dsimp only at h
          rcases he : each (search next rounds (visiting ++ [n])) ds visited with _ | _ | mid <;>
            rw [he] at h
          · cases h
          · obtain ⟨d, hd, w, hw⟩ := each_failure he
            have hedge : Edge next n d := ⟨ds, hn, hd⟩
            have hpath' : ∀ v ∈ visiting ++ [n], Relation.TransGen (Edge next) v d := by
              intro v hv
              rcases List.mem_append.mp hv with hv | hv
              · exact (hpath v hv).tail hedge
              · rw [List.mem_singleton.mp hv]
                exact Relation.TransGen.single hedge
            obtain ⟨m, hreach, hbad⟩ := ih _ d w hpath' hw
            exact ⟨m, Relation.ReflTransGen.head hedge hreach, hbad⟩
          · cases h

/-- **A search is in no node twice**: as many rounds as there are nodes left are enough. Kind: P -/
theorem search_total {names : List N} (hnames : ∀ n, next n ≠ none → n ∈ names) :
    ∀ (rounds : ℕ) (visiting : List N) (n : N) (visited : List N), visiting.Nodup →
      (∀ v ∈ visiting, v ∈ names) → names.length < visiting.length + rounds →
      search next rounds visiting n visited ≠ none := by
  intro rounds
  induction rounds with
  | zero =>
      intro visiting n visited hnodup hsub hlen _
      have hle := (hnodup.subperm fun v hv => hsub v hv).length_le
      omega
  | succ rounds ih =>
      intro visiting n visited hnodup hsub hlen h
      unfold search at h
      by_cases hseen : n ∈ visited
      · rw [if_pos hseen] at h
        cases h
      rw [if_neg hseen] at h
      by_cases hin : n ∈ visiting
      · rw [if_pos hin] at h
        cases h
      rw [if_neg hin] at h
      cases hn : next n with
      | none =>
          rw [hn] at h
          cases h
      | some ds =>
          rw [hn] at h
          dsimp only at h
          have hnodup' : (visiting ++ [n]).Nodup := by
            rw [List.nodup_append]
            refine ⟨hnodup, List.nodup_singleton n, ?_⟩
            rintro a ha b hb rfl
            rw [List.mem_singleton.mp hb] at ha
            exact hin ha
          have hsub' : ∀ v ∈ visiting ++ [n], v ∈ names := by
            intro v hv
            rcases List.mem_append.mp hv with hv | hv
            · exact hsub v hv
            · rw [List.mem_singleton.mp hv]
              apply hnames
              rw [hn]
              exact Option.some_ne_none ds
          have hlen' : names.length < (visiting ++ [n]).length + rounds := by
            rw [List.length_append, List.length_singleton]
            omega
          have htotal := @each_total N _ ds visited fun d _ w =>
            ih (visiting ++ [n]) d w hnodup' hsub' hlen'
          rcases he : each (search next rounds (visiting ++ [n])) ds visited with _ | _ | mid <;>
            rw [he] at h
          · exact htotal he
          · cases h
          · cases h

/-! ## A search from nowhere -/

section Start

variable {names : List N} {rounds : ℕ} {n : N}

/-- **The order of a search**: the nodes in reach, each once and behind its successors, the node
itself last. Kind: P -/
theorem search_order {order : List N} (h : search next rounds [] n [] = some (some order)) :
    Sorted next order ∧ (∀ m, m ∈ order ↔ Reach next n m) ∧ ∃ pre, order = pre ++ [n] := by
  obtain ⟨hsorted, ⟨new, rfl, hnew⟩, hmem⟩ := search_success rounds [] n [] order Sorted.nil h
  refine ⟨hsorted, fun m => ⟨fun hm => ?_, fun hreach => ?_⟩, search_last List.not_mem_nil h⟩
  · obtain ⟨k, hk, hreach⟩ := hnew m hm
    rw [List.mem_singleton.mp hk] at hreach
    exact hreach
  · exact hsorted.closed (hmem n (List.mem_singleton_self n)) hreach

/-- **A search from nowhere succeeds exactly if no node in reach is missing or on a cycle.**
Kind: P -/
theorem search_iff (hnames : ∀ n, next n ≠ none → n ∈ names) (hrounds : names.length < rounds) :
    (∃ order, search next rounds [] n [] = some (some order)) ↔
      ∀ m, Reach next n m → ¬ Bad next m := by
  constructor
  · rintro ⟨order, h⟩ m hreach
    obtain ⟨hsorted, hiff, -⟩ := search_order h
    exact hsorted.not_bad ((hiff m).mpr hreach)
  · intro hgood
    have htotal : search next rounds [] n [] ≠ none := by
      apply search_total hnames rounds [] n [] List.nodup_nil
      · exact fun v hv => absurd hv List.not_mem_nil
      · rw [List.length_nil]
        omega
    rcases h : search next rounds [] n [] with _ | _ | order
    · exact absurd h htotal
    · obtain ⟨m, hreach, hbad⟩ := search_failure rounds [] n []
        (fun v hv => absurd hv List.not_mem_nil) h
      exact absurd hbad (hgood m hreach)
    · exact ⟨order, rfl⟩

end Start

end CxyCompiler.Lib.Postorder
