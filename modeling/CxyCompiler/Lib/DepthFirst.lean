import Mathlib.Data.Fintype.Card
import Mathlib.Data.List.Chain
import Mathlib.Data.List.Nodup
import Mathlib.Data.List.Sort
import Mathlib.Logic.Relation

/-!
# The order in which a depth-first search leaves the nodes

A search of a finite graph enters a node once, searches its successors and leaves it. In what order
the successors and the starts are listed is not known.

* `visit`, `tour`: the search from a node, and from a list of starts.
* `visit_total`: as many rounds as there are nodes are enough.
* `Explored`: what a search does; a node is left behind all that it leads to, but for what is cut
  off by the way that led to it.
* `Early`: there is a way to a node that cuts off another one from it.
* **`tour_iff`**: one node is left before another in every listing exactly if no such way exists.
-/

namespace CxyCompiler.Lib.DepthFirst

variable {N : Type}

/-- The nodes that were entered and those that were left, in that order. -/
structure Trace (N : Type) where
  entered : List N
  left : List N

theorem nodup_snoc {l : List N} {n : N} (h : l.Nodup) (hn : n ∉ l) : (l ++ [n]).Nodup :=
  List.nodup_append.mpr ⟨h, List.nodup_singleton n, fun _ ha _ hb hab =>
    hn (List.mem_singleton.mp hb ▸ hab ▸ ha)⟩

section Search

variable [DecidableEq N]

def visit (next : N → List N) : ℕ → Trace N → N → Option (Trace N)
  | 0, _, _ => none
  | rounds + 1, s, n =>
      if n ∈ s.entered then some s
      else ((next n).foldlM (visit next rounds) ⟨s.entered ++ [n], s.left⟩).map fun s =>
        ⟨s.entered, s.left ++ [n]⟩

/-- A search from one node after the other. -/
def visits (next : N → List N) (rounds : ℕ) (s : Trace N) (ns : List N) : Option (Trace N) :=
  ns.foldlM (visit next rounds) s

def tour (next : N → List N) (rounds : ℕ) (starts : List N) : Option (Trace N) :=
  visits next rounds ⟨[], []⟩ starts

variable {next : N → List N}

theorem visit_seen {rounds : ℕ} {s s' : Trace N} {n : N} (hn : n ∈ s.entered)
    (h : visit next rounds s n = some s') : s' = s := by
  cases rounds with
  | zero => cases h
  | succ rounds =>
      rw [visit, if_pos hn] at h
      exact (Option.some.inj h).symm

theorem visit_new {rounds : ℕ} {s s' : Trace N} {n : N} (hn : n ∉ s.entered)
    (h : visit next rounds s n = some s') : ∃ k mid, rounds = k + 1 ∧
      visits next k ⟨s.entered ++ [n], s.left⟩ (next n) = some mid ∧
        s' = ⟨mid.entered, mid.left ++ [n]⟩ := by
  cases rounds with
  | zero => cases h
  | succ k =>
      rw [visit, if_neg hn] at h
      obtain ⟨mid, hmid, hs'⟩ := Option.map_eq_some_iff.mp h
      exact ⟨k, mid, rfl, hmid, hs'.symm⟩

theorem visits_cons {rounds : ℕ} {s s' : Trace N} {n : N} {ns : List N}
    (h : visits next rounds s (n :: ns) = some s') :
    ∃ mid, visit next rounds s n = some mid ∧ visits next rounds mid ns = some s' := by
  unfold visits at h
  rw [List.foldlM_cons] at h
  exact Option.bind_eq_some_iff.mp h

theorem visits_append {rounds : ℕ} {s s' : Trace N} {ns ms : List N}
    (h : visits next rounds s (ns ++ ms) = some s') :
    ∃ mid, visits next rounds s ns = some mid ∧ visits next rounds mid ms = some s' := by
  unfold visits at h
  rw [List.foldlM_append] at h
  exact Option.bind_eq_some_iff.mp h

theorem visits_seen {rounds : ℕ} {s s' : Trace N} : ∀ {ns : List N}, (∀ n ∈ ns, n ∈ s.entered) →
    visits next rounds s ns = some s' → s' = s
  | [], _, h => (Option.some.inj h).symm
  | n :: ns, hns, h => by
      obtain ⟨hn, hrest⟩ := List.forall_mem_cons.mp hns
      obtain ⟨mid, hmid, htail⟩ := visits_cons h
      obtain rfl := visit_seen hn hmid
      exact visits_seen hrest htail

/-- **As many rounds as there are nodes are enough.** Kind: P -/
theorem visit_total [Fintype N] : ∀ (rounds : ℕ) (s : Trace N) (n : N), s.entered.Nodup →
    Fintype.card N < rounds + s.entered.length →
    ∃ s', visit next rounds s n = some s' ∧ s'.entered.Nodup ∧ s.entered.length ≤ s'.entered.length
  | 0, s, n, hnodup, hcard => by
      have := hnodup.length_le_card
      omega
  | rounds + 1, s, n, hnodup, hcard => by
      by_cases hn : n ∈ s.entered
      · exact ⟨s, by rw [visit, if_pos hn], hnodup, le_rfl⟩
      · have hvisits : ∀ (ns : List N) (s : Trace N), s.entered.Nodup →
            Fintype.card N < rounds + s.entered.length → ∃ s', visits next rounds s ns = some s' ∧
              s'.entered.Nodup ∧ s.entered.length ≤ s'.entered.length := by
          intro ns
          induction ns with
          | nil => exact fun s hnodup _ => ⟨s, rfl, hnodup, le_rfl⟩
          | cons m ns ih =>
              intro s hnodup hcard
              obtain ⟨mid, hmid, hmidnodup, hle⟩ := visit_total rounds s m hnodup hcard
              obtain ⟨s', hs', hnodup', hle'⟩ := ih mid hmidnodup (by omega)
              refine ⟨s', ?_, hnodup', hle.trans hle'⟩
              unfold visits
              rw [List.foldlM_cons, hmid]
              exact hs'
        have hnew : (s.entered ++ [n]).Nodup := nodup_snoc hnodup hn
        have hlen : (s.entered ++ [n]).length = s.entered.length + 1 := List.length_append
        obtain ⟨mid, hmid, hmidnodup, hle⟩ := hvisits (next n) ⟨s.entered ++ [n], s.left⟩ hnew
          (by rw [hlen]; omega)
        refine ⟨⟨mid.entered, mid.left ++ [n]⟩, ?_, hmidnodup, ?_⟩
        · rw [visit, if_neg hn]
          exact Option.map_eq_some_iff.mpr ⟨mid, hmid, rfl⟩
        · rw [hlen] at hle
          exact (Nat.le_succ _).trans hle

theorem visits_total [Fintype N] {rounds : ℕ} (hrounds : Fintype.card N < rounds) :
    ∀ (ns : List N) (s : Trace N), s.entered.Nodup →
      ∃ s', visits next rounds s ns = some s' ∧ s'.entered.Nodup
  | [], s, hnodup => ⟨s, rfl, hnodup⟩
  | n :: ns, s, hnodup => by
      obtain ⟨mid, hmid, hmidnodup, -⟩ := @visit_total N _ next _ rounds s n hnodup (by omega)
      obtain ⟨s', hs', hnodup'⟩ := visits_total hrounds ns mid hmidnodup
      refine ⟨s', ?_, hnodup'⟩
      unfold visits
      rw [List.foldlM_cons, hmid]
      exact hs'

/-- **A search from any starts ends.** Kind: P -/
theorem tour_total [Fintype N] {rounds : ℕ} (hrounds : Fintype.card N < rounds) (starts : List N) :
    ∃ s, tour next rounds starts = some s := by
  obtain ⟨s, hs, -⟩ := @visits_total N _ next _ rounds hrounds starts ⟨[], []⟩ List.nodup_nil
  exact ⟨s, hs⟩

end Search

/-! ## Ways -/

section Ways

variable {next : N → List N} {E : N → N → Prop}

/-- A way to a node that is in none twice. -/
structure Way (E : N → N → Prop) (q : List N) (x : N) : Prop where
  nodup : (q ++ [x]).Nodup
  chain : (q ++ [x]).IsChain E

/-- One node leads to another past the nodes of a way. -/
def Past (E : N → N → Prop) (q : List N) : N → N → Prop := Relation.ReflTransGen fun a b =>
    E a b ∧ b ∉ q

/-- A search is in the nodes of a way, and has left the others that it has entered. -/
structure Inside (next : N → List N) (path : List N) (s : Trace N) : Prop where
  once : s.entered.Nodup
  nodup : s.left.Nodup
  mem : ∀ m, m ∈ s.entered ↔ m ∈ path ∨ m ∈ s.left
  apart : ∀ m ∈ path, m ∉ s.left
  closed : ∀ m ∈ s.left, ∀ k ∈ next m, k ∈ s.entered

/-- What a search of some nodes does: it enters them, and leaves new nodes, each behind all that it
leads to past the way to it. -/
structure Explored (next : N → List N) (E : N → N → Prop) (path : List N) (ns : List N)
    (s s' : Trace N) :
    Prop where
  inside : Inside next path s'
  starts : ∀ n ∈ ns, n ∈ s'.entered
  mono : ∀ m ∈ s.entered, m ∈ s'.entered
  new : ∃ new, s'.left = s.left ++ new ∧ ∀ l x r, new = l ++ x :: r →
    ∃ q, Way E (path ++ q) x ∧ (∃ n ∈ ns, (q ++ [x]).head? = some n) ∧
      (∀ m ∈ q ++ [x], m ∉ s.entered) ∧
      ∀ y, Past E (path ++ q) x y → y ∈ s.left ++ l ++ [x]

theorem Inside.start : Inside next [] ⟨[], []⟩ where
  once := List.nodup_nil
  nodup := List.nodup_nil
  mem := fun _ => or_self_iff.symm
  apart := fun _ _ => List.not_mem_nil
  closed := fun _ hm => absurd hm List.not_mem_nil

theorem Inside.enter {path : List N} {s : Trace N} {n : N} (h : Inside next path s)
    (hn : n ∉ s.entered) :
    Inside next (path ++ [n]) ⟨s.entered ++ [n], s.left⟩ where
  once := nodup_snoc h.once hn
  nodup := h.nodup
  mem := fun m => by rw [List.mem_append, List.mem_append, h.mem, or_right_comm]
  apart := fun m hm hleft => by
    obtain hm | hm := List.mem_append.mp hm
    · exact h.apart m hm hleft
    · rw [List.mem_singleton.mp hm] at hleft
      exact hn ((h.mem n).mpr (.inr hleft))
  closed := fun m hm k hk => List.mem_append_left _ (h.closed m hm k hk)

theorem Explored.nil {path : List N} {s : Trace N} (h : Inside next path s) :
    Explored next E path [] s s where
  inside := h
  starts := fun n hn => absurd hn List.not_mem_nil
  mono := fun _ hm => hm
  new := ⟨[], (List.append_nil _).symm, fun l x r h => absurd h (by simp)⟩

theorem Explored.cons {path : List N} {n : N} {ns : List N} {s mid s' : Trace N}
    (h₁ : Explored next E path [n] s mid) (h₂ : Explored next E path ns mid s') :
    Explored next E path (n :: ns) s s' where
  inside := h₂.inside
  starts := List.forall_mem_cons.mpr
    ⟨h₂.mono n (h₁.starts n (List.mem_singleton_self n)), h₂.starts⟩
  mono := fun m hm => h₂.mono m (h₁.mono m hm)
  new := by
    obtain ⟨new₁, hleft₁, hnew₁⟩ := h₁.new
    obtain ⟨new₂, hleft₂, hnew₂⟩ := h₂.new
    refine ⟨new₁ ++ new₂, by rw [hleft₂, hleft₁, List.append_assoc], fun l x r h => ?_⟩
    obtain ⟨as, rfl, hr⟩ | ⟨bs, hnew, hx⟩ := List.append_eq_append_iff.mp h
    · obtain ⟨q, hway, ⟨k, hk, hhead⟩, hfresh, hpast⟩ := hnew₂ as x r hr
      refine ⟨q, hway, ⟨k, List.mem_cons_of_mem n hk, hhead⟩, fun m hm => ?_, fun y hy => ?_⟩
      · exact fun hold => hfresh m hm (h₁.mono m hold)
      · have hmem := hpast y hy
        rwa [hleft₁, List.append_assoc s.left] at hmem
    · cases bs with
      | nil =>
          rw [List.append_nil] at hnew
          obtain ⟨q, hway, ⟨k, hk, hhead⟩, hfresh, hpast⟩ := hnew₂ [] x r hx.symm
          refine ⟨q, hway, ⟨k, List.mem_cons_of_mem n hk, hhead⟩, fun m hm => ?_, fun y hy => ?_⟩
          · exact fun hold => hfresh m hm (h₁.mono m hold)
          · have hmem := hpast y hy
            rwa [hleft₁, List.append_nil, hnew] at hmem
      | cons b bs =>
          obtain ⟨rfl, rfl⟩ := List.cons.inj hx
          obtain ⟨q, hway, ⟨k, hk, hhead⟩, hfresh, hpast⟩ := hnew₁ l x bs hnew
          obtain rfl := List.mem_singleton.mp hk
          exact ⟨q, hway, ⟨k, List.mem_cons_self, hhead⟩, hfresh, hpast⟩

theorem chain_snoc {path : List N} {n k : N} (h : (path ++ [n]).IsChain E) (hk : E n k) :
    (path ++ [n] ++ [k]).IsChain E := by
  refine h.append (List.isChain_singleton k) fun a ha b hb => ?_
  rw [List.getLast?_concat] at ha
  obtain rfl := Option.some.inj ha
  obtain rfl := Option.some.inj hb
  exact hk

theorem past_of_chain {q : List N} : ∀ {l : List N} {a : N}, (a :: l).IsChain E → (∀ b ∈ l, b ∉ q) →
    ∀ b ∈ a :: l, Past E q a b
  | [], a, _, _, b, hb => by
      rw [List.mem_singleton.mp hb]
      exact .refl
  | c :: l, a, hchain, hq, b, hb => by
      obtain ⟨hac, hrest⟩ := List.isChain_cons_cons.mp hchain
      obtain ⟨hc, hl⟩ := List.forall_mem_cons.mp hq
      obtain rfl | hb := List.mem_cons.mp hb
      · exact .refl
      · exact .head ⟨hac, hc⟩ (past_of_chain hrest hl b hb)

theorem Way.past {q q' : List N} {x m : N} (h : Way E (q ++ [x] ++ q') m) : Past E q x m := by
  obtain ⟨hnodup, hchain⟩ := h
  rw [List.append_assoc, List.append_assoc] at hnodup hchain
  refine past_of_chain (List.isChain_append.mp hchain).2.1 (fun b hb hq => ?_) m
    (List.mem_cons_of_mem x (List.mem_append_right q' (List.mem_singleton_self m)))
  exact (List.nodup_append.mp hnodup).2.2 b hq b (List.mem_cons_of_mem x hb) rfl

def Leads (E : N → N → Prop) : N → N → Prop := Relation.ReflTransGen E

theorem Way.leads {q : List N} {x r : N} (h : Way E q x) (hhead : (q ++ [x]).head? = some r) :
    Leads E r x := by
  obtain ⟨l, hl⟩ := List.head?_eq_some_iff.mp hhead
  have hchain := h.chain
  rw [hl] at hchain
  have hx : x ∈ r :: l := hl ▸ List.mem_append_right _ (List.mem_singleton_self x)
  have hpast : Past E [] r x := past_of_chain hchain (fun _ _ => List.not_mem_nil) x hx
  exact Relation.ReflTransGen.mono (fun _ _ h => h.1) _ _ hpast

theorem Way.head_mem {q c : List N} {x h : N} (hway : Way E q x) (hc : q ++ [x] = h :: c)
    {nodes : List N}
    (hx : x ∈ nodes) (hnodes : ∀ a b, E a b → a ∈ nodes) : h ∈ nodes := by
  cases q with
  | nil => exact (List.cons.inj hc).1 ▸ hx
  | cons a q =>
      obtain ⟨rfl, rfl⟩ := List.cons.inj hc
      have hchain := hway.chain
      cases q with
      | nil => exact hnodes a x (List.isChain_cons_cons.mp hchain).1
      | cons b q => exact hnodes a b (List.isChain_cons_cons.mp hchain).1

/-- When no search is going on, what was left is closed. Kind: L -/
theorem Inside.leads {s : Trace N} (hE : ∀ a b, E a b → b ∈ next a) (h : Inside next [] s) {r m : N}
    (hr : r ∈ s.entered) (hm : Leads E r m) : m ∈ s.left := by
  have hleft : ∀ k ∈ s.entered, k ∈ s.left :=
    fun k hk => ((h.mem k).mp hk).elim (fun hk => absurd hk List.not_mem_nil) id
  induction hm with
  | refl => exact hleft r hr
  | @tail a b _ hab ih => exact hleft b (h.closed a ih b (hE a b hab))

/-- A node behind a way, where the nodes that it leads to were entered. Kind: L -/
theorem past_left {path : List N} {n : N} {s : Trace N} (hE : ∀ a b, E a b → b ∈ next a)
    (h : Inside next (path ++ [n]) s) (hnext : ∀ k ∈ next n, k ∈ s.entered) {y : N}
      (hy : Past E path n y) :
    y ∈ s.left ++ [n] := by
  have hstep : ∀ b, b ∈ s.entered → b ∉ path → b ∈ s.left ++ [n] := by
    intro b hb hnot
    obtain hpath | hleft := (h.mem b).mp hb
    · exact (List.mem_append.mp hpath).elim (fun hb => absurd hb hnot) (List.mem_append_right _)
    · exact List.mem_append_left _ hleft
  induction hy with
  | refl => exact List.mem_append_right _ (List.mem_singleton_self n)
  | @tail a b _ hab ih =>
      obtain hleft | hn := List.mem_append.mp ih
      · exact hstep b (h.closed a hleft b (hE a b hab.1)) hab.2
      · rw [List.mem_singleton.mp hn] at hab
        exact hstep b (hnext b (hE n b hab.1)) hab.2

/-- The end of a search from a new node: all it leads to was explored. Kind: L -/
theorem Explored.leave {path : List N} {n : N} {s mid : Trace N} (hE : ∀ a b, E a b → b ∈ next a)
    (hway : Way E path n) (hn : n ∉ s.entered)
    (h : Explored next E (path ++ [n]) (next n) ⟨s.entered ++ [n], s.left⟩ mid) :
    Explored next E path [n] s ⟨mid.entered, mid.left ++ [n]⟩ := by
  obtain ⟨new, hleft, hnew⟩ := h.new
  have hnot : n ∉ mid.left := h.inside.apart n (List.mem_append_right _ (List.mem_singleton_self n))
  refine ⟨⟨h.inside.once, nodup_snoc h.inside.nodup hnot, fun m => ?_, fun m hm => ?_, fun m hm =>
    ?_⟩,
    fun m hm => ?_, fun m hm => ?_, new ++ [n], ?_, fun l x r hsplit => ?_⟩
  · rw [h.inside.mem, List.mem_append, List.mem_append, or_assoc, or_comm (a := m ∈ [n])]
  · intro hleft'
    obtain hold | hlast := List.mem_append.mp hleft'
    · exact h.inside.apart m (List.mem_append_left _ hm) hold
    · rw [List.mem_singleton.mp hlast] at hm
      exact (List.nodup_append.mp hway.nodup).2.2 n hm n (List.mem_singleton_self n) rfl
  · obtain hold | hlast := List.mem_append.mp hm
    · exact h.inside.closed m hold
    · rw [List.mem_singleton.mp hlast]
      exact h.starts
  · rw [List.mem_singleton.mp hm]
    exact h.mono n (List.mem_append_right _ (List.mem_singleton_self n))
  · exact h.mono m (List.mem_append_left _ hm)
  · rw [hleft, List.append_assoc]
  · obtain rfl | ⟨r, z, rfl⟩ := List.eq_nil_or_concat r
    · -- the node itself, which is left last
      obtain ⟨rfl, hx⟩ := List.append_inj' hsplit rfl
      obtain rfl := (List.cons.inj hx).1
      refine ⟨[], by rwa [List.append_nil], ⟨n, List.mem_singleton_self n, rfl⟩, fun m hm => ?_,
        fun y hy => ?_⟩
      · rw [List.mem_singleton.mp hm]
        exact hn
      · rw [List.append_nil] at hy
        rw [← hleft]
        exact past_left hE h.inside h.starts hy
    · rw [List.concat_eq_append, ← List.cons_append, ← List.append_assoc] at hsplit
      obtain ⟨rfl, -⟩ := List.append_inj' hsplit rfl
      obtain ⟨q, hway', hhead, hfresh, hpast⟩ := hnew l x r rfl
      rw [List.append_assoc] at hway' hpast
      refine ⟨[n] ++ q, hway', ⟨n, List.mem_singleton_self n, rfl⟩, fun m hm => ?_, hpast⟩
      rw [List.append_assoc] at hm
      obtain hm | hm := List.mem_append.mp hm
      · rw [List.mem_singleton.mp hm]
        exact hn
      · exact fun hold => hfresh m hm (List.mem_append_left _ hold)

/-- One node stands before another. -/
def Before (y x : N) (l : List N) : Prop := ∃ a b, l = a ++ x :: b ∧ y ∈ a

/-- A way to `x` past which `x` does not lead to `y`. It starts at the first start; or no node of
it, and not `y`, is in reach from there. -/
def Early (E : N → N → Prop) (first : Option N) (y x : N) : Prop :=
  ∃ q, Way E q x ∧ ¬ Past E q x y ∧ ((∃ r ∈ first, (q ++ [x]).head? = some r) ∨
    ∀ r ∈ first, ¬ Leads E r y ∧ ∀ m ∈ q ++ [x], ¬ Leads E r m)

/-- A successor that does not lead back is in no way cut off. Kind: L -/
theorem not_early {first : Option N} {x y : N} (hxy : E x y)
    (hback : ¬ Leads E y x) : ¬ Early E first y x := by
  rintro ⟨q, hway, hpast, -⟩
  refine hpast (.single ⟨hxy, fun hy => hback ?_⟩)
  obtain ⟨q₁, q₂, rfl⟩ := List.append_of_mem hy
  rw [← List.singleton_append, ← List.append_assoc] at hway
  have hrest : Past E q₁ y x := hway.past
  exact Relation.ReflTransGen.mono (fun _ _ h => h.1) _ _ hrest

theorem mem_toList {first : Option N} {n : N} : n ∈ first.toList ↔ n ∈ first := by
  cases first with
  | none => simp
  | some r => simp [eq_comm]

theorem Explored.leads {ns : List N} {s : Trace N} (h : Explored next E [] ns ⟨[], []⟩ s) {m : N}
    (hm : m ∈ s.entered) : m ∈ s.left ∧ ∃ n ∈ ns, Leads E n m := by
  have hleft : m ∈ s.left := ((h.inside.mem m).mp hm).elim (fun hm => absurd hm List.not_mem_nil) id
  obtain ⟨new, hnew, hways⟩ := h.new
  obtain ⟨l, r, hsplit⟩ := List.append_of_mem (hnew ▸ hleft)
  obtain ⟨q, hway, ⟨n, hn, hhead⟩, -⟩ := hways l m r hsplit
  exact ⟨hleft, n, hn, hway.leads hhead⟩

/-- A node left before the other one does not stand behind it. Kind: L -/
theorem not_before_of_split {l a b : List N} {x y : N} (hnodup : l.Nodup) (hl : l = a ++ x :: b)
    (hy : y ∉ a) : ¬ Before y x l := by
  rintro ⟨a', b', hl', hy'⟩
  rw [hl] at hl' hnodup
  obtain ⟨-, hxb, happart⟩ := List.nodup_append.mp hnodup
  have hxa : x ∉ a := fun hx => happart x hx x List.mem_cons_self rfl
  obtain ⟨ha, -⟩ := (List.append_cons_inj_of_notMem hxa (List.nodup_cons.mp hxb).1).mp hl'
  exact hy (ha ▸ hy')

end Ways

/-! ## What a search does -/

section Laws

variable [DecidableEq N] {next : N → List N} {E : N → N → Prop}

theorem visits_explored {rounds : ℕ} {path : List N}
    (hvisit : ∀ n, (path ++ [n]).IsChain E → ∀ s s',
      Inside next path s → visit next rounds s n = some s' →
      Explored next E path [n] s s') :
    ∀ {ns : List N} {s s' : Trace N}, (∀ n ∈ ns, (path ++ [n]).IsChain E) → Inside next path s →
      visits next rounds s ns = some s' → Explored next E path ns s s'
  | [], s, s', _, hin, h => by
      obtain rfl := Option.some.inj h
      exact .nil hin
  | n :: ns, s, s', hns, hin, h => by
      obtain ⟨hn, hrest⟩ := List.forall_mem_cons.mp hns
      obtain ⟨mid, hmid, htail⟩ := visits_cons h
      have hfirst := hvisit n hn s mid hin hmid
      exact hfirst.cons (visits_explored hvisit hrest hfirst.inside htail)

/-- **What a search from a node does.** Kind: P -/
theorem visit_explored (hE : ∀ a b, E a b ↔ b ∈ next a) : ∀ (rounds : ℕ) {path : List N} {n : N}
    {s s' : Trace N}, path.Nodup → (path ++ [n]).IsChain E → Inside next path s →
      visit next rounds s n = some s' → Explored next E path [n] s s'
  | 0, path, n, s, s', _, _, _, h => by cases h
  | rounds + 1, path, n, s, s', hpath, hchain, hin, h => by
      by_cases hn : n ∈ s.entered
      · obtain rfl := visit_seen hn h
        exact ⟨hin, List.forall_mem_singleton.mpr hn, fun _ hm => hm, [], (List.append_nil _).symm,
          fun l x r h => absurd h (by simp)⟩
      · obtain ⟨k, mid, hk, hmid, rfl⟩ := visit_new hn h
        obtain rfl := Nat.succ.inj hk
        have hnew : n ∉ path := fun hold => hn ((hin.mem n).mpr (.inl hold))
        have hway : Way E path n := ⟨nodup_snoc hpath hnew, hchain⟩
        have hnexts : ∀ m ∈ next n, (path ++ [n] ++ [m]).IsChain E :=
          fun m hm => chain_snoc hchain ((hE n m).mpr hm)
        refine Explored.leave (fun a b => (hE a b).mp) hway hn
          (visits_explored ?_ hnexts (hin.enter hn) hmid)
        exact fun m hm t t' => visit_explored hE rounds hway.nodup hm

/-- What some searches from nowhere do. Kind: L -/
theorem visits_from_nowhere (hE : ∀ a b, E a b ↔ b ∈ next a) {rounds : ℕ} {ns : List N}
    {s s' : Trace N}
    (hin : Inside next [] s) (h : visits next rounds s ns = some s') : Explored next E [] ns s s' :=
  visits_explored (fun _ hn _ _ => visit_explored hE rounds List.nodup_nil hn)
    (fun n _ => List.isChain_singleton n) hin h

/-- A search that follows a way, since each node lists the next one of the way before other new
ones. Kind: L -/
theorem visit_along (hE : ∀ a b, E a b ↔ b ∈ next a) {q : List N} {x : N} (hway : Way E q x)
    (hprefer : ∀ pre a b post, q ++ [x] = pre ++ a :: b :: post →
      ∃ skip others, next a = skip ++ b :: others ∧ ∀ m ∈ skip, m ∈ pre ++ [a]) :
    ∀ (rest pre : List N) (n : N) (rounds : ℕ) (s s' : Trace N), q ++ [x] = pre ++ n :: rest →
      Inside next pre s → (∀ m ∈ n :: rest, m ∉ s.entered) → visit next rounds s n = some s' →
      ∃ l r, s'.left = s.left ++ l ++ x :: r ∧ ∀ m ∈ l, Past E q x m := by
  have hnodup := hway.nodup
  have hchain := hway.chain
  intro rest
  induction rest with
  | nil =>
      intro pre n rounds s s' hc hin hfresh h
      obtain ⟨rfl, hn⟩ := List.append_inj' hc rfl
      obtain rfl := (List.cons.inj hn).1
      have hnew := hfresh x (List.mem_singleton_self x)
      obtain ⟨k, mid, -, hmid, rfl⟩ := visit_new hnew h
      obtain ⟨new, hleft, hways⟩ :=
        (visits_explored (fun m hm t t' => visit_explored hE k hnodup hm)
        (fun m hm => chain_snoc hchain ((hE x m).mpr hm)) (hin.enter hnew) hmid).new
      refine ⟨new, [], by rw [hleft], fun m hm => ?_⟩
      obtain ⟨l, r, hsplit⟩ := List.append_of_mem hm
      obtain ⟨q', hway', -⟩ := hways l m r hsplit
      exact hway'.past
  | cons b rest ih =>
      intro pre n rounds s s' hc hin hfresh h
      obtain ⟨skip, others, hnext, hskip⟩ := hprefer pre n b rest hc
      have hnew := hfresh n List.mem_cons_self
      have hc' : q ++ [x] = pre ++ [n] ++ b :: rest := by rw [hc, List.append_assoc]; rfl
      have hprefix : (pre ++ [n]).Nodup ∧ (pre ++ [n]).IsChain E := by
        rw [hc'] at hnodup hchain
        exact ⟨(List.nodup_append.mp hnodup).1, (List.isChain_append.mp hchain).1⟩
      have hin' := hin.enter hnew
      obtain ⟨k, mid, -, hmid, rfl⟩ := visit_new hnew h
      rw [hnext] at hmid
      obtain ⟨t, ht, hmid⟩ := visits_append hmid
      obtain rfl := visits_seen (fun m hm => (hin'.mem m).mpr (.inl (hskip m hm))) ht
      obtain ⟨t, ht, hmid⟩ := visits_cons hmid
      have hfresh' : ∀ m ∈ b :: rest, m ∉ s.entered ++ [n] := by
        intro m hm hold
        obtain hold | hold := List.mem_append.mp hold
        · exact hfresh m (List.mem_cons_of_mem n hm) hold
        · rw [hc'] at hnodup
          exact (List.nodup_append.mp hnodup).2.2 m (List.mem_append_right _ hold) m hm rfl
      obtain ⟨l, r, hleft, hpast⟩ := ih (pre ++ [n]) b k _ t hc' hin' hfresh' ht
      have hb : (pre ++ [n] ++ [b]).IsChain E :=
        chain_snoc hprefix.2 ((hE n b).mpr (hnext ▸ List.mem_append_right _ List.mem_cons_self))
      have hexplored := visit_explored hE k hprefix.1 hb hin' ht
      obtain ⟨new, hleft', -⟩ :=
        (visits_explored (fun m hm t t' => visit_explored hE k hprefix.1 hm)
        (fun m hm => chain_snoc hprefix.2 ((hE n m).mpr (hnext ▸
          List.mem_append_right _ (List.mem_cons_of_mem b hm)))) hexplored.inside hmid).new
      refine ⟨l, r ++ new ++ [n], ?_, hpast⟩
      change mid.left ++ [n] = _
      rw [hleft', hleft]
      simp only [List.append_assoc, List.cons_append]

/-! ## Tours -/

/-- A node that is not left before another one. Kind: L -/
theorem early_of_not_before (hE : ∀ a b, E a b ↔ b ∈ next a) {rounds : ℕ} {first : Option N}
    {rest : List N}
    {s : Trace N} (h : tour next rounds (first.toList ++ rest) = some s) {x y : N} (hx : x ∈ s.left)
    (hyx : y ≠ x) (hnot : ¬ Before y x s.left) : Early E first y x := by
  obtain ⟨mid, hmid, h⟩ := visits_append h
  have hfirst := visits_from_nowhere hE .start hmid
  have hrest := visits_from_nowhere hE hfirst.inside h
  obtain ⟨new₁, hleft₁, hways₁⟩ := hfirst.new
  obtain ⟨new₂, hleft₂, hways₂⟩ := hrest.new
  have hpast : ∀ {q l r : List N}, s.left = l ++ x :: r → (∀ z, Past E q x z → z ∈ l ++ [x]) →
      ¬ Past E q x y := by
    intro q l r hsplit hall hy
    obtain hl | hyx' := List.mem_append.mp (hall y hy)
    · exact hnot ⟨l, r, hsplit, hl⟩
    · exact hyx (List.mem_singleton.mp hyx')
  rw [hleft₂] at hx
  obtain hx | hx := List.mem_append.mp hx
  · rw [hleft₁, List.nil_append] at hx
    obtain ⟨l, r, hsplit⟩ := List.append_of_mem hx
    obtain ⟨q, hway, ⟨n, hn, hhead⟩, -, hall⟩ := hways₁ l x r hsplit
    have hs : s.left = l ++ x :: (r ++ new₂) := by
      rw [hleft₂, hleft₁, hsplit, List.nil_append, List.append_assoc, List.cons_append]
    exact ⟨q, hway, hpast hs hall, .inl ⟨n, mem_toList.mp hn, hhead⟩⟩
  · obtain ⟨l, r, hsplit⟩ := List.append_of_mem hx
    obtain ⟨q, hway, -, hfresh, hall⟩ := hways₂ l x r hsplit
    have hs : s.left = mid.left ++ l ++ x :: r := by
      rw [hleft₂, hsplit, List.append_assoc]
    have hreach : ∀ r' ∈ first, ∀ m, Leads E r' m → m ∈ mid.left := fun r' hr' m hm =>
      hfirst.inside.leads (fun a b => (hE a b).mp) (hfirst.starts r' (mem_toList.mpr hr')) hm
    refine ⟨q, hway, hpast hs hall, .inr fun r' hr' => ⟨fun hy => ?_, fun m hm hlead => ?_⟩⟩
    · exact hnot ⟨_, r, hs, List.mem_append_left _ (hreach r' hr' y hy)⟩
    · exact hfresh m hm ((hfirst.inside.mem m).mpr (.inr (hreach r' hr' m hlead)))

/-! ## Listings -/

/-- A listing that prefers the nodes of a list, in its order. -/
def prefer (c l : List N) : List N := l.insertionSort fun a b => c.idxOf a ≤ c.idxOf b

theorem prefer_perm (c l : List N) : (prefer c l).Perm l := List.perm_insertionSort _ l

theorem mem_of_idxOf_lt {pre post : List N} {m : N}
    (h : (pre ++ post).idxOf m < pre.length) : m ∈ pre := by
  by_contra hm
  rw [List.idxOf_append, if_neg hm] at h
  omega

/-- A node of the list stands behind others of the list in front of it only. Kind: L -/
theorem prefer_split {pre post l : List N} {b : N} (hnodup : (pre ++ b :: post).Nodup)
    (hb : b ∈ l) :
    ∃ skip others, prefer (pre ++ b :: post) l = skip ++ b :: others ∧ ∀ m ∈ skip, m ∈ pre := by
  have hsorted : (prefer (pre ++ b :: post) l).Pairwise fun x y =>
      (pre ++ b :: post).idxOf x ≤ (pre ++ b :: post).idxOf y := by
    have : Std.Total fun x y : N => (pre ++ b :: post).idxOf x ≤ (pre ++ b :: post).idxOf y :=
      ⟨fun x y => Nat.le_total _ _⟩
    have : IsTrans N fun x y => (pre ++ b :: post).idxOf x ≤ (pre ++ b :: post).idxOf y :=
      ⟨fun x y z => Nat.le_trans⟩
    exact List.pairwise_insertionSort _ l
  have hpre : b ∉ pre := fun h => (List.nodup_append.mp hnodup).2.2 b h b List.mem_cons_self rfl
  have hidx : (pre ++ b :: post).idxOf b = pre.length := by
    rw [List.idxOf_append, if_neg hpre, List.idxOf_cons_self]
    exact Nat.zero_add _
  obtain ⟨skip, others, hsplit, hnot⟩ :=
    List.eq_append_cons_of_mem ((prefer_perm _ l).mem_iff.mpr hb)
  refine ⟨skip, others, hsplit, fun m hm => ?_⟩
  rw [hsplit] at hsorted
  have hle := (List.pairwise_append.mp hsorted).2.2 m hm b List.mem_cons_self
  rw [hidx] at hle
  refine mem_of_idxOf_lt (Nat.lt_of_le_of_ne hle fun heq => ?_)
  have hmb : m = b := by
    have hm' : (pre ++ b :: post).idxOf m < (pre ++ b :: post).length := by
      rw [heq, List.length_append, List.length_cons]
      omega
    rw [← List.getElem_idxOf hm']
    simp only [heq, List.getElem_append_right (Nat.le_refl _), Nat.sub_self, List.getElem_cons_zero]
  exact hnot (hmb ▸ hm)

/-- Each node of a way lists the next one before other nodes that are not behind it. Kind: L -/
theorem prefer_along {edges : N → List N} (hE : ∀ a b, E a b ↔ b ∈ edges a) {q : List N} {x : N}
    (hway : Way E q x) : ∀ pre a b post, q ++ [x] = pre ++ a :: b :: post → ∃ skip others,
      prefer (q ++ [x]) (edges a) = skip ++ b :: others ∧ ∀ m ∈ skip, m ∈ pre ++ [a] := by
  intro pre a b post hc
  have hc' : q ++ [x] = pre ++ [a] ++ b :: post := by rw [hc, List.append_assoc]; rfl
  have hchain := hway.chain
  have hnodup := hway.nodup
  rw [hc] at hchain
  rw [hc'] at hnodup ⊢
  exact prefer_split hnodup ((hE a b).mp (List.isChain_append_cons_cons.mp hchain).2.1)

/-- Where the search of a way starts with none of its nodes entered, `y` is not left before `x`.
Kind: L -/
theorem not_before_along (hE : ∀ a b, E a b ↔ b ∈ next a) {q c : List N} {x y h : N}
    (hway : Way E q x)
    (hprefer : ∀ pre a b post, q ++ [x] = pre ++ a :: b :: post →
      ∃ skip others, next a = skip ++ b :: others ∧ ∀ m ∈ skip, m ∈ pre ++ [a])
    (hc : q ++ [x] = h :: c) (hpast : ¬ Past E q x y) {s s' : Trace N} {others : List N}
      {rounds : ℕ}
    (hin : Inside next [] s) (hfresh : ∀ m ∈ q ++ [x], m ∉ s.entered) (hy : y ∉ s.left)
    (hs : visits next rounds s (h :: others) = some s') : ¬ Before y x s'.left := by
  obtain ⟨mid, hmid, hrest⟩ := visits_cons hs
  obtain ⟨l, r, hleft, hl⟩ := visit_along hE hway hprefer c [] h rounds s mid hc hin
    (hc ▸ hfresh) hmid
  have hafter := visits_from_nowhere hE (visit_explored hE rounds List.nodup_nil
    (List.isChain_singleton h) hin hmid).inside hrest
  obtain ⟨new, hnew, -⟩ := hafter.new
  have hsplit : s'.left = (s.left ++ l) ++ x :: (r ++ new) := by
    rw [hnew, hleft, List.append_assoc _ (x :: r), List.cons_append]
  exact not_before_of_split hafter.inside.nodup hsplit fun hyl =>
    (List.mem_append.mp hyl).elim hy fun hyl => hpast (hl y hyl)

/-- **In every listing a node is left before another exactly if no way leads to that one early.**
Kind: P -/
theorem tour_iff [Fintype N] {edges : N → List N} (hE : ∀ a b, E a b ↔ b ∈ edges a) {nodes : List N}
    {first : Option N} {x y : N} (hx : x ∈ nodes) (hyx : y ≠ x) (hnodes : ∀ a b, E a b → a ∈ nodes)
    {rounds : ℕ} (hrounds : Fintype.card N < rounds) :
    (∀ listing : List N → List N, (∀ l, (listing l).Perm l) → ∀ s,
      tour (fun a => listing (edges a)) rounds (first.toList ++ listing nodes) = some s →
        Before y x s.left) ↔ ¬ Early E first y x := by
  constructor
  · rintro hall ⟨q, hway, hpast, hstart⟩
    have hperm := prefer_perm (q ++ [x])
    have hE' : ∀ a b, E a b ↔ b ∈ prefer (q ++ [x]) (edges a) :=
      fun a b => (hE a b).trans (hperm (edges a)).mem_iff.symm
    obtain ⟨s, hs⟩ := tour_total hrounds (first.toList ++ prefer (q ++ [x]) nodes)
    obtain ⟨h, c, hc⟩ : ∃ h c, q ++ [x] = h :: c :=
      List.exists_cons_of_ne_nil (List.append_ne_nil_of_right_ne_nil _ (List.cons_ne_nil _ _))
    refine absurd (hall _ hperm s hs) ?_
    obtain ⟨r, hr, hhead⟩ | hapart := hstart
    · obtain rfl : h = r := by
        rw [hc] at hhead
        exact Option.some.inj hhead
      rw [Option.mem_def.mp hr] at hs
      exact not_before_along hE' hway (prefer_along hE hway) hc hpast .start (fun _ _ =>
        List.not_mem_nil)
        List.not_mem_nil hs
    · obtain ⟨mid, hmid, hrest⟩ := visits_append hs
      have hfirst := visits_from_nowhere hE' .start hmid
      have hnodup : ([] ++ h :: c).Nodup := hc ▸ hway.nodup
      obtain ⟨skip, others, hsplit, hskip⟩ := prefer_split hnodup (hway.head_mem hc hx hnodes)
      have hnil : skip = [] := List.eq_nil_iff_forall_not_mem.mpr fun m hm =>
        List.not_mem_nil (hskip m hm)
      rw [List.nil_append, ← hc, hnil, List.nil_append] at hsplit
      rw [hsplit] at hrest
      refine not_before_along hE' hway (prefer_along hE hway) hc hpast hfirst.inside
        (fun m hm hold => ?_)
        (fun hold => ?_) hrest
      · obtain ⟨-, r, hr, hlead⟩ := hfirst.leads hold
        exact (hapart r (mem_toList.mp hr)).2 m hm hlead
      · obtain ⟨-, r, hr, hlead⟩ := hfirst.leads ((hfirst.inside.mem y).mpr (.inr hold))
        exact (hapart r (mem_toList.mp hr)).1 hlead
  · intro hnot listing hperm s hs
    have hE' : ∀ a b, E a b ↔ b ∈ listing (edges a) :=
      fun a b => (hE a b).trans (hperm _).mem_iff.symm
    have hexplored := visits_from_nowhere hE' .start hs
    have hxs : x ∈ s.left := (hexplored.leads (hexplored.starts x
      (List.mem_append_right _ ((hperm nodes).mem_iff.mpr hx)))).1
    by_contra hbefore
    exact hnot (early_of_not_before hE' hs hxs hyx hbefore)

/-- **Every node is entered once and left once.** Kind: P -/
theorem tour_once (hE : ∀ a b, E a b ↔ b ∈ next a) {nodes : List N} (hnodup : nodes.Nodup)
    (hclosed : ∀ a ∈ nodes, ∀ b, E a b → b ∈ nodes) {starts : List N}
      (hstarts : ∀ n, n ∈ starts ↔ n ∈ nodes)
    {rounds : ℕ} {s : Trace N} (h : tour next rounds starts = some s) :
    s.entered.Perm nodes ∧ s.left.Perm nodes := by
  have hexplored := visits_from_nowhere hE .start h
  have hmem : ∀ m, m ∈ s.entered ↔ m ∈ nodes := by
    refine fun m => ⟨fun hm => ?_, fun hm => hexplored.starts m ((hstarts m).mpr hm)⟩
    obtain ⟨-, n, hn, hlead⟩ := hexplored.leads hm
    clear hm
    induction hlead with
    | refl => exact (hstarts n).mp hn
    | @tail a b _ hab ih => exact hclosed a ih b hab
  have hleft : ∀ m, m ∈ s.left ↔ m ∈ nodes := fun m =>
    ⟨fun hm => (hmem m).mp ((hexplored.inside.mem m).mpr (.inr hm)),
      fun hm => (hexplored.leads ((hmem m).mpr hm)).1⟩
  exact ⟨(List.perm_ext_iff_of_nodup hexplored.inside.once hnodup).mpr hmem,
    (List.perm_ext_iff_of_nodup hexplored.inside.nodup hnodup).mpr hleft⟩

end Laws

end CxyCompiler.Lib.DepthFirst
