import Mathlib.Data.Finset.Card
import Mathlib.Data.List.Nodup
import Mathlib.Data.List.Perm.Basic

/-!
# Walks that follow each target once

A walk over a graph takes a list of edges in order. An edge whose target has been reached before
is visited and no more; an edge that is the first to its target is followed by a walk over its
own edges, and then the walk goes on.

* `Walk`: the walk as a relation, with the edges visited and those that were first.
* `Reach`: the edges that a walk can come to.
* `Walk.visited_perm`: an edge is visited as often as it is listed by the start and by the edges
  that were first.
* `Walk.complete`: all edges in reach are visited, if edges to one target lead to the same edges.
* **`Walk.order_free`**: walks over the same edges in other orders visit the same edges as often.
* `Walk.exists`: there is a walk when finitely many targets are in reach.
-/

namespace CxyCompiler.Lib.FirstVisit

variable {E N : Type} (children : E → List E) (target : E → N)

/-- `Walk m es v f`: with the targets `m` reached before, the walk over `es` visits `v`, and the
edges of `f` are the first to their targets. -/
inductive Walk : List N → List E → List E → List E → Prop
  | nil (m : List N) : Walk m [] [] []
  | seen {m : List N} {e : E} {es v f : List E} : target e ∈ m → Walk m es v f →
      Walk m (e :: es) (e :: v) f
  | first {m : List N} {e : E} {es v₁ f₁ v₂ f₂ : List E} : target e ∉ m →
      Walk (m ++ [target e]) (children e) v₁ f₁ →
      Walk (m ++ [target e] ++ f₁.map target) es v₂ f₂ →
      Walk m (e :: es) (e :: (v₁ ++ v₂)) (e :: (f₁ ++ f₂))

/-- The edges in reach of a list of edges. -/
inductive Reach (es : List E) : E → Prop
  | start {e : E} : e ∈ es → Reach es e
  | child {e d : E} : Reach es e → d ∈ children e → Reach es d

/-- Edges of a list that have one target lead to the same edges. -/
def Coherent (v : List E) : Prop :=
  ∀ e ∈ v, ∀ e' ∈ v, target e = target e' → (children e).Perm (children e')

variable {children target} {m : List N} {es es' v v' f f' : List E}

/-! ## One walk -/

/-- **What is visited**: the edges at the start and those of each edge that was first. Kind: P -/
theorem Walk.visited_perm (h : Walk children target m es v f) :
    v.Perm (es ++ f.flatMap children) := by
  induction h with
  | nil => rfl
  | seen _ _ ih => exact ih.cons _
  | @first m e es v₁ f₁ v₂ f₂ _ _ _ ih₁ ih₂ =>
      refine List.Perm.cons _ ?_
      rw [List.flatMap_cons, List.flatMap_append]
      calc (v₁ ++ v₂).Perm
            ((children e ++ f₁.flatMap children) ++ (es ++ f₂.flatMap children)) := ih₁.append ih₂
        _ |>.Perm (es ++ f₂.flatMap children ++ (children e ++ f₁.flatMap children)) :=
            List.perm_append_comm
        _ |>.Perm (es ++ (children e ++ (f₁.flatMap children ++ f₂.flatMap children))) := by
            rw [List.append_assoc, ← List.append_assoc (children e)]
            exact List.perm_append_comm.append_left _

theorem Walk.start_subset (h : Walk children target m es v f) : es ⊆ v :=
  fun _ he => h.visited_perm.mem_iff.mpr (List.mem_append_left _ he)

theorem Walk.first_subset (h : Walk children target m es v f) : f ⊆ v := by
  induction h with
  | nil => exact List.Subset.refl _
  | seen _ _ ih => exact fun _ he => List.mem_cons_of_mem _ (ih he)
  | first _ _ _ ih₁ ih₂ =>
      refine List.cons_subset_cons _ (List.append_subset.mpr ⟨fun _ he => ?_, fun _ he => ?_⟩)
      · exact List.mem_append_left _ (ih₁ he)
      · exact List.mem_append_right _ (ih₂ he)

/-- Every target is first reached once, and not when it was reached before. Kind: L -/
theorem Walk.nodup (h : Walk children target m es v f) (hm : m.Nodup) :
    (m ++ f.map target).Nodup := by
  induction h with
  | nil => simpa using hm
  | seen _ _ ih => exact ih hm
  | @first m e es v₁ f₁ v₂ f₂ he _ _ ih₁ ih₂ =>
      have hme : (m ++ [target e]).Nodup := by
        refine List.Nodup.append hm (List.nodup_singleton _) ?_
        rwa [List.disjoint_singleton]
      simpa using ih₂ (ih₁ hme)

/-- The target of every edge visited has been reached. Kind: L -/
theorem Walk.reached (h : Walk children target m es v f) :
    ∀ e ∈ v, target e ∈ m ∨ ∃ e' ∈ f, target e' = target e := by
  induction h with
  | nil => exact fun e he => absurd he List.not_mem_nil
  | seen hm _ ih =>
      intro d hd
      rcases List.mem_cons.mp hd with rfl | hd
      · exact Or.inl hm
      · exact ih d hd
  | @first m e es v₁ f₁ v₂ f₂ _ _ _ ih₁ ih₂ =>
      have split : ∀ n, n ∈ m ++ [target e] → n ∈ m ∨ ∃ e' ∈ e :: (f₁ ++ f₂), target e' = n := by
        intro n hn
        rcases List.mem_append.mp hn with hn | hn
        · exact Or.inl hn
        · exact Or.inr ⟨e, List.mem_cons_self, (List.mem_singleton.mp hn).symm⟩
      intro d hd
      rcases List.mem_cons.mp hd with rfl | hd
      · exact Or.inr ⟨d, List.mem_cons_self, rfl⟩
      rcases List.mem_append.mp hd with hd | hd
      · rcases ih₁ d hd with hn | ⟨e', he', ht⟩
        · exact split _ hn
        · exact Or.inr ⟨e', List.mem_cons_of_mem _ (List.mem_append_left _ he'), ht⟩
      · rcases ih₂ d hd with hn | ⟨e', he', ht⟩
        · rcases List.mem_append.mp hn with hn | hn
          · exact split _ hn
          · obtain ⟨e', he', ht⟩ := List.mem_map.mp hn
            exact Or.inr ⟨e', List.mem_cons_of_mem _ (List.mem_append_left _ he'), ht⟩
        · exact Or.inr ⟨e', List.mem_cons_of_mem _ (List.mem_append_right _ he'), ht⟩

/-- What holds of the edges at the start and passes from an edge to its own holds of all that are
visited. Kind: L -/
theorem Walk.visited_of {p : E → Prop} (h : Walk children target m es v f)
    (hes : ∀ e ∈ es, p e) (hchild : ∀ e, p e → ∀ d ∈ children e, p d) : ∀ e ∈ v, p e := by
  induction h with
  | nil => exact fun e he => absurd he List.not_mem_nil
  | seen _ _ ih =>
      obtain ⟨he, hes⟩ := List.forall_mem_cons.mp hes
      exact List.forall_mem_cons.mpr ⟨he, ih hes⟩
  | first _ _ _ ih₁ ih₂ =>
      obtain ⟨he, hes⟩ := List.forall_mem_cons.mp hes
      exact List.forall_mem_cons.mpr ⟨he,
        List.forall_mem_append.mpr ⟨ih₁ (hchild _ he), ih₂ hes⟩⟩

theorem Walk.in_reach (h : Walk children target m es v f) : ∀ e ∈ v, Reach children es e :=
  h.visited_of (fun _ => .start) fun _ he _ hd => he.child hd

/-- **All edges in reach are visited.** Kind: P -/
theorem Walk.complete (h : Walk children target [] es v f) (hc : Coherent children target v)
    {e : E} (he : Reach children es e) : e ∈ v := by
  induction he with
  | start he => exact h.start_subset he
  | @child e d _ hd ih =>
      obtain hm | ⟨e', he', ht⟩ := h.reached e ih
      · exact absurd hm List.not_mem_nil
      have hd' : d ∈ children e' := (hc e' (h.first_subset he') e ih ht).mem_iff.mpr hd
      exact h.visited_perm.mem_iff.mpr
        (List.mem_append_right _ (List.mem_flatMap.mpr ⟨e', he', hd'⟩))

/-! ## Walks in two orders -/

theorem Reach.mono {children' : E → List E} (hes : es ⊆ es')
    (hch : ∀ e, children e ⊆ children' e) {e : E} (h : Reach children es e) :
    Reach children' es' e := by
  induction h with
  | start he => exact .start (hes he)
  | child _ hd ih => exact ih.child (hch _ hd)

/-- The edges of two lists of edges with the same targets, taken in any order. Kind: L -/
theorem flatMap_perm {children' : E → List E} {p : E → Prop}
    (hc : ∀ e e', p e → p e' → target e = target e' → (children e).Perm (children' e')) :
    ∀ (f f' : List E), (∀ e ∈ f, p e) → (∀ e ∈ f', p e) → (f.map target).Perm (f'.map target) →
      (f.flatMap children).Perm (f'.flatMap children') := by
  intro f
  induction f with
  | nil =>
      intro f' _ _ hperm
      have : f' = [] := List.map_eq_nil_iff.mp (List.nil_perm.mp hperm)
      simp [this]
  | cons e f ih =>
      intro f' hf hf' hperm
      have hmem : target e ∈ f'.map target := hperm.mem_iff.mp (by simp)
      obtain ⟨e', he', ht⟩ := List.mem_map.mp hmem
      obtain ⟨s, t, rfl⟩ := List.append_of_mem he'
      have hmid : (f.map target).Perm ((s ++ t).map target) := by
        rw [List.map_cons, List.map_append, List.map_cons, ht] at hperm
        rw [List.map_append]
        exact (hperm.trans List.perm_middle).cons_inv
      obtain ⟨he, hf⟩ := List.forall_mem_cons.mp hf
      have hst : ∀ d ∈ s ++ t, p d := by
        intro d hd
        refine hf' d ?_
        rcases List.mem_append.mp hd with hd | hd
        · exact List.mem_append_left _ hd
        · exact List.mem_append_right _ (List.mem_cons_of_mem _ hd)
      have hrest := ih (s ++ t) hf hst hmid
      have hhead : (children e).Perm (children' e') := hc e e' he (hf' e' he') ht.symm
      calc ((e :: f).flatMap children).Perm (children' e' ++ (s ++ t).flatMap children') := by
            rw [List.flatMap_cons]
            exact hhead.append hrest
        _ |>.Perm ((e' :: (s ++ t)).flatMap children') := by rw [List.flatMap_cons]
        _ |>.Perm ((s ++ e' :: t).flatMap children') := List.perm_middle.symm.flatMap_right _

/-- **The order does not matter.** Two walks over the same edges, each edge leading to the same
edges in both, visit the same edges as often and reach the same targets. Kind: P -/
theorem Walk.order_free {children' : E → List E} (h : Walk children target [] es v f)
    (h' : Walk children' target [] es' v' f') (hes : es.Perm es')
    (hch : ∀ e, (children e).Perm (children' e)) (hc : Coherent children target v) :
    v.Perm v' ∧ (f.map target).Perm (f'.map target) := by
  have hback : ∀ e ∈ v', e ∈ v := fun e he =>
    h.complete hc ((h'.in_reach e he).mono hes.symm.subset fun d => (hch d).symm.subset)
  have hc' : Coherent children' target v' := fun e he d hd ht =>
    (hch e).symm.trans ((hc e (hback e he) d (hback d hd) ht).trans (hch d))
  have hforth : ∀ e ∈ v, e ∈ v' := fun e he =>
    h'.complete hc' ((h.in_reach e he).mono hes.subset fun d => (hch d).subset)
  have htargets : (f.map target).Perm (f'.map target) := by
    have hnd : (f.map target).Nodup := by simpa using h.nodup List.nodup_nil
    have hnd' : (f'.map target).Nodup := by simpa using h'.nodup List.nodup_nil
    refine (List.perm_ext_iff_of_nodup hnd hnd').mpr fun n => ⟨fun hn => ?_, fun hn => ?_⟩
    · obtain ⟨e, he, rfl⟩ := List.mem_map.mp hn
      have := h'.reached e (hforth e (h.first_subset he))
      simpa using this
    · obtain ⟨e, he, rfl⟩ := List.mem_map.mp hn
      have := h.reached e (hback e (h'.first_subset he))
      simpa using this
  refine ⟨?_, htargets⟩
  refine h.visited_perm.trans ((hes.append ?_).trans h'.visited_perm.symm)
  refine flatMap_perm (p := fun e => e ∈ v) (fun e e' he he' ht => ?_) f f'
    (fun e he => h.first_subset he) (fun e he => hback e (h'.first_subset he)) htargets
  exact (hc e he e' he' ht).trans (hch e')

/-! ## There is a walk -/

variable [DecidableEq N]

/-- A target that is reached is no longer among those to come. Kind: L -/
theorem card_unreached_lt {ns : Finset N} {n : N} (hn : n ∈ ns) (hm : n ∉ m) :
    (ns.filter (· ∉ m ++ [n])).card < (ns.filter (· ∉ m)).card := by
  refine Finset.card_lt_card (Finset.ssubset_iff_of_subset ?_ |>.mpr ⟨n, ?_, ?_⟩)
  · intro k hk
    rw [Finset.mem_filter] at hk ⊢
    exact ⟨hk.1, fun hkm => hk.2 (List.mem_append_left _ hkm)⟩
  · exact Finset.mem_filter.mpr ⟨hn, hm⟩
  · simp

theorem card_unreached_append_le (ns : Finset N) (m' : List N) :
    (ns.filter (· ∉ m ++ m')).card ≤ (ns.filter (· ∉ m)).card := by
  refine Finset.card_le_card fun k hk => ?_
  rw [Finset.mem_filter] at hk ⊢
  exact ⟨hk.1, fun hkm => hk.2 (List.mem_append_left _ hkm)⟩

/-- **There is a walk when the targets in reach are among finitely many.** The induction is on
the number of those that have not been reached, and for each on the list of edges. Kind: P -/
theorem Walk.exists (ns : Finset N) {p : E → Prop} (hp : ∀ e, p e → target e ∈ ns)
    (hchild : ∀ e, p e → ∀ d ∈ children e, p d) (k : ℕ) :
    ∀ m es, (∀ e ∈ es, p e) → (ns.filter (· ∉ m)).card < k →
      ∃ v f, Walk children target m es v f := by
  induction k with
  | zero => exact fun _ _ _ hk => absurd hk (Nat.not_lt_zero _)
  | succ k ihk =>
      intro m es
      induction es generalizing m with
      | nil => exact fun _ _ => ⟨_, _, .nil m⟩
      | cons e es ih =>
          intro hes hk
          obtain ⟨he, hes⟩ := List.forall_mem_cons.mp hes
          by_cases hm : target e ∈ m
          · obtain ⟨v, f, hv⟩ := ih m hes hk
            exact ⟨_, _, .seen hm hv⟩
          have hless := card_unreached_lt (hp e he) hm
          obtain ⟨v₁, f₁, h₁⟩ := ihk (m ++ [target e]) (children e) (hchild e he) (by omega)
          have hmore := card_unreached_append_le (m := m ++ [target e]) ns (f₁.map target)
          obtain ⟨v₂, f₂, h₂⟩ := ih (m ++ [target e] ++ f₁.map target) hes (by omega)
          exact ⟨_, _, .first hm h₁ h₂⟩

end CxyCompiler.Lib.FirstVisit
