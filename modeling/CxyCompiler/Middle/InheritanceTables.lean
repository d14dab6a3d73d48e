import CxyCompiler.Middle.Inheritance

/-!
# When the virtual tables of a chain are right

* `slots_build_suffix` — the fields of a base's table come first, whatever the classes declare.
* `build_ok` — the table of a consistent chain has a field for every virtual function, and its value
  is the nearest implementation; the induction is on the chain.
* `dispatch_eq` — a call through a field reads the field of that name.
* `chainOk_iff` — **the tables of a chain are right exactly if the chain is consistent**.
-/

namespace CxyCompiler.Middle.Inheritance

open CxyCompiler.Core

section

variable {N S : Type} [LinearOrder N] {Q : Qsort N} {tid : N} {t : VTable N S} {f g : Func N S}
  {node : Class N S} {chain bases : List (Class N S)}

/-! ## Members -/

omit [LinearOrder N] in
theorem mem_functions {c : Class N S} : f ∈ c.functions ↔ .func f ∈ c.members := by
  unfold Class.functions
  rw [List.mem_filterMap]
  constructor
  · rintro ⟨m, hm, hf⟩
    cases m with
    | func g =>
        obtain rfl := Option.some.inj hf
        exact hm
    | field name => exact absurd hf (by simp [Member.func?])
  · exact fun h => ⟨_, h, rfl⟩

omit [LinearOrder N] in
theorem isVirtual_of_mem {c : Class N S} (hf : f ∈ c.functions) (hv : f.isVirtual = true) :
    c.isVirtual = true :=
  List.any_eq_true.mpr ⟨f, hf, hv⟩

/-- A member that is found is declared there. Kind: L -/
theorem find_func {name : N} (h : findMemberDeclInType Q node name = some (.func g)) :
    g ∈ node.functions ∧ g.name = name := by
  obtain ⟨hmem, hname⟩ := findByKey_eq_some h
  exact ⟨mem_functions.mpr hmem, hname⟩

/-- Where no member is found none is declared. Kind: L -/
theorem not_declares (h : findMemberDeclInType Q node f.name = none) : ¬ Declares node f := by
  rintro ⟨g, hg, hname, -⟩
  exact findByKey_eq_none h (mem_functions.mp hg) hname

omit [LinearOrder N] in
theorem Same.symm (h : Same g f) : Same f g := ⟨h.1.symm, h.2.symm⟩

omit [LinearOrder N] in
theorem Same.trans {e : Func N S} (h : Same g f) (h' : Same f e) : Same g e :=
  ⟨h.1.trans h'.1, h.2.trans h'.2⟩

omit [LinearOrder N] in
/-- What is reached depends on the name and the signature only. Kind: L -/
theorem Reaches.congr {v : Value N S} (h : Reaches chain f v) (hsame : Same f g) :
    Reaches chain g v := by
  obtain ⟨above, c, below, g', hchain, habove, hmem, hg', hv⟩ := h
  refine ⟨above, c, below, g', hchain, ?_, hmem, hg'.trans hsame, ?_⟩
  · rintro d hd ⟨e, he, hsame'⟩
    exact habove d hd ⟨e, he, hsame'.trans hsame.symm⟩
  · rcases hv with hv | ⟨hbody, hv | ⟨k, e, hv, he⟩⟩
    · exact .inl hv
    · exact .inr ⟨hbody, .inl hv⟩
    · exact .inr ⟨hbody, .inr ⟨k, e, hv, he.trans hsame⟩⟩

omit [LinearOrder N] in
/-- A class that does not declare the function changes nothing. Kind: L -/
theorem Reaches.cons {v : Value N S} (h : Reaches bases f v) (hnot : ¬ Declares node f) :
    Reaches (node :: bases) f v := by
  obtain ⟨above, c, below, g', rfl, habove, hrest⟩ := h
  refine ⟨node :: above, c, below, g', rfl, ?_, hrest⟩
  intro d hd
  rcases List.mem_cons.mp hd with rfl | hd
  · exact hnot
  · exact habove d hd

omit [LinearOrder N] in
/-- Where the nearest declaration has no body, any function of the signature may stand. Kind: L -/
theorem Reaches.hide {v : Value N S} (h : Reaches bases f v) (hg : g ∈ node.functions)
    (hsame : Same g f) (hbody : g.hasBody = false) : Reaches (node :: bases) f v := by
  obtain ⟨above, c, below, g', rfl, -, -, hg', hv⟩ := h
  refine ⟨[], node, _, g, rfl, by simp, hg, hsame, .inr ⟨hbody, ?_⟩⟩
  rcases hv with hv | ⟨-, hv⟩
  · exact .inr ⟨_, g', hv, hg'⟩
  · exact hv

omit [LinearOrder N] in
/-- The value is a function of the signature, if it is one at all. Kind: L -/
theorem Reaches.same_of_func {k : ℕ} (h : Reaches chain f (.func k g)) : Same g f := by
  obtain ⟨above, c, below, g', -, -, -, hg', hv | ⟨-, hv | ⟨k', e, hv, he⟩⟩⟩ := h
  · obtain ⟨-, rfl⟩ := Value.func.inj hv
    exact hg'
  · exact absurd hv (by simp)
  · obtain ⟨-, rfl⟩ := Value.func.inj hv
    exact he

/-! ## The fields of a table -/

@[simp] theorem slots_override (cls : ℕ) : slots (t.map (overrideSlot Q cls node)) = slots t := by
  unfold slots
  rw [List.map_map]
  apply List.map_congr_left
  intro s _
  simp only [Function.comp_apply, overrideSlot]
  split <;> rfl

@[simp] theorem slots_copy (cls : ℕ) : slots (t.map (copySlot Q cls node)) = slots t := by
  unfold slots
  rw [List.map_map]
  apply List.map_congr_left
  intro s _
  simp only [Function.comp_apply, copySlot]
  split <;> rfl

/-- The names of a table. -/
def names (t : VTable N S) : List N := (slots t).map Prod.fst

omit [LinearOrder N] in
theorem names_eq : names t = t.map (·.name) := by
  unfold names slots
  rw [List.map_map]
  rfl

theorem vTableMembersFind_eq_none
    {name : N} : vTableMembersFind t name = none ↔ name ∉ names t := by
  unfold vTableMembersFind
  rw [List.find?_eq_none, names_eq, List.mem_map]
  simp only [decide_eq_true_eq]
  constructor
  · rintro h ⟨s, hs, rfl⟩
    exact h s hs rfl
  · exact fun h s hs heq => h ⟨s, hs, heq⟩

/-- The entries that a class adds. -/
def newSlot (cls : ℕ) (f : Func N S) : Slot N S :=
  ⟨f.name, some f.signature, if f.hasBody then .func cls f else .null⟩

/-- **Every virtual function gets a field unless there is one of its name.** Kind: P -/
theorem insert_spec (cls : ℕ) (ms : List (Member N S)) : ∀ t : VTable N S, (names t).Nodup →
    ∃ new : VTable N S, ms.foldl (insertSlot cls) t = t ++ new ∧ (names (t ++ new)).Nodup ∧
      (∀ s ∈ new, ∃ f, .func f ∈ ms ∧ f.isVirtual = true ∧ s = newSlot cls f) ∧
      ∀ f, .func f ∈ ms → f.isVirtual = true → f.name ∈ names (t ++ new) := by
  induction ms with
  | nil =>
      intro t ht
      exact ⟨[], by simp, by simpa using ht, by simp, by simp⟩
  | cons m ms ih =>
      intro t ht
      have hkeep : insertSlot cls t m = t → (∀ f, m = .func f → f.isVirtual = true →
          f.name ∈ names t) → ∃ new : VTable N S, (m :: ms).foldl (insertSlot cls) t = t ++ new ∧
          (names (t ++ new)).Nodup ∧
          (∀ s ∈ new, ∃ f, .func f ∈ m :: ms ∧ f.isVirtual = true ∧ s = newSlot cls f) ∧
          ∀ f, .func f ∈ m :: ms → f.isVirtual = true → f.name ∈ names (t ++ new) := by
        intro heq hname
        obtain ⟨new, hfold, hnodup, hnew, hall⟩ := ih t ht
        refine ⟨new, by rw [List.foldl_cons, heq, hfold], hnodup, ?_, ?_⟩
        · intro s hs
          obtain ⟨f, hf, hrest⟩ := hnew s hs
          exact ⟨f, List.mem_cons_of_mem _ hf, hrest⟩
        · intro f hf hv
          rcases List.mem_cons.mp hf with rfl | hf
          · have := hname f rfl hv
            rw [names_eq] at this ⊢
            rw [List.map_append]
            exact List.mem_append_left _ this
          · exact hall f hf hv
      cases m with
      | field name => exact hkeep rfl (fun f hf => absurd hf (by simp))
      | func f =>
          by_cases hins : f.isVirtual = true ∧ vTableMembersFind t f.name = none
          · have heq : insertSlot cls t (.func f) = t ++ [newSlot cls f] := if_pos hins
            have hfresh := vTableMembersFind_eq_none.mp hins.2
            have ht' : (names (t ++ [newSlot cls f])).Nodup := by
              rw [names_eq] at ht hfresh ⊢
              rw [List.map_append, List.map_singleton, List.nodup_append]
              refine ⟨ht, List.nodup_singleton _, ?_⟩
              rintro n hn m hm rfl
              rw [List.mem_singleton] at hm
              rw [hm] at hn
              exact hfresh hn
            obtain ⟨new, hfold, hnodup, hnew, hall⟩ := ih _ ht'
            refine ⟨newSlot cls f :: new, ?_, ?_, ?_, ?_⟩
            · rw [List.foldl_cons, heq, hfold, List.append_assoc, List.singleton_append]
            · rw [List.append_assoc, List.singleton_append] at hnodup
              exact hnodup
            · intro s hs
              rcases List.mem_cons.mp hs with rfl | hs
              · exact ⟨f, List.mem_cons_self, hins.1, rfl⟩
              · obtain ⟨g, hg, hrest⟩ := hnew s hs
                exact ⟨g, List.mem_cons_of_mem _ hg, hrest⟩
            · intro g hg hv
              rw [List.append_assoc, List.singleton_append] at hall
              rcases List.mem_cons.mp hg with heq | hg
              · obtain rfl := Member.func.inj heq
                rw [names_eq, List.map_append, List.map_cons]
                exact List.mem_append_right _ List.mem_cons_self
              · exact hall g hg hv
          · refine hkeep (if_neg hins) ?_
            rintro g heq hv
            obtain rfl := Member.func.inj heq
            by_contra hname
            exact hins ⟨hv, vTableMembersFind_eq_none.mpr hname⟩

/-! ## The table of a class that declares virtual functions -/

/-- The table with the number of some class in its first field. -/
def build (Q : Qsort N) (tid : N) (chain : List (Class N S)) (v : Value N S) : VTable N S :=
  inheritanceChainBuildVTableType Q chain [⟨tid, none, v⟩]

/-- The table of the bases with the functions of a class in it. -/
def overridden (Q : Qsort N) (tid : N) (node : Class N S) (bases : List (Class N S))
    (v : Value N S) :
    VTable N S :=
  match bases with
  | [] => [⟨tid, none, v⟩]
  | _ :: _ => (build Q tid bases v).map (overrideSlot Q bases.length node)

/-- The table of a class, from that of its base. Kind: L -/
theorem build_cons (v : Value N S) : build Q tid (node :: bases) v =
    if node.isVirtual then
      node.members.foldl (insertSlot bases.length) (overridden Q tid node bases v)
    else overridden Q tid node bases v := by
  cases bases with
  | nil => rfl
  | cons base bases => rfl

@[simp] theorem slots_overridden (node : Class N S) (v : Value N S) :
    slots (overridden Q tid node bases v) = slots (build Q tid bases v) := by
  cases bases with
  | nil => rfl
  | cons base bases => exact slots_override _

/-- **A class keeps the fields of its bases and appends its own.** Kind: P -/
theorem build_spec (v : Value N S) :
    (names (build Q tid chain v)).Nodup ∧ (tid, none) ∈ slots (build Q tid chain v) := by
  induction chain with
  | nil => simp [build, inheritanceChainBuildVTableType, names, slots]
  | cons node bases ih =>
      obtain ⟨hnodup, hmem⟩ := ih
      have hnodup' : (names (overridden Q tid node bases v)).Nodup := by
        unfold names
        rw [slots_overridden]
        exact hnodup
      rw [build_cons]
      split_ifs with hvirtual
      · obtain ⟨new, hfold, hnew, -⟩ := insert_spec bases.length node.members _ hnodup'
        rw [hfold]
        refine ⟨hnew, ?_⟩
        unfold slots
        rw [List.map_append]
        apply List.mem_append_left
        rw [← slots_overridden node v] at hmem
        exact hmem
      · refine ⟨hnodup', ?_⟩
        rw [slots_overridden]
        exact hmem

theorem names_nodup (v : Value N S) : (names (build Q tid chain v)).Nodup := (build_spec v).1

variable (Q tid node bases) in
/-- What a class adds to the overridden table of its bases. Kind: L -/
theorem build_eq (v : Value N S) : ∃ new : VTable N S,
    build Q tid (node :: bases) v = overridden Q tid node bases v ++ new ∧
      (∀ s ∈ new, ∃ f ∈ node.functions, f.isVirtual = true ∧ s = newSlot bases.length f) ∧
      ∀ f ∈ node.functions, f.isVirtual = true →
        f.name ∈ names (build Q tid (node :: bases) v) := by
  rw [build_cons]
  split_ifs with hvirtual
  · have hnodup : (names (overridden Q tid node bases v)).Nodup := by
      unfold names
      rw [slots_overridden]
      exact names_nodup v
    obtain ⟨new, hfold, -, hnew, hall⟩ := insert_spec bases.length node.members _ hnodup
    rw [hfold]
    refine ⟨new, rfl, ?_, ?_⟩
    · intro s hs
      obtain ⟨f, hf, hrest⟩ := hnew s hs
      exact ⟨f, mem_functions.mpr hf, hrest⟩
    · exact fun f hf hv => hall f (mem_functions.mp hf) hv
  · refine ⟨[], by simp, by simp, ?_⟩
    intro f hf hv
    exact absurd (isVirtual_of_mem hf hv) hvirtual

/-- **The slots of the base come first.** Kind: L -/
theorem slots_build_cons (v : Value N S) :
    slots (build Q tid bases v) <+: slots (build Q tid (node :: bases) v) := by
  obtain ⟨new, hnew, -⟩ := build_eq Q tid node bases v
  rw [hnew]
  refine ⟨slots new, ?_⟩
  rw [← slots_overridden node v]
  exact (List.map_append ..).symm

/-- **The fields of a base's table come first.** Kind: P -/
theorem slots_build_suffix (v : Value N S) (above : List (Class N S)) :
    slots (build Q tid bases v) <+: slots (build Q tid (above ++ bases) v) := by
  induction above with
  | nil => exact List.prefix_rfl
  | cons node above ih => exact ih.trans (slots_build_cons v)

/-- The fields do not depend on their values. Kind: L -/
theorem insert_congr (cls : ℕ) (ms : List (Member N S)) : ∀ t t' : VTable N S, slots t = slots t' →
    slots (ms.foldl (insertSlot cls) t) = slots (ms.foldl (insertSlot cls) t') := by
  induction ms with
  | nil => exact fun t t' h => h
  | cons m ms ih =>
      intro t t' h
      apply ih
      cases m with
      | field name => exact h
      | func f =>
          have hnames : vTableMembersFind t f.name = none ↔ vTableMembersFind t' f.name = none := by
            rw [vTableMembersFind_eq_none, vTableMembersFind_eq_none, names, names, h]
          simp only [insertSlot, hnames]
          by_cases hins : f.isVirtual = true ∧ vTableMembersFind t' f.name = none
          · rw [if_pos hins, if_pos hins]
            unfold slots at h ⊢
            rw [List.map_append, List.map_append, h]
          · rw [if_neg hins, if_neg hins]
            exact h

/-- The slots do not depend on the value in the first. Kind: L -/
theorem slots_build_congr (v w : Value N S) : slots (build Q tid chain v) = slots
    (build Q tid chain w) := by
  induction chain with
  | nil => rfl
  | cons node bases ih =>
      have hover : slots (overridden Q tid node bases v) = slots
        (overridden Q tid node bases w) := by
        rw [slots_overridden, slots_overridden, ih]
      rw [build_cons, build_cons]
      split_ifs
      · exact insert_congr _ _ _ _ hover
      · exact hover

/-! ## The values of the fields -/

/-- A slot that is overridden reaches the function of the class. Kind: L -/
theorem override_reaches {s : Slot N S} (h : Reaches bases f s.value) (hname : s.name = f.name)
    (hover : Overrides Q node f) :
    Reaches (node :: bases) f (overrideSlot Q bases.length node s).value := by
  unfold Overrides at hover
  unfold overrideSlot
  rw [hname]
  cases hfind : findMemberDeclInType Q node f.name with
  | none => exact h.cons (not_declares hfind)
  | some m =>
      rw [hfind] at hover
      cases m with
      | func g =>
          obtain ⟨hg, hgname⟩ := find_func hfind
          exact ⟨[], node, bases, g, rfl, by simp, hg, ⟨hgname, hover⟩, .inl rfl⟩
      | field name =>
          by_cases hdecl : Declares node f
          · obtain ⟨g, hg, hsame, hbody⟩ := hover.2 hdecl
            exact h.hide hg hsame hbody
          · exact h.cons hdecl

omit [LinearOrder N] in
theorem hasBody_of_not_virtual {c : Class N S} (hc : c.isVirtual = false) (hf : f ∈ c.functions) :
    f.hasBody = true := by
  rcases f.abstract_virtual with hbody | hvirtual
  · exact hbody
  · rw [isVirtual_of_mem hf hvirtual] at hc
    exact absurd hc (by simp)

/-- A slot that is copied reaches the function of the class. Kind: L -/
theorem copy_reaches {s : Slot N S} (h : Reaches bases f s.value) (hname : s.name = f.name)
    (hover : Overrides Q node f) (hvirtual : node.isVirtual = false) :
    Reaches (node :: bases) f (copySlot Q bases.length node s).value := by
  unfold Overrides at hover
  unfold copySlot
  rw [hname]
  cases hfind : findMemberDeclInType Q node f.name with
  | none => exact h.cons (not_declares hfind)
  | some m =>
      rw [hfind] at hover
      cases m with
      | func g =>
          obtain ⟨hg, hgname⟩ := find_func hfind
          dsimp only
          rw [if_pos (hasBody_of_not_virtual hvirtual hg)]
          exact ⟨[], node, bases, g, rfl, by simp, hg, ⟨hgname, hover⟩, .inl rfl⟩
      | field name => exact absurd hover.1 (by simp [hvirtual])

/-- **A table has a field for every virtual function of the chain, which reaches its nearest
implementation**, and no others but `__tid`. -/
structure TableOk (tid : N) (chain : List (Class N S)) (t : VTable N S) : Prop where
  has : ∀ c ∈ chain, ∀ f ∈ c.functions, f.isVirtual = true →
    ∃ s ∈ t, s.name = f.name ∧ s.type = some f.signature ∧ Reaches chain f s.value
  origin : ∀ s ∈ t, s.name = tid ∨ ∃ c ∈ chain, ∃ f ∈ c.functions, f.isVirtual = true ∧
    s.name = f.name

/-- The functions of the bases after the functions of a class have replaced them. Kind: L -/
theorem overridden_ok {v : Value N S} (h : TableOk tid bases (build Q tid bases v))
    (hover : ∀ c ∈ bases, ∀ f ∈ c.functions, f.isVirtual = true → Overrides Q node f) :
    (∀ c ∈ bases, ∀ f ∈ c.functions, f.isVirtual = true →
      ∃ s ∈ overridden Q tid node bases v, s.name = f.name ∧ s.type = some f.signature ∧
        Reaches (node :: bases) f s.value) ∧
    ∀ s ∈ overridden Q tid node bases v, s.name = tid ∨ ∃ c ∈ bases, ∃ f ∈ c.functions,
      f.isVirtual = true ∧ s.name = f.name := by
  have hkeep : ∀ s : Slot N S, (overrideSlot Q bases.length node s).name = s.name ∧
      (overrideSlot Q bases.length node s).type = s.type := by
    intro s
    unfold overrideSlot
    split <;> exact ⟨rfl, rfl⟩
  cases bases with
  | nil => exact ⟨by simp, by simp [overridden]⟩
  | cons base bases =>
      constructor
      · intro c hc f hf hv
        obtain ⟨s, hs, hname, htype, hreach⟩ := h.has c hc f hf hv
        refine ⟨_, List.mem_map_of_mem hs, ?_, ?_, ?_⟩
        · rw [(hkeep s).1, hname]
        · rw [(hkeep s).2, htype]
        · exact override_reaches hreach hname (hover c hc f hf hv)
      · intro s hs
        obtain ⟨s₀, hs₀, rfl⟩ := List.mem_map.mp hs
        rw [(hkeep s₀).1]
        exact h.origin s₀ hs₀

/-- **The table of a consistent chain.** Kind: P -/
theorem build_ok (h : Consistent Q tid chain) (v : Value N S) :
    TableOk tid chain (build Q tid chain v) := by
  induction chain with
  | nil => exact ⟨by simp, by simp [build, inheritanceChainBuildVTableType]⟩
  | cons node bases ih =>
      obtain ⟨-, hnames, hover, hbases⟩ := h
      obtain ⟨hold, horigin⟩ := overridden_ok (ih hbases) hover
      obtain ⟨new, hbuild, hnew, hall⟩ := build_eq Q tid node bases v
      rw [hbuild] at hall ⊢
      constructor
      · intro c hc f hf hv
        rcases List.mem_cons.mp hc with rfl | hc
        · -- the field of that name is one of the bases or a new one
          have hname := hall f hf hv
          rw [names_eq, List.mem_map] at hname
          obtain ⟨s, hs, hname⟩ := hname
          obtain ⟨htid, hsig⟩ := hnames f hf hv
          rcases List.mem_append.mp hs with hs | hs
          · rcases horigin s hs with heq | ⟨d, hd, g, hg, hgv, heq⟩
            · exact absurd (hname.symm.trans heq) htid
            · obtain ⟨s', hs', hname', htype', hreach⟩ := hold d hd g hg hgv
              have hgf : Same g f := ⟨heq.symm.trans hname,
                hsig d (List.mem_cons_of_mem _ hd) g hg hgv (heq.symm.trans hname)⟩
              exact ⟨s', List.mem_append_left _ hs', hname'.trans hgf.1, by rw [htype', hgf.2],
                hreach.congr hgf⟩
          · obtain ⟨g, hg, hgv, rfl⟩ := hnew s hs
            have hgf : Same g f := ⟨hname, hsig c List.mem_cons_self g hg hgv hname⟩
            refine ⟨_, List.mem_append_right _ hs, hname, by rw [newSlot, hgf.2], ?_⟩
            refine ⟨[], c, bases, g, rfl, by simp, hg, hgf, ?_⟩
            cases hbody : g.hasBody with
            | true => exact .inl (by simp [newSlot, hbody])
            | false => exact .inr ⟨rfl, .inl (by simp [newSlot, hbody])⟩
        · obtain ⟨s, hs, hrest⟩ := hold c hc f hf hv
          exact ⟨s, List.mem_append_left _ hs, hrest⟩
      · intro s hs
        rcases List.mem_append.mp hs with hs | hs
        · rcases horigin s hs with heq | ⟨d, hd, hrest⟩
          · exact .inl heq
          · exact .inr ⟨d, List.mem_cons_of_mem _ hd, hrest⟩
        · obtain ⟨g, hg, hgv, rfl⟩ := hnew s hs
          exact .inr ⟨node, List.mem_cons_self, g, hg, hgv, rfl⟩

/-! ## The tables of classes -/

omit [LinearOrder N] in
/-- Names tell the slots apart. Kind: L -/
theorem slot_unique (h : (names t).Nodup) {s s' : Slot N S} (hs : s ∈ t) (hs' : s' ∈ t)
    (hname : s.name = s'.name) : s = s' := by
  rw [names_eq] at h
  exact List.inj_on_of_nodup_map h hs hs' hname

variable (Q tid node bases) in
/-- The copy of a base's table has its fields. Kind: L -/
theorem copy_eq (v : Value N S) : ∃ fields : VTable N S,
    (∃ s : Slot N S, inheritanceBuildVTableType Q tid bases = s :: fields ∧ s.name = tid ∧
      s.type = none) ∧
    inheritanceBuildVTable Q tid node bases =
      ⟨tid, none, .tid bases.length⟩ :: fields.map (copySlot Q bases.length node) ∧
    slots (inheritanceBuildVTable Q tid node bases) = slots (build Q tid bases v) := by
  have hpre : [(tid, none)] <+: slots (inheritanceBuildVTableType Q tid bases) := by
    have hsuffix : slots (build Q tid [] (.tid (bases.length - 1))) <+:
        slots (build Q tid (bases ++ []) (.tid (bases.length - 1))) := slots_build_suffix _ bases
    rw [List.append_nil] at hsuffix
    exact hsuffix
  cases hbuild : inheritanceBuildVTableType Q tid bases with
  | nil =>
      rw [hbuild] at hpre
      exact absurd hpre (by simp [slots])
  | cons s fields =>
      rw [hbuild] at hpre
      have hhead : (tid, none) = (s.name, s.type) := by
        rw [slots, List.map_cons, List.cons_prefix_cons] at hpre
        exact hpre.1
      obtain ⟨hname, htype⟩ := Prod.mk.inj hhead
      have hcopy : inheritanceBuildVTable Q tid node bases =
          ⟨tid, none, .tid bases.length⟩ :: fields.map (copySlot Q bases.length node) := by
        rw [inheritanceBuildVTable, hbuild]
      refine ⟨fields, ⟨s, rfl, hname.symm, htype.symm⟩, hcopy, ?_⟩
      have hslots : slots (build Q tid bases v) = slots (s :: fields) := by
        rw [← hbuild]
        exact slots_build_congr _ _
      rw [hcopy, hslots]
      show (tid, none) :: slots (fields.map _) = (s.name, s.type) :: slots fields
      rw [slots_copy, hhead]

/-- A virtual class has a table of its own. Kind: L -/
theorem vTable_of_virtual (h : node.isVirtual = true) :
    vTable Q tid (node :: bases) = some (build Q tid (node :: bases) (.tid bases.length)) := by
  cases bases <;> simp [vTable, h, build, inheritanceBuildVTableType]

/-- A class under a virtual base has a copy of the table of the base. Kind: L -/
theorem vTable_of_base {base : Class N S} (h : node.isVirtual = false) (hbase : base ∈ bases.head?)
    (hvirtual : base.isVirtual = true) :
    vTable Q tid (node :: bases) = some (inheritanceBuildVTable Q tid node bases) := by
  cases bases with
  | nil => simp at hbase
  | cons b bs =>
      obtain rfl := Option.some.inj hbase
      simp [vTable, h, hvirtual]

/-- A class without virtual functions has no table. Kind: L -/
theorem vTable_of_neither (h : node.isVirtual = false)
    (hbase : ∀ base ∈ bases.head?, base.isVirtual = false) :
      vTable Q tid (node :: bases) = none := by
  cases bases with
  | nil => simp [vTable, h]
  | cons b bs => simp [vTable, h, hbase b rfl]

/-- **Both kinds of table have the fields that the chain calls for.** Kind: P -/
theorem slots_vTable (h : vTable Q tid chain = some t) (v : Value N S) :
    slots t = slots (build Q tid chain v) := by
  cases chain with
  | nil => simp [vTable] at h
  | cons node bases =>
      cases hnode : node.isVirtual with
      | true =>
          rw [vTable_of_virtual hnode] at h
          obtain rfl := Option.some.inj h
          exact slots_build_congr _ _
      | false =>
          by_cases hbase : ∃ base ∈ bases.head?, base.isVirtual = true
          · obtain ⟨base, hmem, hvirtual⟩ := hbase
            rw [vTable_of_base hnode hmem hvirtual] at h
            obtain rfl := Option.some.inj h
            obtain ⟨fields, -, -, hslots⟩ := copy_eq Q tid node bases v
            rw [hslots, build_cons, hnode, if_neg Bool.false_ne_true, slots_overridden]
          · rw [vTable_of_neither hnode fun base hmem => by
              simpa using fun hv => hbase ⟨base, hmem, hv⟩]
              at h
            exact absurd h (by simp)

theorem nodup_vTable (h : vTable Q tid chain = some t) : (names t).Nodup := by
  rw [names, slots_vTable h .null]
  exact names_nodup _

/-- The table of a class begins with that of any base. Kind: L -/
theorem prefix_vTable {above : List (Class N S)} {t' : VTable N S} (h : vTable Q tid bases = some t)
    (h' : vTable Q tid (above ++ bases) = some t') : slots t <+: slots t' := by
  rw [slots_vTable h .null, slots_vTable h' .null]
  exact slots_build_suffix _ above

/-- **A call reads the field of its name in the table of the object.** Kind: P -/
theorem dispatch_eq {above : List (Class N S)} {t' : VTable N S} {name : N}
    (h : vTable Q tid bases = some t) (h' : vTable Q tid (above ++ bases) = some t')
    (hname : name ∈ names t) {s : Slot N S} (hs : s ∈ t') (hsname : s.name = name) :
    virtualDispatch Q tid bases (above ++ bases) name = some s.value := by
  have hpre := prefix_vTable h h'
  rw [names_eq, List.mem_map] at hname
  obtain ⟨s₀, hs₀, rfl⟩ := hname
  unfold virtualDispatch
  rw [h, h']
  simp only [Option.bind_eq_bind, Option.bind_some]
  cases hfind : findByKey Q (fun s => s.1.name) t.zipIdx s₀.name with
  | none =>
      obtain ⟨i, hi⟩ := List.getElem?_of_mem hs₀
      have hmem : (s₀, i) ∈ t.zipIdx := List.mem_zipIdx_iff_getElem?.mpr hi
      exact absurd rfl (findByKey_eq_none hfind hmem)
  | some field =>
      obtain ⟨hmem, hkey⟩ := findByKey_eq_some hfind
      have hget : t[field.2]? = some field.1 := List.mem_zipIdx_iff_getElem?.mp hmem
      -- the same field of the longer table
      obtain ⟨rest, hrest⟩ := hpre
      have hslot : (slots t')[field.2]? = some (field.1.name, field.1.type) := by
        have hlt : field.2 < (slots t).length := by
          rw [slots, List.length_map]
          exact (List.getElem?_eq_some_iff.mp hget).1
        rw [← hrest, List.getElem?_append_left hlt, slots, List.getElem?_map, hget]
        rfl
      rw [slots, List.getElem?_map, Option.map_eq_some_iff] at hslot
      obtain ⟨s', hs', heq⟩ := hslot
      have hss : s' = s := by
        apply slot_unique (nodup_vTable h') (List.mem_of_getElem? hs') hs
        rw [hsname, ← hkey]
        exact congrArg Prod.fst heq
      rw [Option.bind_some, hs', hss, Option.bind_some]

/-! ## Consistent chains -/

/-- A chain is consistent from any base on. Kind: L -/
theorem Consistent.suffix {above : List (Class N S)} (h : Consistent Q tid (above ++ bases)) :
    Consistent Q tid bases := by
  induction above with
  | nil => exact h
  | cons node above ih => exact ih h.2.2.2

/-- No virtual function has the name of the first slot. Kind: L -/
theorem Consistent.name_ne (h : Consistent Q tid chain) {c : Class N S} (hc : c ∈ chain)
    (hf : f ∈ c.functions) (hv : f.isVirtual = true) : f.name ≠ tid := by
  obtain ⟨above, below, rfl⟩ := List.append_of_mem hc
  exact (h.suffix.2.1 f hf hv).1

/-- A chain with a virtual function has a table. Kind: L -/
theorem Consistent.vTable_isSome (h : Consistent Q tid (node :: bases)) {c : Class N S}
    (hc : c ∈ node :: bases) (hv : c.isVirtual = true) : ∃ t,
      vTable Q tid (node :: bases) = some t := by
  cases hnode : node.isVirtual with
  | true => exact ⟨_, vTable_of_virtual hnode⟩
  | false =>
      rcases h.1 with htrue | ⟨base, hbase, hvirtual⟩ | hnone
      · exact absurd htrue (by simp [hnode])
      · exact ⟨_, vTable_of_base hnode hbase hvirtual⟩
      · exact absurd (hnone c hc) (by simp [hv])

/-- **The table of a consistent chain reaches the nearest implementations.** Kind: P -/
theorem vTable_ok (h : Consistent Q tid chain) (ht : vTable Q tid chain = some t) {c : Class N S}
    (hc : c ∈ chain) (hf : f ∈ c.functions) (hv : f.isVirtual = true) :
    ∃ s ∈ t, s.name = f.name ∧ s.type = some f.signature ∧ Reaches chain f s.value := by
  cases chain with
  | nil => simp at hc
  | cons node bases =>
      cases hnode : node.isVirtual with
      | true =>
          rw [vTable_of_virtual hnode] at ht
          obtain rfl := Option.some.inj ht
          exact (build_ok h _).has c hc f hf hv
      | false =>
          have hcb : c ∈ bases := by
            rcases List.mem_cons.mp hc with rfl | hc
            · exact absurd (isVirtual_of_mem hf hv) (by simp [hnode])
            · exact hc
          rcases h.1 with htrue | ⟨base, hbase, hvirtual⟩ | hnone
          · exact absurd htrue (by simp [hnode])
          · rw [vTable_of_base hnode hbase hvirtual] at ht
            obtain rfl := Option.some.inj ht
            obtain ⟨fields, ⟨head, hbuild, hhead, -⟩, hcopy, -⟩ :=
              copy_eq Q tid node bases .null
            obtain ⟨s, hs, hname, htype, hreach⟩ := (build_ok h.2.2.2 _).has c hcb f hf hv
            rw [build, ← inheritanceBuildVTableType, hbuild] at hs
            have hfield : s ∈ fields := by
              rcases List.mem_cons.mp hs with rfl | hs
              · exact absurd (hname.symm.trans hhead) (h.name_ne hc hf hv)
              · exact hs
            rw [hcopy]
            refine ⟨_, List.mem_cons_of_mem _ (List.mem_map_of_mem hfield), ?_, ?_, ?_⟩
            · rw [← hname, copySlot]
              split <;> rfl
            · rw [← htype, copySlot]
              split <;> rfl
            · exact copy_reaches hreach hname (h.2.2.1 c hcb f hf hv) hnode
          · exact absurd (hnone c hc) (by simp [isVirtual_of_mem hf hv])

theorem classOk_of_consistent (h : Consistent Q tid chain) : ClassOk Q tid chain := by
  constructor
  · rintro node bases rfl
    cases hbases : vTable Q tid bases with
    | none => exact List.nil_prefix
    | some t =>
        -- a base with a table has virtual functions at or above it
        obtain ⟨c, hc, hv⟩ : ∃ c ∈ node :: bases, c.isVirtual = true := by
          by_contra hnone
          push Not at hnone
          cases bases with
          | nil => simp [vTable] at hbases
          | cons base bases =>
              rw [vTable_of_neither] at hbases
              · exact absurd hbases (by simp)
              · simpa using hnone base (by simp)
              · intro b hb
                simpa using hnone b (by simp [List.mem_of_mem_head? hb])
        obtain ⟨t', ht'⟩ := h.vTable_isSome hc hv
        rw [ht']
        exact prefix_vTable hbases (show vTable Q tid ([node] ++ bases) = some t' from ht')
  · intro c hc f hf hv
    cases chain with
    | nil => simp at hc
    | cons node bases =>
        obtain ⟨t, ht⟩ := h.vTable_isSome hc (isVirtual_of_mem hf hv)
        obtain ⟨s, hs, hname, htype, -⟩ := vTable_ok h ht hc hf hv
        rw [ht, Option.getD_some, slots, List.mem_map]
        exact ⟨s, hs, by rw [hname, htype]⟩
  · rintro above c below rfl hvirtual d hd f hf hv
    have hne : ∃ node bases, above ++ c :: below = node :: bases := by
      cases above <;> exact ⟨_, _, rfl⟩
    obtain ⟨node, bases, heq⟩ := hne
    obtain ⟨t', ht'⟩ : ∃ t', vTable Q tid (above ++ c :: below) = some t' := by
      rw [heq] at h ⊢
      exact h.vTable_isSome (heq ▸ List.mem_append_right _ List.mem_cons_self) hvirtual
    have hmem : d ∈ above ++ c :: below := List.mem_append_right _ hd
    obtain ⟨s, hs, hname, -, hreach⟩ := vTable_ok h ht' hmem hf hv
    refine ⟨s.value, ?_, hreach⟩
    have ht : vTable Q tid (c :: below) = _ := vTable_of_virtual hvirtual
    obtain ⟨s₀, hs₀, hname₀, -⟩ := vTable_ok h.suffix ht hd hf hv
    apply dispatch_eq ht ht' _ hs hname
    rw [names_eq, ← hname₀]
    exact List.mem_map_of_mem hs₀

/-! ## Chains whose tables are right -/

/-- The functions of a table are those of the classes of the chain. Kind: L -/
theorem value_lt {i : ℕ} : ∀ {s : Slot N S}, s ∈ build Q tid chain (.tid i) →
    ∀ {k : ℕ} {g : Func N S}, s.value = .func k g → k < chain.length := by
  induction chain with
  | nil =>
      intro s hs k g hval
      rw [List.mem_singleton.mp hs] at hval
      exact absurd hval (by simp)
  | cons node bases ih =>
      intro s hs k g hval
      obtain ⟨new, hbuild, hnew, -⟩ := build_eq Q tid node bases (.tid i)
      rw [List.length_cons]
      rcases List.mem_append.mp (hbuild ▸ hs) with hs | hs
      · cases bases with
        | nil =>
            rw [List.mem_singleton.mp hs] at hval
            exact absurd hval (by simp)
        | cons base bases =>
            obtain ⟨s₀, hs₀, rfl⟩ := List.mem_map.mp hs
            unfold overrideSlot at hval
            split at hval
            · obtain ⟨rfl, -⟩ := Value.func.inj hval
              exact Nat.lt_succ_self _
            · exact Nat.lt_succ_of_lt (ih hs₀ hval)
      · obtain ⟨f, -, -, rfl⟩ := hnew s hs
        unfold newSlot at hval
        dsimp only at hval
        split_ifs at hval
        obtain ⟨rfl, -⟩ := Value.func.inj hval
        exact Nat.lt_succ_self _

omit [LinearOrder N] in
/-- A function that the class declares is not reached in its bases. Kind: L -/
theorem Reaches.of_declares {v : Value N S} (h : Reaches (node :: bases) f v)
    (hdecl : Declares node f) :
    ∃ g ∈ node.functions, Same g f ∧ (v = .func bases.length g ∨ g.hasBody = false) := by
  obtain ⟨above, c, below, g, hchain, habove, hg, hsame, hv⟩ := h
  cases above with
  | cons d above =>
      obtain ⟨rfl, -⟩ := List.cons.inj hchain
      exact absurd hdecl (habove _ List.mem_cons_self)
  | nil =>
      obtain ⟨rfl, rfl⟩ := List.cons.inj hchain
      refine ⟨g, hg, hsame, ?_⟩
      rcases hv with hv | ⟨hbody, -⟩
      · exact .inl hv
      · exact .inr hbody

omit [LinearOrder N] in
theorem not_reaches_field : ¬ Reaches chain f .field := by
  rintro ⟨above, c, below, g, -, -, -, -, hv | ⟨-, hv | ⟨k, e, hv, -⟩⟩⟩
    <;> exact absurd hv (by simp)

/-- The member that a class finds under the name, read off its own table. Kind: L -/
theorem overrides_of_built (hvirtual : node.isVirtual = true) {i : ℕ} {s : Slot N S}
    (hs : s ∈ build Q tid (node :: bases) (.tid i)) (hname : s.name = f.name)
    (hreach : Reaches (node :: bases) f s.value) (htid : f.name ≠ tid)
    (hold : f.name ∈ names (build Q tid bases (.tid i))) : Overrides Q node f := by
  obtain ⟨s₀, hs₀, rfl⟩ : ∃ s₀ ∈ build Q tid bases (.tid i),
      overrideSlot Q bases.length node s₀ = s := by
    obtain ⟨new, hbuild, -⟩ := build_eq Q tid node bases (.tid i)
    have hin : f.name ∈ names (overridden Q tid node bases (.tid i)) := by
      rw [names, slots_overridden]
      exact hold
    rw [names_eq, List.mem_map] at hin
    obtain ⟨s₁, hs₁, hname₁⟩ := hin
    have heq : s₁ = s := by
      apply slot_unique (names_nodup (.tid i)) _ hs (hname₁.trans hname.symm)
      rw [hbuild]
      exact List.mem_append_left _ hs₁
    rw [← heq]
    cases bases with
    | nil =>
        rw [List.mem_singleton.mp hs₁] at hname₁
        exact absurd hname₁.symm htid
    | cons base bases => exact List.mem_map.mp hs₁
  have hname₀ : s₀.name = f.name := by
    rw [← hname, overrideSlot]
    split <;> rfl
  unfold overrideSlot at hreach
  unfold Overrides
  rw [hname₀] at hreach
  cases hfind : findMemberDeclInType Q node f.name with
  | none => trivial
  | some m =>
      rw [hfind] at hreach
      cases m with
      | func g => exact hreach.same_of_func.2
      | field name =>
          refine ⟨hvirtual, fun hdecl => ?_⟩
          obtain ⟨g, hg, hsame, hval | hbody⟩ := hreach.of_declares hdecl
          · exact absurd (value_lt hs₀ hval) (lt_irrefl _)
          · exact ⟨g, hg, hsame, hbody⟩

/-- The member that a class finds under the name, read off the copy of its base's table. Kind: L -/
theorem overrides_of_copied (hvirtual : node.isVirtual = false) {s : Slot N S}
    (hs : s ∈ inheritanceBuildVTable Q tid node bases) (hname : s.name = f.name)
    (hreach : Reaches (node :: bases) f s.value) (htid : f.name ≠ tid) : Overrides Q node f := by
  obtain ⟨fields, -, hcopy, -⟩ := copy_eq Q tid node bases .null
  rw [hcopy] at hs
  rcases List.mem_cons.mp hs with rfl | hs
  · exact absurd hname.symm htid
  · obtain ⟨s₀, -, rfl⟩ := List.mem_map.mp hs
    have hname₀ : s₀.name = f.name := by
      rw [← hname, copySlot]
      split <;> rfl
    unfold copySlot at hreach
    unfold Overrides
    rw [hname₀] at hreach
    cases hfind : findMemberDeclInType Q node f.name with
    | none => trivial
    | some m =>
        rw [hfind] at hreach
        cases m with
        | func g =>
            dsimp only at hreach
            rw [if_pos (hasBody_of_not_virtual hvirtual (find_func hfind).1)] at hreach
            exact hreach.same_of_func.2
        | field name => exact absurd hreach not_reaches_field

/-- Every virtual function of the chain has its slot. Kind: L -/
theorem has_name (h : ClassOk Q tid chain) (ht : vTable Q tid chain = some t) {c : Class N S}
    (hc : c ∈ chain) (hf : f ∈ c.functions) (hv : f.isVirtual = true) :
    ∃ s ∈ t, s.name = f.name ∧ s.type = some f.signature := by
  have hslot := h.has_slot c hc f hf hv
  rw [ht, Option.getD_some, slots, List.mem_map] at hslot
  obtain ⟨s, hs, heq⟩ := hslot
  exact ⟨s, hs, congrArg Prod.fst heq, congrArg Prod.snd heq⟩

/-- A class with virtual functions above it has a table of its own or of its base. Kind: L -/
theorem not_skipped (h : ClassOk Q tid (node :: bases)) : node.isVirtual = true ∨
    (∃ base ∈ bases.head?, base.isVirtual = true) ∨ ∀ c ∈ node :: bases, c.isVirtual = false := by
  by_contra hno
  push Not at hno
  obtain ⟨hnode, hbase, c, hc, hv⟩ := hno
  have hnone : vTable Q tid (node :: bases) = none := by
    apply vTable_of_neither (by simpa using hnode)
    exact fun base hmem => by simpa using hbase base hmem
  obtain ⟨f, hf, hfv⟩ := List.any_eq_true.mp (by simpa using hv : c.isVirtual = true)
  have hslot := h.has_slot c hc f hf hfv
  rw [hnone] at hslot
  simp [slots] at hslot

/-- A virtual function has the field of its name to itself. Kind: L -/
theorem names_apart (h : ClassOk Q tid (node :: bases)) (hf : f ∈ node.functions)
    (hv : f.isVirtual = true) : f.name ≠ tid ∧ ∀ c ∈ node :: bases, ∀ g ∈ c.functions,
      g.isVirtual = true → g.name = f.name → g.signature = f.signature := by
  have ht : vTable Q tid (node :: bases) = _ := vTable_of_virtual (isVirtual_of_mem hf hv)
  obtain ⟨s, hs, hname, htype⟩ := has_name h ht List.mem_cons_self hf hv
  constructor
  · -- the field of that name has no function type
    intro htid
    obtain ⟨-, hmem⟩ : _ ∧ (tid, none) ∈ slots (build Q tid (node :: bases) (.tid bases.length)) :=
      build_spec _
    rw [slots, List.mem_map] at hmem
    obtain ⟨s', hs', heq⟩ := hmem
    have hss : s' = s := by
      apply slot_unique (nodup_vTable ht) hs' hs
      rw [hname, htid]
      exact congrArg Prod.fst heq
    rw [← hss] at htype
    exact absurd ((congrArg Prod.snd heq).symm.trans htype) (by simp)
  · intro c hc g hg hgv hgname
    obtain ⟨s', hs', hname', htype'⟩ := has_name h ht hc hg hgv
    have hss : s' = s := slot_unique (nodup_vTable ht) hs' hs (by rw [hname', hname, hgname])
    rw [hss, htype] at htype'
    exact (Option.some.inj htype').symm

/-- What a class declares under the name of a virtual function of its bases. Kind: L -/
theorem overrides_of_chainOk (h : ChainOk Q tid (node :: bases)) (htid : f.name ≠ tid)
    {c : Class N S}
    (hc : c ∈ bases) (hf : f ∈ c.functions) (hv : f.isVirtual = true) : Overrides Q node f := by
  obtain ⟨above, below, rfl⟩ := List.append_of_mem hc
  have hclass := h [] _ rfl
  have hcv := isVirtual_of_mem hf hv
  have hmem : c ∈ node :: (above ++ c :: below) := List.mem_cons_of_mem _ hc
  obtain ⟨v, hcall, hreach⟩ := hclass.dispatches (node :: above) c below rfl hcv c
    List.mem_cons_self f hf hv
  -- the field that the call reads
  have hstatic : vTable Q tid (c :: below) = _ := vTable_of_virtual hcv
  obtain ⟨s₀, hs₀, hname₀, -⟩ := has_name (h (node :: above) (c :: below) rfl) hstatic
    List.mem_cons_self hf hv
  have hin : f.name ∈ names (build Q tid (c :: below) (.tid below.length)) := by
    rw [names_eq, ← hname₀]
    exact List.mem_map_of_mem hs₀
  obtain ⟨t, ht⟩ : ∃ t, vTable Q tid ((node :: above) ++ c :: below) = some t := by
    rw [← Option.ne_none_iff_exists']
    intro hnone
    have hslot := hclass.has_slot c hmem f hf hv
    rw [show vTable Q tid (node :: (above ++ c :: below)) = none from hnone] at hslot
    simp [slots] at hslot
  obtain ⟨s, hs, hname, -⟩ := has_name hclass ht hmem hf hv
  have hval : s.value = v :=
    Option.some.inj ((dispatch_eq hstatic ht hin hs hname).symm.trans hcall)
  rw [← hval] at hreach
  rw [List.cons_append] at ht
  cases hnode : node.isVirtual with
  | true =>
      rw [vTable_of_virtual hnode] at ht
      obtain rfl := Option.some.inj ht
      apply overrides_of_built hnode hs hname hreach htid
      rw [names, slots_build_congr _ (.tid (above ++ c :: below).length)] at hin
      exact List.map_subset _ (slots_build_suffix _ above).subset hin
  | false =>
      rcases not_skipped hclass with htrue | ⟨base, hbmem, hbv⟩ | hnone
      · exact absurd htrue (by simp [hnode])
      · rw [vTable_of_base hnode hbmem hbv] at ht
        obtain rfl := Option.some.inj ht
        exact overrides_of_copied hnode hs hname hreach htid
      · exact absurd (hnone c hmem) (by simp [hcv])

/-- **Right tables come from consistent chains.** Kind: P -/
theorem consistent_of_chainOk (h : ChainOk Q tid chain) : Consistent Q tid chain := by
  induction chain with
  | nil => trivial
  | cons node bases ih =>
      have hclass := h [] (node :: bases) rfl
      have hcons : Consistent Q tid bases := by
        apply ih
        rintro above below rfl
        exact h (node :: above) below rfl
      refine ⟨not_skipped hclass, fun f hf hv => names_apart hclass hf hv, ?_, hcons⟩
      intro c hc f hf hv
      exact overrides_of_chainOk h (hcons.name_ne hc hf hv) hc hf hv

/-- **The virtual tables of an inheritance chain are right exactly if the chain is consistent.**
Right are: the fields of a base's table come first, every virtual function has a field, and a call
through it reaches the nearest implementation and no function of another signature. Source:
`inheritance.c`, `class.c` `checkClassDecl`, `simplify.c` `virtualDispatch`. Kind: P -/
theorem chainOk_iff (Q : Qsort N) (tid : N) (chain : List (Class N S)) :
    ChainOk Q tid chain ↔ Consistent Q tid chain := by
  constructor
  · exact consistent_of_chainOk
  · rintro h above below rfl
    exact classOk_of_consistent h.suffix

end

/-- Two virtual functions of one name. -/
def overloaded : Class ℕ ℕ := ⟨[.func ⟨1, 1, true, true, .inl rfl⟩,
    .func ⟨1, 2, true, true, .inl rfl⟩]⟩

/-- A class with a virtual function, one that overrides it, and one below that. -/
def skippedLevel : List (Class ℕ ℕ) :=
  [⟨[]⟩, ⟨[.func ⟨1, 1, false, true, .inl rfl⟩]⟩, ⟨[.func ⟨1, 1, true, true, .inl rfl⟩]⟩]

/-- The second overload has no field, and a call of it reaches the first. A class below one that
only overrides has no table at all. Kind: P -/
theorem tables_wrong :
    (¬ ChainOk (insertionQsort ℕ) 0 [overloaded] ∧
      virtualDispatch (insertionQsort ℕ) 0 [overloaded] [overloaded] 1 =
        some (.func 0 ⟨1, 1, true, true, .inl rfl⟩)) ∧
    ¬ ChainOk (insertionQsort ℕ) 0 skippedLevel ∧
      vTable (insertionQsort ℕ) 0 skippedLevel = none := by
  have hnone : vTable (insertionQsort ℕ) 0 skippedLevel = none := rfl
  refine ⟨⟨?_, by decide⟩, ?_, hnone⟩
  · intro h
    have hslot := (h [] _ rfl).has_slot overloaded (by simp) ⟨1, 2, true, true, .inl rfl⟩
      (by decide) rfl
    exact absurd hslot (by decide)
  · intro h
    have hslot := (h [] skippedLevel rfl).has_slot ⟨[.func ⟨1, 1, true, true, .inl rfl⟩]⟩
      (by simp [skippedLevel]) ⟨1, 1, true, true, .inl rfl⟩ (by decide) rfl
    rw [hnone] at hslot
    simp [slots] at hslot

end CxyCompiler.Middle.Inheritance
