import Mathlib.Data.Fintype.Order
import Mathlib.Data.List.AList
import Mathlib.Data.UInt
import Mathlib.Order.WellFounded
import Mathlib.Tactic.SplitIfs
import CxyCompiler.Lib.Runs

/-!
# Reference counts (`runtime/builtins.cxy`)

An object of a class is counted: its header holds the number of references to it, and the destructor
that is called when the last one is dropped drops what the object itself refers to, before the
object is freed. An access to an object that is not there has no result.

* `smartPtrAlloc`, `smartPtrGet`, `smartPtrDrop` — the functions, on the objects that are allocated.
* `step` — what a program does with the references it holds.
* `Counted` — each count is the number of references, where some objects are being destroyed.
* `smartPtrDrop_spec` — **a drop ends, and the counts of what is left are right**.
* `counts_right_iff` — **in every state of a run each object has been counted exactly and is
  referred to, and no reference leads to a freed object, if and only if no object is referred to
  2^32 times**.
* `allocated_iff_reached` — **after a run that ends without cycles the objects that are allocated
  are those that are reached from the references that are held**.
-/

namespace CxyCompiler.Runtime.SmartPtr

open CxyCompiler.Lib.Runs

/-! ## The functions -/

/-- An object with its header: `refs`, and the references that its destructor drops. `magic` is
right while the object is allocated. Source: `builtins.cxy` `__mem`. -/
structure Mem where
  refs : UInt32
  fields : List ℕ
deriving DecidableEq

/-- The allocated objects. -/
abbrev Heap := AList fun _ : ℕ => Mem

/-- `malloc` returns `a`. Source: `builtins.cxy` `__smart_ptr_alloc`. -/
def smartPtrAlloc (h : Heap) (a : ℕ) : Heap := h.insert a ⟨1, []⟩

/-- Source: `builtins.cxy` `__smart_ptr_get`. -/
def smartPtrGet (h : Heap) : Option ℕ → Option Heap
  | none => some h
  | some p => do
      let mem ← h.lookup p
      some (h.insert p { mem with refs := mem.refs + 1 })

/-- Whether the object was freed, and the objects that are left; `fuel` bounds the destructors
inside one another. Source: `builtins.cxy` `__smart_ptr_drop`. -/
def smartPtrDrop : ℕ → Heap → Option ℕ → Option (Bool × Heap)
  | _, h, none => some (false, h)
  | 0, _, some _ => none
  | fuel + 1, h, some p => do
      let mem ← h.lookup p
      let refs := mem.refs - 1
      let h := h.insert p { mem with refs := refs }
      if refs = 0 then
        -- `mem.dctor(ptr)`
        let h ← mem.fields.foldlM (fun h q => Prod.snd <$> smartPtrDrop fuel h (some q)) h
        some (true, h.erase p)
      else some (false, h)

/-! ## What a program does -/

/-- The objects, and the references that variables hold. -/
structure State where
  heap : Heap
  roots : List ℕ

/-- A reference is moved into an object by `put` and out of it by `take`. -/
inductive Op where
  | alloc (a : ℕ)
  | get (p : ℕ)
  | drop (p : ℕ)
  | put (o p : ℕ)
  | take (o p : ℕ)
deriving DecidableEq

/-- The allocator returns an address that is free; only a reference that is held is dropped or
moved. A state without a value is one after an access to an object that is not there. -/
def step : Option State → Op → Option (Option State)
  | none, _ => none
  | some s, .alloc a =>
      if a ∈ s.heap then none else some (some ⟨smartPtrAlloc s.heap a, a :: s.roots⟩)
  | some s, .get p =>
      if p ∈ s.roots then some ((smartPtrGet s.heap (some p)).map fun h => ⟨h, p :: s.roots⟩)
        else none
  | some s, .drop p =>
      if p ∈ s.roots then
        some ((smartPtrDrop s.heap.keys.length s.heap (some p)).map fun r => ⟨r.2, s.roots.erase p⟩)
      else none
  | some s, .put o p =>
      match s.heap.lookup o with
      | some m =>
          if p ∈ s.roots then
            some (some ⟨s.heap.insert o { m with fields := p :: m.fields }, s.roots.erase p⟩)
          else none
      | none => none
  | some s, .take o p =>
      match s.heap.lookup o with
      | some m =>
          if p ∈ m.fields then
            some (some ⟨s.heap.insert o { m with fields := m.fields.erase p }, p :: s.roots⟩)
          else none
      | none => none

/-! ## Counts -/

/-- What the objects of a list refer to, but for those that are being destroyed. -/
def heldBy (entries : List (Sigma fun _ : ℕ => Mem)) (dying : List ℕ) : List ℕ :=
  (entries.filter fun e => e.1 ∉ dying).flatMap fun e => e.2.fields

def held (h : Heap) (dying : List ℕ) : List ℕ := heldBy h.entries dying

/-- Each object that is not being destroyed is referred to as often as its header says, by `refs`
and by the others, and all references lead to such objects. -/
structure Counted (h : Heap) (dying refs : List ℕ) : Prop where
  live : ∀ a ∈ refs ++ held h dying, a ∈ h ∧ a ∉ dying
  exact : ∀ a m, h.lookup a = some m → a ∉ dying →
    m.refs.toNat = (refs ++ held h dying).count a ∧ m.refs ≠ 0
  dying : ∀ a ∈ dying, a ∈ h

/-- Every object is referred to as often as its header says, at least once, and every reference
leads to an object. -/
structure Right (s : State) : Prop where
  live : ∀ a ∈ s.roots ++ held s.heap [], a ∈ s.heap
  exact : ∀ a m, s.heap.lookup a = some m → m.refs.toNat = (s.roots ++ held s.heap []).count a
  referred : ∀ a ∈ s.heap, a ∈ s.roots ++ held s.heap []

/-- The object can be referred to once more. -/
def Countable : Option State → Op → Prop
  | some s, .get p => ∀ m, s.heap.lookup p = some m → m.refs.toNat + 1 < 2 ^ 32
  | _, _ => True

variable {h h' : Heap} {dying refs refs' : List ℕ} {p a : ℕ} {m m' : Mem}

theorem heldBy_perm {es es' : List (Sigma fun _ : ℕ => Mem)} (hperm : es.Perm es')
    (dying : List ℕ) :
    (heldBy es dying).Perm (heldBy es' dying) := (hperm.filter _).flatMap_right _

/-- Where the address is not in use it does not matter whether it is being destroyed. Kind: L -/
theorem heldBy_cons {es : List (Sigma fun _ : ℕ => Mem)} (hp : p ∉ es.keys) (dying : List ℕ) :
    heldBy es (p :: dying) = heldBy es dying := by
  unfold heldBy
  congr 1
  apply List.filter_congr
  intro e he
  have hne : e.1 ≠ p := by
    rintro rfl
    exact hp (List.mem_keys_of_mem he)
  simp [hne]

theorem notMem_keys_erase (h : Heap) (p : ℕ) : p ∉ (h.erase p).entries.keys := by
  change p ∉ (h.erase p).keys
  rw [← AList.mem_keys, AList.mem_erase]
  exact fun hp => hp.1 rfl

/-- The entries of the heap with the object `p` first. Kind: L -/
theorem entries_perm (hp : h.lookup p = some m) : h.entries.Perm
    (⟨p, m⟩ :: (h.erase p).entries) := by
  have hmem : p ∈ h.entries.keys := by
    apply List.dlookup_isSome.mp
    exact Option.isSome_of_eq_some hp
  obtain ⟨b, l₁, l₂, hl₁, hsplit, herase⟩ := List.exists_of_kerase hmem
  have hb : h.lookup p = some b := by
    apply (List.mem_dlookup_iff h.nodupKeys).mpr
    rw [hsplit]
    simp
  obtain rfl := Option.some.inj (hp.symm.trans hb)
  change h.entries.Perm (⟨p, m⟩ :: h.entries.kerase p)
  rw [herase, hsplit]
  exact List.perm_middle

/-- What is held without an object that is being destroyed. Kind: L -/
theorem held_erase (hp : p ∈ dying) : (heldBy (h.erase p).entries dying).Perm (held h dying) := by
  by_cases hmem : p ∈ h
  · obtain ⟨m, hm⟩ := Option.isSome_iff_exists.mp (AList.lookup_isSome.mpr hmem)
    refine List.Perm.trans ?_ (heldBy_perm (entries_perm hm) dying).symm
    simp [heldBy, hp]
  · have hsame : (h.erase p).entries = h.entries := List.kerase_of_notMem_keys hmem
    rw [hsame]
    exact List.Perm.refl _

/-- **What an object refers to, beside what the others do.** Kind: L -/
theorem held_perm (hp : h.lookup p = some m) (hdying : p ∉ dying) :
    (held h dying).Perm (m.fields ++ held h (p :: dying)) := by
  refine (heldBy_perm (entries_perm hp) dying).trans ?_
  have hfirst : heldBy (⟨p, m⟩ :: (h.erase p).entries) dying = m.fields ++ heldBy
    (h.erase p).entries dying := by
    simp [heldBy, hdying]
  rw [hfirst, ← heldBy_cons (notMem_keys_erase h p) dying]
  exact (held_erase List.mem_cons_self).append_left _

theorem held_insert_dying (hp : p ∈ dying) : (held (h.insert p m') dying).Perm (held h dying) := by
  refine List.Perm.trans ?_ (held_erase hp)
  change (heldBy (⟨p, m'⟩ :: h.entries.kerase p) dying).Perm (heldBy (h.entries.kerase p) dying)
  simp [heldBy, hp]

theorem held_insert (hdying : p ∉ dying) :
    (held (h.insert p m') dying).Perm (m'.fields ++ held h (p :: dying)) := by
  refine (held_perm (AList.lookup_insert h) hdying).trans ?_
  exact (held_insert_dying List.mem_cons_self).append_left _

theorem held_new (ha : a ∉ h) : held h (a :: dying) = held h dying := heldBy_cons ha dying

theorem Counted.of_perm (hc : Counted h dying refs)
    (hperm : refs.Perm refs') : Counted h dying refs' := by
  have hall : (refs ++ held h dying).Perm (refs' ++ held h dying) := hperm.append_right _
  refine ⟨fun a ha => hc.live a (hall.symm.subset ha), fun a m hm ha => ?_, hc.dying⟩
  rw [← hall.count_eq a]
  exact hc.exact a m hm ha

/-- **One object changes, and the references to the others stay as many.** Kind: L -/
theorem Counted.insert (hc : Counted h dying refs) {l : List ℕ} (hp : p ∉ dying)
    (hheld : (held h dying).Perm (l ++ held h (p :: dying)))
    (hrefs : m'.refs.toNat = (refs' ++ m'.fields ++ held h (p :: dying)).count p)
      (hne : m'.refs ≠ 0)
    (hothers : ∀ a, a ≠ p → (refs' ++ m'.fields).count a = (refs ++ l).count a) :
    Counted (h.insert p m') dying refs' := by
  have hnew : (refs' ++ held (h.insert p m') dying).Perm
    (refs' ++ m'.fields ++ held h (p :: dying)) := by
    rw [List.append_assoc]
    exact (held_insert hp).append_left refs'
  have hold : (refs ++ held h dying).Perm (refs ++ l ++ held h (p :: dying)) := by
    rw [List.append_assoc]
    exact hheld.append_left refs
  have hcount : ∀ a, a ≠ p →
      (refs' ++ held (h.insert p m') dying).count a = (refs ++ held h dying).count a := by
    intro a ha
    rw [hnew.count_eq, hold.count_eq, List.count_append, hothers a ha, ← List.count_append]
  refine ⟨fun a ha => ?_, fun a m hm hdying => ?_, fun a ha => ?_⟩
  · rcases eq_or_ne a p with rfl | hap
    · exact ⟨(AList.mem_insert h).mpr (Or.inl rfl), hp⟩
    · have hmem : a ∈ refs ++ held h dying := by
        apply List.count_pos_iff.mp
        rw [← hcount a hap]
        exact List.count_pos_iff.mpr ha
      obtain ⟨hah, had⟩ := hc.live a hmem
      exact ⟨(AList.mem_insert h).mpr (Or.inr hah), had⟩
  · rcases eq_or_ne a p with rfl | hap
    · rw [AList.lookup_insert] at hm
      obtain rfl := Option.some.inj hm
      rw [hnew.count_eq]
      exact ⟨hrefs, hne⟩
    · rw [AList.lookup_insert_ne hap] at hm
      rw [hcount a hap]
      exact hc.exact a m hm hdying
  · exact (AList.mem_insert h).mpr (Or.inr (hc.dying a ha))

theorem Counted.lookup (hc : Counted h dying refs) (hp : p ∈ refs ++ held h dying) :
    ∃ m, h.lookup p = some m ∧ p ∉ dying ∧
      m.refs.toNat = (refs ++ held h dying).count p ∧ m.refs ≠ 0 := by
  obtain ⟨hmem, hdying⟩ := hc.live p hp
  obtain ⟨m, hm⟩ := Option.isSome_iff_exists.mp (AList.lookup_isSome.mpr hmem)
  exact ⟨m, hm, hdying, hc.exact p m hm hdying⟩

/-! ## Drops -/

/-- The objects that are not being destroyed. -/
def alive (h : Heap) (dying : List ℕ) : Finset ℕ := h.keys.toFinset.filter (· ∉ dying)

@[simp] theorem mem_alive : a ∈ alive h dying ↔ a ∈ h ∧ a ∉ dying := by
  simp [alive, AList.mem_keys]

theorem UInt32.toNat_pred {r : UInt32} {n : ℕ} (h : r.toNat = n + 1) : (r - 1).toNat = n := by
  have hle : 1 ≤ r := by
    rw [UInt32.le_iff_toNat_le, h]
    exact Nat.le_add_left 1 n
  rw [UInt32.toNat_sub_of_le _ _ hle, h]
  rfl

/-- The last reference is dropped: the object is being destroyed, and what it refers to is to be
dropped. Kind: L -/
theorem Counted.begin_dying (hc : Counted h dying (p :: refs)) (hm : h.lookup p = some m)
    (hp : p ∉ dying)
    (hlast : (refs ++ held h dying).count p = 0) (r : UInt32) :
    Counted (h.insert p { m with refs := r }) (p :: dying) (m.fields ++ refs) := by
  have hperm : (m.fields ++ refs ++ held (h.insert p { m with refs := r }) (p :: dying)).Perm
      (refs ++ held h dying) := by
    refine ((held_insert_dying List.mem_cons_self).append_left _).trans ?_
    refine (List.perm_append_comm.append_right _).trans ?_
    rw [List.append_assoc]
    exact ((held_perm hm hp).append_left refs).symm
  refine ⟨fun a ha => ?_, fun a m₁ hm₁ hdying => ?_, fun a ha => ?_⟩
  · have ha' := hperm.subset ha
    have hap : a ≠ p := by
      rintro rfl
      exact List.count_eq_zero.mp hlast ha'
    obtain ⟨hah, had⟩ := hc.live a (List.mem_cons_of_mem p ha')
    refine ⟨(AList.mem_insert h).mpr (Or.inr hah), ?_⟩
    rintro (_ | ⟨_, had'⟩)
    exacts [hap rfl, had had']
  · obtain ⟨hap, had⟩ := List.ne_and_not_mem_of_not_mem_cons hdying
    rw [AList.lookup_insert_ne hap] at hm₁
    rw [hperm.count_eq]
    have hcount := hc.exact a m₁ hm₁ had
    rwa [List.cons_append, List.count_cons_of_ne (Ne.symm hap)] at hcount
  · rcases List.mem_cons.mp ha with rfl | had
    · exact (AList.mem_insert h).mpr (Or.inl rfl)
    · exact (AList.mem_insert h).mpr (Or.inr (hc.dying a had))

theorem Counted.end_dying (hc : Counted h (p :: dying) refs)
    (hp : p ∉ dying) : Counted (h.erase p) dying refs := by
  have hperm : (refs ++ held (h.erase p) dying).Perm (refs ++ held h (p :: dying)) := by
    apply List.Perm.append_left
    have hrest : held (h.erase p) dying = heldBy (h.erase p).entries (p :: dying) :=
      (heldBy_cons (notMem_keys_erase h p) dying).symm
    rw [hrest]
    exact held_erase List.mem_cons_self
  refine ⟨fun a ha => ?_, fun a m hm had => ?_, fun a ha => ?_⟩
  · obtain ⟨hah, had⟩ := hc.live a (hperm.subset ha)
    obtain ⟨hap, had⟩ := List.ne_and_not_mem_of_not_mem_cons had
    exact ⟨AList.mem_erase.mpr ⟨hap, hah⟩, had⟩
  · have hap : a ≠ p := by
      rintro rfl
      rw [AList.lookup_erase] at hm
      exact nomatch hm
    rw [AList.lookup_erase_ne hap] at hm
    rw [hperm.count_eq]
    exact hc.exact a m hm (List.not_mem_cons_of_ne_of_not_mem hap had)
  · refine AList.mem_erase.mpr ⟨?_, hc.dying a (List.mem_cons_of_mem p ha)⟩
    rintro rfl
    exact hp ha

/-- What a destructor does, where each drop inside it is right. Kind: L -/
theorem dctor_spec {fuel : ℕ} (hdrop : ∀ (h : Heap) (refs : List ℕ) (q : ℕ),
    Counted h dying (q :: refs) →
      (alive h dying).card ≤ fuel →
      ∃ r, smartPtrDrop fuel h (some q) = some r ∧ Counted r.2 dying refs ∧
        alive r.2 dying ⊆ alive h dying) :
    ∀ (fields : List ℕ) (h : Heap), Counted h dying (fields ++ refs) → (alive h dying).card ≤ fuel →
      ∃ h', fields.foldlM (fun h q => Prod.snd <$> smartPtrDrop fuel h (some q)) h = some h' ∧
        Counted h' dying refs ∧ alive h' dying ⊆ alive h dying := by
  intro fields
  induction fields with
  | nil => exact fun h hc _ => ⟨h, rfl, hc, Finset.Subset.refl _⟩
  | cons q fields ih =>
      intro h hc hfuel
      obtain ⟨r, hr, hc₁, hsub₁⟩ := hdrop h (fields ++ refs) q hc hfuel
      obtain ⟨h', hrun, hc₂, hsub₂⟩ := ih r.2 hc₁ ((Finset.card_le_card hsub₁).trans hfuel)
      refine ⟨h', ?_, hc₂, hsub₂.trans hsub₁⟩
      rw [List.foldlM_cons, hr]
      exact hrun

/-- **A drop ends, and the counts of what is left are right.** Kind: P -/
theorem smartPtrDrop_spec : ∀ (fuel : ℕ) (h : Heap) (dying refs : List ℕ) (p : ℕ),
    Counted h dying (p :: refs) → (alive h dying).card ≤ fuel →
    ∃ r, smartPtrDrop fuel h (some p) = some r ∧ Counted r.2 dying refs ∧
      alive r.2 dying ⊆ alive h dying := by
  intro fuel
  induction fuel with
  | zero =>
      intro h dying refs p hc hfuel
      have hp : p ∈ alive h dying := mem_alive.mpr (hc.live p List.mem_cons_self)
      rw [Finset.card_eq_zero.mp (Nat.le_zero.mp hfuel)] at hp
      exact absurd hp (Finset.notMem_empty p)
  | succ fuel ih =>
      intro h dying refs p hc hfuel
      obtain ⟨m, hm, hp, hcount, hne⟩ := hc.lookup List.mem_cons_self
      rw [List.cons_append, List.count_cons_self] at hcount
      have hpred : (m.refs - 1).toNat = (refs ++ held h dying).count p := UInt32.toNat_pred hcount
      have hmem : ∀ a, a ∈ h.insert p { m with refs := m.refs - 1 } ↔ a ∈ h := by
        intro a
        rw [AList.mem_insert, or_iff_right_of_imp]
        rintro rfl
        exact AList.lookup_isSome.mp (Option.isSome_of_eq_some hm)
      have hunfold : smartPtrDrop (fuel + 1) h (some p) =
          if m.refs - 1 = 0 then
            (m.fields.foldlM (fun h q => Prod.snd <$> smartPtrDrop fuel h (some q))
              (h.insert p { m with refs := m.refs - 1 })).bind fun h => some (true, h.erase p)
          else some (false, h.insert p { m with refs := m.refs - 1 }) := by
        rw [smartPtrDrop, hm]
        rfl
      rw [hunfold]
      split_ifs with hzero
      · have hlast : (refs ++ held h dying).count p = 0 := by
          rw [← hpred, hzero]
          rfl
        have hbegin := hc.begin_dying hm hp hlast (m.refs - 1)
        have hsub : alive (h.insert p { m with refs := m.refs - 1 })
          (p :: dying) ⊆ alive h dying := by
          intro a ha
          obtain ⟨hah, had⟩ := mem_alive.mp ha
          exact mem_alive.mpr ⟨(hmem a).mp hah, List.not_mem_of_not_mem_cons had⟩
        have hless : (alive (h.insert p { m with refs := m.refs - 1 }) (p :: dying)).card <
          (alive h dying).card := by
          apply Finset.card_lt_card
          refine ⟨hsub, fun hback => ?_⟩
          have hp' := hback (mem_alive.mpr (hc.live p List.mem_cons_self))
          exact (mem_alive.mp hp').2 List.mem_cons_self
        obtain ⟨h', hrun, hc', hsub'⟩ :=
          dctor_spec (fun h refs q => ih h (p :: dying) refs q) m.fields _ hbegin
          (Nat.le_of_lt_succ (hless.trans_le hfuel))
        refine ⟨(true, h'.erase p), by rw [hrun]; rfl, hc'.end_dying hp, fun a ha => ?_⟩
        obtain ⟨hah, had⟩ := mem_alive.mp ha
        obtain ⟨hap, hah⟩ := AList.mem_erase.mp hah
        exact hsub (hsub' (mem_alive.mpr ⟨hah, List.not_mem_cons_of_ne_of_not_mem hap had⟩))
      · refine ⟨_, rfl, hc.insert hp (held_perm hm hp) ?_ hzero fun a hap => ?_, fun a ha => ?_⟩
        · rw [hpred, List.append_assoc]
          exact ((held_perm hm hp).append_left refs).count_eq p
        · rw [List.cons_append, List.count_cons_of_ne (Ne.symm hap)]
        · obtain ⟨hah, had⟩ := mem_alive.mp ha
          exact mem_alive.mpr ⟨(hmem a).mp hah, had⟩

/-! ## Runs -/

theorem right_iff_counted {s : State} : Right s ↔ Counted s.heap [] s.roots := by
  have hzero : ∀ r : UInt32, r ≠ 0 ↔ 0 < r.toNat := by
    intro r
    rw [Nat.pos_iff_ne_zero, ne_eq, ne_eq, ← UInt32.toNat_inj]
    rfl
  constructor
  · rintro ⟨hlive, hexact, hreferred⟩
    refine ⟨fun a ha => ⟨hlive a ha, List.not_mem_nil⟩, fun a m hm _ => ⟨hexact a m hm, ?_⟩, nofun⟩
    rw [hzero, hexact a m hm]
    apply List.count_pos_iff.mpr
    exact hreferred a (AList.lookup_isSome.mp (Option.isSome_of_eq_some hm))
  · rintro ⟨hlive, hexact, -⟩
    refine ⟨fun a ha => (hlive a ha).1, fun a m hm =>
      (hexact a m hm List.not_mem_nil).1, fun a ha => ?_⟩
    obtain ⟨m, hm⟩ := Option.isSome_iff_exists.mp (AList.lookup_isSome.mpr ha)
    obtain ⟨hcount, hne⟩ := hexact a m hm List.not_mem_nil
    apply List.count_pos_iff.mp
    rw [← hcount]
    exact (hzero m.refs).mp hne

theorem Counted.alloc (hc : Counted h [] refs)
    (ha : a ∉ h) : Counted (smartPtrAlloc h a) [] (a :: refs) := by
  have hnone : (refs ++ held h []).count a = 0 := List.count_eq_zero.mpr fun hmem =>
    ha (hc.live a hmem).1
  apply hc.insert (l := []) List.not_mem_nil
  · rw [held_new ha]
    exact List.Perm.refl _
  · rw [held_new ha, List.append_nil, List.cons_append, List.count_cons_self, hnone]
    rfl
  · decide
  · intro b hb
    rw [List.append_nil, List.append_nil, List.count_cons_of_ne (Ne.symm hb)]

/-- A reference is made, where the count does not go round. Kind: L -/
theorem Counted.get (hc : Counted h [] refs) (hm : h.lookup p = some m)
    (hcount : m.refs.toNat + 1 < 2 ^ 32) :
    Counted (h.insert p { m with refs := m.refs + 1 }) [] (p :: refs) := by
  have hsucc : (m.refs + 1).toNat = m.refs.toNat + 1 := by
    rw [UInt32.toNat_add]
    exact Nat.mod_eq_of_lt hcount
  apply hc.insert List.not_mem_nil (held_perm hm List.not_mem_nil)
  · rw [hsucc, (hc.exact p m hm List.not_mem_nil).1, List.append_assoc,
      List.cons_append, List.count_cons_self]
    rw [((held_perm hm List.not_mem_nil).append_left refs).count_eq p]
  · intro hzero
    change m.refs + 1 = 0 at hzero
    rw [hzero] at hsucc
    exact absurd hsucc (Nat.succ_ne_zero _).symm
  · intro b hb
    rw [List.cons_append, List.count_cons_of_ne (Ne.symm hb)]

/-- **A reference is moved.** Kind: L -/
theorem Counted.move (hc : Counted h [] refs) (hm : h.lookup p = some m) {fields : List ℕ}
    (hperm : (refs' ++ fields).Perm (refs ++ m.fields)) : Counted (h.insert p { m with fields })
      [] refs' := by
  obtain ⟨hcount, hne⟩ := hc.exact p m hm List.not_mem_nil
  apply hc.insert List.not_mem_nil (held_perm hm List.not_mem_nil)
  · rw [(hperm.append_right _).count_eq p, List.append_assoc]
    rw [← ((held_perm hm List.not_mem_nil).append_left refs).count_eq p]
    exact hcount
  · exact hne
  · exact fun b _ => hperm.count_eq b

theorem not_countable (hcount : ¬ m.refs.toNat + 1 < 2 ^ 32) :
    ¬ Counted (h.insert p { m with refs := m.refs + 1 }) [] (p :: refs) := by
  intro hc
  obtain ⟨-, hne⟩ := hc.exact p _ (AList.lookup_insert h) List.not_mem_nil
  have hmax : m.refs.toNat + 1 = 2 ^ 32 :=
    Nat.le_antisymm (UInt32.toNat_lt m.refs) (Nat.le_of_not_lt hcount)
  apply hne
  apply UInt32.toNat_inj.mp
  change (m.refs + 1).toNat = 0
  rw [UInt32.toNat_add]
  change (m.refs.toNat + 1) % 2 ^ 32 = 0
  rw [hmax]
  exact Nat.mod_self _

/-- In a state with a value the counts are right. -/
def Fine : Option State → Prop
  | some s => Right s
  | none => False

theorem step_get {s : State} {s' : Option State} (hright : Right s)
    (hstep : step (some s) (.get p) = some s') :
    ∃ m, s.heap.lookup p = some m ∧
      s' = some ⟨s.heap.insert p { m with refs := m.refs + 1 }, p :: s.roots⟩ := by
  simp only [step] at hstep
  split_ifs at hstep with hp
  obtain ⟨m, hm, -⟩ := (right_iff_counted.mp hright).lookup (List.mem_append_left _ hp)
  refine ⟨m, hm, ?_⟩
  have hget : smartPtrGet s.heap (some p) = some
    (s.heap.insert p { m with refs := m.refs + 1 }) := by
    rw [smartPtrGet, hm]
    rfl
  rw [hget] at hstep
  exact (Option.some.inj hstep).symm

theorem step_drop {s : State} {s' : Option State} (hright : Right s)
    (hstep : step (some s) (.drop p) = some s') :
    Fine s' := by
  simp only [step] at hstep
  split_ifs at hstep with hp
  have hc := (right_iff_counted.mp hright).of_perm (List.perm_cons_erase hp)
  have hfuel : (alive s.heap []).card ≤ s.heap.keys.length :=
    (Finset.card_filter_le _ _).trans (List.toFinset_card_le _)
  obtain ⟨r, hr, hc', -⟩ := smartPtrDrop_spec _ s.heap [] (s.roots.erase p) p hc hfuel
  rw [hr] at hstep
  obtain rfl := Option.some.inj hstep
  exact right_iff_counted.mpr hc'

theorem step_fine : ∀ (s : Option State) (op : Op) (s' : Option State),
    Fine s → Countable s op → step s op = some s' → Fine s' := by
  rintro (_ | s) op s' hfine hcount hstep
  · exact hfine.elim
  have hc := right_iff_counted.mp hfine
  match op with
  | .alloc a =>
      simp only [step] at hstep
      split_ifs at hstep with ha
      obtain rfl := Option.some.inj hstep
      exact right_iff_counted.mpr (hc.alloc ha)
  | .get p =>
      obtain ⟨m, hm, rfl⟩ := step_get hfine hstep
      exact right_iff_counted.mpr (hc.get hm (hcount m hm))
  | .drop p => exact step_drop hfine hstep
  | .put o p =>
      rcases hm : s.heap.lookup o with _ | m <;> simp only [step, hm] at hstep
      · exact nomatch hstep
      split_ifs at hstep with hp
      obtain rfl := Option.some.inj hstep
      refine right_iff_counted.mpr (hc.move hm ?_)
      exact List.perm_middle.trans ((List.perm_cons_erase hp).symm.append_right m.fields)
  | .take o p =>
      rcases hm : s.heap.lookup o with _ | m <;> simp only [step, hm] at hstep
      · exact nomatch hstep
      split_ifs at hstep with hp
      obtain rfl := Option.some.inj hstep
      refine right_iff_counted.mpr (hc.move hm ?_)
      exact List.perm_middle.symm.trans ((List.perm_cons_erase hp).symm.append_left s.roots)

theorem step_not_fine : ∀ (s : Option State) (op : Op) (s' : Option State),
    Fine s → ¬ Countable s op → step s op = some s' → ¬ Fine s' := by
  rintro (_ | s) op s' hfine hcount hstep
  · exact hfine.elim
  match op with
  | .get p =>
      obtain ⟨m, hm, rfl⟩ := step_get hfine hstep
      intro hright
      refine not_countable (fun hless => hcount fun m' hm' => ?_) (right_iff_counted.mp hright)
      obtain rfl := Option.some.inj (hm.symm.trans hm')
      exact hless
  | .alloc _ | .drop _ | .put _ _ | .take _ _ => exact absurd trivial hcount

/-- Nothing is allocated. -/
def start : State := ⟨∅, []⟩

theorem start_fine : Fine (some start) := ⟨nofun, nofun, nofun⟩

theorem allMeet_of_no_get {ops : List Op} (hget : ∀ op ∈ ops, ∀ p, op ≠ .get p) :
    ∀ s : Option State, AllMeet step Countable s ops := by
  induction ops with
  | nil => exact fun _ => trivial
  | cons op ops ih =>
      intro s s' _
      refine ⟨?_, ih (fun op' hop' => hget op' (List.mem_cons_of_mem op hop')) s'⟩
      match s, op with
      | some _, .get p => exact absurd rfl (hget _ List.mem_cons_self p)
      | some _, .alloc _ | some _, .drop _ | some _, .put _ _ | some _, .take _ _ | none, _ =>
        trivial

/-- **In every state of a run each object has been counted exactly and is referred to, and no
reference leads to a freed object, if and only if no object is referred to 2^32 times.** Kind: P -/
theorem counts_right_iff (ops : List Op) :
    (∀ pre s, pre <+: ops → run step (some start) pre = some s → Fine s) ↔
      AllMeet step Countable (some start) ops :=
  run_property_iff (fun _ (h : Fine _) => h) step_fine step_not_fine ops (some start) start_fine

/-! ## What stays allocated -/

/-- The object `o` refers to `q`. -/
def RefersTo (h : Heap) (o q : ℕ) : Prop := ∃ m, h.lookup o = some m ∧ q ∈ m.fields

theorem refersTo_of_mem_held (hq : a ∈ held h []) : ∃ o, RefersTo h o a := by
  obtain ⟨⟨o, m⟩, he, ha⟩ := List.mem_flatMap.mp hq
  refine ⟨o, m, ?_, ha⟩
  exact (List.mem_dlookup_iff h.nodupKeys).mpr (List.mem_filter.mp he).1

theorem RefersTo.mem {o : ℕ} (ho : RefersTo h o a) : o ∈ h := by
  obtain ⟨m, hm, -⟩ := ho
  exact AList.lookup_isSome.mp (Option.isSome_of_eq_some hm)

theorem RefersTo.mem_held {o : ℕ} (ho : RefersTo h o a) : a ∈ held h [] := by
  obtain ⟨m, hm, ha⟩ := ho
  apply (held_perm hm List.not_mem_nil).symm.subset
  exact List.mem_append_left _ ha

/-- **Without cycles all that is allocated is reached from the references that are held.**
Kind: P -/
theorem Right.reached {s : State} (hright : Right s)
    (hacyclic : ∀ a, ¬ Relation.TransGen (RefersTo s.heap) a a) :
    ∀ a ∈ s.heap, ∃ r ∈ s.roots, Relation.ReflTransGen (RefersTo s.heap) r a := by
  let below : {a // a ∈ s.heap.keys.toFinset} → {a // a ∈ s.heap.keys.toFinset} → Prop :=
    fun o q => Relation.TransGen (RefersTo s.heap) o.1 q.1
  have htrans : IsTrans _ below := ⟨fun _ _ _ => Relation.TransGen.trans⟩
  have hirrefl : Std.Irrefl below := ⟨fun a => hacyclic a.1⟩
  have hwf : WellFounded below := Finite.wellFounded_of_trans_of_irrefl below
  have hkey : ∀ a, a ∈ s.heap ↔ a ∈ s.heap.keys.toFinset := fun a => by
    rw [List.mem_toFinset, AList.mem_keys]
  suffices hall : ∀ a : {a // a ∈ s.heap.keys.toFinset},
      ∃ r ∈ s.roots, Relation.ReflTransGen (RefersTo s.heap) r a.1 from
    fun a ha => hall ⟨a, (hkey a).mp ha⟩
  intro a
  -- on the objects that lead to `a`, which are fewer
  induction a using hwf.induction with
  | _ a ih =>
  rcases List.mem_append.mp (hright.referred a.1 ((hkey a.1).mpr a.2)) with hroot | hheld
  · exact ⟨a.1, hroot, Relation.ReflTransGen.refl⟩
  · obtain ⟨o, ho⟩ := refersTo_of_mem_held hheld
    have hmem := (hkey o).mp ho.mem
    obtain ⟨r, hr, hpath⟩ := ih ⟨o, hmem⟩ (Relation.TransGen.single ho)
    exact ⟨r, hr, hpath.tail ho⟩

theorem Right.mem_of_reached {s : State} (hright : Right s) {r : ℕ} (hr : r ∈ s.roots)
    (hpath : Relation.ReflTransGen (RefersTo s.heap) r a) : a ∈ s.heap := by
  induction hpath with
  | refl => exact hright.live r (List.mem_append_left _ hr)
  | tail _ ho _ => exact hright.live _ (List.mem_append_right _ ho.mem_held)

/-- **After a run that ends without cycles the objects that are allocated are those that are reached
from the references that are held.** Kind: P -/
theorem allocated_iff_reached {ops : List Op} {s : State}
    (hcount : AllMeet step Countable (some start) ops)
    (hrun : run step (some start) ops = some (some s))
      (hacyclic : ∀ a, ¬ Relation.TransGen (RefersTo s.heap) a a) :
    ∀ a, a ∈ s.heap ↔ ∃ r ∈ s.roots, Relation.ReflTransGen (RefersTo s.heap) r a := by
  have hright : Right s := inv_of_run step_fine ops (some start) (some s) start_fine hcount hrun
  intro a
  constructor
  · exact hright.reached hacyclic a
  · rintro ⟨r, hr, hpath⟩
    exact hright.mem_of_reached hr hpath

theorem acyclic_of_lt (hup : ∀ o q, RefersTo h o q → o < q)
    (a : ℕ) : ¬ Relation.TransGen (RefersTo h) a a := by
  have hlt : ∀ {b}, Relation.TransGen (RefersTo h) a b → a < b := by
    intro b hpath
    induction hpath with
    | single ho => exact hup _ _ ho
    | tail _ ho ih => exact ih.trans (hup _ _ ho)
  exact fun ha => Nat.lt_irrefl a (hlt ha)

/-- An object that owns another one. -/
def pair : State := ⟨((∅ : Heap).insert 2 ⟨1, []⟩).insert 1 ⟨1, [2]⟩, [1]⟩

/-- The second of three objects is given to the first, and the third is dropped. Kind: L -/
theorem allocated_iff_reached_sample :
    2 ∈ pair.heap ↔ ∃ r ∈ pair.roots, Relation.ReflTransGen (RefersTo pair.heap) r 2 := by
  have hup : ∀ o q, RefersTo pair.heap o q → o < q := by
    rintro o q ⟨m, hm, hq⟩
    have hcases : o ∈ pair.heap.keys := by
      rw [← AList.mem_keys, ← AList.lookup_isSome, hm]
      rfl
    change o ∈ [1, 2] at hcases
    rcases List.mem_pair.mp hcases with rfl | rfl
    · obtain rfl := Option.some.inj hm
      obtain rfl := List.mem_singleton.mp hq
      decide
    · obtain rfl := Option.some.inj hm
      exact absurd hq List.not_mem_nil
  exact @allocated_iff_reached [.alloc 1, .alloc 2, .alloc 3, .put 1 2, .drop 3] _
    (allMeet_of_no_get (by simp) _) rfl (acyclic_of_lt hup) 2

end CxyCompiler.Runtime.SmartPtr
