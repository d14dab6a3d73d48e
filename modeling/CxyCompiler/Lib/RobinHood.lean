import CxyCompiler.Lib.Probing

/-!
# Robin Hood probing on a ring of slots

A ring of `n` slots holds entries that know their home. How far an entry is from its home is what a
function `probe i home` says of it; it may say more than the true distance. An entry that is carried
along displaces a resident where `swap` says so of the two distances.

* `seek`, `insertLoop`, `shiftLoop` — the loops of a lookup, of an insertion and of the backward
  shift after a deletion, with fuel for the slots still to be visited.
* `Ordered n probe s` — **the Robin Hood invariant**: on its way from its home, an entry has passed
  only residents that are at least as far from theirs.
* `seek_spec`, `insertLoop_absent`, `insertLoop_present`, `shiftLoop_spec` — what the loops do.
  A shift needs `MovesOk`: a moved entry still lets those behind it pass.
-/

namespace CxyCompiler.Lib.RobinHood

open CxyCompiler.Lib.Probing

structure Entry (α : Type*) where
  home : ℕ
  elem : α
  deriving DecidableEq, Repr

variable {α : Type*}

/-- Write one slot. -/
def set (s : ℕ → Option (Entry α)) (i : ℕ) (v : Option (Entry α)) : ℕ → Option (Entry α) :=
  fun k => if k = i then v else s k

@[simp] theorem set_self (s : ℕ → Option (Entry α)) (i : ℕ) (v : Option (Entry α)) :
    set s i v i = v := by simp [set]

theorem set_of_ne {s : ℕ → Option (Entry α)} {i k : ℕ} (h : k ≠ i) (v : Option (Entry α)) :
    set s i v k = s k := by simp [set, h]

theorem set_eq_update (s : ℕ → Option (Entry α)) (i : ℕ) (v : Option (Entry α)) :
    set s i v = Function.update s i v := by
  funext k
  by_cases h : k = i
  · subst h
    simp
  · rw [set_of_ne h, Function.update_of_ne h]

/-! ## The loops -/

section loops

variable (n : ℕ) (probe : ℕ → ℕ → ℕ)

/-- Look for an element from slot `i`, at distance `j` from where the search started. -/
def seek (s : ℕ → Option (Entry α)) (same : α → Bool) : ℕ → ℕ → ℕ → Option (Option ℕ)
  | 0, _, _ => none
  | fuel + 1, i, j =>
      match s i with
      | none => some none
      | some e =>
          if probe i e.home < j then some none
          else if same e.elem then some (some i)
          else seek s same fuel ((i + 1) % n) (j + 1)

/-- Insert the carried entry from slot `i`, at distance `j` from its home: the slots, the slot that
was written last, and whether the entry is new. -/
def insertLoop (swap : ℕ → ℕ → Bool) (same : α → α → Bool) (replace : Bool) :
    ℕ → (ℕ → Option (Entry α)) → ℕ → ℕ → Entry α →
      Option ((ℕ → Option (Entry α)) × ℕ × Bool)
  | 0, _, _, _, _ => none
  | fuel + 1, s, i, j, carried =>
      match s i with
      | none => some (set s i (some carried), i, true)
      | some e =>
          if same e.elem carried.elem then
            some (if replace then set s i (some carried) else s, i, false)
          else if swap j (probe i e.home) then
            insertLoop swap same replace fuel (set s i (some carried)) ((i + 1) % n)
              (probe i e.home + 1) e
          else insertLoop swap same replace fuel s ((i + 1) % n) (j + 1) carried

/-- Move the entries behind the hole `i` back by one, up to one that is at home. -/
def shiftLoop : ℕ → (ℕ → Option (Entry α)) → ℕ → Option (ℕ → Option (Entry α))
  | 0, _, _ => none
  | fuel + 1, s, i =>
      match s ((i + 1) % n) with
      | some f =>
          if 0 < probe ((i + 1) % n) f.home then
            shiftLoop fuel (set (set s i (some f)) ((i + 1) % n) none) ((i + 1) % n)
          else some s
      | none => some s

end loops

theorem add_one_mod {n i : ℕ} (hi : i < n) : (i + 1) % n = incr n i := by
  unfold incr
  split_ifs with h
  · rw [show i + 1 = n by omega, Nat.mod_self]
  · exact Nat.mod_eq_of_lt (by omega)

/-! ## The invariant -/

/-- What `probe` says is the distance, or, away from home, more than any distance. -/
def ProbeOk (n : ℕ) (probe : ℕ → ℕ → ℕ) : Prop :=
  ∀ i < n, ∀ b < n, probe i b = gap n b i ∨ i ≠ b ∧ n ≤ probe i b

/-- The entry may stand at slot `i`: all slots it has passed are taken by residents at least as far
from home. -/
def PathOk (n : ℕ) (probe : ℕ → ℕ → ℕ) (s : ℕ → Option (Entry α)) (e : Entry α) (i : ℕ) : Prop :=
  ∀ j < n, gap n e.home j < gap n e.home i →
    ∃ f, s j = some f ∧ gap n e.home j ≤ probe j f.home

/-- **The Robin Hood invariant.** -/
structure Ordered (n : ℕ) (probe : ℕ → ℕ → ℕ) (s : ℕ → Option (Entry α)) : Prop where
  home_lt : ∀ i < n, ∀ e, s i = some e → e.home < n
  path : ∀ i < n, ∀ e, s i = some e → PathOk n probe s e i

section lemmas

variable {n : ℕ} {probe : ℕ → ℕ → ℕ} {s : ℕ → Option (Entry α)}

theorem ProbeOk.gap_le (h : ProbeOk n probe) {i b : ℕ} (hi : i < n) (hb : b < n) :
    gap n b i ≤ probe i b := by
  have := gap_lt hb hi
  rcases h i hi b hb with h | h <;> omega

theorem Ordered.empty : Ordered n probe (fun _ => (none : Option (Entry α))) where
  home_lt i _ e he := by simp at he
  path i _ e he := by simp at he

/-- The next slot is one further from `b`, where some slot is empty and all up to here are not.
Kind: L -/
theorem gap_next {b i e₀ : ℕ} (hb : b < n) (hi : i < n) (he₀ : e₀ < n) (hempty : s e₀ = none)
    (htaken : s i ≠ none) (hpath : ∀ k < n, gap n b k < gap n b i → s k ≠ none) :
    incr n i < n ∧ gap n b (incr n i) = gap n b i + 1 := by
  refine ⟨incr_lt (by omega), gap_incr_right hb hi ?_⟩
  rintro rfl
  -- the walk has come round, so the empty slot has been passed
  have hne : i ≠ e₀ := by rintro rfl; exact htaken hempty
  have hlast : gap n (incr n i) i + 1 = n := by
    unfold gap incr
    split_ifs <;> omega
  have hlt := gap_lt hb he₀
  have hne' : gap n (incr n i) e₀ ≠ gap n (incr n i) i := fun h => hne (gap_inj hb hi he₀ h.symm)
  exact hpath e₀ he₀ (by omega) hempty

/-- Closer to `i` than the slots up to distance `gap n b i` are those before it and itself.
Kind: L -/
theorem gap_lt_succ {b i k : ℕ} (hb : b < n) (hi : i < n) (hk : k < n)
    (h : gap n b k < gap n b i + 1) : k = i ∨ gap n b k < gap n b i := by
  rcases Nat.lt_or_ge (gap n b k) (gap n b i) with hlt | hge
  · exact Or.inr hlt
  · exact Or.inl (gap_inj hb hk hi (by omega))

/-! ## Lookup -/

theorem seek_stops (probe : ℕ → ℕ → ℕ) (same : α → Bool) {b e₀ : ℕ} (hb : b < n) (he₀ : e₀ < n)
    (hempty : s e₀ = none) :
    ∀ (fuel i : ℕ), i < n → gap n i e₀ < fuel →
      (∀ k < n, gap n b k < gap n b i →
        ∃ f, s k = some f ∧ gap n b k ≤ probe k f.home ∧ same f.elem = false) →
      ∃ r, seek n probe s same fuel i (gap n b i) = some r ∧
        (∀ q, r = some q → q < n ∧ ∃ e, s q = some e ∧ same e.elem = true) ∧
        (r = none → ∃ q < n, (∀ f, s q = some f → probe q f.home < gap n b q) ∧
          ∀ k < n, gap n b k < gap n b q → ∃ f, s k = some f ∧ same f.elem = false) := by
  intro fuel
  induction fuel with
  | zero => intro i _ hlt; omega
  | succ fuel ih =>
      intro i hi hlt hpassed
      have hpassed' : ∀ k < n, gap n b k < gap n b i → ∃ f, s k = some f ∧ same f.elem = false := by
        intro k hk hki
        obtain ⟨f, hf, -, hsame⟩ := hpassed k hk hki
        exact ⟨f, hf, hsame⟩
      rw [seek]
      cases hsi : s i with
      | none =>
          refine ⟨none, rfl, by simp, fun _ => ⟨i, hi, ?_, hpassed'⟩⟩
          intro f hf
          simp [hsi] at hf
      | some e =>
          by_cases hstop : probe i e.home < gap n b i
          · refine ⟨none, by simp [hstop], by simp, fun _ => ⟨i, hi, ?_, hpassed'⟩⟩
            intro f hf
            rw [hsi, Option.some.injEq] at hf
            exact hf ▸ hstop
          · by_cases hsame : same e.elem = true
            · refine ⟨some i, by simp [hstop, hsame], ?_, by simp⟩
              intro q hq
              rw [Option.some.injEq] at hq
              subst hq
              exact ⟨hi, e, hsi, hsame⟩
            · have htaken : s i ≠ none := by simp [hsi]
              obtain ⟨hnext, hgap⟩ := gap_next hb hi he₀ hempty htaken fun k hk hki => by
                obtain ⟨f, hf, -⟩ := hpassed k hk hki
                simp [hf]
              have hne : i ≠ e₀ := by rintro rfl; exact htaken hempty
              have hcloser := gap_incr hi he₀ hne
              simp only [if_neg hstop, hsame, Bool.false_eq_true, if_false, add_one_mod hi, ← hgap]
              refine ih (incr n i) hnext (by omega) ?_
              intro k hk hki
              rw [hgap] at hki
              rcases gap_lt_succ hb hi hk hki with rfl | hki
              · exact ⟨e, hsi, by omega, by simpa using hsame⟩
              · exact hpassed k hk hki

/-- **A search finds an element of its home if there is one.** Kind: P -/
theorem seek_spec (hs : Ordered n probe s) (hp : ProbeOk n probe) (same : α → Bool) {b e₀ : ℕ}
    (hb : b < n) (he₀ : e₀ < n) (hempty : s e₀ = none) :
    ∃ r, seek n probe s same n b 0 = some r ∧
      (∀ q, r = some q → q < n ∧ ∃ e, s q = some e ∧ same e.elem = true) ∧
      (r = none → ∀ q < n, ∀ e, s q = some e → e.home = b → same e.elem = false) := by
  obtain ⟨r, hr, hsome, hnone⟩ := seek_stops probe same hb he₀ hempty n b hb
    (gap_lt hb he₀) (by simp)
  rw [gap_self] at hr
  refine ⟨r, hr, hsome, ?_⟩
  intro hrn q hq e he hhome
  obtain ⟨q', hq', hstop, hbefore⟩ := hnone hrn
  subst hhome
  rcases Nat.lt_trichotomy (gap n e.home q) (gap n e.home q') with hlt | heq | hgt
  · obtain ⟨f, hf, hsame⟩ := hbefore q hq hlt
    rw [he, Option.some.injEq] at hf
    exact hf ▸ hsame
  · have hqq := gap_inj hb hq hq' heq
    subst hqq
    have := hstop e he
    have := hp.gap_le hq hb
    omega
  · obtain ⟨f, hf, hle⟩ := hs.path q hq e he q' hq' hgt
    have := hstop f hf
    omega

/-! ## Insertion -/

/-- What is asked of `swap`: it displaces residents that are no further from home, and passes those
that are no closer. -/
structure SwapOk (swap : ℕ → ℕ → Bool) : Prop where
  displaced : ∀ j p, swap j p = true → p ≤ j
  passed : ∀ j p, swap j p = false → j ≤ p

/-- An entry that may stand at an empty slot is put there. Kind: L -/
theorem Ordered.place (hs : Ordered n probe s) {i : ℕ} {c : Entry α}
    (hc : c.home < n) (hpath : PathOk n probe s c i) (hempty : s i = none) :
    Ordered n probe (set s i (some c)) where
  home_lt k hk e he := by
    by_cases hki : k = i
    · subst hki
      rw [set_self, Option.some.injEq] at he
      exact he ▸ hc
    · rw [set_of_ne hki] at he
      exact hs.home_lt k hk e he
  path k hk e he := by
    intro j hj hjk
    by_cases hki : k = i
    · subst hki
      rw [set_self, Option.some.injEq] at he
      subst he
      obtain ⟨f, hf, hle⟩ := hpath j hj hjk
      have hji : j ≠ k := by rintro rfl; simp [hempty] at hf
      exact ⟨f, by rw [set_of_ne hji]; exact hf, hle⟩
    · rw [set_of_ne hki] at he
      obtain ⟨f, hf, hle⟩ := hs.path k hk e he j hj hjk
      have hji : j ≠ i := by rintro rfl; simp [hempty] at hf
      exact ⟨f, by rw [set_of_ne hji]; exact hf, hle⟩

/-- An entry that may stand at a slot takes it from a resident that is no further from home.
Kind: L -/
theorem Ordered.displace (hs : Ordered n probe s) (hp : ProbeOk n probe) {i : ℕ} {c e : Entry α}
    (hc : c.home < n) (hi : i < n) (hpath : PathOk n probe s c i) (he : s i = some e)
    (hle : probe i e.home ≤ gap n c.home i) :
    Ordered n probe (set s i (some c)) where
  home_lt k hk f hf := by
    by_cases hki : k = i
    · subst hki
      rw [set_self, Option.some.injEq] at hf
      exact hf ▸ hc
    · rw [set_of_ne hki] at hf
      exact hs.home_lt k hk f hf
  path k hk f hf := by
    intro j hj hjk
    by_cases hki : k = i
    · subst hki
      rw [set_self, Option.some.injEq] at hf
      subst hf
      obtain ⟨g, hg, hgle⟩ := hpath j hj hjk
      have hji : j ≠ k := by rintro rfl; omega
      exact ⟨g, by rw [set_of_ne hji]; exact hg, hgle⟩
    · rw [set_of_ne hki] at hf
      obtain ⟨g, hg, hgle⟩ := hs.path k hk f hf j hj hjk
      by_cases hji : j = i
      · subst hji
        rw [he, Option.some.injEq] at hg
        subst hg
        have := hp.gap_le hi hc
        exact ⟨c, by simp, by omega⟩
      · exact ⟨g, by rw [set_of_ne hji]; exact hg, hgle⟩

/-- Writing a taken slot exchanges its entry. Kind: L -/
theorem contents_set {i : ℕ} {c e : Entry α} (hi : i < n) (he : s i = some e) :
    ∃ others, List.Perm (contents n s) (e :: others) ∧
      List.Perm (contents n (set s i (some c))) (c :: others) := by
  have hin := contents_update_some (s := Function.update s i none) c hi (by simp)
  rw [Function.update_idem] at hin
  exact ⟨_, contents_update_none hi he, by rw [set_eq_update]; exact hin⟩

/-- Neither of two entries is taken for the other. -/
def Distinct (same : α → α → Bool) (e f : Entry α) : Prop :=
  same e.elem f.elem = false ∧ same f.elem e.elem = false

theorem Distinct.symm {same : α → α → Bool} {e f : Entry α} (h : Distinct same e f) :
    Distinct same f e := ⟨h.2, h.1⟩

/-- The way to the next slot, past a resident at least as far from home. Kind: L -/
theorem PathOk.next {i : ℕ} {c f : Entry α} (hpath : PathOk n probe s c i) (hc : c.home < n)
    (hi : i < n) (hf : s i = some f) (hle : gap n c.home i ≤ probe i f.home)
    (hgap : gap n c.home (incr n i) = gap n c.home i + 1) : PathOk n probe s c (incr n i) := by
  intro j hj hji
  rw [hgap] at hji
  rcases gap_lt_succ hc hi hj hji with rfl | hji
  · exact ⟨f, hf, hle⟩
  · exact hpath j hj hji

theorem PathOk.taken {i : ℕ} {c : Entry α} (hpath : PathOk n probe s c i) :
    ∀ k < n, gap n c.home k < gap n c.home i → s k ≠ none := by
  intro k hk hki
  obtain ⟨f, hf, -⟩ := hpath k hk hki
  simp [hf]

/-- The loop of an insertion, with the entry carried to slot `i`. Kind: L -/
theorem insertLoop_carries {swap : ℕ → ℕ → Bool} {same : α → α → Bool} (replace : Bool)
    (hswap : SwapOk swap) (hp : ProbeOk n probe) {e₀ : ℕ} (he₀ : e₀ < n) :
    ∀ (fuel : ℕ) (s : ℕ → Option (Entry α)) (i : ℕ) (c : Entry α), Ordered n probe s → i < n →
      c.home < n → PathOk n probe s c i → s e₀ = none → gap n i e₀ < fuel →
      (c :: contents n s).Pairwise (Distinct same) →
      ∃ s' k, insertLoop n probe swap same replace fuel s i (gap n c.home i) c =
          some (s', k, true) ∧ Ordered n probe s' ∧
        List.Perm (contents n s') (c :: contents n s) := by
  intro fuel
  induction fuel with
  | zero => intro s i c _ _ _ _ _ hlt; omega
  | succ fuel ih =>
      intro s i c hs hi hc hpath hempty hlt hdistinct
      rw [insertLoop]
      cases hsi : s i with
      | none =>
          refine ⟨set s i (some c), i, rfl, hs.place hc hpath hsi, ?_⟩
          rw [set_eq_update]
          exact contents_update_some c hi hsi
      | some e =>
          have hmem : e ∈ contents n s := mem_contents.mpr ⟨i, hi, hsi⟩
          have hsame : same e.elem c.elem = false :=
            ((List.pairwise_cons.mp hdistinct).1 e hmem).2
          have he := hs.home_lt i hi e hsi
          have hne : i ≠ e₀ := by rintro rfl; simp [hsi] at hempty
          have hcloser := gap_incr hi he₀ hne
          simp only [hsame, Bool.false_eq_true, if_false, add_one_mod hi]
          by_cases hsw : swap (gap n c.home i) (probe i e.home) = true
          · -- the resident is carried on, from its own distance
            rw [if_pos hsw]
            have hle := hswap.displaced _ _ hsw
            have hexact : probe i e.home = gap n e.home i := by
              have := gap_lt hc hi
              rcases hp i hi e.home he with h | h
              · exact h
              · omega
            have hset : set s i (some c) i = some c := set_self _ _ _
            have hpathe : PathOk n probe (set s i (some c)) e i := by
              intro j hj hji
              obtain ⟨f, hf, hfle⟩ := hs.path i hi e hsi j hj hji
              have hne' : j ≠ i := by rintro rfl; omega
              exact ⟨f, by rw [set_of_ne hne']; exact hf, hfle⟩
            have hempty' : set s i (some c) e₀ = none := by
              rw [set_of_ne hne.symm]
              exact hempty
            obtain ⟨hnext, hgap⟩ := gap_next he hi he₀ hempty' (by simp) hpathe.taken
            have hfar : gap n e.home i ≤ probe i c.home := by
              have := hp.gap_le hi hc
              omega
            have hperm : List.Perm (e :: contents n (set s i (some c))) (c :: contents n s) := by
              obtain ⟨others, hout, hin⟩ := contents_set (c := c) hi hsi
              exact ((hin.cons e).trans (List.Perm.swap c e _)).trans (hout.symm.cons c)
            have hdistinct' : (e :: contents n (set s i (some c))).Pairwise (Distinct same) :=
              (hperm.pairwise_iff Distinct.symm).mpr hdistinct
            obtain ⟨s', k, hrun, hs', hcontents⟩ := ih (set s i (some c)) (incr n i) e
              (hs.displace hp hc hi hpath hsi hle) hnext he
              (hpathe.next he hi hset hfar hgap) hempty' (by omega) hdistinct'
            refine ⟨s', k, ?_, hs', hcontents.trans hperm⟩
            rw [hexact, ← hgap]
            exact hrun
          · rw [if_neg hsw]
            have hle : gap n c.home i ≤ probe i e.home := hswap.passed _ _ (by simpa using hsw)
            obtain ⟨hnext, hgap⟩ := gap_next hc hi he₀ hempty (by simp [hsi]) hpath.taken
            obtain ⟨s', k, hrun, hs', hcontents⟩ := ih s (incr n i) c hs hnext hc
              (hpath.next hc hi hsi hle hgap) hempty (by omega) hdistinct
            exact ⟨s', k, by rw [← hgap]; exact hrun, hs', hcontents⟩

/-- **An entry that is not there yet is added.** Kind: P -/
theorem insertLoop_absent {swap : ℕ → ℕ → Bool} {same : α → α → Bool} (replace : Bool)
    (hswap : SwapOk swap) (hp : ProbeOk n probe) (hs : Ordered n probe s) {e₀ : ℕ} (he₀ : e₀ < n)
    (hempty : s e₀ = none) {c : Entry α} (hc : c.home < n)
    (hdistinct : (c :: contents n s).Pairwise (Distinct same)) :
    ∃ s' k, insertLoop n probe swap same replace n s c.home 0 c = some (s', k, true) ∧
      Ordered n probe s' ∧ List.Perm (contents n s') (c :: contents n s) := by
  have h := insertLoop_carries replace hswap hp he₀ n s c.home c hs hc hc
    (fun j hj hlt => by simp at hlt) hempty (gap_lt hc he₀) hdistinct
  rwa [gap_self] at h

/-- **An entry that is met on the way of its home is replaced**, where nothing is displaced before
it. Kind: P -/
theorem insertLoop_present (swap : ℕ → ℕ → Bool) {same : α → α → Bool} (replace : Bool)
    (hs : Ordered n probe s) {q : ℕ} {c e : Entry α} (hq : q < n) (he : s q = some e)
    (hhome : e.home = c.home) (hsame : same e.elem c.elem = true)
    (hpass : ∀ k < n, gap n c.home k < gap n c.home q → ∀ f, s k = some f →
      same f.elem c.elem = false ∧ swap (gap n c.home k) (probe k f.home) = false) :
    insertLoop n probe swap same replace n s c.home 0 c =
      some (if replace then set s q (some c) else s, q, false) := by
  have hc : c.home < n := hhome ▸ hs.home_lt q hq e he
  suffices h : ∀ fuel i, i < n → gap n i q < fuel → gap n c.home i + gap n i q = gap n c.home q →
      insertLoop n probe swap same replace fuel s i (gap n c.home i) c =
        some (if replace then set s q (some c) else s, q, false) by
    have := h n c.home hc (gap_lt hc hq) (by simp)
    rwa [gap_self] at this
  intro fuel
  induction fuel with
  | zero => intro i _ hlt; omega
  | succ fuel ih =>
      intro i hi hlt hbetween
      rw [insertLoop]
      by_cases hiq : i = q
      · subst hiq
        simp [he, hsame]
      · have hcloser := gap_incr hi hq hiq
        have hbefore : gap n c.home i < gap n c.home q := by omega
        obtain ⟨f, hf, -⟩ := hs.path q hq e he i hi (by rw [hhome]; exact hbefore)
        obtain ⟨hnot, hsw⟩ := hpass i hi hbefore f hf
        have hgap : gap n c.home (incr n i) = gap n c.home i + 1 := by
          apply gap_incr_right hc hi
          intro hround
          have := gap_lt hc hq
          have hlast : gap n c.home i + 1 = n := by
            rw [← hround]
            unfold gap incr
            split_ifs <;> omega
          omega
        simp only [hf, hnot, hsw, Bool.false_eq_true, if_false, add_one_mod hi, ← hgap]
        exact ih (incr n i) (incr_lt (by omega)) (by omega) (by omega)

/-- An entry gives way to one of the same home. Kind: L -/
theorem Ordered.replace (hs : Ordered n probe s) {q : ℕ} {c e : Entry α} (hq : q < n)
    (he : s q = some e) (hhome : e.home = c.home) : Ordered n probe (set s q (some c)) := by
  -- every slot holds an entry of the same home as before
  have hback : ∀ k f, set s q (some c) k = some f → ∃ g, s k = some g ∧ g.home = f.home := by
    intro k f hf
    by_cases hkq : k = q
    · subst hkq
      rw [set_self, Option.some.injEq] at hf
      exact ⟨e, he, by rw [hhome, hf]⟩
    · rw [set_of_ne hkq] at hf
      exact ⟨f, hf, rfl⟩
  have hforth : ∀ k g, s k = some g → ∃ f, set s q (some c) k = some f ∧ f.home = g.home := by
    intro k g hg
    by_cases hkq : k = q
    · subst hkq
      rw [he, Option.some.injEq] at hg
      exact ⟨c, by simp, by rw [← hhome, hg]⟩
    · exact ⟨g, by rw [set_of_ne hkq]; exact hg, rfl⟩
  constructor
  · intro k hk f hf
    obtain ⟨g, hg, hgf⟩ := hback k f hf
    exact hgf ▸ hs.home_lt k hk g hg
  · intro k hk f hf j hj hjk
    obtain ⟨g, hg, hgf⟩ := hback k f hf
    rw [← hgf] at hjk ⊢
    obtain ⟨r, hr, hle⟩ := hs.path k hk g hg j hj hjk
    obtain ⟨r', hr', hrr⟩ := hforth j r hr
    exact ⟨r', hr', by rw [hrr]; exact hle⟩

/-! ## Deletion -/

/-- The invariant around a hole: a path may be interrupted there. -/
structure OrderedBut (n : ℕ) (probe : ℕ → ℕ → ℕ) (s : ℕ → Option (Entry α)) (h : ℕ) : Prop where
  hole : s h = none
  home_lt : ∀ i < n, ∀ e, s i = some e → e.home < n
  path : ∀ i < n, ∀ e, s i = some e → ∀ j < n, gap n e.home j < gap n e.home i →
    j = h ∨ ∃ f, s j = some f ∧ gap n e.home j ≤ probe j f.home

theorem OrderedBut.start (hs : Ordered n probe s)
    (q : ℕ) : OrderedBut n probe (set s q none) q where
  hole := set_self _ _ _
  home_lt i hi e he := by
    have hiq : i ≠ q := by rintro rfl; simp at he
    rw [set_of_ne hiq] at he
    exact hs.home_lt i hi e he
  path i hi e he j hj hji := by
    have hiq : i ≠ q := by rintro rfl; simp at he
    rw [set_of_ne hiq] at he
    by_cases hjq : j = q
    · exact Or.inl hjq
    · obtain ⟨f, hf, hle⟩ := hs.path i hi e he j hj hji
      exact Or.inr ⟨f, by rw [set_of_ne hjq]; exact hf, hle⟩

/-- The entry behind the hole `h` may be moved into it: the entries behind it that have passed the
hole may pass it there. -/
def MoveOk (n : ℕ) (probe : ℕ → ℕ → ℕ) (s : ℕ → Option (Entry α)) (h : ℕ) (f : Entry α) : Prop :=
  ∀ i < n, ∀ e, s i = some e → i ≠ incr n h → gap n e.home h < gap n e.home i →
    gap n e.home h ≤ probe h f.home

/-- From a home that is not the slot behind the hole, that slot is one further than the hole.
Kind: L -/
theorem gap_hole {b h : ℕ} (hb : b < n) (hh : h < n) (hne : b ≠ incr n h) :
    gap n b (incr n h) = gap n b h + 1 := gap_incr_right hb hh hne.symm

/-- An entry that has passed the hole has passed the slot behind it, or stands there. Kind: L -/
theorem gap_past {b h i : ℕ} (hb : b < n) (hh : h < n) (hi : i < n)
    (hlt : gap n b h < gap n b i) : gap n b (incr n h) = gap n b h + 1 ∧
      (i ≠ incr n h → gap n b (incr n h) < gap n b i) := by
  have hne : b ≠ incr n h := by
    rintro rfl
    have hlast : gap n (incr n h) h + 1 = n := by
      unfold gap incr
      split_ifs <;> omega
    have := gap_lt hb hi
    omega
  have hgap := gap_hole hb hh hne
  refine ⟨hgap, fun hini => ?_⟩
  have : gap n b (incr n h) ≠ gap n b i :=
    fun h0 => hini (gap_inj hb (incr_lt (by omega)) hi h0).symm
  omega

theorem OrderedBut.move (hp : ProbeOk n probe) {h : ℕ} {f : Entry α} (hs : OrderedBut n probe s h)
    (hh : h < n) (hf : s (incr n h) = some f) (haway : 0 < probe (incr n h) f.home)
    (hmove : MoveOk n probe s h f) :
    OrderedBut n probe (set (set s h (some f)) (incr n h) none) (incr n h) := by
  have hni : incr n h < n := incr_lt (by omega)
  have hhni : h ≠ incr n h := by
    intro heq
    rw [← heq, hs.hole] at hf
    simp at hf
  have hfh := hs.home_lt _ hni f hf
  have hne : f.home ≠ incr n h := by
    intro heq
    rcases hp (incr n h) hni f.home hfh with h0 | ⟨h0, -⟩
    · rw [h0, heq, gap_self] at haway
      omega
    · exact h0 heq.symm
  have hgap := gap_hole hfh hh hne
  -- an entry of the new ring is the moved one, or stands where it was
  have hcases : ∀ i e, set (set s h (some f)) (incr n h) none i = some e →
      (i = h ∧ e = f) ∨ (i ≠ h ∧ i ≠ incr n h ∧ s i = some e) := by
    intro i e he
    have hini : i ≠ incr n h := by rintro rfl; simp at he
    rw [set_of_ne hini] at he
    by_cases hih : i = h
    · subst hih
      rw [set_self, Option.some.injEq] at he
      exact Or.inl ⟨rfl, he.symm⟩
    · rw [set_of_ne hih] at he
      exact Or.inr ⟨hih, hini, he⟩
  have hkeep : ∀ j, j ≠ h → j ≠ incr n h → set (set s h (some f)) (incr n h) none j = s j := by
    intro j hjh hjni
    rw [set_of_ne hjni, set_of_ne hjh]
  constructor
  · exact set_self _ _ _
  · intro i hi e he
    rcases hcases i e he with ⟨rfl, rfl⟩ | ⟨-, -, he⟩
    · exact hfh
    · exact hs.home_lt i hi e he
  · intro i hi e he j hj hji
    by_cases hjni : j = incr n h
    · exact Or.inl hjni
    right
    rcases hcases i e he with ⟨rfl, rfl⟩ | ⟨hih, hini, hei⟩
    · have hjh : j ≠ i := by rintro rfl; omega
      rcases hs.path _ hni e hf j hj (by omega) with hjh' | ⟨g, hg, hle⟩
      · exact absurd hjh' hjh
      · exact ⟨g, by rw [hkeep j hjh hjni]; exact hg, hle⟩
    · by_cases hjh : j = h
      · subst hjh
        exact ⟨f, by rw [set_of_ne hhni]; simp, hmove i hi e hei hini hji⟩
      · rcases hs.path i hi e hei j hj hji with hjh' | ⟨g, hg, hle⟩
        · exact absurd hjh' hjh
        · exact ⟨g, by rw [hkeep j hjh hjni]; exact hg, hle⟩

/-- The shift stops in front of an empty slot or of an entry at home: no path is interrupted any
more. Kind: L -/
theorem OrderedBut.stop (hp : ProbeOk n probe) {h : ℕ} (hs : OrderedBut n probe s h) (hh : h < n)
    (hstop : ∀ f, s (incr n h) = some f → probe (incr n h) f.home = 0) : Ordered n probe s where
  home_lt := hs.home_lt
  path := by
    intro i hi e he j hj hji
    rcases hs.path i hi e he j hj hji with rfl | hok
    · exfalso
      have hni : incr n j < n := incr_lt (by omega)
      have heh := hs.home_lt i hi e he
      -- the slot behind the hole is on the way too, or it is the slot of the entry
      obtain ⟨hgap, hpast⟩ := gap_past heh hh hi hji
      have hfar : ∀ f, s (incr n j) = some f → gap n e.home (incr n j) ≤ probe (incr n j) f.home →
          False := by
        intro f hf hle
        rw [hstop f hf] at hle
        omega
      by_cases hij : i = incr n j
      · subst hij
        exact hfar e he (hp.gap_le hni heh)
      · rcases hs.path i hi e he _ hni (hpast hij) with hjj | ⟨f, hf, hle⟩
        · rw [hjj] at hgap
          omega
        · exact hfar f hf hle
    · exact hok

/-- Every move of the shift is allowed. -/
def MovesOk (n : ℕ) (probe : ℕ → ℕ → ℕ) : ℕ → (ℕ → Option (Entry α)) → ℕ → Prop
  | 0, _, _ => True
  | fuel + 1, s, h =>
      ∀ f, s (incr n h) = some f → 0 < probe (incr n h) f.home →
        MoveOk n probe s h f ∧
          MovesOk n probe fuel (set (set s h (some f)) (incr n h) none) (incr n h)

/-- The loop of the shift, with the hole at `h`. Kind: L -/
theorem shiftLoop_closes (hp : ProbeOk n probe) {e₀ : ℕ} (he₀ : e₀ < n) :
    ∀ (fuel : ℕ) (s : ℕ → Option (Entry α)) (h : ℕ), OrderedBut n probe s h → h < n → h ≠ e₀ →
      s e₀ = none → gap n h e₀ < fuel → MovesOk n probe fuel s h →
      ∃ s', shiftLoop n probe fuel s h = some s' ∧ Ordered n probe s' ∧
        List.Perm (contents n s') (contents n s) := by
  intro fuel
  induction fuel with
  | zero => intro s h _ _ _ _ hlt; omega
  | succ fuel ih =>
      intro s h hs hh hne hempty hlt hmoves
      have hni : incr n h < n := incr_lt (by omega)
      rw [shiftLoop]
      simp only [add_one_mod hh]
      cases hsn : s (incr n h) with
      | none => exact ⟨s, rfl, hs.stop hp hh (by simp [hsn]), List.Perm.refl _⟩
      | some f =>
          by_cases haway : 0 < probe (incr n h) f.home
          · obtain ⟨hmove, hrest⟩ := hmoves f hsn haway
            have hcloser := gap_incr hh he₀ hne
            have hne' : incr n h ≠ e₀ := by
              rintro heq
              rw [heq, hempty] at hsn
              simp at hsn
            have hempty' : set (set s h (some f)) (incr n h) none e₀ = none := by
              rw [set_of_ne hne'.symm, set_of_ne hne.symm]
              exact hempty
            obtain ⟨s', hrun, hs', hperm⟩ := ih _ _ (hs.move hp hh hsn haway hmove) hni hne' hempty'
              (by omega) hrest
            refine ⟨s', by simp [haway, hrun], hs', hperm.trans ?_⟩
            rw [set_eq_update, set_eq_update]
            exact contents_move hh hni hs.hole hsn
          · refine ⟨s, by simp [haway], hs.stop hp hh ?_, List.Perm.refl _⟩
            intro g hg
            rw [hsn, Option.some.injEq] at hg
            subst hg
            omega

/-- **A deletion takes one entry out and keeps the invariant.** Kind: P -/
theorem shiftLoop_spec (hp : ProbeOk n probe) (hs : Ordered n probe s) {q e₀ : ℕ} {e : Entry α}
    (hq : q < n) (he : s q = some e) (he₀ : e₀ < n) (hempty : s e₀ = none)
    (hmoves : MovesOk n probe n (set s q none) q) :
    ∃ s', shiftLoop n probe n (set s q none) q = some s' ∧ Ordered n probe s' ∧
      List.Perm (contents n s) (e :: contents n s') := by
  have hne : q ≠ e₀ := by rintro rfl; simp [he] at hempty
  have hempty' : set s q none e₀ = none := by
    rw [set_of_ne hne.symm]
    exact hempty
  obtain ⟨s', hrun, hs', hperm⟩ := shiftLoop_closes hp he₀ n _ q (OrderedBut.start hs q) hq hne
    hempty' (gap_lt hq he₀) hmoves
  refine ⟨s', hrun, hs', ?_⟩
  have hout := contents_update_none hq he
  rw [← set_eq_update] at hout
  exact hout.trans (hperm.symm.cons e)

/-- Where `probe` is the distance, every move is allowed. Kind: L -/
theorem movesOk_of_gap (hp : ∀ i < n, ∀ b < n, probe i b = gap n b i) :
    ∀ (fuel : ℕ) (s : ℕ → Option (Entry α)) (h : ℕ), OrderedBut n probe s h → h < n →
      MovesOk n probe fuel s h := by
  have hp' : ProbeOk n probe := fun i hi b hb => Or.inl (hp i hi b hb)
  intro fuel
  induction fuel with
  | zero => intro s h _ _; trivial
  | succ fuel ih =>
      intro s h hs hh f hf haway
      have hni : incr n h < n := incr_lt (by omega)
      have hfh := hs.home_lt _ hni f hf
      have hmove : MoveOk n probe s h f := by
        intro i hi e he hini hlt
        obtain ⟨hgap, hpast⟩ := gap_past (hs.home_lt i hi e he) hh hi hlt
        rcases hs.path i hi e he _ hni (hpast hini) with hjj | ⟨g, hg, hle⟩
        · rw [hjj] at hgap
          omega
        · rw [hf, Option.some.injEq] at hg
          subst hg
          rw [hp _ hni _ hfh] at hle haway
          have hfne : f.home ≠ incr n h := by
            intro heq
            rw [heq, gap_self] at haway
            omega
          rw [hp _ hh _ hfh]
          have := gap_hole hfh hh hfne
          omega
      exact ⟨hmove, ih _ _ (hs.move hp' hh hf haway hmove) hni⟩

end lemmas

end CxyCompiler.Lib.RobinHood
