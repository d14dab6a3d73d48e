import CxyCompiler.Stdlib.Args
import Mathlib.Data.List.TakeWhile
import Mathlib.Data.Nat.Digits.Defs
import Mathlib.Tactic.IntervalCases

/-!
# What a list of arguments denotes

Read from left to right, an argument list is a list of events: a flag is set, an argument is kept, a
command is entered. `Reads` says which spellings make which events, and `Command.after` where they
lead.

* `Denotes`: the value that a text denotes, by the type of the flag.
* `Occurs`: what an argument with a dash sets, alone or with the argument behind.
* **`parseArgs_reads`**: a list that the loop accepts reads as events, and the loop ends where they
  lead.

Source: `stdlib/args.cxy`.
-/

namespace CxyCompiler.Stdlib.Args

/-! ## Values -/

/-- The text of an integer in decimal. -/
inductive IntText : Text → ℤ → Prop
  | digits {ds : List ℕ} : ds ≠ [] → (∀ d ∈ ds, d < 10) →
      IntText (ds.map Nat.digitChar) (Nat.ofDigits 10 ds.reverse : ℕ)
  | negative {ds : List ℕ} : ds ≠ [] → (∀ d ∈ ds, d < 10) →
      IntText ('-' :: ds.map Nat.digitChar) (-(Nat.ofDigits 10 ds.reverse : ℕ))

/-- The value that a text denotes for a flag with that default. -/
inductive Denotes : FlagValue → Text → FlagValue → Prop
  | string {s : Text} {v : Text} : Denotes (.string s) v (.string v)
  | true {b : Bool} {v : Text} : v ∈ [['t', 'r', 'u', 'e'], ['1']] →
    Denotes (.bool b) v (.bool true)
  | false {b : Bool} {v : Text} : v ∈ [['f', 'a', 'l', 's', 'e'], ['0']] →
    Denotes (.bool b) v (.bool false)
  | int {i x : ℤ} {v : Text} : (∀ z, IntText v z → -2 ^ 63 ≤ z → z < 2 ^ 63 → x = z) →
      Denotes (.int i) v (.int x)

theorem wrap_of_range {z : ℤ} (h₁ : -2 ^ 63 ≤ z) (h₂ : z < 2 ^ 63) : wrap z = z := by
  refine Int.bmod_eq_of_le ?_ ?_ <;> omega

theorem wrap_step (z : ℤ) (d : ℕ) : wrap (wrap z * 10 + d) = wrap (z * 10 + d) := by
  unfold wrap
  rw [← Int.bmod_add_bmod, Int.bmod_mul_bmod, Int.bmod_add_bmod]

theorem wrap_neg (z : ℤ) : wrap (-wrap z) = wrap (-z) := by
  unfold wrap
  exact Int.bmod_neg_bmod

theorem digitChar_range {d : ℕ} (h : d < 10) :
    (d.digitChar < '0' || '9' < d.digitChar) = false ∧ d.digitChar.toNat - '0'.toNat = d := by
  interval_cases d <;> decide

theorem digitChar_ne_dash {d : ℕ} (h : d < 10) : d.digitChar ≠ '-' := by
  interval_cases d <;> decide

theorem parseDigits_eq : ∀ (ds : List ℕ) (z : ℤ), (∀ d ∈ ds, d < 10) →
    parseDigits (wrap z) (ds.map Nat.digitChar) =
      some (wrap (z * 10 ^ ds.length + (Nat.ofDigits 10 ds.reverse : ℕ)))
  | [], z, _ => by simp [parseDigits]
  | d :: ds, z, h => by
      obtain ⟨hrange, hval⟩ := digitChar_range (h d List.mem_cons_self)
      have hrest := parseDigits_eq ds (z * 10 + d) fun e he => h e (List.mem_cons_of_mem _ he)
      rw [List.map_cons, parseDigits, hrange, if_neg Bool.false_ne_true, hval, wrap_step, hrest,
        List.reverse_cons, Nat.ofDigits_append, List.length_reverse,
          Nat.ofDigits_singleton, List.length_cons]
      congr 2
      push_cast
      ring

theorem parseInt_eq {v : Text} {z : ℤ} (h : IntText v z) : parseInt v = some (wrap z) := by
  have hzero : (0 : ℤ) = wrap 0 := rfl
  cases h with
  | @digits ds hne hlt =>
      cases ds with
      | nil => exact absurd rfl hne
      | cons d ds =>
          have hall := parseDigits_eq (d :: ds) 0 hlt
          rw [zero_mul, zero_add] at hall
          rw [← hall, List.map_cons, parseInt]
          · rfl
          · exact List.cons_ne_nil _ _
          · intro s hs
            exact digitChar_ne_dash (hlt d List.mem_cons_self) (List.cons.inj hs).1
  | @negative ds hne hlt =>
      have hall := parseDigits_eq ds 0 hlt
      rw [zero_mul, zero_add] at hall
      rw [parseInt, hzero, hall, Option.map_some, wrap_neg]

/-- An integer in range is stored as it is. Kind: L -/
theorem denotes_int {i x : ℤ} {v : Text}
    (h : parseInt v = some x) : Denotes (.int i) v (.int x) := by
  refine .int fun z hz hlow hhigh => ?_
  rw [parseInt_eq hz, wrap_of_range hlow hhigh] at h
  exact (Option.some.inj h).symm

theorem parseLongFlag_value {c d : Command} {n v : Text} (h : c.parseLongFlag n v true = .ok d) :
    ∃ g x, c.flag n = some g ∧ Denotes g.defaultValue v x ∧ d = c.set n x := by
  unfold Command.parseLongFlag at h
  split at h
  · cases h
  · rename_i g hg
    refine ⟨g, ?_⟩
    split at h <;> rename_i hdefault <;> rw [hdefault]
    · rw [if_pos rfl] at h
      split at h
      · rename_i htrue
        exact ⟨_, hg, .true (by simpa using htrue), (Except.ok.inj h).symm⟩
      · split at h
        · rename_i hfalse
          exact ⟨_, hg, .false (by simpa using hfalse), (Except.ok.inj h).symm⟩
        · cases h
    · rw [if_neg (by decide)] at h
      split at h
      · cases h
      · rename_i hint
        exact ⟨_, hg, denotes_int hint, (Except.ok.inj h).symm⟩
    · rw [if_neg (by decide)] at h
      exact ⟨_, hg, .string, (Except.ok.inj h).symm⟩

theorem parseLongFlag_bare {c d : Command} {n v : Text} (h : c.parseLongFlag n v false = .ok d) :
    ∃ g, c.flag n = some g ∧ g.defaultValue.isBool = true ∧ d = c.set n (.bool true) := by
  unfold Command.parseLongFlag at h
  split at h
  · cases h
  · rename_i g hg
    refine ⟨g, hg, ?_⟩
    split at h <;> rename_i hdefault <;> rw [hdefault]
    · exact ⟨rfl, (Except.ok.inj h).symm⟩
    · cases h
    · cases h

/-! ## Flags -/

/-- The value of a flag, given by the argument behind or by its own absence, and what is behind
that. -/
inductive Single (c : Command) (f : Flag) (n : Text) : List Text → List Text → FlagValue → Prop
  | value {g : Flag} {v : Text} {x : FlagValue}
    {rest : List Text} : c.flag n = some g → f.takes v = true →
      Denotes g.defaultValue v x → Single c f n (v :: rest) rest x
  | bare {g : Flag} {rest : List Text} : c.flag n = some g → (∀ v ∈ rest.head?, f.takes v = false) →
      g.defaultValue.isBool = true → Single c f n rest rest (.bool true)

/-- The arguments behind, when the first of them was used or not. -/
def behind (used : Bool) (rest : List Text) : List Text := if used then rest.tail else rest

theorem parseValue_single {c d : Command} {f : Flag} {n : Text} {rest : List Text} {used : Bool}
    (h : c.parseValue f n rest.head? = .ok (d, used)) :
    ∃ x, Single c f n rest (behind used rest) x ∧ d = c.set n x := by
  have hbare : (∀ v ∈ rest.head?, f.takes v = false) →
      (c.parseLongFlag n [] false).map (fun c => (c, false)) = .ok (d, used) →
      ∃ x, Single c f n rest (behind used rest) x ∧ d = c.set n x := by
    intro hnot hmap
    cases hflag : c.parseLongFlag n [] false with
    | error e =>
        rw [hflag] at hmap
        cases hmap
    | ok d' =>
        rw [hflag] at hmap
        obtain ⟨rfl, rfl⟩ := Prod.mk.inj (Except.ok.inj hmap)
        obtain ⟨g, hg, hbool, rfl⟩ := parseLongFlag_bare hflag
        exact ⟨_, .bare hg hnot hbool, rfl⟩
  cases rest with
  | nil => exact hbare (fun v hv => absurd hv (Option.not_mem_none v)) h
  | cons v rest =>
      change (if f.takes v = true then _ else _) = _ at h
      split at h
      · rename_i htakes
        cases hflag : c.parseLongFlag n v true with
        | error e =>
            rw [hflag] at h
            cases h
        | ok d' =>
            rw [hflag] at h
            obtain ⟨rfl, rfl⟩ := Prod.mk.inj (Except.ok.inj h)
            obtain ⟨g, x, hg, hdenotes, rfl⟩ := parseLongFlag_value hflag
            exact ⟨x, .value hg htakes hdenotes, rfl⟩
      · rename_i htakes
        refine hbare (fun w hw => ?_) h
        rw [List.head?_cons, Option.mem_some_iff] at hw
        exact hw ▸ Bool.of_not_eq_true htakes

def long (n : Text) : Text := '-' :: '-' :: n

/-- A long flag with its value. -/
def longWith (n v : Text) : Text := long n ++ '=' :: v

def short (ch : Char) : Text := ['-', ch]

def Command.setAll (c : Command) (sets : List (Text × FlagValue)) : Command :=
  sets.foldl (fun c e => c.set e.1 e.2) c

/-- The flags of a group that take no value. -/
def Switches (c : Command) : List Char → List Flag → Prop :=
  List.Forall₂ fun ch f => c.findFlagByShorthand ch = some f ∧ f.defaultValue.isBool = true

def switched (fs : List Flag) : List (Text × FlagValue) := fs.map fun f => (f.name, .bool true)

/-- What an argument with a dash sets, with what is behind it. -/
inductive Occurs (c : Command) : Text → List Text → List Text → List (Text × FlagValue) → Prop
  | longWith {n v : Text} {g : Flag} {x : FlagValue}
    {rest : List Text} : '=' ∉ n → c.flag n = some g →
      Denotes g.defaultValue v x → Occurs c (longWith n v) rest rest [(n, x)]
  | long {n : Text} {f : Flag} {x : FlagValue} {rest tail : List Text} :
    '=' ∉ n → c.flag n = some f →
      Single c f n rest tail x → Occurs c (long n) rest tail [(n, x)]
  | short {ch : Char} {f : Flag} {x : FlagValue} {rest tail : List Text} : ch ≠ '-' →
      c.findFlagByShorthand ch = some f → Single c f f.name rest tail x →
      Occurs c (short ch) rest tail [(f.name, x)]
  | group {chs : List Char} {fs : List Flag} {rest : List Text} :
    chs.head? ≠ some '-' → 2 ≤ chs.length →
      Switches c chs fs → Occurs c ('-' :: chs) rest rest (switched fs)
  | groupWith {chs : List Char} {ch : Char} {fs : List Flag} {f : Flag} {x : FlagValue}
      {rest tail : List Text} : chs.head? ≠ some '-' → chs ≠ [] → Switches c chs fs →
      c.findFlagByShorthand ch = some f → f.defaultValue.isBool = false →
      Single (c.setAll (switched fs)) f f.name rest tail x →
      Occurs c ('-' :: (chs ++ [ch])) rest tail (switched fs ++ [(f.name, x)])

/-- A text in two parts at its first `=`. Kind: L -/
theorem split_at_eq (arg : Text) :
    (arg.dropWhile (· != '=') = [] ∧ '=' ∉ arg) ∨
      ∃ n v, arg = n ++ '=' :: v ∧ '=' ∉ n ∧ arg.takeWhile (· != '=') = n ∧
        arg.dropWhile (· != '=') = '=' :: v := by
  have hparts := List.takeWhile_append_dropWhile (p := (· != '=')) (l := arg)
  have hfront : '=' ∉ arg.takeWhile (· != '=') :=
    fun h => absurd (List.mem_takeWhile_imp h) (by decide)
  cases hdrop : arg.dropWhile (· != '=') with
  | nil =>
      rw [hdrop, List.append_nil] at hparts
      exact .inl ⟨rfl, hparts ▸ hfront⟩
  | cons e v =>
      have he : e = '=' := by
        have := List.head_dropWhile_not (p := (· != '=')) (l := arg)
          (by rw [hdrop]; exact List.cons_ne_nil _ _)
        simpa [hdrop] using this
      subst he
      rw [hdrop] at hparts
      exact .inr ⟨_, v, hparts.symm, hfront, rfl, rfl⟩

theorem long_split {n m v : Text}
    (h : long n = m ++ '=' :: v) : ∃ k, m = long k ∧ n = k ++ '=' :: v := by
  rcases m with _ | ⟨a, _ | ⟨b, k⟩⟩
  · exact absurd (List.cons.inj h).1 (by decide)
  · exact absurd (List.cons.inj (List.cons.inj h).2).1 (by decide)
  · obtain ⟨ha, h⟩ := List.cons.inj h
    obtain ⟨hb, h⟩ := List.cons.inj h
    rw [← ha, ← hb]
    exact ⟨k, rfl, h⟩

theorem parseLongFlag_unknown {c : Command} {n : Text} (h : c.flag n = none) (v : Text)
    (hasValue : Bool) :
    ∃ e, c.parseLongFlag n v hasValue = .error e := by
  unfold Command.parseLongFlag
  rw [h]
  exact ⟨_, rfl⟩

theorem parseLongFlagArg_occurs {c d : Command} {n : Text} {rest : List Text} {used : Bool}
    (h : c.parseLongFlagArg (long n) rest.head? = .ok (d, used)) :
    ∃ sets, Occurs c (long n) rest (behind used rest) sets ∧ d = c.setAll sets := by
  unfold Command.parseLongFlagArg at h
  obtain ⟨hdrop, hnot⟩ | ⟨m, v, harg, hm, htake, hdrop⟩ := split_at_eq (long n)
  · rw [hdrop] at h
    dsimp only at h
    have hnot : '=' ∉ n := fun hin => hnot (List.mem_cons_of_mem _ (List.mem_cons_of_mem _ hin))
    rw [show (long n).drop 2 = n from rfl] at h
    split at h
    · rename_i hnone
      obtain ⟨e, he⟩ := parseLongFlag_unknown hnone [] false
      rw [he] at h
      cases h
    · rename_i f hf
      obtain ⟨x, hsingle, rfl⟩ := parseValue_single h
      exact ⟨_, .long hnot hf hsingle, rfl⟩
  · rw [hdrop, htake] at h
    dsimp only at h
    obtain ⟨k, rfl, rfl⟩ := long_split harg
    cases hflag : c.parseLongFlag k v true with
    | error e =>
        rw [show (long k).drop 2 = k from rfl, hflag] at h
        cases h
    | ok d' =>
        rw [show (long k).drop 2 = k from rfl, hflag] at h
        obtain ⟨rfl, rfl⟩ := Prod.mk.inj (Except.ok.inj h)
        obtain ⟨g, x, hg, hdenotes, rfl⟩ := parseLongFlag_value hflag
        have hnot : '=' ∉ k := fun hin => hm (List.mem_cons_of_mem _ (List.mem_cons_of_mem _ hin))
        exact ⟨[(k, x)], .longWith hnot hg hdenotes, rfl⟩

/-- A loop over a group: the flags that take no value, and maybe one behind them. Kind: L -/
theorem parseGroup_inv {rest : List Text} {used : Bool} : ∀ {chs : List Char} {c d : Command},
    parseGroup rest.head? c chs = .ok (d, used) →
      (∃ fs, Switches c chs fs ∧ used = false ∧ d = c.setAll (switched fs)) ∨
      ∃ front ch fs f x, chs = front ++ [ch] ∧ Switches c front fs ∧
        c.findFlagByShorthand ch = some f ∧
        f.defaultValue.isBool = false ∧ Single (c.setAll (switched fs)) f f.name rest
          (behind used rest) x ∧
        d = c.setAll (switched fs ++ [(f.name, x)])
  | [], c, d, h => by
      obtain ⟨rfl, rfl⟩ := Prod.mk.inj (Except.ok.inj h)
      exact .inl ⟨[], .nil, rfl, rfl⟩
  | ch :: chs, c, d, h => by
      rw [parseGroup] at h
      split at h
      · cases h
      · rename_i f hf
        split at h
        · rename_i hbool
          have hset : ∀ ch' g, (c.set f.name (.bool true)).findFlagByShorthand ch' = some g →
              c.findFlagByShorthand ch' = some g := fun ch' g hg => hg
          obtain ⟨fs, hfs, hused, rfl⟩ | ⟨front, ch', fs, g, x, rfl, hfs, hg, hnot, hsingle, rfl⟩ :=
            parseGroup_inv h
          · exact .inl ⟨f :: fs, .cons ⟨hf, hbool⟩ (hfs.imp fun _ _ h => h), hused, rfl⟩
          · exact .inr ⟨ch :: front, ch', f :: fs, g, x, rfl,
              .cons ⟨hf, hbool⟩ (hfs.imp fun _ _ h => h), hg,
              hnot, hsingle, rfl⟩
        · rename_i hbool
          split at h
          · cases h
          · rename_i hlast
            obtain rfl := not_not.mp hlast
            obtain ⟨x, hsingle, rfl⟩ := parseValue_single h
            exact .inr ⟨[], ch, [], f, x, rfl, .nil, hf, Bool.of_not_eq_true hbool, hsingle, rfl⟩

theorem parseShortFlagArg_occurs {c d : Command} {chs : List Char} {rest : List Text} {used : Bool}
    (hne : chs ≠ []) (hdash : chs.head? ≠ some '-')
    (h : c.parseShortFlagArg ('-' :: chs) rest.head? = .ok (d, used)) :
    ∃ sets, Occurs c ('-' :: chs) rest (behind used rest) sets ∧ d = c.setAll sets := by
  unfold Command.parseShortFlagArg at h
  rw [show ('-' :: chs).drop 1 = chs from rfl] at h
  split at h
  · rename_i ch
    split at h
    · cases h
    · rename_i f hf
      obtain ⟨x, hsingle, rfl⟩ := parseValue_single h
      exact ⟨_, .short (fun hch => hdash (congrArg some hch)) hf hsingle, rfl⟩
  · rename_i hmany
    obtain ⟨fs, hfs, rfl, rfl⟩ | ⟨front, ch, fs, f, x, rfl, hfs, hf, hnot, hsingle, rfl⟩ :=
      parseGroup_inv h
    · refine ⟨_, .group hdash ?_ hfs, rfl⟩
      rcases chs with _ | ⟨a, _ | ⟨b, chs⟩⟩
      · exact absurd rfl hne
      · exact absurd rfl (hmany a)
      · exact Nat.le_add_left _ _
    · have hfront : front ≠ [] := by
        rintro rfl
        exact hmany ch rfl
      refine ⟨_, .groupWith ?_ hfront hfs hf hnot hsingle, rfl⟩
      rwa [List.head?_append_of_ne_nil _ hfront] at hdash

/-! ## Runs -/

inductive Event
  | set (name : Text) (value : FlagValue)
  | positional (arg : Text)
  | enter (name : Text)

/-- The command that the events lead to. -/
def Command.after (c : Command) : List Event → Option Command
  | [] => some c
  | .set name value :: es => (c.set name value).after es
  | .positional arg :: es => (c.push arg).after es
  | .enter name :: es => (c.findCommand name).bind fun d => (d.inherit c).after es

def setEvents (sets : List (Text × FlagValue)) : List Event := sets.map fun e => .set e.1 e.2

/-- The events that the arguments make. -/
inductive Reads : Command → List Text → List Event → Prop
  | nil {c : Command} : Reads c [] []
  | positional {c : Command} {arg : Text} {rest : List Text} {es : List Event} :
      arg.head? ≠ some '-' ∧ c.findCommand arg = none ∨ arg = ['-'] → Reads (c.push arg) rest es →
      Reads c (arg :: rest) (.positional arg :: es)
  | enter {c d : Command} {arg : Text} {rest : List Text} {es : List Event} : arg.head? ≠ some '-' →
      c.findCommand arg = some d → Reads (d.inherit c) rest es →
        Reads c (arg :: rest) (.enter arg :: es)
  | flags {c : Command} {arg : Text} {rest tail : List Text} {sets : List (Text × FlagValue)}
      {es : List Event} : Occurs c arg rest tail sets → Reads (c.setAll sets) tail es →
      Reads c (arg :: rest) (setEvents sets ++ es)

theorem after_setEvents (es : List Event) : ∀ (sets : List (Text × FlagValue)) (c : Command),
    c.after (setEvents sets ++ es) = (c.setAll sets).after es
  | [], _ => rfl
  | e :: sets, c => after_setEvents es sets (c.set e.1 e.2)

theorem startsWith_iff (s part : Text) : startsWith s part = true ↔ ∃ t, s = part ++ t :=
  List.isPrefixOf_iff_prefix.trans (exists_congr fun _ => eq_comm)

/-- What one round makes of an argument. Kind: L -/
theorem parseArg_inv {c d : Command} {arg : Text} {rest : List Text} {used : Bool}
    (h : c.parseArg arg rest.head? = .ok (d, used)) :
    ((arg.head? ≠ some '-' ∧ c.findCommand arg = none ∨ arg = ['-']) ∧
      d = c.push arg ∧ used = false) ∨
      (arg.head? ≠ some '-' ∧ ∃ s, c.findCommand arg = some s ∧ d = s.inherit c ∧ used = false) ∨
      ∃ sets, Occurs c arg rest (behind used rest) sets ∧ d = c.setAll sets := by
  unfold Command.parseArg at h
  split at h
  · rename_i hplain
    have hdash : arg.head? ≠ some '-' := by
      intro hhead
      obtain ⟨s, rfl⟩ := List.head?_eq_some_iff.mp hhead
      have hstart : startsWith ('-' :: s) ['-'] = true := (startsWith_iff _ _).mpr ⟨s, rfl⟩
      rw [hstart] at hplain
      exact absurd hplain (by decide)
    split at h
    · rename_i s hs
      obtain ⟨rfl, rfl⟩ := Prod.mk.inj (Except.ok.inj h)
      exact .inr (.inl ⟨hdash, s, hs, rfl, rfl⟩)
    · rename_i hs
      obtain ⟨rfl, rfl⟩ := Prod.mk.inj (Except.ok.inj h)
      exact .inl ⟨.inl ⟨hdash, hs⟩, rfl, rfl⟩
  · rename_i hplain
    rw [Bool.not_eq_true', Bool.not_eq_false] at hplain
    obtain ⟨chs, rfl⟩ := (startsWith_iff arg _).mp hplain
    split at h
    · rename_i htwo
      obtain ⟨n, hn⟩ := (startsWith_iff _ _).mp htwo
      rw [hn] at h ⊢
      exact .inr (.inr (parseLongFlagArg_occurs h))
    · rename_i htwo
      split at h
      · rename_i hlen
        refine .inr (.inr (parseShortFlagArg_occurs ?_ ?_ h))
        · rintro rfl
          exact absurd hlen (by decide)
        · intro hhead
          obtain ⟨n, rfl⟩ := List.head?_eq_some_iff.mp hhead
          exact htwo ((startsWith_iff _ _).mpr ⟨n, rfl⟩)
      · rename_i hlen
        rw [List.length_append, List.length_singleton] at hlen
        obtain rfl : chs = [] := List.length_eq_zero_iff.mp (by omega)
        obtain ⟨rfl, rfl⟩ := Prod.mk.inj (Except.ok.inj h)
        exact .inl ⟨.inr rfl, rfl, rfl⟩

/-- The loop goes on behind the arguments that a round used. Kind: L -/
theorem parseArgs_cons (c : Command) (arg : Text) (rest : List Text) :
    parseArgs c (arg :: rest) =
      (c.parseArg arg rest.head?).bind fun p => parseArgs p.1 (behind p.2 rest) := by
  rw [parseArgs]
  split
  · rename_i e h
    rw [h]
    rfl
  · rename_i d h
    rw [h]
    rfl
  · rename_i d h
    rw [h]
    cases rest with
    | nil => exact (parseArgs.eq_1 d).symm
    | cons v rest => rfl

theorem behind_length (used : Bool)
    (rest : List Text) : (behind used rest).length ≤ rest.length := by
  cases used with
  | false => exact le_rfl
  | true => exact List.length_tail.trans_le (Nat.sub_le _ _)

/-- **A list that the loop accepts reads as events, and they lead where the loop ends.** Kind: P -/
theorem parseArgs_reads {c r : Command} {args : List Text} (h : parseArgs c args = .ok r) :
    ∃ es, Reads c args es ∧ c.after es = some r := by
  induction hlen : args.length using Nat.strong_induction_on generalizing c args with
  | _ len ih =>
    cases args with
    | nil => exact ⟨[], .nil, congrArg some (Except.ok.inj h)⟩
    | cons arg rest =>
        rw [parseArgs_cons] at h
        cases hround : c.parseArg arg rest.head? with
        | error e =>
            rw [hround] at h
            cases h
        | ok p =>
            obtain ⟨d, used⟩ := p
            rw [hround] at h
            have hshort : (behind used rest).length < len := by
              rw [← hlen, List.length_cons]
              exact Nat.lt_succ_of_le (behind_length used rest)
            obtain ⟨es, hreads, hafter⟩ := ih _ hshort h rfl
            obtain ⟨hpos, rfl, rfl⟩ | ⟨hdash, s, hs, rfl, rfl⟩ | ⟨sets, hoccurs, rfl⟩ :=
              parseArg_inv hround
            · exact ⟨_, .positional hpos hreads, hafter⟩
            · refine ⟨_, .enter hdash hs hreads, ?_⟩
              rw [Command.after, hs]
              exact hafter
            · exact ⟨_, .flags hoccurs hreads, (after_setEvents es sets c).trans hafter⟩

end CxyCompiler.Stdlib.Args
