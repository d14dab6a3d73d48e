import CxyCompiler.Stdlib.ArgsDenote

/-!
# The spellings of arguments

An argument with a dash is never taken for the value of the flag in front. So the loop can be cut
there, and a spelling can be replaced by another one wherever it stands.

* `after_stays`, `after_enter`: the values where the events lead are the last ones set, in the
  command that was entered last; it starts with the values of the persistent flags.
* `parseArgs_append`: the loop over two lists, the second of which starts with a dash.
* `parseArgs_spellings`, `parseArgs_group`: the spellings of a value, and a group.
* **`parse_denotes`**: what an accepted list denotes.

Source: `stdlib/args.cxy`.
-/

namespace CxyCompiler.Stdlib.Args

/-! ## Where events lead -/

def Event.value (n : Text) : Event → Option FlagValue
  | .set name value => if name = n then some value else none
  | _ => none

def Event.arg : Event → Option Text
  | .positional arg => some arg
  | _ => none

def Event.enters : Event → Bool
  | .enter _ => true
  | _ => false

/-- The value of the last event that sets the flag. -/
def lastSet (n : Text) (es : List Event) : Option FlagValue := es.reverse.findSome? (Event.value n)

def positionals (es : List Event) : List Text := es.filterMap Event.arg

/-- No command is entered. -/
def Stays (es : List Event) : Prop := ∀ e ∈ es, e.enters = false

theorem lastSet_cons (n : Text) (e : Event) (es : List Event) :
    lastSet n (e :: es) = (lastSet n es).or (e.value n) := by
  unfold lastSet
  rw [List.reverse_cons, List.findSome?_append, List.findSome?_singleton]

/-- **What the events of one command leave: its positions, and for each flag the last value.**
Kind: L -/
theorem after_stays {es : List Event} (h : Stays es) (c : Command) :
    ∃ d, c.after es = some d ∧ d.args = c.args ++ positionals es ∧
      ∀ n, d.flagValues.lookup n = (lastSet n es).or (c.flagValues.lookup n) := by
  induction es generalizing c with
  | nil => exact ⟨c, rfl, (List.append_nil _).symm, fun _ => rfl⟩
  | cons e es ih =>
      obtain ⟨he, hrest⟩ := List.forall_mem_cons.mp h
      cases e with
      | set name value =>
          obtain ⟨d, hd, hargs, hvalues⟩ := ih hrest (c.set name value)
          refine ⟨d, hd, hargs, fun n => ?_⟩
          rw [hvalues, lastSet_cons, Option.or_assoc]
          congr 1
          by_cases hn : name = n
          · subst hn
            simp [Event.value, Command.set]
          · simp [Event.value, Command.set, hn, AList.lookup_insert_ne (Ne.symm hn)]
      | positional arg =>
          obtain ⟨d, hd, hargs, hvalues⟩ := ih hrest (c.push arg)
          refine ⟨d, hd, ?_, fun n => ?_⟩
          · rw [hargs]
            exact List.append_assoc _ _ _
          · rw [hvalues, lastSet_cons,
              show (Event.positional arg).value n = none from rfl, Option.or_none]
            rfl
      | enter name => exact absurd he Bool.noConfusion

/-- One list of events after the other. Kind: L -/
theorem after_append (xs ys : List Event) (c : Command) :
    c.after (xs ++ ys) = (c.after xs).bind fun d => d.after ys := by
  induction xs generalizing c with
  | nil => rfl
  | cons e xs ih =>
      cases e with
      | set name value => exact ih _
      | positional arg => exact ih _
      | enter name =>
          rw [List.cons_append, Command.after, Command.after, Option.bind_assoc]
          exact congrArg _ (funext fun d => ih _)

/-- What a loop that copies some entries leaves in a table. Kind: L -/
theorem lookup_copied (p : Text → Bool)
    (n : Text) : ∀ (entries : List (Sigma fun _ : Text => FlagValue))
    (values : FlagValues), entries.NodupKeys →
    (entries.foldl (fun values e => if p e.1 then values.insert e.1 e.2 else values) values).lookup
      n =
      if p n then (entries.dlookup n).or (values.lookup n) else values.lookup n
  | [], values, _ => by simp
  | ⟨k, v⟩ :: entries, values, h => by
      obtain ⟨hk, hrest⟩ := List.nodupKeys_cons.mp h
      rw [List.foldl_cons, lookup_copied p n entries _ hrest]
      by_cases hn : n = k
      · subst hn
        rw [List.dlookup_cons_eq, List.dlookup_eq_none.mpr hk]
        cases p n <;> simp
      · have hbehind : List.dlookup n (⟨k, v⟩ :: entries) = List.dlookup n entries :=
          List.dlookup_cons_ne _ _ hn
        rw [hbehind]
        cases p k <;> simp [AList.lookup_insert_ne hn]

/-- A command that is entered has the values of the persistent flags. Kind: L -/
theorem lookup_inherit (s c : Command) (n : Text) :
    (s.inherit c).flagValues.lookup n =
      if (c.persistentFlags.table.lookup n).isSome then (c.flagValues.lookup n).or
        (s.flagValues.lookup n)
      else s.flagValues.lookup n :=
  lookup_copied (fun n => (c.persistentFlags.table.lookup n).isSome) n _ _ c.flagValues.nodupKeys

/-- Behind the name of a command the events are those of this command. Kind: L -/
theorem after_enter {c d : Command} {es es' : List Event} {name : Text} (hstays : Stays es')
    (h : c.after (es ++ .enter name :: es') = some d) :
    ∃ c' s, c.after es = some c' ∧ c'.findCommand name = some s ∧
      d.args = s.args ++ positionals es' ∧
      ∀ n, d.flagValues.lookup n = (lastSet n es').or ((s.inherit c').flagValues.lookup n) := by
  rw [after_append, Option.bind_eq_some_iff] at h
  obtain ⟨c', hc', h⟩ := h
  rw [Command.after, Option.bind_eq_some_iff] at h
  obtain ⟨s, hs, h⟩ := h
  obtain ⟨d', hd', hargs, hvalues⟩ := after_stays hstays (s.inherit c')
  obtain rfl := Option.some.inj (hd'.symm.trans h)
  exact ⟨c', s, hc', hs, hargs, hvalues⟩

/-! ## Behind the loop -/

def Keeps (c d : Command) : Prop :=
  d.args = c.args ∧ ∀ n x, c.flagValues.lookup n = some x → d.flagValues.lookup n = some x

theorem Keeps.trans {c d e : Command} (h₁ : Keeps c d) (h₂ : Keeps d e) : Keeps c e :=
  ⟨h₂.1.trans h₁.1, fun n x h => h₂.2 n x (h₁.2 n x h)⟩

/-- A flag without a value may get one. Kind: L -/
theorem keeps_set {c : Command} {n : Text} (h : (c.flagValues.lookup n).isNone = true)
    (x : FlagValue) :
    Keeps c (c.set n x) := by
  refine ⟨rfl, fun m y hy => ?_⟩
  have hne : m ≠ n := by
    rintro rfl
    rw [hy] at h
    exact absurd h (by simp)
  exact (AList.lookup_insert_ne hne).trans hy

/-- A value of the environment sets the flag. Kind: L -/
theorem parseEnvValue_set {c d : Command} {flag : Flag} {envValue : Text}
    (h : c.parseEnvValue flag envValue = .ok d) : ∃ x, d = c.set flag.name x := by
  unfold Command.parseEnvValue at h
  split at h
  · split at h
    · exact ⟨_, (Except.ok.inj h).symm⟩
    · split at h
      · exact ⟨_, (Except.ok.inj h).symm⟩
      · cases h
  · split at h
    · cases h
    · exact ⟨_, (Except.ok.inj h).symm⟩
  · exact ⟨_, (Except.ok.inj h).symm⟩

/-- The environment replaces no value. Kind: L -/
theorem keeps_applyEnvVar (getenv : Text → Option Text) (c : Command) (flag : Flag) :
    Keeps c (applyEnvVar getenv c flag) := by
  have hrefl : Keeps c c := ⟨rfl, fun _ _ h => h⟩
  unfold applyEnvVar
  split
  · rename_i hfree
    split
    · exact hrefl
    · split
      · exact hrefl
      · cases hset : c.parseEnvValue flag _ with
        | error e => exact hrefl
        | ok d =>
            obtain ⟨x, rfl⟩ := parseEnvValue_set hset
            exact keeps_set hfree.2 x
  · exact hrefl

/-- The environment changes no value that is given. Kind: L -/
theorem keeps_applyEnvVars (getenv : Text → Option Text) (c : Command) :
    Keeps c (c.applyEnvVars getenv) := by
  unfold Command.applyEnvVars
  generalize c.flags.table.entries ++ c.persistentFlags.table.entries = entries
  induction entries generalizing c with
  | nil => exact ⟨rfl, fun _ _ h => h⟩
  | cons e entries ih => exact (keeps_applyEnvVar getenv c e.2).trans (ih _)

/-! ## The loop is cut -/

/-- The argument behind is not there, or starts with a dash. -/
def Cut (rest : List Text) : Prop := ∀ a ∈ rest.head?, startsWith a ['-'] = true

/-- What begins with a dash is no value. Kind: L -/
theorem takes_dash {f : Flag} {a : Text} (h : startsWith a ['-'] = true) : f.takes a = false := by
  unfold Flag.takes
  rw [h]
  rfl

/-- In front of a cut a flag takes no value. Kind: L -/
theorem parseValue_cut (c : Command) (f : Flag) (n : Text) {rest : List Text} (h : Cut rest) :
    c.parseValue f n rest.head? = (c.parseLongFlag n [] false).map fun c => (c, false) := by
  cases rest with
  | nil => rfl
  | cons a rest =>
      have hnot : ¬ f.takes a = true := by
        rw [takes_dash (h a rfl)]
        exact Bool.false_ne_true
      exact if_neg hnot

theorem parseGroup_cut {rest : List Text} (h : Cut rest) : ∀ (chs : List Char) (c : Command),
    parseGroup rest.head? c chs = parseGroup none c chs
  | [], _ => rfl
  | ch :: chs, c => by
      rw [parseGroup, parseGroup]
      simp only [parseGroup_cut h chs, Command.parseShortFlag, parseValue_cut _ _ _ h]
      rfl

/-- In front of a cut an argument is read as the last one is. Kind: L -/
theorem parseArg_cut (c : Command) (arg : Text) {rest : List Text} (h : Cut rest) :
    c.parseArg arg rest.head? = c.parseArg arg none := by
  unfold Command.parseArg Command.parseLongFlagArg Command.parseShortFlagArg
  simp only [parseGroup_cut h, Command.parseShortFlag, parseValue_cut _ _ _ h]
  rfl

/-- A single group in front of a cut takes nothing behind it. Kind: L -/
theorem Single.tail_eq {c : Command} {f : Flag} {n : Text} {rest tail : List Text} {x : FlagValue}
    (hsingle : Single c f n rest tail x) (h : Cut rest) : tail = rest := by
  cases hsingle with
  | @value g v x tail hg htakes hdenotes =>
      rw [takes_dash (h v rfl)] at htakes
      cases htakes
  | bare hg hnot hbool => rfl

theorem parseArg_behind {c d : Command} {arg : Text} {rest : List Text} {used : Bool}
    (hround : c.parseArg arg rest.head? = .ok (d, used))
      (h : Cut rest) : behind used rest = rest := by
  obtain ⟨-, -, rfl⟩ | ⟨-, s, -, -, rfl⟩ | ⟨sets, hoccurs, -⟩ := parseArg_inv hround
  · rfl
  · rfl
  · generalize behind used rest = tail at hoccurs ⊢
    cases hoccurs with
    | longWith hn hg hdenotes => rfl
    | long hn hf hsingle => exact hsingle.tail_eq h
    | short hch hf hsingle => exact hsingle.tail_eq h
    | group hhead hlen hfs => rfl
    | groupWith hhead hne hfs hf hnot hsingle => exact hsingle.tail_eq h

/-- **In front of a dash the loop can be cut.** Kind: P -/
theorem parseArgs_append (c : Command) (pre : List Text) {rest : List Text} (h : Cut rest) :
    parseArgs c (pre ++ rest) = (parseArgs c pre).bind fun d => parseArgs d rest := by
  induction hlen : pre.length using Nat.strong_induction_on generalizing c pre with
  | _ len ih =>
    cases pre with
    | nil => rfl
    | cons arg pre =>
        rw [List.cons_append, parseArgs_cons, parseArgs_cons]
        cases pre with
        | nil =>
            rw [List.nil_append, parseArg_cut c arg h, List.head?_nil]
            cases hround : c.parseArg arg none with
            | error e => rfl
            | ok p =>
                rw [← parseArg_cut c arg h] at hround
                change parseArgs p.1 (behind p.2 rest) =
                  (parseArgs p.1 (behind p.2 [])).bind fun d => parseArgs d rest
                rw [parseArg_behind hround h]
                cases p.2 <;> rfl
        | cons a pre =>
            cases hround : c.parseArg arg (some a) with
            | error e =>
                rw [List.cons_append, List.head?_cons, List.head?_cons, hround]
                rfl
            | ok p =>
                rw [List.cons_append, List.head?_cons, List.head?_cons, hround]
                have hbehind : behind p.2 (a :: (pre ++ rest)) = behind p.2 (a :: pre) ++ rest := by
                  cases p.2 <;> rfl
                have hshort : (behind p.2 (a :: pre)).length < len := by
                  rw [← hlen]
                  exact Nat.lt_succ_of_le (behind_length p.2 (a :: pre))
                change parseArgs p.1 (behind p.2 (a :: (pre ++ rest))) =
                  (parseArgs p.1 (behind p.2 (a :: pre))).bind fun d => parseArgs d rest
                rw [hbehind]
                exact ih _ hshort p.1 _ rfl

/-! ## Spellings -/

/-- A flag that its name and its shorthand stand for: a local one, or a persistent one that no local
flag hides. -/
def Command.Has (c : Command) (f : Flag) : Prop :=
  c.flags.table.lookup f.name = some f ∨
    c.flags.table.lookup f.name = none ∧
      (∀ ch ∈ f.shorthand, c.flags.byShorthand.lookup ch = none) ∧
      c.persistentFlags.table.lookup f.name = some f

/-- A flag of the command is found by its name. Kind: L -/
theorem Command.Has.flag {c : Command} {f : Flag} (h : c.Has f) : c.flag f.name = some f := by
  unfold Command.flag
  obtain hlocal | ⟨hnone, -, hpersistent⟩ := h
  · rw [hlocal, Option.some_or]
  · rw [hnone, Option.none_or, hpersistent]

/-- A flag of the command is found by its shorthand. Kind: L -/
theorem Command.Has.shorthand {c : Command} {f : Flag} (h : c.Has f) {ch : Char}
    (hch : f.shorthand = some ch) : c.findFlagByShorthand ch = some f := by
  unfold Command.findFlagByShorthand
  obtain hlocal | ⟨-, hfree, hpersistent⟩ := h
  · rw [c.flags.shortened _ _ _ hlocal hch]
    exact hlocal
  · rw [hfree ch hch, c.persistentFlags.shortened _ _ _ hpersistent hch]
    exact hpersistent

/-- What an argument with a dash is read as. Kind: L -/
theorem parseArg_dash (c : Command) (s : Text) (next : Option Text) :
    c.parseArg ('-' :: s) next =
      if startsWith ('-' :: s) ['-', '-'] then c.parseLongFlagArg ('-' :: s) next
      else if 1 < ('-' :: s).length then c.parseShortFlagArg ('-' :: s) next
      else .ok (c.push ('-' :: s), false) := by
  unfold Command.parseArg
  rw [show startsWith ('-' :: s) ['-'] = true from (startsWith_iff _ _).mpr ⟨s, rfl⟩]
  rfl

theorem parseArg_long (c : Command) (n : Text) (next : Option Text) :
    c.parseArg (long n) next = c.parseLongFlagArg (long n) next := by
  have htwo : startsWith ('-' :: '-' :: n) ['-', '-'] = true := (startsWith_iff _ _).mpr ⟨n, rfl⟩
  unfold long
  rw [parseArg_dash, if_pos htwo]

theorem parseArg_short (c : Command) {chs : List Char} (hne : chs ≠ [])
    (hhead : chs.head? ≠ some '-')
    (next : Option Text) : c.parseArg ('-' :: chs) next = c.parseShortFlagArg
      ('-' :: chs) next := by
  have htwo : ¬ startsWith ('-' :: chs) ['-', '-'] = true := by
    intro h
    obtain ⟨t, ht⟩ := (startsWith_iff _ _).mp h
    rw [(List.cons.inj ht).2] at hhead
    exact hhead rfl
  have hlen : 1 < ('-' :: chs).length := Nat.succ_lt_succ (List.length_pos_of_ne_nil hne)
  rw [parseArg_dash, if_neg htwo, if_pos hlen]

theorem parts_longWith {n v : Text} (h : '=' ∉ n) :
    (longWith n v).takeWhile (· != '=') = long n ∧
      (longWith n v).dropWhile (· != '=') = '=' :: v := by
  have hall : ∀ a ∈ long n, (a != '=') = true := by
    intro a ha
    rw [bne_iff_ne]
    rintro rfl
    rcases List.mem_cons.mp ha with ha | ha
    · exact absurd ha (by decide)
    · exact (List.mem_cons.mp ha).elim (fun ha => absurd ha (by decide)) h
  unfold longWith
  exact ⟨by rw [List.takeWhile_append_of_pos hall]; simp, by
    rw [List.dropWhile_append_of_pos hall]; simp⟩

theorem dropWhile_long {n : Text} (h : '=' ∉ n) : (long n).dropWhile (· != '=') = [] := by
  obtain ⟨hdrop, -⟩ | ⟨m, v, hn, -⟩ := split_at_eq (long n)
  · exact hdrop
  · obtain ⟨k, -, rfl⟩ := long_split hn
    exact absurd (List.mem_append_right _ List.mem_cons_self) h

/-- `--name=v` sets the flag, and the rest follows. Kind: L -/
theorem parseArgs_longWith (c : Command) {n : Text} (h : '=' ∉ n) (v : Text) (rest : List Text) :
    parseArgs c (longWith n v :: rest) = (c.parseLongFlag n v true).bind fun d =>
      parseArgs d rest := by
  obtain ⟨htake, hdrop⟩ := parts_longWith (v := v) h
  rw [parseArgs_cons, show longWith n v = long (n ++ '=' :: v) from rfl, parseArg_long,
    show long (n ++ '=' :: v) = longWith n v from rfl]
  unfold Command.parseLongFlagArg
  rw [hdrop, htake]
  change ((c.parseLongFlag n v true).map _).bind _ = _
  cases c.parseLongFlag n v true <;> rfl

/-- A value in an argument of its own sets the flag. Kind: L -/
theorem parseArgs_value (c : Command) {f : Flag} {arg v : Text} (rest : List Text)
    (harg : c.parseArg arg (some v) = c.parseValue f f.name (some v)) (h : f.takes v = true) :
    parseArgs c (arg :: v :: rest) = (c.parseLongFlag f.name v true).bind fun d =>
      parseArgs d rest := by
  rw [parseArgs_cons, List.head?_cons, harg]
  unfold Command.parseValue
  dsimp only
  rw [if_pos h]
  cases c.parseLongFlag f.name v true <;> rfl

/-- `--name v` sets the flag. Kind: L -/
theorem parseArgs_long {c : Command} {f : Flag} (hf : c.Has f) (hn : '=' ∉ f.name) {v : Text}
    (h : f.takes v = true) (rest : List Text) :
    parseArgs c (long f.name :: v :: rest) =
      (c.parseLongFlag f.name v true).bind fun d => parseArgs d rest := by
  refine parseArgs_value c rest ?_ h
  rw [parseArg_long]
  unfold Command.parseLongFlagArg
  rw [dropWhile_long hn]
  dsimp only
  rw [show (long f.name).drop 2 = f.name from rfl, hf.flag]

theorem parseArg_shorthand {c : Command} {f : Flag} (hf : c.Has f) {ch : Char}
    (hch : f.shorthand = some ch)
    (hdash : ch ≠ '-') (next : Option Text) :
    c.parseArg (short ch) next = c.parseValue f f.name next := by
  have hhead : [ch].head? ≠ some '-' := fun h => hdash (Option.some.inj h)
  unfold short
  rw [parseArg_short c (List.cons_ne_nil _ _) hhead]
  unfold Command.parseShortFlagArg
  rw [show ['-', ch].drop 1 = [ch] from rfl]
  dsimp only
  rw [hf.shorthand hch]
  rfl

/-- `-n v` sets the flag. Kind: L -/
theorem parseArgs_short {c : Command} {f : Flag} (hf : c.Has f) {ch : Char}
    (hch : f.shorthand = some ch)
    (hdash : ch ≠ '-') {v : Text} (h : f.takes v = true) (rest : List Text) :
    parseArgs c (short ch :: v :: rest) =
      (c.parseLongFlag f.name v true).bind fun d => parseArgs d rest :=
  parseArgs_value c rest (parseArg_shorthand hf hch hdash _) h

/-- Boolean flags and their shorthands. -/
def Bools (c : Command) : List Char → List Flag → Prop :=
  List.Forall₂ fun ch f => ch ≠ '-' ∧ c.Has f ∧ f.shorthand = some ch ∧ f.defaultValue.isBool = true

theorem Bools.switches {c : Command} {chs : List Char} {fs : List Flag} (h : Bools c chs fs) :
    Switches c chs fs := List.Forall₂.imp (fun _ _ hf => ⟨hf.2.1.shorthand hf.2.2.1, hf.2.2.2⟩) h

/-- A group of shorthands sets all its switches. Kind: L -/
theorem parseGroup_switches (next : Option Text) {chs : List Char}
    {fs : List Flag} : ∀ {c : Command},
    Switches c chs fs → parseGroup next c chs = .ok (c.setAll (switched fs), false) := by
  intro c h
  induction chs generalizing c fs with
  | nil =>
      cases h
      rfl
  | cons ch chs ih =>
      cases h with
      | cons hf hfs =>
          rw [parseGroup, hf.1]
          dsimp only
          rw [if_pos hf.2]
          exact ih (List.Forall₂.imp (fun _ _ h => h) hfs)

/-- A switch without a value is set. Kind: L -/
theorem parseLongFlag_switch {c : Command} {f : Flag} (hf : c.Has f)
    (hbool : f.defaultValue.isBool = true) :
    c.parseLongFlag f.name [] false = .ok (c.set f.name (.bool true)) := by
  unfold Command.parseLongFlag
  rw [hf.flag]
  dsimp only
  cases hdefault : f.defaultValue with
  | bool b => rfl
  | int i => rw [hdefault] at hbool; cases hbool
  | string s => rw [hdefault] at hbool; cases hbool

theorem parseValue_switch {c : Command} {f : Flag} (hf : c.Has f)
    (hbool : f.defaultValue.isBool = true)
    {next : Option Text} (h : ∀ v ∈ next, f.takes v = false) :
    c.parseValue f f.name next = .ok (c.set f.name (.bool true), false) := by
  unfold Command.parseValue
  rw [parseLongFlag_switch hf hbool]
  cases next with
  | none => rfl
  | some v =>
      dsimp only
      rw [h v rfl]
      rfl

/-- Shorthands in arguments of their own set the switches one by one. Kind: L -/
theorem parseArgs_shorts {rest : List Text} (hnext : ∀ v ∈ rest.head?, isBooleanValue v = false)
    {chs : List Char} {fs : List Flag} {c : Command} (h : Bools c chs fs) :
    parseArgs c (chs.map short ++ rest) = parseArgs (c.setAll (switched fs)) rest := by
  induction chs generalizing c fs with
  | nil =>
      cases h
      rfl
  | cons ch chs ih =>
      cases h with
      | @cons _ f _ fs hf hfs =>
          obtain ⟨hdash, hhas, hch, hbool⟩ := hf
          have hskip : ∀ v ∈ (chs.map short ++ rest).head?, f.takes v = false := by
            intro v hv
            cases chs with
            | nil =>
                unfold Flag.takes
                rw [hbool, hnext v hv, Bool.not_true, Bool.or_false, Bool.and_false]
            | cons ch' chs =>
                obtain rfl := Option.some.inj hv
                exact takes_dash ((startsWith_iff _ _).mpr ⟨[ch'], rfl⟩)
          rw [List.map_cons, List.cons_append, parseArgs_cons, parseArg_shorthand hhas hch hdash,
            parseValue_switch hhas hbool hskip]
          exact ih (List.Forall₂.imp (fun _ _ h => h) hfs)

/-- **A group of boolean shorthands.** Kind: P -/
theorem parseArgs_group {c : Command} {rest : List Text}
    (hnext : ∀ v ∈ rest.head?, isBooleanValue v = false) {chs : List Char} {fs : List Flag}
      (hne : chs ≠ [])
    (h : Bools c chs fs) : parseArgs c (('-' :: chs) :: rest) = parseArgs c
      (chs.map short ++ rest) := by
  rcases chs with _ | ⟨a, _ | ⟨b, chs⟩⟩
  · exact absurd rfl hne
  · rfl
  · have hhead : (a :: b :: chs).head? ≠ some '-' := by
      cases h with
      | cons hf hfs => exact fun h => hf.1 (Option.some.inj h)
    rw [parseArgs_shorts hnext h, parseArgs_cons, parseArg_short c hne hhead]
    unfold Command.parseShortFlagArg
    rw [show ('-' :: a :: b :: chs).drop 1 = a :: b :: chs from rfl]
    change (parseGroup rest.head? c (a :: b :: chs)).bind _ = _
    rw [parseGroup_switches _ h.switches]
    rfl

/-! ## Accepted lists -/

theorem cut_dash (s : Text) (rest : List Text) : Cut (('-' :: s) :: rest) := by
  intro a ha
  obtain rfl := Option.some.inj ha
  exact (startsWith_iff _ _).mpr ⟨s, rfl⟩

/-- Two lists that the loop cannot tell apart, behind others. Kind: L -/
theorem parse_congr (getenv : Text → Option Text) {c b : Command} {pre : List Text}
    (hpre : parseArgs c pre = .ok b) {xs ys : List Text} (hxs : Cut xs) (hys : Cut ys)
    (h : parseArgs b xs = parseArgs b ys) : c.parse getenv (pre ++ xs) = c.parse getenv
      (pre ++ ys) := by
  unfold Command.parse
  rw [parseArgs_append c pre hxs, parseArgs_append c pre hys, hpre]
  change Except.bind (parseArgs b xs) _ = Except.bind (parseArgs b ys) _
  rw [h]

/-- What `parse` returns was read by the loop. Kind: L -/
theorem parse_inv {getenv : Text → Option Text} {c r : Command} {argv : List Text} {b : Bool}
    (h : c.parse getenv argv = .ok (r, b)) : ∃ d, parseArgs c argv = .ok d ∧ Keeps d r := by
  unfold Command.parse at h
  cases hloop : parseArgs c argv with
  | error e =>
      rw [hloop] at h
      cases h
  | ok d =>
      rw [hloop] at h
      change ((d.applyEnvVars getenv).validateFlagGroups.map _) = _ at h
      cases hvalid : (d.applyEnvVars getenv).validateFlagGroups with
      | error e =>
          rw [hvalid] at h
          cases h
      | ok u =>
          rw [hvalid] at h
          obtain ⟨rfl, -⟩ := Prod.mk.inj (Except.ok.inj h)
          exact ⟨d, rfl, keeps_applyEnvVars getenv d⟩

/-- **What an accepted list denotes.** It reads as events, and the values and arguments are those
where the events lead: the last value set and all positional arguments in order, behind the last
command that was entered, which starts with the values of the persistent flags. The spellings of a
value agree, unless it starts with a dash; and a group stands for its flags one by one, unless a
boolean word is behind it. Source: `args.cxy` `Command.parse`. Kind: P -/
theorem parse_denotes (getenv : Text → Option Text) (c : Command) :
    (∀ argv r b, c.parse getenv argv = .ok (r, b) →
      ∃ es d, Reads c argv es ∧ c.after es = some d ∧ Keeps d r) ∧
    (∀ es, Stays es → ∃ d, c.after es = some d ∧ d.args = c.args ++ positionals es ∧
      ∀ n, d.flagValues.lookup n = (lastSet n es).or (c.flagValues.lookup n)) ∧
    (∀ es name es' d, Stays es' → c.after (es ++ .enter name :: es') = some d →
      ∃ c' s, c.after es = some c' ∧ c'.findCommand name = some s ∧
        d.args = s.args ++ positionals es' ∧
        ∀ n, d.flagValues.lookup n = (lastSet n es').or
          (if (c'.persistentFlags.table.lookup n).isSome then
            (c'.flagValues.lookup n).or (s.flagValues.lookup n)
          else s.flagValues.lookup n)) ∧
    (∀ pre b f v rest, parseArgs c pre = .ok b → b.Has f → '=' ∉ f.name → f.takes v = true →
      c.parse getenv (pre ++ longWith f.name v :: rest) = c.parse getenv
        (pre ++ long f.name :: v :: rest) ∧
      ∀ ch, f.shorthand = some ch → ch ≠ '-' →
        c.parse getenv (pre ++ long f.name :: v :: rest) = c.parse getenv
          (pre ++ short ch :: v :: rest)) ∧
    ∀ pre b chs fs rest, parseArgs c pre = .ok b → chs ≠ [] → Bools b chs fs →
      (∀ v ∈ rest.head?, isBooleanValue v = false) →
      c.parse getenv (pre ++ ('-' :: chs) :: rest) = c.parse getenv
        (pre ++ (chs.map short ++ rest)) := by
  refine ⟨?_, fun es h => after_stays h c, ?_, ?_, ?_⟩
  · intro argv r b h
    obtain ⟨d, hloop, hkeeps⟩ := parse_inv h
    obtain ⟨es, hreads, hafter⟩ := parseArgs_reads hloop
    exact ⟨es, d, hreads, hafter, hkeeps⟩
  · intro es name es' d hstays h
    obtain ⟨c', s, hc', hs, hargs, hvalues⟩ := after_enter hstays h
    refine ⟨c', s, hc', hs, hargs, fun n => ?_⟩
    rw [hvalues, lookup_inherit]
  · intro pre b f v rest hpre hf hn htakes
    refine ⟨parse_congr getenv hpre (cut_dash _ _) (cut_dash _ _) ?_,
      fun ch hch hdash => parse_congr getenv hpre (cut_dash _ _) (cut_dash _ _) ?_⟩
    · rw [parseArgs_longWith b hn, parseArgs_long hf hn htakes]
    · rw [parseArgs_long hf hn htakes, parseArgs_short hf hch hdash htakes]
  · intro pre b chs fs rest hpre hne hbools hnext
    refine parse_congr getenv hpre (cut_dash _ _) ?_ (parseArgs_group hnext hne hbools)
    cases chs with
    | nil => exact absurd rfl hne
    | cons ch chs => exact cut_dash _ _

/-- What the arguments give a flag. -/
def given (c : Command) (argv : List Text) (n : Text) : Option FlagValue :=
  (c.parse (fun _ => none) argv).toOption.bind fun p => p.1.flagValues.lookup n

/-- A command with no flags. -/
def plainCommand : Command := ⟨['c'], .empty, ∅, [], [], .empty, []⟩

def countFlag (name : Text) (shorthand : Char) : Flag := ⟨name, some shorthand, .int 0, []⟩

def boolFlag (name : Text) (shorthand : Char) : Flag := ⟨name, some shorthand, .bool false, []⟩

/-- **A value with a dash is not taken, and a group takes none.** Nor is a name with `=` found, or
the shorthand `-`. Kind: P -/
theorem dash_not_taken :
    given (plainCommand.tryFlag (countFlag ['n'] 'n')) [longWith ['n'] ['-', '5']] ['n'] = some
      (.int (-5)) ∧
      given (plainCommand.tryFlag (countFlag ['n'] 'n')) [long ['n'], ['-', '5']] ['n'] = none ∧
      given ((plainCommand.tryFlag (boolFlag ['a'] 'a')).tryFlag (boolFlag ['b'] 'b'))
        [['-', 'a', 'b'], ['0']] ['b'] = some (.bool true) ∧
      given ((plainCommand.tryFlag (boolFlag ['a'] 'a')).tryFlag (boolFlag ['b'] 'b'))
        [short 'a', short 'b', ['0']] ['b'] = some (.bool false) ∧
      given (plainCommand.tryFlag (countFlag ['n', '='] 'n')) [longWith ['n', '='] ['5']]
        ['n', '='] = none ∧
      given (plainCommand.tryFlag (countFlag ['n', '='] 'n')) [short 'n', ['5']] ['n', '='] = some
        (.int 5) ∧
      given (plainCommand.tryFlag (countFlag ['n'] '-')) [long ['n'], ['5']] ['n'] = some (.int 5) ∧
      given (plainCommand.tryFlag (countFlag ['n'] '-')) [short '-', ['5']] ['n'] = none := by
  decide

end CxyCompiler.Stdlib.Args
