import CxyCompiler.Core.Args
import CxyCompiler.Lib.Reorder

/-!
# Spellings and orders on the command line

A flag with its value is a group of one or two arguments, and an argument that is not a flag is a
group of its own. A parse that succeeds uses each argument in one group, up to a `--`.

* `Group.action`: what a group does, under the tables of a command.
* `parse_groups`: complete groups are used one after the other.
* `used_of_ok`, `used_unique`: **the arguments of a parse are groups in one way**.
* `find_of_distinct`: in tables without duplicates a name and a short format belong to one flag.
* `independent_flag`: a flag does not depend on other flags nor on the positions.
* **`commandLine_parses`**: no read is outside, each argument is used once, the spellings of a value
  agree, and groups of flags may stand in any order, before or after the positions.

Behind a `=` white space is skipped, and a short format without text behind it takes the next
argument.

Source: `core/args.c`.
-/

namespace CxyCompiler.Core.Args

open CxyCompiler.Lib.Runs

/-! ## Groups -/

inductive Group
  | flag (arg : Text)
  | valued (arg value : Text)
  | positional (arg : Text)
  deriving DecidableEq

def Group.args : Group → List Text
  | .flag arg => [arg]
  | .valued arg value => [arg, value]
  | .positional arg => [arg]

def Group.isFlag : Group → Bool
  | .positional _ => false
  | _ => true

inductive Action
  | flag (slot : Slot) (val : Option Text)
  | positional (arg : Text)

/-- What a group does; none when it is not a group under these tables. -/
def Group.action (t : Tables) : Group → Option Action
  | .flag arg =>
      match t.kindOf arg with
      | .flag slot val => some (.flag slot val)
      | _ => none
  | .valued arg value =>
      match t.kindOf arg with
      | .valued slot => some (.flag slot (some value))
      | _ => none
  | .positional arg =>
      match t.kindOf arg with
      | .positional => some (.positional arg)
      | _ => none

def Parsed.act (p : Parsed) : Action → Except Stop Parsed
  | .flag slot val => p.useFlag slot val
  | .positional arg => p.usePos arg

def Complete (t : Tables) (gs : List Group) : Prop := ∀ g ∈ gs, (g.action t).isSome = true

/-- Groups one after the other. -/
def actAll (t : Tables) : Parsed → List Group → Except Stop Parsed
  | p, [] => .ok p
  | p, g :: gs =>
      match g.action t with
      | none => .error .outside
      | some a => (p.act a).bind fun p => actAll t p gs

/-! ## The tables keep their form -/

/-- An argument is the same under both tables. -/
def SameKinds (t t' : Tables) : Prop := ∀ arg, t'.kindOf arg = t.kindOf arg

theorem findIdx?_modify {p : CmdFlag → Bool} {update : CmdFlag → CmdFlag}
    (h : ∀ f, p (update f) = p f) : ∀ (fs : List CmdFlag) (i : ℕ),
      (fs.modify i update).findIdx? p = fs.findIdx? p
  | [], i => by rw [List.modify_nil]
  | f :: fs, 0 => by
      rw [List.modify_zero_cons, List.findIdx?_cons, List.findIdx?_cons, h]
  | f :: fs, i + 1 => by
      rw [List.modify_succ_cons, List.findIdx?_cons, List.findIdx?_cons, findIdx?_modify h]

/-- Values do not matter to a search by names. Kind: L -/
theorem find_setVal (t : Tables) (val : CmdFlagValue) (slot : Slot) {p : CmdFlag → Bool}
    (h : ∀ f, p (f.setVal val) = p f) : (t.setVal val slot).find p = t.find p := by
  have hglobal : (t.setVal val slot).global.findIdx? p = t.global.findIdx? p := by
    cases slot with
    | global i => exact findIdx?_modify h _ _
    | command i => rfl
  have hargs : (t.setVal val slot).args.findIdx? p = t.args.findIdx? p := by
    cases slot with
    | global i => rfl
    | command i => exact findIdx?_modify h _ _
  unfold Tables.find
  rw [hglobal, hargs]

theorem parseFlag_setVal (t : Tables) (val : CmdFlagValue) (slot : Slot) (arg : Text) :
    parseFlag (t.setVal val slot) arg = parseFlag t arg := by
  unfold parseFlag
  split
  · rw [find_setVal t val slot fun _ => rfl]
  · rw [find_setVal t val slot fun _ => rfl]
  · rfl

theorem flag_setVal_same (t : Tables) (val : CmdFlagValue) (slot : Slot) :
    (t.setVal val slot).flag slot = (t.flag slot).map (CmdFlag.setVal val) := by
  cases slot with
  | global i => exact List.getElem?_modify_eq ..
  | command i => exact List.getElem?_modify_eq ..

/-- A value is set for one flag only. Kind: L -/
theorem flag_setVal_ne (t : Tables) (val : CmdFlagValue) {slot slot' : Slot} (h : slot ≠ slot') :
    (t.setVal val slot).flag slot' = t.flag slot' := by
  cases slot with
  | global i =>
      cases slot' with
      | global j => exact List.getElem?_modify_ne _ _ fun heq => h (congrArg Slot.global heq)
      | command j => rfl
  | command i =>
      cases slot' with
      | global j => rfl
      | command j => exact List.getElem?_modify_ne _ _ fun heq => h (congrArg Slot.command heq)

theorem takesValue_setVal (t : Tables) (val : CmdFlagValue) (slot slot' : Slot) :
    (t.setVal val slot).takesValue slot' = t.takesValue slot' := by
  unfold Tables.takesValue
  by_cases h : slot = slot'
  · rw [h, flag_setVal_same]
    cases t.flag slot' <;> rfl
  · rw [flag_setVal_ne t val h]

/-- What an argument is does not depend on the values. Kind: L -/
theorem kindOf_setVal (t : Tables) (val : CmdFlagValue) (slot : Slot) (arg : Text) :
    (t.setVal val slot).kindOf arg = t.kindOf arg := by
  unfold Tables.kindOf
  simp only [parseFlag_setVal, takesValue_setVal]

/-- An argument of a command changes the positions only. Kind: L -/
theorem usePos_tables {p p' : Parsed} {arg : Text} (h : p.usePos arg = .ok p') :
    ∃ pos, p'.tables = { p.tables with pos := pos } := by
  unfold Parsed.usePos at h
  split_ifs at h
  · obtain rfl := Except.ok.inj h
    exact ⟨p.tables.pos, rfl⟩
  · obtain ⟨tables, htables, h⟩ := bind_ok h
    obtain ⟨i, q, val, -, -, -, -, rfl⟩ := usePositional_ok htables
    obtain rfl := Except.ok.inj h
    exact ⟨_, rfl⟩

/-- A flag that is used gets its value and changes nothing else. Kind: L -/
theorem useFlag_ok {p p' : Parsed} {slot : Slot} {val : Option Text}
    (h : p.useFlag slot val = .ok p') :
    ∃ f v, p.tables.flag slot = some f ∧ flagValue f val = .ok v ∧
      p' = { p with tables := p.tables.setVal v slot } := by
  unfold Parsed.useFlag at h
  cases hflag : p.tables.flag slot with
  | none =>
      rw [hflag] at h
      cases h
  | some f =>
      rw [hflag] at h
      obtain ⟨v, hv, h⟩ := bind_ok h
      exact ⟨f, v, rfl, hv, (Except.ok.inj h).symm⟩

/-- **No action changes what an argument is.** Kind: L -/
theorem act_kinds {p p' : Parsed} {a : Action}
    (h : p.act a = .ok p') : SameKinds p.tables p'.tables := by
  intro arg
  cases a with
  | flag slot val =>
      obtain ⟨f, v, -, -, rfl⟩ := useFlag_ok h
      exact kindOf_setVal ..
  | positional s =>
      obtain ⟨pos, hpos⟩ := usePos_tables h
      rw [hpos]
      rfl

/-- Under tables alike a group does the same. Kind: L -/
theorem SameKinds.action {t t' : Tables} (h : SameKinds t t')
    (g : Group) : g.action t' = g.action t := by
  have hkinds : ∀ arg, t'.kindOf arg = t.kindOf arg := h
  cases g <;> simp only [Group.action, hkinds]

/-! ## Groups are used one after the other -/

/-- What a group is, by what its first argument is. Kind: L -/
theorem action_cases {t : Tables} {g : Group} {a : Action} (h : g.action t = some a) :
    (∃ arg slot val, g = .flag arg ∧ t.kindOf arg = .flag slot val ∧ a = .flag slot val) ∨
    (∃ arg value slot, g = .valued arg value ∧ t.kindOf arg = .valued slot ∧
      a = .flag slot (some value)) ∨
    ∃ arg, g = .positional arg ∧ t.kindOf arg = .positional ∧ a = .positional arg := by
  cases g with
  | flag arg =>
      unfold Group.action at h
      dsimp only at h
      split at h
      · exact .inl ⟨arg, _, _, rfl, ‹_›, (Option.some.inj h).symm⟩
      · cases h
  | valued arg value =>
      unfold Group.action at h
      dsimp only at h
      split at h
      · exact .inr (.inl ⟨arg, value, _, rfl, ‹_›, (Option.some.inj h).symm⟩)
      · cases h
  | positional arg =>
      unfold Group.action at h
      dsimp only at h
      split at h
      · exact .inr (.inr ⟨arg, rfl, ‹_›, (Option.some.inj h).symm⟩)
      · cases h

/-- One group in front of other arguments. Kind: L -/
theorem parse_group {p : Parsed} {g : Group} {a : Action} (h : g.action p.tables = some a)
    (rest : List Text) :
    parseArgs p (g.args ++ rest) = (p.act a).bind fun p => parseArgs p rest := by
  rcases action_cases h with ⟨arg, slot, val, rfl, hk, rfl⟩ | ⟨arg, v, slot, rfl, hk, rfl⟩ |
    ⟨arg, rfl, hk, rfl⟩
  · change parseArgs p (arg :: rest) = _
    rw [parseArgs, hk]
    rfl
  · change parseArgs p (arg :: v :: rest) = _
    rw [parseArgs, hk]
    rfl
  · change parseArgs p (arg :: rest) = _
    rw [parseArgs, hk]
    rfl

/-- **Complete groups are used in order**, whatever stands behind them. Kind: L -/
theorem parse_groups {t : Tables} : ∀ {gs : List Group} {p : Parsed}, Complete t gs →
    SameKinds t p.tables → ∀ rest,
      parseArgs p (gs.flatMap Group.args ++ rest) = (actAll t p gs).bind fun p => parseArgs p rest
  | [], _, _, _, _ => rfl
  | g :: gs, p, hcomplete, hkinds, rest => by
      obtain ⟨hg, hgs⟩ := List.forall_mem_cons.mp hcomplete
      obtain ⟨a, ha⟩ := Option.isSome_iff_exists.mp hg
      have hap : g.action p.tables = some a := (hkinds.action g).trans ha
      rw [List.flatMap_cons, List.append_assoc, parse_group hap, actAll, ha]
      dsimp only
      cases hact : p.act a with
      | error e => rfl
      | ok p' => exact parse_groups hgs (fun arg => (act_kinds hact arg).trans (hkinds arg)) rest

/-! ## Each argument is used once -/

/-- The arguments are groups, up to the end or a `--`. -/
structure Used (t : Tables) (args : List Text) (gs : List Group) (tail : List Text) : Prop where
  complete : Complete t gs
  args_eq : args = gs.flatMap Group.args ++ tail
  tail_eq : tail = [] ∨ ∃ s rest, tail = s :: rest ∧ cmdIsIgnoreArguments s = true

theorem kindOf_ignore {t : Tables} {s : Text} (h : cmdIsIgnoreArguments s = true) :
    t.kindOf s = .rest := by
  unfold Tables.kindOf
  rw [if_pos h]

/-- **Two groups that start with the same argument, and the ends behind them.** Kind: L -/
theorem group_unique {t : Tables} {g g' : Group} {a a' : Action} (hg : g.action t = some a)
    (hg' : g'.action t = some a') {rest rest' : List Text}
    (h : g.args ++ rest = g'.args ++ rest') : g = g' ∧ rest = rest' := by
  rcases action_cases hg with ⟨s, _, _, rfl, hk, -⟩ | ⟨s, v, _, rfl, hk, -⟩ | ⟨s, rfl, hk, -⟩ <;>
    rcases action_cases hg' with ⟨s', _, _, rfl, hk', -⟩ |
      ⟨s', v', _, rfl, hk', -⟩ | ⟨s', rfl, hk', -⟩ <;>
    obtain ⟨rfl, hrest⟩ := List.cons.inj h <;> rw [hk] at hk' <;> cases hk'
  · exact ⟨rfl, hrest⟩
  · obtain ⟨rfl, hrest'⟩ := List.cons.inj hrest
    exact ⟨rfl, hrest'⟩
  · exact ⟨rfl, hrest⟩

/-- No group starts with what ends the groups. Kind: L -/
theorem group_not_tail {t : Tables} {g : Group} {a : Action} (hg : g.action t = some a)
    {rest tail : List Text}
    (htail : tail = [] ∨ ∃ s rest, tail = s :: rest ∧ cmdIsIgnoreArguments s = true)
    (h : g.args ++ rest = tail) : False := by
  have hfirst : ∀ arg more, arg :: more = tail → t.kindOf arg = .rest := by
    rintro arg more heq
    rcases htail with rfl | ⟨s, rest', rfl, hs⟩
    · cases heq
    · obtain ⟨rfl, -⟩ := List.cons.inj heq
      exact kindOf_ignore hs
  rcases action_cases hg with ⟨s, _, _, rfl, hk, -⟩ | ⟨s, v, _, rfl, hk, -⟩ | ⟨s, rfl, hk, -⟩
  · rw [hfirst s rest h] at hk
    cases hk
  · rw [hfirst s (v :: rest) h] at hk
    cases hk
  · rw [hfirst s rest h] at hk
    cases hk

theorem Complete.head {t : Tables} {g : Group} {gs : List Group} (h : Complete t (g :: gs)) :
    (∃ a, g.action t = some a) ∧ Complete t gs := by
  obtain ⟨hg, hgs⟩ := List.forall_mem_cons.mp h
  exact ⟨Option.isSome_iff_exists.mp hg, hgs⟩

/-- **Arguments are groups in one way.** Kind: P -/
theorem used_unique {t : Tables} : ∀ {gs gs' : List Group} {args tail tail' : List Text},
    Used t args gs tail → Used t args gs' tail' → gs' = gs ∧ tail' = tail
  | [], [], _, _, _, h, h' => ⟨rfl, h'.args_eq.symm.trans h.args_eq⟩
  | [], g' :: gs', _, _, _, h, h' => by
      have heq := h'.args_eq.symm.trans h.args_eq
      rw [List.flatMap_cons, List.append_assoc] at heq
      obtain ⟨a, ha⟩ := h'.complete.head.1
      exact (group_not_tail ha h.tail_eq heq).elim
  | g :: gs, [], _, _, _, h, h' => by
      have heq := h.args_eq.symm.trans h'.args_eq
      rw [List.flatMap_cons, List.append_assoc] at heq
      obtain ⟨a, ha⟩ := h.complete.head.1
      exact (group_not_tail ha h'.tail_eq heq).elim
  | g :: gs, g' :: gs', _, _, _, h, h' => by
      have heq := h.args_eq.symm.trans h'.args_eq
      rw [List.flatMap_cons, List.flatMap_cons, List.append_assoc, List.append_assoc] at heq
      obtain ⟨⟨a, ha⟩, hgs⟩ := h.complete.head
      obtain ⟨⟨a', ha'⟩, hgs'⟩ := h'.complete.head
      obtain ⟨rfl, hrest⟩ := group_unique ha ha' heq
      obtain ⟨rfl, rfl⟩ := used_unique ⟨hgs, rfl, h.tail_eq⟩ ⟨hgs', hrest, h'.tail_eq⟩
      exact ⟨rfl, rfl⟩

/-- A complete group in front of arguments that are used. Kind: L -/
theorem Used.cons {t : Tables} {args tail : List Text} {gs : List Group} (h : Used t args gs tail)
    {g : Group} {a : Action} (ha : g.action t = some a) : Used t (g.args ++ args)
      (g :: gs) tail := by
  refine ⟨List.forall_mem_cons.mpr ⟨ha ▸ rfl, h.complete⟩, ?_, h.tail_eq⟩
  rw [List.flatMap_cons, List.append_assoc, ← h.args_eq]

/-- One group in front of arguments that are groups. Kind: L -/
theorem used_step {t : Tables} {p p' : Parsed} (hkinds : SameKinds t p.tables) {g : Group}
    {a : Action}
    (ha : g.action t = some a) {args : List Text}
    (hrun : ((p.act a).bind fun p => parseArgs p args) = .ok p')
    (ih : ∀ q : Parsed, SameKinds t q.tables → parseArgs q args = .ok p' →
      ∃ gs tail, Used t args gs tail) : ∃ gs tail, Used t (g.args ++ args) gs tail := by
  obtain ⟨q, hq, hrun⟩ := bind_ok hrun
  obtain ⟨gs, tail, hused⟩ := ih q (fun s => (act_kinds hq s).trans (hkinds s)) hrun
  exact ⟨g :: gs, tail, hused.cons ha⟩

/-- **A parse that succeeds uses the arguments as groups.** Kind: P -/
theorem used_of_ok {t : Tables} : ∀ {args : List Text} {p p' : Parsed}, SameKinds t p.tables →
    parseArgs p args = .ok p' → ∃ gs tail, Used t args gs tail
  | [], _, _, _, _ => ⟨[], [], fun g hg => absurd hg List.not_mem_nil, rfl, .inl rfl⟩
  | arg :: args, p, p', hkinds, h => by
      unfold parseArgs at h
      rcases kindOf_cases p.tables arg with ⟨hignore, -⟩ | ⟨-, ⟨-, hkind⟩ | ⟨_, -, hkind⟩ |
        ⟨slot, val, f, -, hflag, ⟨hvalued, hkind⟩ | ⟨-, hkind⟩⟩⟩
      · exact ⟨[], arg :: args, fun g hg => absurd hg List.not_mem_nil, rfl,
          .inr ⟨arg, args, rfl, hignore⟩⟩
      · have hkind' : t.kindOf arg = .positional := (hkinds arg).symm.trans hkind
        rw [hkind] at h
        have ha : (Group.positional arg).action t = some (.positional arg) := by
          simp only [Group.action, hkind']
        exact used_step hkinds ha h fun q hq hrun => used_of_ok hq hrun
      · rw [hkind] at h
        cases h
      · have hkind' : t.kindOf arg = .valued slot := (hkinds arg).symm.trans hkind
        rw [hkind] at h
        cases args with
        | nil =>
            obtain ⟨f', v, hf, hv, -⟩ := useFlag_ok h
            obtain rfl := Option.some.inj (hflag.symm.trans hf)
            obtain ⟨e, he⟩ := flagValue_none (Bool.and_eq_true_iff.mp hvalued).1
            rw [he] at hv
            cases hv
        | cons value args =>
            have ha : (Group.valued arg value).action t = some (.flag slot (some value)) := by
              simp only [Group.action, hkind']
            exact used_step hkinds ha h fun q hq hrun => used_of_ok hq hrun
      · have hkind' : t.kindOf arg = .flag slot val := (hkinds arg).symm.trans hkind
        rw [hkind] at h
        have ha : (Group.flag arg).action t = some (.flag slot val) := by
          simp only [Group.action, hkind']
        exact used_step hkinds ha h fun q hq hrun => used_of_ok hq hrun

/-! ## Spellings -/

/-- What the source stops at: two flags with one name or one short format. -/
def clash (f g : CmdFlag) : Prop :=
  f.name.isSome = true ∧ g.name.isSome = true ∧
    (f.name = g.name ∨ (f.sf.isSome = true ∧ f.sf = g.sf))

/-- Source: `args.c` `vmInitializeCommand`, `parseCommandLineArguments_`. -/
def Tables.Distinct (t : Tables) : Prop := (t.global ++ t.args).Pairwise fun f g => ¬ clash f g

/-- **In tables without duplicates what fits a flag and clashes otherwise finds that flag.**
Kind: L -/
theorem find_of_distinct {t : Tables} (hdistinct : t.Distinct) {p : CmdFlag → Bool}
    (hclash : ∀ f g, p f = true → p g = true → clash f g) {slot : Slot} {f : CmdFlag}
    (hflag : t.flag slot = some f) (hf : p f = true) : t.find p = some slot := by
  obtain ⟨hglobal, hargs, hcross⟩ := List.pairwise_append.mp hdistinct
  have hfirst : ∀ {fs : List CmdFlag} {i : ℕ}, fs.Pairwise (fun f g => ¬ clash f g) →
      fs[i]? = some f → fs.findIdx? p = some i := by
    intro fs i hfs hi
    obtain ⟨hlt, rfl⟩ := List.getElem?_eq_some_iff.mp hi
    refine List.findIdx?_eq_some_iff_getElem.mpr ⟨hlt, hf, fun j hj hpj => ?_⟩
    exact List.pairwise_iff_getElem.mp hfs j i (by omega) hlt hj (hclash _ _ hpj hf)
  unfold Tables.find
  cases slot with
  | global i => rw [hfirst hglobal hflag]
  | command i =>
      have hnone : t.global.findIdx? p = none := by
        refine List.findIdx?_eq_none_iff.mpr fun g hg => ?_
        by_contra hpg
        exact hcross g hg f (List.mem_of_getElem? hflag) (hclash _ _ (Bool.of_not_eq_false hpg) hf)
      rw [hnone, hfirst hargs hflag]
      rfl

/-- Two flags with one name clash. Kind: L -/
theorem hasName_clash (name : Text) (f g : CmdFlag) (hf : hasName name f = true)
    (hg : hasName name g = true) : clash f g := by
  have hf' : f.name = some name := beq_iff_eq.mp hf
  have hg' : g.name = some name := beq_iff_eq.mp hg
  exact ⟨by rw [hf']; rfl, by rw [hg']; rfl, .inl (hf'.trans hg'.symm)⟩

/-- Two flags with one short format clash. Kind: L -/
theorem hasShort_clash (sf : Char) (f g : CmdFlag) (hf : hasShort sf f = true)
    (hg : hasShort sf g = true) : clash f g := by
  obtain ⟨hf₁, hf₂⟩ := Bool.and_eq_true_iff.mp hf
  obtain ⟨hg₁, hg₂⟩ := Bool.and_eq_true_iff.mp hg
  have hf' : f.sf = some sf := beq_iff_eq.mp hf₂
  have hg' : g.sf = some sf := beq_iff_eq.mp hg₂
  exact ⟨hf₁, hg₁, .inr ⟨by rw [hf']; rfl, hf'.trans hg'.symm⟩⟩

/-- A flag that takes a value, with a name and a short format that can be written. -/
structure ValueFlag (t : Tables) (slot : Slot) (name : Text) (sf : Char) : Prop where
  flag : ∃ f, t.flag slot = some f ∧ f.name = some name ∧ f.sf = some sf ∧ f.validator.isSome = true
  name_ne : name ≠ []
  name_eq : '=' ∉ name
  sf_ne : sf ≠ '-'

/-- `--name`. -/
def long (name : Text) : Text := '-' :: '-' :: name

/-- `--name=v`. -/
def longWith (name v : Text) : Text := long (name ++ '=' :: v)

/-- `-n` with what stands behind it. -/
def short (sf : Char) (v : Text) : Text := '-' :: sf :: v

section Spellings

variable {t : Tables} {slot : Slot} {name : Text} {sf : Char}

theorem ValueFlag.takes (h : ValueFlag t slot name sf) : t.takesValue slot = true := by
  obtain ⟨f, hflag, -, -, hvalidator⟩ := h.flag
  unfold Tables.takesValue
  rw [hflag]
  exact hvalidator

/-- A flag is found by its name. Kind: L -/
theorem ValueFlag.find_name (hdistinct : t.Distinct) (h : ValueFlag t slot name sf) :
    t.find (hasName name) = some slot := by
  obtain ⟨f, hflag, hname, -, -⟩ := h.flag
  exact find_of_distinct hdistinct (hasName_clash name) hflag (beq_iff_eq.mpr hname)

/-- A flag is found by its short format. Kind: L -/
theorem ValueFlag.find_short (hdistinct : t.Distinct) (h : ValueFlag t slot name sf) :
    t.find (hasShort sf) = some slot := by
  obtain ⟨f, hflag, hname, hsf, -⟩ := h.flag
  refine find_of_distinct hdistinct (hasShort_clash sf) hflag ?_
  exact Bool.and_eq_true_iff.mpr ⟨by rw [hname]; rfl, beq_iff_eq.mpr hsf⟩

/-- Behind two dashes stands a name, and a value behind `=`. Kind: L -/
theorem parseFlag_long (t : Tables) {body : Text} (h : body ≠ []) :
    parseFlag t (long body) = some (t.find (hasName (body.takeWhile (· != '='))),
      inlineValue body) := by
  obtain ⟨c, rest, rfl⟩ := List.exists_cons_of_ne_nil h
  rfl

/-- `--name` takes the next argument. Kind: L -/
theorem kindOf_long (hdistinct : t.Distinct) (h : ValueFlag t slot name sf) :
    t.kindOf (long name) = .valued slot := by
  have hall : ∀ c ∈ name, (c != '=') = true := by
    intro c hc
    rw [bne_iff_ne]
    rintro rfl
    exact h.name_eq hc
  have hname : name.takeWhile (· != '=') = name := List.takeWhile_eq_self_iff.mpr hall
  have hinline : inlineValue name = none := by
    unfold inlineValue
    rw [List.dropWhile_eq_nil_iff.mpr hall]
  have hignore : cmdIsIgnoreArguments (long name) = false := by
    obtain ⟨c, rest, rfl⟩ := List.exists_cons_of_ne_nil h.name_ne
    rfl
  unfold Tables.kindOf
  rw [hignore, if_neg Bool.false_ne_true, parseFlag_long t h.name_ne, hname, hinline,
    h.find_name hdistinct]
  dsimp only
  rw [h.takes]
  rfl

/-- `--name=v` has its value, without the white space in front. Kind: L -/
theorem kindOf_longWith (hdistinct : t.Distinct) (h : ValueFlag t slot name sf) (v : Text) :
    t.kindOf (longWith name v) = .flag slot (some (v.dropWhile BitFlags.isspace)) := by
  have hall : ∀ c ∈ name, (c != '=') = true := by
    intro c hc
    rw [bne_iff_ne]
    rintro rfl
    exact h.name_eq hc
  have hname : (name ++ '=' :: v).takeWhile (· != '=') = name := by
    rw [List.takeWhile_append_of_pos hall, List.takeWhile_cons_of_neg (by decide), List.append_nil]
  have hinline : inlineValue (name ++ '=' :: v) = some (v.dropWhile BitFlags.isspace) := by
    unfold inlineValue
    rw [List.dropWhile_append_of_pos hall, List.dropWhile_cons_of_neg (by decide)]
  have hne : name ++ '=' :: v ≠ [] := by
    intro heq
    exact h.name_ne (List.append_eq_nil_iff.mp heq).1
  have hignore : cmdIsIgnoreArguments (longWith name v) = false := by
    obtain ⟨c, rest, rfl⟩ := List.exists_cons_of_ne_nil h.name_ne
    rfl
  unfold Tables.kindOf
  rw [hignore, if_neg Bool.false_ne_true]
  unfold longWith
  rw [parseFlag_long t hne, hname, hinline, h.find_name hdistinct]
  dsimp only
  rw [h.takes]
  rfl

/-- A short format with or without a value behind it. Kind: L -/
theorem kindOf_short (hdistinct : t.Distinct) (h : ValueFlag t slot name sf) (v : Text) :
    t.kindOf (short sf v) = if v = [] then .valued slot else .flag slot (some v) := by
  have hignore : cmdIsIgnoreArguments (short sf v) = false := by
    unfold cmdIsIgnoreArguments short
    rw [beq_eq_false_iff_ne]
    intro heq
    exact h.sf_ne (List.cons.inj (List.cons.inj heq).2).1
  have hparse : parseFlag t (short sf v) = some (some slot, if v = [] then none else some v) := by
    have hfirst : parseFlag t (short sf v) =
        if sf = '-' then none else some (t.find (hasShort sf), if v = [] then none
          else some v) := by
      unfold short
      rw [parseFlag]
      exact fun _ _ heq _ => h.sf_ne heq
    rw [hfirst, if_neg h.sf_ne, h.find_short hdistinct]
  unfold Tables.kindOf
  rw [hignore, if_neg Bool.false_ne_true, hparse]
  dsimp only
  rw [h.takes]
  by_cases hv : v = []
  · rw [if_pos hv, if_pos hv]
    rfl
  · rw [if_neg hv, if_neg hv]
    rfl

end Spellings

/-! ## Orders -/

def step (t : Tables) (p : Parsed) (g : Group) : Option Parsed :=
  (g.action t).bind fun a => (p.act a).toOption

theorem toOption_bind {α β : Type} (r : Except Stop α) (f : α → Except Stop β) :
    (r.bind f).toOption = r.toOption.bind fun a => (f a).toOption := by
  cases r <;> rfl

/-- Groups one after the other are a run. Kind: L -/
theorem actAll_run (t : Tables) : ∀ (gs : List Group) (p : Parsed),
    (actAll t p gs).toOption = run (step t) p gs
  | [], _ => rfl
  | g :: gs, p => by
      have hcons : run (step t) p (g :: gs) = (step t p g).bind fun p => run (step t) p gs := rfl
      rw [hcons, step, actAll]
      cases g.action t with
      | none => rfl
      | some a =>
          dsimp only [Option.bind_some]
          rw [toOption_bind]
          exact Option.bind_congr fun p _ => actAll_run t gs p

def Parsed.put (p : Parsed) (slot : Slot) (v : CmdFlagValue) : Parsed :=
  { p with tables := p.tables.setVal v slot }

/-- The value that a flag gets. -/
def Tables.newVal (t : Tables) (slot : Slot) (val : Option Text) : Option CmdFlagValue :=
  (t.flag slot).bind fun f => (flagValue f val).toOption

theorem useFlag_newVal (p : Parsed) (slot : Slot) (val : Option Text) :
    (p.useFlag slot val).toOption = (p.tables.newVal slot val).map (p.put slot) := by
  unfold Parsed.useFlag Tables.newVal
  cases p.tables.flag slot with
  | none => rfl
  | some f =>
      dsimp only [Option.bind_some]
      cases flagValue f val <;> rfl

/-- Values of two flags may be set in any order. Kind: L -/
theorem put_comm (p : Parsed) {slot slot' : Slot} (h : slot ≠ slot') (v v' : CmdFlagValue) :
    (p.put slot v).put slot' v' = (p.put slot' v').put slot v := by
  have htables : (p.tables.setVal v slot).setVal v' slot' =
    (p.tables.setVal v' slot').setVal v slot := by
    cases slot with
    | global i =>
        cases slot' with
        | global j =>
            have hne : i ≠ j := fun heq => h (congrArg Slot.global heq)
            exact congrArg (fun fs => Tables.mk fs p.tables.args p.tables.pos)
              (List.modify_modify_ne _ _ p.tables.global hne)
        | command j => rfl
    | command i =>
        cases slot' with
        | global j => rfl
        | command j =>
            have hne : i ≠ j := fun heq => h (congrArg Slot.command heq)
            exact congrArg (fun fs => Tables.mk p.tables.global fs p.tables.pos)
              (List.modify_modify_ne _ _ p.tables.args hne)
  exact congrArg (fun t => Parsed.mk t p.npos p.kept) htables

/-- **Two flags do not depend on each other.** Kind: L -/
theorem flags_comm {slot slot' : Slot} (h : slot ≠ slot') (val val' : Option Text) (p : Parsed) :
    ((p.useFlag slot val).toOption.bind fun p => (p.useFlag slot' val').toOption) =
      (p.useFlag slot' val').toOption.bind fun p => (p.useFlag slot val).toOption := by
  have hafter : ∀ {slot slot' : Slot}, slot ≠ slot' → ∀ v val',
      ((p.put slot v).useFlag slot' val').toOption =
        (p.tables.newVal slot' val').map ((p.put slot v).put slot') := by
    intro slot slot' h v val'
    rw [useFlag_newVal]
    change ((p.tables.setVal v slot).newVal slot' val').map _ = _
    unfold Tables.newVal
    rw [flag_setVal_ne _ _ h]
  rw [useFlag_newVal, useFlag_newVal]
  cases hv : p.tables.newVal slot val with
  | none =>
      cases hv' : p.tables.newVal slot' val' with
      | none => rfl
      | some v' =>
          rw [Option.map_some, Option.bind_some, hafter h.symm, hv]
          rfl
  | some v =>
      rw [Option.map_some, Option.bind_some, hafter h]
      cases hv' : p.tables.newVal slot' val' with
      | none => rfl
      | some v' =>
          rw [Option.map_some, Option.map_some, Option.bind_some,
            hafter h.symm, hv, Option.map_some,
            put_comm p h]

/-- An argument of a command does not see the flags. Kind: L -/
theorem usePos_put (p : Parsed) (slot : Slot) (v : CmdFlagValue) (arg : Text) :
    ((p.put slot v).usePos arg).toOption = (p.usePos arg).toOption.map fun p => p.put slot v := by
  have hpos : (p.put slot v).tables.pos = p.tables.pos := setVal_pos _ _ _
  unfold Parsed.usePos usePositional
  rw [hpos]
  by_cases hnil : p.tables.pos = []
  · rw [if_pos hnil, if_pos hnil]
    rfl
  · rw [if_neg hnil, if_neg hnil]
    change Except.toOption (((choosePositional p.tables.pos p.npos).bind _).bind _) = _
    cases choosePositional p.tables.pos p.npos with
    | error e => rfl
    | ok i =>
        dsimp only [Except.bind]
        cases p.tables.pos[i]? with
        | none => rfl
        | some q =>
            dsimp only
            split_ifs
            · rfl
            · cases positionalValue q arg with
              | error e => rfl
              | ok val => cases slot <;> rfl

/-- **A flag does not depend on an argument that is not one.** Kind: L -/
theorem flag_pos_comm (slot : Slot) (val : Option Text) (arg : Text) (p : Parsed) :
    ((p.useFlag slot val).toOption.bind fun p => (p.usePos arg).toOption) =
      (p.usePos arg).toOption.bind fun p => (p.useFlag slot val).toOption := by
  cases hq : p.usePos arg with
  | error e =>
      rw [useFlag_newVal]
      cases p.tables.newVal slot val with
      | none => rfl
      | some v =>
          rw [Option.map_some, Option.bind_some, usePos_put, hq]
          rfl
  | ok q =>
      obtain ⟨pos, hpos⟩ := usePos_tables hq
      have hflag : q.tables.newVal slot val = p.tables.newVal slot val := by
        rw [hpos]
        cases slot <;> rfl
      change _ = (q.useFlag slot val).toOption
      rw [useFlag_newVal, useFlag_newVal, hflag]
      cases p.tables.newVal slot val with
      | none => rfl
      | some v =>
          rw [Option.map_some, Option.bind_some, usePos_put, hq]
          rfl

/-- The flag of a group. -/
def Group.slot (t : Tables) (g : Group) : Option Slot :=
  match g.action t with
  | some (.flag slot _) => some slot
  | _ => none

/-- **A flag may change places with any group of another flag and with any position.** Kind: L -/
theorem independent_flag {t : Tables} {g g' : Group} {slot : Slot} {val : Option Text}
    (ha : g.action t = some (.flag slot val)) (hslot : g'.slot t ≠ some slot) :
    Independent (step t) g g' := by
  intro p
  unfold step
  simp only [ha, Option.bind_some]
  unfold Group.slot at hslot
  cases ha' : g'.action t with
  | none =>
      simp only [Option.bind_none]
      cases (p.act (.flag slot val)).toOption <;> rfl
  | some a' =>
      rw [ha'] at hslot
      simp only [Option.bind_some]
      cases a' with
      | flag slot' val' => exact flags_comm (fun heq => hslot (congrArg some heq.symm)) val val' p
      | positional arg => exact flag_pos_comm slot val arg p

/-- A flag that occurs once is in one group. Kind: L -/
theorem slot_unique {t : Tables} : ∀ {gs : List Group}, (gs.filterMap (Group.slot t)).Nodup →
    ∀ {g g' : Group} {slot : Slot}, g ∈ gs → g' ∈ gs → g.slot t = some slot →
      g'.slot t = some slot →
      g = g'
  | g₀ :: gs, hnodup, g, g', slot, hg, hg', hs, hs' => by
      have hin : ∀ {g : Group}, g ∈ gs → g.slot t = some slot →
        slot ∈ gs.filterMap (Group.slot t) :=
        fun hmem hslot => List.mem_filterMap.mpr ⟨_, hmem, hslot⟩
      have hrest : (gs.filterMap (Group.slot t)).Nodup :=
        (List.Sublist.filterMap _ (List.sublist_cons_self g₀ gs)).nodup hnodup
      have hfirst : g₀.slot t = some slot → slot ∉ gs.filterMap (Group.slot t) := by
        intro h
        rw [List.filterMap_cons_some h] at hnodup
        exact (List.nodup_cons.mp hnodup).1
      rcases List.mem_cons.mp hg with heq | hmem
      · rcases List.mem_cons.mp hg' with heq' | hmem'
        · rw [heq, heq']
        · exact absurd (hin hmem' hs') (hfirst (heq ▸ hs))
      · rcases List.mem_cons.mp hg' with heq' | hmem'
        · exact absurd (hin hmem hs) (hfirst (heq' ▸ hs'))
        · exact slot_unique hrest hmem hmem' hs hs'

/-- **Groups of flags that occur once may stand in any order, before or after the positions.**
Kind: P -/
theorem run_groups {t : Tables} {gs gs' : List Group} (hcomplete : Complete t gs)
    (hperm : gs.Perm gs')
    (horder : (gs.filter fun g => !g.isFlag) = gs'.filter fun g => !g.isFlag)
    (honce : (gs.filterMap (Group.slot t)).Nodup) (p : Parsed) :
    run (step t) p gs = run (step t) p gs' := by
  refine run_reorder Group.isFlag hperm horder (fun g hg g' hg' hflag hne => ?_) p
  obtain ⟨a, ha⟩ := Option.isSome_iff_exists.mp (hcomplete g hg)
  have haction : ∃ slot val, g.action t = some (.flag slot val) := by
    rcases action_cases ha with ⟨_, slot, val, rfl, -, rfl⟩ |
      ⟨_, v, slot, rfl, -, rfl⟩ | ⟨_, rfl, -, -⟩
    · exact ⟨slot, val, ha⟩
    · exact ⟨slot, some v, ha⟩
    · cases hflag
  obtain ⟨slot, val, haction⟩ := haction
  have hslot : g.slot t = some slot := by
    unfold Group.slot
    rw [haction]
  exact independent_flag haction fun heq => hne (slot_unique honce hg hg' hslot heq)

/-! ## The command line -/

/-- The values that a parse leaves, with the arguments that are kept. -/
def values (cmdName : Text) (t : Tables) (first : Text) (args : List Text) : Except Stop Parsed :=
  (cmdParseCommandArguments cmdName t (first :: args)).map
    (ParseState.view (keptFrom cmdName first))

/-- Complete groups act in order, and the rest is parsed behind them. Kind: L -/
theorem values_groups (cmdName first : Text) {t : Tables} {gs : List Group} (h : Complete t gs)
    (rest : List Text) : values cmdName t first (gs.flatMap Group.args ++ rest) =
      (actAll t ⟨t, 0, []⟩ gs).bind fun p => parseArgs p rest := by
  unfold values
  rw [cmdParseCommandArguments_eq]
  exact parse_groups h (fun _ => rfl) rest

theorem toOption_eq_some {α : Type} {r : Except Stop α}
    {a : α} : r.toOption = some a ↔ r = .ok a := by
  cases r with
  | error e => exact ⟨fun h => (by cases h), fun h => (by cases h)⟩
  | ok b => exact ⟨fun h => congrArg Except.ok (Option.some.inj h), fun h =>
      congrArg some (Except.ok.inj h)⟩

/-- Groups keep the form of the tables. Kind: L -/
theorem actAll_kinds {t : Tables} : ∀ {gs : List Group} {p p' : Parsed}, SameKinds t p.tables →
    actAll t p gs = .ok p' → SameKinds t p'.tables
  | [], _, _, h, hrun => Except.ok.inj hrun ▸ h
  | g :: gs, p, p', h, hrun => by
      unfold actAll at hrun
      split at hrun
      · cases hrun
      · obtain ⟨q, hq, hrun⟩ := bind_ok hrun
        exact actAll_kinds (fun s => (act_kinds hq s).trans (h s)) hrun

/-- **What stands behind complete groups can be replaced by what is the same there.** Kind: L -/
theorem values_congr (cmdName first : Text) {t : Tables} {pre : List Group} (h : Complete t pre)
    {xs ys : List Text} (hsame : ∀ p : Parsed,
      SameKinds t p.tables → parseArgs p xs = parseArgs p ys) :
    values cmdName t first (pre.flatMap Group.args ++ xs) =
      values cmdName t first (pre.flatMap Group.args ++ ys) := by
  rw [values_groups cmdName first h, values_groups cmdName first h]
  cases hrun : actAll t ⟨t, 0, []⟩ pre with
  | error e => rfl
  | ok p => exact hsame p (actAll_kinds (fun _ => rfl) hrun)

/-- A value in an argument of its own, and one in the argument of the flag. Kind: L -/
theorem parse_valued {p : Parsed} {arg v : Text} {slot : Slot}
    (h : p.tables.kindOf arg = .valued slot)
    (post : List Text) :
    parseArgs p (arg :: v :: post) = (p.useFlag slot (some v)).bind fun p => parseArgs p post := by
  rw [parseArgs, h]

/-- A flag with its value in the argument, or without one. Kind: L -/
theorem parse_flag {p : Parsed} {arg : Text} {slot : Slot} {val : Option Text}
    (h : p.tables.kindOf arg = .flag slot val) (post : List Text) :
    parseArgs p (arg :: post) = (p.useFlag slot val).bind fun p => parseArgs p post := by
  rw [parseArgs, h]

/-- **No read is outside; each argument is used once; the spellings of a value agree; and groups of
flags that occur once may stand in any order, before or after the positions.** Kind: P -/
theorem commandLine_parses (cmdName first : Text) {t : Tables} (hdistinct : t.Distinct) :
    (∀ args, cmdParseCommandArguments cmdName t (first :: args) ≠ .error .outside) ∧
    (∀ args p, values cmdName t first args = .ok p → ∃ gs tail, Used t args gs tail ∧
      (∀ gs' tail', Used t args gs' tail' → gs' = gs ∧ tail' = tail) ∧
      ((actAll t ⟨t, 0, []⟩ gs).bind fun p => parseArgs p tail) = .ok p) ∧
    (∀ slot name sf, ValueFlag t slot name sf → ∀ pre, Complete t pre → ∀ v post,
      let spelled := fun args => values cmdName t first (pre.flatMap Group.args ++ (args ++ post))
      spelled [longWith name v] = spelled [long name, v.dropWhile BitFlags.isspace] ∧
      spelled [long name, v] = spelled [short sf [], v] ∧
      (v ≠ [] → spelled [short sf v] = spelled [short sf [], v])) ∧
    (∀ gs gs' tail, Complete t gs → gs.Perm gs' →
      ((gs.filter fun g => !g.isFlag) = gs'.filter fun g => !g.isFlag) →
      (gs.filterMap (Group.slot t)).Nodup → ∀ p,
        values cmdName t first (gs.flatMap Group.args ++ tail) = .ok p ↔
          values cmdName t first (gs'.flatMap Group.args ++ tail) = .ok p) := by
  refine ⟨never_outside cmdName t first, ?_, ?_, ?_⟩
  · intro args p hok
    have hparse : parseArgs ⟨t, 0, []⟩ args = .ok p :=
      (cmdParseCommandArguments_eq cmdName t first args).symm.trans hok
    obtain ⟨gs, tail, hused⟩ := @used_of_ok t _ _ _ (fun _ => rfl) hparse
    refine ⟨gs, tail, hused, fun gs' tail' => used_unique hused, ?_⟩
    rw [← parse_groups hused.complete (fun _ => rfl), ← hused.args_eq]
    exact hparse
  · intro slot name sf hflag pre hpre v post
    have hlong : t.kindOf (long name) = .valued slot := kindOf_long hdistinct hflag
    have hshort : t.kindOf (short sf []) = .valued slot := kindOf_short hdistinct hflag []
    refine ⟨values_congr cmdName first hpre fun p hp => ?_,
      values_congr cmdName first hpre fun p hp => ?_,
      fun hv => values_congr cmdName first hpre fun p hp => ?_⟩
    · have hwith := (hp _).trans (kindOf_longWith hdistinct hflag v)
      exact (parse_flag hwith post).trans (parse_valued ((hp _).trans hlong) post).symm
    · exact (parse_valued ((hp _).trans hlong) post).trans
        (parse_valued ((hp _).trans hshort) post).symm
    · have hinline := (hp _).trans (kindOf_short hdistinct hflag v)
      rw [if_neg hv] at hinline
      exact (parse_flag hinline post).trans (parse_valued ((hp _).trans hshort) post).symm
  · intro gs gs' tail hgs hperm horder honce p
    have hgs' : Complete t gs' := fun g hg => hgs g (hperm.mem_iff.mpr hg)
    rw [values_groups cmdName first hgs, values_groups cmdName first hgs', ← toOption_eq_some,
      ← toOption_eq_some, toOption_bind, toOption_bind, actAll_run, actAll_run,
      run_groups hgs hperm horder honce]

/-- Source: `args.c` `cmdParseString`. -/
def cmdParseString : Validator := fun _ str _ => .ok (.string str)

/-- A command with a flag `--name`, `-n`. -/
def nameTables : Tables :=
  ⟨[], [⟨some ['n', 'a', 'm', 'e'], some 'n', .noValue, some cmdParseString⟩], []⟩

theorem nameTables_distinct : nameTables.Distinct := List.pairwise_singleton ..

/-- A flag `--all`, `-a` of every command, a command with a flag `--name`, `-n`, and one
position. -/
def buildTables : Tables where
  global := [⟨some ['a', 'l', 'l'], some 'a', .noValue, none⟩]
  args := [⟨some ['n', 'a', 'm', 'e'], some 'n', .noValue, some cmdParseString⟩]
  pos := [⟨['f'], false, .noValue, some cmdParseString⟩]

theorem buildTables_distinct : buildTables.Distinct := by
  refine List.Pairwise.cons (fun g hg => ?_) (List.pairwise_singleton ..)
  obtain rfl := List.mem_singleton.mp hg
  unfold clash
  decide

theorem buildTables_flag : ValueFlag buildTables (.command 0) ['n', 'a', 'm', 'e'] 'n' where
  flag := ⟨_, rfl, rfl, rfl, rfl⟩
  name_ne := by decide
  name_eq := by decide
  sf_ne := by decide

/-- `-a`. -/
def allGroup : Group := .flag (short 'a' [])

/-- `--name v`. -/
def nameGroup : Group := .valued (long ['n', 'a', 'm', 'e']) ['v']

theorem complete_groups : Complete buildTables [allGroup, nameGroup, .positional ['x']] := by
  unfold Complete
  decide

/-- The value of the first flag of the command. -/
def firstValue (r : Except Stop Parsed) : Option CmdFlagValue :=
  r.toOption.bind fun p => (p.tables.flag (.command 0)).map CmdFlag.val

/-- `-a` in front of the spellings, and the position moved in front of the flags. Kind: P -/
theorem spelled_alike :
    values ['c'] buildTables ['c'] [short 'a' [], longWith ['n', 'a', 'm', 'e'] ['v'], ['x']] =
        values ['c'] buildTables ['c'] [short 'a' [], long ['n', 'a', 'm', 'e'], ['v'], ['x']] ∧
      values ['c'] buildTables ['c'] [short 'a' [], long ['n', 'a', 'm', 'e'], ['v'], ['x']] =
        values ['c'] buildTables ['c'] [short 'a' [], short 'n' [], ['v'], ['x']] ∧
      values ['c'] buildTables ['c'] [short 'a' [], short 'n' ['v'], ['x']] =
        values ['c'] buildTables ['c'] [short 'a' [], short 'n' [], ['v'], ['x']] ∧
      (∀ p, values ['c'] buildTables ['c']
        [short 'a' [], long ['n', 'a', 'm', 'e'], ['v'], ['x']] = .ok p ↔
        values ['c'] buildTables ['c'] [['x'], long ['n', 'a', 'm', 'e'],
          ['v'], short 'a' []] = .ok p) ∧
      firstValue (values ['c'] buildTables ['c']
        [['x'], long ['n', 'a', 'm', 'e'], ['v'], short 'a' []]) =
        some (.string ['v']) := by
  obtain ⟨-, -, hspelled, hmoved⟩ := commandLine_parses ['c'] ['c'] buildTables_distinct
  have hfirst : Complete buildTables [allGroup] := fun g hg =>
    complete_groups g (List.mem_cons.mpr (.inl (List.mem_singleton.mp hg)))
  obtain ⟨hwith, hshort, hinline⟩ := hspelled _ _ _ buildTables_flag _ hfirst ['v'] [['x']]
  exact ⟨hwith, hshort, hinline (by decide),
    hmoved _ [Group.positional ['x'], nameGroup, allGroup] [] complete_groups
      (List.reverse_perm [Group.positional ['x'], nameGroup, allGroup]) rfl (by decide), by decide⟩

/-- **Behind a `=` a value loses the white space in front.** Kind: P -/
theorem white_space_lost : nameTables.Distinct ∧
    values ['c'] nameTables ['c'] [longWith ['n', 'a', 'm', 'e'] [' ', 'v']] ≠
      values ['c'] nameTables ['c'] [long ['n', 'a', 'm', 'e'], [' ', 'v']] := by
  refine ⟨nameTables_distinct, fun h => ?_⟩
  exact absurd (congrArg firstValue h) (by decide)

end CxyCompiler.Core.Args
