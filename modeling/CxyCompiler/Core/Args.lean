import CxyCompiler.Core.BitFlags
import Mathlib.Algebra.Order.Ring.Nat

/-!
# Arguments of the command line

`cmdParseCommandArguments` goes through the arguments of a command with a pointer and a counter. A
flag that takes a value and does not carry it in its own argument takes the next one. Arguments that
are not flags are stored in the positions of the command, or at the front of the vector when the
command has none.

* `parseRound`, `cmdParseCommandArguments`: the source. Each read of the vector or of a table can be
  outside.
* `parseArgs`: the same on the list of the arguments that are left.
* **`cmdParseCommandArguments_eq`**: the pointer and the counter walk along the list.
* **`never_outside`**: no read is outside, not even in the step back in front of a last position
  `--`.

The texts for the usage are left out; `val` is what was memset to zero. A validator gets the value
and the texts: those of the compiler use nothing else. That an error text can be longer than its
buffer is not modelled.

Source: `core/args.c`.
-/

namespace CxyCompiler.Core.Args

/-! ## The source -/

abbrev Text := List Char

/-- A number is given by the bits of the `f64`. Source: `args.h` `CmdFlagValue`. -/
inductive CmdFlagValue
  | noValue
  | number (num : UInt64)
  | string (str : Text)
  | array (elems : List Text)
  deriving DecidableEq

/-- The value, the text and the name; an error comes with its text. Source: `args.h` `validator`. -/
abbrev Validator := CmdFlagValue → Text → Text → Except Text CmdFlagValue

/-- Source: `args.h` `CmdFlag`. -/
structure CmdFlag where
  name : Option Text
  sf : Option Char
  val : CmdFlagValue
  validator : Option Validator

/-- Source: `args.h` `CmdPositional`. -/
structure CmdPositional where
  name : Text
  isMany : Bool
  val : CmdFlagValue
  validator : Option Validator

/-- `P->args`, `cmd->args` and `cmd->pos`. -/
structure Tables where
  global : List CmdFlag
  args : List CmdFlag
  pos : List CmdPositional

/-- How a parse ends without a result: at a read outside of the vector or a table, at the assertion
of `pushOnDynArrayExplicit`, or with an error text. -/
inductive Stop
  | outside
  | aborted
  | failed (error : Text)

/-- Source: `args.c` `cmdIsIgnoreArguments`. -/
def cmdIsIgnoreArguments (s : Text) : Bool := s == ['-', '-']

/-- The place of a flag. -/
inductive Slot
  | global (i : ℕ)
  | command (i : ℕ)
  deriving DecidableEq

/-- First in `P->args`, then in `cmd->args`. -/
def Tables.find (t : Tables) (p : CmdFlag → Bool) : Option Slot :=
  match t.global.findIdx? p with
  | some i => some (.global i)
  | none => (t.args.findIdx? p).map .command

/-- Source: `args.c` `cmdFindByName`. -/
def hasName (name : Text) (f : CmdFlag) : Bool := f.name == some name

/-- Source: `args.c` `cmdFindByShortFormat`. -/
def hasShort (sf : Char) (f : CmdFlag) : Bool := f.name.isSome && f.sf == some sf

def Tables.flag (t : Tables) : Slot → Option CmdFlag
  | .global i => t.global[i]?
  | .command i => t.args[i]?

def CmdFlag.setVal (val : CmdFlagValue) (f : CmdFlag) : CmdFlag := { f with val := val }

def Tables.setVal (t : Tables) (val : CmdFlagValue) : Slot → Tables
  | .global i => { t with global := t.global.modify i (CmdFlag.setVal val) }
  | .command i => { t with args := t.args.modify i (CmdFlag.setVal val) }

/-- The value behind a `=`, without the white space in front of it. (What is meant for the white
space in front of the `=` starts at the `=`, and does nothing.) -/
def inlineValue (arg : Text) : Option Text :=
  match arg.dropWhile (· != '=') with
  | [] => none
  | _ :: val => some (val.dropWhile BitFlags.isspace)

/-- None for an argument that is not a flag; else its place and the value that it carries.
Source: `args.c` `cmdIsShortFlag`, `cmdIsLongFlag`. -/
def parseFlag (t : Tables) : Text → Option (Option Slot × Option Text)
  | '-' :: '-' :: c :: rest =>
      some (t.find (hasName ((c :: rest).takeWhile (· != '='))), inlineValue (c :: rest))
  | '-' :: c :: rest =>
      if c = '-' then none
      else some (t.find (hasShort c), if rest = [] then none else some rest)
  | _ => none

def failed {α : Type} (parts : List Text) : Except Stop α := .error (.failed parts.flatten)

def ofValidator : Except Text CmdFlagValue → Except Stop CmdFlagValue
  | .ok val => .ok val
  | .error error => .error (.failed error)

/-- The bits of `1.0`. -/
def one : UInt64 := 0x3FF0000000000000

/-- Source: `args.c` `cmdParseCommandArguments`, the end of a round. -/
def flagValue (flag : CmdFlag) (val : Option Text) : Except Stop CmdFlagValue :=
  match flag.validator, val with
  | some _, none =>
      failed ["error: command flag '".toList, flag.name.getD [], "' expects a value\n".toList]
  | some validator, some val => ofValidator (validator flag.val val (flag.name.getD []))
  | none, some _ =>
      failed ["error: unexpected value passed to flag '".toList, flag.name.getD [], "'\n".toList]
  | none, none => .ok (.number one)

/-- The position that takes an argument. The step back is `npos - 2` in 32 bits.
Source: `args.c` `cmdParseCommandArguments`. -/
def choosePositional (pos : List CmdPositional) (npos : ℕ) : Except Stop ℕ :=
  let tooMany := failed [
    "error: unexpected number of positional arguments passed, expecting ".toList,
    Nat.toDigits 10 pos.length, ['\n']]
  if pos.length ≤ npos then
    match pos[pos.length - 1]? with
    | none => .error .outside
    | some last =>
        if cmdIsIgnoreArguments last.name && pos.length < 1 then tooMany
        else
          let i := if cmdIsIgnoreArguments last.name then (pos.length + (2 ^ 32 - 2)) % 2 ^ 32
            else pos.length - 1
          match pos[i]? with
          | none => .error .outside
          | some p => if p.isMany then .ok i else tooMany
  else .ok npos

/-- Source: `array.c` `pushOnDynArrayExplicit`; an array without memory has elements of no size. -/
def pushString : CmdFlagValue → Text → Except Stop CmdFlagValue
  | .array elems, s => .ok (.array (elems ++ [s]))
  | _, _ => .error .aborted

def positionalValue (p : CmdPositional) (arg : Text) : Except Stop CmdFlagValue :=
  match p.validator with
  | some validator => ofValidator (validator p.val arg p.name)
  | none =>
      if p.isMany then
        match p.val with
        | .array elems => pushString (.array elems) arg
        | _ => pushString (.array []) arg
      else .ok (.string arg)

def CmdPositional.setVal (val : CmdFlagValue) (p : CmdPositional) : CmdPositional :=
  { p with val := val }

/-- Source: `args.c` `cmdParseCommandArguments`, an argument of a command with positions. -/
def usePositional (t : Tables) (npos : ℕ) (arg : Text) : Except Stop Tables :=
  (choosePositional t.pos npos).bind fun i =>
    match t.pos[i]? with
    | none => .error .outside
    | some p =>
        if cmdIsIgnoreArguments p.name then
          failed [
            "error: unexpected number of positional arguments passed, expecting at most ".toList,
            Nat.toDigits 10 (t.pos.length - 1),
              ", you can use '--' to capture rest of arguments\n".toList]
        else (positionalValue p arg).bind fun val =>
          .ok { t with pos := t.pos.modify i (CmdPositional.setVal val) }

/-- The variables of the parse; `v` starts at `argv - 1`, and `next` is where `argv` points. -/
structure ParseState where
  v : List Text
  next : ℕ
  argc : ℕ
  tables : Tables
  npos : ℕ
  reWrite : ℕ

/-- The element behind the last argument is NULL. -/
def readArg (v : List Text) (i : ℕ) : Except Stop (Option Text) :=
  if i ≤ v.length then .ok v[i]? else .error .outside

/-- A read that takes the element for a text. -/
def readText (v : List Text) (i : ℕ) : Except Stop Text :=
  match v[i]? with
  | none => .error .outside
  | some s => .ok s

/-- The loop behind a `--`. -/
def pushRest (v : List Text) : ℕ → ℕ → CmdFlagValue → Except Stop CmdFlagValue
  | 0, _, val => .ok val
  | argc + 1, next, val =>
      (readText v next).bind fun s => (pushString val s).bind fun val =>
        pushRest v argc (next + 1) val

/-- Source: `args.c` `cmdParseCommandArguments`, behind a `--`. -/
def takeRest (st : ParseState) : Except Stop ParseState :=
  match st.tables.pos[st.tables.pos.length - 1]? with
  | none => .ok st
  | some last =>
      if cmdIsIgnoreArguments last.name then
        (pushRest st.v st.argc st.next (if last.isMany then .array [] else last.val)).bind
          fun val =>
          .ok { st with
            tables := { st.tables with
              pos := st.tables.pos.modify (st.tables.pos.length - 1) (CmdPositional.setVal val) }
            next := st.next + st.argc
            argc := 0 }
      else .ok st

/-- The state after an argument, or two. -/
def ParseState.advance (st : ParseState) (n : ℕ) (tables : Tables) : ParseState :=
  { st with tables := tables, next := st.next + n, argc := st.argc - n }

/-- One round of the loop, and whether it leaves the loop; `dst` is where arguments are put that are
kept. Source: `args.c` `cmdParseCommandArguments`. -/
def parseRound (dst : ℕ) (st : ParseState) : Except Stop (Bool × ParseState) :=
  (readText st.v st.next).bind fun arg =>
    if cmdIsIgnoreArguments arg then
      (takeRest (st.advance 1 st.tables)).map fun st => (true, st)
    else
      match parseFlag st.tables arg with
      | none =>
          if st.tables.pos = [] then
            if st.v.length ≤ dst + st.reWrite then .error .outside
            else
              .ok (false, { st.advance 1 st.tables with
                v := st.v.set (dst + st.reWrite) arg
                reWrite := st.reWrite + 1
                npos := st.npos + 1 })
          else
            (usePositional st.tables st.npos arg).bind fun tables =>
              .ok (false, { st.advance 1 tables with npos := st.npos + 1 })
      | some (none, _) => failed
          ["error: unrecognized command argument '".toList, arg, "'\n".toList]
      | some (some slot, val) =>
          match st.tables.flag slot with
          | none => .error .outside
          | some flag =>
              if flag.validator.isSome && val.isNone && 0 < st.argc then
                (readArg st.v (st.next + 1)).bind fun value =>
                  (flagValue flag value).bind fun val =>
                  .ok (false, st.advance 2 (st.tables.setVal val slot))
              else
                (flagValue flag val).bind fun val =>
                  .ok (false, st.advance 1 (st.tables.setVal val slot))

/-- Each round uses an argument. -/
def parseLoop (dst : ℕ) : ℕ → ParseState → Except Stop ParseState
  | 0, st => .ok st
  | rounds + 1, st =>
      if st.argc = 0 then .ok st
      else (parseRound dst st).bind fun r => if r.1 then .ok r.2 else parseLoop dst rounds r.2

/-- The vector from the word in front of the arguments on.
Source: `args.c` `cmdParseCommandArguments`. -/
def cmdParseCommandArguments (cmdName : Text) (t : Tables)
    (v : List Text) : Except Stop ParseState :=
  (readText v 0).bind fun first =>
    parseLoop (if cmdName = first then 0 else 1) (v.length - 1) ⟨v, 1, v.length - 1, t, 0, 0⟩

/-! ## On the list of arguments -/

/-- What a parse has made so far; `kept` are the arguments at the front of the vector. -/
structure Parsed where
  tables : Tables
  npos : ℕ
  kept : List Text

/-- What an argument is; a flag comes with the value that it carries. -/
inductive ArgKind
  | rest
  | positional
  | unknown
  | flag (slot : Slot) (val : Option Text)
  | valued (slot : Slot)

def Tables.takesValue (t : Tables) (slot : Slot) : Bool :=
  (t.flag slot).any fun f => f.validator.isSome

def Tables.kindOf (t : Tables) (arg : Text) : ArgKind :=
  if cmdIsIgnoreArguments arg then .rest
  else
    match parseFlag t arg with
    | none => .positional
    | some (none, _) => .unknown
    | some (some slot, val) => if t.takesValue slot && val.isNone then .valued slot
        else .flag slot val

def Parsed.useFlag (p : Parsed) (slot : Slot) (val : Option Text) : Except Stop Parsed :=
  match p.tables.flag slot with
  | none => .error .outside
  | some flag => (flagValue flag val).bind fun val =>
      .ok { p with tables := p.tables.setVal val slot }

def Parsed.usePos (p : Parsed) (arg : Text) : Except Stop Parsed :=
  if p.tables.pos = [] then .ok { p with npos := p.npos + 1, kept := p.kept ++ [arg] }
  else (usePositional p.tables p.npos arg).bind fun tables =>
    .ok { p with tables := tables, npos := p.npos + 1 }

def pushAll : CmdFlagValue → List Text → Except Stop CmdFlagValue
  | val, [] => .ok val
  | val, s :: rest => (pushString val s).bind fun val => pushAll val rest

def Parsed.useRest (p : Parsed) (rest : List Text) : Except Stop Parsed :=
  match p.tables.pos[p.tables.pos.length - 1]? with
  | none => .ok p
  | some last =>
      if cmdIsIgnoreArguments last.name then
        (pushAll (if last.isMany then .array [] else last.val) rest).bind fun val =>
          .ok { p with tables := { p.tables with
            pos := p.tables.pos.modify (p.tables.pos.length - 1) (CmdPositional.setVal val) } }
      else .ok p

def unrecognized (arg : Text) : Except Stop Parsed :=
  failed ["error: unrecognized command argument '".toList, arg, "'\n".toList]

/-- The arguments that are left, from the first on. -/
def parseArgs : Parsed → List Text → Except Stop Parsed
  | p, [] => .ok p
  | p, arg :: args =>
      match p.tables.kindOf arg with
      | .rest => p.useRest args
      | .positional => (p.usePos arg).bind fun p => parseArgs p args
      | .unknown => unrecognized arg
      | .flag slot val => (p.useFlag slot val).bind fun p => parseArgs p args
      | .valued slot =>
          match args with
          | [] => p.useFlag slot none
          | value :: args => (p.useFlag slot (some value)).bind fun p => parseArgs p args

def ParseState.view (dst : ℕ) (st : ParseState) : Parsed :=
  ⟨st.tables, st.npos, (st.v.drop dst).take st.reWrite⟩

/-! ## The pointer and the list -/

theorem readText_of_drop {v rest : List Text} {i : ℕ} {arg : Text} (h : v.drop i = arg :: rest) :
    readText v i = .ok arg ∧ v.drop (i + 1) = rest ∧ i < v.length := by
  have hlt : i < v.length := by
    by_contra hge
    rw [List.drop_eq_nil_of_le (not_lt.mp hge)] at h
    cases h
  rw [List.drop_eq_getElem_cons hlt] at h
  obtain ⟨rfl, rfl⟩ := List.cons.inj h
  refine ⟨?_, rfl, hlt⟩
  unfold readText
  rw [List.getElem?_eq_getElem hlt]

theorem pushRest_eq {v : List Text} : ∀ (rest : List Text) {next : ℕ} (val : CmdFlagValue),
    v.drop next = rest → pushRest v rest.length next val = pushAll val rest
  | [], _, _, _ => rfl
  | s :: rest, next, val, h => by
      obtain ⟨hread, hdrop, -⟩ := readText_of_drop h
      have hstep : pushRest v (s :: rest).length next val =
          (readText v next).bind fun s => (pushString val s).bind fun val =>
            pushRest v rest.length (next + 1) val := rfl
      rw [hstep, hread]
      change ((pushString val s).bind fun val => pushRest v rest.length (next + 1) val) = _
      unfold pushAll
      cases pushString val s with
      | error e => rfl
      | ok val => exact pushRest_eq rest val hdrop

theorem takeRest_view (dst : ℕ) {st : ParseState} (h : st.next + st.argc = st.v.length) :
    (takeRest st).map (ParseState.view dst) = (st.view dst).useRest (st.v.drop st.next) := by
  have hlength : (st.v.drop st.next).length = st.argc := by
    rw [List.length_drop]
    omega
  have hpush : ∀ val, pushRest st.v st.argc st.next val = pushAll val (st.v.drop st.next) := by
    intro val
    rw [← pushRest_eq _ val rfl, hlength]
  unfold takeRest Parsed.useRest
  have htables : (st.view dst).tables = st.tables := rfl
  rw [htables]
  cases st.tables.pos[st.tables.pos.length - 1]? with
  | none => rfl
  | some last =>
      dsimp only
      split_ifs
      · rw [hpush]
        cases pushAll _ (st.v.drop st.next) <;> rfl
      · rw [hpush]
        cases pushAll _ (st.v.drop st.next) <;> rfl
      · rfl

/-- The flag of a place that was found is there. Kind: L -/
theorem find_flag {t : Tables} {p : CmdFlag → Bool} {slot : Slot} (h : t.find p = some slot) :
    ∃ f, t.flag slot = some f ∧ p f = true := by
  have hget : ∀ {fs : List CmdFlag} {i : ℕ}, fs.findIdx? p = some i → ∃ f,
    fs[i]? = some f ∧ p f = true := by
    intro fs i hi
    obtain ⟨hlt, hp, -⟩ := List.findIdx?_eq_some_iff_getElem.mp hi
    exact ⟨fs[i], List.getElem?_eq_getElem hlt, hp⟩
  unfold Tables.find at h
  cases hglobal : t.global.findIdx? p with
  | some i =>
      rw [hglobal] at h
      obtain rfl := Option.some.inj h
      exact hget hglobal
  | none =>
      rw [hglobal] at h
      obtain ⟨i, hi, rfl⟩ := Option.map_eq_some_iff.mp h
      exact hget hi

theorem parseFlag_flag {t : Tables} {arg : Text} {slot : Slot} {val : Option Text}
    (h : parseFlag t arg = some (some slot, val)) : ∃ f, t.flag slot = some f := by
  have hfind : ∃ p, t.find p = some slot := by
    unfold parseFlag at h
    split at h
    · exact ⟨_, congrArg Prod.fst (Option.some.inj h)⟩
    · split_ifs at h
      · exact ⟨_, congrArg Prod.fst (Option.some.inj h)⟩
      · exact ⟨_, congrArg Prod.fst (Option.some.inj h)⟩
    · cases h
  obtain ⟨p, hp⟩ := hfind
  obtain ⟨f, hf, -⟩ := find_flag hp
  exact ⟨f, hf⟩

/-- **What an argument can be**, as the source asks for it. Kind: L -/
theorem kindOf_cases (t : Tables) (arg : Text) :
    (cmdIsIgnoreArguments arg = true ∧ t.kindOf arg = .rest) ∨
    (cmdIsIgnoreArguments arg = false ∧
      ((parseFlag t arg = none ∧ t.kindOf arg = .positional) ∨
        (∃ val, parseFlag t arg = some (none, val) ∧ t.kindOf arg = .unknown) ∨
        ∃ slot val f, parseFlag t arg = some (some slot, val) ∧ t.flag slot = some f ∧
          (((f.validator.isSome && val.isNone) = true ∧ t.kindOf arg = .valued slot) ∨
            ((f.validator.isSome && val.isNone) = false ∧ t.kindOf arg = .flag slot val)))) := by
  unfold Tables.kindOf
  cases hignore : cmdIsIgnoreArguments arg with
  | true => exact .inl ⟨rfl, rfl⟩
  | false =>
      refine .inr ⟨rfl, ?_⟩
      rw [if_neg Bool.false_ne_true]
      cases hparse : parseFlag t arg with
      | none => exact .inl ⟨rfl, rfl⟩
      | some r =>
          obtain ⟨slot, val⟩ := r
          cases slot with
          | none => exact .inr (.inl ⟨val, rfl, rfl⟩)
          | some slot =>
              obtain ⟨f, hf⟩ := parseFlag_flag hparse
              have htakes : t.takesValue slot = f.validator.isSome := by
                unfold Tables.takesValue
                rw [hf]
                rfl
              refine .inr (.inr ⟨slot, val, f, rfl, hf, ?_⟩)
              dsimp only
              rw [htakes]
              cases f.validator.isSome && val.isNone with
              | true => exact .inl ⟨rfl, rfl⟩
              | false => exact .inr ⟨rfl, rfl⟩

/-- The state points at the arguments that are left. -/
structure Walk (dst : ℕ) (st : ParseState) (args : List Text) (p : Parsed) : Prop where
  view : st.view dst = p
  left : st.v.drop st.next = args
  count : st.next + st.argc = st.v.length
  front : dst + st.reWrite ≤ st.next

section Rounds

variable {dst : ℕ} {st : ParseState} {arg : Text} {args : List Text} {p : Parsed}

theorem Walk.tables (h : Walk dst st args p) : p.tables = st.tables := h.view ▸ rfl

theorem Walk.argc (h : Walk dst st args p) : st.argc = args.length := by
  rw [← h.left, List.length_drop]
  have := h.count
  omega

/-- One argument further, with other tables. Kind: L -/
theorem Walk.advance (h : Walk dst st (arg :: args) p) (tables : Tables) :
    Walk dst (st.advance 1 tables) args { p with tables := tables } := by
  obtain ⟨-, hdrop, hlt⟩ := readText_of_drop h.left
  have hcount := h.count
  have hargc := h.argc
  refine ⟨?_, hdrop, ?_, Nat.le_succ_of_le h.front⟩
  · obtain rfl := h.view
    rfl
  · rw [List.length_cons] at hargc
    change st.next + 1 + (st.argc - 1) = st.v.length
    omega

/-- The same with one more argument counted. Kind: L -/
theorem Walk.counted (h : Walk dst st args p) :
    Walk dst { st with npos := st.npos + 1 } args { p with npos := p.npos + 1 } := by
  obtain ⟨rfl, hleft, hcount, hfront⟩ := h
  exact ⟨rfl, hleft, hcount, hfront⟩

theorem Walk.keep (h : Walk dst st (arg :: args) p) :
    ¬ st.v.length ≤ dst + st.reWrite ∧
    Walk dst { st.advance 1 st.tables with
        v := st.v.set (dst + st.reWrite) arg, reWrite := st.reWrite + 1, npos := st.npos + 1 } args
      { p with npos := p.npos + 1, kept := p.kept ++ [arg] } := by
  obtain ⟨-, hdrop, hlt⟩ := readText_of_drop h.left
  have hcount := h.count
  have hargc := h.argc
  have hfront := h.front
  rw [List.length_cons] at hargc
  refine ⟨by omega, ?_, ?_, ?_, ?_⟩
  · obtain rfl := h.view
    have hkept : ((st.v.set (dst + st.reWrite) arg).drop dst).take (st.reWrite + 1) =
        (st.v.drop dst).take st.reWrite ++ [arg] := by
      have hin : st.reWrite < (st.v.drop dst).length := by
        rw [List.length_drop]
        omega
      have hset : st.reWrite < ((st.v.drop dst).set st.reWrite arg).length := by
        rwa [List.length_set]
      rw [List.drop_set, if_neg (by omega), Nat.add_sub_cancel_left,
        List.take_succ_eq_append_getElem hset, List.take_set_of_le (le_refl _),
          List.getElem_set_self]
    exact congrArg (Parsed.mk st.tables (st.npos + 1)) hkept
  · change (st.v.set (dst + st.reWrite) arg).drop (st.next + 1) = args
    rw [List.drop_set_of_lt (by omega), hdrop]
  · change st.next + 1 + (st.argc - 1) = (st.v.set (dst + st.reWrite) arg).length
    rw [List.length_set]
    omega
  · change dst + (st.reWrite + 1) ≤ st.next + 1
    omega

theorem Walk.useFlag (h : Walk dst st (arg :: args) p) {slot : Slot} {flag : CmdFlag}
    (hflag : st.tables.flag slot = some flag) (val : Option Text) :
    p.useFlag slot val = (flagValue flag val).bind fun val =>
      .ok { p with tables := st.tables.setVal val slot } := by
  unfold Parsed.useFlag
  rw [h.tables, hflag]

/-- A flag takes the next argument, or the NULL behind the last. Kind: L -/
theorem Walk.next (h : Walk dst st (arg :: args) p) : readArg st.v
    (st.next + 1) = .ok args.head? := by
  obtain ⟨-, hdrop, hlt⟩ := readText_of_drop h.left
  unfold readArg
  rw [if_pos (by omega), ← List.head?_drop, hdrop]

end Rounds

theorem advance_two (st : ParseState) (tables tables' : Tables) :
    st.advance 2 tables' = (st.advance 1 tables).advance 1 tables' := by
  unfold ParseState.advance
  rw [Nat.sub_sub]

theorem flagValue_none {f : CmdFlag} (h : f.validator.isSome = true) :
    ∃ e, flagValue f none = .error e := by
  obtain ⟨validator, hvalidator⟩ := Option.isSome_iff_exists.mp h
  unfold flagValue
  rw [hvalidator]
  exact ⟨_, rfl⟩

/-- **The loop walks along the list.** Kind: P -/
theorem parseLoop_eq {dst : ℕ} : ∀ (rounds : ℕ) {st : ParseState} {args : List Text}
    {p : Parsed}, Walk dst st args p → args.length ≤ rounds →
      (parseLoop dst rounds st).map (ParseState.view dst) = parseArgs p args
  | 0, st, args, p, h, hrounds => by
      obtain rfl := List.length_eq_zero_iff.mp (Nat.le_zero.mp hrounds)
      exact congrArg Except.ok h.view
  | rounds + 1, st, [], p, h, _ => by
      unfold parseLoop
      have hargc : st.argc = 0 := h.argc
      rw [if_pos hargc]
      exact congrArg Except.ok h.view
  | rounds + 1, st, arg :: args, p, h, hrounds => by
      have hargc := h.argc
      rw [List.length_cons] at hargc hrounds
      have hread := (readText_of_drop h.left).1
      have htables := h.tables
      unfold parseLoop
      rw [if_neg (by omega)]
      unfold parseRound parseArgs
      rw [hread, htables]
      dsimp only [Except.bind]
      rcases kindOf_cases st.tables arg with ⟨hignore, hkind⟩ | ⟨hignore, hcases⟩
      · have hrest := h.advance st.tables
        have hview : ((st.advance 1 st.tables).view dst) = p := by
          rw [hrest.view, ← htables]
        have htake := takeRest_view dst hrest.count
        rw [hview, hrest.left] at htake
        rw [hignore, if_pos rfl, hkind]
        dsimp only
        rw [← htake]
        cases takeRest (st.advance 1 st.tables) <;> rfl
      · rw [hignore, if_neg Bool.false_ne_true]
        rcases hcases with ⟨hparse, hkind⟩ | ⟨val, hparse, hkind⟩ |
          ⟨slot, val, f, hparse, hflag, hcases⟩
        · rw [hparse, hkind]
          dsimp only
          unfold Parsed.usePos
          rw [htables]
          by_cases hpos : st.tables.pos = []
          · obtain ⟨hin, hkeep⟩ := h.keep
            rw [if_pos hpos, if_pos hpos, if_neg hin]
            have hrun := parseLoop_eq rounds hkeep (by omega)
            exact htables ▸ hrun
          · have hnpos : p.npos = st.npos := h.view ▸ rfl
            rw [if_neg hpos, if_neg hpos, hnpos]
            cases usePositional st.tables st.npos arg with
            | error e => rfl
            | ok tables =>
                have hrun := parseLoop_eq rounds (h.advance tables).counted (by omega)
                rw [hnpos] at hrun
                exact hrun
        · rw [hparse, hkind]
          rfl
        · rw [hparse]
          dsimp only
          rw [hflag]
          dsimp only
          rcases hcases with ⟨hvalued, hkind⟩ | ⟨hvalued, hkind⟩
          · have hnext : 0 < st.argc := by omega
            have hif : (f.validator.isSome && val.isNone && decide (0 < st.argc)) = true := by
              rw [hvalued, decide_eq_true hnext]
              rfl
            rw [if_pos hif, h.next, hkind]
            dsimp only
            cases args with
            | nil =>
                obtain ⟨e, he⟩ := flagValue_none (Bool.and_eq_true_iff.mp hvalued).1
                rw [h.useFlag hflag, List.head?_nil, he]
                rfl
            | cons value args =>
                rw [List.length_cons] at hrounds
                dsimp only
                rw [h.useFlag hflag (some value), List.head?_cons]
                cases flagValue f (some value) with
                | error e => rfl
                | ok val =>
                    have hwalk := (h.advance st.tables).advance (st.tables.setVal val slot)
                    rw [← advance_two] at hwalk
                    exact parseLoop_eq rounds hwalk (by omega)
          · rw [if_neg (by rw [hvalued]; exact Bool.false_ne_true), hkind]
            dsimp only
            rw [h.useFlag hflag]
            cases flagValue f val with
            | error e => rfl
            | ok val => exact parseLoop_eq rounds (h.advance (st.tables.setVal val slot)) (by omega)

/-- The place where arguments are put that are kept. -/
def keptFrom (cmdName first : Text) : ℕ := if cmdName = first then 0 else 1

/-- **What is left of a parse is what the list of arguments gives.** Kind: P -/
theorem cmdParseCommandArguments_eq (cmdName : Text) (t : Tables) (first : Text)
    (args : List Text) :
    (cmdParseCommandArguments cmdName t (first :: args)).map
      (ParseState.view (keptFrom cmdName first)) = parseArgs ⟨t, 0, []⟩ args := by
  refine parseLoop_eq args.length ⟨rfl, rfl, ?_, ?_⟩ (le_refl _)
  · rw [List.length_cons]
    exact Nat.add_comm 1 _
  · unfold keptFrom
    split_ifs
    · exact Nat.zero_le _
    · exact le_refl _

/-! ## No read is outside -/

theorem failed_inside {α : Type}
    (parts : List Text) : (failed parts : Except Stop α) ≠ .error .outside := by
  intro h
  cases h

theorem ofValidator_inside (r : Except Text CmdFlagValue) : ofValidator r ≠ .error .outside := by
  intro h
  cases r <;> cases h

theorem flagValue_inside (f : CmdFlag) (val : Option Text) : flagValue f val ≠ .error .outside := by
  unfold flagValue
  split
  · exact failed_inside _
  · exact ofValidator_inside _
  · exact failed_inside _
  · exact fun h => by cases h

theorem pushString_inside (val : CmdFlagValue) (s : Text) : pushString val s ≠ .error .outside := by
  intro h
  cases val <;> cases h

theorem positionalValue_inside (p : CmdPositional) (arg : Text) :
    positionalValue p arg ≠ .error .outside := by
  unfold positionalValue
  split
  · exact ofValidator_inside _
  · split_ifs
    · split
      · exact pushString_inside _ _
      · exact pushString_inside _ _
    · exact fun h => by cases h

theorem bind_inside {α β : Type} {r : Except Stop α} {f : α → Except Stop β}
    (hr : r ≠ .error .outside)
    (hf : ∀ a, r = .ok a → f a ≠ .error .outside) : r.bind f ≠ .error .outside := by
  cases r with
  | error e => exact fun h => hr (congrArg Except.error (Except.error.inj h))
  | ok a => exact hf a rfl

theorem pushAll_inside : ∀ (rest : List Text)
    (val : CmdFlagValue), pushAll val rest ≠ .error .outside
  | [], _ => fun h => by cases h
  | s :: rest, val => bind_inside (pushString_inside val s) fun val _ => pushAll_inside rest val

/-- The last position, if it is for what stands behind a `--`, is not reached. -/
def Parsed.Short (p : Parsed) : Prop :=
  ∀ last, p.tables.pos[p.tables.pos.length - 1]? = some last →
    cmdIsIgnoreArguments last.name = true →
    p.npos < p.tables.pos.length

/-- **The position that is chosen is there**, and so is the one that is looked at for it. Kind: L -/
theorem choosePositional_spec {p : Parsed} (hshort : p.Short) (hpos : p.tables.pos ≠ []) :
    choosePositional p.tables.pos p.npos ≠ .error .outside ∧
    ∀ i, choosePositional p.tables.pos p.npos = .ok i → i < p.tables.pos.length ∧
      (i = p.npos ∨ ∀ last, p.tables.pos[p.tables.pos.length - 1]? = some last →
        cmdIsIgnoreArguments last.name = false) := by
  have hlength : 0 < p.tables.pos.length := List.length_pos_iff.mpr hpos
  unfold choosePositional
  by_cases hmany : p.tables.pos.length ≤ p.npos
  · have hin : p.tables.pos.length - 1 < p.tables.pos.length := by omega
    have hlast := List.getElem?_eq_getElem hin
    have hname : cmdIsIgnoreArguments (p.tables.pos[p.tables.pos.length - 1]).name = false := by
      by_contra htrue
      have := hshort _ hlast (Bool.of_not_eq_false htrue)
      omega
    rw [if_pos hmany, hlast]
    dsimp only
    rw [hname, Bool.false_and, if_neg Bool.false_ne_true, if_neg Bool.false_ne_true, hlast]
    dsimp only
    split_ifs
    · refine ⟨fun h => (by cases h), fun i hi => ?_⟩
      obtain rfl := Except.ok.inj hi
      refine ⟨hin, .inr fun last h => ?_⟩
      obtain rfl := Option.some.inj h
      exact hname
    · exact ⟨failed_inside _, fun i hi => by cases hi⟩
  · rw [if_neg hmany]
    refine ⟨fun h => (by cases h), fun i hi => ?_⟩
    obtain rfl := Except.ok.inj hi
    exact ⟨not_le.mp hmany, .inl rfl⟩

theorem modify_last (pos : List CmdPositional) (i : ℕ) (val : CmdFlagValue) (j : ℕ) :
    ((pos.modify i (CmdPositional.setVal val))[j]?).map CmdPositional.name =
      pos[j]?.map CmdPositional.name := by
  rw [List.getElem?_modify]
  cases pos[j]? with
  | none => rfl
  | some p =>
      split_ifs
      · rfl
      · rfl

theorem bind_ok {α β : Type} {r : Except Stop α} {f : α → Except Stop β} {b : β}
    (h : r.bind f = .ok b) : ∃ a, r = .ok a ∧ f a = .ok b := by
  cases r with
  | error e => cases h
  | ok a => exact ⟨a, rfl, h⟩

/-- What the position of an argument becomes. Kind: L -/
theorem usePositional_ok {t t' : Tables} {npos : ℕ} {arg : Text}
    (h : usePositional t npos arg = .ok t') :
    ∃ i p val, choosePositional t.pos npos = .ok i ∧ t.pos[i]? = some p ∧
      cmdIsIgnoreArguments p.name = false ∧ positionalValue p arg = .ok val ∧
      t' = { t with pos := t.pos.modify i (CmdPositional.setVal val) } := by
  obtain ⟨i, hi, h⟩ := bind_ok h
  cases hp : t.pos[i]? with
  | none =>
      rw [hp] at h
      cases h
  | some p =>
      rw [hp] at h
      dsimp only at h
      cases hname : cmdIsIgnoreArguments p.name with
      | true =>
          rw [hname, if_pos rfl] at h
          cases h
      | false =>
          rw [hname, if_neg Bool.false_ne_true] at h
          obtain ⟨val, hval, h⟩ := bind_ok h
          exact ⟨i, p, val, hi, hp, hname, hval, (Except.ok.inj h).symm⟩

theorem usePos_inside {p : Parsed} (hshort : p.Short)
    (arg : Text) : p.usePos arg ≠ .error .outside := by
  unfold Parsed.usePos
  by_cases hpos : p.tables.pos = []
  · rw [if_pos hpos]
    exact fun h => by cases h
  · rw [if_neg hpos]
    obtain ⟨hchoose, hspec⟩ := choosePositional_spec hshort hpos
    refine bind_inside (bind_inside hchoose fun i hi => ?_) fun _ _ h => by cases h
    rw [List.getElem?_eq_getElem (hspec i hi).1]
    dsimp only
    split_ifs
    · exact failed_inside _
    · exact bind_inside (positionalValue_inside _ _) fun _ _ h => by cases h

/-- **The last position stays out of reach.** Kind: L -/
theorem usePos_short {p p' : Parsed} (hshort : p.Short) {arg : Text} (h : p.usePos arg = .ok p') :
    p'.Short := by
  unfold Parsed.usePos at h
  by_cases hpos : p.tables.pos = []
  · rw [if_pos hpos] at h
    obtain rfl := Except.ok.inj h
    intro last hlast
    change p.tables.pos[_]? = some last at hlast
    rw [hpos] at hlast
    cases hlast
  · rw [if_neg hpos] at h
    obtain ⟨tables, htables, h⟩ := bind_ok h
    obtain ⟨i, q, val, hi, hq, hname, -, rfl⟩ := usePositional_ok htables
    obtain rfl := Except.ok.inj h
    obtain ⟨-, hspec⟩ := choosePositional_spec hshort hpos
    intro last hlast hignore
    have hlength : (p.tables.pos.modify i (CmdPositional.setVal val)).length =
      p.tables.pos.length :=
      List.length_modify ..
    change (p.tables.pos.modify i _)[(p.tables.pos.modify i _).length - 1]? = some last at hlast
    change p.npos + 1 < (p.tables.pos.modify i _).length
    rw [hlength] at hlast ⊢
    -- the position is there before the argument, under the same name
    have hsame := modify_last p.tables.pos i val (p.tables.pos.length - 1)
    rw [hlast] at hsame
    obtain ⟨old, hold, heq⟩ := Option.map_eq_some_iff.mp hsame.symm
    have hnpos := hshort old hold (heq ▸ hignore)
    rcases (hspec i hi).2 with rfl | hlater
    · by_contra hlt
      have hlastIndex : p.npos = p.tables.pos.length - 1 := by omega
      rw [← hlastIndex, hq] at hold
      obtain rfl := Option.some.inj hold
      rw [heq, hignore] at hname
      cases hname
    · have hother := hlater old hold
      rw [heq, hignore] at hother
      cases hother

theorem setVal_pos (t : Tables) (val : CmdFlagValue)
    (slot : Slot) : (t.setVal val slot).pos = t.pos := by
  cases slot <;> rfl

theorem useFlag_short {p p' : Parsed} (hshort : p.Short) {slot : Slot} {val : Option Text}
    (h : p.useFlag slot val = .ok p') : p'.Short := by
  unfold Parsed.useFlag at h
  split at h
  · cases h
  · obtain ⟨val, -, h⟩ := bind_ok h
    obtain rfl := Except.ok.inj h
    unfold Parsed.Short
    rw [setVal_pos]
    exact hshort

theorem useFlag_inside {p : Parsed} {slot : Slot} {f : CmdFlag}
    (hflag : p.tables.flag slot = some f)
    (val : Option Text) : p.useFlag slot val ≠ .error .outside := by
  unfold Parsed.useFlag
  rw [hflag]
  exact bind_inside (flagValue_inside f val) fun _ _ h => by cases h

theorem useRest_inside (p : Parsed) (rest : List Text) : p.useRest rest ≠ .error .outside := by
  unfold Parsed.useRest
  split
  · exact fun h => by cases h
  · split_ifs
    · exact bind_inside (pushAll_inside _ _) fun _ _ h => by cases h
    · exact bind_inside (pushAll_inside _ _) fun _ _ h => by cases h
    · exact fun h => by cases h

theorem parseArgs_inside : ∀ (args : List Text) {p : Parsed}, p.Short →
    parseArgs p args ≠ .error .outside
  | [], _, _ => fun h => by cases h
  | arg :: args, p, hshort => by
      unfold parseArgs
      rcases kindOf_cases p.tables arg with ⟨-, hkind⟩ | ⟨-, ⟨-, hkind⟩ | ⟨_, -, hkind⟩ |
        ⟨slot, val, f, -, hflag, ⟨-, hkind⟩ | ⟨-, hkind⟩⟩⟩
      · rw [hkind]
        exact useRest_inside p args
      · rw [hkind]
        exact bind_inside (usePos_inside hshort arg) fun p' hp' =>
          parseArgs_inside args (usePos_short hshort hp')
      · rw [hkind]
        exact failed_inside _
      · rw [hkind]
        cases args with
        | nil => exact useFlag_inside hflag none
        | cons value args =>
            exact bind_inside (useFlag_inside hflag _) fun p' hp' =>
              parseArgs_inside args (useFlag_short hshort hp')
      · rw [hkind]
        exact bind_inside (useFlag_inside hflag val) fun p' hp' =>
          parseArgs_inside args (useFlag_short hshort hp')

/-- **No read of the vector or of a table is outside.** Kind: P -/
theorem never_outside (cmdName : Text) (t : Tables) (first : Text) (args : List Text) :
    cmdParseCommandArguments cmdName t (first :: args) ≠ .error .outside := by
  have hshort : Parsed.Short ⟨t, 0, []⟩ := by
    intro last hlast _
    by_contra hzero
    obtain ⟨hlt, -⟩ := List.getElem?_eq_some_iff.mp hlast
    have hlength : 0 = t.pos.length := by
      exact le_antisymm (Nat.zero_le _) (not_lt.mp hzero)
    change t.pos.length - 1 < t.pos.length at hlt
    omega
  intro h
  have heq := cmdParseCommandArguments_eq cmdName t first args
  rw [h] at heq
  exact parseArgs_inside args hshort heq.symm

end CxyCompiler.Core.Args
