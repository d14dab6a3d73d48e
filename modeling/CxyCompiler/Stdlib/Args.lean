import Mathlib.Algebra.Order.Ring.Nat
import Mathlib.Algebra.Ring.Int.Defs
import Mathlib.Data.List.AList
import Mathlib.Data.List.Forall2

/-!
# The argument parser of the library

A `Command` has flags of its own and persistent flags, each with a name and maybe a shorthand, and a
tree of commands below it. `parse` goes through the arguments: long flags, short flags and groups of
them set values, the name of a command goes on with that command, and everything else is a
positional argument.

* `Flags`: a table of flags and its shorthands, which agree; `addFlag` keeps that.
* `parseLongFlagArg`, `parseShortFlagArg`, `parseShortFlag`, `parseLongFlag`: the four routines,
  each told the argument behind.
* `parseArgs`, `parse`: the loop, and what follows it.

Hash maps, which are only added to and looked up here, are the maps that they stand for. `i64` is an
integer that is wrapped. The texts for `help`, the handlers and the parents of commands are left
out.

Source: `stdlib/args.cxy`.
-/

namespace CxyCompiler.Stdlib.Args

abbrev Text := List Char

local instance lawfulText : LawfulBEq Text := inferInstance

/-- Source: `args.cxy` `FlagValue`. -/
inductive FlagValue
  | string (s : Text)
  | bool (b : Bool)
  | int (i : ℤ)
  deriving DecidableEq

/-- Source: `args.cxy` `Flag`. -/
structure Flag where
  name : Text
  shorthand : Option Char
  defaultValue : FlagValue
  envVar : Text
  deriving DecidableEq

/-- Source: `args.cxy` `FlagGroupType`. -/
inductive FlagGroupType
  | mutuallyExclusive
  | requiredTogether

/-- Source: `args.cxy` `FlagGroup`. -/
structure FlagGroup where
  name : Text
  flags : List Text
  groupType : FlagGroupType
  required : Bool

/-- Source: `args.cxy` `ParseError`, `ValidationError`. -/
inductive Failure
  | parseError (msg : Text)
  | validationError (msg : Text)
  deriving DecidableEq

/-- Source: `args.cxy` `FlagValues`. -/
abbrev FlagValues := AList fun _ : Text => FlagValue

/-! ## Tables of flags -/

/-- The flags by name and the names by shorthand. -/
structure Flags where
  table : AList fun _ : Text => Flag
  byShorthand : AList fun _ : Char => Text
  named : ∀ n f, table.lookup n = some f → f.name = n
  short : ∀ c n, byShorthand.lookup c = some n → ∃ f, table.lookup n = some f ∧ f.shorthand = some c
  shortened : ∀ n f c, table.lookup n = some f → f.shorthand = some c →
    byShorthand.lookup c = some n

def Flags.empty : Flags where
  table := ∅
  byShorthand := ∅
  named := fun n f h => by
    rw [AList.lookup_empty] at h
    cases h
  short := fun c n h => by
    rw [AList.lookup_empty] at h
    cases h
  shortened := fun n f c h => by
    rw [AList.lookup_empty] at h
    cases h

def parseError {α : Type} (parts : List Text) : Except Failure α :=
  .error (.parseError parts.flatten)

/-- A flag whose name and shorthand are free. -/
def Flags.insert (fs : Flags) (flag : Flag) (hname : fs.table.lookup flag.name = none)
    (hshort : (flag.shorthand.bind fun c => fs.byShorthand.lookup c) = none) : Flags where
  table := fs.table.insert flag.name flag
  byShorthand := flag.shorthand.elim fs.byShorthand fun c => fs.byShorthand.insert c flag.name
  named := by
    intro n f h
    by_cases heq : n = flag.name
    · rw [heq, AList.lookup_insert] at h
      rw [← Option.some.inj h, heq]
    · rw [AList.lookup_insert_ne heq] at h
      exact fs.named n f h
  short := by
    have hold : ∀ c n, fs.byShorthand.lookup c = some n → ∃ f,
        (fs.table.insert flag.name flag).lookup n = some f ∧ f.shorthand = some c := by
      intro c n h
      obtain ⟨f, hf, hc⟩ := fs.short c n h
      have hne : n ≠ flag.name := by
        rintro rfl
        rw [hname] at hf
        cases hf
      exact ⟨f, by rwa [AList.lookup_insert_ne hne], hc⟩
    intro c n h
    cases hc : flag.shorthand with
    | none =>
        rw [hc] at h
        exact hold c n h
    | some c' =>
        rw [hc] at h
        change (fs.byShorthand.insert c' flag.name).lookup c = some n at h
        by_cases heq : c = c'
        · rw [heq, AList.lookup_insert] at h
          rw [← Option.some.inj h, heq]
          exact ⟨flag, AList.lookup_insert _, hc⟩
        · rw [AList.lookup_insert_ne heq] at h
          exact hold c n h
  shortened := by
    intro n f c h hc
    by_cases heq : n = flag.name
    · rw [heq, AList.lookup_insert] at h
      obtain rfl := Option.some.inj h
      rw [hc, heq]
      change (fs.byShorthand.insert c flag.name).lookup c = some flag.name
      exact AList.lookup_insert _
    · rw [AList.lookup_insert_ne heq] at h
      have hold := fs.shortened n f c h hc
      cases hc' : flag.shorthand with
      | none => exact hold
      | some c' =>
          have hne : c ≠ c' := by
            rintro rfl
            rw [hc', Option.bind_some, hold] at hshort
            cases hshort
          exact (AList.lookup_insert_ne hne).trans hold

/-- Source: `args.cxy` `Command.addFlag`, `Command.addPersistentFlag`. -/
def Flags.add (kind : Text) (fs : Flags) (flag : Flag) : Except Failure Flags :=
  if hname : fs.table.lookup flag.name = none then
    if hshort : (flag.shorthand.bind fun c => fs.byShorthand.lookup c) = none then
      .ok (fs.insert flag hname hshort)
    else parseError [kind, "shorthand '".toList, flag.shorthand.toList, "' already exists".toList]
  else parseError [kind, "flag '".toList, flag.name, "' already exists".toList]

/-- Source: `args.cxy` `Command`. -/
structure Command where
  name : Text
  flags : Flags
  flagValues : FlagValues
  args : List Text
  commands : List (Text × Command)
  persistentFlags : Flags
  flagGroups : List FlagGroup

/-- Source: `args.cxy` `Command.addFlag`. -/
def Command.addFlag (c : Command) (flag : Flag) : Except Failure Command :=
  (c.flags.add [] flag).map fun flags => { c with flags := flags }

/-- Source: `args.cxy` `Command.addPersistentFlag`. -/
def Command.addPersistentFlag (c : Command) (flag : Flag) : Except Failure Command :=
  (c.persistentFlags.add "persistent ".toList flag).map fun flags =>
    { c with persistentFlags := flags }

/-- A flag that is in conflict is passed over. -/
def Command.tryFlag (c : Command) (flag : Flag) : Command := (c.addFlag flag).toOption.getD c

/-- Source: `args.cxy` `Command.findCommand`. -/
def Command.findCommand (c : Command) (name : Text) : Option Command := c.commands.lookup name

/-- Source: `args.cxy` `Command.addCommand`. -/
def Command.addCommand (c cmd : Command) : Except Failure Command :=
  if (c.findCommand cmd.name).isSome then
    parseError ["command '".toList, cmd.name, "' already exists".toList]
  else
    let cmd := c.persistentFlags.table.entries.foldl (fun cmd e => cmd.tryFlag e.2) cmd
    .ok { c with commands := (cmd.name, cmd) :: c.commands }

def Command.flag (c : Command) (name : Text) : Option Flag :=
  (c.flags.table.lookup name).or (c.persistentFlags.table.lookup name)

/-- Source: `args.cxy` `Command.findFlagByShorthand`. -/
def Command.findFlagByShorthand (c : Command) (shorthand : Char) : Option Flag :=
  match c.flags.byShorthand.lookup shorthand with
  | some name => c.flags.table.lookup name
  | none => (c.persistentFlags.byShorthand.lookup shorthand).bind fun name =>
      c.persistentFlags.table.lookup name

/-- Source: `args.cxy` `FlagValues.set`. -/
def Command.set (c : Command) (name : Text) (value : FlagValue) : Command :=
  { c with flagValues := c.flagValues.insert name value }

def Command.push (c : Command) (arg : Text) : Command := { c with args := c.args ++ [arg] }

/-! ## Values -/

def FlagValue.isBool : FlagValue → Bool
  | .bool _ => true
  | _ => false

/-- Source: `args.cxy` `Command.isBooleanValue`. -/
def isBooleanValue (s : Text) : Bool :=
  s == ['t', 'r', 'u', 'e'] || s == ['f', 'a', 'l', 's', 'e'] || s == ['1'] || s == ['0']

/-- What an `i64` holds of a number. -/
def wrap (z : ℤ) : ℤ := z.bmod (2 ^ 64)

/-- Source: `args.cxy` `Command.parseInt`, the loop. -/
def parseDigits : ℤ → Text → Option ℤ
  | result, [] => some result
  | result, c :: s =>
      if c < '0' || '9' < c then none
      else parseDigits (wrap (result * 10 + (c.toNat - '0'.toNat : ℕ))) s

/-- Source: `args.cxy` `Command.parseInt`. -/
def parseInt : Text → Option ℤ
  | [] => none
  | '-' :: s => (parseDigits 0 s).map fun result => wrap (-result)
  | s => parseDigits 0 s

def startsWith (s part : Text) : Bool := part.isPrefixOf s

/-! ## The routines -/

/-- Source: `args.cxy` `Command.parseLongFlag`. -/
def Command.parseLongFlag (c : Command) (flagName flagValue : Text) (hasValue : Bool) :
    Except Failure Command :=
  match c.flag flagName with
  | none => parseError ["unknown flag: --".toList, flagName]
  | some flag =>
      match flag.defaultValue with
      | .bool _ =>
          if hasValue then
            if flagValue == ['t', 'r', 'u', 'e'] || flagValue == ['1'] then
              .ok (c.set flagName (.bool true))
            else if flagValue == ['f', 'a', 'l', 's', 'e'] || flagValue == ['0'] then
              .ok (c.set flagName (.bool false))
            else parseError ["invalid boolean value for --".toList,
              flagName, ": ".toList, flagValue]
          else .ok (c.set flagName (.bool true))
      | .int _ =>
          if !hasValue then parseError ["flag --".toList, flagName, " requires a value".toList]
          else
            match parseInt flagValue with
            | none => parseError ["invalid integer value for --".toList,
                flagName, ": ".toList, flagValue]
            | some intVal => .ok (c.set flagName (.int intVal))
      | .string _ =>
          if !hasValue then parseError ["flag --".toList, flagName, " requires a value".toList]
          else .ok (c.set flagName (.string flagValue))

/-- The argument behind is taken for the value of a flag. Source: `args.cxy`
`Command.parseLongFlagArg`, `Command.parseShortFlag`. -/
def Flag.takes (flag : Flag) (nextArg : Text) : Bool :=
  !startsWith nextArg ['-'] && (!flag.defaultValue.isBool || isBooleanValue nextArg)

/-- The name of a flag that is known, with the argument behind; whether that one was used. -/
def Command.parseValue (c : Command) (flag : Flag) (flagName : Text) (next : Option Text) :
    Except Failure (Command × Bool) :=
  match next with
  | some nextArg =>
      if flag.takes nextArg then (c.parseLongFlag flagName nextArg true).map fun c => (c, true)
      else (c.parseLongFlag flagName [] false).map fun c => (c, false)
  | none => (c.parseLongFlag flagName [] false).map fun c => (c, false)

/-- Source: `args.cxy` `Command.parseLongFlagArg`. -/
def Command.parseLongFlagArg (c : Command) (arg : Text) (next : Option Text) :
    Except Failure (Command × Bool) :=
  match arg.dropWhile (· != '=') with
  | _ :: flagValue =>
      (c.parseLongFlag ((arg.takeWhile (· != '=')).drop 2) flagValue true).map fun c => (c, false)
  | [] =>
      match c.flag (arg.drop 2) with
      | none => (c.parseLongFlag (arg.drop 2) [] false).map fun c => (c, false)
      | some flag => c.parseValue flag (arg.drop 2) next

/-- Source: `args.cxy` `Command.parseShortFlag`. -/
def Command.parseShortFlag (c : Command) (flag : Flag) (next : Option Text) :
    Except Failure (Command × Bool) := c.parseValue flag flag.name next

def unknownShorthand {α : Type} (shorthand : Char) : Except Failure α :=
  parseError ["unknown shorthand flag: -".toList, [shorthand]]

/-- The loop over a group. Source: `args.cxy` `Command.parseShortFlagArg`. -/
def parseGroup (next : Option Text) : Command → List Char → Except Failure (Command × Bool)
  | c, [] => .ok (c, false)
  | c, shorthand :: more =>
      match c.findFlagByShorthand shorthand with
      | none => unknownShorthand shorthand
      | some flag =>
          if flag.defaultValue.isBool then parseGroup next (c.set flag.name (.bool true)) more
          else if more ≠ [] then
            parseError ["flag -".toList, [shorthand], " requires a value but is in a group".toList]
          else c.parseShortFlag flag next

/-- Source: `args.cxy` `Command.parseShortFlagArg`. -/
def Command.parseShortFlagArg (c : Command) (arg : Text) (next : Option Text) :
    Except Failure (Command × Bool) :=
  match arg.drop 1 with
  | [shorthand] =>
      match c.findFlagByShorthand shorthand with
      | none => unknownShorthand shorthand
      | some flag => c.parseShortFlag flag next
  | flags => parseGroup next c flags

/-- The values of persistent flags are copied. There are at most 90 of them: the iterator of a hash
table that is larger does not come by all of its entries. Source: `args.cxy` `Command.parse`. -/
def Command.inherit (subCmd c : Command) : Command :=
  { subCmd with
    flagValues := c.flagValues.entries.foldl
      (fun values e => if (c.persistentFlags.table.lookup e.1).isSome then values.insert e.1 e.2
        else values)
      subCmd.flagValues }

/-- One round of the loop: the command that goes on, and whether the argument behind was used.
Source: `args.cxy` `Command.parse`. -/
def Command.parseArg (c : Command) (arg : Text)
    (next : Option Text) : Except Failure (Command × Bool) :=
  if !startsWith arg ['-'] then
    match c.findCommand arg with
    | some subCmd => .ok (subCmd.inherit c, false)
    | none => .ok (c.push arg, false)
  else if startsWith arg ['-', '-'] then c.parseLongFlagArg arg next
  else if 1 < arg.length then c.parseShortFlagArg arg next
  else .ok (c.push arg, false)

/-- The loop; it goes on with the command that is found. Source: `args.cxy` `Command.parse`. -/
def parseArgs : Command → List Text → Except Failure Command
  | c, [] => .ok c
  | c, arg :: rest =>
      match c.parseArg arg rest.head? with
      | .error e => .error e
      | .ok (c, false) => parseArgs c rest
      | .ok (c, true) =>
          match rest with
          | [] => .ok c
          | _ :: rest => parseArgs c rest

/-! ## Behind the loop -/

/-- Source: `args.cxy` `Command.parseEnvValue`. -/
def Command.parseEnvValue (c : Command) (flag : Flag) (envValue : Text) : Except Failure Command :=
  match flag.defaultValue with
  | .bool _ =>
      if envValue ∈ ["true".toList, "1".toList, "yes".toList] then
        .ok (c.set flag.name (.bool true))
      else if envValue ∈ ["false".toList, "0".toList, "no".toList] then
        .ok (c.set flag.name (.bool false))
      else .error (.validationError ("invalid boolean value for env var ".toList ++ flag.envVar ++
        ": ".toList ++ envValue))
  | .int _ =>
      match parseInt envValue with
      | none => .error (.validationError
          ("invalid integer value for env var ".toList ++ flag.envVar ++
          ": ".toList ++ envValue))
      | some intVal => .ok (c.set flag.name (.int intVal))
  | .string _ => .ok (c.set flag.name (.string envValue))

def applyEnvVar (getenv : Text → Option Text) (c : Command) (flag : Flag) : Command :=
  if flag.envVar ≠ [] ∧ (c.flagValues.lookup flag.name).isNone then
    match getenv flag.envVar with
    | none => c
    | some envValue => if envValue = [] then c else (c.parseEnvValue flag envValue).toOption.getD c
  else c

/-- Source: `args.cxy` `Command.applyEnvVars`. -/
def Command.applyEnvVars (getenv : Text → Option Text) (c : Command) : Command :=
  (c.flags.table.entries ++ c.persistentFlags.table.entries).foldl
    (fun c e => applyEnvVar getenv c e.2) c

def validateFlagGroup (values : FlagValues) (group : FlagGroup) : Except Failure Unit :=
  let setFlags := group.flags.filter fun name => (values.lookup name).isSome
  let required : Except Failure Unit :=
    if group.required && setFlags.isEmpty then
      .error (.validationError ("required flag group '".toList ++ group.name ++
        "' must have at least one flag set".toList))
    else .ok ()
  match group.groupType with
  | .mutuallyExclusive =>
      match setFlags with
      | first :: second :: _ =>
          .error (.validationError ("flags in group '".toList ++ group.name ++
            "' are mutually exclusive: ".toList ++ first ++ ", ".toList ++ second))
      | _ => required
  | .requiredTogether =>
      match setFlags, group.flags.filter fun name => (values.lookup name).isNone with
      | _ :: _, missing :: _ =>
          .error (.validationError ("flag group '".toList ++ group.name ++
            "' requires all flags to be provided together, missing: ".toList ++ missing))
      | _, _ => required

/-- Source: `args.cxy` `Command.validateFlagGroups`. -/
def Command.validateFlagGroups (c : Command) : Except Failure Unit :=
  c.flagGroups.forM (validateFlagGroup c.flagValues)

/-- The command that is to be executed, or only to show its help. Source: `args.cxy`
`Command.parse`. -/
def Command.parse (getenv : Text → Option Text) (c : Command) (argv : List Text) :
    Except Failure (Command × Bool) :=
  (parseArgs c argv).bind fun c =>
    let c := c.applyEnvVars getenv
    c.validateFlagGroups.map fun _ =>
      (c, c.flagValues.lookup ['h', 'e', 'l', 'p'] ≠ some (.bool true))

end CxyCompiler.Stdlib.Args
