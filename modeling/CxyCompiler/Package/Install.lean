import CxyCompiler.Package.LockFile

/-!
# The record of installed packages

An install script prints flags, and `writeInstallYaml` keeps them by package in a file: it reads the
file into a table of 64 entries, adds the flags of the package, and writes the file again line by
line, with names and flags as they are. `readInstallYamlFlags` gives the flags of all packages to a
build.

* `readInstallYamlEntries`, `readInstallYamlFlags`: the readers, over the events of libyaml.
* `mergeFlags_eq`: new flags come behind the old ones, without duplicates.
* `Plain`: a text that libyaml reads as one scalar where it stands without quotes.
* `Written`: what a build directory holds after any number of writes; `written_record`: a file is
  the text of a table with distinct names and at most 64 entries.
* `lineYaml`: a reader of such texts by lines, `readLines_text`: a text has one table.
* **`installYaml_iff`**: a write keeps the flags of the other packages and adds those of its own
  exactly if the package is in the file or there is room in the table, or nothing is to be added.

The path of a file is a field of the directory, and a file that does not open for writing stays as
it is.

Source: `package/install_scripts.c`.
-/

namespace CxyCompiler.Package.Install

local instance lawfulText : LawfulBEq CString := inferInstance

/-- Source: `install_scripts.c` `InstallYamlEntry`. -/
structure Entry where
  name : CString
  flags : List CString
  deriving DecidableEq

/-! ## The readers -/

/-- Source: `install_scripts.c` `EntryState`, `ReadState`. -/
inductive State
  | root
  | packages
  | packageMap
  | flagsSeq

/-- A reader takes events up to the end of the stream; without one the parser has found an error. -/
def untilEnd {R : Type} (event : R → YamlEvent → R) : R → List YamlEvent → Bool × R
  | r, [] => (false, r)
  | r, .streamEnd :: _ => (true, r)
  | r, e :: es => untilEnd event (event r e) es

/-- The variables of `readInstallYamlEntries`; `entry` is the one at `count`. -/
structure EntryReader where
  state : State
  lastKey : Option CString
  pendingName : Option CString
  entry : Entry
  entries : List Entry

/-- One event. Source: `install_scripts.c` `readInstallYamlEntries`, the `switch`. -/
def entryEvent (maxEntries : ℕ) (r : EntryReader) : YamlEvent → EntryReader
  | .mappingStart =>
      match r.state, r.pendingName with
      | .packages, some name =>
          if r.entries.length < maxEntries then
            { r with entry := ⟨name, []⟩, pendingName := none, state := .packageMap }
          else r
      | _, _ => r
  | .mappingEnd =>
      match r.state with
      | .packageMap =>
          { r with entries := r.entries ++ [r.entry], state := .packages, lastKey := none }
      | .packages => { r with state := .root, lastKey := none }
      | _ => { r with lastKey := none }
  | .sequenceStart =>
      match r.state with
      | .packageMap => if r.lastKey = some "flags".toList then { r with state := .flagsSeq } else r
      | _ => r
  | .sequenceEnd =>
      match r.state with
      | .flagsSeq => { r with state := .packageMap, lastKey := none }
      | _ => r
  | .scalar value =>
      match r.state with
      | .root => if value = "packages".toList then { r with state := .packages } else r
      | .packages => { r with pendingName := some value }
      | .packageMap => { r with lastKey := some value }
      | .flagsSeq => { r with entry := ⟨r.entry.name, r.entry.flags ++ [value]⟩ }
  | _ => r

/-- Source: `install_scripts.c` `readInstallYamlEntries`. -/
def readInstallYamlEntries (yaml : Libyaml) (file : Option CString) (maxEntries : ℕ) : List Entry :=
  file.elim [] fun text =>
    let r := untilEnd (entryEvent maxEntries) ⟨.root, none, none, ⟨[], []⟩, []⟩ (yaml.parse text)
    if r.1 then r.2.entries else []

/-- The variables of `readInstallYamlFlags`. -/
structure FlagReader where
  state : State
  lastKey : Option CString
  flags : List CString

/-- One event. Source: `install_scripts.c` `readInstallYamlFlags`, the `switch`. -/
def flagEvent (r : FlagReader) : YamlEvent → FlagReader
  | .mappingStart =>
      match r.state with
      | .packages => { r with state := .packageMap }
      | _ => r
  | .mappingEnd =>
      match r.state with
      | .packageMap => { r with state := .packages, lastKey := none }
      | .packages => { r with state := .root, lastKey := none }
      | _ => { r with lastKey := none }
  | .sequenceStart =>
      match r.state with
      | .packageMap => if r.lastKey = some "flags".toList then { r with state := .flagsSeq } else r
      | _ => r
  | .sequenceEnd =>
      match r.state with
      | .flagsSeq => { r with state := .packageMap, lastKey := none }
      | _ => r
  | .scalar value =>
      match r.state with
      | .root => if value = "packages".toList then { r with state := .packages } else r
      | .packages => r
      | .packageMap => { r with lastKey := some value }
      | .flagsSeq => { r with flags := r.flags ++ [value] }
  | _ => r

/-- The files of a build directory. -/
structure BuildDir where
  install : Option CString
  installDev : Option CString

def BuildDir.file (dir : BuildDir) (useDev : Bool) : Option CString :=
  if useDev then dir.installDev else dir.install

def BuildDir.put (dir : BuildDir) (useDev : Bool) (text : CString) : BuildDir :=
  if useDev then { dir with installDev := some text } else { dir with install := some text }

/-- Source: `install_scripts.c` `readInstallYamlFlags`. -/
def readInstallYamlFlags (yaml : Libyaml) (dir : BuildDir) (useDev : Bool) : Bool × List CString :=
  ((dir.file useDev).or dir.install).elim (true, []) fun text =>
    let r := untilEnd flagEvent ⟨.root, none, []⟩ (yaml.parse text)
    (r.1, r.2.flags)

/-! ## The writer -/

/-- Source: `install_scripts.c` `MAX_INSTALL_ENTRIES`. -/
def maxInstallEntries : ℕ := 64

/-- The entries with a slot for the package. Source: `install_scripts.c` `writeInstallYaml`. -/
def slot (existing : List Entry) (packageName : CString) : List Entry × Option ℕ :=
  match existing.findIdx? fun e => e.name == packageName with
  | some cur => (existing, some cur)
  | none =>
      if existing.length < maxInstallEntries then
        (existing ++ [⟨packageName, []⟩], some existing.length)
      else (existing, none)

/-- Source: `install_scripts.c` `writeInstallYaml`, one round over the new flags. -/
def mergeFlag (flags : List CString) (newFlag : CString) : List CString :=
  if newFlag ∈ flags then flags else flags ++ [newFlag]

def mergeFlags (flags newFlags : List CString) : List CString := newFlags.foldl mergeFlag flags

def Entry.addFlags (newFlags : List CString) (e : Entry) : Entry :=
  { e with flags := mergeFlags e.flags newFlags }

/-- The entries that are written. Source: `install_scripts.c` `writeInstallYaml`. -/
def mergeEntries (existing : List Entry) (packageName : CString) (flags : List CString) :
    List Entry :=
  match slot existing packageName with
  | (entries, some cur) => entries.modify cur (Entry.addFlags flags)
  | (entries, none) => entries

def flagsLine : CString := "    flags:".toList

/-- What stands in front of a flag. -/
def flagMark : CString := "      - ".toList

/-- The lines of an entry. -/
def entryText (e : Entry) : CString :=
  [' ', ' '] ++ e.name ++ [':', '\n'] ++ (flagsLine ++ ['\n']) ++
    e.flags.flatMap fun f => flagMark ++ f ++ ['\n']

/-- The lines in front. -/
def headerText (useDev : Bool) : CString :=
  "# Generated by cxy package install".toList ++ (if useDev then " --dev".toList else []) ++
    ['\n'] ++
    ("# DO NOT EDIT MANUALLY - will be regenerated on install".toList ++ ['\n']) ++ ['\n'] ++
    ("packages:".toList ++ ['\n'])

def fileText (useDev : Bool) (entries : List Entry) : CString :=
  headerText useDev ++ entries.flatMap entryText

/-- Source: `install_scripts.c` `writeInstallYaml`, when the file opens. -/
def writeInstallYaml (yaml : Libyaml) (dir : BuildDir) (packageName : CString)
    (flags : List CString)
    (useDev : Bool) : BuildDir :=
  let existing := readInstallYamlEntries yaml (dir.file useDev) maxInstallEntries
  dir.put useDev (fileText useDev (mergeEntries existing packageName flags))

/-! ## What libyaml reads -/

/-- A character that the reader of libyaml takes and that does not break a line. -/
def plainChar (c : Char) : Bool :=
  c == '\t' || (' ' ≤ c && c ≤ '~') || (0xA0 ≤ c.toNat && c.toNat ≤ 0xFFFD && c.toNat ≠ 0x2028 &&
    c.toNat ≠ 0x2029 && c.toNat ≠ 0xFEFF) || 0x10000 ≤ c.toNat

def blank (c : Char) : Bool := c == ' ' || c == '\t'

/-- Characters that start something else than a plain scalar. -/
def indicators : List Char :=
  [',', '[', ']', '{', '}', '#', '&', '*', '!', '|', '>', '\'', '"', '%', '@', (Char.ofNat 96)]

/-- How a plain scalar starts outside of brackets. -/
def plainStart : CString → Bool
  | [] => false
  | c :: rest =>
      if c ∈ ['-', '?', ':'] then rest.head?.any fun d => !blank d
      else !blank c && c ∉ indicators

/-- Neither a colon in front of a blank or the end, nor a comment behind a blank, nor a blank at the
end. -/
def plainRest : CString → Bool
  | [] => true
  | c :: rest =>
      (match rest with
        | [] => !blank c && c != ':'
        | d :: _ => !(c == ':' && blank d) && !(blank c && d == '#')) && plainRest rest

/-- A text that stands for itself in a line of a YAML file.
Source: libyaml's `scanner.c` `yaml_parser_fetch_next_token`, `yaml_parser_scan_plain_scalar`. -/
def Plain (s : CString) : Prop := plainStart s = true ∧ plainRest s = true ∧ s.all plainChar = true

/-- A plain key; a longer one is not looked back to. Source: libyaml's `scanner.c`
`yaml_parser_stale_simple_keys`. -/
def PlainKey (s : CString) : Prop := Plain s ∧ s.length ≤ 1024

/-- Nothing behind a dash is read as an empty text. -/
def PlainItem (s : CString) : Prop := Plain s ∨ s = []

structure Entry.Plain (e : Entry) : Prop where
  name : PlainKey e.name
  flags : ∀ f ∈ e.flags, PlainItem f

/-- The events of an entry; nothing behind a colon is read as an empty text. -/
def Entry.events (e : Entry) : List YamlEvent :=
  [.scalar e.name, .mappingStart, .scalar "flags".toList] ++
    (if e.flags = [] then [.scalar []]
      else [YamlEvent.sequenceStart] ++ e.flags.map YamlEvent.scalar ++ [.sequenceEnd]) ++
        [.mappingEnd]

def fileEvents (entries : List Entry) : List YamlEvent :=
  [.streamStart, .documentStart, .mappingStart, .scalar "packages".toList] ++
    (if entries = [] then [.scalar []]
      else [YamlEvent.mappingStart] ++ entries.flatMap Entry.events ++ [.mappingEnd]) ++
    [.mappingEnd, .documentEnd, .streamEnd]

/-- The parser reads the lines of plain texts as a mapping of mappings with sequences. -/
def ReadsLines (yaml : Libyaml) : Prop :=
  ∀ useDev entries, (∀ e ∈ entries, e.Plain) →
    yaml.parse (fileText useDev entries) = fileEvents entries

/-! ## Reading what is written -/

/-- A reader goes on after events that do not end the stream. Kind: L -/
theorem untilEnd_append {R : Type} {event : R → YamlEvent → R} {es : List YamlEvent}
    (h : .streamEnd ∉ es) (r : R) (rest : List YamlEvent) :
    untilEnd event r (es ++ rest) = untilEnd event (es.foldl event r) rest := by
  induction es generalizing r with
  | nil => rfl
  | cons e es ih =>
      obtain ⟨hne, hes⟩ := not_or.mp (List.mem_cons.not.mp h)
      have hone : untilEnd event r (e :: (es ++ rest)) = untilEnd event (event r e)
        (es ++ rest) := by
        rw [untilEnd]
        exact fun heq => hne heq.symm
      rw [List.cons_append, hone, ih hes]
      rfl

theorem streamEnd_not_mem_entry (e : Entry) : .streamEnd ∉ e.events := by
  unfold Entry.events
  split_ifs <;> simp

theorem streamEnd_not_mem_entries (es : List Entry) : .streamEnd ∉ es.flatMap Entry.events := by
  intro hmem
  obtain ⟨e, -, he⟩ := List.mem_flatMap.mp hmem
  exact streamEnd_not_mem_entry e he

/-- In a list of flags every scalar is added to the entry. Kind: L -/
theorem entry_flags {maxEntries : ℕ} (flags : List CString) (key pending : Option CString)
    (e : Entry)
    (es : List Entry) :
    (flags.map YamlEvent.scalar).foldl (entryEvent maxEntries) ⟨.flagsSeq, key, pending, e, es⟩ =
      ⟨.flagsSeq, key, pending, ⟨e.name, e.flags ++ flags⟩, es⟩ := by
  induction flags generalizing e with
  | nil => rw [List.append_nil]; rfl
  | cons f flags ih =>
      rw [List.map_cons, List.foldl_cons]
      apply (ih ⟨e.name, e.flags ++ [f]⟩).trans
      rw [List.append_assoc]
      rfl

/-- **One entry is read back while there is room.** Kind: L -/
theorem read_entry {maxEntries : ℕ} {es : List Entry} (h : es.length < maxEntries)
    (key pending : Option CString) (cur e : Entry) :
    e.events.foldl (entryEvent maxEntries) ⟨.packages, key, pending, cur, es⟩ =
      ⟨.packages, none, none, e, es ++ [e]⟩ := by
  obtain ⟨name, flags⟩ := e
  have hstart : [YamlEvent.scalar name, .mappingStart, .scalar "flags".toList].foldl
      (entryEvent maxEntries) ⟨.packages, key, pending, cur, es⟩ =
        ⟨.packageMap, some "flags".toList, none, ⟨name, []⟩, es⟩ := by
    simp only [List.foldl_cons, List.foldl_nil, entryEvent, if_pos h]
  unfold Entry.events
  rw [List.foldl_append, List.foldl_append, hstart]
  dsimp only
  by_cases hflags : flags = []
  · rw [if_pos hflags, hflags]
    rfl
  · have hopen : [YamlEvent.sequenceStart].foldl (entryEvent maxEntries)
        ⟨.packageMap, some "flags".toList, none, ⟨name, []⟩, es⟩ =
          ⟨.flagsSeq, some "flags".toList, none, ⟨name, []⟩, es⟩ := by
      simp only [List.foldl_cons, List.foldl_nil, entryEvent, if_true]
    rw [if_neg hflags, List.foldl_append, List.foldl_append, hopen, entry_flags]
    rfl

/-- **Entries are read back in order while there is room.** Kind: L -/
theorem read_entries {maxEntries : ℕ} {new : List Entry} : ∀ {es : List Entry},
    es.length + new.length ≤ maxEntries → ∀ (key pending : Option CString) (cur : Entry),
      ∃ key' pending' cur', (new.flatMap Entry.events).foldl (entryEvent maxEntries)
        ⟨.packages, key, pending, cur, es⟩ = ⟨.packages, key', pending', cur', es ++ new⟩ := by
  induction new with
  | nil => exact fun _ key pending cur => ⟨key, pending, cur, by rw [List.append_nil]; rfl⟩
  | cons e new ih =>
      intro es hroom key pending cur
      rw [List.length_cons] at hroom
      have hrest : (es ++ [e]).length + new.length ≤ maxEntries := by
        rw [List.length_append, List.length_singleton]
        omega
      obtain ⟨key', pending', cur', hrun⟩ := ih hrest none none e
      refine ⟨key', pending', cur', ?_⟩
      rw [List.flatMap_cons, List.foldl_append, read_entry (by omega), hrun, List.append_assoc]
      rfl

/-- **The table is read back.** Kind: L -/
theorem readInstallYamlEntries_fileText {yaml : Libyaml} (hyaml : ReadsLines yaml) (useDev : Bool)
    {es : List Entry} (hplain : ∀ e ∈ es, e.Plain) {maxEntries : ℕ}
      (hroom : es.length ≤ maxEntries) :
    readInstallYamlEntries yaml (some (fileText useDev es)) maxEntries = es := by
  unfold readInstallYamlEntries
  rw [Option.elim_some, hyaml useDev es hplain]
  unfold fileEvents
  by_cases hes : es = []
  · rw [if_pos hes, hes]
    rfl
  · have hlength : ([] : List Entry).length + es.length ≤ maxEntries := by
      rwa [List.length_nil, Nat.zero_add]
    obtain ⟨key, pending, cur, hrun⟩ := read_entries hlength none none ⟨[], []⟩
    rw [List.nil_append] at hrun
    have hhead : ∀ rest, untilEnd (entryEvent maxEntries) ⟨.root, none, none, ⟨[], []⟩, []⟩
        ([YamlEvent.streamStart, .documentStart, .mappingStart, .scalar "packages".toList] ++
          ([YamlEvent.mappingStart] ++ rest)) =
        untilEnd (entryEvent maxEntries) ⟨.packages, none, none, ⟨[], []⟩, []⟩ rest := by
      intro rest
      simp only [List.cons_append, List.nil_append, untilEnd, entryEvent, if_true]
    rw [if_neg hes, List.append_assoc, List.append_assoc, List.append_assoc, hhead,
      untilEnd_append (streamEnd_not_mem_entries es), hrun]
    rfl

/-- The reader of flags is in the mapping of packages, or takes it for that of a package. -/
inductive FlagReader.Between : FlagReader → Prop
  | packages (key : Option CString) (flags : List CString) : Between ⟨.packages, key, flags⟩
  | packageMap (key : Option CString) (flags : List CString) : Between ⟨.packageMap, key, flags⟩

/-- In a list of flags every scalar is added to the flags. Kind: L -/
theorem flag_flags (new : List CString) (key : Option CString) (flags : List CString) :
    (new.map YamlEvent.scalar).foldl flagEvent ⟨.flagsSeq, key, flags⟩ =
      ⟨.flagsSeq, key, flags ++ new⟩ := by
  induction new generalizing flags with
  | nil => rw [List.append_nil]; rfl
  | cons f new ih =>
      rw [List.map_cons, List.foldl_cons]
      apply (ih (flags ++ [f])).trans
      rw [List.append_assoc]
      rfl

/-- An entry hands on its flags. Kind: L -/
theorem flag_entry {r : FlagReader} (h : r.Between) (e : Entry) :
    e.events.foldl flagEvent r = ⟨.packages, none, r.flags ++ e.flags⟩ := by
  obtain ⟨name, flags⟩ := e
  have hstart : ∃ key, [YamlEvent.scalar name, .mappingStart,
    .scalar "flags".toList].foldl flagEvent r =
      ⟨.packageMap, key, r.flags⟩ ∧ key = some "flags".toList := by
    rcases h with ⟨key, fs⟩ | ⟨key, fs⟩ <;> exact ⟨_, rfl, rfl⟩
  obtain ⟨-, hstart, rfl⟩ := hstart
  unfold Entry.events
  rw [List.foldl_append, List.foldl_append, hstart]
  dsimp only
  by_cases hflags : flags = []
  · rw [if_pos hflags, hflags, List.append_nil]
    rfl
  · have hopen : [YamlEvent.sequenceStart].foldl flagEvent
      ⟨.packageMap, some "flags".toList, r.flags⟩ =
        ⟨.flagsSeq, some "flags".toList, r.flags⟩ := by
      simp only [List.foldl_cons, List.foldl_nil, flagEvent, if_true]
    rw [if_neg hflags, List.foldl_append, List.foldl_append, hopen, flag_flags]
    rfl

/-- Entries hand on their flags in order. Kind: L -/
theorem flag_entries {es : List Entry} : ∀ {r : FlagReader}, r.Between →
    ∃ r' : FlagReader, (es.flatMap Entry.events).foldl flagEvent r = r' ∧ r'.Between ∧
      r'.flags = r.flags ++ es.flatMap Entry.flags := by
  induction es with
  | nil => exact fun {r} h => ⟨r, rfl, h, (List.append_nil _).symm⟩
  | cons e es ih =>
      intro r h
      obtain ⟨r', hrun, hr', hflags⟩ := ih (.packages none (r.flags ++ e.flags))
      refine ⟨r', ?_, hr', ?_⟩
      · rw [List.flatMap_cons, List.foldl_append, flag_entry h, hrun]
      · rw [hflags, List.flatMap_cons, List.append_assoc]

/-- **A build reads the flags of all packages.** Kind: L -/
theorem readInstallYamlFlags_fileText {yaml : Libyaml} (hyaml : ReadsLines yaml) {dir : BuildDir}
    (useDev : Bool) {es : List Entry} (hplain : ∀ e ∈ es, e.Plain)
    (hfile : dir.file useDev = some (fileText useDev es)) :
    readInstallYamlFlags yaml dir useDev = (true, es.flatMap Entry.flags) := by
  unfold readInstallYamlFlags
  rw [hfile, Option.some_or, Option.elim_some, hyaml useDev es hplain]
  unfold fileEvents
  by_cases hes : es = []
  · rw [if_pos hes, hes]
    rfl
  · have hhead : ∀ rest, untilEnd flagEvent ⟨.root, none, []⟩
        ([YamlEvent.streamStart, .documentStart, .mappingStart, .scalar "packages".toList] ++
          ([YamlEvent.mappingStart] ++ rest)) = untilEnd flagEvent
            ⟨.packageMap, none, []⟩ rest := by
      intro rest
      simp only [List.cons_append, List.nil_append, untilEnd, flagEvent, if_true]
    obtain ⟨r, hrun, hr, hflags⟩ := @flag_entries es _ (.packageMap none [])
    rw [if_neg hes, List.append_assoc, List.append_assoc, List.append_assoc, hhead,
      untilEnd_append (streamEnd_not_mem_entries es), hrun,
        ← List.nil_append (es.flatMap _), ← hflags]
    rcases hr with ⟨key, fs⟩ | ⟨key, fs⟩ <;> rfl

/-! ## Merging -/

/-- **New flags come behind the old ones, each once.** Kind: P -/
theorem mergeFlags_eq (new : List CString) : ∀ flags : List CString,
    mergeFlags flags new = flags ++ (new.filter (· ∉ flags)).eraseDups := by
  induction new with
  | nil => exact fun flags => (List.append_nil flags).symm
  | cons f new ih =>
      intro flags
      have hstep : mergeFlags flags (f :: new) = mergeFlags (mergeFlag flags f) new := rfl
      by_cases hmem : f ∈ flags
      · rw [hstep, mergeFlag, if_pos hmem, ih, List.filter_cons_of_neg (by simpa using hmem)]
      · have hfilter : new.filter (· ∉ flags ++ [f]) =
            (new.filter (· ∉ flags)).filter fun g => !(g == f) := by
          rw [List.filter_filter]
          refine List.filter_congr fun g _ => Bool.eq_iff_iff.mpr ?_
          simp [List.mem_append, not_or, and_comm]
        rw [hstep, mergeFlag, if_neg hmem, ih, List.filter_cons_of_pos (by simpa using hmem),
          List.eraseDups_cons, hfilter, List.append_assoc]
        rfl

/-- The flags of a package; none for one that is not there. -/
def flagsOf (es : List Entry) (name : CString) : List CString :=
  (es.find? fun e => e.name == name).elim [] Entry.flags

def names (es : List Entry) : List CString := es.map Entry.name

theorem flagsOf_of_not_mem {es : List Entry} {name : CString} (h : name ∉ names es) :
    flagsOf es name = [] := by
  have hfind : es.find? (fun e => e.name == name) = none := by
    refine List.find?_eq_none.mpr fun e he heq => h ?_
    exact List.mem_map.mpr ⟨e, he, beq_iff_eq.mp heq⟩
  rw [flagsOf, hfind]
  rfl

theorem flagsOf_cons (e : Entry) (es : List Entry) (name : CString) :
    flagsOf (e :: es) name = if e.name = name then e.flags else flagsOf es name := by
  unfold flagsOf
  by_cases h : e.name = name
  · rw [if_pos h, List.find?_cons, beq_iff_eq.mpr h]
    rfl
  · rw [if_neg h, List.find?_cons, beq_eq_false_iff_ne.mpr h]

/-- A new entry is found where no other has its name. Kind: L -/
theorem flagsOf_append (es : List Entry) (e : Entry) (name : CString) :
    flagsOf (es ++ [e]) name =
      if name ∈ names es then flagsOf es name else if e.name = name then e.flags else [] := by
  induction es with
  | nil =>
      rw [if_neg (by exact List.not_mem_nil), List.nil_append, flagsOf_cons]
      rfl
  | cons e' es ih =>
      rw [List.cons_append, flagsOf_cons, flagsOf_cons, ih]
      by_cases h : e'.name = name
      · have hmem : name ∈ names (e' :: es) := List.mem_map.mpr ⟨e', List.mem_cons_self .., h⟩
        rw [if_pos h, if_pos h, if_pos hmem]
      · have hmem : name ∈ names (e' :: es) ↔ name ∈ names es := by
          refine ⟨fun hin => ?_, List.mem_cons_of_mem _⟩
          exact (List.mem_cons.mp hin).resolve_left fun heq => h heq.symm
        rw [if_neg h, if_neg h]
        simp only [hmem]

variable {es : List Entry} {name : CString} {i : ℕ} {update : Entry → Entry}

/-- What is changed of the slot of a package. Kind: L -/
theorem flagsOf_modify (hupdate : ∀ e, (update e).name = e.name) :
    ∀ {es : List Entry} {i : ℕ}, es.findIdx? (fun e => e.name == name) = some i →
      ∃ e ∈ es, e.name = name ∧ flagsOf es name = e.flags ∧
        ∀ n, flagsOf (es.modify i update) n = if n = name then (update e).flags else flagsOf es n
  | [], i, h => by cases h
  | e :: es, i, h => by
      rw [List.findIdx?_cons] at h
      by_cases heq : e.name = name
      · rw [if_pos (beq_iff_eq.mpr heq)] at h
        obtain rfl := Option.some.inj h
        refine ⟨e, List.mem_cons_self .., heq, ?_, fun n => ?_⟩
        · rw [flagsOf_cons, if_pos heq]
        · rw [List.modify_zero_cons, flagsOf_cons, flagsOf_cons, hupdate, heq]
          by_cases hn : name = n
          · rw [if_pos hn, if_pos hn.symm]
          · rw [if_neg hn, if_neg (Ne.symm hn), if_neg hn]
      · rw [if_neg (by rwa [beq_iff_eq])] at h
        obtain ⟨i, hi, rfl⟩ := Option.map_eq_some_iff.mp h
        obtain ⟨e', hmem, hname, hflags, hall⟩ := flagsOf_modify hupdate hi
        refine ⟨e', List.mem_cons_of_mem _ hmem, hname, ?_, fun n => ?_⟩
        · rw [flagsOf_cons, if_neg heq, hflags]
        · rw [List.modify_succ_cons, flagsOf_cons, flagsOf_cons, hall]
          by_cases hn : e.name = n
          · rw [if_pos hn, if_pos hn, if_neg fun h => heq (hn.trans h)]
          · rw [if_neg hn, if_neg hn]

/-- A change of flags keeps the names. Kind: L -/
theorem names_modify (hupdate : ∀ e, (update e).name = e.name) :
    ∀ (es : List Entry) (i : ℕ), names (es.modify i update) = names es
  | [], _ => by rw [List.modify_nil]
  | e :: es, 0 => by
      rw [List.modify_zero_cons]
      exact congrArg (· :: names es) (hupdate e)
  | e :: es, i + 1 => by
      rw [List.modify_succ_cons]
      exact congrArg (e.name :: ·) (names_modify hupdate es i)

theorem mem_modify {x : Entry} : ∀ {es : List Entry} {i : ℕ}, x ∈ es.modify i update →
    x ∈ es ∨ ∃ e ∈ es, x = update e
  | [], _, h => by
      rw [List.modify_nil] at h
      exact .inl h
  | e :: es, 0, h => by
      rw [List.modify_zero_cons] at h
      rcases List.mem_cons.mp h with rfl | h
      · exact .inr ⟨e, List.mem_cons_self .., rfl⟩
      · exact .inl (List.mem_cons_of_mem _ h)
  | e :: es, i + 1, h => by
      rw [List.modify_succ_cons] at h
      rcases List.mem_cons.mp h with rfl | h
      · exact .inl (List.mem_cons_self ..)
      · rcases mem_modify h with h | ⟨e', he', rfl⟩
        · exact .inl (List.mem_cons_of_mem _ h)
        · exact .inr ⟨e', List.mem_cons_of_mem _ he', rfl⟩

theorem modify_end (es : List Entry) (e : Entry) :
    (es ++ [e]).modify es.length update = es ++ [update e] := by
  induction es with
  | nil => rfl
  | cons e' es ih => rw [List.cons_append, List.length_cons,
      List.modify_succ_cons, ih, List.cons_append]

theorem findIdx?_isSome_iff (es : List Entry) (name : CString) :
    (es.findIdx? fun e => e.name == name).isSome = true ↔ name ∈ names es := by
  rw [List.findIdx?_isSome, List.any_eq_true]
  refine ⟨fun ⟨e, he, heq⟩ => List.mem_map.mpr ⟨e, he, beq_iff_eq.mp heq⟩, fun h => ?_⟩
  obtain ⟨e, he, heq⟩ := List.mem_map.mp h
  exact ⟨e, he, beq_iff_eq.mpr heq⟩

/-- A table whose names are distinct and which is not above the bound. -/
structure Table where
  entries : List Entry
  distinct : (names entries).Nodup
  room : entries.length ≤ maxInstallEntries
  plain : ∀ e ∈ entries, e.Plain

/-- A package is merged into its entry, is appended, or finds the table full. Kind: L -/
theorem mergeEntries_cases (es : List Entry) (name : CString) (flags : List CString) :
    (name ∈ names es ∧ ∃ i, es.findIdx? (fun e => e.name == name) = some i ∧
      mergeEntries es name flags = es.modify i (Entry.addFlags flags)) ∨
    (name ∉ names es ∧ es.length < maxInstallEntries ∧
      mergeEntries es name flags = es ++ [⟨name, mergeFlags [] flags⟩]) ∨
    (name ∉ names es ∧ ¬ es.length < maxInstallEntries ∧ mergeEntries es name flags = es) := by
  have hiff := findIdx?_isSome_iff es name
  unfold mergeEntries slot
  cases hfind : es.findIdx? fun e => e.name == name with
  | some i =>
      rw [hfind] at hiff
      exact .inl ⟨hiff.mp rfl, i, rfl, rfl⟩
  | none =>
      rw [hfind] at hiff
      have hnot : name ∉ names es := fun hmem => absurd (hiff.mpr hmem) Bool.false_ne_true
      by_cases hroom : es.length < maxInstallEntries
      · refine .inr (.inl ⟨hnot, hroom, ?_⟩)
        dsimp only
        rw [if_pos hroom]
        exact modify_end es _
      · refine .inr (.inr ⟨hnot, hroom, ?_⟩)
        dsimp only
        rw [if_neg hroom]

theorem addFlags_name (flags : List CString) (e : Entry) : (e.addFlags flags).name = e.name := rfl

/-- Merging makes up no flag. Kind: L -/
theorem mem_mergeFlags {f : CString} {flags new : List CString} (h : f ∈ mergeFlags flags new) :
    f ∈ flags ∨ f ∈ new := by
  rw [mergeFlags_eq] at h
  rcases List.mem_append.mp h with h | h
  · exact .inl h
  · exact .inr (List.mem_filter.mp (List.mem_eraseDups.mp h)).1

/-- **A table stays one when plain texts are added.** -/
def Table.merge (t : Table) (name : CString) (flags : List CString) (hname : PlainKey name)
    (hflags : ∀ f ∈ flags, PlainItem f) : Table where
  entries := mergeEntries t.entries name flags
  distinct := by
    rcases mergeEntries_cases t.entries name flags with ⟨-, i, -, heq⟩ |
      ⟨hnot, -, heq⟩ | ⟨-, -, heq⟩ <;>
      rw [heq]
    · rw [names_modify (addFlags_name flags)]
      exact t.distinct
    · rw [names, List.map_append, List.nodup_append']
      exact ⟨t.distinct, List.nodup_singleton _, List.disjoint_singleton.mpr hnot⟩
    · exact t.distinct
  room := by
    rcases mergeEntries_cases t.entries name flags with ⟨-, i, -, heq⟩ |
      ⟨-, hroom, heq⟩ | ⟨-, -, heq⟩ <;>
      rw [heq]
    · rw [List.length_modify]
      exact t.room
    · rw [List.length_append]
      exact hroom
    · exact t.room
  plain := by
    have hmerged : ∀ {old}, (∀ f ∈ old, PlainItem f) → ∀ f ∈ mergeFlags old flags, PlainItem f :=
      fun hold f hf => (mem_mergeFlags hf).elim (hold f) (hflags f)
    rcases mergeEntries_cases t.entries name flags with ⟨-, i, -, heq⟩ | ⟨-, -, heq⟩ | ⟨-, -, heq⟩
      <;>
      rw [heq]
    · intro e he
      rcases mem_modify he with he | ⟨e', he', rfl⟩
      · exact t.plain e he
      · exact ⟨(t.plain e' he').name, hmerged (t.plain e' he').flags⟩
    · intro e he
      rcases List.mem_append.mp he with he | he
      · exact t.plain e he
      · obtain rfl := List.mem_singleton.mp he
        exact ⟨hname, hmerged fun f hf => absurd hf List.not_mem_nil⟩
    · exact t.plain

/-! ## Runs -/

/-- What a build directory holds after writes of plain names and flags. -/
inductive Written (yaml : Libyaml) : BuildDir → Prop
  | empty : Written yaml ⟨none, none⟩
  | write {dir : BuildDir} (h : Written yaml dir) (useDev : Bool) {name : CString}
      {flags : List CString} (hname : PlainKey name) (hflags : ∀ f ∈ flags, PlainItem f) :
      Written yaml (writeInstallYaml yaml dir name flags useDev)

/-- What is read of a file. -/
def entriesOf (yaml : Libyaml) (dir : BuildDir) (useDev : Bool) : List Entry :=
  readInstallYamlEntries yaml (dir.file useDev) maxInstallEntries

theorem put_file (dir : BuildDir) (useDev : Bool) (text : CString) :
    (dir.put useDev text).file useDev = some text := by
  cases useDev <;> rfl

/-- Writing one file leaves the other. Kind: L -/
theorem put_file_other (dir : BuildDir) (useDev : Bool) (text : CString) :
    (dir.put useDev text).file (!useDev) = dir.file (!useDev) := by
  cases useDev <;> rfl

/-- The file is absent or the text of a table. -/
def Recorded (dir : BuildDir) (useDev : Bool) : Prop :=
  dir.file useDev = none ∨ ∃ t : Table, dir.file useDev = some (fileText useDev t.entries)

/-- What a written file is read as is a table. Kind: L -/
theorem entriesOf_recorded {yaml : Libyaml} (hyaml : ReadsLines yaml) {dir : BuildDir}
    {useDev : Bool}
    (h : Recorded dir useDev) : ∃ t : Table, entriesOf yaml dir useDev = t.entries := by
  unfold entriesOf
  rcases h with h | ⟨t, h⟩
  · refine ⟨⟨[], List.nodup_nil, Nat.zero_le _, fun e he => absurd he List.not_mem_nil⟩, ?_⟩
    rw [h]
    rfl
  · refine ⟨t, ?_⟩
    rw [h, readInstallYamlEntries_fileText hyaml useDev t.plain t.room]

/-- **A file is the text of a table at all times.** Kind: L -/
theorem written_recorded {yaml : Libyaml} (hyaml : ReadsLines yaml) {dir : BuildDir}
    (h : Written yaml dir) : ∀ useDev, Recorded dir useDev := by
  induction h with
  | empty => exact fun useDev => .inl (by cases useDev <;> rfl)
  | @write dir h dev name flags hname hflags ih =>
      intro useDev
      obtain ⟨t, ht⟩ := entriesOf_recorded hyaml (ih dev)
      by_cases hsame : useDev = dev
      · refine .inr ⟨t.merge name flags hname hflags, ?_⟩
        rw [hsame]
        apply (put_file ..).trans
        exact congrArg (fun es => some (fileText dev (mergeEntries es name flags))) ht
      · obtain rfl : useDev = !dev := Bool.eq_not_of_ne hsame
        have hother : (writeInstallYaml yaml dir name flags dev).file (!dev) = dir.file (!dev) :=
          put_file_other ..
        unfold Recorded
        rw [hother]
        exact ih (!dev)

/-- **What is read after a write is the merged table.** Kind: L -/
theorem entriesOf_write {yaml : Libyaml} (hyaml : ReadsLines yaml) {dir : BuildDir}
    (h : Written yaml dir) (useDev : Bool) {name : CString} {flags : List CString}
    (hname : PlainKey name) (hflags : ∀ f ∈ flags, PlainItem f) :
    entriesOf yaml (writeInstallYaml yaml dir name flags useDev) useDev =
        mergeEntries (entriesOf yaml dir useDev) name flags ∧
      readInstallYamlFlags yaml (writeInstallYaml yaml dir name flags useDev) useDev =
        (true, (mergeEntries (entriesOf yaml dir useDev) name flags).flatMap Entry.flags) := by
  obtain ⟨t, ht⟩ := entriesOf_recorded hyaml (written_recorded hyaml h useDev)
  have hfile : (writeInstallYaml yaml dir name flags useDev).file useDev =
      some (fileText useDev (t.merge name flags hname hflags).entries) := by
    apply (put_file ..).trans
    exact congrArg (fun es => some (fileText useDev (mergeEntries es name flags))) ht
  have hplain := (t.merge name flags hname hflags).plain
  rw [ht]
  constructor
  · rw [entriesOf, hfile,
      readInstallYamlEntries_fileText hyaml useDev hplain (t.merge name flags hname hflags).room]
    rfl
  · rw [readInstallYamlFlags_fileText hyaml useDev hplain hfile]
    rfl

/-- A write keeps the flags of the other packages and adds those of its own, a build reads the flags
of all, and the other file is as it was. -/
structure Kept (yaml : Libyaml) (dir dir' : BuildDir) (useDev : Bool) (name : CString)
    (flags : List CString) : Prop where
  others : ∀ other, other ≠ name →
    flagsOf (entriesOf yaml dir' useDev) other = flagsOf (entriesOf yaml dir useDev) other
  own : flagsOf (entriesOf yaml dir' useDev) name = flagsOf (entriesOf yaml dir useDev) name ++
    (flags.filter (· ∉ flagsOf (entriesOf yaml dir useDev) name)).eraseDups
  all : readInstallYamlFlags yaml dir' useDev =
    (true, (entriesOf yaml dir' useDev).flatMap Entry.flags)
  otherFile : dir'.file (!useDev) = dir.file (!useDev)

/-- **Merging changes the flags of this package only.** Kind: L -/
theorem flagsOf_mergeEntries {es : List Entry} {name : CString}
    (h : name ∈ names es ∨ es.length < maxInstallEntries) (flags : List CString) (n : CString) :
    flagsOf (mergeEntries es name flags) n =
      if n = name then mergeFlags (flagsOf es name) flags else flagsOf es n := by
  rcases mergeEntries_cases es name flags with ⟨-, i, hi, heq⟩ | ⟨hnot, -, heq⟩ | ⟨hnot, hfull, -⟩
  · obtain ⟨e, -, -, hflags, hall⟩ := flagsOf_modify (addFlags_name flags) hi
    rw [heq, hall, hflags]
    rfl
  · rw [heq, flagsOf_append, flagsOf_of_not_mem hnot]
    by_cases hn : n = name
    · rw [if_pos hn, if_neg (hn ▸ hnot), if_pos hn.symm]
    · rw [if_neg hn, if_neg (Ne.symm hn)]
      split_ifs with hmem
      · rfl
      · rw [flagsOf_of_not_mem hmem]
  · exact absurd (h.resolve_left hnot) hfull

/-- A full table takes no new package. Kind: L -/
theorem mergeEntries_full {es : List Entry} {name : CString} (hnot : name ∉ names es)
    (hfull : ¬ es.length < maxInstallEntries)
      (flags : List CString) : mergeEntries es name flags = es := by
  rcases mergeEntries_cases es name flags with ⟨hmem, -⟩ | ⟨-, hroom, -⟩ | ⟨-, -, heq⟩
  · exact absurd hmem hnot
  · exact absurd hroom hfull
  · exact heq

section Steps

variable {yaml : Libyaml} {dir : BuildDir} {name : CString} {flags : List CString}

/-- **A write that finds a slot keeps the flags.** Kind: L -/
theorem kept_of_slot (hyaml : ReadsLines yaml) (h : Written yaml dir) (useDev : Bool)
    (hname : PlainKey name) (hflags : ∀ f ∈ flags, PlainItem f)
    (hslot : name ∈ names (entriesOf yaml dir useDev) ∨
      (entriesOf yaml dir useDev).length < maxInstallEntries) :
    Kept yaml dir (writeInstallYaml yaml dir name flags useDev) useDev name flags := by
  obtain ⟨hentries, hall⟩ := entriesOf_write hyaml h useDev hname hflags
  have hmerged := flagsOf_mergeEntries hslot flags
  refine ⟨fun n hn => ?_, ?_, ?_, put_file_other ..⟩
  · rw [hentries, hmerged, if_neg hn]
  · rw [hentries, hmerged, if_pos rfl, mergeFlags_eq]
  · rw [hentries, hall]

/-- Without a slot and without flags nothing is lost. Kind: L -/
theorem kept_of_nil (hyaml : ReadsLines yaml) (h : Written yaml dir) (useDev : Bool)
    (hname : PlainKey name) (hnot : name ∉ names (entriesOf yaml dir useDev))
    (hfull : ¬ (entriesOf yaml dir useDev).length < maxInstallEntries) :
    Kept yaml dir (writeInstallYaml yaml dir name [] useDev) useDev name [] := by
  have hflags : ∀ f ∈ ([] : List CString), PlainItem f := fun f hf => absurd hf List.not_mem_nil
  obtain ⟨hentries, hall⟩ := entriesOf_write hyaml h useDev hname hflags
  rw [mergeEntries_full hnot hfull] at hentries hall
  refine ⟨fun n _ => ?_, ?_, ?_, put_file_other ..⟩
  · rw [hentries]
  · rw [hentries, List.filter_nil, List.eraseDups_nil, List.append_nil]
  · rw [hentries, hall]

/-- **A write that finds no slot loses the flags of its package.** Kind: L -/
theorem lost_of_full (hyaml : ReadsLines yaml) (h : Written yaml dir) (useDev : Bool)
    (hname : PlainKey name) (hflags : ∀ f ∈ flags, PlainItem f) (hne : flags ≠ [])
    (hnot : name ∉ names (entriesOf yaml dir useDev))
    (hfull : ¬ (entriesOf yaml dir useDev).length < maxInstallEntries) :
    ¬ Kept yaml dir (writeInstallYaml yaml dir name flags useDev) useDev name flags := by
  intro hkept
  have hown := hkept.own
  rw [(entriesOf_write hyaml h useDev hname hflags).1, mergeEntries_full hnot hfull,
    flagsOf_of_not_mem hnot, List.nil_append] at hown
  obtain ⟨f, rest, rfl⟩ := List.exists_cons_of_ne_nil hne
  rw [List.filter_cons_of_pos (by simp), List.eraseDups_cons] at hown
  cases hown

end Steps

/-! ## A reader by lines -/

/-- The flags of the entry that a line belongs to, and the entries behind it. -/
def readLine (line : CString) (r : List CString × List Entry) : List CString × List Entry :=
  if flagMark.isPrefixOf line then (line.drop flagMark.length :: r.1, r.2)
  else if line = flagsLine then r
  else if [' ', ' '].isPrefixOf line then ([], ⟨(line.drop 2).dropLast, r.1⟩ :: r.2)
  else r

def readLines (text : CString) : List Entry := ((text.splitOn '\n').foldr readLine ([], [])).2

/-- A parser of texts that are written here. -/
def lineYaml : Libyaml where
  emit := fun _ => []
  parse := fun text => fileEvents (readLines text)

theorem plain_noBreak {s : CString} (h : Plain s) : '\n' ∉ s := by
  intro hmem
  exact absurd (List.all_eq_true.mp h.2.2 _ hmem) (by decide)

theorem plainItem_noBreak {s : CString} (h : PlainItem s) : '\n' ∉ s := by
  rcases h with h | rfl
  · exact plain_noBreak h
  · exact List.not_mem_nil

/-- A plain text does not start with a blank. Kind: L -/
theorem plain_head {s : CString} (h : Plain s) : ∃ c rest, s = c :: rest ∧ c ≠ ' ' := by
  cases s with
  | nil => exact absurd h.1 Bool.false_ne_true
  | cons c rest =>
      refine ⟨c, rest, rfl, fun hc => absurd h.1 ?_⟩
      rw [hc, plainStart, if_neg (by decide)]
      exact Bool.false_ne_true

/-- A line with a mark is a flag. Kind: L -/
theorem readLine_flag (f : CString) (r : List CString × List Entry) :
    readLine (flagMark ++ f) r = (f :: r.1, r.2) := by
  unfold readLine
  rw [if_pos (List.isPrefixOf_iff_prefix.mpr (List.prefix_append ..)), List.drop_left]

theorem flagMark_eq : flagMark = [' ', ' ', ' ', ' ', ' ', ' ', '-', ' '] := String.toList_ofList

theorem flagsLine_eq : flagsLine = [' ', ' ', ' ', ' ', 'f', 'l', 'a', 'g', 's', ':'] :=
  String.toList_ofList

theorem readLine_flagsLine (r : List CString × List Entry) : readLine flagsLine r = r := by
  have hno : ¬ flagMark.isPrefixOf flagsLine = true := by
    rw [flagMark_eq, flagsLine_eq]
    decide
  unfold readLine
  rw [if_neg hno, if_pos rfl]

/-- A line with a name takes the flags below it. Kind: L -/
theorem readLine_name {name : CString} (h : Plain name) (r : List CString × List Entry) :
    readLine ([' ', ' '] ++ name ++ [':']) r = ([], ⟨name, r.1⟩ :: r.2) := by
  have hdrop : (([' ', ' '] ++ name ++ [':']).drop 2).dropLast = name := List.dropLast_concat
  obtain ⟨c, rest, rfl, hc⟩ := plain_head h
  have hmark : ¬ flagMark.isPrefixOf ([' ', ' '] ++ c :: rest ++ [':']) = true := by
    rw [List.isPrefixOf_iff_prefix, flagMark_eq]
    rintro ⟨t, ht⟩
    exact hc (List.cons.inj (List.cons.inj (List.cons.inj ht).2).2).1.symm
  have hline : ¬ [' ', ' '] ++ c :: rest ++ [':'] = flagsLine := by
    rw [flagsLine_eq]
    intro heq
    exact hc (List.cons.inj (List.cons.inj (List.cons.inj heq).2).2).1
  unfold readLine
  rw [if_neg hmark, if_neg hline, hdrop]
  rfl

/-- The lines of flags are read back. Kind: L -/
theorem read_flagLines {flags : List CString} (h : ∀ f ∈ flags, PlainItem f) (rest : CString) :
    (((flags.flatMap fun f => flagMark ++ f ++ ['\n']) ++ rest).splitOn '\n').foldr readLine
      ([], []) =
      (flags ++ ((rest.splitOn '\n').foldr readLine ([], [])).1,
        ((rest.splitOn '\n').foldr readLine ([], [])).2) := by
  induction flags with
  | nil => rfl
  | cons f flags ih =>
      obtain ⟨hf, hflags⟩ := List.forall_mem_cons.mp h
      have hno : '\n' ∉ flagMark ++ f := by
        rw [List.mem_append, not_or]
        exact ⟨by rw [flagMark_eq]; decide, plainItem_noBreak hf⟩
      have hsplit : ((f :: flags).flatMap fun f => flagMark ++ f ++ ['\n']) ++ rest =
          (flagMark ++ f) ++ '\n' :: ((flags.flatMap fun f => flagMark ++ f ++ ['\n']) ++
            rest) := by
        rw [List.flatMap_cons, List.append_assoc, List.append_assoc]
        rfl
      rw [hsplit, List.splitOn_append_cons_self_of_not_mem hno,
        List.foldr_cons, ih hflags, readLine_flag]
      rfl

/-- **The lines of an entry are read as the entry.** Kind: L -/
theorem read_entryText {e : Entry} (h : e.Plain) (rest : CString) {es : List Entry}
    (hrest : (rest.splitOn '\n').foldr readLine ([], []) = ([], es)) :
    ((entryText e ++ rest).splitOn '\n').foldr readLine ([], []) = ([], e :: es) := by
  have hname : '\n' ∉ [' ', ' '] ++ e.name ++ [':'] := by
    simp only [List.mem_append, not_or]
    exact ⟨⟨by decide, plain_noBreak h.name.1⟩, by decide⟩
  have hline : '\n' ∉ flagsLine := by
    rw [flagsLine_eq]
    decide
  have hsplit : entryText e ++ rest = ([' ', ' '] ++ e.name ++ [':']) ++ '\n' :: (flagsLine ++
      '\n' :: ((e.flags.flatMap fun f => flagMark ++ f ++ ['\n']) ++ rest)) := by
    unfold entryText
    simp only [List.append_assoc, List.cons_append, List.nil_append]
  rw [hsplit, List.splitOn_append_cons_self_of_not_mem hname,
    List.splitOn_append_cons_self_of_not_mem hline, List.foldr_cons, List.foldr_cons,
    read_flagLines h.flags, hrest, List.append_nil, readLine_flagsLine, readLine_name h.name.1]

/-- The texts of entries are read back. Kind: L -/
theorem read_entryTexts {es : List Entry} (h : ∀ e ∈ es, e.Plain) :
    ((es.flatMap entryText).splitOn '\n').foldr readLine ([], []) = ([], es) := by
  induction es with
  | nil =>
      have hno : ¬ flagMark.isPrefixOf [] = true := by
        rw [flagMark_eq]
        decide
      have hline : ¬ [] = flagsLine := by
        rw [flagsLine_eq]
        exact (List.cons_ne_nil _ _).symm
      rw [List.flatMap_nil, List.splitOn_nil, List.foldr_cons, List.foldr_nil, readLine, if_neg hno,
        if_neg hline]
      rfl
  | cons e es ih =>
      obtain ⟨he, hes⟩ := List.forall_mem_cons.mp h
      rw [List.flatMap_cons]
      exact read_entryText he _ (ih hes)

/-- A line that does not start with a space. Kind: L -/
theorem readLine_other {line : CString} (h : ∀ rest, line ≠ ' ' :: rest)
    (r : List CString × List Entry) :
    readLine line r = r := by
  have hmark : ¬ flagMark.isPrefixOf line = true := by
    rw [List.isPrefixOf_iff_prefix, flagMark_eq]
    rintro ⟨t, ht⟩
    exact h _ ht.symm
  have hline : ¬ line = flagsLine := by
    rw [flagsLine_eq]
    exact h _
  have hname : ¬ [' ', ' '].isPrefixOf line = true := by
    rw [List.isPrefixOf_iff_prefix]
    rintro ⟨t, ht⟩
    exact h _ ht.symm
  rw [readLine, if_neg hmark, if_neg hline, if_neg hname]

/-- A line of the header is passed. Kind: L -/
theorem read_headerLine {line : CString} (hno : '\n' ∉ line) (hhead : line.head? ≠ some ' ')
    (rest : CString) : ((line ++ '\n' :: rest).splitOn '\n').foldr readLine ([], []) =
      (rest.splitOn '\n').foldr readLine ([], []) := by
  rw [List.splitOn_append_cons_self_of_not_mem hno, List.foldr_cons]
  apply readLine_other
  rintro rest' rfl
  exact hhead rfl

/-- **A text has one table.** Kind: P -/
theorem readLines_text (useDev : Bool) {es : List Entry} (h : ∀ e ∈ es, e.Plain) :
    readLines (fileText useDev es) = es := by
  have hsplit : fileText useDev es =
      ("# Generated by cxy package install".toList ++ (if useDev then " --dev".toList else [])) ++
        '\n' :: ("# DO NOT EDIT MANUALLY - will be regenerated on install".toList ++ '\n' ::
          ([] ++ '\n' :: ("packages:".toList ++ '\n' :: es.flatMap entryText))) := by
    unfold fileText headerText
    simp only [List.append_assoc, List.cons_append, List.nil_append]
  have hfirst : '\n' ∉ "# Generated by cxy package install".toList ++
      (if useDev then " --dev".toList else []) := by
    cases useDev <;> decide
  have hhead : ("# Generated by cxy package install".toList ++
      (if useDev then " --dev".toList else [])).head? ≠ some ' ' := by
    cases useDev <;> decide
  rw [readLines, hsplit, read_headerLine hfirst hhead, read_headerLine (by decide) (by decide),
    read_headerLine List.not_mem_nil (by decide), read_headerLine (by decide) (by decide),
    read_entryTexts h]

theorem lineYaml_readsLines : ReadsLines lineYaml := fun useDev _ h =>
  congrArg fileEvents (readLines_text useDev h)

/-! ## The table is full -/

/-- **A write keeps the flags of the other packages and adds those of its own exactly if the package
is in the file, or there is room, or nothing is to be added**, after any number of writes.
Kind: P -/
theorem installYaml_iff {yaml : Libyaml} (hyaml : ReadsLines yaml) {dir : BuildDir}
    (h : Written yaml dir) (useDev : Bool) {name : CString} {flags : List CString}
    (hname : PlainKey name) (hflags : ∀ f ∈ flags, PlainItem f) :
    Kept yaml dir (writeInstallYaml yaml dir name flags useDev) useDev name flags ↔
      name ∈ names (entriesOf yaml dir useDev) ∨
        (entriesOf yaml dir useDev).length < maxInstallEntries ∨ flags = [] := by
  by_cases hslot : name ∈ names (entriesOf yaml dir useDev) ∨
      (entriesOf yaml dir useDev).length < maxInstallEntries
  · exact iff_of_true (kept_of_slot hyaml h useDev hname hflags hslot) (hslot.imp_right .inl)
  · obtain ⟨hnot, hfull⟩ := not_or.mp hslot
    by_cases hnil : flags = []
    · subst hnil
      exact iff_of_true (kept_of_nil hyaml h useDev hname hnot hfull) (.inr (.inr rfl))
    · refine iff_of_false (lost_of_full hyaml h useDev hname hflags hnil hnot hfull) ?_
      rintro (hmem | hroom | heq)
      · exact hnot hmem
      · exact hfull hroom
      · exact hnil heq

theorem plainKey_a : PlainKey ['a'] := ⟨⟨by decide, by decide, by decide⟩, by decide⟩

theorem plainItem_flag : ∀ f ∈ [['-', '-', 'c', '-', 'l', 'i', 'b', '=', 'a']], PlainItem f :=
  List.forall_mem_singleton.mpr (.inl ⟨by decide, by decide, by decide⟩)

/-- The directory after packages `a`, `aa`, and so on. -/
def afterPackages (n : ℕ) : BuildDir :=
  (List.range n).foldl (fun dir i => writeInstallYaml lineYaml dir (List.replicate (i + 1) 'a')
    [['-', '-', 'c', '-', 'l', 'i', 'b', '=', 'a']] false) ⟨none, none⟩

/-- Their entries. -/
def packageEntries (n : ℕ) : List Entry :=
  (List.range n).map fun i =>
    ⟨List.replicate (i + 1) 'a', [['-', '-', 'c', '-', 'l', 'i', 'b', '=', 'a']]⟩

theorem plainRest_replicate : ∀ n : ℕ, plainRest (List.replicate n 'a') = true
  | 0 => rfl
  | 1 => by decide
  | n + 2 => plainRest_replicate (n + 1)

theorem plainKey_replicate {n : ℕ} (h : n < maxInstallEntries) :
    PlainKey (List.replicate (n + 1) 'a') := by
  refine ⟨⟨by rw [List.replicate_succ]; rfl, plainRest_replicate _, ?_⟩, ?_⟩
  · refine List.all_eq_true.mpr fun c hc => ?_
    obtain rfl := List.eq_of_mem_replicate hc
    decide
  · rw [List.length_replicate]
    unfold maxInstallEntries at h
    omega

/-- **Each new package is put behind the others.** Kind: L -/
theorem afterPackages_entries : ∀ {n : ℕ}, n ≤ maxInstallEntries →
    Written lineYaml (afterPackages n) ∧
      entriesOf lineYaml (afterPackages n) false = packageEntries n
  | 0, _ => ⟨.empty, rfl⟩
  | n + 1, h => by
      obtain ⟨hwritten, hentries⟩ := afterPackages_entries (Nat.le_of_succ_le h)
      have hname := plainKey_replicate h
      have hstep : afterPackages (n + 1) = writeInstallYaml lineYaml (afterPackages n)
          (List.replicate (n + 1) 'a') [['-', '-', 'c', '-', 'l', 'i', 'b', '=', 'a']] false := by
        unfold afterPackages
        rw [List.range_succ, List.foldl_append]
        rfl
      have hnot : List.replicate (n + 1) 'a' ∉ names (packageEntries n) := by
        intro hmem
        obtain ⟨e, he, heq⟩ := List.mem_map.mp hmem
        obtain ⟨i, hi, rfl⟩ := List.mem_map.mp he
        have hlength := congrArg List.length heq
        rw [List.length_replicate, List.length_replicate] at hlength
        have hlt := List.mem_range.mp hi
        omega
      have hlength : (packageEntries n).length = n := by
        rw [packageEntries, List.length_map, List.length_range]
      rw [hstep]
      refine ⟨hwritten.write false hname plainItem_flag, ?_⟩
      rw [(entriesOf_write lineYaml_readsLines hwritten false hname plainItem_flag).1, hentries]
      rcases mergeEntries_cases (packageEntries n) (List.replicate (n + 1) 'a')
        [['-', '-', 'c', '-', 'l', 'i', 'b', '=', 'a']] with ⟨hmem, -⟩ | ⟨-, -, heq⟩ | ⟨-, hfull, -⟩
      · exact absurd hmem hnot
      · rw [heq, packageEntries, packageEntries, List.range_succ, List.map_append]
        rfl
      · exact absurd (hlength.symm ▸ h) hfull

/-- In a directory with two packages the flags of a third one are kept, and new flags of one of the
two. Kind: P -/
theorem third_package_kept :
    Kept lineYaml (afterPackages 2) (writeInstallYaml lineYaml (afterPackages 2) ['b']
        [['-', '-', 'c', '-', 'l', 'i', 'b', '=', 'a']] false) false ['b']
        [['-', '-', 'c', '-', 'l', 'i', 'b', '=', 'a']] ∧
      Kept lineYaml (afterPackages 2) (writeInstallYaml lineYaml (afterPackages 2) ['a']
        [['-', '-', 'c', '-', 'l', 'i', 'b', '=', 'a'], ['x']] false) false ['a']
        [['-', '-', 'c', '-', 'l', 'i', 'b', '=', 'a'], ['x']] := by
  obtain ⟨hwritten, hentries⟩ := @afterPackages_entries 2 (by decide)
  have hname : PlainKey ['b'] := ⟨⟨by decide, by decide, by decide⟩, by decide⟩
  have hroom : (entriesOf lineYaml (afterPackages 2) false).length < maxInstallEntries := by
    rw [hentries]
    decide
  have hmem : ['a'] ∈ names (entriesOf lineYaml (afterPackages 2) false) := by
    rw [hentries]
    decide
  have hflags : ∀ f ∈ [['-', '-', 'c', '-', 'l', 'i', 'b', '=', 'a'], ['x']], PlainItem f :=
    List.forall_mem_cons.mpr ⟨plainItem_flag _ (List.mem_singleton_self _),
      List.forall_mem_singleton.mpr (.inl ⟨by decide, by decide, by decide⟩)⟩
  exact ⟨(installYaml_iff lineYaml_readsLines hwritten false hname plainItem_flag).mpr
    (.inr (.inl hroom)),
    (installYaml_iff lineYaml_readsLines hwritten false plainKey_a hflags).mpr (.inl hmem)⟩

/-- **The flags of the package after the 64th are lost.** Kind: P -/
theorem last_package_lost : Written lineYaml (afterPackages 64) ∧
    ¬ Kept lineYaml (afterPackages 64) (writeInstallYaml lineYaml (afterPackages 64) ['b']
      [['-', '-', 'c', '-', 'l', 'i', 'b', '=', 'a']] false) false ['b']
      [['-', '-', 'c', '-', 'l', 'i', 'b', '=', 'a']] := by
  obtain ⟨hwritten, hentries⟩ := afterPackages_entries (le_refl maxInstallEntries)
  have hname : PlainKey ['b'] := ⟨⟨by decide, by decide, by decide⟩, by decide⟩
  have hnot : ['b'] ∉ names (packageEntries maxInstallEntries) := by
    intro hmem
    obtain ⟨e, he, heq⟩ := List.mem_map.mp hmem
    obtain ⟨i, hi, rfl⟩ := List.mem_map.mp he
    rw [List.replicate_succ] at heq
    cases heq
  have hfull : ¬ (packageEntries maxInstallEntries).length < maxInstallEntries := by
    rw [packageEntries, List.length_map, List.length_range]
    exact lt_irrefl _
  refine ⟨hwritten, lost_of_full lineYaml_readsLines hwritten false hname plainItem_flag
    (List.cons_ne_nil _ _) ?_ ?_⟩
  · exact hentries ▸ hnot
  · exact hentries ▸ hfull

end CxyCompiler.Package.Install
