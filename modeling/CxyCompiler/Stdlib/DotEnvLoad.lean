import CxyCompiler.Stdlib.DotEnv

/-!
# Loading an environment file (`stdlib/dotenv.cxy`)

* `parseLine`, `loadRound`, `load` — a file is read line by line.
* `Unquotes`, `LineMeans`, `Loads` — what a value, a line and all of the lines mean. **A
  single-quoted value is taken as it stands**, any other one is expanded with what the lines in
  front of it bind.
* `parseLine_spec` — what a line does; `load_spec` — **a file means what its lines mean**.
* `expands_and_loads` — both parts; `single_quoted_not_expanded` is a file with a quoted value.
-/

namespace CxyCompiler.Stdlib.DotEnv

open CxyCompiler.Lib.Loop
open CxyCompiler.Runtime.String (isSpace)

/-! ## Lines -/

def isBlank (c : UInt8) : Bool := c = ch ' ' || c = ch '\t'

def isQuote (c : UInt8) : Bool := c = ch '"' || c = ch '\''

/-- The number of the line is an `i8`. Source: `dotenv.cxy` `DotEnv.parseLine`, the error. -/
def missingEqual (lineNum : Int8) : Bytes :=
  text "Missing '=' on line " ++ appendSignedInt lineNum.toInt

/-- The quote that a value starts with, and the value without its quotes.
Source: `dotenv.cxy` `DotEnv.parseLine`. -/
def unquote (value : Slice) : Option (Option UInt8 × Slice) :=
  match value.bytes.head? with
  | none => some (none, value)
  | some c =>
      if isQuote c then do
        let inner ← value.substrFrom 1
        if inner.bytes.getLast? = some c then
          let inner ← inner.substr 0 (inner.bytes.length - 1)
          some (some c, inner)
        else some (some c, inner)
      else some (none, value)

/-- Source: `dotenv.cxy` `DotEnv.parseLine`. -/
def parseLine (p : Platform) (vars : Vars) (line : Slice)
    (lineNum : Int8) : Option (Except Bytes Vars) :=
  let idx := (line.bytes.takeWhile isBlank).length
  if idx ≥ line.bytes.length ∨ line.bytes[idx]? = some (ch '#') then some (.ok vars)
  else
    match line.bytes.findIdx? (· == ch '=') with
    | none => some (.error (missingEqual lineNum))
    | some equal => do
        let key ← line.substr idx (equal - idx)
        let value ← line.substrFrom (equal + 1)
        let (quoteChar, value) ← unquote value.trim
        let finalValue ←
          if quoteChar = some (ch '\'') then some value.bytes else expandVariables p vars value
        some (.ok (Function.update vars key.trim.bytes (some finalValue)))

/-- An empty line is not parsed. Source: `dotenv.cxy` `DotEnv.load`. -/
def parseNonEmpty (p : Platform) (vars : Vars) (line : Slice) (lineNum : Int8) :
    Option (Except Bytes Vars) :=
  if line.bytes.length > 0 then parseLine p vars line lineNum else some (.ok vars)

/-- Source: `dotenv.cxy` `DotEnv.load`. -/
def skipNewline (str : Slice) : Option Slice :=
  if str.bytes.head? = some (ch '\n') then str.substrFrom 1 else some str

/-- A round reads a line: `str` is what has not been read. Source: `dotenv.cxy` `DotEnv.load`, the
loop. -/
def loadRound (p : Platform) (s : Vars × Slice × Int8) :
    Option ((Vars × Option Bytes) ⊕ Vars × Slice × Int8) :=
  let (vars, str, lineNum) := s
  if str.bytes = [] then some (.inl (vars, none))
  else do
    let lineLen := (str.bytes.takeWhile (· != ch '\n')).length
    let line ← str.substr 0 lineLen
    match ← parseNonEmpty p vars line lineNum with
    | .error msg => some (.inl (vars, some msg))
    | .ok vars => do
        let rest ← str.substrFrom lineLen
        let rest ← skipNewline rest
        some (.inr (vars, rest, lineNum + 1))

/-- The variables, and the message of the error that ended it. Source: `dotenv.cxy`
`DotEnv.load`. -/
def load (p : Platform) (vars : Vars) (str : Slice) : Option (Vars × Option Bytes) :=
  loop (loadRound p) (str.bytes.length + 1) (vars, str, 1)

/-! ## What a file means -/

/-- A value, the quote it starts with, and what is left without the quotes. -/
inductive Unquotes : Bytes → Option UInt8 → Bytes → Prop
  | bare {value : Bytes} : (∀ q ∈ value.head?, isQuote q = false) → Unquotes value none value
  | closed {q : UInt8} {inner : Bytes} : isQuote q → Unquotes (q :: inner ++ [q]) (some q) inner
  | unclosed {q : UInt8} {inner : Bytes} :
      isQuote q → inner.getLast? ≠ some q → Unquotes (q :: inner) (some q) inner

/-- Without the white space at both ends. -/
def trimmed (s : Bytes) : Bytes := (s.dropWhile isSpace).rdropWhile isSpace

/-- A line without a binding: it is blank or a comment. -/
def IsSkipped (line : Bytes) : Prop := ∀ c ∈ (line.dropWhile isBlank).head?, c = ch '#'

/-- **What a line binds.** -/
inductive LineMeans (p : Platform) (vars : Vars) : Bytes → Vars → Prop
  | skipped {line : Bytes} : IsSkipped line → LineMeans p vars line vars
  | literal {line key value inner : Bytes} : ¬ IsSkipped line →
      line.dropWhile isBlank = key ++ ch '=' :: value → ch '=' ∉ key →
      Unquotes (trimmed value) (some (ch '\'')) inner →
      LineMeans p vars line (Function.update vars (trimmed key) (some inner))
  | expanded {line key value inner out : Bytes} {quoteChar : Option UInt8} {pieces : List Piece} :
      ¬ IsSkipped line → line.dropWhile isBlank = key ++ ch '=' :: value → ch '=' ∉ key →
      Unquotes (trimmed value) quoteChar inner → quoteChar ≠ some (ch '\'') →
      Reads inner pieces → Renders p vars pieces out →
      LineMeans p vars line (Function.update vars (trimmed key) (some out))

/-- **What the lines bind one after the other**, up to the first one that has no `=`. -/
inductive Loads (p : Platform) : Vars → List Bytes → Vars → Option Bytes → Prop
  | nil {vars : Vars} : Loads p vars [] vars none
  | line {vars vars' vars'' : Vars} {line : Bytes} {lines : List Bytes} {err : Option Bytes} :
      LineMeans p vars line vars' → Loads p vars' lines vars'' err →
        Loads p vars (line :: lines) vars'' err
  | missing {vars : Vars} {line : Bytes} {lines : List Bytes} {lineNum : Int8} :
      ¬ IsSkipped line → ch '=' ∉ line → Loads p vars (line :: lines) vars
        (some (missingEqual lineNum))

/-! ## The parts of a line -/

theorem Slice.substr_middle (a b c m : Bytes) :
    Slice.substr ⟨a ++ (b ++ c), m⟩ a.length b.length = some ⟨b, c ++ m⟩ := by
  unfold Slice.substr
  rw [if_pos ⟨by simp, by simp⟩]
  simp

theorem findIdx_equal {a b : Bytes} (h : ch '=' ∉ a) :
    (a ++ ch '=' :: b).findIdx? (· == ch '=') = some a.length := by
  induction a with
  | nil => rfl
  | cons c a ih =>
      rw [List.mem_cons, not_or] at h
      have hc : (c == ch '=') = false := beq_eq_false_iff_ne.mpr (Ne.symm h.1)
      rw [List.cons_append, List.findIdx?_cons, hc, if_neg Bool.false_ne_true, ih h.2]
      rfl

theorem equal_not_blank {s : Bytes} : ch '=' ∉ s.takeWhile isBlank := fun h =>
  absurd (List.mem_takeWhile_imp h) (by decide)

theorem unquote_spec (value : Slice) : ∃ q inner, unquote value = some (q, inner) ∧
    Unquotes value.bytes q inner.bytes := by
  obtain ⟨bytes, behind⟩ := value
  unfold unquote
  rcases bytes with _ | ⟨c, inner⟩
  · refine ⟨_, _, rfl, Unquotes.bare ?_⟩
    rintro q ⟨⟩
  · dsimp only [List.head?_cons]
    by_cases hc : isQuote c = true
    · have hfrom := Slice.substrFrom_append [c] inner behind
      rw [List.singleton_append, List.length_singleton] at hfrom
      rw [if_pos hc, hfrom, Option.bind_eq_bind, Option.bind_some]
      by_cases hlast : inner.getLast? = some c
      · obtain ⟨front, rfl⟩ := List.getLast?_eq_some_iff.mp hlast
        have hsubstr := Slice.substr_append front [c] behind
        have hlen : (front ++ [c]).length - 1 = front.length := by simp
        rw [if_pos hlast, hlen, hsubstr, Option.bind_some]
        exact ⟨_, _, rfl, Unquotes.closed hc⟩
      · rw [if_neg hlast]
        exact ⟨_, _, rfl, Unquotes.unclosed hc hlast⟩
    · rw [if_neg hc]
      refine ⟨_, _, rfl, Unquotes.bare ?_⟩
      rintro q ⟨⟩
      exact Bool.eq_false_iff.mpr hc

theorem Unquotes.isInfix {value inner : Bytes} {q : Option UInt8} (h : Unquotes value q inner) :
    inner <:+: value := by
  cases h with
  | bare _ => exact List.infix_refl _
  | @closed q inner _ => exact ⟨[q], [q], rfl⟩
  | unclosed _ _ => exact (List.suffix_cons _ _).isInfix

theorem trimmed_isInfix (s : Bytes) : trimmed s <:+: s :=
  (List.rdropWhile_prefix _ _).isInfix.trans (List.dropWhile_suffix _).isInfix

/-- The test of the source for a line that is skipped. Kind: L -/
theorem isSkipped_iff (s : Bytes) : IsSkipped s ↔
    ((s.takeWhile isBlank).length ≥ s.length ∨
      s[(s.takeWhile isBlank).length]? = some (ch '#')) := by
  have hsplit := List.takeWhile_append_dropWhile (p := isBlank) (l := s)
  have hget : s[(s.takeWhile isBlank).length]? = (s.dropWhile isBlank).head? := by
    calc s[(s.takeWhile isBlank).length]?
        = (s.takeWhile isBlank ++ s.dropWhile isBlank)[(s.takeWhile isBlank).length]? := by
          rw [hsplit]
      _ = (s.dropWhile isBlank).head? := by
          rw [List.getElem?_append_right (le_refl _), Nat.sub_self, List.head?_eq_getElem?]
  rw [hget]
  unfold IsSkipped
  rcases hbody : s.dropWhile isBlank with _ | ⟨c, body⟩
  · refine iff_of_true (fun c hc => by cases hc) (Or.inl ?_)
    rw [hbody, List.append_nil] at hsplit
    rw [hsplit]
  · have hlen := congrArg List.length hsplit
    rw [hbody, List.length_append, List.length_cons] at hlen
    constructor
    · intro h
      exact Or.inr (congrArg some (h c rfl))
    · rintro (hge | hc) d ⟨⟩
      · omega
      · exact Option.some.inj hc

/-! ## A line and all of them -/

variable (p : Platform)

/-- **What a line does.** Kind: L -/
theorem parseLine_spec (vars : Vars) (line : Slice) (lineNum : Int8) (hz : 0 ∉ line.bytes)
    (hempty : ¬ text "$\x7b\x7d" <:+: line.bytes) :
    (∃ vars', parseLine p vars line lineNum = some (.ok vars') ∧
      LineMeans p vars line.bytes vars') ∨
      parseLine p vars line lineNum = some (.error (missingEqual lineNum)) ∧
        ¬ IsSkipped line.bytes ∧
        ch '=' ∉ line.bytes := by
  obtain ⟨line, behind⟩ := line
  have hsplit := List.takeWhile_append_dropWhile (p := isBlank) (l := line)
  dsimp only at hz hempty ⊢
  by_cases hskip : IsSkipped line
  · refine Or.inl ⟨vars, ?_, LineMeans.skipped hskip⟩
    unfold parseLine
    exact if_pos ((isSkipped_iff line).mp hskip)
  · have hif := fun h => hskip ((isSkipped_iff line).mpr h)
    by_cases hequal : ch '=' ∈ line
    · left
      have hbody : ch '=' ∈ line.dropWhile isBlank := by
        rw [← hsplit, List.mem_append] at hequal
        exact hequal.resolve_left equal_not_blank
      obtain ⟨key, value, hkv, hkey⟩ := List.eq_append_cons_of_mem hbody
      rw [hkv] at hsplit
      have hfind : line.findIdx? (· == ch '=') = some
        ((line.takeWhile isBlank).length + key.length) := by
        rw [← List.length_append]
        conv_lhs => rw [← hsplit, ← List.append_assoc]
        apply findIdx_equal
        rw [List.mem_append, not_or]
        exact ⟨equal_not_blank, hkey⟩
      have hsubstr := Slice.substr_middle (line.takeWhile isBlank) key (ch '=' :: value) behind
      have hfrom := Slice.substrFrom_append (line.takeWhile isBlank ++ key ++ [ch '=']) value behind
      rw [hsplit] at hsubstr
      rw [List.append_assoc, List.singleton_append, List.append_assoc, hsplit, List.length_append,
        List.length_append, List.length_singleton] at hfrom
      obtain ⟨quoteChar, inner, hunquote, hquotes⟩ := unquote_spec (Slice.trim ⟨value, behind⟩)
      have hinner : inner.bytes <:+: line := by
        refine hquotes.isInfix.trans ((trimmed_isInfix value).trans ?_)
        exact ⟨line.takeWhile isBlank ++ key ++ [ch '='], [], by simp [hsplit]⟩
      unfold parseLine
      dsimp only
      rw [if_neg hif, hfind]
      simp only [Nat.add_sub_cancel_left, hsubstr, hfrom, hunquote,
        Option.bind_eq_bind, Option.bind_some]
      by_cases hq : quoteChar = some (ch '\'')
      · rw [if_pos hq]
        subst hq
        exact ⟨_, rfl, LineMeans.literal hskip hkv hkey hquotes⟩
      · obtain ⟨pieces, out, hreads, hout, hexpand⟩ := expandVariables_spec p vars inner
          (fun h => hz (hinner.subset h)) (fun h => hempty (h.trans hinner))
        rw [if_neg hq, hexpand]
        exact ⟨_, rfl, LineMeans.expanded hskip hkv hkey hquotes hq hreads hout⟩
    · right
      have hfind : line.findIdx? (· == ch '=') = none := by
        rw [List.findIdx?_eq_none_iff]
        intro c hc
        rw [beq_eq_false_iff_ne]
        rintro rfl
        exact hequal hc
      refine ⟨?_, hskip, hequal⟩
      unfold parseLine
      dsimp only
      rw [if_neg hif, hfind]

theorem parseNonEmpty_spec (vars : Vars) (line : Slice) (lineNum : Int8) (hz : 0 ∉ line.bytes)
    (hempty : ¬ text "$\x7b\x7d" <:+: line.bytes) :
    (∃ vars', parseNonEmpty p vars line lineNum = some (.ok vars') ∧
      LineMeans p vars line.bytes vars') ∨
      parseNonEmpty p vars line lineNum = some (.error (missingEqual lineNum)) ∧
        ¬ IsSkipped line.bytes ∧
        ch '=' ∉ line.bytes := by
  unfold parseNonEmpty
  by_cases hpos : line.bytes.length > 0
  · rw [if_pos hpos]
    exact parseLine_spec p vars line lineNum hz hempty
  · rw [if_neg hpos]
    refine Or.inl ⟨vars, rfl, LineMeans.skipped ?_⟩
    rw [List.eq_nil_of_length_eq_zero (Nat.eq_zero_of_not_pos hpos)]
    rintro c ⟨⟩

/-- What a round does with the first line of the text. Kind: L -/
theorem loadRound_spec (vars : Vars) {line tail rest : Bytes} (behind : Bytes) (lineNum : Int8)
    (hne : line ++ tail ≠ []) (hline : ch '\n' ∉ line)
      (htail : tail = [] ∧ rest = [] ∨ tail = ch '\n' :: rest)
    (hz : 0 ∉ line) (hempty : ¬ text "$\x7b\x7d" <:+: line) :
    (∃ vars', loadRound p (vars, ⟨line ++ tail, behind⟩, lineNum) =
      some (.inr (vars', ⟨rest, behind⟩, lineNum + 1)) ∧ LineMeans p vars line vars') ∨
      loadRound p (vars, ⟨line ++ tail, behind⟩, lineNum) = some
        (.inl (vars, some (missingEqual lineNum))) ∧
        ¬ IsSkipped line ∧ ch '=' ∉ line := by
  have htake : (line ++ tail).takeWhile (· != ch '\n') = line := by
    have hall : ∀ c ∈ line, (c != ch '\n') = true := by
      intro c hc
      rw [bne_iff_ne]
      rintro rfl
      exact hline hc
    rw [List.takeWhile_append_of_pos hall]
    rcases htail with ⟨rfl, -⟩ | rfl
    · rw [List.takeWhile_nil, List.append_nil]
    · rw [List.takeWhile_cons_of_neg (by decide), List.append_nil]
  have hrest : skipNewline ⟨tail, behind⟩ = some ⟨rest, behind⟩ := by
    rcases htail with ⟨rfl, rfl⟩ | rfl
    · rfl
    · exact Slice.substrFrom_append [ch '\n'] rest behind
  have hsubstr := Slice.substr_append line tail behind
  have hfrom := Slice.substrFrom_append line tail behind
  unfold loadRound
  dsimp only
  rw [if_neg hne, htake, hsubstr, Option.bind_eq_bind, Option.bind_some]
  obtain ⟨vars', hparse, hmeans⟩ | ⟨hparse, hmissing⟩ :=
    parseNonEmpty_spec p vars ⟨line, tail ++ behind⟩ lineNum hz hempty
  · refine Or.inl ⟨vars', ?_, hmeans⟩
    rw [hparse]
    simp only [Option.bind_eq_bind, Option.bind_some, hfrom, hrest]
  · refine Or.inr ⟨?_, hmissing⟩
    rw [hparse]
    rfl

/-- **The loop reads the text line by line.** Kind: L -/
theorem load_loop (behind : Bytes) : ∀ (n : ℕ) (vars : Vars) (s : Bytes)
    (lineNum : Int8), s.length < n →
    0 ∉ s → ¬ text "$\x7b\x7d" <:+: s → ∃ vars' err,
      loop (loadRound p) n (vars, ⟨s, behind⟩, lineNum) = some (vars', err) ∧
        Loads p vars (s.splitOn (ch '\n')) vars' err := by
  intro n
  induction n with
  | zero => intro vars s lineNum h _ _; exact absurd h (Nat.not_lt_zero _)
  | succ n ih =>
      intro vars s lineNum hlen hz hempty
      by_cases hs : s = []
      · subst hs
        exact ⟨vars, none, rfl, Loads.line (LineMeans.skipped (fun c hc => by cases hc)) Loads.nil⟩
      · obtain ⟨line, tail, rest, rfl, hline, htail⟩ : ∃ line tail rest, s = line ++ tail ∧
            ch '\n' ∉ line ∧ (tail = [] ∧ rest = [] ∨ tail = ch '\n' :: rest) := by
          by_cases hmem : ch '\n' ∈ s
          · obtain ⟨line, rest, hsplit, hline⟩ := List.eq_append_cons_of_mem hmem
            exact ⟨line, _, rest, hsplit, hline, Or.inr rfl⟩
          · exact ⟨s, [], [], (List.append_nil s).symm, hmem, Or.inl ⟨rfl, rfl⟩⟩
        have hround := loadRound_spec p vars behind lineNum hs hline htail
          (fun h => hz (List.mem_append_left _ h))
          (fun h => hempty (h.trans (List.prefix_append _ _).isInfix))
        have hsplit : (line ++ tail).splitOn (ch '\n') =
            line :: if tail = [] then [] else rest.splitOn (ch '\n') := by
          rcases htail with ⟨rfl, -⟩ | rfl
          · rw [List.append_nil, List.splitOn_eq_singleton hline, if_pos rfl]
          · rw [List.splitOn_append_cons_self_of_not_mem hline, if_neg (List.cons_ne_nil _ _)]
        rw [hsplit]
        unfold loop
        obtain ⟨vars', hround, hmeans⟩ | ⟨hround, hskip, hequal⟩ := hround
        · rw [hround]
          dsimp only
          rcases htail with ⟨rfl, rfl⟩ | rfl
          · rcases n with _ | n
            · rw [List.append_nil] at hlen hs
              exact absurd (List.eq_nil_of_length_eq_zero (Nat.lt_one_iff.mp hlen)) hs
            · exact ⟨vars', none, rfl, Loads.line hmeans Loads.nil⟩
          · rw [List.length_append, List.length_cons] at hlen
            have hsuffix : rest <:+ line ++ ch '\n' :: rest :=
              (List.suffix_cons _ _).trans (List.suffix_append _ _)
            obtain ⟨vars'', err, hloop, hloads⟩ := ih vars' rest (lineNum + 1) (by omega)
              (fun h => hz (hsuffix.subset h)) (fun h => hempty (h.trans hsuffix.isInfix))
            rw [if_neg (List.cons_ne_nil _ _)]
            exact ⟨vars'', err, hloop, Loads.line hmeans hloads⟩
        · rw [hround]
          exact ⟨vars, _, rfl, Loads.missing hskip hequal⟩

/-- **A file means what its lines mean.** Kind: P -/
theorem load_spec (vars : Vars) (str : Slice) (hz : 0 ∉ str.bytes)
    (hempty : ¬ text "$\x7b\x7d" <:+: str.bytes) : ∃ vars' err,
      load p vars str = some (vars', err) ∧
      Loads p vars (str.bytes.splitOn (ch '\n')) vars' err :=
  load_loop p str.behind _ vars str.bytes 1 (Nat.lt_succ_self _) hz hempty

/-- **The variables of a text are replaced, and a file binds the values it has with their variables
replaced**, but for the values in single quotes. Kind: P -/
theorem expands_and_loads (vars : Vars) :
    (∀ value : Slice, 0 ∉ value.bytes → ¬ text "$\x7b\x7d" <:+: value.bytes → ∃ pieces out,
      (∀ pieces', Reads value.bytes pieces' ↔ pieces' = pieces) ∧ Renders p vars pieces out ∧
        expandVariables p vars value = some out) ∧
    (∀ str : Slice, 0 ∉ str.bytes → ¬ text "$\x7b\x7d" <:+: str.bytes → ∃ vars' err,
      load p vars str = some (vars', err) ∧
        Loads p vars (str.bytes.splitOn (ch '\n')) vars' err) := by
  constructor
  · intro value hz hempty
    obtain ⟨pieces, out, hreads, hout, hexpand⟩ := expandVariables_spec p vars value hz hempty
    refine ⟨pieces, out, fun pieces' => ⟨fun h => reads_unique h hreads, ?_⟩, hout, hexpand⟩
    rintro rfl
    exact hreads
  · intro str hz hempty
    exact load_spec p vars str hz hempty

/-- `A=b` and `C='${A}'`: the value of `C` is not expanded. Kind: L -/
theorem single_quoted_not_expanded :
    let p : Platform := { signed := true, getenv := fun _ => none }
    let str : Slice := ⟨text "A=b\nC='$\x7bA\x7d'", []⟩
    (load p (fun _ => none) str).map (fun r => (r.1 (text "A"), r.1 (text "C"), r.2)) =
        some (some (text "b"), some (text "$\x7bA\x7d"), none) ∧
      expandVariables p (Function.update (fun _ => none) (text "A") (some (text "b")))
        ⟨text "$\x7bA\x7d", text "'"⟩ = some (text "b") := by
  decide

/-- A text that the theorem is about. Kind: L -/
theorem expands_and_loads_default :
    let p : Platform := { signed := true, getenv := fun _ => none }
    ∃ pieces out, (∀ pieces', Reads (text "$\x7bP:-3\x7d") pieces' ↔ pieces' = pieces) ∧
      Renders p (fun _ => none) pieces out ∧
      expandVariables p (fun _ => none) ⟨text "$\x7bP:-3\x7d", []⟩ = some out :=
  (expands_and_loads { signed := true, getenv := fun _ => none } (fun _ => none)).1
    ⟨text "$\x7bP:-3\x7d", []⟩ (by decide) (by decide)

end CxyCompiler.Stdlib.DotEnv
