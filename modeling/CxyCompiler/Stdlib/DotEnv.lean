import CxyCompiler.Lib.Loop
import CxyCompiler.Runtime.String
import CxyCompiler.Stdlib.Value

/-!
# Variables in the values of an environment file (`stdlib/dotenv.cxy`)

A `__string` is a slice of memory: its own bytes, and behind them what is in the memory up to the
NUL that ends it. A pointer to it is read as a C string, which goes on behind the slice.

* `findEnd`, `expandRound`, `expandVariables`, `lookupVariable` — the expansion. A lookup of the
  null pointer in the environment is not defined.
* `Piece`, `Reads` — what a text is made of: `${NAME}`, `${NAME:-default}`, and single characters.
* `reads_unique` — **a text is read in one way**.
* `Renders` — what the pieces stand for. The name of a variable with a default is promised only
  where it has no value, and a character only where it is of ASCII.
* `expandVariables_spec` — **the expansion ends and gives what the pieces of the text stand for**.
-/

namespace CxyCompiler.Stdlib.DotEnv

open CxyCompiler.Lib.Loop

/-! ## Slices -/

/-- Source: `builtins.cxy` `__string`. -/
structure Slice where
  bytes : Bytes
  behind : Bytes
  deriving DecidableEq

namespace Slice

/-- A failed assertion has no result. Source: `builtins.cxy` `__string.substr`. -/
def substr (s : Slice) (start count : ℕ) : Option Slice :=
  if start ≤ s.bytes.length ∧ count ≤ s.bytes.length - start then
    some { bytes := (s.bytes.drop start).take count
           behind := s.bytes.drop (start + count) ++ s.behind }
  else none

/-- The slice behind `start`. Source: `builtins.cxy` `__string.substr`. -/
def substrFrom (s : Slice) (start : ℕ) : Option Slice := s.substr start (s.bytes.length - start)

/-- Source: `builtins.cxy` `__string.str`, `__string.init` of a C string. -/
def cstr (s : Slice) : Bytes := (s.bytes ++ s.behind).takeWhile (· != 0)

/-- Source: `builtins.cxy` `__string.trimLeft`. -/
def trimLeft (s : Slice) : Slice := { s with bytes := s.bytes.dropWhile Runtime.String.isSpace }

/-- Source: `builtins.cxy` `__string.trimRight`. -/
def trimRight (s : Slice) : Slice :=
  { bytes := s.bytes.rdropWhile Runtime.String.isSpace
    behind := s.bytes.rtakeWhile Runtime.String.isSpace ++ s.behind }

/-- Source: `builtins.cxy` `__string.trim`. -/
def trim (s : Slice) : Slice := s.trimLeft.trimRight

end Slice

/-! ## The expansion -/

/-- The variables that have been read. Source: `dotenv.cxy` `DotEnv.vars`. -/
abbrev Vars := Bytes → Option Bytes

/-- What the process runs in: the signedness of a `char` and the variables of the environment, which
are looked up by a C string. -/
structure Platform where
  signed : Bool
  getenv : Bytes → Option Bytes

/-- Source: `dotenv.cxy` `DotEnv._lookupVariable`. -/
def lookupVariable (p : Platform) (vars : Vars) (name : Bytes) : Option Bytes :=
  match vars name with
  | some value => some value
  | none =>
      -- the data of an empty `String` is null
      if name = [] then none else some ((p.getenv (name.takeWhile (· != 0))).getD [])

/-- How many characters are in front of the end of a name, and whether the end is `:-`.
Source: `dotenv.cxy` `DotEnv._expandVariables`, the first inner loop. -/
def findEnd : Bytes → ℕ × Bool
  | [] => (0, false)
  | c :: rest =>
      if c = ch '\x7d' then (0, false)
      else if c = ch ':' ∧ rest.head? = some (ch '-') then (0, true)
      else ((findEnd rest).1 + 1, (findEnd rest).2)

/-- The text starts with `${`. -/
def opens (s : Bytes) : Bool := s[0]? == some (ch '$') && s[1]? == some (ch '\x7b')

/-- What a round does behind `${`, where `start` is; `next` is behind the first character.
Source: `dotenv.cxy` `DotEnv._expandVariables`, the branch of `${`. -/
def expandOpen (p : Platform) (vars : Vars) (next start : Slice) (result : Bytes) :
    Option (Bytes ⊕ Slice × Bytes) :=
  let (nameLen, hasDefault) := findEnd start.bytes
  if hasDefault then do
    let defaultStart ← start.substrFrom (nameLen + 2)
    let defaultLen := (defaultStart.bytes.takeWhile (· != ch '\x7d')).length
    if defaultLen ≥ defaultStart.bytes.length then
      -- malformed: the `$` is copied
      some (.inr (next, result ++ [ch '$']))
    else
      let varNameStr ← start.substr 0 nameLen
      let defaultStr ← defaultStart.substr 0 defaultLen
      let varValue ← lookupVariable p vars varNameStr.cstr
      let rest ← defaultStart.substrFrom (defaultLen + 1)
      some (.inr (rest, result ++ if varValue ≠ [] then varValue else defaultStr.bytes))
  else if nameLen ≥ start.bytes.length then
    some (.inr (next, result ++ [ch '$']))
  else do
    let varNameStr ← start.substr 0 nameLen
    let varValue ← lookupVariable p vars varNameStr.bytes
    let rest ← start.substrFrom (nameLen + 1)
    some (.inr (rest, result ++ if varValue ≠ [] then varValue else []))

/-- A round of the loop: `value` is what has not been read, and `result` is what has been written.
Source: `dotenv.cxy` `DotEnv._expandVariables`, the outer loop. -/
def expandRound (p : Platform) (vars : Vars) (s : Slice × Bytes) : Option (Bytes ⊕ Slice × Bytes) :=
  let (value, result) := s
  match value.bytes with
  | [] => some (.inl result)
  | c :: _ => do
      let next ← value.substrFrom 1
      if opens value.bytes then
        let start ← value.substrFrom 2
        expandOpen p vars next start result
      else some (.inr (next, result ++ putChar p.signed c))

/-- Each round reads a character. Source: `dotenv.cxy` `DotEnv._expandVariables`. -/
def expandVariables (p : Platform) (vars : Vars) (value : Slice) : Option Bytes :=
  loop (expandRound p vars) (value.bytes.length + 1) (value, [])

/-! ## What a text is made of -/

inductive Piece where
  | char (c : UInt8)
  | plain (name : Bytes)
  | dflt (name default : Bytes)
  deriving DecidableEq

/-- The text of a piece. -/
def Piece.source : Piece → Bytes
  | .char c => [c]
  | .plain name => text "$\x7b" ++ name ++ text "\x7d"
  | .dflt name default => text "$\x7b" ++ name ++ text ":-" ++ default ++ text "\x7d"

/-- A name ends at the first `}` or `:-`. -/
def IsName (name : Bytes) : Prop := ch '\x7d' ∉ name ∧ ¬ text ":-" <:+: name

/-- The piece is a variable. -/
def Piece.IsVariable : Piece → Prop
  | .char _ => False
  | .plain name => IsName name
  | .dflt name default => IsName name ∧ ch '\x7d' ∉ default

/-- **The pieces of a text**: a variable wherever there is one, and else a character. -/
inductive Reads : Bytes → List Piece → Prop
  | nil : Reads [] []
  | var {piece : Piece} {rest : Bytes} {pieces : List Piece} :
      piece.IsVariable → Reads rest pieces → Reads (piece.source ++ rest) (piece :: pieces)
  | char {c : UInt8} {rest : Bytes} {pieces : List Piece} :
      (∀ piece : Piece, piece.IsVariable → ¬ piece.source <+: c :: rest) → Reads rest pieces →
      Reads (c :: rest) (.char c :: pieces)

/-- The value of a variable, which is empty where it has none. -/
def valueOf (p : Platform) (vars : Vars) (name : Bytes) : Bytes :=
  (lookupVariable p vars name).getD []

/-- What a piece stands for. -/
def Piece.Renders (p : Platform) (vars : Vars) : Piece → Bytes → Prop
  | .char c, out => isAscii c → out = [c]
  | .plain name, out => out = valueOf p vars name
  | .dflt name default, out =>
      valueOf p vars name = [] →
        (∀ longer, name ++ text ":-" <+: longer → valueOf p vars longer = []) → out = default

/-- What the pieces stand for, one after the other. -/
def Renders (p : Platform) (vars : Vars) (pieces : List Piece) (out : Bytes) : Prop :=
  ∃ outs, List.Forall₂ (Piece.Renders p vars) pieces outs ∧ out = outs.flatten

/-! ## Where a name ends -/

theorem isName_cons {c : UInt8} {name : Bytes} (hc : c ≠ ch '\x7d')
    (hdash : ¬ (c = ch ':' ∧ name.head? = some (ch '-')))
      (h : IsName name) : IsName (c :: name) := by
  constructor
  · rw [List.mem_cons, not_or]
    exact ⟨hc.symm, h.1⟩
  · rw [List.infix_cons_iff, not_or]
    refine ⟨?_, h.2⟩
    rintro ⟨rest, hrest⟩
    obtain ⟨rfl, rfl⟩ : c = ch ':' ∧ name = ch '-' :: rest := by
      have hcons : ch ':' :: ch '-' :: rest = c :: name := hrest
      exact ⟨(List.cons.inj hcons).1.symm, (List.cons.inj hcons).2.symm⟩
    exact hdash ⟨rfl, rfl⟩

theorem isName_of_cons {c : UInt8} {name : Bytes} (h : IsName (c :: name)) : IsName name :=
  ⟨fun hmem => h.1 (List.mem_cons_of_mem _ hmem),
    fun hinfix => h.2 (List.infix_cons_iff.mpr (Or.inr hinfix))⟩

/-- A name goes on where a `:` is not followed by a `-`, also at its own end. Kind: L -/
theorem findEnd_cons {c : UInt8} {name rest : Bytes} (h : IsName (c :: name))
    (hdash : name = [] → c = ch ':' → rest.head? ≠ some (ch '-')) :
    findEnd (c :: (name ++ rest)) = ((findEnd (name ++ rest)).1 + 1,
      (findEnd (name ++ rest)).2) := by
  have hc : c ≠ ch '\x7d' := fun heq => h.1 (heq ▸ List.mem_cons_self)
  have hdash' : ¬ (c = ch ':' ∧ (name ++ rest).head? = some (ch '-')) := by
    rintro ⟨rfl, hhead⟩
    rcases name with _ | ⟨d, name⟩
    · exact hdash rfl rfl hhead
    · obtain rfl : d = ch '-' := Option.some.inj hhead
      exact h.2 ⟨[], name, rfl⟩
  rw [findEnd, if_neg hc, if_neg hdash']

theorem findEnd_close {name rest : Bytes} (h : IsName name) :
    findEnd (name ++ ch '\x7d' :: rest) = (name.length, false) := by
  induction name with
  | nil => rfl
  | cons c name ih =>
      have hdash : name = [] → c = ch ':' → (ch '\x7d' :: rest).head? ≠ some (ch '-') :=
        fun _ _ h => absurd (Option.some.inj h) (by decide)
      rw [List.cons_append, findEnd_cons h hdash, ih (isName_of_cons h)]
      rfl

theorem findEnd_default {name rest : Bytes} (h : IsName name) :
    findEnd (name ++ (text ":-" ++ rest)) = (name.length, true) := by
  induction name with
  | nil => rfl
  | cons c name ih =>
      have hdash : name = [] → c = ch ':' → (text ":-" ++ rest).head? ≠ some (ch '-') :=
        fun _ _ h => absurd (Option.some.inj h) (by decide)
      rw [List.cons_append, findEnd_cons h hdash, ih (isName_of_cons h)]
      rfl

/-- **A name ends at a brace, at `:-` or with the text.** Kind: L -/
theorem findEnd_spec (s : Bytes) : ∃ name rest, IsName name ∧ (findEnd s).1 = name.length ∧
    ((findEnd s).2 = true ∧ s = name ++ (text ":-" ++ rest) ∨
      (findEnd s).2 = false ∧ (s = name ++ ch '\x7d' :: rest ∨ s = name)) := by
  induction s with
  | nil => exact ⟨[], [], ⟨by decide, by decide⟩, rfl, Or.inr ⟨rfl, Or.inr rfl⟩⟩
  | cons c s ih =>
      have hempty : IsName [] := ⟨by decide, by decide⟩
      rw [findEnd]
      by_cases hc : c = ch '\x7d'
      · rw [if_pos hc, hc]
        exact ⟨[], s, hempty, rfl, Or.inr ⟨rfl, Or.inl rfl⟩⟩
      · rw [if_neg hc]
        by_cases hdash : c = ch ':' ∧ s.head? = some (ch '-')
        · rw [if_pos hdash, hdash.1]
          obtain ⟨rest, rfl⟩ := List.head?_eq_some_iff.mp hdash.2
          exact ⟨[], rest, hempty, rfl, Or.inl ⟨rfl, rfl⟩⟩
        · rw [if_neg hdash]
          obtain ⟨name, rest, hname, hlen, hend⟩ := ih
          have hhead : name.head? = some (ch '-') → s.head? = some (ch '-') := by
            intro h
            obtain ⟨tail, rfl⟩ := List.head?_eq_some_iff.mp h
            rcases hend with ⟨-, rfl⟩ | ⟨-, rfl | rfl⟩ <;> rfl
          refine ⟨c :: name, rest, isName_cons hc (fun h => hdash ⟨h.1, hhead h.2⟩) hname, ?_, ?_⟩
          · rw [hlen, List.length_cons]
          · rcases hend with ⟨hd, rfl⟩ | ⟨hd, rfl | rfl⟩
            · exact Or.inl ⟨hd, rfl⟩
            · exact Or.inr ⟨hd, Or.inl rfl⟩
            · exact Or.inr ⟨hd, Or.inr rfl⟩

/-! ## A text is read in one way -/

theorem takeWhile_close {default rest : Bytes} (h : ch '\x7d' ∉ default) :
    (default ++ ch '\x7d' :: rest).takeWhile (· != ch '\x7d') = default := by
  have hall : ∀ c ∈ default, (c != ch '\x7d') = true := by
    intro c hc
    rw [bne_iff_ne]
    rintro rfl
    exact h hc
  rw [List.takeWhile_append_of_pos hall, List.takeWhile_cons_of_neg (by decide), List.append_nil]

theorem source_plain (name rest : Bytes) :
    (Piece.plain name).source ++ rest = ch '$' :: ch '\x7b' :: (name ++ ch '\x7d' :: rest) := by
  unfold Piece.source
  rw [List.append_assoc, List.append_assoc]
  rfl

theorem source_dflt (name default rest : Bytes) :
    (Piece.dflt name default).source ++ rest =
      ch '$' :: ch '\x7b' :: (name ++ (text ":-" ++ (default ++ ch '\x7d' :: rest))) := by
  unfold Piece.source
  simp only [List.append_assoc]
  rfl

theorem source_ne_nil {piece : Piece} (h : piece.IsVariable)
    (rest : Bytes) : piece.source ++ rest ≠ [] := by
  rcases piece with _ | name | ⟨name, default⟩
  · exact absurd h id
  · rw [source_plain]
    exact List.cons_ne_nil _ _
  · rw [source_dflt]
    exact List.cons_ne_nil _ _

/-- What is behind the opening brace determines the variable. Kind: L -/
theorem variable_unique {piece piece' : Piece} {rest rest' : Bytes} (h : piece.IsVariable)
    (h' : piece'.IsVariable) (heq : piece.source ++ rest = piece'.source ++ rest') :
    piece = piece' ∧ rest = rest' := by
  rcases piece with _ | name | ⟨name, default⟩
  · exact absurd h id
  · rcases piece' with _ | name' | ⟨name', default'⟩
    · exact absurd h' id
    · rw [source_plain, source_plain, List.cons.injEq, List.cons.injEq] at heq
      have hend := congrArg findEnd heq.2.2
      rw [findEnd_close h, findEnd_close h', Prod.mk.injEq] at hend
      obtain ⟨rfl, hrest⟩ := List.append_inj heq.2.2 hend.1
      exact ⟨rfl, (List.cons.inj hrest).2⟩
    · rw [source_plain, source_dflt, List.cons.injEq, List.cons.injEq] at heq
      have hend := congrArg findEnd heq.2.2
      rw [findEnd_close h, findEnd_default h'.1, Prod.mk.injEq] at hend
      exact absurd hend.2 (by decide)
  · rcases piece' with _ | name' | ⟨name', default'⟩
    · exact absurd h' id
    · rw [source_plain, source_dflt, List.cons.injEq, List.cons.injEq] at heq
      have hend := congrArg findEnd heq.2.2
      rw [findEnd_close h', findEnd_default h.1, Prod.mk.injEq] at hend
      exact absurd hend.2 (by decide)
    · rw [source_dflt, source_dflt, List.cons.injEq, List.cons.injEq] at heq
      have hend := congrArg findEnd heq.2.2
      rw [findEnd_default h.1, findEnd_default h'.1, Prod.mk.injEq] at hend
      obtain ⟨rfl, htail⟩ := List.append_inj heq.2.2 hend.1
      rw [List.append_cancel_left_eq] at htail
      have hdflt := congrArg (List.takeWhile (· != ch '\x7d')) htail
      rw [takeWhile_close h.2, takeWhile_close h'.2] at hdflt
      subst hdflt
      rw [List.append_cancel_left_eq, List.cons.injEq] at htail
      exact ⟨rfl, htail.2⟩

/-- **A text is read in one way.** Kind: P -/
theorem reads_unique {s : Bytes} {pieces pieces' : List Piece} (h : Reads s pieces)
    (h' : Reads s pieces') : pieces = pieces' := by
  induction h generalizing pieces' with
  | nil =>
      generalize hs : ([] : Bytes) = s at h'
      cases h' with
      | nil => rfl
      | var hpiece _ => exact absurd hs.symm (source_ne_nil hpiece _)
      | char _ _ => cases hs
  | @var piece rest pieces hpiece hrest ih =>
      generalize hs : piece.source ++ rest = s at h'
      cases h' with
      | nil => exact absurd hs (source_ne_nil hpiece _)
      | @var piece' rest' pieces' hpiece' hrest' =>
          obtain ⟨rfl, rfl⟩ := variable_unique hpiece hpiece' hs
          rw [ih hrest']
      | @char c rest' pieces' hno _ => exact absurd ⟨rest, hs⟩ (hno piece hpiece)
  | @char c rest pieces hno hrest ih =>
      generalize hs : c :: rest = s at h'
      cases h' with
      | nil => cases hs
      | @var piece rest' pieces' hpiece _ => exact absurd ⟨rest', hs.symm⟩ (hno piece hpiece)
      | @char c' rest' pieces' _ hrest' =>
          obtain ⟨rfl, rfl⟩ := List.cons.inj hs
          rw [ih hrest']

/-! ## A round of the loop -/

theorem Slice.substrFrom_append (a b m : Bytes) :
    Slice.substrFrom ⟨a ++ b, m⟩ a.length = some ⟨b, m⟩ := by
  unfold Slice.substrFrom Slice.substr
  rw [if_pos ⟨by simp, le_refl _⟩]
  simp

theorem Slice.substr_append (a b m : Bytes) :
    Slice.substr ⟨a ++ b, m⟩ 0 a.length = some ⟨a, b ++ m⟩ := by
  unfold Slice.substr
  rw [if_pos ⟨Nat.zero_le _, by simp⟩]
  simp

variable (p : Platform) (vars : Vars)

theorem lookupVariable_eq {name : Bytes} (h : name ≠ []) :
    lookupVariable p vars name = some (valueOf p vars name) := by
  unfold valueOf
  rcases hlookup : lookupVariable p vars name with _ | value
  · unfold lookupVariable at hlookup
    rcases hvars : vars name with _ | value <;> rw [hvars] at hlookup
    · dsimp only at hlookup
      rw [if_neg h] at hlookup
      cases hlookup
    · cases hlookup
  · rfl

theorem expandRound_open (body behind result : Bytes) :
    expandRound p vars (⟨ch '$' :: ch '\x7b' :: body, behind⟩, result) =
      expandOpen p vars ⟨ch '\x7b' :: body, behind⟩ ⟨body, behind⟩ result := by
  have hnext := Slice.substrFrom_append [ch '$'] (ch '\x7b' :: body) behind
  have hstart := Slice.substrFrom_append [ch '$', ch '\x7b'] body behind
  simp only [List.cons_append, List.nil_append, List.length_cons, List.length_nil, Nat.zero_add,
    Nat.reduceAdd] at hnext hstart
  have hopens : opens (ch '$' :: ch '\x7b' :: body) = true := rfl
  unfold expandRound
  dsimp only
  rw [hnext, Option.bind_eq_bind, Option.bind_some, if_pos hopens, hstart]
  rfl

theorem expandRound_plain {name : Bytes} (h : IsName name) (hne : name ≠ [])
    (rest behind result : Bytes) :
    expandRound p vars (⟨(Piece.plain name).source ++ rest, behind⟩, result) =
      some (.inr (⟨rest, behind⟩, result ++ valueOf p vars name)) := by
  have hlt : ¬ name.length ≥ (name ++ ch '\x7d' :: rest).length := by simp
  have hrest := Slice.substrFrom_append (name ++ [ch '\x7d']) rest behind
  rw [List.append_assoc, List.length_append] at hrest
  simp only [List.cons_append, List.nil_append, List.length_cons, List.length_nil,
    Nat.zero_add] at hrest
  rw [source_plain, expandRound_open]
  unfold expandOpen
  simp only [findEnd_close h, Bool.false_eq_true, if_false, if_neg hlt, Slice.substr_append,
    Option.bind_eq_bind, Option.bind_some, lookupVariable_eq p vars hne, hrest]
  by_cases hv : valueOf p vars name = []
  · rw [hv, if_neg (not_not_intro rfl)]
  · rw [if_pos hv]

/-- A variable with a default: the name that is looked up goes on behind it. Kind: L -/
theorem expandRound_dflt {name default : Bytes} (h : IsName name) (hd : ch '\x7d' ∉ default)
    (hz : 0 ∉ name)
    (rest behind result : Bytes) : ∃ longer, name ++ text ":-" <+: longer ∧
      expandRound p vars (⟨(Piece.dflt name default).source ++ rest, behind⟩, result) =
        some (.inr (⟨rest, behind⟩,
          result ++ if valueOf p vars longer ≠ [] then valueOf p vars longer else default)) := by
  have hdash := Slice.substrFrom_append (name ++ text ":-") (default ++ ch '\x7d' :: rest) behind
  have hrest := Slice.substrFrom_append (default ++ [ch '\x7d']) rest behind
  have hlt : ¬ default.length ≥ (default ++ ch '\x7d' :: rest).length := by simp
  have hlen : (text ":-").length = 2 := rfl
  rw [List.append_assoc, List.length_append] at hdash hrest
  rw [hlen] at hdash
  simp only [List.cons_append, List.nil_append, List.length_cons, List.length_nil,
    Nat.zero_add] at hrest
  have hlonger : name ++ text ":-" <+:
      Slice.cstr ⟨name, text ":-" ++ (default ++ ch '\x7d' :: rest) ++ behind⟩ := by
    unfold Slice.cstr
    have hpos : ∀ c ∈ name ++ text ":-", (c != 0) = true := by
      intro c hc
      rw [bne_iff_ne]
      rintro rfl
      rcases List.mem_append.mp hc with hc | hc
      · exact hz hc
      · exact absurd hc (by decide)
    rw [List.append_assoc, ← List.append_assoc, List.takeWhile_append_of_pos hpos]
    exact List.prefix_append _ _
  refine ⟨_, hlonger, ?_⟩
  have hne : Slice.cstr ⟨name, text ":-" ++ (default ++ ch '\x7d' :: rest) ++ behind⟩ ≠ [] := by
    intro hnil
    rw [hnil, List.prefix_nil, List.append_eq_nil_iff] at hlonger
    exact absurd hlonger.2 (by decide)
  rw [source_dflt, expandRound_open]
  unfold expandOpen
  simp only [findEnd_default h, if_true, hdash, Option.bind_eq_bind,
    Option.bind_some, takeWhile_close hd,
    if_neg hlt, Slice.substr_append, lookupVariable_eq p vars hne, hrest]

/-- A text that starts with no variable: its first character is copied. Kind: L -/
theorem expandRound_char {c : UInt8} {rest : Bytes}
    (hno : ∀ piece : Piece, piece.IsVariable → ¬ piece.source <+: c :: rest)
      (behind result : Bytes) :
    ∃ out, (Piece.char c).Renders p vars out ∧
      expandRound p vars (⟨c :: rest, behind⟩, result) = some
        (.inr (⟨rest, behind⟩, result ++ out)) := by
  by_cases hopens : opens (c :: rest) = true
  · obtain ⟨rfl, body, rfl⟩ : c = ch '$' ∧ ∃ body, rest = ch '\x7b' :: body := by
      unfold opens at hopens
      rw [Bool.and_eq_true, beq_iff_eq, beq_iff_eq] at hopens
      rcases rest with _ | ⟨d, body⟩
      · exact absurd hopens.2 (by simp)
      · exact ⟨Option.some.inj hopens.1, body, by rw [Option.some.inj hopens.2]⟩
    refine ⟨[ch '$'], fun _ => rfl, ?_⟩
    rw [expandRound_open]
    unfold expandOpen
    obtain ⟨name, tail, hname, hlen, ⟨hflag, hbody⟩ | ⟨hflag, hbody | hbody⟩⟩ := findEnd_spec body
    · have hclose : ch '\x7d' ∉ tail := by
        intro hmem
        obtain ⟨default, rest, rfl, hd⟩ := List.eq_append_cons_of_mem hmem
        refine hno (.dflt name default) ⟨hname, hd⟩ ⟨rest, ?_⟩
        rw [source_dflt, hbody]
      have htail : tail.takeWhile (· != ch '\x7d') = tail := by
        rw [List.takeWhile_eq_self_iff]
        intro d hd
        rw [bne_iff_ne]
        rintro rfl
        exact hclose hd
      have hdash := Slice.substrFrom_append (name ++ text ":-") tail behind
      have hdashLen : (text ":-").length = 2 := rfl
      rw [List.append_assoc, List.length_append, hdashLen, ← hbody] at hdash
      simp only [hlen, hflag, if_true, hdash, Option.bind_eq_bind,
        Option.bind_some, htail, ge_iff_le,
        le_refl]
    · refine absurd ⟨tail, ?_⟩ (hno (.plain name) hname)
      rw [source_plain, hbody]
    · have hlen' : (findEnd body).1 = body.length := by rw [hlen, hbody]
      simp only [hlen', hflag, Bool.false_eq_true, if_false, ge_iff_le, le_refl, if_true]
  · refine ⟨putChar p.signed c, fun hc => putChar_ascii p.signed hc, ?_⟩
    have hnext := Slice.substrFrom_append [c] rest behind
    rw [List.singleton_append, List.length_singleton] at hnext
    unfold expandRound
    dsimp only
    rw [hnext, Option.bind_eq_bind, Option.bind_some, if_neg hopens]

/-! ## The whole text -/

/-- A text that is not empty starts with a variable or with a character. Kind: L -/
theorem first_piece (s : Bytes) :
    s = [] ∨ (∃ (piece : Piece) (rest : Bytes), piece.IsVariable ∧ s = piece.source ++ rest) ∨
    ∃ c rest, s = c :: rest ∧ ∀ piece : Piece, piece.IsVariable → ¬ piece.source <+: c :: rest := by
  rcases s with _ | ⟨c, rest⟩
  · exact Or.inl rfl
  · by_cases hvar : ∃ piece : Piece, piece.IsVariable ∧ piece.source <+: c :: rest
    · obtain ⟨piece, hpiece, rest', hrest⟩ := hvar
      exact Or.inr (Or.inl ⟨piece, rest', hpiece, hrest.symm⟩)
    · exact Or.inr (Or.inr ⟨c, rest, rfl, fun piece hpiece h => hvar ⟨piece, hpiece, h⟩⟩)

theorem length_source_pos {piece : Piece} (h : piece.IsVariable) : 0 < piece.source.length := by
  rw [List.length_pos_iff_ne_nil, ← List.append_nil piece.source]
  exact source_ne_nil h []

/-- A variable with a name: what it stands for is written. Kind: L -/
theorem expandRound_variable {piece : Piece} (h : piece.IsVariable) (hempty : piece ≠ .plain [])
    (hz : 0 ∉ piece.source) (rest behind result : Bytes) : ∃ out, piece.Renders p vars out ∧
      expandRound p vars (⟨piece.source ++ rest, behind⟩, result) =
        some (.inr (⟨rest, behind⟩, result ++ out)) := by
  rcases piece with _ | name | ⟨name, default⟩
  · exact absurd h id
  · have hne : name ≠ [] := by
      rintro rfl
      exact hempty rfl
    exact ⟨_, rfl, expandRound_plain p vars h hne rest behind result⟩
  · have hname : 0 ∉ name := fun hmem => hz (by simp [Piece.source, hmem])
    obtain ⟨longer, hlonger, hround⟩ := expandRound_dflt p vars h.1 h.2 hname rest behind result
    refine ⟨_, fun _ hvalues => ?_, hround⟩
    rw [hvalues longer hlonger, if_neg (not_not_intro rfl)]

/-- **The loop reads the text piece by piece.** Kind: L -/
theorem expand_loop (behind : Bytes) : ∀ (n : ℕ) (s result : Bytes), s.length < n → 0 ∉ s →
    ¬ text "$\x7b\x7d" <:+: s → ∃ pieces out, Reads s pieces ∧ Renders p vars pieces out ∧
      loop (expandRound p vars) n (⟨s, behind⟩, result) = some (result ++ out) := by
  intro n
  induction n with
  | zero => intro s result h _ _; exact absurd h (Nat.not_lt_zero _)
  | succ n ih =>
      intro s result hlen hz hempty
      obtain rfl | ⟨piece, rest, hpiece, rfl⟩ | ⟨c, rest, rfl, hno⟩ := first_piece s
      · refine ⟨[], [], Reads.nil, ⟨[], List.Forall₂.nil, rfl⟩, ?_⟩
        rw [List.append_nil]
        rfl
      · have hne : piece ≠ .plain [] := by
          rintro rfl
          exact hempty ⟨[], rest, rfl⟩
        have hzs : 0 ∉ piece.source := fun h => hz (List.mem_append_left _ h)
        have hzr : 0 ∉ rest := fun h => hz (List.mem_append_right _ h)
        have hpos := length_source_pos hpiece
        rw [List.length_append] at hlen
        obtain ⟨out, hout, hround⟩ := expandRound_variable p vars hpiece hne hzs rest behind result
        obtain ⟨pieces, outs, hreads, ⟨parts, hparts, rfl⟩, hloop⟩ :=
          ih rest (result ++ out) (by omega) hzr
          (fun h => hempty (h.trans (List.suffix_append _ _).isInfix))
        refine ⟨piece :: pieces, out ++ parts.flatten, hreads.var hpiece,
          ⟨out :: parts, hparts.cons hout, rfl⟩, ?_⟩
        rw [loop, hround, ← List.append_assoc]
        exact hloop
      · have hzr : 0 ∉ rest := fun h => hz (List.mem_cons_of_mem _ h)
        rw [List.length_cons] at hlen
        obtain ⟨out, hout, hround⟩ := expandRound_char p vars hno behind result
        obtain ⟨pieces, outs, hreads, ⟨parts, hparts, rfl⟩, hloop⟩ :=
          ih rest (result ++ out) (by omega) hzr
          (fun h => hempty (h.trans (List.suffix_cons _ _).isInfix))
        refine ⟨.char c :: pieces, out ++ parts.flatten, hreads.char hno,
          ⟨out :: parts, hparts.cons hout, rfl⟩, ?_⟩
        rw [loop, hround, ← List.append_assoc]
        exact hloop

/-- **The expansion ends and gives what the pieces of the text stand for.** Kind: P -/
theorem expandVariables_spec (value : Slice) (hz : 0 ∉ value.bytes)
    (hempty : ¬ text "$\x7b\x7d" <:+: value.bytes) : ∃ pieces out, Reads value.bytes pieces ∧
      Renders p vars pieces out ∧ expandVariables p vars value = some out := by
  obtain ⟨pieces, out, hreads, hout, hloop⟩ := expand_loop p vars value.behind _ value.bytes []
    (Nat.lt_succ_self _) hz hempty
  exact ⟨pieces, out, hreads, hout, hloop⟩

end CxyCompiler.Stdlib.DotEnv
