import Mathlib.Data.List.Infix
import CxyCompiler.Package.Versions

/-!
# Variables in texts

`env.c` puts the values of variables in the place of `{{NAME}}` in a text. Built-in variables
come before those of the user, and a variable of the user is resolved with those in front of it.

* `substituteEnvVars`, `resolveEnvVars`: the source. `format` is what it uses of `format.c`.
* `Splits`: the placeholders of a text, from the left; `render` puts the values in, and leaves a
  placeholder without a value as it is.
* `splits_pieces`, `splits_unique`: a text has one way to be split.
* `substitute_length`: a placeholder without a value comes out two braces longer.
* **`substitution_iff`**: values are put in as they should be exactly if each placeholder has a
  value and a name of less than 256 characters. What is resolved does not hold its own placeholder,
  and is made from the built-in variables and those in front of it.

The log only receives diagnostics and is left out. No name and no value is a null pointer: they come
from the reader of the Cxyfile and from `makeString`.

Sources: `package/env.c`, `core/format.c`.
-/

namespace CxyCompiler.Package.Env

/-- Source: `types.h` `EnvVar`. -/
structure EnvVar where
  name : CString
  value : CString
  deriving DecidableEq

/-- Source: `env.c` `findEnvVar`. -/
def findEnvVar (name : CString) (envVars : List EnvVar) : Option EnvVar :=
  envVars.find? fun var => var.name == name

/-- Source: `strstr`, as a test. -/
def contains (str text : CString) : Bool := decide (text <:+: str)

/-- What stands in front of the first text and behind it. Source: `strstr`. -/
def splitAt (text : CString) : CString → Option (CString × CString)
  | [] => if text = [] then some ([], []) else none
  | c :: str =>
      if text.isPrefixOf (c :: str) then some ([], (c :: str).drop text.length)
      else (splitAt text str).map fun r => (c :: r.1, r.2)

/-- Two braces that open, and two that close. -/
def opening : CString := ['{', '{']

def closing : CString := ['}', '}']

/-- The commands of a format text that are used here: `{{` for a brace and `{s}` for a text.
Source: `format.c` `format`, `formatArg`. -/
def format : CString → List CString → CString
  | [], _ => []
  | '{' :: '{' :: str, args => '{' :: format str args
  | '{' :: 's' :: '}' :: str, arg :: args => arg ++ format str args
  | c :: str, args => c :: format str args

/-- The text in the call of `format` has five braces on either side. -/
def placeholderFormat : CString := ['{', '{', '{', '{', '{', 's', '}', '}', '}', '}', '}']

/-- Source: `env.c` `substituteEnvVars`, the variable of a placeholder. -/
def findVar (varName : CString) (envVars builtins : List EnvVar) : Option EnvVar :=
  (findEnvVar varName builtins).or (findEnvVar varName envVars)

/-- The loop; each round passes a character. Source: `env.c` `substituteEnvVars`. -/
def substituteLoop (envVars builtins : List EnvVar) : ℕ → CString → Option CString
  | 0, _ => some []
  | rounds + 1, p =>
      match p with
      | [] => some []
      | '{' :: '{' :: start =>
          match splitAt closing start with
          | none => (substituteLoop envVars builtins rounds start).map (opening ++ ·)
          | some (varName, rest) =>
              if 256 ≤ varName.length then none
              else
                let text := (findVar varName envVars builtins).elim
                  (format placeholderFormat [varName])
                  EnvVar.value
                (substituteLoop envVars builtins rounds rest).map (text ++ ·)
      | c :: rest => (substituteLoop envVars builtins rounds rest).map (c :: ·)

/-- None when a name is too long. Source: `env.c` `substituteEnvVars`. -/
def substituteEnvVars (template : CString) (envVars builtins : List EnvVar) : Option CString :=
  substituteLoop envVars builtins template.length template

/-- What is looked for in a resolved value; `snprintf` into 256 bytes. -/
def circularCheck (name : CString) : CString := (opening ++ name ++ closing).take 255

/-- The loop; `previous` are the variables in front, resolved. Source: `env.c` `resolveEnvVars`. -/
def resolveLoop (builtins previous : List EnvVar) : List EnvVar → Option (List EnvVar)
  | [] => some previous
  | var :: rest =>
      if contains var.value opening then
        match substituteEnvVars var.value previous builtins with
        | none => none
        | some resolved =>
            if contains resolved (circularCheck var.name) then none
            else resolveLoop builtins (previous ++ [{ var with value := resolved }]) rest
      else resolveLoop builtins (previous ++ [var]) rest

/-- None when it fails. Source: `env.c` `resolveEnvVars`. -/
def resolveEnvVars (envVars builtins : List EnvVar) : Option (List EnvVar) :=
  resolveLoop builtins [] envVars

/-! ## What is asked -/

inductive Piece where
  | text (c : Char)
  | placeholder (name : CString)

/-- A text is split from the left: where two braces open and two close behind them, what stands
between them up to the first that close is a name. -/
inductive Splits : CString → List Piece → Prop where
  | nil : Splits [] []
  | text (c : Char) {rest : CString} {ps : List Piece}
      (hno : ∀ start, c :: rest = opening ++ start → ¬ closing <:+: start) (h : Splits rest ps) :
      Splits (c :: rest) (.text c :: ps)
  | placeholder (name : CString) {rest : CString} {ps : List Piece}
      (hfirst : ¬ closing <:+: name ++ ['}']) (h : Splits rest ps) :
      Splits (opening ++ name ++ closing ++ rest) (.placeholder name :: ps)

def renderPiece (envVars builtins : List EnvVar) : Piece → CString
  | .text c => [c]
  | .placeholder name =>
      (findVar name envVars builtins).elim (opening ++ name ++ closing) EnvVar.value

def render (envVars builtins : List EnvVar) (ps : List Piece) : CString :=
  ps.flatMap (renderPiece envVars builtins)

/-- Each placeholder has a value and a name that is not too long. -/
def Defined (envVars builtins : List EnvVar) (ps : List Piece) : Prop :=
  ∀ name, Piece.placeholder name ∈ ps →
    name.length < 256 ∧ (findVar name envVars builtins).isSome

/-- Each variable is made from the built-in ones and from those in front of it, and does not refer
to itself. -/
structure Resolved (envVars builtins resolved : List EnvVar) : Prop where
  length : resolved.length = envVars.length
  value : ∀ i var var', envVars[i]? = some var → resolved[i]? = some var' → var'.name = var.name ∧
    substituteEnvVars var.value (resolved.take i) builtins = some var'.value ∧
    ¬ opening ++ var'.name ++ closing <:+: var'.value

/-! ## The first occurrence of a text -/

section SplitAt

variable {text : CString}

theorem splitAt_eq_none (h : text ≠ []) : ∀ str, splitAt text str = none ↔ ¬ text <:+: str
  | [] => by
      unfold splitAt
      rw [if_neg h, List.infix_nil]
      exact iff_of_true rfl h
  | c :: str => by
      unfold splitAt
      rw [List.infix_cons_iff, not_or, ← splitAt_eq_none h str, ← List.isPrefixOf_iff_prefix]
      by_cases hprefix : text.isPrefixOf (c :: str) = true
      · rw [if_pos hprefix]
        exact iff_of_false (Option.some_ne_none _) fun hno => hno.1 hprefix
      · rw [if_neg hprefix, Option.map_eq_none_iff]
        exact (and_iff_right hprefix).symm

/-- **The text is found where it occurs first.** Kind: L -/
theorem splitAt_some (h : text ≠ []) : ∀ {str a b}, splitAt text str = some (a, b) →
    str = a ++ text ++ b ∧ ¬ text <:+: a ++ text.dropLast
  | [], a, b, hs => by
      unfold splitAt at hs
      rw [if_neg h] at hs
      cases hs
  | c :: str, a, b, hs => by
      unfold splitAt at hs
      by_cases hprefix : text.isPrefixOf (c :: str) = true
      · rw [if_pos hprefix] at hs
        obtain ⟨rfl, rfl⟩ := Prod.mk.inj (Option.some.inj hs)
        obtain ⟨t, ht⟩ := List.isPrefixOf_iff_prefix.mp hprefix
        refine ⟨?_, fun hinfix => ?_⟩
        · rw [← ht, List.drop_left, List.nil_append]
        · have hle := hinfix.length_le
          have hpos := List.length_pos_iff.mpr h
          rw [List.nil_append, List.length_dropLast] at hle
          omega
      · rw [if_neg hprefix] at hs
        obtain ⟨⟨a', b'⟩, hr, heq⟩ := Option.map_eq_some_iff.mp hs
        obtain ⟨rfl, rfl⟩ := Prod.mk.inj heq
        obtain ⟨rfl, hfirst⟩ := splitAt_some h hr
        refine ⟨rfl, fun hinfix => ?_⟩
        rw [List.cons_append, List.infix_cons_iff] at hinfix
        rcases hinfix with hstart | hrest
        · apply hprefix
          apply List.isPrefixOf_iff_prefix.mpr
          refine hstart.trans ?_
          rw [List.append_assoc, ← List.cons_append, ← List.cons_append]
          apply (List.prefix_append_right_inj (c :: a')).mpr
          exact (List.dropLast_prefix text).trans (List.prefix_append ..)
        · exact hfirst hrest

theorem splitAt_first (h : text ≠ []) : ∀ {a : CString}
    (b : CString), ¬ text <:+: a ++ text.dropLast →
    splitAt text (a ++ text ++ b) = some (a, b)
  | [], b, _ => by
      obtain ⟨c, t, rfl⟩ := List.exists_cons_of_ne_nil h
      have hprefix : (c :: t).isPrefixOf (c :: (t ++ b)) = true :=
        List.isPrefixOf_iff_prefix.mpr (List.prefix_append (c :: t) b)
      rw [List.nil_append, List.cons_append]
      unfold splitAt
      rw [if_pos hprefix, ← List.cons_append, List.drop_left]
  | c :: a, b, hfirst => by
      rw [List.cons_append, List.infix_cons_iff, not_or] at hfirst
      have hprefix : ¬ text.isPrefixOf (c :: (a ++ text ++ b)) = true := by
        intro hp
        apply hfirst.1
        have hlong : text <+: c :: (a ++ text ++ b) := List.isPrefixOf_iff_prefix.mp hp
        have hpart : c :: (a ++ text.dropLast) <+: c :: (a ++ text ++ b) := by
          rw [List.append_assoc, ← List.cons_append, ← List.cons_append]
          apply (List.prefix_append_right_inj (c :: a)).mpr
          exact (List.dropLast_prefix text).trans (List.prefix_append ..)
        refine List.prefix_of_prefix_length_le hlong hpart ?_
        rw [List.length_cons, List.length_append, List.length_dropLast]
        omega
      rw [List.cons_append, List.cons_append]
      unfold splitAt
      rw [if_neg hprefix, splitAt_first h b hfirst.2]
      rfl

end SplitAt

/-! ## The loop -/

theorem format_placeholder (name : CString) :
    format placeholderFormat [name] = opening ++ name ++ closing ++ closing := by
  show '{' :: '{' :: (name ++ (closing ++ closing)) = _
  rw [← List.append_assoc]
  rfl

variable {envVars builtins : List EnvVar}

theorem closing_ne_nil : closing ≠ [] := List.cons_ne_nil _ _

/-- A character where no two braces open. Kind: L -/
theorem loop_char {c : Char} {rest : CString} (h : ¬ opening <+: c :: rest) (rounds : ℕ) :
    substituteLoop envVars builtins (rounds + 1) (c :: rest) =
      (substituteLoop envVars builtins rounds rest).map (c :: ·) := by
  rw [substituteLoop]
  rintro start rfl rfl
  exact h (List.prefix_append opening start)

theorem loop_open (start : CString) (rounds : ℕ) :
    substituteLoop envVars builtins (rounds + 1) (opening ++ start) =
      match splitAt closing start with
      | none => (substituteLoop envVars builtins rounds start).map (opening ++ ·)
      | some (varName, rest) =>
          if 256 ≤ varName.length then none
          else (substituteLoop envVars builtins rounds rest).map
            ((findVar varName envVars builtins).elim (opening ++ varName ++ closing ++ closing)
              EnvVar.value ++ ·) := by
  show substituteLoop envVars builtins (rounds + 1) ('{' :: '{' :: start) = _
  rw [substituteLoop]
  cases splitAt closing start with
  | none => rfl
  | some r =>
      dsimp only
      rw [format_placeholder]

/-- **What the loop makes of the pieces**: the name of a placeholder is not too long. -/
def substituted (envVars builtins : List EnvVar) : List Piece → Option CString
  | [] => some []
  | .text c :: ps => (substituted envVars builtins ps).map (c :: ·)
  | .placeholder name :: ps =>
      if 256 ≤ name.length then none
      else (substituted envVars builtins ps).map
        ((findVar name envVars builtins).elim
          (opening ++ name ++ closing ++ closing) EnvVar.value ++ ·)

theorem opening_cons {c : Char} {rest : CString} (h : opening <+: c :: rest) :
    ∃ start, c = '{' ∧ rest = '{' :: start := by
  obtain ⟨start, hstart⟩ := h
  obtain ⟨rfl, hrest⟩ := List.cons.inj hstart
  exact ⟨start, rfl, hrest.symm⟩

theorem closing_behind {start : CString} (h : ¬ closing <:+: start) :
    ¬ closing <:+: opening ++ start := by
  intro hinfix
  rcases List.infix_cons_iff.mp hinfix with ⟨t, ht⟩ | hinfix
  · cases (List.cons.inj ht).1
  rcases List.infix_cons_iff.mp hinfix with ⟨t, ht⟩ | hinfix
  · cases (List.cons.inj ht).1
  · exact h hinfix

/-- Where no two braces close the text is copied. Kind: L -/
theorem loop_literal : ∀ (rounds : ℕ) {p : CString}, p.length ≤ rounds → ¬ closing <:+: p →
    substituteLoop envVars builtins rounds p = some p := by
  intro rounds
  induction rounds using Nat.strong_induction_on with
  | _ rounds ih =>
      intro p hlength hno
      cases rounds with
      | zero =>
          obtain rfl := List.length_eq_zero_iff.mp (Nat.le_zero.mp hlength)
          rfl
      | succ rounds =>
          cases p with
          | nil => rfl
          | cons c rest =>
              have hrest : ¬ closing <:+: rest := fun h => hno (List.infix_cons_iff.mpr (.inr h))
              rw [List.length_cons] at hlength
              by_cases hopen : opening <+: c :: rest
              · obtain ⟨start, rfl, rfl⟩ := opening_cons hopen
                have hstart : ¬ closing <:+: start :=
                  fun h => hrest (List.infix_cons_iff.mpr (.inr h))
                have heq : '{' :: '{' :: start = opening ++ start := rfl
                rw [List.length_cons] at hlength
                rw [heq, loop_open, (splitAt_eq_none closing_ne_nil start).mpr hstart]
                dsimp only
                rw [ih rounds (Nat.lt_succ_self _) (by omega) hstart]
                rfl
              · rw [loop_char hopen, ih rounds (Nat.lt_succ_self _) (by omega) hrest]
                rfl

/-- **The loop goes by the pieces of the text.** Kind: P -/
theorem loop_splits {p : CString} {ps : List Piece}
    (h : Splits p ps) : ∀ rounds, p.length ≤ rounds →
    substituteLoop envVars builtins rounds p = substituted envVars builtins ps := by
  induction h with
  | nil => intro rounds _; cases rounds <;> rfl
  | @text c rest ps hno h ih =>
      intro rounds hlength
      obtain ⟨rounds, rfl⟩ : ∃ k, rounds = k + 1 :=
        ⟨rounds - 1, by rw [List.length_cons] at hlength; omega⟩
      rw [List.length_cons] at hlength
      unfold substituted
      rw [← ih rounds (by omega)]
      by_cases hopen : opening <+: c :: rest
      · obtain ⟨start, hstart⟩ := hopen
        have hclosing := hno start hstart.symm
        have hall := closing_behind hclosing
        rw [hstart] at hall
        have hrest : ¬ closing <:+: rest :=
          fun hinfix => hall (List.infix_cons_iff.mpr (.inr hinfix))
        rw [loop_literal (rounds + 1) (by rw [List.length_cons]; omega) hall,
          loop_literal rounds (by omega) hrest]
        rfl
      · exact loop_char hopen rounds
  | @placeholder name rest ps hfirst h ih =>
      intro rounds hlength
      rw [List.append_assoc, List.append_assoc] at hlength ⊢
      rw [List.length_append, List.length_append, List.length_append] at hlength
      have hopening : opening.length = 2 := rfl
      obtain ⟨rounds, rfl⟩ : ∃ k, rounds = k + 1 := ⟨rounds - 1, by omega⟩
      have hsplit := splitAt_first closing_ne_nil rest (a := name) hfirst
      rw [List.append_assoc] at hsplit
      unfold substituted
      rw [loop_open, hsplit, ← ih rounds (by omega)]

theorem substitute_splits {template : CString} {ps : List Piece} (h : Splits template ps) :
    substituteEnvVars template envVars builtins = substituted envVars builtins ps :=
  loop_splits h template.length (le_refl _)

/-! ## The pieces of a text -/

theorem splits_exists : ∀ (n : ℕ) (p : CString), p.length ≤ n → ∃ ps, Splits p ps := by
  intro n
  induction n with
  | zero =>
      intro p hp
      obtain rfl := List.length_eq_zero_iff.mp (Nat.le_zero.mp hp)
      exact ⟨[], .nil⟩
  | succ n ih =>
      intro p hp
      cases p with
      | nil => exact ⟨[], .nil⟩
      | cons c rest =>
          rw [List.length_cons] at hp
          by_cases hfound : ∃ start, c :: rest = opening ++ start ∧ closing <:+: start
          · obtain ⟨start, heq, hinfix⟩ := hfound
            cases hsplit : splitAt closing start with
            | none => exact absurd hinfix ((splitAt_eq_none closing_ne_nil start).mp hsplit)
            | some r =>
                obtain ⟨hstart, hfirst⟩ := splitAt_some closing_ne_nil hsplit
                have hlength := congrArg List.length heq
                have hopening : opening.length = 2 := rfl
                rw [hstart, List.length_cons, List.length_append, List.length_append,
                  List.length_append, hopening] at hlength
                obtain ⟨ps, hps⟩ := ih r.2 (by omega)
                refine ⟨.placeholder r.1 :: ps, ?_⟩
                rw [heq, hstart, ← List.append_assoc, ← List.append_assoc]
                exact .placeholder r.1 hfirst hps
          · obtain ⟨ps, hps⟩ := ih rest (by omega)
            exact ⟨.text c :: ps, .text c (fun start heq hinfix => hfound ⟨start, heq, hinfix⟩) hps⟩

theorem splits_cases {p : CString} {ps : List Piece} (h : Splits p ps) :
    (p = [] ∧ ps = []) ∨
    (∃ c rest ps', p = c :: rest ∧ ps = .text c :: ps' ∧
      (∀ start, p = opening ++ start → ¬ closing <:+: start) ∧ Splits rest ps') ∨
    ∃ name rest ps', p = opening ++ (name ++ closing ++ rest) ∧ ps = .placeholder name :: ps' ∧
      ¬ closing <:+: name ++ ['}'] ∧ Splits rest ps' := by
  cases h with
  | nil => exact .inl ⟨rfl, rfl⟩
  | text c hno h => exact .inr (.inl ⟨c, _, _, rfl, rfl, hno, h⟩)
  | placeholder name hfirst h =>
      refine .inr (.inr ⟨name, _, _, ?_, rfl, hfirst, h⟩)
      rw [List.append_assoc, List.append_assoc, List.append_assoc]

theorem closing_inside (name rest : CString) : closing <:+: name ++ closing ++ rest :=
  ⟨name, rest, rfl⟩

/-- **A text has one way to be split.** Kind: P -/
theorem splits_unique {p : CString} {ps : List Piece} (h : Splits p ps) : ∀ {ps'}, Splits p ps' →
    ps' = ps := by
  induction h with
  | nil =>
      intro ps' h'
      rcases splits_cases h' with ⟨-, rfl⟩ | ⟨c, rest, _, heq, -⟩ | ⟨name, rest, _, heq, -⟩
      · rfl
      · cases heq
      · cases heq
  | @text c rest ps hno h ih =>
      intro ps' h'
      rcases splits_cases h' with ⟨heq, -⟩ |
        ⟨c', rest', ps₁, heq, rfl, -, h₁⟩ | ⟨name, rest', _, heq, -⟩
      · cases heq
      · obtain ⟨rfl, rfl⟩ := List.cons.inj heq
        rw [ih h₁]
      · exact absurd (closing_inside name rest') (hno _ heq)
  | @placeholder name rest ps hfirst h ih =>
      intro ps' h'
      have hassoc : opening ++ name ++ closing ++ rest = opening ++ (name ++ closing ++ rest) := by
        rw [List.append_assoc, List.append_assoc, List.append_assoc]
      rcases splits_cases h' with ⟨heq, -⟩ | ⟨c', rest', _, -, -, hno, -⟩ |
        ⟨name', rest', ps₁, heq, rfl, hfirst', h₁⟩
      · cases heq
      · exact absurd (closing_inside name rest) (hno _ hassoc)
      · have hsame : name ++ closing ++ rest = name' ++ closing ++ rest' :=
          List.append_cancel_left (hassoc.symm.trans heq)
        have hsplit := splitAt_first closing_ne_nil rest (a := name) hfirst
        rw [hsame, splitAt_first closing_ne_nil rest' (a := name') hfirst'] at hsplit
        obtain ⟨rfl, rfl⟩ := Prod.mk.inj (Option.some.inj hsplit)
        rw [ih h₁]

/-! ## Values in their places -/

theorem render_placeholder (name : CString) (ps : List Piece) :
    render envVars builtins (.placeholder name :: ps) =
      (findVar name envVars builtins).elim (opening ++ name ++ closing) EnvVar.value ++
        render envVars builtins ps := List.flatMap_cons

/-- With a value for each placeholder the text comes out as it should. Kind: L -/
theorem substituted_defined : ∀ {ps : List Piece}, Defined envVars builtins ps →
    substituted envVars builtins ps = some (render envVars builtins ps)
  | [], _ => rfl
  | .text c :: ps, h => by
      have hrest : Defined envVars builtins ps :=
        fun name hname => h name (List.mem_cons_of_mem _ hname)
      unfold substituted
      rw [substituted_defined hrest]
      rfl
  | .placeholder name :: ps, h => by
      have hrest : Defined envVars builtins ps := fun n hn => h n (List.mem_cons_of_mem _ hn)
      obtain ⟨hlength, hvalue⟩ := h name (List.mem_cons_self ..)
      obtain ⟨var, hvar⟩ := Option.isSome_iff_exists.mp hvalue
      unfold substituted
      rw [if_neg (not_le.mpr hlength), substituted_defined hrest, render_placeholder, hvar]
      rfl

/-- **A placeholder without a value comes out longer than it is.** Kind: L -/
theorem substituted_length : ∀ {ps : List Piece} {out : CString},
    substituted envVars builtins ps = some out →
      (render envVars builtins ps).length ≤ out.length ∧
      ((render envVars builtins ps).length = out.length → Defined envVars builtins ps)
  | [], out, h => by
      obtain rfl := Option.some.inj h
      exact ⟨le_refl _, fun _ name hname => absurd hname List.not_mem_nil⟩
  | .text c :: ps, out, h => by
      unfold substituted at h
      obtain ⟨out, hout, rfl⟩ := Option.map_eq_some_iff.mp h
      obtain ⟨hle, hdefined⟩ := substituted_length hout
      have hrender : (render envVars builtins (.text c :: ps)).length =
          (render envVars builtins ps).length + 1 := rfl
      rw [hrender, List.length_cons]
      refine ⟨Nat.succ_le_succ hle, fun heq name hname => ?_⟩
      rcases List.mem_cons.mp hname with heq' | hname
      · cases heq'
      · exact hdefined (Nat.succ.inj heq) name hname
  | .placeholder n :: ps, out, h => by
      unfold substituted at h
      by_cases hlong : 256 ≤ n.length
      · rw [if_pos hlong] at h
        cases h
      rw [if_neg hlong] at h
      obtain ⟨out, hout, rfl⟩ := Option.map_eq_some_iff.mp h
      obtain ⟨hle, hdefined⟩ := substituted_length hout
      rw [render_placeholder, List.length_append, List.length_append]
      cases hvar : findVar n envVars builtins with
      | some var =>
          rw [Option.elim_some, Option.elim_some]
          refine ⟨Nat.add_le_add_left hle _, fun heq name hname => ?_⟩
          rcases List.mem_cons.mp hname with heq' | hname
          · obtain rfl := Piece.placeholder.inj heq'
            rw [hvar]
            exact ⟨not_le.mp hlong, rfl⟩
          · exact hdefined (Nat.add_left_cancel heq) name hname
      | none =>
          have hlonger : (opening ++ n ++ closing ++ closing).length =
              (opening ++ n ++ closing).length + 2 := List.length_append
          rw [Option.elim_none, Option.elim_none, hlonger]
          refine ⟨by omega, fun heq => absurd heq (by omega)⟩

/-! ## Variables in order -/

/-- A text in which no two braces open stays as it is. Kind: L -/
theorem loop_plain : ∀ (rounds : ℕ) {p : CString}, p.length ≤ rounds → ¬ opening <:+: p →
    substituteLoop envVars builtins rounds p = some p
  | 0, p, hlength, _ => by
      obtain rfl := List.length_eq_zero_iff.mp (Nat.le_zero.mp hlength)
      rfl
  | rounds + 1, [], _, _ => rfl
  | rounds + 1, c :: rest, hlength, hno => by
      rw [List.infix_cons_iff, not_or] at hno
      rw [loop_char hno.1, loop_plain rounds (Nat.le_of_succ_le_succ hlength) hno.2]
      rfl

/-- What is checked of a resolved value rules out its own placeholder. Kind: L -/
theorem no_reference {resolved name : CString}
    (h : contains resolved (circularCheck name) = false) :
    ¬ opening ++ name ++ closing <:+: resolved := by
  intro hinfix
  have hcheck : circularCheck name <:+: resolved := (List.take_prefix ..).isInfix.trans hinfix
  exact absurd (decide_eq_true hcheck) (by unfold contains at h; rw [h]; exact Bool.false_ne_true)

/-- **Each round of the loop resolves a variable by those in front of it.** Kind: L -/
theorem resolveLoop_some : ∀ {rest previous resolved : List EnvVar},
    resolveLoop builtins previous rest = some resolved →
      ∃ new, resolved = previous ++ new ∧ new.length = rest.length ∧
        ∀ i var var', rest[i]? = some var → new[i]? = some var' → var'.name = var.name ∧
          substituteEnvVars var.value (previous ++ new.take i) builtins = some var'.value ∧
          ¬ opening ++ var'.name ++ closing <:+: var'.value
  | [], previous, resolved, h => by
      obtain rfl := Option.some.inj h
      exact ⟨[], (List.append_nil _).symm, rfl, fun i var var' hi => by cases hi⟩
  | var :: rest, previous, resolved, h => by
      -- the variable that is put behind those in front
      have hstep : ∀ first, resolveLoop builtins (previous ++ [first]) rest = some resolved →
          first.name = var.name → substituteEnvVars var.value previous builtins = some first.value →
          ¬ opening ++ first.name ++ closing <:+: first.value →
          ∃ new, resolved = previous ++ new ∧ new.length = (var :: rest).length ∧
            ∀ i v v', (var :: rest)[i]? = some v → new[i]? = some v' → v'.name = v.name ∧
              substituteEnvVars v.value (previous ++ new.take i) builtins = some v'.value ∧
              ¬ opening ++ v'.name ++ closing <:+: v'.value := by
        intro first hrun hname hvalue hself
        obtain ⟨new, rfl, hlength, hall⟩ := resolveLoop_some hrun
        refine ⟨first :: new, ?_, ?_, fun i v v' hv hv' => ?_⟩
        · rw [List.append_assoc]
          rfl
        · rw [List.length_cons, List.length_cons, hlength]
        · cases i with
          | zero =>
              obtain rfl := Option.some.inj hv
              obtain rfl := Option.some.inj hv'
              rw [List.take_zero, List.append_nil]
              exact ⟨hname, hvalue, hself⟩
          | succ i =>
              have htail := hall i v v' hv hv'
              rw [List.append_assoc] at htail
              exact htail
      unfold resolveLoop at h
      cases hopen : contains var.value opening with
      | true =>
          rw [hopen, if_pos rfl] at h
          cases hsub : substituteEnvVars var.value previous builtins with
          | none =>
              rw [hsub] at h
              cases h
          | some value =>
              rw [hsub] at h
              dsimp only at h
              cases hcheck : contains value (circularCheck var.name) with
              | true =>
                  rw [hcheck, if_pos rfl] at h
                  cases h
              | false =>
                  rw [hcheck, if_neg Bool.false_ne_true] at h
                  exact hstep { var with value := value } h rfl hsub (no_reference hcheck)
      | false =>
          rw [hopen, if_neg Bool.false_ne_true] at h
          have hno : ¬ opening <:+: var.value := of_decide_eq_false hopen
          refine hstep var h rfl (loop_plain _ (le_refl _) hno) fun hinfix => hno ?_
          rw [List.append_assoc] at hinfix
          exact (List.prefix_append ..).isInfix.trans hinfix

theorem resolveEnvVars_resolved {resolved : List EnvVar}
    (h : resolveEnvVars envVars builtins = some resolved) : Resolved envVars builtins resolved := by
  obtain ⟨new, rfl, hlength, hall⟩ := resolveLoop_some h
  exact ⟨hlength, hall⟩

/-- **Values are put in the places of a text exactly if each placeholder has one and no name is too
long**; and variables that are resolved are made from those in front of them and do not refer to
themselves. Kind: P -/
theorem substitution_iff (envVars builtins : List EnvVar) :
    (∀ template, ∃ ps, Splits template ps ∧ (∀ ps', Splits template ps' → ps' = ps) ∧
      (substituteEnvVars template envVars builtins = some (render envVars builtins ps) ↔
        Defined envVars builtins ps)) ∧
    ∀ resolved, resolveEnvVars envVars builtins = some resolved →
      Resolved envVars builtins resolved := by
  refine ⟨fun template => ?_, fun resolved => resolveEnvVars_resolved⟩
  obtain ⟨ps, hps⟩ := splits_exists template.length template (le_refl _)
  refine ⟨ps, hps, fun ps' => splits_unique hps, ?_⟩
  rw [substitute_splits hps]
  exact ⟨fun h => (substituted_length h).2 rfl, substituted_defined⟩

/-- A placeholder without a value. Kind: P -/
theorem undefined_not_left : Splits ['{', '{', 'A', '}', '}'] [.placeholder ['A']] ∧
    substituteEnvVars ['{', '{', 'A', '}', '}'] [] [] =
      some ['{', '{', 'A', '}', '}', '}', '}'] := by
  refine ⟨.placeholder ['A'] (by decide) .nil, by decide⟩

end CxyCompiler.Package.Env
