import CxyCompiler.Stdlib.YamlLayout

/-!
# The lexer on the lines of a layout

* `Lexer.inLine`, `Lexer.atLine`: the lexer behind the indentation of a line and in front of it, in
  block style.
* `yields_line`: **at a line, the lexer closes the blocks that are indented more**.
* `Goes`: what the lexer yields behind a value, however many blocks are open.
-/

namespace CxyCompiler.Stdlib.Yaml

open CxyCompiler.Lib

variable {signed : Bool} {b : Behind}

/-! ## Single tokens -/

/-- Behind the indentation of a line. -/
def Lexer.inLine (s : Bytes) (indents : List ℕ) : Lexer := ⟨s, indents, false, 0, 0, [], false⟩

/-- In front of a line. -/
def Lexer.atLine (s : Bytes) (indents : List ℕ) : Lexer := ⟨s, indents, true, 0, 0, [], false⟩

/-- The result of a call of the lexer for the parser. -/
def Lexed.taken : Lexed → Option (Token × Lexer)
  | .token t lx => some (t, lx)
  | .raised lx => some (.invalid, lx)
  | .aborted => none

theorem lexNext_eq (lx : Lexer) :
    lexNext signed lx = (nextToken signed (lx.rest.length + 1) lx).taken := by
  unfold lexNext Lexed.taken
  cases nextToken signed (lx.rest.length + 1) lx <;> rfl

theorem lexNext_inLine {s : Bytes} (hs : s ≠ []) (S : List ℕ) :
    lexNext signed (.inLine s S) =
      (scanToken signed (nextToken signed s.length) (.inLine s S)).taken := by
  rw [lexNext_eq, nextToken]
  simp [Lexer.inLine, hs]

def isStart (c : UInt8) : Bool := !isBlank c && c ≠ ch '\n' && c ≠ ch '#'

theorem isBlank_space : isBlank (ch ' ') = true := by decide

theorem dropWhile_writeIndent (n : ℕ) (s : Bytes) :
    (writeIndent n ++ s).dropWhile isBlank = s.dropWhile isBlank := by
  refine List.dropWhile_append_of_pos fun c hc => ?_
  rw [List.eq_of_mem_replicate hc]
  exact isBlank_space

/-- A token does not depend on the blanks in front of it, nor on the fuel, if it is no comment.
Kind: L -/
theorem scanToken_blanks {again again' : Lexer → Lexed} (n : ℕ) {c : UInt8} (hc : c ≠ ch '#')
    (hb : isBlank c = false) (s : Bytes) (S : List ℕ) :
    scanToken signed again (.inLine (writeIndent n ++ c :: s) S) =
      scanToken signed again' (.inLine (c :: s) S) := by
  have hdrop : (c :: s).dropWhile isBlank = c :: s := List.dropWhile_cons_of_neg (by simp [hb])
  unfold scanToken
  simp only [Lexer.inLine, dropWhile_writeIndent, hdrop, hc, if_false]
  rfl

theorem lexNext_blanks (n : ℕ) {c : UInt8} (hc : c ≠ ch '#') (hb : isBlank c = false) (s : Bytes)
    (S : List ℕ) :
    lexNext signed (.inLine (writeIndent n ++ c :: s) S) =
      lexNext signed (.inLine (c :: s) S) := by
  rw [lexNext_inLine (by simp), lexNext_inLine (by simp), scanToken_blanks n hc hb]

theorem yields_blanks {n : ℕ} {c : UInt8} (hc : c ≠ ch '#') (hb : isBlank c = false) {s : Bytes}
    {S : List ℕ} {ts : List Token} (h : Yields (lexNext signed) (.inLine (c :: s) S) ts) :
    Yields (lexNext signed) (.inLine (writeIndent n ++ c :: s) S) ts :=
  h.congr (lexNext_blanks n hc hb s S).symm

theorem yields_newline {n : ℕ} {s : Bytes} {S : List ℕ} {ts : List Token}
    (h : Yields (lexNext signed) (.atLine s S) ts) :
    Yields (lexNext signed) (.inLine (writeIndent n ++ ch '\n' :: s) S) (.newline :: ts) := by
  refine ⟨.atLine s S, ?_, h⟩
  rw [lexNext_blanks n (by decide) (by decide), lexNext_inLine (by simp)]
  rfl

theorem yields_colon {c : UInt8} (hc : c = ch ' ' ∨ c = ch '\n') {s : Bytes} {S : List ℕ}
    {ts : List Token} (h : Yields (lexNext signed) (.inLine (c :: s) S) ts) :
    Yields (lexNext signed) (.inLine (ch ':' :: c :: s) S) (.colon :: ts) := by
  refine ⟨.inLine (c :: s) S, ?_, h⟩
  rw [lexNext_inLine (by simp)]
  rcases hc with rfl | rfl <;> rfl

theorem yields_dash {c : UInt8} (hc : c = ch ' ' ∨ c = ch '\n') {s : Bytes} {S : List ℕ}
    {ts : List Token} (h : Yields (lexNext signed) (.inLine (c :: s) S) ts) :
    Yields (lexNext signed) (.inLine (ch '-' :: c :: s) S) (.dash :: ts) := by
  refine ⟨.inLine (c :: s) S, ?_, h⟩
  rw [lexNext_inLine (by simp)]
  rcases hc with rfl | rfl <;> cases s <;> rfl

theorem yields_braces {s : Bytes} {S : List ℕ} {ts : List Token}
    (h : Yields (lexNext signed) (.inLine s S) ts) :
    Yields (lexNext signed) (.inLine (ch '{' :: ch '}' :: s) S) (.indent :: .dedent :: ts) := by
  refine ⟨⟨ch '}' :: s, S, false, 0, 1, [ch '{'], false⟩, ?_, .inLine s S, ?_, h⟩
  · rw [lexNext_inLine (by simp)]
    rfl
  · rw [lexNext_eq, nextToken]
    rfl

/-! ## The start of a line -/

theorem skipLine_blanks (line : Bytes) : ∀ (ws s : Bytes), (∀ c ∈ ws, isBlank c = true) →
    skipLine line false (ws ++ s) = skipLine line false s
  | [], s, _ => rfl
  | c :: ws, s, h => by
      obtain ⟨hc, hws⟩ := List.forall_mem_cons.mp h
      have hn : c ≠ ch '\n' := by
        rintro rfl
        exact absurd hc (by decide)
      rw [List.cons_append, skipLine, if_neg hn]
      simp only [Bool.false_eq_true, if_false, hc, if_true]
      exact skipLine_blanks line ws s hws

theorem skipLine_comment (line : Bytes) : ∀ (t s : Bytes), ch '\n' ∉ t →
    skipLine line true (t ++ ch '\n' :: s) = skipEmptyLines s
  | [], s, _ => by
      rw [List.nil_append, skipLine, if_pos rfl]
      rfl
  | c :: t, s, h => by
      simp only [List.mem_cons, not_or] at h
      rw [List.cons_append, skipLine, if_neg (Ne.symm h.1)]
      simp only [if_true]
      exact skipLine_comment line t s h.2

/-- A line that is blank or a comment is skipped. Kind: L -/
theorem skipEmptyLines_filler (f : Filler) (s : Bytes) :
    skipEmptyLines (f.render ++ s) = skipEmptyLines s := by
  have hrender : f.render ++ s =
      f.blanks ++ ((f.comment.elim [] fun t => ch '#' :: t) ++ ch '\n' :: s) := by
    simp [Filler.render, text]
  rw [hrender, skipEmptyLines, skipLine_blanks _ _ _ f.isBlank]
  cases hcomment : f.comment with
  | none =>
      simp only [Option.elim_none, List.nil_append]
      rw [skipLine, if_pos rfl]
      rfl
  | some t =>
      simp only [Option.elim_some, List.cons_append]
      rw [skipLine, if_neg (by decide)]
      simp only [Bool.false_eq_true, if_false, if_true, show isBlank (ch '#') = false by decide]
      exact skipLine_comment _ t s (f.oneLine t hcomment)

theorem skipEmptyLines_fill (fs : List Filler) (s : Bytes) :
    skipEmptyLines (renderFill fs ++ s) = skipEmptyLines s := by
  induction fs with
  | nil => rfl
  | cons f fs ih =>
      have hcons : renderFill (f :: fs) ++ s = f.render ++ (renderFill fs ++ s) := by
        simp [renderFill]
      rw [hcons, skipEmptyLines_filler, ih]

theorem skipEmptyLines_line (n : ℕ) {c : UInt8} (hc : isStart c = true) (s : Bytes) :
    skipEmptyLines (writeIndent n ++ c :: s) = writeIndent n ++ c :: s := by
  simp only [isStart, Bool.and_eq_true, Bool.not_eq_true', decide_eq_true_eq, ne_eq] at hc
  have hblank : ∀ d ∈ writeIndent n, isBlank d = true := by
    intro d hd
    rw [List.eq_of_mem_replicate hd]
    exact isBlank_space
  rw [skipEmptyLines, skipLine_blanks _ _ _ hblank, skipLine, if_neg hc.1.2]
  simp [hc.1.1, hc.2]

theorem measureIndent_writeIndent {c : UInt8} (hc : isBlank c = false) (s : Bytes) :
    ∀ max n, measureIndent max (writeIndent n ++ c :: s) =
      (min n max, writeIndent (n - max) ++ c :: s, false)
  | 0, n => by simp [measureIndent]
  | max + 1, 0 => by
      have hspace : c ≠ ch ' ' := by
        rintro rfl
        exact absurd hc (by decide)
      have htab : c ≠ ch '\t' := by
        rintro rfl
        exact absurd hc (by decide)
      simp [measureIndent, writeIndent, hspace, htab]
  | max + 1, n + 1 => by
      have ih := measureIndent_writeIndent hc s max n
      have hcons : writeIndent (n + 1) ++ c :: s = ch ' ' :: (writeIndent n ++ c :: s) := rfl
      rw [hcons, measureIndent, if_pos rfl, ih]
      simp

/-- The indentation of a level, as far as it is measured. -/
def level (n : ℕ) : ℕ := min n maxIndent

/-- What the lexer does with the line of a token. Kind: L -/
theorem lexNext_atLine (fs : List Filler) (n : ℕ) {c : UInt8} (hc : isStart c = true) (s : Bytes)
    (S : List ℕ) : ∃ fuel, lexNext signed (.atLine (renderFill fs ++ (writeIndent n ++ c :: s)) S) =
      ((Lexer.atLine (writeIndent (n - maxIndent) ++ c :: s) S).indentTo (level n)
        (scanToken signed (nextToken signed fuel))).taken := by
  have hblank : isBlank c = false := by
    simp only [isStart, Bool.and_eq_true, Bool.not_eq_true'] at hc
    exact hc.1.1
  refine ⟨(renderFill fs ++ (writeIndent n ++ c :: s)).length, ?_⟩
  rw [lexNext_eq, nextToken]
  simp only [Lexer.atLine, Bool.false_eq_true, if_false, lt_irrefl, if_true, skipEmptyLines_fill,
    skipEmptyLines_line n hc, measureIndent_writeIndent hblank, Bool.true_and, decide_true]
  rw [if_neg (by simp)]
  rfl

theorem isStart_iff {c : UInt8} :
    isStart c = true ↔ isBlank c = false ∧ c ≠ ch '\n' ∧ c ≠ ch '#' := by
  simp only [isStart, Bool.and_eq_true, Bool.not_eq_true', decide_eq_true_eq, and_assoc]

section

variable {fs : List Filler} {n : ℕ} {c : UInt8} {s : Bytes} {S : List ℕ} {ts : List Token}

/-- A line at the level of the one before. Kind: L -/
theorem yields_line_same (hc : isStart c = true)
    (h : Yields (lexNext signed) (.inLine (c :: s) (level n :: S)) ts) :
    Yields (lexNext signed) (.atLine (renderFill fs ++ (writeIndent n ++ c :: s)) (level n :: S))
      ts := by
  obtain ⟨hb, -, hcomment⟩ := isStart_iff.mp hc
  obtain ⟨fuel, hline⟩ := @lexNext_atLine signed fs n c hc s (level n :: S)
  refine h.congr ?_
  rw [hline, lexNext_inLine (by simp),
    ← @scanToken_blanks signed (nextToken signed fuel) _ (n - maxIndent) c hcomment hb s _]
  simp [Lexer.indentTo, Lexer.atLine, Lexer.inLine]

/-- A line that is indented more opens a block. Kind: L -/
theorem yields_line_indent (hc : isStart c = true) {m : ℕ} (hm : m < level n)
    (h : Yields (lexNext signed) (.inLine (c :: s) (level n :: m :: S)) ts) :
    Yields (lexNext signed) (.atLine (renderFill fs ++ (writeIndent n ++ c :: s)) (m :: S))
      (.indent :: ts) := by
  obtain ⟨hb, -, hcomment⟩ := isStart_iff.mp hc
  obtain ⟨fuel, hline⟩ := @lexNext_atLine signed fs n c hc s (m :: S)
  refine ⟨.inLine (writeIndent (n - maxIndent) ++ c :: s) (level n :: m :: S), ?_,
    yields_blanks hcomment hb h⟩
  rw [hline]
  simp [Lexer.indentTo, Lexer.atLine, Lexer.inLine, hm, Lexed.taken]

/-- `Dedent` tokens that have been counted. Kind: L -/
theorem yields_pending : ∀ (k : ℕ) {s : Bytes} {S : List ℕ},
    Yields (lexNext signed) (.inLine s S) ts →
    Yields (lexNext signed) { Lexer.inLine s S with pendingDedents := k }
      (List.replicate k Token.dedent ++ ts)
  | 0, s, S, h => h
  | k + 1, s, S, h => by
      refine ⟨{ Lexer.inLine s S with pendingDedents := k }, ?_, yields_pending k h⟩
      rw [lexNext_eq, nextToken]
      simp [Lexer.inLine, Lexed.taken]

/-- What the lexer keeps of its levels at a line. Kind: L -/
theorem dropWhile_levels {m : ℕ} (D S : List ℕ) (hD : ∀ d ∈ D, m < d) :
    (D ++ m :: S).dropLast.dropWhile (m < ·) ++ (D ++ m :: S).getLast?.toList = m :: S := by
  have hlast : (D ++ m :: S).dropLast = D ++ (m :: S).dropLast := by
    rw [List.dropLast_append_of_ne_nil (by simp)]
  have hD' : ∀ d ∈ D, decide (m < d) = true := fun d hd => decide_eq_true (hD d hd)
  rw [hlast, List.dropWhile_append_of_pos hD']
  cases S with
  | nil => simp
  | cons d S =>
      rw [List.dropLast_cons_cons, List.dropWhile_cons_of_neg (by simp)]
      have hget : (D ++ m :: d :: S).getLast? = (d :: S).getLast? := by
        simp [List.getLast?_append, List.getLast?_cons]
      rw [hget, List.cons_append, List.getLast?_eq_getLast_of_ne_nil (by simp), Option.toList_some,
        List.dropLast_append_getLast]

/-- How many `Dedent` tokens are left where `n` levels are closed. -/
def pendingOf (n : ℕ) : ℕ := if 1 < Int8.ofNat n then ((Int8.ofNat n).toInt - 1).toNat else 0

/-- No `Dedent` is lost as long as the counter can count them. Kind: L -/
theorem pendingOf_lt {n : ℕ} (h : 0 < n) : pendingOf n + 1 ≤ n ∧
    (pendingOf n + 1 = n ↔ n ≤ maxClosed) := by
  have hint : (Int8.ofNat n).toInt = (n : ℤ).bmod 256 := Int8.toInt_ofNat'
  have hlt : 1 < Int8.ofNat n ↔ 1 < (n : ℤ).bmod 256 := by
    have hone : (1 : Int8).toInt = 1 := by decide
    rw [Int8.lt_iff_toInt_lt, hint, hone]
  rw [Int.bmod_def] at hint hlt
  unfold pendingOf maxClosed
  by_cases hmany : 1 < Int8.ofNat n
  · rw [if_pos hmany, hint]
    rw [hlt] at hmany
    split_ifs at hmany ⊢ <;> omega
  · rw [if_neg hmany]
    rw [hlt] at hmany
    split_ifs at hmany <;> omega

/-- **At a line, the lexer closes the blocks that are indented more.** Kind: L -/
theorem yields_line (hc : isStart c = true) (D : List ℕ) (hD : ∀ d ∈ D, level n < d)
    (hclosed : D.length ≤ maxClosed)
    (h : Yields (lexNext signed) (.inLine (c :: s) (level n :: S)) ts) :
    Yields (lexNext signed)
      (.atLine (renderFill fs ++ (writeIndent n ++ c :: s)) (D ++ level n :: S))
      (List.replicate D.length Token.dedent ++ ts) := by
  cases D with
  | nil => exact yields_line_same hc h
  | cons d D =>
      obtain ⟨hb, -, hcomment⟩ := isStart_iff.mp hc
      obtain ⟨fuel, hline⟩ := @lexNext_atLine signed fs n c hc s (d :: D ++ level n :: S)
      have hlt := hD d List.mem_cons_self
      have hkept := dropWhile_levels (d :: D) S hD
      refine ⟨{ Lexer.inLine (writeIndent (n - maxIndent) ++ c :: s) (level n :: S) with
        pendingDedents := D.length }, ?_, yields_pending D.length (yields_blanks hcomment hb h)⟩
      have hmore : ¬(d :: D ++ level n :: S).headD 0 < level n := by
        simp only [List.cons_append, List.headD_cons]
        omega
      have hless : level n < (d :: D ++ level n :: S).headD 0 := hlt
      rw [hline]
      have hcount : (d :: D ++ level n :: S).length - (level n :: S).length = D.length + 1 := by
        simp only [List.length_append, List.length_cons]
        omega
      simp only [Lexer.indentTo, Lexer.atLine, if_neg hmore, if_pos hless, hkept, hcount]
      simp only [ne_eq, List.headD_cons, not_true_eq_false, if_false, Lexed.taken, Lexer.inLine,
        Option.some.injEq, Prod.mk.injEq, Lexer.mk.injEq, true_and, and_true]
      exact Nat.succ.inj ((pendingOf_lt (Nat.succ_pos D.length)).2.mpr hclosed)

/-- **At the end, all blocks are closed.** Kind: L -/
theorem yields_atEnd : ∀ (D : List ℕ) {lx : Lexer}, lx.indents = D ++ [n] →
    lx.pendingDash = false → lx.pendingDedents = 0 →
    (if lx.atLineStart then skipEmptyLines lx.rest else lx.rest) = [] →
    Yields (lexNext signed) lx
      (List.replicate D.length Token.dedent ++ [Token.eof, Token.eof]) := by
  -- One step at the end of the text.
  have step : ∀ {lx : Lexer}, lx.pendingDash = false → lx.pendingDedents = 0 →
      (if lx.atLineStart then skipEmptyLines lx.rest else lx.rest) = [] →
      lexNext signed lx =
        if 1 < lx.indents.length then
          some (.dedent, { lx with rest := [], indents := lx.indents.tail })
        else some (.eof, { lx with rest := [] }) := by
    intro lx hdash hpending hrest
    obtain ⟨rest, indents, atLineStart, pendingDedents, flowDepth, flowContext, pendingDash⟩ := lx
    simp only at hdash hpending hrest
    subst hdash hpending
    rw [lexNext_eq, nextToken]
    cases atLineStart with
    | true =>
        simp only [if_true] at hrest
        simp only [Bool.false_eq_true, lt_irrefl, if_false, if_true, hrest]
        split <;> rfl
    | false =>
        simp only [Bool.false_eq_true, if_false] at hrest
        subst hrest
        simp only [Bool.false_eq_true, lt_irrefl, if_false, if_true]
        split <;> rfl
  have hnil : ∀ lx : Lexer,
      (if lx.atLineStart then skipEmptyLines [] else ([] : Bytes)) = [] := by
    intro lx
    split <;> rfl
  intro D
  induction D with
  | nil =>
      intro lx hind hdash hpending hrest
      refine ⟨{ lx with rest := [] }, ?_, { lx with rest := [] }, ?_, trivial⟩
      · rw [step hdash hpending hrest, hind]
        rfl
      · have h : { lx with rest := ([] : Bytes) }.indents = [n] := hind
        rw [@step { lx with rest := [] } hdash hpending (hnil lx), h]
        rfl
  | cons d D ih =>
      intro lx hind hdash hpending hrest
      refine ⟨{ lx with rest := [], indents := D ++ [n] }, ?_, ih rfl hdash hpending (hnil lx)⟩
      rw [step hdash hpending hrest, hind, if_pos (by simp)]
      rfl

end

/-! ## Scalars and keys -/

/-- What stands behind a scalar: the end of the text or of the line. -/
def Follows (b : Behind) (tail : Bytes) : Prop :=
  if b = .nothing then tail = [] else ∃ s, tail = ch '\n' :: s

/-- A text that is read as one token wherever a value may stand. -/
def Scans (signed : Bool) (b : Behind) (t : Bytes) (token : Token) : Prop :=
  (∃ c s, t = c :: s ∧ isStart c = true) ∧ ∀ tail S, Follows b tail →
    lexNext signed (.inLine (t ++ tail) S) = some (token, .inLine tail S)

/-- A text that is read as a string in front of a colon. -/
def Key.Scans (signed : Bool) (key : Key) : Prop :=
  (∃ c s, key.text = c :: s ∧ isStart c = true) ∧ ∀ c s S, (c = ch ' ' ∨ c = ch '\n') →
    lexNext signed (.inLine (key.text ++ ch ':' :: c :: s) S) =
      some (.string key.name, .inLine (ch ':' :: c :: s) S)

mutual

/-- The scalars and keys are read as their tokens, each block is indented more than the one around
it, as far as the indentation is measured, and no line closes more blocks than are counted. -/
def Node.Lexes (signed : Bool) (b : Behind) (outer : ℕ) : Node → Prop
  | .scalar _ t token => Yaml.Scans signed b t token
  | .emptyObject _ => True
  | .absent _ => False
  | .mapping _ n es => level outer < level n ∧ es.Lexes signed b n
  | .sequence _ n is => level outer < level n ∧ is.Lexes signed b n

def Entries.Lexes (signed : Bool) (b : Behind) (n : ℕ) : Entries → Prop
  | .last _ key v => key.Scans signed ∧ v.Lexes signed b n
  | .cons _ key v es =>
      key.Scans signed ∧ v.Lexes signed .lines n ∧ v.opened ≤ maxClosed ∧ es.Lexes signed b n

def Items.Lexes (signed : Bool) (b : Behind) (n : ℕ) : Items → Prop
  | .last _ item => item.Lexes signed b n
  | .cons _ item is =>
      item.Lexes signed .lines n ∧ item.opened ≤ maxClosed ∧ is.Lexes signed b n

def Item.Lexes (signed : Bool) (b : Behind) (n : ℕ) : Item → Prop
  | .plain v => v.Lexes signed b n
  | .single _ key v => key.Scans signed ∧ v.Lexes signed b n
  | .compact gap key v es =>
      key.Scans signed ∧ v.isScalar = true ∧ v.Lexes signed .lines n ∧
        level n < level (n + gap + 2) ∧ es.Lexes signed b (n + gap + 2)

end

/-! ## Blocks -/

def Entries.fill : Entries → List Filler
  | .last fill _ _ => fill
  | .cons fill _ _ _ => fill

/-- The text behind the indentation of the first key. -/
def Entries.body (n : ℕ) : Entries → Bytes
  | .last _ key v => key.text ++ (text ":" ++ v.render)
  | .cons _ key v es => key.text ++ (text ":" ++ (v.render ++ (text "\n" ++ es.render n)))

theorem Entries.render_eq (n : ℕ) (es : Entries) :
    es.render n = renderFill es.fill ++ (writeIndent n ++ es.body n) := by
  cases es <;> simp [Entries.render, Entries.fill, Entries.body]

def Items.fill : Items → List Filler
  | .last fill _ => fill
  | .cons fill _ _ => fill

/-- The text behind the indentation of the first dash. -/
def Items.body (n : ℕ) : Items → Bytes
  | .last _ item => text "-" ++ item.render n
  | .cons _ item is => text "-" ++ (item.render n ++ (text "\n" ++ is.render n))

theorem Items.render_eq (n : ℕ) (is : Items) :
    is.render n = renderFill is.fill ++ (writeIndent n ++ is.body n) := by
  cases is <;> simp [Items.render, Items.fill, Items.body]

theorem Entries.body_head {n : ℕ} : ∀ {es : Entries}, es.Lexes signed b n →
    ∃ c s, es.body n = c :: s ∧ isStart c = true
  | .last _ key v, h => by
      obtain ⟨c, s, hcs, hc⟩ := h.1.1
      exact ⟨c, _, by rw [Entries.body, hcs]; rfl, hc⟩
  | .cons _ key v es, h => by
      obtain ⟨c, s, hcs, hc⟩ := h.1.1
      exact ⟨c, _, by rw [Entries.body, hcs]; rfl, hc⟩

theorem Items.body_head {n : ℕ} (is : Items) : ∃ c s, is.body n = c :: s ∧ isStart c = true := by
  cases is with
  | last _ item => exact ⟨ch '-', item.render n, rfl, by decide⟩
  | cons _ item is => exact ⟨ch '-', _, rfl, by decide⟩

/-- What the lexer yields behind a value in which up to `k` blocks are open. -/
def Goes (signed : Bool) (b : Behind) (tail : Bytes) (k : ℕ) (S : List ℕ)
    (ts : List Token) : Prop :=
  Follows b tail ∧ ∀ D : List ℕ, (∀ d ∈ D, S.headD 0 < d) → D.length ≤ k →
    Yields (lexNext signed) (.inLine tail (D ++ S))
      (b.ends ++ (List.replicate D.length Token.dedent ++ ts))

theorem Goes.mono {tail : Bytes} {k k' : ℕ} {S : List ℕ} {ts : List Token}
    (h : Goes signed b tail k S ts) (hk : k' ≤ k) : Goes signed b tail k' S ts :=
  ⟨h.1, fun D hD hlen => h.2 D hD (le_trans hlen hk)⟩

/-- In an inner block, there is one `Dedent` more. Kind: L -/
theorem Goes.inner {tail : Bytes} {k m n : ℕ} {S : List ℕ} {ts : List Token}
    (h : Goes signed b tail (k + 1) (m :: S) ts) (hmn : m < n) :
    Goes signed b tail k (n :: m :: S) (.dedent :: ts) := by
  refine ⟨h.1, fun D hD hk => ?_⟩
  have hD' : ∀ d ∈ D ++ [n], m < d := by
    intro d hd
    rw [List.mem_append, List.mem_singleton] at hd
    rcases hd with hd | rfl
    · exact hmn.trans (hD d hd)
    · exact hmn
  have := h.2 (D ++ [n]) hD' (by rw [List.length_append]; exact Nat.succ_le_succ hk)
  rw [List.append_assoc, List.length_append, List.length_singleton, List.replicate_succ'] at this
  simpa using this

/-- Further lines at the level of a block. Kind: L -/
theorem Goes.lines {fs : List Filler} {n : ℕ} {c : UInt8} (hc : isStart c = true) {s : Bytes}
    {S : List ℕ} {ts : List Token}
    (h : Yields (lexNext signed) (.inLine (c :: s) (level n :: S)) ts) :
    Goes signed .lines (text "\n" ++ (renderFill fs ++ (writeIndent n ++ c :: s))) maxClosed
      (level n :: S) ts := by
  refine ⟨⟨_, rfl⟩, fun D hD hclosed => ?_⟩
  exact yields_newline (n := 0) (yields_line hc D hD hclosed h)

/-! ## The tokens of a layout -/

theorem writeIndent_succ (n : ℕ) : writeIndent (n + 1) = ch ' ' :: writeIndent n := rfl

/-- Behind a colon or a dash stands a blank or a line end. Kind: L -/
theorem Node.render_head {outer : ℕ} : ∀ {v : Node}, v.Lexes signed b outer →
    ∃ c s, v.render = c :: s ∧ (c = ch ' ' ∨ c = ch '\n')
  | .scalar gap t _, _ => ⟨ch ' ', writeIndent gap ++ t, rfl, .inl rfl⟩
  | .emptyObject gap, _ => ⟨ch ' ', writeIndent gap ++ text "\x7b\x7d", rfl, .inl rfl⟩
  | .absent _, h => h.elim
  | .mapping 0 n es, _ => ⟨ch '\n', es.render n, rfl, .inr rfl⟩
  | .mapping (gap + 1) n es, _ =>
      ⟨ch ' ', writeIndent gap ++ text "\n" ++ es.render n, rfl, .inl rfl⟩
  | .sequence 0 n is, _ => ⟨ch '\n', is.render n, rfl, .inr rfl⟩
  | .sequence (gap + 1) n is, _ =>
      ⟨ch ' ', writeIndent gap ++ text "\n" ++ is.render n, rfl, .inl rfl⟩

theorem Item.render_head {n : ℕ} : ∀ {item : Item}, item.Lexes signed b n →
    ∃ c s, item.render n = c :: s ∧ (c = ch ' ' ∨ c = ch '\n')
  | .plain _, h => Node.render_head h
  | .single gap key v, _ =>
      ⟨ch ' ', writeIndent gap ++ key.text ++ text ":" ++ v.render, rfl, .inl rfl⟩
  | .compact gap key v es, _ =>
      ⟨ch ' ', writeIndent gap ++ key.text ++ text ":" ++ v.render ++ text "\n" ++
        es.render (n + gap + 2), rfl, .inl rfl⟩

theorem yields_key {key : Key} (hkey : key.Scans signed) {v s : Bytes} {S : List ℕ}
    {ts : List Token} (hv : ∃ c s, v = c :: s ∧ (c = ch ' ' ∨ c = ch '\n'))
    (h : Yields (lexNext signed) (.inLine (v ++ s) S) ts) :
    Yields (lexNext signed) (.inLine (key.text ++ (text ":" ++ (v ++ s))) S)
      (.string key.name :: .colon :: ts) := by
  obtain ⟨c, w, rfl, hc⟩ := hv
  exact ⟨_, hkey.2 c (w ++ s) S hc, yields_colon hc h⟩

theorem yields_blanks_key {key : Key} (hkey : key.Scans signed) {n : ℕ} {s : Bytes} {S : List ℕ}
    {ts : List Token} (h : Yields (lexNext signed) (.inLine (key.text ++ s) S) ts) :
    Yields (lexNext signed) (.inLine (writeIndent n ++ (key.text ++ s)) S) ts := by
  obtain ⟨c, w, hcw, hc⟩ := hkey.1
  obtain ⟨hb, -, hcomment⟩ := isStart_iff.mp hc
  rw [hcw, List.cons_append] at h ⊢
  exact yields_blanks hcomment hb h

theorem yields_scalar {t : Bytes} {token : Token} (hscan : Scans signed b t token) {n : ℕ}
    {tail : Bytes} {S : List ℕ} {ts : List Token} (htail : Follows b tail)
    (h : Yields (lexNext signed) (.inLine tail S) ts) :
    Yields (lexNext signed) (.inLine (writeIndent n ++ (t ++ tail)) S) (token :: ts) := by
  obtain ⟨⟨c, w, rfl, hc⟩, hnext⟩ := hscan
  obtain ⟨hb, -, hcomment⟩ := isStart_iff.mp hc
  have hy : Yields (lexNext signed) (.inLine (c :: w ++ tail) S) (token :: ts) :=
    ⟨_, hnext tail S htail, h⟩
  exact yields_blanks hcomment hb hy

mutual

/-- **A value is lexed as its tokens.** Kind: L -/
theorem yields_node : ∀ (v : Node) (b : Behind) (outer : ℕ) (tail : Bytes) (S : List ℕ)
    (ts : List Token), v.Lexes signed b outer → Goes signed b tail v.opened (level outer :: S) ts →
    Yields (lexNext signed) (.inLine (v.render ++ tail) (level outer :: S)) (v.toks b ts)
  | .scalar gap t token, b, outer, tail, S, ts, h, hgo => by
      rw [Node.render, Node.toks, List.append_assoc]
      exact yields_scalar h hgo.1 (hgo.2 [] (by simp) (Nat.zero_le _))
  | .emptyObject gap, b, outer, tail, S, ts, h, hgo => by
      have hrender : (Node.emptyObject gap).render ++ tail =
          writeIndent (gap + 1) ++ ch '{' :: (ch '}' :: tail) := by
        rw [Node.render, List.append_assoc]
        rfl
      rw [hrender, Node.toks]
      exact yields_blanks (by decide) (by decide)
        (yields_braces (hgo.2 [] (by simp) (Nat.zero_le _)))
  | .absent _, _, _, _, _, _, h, _ => h.elim
  | .mapping gap n es, b, outer, tail, S, ts, h, hgo => by
      obtain ⟨c, s, hbody, hc⟩ := es.body_head h.2
      have hrender : (Node.mapping gap n es).render ++ tail = writeIndent gap ++ ch '\n' ::
          (renderFill es.fill ++ (writeIndent n ++ c :: (s ++ tail))) := by
        rw [Node.render, es.render_eq, hbody]
        simp [text]
      have hentries := yields_entries es b n tail (level outer :: S) (.dedent :: ts) h.2
        (hgo.inner h.1)
      rw [hbody, List.cons_append] at hentries
      rw [hrender, Node.toks]
      exact yields_newline (yields_line_indent hc h.1 hentries)
  | .sequence gap n is, b, outer, tail, S, ts, h, hgo => by
      obtain ⟨c, s, hbody, hc⟩ := is.body_head (n := n)
      have hrender : (Node.sequence gap n is).render ++ tail = writeIndent gap ++ ch '\n' ::
          (renderFill is.fill ++ (writeIndent n ++ c :: (s ++ tail))) := by
        rw [Node.render, is.render_eq, hbody]
        simp [text]
      have hitems := yields_items is b n tail (level outer :: S) (.dedent :: ts) h.2
        (hgo.inner h.1)
      rw [hbody, List.cons_append] at hitems
      rw [hrender, Node.toks]
      exact yields_newline (yields_line_indent hc h.1 hitems)

/-- **The entries of a mapping are lexed as their tokens**, behind the first indentation. Kind: L -/
theorem yields_entries : ∀ (es : Entries) (b : Behind) (n : ℕ) (tail : Bytes) (S : List ℕ)
    (ts : List Token), es.Lexes signed b n → Goes signed b tail es.opened (level n :: S) ts →
    Yields (lexNext signed) (.inLine (es.body n ++ tail) (level n :: S)) (es.toks b ts)
  | .last fill key v, b, n, tail, S, ts, h, hgo => by
      have hbody : (Entries.last fill key v).body n ++ tail =
          key.text ++ (text ":" ++ (v.render ++ tail)) := by
        simp [Entries.body]
      rw [hbody, Entries.toks]
      exact yields_key h.1 (Node.render_head h.2) (yields_node v b n tail S ts h.2 hgo)
  | .cons fill key v es, b, n, tail, S, ts, h, hgo => by
      obtain ⟨c, s, hes, hc⟩ := es.body_head h.2.2.2
      have hentries := yields_entries es b n tail S ts h.2.2.2 hgo
      rw [hes, List.cons_append] at hentries
      have hbody : (Entries.cons fill key v es).body n ++ tail = key.text ++ (text ":" ++
          (v.render ++ (text "\n" ++ (renderFill es.fill ++ (writeIndent n ++ c :: (s ++ tail))))))
            := by
        rw [Entries.body, es.render_eq, hes]
        simp
      rw [hbody, Entries.toks]
      exact yields_key h.1 (Node.render_head h.2.1)
        (yields_node v .lines n _ S _ h.2.1 ((Goes.lines hc hentries).mono h.2.2.1))

/-- **The items of a sequence are lexed as their tokens**, behind the first indentation. Kind: L -/
theorem yields_items : ∀ (is : Items) (b : Behind) (n : ℕ) (tail : Bytes) (S : List ℕ)
    (ts : List Token), is.Lexes signed b n → Goes signed b tail is.opened (level n :: S) ts →
    Yields (lexNext signed) (.inLine (is.body n ++ tail) (level n :: S)) (is.toks b ts)
  | .last fill item, b, n, tail, S, ts, h, hgo => by
      obtain ⟨c, s, hrender, hc⟩ := Item.render_head h
      have hitem := yields_item item b n tail S ts h hgo
      have hbody : (Items.last fill item).body n ++ tail = ch '-' :: c :: (s ++ tail) := by
        rw [Items.body, hrender]
        rfl
      rw [hrender, List.cons_append] at hitem
      rw [hbody, Items.toks]
      exact yields_dash hc hitem
  | .cons fill item is, b, n, tail, S, ts, h, hgo => by
      obtain ⟨c, s, his, hc⟩ := is.body_head (n := n)
      have hitems := yields_items is b n tail S ts h.2.2 hgo
      rw [his, List.cons_append] at hitems
      obtain ⟨c', s', hrender, hc'⟩ := Item.render_head h.1
      have hlines := @Goes.lines signed is.fill n c hc _ S _ hitems
      have hitem := yields_item item .lines n _ S _ h.1 (hlines.mono h.2.1)
      have hbody : (Items.cons fill item is).body n ++ tail = ch '-' :: (item.render n ++
          (text "\n" ++ (renderFill is.fill ++ (writeIndent n ++ c :: (s ++ tail))))) := by
        rw [Items.body, is.render_eq, his]
        simp [text]
      rw [hrender, List.cons_append] at hitem hbody
      rw [hbody, Items.toks]
      exact yields_dash hc' hitem

theorem yields_item : ∀ (item : Item) (b : Behind) (n : ℕ) (tail : Bytes) (S : List ℕ)
    (ts : List Token), item.Lexes signed b n → Goes signed b tail item.opened (level n :: S) ts →
    Yields (lexNext signed) (.inLine (item.render n ++ tail) (level n :: S)) (item.toks b ts)
  | .plain v, b, n, tail, S, ts, h, hgo => yields_node v b n tail S ts h hgo
  | .single gap key v, b, n, tail, S, ts, h, hgo => by
      have hrender : (Item.single gap key v).render n ++ tail = writeIndent (gap + 1) ++
          (key.text ++ (text ":" ++ (v.render ++ tail))) := by
        simp [Item.render]
      rw [hrender, Item.toks]
      exact yields_blanks_key h.1 (yields_key h.1 (Node.render_head h.2)
        (yields_node v b n tail S ts h.2 hgo))
  | .compact gap key v es, b, n, tail, S, ts, h, hgo => by
      obtain ⟨hkey, hscalar, hv, hlevel, hes⟩ := h
      obtain ⟨c, s, hbody, hc⟩ := es.body_head hes
      have hentries := yields_entries es b (n + gap + 2) tail (level n :: S) (.dedent :: ts) hes
        (hgo.inner hlevel)
      rw [hbody, List.cons_append] at hentries
      have hline := yields_newline (n := 0)
        (@yields_line_indent signed es.fill _ c _ _ _ hc _ hlevel hentries)
      have hrender : (Item.compact gap key v es).render n ++ tail = writeIndent (gap + 1) ++
          (key.text ++ (text ":" ++ (v.render ++ (text "\n" ++ (renderFill es.fill ++
            (writeIndent (n + gap + 2) ++ c :: (s ++ tail))))))) := by
        rw [Item.render, es.render_eq, hbody]
        simp
      rw [hrender, Item.toks]
      refine yields_blanks_key hkey (yields_key hkey (Node.render_head hv) ?_)
      cases v with
      | scalar g t token =>
          rw [Node.render, Node.toks, List.append_assoc]
          exact yields_scalar hv ⟨_, rfl⟩ hline
      | _ => cases hscalar

end

/-! ## Documents -/

/-- What the root of a document has to be. -/
def Node.LexesDocument (signed : Bool) (b : Behind) : Node → Prop
  | .scalar _ t token => Scans signed b t token
  | .mapping _ n es => es.Lexes signed b n
  | .sequence _ n is => is.Lexes signed b n
  | _ => False

/-- What stands behind a document. -/
def behindOf (tail : Option (List Filler)) : Behind := if tail.isSome then .lineEnd else .nothing

def renderTail (tail : Option (List Filler)) : Bytes :=
  tail.elim [] fun fill => text "\n" ++ renderFill fill

theorem skipEmptyLines_renderFill (fs : List Filler) : skipEmptyLines (renderFill fs) = [] := by
  have h := skipEmptyLines_fill fs []
  rwa [List.append_nil] at h

/-- Behind a document all blocks are closed. Kind: L -/
theorem goes_tail (tail : Option (List Filler)) (k : ℕ) :
    Goes signed (behindOf tail) (renderTail tail) k [level 0] [.eof, .eof] := by
  cases tail with
  | none => exact ⟨rfl, fun D _ _ => yields_atEnd D rfl rfl rfl rfl⟩
  | some fill =>
      refine ⟨⟨_, rfl⟩, fun D _ _ => ?_⟩
      have hend : Yields (lexNext signed) (.atLine (renderFill fill) (D ++ [level 0]))
          (List.replicate D.length Token.dedent ++ [Token.eof, Token.eof]) :=
        yields_atEnd D rfl rfl rfl (skipEmptyLines_renderFill fill)
      exact yields_newline (n := 0) hend

theorem level_pos {n : ℕ} (hn : n ≠ 0) : level 0 < level n := by
  unfold level maxIndent
  omega

/-- **A document is lexed as its tokens.** Kind: P -/
theorem yields_document (tail : Option (List Filler)) {v : Node}
    (h : v.LexesDocument signed (behindOf tail)) :
    Yields (lexNext signed) (Lexer.init (v.document tail)) (v.docToks (behindOf tail)) := by
  have hgo := fun k => @goes_tail signed tail k
  cases v with
  | scalar gap t token =>
      obtain ⟨c, s, hcs, hc⟩ := h.1
      have hy : Yields (lexNext signed) (.inLine (c :: (s ++ renderTail tail)) [level 0])
          (token :: ((behindOf tail).ends ++ [Token.eof, Token.eof])) := by
        have := yields_scalar (n := 0) h (hgo 0).1 ((hgo 0).2 [] (by simp) (Nat.zero_le _))
        rw [hcs] at this
        exact this
      have hdoc : (Node.scalar gap t token).document tail =
          renderFill [] ++ (writeIndent 0 ++ c :: (s ++ renderTail tail)) := by
        rw [Node.document, hcs]
        rfl
      rw [hdoc, Node.docToks]
      exact yields_line_same (n := 0) hc hy
  | emptyObject gap => exact h.elim
  | absent gap => exact h.elim
  | mapping gap n es =>
      obtain ⟨c, s, hbody, hc⟩ := es.body_head h
      have hdoc : (Node.mapping gap n es).document tail =
          renderFill es.fill ++ (writeIndent n ++ c :: (s ++ renderTail tail)) := by
        simp only [Node.document, es.render_eq, hbody, List.append_assoc]
        rfl
      rw [hdoc, Node.docToks]
      by_cases hn : n = 0
      · subst hn
        rw [if_pos rfl]
        have hentries := yields_entries es _ 0 _ [] _ h (hgo _)
        rw [hbody] at hentries
        exact yields_line_same (n := 0) hc hentries
      · rw [if_neg hn]
        have hentries := yields_entries es _ n _ [level 0] _ h ((hgo _).inner (level_pos hn))
        rw [hbody] at hentries
        exact yields_line_indent hc (level_pos hn) hentries
  | sequence gap n is =>
      obtain ⟨c, s, hbody, hc⟩ := is.body_head (n := n)
      have hdoc : (Node.sequence gap n is).document tail =
          renderFill is.fill ++ (writeIndent n ++ c :: (s ++ renderTail tail)) := by
        simp only [Node.document, is.render_eq, hbody, List.append_assoc]
        rfl
      rw [hdoc, Node.docToks]
      by_cases hn : n = 0
      · subst hn
        rw [if_pos rfl]
        have hitems := yields_items is _ 0 _ [] _ h (hgo _)
        rw [hbody] at hitems
        exact yields_line_same (n := 0) hc hitems
      · rw [if_neg hn]
        have hitems := yields_items is _ n _ [level 0] _ h ((hgo _).inner (level_pos hn))
        rw [hbody] at hitems
        exact yields_line_indent hc (level_pos hn) hitems

end CxyCompiler.Stdlib.Yaml
