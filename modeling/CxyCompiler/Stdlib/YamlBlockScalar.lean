import CxyCompiler.Stdlib.YamlBalance

/-!
# Block scalars of YAML (`stdlib/yaml/lexer.cxy`)

The lines of a block scalar are read without their indentation, which is the one of the first line,
and joined as its style says. The line behind it is found by its smaller indentation, which is then
gone.

* `BlockLine`, `BlockScalar` — what is written; `BlockScalar.value` — what it says.
* `SameTokens` — two states from which the calls return the same tokens.
* `BlockScalar.Right` — **the value is read, and the tokens behind it are those behind a plain
  scalar**.
* `readBlockLines_lines` — a run over the lines; `gather_true` — what it puts together.
* `BlockScalar.Fine` — how a block scalar is written that is read as it should be.
* `right_of_fine`, `fine_of_right`, `right_iff_fine` — **those and no others are**.
-/

namespace CxyCompiler.Stdlib.Yaml

variable {signed : Bool}

/-! ## What is written -/

/-- Source: `lexer.cxy` `_readBlockScalar`, `style`. -/
inductive BlockStyle
  | literal
  | folded
  deriving DecidableEq

/-- Source: `lexer.cxy` `_readBlockScalar`, `chomp`. -/
inductive Chomp
  | clip
  | strip
  | keep
  deriving DecidableEq

def BlockStyle.indicator : BlockStyle → UInt8
  | .literal => ch '|'
  | .folded => ch '>'

def Chomp.indicator : Chomp → Bytes
  | .clip => []
  | .strip => [ch '-']
  | .keep => [ch '+']

/-- A line of nothing but spaces, not more than the indentation, or what stands behind the
indentation, with its further spaces. -/
inductive BlockLine
  | blank (spaces : ℕ)
  | text (t : Bytes)

namespace BlockLine

def Fits (width : ℕ) : BlockLine → Prop
  | blank n => n ≤ width
  | text t => t ≠ [] ∧ ch '\n' ∉ t

def render (width : ℕ) : BlockLine → Bytes
  | blank n => writeIndent n
  | text t => writeIndent width ++ t

/-- The line without the indentation. -/
def content : BlockLine → Bytes
  | blank _ => []
  | text t => t

def isText : BlockLine → Bool
  | blank _ => false
  | text _ => true

end BlockLine

/-- A block scalar below a key, in front of whose line `levels` are open. The last line has a line
end and `tail` behind it, or is the end of the text. What follows the block scalar is at an outer
indentation; it may be nothing but blanks, which are no line as no line end is behind them. -/
structure BlockScalar where
  levels : List ℕ
  style : BlockStyle
  chomp : Chomp
  width : ℕ
  lines : List BlockLine
  tail : Option Bytes
  deeper : levels.headD 0 < width
  fits : ∀ l ∈ lines, l.Fits width
  lastIsText : tail = none → ∀ l ∈ lines.getLast?, l.isText = true
  follows : ∀ s ∈ tail, (∃ n ≤ width, s = writeIndent n) ∨
    ∃ n c r, s = writeIndent n ++ c :: r ∧ n ≤ levels.headD 0 ∧ c ≠ ch ' ' ∧ c ≠ ch '\n'

/-- The lines, each behind a line end. -/
def renderLines (width : ℕ) (ls : List BlockLine) : Bytes :=
  ls.flatMap fun l => ch '\n' :: l.render width

/-! ## What it says -/

/-- A line break between two lines of text is a space, and an empty line a line break. -/
def fold : List BlockLine → Bytes
  | [] => []
  | .blank _ :: ls => ch '\n' :: fold ls
  | .text t :: ls => t ++ ((if (ls.head?.any BlockLine.isText) = true then [ch ' '] else []) ++
      fold ls)

def BlockStyle.join : BlockStyle → List BlockLine → Bytes
  | .literal, ls => [ch '\n'].intercalate (ls.map BlockLine.content)
  | .folded, ls => fold ls

/-- The text without the line ends at its end. -/
def stripped (s : Bytes) : Bytes := s.rdropWhile (· = ch '\n')

namespace BlockScalar

/-- What stands behind the last line. -/
def behind (b : BlockScalar) : Bytes := b.tail.elim [] (ch '\n' :: ·)

def render (b : BlockScalar) : Bytes :=
  b.style.indicator :: (b.chomp.indicator ++ (renderLines b.width b.lines ++ b.behind))

/-- The lexer in front of the block scalar, behind the colon of the key. -/
def lexer (b : BlockScalar) : Lexer := .inLine (ch ' ' :: b.render) b.levels

/-- The lexer behind a plain scalar that stands in place of the block scalar. -/
def behindPlain (b : BlockScalar) : Lexer := .inLine b.behind b.levels

/-- **The value of a block scalar**: its lines without the indentation, joined, and as many line
ends as the indicator says. -/
def value (b : BlockScalar) : Bytes :=
  let joined := b.style.join b.lines
  match b.chomp with
  | .strip => stripped joined
  | .clip => if stripped joined = [] then [] else stripped joined ++ [ch '\n']
  | .keep =>
      if b.lines.any BlockLine.isText then joined ++ if b.tail.isSome then [ch '\n'] else []
      else List.replicate b.lines.length (ch '\n')

end BlockScalar

/-! ## Calls with the same tokens -/

/-- The calls return the same tokens. -/
def SameTokens (signed : Bool) (lx lx' : Lexer) : Prop :=
  ∀ ts, (∃ lx₁, Returns signed lx ts lx₁) ↔ ∃ lx₁, Returns signed lx' ts lx₁

/-- **A block scalar is read as it should be**: the next token is its value, and the tokens behind
it are those that follow a plain scalar in its place. -/
def BlockScalar.Right (signed : Bool) (b : BlockScalar) : Prop :=
  ∃ lx, b.lexer.call signed = .token (.string b.value) lx ∧ SameTokens signed lx b.behindPlain

section

variable {lx lx' lx₁ lx₁' : Lexer} {t : Token}

/-- Two lexers with one token and alike behind it. Kind: L -/
theorem SameTokens.of_call (h : lx.call signed = .token t lx₁)
    (h' : lx'.call signed = .token t lx₁')
    (hsame : SameTokens signed lx₁ lx₁') : SameTokens signed lx lx' := by
  have hstep : ∀ {lx lx' lx₁ lx₁' : Lexer}, lx.call signed = .token t lx₁ →
    lx'.call signed = .token t lx₁' →
      SameTokens signed lx₁ lx₁' → ∀ ts, (∃ lx₂, Returns signed lx ts lx₂) →
      ∃ lx₂, Returns signed lx' ts lx₂ := by
    rintro lx lx' lx₁ lx₁' h h' hsame ts ⟨lx₂, hrun⟩
    cases hrun with
    | nil => exact ⟨lx', .nil⟩
    | cons hcall hs =>
        rw [h] at hcall
        cases hcall
        obtain ⟨lx₃, hs'⟩ := (hsame _).mp ⟨lx₂, hs⟩
        exact ⟨lx₃, .cons h' hs'⟩
  exact fun ts => ⟨hstep h h' hsame ts, hstep h' h (fun us => (hsame us).symm) ts⟩

theorem SameTokens.of_eq (h : lx.call signed = lx'.call signed) : SameTokens signed lx lx' := by
  have hstep : ∀ {lx lx' : Lexer}, lx.call signed = lx'.call signed → ∀ ts,
      (∃ lx₂, Returns signed lx ts lx₂) → ∃ lx₂, Returns signed lx' ts lx₂ := by
    rintro lx lx' h ts ⟨lx₂, hrun⟩
    cases hrun with
    | nil => exact ⟨lx', .nil⟩
    | cons hcall hs => exact ⟨lx₂, .cons (h ▸ hcall) hs⟩
  exact fun ts => ⟨hstep h ts, hstep h.symm ts⟩

theorem SameTokens.call (hsame : SameTokens signed lx lx') (h : lx'.call signed = .token t lx₁') :
    ∃ lx₁, lx.call signed = .token t lx₁ := by
  obtain ⟨lx₂, hrun⟩ := (hsame [t]).mpr ⟨lx₁', .cons h .nil⟩
  cases hrun with
  | cons hcall _ => exact ⟨_, hcall⟩

end

/-! ## The fuel of a call -/

/-- A scan goes on only with shorter texts. Kind: L -/
theorem scanToken_congr {again again' : Lexer → Lexed} {lx : Lexer}
    (h : ∀ (r : Bytes) (a : Bool), r.length < lx.rest.length →
      again { lx with rest := r, atLineStart := a } =
        again' { lx with rest := r, atLineStart := a }) :
    scanToken signed again lx = scanToken signed again' lx := by
  unfold scanToken
  dsimp only
  rcases hbody : lx.rest.dropWhile isBlank with _ | ⟨c, s⟩
  · rfl
  · have hlen : (c :: s).length ≤ lx.rest.length := by
      rw [← hbody]
      exact (List.dropWhile_suffix isBlank).length_le
    dsimp only
    by_cases hnewline : c = ch '\n'
    · rw [if_pos hnewline, if_pos hnewline, h s true hlen]
    rw [if_neg hnewline, if_neg hnewline]
    by_cases hcomment : c = ch '#'
    · rw [if_pos hcomment, if_pos hcomment]
      have hskip : skipComment (c :: s) = skipComment s :=
        List.dropWhile_cons_of_pos (by simpa using hnewline)
      rw [hskip]
      exact h _ lx.atLineStart (lt_of_le_of_lt (skipComment_length s) hlen)
    rw [if_neg hcomment, if_neg hcomment]

/-- Rounds beyond the length of the text change nothing. Kind: L -/
theorem nextToken_fuel (n : ℕ) : ∀ {m : ℕ} {lx : Lexer}, lx.rest.length < n → lx.rest.length < m →
    nextToken signed n lx = nextToken signed m lx := by
  induction n with
  | zero => intro m lx hn; exact absurd hn (Nat.not_lt_zero _)
  | succ n ih =>
      intro m lx hn hm
      obtain ⟨m, rfl⟩ : ∃ k, m = k + 1 := ⟨m - 1, by omega⟩
      -- the calls within this one are behind a character
      have hscan : ∀ r : Bytes, ∀ a : Bool, r.length ≤ lx.rest.length →
          scanToken signed (nextToken signed n) { lx with rest := r, atLineStart := a } =
            scanToken signed (nextToken signed m) { lx with rest := r, atLineStart := a } := by
        intro r a hr
        apply scanToken_congr
        intro r' a' hr'
        exact ih (lt_of_lt_of_le hr' (by dsimp only; omega))
          (lt_of_lt_of_le hr' (by dsimp only; omega))
      rw [nextToken, nextToken]
      by_cases hline : lx.atLineStart = true
      · have hskip := skipEmptyLines_length lx.rest
        have hmeasure := measureIndent_length maxIndent (skipEmptyLines lx.rest)
        simp only [hline, if_true, Bool.true_and, Lexer.indentTo]
        rw [hscan _ _ (le_trans hmeasure hskip), hscan _ _ hskip]
      · simp only [hline, Bool.false_eq_true, if_false, Bool.false_and]
        rw [hscan lx.rest lx.atLineStart (le_refl _)]

/-! ## The lines -/

/-- The measure of spaces in front of something else. Kind: L -/
theorem measureIndent_spaces {s : Bytes} (hs : s.head? ≠ some (ch ' ')) : ∀ max n : ℕ,
    measureIndent max (writeIndent n ++ s) =
      (min n max, writeIndent (n - max) ++ s, decide (n < max ∧ s.head? = some (ch '\t'))) := by
  intro max
  induction max with
  | zero => intro n; simp [measureIndent]
  | succ max ih =>
      intro n
      cases n with
      | succ n =>
          have hcons : writeIndent (n + 1) ++ s = ch ' ' :: (writeIndent n ++ s) := rfl
          rw [hcons, measureIndent, if_pos rfl, ih, Nat.succ_sub_succ, Nat.succ_min_succ]
          simp only [Nat.succ_lt_succ_iff]
      | zero =>
          rcases s with _ | ⟨c, s⟩
          · simp [measureIndent, writeIndent]
          · have hc : c ≠ ch ' ' := fun h => hs (by rw [h]; rfl)
            have hcons : writeIndent 0 ++ c :: s = c :: s := rfl
            rw [hcons, measureIndent, if_neg hc]
            simp [writeIndent]

/-- No more than the indentation is measured. Kind: L -/
theorem measureIndent_full (n : ℕ)
    (s : Bytes) : measureIndent n (writeIndent n ++ s) = (n, s, false) := by
  induction n with
  | zero => rfl
  | succ n ih =>
      have hcons : writeIndent (n + 1) ++ s = ch ' ' :: (writeIndent n ++ s) := rfl
      rw [hcons, measureIndent, if_pos rfl, ih]

/-- A text and what stands behind its line. Kind: L -/
theorem takeWhile_line {t s : Bytes} (ht : ch '\n' ∉ t) (hs : s = [] ∨ ∃ r, s = ch '\n' :: r) :
    (t ++ s).takeWhile (· ≠ ch '\n') = t ∧ skipComment (t ++ s) = s := by
  have hall : ∀ c ∈ t, decide (c ≠ ch '\n') = true := by
    intro c hc
    exact decide_eq_true fun h => ht (h ▸ hc)
  unfold skipComment
  rw [List.takeWhile_append_of_pos hall, List.dropWhile_append_of_pos hall]
  rcases hs with rfl | ⟨r, rfl⟩
  · exact ⟨List.append_nil t, rfl⟩
  · rw [List.takeWhile_cons_of_neg (by simp), List.dropWhile_cons_of_neg (by simp), List.append_nil]
    exact ⟨rfl, rfl⟩

/-- What is put in front of a line of text. Source: `lexer.cxy` `_readBlockScalar`. -/
def joiner (style : UInt8) (first : Bool) (acc : Bytes) : Bytes :=
  if first then [] else if style = ch '|' then [ch '\n']
  else if acc = [] || acc.getLast? ≠ some (ch '\n') then [ch ' '] else []

/-- What a line adds, and whether no text has been read. -/
def gather (style : UInt8) (st : Bool × Bytes) : BlockLine → Bool × Bytes
  | .blank _ => (st.1, st.2 ++ [ch '\n'])
  | .text t => (false, st.2 ++ joiner style st.1 st.2 ++ t)

section

variable {style : UInt8} {base fuel : ℕ} {first : Bool} {acc : Bytes}

/-- A line of not more spaces than the indentation. Kind: L -/
theorem readBlockLines_blank {n : ℕ} (hn : n ≤ base) (s : Bytes) :
    readBlockLines style base (fuel + 1) first acc (writeIndent n ++ ch '\n' :: s) =
      readBlockLines style base fuel first (acc ++ [ch '\n']) s := by
  have hmeasure : measureIndent base (writeIndent n ++ ch '\n' :: s) =
    (n, ch '\n' :: s, false) := by
    rw [measureIndent_writeIndent (by decide), Nat.min_eq_left hn, Nat.sub_eq_zero_of_le hn]
    rfl
  rw [readBlockLines, hmeasure, if_neg (by simp)]
  rfl

/-- A line of text, behind what has been measured. Kind: L -/
theorem readBlockLines_of_measured {t r s : Bytes} {n : ℕ} (ht : t ≠ [] ∧ ch '\n' ∉ t)
    (hr : r = [] ∨ ∃ r', r = ch '\n' :: r') (hs : s ≠ [])
    (hmeasure : measureIndent base s = (n, t ++ r, false)) (hn : first = true ∨ base ≤ n) :
    readBlockLines style base (fuel + 1) first acc s =
      readBlockLines style base fuel false (acc ++ joiner style first acc ++ t) r.tail := by
  obtain ⟨hline, hrest⟩ := takeWhile_line ht.2 hr
  have hhead : (t ++ r).head? ≠ some (ch '\n') := by
    obtain ⟨c, t', rfl⟩ := List.exists_cons_of_ne_nil ht.1
    exact fun h => ht.2 (by rw [← Option.some.inj h]; exact List.mem_cons_self)
  have hinside : ¬ (!first && decide (n < base)) = true := by
    rcases hn with rfl | hn
    · simp
    · simp [not_lt.mpr hn]
  rw [readBlockLines, hmeasure, if_neg hs]
  dsimp only
  rw [if_neg Bool.false_ne_true, if_neg hhead, if_neg hinside, hline, hrest]
  rfl

/-- A line of text is joined to what was read. Kind: L -/
theorem readBlockLines_text {t r : Bytes} (ht : t ≠ [] ∧ ch '\n' ∉ t)
    (hr : r = [] ∨ ∃ r', r = ch '\n' :: r') :
    readBlockLines style base (fuel + 1) first acc (writeIndent base ++ t ++ r) =
      readBlockLines style base fuel false (acc ++ joiner style first acc ++ t) r.tail := by
  apply readBlockLines_of_measured ht hr
  · simp [ht.1]
  · rw [List.append_assoc, measureIndent_full]
  · exact .inr (le_refl _)

/-- The block scalar ends in front of a line that is indented less. Kind: L -/
theorem readBlockLines_outer {n : ℕ} (hn : n < base) {c : UInt8} (hc : isBlank c = false)
    (hnewline : c ≠ ch '\n')
    (s : Bytes) : readBlockLines style base (fuel + 1) false acc (writeIndent n ++ c :: s) =
      (some acc, c :: s) := by
  have hmeasure : measureIndent base (writeIndent n ++ c :: s) = (n, c :: s, false) := by
    rw [measureIndent_writeIndent hc, Nat.min_eq_left (le_of_lt hn),
      Nat.sub_eq_zero_of_le (le_of_lt hn)]
    rfl
  rw [readBlockLines, hmeasure, if_neg (by simp)]
  simp [hnewline, hn]

end

theorem renderLines_append (width : ℕ) (ls : List BlockLine) {r : Bytes}
    (hr : r = [] ∨ ∃ r', r = ch '\n' :: r') :
    renderLines width ls ++ r = [] ∨ ∃ s, renderLines width ls ++ r = ch '\n' :: s := by
  rcases ls with _ | ⟨l, ls⟩
  · exact hr
  · exact .inr ⟨_, rfl⟩

/-- **The lines are read one after the other**, up to what stands behind them. Kind: L -/
theorem readBlockLines_lines {style : UInt8} {width : ℕ} {r : Bytes}
    (hr : r = [] ∨ ∃ r', r = ch '\n' :: r')
    (ls : List BlockLine) : ∀ {first : Bool} {acc : Bytes} {fuel : ℕ}, (∀ l ∈ ls, l.Fits width) →
      (r = [] → ∀ l ∈ ls.getLast?, l.isText = true) →
        (renderLines width ls ++ r).tail.length < fuel →
      ∃ fuel', r.tail.length < fuel' ∧
        readBlockLines style width fuel first acc (renderLines width ls ++ r).tail =
          readBlockLines style width fuel' (ls.foldl (gather style) (first, acc)).1
            (ls.foldl (gather style) (first, acc)).2 r.tail := by
  induction ls with
  | nil => intro first acc fuel _ _ hfuel; exact ⟨fuel, hfuel, rfl⟩
  | cons l ls ih =>
      intro first acc fuel hfits hlast hfuel
      obtain ⟨hl, hls⟩ := List.forall_mem_cons.mp hfits
      have hbehind : (renderLines width (l :: ls) ++ r).tail =
        l.render width ++ (renderLines width ls ++ r) :=
        congrArg List.tail (List.append_assoc (ch '\n' :: l.render width) _ _)
      have hlast' : r = [] → ∀ l ∈ ls.getLast?, l.isText = true := by
        intro hnil l' hl'
        refine hlast hnil l' ?_
        rw [List.getLast?_cons, Option.mem_def.mp hl']
        rfl
      have hlines := renderLines_append width ls hr
      rw [hbehind] at hfuel ⊢
      rw [List.length_append] at hfuel
      obtain ⟨fuel, rfl⟩ : ∃ k, fuel = k + 1 := ⟨fuel - 1, by omega⟩
      cases l with
      | blank n =>
          rcases hlines with hnil | ⟨s, hs⟩
          · have hnone : ls = [] := by
              rcases ls with _ | ⟨l, ls⟩
              · rfl
              · cases hnil
            subst hnone
            exact absurd (hlast hnil _ rfl) Bool.false_ne_true
          · have hlen : (renderLines width ls ++ r).tail.length < fuel := by
              rw [hs, List.length_cons] at hfuel
              rw [hs, List.tail_cons]
              omega
            obtain ⟨fuel', hfuel', heq⟩ := @ih first (acc ++ [ch '\n']) fuel hls hlast' hlen
            refine ⟨fuel', hfuel', ?_⟩
            rw [hs] at heq ⊢
            rw [BlockLine.render, readBlockLines_blank hl]
            exact heq
      | text t =>
          have hpos := List.length_pos_iff.mpr hl.1
          have hlen : (renderLines width ls ++ r).tail.length < fuel := by
            rw [BlockLine.render, List.length_append] at hfuel
            rw [List.length_tail]
            omega
          obtain ⟨fuel', hfuel', heq⟩ :=
            @ih false (acc ++ joiner style first acc ++ t) fuel hls hlast' hlen
          refine ⟨fuel', hfuel', ?_⟩
          rw [BlockLine.render, readBlockLines_text hl hlines]
          exact heq

/-! ## What is put together -/

def startsText (ls : List BlockLine) : Bool := ls.head?.any BlockLine.isText

/-- What stands behind a line; whether that is a line of text matters where lines are folded. -/
def BlockStyle.more (style : BlockStyle) (behindText : Bool) (ls : List BlockLine) : Bytes :=
  match style with
  | .literal => ls.flatMap fun l => ch '\n' :: l.content
  | .folded => (if behindText && startsText ls then [ch ' '] else []) ++ fold ls

def endsInText (acc : Bytes) : Bool := acc = [] || acc.getLast? ≠ some (ch '\n')

theorem endsInText_append (acc : Bytes) {t : Bytes}
    (ht : t ≠ [] ∧ ch '\n' ∉ t) : endsInText (acc ++ t) = true := by
  obtain ⟨t', c, rfl⟩ := (List.eq_nil_or_concat t).resolve_left ht.1
  have hc : c ≠ ch '\n' := by
    rintro rfl
    exact ht.2 (by simp)
  simp [endsInText, ← List.append_assoc, hc]

theorem endsInText_newline (acc : Bytes) : endsInText (acc ++ [ch '\n']) = false := by
    simp [endsInText]

theorem joiner_literal (acc : Bytes) : joiner BlockStyle.literal.indicator false acc = [ch '\n'] :=
  rfl

theorem joiner_folded (acc : Bytes) :
    joiner BlockStyle.folded.indicator false acc = if endsInText acc = true then [ch ' ']
      else [] := by
  unfold joiner endsInText BlockStyle.indicator
  rw [if_neg Bool.false_ne_true, if_neg (by decide)]

/-- Behind a line of text, each line is put behind the last one. Kind: L -/
theorem gather_false (style : BlockStyle) (ls : List BlockLine) : ∀ acc : Bytes,
    (∀ l ∈ ls, ∀ t, l = .text t → t ≠ [] ∧ ch '\n' ∉ t) →
    ls.foldl (gather style.indicator) (false, acc) =
      (false, acc ++ style.more (endsInText acc) ls) := by
  induction ls with
  | nil => intro acc _; cases style <;> simp [BlockStyle.more, fold, startsText]
  | cons l ls ih =>
      intro acc hfits
      obtain ⟨hl, hls⟩ := List.forall_mem_cons.mp hfits
      rw [List.foldl_cons]
      cases l with
      | blank n =>
          rw [gather, ih _ hls, endsInText_newline]
          cases style <;> simp [BlockStyle.more, fold, startsText,
            BlockLine.isText, BlockLine.content]
      | text t =>
          have ht := hl t rfl
          rw [gather, ih _ hls, endsInText_append _ ht]
          cases style with
          | literal => simp [joiner_literal, BlockStyle.more, BlockLine.content]
          | folded =>
              rw [joiner_folded]
              simp [BlockStyle.more, fold, startsText, BlockLine.isText]

/-- Behind a line of text the others are joined to it. Kind: L -/
theorem join_text (style : BlockStyle) (t : Bytes) (ls : List BlockLine) :
    style.join (.text t :: ls) = t ++ style.more true ls := by
  cases style with
  | literal =>
      rw [BlockStyle.join, BlockStyle.more, List.map_cons, BlockLine.content]
      induction ls generalizing t with
      | nil => simp
      | cons l ls ih => simpa [List.intercalate_cons_cons] using ih l.content
  | folded => simp [BlockStyle.join, BlockStyle.more, fold, startsText]

/-- A blank line in front is a line end. Kind: L -/
theorem join_blank (style : BlockStyle) (n : ℕ) {ls : List BlockLine} (hls : ls ≠ []) :
    style.join (.blank n :: ls) = ch '\n' :: style.join ls := by
  cases style with
  | literal =>
      rw [BlockStyle.join, List.map_cons, List.intercalate_cons_of_ne_nil (by simpa using hls)]
      rfl
  | folded => rfl

/-- **The lines up to the last text are joined as the style says**; empty lines without a text are
as many line ends. Kind: L -/
theorem gather_true (style : BlockStyle) (ls : List BlockLine) : ∀ acc : Bytes,
    (∀ l ∈ ls, ∀ t, l = .text t → t ≠ [] ∧ ch '\n' ∉ t) →
    ls.foldl (gather style.indicator) (true, acc) =
      if ls.any BlockLine.isText then (false, acc ++ style.join ls)
      else (true, acc ++ List.replicate ls.length (ch '\n')) := by
  induction ls with
  | nil => intro acc _; simp
  | cons l ls ih =>
      intro acc hfits
      obtain ⟨hl, hls⟩ := List.forall_mem_cons.mp hfits
      rw [List.foldl_cons]
      cases l with
      | blank n =>
          rw [gather, ih _ hls]
          by_cases htext : ls.any BlockLine.isText = true
          · have hne : ls ≠ [] := by
              rintro rfl
              cases htext
            simp [htext, BlockLine.isText, join_blank style n hne]
          · simp [htext, BlockLine.isText, List.replicate_succ]
      | text t =>
          have ht := hl t rfl
          rw [gather, gather_false style ls _ hls, endsInText_append _ ht, join_text]
          simp [joiner, BlockLine.isText]

/-! ## The header -/

/-- Source: `lexer.cxy` `_readBlockScalar`, `Step 3`. -/
def Chomp.apply : Chomp → Bytes → Bytes
  | .clip, acc => stripped acc ++ [ch '\n']
  | .strip, acc => stripped acc
  | .keep, acc => acc

/-- Behind the header there is the line end, or nothing. Kind: L -/
theorem readBlockScalar_header (style : UInt8) (chomp : Chomp) {r : Bytes}
    (hr : r = [] ∨ ∃ r', r = ch '\n' :: r') :
    readBlockScalar style (chomp.indicator ++ r) =
      if r.tail = [] then (some (.string []), [])
      else if (measureIndent maxIndent r.tail).2.2 = true then
        (none, (measureIndent maxIndent r.tail).2.1)
      else
        let r := measureIndent maxIndent r.tail
        let r := readBlockLines style r.1 (r.2.1.length + 1) true [] r.2.1
        (r.1.map fun acc => .string (chomp.apply acc), r.2) := by
  have hskip : skipComment r = r := (takeWhile_line (t := []) List.not_mem_nil hr).2
  have hhead : r.head?.filter (fun c => c = ch '-' || c = ch '+') = none := by
    rcases hr with rfl | ⟨r', rfl⟩ <;> rfl
  unfold readBlockScalar
  cases chomp with
  | clip =>
      simp only [Chomp.indicator, List.nil_append, hhead, if_true, hskip]
      rfl
  | strip =>
      have hfilter : (([ch '-'] ++ r).head?.filter fun c => c = ch '-' || c = ch '+') = some
        (ch '-') := rfl
      have htail : ([ch '-'] ++ r).tail = r := rfl
      simp only [Chomp.indicator, hfilter, htail, reduceCtorEq, if_false, if_true, hskip]
      rfl
  | keep =>
      have hfilter : (([ch '+'] ++ r).head?.filter fun c => c = ch '-' || c = ch '+') = some
        (ch '+') := rfl
      have htail : ([ch '+'] ++ r).tail = r := rfl
      have hother : some (ch '+') ≠ some (ch '-') := by decide
      simp only [Chomp.indicator, hfilter, htail, reduceCtorEq, if_false, hother, hskip]
      rfl

namespace BlockScalar

/-- Behind a block scalar is nothing, or a new line. Kind: L -/
theorem behind_cases (b : BlockScalar) : b.behind = [] ∨ ∃ r, b.behind = ch '\n' :: r := by
  unfold behind
  cases b.tail with
  | none => exact .inl rfl
  | some s => exact .inr ⟨s, rfl⟩

/-- What stands behind the header. -/
def body (b : BlockScalar) : Bytes := (renderLines b.width b.lines ++ b.behind).tail

/-- The call that reads a block scalar. Kind: L -/
theorem call_eq (b : BlockScalar) : b.lexer.call signed =
    b.lexer.scanned (readBlockScalar b.style.indicator
      (b.chomp.indicator ++ (renderLines b.width b.lines ++ b.behind))) := by
  have hblank : isBlank (ch ' ') = true := by decide
  unfold Lexer.call lexer render
  rw [nextToken]
  unfold Lexer.inLine
  dsimp only
  rw [if_neg Bool.false_ne_true, if_neg (lt_irrefl 0), if_neg Bool.false_ne_true,
    if_neg (List.cons_ne_nil _ _)]
  dsimp only
  rw [Bool.false_and, if_neg Bool.false_ne_true]
  unfold scanToken
  cases b.style with
  | literal =>
      have hindicator : ¬ isBlank BlockStyle.literal.indicator = true := by decide
      dsimp only
      rw [List.dropWhile_cons_of_pos hblank, List.dropWhile_cons_of_neg hindicator]
      rfl
  | folded =>
      have hindicator : ¬ isBlank BlockStyle.folded.indicator = true := by decide
      dsimp only
      rw [List.dropWhile_cons_of_pos hblank, List.dropWhile_cons_of_neg hindicator]
      rfl

def HasText (b : BlockScalar) : Prop := b.lines.any BlockLine.isText = true

theorem fits_text (b : BlockScalar) : ∀ l ∈ b.lines, ∀ t, l = .text t → t ≠ [] ∧ ch '\n' ∉ t := by
  rintro l hl t rfl
  exact b.fits _ hl

theorem last_of_behind (b : BlockScalar)
    (h : b.behind = []) : ∀ l ∈ b.lines.getLast?, l.isText = true := by
  apply b.lastIsText
  unfold behind at h
  cases htail : b.tail with
  | none => rfl
  | some s =>
      rw [htail] at h
      cases h

/-- A scalar that ends with the text has a line of text. Kind: L -/
theorem hasText_of_behind {b : BlockScalar} (h : b.behind = [])
    (hlines : b.lines ≠ []) : b.HasText := by
  obtain ⟨ls, l, hl⟩ := (List.eq_nil_or_concat b.lines).resolve_left hlines
  have htext := b.last_of_behind h l (by rw [hl]; simp)
  unfold HasText
  rw [hl]
  simp [htext]

end BlockScalar

/-- The first line shows the indentation. -/
def BlockLine.Shows (width : ℕ) : BlockLine → Prop
  | blank n => n = width
  | text t => t.head? ≠ some (ch ' ') ∧ t.head? ≠ some (ch '\t')

/-- **Where the first line shows it, the indentation is taken off each line.** Kind: L -/
theorem readBlockScalar_shown {b : BlockScalar} {l : BlockLine} {ls : List BlockLine}
    (hlines : b.lines = l :: ls)
    (hshows : l.Shows b.width) (hwidth : b.width ≤ maxIndent) :
    ∃ fuel, b.behind.tail.length < fuel ∧
      readBlockScalar b.style.indicator
        (b.chomp.indicator ++ (renderLines b.width b.lines ++ b.behind)) =
        let st := b.lines.foldl (gather b.style.indicator) (true, [])
        let r := readBlockLines b.style.indicator b.width fuel st.1 st.2 b.behind.tail
        (r.1.map fun acc => .string (b.chomp.apply acc), r.2) := by
  have hbehind := b.behind_cases
  have hline := b.fits l (by rw [hlines]; exact List.mem_cons_self)
  have hfits : ∀ l' ∈ ls, l'.Fits b.width :=
    fun l' hl' => b.fits l' (by rw [hlines]; exact List.mem_cons_of_mem _ hl')
  have hlast : b.behind = [] → ∀ l' ∈ ls.getLast?, l'.isText = true := by
    intro hnil l' hl'
    refine b.last_of_behind hnil l' ?_
    rw [hlines, List.getLast?_cons, Option.mem_def.mp hl']
    rfl
  have hrest := renderLines_append b.width ls hbehind
  have hbody : (renderLines b.width b.lines ++ b.behind).tail =
      l.render b.width ++ (renderLines b.width ls ++ b.behind) := by
    rw [hlines]
    exact congrArg List.tail (List.append_assoc (ch '\n' :: l.render b.width) _ _)
  rw [readBlockScalar_header _ _ (renderLines_append b.width b.lines hbehind), hbody]
  cases l with
  | blank n =>
      obtain rfl : n = b.width := hshows
      obtain ⟨s, hs⟩ : ∃ s, renderLines b.width ls ++ b.behind = ch '\n' :: s := by
        apply hrest.resolve_left
        intro hnil
        obtain ⟨hls, hnone⟩ := List.append_eq_nil_iff.mp hnil
        have hempty : ls = [] := by
          rcases ls with _ | ⟨l, ls⟩
          · rfl
          · cases hls
        have htext := b.last_of_behind hnone (.blank b.width) (by rw [hlines, hempty]; rfl)
        cases htext
      have hmeasure : measureIndent maxIndent (writeIndent b.width ++ ch '\n' :: s) =
          (b.width, ch '\n' :: s, false) := by
        rw [measureIndent_writeIndent (by decide), Nat.min_eq_left hwidth,
          Nat.sub_eq_zero_of_le hwidth]
        rfl
      obtain ⟨fuel, hfuel, heq⟩ :=
        @readBlockLines_lines b.style.indicator b.width b.behind hbehind ls true
        ([] ++ [ch '\n']) (s.length + 1) hfits hlast (by rw [hs]; exact Nat.lt_succ_self _)
      refine ⟨fuel, hfuel, ?_⟩
      rw [hs] at heq ⊢
      rw [BlockLine.render, if_neg (by simp), hmeasure, if_neg Bool.false_ne_true]
      dsimp only
      have hfirst := @readBlockLines_blank b.style.indicator b.width (s.length + 1) true [] 0
        (Nat.zero_le _) s
      have hzero : writeIndent 0 ++ ch '\n' :: s = ch '\n' :: s := rfl
      rw [hzero] at hfirst
      rw [List.tail_cons] at heq
      rw [List.length_cons, hfirst, heq, hlines]
      rfl
  | text t =>
      obtain ⟨c, t', rfl⟩ := List.exists_cons_of_ne_nil hline.1
      generalize hr : renderLines b.width ls ++ b.behind = r at hrest hbody ⊢
      have hspace : (c :: t' ++ r).head? ≠ some (ch ' ') := hshows.1
      have htab : (c :: t' ++ r).head? ≠ some (ch '\t') := hshows.2
      have hmeasure : measureIndent maxIndent (writeIndent b.width ++ (c :: t' ++ r)) =
          (b.width, c :: t' ++ r, false) := by
        rw [measureIndent_spaces hspace, Nat.min_eq_left hwidth, Nat.sub_eq_zero_of_le hwidth]
        simp only [htab, and_false, decide_false]
        rfl
      have hagain : measureIndent b.width (c :: t' ++ r) = (0, c :: t' ++ r, false) := by
        have h := measureIndent_spaces hspace b.width 0
        simp only [htab, and_false, decide_false, Nat.zero_min, Nat.zero_sub] at h
        exact h
      obtain ⟨fuel, hfuel, heq⟩ :=
        @readBlockLines_lines b.style.indicator b.width b.behind hbehind ls false
        ([] ++ joiner b.style.indicator true [] ++ c :: t') ((c :: t' ++ r).length) hfits hlast
        (by rw [hr, List.length_tail, List.length_append, List.length_cons]; omega)
      refine ⟨fuel, hfuel, ?_⟩
      rw [hr] at heq
      have hassoc : writeIndent b.width ++ c :: t' ++ r = writeIndent b.width ++ (c :: t' ++ r) :=
        List.append_assoc _ _ _
      rw [BlockLine.render, hassoc, if_neg (by simp), hmeasure, if_neg Bool.false_ne_true]
      dsimp only
      have hne : c :: t' ++ r ≠ [] := List.cons_ne_nil _ _
      rw [readBlockLines_of_measured hline hrest hne hagain (.inl rfl), heq, hlines]
      rfl

/-! ## Where it is read as it should be -/

/-- With a line of text the value is not only line ends. Kind: L -/
theorem join_hasText (style : BlockStyle) {ls : List BlockLine}
    (hls : ls.any BlockLine.isText = true)
    (hfits : ∀ l ∈ ls, ∀ t, l = .text t → t ≠ [] ∧ ch '\n' ∉ t) : stripped
      (style.join ls) ≠ [] := by
  unfold stripped
  rw [ne_eq, List.rdropWhile_eq_nil_iff]
  intro hall
  simp only [decide_eq_true_eq] at hall
  induction ls with
  | nil => cases hls
  | cons l ls ih =>
      obtain ⟨hl, hrest⟩ := List.forall_mem_cons.mp hfits
      cases l with
      | blank n =>
          have hls' : ls.any BlockLine.isText = true := hls
          have hne : ls ≠ [] := by
            rintro rfl
            cases hls'
          rw [join_blank style n hne] at hall
          exact ih hls' hrest fun c hc => hall c (List.mem_cons_of_mem _ hc)
      | text t =>
          obtain ⟨ht, hnewline⟩ := hl t rfl
          obtain ⟨c, t', rfl⟩ := List.exists_cons_of_ne_nil ht
          rw [join_text] at hall
          have hc := hall c (List.mem_append_left _ List.mem_cons_self)
          exact hnewline (by rw [← hc]; exact List.mem_cons_self)

namespace BlockScalar

/-- What the indicator makes of the joined lines is the value. Kind: L -/
theorem apply_eq_value {b : BlockScalar} (htext : b.HasText)
    (hkeep : b.chomp = .keep → b.tail = none) :
    b.chomp.apply (b.style.join b.lines) = b.value := by
  have hne := join_hasText b.style htext b.fits_text
  unfold value
  rw [HasText] at htext
  cases hchomp : b.chomp with
  | clip => simp [Chomp.apply, hne]
  | strip => rfl
  | keep => simp [Chomp.apply, htext, hkeep hchomp]

/-- With a line of text the loop gathers the joined lines. Kind: L -/
theorem gather_hasText {b : BlockScalar} (h : b.HasText) :
    b.lines.foldl (gather b.style.indicator) (true, []) = (false, b.style.join b.lines) := by
  have hgather := gather_true b.style b.lines [] b.fits_text
  unfold HasText at h
  rw [if_pos h] at hgather
  exact hgather

/-- The line behind is a comment, which ends with a line end. -/
def CommentBehind (b : BlockScalar) : Prop :=
  ∃ s ∈ b.tail, (s.dropWhile (· = ch ' ')).head? = some (ch '#') ∧ ch '\n' ∈ s

/-- **How a block scalar is written that is read as it should be**: where it has lines, the first
one shows the indentation, and either it is the end of the text, or a comment is behind it and its
line ends are not kept. -/
def Fine (b : BlockScalar) : Prop :=
  b.lines = [] ∧ b.tail = none ∨
    b.width ≤ maxIndent ∧ (∃ l ∈ b.lines.head?, l.Shows b.width) ∧
      (b.tail = none ∨ b.chomp ≠ .keep ∧ b.HasText ∧ b.CommentBehind)

/-- The line behind a block scalar with a text. Kind: L -/
theorem run_outer {b : BlockScalar} {fuel n : ℕ} {acc s : Bytes} {c : UInt8}
    (hn : n ≤ b.levels.headD 0)
    (hblank : isBlank c = false) (hnewline : c ≠ ch '\n') (hfuel : 0 < fuel) :
    readBlockLines b.style.indicator b.width fuel false acc (writeIndent n ++ c :: s) =
      (some acc, c :: s) := by
  obtain ⟨fuel, rfl⟩ : ∃ k, fuel = k + 1 := ⟨fuel - 1, by omega⟩
  exact readBlockLines_outer (lt_of_le_of_lt hn b.deeper) hblank hnewline s

theorem run_end {style : UInt8} {width fuel : ℕ} {first : Bool} {acc : Bytes} (hfuel : 0 < fuel) :
    readBlockLines style width fuel first acc [] = (some acc, []) := by
  obtain ⟨fuel, rfl⟩ : ∃ k, fuel = k + 1 := ⟨fuel - 1, by omega⟩
  rw [readBlockLines, if_pos rfl]

end BlockScalar

theorem call_newline (s : Bytes) (S : List ℕ) :
    (Lexer.inLine (ch '\n' :: s) S).call signed = .token .newline (.atLine s S) := by
  unfold Lexer.call
  rw [nextToken]
  rfl

/-- A comment up to the end of its line. Kind: L -/
theorem call_comment {s r : Bytes} (hs : skipComment s = ch '\n' :: r) (S : List ℕ) :
    (Lexer.inLine (ch '#' :: s) S).call signed = .token .newline (.atLine r S) := by
  have hskip : skipComment (ch '#' :: s) = ch '\n' :: r := hs
  unfold Lexer.call
  rw [nextToken]
  change scanToken signed (nextToken signed (s.length + 1)) (.inLine (ch '#' :: s) S) = _
  change nextToken signed (s.length + 1) (.inLine (skipComment (ch '#' :: s)) S) = _
  rw [hskip, nextToken]
  rfl

/-- Only what is behind the empty lines matters. Kind: L -/
theorem call_atLine {s s' : Bytes} (S : List ℕ) (h : skipEmptyLines s = skipEmptyLines s') :
    (Lexer.atLine s S).call signed = (Lexer.atLine s' S).call signed := by
  have hstep : ∀ n : ℕ, nextToken signed (n + 1) (.atLine s S) = nextToken signed (n + 1)
    (.atLine s' S) := by
    intro n
    rw [nextToken, nextToken]
    simp only [Lexer.atLine, if_true, h]
    rfl
  unfold Lexer.call
  rw [nextToken_fuel _ (m := max s.length s'.length + 1) (Nat.lt_succ_self _)
    (Nat.lt_succ_of_le (le_max_left _ _)), hstep]
  exact nextToken_fuel _ (Nat.lt_succ_of_le (le_max_right _ _)) (Nat.lt_succ_self _)

theorem skipComment_of_mem {s : Bytes}
    (h : ch '\n' ∈ s) : ∃ t r, s = t ++ ch '\n' :: r ∧ ch '\n' ∉ t ∧
    skipComment s = ch '\n' :: r := by
  obtain ⟨t, r, rfl, ht⟩ := List.eq_append_cons_of_mem h
  exact ⟨t, r, rfl, ht, (takeWhile_line ht (.inr ⟨r, rfl⟩)).2⟩

namespace BlockScalar

/-- **A block scalar that is written so is read as it should be.** Kind: P -/
theorem right_of_fine {b : BlockScalar} (h : b.Fine) : b.Right signed := by
  have hbehind := b.behind_cases
  rcases h with ⟨hlines, htail⟩ | ⟨hwidth, ⟨l, hl, hshows⟩, htail⟩
  · have hnone : b.behind = [] := by
      unfold behind
      rw [htail]
      rfl
    refine ⟨b.behindPlain, ?_, .of_eq rfl⟩
    have hvalue : b.value = [] := by
      unfold value
      rw [hlines]
      cases b.style <;> cases b.chomp <;> rfl
    rw [call_eq, readBlockScalar_header _ _ (renderLines_append _ _ hbehind), hlines, hnone, hvalue]
    unfold behindPlain
    rw [hnone]
    rfl
  · obtain ⟨ls, hlines⟩ := List.head?_eq_some_iff.mp (Option.mem_def.mp hl)
    obtain ⟨fuel, hfuel, hread⟩ := readBlockScalar_shown hlines hshows hwidth
    have hpos : 0 < fuel := lt_of_le_of_lt (Nat.zero_le _) hfuel
    have htext : b.HasText := by
      rcases htail with hnone | ⟨-, htext, -⟩
      · refine hasText_of_behind ?_ ?_
        · unfold behind
          rw [hnone]
          rfl
        · rw [hlines]
          exact List.cons_ne_nil _ _
      · exact htext
    rw [gather_hasText htext] at hread
    rcases htail with hnone | ⟨hkeep, -, s, hs, hcomment, hline⟩
    · have hnothing : b.behind = [] := by
        unfold behind
        rw [hnone]
        rfl
      refine ⟨b.behindPlain, ?_, .of_eq rfl⟩
      have hvalue := apply_eq_value htext fun _ => hnone
      rw [call_eq, hread, hnothing]
      dsimp only
      rw [List.tail_nil, run_end hpos, Option.map_some, hvalue]
      unfold behindPlain
      rw [hnothing]
      rfl
    · have hsome : b.tail = some s := Option.mem_def.mp hs
      have hnewline : b.behind = ch '\n' :: s := by
        unfold behind
        rw [hsome]
        rfl
      have hvalue := apply_eq_value htext fun h => absurd h hkeep
      obtain ⟨n, c, r, rfl, hn, hspace, hc⟩ := (b.follows s hs).resolve_left <| by
        rintro ⟨n, -, rfl⟩
        exact absurd (List.eq_of_mem_replicate hline) (by decide)
      have hdrop : (writeIndent n ++ c :: r).dropWhile (· = ch ' ') = c :: r := by
        rw [List.dropWhile_append_of_pos (fun d hd => decide_eq_true (List.eq_of_mem_replicate hd)),
          List.dropWhile_cons_of_neg (by simpa using hspace)]
      rw [hdrop] at hcomment
      obtain rfl : c = ch '#' := Option.some.inj hcomment
      have hmem : ch '\n' ∈ r := by
        rcases List.mem_append.mp hline with h | h
        · exact absurd (List.eq_of_mem_replicate h) (by decide)
        · exact List.mem_of_ne_of_mem (by decide) h
      obtain ⟨t, r', rfl, ht, hskip⟩ := skipComment_of_mem hmem
      refine ⟨.inLine (ch '#' :: (t ++ ch '\n' :: r')) b.levels, ?_, ?_⟩
      · rw [call_eq, hread, hnewline]
        dsimp only
        rw [List.tail_cons, run_outer hn (by decide) hc hpos, Option.map_some, hvalue]
        rfl
      · unfold behindPlain
        rw [hnewline]
        refine .of_call (call_comment hskip _) (call_newline _ _) (.of_eq (call_atLine _ ?_))
        have hblank : ∀ d ∈ writeIndent n, isBlank d = true := by
          intro d hd
          rw [List.eq_of_mem_replicate hd]
          exact isBlank_space
        have hhash : ¬ isBlank (ch '#') = true := by decide
        unfold skipEmptyLines
        rw [skipLine_blanks _ _ _ hblank, skipLine, if_neg hc, if_neg Bool.false_ne_true,
          if_neg hhash, if_pos rfl]
        rw [skipLine_comment _ _ _ ht]
        rfl

end BlockScalar

/-! ## Where it is not -/

/-- The loop only appends to what was read. Kind: L -/
theorem readBlockLines_extends (style : UInt8) (base fuel : ℕ) : ∀ (first : Bool) (acc s v : Bytes),
    (readBlockLines style base fuel first acc s).1 = some v → ∃ more, v = acc ++ more := by
  induction fuel with
  | zero => intro first acc s v h; exact ⟨[], by
      rw [List.append_nil]; exact (Option.some.inj h).symm⟩
  | succ fuel ih =>
      intro first acc s v h
      have hend : ∀ {o : Option Bytes}, o = some acc → o = some v → ∃ more, v = acc ++ more := by
        rintro o rfl hv
        exact ⟨[], by rw [List.append_nil]; exact (Option.some.inj hv).symm⟩
      rw [readBlockLines] at h
      dsimp only at h
      by_cases hs : s = []
      · rw [if_pos hs] at h
        exact hend rfl h
      rw [if_neg hs] at h
      by_cases htab : (measureIndent base s).2.2 = true
      · rw [if_pos htab] at h
        cases h
      rw [if_neg htab] at h
      by_cases hblank : (measureIndent base s).2.1.head? = some (ch '\n')
      · rw [if_pos hblank] at h
        obtain ⟨more, rfl⟩ := ih _ _ _ _ h
        exact ⟨_, List.append_assoc _ _ _⟩
      rw [if_neg hblank] at h
      by_cases hout : (!first && decide ((measureIndent base s).1 < base)) = true
      · rw [if_pos hout] at h
        exact hend rfl h
      · rw [if_neg hout] at h
        obtain ⟨more, rfl⟩ := ih _ _ _ _ h
        exact ⟨_, by rw [List.append_assoc, List.append_assoc]⟩

/-- The first line with a text is read, wherever it begins. Kind: L -/
theorem readBlockLines_first {style : UInt8} {base fuel k : ℕ} {acc r v : Bytes} {c : UInt8}
    (hc : c ≠ ch ' ')
    (hnewline : c ≠ ch '\n')
    (h : (readBlockLines style base (fuel + 1) true acc (writeIndent k ++ c :: r)).1 = some v) :
    ∃ more, v = acc ++ (writeIndent (k - base) ++ c :: more) := by
  have hspace : (c :: r).head? ≠ some (ch ' ') := fun h => hc (Option.some.inj h)
  have hline : ch '\n' ∉ writeIndent (k - base) ++ c :: r.takeWhile (· ≠ ch '\n') := by
    intro hmem
    rcases List.mem_append.mp hmem with hmem | hmem
    · exact absurd (List.eq_of_mem_replicate hmem) (by decide)
    · rcases List.mem_cons.mp hmem with hmem | hmem
      · exact hnewline hmem.symm
      · simpa using List.mem_takeWhile_imp hmem
  have hsplit : writeIndent (k - base) ++ c :: r =
      (writeIndent (k - base) ++ c :: r.takeWhile (· ≠ ch '\n')) ++ skipComment r := by
    rw [List.append_assoc, List.cons_append]
    exact congrArg (fun s => writeIndent (k - base) ++ c :: s)
      (List.takeWhile_append_dropWhile).symm
  have hrest : skipComment r = [] ∨ ∃ r', skipComment r = ch '\n' :: r' := by
    rcases hr : skipComment r with _ | ⟨d, r'⟩
    · exact .inl rfl
    · have hhead := List.head?_dropWhile_not (fun c => decide (c ≠ ch '\n')) r
      unfold skipComment at hr
      rw [hr] at hhead
      have hd : d = ch '\n' := by simpa using hhead
      exact .inr ⟨r', by rw [hd]⟩
  by_cases htab : k < base ∧ (c :: r).head? = some (ch '\t')
  · rw [readBlockLines, measureIndent_spaces hspace, if_neg (by simp),
      if_pos (decide_eq_true htab)] at h
    cases h
  · have hmeasure := measureIndent_spaces hspace base k
    rw [decide_eq_false htab, hsplit] at hmeasure
    rw [readBlockLines_of_measured ⟨by simp, hline⟩ hrest (by simp) hmeasure (.inl rfl)] at h
    obtain ⟨more, rfl⟩ := readBlockLines_extends _ _ _ _ _ _ _ h
    refine ⟨r.takeWhile (· ≠ ch '\n') ++ more, ?_⟩
    simp [joiner]

/-- Nothing is left of blanks at the end of the text. Kind: L -/
theorem run_blanks {style : UInt8} {base fuel n : ℕ} {first : Bool} {acc : Bytes}
    (hfuel : n < fuel) :
    (readBlockLines style base fuel first acc (writeIndent n)).2 = [] := by
  obtain ⟨fuel, rfl⟩ : ∃ k, fuel = k + 1 := ⟨fuel - 1, by omega⟩
  have hmeasure : measureIndent base (writeIndent n) =
    (min n base, writeIndent (n - base), false) := by
    have h := measureIndent_spaces (s := []) (by simp) base n
    simpa using h
  have hhead : (writeIndent (n - base)).head? ≠ some (ch '\n') := fun h =>
    absurd (List.eq_of_mem_replicate (List.mem_of_head? h)) (by decide)
  have hline : skipComment (writeIndent (n - base)) = [] := by
    have hall := (takeWhile_line (t := writeIndent (n - base)) (s := [])
      (fun h => absurd (List.eq_of_mem_replicate h) (by decide)) (.inl rfl)).2
    rwa [List.append_nil] at hall
  by_cases hnil : writeIndent n = []
  · rw [hnil, readBlockLines, if_pos rfl]
  rw [readBlockLines, if_neg hnil, hmeasure]
  dsimp only
  rw [if_neg Bool.false_ne_true, if_neg hhead]
  by_cases hout : (!first && decide (min n base < base)) = true
  · have hless : min n base < base := of_decide_eq_true (Bool.and_eq_true_iff.mp hout).2
    rw [if_pos hout, Nat.sub_eq_zero_of_le (by omega)]
    rfl
  · rw [if_neg hout, hline]
    cases fuel with
    | zero => rfl
    | succ fuel => rw [List.tail_nil, readBlockLines, if_pos rfl]

/-- The characters but the line ends. -/
def inked (s : Bytes) : ℕ := s.countP (· ≠ ch '\n')

theorem inked_append (s s' : Bytes) : inked (s ++ s') = inked s + inked s' := List.countP_append

theorem inked_newline (n : ℕ) : inked (List.replicate n (ch '\n')) = 0 := by
  unfold inked
  rw [List.countP_eq_zero]
  intro c hc
  simp [List.eq_of_mem_replicate hc]

theorem inked_line {t : Bytes} (ht : ch '\n' ∉ t) : inked t = t.length := by
  unfold inked
  rw [List.countP_eq_length]
  intro c hc
  exact decide_eq_true fun h => ht (h ▸ hc)

theorem inked_joiner (style : UInt8) (first : Bool)
    (acc : Bytes) : inked (joiner style first acc) ≤ 1 := by
  unfold joiner
  split_ifs <;> decide

theorem inked_stripped (s : Bytes) : inked (stripped s) = inked s := by
  unfold stripped
  induction s using List.reverseRecOn with
  | nil => rfl
  | append_singleton s c ih =>
      rw [List.rdropWhile_concat, inked_append]
      by_cases hc : c = ch '\n'
      · rw [if_pos (decide_eq_true hc), ih, hc]
        rfl
      · rw [if_neg (by simpa using hc), inked_append]

/-- What is cut off are line ends. Kind: L -/
theorem inked_apply (chomp : Chomp) (acc : Bytes) : inked (chomp.apply acc) = inked acc := by
  cases chomp with
  | clip =>
      rw [Chomp.apply, inked_append, inked_stripped]
      rfl
  | strip => exact inked_stripped acc
  | keep => rfl

/-- Blank lines have no characters but line ends. Kind: L -/
theorem inked_join (style : BlockStyle) {ls : List BlockLine}
    (h : ls.any BlockLine.isText = false) :
    inked (style.join ls) = 0 := by
  induction ls with
  | nil => cases style <;> rfl
  | cons l ls ih =>
      cases l with
      | text t => cases h
      | blank n =>
          have hls : ls.any BlockLine.isText = false := h
          rcases eq_or_ne ls [] with rfl | hne
          · cases style <;> rfl
          · have happend : ch '\n' :: style.join ls = [ch '\n'] ++ style.join ls := rfl
            rw [join_blank style n hne, happend, inked_append, ih hls]
            rfl

/-- **Where less indentation is taken off than there is, the value has more in it**: `ideal` is what
has been read with the whole indentation, up to the first line that is wider than `base` the same.
 Kind: L -/
theorem readBlockLines_narrow {style : UInt8} {base width : ℕ} {r : Bytes} (hbase : base < width)
    (hr : r = [] ∨ ∃ r', r = ch '\n' :: r')
    (hfollows : (∃ k, r.tail = writeIndent k) ∨
      ∃ k c s, r.tail = writeIndent k ++ c :: s ∧ c ≠ ch ' ' ∧ c ≠ ch '\n')
    (ls : List BlockLine) : ∀ {first : Bool} {acc v : Bytes} {ideal : Bool × Bytes} {fuel : ℕ},
      (∀ l ∈ ls, l.Fits width) → (r = [] → ∀ l ∈ ls.getLast?, l.isText = true) →
      (renderLines width ls ++ r).tail.length < fuel →
      (first = true ∧ ideal = (true, acc) ∨ first = false ∧ inked ideal.2 < inked acc) →
      (readBlockLines style base fuel first acc (renderLines width ls ++ r).tail).1 = some v →
      inked (ls.foldl (gather style) ideal).2 < inked v ∨
        first = true ∧ ls.any BlockLine.isText = false ∧
          (readBlockLines style base fuel first acc (renderLines width ls ++ r).tail).2 = [] := by
  induction ls with
  | nil =>
      intro first acc v ideal fuel _ _ hfuel hstate h
      have hnil : (renderLines width [] ++ r).tail = r.tail := rfl
      rw [hnil] at hfuel h ⊢
      obtain ⟨fuel, rfl⟩ : ∃ k, fuel = k + 1 := ⟨fuel - 1, by omega⟩
      rcases hstate with ⟨rfl, rfl⟩ | ⟨rfl, hless⟩
      · rcases hfollows with ⟨k, hk⟩ | ⟨k, c, s, hs, hspace, hc⟩
        · right
          rw [hk] at hfuel ⊢
          exact ⟨rfl, rfl, run_blanks (lt_of_eq_of_lt List.length_replicate.symm hfuel)⟩
        · left
          rw [hs] at h
          obtain ⟨more, rfl⟩ := readBlockLines_first hspace hc h
          have hink : inked (c :: more) = inked more + 1 :=
            List.countP_cons_of_pos (by simpa using hc)
          rw [inked_append, inked_append, hink]
          change inked acc < _
          omega
      · left
        obtain ⟨more, rfl⟩ := readBlockLines_extends _ _ _ _ _ _ _ h
        rw [inked_append]
        exact lt_of_lt_of_le hless (Nat.le_add_right _ _)
  | cons l ls ih =>
      intro first acc v ideal fuel hfits hlast hfuel hstate h
      obtain ⟨hl, hls⟩ := List.forall_mem_cons.mp hfits
      have hbehind : (renderLines width (l :: ls) ++ r).tail =
        l.render width ++ (renderLines width ls ++ r) :=
        congrArg List.tail (List.append_assoc (ch '\n' :: l.render width) _ _)
      have hlast' : r = [] → ∀ l ∈ ls.getLast?, l.isText = true := by
        intro hnil l' hl'
        refine hlast hnil l' ?_
        rw [List.getLast?_cons, Option.mem_def.mp hl']
        rfl
      have hlines := renderLines_append width ls hr
      rw [hbehind] at hfuel h ⊢
      rw [List.length_append] at hfuel
      obtain ⟨fuel, rfl⟩ : ∃ k, fuel = k + 1 := ⟨fuel - 1, by omega⟩
      -- a line that is wider than `base` is read as a text, with some spaces in front of it
      have hwide : ∀ t : Bytes, t ≠ [] → ch '\n' ∉ t → l.render width = writeIndent base ++ t →
          inked (gather style ideal l).2 < inked (acc ++ joiner style first acc ++ t) →
          inked ((l :: ls).foldl (gather style) ideal).2 < inked v := by
        intro t ht hline hrender hless
        rw [hrender, readBlockLines_text ⟨ht, hline⟩ hlines] at h
        have hpos := List.length_pos_iff.mpr ht
        have hlen : (renderLines width ls ++ r).tail.length < fuel := by
          rw [hrender, List.length_append] at hfuel
          rw [List.length_tail]
          omega
        rcases ih hls hlast' hlen (.inr ⟨rfl, hless⟩) h with hmore | ⟨hfirst, -⟩
        · exact hmore
        · cases hfirst
      have hideal : inked ideal.2 + inked (joiner style ideal.1 ideal.2) ≤ inked acc := by
        rcases hstate with ⟨-, rfl⟩ | ⟨-, hless⟩
        · exact le_of_eq (add_zero _)
        · exact le_trans (Nat.add_le_add_left (inked_joiner _ _ _) _) hless
      have hspaces : ∀ k : ℕ, inked (writeIndent k) = k := by
        intro k
        have hnone : ch '\n' ∉ writeIndent k :=
          fun hc => absurd (List.eq_of_mem_replicate hc) (by decide)
        rw [inked_line hnone]
        exact List.length_replicate
      have hindent : ∀ k : ℕ, writeIndent (base + k) = writeIndent base ++ writeIndent k :=
        fun k => List.replicate_add base k _
      cases l with
      | blank n =>
          by_cases hn : n ≤ base
          · rcases hlines with hnil | ⟨s, hs⟩
            · have hnone : ls = [] := by
                rcases ls with _ | ⟨l, ls⟩
                · rfl
                · cases hnil
              subst hnone
              exact absurd (hlast hnil _ rfl) Bool.false_ne_true
            · rw [hs] at ih hfuel h ⊢
              rw [BlockLine.render, readBlockLines_blank hn] at h ⊢
              rw [List.length_cons] at hfuel
              refine ih hls hlast' (by rw [List.tail_cons]; omega) ?_ h
              rcases hstate with ⟨rfl, rfl⟩ | ⟨rfl, hless⟩
              · exact .inl ⟨rfl, rfl⟩
              · refine .inr ⟨rfl, ?_⟩
                rw [gather, inked_append, inked_append]
                exact Nat.add_lt_add_right hless _
          · left
            obtain ⟨k, rfl⟩ : ∃ k, n = base + (k + 1) := ⟨n - base - 1, by omega⟩
            refine hwide (writeIndent (k + 1)) (List.cons_ne_nil _ _)
              (fun hc => absurd (List.eq_of_mem_replicate hc) (by decide)) (hindent _) ?_
            have hnewline : inked [ch '\n'] = 0 := rfl
            rw [gather, inked_append, inked_append, inked_append, hspaces, hnewline]
            omega
      | text t =>
          left
          obtain ⟨k, rfl⟩ : ∃ k, width = base + (k + 1) := ⟨width - base - 1, by omega⟩
          refine hwide (writeIndent (k + 1) ++ t) (by simp [hl.1]) ?_ ?_ ?_
          · intro hc
            rcases List.mem_append.mp hc with hc | hc
            · exact absurd (List.eq_of_mem_replicate hc) (by decide)
            · exact hl.2 hc
          · rw [BlockLine.render, hindent, List.append_assoc]
          · rw [gather, inked_append, inked_append, inked_append,
              inked_append, inked_append, hspaces]
            omega

/-! ## Where a line ends -/

theorem readQuotedString_string {quote : UInt8} {acc s r : Bytes} {t : Token}
    (h : readQuotedString signed quote acc s = (some t, r)) : ∃ v, t = .string v := by
  fun_induction readQuotedString signed quote acc s
  case case2 => exact ⟨_, (Option.some.inj (Prod.mk.inj h).1).symm⟩
  all_goals first
    | cases h
    | rename_i ih
      exact ih h

theorem readBlockScalar_string {style : UInt8} {s r : Bytes} {t : Token}
    (h : readBlockScalar style s = (some t, r)) : ∃ v, t = .string v := by
  unfold readBlockScalar at h
  dsimp only at h
  generalize (skipComment (if s.head?.filter (fun c => c = ch '-' || c = ch '+') = none then s
    else s.tail)).tail = body at h
  by_cases hempty : body = []
  · rw [if_pos hempty] at h
    exact ⟨_, (Option.some.inj (Prod.mk.inj h).1).symm⟩
  rw [if_neg hempty] at h
  by_cases htab : (measureIndent maxIndent body).2.2 = true
  · rw [if_pos htab] at h
    cases h
  · rw [if_neg htab] at h
    obtain ⟨acc, -, rfl⟩ := Option.map_eq_some_iff.mp (Prod.mk.inj h).1
    exact ⟨_, rfl⟩

theorem classify_ne_newline (acc : Bytes) (n : NumberScan) : classify acc n ≠ some .newline := by
  unfold classify
  split_ifs <;> simp

/-- Only a line end, and a comment in front of one, is a `Newline` token. Kind: L -/
theorem scanToken_newline {again : Lexer → Lexed} {lx' : Lexer} {c : UInt8} {s : Bytes} {S : List ℕ}
    (hblank : isBlank c = false) (hnewline : c ≠ ch '\n') (hcomment : c ≠ ch '#') :
    scanToken signed again (.inLine (c :: s) S) ≠ .token .newline lx' := by
  have hscanned : ∀ o : Option Token × Bytes, o.1 ≠ some .newline →
      (Lexer.inLine (c :: s) S).scanned o ≠ .token .newline lx' := by
    rintro ⟨_ | t, r⟩ ho h
    · cases h
    · cases h
      exact ho rfl
  have hscalar := hscanned (readScalar signed (decide ((0 : ℤ) < 0)) (c :: s))
    (classify_ne_newline _ _)
  have hdrop : (Lexer.inLine (c :: s) S).rest.dropWhile isBlank = c :: s :=
    List.dropWhile_cons_of_neg (by simp [hblank])
  have hflow : decide (0 < (Lexer.inLine (c :: s) S).flowDepth) = false := rfl
  unfold scanToken
  rw [hdrop, hflow]
  dsimp only
  rw [if_neg hnewline, if_neg hcomment]
  by_cases hdash : c = ch '-'
  · rw [if_pos hdash]
    by_cases hdoc : s.take 2 = text "--"
    · rw [if_pos hdoc]
      exact fun h => by cases h
    rw [if_neg hdoc]
    by_cases hitem : (s.head? = some (ch ' ') || s.head? = some (ch '\n')) = true
    · rw [if_pos hitem]
      exact fun h => by cases h
    rw [if_neg hitem]
    exact hscalar
  rw [if_neg hdash]
  by_cases hdot : c = ch '.'
  · rw [if_pos hdot]
    by_cases hdoc : s.take 2 = text ".."
    · rw [if_pos hdoc]
      exact fun h => by cases h
    rw [if_neg hdoc]
    exact hscalar
  rw [if_neg hdot]
  by_cases hcolon : c = ch ':'
  · rw [if_pos hcolon]
    by_cases hkey : (false || decide (s.head? = some (ch ' ')) ||
      decide (s.head? = some (ch '\n'))) = true
    · rw [if_pos hkey]
      exact fun h => by cases h
    rw [if_neg hkey]
    exact hscalar
  rw [if_neg hcolon]
  by_cases hquote : (decide (c = ch '"') || decide (c = ch '\'')) = true
  · rw [if_pos hquote]
    apply hscanned
    intro ho
    obtain ⟨v, hv⟩ := readQuotedString_string (Prod.ext ho rfl)
    cases hv
  rw [if_neg hquote]
  by_cases hopen : (decide (c = ch '{') || decide (c = ch '[')) = true
  · rw [if_pos hopen]
    exact fun h => by cases h
  rw [if_neg hopen]
  by_cases hclose : (decide (c = ch '}') || decide (c = ch ']')) = true
  · rw [if_pos hclose]
    exact fun h => by cases h
  rw [if_neg hclose]
  by_cases hcomma : c = ch ','
  · rw [if_pos hcomma, if_neg Bool.false_ne_true]
    exact hscalar
  rw [if_neg hcomma]
  by_cases hblock : (decide (c = ch '|') || decide (c = ch '>')) = true
  · rw [if_pos hblock]
    apply hscanned
    intro ho
    exact absurd (readBlockScalar_string (Prod.ext ho rfl)) (by simp)
  rw [if_neg hblock]
  have hname : ∀ token : Bytes → Token, (∀ name, token name ≠ .newline) →
      (readName token s).1 ≠ some .newline := by
    intro token htoken ho
    unfold readName at ho
    dsimp only at ho
    split_ifs at ho
    exact htoken _ (Option.some.inj ho)
  by_cases hanchor : c = ch '&'
  · rw [if_pos hanchor]
    exact hscanned _ (hname _ (by simp))
  rw [if_neg hanchor]
  by_cases halias : c = ch '*'
  · rw [if_pos halias]
    exact hscanned _ (hname _ (by simp))
  rw [if_neg halias]
  exact hscalar

theorem call_nil (S : List ℕ) (lx' : Lexer) : (Lexer.inLine [] S).call signed ≠
    .token .newline lx' := by
  unfold Lexer.call
  rw [nextToken]
  unfold Lexer.inLine
  simp only [Bool.false_eq_true, if_false, lt_irrefl, if_true]
  by_cases hlevels : 1 < S.length
  · rw [if_pos hlevels]
    exact fun h => by cases h
  · rw [if_neg hlevels]
    exact fun h => by cases h

/-- A line that a `Newline` token ends has nothing but a comment. Kind: L -/
theorem call_newline_inv {c : UInt8} {s : Bytes} {S : List ℕ} {lx' : Lexer}
    (hblank : isBlank c = false)
    (hnewline : c ≠ ch '\n') (h : (Lexer.inLine (c :: s) S).call signed = .token .newline lx') :
    c = ch '#' ∧ ch '\n' ∈ s := by
  unfold Lexer.call at h
  rw [nextToken] at h
  change scanToken signed (nextToken signed (s.length + 1)) (.inLine (c :: s) S) = _ at h
  by_cases hcomment : c = ch '#'
  · subst hcomment
    refine ⟨rfl, ?_⟩
    by_contra hline
    have hskip : skipComment (ch '#' :: s) = [] := by
      have hall := (takeWhile_line (t := ch '#' :: s) (s := []) (by simp [hline, hnewline.symm])
        (.inl rfl)).2
      rwa [List.append_nil] at hall
    change nextToken signed (s.length + 1) (.inLine (skipComment (ch '#' :: s)) S) = _ at h
    rw [hskip, nextToken_fuel (m := 1) _ (by exact Nat.succ_pos _) (by exact Nat.one_pos)] at h
    exact call_nil S lx' h
  · exact absurd h (scanToken_newline hblank hnewline hcomment)

/-! ## The first character of the value -/

theorem stripped_cons {c : UInt8} (hc : c ≠ ch '\n')
    (s : Bytes) : stripped (c :: s) = c :: stripped s := by
  unfold stripped
  induction s using List.reverseRecOn with
  | nil => rw [List.rdropWhile_singleton, if_neg (by simpa using hc), List.rdropWhile_nil]
  | append_singleton s d ih =>
      rw [← List.cons_append, List.rdropWhile_concat, List.rdropWhile_concat, ih]
      split_ifs <;> rfl

theorem stripped_head {s : Bytes} {c : UInt8}
    (h : (stripped s).head? = some c) : s.head? = some c := by
  obtain ⟨r, hr⟩ := List.rdropWhile_prefix (fun c : UInt8 => decide (c = ch '\n')) s
  obtain ⟨s', hs⟩ := List.head?_eq_some_iff.mp h
  unfold stripped at hs
  rw [← hr, hs]
  rfl

theorem apply_head {chomp : Chomp} {s : Bytes} (h : (chomp.apply s).head? = some (ch ' ')) :
    s.head? = some (ch ' ') := by
  cases chomp with
  | clip =>
      rw [Chomp.apply] at h
      rcases hs : stripped s with _ | ⟨c, r⟩
      · rw [hs] at h
        exact absurd h (by decide)
      · rw [hs] at h
        exact stripped_head (by rw [hs]; exact h)
  | strip => exact stripped_head h
  | keep => exact h

/-- The indentation of a line. -/
def BlockLine.leading (width : ℕ) : BlockLine → ℕ
  | blank n => n
  | text t => width + (t.takeWhile (· = ch ' ')).length

namespace BlockScalar

/-- The value begins as the joined lines do. Kind: L -/
theorem value_head {b : BlockScalar} {c : UInt8} {s : Bytes} (hjoin : b.style.join b.lines = c :: s)
    (hc : c ≠ ch '\n') (htext : b.HasText) : b.value.head? = some c := by
  unfold HasText at htext
  unfold value
  dsimp only
  rw [hjoin, stripped_cons hc]
  cases b.chomp with
  | clip => rfl
  | strip => rfl
  | keep => simp [htext]

/-- The value has the characters that the loop gathers. Kind: L -/
theorem inked_value (b : BlockScalar) :
    inked b.value = inked (b.lines.foldl (gather b.style.indicator) (true, [])).2 := by
  rw [gather_true b.style b.lines [] b.fits_text]
  by_cases htext : b.lines.any BlockLine.isText = true
  · have hjoin : inked b.value = inked (b.style.join b.lines) := by
      have hline : inked [ch '\n'] = 0 := rfl
      unfold value
      cases b.chomp with
      | clip =>
          dsimp only
          rw [if_neg (join_hasText b.style htext b.fits_text), inked_append,
            inked_stripped, hline, add_zero]
      | strip => exact inked_stripped _
      | keep =>
          dsimp only
          rw [if_pos htext, inked_append]
          split_ifs <;> rfl
    rw [if_pos htext, hjoin]
    rfl
  · have hnone : inked b.value = 0 := by
      have hjoin := inked_join b.style (Bool.eq_false_iff.mpr htext)
      unfold value
      cases b.chomp with
      | clip =>
          dsimp only
          split_ifs
          · rfl
          · rw [inked_append, inked_stripped, hjoin]
            rfl
      | strip => exact (inked_stripped _).trans hjoin
      | keep =>
          dsimp only
          rw [if_neg htext]
          exact inked_newline _
    rw [if_neg htext, hnone]
    exact (inked_newline _).symm

/-- A scalar that is read right is one token, and behind it come the tokens of the layout.
Kind: L -/
theorem right_inv {b : BlockScalar} (h : b.Right signed) :
    ∃ r, readBlockScalar b.style.indicator
      (b.chomp.indicator ++ (renderLines b.width b.lines ++ b.behind)) =
      (some (.string b.value), r) ∧ SameTokens signed (.inLine r b.levels) b.behindPlain := by
  obtain ⟨lx, hcall, hsame⟩ := h
  rw [call_eq] at hcall
  generalize readBlockScalar b.style.indicator
    (b.chomp.indicator ++ (renderLines b.width b.lines ++ b.behind)) = o
    at hcall ⊢
  obtain ⟨_ | t, r⟩ := o
  · cases hcall
  · cases hcall
    exact ⟨r, rfl, hsame⟩

/-- Behind the line end there are blanks, or something at an outer indentation. Kind: L -/
theorem follows_tail (b : BlockScalar) : (∃ n, b.behind.tail = writeIndent n) ∨
    ∃ n c s, b.behind.tail = writeIndent n ++ c :: s ∧ c ≠ ch ' ' ∧ c ≠ ch '\n' := by
  unfold behind
  cases htail : b.tail with
  | none => exact .inl ⟨0, rfl⟩
  | some s =>
      rcases b.follows s htail with ⟨n, -, hs⟩ | ⟨n, c, r, hs, -, hc⟩
      · exact .inl ⟨n, hs⟩
      · exact .inr ⟨n, c, r, hs, hc⟩

/-- Where there is a line end behind the block scalar, something else than the end is next.
Kind: L -/
theorem not_same_end {b : BlockScalar} {s : Bytes} (htail : b.tail = some s) :
    ¬ SameTokens signed (.inLine [] b.levels) b.behindPlain := by
  intro hsame
  unfold behindPlain behind at hsame
  rw [htail] at hsame
  obtain ⟨lx₁, hcall⟩ := hsame.call (call_newline s b.levels)
  exact call_nil _ _ hcall

/-- What is read behind the header, where it is not empty. Kind: L -/
theorem right_body {b : BlockScalar} {r : Bytes} (hbody : b.body ≠ [])
    (hread : readBlockScalar b.style.indicator
      (b.chomp.indicator ++ (renderLines b.width b.lines ++ b.behind)) =
      (some (.string b.value), r)) :
    ∃ n s v, measureIndent maxIndent b.body = (n, s, false) ∧
      readBlockLines b.style.indicator n (s.length + 1) true [] s = (some v, r) ∧
        b.chomp.apply v = b.value := by
  unfold body at hbody ⊢
  rw [readBlockScalar_header _ _ (renderLines_append _ _ b.behind_cases), if_neg hbody] at hread
  by_cases htab : (measureIndent maxIndent
    (renderLines b.width b.lines ++ b.behind).tail).2.2 = true
  · rw [if_pos htab] at hread
    cases hread
  · rw [if_neg htab] at hread
    obtain ⟨hvalue, hrest⟩ := Prod.mk.inj hread
    obtain ⟨v, hv, hstring⟩ := Option.map_eq_some_iff.mp hvalue
    refine ⟨_, _, v, Prod.ext rfl (Prod.ext rfl (Bool.eq_false_iff.mpr htab)),
      Prod.ext hv hrest, ?_⟩
    exact Token.string.inj hstring

/-- A text is its indentation and the rest. Kind: L -/
theorem spaces_split (t : Bytes) :
    ∃ u, t = writeIndent (t.takeWhile (· = ch ' ')).length ++ u ∧ u.head? ≠ some (ch ' ') := by
  induction t with
  | nil => exact ⟨[], rfl, by decide⟩
  | cons c t ih =>
      by_cases hc : c = ch ' '
      · obtain ⟨u, hu, hhead⟩ := ih
        refine ⟨u, ?_, hhead⟩
        rw [List.takeWhile_cons_of_pos (by simpa using hc), List.length_cons,
          writeIndent_succ, List.cons_append,
          ← hu, hc]
      · refine ⟨c :: t, ?_, fun h => hc (Option.some.inj h)⟩
        rw [List.takeWhile_cons_of_neg (by simpa using hc)]
        rfl

/-- The first line with a text shows the indentation. Kind: L -/
theorem shows_text {b : BlockScalar} {t r : Bytes} {ls : List BlockLine}
    (hlines : b.lines = .text t :: ls)
    (hleading : b.width + (t.takeWhile (· = ch ' ')).length ≤ maxIndent)
    (hread : readBlockScalar b.style.indicator
      (b.chomp.indicator ++ (renderLines b.width b.lines ++ b.behind)) =
      (some (.string b.value), r)) : BlockLine.Shows b.width (.text t) := by
  obtain ⟨ht, hnewline⟩ := b.fits (.text t) (by rw [hlines]; exact List.mem_cons_self)
  have hbody : b.body = writeIndent b.width ++ (t ++ (renderLines b.width ls ++ b.behind)) := by
    unfold body
    rw [hlines]
    simp [renderLines, BlockLine.render]
  have hrest := renderLines_append b.width ls b.behind_cases
  obtain ⟨n, s, v, hmeasure, hlinesRead, hvalue⟩ := right_body (by rw [hbody]; simp [ht]) hread
  rw [hbody] at hmeasure
  have htext : b.HasText := by
    unfold HasText
    rw [hlines]
    rfl
  constructor
  · intro hhead
    obtain ⟨u, hu, hspace⟩ := spaces_split t
    obtain ⟨t', hhead'⟩ := List.head?_eq_some_iff.mp hhead
    generalize (t.takeWhile (· = ch ' ')).length = k at hleading hu
    have hrender : writeIndent b.width ++ (t ++ (renderLines b.width ls ++ b.behind)) =
        writeIndent (b.width + k) ++ (u ++ (renderLines b.width ls ++ b.behind)) := by
      conv_lhs => rw [hu]
      rw [writeIndent, writeIndent, writeIndent, List.replicate_add]
      simp only [List.append_assoc]
    have hspace' : (u ++ (renderLines b.width ls ++ b.behind)).head? ≠ some (ch ' ') := by
      rcases u with _ | ⟨c, u⟩
      · rcases hrest with hnil | ⟨s', hs'⟩
        · rw [hnil]
          decide
        · rw [hs']
          exact fun h => absurd (Option.some.inj h) (by decide)
      · exact hspace
    rw [hrender, measureIndent_spaces hspace', Nat.min_eq_left hleading,
      Nat.sub_eq_zero_of_le hleading] at hmeasure
    obtain ⟨rfl, hpair⟩ := Prod.mk.inj hmeasure
    obtain ⟨rfl, -⟩ := Prod.mk.inj hpair
    have hzero : ∀ s, writeIndent 0 ++ s = s := fun _ => rfl
    rw [hzero] at hlinesRead
    -- what is read does not begin with a space
    have hread' : v.head? ≠ some (ch ' ') := by
      rcases hbehind : u ++ (renderLines b.width ls ++ b.behind) with _ | ⟨c, s'⟩
      · rw [hbehind, run_end (Nat.succ_pos _)] at hlinesRead
        rw [← Option.some.inj (Prod.mk.inj hlinesRead).1]
        decide
      · rw [hbehind] at hspace' hlinesRead
        by_cases hc : c = ch '\n'
        · subst hc
          rw [← hzero (ch '\n' :: s'), readBlockLines_blank (Nat.zero_le _)] at hlinesRead
          obtain ⟨more, rfl⟩ := readBlockLines_extends _ _ _ _ _ _ _ (congrArg Prod.fst hlinesRead)
          exact fun h => absurd (Option.some.inj h) (by decide)
        · rw [← hzero (c :: s')] at hlinesRead
          have hcspace : c ≠ ch ' ' := fun h => hspace' (by rw [h]; rfl)
          obtain ⟨more, rfl⟩ := readBlockLines_first hcspace hc (congrArg Prod.fst hlinesRead)
          rw [Nat.zero_sub]
          exact fun h => hcspace (Option.some.inj h)
    have hjoin : b.style.join b.lines = ch ' ' :: (t' ++ b.style.more true ls) := by
      rw [hlines, join_text, hhead']
      rfl
    have hexpected := value_head hjoin (by decide) htext
    rw [← hvalue] at hexpected
    exact hread' (apply_head hexpected)
  · intro hhead
    obtain ⟨t', rfl⟩ := List.head?_eq_some_iff.mp hhead
    have hspace : (ch '\t' :: t' ++ (renderLines b.width ls ++ b.behind)).head? ≠ some
      (ch ' ') := by
      rw [List.cons_append, List.head?_cons]
      decide
    have hpos : 0 < b.width := lt_of_le_of_lt (Nat.zero_le _) b.deeper
    have hle : b.width ≤ maxIndent := le_trans (Nat.le_add_right _ _) hleading
    rw [measureIndent_spaces hspace, Nat.min_eq_left hle, Nat.sub_eq_zero_of_le hle] at hmeasure
    obtain ⟨rfl, hpair⟩ := Prod.mk.inj hmeasure
    obtain ⟨rfl, -⟩ := Prod.mk.inj hpair
    have hagain := measureIndent_spaces hspace b.width 0
    have htab : decide (0 < b.width ∧
        (ch '\t' :: t' ++ (renderLines b.width ls ++ b.behind)).head? = some (ch '\t')) = true :=
      decide_eq_true ⟨hpos, rfl⟩
    rw [htab] at hagain
    have hzero : ∀ s, writeIndent 0 ++ s = s := fun _ => rfl
    rw [hzero] at hagain hlinesRead
    rw [readBlockLines, if_neg (by simp), hagain] at hlinesRead
    cases hlinesRead

/-- A blank line in front shows how the source reads it. Kind: L -/
theorem shows_blank {b : BlockScalar} {n : ℕ} {r : Bytes} {ls : List BlockLine}
    (hlines : b.lines = .blank n :: ls)
    (hleading : n ≤ maxIndent)
    (hread : readBlockScalar b.style.indicator
      (b.chomp.indicator ++ (renderLines b.width b.lines ++ b.behind)) =
      (some (.string b.value), r)) (hsame : SameTokens signed (.inLine r b.levels) b.behindPlain) :
        n = b.width := by
  have hn : n ≤ b.width := b.fits (.blank n) (by rw [hlines]; exact List.mem_cons_self)
  by_contra hne
  have hless : n < b.width := lt_of_le_of_ne hn hne
  have hbody : b.body = writeIndent n ++ (renderLines b.width ls ++ b.behind) := by
    unfold body
    rw [hlines]
    exact congrArg List.tail (List.append_assoc (ch '\n' :: writeIndent n) _ _)
  obtain ⟨s, hs⟩ : ∃ s, renderLines b.width ls ++ b.behind = ch '\n' :: s := by
    apply (renderLines_append b.width ls b.behind_cases).resolve_left
    intro hnil
    obtain ⟨hrender, hnone⟩ := List.append_eq_nil_iff.mp hnil
    have hempty : ls = [] := by
      rcases ls with _ | ⟨l, ls⟩
      · rfl
      · cases hrender
    have htext := b.last_of_behind hnone (.blank n) (by rw [hlines, hempty]; rfl)
    cases htext
  obtain ⟨n', s', v, hmeasure, hlinesRead, hvalue⟩ := right_body (by rw [hbody, hs]; simp) hread
  rw [hbody, hs, measureIndent_writeIndent (by decide), Nat.min_eq_left hleading,
    Nat.sub_eq_zero_of_le hleading] at hmeasure
  obtain ⟨rfl, hpair⟩ := Prod.mk.inj hmeasure
  obtain ⟨rfl, -⟩ := Prod.mk.inj hpair
  have hzero : ∀ s, writeIndent 0 ++ s = s := fun _ => rfl
  rw [hzero] at hlinesRead
  rw [← hzero (ch '\n' :: s), readBlockLines_blank (Nat.zero_le _)] at hlinesRead
  have htail : (renderLines b.width ls ++ b.behind).tail = s := by rw [hs, List.tail_cons]
  rw [hzero, ← htail] at hlinesRead
  have hfits : ∀ l ∈ ls, l.Fits b.width :=
    fun l hl => b.fits l (by rw [hlines]; exact List.mem_cons_of_mem _ hl)
  have hlast : b.behind = [] → ∀ l ∈ ls.getLast?, l.isText = true := by
    intro hnone l hl
    refine b.last_of_behind hnone l ?_
    rw [hlines, List.getLast?_cons, Option.mem_def.mp hl]
    rfl
  have hideal : inked (ls.foldl (gather b.style.indicator)
    (true, [] ++ [ch '\n'])).2 = inked v := by
    rw [← inked_apply b.chomp v, hvalue, inked_value, hlines]
    rfl
  rcases readBlockLines_narrow hless b.behind_cases b.follows_tail ls hfits hlast
    (by rw [htail, List.length_cons]; exact Nat.lt_succ_self _) (.inl ⟨rfl, rfl⟩)
    (congrArg Prod.fst hlinesRead) with hmore | ⟨-, htext, hrest⟩
  · exact absurd hideal (Nat.ne_of_lt hmore)
  · rw [hlinesRead] at hrest
    obtain rfl : r = [] := hrest
    cases hnone : b.tail with
    | some s => exact not_same_end hnone hsame
    | none =>
        have hany := hasText_of_behind (b := b) (by unfold behind; rw [hnone]; rfl)
          (by rw [hlines]; simp)
        unfold HasText at hany
        rw [hlines] at hany
        exact absurd (hany.symm.trans htext) (by decide)

/-- **Only a block scalar that is written so is read as it should be**, as far as the indentation of
its lines is measured. Kind: P -/
theorem fine_of_right {b : BlockScalar} (hleading : ∀ l ∈ b.lines, l.leading b.width ≤ maxIndent)
    (h : b.Right signed) : b.Fine := by
  obtain ⟨r, hread, hsame⟩ := right_inv h
  -- a line behind the block scalar that is read in it gives the value a character too many
  have hswallowed : ∀ {base fuel n : ℕ} {acc r' v : Bytes} {c : UInt8} {rest : Bytes},
    c ≠ ch ' ' → c ≠ ch '\n' →
      readBlockLines b.style.indicator base (fuel + 1) true acc
        (writeIndent n ++ c :: r') = (some v, rest) →
      b.chomp.apply v = b.value →
      inked (b.lines.foldl (gather b.style.indicator) (true, [])).2 = 0 → False := by
    intro base fuel n acc r' v c rest hspace hc hrun hvalue hideal
    obtain ⟨more, rfl⟩ := readBlockLines_first hspace hc (congrArg Prod.fst hrun)
    have hink : inked (c :: more) = inked more + 1 := List.countP_cons_of_pos (by simpa using hc)
    have htotal := inked_apply b.chomp (acc ++ (writeIndent (n - base) ++ c :: more))
    rw [hvalue, inked_value, hideal, inked_append, inked_append, hink] at htotal
    omega
  rcases hlines : b.lines with _ | ⟨l, ls⟩
  · cases htail : b.tail with
    | none => exact .inl ⟨hlines, htail⟩
    | some s =>
        have hbody : b.body = s := by
          unfold body behind
          rw [hlines, htail]
          rfl
        rcases eq_or_ne s [] with rfl | hne
        · rw [readBlockScalar_header _ _ (renderLines_append _ _ b.behind_cases)] at hread
          change (if b.body = [] then _ else _) = _ at hread
          rw [if_pos hbody] at hread
          obtain rfl : [] = r := (Prod.mk.inj hread).2
          exact absurd hsame (not_same_end htail)
        · obtain ⟨base, s', v, hmeasure, hrun, hvalue⟩ :=
            right_body (by rw [hbody]; exact hne) hread
          rcases b.follows s htail with ⟨n, -, rfl⟩ | ⟨n, c, s', rfl, -, hspace, hc⟩
          · have hspaces := measureIndent_spaces (s := []) (by simp) maxIndent n
            rw [List.append_nil, List.append_nil] at hspaces
            rw [hbody, hspaces] at hmeasure
            obtain ⟨rfl, hpair⟩ := Prod.mk.inj hmeasure
            obtain ⟨rfl, -⟩ := Prod.mk.inj hpair
            have hnothing := congrArg Prod.snd hrun
            rw [run_blanks (by rw [writeIndent, List.length_replicate]; exact Nat.lt_succ_self _)]
              at hnothing
            obtain rfl : [] = r := hnothing
            exact absurd hsame (not_same_end htail)
          have hhead : (c :: s').head? ≠ some (ch ' ') := fun h => hspace (Option.some.inj h)
          rw [hbody, measureIndent_spaces hhead] at hmeasure
          obtain ⟨rfl, hpair⟩ := Prod.mk.inj hmeasure
          obtain ⟨rfl, -⟩ := Prod.mk.inj hpair
          exact (hswallowed hspace hc hrun hvalue (by rw [hlines]; rfl)).elim
  · have hl := hleading l (by rw [hlines]; exact List.mem_cons_self)
    have hshows : l.Shows b.width := by
      cases l with
      | blank n => exact shows_blank hlines hl hread hsame
      | text t => exact shows_text hlines hl hread
    have hwidth : b.width ≤ maxIndent := by
      cases l with
      | blank n => exact (show n = b.width from hshows) ▸ hl
      | text t => exact le_trans (Nat.le_add_right _ _) hl
    refine .inr ⟨hwidth, ⟨l, by rw [hlines]; rfl, hshows⟩, ?_⟩
    cases htail : b.tail with
    | none => exact .inl rfl
    | some s =>
        right
        obtain ⟨fuel, hfuel, hshown⟩ := readBlockScalar_shown hlines hshows hwidth
        rw [hread] at hshown
        obtain ⟨hvalue, hrest⟩ := Prod.mk.inj hshown
        obtain ⟨v, hv, hstring⟩ := Option.map_eq_some_iff.mp hvalue.symm
        have happly : b.chomp.apply v = b.value := Token.string.inj hstring
        have hrun := Prod.ext (y := (some v, r)) hv hrest.symm
        have hbehind : b.behind.tail = s := by
          unfold behind
          rw [htail]
          rfl
        rw [hbehind] at hrun hfuel
        obtain ⟨fuel, rfl⟩ : ∃ k, fuel = k + 1 := ⟨fuel - 1, by omega⟩
        obtain ⟨n, c, s', hs, hn, hspace, hc⟩ := (b.follows s htail).resolve_left <| by
          rintro ⟨n, -, rfl⟩
          have hnothing := congrArg Prod.snd hrun
          rw [run_blanks (lt_of_eq_of_lt List.length_replicate.symm hfuel)] at hnothing
          obtain rfl : [] = r := hnothing
          exact not_same_end htail hsame
        have htext : b.HasText := by
          by_contra hnone
          have hgather := gather_true b.style b.lines [] b.fits_text
          unfold HasText at hnone
          rw [if_neg hnone] at hgather
          rw [hgather, hs] at hrun
          exact hswallowed hspace hc hrun happly (by rw [hgather]; exact inked_newline _)
        rw [gather_hasText htext, hs] at hrun
        have hhead : (c :: s').head? ≠ some (ch ' ') := fun h => hspace (Option.some.inj h)
        have hless : n < b.width := lt_of_le_of_lt hn b.deeper
        have hblank : isBlank c = false := by
          by_contra hblank
          have htab : c = ch '\t' := by
            unfold isBlank at hblank
            simpa [hspace] using hblank
          rw [readBlockLines, if_neg (by simp), measureIndent_spaces hhead,
            if_pos (decide_eq_true ⟨hless, by rw [htab]; rfl⟩)] at hrun
          cases hrun
        rw [readBlockLines_outer hless hblank hc] at hrun
        obtain ⟨hjoin, hnext⟩ := Prod.mk.inj hrun
        obtain rfl := Option.some.inj hjoin
        subst hnext
        obtain ⟨lx₁, hcall⟩ : ∃ lx₁, (Lexer.inLine (c :: s') b.levels).call signed =
          .token .newline lx₁ := by
          unfold behindPlain behind at hsame
          rw [htail] at hsame
          exact hsame.call (call_newline s b.levels)
        obtain ⟨hcomment, hline⟩ := call_newline_inv hblank hc hcall
        refine ⟨?_, htext, s, htail, ?_, ?_⟩
        · intro hkeep
          unfold value at happly
          unfold HasText at htext
          rw [hkeep, htail] at happly
          simp [Chomp.apply, htext] at happly
        · rw [hs, List.dropWhile_append_of_pos (fun d hd =>
            decide_eq_true (List.eq_of_mem_replicate hd)),
            List.dropWhile_cons_of_neg (by simpa using hspace), hcomment]
          rfl
        · rw [hs]
          exact List.mem_append_right _ (List.mem_cons_of_mem _ hline)

/-- **A block scalar is read as it should be if and only if it is written so**: that this is enough
holds of every block scalar, and that it is needed of every one whose indentation is measured.
Kind: P -/
theorem right_iff_fine (signed : Bool) (b : BlockScalar) : (b.Fine → b.Right signed) ∧
    ((∀ l ∈ b.lines, l.leading b.width ≤ maxIndent) → b.Right signed → b.Fine) :=
  ⟨right_of_fine, fine_of_right⟩

end BlockScalar

/-- A line of text, with a key behind it. -/
def keyBehind : BlockScalar where
  levels := [0]
  style := .literal
  chomp := .clip
  width := 2
  lines := [.text (text "x")]
  tail := some (text "b: c")
  deeper := by decide
  fits := by simp [BlockLine.Fits, text, ch]
  lastIsText := fun h => by cases h
  follows := by
    rintro s hs
    cases hs
    exact .inr ⟨0, ch 'b', text ": c", rfl, by decide, by decide, by decide⟩

/-- **A key behind a block scalar is read without the line end in front of it.** Kind: L -/
theorem block_behind_key : ¬ keyBehind.Right true := by
  rintro ⟨lx, hcall, hsame⟩
  have hread : keyBehind.lexer.call true =
      .token (.string (text "x\n")) (.inLine (text "b: c") [0]) := rfl
  rw [hread] at hcall
  cases hcall
  obtain ⟨lx₁, hnext⟩ := hsame.call (call_newline (text "b: c") [0])
  cases hnext

end CxyCompiler.Stdlib.Yaml
