import CxyCompiler.Frontend.Lexer

/-!
# Moving over a text

A lexer with a single buffer, as `newLexer` makes it, is described by what is left of its text.

* `Moved` — the lexer has passed a piece of its text.
* `loopWhile_moved` — **a loop that asks for characters of a class passes all of them**.
* `acceptAny_spec` — an operator passes its characters and has one of the tags of its table.
* `commentRound`, `skipMultiLineComment_moved` — what a block comment passes.
-/

namespace CxyCompiler.Frontend.Lexing

open CxyCompiler.Core CxyCompiler.Lib.Numeral

/-- A result of a step and the steps behind it. Kind: L -/
theorem bind_eq_ok {α β : Type} {x : Except Halt α} {f : α → Except Halt β} {b : β}
    (h : x >>= f = .ok b) : ∃ a, x = .ok a ∧ f a = .ok b := by
  cases x with
  | error e => cases h
  | ok a => exact ⟨a, rfl, h⟩

theorem ok_bind {α β : Type} (a : α) (f : α → Except Halt β) :
    (.ok a : Except Halt α) >>= f = f a :=
  rfl

namespace Lexer

/-- What is left of the text of the buffer on top. -/
def rest (L : Lexer) : List UInt8 := L.buffer.rest

variable {L : Lexer} {c : UInt8} {r : List UInt8}

theorem isEofReached_iff : L.isEofReached = true ↔ L.rest = [] := by
  rw [isEofReached, LexerBuffer.isEof, decide_eq_true_iff, rest, LexerBuffer.rest,
    List.drop_eq_nil_iff]

theorem isEofReached_of_cons (h : L.rest = c :: r) : L.isEofReached = false := by
  rw [Bool.eq_false_iff, ne_eq, isEofReached_iff, h]
  exact List.cons_ne_nil c r

theorem getCurPtr_of_cons (h : L.rest = c :: r) : L.getCurPtr = c :: r := by
  rw [getCurPtr, isEofReached_of_cons h]
  exact h

theorem getCurChar_of_cons (h : L.rest = c :: r) : L.getCurChar = c := by
  rw [getCurChar, getCurPtr_of_cons h]
  rfl

theorem getCurPtr_of_nil (h : L.rest = []) : L.getCurPtr = [EoF] := by
  rw [getCurPtr, Iff.mpr isEofReached_iff h]
  rfl

theorem getCurChar_of_nil (h : L.rest = []) : L.getCurChar = EoF := by
  rw [getCurChar, getCurPtr_of_nil h]
  rfl

/-- The last character is followed by the one for the end of the input. Kind: L -/
theorem peekNextChar_alone (hprev : L.prev = []) (h : L.rest = c :: r) :
    L.peekNextChar = r.headD EoF := by
  have hlen : L.buffer.fileData.length = L.buffer.filePos.byteOffset + (r.length + 1) := by
    have := congrArg List.length h
    rw [rest, LexerBuffer.rest, List.length_drop, List.length_cons] at this
    omega
  have hget : L.buffer.fileData[L.buffer.filePos.byteOffset + 1]? = r[0]? := by
    have := congrArg (fun s => s[1]?) h
    rw [rest, LexerBuffer.rest, List.getElem?_drop] at this
    exact this
  rw [peekNextChar, hprev, peekNextChar_]
  cases r with
  | nil =>
      rw [List.length_nil] at hlen
      exact if_pos (by omega)
  | cons d r =>
      rw [List.length_cons] at hlen
      rw [if_neg (by omega), List.getD_eq_getElem?_getD, hget]
      rfl

/-- A lexer with one buffer does not leave it. Kind: L -/
theorem skipChar_alone (hprev : L.prev = []) :
    L.skipChar = { L with buffer := L.buffer.skip L.getCurChar } := by
  unfold skipChar
  dsimp only
  split_ifs
  · unfold popBuffer
    dsimp only
    rw [hprev]
  · rfl

@[simp] theorem prev_skipChar (hprev : L.prev = []) : L.skipChar.prev = [] := by
  rw [skipChar_alone hprev]
  exact hprev

@[simp] theorem flags_skipChar : L.skipChar.flags = L.flags := by
  unfold skipChar popBuffer
  dsimp only
  split_ifs
  · split <;> rfl
  · rfl

/-- One character is passed. Kind: L -/
theorem rest_skipChar (hprev : L.prev = []) : L.skipChar.rest = L.rest.tail := by
  have hoffset : (L.buffer.skip L.getCurChar).filePos.byteOffset =
      L.buffer.filePos.byteOffset + 1 := by
    unfold LexerBuffer.skip
    dsimp only
    split_ifs <;> rfl
  rw [skipChar_alone hprev, rest, LexerBuffer.rest, hoffset, rest, LexerBuffer.rest,
    List.tail_drop]
  rfl

theorem acceptChar_of_cons (ch : Char) (h : L.rest = c :: r) :
    L.acceptChar ch = if c = ascii ch then some L.skipChar else none := by
  rw [acceptChar, isEofReached_of_cons h, getCurChar_of_cons h, Bool.not_false, Bool.true_and]
  by_cases hc : c = ascii ch
  · rw [if_pos hc, if_pos (decide_eq_true hc)]
  · rw [if_neg hc, if_neg (by rw [decide_eq_true_iff]; exact hc)]

theorem acceptChar_of_nil (ch : Char) (h : L.rest = []) : L.acceptChar ch = none := by
  rw [acceptChar, Iff.mpr isEofReached_iff h]
  rfl

/-- A character that is accepted was next, and is passed. Kind: L -/
theorem acceptChar_eq_some {ch : Char} {L' : Lexer} (h : L.acceptChar ch = some L') :
    (∃ r, L.rest = ascii ch :: r) ∧ L' = L.skipChar := by
  cases hrest : L.rest with
  | nil =>
      rw [acceptChar_of_nil ch hrest] at h
      cases h
  | cons c r =>
      rw [acceptChar_of_cons ch hrest] at h
      split_ifs at h with hc
      rw [hc]
      exact ⟨⟨r, rfl⟩, (Option.some.inj h).symm⟩

/-- A character that is not accepted was not next. Kind: L -/
theorem acceptChar_eq_none {ch : Char} (h : L.acceptChar ch = none) :
    L.rest.head? ≠ some (ascii ch) := by
  cases hrest : L.rest with
  | nil => exact nofun
  | cons c r =>
      rw [acceptChar_of_cons ch hrest] at h
      split_ifs at h with hc
      exact fun heq => hc (Option.some.inj heq)

/-- The buffer on top is found at its address. Kind: L -/
theorem deref_top : L.deref L.buffer.address = L.buffer := by
  rw [deref, List.find?_cons_of_pos (by simp)]
  rfl

end Lexer

/-! ## Pieces of text -/

/-- The lexer has passed a piece of the text of its only buffer. -/
structure Moved (L : Lexer) (passed : List UInt8) (L' : Lexer) : Prop where
  prev : L'.prev = []
  same : L'.buffer = { L.buffer with filePos := L'.pos }
  offset : L'.pos.byteOffset = L.pos.byteOffset + passed.length
  rest : L.rest = passed ++ L'.rest

variable {L L' L'' : Lexer} {c : UInt8} {p q r : List UInt8}

namespace Moved

theorem refl (hprev : L.prev = []) : Moved L [] L := ⟨hprev, rfl, rfl, rfl⟩

/-- One move after the other. Kind: L -/
theorem trans (h : Moved L p L') (h' : Moved L' q L'') : Moved L (p ++ q) L'' := by
  refine ⟨h'.prev, ?_, ?_, ?_⟩
  · rw [h'.same, h.same]
  · rw [h'.offset, h.offset, List.length_append, Nat.add_assoc]
  · rw [h.rest, h'.rest, List.append_assoc]

/-- The move by one character. Kind: L -/
theorem skipChar (hprev : L.prev = []) (h : L.rest = c :: r) : Moved L [c] L.skipChar := by
  have hskip := Lexer.skipChar_alone hprev
  refine ⟨Lexer.prev_skipChar hprev, ?_, ?_, ?_⟩
  · rw [hskip]
    rfl
  · rw [hskip, Lexer.pos, LexerBuffer.skip]
    dsimp only
    split_ifs <;> rfl
  · rw [Lexer.rest_skipChar hprev, h]
    rfl

/-- A change of the flags does not move. Kind: L -/
theorem setFlags (h : Moved L p L') (flags : Flags) : Moved L p { L' with flags := flags } :=
  ⟨h.prev, h.same, h.offset, h.rest⟩

theorem of_flags {flags : Flags} (h : Moved { L with flags := flags } p L') : Moved L p L' :=
  ⟨h.prev, h.same, h.offset, h.rest⟩

/-- What is passed and what is left make up the text. Kind: L -/
theorem length_rest (h : Moved L p L') : L.rest.length = p.length + L'.rest.length := by
  rw [h.rest, List.length_append]

/-- What has been passed, as a slice of the data. Kind: L -/
theorem slice (h : Moved L p L') :
    (L.buffer.fileData.drop L.pos.byteOffset).take (L'.pos.byteOffset - L.pos.byteOffset) = p := by
  rw [h.offset, Nat.add_sub_cancel_left]
  have hrest : L.buffer.fileData.drop L.pos.byteOffset = p ++ L'.rest := h.rest
  rw [hrest, List.take_left]

end Moved

/-- The move by a character that is accepted. Kind: L -/
theorem moved_acceptChar {ch : Char} (hprev : L.prev = []) (h : L.acceptChar ch = some L') :
    Moved L [ascii ch] L' ∧ L'.flags = L.flags := by
  obtain ⟨⟨r, hr⟩, rfl⟩ := Lexer.acceptChar_eq_some h
  exact ⟨Moved.skipChar hprev hr, Lexer.flags_skipChar⟩

/-! ## Loops over classes of characters -/

/-- A test asks for a character of a class; it fails at the end of the input. -/
def AsksFor (test : Lexer → Bool) (class_ : UInt8 → Bool) : Prop :=
  ∀ L : Lexer, test L = L.rest.head?.any class_

/-- A test that looks for the end first. Kind: L -/
theorem asksFor_guarded (class_ : UInt8 → Bool) :
    AsksFor (fun L => !L.isEofReached && class_ L.getCurChar) class_ := by
  intro L
  dsimp only
  cases hrest : L.rest with
  | nil =>
      rw [Iff.mpr Lexer.isEofReached_iff hrest]
      rfl
  | cons c r =>
      rw [Lexer.isEofReached_of_cons hrest, Lexer.getCurChar_of_cons hrest]
      rfl

/-- A test by a class that does not hold of the end. Kind: L -/
theorem asksFor_class {class_ : UInt8 → Bool} (heof : class_ EoF = false) :
    AsksFor (fun L => class_ L.getCurChar) class_ := by
  intro L
  dsimp only
  cases hrest : L.rest with
  | nil =>
      rw [Lexer.getCurChar_of_nil hrest, heof]
      rfl
  | cons c r =>
      rw [Lexer.getCurChar_of_cons hrest]
      rfl

variable {test : Lexer → Bool} {class_ : UInt8 → Bool} {fuel : ℕ}

/-- **A loop that asks for characters of a class passes all of them**, and it makes one round more
than there are. Kind: P -/
theorem loopWhile_spec (htest : AsksFor test class_) (hprev : L.prev = [])
    (hfuel : (L.rest.takeWhile class_).length < fuel) :
    ∃ L', loopWhile test fuel L = .ok L' ∧ Moved L (L.rest.takeWhile class_) L' ∧
      L'.flags = L.flags := by
  induction fuel generalizing L with
  | zero => exact absurd hfuel (Nat.not_lt_zero _)
  | succ fuel ih =>
      rw [loopWhile, htest L]
      cases hrest : L.rest with
      | nil => exact ⟨L, rfl, Moved.refl hprev, rfl⟩
      | cons c r =>
          rw [hrest] at hfuel
          have hmoved := Moved.skipChar hprev hrest
          have htail : L.skipChar.rest = r := by
            rw [Lexer.rest_skipChar hprev, hrest]
            rfl
          cases hc : class_ c with
          | false =>
              rw [List.takeWhile_cons_of_neg (by rw [hc]; decide), List.head?_cons, Option.any_some,
                hc]
              exact ⟨L, rfl, Moved.refl hprev, rfl⟩
          | true =>
              rw [List.takeWhile_cons_of_pos hc] at hfuel ⊢
              rw [List.head?_cons, Option.any_some, hc]
              obtain ⟨L', hrun, hmoved', hflags⟩ := ih (L := L.skipChar) hmoved.prev (by
                rw [htail]
                exact Nat.lt_of_succ_lt_succ hfuel)
              rw [htail] at hmoved'
              exact ⟨L', hrun, hmoved.trans hmoved', hflags.trans Lexer.flags_skipChar⟩

/-- A loop that returns has had enough rounds. Kind: L -/
theorem rounds_of_loopWhile (htest : AsksFor test class_) (hprev : L.prev = [])
    (h : loopWhile test fuel L = .ok L') : (L.rest.takeWhile class_).length < fuel := by
  induction fuel generalizing L with
  | zero => cases h
  | succ fuel ih =>
      rw [loopWhile, htest L] at h
      cases hrest : L.rest with
      | nil => exact Nat.succ_pos fuel
      | cons c r =>
          rw [hrest, List.head?_cons, Option.any_some] at h
          cases hc : class_ c with
          | false =>
              rw [List.takeWhile_cons_of_neg (by rw [hc]; decide)]
              exact Nat.succ_pos fuel
          | true =>
              rw [hc, if_pos rfl] at h
              have := ih (Lexer.prev_skipChar hprev) h
              rw [Lexer.rest_skipChar hprev, hrest] at this
              rw [List.takeWhile_cons_of_pos hc]
              exact Nat.succ_lt_succ this

/-- **A loop passes the characters of its class, and keeps the flags.** Kind: L -/
theorem loopWhile_moved (htest : AsksFor test class_) (hprev : L.prev = [])
    (h : loopWhile test fuel L = .ok L') :
    Moved L (L.rest.takeWhile class_) L' ∧ L'.flags = L.flags := by
  obtain ⟨L₁, hrun, hspec⟩ := loopWhile_spec htest hprev (rounds_of_loopWhile htest hprev h)
  rw [h] at hrun
  rw [Except.ok.inj hrun]
  exact hspec

theorem Moved.rest_takeWhile (h : Moved L (L.rest.takeWhile class_) L') :
    L'.rest = L.rest.dropWhile class_ := by
  have happend := h.rest
  nth_rewrite 1 [← List.takeWhile_append_dropWhile (p := class_) (l := L.rest)] at happend
  exact (List.append_cancel_left happend).symm

/-! ## Operators -/

mutual

/-- The tags that a cascade can end with. -/
def Cascade.tags : Cascade → List TokenTag
  | .node tag branches => tag :: branchTags branches

def branchTags : List (Char × Cascade) → List TokenTag
  | [] => []
  | (_, k) :: branches => k.tags ++ branchTags branches

end

/-- What a cascade returns: one of its tags, behind some of the text. -/
structure Operates (tags : List TokenTag) (L : Lexer) (r : TokenTag × Lexer) : Prop where
  tag : r.1 ∈ tags
  flags : r.2.flags = L.flags
  moved : ∃ p, Moved L p r.2

/-- **An operator passes its characters and has one of the tags of its table.** The induction is on
the table, with the cascades in it. Kind: P -/
theorem acceptAny_spec (branches : List (Char × Cascade)) :
    ∀ (L : Lexer) r, L.prev = [] → acceptAny branches L = some r →
      Operates (branchTags branches) L r ∧ ∃ c p, Moved L (c :: p) r.2 := by
  refine @Cascade.rec_1 (fun k => ∀ L : Lexer, L.prev = [] → Operates k.tags L (k.accept L))
    (fun bs => ∀ (L : Lexer) r, L.prev = [] → acceptAny bs L = some r →
      Operates (branchTags bs) L r ∧ ∃ c p, Moved L (c :: p) r.2)
    (fun b => ∀ L : Lexer, L.prev = [] → Operates b.2.tags L (b.2.accept L))
    ?node ?nil ?cons (fun _ _ hk => hk) branches
  case node =>
    intro tag branches ih L hprev
    rw [Cascade.accept, Cascade.tags]
    cases haccept : acceptAny branches L with
    | none => exact ⟨List.mem_cons_self, rfl, [], Moved.refl hprev⟩
    | some r =>
        obtain ⟨⟨htag, hflags, hmoved⟩, -⟩ := ih L r hprev haccept
        exact ⟨List.mem_cons_of_mem tag htag, hflags, hmoved⟩
  case nil =>
    intro L r _ h
    cases h
  case cons =>
    intro b branches hb ih L r hprev h
    obtain ⟨c, k⟩ := b
    rw [acceptAny] at h
    rw [branchTags]
    cases haccept : L.acceptChar c with
    | none =>
        rw [haccept] at h
        obtain ⟨⟨htag, hflags, hmoved⟩, hpassed⟩ := ih L r hprev h
        exact ⟨⟨List.mem_append_right _ htag, hflags, hmoved⟩, hpassed⟩
    | some M =>
        rw [haccept] at h
        obtain ⟨hmoved, hflags⟩ := moved_acceptChar hprev haccept
        obtain ⟨htag, hflags', p, hmoved'⟩ := hb M hmoved.prev
        rw [← Option.some.inj h]
        have hpassed := hmoved.trans hmoved'
        exact ⟨⟨List.mem_append_left _ htag, hflags'.trans hflags, _, hpassed⟩, _, _, hpassed⟩

/-! ## Comments -/

/-- What is behind a block comment. -/
def commentRest : List UInt8 → ℕ → Option (List UInt8)
  | s, 0 => some s
  | c :: d :: s, nest + 1 =>
      if c = ascii '/' then
        if d = ascii '*' then commentRest s (nest + 2) else commentRest (d :: s) (nest + 1)
      else if c = ascii '*' then
        if d = ascii '/' then commentRest s nest else commentRest (d :: s) (nest + 1)
      else commentRest (d :: s) (nest + 1)
  | _, _ + 1 => none

/-- What a round in a comment does: it passes a piece of the text, and the rest of the comment is
behind it. -/
structure CommentRound (nest : ℕ) (L : Lexer) (nest' : ℕ) (M : Lexer) : Prop where
  moved : ∃ c p, Moved L (c :: p) M
  flags : M.flags = L.flags
  rest : commentRest L.rest nest = commentRest M.rest nest'
  run : ∀ fuel, skipMultiLineComment (fuel + 1) nest L = skipMultiLineComment fuel nest' M

/-- Source: the body of the loop of `skipMultiLineComment`. Kind: L -/
theorem skipMultiLineComment_succ (nest : ℕ) (hrest : L.rest = c :: r) (fuel : ℕ) :
    skipMultiLineComment (fuel + 1) (nest + 1) L =
      match L.acceptChar '/' with
      | some L =>
          match L.acceptChar '*' with
          | some L => skipMultiLineComment fuel (nest + 2) L
          | none => skipMultiLineComment fuel (nest + 1) L
      | none =>
          match L.acceptChar '*' with
          | some L =>
              match L.acceptChar '/' with
              | some L => skipMultiLineComment fuel nest L
              | none => skipMultiLineComment fuel (nest + 1) L
          | none => skipMultiLineComment fuel (nest + 1) L.skipChar := by
  rw [skipMultiLineComment, Lexer.isEofReached_of_cons hrest]
  rfl

/-- **A round of `skipMultiLineComment`.** Kind: P -/
theorem commentRound (nest : ℕ) (hprev : L.prev = []) (hrest : L.rest = c :: r) :
    ∃ nest' M, CommentRound (nest + 1) L nest' M := by
  have hrun := skipMultiLineComment_succ nest hrest
  have hone := Moved.skipChar hprev hrest
  have htail : L.skipChar.rest = r := by
    rw [Lexer.rest_skipChar hprev, hrest]
    rfl
  have hpassed : ∀ {n}, commentRest L.rest (nest + 1) = commentRest r n →
      (∀ fuel, skipMultiLineComment (fuel + 1) (nest + 1) L =
        skipMultiLineComment fuel n L.skipChar) →
      ∃ nest' M, CommentRound (nest + 1) L nest' M := by
    intro n hcomment hround
    refine ⟨n, L.skipChar, ⟨c, [], hone⟩, Lexer.flags_skipChar, ?_, hround⟩
    rw [htail]
    exact hcomment
  have hagain : ∀ {d : UInt8} {s : List UInt8} {n}, r = d :: s →
      commentRest L.rest (nest + 1) = commentRest s n →
      (∀ fuel, skipMultiLineComment (fuel + 1) (nest + 1) L =
        skipMultiLineComment fuel n L.skipChar.skipChar) →
      ∃ nest' M, CommentRound (nest + 1) L nest' M := by
    intro d s n hr hcomment hround
    have htwo := Moved.skipChar hone.prev (htail.trans hr)
    refine ⟨n, _, ⟨c, [d], hone.trans htwo⟩, ?_, ?_, hround⟩
    · rw [Lexer.flags_skipChar, Lexer.flags_skipChar]
    · rw [Lexer.rest_skipChar hone.prev, htail, hr]
      exact hcomment
  by_cases hslash : c = ascii '/'
  · have hfirst : L.acceptChar '/' = some L.skipChar := by
      rw [Lexer.acceptChar_of_cons '/' hrest, if_pos hslash]
    cases r with
    | nil =>
        refine hpassed (n := nest + 1) (by rw [hrest]; rfl) fun fuel => ?_
        rw [hrun, hfirst]
        dsimp only
        rw [Lexer.acceptChar_of_nil '*' htail]
    | cons d s =>
        by_cases hstar : d = ascii '*'
        · refine hagain rfl (n := nest + 2) ?_ fun fuel => ?_
          · rw [hrest, commentRest, if_pos hslash, if_pos hstar]
          · rw [hrun, hfirst]
            dsimp only
            rw [Lexer.acceptChar_of_cons '*' htail, if_pos hstar]
        · refine hpassed (n := nest + 1) ?_ fun fuel => ?_
          · rw [hrest, commentRest, if_pos hslash, if_neg hstar]
          · rw [hrun, hfirst]
            dsimp only
            rw [Lexer.acceptChar_of_cons '*' htail, if_neg hstar]
  · have hfirst : L.acceptChar '/' = none := by
      rw [Lexer.acceptChar_of_cons '/' hrest, if_neg hslash]
    by_cases hstar : c = ascii '*'
    · have hsecond : L.acceptChar '*' = some L.skipChar := by
        rw [Lexer.acceptChar_of_cons '*' hrest, if_pos hstar]
      cases r with
      | nil =>
          refine hpassed (n := nest + 1) (by rw [hrest]; rfl) fun fuel => ?_
          rw [hrun, hfirst]
          dsimp only
          rw [hsecond]
          dsimp only
          rw [Lexer.acceptChar_of_nil '/' htail]
      | cons d s =>
          by_cases hclose : d = ascii '/'
          · refine hagain rfl (n := nest) ?_ fun fuel => ?_
            · rw [hrest, commentRest, if_neg hslash, if_pos hstar, if_pos hclose]
            · rw [hrun, hfirst]
              dsimp only
              rw [hsecond]
              dsimp only
              rw [Lexer.acceptChar_of_cons '/' htail, if_pos hclose]
          · refine hpassed (n := nest + 1) ?_ fun fuel => ?_
            · rw [hrest, commentRest, if_neg hslash, if_pos hstar, if_neg hclose]
            · rw [hrun, hfirst]
              dsimp only
              rw [hsecond]
              dsimp only
              rw [Lexer.acceptChar_of_cons '/' htail, if_neg hclose]
    · have hsecond : L.acceptChar '*' = none := by
        rw [Lexer.acceptChar_of_cons '*' hrest, if_neg hstar]
      refine hpassed (n := nest + 1) ?_ fun fuel => ?_
      · rw [hrest]
        cases r with
        | nil => rfl
        | cons d s => rw [commentRest, if_neg hslash, if_neg hstar]
      · rw [hrun, hfirst]
        dsimp only
        rw [hsecond]

theorem skipMultiLineComment_end (fuel nest : ℕ) (h : nest = 0 ∨ L.rest = []) :
    skipMultiLineComment (fuel + 1) nest L = .ok (decide (nest = 0), L) := by
  rw [skipMultiLineComment]
  refine if_pos ?_
  rw [Bool.or_eq_true, decide_eq_true_iff, Lexer.isEofReached_iff]
  exact h

/-- **What a comment passes**, and whether it has been closed. Kind: P -/
theorem skipMultiLineComment_moved {nest : ℕ} {b : Bool} (hprev : L.prev = [])
    (h : skipMultiLineComment fuel nest L = .ok (b, L')) :
    L'.flags = L.flags ∧ (∃ p, Moved L p L') ∧
      commentRest L.rest nest = if b then some L'.rest else none := by
  induction fuel generalizing nest L with
  | zero => cases h
  | succ fuel ih =>
      cases nest with
      | zero =>
          rw [skipMultiLineComment_end fuel 0 (Or.inl rfl)] at h
          cases h
          refine ⟨rfl, ⟨[], Moved.refl hprev⟩, ?_⟩
          rw [commentRest]
          rfl
      | succ nest =>
          cases hrest : L.rest with
          | nil =>
              rw [skipMultiLineComment_end fuel (nest + 1) (Or.inr hrest)] at h
              cases h
              exact ⟨rfl, ⟨[], Moved.refl hprev⟩, rfl⟩
          | cons c r =>
              obtain ⟨nest', M, ⟨c', p, hmoved⟩, hflags, hcomment, hrun⟩ :=
                commentRound nest hprev hrest
              rw [hrun fuel] at h
              obtain ⟨hflags', ⟨q, hmoved'⟩, hleft⟩ := ih hmoved.prev h
              refine ⟨hflags'.trans hflags, ⟨_, hmoved.trans hmoved'⟩, ?_⟩
              rw [← hrest, hcomment]
              exact hleft

/-- With enough fuel the loop over a comment returns. Kind: L -/
theorem skipMultiLineComment_returns (nest : ℕ) (hprev : L.prev = [])
    (hfuel : L.rest.length < fuel) : ∃ r, skipMultiLineComment fuel nest L = .ok r := by
  induction fuel generalizing nest L with
  | zero => exact absurd hfuel (Nat.not_lt_zero _)
  | succ fuel ih =>
      cases nest with
      | zero => exact ⟨_, skipMultiLineComment_end fuel 0 (Or.inl rfl)⟩
      | succ nest =>
          cases hrest : L.rest with
          | nil => exact ⟨_, skipMultiLineComment_end fuel (nest + 1) (Or.inr hrest)⟩
          | cons c r =>
              obtain ⟨nest', M, ⟨c', p, hmoved⟩, -, -, hrun⟩ := commentRound nest hprev hrest
              have hlen := hmoved.length_rest
              rw [List.length_cons] at hlen
              rw [hrun fuel]
              exact ih nest' hmoved.prev (by omega)

end CxyCompiler.Frontend.Lexing
