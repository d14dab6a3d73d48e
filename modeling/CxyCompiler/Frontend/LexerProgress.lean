import CxyCompiler.Frontend.LexerMoves

/-!
# The lexer comes to the end (`lang/frontend/lexer.c`)

The loops over strings and over characters do not ask whether the input has ended: they return where
the literal is closed.

* `stringCloses`, `CharCloses` — texts that close a literal.
* `Behind` — what is behind white space and comments.
* `advanceLexer_returns` — **a call that finds something closed returns**, and makes progress.
* `calls_return_until_eof` — **calls that do come to the end of the file**.
* `unterminated_never_returns` — a string that is not closed.
-/

namespace CxyCompiler.Frontend.Lexing

open CxyCompiler.Core CxyCompiler.Lib.Numeral

/-! ## Literals that are closed -/

/-- A string ends at its quote, at the end of a line that does not go on with a backslash, or where
an interpolation begins. -/
def stringCloses (interpolated : Bool) : List UInt8 → Bool
  | [] => false
  | c :: s =>
      if c = ascii '"' then true
      else if c = ascii '\n' then
        match s with
        | [] => true
        | d :: t => if d = ascii '\\' then stringCloses interpolated t else true
      else if c = ascii '\\' then
        match s with
        | [] => false
        | _ :: t => stringCloses interpolated t
      else if interpolated && c = ascii '\x7b' && s.headD EoF ≠ ascii '\x7b' then true
      else stringCloses interpolated s

/-- The number of characters up to the quote or the end of the line. -/
def charLength : List UInt8 → Option ℕ
  | [] => none
  | c :: s =>
      if c = ascii '\'' || c = ascii '\n' then some 0
      else if c = ascii '\\' then
        match s with
        | [] => none
        | _ :: t => (charLength t).map (· + 2)
      else (charLength s).map (· + 1)

/-- A character literal ends, and where it ends with its quote, what is in it does not abort. -/
def CharCloses (stray : ℕ) (s : List UInt8) : Prop :=
  ∃ n, charLength s = some n ∧
    (s[n]? = some (ascii '\'') →
      let m := if s.length = n + 1 then stray else n
      m = 0 ∨ (0x80 ≤ charAt s 0 → BeginsSequence s m))

variable {L L' : Lexer} {c : UInt8} {r s : List UInt8} {fuel stray : ℕ} {start : FilePos}

theorem rest_behind (hprev : L.prev = []) (h : L.rest = c :: r) : L.skipChar.rest = r := by
  rw [Lexer.rest_skipChar hprev, h]
  rfl

/-- **The loop over a string returns where the string is closed.** Kind: P -/
theorem stringLoop_returns {literal interpolated : Bool} {buffer : ℕ} (hprev : L.prev = [])
    (hflag : (!literal && L.flags.continueStringExpr) = interpolated)
    (hcloses : stringCloses interpolated L.rest = true) (hfuel : L.rest.length < fuel) :
    ∃ found L' p, stringLoop literal buffer start fuel L = .ok (found, L') ∧ Moved L p L' := by
  induction fuel generalizing L with
  | zero => exact absurd hfuel (Nat.not_lt_zero _)
  | succ fuel ih =>
      cases hrest : L.rest with
      | nil =>
          rw [hrest] at hcloses
          cases hcloses
      | cons c s =>
          rw [hrest] at hcloses hfuel
          unfold stringCloses at hcloses
          rw [stringLoop, Lexer.getCurChar_of_cons hrest]
          have hone := Moved.skipChar hprev hrest
          have htail := rest_behind hprev hrest
          -- the loop goes on behind a piece of the string
          have hagain : ∀ {M : Lexer} {p : List UInt8}, Moved L p M → M.flags = L.flags →
              M.rest.length < L.rest.length → stringCloses interpolated M.rest = true →
              ∃ found L' p, stringLoop literal buffer start fuel M = .ok (found, L') ∧
                Moved L p L' := by
            intro M p hmoved hflags hlen hcloses'
            rw [hrest] at hlen
            obtain ⟨found, L', q, hrun, hmoved'⟩ :=
              ih hmoved.prev (by rw [hflags]; exact hflag) hcloses' (by omega)
            exact ⟨found, L', p ++ q, hrun, hmoved.trans hmoved'⟩
          by_cases hquote : c = ascii '"'
          · rw [if_pos hquote]
            exact ⟨none, L, [], rfl, Moved.refl hprev⟩
          rw [if_neg hquote] at hcloses ⊢
          by_cases hline : c = ascii '\n'
          · rw [Lexer.acceptChar_of_cons '\n' hrest, if_pos hline]
            rw [if_pos hline] at hcloses
            dsimp only
            cases s with
            | nil =>
                rw [Lexer.acceptChar_of_nil '\\' htail]
                exact ⟨none, _, _, rfl, hone⟩
            | cons d t =>
                have htwo := hone.trans (Moved.skipChar hone.prev htail)
                rw [Lexer.acceptChar_of_cons '\\' htail]
                dsimp only at hcloses
                by_cases hslash : d = ascii '\\'
                · rw [if_pos hslash] at hcloses ⊢
                  rw [← rest_behind hone.prev htail] at hcloses
                  refine hagain htwo (by rw [Lexer.flags_skipChar, Lexer.flags_skipChar]) ?_ hcloses
                  rw [htwo.length_rest]
                  exact Nat.lt_add_of_pos_left (Nat.succ_pos 1)
                · rw [if_neg hslash]
                  exact ⟨none, _, _, rfl, hone⟩
          rw [Lexer.acceptChar_of_cons '\n' hrest, if_neg hline]
          rw [if_neg hline] at hcloses
          dsimp only
          by_cases hslash : c = ascii '\\'
          · rw [if_pos hslash] at hcloses ⊢
            cases s with
            | nil => cases hcloses
            | cons d t =>
                have htwo := hone.trans (Moved.skipChar hone.prev htail)
                dsimp only at hcloses
                rw [← rest_behind hone.prev htail] at hcloses
                refine hagain htwo (by rw [Lexer.flags_skipChar, Lexer.flags_skipChar]) ?_ hcloses
                rw [htwo.length_rest]
                exact Nat.lt_add_of_pos_left (Nat.succ_pos 1)
          rw [if_neg hslash] at hcloses ⊢
          rw [hflag, Lexer.peekNextChar_alone hprev hrest]
          split_ifs at hcloses ⊢ with hbegins
          · have hskip := Moved.skipChar (L := { L with flags.returnLStrFmt := true }) hprev hrest
            exact ⟨_, _, _, rfl, Moved.of_flags hskip⟩
          · rw [← htail] at hcloses
            refine hagain hone Lexer.flags_skipChar ?_ hcloses
            rw [hone.length_rest]
            exact Nat.lt_add_of_pos_left Nat.one_pos

/-- The token and the lexer that a function returns, behind some of the text. -/
def Yields (L : Lexer) (x : Except Halt (Token × Lexer)) : Prop :=
  ∃ tok L' p, x = .ok (tok, L') ∧ Moved L p L'

theorem Yields.behind {M : Lexer} {p : List UInt8} {x : Except Halt (Token × Lexer)}
    (hmoved : Moved L p M) (h : Yields M x) : Yields L x := by
  obtain ⟨tok, L', q, hx, hmoved'⟩ := h
  exact ⟨tok, L', p ++ q, hx, hmoved.trans hmoved'⟩

theorem closeString_yields {M : Lexer} {p : List UInt8} (buffer : ℕ) (start : FilePos)
    (hmoved : Moved L p M) :
    Yields L (match M.acceptChar '"' with
      | some L' => .ok (makeTokenTo L' buffer start M.pos .stringLiteral, L')
      | none => .ok (makeInvalidToken M start "unterminated string literal", M)) := by
  cases hquote : M.acceptChar '"' with
  | none => exact ⟨_, M, p, rfl, hmoved⟩
  | some N => exact ⟨_, N, _, rfl, hmoved.trans (moved_acceptChar hmoved.prev hquote).1⟩

theorem lexString_yields {literal : Bool} {buffer : ℕ} (hprev : L.prev = [])
    (hcloses : stringCloses (!literal && L.flags.continueStringExpr) L.rest = true)
    (hfuel : L.rest.length < fuel) : Yields L (lexString fuel literal buffer L) := by
  obtain ⟨found, M, p, hrun, hmoved⟩ :=
    stringLoop_returns hprev rfl hcloses hfuel
  unfold lexString
  dsimp only
  rw [hrun]
  cases found with
  | some tok => exact ⟨tok, M, p, rfl, hmoved⟩
  | none =>
      cases literal with
      | true => exact closeString_yields buffer L.pos hmoved
      | false => exact closeString_yields buffer L.pos (hmoved.setFlags _)

/-- **The loop over a character returns where the literal ends.** Kind: P -/
theorem charLoop_returns {n : ℕ} (charCount : ℕ) (hprev : L.prev = [])
    (hlength : charLength L.rest = some n) (hfuel : L.rest.length < fuel) :
    ∃ L', charLoop fuel charCount L = .ok (charCount + n, L') ∧ Moved L (L.rest.take n) L' ∧
      n < L.rest.length := by
  induction fuel generalizing L n charCount with
  | zero => exact absurd hfuel (Nat.not_lt_zero _)
  | succ fuel ih =>
      cases hrest : L.rest with
      | nil =>
          rw [hrest] at hlength
          cases hlength
      | cons c s =>
          rw [hrest] at hlength hfuel
          rw [List.length_cons] at hfuel
          unfold charLength at hlength
          rw [charLoop, Lexer.getCurChar_of_cons hrest]
          have hone := Moved.skipChar hprev hrest
          have htail := rest_behind hprev hrest
          by_cases hend : (decide (c = ascii '\'') || decide (c = ascii '\n')) = true
          · rw [if_pos hend] at hlength ⊢
            cases hlength
            exact ⟨L, rfl, Moved.refl hprev, Nat.succ_pos _⟩
          rw [if_neg hend] at hlength ⊢
          by_cases hslash : c = ascii '\\'
          · rw [if_pos hslash] at hlength ⊢
            cases s with
            | nil => cases hlength
            | cons d t =>
                have htail' := rest_behind hone.prev htail
                have htwo := hone.trans (Moved.skipChar hone.prev htail)
                obtain ⟨m, hm, rfl⟩ := Option.map_eq_some_iff.mp hlength
                obtain ⟨L', hrun, hmoved, hlen⟩ := ih (charCount + 2) htwo.prev
                  (by rw [htail']; exact hm) (by rw [htail']; rw [List.length_cons] at hfuel; omega)
                rw [htail'] at hmoved hlen
                refine ⟨L', ?_, htwo.trans hmoved, ?_⟩
                · rw [hrun, Nat.add_right_comm, Nat.add_assoc]
                · rw [List.length_cons, List.length_cons]
                  omega
          · rw [if_neg hslash] at hlength ⊢
            obtain ⟨m, hm, rfl⟩ := Option.map_eq_some_iff.mp hlength
            obtain ⟨L', hrun, hmoved, hlen⟩ := ih (charCount + 1) hone.prev
              (by rw [htail]; exact hm) (by rw [htail]; omega)
            rw [htail] at hmoved hlen
            refine ⟨L', ?_, hone.trans hmoved, ?_⟩
            · rw [hrun, Nat.add_right_comm, Nat.add_assoc]
            · rw [List.length_cons]
              omega

theorem converts {m : ℕ} (h : m = 0 ∨ (0x80 ≤ charAt s 0 → BeginsSequence s m)) :
    ∃ v, convertEscapeSeq s m = some v := by
  rcases Nat.eq_zero_or_pos m with rfl | hpos
  · exact ⟨(0, 0), rfl⟩
  · have hsequence := h.resolve_left (Nat.ne_of_gt hpos)
    exact Option.isSome_iff_exists.mp (Iff.mpr (convertEscapeSeq_isSome_iff s hpos) hsequence)

theorem lexChar_yields (hprev : L.prev = []) (hcloses : CharCloses stray L.rest)
    (hfuel : L.rest.length < fuel) : Yields L (lexChar stray fuel start L) := by
  obtain ⟨n, hlength, hconvert⟩ := hcloses
  obtain ⟨M, hrun, hmoved, hlen⟩ := charLoop_returns 0 hprev hlength hfuel
  have hptr : L.getCurPtr = L.rest := by
    cases hrest : L.rest with
    | nil =>
        rw [hrest] at hlen
        cases hlen
    | cons c r => exact Lexer.getCurPtr_of_cons hrest
  unfold lexChar
  dsimp only
  rw [hrun, ok_bind]
  dsimp only
  cases hquote : M.acceptChar '\'' with
  | none => exact ⟨_, M, _, rfl, hmoved⟩
  | some N =>
      dsimp only
      obtain ⟨hend, -⟩ := moved_acceptChar hmoved.prev hquote
      have hpassed := hmoved.trans hend
      have hat : L.rest[n]? = some (ascii '\'') := by
        have htake : (L.rest.take n).length = n := List.length_take_of_le (Nat.le_of_lt hlen)
        rw [hmoved.rest, hend.rest, List.getElem?_append_right (Nat.le_of_eq htake), htake,
          Nat.sub_self]
        rfl
      have hlength : (if (N.isEofReached || decide (N.buffer.address ≠ L.buffer.address)) = true
          then stray else N.pos.byteOffset - L.pos.byteOffset - 1) =
          if L.rest.length = n + 1 then stray else n := by
        have haddress : N.buffer.address = L.buffer.address := by rw [hpassed.same]
        have hrest := hpassed.length_rest
        have hoffset := hpassed.offset
        rw [List.length_append, List.length_take_of_le (Nat.le_of_lt hlen),
          List.length_singleton] at hrest hoffset
        have heof : N.isEofReached = true ↔ L.rest.length = n + 1 := by
          rw [Lexer.isEofReached_iff, ← List.length_eq_zero_iff]
          omega
        rw [haddress, decide_eq_false (fun h => h rfl), Bool.or_false]
        simp only [heof]
        split_ifs
        · rfl
        · omega
      rw [hlength, hptr]
      obtain ⟨v, hv⟩ := converts (hconvert hat)
      rw [hv]
      dsimp only
      split_ifs
      · exact ⟨_, N, _, rfl, hpassed⟩
      · exact ⟨_, N, _, rfl, hpassed⟩

theorem twoQuotes_iff (hprev : L.prev = []) :
    (decide (L.getCurChar = ascii '"') && decide (L.peekNextChar = ascii '"')) = true ↔
      ∃ s, L.rest = ascii '"' :: ascii '"' :: s := by
  have heof : EoF ≠ ascii '"' := by decide
  rw [Bool.and_eq_true, decide_eq_true_iff, decide_eq_true_iff]
  cases hrest : L.rest with
  | nil =>
      rw [Lexer.getCurChar_of_nil hrest]
      exact iff_of_false (fun h => heof h.1) nofun
  | cons c s =>
      rw [Lexer.getCurChar_of_cons hrest, Lexer.peekNextChar_alone hprev hrest]
      cases s with
      | nil => exact iff_of_false (fun h => heof h.2) nofun
      | cons d t =>
          constructor
          · rintro ⟨rfl, rfl⟩
            exact ⟨t, rfl⟩
          · rintro ⟨u, hu⟩
            obtain ⟨hc, hu⟩ := List.cons.inj hu
            exact ⟨hc, (List.cons.inj hu).1⟩

/-- The loop over a multi-line string asks for the end of the input. Kind: L -/
theorem multilineLoop_yields {buffer : ℕ} (hprev : L.prev = []) (hfuel : L.rest.length < fuel) :
    Yields L (multilineLoop buffer start fuel L) := by
  induction fuel generalizing L with
  | zero => exact absurd hfuel (Nat.not_lt_zero _)
  | succ fuel ih =>
      rw [multilineLoop]
      cases hrest : L.rest with
      | nil =>
          rw [if_pos (Iff.mpr Lexer.isEofReached_iff hrest)]
          exact ⟨_, L, [], rfl, Moved.refl hprev⟩
      | cons c s =>
          rw [hrest, List.length_cons] at hfuel
          have hone := Moved.skipChar hprev hrest
          have htail := rest_behind hprev hrest
          have hagain := (ih hone.prev (by rw [htail]; omega)).behind hone
          rw [Lexer.isEofReached_of_cons hrest, if_neg (by decide),
            Lexer.acceptChar_of_cons '"' hrest]
          by_cases hquote : c = ascii '"'
          · rw [if_pos hquote]
            dsimp only
            split_ifs with hclose
            · obtain ⟨t, ht⟩ := Iff.mp (twoQuotes_iff hone.prev) hclose
              have htwo := hone.trans (Moved.skipChar hone.prev ht)
              have htail' := rest_behind hone.prev ht
              exact ⟨_, _, _, rfl, htwo.trans (Moved.skipChar htwo.prev htail')⟩
            · exact hagain
          · rw [if_neg hquote]
            exact hagain

theorem skipClass_returns {p : UInt8 → Bool} (heof : p EoF = false) (hprev : L.prev = [])
    (hfuel : L.rest.length < fuel) :
    ∃ L' q, skipClass p fuel L = .ok L' ∧ Moved L q L' ∧ L'.rest.length < fuel := by
  obtain ⟨L', hrun, hmoved, -⟩ := loopWhile_spec (asksFor_class heof) hprev
    (Nat.lt_of_le_of_lt (List.takeWhile_prefix p).length_le hfuel)
  have hlen := hmoved.length_rest
  exact ⟨L', _, hrun, hmoved, by omega⟩

theorem loopWhile_returns {p : UInt8 → Bool} (hprev : L.prev = []) (hfuel : L.rest.length < fuel) :
    ∃ L', loopWhile (fun L => !L.isEofReached && p L.getCurChar) fuel L = .ok L' ∧
      Moved L (L.rest.takeWhile p) L' ∧ L'.flags = L.flags :=
  loopWhile_spec (asksFor_guarded p) hprev
    (Nat.lt_of_le_of_lt (List.takeWhile_prefix p).length_le hfuel)

theorem lexIdent_yields {buffer : ℕ} (hprev : L.prev = []) (hrest : L.rest = c :: r)
    (hfuel : L.rest.length < fuel) :
    ∃ tok L' p, lexIdent fuel buffer L = .ok (tok, L') ∧ Moved L (c :: p) L' := by
  have hone := Moved.skipChar hprev hrest
  have hlen := hone.length_rest
  obtain ⟨M, q, hrun, hmoved, -⟩ := skipClass_returns (L := L.skipChar)
    (p := fun c => decide (c = ascii '_') || isalnum c) rfl hone.prev
    (by omega : L.skipChar.rest.length < fuel)
  unfold lexIdent
  dsimp only
  rw [hrun, ok_bind]
  generalize keywordList.find? _ = word
  cases word with
  | none => exact ⟨_, M, q, rfl, hone.trans hmoved⟩
  | some word => exact ⟨_, M, q, rfl, hone.trans hmoved⟩

theorem lexPrefixed_yields {base : ℕ} {p : UInt8 → Bool} {errMsg : String} (heof : p EoF = false)
    (hprev : L.prev = []) (hfuel : L.rest.length < fuel) :
    Yields L (lexPrefixed base p errMsg fuel start L) := by
  obtain ⟨M, q, hrun, hmoved, hlen⟩ := skipClass_returns heof hprev hfuel
  unfold lexPrefixed
  rw [hrun, ok_bind]
  split_ifs
  · obtain ⟨N, hrun', hmoved', -⟩ :=
      loopWhile_returns (p := fun c => !isSpaceOrPunctuation c) hmoved.prev hlen
    rw [skipUntilSpaceOrPunctuation, hrun', ok_bind]
    exact ⟨_, N, _, rfl, hmoved.trans hmoved'⟩
  · exact ⟨_, M, q, rfl, hmoved⟩

theorem skipFraction_returns (hprev : L.prev = []) (hrest : L.rest = c :: r)
    (hfuel : L.rest.length < fuel) : ∃ L' p, skipFraction fuel L = .ok L' ∧ Moved L p L' := by
  have hone := Moved.skipChar hprev hrest
  have hlen := hone.length_rest
  obtain ⟨M, q, hrun, hmoved, hleft⟩ :=
    skipClass_returns (p := isdigit) rfl hone.prev (by omega : L.skipChar.rest.length < fuel)
  unfold skipFraction
  rw [hrun, ok_bind]
  have hbehind := hone.trans hmoved
  cases he : M.acceptChar 'e' with
  | none => exact ⟨M, _, rfl, hbehind⟩
  | some N =>
      dsimp only
      obtain ⟨hexponent, -⟩ := moved_acceptChar hmoved.prev he
      have hdigits : ∀ {N' p}, Moved N p N' →
          ∃ L' p, skipClass isdigit fuel N' = .ok L' ∧ Moved L p L' := by
        intro N' p hsign
        have hlen' := (hexponent.trans hsign).length_rest
        obtain ⟨L', q', hrun', hmoved', -⟩ :=
          skipClass_returns (p := isdigit) rfl hsign.prev (by omega : N'.rest.length < fuel)
        exact ⟨L', _, hrun', ((hbehind.trans hexponent).trans hsign).trans hmoved'⟩
      cases hplus : N.acceptChar '+' with
      | some N' => exact hdigits (moved_acceptChar hexponent.prev hplus).1
      | none =>
          dsimp only
          cases hminus : N.acceptChar '-' with
          | some N' => exact hdigits (moved_acceptChar hexponent.prev hminus).1
          | none => exact hdigits (Moved.refl hexponent.prev)

theorem lexDecimal_yields {ptr : List UInt8} (hprev : L.prev = []) (hfuel : L.rest.length < fuel) :
    Yields L (lexDecimal fuel start ptr L) := by
  obtain ⟨M, q, hrun, hmoved, hlen⟩ := skipClass_returns (p := isdigit) rfl hprev hfuel
  unfold lexDecimal
  rw [hrun, ok_bind]
  split_ifs with hdot
  · cases hrest : M.rest with
    | nil =>
        rw [Lexer.getCurChar_of_nil hrest] at hdot
        cases hdot
    | cons c r =>
        obtain ⟨N, p, hrun', hmoved'⟩ := skipFraction_returns hmoved.prev hrest hlen
        rw [hrun', ok_bind]
        exact ⟨_, N, _, rfl, hmoved.trans hmoved'⟩
  · exact ⟨_, M, q, rfl, hmoved⟩

/-- A result that is behind at least one character. -/
def YieldsBehind (L : Lexer) (x : Except Halt (Token × Lexer)) : Prop :=
  ∃ tok L' c p, x = .ok (tok, L') ∧ Moved L (c :: p) L'

theorem Yields.behindOne {M : Lexer} {p : List UInt8} {x : Except Halt (Token × Lexer)}
    (hmoved : Moved L (c :: p) M) (h : Yields M x) : YieldsBehind L x := by
  obtain ⟨tok, L', q, hx, hmoved'⟩ := h
  exact ⟨tok, L', c, p ++ q, hx, hmoved.trans hmoved'⟩

theorem lexNumber_yields {buffer : ℕ} (hprev : L.prev = []) (hrest : L.rest = c :: r)
    (hfuel : L.rest.length < fuel) : YieldsBehind L (lexNumber fuel buffer L) := by
  have hone := Moved.skipChar hprev hrest
  have hlen := hone.length_rest
  have hdecimal : YieldsBehind L
    (lexDecimal fuel (L.deref buffer).filePos L.getCurPtr L.skipChar) :=
    (lexDecimal_yields hone.prev (by omega)).behindOne hone
  have hprefixed : ∀ {base : ℕ} {p : UInt8 → Bool} {errMsg : String} {ch : Char} {M : Lexer},
      p EoF = false → L.skipChar.acceptChar ch = some M →
      YieldsBehind L (lexPrefixed base p errMsg fuel (L.deref buffer).filePos M) := by
    intro base p errMsg ch M heof haccept
    obtain ⟨hahead, -⟩ := moved_acceptChar hone.prev haccept
    have hlen' := hahead.length_rest
    exact (lexPrefixed_yields heof hahead.prev (by omega)).behindOne (hone.trans hahead)
  unfold lexNumber
  dsimp only
  by_cases hzero : L.getCurChar = ascii '0'
  · rw [if_pos hzero]
    cases hb : L.skipChar.acceptChar 'b' with
    | some M => exact hprefixed rfl hb
    | none =>
        dsimp only
        cases hx : L.skipChar.acceptChar 'x' with
        | some M => exact hprefixed rfl hx
        | none =>
            dsimp only
            cases ho : L.skipChar.acceptChar 'o' with
            | some M => exact hprefixed rfl ho
            | none => exact hdecimal
  · rw [if_neg hzero]
    exact hdecimal

/-! ## White space and comments -/

/-- What is behind a comment. -/
inductive Comment : List UInt8 → List UInt8 → Prop
  | line (s : List UInt8) :
      Comment (ascii '/' :: ascii '/' :: s) (s.dropWhile fun c => decide (c ≠ ascii '\n'))
  | block {s t : List UInt8} (h : commentRest s 1 = some t) :
      Comment (ascii '/' :: ascii '*' :: s) t

/-- What is behind white space and comments. -/
inductive Behind : List UInt8 → List UInt8 → Prop
  | spaces (s : List UInt8) : Behind s (s.dropWhile isspace)
  | comment {s t u : List UInt8} (h : Comment (s.dropWhile isspace) t) (h' : Behind t u) :
      Behind s u

theorem Comment.head {s t : List UInt8} (h : Comment s t) : s.head? = some (ascii '/') := by
  cases h <;> rfl

/-- Only white space is in front of anything but a comment. Kind: L -/
theorem Behind.of_no_comment {s t : List UInt8} (h : Behind s t)
    (hno : (s.dropWhile isspace).head? ≠ some (ascii '/')) : t = s.dropWhile isspace := by
  cases h with
  | spaces => rfl
  | comment h h' => exact absurd h.head hno

/-- A round returns behind at least one character, and without a token behind a comment. -/
def RoundPasses (L : Lexer) (x : Except Halt Round) : Prop :=
  ∃ found L', x = .ok (found, L') ∧ (∃ c p, Moved L (c :: p) L') ∧
    (found = none → L'.flags = L.flags ∧ Comment L.rest L'.rest)

theorem YieldsBehind.round {x : Except Halt (Token × Lexer)} (h : YieldsBehind L x) :
    RoundPasses L (toRound x) := by
  obtain ⟨tok, L', c, p, rfl, hmoved⟩ := h
  exact ⟨some tok, L', rfl, ⟨c, p, hmoved⟩, nofun⟩

theorem roundPasses_some {p : List UInt8} (tok : Token) (h : Moved L (c :: p) L') :
    RoundPasses L (.ok (some tok, L')) :=
  ⟨some tok, L', rfl, ⟨c, p, h⟩, nofun⟩

theorem lexSlash_passes {M : Lexer} (hmoved : Moved L [ascii '/'] M) (hflags : M.flags = L.flags)
    (hfuel : M.rest.length < fuel) : RoundPasses L (lexSlash fuel start M) := by
  unfold lexSlash
  cases hline : M.acceptChar '/' with
  | some N =>
      dsimp only
      obtain ⟨hslash, hflags'⟩ := moved_acceptChar hmoved.prev hline
      have hlen := hslash.length_rest
      obtain ⟨N', hskip, hcomment, hflags''⟩ := loopWhile_returns
        (p := fun c => decide (c ≠ ascii '\n')) hslash.prev (by omega : N.rest.length < fuel)
      rw [skipSingleLineComment, hskip, ok_bind]
      have htext := (hmoved.trans hslash).rest
      refine ⟨none, N', rfl, ⟨_, _, (hmoved.trans hslash).trans hcomment⟩, fun _ => ⟨?_, ?_⟩⟩
      · rw [hflags'', hflags', hflags]
      · rw [hcomment.rest_takeWhile, htext]
        exact Comment.line N.rest
  | none =>
      dsimp only
      cases hblock : M.acceptChar '*' with
      | some N =>
          dsimp only
          obtain ⟨hstar, hflags'⟩ := moved_acceptChar hmoved.prev hblock
          have hlen := hstar.length_rest
          obtain ⟨⟨closed, N'⟩, hskip⟩ :=
            skipMultiLineComment_returns 1 hstar.prev (by omega : N.rest.length < fuel)
          obtain ⟨hflags'', ⟨q, hcomment⟩, hclosed⟩ :=
            skipMultiLineComment_moved hstar.prev hskip
          rw [hskip, ok_bind]
          dsimp only
          have hbehind := (hmoved.trans hstar).trans hcomment
          cases closed with
          | true =>
              refine ⟨none, N', rfl, ⟨_, _, hbehind⟩, fun _ => ⟨?_, ?_⟩⟩
              · rw [hflags'', hflags', hflags]
              · rw [(hmoved.trans hstar).rest]
                exact Comment.block hclosed
          | false => exact roundPasses_some _ hbehind
      | none =>
          dsimp only
          cases hassign : M.acceptChar '=' with
          | some N =>
              exact roundPasses_some _ (hmoved.trans (moved_acceptChar hmoved.prev hassign).1)
          | none => exact roundPasses_some _ hmoved

theorem lexWord_passes (hprev : L.prev = []) (hrest : L.rest = c :: r)
    (hfuel : L.rest.length < fuel) : RoundPasses L (lexWord fuel start L) := by
  have hone := Moved.skipChar hprev hrest
  unfold lexWord
  split_ifs
  · refine YieldsBehind.round ?_
    unfold lexFString
    dsimp only
    split_ifs
    · exact ⟨_, _, c, [], rfl, hone⟩
    · exact ⟨_, _, c, [], rfl, hone.setFlags _⟩
  · obtain ⟨tok, L', p, hrun, hmoved⟩ :=
      lexIdent_yields hprev hrest hfuel
    exact YieldsBehind.round ⟨tok, L', c, p, hrun, hmoved⟩
  · exact (lexNumber_yields hprev hrest hfuel).round
  · exact YieldsBehind.round ⟨_, _, c, [], rfl, hone⟩

/-- The literal that begins here is closed, or the string that goes on behind the brace. -/
def LiteralCloses (stray : ℕ) (continued : Bool) : List UInt8 → Prop
  | [] => True
  | c :: s =>
      (c = ascii '"' → s.take 2 = text "\"\"" ∨ stringCloses false s = true) ∧
      (c = ascii '\x7d' → continued = true → stringCloses true s = true) ∧
      (c = ascii '\'' → CharCloses stray s)

/-- **A token that begins here is returned, or a comment is passed.** Kind: P -/
theorem lexToken_passes (hprev : L.prev = []) (hrest : L.rest = c :: r)
    (hcloses : LiteralCloses stray L.flags.continueStringExpr L.rest)
    (hfuel : L.rest.length < fuel) : RoundPasses L (lexToken stray fuel start L) := by
  have hone := Moved.skipChar hprev hrest
  have hlen := hone.length_rest
  have htail := rest_behind hprev hrest
  have haccepted : ∀ {ch : Char} {M : Lexer}, L.acceptChar ch = some M →
      c = ascii ch ∧ M = L.skipChar := by
    intro ch M haccept
    obtain ⟨⟨r', hr'⟩, hM⟩ := Lexer.acceptChar_eq_some haccept
    rw [hrest] at hr'
    exact ⟨(List.cons.inj hr').1, hM⟩
  have hoperator : ∀ {branches : List (Char × Cascade)} {o : TokenTag × Lexer},
      acceptAny branches L = some o →
      RoundPasses L (toRound (.ok (operatorToken start o))) := by
    intro branches o haccept
    obtain ⟨-, d, p, hmoved⟩ := acceptAny_spec branches L o hprev haccept
    refine YieldsBehind.round ⟨_, _, d, p, rfl, ?_⟩
    split_ifs
    · exact hmoved.setFlags _
    · exact hmoved
  rw [hrest] at hcloses
  obtain ⟨hstring, hbrace, hchar⟩ := hcloses
  unfold lexToken
  cases hfirst : acceptAny operators₁ L with
  | some o => exact hoperator hfirst
  | none =>
  dsimp only
  cases hclose : L.acceptChar '\x7d' with
  | some M =>
      dsimp only
      obtain ⟨hc, rfl⟩ := haccepted hclose
      split_ifs with hcontinued
      · rw [Lexer.flags_skipChar] at hcontinued
        refine YieldsBehind.round ((lexString_yields hone.prev ?_ (by omega)).behindOne hone)
        rw [Lexer.flags_skipChar, hcontinued, htail]
        exact hbrace hc hcontinued
      · exact roundPasses_some _ hone
  | none =>
  dsimp only
  cases hsecond : acceptAny operators₂ L with
  | some o => exact hoperator hsecond
  | none =>
  dsimp only
  cases hslash : L.acceptChar '/' with
  | some M =>
      obtain ⟨hc, rfl⟩ := haccepted hslash
      rw [hc] at hone
      exact lexSlash_passes hone Lexer.flags_skipChar (by omega)
  | none =>
  dsimp only
  cases hquote : L.acceptChar '"' with
  | some M =>
      dsimp only
      obtain ⟨hc, rfl⟩ := haccepted hquote
      split_ifs with hmulti
      · obtain ⟨t, ht⟩ := Iff.mp (twoQuotes_iff hone.prev) hmulti
        have htwo := hone.trans (Moved.skipChar hone.prev ht)
        have hthree := htwo.trans (Moved.skipChar htwo.prev (rest_behind hone.prev ht))
        have hlen' := hthree.length_rest
        exact YieldsBehind.round ((multilineLoop_yields hthree.prev (by omega)).behindOne hthree)
      · refine YieldsBehind.round ((lexString_yields hone.prev ?_ (by omega)).behindOne hone)
        rw [htail]
        refine (hstring hc).resolve_left fun htwo => hmulti (Iff.mpr (twoQuotes_iff hone.prev) ?_)
        refine ⟨r.drop 2, ?_⟩
        rw [htail]
        nth_rewrite 1 [← List.take_append_drop 2 r]
        rw [htwo]
        rfl
  | none =>
  dsimp only
  cases hsingle : L.acceptChar '\'' with
  | some M =>
      obtain ⟨hc, rfl⟩ := haccepted hsingle
      refine YieldsBehind.round ((lexChar_yields hone.prev ?_ (by omega)).behindOne hone)
      rw [htail]
      exact hchar hc
  | none => exact lexWord_passes hprev hrest hfuel

/-! ## Calls -/

/-- What a call finds is closed: the string that it goes on with, or the literal behind white space
and comments. -/
def CallCloses (stray : ℕ) (L : Lexer) : Prop :=
  if L.flags.exitStringExpr || L.flags.returnLStrFmt then True
  else if L.flags.enterStringExpr then stringCloses true L.rest.tail = true
  else ∀ s, Behind L.rest s → LiteralCloses stray L.flags.continueStringExpr s

/-- The tokens that are returned without text. -/
def pending (L : Lexer) : ℕ := L.flags.exitStringExpr.toNat + L.flags.returnLStrFmt.toNat

/-- A call returns the end, or a token without text, or it passes text. -/
def Progresses (L : Lexer) (tok : Token) (L' : Lexer) : Prop :=
  tok.tag = .eof ∨
    ((tok.tag = .rString ∨ tok.tag = .lStrFmt) ∧ L'.rest = L.rest ∧ pending L' < pending L) ∨
    L'.rest.length < L.rest.length

/-- The lexer in a string that it has entered. -/
def entered (L : Lexer) : Lexer :=
  { L with flags.enterStringExpr := false, flags.continueStringExpr := true }

theorem lexRound_of_enter (h : L.flags.enterStringExpr = true) :
    lexRound stray fuel L =
      toRound (lexString fuel false (entered L).skipChar.buffer.address (entered L).skipChar) := by
  unfold lexRound
  rw [if_pos h]
  rfl

theorem lexRound_enter (hprev : L.prev = []) (henter : L.flags.enterStringExpr = true)
    (hcloses : stringCloses true L.rest.tail = true) (hfuel : L.rest.length < fuel) :
    ∃ tok L' c p, lexRound stray fuel L = .ok (some tok, L') ∧ Moved L (c :: p) L' := by
  cases hrest : L.rest with
  | nil =>
      rw [hrest] at hcloses
      cases hcloses
  | cons c r =>
      have hentered : (entered L).prev = [] := hprev
      have htext : (entered L).rest = c :: r := hrest
      have hone := Moved.skipChar hentered htext
      have hlen := hone.length_rest
      rw [htext, ← hrest] at hlen
      rw [hrest, List.tail_cons] at hcloses
      have hclose : stringCloses (!false && (entered L).skipChar.flags.continueStringExpr)
          (entered L).skipChar.rest = true := by
        rw [Lexer.flags_skipChar, rest_behind hentered htext]
        exact hcloses
      obtain ⟨tok, L', p, hrun, hmoved⟩ :=
        lexString_yields hone.prev hclose (by omega : (entered L).skipChar.rest.length < fuel)
      rw [lexRound_of_enter henter, hrun]
      exact ⟨tok, L', c, p, rfl, Moved.of_flags (L := L) (hone.trans hmoved)⟩

/-- **A round returns a token, or it passes a comment.** Kind: P -/
theorem lexRound_passes (hprev : L.prev = []) (henter : L.flags.enterStringExpr = false)
    (hcloses : LiteralCloses stray L.flags.continueStringExpr (L.rest.dropWhile isspace))
    (hfuel : L.rest.length < fuel) :
    ∃ found L', lexRound stray fuel L = .ok (found, L') ∧ (∃ p, Moved L p L') ∧
      ((∃ tok, found = some tok ∧ tok.tag = .eof) ∨ L'.rest.length < L.rest.length) ∧
      (found = none → L'.flags = L.flags ∧ Comment (L.rest.dropWhile isspace) L'.rest) := by
  obtain ⟨M, hskip, hmoved, hflags⟩ := loopWhile_returns (p := isspace) hprev hfuel
  have hleft : M.rest = L.rest.dropWhile isspace := hmoved.rest_takeWhile
  have hleave : leaveBuffers fuel M = .ok M := by
    obtain ⟨k, rfl⟩ := Nat.exists_eq_succ_of_ne_zero (Nat.ne_zero_of_lt hfuel)
    rw [leaveBuffers, hmoved.prev, List.isEmpty_nil, Bool.not_true, Bool.and_false]
    rfl
  have hlen := hmoved.length_rest
  unfold lexRound
  rw [henter, if_neg Bool.false_ne_true, skipSpaces, hskip, ok_bind]
  dsimp only
  rw [hleave, ok_bind]
  cases hrest : M.rest with
  | nil =>
      rw [if_pos (Iff.mpr Lexer.isEofReached_iff hrest)]
      exact ⟨_, M, rfl, ⟨_, hmoved⟩, Or.inl ⟨_, rfl, rfl⟩, nofun⟩
  | cons c r =>
      rw [Lexer.isEofReached_of_cons hrest, if_neg Bool.false_ne_true]
      rw [← hflags, ← hleft] at hcloses
      have hpasses : RoundPasses M (lexToken stray fuel M.pos M) :=
        lexToken_passes hmoved.prev hrest hcloses (by omega)
      obtain ⟨found, L', hrun, ⟨d, p, hpassed⟩, hnone⟩ := hpasses
      have hlen' := hpassed.length_rest
      rw [List.length_cons] at hlen'
      refine ⟨found, L', hrun, ⟨_, hmoved.trans hpassed⟩, Or.inr (by omega), fun hfound => ?_⟩
      obtain ⟨hflags', hcomment⟩ := hnone hfound
      rw [hleft] at hcomment
      exact ⟨hflags'.trans hflags, hcomment⟩

theorem lexLoop_returns {rounds : ℕ} (hprev : L.prev = [])
    (henter : L.flags.enterStringExpr = false)
    (hcloses : ∀ s, Behind L.rest s → LiteralCloses stray L.flags.continueStringExpr s)
    (hrounds : L.rest.length < rounds) (hfuel : L.rest.length < fuel) :
    ∃ tok L' p, lexLoop stray rounds fuel L = .ok (tok, L') ∧ Moved L p L' ∧
      (tok.tag = .eof ∨ L'.rest.length < L.rest.length) := by
  induction fuel generalizing L with
  | zero => exact absurd hfuel (Nat.not_lt_zero _)
  | succ fuel ih =>
      obtain ⟨found, M, hround, ⟨p, hmoved⟩, hpassed, hnone⟩ :=
        lexRound_passes hprev henter (hcloses _ (Behind.spaces L.rest)) hrounds
      rw [lexLoop, hround, ok_bind]
      cases found with
      | some tok =>
          refine ⟨tok, M, p, rfl, hmoved, hpassed.imp_left ?_⟩
          rintro ⟨t, ht, htag⟩
          rwa [Option.some.inj ht]
      | none =>
          obtain ⟨hflags, hcomment⟩ := hnone rfl
          have hlen : M.rest.length < L.rest.length := by
            rcases hpassed with ⟨t, ht, -⟩ | hlen
            · cases ht
            · exact hlen
          obtain ⟨tok, L', q, hrun, hmoved', hend⟩ := ih hmoved.prev (by rw [hflags]; exact henter)
            (by
              intro s hs
              rw [hflags]
              exact hcloses s (Behind.comment hcomment hs)) (by omega) (by omega)
          exact ⟨tok, L', _, hrun, hmoved.trans hmoved', hend.imp_right fun h => by omega⟩

/-- **A call that finds something closed returns, and makes progress.** Kind: P -/
theorem advanceLexer_returns (hprev : L.prev = []) (hcloses : CallCloses stray L)
    (hfuel : L.rest.length < fuel) :
    ∃ tok L' p, advanceLexer stray fuel L = .ok (tok, L') ∧ Moved L p L' ∧
      Progresses L tok L' := by
  unfold advanceLexer
  unfold CallCloses at hcloses
  by_cases hexit : L.flags.exitStringExpr = true
  · rw [if_pos hexit]
    refine ⟨_, _, [], rfl, (Moved.refl hprev).setFlags _, Or.inr (Or.inl ⟨Or.inl rfl, rfl, ?_⟩)⟩
    unfold pending
    rw [hexit]
    dsimp only [Bool.toNat_false, Bool.toNat_true]
    omega
  rw [if_neg hexit]
  by_cases hformat : L.flags.returnLStrFmt = true
  · rw [if_pos hformat]
    refine ⟨_, _, [], rfl, (Moved.refl hprev).setFlags _, Or.inr (Or.inl ⟨Or.inr rfl, rfl, ?_⟩)⟩
    unfold pending
    rw [hformat]
    dsimp only [Bool.toNat_false, Bool.toNat_true]
    omega
  rw [if_neg hformat]
  rw [if_neg (by simp [hexit, hformat])] at hcloses
  obtain ⟨E, hE, hrest, hstart, henter, hcontinue⟩ : ∃ E : Lexer,
      E = (if (L.flags.maybeNotFloat &&
        (!isdigit L.getCurChar && decide (L.getCurChar ≠ ascii '.'))) = true then
        { L with flags.maybeNotFloat := false } else L) ∧ E.rest = L.rest ∧ Moved L [] E ∧
        E.flags.enterStringExpr = L.flags.enterStringExpr ∧
        E.flags.continueStringExpr = L.flags.continueStringExpr := by
    refine ⟨_, rfl, ?_⟩
    split_ifs
    · exact ⟨rfl, (Moved.refl hprev).setFlags _, rfl, rfl⟩
    · exact ⟨rfl, Moved.refl hprev, rfl, rfl⟩
  dsimp only
  rw [← hE]
  rw [← henter, ← hcontinue, ← hrest] at hcloses
  rw [← hrest] at hfuel
  have hfinish : ∀ {x : Except Halt (Token × Lexer)}, (∃ tok L' p, x = .ok (tok, L') ∧
      Moved E p L' ∧ (tok.tag = .eof ∨ L'.rest.length < E.rest.length)) →
      ∃ tok L' p, x = .ok (tok, L') ∧ Moved L p L' ∧ Progresses L tok L' := by
    rintro x ⟨tok, L', p, hx, hmoved, hend⟩
    rw [hrest] at hend
    exact ⟨tok, L', p, hx, hstart.trans hmoved, hend.imp_right Or.inr⟩
  apply hfinish
  cases hE' : E.flags.enterStringExpr with
  | true =>
      rw [hE', if_pos rfl] at hcloses
      obtain ⟨k, rfl⟩ := Nat.exists_eq_succ_of_ne_zero (Nat.ne_zero_of_lt hfuel)
      obtain ⟨tok, L', c, p, hround, hmoved⟩ :=
        @lexRound_enter _ _ stray hstart.prev hE' hcloses hfuel
      have hlen := hmoved.length_rest
      rw [List.length_cons] at hlen
      rw [lexLoop, hround, ok_bind]
      exact ⟨tok, L', _, rfl, hmoved, Or.inr (by omega)⟩
  | false =>
      rw [hE', if_neg Bool.false_ne_true] at hcloses
      exact lexLoop_returns hstart.prev hE' hcloses hfuel hfuel

/-! ## Runs -/

/-- The tokens of some calls, and the lexer behind them. -/
def nextTokens (stray fuel : ℕ) : ℕ → Lexer → Except Halt (List Token × Lexer)
  | 0, L => .ok ([], L)
  | n + 1, L => do
      let r ← advanceLexer stray fuel L
      let rs ← nextTokens stray fuel n r.2
      .ok (r.1 :: rs.1, rs.2)

/-- The lexers behind some calls. -/
inductive Reached (stray fuel : ℕ) (L₀ : Lexer) : Lexer → Prop
  | start : Reached stray fuel L₀ L₀
  | call {L L' : Lexer} {tok : Token} (h : Reached stray fuel L₀ L)
      (hcall : advanceLexer stray fuel L = .ok (tok, L')) : Reached stray fuel L₀ L'

/-- What is left to do: each character stands for a call, with a token without text on either
side. -/
def left (L : Lexer) : ℕ := 3 * L.rest.length + pending L

theorem left_lt {tok : Token} (h : Progresses L tok L') (hne : tok.tag ≠ .eof) :
    left L' < left L := by
  have hpending : ∀ M : Lexer, pending M ≤ 2 := fun M =>
    Nat.add_le_add (Bool.toNat_le _) (Bool.toNat_le _)
  rcases h with heof | ⟨-, hrest, hlt⟩ | hlt
  · exact absurd heof hne
  · unfold left
    rw [hrest]
    omega
  · have hle := hpending L'
    unfold left
    omega

/-- A lexer that has been reached, and the calls up to the end of the file. Kind: L -/
theorem reaches_eof {L₀ : Lexer} (hprev : L₀.prev = []) (hfuel : L₀.rest.length < fuel)
    (hcloses : ∀ L, Reached stray fuel L₀ L → CallCloses stray L) :
    ∀ L, Reached stray fuel L₀ L →
      (L.prev = [] ∧ L.rest.length < fuel) ∧
      ∃ n ts M tok L', n ≤ left L ∧ nextTokens stray fuel n L = .ok (ts, M) ∧
        advanceLexer stray fuel M = .ok (tok, L') ∧ tok.tag = .eof := by
  have hinv : ∀ L, Reached stray fuel L₀ L → L.prev = [] ∧ L.rest.length < fuel := by
    intro L hreached
    induction hreached with
    | start => exact ⟨hprev, hfuel⟩
    | call h hcall ih =>
        obtain ⟨tok, L', p, hrun, hmoved, -⟩ := advanceLexer_returns ih.1 (hcloses _ h) ih.2
        rw [hrun] at hcall
        cases hcall
        have hlen := hmoved.length_rest
        exact ⟨hmoved.prev, by omega⟩
  intro L hreached
  refine ⟨hinv L hreached, ?_⟩
  -- each call that does not return the end leaves less to do
  induction hleft : left L using Nat.strong_induction_on generalizing L with | h k ih
  obtain ⟨hprevL, hfuelL⟩ := hinv L hreached
  obtain ⟨tok, L', p, hrun, -, hprogress⟩ :=
    advanceLexer_returns hprevL (hcloses L hreached) hfuelL
  by_cases heof : tok.tag = .eof
  · exact ⟨0, [], L, tok, L', Nat.zero_le _, rfl, hrun, heof⟩
  · have hless := left_lt hprogress heof
    rw [hleft] at hless
    obtain ⟨n, ts, M, t, M', hn, hruns, hcall, htag⟩ :=
      ih (left L') hless L' (Reached.call hreached hrun) rfl
    refine ⟨n + 1, tok :: ts, M, t, M', by omega, ?_, hcall, htag⟩
    rw [nextTokens, hrun, ok_bind]
    dsimp only
    rw [hruns]
    rfl

/-- **Where each call finds literals that are closed, every call returns and makes progress, and the
end of the file comes after a number of calls that is linear in its size.** Kind: P -/
theorem calls_return_until_eof {stray fuel : ℕ} {fileName fileData : List UInt8}
    (hfuel : fileData.length < fuel)
    (hcloses : ∀ L, Reached stray fuel (newLexer fileName fileData) L → CallCloses stray L) :
    (∀ L, Reached stray fuel (newLexer fileName fileData) L →
      ∃ tok L', advanceLexer stray fuel L = .ok (tok, L') ∧ Progresses L tok L') ∧
    ∃ n ts M tok L', n ≤ 3 * fileData.length ∧
      nextTokens stray fuel n (newLexer fileName fileData) = .ok (ts, M) ∧
      advanceLexer stray fuel M = .ok (tok, L') ∧ tok.tag = .eof := by
  have hreaches := @reaches_eof _ _ (newLexer fileName fileData) rfl hfuel hcloses
  refine ⟨fun L hreached => ?_, (hreaches _ Reached.start).2⟩
  obtain ⟨hprev, hlen⟩ := (hreaches L hreached).1
  obtain ⟨tok, L', p, hrun, -, hprogress⟩ :=
    advanceLexer_returns hprev (hcloses L hreached) hlen
  exact ⟨tok, L', hrun, hprogress⟩

/-- The file `"a"`: the string, and the end. Kind: L -/
theorem string_returned_until_eof :
    ∃ n ts M tok L', n ≤ 3 * (text "\"a\"").length ∧
      nextTokens 0 4 n (newLexer [] (text "\"a\"")) = .ok (ts, M) ∧
      advanceLexer 0 4 M = .ok (tok, L') ∧ tok.tag = .eof := by
  have hstates : ∀ L, Reached 0 4 (newLexer [] (text "\"a\"")) L →
      L = newLexer [] (text "\"a\"") ∨
        L = { newLexer [] (text "\"a\"") with buffer.filePos := ⟨1, 4, 3⟩ } := by
    intro L hreached
    induction hreached with
    | start => exact Or.inl rfl
    | call h hcall ih =>
        right
        rcases ih with rfl | rfl
        · have hrun : advanceLexer 0 4 (newLexer [] (text "\"a\"")) = .ok
            (⟨.stringLiteral, .none, 0, [], ⟨1, 2, 1⟩, ⟨1, 3, 2⟩⟩,
              { newLexer [] (text "\"a\"") with buffer.filePos := ⟨1, 4, 3⟩ }) := by decide
          rw [hrun] at hcall
          cases hcall
          rfl
        · have hrun : advanceLexer 0 4 { newLexer [] (text "\"a\"") with
              buffer.filePos := ⟨1, 4, 3⟩ } = .ok
            (⟨.eof, .none, 0, [], ⟨1, 4, 3⟩, ⟨1, 4, 3⟩⟩,
              { newLexer [] (text "\"a\"") with buffer.filePos := ⟨1, 4, 3⟩ }) := by decide
          rw [hrun] at hcall
          cases hcall
          rfl
  refine (calls_return_until_eof (by decide) fun L hreached => ?_).2
  rcases hstates L hreached with rfl | rfl
  · intro s hs
    rw [hs.of_no_comment (by decide)]
    exact ⟨fun _ => Or.inr (by decide), fun h => absurd h (by decide), fun h =>
      absurd h (by decide)⟩
  · intro s hs
    rw [hs.of_no_comment (by decide)]
    trivial

/-- Behind the end of the input a string is not left. Kind: L -/
theorem stringLoop_stuck {literal : Bool} {buffer : ℕ} (hprev : L.prev = []) (hrest : L.rest = []) :
    stringLoop literal buffer start fuel L = .error .rounds := by
  induction fuel generalizing L with
  | zero => rfl
  | succ fuel ih =>
      have htail : L.skipChar.rest = [] := by
        rw [Lexer.rest_skipChar hprev, hrest]
        rfl
      rw [stringLoop, Lexer.getCurChar_of_nil hrest, if_neg (by decide),
        Lexer.acceptChar_of_nil '\n' hrest]
      dsimp only
      rw [if_neg (by decide), if_neg (by simp [show EoF ≠ ascii '\x7b' by decide])]
      exact ih (Lexer.prev_skipChar hprev) htail

/-- A string that is not closed in a file of one character: the call does not return. A character
literal of three bytes that begins with a sequence of two aborts. Kind: P -/
theorem unterminated_never_returns :
    (∀ stray fuel : ℕ,
      advanceLexer stray fuel (newLexer [] (text "\"")) = .error .rounds) ∧
    ∀ stray : ℕ, advanceLexer stray 8 (newLexer [] [39, 0xC3, 0xA9, 97, 39, 10]) =
      .error .aborted := by
  refine ⟨fun stray fuel => ?_, fun stray => rfl⟩
  cases fuel with
  | zero => rfl
  | succ k =>
      have hstuck : lexString (k + 1) true 0 (newLexer [] (text "\"")).skipChar =
          .error .rounds := by
        rw [lexString, stringLoop_stuck rfl rfl]
        rfl
      have hround : lexRound stray (k + 1) (newLexer [] (text "\"")) = .error .rounds := by
        have hstring : lexRound stray (k + 1) (newLexer [] (text "\"")) =
            toRound (lexString (k + 1) true 0 (newLexer [] (text "\"")).skipChar) := rfl
        rw [hstring, hstuck]
        rfl
      have hloop : advanceLexer stray (k + 1) (newLexer [] (text "\"")) =
          lexLoop stray (k + 1) (k + 1) (newLexer [] (text "\"")) := rfl
      rw [hloop, lexLoop, hround]
      rfl

end CxyCompiler.Frontend.Lexing
