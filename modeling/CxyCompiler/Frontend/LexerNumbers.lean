import CxyCompiler.Frontend.LexerMoves

/-!
# Integer literals (`lang/frontend/lexer.c`)

The lexer finds the end of a literal, and `strtou128` reads the text again from where its digits
begin, with white space, a sign and a prefix in front of them.

* `splitLiteral`, `literalValue` — the base of a literal, its digits, and what they stand for.
* `strtou128_readAhead` — the conversion returns what it reads, or the greatest number.
* `lexToken_found` — only a number is an integer literal.
* `intLiteral_value_iff` — **a literal holds the value of its own digits exactly where they fit and
  there is one behind the prefix**, or no other is found in its place.
-/

namespace CxyCompiler.Frontend.Lexing

open CxyCompiler.Core CxyCompiler.Lib.Numeral

/-! ## Literals -/

/-- The base of a number and its text behind the prefix. -/
def splitLiteral (s : List UInt8) : ℕ × List UInt8 :=
  match s with
  | z :: c :: t =>
      if z = ascii '0' then
        if c = ascii 'b' then (2, t)
        else if c = ascii 'x' then (16, t)
        else if c = ascii 'o' then (8, t)
        else (10, s)
      else (10, s)
  | _ => (10, s)

/-- What the digits of a literal stand for. -/
def literalValue (lexeme : List UInt8) : ℕ :=
  value (splitLiteral lexeme).1 (splitLiteral lexeme).2

/-- The digits that `strtou128` reads. -/
def readAhead (base : ℕ) (s : List UInt8) : List UInt8 :=
  match s.dropWhile isspace with
  | [] => []
  | c :: t =>
      if c = ascii '+' then (skipBasePrefix base t).takeWhile (isDigitOf base)
      else if c = ascii '-' then []
      else (skipBasePrefix base (c :: t)).takeWhile (isDigitOf base)

variable {base : ℕ} {s t : List UInt8} {c : UInt8}

/-! ## What the conversion reads -/

/-- What is converted, of the digits at the start of a text. Kind: L -/
theorem convertDigits_takeWhile (hbase : base ≤ 36) (s : List UInt8) :
    (convertDigits base 0 s).value.toNat =
      min (value base (s.takeWhile (isDigitOf base))) (2 ^ 128 - 1) := by
  obtain ⟨hfits, hover⟩ := convertDigits_append hbase (isNumeral_takeWhile base s)
    (head_dropWhile (isDigitOf base) s) 0
  rw [List.takeWhile_append_dropWhile] at hfits hover
  have hzero : (0 : U128).toNat = 0 := rfl
  rw [hzero] at hfits hover
  rcases Nat.lt_or_ge (value base (s.takeWhile (isDigitOf base))) (2 ^ 128) with hlt | hge
  · rw [hfits hlt, BitVec.toNat_ofNat, ← value, Nat.mod_eq_of_lt hlt,
      Nat.min_eq_left (Nat.le_sub_one_of_lt hlt)]
  · obtain ⟨left, hconvert⟩ := hover hge
    rw [hconvert, BitVec.toNat_allOnes,
      Nat.min_eq_right (Nat.le_trans (Nat.sub_le (2 ^ 128) 1) hge)]

/-- **The conversion returns what it reads, or the greatest number.** Kind: P -/
theorem strtou128_readAhead (hlow : 2 ≤ base) (hbase : base ≤ 36) (s : List UInt8) :
    (strtou128 s base).value.toNat = min (value base (readAhead base s)) (2 ^ 128 - 1) := by
  have hzero : (0 : U128).toNat = min (value base []) (2 ^ 128 - 1) := rfl
  unfold strtou128 readAhead
  rw [if_neg (by omega)]
  cases s.dropWhile isspace with
  | nil => exact hzero
  | cons c t =>
      dsimp only
      by_cases hnul : c = 0
      · subst hnul
        have hskip : skipBasePrefix base (0 :: t) = 0 :: t := by
          unfold skipBasePrefix
          split
          · rename_i z x r heq
            obtain ⟨rfl, -⟩ := List.cons.inj heq
            rw [if_neg fun h => absurd h.2.1 (by decide), if_neg fun h => absurd h.2.1 (by decide)]
          · rfl
        have hdigit : isDigitOf base 0 = false := rfl
        rw [if_pos rfl, if_neg (by decide), if_neg (by decide), hskip,
          List.takeWhile_cons_of_neg (by rw [hdigit]; decide)]
        exact hzero
      · rw [if_neg hnul]
        split_ifs
        · exact convertDigits_takeWhile hbase _
        · exact hzero
        · exact convertDigits_takeWhile hbase _

/-- Where there is a digit, nothing is read but the digits. Kind: L -/
theorem readAhead_of_digit (hdigits : s.takeWhile (isDigitOf base) ≠ [])
    (hbehind : (base = 2 ∨ base = 16) →
      ∀ c ∈ (s.dropWhile (isDigitOf base)).head?, digitOf c = none) :
    readAhead base s = s.takeWhile (isDigitOf base) := by
  cases s with
  | nil => exact absurd rfl hdigits
  | cons c t =>
      have hc : isDigitOf base c = true := by
        by_contra hc
        exact hdigits (List.takeWhile_cons_of_neg hc)
      obtain ⟨hspace, -, hplus, hminus⟩ := digit_first hc
      have hskip : skipBasePrefix base (c :: t) = c :: t := by
        by_cases hbase' : base = 2 ∨ base = 16
        · have happend := skipBasePrefix_digits (isNumeral_takeWhile base (c :: t)) (hbehind hbase')
          rwa [List.takeWhile_append_dropWhile] at happend
        · rw [not_or] at hbase'
          unfold skipBasePrefix
          split
          · rw [if_neg fun h => hbase'.2 h.1, if_neg fun h => hbase'.1 h.1]
          · rfl
      unfold readAhead
      rw [List.dropWhile_cons_of_neg (by rw [hspace]; decide)]
      dsimp only
      rw [if_neg hplus, if_neg hminus, hskip]

/-! ## The classes of the loops -/

/-- What the loops pass and what may follow a number, byte by byte. Kind: L -/
theorem classes_spec (c : UInt8) : isdigit c = isDigitOf 10 c ∧ isodigit c = isDigitOf 8 c ∧
    (decide (c = ascii '0') || decide (c = ascii '1')) = isDigitOf 2 c ∧
    (isSpaceOrPunctuation c = true → digitOf c = none) :=
  forall_byte (p := fun c => isdigit c = isDigitOf 10 c ∧ isodigit c = isDigitOf 8 c ∧
    (decide (c = ascii '0') || decide (c = ascii '1')) = isDigitOf 2 c ∧
    (isSpaceOrPunctuation c = true → digitOf c = none)) (by decide +kernel) c

theorem isdigit_eq : isdigit = isDigitOf 10 := funext fun c => (classes_spec c).1

theorem isodigit_eq : isodigit = isDigitOf 8 := funext fun c => (classes_spec c).2.1

theorem isbdigit_eq : (fun c => decide (c = ascii '0') || decide (c = ascii '1')) = isDigitOf 2 :=
  funext fun c => (classes_spec c).2.2.1

/-- No digit of any base ends a number. Kind: L -/
theorem digitOf_of_isSpaceOrPunctuation (h : isSpaceOrPunctuation c = true) : digitOf c = none :=
  (classes_spec c).2.2.2 h

/-- Nothing is read at the end of the input. Kind: L -/
theorem readAhead_getCurPtr (L : Lexer) : readAhead base L.getCurPtr = readAhead base L.rest := by
  cases hrest : L.rest with
  | nil =>
      rw [Lexer.getCurPtr_of_nil hrest]
      rfl
  | cons c r => rw [Lexer.getCurPtr_of_cons hrest]

/-! ## The tokens of literals -/

variable {L L' : Lexer} {fuel stray : ℕ} {start : FilePos} {tok : Token}

theorem skipClass_moved {p : UInt8 → Bool} (heof : p EoF = false) (hprev : L.prev = [])
    (h : skipClass p fuel L = .ok L') : Moved L (L.rest.takeWhile p) L' ∧ L'.flags = L.flags :=
  loopWhile_moved (asksFor_class heof) hprev h

/-- **A literal with a prefix**: all digits are passed, no other digit is behind them, and the text
is converted from behind the prefix on. Kind: P -/
theorem lexPrefixed_spec {p : UInt8 → Bool} {errMsg : String} (hp : p = isDigitOf base)
    (hprev : L.prev = []) (h : lexPrefixed base p errMsg fuel start L = .ok (tok, L'))
    (htag : tok.tag = .intLiteral) :
    Moved L (L.rest.takeWhile (isDigitOf base)) L' ∧
      tok = makeIntLiteral L' start (strtou128 L.getCurPtr base).value ∧
      ∀ c ∈ (L.rest.dropWhile (isDigitOf base)).head?, digitOf c = none := by
  subst hp
  unfold lexPrefixed at h
  obtain ⟨M, hskip, h⟩ := bind_eq_ok h
  obtain ⟨hmoved, -⟩ := skipClass_moved rfl hprev hskip
  have hleft : M.rest = L.rest.dropWhile (isDigitOf base) := hmoved.rest_takeWhile
  split_ifs at h with hother
  · obtain ⟨N, -, h⟩ := bind_eq_ok h
    cases h
    cases htag
  · cases h
    refine ⟨hmoved, rfl, ?_⟩
    rw [← hleft]
    intro c hc
    obtain ⟨r, hr⟩ : ∃ r, L'.rest = c :: r := by
      cases hrest : L'.rest with
      | nil =>
          rw [hrest] at hc
          cases hc
      | cons d r =>
          rw [hrest] at hc
          exact ⟨r, by rw [Option.some.inj hc]⟩
    rw [Lexer.isEofReached_of_cons hr, Lexer.getCurChar_of_cons hr, Bool.not_false, Bool.true_and,
      Bool.not_eq_true', Bool.not_eq_false] at hother
    exact digitOf_of_isSpaceOrPunctuation hother

/-- A literal without a prefix, behind its first digit. Kind: P -/
theorem lexDecimal_spec {ptr : List UInt8} (hprev : L.prev = [])
    (h : lexDecimal fuel start ptr L = .ok (tok, L')) (htag : tok.tag = .intLiteral) :
    Moved L (L.rest.takeWhile (isDigitOf 10)) L' ∧
      tok = makeIntLiteral L' start (strtou128 ptr 10).value := by
  unfold lexDecimal at h
  obtain ⟨M, hskip, h⟩ := bind_eq_ok h
  obtain ⟨hmoved, -⟩ := skipClass_moved rfl hprev hskip
  rw [isdigit_eq] at hmoved
  split_ifs at h
  · obtain ⟨N, -, h⟩ := bind_eq_ok h
    cases h
    cases htag
  · cases h
    exact ⟨hmoved, rfl⟩

/-- What a token says of a text that a literal begins: the lexeme, its place, its value, and that
behind a prefix the conversion reads what is passed. -/
structure Literal (L : Lexer) (tok : Token) (L' : Lexer) : Prop where
  start : tok.start = L.pos.absolute L.buffer.baseOffset
  lexeme : ∃ q, Moved L q L' ∧ tok.stop = L'.pos.absolute L.buffer.baseOffset ∧
    splitLiteral q = ((splitLiteral L.rest).1,
      (splitLiteral L.rest).2.takeWhile (isDigitOf (splitLiteral L.rest).1))
  value : ∃ n, tok.val = .int n ∧ n.toNat =
    min (value (splitLiteral L.rest).1
      (readAhead (splitLiteral L.rest).1 (splitLiteral L.rest).2)) (2 ^ 128 - 1)
  digits : (splitLiteral L.rest).2.takeWhile (isDigitOf (splitLiteral L.rest).1) ≠ [] →
    readAhead (splitLiteral L.rest).1 (splitLiteral L.rest).2 =
      (splitLiteral L.rest).2.takeWhile (isDigitOf (splitLiteral L.rest).1)

/-- The location and the value of an integer literal, over what is passed. Kind: L -/
theorem Literal.of_moved {q ptr : List UInt8} {base : ℕ} {t : List UInt8} (hlow : 2 ≤ base)
    (hbase : base ≤ 36) (hmoved : Moved L q L') (hsplit : splitLiteral L.rest = (base, t))
    (hlexeme : splitLiteral q = (base, t.takeWhile (isDigitOf base)))
    (hptr : readAhead base ptr = readAhead base t)
    (hdigits : t.takeWhile (isDigitOf base) ≠ [] →
      readAhead base t = t.takeWhile (isDigitOf base)) :
    Literal L (makeIntLiteral L' L.pos (strtou128 ptr base).value) L' := by
  have hoffset : L'.buffer.baseOffset = L.buffer.baseOffset := by rw [hmoved.same]
  have hvalue := strtou128_readAhead hlow hbase ptr
  rw [hptr] at hvalue
  refine ⟨?_, ⟨q, hmoved, ?_, ?_⟩, ⟨_, rfl, ?_⟩, ?_⟩
  · rw [← hoffset]
    rfl
  · rw [← hoffset]
    rfl
  · rw [hsplit]
    exact hlexeme
  · rw [hsplit]
    exact hvalue
  · rw [hsplit]
    exact hdigits

theorem literal_of_prefixed {ch : Char} {p : UInt8 → Bool} {errMsg : String} {M : Lexer}
    {r : List UInt8} (hsplit : ∀ t, splitLiteral (ascii '0' :: ascii ch :: t) = (base, t))
    (hlow : 2 ≤ base) (hbase : base ≤ 36) (hp : p = isDigitOf base) (hprev : L.prev = [])
    (hrest : L.rest = ascii '0' :: r) (haccept : L.skipChar.acceptChar ch = some M)
    (h : lexPrefixed base p errMsg fuel L.pos M = .ok (tok, L')) (htag : tok.tag = .intLiteral) :
    Literal L tok L' := by
  obtain ⟨hbase', -⟩ := moved_acceptChar (Lexer.prev_skipChar hprev) haccept
  have hbegin : Moved L [ascii '0', ascii ch] M := (Moved.skipChar hprev hrest).trans hbase'
  obtain ⟨hmoved, rfl, hbehind⟩ := lexPrefixed_spec hp hbegin.prev h htag
  have htext : splitLiteral L.rest = (base, M.rest) := by
    rw [hbegin.rest]
    exact hsplit M.rest
  exact Literal.of_moved hlow hbase (hbegin.trans hmoved) htext (hsplit _)
    (readAhead_getCurPtr M) fun hdigits => readAhead_of_digit hdigits fun _ => hbehind

theorem splitLiteral_decimal {r : List UInt8} (h : c = ascii '0' →
    ∀ d ∈ r.head?, d ≠ ascii 'b' ∧ d ≠ ascii 'x' ∧ d ≠ ascii 'o') :
    splitLiteral (c :: r) = (10, c :: r) := by
  cases r with
  | nil => rfl
  | cons d r =>
      unfold splitLiteral
      dsimp only
      split_ifs with hc hb hx ho
      · exact absurd hb (h hc d rfl).1
      · exact absurd hx (h hc d rfl).2.1
      · exact absurd ho (h hc d rfl).2.2
      · rfl
      · rfl

theorem literal_of_decimal {r : List UInt8} (hprev : L.prev = []) (hrest : L.rest = c :: r)
    (hc : isdigit c = true) (hbase' : c = ascii '0' →
      ∀ d ∈ r.head?, d ≠ ascii 'b' ∧ d ≠ ascii 'x' ∧ d ≠ ascii 'o')
    (h : lexDecimal fuel L.pos L.getCurPtr L.skipChar = .ok (tok, L'))
    (htag : tok.tag = .intLiteral) : Literal L tok L' := by
  obtain ⟨hmoved, rfl⟩ := lexDecimal_spec (Lexer.prev_skipChar hprev) h htag
  have htail : L.skipChar.rest = r := by
    rw [Lexer.rest_skipChar hprev, hrest]
    rfl
  rw [isdigit_eq] at hc
  rw [htail] at hmoved
  have hdigits : (c :: r).takeWhile (isDigitOf 10) = c :: r.takeWhile (isDigitOf 10) :=
    List.takeWhile_cons_of_pos hc
  have hother : ∀ d : UInt8, isDigitOf 10 d = true →
      d ≠ ascii 'b' ∧ d ≠ ascii 'x' ∧ d ≠ ascii 'o' := by
    intro d hd
    refine ⟨?_, ?_, ?_⟩ <;> (rintro rfl; revert hd; decide)
  have hlexeme : splitLiteral (c :: r.takeWhile (isDigitOf 10)) =
      (10, (c :: r).takeWhile (isDigitOf 10)) := by
    rw [hdigits]
    refine splitLiteral_decimal fun _ d hd => hother d ?_
    exact isNumeral_takeWhile 10 r d (List.mem_of_mem_head? hd)
  refine Literal.of_moved (by decide) (by decide)
    ((Moved.skipChar hprev hrest).trans hmoved) ?_ hlexeme ?_ ?_
  · rw [hrest]
    exact splitLiteral_decimal hbase'
  · rw [Lexer.getCurPtr_of_cons hrest]
  · exact fun hne => readAhead_of_digit hne fun h => absurd h (by decide)

/-- **A number is a literal of the text that it begins.** Kind: P -/
theorem lexNumber_spec {r : List UInt8} (hprev : L.prev = []) (hrest : L.rest = c :: r)
    (hc : isdigit c = true) (h : lexNumber fuel L.buffer.address L = .ok (tok, L'))
    (htag : tok.tag = .intLiteral) : Literal L tok L' := by
  have htail : L.skipChar.rest = r := by
    rw [Lexer.rest_skipChar hprev, hrest]
    rfl
  unfold lexNumber at h
  dsimp only at h
  rw [Lexer.deref_top, Lexer.getCurChar_of_cons hrest] at h
  by_cases hzero : c = ascii '0'
  · subst hzero
    rw [if_pos rfl] at h
    cases hb : L.skipChar.acceptChar 'b' with
    | some M =>
        rw [hb] at h
        exact literal_of_prefixed (fun _ => rfl) (by decide) (by decide) isbdigit_eq hprev hrest hb
          h htag
    | none =>
        rw [hb] at h
        dsimp only at h
        cases hx : L.skipChar.acceptChar 'x' with
        | some M =>
            rw [hx] at h
            exact literal_of_prefixed (fun _ => rfl) (by decide) (by decide) rfl hprev hrest hx h
              htag
        | none =>
            rw [hx] at h
            dsimp only at h
            cases ho : L.skipChar.acceptChar 'o' with
            | some M =>
                rw [ho] at h
                exact literal_of_prefixed (fun _ => rfl) (by decide) (by decide) isodigit_eq hprev
                  hrest ho h htag
            | none =>
                rw [ho] at h
                have hnot : ∀ ch : Char, L.skipChar.acceptChar ch = none →
                    ∀ d ∈ r.head?, d ≠ ascii ch := by
                  rintro ch hch d hd rfl
                  have hhead := Lexer.acceptChar_eq_none hch
                  rw [htail] at hhead
                  exact hhead hd
                exact literal_of_decimal hprev hrest hc
                  (fun _ d hd => ⟨hnot 'b' hb d hd, hnot 'x' hx d hd, hnot 'o' ho d hd⟩) h htag
  · rw [if_neg hzero] at h
    exact literal_of_decimal hprev hrest hc (fun h => absurd h hzero) h htag

/-! ## The other tokens -/

theorem toRound_eq_ok {x : Except Halt (Token × Lexer)} {r : Round} (h : toRound x = .ok r) :
    ∃ tok, x = .ok (tok, r.2) ∧ r.1 = some tok := by
  cases x with
  | error e => cases h
  | ok t =>
      rw [← Except.ok.inj h]
      exact ⟨t.1, rfl, rfl⟩

theorem stringLoop_tag {literal : Bool} {buffer : ℕ}
    (h : stringLoop literal buffer start fuel L = .ok (some tok, L')) :
    tok.tag = .stringLiteral := by
  induction fuel generalizing L with
  | zero => cases h
  | succ fuel ih =>
      rw [stringLoop] at h
      by_cases hquote : L.getCurChar = ascii '"'
      · rw [if_pos hquote] at h
        cases h
      · rw [if_neg hquote] at h
        cases hline : L.acceptChar '\n' with
        | some M =>
            rw [hline] at h
            dsimp only at h
            cases hslash : M.acceptChar '\\' with
            | some N =>
                rw [hslash] at h
                exact ih h
            | none =>
                rw [hslash] at h
                cases h
        | none =>
            rw [hline] at h
            dsimp only at h
            split_ifs at h
            · exact ih h
            · cases h
              rfl
            · exact ih h

theorem lexString_tag {literal : Bool} {buffer : ℕ}
    (h : lexString fuel literal buffer L = .ok (tok, L')) : tok.tag ≠ .intLiteral := by
  unfold lexString at h
  obtain ⟨⟨found, M⟩, hloop, h⟩ := bind_eq_ok h
  cases found with
  | some t =>
      cases h
      rw [stringLoop_tag hloop]
      decide
  | none =>
      dsimp only at h
      generalize (if literal = true then M else _) = N at h
      cases hquote : N.acceptChar '"' with
      | some N' =>
          rw [hquote] at h
          cases h
          exact nofun
      | none =>
          rw [hquote] at h
          cases h
          exact nofun

theorem multilineLoop_tag {buffer : ℕ} (h : multilineLoop buffer start fuel L = .ok (tok, L')) :
    tok.tag ≠ .intLiteral := by
  induction fuel generalizing L with
  | zero => cases h
  | succ fuel ih =>
      rw [multilineLoop] at h
      cases hquote : L.acceptChar '"' with
      | some M =>
          rw [hquote] at h
          dsimp only at h
          split_ifs at h
          · cases h
            exact nofun
          · cases h
            exact nofun
          · exact ih h
      | none =>
          rw [hquote] at h
          dsimp only at h
          split_ifs at h
          · cases h
            exact nofun
          · exact ih h

theorem lexChar_tag (h : lexChar stray fuel start L = .ok (tok, L')) : tok.tag ≠ .intLiteral := by
  unfold lexChar at h
  dsimp only at h
  obtain ⟨r, -, h⟩ := bind_eq_ok h
  cases hquote : r.2.acceptChar '\'' with
  | none =>
      rw [hquote] at h
      cases h
      exact nofun
  | some M =>
      rw [hquote] at h
      dsimp only at h
      generalize convertEscapeSeq _ _ = converted at h
      cases converted with
      | none => cases h
      | some v =>
          dsimp only at h
          split_ifs at h
          · cases h
            exact nofun
          · cases h
            exact nofun

theorem lexIdent_tag {buffer : ℕ} (h : lexIdent fuel buffer L = .ok (tok, L')) :
    tok.tag ≠ .intLiteral := by
  unfold lexIdent at h
  dsimp only at h
  obtain ⟨M, -, h⟩ := bind_eq_ok h
  generalize keywordList.find? _ = word at h
  cases word with
  | some word =>
      cases h
      exact nofun
  | none =>
      cases h
      exact nofun

theorem lexFString_tag (start : FilePos) (L : Lexer) :
    (lexFString start L).1.tag ≠ .intLiteral := by
  unfold lexFString
  dsimp only
  split_ifs <;> exact nofun

/-! ## Where a literal is found -/

/-- A round finds no literal but one that begins where the lexer is; else it passes some text. -/
structure Found (L : Lexer) (r : Round) : Prop where
  literal : ∀ tok, r.1 = some tok → tok.tag = .intLiteral → Literal L tok r.2
  nothing : r.1 = none → ∃ p, Moved L p r.2

theorem found_of_tag {x : Except Halt (Token × Lexer)} {r : Round} (h : toRound x = .ok r)
    (htag : ∀ tok M, x = .ok (tok, M) → tok.tag ≠ .intLiteral) : Found L r := by
  obtain ⟨tok, hx, hr⟩ := toRound_eq_ok h
  refine ⟨fun t ht hint => ?_, fun hnone => ?_⟩
  · rw [hr] at ht
    rw [← Option.some.inj ht] at hint
    exact absurd hint (htag tok r.2 hx)
  · rw [hr] at hnone
    cases hnone

theorem found_of_some {tok : Token} {M : Lexer} {r : Round}
    (h : (.ok (some tok, M) : Except Halt Round) = .ok r) (htag : tok.tag ≠ .intLiteral) :
    Found L r := by
  rw [← Except.ok.inj h]
  refine ⟨fun t ht hint => ?_, nofun⟩
  rw [← Option.some.inj ht] at hint
  exact absurd hint htag

theorem found_of_operator {branches : List (Char × Cascade)} {o : TokenTag × Lexer} {r : Round}
    (hprev : L.prev = []) (hop : acceptAny branches L = some o)
    (hnot : TokenTag.intLiteral ∉ branchTags branches)
    (h : toRound (.ok (operatorToken start o)) = .ok r) : Found L r := by
  refine found_of_tag h fun tok M heq => ?_
  obtain ⟨⟨htag, -, -⟩, -⟩ := acceptAny_spec branches L o hprev hop
  have htok : tok.tag = o.1 := by
    cases heq
    rfl
  rw [htok]
  rintro heq
  rw [heq] at htag
  exact hnot htag

theorem lexSlash_found {M : Lexer} {p : List UInt8} {r : Round} (hmoved : Moved L p M)
    (h : lexSlash fuel start M = .ok r) : Found L r := by
  have hpassed : ∀ {q N}, Moved M q N → Found L (none, N) :=
    fun hmoved' => ⟨nofun, fun _ => ⟨_, hmoved.trans hmoved'⟩⟩
  unfold lexSlash at h
  cases hline : M.acceptChar '/' with
  | some N =>
      rw [hline] at h
      obtain ⟨hslash, -⟩ := moved_acceptChar hmoved.prev hline
      obtain ⟨N', hskip, h⟩ := bind_eq_ok h
      obtain ⟨hcomment, -⟩ := loopWhile_moved
        (asksFor_guarded fun c => decide (c ≠ ascii '\n')) hslash.prev hskip
      cases h
      exact hpassed (hslash.trans hcomment)
  | none =>
      rw [hline] at h
      dsimp only at h
      cases hblock : M.acceptChar '*' with
      | some N =>
          rw [hblock] at h
          obtain ⟨hstar, -⟩ := moved_acceptChar hmoved.prev hblock
          obtain ⟨⟨b, N'⟩, hskip, h⟩ := bind_eq_ok h
          obtain ⟨-, ⟨q, hcomment⟩, -⟩ := skipMultiLineComment_moved hstar.prev hskip
          split_ifs at h
          · cases h
            exact hpassed (hstar.trans hcomment)
          · exact found_of_some h nofun
      | none =>
          rw [hblock] at h
          dsimp only at h
          cases hassign : M.acceptChar '=' with
          | some N =>
              rw [hassign] at h
              exact found_of_some h nofun
          | none =>
              rw [hassign] at h
              exact found_of_some h nofun

theorem lexWord_found {r : Round} (hprev : L.prev = []) (h : lexWord fuel start L = .ok r) :
    Found L r := by
  unfold lexWord at h
  split_ifs at h with hf hword hdigit
  · exact found_of_tag h fun tok M heq => by
      rw [show tok = (lexFString start L).1 by rw [Except.ok.inj heq]]
      exact lexFString_tag start L
  · exact found_of_tag h fun tok M heq => lexIdent_tag heq
  · obtain ⟨tok, hnumber, hr⟩ := toRound_eq_ok h
    refine ⟨fun t ht hint => ?_, fun hnone => ?_⟩
    · rw [hr] at ht
      rw [← Option.some.inj ht] at hint ⊢
      cases hrest : L.rest with
      | nil =>
          rw [Lexer.getCurChar_of_nil hrest] at hdigit
          cases hdigit
      | cons c s =>
          rw [Lexer.getCurChar_of_cons hrest] at hdigit
          exact lexNumber_spec hprev hrest hdigit hnumber hint
    · rw [hr] at hnone
      cases hnone
  · exact found_of_tag h fun tok M heq => by
      rw [show tok = _ from (Prod.mk.inj (Except.ok.inj heq)).1.symm]
      exact nofun

/-- **Only a number is an integer literal**, and a token is missing only behind a comment.
Kind: P -/
theorem lexToken_found {r : Round} (hprev : L.prev = [])
    (h : lexToken stray fuel start L = .ok r) : Found L r := by
  unfold lexToken at h
  cases hfirst : acceptAny operators₁ L with
  | some o =>
      rw [hfirst] at h
      exact found_of_operator hprev hfirst (by decide) h
  | none =>
  rw [hfirst] at h
  dsimp only at h
  cases hbrace : L.acceptChar '\x7d' with
  | some M =>
      rw [hbrace] at h
      dsimp only at h
      split_ifs at h
      · exact found_of_tag h fun tok N heq => lexString_tag heq
      · exact found_of_some h nofun
  | none =>
  rw [hbrace] at h
  dsimp only at h
  cases hsecond : acceptAny operators₂ L with
  | some o =>
      rw [hsecond] at h
      exact found_of_operator hprev hsecond (by decide) h
  | none =>
  rw [hsecond] at h
  dsimp only at h
  cases hslash : L.acceptChar '/' with
  | some M =>
      rw [hslash] at h
      exact lexSlash_found (moved_acceptChar hprev hslash).1 h
  | none =>
  rw [hslash] at h
  dsimp only at h
  cases hquote : L.acceptChar '"' with
  | some M =>
      rw [hquote] at h
      dsimp only at h
      split_ifs at h
      · exact found_of_tag h fun tok N heq => multilineLoop_tag heq
      · exact found_of_tag h fun tok N heq => lexString_tag heq
  | none =>
  rw [hquote] at h
  dsimp only at h
  cases hchar : L.acceptChar '\'' with
  | some M =>
      rw [hchar] at h
      exact found_of_tag h fun tok N heq => lexChar_tag heq
  | none =>
  rw [hchar] at h
  exact lexWord_found hprev h

/-- A lexer with one buffer has none to leave. Kind: L -/
theorem leaveBuffers_alone (hprev : L.prev = []) (h : leaveBuffers fuel L = .ok L') : L' = L := by
  cases fuel with
  | zero => cases h
  | succ fuel =>
      rw [leaveBuffers, hprev, List.isEmpty_nil, Bool.not_true, Bool.and_false] at h
      exact (Except.ok.inj h).symm

theorem lexRound_found {r : Round} (hprev : L.prev = []) (h : lexRound stray fuel L = .ok r) :
    ∃ p M, Moved L p M ∧ Found M r := by
  unfold lexRound at h
  split_ifs at h
  · exact ⟨[], L, Moved.refl hprev, found_of_tag h fun tok N heq => lexString_tag heq⟩
  · obtain ⟨M, hskip, h⟩ := bind_eq_ok h
    obtain ⟨hmoved, -⟩ := loopWhile_moved (asksFor_guarded isspace) hprev hskip
    obtain ⟨N, hleave, h⟩ := bind_eq_ok h
    rw [leaveBuffers_alone hmoved.prev hleave] at h
    refine ⟨_, M, hmoved, ?_⟩
    split_ifs at h
    · exact found_of_some h nofun
    · exact lexToken_found hmoved.prev h

theorem lexLoop_literal {rounds : ℕ} (hprev : L.prev = [])
    (h : lexLoop stray rounds fuel L = .ok (tok, L')) (htag : tok.tag = .intLiteral) :
    ∃ p M, Moved L p M ∧ Literal M tok L' := by
  induction fuel generalizing L with
  | zero => cases h
  | succ fuel ih =>
      rw [lexLoop] at h
      obtain ⟨⟨found, N⟩, hround, h⟩ := bind_eq_ok h
      obtain ⟨p, M, hmoved, hfound⟩ := lexRound_found hprev hround
      cases found with
      | some t =>
          cases h
          exact ⟨p, M, hmoved, hfound.literal tok rfl htag⟩
      | none =>
          obtain ⟨q, hpassed⟩ := hfound.nothing rfl
          obtain ⟨q', M', hmoved', hliteral⟩ := ih hpassed.prev h
          exact ⟨_, M', (hmoved.trans hpassed).trans hmoved', hliteral⟩

/-- **An integer literal that is returned** stands behind some of the text. Kind: P -/
theorem advanceLexer_literal (hprev : L.prev = []) (h : advanceLexer stray fuel L = .ok (tok, L'))
    (htag : tok.tag = .intLiteral) : ∃ p M, Moved L p M ∧ Literal M tok L' := by
  unfold advanceLexer at h
  split_ifs at h
  · cases h
    cases htag
  · cases h
    cases htag
  · obtain ⟨p, M, hmoved, hliteral⟩ :=
      lexLoop_literal (L := { L with flags.maybeNotFloat := false }) hprev h htag
    exact ⟨p, M, Moved.of_flags hmoved, hliteral⟩
  · exact lexLoop_literal hprev h htag

/-! ## The value of a literal -/

/-- The text from where a token begins on. -/
def textAt (L : Lexer) (tok : Token) : List UInt8 :=
  L.buffer.fileData.drop (tok.start.byteOffset - L.buffer.baseOffset)

/-- The text between the ends of a token. -/
def lexemeOf (L : Lexer) (tok : Token) : List UInt8 :=
  (textAt L tok).take (tok.stop.byteOffset - tok.start.byteOffset)

/-- A token holds the value of its own digits. -/
def HoldsValue (L : Lexer) (tok : Token) : Prop :=
  ∃ n, tok.val = .int n ∧ n.toNat = literalValue (lexemeOf L tok)

/-- The text of a literal: its digits fit into 128 bits, and where there are none behind the prefix,
what the conversion reads instead is zero. -/
def WellConverted (s : List UInt8) : Prop :=
  let base := (splitLiteral s).1
  let digits := (splitLiteral s).2.takeWhile (isDigitOf base)
  value base digits < 2 ^ 128 ∧ (digits = [] → value base (readAhead base (splitLiteral s).2) = 0)

/-- **An integer literal holds the value of its own digits exactly where they fit into 128 bits and
the conversion finds no others in their place.** Kind: P -/
theorem intLiteral_value_iff {stray fuel : ℕ} {L L' : Lexer} {tok : Token} (hprev : L.prev = [])
    (h : advanceLexer stray fuel L = .ok (tok, L')) (htag : tok.tag = .intLiteral) :
    HoldsValue L tok ↔ WellConverted (textAt L tok) := by
  obtain ⟨p, M, hmoved, hstart, ⟨q, hpassed, hstop, hsplit⟩, ⟨n, hn, hvalue⟩, hdigits⟩ :=
    advanceLexer_literal hprev h htag
  have hbase : M.buffer.baseOffset = L.buffer.baseOffset := by rw [hmoved.same]
  have hdata : M.buffer.fileData = L.buffer.fileData := by rw [hmoved.same]
  have htext : textAt L tok = M.rest := by
    rw [textAt, hstart, FilePos.absolute, hbase, ← hdata]
    dsimp only
    rw [Nat.add_sub_cancel]
    rfl
  have hlexeme : lexemeOf L tok = q := by
    rw [lexemeOf, htext, hstart, hstop, FilePos.absolute, FilePos.absolute]
    dsimp only
    rw [Nat.add_sub_add_right]
    exact hpassed.slice
  have hliteral : literalValue (lexemeOf L tok) = value (splitLiteral M.rest).1
      ((splitLiteral M.rest).2.takeWhile (isDigitOf (splitLiteral M.rest).1)) := by
    rw [hlexeme, literalValue, hsplit]
  have hholds : HoldsValue L tok ↔ n.toNat = literalValue (lexemeOf L tok) := by
    refine ⟨?_, fun heq => ⟨n, hn, heq⟩⟩
    rintro ⟨m, hm, heq⟩
    rw [hn] at hm
    cases hm
    exact heq
  rw [hholds, hvalue, hliteral, htext]
  unfold WellConverted
  dsimp only
  by_cases hnone : (splitLiteral M.rest).2.takeWhile (isDigitOf (splitLiteral M.rest).1) = []
  · rw [hnone, value_nil]
    constructor
    · intro heq
      exact ⟨by decide, fun _ => by omega⟩
    · rintro ⟨-, hzero⟩
      rw [hzero rfl]
      exact Nat.zero_min _
  · rw [hdigits hnone]
    constructor
    · intro heq
      exact ⟨by omega, fun hnil => absurd hnil hnone⟩
    · rintro ⟨hfits, -⟩
      omega

/-- The lexer over `0x2A`. Kind: L -/
theorem hexadecimal_held :
    HoldsValue (newLexer [] (text "0x2A"))
      ⟨.intLiteral, .int 42, 0, [], ⟨1, 1, 0⟩, ⟨1, 5, 4⟩⟩ :=
  Iff.mpr (@intLiteral_value_iff 0 8 (newLexer [] (text "0x2A"))
    { newLexer [] (text "0x2A") with buffer.filePos := ⟨1, 5, 4⟩ } _ rfl (by decide) rfl)
    ⟨by decide, fun h => absurd h (by decide)⟩

/-- Behind `0x ` the conversion reads the `1`, and $2^{128}$ is stored as $2^{128} - 1$. Kind: P -/
theorem literal_not_held :
    (∃ tok L', advanceLexer 0 8 (newLexer [] (text "0x 1")) = .ok (tok, L') ∧
      tok.tag = .intLiteral ∧ ¬ HoldsValue (newLexer [] (text "0x 1")) tok) ∧
    ∃ tok L', advanceLexer 0 64
        (newLexer [] (text "340282366920938463463374607431768211456")) = .ok (tok, L') ∧
      tok.tag = .intLiteral ∧
      ¬ HoldsValue (newLexer [] (text "340282366920938463463374607431768211456")) tok := by
  have hnot : ∀ (L : Lexer) (n : U128) (buffer : ℕ) (fileName : List UInt8) (start stop : FilePos),
      n.toNat ≠ literalValue (lexemeOf L ⟨.intLiteral, .int n, buffer, fileName, start, stop⟩) →
      ¬ HoldsValue L ⟨.intLiteral, .int n, buffer, fileName, start, stop⟩ := by
    rintro L n buffer fileName start stop hne ⟨m, hm, heq⟩
    cases hm
    exact hne heq
  refine ⟨⟨⟨.intLiteral, .int 1, 0, [], ⟨1, 1, 0⟩, ⟨1, 3, 2⟩⟩,
    { newLexer [] (text "0x 1") with buffer.filePos := ⟨1, 3, 2⟩ }, by decide, rfl,
    hnot _ _ _ _ _ _ (by decide)⟩,
    ⟨⟨.intLiteral, .int (BitVec.allOnes 128), 0, [], ⟨1, 1, 0⟩, ⟨1, 40, 39⟩⟩,
    { newLexer [] (text "340282366920938463463374607431768211456") with
      buffer.filePos := ⟨1, 40, 39⟩ }, by decide, rfl, hnot _ _ _ _ _ _ (by decide)⟩⟩

end CxyCompiler.Frontend.Lexing
