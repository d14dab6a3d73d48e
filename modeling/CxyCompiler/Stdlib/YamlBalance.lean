import CxyCompiler.Stdlib.YamlLines
import Mathlib.Tactic.Linarith
import Mathlib.Tactic.Ring

/-!
# `Indent` and `Dedent` tokens of YAML (`stdlib/yaml/lexer.cxy`)

A block and a bracket give the same tokens, but the levels of the one are on a stack, with the
`Dedent` tokens that are still to be returned in a counter, and those of the other on a second
stack. The end of the text is tested for at two places, and the second one leaves the levels open.

* `ahead` — the text from the next token on, in flow style.
* `Effect` — what a call does; **`nextToken_effect`: a call that returns a token does one of
  these**.
* `Lexer.due` — the `Dedent` tokens that are still due; `Effect.due_cases` — what a token changes
  there.
* `Returns`, `NoRaise` — runs; `Balanced` — what holds of the tokens of a text; `Lexer.Fine` — what
  has to hold in front of a call.
* `balanced_iff` — **the tokens are balanced if and only if each call is fine**; `eof_in_block` — a
  text whose tokens are not.
-/

namespace CxyCompiler.Stdlib.Yaml

variable {signed : Bool}

/-! ## The next token of a text in flow style -/

/-- The text without the white space, line ends and comments at its beginning, which may be within a
comment. -/
def ahead (inComment : Bool) : Bytes → Bytes
  | [] => []
  | c :: s =>
      if c = ch '\n' then ahead false s
      else if inComment then ahead true s
      else if isBlank c then ahead false s
      else if c = ch '#' then ahead true s
      else c :: s

theorem ahead_comment (s : Bytes) : ahead true s = ahead false (skipComment s) := by
  unfold skipComment
  induction s with
  | nil => rfl
  | cons c s ih =>
      by_cases hc : c = ch '\n'
      · rw [List.dropWhile_cons_of_neg (by simp [hc]), ahead, if_pos hc, ahead, if_pos hc]
      · rw [List.dropWhile_cons_of_pos (by simp [hc]), ahead, if_neg hc, if_pos rfl, ih]

theorem ahead_blank {c : UInt8} (hc : isBlank c = true)
    (s : Bytes) : ahead false (c :: s) = ahead false s := by
  have hnewline : c ≠ ch '\n' := by
    rintro rfl
    exact absurd hc (by decide)
  rw [ahead, if_neg hnewline, if_neg Bool.false_ne_true, if_pos hc]

/-- Blanks in front do not change the text from the next token on. Kind: L -/
theorem ahead_dropWhile (s : Bytes) : ahead false (s.dropWhile isBlank) = ahead false s := by
  induction s with
  | nil => rfl
  | cons c s ih =>
      by_cases hc : isBlank c = true
      · rw [List.dropWhile_cons_of_pos hc, ih, ahead_blank hc]
      · rw [List.dropWhile_cons_of_neg hc]

theorem ahead_suffix (b : Bool) (s : Bytes) : ahead b s <:+ s := by
  fun_induction ahead b s with
  | case1 => exact List.suffix_refl _
  | case2 _ _ ih => exact ih.trans (List.suffix_cons _ _)
  | case3 _ _ _ ih => exact ih.trans (List.suffix_cons _ _)
  | case4 _ _ _ _ _ _ ih => exact ih.trans (List.suffix_cons _ _)
  | case5 _ _ _ _ _ ih => exact ih.trans (List.suffix_cons _ _)
  | case6 => exact List.suffix_refl _

/-- From the next token on there is nothing to skip. Kind: L -/
theorem ahead_ahead (b : Bool) (s : Bytes) : ahead false (ahead b s) = ahead b s := by
  fun_induction ahead b s with
  | case1 => rfl
  | case2 _ _ ih => exact ih
  | case3 _ _ _ ih => exact ih
  | case4 _ _ _ _ _ _ ih => exact ih
  | case5 _ _ _ _ _ ih => exact ih
  | case6 _ c s hnewline hcomment hblank hhash =>
      rw [ahead, if_neg hnewline, if_neg Bool.false_ne_true, if_neg hblank, if_neg hhash]

/-- Behind empty lines there are only blanks in front of the next token. Kind: L -/
theorem dropWhile_skipLine (s : Bytes) : ∀ (b : Bool)
    (ws line : Bytes), (∀ c ∈ ws, isBlank c = true) →
    (b = false → line = ws ++ s) → (skipLine line b s).dropWhile isBlank = ahead b s := by
  induction s with
  | nil => intro b ws line _ _; rfl
  | cons c s ih =>
      intro b ws line hws hline
      rw [skipLine, ahead]
      by_cases hnewline : c = ch '\n'
      · rw [if_pos hnewline, if_pos hnewline]
        exact ih false [] s (fun _ h => absurd h List.not_mem_nil) (fun _ => rfl)
      · rw [if_neg hnewline, if_neg hnewline]
        cases b with
        | true =>
            rw [if_pos rfl, if_pos rfl]
            exact ih true ws line hws (fun h => by cases h)
        | false =>
            rw [if_neg Bool.false_ne_true, if_neg Bool.false_ne_true, hline rfl]
            by_cases hblank : isBlank c = true
            · rw [if_pos hblank, if_pos hblank]
              refine ih false (ws ++ [c]) _ ?_ (fun _ => by rw [List.append_assoc]; rfl)
              intro d hd
              rcases List.mem_append.mp hd with hd | hd
              · exact hws d hd
              · rw [List.mem_singleton.mp hd]
                exact hblank
            · rw [if_neg hblank, if_neg hblank]
              by_cases hcomment : c = ch '#'
              · rw [if_pos hcomment, if_pos hcomment]
                exact ih true ws _ hws (fun h => by cases h)
              · rw [if_neg hcomment, if_neg hcomment, List.dropWhile_append_of_pos hws,
                  List.dropWhile_cons_of_neg hblank]

/-- Behind the empty lines and the blanks the next token stands. Kind: L -/
theorem dropWhile_skipEmptyLines
    (s : Bytes) : (skipEmptyLines s).dropWhile isBlank = ahead false s :=
  dropWhile_skipLine s false [] s (fun _ h => absurd h List.not_mem_nil) (fun _ => rfl)

theorem ahead_skipEmptyLines (s : Bytes) : ahead false (skipEmptyLines s) = ahead false s := by
  rw [← ahead_dropWhile, dropWhile_skipEmptyLines, ahead_ahead]

/-- Where no token follows, the empty lines take all. Kind: L -/
theorem skipLine_of_ahead (s : Bytes) : ∀ (b : Bool)
    (line : Bytes), ahead b s = [] → skipLine line b s = [] := by
  induction s with
  | nil => intro b line _; rfl
  | cons c s ih =>
      intro b line h
      rw [ahead] at h
      rw [skipLine]
      split_ifs at h ⊢
      · exact ih false s h
      · exact ih true line h
      · exact ih false line h
      · exact ih true line h

theorem ahead_of_skipEmptyLines {s : Bytes} (h : skipEmptyLines s ≠ []) : ahead false s ≠ [] :=
  fun hahead => h (skipLine_of_ahead s false s hahead)

/-- The empty lines shorten the text or leave it. Kind: L -/
theorem skipLine_length (s : Bytes) : ∀ (b : Bool) (line : Bytes), s.length ≤ line.length →
    (skipLine line b s).length ≤ line.length := by
  induction s with
  | nil => intro b line _; exact Nat.zero_le _
  | cons c s ih =>
      intro b line hline
      have hs : s.length ≤ line.length := le_trans (Nat.le_succ _) hline
      rw [skipLine]
      split_ifs
      · exact le_trans (ih false s (le_refl _)) hs
      · exact ih true line hs
      · exact ih false line hs
      · exact ih true line hs
      · exact le_refl _

theorem skipEmptyLines_length (s : Bytes) : (skipEmptyLines s).length ≤ s.length :=
  skipLine_length s false s (le_refl _)

/-- The columns that are measured are the blanks that are passed. Kind: L -/
theorem measureIndent_spec (max : ℕ) (s : Bytes) : (measureIndent max s).2.1.dropWhile isBlank =
    s.dropWhile isBlank ∧ (measureIndent max s).1 +
      (measureIndent max s).2.1.length = s.length := by
  induction max generalizing s with
  | zero => exact ⟨rfl, Nat.zero_add _⟩
  | succ max ih =>
      rcases s with _ | ⟨c, s⟩
      · exact ⟨rfl, rfl⟩
      · rw [measureIndent]
        by_cases hc : c = ch ' '
        · obtain ⟨hdrop, hlen⟩ := ih s
          rw [if_pos hc, List.dropWhile_cons_of_pos (by rw [hc]; decide)]
          refine ⟨hdrop, ?_⟩
          simp only [List.length_cons]
          omega
        · rw [if_neg hc]
          exact ⟨rfl, Nat.zero_add _⟩

/-! ## What the scanners take -/

/-- Neither a change of the indentation nor the end. -/
def Token.IsPlain (t : Token) : Prop := t ≠ .indent ∧ t ≠ .dedent ∧ t ≠ .eof

/-- A plain scalar is no bracket token. Kind: L -/
theorem classify_plain {acc : Bytes} {n : NumberScan} {t : Token}
    (h : classify acc n = some t) : t.IsPlain := by
  unfold classify at h
  split_ifs at h <;> · obtain rfl := Option.some.inj h; exact ⟨by simp, by simp, by simp⟩

/-- A plain scalar does not lengthen the text. Kind: L -/
theorem scanScalar_length (inFlow : Bool) (s : Bytes) : ∀ (acc : Bytes) (i : ℕ) (n : NumberScan),
    (scanScalar signed inFlow acc i n s).2.length ≤ s.length := by
  induction s with
  | nil => intro acc i n; exact le_refl _
  | cons c s ih =>
      intro acc i n
      rw [scanScalar]
      split_ifs
      · exact le_refl _
      · exact le_trans (ih _ _ _) (Nat.le_succ _)

/-- A scalar that is not empty takes a character. Kind: L -/
theorem readScalar_spec {inFlow : Bool} {s r : Bytes} {t : Token}
    (h : readScalar signed inFlow s = (some t, r)) : t.IsPlain ∧ r.length < s.length := by
  unfold readScalar at h
  obtain ⟨ht, rfl⟩ := Prod.mk.inj h
  refine ⟨classify_plain ht, ?_⟩
  rcases s with _ | ⟨c, s⟩
  · cases ht
  · rw [scanScalar] at ht ⊢
    by_cases hends : scalarEnds inFlow c s = true
    · rw [if_pos hends] at ht
      cases ht
    · rw [if_neg hends]
      exact Nat.lt_succ_of_le (scanScalar_length _ _ _ _ _)

/-- A quoted scalar is a token of its own, and does not lengthen the text. Kind: L -/
theorem readQuotedString_spec {quote : UInt8} {acc s r : Bytes} {t : Token}
    (h : readQuotedString signed quote acc s = (some t, r)) : t.IsPlain ∧ r.length ≤ s.length := by
  have hbehind : ∀ {s' s : Bytes}, s'.length ≤ s.length → t.IsPlain ∧ r.length ≤ s'.length →
      t.IsPlain ∧ r.length ≤ s.length := fun hle h => ⟨h.1, le_trans h.2 hle⟩
  fun_induction readQuotedString signed quote acc s
  case case2 =>
    obtain ⟨ht, rfl⟩ := Prod.mk.inj h
    obtain rfl := Option.some.inj ht
    exact ⟨⟨by simp, by simp, by simp⟩, Nat.le_succ _⟩
  all_goals first
    | cases h
    | rename_i ih
      exact hbehind (by simp only [List.length_cons]; omega) (ih h)

theorem measureIndent_length (max : ℕ)
    (s : Bytes) : (measureIndent max s).2.1.length ≤ s.length := by
  have h := (measureIndent_spec max s).2
  omega

theorem skipComment_length (s : Bytes) : (skipComment s).length ≤ s.length :=
  (List.dropWhile_suffix _).length_le

/-- The lines of a block scalar do not lengthen the text. Kind: L -/
theorem readBlockLines_length (style : UInt8) (baseIndent fuel : ℕ) : ∀ (first : Bool)
    (acc s : Bytes),
    (readBlockLines style baseIndent fuel first acc s).2.length ≤ s.length := by
  induction fuel with
  | zero => intro first acc s; exact le_refl _
  | succ fuel ih =>
      intro first acc s
      have hmeasure := measureIndent_length baseIndent s
      have htail : (measureIndent baseIndent s).2.1.tail.length ≤ s.length :=
        le_trans (by rw [List.length_tail]; exact Nat.sub_le _ _) hmeasure
      have hcomment := skipComment_length (measureIndent baseIndent s).2.1
      have hrest : (skipComment (measureIndent baseIndent s).2.1).tail.length ≤ s.length :=
        le_trans (by rw [List.length_tail]; exact Nat.sub_le _ _) (le_trans hcomment hmeasure)
      rw [readBlockLines]
      dsimp only
      by_cases hs : s = []
      · rw [if_pos hs]
        exact Nat.zero_le _
      · by_cases htab : (measureIndent baseIndent s).2.2 = true
        · rw [if_neg hs, if_pos htab]
          exact hmeasure
        · by_cases hblank : (measureIndent baseIndent s).2.1.head? = some (ch '\n')
          · rw [if_neg hs, if_neg htab, if_pos hblank]
            exact le_trans (ih _ _ _) htail
          · by_cases hout : (!first && decide ((measureIndent baseIndent s).1 < baseIndent)) = true
            · rw [if_neg hs, if_neg htab, if_neg hblank, if_pos hout]
              exact hmeasure
            · rw [if_neg hs, if_neg htab, if_neg hblank, if_neg hout]
              exact le_trans (ih _ _ _) hrest

/-- A block scalar is a token of its own, and does not lengthen the text. Kind: L -/
theorem readBlockScalar_spec {style : UInt8} {s r : Bytes} {t : Token}
    (h : readBlockScalar style s = (some t, r)) : t.IsPlain ∧ r.length ≤ s.length := by
  have htail : ∀ s : Bytes, s.tail.length ≤ s.length := fun s => by
    rw [List.length_tail]
    exact Nat.sub_le _ _
  unfold readBlockScalar at h
  dsimp only at h
  generalize hbody : (skipComment (if s.head?.filter (fun c => c = ch '-' || c = ch '+') = none then
    s
    else s.tail)).tail = body at h
  have hlen : body.length ≤ s.length := by
    rw [← hbody]
    refine le_trans (htail _) (le_trans (skipComment_length _) ?_)
    split_ifs
    · exact le_refl _
    · exact htail s
  by_cases hempty : body = []
  · rw [if_pos hempty] at h
    obtain ⟨ht, rfl⟩ := Prod.mk.inj h
    obtain rfl := Option.some.inj ht
    exact ⟨⟨by simp, by simp, by simp⟩, Nat.zero_le _⟩
  · rw [if_neg hempty] at h
    by_cases htab : (measureIndent maxIndent body).2.2 = true
    · rw [if_pos htab] at h
      exact absurd (Prod.mk.inj h).1 (by simp)
    · rw [if_neg htab] at h
      obtain ⟨ht, rfl⟩ := Prod.mk.inj h
      obtain ⟨acc, -, rfl⟩ := Option.map_eq_some_iff.mp ht
      exact ⟨⟨by simp, by simp, by simp⟩, le_trans (readBlockLines_length _ _ _ _ _ _)
        (le_trans (measureIndent_length _ _) hlen)⟩

/-- An anchor or an alias is a token of its own, and does not lengthen the text. Kind: L -/
theorem readName_spec {token : Bytes → Token} {s r : Bytes} {t : Token}
    (htoken : ∀ name, (token name).IsPlain)
    (h : readName token s = (some t, r)) : t.IsPlain ∧ r.length ≤ s.length := by
  unfold readName at h
  obtain ⟨ht, rfl⟩ := Prod.mk.inj h
  refine ⟨?_, (List.dropWhile_suffix _).length_le⟩
  by_cases hname : s.takeWhile isNameChar = []
  · rw [if_pos hname] at ht
    cases ht
  · rw [if_neg hname] at ht
    obtain rfl := Option.some.inj ht
    exact htoken _

/-! ## What a call does -/

def Lexer.Ready (lx : Lexer) : Prop := lx.pendingDash = false ∧ lx.pendingDedents = 0

/-- The text from the next token on, in flow style. -/
def Lexer.ahead (lx : Lexer) : Bytes := Yaml.ahead false lx.rest

/-- A bracket is open, and the next token is there and does not close one. -/
def Lexer.GoesOn (lx : Lexer) : Prop := ∃ c s, lx.ahead = c :: s ∧ c ≠ ch '}' ∧ c ≠ ch ']'

/-- The indentation of the next line. -/
def Lexer.indentation (lx : Lexer) : ℕ := (measureIndent maxIndent (skipEmptyLines lx.rest)).1

/-- The levels that stay at the next line. -/
def Lexer.kept (lx : Lexer) : List ℕ :=
  lx.indents.dropLast.dropWhile (lx.indentation < ·) ++ lx.indents.getLast?.toList

/-- How many levels the next line closes. -/
def Lexer.closed (lx : Lexer) : ℕ := lx.indents.length - lx.kept.length

/-- **What a call does that returns a token.** -/
inductive Effect (lx : Lexer) : Token → Lexer → Prop
  | pendingDash (hdash : lx.pendingDash = true) : Effect lx .dash { lx with pendingDash := false }
  | pendingDedent (hdash : lx.pendingDash = false) (hpending : 0 < lx.pendingDedents) :
      Effect lx .dedent { lx with pendingDedents := lx.pendingDedents - 1 }
  | dedentAtEnd {a : Bool} (hready : lx.Ready) (hahead : lx.ahead = [])
    (hlevels : 1 < lx.indents.length) :
      Effect lx .dedent { lx with rest := [], atLineStart := a, indents := lx.indents.tail }
  | eofAtEnd {a : Bool} (hready : lx.Ready) (hahead : lx.ahead = [])
    (hlevels : lx.indents.length ≤ 1) :
      Effect lx .eof { lx with rest := [], atLineStart := a }
  | eofInLine (hready : lx.Ready) (hline : lx.atLineStart = false) (hrest : lx.rest ≠ [])
      (hblank : lx.rest.dropWhile isBlank = []) : Effect lx .eof
        { lx with rest := [], atLineStart := false }
  | indent {n : ℕ} {r : Bytes} (hready : lx.Ready) (hflow : lx.flowDepth = 0)
      (hlen : r.length < lx.rest.length) :
      Effect lx .indent { lx with rest := r, atLineStart := false, indents := n :: lx.indents }
  | close {r : Bytes} (hready : lx.Ready) (hline : lx.atLineStart = true) (hflow : lx.flowDepth = 0)
      (hrest : skipEmptyLines lx.rest ≠ []) (hlen : r.length ≤ lx.rest.length)
      (hless : lx.indentation < lx.indents.headD 0) :
      Effect lx .dedent { lx with
        rest := r, atLineStart := false, indents := lx.kept, pendingDedents := pendingOf lx.closed }
  | openFlow {c : UInt8} {r : Bytes} {a : Bool} (hready : lx.Ready)
    (hflow : lx.flowDepth ≠ 0 → lx.GoesOn)
      (hlen : r.length < lx.rest.length) :
      Effect lx .indent { lx with
        rest := r, atLineStart := a, flowDepth := lx.flowDepth + 1
        flowContext := c :: lx.flowContext
        pendingDash := c = ch '[' }
  | closeFlow {c o : UInt8} {context r : Bytes} {a : Bool} (hready : lx.Ready)
      (hcontext : lx.flowContext = o :: context) (hc : c = ch '}' ∨ c = ch ']')
      (hahead : lx.flowDepth ≠ 0 → lx.ahead = c :: r) (hlen : r.length < lx.rest.length) :
      Effect lx .dedent { lx with
        rest := r, atLineStart := a, flowDepth := lx.flowDepth - 1, flowContext := context }
  | plain {t : Token} {r : Bytes} {a : Bool} (hready : lx.Ready) (ht : t.IsPlain)
      (hflow : lx.flowDepth ≠ 0 → lx.GoesOn) (hlen : r.length < lx.rest.length) :
      Effect lx t { lx with rest := r, atLineStart := a }

/-- What is in front of the text does not change what a call does. Kind: L -/
theorem Effect.widen {lx lx' : Lexer} {r : Bytes} {a : Bool} {t : Token} (hready : lx.Ready)
    (h : Effect { lx with rest := r, atLineStart := a } t lx') (hahead : Yaml.ahead false r =
      lx.ahead)
    (hlen : r.length ≤ lx.rest.length)
    (hinline : a = false → r ≠ [] → r.dropWhile isBlank = [] →
      lx.atLineStart = false ∧ lx.rest ≠ [] ∧ lx.rest.dropWhile isBlank = [])
    (hclose : a = true → lx.flowDepth = 0 → lx.atLineStart = true ∧ skipEmptyLines r =
      skipEmptyLines lx.rest) :
    Effect lx t lx' := by
  have hgoes : Lexer.GoesOn { lx with rest := r, atLineStart := a } → lx.GoesOn := by
    rintro ⟨c, s, hs, hc⟩
    exact ⟨c, s, hahead.symm.trans hs, hc⟩
  cases h with
  | pendingDash hdash => exact absurd (hready.1.symm.trans hdash) (by decide)
  | pendingDedent _ hpending => exact absurd hready.2 (Nat.ne_of_gt hpending)
  | dedentAtEnd _ hend hlevels => exact .dedentAtEnd hready (hahead.symm.trans hend) hlevels
  | eofAtEnd _ hend hlevels => exact .eofAtEnd hready (hahead.symm.trans hend) hlevels
  | eofInLine _ hline hrest hblank =>
      obtain ⟨hline', hrest', hblank'⟩ := hinline hline hrest hblank
      exact .eofInLine hready hline' hrest' hblank'
  | indent _ hflow hshort => exact .indent hready hflow (lt_of_lt_of_le hshort hlen)
  | close _ hline hflow hrest hshort hless =>
      obtain ⟨hline', hskip⟩ := hclose hline hflow
      have hindentation : Lexer.indentation { lx with rest := r, atLineStart := a } =
        lx.indentation :=
        congrArg (fun s => (measureIndent maxIndent s).1) hskip
      have hkept : Lexer.kept { lx with rest := r, atLineStart := a } = lx.kept := by
        unfold Lexer.kept
        rw [hindentation]
      have hclosed : Lexer.closed { lx with rest := r, atLineStart := a } = lx.closed := by
        unfold Lexer.closed
        rw [hkept]
      rw [hkept, hclosed]
      rw [hindentation] at hless
      exact .close hready hline' hflow (fun h => hrest (hskip.trans h)) (le_trans hshort hlen) hless
  | openFlow _ hflow hshort =>
      exact .openFlow hready (fun h => hgoes (hflow h)) (lt_of_lt_of_le hshort hlen)
  | closeFlow _ hcontext hc hflow hshort =>
      exact .closeFlow hready hcontext hc (fun h =>
        hahead.symm.trans (hflow h)) (lt_of_lt_of_le hshort hlen)
  | plain _ ht hflow hshort =>
      exact .plain hready ht (fun h => hgoes (hflow h)) (lt_of_lt_of_le hshort hlen)

/-- A scalar that was read has the effect of a plain token. Kind: L -/
theorem scanned_effect {lx lx' : Lexer} {t : Token} {o : Option Token × Bytes} (hready : lx.Ready)
    (hflow : lx.flowDepth ≠ 0 → lx.GoesOn)
    (ho : ∀ t r, o = (some t, r) → t.IsPlain ∧ r.length < lx.rest.length)
    (h : lx.scanned o = .token t lx') : Effect lx t lx' := by
  obtain ⟨_ | t', r⟩ := o
  · cases h
  · cases h
    obtain ⟨ht, hlen⟩ := ho t r rfl
    exact @Effect.plain lx t r lx.atLineStart hready ht hflow hlen

/-- A comment ends at the end of its line. Kind: L -/
theorem skipComment_blank (s : Bytes)
    (h : skipComment s ≠ []) : (skipComment s).dropWhile isBlank ≠ [] := by
  unfold skipComment at h ⊢
  rcases hs : s.dropWhile (fun c => decide (c ≠ ch '\n')) with _ | ⟨c, rest⟩
  · exact absurd hs h
  · have hhead := List.head?_dropWhile_not (fun c => decide (c ≠ ch '\n')) s
    rw [hs] at hhead
    have hc : c = ch '\n' := by simpa using hhead
    rw [hc, List.dropWhile_cons_of_neg (by decide)]
    exact List.cons_ne_nil _ _

/-! ### The token behind the white space of a line -/

section Scan

variable {again : Lexer → Lexed} {lx lx' : Lexer} {t : Token} {c : UInt8} {s : Bytes}

/-- Behind the first character the text is shorter. Kind: L -/
theorem length_behind (hbody : lx.rest.dropWhile isBlank = c :: s) : s.length < lx.rest.length := by
  have hsuffix := (List.dropWhile_suffix isBlank (l := lx.rest)).length_le
  rw [hbody] at hsuffix
  exact hsuffix

theorem isBlank_behind (hbody : lx.rest.dropWhile isBlank = c :: s) : ¬ isBlank c = true := by
  have hhead := List.head?_dropWhile_not isBlank lx.rest
  rw [hbody] at hhead
  simpa using hhead

/-- From the first character on that is not blank. Kind: L -/
theorem ahead_behind (hbody : lx.rest.dropWhile isBlank = c :: s) :
    lx.ahead = Yaml.ahead false (c :: s) := by
  unfold Lexer.ahead
  rw [← ahead_dropWhile, hbody]

/-- Under an open bracket the end of a line is passed. Kind: L -/
theorem newline_effect (hready : lx.Ready) (hpositive : 0 ≤ lx.flowDepth)
    (hbody : lx.rest.dropWhile isBlank = ch '\n' :: s)
    (hagain : ∀ (r : Bytes) (a : Bool) (t : Token) (lx' : Lexer),
      again { lx with rest := r, atLineStart := a } = .token t lx' →
      Effect { lx with rest := r, atLineStart := a } t lx')
    (h : scanToken signed again lx = .token t lx') : Effect lx t lx' := by
  have hlen := length_behind hbody
  unfold scanToken at h
  dsimp only at h
  rw [hbody] at h
  dsimp only at h
  rw [if_pos rfl] at h
  by_cases hflow : 0 < lx.flowDepth
  · rw [if_pos (decide_eq_true hflow)] at h
    refine (hagain s true t lx' h).widen hready ?_ (le_of_lt hlen) (fun h => by cases h) ?_
    · rw [ahead_behind hbody, Yaml.ahead, if_pos rfl]
    · intro _ hzero
      exact absurd hzero (ne_of_gt hflow)
  · rw [if_neg (by simpa using hflow)] at h
    cases h
    exact .plain hready ⟨by simp, by simp, by simp⟩
      (fun hne => absurd (lt_of_le_of_ne hpositive (Ne.symm hne)) hflow) hlen

/-- A comment is passed. Kind: L -/
theorem comment_effect (hready : lx.Ready) (hline : lx.atLineStart = true → lx.flowDepth ≠ 0)
    (hbody : lx.rest.dropWhile isBlank = ch '#' :: s)
    (hagain : ∀ (r : Bytes) (a : Bool) (t : Token) (lx' : Lexer),
      again { lx with rest := r, atLineStart := a } = .token t lx' →
      Effect { lx with rest := r, atLineStart := a } t lx')
    (h : scanToken signed again lx = .token t lx') : Effect lx t lx' := by
  unfold scanToken at h
  dsimp only at h
  rw [hbody] at h
  dsimp only at h
  rw [if_neg (by decide), if_pos rfl] at h
  have hskip : skipComment (ch '#' :: s) = skipComment s := by
    unfold skipComment
    rw [List.dropWhile_cons_of_pos (by decide)]
  rw [hskip] at h
  refine (hagain (skipComment s) lx.atLineStart t lx' h).widen hready ?_ ?_ ?_ ?_
  · rw [ahead_behind hbody, Yaml.ahead, if_neg (by decide), if_neg Bool.false_ne_true,
      if_neg (isBlank_behind hbody), if_pos rfl, ahead_comment]
  · exact le_trans (skipComment_length s) (le_of_lt (length_behind hbody))
  · intro _ hne hempty
    exact absurd hempty (skipComment_blank s hne)
  · intro htrue hzero
    exact absurd hzero (hline htrue)

/-- A closing bracket takes the context that is open. Kind: L -/
theorem closeFlow_effect (hready : lx.Ready)
    (hclose : c = ch '}' ∨ c = ch ']') (hhere : lx.ahead = c :: s)
    (hlen : s.length < lx.rest.length) (h : lx.closeFlow s = .token t lx') : Effect lx t lx' := by
  unfold Lexer.closeFlow at h
  rcases hcontext : lx.flowContext with _ | ⟨o, context⟩
  · rw [hcontext] at h
    cases h
  · rw [hcontext] at h
    cases h
    exact .closeFlow hready hcontext hclose (fun _ => hhere) hlen

/-- A token of one or more characters, or what else they begin. Kind: L -/
theorem marked_effect {p : Prop} [Decidable p] {e : Lexed} {mark : Token}
    {r : Bytes} (hready : lx.Ready)
    (hgoes : lx.GoesOn) (hlen : s.length < lx.rest.length)
      (hmark : mark.IsPlain) (hr : r.length ≤ s.length)
    (he : e = .token t lx' → Effect lx t lx')
    (h : (if p then .token mark { lx with rest := r } else e) = .token t lx') : Effect lx t
      lx' := by
  by_cases hp : p
  · rw [if_pos hp] at h
    cases h
    exact @Effect.plain lx _ r lx.atLineStart hready hmark (fun _ => hgoes) (lt_of_le_of_lt hr hlen)
  · rw [if_neg hp] at h
    exact he h

/-- The token of a character that is neither white space nor a closing bracket. Kind: L -/
theorem scanToken_goesOn (hready : lx.Ready) (hbody : lx.rest.dropWhile isBlank = c :: s)
    (hnewline : c ≠ ch '\n') (hcomment : c ≠ ch '#')
      (hclose : c ≠ ch '}' ∧ c ≠ ch ']') (hgoes : lx.GoesOn)
    (h : scanToken signed again lx = .token t lx') : Effect lx t lx' := by
  have hlen := length_behind hbody
  unfold scanToken at h
  dsimp only at h
  rw [hbody] at h
  dsimp only at h
  rw [if_neg hnewline, if_neg hcomment] at h
  have hscanned : ∀ o : Option Token × Bytes, (∀ t r, o = (some t, r) → t.IsPlain ∧
    r.length ≤ s.length) →
      lx.scanned o = .token t lx' → Effect lx t lx' := by
    intro o ho
    apply scanned_effect hready (fun _ => hgoes)
    intro t r hr
    exact ⟨(ho t r hr).1, lt_of_le_of_lt (ho t r hr).2 hlen⟩
  have hscalar : lx.scanned (readScalar signed (decide (0 < lx.flowDepth))
    (c :: s)) = .token t lx' →
      Effect lx t lx' :=
    hscanned _ fun t r hr => ⟨(readScalar_spec hr).1, Nat.le_of_lt_succ (readScalar_spec hr).2⟩
  have hdrop : (s.drop 2).length ≤ s.length := (List.drop_suffix 2 s).length_le
  by_cases hdash : c = ch '-'
  · rw [if_pos hdash] at h
    exact marked_effect hready hgoes hlen ⟨by simp, by simp, by simp⟩ hdrop
      (marked_effect hready hgoes hlen ⟨by simp, by simp, by simp⟩ (le_refl _) hscalar) h
  rw [if_neg hdash] at h
  by_cases hdot : c = ch '.'
  · rw [if_pos hdot] at h
    exact marked_effect hready hgoes hlen ⟨by simp, by simp, by simp⟩ hdrop hscalar h
  rw [if_neg hdot] at h
  by_cases hcolon : c = ch ':'
  · rw [if_pos hcolon] at h
    exact marked_effect hready hgoes hlen ⟨by simp, by simp, by simp⟩ (le_refl _) hscalar h
  rw [if_neg hcolon] at h
  by_cases hquote : (decide (c = ch '"') || decide (c = ch '\'')) = true
  · rw [if_pos hquote] at h
    exact hscanned _ (fun _ _ => readQuotedString_spec) h
  rw [if_neg hquote] at h
  by_cases hopen : (decide (c = ch '{') || decide (c = ch '[')) = true
  · rw [if_pos hopen] at h
    cases h
    exact @Effect.openFlow lx c s lx.atLineStart hready (fun _ => hgoes) hlen
  rw [if_neg hopen, if_neg (by simp [hclose.1, hclose.2])] at h
  by_cases hcomma : c = ch ','
  · rw [if_pos hcomma] at h
    by_cases hflow : decide (0 < lx.flowDepth) = true
    · rw [if_pos hflow] at h
      rcases hcontext : lx.flowContext with _ | ⟨o, context⟩
      · rw [hcontext] at h
        cases h
      · rw [hcontext] at h
        cases h
        rw [← hcontext]
        apply @Effect.plain lx _ s lx.atLineStart hready _ (fun _ => hgoes) hlen
        split_ifs <;> exact ⟨by simp, by simp, by simp⟩
    rw [if_neg hflow] at h
    exact hscalar h
  rw [if_neg hcomma] at h
  by_cases hblock : (decide (c = ch '|') || decide (c = ch '>')) = true
  · rw [if_pos hblock] at h
    exact hscanned _ (fun _ _ => readBlockScalar_spec) h
  rw [if_neg hblock] at h
  by_cases hanchor : c = ch '&'
  · rw [if_pos hanchor] at h
    exact hscanned _ (fun _ _ => readName_spec fun _ => ⟨by simp, by simp, by simp⟩) h
  rw [if_neg hanchor] at h
  by_cases halias : c = ch '*'
  · rw [if_pos halias] at h
    exact hscanned _ (fun _ _ => readName_spec fun _ => ⟨by simp, by simp, by simp⟩) h
  rw [if_neg halias] at h
  exact hscalar h

end Scan

/-- The token behind the white space of a line. Kind: L -/
theorem scanToken_effect {again : Lexer → Lexed} {lx lx' : Lexer} {t : Token} (hready : lx.Ready)
    (hpositive : 0 ≤ lx.flowDepth)
      (hline : lx.atLineStart = true → lx.flowDepth ≠ 0) (hrest : lx.rest ≠ [])
    (hblank : lx.atLineStart = true → lx.rest.dropWhile isBlank ≠ [])
    (hagain : ∀ (r : Bytes) (a : Bool) (t : Token) (lx' : Lexer),
      again { lx with rest := r, atLineStart := a } = .token t lx' →
      Effect { lx with rest := r, atLineStart := a } t lx')
    (h : scanToken signed again lx = .token t lx') : Effect lx t lx' := by
  rcases hbody : lx.rest.dropWhile isBlank with _ | ⟨c, s⟩
  · unfold scanToken at h
    dsimp only at h
    rw [hbody] at h
    cases h
    have hfalse : lx.atLineStart = false := Bool.eq_false_iff.mpr fun htrue => hblank htrue hbody
    have hinline := Effect.eofInLine hready hfalse hrest hbody
    rwa [← hfalse] at hinline
  by_cases hnewline : c = ch '\n'
  · exact newline_effect hready hpositive (hnewline ▸ hbody) hagain h
  by_cases hcomment : c = ch '#'
  · exact comment_effect hready hline (hcomment ▸ hbody) hagain h
  have hhere : lx.ahead = c :: s := by
    rw [ahead_behind hbody, Yaml.ahead, if_neg hnewline, if_neg Bool.false_ne_true,
      if_neg (isBlank_behind hbody), if_neg hcomment]
  by_cases hclose : c = ch '}' ∨ c = ch ']'
  · have hrun : lx.closeFlow s = .token t lx' := by
      unfold scanToken at h
      dsimp only at h
      rw [hbody] at h
      rcases hclose with rfl | rfl <;> exact h
    exact closeFlow_effect hready hclose hhere (length_behind hbody) hrun
  rw [not_or] at hclose
  exact scanToken_goesOn hready hbody hnewline hcomment hclose ⟨c, s, hhere, hclose⟩ h

/-- **A call that returns a token has one of these effects.** Kind: P -/
theorem nextToken_effect (fuel : ℕ) : ∀ {lx lx' : Lexer} {t : Token}, 0 ≤ lx.flowDepth →
    nextToken signed fuel lx = .token t lx' → Effect lx t lx' := by
  induction fuel with
  | zero => intro lx lx' t _ h; cases h
  | succ fuel ih =>
      intro lx lx' t hpositive h
      rw [nextToken] at h
      by_cases hdash : lx.pendingDash = true
      · rw [if_pos hdash] at h
        cases h
        exact .pendingDash hdash
      rw [if_neg hdash] at h
      by_cases hpending : 0 < lx.pendingDedents
      · rw [if_pos hpending] at h
        cases h
        exact .pendingDedent (Bool.eq_false_iff.mpr hdash) hpending
      rw [if_neg hpending] at h
      have hready : lx.Ready := ⟨Bool.eq_false_iff.mpr hdash, Nat.eq_zero_of_not_pos hpending⟩
      -- what the call goes on with, behind the empty lines
      have hstart : ∃ r,
          (if lx.atLineStart then { lx with rest := skipEmptyLines lx.rest } else lx) =
          { lx with rest := r } ∧ Yaml.ahead false r = lx.ahead ∧ r.length ≤ lx.rest.length ∧
          (lx.atLineStart = true → r = skipEmptyLines lx.rest) ∧
          (lx.atLineStart = false → r = lx.rest) := by
        by_cases hline : lx.atLineStart = true
        · rw [if_pos hline]
          exact ⟨_, rfl, ahead_skipEmptyLines _, skipEmptyLines_length _, fun _ => rfl,
            fun hfalse => absurd (hline.symm.trans hfalse) (by decide)⟩
        · rw [if_neg hline]
          exact ⟨_, rfl, rfl, le_refl _, fun htrue => absurd htrue hline, fun _ => rfl⟩
      obtain ⟨r, hr, hahead, hlen, htrue, hfalse⟩ := hstart
      rw [hr] at h
      dsimp only at h
      by_cases hend : r = []
      · rw [if_pos hend] at h
        have hnothing : lx.ahead = [] := by
          rw [← hahead, hend]
          rfl
        rw [hend] at h
        by_cases hlevels : 1 < lx.indents.length
        · rw [if_pos hlevels] at h
          cases h
          exact @Effect.dedentAtEnd lx lx.atLineStart hready hnothing hlevels
        · rw [if_neg hlevels] at h
          cases h
          exact @Effect.eofAtEnd lx lx.atLineStart hready hnothing (not_lt.mp hlevels)
      rw [if_neg hend] at h
      by_cases hmeasured : (lx.atLineStart && decide (lx.flowDepth = 0)) = true
      · rw [if_pos hmeasured] at h
        rw [Bool.and_eq_true, decide_eq_true_eq] at hmeasured
        obtain ⟨hline, hflow⟩ := hmeasured
        obtain rfl := htrue hline
        obtain ⟨hdrop, hsum⟩ := measureIndent_spec maxIndent (skipEmptyLines lx.rest)
        by_cases htab : (measureIndent maxIndent (skipEmptyLines lx.rest)).2.2 = true
        · rw [if_pos htab] at h
          cases h
        rw [if_neg htab] at h
        unfold Lexer.indentTo at h
        dsimp only at h
        by_cases hmore : lx.indents.headD 0 < (measureIndent maxIndent (skipEmptyLines lx.rest)).1
        · rw [if_pos hmore] at h
          cases h
          exact .indent hready hflow (by omega)
        rw [if_neg hmore] at h
        by_cases hless : (measureIndent maxIndent (skipEmptyLines lx.rest)).1 < lx.indents.headD 0
        · rw [if_pos hless] at h
          change (if lx.kept.headD 0 ≠ lx.indentation then Lexed.raised _ else Lexed.token _ _) =
            Lexed.token t lx' at h
          by_cases hlevel : lx.kept.headD 0 ≠ lx.indentation
          · rw [if_pos hlevel] at h
            cases h
          · rw [if_neg hlevel, hready.2] at h
            cases h
            exact .close hready hline hflow hend (by omega) hless
        rw [if_neg hless] at h
        have hnotblank : (measureIndent maxIndent (skipEmptyLines lx.rest)).2.1.dropWhile
          isBlank ≠ [] := by
          rw [hdrop, dropWhile_skipEmptyLines]
          exact ahead_of_skipEmptyLines hend
        have hscan := @scanToken_effect signed _ { lx with
            rest := (measureIndent maxIndent (skipEmptyLines lx.rest)).2.1,
              atLineStart := false } lx' t
          hready hpositive (fun h => by cases h)
          (fun hnil => hnotblank (congrArg (List.dropWhile isBlank) hnil)) (fun h => by cases h)
          (fun r a t lx' => ih hpositive) h
        refine hscan.widen hready ?_ (by omega) (fun _ _ hempty =>
          absurd hempty hnotblank) (fun h => by cases h)
        rw [← ahead_dropWhile, hdrop, ahead_dropWhile, hahead]
      · rw [if_neg hmeasured] at h
        rw [Bool.and_eq_true, decide_eq_true_eq, not_and] at hmeasured
        have hscan := @scanToken_effect signed _
          { lx with rest := r } lx' t hready hpositive hmeasured hend
          (fun hline => by
            have hrest := htrue hline
            dsimp only
            rw [hrest, dropWhile_skipEmptyLines]
            exact ahead_of_skipEmptyLines (hrest ▸ hend))
          (fun r a t lx' => ih hpositive) h
        refine @Effect.widen lx lx' r lx.atLineStart t hready hscan hahead hlen ?_ ?_
        · intro hline hne hempty
          rw [hfalse hline] at hne hempty
          exact ⟨hline, hne, hempty⟩
        · intro hline hflow
          exact absurd hflow (hmeasured hline)

/-! ## The levels and brackets that are open -/

/-- There is a bracket for each level of flow style, and the outermost level is that of the text. -/
structure Lexer.Ok (lx : Lexer) : Prop where
  flow : lx.flowDepth = lx.flowContext.length
  outermost : lx.indents.getLast? = some 0

/-- How many `Dedent` tokens are still due. -/
def Lexer.due (lx : Lexer) : ℤ :=
  (lx.indents.length - 1 : ℤ) + lx.pendingDedents + lx.flowContext.length

def Token.net (t : Token) : ℤ := if t = .indent then 1 else if t = .dedent then -1 else 0

/-- `Indent` tokens less `Dedent` tokens. -/
def net (ts : List Token) : ℤ := ts.count .indent - ts.count .dedent

theorem net_append (ts us : List Token) : net (ts ++ us) = net ts + net us := by
  unfold net
  rw [List.count_append, List.count_append]
  push_cast
  ring

theorem net_singleton (t : Token) : net [t] = t.net := by
  cases t <;> rfl

theorem Lexer.Ok.levels_pos {lx : Lexer} (h : lx.Ok) : 0 < lx.indents.length := by
  apply List.length_pos_iff_ne_nil.mpr
  intro hnil
  have hlast := h.outermost
  rw [hnil] at hlast
  cases hlast

/-- What is owed is never negative. Kind: L -/
theorem Lexer.Ok.due_nonneg {lx : Lexer} (h : lx.Ok) : 0 ≤ lx.due := by
  have hpos := h.levels_pos
  unfold Lexer.due
  omega

/-- The line closes at least the innermost level. Kind: L -/
theorem Lexer.kept_spec {lx : Lexer} (h : lx.Ok) (hless : lx.indentation < lx.indents.headD 0) :
    lx.kept.getLast? = some 0 ∧ 0 < lx.closed ∧ lx.kept.length + lx.closed = lx.indents.length := by
  have hlast := h.outermost
  unfold Lexer.closed Lexer.kept
  rw [hlast, Option.toList_some]
  rcases hind : lx.indents with _ | ⟨n, levels⟩
  · rw [hind] at hlast
    cases hlast
  · rw [hind] at hless hlast
    rw [List.headD_cons] at hless
    rcases levels with _ | ⟨m, levels⟩
    · cases hlast
      exact absurd hless (Nat.not_lt_zero _)
    · have hshort : ((m :: levels).dropLast.dropWhile (lx.indentation < ·)).length ≤
        levels.length := by
        refine le_trans (List.dropWhile_suffix _).length_le ?_
        rw [List.length_dropLast]
        exact le_refl _
      have hdrop : (n :: (m :: levels).dropLast).dropWhile (lx.indentation < ·) =
          (m :: levels).dropLast.dropWhile (lx.indentation < ·) :=
        List.dropWhile_cons_of_pos (decide_eq_true hless)
      rw [List.dropLast_cons_cons, hdrop]
      simp only [List.getLast?_append, List.getLast?_singleton, Option.some_or, List.length_append,
        List.length_cons, List.length_nil]
      refine ⟨trivial, ?_, ?_⟩ <;> omega

/-- **Every effect keeps the state well formed.** Kind: L -/
theorem Effect.ok {lx lx' : Lexer} {t : Token} (h : Effect lx t lx') (hok : lx.Ok) : lx'.Ok := by
  cases h with
  | pendingDash | pendingDedent | eofAtEnd | eofInLine | plain => exact ⟨hok.flow, hok.outermost⟩
  | dedentAtEnd _ _ hlevels =>
      refine ⟨hok.flow, ?_⟩
      have hlast := hok.outermost
      rcases hind : lx.indents with _ | ⟨n, _ | ⟨m, levels⟩⟩
      · rw [hind] at hlevels
        exact absurd hlevels (Nat.not_lt_zero 1)
      · rw [hind] at hlevels
        exact absurd hlevels (lt_irrefl 1)
      · rw [hind, List.getLast?_cons_cons] at hlast
        exact hlast
  | @indent n r _ _ _ =>
      refine ⟨hok.flow, ?_⟩
      dsimp only
      rw [List.getLast?_cons, hok.outermost]
      rfl
  | close _ _ _ _ _ hless => exact ⟨hok.flow, (Lexer.kept_spec hok hless).1⟩
  | openFlow =>
      refine ⟨?_, hok.outermost⟩
      dsimp only
      rw [hok.flow, List.length_cons]
      push_cast
      rfl
  | closeFlow _ hcontext _ _ _ =>
      refine ⟨?_, hok.outermost⟩
      dsimp only
      rw [hok.flow, hcontext, List.length_cons]
      push_cast
      ring

/-- **A token stands for one level more or less**, or a line closes levels and not all are counted.
 Kind: L -/
theorem Effect.due_cases {lx lx' : Lexer} {t : Token} (h : Effect lx t lx') (hok : lx.Ok) :
    lx'.due = lx.due + t.net ∨
      (lx.Ready ∧ lx.atLineStart = true ∧ lx.flowDepth = 0 ∧ skipEmptyLines lx.rest ≠ [] ∧
        maxClosed < lx.closed ∧ lx'.due < lx.due + t.net) := by
  cases h with
  | pendingDash | eofAtEnd | eofInLine => exact Or.inl (add_zero _).symm
  | pendingDedent _ hpending =>
      refine Or.inl ?_
      unfold Lexer.due Token.net
      simp only [reduceCtorEq, if_false, if_true]
      omega
  | dedentAtEnd _ _ hlevels =>
      refine Or.inl ?_
      unfold Lexer.due Token.net
      simp only [reduceCtorEq, if_false, if_true, List.length_tail]
      omega
  | indent =>
      refine Or.inl ?_
      unfold Lexer.due Token.net
      simp only [if_true, List.length_cons]
      omega
  | close hready hline hflow hrest _ hless =>
      obtain ⟨-, hpos, hsum⟩ := Lexer.kept_spec hok hless
      obtain ⟨hle, hiff⟩ := pendingOf_lt hpos
      unfold Lexer.due Token.net
      simp only [reduceCtorEq, if_false, if_true, hready.2]
      by_cases hmany : lx.closed ≤ maxClosed
      · have hcount := hiff.mpr hmany
        refine Or.inl ?_
        omega
      · have hlost : pendingOf lx.closed + 1 ≠ lx.closed := fun heq => hmany (hiff.mp heq)
        refine Or.inr ⟨hready, hline, hflow, hrest, not_le.mp hmany, ?_⟩
        omega
  | openFlow =>
      refine Or.inl ?_
      unfold Lexer.due Token.net
      simp only [if_true, List.length_cons]
      omega
  | closeFlow _ hcontext _ _ _ =>
      refine Or.inl ?_
      unfold Lexer.due Token.net
      simp only [reduceCtorEq, if_false, if_true, hcontext, List.length_cons]
      omega
  | plain _ ht _ _ =>
      refine Or.inl ?_
      unfold Token.net
      rw [if_neg ht.1, if_neg ht.2.1, add_zero]
      rfl

/-! ## Runs -/

/-- One call; each call of `nextToken` within it but the first is behind a character, so that the
fuel is enough. Source: `lexer.cxy` `nextToken`. -/
def Lexer.call (signed : Bool) (lx : Lexer) : Lexed := nextToken signed (lx.rest.length + 1) lx

/-- **The tokens that a number of calls return.** -/
inductive Returns (signed : Bool) : Lexer → List Token → Lexer → Prop
  | nil {lx : Lexer} : Returns signed lx [] lx
  | cons {lx lx₁ lx₂ : Lexer} {t : Token} {ts : List Token} (h : lx.call signed = .token t lx₁)
      (hs : Returns signed lx₁ ts lx₂) : Returns signed lx (t :: ts) lx₂

/-- No call raises, or fails. -/
def NoRaise (signed : Bool) (lx : Lexer) : Prop :=
  ∀ ts lx', Returns signed lx ts lx' → ∃ t lx'', lx'.call signed = .token t lx''

section

variable {lx lx' lx₁ lx₂ : Lexer} {t : Token} {ts us : List Token}

theorem Returns.append (h : Returns signed lx ts lx₁) (h' : Returns signed lx₁ us lx₂) :
    Returns signed lx (ts ++ us) lx₂ := by
  induction h with
  | nil => exact h'
  | cons hcall _ ih => exact .cons hcall (ih h')

/-- A run of two parts passes through a state between them. Kind: L -/
theorem Returns.append_inv (h : Returns signed lx (ts ++ us) lx₂) :
    ∃ lx₁, Returns signed lx ts lx₁ ∧ Returns signed lx₁ us lx₂ := by
  induction ts generalizing lx with
  | nil => exact ⟨lx, .nil, h⟩
  | cons t ts ih =>
      cases h with
      | cons hcall hs =>
          obtain ⟨lx₁, h₁, h₂⟩ := ih hs
          exact ⟨lx₁, .cons hcall h₁, h₂⟩

/-- A run with a last token is a run and a call. Kind: L -/
theorem Returns.snoc_inv (h : Returns signed lx (ts ++ [t]) lx₂) :
    ∃ lx₁, Returns signed lx ts lx₁ ∧ lx₁.call signed = .token t lx₂ := by
  obtain ⟨lx₁, h₁, h₂⟩ := h.append_inv
  cases h₂ with
  | cons hcall hs =>
      cases hs
      exact ⟨lx₁, h₁, hcall⟩

/-- In a well-formed state a call has one of the effects. Kind: L -/
theorem Lexer.Ok.effect (hok : lx.Ok) (h : lx.call signed = .token t lx') : Effect lx t lx' := by
  refine nextToken_effect _ ?_ h
  rw [hok.flow]
  exact Int.natCast_nonneg _

/-- **What is due at the end of a run is at most what it has opened.** Kind: L -/
theorem Returns.due_le (h : Returns signed lx ts lx') (hok : lx.Ok) :
    lx'.Ok ∧ lx'.due ≤ lx.due + net ts := by
  induction h with
  | nil => exact ⟨hok, le_of_eq (add_zero _).symm⟩
  | @cons lx lx₁ lx₂ t ts hcall _ ih =>
      have heffect := hok.effect hcall
      obtain ⟨hok', hle⟩ := ih (heffect.ok hok)
      refine ⟨hok', ?_⟩
      have hnet : net (t :: ts) = t.net + net ts := by
        rw [← net_singleton t, ← net_append]
        rfl
      have hstep : lx₁.due ≤ lx.due + t.net := by
        rcases heffect.due_cases hok with heq | ⟨-, -, -, -, -, hlt⟩
        · exact le_of_eq heq
        · exact le_of_lt hlt
      rw [hnet]
      linarith

theorem init_ok (s : Bytes) : (Lexer.init s).Ok := ⟨rfl, rfl⟩

theorem init_due (s : Bytes) : (Lexer.init s).due = 0 := rfl

/-- The calls that are left, at most. -/
def Lexer.measure (lx : Lexer) : ℕ :=
  2 * lx.rest.length + lx.indents.length + lx.pendingDedents + lx.pendingDash.toNat

/-- Every token but the last makes the measure smaller. Kind: L -/
theorem Effect.measure_lt (h : Effect lx t lx')
    (hok : lx.Ok) (ht : t ≠ .eof) : lx'.measure < lx.measure := by
  unfold Lexer.measure
  cases h with
  | pendingDash hdash =>
      rw [hdash]
      exact Nat.lt_succ_self _
  | pendingDedent _ hpending =>
      dsimp only
      omega
  | dedentAtEnd _ _ hlevels =>
      simp only [List.length_tail, List.length_nil]
      omega
  | eofAtEnd | eofInLine => exact absurd rfl ht
  | indent _ _ hlen =>
      simp only [List.length_cons]
      omega
  | close hready _ _ _ hlen hless =>
      obtain ⟨-, hpos, hsum⟩ := Lexer.kept_spec hok hless
      have hle := (pendingOf_lt hpos).1
      dsimp only
      omega
  | @openFlow c r a hready _ hlen =>
      have hdash : (decide (c = ch '[')).toNat ≤ 1 := Bool.toNat_le _
      dsimp only
      omega
  | closeFlow _ _ _ _ hlen =>
      dsimp only
      omega
  | plain _ _ _ hlen =>
      dsimp only
      omega

/-- Where no call raises, there is a first `EOF`. Kind: L -/
theorem NoRaise.ends (hok : lx.Ok) (h : NoRaise signed lx) :
    ∃ ts lx', Returns signed lx ts lx' ∧ .eof ∉ ts ∧ ∃ lx'',
      lx'.call signed = .token .eof lx'' := by
  obtain ⟨n, hn⟩ : ∃ n, lx.measure < n := ⟨_, Nat.lt_succ_self _⟩
  induction n generalizing lx with
  | zero => exact absurd hn (Nat.not_lt_zero _)
  | succ n ih =>
      obtain ⟨t, lx₁, hcall⟩ := h [] lx .nil
      by_cases ht : t = .eof
      · subst ht
        exact ⟨[], lx, .nil, List.not_mem_nil, lx₁, hcall⟩
      · have heffect := hok.effect hcall
        have hlt := heffect.measure_lt hok ht
        obtain ⟨ts, lx', hrun, hts, hend⟩ := ih (heffect.ok hok)
          (fun ts lx' hrun => h (t :: ts) lx' (.cons hcall hrun)) (by omega)
        refine ⟨t :: ts, lx', .cons hcall hrun, ?_, hend⟩
        rw [List.mem_cons, not_or]
        exact ⟨Ne.symm ht, hts⟩

end

/-! ## Balance -/

/-- **The tokens of a text are balanced**: up to the first `EOF` there are as many `Dedent` as
`Indent` tokens, in front of it never more, and behind it there is nothing else; where a bracket is
taken off, a bracket of its kind has been read. -/
structure Balanced (signed : Bool) (s : Bytes) : Prop where
  prefixes : ∀ ts lx, Returns signed (.init s) ts lx → .eof ∉ ts →
    ts.count .dedent ≤ ts.count .indent
  settled : ∀ ts lx, Returns signed (.init s) (ts ++ [.eof]) lx → .eof ∉ ts →
    ts.count .dedent = ts.count .indent
  stays : ∀ ts us lx, Returns signed (.init s) (ts ++ .eof :: us) lx →
    .eof ∉ ts → ∀ t ∈ us, t = .eof
  brackets : ∀ ts lx lx' t o c pre, Returns signed (.init s) ts lx → .eof ∉ ts →
    lx.call signed = .token t lx' → lx.flowContext = o :: lx'.flowContext →
      lx.rest = pre ++ c :: lx'.rest →
    c = ch '}' ∧ o = ch '{' ∨ c = ch ']' ∧ o = ch '['

/-- **What has to hold in front of a call**: a line closes no more levels than are counted; where
only blanks are left of a line, no level is open; where only white space and comments are left, no
bracket is open; and a closing bracket is of the kind of the last one that is open. -/
structure Lexer.Fine (lx : Lexer) : Prop where
  closes : lx.atLineStart = true → lx.flowDepth = 0 →
    skipEmptyLines lx.rest ≠ [] → lx.closed ≤ maxClosed
  blanks : lx.atLineStart = false → lx.rest ≠ [] →
    lx.rest.dropWhile isBlank = [] → lx.indents.length = 1
  flowEnd : lx.ahead = [] → lx.flowContext = []
  brackets : ∀ o context c s, lx.flowContext = o :: context →
    lx.ahead = c :: s → c = ch '}' ∨ c = ch ']' →
    c = ch '}' ∧ o = ch '{' ∨ c = ch ']' ∧ o = ch '['

/-- A balance of zero: as many tokens close as open. Kind: L -/
theorem net_zero_iff (ts : List Token) : net ts = 0 ↔ ts.count .dedent = ts.count .indent := by
  unfold net
  omega

section

variable {s : Bytes} {lx lx' : Lexer} {ts : List Token}

/-- **Each prefix is fine whatever the text is.** Kind: L -/
theorem due_le_net (h : Returns signed (.init s) ts lx) : lx.Ok ∧ lx.due ≤ net ts := by
  have hle := h.due_le (init_ok s)
  rw [init_due, zero_add] at hle
  exact hle

/-- **As long as all is fine, no level is lost.** Kind: L -/
theorem due_eq_net (hfine : ∀ ts lx, Returns signed (.init s) ts lx →
    .eof ∉ ts → lx.Ready → lx.Fine)
    (h : Returns signed (.init s) ts lx) (hts : .eof ∉ ts) : lx.due = net ts := by
  induction ts using List.reverseRecOn generalizing lx with
  | nil =>
      cases h
      rfl
  | append_singleton ts t ih =>
      obtain ⟨lx₁, hrun, hcall⟩ := h.snoc_inv
      rw [List.mem_append, not_or] at hts
      have hok := (due_le_net hrun).1
      rcases (hok.effect hcall).due_cases hok with heq | ⟨hready, hline, hflow, hrest, hmany, -⟩
      · rw [heq, ih hrun hts.1, net_append, net_singleton]
      · exact absurd ((hfine ts lx₁ hrun hts.1 hready).closes hline hflow hrest) (not_le.mpr hmany)

/-- Where a call returns the end. Kind: L -/
theorem Effect.eof_inv {lx' : Lexer} (h : Effect lx .eof lx') : lx.Ready ∧ lx.ahead = [] ∧
    (lx.indents.length ≤ 1 ∨ lx.atLineStart = false ∧ lx.rest ≠ [] ∧
      lx.rest.dropWhile isBlank = []) ∧
    lx'.rest = [] ∧ lx'.Ready ∧ lx'.indents = lx.indents := by
  cases h with
  | eofAtEnd hready hahead hlevels => exact ⟨hready, hahead, Or.inl hlevels, rfl, hready, rfl⟩
  | eofInLine hready hline hrest hblank =>
      refine ⟨hready, ?_, Or.inr ⟨hline, hrest, hblank⟩, rfl, hready, rfl⟩
      unfold Lexer.ahead
      rw [← ahead_dropWhile, hblank]
      rfl
  | plain _ ht _ _ => exact absurd rfl ht.2.2

/-- Behind the text, with no level open, there is only `EOF`. Kind: L -/
theorem Effect.at_end {t : Token} (h : Effect lx t lx') (hready : lx.Ready) (hrest : lx.rest = [])
    (hlevels : lx.indents.length ≤ 1) :
    t = .eof ∧ lx'.Ready ∧ lx'.rest = [] ∧ lx'.indents.length ≤ 1 := by
  have hlen : ∀ {r : Bytes}, ¬ r.length < lx.rest.length := by
    intro r
    rw [hrest]
    exact Nat.not_lt_zero _
  cases h with
  | pendingDash hdash => exact absurd (hready.1.symm.trans hdash) (by decide)
  | pendingDedent _ hpending => exact absurd hready.2 (Nat.ne_of_gt hpending)
  | dedentAtEnd _ _ hmany => exact absurd hlevels (not_le.mpr hmany)
  | eofAtEnd => exact ⟨rfl, hready, rfl, hlevels⟩
  | eofInLine => exact ⟨rfl, hready, rfl, hlevels⟩
  | indent _ _ hshort => exact absurd hshort hlen
  | close _ _ _ hne _ _ => exact absurd (congrArg skipEmptyLines hrest) hne
  | openFlow _ _ hshort => exact absurd hshort hlen
  | closeFlow _ _ _ _ hshort => exact absurd hshort hlen
  | plain _ _ _ hshort => exact absurd hshort hlen

/-- Behind the end there is only the end. Kind: L -/
theorem Returns.at_end {us : List Token} (h : Returns signed lx us lx') (hok : lx.Ok)
    (hready : lx.Ready)
    (hrest : lx.rest = []) (hlevels : lx.indents.length ≤ 1) : ∀ t ∈ us, t = .eof := by
  induction h with
  | nil => exact fun t ht => absurd ht List.not_mem_nil
  | @cons lx lx₁ lx₂ t ts hcall _ ih =>
      have heffect := hok.effect hcall
      obtain ⟨rfl, hready₁, hrest₁, hlevels₁⟩ := heffect.at_end hready hrest hlevels
      intro u hu
      rcases List.mem_cons.mp hu with rfl | hu
      · rfl
      · exact ih (heffect.ok hok) hready₁ hrest₁ hlevels₁ u hu

/-- A bracket is taken off where a closing one is read. Kind: L -/
theorem Effect.closes {t : Token} {o : UInt8} (h : Effect lx t lx') (hok : lx.Ok)
    (hcontext : lx.flowContext = o :: lx'.flowContext) :
    lx.Ready ∧ ∃ c, (c = ch '}' ∨ c = ch ']') ∧ lx.ahead = c :: lx'.rest := by
  have hsame : lx'.flowContext ≠ lx.flowContext := by
    rw [hcontext]
    exact (List.cons_ne_self o _).symm
  cases h with
  | pendingDash | pendingDedent | dedentAtEnd | eofAtEnd | eofInLine | indent | close | plain =>
      exact absurd rfl hsame
  | openFlow =>
      have hlen := congrArg List.length hcontext
      simp only [List.length_cons] at hlen
      omega
  | @closeFlow c o' context r a hready hcontext' hc hahead _ =>
      refine ⟨hready, c, hc, hahead ?_⟩
      rw [hok.flow, hcontext', List.length_cons]
      exact Int.natCast_ne_zero.mpr (Nat.succ_ne_zero _)

/-- **Where all is fine, the tokens are balanced.** Kind: P -/
theorem balanced_of_fine
    (hfine : ∀ ts lx, Returns signed (.init s) ts lx → .eof ∉ ts → lx.Ready → lx.Fine) :
    Balanced signed s := by
  -- the state in front of the first `EOF`
  have hend : ∀ ts lx lx', Returns signed (.init s) ts lx → .eof ∉ ts →
    lx.call signed = .token .eof lx' →
      lx.due = 0 ∧ lx'.Ok ∧ lx'.Ready ∧ lx'.rest = [] ∧ lx'.indents.length ≤ 1 := by
    intro ts lx lx' hrun hts hcall
    have hok := (due_le_net hrun).1
    have heffect := hok.effect hcall
    obtain ⟨hready, hahead, hcases, hrest, hready', hindents⟩ := heffect.eof_inv
    have hlx := hfine ts lx hrun hts hready
    have hlevels : lx.indents.length ≤ 1 := by
      rcases hcases with hle | ⟨hline, hne, hblank⟩
      · exact hle
      · exact le_of_eq (hlx.blanks hline hne hblank)
    refine ⟨?_, heffect.ok hok, hready', hrest, by rw [hindents]; exact hlevels⟩
    have hpos := hok.levels_pos
    unfold Lexer.due
    rw [hlx.flowEnd hahead, hready.2, List.length_nil]
    omega
  constructor
  · intro ts lx hrun _
    obtain ⟨hok, hle⟩ := due_le_net hrun
    have hnonneg := hok.due_nonneg
    unfold net at hle
    omega
  · intro ts lx hrun hts
    obtain ⟨lx₁, hrun₁, hcall⟩ := hrun.snoc_inv
    rw [← net_zero_iff, ← due_eq_net hfine hrun₁ hts]
    exact (hend ts lx₁ lx hrun₁ hts hcall).1
  · intro ts us lx hrun hts
    obtain ⟨lx₁, hrun₁, hrun₂⟩ := hrun.append_inv
    cases hrun₂ with
    | cons hcall hs =>
        obtain ⟨-, hok, hready, hrest, hlevels⟩ := hend ts lx₁ _ hrun₁ hts hcall
        exact hs.at_end hok hready hrest hlevels
  · intro ts lx lx' t o c pre hrun hts hcall hcontext hrest
    have hok := (due_le_net hrun).1
    obtain ⟨hready, c', hc', hahead⟩ := (hok.effect hcall).closes hok hcontext
    obtain ⟨pre', hpre'⟩ := ahead_suffix false lx.rest
    have hread : lx.rest = pre' ++ c' :: lx'.rest := by
      rw [← hpre']
      exact congrArg (pre' ++ ·) hahead
    obtain rfl : c = c' := (List.cons.inj (List.append_inj' (hrest.symm.trans hread) rfl).2).1
    exact (hfine ts lx hrun hts hready).brackets o _ c _ hcontext hahead hc'

/-- In a line that is blank up to its end a call returns the end of the text. Kind: L -/
theorem Lexer.call_inLine (hready : lx.Ready) (hline : lx.atLineStart = false)
    (hrest : lx.rest ≠ []) (hblank : lx.rest.dropWhile isBlank = []) :
    lx.call signed = .token .eof { lx with rest := [] } := by
  unfold Lexer.call
  rw [nextToken, if_neg (by rw [hready.1]; decide), if_neg (by rw [hready.2]; decide)]
  simp only [hline, Bool.false_eq_true, if_false, if_neg hrest, Bool.false_and]
  unfold scanToken
  rw [hblank]
  simp only [hline]

/-- A level stays as long as the line is indented as far. Kind: L -/
theorem Lexer.closed_pos (hok : lx.Ok)
    (hclosed : 0 < lx.closed) : lx.indentation < lx.indents.headD 0 := by
  by_contra hless
  have hkept : lx.kept = lx.indents := by
    unfold Lexer.kept
    have hlast := hok.outermost
    rw [hlast, Option.toList_some]
    rcases hind : lx.indents with _ | ⟨n, levels⟩
    · rw [hind] at hlast
      cases hlast
    · rw [hind] at hlast hless
      have hdrop : (n :: levels).dropLast.dropWhile (lx.indentation < ·) =
        (n :: levels).dropLast := by
        rcases levels with _ | ⟨m, levels⟩
        · rfl
        · exact List.dropWhile_cons_of_neg (by simpa using hless)
      rw [hdrop]
      have hlast' : (n :: levels).getLast (List.cons_ne_nil _ _) = 0 :=
        Option.some.inj ((List.getLast?_eq_getLast_of_ne_nil _).symm.trans hlast)
      rw [← hlast', List.dropLast_append_getLast]
  unfold Lexer.closed at hclosed
  rw [hkept, Nat.sub_self] at hclosed
  exact lt_irrefl 0 hclosed

/-- **A line that closes more levels than are counted loses some.** Kind: L -/
theorem Lexer.call_closed {t : Token} (hcall : lx.call signed = .token t lx') (hok : lx.Ok)
    (hready : lx.Ready) (hline : lx.atLineStart = true) (hflow : lx.flowDepth = 0)
    (hrest : skipEmptyLines lx.rest ≠ []) (hmany : maxClosed < lx.closed) :
    t = .dedent ∧ lx'.due < lx.due + Token.net .dedent := by
  have hpos : 0 < lx.closed := lt_of_le_of_lt (Nat.zero_le _) hmany
  have hless := Lexer.closed_pos hok hpos
  obtain ⟨-, -, hsum⟩ := Lexer.kept_spec hok hless
  obtain ⟨hle, hiff⟩ := pendingOf_lt hpos
  have hlost : pendingOf lx.closed + 1 ≠ lx.closed :=
    fun heq => absurd (hiff.mp heq) (not_le.mpr hmany)
  unfold Lexer.call at hcall
  rw [nextToken, if_neg (by rw [hready.1]; decide), if_neg (by rw [hready.2]; decide)] at hcall
  simp only [hline, if_true, if_neg hrest, Bool.true_and, decide_eq_true hflow] at hcall
  by_cases htab : (measureIndent maxIndent (skipEmptyLines lx.rest)).2.2 = true
  · rw [if_pos htab] at hcall
    cases hcall
  rw [if_neg htab] at hcall
  unfold Lexer.indentTo at hcall
  dsimp only at hcall
  have hmeasured : (measureIndent maxIndent (skipEmptyLines lx.rest)).1 < lx.indents.headD 0 :=
    hless
  rw [if_neg (not_lt.mpr (le_of_lt hmeasured)), if_pos hmeasured] at hcall
  change (if lx.kept.headD 0 ≠ lx.indentation then Lexed.raised _ else Lexed.token _ _) = _ at hcall
  by_cases hlevel : lx.kept.headD 0 ≠ lx.indentation
  · rw [if_pos hlevel] at hcall
    cases hcall
  · rw [if_neg hlevel, hready.2] at hcall
    change Lexed.token .dedent { lx with
      rest := _, atLineStart := false, indents := lx.kept
      pendingDedents := pendingOf lx.closed } = _ at hcall
    cases hcall
    refine ⟨rfl, ?_⟩
    unfold Lexer.due Token.net
    simp only [reduceCtorEq, if_false, if_true, hready.2]
    omega

/-- A bracket stays open where only white space and comments are left. Kind: L -/
theorem Effect.keeps_flow {t : Token} (h : Effect lx t lx') (hok : lx.Ok) (hahead : lx.ahead = [])
    (hopen : lx.flowContext ≠ []) : lx'.ahead = [] ∧ lx'.flowContext ≠ [] := by
  have hflow : lx.flowDepth ≠ 0 := by
    rw [hok.flow]
    exact Int.natCast_ne_zero.mpr (List.length_pos_iff_ne_nil.mpr hopen).ne'
  have hgoes : ¬ lx.GoesOn := by
    rintro ⟨c, s, hs, -⟩
    rw [hahead] at hs
    cases hs
  cases h with
  | pendingDash | pendingDedent => exact ⟨hahead, hopen⟩
  | dedentAtEnd | eofAtEnd | eofInLine => exact ⟨rfl, hopen⟩
  | indent _ hzero _ => exact absurd hzero hflow
  | close _ _ hzero _ _ _ => exact absurd hzero hflow
  | openFlow _ hgo _ => exact absurd (hgo hflow) hgoes
  | closeFlow _ _ _ hread _ =>
      have hc := hread hflow
      rw [hahead] at hc
      cases hc
  | plain _ _ hgo _ => exact absurd (hgo hflow) hgoes
/-- A bracket that is open at the end of the text stays open. Kind: L -/
theorem Returns.keeps_flow {us : List Token} (h : Returns signed lx us lx') (hok : lx.Ok)
    (hahead : lx.ahead = []) (hopen : lx.flowContext ≠ []) : lx'.flowContext ≠ [] := by
  induction h with
  | nil => exact hopen
  | cons hcall _ ih =>
      have heffect := hok.effect hcall
      obtain ⟨hahead₁, hopen₁⟩ := heffect.keeps_flow hok hahead hopen
      exact ih (heffect.ok hok) hahead₁ hopen₁

/-- A closing bracket that is next is read. Kind: L -/
theorem Effect.of_bracket {t : Token} {o c : UInt8} {context rest : Bytes}
    (h : Effect lx t lx') (hok : lx.Ok)
    (hready : lx.Ready) (hcontext : lx.flowContext = o :: context) (hahead : lx.ahead = c :: rest)
    (hc : c = ch '}' ∨ c = ch ']') : lx'.flowContext = context ∧ lx'.rest = rest := by
  have hflow : lx.flowDepth ≠ 0 := by
    rw [hok.flow, hcontext, List.length_cons]
    exact Int.natCast_ne_zero.mpr (Nat.succ_ne_zero _)
  have hgoes : ¬ lx.GoesOn := by
    rintro ⟨d, s, hs, hbrace, hbracket⟩
    rw [hahead] at hs
    obtain ⟨rfl, -⟩ := List.cons.inj hs
    rcases hc with hc | hc
    · exact hbrace hc
    · exact hbracket hc
  have hnotEnd : lx.ahead ≠ [] := by
    rw [hahead]
    exact List.cons_ne_nil _ _
  cases h with
  | pendingDash hdash => exact absurd (hready.1.symm.trans hdash) (by decide)
  | pendingDedent _ hpending => exact absurd hready.2 (Nat.ne_of_gt hpending)
  | dedentAtEnd _ hend _ => exact absurd hend hnotEnd
  | eofAtEnd _ hend _ => exact absurd hend hnotEnd
  | eofInLine _ _ _ hblank =>
      refine absurd ?_ hnotEnd
      unfold Lexer.ahead
      rw [← ahead_dropWhile, hblank]
      rfl
  | indent _ hzero _ => exact absurd hzero hflow
  | close _ _ hzero _ _ _ => exact absurd hzero hflow
  | openFlow _ hgo _ => exact absurd (hgo hflow) hgoes
  | closeFlow _ hcontext' _ hread _ =>
      rw [hcontext] at hcontext'
      have hrest := hread hflow
      rw [hahead] at hrest
      exact ⟨(List.cons.inj hcontext').2.symm, (List.cons.inj hrest).2.symm⟩
  | plain _ _ hgo _ => exact absurd (hgo hflow) hgoes

/-- An `Indent` beyond what is owed back leaves the balance positive. Kind: L -/
theorem Returns.due_lt {us : List Token} {lx₁ : Lexer} (hrun : Returns signed (.init s) ts lx)
    (hlt : lx.due < net ts) (hrest : Returns signed lx us lx₁) : 0 < net (ts ++ us) := by
  obtain ⟨hok, hle⟩ := hrest.due_le (due_le_net hrun).1
  have hnonneg := hok.due_nonneg
  rw [net_append]
  linarith

/-- **Where the tokens are balanced, all is fine.** Kind: P -/
theorem fine_of_balanced (hraise : NoRaise signed (.init s)) (hbalanced : Balanced signed s)
    (hrun : Returns signed (.init s) ts lx) (hts : .eof ∉ ts) (hready : lx.Ready) : lx.Fine := by
  obtain ⟨hok, hle⟩ := due_le_net hrun
  -- the run goes on to the first `EOF`
  have hgoes : ∀ {us : List Token} {lx₁ : Lexer}, Returns signed lx us lx₁ → .eof ∉ us →
      ∃ vs lx₂, Returns signed lx₁ vs lx₂ ∧ net (ts ++ (us ++ vs)) = 0 := by
    intro us lx₁ hus hnot
    have hok₁ := (hus.due_le hok).1
    obtain ⟨vs, lx₂, hvs, hnot', lx₃, hend⟩ := NoRaise.ends hok₁
      (fun vs lx₂ hvs => hraise (ts ++ (us ++ vs)) lx₂ (hrun.append (hus.append hvs)))
    refine ⟨vs, lx₂, hvs, (net_zero_iff _).mpr ?_⟩
    refine hbalanced.settled _ lx₃ ((hrun.append (hus.append hvs)).append (.cons hend .nil)) ?_
    simp only [List.mem_append, not_or]
    exact ⟨hts, hnot, hnot'⟩
  constructor
  · intro hline hflow hrest
    by_contra hmany
    rw [not_le] at hmany
    obtain ⟨t, lx₁, hcall⟩ := hraise ts lx hrun
    obtain ⟨rfl, hlt⟩ := Lexer.call_closed hcall hok hready hline hflow hrest hmany
    obtain ⟨vs, lx₂, hvs, hzero⟩ := hgoes (.cons hcall .nil) (by decide)
    have hlost := (hrun.append (.cons hcall .nil)).due_lt
      (by rw [net_append, net_singleton]; linarith) hvs
    rw [List.append_assoc, hzero] at hlost
    exact lt_irrefl 0 hlost
  · intro hline hrest hblank
    have hcall := @Lexer.call_inLine signed lx hready hline hrest hblank
    have hzero := (net_zero_iff ts).mpr
      (hbalanced.settled ts _ (hrun.append (.cons hcall .nil)) hts)
    have hpos := hok.levels_pos
    unfold Lexer.due at hle
    omega
  · intro hahead
    by_contra hopen
    obtain ⟨vs, lx₂, hvs, hzero⟩ := hgoes .nil List.not_mem_nil
    have hopen₂ := hvs.keeps_flow hok hahead hopen
    obtain ⟨hok₂, hle₂⟩ := due_le_net (hrun.append hvs)
    rw [List.nil_append] at hzero
    have hpos := hok₂.levels_pos
    have hflow := List.length_pos_iff_ne_nil.mpr hopen₂
    unfold Lexer.due at hle₂
    omega
  · intro o context c rest hcontext hahead hc
    obtain ⟨t, lx₁, hcall⟩ := hraise ts lx hrun
    obtain ⟨hcontext₁, hrest₁⟩ := (hok.effect hcall).of_bracket hok hready hcontext hahead hc
    obtain ⟨pre, hpre⟩ := ahead_suffix false lx.rest
    refine hbalanced.brackets ts lx lx₁ t o c pre hrun hts hcall ?_ ?_
    · rw [hcontext, hcontext₁]
    · rw [← hpre, hrest₁]
      exact congrArg (pre ++ ·) hahead

end

/-- **The tokens are balanced if and only if each call is fine**: that this is enough holds of every
text, and that it is needed of every text on which no call raises. Kind: P -/
theorem balanced_iff (signed : Bool) (s : Bytes) :
    ((∀ ts lx, Returns signed (.init s) ts lx → .eof ∉ ts → lx.Ready →
      lx.Fine) → Balanced signed s) ∧
    (NoRaise signed (.init s) → Balanced signed s →
      ∀ ts lx, Returns signed (.init s) ts lx → .eof ∉ ts → lx.Ready → lx.Fine) :=
  ⟨balanced_of_fine, fun hraise hbalanced _ _ => fine_of_balanced hraise hbalanced⟩

/-- A call that raises nothing, in front of calls that raise nothing. Kind: L -/
theorem NoRaise.step {lx lx' : Lexer} {t : Token} (hcall : lx.call signed = .token t lx')
    (h : NoRaise signed lx') : NoRaise signed lx := by
  intro ts lx₂ hrun
  cases hrun with
  | nil => exact ⟨t, lx', hcall⟩
  | cons hcall' hs =>
      rw [hcall] at hcall'
      cases hcall'
      exact h _ _ hs

/-- Where a call returns the end and changes nothing, no call raises. Kind: L -/
theorem NoRaise.at_end {lx : Lexer}
    (hcall : lx.call signed = .token .eof lx) : NoRaise signed lx := by
  intro ts lx' hrun
  induction hrun with
  | nil => exact ⟨_, _, hcall⟩
  | cons hcall' _ ih =>
      rw [hcall] at hcall'
      cases hcall'
      exact ih hcall

/-- A nested block whose last line ends in a blank. -/
def blankAtEnd : Bytes := text "a:\n  b: c "

/-- **`EOF` is returned in front of a `Dedent`** where the last line ends in a blank. Kind: L -/
theorem eof_in_block : NoRaise true (.init blankAtEnd) ∧ ¬ Balanced true blankAtEnd := by
  have hrun : Returns true (.init blankAtEnd) ([.string (text "a"), .colon, .newline, .indent,
      .string (text "b"), .colon, .string (text "c")] ++ [.eof])
        ⟨[], [2, 0], false, 0, 0, [], false⟩ :=
    .cons rfl (.cons rfl (.cons rfl
      (.cons rfl (.cons rfl (.cons rfl (.cons rfl (.cons rfl .nil)))))))
  constructor
  · exact .step rfl (.step rfl
      (.step rfl (.step rfl (.step rfl (.step rfl (.step rfl (.step rfl (.step rfl
      (.at_end rfl)))))))))
  · intro hbalanced
    have hsettled := hbalanced.settled _ _ hrun (by decide)
    exact absurd hsettled (by decide)

end CxyCompiler.Stdlib.Yaml
