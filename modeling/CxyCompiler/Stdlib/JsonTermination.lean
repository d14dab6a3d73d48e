import CxyCompiler.Stdlib.JsonShape
import Mathlib.Logic.Function.Iterate

/-!
# Where reading JSON ends (`stdlib/json.cxy`)

The lexer leaves a character that begins no token where it is, so that a loop has to stop at an
invalid token by itself. All loops do but the one that skips a value.

* `Behind` — a place in the text that the lexer comes to.
* `parse_ends` — **a value is parsed or there is an exception, whatever the text is**.
* `LeadsTo` — the texts behind which a value of a type has a value that is skipped, or read as base
  64.
* `readType_ends` — reading ends where what a text leads to does; `readType_stuck` — **it does not
  behind any text that leads to a skipped value**.
* `ends_iff` — for which types reading ends on every text; `skip_stuck` is one for which it does
  not.
-/

namespace CxyCompiler.Stdlib.Json

variable {S : Type} {signed : Bool}

/-! ## How far the lexer gets -/

theorem scanKeyword_length (token : JsonToken) (keyword : Bytes) :
    ∀ s : Bytes, (scanKeyword token keyword s).2.length ≤ s.length := by
  induction keyword with
  | nil => exact fun s => le_refl _
  | cons e keyword ih =>
      intro s
      rcases s with _ | ⟨c, s⟩
      · exact le_refl _
      · unfold scanKeyword
        by_cases hc : c = e
        · rw [if_pos hc]
          exact le_trans (ih s) (Nat.le_succ _)
        · rw [if_neg hc]
          exact Nat.le_succ _

theorem spanDigits_length (s : Bytes) : (spanDigits s).2.length ≤ s.length :=
  (List.dropWhile_suffix _).length_le

theorem scanExponent_length (acc s : Bytes) : (scanExponent acc s).2.length ≤ s.length := by
  by_cases hs : ∀ e ∈ s.head?, e ≠ ch 'e' ∧ e ≠ ch 'E'
  · rw [scanExponent_none hs]
  · rcases s with _ | ⟨e, s⟩
    · exact le_refl _
    · have he : e = ch 'e' ∨ e = ch 'E' := by
        by_contra hne
        rw [not_or] at hne
        refine hs ?_
        rintro d ⟨⟩
        exact hne
      have hsign : (splitSign s).2.length ≤ s.length := by
        conv_rhs => rw [(splitSign_spec s).1]
        rw [List.length_append]
        exact Nat.le_add_left _ _
      rw [scanExponent_exp he, List.length_cons]
      by_cases hdigit : (splitSign s).2.head?.any isDigit = true
      · rw [if_pos hdigit]
        exact le_trans (spanDigits_length _) (le_trans hsign (Nat.le_succ _))
      · rw [if_neg hdigit]
        exact le_trans hsign (Nat.le_succ _)

theorem scanFraction_length (acc s : Bytes) : (scanFraction acc s).2.length ≤ s.length := by
  by_cases hs : s.head? = some (ch '.')
  · obtain ⟨s, rfl⟩ := List.head?_eq_some_iff.mp hs
    rw [scanFraction_dot, List.length_cons]
    by_cases hdigit : s.head?.any isDigit = true
    · rw [if_pos hdigit]
      exact le_trans (scanExponent_length _ _) (le_trans (spanDigits_length s) (Nat.le_succ _))
    · rw [if_neg hdigit]
      exact Nat.le_succ _
  · rw [scanFraction_none hs]
    exact scanExponent_length acc s

theorem scanInteger_length (sign s : Bytes) : (scanInteger sign s).2.length ≤ s.length := by
  rcases s with _ | ⟨c, s⟩
  · exact le_refl _
  · unfold scanInteger
    dsimp only
    split_ifs
    · exact le_refl _
    · exact le_trans (scanFraction_length _ _) (Nat.le_succ _)
    · exact le_trans (scanFraction_length _ _) (spanDigits_length _)

/-- A number does not lengthen the text. Kind: L -/
theorem scanNumber_length (s : Bytes) : (scanNumber s).2.length ≤ s.length := by
  by_cases hs : s.head? = some (ch '-')
  · obtain ⟨s, rfl⟩ := List.head?_eq_some_iff.mp hs
    exact le_trans (scanInteger_length _ s) (Nat.le_succ _)
  · rw [scanNumber_eq hs]
    exact scanInteger_length [] s

theorem afterBadDigit_length (s : Bytes) : (afterBadDigit s).length ≤ s.length := by
  unfold afterBadDigit
  exact ((List.drop_suffix _ _).trans (List.dropWhile_suffix _)).length_le

/-- A string does not lengthen the text. Kind: L -/
theorem scanString_length (acc s : Bytes) : (scanString signed acc s).2.length ≤ s.length := by
  fun_induction scanString signed acc s with
  | case1 => exact le_refl _
  | case2 => exact Nat.le_succ _
  | case3 => exact Nat.zero_le _
  | case4 _ _ _ _ _ _ ih => exact le_trans ih (by simp only [List.length_cons]; omega)
  | case5 _ _ _ _ _ _ _ _ _ _ ih => exact le_trans ih (by simp only [List.length_cons]; omega)
  | case6 => exact le_trans (afterBadDigit_length _) (by simp only [List.length_cons]; omega)
  | case7 => exact le_trans (afterBadDigit_length _) (by simp only [List.length_cons]; omega)
  | case8 => simp only [List.length_cons]; omega
  | case9 _ _ _ _ _ ih => exact le_trans ih (Nat.le_succ _)

/-- **The lexer does not go back.** Kind: L -/
theorem nextToken_length (s : Bytes) : (nextToken signed s).2.length ≤ s.length := by
  have hskip : (skipWhitespace s).length ≤ s.length := (List.dropWhile_suffix _).length_le
  rcases hbody : skipWhitespace s with _ | ⟨c, body⟩
  · unfold nextToken
    rw [hbody]
    exact Nat.zero_le _
  · rw [hbody] at hskip
    have hbodyLen : body.length ≤ s.length := le_trans (Nat.le_succ _) hskip
    obtain ⟨_, -, heq⟩ | ⟨-, heq⟩ | ⟨_, word, -, heq⟩ | heq | heq := nextToken_cases signed hbody
    · rw [heq]
      exact hbodyLen
    · rw [heq]
      exact le_trans (scanString_length _ _) hbodyLen
    · rw [heq]
      exact le_trans (scanKeyword_length _ word _) hskip
    · rw [heq]
      exact le_trans (scanNumber_length _) hskip
    · rw [heq]
      exact hskip

/-- **A token that is read takes at least a character.** Kind: L -/
theorem nextToken_lt {s rest : Bytes} {tok : JsonToken} (h : nextToken signed s = (tok, rest))
    (hinvalid : tok ≠ .invalid) (heof : tok ≠ .eof) : rest.length < s.length := by
  obtain ⟨ws, sp, -, hsp, rfl⟩ := nextToken_spells h hinvalid heof
  have hpos : 0 < sp.length := by
    rw [List.length_pos_iff_ne_nil]
    rintro rfl
    cases tok with
    | string v =>
        obtain ⟨chars, -, hnil⟩ := hsp
        cases hnil
    | number v =>
        obtain ⟨hv, hnil⟩ := hsp
        obtain ⟨c, tail, heq, -⟩ := hv.head []
        rw [← hnil] at heq
        cases heq
    | true | false | null | leftBrace | rightBrace | leftBracket | rightBracket | colon | comma =>
      cases hsp
    | eof => exact hsp
    | invalid => exact hsp
  simp only [List.length_append]
  omega

/-! ## Places the lexer comes to -/

/-- **The lexer comes from one place of the text to another one**, up to white space. -/
def Behind (signed : Bool) (s s' : Bytes) : Prop :=
  s'.length ≤ s.length ∧ ∃ n, nextToken signed s' = (advance signed)^[n] (nextToken signed s)

theorem Behind.refl (s : Bytes) : Behind signed s s := ⟨le_refl _, 0, rfl⟩

/-- Behind what is behind. Kind: L -/
theorem Behind.trans {s s' s'' : Bytes} (h : Behind signed s s') (h' : Behind signed s' s'') :
    Behind signed s s'' := by
  obtain ⟨hlen, n, hn⟩ := h
  obtain ⟨hlen', m, hm⟩ := h'
  refine ⟨le_trans hlen' hlen, m + n, ?_⟩
  rw [Function.iterate_add_apply, ← hn, hm]

/-- What is left behind a token. Kind: L -/
theorem behind_next {s rest : Bytes} {tok : JsonToken} (h : nextToken signed s = (tok, rest)) :
    Behind signed s rest := by
  have hlen := @nextToken_length signed s
  rw [h] at hlen
  refine ⟨hlen, 1, ?_⟩
  rw [h]
  rfl

/-- After some tokens the text is behind. Kind: L -/
theorem behind_advance (s : Bytes) (n : ℕ) : ∃ s', Behind signed s s' ∧
    (advance signed)^[n] (nextToken signed s) = nextToken signed s' := by
  induction n with
  | zero => exact ⟨s, Behind.refl s, rfl⟩
  | succ n ih =>
      obtain ⟨s', hs', heq⟩ := ih
      rcases hnext : nextToken signed s' with ⟨tok, rest⟩
      refine ⟨rest, hs'.trans (behind_next hnext), ?_⟩
      rw [Function.iterate_succ_apply', heq, hnext]
      rfl

/-- What is in front of the value of an item. Kind: L -/
theorem behind_lead {k : Bracket} {lead : Bytes} (hlead : IsLead k lead) (s : Bytes) :
    Behind signed (lead ++ s) s := by
  have hlen : s.length ≤ (lead ++ s).length := by
    rw [List.length_append]
    exact Nat.le_add_left _ _
  cases k with
  | square => exact ⟨hlen, 0, (nextToken_append hlead s).symm⟩
  | curly =>
      obtain ⟨ws, key, ws', ws'', hws, hkey, hws', hws'', rfl⟩ := hlead
      obtain ⟨v, hv⟩ := (isString_iff signed key).mp hkey
      have hstring := nextToken_mark hv hws (fun _ h => by
        cases h) (ws' ++ (text ":" ++ (ws'' ++ s)))
      have hcolon := @nextToken_mark signed .colon (text ":") _ rfl hws' (fun _ h => by
        cases h) (ws'' ++ s)
      refine ⟨hlen, 2, ?_⟩
      simp only [List.append_assoc, Function.iterate_succ_apply, Function.iterate_zero, id]
      rw [hstring]
      unfold advance
      dsimp only
      rw [hcolon, nextToken_append hws'']

/-! ## Values are parsed, or there is an exception -/

/-- A call that starts at a place of the text settles: behind another place, or with an
exception. -/
def SettlesAt (signed : Bool) (s : Bytes) (f : ℕ → Reading Cursor) : Prop :=
  (∃ s', Behind signed s s' ∧ Settles f (.done (nextToken signed s'))) ∨ ∃ msg,
    Settles f (.raised msg)

theorem settles_const {α : Type} (r : α) : Settles (fun _ => r) r := ⟨0, fun _ _ => rfl⟩

/-- A function of what settles settles. Kind: L -/
theorem Settles.map {α β : Type} {f : ℕ → α} {r : α} (h : Settles f r) (g : α → β) :
    Settles (fun fuel => g (f fuel)) (g r) := by
  obtain ⟨n, hn⟩ := h
  exact ⟨n, fun fuel hfuel => congrArg g (hn fuel hfuel)⟩

/-- One round more does not matter. Kind: L -/
theorem Settles.of_succ {α : Type} {f : ℕ → α} {r : α} (h : Settles (fun fuel => f (fuel + 1)) r) :
    Settles f r := by
  obtain ⟨n, hn⟩ := h
  refine ⟨n + 1, fun fuel hfuel => ?_⟩
  obtain ⟨fuel, rfl⟩ := Nat.exists_eq_add_of_le' (le_trans (Nat.le_add_left 1 n) hfuel)
  exact hn fuel (Nat.le_of_add_le_add_right hfuel)

/-- A call that goes on with the result of another one. Kind: L -/
theorem Settles.outcome {α β : Type} {f : ℕ → Outcome α} {g : ℕ → α → Outcome β} {a : α}
    {r : Outcome β}
    (h : Settles f (.done a)) (hg : Settles (fun fuel => g fuel a) r) :
    Settles (fun fuel => (f fuel).bind (g fuel)) r := by
  obtain ⟨n, hn⟩ := h
  obtain ⟨m, hm⟩ := hg
  refine ⟨max n m, fun fuel hfuel => ?_⟩
  rw [max_le_iff] at hfuel
  dsimp only
  rw [hn fuel hfuel.1]
  exact hm fuel hfuel.2

/-- An exception ends the call that waits for the result. Kind: L -/
theorem Settles.outcome_raised {α β : Type} {f : ℕ → Outcome α} {g : ℕ → α → Outcome β}
    {msg : String}
    (h : Settles f (.raised msg)) : Settles (fun fuel => (f fuel).bind (g fuel)) (.raised msg) := by
  obtain ⟨n, hn⟩ := h
  refine ⟨n, fun fuel hfuel => ?_⟩
  dsimp only
  rw [hn fuel hfuel]
  rfl

/-- A sequence settles when its parts do. Kind: L -/
theorem Settles.bind {α β : Type} {f : ℕ → Reading α} {g : ℕ → α → Reading β} {a : α}
    {r : Reading β}
    (h : Settles f (.done a)) (hg : Settles (fun fuel => g fuel a) r) :
    Settles (fun fuel => (f fuel).bind (g fuel)) r := by
  obtain ⟨n, hn⟩ := h
  obtain ⟨m, hm⟩ := hg
  refine ⟨max n m, fun fuel hfuel => ?_⟩
  rw [max_le_iff] at hfuel
  dsimp only
  rw [hn fuel hfuel.1]
  exact hm fuel hfuel.2

/-- A first part that settles in an error settles the whole. Kind: L -/
theorem Settles.bind_raised {α β : Type} {f : ℕ → Reading α} {g : ℕ → α → Reading β} {msg : String}
    (h : Settles f (.raised msg)) : Settles (fun fuel => (f fuel).bind (g fuel)) (.raised msg) := by
  obtain ⟨n, hn⟩ := h
  refine ⟨n, fun fuel hfuel => ?_⟩
  dsimp only
  rw [hn fuel hfuel]
  rfl

section

variable {s s' : Bytes} {f : ℕ → Reading Cursor}

theorem SettlesAt.raised (s : Bytes) (msg : String) : SettlesAt signed s fun _ => .raised msg :=
  Or.inr ⟨msg, settles_const _⟩

/-- What leaves a text behind settles. Kind: L -/
theorem SettlesAt.done (h : Behind signed s s') : SettlesAt signed s fun _ =>
    .done (nextToken signed s') :=
  Or.inl ⟨s', h, settles_const _⟩

/-- A call that goes on where another one has come to. Kind: L -/
theorem SettlesAt.of_behind (h : Behind signed s s')
    (hf : SettlesAt signed s' f) : SettlesAt signed s f := by
  rcases hf with ⟨s'', hs'', hf⟩ | hf
  · exact Or.inl ⟨s'', h.trans hs'', hf⟩
  · exact Or.inr hf

theorem SettlesAt.of_succ (h : SettlesAt signed s fun fuel =>
    f (fuel + 1)) : SettlesAt signed s f := by
  rcases h with ⟨s', hs', h⟩ | ⟨msg, h⟩
  · exact Or.inl ⟨s', hs', h.of_succ⟩
  · exact Or.inr ⟨msg, h.of_succ⟩

/-- A call that goes on with the place that another one comes to. Kind: L -/
theorem SettlesAt.bind {g : ℕ → Cursor → Reading Cursor} (h : SettlesAt signed s f)
    (hg : ∀ s', Behind signed s s' → SettlesAt signed s' fun fuel => g fuel (nextToken signed s')) :
    SettlesAt signed s fun fuel => (f fuel).bind (g fuel) := by
  rcases h with ⟨s', hs', hf⟩ | ⟨msg, hf⟩
  · rcases hg s' hs' with ⟨s'', hs'', hg⟩ | ⟨msg, hg⟩
    · exact Or.inl ⟨s'', hs'.trans hs'', hf.bind hg⟩
    · exact Or.inr ⟨msg, hf.bind hg⟩
  · exact Or.inr ⟨msg, hf.bind_raised⟩

end

/-- A parser call that settles. -/
def ParsedAt (signed : Bool) (s : Bytes) (f : ℕ → Outcome (Value × Cursor)) : Prop :=
  (∃ v s', Behind signed s s' ∧ Settles f (.done (v, nextToken signed s'))) ∨ ∃ msg,
    Settles f (.raised msg)

/-- A call that goes on where another one has come to. Kind: L -/
theorem ParsedAt.of_behind {s s' : Bytes} {f : ℕ → Outcome (Value × Cursor)}
    (h : Behind signed s s')
    (hf : ParsedAt signed s' f) : ParsedAt signed s f := by
  rcases hf with ⟨v, s'', hs'', hf⟩ | hf
  · exact Or.inl ⟨v, s'', h.trans hs'', hf⟩
  · exact Or.inr hf

theorem ParsedAt.of_succ {s : Bytes} {f : ℕ → Outcome (Value × Cursor)}
    (h : ParsedAt signed s fun fuel => f (fuel + 1)) : ParsedAt signed s f := by
  rcases h with ⟨v, s', hs', h⟩ | ⟨msg, h⟩
  · exact Or.inl ⟨v, s', hs', h.of_succ⟩
  · exact Or.inr ⟨msg, h.of_succ⟩

/-- The loop over items, where values are parsed. Kind: L -/
theorem parseInner_ends {n : ℕ}
    (hvalue : ∀ s : Bytes, s.length < n → ∀ depth, ParsedAt signed s fun fuel =>
      parseValue signed fuel depth (nextToken signed s)) :
    ∀ (m : ℕ) (s : Bytes), s.length < m → s.length < n → ∀ (depth : ℕ) (k : Bracket) (acc : Read k),
      ParsedAt signed s fun fuel => parseInner signed fuel depth k acc (nextToken signed s) := by
  intro m
  induction m with
  | zero => intro s hm; exact absurd hm (Nat.not_lt_zero _)
  | succ m ih =>
      intro s hm hn depth k acc
      apply ParsedAt.of_succ
      obtain ⟨msg, hraised⟩ | ⟨lead, s₁, whole, next, msg, hlead, rfl, hround⟩ :=
        parseInner_round signed depth k acc s
      · simp only [hraised]
        exact Or.inr ⟨msg, settles_const _⟩
      · simp only [hround]
        have hbehind := @behind_lead signed _ _ hlead s₁
        obtain ⟨v, s₂, hs₂, hv⟩ | ⟨msg', hv⟩ := hvalue s₁ (lt_of_le_of_lt hbehind.1 hn) depth
        · rcases hnext : nextToken signed s₂ with ⟨tok, rest⟩
          rw [hnext] at hv
          have hrest : Behind signed (lead ++ s₁) rest :=
            (hbehind.trans hs₂).trans (behind_next hnext)
          by_cases hclose : tok = k.closing
          · refine Or.inl ⟨whole v, rest, hrest, hv.outcome ?_⟩
            simp only [if_pos hclose]
            exact settles_const _
          · by_cases hcomma : tok = .comma
            · have hlt : rest.length < s₂.length := nextToken_lt hnext (by rw [hcomma]; decide)
                (by rw [hcomma]; decide)
              have hlen : s₂.length ≤ (lead ++ s₁).length := (hbehind.trans hs₂).1
              have hloop := (ih rest (by omega) (by omega) depth k (next v)).of_behind hrest
              rcases hloop with ⟨v', s', hs', hloop⟩ | ⟨msg', hloop⟩
              · refine Or.inl ⟨v', s', hs', hv.outcome ?_⟩
                simpa only [if_neg hclose, if_pos hcomma] using hloop
              · refine Or.inr ⟨msg', hv.outcome ?_⟩
                simpa only [if_neg hclose, if_pos hcomma] using hloop
            · refine Or.inr ⟨msg, hv.outcome ?_⟩
              simp only [if_neg hclose, if_neg hcomma]
              exact settles_const _
        · exact Or.inr ⟨msg', hv.outcome_raised⟩

/-- A token that begins no value raises. Kind: L -/
theorem parseValue_raised {tok : JsonToken} (hscalar : ¬ tok.IsScalar)
    (hopen : ∀ k : Bracket, tok ≠ k.opening)
    (depth : ℕ) (s : Bytes) : ∃ msg, ∀ fuel,
      parseValue signed (fuel + 1) depth (tok, s) = .raised msg := by
  by_cases hdepth : maxDepth ≤ depth
  · exact ⟨_, fun fuel => parseValue_deep hdepth _⟩
  · unfold parseValue
    simp only [if_neg hdepth]
    cases tok with
    | string _ | number _ | true | false | null => exact absurd trivial hscalar
    | leftBracket => exact absurd rfl (hopen .square)
    | leftBrace => exact absurd rfl (hopen .curly)
    | rightBrace | rightBracket | colon | comma | eof | invalid => exact ⟨_, fun _ => rfl⟩

/-- **A value is parsed or there is an exception, whatever the text is.** Kind: P -/
theorem parse_ends : ∀ (n : ℕ) (s : Bytes), s.length < n → ∀ depth, ParsedAt signed s fun fuel =>
    parseValue signed fuel depth (nextToken signed s) := by
  intro n
  induction n with
  | zero => intro s h; exact absurd h (Nat.not_lt_zero _)
  | succ n ih =>
      intro s hlen depth
      apply ParsedAt.of_succ
      by_cases hdepth : maxDepth ≤ depth
      · simp only [parseValue_deep hdepth]
        exact Or.inr ⟨_, settles_const _⟩
      · rcases hnext : nextToken signed s with ⟨tok, rest⟩
        by_cases hscalar : tok.IsScalar
        · obtain ⟨v, hv⟩ := parseValue_scalar signed hdepth hscalar rest
          simp only [hv]
          exact Or.inl ⟨v, rest, behind_next hnext, settles_const _⟩
        · by_cases hopen : ∃ k : Bracket, tok = k.opening
          · obtain ⟨k, rfl⟩ := hopen
            have hrest : rest.length < s.length := nextToken_lt hnext
              (by cases k <;> decide) (by cases k <;> decide)
            obtain ⟨hclose, v, hv⟩ | ⟨-, hinner⟩ := parseValue_opening signed hdepth k rest
            · rcases hnext' : nextToken signed rest with ⟨tok, rest'⟩
              rw [hnext'] at hv
              simp only [hv]
              exact Or.inl ⟨v, rest',
                (behind_next hnext).trans (behind_next hnext'), settles_const _⟩
            · simp only [hinner]
              exact (parseInner_ends ih n rest (by omega) (by omega) (depth + 1) k
                (Read.empty k)).of_behind
                (behind_next hnext)
          · obtain ⟨msg, hraised⟩ := @parseValue_raised signed _ hscalar
              (fun k hk => hopen ⟨k, hk⟩) depth rest
            simp only [hraised]
            exact Or.inr ⟨msg, settles_const _⟩

/-! ## What is done with the value of a key -/

/-- What is done with the value of a key, if it is not read into the type of the field. -/
inductive Op
  | skip
  | decode

def StructInfo.op (info : StructInfo S) (key : Bytes) : Option Op :=
  match info.find key with
  | some f => if f.ignore then some .skip else if f.isB64 then some .decode else none
  | none => if info.partialAllowed then some .skip else none

def Op.run (signed : Bool) (skip : Cursor → Outcome Cursor) (op : Op)
    (cur : Cursor) : Reading Cursor :=
  match op with
  | .skip => (skip cur).reading
  | .decode => (expectString signed cur).reading.bind fun r => decodeString signed r.1 r.2

/-- **A value of a key is skipped or decoded, read into the type of the field, or refused.**
Kind: L -/
theorem readField_cases (signed : Bool) (info : StructInfo S) (key : Bytes) :
    (∃ op, info.op key = some op ∧ ∀ read skip cur,
      readField signed read skip info key cur = op.run signed skip cur) ∨
    (∃ f, info.op key = none ∧ info.find key = some f ∧ ∀ read skip cur,
      readField signed read skip info key cur =
        if (f.optional && cur.1 = .null) = true then .done (advance signed cur)
          else read f.type cur) ∨
    (info.op key = none ∧ info.find key = none ∧ ∃ msg, ∀ read skip cur,
      readField signed read skip info key cur = .raised msg) := by
  unfold StructInfo.op readField
  rcases info.find key with _ | f
  · dsimp only
    by_cases hpartial : info.partialAllowed = true
    · simp only [if_pos hpartial]
      exact Or.inl ⟨.skip, rfl, fun _ _ _ => rfl⟩
    · exact Or.inr (Or.inr ⟨if_neg hpartial, rfl, _, fun _ _ _ => if_neg hpartial⟩)
  · dsimp only
    by_cases hignore : f.ignore = true
    · simp only [if_pos hignore]
      exact Or.inl ⟨.skip, rfl, fun _ _ _ => rfl⟩
    · by_cases hb64 : f.isB64 = true
      · simp only [if_neg hignore, if_pos hb64]
        exact Or.inl ⟨.decode, rfl, fun _ _ _ => rfl⟩
      · refine Or.inr (Or.inl ⟨f, (if_neg hignore).trans (if_neg hb64), rfl, fun _ _ _ => ?_⟩)
        rw [if_neg hignore, if_neg hb64]

/-! ## Texts that lead to such a value -/

/-- **A text of a type, up to a value that is skipped or decoded.** -/
inductive LeadsTo (signed : Bool) (structs : S → StructInfo S) (op : Op) : Shape S → Bytes → Prop
  | key {name : S} {key q : Bytes} (hop : (structs name).op key = some op)
      (hq : Spells signed (.string key) q) :
      LeadsTo signed structs op (.struct name) (Bracket.curly.openText ++ (q ++ text ":"))
  | field {name : S} {key q : Bytes} {f : Field S} {l : Bytes} (hop : (structs name).op key = none)
      (hfind : (structs name).find key = some f) (hq : Spells signed (.string key) q)
      (hl : LeadsTo signed structs op f.type l) :
      LeadsTo signed structs op (.struct name) (Bracket.curly.openText ++ (q ++ (text ":" ++ l)))
  | option {t : Shape S} {l : Bytes} (hl : LeadsTo signed structs op t l) :
      LeadsTo signed structs op (.option t) l
  | vector {t : Shape S} {l : Bytes} (hl : LeadsTo signed structs op t l) :
      LeadsTo signed structs op (.vector t) (Bracket.square.openText ++ l)

/-- What is skipped or decoded behind a text is done with in every place that a text may lead to. -/
def Good (signed : Bool) (structs : S → StructInfo S) (t : Shape S) (s : Bytes) : Prop :=
  ∀ op l, LeadsTo signed structs op t l → ∀ s',
    Behind signed s s' → l.length + s'.length ≤ s.length →
    SettlesAt signed s' fun fuel => op.run signed (skipValue signed fuel) (nextToken signed s')

/-! ## Reading ends -/

section

variable {structs : S → StructInfo S}

/-- The token that is next is the expected one, or there is an exception. Kind: L -/
theorem expectToken_bind {tok tok' : JsonToken} {s rest : Bytes}
    (h : nextToken signed s = (tok', rest))
    {g : ℕ → Cursor → Reading Cursor}
    (hg : tok' = tok → SettlesAt signed rest fun fuel => g fuel (nextToken signed rest)) :
    SettlesAt signed s fun fuel =>
      (expectToken signed tok (nextToken signed s)).reading.bind (g fuel) := by
  unfold expectToken
  rw [h]
  dsimp only
  by_cases htok : tok' = tok
  · rw [if_pos htok]
    exact (hg htok).of_behind (behind_next h)
  · rw [if_neg htok]
    exact SettlesAt.raised s _

/-- The loop over the items of a vector. Kind: L -/
theorem readElements_ends {t : Shape S} {n : ℕ}
    (hread : ∀ s : Bytes, s.length ≤ n → Good signed structs t s → SettlesAt signed s fun fuel =>
      readType signed structs fuel t (nextToken signed s)) :
    ∀ (m : ℕ) (s : Bytes) (empty : Bool), 2 * s.length + empty.toNat < m → s.length ≤ n →
      (∀ s', Behind signed s s' → Good signed structs t s') →
      SettlesAt signed s fun fuel =>
        readElements signed structs fuel t empty (nextToken signed s) := by
  intro m
  induction m with
  | zero => intro s empty hm; exact absurd hm (Nat.not_lt_zero _)
  | succ m ih =>
      intro s empty hm hn hgood
      apply SettlesAt.of_succ
      rcases hnext : nextToken signed s with ⟨tok, rest⟩
      have hrest := behind_next hnext
      unfold readElements
      by_cases hclose : tok = .rightBracket
      · simp only [if_pos hclose]
        exact SettlesAt.done hrest
      · simp only [if_neg hclose]
        -- the rest of the round, from where the item is
        have hround : ∀ s₁, Behind signed s s₁ → 2 * s₁.length < m → SettlesAt signed s₁ fun fuel =>
            (readType signed structs fuel t (nextToken signed s₁)).bind fun cur =>
              readElements signed structs fuel t false cur := by
          intro s₁ hs₁ hlt
          apply SettlesAt.bind (hread s₁ (le_trans hs₁.1 hn) (hgood s₁ hs₁))
          intro s₂ hs₂
          have hlen := hs₂.1
          have hlen' := hs₁.1
          exact ih s₂ false (by simp only [Bool.toNat_false]; omega) (by omega)
            (fun s' hs' => hgood s' ((hs₁.trans hs₂).trans hs'))
        cases empty with
        | true =>
            rw [Bool.toNat_true] at hm
            have h := hround s (Behind.refl s) (by omega)
            rw [hnext] at h
            exact h
        | false =>
            rw [← hnext]
            apply expectToken_bind hnext
            intro hcomma
            have hlt := nextToken_lt hnext (by rw [hcomma]; decide) (by rw [hcomma]; decide)
            exact hround rest hrest (by omega)

/-- The next token is a string, or there is an exception. Kind: L -/
theorem expectString_bind {tok : JsonToken} {s rest : Bytes} (h : nextToken signed s = (tok, rest))
    {g : ℕ → Bytes × Cursor → Reading Cursor}
    (hg : ∀ key, tok = .string key → SettlesAt signed rest fun fuel =>
      g fuel (key, nextToken signed rest)) :
    SettlesAt signed s fun fuel =>
      (expectString signed (nextToken signed s)).reading.bind (g fuel) := by
  rw [h]
  cases tok with
  | string key => exact (hg key rfl).of_behind (behind_next h)
  | number _ | true | false | null | leftBrace | rightBrace | leftBracket | rightBracket | colon
    | comma
  | eof | invalid => exact SettlesAt.raised s _

/-- The loop over the fields of a struct, which begin at `r`; `q` is the text of a key. Kind: L -/
theorem readMembers_ends {name : S} {r : Bytes}
    (hfield : ∀ (s : Bytes) (key q : Bytes), Behind signed r s → Spells signed (.string key) q →
      q.length + 1 + s.length ≤ r.length →
      (∀ f, (structs name).op key = none → (structs name).find key = some f →
        SettlesAt signed s fun fuel => readType signed structs fuel f.type (nextToken signed s)) ∧
      ∀ op, (structs name).op key = some op → SettlesAt signed s fun fuel =>
        op.run signed (skipValue signed fuel) (nextToken signed s)) :
    ∀ (m : ℕ) (s : Bytes), s.length < m → Behind signed r s → SettlesAt signed s fun fuel =>
      readMembers signed structs fuel name (nextToken signed s) := by
  intro m
  induction m with
  | zero => intro s hm; exact absurd hm (Nat.not_lt_zero _)
  | succ m ih =>
      intro s hm hs
      apply SettlesAt.of_succ
      rcases hnext : nextToken signed s with ⟨tok, rest⟩
      unfold readMembers
      by_cases hclose : tok = .rightBrace
      · simp only [if_pos hclose]
        exact SettlesAt.done (behind_next hnext)
      · simp only [if_neg hclose]
        rw [← hnext]
        apply expectString_bind hnext
        rintro key rfl
        obtain ⟨ws, q, -, hq, rfl⟩ :=
          nextToken_spells hnext (by intro h; cases h) (by intro h; cases h)
        rcases hcolon : nextToken signed rest with ⟨tok, rest'⟩
        rw [← hcolon]
        apply expectToken_bind hcolon
        rintro rfl
        have hlt := nextToken_lt hcolon (by decide) (by decide)
        have hbehind := (behind_next hnext).trans (behind_next hcolon)
        simp only [List.length_append] at hm
        have hle := hs.1
        simp only [List.length_append] at hle
        obtain ⟨hread, hop⟩ := hfield rest' key q (hs.trans hbehind) hq (by omega)
        apply SettlesAt.bind
        · obtain ⟨op, heq, hrun⟩ | ⟨f, hnone, hfind, hrun⟩ | ⟨-, -, msg, hrun⟩ :=
            readField_cases signed (structs name) key
          · simp only [hrun]
            exact hop op heq
          · simp only [hrun]
            by_cases hnull : (f.optional && (nextToken signed rest').1 = .null) = true
            · simp only [if_pos hnull]
              exact SettlesAt.done (behind_next rfl)
            · simp only [if_neg hnull]
              exact hread f hnone hfind
          · simp only [hrun]
            exact SettlesAt.raised rest' msg
        · intro s₂ hs₂
          have hlen := hs₂.1
          rcases hcomma : nextToken signed s₂ with ⟨tok, rest''⟩
          unfold consumeToken
          by_cases htok : tok = .comma
          · simp only [if_pos htok]
            have hrest := behind_next hcomma
            have hlen' := hrest.1
            exact (ih rest'' (by omega) (((hs.trans hbehind).trans hs₂).trans hrest)).of_behind
              hrest
          · simp only [if_neg htok]
            rw [← hcomma]
            exact ih s₂ (by omega) ((hs.trans hbehind).trans hs₂)

/-- **Reading a value of a type ends**, if what is skipped or decoded in it does. Kind: P -/
theorem readType_ends (n : ℕ) : ∀ s : Bytes, s.length < n → ∀ t : Shape S, Good signed structs t s →
    SettlesAt signed s fun fuel => readType signed structs fuel t (nextToken signed s) := by
  induction n with
  | zero => intro s h; exact absurd h (Nat.not_lt_zero _)
  | succ n ih =>
      intro s hlen t
      rcases hnext : nextToken signed s with ⟨tok, rest⟩
      have hrest := behind_next hnext
      induction t with
      | value =>
          intro _
          apply SettlesAt.of_succ
          unfold readType
          rw [← hnext]
          obtain ⟨v, s', hs', hv⟩ | ⟨msg, hv⟩ := @parse_ends signed (n + 1) s hlen 0
          · exact Or.inl ⟨s', hs', hv.map fun o => o.reading.bind fun r => .done r.2⟩
          · exact Or.inr ⟨msg, hv.map fun o => o.reading.bind fun r => .done r.2⟩
      | boolean =>
          intro _
          apply SettlesAt.of_succ
          unfold readType
          cases tok with
          | true | false => exact SettlesAt.done hrest
          | string _ | number _ | null | leftBrace | rightBrace | leftBracket | rightBracket | colon
            | comma
          | eof | invalid => exact SettlesAt.raised s _
      | number =>
          intro _
          apply SettlesAt.of_succ
          unfold readType
          cases tok with
          | number _ => exact SettlesAt.done hrest
          | string _ | true | false | null | leftBrace | rightBrace | leftBracket | rightBracket
            | colon
          | comma | eof | invalid => exact SettlesAt.raised s _
      | string =>
          intro _
          apply SettlesAt.of_succ
          unfold readType
          cases tok with
          | string _ | null => exact SettlesAt.done hrest
          | number _ | true | false | leftBrace | rightBrace | leftBracket | rightBracket | colon
          | comma | eof | invalid => exact SettlesAt.raised s _
      | option t iht =>
          intro hgood
          apply SettlesAt.of_succ
          unfold readType
          by_cases hnull : tok = .null
          · simp only [if_pos hnull]
            exact SettlesAt.done hrest
          · simp only [if_neg hnull]
            exact iht fun op l hl => hgood op l (.option hl)
      | vector t _ =>
          intro hgood
          apply SettlesAt.of_succ
          unfold readType
          rw [← hnext]
          apply expectToken_bind hnext
          intro htok
          have hlt := nextToken_lt hnext (by rw [htok]; decide) (by rw [htok]; decide)
          refine readElements_ends (n := rest.length) (fun s' hs' => ih s' (by omega) t) _ rest true
            (Nat.lt_succ_self _) (le_refl _) ?_
          intro s' hs' op l hl s'' hs'' hle
          refine hgood op _ (.vector hl) s'' ((hrest.trans hs').trans hs'') ?_
          have hle' := hs'.1
          have hone : Bracket.square.openText.length = 1 := rfl
          rw [List.length_append, hone]
          omega
      | struct name =>
          intro hgood
          apply SettlesAt.of_succ
          unfold readType
          rw [← hnext]
          apply expectToken_bind hnext
          intro htok
          have hlt := nextToken_lt hnext (by rw [htok]; decide) (by rw [htok]; decide)
          refine readMembers_ends (r := rest) ?_ _ rest (Nat.lt_succ_self _) (Behind.refl rest)
          intro s' key q hs' hq hle
          have hone : Bracket.curly.openText.length = 1 := rfl
          have hcolon : (text ":").length = 1 := rfl
          refine ⟨fun f hnone hfind => ih s' (by omega) f.type ?_, fun op hop => ?_⟩
          · intro op l hl s'' hs'' hle'
            refine hgood op _ (.field hnone hfind hq hl) s'' ((hrest.trans hs').trans hs'') ?_
            simp only [List.length_append]
            omega
          · refine hgood op _ (.key hop hq) s' (hrest.trans hs') ?_
            simp only [List.length_append]
            omega
      | own reader =>
          intro _
          apply SettlesAt.of_succ
          unfold readType
          rw [← hnext]
          rcases hread : reader.read signed (nextToken signed s) with msg | cur
          · exact SettlesAt.raised s msg
          · obtain ⟨k, rfl⟩ := reader.advances signed _ _ hread
            obtain ⟨s', hs', heq⟩ := @behind_advance signed s k
            dsimp only
            rw [heq]
            exact SettlesAt.done hs'

/-! ## What is skipped or decoded -/

/-- The loop that skips brackets ends at the end of the text. Kind: L -/
theorem skipNested_ends (opening closing : JsonToken) (n : ℕ) : ∀ (s : Bytes) (depth : Int8),
    ((advance signed)^[n] (nextToken signed s)).1 = .eof → SettlesAt signed s fun fuel =>
      (skipNested signed opening closing fuel depth (nextToken signed s)).reading := by
  induction n with
  | zero =>
      intro s depth heof
      apply SettlesAt.of_succ
      rcases hnext : nextToken signed s with ⟨tok, rest⟩
      rw [hnext] at heof
      obtain rfl : tok = .eof := heof
      unfold skipNested
      simp only [decide_true, Bool.or_true, if_true]
      rw [← hnext]
      exact SettlesAt.done (Behind.refl s)
  | succ n ih =>
      intro s depth heof
      apply SettlesAt.of_succ
      rcases hnext : nextToken signed s with ⟨tok, rest⟩
      rw [hnext] at heof
      unfold skipNested
      by_cases hdone : (depth ≤ 0 || tok = .eof) = true
      · simp only [if_pos hdone]
        rw [← hnext]
        exact SettlesAt.done (Behind.refl s)
      · simp only [if_neg hdone]
        exact (ih rest _ heof).of_behind (behind_next hnext)

/-- A value is skipped, if the lexer comes to the end of the text behind an opening bracket.
Kind: L -/
theorem skip_ends {s : Bytes} (h : ∀ (k : Bracket) (rest : Bytes),
    nextToken signed s = (k.opening, rest) →
      ∃ n, ((advance signed)^[n] (nextToken signed rest)).1 = .eof) :
    SettlesAt signed s fun fuel =>
      Op.skip.run signed (skipValue signed fuel) (nextToken signed s) := by
  rcases hnext : nextToken signed s with ⟨tok, rest⟩
  have hrest := behind_next hnext
  unfold Op.run
  dsimp only
  cases tok with
  | leftBrace =>
      obtain ⟨n, hn⟩ := h .curly rest hnext
      exact (skipNested_ends .leftBrace .rightBrace n rest 1 hn).of_behind hrest
  | leftBracket =>
      obtain ⟨n, hn⟩ := h .square rest hnext
      exact (skipNested_ends .leftBracket .rightBracket n rest 1 hn).of_behind hrest
  | string _ | number _ | true | false | null => exact SettlesAt.done hrest
  | rightBrace | rightBracket | colon | comma | eof | invalid => exact SettlesAt.raised s _

/-- One character is not enough for a string, or for an opening bracket with something behind it.
Kind: L -/
theorem op_short (op : Op) {s : Bytes} (hlen : s.length ≤ 1) : SettlesAt signed s fun fuel =>
    op.run signed (skipValue signed fuel) (nextToken signed s) := by
  cases op with
  | skip =>
      apply skip_ends
      intro k rest hnext
      have hlt := nextToken_lt hnext (by cases k <;> decide) (by cases k <;> decide)
      obtain rfl : rest = [] := List.eq_nil_of_length_eq_zero (by omega)
      exact ⟨0, rfl⟩
  | decode =>
      rcases hnext : nextToken signed s with ⟨tok, rest⟩
      rw [← hnext]
      apply expectString_bind hnext
      rintro key rfl
      obtain ⟨ws, q, -, ⟨chars, -, rfl⟩, rfl⟩ := nextToken_spells hnext (by intro h; cases h)
        (by intro h; cases h)
      have hquote : (text "\"").length = 1 := rfl
      simp only [List.length_append, List.length_cons] at hlen
      omega

/-- A string that is not empty is decoded, or there is an exception. Kind: L -/
theorem decodeString_ends {v : Bytes} (hv : v ≠ []) (s : Bytes) :
    SettlesAt signed s fun _ => decodeString signed v (nextToken signed s) := by
  have hsize : v.length ≤ capacity v.length := by
    have hpow := Nat.le_pow_clog (show 1 < 2 by decide) ((v.length + 15) / 16)
    unfold capacity
    omega
  have hgroups : 16 ∣ capacity v.length := Dvd.intro _ rfl
  have hpos : 0 < v.length := List.length_pos_iff_ne_nil.mpr hv
  have hdata : (stringData v).length = capacity v.length + 1 := by
    unfold stringData
    rw [if_neg hv, List.length_append, List.length_replicate]
    omega
  have hinside : Base64.decodeBuffer signed (stringData v) v.length ≠ .error .outside :=
    Base64.decodeFrom_inside (by omega) _ _ (by omega)
  unfold decodeString decode
  rcases hdecode : Base64.decodeBuffer signed (stringData v) v.length with fault | out
  · cases fault with
    | outside => exact absurd hdecode hinside
    | base64Error msg => exact SettlesAt.raised s msg
  · exact SettlesAt.done (Behind.refl s)

/-! ## Texts that the lexer reads to the end -/

/-- The lexer comes to the end of the text. -/
def Lexes (signed : Bool) (s : Bytes) : Prop :=
  ∃ n, ((advance signed)^[n] (nextToken signed s)).1 = .eof

/-- The lexer comes to no string that is empty. -/
def NoEmptyString (signed : Bool) (s : Bytes) : Prop :=
  ∀ n, ((advance signed)^[n] (nextToken signed s)).1 ≠ .string []

/-- Behind a text without empty strings there is none. Kind: L -/
theorem NoEmptyString.behind {s s' : Bytes} (h : NoEmptyString signed s) (hs : Behind signed s s') :
    NoEmptyString signed s' := by
  obtain ⟨-, m, hm⟩ := hs
  intro n
  rw [hm, ← Function.iterate_add_apply]
  exact h (n + m)

theorem Lexes.behind {s s' : Bytes} (h : Lexes signed s)
    (hs : Behind signed s s') : Lexes signed s' := by
  obtain ⟨-, m, hm⟩ := hs
  obtain ⟨n, hn⟩ := h
  have hstays : ∀ k, ((advance signed)^[n + k] (nextToken signed s)).1 = .eof := by
    intro k
    induction k with
    | zero => exact hn
    | succ k ih =>
        obtain ⟨s'', -, heq⟩ := @behind_advance signed s (n + k)
        rcases hnext : nextToken signed s'' with ⟨tok, rest⟩
        rw [heq, hnext] at ih
        obtain rfl : tok = .eof := ih
        rw [← Nat.add_assoc, Function.iterate_succ_apply', heq, hnext, (nextToken_eof hnext).1]
        rfl
  refine ⟨n, ?_⟩
  rw [hm, ← Function.iterate_add_apply]
  exact hstays m

/-- **On a text without invalid tokens and empty strings all that is skipped or decoded is done
with.** Kind: L -/
theorem good_of_lexes {t : Shape S} {s : Bytes}
    (hskip : (∃ l, LeadsTo signed structs .skip t l) → Lexes signed s)
    (hdecode : (∃ l, LeadsTo signed structs .decode t l) → NoEmptyString signed s) :
    Good signed structs t s := by
  intro op l hl s' hs' _
  cases op with
  | skip =>
      apply skip_ends
      intro k rest hnext
      exact ((hskip ⟨l, hl⟩).behind hs').behind (behind_next hnext)
  | decode =>
      have hne := (hdecode ⟨l, hl⟩).behind hs'
      rcases hnext : nextToken signed s' with ⟨tok, rest⟩
      rw [← hnext]
      apply expectString_bind hnext
      rintro key rfl
      apply decodeString_ends
      rintro rfl
      exact hne 0 (congrArg Prod.fst hnext)

/-! ## Reading that does not end -/

def Reading.Stuck {α : Type} : Reading α → Prop
  | .crashed | .outOfFuel => True
  | .done _ | .raised _ => False

/-- Behind a reading that is stuck nothing happens. Kind: L -/
theorem Reading.Stuck.bind {α β : Type} {r : Reading α} (h : r.Stuck) (f : α → Reading β) :
    (r.bind f).Stuck := by
  cases r with
  | done | raised => exact absurd h id
  | crashed | outOfFuel => exact trivial

/-- What is stuck for all fuel does not end. Kind: L -/
theorem not_ends_of_stuck {α : Type} {f : ℕ → Reading α}
    (h : ∀ fuel, (f fuel).Stuck) : ¬ Ends f := by
  rintro (⟨a, n, hn⟩ | ⟨msg, n, hn⟩)
  · have hstuck := h n
    rw [hn n (le_refl n)] at hstuck
    exact hstuck
  · have hstuck := h n
    rw [hn n (le_refl n)] at hstuck
    exact hstuck

/-- A value that is not skipped, or decoded, to its end. -/
def Op.tail : Op → Bytes
  | .skip => text "\x7bx"
  | .decode => text "\"\""

/-- The loop is stuck at a token that is not passed. Kind: L -/
theorem skipNested_stuck (opening closing : JsonToken) (hopen : opening ≠ .invalid)
    (hclose : closing ≠ .invalid) : ∀ fuel,
      skipNested signed opening closing fuel 1 (.invalid, text "x") = .outOfFuel := by
  intro fuel
  induction fuel with
  | zero => rfl
  | succ fuel ih =>
      unfold skipNested
      rw [if_neg (by decide), if_neg (Ne.symm hopen), if_neg (Ne.symm hclose)]
      exact ih

/-- Each of the two ways into the loop is stuck at the end of its text. Kind: L -/
theorem Op.tail_stuck (op : Op) (fuel : ℕ) :
    (op.run signed (skipValue signed fuel) (nextToken signed op.tail)).Stuck := by
  cases op with
  | skip =>
      have hrun : Op.skip.run signed (skipValue signed fuel) (nextToken signed (text "\x7bx")) =
          (skipNested signed .leftBrace .rightBrace fuel 1 (.invalid, text "x")).reading := rfl
      unfold Op.tail
      dsimp only
      rw [hrun, skipNested_stuck _ _ (by decide) (by decide)]
      exact trivial
  | decode =>
      have hrun : Op.decode.run signed (skipValue signed fuel)
        (nextToken signed (text "\"\"")) = .crashed :=
        rfl
      unfold Op.tail
      dsimp only
      rw [hrun]
      exact trivial

/-- The way to an operation begins with a bracket. Kind: L -/
theorem LeadsTo.opens {op : Op} {t : Shape S} {l : Bytes} (h : LeadsTo signed structs op t l)
    (s : Bytes) :
    ∃ (k : Bracket) (rest : Bytes), nextToken signed (l ++ s) = (k.opening, rest) := by
  induction h with
  | key _ hq => exact ⟨.curly, _, nextToken_open blank_nil .curly (_ ++ s)⟩
  | field _ _ _ _ _ => exact ⟨.curly, _, nextToken_open blank_nil .curly (_ ++ s)⟩
  | option _ ih => exact ih
  | vector _ _ => exact ⟨.square, _, nextToken_open blank_nil .square (_ ++ s)⟩

/-- A struct, up to the value of the first key. Kind: L -/
theorem readType_key {name : S} {key q : Bytes} (hq : Spells signed (.string key) q) (s : Bytes)
    (h : ∀ fuel, (readField signed (readType signed structs fuel) (skipValue signed fuel)
      (structs name) key
      (nextToken signed s)).Stuck) (fuel : ℕ) :
    (readType signed structs fuel (.struct name)
      (nextToken signed (Bracket.curly.openText ++ (q ++ (text ":" ++ s))))).Stuck := by
  have hopen := @nextToken_open signed [] blank_nil .curly (q ++ (text ":" ++ s))
  rw [List.nil_append] at hopen
  have hkey := @nextToken_of_spells signed _ q hq [] (text ":" ++ s) blank_nil (fun _ h => by
    cases h)
  rw [List.nil_append] at hkey
  have hcolon := @nextToken_of_spells signed .colon (text ":") rfl [] s blank_nil (fun _ h => by
    cases h)
  rw [List.nil_append] at hcolon
  rw [hopen]
  rcases fuel with _ | _ | fuel
  · exact trivial
  · exact trivial
  · have hrun : readType signed structs (fuel + 1 + 1) (.struct name) (Bracket.curly.opening,
        q ++ (text ":" ++ s)) =
        readMembers signed structs (fuel + 1) name (nextToken signed (q ++ (text ":" ++ s))) := rfl
    rw [hrun, hkey]
    have hround : readMembers signed structs (fuel + 1) name (.string key, text ":" ++ s) =
        (expectToken signed .colon (nextToken signed (text ":" ++ s))).reading.bind fun cur =>
          (readField signed (readType signed structs fuel) (skipValue signed fuel)
            (structs name) key
            cur).bind fun cur =>
              readMembers signed structs fuel name (consumeToken signed .comma cur) := rfl
    rw [hround, hcolon]
    exact (h fuel).bind _

/-- **Reading does not end behind a text that leads to a value that is skipped or decoded.**
Kind: P -/
theorem readType_stuck {op : Op} {t : Shape S} {l : Bytes} (h : LeadsTo signed structs op t l) :
    ∀ fuel, (readType signed structs fuel t (nextToken signed (l ++ op.tail))).Stuck := by
  induction h with
  | @key name key q hop hq =>
      intro fuel
      rw [List.append_assoc, List.append_assoc]
      apply readType_key hq
      intro fuel
      obtain ⟨op', heq, hrun⟩ | ⟨f, hnone, -, -⟩ | ⟨hnone, -, -⟩ :=
        readField_cases signed (structs name) key
      · rw [hop] at heq
        obtain rfl := Option.some.inj heq
        rw [hrun]
        exact op.tail_stuck fuel
      · rw [hop] at hnone
        cases hnone
      · rw [hop] at hnone
        cases hnone
  | @field name key q f l hop hfind hq hl ih =>
      intro fuel
      rw [List.append_assoc, List.append_assoc, List.append_assoc]
      apply readType_key hq
      intro fuel
      obtain ⟨op', heq, -⟩ | ⟨f', -, hfind', hrun⟩ | ⟨-, hnone, -⟩ :=
        readField_cases signed (structs name) key
      · rw [hop] at heq
        cases heq
      · rw [hfind] at hfind'
        obtain rfl := Option.some.inj hfind'
        obtain ⟨k, rest, hopens⟩ := hl.opens op.tail
        rw [hrun, if_neg]
        · exact ih fuel
        · rw [hopens]
          cases k <;> simp [Bracket.opening]
      · rw [hfind] at hnone
        cases hnone
  | option hl ih =>
      intro fuel
      obtain ⟨k, rest, hopens⟩ := hl.opens op.tail
      rcases fuel with _ | fuel
      · exact trivial
      · unfold readType
        rw [if_neg]
        · exact ih fuel
        · rw [hopens]
          cases k <;> exact fun h => by cases h
  | @vector t l hl ih =>
      intro fuel
      obtain ⟨k, rest, hopens⟩ := hl.opens op.tail
      have hopen := @nextToken_open signed [] blank_nil .square (l ++ op.tail)
      rw [List.nil_append] at hopen
      rw [List.append_assoc, hopen]
      rcases fuel with _ | _ | fuel
      · exact trivial
      · exact trivial
      · have hrun : readType signed structs (fuel + 1 + 1) (.vector t)
          (Bracket.square.opening, l ++ op.tail) =
            readElements signed structs (fuel + 1) t true (nextToken signed (l ++ op.tail)) := rfl
        rw [hrun]
        unfold readElements
        rw [if_neg]
        · exact (ih fuel).bind _
        · rw [hopens]
          cases k <;> exact fun h => by cases h

/-! ## Whole texts -/

theorem seen_eq {s : Bytes} (h : s.length ≤ 2 ^ 32) : seen s = s := by
  unfold seen
  apply List.ext_getElem
  · exact List.length_mapIdx
  · intro i hi hi'
    rw [List.getElem_mapIdx, Nat.mod_eq_of_lt (lt_of_lt_of_le hi' h),
      ← List.getElem_eq_getD (h := hi') 0]

/-- A good text is read to an end. Kind: L -/
theorem readText_ends {t : Shape S} {s : Bytes} (h : Good signed structs t (seen s)) :
    Ends fun fuel => readText signed structs fuel t s := by
  have hread := readType_ends _ (seen s) (Nat.lt_succ_self _) t h
  obtain ⟨s', -, hs'⟩ | ⟨msg, hmsg⟩ := hread
  · by_cases heof : (nextToken signed s').1 = .eof
    · refine Or.inl ⟨nextToken signed s', hs'.bind ?_⟩
      simp only [if_pos heof]
      exact settles_const _
    · refine Or.inr ⟨"Unexpected tokens after parsing", hs'.bind ?_⟩
      simp only [if_neg heof]
      exact settles_const _
  · exact Or.inr ⟨msg, hmsg.bind_raised⟩

/-- A text that leads to an operation that is stuck is not. Kind: L -/
theorem readText_stuck {op : Op} {t : Shape S} {l : Bytes} (h : LeadsTo signed structs op t l)
    (hsmall : l.length + 2 ≤ 2 ^ 32) :
    ¬ Ends fun fuel => readText signed structs fuel t (l ++ op.tail) := by
  apply not_ends_of_stuck
  intro fuel
  have htail : op.tail.length = 2 := by cases op <;> rfl
  unfold readText
  rw [seen_eq (by rw [List.length_append, htail]; exact hsmall)]
  exact (readType_stuck h fuel).bind _

/-- **Reading into a type ends on every text if and only if no text of the type leads to a value
that is skipped or decoded**; on a text without invalid tokens and empty strings it ends for every
type. Kind: P -/
theorem ends_iff (signed : Bool) (structs : S → StructInfo S) (t : Shape S) :
    ((∀ s : Text, Ends fun fuel => readText signed structs fuel t s.bytes) ↔
      ∀ op l, LeadsTo signed structs op t l → 2 ^ 32 < l.length + 2) ∧
    ∀ s : Bytes, ((∃ l, LeadsTo signed structs .skip t l) → Lexes signed (seen s)) →
      ((∃ l, LeadsTo signed structs .decode t l) → NoEmptyString signed (seen s)) →
      Ends fun fuel => readText signed structs fuel t s := by
  refine ⟨⟨?_, ?_⟩, fun s hskip hdecode => readText_ends (good_of_lexes hskip hdecode)⟩
  · intro h op l hl
    by_contra hsmall
    rw [not_lt] at hsmall
    have htail : op.tail.length = 2 := by cases op <;> rfl
    exact readText_stuck hl hsmall
      (h ⟨l ++ op.tail, by rw [List.length_append, htail]; exact hsmall⟩)
  · intro h s
    apply readText_ends
    rw [seen_eq s.fits]
    intro op l hl s' _ hle
    have hlong := h op l hl
    have hfits := s.fits
    exact op_short op (by omega)

/-- A struct without fields that may have other keys in JSON: `@json(partial) struct Any {}`. -/
def anyStruct : StructInfo Unit := { name := "Any", partialAllowed := true, fields := [] }

/-- `{"a":{x` is read without an end. Kind: L -/
theorem skip_stuck : ¬ Ends fun fuel =>
    readText true (fun _ => anyStruct) fuel (.struct ()) (text "\x7b\"a\":\x7bx") := by
  have hkey : Spells true (.string (text "a")) (text "\"a\"") :=
    ⟨text "a", .char (by decide) (by decide) .nil, rfl⟩
  have hleads : LeadsTo true (fun _ => anyStruct) .skip (.struct ()) (text "\x7b\"a\":") :=
    .key rfl hkey
  exact readText_stuck hleads (by decide)

end

end CxyCompiler.Stdlib.Json
