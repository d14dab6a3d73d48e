import CxyCompiler.Stdlib.JsonGrammar
import CxyCompiler.Stdlib.JsonTyped

/-!
# Which texts the JSON parser accepts, and what it skips (`stdlib/json.cxy`)

* `Doc`, `Items` — a value with the white space in it; `Doc.Ok` says that its scalars, keys and
  separators are those of the grammar.
* `Doc.levels`, `Doc.nested` — how deep its values lie, and how deep its brackets of one kind are
  nested.
* `parse_sound`, `parseValue_complete` — **a value is parsed exactly where its text is**.
* `skips_doc` — the loop that counts brackets comes by a whole value.
* `accepts_and_skips` — **the texts that are accepted are the values of the grammar that are not too
  deep, and a value that is skipped is skipped as a whole**. `accepts_control` is a text that is not
  JSON.
-/

namespace CxyCompiler.Stdlib.Json

/-! ## Values and their texts -/

inductive Bracket
  | square
  | curly
  deriving DecidableEq

namespace Bracket

def opening : Bracket → JsonToken
  | .square => .leftBracket
  | .curly => .leftBrace

def closing : Bracket → JsonToken
  | .square => .rightBracket
  | .curly => .rightBrace

def openText : Bracket → Bytes
  | .square => text "["
  | .curly => text "\x7b"

def closeText : Bracket → Bytes
  | .square => text "]"
  | .curly => text "\x7d"

end Bracket

mutual

/-- A value: one without a bracket by its text, an empty array or object by the white space in it,
or one with items. -/
inductive Doc
  | scalar (t : Bytes)
  | empty (k : Bracket) (ws : Bytes)
  | full (k : Bracket) (items : Items)

/-- The items between two brackets, each with the text in front of its value (for a member of an
object, its key and colon are in it) and the white space behind. -/
inductive Items
  | last (lead : Bytes) (v : Doc) (after : Bytes)
  | more (lead : Bytes) (v : Doc) (after : Bytes) (rest : Items)

end

mutual

def Doc.text : Doc → Bytes
  | .scalar t => t
  | .empty k ws => k.openText ++ (ws ++ k.closeText)
  | .full k items => k.openText ++ (items.text ++ k.closeText)

def Items.text : Items → Bytes
  | .last lead v after => lead ++ (v.text ++ after)
  | .more lead v after rest =>
      lead ++ (v.text ++ (after ++ (CxyCompiler.Stdlib.text "," ++ rest.text)))

end

/-- What may stand in front of the value of an item. -/
def IsLead : Bracket → Bytes → Prop
  | .square, lead => Blank lead
  | .curly, lead => ∃ ws key ws' ws'', Blank ws ∧ IsString key ∧ Blank ws' ∧ Blank ws'' ∧
      lead = ws ++ (key ++ (ws' ++ (text ":" ++ ws'')))

mutual

/-- **The value is one of the grammar.** -/
def Doc.Ok : Doc → Prop
  | .scalar t => IsScalar t
  | .empty _ ws => Blank ws
  | .full k items => items.Ok k

def Items.Ok (k : Bracket) : Items → Prop
  | .last lead v after => IsLead k lead ∧ v.Ok ∧ Blank after
  | .more lead v after rest => IsLead k lead ∧ v.Ok ∧ Blank after ∧ rest.Ok k

end

mutual

/-- How many values lie within each other, the innermost counted. -/
def Doc.levels : Doc → ℕ
  | .scalar _ => 1
  | .empty _ _ => 1
  | .full _ items => items.levels + 1

def Items.levels : Items → ℕ
  | .last _ v _ => v.levels
  | .more _ v _ rest => max v.levels rest.levels

end

mutual

/-- How many brackets of the kind are nested. -/
def Doc.nested (k : Bracket) : Doc → ℕ
  | .scalar _ => 0
  | .empty k' _ => if k' = k then 1 else 0
  | .full k' items => items.nested k + if k' = k then 1 else 0

def Items.nested (k : Bracket) : Items → ℕ
  | .last _ v _ => v.nested k
  | .more _ v _ rest => max (v.nested k) (rest.nested k)

end

/-- The brackets around the value. -/
def Doc.bracket : Doc → Option Bracket
  | .scalar _ => none
  | .empty k _ => some k
  | .full k _ => some k

/-- **A JSON text that is not too deep.** -/
def IsJson (s : Bytes) : Prop :=
  ∃ (ws : Bytes) (doc : Doc) (ws' : Bytes), Blank ws ∧ Blank ws' ∧ doc.Ok ∧ doc.levels ≤ maxDepth ∧
    s = ws ++ (doc.text ++ ws')

/-! ## Scalars, brackets and separators as tokens -/

variable {signed : Bool}

/-- A token that is a value by itself. -/
def JsonToken.IsScalar : JsonToken → Prop
  | .string _ | .number _ | .true | .false | .null => True
  | _ => False

theorem isString_iff (signed : Bool)
    (s : Bytes) : IsString s ↔ ∃ v, Spells signed (.string v) s := by
  constructor
  · rintro ⟨chars, hchars, rfl⟩
    obtain ⟨v, hv⟩ := (isChars_iff chars).mp hchars
    exact ⟨v, chars, hv, rfl⟩
  · rintro ⟨v, chars, hv, rfl⟩
    exact ⟨chars, (isChars_iff chars).mpr ⟨v, hv⟩, rfl⟩

/-- **The text of a scalar is that of a token.** Kind: L -/
theorem isScalar_iff (signed : Bool) (s : Bytes) :
    IsScalar s ↔ ∃ tok : JsonToken, tok.IsScalar ∧ Spells signed tok s := by
  constructor
  · rintro (h | h | h | h | h)
    · exact ⟨.null, trivial, h⟩
    · exact ⟨.true, trivial, h⟩
    · exact ⟨.false, trivial, h⟩
    · exact ⟨.number s, trivial, h, rfl⟩
    · obtain ⟨v, hv⟩ := (isString_iff signed s).mp h
      exact ⟨.string v, trivial, hv⟩
  · rintro ⟨tok, htok, h⟩
    cases tok with
    | null => exact Or.inl h
    | true => exact Or.inr (Or.inl h)
    | false => exact Or.inr (Or.inr (Or.inl h))
    | number v =>
        obtain ⟨hv, rfl⟩ := h
        exact Or.inr (Or.inr (Or.inr (Or.inl hv)))
    | string v => exact Or.inr (Or.inr (Or.inr (Or.inr ((isString_iff signed s).mpr ⟨v, h⟩))))
    | leftBrace | rightBrace | leftBracket | rightBracket | colon | comma | eof | invalid =>
        exact absurd htok id

theorem Bracket.spells_opening (k : Bracket) : Spells signed k.opening k.openText := by
  cases k <;> rfl

theorem Bracket.spells_closing (k : Bracket) : Spells signed k.closing k.closeText := by
  cases k <;> rfl

/-- A token that is no number is read whatever is behind it. Kind: L -/
theorem nextToken_mark {tok : JsonToken} {sp ws : Bytes} (h : Spells signed tok sp) (hws : Blank ws)
    (htok : ∀ v, tok ≠ .number v)
      (rest : Bytes) : nextToken signed (ws ++ (sp ++ rest)) = (tok, rest) :=
  nextToken_of_spells h hws (fun v hv => absurd hv (htok v))

theorem blank_nil : Blank [] := by
  rintro c ⟨⟩

/-- White space may stand behind a number. Kind: L -/
theorem Blank.stops {ws s : Bytes} (hws : Blank ws) (hs : Stops s) : Stops (ws ++ s) := by
  have hspace : ∀ c : UInt8, isSpace c = true → isDigit c = false ∧
    c ≠ ch '.' ∧ c ≠ ch 'e' ∧ c ≠ ch 'E' :=
    CxyCompiler.Lib.Numeral.forall_byte
      (p := fun c => isSpace c = true → isDigit c = false ∧ c ≠ ch '.' ∧ c ≠ ch 'e' ∧ c ≠ ch 'E')
      (by decide +kernel)
  rcases ws with _ | ⟨c, ws⟩
  · exact hs
  · rintro d ⟨⟩
    exact hspace c (hws c List.mem_cons_self)

/-! ## The steps of the parser -/

theorem parseValue_deep {fuel depth : ℕ} (h : maxDepth ≤ depth) (cur : Cursor) :
    parseValue signed (fuel + 1) depth cur = .raised "Maximum nesting depth exceeded" := by
  obtain ⟨tok, s⟩ := cur
  unfold parseValue
  rw [if_pos h]

theorem parseValue_scalar (signed : Bool) {depth : ℕ} (h : ¬ maxDepth ≤ depth) {tok : JsonToken}
    (htok : tok.IsScalar) (s : Bytes) :
    ∃ v, ∀ fuel, parseValue signed (fuel + 1) depth (tok, s) = .done (v, nextToken signed s) := by
  unfold parseValue
  simp only [if_neg h]
  cases tok with
  | string _ | number _ | true | false | null => exact ⟨_, fun _ => rfl⟩
  | leftBrace | rightBrace | leftBracket | rightBracket | colon | comma | eof | invalid =>
      exact absurd htok id

/-- What a loop over items has read. -/
abbrev Read : Bracket → Type
  | .square => List Value
  | .curly => List (Bytes × Value)

def Read.empty : (k : Bracket) → Read k
  | .square => ([] : List Value)
  | .curly => ([] : List (Bytes × Value))

/-- The loop over the items between two brackets. -/
def parseInner (signed : Bool)
    (fuel depth : ℕ) : (k : Bracket) → Read k → Cursor → Outcome (Value × Cursor)
  | .square, arr, cur => parseItems signed fuel depth arr cur
  | .curly, obj, cur => parseMembers signed fuel depth obj cur

/-- A value starts with an opening bracket: it is empty, or the loop reads its items. Kind: L -/
theorem parseValue_opening (signed : Bool) {depth : ℕ} (h : ¬ maxDepth ≤ depth) (k : Bracket)
    (s : Bytes) :
    (nextToken signed s).1 = k.closing ∧
      (∃ v, ∀ fuel, parseValue signed (fuel + 1) depth (k.opening, s) =
        .done (v, nextToken signed (nextToken signed s).2)) ∨
      (nextToken signed s).1 ≠ k.closing ∧ ∀ fuel,
        parseValue signed (fuel + 1) depth (k.opening, s) =
        parseInner signed fuel (depth + 1) k (Read.empty k) (nextToken signed s) := by
  rcases hnext : nextToken signed s with ⟨tok, rest⟩
  cases k with
  | square =>
      dsimp only [Bracket.opening, Bracket.closing]
      unfold parseValue
      simp only [if_neg h, hnext]
      cases tok with
      | rightBracket => exact Or.inl ⟨rfl, _, fun _ => rfl⟩
      | string _ | number _ => exact Or.inr ⟨fun h => (by cases h), fun _ => rfl⟩
      | true | false | null | leftBrace | rightBrace | leftBracket | colon | comma | eof | invalid
        =>
          exact Or.inr ⟨by decide, fun _ => rfl⟩
  | curly =>
      dsimp only [Bracket.opening, Bracket.closing]
      unfold parseValue
      simp only [if_neg h, hnext]
      cases tok with
      | rightBrace => exact Or.inl ⟨rfl, _, fun _ => rfl⟩
      | string _ | number _ => exact Or.inr ⟨fun h => (by cases h), fun _ => rfl⟩
      | true | false | null | leftBrace | leftBracket | rightBracket | colon | comma | eof | invalid
        =>
          exact Or.inr ⟨by decide, fun _ => rfl⟩

/-- **A round of a loop over items**: it raises, or it reads what is in front of a value, the value,
and a closing bracket or a comma. Kind: L -/
theorem parseInner_round (signed : Bool) (depth : ℕ) (k : Bracket) (acc : Read k) (s : Bytes) :
    (∃ msg, ∀ fuel, parseInner signed (fuel + 1) depth k acc (nextToken signed s) = .raised msg) ∨
      ∃ (lead s' : Bytes) (whole : Value → Value) (next : Value → Read k)
        (msg : String), IsLead k lead ∧
        s = lead ++ s' ∧ ∀ fuel, parseInner signed (fuel + 1) depth k acc (nextToken signed s) =
          (parseValue signed fuel depth (nextToken signed s')).bind fun r =>
            if r.2.1 = k.closing then .done (whole r.1, nextToken signed r.2.2)
            else if r.2.1 = .comma then parseInner signed fuel depth k (next r.1)
              (nextToken signed r.2.2)
            else .raised msg := by
  cases k with
  | square =>
      refine Or.inr ⟨[], s, fun value => .array (acc ++ [value]), fun value =>
        (acc ++ [value] : List Value),
        "Expected ',' or ']' in array", blank_nil, rfl, fun fuel => ?_⟩
      unfold parseInner
      dsimp only
      conv_lhs => unfold parseItems
      rcases parseValue signed fuel depth (nextToken signed s) with ⟨value, tok, rest⟩ | msg | _
      · cases tok <;> rfl
      · rfl
      · rfl
  | curly =>
      unfold parseInner
      dsimp only
      rcases hkey : nextToken signed s with ⟨tok, s₁⟩
      cases tok with
      | string key =>
          rcases hcolon : nextToken signed s₁ with ⟨tok, s₂⟩
          cases tok with
          | colon =>
              obtain ⟨ws, sp, hws, hsp, rfl⟩ :=
                nextToken_spells hkey (fun h => by cases h) (fun h => by cases h)
              obtain ⟨ws', _, hws', rfl, rfl⟩ := nextToken_spells hcolon (by decide) (by decide)
              refine Or.inr ⟨ws ++ (sp ++ (ws' ++ (text ":" ++ []))), s₂,
                fun value => .object (setEntry key value acc), fun value => setEntry key value acc,
                "Expected ',' or '\x7d' in object",
                ⟨ws, sp, ws', [], hws,
                  (isString_iff signed sp).mpr ⟨key, hsp⟩, hws', blank_nil, rfl⟩,
                by simp only [List.append_assoc, List.nil_append], fun fuel => ?_⟩
              conv_lhs => unfold parseMembers
              rw [hcolon]
              dsimp only
              rcases parseValue signed fuel depth
                (nextToken signed s₂) with ⟨value, tok, rest⟩ | msg | _
              · cases tok <;> rfl
              · rfl
              · rfl
          | string _ | number _ | true | false | null | leftBrace | rightBrace | leftBracket
            | rightBracket
            | comma | eof | invalid =>
              refine Or.inl ⟨"Expected ':' after object key", fun fuel => ?_⟩
              unfold parseMembers
              rw [hcolon]
      | number _ | true | false | null | leftBrace | rightBrace | leftBracket | rightBracket | colon
        | comma
        | eof | invalid =>
          refine Or.inl ⟨"Expected string key in object", fun fuel => ?_⟩
          unfold parseMembers
          rfl

theorem Outcome.bind_eq_done {α β : Type} {r : Outcome α} {f : α → Outcome β} {b : β}
    (h : r.bind f = .done b) : ∃ a, r = .done a ∧ f a = .done b := by
  rcases r with a | msg | _
  · exact ⟨a, rfl, h⟩
  · cases h
  · cases h

/-- A loop over items that ends has read what is in front of a value, the value, and a closing
bracket or a comma. Kind: L -/
theorem parseInner_inv {fuel depth : ℕ} {k : Bracket} {acc : Read k} {s : Bytes}
    {r : Value × Cursor}
    (h : parseInner signed (fuel + 1) depth k acc (nextToken signed s) = .done r) :
    ∃ lead s' value tok rest, IsLead k lead ∧ s = lead ++ s' ∧
      parseValue signed fuel depth (nextToken signed s') = .done (value, (tok, rest)) ∧
      (tok = k.closing ∧ r.2 = nextToken signed rest ∨
        tok = .comma ∧ ∃ acc', parseInner signed fuel depth k acc'
          (nextToken signed rest) = .done r) := by
  obtain ⟨msg, hraised⟩ | ⟨lead, s', whole, next, msg, hlead, hs, hround⟩ :=
    parseInner_round signed depth k acc s
  · rw [hraised] at h
    cases h
  · rw [hround] at h
    obtain ⟨⟨value, tok, rest⟩, hvalue, h⟩ := Outcome.bind_eq_done h
    refine ⟨lead, s', value, tok, rest, hlead, hs, hvalue, ?_⟩
    dsimp only at h
    by_cases hclose : tok = k.closing
    · rw [if_pos hclose] at h
      cases h
      exact Or.inl ⟨hclose, rfl⟩
    · rw [if_neg hclose] at h
      by_cases hcomma : tok = .comma
      · rw [if_pos hcomma] at h
        exact Or.inr ⟨hcomma, _, h⟩
      · rw [if_neg hcomma] at h
        cases h

/-- A loop over items reads what is in front of a value, the value, and a closing bracket or a
comma. Kind: L -/
theorem parseInner_step {fuel depth : ℕ} {k : Bracket} (acc : Read k) {lead s rest : Bytes}
    {value : Value}
    {tok : JsonToken} (hlead : IsLead k lead)
    (hvalue : parseValue signed fuel depth (nextToken signed s) = .done (value, (tok, rest))) :
    (tok = k.closing → ∃ v, parseInner signed (fuel + 1) depth k acc
      (nextToken signed (lead ++ s)) =
        .done (v, nextToken signed rest)) ∧
      (tok = .comma → ∃ acc', parseInner signed (fuel + 1) depth k acc
        (nextToken signed (lead ++ s)) =
        parseInner signed fuel depth k acc' (nextToken signed rest)) := by
  cases k with
  | square =>
      unfold parseInner
      dsimp only
      rw [nextToken_append hlead]
      constructor
      · rintro rfl
        unfold parseItems
        rw [hvalue]
        exact ⟨_, rfl⟩
      · rintro rfl
        refine ⟨(acc ++ [value] : List Value), ?_⟩
        conv_lhs => unfold parseItems
        rw [hvalue]
  | curly =>
      obtain ⟨ws, key, ws', ws'', hws, hkey, hws', hws'', rfl⟩ := hlead
      obtain ⟨v, hv⟩ := (isString_iff signed key).mp hkey
      have hstring := nextToken_mark hv hws (fun _ h => by
        cases h) (ws' ++ (text ":" ++ (ws'' ++ s)))
      have hcolon : nextToken signed (ws' ++ (text ":" ++ (ws'' ++ s))) = (.colon, ws'' ++ s) :=
        @nextToken_mark signed .colon (text ":") _ rfl hws' (fun _ h => by cases h) (ws'' ++ s)
      unfold parseInner
      simp only [List.append_assoc]
      rw [hstring]
      constructor
      · rintro rfl
        unfold parseMembers
        rw [hcolon]
        dsimp only
        rw [nextToken_append hws'', hvalue]
        exact ⟨_, rfl⟩
      · rintro rfl
        refine ⟨setEntry v value acc, ?_⟩
        conv_lhs => unfold parseMembers
        rw [hcolon]
        dsimp only
        rw [nextToken_append hws'', hvalue]

/-! ## What is parsed is a value -/

theorem Bracket.closing_ne (k : Bracket) : k.closing ≠ .invalid ∧ k.closing ≠ .eof := by
  cases k <;> exact ⟨by decide, by decide⟩

theorem spells_closing_iff (k : Bracket)
    (sp : Bytes) : Spells signed k.closing sp ↔ sp = k.closeText := by
  cases k <;> exact Iff.rfl

/-- Where a closing bracket is read, its text is. Kind: L -/
theorem nextToken_closing {k : Bracket} {s rest : Bytes}
    (h : nextToken signed s = (k.closing, rest)) :
    ∃ ws, Blank ws ∧ s = ws ++ (k.closeText ++ rest) := by
  obtain ⟨ws, sp, hws, hsp, hs⟩ := nextToken_spells h k.closing_ne.1 k.closing_ne.2
  rw [spells_closing_iff] at hsp
  exact ⟨ws, hws, by rw [hs, hsp]⟩

/-- A value is at the cursor: the text it is read from, and where it ends. -/
def ValueAt (signed : Bool) (depth : ℕ) (s : Bytes) (cur : Cursor) : Prop :=
  ∃ (ws : Bytes) (doc : Doc) (s' : Bytes), Blank ws ∧ doc.Ok ∧ depth + doc.levels ≤ maxDepth ∧
    s = ws ++ (doc.text ++ s') ∧ cur = nextToken signed s'

/-- Items and a closing bracket are at the cursor. -/
def ItemsAt (signed : Bool) (depth : ℕ) (k : Bracket) (s : Bytes) (cur : Cursor) : Prop :=
  ∃ (items : Items) (s' : Bytes), items.Ok k ∧ depth + items.levels ≤ maxDepth ∧
    s = items.text ++ (k.closeText ++ s') ∧ cur = nextToken signed s'

theorem Blank.append {s t : Bytes} (hs : Blank s) (ht : Blank t) : Blank (s ++ t) := by
  intro c hc
  rcases List.mem_append.mp hc with hc | hc
  · exact hs c hc
  · exact ht c hc

theorem IsLead.append {k : Bracket} {lead ws : Bytes} (h : IsLead k lead) (hws : Blank ws) :
    IsLead k (lead ++ ws) := by
  cases k with
  | square => exact Blank.append h hws
  | curly =>
      obtain ⟨w, key, w', w'', hw, hkey, hw', hw'', rfl⟩ := h
      exact ⟨w, key, w', w'' ++ ws, hw, hkey, hw', hw''.append hws, by
        simp only [List.append_assoc]⟩

theorem itemsAt_last {depth : ℕ} {k : Bracket} {lead s rest : Bytes} (hlead : IsLead k lead)
    (h : ValueAt signed depth s (k.closing, rest)) :
    ItemsAt signed depth k (lead ++ s) (nextToken signed rest) := by
  obtain ⟨ws, doc, s', hws, hok, hlevels, rfl, hcur⟩ := h
  obtain ⟨after, hafter, rfl⟩ := nextToken_closing hcur.symm
  refine ⟨.last (lead ++ ws) doc after, rest, ⟨hlead.append hws, hok, hafter⟩, hlevels, ?_, rfl⟩
  simp only [Items.text, List.append_assoc]

theorem itemsAt_more {depth : ℕ} {k : Bracket} {lead s rest : Bytes} {cur : Cursor}
    (hlead : IsLead k lead)
    (h : ValueAt signed depth s (.comma, rest)) (hrest : ItemsAt signed depth k rest cur) :
    ItemsAt signed depth k (lead ++ s) cur := by
  obtain ⟨ws, doc, s', hws, hok, hlevels, rfl, hcur⟩ := h
  obtain ⟨items, s'', hitems, hlevels', rfl, rfl⟩ := hrest
  obtain ⟨after, sp, hafter, hsp, rfl⟩ := nextToken_spells hcur.symm (by decide) (by decide)
  obtain rfl : sp = text "," := hsp
  refine ⟨.more (lead ++ ws) doc after items, s'',
    ⟨hlead.append hws, hok, hafter, hitems⟩, ?_, ?_, rfl⟩
  · rw [Items.levels, ← Nat.add_max_add_left]
    exact max_le hlevels hlevels'
  · simp only [Items.text, List.append_assoc]

/-- **What is parsed is a value of the grammar.** Kind: P -/
theorem parse_sound (fuel : ℕ) :
    (∀ (depth : ℕ) (s : Bytes) (r : Value × Cursor),
      parseValue signed fuel depth (nextToken signed s) = .done r → ValueAt signed depth s r.2) ∧
    ∀ (depth : ℕ) (k : Bracket) (acc : Read k) (s : Bytes) (r : Value × Cursor),
      parseInner signed fuel depth k acc (nextToken signed s) = .done r →
        ItemsAt signed depth k s r.2 := by
  induction fuel with
  | zero =>
      refine ⟨fun depth s r h => (by cases h), fun depth k acc s r h => ?_⟩
      cases k <;> cases h
  | succ fuel ih =>
      obtain ⟨ihValue, ihItems⟩ := ih
      constructor
      · intro depth s r h
        by_cases hdepth : maxDepth ≤ depth
        · rw [parseValue_deep hdepth] at h
          cases h
        · rcases htok : nextToken signed s with ⟨tok, rest⟩
          rw [htok] at h
          by_cases hscalar : tok.IsScalar
          · obtain ⟨v, hv⟩ := parseValue_scalar signed hdepth hscalar rest
            obtain rfl := Outcome.done.inj ((hv fuel).symm.trans h)
            obtain ⟨ws, sp, hws, hsp, rfl⟩ := nextToken_spells htok
              (by rintro rfl; exact hscalar) (by rintro rfl; exact hscalar)
            exact ⟨ws, .scalar sp, rest, hws, (isScalar_iff signed sp).mpr ⟨tok, hscalar, hsp⟩,
              Nat.lt_of_not_le hdepth, rfl, rfl⟩
          · by_cases hopen : ∃ k : Bracket, tok = k.opening
            · obtain ⟨k, rfl⟩ := hopen
              obtain ⟨ws, sp, hws, hsp, rfl⟩ := nextToken_spells htok
                (by cases k <;> decide) (by cases k <;> decide)
              obtain rfl : sp = k.openText := by cases k <;> exact hsp
              obtain ⟨hclose, v, hv⟩ | ⟨-, hinner⟩ :=
                parseValue_opening signed hdepth k rest
              · obtain rfl := Outcome.done.inj ((hv fuel).symm.trans h)
                rcases hnext : nextToken signed rest with ⟨tok', rest'⟩
                rw [hnext] at hclose
                subst hclose
                obtain ⟨ws', hws', rfl⟩ := nextToken_closing hnext
                refine ⟨ws, .empty k ws', rest', hws, hws', Nat.lt_of_not_le hdepth, ?_, rfl⟩
                simp only [Doc.text, List.append_assoc]
              · rw [hinner] at h
                obtain ⟨items, s', hok, hlevels, rfl, hcur⟩ := ihItems _ _ _ _ _ h
                refine ⟨ws, .full k items, s', hws, hok, ?_, ?_, hcur⟩
                · rw [Doc.levels]
                  omega
                · simp only [Doc.text, List.append_assoc]
            · exfalso
              unfold parseValue at h
              rw [if_neg hdepth] at h
              cases tok with
              | string _ | number _ | true | false | null => exact hscalar trivial
              | leftBracket => exact hopen ⟨.square, rfl⟩
              | leftBrace => exact hopen ⟨.curly, rfl⟩
              | rightBrace | rightBracket | colon | comma | eof | invalid => cases h
      · intro depth k acc s r h
        obtain ⟨lead, s', value, tok, rest, hlead, rfl, hvalue, hend⟩ := parseInner_inv h
        have hat := ihValue _ _ _ hvalue
        rcases hend with ⟨rfl, hr⟩ | ⟨rfl, acc', hrest⟩
        · rw [hr]
          exact itemsAt_last hlead hat
        · exact itemsAt_more hlead hat (ihItems _ _ _ _ _ hrest)

/-! ## A value of the grammar is parsed -/

theorem parseInner_closing (fuel depth : ℕ) (k : Bracket) (acc : Read k) (s : Bytes)
    (r : Value × Cursor) :
    parseInner signed fuel depth k acc (k.closing, s) ≠ .done r := by
  cases k with
  | square => exact parseItems_rightBracket fuel depth acc s r
  | curly => exact parseMembers_rightBrace fuel depth acc s r

theorem stops_closeText {after : Bytes} (h : Blank after) (k : Bracket) (rest : Bytes) :
    Stops (after ++ (k.closeText ++ rest)) := by
  apply h.stops
  cases k with
  | square => exact stops_cons (by decide) rest
  | curly => exact stops_cons (by decide) rest

theorem stops_comma {after : Bytes} (h : Blank after)
    (rest : Bytes) : Stops (after ++ (text "," ++ rest)) :=
  h.stops (stops_cons (by decide) rest)

theorem nextToken_close {ws : Bytes} (h : Blank ws) (k : Bracket) (rest : Bytes) :
    nextToken signed (ws ++ (k.closeText ++ rest)) = (k.closing, rest) :=
  nextToken_mark k.spells_closing h (by cases k <;> exact fun _ h => (by cases h)) rest

theorem nextToken_open {ws : Bytes} (h : Blank ws) (k : Bracket) (rest : Bytes) :
    nextToken signed (ws ++ (k.openText ++ rest)) = (k.opening, rest) :=
  nextToken_mark k.spells_opening h (by cases k <;> exact fun _ h => (by cases h)) rest

theorem nextToken_separator {ws : Bytes} (h : Blank ws) (rest : Bytes) :
    nextToken signed (ws ++ (text "," ++ rest)) = (.comma, rest) :=
  @nextToken_mark signed .comma (text ",") _ rfl h (fun _ h => by cases h) rest

mutual

/-- **A value of the grammar is parsed**, whatever may stand behind it. Kind: P -/
theorem parseValue_complete : ∀ doc : Doc, doc.Ok → ∃ n, ∀ fuel, n ≤ fuel → ∀ depth,
    depth + doc.levels ≤ maxDepth → ∀ ws s, Blank ws → Stops s → ∃ v,
      parseValue signed fuel depth (nextToken signed (ws ++ (doc.text ++ s))) = .done
        (v, nextToken signed s)
  | .scalar t, hok => by
      obtain ⟨tok, hscalar, hsp⟩ := (isScalar_iff signed t).mp hok
      refine ⟨1, fun fuel hfuel depth hdepth ws s hws hs => ?_⟩
      obtain ⟨fuel, rfl⟩ := Nat.exists_eq_add_of_le' hfuel
      have hnot : ¬ maxDepth ≤ depth := Nat.not_le_of_lt hdepth
      rw [Doc.text, nextToken_of_spells hsp hws (fun _ _ => hs)]
      obtain ⟨v, hv⟩ := parseValue_scalar signed hnot hscalar s
      exact ⟨v, hv fuel⟩
  | .empty k ws', hok => by
      refine ⟨1, fun fuel hfuel depth hdepth ws s hws hs => ?_⟩
      obtain ⟨fuel, rfl⟩ := Nat.exists_eq_add_of_le' hfuel
      have hnot : ¬ maxDepth ≤ depth := Nat.not_le_of_lt hdepth
      rw [Doc.text, List.append_assoc, List.append_assoc, nextToken_open hws]
      obtain ⟨-, v, hv⟩ | ⟨hne, -⟩ := parseValue_opening signed hnot k
        (ws' ++ (k.closeText ++ s))
      · rw [nextToken_close hok] at hv
        exact ⟨v, hv fuel⟩
      · rw [nextToken_close hok] at hne
        exact absurd rfl hne
  | .full k items, hok => by
      obtain ⟨n, hn⟩ := parseInner_complete items k hok
      refine ⟨n + 1, fun fuel hfuel depth hdepth ws s hws hs => ?_⟩
      obtain ⟨fuel, rfl⟩ := Nat.exists_eq_add_of_le' (Nat.le_trans (Nat.le_add_left 1 n) hfuel)
      rw [Doc.levels] at hdepth
      have hnot : ¬ maxDepth ≤ depth := by omega
      obtain ⟨v, hv⟩ := hn fuel (by omega) (depth + 1) (by omega) (Read.empty k) s
      rw [Doc.text, List.append_assoc, List.append_assoc, nextToken_open hws]
      obtain ⟨hclose, -⟩ | ⟨-, hinner⟩ := parseValue_opening signed hnot k
        (items.text ++ (k.closeText ++ s))
      · rcases hnext : nextToken signed (items.text ++ (k.closeText ++ s)) with ⟨tok, rest⟩
        rw [hnext] at hclose hv
        subst hclose
        exact absurd hv (parseInner_closing _ _ _ _ _ _)
      · exact ⟨v, (hinner fuel).trans hv⟩

theorem parseInner_complete : ∀ (items : Items) (k : Bracket), items.Ok k → ∃ n, ∀ fuel, n ≤ fuel →
    ∀ depth, depth + items.levels ≤ maxDepth → ∀ (acc : Read k) (s : Bytes), ∃ v,
      parseInner signed fuel depth k acc (nextToken signed (items.text ++ (k.closeText ++ s))) =
        .done (v, nextToken signed s)
  | .last lead doc after, k, ⟨hlead, hok, hafter⟩ => by
      obtain ⟨n, hn⟩ := parseValue_complete doc hok
      refine ⟨n + 1, fun fuel hfuel depth hdepth acc s => ?_⟩
      obtain ⟨fuel, rfl⟩ := Nat.exists_eq_add_of_le' (Nat.le_trans (Nat.le_add_left 1 n) hfuel)
      obtain ⟨v, hv⟩ := hn fuel (by omega) depth hdepth [] _ blank_nil (stops_closeText hafter k s)
      rw [nextToken_close hafter, List.nil_append] at hv
      simp only [Items.text, List.append_assoc]
      exact (parseInner_step acc hlead hv).1 rfl
  | .more lead doc after rest, k, ⟨hlead, hok, hafter, hrest⟩ => by
      obtain ⟨n, hn⟩ := parseValue_complete doc hok
      obtain ⟨m, hm⟩ := parseInner_complete rest k hrest
      refine ⟨n + m + 1, fun fuel hfuel depth hdepth acc s => ?_⟩
      obtain ⟨fuel, rfl⟩ := Nat.exists_eq_add_of_le'
        (Nat.le_trans (Nat.le_add_left 1 (n + m)) hfuel)
      rw [Items.levels, ← Nat.add_max_add_left, max_le_iff] at hdepth
      obtain ⟨v, hv⟩ := hn fuel (by omega) depth hdepth.1 [] _ blank_nil
        (stops_comma hafter (rest.text ++ (k.closeText ++ s)))
      rw [nextToken_separator hafter, List.nil_append] at hv
      obtain ⟨acc', hacc⟩ := (parseInner_step acc hlead hv).2 rfl
      obtain ⟨v', hv'⟩ := hm fuel (by omega) depth hdepth.2 acc' s
      simp only [Items.text, List.append_assoc]
      exact ⟨v', hacc.trans hv'⟩

end

/-- **The texts that are accepted.** Kind: P -/
theorem parse_iff (t : Text) : (∃ fuel v, parse signed fuel t = .done v) ↔ IsJson t.bytes := by
  constructor
  · rintro ⟨fuel, v, h⟩
    unfold parse at h
    rcases hvalue : parseValue signed fuel 0
      (nextToken signed t.bytes) with ⟨v', tok, rest⟩ | msg | _
    · rw [hvalue] at h
      obtain ⟨ws, doc, s, hws, hok, hlevels, hs, hcur⟩ := (parse_sound fuel).1 _ _ _ hvalue
      cases tok with
      | eof =>
          refine ⟨ws, doc, s, hws, (nextToken_eof hcur.symm).2, hok, ?_, hs⟩
          rwa [Nat.zero_add] at hlevels
      | string _ | number _ | true | false | null | leftBrace | rightBrace | leftBracket
        | rightBracket
        | colon | comma | invalid => cases h
    · rw [hvalue] at h
      cases h
    · rw [hvalue] at h
      cases h
  · rintro ⟨ws, doc, ws', hws, hws', hok, hlevels, hs⟩
    obtain ⟨n, hn⟩ := @parseValue_complete signed doc hok
    have hstops := hws'.stops stops_nil
    have heof : nextToken signed ws' = (.eof, []) := by
      rw [← List.append_nil ws', nextToken_append hws']
      rfl
    rw [List.append_nil] at hstops
    obtain ⟨v, hv⟩ := hn n (le_refl n) 0 (by rwa [Nat.zero_add]) ws ws' hws hstops
    refine ⟨n, v, ?_⟩
    unfold parse
    rw [hs, hv, heof]

/-! ## What is skipped -/

/-- The loop that counts brackets comes from one depth and cursor to another one. -/
def Skips (signed : Bool) (k : Bracket) (d : ℕ) (cur : Cursor) (d' : ℕ) (cur' : Cursor) : Prop :=
  ∃ c, ∀ fuel, skipNested signed k.opening k.closing (fuel + c) (Int8.ofNat d) cur =
    skipNested signed k.opening k.closing fuel (Int8.ofNat d') cur'

theorem Skips.refl (k : Bracket) (d : ℕ) (cur : Cursor) : Skips signed k d cur d cur :=
  ⟨0, fun _ => rfl⟩

theorem Skips.trans {k : Bracket} {d d' d'' : ℕ} {cur cur' cur'' : Cursor}
    (h : Skips signed k d cur d' cur')
    (h' : Skips signed k d' cur' d'' cur'') : Skips signed k d cur d'' cur'' := by
  obtain ⟨c, hc⟩ := h
  obtain ⟨c', hc'⟩ := h'
  refine ⟨c' + c, fun fuel => ?_⟩
  rw [← Nat.add_assoc, hc, hc']

/-- A round of the loop, while the depth is positive. Kind: L -/
theorem skipNested_round {k : Bracket} {d : ℕ} (hd : 0 < d) (hd' : d ≤ 127) {tok : JsonToken}
    (htok : tok ≠ .eof) (fuel : ℕ) (s : Bytes) :
    skipNested signed k.opening k.closing (fuel + 1) (Int8.ofNat d) (tok, s) =
      skipNested signed k.opening k.closing fuel
        (if tok = k.opening then Int8.ofNat d + 1 else if tok = k.closing then Int8.ofNat d - 1
          else Int8.ofNat d) (nextToken signed s) := by
  have hpos : ∀ d : ℕ, d < 128 → 0 < d → ¬ Int8.ofNat d ≤ 0 := by decide
  have hgo : ¬ (Int8.ofNat d ≤ 0 || tok = .eof) = true := by
    rw [Bool.or_eq_true, decide_eq_true_iff, decide_eq_true_iff, not_or]
    exact ⟨hpos d (by omega) hd, htok⟩
  rw [skipNested, if_neg hgo]

/-- A token that is no bracket of the kind. Kind: L -/
theorem skips_token {k : Bracket} {d : ℕ} (hd : 0 < d) (hd' : d ≤ 127) {tok : JsonToken}
    (htok : tok ≠ .eof)
    (hopen : tok ≠ k.opening) (hclose : tok ≠ k.closing) (s : Bytes) :
    Skips signed k d (tok, s) d (nextToken signed s) := by
  refine ⟨1, fun fuel => ?_⟩
  rw [skipNested_round hd hd' htok, if_neg hopen, if_neg hclose]

/-- How far a bracket changes the depth of the kind. -/
def Bracket.counts (k k' : Bracket) : ℕ := if k' = k then 1 else 0

theorem skips_opening {k : Bracket} {d : ℕ} (k' : Bracket) (hd : 0 < d) (hd' : d ≤ 127)
    (s : Bytes) :
    Skips signed k d (k'.opening, s) (d + k.counts k') (nextToken signed s) := by
  by_cases hk : k' = k
  · subst hk
    refine ⟨1, fun fuel => ?_⟩
    rw [skipNested_round hd hd' (by cases k' <;> decide), if_pos rfl, Bracket.counts, if_pos rfl,
      Int8.ofNat_add]
    rfl
  · rw [Bracket.counts, if_neg hk]
    cases k <;> cases k' <;>
      first
        | exact absurd rfl hk
        | exact skips_token hd hd' (by decide) (by decide) (by decide) s

theorem skips_closing {k : Bracket} {d : ℕ} (k' : Bracket) (hd : 0 < d + k.counts k')
    (hd' : d + k.counts k' ≤ 127) (s : Bytes) :
    Skips signed k (d + k.counts k') (k'.closing, s) d (nextToken signed s) := by
  by_cases hk : k' = k
  · subst hk
    have hback : ∀ d : ℕ, d < 127 → Int8.ofNat (d + 1) - 1 = Int8.ofNat d := by decide
    rw [Bracket.counts, if_pos rfl] at hd hd' ⊢
    refine ⟨1, fun fuel => ?_⟩
    rw [skipNested_round hd hd' (by cases k' <;> decide),
      if_neg (by cases k' <;> decide), if_pos rfl,
      hback d (by omega)]
  · rw [Bracket.counts, if_neg hk] at hd hd' ⊢
    cases k <;> cases k' <;>
      first
        | exact absurd rfl hk
        | exact skips_token hd hd' (by decide) (by decide) (by decide) s

/-- What is in front of the value of an item. Kind: L -/
theorem skips_lead {k k' : Bracket} {d : ℕ} (hd : 0 < d) (hd' : d ≤ 127) {lead : Bytes}
    (hlead : IsLead k' lead) (s : Bytes) :
    Skips signed k d (nextToken signed (lead ++ s)) d (nextToken signed s) := by
  cases k' with
  | square =>
      rw [nextToken_append hlead]
      exact Skips.refl k d _
  | curly =>
      obtain ⟨ws, key, ws', ws'', hws, hkey, hws', hws'', rfl⟩ := hlead
      obtain ⟨v, hv⟩ := (isString_iff signed key).mp hkey
      have hstring := nextToken_mark hv hws (fun _ h => by
        cases h) (ws' ++ (text ":" ++ (ws'' ++ s)))
      have hcolon : nextToken signed (ws' ++ (text ":" ++ (ws'' ++ s))) = (.colon, ws'' ++ s) :=
        @nextToken_mark signed .colon (text ":") _ rfl hws' (fun _ h => by cases h) (ws'' ++ s)
      simp only [List.append_assoc]
      rw [hstring, ← @nextToken_append signed ws'' hws'' s]
      refine Skips.trans (skips_token hd hd' (fun h => by
        cases h) (by cases k <;> exact fun h => by cases h)
        (by cases k <;> exact fun h => by cases h) _) ?_
      rw [hcolon]
      exact skips_token hd hd' (by decide) (by cases k <;> decide) (by cases k <;> decide) _

theorem JsonToken.IsScalar.no_bracket {tok : JsonToken} (h : tok.IsScalar) (k : Bracket) :
    tok ≠ .eof ∧ tok ≠ k.opening ∧ tok ≠ k.closing := by
  refine ⟨?_, ?_, ?_⟩
  · rintro rfl
    exact h
  · rintro rfl
    cases k <;> exact h
  · rintro rfl
    cases k <;> exact h

mutual

/-- **A whole value is skipped**, whatever may stand behind it. Kind: P -/
theorem skips_doc (k : Bracket) : ∀ doc : Doc, doc.Ok → ∀ d, 0 < d → d + doc.nested k ≤ 127 →
    ∀ ws s, Blank ws → Stops s →
      Skips signed k d (nextToken signed (ws ++ (doc.text ++ s))) d (nextToken signed s)
  | .scalar t, hok => by
      intro d hd hd' ws s hws hs
      obtain ⟨tok, hscalar, hsp⟩ := (isScalar_iff signed t).mp hok
      obtain ⟨heof, hopen, hclose⟩ := hscalar.no_bracket k
      rw [Doc.text, nextToken_of_spells hsp hws (fun _ _ => hs)]
      exact skips_token hd hd' heof hopen hclose s
  | .empty k' ws', hok => by
      intro d hd hd' ws s hws hs
      have hcounts : d + k.counts k' ≤ 127 := hd'
      have hle : d ≤ 127 := le_trans (Nat.le_add_right _ _) hcounts
      have hopen := @skips_opening signed k d k' hd hle (ws' ++ (k'.closeText ++ s))
      rw [nextToken_close hok] at hopen
      rw [Doc.text, List.append_assoc, List.append_assoc, nextToken_open hws]
      exact hopen.trans (skips_closing k' (Nat.add_pos_left hd _) hcounts s)
  | .full k' items, hok => by
      intro d hd hd' ws s hws hs
      have hcounts : d + k.counts k' + items.nested k ≤ 127 := by
        rw [Doc.nested] at hd'
        rw [Bracket.counts]
        omega
      have hopen := @skips_opening signed k d k' hd (by omega) (items.text ++ (k'.closeText ++ s))
      have hitems := skips_items k items k' hok (d + k.counts k') (by omega) hcounts s
      have hend := @nextToken_close signed [] blank_nil k' s
      rw [List.nil_append] at hend
      rw [hend] at hitems
      rw [Doc.text, List.append_assoc, List.append_assoc, nextToken_open hws]
      exact (hopen.trans hitems).trans (skips_closing k' (by omega) (by omega) s)

theorem skips_items (k : Bracket) : ∀ (items : Items) (k' : Bracket), items.Ok k' → ∀ d, 0 < d →
    d + items.nested k ≤ 127 → ∀ s,
      Skips signed k d (nextToken signed (items.text ++ (k'.closeText ++ s)))
      d (nextToken signed (k'.closeText ++ s))
  | .last lead doc after, k', ⟨hlead, hok, hafter⟩ => by
      intro d hd hd' s
      have hle : d ≤ 127 := le_trans (Nat.le_add_right _ _) hd'
      have hdoc := skips_doc k doc hok d hd hd' [] _ blank_nil (stops_closeText hafter k' s)
      rw [nextToken_append hafter] at hdoc
      simp only [Items.text, List.append_assoc]
      exact (skips_lead hd hle hlead _).trans hdoc
  | .more lead doc after rest, k', ⟨hlead, hok, hafter, hrest⟩ => by
      intro d hd hd' s
      rw [Items.nested, ← Nat.add_max_add_left, max_le_iff] at hd'
      have hle : d ≤ 127 := le_trans (Nat.le_add_right _ _) hd'.1
      have hdoc := skips_doc k doc hok d hd hd'.1 [] _ blank_nil
        (stops_comma hafter (rest.text ++ (k'.closeText ++ s)))
      rw [nextToken_separator hafter] at hdoc
      have hcomma := @skips_token signed k d hd hle .comma (by decide) (by cases k <;> decide)
        (by cases k <;> decide) (rest.text ++ (k'.closeText ++ s))
      simp only [Items.text, List.append_assoc]
      exact ((skips_lead hd hle hlead _).trans (hdoc.trans hcomma)).trans
        (skips_items k rest k' hrest d hd hd'.2 s)

end

/-- The loop ends behind the closing bracket. Kind: L -/
theorem skipNested_last (k : Bracket) (fuel : ℕ) (s : Bytes) :
    skipNested signed k.opening k.closing (fuel + 2) (Int8.ofNat 1) (k.closing, s) =
      .done (nextToken signed s) := by
  have hone : Int8.ofNat 1 - 1 = 0 := by decide
  rw [skipNested_round (by decide) (by decide) (by cases k <;> decide),
    if_neg (by cases k <;> decide),
    if_pos rfl, hone]
  rfl

theorem skipValue_opening (k : Bracket) (fuel : ℕ) (s : Bytes) :
    skipValue signed fuel (k.opening, s) =
      skipNested signed k.opening k.closing fuel (Int8.ofNat 1) (nextToken signed s) := by
  cases k <;> rfl

/-- **A value is skipped as a whole** if its brackets are not nested deeper than the counter counts.
Kind: P -/
theorem skipValue_spec {doc : Doc} (hok : doc.Ok) (hnested : ∀ k ∈ doc.bracket, doc.nested k ≤ 127)
    {ws s : Bytes} (hws : Blank ws) (hs : Stops s) : ∃ n, ∀ fuel, n ≤ fuel →
      skipValue signed fuel (nextToken signed (ws ++ (doc.text ++ s))) = .done
        (nextToken signed s) := by
  cases doc with
  | scalar t =>
      obtain ⟨tok, hscalar, hsp⟩ := (isScalar_iff signed t).mp hok
      refine ⟨0, fun fuel _ => ?_⟩
      rw [Doc.text, nextToken_of_spells hsp hws (fun _ _ => hs)]
      cases tok with
      | string _ | number _ | true | false | null => rfl
      | leftBrace | rightBrace | leftBracket | rightBracket | colon | comma | eof | invalid =>
          exact absurd hscalar id
  | empty k ws' =>
      refine ⟨2, fun fuel hfuel => ?_⟩
      obtain ⟨fuel, rfl⟩ := Nat.exists_eq_add_of_le' hfuel
      rw [Doc.text, List.append_assoc, List.append_assoc, nextToken_open hws, skipValue_opening,
        nextToken_close hok, skipNested_last]
  | full k items =>
      have hle := hnested k rfl
      rw [Doc.nested, if_pos rfl] at hle
      obtain ⟨c, hc⟩ := @skips_items signed k items k hok 1 (by decide) (by omega) s
      have hend := @nextToken_close signed [] blank_nil k s
      rw [List.nil_append] at hend
      refine ⟨2 + c, fun fuel hfuel => ?_⟩
      obtain ⟨fuel, rfl⟩ := Nat.exists_eq_add_of_le' hfuel
      rw [Doc.text, List.append_assoc, List.append_assoc, nextToken_open hws, skipValue_opening,
        ← Nat.add_assoc, hc, hend, skipNested_last]

/-- **The parser accepts the texts of JSON that are not too deep, and a value that is skipped is
skipped as a whole.** Kind: P -/
theorem accepts_and_skips (signed : Bool) :
    (∀ t : Text, (∃ fuel v, parse signed fuel t = .done v) ↔ IsJson t.bytes) ∧
      ∀ (ws : Bytes) (doc : Doc) (s : Bytes), Blank ws → doc.Ok → Stops s →
        (∀ k ∈ doc.bracket, doc.nested k ≤ 127) → ∃ n, ∀ fuel, n ≤ fuel →
          skipValue signed fuel (nextToken signed (ws ++ (doc.text ++ s))) = .done
            (nextToken signed s) :=
  ⟨parse_iff, fun _ _ _ hws hok hs hnested => skipValue_spec hok hnested hws hs⟩

/-- The array of an empty object is skipped. Kind: L -/
theorem accepts_and_skips_nested :
    ∃ n, ∀ fuel, n ≤ fuel → skipValue true fuel (nextToken true (text "[\x7b\x7d],")) =
      .done (nextToken true (text ",")) :=
  (accepts_and_skips true).2 [] (.full .square (.last [] (.empty .curly []) []))
    (text ",") blank_nil
    ⟨blank_nil, blank_nil, blank_nil⟩ (stops_cons (by decide) []) (by rintro k ⟨⟩; decide)

/-- A string of the standard: there is no control character in it. -/
def IsStandardString (s : Bytes) : Prop :=
  ∃ chars, IsChars chars ∧ (∀ c ∈ chars, 0x20 ≤ c) ∧ s = ch '"' :: (chars ++ text "\"")

/-- A tab between quotes is accepted. Kind: L -/
theorem accepts_control :
    (∃ fuel v, parse true fuel { bytes := text "\"\t\"", fits := by decide } = .done v) ∧
      ¬ IsStandardString (text "\"\t\"") := by
  constructor
  · exact ⟨1, .string (text "\t"), rfl⟩
  · rintro ⟨chars, -, hcontrol, heq⟩
    have htab : chars ++ text "\"" = [9] ++ text "\"" := (List.cons.inj heq).2.symm
    rw [List.append_cancel_right_eq] at htab
    exact absurd (hcontrol 9 (by rw [htab]; exact List.mem_cons_self)) (by decide)

end CxyCompiler.Stdlib.Json
