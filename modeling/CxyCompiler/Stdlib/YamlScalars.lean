import CxyCompiler.Stdlib.YamlLines

/-!
# Plain and quoted scalars

* `Unbroken`: a plain scalar does not end inside a text.
* `plainToken`: the token of a plain scalar.
* `scans_plain`, `scans_plain_key`: **a plain text is read as its token**, as a value and as a key.
* `isWord`: a single word of printable characters; `isPlain_word`.
* `scans_quoted`, `scans_quoted_key`: **a quoted text is read as the string it was written for**.
-/

namespace CxyCompiler.Stdlib.Yaml

open CxyCompiler.Lib.Numeral (forall_byte)

variable {signed : Bool} {b : Behind}

/-! ## Plain scalars -/

/-- A plain scalar does not end inside a text that `next` stands behind. -/
def Unbroken (next : Option UInt8) : Bytes → Prop
  | [] => True
  | c :: s =>
      isStart c = true ∧
        (c = ch ':' → s.head?.or next ≠ some (ch ' ') ∧ s.head?.or next ≠ some (ch '\n')) ∧
        Unbroken next s

/-- What is known of a text as a number. -/
def numberScan : Bytes → ℕ → NumberScan → Bytes → NumberScan
  | _, _, n, [] => n
  | acc, i, n, c :: s => numberScan (acc ++ [c]) (i + 1) (n.step (acc ++ [c]) i c) s

/-- The token of a plain scalar. -/
def plainToken (s : Bytes) : Token :=
  (classify s (numberScan [] 0 ⟨true, false, false, false⟩ s)).getD .invalid

theorem scalarEnds_eq_false {c : UInt8} {s : Bytes} (hc : isStart c = true)
    (hcolon : c = ch ':' → s.head? ≠ some (ch ' ') ∧ s.head? ≠ some (ch '\n')) :
    scalarEnds false c s = false := by
  obtain ⟨hb, hn, hcomment⟩ := isStart_iff.mp hc
  by_cases h : c = ch ':'
  · obtain ⟨h₁, h₂⟩ := hcolon h
    simp [scalarEnds, hb, hn, hcomment, h₁, h₂]
  · simp [scalarEnds, hb, hn, hcomment, h]

/-- **A plain scalar is read up to its end.** Kind: L -/
theorem scanScalar_unbroken {tail : Bytes}
    (htail : ∀ c s, tail = c :: s → scalarEnds false c s = true) :
    ∀ (s acc : Bytes) (i : ℕ) (n : NumberScan), Unbroken tail.head? s →
      (∀ c ∈ s, isAscii c = true) →
      scanScalar signed false acc i n (s ++ tail) = ((acc ++ s, numberScan acc i n s), tail)
  | [], acc, i, n, _, _ => by
      cases tail with
      | nil => simp [scanScalar, numberScan]
      | cons c t =>
          rw [List.nil_append, scanScalar, htail c t rfl, if_pos rfl, List.append_nil]
          rfl
  | c :: s, acc, i, n, hs, hascii => by
      obtain ⟨hc, hascii⟩ := List.forall_mem_cons.mp hascii
      have hends : scalarEnds false c (s ++ tail) = false := by
        refine scalarEnds_eq_false hs.1 ?_
        rw [List.head?_append]
        exact hs.2.1
      rw [List.cons_append, scanScalar, hends]
      simp only [Bool.false_eq_true, if_false, putChar_ascii signed hc]
      rw [scanScalar_unbroken htail s _ _ _ hs.2.2 hascii, numberScan]
      simp

/-- The scalar behind a first character without a meaning of its own. -/
def PlainStart (c : UInt8) (s : Bytes) : Prop :=
  isStart c = true ∧ c ∉ text ":\"'\x7b\x7d[]|>&*" ∧
    (c = ch '-' → s.take 2 ≠ text "--" ∧ s.head? ≠ some (ch ' ') ∧ s.head? ≠ some (ch '\n')) ∧
    (c = ch '.' → s.take 2 ≠ text "..")

theorem scanToken_plain {again : Lexer → Lexed} {c : UInt8} {s : Bytes} (h : PlainStart c s)
    (S : List ℕ) : scanToken signed again (.inLine (c :: s) S) =
      (Lexer.inLine (c :: s) S).scanned (readScalar signed false (c :: s)) := by
  obtain ⟨hc, hspecial, hdash, hdot⟩ := h
  obtain ⟨hb, hn, hcomment⟩ := isStart_iff.mp hc
  have hne : ∀ d ∈ text ":\"'\x7b\x7d[]|>&*", c ≠ d := by
    rintro d hd rfl
    exact hspecial hd
  have hdrop : (c :: s).dropWhile isBlank = c :: s := List.dropWhile_cons_of_neg (by simp [hb])
  obtain ⟨h₁, h₂, h₃, h₄, h₅, h₆, h₇, h₈, h₉, h₁₀, h₁₁⟩ :
      c ≠ ch ':' ∧ c ≠ ch '"' ∧ c ≠ ch '\'' ∧ c ≠ ch '{' ∧ c ≠ ch '}' ∧ c ≠ ch '[' ∧ c ≠ ch ']' ∧
        c ≠ ch '|' ∧ c ≠ ch '>' ∧ c ≠ ch '&' ∧ c ≠ ch '*' := by
    refine ⟨?_, ?_, ?_, ?_, ?_, ?_, ?_, ?_, ?_, ?_, ?_⟩ <;> exact hne _ (by decide)
  unfold scanToken
  simp only [Lexer.inLine, hdrop, if_neg hn, if_neg hcomment, lt_irrefl, decide_false]
  by_cases hd : c = ch '-'
  · obtain ⟨hd₁, hd₂, hd₃⟩ := hdash hd
    simp only [if_pos hd, if_neg hd₁, hd₂, hd₃, decide_false, Bool.or_self, Bool.false_eq_true,
      if_false]
  · by_cases hp : c = ch '.'
    · simp only [if_neg hd, if_pos hp, if_neg (hdot hp)]
    · simp only [if_neg hd, if_neg hp, h₁, h₂, h₃, h₄, h₅, h₆, h₇, h₈, h₉, h₁₀, h₁₁, decide_false,
        Bool.or_self, Bool.false_eq_true, if_false, ite_self]

/-- A text that can stand as a plain scalar, with `next` behind it. -/
structure IsPlain (next : Option UInt8) (s : Bytes) : Prop where
  ascii : ∀ c ∈ s, isAscii c = true
  unbroken : Unbroken next s
  noSpace : ∀ c ∈ s, isSpace c = false
  start : ∃ c t, s = c :: t ∧ ∀ tail : Bytes, tail.head? = next → PlainStart c (t ++ tail)

theorem rdropWhile_noSpace {s : Bytes} (h : ∀ c ∈ s, isSpace c = false) :
    s.rdropWhile isSpace = s := by
  rw [List.rdropWhile_eq_self_iff]
  intro hne
  simp [h _ (List.getLast_mem hne)]

/-- **A plain text is read as its token.** Kind: L -/
theorem lexNext_plain {s tail : Bytes} (h : IsPlain tail.head? s)
    (htail : ∀ c t, tail = c :: t → scalarEnds false c t = true) (S : List ℕ) :
    lexNext signed (.inLine (s ++ tail) S) = some (plainToken s, .inLine tail S) := by
  obtain ⟨c, t, hst, hstart⟩ := h.start
  have hread : readScalar signed false (s ++ tail) =
      (classify s (numberScan [] 0 ⟨true, false, false, false⟩ s), tail) := by
    unfold readScalar
    rw [scanScalar_unbroken htail s [] 0 _ h.unbroken h.ascii]
    simp only [List.nil_append, rdropWhile_noSpace h.noSpace]
  have hsome : classify s (numberScan [] 0 ⟨true, false, false, false⟩ s) = some
    (plainToken s) := by
    have hne : s ≠ [] := by
      rw [hst]
      exact List.cons_ne_nil _ _
    unfold plainToken classify
    rw [if_neg hne]
    split
    · rfl
    split
    · rfl
    split
    · rfl
    split
    · rfl
    split <;> rfl
  rw [hsome] at hread
  rw [lexNext_inLine (by simp [hst])]
  have hcons : s ++ tail = c :: (t ++ tail) := by rw [hst]; rfl
  rw [hcons] at hread ⊢
  rw [scanToken_plain (hstart tail rfl), hread]
  rfl

theorem Follows.ends {tail : Bytes} (h : Follows b tail) :
    ∀ c t, tail = c :: t → scalarEnds false c t = true := by
  intro c t hct
  unfold Follows at h
  split at h
  · rw [h] at hct
    cases hct
  · obtain ⟨s, rfl⟩ := h
    obtain ⟨rfl, rfl⟩ := List.cons.inj hct
    rfl

/-- The character behind a value. -/
def Behind.next (b : Behind) : Option UInt8 := if b = .nothing then none else some (ch '\n')

theorem Follows.head {tail : Bytes} (h : Follows b tail) : tail.head? = b.next := by
  unfold Follows at h
  unfold Behind.next
  split at h
  · rename_i hb
    rw [h, if_pos hb]
    rfl
  · rename_i hb
    obtain ⟨s, rfl⟩ := h
    rw [if_neg hb]
    rfl

/-- **A plain text is read as its token** as a value. Kind: L -/
theorem scans_plain {s : Bytes} (h : IsPlain b.next s) : Scans signed b s (plainToken s) := by
  obtain ⟨c, t, hst, hstart⟩ := h.start
  have hc : isStart c = true := by
    have := h.unbroken
    rw [hst] at this
    exact this.1
  refine ⟨⟨c, t, hst, hc⟩, fun tail S htail => ?_⟩
  rw [← htail.head] at h
  exact lexNext_plain h htail.ends S

/-- **A plain text is read as its token** in front of a colon. Kind: L -/
theorem scans_plain_key {s : Bytes} (h : IsPlain (some (ch ':')) s)
    (hstring : plainToken s = .string s) : Key.Scans signed ⟨s, s⟩ := by
  obtain ⟨c, t, hst, hstart⟩ := h.start
  have hc : isStart c = true := by
    have := h.unbroken
    rw [hst] at this
    exact this.1
  refine ⟨⟨c, t, hst, hc⟩, fun d u S hd => ?_⟩
  have hends : ∀ c' t', ch ':' :: d :: u = c' :: t' → scalarEnds false c' t' = true := by
    intro c' t' he
    obtain ⟨rfl, rfl⟩ := List.cons.inj he
    rcases hd with rfl | rfl <;> rfl
  have := @lexNext_plain signed s (ch ':' :: d :: u) h hends S
  rwa [hstring] at this

/-! ## Words -/

def isWordChar (c : UInt8) : Bool := 33 ≤ c && c < 127 && c ≠ ch '#'

/-- A single word: printable characters that no colon ends, the first of which does not indicate
anything; it begins neither an item nor the line between two documents. -/
def isWord : Bytes → Bool
  | [] => false
  | c :: s =>
      (c :: s).all isWordChar && (c :: s).getLast? ≠ some (ch ':') &&
        c ∉ text ":\"'\x7b\x7d[]|>&*" && !(c = ch '-' && (s = [] || s.take 2 = text "--")) &&
        !(c = ch '.' && s.take 2 = text "..")

theorem isWordChar_spec {c : UInt8} (h : isWordChar c = true) :
    isAscii c = true ∧ isStart c = true ∧ isSpace c = false ∧ c ≠ ch ' ' ∧ c ≠ ch '\n' :=
  forall_byte (p := fun c => isWordChar c = true →
    isAscii c = true ∧ isStart c = true ∧ isSpace c = false ∧ c ≠ ch ' ' ∧ c ≠ ch '\n')
    (by decide +kernel) c h

/-- A colon inside is followed by a character of the word. Kind: L -/
theorem unbroken_word (next : Option UInt8) : ∀ s : Bytes, (∀ c ∈ s, isWordChar c = true) →
    s.getLast? ≠ some (ch ':') → Unbroken next s
  | [], _, _ => trivial
  | [c], h, hlast =>
      ⟨(isWordChar_spec (h c List.mem_cons_self)).2.1, fun hc => absurd (congrArg some hc) hlast,
        trivial⟩
  | c :: d :: s, h, hlast => by
      obtain ⟨hc, hs⟩ := List.forall_mem_cons.mp h
      obtain ⟨-, -, -, hspace, hline⟩ := isWordChar_spec (hs d List.mem_cons_self)
      refine ⟨(isWordChar_spec hc).2.1, fun _ => ⟨?_, ?_⟩, unbroken_word next _ hs ?_⟩
      · simpa using hspace
      · simpa using hline
      · rwa [List.getLast?_cons_cons] at hlast

/-- Two characters that a word does not begin with are not made by what stands behind it. Kind: L -/
theorem take_two_append {a : UInt8} {s tail : Bytes} (h : s.take 2 ≠ [a, a])
    (htail : tail.head? ≠ some a) : (s ++ tail).take 2 ≠ [a, a] := by
  intro htake
  match s, tail with
  | [], [] => cases htake
  | [], d :: _ => exact htail (congrArg some (List.cons.inj htake).1)
  | [_], [] => cases htake
  | [_], d :: _ => exact htail (congrArg some (List.cons.inj (List.cons.inj htake).2).1)
  | _ :: _ :: _, _ => exact h htake

theorem isPlain_word {next : Option UInt8} (hnext : next ≠ some (ch '-') ∧ next ≠ some (ch '.'))
    {s : Bytes} (h : isWord s = true) : IsPlain next s := by
  cases s with
  | nil => cases h
  | cons c s =>
      simp only [isWord, Bool.and_eq_true, List.all_eq_true, decide_eq_true_eq, Bool.not_eq_true',
        Bool.and_eq_false_iff, decide_eq_false_iff_not, Bool.or_eq_false_iff] at h
      obtain ⟨⟨⟨⟨hall, hlast⟩, hspecial⟩, hdash⟩, hdot⟩ := h
      obtain ⟨-, hstart, -⟩ := isWordChar_spec (hall c List.mem_cons_self)
      refine ⟨fun d hd => (isWordChar_spec (hall d hd)).1, unbroken_word next _ hall hlast,
        fun d hd => (isWordChar_spec (hall d hd)).2.2.1, c, s, rfl, fun tail htail =>
        ⟨hstart, hspecial, fun hc => ?_, fun hc => ?_⟩⟩
      · obtain ⟨hne, htwo⟩ := hdash.resolve_left fun h => h hc
        obtain ⟨d, t, rfl⟩ := List.exists_cons_of_ne_nil hne
        obtain ⟨-, -, -, hspace, hline⟩ :=
          isWordChar_spec (hall d (List.mem_cons_of_mem _ List.mem_cons_self))
        exact ⟨take_two_append htwo (htail ▸ hnext.1), by simpa using hspace, by simpa using hline⟩
      · exact take_two_append (hdot.resolve_left fun h => h hc) (htail ▸ hnext.2)

theorem Behind.next_ne (b : Behind) : b.next ≠ some (ch '-') ∧ b.next ≠ some (ch '.') := by
  unfold Behind.next
  split <;> decide

/-- **A word is read as its token.** Kind: L -/
theorem scans_word {s : Bytes} {token : Token} (h : isWord s = true) (ht : plainToken s = token) :
    Scans signed b s token :=
  ht ▸ scans_plain (isPlain_word b.next_ne h)

/-! ## Quoted scalars -/

theorem readQuotedString_escape {e d : UInt8} (h : unescape e = some d) (acc rest : Bytes) :
    readQuotedString signed (ch '"') acc (ch '\\' :: e :: rest) =
      readQuotedString signed (ch '"') (acc ++ putChar signed d) rest := by
  rw [readQuotedString.eq_def]
  have hq : ch '\\' ≠ ch '"' := by decide
  simp only [if_neg hq, decide_true, Bool.and_self, if_true, h]

theorem readQuotedString_char {c : UInt8} (hq : c ≠ ch '"') (hs : c ≠ ch '\\') (acc rest : Bytes) :
    readQuotedString signed (ch '"') acc (c :: rest) =
      readQuotedString signed (ch '"') (acc ++ putChar signed c) rest := by
  rw [readQuotedString.eq_def]
  simp only [if_neg hq, hs, decide_false, Bool.false_and, Bool.false_eq_true, if_false]

/-- **A quoted text is read as the string it was written for**, if it is ASCII. Kind: L -/
theorem readQuotedString_escaped (rest : Bytes) : ∀ (s acc : Bytes), (∀ c ∈ s, isAscii c = true) →
    readQuotedString signed (ch '"') acc (s.flatMap (escapeChar signed) ++ ch '"' :: rest) =
      (some (.string (acc ++ s)), rest)
  | [], acc, _ => by
      rw [List.flatMap_nil, List.nil_append, readQuotedString.eq_def]
      simp
  | c :: s, acc, h => by
      obtain ⟨hc, hs⟩ := List.forall_mem_cons.mp h
      have ih := readQuotedString_escaped rest s (acc ++ [c]) hs
      rw [List.append_assoc, List.singleton_append] at ih
      have step : ∀ e, unescape e = some c →
          readQuotedString signed (ch '"') acc
              ([ch '\\', e] ++ (s.flatMap (escapeChar signed) ++ ch '"' :: rest)) =
            readQuotedString signed (ch '"') (acc ++ [c])
              (s.flatMap (escapeChar signed) ++ ch '"' :: rest) := by
        intro e he
        rw [List.cons_append, List.singleton_append, readQuotedString_escape he,
          putChar_ascii signed hc]
      rw [List.flatMap_cons, List.append_assoc, ← ih, escapeChar]
      by_cases h₁ : c = ch '\n'
      · rw [if_pos h₁]
        exact step (ch 'n') (by rw [h₁]; decide)
      by_cases h₂ : c = ch '\t'
      · rw [if_neg h₁, if_pos h₂]
        exact step (ch 't') (by rw [h₂]; decide)
      by_cases h₃ : c = ch '\r'
      · rw [if_neg h₁, if_neg h₂, if_pos h₃]
        exact step (ch 'r') (by rw [h₃]; decide)
      by_cases h₄ : c = ch '\\'
      · rw [if_neg h₁, if_neg h₂, if_neg h₃, if_pos h₄]
        exact step (ch '\\') (by rw [h₄]; decide)
      by_cases h₅ : c = ch '"'
      · rw [if_neg h₁, if_neg h₂, if_neg h₃, if_neg h₄, if_pos h₅]
        exact step (ch '"') (by rw [h₅]; decide)
      rw [if_neg h₁, if_neg h₂, if_neg h₃, if_neg h₄, if_neg h₅, putChar_ascii signed hc,
        List.singleton_append, readQuotedString_char h₅ h₄, putChar_ascii signed hc]

/-- The text of a quoted scalar. -/
def quoted (signed : Bool) (s : Bytes) : Bytes :=
  text "\"" ++ s.flatMap (escapeChar signed) ++ text "\""

theorem lexNext_quoted {s : Bytes} (h : ∀ c ∈ s, isAscii c = true) (tail : Bytes) (S : List ℕ) :
    lexNext signed (.inLine (quoted signed s ++ tail) S) = some (.string s, .inLine tail S) := by
  have htext : quoted signed s ++ tail =
      ch '"' :: (s.flatMap (escapeChar signed) ++ ch '"' :: tail) := by
    simp [quoted, text]
  have hread := @readQuotedString_escaped signed tail s [] h
  rw [htext, lexNext_inLine (by simp)]
  have hscan : ∀ again S, scanToken signed again
      (.inLine (ch '"' :: (s.flatMap (escapeChar signed) ++ ch '"' :: tail)) S) =
        (Lexer.inLine [] S).scanned (readQuotedString signed (ch '"') []
          (s.flatMap (escapeChar signed) ++ ch '"' :: tail)) := fun _ _ => rfl
  rw [hscan, hread]
  rfl

theorem scans_quoted {s : Bytes} (h : ∀ c ∈ s, isAscii c = true) :
    Scans signed b (quoted signed s) (.string s) :=
  ⟨⟨_, _, rfl, by decide⟩, fun tail S _ => lexNext_quoted h tail S⟩

theorem scans_quoted_key {s : Bytes} (h : ∀ c ∈ s, isAscii c = true) :
    Key.Scans signed ⟨quoted signed s, s⟩ :=
  ⟨⟨_, _, rfl, by decide⟩, fun _ _ S _ => lexNext_quoted h _ S⟩

end CxyCompiler.Stdlib.Yaml
