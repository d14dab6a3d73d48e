import CxyCompiler.Core.Format

/-!
# Printing a text escaped and reading it back (`core/utils.c`, `core/format.c`)

The printer of `{sE}` reads escape sequences before it prints, and `escapeString` knows other
sequences than the printer writes.

* `Round`, `formatEscaped_round` — what a round of the printer passes, and what it is read back as.
* `Kept` — the texts in which a backslash stands in front of a quote, of a backslash and a quote, or
  of a digit that is not octal, and every quote is behind a backslash.
* `escapes_agree_iff` — **exactly these texts are read back**, and the escape sequences for which
  `convertEscapeSeq` and `escapeString` agree.
-/

namespace CxyCompiler.Core

open CxyCompiler.Lib.Numeral CxyCompiler.Lib.Utf8

variable {k n m : ℕ} {p r s t u v w : List UInt8} {b c x y : UInt8} {ch : UInt32} {cs : List Char}

/-- A whole text. -/
def escapeText (t : List UInt8) : List UInt8 := escapeString t t.length

/-! ## What a printed character is read back as -/

theorem encodeUtf8_low (h : ch < 0x80) : encodeUtf8 ch = some [ch.toUInt8] := by
  unfold encodeUtf8
  rw [if_pos h]

/-- A character outside of ASCII is printed without octets of ASCII. Kind: L -/
theorem encodeUtf8_high (h : ¬ ch < 0x80) (hv : encodeUtf8 ch = some v) :
    v ≠ [] ∧ ∀ b ∈ v, 0x80 ≤ b.toNat := by
  have hmark : ∀ (k q : ℕ) (m x : UInt32), m.toNat = 2 ^ k * q → x.toNat < 2 ^ k →
    2 ^ k * (q + 1) ≤ 256 →
      0x80 ≤ 2 ^ k * q → 0x80 ≤ (m ||| x).toUInt8.toNat := by
    intro k q m x hm hx hle hq
    rw [toUInt8_mark k q hm hx, toNat_octet (by rw [Nat.mul_succ] at hle; omega)]
    omega
  have hlow : ∀ x : UInt32, 0x80 ≤ ((0x80 : UInt32) ||| (x &&& 0x3F)).toUInt8.toNat := fun x =>
    hmark 6 2 _ _ rfl (by rw [toNat_low]; omega) (by decide) (by decide)
  unfold encodeUtf8 at hv
  rw [if_neg h] at hv
  split_ifs at hv with h2 h3 h4
  · obtain rfl := Option.some.inj hv
    rw [UInt32.lt_iff_toNat_lt] at h2
    have hfirst := hmark 6 3 0xC0 (ch >>> UInt32.ofNat 6) rfl
      (by rw [toNat_shiftRight _ _ (by decide)]; change _ < 2048 at h2; omega) (by decide)
        (by decide)
    exact ⟨List.cons_ne_nil _ _, List.forall_mem_cons.mpr ⟨hfirst,
      List.forall_mem_cons.mpr ⟨hlow _, List.forall_mem_nil _⟩⟩⟩
  · obtain rfl := Option.some.inj hv
    rw [UInt32.lt_iff_toNat_lt] at h3
    have hfirst := hmark 5 7 0xE0 (ch >>> UInt32.ofNat 12) rfl
      (by rw [toNat_shiftRight _ _ (by decide)]; change _ < 65536 at h3; omega) (by decide)
        (by decide)
    exact ⟨List.cons_ne_nil _ _, List.forall_mem_cons.mpr ⟨hfirst,
      List.forall_mem_cons.mpr ⟨hlow _, List.forall_mem_cons.mpr ⟨hlow _, List.forall_mem_nil _⟩⟩⟩⟩
  · obtain rfl := Option.some.inj hv
    rw [UInt32.lt_iff_toNat_lt] at h4
    have hfirst := hmark 4 15 0xF0 (ch >>> UInt32.ofNat 18) rfl
      (by rw [toNat_shiftRight _ _ (by decide)]; change _ < 2097152 at h4; omega) (by decide)
        (by decide)
    exact ⟨List.cons_ne_nil _ _, List.forall_mem_cons.mpr ⟨hfirst, List.forall_mem_cons.mpr ⟨hlow _,
      List.forall_mem_cons.mpr ⟨hlow _, List.forall_mem_cons.mpr ⟨hlow _, List.forall_mem_nil _⟩⟩⟩⟩⟩

/-- The characters with an escape sequence are of ASCII, and the quote is the one that is not read
back. Kind: L -/
theorem escapeOf_spec (h : escapeOf ch = some c) : ch < 0x80 ∧
    (ch = 39 ∧ c = ascii '\'' ∨ ch = 0 ∧ c = ascii '0' ∨
      ch ≠ 39 ∧ ch ≠ 0 ∧ ∀ next, escapeByte c next = some ch.toUInt8) := by
  unfold escapeOf at h
  split_ifs at h with h0 h10 h9 h11 h13 h7 h8 h34 h92 h39
  all_goals
    obtain rfl := Option.some.inj h
    subst ch
  · exact ⟨by decide, Or.inr (Or.inl ⟨rfl, rfl⟩)⟩
  all_goals first
    | exact ⟨by decide, Or.inr (Or.inr ⟨by decide, by decide, fun _ => rfl⟩)⟩
    | exact ⟨by decide, Or.inl ⟨rfl, rfl⟩⟩

/-- **What a printed character is read back as**: a quote with its backslash, a NUL as a backslash
in front of a digit, any other character as it is. Kind: L -/
theorem escapeText_printed (h : printUtf8 ch true = some u) (t : List UInt8) :
    ch = 39 ∧ escapeText (u ++ t) = ascii '\\' :: ascii '\'' :: escapeText t ∨
    ch = 0 ∧ escapeText (u ++ t) =
      (if isdigit (charAt t 0) = true then ascii '\\' else 0) :: escapeText t ∨
    ch ≠ 39 ∧ ch ≠ 0 ∧ ∃ v, encodeUtf8 ch = some v ∧ escapeText (u ++ t) = v ++ escapeText t := by
  unfold printUtf8 at h
  rw [if_pos rfl] at h
  cases hc : escapeOf ch with
  | some c =>
      rw [hc] at h
      obtain rfl := Option.some.inj h
      obtain ⟨hlow, ⟨rfl, rfl⟩ | ⟨rfl, rfl⟩ | ⟨hquote, hzero, hknown⟩⟩ := escapeOf_spec hc
      · left
        refine ⟨rfl, (escapeString_unknown rfl).trans ?_⟩
        rw [escapeString_cons (by decide)]
        rfl
      · right; left
        refine ⟨rfl, escapeString_known ?_⟩
        change (if isdigit (charAt t 0) = true then some (ascii '\\') else some 0) = _
        split_ifs <;> rfl
      · right; right
        exact ⟨hquote, hzero, _, encodeUtf8_low hlow, escapeString_known (hknown _)⟩
  | none =>
      rw [hc] at h
      have hnot : ∀ {d : UInt32}, escapeOf d ≠ none → ch ≠ d := by
        rintro d hd rfl
        exact hd hc
      refine Or.inr (Or.inr ⟨hnot (by decide), hnot (by decide), u, h, escapeString_append ?_⟩)
      intro hmem
      by_cases hlow : ch < 0x80
      · rw [encodeUtf8_low hlow] at h
        obtain rfl := Option.some.inj h
        have heq := List.mem_singleton.mp hmem
        refine hnot (d := 92) (by decide) (Iff.mp UInt32.toNat_inj ?_)
        have htoNat := congrArg UInt8.toNat heq
        rw [UInt32.toNat_toUInt8] at htoNat
        rw [UInt32.lt_iff_toNat_lt] at hlow
        change 92 = ch.toNat % 256 at htoNat
        change ch.toNat < 128 at hlow
        change ch.toNat = 92
        omega
      · exact absurd ((encodeUtf8_high hlow h).2 _ hmem) (by decide)

/-! ## A round of the printer -/

theorem readChar_low (h : b.toNat < 0x80)
    (n : ℕ) : readChar (b :: s) n = convertEscapeSeq (b :: s) n := by
  unfold readChar
  refine if_neg fun hle => ?_
  exact absurd (Iff.mp UInt8.le_iff_toNat_le hle) (Nat.not_le.mpr h)

/-- A character of ASCII that is no backslash is read as it is. Kind: L -/
theorem readChar_plain (h : b.toNat < 0x80) (hslash : b ≠ ascii '\\') :
    readChar (b :: s) (k + 1) = some (1, b.toUInt32) := by
  rw [readChar_low h]
  unfold convertEscapeSeq
  rw [if_neg (Nat.succ_ne_zero k)]
  refine (if_neg hslash).trans (if_neg fun hle => ?_)
  exact absurd (Iff.mp UInt8.le_iff_toNat_le hle) (Nat.not_le.mpr h)

theorem formatEscaped_succ (h : formatEscaped (k + 1) (b :: s) = some t) (hb : b ≠ 0) :
    ∃ m ch u t', readChar (b :: s) (k + 1) = some (m, ch) ∧ printUtf8 ch true = some u ∧
      formatEscaped k ((b :: s).drop m) = some t' ∧ t = u ++ t' := by
  unfold formatEscaped at h
  have hfirst : charAt (b :: s) 0 ≠ 0 := hb
  rw [if_neg hfirst] at h
  rcases hread : readChar (b :: s) (k + 1) with _ | ⟨m, ch⟩
  · rw [hread] at h
    cases h
  · rw [hread] at h
    dsimp only at h
    rcases hu : printUtf8 ch true with _ | u
    · rw [hu] at h
      cases h
    · rw [hu] at h
      rcases ht : formatEscaped k ((b :: s).drop m) with _ | t'
      · rw [ht] at h
        cases h
      · rw [ht] at h
        exact ⟨m, ch, u, t', rfl, hu, ht, (Option.some.inj h).symm⟩

/-- What a round passes, what it is read back as, and the text behind. -/
inductive Round : List UInt8 → List UInt8 → List UInt8 → Prop
  | same {b : UInt8} (bs : List UInt8) (hslash : b ≠ ascii '\\') (hquote : b ≠ ascii '\'')
      (hb : Passed b ∧ bs = [] ∨ ∀ c ∈ b :: bs, 0x80 ≤ c.toNat)
        {r : List UInt8} : Round (b :: bs) (b :: bs) r
  | quote {r : List UInt8} : Round [ascii '\''] [ascii '\\', ascii '\''] r
  | quoted {r : List UInt8} : Round [ascii '\\', ascii '\''] [ascii '\\', ascii '\''] r
  | toQuote {ps : List UInt8} (hps : ∀ c ∈ ps, Passed c) (hne : ps ≠ []) {r : List UInt8} :
      Round (ascii '\\' :: ps) [ascii '\\', ascii '\''] r
  | toByte {ps : List UInt8} (hps : ∀ c ∈ ps, Passed c) {x : UInt8} {r : List UInt8}
      (hx : ps = [] → x = 0 ∨ x = ascii '\\' ∧ (charAt r 0 = ascii '8' ∨ charAt r 0 = ascii '9')) :
      Round (ascii '\\' :: ps) [x] r
  | toHigh (ps : List UInt8) {b : UInt8} (bs : List UInt8) (hb : 0x80 ≤ b.toNat) {r : List UInt8} :
      Round (ascii '\\' :: ps) (b :: bs) r

theorem parseUnicodeEscape_length {ptr : List UInt8} {digits : ℕ} (hn : digits + 2 ≤ n)
    (hm : digits + 2 ≤ m) : parseUnicodeEscape ptr n digits = parseUnicodeEscape ptr m digits := by
  unfold parseUnicodeEscape
  rw [if_neg (Nat.not_lt.mpr hn), if_neg (Nat.not_lt.mpr hm)]

/-- Where nothing is read, nothing is read with fewer bytes left. Kind: L -/
theorem convertEscapeSeq_stuck (h : convertEscapeSeq (ascii '\\' :: s) n = some (0, ch))
    (hm : m ≤ n) :
    ∃ ch', convertEscapeSeq (ascii '\\' :: s) m = some (0, ch') := by
  have hread : ∀ {i : ℕ} {res : UInt32}, i ≠ 0 → some (i, res) ≠ some (0, ch) :=
    fun hi heq => hi (congrArg Prod.fst (Option.some.inj heq))
  have hunicode : ∀ {digits : ℕ}, some (parseUnicodeEscape (ascii '\\' :: s) n digits) = some
    (0, ch) →
      digits + 2 ≤ m → ∃ ch', some (parseUnicodeEscape (ascii '\\' :: s) m digits) = some
        (0, ch') :=
    fun heq hle => ⟨ch, by rw [parseUnicodeEscape_length hle (Nat.le_trans hle hm), heq]⟩
  by_cases htwo : 2 ≤ m
  · rw [convertEscapeSeq_slash (Nat.le_trans htwo hm)] at h
    rw [convertEscapeSeq_slash htwo]
    cases hsimple : simpleEscape (charAt s 0) with
    | some res =>
        rw [hsimple] at h
        cases h
    | none =>
        rw [hsimple] at h
        dsimp only at h ⊢
        split_ifs at h ⊢
        all_goals first
          | exact ⟨_, rfl⟩
          | exact absurd h (hread (by omega))
          | omega
          | exact hunicode h (by omega)
  · unfold convertEscapeSeq
    by_cases hzero : m = 0
    · rw [if_pos hzero]
      exact ⟨0, rfl⟩
    · have hfirst : charAt (ascii '\\' :: s) 0 = ascii '\\' := rfl
      rw [if_neg hzero, if_pos hfirst, if_pos (by omega)]
      exact ⟨0, rfl⟩

theorem convertEscapeSeq_one : convertEscapeSeq (ascii '\\' :: s) 1 = some (0, 0) := by
  have hfirst : charAt (ascii '\\' :: s) 0 = ascii '\\' := rfl
  unfold convertEscapeSeq
  rw [if_neg Nat.one_ne_zero, if_pos hfirst]
  rfl

/-- **A printer that does not get on prints a NUL in the end.** Kind: L -/
theorem zero_mem_of_stuck : ∀ {k : ℕ} {ch : UInt32} {t : List UInt8},
    convertEscapeSeq (ascii '\\' :: s) (k + 1) = some (0, ch) →
    formatEscaped (k + 1) (ascii '\\' :: s) = some t → 0 ∈ escapeText t := by
  intro k
  induction k with
  | zero =>
      intro ch t _ h
      obtain ⟨m, ch, u, t', hread, hu, ht, rfl⟩ := formatEscaped_succ h (by decide)
      rw [readChar_low (by decide), convertEscapeSeq_one] at hread
      cases hread
      cases hu
      cases ht
      exact List.mem_cons_self
  | succ k ih =>
      intro ch t hstuck h
      obtain ⟨m, ch', u, t', hread, hu, ht, rfl⟩ := formatEscaped_succ h (by decide)
      rw [readChar_low (by decide), hstuck] at hread
      cases hread
      obtain ⟨ch', hstuck'⟩ := convertEscapeSeq_stuck hstuck (Nat.le_succ (k + 1))
      have hmem := ih hstuck' ht
      rcases escapeText_printed hu t' with ⟨-, heq⟩ | ⟨-, heq⟩ | ⟨-, -, v, -, heq⟩ <;> rw [heq]
      · exact List.mem_cons_of_mem _ (List.mem_cons_of_mem _ hmem)
      · exact List.mem_cons_of_mem _ hmem
      · exact List.mem_append_right v hmem

/-- The escape sequences of two characters. Kind: L -/
theorem simpleEscape_spec (h : simpleEscape x = some ch) : x = ascii '\'' ∧ ch = 39 ∨ Passed x := by
  have hbyte := forall_byte (p := fun x => simpleEscape x = none ∨ x = ascii '\'' ∨ Passed x)
    (by decide +kernel) x
  rcases hbyte with hnone | rfl | hx
  · rw [hnone] at h
    cases h
  · exact Or.inl ⟨rfl, (Option.some.inj h).symm⟩
  · exact Or.inr hx

theorem Passed.toNat_lt (h : Passed x) : x.toNat < 0x80 := Iff.mp UInt8.lt_iff_toNat_lt h.2.1

/-- A round that passes an escape sequence. Kind: L -/
theorem round_escape {ps : List UInt8} (hps : ∀ c ∈ ps, Passed c) (hcs : text cs = ps ++ r)
    (hone : ps = [] → 255 < ch ∨ ch = 0 ∧ (charAt r 0 = ascii '8' ∨ charAt r 0 = ascii '9'))
    (hu : printUtf8 ch true = some u) (ht : formatEscaped k r = some t) :
    ∃ p u' es t', ascii '\\' :: text cs = p ++ text es ∧ formatEscaped k (text es) = some t' ∧
      escapeText (u ++ t) = u' ++ escapeText t' ∧ Round p u' (text es) := by
  obtain ⟨es, rfl⟩ := drop_ascii ps hcs fun c hc => (hps c hc).toNat_lt
  have hbehind : ascii '\\' :: text cs = (ascii '\\' :: ps) ++ text es := congrArg _ hcs
  rcases escapeText_printed hu t with ⟨rfl, heq⟩ | ⟨rfl, heq⟩ | ⟨-, hzero, v, hv, heq⟩
  · refine ⟨_, [ascii '\\', ascii '\''], es, t, hbehind, ht, heq, Round.toQuote hps fun hnil => ?_⟩
    rcases hone hnil with h | h
    · exact absurd h (by decide)
    · exact absurd h.1 (by decide)
  · refine ⟨_, [_], es, t, hbehind, ht, heq, Round.toByte hps fun hnil => ?_⟩
    rcases hone hnil with h | ⟨-, h⟩
    · exact absurd h (by decide)
    · split_ifs
      · exact Or.inr ⟨rfl, h⟩
      · exact Or.inl rfl
  · by_cases hlow : ch < 0x80
    · rw [encodeUtf8_low hlow] at hv
      obtain rfl := Option.some.inj hv
      refine ⟨_, [ch.toUInt8], es, t, hbehind, ht, heq, Round.toByte hps fun hnil => ?_⟩
      rcases hone hnil with h | h
      · rw [UInt32.lt_iff_toNat_lt] at h hlow
        exact absurd (Nat.lt_trans h hlow) (by decide)
      · exact absurd h.1 hzero
    · obtain ⟨hne, hhigh⟩ := encodeUtf8_high hlow hv
      cases v with
      | nil => exact absurd rfl hne
      | cons b bs =>
          exact ⟨_, b :: bs, es, t, hbehind, ht, heq,
            Round.toHigh ps bs (hhigh b List.mem_cons_self)⟩

/-- **A round of the printer**: it prints a NUL in the end, or passes a piece of the text.
Kind: P -/
theorem formatEscaped_round {c : Char} (hnul : 0 ∉ text (c :: cs))
    (h : formatEscaped (k + 1) (text (c :: cs)) = some t) :
    0 ∈ escapeText t ∨ ∃ p u es t', text (c :: cs) = p ++ text es ∧
      formatEscaped k (text es) = some t' ∧
      escapeText t = u ++ escapeText t' ∧ Round p u (text es) := by
  by_cases hc : c.toNat < 0x80
  · have htext : text (c :: cs) = octet c.toNat :: text cs := by
      rw [text_cons, encode_ascii hc]
      rfl
    have hlow : (octet c.toNat).toNat < 0x80 := by
      rw [toNat_octet (by omega)]
      exact hc
    generalize octet c.toNat = b at htext hlow
    rw [htext] at h hnul ⊢
    rw [List.mem_cons, not_or] at hnul
    obtain ⟨m, ch, u, t', hread, hu, ht, rfl⟩ := formatEscaped_succ h (Ne.symm hnul.1)
    by_cases hslash : b = ascii '\\'
    · subst hslash
      rw [readChar_low hlow] at hread
      rcases convertEscapeSeq_cases hread with rfl | ⟨x, r, hcs, hx, rfl, -⟩ |
        ⟨-, ⟨ps, r, hcs, rfl, hps⟩, hone, -⟩
      · exact Or.inl (zero_mem_of_stuck hread h)
      · right
        rw [hcs] at ht
        rcases simpleEscape_spec hx with ⟨rfl, rfl⟩ | hpassed
        · obtain ⟨es, rfl⟩ := drop_ascii [ascii '\''] hcs
            (List.forall_mem_singleton.mpr (by decide))
          obtain rfl := Option.some.inj hu
          refine ⟨_, [ascii '\\', ascii '\''], es, t', congrArg _ hcs, ht, ?_, Round.quoted⟩
          rcases escapeText_printed hu t' with ⟨-, heq⟩ | ⟨hzero, -⟩ | ⟨hne, -⟩
          · exact heq
          · exact absurd hzero (by decide)
          · exact absurd rfl hne
        · have hall : ∀ c ∈ [x], Passed c := List.forall_mem_singleton.mpr hpassed
          exact round_escape hall hcs
            (fun hnil => absurd hnil (List.cons_ne_nil _ _)) hu ht
      · right
        have hdrop : (ascii '\\' :: text cs).drop (ps.length + 1) = r := by
          rw [hcs, List.drop_succ_cons, List.drop_left]
        rw [hdrop] at ht
        refine round_escape hps hcs (fun hnil => ?_) hu ht
        subst hnil
        rw [hcs] at hone
        exact hone rfl
    · rw [readChar_plain hlow hslash] at hread
      cases hread
      right
      refine ⟨[b], ?_⟩
      have hascii : b.toUInt32 < 0x80 := by
        rw [UInt32.lt_iff_toNat_lt, UInt8.toNat_toUInt32]
        exact hlow
      have htoNat : ∀ {d : UInt32}, b.toUInt32 = d → b.toNat = d.toNat := by
        rintro d rfl
        rw [UInt8.toNat_toUInt32]
      rcases escapeText_printed hu t' with ⟨hquote, heq⟩ | ⟨hzero, -⟩ | ⟨hquote, -, v, hv, heq⟩
      · obtain rfl : b = ascii '\'' := Iff.mp UInt8.toNat_inj (htoNat hquote)
        exact ⟨_, cs, t', rfl, ht, heq, Round.quote⟩
      · exact absurd (Iff.mp UInt8.toNat_inj (htoNat hzero)).symm hnul.1
      · rw [encodeUtf8_low hascii] at hv
        obtain rfl := Option.some.inj hv
        rw [UInt8.toUInt8_toUInt32] at heq
        have hne : b ≠ ascii '\'' := by
          rintro rfl
          exact hquote rfl
        exact ⟨[b], cs, t', rfl, ht, heq, Round.same [] hslash hne
          (Or.inl ⟨⟨Ne.symm hnul.1, Iff.mpr UInt8.lt_iff_toNat_lt hlow, hne⟩, rfl⟩)⟩
  · right
    have hhigh := encode_high (Nat.not_lt.mp hc)
    have hread' := readChar_high (Nat.not_lt.mp hc) (text cs) (k + 1)
    have hchar := encodeUtf8_char c
    rw [text_cons] at h hnul ⊢
    have hne := encode_ne_nil c
    have hbig : ∀ d : UInt32, d.toNat < 0x80 → c.val ≠ d := by
      rintro d hd rfl
      exact hc hd
    cases henc : String.utf8EncodeChar c with
    | nil => exact absurd henc hne
    | cons b bs =>
        rw [henc] at h hnul hhigh hread' hchar
        have hb := hhigh b List.mem_cons_self
        have hother : ∀ {d : UInt8}, d.toNat < 0x80 → b ≠ d := by
          rintro d hd rfl
          exact absurd hb (Nat.not_le.mpr hd)
        obtain ⟨m, ch, u, t', hread, hu, ht, rfl⟩ := formatEscaped_succ h (hother (by decide))
        rw [show b :: bs ++ text cs = b :: bs.append (text cs) from rfl] at hread'
        rw [hread'] at hread
        split_ifs at hread
        cases hread
        have hdrop : (b :: bs.append (text cs)).drop (b :: bs).length = text cs := by
          change ((b :: bs) ++ text cs).drop (b :: bs).length = text cs
          exact List.drop_left
        rw [hdrop] at ht
        rcases escapeText_printed hu t' with ⟨hquote, -⟩ | ⟨hzero, -⟩ | ⟨-, -, v, hv, heq⟩
        · exact absurd hquote (hbig _ (by decide))
        · exact absurd hzero (hbig _ (by decide))
        · rw [hchar] at hv
          obtain rfl := Option.some.inj hv
          exact ⟨b :: bs, b :: bs, cs, t', rfl, ht, heq,
            Round.same bs (hother (by decide)) (hother (by decide)) (Or.inr hhigh)⟩

/-! ## Which texts are read back -/

/-- The texts that are read back. -/
inductive Kept : List UInt8 → Prop
  | nil : Kept []
  | plain {c : UInt8} {r : List UInt8} (hslash : c ≠ ascii '\\') (hquote : c ≠ ascii '\'')
    (hr : Kept r) :
      Kept (c :: r)
  | quote {r : List UInt8} (hr : Kept r) : Kept (ascii '\\' :: ascii '\'' :: r)
  | slash {r : List UInt8} (hr : Kept r) : Kept (ascii '\\' :: ascii '\\' :: ascii '\'' :: r)
  | digit {d : UInt8} {r : List UInt8} (hd : d = ascii '8' ∨ d = ascii '9') (hr : Kept (d :: r)) :
      Kept (ascii '\\' :: d :: r)

/-- Characters that can not be made up for: all of what is read back later is behind them. -/
def Stuck (w : List UInt8) : Prop := w ≠ [] ∧ w ≠ [ascii '\\'] ∧ ∀ c ∈ w, Passed c

theorem Stuck.not_quote (hw : Stuck w) : ascii '\\' :: ascii '\'' :: t ≠ w ++ r := by
  obtain ⟨hne, hslash, hpassed⟩ := hw
  intro h
  rcases w with _ | ⟨x, _ | ⟨y, w⟩⟩
  · exact hne rfl
  · obtain ⟨rfl, -⟩ := List.cons.inj h
    exact hslash rfl
  · obtain ⟨-, h⟩ := List.cons.inj h
    obtain ⟨rfl, -⟩ := List.cons.inj h
    exact (hpassed _ (List.mem_cons_of_mem _ List.mem_cons_self)).2.2 rfl

/-- **A text is never read back behind such characters.** The induction is on the rounds of the
printer: what a round reads back is shorter than what it passes. Kind: P -/
theorem not_kept_of_stuck : ∀ (k : ℕ) {w : List UInt8} {cs : List Char} {t : List UInt8}, Stuck w →
    0 ∉ text cs → formatEscaped k (text cs) = some t → escapeText t ≠ w ++ text cs := by
  intro k
  induction k with
  | zero =>
      intro w cs t hw _ h heq
      cases h
      exact hw.1 (List.append_eq_nil_iff.mp heq.symm).1
  | succ k ih =>
      intro w cs t hw hnul h heq
      cases cs with
      | nil =>
          cases h
          exact hw.1 (List.append_eq_nil_iff.mp heq.symm).1
      | cons c cs =>
          rcases formatEscaped_round hnul h with hzero | ⟨p, u, es, t', hp, ht, hu, hround⟩
          · rw [heq, List.mem_append] at hzero
            rcases hzero with hzero | hzero
            · exact (hw.2.2 0 hzero).1 rfl
            · exact hnul hzero
          · rw [hp, List.mem_append, not_or] at hnul
            rw [hu, hp] at heq
            have hcons : ∃ x w', w = x :: w' := by
              cases w with
              | nil => exact absurd rfl hw.1
              | cons x w' => exact ⟨x, w', rfl⟩
            obtain ⟨x, w', rfl⟩ := hcons
            have hx := hw.2.2 x List.mem_cons_self
            have hw' : ∀ c ∈ w', Passed c := fun c hc => hw.2.2 c (List.mem_cons_of_mem x hc)
            cases hround with
            | same bs hslash hquote hb =>
                obtain ⟨rfl, htail⟩ := List.cons.inj heq
                rcases hb with ⟨hb, rfl⟩ | hhigh
                · refine ih (w := w' ++ [_]) ⟨?_, ?_, ?_⟩ hnul.2 ht
                    (htail.trans (List.append_cons w' _ _))
                  · exact List.append_ne_nil_of_right_ne_nil w' (List.cons_ne_nil _ _)
                  · intro h
                    have hlast := congrArg List.getLast? h
                    rw [List.getLast?_concat] at hlast
                    exact hslash (Option.some.inj hlast)
                  · exact List.forall_mem_append.mpr ⟨hw', List.forall_mem_singleton.mpr hb⟩
                · exact absurd (hhigh _ List.mem_cons_self) (Nat.not_le.mpr hx.toNat_lt)
            | quote => exact hw.not_quote heq
            | quoted => exact hw.not_quote heq
            | toQuote hps hne => exact hw.not_quote heq
            | toByte hps hone =>
                obtain ⟨rfl, htail⟩ := List.cons.inj heq
                refine ih (w := w' ++ ascii '\\' :: _) ⟨?_, ?_, ?_⟩ hnul.2 ht
                  (htail.trans (List.append_assoc w' (ascii '\\' :: _) _).symm)
                · exact List.append_ne_nil_of_right_ne_nil w' (List.cons_ne_nil _ _)
                · intro h
                  cases w' with
                  | nil =>
                      rcases hone (List.cons.inj h).2 with hzero | ⟨hslash, -⟩
                      · exact hx.1 hzero
                      · exact hw.2.1 (congrArg (fun y => [y]) hslash)
                  | cons y w' =>
                      have hlen := congrArg List.length h
                      rw [List.length_append] at hlen
                      simp only [List.length_cons, List.length_nil] at hlen
                      omega
                · exact List.forall_mem_append.mpr ⟨hw', List.forall_mem_cons.mpr ⟨by decide, hps⟩⟩
            | toHigh ps bs hb =>
                obtain ⟨rfl, -⟩ := List.cons.inj heq
                exact absurd hb (Nat.not_le.mpr hx.toNat_lt)

/-- **What is read back is kept, also behind a backslash.** Kind: P -/
theorem kept_of_escapeText : ∀ (k : ℕ) {cs : List Char} {t : List UInt8}, 0 ∉ text cs →
    formatEscaped k (text cs) = some t →
    (escapeText t = text cs → Kept (text cs)) ∧
      (escapeText t = ascii '\\' :: text cs → ∃ r, text cs = ascii '\'' :: r ∧ Kept r) := by
  intro k
  induction k with
  | zero =>
      intro cs t _ h
      cases h
      refine ⟨fun heq => ?_, fun heq => absurd heq.symm (List.cons_ne_nil _ _)⟩
      rw [← heq]
      exact Kept.nil
  | succ k ih =>
      intro cs t hnul h
      cases cs with
      | nil =>
          cases h
          exact ⟨fun _ => Kept.nil, fun heq => absurd heq.symm (List.cons_ne_nil _ _)⟩
      | cons c cs =>
          rcases formatEscaped_round hnul h with hzero | ⟨p, u, es, t', hp, ht, hu, hround⟩
          · constructor
            · intro heq
              rw [heq] at hzero
              exact absurd hzero hnul
            · intro heq
              rw [heq, List.mem_cons] at hzero
              exact absurd (hzero.resolve_left (by decide)) hnul
          · rw [hp] at hnul ⊢
            rw [hu]
            rw [List.mem_append, not_or] at hnul
            obtain ⟨hkept, hslash⟩ := ih hnul.2 ht
            cases hround with
            | same bs hb hquote hbs =>
                constructor
                · intro heq
                  have hall : ∀ {bs : List UInt8}, (∀ c ∈ bs, c ≠ ascii '\\' ∧ c ≠ ascii '\'') →
                      Kept (text es) → Kept (bs ++ text es) := by
                    intro bs
                    induction bs with
                    | nil => exact fun _ h => h
                    | cons c bs ih =>
                        intro hbs h
                        obtain ⟨hc, hbs⟩ := List.forall_mem_cons.mp hbs
                        exact Kept.plain hc.1 hc.2 (ih hbs h)
                  refine hall ?_ (hkept (List.append_cancel_left heq))
                  rcases hbs with ⟨-, hnil⟩ | hhigh
                  · rw [hnil]
                    exact List.forall_mem_singleton.mpr ⟨hb, hquote⟩
                  · intro c hc
                    have hc := hhigh c hc
                    constructor
                    · rintro rfl
                      exact absurd hc (by decide)
                    · rintro rfl
                      exact absurd hc (by decide)
                · intro heq
                  exact absurd (List.cons.inj heq).1 hb
            | quote =>
                constructor
                · intro heq
                  exact absurd (List.cons.inj heq).1 (by decide)
                · intro heq
                  have htail := (List.cons.inj (List.cons.inj heq).2).2
                  exact ⟨_, rfl, hkept htail⟩
            | quoted =>
                constructor
                · intro heq
                  exact Kept.quote (hkept (List.append_cancel_left heq))
                · intro heq
                  exact absurd (List.cons.inj (List.cons.inj heq).2).1 (by decide)
            | @toQuote ps hps hne =>
                constructor
                · intro heq
                  have htail := (List.cons.inj heq).2
                  cases ps with
                  | nil => exact absurd rfl hne
                  | cons x ps =>
                      obtain ⟨rfl, -⟩ := List.cons.inj htail
                      exact absurd rfl (hps _ List.mem_cons_self).2.2
                · intro heq
                  exact absurd (List.cons.inj (List.cons.inj heq).2).1 (by decide)
            | @toByte ps hps x _ hone =>
                constructor
                · intro heq
                  obtain ⟨rfl, htail⟩ := List.cons.inj heq
                  by_cases hnil : ps = []
                  · subst hnil
                    rcases hone rfl with hzero | ⟨-, hdigit⟩
                    · exact absurd hzero (by decide)
                    · have hes := hkept htail
                      cases hr : text es with
                      | nil =>
                          rw [hr] at hdigit
                          exact absurd hdigit (by decide)
                      | cons d r =>
                          rw [hr] at hes hdigit
                          exact Kept.digit hdigit hes
                  · by_cases hone' : ps = [ascii '\\']
                    · subst hone'
                      obtain ⟨r, hr, hkept'⟩ := hslash htail
                      rw [hr]
                      exact Kept.slash hkept'
                    · exact absurd htail (not_kept_of_stuck k ⟨hnil, hone', hps⟩ hnul.2 ht)
                · intro heq
                  obtain ⟨rfl, htail⟩ := List.cons.inj heq
                  by_cases hnil : ps = []
                  · subst hnil
                    rcases hone rfl with hzero | ⟨-, hdigit⟩
                    · exact absurd hzero (by decide)
                    · obtain ⟨r, hr, -⟩ := hslash htail
                      rw [hr] at hdigit
                      change ascii '\'' = ascii '8' ∨ ascii '\'' = ascii '9' at hdigit
                      exact absurd hdigit (by decide)
                  · refine absurd htail (not_kept_of_stuck k (w := ascii '\\' :: ps)
                      ⟨List.cons_ne_nil _ _, fun h => hnil (List.cons.inj h).2, ?_⟩ hnul.2 ht)
                    exact List.forall_mem_cons.mpr ⟨by decide, hps⟩
            | toHigh ps bs hb =>
                constructor
                · intro heq
                  obtain ⟨rfl, -⟩ := List.cons.inj heq
                  exact absurd hb (by decide)
                · intro heq
                  obtain ⟨rfl, -⟩ := List.cons.inj heq
                  exact absurd hb (by decide)

theorem Kept.tail (h : Kept (b :: r)) (hb : b ≠ ascii '\\') : b ≠ ascii '\'' ∧ Kept r := by
  cases h with
  | plain hslash hquote hr => exact ⟨hquote, hr⟩
  | quote hr => exact absurd rfl hb
  | slash hr => exact absurd rfl hb
  | digit hd hr => exact absurd rfl hb

theorem Kept.drop : ∀ {p : List UInt8}, Kept (p ++ r) → ascii '\\' ∉ p → Kept r := by
  intro p
  induction p with
  | nil => exact fun h _ => h
  | cons b p ih =>
      intro h hp
      rw [List.mem_cons, not_or] at hp
      exact ih (Kept.tail h (Ne.symm hp.1)).2 hp.2

theorem formatEscaped_of_read (hb : b ≠ 0) (hread : readChar (b :: s) (k + 1) = some (m, ch))
    (hu : printUtf8 ch true = some u) (hdrop : (b :: s).drop m = r)
      (ht : formatEscaped k r = some t) :
    formatEscaped (k + 1) (b :: s) = some (u ++ t) := by
  have hfirst : charAt (b :: s) 0 ≠ 0 := hb
  unfold formatEscaped
  rw [if_neg hfirst, hread]
  dsimp only
  rw [hu, hdrop, ht]

/-- A round that is known, and what its piece is read back as. Kind: L -/
theorem formatEscaped_step {p : List UInt8} (hb : b ≠ 0)
    (hread : readChar (b :: s) (k + 1) = some (m, ch))
    (hu : printUtf8 ch true = some u) (hdrop : (b :: s).drop m = r)
      (ht : formatEscaped k r = some t)
    (hp : b :: s = p ++ r) (hback : escapeText (u ++ t) = p ++ escapeText t)
      (hkept : escapeText t = r) :
    ∃ t, formatEscaped (k + 1) (b :: s) = some t ∧ escapeText t = b :: s :=
  ⟨u ++ t, formatEscaped_of_read hb hread hu hdrop ht, by rw [hback, hkept, hp]⟩

/-- A quote is read with its backslash. Kind: L -/
theorem readChar_quote (hn : 2 ≤ n) : readChar (ascii '\\' :: ascii '\'' :: r) n = some
    (2, 39) := by
  rw [readChar_low (by decide), convertEscapeSeq_slash hn]
  rfl

theorem readChar_slash (hn : 2 ≤ n) : readChar (ascii '\\' :: ascii '\\' :: r) n = some
    (2, 92) := by
  rw [readChar_low (by decide), convertEscapeSeq_slash hn]
  rfl

theorem escapeText_quote (t : List UInt8) :
    escapeText ([ascii '\\', ascii '\''] ++ t) = [ascii '\\', ascii '\''] ++ escapeText t :=
  (escapeString_unknown rfl).trans (congrArg _ (escapeString_cons (by decide)))

theorem escapeText_slash (t : List UInt8) :
    escapeText ([ascii '\\', ascii '\\'] ++ t) = ascii '\\' :: escapeText t :=
  escapeString_known rfl

/-- A digit that is not octal is not read behind a backslash. Kind: L -/
theorem readChar_digit (hd : x = ascii '8' ∨ x = ascii '9') :
    readChar (ascii '\\' :: x :: r) (k + 2) = some (1, 0) := by
  have hord : convertStrToCharOrd (x :: r) 8 = (0, 0) := by
    unfold convertStrToCharOrd
    rw [strtoul_digit (by rcases hd with rfl | rfl <;> decide),
      if_neg (by rcases hd with rfl | rfl <;> decide)]
    rfl
  rw [readChar_low (by decide), convertEscapeSeq_slash (Nat.le_add_left 2 k), hord]
  rcases hd with rfl | rfl <;> rfl

theorem printUtf8_isSome (h : encodeUtf8 ch = some v) : ∃ u, printUtf8 ch true = some u := by
  unfold printUtf8
  rw [if_pos rfl]
  cases escapeOf ch with
  | some c => exact ⟨_, rfl⟩
  | none => exact ⟨v, h⟩

/-- The first character that is printed for a text that begins with a digit. Kind: L -/
theorem formatEscaped_digit (hd : x = ascii '8' ∨ x = ascii '9')
    (h : formatEscaped (k + 1) (x :: r) = some t) : isdigit (charAt t 0) = true := by
  have hx : x ≠ 0 ∧ x.toNat < 0x80 ∧ x ≠ ascii '\\' ∧ isdigit x = true ∧
      printUtf8 x.toUInt32 true = some [x] := by
    rcases hd with rfl | rfl <;> exact ⟨by decide, by decide, by decide, by decide, rfl⟩
  obtain ⟨m, ch, u, t', hread, hu, -, rfl⟩ := formatEscaped_succ h hx.1
  rw [readChar_plain hx.2.1 hx.2.2.1] at hread
  cases hread
  rw [hx.2.2.2.2] at hu
  obtain rfl := Option.some.inj hu
  exact hx.2.2.2.1

/-- **A text that is kept is printed and read back.** The induction is on the rounds. Kind: P -/
theorem escapeText_of_kept : ∀ (k : ℕ) {cs : List Char}, 0 ∉ text cs → (text cs).length ≤ k →
    Kept (text cs) → ∃ t, formatEscaped k (text cs) = some t ∧ escapeText t = text cs := by
  intro k
  induction k using Nat.strong_induction_on with
  | _ k ih =>
  intro cs hnul hlen hkept
  cases cs with
  | nil => cases k <;> exact ⟨[], rfl, rfl⟩
  | cons c cs =>
      obtain ⟨k, rfl⟩ : ∃ i, k = i + 1 := by
        refine ⟨k - 1, ?_⟩
        have hpos := List.length_pos_of_ne_nil (encode_ne_nil c)
        rw [text_cons, List.length_append] at hlen
        omega
      by_cases hc : c.toNat < 0x80
      · have htext : text (c :: cs) = octet c.toNat :: text cs := by
          rw [text_cons, encode_ascii hc]
          rfl
        have hlow : (octet c.toNat).toNat < 0x80 := by
          rw [toNat_octet (by omega)]
          exact hc
        generalize octet c.toNat = b at htext hlow
        rw [htext] at hnul hlen hkept ⊢
        rw [List.mem_cons, not_or] at hnul
        rw [List.length_cons] at hlen
        by_cases hslash : b = ascii '\\'
        · subst hslash
          generalize hs : text cs = s at hnul hlen hkept ⊢
          cases hkept with
          | plain hne _ _ => exact absurd rfl hne
          | @quote r hr =>
              obtain ⟨es, rfl⟩ :=
                drop_ascii [ascii '\''] hs (List.forall_mem_singleton.mpr (by decide))
              rw [List.length_cons] at hlen
              obtain ⟨t, ht, hback⟩ := ih k (Nat.lt_succ_self k)
                (fun h => hnul.2 (List.mem_cons_of_mem _ h)) (by omega) hr
              exact formatEscaped_step (p := [ascii '\\', ascii '\'']) (by decide)
                (readChar_quote (by omega)) rfl rfl ht rfl (escapeText_quote t) hback
          | @slash r hr =>
              obtain ⟨es, rfl⟩ := drop_ascii [ascii '\\', ascii '\''] hs
                (List.forall_mem_cons.mpr ⟨by decide, List.forall_mem_singleton.mpr (by decide)⟩)
              rw [List.length_cons, List.length_cons] at hlen
              obtain ⟨j, rfl⟩ : ∃ j, k = j + 1 := ⟨k - 1, by omega⟩
              obtain ⟨t, ht, hback⟩ := ih j (by omega)
                (fun h => hnul.2 (List.mem_cons_of_mem _ (List.mem_cons_of_mem _ h))) (by omega) hr
              have hquote := formatEscaped_of_read (by decide)
                (readChar_plain (by decide) (by decide))
                (s := text es) (b := ascii '\'') (u := [ascii '\\', ascii '\'']) rfl rfl ht
              refine ⟨[ascii '\\', ascii '\\'] ++ ([ascii '\\', ascii '\''] ++ t),
                formatEscaped_of_read (by decide) (readChar_slash (by omega)) rfl rfl hquote, ?_⟩
              rw [escapeText_slash, escapeText_quote, hback]
              rfl
          | @digit d r hd hr =>
              rw [← hs] at hr
              obtain ⟨t, ht, hback⟩ :=
                ih k (Nat.lt_succ_self k) (hs ▸ hnul.2) (by rw [hs]; omega) hr
              rw [hs] at ht hback
              rw [List.length_cons] at hlen
              obtain ⟨j, rfl⟩ : ∃ j, k = j + 1 := ⟨k - 1, by omega⟩
              have hdigit := formatEscaped_digit hd ht
              refine formatEscaped_step (p := [ascii '\\']) (u := [ascii '\\', ascii '0'])
                (by decide)
                (readChar_digit hd) rfl rfl ht rfl ?_ hback
              refine escapeString_known ?_
              change (if isdigit (charAt t 0) = true then some (ascii '\\') else some 0) = _
              rw [if_pos hdigit]
        · obtain ⟨hquote, hkept⟩ := Kept.tail hkept hslash
          obtain ⟨t, ht, hback⟩ := ih k (Nat.lt_succ_self k) hnul.2 (by omega) hkept
          have hascii : b.toUInt32 < 0x80 := by
            rw [UInt32.lt_iff_toNat_lt, UInt8.toNat_toUInt32]
            exact hlow
          obtain ⟨u, hu⟩ := printUtf8_isSome (encodeUtf8_low hascii)
          refine formatEscaped_step (Ne.symm hnul.1) (readChar_plain hlow hslash) hu rfl ht
            (p := [b]) rfl ?_ hback
          have htoNat : ∀ {d : UInt32}, b.toUInt32 = d → b.toNat = d.toNat := by
            rintro d rfl
            rw [UInt8.toNat_toUInt32]
          rcases escapeText_printed hu t with ⟨h, -⟩ | ⟨h, -⟩ | ⟨-, -, v, hv, heq⟩
          · exact absurd (Iff.mp UInt8.toNat_inj (htoNat h)) hquote
          · exact absurd (Iff.mp UInt8.toNat_inj (htoNat h)).symm hnul.1
          · rw [encodeUtf8_low hascii] at hv
            obtain rfl := Option.some.inj hv
            rw [heq, UInt8.toUInt8_toUInt32]
      · have hhigh := encode_high (Nat.not_lt.mp hc)
        have hread := readChar_high (Nat.not_lt.mp hc) (text cs) (k + 1)
        have hchar := encodeUtf8_char c
        have hne := encode_ne_nil c
        rw [text_cons] at hnul hlen hkept ⊢
        rw [List.mem_append, not_or] at hnul
        rw [List.length_append] at hlen
        have hpos := List.length_pos_of_ne_nil hne
        have hkept' := Kept.drop hkept fun h => absurd (hhigh _ h) (by decide)
        obtain ⟨t, ht, hback⟩ := ih k (Nat.lt_succ_self k) hnul.2 (by omega) hkept'
        rw [if_neg (by omega)] at hread
        obtain ⟨u, hu⟩ := printUtf8_isSome hchar
        have hdrop : (String.utf8EncodeChar c ++ text cs).drop
          (String.utf8EncodeChar c).length = text cs :=
          List.drop_left
        cases henc : String.utf8EncodeChar c with
        | nil => exact absurd henc hne
        | cons b bs =>
            rw [henc] at hread hchar hdrop hhigh hnul
            refine formatEscaped_step (p := b :: bs) (fun h => ?_) hread hu hdrop ht rfl ?_ hback
            · exact hnul.1 (h ▸ List.mem_cons_self)
            · have hbig : ∀ d : UInt32, d.toNat < 0x80 → c.val ≠ d := by
                rintro d hd rfl
                exact hc hd
              rcases escapeText_printed hu t with ⟨h, -⟩ | ⟨h, -⟩ | ⟨-, -, v, hv, heq⟩
              · exact absurd h (hbig _ (by decide))
              · exact absurd h (hbig _ (by decide))
              · rw [hchar] at hv
                obtain rfl := Option.some.inj hv
                exact heq

/-! ## The two tables -/

/-- No character is printed as a backslash and something else, and none as nothing. Kind: L -/
theorem encodeUtf8_ne (h : encodeUtf8 ch = some v) : v ≠ [] ∧ ∀ y z, v ≠ ascii '\\' :: y :: z := by
  by_cases hlow : ch < 0x80
  · rw [encodeUtf8_low hlow] at h
    obtain rfl := Option.some.inj h
    exact ⟨List.cons_ne_nil _ _, fun y z heq => List.cons_ne_nil _ _ (List.cons.inj heq).2.symm⟩
  · obtain ⟨hne, hhigh⟩ := encodeUtf8_high hlow h
    refine ⟨hne, fun y z heq => ?_⟩
    rw [heq] at hhigh
    exact absurd (hhigh _ List.mem_cons_self) (by decide)

/-- An escape sequence that `convertEscapeSeq` accepts in `n` bytes: the text behind the backslash,
how much is read, and the character. -/
structure Escape where
  behind : List UInt8
  n : ℕ
  read : ℕ
  ch : UInt32
  converted : convertEscapeSeq (ascii '\\' :: behind) n = some (read, ch)
  accepted : read ≠ 0

/-- No more than `n` bytes are read, and what `escapeString` makes of them is the character. -/
def Escape.Agrees (e : Escape) : Prop :=
  e.read ≤ e.n ∧ printUtf8 e.ch false = some (escapeString (ascii '\\' :: e.behind) e.read)

/-- The sequences of two characters that are in both tables. -/
def bothTables : List UInt8 :=
  [ascii 'n', ascii 't', ascii 'v', ascii 'r', ascii 'a', ascii 'b',
    ascii '$', ascii '"', ascii '\\']

/-- The sequence is in both tables, or a NUL with no digit behind it. -/
def Escape.Known (e : Escape) : Prop :=
  charAt e.behind 0 ∈ bothTables ∨
    charAt e.behind 0 = ascii '0' ∧ isdigit (charAt e.behind 1) = false

/-- What is behind the sequence matters for a NUL only. Kind: L -/
theorem escapeByte_eq (h : x ≠ ascii '0') (next : UInt8) : escapeByte x next = escapeByte x 0 := by
  unfold escapeByte
  simp only [if_neg h]

/-- The sequences that `convertEscapeSeq` has in its table. Kind: L -/
theorem tables_of_some (h : simpleEscape x = some ch) : x ≠ ascii '0' ∧ ch < 0x80 ∧
    (x ∈ bothTables ∧ escapeByte x 0 = some ch.toUInt8 ∨
      x ∉ bothTables ∧ escapeByte x 0 = none ∧ x ≠ ascii '\\') := by
  have hall := forall_byte (p := fun x => (simpleEscape x).all (fun ch => decide (x ≠ ascii '0' ∧
    ch < 0x80 ∧ (x ∈ bothTables ∧ escapeByte x 0 = some ch.toUInt8 ∨
      x ∉ bothTables ∧ escapeByte x 0 = none ∧ x ≠ ascii '\\'))) = true) (by decide +kernel) x
  rw [h] at hall
  exact of_decide_eq_true hall

theorem tables_of_none (h : simpleEscape x = none) : x ∉ bothTables ∧ x ≠ ascii '\\' ∧
    (x ≠ ascii '0' → escapeByte x 0 = none) :=
  forall_byte (p := fun x => simpleEscape x = none → x ∉ bothTables ∧ x ≠ ascii '\\' ∧
    (x ≠ ascii '0' → escapeByte x 0 = none)) (by decide +kernel) x h

/-- A sequence of more than a backslash that is in no table is kept. Kind: L -/
theorem not_printed (hzero : x ≠ ascii '0') (hx : escapeByte x 0 = none) (hslash : x ≠ ascii '\\') :
    encodeUtf8 ch ≠ some (escapeString (ascii '\\' :: x :: t) (n + 2)) := by
  intro h
  rw [escapeString_unknown ((escapeByte_eq hzero _).trans hx), escapeString_cons hslash] at h
  exact (encodeUtf8_ne h).2 _ _ rfl

/-- **The two agree on a sequence exactly where it is in both tables.** Kind: P -/
theorem Escape.agrees_iff (e : Escape) : e.Agrees ↔ e.Known := by
  obtain ⟨behind, n, read, ch, hconverted, haccepted⟩ := e
  change (read ≤ n ∧ encodeUtf8 ch = some (escapeString (ascii '\\' :: behind) read)) ↔
    charAt behind 0 ∈ bothTables ∨ charAt behind 0 = ascii '0' ∧ isdigit (charAt behind 1) = false
  rcases convertEscapeSeq_cases hconverted with hzero | ⟨x, t, rfl, hx, rfl, hn⟩ |
    ⟨hnone, ⟨xs, t, hbehind, hread, hxs⟩, -, hoctal⟩
  · exact absurd hzero haccepted
  · obtain ⟨hne, hlow, ⟨hmem, hknown⟩ | ⟨hmem, hunknown, hslash⟩⟩ := tables_of_some hx
    · refine iff_of_true ⟨hn, ?_⟩ (Or.inl hmem)
      rw [encodeUtf8_low hlow, escapeString_known ((escapeByte_eq hne _).trans hknown)]
      rfl
    · exact iff_of_false (fun h => not_printed hne hunknown hslash h.2)
        (not_or_intro hmem fun h => hne h.1)
  · obtain ⟨hmem, hslash, hunknown⟩ := tables_of_none hnone
    have hone : read ≠ 1 ∨ ¬ encodeUtf8 ch = some (escapeString (ascii '\\' :: behind) read) := by
      by_cases h : read = 1
      · subst h
        rw [escapeString_last]
        exact Or.inr fun heq => (encodeUtf8_ne heq).1 rfl
      · exact Or.inl h
    by_cases hzero : charAt behind 0 = ascii '0'
    · obtain ⟨t, rfl⟩ : ∃ t, behind = ascii '0' :: t := by
        cases behind with
        | nil => exact absurd hzero (by decide)
        | cons x t => exact ⟨t, congrArg (· :: t) hzero⟩
      have hnext : charAt (ascii '0' :: t) 1 = charAt t 0 := rfl
      rw [hnext] at hoctal ⊢
      rcases hoctal hzero with ⟨hdigit, htwo⟩ | ⟨rfl, rfl, hn⟩
      · have hdigit' := ((isdigit_spec _).2 hdigit).2
        refine iff_of_false (fun h => ?_) (not_or_intro hmem fun h => ?_)
        · obtain ⟨j, rfl⟩ : ∃ j, read = j + 3 := ⟨read - 3, by
            have hthree := hone.resolve_right (not_not_intro h.2)
            omega⟩
          have hbyte : escapeByte (ascii '0') (charAt t 0) = some (ascii '\\') := if_pos hdigit'
          obtain ⟨y, s, rfl⟩ : ∃ y s, t = y :: s := by
            cases t with
            | nil => exact absurd hdigit (by change ¬ isodigit 0 = true; decide)
            | cons y s => exact ⟨y, s, rfl⟩
          have hy : y ≠ ascii '\\' := by
            rintro rfl
            cases hdigit
          have heq := h.2
          rw [escapeString_known hbyte, escapeString_cons hy] at heq
          exact (encodeUtf8_ne heq).2 _ _ rfl
        · rw [h.2] at hdigit'
          cases hdigit'
      · have hbyte : escapeByte (ascii '0') (charAt t 0) =
            if isdigit (charAt t 0) = true then some (ascii '\\') else some 0 := rfl
        rw [escapeString_escape, hbyte]
        by_cases hdigit : isdigit (charAt t 0) = true
        · rw [if_pos hdigit]
          refine iff_of_false (fun h => absurd h.2 (show encodeUtf8 0 ≠ some [ascii '\\'] by
            decide))
            (not_or_intro hmem fun h => ?_)
          rw [h.2] at hdigit
          cases hdigit
        · rw [if_neg hdigit]
          exact iff_of_true ⟨hn, rfl⟩ (Or.inr ⟨rfl, Bool.eq_false_iff.mpr hdigit⟩)
    · refine iff_of_false (fun h => ?_) (not_or_intro hmem fun h => hzero h.1)
      have hthree := hone.resolve_right (not_not_intro h.2)
      obtain ⟨x, xs, rfl⟩ : ∃ x ys, xs = x :: ys := by
        cases xs with
        | nil => exact absurd hread hthree
        | cons x ys => exact ⟨x, ys, rfl⟩
      subst hbehind hread
      exact not_printed hzero (hunknown hzero) hslash h.2

/-! ## The round trip -/

/-- A text of characters without a NUL that fits into memory. -/
structure CText where
  chars : List Char
  noNul : 0 ∉ text chars
  fits : (text chars).length < 2 ^ 64

/-- `escapeString` gives the text back from what `{sE}` prints for it. -/
def CText.RoundTrip (s : CText) : Prop :=
  ∃ t, formatEscaped (2 ^ 64 - 1) (text s.chars) = some t ∧ escapeString t t.length = text s.chars

/-- **A text is read back exactly where it is kept, and the two tables agree exactly on the
sequences that are in both.** Kind: P -/
theorem escapes_agree_iff (s : CText) (e : Escape) :
    (s.RoundTrip ↔ Kept (text s.chars)) ∧ (e.Agrees ↔ e.Known) := by
  refine ⟨⟨?_, ?_⟩, e.agrees_iff⟩
  · rintro ⟨t, ht, hback⟩
    exact (kept_of_escapeText _ s.noNul ht).1 hback
  · intro hkept
    exact escapeText_of_kept _ s.noNul (Nat.le_sub_one_of_lt s.fits) hkept

def oneQuote : CText where
  chars := ['\'']
  noNul := by decide
  fits := by decide

/-- The hexadecimal digits are read behind the end of the literal. -/
def hexEscape : Escape where
  behind := [ascii 'x', ascii '4', ascii '1']
  n := 3
  read := 4
  ch := 65
  converted := rfl
  accepted := by decide

/-- A quote is printed with a backslash that stays, and `\x41` is read behind the end and kept by
`escapeString`. Kind: P -/
theorem escapes_disagree : ¬ oneQuote.RoundTrip ∧ hexEscape.n < hexEscape.read ∧
    printUtf8 hexEscape.ch false = some [ascii 'A'] ∧
    escapeString (ascii '\\' :: hexEscape.behind) hexEscape.read = [92, 120, 52, 49] := by
  refine ⟨?_, by decide, rfl, by decide⟩
  rintro ⟨t, ht, hback⟩
  have hkept : Kept [ascii '\''] := (kept_of_escapeText _ oneQuote.noNul ht).1 hback
  cases hkept with
  | plain hslash hquote hr => exact hquote rfl

end CxyCompiler.Core
