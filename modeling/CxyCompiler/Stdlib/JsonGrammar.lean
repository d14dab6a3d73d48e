import CxyCompiler.Stdlib.JsonRound
import Mathlib.Data.List.TakeWhile

/-!
# The texts of JSON and its lexer (`stdlib/json.cxy`)

* `IsNumber`, `IsChars`, `IsScalar` — the texts of numbers, of what is between the quotes of a
  string, and of the values without a bracket. Between quotes there is **any character but a quote
  and a backslash**, or an escape.
* `Spells` — the text of a token.
* `scanNumber_iff`, `scanString_iff` — the scanners read these texts and no others.
* `nextToken_spells`, `nextToken_of_spells` — **a token is read where its text is, and nowhere
  else**.
-/

namespace CxyCompiler.Stdlib.Json

open CxyCompiler.Lib.Numeral (forall_byte)

/-! ## The grammar of scalars -/

def IsDigits (s : Bytes) : Prop := s ≠ [] ∧ ∀ c ∈ s, isDigit c = true

/-- There is no 0 in front of other digits. -/
def IsInteger (s : Bytes) : Prop := IsDigits s ∧ (s.head? = some (ch '0') → s = text "0")

def IsFraction (s : Bytes) : Prop := s = [] ∨ ∃ ds, IsDigits ds ∧ s = ch '.' :: ds

def IsExponent (s : Bytes) : Prop :=
  s = [] ∨ ∃ e sign ds, (e = ch 'e' ∨ e = ch 'E') ∧
    (sign = [] ∨ sign = text "+" ∨ sign = text "-") ∧
    IsDigits ds ∧ s = e :: (sign ++ ds)

/-- **The text of a number.** -/
def IsNumber (s : Bytes) : Prop :=
  ∃ sign int frac exp, (sign = [] ∨ sign = text "-") ∧ IsInteger int ∧
    IsFraction frac ∧ IsExponent exp ∧
    s = sign ++ (int ++ (frac ++ exp))

def isHex (c : UInt8) : Bool :=
  isDigit c || (ch 'a' ≤ c && c ≤ ch 'f') || (ch 'A' ≤ c && c ≤ ch 'F')

/-- **What is between the quotes of a string.** -/
inductive IsChars : Bytes → Prop
  | nil : IsChars []
  | char {c : UInt8} {s : Bytes} : c ≠ ch '"' → c ≠ ch '\\' → IsChars s → IsChars (c :: s)
  | escape {e : UInt8} {s : Bytes} : e ∈ text "\"\\/bfnrt" → IsChars s → IsChars (ch '\\' :: e :: s)
  | unicode {x y z w : UInt8} {s : Bytes} : isHex x → isHex y → isHex z → isHex w → IsChars s →
      IsChars (ch '\\' :: ch 'u' :: x :: y :: z :: w :: s)

/-- The text of a string. -/
def IsString (s : Bytes) : Prop := ∃ chars, IsChars chars ∧ s = ch '"' :: (chars ++ text "\"")

/-- **The text of a value without a bracket.** -/
def IsScalar (s : Bytes) : Prop :=
  s = text "null" ∨ s = text "true" ∨ s = text "false" ∨ IsNumber s ∨ IsString s

/-! ## Numbers -/

/-- Digits and the rest. Kind: L -/
theorem spanDigits_spec (s : Bytes) : s = (spanDigits s).1 ++ (spanDigits s).2 ∧
    ∀ c ∈ (spanDigits s).1, isDigit c = true :=
  ⟨List.takeWhile_append_dropWhile.symm, fun _ hc => List.mem_takeWhile_imp hc⟩

/-- Digits that are read where there is one. Kind: L -/
theorem isDigits_spanDigits {s : Bytes}
    (h : s.head?.any isDigit = true) : IsDigits (spanDigits s).1 := by
  refine ⟨?_, (spanDigits_spec s).2⟩
  rcases s with _ | ⟨c, s⟩
  · exact absurd h (by decide)
  · have hc : isDigit c = true := h
    unfold spanDigits
    rw [List.takeWhile_cons_of_pos hc]
    exact List.cons_ne_nil _ _

theorem IsDigits.head {s : Bytes} (h : IsDigits s)
    (rest : Bytes) : (s ++ rest).head?.any isDigit = true := by
  obtain ⟨hne, hall⟩ := h
  rcases s with _ | ⟨c, s⟩
  · exact absurd rfl hne
  · exact hall c List.mem_cons_self

theorem spanDigits_stops {ds s : Bytes} (hds : IsDigits ds)
    (hs : Stops s) : spanDigits (ds ++ s) = (ds, s) :=
  spanDigits_append hds.2 (fun c hc => (hs c hc).1)

/-- The sign of an exponent and what is behind it. -/
def splitSign : Bytes → Bytes × Bytes
  | c :: s => if c = ch '+' || c = ch '-' then ([c], s) else ([], c :: s)
  | [] => ([], [])

theorem splitSign_spec (s : Bytes) : s = (splitSign s).1 ++ (splitSign s).2 ∧
    ((splitSign s).1 = [] ∨ (splitSign s).1 = text "+" ∨ (splitSign s).1 = text "-") := by
  rcases s with _ | ⟨c, s⟩
  · exact ⟨rfl, Or.inl rfl⟩
  · unfold splitSign
    dsimp only
    by_cases hc : (c = ch '+' || c = ch '-') = true
    · rw [if_pos hc]
      rw [Bool.or_eq_true, decide_eq_true_iff, decide_eq_true_iff] at hc
      rcases hc with rfl | rfl
      · exact ⟨rfl, Or.inr (Or.inl rfl)⟩
      · exact ⟨rfl, Or.inr (Or.inr rfl)⟩
    · rw [if_neg hc]
      exact ⟨rfl, Or.inl rfl⟩

/-- A sign in front of a digit is split off. Kind: L -/
theorem splitSign_append {sign s : Bytes} (h : sign = [] ∨ sign = text "+" ∨ sign = text "-")
    (hs : s.head?.any isDigit = true) : splitSign (sign ++ s) = (sign, s) := by
  rcases h with rfl | rfl | rfl
  · rcases s with _ | ⟨c, s⟩
    · exact absurd hs (by decide)
    · have hc : isDigit c = true := hs
      have hsign : ¬ (c = ch '+' || c = ch '-') = true := by
        rw [Bool.or_eq_true, decide_eq_true_iff, decide_eq_true_iff]
        rintro (rfl | rfl) <;> exact absurd hc (by decide)
      rw [List.nil_append, splitSign, if_neg hsign]
  · rfl
  · rfl

theorem scanExponent_exp {e : UInt8} (he : e = ch 'e' ∨ e = ch 'E') (acc s : Bytes) :
    scanExponent acc (e :: s) =
      if (splitSign s).2.head?.any isDigit then
        (.number (acc ++ e :: ((splitSign s).1 ++ (spanDigits (splitSign s).2).1)),
          (spanDigits (splitSign s).2).2)
      else (.invalid, (splitSign s).2) := by
  have hb : (e = ch 'e' || e = ch 'E') = true := by
    rw [Bool.or_eq_true, decide_eq_true_iff, decide_eq_true_iff]
    exact he
  unfold scanExponent
  dsimp only
  rw [if_pos hb]
  rcases s with _ | ⟨c, s⟩
  · rfl
  · by_cases hc : (c = ch '+' || c = ch '-') = true
    · simp only [splitSign, if_pos hc, List.append_assoc, List.cons_append, List.nil_append]
    · simp only [splitSign, if_neg hc, List.append_assoc, List.cons_append, List.nil_append]

theorem scanExponent_none {s : Bytes} (hs : ∀ e ∈ s.head?, e ≠ ch 'e' ∧ e ≠ ch 'E') (acc : Bytes) :
    scanExponent acc s = (.number acc, s) := by
  rcases s with _ | ⟨e, s⟩
  · rfl
  · have hb : ¬ (e = ch 'e' || e = ch 'E') = true := by
      rw [Bool.or_eq_true, decide_eq_true_iff, decide_eq_true_iff, not_or]
      exact hs e rfl
    unfold scanExponent
    dsimp only
    rw [if_neg hb]

/-- What is read is an exponent of the grammar. Kind: L -/
theorem scanExponent_sound {acc s rest : Bytes} {tok : JsonToken}
    (h : scanExponent acc s = (tok, rest))
    (htok : tok ≠ .invalid) : ∃ exp, IsExponent exp ∧
      tok = .number (acc ++ exp) ∧ s = exp ++ rest := by
  by_cases hs : ∀ e ∈ s.head?, e ≠ ch 'e' ∧ e ≠ ch 'E'
  · rw [scanExponent_none hs, Prod.mk.injEq] at h
    exact ⟨[], Or.inl rfl, by rw [← h.1, List.append_nil], h.2⟩
  · rcases s with _ | ⟨e, s⟩
    · exact absurd (fun e he => by cases he) hs
    · have he : e = ch 'e' ∨ e = ch 'E' := by
        by_contra hne
        rw [not_or] at hne
        refine hs ?_
        rintro d ⟨⟩
        exact hne
      rw [scanExponent_exp he] at h
      by_cases hdigit : (splitSign s).2.head?.any isDigit = true
      · rw [if_pos hdigit, Prod.mk.injEq] at h
        obtain ⟨hsplit, hsign⟩ := splitSign_spec s
        refine ⟨_, Or.inr ⟨e, _, _, he, hsign, isDigits_spanDigits hdigit, rfl⟩, h.1.symm, ?_⟩
        rw [← h.2, List.cons_append, List.append_assoc, ← (spanDigits_spec _).1, ← hsplit]
      · rw [if_neg hdigit] at h
        exact absurd (Prod.mk.inj h).1.symm htok

/-- An exponent of the grammar is read. Kind: L -/
theorem scanExponent_complete {exp rest : Bytes} (h : IsExponent exp) (hs : Stops rest)
    (acc : Bytes) :
    scanExponent acc (exp ++ rest) = (.number (acc ++ exp), rest) := by
  rcases h with rfl | ⟨e, sign, ds, he, hsign, hds, rfl⟩
  · rw [List.nil_append, List.append_nil, scanExponent_none (fun c hc => (hs c hc).2.2)]
  · rw [List.cons_append, List.append_assoc, scanExponent_exp he,
      splitSign_append hsign (hds.head rest),
      if_pos (hds.head rest), spanDigits_stops hds hs]

/-! ## Fractions and whole numbers -/

theorem scanFraction_dot (acc s : Bytes) : scanFraction acc (ch '.' :: s) =
    if s.head?.any isDigit then scanExponent (acc ++ ch '.' :: (spanDigits s).1) (spanDigits s).2
    else (.invalid, s) := by
  rw [scanFraction, if_pos rfl]
  dsimp only
  rw [List.append_assoc, List.singleton_append]

theorem scanFraction_none {s : Bytes} (hs : s.head? ≠ some (ch '.')) (acc : Bytes) :
    scanFraction acc s = scanExponent acc s := by
  rcases s with _ | ⟨c, s⟩
  · rfl
  · rw [scanFraction, if_neg (fun h => hs (congrArg some h))]

/-- What is read is a fraction and an exponent. Kind: L -/
theorem scanFraction_sound {acc s rest : Bytes} {tok : JsonToken}
    (h : scanFraction acc s = (tok, rest))
    (htok : tok ≠ .invalid) : ∃ frac exp, IsFraction frac ∧ IsExponent exp ∧
      tok = .number (acc ++ (frac ++ exp)) ∧ s = frac ++ (exp ++ rest) := by
  by_cases hs : s.head? = some (ch '.')
  · obtain ⟨s, rfl⟩ := List.head?_eq_some_iff.mp hs
    rw [scanFraction_dot] at h
    by_cases hdigit : s.head?.any isDigit = true
    · rw [if_pos hdigit] at h
      obtain ⟨exp, hexp, hv, hrest⟩ := scanExponent_sound h htok
      refine ⟨_, exp, Or.inr ⟨_, isDigits_spanDigits hdigit, rfl⟩, hexp, ?_, ?_⟩
      · rw [hv, List.append_assoc]
      · rw [List.cons_append, ← hrest, ← (spanDigits_spec s).1]
    · rw [if_neg hdigit] at h
      exact absurd (Prod.mk.inj h).1.symm htok
  · rw [scanFraction_none hs] at h
    obtain ⟨exp, hexp, hv, hrest⟩ := scanExponent_sound h htok
    exact ⟨[], exp, Or.inl rfl, hexp, hv, hrest⟩

/-- In front of an exponent a fraction ends. Kind: L -/
theorem IsExponent.stops {exp : Bytes} (h : IsExponent exp) {rest : Bytes} (hs : Stops rest) :
    ∀ c ∈ (exp ++ rest).head?, isDigit c = false ∧ c ≠ ch '.' := by
  rcases h with rfl | ⟨e, sign, ds, he, -, -, rfl⟩
  · exact fun c hc => ⟨(hs c hc).1, (hs c hc).2.1⟩
  · rintro c ⟨⟩
    rcases he with rfl | rfl <;> exact ⟨by decide, by decide⟩

/-- A fraction and an exponent are read. Kind: L -/
theorem scanFraction_complete {frac exp rest : Bytes} (hf : IsFraction frac) (he : IsExponent exp)
    (hs : Stops rest) (acc : Bytes) :
    scanFraction acc (frac ++ (exp ++ rest)) = (.number (acc ++ (frac ++ exp)), rest) := by
  rcases hf with rfl | ⟨ds, hds, rfl⟩
  · rw [List.nil_append, List.nil_append, scanFraction_none (fun h => (he.stops hs _ h).2 rfl),
      scanExponent_complete he hs]
  · rw [List.cons_append, scanFraction_dot, if_pos (hds.head _),
      spanDigits_append hds.2 (fun c hc => (he.stops hs c hc).1), scanExponent_complete he hs,
      List.append_assoc, List.cons_append]

/-- In front of a fraction an integer ends. Kind: L -/
theorem IsFraction.stops {frac exp : Bytes} (hf : IsFraction frac) (he : IsExponent exp)
    {rest : Bytes}
    (hs : Stops rest) : ∀ c ∈ (frac ++ (exp ++ rest)).head?, isDigit c = false := by
  rcases hf with rfl | ⟨ds, -, rfl⟩
  · exact fun c hc => (he.stops hs c hc).1
  · rintro c ⟨⟩
    decide

/-- The unsigned part of a number. Source: `json.cxy` `scanNumber`. -/
def scanInteger (sign s : Bytes) : JsonToken × Bytes :=
  match s with
  | [] => (.invalid, [])
  | c :: rest =>
      if !isDigit c then (.invalid, c :: rest)
      else if c = ch '0' then scanFraction (sign ++ [c]) rest
      else scanFraction (sign ++ (spanDigits (c :: rest)).1) (spanDigits (c :: rest)).2

theorem scanNumber_minus_eq (s : Bytes) : scanNumber (ch '-' :: s) = scanInteger (text "-") s := rfl

theorem scanNumber_eq {s : Bytes}
    (h : s.head? ≠ some (ch '-')) : scanNumber s = scanInteger [] s := by
  rcases s with _ | ⟨c, s⟩
  · rfl
  · have hc : c ≠ ch '-' := fun heq => h (congrArg some heq)
    simp only [scanNumber, if_neg hc]
    rfl

/-- What is read is an integer, a fraction and an exponent. Kind: L -/
theorem scanInteger_sound {sign s rest : Bytes} {tok : JsonToken}
    (h : scanInteger sign s = (tok, rest))
    (htok : tok ≠ .invalid) : ∃ int frac exp, IsInteger int ∧ IsFraction frac ∧ IsExponent exp ∧
      tok = .number (sign ++ (int ++ (frac ++ exp))) ∧ s = int ++ (frac ++ (exp ++ rest)) := by
  rcases s with _ | ⟨c, s⟩
  · exact absurd (Prod.mk.inj h).1.symm htok
  · unfold scanInteger at h
    dsimp only at h
    by_cases hc : isDigit c = true
    · rw [hc, Bool.not_true, if_neg Bool.false_ne_true] at h
      by_cases hz : c = ch '0'
      · subst hz
        rw [if_pos rfl] at h
        obtain ⟨frac, exp, hf, he, hv, hrest⟩ := scanFraction_sound h htok
        refine ⟨text "0", frac, exp,
          ⟨⟨by decide, forall_mem_text (by decide)⟩, fun _ => rfl⟩, hf, he, ?_, ?_⟩
        · rw [hv, List.append_assoc]
          rfl
        · rw [hrest]
          rfl
      · rw [if_neg hz] at h
        obtain ⟨frac, exp, hf, he, hv, hrest⟩ := scanFraction_sound h htok
        refine ⟨(spanDigits (c :: s)).1, frac, exp, ⟨isDigits_spanDigits hc, ?_⟩, hf, he, ?_, ?_⟩
        · intro hhead
          refine absurd ?_ hz
          unfold spanDigits at hhead
          rw [List.takeWhile_cons_of_pos hc] at hhead
          exact Option.some.inj hhead
        · rw [hv, List.append_assoc]
        · rw [← hrest]
          exact (spanDigits_spec _).1
    · rw [Bool.not_eq_true] at hc
      rw [hc, Bool.not_false, if_pos rfl] at h
      exact absurd (Prod.mk.inj h).1.symm htok

/-- An integer, a fraction and an exponent are read. Kind: L -/
theorem scanInteger_complete {int frac exp rest : Bytes} (hi : IsInteger int) (hf : IsFraction frac)
    (he : IsExponent exp) (hs : Stops rest) (sign : Bytes) :
    scanInteger sign (int ++ (frac ++ (exp ++ rest))) =
      (.number (sign ++ (int ++ (frac ++ exp))), rest) := by
  obtain ⟨⟨hne, hall⟩, hzero⟩ := hi
  rcases int with _ | ⟨c, int⟩
  · exact absurd rfl hne
  · have hc : isDigit c = true := hall c List.mem_cons_self
    rw [List.cons_append, scanInteger, hc, Bool.not_true, if_neg Bool.false_ne_true]
    by_cases hz : c = ch '0'
    · subst hz
      obtain rfl : int = [] := (List.cons.inj (hzero rfl)).2
      rw [if_pos rfl, List.nil_append, scanFraction_complete hf he hs, List.append_assoc]
    · have hspan := spanDigits_append hall (hf.stops he hs)
      rw [List.cons_append] at hspan
      rw [if_neg hz, hspan, scanFraction_complete hf he hs, List.append_assoc]

/-- **A number is scanned where there is the text of one.** Kind: L -/
theorem scanNumber_sound {s rest : Bytes} {tok : JsonToken} (h : scanNumber s = (tok, rest))
    (htok : tok ≠ .invalid) : ∃ v, IsNumber v ∧ tok = .number v ∧ s = v ++ rest := by
  by_cases hs : s.head? = some (ch '-')
  · obtain ⟨s, rfl⟩ := List.head?_eq_some_iff.mp hs
    rw [scanNumber_minus_eq] at h
    obtain ⟨int, frac, exp, hi, hf, he, rfl, rfl⟩ := scanInteger_sound h htok
    refine ⟨_, ⟨text "-", int, frac, exp, Or.inr rfl, hi, hf, he, rfl⟩, rfl, ?_⟩
    simp only [List.append_assoc]
    rfl
  · rw [scanNumber_eq hs] at h
    obtain ⟨int, frac, exp, hi, hf, he, rfl, rfl⟩ := scanInteger_sound h htok
    refine ⟨_, ⟨[], int, frac, exp, Or.inl rfl, hi, hf, he, rfl⟩, rfl, ?_⟩
    simp only [List.append_assoc, List.nil_append]

theorem IsNumber.head {s : Bytes} (h : IsNumber s) (rest : Bytes) :
    ∃ c tail, s ++ rest = c :: tail ∧ (isDigit c || c = ch '-') = true := by
  obtain ⟨sign, int, frac, exp, rfl | rfl, ⟨hdigits, -⟩, -, -, rfl⟩ := h
  · obtain ⟨hne, hall⟩ := hdigits
    rcases int with _ | ⟨c, int⟩
    · exact absurd rfl hne
    · refine ⟨c, _, rfl, ?_⟩
      rw [hall c List.mem_cons_self, Bool.true_or]
  · exact ⟨ch '-', _, rfl, by decide⟩

/-- **The text of a number is scanned as one.** Kind: L -/
theorem scanNumber_complete {v rest : Bytes} (h : IsNumber v) (hs : Stops rest) :
    scanNumber (v ++ rest) = (.number v, rest) := by
  obtain ⟨sign, int, frac, exp, rfl | rfl, hi, hf, he, rfl⟩ := h
  · have hhead : ((int ++ (frac ++ (exp ++ rest))) : Bytes).head? ≠ some (ch '-') := by
      intro hminus
      have hdigit := hi.1.head (frac ++ (exp ++ rest))
      rw [hminus] at hdigit
      exact absurd hdigit (by decide)
    simp only [List.nil_append, List.append_assoc]
    rw [scanNumber_eq hhead, scanInteger_complete hi hf he hs, List.nil_append]
  · simp only [List.append_assoc]
    exact scanInteger_complete hi hf he hs (text "-")

/-! ## Strings -/

variable {signed : Bool}

/-- What is between the quotes of a string, and the bytes that it stands for. -/
inductive Chars (signed : Bool) : Bytes → Bytes → Prop
  | nil : Chars signed [] []
  | char {c : UInt8} {s v : Bytes} : c ≠ ch '"' → c ≠ ch '\\' → Chars signed s v →
      Chars signed (c :: s) (putChar signed c ++ v)
  | escape {e d : UInt8} {s v : Bytes} : unescape e = some d → Chars signed s v →
      Chars signed (ch '\\' :: e :: s) (d :: v)
  | unicode {x y z w : UInt8} {cp : UInt32} {s v : Bytes} :
    codePoint x y z w = some cp → Chars signed s v →
      Chars signed (ch '\\' :: ch 'u' :: x :: y :: z :: w :: s) (writeCodePoint signed cp ++ v)

theorem unescape_isSome (e : UInt8) : (unescape e).isSome = true ↔ e ∈ text "\"\\/bfnrt" :=
  forall_byte (p := fun e => (unescape e).isSome = true ↔ e ∈ text "\"\\/bfnrt")
    (by decide +kernel) e

theorem hexValue_isSome (c : UInt8) : (hexValue c).isSome = isHex c :=
  forall_byte (p := fun c => (hexValue c).isSome = isHex c) (by decide +kernel) c

/-- Four hexadecimal digits are a code point. Kind: L -/
theorem codePoint_isSome (x y z w : UInt8) :
    (codePoint x y z w).isSome = true ↔ isHex x ∧ isHex y ∧ isHex z ∧ isHex w := by
  unfold codePoint
  simp only [← hexValue_isSome]
  rcases hexValue x with _ | a <;> rcases hexValue y with _ | b <;> rcases hexValue z with _ | c <;>
    rcases hexValue w with _ | d <;> simp

/-- **The characters of a string are those of the grammar.** Kind: L -/
theorem isChars_iff (s : Bytes) : IsChars s ↔ ∃ v, Chars signed s v := by
  constructor
  · intro h
    induction h with
    | nil => exact ⟨_, Chars.nil⟩
    | char hq hb _ ih =>
        obtain ⟨v, hv⟩ := ih
        exact ⟨_, Chars.char hq hb hv⟩
    | escape he _ ih =>
        obtain ⟨v, hv⟩ := ih
        obtain ⟨d, hd⟩ := Option.isSome_iff_exists.mp ((unescape_isSome _).mpr he)
        exact ⟨_, Chars.escape hd hv⟩
    | unicode hx hy hz hw _ ih =>
        obtain ⟨v, hv⟩ := ih
        obtain ⟨cp, hcp⟩ := Option.isSome_iff_exists.mp
          ((codePoint_isSome _ _ _ _).mpr ⟨hx, hy, hz, hw⟩)
        exact ⟨_, Chars.unicode hcp hv⟩
  · rintro ⟨v, h⟩
    induction h with
    | nil => exact IsChars.nil
    | char hq hb _ ih => exact IsChars.char hq hb ih
    | escape hd _ ih => exact IsChars.escape ((unescape_isSome _).mp (Option.isSome_of_mem hd)) ih
    | unicode hcp _ ih =>
        obtain ⟨hx, hy, hz, hw⟩ := (codePoint_isSome _ _ _ _).mp (Option.isSome_of_mem hcp)
        exact IsChars.unicode hx hy hz hw ih

theorem scanString_unicode {x y z w : UInt8} {cp : UInt32} (h : codePoint x y z w = some cp)
    (acc rest : Bytes) : scanString signed acc (ch '\\' :: ch 'u' :: x :: y :: z :: w :: rest) =
      scanString signed (acc ++ writeCodePoint signed cp) rest := by
  have hq : ch '\\' ≠ ch '"' := by decide
  have hu : unescape (ch 'u') = none := by decide
  rw [scanString, if_neg hq, if_pos rfl, hu]
  dsimp only
  rw [if_pos rfl, h]

/-- **A string is scanned where there is the text of one.** Kind: L -/
theorem scanString_sound : ∀ (n : ℕ) {acc s rest : Bytes} {tok : JsonToken}, s.length ≤ n →
    scanString signed acc s = (tok, rest) → tok ≠ .invalid →
    ∃ chars value, Chars signed chars value ∧ tok = .string (acc ++ value) ∧
      s = chars ++ ch '"' :: rest := by
  intro n
  induction n with
  | zero =>
      intro acc s rest tok hlen h htok
      rw [List.eq_nil_of_length_eq_zero (Nat.le_zero.mp hlen)] at h
      exact absurd (Prod.mk.inj h).1.symm htok
  | succ n ih =>
      intro acc s rest tok hlen h htok
      have hinvalid : ∀ {rest' : Bytes}, (JsonToken.invalid, rest') ≠ (tok, rest) := fun heq =>
        htok (Prod.mk.inj heq).1.symm
      rcases s with _ | ⟨c, s⟩
      · exact absurd h hinvalid
      · rw [List.length_cons] at hlen
        by_cases hq : c = ch '"'
        · rw [hq, scanString_quote, Prod.mk.injEq] at h
          exact ⟨[], [], Chars.nil, by rw [← h.1, List.append_nil], by rw [hq, h.2]; rfl⟩
        · by_cases hb : c = ch '\\'
          · subst hb
            rcases s with _ | ⟨e, s⟩
            · exact absurd h hinvalid
            · rw [List.length_cons] at hlen
              rcases hd : unescape e with _ | d
              · by_cases hu : e = ch 'u'
                · subst hu
                  rcases s with _ | ⟨x, _ | ⟨y, _ | ⟨z, _ | ⟨w, s⟩⟩⟩⟩
                  · exact absurd h hinvalid
                  · exact absurd h hinvalid
                  · exact absurd h hinvalid
                  · exact absurd h hinvalid
                  · rcases hcp : codePoint x y z w with _ | cp
                    · rw [scanString, if_neg hq, if_pos rfl, hd] at h
                      dsimp only at h
                      rw [if_pos rfl, hcp] at h
                      exact absurd h hinvalid
                    · rw [scanString_unicode hcp] at h
                      simp only [List.length_cons] at hlen
                      obtain ⟨chars, value, hchars, rfl, rfl⟩ := ih (by omega) h htok
                      exact ⟨_, _, Chars.unicode hcp hchars, by rw [List.append_assoc], rfl⟩
                · rw [scanString.eq_def] at h
                  simp only [if_neg hq, if_true, hd, if_neg hu] at h
                  exact absurd h hinvalid
              · rw [scanString_escape hd] at h
                obtain ⟨chars, value, hchars, rfl, rfl⟩ := ih (by omega) h htok
                exact ⟨_, _, Chars.escape hd hchars, by rw [List.append_assoc]; rfl, rfl⟩
          · rw [scanString_char ⟨hq, hb⟩] at h
            obtain ⟨chars, value, hchars, rfl, rfl⟩ := ih (by omega) h htok
            exact ⟨_, _, Chars.char hq hb hchars, by rw [List.append_assoc], rfl⟩

/-- **The text of a string is scanned as one.** Kind: L -/
theorem scanString_complete {chars value : Bytes} (h : Chars signed chars value)
    (acc rest : Bytes) :
    scanString signed acc (chars ++ ch '"' :: rest) = (.string (acc ++ value), rest) := by
  induction h generalizing acc with
  | nil => rw [List.nil_append, scanString_quote, List.append_nil]
  | char hq hb _ ih => rw [List.cons_append, scanString_char ⟨hq, hb⟩, ih, List.append_assoc]
  | escape hd _ ih =>
      rw [List.cons_append, List.cons_append, scanString_escape hd, ih, List.append_assoc]
      rfl
  | unicode hcp _ ih =>
      simp only [List.cons_append]
      rw [scanString_unicode hcp, ih, List.append_assoc]

/-! ## Tokens -/

def Blank (s : Bytes) : Prop := ∀ c ∈ s, isSpace c = true

/-- **The text of a token.** -/
def Spells (signed : Bool) : JsonToken → Bytes → Prop
  | .string v, s => ∃ chars, Chars signed chars v ∧ s = ch '"' :: (chars ++ text "\"")
  | .number v, s => IsNumber v ∧ s = v
  | .true, s => s = text "true"
  | .false, s => s = text "false"
  | .null, s => s = text "null"
  | .leftBrace, s => s = text "\x7b"
  | .rightBrace, s => s = text "\x7d"
  | .leftBracket, s => s = text "["
  | .rightBracket, s => s = text "]"
  | .colon, s => s = text ":"
  | .comma, s => s = text ","
  | .eof, _ | .invalid, _ => False

/-- Only the keyword is read as its token. Kind: L -/
theorem scanKeyword_sound {token tok : JsonToken} (htok : tok ≠ .invalid) (keyword : Bytes) :
    ∀ {s rest : Bytes}, scanKeyword token keyword s = (tok, rest) → tok = token ∧
      s = keyword ++ rest := by
  induction keyword with
  | nil =>
      intro s rest h
      obtain ⟨rfl, rfl⟩ := Prod.mk.inj h
      exact ⟨rfl, rfl⟩
  | cons e keyword ih =>
      intro s rest h
      rcases s with _ | ⟨c, s⟩
      · exact absurd (Prod.mk.inj h).1.symm htok
      · unfold scanKeyword at h
        by_cases hc : c = e
        · rw [if_pos hc] at h
          obtain ⟨htoken, hs⟩ := ih h
          exact ⟨htoken, by rw [hc, hs]; rfl⟩
        · rw [if_neg hc] at h
          exact absurd (Prod.mk.inj h).1.symm htok

theorem scanKeyword_complete (token : JsonToken) (keyword rest : Bytes) :
    scanKeyword token keyword (keyword ++ rest) = (token, rest) := by
  induction keyword with
  | nil => rfl
  | cons e keyword ih =>
      rw [List.cons_append, scanKeyword, if_pos rfl, ih]

/-- The white space in front of a token. Kind: L -/
theorem skipWhitespace_spec (s : Bytes) : ∃ ws, Blank ws ∧ s = ws ++ skipWhitespace s :=
  ⟨s.takeWhile isSpace, fun _ hc => List.mem_takeWhile_imp hc, List.takeWhile_append_dropWhile.symm⟩

/-- **What the lexer does at the first character that is no white space.** Kind: L -/
theorem nextToken_cases (signed : Bool) {s body : Bytes} {c : UInt8}
    (hbody : skipWhitespace s = c :: body) :
    (∃ tok, (∀ sp, Spells signed tok sp ↔ sp = [c]) ∧ nextToken signed s = (tok, body)) ∨
      c = ch '"' ∧ nextToken signed s = scanString signed [] body ∨
      (∃ tok word, (∀ sp, Spells signed tok sp ↔ sp = word) ∧
        nextToken signed s = scanKeyword tok word (c :: body)) ∨
      nextToken signed s = scanNumber (c :: body) ∨ nextToken signed s = (.invalid, c :: body) := by
  unfold nextToken
  rw [hbody]
  dsimp only
  by_cases h₁ : c = ch '{'
  · rw [if_pos h₁, h₁]
    exact Or.inl ⟨_, fun _ => Iff.rfl, rfl⟩
  rw [if_neg h₁]
  by_cases h₂ : c = ch '}'
  · rw [if_pos h₂, h₂]
    exact Or.inl ⟨_, fun _ => Iff.rfl, rfl⟩
  rw [if_neg h₂]
  by_cases h₃ : c = ch '['
  · rw [if_pos h₃, h₃]
    exact Or.inl ⟨_, fun _ => Iff.rfl, rfl⟩
  rw [if_neg h₃]
  by_cases h₄ : c = ch ']'
  · rw [if_pos h₄, h₄]
    exact Or.inl ⟨_, fun _ => Iff.rfl, rfl⟩
  rw [if_neg h₄]
  by_cases h₅ : c = ch ':'
  · rw [if_pos h₅, h₅]
    exact Or.inl ⟨_, fun _ => Iff.rfl, rfl⟩
  rw [if_neg h₅]
  by_cases h₆ : c = ch ','
  · rw [if_pos h₆, h₆]
    exact Or.inl ⟨_, fun _ => Iff.rfl, rfl⟩
  rw [if_neg h₆]
  right
  by_cases h₇ : c = ch '"'
  · rw [if_pos h₇]
    exact Or.inl ⟨h₇, rfl⟩
  rw [if_neg h₇]
  right
  by_cases h₈ : c = ch 't'
  · rw [if_pos h₈]
    exact Or.inl ⟨_, _, fun _ => Iff.rfl, rfl⟩
  rw [if_neg h₈]
  by_cases h₉ : c = ch 'f'
  · rw [if_pos h₉]
    exact Or.inl ⟨_, _, fun _ => Iff.rfl, rfl⟩
  rw [if_neg h₉]
  by_cases h₁₀ : c = ch 'n'
  · rw [if_pos h₁₀]
    exact Or.inl ⟨_, _, fun _ => Iff.rfl, rfl⟩
  rw [if_neg h₁₀]
  right
  by_cases h₁₁ : (isDigit c || c = ch '-') = true
  · rw [if_pos h₁₁]
    exact Or.inl rfl
  · rw [if_neg h₁₁]
    exact Or.inr rfl

/-- **A token that is read has its text there.** Kind: P -/
theorem nextToken_spells {s rest : Bytes} {tok : JsonToken} (h : nextToken signed s = (tok, rest))
    (hinvalid : tok ≠ .invalid) (heof : tok ≠ .eof) :
    ∃ ws sp, Blank ws ∧ Spells signed tok sp ∧ s = ws ++ (sp ++ rest) := by
  obtain ⟨ws, hws, hs⟩ := skipWhitespace_spec s
  refine ⟨ws, ?_⟩
  rcases hbody : skipWhitespace s with _ | ⟨c, body⟩
  · unfold nextToken at h
    rw [hbody] at h
    exact absurd (Prod.mk.inj h).1.symm heof
  · rw [hbody] at hs
    obtain ⟨t, hspells, heq⟩ | ⟨hc, heq⟩ | ⟨t, word, hspells, heq⟩ | heq | heq :=
      nextToken_cases signed hbody
    · obtain ⟨rfl, rfl⟩ := Prod.mk.inj (heq.symm.trans h)
      exact ⟨[c], hws, (hspells _).mpr rfl, hs⟩
    · obtain ⟨chars, value, hchars, rfl, rfl⟩ :=
        scanString_sound _ (le_refl _) (heq.symm.trans h) hinvalid
      refine ⟨ch '"' :: (chars ++ text "\""), hws, ⟨chars, hchars, rfl⟩, ?_⟩
      rw [hs, hc, List.cons_append, List.append_assoc]
      rfl
    · obtain ⟨rfl, hword⟩ := scanKeyword_sound hinvalid word (heq.symm.trans h)
      exact ⟨word, hws, (hspells _).mpr rfl, by rw [hs, hword]⟩
    · obtain ⟨v, hv, rfl, hrest⟩ := scanNumber_sound (heq.symm.trans h) hinvalid
      exact ⟨v, hws, ⟨hv, rfl⟩, by rw [hs, hrest]⟩
    · exact absurd (Prod.mk.inj (heq.symm.trans h)).1.symm hinvalid

/-- The end is read where only white space is left. Kind: L -/
theorem nextToken_eof {s rest : Bytes}
    (h : nextToken signed s = (.eof, rest)) : rest = [] ∧ Blank s := by
  obtain ⟨ws, hws, hs⟩ := skipWhitespace_spec s
  rcases hbody : skipWhitespace s with _ | ⟨c, body⟩
  · unfold nextToken at h
    rw [hbody] at h hs
    rw [hs, List.append_nil]
    exact ⟨(Prod.mk.inj h).2.symm, hws⟩
  · obtain ⟨t, hspells, heq⟩ | ⟨-, heq⟩ | ⟨t, word, hspells, heq⟩ | heq | heq :=
      nextToken_cases signed hbody
    · obtain ⟨rfl, -⟩ := Prod.mk.inj (heq.symm.trans h)
      exact absurd ((hspells _).mpr rfl) id
    · obtain ⟨_, _, _, htok, _⟩ := scanString_sound _ (le_refl _) (heq.symm.trans h) (by decide)
      cases htok
    · obtain ⟨rfl, -⟩ := scanKeyword_sound (by decide) word (heq.symm.trans h)
      exact absurd ((hspells _).mpr rfl) id
    · obtain ⟨_, _, htok, _⟩ := scanNumber_sound (heq.symm.trans h) (by decide)
      cases htok
    · exact absurd (Prod.mk.inj (heq.symm.trans h)).1 (by decide)

/-- **A token is read where its text is.** Kind: P -/
theorem nextToken_of_spells {tok : JsonToken} {sp : Bytes} (h : Spells signed tok sp)
    {ws rest : Bytes}
    (hws : Blank ws) (hs : ∀ v, tok = .number v → Stops rest) :
    nextToken signed (ws ++ (sp ++ rest)) = (tok, rest) := by
  rw [nextToken_append hws]
  cases tok with
  | string v =>
      obtain ⟨chars, hchars, rfl⟩ := h
      have hscan := scanString_complete hchars [] rest
      rw [List.nil_append] at hscan
      rw [← hscan, List.cons_append, List.append_assoc]
      rfl
  | number v =>
      obtain ⟨hv, rfl⟩ := h
      obtain ⟨c, tail, heq, hc⟩ := hv.head rest
      rw [heq, nextToken_scanNumber hc, ← heq, scanNumber_complete hv (hs _ rfl)]
  | true =>
      obtain rfl : sp = text "true" := h
      exact scanKeyword_complete .true (text "true") rest
  | false =>
      obtain rfl : sp = text "false" := h
      exact scanKeyword_complete .false (text "false") rest
  | null =>
      obtain rfl : sp = text "null" := h
      exact scanKeyword_complete .null (text "null") rest
  | leftBrace => obtain rfl : sp = text "\x7b" := h; rfl
  | rightBrace => obtain rfl : sp = text "\x7d" := h; rfl
  | leftBracket => obtain rfl : sp = text "[" := h; rfl
  | rightBracket => obtain rfl : sp = text "]" := h; rfl
  | colon => obtain rfl : sp = text ":" := h; rfl
  | comma => obtain rfl : sp = text "," := h; rfl
  | eof => exact absurd h id
  | invalid => exact absurd h id

end CxyCompiler.Stdlib.Json
