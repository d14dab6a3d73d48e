import Mathlib.Algebra.Order.BigOperators.Group.List
import Mathlib.Data.List.Nodup
import CxyCompiler.Stdlib.Json

/-!
# Values through JSON texts

* `mangle`, `stored`: what comes back of a string and of a value.
* `scan_escaped`: a string is read back as what its characters are written and read as.
* `parse_serialized`: **every value is read back as what is stored of it**, with and without
  indentation.
* **`parse_serializeValue`**: the value read back equals the one written exactly when all its
  strings and keys are ASCII and its integers are values of doubles.
-/

namespace CxyCompiler.Stdlib.Json

open CxyCompiler.Lib.Double
open CxyCompiler.Lib.Numeral (forall_byte)

variable {signed pretty : Bool}

/-! ## White space and single tokens -/

theorem skipWhitespace_append {ws : Bytes} (h : ∀ c ∈ ws, isSpace c = true) (s : Bytes) :
    skipWhitespace (ws ++ s) = skipWhitespace s := by
  unfold skipWhitespace
  exact List.dropWhile_append_of_pos h

/-- White space in front of a token is skipped. Kind: L -/
theorem nextToken_append {ws : Bytes} (h : ∀ c ∈ ws, isSpace c = true) (s : Bytes) :
    nextToken signed (ws ++ s) = nextToken signed s := by
  unfold nextToken
  rw [skipWhitespace_append h]

theorem isSpace_indent (level : ℕ) : ∀ c ∈ getIndent level, isSpace c = true := by
  intro c hc
  simp only [getIndent, List.mem_flatten, List.mem_replicate] at hc
  obtain ⟨t, ⟨-, rfl⟩, hc⟩ := hc
  exact forall_mem_text (p := fun c => isSpace c = true) (by decide) c hc

theorem isSpace_whenPretty {ws : Bytes} (h : ∀ c ∈ ws, isSpace c = true) :
    ∀ c ∈ whenPretty pretty ws, isSpace c = true := by
  intro c hc
  cases pretty with
  | false => exact absurd hc List.not_mem_nil
  | true => exact h c hc

theorem isSpace_newline : ∀ c ∈ text "\n", isSpace c = true := forall_mem_text (by decide)

theorem isSpace_blank : ∀ c ∈ text " ", isSpace c = true := forall_mem_text (by decide)

/-! ## Strings -/

/-- What is read back of a string. -/
def mangle (signed : Bool) (s : Bytes) : Bytes :=
  s.flatMap fun c => (putChar signed c).flatMap (putChar signed)

/-- Escaped characters are ASCII, and an escape stands for the character it was written for.
Kind: L -/
theorem escapeOf_spec {c e : UInt8} (h : escapeOf c = some e) :
    isAscii c = true ∧ unescape e = some c := by
  unfold escapeOf at h
  split_ifs at h with h₁ h₂ h₃ h₄ h₅ h₆ h₇
  all_goals
    subst c
    obtain rfl := Option.some.inj h
    exact ⟨by decide, by decide⟩

/-- Characters that are not escaped do not end the string or begin an escape. Kind: L -/
theorem putChar_plain {c : UInt8} (h : escapeOf c = none) :
    ∀ d ∈ putChar signed c, d ≠ ch '"' ∧ d ≠ ch '\\' := by
  have hascii : ∀ d, isAscii d = false → d ≠ ch '"' ∧ d ≠ ch '\\' := by
    intro d hd
    exact ⟨by rintro rfl; simp [isAscii, ch] at hd, by rintro rfl; simp [isAscii, ch] at hd⟩
  cases hc : isAscii c with
  | true =>
      rw [putChar_ascii signed hc]
      intro d hd
      rw [List.mem_singleton] at hd
      subst hd
      refine ⟨?_, ?_⟩
      · rintro rfl
        exact absurd h (by decide)
      · rintro rfl
        exact absurd h (by decide)
  | false =>
      cases signed with
      | true =>
          rw [putChar_signed hc]
          exact fun d hd => absurd hd List.not_mem_nil
      | false =>
          obtain ⟨a, b, hab, ha, hb⟩ := putChar_unsigned hc
          rw [hab]
          intro d hd
          simp only [List.mem_cons, List.not_mem_nil, or_false] at hd
          rcases hd with rfl | rfl
          · exact hascii _ ha
          · exact hascii _ hb

theorem scanString_quote (acc rest : Bytes) :
    scanString signed acc (ch '"' :: rest) = (.string acc, rest) := by
  rw [scanString.eq_def]
  simp only [if_true]

/-- A character that ends and escapes nothing is read as it is. Kind: L -/
theorem scanString_char {c : UInt8} (h : c ≠ ch '"' ∧ c ≠ ch '\\') (acc rest : Bytes) :
    scanString signed acc (c :: rest) = scanString signed (acc ++ putChar signed c) rest := by
  rw [scanString.eq_def]
  simp only [if_neg h.1, if_neg h.2]

/-- An escape sequence is read as its character. Kind: L -/
theorem scanString_escape {e d : UInt8} (h : unescape e = some d) (acc rest : Bytes) :
    scanString signed acc (ch '\\' :: e :: rest) = scanString signed (acc ++ [d]) rest := by
  have hq : ch '\\' ≠ ch '"' := by decide
  rw [scanString.eq_def]
  simp only [if_neg hq, if_true, h]

/-- Characters without meaning in a string. Kind: L -/
theorem scan_plain (acc cs rest : Bytes) (h : ∀ d ∈ cs, d ≠ ch '"' ∧ d ≠ ch '\\') :
    scanString signed acc (cs ++ rest) = scanString signed
      (acc ++ cs.flatMap (putChar signed)) rest := by
  induction cs generalizing acc with
  | nil => simp
  | cons c cs ih =>
      obtain ⟨hc, hcs⟩ := List.forall_mem_cons.mp h
      rw [List.cons_append, scanString_char hc, ih _ hcs, List.flatMap_cons, List.append_assoc]

/-- **A string is read back as what is written and read of its characters.** Kind: P -/
theorem scan_escaped (acc s rest : Bytes) :
    scanString signed acc (escapeJsonString signed s ++ ch '"' :: rest) =
      (.string (acc ++ mangle signed s), rest) := by
  induction s generalizing acc with
  | nil =>
      have hnil : mangle signed [] = [] := rfl
      rw [hnil, List.append_nil]
      exact scanString_quote acc rest
  | cons c s ih =>
      have hstep : escapeJsonString signed (c :: s) =
          escapeChar signed c ++ escapeJsonString signed s := List.flatMap_cons
      have hmangle : mangle signed (c :: s) =
          (putChar signed c).flatMap (putChar signed) ++ mangle signed s := List.flatMap_cons
      rw [hstep, hmangle, List.append_assoc]
      cases he : escapeOf c with
      | none =>
          simp only [escapeChar, he]
          rw [scan_plain _ _ _ (putChar_plain he), ih, List.append_assoc]
      | some e =>
          obtain ⟨hascii, hun⟩ := escapeOf_spec he
          have hc := putChar_ascii signed hascii
          simp only [escapeChar, he, List.cons_append, List.nil_append]
          rw [scanString_escape hun, ih, hc, List.flatMap_singleton, hc,
            List.append_assoc]

/-- A string that was written is one token. Kind: L -/
theorem nextToken_string (s rest : Bytes) :
    nextToken signed (text "\"" ++ escapeJsonString signed s ++ text "\"" ++ rest) =
      (.string (mangle signed s), rest) := by
  have h : nextToken signed (text "\"" ++ escapeJsonString signed s ++ text "\"" ++ rest) =
      scanString signed [] (escapeJsonString signed s ++ ch '"' :: rest) := by
    simp only [List.append_assoc]
    rfl
  rw [h, scan_escaped, List.nil_append]

/-! ## Numbers -/

/-- What may stand behind a number. -/
def Stops (s : Bytes) : Prop :=
  ∀ c ∈ s.head?, isDigit c = false ∧ c ≠ ch '.' ∧ c ≠ ch 'e' ∧ c ≠ ch 'E'

theorem stops_nil : Stops [] := by simp [Stops]

theorem toNat_of_isDigit {c : Char} (h : c.isDigit = true) : 48 ≤ c.toNat ∧ c.toNat ≤ 57 := by
  simpa [Char.isDigit, UInt32.le_iff_toNat_le] using h

theorem isDigit_ch {c : Char} (h : c.isDigit = true) : isDigit (ch c) = true := by
  obtain ⟨h₁, h₂⟩ := toNat_of_isDigit h
  have hall : ∀ n : ℕ, n < 58 → 48 ≤ n → isDigit n.toUInt8 = true := by decide
  exact hall c.toNat (by omega) h₁

theorem digitValue_ch {c : Char} (h : c.isDigit = true) :
    (ch c - ch '0').toNat = c.toNat - 48 := by
  obtain ⟨h₁, h₂⟩ := toNat_of_isDigit h
  have hall : ∀ n : ℕ, n < 58 → 48 ≤ n → (n.toUInt8 - ch '0').toNat = n - 48 := by decide
  exact hall c.toNat (by omega) h₁

theorem digits_isDigit (n : ℕ) : ∀ c ∈ digits n, isDigit c = true := by
  intro c hc
  obtain ⟨d, hd, rfl⟩ := List.mem_map.mp hc
  exact isDigit_ch (Nat.isDigit_of_mem_toDigits (by decide) (by decide) hd)

/-- **The digits of a number have its value.** Kind: L -/
theorem digitsValue_digits (n : ℕ) : digitsValue (digits n) = n := by
  have hfold : ∀ (l : List Char) (m : ℕ), (∀ c ∈ l, c.isDigit = true) →
      (l.map ch).foldl (fun n c => n * 10 + (c - ch '0').toNat) m = Nat.ofDigitChars 10 l m := by
    intro l
    induction l with
    | nil => exact fun _ _ => rfl
    | cons c l ih =>
        intro m hl
        obtain ⟨hc, hl⟩ := List.forall_mem_cons.mp hl
        rw [List.map_cons, List.foldl_cons, ih _ hl, digitValue_ch hc, Nat.ofDigitChars_cons,
          Nat.mul_comm m 10]
        rfl
  have := hfold (Nat.toDigits 10 n) 0 fun c hc =>
    Nat.isDigit_of_mem_toDigits (by decide) (by decide) hc
  rw [Nat.ofDigitChars_ten_toDigits] at this
  exact this

/-- The digits of a number other than 0 do not begin with 0. Kind: L -/
theorem digits_head {n : ℕ} (hn : 0 < n) : ∃ c ds, digits n = c :: ds ∧ c ≠ ch '0' := by
  induction n using Nat.strong_induction_on with | h n ih
  unfold digits
  by_cases hlt : n < 10
  · rw [Nat.toDigits_of_lt_base hlt]
    have hall : ∀ k : ℕ, k < 10 → 0 < k → ch k.digitChar ≠ ch '0' := by decide
    exact ⟨_, _, rfl, hall n hlt hn⟩
  · rw [Nat.toDigits_of_base_le (by decide) (by omega)]
    obtain ⟨c, ds, hds, hc⟩ := ih (n / 10) (by omega) (by omega)
    unfold digits at hds
    exact ⟨c, ds ++ [ch (n % 10).digitChar], by rw [List.map_append, hds]; rfl, hc⟩

theorem digits_ne_nil (n : ℕ) : digits n ≠ [] := by
  simp [digits, Nat.toDigits_ne_nil]

/-- Digits end where none follows. Kind: L -/
theorem spanDigits_append {ds s : Bytes} (hds : ∀ c ∈ ds, isDigit c = true)
    (hs : ∀ c ∈ s.head?, isDigit c = false) : spanDigits (ds ++ s) = (ds, s) := by
  unfold spanDigits
  rw [List.takeWhile_append_of_pos hds, List.dropWhile_append_of_pos hds]
  cases s with
  | nil => simp
  | cons c s => simp [hs c (by simp)]

theorem scanFraction_stops {s : Bytes} (h : Stops s) (acc : Bytes) :
    scanFraction acc s = (.number acc, s) := by
  cases s with
  | nil => rfl
  | cons c s =>
      obtain ⟨-, hdot, he, hE⟩ := h c (by simp)
      simp only [scanFraction, if_neg hdot, scanExponent, he, hE, decide_false, Bool.or_self,
        Bool.false_eq_true, if_false]

/-- **A number is read back as it was written.** Kind: L -/
theorem scan_digits (n : ℕ) (sign : Bytes) {s : Bytes} (h : Stops s) :
    ∃ c ds, digits n = c :: ds ∧ isDigit c = true ∧
      (if c = ch '0' then scanFraction (sign ++ [c]) (ds ++ s)
        else scanFraction (sign ++ (spanDigits (c :: (ds ++ s))).1)
          (spanDigits (c :: (ds ++ s))).2) =
        (.number (sign ++ digits n), s) := by
  rcases Nat.eq_zero_or_pos n with rfl | hn
  · refine ⟨ch '0', [], rfl, by decide, ?_⟩
    rw [if_pos rfl]
    exact scanFraction_stops h _
  · obtain ⟨c, ds, hds, hc⟩ := digits_head hn
    have hdigits := digits_isDigit n
    rw [hds] at hdigits
    refine ⟨c, ds, hds, hdigits c List.mem_cons_self, ?_⟩
    have hspan := spanDigits_append hdigits (fun c hc => (h c hc).1)
    rw [List.cons_append] at hspan
    rw [if_neg hc, hspan, scanFraction_stops h, hds]

/-- A number that was written is read up to its end. Kind: L -/
theorem scanNumber_digits (n : ℕ) {s : Bytes} (h : Stops s) :
    scanNumber (digits n ++ s) = (.number (digits n), s) := by
  obtain ⟨c, ds, hds, hc, hscan⟩ := scan_digits n [] h
  have hminus : c ≠ ch '-' := by
    rintro rfl
    exact absurd hc (by decide)
  rw [hds] at hscan ⊢
  simp only [List.cons_append, scanNumber, if_neg hminus, hc, Bool.not_true, Bool.false_eq_true,
    if_false]
  exact hscan

theorem scanNumber_minus (n : ℕ) {s : Bytes} (h : Stops s) :
    scanNumber (ch '-' :: (digits n ++ s)) = (.number (ch '-' :: digits n), s) := by
  obtain ⟨c, ds, hds, hc, hscan⟩ := scan_digits n [ch '-'] h
  rw [hds] at hscan ⊢
  simp only [List.cons_append, scanNumber, if_true, hc, Bool.not_true, Bool.false_eq_true, if_false]
  exact hscan

/-- A token that begins like a number is scanned as one. Kind: L -/
theorem nextToken_scanNumber {c : UInt8} (h : (isDigit c || c = ch '-') = true) (s : Bytes) :
    nextToken signed (c :: s) = scanNumber (c :: s) := by
  have hc : isSpace c = false ∧
      c ∉ (text "\x7b\x7d[]:,\"tfn" : Bytes) :=
    forall_byte (p := fun c => (isDigit c || c = ch '-') = true → isSpace c = false ∧
      c ∉ (text "\x7b\x7d[]:,\"tfn" : Bytes)) (by decide +kernel) c h
  obtain ⟨hsp, hnot⟩ := hc
  have hne : ∀ d ∈ (text "\x7b\x7d[]:,\"tfn" : Bytes), c ≠ d := fun d hd he => hnot (he ▸ hd)
  obtain ⟨h₁, h₂, h₃, h₄, h₅, h₆, h₇, h₈, h₉, h₁₀⟩ :
      c ≠ ch '{' ∧ c ≠ ch '}' ∧ c ≠ ch '[' ∧ c ≠ ch ']' ∧ c ≠ ch ':' ∧ c ≠ ch ',' ∧
        c ≠ ch '"' ∧ c ≠ ch 't' ∧ c ≠ ch 'f' ∧ c ≠ ch 'n' := by
    refine ⟨?_, ?_, ?_, ?_, ?_, ?_, ?_, ?_, ?_, ?_⟩ <;> exact hne _ (by decide)
  have hskip : skipWhitespace (c :: s) = c :: s := by
    rw [skipWhitespace, List.dropWhile_cons_of_neg (by simp [hsp])]
  unfold nextToken
  simp only [hskip, if_neg h₁, if_neg h₂, if_neg h₃, if_neg h₄, if_neg h₅, if_neg h₆, if_neg h₇,
    if_neg h₈, if_neg h₉, if_neg h₁₀, h, if_true]

/-- An integer that was written is one token. Kind: L -/
theorem nextToken_int (i : ℤ) {s : Bytes} (h : Stops s) :
    nextToken signed (appendSignedInt i ++ s) = (.number (appendSignedInt i), s) := by
  unfold appendSignedInt
  split
  · rw [List.cons_append, nextToken_scanNumber (by decide)]
    exact scanNumber_minus _ h
  · obtain ⟨c, ds, hds⟩ := List.exists_cons_of_ne_nil (digits_ne_nil i.natAbs)
    have hc : isDigit c = true := digits_isDigit i.natAbs c (by rw [hds]; exact List.mem_cons_self)
    rw [hds, List.cons_append, nextToken_scanNumber (by rw [hc]; rfl), ← List.cons_append, ← hds]
    exact scanNumber_digits _ h

/-- The digits of a number give it back. Kind: L -/
theorem magnitude_digits (n : ℕ) : magnitude (digits n) = n := by
  have hspan := spanDigits_append (s := []) (digits_isDigit n) (by simp)
  rw [List.append_nil] at hspan
  unfold magnitude
  simp [hspan, digitsValue_digits, exponentValue]

/-- **The number read back is the double nearest to the integer.** Kind: P -/
theorem tof_int (i : ℤ) : tof (appendSignedInt i) = ofInt i := by
  unfold appendSignedInt ofInt
  have habs : |(i : ℚ)| = (i.natAbs : ℚ) := by
    rw [Nat.cast_natAbs, Int.cast_abs]
  rw [habs]
  by_cases hi : i < 0
  · simp only [hi, if_true, tof, decide_true, magnitude_digits]
  · obtain ⟨c, ds, hds⟩ := List.exists_cons_of_ne_nil (digits_ne_nil i.natAbs)
    have hc : isDigit c = true := digits_isDigit i.natAbs c (by rw [hds]; exact List.mem_cons_self)
    have hminus : c ≠ ch '-' := by
      rintro rfl
      exact absurd hc (by decide)
    have hmag := magnitude_digits i.natAbs
    rw [hds] at hmag
    simp only [hi, if_false, hds, tof, if_neg hminus, hmag, decide_false]

/-! ## Values -/

mutual

/-- What is read back of a value without doubles. -/
def stored (signed : Bool) : Value → Value
  | .null => .null
  | .bool b => .bool b
  | .float f => .float f
  | .int i => .float (ofInt i.toInt)
  | .string s => .string (mangle signed s)
  | .array xs => .array (storedItems signed xs)
  | .object es => .object (storedEntries signed [] es)

def storedItems (signed : Bool) : List Value → List Value
  | [] => []
  | x :: xs => stored signed x :: storedItems signed xs

/-- The entries are set one after the other. -/
def storedEntries (signed : Bool) : List (Bytes × Value) → List (Bytes × Value) →
    List (Bytes × Value)
  | acc, [] => acc
  | acc, (key, x) :: es =>
      storedEntries signed (setEntry (mangle signed key) (stored signed x) acc) es

end

mutual

/-- The fuel that is needed to read a value. -/
def cost : Value → ℕ
  | .array xs => 1 + costItems xs
  | .object es => 1 + costEntries es
  | _ => 1

def costItems : List Value → ℕ
  | [] => 0
  | x :: xs => 1 + cost x + costItems xs

def costEntries : List (Bytes × Value) → ℕ
  | [] => 0
  | (_, x) :: es => 1 + cost x + costEntries es

end

mutual

/-- A value without doubles. -/
def NoFloat : Value → Prop
  | .float _ => False
  | .array xs => NoFloatItems xs
  | .object es => NoFloatEntries es
  | _ => True

def NoFloatItems : List Value → Prop
  | [] => True
  | x :: xs => NoFloat x ∧ NoFloatItems xs

def NoFloatEntries : List (Bytes × Value) → Prop
  | [] => True
  | (_, x) :: es => NoFloat x ∧ NoFloatEntries es

end

theorem cost_pos (v : Value) : 1 ≤ cost v := by
  cases v <;> simp [cost]

/-- In front of every entry but the first stands a comma. Kind: L -/
theorem serializeEntries_comma (p : Printers) (indent : ℕ) (e : Bytes × Value)
    (es : List (Bytes × Value)) :
    serializeEntries p indent pretty false (e :: es) =
      text "," ++ (whenPretty pretty (text "\n") ++ serializeEntries p indent pretty true
        (e :: es)) := by
  obtain ⟨key, x⟩ := e
  simp only [serializeEntries, Bool.false_eq_true, if_false, if_true, List.nil_append,
    List.append_assoc]

/-- A bracket is no item. Kind: L -/
theorem parseItems_rightBracket (fuel depth : ℕ) (acc : List Value) (s : Bytes)
    (r : Value × Cursor) :
    parseItems signed fuel depth acc (.rightBracket, s) ≠ .done r := by
  cases fuel with
  | zero => simp [parseItems]
  | succ fuel =>
      cases fuel with
      | zero => simp [parseItems, parseValue]
      | succ fuel =>
          have hraised : ∃ msg, parseValue signed (fuel + 1) depth
            (.rightBracket, s) = .raised msg := by
            unfold parseValue
            split
            · exact ⟨_, rfl⟩
            · exact ⟨_, rfl⟩
          obtain ⟨msg, hmsg⟩ := hraised
          rw [parseItems, hmsg]
          exact fun h => by cases h

/-- A value is not read at a closing bracket. Kind: L -/
theorem parseValue_array {fuel depth : ℕ} (hdepth : depth < maxDepth) {s : Bytes}
    {r : Value × Cursor}
    (h : parseItems signed fuel (depth + 1) [] (nextToken signed s) = .done r) :
    parseValue signed (fuel + 1) depth (.leftBracket, s) = .done r := by
  rw [parseValue, if_neg (by omega)]
  split
  · next s' heq =>
    rw [heq] at h
    exact absurd h (parseItems_rightBracket _ _ _ _ _)
  · exact h

/-- A brace is no member. Kind: L -/
theorem parseMembers_rightBrace (fuel depth : ℕ) (acc : List (Bytes × Value)) (s : Bytes)
    (r : Value × Cursor) : parseMembers signed fuel depth acc (.rightBrace, s) ≠ .done r := by
  cases fuel <;> simp [parseMembers]

/-- An object is read when its members are. Kind: L -/
theorem parseValue_object {fuel depth : ℕ} (hdepth : depth < maxDepth) {s : Bytes}
    {r : Value × Cursor}
    (h : parseMembers signed fuel (depth + 1) [] (nextToken signed s) = .done r) :
    parseValue signed (fuel + 1) depth (.leftBrace, s) = .done r := by
  rw [parseValue, if_neg (by omega)]
  split
  · next s' heq =>
    rw [heq] at h
    exact absurd h (parseMembers_rightBrace _ _ _ _ _)
  · exact h

/-- A character behind which no number goes on. Kind: L -/
theorem stops_cons {c : UInt8} (h : c ∈ (text ",]\x7d\n" : Bytes))
    (s : Bytes) : Stops (c :: s) := by
  intro d hd
  simp only [List.head?_cons, Option.mem_def, Option.some.injEq] at hd
  subst hd
  exact forall_mem_text
    (p := fun c => isDigit c = false ∧ c ≠ ch '.' ∧ c ≠ ch 'e' ∧ c ≠ ch 'E') (by decide) c h

/-- A closing bracket ends a number. Kind: L -/
theorem stops_close {close : UInt8} (h : close ∈ (text "]\x7d" : Bytes)) (level : ℕ)
    (rest : Bytes) :
    Stops (whenPretty pretty (text "\n") ++
      (whenPretty pretty (getIndent level) ++ (close :: rest))) := by
  cases pretty with
  | true => exact stops_cons (c := ch '\n') (by decide) _
  | false =>
      refine stops_cons ?_ _
      exact forall_mem_text (p := fun c => c ∈ (text ",]\x7d\n" : Bytes)) (by decide) close h

mutual

/-- **Every value is read back as what is stored of it.** Kind: P -/
theorem parse_serialized (p : Printers) (pretty : Bool) :
    ∀ (v : Value) (indent depth fuel : ℕ) (rest : Bytes), NoFloat v →
      v.depth + depth < maxDepth → cost v ≤ fuel → Stops rest →
      parseValue p.signed fuel depth
        (nextToken p.signed (serializeValue p indent pretty v ++ rest)) =
        .done (stored p.signed v, nextToken p.signed rest)
  | v, _, _, 0, _, _, _, hfuel, _ => absurd hfuel (by have := cost_pos v; omega)
  | .null, indent, depth, fuel + 1, rest, _, hdepth, _, _ => by
      have htok : nextToken p.signed
        (serializeValue p indent pretty .null ++ rest) = (.null, rest) := rfl
      rw [htok, parseValue, if_neg (by omega), stored]
  | .bool b, indent, depth, fuel + 1, rest, _, hdepth, _, _ => by
      cases b with
      | true =>
          have htok : nextToken p.signed (serializeValue p indent pretty (.bool true) ++ rest) =
              (.true, rest) := rfl
          rw [htok, parseValue, if_neg (by omega), stored]
      | false =>
          have htok : nextToken p.signed (serializeValue p indent pretty (.bool false) ++ rest) =
              (.false, rest) := rfl
          rw [htok, parseValue, if_neg (by omega), stored]
  | .int i, indent, depth, fuel + 1, rest, _, hdepth, _, hstops => by
      rw [serializeValue, nextToken_int _ hstops, parseValue, if_neg (by omega), stored]
      simp only [tof_int]
  | .float f, _, _, _ + 1, _, hfloat, _, _, _ => hfloat.elim
  | .string s, indent, depth, fuel + 1, rest, _, hdepth, _, _ => by
      rw [serializeValue, nextToken_string, parseValue, if_neg (by omega), stored]
  | .array [], indent, depth, fuel + 1, rest, _, hdepth, _, _ => by
      have htok : nextToken p.signed (serializeValue p indent pretty (.array []) ++ rest) =
          (.leftBracket, ch ']' :: rest) := by
        cases pretty <;> rfl
      have hclose : nextToken p.signed (ch ']' :: rest) = (.rightBracket, rest) := rfl
      rw [htok, parseValue, if_neg (by omega)]
      simp only [hclose, stored, storedItems]
  | .array (x :: xs), indent, depth, fuel + 1, rest, hfloat, hdepth, hfuel, _ => by
      have htext : serializeValue p indent pretty (.array (x :: xs)) ++ rest =
          ch '[' :: (whenPretty pretty (text "\n") ++ (serializeItems p indent pretty (x :: xs) ++
            (whenPretty pretty (getIndent indent) ++ (ch ']' :: rest)))) := by
        have hopen : text "[" = [ch '['] := rfl
        have hclose : text "]" = [ch ']'] := rfl
        rw [serializeValue, hopen, hclose]
        simp
      have htok : ∀ s, nextToken p.signed (ch '[' :: s) = (.leftBracket, s) := fun _ => rfl
      simp only [Value.depth, cost] at hdepth hfuel
      rw [htext, htok]
      refine parseValue_array (by omega) ?_
      rw [nextToken_append (isSpace_whenPretty isSpace_newline),
        parse_serializedItems p pretty x xs indent (depth + 1) fuel [] rest hfloat (by omega)
          (by omega)]
      rfl
  | .object [], indent, depth, fuel + 1, rest, _, hdepth, _, _ => by
      have htok : nextToken p.signed (serializeValue p indent pretty (.object []) ++ rest) =
          (.leftBrace, ch '}' :: rest) := by
        cases pretty <;> rfl
      have hclose : nextToken p.signed (ch '}' :: rest) = (.rightBrace, rest) := rfl
      rw [htok, parseValue, if_neg (by omega)]
      simp only [hclose, stored, storedEntries]
  | .object ((key, x) :: es), indent, depth, fuel + 1, rest, hfloat, hdepth, hfuel, _ => by
      have htext : serializeValue p indent pretty (.object ((key, x) :: es)) ++ rest =
          ch '{' :: (whenPretty pretty (text "\n") ++
            (serializeEntries p indent pretty true ((key, x) :: es) ++
              (whenPretty pretty (text "\n") ++ (whenPretty pretty (getIndent indent) ++
                (ch '}' :: rest))))) := by
        have hopen : text "\x7b" = [ch '{'] := rfl
        have hclose : text "\x7d" = [ch '}'] := rfl
        rw [serializeValue, hopen, hclose]
        cases pretty <;> simp [whenPretty]
      have htok : ∀ s, nextToken p.signed (ch '{' :: s) = (.leftBrace, s) := fun _ => rfl
      simp only [Value.depth, cost] at hdepth hfuel
      rw [htext, htok]
      refine parseValue_object (by omega) ?_
      rw [nextToken_append (isSpace_whenPretty isSpace_newline),
        parse_serializedEntries p pretty key x es indent (depth + 1) fuel [] rest hfloat (by omega)
          (by omega)]
      rfl
termination_by _ _ _ fuel => fuel

/-- **The items of an array are read back**, behind those that have been read. Kind: L -/
theorem parse_serializedItems (p : Printers) (pretty : Bool) :
    ∀ (x : Value) (xs : List Value) (indent depth fuel : ℕ) (acc : List Value) (rest : Bytes),
      NoFloatItems (x :: xs) → Value.depthItems (x :: xs) + depth ≤ maxDepth →
      costItems (x :: xs) ≤ fuel →
      parseItems p.signed fuel depth acc (nextToken p.signed
        (serializeItems p indent pretty (x :: xs) ++
          (whenPretty pretty (getIndent indent) ++ (ch ']' :: rest)))) =
        .done (.array (acc ++ storedItems p.signed (x :: xs)), nextToken p.signed rest)
  | x, xs, indent, depth, 0, acc, rest, _, _, hfuel => absurd hfuel (by simp [costItems])
  | x, xs, indent, depth, fuel + 1, acc, rest, ⟨hx, hxs⟩, hdepth, hfuel => by
      have htext : ∀ close, serializeItems p indent pretty (x :: xs) ++ close =
          whenPretty pretty (getIndent (indent + 1)) ++ (serializeValue p (indent + 1) pretty x ++
            ((if xs.isEmpty then [] else text ",") ++ (whenPretty pretty (text "\n") ++
              (serializeItems p indent pretty xs ++ close)))) := by
        intro close
        rw [serializeItems]
        simp only [List.append_assoc]
      simp only [Value.depthItems, costItems] at hdepth hfuel
      rw [htext, nextToken_append (isSpace_whenPretty (isSpace_indent _))]
      cases xs with
      | nil =>
          simp only [List.isEmpty_nil, if_true, List.nil_append, serializeItems]
          have hclose : nextToken p.signed (whenPretty pretty (text "\n") ++
              (whenPretty pretty (getIndent indent) ++ (ch ']' :: rest))) =
                (.rightBracket, rest) := by
            rw [nextToken_append (isSpace_whenPretty isSpace_newline),
              nextToken_append (isSpace_whenPretty (isSpace_indent _))]
            rfl
          rw [parseItems, parse_serialized p pretty x (indent + 1) depth fuel _ hx (by omega)
            (by omega) (stops_close (by decide) _ _), hclose]
          rfl
      | cons y ys =>
          have hcomma : ∀ s, nextToken p.signed (ch ',' :: s) = (.comma, s) := fun _ => rfl
          have hsep : text "," = [ch ','] := rfl
          simp only [List.isEmpty_cons, Bool.false_eq_true, if_false, hsep, List.cons_append,
            List.nil_append]
          rw [parseItems, parse_serialized p pretty x (indent + 1) depth fuel _ hx (by omega)
            (by omega) (stops_cons (by decide) _), hcomma]
          dsimp only
          rw [nextToken_append (isSpace_whenPretty isSpace_newline),
            parse_serializedItems p pretty y ys indent depth fuel _ rest hxs (by omega) (by omega)]
          simp only [storedItems, List.append_assoc, List.cons_append, List.nil_append]
termination_by _ _ _ _ fuel => fuel

/-- **The entries of an object are read back**, after those that have been read. Kind: L -/
theorem parse_serializedEntries (p : Printers) (pretty : Bool) :
    ∀ (key : Bytes) (x : Value) (es : List (Bytes × Value)) (indent depth fuel : ℕ)
      (acc : List (Bytes × Value)) (rest : Bytes),
      NoFloatEntries ((key, x) :: es) → Value.depthEntries ((key, x) :: es) + depth ≤ maxDepth →
      costEntries ((key, x) :: es) ≤ fuel →
      parseMembers p.signed fuel depth acc (nextToken p.signed
        (serializeEntries p indent pretty true ((key, x) :: es) ++
          (whenPretty pretty (text "\n") ++ (whenPretty pretty (getIndent indent) ++
            (ch '}' :: rest))))) =
        .done (.object (storedEntries p.signed acc ((key, x) :: es)), nextToken p.signed rest)
  | key, x, es, indent, depth, 0, acc, rest, _, _, hfuel => absurd hfuel (by simp [costEntries])
  | key, x, es, indent, depth, fuel + 1, acc, rest, ⟨hx, hes⟩, hdepth, hfuel => by
      have htext : ∀ close, serializeEntries p indent pretty true ((key, x) :: es) ++ close =
          whenPretty pretty (getIndent (indent + 1)) ++
            ((text "\"" ++ escapeJsonString p.signed key ++ text "\"") ++ (ch ':' ::
              (whenPretty pretty (text " ") ++ (serializeValue p (indent + 1) pretty x ++
                (serializeEntries p indent pretty false es ++ close))))) := by
        intro close
        have hcolon : text "\":" = text "\"" ++ [ch ':'] := rfl
        rw [serializeEntries, hcolon]
        simp
      have hcolon : ∀ s, nextToken p.signed (ch ':' :: s) = (.colon, s) := fun _ => rfl
      simp only [Value.depthEntries, costEntries] at hdepth hfuel
      rw [htext, nextToken_append (isSpace_whenPretty (isSpace_indent _)), nextToken_string,
        parseMembers, hcolon]
      dsimp only
      rw [nextToken_append (isSpace_whenPretty isSpace_blank)]
      cases es with
      | nil =>
          have hclose : nextToken p.signed (whenPretty pretty (text "\n") ++
              (whenPretty pretty (getIndent indent) ++ (ch '}' :: rest))) =
                (.rightBrace, rest) := by
            rw [nextToken_append (isSpace_whenPretty isSpace_newline),
              nextToken_append (isSpace_whenPretty (isSpace_indent _))]
            rfl
          rw [serializeEntries, List.nil_append,
            parse_serialized p pretty x (indent + 1) depth fuel _ hx (by omega) (by omega)
              (stops_close (by decide) _ _), hclose]
          rfl
      | cons e es =>
          obtain ⟨key', y⟩ := e
          have hcomma : ∀ s, nextToken p.signed (ch ',' :: s) = (.comma, s) := fun _ => rfl
          have hsep : text "," = [ch ','] := rfl
          rw [serializeEntries_comma, hsep]
          simp only [List.cons_append, List.nil_append, List.append_assoc]
          rw [parse_serialized p pretty x (indent + 1) depth fuel _ hx (by omega) (by omega)
              (stops_cons (by decide) _), hcomma]
          dsimp only
          rw [nextToken_append (isSpace_whenPretty isSpace_newline),
            parse_serializedEntries p pretty key' y es indent depth fuel _ rest hes (by omega)
              (by omega)]
          rfl
termination_by _ _ _ _ _ fuel => fuel

end

/-! ## When a value comes back as it was -/

mutual

/-- All strings and keys are ASCII, and all integers are values of doubles. -/
def Plain : Value → Prop
  | .int i => isValueOf i (ofInt i.toInt)
  | .string s => ∀ c ∈ s, isAscii c = true
  | .array xs => PlainItems xs
  | .object es => PlainEntries es
  | _ => True

def PlainItems : List Value → Prop
  | [] => True
  | x :: xs => Plain x ∧ PlainItems xs

def PlainEntries : List (Bytes × Value) → Prop
  | [] => True
  | (key, x) :: es => (∀ c ∈ key, isAscii c = true) ∧ Plain x ∧ PlainEntries es

end

/-- Where `char` is signed, what is not ASCII is left out. Kind: L -/
theorem mangle_signed (s : Bytes) : mangle true s = s.filter isAscii := by
  induction s with
  | nil => rfl
  | cons c s ih =>
      have hcons : mangle true (c :: s) =
          (putChar true c).flatMap (putChar true) ++ mangle true s := List.flatMap_cons
      rw [hcons, ih]
      cases hc : isAscii c with
      | true => simp [putChar_ascii true hc, hc]
      | false => simp [putChar_signed hc, hc]

/-- Where it is unsigned, four characters stand for each that is not ASCII. Kind: L -/
theorem length_mangle_unsigned (s : Bytes) :
    (mangle false s).length = s.length + 3 * s.countP (fun c => !isAscii c) := by
  induction s with
  | nil => rfl
  | cons c s ih =>
      have hcons : mangle false (c :: s) =
          (putChar false c).flatMap (putChar false) ++ mangle false s := List.flatMap_cons
      rw [hcons, List.length_append, ih]
      cases hc : isAscii c with
      | true => simp [putChar_ascii false hc, hc]; omega
      | false =>
          obtain ⟨a, b, hab, ha, hb⟩ := putChar_unsigned hc
          obtain ⟨a', b', hab', -, -⟩ := putChar_unsigned ha
          obtain ⟨a'', b'', hab'', -, -⟩ := putChar_unsigned hb
          simp [hab, hab', hab'', hc]
          omega

/-- A text of ASCII characters is stored as it is. Kind: L -/
theorem mangle_ascii {s : Bytes} (h : ∀ c ∈ s, isAscii c = true) : mangle signed s = s := by
  induction s with
  | nil => rfl
  | cons c s ih =>
      obtain ⟨hc, hs⟩ := List.forall_mem_cons.mp h
      have hcons : mangle signed (c :: s) =
          (putChar signed c).flatMap (putChar signed) ++ mangle signed s := List.flatMap_cons
      rw [hcons, ih hs, putChar_ascii signed hc, List.flatMap_singleton, putChar_ascii signed hc]
      rfl

/-- **A string comes back as it was exactly when it is ASCII.** Kind: P -/
theorem mangle_eq_iff (s : Bytes) : mangle signed s = s ↔ ∀ c ∈ s, isAscii c = true := by
  refine ⟨fun h => ?_, mangle_ascii⟩
  cases signed with
  | true =>
      rw [mangle_signed] at h
      exact List.filter_eq_self.mp h
  | false =>
      have hlen := length_mangle_unsigned s
      rw [h] at hlen
      have hzero : s.countP (fun c => !isAscii c) = 0 := by omega
      simpa using List.countP_eq_zero.mp hzero

/-- What is not ASCII stays so where `char` is unsigned. Kind: L -/
theorem mangle_unsigned_not_ascii {s : Bytes} (h : ¬∀ c ∈ s, isAscii c = true) :
    ¬∀ c ∈ mangle false s, isAscii c = true := by
  intro hall
  apply h
  intro c hc
  by_contra hno
  simp only [Bool.not_eq_true] at hno
  obtain ⟨a, b, hab, ha, -⟩ := putChar_unsigned hno
  obtain ⟨a', b', hab', ha', -⟩ := putChar_unsigned ha
  have hmem : a' ∈ mangle false s := by
    refine List.mem_flatMap.mpr ⟨c, hc, List.mem_flatMap.mpr ⟨a, ?_, ?_⟩⟩
    · rw [hab]
      exact List.mem_cons_self
    · rw [hab']
      exact List.mem_cons_self
  rw [hall a' hmem] at ha'
  cases ha'

/-- **Keys that come back as the same set are ASCII.** Where `char` is unsigned a key that is not
would lead to longer and longer ones. Kind: L -/
theorem keys_ascii {ks : List Bytes} (h : ∀ k, k ∈ ks ↔ k ∈ ks.map (mangle signed)) :
    ∀ k ∈ ks, ∀ c ∈ k, isAscii c = true := by
  cases signed with
  | true =>
      intro k hk
      obtain ⟨k', -, rfl⟩ := List.mem_map.mp ((h k).mp hk)
      rw [mangle_signed]
      exact fun c hc => (List.mem_filter.mp hc).2
  | false =>
      intro k hk
      by_contra hno
      have grow : ∀ n, ∃ k ∈ ks, (¬∀ c ∈ k, isAscii c = true) ∧ n ≤ k.length := by
        intro n
        induction n with
        | zero => exact ⟨k, hk, hno, Nat.zero_le _⟩
        | succ n ih =>
            obtain ⟨k, hk, hno, hn⟩ := ih
            refine ⟨mangle false k, (h _).mpr (List.mem_map_of_mem hk),
              mangle_unsigned_not_ascii hno, ?_⟩
            have hlen := length_mangle_unsigned k
            have hpos : k.countP (fun c => !isAscii c) ≠ 0 := fun hzero =>
              hno (by simpa using List.countP_eq_zero.mp hzero)
            omega
      obtain ⟨k, hk, -, hlen⟩ := grow ((ks.map List.length).sum + 1)
      have := List.single_le_sum (by simp) _ (List.mem_map_of_mem (f := List.length) hk)
      omega

/-! ## Objects -/

/-- The keys that are stored are those that were written. Kind: L -/
theorem mem_keys_storedEntries {k : Bytes} (es : List (Bytes × Value)) :
    ∀ acc, k ∈ (storedEntries signed acc es).map Prod.fst ↔
      k ∈ acc.map Prod.fst ∨ k ∈ (es.map Prod.fst).map (mangle signed) := by
  induction es with
  | nil => simp [storedEntries]
  | cons e es ih =>
      obtain ⟨key, x⟩ := e
      intro acc
      rw [storedEntries, ih, mem_keys_setEntry]
      simp only [List.map_cons, List.mem_cons]
      tauto

/-- Distinct ASCII keys keep their entries. Kind: L -/
theorem storedEntries_ascii (es : List (Bytes × Value)) :
    ∀ acc : List (Bytes × Value), (∀ e ∈ es, ∀ c ∈ e.1, isAscii c = true) →
      (es.map Prod.fst).Nodup → (∀ e ∈ es, e.1 ∉ acc.map Prod.fst) →
      storedEntries signed acc es = acc ++ es.map fun e => (e.1, stored signed e.2) := by
  induction es with
  | nil => simp [storedEntries]
  | cons e es ih =>
      obtain ⟨key, x⟩ := e
      intro acc hascii hnodup hnew
      obtain ⟨hkey, hes⟩ := List.forall_mem_cons.mp hascii
      obtain ⟨hnot, hrest⟩ := List.forall_mem_cons.mp hnew
      simp only [List.map_cons, List.nodup_cons] at hnodup
      rw [storedEntries, mangle_ascii hkey, setEntry_new hnot, ih _ hes hnodup.2]
      · simp
      · intro e he
        simp only [List.map_append, List.map_cons, List.map_nil, List.mem_append,
          List.mem_singleton, not_or]
        refine ⟨hrest e he, ?_⟩
        rintro rfl
        exact hnodup.1 (List.mem_map_of_mem he)

/-- Objects agree when their keys do and their values under each. Kind: L -/
theorem same_object_iff {es fs : List (Bytes × Value)} :
    (Value.object es).Same (.object fs) ↔ (∀ k, k ∈ es.map Prod.fst ↔ k ∈ fs.map Prod.fst) ∧
      ∀ k v w, (k, v) ∈ es → (k, w) ∈ fs → v.Same w := by
  constructor
  · intro h
    cases h with
    | object hkeys hvals => exact ⟨hkeys, hvals⟩
  · rintro ⟨hkeys, hvals⟩
    exact .object hkeys hvals

/-- An object is the same when its keys are ASCII and its values are the same. Kind: L -/
theorem same_object {es : List (Bytes × Value)} (hnodup : (es.map Prod.fst).Nodup) :
    (Value.object es).Same (.object (storedEntries signed [] es)) ↔
      (∀ e ∈ es, ∀ c ∈ e.1, isAscii c = true) ∧ ∀ e ∈ es, e.2.Same (stored signed e.2) := by
  rw [same_object_iff]
  have hkeys : (∀ k, k ∈ es.map Prod.fst ↔
      k ∈ (storedEntries signed [] es).map Prod.fst) → ∀ e ∈ es, ∀ c ∈ e.1, isAscii c = true := by
    intro h e he
    refine @keys_ascii signed (es.map Prod.fst) (fun k => ?_) e.1 (List.mem_map_of_mem he)
    rw [h k, mem_keys_storedEntries]
    simp
  have hstored : (∀ e ∈ es, ∀ c ∈ e.1, isAscii c = true) → storedEntries signed [] es =
      es.map fun e => (e.1, stored signed e.2) := fun h => by
    rw [storedEntries_ascii es [] h hnodup (fun _ _ => List.not_mem_nil), List.nil_append]
  constructor
  · rintro ⟨hk, hvals⟩
    refine ⟨hkeys hk, fun e he => hvals e.1 e.2 _ he ?_⟩
    rw [hstored (hkeys hk)]
    exact List.mem_map.mpr ⟨e, he, rfl⟩
  · rintro ⟨hascii, hvals⟩
    rw [hstored hascii]
    refine ⟨fun k => by simp [List.map_map, Function.comp_def], fun k v w hv hw => ?_⟩
    obtain ⟨e, he, heq⟩ := List.mem_map.mp hw
    simp only [Prod.mk.injEq] at heq
    have hsame : e = (k, v) := List.inj_on_of_nodup_map hnodup he hv heq.1
    subst hsame
    exact heq.2 ▸ hvals _ hv

mutual

/-- **What is stored of a value equals it exactly when it is plain.** Kind: P -/
theorem same_stored : ∀ v : Value, v.Wf → NoFloat v → (v.Same (stored signed v) ↔ Plain v)
  | .null, _, _ => ⟨fun _ => trivial, fun _ => .null⟩
  | .bool b, _, _ => ⟨fun _ => trivial, fun _ => .bool b⟩
  | .int i, _, _ => by
      rw [stored, Plain]
      constructor
      · intro h
        cases h with
        | number h => exact h
      · exact .number
  | .float f, _, h => h.elim
  | .string s, _, _ => by
      rw [stored, Plain, ← @mangle_eq_iff signed]
      constructor
      · intro h
        generalize hm : mangle signed s = m at h
        cases h
        rfl
      · intro h
        rw [h]
        exact .string s
  | .array xs, hwf, hf => by
      rw [stored, Plain, ← same_storedItems xs hwf hf]
      constructor
      · intro h
        cases h with
        | array h => exact h
      · exact .array
  | .object es, hwf, hf => by
      rw [stored, Plain, same_object hwf.1.1, same_storedEntries es hwf.2 hf]

/-- The items come back as they were if and only if they are plain. Kind: L -/
theorem same_storedItems : ∀ xs : List Value, Value.WfItems xs → NoFloatItems xs →
    (List.Forall₂ Value.Same xs (storedItems signed xs) ↔ PlainItems xs)
  | [], _, _ => ⟨fun _ => trivial, fun _ => .nil⟩
  | x :: xs, hwf, hf => by
      rw [storedItems, PlainItems, List.forall₂_cons, same_stored x hwf.1 hf.1,
        same_storedItems xs hwf.2 hf.2]

/-- The entries come back as they were if and only if they are plain. Kind: L -/
theorem same_storedEntries : ∀ es : List (Bytes × Value), Value.WfEntries es → NoFloatEntries es →
    (((∀ e ∈ es, ∀ c ∈ e.1, isAscii c = true) ∧ ∀ e ∈ es, e.2.Same (stored signed e.2)) ↔
      PlainEntries es)
  | [], _, _ => by simp [PlainEntries]
  | (key, x) :: es, hwf, hf => by
      rw [PlainEntries, ← same_stored x hwf.1 hf.1, ← same_storedEntries es hwf.2 hf.2]
      simp only [List.forall_mem_cons]
      tauto

end

/-! ## The round trip -/

/-- **The round trip.** A value without doubles, of distinct keys and nested below the limit, is
read back from its text, pretty or not, and what is read equals it if and only if all strings and
keys are ASCII and all integers are values of doubles. Kind: P -/
theorem parse_serializeValue (p : Printers) (pretty : Bool) {v : Value} (hwf : v.Wf)
    (hfloat : NoFloat v) (hdepth : v.depth < maxDepth) {t : Text}
    (ht : t.bytes = serializeValue p 0 pretty v) :
    ∃ r, (∃ n, ∀ fuel, n ≤ fuel → parse p.signed fuel t = .done r) ∧ (v.Same r ↔ Plain v) := by
  refine ⟨stored p.signed v, ⟨cost v, fun fuel hfuel => ?_⟩, same_stored v hwf hfloat⟩
  have h := parse_serialized p pretty v 0 0 fuel [] hfloat hdepth hfuel stops_nil
  rw [List.append_nil] at h
  have heof : nextToken p.signed [] = (.eof, []) := rfl
  unfold parse
  rw [ht, h, heof]

def samplePrinters (signed : Bool) : Printers := ⟨signed, fun _ => []⟩

/-- An object with an array, a quote and a line end. -/
def sampleValue : Value :=
  .object [(text "a", .array [.null, .bool true, .string (text "x\"\n")]), ([], .object [])]

theorem parse_serializeValue_sample :
    ∃ r, (∃ n, ∀ fuel, n ≤ fuel → parse true fuel
        ⟨serializeValue (samplePrinters true) 0 true sampleValue, by decide⟩ = .done r) ∧
      (sampleValue.Same r ↔ Plain sampleValue) :=
  parse_serializeValue (samplePrinters true) true (v := sampleValue)
    ⟨⟨by decide, by decide⟩, ⟨trivial, trivial, trivial, trivial⟩, ⟨⟨List.nodup_nil, by
      decide⟩, trivial⟩,
      trivial⟩
    ⟨⟨trivial, trivial, trivial, trivial⟩, trivial, trivial⟩ (by decide) rfl

def notAscii : Value := .string [0xC3, 0xA9]

/-- The sample string is not read back from its text. -/
def Lost (signed : Bool) : Prop :=
  ∃ t r, t.bytes = serializeValue (samplePrinters signed) 0 false notAscii ∧
    parse signed 1 t = .done r ∧ ¬ notAscii.Same r

theorem lost (signed : Bool) : Lost signed := by
  refine ⟨⟨_, ?_⟩, stored signed notAscii, rfl, ?_, fun h => ?_⟩
  · cases signed <;> decide
  · cases signed <;> rfl
  · have hplain := (same_stored notAscii trivial trivial).mp h 0xC3 (by decide)
    exact absurd hplain (by decide)

/-- **A string that is not ASCII does not come back**, whether `char` is signed or not: of two bytes
none or eight are read. Kind: P -/
theorem parse_not_ascii : Lost true ∧ Lost false := ⟨lost true, lost false⟩

end CxyCompiler.Stdlib.Json
