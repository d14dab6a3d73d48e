import Mathlib.Data.List.Nodup
import CxyCompiler.Stdlib.YamlLayout

/-!
# The parser on the tokens of a layout

* `Parser.Reads`: the parser is at the beginning of a list of tokens.
* `Closes`: the tokens behind a value, after the `Dedent` tokens of the blocks around it.
* `afterEntry_last`: the end of the loop of an object.
* `parseValue_toks`, `parseObject_toks`, `parseArray_toks`, `parseItem_toks`: **a layout that fits
  is read as the value it stands for**, up to the `Dedent` tokens that are left.
-/

namespace CxyCompiler.Stdlib.Yaml

open CxyCompiler.Lib

variable {signed : Bool} {b : Behind}

/-! ## Reading tokens -/

@[simp] theorem Outcome.done_bind {α β : Type} (a : α) (f : α → Outcome β) :
    (Outcome.done a).bind f = f a := rfl

theorem Outcome.bind_done {α : Type} (r : Outcome α) : (r.bind fun a => .done a) = r := by
  cases r <;> rfl

/-- The parser is at the beginning of these tokens. -/
def Parser.Reads (signed : Bool) (p : Parser) (ts : List Token) : Prop :=
  p.window.Reads (lexNext signed) ts

namespace Parser

theorem Reads.current {p : Parser} {t : Token} {ts : List Token} (h : p.Reads signed (t :: ts)) :
    p.current = t := Window.Reads.current h

theorem Reads.next {p : Parser} {t u : Token} {ts : List Token}
    (h : p.Reads signed (t :: u :: ts)) : p.next = u := Window.Reads.peek h

/-- One token is passed, and the next comes into the window. Kind: L -/
theorem Reads.advance {p : Parser} {t u v : Token} {ts : List Token}
    (h : p.Reads signed (t :: u :: v :: ts)) :
    ∃ p', p.advance signed = .done p' ∧ p'.Reads signed (u :: v :: ts) := by
  obtain ⟨w, hw, hr⟩ := Window.Reads.advance h
  refine ⟨{ p with window := w }, ?_, hr⟩
  rw [Parser.advance, hw]

end Parser

/-! ## What stands behind a value -/

/-- The tokens behind the `Dedent` tokens that follow a value: those of further lines, or the
end. -/
def Closes (b : Behind) (T : List Token) : Prop :=
  if b = .lines then ∃ t u ts, T = t :: u :: ts ∧ (t = .dash ∨ ∃ s, t = .string s)
  else T = [.eof, .eof]

/-- `k` blocks are closed in front of `T`. -/
def closing (k : ℕ) (T : List Token) : List Token := List.replicate k Token.dedent ++ T

theorem closing_succ (k : ℕ) (T : List Token) : closing (k + 1) T = .dedent :: closing k T := rfl

theorem Closes.two {T : List Token} (h : Closes b T) (k : ℕ) :
    ∃ t u ts, closing k T = t :: u :: ts := by
  obtain ⟨t, u, ts, rfl⟩ : ∃ t u ts, T = t :: u :: ts := by
    unfold Closes at h
    split at h
    · obtain ⟨t, u, ts, rfl, -⟩ := h
      exact ⟨t, u, ts, rfl⟩
    · exact ⟨_, _, _, h⟩
  rcases k with _ | _ | k
  · exact ⟨_, _, _, rfl⟩
  · exact ⟨_, _, _, rfl⟩
  · exact ⟨_, _, _, rfl⟩

/-- No key stands behind the closed blocks. -/
def NoKey (k : ℕ) (T : List Token) : Prop := 1 ≤ k ∨ ∀ s, T.head? ≠ some (.string s)

/-- The tokens that are left behind a value. -/
def Node.behind (b : Behind) (k : ℕ) (T : List Token) (v : Node) : List Token :=
  if v.isScalar then b.ends ++ closing k T else closing (k + v.left b).toNat T

theorem isScalar_iff {v : Node}
    (h : v.isScalar = true) : ∃ gap t token, v = .scalar gap t token := by
  cases v with
  | scalar gap t token => exact ⟨gap, t, token, rfl⟩
  | _ => cases h

/-! ## The ends of the loops -/

/-- Behind the last value only the end is left. Kind: L -/
theorem Closes.end_of {T : List Token} (h : Closes b T) (hb : b ≠ .lines) : T = [.eof, .eof] := by
  unfold Closes at h
  rwa [if_neg hb] at h

/-- The first token is a key, a dash or the end. Kind: L -/
theorem Closes.head {T : List Token} (h : Closes b T) :
    ∃ t ts, T = t :: ts ∧ (t = .dash ∨ t = .eof ∨ ∃ s, t = .string s) := by
  unfold Closes at h
  split at h
  · obtain ⟨t, u, ts, rfl, ht⟩ := h
    exact ⟨t, _, rfl, ht.elim .inl fun h => .inr (.inr h)⟩
  · exact ⟨_, _, h, .inr (.inl rfl)⟩

/-- Behind a value a block ends, or an entry, an item or the end follows. Kind: L -/
theorem Closes.current {T : List Token} (h : Closes b T) {k : ℕ} {p : Parser}
    (hr : p.Reads signed (closing k T)) :
    p.current = .dedent ∧ 1 ≤ k ∨ k = 0 ∧ (p.current = .dash ∨ p.current = .eof ∨
      ∃ s, p.current = .string s) := by
  cases k with
  | zero =>
      obtain ⟨t, ts, rfl, ht⟩ := h.head
      have hcur : p.current = t := Parser.Reads.current hr
      rw [hcur]
      exact .inr ⟨rfl, ht⟩
  | succ k => exact .inl ⟨Parser.Reads.current hr, by omega⟩

/-- Where no key may follow there is none. Kind: L -/
theorem NoKey.current {k : ℕ} {T : List Token} {p : Parser} (h : NoKey k T) (hT : Closes b T)
    (hr : p.Reads signed (closing k T)) : ∀ s, p.current ≠ .string s := by
  intro s hs
  cases k with
  | zero =>
      obtain ⟨t, ts, rfl, -⟩ := hT.head
      have hcur : p.current = t := Parser.Reads.current hr
      rcases h with h | h
      · omega
      · exact h s (by rw [← hcur, hs]; rfl)
  | succ k =>
      have hcur : p.current = .dedent := Parser.Reads.current hr
      rw [hcur] at hs
      cases hs

/-- A loop of an object ends where no key follows. Kind: L -/
theorem parseObject_end {fuel : ℕ} {isNested listItem first : Bool} {obj : List (Bytes × Value)}
    {p : Parser} (h : ∀ s, p.current ≠ .string s) :
    parseObject signed (fuel + 1) isNested listItem first obj p = .done (.object obj, p) := by
  rw [parseObject]
  split
  · rename_i s hs
    exact absurd hs (h s)
  · rfl

section

variable {fuel k : ℕ} {isNested listItem first : Bool} {obj : List (Bytes × Value)} {p : Parser}
  {T : List Token}

/-- Behind a block, an object takes one `Dedent` and ends. Kind: L -/
theorem afterEntry_closing (hT : Closes b T) (hr : p.Reads signed (closing k T))
    (hopen : b = .lines → 1 ≤ k) (hkey : isNested = false → NoKey (k - 1) T) :
    ∃ p', afterEntry signed isNested listItem first obj
        (fun first => parseObject signed (fuel + 1) isNested listItem first obj) p =
          .done (.object obj, p') ∧ p'.Reads signed (closing (k - 1) T) := by
  cases k with
  | zero =>
      have hend := hT.end_of fun hb => by
        have := hopen hb
        omega
      subst hend
      have hcur : p.current = .eof := Parser.Reads.current hr
      exact ⟨p, by rw [afterEntry, hcur], hr⟩
  | succ k =>
      rw [closing_succ] at hr
      obtain ⟨t, u, ts, hts⟩ := hT.two k
      rw [hts] at hr
      have hcur : p.current = .dedent := Parser.Reads.current hr
      obtain ⟨p', hadv, hr'⟩ := hr.advance
      rw [← hts] at hr'
      refine ⟨p', ?_, hr'⟩
      rw [afterEntry, hcur]
      simp only [hadv, Outcome.done_bind]
      cases isNested with
      | true => rfl
      | false => exact parseObject_end ((hkey rfl).current hT hr')

/-- Behind a scalar, an object takes the line end. Kind: L -/
theorem afterEntry_newline (hT : Closes b T) (hr : p.Reads signed (.newline :: closing k T))
    (hfirst : listItem = true → first = true) (hkey : NoKey k T) :
    ∃ p', afterEntry signed isNested listItem first obj
        (fun first => parseObject signed (fuel + 1) isNested listItem first obj) p =
          .done (.object obj, p') ∧ p'.Reads signed (closing k T) := by
  obtain ⟨t, u, ts, hts⟩ := hT.two k
  rw [hts] at hr
  have hcur : p.current = .newline := Parser.Reads.current hr
  obtain ⟨p', hadv, hr'⟩ := hr.advance
  rw [← hts] at hr'
  have hskip : skipListItem signed listItem first p' = .done p' := by
    have hno : p'.current ≠ .indent := by
      rcases hT.current hr' with ⟨h, -⟩ | ⟨-, h | h | ⟨s, h⟩⟩ <;> rw [h] <;> exact nofun
    unfold skipListItem
    cases listItem with
    | false => rfl
    | true =>
        rw [hfirst rfl]
        simp [hno]
  refine ⟨p', ?_, hr'⟩
  rw [afterEntry, hcur]
  simp only [hadv, hskip, Outcome.done_bind]
  exact parseObject_end (hkey.current hT hr')

/-- Behind the last scalar of a list item of several keys, the `Dedent` is taken with the line end.
 Kind: L -/
theorem afterEntry_newline_compact (hT : Closes b T)
    (hr : p.Reads signed (.newline :: closing (k + 1) T)) (hkey : NoKey k T) :
    ∃ p', afterEntry signed false true false obj
        (fun first => parseObject signed (fuel + 1) false true first obj) p =
          .done (.object obj, p') ∧ p'.Reads signed (closing k T) := by
  obtain ⟨t, u, ts, hts⟩ := hT.two k
  rw [closing_succ, hts] at hr
  have hcur : p.current = .newline := Parser.Reads.current hr
  obtain ⟨p₁, hadv, hr₁⟩ := hr.advance
  have hcur₁ : p₁.current = .dedent := Parser.Reads.current hr₁
  obtain ⟨p', hadv₁, hr'⟩ := hr₁.advance
  rw [← hts] at hr'
  refine ⟨p', ?_, hr'⟩
  rw [afterEntry, hcur]
  simp only [hadv, Outcome.done_bind, skipListItem, hcur₁, hadv₁, Bool.not_false, decide_true,
    Bool.and_self, Bool.false_and, Bool.false_or, if_true]
  exact parseObject_end (hkey.current hT hr')

/-- Behind an item the end of its line is passed. Kind: L -/
theorem afterItem_newline {arr : List Value} {t u : Token} {ts : List Token}
    (hr : p.Reads signed (.newline :: t :: u :: ts)) :
    ∃ p', afterItem signed arr (parseArray signed fuel arr) p = parseArray signed fuel arr p' ∧
      p'.Reads signed (t :: u :: ts) := by
  have hcur : p.current = .newline := Parser.Reads.current hr
  obtain ⟨p', hadv, hr'⟩ := hr.advance
  refine ⟨p', ?_, hr'⟩
  rw [afterItem, hcur]
  simp only [hadv, Outcome.done_bind]

/-- Behind a block, an array takes one `Dedent` and ends. Kind: L -/
theorem afterItem_closing {arr : List Value} (hT : Closes b T)
    (hr : p.Reads signed (closing k T)) (hopen : b = .lines → 1 ≤ k) :
    ∃ p', afterItem signed arr (parseArray signed fuel arr) p = .done (.array arr, p') ∧
      p'.Reads signed (closing (k - 1) T) := by
  cases k with
  | zero =>
      have hend := hT.end_of fun hb => by
        have := hopen hb
        omega
      subst hend
      have hcur : p.current = .eof := Parser.Reads.current hr
      exact ⟨p, by rw [afterItem, hcur], hr⟩
  | succ k =>
      rw [closing_succ] at hr
      obtain ⟨t, u, ts, hts⟩ := hT.two k
      rw [hts] at hr
      have hcur : p.current = .dedent := Parser.Reads.current hr
      obtain ⟨p', hadv, hr'⟩ := hr.advance
      rw [← hts] at hr'
      refine ⟨p', ?_, hr'⟩
      rw [afterItem, hcur]
      simp only [hadv, Outcome.done_bind]

/-- An array ends where no dash is. Kind: L -/
theorem parseArray_end {arr : List Value} (h : p.current ≠ .dash) :
    parseArray signed (fuel + 1) arr p = .done (.array arr, p) := by
  rw [parseArray]
  split
  · rename_i hs
    exact absurd hs h
  · rfl

end

/-! ## First tokens -/

section

variable {fuel : ℕ} {p : Parser} {t u : Token} {ts : List Token}

theorem parseValue_eq (hanchor : ∀ name, p.current ≠ .anchor name)
    (halias : ∀ name, p.current ≠ .alias name) :
    parseValue signed (fuel + 1) p = parseActual signed fuel p := by
  have hread : readAnchor signed p = .done (none, p) := by
    unfold readAnchor
    split
    · rename_i name hname
      exact absurd hname (hanchor name)
    · rfl
  rw [parseValue, hread, Outcome.done_bind]
  dsimp only
  split
  · rename_i name hname
    exact absurd hname (halias name)
  · exact Outcome.bind_done _

/-- A scalar that no colon follows is a value. Kind: L -/
theorem parseValue_scalar (hr : p.Reads signed (t :: u :: ts)) (hts : ts ≠ []) {v : Value}
    (hv : t.value = some v) (hu : u ≠ .colon) :
    ∃ p', parseValue signed (fuel + 2) p = .done (v, p') ∧ p'.Reads signed (u :: ts) := by
  obtain ⟨w, ts, rfl⟩ := List.exists_cons_of_ne_nil hts
  obtain ⟨p', hadv, hr'⟩ := hr.advance
  have hcur : p.current = t := Parser.Reads.current hr
  have hnext : p.next ≠ .colon := by
    rw [Parser.Reads.next hr]
    exact hu
  have hscalar : parseScalar signed p = .done (v, p') := by
    rw [parseScalar, hcur, hv]
    simp only [hadv, Outcome.done_bind]
  refine ⟨p', ?_, hr'⟩
  rw [parseValue_eq, parseActual, hcur]
  · cases t with
    | string s => simp only [if_neg hnext, hscalar]
    | number s => exact hscalar
    | true => exact hscalar
    | false => exact hscalar
    | null => exact hscalar
    | _ => cases hv
  · rw [hcur]
    rintro name rfl
    cases hv
  · rw [hcur]
    rintro name rfl
    cases hv

/-- The end of a line in front of a value is passed. Kind: L -/
theorem parseValue_newline (hr : p.Reads signed (.newline :: t :: u :: ts)) :
    ∃ p', parseValue signed (fuel + 2) p = parseValue signed fuel p' ∧
      p'.Reads signed (t :: u :: ts) := by
  have hcur : p.current = .newline := Parser.Reads.current hr
  obtain ⟨p', hadv, hr'⟩ := hr.advance
  refine ⟨p', ?_, hr'⟩
  rw [parseValue_eq (by rw [hcur]; exact fun _ => nofun) (by rw [hcur]; exact fun _ => nofun),
    parseActual, hcur]
  simp only [hadv, Outcome.done_bind]

/-- Behind an `Indent` a dash begins an array, anything else an object. Kind: L -/
theorem parseValue_indent (hr : p.Reads signed (.indent :: t :: u :: ts)) :
    ∃ p', parseValue signed (fuel + 2) p =
        (if t = .dash then parseArray signed fuel [] p'
          else parseObject signed fuel true false true [] p') ∧
      p'.Reads signed (t :: u :: ts) := by
  have hcur : p.current = .indent := Parser.Reads.current hr
  obtain ⟨p', hadv, hr'⟩ := hr.advance
  have hcur' : p'.current = t := Parser.Reads.current hr'
  refine ⟨p', ?_, hr'⟩
  rw [parseValue_eq (by rw [hcur]; exact fun _ => nofun) (by rw [hcur]; exact fun _ => nofun),
    parseActual, hcur]
  simp only [hadv, Outcome.done_bind, hcur']

/-- A string in front of a colon begins an object. Kind: L -/
theorem parseValue_key {s : Bytes} (hr : p.Reads signed (.string s :: .colon :: ts)) :
    parseValue signed (fuel + 2) p = parseObject signed fuel false false true [] p := by
  have hcur : p.current = .string s := Parser.Reads.current hr
  have hnext : p.next = .colon := Parser.Reads.next hr
  rw [parseValue_eq (by rw [hcur]; exact fun _ => nofun) (by rw [hcur]; exact fun _ => nofun),
    parseActual, hcur]
  simp only [hnext, if_true]

theorem parseValue_dash (hr : p.Reads signed (.dash :: ts)) :
    parseValue signed (fuel + 2) p = parseArray signed fuel [] p := by
  have hcur : p.current = .dash := Parser.Reads.current hr
  rw [parseValue_eq (by rw [hcur]; exact fun _ => nofun) (by rw [hcur]; exact fun _ => nofun),
    parseActual, hcur]

/-- Behind a dash a key begins a compact object. Kind: L -/
theorem parseItem_key {s : Bytes} (hr : p.Reads signed (.string s :: .colon :: ts)) :
    parseItem signed (fuel + 1) p = parseObject signed fuel false true true [] p := by
  have hcur : p.current = .string s := Parser.Reads.current hr
  have hnext : p.next = .colon := Parser.Reads.next hr
  rw [parseItem, hcur]
  simp only [hnext, if_true]

/-- Behind a dash anything but a key is a value. Kind: L -/
theorem parseItem_value (hr : p.Reads signed (t :: u :: ts)) (hu : u ≠ .colon) :
    parseItem signed (fuel + 1) p = parseValue signed fuel p := by
  have hnext : p.next ≠ .colon := by
    rw [Parser.Reads.next hr]
    exact hu
  rw [parseItem]
  split
  · rw [if_neg hnext]
  · rfl

/-- **The key and the value of an entry.** Kind: L -/
theorem parseObject_entry {isNested listItem first : Bool} {obj : List (Bytes × Value)} {s : Bytes}
    {v : Value} {rest : List Token} (hr : p.Reads signed (.string s :: .colon :: t :: u :: ts))
    (hstore : storeEntry s v obj = .done (obj ++ [(s, v)]))
    (hv : ∀ p₁, p₁.Reads signed (t :: u :: ts) →
      ∃ p₂, parseValue signed fuel p₁ = .done (v, p₂) ∧ p₂.Reads signed rest) :
    ∃ p₂, parseObject signed (fuel + 1) isNested listItem first obj p =
        afterEntry signed isNested listItem first (obj ++ [(s, v)])
          (fun first => parseObject signed fuel isNested listItem first (obj ++ [(s, v)])) p₂ ∧
      p₂.Reads signed rest := by
  have hcur : p.current = .string s := Parser.Reads.current hr
  obtain ⟨p₁, hadv, hr₁⟩ := hr.advance
  have hcur₁ : p₁.current = .colon := Parser.Reads.current hr₁
  obtain ⟨p₂, hadv₁, hr₂⟩ := hr₁.advance
  obtain ⟨p₃, hvalue, hr₃⟩ := hv p₂ hr₂
  refine ⟨p₃, ?_, hr₃⟩
  rw [parseObject, hcur]
  simp only [hadv, Outcome.done_bind, hcur₁, ne_eq, not_true_eq_false,
    if_false, hadv₁, hvalue, hstore]

/-- **The dash and the value of an item.** Kind: L -/
theorem parseArray_item {arr : List Value} {v : Value} {rest : List Token}
    (hr : p.Reads signed (.dash :: t :: u :: ts))
    (hv : ∀ p₁, p₁.Reads signed (t :: u :: ts) →
      ∃ p₂, parseItem signed fuel p₁ = .done (v, p₂) ∧ p₂.Reads signed rest) :
    ∃ p₂, parseArray signed (fuel + 1) arr p =
        afterItem signed (arr ++ [v]) (parseArray signed fuel (arr ++ [v])) p₂ ∧
      p₂.Reads signed rest := by
  have hcur : p.current = .dash := Parser.Reads.current hr
  obtain ⟨p₁, hadv, hr₁⟩ := hr.advance
  obtain ⟨p₂, hvalue, hr₂⟩ := hv p₁ hr₁
  refine ⟨p₂, ?_, hr₂⟩
  rw [parseArray, hcur]
  simp only [hadv, Outcome.done_bind, hvalue]

end

/-- A new key is stored behind the others. Kind: L -/
theorem storeEntry_new {key : Key} {v : Node} {obj : List (Bytes × Value)}
    (hkey : v.StoredAt key) (hfits : ∃ b, v.Fits b) (hnew : key.name ∉ obj.map Prod.fst) :
    storeEntry key.name v.value obj = .done (obj ++ [(key.name, v.value)]) := by
  have hset := setEntry_new (x := v.value) hnew
  unfold storeEntry
  split
  · rename_i hmerge
    obtain ⟨gap, t, token, rfl⟩ := isScalar_iff (hkey hmerge)
    obtain ⟨b, hb⟩ := hfits
    obtain ⟨w, hw⟩ := Option.isSome_iff_exists.mp hb
    have hvalue : (Node.scalar gap t token).value = w := by rw [Node.value, hw]; rfl
    rw [hvalue] at hset ⊢
    rw [← hset]
    cases token <;> cases hw <;> rfl
  · rw [hset]

/-! ## The last and the other entries -/

/-- The last value of a mapping. -/
def Entries.final : Entries → Node
  | .last _ _ v => v
  | .cons _ _ _ es => es.final

/-- How many `Dedent` are left is decided by the last value. Kind: L -/
theorem Entries.left_eq_final (es : Entries) : es.left b = es.final.left b := by
  cases es with
  | last _ _ _ => rfl
  | cons _ _ _ es => exact es.left_eq_final

theorem Entries.lastIsScalar_eq_final (es : Entries) : es.lastIsScalar = es.final.isScalar := by
  cases es with
  | last _ _ _ => rfl
  | cons _ _ _ es => exact es.lastIsScalar_eq_final

/-- Behind a scalar comes its line end. Kind: L -/
theorem behind_scalar {v : Node} (h : v.isScalar = true) (k : ℕ) (T : List Token) :
    v.behind b k T = b.ends ++ closing k T := by
  rw [Node.behind, if_pos h]

/-- Behind a block come the `Dedent` tokens that it leaves. Kind: L -/
theorem behind_block {v : Node} (h : v.isScalar = false) (k : ℕ) (T : List Token) :
    v.behind b k T = closing (k + v.left b).toNat T := by
  rw [Node.behind, h]
  rfl

/-- A scalar leaves the one `Dedent` of its own block, but at the end. Kind: L -/
theorem left_scalar {v : Node} (h : v.isScalar = true) :
    v.left b = if b = .nothing then 0 else 1 := by
  obtain ⟨gap, t, token, rfl⟩ := isScalar_iff h
  rfl

theorem ends_nothing : Behind.ends .nothing = [] := rfl

theorem ends_of_ne (h : b ≠ .nothing) : b.ends = [.newline] := by
  rw [Behind.ends, if_neg h]

/-- What the loop of an object leaves behind its last value, whatever its entries are. -/
def EndsAt (signed : Bool) (b : Behind) (isNested listItem : Bool) (k : ℕ) (T : List Token)
    (v : Node) (R : List Token) : Prop :=
  ∀ (fuel : ℕ) (first : Bool) (obj : List (Bytes × Value)) (p : Parser),
    (listItem = true → first = false) → p.Reads signed (v.behind b k T) →
    ∃ p', afterEntry signed isNested listItem first obj
        (fun first => parseObject signed (fuel + 1) isNested listItem first obj) p =
          .done (.object obj, p') ∧ p'.Reads signed R

/-- One `Dedent` is taken behind the last value. Kind: L -/
theorem afterEntry_final {k : ℕ} {T : List Token} {v : Node} {isNested listItem first : Bool}
    {fuel : ℕ} {obj : List (Bytes × Value)} {p : Parser} (hT : Closes b T)
    (hfirst : listItem = true → first = true) (hnested : isNested = true → 1 ≤ k)
    (hopen : b = .lines → 1 ≤ k + v.left b)
    (hkey : isNested = false → NoKey (k - 1 + v.left b).toNat T)
    (hr : p.Reads signed (v.behind b k T)) :
    ∃ p', afterEntry signed isNested listItem first obj
        (fun first => parseObject signed (fuel + 1) isNested listItem first obj) p =
          .done (.object obj, p') ∧ p'.Reads signed (closing (k - 1 + v.left b).toNat T) := by
  cases hv : v.isScalar with
  | false =>
      rw [behind_block hv] at hr
      have hsub : (k - 1 + v.left b).toNat = (k + v.left b).toNat - 1 := by omega
      rw [hsub] at hkey ⊢
      refine afterEntry_closing hT hr (fun hb => ?_) hkey
      have := hopen hb
      omega
  | true =>
      rw [behind_scalar hv] at hr
      rw [left_scalar hv] at hkey ⊢
      by_cases hb : b = .nothing
      · subst hb
        have hsub : ((k : ℤ) - 1 + if Behind.nothing = .nothing then 0 else 1).toNat = k - 1 := by
          rw [if_pos rfl]
          omega
        rw [hsub] at hkey ⊢
        exact afterEntry_closing hT hr (by exact nofun) hkey
      · have hsub : ((k : ℤ) - 1 + if b = .nothing then 0 else 1).toNat = k := by
          rw [if_neg hb]
          omega
        rw [ends_of_ne hb] at hr
        rw [hsub] at hkey ⊢
        refine afterEntry_newline hT hr hfirst ?_
        cases isNested with
        | true => exact .inl (hnested rfl)
        | false => exact hkey rfl

/-- Behind the last value of a list item of several keys, a `Dedent` is taken as well. Kind: L -/
theorem endsAt_compact {k : ℕ} {T : List Token} {v : Node} (hT : Closes b T)
    (hopen : b = .lines → 0 ≤ k + v.left b)
    (hkey : NoKey (k + if v.isScalar then 0 else v.left b).toNat T) :
    EndsAt signed b false true (k + 1) T v
      (closing (k + if v.isScalar then 0 else v.left b).toNat T) := by
  intro fuel first obj p hfirst hr
  rw [hfirst rfl]
  cases hv : v.isScalar with
  | false =>
      rw [behind_block hv] at hr
      rw [hv] at hkey
      simp only [Bool.false_eq_true, if_false] at hkey ⊢
      have hsub : (k + v.left b).toNat = (((k + 1 : ℕ) : ℤ) + v.left b).toNat - 1 := by omega
      rw [hsub] at hkey ⊢
      refine afterEntry_closing hT hr (fun hb => ?_) fun _ => hkey
      have := hopen hb
      omega
  | true =>
      rw [behind_scalar hv] at hr
      rw [hv] at hkey
      have hsub : ((k : ℤ) + if true = true then 0 else v.left b).toNat = k := by
        rw [if_pos rfl]
        omega
      rw [hsub] at hkey ⊢
      by_cases hb : b = .nothing
      · subst hb
        exact afterEntry_closing hT hr (by exact nofun) fun _ => hkey
      · rw [ends_of_ne hb] at hr
        exact afterEntry_newline_compact hT hr hkey

/-- **Behind a value with further entries behind it, the loop goes on.** Kind: L -/
theorem afterEntry_next {v : Node} {isNested listItem first : Bool}
    {again : Bool → Parser → Outcome (Value × Parser)} {obj : List (Bytes × Value)} {p : Parser}
    {s : Bytes} {t : Token} {ts : List Token} (hv : v.Between isNested)
    (hr : p.Reads signed (v.behind .lines 0 (.string s :: t :: ts))) :
    ∃ first' p', afterEntry signed isNested listItem first obj again p = again first' p' ∧
      (first = false → first' = false) ∧ p'.Reads signed (.string s :: t :: ts) := by
  cases hscalar : v.isScalar with
  | true =>
      rw [behind_scalar hscalar] at hr
      have hcur : p.current = .newline := Parser.Reads.current hr
      obtain ⟨p', hadv, hr'⟩ := Parser.Reads.advance hr
      have hcur' : p'.current = .string s := Parser.Reads.current hr'
      refine ⟨false, p', ?_, fun _ => rfl, hr'⟩
      have hskip : skipListItem signed listItem first p' = .done p' := by
        rw [skipListItem, hcur']
        simp
      rw [afterEntry, hcur]
      simp only [hadv, hskip, Outcome.done_bind]
  | false =>
      obtain h | ⟨rfl, hleft, -⟩ := hv
      · rw [h] at hscalar
        cases hscalar
      · rw [behind_block hscalar, hleft] at hr
        have hcur : p.current = .dedent := Parser.Reads.current hr
        obtain ⟨p', hadv, hr'⟩ := Parser.Reads.advance hr
        refine ⟨first, p', ?_, id, hr'⟩
        rw [afterEntry, hcur]
        simp only [hadv, Outcome.done_bind, Bool.false_eq_true, if_false]

/-- The tokens that are left behind an item. -/
def Item.behind (b : Behind) (k : ℕ) (T : List Token) : Item → List Token
  | .plain v => v.behind b k T
  | item => closing (k + item.left b).toNat T

/-- An item leaves a line end, or some `Dedent` tokens. Kind: L -/
theorem Item.behind_eq (k : ℕ) (T : List Token) (item : Item) :
    (item.behind b k T = b.ends ++ closing k T ∧ item.left b = (if b = .nothing then 0 else 1)) ∨
      item.behind b k T = closing (k + item.left b).toNat T := by
  cases item with
  | plain v =>
      cases hv : v.isScalar with
      | true => exact .inl ⟨behind_scalar hv k T, left_scalar hv⟩
      | false => exact .inr (behind_block hv k T)
  | single gap key v => exact .inr rfl
  | compact gap key v es => exact .inr rfl

/-- **Behind an item with further items behind it, the loop goes on.** Kind: L -/
theorem afterItem_next {item : Item} {arr : List Value} {fuel : ℕ} {p : Parser} {t : Token}
    {ts : List Token} (hitem : item.Between)
    (hr : p.Reads signed (item.behind .lines 0 (.dash :: t :: ts))) :
    ∃ p', afterItem signed arr (parseArray signed fuel arr) p = parseArray signed fuel arr p' ∧
      p'.Reads signed (.dash :: t :: ts) := by
  have hblock : item.behind .lines 0 (.dash :: t :: ts) = .dash :: t :: ts →
      ∃ p', afterItem signed arr (parseArray signed fuel arr) p = parseArray signed fuel arr p' ∧
        p'.Reads signed (.dash :: t :: ts) := by
    intro h
    rw [h] at hr
    have hcur : p.current = .dash := Parser.Reads.current hr
    exact ⟨p, by rw [afterItem, hcur], hr⟩
  cases item with
  | plain v =>
      cases hscalar : v.isScalar with
      | true =>
          rw [Item.behind, behind_scalar hscalar] at hr
          exact afterItem_newline hr
      | false =>
          obtain h | ⟨hleft, -⟩ := hitem
          · rw [h] at hscalar
            cases hscalar
          · refine hblock ?_
            rw [Item.behind, behind_block hscalar, hleft]
            rfl
  | single gap key v =>
      have hleft : (Item.single gap key v).left .lines = 0 := hitem.1
      refine hblock ?_
      rw [Item.behind, hleft]
      · rfl
      · exact fun _ => nofun
  | compact gap key v es =>
      have hleft : (Item.compact gap key v es).left .lines = 0 := hitem.1
      refine hblock ?_
      rw [Item.behind, hleft]
      · rfl
      · exact fun _ => nofun

/-- One `Dedent` is taken behind the last item. Kind: L -/
theorem afterItem_final {k : ℕ} {T : List Token} {item : Item} {arr : List Value} {fuel : ℕ}
    {p : Parser} (hT : Closes b T) (hk : b = .lines → 1 ≤ k)
    (hopen : b = .lines → 1 ≤ k + item.left b) (hr : p.Reads signed (item.behind b k T)) :
    ∃ p', afterItem signed arr (parseArray signed (fuel + 1) arr) p = .done (.array arr, p') ∧
      p'.Reads signed (closing (k - 1 + item.left b).toNat T) := by
  rcases item.behind_eq k T with ⟨hbehind, hleft⟩ | hbehind
  · rw [hbehind] at hr
    rw [hleft]
    by_cases hb : b = .nothing
    · subst hb
      have hsub : ((k : ℤ) - 1 + if Behind.nothing = .nothing then 0 else 1).toNat = k - 1 := by
        rw [if_pos rfl]
        omega
      rw [hsub]
      exact afterItem_closing hT hr (by exact nofun)
    · have hsub : ((k : ℤ) - 1 + if b = .nothing then 0 else 1).toNat = k := by
        rw [if_neg hb]
        omega
      rw [ends_of_ne hb] at hr
      obtain ⟨t, u, ts, hts⟩ := hT.two k
      rw [hts] at hr
      obtain ⟨p', hafter, hr'⟩ := @afterItem_newline signed (fuel + 1) p arr t u ts hr
      rw [← hts] at hr'
      rw [hsub]
      refine ⟨p', ?_, hr'⟩
      rw [hafter]
      refine parseArray_end ?_
      rcases hT.current hr' with ⟨h, -⟩ | ⟨hzero, -⟩
      · rw [h]
        exact nofun
      · have hend := hT.end_of fun hlines => by
          have := hk hlines
          omega
        subst hend hzero
        have hcur : p'.current = .eof := Parser.Reads.current hr'
        rw [hcur]
        exact nofun
  · rw [hbehind] at hr
    have hsub : (k - 1 + item.left b).toNat = (k + item.left b).toNat - 1 := by omega
    rw [hsub]
    refine afterItem_closing hT hr fun hb => ?_
    have := hopen hb
    omega

/-! ## The parser on a layout -/

mutual

/-- The fuel that is needed to read a layout. -/
def Node.cost : Node → ℕ
  | .mapping _ _ es => 4 + es.cost
  | .sequence _ _ is => 4 + is.cost
  | _ => 4

def Entries.cost : Entries → ℕ
  | .last _ _ v => 2 + v.cost
  | .cons _ _ v es => 1 + v.cost + es.cost

def Items.cost : Items → ℕ
  | .last _ item => 2 + item.cost
  | .cons _ item is => 1 + item.cost + is.cost

def Item.cost : Item → ℕ
  | .plain v => 1 + v.cost
  | .single _ _ v => 3 + v.cost
  | .compact _ _ v es => 2 + v.cost + es.cost

end

/-- There are two tokens at least. -/
def Two (ts : List Token) : Prop := ∃ t u l, ts = t :: u :: l

theorem Two.append {ts : List Token} (h : Two ts) (l : List Token) : Two (l ++ ts) := by
  obtain ⟨t, u, m, rfl⟩ := h
  rcases l with _ | ⟨v, _ | ⟨w, l⟩⟩
  · exact ⟨_, _, _, rfl⟩
  · exact ⟨_, _, _, rfl⟩
  · exact ⟨_, _, _, rfl⟩

/-- In front of two tokens a value has two as well. Kind: L -/
theorem Node.toks_two {ts : List Token} (h : Two ts) (v : Node) : Two (v.toks b ts) := by
  cases v with
  | scalar _ _ token => exact (h.append b.ends).append [token]
  | emptyObject _ => exact ⟨_, _, _, rfl⟩
  | absent _ => exact h.append b.ends
  | mapping _ _ _ => exact ⟨_, _, _, rfl⟩
  | sequence _ _ _ => exact ⟨_, _, _, rfl⟩

/-- Entries begin with a key and a colon. Kind: L -/
theorem Entries.toks_eq {ts : List Token} (h : Two ts) (es : Entries) :
    ∃ s t u l, es.toks b ts = .string s :: .colon :: t :: u :: l := by
  cases es with
  | last _ key v =>
      obtain ⟨t, u, l, hl⟩ := v.toks_two (b := b) h
      exact ⟨_, t, u, l, by rw [Entries.toks, hl]⟩
  | cons _ key v es =>
      obtain ⟨s, t, u, l, hes⟩ := es.toks_eq h
      have htwo : Two (es.toks b ts) := ⟨_, _, _, hes⟩
      obtain ⟨t', u', l', hl⟩ := v.toks_two (b := .lines) htwo
      exact ⟨_, t', u', l', by rw [Entries.toks, hl]⟩

theorem Item.toks_two {ts : List Token} (h : Two ts) (item : Item) : Two (item.toks b ts) := by
  cases item with
  | plain v => exact v.toks_two h
  | single _ _ _ => exact ⟨_, _, _, rfl⟩
  | compact _ _ _ _ => exact ⟨_, _, _, rfl⟩

/-- Items begin with a dash. Kind: L -/
theorem Items.toks_eq {ts : List Token} (h : Two ts) (is : Items) :
    ∃ t u l, is.toks b ts = .dash :: t :: u :: l := by
  cases is with
  | last _ item =>
      obtain ⟨t, u, l, hl⟩ := item.toks_two (b := b) h
      exact ⟨t, u, l, by rw [Items.toks, hl]⟩
  | cons _ item is =>
      obtain ⟨t, u, l, his⟩ := is.toks_eq h
      have htwo : Two (is.toks b ts) := ⟨_, _, _, his⟩
      obtain ⟨t', u', l', hl⟩ := item.toks_two (b := .lines) htwo
      exact ⟨t', u', l', by rw [Items.toks, hl]⟩

/-- The second token of a value that fits is no colon. Kind: L -/
theorem Node.toks_second {k : ℕ} {T : List Token} (hT : Closes b T) : ∀ v : Node, v.Fits b →
    ∃ t u l, v.toks b (closing k T) = t :: u :: l ∧ u ≠ .colon
  | .scalar _ _ token, _ => by
      by_cases hb : b = .nothing
      · subst hb
        have hend := hT.end_of (by exact nofun)
        subst hend
        cases k with
        | zero => exact ⟨_, _, _, rfl, nofun⟩
        | succ k => exact ⟨_, _, _, rfl, nofun⟩
      · refine ⟨token, .newline, closing k T, ?_, nofun⟩
        rw [Node.toks, ends_of_ne hb]
        rfl
  | .emptyObject _, _ => ⟨_, _, _, rfl, nofun⟩
  | .absent _, h => h.elim
  | .mapping _ _ _, _ => ⟨_, _, _, rfl, nofun⟩
  | .sequence _ _ _, _ => ⟨_, _, _, rfl, nofun⟩

theorem Closes.of_key {s : Bytes} {t : Token} {ts : List Token} :
    Closes .lines (.string s :: t :: ts) :=
  ⟨_, _, _, rfl, .inr ⟨s, rfl⟩⟩

theorem Closes.of_dash {t : Token} {ts : List Token} : Closes .lines (.dash :: t :: ts) :=
  ⟨_, _, _, rfl, .inl rfl⟩

/-- With more blocks to close there is no key either. Kind: L -/
theorem NoKey.of_closes {k j : ℕ} {T : List Token} (h : NoKey k T) (hT : Closes b T)
    (hj : b = .lines → k ≤ j) : NoKey j T := by
  by_cases hb : b = .lines
  · exact h.imp (fun hk => hk.trans (hj hb)) id
  · rw [hT.end_of hb]
    exact .inr fun s => nofun

mutual

/-- **A value that fits is read as the value it stands for.** Kind: P -/
theorem parseValue_toks : ∀ (v : Node) (b : Behind) (k : ℕ) (T : List Token) (fuel : ℕ)
    (p : Parser), v.Fits b → v.Keyed → Closes b T → v.cost ≤ fuel →
    p.Reads signed (v.toks b (closing k T)) →
    ∃ p', parseValue signed fuel p = .done (v.value, p') ∧ p'.Reads signed (v.behind b k T)
  | .scalar gap t token, b, k, T, fuel, p, hfits, _, hT, hfuel, hr => by
      simp only [Node.cost] at hfuel
      obtain ⟨n, rfl⟩ : ∃ n, fuel = n + 2 := ⟨fuel - 2, by omega⟩
      obtain ⟨w, hw⟩ := Option.isSome_iff_exists.mp hfits
      obtain ⟨u, x, l, hl, hx⟩ := (Node.scalar gap t token).toks_second hT hfits
      have hrest : b.ends ++ closing k T = x :: l := (List.cons.inj hl).2
      have hne : l ≠ [] := by
        rintro rfl
        obtain ⟨y, z, m, hm⟩ := Two.append (hT.two k) b.ends
        rw [hm] at hrest
        cases hrest
      rw [Node.toks, hrest] at hr
      have hvalue : (Node.scalar gap t token).value = w := by rw [Node.value, hw]; rfl
      rw [hvalue, behind_scalar rfl, hrest]
      exact parseValue_scalar hr hne hw hx
  | .emptyObject gap, b, k, T, fuel, p, hfits, _, hT, hfuel, hr => by
      simp only [Node.cost] at hfuel
      obtain ⟨n, rfl⟩ : ∃ n, fuel = n + 1 + 2 := ⟨fuel - 3, by omega⟩
      obtain ⟨t, u, l, hl⟩ := hT.two k
      have hb : b = .nothing := hfits
      subst hb
      rw [Node.toks, ends_nothing, List.nil_append, hl] at hr
      obtain ⟨p', hparse, hr'⟩ := @parseValue_indent signed (n + 1) p _ _ _ hr
      have hcur : p'.current = .dedent := Parser.Reads.current hr'
      rw [← hl] at hr'
      refine ⟨p', ?_, hr'⟩
      rw [hparse, if_neg (by exact nofun)]
      exact parseObject_end fun s => by
        rw [hcur]
        exact nofun
  | .absent _, _, _, _, _, _, hfits, _, _, _, _ => hfits.elim
  | .mapping gap level es, b, k, T, fuel, p, hfits, hkeyed, hT, hfuel, hr => by
      simp only [Node.cost] at hfuel
      obtain ⟨n, rfl⟩ : ∃ n, fuel = n + 2 + 2 := ⟨fuel - 4, by omega⟩
      obtain ⟨s, t, u, l, hl⟩ := es.toks_eq (b := b) (hT.two (k + 1))
      rw [Node.toks, ← closing_succ, hl] at hr
      obtain ⟨p₁, hparse₁, hr₁⟩ := @parseValue_newline signed (n + 2) p _ _ _ hr
      obtain ⟨p₂, hparse₂, hr₂⟩ := @parseValue_indent signed n p₁ _ _ _ hr₁
      rw [← hl] at hr₂
      have hleft := es.left_eq_final (b := b)
      have hends : EndsAt signed b true false (k + 1) T es.final
          (closing (k + es.left b).toNat T) := by
        intro fuel first obj p _ hr
        have hsub : (k + es.left b).toNat = (((k + 1 : ℕ) : ℤ) - 1 + es.final.left b).toNat := by
          rw [hleft]
          omega
        rw [hsub]
        refine afterEntry_final hT (fun h => nomatch h) (fun _ => by omega) (fun hb => ?_)
          (fun h => nomatch h) hr
        subst hb
        have := es.left_nonneg true hfits
        rw [hleft] at this
        omega
      obtain ⟨p', hobj, hr'⟩ := parseObject_toks es b true false true (k + 1) T _ n [] p₂ hfits
        hkeyed.2 (by simpa using hkeyed.1) hT (fun h => nomatch h) (by omega) hr₂ hends
      rw [List.nil_append] at hobj
      exact ⟨p', by rw [hparse₁, hparse₂, if_neg (by exact nofun), hobj]; rfl, hr'⟩
  | .sequence gap level is, b, k, T, fuel, p, hfits, hkeyed, hT, hfuel, hr => by
      simp only [Node.cost] at hfuel
      obtain ⟨n, rfl⟩ : ∃ n, fuel = n + 2 + 2 := ⟨fuel - 4, by omega⟩
      obtain ⟨t, u, l, hl⟩ := is.toks_eq (b := b) (hT.two (k + 1))
      rw [Node.toks, ← closing_succ, hl] at hr
      obtain ⟨p₁, hparse₁, hr₁⟩ := @parseValue_newline signed (n + 2) p _ _ _ hr
      obtain ⟨p₂, hparse₂, hr₂⟩ := @parseValue_indent signed n p₁ _ _ _ hr₁
      rw [← hl] at hr₂
      obtain ⟨p', harr, hr'⟩ := parseArray_toks is b (k + 1) T n [] p₂ hfits hkeyed hT
        (fun _ => by omega) (by omega) hr₂
      rw [List.nil_append] at harr
      have hsub : (((k + 1 : ℕ) : ℤ) - 1 + is.left b).toNat = (k + is.left b).toNat := by omega
      rw [hsub] at hr'
      exact ⟨p', by rw [hparse₁, hparse₂, if_pos rfl, harr]; rfl, hr'⟩

/-- **The entries of a mapping are read**, after those that have been read. Kind: P -/
theorem parseObject_toks : ∀ (es : Entries) (b : Behind) (isNested listItem first : Bool) (k : ℕ)
    (T R : List Token) (fuel : ℕ) (obj : List (Bytes × Value)) (p : Parser),
    es.Fits b isNested → es.Keyed → (obj.map Prod.fst ++ es.names).Nodup → Closes b T →
    (listItem = true → first = false) → es.cost ≤ fuel →
    p.Reads signed (es.toks b (closing k T)) → EndsAt signed b isNested listItem k T es.final R →
    ∃ p', parseObject signed fuel isNested listItem first obj p =
        .done (.object (obj ++ es.value), p') ∧ p'.Reads signed R
  | .last fill key v, b, isNested, listItem, first, k, T, R, fuel, obj,
    p, hfits, hkeyed, hnodup, hT,
      hfirst, hfuel, hr, hends => by
      simp only [Entries.cost] at hfuel
      obtain ⟨n, rfl⟩ : ∃ n, fuel = n + 1 + 1 := ⟨fuel - 2, by omega⟩
      obtain ⟨t, u, l, hl⟩ := v.toks_two (b := b) (hT.two k)
      have hnew : key.name ∉ obj.map Prod.fst := fun hmem =>
        (List.disjoint_of_nodup_append hnodup hmem) (by simp [Entries.names])
      rw [Entries.toks, hl] at hr
      obtain ⟨p₁, hentry, hr₁⟩ := @parseObject_entry signed (n + 1) p _ _ _ isNested listItem first
        obj _ v.value _ hr (storeEntry_new hkeyed.1 ⟨b, hfits⟩ hnew) fun p₁ hr₁ =>
          parseValue_toks v b k T (n + 1) p₁ hfits hkeyed.2 hT (by omega) (by rw [hl]; exact hr₁)
      obtain ⟨p', hafter, hr'⟩ := hends n first _ p₁ hfirst hr₁
      exact ⟨p', by rw [hentry, hafter]; rfl, hr'⟩
  | .cons fill key v es, b, isNested, listItem, first, k, T, R, fuel, obj, p, hfits, hkeyed, hnodup,
      hT, hfirst, hfuel, hr, hends => by
      simp only [Entries.cost] at hfuel
      obtain ⟨n, rfl⟩ : ∃ n, fuel = n + 1 := ⟨fuel - 1, by omega⟩
      obtain ⟨s, t, u, l, hes⟩ := es.toks_eq (b := b) (hT.two k)
      have htwo : Two (es.toks b (closing k T)) := ⟨_, _, _, hes⟩
      obtain ⟨t', u', l', hl⟩ := v.toks_two (b := .lines) htwo
      have hnew : key.name ∉ obj.map Prod.fst := fun hmem =>
        (List.disjoint_of_nodup_append hnodup hmem) (by simp [Entries.names])
      rw [Entries.toks, hl] at hr
      have hclose : Closes .lines (es.toks b (closing k T)) := by
        rw [hes]
        exact Closes.of_key
      obtain ⟨p₁, hentry, hr₁⟩ := @parseObject_entry signed n p _ _ _ isNested listItem first
        obj _ v.value _ hr (storeEntry_new hkeyed.1 ⟨.lines, hfits.1⟩ hnew) fun p₁ hr₁ =>
          parseValue_toks v .lines 0 _ n p₁ hfits.1 hkeyed.2.1 hclose (by omega)
            (by rw [closing, List.replicate_zero, List.nil_append, hl]; exact hr₁)
      rw [hes] at hr₁
      obtain ⟨first', p₂, hnext, hfirst', hr₂⟩ := @afterEntry_next signed v isNested listItem first
        (fun first => parseObject signed n isNested listItem first (obj ++ [(key.name, v.value)]))
        (obj ++ [(key.name, v.value)]) p₁ _ _ _ hfits.2.1 hr₁
      rw [← hes] at hr₂
      obtain ⟨p', hobj, hr'⟩ := parseObject_toks es b isNested listItem first' k T R n
        (obj ++ [(key.name, v.value)]) p₂ hfits.2.2 hkeyed.2.2
        (by simpa [Entries.names] using hnodup) hT (fun h => hfirst' (hfirst h))
          (by omega) hr₂ hends
      rw [List.append_assoc] at hobj
      exact ⟨p', by rw [hentry, hnext, hobj]; rfl, hr'⟩

/-- **The items of a sequence are read**, after those that have been read. Kind: P -/
theorem parseArray_toks : ∀ (is : Items) (b : Behind) (k : ℕ) (T : List Token) (fuel : ℕ)
    (arr : List Value) (p : Parser), is.Fits b → is.Keyed → Closes b T → (b = .lines → 1 ≤ k) →
    is.cost ≤ fuel → p.Reads signed (is.toks b (closing k T)) →
    ∃ p', parseArray signed fuel arr p = .done (.array (arr ++ is.value), p') ∧
      p'.Reads signed (closing (k - 1 + is.left b).toNat T)
  | .last fill item, b, k, T, fuel, arr, p, hfits, hkeyed, hT, hk, hfuel, hr => by
      simp only [Items.cost] at hfuel
      obtain ⟨n, rfl⟩ : ∃ n, fuel = n + 1 + 1 := ⟨fuel - 2, by omega⟩
      obtain ⟨t, u, l, hl⟩ := item.toks_two (b := b) (hT.two k)
      have hkey : NoKey k T := by
        by_cases hb : b = .lines
        · exact .inl (hk hb)
        · rw [hT.end_of hb]
          exact .inr fun s => nofun
      rw [Items.toks, hl] at hr
      obtain ⟨p₁, hparse, hr₁⟩ := @parseArray_item signed (n + 1) p _ _ _ arr item.value _ hr
        fun p₁ hr₁ => parseItem_toks item b k T (n + 1) p₁ hfits hkeyed hT hkey (by omega)
          (by rw [hl]; exact hr₁)
      have hopen : b = .lines → 1 ≤ k + item.left b := by
        intro hb
        have hle := hk hb
        subst hb
        have := item.left_nonneg hfits
        omega
      obtain ⟨p', hafter, hr'⟩ := @afterItem_final signed b k T item _ n p₁ hT hk hopen hr₁
      exact ⟨p', by rw [hparse, hafter]; rfl, hr'⟩
  | .cons fill item is, b, k, T, fuel, arr, p, hfits, hkeyed, hT, hk, hfuel, hr => by
      simp only [Items.cost] at hfuel
      obtain ⟨n, rfl⟩ : ∃ n, fuel = n + 1 := ⟨fuel - 1, by omega⟩
      obtain ⟨t, u, l, his⟩ := is.toks_eq (b := b) (hT.two k)
      have htwo : Two (is.toks b (closing k T)) := ⟨_, _, _, his⟩
      obtain ⟨t', u', l', hl⟩ := item.toks_two (b := .lines) htwo
      have hclose : Closes .lines (is.toks b (closing k T)) := by
        rw [his]
        exact Closes.of_dash
      have hkey : NoKey 0 (is.toks b (closing k T)) := by
        rw [his]
        exact .inr fun s => nofun
      rw [Items.toks, hl] at hr
      obtain ⟨p₁, hparse, hr₁⟩ := @parseArray_item signed n p _ _ _ arr item.value _ hr
        fun p₁ hr₁ => parseItem_toks item .lines 0 _ n p₁ hfits.1 hkeyed.1 hclose hkey (by omega)
          (by rw [closing, List.replicate_zero, List.nil_append, hl]; exact hr₁)
      rw [his] at hr₁
      obtain ⟨p₂, hnext, hr₂⟩ :=
        @afterItem_next signed item (arr ++ [item.value]) n p₁ _ _ hfits.2.1
        hr₁
      rw [← his] at hr₂
      obtain ⟨p', harr, hr'⟩ := parseArray_toks is b k T n (arr ++ [item.value]) p₂ hfits.2.2
        hkeyed.2 hT hk (by omega) hr₂
      rw [List.append_assoc] at harr
      exact ⟨p', by rw [hparse, hnext, harr]; rfl, hr'⟩

/-- **An item is read.** Kind: P -/
theorem parseItem_toks : ∀ (item : Item) (b : Behind) (k : ℕ) (T : List Token) (fuel : ℕ)
    (p : Parser), item.Fits b → item.Keyed → Closes b T → NoKey k T → item.cost ≤ fuel →
    p.Reads signed (item.toks b (closing k T)) →
    ∃ p', parseItem signed fuel p = .done (item.value, p') ∧ p'.Reads signed (item.behind b k T)
  | .plain v, b, k, T, fuel, p, hfits, hkeyed, hT, hkey, hfuel, hr => by
      simp only [Item.cost] at hfuel
      obtain ⟨n, rfl⟩ : ∃ n, fuel = n + 1 := ⟨fuel - 1, by omega⟩
      obtain ⟨t, u, l, hl, hu⟩ := v.toks_second (k := k) hT hfits
      rw [Item.toks] at hr
      obtain ⟨p', hparse, hr'⟩ := parseValue_toks v b k T n p hfits hkeyed hT (by omega) hr
      rw [hl] at hr
      exact ⟨p', by rw [parseItem_value hr hu, hparse]; rfl, hr'⟩
  | .single gap key v, b, k, T, fuel, p, hfits, hkeyed, hT, hkey, hfuel, hr => by
      simp only [Item.cost] at hfuel
      obtain ⟨n, rfl⟩ : ∃ n, fuel = n + 1 + 1 + 1 := ⟨fuel - 3, by omega⟩
      obtain ⟨t, u, l, hl⟩ := v.toks_two (b := b) (hT.two k)
      rw [Item.toks, hl] at hr
      obtain ⟨p₁, hentry, hr₁⟩ := @parseObject_entry signed (n + 1) p _ _ _ false true true
        [] _ v.value _ hr (storeEntry_new hkeyed.1 ⟨b, hfits.1⟩ List.not_mem_nil) fun p₁ hr₁ =>
          parseValue_toks v b k T (n + 1) p₁ hfits.1 hkeyed.2 hT (by omega) (by rw [hl]; exact hr₁)
      have hopen : b = .lines → 1 ≤ k + v.left b := by
        rintro rfl
        have := hfits.2 rfl
        omega
      have hkey' : NoKey (k - 1 + v.left b).toNat T := by
        refine hkey.of_closes hT ?_
        rintro rfl
        have := hfits.2 rfl
        omega
      obtain ⟨p', hafter, hr'⟩ := @afterEntry_final signed b k T v false true true n _ p₁ hT
        (fun _ => rfl) (fun h => nomatch h) hopen (fun _ => hkey') hr₁
      have hsub : (k - 1 + v.left b).toNat = (k + (Item.single gap key v).left b).toNat := by
        rw [Item.left]
        omega
      rw [hsub] at hr'
      exact ⟨p', by rw [parseItem_key hr, hentry, hafter]; rfl, hr'⟩
  | .compact gap key v es, b, k, T, fuel, p, hfits, hkeyed, hT, hkey, hfuel, hr => by
      simp only [Item.cost] at hfuel
      obtain ⟨n, rfl⟩ : ∃ n, fuel = n + 1 + 1 := ⟨fuel - 2, by omega⟩
      obtain ⟨g, txt, token, rfl⟩ := isScalar_iff hfits.1
      simp only [Node.cost] at hfuel
      obtain ⟨m, rfl⟩ : ∃ m, n = m + 2 := ⟨n - 2, by omega⟩
      obtain ⟨s, t, u, l, hes⟩ := es.toks_eq (b := b) (hT.two (k + 1))
      rw [Item.toks, Node.toks, ends_of_ne (by exact nofun), ← closing_succ, hes] at hr
      obtain ⟨w, hw⟩ := Option.isSome_iff_exists.mp hfits.2.1
      have hvalue : (Node.scalar g txt token).value = w := by rw [Node.value, hw]; rfl
      have hstore : storeEntry key.name w [] = .done ([] ++ [(key.name, w)]) := by
        rw [← hvalue]
        exact storeEntry_new hkeyed.1 ⟨.lines, hfits.2.1⟩ List.not_mem_nil
      obtain ⟨p₁, hentry, hr₁⟩ := @parseObject_entry signed (m + 2) p _ _ _ false true true
        [] _ w _ hr hstore fun p₁ hr₁ => parseValue_scalar hr₁ (by simp) hw (by exact nofun)
      -- The line end and the `Indent` of the second key are taken.
      have hcur₁ : p₁.current = .newline := Parser.Reads.current hr₁
      obtain ⟨p₂, hadv₁, hr₂⟩ := Parser.Reads.advance hr₁
      have hcur₂ : p₂.current = .indent := Parser.Reads.current hr₂
      obtain ⟨p₃, hadv₂, hr₃⟩ := Parser.Reads.advance hr₂
      rw [← hes] at hr₃
      have hnodup : ([(key.name, w)].map Prod.fst ++ es.names).Nodup := hkeyed.2.2.1
      have hleft := es.left_eq_final (b := b)
      have hscalar := es.lastIsScalar_eq_final
      have hsub : (Item.compact gap key (.scalar g txt token) es).left b =
          if es.final.isScalar then 0 else es.final.left b := by
        rw [Item.left, hscalar, hleft]
      have hnonneg : b = .lines → 0 ≤ es.final.left b := by
        rintro rfl
        rw [← hleft]
        exact es.left_nonneg false hfits.2.2
      have hkey' : NoKey (k + if es.final.isScalar then 0 else es.final.left b).toNat T := by
        refine hkey.of_closes hT fun hb => ?_
        have := hnonneg hb
        split <;> omega
      have hends := @endsAt_compact signed b k T es.final hT
        (fun hb => by have := hnonneg hb; omega) hkey'
      obtain ⟨p', hobj, hr'⟩ := parseObject_toks es b false true false (k + 1) T _ (m + 2)
        [(key.name, w)] p₃ hfits.2.2 hkeyed.2.2.2 hnodup hT (fun _ => rfl) (by omega) hr₃ hends
      rw [← hsub] at hr'
      refine ⟨p', ?_, hr'⟩
      rw [parseItem_key hr, hentry, afterEntry, hcur₁]
      simp only [hadv₁, Outcome.done_bind, skipListItem, hcur₂, hadv₂, Bool.true_and, decide_true,
        Bool.true_or, if_true, List.nil_append, hobj]
      rw [Item.value, hvalue]
      rfl

end

/-! ## Documents -/

theorem skipNewlines_eof {fuel : ℕ} {p : Parser} {marker : Token} (hm : marker ≠ .eof)
    (h : p.current = .eof) : p.skipNewlines signed (fuel + 1) marker = .done p := by
  rw [Parser.skipNewlines, h, if_neg hm.symm, Parser.skipWhileNewline, h, if_neg (by exact nofun)]

/-- A line end in front of the end of the text is passed. Kind: L -/
theorem skipNewlines_newline {fuel : ℕ} {p : Parser} {marker : Token} (hm : marker ≠ .newline)
    (hr : p.Reads signed [.newline, .eof, .eof]) :
    ∃ p', p.skipNewlines signed (fuel + 2) marker = .done p' ∧ p'.current = .eof := by
  have hcur : p.current = .newline := Parser.Reads.current hr
  obtain ⟨p', hadv, hr'⟩ := Parser.Reads.advance hr
  have hcur' : p'.current = .eof := Parser.Reads.current hr'
  refine ⟨p', ?_, hcur'⟩
  rw [Parser.skipNewlines, hcur, if_neg hm.symm, Parser.skipWhileNewline, hcur, if_pos rfl, hadv,
    Outcome.done_bind, Parser.skipWhileNewline, hcur', if_neg (by exact nofun)]

/-- In front of any other token nothing is passed. Kind: L -/
theorem skipNewlines_other {fuel : ℕ} {p : Parser} {marker t : Token} {ts : List Token}
    (hr : p.Reads signed (t :: ts)) (hm : t ≠ marker) (hn : t ≠ .newline) :
    p.skipNewlines signed (fuel + 1) marker = .done p := by
  have hcur : p.current = t := Parser.Reads.current hr
  rw [Parser.skipNewlines, hcur, if_neg hm, Parser.skipWhileNewline, hcur, if_neg hn]

/-- **The root of a document is read up to the end.** Kind: L -/
theorem parseValue_docToks {v : Node} (hb : b ≠ .lines) (hfits : v.FitsDocument b)
    (hkeyed : v.Keyed) {fuel : ℕ} (hfuel : v.cost + 4 ≤ fuel) {p : Parser}
    (hr : p.Reads signed (v.docToks b)) :
    ∃ p', parseValue signed fuel p = .done (v.value, p') ∧
      (p'.Reads signed [.eof, .eof] ∨ p'.Reads signed [.newline, .eof, .eof]) := by
  have hT : Closes b [.eof, .eof] := by
    rw [Closes, if_neg hb]
  obtain ⟨n, rfl⟩ : ∃ n, fuel = n + 2 := ⟨fuel - 2, by omega⟩
  cases v with
  | scalar gap t token =>
      obtain ⟨w, hw⟩ := Option.isSome_iff_exists.mp hfits
      have hvalue : (Node.scalar gap t token).value = w := by rw [Node.value, hw]; rfl
      rw [hvalue]
      rw [Node.docToks] at hr
      by_cases hn : b = .nothing
      · rw [hn, ends_nothing] at hr
        obtain ⟨p', hparse, hr'⟩ :=
          @parseValue_scalar signed n p _ _ _ hr (by simp) w hw (by exact nofun)
        exact ⟨p', hparse, .inl hr'⟩
      · rw [ends_of_ne hn] at hr
        obtain ⟨p', hparse, hr'⟩ :=
          @parseValue_scalar signed n p _ _ _ hr (by simp) w hw (by exact nofun)
        exact ⟨p', hparse, .inr hr'⟩
  | emptyObject gap => exact hfits.elim
  | absent gap => exact hfits.elim
  | mapping gap level es =>
      simp only [Node.cost] at hfuel
      rw [Node.docToks] at hr
      have hleft := es.left_eq_final (b := b)
      have hle := es.left_le_one b
      by_cases hlevel : level = 0
      · subst hlevel
        rw [if_pos rfl] at hr
        obtain ⟨s, t, u, l, hl⟩ := es.toks_eq (b := b) (hT.two 0)
        have hends : EndsAt signed b false false 0 [.eof, .eof] es.final [.eof, .eof] := by
          intro fuel first obj p _ hr
          have hsub : (((0 : ℕ) : ℤ) - 1 + es.final.left b).toNat = 0 := by
            rw [← hleft]
            omega
          have hkey : NoKey (((0 : ℕ) : ℤ) - 1 + es.final.left b).toNat [.eof, .eof] :=
            .inr fun s => nofun
          obtain ⟨p', hafter, hr'⟩ := @afterEntry_final signed b 0 _ es.final false false first fuel
            obj p hT (fun h => nomatch h) (fun h => nomatch h) (fun h => absurd h hb)
            (fun _ => hkey) hr
          rw [hsub] at hr'
          exact ⟨p', hafter, hr'⟩
        obtain ⟨p', hobj, hr'⟩ := parseObject_toks es b false false true 0 _ _ n [] p
          (by simpa using hfits.1) hkeyed.2 (by simpa using hkeyed.1) hT (fun h => nomatch h)
          (by omega) hr hends
        rw [closing, List.replicate_zero, List.nil_append] at hl
        rw [hl] at hr
        exact ⟨p', by rw [parseValue_key hr, hobj]; rfl, .inl hr'⟩
      · rw [if_neg hlevel] at hr
        obtain ⟨s, t, u, l, hl⟩ := es.toks_eq (b := b) (hT.two 1)
        have hl' : es.toks b [.dedent, .eof, .eof] = .string s :: .colon :: t :: u :: l := hl
        rw [hl'] at hr
        obtain ⟨p₁, hparse, hr₁⟩ := @parseValue_indent signed n p _ _ _ hr
        rw [← hl'] at hr₁
        have hends : EndsAt signed b true false 1 [.eof, .eof] es.final [.eof, .eof] := by
          intro fuel first obj p _ hr
          have hsub : (((1 : ℕ) : ℤ) - 1 + es.final.left b).toNat = 0 := by
            have := hfits.2 hlevel
            rw [← hleft]
            omega
          obtain ⟨p', hafter, hr'⟩ := @afterEntry_final signed b 1 _ es.final true false first fuel
            obj p hT (fun h => nomatch h) (fun _ => le_rfl) (fun h => absurd h hb)
            (fun h => nomatch h) hr
          rw [hsub] at hr'
          exact ⟨p', hafter, hr'⟩
        obtain ⟨p', hobj, hr'⟩ := parseObject_toks es b true false true 1 _ _ n [] p₁
          (by simpa [hlevel] using hfits.1) hkeyed.2 (by simpa using hkeyed.1) hT
          (fun h => nomatch h) (by omega) hr₁ hends
        exact ⟨p', by rw [hparse, if_neg (by exact nofun), hobj]; rfl, .inl hr'⟩
  | sequence gap level is =>
      simp only [Node.cost] at hfuel
      rw [Node.docToks] at hr
      have hle := is.left_le_one b
      by_cases hlevel : level = 0
      · subst hlevel
        rw [if_pos rfl] at hr
        obtain ⟨t, u, l, hl⟩ := is.toks_eq (b := b) (hT.two 0)
        obtain ⟨p', harr, hr'⟩ := parseArray_toks is b 0 _ n [] p hfits.1 hkeyed hT
          (fun h => absurd h hb) (by omega) hr
        have hsub : (((0 : ℕ) : ℤ) - 1 + is.left b).toNat = 0 := by omega
        rw [hsub] at hr'
        rw [closing, List.replicate_zero, List.nil_append] at hl
        rw [hl] at hr
        exact ⟨p', by rw [parseValue_dash hr, harr]; rfl, .inl hr'⟩
      · rw [if_neg hlevel] at hr
        obtain ⟨t, u, l, hl⟩ := is.toks_eq (b := b) (hT.two 1)
        have hl' : is.toks b [.dedent, .eof, .eof] = .dash :: t :: u :: l := hl
        rw [hl'] at hr
        obtain ⟨p₁, hparse, hr₁⟩ := @parseValue_indent signed n p _ _ _ hr
        rw [← hl'] at hr₁
        obtain ⟨p', harr, hr'⟩ := parseArray_toks is b 1 _ n [] p₁ hfits.1 hkeyed hT
          (fun _ => le_rfl) (by omega) hr₁
        have hsub : (((1 : ℕ) : ℤ) - 1 + is.left b).toNat = 0 := by
          have := hfits.2 hlevel
          omega
        rw [hsub] at hr'
        exact ⟨p', by rw [hparse, if_pos rfl, harr]; rfl, .inl hr'⟩

/-- The first token of a document begins a value. Kind: L -/
theorem docToks_head {v : Node} (hfits : v.FitsDocument b) :
    ∃ t u l, v.docToks b = t :: u :: l ∧ t ≠ .docStart ∧ t ≠ .newline := by
  have htwo : Two [.eof, .eof] := ⟨_, _, _, rfl⟩
  have htwo' : Two [.dedent, .eof, .eof] := ⟨_, _, _, rfl⟩
  cases v with
  | scalar gap t token =>
      obtain ⟨w, hw⟩ := Option.isSome_iff_exists.mp hfits
      obtain ⟨u, x, l, hl⟩ := htwo.append b.ends
      refine ⟨token, u, x :: l, by rw [Node.docToks, hl], ?_, ?_⟩
      · rintro rfl
        cases hw
      · rintro rfl
        cases hw
  | emptyObject gap => exact hfits.elim
  | absent gap => exact hfits.elim
  | mapping gap level es =>
      rw [Node.docToks]
      split
      · obtain ⟨s, t, u, l, hl⟩ := es.toks_eq (b := b) htwo
        exact ⟨_, _, _, hl, nofun, nofun⟩
      · obtain ⟨s, t, u, l, hl⟩ := es.toks_eq (b := b) htwo'
        exact ⟨.indent, _, _, by rw [hl], nofun, nofun⟩
  | sequence gap level is =>
      rw [Node.docToks]
      split
      · obtain ⟨t, u, l, hl⟩ := is.toks_eq (b := b) htwo
        exact ⟨_, _, _, hl, nofun, nofun⟩
      · obtain ⟨t, u, l, hl⟩ := is.toks_eq (b := b) htwo'
        exact ⟨.indent, _, _, by rw [hl], nofun, nofun⟩

/-- **A document whose tokens are those of a layout that fits is parsed as its value.** Kind: P -/
theorem parse_docToks {v : Node} (hb : b ≠ .lines) (hfits : v.FitsDocument b) (hkeyed : v.Keyed)
    {input : Bytes} (hyields : Yields (lexNext signed) (Lexer.init input) (v.docToks b)) {fuel : ℕ}
    (hfuel : v.cost + 4 ≤ fuel) : parse signed fuel input = .done v.value := by
  obtain ⟨n, rfl⟩ : ∃ n, fuel = n + 2 := ⟨fuel - 2, by omega⟩
  obtain ⟨t, u, l, hl, hstart, hnewline⟩ := docToks_head hfits
  rw [hl] at hyields
  obtain ⟨w, hw, hr⟩ := Window.Reads.start hyields
  have hinit : Parser.init signed input = .done ⟨w, []⟩ := by
    rw [Parser.init, hw]
  have hr₀ : Parser.Reads signed ⟨w, []⟩ (t :: u :: l) := hr
  have hskip := @skipNewlines_other signed (n + 1) _ _ _ _ hr₀ hstart hnewline
  rw [← hl] at hr₀
  obtain ⟨p', hparse, hr'⟩ := parseValue_docToks hb hfits hkeyed hfuel hr₀
  obtain ⟨p'', hskip', heof⟩ : ∃ p'', p'.skipNewlines signed (n + 2) .docEnd = .done p'' ∧
      p''.current = .eof := by
    rcases hr' with hr' | hr'
    · have hcur : p'.current = .eof := Parser.Reads.current hr'
      exact ⟨p', skipNewlines_eof (by exact nofun) hcur, hcur⟩
    · exact skipNewlines_newline (by exact nofun) hr'
  have hne : p''.current ≠ .docStart := by
    rw [heof]
    exact nofun
  simp only [parse, hinit, Outcome.done_bind, hskip, hparse, hskip', heof, ne_eq, not_true_eq_false,
    if_false]
  rw [if_pos (by exact nofun)]

end CxyCompiler.Stdlib.Yaml
