import CxyCompiler.Stdlib.YamlBlocks
import CxyCompiler.Stdlib.YamlFuel
import CxyCompiler.Stdlib.YamlScalars

/-!
# The round trip of YAML texts

* `ReadBack`: the strings that are read back from their text.
* `Value.Texts`, `Value.Shape`, `Value.Indents`, `Value.Merges`: what a value has to be like.
* `layout`: the layout that the serializer writes; `layout_render`, `layout_value`.
* **`parse_serialize`**: a value of that kind is read back from its text.
* `parse_unserialized`: values that are not.
-/

namespace CxyCompiler.Stdlib.Yaml

open CxyCompiler.Lib.Numeral (forall_byte)

variable {signed : Bool} {b : Behind}

/-! ## Strings -/

/-- The text looks like a number. -/
def isNumeric (s : Bytes) : Bool :=
  (numberScan [] 0 ⟨true, false, false, false⟩ s).isNumber &&
    (numberScan [] 0 ⟨true, false, false, false⟩ s).hasDigit

/-- A string that is read back from what is written for it, with `next` behind it. What is written
without quotes has no blank and no `#`, does not look like a number, does not begin with three
points, and does not end in a colon at the end of a line. -/
structure ReadBack (signed : Bool) (next : Option UInt8) (s : Bytes) : Prop where
  ascii : ∀ c ∈ s, isAscii c = true
  blank : needsQuoting signed s = false → ch ' ' ∉ s ∧ ch '#' ∉ s
  number : needsQuoting signed s = false → isNumeric s = false
  points : needsQuoting signed s = false → s.take 3 ≠ text "..."
  colon : needsQuoting signed s = false → next = some (ch '\n') → s.getLast? ≠ some (ch ':')

instance (next : Option UInt8) (s : Bytes) : Decidable (ReadBack signed next s) :=
  decidable_of_iff (s.all isAscii = true ∧ (needsQuoting signed s = true ∨
      (ch ' ' ∉ s ∧ ch '#' ∉ s) ∧ isNumeric s = false ∧ s.take 3 ≠ text "..." ∧
        (next ≠ some (ch '\n') ∨ s.getLast? ≠ some (ch ':')))) <| by
    rw [List.all_eq_true]
    constructor
    · rintro ⟨hascii, hq | ⟨hblank, hnumber, hpoints, hcolon⟩⟩
      · refine ⟨hascii, ?_, ?_, ?_, ?_⟩ <;>
          exact fun hq' => absurd (hq.symm.trans hq') (by decide)
      · exact ⟨hascii, fun _ => hblank, fun _ => hnumber, fun _ => hpoints,
          fun _ hnext => hcolon.resolve_left fun hne => hne hnext⟩
    · intro h
      refine ⟨h.ascii, ?_⟩
      cases hq : needsQuoting signed s with
      | true => exact .inl rfl
      | false =>
          refine .inr ⟨h.blank hq, h.number hq, h.points hq, ?_⟩
          by_cases hnext : next = some (ch '\n')
          · exact .inr (h.colon hq hnext)
          · exact .inl hnext

/-- What is known of a string that is written without quotes. -/
structure Bare (s : Bytes) : Prop where
  start : ∃ c t, s = c :: t ∧ isYamlIndicator c = false
  noWord : s ≠ text "true" ∧ s ≠ text "false" ∧ s ≠ text "null" ∧ s ≠ text "~"
  noControl : ∀ c ∈ s, ¬ c < 32

/-- What is written without quotes begins and reads like a plain scalar. Kind: L -/
theorem bare_of_unquoted {s : Bytes} (h : needsQuoting signed s = false) : Bare s := by
  cases s with
  | nil => cases h
  | cons c t =>
      simp only [needsQuoting, Bool.or_eq_false_iff, decide_eq_false_iff_not] at h
      obtain ⟨⟨⟨⟨⟨⟨-, hfirst⟩, h₁⟩, h₂⟩, h₃⟩, h₄⟩, hany⟩ := h
      refine ⟨⟨c, t, rfl, by simpa using hfirst⟩, ⟨h₁, h₂, h₃, h₄⟩, fun d hd hlt => ?_⟩
      obtain ⟨i, hi⟩ := List.mem_iff_getElem?.mp hd
      have hmem : (d, i) ∈ (c :: t).zipIdx := List.mk_mem_zipIdx_iff_getElem?.mpr hi
      have := List.any_eq_false.mp hany (d, i) hmem
      simp [isControl, hlt] at this

/-- A bare text that is no number is a string. Kind: L -/
theorem plainToken_bare {s : Bytes} (h : Bare s) (hn : isNumeric s = false) :
    plainToken s = .string s := by
  obtain ⟨⟨c, t, rfl, -⟩, ⟨h₁, h₂, h₃, h₄⟩, -⟩ := h
  unfold isNumeric at hn
  unfold plainToken classify
  rw [if_neg (by simp), hn, if_neg (by simp)]
  split
  · rfl
  · simp only [h₃, h₄, decide_false, Bool.or_self, Bool.false_eq_true, if_false, Option.getD_some]

/-- A text without blanks does not end inside. Kind: L -/
theorem unbroken_bare {next : Option UInt8} (hnext : next ≠ some (ch ' ')) :
    ∀ {s : Bytes}, (∀ c ∈ s, isStart c = true) →
      (next = some (ch '\n') → s.getLast? ≠ some (ch ':')) → Unbroken next s
  | [], _, _ => trivial
  | [c], h, hlast =>
      ⟨h c List.mem_cons_self, fun hc => ⟨hnext, fun hn => hlast hn (by rw [hc]; rfl)⟩, trivial⟩
  | c :: d :: s, h, hlast => by
      obtain ⟨hc, hs⟩ := List.forall_mem_cons.mp h
      obtain ⟨hb, hn, -⟩ := isStart_iff.mp (hs d List.mem_cons_self)
      have hspace : d ≠ ch ' ' := by
        rintro rfl
        exact absurd hb (by decide)
      refine ⟨hc, fun _ => ⟨?_, ?_⟩, unbroken_bare hnext hs ?_⟩
      · simpa using hspace
      · simpa using hn
      · simpa [List.getLast?_cons_cons] using hlast

theorem isStart_bare {s : Bytes} (h : Bare s) (hblank : ch ' ' ∉ s) (hcomment : ch '#' ∉ s) :
    ∀ c ∈ s, isStart c = true ∧ isSpace c = false := by
  intro c hc
  have hspace : c ≠ ch ' ' := fun he => hblank (he ▸ hc)
  have hsharp : c ≠ ch '#' := fun he => hcomment (he ▸ hc)
  have hctl := h.noControl c hc
  exact forall_byte (p := fun c => ¬c < 32 → c ≠ ch ' ' → c ≠ ch '#' →
    isStart c = true ∧ isSpace c = false) (by decide +kernel) c hctl hspace hsharp

/-- **What is written without quotes and read back is a plain scalar.** Kind: L -/
theorem ReadBack.isPlain {next : Option UInt8} {s : Bytes} (h : ReadBack signed next s)
    (hq : needsQuoting signed s = false)
    (hnext : next ≠ some (ch ' ') ∧ next ≠ some (ch '.')) : IsPlain next s := by
  have hbare := bare_of_unquoted hq
  have hall := isStart_bare hbare (h.blank hq).1 (h.blank hq).2
  refine ⟨h.ascii, unbroken_bare hnext.1 (fun c hc => (hall c hc).1) (h.colon hq),
    fun c hc => (hall c hc).2, ?_⟩
  obtain ⟨⟨c, t, rfl, hind⟩, -, -⟩ := hbare
  obtain ⟨hspecial, hdash⟩ := forall_byte (p := fun c => isYamlIndicator c = false →
    c ∉ text ":\"'\x7b\x7d[]|>&*" ∧ c ≠ ch '-') (by decide +kernel) c hind
  refine ⟨c, t, rfl, fun tail htail => ⟨(hall c List.mem_cons_self).1, hspecial,
    fun hc => absurd hc hdash, fun hc hdots => ?_⟩⟩
  have hpoints := h.points hq
  rw [hc] at hpoints
  have htail : tail.head? ≠ some (ch '.') := htail ▸ hnext.2
  match t, hdots, hpoints with
  | [], hdots, _ =>
      cases tail with
      | nil => cases hdots
      | cons d tail => exact htail (congrArg List.head? hdots)
  | [d], hdots, _ =>
      cases tail with
      | nil => cases hdots
      | cons e tail => exact htail (congrArg (fun l => l.tail.head?) hdots)
  | d :: e :: t, hdots, hpoints =>
      exact hpoints (congrArg (List.cons (ch '.')) hdots)

theorem serializeScalar_eq (s : Bytes) :
    serializeScalar signed s = if needsQuoting signed s then quoted signed s else s := rfl

/-- **A string is read back as a value.** Kind: L -/
theorem ReadBack.scans {s : Bytes} (h : ReadBack signed b.next s) :
    Scans signed b (serializeScalar signed s) (.string s) := by
  rw [serializeScalar_eq]
  cases hq : needsQuoting signed s with
  | true => exact scans_quoted h.ascii
  | false =>
      have hplain := h.isPlain hq (by unfold Behind.next; split <;> decide)
      rw [← plainToken_bare (bare_of_unquoted hq) (h.number hq)]
      exact scans_plain hplain

/-- **A string is read back as a key.** Kind: L -/
theorem ReadBack.scans_key {s : Bytes} (h : ReadBack signed (some (ch ':')) s) :
    Key.Scans signed ⟨serializeScalar signed s, s⟩ := by
  rw [serializeScalar_eq]
  cases hq : needsQuoting signed s with
  | true => exact scans_quoted_key h.ascii
  | false =>
      exact scans_plain_key (h.isPlain hq (by decide))
        (plainToken_bare (bare_of_unquoted hq) (h.number hq))

/-! ## Values that are read back -/

def Value.IsScalar : Value → Prop
  | .array _ => False
  | .object _ => False
  | _ => True

mutual

/-- The values without numbers. -/
def Value.NoNumber : Value → Prop
  | .int _ => False
  | .float _ => False
  | .array xs => Value.NoNumberItems xs
  | .object es => Value.NoNumberEntries es
  | _ => True

def Value.NoNumberItems : List Value → Prop
  | [] => True
  | x :: xs => Value.NoNumber x ∧ Value.NoNumberItems xs

def Value.NoNumberEntries : List (Bytes × Value) → Prop
  | [] => True
  | (_, x) :: es => Value.NoNumber x ∧ Value.NoNumberEntries es

end

mutual

/-- Each string and key is read back, with `next` behind the last string. -/
def Value.Texts (signed : Bool) (next : Option UInt8) : Value → Prop
  | .string s => ReadBack signed next s
  | .array xs => Value.TextsItems signed next xs
  | .object es => Value.TextsEntries signed next es
  | _ => True

def Value.TextsItems (signed : Bool) (next : Option UInt8) : List Value → Prop
  | [] => True
  | [x] => Value.Texts signed next x
  | x :: xs => Value.Texts signed (some (ch '\n')) x ∧ Value.TextsItems signed next xs

def Value.TextsEntries (signed : Bool) (next : Option UInt8) : List (Bytes × Value) → Prop
  | [] => True
  | [(k, x)] => ReadBack signed (some (ch ':')) k ∧ Value.Texts signed next x
  | (k, x) :: es =>
      ReadBack signed (some (ch ':')) k ∧ Value.Texts signed (some (ch '\n')) x ∧
        Value.TextsEntries signed next es

end

mutual

/-- How many arrays and objects the text of a value ends in. -/
def Value.opened : Value → ℕ
  | .array xs => Value.openedItems xs + 1
  | .object [] => 0
  | .object (e :: es) => Value.openedEntries (e :: es) + 1
  | _ => 0

def Value.openedItems : List Value → ℕ
  | [] => 0
  | [x] => Value.opened x
  | _ :: xs => Value.openedItems xs

def Value.openedEntries : List (Bytes × Value) → ℕ
  | [] => 0
  | [(_, x)] => Value.opened x
  | _ :: es => Value.openedEntries es

end

mutual

/-- There is no empty array, and no empty object but at the very end; all items and, in a nested
object, all entries but the last are scalars; no entry but the last ends in more arrays and objects
than a line closes. -/
def Value.Shape (atEnd isNested : Bool) : Value → Prop
  | .array xs => xs ≠ [] ∧ Value.ShapeItems atEnd xs
  | .object es => (es = [] → atEnd = true) ∧ Value.ShapeEntries atEnd isNested es
  | _ => True

def Value.ShapeItems (atEnd : Bool) : List Value → Prop
  | [] => True
  | [x] => Value.Shape atEnd true x
  | x :: xs => Value.IsScalar x ∧ Value.ShapeItems atEnd xs

def Value.ShapeEntries (atEnd isNested : Bool) : List (Bytes × Value) → Prop
  | [] => True
  | [(_, x)] => Value.Shape atEnd true x
  | (_, x) :: es =>
      (isNested = true → Value.IsScalar x) ∧ Value.Shape false true x ∧
        Value.opened x ≤ maxClosed ∧ Value.ShapeEntries atEnd isNested es

end

/-- The indentation of an item that is an array or an object. -/
def itemIndent (indent current : ℕ) : Value → ℕ
  | .array _ => addIndent current (indent + 2)
  | _ => addIndent current indent

mutual

/-- Each array and object is indented more than the one around it, as far as the lexer measures. -/
def Value.Indents (indent current : ℕ) : Value → Prop
  | .array xs => Value.IndentsItems indent current xs
  | .object es => Value.IndentsEntries indent current es
  | _ => True

def Value.IndentsItems (indent current : ℕ) : List Value → Prop
  | [] => True
  | x :: xs =>
      (needsNewline x = true → level current < level (itemIndent indent current x)) ∧
        Value.Indents indent (itemIndent indent current x) x ∧
        Value.IndentsItems indent current xs

def Value.IndentsEntries (indent current : ℕ) : List (Bytes × Value) → Prop
  | [] => True
  | (_, x) :: es =>
      (needsNewline x = true → level current < level (addIndent current indent)) ∧
        Value.Indents indent (addIndent current indent) x ∧
        Value.IndentsEntries indent current es

end

mutual

/-- A key that merges objects has a scalar. -/
def Value.Stored : Value → Prop
  | .array xs => Value.StoredItems xs
  | .object es => Value.StoredEntries es
  | _ => True

def Value.StoredItems : List Value → Prop
  | [] => True
  | x :: xs => Value.Stored x ∧ Value.StoredItems xs

def Value.StoredEntries : List (Bytes × Value) → Prop
  | [] => True
  | (k, x) :: es => (k = text "<<" → Value.IsScalar x) ∧ Value.Stored x ∧ Value.StoredEntries es

end

/-! ## What the serializer writes -/

def scalarNode (signed : Bool) : Value → Node
  | .bool b => .scalar 0 (if b then text "true" else text "false") (if b then .true else .false)
  | .string s => .scalar 0 (serializeScalar signed s) (.string s)
  | _ => .scalar 0 (text "null") .null

mutual

/-- The layout of a value behind a colon or a dash; a block stands `gap` blanks behind it. -/
def layout (signed : Bool) (indent gap current : ℕ) : Value → Node
  | .array xs => .sequence gap current (layoutItems signed indent current xs)
  | .object [] => .emptyObject 0
  | .object (e :: es) => .mapping gap current (layoutEntries signed indent current (e :: es))
  | v => scalarNode signed v

def layoutItems (signed : Bool) (indent current : ℕ) : List Value → Items
  | [] => .last [] (.plain (.absent 0))
  | [x] => .last [] (.plain (layout signed indent 1 (itemIndent indent current x) x))
  | x :: xs =>
      .cons [] (.plain (layout signed indent 1 (itemIndent indent current x) x))
        (layoutItems signed indent current xs)

def layoutEntries (signed : Bool) (indent current : ℕ) : List (Bytes × Value) → Entries
  | [] => .last [] ⟨[], []⟩ (.absent 0)
  | [(k, x)] =>
      .last [] ⟨serializeScalar signed k, k⟩ (layout signed indent 0 (addIndent current indent) x)
  | (k, x) :: es =>
      .cons [] ⟨serializeScalar signed k, k⟩ (layout signed indent 0 (addIndent current indent) x)
        (layoutEntries signed indent current es)

end

section

variable {indent : ℕ}

/-- A scalar has the shape for any place. Kind: L -/
theorem shape_of_isScalar {v : Value} (h : Value.IsScalar v) (atEnd isNested : Bool) :
    Value.Shape atEnd isNested v := by
  cases v with
  | array xs => exact h.elim
  | object es => exact h.elim
  | _ => trivial

theorem shapeItems_cons {atEnd : Bool} {x : Value} {xs : List Value}
    (h : Value.ShapeItems atEnd (x :: xs)) :
    Value.Shape (decide (xs = []) && atEnd) true x ∧ Value.ShapeItems atEnd xs := by
  cases xs with
  | nil => exact ⟨h, trivial⟩
  | cons y ys => exact ⟨shape_of_isScalar h.1 _ _, h.2⟩

theorem shapeEntries_cons {atEnd isNested : Bool} {k : Bytes} {x : Value}
    {es : List (Bytes × Value)} (h : Value.ShapeEntries atEnd isNested ((k, x) :: es)) :
    Value.Shape (decide (es = []) && atEnd) true x ∧ Value.ShapeEntries atEnd isNested es := by
  cases es with
  | nil => exact ⟨h, trivial⟩
  | cons e es => exact ⟨h.2.1, h.2.2.2⟩

/-- The layout of an item in front of others. Kind: L -/
theorem layoutItems_cons (current : ℕ) (x : Value) {xs : List Value} (h : xs ≠ []) :
    layoutItems signed indent current (x :: xs) =
      .cons [] (.plain (layout signed indent 1 (itemIndent indent current x) x))
        (layoutItems signed indent current xs) := by
  cases xs with
  | nil => exact absurd rfl h
  | cons y ys => rfl

/-- The layout of an entry in front of others. Kind: L -/
theorem layoutEntries_cons (current : ℕ) (k : Bytes) (x : Value) {es : List (Bytes × Value)}
    (h : es ≠ []) :
    layoutEntries signed indent current ((k, x) :: es) =
      .cons [] ⟨serializeScalar signed k, k⟩ (layout signed indent 0 (addIndent current indent) x)
        (layoutEntries signed indent current es) := by
  cases es with
  | nil => exact absurd rfl h
  | cons e es => rfl

/-! ## The text of the layout -/

/-- A value that does not stand on lines of its own is not indented. Kind: L -/
theorem serializeValue_current {p : Json.Printers} {v : Value} (h : needsNewline v = false)
    (current current' : ℕ) :
    serializeValue p indent current v = serializeValue p indent current' v := by
  cases v with
  | array xs =>
      cases xs with
      | nil => rfl
      | cons x xs => cases h
  | object es =>
      cases es with
      | nil => rfl
      | cons e es => cases h
  | _ => rfl

/-- An item is written behind its dash, or on the next line. Kind: L -/
theorem serializeItem_eq {p : Json.Printers} (current : ℕ) {x : Value} (h : x ≠ .array []) :
    serializeItem p indent current x =
      (if needsNewline x then text "\n" else []) ++
        serializeValue p indent (itemIndent indent current x) x := by
  cases x with
  | array xs =>
      cases xs with
      | nil => exact absurd rfl h
      | cons y ys => rfl
  | object es => cases es <;> rfl
  | _ => rfl

/-- The text of a layout behind a colon or a dash. -/
def behind (p : Json.Printers) (indent gap current : ℕ) (v : Value) : Bytes :=
  (if needsNewline v then writeIndent gap ++ text "\n" else text " ") ++
    serializeValue p indent current v

mutual

/-- **The layout is what the serializer writes.** Kind: L -/
theorem layout_render (p : Json.Printers) : ∀ (v : Value) (gap current : ℕ)
    {atEnd isNested : Bool}, Value.NoNumber v → Value.Shape atEnd isNested v →
    (layout p.signed indent gap current v).render = behind p indent gap current v
  | .null, _, _, _, _, _, _ => rfl
  | .bool true, _, _, _, _, _, _ => rfl
  | .bool false, _, _, _, _, _, _ => rfl
  | .int _, _, _, _, _, h, _ => h.elim
  | .float _, _, _, _, _, h, _ => h.elim
  | .string _, _, _, _, _, _, _ => rfl
  | .array [], _, _, _, _, _, h => absurd rfl h.1
  | .array (x :: xs), gap, current, _, _, hn, h => by
      have hitems := layoutItems_render p (x :: xs) current (List.cons_ne_nil _ _) hn h.2
      simp only [layout, Node.render, hitems]
      rfl
  | .object [], _, _, _, _, _, _ => rfl
  | .object (e :: es), gap, current, _, _, hn, h => by
      have hentries := layoutEntries_render p (e :: es) current (List.cons_ne_nil _ _) hn h.2
      simp only [layout, Node.render, hentries]
      rfl

/-- The layout of items renders to what is written for them. Kind: L -/
theorem layoutItems_render (p : Json.Printers) : ∀ (xs : List Value) (current : ℕ)
    {atEnd : Bool}, xs ≠ [] → Value.NoNumberItems xs → Value.ShapeItems atEnd xs →
    (layoutItems p.signed indent current xs).render current = serializeItems p indent current xs
  | [], _, _, h, _, _ => absurd rfl h
  | x :: xs, current, atEnd, _, hn, h => by
      have hshape := shapeItems_cons h
      have hx := layout_render p x 1 (itemIndent indent current x) hn.1 hshape.1
      have hitem : (layout p.signed indent 1 (itemIndent indent current x) x).render =
          text " " ++ serializeItem p indent current x := by
        rw [hx, behind, serializeItem_eq]
        · cases needsNewline x <;> rfl
        · rintro rfl
          exact hshape.1.1 rfl
      have hdash : text "- " = text "-" ++ text " " := rfl
      by_cases hxs : xs = []
      · subst hxs
        simp only [layoutItems, Items.render, Item.render, hitem, serializeItems, renderFill,
          List.flatMap_nil, List.nil_append, hdash, List.append_assoc, List.isEmpty_nil, if_true,
          List.append_nil]
      · have ih := layoutItems_render p xs current hxs hn.2 hshape.2
        rw [layoutItems_cons current x hxs]
        simp only [Items.render, Item.render, hitem, ih, serializeItems, renderFill,
          List.flatMap_nil, List.nil_append, hdash, List.append_assoc, List.isEmpty_iff, if_neg hxs]

/-- The layout of entries renders to what is written for them. Kind: L -/
theorem layoutEntries_render (p : Json.Printers) : ∀ (es : List (Bytes × Value)) (current : ℕ)
    {atEnd isNested : Bool}, es ≠ [] → Value.NoNumberEntries es →
    Value.ShapeEntries atEnd isNested es →
    (layoutEntries p.signed indent current es).render current =
      serializeEntries p indent current es
  | [], _, _, _, h, _, _ => absurd rfl h
  | (k, x) :: es, current, atEnd, isNested, _, hn, h => by
      have hshape := shapeEntries_cons h
      have hx := layout_render p x 0 (addIndent current indent) hn.1 hshape.1
      have hvalue : text ":" ++ (layout p.signed indent 0 (addIndent current indent) x).render =
          if needsNewline x then
            text ":\n" ++ serializeValue p indent (addIndent current indent) x
          else text ": " ++ serializeValue p indent current x := by
        rw [hx, behind]
        cases hnl : needsNewline x with
        | true => rfl
        | false => rw [serializeValue_current hnl _ current]; rfl
      by_cases hes : es = []
      · subst hes
        simp only [layoutEntries, Entries.render, hvalue, serializeEntries, renderFill,
          List.flatMap_nil, List.nil_append, List.append_assoc, List.isEmpty_nil, if_true,
          List.append_nil]
      · have ih := layoutEntries_render p es current hes hn.2 hshape.2
        rw [layoutEntries_cons current k x hes]
        simp only [Entries.render, ih, serializeEntries, renderFill, List.flatMap_nil,
          List.nil_append, List.append_assoc, List.isEmpty_iff, if_neg hes, hvalue]

end

/-! ## The value of the layout -/

mutual

/-- **The layout stands for the value.** Kind: L -/
theorem layout_value : ∀ (v : Value) (gap current : ℕ) {atEnd isNested : Bool},
    Value.NoNumber v → Value.Shape atEnd isNested v →
    (layout signed indent gap current v).value = v
  | .null, _, _, _, _, _, _ => rfl
  | .bool true, _, _, _, _, _, _ => rfl
  | .bool false, _, _, _, _, _, _ => rfl
  | .int _, _, _, _, _, h, _ => h.elim
  | .float _, _, _, _, _, h, _ => h.elim
  | .string _, _, _, _, _, _, _ => rfl
  | .array xs, _, current, _, _, hn, h => by
      rw [layout, Node.value, layoutItems_value xs current h.1 hn h.2]
  | .object [], _, _, _, _, _, _ => rfl
  | .object (e :: es), _, current, _, _, hn, h => by
      rw [layout, Node.value, layoutEntries_value (e :: es) current (List.cons_ne_nil _ _) hn h.2]

/-- The layout of items stands for them. Kind: L -/
theorem layoutItems_value : ∀ (xs : List Value) (current : ℕ) {atEnd : Bool}, xs ≠ [] →
    Value.NoNumberItems xs → Value.ShapeItems atEnd xs →
    (layoutItems signed indent current xs).value = xs
  | [], _, _, h, _, _ => absurd rfl h
  | x :: xs, current, _, _, hn, h => by
      have hshape := shapeItems_cons h
      have hx := layout_value x 1 (itemIndent indent current x) hn.1 hshape.1
      by_cases hxs : xs = []
      · subst hxs
        rw [layoutItems, Items.value, Item.value, hx]
      · rw [layoutItems_cons current x hxs, Items.value, Item.value, hx,
          layoutItems_value xs current hxs hn.2 hshape.2]

/-- The layout of entries stands for them. Kind: L -/
theorem layoutEntries_value : ∀ (es : List (Bytes × Value)) (current : ℕ)
    {atEnd isNested : Bool}, es ≠ [] → Value.NoNumberEntries es →
    Value.ShapeEntries atEnd isNested es →
    (layoutEntries signed indent current es).value = es
  | [], _, _, _, h, _, _ => absurd rfl h
  | (k, x) :: es, current, _, _, _, hn, h => by
      have hshape := shapeEntries_cons h
      have hx := layout_value x 0 (addIndent current indent) hn.1 hshape.1
      by_cases hes : es = []
      · subst hes
        rw [layoutEntries, Entries.value, hx]
      · rw [layoutEntries_cons current k x hes, Entries.value, hx,
          layoutEntries_value es current hes hn.2 hshape.2]

end

/-! ## The layout fits -/

mutual

/-- One `Dedent` is left behind each block. Kind: L -/
theorem layout_left : ∀ (v : Value) (gap current : ℕ),
    (layout signed indent gap current v).left .lines = 1
  | .null, _, _ => rfl
  | .bool _, _, _ => rfl
  | .int _, _, _ => rfl
  | .float _, _, _ => rfl
  | .string _, _, _ => rfl
  | .array xs, _, current => layoutItems_left xs current
  | .object [], _, _ => rfl
  | .object (e :: es), _, current => layoutEntries_left (e :: es) current

/-- Items leave one `Dedent`. Kind: L -/
theorem layoutItems_left : ∀ (xs : List Value) (current : ℕ),
    (layoutItems signed indent current xs).left .lines = 1
  | [], _ => rfl
  | [x], current => layout_left x 1 (itemIndent indent current x)
  | _ :: y :: ys, current => layoutItems_left (y :: ys) current

/-- Entries leave one `Dedent`. Kind: L -/
theorem layoutEntries_left : ∀ (es : List (Bytes × Value)) (current : ℕ),
    (layoutEntries signed indent current es).left .lines = 1
  | [], _ => rfl
  | [(_, x)], current => layout_left x 0 (addIndent current indent)
  | _ :: e :: es, current => layoutEntries_left (e :: es) current

end

mutual

/-- As many blocks are open behind the layout of a value as its text ends in. Kind: L -/
theorem layout_opened : ∀ (v : Value) (gap current : ℕ),
    (layout signed indent gap current v).opened = Value.opened v
  | .null, _, _ => rfl
  | .bool _, _, _ => rfl
  | .int _, _, _ => rfl
  | .float _, _, _ => rfl
  | .string _, _, _ => rfl
  | .array xs, _, current => congrArg Nat.succ (layoutItems_opened xs current)
  | .object [], _, _ => rfl
  | .object (e :: es), _, current => congrArg Nat.succ (layoutEntries_opened (e :: es) current)

theorem layoutItems_opened : ∀ (xs : List Value) (current : ℕ),
    (layoutItems signed indent current xs).opened = Value.openedItems xs
  | [], _ => rfl
  | [x], current => layout_opened x 1 (itemIndent indent current x)
  | _ :: y :: ys, current => layoutItems_opened (y :: ys) current

theorem layoutEntries_opened : ∀ (es : List (Bytes × Value)) (current : ℕ),
    (layoutEntries signed indent current es).opened = Value.openedEntries es
  | [], _ => rfl
  | [(_, x)], current => layout_opened x 0 (addIndent current indent)
  | _ :: e :: es, current => layoutEntries_opened (e :: es) current

end

theorem opened_scalar {v : Value} (h : Value.IsScalar v) : Value.opened v = 0 := by
  cases v with
  | array xs => exact h.elim
  | object es => exact h.elim
  | _ => rfl

theorem layout_isScalar {v : Value} (h : Value.IsScalar v) (gap current : ℕ) :
    (layout signed indent gap current v).isScalar = true := by
  cases v with
  | array xs => exact h.elim
  | object es => exact h.elim
  | _ => rfl

mutual

/-- **The layout of a value of that shape fits.** Kind: L -/
theorem layout_fits : ∀ (v : Value) (gap current : ℕ) (b : Behind), Value.NoNumber v →
    Value.Shape (decide (b = .nothing)) true v → (layout signed indent gap current v).Fits b
  | .null, _, _, _, _, _ => rfl
  | .bool true, _, _, _, _, _ => rfl
  | .bool false, _, _, _, _, _ => rfl
  | .int _, _, _, _, h, _ => h.elim
  | .float _, _, _, _, h, _ => h.elim
  | .string _, _, _, _, _, _ => rfl
  | .array xs, _, current, b, hn, h => layoutItems_fits xs current b h.1 hn h.2
  | .object [], _, _, b, _, h => by
      have hb : b = .nothing := of_decide_eq_true (h.1 rfl)
      exact hb
  | .object (e :: es), _, current, b, hn, h =>
      layoutEntries_fits (e :: es) current b true (List.cons_ne_nil _ _) hn h.2

/-- The layout of items fits what stands behind it. Kind: L -/
theorem layoutItems_fits : ∀ (xs : List Value) (current : ℕ) (b : Behind), xs ≠ [] →
    Value.NoNumberItems xs → Value.ShapeItems (decide (b = .nothing)) xs →
    (layoutItems signed indent current xs).Fits b
  | [], _, _, h, _, _ => absurd rfl h
  | [x], current, b, _, hn, h => layout_fits x 1 (itemIndent indent current x) b hn.1 h
  | x :: y :: ys, current, b, _, hn, h =>
      ⟨layout_fits x 1 (itemIndent indent current x) .lines hn.1 (shape_of_isScalar h.1 _ _),
        .inl (layout_isScalar h.1 _ _),
        layoutItems_fits (y :: ys) current b (List.cons_ne_nil _ _) hn.2 h.2⟩

/-- The layout of entries fits what stands behind it. Kind: L -/
theorem layoutEntries_fits : ∀ (es : List (Bytes × Value)) (current : ℕ) (b : Behind)
    (isNested : Bool), es ≠ [] → Value.NoNumberEntries es →
    Value.ShapeEntries (decide (b = .nothing)) isNested es →
    (layoutEntries signed indent current es).Fits b isNested
  | [], _, _, _, h, _, _ => absurd rfl h
  | [(_, x)], current, b, _, _, hn, h => layout_fits x 0 (addIndent current indent) b hn.1 h
  | (k, x) :: e :: es, current, b, isNested, _, hn, h => by
      refine ⟨layout_fits x 0 (addIndent current indent) .lines hn.1 h.2.1, ?_,
        layoutEntries_fits (e :: es) current b isNested (List.cons_ne_nil _ _) hn.2 h.2.2.2⟩
      cases isNested with
      | true => exact .inl (layout_isScalar (h.1 rfl) _ _)
      | false => exact .inr ⟨rfl, layout_left x _ _, (layout_opened x _ _).trans_le h.2.2.1⟩

end

/-! ## The layout is lexed -/

mutual

/-- **The scalars and keys are lexed as their tokens**, and the blocks are found. Kind: L -/
theorem layout_lexes : ∀ (v : Value) (gap current outer : ℕ) (b : Behind) {atEnd isNested : Bool},
    Value.NoNumber v → Value.Shape atEnd isNested v → Value.Texts signed b.next v →
    Value.Indents indent current v → (needsNewline v = true → level outer < level current) →
    (layout signed indent gap current v).Lexes signed b outer
  | .null, _, _, _, _, _, _, _, _, _, _, _ => scans_word (by decide) rfl
  | .bool true, _, _, _, _, _, _, _, _, _, _, _ => scans_word (by decide) rfl
  | .bool false, _, _, _, _, _, _, _, _, _, _, _ => scans_word (by decide) rfl
  | .int _, _, _, _, _, _, _, h, _, _, _, _ => h.elim
  | .float _, _, _, _, _, _, _, h, _, _, _, _ => h.elim
  | .string _, _, _, _, _, _, _, _, _, h, _, _ => ReadBack.scans h
  | .array [], _, _, _, _, _, _, _, h, _, _, _ => absurd rfl h.1
  | .array (x :: xs), _, current, _, b, _, _, hn, hshape, ht, hi, hlevel =>
      ⟨hlevel rfl, layoutItems_lexes (x :: xs) current b (List.cons_ne_nil _ _) hn hshape.2 ht hi⟩
  | .object [], _, _, _, _, _, _, _, _, _, _, _ => trivial
  | .object (e :: es), _, current, _, b, _, _, hn, hshape, ht, hi, hlevel =>
      ⟨hlevel rfl,
        layoutEntries_lexes (e :: es) current b (List.cons_ne_nil _ _) hn hshape.2 ht hi⟩

/-- The texts in the layout of items are read as their tokens. Kind: L -/
theorem layoutItems_lexes : ∀ (xs : List Value) (current : ℕ) (b : Behind) {atEnd : Bool},
    xs ≠ [] → Value.NoNumberItems xs → Value.ShapeItems atEnd xs →
    Value.TextsItems signed b.next xs → Value.IndentsItems indent current xs →
    (layoutItems signed indent current xs).Lexes signed b current
  | [], _, _, _, h, _, _, _, _ => absurd rfl h
  | [x], current, b, _, _, hn, hshape, ht, hi =>
      layout_lexes x 1 (itemIndent indent current x) current b hn.1 hshape ht hi.2.1 hi.1
  | x :: y :: ys, current, b, _, _, hn, hshape, ht, hi =>
      ⟨layout_lexes x 1 (itemIndent indent current x) current .lines hn.1
          (shapeItems_cons hshape).1 ht.1 hi.2.1 hi.1,
        ((layout_opened x _ _).trans (opened_scalar hshape.1)).trans_le (Nat.zero_le _),
        layoutItems_lexes (y :: ys) current b (List.cons_ne_nil _ _) hn.2
          (shapeItems_cons hshape).2 ht.2 hi.2.2⟩

/-- The texts in the layout of entries are read as their tokens. Kind: L -/
theorem layoutEntries_lexes : ∀ (es : List (Bytes × Value)) (current : ℕ) (b : Behind)
    {atEnd isNested : Bool}, es ≠ [] → Value.NoNumberEntries es →
    Value.ShapeEntries atEnd isNested es → Value.TextsEntries signed b.next es →
    Value.IndentsEntries indent current es →
    (layoutEntries signed indent current es).Lexes signed b current
  | [], _, _, _, _, h, _, _, _, _ => absurd rfl h
  | [(_, x)], current, b, _, _, _, hn, hshape, ht, hi =>
      ⟨ht.1.scans_key,
        layout_lexes x 0 (addIndent current indent) current b hn.1 hshape ht.2 hi.2.1 hi.1⟩
  | (_, x) :: e :: es, current, b, _, _, _, hn, hshape, ht, hi =>
      ⟨ht.1.scans_key,
        layout_lexes x 0 (addIndent current indent) current .lines hn.1
          (shapeEntries_cons hshape).1 ht.2.1 hi.2.1 hi.1,
        (layout_opened x _ _).trans_le hshape.2.2.1,
        layoutEntries_lexes (e :: es) current b (List.cons_ne_nil _ _) hn.2
          (shapeEntries_cons hshape).2 ht.2.2 hi.2.2⟩

end

/-! ## The layout is stored -/

theorem layoutEntries_names : ∀ (es : List (Bytes × Value)) (current : ℕ), es ≠ [] →
    (layoutEntries signed indent current es).names = es.map Prod.fst
  | [], _, h => absurd rfl h
  | [_], _, _ => rfl
  | (k, _) :: e :: es, current, _ =>
      congrArg (List.cons k) (layoutEntries_names (e :: es) current (List.cons_ne_nil _ _))

theorem layout_storedAt {k : Bytes} {x : Value} (h : k = text "<<" → Value.IsScalar x)
    (gap current : ℕ) {t : Bytes} :
    (layout signed indent gap current x).StoredAt ⟨t, k⟩ :=
  fun hk => layout_isScalar (h hk) gap current

mutual

/-- In the layout of a stored value every object has distinct keys. Kind: L -/
theorem layout_keyed : ∀ (v : Value) (gap current : ℕ), v.Wf → Value.Stored v →
    (layout signed indent gap current v).Keyed
  | .null, _, _, _, _ => trivial
  | .bool _, _, _, _, _ => trivial
  | .int _, _, _, _, _ => trivial
  | .float _, _, _, _, _ => trivial
  | .string _, _, _, _, _ => trivial
  | .array xs, _, current, hwf, h => layoutItems_keyed xs current hwf h
  | .object [], _, _, _, _ => trivial
  | .object (e :: es), _, current, hwf, h => by
      refine ⟨?_, layoutEntries_keyed (e :: es) current hwf.2 h⟩
      rw [layoutEntries_names _ _ (List.cons_ne_nil _ _)]
      exact hwf.1.1

theorem layoutItems_keyed : ∀ (xs : List Value) (current : ℕ), Value.WfItems xs →
    Value.StoredItems xs → (layoutItems signed indent current xs).Keyed
  | [], _, _, _ => trivial
  | [x], current, hwf, h => layout_keyed x 1 (itemIndent indent current x) hwf.1 h.1
  | x :: y :: ys, current, hwf, h =>
      ⟨layout_keyed x 1 (itemIndent indent current x) hwf.1 h.1,
        layoutItems_keyed (y :: ys) current hwf.2 h.2⟩

theorem layoutEntries_keyed : ∀ (es : List (Bytes × Value)) (current : ℕ), Value.WfEntries es →
    Value.StoredEntries es → (layoutEntries signed indent current es).Keyed
  | [], _, _, _ => ⟨fun h => absurd h (by decide), trivial⟩
  | [(_, x)], current, hwf, h =>
      ⟨layout_storedAt h.1 _ _, layout_keyed x 0 (addIndent current indent) hwf.1 h.2.1⟩
  | (_, x) :: e :: es, current, hwf, h =>
      ⟨layout_storedAt h.1 _ _, layout_keyed x 0 (addIndent current indent) hwf.1 h.2.1,
        layoutEntries_keyed (e :: es) current hwf.2 h.2.2⟩

end

/-! ## The round trip -/

/-- The layout as a document is what is written. Kind: L -/
theorem layout_document {p : Json.Printers} {v : Value} (hn : Value.NoNumber v)
    (hshape : Value.Shape true false v) :
    (layout p.signed indent 0 0 v).document none = serializeValue p indent 0 v := by
  cases v with
  | null => rfl
  | bool b => cases b <;> rfl
  | int i => exact hn.elim
  | float f => exact hn.elim
  | string s => simp [layout, scalarNode, Node.document, serializeValue, serializeAtom]
  | array xs =>
      cases xs with
      | nil => exact absurd rfl hshape.1
      | cons x xs =>
          simp only [layout, Node.document, serializeValue, Option.elim_none, List.append_nil]
          exact layoutItems_render p _ 0 (List.cons_ne_nil _ _) hn hshape.2
  | object es =>
      cases es with
      | nil => rfl
      | cons e es =>
          simp only [layout, Node.document, serializeValue, Option.elim_none, List.append_nil]
          exact layoutEntries_render p _ 0 (List.cons_ne_nil _ _) hn hshape.2

/-- The layout fits as a document. Kind: L -/
theorem layout_fitsDocument {v : Value} (hn : Value.NoNumber v) (hshape : Value.Shape true false v)
    (hne : v ≠ .object []) : (layout signed indent 0 0 v).FitsDocument .nothing := by
  cases v with
  | null => rfl
  | bool b => cases b <;> rfl
  | int i => exact hn.elim
  | float f => exact hn.elim
  | string s => rfl
  | array xs =>
      exact ⟨layoutItems_fits xs 0 .nothing hshape.1 hn hshape.2, fun h => absurd rfl h⟩
  | object es =>
      cases es with
      | nil => exact absurd rfl hne
      | cons e es =>
          exact ⟨layoutEntries_fits _ 0 .nothing false (List.cons_ne_nil _ _) hn hshape.2,
            fun h => absurd rfl h⟩

/-- The texts in the layout of a document are read as their tokens. Kind: L -/
theorem layout_lexesDocument {v : Value} (hn : Value.NoNumber v)
    (hshape : Value.Shape true false v) (hne : v ≠ .object [])
    (ht : Value.Texts signed none v) (hi : Value.Indents indent 0 v) :
    (layout signed indent 0 0 v).LexesDocument signed .nothing := by
  cases v with
  | null => exact scans_word (by decide) rfl
  | bool b => cases b <;> exact scans_word (by decide) rfl
  | int i => exact hn.elim
  | float f => exact hn.elim
  | string s => exact ReadBack.scans ht
  | array xs => exact layoutItems_lexes xs 0 .nothing hshape.1 hn hshape.2 ht hi
  | object es =>
      cases es with
      | nil => exact absurd rfl hne
      | cons e es =>
          exact layoutEntries_lexes _ 0 .nothing (List.cons_ne_nil _ _) hn hshape.2 ht hi

end

/-- A value that is read back: its strings and keys are, its blocks are closed where they end, and
their indentation is measured. -/
structure Value.Faithful (signed : Bool) (indent : UInt32) (v : Value) : Prop where
  texts : Value.Texts signed none v
  shape : Value.Shape true false v
  notEmpty : v ≠ .object []
  indents : Value.Indents indent.toNat 0 v
  stored : Value.Stored v

/-- **The round trip.** A faithful value is read back from its text. Kind: P -/
theorem parse_serialize (p : Json.Printers) {indent : UInt32} {v : Value} (hwf : v.Wf)
    (hn : Value.NoNumber v) (h : Value.Faithful p.signed indent v) :
    ∃ n, ∀ fuel, n ≤ fuel → parse p.signed fuel (serialize p indent v) = .done v := by
  have hfits := @layout_fitsDocument p.signed indent.toNat v hn h.shape h.notEmpty
  have hlexes := layout_lexesDocument hn h.shape h.notEmpty h.texts h.indents
  have hkeyed := @layout_keyed p.signed indent.toNat v 0 0 hwf h.stored
  have hyields := yields_document none hlexes
  rw [layout_document hn h.shape] at hyields
  refine ⟨(layout p.signed indent.toNat 0 0 v).cost + 4, fun fuel hfuel => ?_⟩
  rw [serialize, parse_docToks (by decide) hfits hkeyed hyields hfuel,
    layout_value v 0 0 hn h.shape]

/-- An object with an array, a string that is quoted, and a nested object that ends in an empty
one. -/
def sampleValue : Value :=
  .object [(text "list", .array [.string (text "x:y"), .bool true]),
    (text "true", .string (text "say \"hi\"\n")),
    (text "nested", .object [(text "k", .null), (text "e", .object [])])]

theorem sampleValue_faithful : Value.Faithful true 2 sampleValue := by
  refine ⟨?_, ?_, nofun, ?_, ?_⟩
  · simp only [sampleValue, Value.Texts, Value.TextsItems, Value.TextsEntries]
    decide
  · simp only [sampleValue, Value.Shape, Value.ShapeItems, Value.ShapeEntries,
      Value.IsScalar, Value.opened,
      Value.openedItems, maxClosed]
    simp
  · simp only [sampleValue, Value.Indents, Value.IndentsItems, Value.IndentsEntries, itemIndent]
    decide
  · simp only [sampleValue, Value.Stored, Value.StoredItems, Value.StoredEntries, Value.IsScalar]
    decide

theorem parse_serialize_sample : ∃ n, ∀ fuel, n ≤ fuel →
    parse true fuel (serialize ⟨true, fun _ => []⟩ 2 sampleValue) = .done sampleValue :=
  parse_serialize ⟨true, fun _ => []⟩ (v := sampleValue)
    (by
      simp only [sampleValue, Value.Wf, Value.WfEntries, Value.WfItems]
      decide)
    (by
      simp only [sampleValue, Value.NoNumber, Value.NoNumberItems, Value.NoNumberEntries]
      decide)
    sampleValue_faithful

/-! ## Values that are not read back -/

/-- No value that is equal to `v` is read from its text. -/
def Unread (v : Value) : Prop :=
  v.Wf ∧ Value.NoNumber v ∧ ∀ v', v.Same v' →
    ¬ ∃ n, ∀ fuel, n ≤ fuel → parse true fuel (serialize ⟨true, fun _ => []⟩ 2 v) = .done v'

def Outcome.isFloat : Outcome Value → Bool
  | .done (.float _) => true
  | _ => false

/-- **Values that do not come back**: a string that looks like a number is read as one; a string
with a blank, two objects in an array, an empty array and an empty object are not read at all.
Kind: P -/
theorem parse_unserialized :
    Unread (.string (text "42")) ∧ Unread (.string (text "a b")) ∧
    Unread (.array [.object [(text "a", .null)], .object [(text "b", .null)]]) ∧
    Unread (.array []) ∧ Unread (.object []) := by
  refine ⟨⟨trivial, trivial, fun v' hv => ?_⟩, ⟨trivial, trivial, fun v' _ => ?_⟩,
    ⟨?_, ?_, fun v' _ => ?_⟩, ⟨trivial, trivial, fun v' _ => ?_⟩,
    ⟨⟨⟨List.nodup_nil, by decide⟩, trivial⟩, trivial, fun v' _ => ?_⟩⟩
  · have hfloat : (parse true 20 (serialize ⟨true, fun _ => []⟩ 2 (.string (text "42")))).isFloat =
        true := by decide
    cases hv
    refine parse_other (n := 20) ?_ ?_ <;>
    · intro he
      rw [he] at hfloat
      cases hfloat
  · exact parse_raised (n := 20) (by decide +kernel) v'
  · simp only [Value.Wf, Value.WfItems, Value.WfEntries]
    decide
  · simp only [Value.NoNumber, Value.NoNumberItems, Value.NoNumberEntries]
    decide
  · exact parse_raised (n := 40) (by decide +kernel) v'
  · exact parse_raised (n := 20) (by decide +kernel) v'
  · exact parse_raised (n := 20) (by decide +kernel) v'

end CxyCompiler.Stdlib.Yaml
