import CxyCompiler.Stdlib.YamlBlocks
import CxyCompiler.Stdlib.YamlFuel
import CxyCompiler.Stdlib.YamlScalars

/-!
# Block structure of YAML texts

* `Node.IsBlock`: trees of mappings, sequences and single words in block style, with strictly
  increasing indentation.
* `Node.Clear`: keys are strings that merge nothing, and indentation is measured as far as it
  counts.
* **`parse_rendered`**: a rendering that is clear and fits is parsed as the tree.
* `parse_misplaced`: entries behind an empty value or a nested block, and items, get another parent.
-/

namespace CxyCompiler.Stdlib.Yaml

variable {signed : Bool}

/-! ## Renderings in block style -/

mutual

/-- A rendering in block style in a block that is indented by `outer`: scalars and keys are words,
the keys of a mapping are distinct, and indentation increases. -/
def Node.IsBlock (outer : ℕ) : Node → Prop
  | .scalar _ t token => isWord t = true ∧ token = plainToken t
  | .emptyObject _ => False
  | .absent _ => True
  | .mapping _ n es => outer < n ∧ es.names.Nodup ∧ es.IsBlock n
  | .sequence _ n is => outer < n ∧ is.IsBlock n

def Entries.IsBlock (n : ℕ) : Entries → Prop
  | .last _ key v => (isWord key.text = true ∧ key.name = key.text) ∧ v.IsBlock n
  | .cons _ key v es =>
      (isWord key.text = true ∧ key.name = key.text) ∧ v.IsBlock n ∧ es.IsBlock n

def Items.IsBlock (n : ℕ) : Items → Prop
  | .last _ item => item.IsBlock n
  | .cons _ item is => item.IsBlock n ∧ is.IsBlock n

/-- What stands behind a dash is indented more than the first key there. -/
def Item.IsBlock (n : ℕ) : Item → Prop
  | .plain v => v.IsBlock n
  | .single gap key v =>
      (isWord key.text = true ∧ key.name = key.text) ∧ v.IsBlock (n + gap + 2)
  | .compact gap key v es =>
      (isWord key.text = true ∧ key.name = key.text) ∧ v.IsBlock (n + gap + 2) ∧
        (key.name :: es.names).Nodup ∧ es.IsBlock (n + gap + 2)

end

/-- A rendering of a tree as a document. -/
def Node.IsDocument : Node → Prop
  | .scalar _ t token => isWord t = true ∧ token = plainToken t
  | .mapping _ n es => es.names.Nodup ∧ es.IsBlock n
  | .sequence _ n is => is.IsBlock n
  | _ => False

/-- A key is read as a string, and does not merge its value into the object. -/
def Node.ClearAt (key : Key) (v : Node) : Prop :=
  plainToken key.text = .string key.text ∧ v.StoredAt key

mutual

/-- Keys are read as strings that merge nothing, and the indentation around each block is within
what is measured. -/
def Node.Clear (outer : ℕ) : Node → Prop
  | .mapping _ n es => outer < maxIndent ∧ es.Clear n
  | .sequence _ n is => outer < maxIndent ∧ is.Clear n
  | _ => True

def Entries.Clear (n : ℕ) : Entries → Prop
  | .last _ key v => v.ClearAt key ∧ v.Clear n
  | .cons _ key v es => v.ClearAt key ∧ v.Clear n ∧ es.Clear n

def Items.Clear (n : ℕ) : Items → Prop
  | .last _ item => item.Clear n
  | .cons _ item is => item.Clear n ∧ is.Clear n

def Item.Clear (n : ℕ) : Item → Prop
  | .plain v => v.Clear n
  | .single _ key v => v.ClearAt key ∧ v.Clear n
  | .compact gap key v es =>
      v.ClearAt key ∧ v.Clear n ∧ n < maxIndent ∧ es.Clear (n + gap + 2)

end

def Node.ClearDocument : Node → Prop
  | .mapping _ n es => es.Clear n
  | .sequence _ n is => is.Clear n
  | _ => True

/-! ## Such renderings are lexed and stored as they are meant -/

theorem level_lt {m n : ℕ} (h : m < n) (hm : m < maxIndent) : level m < level n := by
  unfold level
  omega

theorem scans_word_key {key : Key} {v : Node} (hword : isWord key.text = true)
    (hname : key.name = key.text) (h : v.ClearAt key) : key.Scans signed := by
  obtain ⟨t, name⟩ := key
  simp only at hname
  subst hname
  exact scans_plain_key (isPlain_word (by decide) hword) h.1

mutual

theorem Node.lexes_of_block : ∀ (v : Node) (b : Behind) (m outer : ℕ), m ≤ outer →
    v.IsBlock outer → v.Clear m → v.Fits b → v.Lexes signed b m
  | .scalar _ t token, b, m, outer, _, h, _, _ => by
      rw [Node.Lexes, h.2]
      exact scans_plain (isPlain_word b.next_ne h.1)
  | .emptyObject _, _, _, _, _, _, _, _ => trivial
  | .absent _, _, _, _, _, _, _, h => h
  | .mapping _ n es, b, m, outer, hm, h, hclear, hfits =>
      ⟨level_lt (lt_of_le_of_lt hm h.1) hclear.1,
        es.lexes_of_block b n true h.2.2 hclear.2 hfits⟩
  | .sequence _ n is, b, m, outer, hm, h, hclear, hfits =>
      ⟨level_lt (lt_of_le_of_lt hm h.1) hclear.1, is.lexes_of_block b n h.2 hclear.2 hfits⟩

theorem Entries.lexes_of_block : ∀ (es : Entries) (b : Behind) (n : ℕ) (isNested : Bool),
    es.IsBlock n → es.Clear n → es.Fits b isNested → es.Lexes signed b n
  | .last _ _ v, b, n, _, h, hclear, hfits =>
      ⟨scans_word_key h.1.1 h.1.2 hclear.1, v.lexes_of_block b n n le_rfl h.2 hclear.2 hfits⟩
  | .cons _ _ v es, b, n, isNested, h, hclear, hfits =>
      ⟨scans_word_key h.1.1 h.1.2 hclear.1,
        v.lexes_of_block .lines n n le_rfl h.2.1 hclear.2.1 hfits.1, hfits.2.1.opened_le,
        es.lexes_of_block b n isNested h.2.2 hclear.2.2 hfits.2.2⟩

theorem Items.lexes_of_block : ∀ (is : Items) (b : Behind) (n : ℕ), is.IsBlock n → is.Clear n →
    is.Fits b → is.Lexes signed b n
  | .last _ item, b, n, h, hclear, hfits => item.lexes_of_block b n h hclear hfits
  | .cons _ item is, b, n, h, hclear, hfits =>
      ⟨item.lexes_of_block .lines n h.1 hclear.1 hfits.1, hfits.2.1.opened_le,
        is.lexes_of_block b n h.2 hclear.2 hfits.2.2⟩

theorem Item.lexes_of_block : ∀ (item : Item) (b : Behind) (n : ℕ), item.IsBlock n →
    item.Clear n → item.Fits b → item.Lexes signed b n
  | .plain v, b, n, h, hclear, hfits => v.lexes_of_block b n n le_rfl h hclear hfits
  | .single gap key v, b, n, h, hclear, hfits =>
      ⟨scans_word_key h.1.1 h.1.2 hclear.1,
        v.lexes_of_block b n (n + gap + 2) (by omega) h.2 hclear.2 hfits.1⟩
  | .compact gap key v es, b, n, h, hclear, hfits => by
      refine ⟨scans_word_key h.1.1 h.1.2 hclear.1, hfits.1, ?_,
        level_lt (by omega) hclear.2.2.1,
        es.lexes_of_block b (n + gap + 2) false h.2.2.2 hclear.2.2.2 hfits.2.2⟩
      obtain ⟨g, t, token, rfl⟩ := isScalar_iff hfits.1
      obtain ⟨hword, rfl⟩ := h.2.1
      exact scans_plain (isPlain_word (Behind.next_ne _) hword)

end

mutual

theorem Node.keyed_of_block : ∀ (v : Node) (m outer : ℕ), v.IsBlock outer → v.Clear m → v.Keyed
  | .scalar .., _, _, _, _ => trivial
  | .emptyObject _, _, _, _, _ => trivial
  | .absent _, _, _, _, _ => trivial
  | .mapping _ n es, _, _, h, hclear => ⟨h.2.1, es.keyed_of_block n h.2.2 hclear.2⟩
  | .sequence _ n is, _, _, h, hclear => is.keyed_of_block n h.2 hclear.2

theorem Entries.keyed_of_block : ∀ (es : Entries) (n : ℕ), es.IsBlock n → es.Clear n → es.Keyed
  | .last _ _ v, n, h, hclear => ⟨hclear.1.2, v.keyed_of_block n n h.2 hclear.2⟩
  | .cons _ _ v es, n, h, hclear =>
      ⟨hclear.1.2, v.keyed_of_block n n h.2.1 hclear.2.1, es.keyed_of_block n h.2.2 hclear.2.2⟩

theorem Items.keyed_of_block : ∀ (is : Items) (n : ℕ), is.IsBlock n → is.Clear n → is.Keyed
  | .last _ item, n, h, hclear => item.keyed_of_block n h hclear
  | .cons _ item is, n, h, hclear =>
      ⟨item.keyed_of_block n h.1 hclear.1, is.keyed_of_block n h.2 hclear.2⟩

theorem Item.keyed_of_block : ∀ (item : Item) (n : ℕ), item.IsBlock n → item.Clear n → item.Keyed
  | .plain v, n, h, hclear => v.keyed_of_block n n h hclear
  | .single gap _ v, n, h, hclear => ⟨hclear.1.2, v.keyed_of_block n (n + gap + 2) h.2 hclear.2⟩
  | .compact gap _ v es, n, h, hclear =>
      ⟨hclear.1.2, v.keyed_of_block n (n + gap + 2) h.2.1 hclear.2.1, h.2.2.1,
        es.keyed_of_block (n + gap + 2) h.2.2.2 hclear.2.2.2⟩

end

/-- **Block structure.** A rendering of a tree that is clear, and on which the parser takes each
`Dedent` for the block it closes, is parsed as the tree. Kind: P -/
theorem parse_rendered (signed : Bool) (tail : Option (List Filler)) {v : Node}
    (hblock : v.IsDocument) (hclear : v.ClearDocument) (hfits : v.FitsDocument (behindOf tail)) :
    ∃ n, ∀ fuel, n ≤ fuel → parse signed fuel (v.document tail) = .done v.value := by
  have hlexes : v.LexesDocument signed (behindOf tail) := by
    cases v with
    | scalar gap t token =>
        obtain ⟨hword, rfl⟩ := hblock
        exact scans_plain (isPlain_word (Behind.next_ne _) hword)
    | emptyObject gap => exact hblock
    | absent gap => exact hblock
    | mapping gap n es => exact es.lexes_of_block _ n _ hblock.2 hclear hfits.1
    | sequence gap n is => exact is.lexes_of_block _ n hblock hclear hfits.1
  have hkeyed : v.Keyed := by
    cases v with
    | mapping gap n es => exact ⟨hblock.1, es.keyed_of_block n hblock.2 hclear⟩
    | sequence gap n is => exact is.keyed_of_block n hblock hclear
    | _ => trivial
  have hb : behindOf tail ≠ .lines := by
    unfold behindOf
    split <;> exact nofun
  exact ⟨v.cost + 4, fun fuel hfuel =>
    parse_docToks hb hfits hkeyed (yields_document tail hlexes) hfuel⟩

def wordKey (s : String) : Key := ⟨text s, text s⟩

def wordNode (s : String) : Node := .scalar 0 (text s) (plainToken (text s))

/-- A comment and a blank line. -/
def sampleFill : List Filler :=
  [⟨text " ", some (text " note"), forall_mem_text (by decide), fun t ht => by cases ht; decide⟩,
    ⟨[], none, nofun, nofun⟩]

/-- A mapping with a nested mapping, and a sequence with an item of two keys at the end. -/
def sampleNode : Node :=
  .mapping 0 0 (.cons [] (wordKey "a")
    (.mapping 0 2 (.cons [] (wordKey "b") (wordNode "1") (.last sampleFill (wordKey "c")
      (.sequence 1 3 (.last [] (.plain (wordNode "x")))))))
    (.last [] (wordKey "d") (.sequence 0 1 (.cons [] (.single 0 (wordKey "e") (wordNode "true"))
      (.last [] (.compact 1 (wordKey "f") (wordNode "y")
        (.last [] (wordKey "g") (wordNode "z"))))))))

theorem sampleNode_isDocument : sampleNode.IsDocument := by
  simp only [sampleNode, Node.IsDocument, Entries.IsBlock, Node.IsBlock, Items.IsBlock,
    Item.IsBlock, wordNode, wordKey, Entries.names]
  decide

theorem sampleNode_clear : sampleNode.ClearDocument := by
  simp only [sampleNode, Node.ClearDocument, Entries.Clear, Node.Clear, Items.Clear, Item.Clear,
    wordNode, wordKey, Node.ClearAt, Node.StoredAt, Node.isScalar]
  decide

theorem sampleNode_fits : sampleNode.FitsDocument (behindOf none) := by
  simp only [sampleNode, Node.FitsDocument, Entries.Fits, Node.Fits, Items.Fits, Item.Fits,
    wordNode, wordKey, Node.Between, Node.left, Item.left, Items.left, Entries.left, Item.Between,
    Entries.lastIsScalar, Node.isScalar, Node.opened, Entries.opened, Items.opened, Item.opened]
  decide

theorem parse_rendered_sample :
    ∃ n, ∀ fuel, n ≤ fuel → parse true fuel (sampleNode.document none) = .done sampleNode.value :=
  parse_rendered true none sampleNode_isDocument sampleNode_clear sampleNode_fits

/-! ## Misplaced entries -/

/-- How many items or entries a value has, and its depth. -/
def Outcome.shape : Outcome Value → Option (Option (ℕ × ℕ))
  | .done v =>
      let width := match v with
        | .array xs => xs.length
        | .object es => es.length
        | _ => 0
      some (some (width, v.depth))
  | .outOfFuel => none
  | _ => some none

/-- The parser does not read the layout as the tree it stands for. -/
def Node.Misread (v : Node) : Prop :=
  ¬ ∃ n, ∀ fuel, n ≤ fuel → parse true fuel (v.document none) = .done v.value

theorem misread_of_shape {v : Node} (n : ℕ) (h : (parse true n (v.document none)).shape ≠ none)
    (hv : (parse true n (v.document none)).shape ≠ (Outcome.done v.value).shape) : v.Misread :=
  parse_other (fun he => h (by rw [he]; rfl)) (fun he => hv (by rw [he]))

/-- The value of `a` is left empty in front of `b`. -/
def emptyNode : Node :=
  .mapping 0 0 (.cons [] (wordKey "a") (.absent 0) (.last [] (wordKey "b") (wordNode "c")))

/-- A mapping with an entry behind a nested one. -/
def nestedNode : Node :=
  .mapping 0 0 (.last [] (wordKey "a") (.mapping 0 2
    (.cons [] (wordKey "b") (.mapping 0 4 (.last [] (wordKey "c") (wordNode "d")))
      (.last [] (wordKey "e") (wordNode "f")))))

/-- A sequence with an item behind three blocks that end at once. -/
def itemNode : Node :=
  .sequence 0 0 (.cons [] (.plain (.sequence 0 2 (.last [] (.single 0 (wordKey "a")
      (.sequence 0 6 (.last [] (.single 0 (wordKey "b") (wordNode "c"))))))))
    (.last [] (.plain (wordNode "d"))))

example : emptyNode.document none = text "a:\nb: c" ∧
    nestedNode.document none = text "a:\n  b:\n    c: d\n  e: f" ∧
    itemNode.document none = text "-\n  - a:\n      - b: c\n- d" := by
  decide

/-- **Entries get another parent**: `b` is an entry of what is read for `a`, the text with `e` is
not read at all, and `d` is an item of the inner sequence. Kind: P -/
theorem parse_misplaced :
    (emptyNode.IsDocument ∧ emptyNode.ClearDocument ∧ emptyNode.Misread) ∧
    (nestedNode.IsDocument ∧ nestedNode.ClearDocument ∧ nestedNode.Misread) ∧
    (itemNode.IsDocument ∧ itemNode.ClearDocument ∧ itemNode.Misread) := by
  refine ⟨⟨?_, ?_, ?_⟩, ⟨?_, ?_, ?_⟩, ⟨?_, ?_, ?_⟩⟩
  · simp only [emptyNode, Node.IsDocument, Entries.IsBlock, Node.IsBlock, wordNode, wordKey,
      Entries.names]
    decide
  · simp only [emptyNode, Node.ClearDocument, Entries.Clear, Node.Clear, wordNode, wordKey,
      Node.ClearAt, Node.StoredAt, Node.isScalar]
    decide
  · exact misread_of_shape 60 (by decide +kernel) (by decide +kernel)
  · simp only [nestedNode, Node.IsDocument, Entries.IsBlock, Node.IsBlock, wordNode, wordKey,
      Entries.names]
    decide
  · simp only [nestedNode, Node.ClearDocument, Entries.Clear, Node.Clear, wordNode, wordKey,
      Node.ClearAt, Node.StoredAt, Node.isScalar]
    decide
  · exact misread_of_shape 60 (by decide +kernel) (by decide +kernel)
  · simp only [itemNode, Node.IsDocument, Node.IsBlock, Items.IsBlock, Item.IsBlock, wordNode,
      wordKey]
    decide +kernel
  · simp only [itemNode, Node.ClearDocument, Node.Clear, Items.Clear, Item.Clear, wordNode,
      wordKey, Node.ClearAt, Node.StoredAt, Node.isScalar]
    decide
  · exact misread_of_shape 60 (by decide +kernel) (by decide +kernel)

end CxyCompiler.Stdlib.Yaml
