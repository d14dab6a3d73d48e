import CxyCompiler.Stdlib.YamlParser

/-!
# Block layouts

A layout is a tree of mappings, sequences and scalars together with how it is written in block
style: the indentation of each block, the blanks behind each indicator, and the lines that are blank
or comments. Mappings and sequences are not empty.

* `Node`, `Entries`, `Items`, `Item`: the layouts.
* `Node.render`, `Node.value`: the text of a layout, and the value it stands for.
* `Node.Fits`: where the parser takes each `Dedent` for the block it closes.
* `Node.toks`: the tokens of a layout in front of a list of tokens.
-/

namespace CxyCompiler.Stdlib.Yaml

/-! ## Layouts -/

/-- A line that is blank or a comment. -/
structure Filler where
  blanks : Bytes
  comment : Option Bytes
  isBlank : ∀ c ∈ blanks, isBlank c = true
  oneLine : ∀ t ∈ comment, ch '\n' ∉ t

def Filler.render (f : Filler) : Bytes :=
  f.blanks ++ (f.comment.elim [] fun t => ch '#' :: t) ++ text "\n"

def renderFill (fs : List Filler) : Bytes := fs.flatMap Filler.render

/-- A key as it is written, and its name. -/
structure Key where
  text : Bytes
  name : Bytes

mutual

/-- What stands behind a colon or a dash, after `gap` blanks; one blank more in front of a scalar.
A block stands on the lines behind. -/
inductive Node
  | scalar (gap : ℕ) (text : Bytes) (token : Token)
  | emptyObject (gap : ℕ)
  | absent (gap : ℕ)
  | mapping (gap level : ℕ) (entries : Entries)
  | sequence (gap level : ℕ) (items : Items)

/-- The entries of a mapping, each on lines of its own. -/
inductive Entries
  | last (fill : List Filler) (key : Key) (v : Node)
  | cons (fill : List Filler) (key : Key) (v : Node) (entries : Entries)

/-- The items of a sequence. -/
inductive Items
  | last (fill : List Filler) (item : Item)
  | cons (fill : List Filler) (item : Item) (items : Items)

/-- What stands behind a dash: a value, or a mapping whose first key stands on the same line; the
keys behind the first are aligned with it. -/
inductive Item
  | plain (v : Node)
  | single (gap : ℕ) (key : Key) (v : Node)
  | compact (gap : ℕ) (key : Key) (v : Node) (entries : Entries)

end

/-! ## Texts -/

mutual

def Node.render : Node → Bytes
  | .scalar gap t _ => writeIndent (gap + 1) ++ t
  | .emptyObject gap => writeIndent (gap + 1) ++ text "\x7b\x7d"
  | .absent gap => writeIndent gap
  | .mapping gap level es => writeIndent gap ++ text "\n" ++ es.render level
  | .sequence gap level is => writeIndent gap ++ text "\n" ++ is.render level

def Entries.render (level : ℕ) : Entries → Bytes
  | .last fill key v => renderFill fill ++ writeIndent level ++ key.text ++ text ":" ++ v.render
  | .cons fill key v es =>
      renderFill fill ++ writeIndent level ++ key.text ++ text ":" ++ v.render ++ text "\n" ++
        es.render level

def Items.render (level : ℕ) : Items → Bytes
  | .last fill item => renderFill fill ++ writeIndent level ++ text "-" ++ item.render level
  | .cons fill item is =>
      renderFill fill ++ writeIndent level ++ text "-" ++ item.render level ++ text "\n" ++
        is.render level

def Item.render (level : ℕ) : Item → Bytes
  | .plain v => v.render
  | .single gap key v => writeIndent (gap + 1) ++ key.text ++ text ":" ++ v.render
  | .compact gap key v es =>
      writeIndent (gap + 1) ++ key.text ++ text ":" ++ v.render ++ text "\n" ++
        es.render (level + gap + 2)

end

/-- The text of a document: a scalar, or a block without the line end in front of it, and what
stands behind it. -/
def Node.document (v : Node) (tail : Option (List Filler)) : Bytes :=
  (match v with
    | .scalar _ t _ => t
    | .emptyObject _ => text "\x7b\x7d"
    | .absent _ => []
    | .mapping _ level es => es.render level
    | .sequence _ level is => is.render level) ++
  tail.elim [] fun fill => text "\n" ++ renderFill fill

/-! ## Values -/

mutual

/-- The value that a layout stands for: what is left empty is null. -/
def Node.value : Node → Value
  | .scalar _ _ token => token.value.getD .null
  | .emptyObject _ => .object []
  | .absent _ => .null
  | .mapping _ _ es => .object es.value
  | .sequence _ _ is => .array is.value

def Entries.value : Entries → List (Bytes × Value)
  | .last _ key v => [(key.name, v.value)]
  | .cons _ key v es => (key.name, v.value) :: es.value

def Items.value : Items → List Value
  | .last _ item => [item.value]
  | .cons _ item is => item.value :: is.value

def Item.value : Item → Value
  | .plain v => v.value
  | .single _ key v => .object [(key.name, v.value)]
  | .compact _ key v es => .object ((key.name, v.value) :: es.value)

end

/-! ## Where the parser keeps in step -/

/-- What stands behind a value: further lines, a line end and no more tokens, or nothing. -/
inductive Behind
  | lines
  | lineEnd
  | nothing
  deriving DecidableEq

def Node.isScalar : Node → Bool
  | .scalar .. => true
  | _ => false

def Entries.lastIsScalar : Entries → Bool
  | .last _ _ v => v.isScalar
  | .cons _ _ _ es => es.lastIsScalar

mutual

/-- How many of its `Dedent` tokens the parser leaves behind a block, less those that it takes of
the blocks around it. -/
def Node.left (b : Behind) : Node → ℤ
  | .scalar .. => if b = .nothing then 0 else 1
  | .mapping _ _ es => es.left b
  | .sequence _ _ is => is.left b
  | _ => 1

def Entries.left (b : Behind) : Entries → ℤ
  | .last _ _ v => v.left b
  | .cons _ _ _ es => es.left b

def Items.left (b : Behind) : Items → ℤ
  | .last _ item => item.left b
  | .cons _ _ is => is.left b

def Item.left (b : Behind) : Item → ℤ
  | .plain v => v.left b
  | .single _ _ v => v.left b - 1
  | .compact _ _ _ es => if es.lastIsScalar then 0 else es.left b

end

mutual

/-- How many blocks are open at the end of a value. -/
def Node.opened : Node → ℕ
  | .mapping _ _ es => es.opened + 1
  | .sequence _ _ is => is.opened + 1
  | _ => 0

def Entries.opened : Entries → ℕ
  | .last _ _ v => v.opened
  | .cons _ _ _ es => es.opened

def Items.opened : Items → ℕ
  | .last _ item => item.opened
  | .cons _ _ is => is.opened

def Item.opened : Item → ℕ
  | .plain v => v.opened
  | .single _ _ v => v.opened
  | .compact _ _ _ es => es.opened + 1

end

/-- A value with further entries behind it: the loop of an object that is entered with `isNested`
ends behind a block. -/
def Node.Between (isNested : Bool) (v : Node) : Prop :=
  v.isScalar = true ∨ isNested = false ∧ v.left .lines = 1 ∧ v.opened ≤ maxClosed

/-- An item with further items behind it. -/
def Item.Between : Item → Prop
  | .plain v => v.isScalar = true ∨ v.left .lines = 0 ∧ v.opened ≤ maxClosed
  | item => item.left .lines = 0 ∧ item.opened ≤ maxClosed

mutual

/-- **The layout is read as it is meant**, with `b` behind it. -/
def Node.Fits (b : Behind) : Node → Prop
  | .scalar _ _ token => token.value.isSome = true
  | .emptyObject _ => b = .nothing
  | .absent _ => False
  | .mapping _ _ es => es.Fits b true
  | .sequence _ _ is => is.Fits b

def Entries.Fits (b : Behind) (isNested : Bool) : Entries → Prop
  | .last _ _ v => v.Fits b
  | .cons _ _ v es => v.Fits .lines ∧ v.Between isNested ∧ es.Fits b isNested

def Items.Fits (b : Behind) : Items → Prop
  | .last _ item => item.Fits b
  | .cons _ item is => item.Fits .lines ∧ item.Between ∧ is.Fits b

def Item.Fits (b : Behind) : Item → Prop
  | .plain v => v.Fits b
  | .single _ _ v => v.Fits b ∧ (b = .lines → v.left .lines = 1)
  | .compact _ _ v es => v.isScalar = true ∧ v.Fits .lines ∧ es.Fits b false

end

/-- The layout of a document: a block that is indented has a `Dedent` behind it, which has to be
taken as well. -/
def Node.FitsDocument (b : Behind) : Node → Prop
  | .scalar _ _ token => token.value.isSome = true
  | .mapping _ level es => es.Fits b (level ≠ 0) ∧ (level ≠ 0 → es.left b ≤ 0)
  | .sequence _ level is => is.Fits b ∧ (level ≠ 0 → is.left b ≤ 0)
  | _ => False

/-! ## Keys -/

def Entries.names : Entries → List Bytes
  | .last _ key _ => [key.name]
  | .cons _ key _ es => key.name :: es.names

/-- The key is not one that merges its value into the object. -/
def Node.StoredAt (key : Key) (v : Node) : Prop := key.name = text "<<" → v.isScalar = true

mutual

/-- The names of the keys of each mapping are distinct, and none of them is one that merges. -/
def Node.Keyed : Node → Prop
  | .mapping _ _ es => es.names.Nodup ∧ es.Keyed
  | .sequence _ _ is => is.Keyed
  | _ => True

def Entries.Keyed : Entries → Prop
  | .last _ key v => v.StoredAt key ∧ v.Keyed
  | .cons _ key v es => v.StoredAt key ∧ v.Keyed ∧ es.Keyed

def Items.Keyed : Items → Prop
  | .last _ item => item.Keyed
  | .cons _ item is => item.Keyed ∧ is.Keyed

def Item.Keyed : Item → Prop
  | .plain v => v.Keyed
  | .single _ key v => v.StoredAt key ∧ v.Keyed
  | .compact _ key v es => v.StoredAt key ∧ v.Keyed ∧ (key.name :: es.names).Nodup ∧ es.Keyed

end

/-! ## Tokens -/

/-- The token of the line end behind a value. -/
def Behind.ends (b : Behind) : List Token := if b = .nothing then [] else [.newline]

mutual

/-- The tokens of a value with `b` behind it, in front of `ts`. The `Dedent` tokens of a block stand
behind the line end of its last line. -/
def Node.toks (b : Behind) (ts : List Token) : Node → List Token
  | .scalar _ _ token => token :: (b.ends ++ ts)
  | .emptyObject _ => .indent :: .dedent :: (b.ends ++ ts)
  | .absent _ => b.ends ++ ts
  | .mapping _ _ es => .newline :: .indent :: es.toks b (.dedent :: ts)
  | .sequence _ _ is => .newline :: .indent :: is.toks b (.dedent :: ts)

def Entries.toks (b : Behind) (ts : List Token) : Entries → List Token
  | .last _ key v => .string key.name :: .colon :: v.toks b ts
  | .cons _ key v es => .string key.name :: .colon :: v.toks .lines (es.toks b ts)

def Items.toks (b : Behind) (ts : List Token) : Items → List Token
  | .last _ item => .dash :: item.toks b ts
  | .cons _ item is => .dash :: item.toks .lines (is.toks b ts)

def Item.toks (b : Behind) (ts : List Token) : Item → List Token
  | .plain v => v.toks b ts
  | .single _ key v => .string key.name :: .colon :: v.toks b ts
  | .compact _ key v es =>
      .string key.name :: .colon :: v.toks .lines (.indent :: es.toks b (.dedent :: ts))

end

/-- The tokens of a document up to the end; an indented block stands between an `Indent` and a
`Dedent`. -/
def Node.docToks (b : Behind) : Node → List Token
  | .scalar _ _ token => token :: (b.ends ++ [Token.eof, Token.eof])
  | .emptyObject _ => [Token.indent, Token.dedent] ++ (b.ends ++ [Token.eof, Token.eof])
  | .absent _ => b.ends ++ [Token.eof, Token.eof]
  | .mapping _ level es =>
      if level = 0 then es.toks b [.eof, .eof] else .indent :: es.toks b [.dedent, .eof, .eof]
  | .sequence _ level is =>
      if level = 0 then is.toks b [.eof, .eof] else .indent :: is.toks b [.dedent, .eof, .eof]

/-! ## How many blocks are open -/

theorem Node.opened_scalar {v : Node} (h : v.isScalar = true) : v.opened = 0 := by
  cases v with
  | scalar _ _ _ => rfl
  | _ => cases h

theorem Node.Between.opened_le {isNested : Bool} {v : Node} (h : v.Between isNested) :
    v.opened ≤ maxClosed := by
  rcases h with h | ⟨-, -, h⟩
  · rw [v.opened_scalar h]
    exact Nat.zero_le _
  · exact h

theorem Item.Between.opened_le {item : Item} (h : item.Between) : item.opened ≤ maxClosed := by
  cases item with
  | plain v =>
      rcases h with h | ⟨-, h⟩
      · rw [Item.opened, v.opened_scalar h]
        exact Nat.zero_le _
      · exact h
  | single _ _ _ => exact h.2
  | compact _ _ _ _ => exact h.2

/-! ## How many `Dedent` tokens are left -/

mutual

theorem Node.left_le_one (b : Behind) : ∀ v : Node, v.left b ≤ 1
  | .scalar .. => by
      rw [Node.left]
      split <;> decide
  | .emptyObject _ => le_rfl
  | .absent _ => le_rfl
  | .mapping _ _ es => es.left_le_one b
  | .sequence _ _ is => is.left_le_one b

theorem Entries.left_le_one (b : Behind) : ∀ es : Entries, es.left b ≤ 1
  | .last _ _ v => v.left_le_one b
  | .cons _ _ _ es => es.left_le_one b

theorem Items.left_le_one (b : Behind) : ∀ is : Items, is.left b ≤ 1
  | .last _ item => item.left_le_one b
  | .cons _ _ is => is.left_le_one b

theorem Item.left_le_one (b : Behind) : ∀ i : Item, i.left b ≤ 1
  | .plain v => v.left_le_one b
  | .single _ _ v => by
      rw [Item.left]
      have := v.left_le_one b
      omega
  | .compact _ _ _ es => by
      rw [Item.left]
      have := es.left_le_one b
      split <;> omega

end

mutual

/-- With further lines behind it, a layout that fits takes no `Dedent` of the blocks around it.
Kind: L -/
theorem Node.left_nonneg : ∀ v : Node, v.Fits .lines → 0 ≤ v.left .lines
  | .scalar .., _ => by simp [Node.left]
  | .emptyObject _, h => nomatch h
  | .absent _, h => h.elim
  | .mapping _ _ es, h => es.left_nonneg _ h
  | .sequence _ _ is, h => is.left_nonneg h

theorem Entries.left_nonneg : ∀ (es : Entries) (isNested : Bool), es.Fits .lines isNested →
    0 ≤ es.left .lines
  | .last _ _ v, _, h => v.left_nonneg h
  | .cons _ _ _ es, isNested, h => es.left_nonneg isNested h.2.2

theorem Items.left_nonneg : ∀ is : Items, is.Fits .lines → 0 ≤ is.left .lines
  | .last _ item, h => item.left_nonneg h
  | .cons _ _ is, h => is.left_nonneg h.2.2

theorem Item.left_nonneg : ∀ i : Item, i.Fits .lines → 0 ≤ i.left .lines
  | .plain v, h => v.left_nonneg h
  | .single _ _ v, h => by
      rw [Item.left, h.2 rfl]
      decide
  | .compact _ _ _ es, h => by
      rw [Item.left]
      have := es.left_nonneg false h.2.2
      split <;> omega

end

end CxyCompiler.Stdlib.Yaml
