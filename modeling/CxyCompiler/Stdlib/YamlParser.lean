import CxyCompiler.Stdlib.Json
import CxyCompiler.Stdlib.YamlLexer

/-!
# The YAML parser and serializer (`stdlib/yaml/parser.cxy`, `stdlib/yaml/serializer.cxy`)

* `Parser`: the window of the current and the next token, and the anchors.
* `parseValue`, `parseObject`, `parseArray`: the parser; the fuel bounds the number of calls that
  are open or have been made in a row.
* `parse`: one document, or several as an array.
* `serializeValue`, `serialize`: the serializer; indentation is counted in 32 bits.

Positions in messages are left out.
-/

namespace CxyCompiler.Stdlib.Yaml

open CxyCompiler.Lib

/-- The result of a call: a value, an exception with its message, an assertion that fails, or not
enough fuel. -/
inductive Outcome (α : Type)
  | done (a : α)
  | raised (msg : Bytes)
  | aborted
  | outOfFuel

def Outcome.bind {α β : Type} (r : Outcome α) (f : α → Outcome β) : Outcome β :=
  match r with
  | .done a => f a
  | .raised msg => .raised msg
  | .aborted => .aborted
  | .outOfFuel => .outOfFuel

/-! ## The parser -/

/-- Source: `parser.cxy` `YamlParser`. -/
structure Parser where
  window : Window Lexer Token
  anchors : List (Bytes × Value)

namespace Parser

/-- Source: `parser.cxy` `currentToken`. -/
def current (p : Parser) : Token := p.window.current

/-- Source: `parser.cxy` `nextToken`. -/
def next (p : Parser) : Token := p.window.next

/-- Source: `parser.cxy` `advance`. -/
def advance (signed : Bool) (p : Parser) : Outcome Parser :=
  match p.window.advance (lexNext signed) with
  | some w => .done { p with window := w }
  | none => .aborted

/-- Source: `parser.cxy` `init`. -/
def init (signed : Bool) (input : Bytes) : Outcome Parser :=
  match Window.start (lexNext signed) (Lexer.init input) with
  | some w => .done ⟨w, []⟩
  | none => .aborted

/-- Source: `parser.cxy` `_skipNewlines`, the loop. -/
def skipWhileNewline (signed : Bool) : ℕ → Parser → Outcome Parser
  | 0, _ => .outOfFuel
  | fuel + 1, p =>
      if p.current = .newline then (p.advance signed).bind (skipWhileNewline signed fuel)
      else .done p

/-- Source: `parser.cxy` `_skipNewlines`. -/
def skipNewlines (signed : Bool) (fuel : ℕ) (marker : Token) (p : Parser) : Outcome Parser :=
  if p.current = marker then (p.advance signed).bind (skipWhileNewline signed fuel)
  else skipWhileNewline signed fuel p

end Parser

/-- The value of a token that is a scalar. Source: `parser.cxy` `parseScalar`. -/
def Token.value : Token → Option Value
  | .string s => some (.string s)
  | .number n => some (.float (Json.tof n))
  | .true => some (.bool Bool.true)
  | .false => some (.bool Bool.false)
  | .null => some .null
  | _ => none

/-- Source: `parser.cxy` `parseScalar`. -/
def parseScalar (signed : Bool) (p : Parser) : Outcome (Value × Parser) :=
  match p.current.value with
  | some v => (p.advance signed).bind fun p => .done (v, p)
  | none => .raised (text "Expected scalar value")

/-- Source: `parser.cxy` `_mergeObject`. -/
def mergeObject (target source : List (Bytes × Value)) : List (Bytes × Value) :=
  source.foldl (fun es e => if e.1 ∈ es.map Prod.fst then es else setEntry e.1 e.2 es) target

/-- Source: `parser.cxy` `_mergeArray`. -/
def mergeArray : List (Bytes × Value) → List Value → Outcome (List (Bytes × Value))
  | target, [] => .done target
  | target, .object es :: xs => mergeArray (mergeObject target es) xs
  | _, _ => .raised (text "Merge array must contain only objects")

/-- What an entry adds to an object. Source: `parser.cxy` `parseObject`. -/
def storeEntry (key : Bytes) (v : Value) (obj : List (Bytes × Value)) :
    Outcome (List (Bytes × Value)) :=
  if key = text "<<" then
    match v with
    | .object es => .done (mergeObject obj es)
    | .array xs => mergeArray obj xs
    | v => .done (setEntry key v obj)
  else .done (setEntry key v obj)

/-- What is taken between the first two keys of an object in a list item, and behind the others.
Source: `parser.cxy` `parseObject`. -/
def skipListItem (signed listItem first : Bool) (p : Parser) : Outcome Parser :=
  if listItem && (first && p.current = .indent || !first && p.current = .dedent) then
    p.advance signed
  else .done p

/-- What follows an entry; `again` is the next round of the loop. Source: `parser.cxy`
`parseObject`. -/
def afterEntry (signed isNested listItem first : Bool) (obj : List (Bytes × Value))
    (again : Bool → Parser → Outcome (Value × Parser)) (p : Parser) : Outcome (Value × Parser) :=
  match p.current with
  | .newline =>
      (p.advance signed).bind fun p => (skipListItem signed listItem first p).bind (again false)
  | .dedent =>
      (p.advance signed).bind fun p => if isNested then .done (.object obj, p) else again first p
  | .eof => .done (.object obj, p)
  | _ => .raised (text "Expected newline or dedent in object")

/-- What follows an item; `again` is the next round of the loop. Source: `parser.cxy`
`parseArray`. -/
def afterItem (signed : Bool) (arr : List Value) (again : Parser → Outcome (Value × Parser))
    (p : Parser) : Outcome (Value × Parser) :=
  match p.current with
  | .newline => (p.advance signed).bind again
  | .dedent => (p.advance signed).bind fun p => .done (.array arr, p)
  | .eof => .done (.array arr, p)
  | .dash => again p
  | _ => .raised (text "Expected newline or dedent in array")

/-- Source: `parser.cxy` `parseValue`, the anchor. -/
def readAnchor (signed : Bool) (p : Parser) : Outcome (Option Bytes × Parser) :=
  match p.current with
  | .anchor name => (p.advance signed).bind fun p => .done (some name, p)
  | _ => .done (none, p)

/-- Source: `parser.cxy` `parseValue`, the end. -/
def storeAnchor (anchor : Option Bytes) (r : Value × Parser) : Value × Parser :=
  match anchor with
  | some name => (r.1, { r.2 with anchors := setEntry name r.1 r.2.anchors })
  | none => r

mutual

/-- Source: `parser.cxy` `parseValue`. -/
def parseValue (signed : Bool) : ℕ → Parser → Outcome (Value × Parser)
  | 0, _ => .outOfFuel
  | fuel + 1, p =>
      (readAnchor signed p).bind fun (anchor, p) =>
        match p.current with
        | .alias name =>
            (p.advance signed).bind fun p =>
              match p.anchors.find? (·.1 = name) with
              | some e => .done (e.2, p)
              | none => .raised (text "Undefined alias '*" ++ name ++ text "'")
        | _ => (parseActual signed fuel p).bind fun r => .done (storeAnchor anchor r)

/-- Source: `parser.cxy` `parseValue`, the value behind an anchor. -/
def parseActual (signed : Bool) : ℕ → Parser → Outcome (Value × Parser)
  | 0, _ => .outOfFuel
  | fuel + 1, p =>
      match p.current with
      | .string _ =>
          if p.next = .colon then parseObject signed fuel false false true [] p
          else parseScalar signed p
      | .number _ | .true | .false | .null => parseScalar signed p
      | .indent =>
          (p.advance signed).bind fun p =>
            if p.current = .dash then parseArray signed fuel [] p
            else parseObject signed fuel true false true [] p
      | .dash => parseArray signed fuel [] p
      | .newline => (p.advance signed).bind (parseValue signed fuel)
      | _ => .raised (text "Unexpected token in parseValue")

/-- The loop of an object. Source: `parser.cxy` `parseObject`. -/
def parseObject (signed : Bool) :
    ℕ → Bool → Bool → Bool → List (Bytes × Value) → Parser → Outcome (Value × Parser)
  | 0, _, _, _, _, _ => .outOfFuel
  | fuel + 1, isNested, listItem, first, obj, p =>
      match p.current with
      | .string key =>
          (p.advance signed).bind fun p =>
            if p.current ≠ .colon then .raised (text "Expected ':' after object key")
            else
              (p.advance signed).bind fun p =>
                (parseValue signed fuel p).bind fun (v, p) =>
                  (storeEntry key v obj).bind fun obj =>
                    afterEntry signed isNested listItem first obj
                      (fun first => parseObject signed fuel isNested listItem first obj) p
      | _ => .done (.object obj, p)

/-- The loop of an array. Source: `parser.cxy` `parseArray`. -/
def parseArray (signed : Bool) : ℕ → List Value → Parser → Outcome (Value × Parser)
  | 0, _, _ => .outOfFuel
  | fuel + 1, arr, p =>
      match p.current with
      | .dash =>
          (p.advance signed).bind fun p =>
            (parseItem signed fuel p).bind fun (v, p) =>
              afterItem signed (arr ++ [v]) (parseArray signed fuel (arr ++ [v])) p
      | _ => .done (.array arr, p)

/-- The value behind a dash. Source: `parser.cxy` `parseArray`. -/
def parseItem (signed : Bool) : ℕ → Parser → Outcome (Value × Parser)
  | 0, _ => .outOfFuel
  | fuel + 1, p =>
      match p.current with
      | .string _ =>
          if p.next = .colon then parseObject signed fuel false true true [] p
          else parseValue signed fuel p
      | _ => parseValue signed fuel p

end

/-- The documents behind the first one. Source: `parser.cxy` `parse`. -/
def parseDocuments (signed : Bool) : ℕ → List Value → Parser → Outcome Value
  | 0, _, _ => .outOfFuel
  | fuel + 1, docs, p =>
      if p.current = .docStart then
        (Parser.skipNewlines signed fuel .docStart { p with anchors := [] }).bind fun p =>
          (parseValue signed fuel p).bind fun (doc, p) =>
            (Parser.skipNewlines signed fuel .docEnd p).bind
              (parseDocuments signed fuel (docs ++ [doc]))
      else if p.current = .eof then .done (.array docs)
      else .raised (text "Unexpected tokens after parsing")

/-- Source: `parser.cxy` `parse`. -/
def parse (signed : Bool) (fuel : ℕ) (input : Bytes) : Outcome Value :=
  (Parser.init signed input).bind fun p =>
    (Parser.skipNewlines signed fuel .docStart p).bind fun p =>
      (parseValue signed fuel p).bind fun (value, p) =>
        (Parser.skipNewlines signed fuel .docEnd p).bind fun p =>
          if p.current ≠ .docStart then
            if p.current ≠ .eof then .raised (text "Unexpected tokens after parsing")
            else .done value
          else parseDocuments signed fuel [value] p

/-! ## The serializer -/

/-- Source: `serializer.cxy` `_isYamlIndicator`. -/
def isYamlIndicator (c : UInt8) : Bool := c ∈ text "-?:\x7b\x7d[],&*#|>@!%'\"\x60"

/-- `c < <char>32`. Source: `serializer.cxy` `_needsQuoting`. -/
def isControl (signed : Bool) (c : UInt8) : Bool := c < 32 || signed && !isAscii c

/-- Source: `serializer.cxy` `_needsQuoting`. -/
def needsQuoting (signed : Bool) (s : Bytes) : Bool :=
  s.isEmpty || s.head?.any isYamlIndicator ||
    s = text "true" || s = text "false" || s = text "null" || s = text "~" ||
    s.zipIdx.any fun (c, i) => isControl signed c || c = ch '"' || c = ch '\\' ||
      c = ch ':' && decide (i + 1 < s.length) && s[(i + 1) % 2 ^ 32]? = some (ch ' ')

/-- Source: `serializer.cxy` `_escapeString`. -/
def escapeChar (signed : Bool) (c : UInt8) : Bytes :=
  if c = ch '\n' then text "\\n"
  else if c = ch '\t' then text "\\t"
  else if c = ch '\r' then text "\\r"
  else if c = ch '\\' then text "\\\\"
  else if c = ch '"' then text "\\\""
  else putChar signed c

/-- A string or a key. Source: `serializer.cxy` `_serializeScalar`, `_escapeString`. -/
def serializeScalar (signed : Bool) (s : Bytes) : Bytes :=
  if needsQuoting signed s then text "\"" ++ s.flatMap (escapeChar signed) ++ text "\"" else s

/-- Source: `serializer.cxy` `_writeIndent`. -/
def writeIndent (n : ℕ) : Bytes := List.replicate n (ch ' ')

/-- An array or object that stands on lines of its own. Source: `serializer.cxy`
`_serializeObject`. -/
def needsNewline : Value → Bool
  | .array xs => !xs.isEmpty
  | .object es => !es.isEmpty
  | _ => false

/-- `_currentIndent += n`. Source: `serializer.cxy` `YamlSerializer`. -/
def addIndent (current n : ℕ) : ℕ := (current + n) % 2 ^ 32

/-- The values that are neither arrays nor objects. Source: `serializer.cxy` `_serializeValue`. -/
def serializeAtom (p : Json.Printers) : Value → Bytes
  | .null => text "null"
  | .bool b => if b then text "true" else text "false"
  | .int i => appendSignedInt i.toInt
  | .float f => p.formatFloat f
  | .string s => serializeScalar p.signed s
  | _ => []

mutual

/-- `indent` is the width of a level and `current` the current indentation.
Source: `serializer.cxy` `_serializeValue`. -/
def serializeValue (p : Json.Printers) (indent current : ℕ) : Value → Bytes
  | .array [] => text "[]"
  | .array (x :: xs) => serializeItems p indent current (x :: xs)
  | .object [] => text "\x7b\x7d"
  | .object (e :: es) => serializeEntries p indent current (e :: es)
  | v => serializeAtom p v

/-- The loop over the items. Source: `serializer.cxy` `_serializeArray`. -/
def serializeItems (p : Json.Printers) (indent current : ℕ) : List Value → Bytes
  | [] => []
  | x :: xs =>
      writeIndent current ++ text "- " ++ serializeItem p indent current x ++
        (if xs.isEmpty then [] else text "\n") ++ serializeItems p indent current xs

/-- Source: `serializer.cxy` `_serializeArray`. -/
def serializeItem (p : Json.Printers) (indent current : ℕ) : Value → Bytes
  | .object [] => text "\x7b\x7d"
  | .object (e :: es) => text "\n" ++ serializeEntries p indent (addIndent current indent) (e :: es)
  | .array [] => text "\n" ++ text "[]"
  | .array (x :: xs) =>
      text "\n" ++ serializeItems p indent (addIndent current (indent + 2)) (x :: xs)
  | v => serializeAtom p v

/-- The loop over the entries. Source: `serializer.cxy` `_serializeObject`. -/
def serializeEntries (p : Json.Printers) (indent current : ℕ) : List (Bytes × Value) → Bytes
  | [] => []
  | (key, v) :: es =>
      writeIndent current ++ serializeScalar p.signed key ++
        (if needsNewline v then
          text ":\n" ++ serializeValue p indent (addIndent current indent) v
        else text ": " ++ serializeValue p indent current v) ++
        (if es.isEmpty then [] else text "\n") ++ serializeEntries p indent current es

end

/-- Source: `serializer.cxy` `serialize`. -/
def serialize (p : Json.Printers) (indent : UInt32) (v : Value) : Bytes :=
  serializeValue p indent.toNat 0 v

end CxyCompiler.Stdlib.Yaml
