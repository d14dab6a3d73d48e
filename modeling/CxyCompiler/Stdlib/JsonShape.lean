import CxyCompiler.Stdlib.JsonAccept

/-!
# Reading JSON into any type (`fromJSON`)

`fromJSON` follows a type at compile time, and a struct may come back to itself through its fields.
Which data a value gets does not change what is read, so that only the cursor is kept here.

* `Shape`, `StructInfo`, `Reader` — the types, the structs by their names, and a type's own
  `fromJSON`.
* `readType`, `readElements`, `readMembers`, `readField` — the reader; `readText` reads a whole
  text.
* `Ends` — the reader returns or raises.
* `seen` — the text as the lexer comes by it.

Source: `stdlib/json.cxy`.
-/

namespace CxyCompiler.Stdlib.Json

variable {S : Type}

/-! ## Types -/

/-- Source: `json.cxy` `JsonParser.advance`. -/
def advance (signed : Bool) (cur : Cursor) : Cursor := nextToken signed cur.2

/-- The method `fromJSON` of a type: it returns or raises, and what it does with the parser is to
advance it. -/
structure Reader where
  read : Bool → Cursor → Except String Cursor
  advances : ∀ signed cur cur', read signed cur = .ok cur' → ∃ n, cur' = (advance signed)^[n] cur

/-- What `fromJSON` tells types apart by; a struct with the attribute `@json` is known by its
name. -/
inductive Shape (S : Type)
  | value
  | boolean
  | number
  | string
  | option (t : Shape S)
  | vector (t : Shape S)
  | struct (name : S)
  | own (reader : Reader)

/-- A field and its attribute `@json`. -/
structure Field (S : Type) where
  name : Bytes
  jsonName : Option Bytes
  ignore : Bool
  b64 : Bool
  optional : Bool
  type : Shape S

/-- The name of a field in JSON. -/
def Field.key (f : Field S) : Bytes := f.jsonName.getD f.name

/-- A struct with the attribute `@json`. -/
structure StructInfo (S : Type) where
  name : String
  partialAllowed : Bool
  fields : List (Field S)

/-- The value of a field is read as base 64. -/
def Field.isB64 (f : Field S) : Bool :=
  match f.type with
  | .string => f.b64
  | _ => false

/-- The first field of that name. -/
def StructInfo.find (info : StructInfo S) (key : Bytes) : Option (Field S) :=
  info.fields.find? (fun f => f.key == key)

/-! ## The reader -/

/-- What the text is decoded to is not needed. Source: `base64.cxy` `decode`, of a `String`. -/
def decodeString (signed : Bool) (s : Bytes) (cur : Cursor) : Reading Cursor :=
  (decode signed s).bind fun _ => .done cur

/-- The value of one key goes to the first field of that name; the position in the message of an
unknown key is left out. Source: `json.cxy` `fieldFromJSON`. -/
def readField (signed : Bool) (read : Shape S → Cursor → Reading Cursor)
    (skip : Cursor → Outcome Cursor)
    (info : StructInfo S) (key : Bytes) (cur : Cursor) : Reading Cursor :=
  match info.find key with
  | some f =>
      if f.ignore then (skip cur).reading
      else if f.isB64 then (expectString signed cur).reading.bind fun r =>
        decodeString signed r.1 r.2
      else if f.optional && cur.1 = .null then .done (advance signed cur)
      else read f.type cur
  | none =>
      if info.partialAllowed then (skip cur).reading
      else .raised ("JSON key does not exist in type " ++ info.name)

mutual

/-- Source: `json.cxy` `fromJSON`. -/
def readType (signed : Bool) (structs : S → StructInfo S) : ℕ → Shape S → Cursor → Reading Cursor
  | 0, _, _ => .outOfFuel
  | fuel + 1, .value, cur => (parseValue signed fuel 0 cur).reading.bind fun r => .done r.2
  | _ + 1, .boolean, (token, s) =>
      match token with
      | .true | .false => .done (nextToken signed s)
      | _ => .raised "Expected boolean"
  | _ + 1, .number, (token, s) =>
      match token with
      | .number _ => .done (nextToken signed s)
      | _ => .raised "Expected number"
  | _ + 1, .string, (token, s) =>
      match token with
      | .null | .string _ => .done (nextToken signed s)
      | _ => .raised "Expected string"
  | fuel + 1, .option t, cur =>
      if cur.1 = .null then .done (advance signed cur) else readType signed structs fuel t cur
  | fuel + 1, .vector t, cur =>
      (expectToken signed .leftBracket cur).reading.bind fun cur =>
        readElements signed structs fuel t true cur
  | fuel + 1, .struct name, cur =>
      (expectToken signed .leftBrace cur).reading.bind fun cur =>
        readMembers signed structs fuel name cur
  | _ + 1, .own reader, cur =>
      match reader.read signed cur with
      | .ok cur => .done cur
      | .error msg => .raised msg

/-- The loop over the items of a vector. Source: `json.cxy` `fromJSON`. -/
def readElements (signed : Bool) (structs : S → StructInfo S) :
    ℕ → Shape S → Bool → Cursor → Reading Cursor
  | 0, _, _, _ => .outOfFuel
  | fuel + 1, t, empty, cur =>
      if cur.1 = .rightBracket then .done (advance signed cur)
      else
        (if empty then .done cur else (expectToken signed .comma cur).reading).bind fun cur =>
          (readType signed structs fuel t cur).bind fun cur =>
            readElements signed structs fuel t false cur

/-- The loop over the fields of a struct. Source: `json.cxy` `fromJSON`. -/
def readMembers (signed : Bool) (structs : S → StructInfo S) : ℕ → S → Cursor → Reading Cursor
  | 0, _, _ => .outOfFuel
  | fuel + 1, name, cur =>
      if cur.1 = .rightBrace then .done (advance signed cur)
      else
        (expectString signed cur).reading.bind fun key =>
          (expectToken signed .colon key.2).reading.bind fun cur =>
            (readField signed (readType signed structs fuel) (skipValue signed fuel)
              (structs name) key.1
              cur).bind fun cur =>
                readMembers signed structs fuel name (consumeToken signed .comma cur)

end

/-- The lexer casts a position to 32 bits before it reads the character there.
Source: `json.cxy` `JsonLexer.peek`, `JsonLexer.advance`. -/
def seen (s : Bytes) : Bytes := s.mapIdx fun i _ => s.getD (i % 2 ^ 32) 0

/-- Source: `json.cxy` `parse`. -/
def readText (signed : Bool) (structs : S → StructInfo S) (fuel : ℕ) (t : Shape S) (s : Bytes) :
    Reading Cursor :=
  (readType signed structs fuel t (nextToken signed (seen s))).bind fun cur =>
    if cur.1 = .eof then .done cur else .raised "Unexpected tokens after parsing"

/-- From some fuel on there is this result. -/
def Settles {α : Type} (f : ℕ → α) (r : α) : Prop := ∃ n, ∀ fuel, n ≤ fuel → f fuel = r

/-- **It returns or raises.** -/
def Ends {α : Type} (f : ℕ → Reading α) : Prop :=
  (∃ a, Settles f (.done a)) ∨ ∃ msg, Settles f (.raised msg)

end CxyCompiler.Stdlib.Json
