import CxyCompiler.Stdlib.Value

/-!
# JSON (`stdlib/json.cxy`)

The serializer for values, the lexer and the parser. Both sides write the characters of a string
one at a time, through the path of the output stream for characters.

* `serializeValue`: the text of a value, on one line or with indentation.
* `nextToken`: one token of a text, and the text behind it.
* `parseValue`, `parseMembers`, `parseItems`: the parser on the current token and the text behind
  it; the fuel bounds the number of calls that are open or have been made in a row.
* `parse`: the whole text is one value.

The lexer casts its position to `u32` before it indexes the text, so `Text` is a text of at most
2^32 bytes. Lines and columns are left out.

Sources: `stdlib/json.cxy`, `runtime/builtins.cxy` (`tof`).
-/

namespace CxyCompiler.Stdlib.Json

open CxyCompiler.Lib.Double

/-! ## The serializer -/

/-- Source: `json.cxy` `getIndent`. -/
def getIndent (level : ℕ) : Bytes := (List.replicate level (text "  ")).flatten

/-- The escape of a character that has one. Source: `json.cxy` `escapeJsonString`. -/
def escapeOf (c : UInt8) : Option UInt8 :=
  if c = ch '"' then some (ch '"')
  else if c = ch '\\' then some (ch '\\')
  else if c = 8 then some (ch 'b')
  else if c = 12 then some (ch 'f')
  else if c = ch '\n' then some (ch 'n')
  else if c = ch '\r' then some (ch 'r')
  else if c = ch '\t' then some (ch 't')
  else none

/-- Source: `json.cxy` `escapeJsonString`, the loop body. -/
def escapeChar (signed : Bool) (c : UInt8) : Bytes :=
  match escapeOf c with
  | some e => [ch '\\', e]
  | none => putChar signed c

/-- Source: `json.cxy` `escapeJsonString`. -/
def escapeJsonString (signed : Bool) (s : Bytes) : Bytes := s.flatMap (escapeChar signed)

/-- What is written only in pretty texts. -/
def whenPretty (pretty : Bool) (s : Bytes) : Bytes := if pretty then s else []

/-- What is written for what the printers of the compiler's target do. -/
structure Printers where
  signed : Bool
  formatFloat : F64 → Bytes

mutual

/-- Source: `json.cxy` `serializeValue`. -/
def serializeValue (p : Printers) (indent : ℕ) (pretty : Bool) : Value → Bytes
  | .null => text "null"
  | .bool b => if b then text "true" else text "false"
  | .int i => appendSignedInt i.toInt
  | .float f => p.formatFloat f
  | .string s => text "\"" ++ escapeJsonString p.signed s ++ text "\""
  | .array xs =>
      text "[" ++ whenPretty (pretty && !xs.isEmpty) (text "\n") ++
        serializeItems p indent pretty xs ++
        whenPretty (pretty && !xs.isEmpty) (getIndent indent) ++ text "]"
  | .object es =>
      text "\x7b" ++ whenPretty (pretty && !es.isEmpty) (text "\n") ++
        serializeEntries p indent pretty true es ++
        whenPretty (pretty && !es.isEmpty) (text "\n" ++ getIndent indent) ++ text "\x7d"

/-- The loop over the items. Source: `json.cxy` `serializeValue`. -/
def serializeItems (p : Printers) (indent : ℕ) (pretty : Bool) : List Value → Bytes
  | [] => []
  | x :: xs =>
      whenPretty pretty (getIndent (indent + 1)) ++ serializeValue p (indent + 1) pretty x ++
        (if xs.isEmpty then [] else text ",") ++ whenPretty pretty (text "\n") ++
        serializeItems p indent pretty xs

/-- The loop over the entries. Source: `json.cxy` `serializeValue`. -/
def serializeEntries (p : Printers) (indent : ℕ) (pretty first : Bool) :
    List (Bytes × Value) → Bytes
  | [] => []
  | (key, x) :: es =>
      (if first then [] else text "," ++ whenPretty pretty (text "\n")) ++
        whenPretty pretty (getIndent (indent + 1)) ++
        text "\"" ++ escapeJsonString p.signed key ++ text "\":" ++ whenPretty pretty (text " ") ++
        serializeValue p (indent + 1) pretty x ++ serializeEntries p indent pretty false es

end

/-! ## The lexer -/

/-- Source: `json.cxy` `JsonToken`, with the text of a string or number. -/
inductive JsonToken
  | string (value : Bytes)
  | number (value : Bytes)
  | true
  | false
  | null
  | leftBrace
  | rightBrace
  | leftBracket
  | rightBracket
  | colon
  | comma
  | eof
  | invalid
  deriving DecidableEq

def isDigit (c : UInt8) : Bool := ch '0' ≤ c && c ≤ ch '9'

/-- Source: `json.cxy` `skipWhitespace`. -/
def isSpace (c : UInt8) : Bool := c = ch ' ' || c = ch '\r' || c = ch '\t' || c = ch '\n'

def skipWhitespace (s : Bytes) : Bytes := s.dropWhile isSpace

/-- The character an escape stands for. Source: `json.cxy` `scanString`. -/
def unescape (c : UInt8) : Option UInt8 :=
  if c = ch '"' then some (ch '"')
  else if c = ch '\\' then some (ch '\\')
  else if c = ch '/' then some (ch '/')
  else if c = ch 'b' then some 8
  else if c = ch 'f' then some 12
  else if c = ch 'n' then some (ch '\n')
  else if c = ch 'r' then some (ch '\r')
  else if c = ch 't' then some (ch '\t')
  else none

def hexValue (c : UInt8) : Option UInt32 :=
  if ch '0' ≤ c && c ≤ ch '9' then some (c - ch '0').toUInt32
  else if ch 'a' ≤ c && c ≤ ch 'f' then some (c - ch 'a' + 10).toUInt32
  else if ch 'A' ≤ c && c ≤ ch 'F' then some (c - ch 'A' + 10).toUInt32
  else none

/-- The number of four hexadecimal digits. -/
def codePoint (a b c d : UInt8) : Option UInt32 :=
  match hexValue a, hexValue b, hexValue c, hexValue d with
  | some a, some b, some c, some d => some (((a <<< 4 ||| b) <<< 4 ||| c) <<< 4 ||| d)
  | _, _, _, _ => none

/-- The bytes of a code point below 0x10000, each written as a `char`.
Source: `json.cxy` `scanString`. -/
def writeCodePoint (signed : Bool) (c : UInt32) : Bytes :=
  if c ≤ 0x7F then putChar signed c.toUInt8
  else if c ≤ 0x7FF then
    putChar signed ((0xC0 : UInt32) ||| (c >>> 6)).toUInt8 ++ putChar signed (trail c)
  else putChar signed ((0xE0 : UInt32) ||| (c >>> 12)).toUInt8 ++
    putChar signed (trail (c >>> 6)) ++ putChar signed (trail c)

/-- What is left when an escape of a code point breaks off at a character that is no digit. -/
def afterBadDigit (s : Bytes) : Bytes := (s.dropWhile fun c => (hexValue c).isSome).drop 1

/-- The text behind an opening quote; `acc` is what has been read.
Source: `json.cxy` `scanString`. -/
def scanString (signed : Bool) (acc : Bytes) : Bytes → JsonToken × Bytes
  | [] => (.invalid, [])
  | c :: rest =>
      if c = ch '"' then (.string acc, rest)
      else if c = ch '\\' then
        match rest with
        | [] => (.invalid, [])
        | e :: rest =>
            match unescape e with
            | some d => scanString signed (acc ++ [d]) rest
            | none =>
                if e = ch 'u' then
                  match rest with
                  | x :: y :: z :: w :: rest' =>
                      match codePoint x y z w with
                      | some cp => scanString signed (acc ++ writeCodePoint signed cp) rest'
                      | none => (.invalid, afterBadDigit (x :: y :: z :: w :: rest'))
                  | rest => (.invalid, afterBadDigit rest)
                else (.invalid, rest)
      else scanString signed (acc ++ putChar signed c) rest

/-- The digits in front of a text and what is behind them. -/
def spanDigits (s : Bytes) : Bytes × Bytes := (s.takeWhile isDigit, s.dropWhile isDigit)

/-- The exponent behind a number that has been read. Source: `json.cxy` `scanNumber`. -/
def scanExponent (acc : Bytes) : Bytes → JsonToken × Bytes
  | [] => (.number acc, [])
  | e :: rest =>
      if e = ch 'e' || e = ch 'E' then
        let (sign, rest) : Bytes × Bytes := match rest with
          | s :: rest' => if s = ch '+' || s = ch '-' then ([s], rest') else ([], rest)
          | [] => ([], [])
        if (rest.head?.any isDigit) then
          let (ds, rest) := spanDigits rest
          (.number (acc ++ [e] ++ sign ++ ds), rest)
        else (.invalid, rest)
      else (.number acc, e :: rest)

/-- The fraction behind an integer that has been read. Source: `json.cxy` `scanNumber`. -/
def scanFraction (acc : Bytes) : Bytes → JsonToken × Bytes
  | [] => (.number acc, [])
  | c :: rest =>
      if c = ch '.' then
        if (rest.head?.any isDigit) then
          let (ds, rest) := spanDigits rest
          scanExponent (acc ++ [c] ++ ds) rest
        else (.invalid, rest)
      else scanExponent acc (c :: rest)

/-- Source: `json.cxy` `scanNumber`. -/
def scanNumber (s : Bytes) : JsonToken × Bytes :=
  let (sign, s) : Bytes × Bytes := match s with
    | c :: rest => if c = ch '-' then ([c], rest) else ([], s)
    | [] => ([], [])
  match s with
  | [] => (.invalid, [])
  | c :: rest =>
      if !isDigit c then (.invalid, c :: rest)
      else if c = ch '0' then scanFraction (sign ++ [c]) rest
      else
        let (ds, rest) := spanDigits (c :: rest)
        scanFraction (sign ++ ds) rest

/-- What a keyword that does not match consumes is what matched and one character more.
Source: `json.cxy` `scanKeyword`. -/
def scanKeyword (token : JsonToken) : Bytes → Bytes → JsonToken × Bytes
  | [], s => (token, s)
  | _ :: _, [] => (.invalid, [])
  | e :: es, c :: s => if c = e then scanKeyword token es s else (.invalid, s)

/-- Source: `json.cxy` `nextToken`. -/
def nextToken (signed : Bool) (s : Bytes) : JsonToken × Bytes :=
  match skipWhitespace s with
  | [] => (.eof, [])
  | c :: rest =>
      if c = ch '{' then (.leftBrace, rest)
      else if c = ch '}' then (.rightBrace, rest)
      else if c = ch '[' then (.leftBracket, rest)
      else if c = ch ']' then (.rightBracket, rest)
      else if c = ch ':' then (.colon, rest)
      else if c = ch ',' then (.comma, rest)
      else if c = ch '"' then scanString signed [] rest
      else if c = ch 't' then scanKeyword .true (text "true") (c :: rest)
      else if c = ch 'f' then scanKeyword .false (text "false") (c :: rest)
      else if c = ch 'n' then scanKeyword .null (text "null") (c :: rest)
      else if isDigit c || c = ch '-' then scanNumber (c :: rest)
      else (.invalid, c :: rest)

/-! ## Numbers -/

/-- The value of digits. -/
def digitsValue (ds : Bytes) : ℕ := ds.foldl (fun n c => n * 10 + (c - ch '0').toNat) 0

/-- The exponent of a number. -/
def exponentValue : Bytes → ℤ
  | [] => 0
  | e :: rest =>
      if e = ch 'e' || e = ch 'E' then
        match rest with
        | s :: ds =>
            if s = ch '-' then -(digitsValue (ds.takeWhile isDigit) : ℤ)
            else if s = ch '+' then digitsValue (ds.takeWhile isDigit)
            else digitsValue (rest.takeWhile isDigit)
        | [] => 0
      else 0

/-- The value of the unsigned number a text begins with. -/
def magnitude (s : Bytes) : ℚ :=
  let (int, s) := spanDigits s
  let (frac, s) : Bytes × Bytes := match s with
    | c :: rest => if c = ch '.' then spanDigits rest else ([], s)
    | [] => ([], [])
  (digitsValue (int ++ frac) : ℚ) / 10 ^ frac.length * (10 : ℚ) ^ exponentValue s

/-- The double nearest to the number a text begins with (the texts of number tokens; C also reads
others). Source: `builtins.cxy` `tof`, C's `strtod`. -/
def tof : Bytes → F64
  | [] => .fin false 0
  | c :: rest => if c = ch '-' then ofMag true (magnitude rest)
      else ofMag false (magnitude (c :: rest))

/-! ## The parser -/

/-- The result of a call: a value, an exception with its message, or not enough fuel. -/
inductive Outcome (α : Type)
  | done (a : α)
  | raised (msg : String)
  | outOfFuel

/-- The current token and the text behind it. -/
abbrev Cursor : Type := JsonToken × Bytes

/-- How a token is printed. Source: `JsonToken` and `OutputStream.<<` at an enum. -/
def JsonToken.str : JsonToken → String
  | .string _ => "JsonToken.String"
  | .number _ => "JsonToken.Number"
  | .true => "JsonToken.True"
  | .false => "JsonToken.False"
  | .null => "JsonToken.Null"
  | .leftBrace => "\x7b"
  | .rightBrace => "\x7d"
  | .leftBracket => "["
  | .rightBracket => "]"
  | .colon => ":"
  | .comma => ","
  | .eof => "JsonToken.EOF"
  | .invalid => "JsonToken.Invalid"

/-- Source: `json.cxy` `_maxDepth`. -/
def maxDepth : ℕ := 1000

mutual

/-- Source: `json.cxy` `parseValue`, with the start of `parseArray` and `parseObject`. -/
def parseValue (signed : Bool) : ℕ → ℕ → Cursor → Outcome (Value × Cursor)
  | 0, _, _ => .outOfFuel
  | fuel + 1, depth, (token, s) =>
      if maxDepth ≤ depth then .raised "Maximum nesting depth exceeded"
      else match token with
        | .null => .done (.null, nextToken signed s)
        | .true => .done (.bool Bool.true, nextToken signed s)
        | .false => .done (.bool Bool.false, nextToken signed s)
        | .number n => .done (.float (tof n), nextToken signed s)
        | .string v => .done (.string v, nextToken signed s)
        | .leftBracket =>
            match nextToken signed s with
            | (.rightBracket, s) => .done (.array [], nextToken signed s)
            | cur => parseItems signed fuel (depth + 1) [] cur
        | .leftBrace =>
            match nextToken signed s with
            | (.rightBrace, s) => .done (.object [], nextToken signed s)
            | cur => parseMembers signed fuel (depth + 1) [] cur
        | token => .raised ("Unexpected token: " ++ token.str)

/-- The loop of an array. Source: `json.cxy` `parseArray`. -/
def parseItems (signed : Bool) : ℕ → ℕ → List Value → Cursor → Outcome (Value × Cursor)
  | 0, _, _, _ => .outOfFuel
  | fuel + 1, depth, arr, cur =>
      match parseValue signed fuel depth cur with
      | .done (value, (.rightBracket, s)) => .done (.array (arr ++ [value]), nextToken signed s)
      | .done (value, (.comma, s)) =>
          parseItems signed fuel depth (arr ++ [value]) (nextToken signed s)
      | .done _ => .raised "Expected ',' or ']' in array"
      | .raised msg => .raised msg
      | .outOfFuel => .outOfFuel

/-- The loop of an object. Source: `json.cxy` `parseObject`. -/
def parseMembers (signed : Bool) :
    ℕ → ℕ → List (Bytes × Value) → Cursor → Outcome (Value × Cursor)
  | 0, _, _, _ => .outOfFuel
  | fuel + 1, depth, obj, (.string key, s) =>
      match nextToken signed s with
      | (.colon, s) =>
          match parseValue signed fuel depth (nextToken signed s) with
          | .done (value, (.rightBrace, s)) =>
              .done (.object (setEntry key value obj), nextToken signed s)
          | .done (value, (.comma, s)) =>
              parseMembers signed fuel depth (setEntry key value obj) (nextToken signed s)
          | .done _ => .raised "Expected ',' or '\x7d' in object"
          | .raised msg => .raised msg
          | .outOfFuel => .outOfFuel
      | _ => .raised "Expected ':' after object key"
  | _ + 1, _, _, _ => .raised "Expected string key in object"

end

/-- A text that the lexer can index. -/
structure Text where
  bytes : Bytes
  fits : bytes.length ≤ 2 ^ 32

/-- Source: `json.cxy` `parse` at `Value`. -/
def parse (signed : Bool) (fuel : ℕ) (t : Text) : Outcome Value :=
  match parseValue signed fuel 0 (nextToken signed t.bytes) with
  | .done (value, (.eof, _)) => .done value
  | .done _ => .raised "Unexpected tokens after parsing"
  | .raised msg => .raised msg
  | .outOfFuel => .outOfFuel

end CxyCompiler.Stdlib.Json
