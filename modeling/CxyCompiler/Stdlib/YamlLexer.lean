import Mathlib.Data.List.DropRight
import CxyCompiler.Lib.Lookahead
import CxyCompiler.Stdlib.Value

/-!
# The YAML lexer (`stdlib/yaml/lexer.cxy`)

The lexer turns a change of the indentation into `Indent` and `Dedent` tokens, a line end into
`Newline`, and the brackets and commas of flow style into the same tokens.

* `Token`, `Lexer`: the tokens with their values, and the state of the lexer; `rest` is the text
  from its position on.
* `nextToken`: one token. It fails where the source raises, and `aborted` is a failed assertion.
* `lexNext`: the next token for the parser, to which a failure is an `Invalid` token.

Lines and columns, which only occur in messages, and the messages, which the parser drops, are left
out.

Sources: `stdlib/yaml/lexer.cxy`, `stdlib/utils.cxy` (`readHexEscape`).
-/

namespace CxyCompiler.Stdlib.Yaml

/-- Source: `lexer.cxy` `YamlToken`, with the values of the tokens that have one. -/
inductive Token
  | string (value : Bytes)
  | number (value : Bytes)
  | true
  | false
  | null
  | colon
  | dash
  | newline
  | indent
  | dedent
  | docStart
  | docEnd
  | anchor (name : Bytes)
  | alias (name : Bytes)
  | eof
  | invalid
  deriving DecidableEq

/-- The levels of indentation stand innermost first. The depth of the brackets, an `i32` of the
source, has no bound here: a text has less than 2^31 of them. Source: `lexer.cxy` `YamlLexer`. -/
structure Lexer where
  rest : Bytes
  indents : List ℕ
  atLineStart : Bool
  pendingDedents : ℕ
  flowDepth : ℤ
  flowContext : Bytes
  pendingDash : Bool

/-- Source: `lexer.cxy` `YamlLexer.init`. -/
def Lexer.init (input : Bytes) : Lexer := ⟨input, [0], true, 0, 0, [], false⟩

/-- A token, an exception, or an assertion that fails. -/
inductive Lexed
  | token (t : Token) (lx : Lexer)
  | raised (lx : Lexer)
  | aborted

/-- What has been scanned in front of a text; none where the scan raises. -/
def Lexer.scanned (lx : Lexer) (r : Option Token × Bytes) : Lexed :=
  match r.1 with
  | some t => .token t { lx with rest := r.2 }
  | none => .raised { lx with rest := r.2 }

/-! ## White space -/

/-- Source: `lexer.cxy` `_skipWhitespace`. -/
def isBlank (c : UInt8) : Bool := c = ch ' ' || c = ch '\t'

/-- Source: `lexer.cxy` `_skipComment`. -/
def skipComment (s : Bytes) : Bytes := s.dropWhile (· ≠ ch '\n')

/-- The rest of the line that begins with `line`, in a comment or in front of one; the first line
that is not empty is kept as a whole. Source: `lexer.cxy` `_skipEmptyLines`. -/
def skipLine (line : Bytes) (inComment : Bool) : Bytes → Bytes
  | [] => []
  | c :: s =>
      if c = ch '\n' then skipLine s false s
      else if inComment then skipLine line true s
      else if isBlank c then skipLine line false s
      else if c = ch '#' then skipLine line true s
      else line

/-- Source: `lexer.cxy` `_skipEmptyLines`. -/
def skipEmptyLines (s : Bytes) : Bytes := skipLine s false s

/-- The number of blanks, at most `max`, the text behind them, and whether there is a tab.
Source: `lexer.cxy` `_measureIndent`. -/
def measureIndent : ℕ → Bytes → ℕ × Bytes × Bool
  | 0, s => (0, s, false)
  | _ + 1, [] => (0, [], false)
  | max + 1, c :: s =>
      if c = ch ' ' then
        let r := measureIndent max s
        (r.1 + 1, r.2)
      else (0, c :: s, c = ch '\t')

/-- The largest indentation that is measured. Source: `lexer.cxy` `_measureIndent`. -/
def maxIndent : ℕ := 1000

/-! ## Quoted strings -/

/-- Source: `lexer.cxy` `_readQuotedString`, the escapes of one character. -/
def unescape (e : UInt8) : Option UInt8 :=
  if e = ch '0' then some 0
  else if e = ch 'a' then some 0x07
  else if e = ch 'b' then some 0x08
  else if e = ch 't' then some (ch '\t')
  else if e = ch 'n' then some (ch '\n')
  else if e = ch 'v' then some 0x0b
  else if e = ch 'f' then some 0x0c
  else if e = ch 'r' then some (ch '\r')
  else if e = ch 'e' then some 0x1b
  else if e = ch ' ' || e = ch '"' || e = ch '\'' || e = ch '\\' || e = ch '/' then some e
  else none

/-- Source: `utils.cxy` `_hexCharToValue`. -/
def hexDigit (c : UInt8) : Option UInt32 :=
  if ch '0' ≤ c && c ≤ ch '9' then some (c - ch '0').toUInt32
  else if ch 'a' ≤ c && c ≤ ch 'f' then some (c - ch 'a' + 10).toUInt32
  else if ch 'A' ≤ c && c ≤ ch 'F' then some (c - ch 'A' + 10).toUInt32
  else none

/-- Source: `utils.cxy` `readHexEscape`. -/
def readHexEscape (digits : Bytes) : Option UInt32 :=
  digits.foldlM (fun v c => (hexDigit c).map fun d => (v <<< 4) ||| d) 0

/-- Source: `lexer.cxy` `_readQuotedString`, behind the opening quote. -/
def readQuotedString (signed : Bool) (quote : UInt8) (acc : Bytes) : Bytes → Option Token × Bytes
  | [] => (none, [])
  | c :: s =>
      if c = quote then (some (.string acc), s)
      else if c = ch '\\' && quote = ch '"' then
        match s with
        | [] => (none, [])
        | e :: s =>
            match unescape e with
            | some d => readQuotedString signed quote (acc ++ putChar signed d) s
            | none =>
                if e = ch 'x' then
                  match s with
                  | a :: b :: s' =>
                      match readHexEscape [a, b] with
                      | some v => readQuotedString signed quote (acc ++ putChar signed v.toUInt8) s'
                      | none => (none, s)
                  | s => (none, s)
                else if e = ch 'u' then
                  match s with
                  | a :: b :: c :: d :: s' =>
                      match readHexEscape [a, b, c, d] with
                      | some v => readQuotedString signed quote (acc ++ appendChar v) s'
                      | none => (none, s)
                  | s => (none, s)
                else if e = ch 'U' then
                  match s with
                  | a :: b :: c :: d :: a' :: b' :: c' :: d' :: s' =>
                      match readHexEscape [a, b, c, d, a', b', c', d'] with
                      | some v => readQuotedString signed quote (acc ++ appendChar v) s'
                      | none => (none, s)
                  | s => (none, s)
                else
                  readQuotedString signed quote
                    (acc ++ putChar signed (ch '\\') ++ putChar signed e) s
      else readQuotedString signed quote (acc ++ putChar signed c) s

/-! ## Plain scalars -/

/-- A plain scalar ends in front of `c`, which `s` stands behind. Source: `lexer.cxy`
`_readScalar`. -/
def scalarEnds (inFlow : Bool) (c : UInt8) (s : Bytes) : Bool :=
  isBlank c || c = ch '\n' || c = ch '#' ||
    inFlow && (c = ch ',' || c = ch '{' || c = ch '}' || c = ch '[' || c = ch ']') ||
    c = ch ':' && (s.head? = some (ch ' ') || s.head? = some (ch '\n'))

/-- What is known of a scalar as a number. Source: `lexer.cxy` `_readScalar`. -/
structure NumberScan where
  isNumber : Bool
  hasDot : Bool
  hasE : Bool
  hasDigit : Bool
  deriving DecidableEq

/-- `acc` is the scalar up to `c`, and `i` the number of characters in front of `c`.
Source: `lexer.cxy` `_readScalar`. -/
def NumberScan.step (acc : Bytes) (i : ℕ) (n : NumberScan) (c : UInt8) : NumberScan :=
  if !n.isNumber then n
  else if c = ch '+' || c = ch '-' then
    let prev := acc[(i - 1) % 2 ^ 32]?
    if i ≠ 0 && prev ≠ some (ch 'e') && prev ≠ some (ch 'E') then { n with isNumber := false }
      else n
  else if ch '0' ≤ c && c ≤ ch '9' then { n with hasDigit := true }
  else if c = ch '.' then { n with isNumber := !n.hasDot, hasDot := true }
  else if c = ch 'e' || c = ch 'E' then
    { n with isNumber := !(n.hasE || !n.hasDigit), hasE := true }
  else { n with isNumber := false }

/-- The characters of a scalar and the text behind it. Source: `lexer.cxy` `_readScalar`. -/
def scanScalar (signed inFlow : Bool) (acc : Bytes) (i : ℕ) (n : NumberScan) :
    Bytes → (Bytes × NumberScan) × Bytes
  | [] => ((acc, n), [])
  | c :: s =>
      if scalarEnds inFlow c s then ((acc, n), c :: s)
      else
        scanScalar signed inFlow (acc ++ putChar signed c) (i + 1)
          (n.step (acc ++ putChar signed c) i c) s

/-- C's `isspace`. Source: `builtins.cxy` `String.trimRight`. -/
def isSpace (c : UInt8) : Bool := c = ch ' ' || (9 ≤ c && c ≤ 13)

/-- What a plain scalar is; none where it is empty. Source: `lexer.cxy` `_readScalar`. -/
def classify (acc : Bytes) (n : NumberScan) : Option Token :=
  if acc = [] then none
  else if n.isNumber && n.hasDigit then some (.number acc)
  else if 5 < acc.length then some (.string acc)
  else if acc = text "null" || acc = text "~" then some .null
  else if acc = text "true" then some .true
  else if acc = text "false" then some .false
  else some (.string acc)

/-- Source: `lexer.cxy` `_readScalar`. -/
def readScalar (signed inFlow : Bool) (s : Bytes) : Option Token × Bytes :=
  let r := scanScalar signed inFlow [] 0 ⟨true, false, false, false⟩ s
  (classify (r.1.1.rdropWhile isSpace) r.1.2, r.2)

/-! ## Block scalars and names -/

/-- The lines of a block scalar. Source: `lexer.cxy` `_readBlockScalar`. -/
def readBlockLines (style : UInt8) (baseIndent : ℕ) :
    ℕ → Bool → Bytes → Bytes → Option Bytes × Bytes
  | 0, _, acc, s => (some acc, s)
  | fuel + 1, isFirstLine, acc, s =>
      if s = [] then (some acc, [])
      else
        let r := measureIndent baseIndent s
        if r.2.2 then (none, r.2.1)
        else if r.2.1.head? = some (ch '\n') then
          readBlockLines style baseIndent fuel isFirstLine (acc ++ [ch '\n']) r.2.1.tail
        else if !isFirstLine && r.1 < baseIndent then (some acc, r.2.1)
        else
          let line := r.2.1.takeWhile (· ≠ ch '\n')
          let joined := if isFirstLine then []
            else if style = ch '|' then [ch '\n']
            else if acc = [] || acc.getLast? ≠ some (ch '\n') then [ch ' '] else []
          readBlockLines style baseIndent fuel false (acc ++ joined ++ line)
            (skipComment r.2.1).tail

/-- Source: `lexer.cxy` `_readBlockScalar`, behind the indicator. -/
def readBlockScalar (style : UInt8) (s : Bytes) : Option Token × Bytes :=
  let chomp := s.head?.filter fun c => c = ch '-' || c = ch '+'
  let s := (skipComment (if chomp = none then s else s.tail)).tail
  if s = [] then (some (.string []), [])
  else
    let r := measureIndent maxIndent s
    if r.2.2 then (none, r.2.1)
    else
      let r := readBlockLines style r.1 (r.2.1.length + 1) true [] r.2.1
      let stripped := fun acc : Bytes => acc.rdropWhile (· = ch '\n')
      (r.1.map fun acc => .string
        (if chomp = some (ch '-') then stripped acc
          else if chomp = none then stripped acc ++ [ch '\n'] else acc), r.2)

/-- Source: `lexer.cxy` `_readName`. -/
def isNameChar (c : UInt8) : Bool :=
  (ch '0' ≤ c && c ≤ ch '9') || (ch 'a' ≤ c && c ≤ ch 'z') || (ch 'A' ≤ c && c ≤ ch 'Z') ||
    c = ch '_' || c = ch '-'

/-- Source: `lexer.cxy` `_readAnchor`, `_readAlias`, behind the indicator. -/
def readName (token : Bytes → Token) (s : Bytes) : Option Token × Bytes :=
  let name := s.takeWhile isNameChar
  (if name = [] then none else some (token name), s.dropWhile isNameChar)

/-! ## Tokens -/

/-- A bracket is opened. Source: `lexer.cxy` `nextToken`. -/
def Lexer.openFlow (lx : Lexer) (c : UInt8) (s : Bytes) : Lexed :=
  .token .indent { lx with
    rest := s, flowDepth := lx.flowDepth + 1, flowContext := c :: lx.flowContext
    pendingDash := c = ch '[' }

/-- A bracket is closed. Source: `lexer.cxy` `nextToken`, `Vector.pop`. -/
def Lexer.closeFlow (lx : Lexer) (s : Bytes) : Lexed :=
  match lx.flowContext with
  | [] => .aborted
  | _ :: context =>
      .token .dedent { lx with rest := s, flowDepth := lx.flowDepth - 1, flowContext := context }

/-- The token behind the white space of a line; `again` is the call of `nextToken` behind a comment
and, in flow style, behind a line end. Source: `lexer.cxy` `nextToken`. -/
def scanToken (signed : Bool) (again : Lexer → Lexed) (lx : Lexer) : Lexed :=
  let inFlow := decide (0 < lx.flowDepth)
  match lx.rest.dropWhile isBlank with
  | [] => .token .eof { lx with rest := [] }
  | c :: s =>
      let scalar := lx.scanned (readScalar signed inFlow (c :: s))
      if c = ch '\n' then
        let lx := { lx with rest := s, atLineStart := true }
        if inFlow then again lx else .token .newline lx
      else if c = ch '#' then again { lx with rest := skipComment (c :: s) }
      else if c = ch '-' then
        if s.take 2 = text "--" then .token .docStart { lx with rest := s.drop 2 }
        else if s.head? = some (ch ' ') || s.head? = some (ch '\n') then
          .token .dash { lx with rest := s }
        else scalar
      else if c = ch '.' then
        if s.take 2 = text ".." then .token .docEnd { lx with rest := s.drop 2 } else scalar
      else if c = ch ':' then
        if inFlow || s.head? = some (ch ' ') || s.head? = some (ch '\n') then
          .token .colon { lx with rest := s }
        else scalar
      else if c = ch '"' || c = ch '\'' then lx.scanned (readQuotedString signed c [] s)
      else if c = ch '{' || c = ch '[' then lx.openFlow c s
      else if c = ch '}' || c = ch ']' then lx.closeFlow s
      else if c = ch ',' then
        if inFlow then
          match lx.flowContext with
          | [] => .aborted
          | context :: _ =>
              .token (if context = ch '[' then .dash else .newline) { lx with rest := s }
        else scalar
      else if c = ch '|' || c = ch '>' then lx.scanned (readBlockScalar c s)
      else if c = ch '&' then lx.scanned (readName .anchor s)
      else if c = ch '*' then lx.scanned (readName .alias s)
      else scalar

/-- The largest number of levels that a line closes with a `Dedent` for each: the literal that the
counter starts from makes it an `i8`. -/
def maxClosed : ℕ := 127

/-- The token in front of a line that is indented by `indent`; `inLine` is for a line at the level
of the one before. Source: `lexer.cxy` `nextToken`. -/
def Lexer.indentTo (lx : Lexer) (indent : ℕ) (inLine : Lexer → Lexed) : Lexed :=
  let current := lx.indents.headD 0
  if current < indent then
    .token .indent { lx with indents := indent :: lx.indents, atLineStart := false }
  else if indent < current then
    -- The outermost level stays.
    let kept := lx.indents.dropLast.dropWhile (indent < ·) ++ lx.indents.getLast?.toList
    let dedentCount := Int8.ofNat (lx.indents.length - kept.length)
    if kept.headD 0 ≠ indent then .raised { lx with indents := kept }
    else .token .dedent { lx with
      indents := kept, atLineStart := false
      pendingDedents :=
        if 1 < dedentCount then (dedentCount.toInt - 1).toNat else lx.pendingDedents }
  else inLine { lx with atLineStart := false }

/-- The fuel bounds the calls in a row. Source: `lexer.cxy` `nextToken`. -/
def nextToken (signed : Bool) : ℕ → Lexer → Lexed
  | 0, lx => .raised lx
  | fuel + 1, lx =>
      if lx.pendingDash then .token .dash { lx with pendingDash := false }
      else if 0 < lx.pendingDedents then
        .token .dedent { lx with pendingDedents := lx.pendingDedents - 1 }
      else
        let lx := if lx.atLineStart then { lx with rest := skipEmptyLines lx.rest } else lx
        if lx.rest = [] then
          if 1 < lx.indents.length then .token .dedent { lx with indents := lx.indents.tail }
          else .token .eof lx
        else if lx.atLineStart && lx.flowDepth = 0 then
          let r := measureIndent maxIndent lx.rest
          let lx := { lx with rest := r.2.1 }
          if r.2.2 then .raised lx
          else lx.indentTo r.1 (scanToken signed (nextToken signed fuel))
        else scanToken signed (nextToken signed fuel) lx

/-- Each call but the first one is behind a character, so that the fuel is enough.
Source: `parser.cxy` `_nextToken`. -/
def lexNext (signed : Bool) (lx : Lexer) : Option (Token × Lexer) :=
  match nextToken signed (lx.rest.length + 1) lx with
  | .token t lx => some (t, lx)
  | .raised lx => some (.invalid, lx)
  | .aborted => none

end CxyCompiler.Stdlib.Yaml
