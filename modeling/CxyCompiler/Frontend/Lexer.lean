import CxyCompiler.Core.Escapes

/-!
# The lexer (`lang/frontend/lexer.c`)

A lexer reads the buffer on top of a stack of buffers; where a buffer ends, the one below goes on. A
loop that runs on without end has no result: the functions take the number of rounds that a loop may
make.

* `Lexer` — the buffer, the ones below, and those that have been left.
* `loopWhile` — the loops that pass over characters; `stringLoop` and `charLoop` do not ask whether
  the input has ended.
* `lexToken`, `advanceLexer` — the next token.
-/

namespace CxyCompiler.Frontend.Lexing

open CxyCompiler.Core CxyCompiler.Lib.Numeral

/-! ## Tokens -/

/-- Source: `token.h` `TokenTag`; the keywords have one tag each, which is their word. -/
inductive TokenTag
  | lParen | rParen | lBracket | rBracket | lBrace | rBrace
  | at | hash | lNot | bNot | dot | dotDot | elipsis | question | comma | colon | dColon | semicolon
  | assign | equal | notEqual | fatArrow | thinArrow
  | less | lessEqual | shl | shlEqual | greater | greaterEqual | shr | shrEqual
  | plus | minus | mult | div | mod | bAnd | bXor | bOr | lAnd | lOr | plusPlus | minusMinus
  | plusEqual | minusEqual | multEqual | divEqual | modEqual | bAndEqual | bAndDot | bXorEqual
  | bOrEqual | quote | substitute | indexExpr | astMacroAccess | define | bangColon
  | keyword (word : String)
  | ident | intLiteral | floatLiteral | charLiteral | stringLiteral
  | lString | rString | lStrFmt | eof | error
deriving DecidableEq, Repr

/-- Source: `token.h` `KEYWORD_LIST`. -/
def keywordList : List String :=
  ["virtual", "auto", "true", "false", "null", "if", "else", "match", "for", "in", "is", "while",
    "break", "return", "yield", "continue", "func", "var", "const", "type", "native", "extern",
    "exception", "struct", "enum", "pub", "opaque", "catch", "raise", "async", "launch", "ptrof",
    "await", "delete", "discard", "switch", "case", "default", "defer", "macro", "void", "string",
    "range", "module", "package", "import", "export", "include", "cDefine", "cInclude", "cSources",
    "as", "asm", "from", "unsafe", "interface", "this", "This", "super", "class", "defined", "test",
    "plugin", "new", "__cc", "bool", "wchar", "char", "u8", "u16", "u32", "u64", "u128", "i8",
    "i16", "i32", "i64", "i128", "f32", "f64"]

/-- The characters of a text. -/
def text (s : String) : List UInt8 := s.toList.map ascii

/-- Source: `log.h` `FilePos`. -/
structure FilePos where
  row : ℕ
  col : ℕ
  byteOffset : ℕ
deriving DecidableEq, Repr

/-- What a token stands for, where it stands for anything: the number of an integer literal, the
text that a floating-point literal is read from, a character, or the message of an error. -/
inductive TokenVal
  | none
  | int (iVal : U128)
  | float (ptr : List UInt8)
  | char (cVal : UInt32)
  | message (errMsg : String)
deriving DecidableEq, Repr

/-- `buffer` is the address of a buffer; `start` and `stop` are the ends of the location.
Source: `token.h` `Token`. -/
structure Token where
  tag : TokenTag
  val : TokenVal
  buffer : ℕ
  fileName : List UInt8
  start : FilePos
  stop : FilePos
deriving DecidableEq, Repr

/-! ## Buffers -/

/-- `fileSize` is the length of the data, behind which there is a NUL. Source: `lexer.h`
`LexerBuffer`. -/
structure LexerBuffer where
  address : ℕ
  fileName : List UInt8
  fileData : List UInt8
  filePos : FilePos
  baseOffset : ℕ
deriving DecidableEq, Repr

/-- Source: `lexer.h` `lxEnterStringExpr`, … -/
structure Flags where
  enterStringExpr : Bool
  continueStringExpr : Bool
  exitStringExpr : Bool
  returnLStrFmt : Bool
  maybeNotFloat : Bool
deriving DecidableEq, Repr

/-- `prev` are the buffers below, `cleanup` those that have been left. Source: `lexer.h` `Lexer`. -/
structure Lexer where
  buffer : LexerBuffer
  prev : List LexerBuffer
  cleanup : List LexerBuffer
  flags : Flags
deriving DecidableEq, Repr

/-- Why there is no result: an assertion fails, or a loop makes more rounds than it may. -/
inductive Halt
  | aborted
  | rounds
deriving DecidableEq, Repr

/-- The character that stands for the end of the input, `(char)EOF`. -/
def EoF : UInt8 := 0xFF

namespace LexerBuffer

/-- What is left of a buffer. -/
def rest (b : LexerBuffer) : List UInt8 := b.fileData.drop b.filePos.byteOffset

def isEof (b : LexerBuffer) : Bool := b.fileData.length ≤ b.filePos.byteOffset

/-- The position behind a character. -/
def skip (b : LexerBuffer) (c : UInt8) : LexerBuffer :=
  { b with filePos :=
      if c = ascii '\n' then ⟨b.filePos.row + 1, 1, b.filePos.byteOffset + 1⟩
      else ⟨b.filePos.row, b.filePos.col + 1, b.filePos.byteOffset + 1⟩ }

end LexerBuffer

namespace Lexer

/-- Source: `lexer.c` `isEofReached`. -/
def isEofReached (L : Lexer) : Bool := L.buffer.isEof

/-- What is at the pointer that is returned; at the end of the input it points to a single `EoF`.
Source: `lexer.c` `getCurPtr`. -/
def getCurPtr (L : Lexer) : List UInt8 := if L.isEofReached then [EoF] else L.buffer.rest

/-- Source: `lexer.c` `getCurChar`. -/
def getCurChar (L : Lexer) : UInt8 := L.getCurPtr.headD 0

/-- In the buffer below, the character behind its current one is looked at. Source: `lexer.c`
`peekNextChar_`. -/
def peekNextChar_ (b : LexerBuffer) : List LexerBuffer → UInt8
  | [] =>
      if b.fileData.length = 1 + b.filePos.byteOffset then EoF
      else b.fileData.getD (b.filePos.byteOffset + 1) 0
  | p :: prev =>
      if b.fileData.length = 1 + b.filePos.byteOffset then peekNextChar_ p prev
      else b.fileData.getD (b.filePos.byteOffset + 1) 0

/-- Source: `lexer.c` `peekNextChar`. -/
def peekNextChar (L : Lexer) : UInt8 := peekNextChar_ L.buffer L.prev

/-- Source: `lexer.c` `popBuffer`. -/
def popBuffer (L : Lexer) : Lexer :=
  match L.prev with
  | [] => L
  | p :: prev => { L with buffer := p, prev := prev, cleanup := L.buffer :: L.cleanup }

/-- Source: `lexer.c` `skipChar`. -/
def skipChar (L : Lexer) : Lexer :=
  let L := { L with buffer := L.buffer.skip L.getCurChar }
  if L.isEofReached then L.popBuffer else L

/-- Source: `lexer.c` `acceptChar`; the lexer behind the character, where it is there. -/
def acceptChar (L : Lexer) (c : Char) : Option Lexer :=
  if !L.isEofReached && L.getCurChar = ascii c then some L.skipChar else none

/-- The buffer at an address. -/
def deref (L : Lexer) (address : ℕ) : LexerBuffer :=
  ((L.buffer :: (L.prev ++ L.cleanup)).find? (·.address = address)).getD L.buffer

/-- The position in the buffer on top. -/
def pos (L : Lexer) : FilePos := L.buffer.filePos

end Lexer

/-! ## Classes of characters -/

/-- Source: `isalpha` of the C locale. -/
def isalpha (c : UInt8) : Bool :=
  (ascii 'a' ≤ c && c ≤ ascii 'z') || (ascii 'A' ≤ c && c ≤ ascii 'Z')

/-- Source: `isalnum` of the C locale. -/
def isalnum (c : UInt8) : Bool := isalpha c || isdigit c

/-- Source: `ispunct` of the C locale. -/
def ispunct (c : UInt8) : Bool := 33 ≤ c && c ≤ 126 && !isalnum c

/-- Source: `lexer.c` `isSpaceOrPunctuation`. -/
def isSpaceOrPunctuation (c : UInt8) : Bool := c ≠ ascii '_' && (isspace c || ispunct c)

/-! ## Making tokens -/

/-- A position in the whole file. -/
def FilePos.absolute (p : FilePos) (base : ℕ) : FilePos :=
  { p with byteOffset := p.byteOffset + base }

/-- Source: `lexer.c` `makeToken`. -/
def makeToken (L : Lexer) (start : FilePos) (tag : TokenTag) (val : TokenVal) : Token :=
  ⟨tag, val, L.buffer.address, L.buffer.fileName, start.absolute L.buffer.baseOffset,
    L.pos.absolute L.buffer.baseOffset⟩

/-- Source: `lexer.c` `makeToken__`. -/
def makeTokenTo (L : Lexer) (buffer : ℕ) (start stop : FilePos) (tag : TokenTag) : Token :=
  ⟨tag, .none, buffer, L.buffer.fileName, start.absolute (L.deref buffer).baseOffset,
    stop.absolute (L.deref buffer).baseOffset⟩

/-- Source: `lexer.c` `makeToken_`. -/
def makeTokenIn (L : Lexer) (buffer : ℕ) (start : FilePos) (tag : TokenTag) : Token :=
  makeTokenTo L buffer start (L.deref buffer).filePos tag

/-- Source: `lexer.c` `makeIntLiteral`. -/
def makeIntLiteral (L : Lexer) (start : FilePos) (iVal : U128) : Token :=
  makeToken L start .intLiteral (.int iVal)

/-- Source: `lexer.c` `makeFloatLiteral`; the value is what `strtod` makes of `ptr`. -/
def makeFloatLiteral (L : Lexer) (start : FilePos) (ptr : List UInt8) : Token :=
  makeToken L start .floatLiteral (.float ptr)

/-- The message is logged with the location of the token. Source: `lexer.c` `makeInvalidToken`. -/
def makeInvalidToken (L : Lexer) (start : FilePos) (errMsg : String) : Token :=
  makeToken L start .error (.message errMsg)

/-! ## Passing over characters -/

/-- `while (test(lexer)) skipChar(lexer);`. -/
def loopWhile (test : Lexer → Bool) : ℕ → Lexer → Except Halt Lexer
  | 0, _ => .error .rounds
  | fuel + 1, L => if test L then loopWhile test fuel L.skipChar else .ok L

/-- Source: `lexer.c` `skipUntilSpaceOrPunctuation`. -/
def skipUntilSpaceOrPunctuation (fuel : ℕ) (L : Lexer) : Except Halt Lexer :=
  loopWhile (fun L => !L.isEofReached && !isSpaceOrPunctuation L.getCurChar) fuel L

/-- Source: `lexer.c` `skipSpaces`. -/
def skipSpaces (fuel : ℕ) (L : Lexer) : Except Halt Lexer :=
  loopWhile (fun L => !L.isEofReached && isspace L.getCurChar) fuel L

/-- Source: `lexer.c` `skipSingleLineComment`. -/
def skipSingleLineComment (fuel : ℕ) (L : Lexer) : Except Halt Lexer :=
  loopWhile (fun L => !L.isEofReached && L.getCurChar ≠ ascii '\n') fuel L

/-- The characters of a class that the end of the input is not in. -/
def skipClass (p : UInt8 → Bool) (fuel : ℕ) (L : Lexer) : Except Halt Lexer :=
  loopWhile (fun L => p L.getCurChar) fuel L

/-- The lexer behind the comment, and whether the comment has been closed. Source: `lexer.c`
`skipMultiLineComment`. -/
def skipMultiLineComment : ℕ → ℕ → Lexer → Except Halt (Bool × Lexer)
  | 0, _, _ => .error .rounds
  | fuel + 1, nest, L =>
      if nest = 0 || L.isEofReached then .ok (nest = 0, L)
      else
        match L.acceptChar '/' with
        | some L =>
            match L.acceptChar '*' with
            | some L => skipMultiLineComment fuel (nest + 1) L
            | none => skipMultiLineComment fuel nest L
        | none =>
            match L.acceptChar '*' with
            | some L =>
                match L.acceptChar '/' with
                | some L => skipMultiLineComment fuel (nest - 1) L
                | none => skipMultiLineComment fuel nest L
            | none => skipMultiLineComment fuel nest L.skipChar

/-- Source: `lexer.c` `multilineString`, the loop. -/
def multilineLoop (buffer : ℕ) (start : FilePos) : ℕ → Lexer → Except Halt (Token × Lexer)
  | 0, _ => .error .rounds
  | fuel + 1, L =>
      if L.isEofReached then
        .ok (makeInvalidToken L start "unterminated multiline string", L)
      else
        match L.acceptChar '"' with
        | some L' =>
            if L'.getCurChar = ascii '"' && L'.peekNextChar = ascii '"' then
              let L'' := L'.skipChar.skipChar
              .ok (makeTokenTo L'' buffer start L.pos .stringLiteral, L'')
            else multilineLoop buffer start fuel L'
        | none => multilineLoop buffer start fuel L.skipChar

/-- Source: `lexer.c` `multilineString`. -/
def multilineString (fuel : ℕ) (L : Lexer) : Except Halt (Token × Lexer) :=
  let L := L.skipChar
  multilineLoop L.buffer.address L.pos fuel L

/-! ## Strings and characters -/

/-- The loop behind `lexerLexString`; a token where an interpolation begins. -/
def stringLoop (parsingStringLiteral : Bool) (buffer : ℕ) (start : FilePos) :
    ℕ → Lexer → Except Halt (Option Token × Lexer)
  | 0, _ => .error .rounds
  | fuel + 1, L =>
      if L.getCurChar = ascii '"' then .ok (none, L)
      else
        match L.acceptChar '\n' with
        | some L =>
            match L.acceptChar '\\' with
            | some L => stringLoop parsingStringLiteral buffer start fuel L
            | none => .ok (none, L)
        | none =>
            if L.getCurChar = ascii '\\' then
              stringLoop parsingStringLiteral buffer start fuel L.skipChar.skipChar
            else if !parsingStringLiteral && L.flags.continueStringExpr &&
                L.getCurChar = ascii '\x7b' && L.peekNextChar ≠ ascii '\x7b' then
              let tok := makeTokenTo L buffer start L.pos .stringLiteral
              .ok (some tok, { L with flags.returnLStrFmt := true }.skipChar)
            else stringLoop parsingStringLiteral buffer start fuel L.skipChar

/-- Source: `lexer.c` `advanceLexer`, from `lexerLexString` on. -/
def lexString (fuel : ℕ) (parsingStringLiteral : Bool) (buffer : ℕ) (L : Lexer) :
    Except Halt (Token × Lexer) := do
  let start := L.pos
  let r ← stringLoop parsingStringLiteral buffer start fuel L
  match r.1 with
  | some tok => .ok (tok, r.2)
  | none =>
      let L := if parsingStringLiteral then r.2
        else { r.2 with flags.continueStringExpr := false, flags.exitStringExpr := true }
      match L.acceptChar '"' with
      | some L' => .ok (makeTokenTo L' buffer start L.pos .stringLiteral, L')
      | none => .ok (makeInvalidToken L start "unterminated string literal", L)

/-- The characters up to the quote or the end of the line, and how many they are. -/
def charLoop : ℕ → ℕ → Lexer → Except Halt (ℕ × Lexer)
  | 0, _, _ => .error .rounds
  | fuel + 1, charCount, L =>
      if L.getCurChar = ascii '\'' || L.getCurChar = ascii '\n' then .ok (charCount, L)
      else if L.getCurChar = ascii '\\' then charLoop fuel (charCount + 2) L.skipChar.skipChar
      else charLoop fuel (charCount + 1) L.skipChar

/-- `stray` is the distance from the literal to `EoF` or into another buffer, which is taken for its
length where the buffer ends behind it. Source: `lexer.c` `advanceLexer`, character literals. -/
def lexChar (stray fuel : ℕ) (start : FilePos) (L : Lexer) : Except Halt (Token × Lexer) := do
  let ptr := L.getCurPtr
  let begins := L
  let r ← charLoop fuel 0 L
  let token := makeToken r.2 start .charLiteral (.char 0)
  match r.2.acceptChar '\'' with
  | some L =>
      let n := if L.isEofReached || L.buffer.address ≠ begins.buffer.address then stray
        else L.pos.byteOffset - begins.pos.byteOffset - 1
      match convertEscapeSeq ptr n with
      | none => .error .aborted
      | some (consumed, cVal) =>
          if consumed ≠ r.1 then .ok (makeInvalidToken L start "invalid character literal", L)
          else .ok ({ token with val := .char cVal }, L)
  | none => .ok (token, r.2)

/-! ## Words and numbers -/

/-- Source: `lexer.c` `advanceLexer`, identifiers. -/
def lexIdent (fuel : ℕ) (buffer : ℕ) (L : Lexer) : Except Halt (Token × Lexer) := do
  let start := (L.deref buffer).filePos
  let L ← skipClass (fun c => c = ascii '_' || isalnum c) fuel L.skipChar
  let b := L.deref buffer
  let name := (b.fileData.drop start.byteOffset).take (b.filePos.byteOffset - start.byteOffset)
  match keywordList.find? (fun word => text word = name) with
  | some word => .ok (makeToken L start (.keyword word) .none, L)
  | none => .ok (makeTokenIn L buffer start .ident, L)

/-- A literal behind its prefix. Source: `lexer.c` `advanceLexer`, the branches of `0b`, `0x` and
`0o`. -/
def lexPrefixed (base : ℕ) (p : UInt8 → Bool) (errMsg : String) (fuel : ℕ) (start : FilePos)
    (L : Lexer) : Except Halt (Token × Lexer) := do
  let ptr := L.getCurPtr
  let L ← skipClass p fuel L
  if !L.isEofReached && !isSpaceOrPunctuation L.getCurChar then
    let L ← skipUntilSpaceOrPunctuation fuel L
    .ok (makeInvalidToken L start errMsg, L)
  else .ok (makeIntLiteral L start (strtou128 ptr base).value, L)

def lexBinary (fuel : ℕ) (start : FilePos) (L : Lexer) : Except Halt (Token × Lexer) :=
  lexPrefixed 2 (fun c => c = ascii '0' || c = ascii '1')
    "binary digit contains invalid characters" fuel start L

def lexHexadecimal (fuel : ℕ) (start : FilePos) (L : Lexer) : Except Halt (Token × Lexer) :=
  lexPrefixed 16 isxdigit "hexadecimal digit contains invalid characters" fuel start L

def lexOctal (fuel : ℕ) (start : FilePos) (L : Lexer) : Except Halt (Token × Lexer) :=
  lexPrefixed 8 isodigit "octal digit contains invalid characters" fuel start L

/-- The fraction and the exponent of a number. -/
def skipFraction (fuel : ℕ) (L : Lexer) : Except Halt Lexer := do
  let L ← skipClass isdigit fuel L.skipChar
  match L.acceptChar 'e' with
  | none => .ok L
  | some L =>
      let L := match L.acceptChar '+' with
        | some L => L
        | none => (L.acceptChar '-').getD L
      skipClass isdigit fuel L

/-- Digits, the first of which has been passed over; `ptr` is where they begin. -/
def lexDecimal (fuel : ℕ) (start : FilePos) (ptr : List UInt8) (L : Lexer) :
    Except Halt (Token × Lexer) := do
  let L ← skipClass isdigit fuel L
  if L.getCurChar = ascii '.' && isdigit L.peekNextChar && L.peekNextChar ≠ ascii '.' &&
      L.peekNextChar ≠ ascii '[' && !L.flags.maybeNotFloat then
    let L ← skipFraction fuel L
    .ok (makeFloatLiteral L start ptr, L)
  else .ok (makeIntLiteral L start (strtou128 ptr 10).value, L)

/-- Source: `lexer.c` `advanceLexer`, numbers. -/
def lexNumber (fuel : ℕ) (buffer : ℕ) (L : Lexer) : Except Halt (Token × Lexer) :=
  let start := (L.deref buffer).filePos
  let wasZero := L.getCurChar = ascii '0'
  let ptr := L.getCurPtr
  let L := L.skipChar
  if wasZero then
    match L.acceptChar 'b' with
    | some L => lexBinary fuel start L
    | none =>
        match L.acceptChar 'x' with
        | some L => lexHexadecimal fuel start L
        | none =>
            match L.acceptChar 'o' with
            | some L => lexOctal fuel start L
            | none => lexDecimal fuel start ptr L
  else lexDecimal fuel start ptr L

/-! ## Operators -/

/-- The token behind a character, and the characters that make it another one. -/
inductive Cascade
  | node (tag : TokenTag) (branches : List (Char × Cascade))

mutual

/-- The longest operator of a cascade. -/
def Cascade.accept : Cascade → Lexer → TokenTag × Lexer
  | .node tag branches, L => (acceptAny branches L).getD (tag, L)

/-- The first branch whose character is there. -/
def acceptAny : List (Char × Cascade) → Lexer → Option (TokenTag × Lexer)
  | [], _ => none
  | (c, k) :: branches, L =>
      match L.acceptChar c with
      | some L => some (k.accept L)
      | none => acceptAny branches L

end

/-- Source: `lexer.c` `advanceLexer`, up to `?`. -/
def operators₁ : List (Char × Cascade) :=
  [('(', .node .lParen []), (')', .node .rParen []), ('[', .node .lBracket []),
    (']', .node .rBracket []), ('\x7b', .node .lBrace []),
    ('.', .node .dot [('.', .node .dotDot [('.', .node .elipsis [])]), ('[', .node .indexExpr [])]),
    (',', .node .comma []), (':', .node .colon [(':', .node .dColon [])]),
    (';', .node .semicolon []),
    ('#', .node .hash [('\x7b', .node .substitute []), ('.', .node .astMacroAccess []),
      ('#', .node .define [])]),
    ('\x60', .node .quote []), ('@', .node .at []), ('?', .node .question [])]

/-- Source: `lexer.c` `advanceLexer`, from `!` to `=`. -/
def operators₂ : List (Char × Cascade) :=
  [('!', .node .lNot [('=', .node .notEqual []), (':', .node .bangColon [])]),
    ('~', .node .bNot []),
    ('+', .node .plus [('+', .node .plusPlus []), ('=', .node .plusEqual [])]),
    ('-', .node .minus [('-', .node .minusMinus []), ('=', .node .minusEqual []),
      ('>', .node .thinArrow [])]),
    ('*', .node .mult [('=', .node .multEqual [])]),
    ('%', .node .mod [('=', .node .modEqual [])]),
    ('&', .node .bAnd [('&', .node .lAnd []), ('=', .node .bAndEqual []),
      ('.', .node .bAndDot [])]),
    ('|', .node .bOr [('|', .node .lOr []), ('=', .node .bOrEqual [])]),
    ('^', .node .bXor [('=', .node .bXorEqual [])]),
    ('<', .node .less [('<', .node .shl [('=', .node .shlEqual [])]), ('=', .node .lessEqual [])]),
    ('>', .node .greater [('>', .node .shr [('=', .node .shrEqual [])]),
      ('=', .node .greaterEqual [])]),
    ('=', .node .assign [('=', .node .equal []), ('>', .node .fatArrow [])])]

/-! ## The next token -/

/-- A round of the loop of `advanceLexer` yields a token, or nothing behind a comment. -/
abbrev Round := Option Token × Lexer

/-- The token of an operator; behind a `.` a number is not taken for a floating-point literal. -/
def operatorToken (start : FilePos) (r : TokenTag × Lexer) : Token × Lexer :=
  (makeToken r.2 start r.1 .none,
    if r.1 = .dot then { r.2 with flags.maybeNotFloat := true } else r.2)

/-- Comments and divisions, behind the `/`. -/
def lexSlash (fuel : ℕ) (start : FilePos) (L : Lexer) : Except Halt Round :=
  match L.acceptChar '/' with
  | some L => do
      let L ← skipSingleLineComment fuel L
      .ok (none, L)
  | none =>
      match L.acceptChar '*' with
      | some L => do
          let r ← skipMultiLineComment fuel 1 L
          if r.1 then .ok (none, r.2)
          else .ok (some (makeInvalidToken r.2 start "unterminated block comment"), r.2)
      | none =>
          match L.acceptChar '=' with
          | some L => .ok (some (makeToken L start .divEqual .none), L)
          | none => .ok (some (makeToken L start .div .none), L)

/-- The beginning of an interpolated string, at its `f`. -/
def lexFString (start : FilePos) (L : Lexer) : Token × Lexer :=
  let L := L.skipChar
  if L.flags.enterStringExpr || L.flags.continueStringExpr then
    (makeInvalidToken L start "unsupported nesting of string expressions", L)
  else
    let L := { L with flags.enterStringExpr := true }
    (makeToken L start .lString .none, L)

/-- A result that is a token. -/
def toRound (r : Except Halt (Token × Lexer)) : Except Halt Round :=
  r.map fun t => (some t.1, t.2)

/-- Everything that begins with a letter, a digit or anything else. -/
def lexWord (fuel : ℕ) (start : FilePos) (L : Lexer) : Except Halt Round :=
  if L.getCurChar = ascii 'f' && L.peekNextChar = ascii '"' then toRound (.ok (lexFString start L))
  else if L.getCurChar = ascii '_' || isalpha L.getCurChar then
    toRound (lexIdent fuel L.buffer.address L)
  else if isdigit L.getCurChar then toRound (lexNumber fuel L.buffer.address L)
  else
    -- the position that the source gives to the error is that of its own `begin`
    toRound (.ok (makeInvalidToken L.skipChar L.pos "invalid token", L.skipChar))

/-- A token that begins at a character. Source: `lexer.c` `advanceLexer`. -/
def lexToken (stray fuel : ℕ) (start : FilePos) (L : Lexer) : Except Halt Round :=
  match acceptAny operators₁ L with
  | some r => toRound (.ok (operatorToken start r))
  | none =>
  match L.acceptChar '\x7d' with
  | some L' =>
      if L'.flags.continueStringExpr then toRound (lexString fuel false L.buffer.address L')
      else toRound (.ok (makeToken L' start .rBrace .none, L'))
  | none =>
  match acceptAny operators₂ L with
  | some r => toRound (.ok (operatorToken start r))
  | none =>
  match L.acceptChar '/' with
  | some L => lexSlash fuel start L
  | none =>
  match L.acceptChar '"' with
  | some L' =>
      if L'.getCurChar = ascii '"' && L'.peekNextChar = ascii '"' then
        toRound (multilineString fuel L'.skipChar)
      else toRound (lexString fuel true L.buffer.address L')
  | none =>
  match L.acceptChar '\'' with
  | some L => toRound (lexChar stray fuel start L)
  | none => lexWord fuel start L

/-- `while (isEofReached(lexer) && lexer->buffer->prev)`. -/
def leaveBuffers : ℕ → Lexer → Except Halt Lexer
  | 0, _ => .error .rounds
  | fuel + 1, L =>
      if L.isEofReached && !L.prev.isEmpty then do
        let L ← skipSpaces fuel L.popBuffer
        leaveBuffers fuel L
      else .ok L

/-- One round of the loop of `advanceLexer`. -/
def lexRound (stray fuel : ℕ) (L : Lexer) : Except Halt Round :=
  if L.flags.enterStringExpr then
    let L := { L with flags.enterStringExpr := false, flags.continueStringExpr := true }.skipChar
    toRound (lexString fuel false L.buffer.address L)
  else do
    let L ← skipSpaces fuel L
    let start := L.pos
    let L ← leaveBuffers fuel L
    if L.isEofReached then .ok (some (makeToken L start .eof .none), L)
    else lexToken stray fuel start L

/-- The loop of `advanceLexer`. -/
def lexLoop (stray rounds : ℕ) : ℕ → Lexer → Except Halt (Token × Lexer)
  | 0, _ => .error .rounds
  | fuel + 1, L => do
      let r ← lexRound stray rounds L
      match r.1 with
      | some token => .ok (token, r.2)
      | none => lexLoop stray rounds fuel r.2

/-- Source: `lexer.c` `advanceLexer`; no loop makes more than `fuel` rounds. -/
def advanceLexer (stray fuel : ℕ) (L : Lexer) : Except Halt (Token × Lexer) :=
  if L.flags.exitStringExpr then
    let L := { L with flags.exitStringExpr := false }
    .ok (makeToken L L.pos .rString .none, L)
  else if L.flags.returnLStrFmt then
    let L := { L with flags.returnLStrFmt := false }
    .ok (makeToken L L.pos .lStrFmt .none, L)
  else
    let L :=
      if L.flags.maybeNotFloat && (!isdigit L.getCurChar && L.getCurChar ≠ ascii '.') then
        { L with flags.maybeNotFloat := false }
      else L
    lexLoop stray fuel fuel L

/-- Source: `lexer.c` `newOffsetLexer`. -/
def newOffsetLexer (fileName fileData : List UInt8) (offset : FilePos) : Lexer :=
  ⟨⟨0, fileName, fileData, { offset with byteOffset := 0 }, offset.byteOffset⟩, [], [],
    ⟨false, false, false, false, false⟩⟩

/-- Source: `lexer.c` `newLexer`. -/
def newLexer (fileName fileData : List UInt8) : Lexer :=
  newOffsetLexer fileName fileData ⟨1, 1, 0⟩

/-- A file is pushed at an address of its own. Source: `lexer.c` `lexerPush`. -/
def lexerPush (L : Lexer) (fileName fileData : List UInt8) : Lexer :=
  { L with
    buffer := ⟨(L.buffer :: (L.prev ++ L.cleanup)).length, fileName, fileData, ⟨1, 1, 0⟩, 0⟩
    prev := L.buffer :: L.prev }

end CxyCompiler.Frontend.Lexing
