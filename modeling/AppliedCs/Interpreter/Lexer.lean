import AppliedCs.Interpreter.Token

namespace Interpreter

-- What the lexer asks the standard library about characters and numbers.
class Unicode where
  isAlphabetic : Char → Bool
  isAlphanumeric : Char → Bool
  parseF64 : List Char → Option F64
  isAlphabetic_ascii : ∀ c, c.val ≤ 0x7F → isAlphabetic c = c.isAlpha
  isAlphanumeric_ascii : ∀ c, c.val ≤ 0x7F → isAlphanumeric c = c.isAlphanum

-- Only digits are ever parsed.
def parseI64 (digits : List Char) : Option Int64 :=
  let n := Nat.ofDigitChars 10 digits 0
  if digits ≠ [] ∧ n ≤ Int64.maxValue.toInt then some (.ofNat n) else none

-- The top of the stack of indents is its first element.
structure Lexer where
  source : List Char
  tokens : List Token := []
  start : ℕ := 0
  current : ℕ := 0
  line : ℕ := 1
  column : ℕ := 1
  indentStack : List ℕ := [0]
  atLineStart : Bool := true
  parenDepth : ℕ := 0
  deriving DecidableEq

def byteLength : List Char → ℕ
  | [] => 0
  | c :: text => c.utf8Size + byteLength text

namespace Lexer

def new (source : String) : Lexer :=
  { source := source.toList }

variable (s : Lexer)

def isAtEnd : Bool :=
  s.current ≥ s.source.length

def advance : Result (Char × Lexer) :=
  match s.source[s.current]? with
  | none => .error .panic
  | some c => .ok (c, { s with current := s.current + 1, column := s.column + 1 })

def peek : Char :=
  s.source[s.current]?.getD '\x00'

def peekNext : Option Char :=
  s.source[s.current + 1]?

-- The lexer behind the character if it is the expected one.
def matchChar (expected : Char) : Option Lexer :=
  if s.isAtEnd ∨ s.source[s.current]? ≠ some expected then none
  else some { s with current := s.current + 1, column := s.column + 1 }

-- `self.source[self.start..self.current]`
def lexeme : Result (List Char) :=
  if s.start ≤ s.current ∧ s.current ≤ s.source.length then
    .ok ((s.source.take s.current).drop s.start)
  else .error .panic

def emit (tokenType : TokenType) : Result Lexer := do
  let lexeme ← s.lexeme
  if byteLength lexeme ≤ s.column then
    let span := ⟨s.start, s.current, s.line, s.column - byteLength lexeme⟩
    return { s with tokens := s.tokens ++ [⟨tokenType, .ofList lexeme, span⟩] }
  else .error .panic

def error {α : Type} (s : Lexer) (message : String) : Result α :=
  .error (.error (.lexer message s.line s.column))

def advanceWhile (p : Char → Bool) : ℕ → Lexer → Result Lexer
  | 0, _ => .error .limit
  | rounds + 1, s =>
    if s.isAtEnd then .ok s
    else if p s.peek then do
      let r ← s.advance
      advanceWhile p rounds r.2
    else .ok s

-- Every round of a loop takes a character.
def rounds : ℕ :=
  s.source.length + 1

def skipWhile (p : Char → Bool) (s : Lexer) : Result Lexer :=
  advanceWhile p s.rounds s

def countSpaces : ℕ → ℕ → Lexer → Result (ℕ × Lexer)
  | 0, _, _ => .error .limit
  | rounds + 1, spaces, s =>
    if s.isAtEnd then .ok (spaces, s)
    else if s.peek = ' ' then do
      let r ← s.advance
      countSpaces rounds (spaces + 1) r.2
    else if s.peek = '\t' then do
      let r ← s.advance
      countSpaces rounds (spaces + 4) r.2
    else .ok (spaces, s)

-- The levels are those of the stack of indents.
def dedent (spaces : ℕ) : List ℕ → Lexer → Result Lexer
  | [], s => .ok s
  | level :: levels, s =>
    if level > spaces then do
      let s ← { s with indentStack := levels }.emit .dedent
      dedent spaces levels s
    else .ok s

def indent (s : Lexer) (spaces currentIndent : ℕ) : Result Lexer :=
  if spaces > currentIndent then { s with indentStack := spaces :: s.indentStack }.emit .indent
  else if spaces < currentIndent then do
    let s ← dedent spaces s.indentStack s
    if s.indentStack.head? ≠ some spaces then s.error "Inconsistent indentation" else return s
  else .ok s

def handleIndentation : Result Lexer := do
  let r ← countSpaces s.rounds 0 s
  let s := r.2
  if s.isAtEnd ∨ s.peek = '\n' ∨ s.peek = '#' then return s
  else
    match s.indentStack with
    | [] => .error .panic
    | currentIndent :: _ => do
      let s ← s.indent r.1 currentIndent
      return { s with start := s.current }

def unescape (c : Char) : Char :=
  match c with
  | 'n' => '\n'
  | 't' => '\t'
  | 'r' => '\r'
  | '0' => '\x00'
  | c => c

def stringBody (quote : Char) : ℕ → List Char → Lexer → Result (List Char × Lexer)
  | 0, _, _ => .error .limit
  | rounds + 1, value, s =>
    if s.isAtEnd ∨ s.peek = quote then .ok (value, s)
    else
      let s := if s.peek = '\n' then { s with line := s.line + 1, column := 1 } else s
      if s.peek = '\\' then do
        let r ← s.advance
        let r ← r.2.advance
        stringBody quote rounds (value ++ [unescape r.1]) r.2
      else do
        let r ← s.advance
        stringBody quote rounds (value ++ [r.1]) r.2

def string (s : Lexer) (quote : Char) : Result Lexer := do
  let r ← stringBody quote s.rounds [] s
  if r.2.isAtEnd then r.2.error "Unterminated string"
  else
    let closed ← r.2.advance
    closed.2.emit (.string (.ofList r.1))

-- The decimal part, if there is one.
def fraction : Result (Bool × Lexer) :=
  if ¬ s.isAtEnd ∧ s.peek = '.' ∧ (s.peekNext.map Char.isDigit).getD false then do
    let r ← s.advance
    let s ← r.2.skipWhile Char.isDigit
    return (true, s)
  else .ok (false, s)

def sign : Result Lexer :=
  if ¬ s.isAtEnd ∧ (s.peek = '+' ∨ s.peek = '-') then do
    let r ← s.advance
    return r.2
  else .ok s

def exponent (isFloat : Bool) : Result (Bool × Lexer) :=
  if ¬ s.isAtEnd ∧ (s.peek = 'e' ∨ s.peek = 'E') then do
    let r ← s.advance
    let s ← r.2.sign
    let s ← s.skipWhile Char.isDigit
    return (true, s)
  else .ok (isFloat, s)

variable [Unicode]

def literal (s : Lexer) (isFloat : Bool) : Result Lexer := do
  let lexeme ← s.lexeme
  if isFloat then
    match Unicode.parseF64 lexeme with
    | none => s.error "Invalid float literal"
    | some value => s.emit (.float value)
  else
    match parseI64 lexeme with
    | none => s.error "Invalid integer literal"
    | some value => s.emit (.integer value)

def number (s : Lexer) : Result Lexer := do
  let s ← s.skipWhile Char.isDigit
  let r ← s.fraction
  let r ← r.2.exponent r.1
  r.2.literal r.1

def isIdentifier (c : Char) : Bool :=
  Unicode.isAlphanumeric c || c = '_'

def identifier (s : Lexer) : Result Lexer := do
  let s ← s.skipWhile isIdentifier
  let lexeme ← s.lexeme
  let name := String.ofList lexeme
  s.emit ((TokenType.keyword name).getD (.identifier name))

def ifMatch (s : Lexer) (expected : Char) (yes no : Lexer → TokenType × Lexer) :
    TokenType × Lexer :=
  match s.matchChar expected with
  | some s => yes s
  | none => no s

def opened (s : Lexer) : Lexer :=
  { s with parenDepth := s.parenDepth + 1 }

def closed (s : Lexer) : Lexer :=
  { s with parenDepth := s.parenDepth - 1 }

-- The tokens that begin with a character of their own.
def operator (c : Char) : Option (Lexer → TokenType × Lexer) :=
  match c with
  | '(' => some fun s => (.lParen, s.opened)
  | ')' => some fun s => (.rParen, s.closed)
  | '[' => some fun s => (.lBracket, s.opened)
  | ']' => some fun s => (.rBracket, s.closed)
  | '{' => some fun s => (.lBrace, s.opened)
  | '}' => some fun s => (.rBrace, s.closed)
  | ',' => some fun s => (.comma, s)
  | ':' => some fun s => (.colon, s)
  | ';' => some fun s => (.semicolon, s)
  | '.' => some fun s => (.dot, s)
  | '+' => some fun s => s.ifMatch '=' (.plusAssign, ·) (.plus, ·)
  | '-' => some fun s => s.ifMatch '=' (.minusAssign, ·) (·.ifMatch '>' (.arrow, ·) (.minus, ·))
  | '*' => some fun s => s.ifMatch '*' (·.ifMatch '=' (.doubleStarAssign, ·) (.doubleStar, ·))
    (·.ifMatch '=' (.starAssign, ·) (.star, ·))
  | '/' => some fun s => s.ifMatch '/' (·.ifMatch '=' (.doubleSlashAssign, ·) (.doubleSlash, ·))
    (·.ifMatch '=' (.slashAssign, ·) (.slash, ·))
  | '%' => some fun s => s.ifMatch '=' (.percentAssign, ·) (.percent, ·)
  | '@' => some fun s => (.at, s)
  | '=' => some fun s => s.ifMatch '=' (.eq, ·) (.assign, ·)
  | '<' => some fun s => s.ifMatch '=' (.le, ·) (.lt, ·)
  | '>' => some fun s => s.ifMatch '=' (.ge, ·) (.gt, ·)
  | _ => none

def newline (s : Lexer) : Result Lexer := do
  let s ← if s.parenDepth = 0 then s.emit .newline else .ok s
  return { s with line := s.line + 1, column := 1, atLineStart := true }

def notEqual (s : Lexer) : Result Lexer :=
  match s.matchChar '=' with
  | some s => s.emit .ne
  | none => s.error "Unexpected character '!'"

-- The character has been taken.
def scanOther (c : Char) (s : Lexer) : Result Lexer :=
  match c with
  | ' ' => .ok s
  | '\t' => .ok s
  | '\r' => .ok s
  | '#' => s.skipWhile (· ≠ '\n')
  | '!' => s.notEqual
  | '"' => s.string '"'
  | '\'' => s.string '\''
  | c =>
    match operator c with
    | some token => (token s).2.emit (token s).1
    | none =>
      if c.isDigit then s.number
      else if Unicode.isAlphabetic c || c = '_' then s.identifier
      else s.error ("Unexpected character '" ++ c.toString ++ "'")

-- Only behind a newline a line starts.
def scanChar (c : Char) (s : Lexer) : Result Lexer :=
  if c = '\n' then s.newline
  else do
    let s ← scanOther c s
    return { s with atLineStart := false }

def scanToken (s : Lexer) : Result Lexer := do
  let s ← if s.atLineStart ∧ s.parenDepth = 0 then s.handleIndentation else .ok s
  if s.isAtEnd then return s
  else
    let r ← s.advance
    scanChar r.1 r.2

def scanTokens : ℕ → Lexer → Result Lexer
  | 0, _ => .error .limit
  | rounds + 1, s =>
    if s.isAtEnd then .ok s
    else do
      let s ← { s with start := s.current }.scanToken
      scanTokens rounds s

def dedents : List ℕ → Lexer → Result Lexer
  | [], s => .ok s
  | [_], s => .ok s
  | _ :: levels, s => do
    let s ← { s with indentStack := levels }.emit .dedent
    dedents levels s

def tokenize (s : Lexer) : Result (List Token) := do
  let s ← scanTokens s.rounds s
  let s ← dedents s.indentStack s
  let s ← s.emit .eof
  return s.tokens

end Lexer

end Interpreter
