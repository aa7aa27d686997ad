import Mathlib.Data.Nat.Notation

namespace Interpreter

inductive Error
  | lexer (message : String) (line column : ℕ)
  | parse (message : String) (line : ℕ)
  | compile (message : String)
  | runtime (message : String)
  | type (message : String)
  | name (message : String)
  | index (message : String)
  | key (message : String)
  | value (message : String)
  | attribute (message : String)
  deriving DecidableEq

-- A panic, and a loop of the model that has not ended within its limit, are told from an error.
inductive Failure
  | panic
  | limit
  | error (e : Error)
  deriving DecidableEq

abbrev Result := Except Failure

structure Span where
  start : ℕ
  «end» : ℕ
  line : ℕ
  column : ℕ
  deriving DecidableEq

-- The bits of an `f64`.
abbrev F64 := UInt64

inductive TokenType
  | integer (value : Int64)
  | float (value : F64)
  | string (value : String)
  | true
  | false
  | none
  | identifier (name : String)
  | defKw
  | classKw
  | if
  | elif
  | else
  | while
  | for
  | in
  | return
  | try
  | except
  | finally
  | raise
  | import
  | from
  | as
  | and
  | or
  | not
  | is
  | lambda
  | global
  | nonlocal
  | pass
  | break
  | continue
  | yield
  | async
  | await
  | with
  | plus
  | minus
  | star
  | slash
  | doubleSlash
  | percent
  | doubleStar
  | at
  | eq
  | ne
  | lt
  | le
  | gt
  | ge
  | assign
  | plusAssign
  | minusAssign
  | starAssign
  | slashAssign
  | percentAssign
  | doubleStarAssign
  | doubleSlashAssign
  | lParen
  | rParen
  | lBracket
  | rBracket
  | lBrace
  | rBrace
  | comma
  | colon
  | semicolon
  | dot
  | arrow
  | indent
  | dedent
  | newline
  | eof
  deriving DecidableEq

structure Token where
  tokenType : TokenType
  lexeme : String
  span : Span
  deriving DecidableEq

namespace TokenType

def keyword (s : String) : Option TokenType :=
  match s with
  | "def" => some .defKw
  | "class" => some .classKw
  | "if" => some .if
  | "elif" => some .elif
  | "else" => some .else
  | "while" => some .while
  | "for" => some .for
  | "in" => some .in
  | "return" => some .return
  | "try" => some .try
  | "except" => some .except
  | "finally" => some .finally
  | "raise" => some .raise
  | "import" => some .import
  | "from" => some .from
  | "as" => some .as
  | "and" => some .and
  | "or" => some .or
  | "not" => some .not
  | "is" => some .is
  | "lambda" => some .lambda
  | "global" => some .global
  | "nonlocal" => some .nonlocal
  | "pass" => some .pass
  | "break" => some .break
  | "continue" => some .continue
  | "True" => some .true
  | "False" => some .false
  | "None" => some .none
  | "yield" => some .yield
  | "async" => some .async
  | "await" => some .await
  | "with" => some .with
  | _ => Option.none

end TokenType

end Interpreter
