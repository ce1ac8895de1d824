import CurveGuess.Text.Span

/-!
# Tokens

A token is a kind, the text it was read from and the byte offset of that text. Both spellings of a
formula, the shorthand `3*x` and the formal `3\cdot x`, are made of the same kinds of token.
-/
namespace CurveGuess

/-- The kinds of token. A `symbol` is a character that belongs to no other kind. -/
inductive Kind where
  | whitespace
  | add
  | sub
  | mul
  | cdot
  | div
  | exp
  | command
  | name
  | comma
  | openParen
  | closeParen
  | openBrace
  | closeBrace
  | int
  | float
  | symbol
  deriving DecidableEq, Repr, Inhabited

namespace Kind

/-- The word for a kind in messages. -/
def word : Kind → String
  | whitespace => "Whitespace"
  | add => "Add"
  | sub => "Sub"
  | mul => "Mul"
  | cdot => "Cdot"
  | div => "Div"
  | exp => "Exp"
  | command => "Command"
  | name => "Name"
  | comma => "Comma"
  | openParen => "OpenParen"
  | closeParen => "CloseParen"
  | openBrace => "OpenBrace"
  | closeBrace => "CloseBrace"
  | int => "Int"
  | float => "Float"
  | symbol => "Symbol"

def isNumber (k : Kind) : Bool := k = int || k = float

def isOpening (k : Kind) : Bool := k = openParen || k = openBrace

def isClosing (k : Kind) : Bool := k = closeParen || k = closeBrace

def isSign (k : Kind) : Bool := k = add || k = sub

/-- The kinds that can begin an operand without a sign. -/
def startsOperand (k : Kind) : Bool :=
  k.isNumber || k = name || k = command || k.isOpening

end Kind

/-- A piece of a source text. -/
structure Token where
  kind : Kind
  lexeme : String
  start : Nat
  deriving DecidableEq, Repr, Inhabited

namespace Token

/-- The offset just after the token. -/
def stop (t : Token) : Nat := t.start + t.lexeme.utf8ByteSize

def span (t : Token) : Span := ⟨t.start, t.stop⟩

def isSpace (t : Token) : Bool := t.kind = .whitespace

/-- The text without a leading backslash. -/
def bareName (t : Token) : String := String.ofList (t.lexeme.toList.dropWhile (· = '\\'))

/-- The name of a command, without its backslash. -/
def command? (t : Token) : Option String :=
  if t.kind = .command then some t.bareName else none

end Token

end CurveGuess
