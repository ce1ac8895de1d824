import CurveGuess.Token.Basic

/-!
# From text to tokens

Every text is a sequence of tokens: reading takes the longest token at the head of the text, and a
character that starts nothing else is a token of its own. Nothing is skipped, so the lexemes put
together are the text again.
-/
namespace CurveGuess

namespace Lexer

/-- The white space that separates tokens. -/
def isSpace (c : Char) : Bool := c = ' ' || c = '\t' || c = '\n' || c = '\r'

def isLetter (c : Char) : Bool := ('a' ≤ c && c ≤ 'z') || ('A' ≤ c && c ≤ 'Z')

def isDigit (c : Char) : Bool := '0' ≤ c && c ≤ '9'

/-- The number of characters at the head of a text that satisfy `p`. -/
def run (p : Char → Bool) (cs : List Char) : Nat := (cs.takeWhile p).length

/-- What a number that began with a digit goes on with. -/
def number (cs : List Char) : Kind × Nat :=
  let whole := run isDigit cs
  match cs.drop whole with
  | '.' :: fraction => (.float, whole + 1 + run isDigit fraction)
  | _ => (.int, whole)

/-- The kind of the longest token that starts with `c`, and how many of the characters after `c`
belong to it. -/
def first (c : Char) (cs : List Char) : Kind × Nat :=
  if isSpace c then (.whitespace, run isSpace cs)
  else if isLetter c then (.name, run isLetter cs)
  else if isDigit c then number cs
  else match c with
    | '.' => if run isDigit cs = 0 then (.symbol, 0) else (.float, run isDigit cs)
    | '\\' =>
      if run isLetter cs = 0 then (.symbol, 0)
      else if cs.takeWhile isLetter = ['c', 'd', 'o', 't'] then (.cdot, run isLetter cs)
      else (.command, run isLetter cs)
    | '+' => (.add, 0)
    | '-' => (.sub, 0)
    | '*' => (.mul, 0)
    | '/' => (.div, 0)
    | '^' => (.exp, 0)
    | ',' => (.comma, 0)
    | '(' => (.openParen, 0)
    | ')' => (.closeParen, 0)
    | '\x7b' => (.openBrace, 0)
    | '\x7d' => (.closeBrace, 0)
    | _ => (.symbol, 0)

/-- The tokens of a text that begins at the given offset. -/
def tokensFrom (start : Nat) : List Char → List Token
  | [] => []
  | c :: cs =>
    let kind := (first c cs).1
    let more := (first c cs).2
    let lexeme := String.ofList (c :: cs.take more)
    ⟨kind, lexeme, start⟩ :: tokensFrom (start + lexeme.utf8ByteSize) (cs.drop more)
  termination_by cs => cs.length
  decreasing_by rw [List.length_cons, List.length_drop]; omega

end Lexer

/-- The tokens of a text, white space included. -/
def tokens (source : String) : List Token := Lexer.tokensFrom 0 source.toList

end CurveGuess
