import CurveGuess.Token.Basic

/-!
# A place in a sequence of tokens

A cursor keeps the tokens on both sides of it. Looking ahead passes over white space, and so does
taking the next token.
-/
namespace CurveGuess

/-- The tokens already taken, the latest first, and the tokens still to come. -/
structure Cursor where
  before : List Token
  rest : List Token
  deriving DecidableEq, Repr, Inhabited

namespace Cursor

def start (ts : List Token) : Cursor := ⟨[], ts⟩

/-- The offset at which the whole text ends. -/
def finish (c : Cursor) : Nat := ((c.rest.getLast?).or c.before.head?).elim 0 Token.stop

/-- The token at the cursor, white space included, or else the end of the text. -/
def span (c : Cursor) : Span := c.rest.head?.elim (.point c.finish) Token.span

def previous? (c : Cursor) : Option Token := c.before.head?

/-- The tokens to come without white space. -/
def ahead (c : Cursor) : List Token := c.rest.filter (!·.isSpace)

def peek? (c : Cursor) : Option Token := c.rest.find? (!·.isSpace)

def peekSecond? (c : Cursor) : Option Token := c.ahead[1]?

/-- Is the next token of a kind that satisfies `p`? -/
def sees (c : Cursor) (p : Kind → Bool) : Bool := c.peek?.any (p ·.kind)

/-- Takes the next token, together with the white space before it. -/
def takeFrom (before : List Token) : List Token → Option Token × Cursor
  | [] => (none, ⟨before, []⟩)
  | t :: ts => if t.isSpace then takeFrom (t :: before) ts else (some t, ⟨t :: before, ts⟩)

/-- The next token, and the cursor after it. At the end of the text there is none, and the cursor
goes behind the white space that is left. -/
def next (c : Cursor) : Option Token × Cursor := takeFrom c.before c.rest

theorem takeFrom_length_le (before ts : List Token) :
    (takeFrom before ts).2.rest.length ≤ ts.length := by
  induction ts generalizing before with
  | nil => simp [takeFrom]
  | cons t ts ih =>
    simp only [takeFrom]
    split
    · exact Nat.le_succ_of_le (ih _)
    · simp

theorem next_length_le (c : Cursor) : c.next.2.rest.length ≤ c.rest.length :=
  takeFrom_length_le c.before c.rest

end Cursor

end CurveGuess
