import CurveGuess.Text.Blank
import CurveGuess.Token.Lexer

/-!
# The formal spelling

What a player types is shorthand, such as `3*x + sqrt(2x)`; what is drawn is formal, such as
`3x + \sqrt{2x}`. Turning the one into the other changes function names, the parentheses of a square
root and multiplication signs, and leaves all else as it is, so that broken input stays broken.
-/
namespace CurveGuess.Spelling

/-- The tokens without the white space before them. -/
def skipSpace (ts : List Token) : List Token := ts.dropWhile Token.isSpace

/-- Is the next token of the given kind? -/
def comes (k : Kind) (ts : List Token) : Bool := (skipSpace ts).head?.any (·.kind = k)

/-- What a function is called in the formal spelling; other names stay. -/
def formalName (name : String) : String :=
  if name ∈ ["sin", "cos", "tan", "exp", "abs"] then "\\" ++ name
  else if name = "log" ∨ name = "ln" then "\\ln"
  else name

/-- A group that is open: as it was written, or the argument of a square root. -/
inductive FormalGroup where
  | paren
  | brace
  | root
  deriving DecidableEq, Repr, Inhabited

/-- The last character that is not blank, after writing more. -/
def lastVisible (last : Option Char) (written : List Char) : Option Char :=
  (trimEnd written).getLast?.or last

def isNumberChar (c : Char) : Bool := Lexer.isDigit c || c = '.'

/-- What stands for a multiplication sign between the character `last` and the tokens `ts`. It can
go unless two numbers or two names would grow together or the sign of a factor would be taken for
an operator. -/
def productSign (last : Option Char) (ts : List Token) : List Char :=
  match (skipSpace ts).head? with
  | none => []
  | some t =>
    if t.kind.isSign then ['\\', 'c', 'd', 'o', 't']
    else match last, t.lexeme.toList.head? with
      | some a, some b =>
        if isNumberChar a && isNumberChar b then ['\\', 'c', 'd', 'o', 't']
        else if Lexer.isLetter a && Lexer.isLetter b then ['\\', 'c', 'd', 'o', 't', ' ']
        else []
      | _, _ => []

/-- What is written for a token: some text, the groups that are open after it and the tokens that
are still to be written. -/
structure FormalStep where
  text : List Char
  groups : List FormalGroup
  rest : List Token

/-- Writes the token `t`, which stands before `ts`. The opening parenthesis of a square root is
written together with its name. -/
def formalStep (last : Option Char) (groups : List FormalGroup) (t : Token) (ts : List Token) :
    FormalStep :=
  match t.kind with
  | .name =>
    if comes .openParen ts then
      if t.lexeme = "sqrt" then
        ⟨['\\', 's', 'q', 'r', 't', '\x7b'], .root :: groups, (skipSpace ts).tail⟩
      else ⟨(formalName t.lexeme).toList, groups, ts⟩
    else ⟨t.lexeme.toList, groups, ts⟩
  | .mul => ⟨productSign last ts, groups, ts⟩
  | .openParen => ⟨['('], .paren :: groups, ts⟩
  | .openBrace => ⟨['\x7b'], .brace :: groups, ts⟩
  | .closeParen => ⟨[if groups.head? = some .root then '\x7d' else ')'], groups.tail, ts⟩
  | .closeBrace => ⟨['\x7d'], groups.tail, ts⟩
  | _ => ⟨t.lexeme.toList, groups, ts⟩

theorem length_tail_skipSpace_le (ts : List Token) : (skipSpace ts).tail.length ≤ ts.length := by
  have h := (List.dropWhile_sublist Token.isSpace (l := ts)).length_le
  rw [List.length_tail, skipSpace]
  omega

theorem length_formalStep_le (last : Option Char) (groups : List FormalGroup) (t : Token)
    (ts : List Token) : (formalStep last groups t ts).rest.length ≤ ts.length := by
  have h := length_tail_skipSpace_le ts
  unfold formalStep
  split <;> (try split) <;> (try split) <;> simp_all

/-- The formal text of tokens that follow the character `last` inside the groups `groups`, the
innermost first. -/
def formalFrom (last : Option Char) (groups : List FormalGroup) : List Token → List Char
  | [] => []
  | t :: ts =>
    let s := formalStep last groups t ts
    s.text ++ formalFrom (lastVisible last s.text) s.groups s.rest
  termination_by ts => ts.length
  decreasing_by
    have h := length_formalStep_le last groups t ts
    simp
    omega

/-- The formal spelling of a text. -/
def toFormal (source : String) : String := String.ofList (formalFrom none [] (tokens source))

end CurveGuess.Spelling
