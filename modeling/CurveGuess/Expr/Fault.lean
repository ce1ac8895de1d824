import CurveGuess.Token.Basic
import CurveGuess.Diagnostic

/-!
# Faults in the form of a formula

Why a text is no formula, and where.
-/
namespace CurveGuess

/-- The reasons for which a text is refused. -/
inductive FormCause where
  | unexpectedEnd
  | expectedEnd
  | unexpectedToken (expected : List Kind) (found : Kind)
  | unclosed (opening : Bool)
  | emptyGroup
  deriving DecidableEq, Repr, Inhabited

/-- A reason with its place. -/
structure FormFault where
  cause : FormCause
  span : Span
  deriving DecidableEq, Repr, Inhabited

namespace FormCause

def message : FormCause → String
  | unexpectedEnd => "unexpected end of input"
  | expectedEnd => "expected end of input"
  | unexpectedToken _ _ => "unexpected token"
  | unclosed _ => "unclosed parenthesis"
  | emptyGroup => "missing expression inside parenthesis"

def label : FormCause → String
  | unexpectedEnd => "you might need to add another " ++ emphasis "expression" ++ " here"
  | expectedEnd => "I could not understand the remaining " ++ emphasis "expression" ++ " here"
  | unexpectedToken expected _ => "expected one of: " ++ ", ".intercalate (expected.map Kind.word)
  | unclosed _ => "this parenthesis is not closed"
  | emptyGroup => "add an expression here"

def help : FormCause → Option String
  | unexpectedToken _ found => some ("found " ++ found.word)
  | unclosed true => some "add a closing parenthesis `)` somewhere after this"
  | unclosed false => some "add an opening parenthesis `(` somewhere before this"
  | _ => none

end FormCause

def FormFault.diagnostic (f : FormFault) : Diagnostic :=
  ⟨f.cause.message, f.cause.label, f.cause.help, f.span⟩

end CurveGuess
