import CurveGuess.Text.Span

/-!
# Diagnostics

What a player is told about a fault: a message, a label at the place it is about and perhaps some
help.
-/
namespace CurveGuess

/-- A fault as it is shown. -/
structure Diagnostic where
  message : String
  label : String
  help : Option String
  span : Span
  deriving DecidableEq, Repr, Inhabited

/-- Terminal colours. -/
structure Colour where
  code : String
  deriving DecidableEq, Repr, Inhabited

namespace Colour

/-- The colour of everything that belongs to an expression. -/
def expression : Colour := ⟨"38;2;52;235;152"⟩

/-- Paints a text, and goes back to the plain colour after it. -/
def paint (c : Colour) (text : String) : String :=
  "\x1b[" ++ c.code ++ "m" ++ text ++ "\x1b[0m"

end Colour

/-- A word of a message that stands out. -/
def emphasis (text : String) : String := Colour.expression.paint text

end CurveGuess
