import CurveGuess.Eval.Arithmetic
import CurveGuess.Text.EditDistance

/-!
# The functions of a formula

Only these functions can be called, each with one argument.
-/
namespace CurveGuess

inductive Builtin where
  | sin
  | cos
  | tan
  | ln
  | sqrt
  | exp
  | abs
  deriving DecidableEq, Repr, Inhabited

namespace Builtin

/-- Every name that can be called. Both `ln` and `log` are the natural logarithm. -/
def table : List (String × Builtin) :=
  [("sin", sin), ("cos", cos), ("tan", tan), ("ln", ln), ("log", ln), ("sqrt", sqrt), ("exp", exp),
    ("abs", abs)]

def lookup? (name : String) : Option Builtin := table.lookup name

/-- The name that messages use. -/
def name : Builtin → String
  | sin => "sin"
  | cos => "cos"
  | tan => "tan"
  | ln => "ln"
  | sqrt => "sqrt"
  | exp => "exp"
  | abs => "abs"

def arity (_ : Builtin) : Nat := 1

/-- The names among `names` that are at most one edit away, in alphabetical order. -/
def similarAmong (names : List String) (name : String) : List String :=
  (names.filter fun n => editDistance n name < 2).mergeSort fun a b => decide (a ≤ b)

def similar (name : String) : List String := similarAmong (table.map Prod.fst) name

end Builtin

end CurveGuess
