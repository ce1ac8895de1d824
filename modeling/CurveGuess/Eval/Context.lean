import CurveGuess.Eval.Arithmetic

/-!
# Contexts

The values of the names in a formula. A context starts with the constants, and `x` is the variable
that a formula is a function of.
-/
namespace CurveGuess

/-- Values of names. -/
structure Context (R : Type) where
  values : List (String × R)

namespace Context

variable {R : Type}

def get? (c : Context R) (name : String) : Option R := c.values.lookup name

/-- Gives a name a value, in place of the one it has. -/
def set (c : Context R) (name : String) (v : R) : Context R :=
  ⟨(name, v) :: c.values.filter (·.1 ≠ name)⟩

def variableName : String := "x"

def setX (c : Context R) (x : R) : Context R := c.set variableName x

variable [Arithmetic R]

/-- The constants alone. -/
def constants : Context R := ⟨[("pi", Arithmetic.pi), ("e", Arithmetic.euler)]⟩

/-- The constants and a value of `x`. -/
def ofX (x : R) : Context R := constants.setX x

end Context

end CurveGuess
