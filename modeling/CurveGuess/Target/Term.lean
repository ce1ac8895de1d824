import CurveGuess.Random.Stream

/-!
# Terms

The terms that a target is put together from, in the formal spelling, and the templates that say
between which bounds their numbers are drawn.
-/
namespace CurveGuess

/-- The whole numbers from `low` to `high`. -/
structure Bounds where
  low : Int
  high : Int
  deriving DecidableEq, Repr, Inhabited

def Bounds.draw (R : Type) [Arithmetic R] (b : Bounds) : Draw Int := .int R b.low b.high

/-- A term with its numbers. -/
inductive Term where
  | linear (coef : Int)
  | quadratic (coef : Int)
  | sine (coef : Int) (freq : Option Int)
  | cosine (coef : Int) (freq : Option Int)
  | logarithm (coef shift : Int)
  | squareRoot (coef : Int)
  | exponential (base : Int)
  deriving DecidableEq, Repr, Inhabited

namespace Term

/-- The argument of a wave. -/
def angle : Option Int → String
  | none => "x"
  | some f => toString f ++ "x"

def text : Term → String
  | linear c => toString c ++ "x"
  | quadratic c => toString c ++ "x^\x7b2\x7d"
  | sine c f => toString c ++ "\\sin(" ++ angle f ++ ")"
  | cosine c f => toString c ++ "\\cos(" ++ angle f ++ ")"
  | logarithm c s => toString c ++ "\\ln(x+" ++ toString s ++ ")"
  | squareRoot c => "\\sqrt\x7b" ++ toString c ++ "x\x7d"
  | exponential b => toString b ++ "^\x7bx\x7d"

end Term

/-- A term whose numbers are still to be drawn. -/
inductive Template where
  | linear (coef : Bounds)
  | quadratic (coef : Bounds)
  | sine (coef : Bounds) (freq : Option Bounds)
  | cosine (coef : Bounds) (freq : Option Bounds)
  | logarithm (coef shift : Bounds)
  | squareRoot (coef : Bounds)
  | exponential (base : Bounds)
  deriving DecidableEq, Repr, Inhabited

namespace Template

variable (R : Type) [Arithmetic R]

/-- Draws a number if there are bounds for it. -/
def drawOption : Option Bounds → Draw (Option Int)
  | none => pure none
  | some b => do return some (← b.draw R)

/-- Draws the numbers of a term, from left to right. -/
def realize : Template → Draw Term
  | linear c => do return .linear (← c.draw R)
  | quadratic c => do return .quadratic (← c.draw R)
  | sine c f => do return .sine (← c.draw R) (← drawOption R f)
  | cosine c f => do return .cosine (← c.draw R) (← drawOption R f)
  | logarithm c s => do return .logarithm (← c.draw R) (← s.draw R)
  | squareRoot c => do return .squareRoot (← c.draw R)
  | exponential b => do return .exponential (← b.draw R)

end Template

end CurveGuess
