/-!
# Curves

What the game asks to be drawn. A curve goes by an identifier, and an empty one clears whatever is
drawn under its identifier.
-/
namespace CurveGuess

/-- The right-hand side of an equation for `y`, in the formal spelling, and its looks. -/
structure Curve where
  id : String
  expression : String
  colour : String
  /-- The width of the line in pixels. -/
  width : Nat
  deriving DecidableEq, Repr, Inhabited

namespace Curve

def targetId : String := "target"

def createdId : String := "created"

/-- The colour of targets and created curves. -/
def clay : String := "#c6613f"

/-- The colour of previews. -/
def blue : String := "#0000FF"

def target (expression : String) : Curve := ⟨targetId, expression, clay, 3⟩

def created (expression : String) : Curve := ⟨createdId, expression, clay, 3⟩

def preview (id expression : String) : Curve := ⟨id, expression, blue, 2⟩

/-- Clears an identifier. -/
def clear (id : String) : Curve := ⟨id, "", clay, 3⟩

def isClear (c : Curve) : Bool := c.expression.isEmpty

/-- The equation of a curve; none if it clears. -/
def equation (c : Curve) : String := if c.isClear then "" else "y=" ++ c.expression

end Curve

/-- A region of the plane. -/
structure Viewport (R : Type) where
  left : R
  right : R
  bottom : R
  top : R
  deriving Repr

/-- The region that is shown if no other is asked for. -/
def Viewport.standard : Viewport Float := ⟨-50, 50, -100, 100⟩

end CurveGuess
