import CurveGuess.Event
import CurveGuess.Share.Link
import CurveGuess.Spelling.Formal

/-!
# Creating a function

A player can write a function to share it. What is written is kept even if it is no formula, but
then the curve that is drawn stays as it was.
-/
namespace CurveGuess

/-- The function that is written, in the formal spelling. -/
structure Creator where
  formal : String
  deriving DecidableEq, Repr, Inhabited

namespace Creator

def blank : Creator := ⟨""⟩

/-- Starts to write, with neither a target nor a created curve drawn. -/
def start : Step Creator Unit :=
  ⟨blank, (), [.draw (.clear Curve.targetId), .draw (.clear Curve.createdId)]⟩

def clear : Step Creator Unit := ⟨blank, (), [.draw (.clear Curve.createdId)]⟩

/-- Takes what was typed; a blank line clears. -/
def update (c : Creator) (input : String) : Step Creator Unit :=
  let input := trim input
  if input.isEmpty then clear
  else
    let formal := Spelling.toFormal input
    { state := { c with formal := formal }
      reply := ()
      events := match Formula.read formal with
        | .ok _ => [.draw (.created formal)]
        | .error f => [.remark (f.remark "created function does not parse" "input" formal)] }

/-- The function, if there is one. -/
def formal? (c : Creator) : Option String := if c.formal.isEmpty then none else some c.formal

/-- The link to the function. -/
def link? (c : Creator) (origin path : String) : Option String :=
  c.formal?.map (Share.link origin path)

end Creator

end CurveGuess
