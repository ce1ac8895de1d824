import CurveGuess.Journal
import CurveGuess.Tier

/-!
# Targets

The formulas to be guessed. A target is a sum of terms of different templates and perhaps an offset,
all drawn from one stream.
-/
namespace CurveGuess

/-- The operator in front of a term. -/
inductive Joint where
  | plus
  | minus
  deriving DecidableEq, Repr, Inhabited

def Joint.text : Joint → String
  | plus => "+"
  | minus => "-"

/-- Terms, the operators between them and a constant offset. -/
structure Target where
  terms : List Term
  joints : List Joint
  offset : Int
  deriving DecidableEq, Repr, Inhabited

namespace Target

/-- An offset is written with its sign, and zero is not written. -/
def offsetText (offset : Int) : String :=
  if offset = 0 then "" else if 0 < offset then "+" ++ toString offset else toString offset

/-- The formal text of a target. -/
def text (t : Target) : String :=
  match t.terms with
  | [] => offsetText t.offset
  | first :: rest =>
    first.text ++ String.join ((t.joints.zip rest).map fun (j, term) => j.text ++ term.text)
      ++ offsetText t.offset

section
variable (R : Type) [Arithmetic R]

/-- Draws terms one after the other. -/
def drawTerms : List Template → Draw (List Term)
  | [] => pure []
  | t :: ts => do
    let term ← t.realize R
    let terms ← drawTerms ts
    return term :: terms

/-- Draws `n` operators; seven out of ten are additions. -/
def drawJoints : Nat → Draw (List Joint)
  | 0 => pure []
  | n + 1 => do
    let u ← Draw.unit R
    let joint := if Arithmetic.lt (Arithmetic.ofNumeral ⟨3, 1⟩) u then Joint.plus else .minus
    let joints ← drawJoints n
    return joint :: joints

def drawOffset : Option Nat → Draw Int
  | none => pure 0
  | some b => .int R (-b) b

/-- Draws a target: how many terms, their templates, their numbers, the operators, the offset. -/
def draw (tier : Tier) : Draw Target := do
  let count ← tier.termBounds.draw R
  let pool ← Draw.shuffle R tier.templates
  let terms ← drawTerms R (pool.take count.toNat)
  let joints ← drawJoints R (terms.length - 1)
  let offset ← drawOffset R tier.offsetBound
  return ⟨terms, joints, offset⟩

/-- The target of a seed. -/
def ofSeed (tier : Tier) (seed : Seed) : Target := ((draw R tier).run (.ofSeed seed)).1

end

/-- The formal text of the target of a seed, as the game generates it. -/
def generate (tier : Tier) (seed : Seed) : String := (ofSeed Float tier seed).text

/-- The remark that a target was generated. -/
def generated (tier : Tier) (seed : Seed) : Note :=
  ⟨.debug, "generated " ++ tier.name ++ " target from seed " ++ seed.text ++ ": "
    ++ generate tier seed⟩

/-- Practice targets have seeds below this number. -/
def practiceSeeds : Nat := 100000

end Target

end CurveGuess
