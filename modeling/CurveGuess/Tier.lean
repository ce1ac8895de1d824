import CurveGuess.Diagnostic
import CurveGuess.Target.Term
import CurveGuess.Text.Blank

/-!
# Tiers of difficulty

What each tier draws its targets from, and how many points a solution is worth.
-/
namespace CurveGuess

inductive Tier where
  | easy
  | medium
  | hard
  | veryHard
  deriving DecidableEq, Repr, Inhabited

namespace Tier

def all : List Tier := [easy, medium, hard, veryHard]

/-- The name that is typed. -/
def name : Tier → String
  | easy => "easy"
  | medium => "medium"
  | hard => "hard"
  | veryHard => "very_hard"

/-- The name that is shown. -/
def label : Tier → String
  | veryHard => "very hard"
  | t => t.name

/-- How many terms a target has, its offset not counted. -/
def termBounds : Tier → Bounds
  | easy => ⟨1, 2⟩
  | medium | hard => ⟨2, 3⟩
  | veryHard => ⟨3, 4⟩

def templates : Tier → List Template
  | easy => [.linear ⟨1, 5⟩, .quadratic ⟨1, 3⟩, .sine ⟨5, 15⟩ none, .cosine ⟨5, 15⟩ none]
  | medium => [.linear ⟨2, 8⟩, .quadratic ⟨1, 4⟩, .sine ⟨10, 30⟩ (some ⟨1, 2⟩),
      .cosine ⟨10, 30⟩ (some ⟨1, 2⟩), .logarithm ⟨5, 15⟩ ⟨1, 3⟩]
  | hard => [.linear ⟨3, 10⟩, .quadratic ⟨1, 5⟩, .sine ⟨15, 40⟩ (some ⟨1, 3⟩),
      .cosine ⟨15, 40⟩ (some ⟨1, 3⟩), .logarithm ⟨8, 20⟩ ⟨1, 5⟩, .squareRoot ⟨20, 80⟩]
  | veryHard => [.linear ⟨2, 10⟩, .quadratic ⟨1, 5⟩, .sine ⟨10, 50⟩ (some ⟨1, 3⟩),
      .cosine ⟨10, 50⟩ (some ⟨1, 3⟩), .logarithm ⟨5, 20⟩ ⟨1, 5⟩, .exponential ⟨2, 5⟩,
      .squareRoot ⟨10, 100⟩]

/-- The largest size of an offset; none if there are no offsets. -/
def offsetBound : Tier → Option Nat
  | easy => none
  | medium => some 30
  | hard | veryHard => some 50

/-- The points for a solution at the first attempt and without hints. -/
def baseScore : Tier → Nat
  | easy => 100
  | medium => 200
  | hard => 300
  | veryHard => 500

/-- The points for a solution: ten less for each attempt before it and twenty-five less for each
hint, but never less than ten. -/
def score (t : Tier) (attempts hints : Nat) : Nat :=
  max (t.baseScore - 10 * (attempts - 1) - 25 * hints) 10

end Tier

/-- A text that names no tier. -/
structure UnknownTier where
  name : String
  deriving DecidableEq, Repr, Inhabited

def UnknownTier.diagnostic (f : UnknownTier) : Diagnostic where
  message := "unknown difficulty `" ++ f.name ++ "`"
  label := "this difficulty"
  help := some ("choose one of: " ++ ", ".intercalate (Tier.all.map fun t => emphasis t.name))
  span := ⟨0, f.name.utf8ByteSize⟩

/-- Reads the name of a tier. Blanks around it and the case of its letters do not count. -/
def Tier.read (text : String) : Except UnknownTier Tier :=
  match String.ofList ((trim text).toList.map Char.toLower) with
  | "easy" => .ok easy
  | "medium" => .ok medium
  | "hard" => .ok hard
  | "very_hard" | "very-hard" | "veryhard" => .ok veryHard
  | _ => .error ⟨text⟩

end CurveGuess
