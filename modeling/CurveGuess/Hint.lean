import CurveGuess.Decimal.Shortest
import CurveGuess.Facts

/-!
# Hints

The first hint tells the terms of the target, the second one its numbers, and after that the answer
is revealed.
-/
namespace CurveGuess

inductive Hint (R : Type) where
  | terms (count : Nat) (kinds : List TermKind)
  | coefficients (least greatest : R) (offset : Option R)
  | reveal (answer : String)
  deriving DecidableEq, Repr

namespace Hint

/-- How many hints there are before the answer. -/
def limit : Nat := 2

/-- The hint after `used` hints. -/
def after {R : Type} [Arithmetic R] (used : Nat) (facts : Facts R) (readable : String) : Hint R :=
  match used with
  | 0 => .terms facts.terms facts.kinds
  | 1 =>
    let isZero := Arithmetic.same facts.offset (Arithmetic.ofNat 0)
    .coefficients facts.range.1 facts.range.2 (if isZero then none else some facts.offset)
  | _ => .reveal readable

def text : Hint Float → String
  | terms count kinds =>
    "Hint 1:\n• The function has " ++ toString count ++ " term(s)\n• Function types: "
      ++ ", ".intercalate (kinds.map TermKind.text)
  | coefficients least greatest offset =>
    "Hint 2:\n• Coefficients range: " ++ Decimal.text least ++ " to " ++ Decimal.text greatest
      ++ match offset with
        | none => ""
        | some o => "\n• Has a constant offset of: " ++ Decimal.text o
  | reveal answer => "No more hints available!\nThe answer is: y = " ++ answer

end Hint

end CurveGuess
