/-!
# Written numbers

A numeral is kept exactly as it was written, as a whole number of digits and the count of those
behind the point, so that it stands for a rational number before any rounding.
-/
namespace CurveGuess

/-- The number `digits / 10 ^ places`. -/
structure Numeral where
  digits : Nat
  places : Nat
  deriving DecidableEq, Repr, Inhabited

namespace Numeral

/-- Appends one decimal digit. -/
def push (n : Nat) (c : Char) : Nat := 10 * n + (c.toNat - '0'.toNat)

/-- The number that a row of digits stands for. -/
def ofDigits (cs : List Char) : Nat := cs.foldl push 0

/-- Reads digits with at most one point among them; any other character ends the reading. -/
def ofText (text : String) : Numeral :=
  let whole := text.toList.takeWhile Char.isDigit
  match text.toList.dropWhile Char.isDigit with
  | '.' :: more =>
    let fraction := more.takeWhile Char.isDigit
    ⟨ofDigits (whole ++ fraction), fraction.length⟩
  | _ => ⟨ofDigits whole, 0⟩

/-- The nearest double. -/
def toFloat (n : Numeral) : Float := Float.ofScientific n.digits true n.places

end Numeral

end CurveGuess
