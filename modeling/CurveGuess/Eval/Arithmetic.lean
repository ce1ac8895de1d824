import CurveGuess.Decimal.Numeral

/-!
# Numbers to compute with

Formulas are evaluated and compared over any type with these operations. The game uses doubles; no
law is asked of the operations, since rounding breaks most of them.
-/
namespace CurveGuess

/-- The operations of a formula. -/
class Arithmetic (R : Type) extends Add R, Sub R, Mul R, Div R, Neg R where
  ofNumeral : Numeral → R
  ofInt : Int → R
  floor : R → Int
  pow : R → R → R
  sin : R → R
  cos : R → R
  tan : R → R
  ln : R → R
  sqrt : R → R
  exp : R → R
  abs : R → R
  pi : R
  euler : R
  lt : R → R → Bool
  le : R → R → Bool
  isFinite : R → Bool

namespace Arithmetic

variable {R : Type} [Arithmetic R]

/-- A whole number. -/
def ofNat (n : Nat) : R := ofNumeral ⟨n, 0⟩

/-- Are two numbers equal? Of two zeros the sign does not count. -/
def same (a b : R) : Bool := le a b && le b a

end Arithmetic

namespace Double

/-- The largest whole number that is not above a double; zero for what is no finite number. -/
def floor (x : Float) : Int :=
  match x.toModel.unpack with
  | .finite sign mantissa exponent _ =>
    sign.apply mantissa * Nat.pow 2 exponent.toNat / Nat.pow 2 (-exponent).toNat
  | _ => 0

/-- The double that is nearest to a whole number. -/
def ofInt (n : Int) : Float :=
  let size := Numeral.toFloat ⟨n.natAbs, 0⟩
  if n < 0 then -size else size

end Double

instance : Arithmetic Float where
  ofNumeral := Numeral.toFloat
  ofInt := Double.ofInt
  floor := Double.floor
  pow := Float.pow
  sin := Float.sin
  cos := Float.cos
  tan := Float.tan
  ln := Float.log
  sqrt := Float.sqrt
  exp := Float.exp
  abs := Float.abs
  pi := 3.141592653589793
  euler := 2.718281828459045
  lt a b := a < b
  le a b := a ≤ b
  isFinite := Float.isFinite

end CurveGuess
