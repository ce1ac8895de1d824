/-!
# Sixteen-bit units

The UTF-16 form of a text. A character outside the basic plane takes two units.
-/
namespace CurveGuess

/-- The units of a character. -/
def Char.units16 (c : Char) : List Nat :=
  if c.toNat < 0x10000 then [c.toNat]
  else [0xD800 + (c.toNat - 0x10000) / 0x400, 0xDC00 + (c.toNat - 0x10000) % 0x400]

/-- The units of a text. -/
def units16 (s : String) : List Nat := s.toList.flatMap Char.units16

end CurveGuess
