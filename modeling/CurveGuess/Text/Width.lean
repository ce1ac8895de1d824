import CurveGuess.Text.Width.Unspaced
import CurveGuess.Text.Width.Wide

/-!
# Widths of characters

How many columns of a terminal a character takes. A character that is drawn on a neighbour, or not
at all, takes none; of the others, those of East Asian scripts and pictures take two and the rest
take one. Four characters go by what they look like, whatever their properties are.
-/
namespace CurveGuess

def inRanges (ranges : List (Nat × Nat)) (c : Char) : Bool :=
  ranges.any fun (a, b) => a ≤ c.toNat && c.toNat ≤ b

/-- Whether a character leaves the cursor where it is. -/
def isUnspaced (c : Char) : Bool :=
  inRanges ignorableRanges c || inRanges extendingRanges c || inRanges hangulTailRanges c
    || inRanges overlaidRanges c

/-- The number of columns a character takes. Of the four special characters, the filler U+115F
stands for the consonant of a Hangul syllable, the Khmer letter U+17A4 is written as two letters and
the sign U+17D8 as three, and the joiner U+2D7F is seen where it joins nothing. -/
def columns (c : Char) : Nat :=
  match c.toNat with
  | 0x115F => 2
  | 0x17A4 => 2
  | 0x17D8 => 3
  | 0x2D7F => 1
  | _ => if isUnspaced c then 0 else if inRanges wideRanges c then 2 else 1

end CurveGuess
