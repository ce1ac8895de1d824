import CurveGuess.Decimal.Numeral
import CurveGuess.Text.Blank
import CurveGuess.Text.Units16

/-!
# Seeds

A seed stands for a stream of random numbers. It is a number, or the hash of a text that is none.
-/
namespace CurveGuess

structure Seed where
  value : UInt64
  deriving DecidableEq, Repr, Inhabited

namespace Seed

/-- Mixes sixteen-bit units into a word of 32 bits with a sign. -/
def accumulate (units : List Nat) : Int32 :=
  units.foldl (fun h u => (h <<< 5) - h + Int32.ofNat u) 0

/-- The hash of a text: the size of the accumulated number. -/
def hash (text : String) : UInt64 := (accumulate (units16 text)).toInt.natAbs.toUInt64

def ofText (text : String) : Seed := ⟨hash text⟩

/-- Reads a number of 64 bits, which may have a plus sign. -/
def number? (text : String) : Option UInt64 :=
  let digits := match text.toList with
    | '+' :: ds => ds
    | ds => ds
  if digits.isEmpty || digits.any (!·.isDigit) then none
  else
    let n := Numeral.ofDigits digits
    if n < UInt64.size then some n.toUInt64 else none

/-- The seed that a text names. Blanks around a number do not count; around other text they do. -/
def read (text : String) : Seed :=
  match number? (trim text) with
  | some n => ⟨n⟩
  | none => ofText text

def text (s : Seed) : String := toString s.value.toNat

end Seed

end CurveGuess
