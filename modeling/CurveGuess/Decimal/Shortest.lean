/-!
# Doubles as decimal text

A double is written with the fewest digits that read back as the same double, without an exponent,
and without a point if it is a whole number. The digits are found in exact arithmetic: a double
stands for an interval of reals, and the coarsest power of ten with a multiple in that interval
decides how many digits there are.
-/
namespace CurveGuess.Decimal

/-- Reals in units of `1 / scale`: a value, and the ends of the interval that rounds to it. -/
structure Interval where
  value : Nat
  low : Nat
  high : Nat
  hasEnds : Bool
  scale : Nat
  deriving Repr

/-- A finite double as a whole number of powers of two, without its sign. -/
structure Dyadic where
  mantissa : Nat
  exponent : Int
  /-- Is the gap to the next smaller double half as wide as the gap to the next larger one? -/
  isNarrow : Bool
  deriving Repr

namespace Dyadic

def ofBits (bits : UInt64) : Dyadic :=
  let fraction := bits.toNat % Nat.pow 2 52
  match bits.toNat / Nat.pow 2 52 % Nat.pow 2 11 with
  | 0 => ⟨fraction, -1074, false⟩
  | e + 1 => ⟨Nat.pow 2 52 + fraction, (e : Int) - 1074, fraction = 0 && e ≠ 0⟩

/-- The reals that round to the double: half way to its neighbours, and the ends themselves if the
mantissa is even. -/
def interval (x : Dyadic) : Interval :=
  let up := Nat.pow 2 (x.exponent - 2).toNat
  { value := 4 * x.mantissa * up
    low := (4 * x.mantissa - if x.isNarrow then 1 else 2) * up
    high := (4 * x.mantissa + 2) * up
    hasEnds := x.mantissa % 2 = 0
    scale := Nat.pow 2 (2 - x.exponent).toNat }

end Dyadic

namespace Interval

/-- Does a number of units of `10 ^ e` lie in the interval? -/
def holds (i : Interval) (e : Int) (n : Nat) : Bool :=
  let x := n * i.scale * Nat.pow 10 e.toNat
  let down := Nat.pow 10 (-e).toNat
  if i.hasEnds then i.low * down ≤ x && x ≤ i.high * down
  else i.low * down < x && x < i.high * down

/-- The multiple of `10 ^ e` in the interval that is nearest to the value; of two that are equally
near the larger one. -/
def nearest? (i : Interval) (e : Int) : Option Nat :=
  let unit := i.scale * Nat.pow 10 e.toNat
  let value := i.value * Nat.pow 10 (-e).toNat
  let n := value / unit
  match i.holds e n, i.holds e (n + 1) with
  | true, true => some (if 2 * value < (2 * n + 1) * unit then n else n + 1)
  | true, false => some n
  | false, true => some (n + 1)
  | false, false => none

/-- Tries the powers of ten from `10 ^ (least + k)` down to `10 ^ least`, which divides the value. -/
def search (i : Interval) (least : Int) : Nat → Nat × Int
  | 0 => (i.value * Nat.pow 10 (-least).toNat / (i.scale * Nat.pow 10 least.toNat), least)
  | k + 1 =>
    match i.nearest? (least + k + 1) with
    | some n => (n, least + k + 1)
    | none => search i least k

end Interval

/-- Digits and a power of ten for a double that is not zero. -/
def shortest (x : Dyadic) : Nat × Int :=
  let i := x.interval
  let least := min x.exponent 0
  let top : Int := (Nat.toDigits 10 (i.value / i.scale)).length
  i.search least (top - least).toNat

/-- Writes `n * 10 ^ e` without an exponent. -/
def positional (n : Nat) (e : Int) : List Char :=
  let digits := Nat.toDigits 10 n
  if 0 ≤ e then digits ++ List.replicate e.toNat '0'
  else
    let places := (-e).toNat
    let padded := List.replicate (places + 1 - digits.length) '0' ++ digits
    let whole := padded.length - places
    padded.take whole ++ '.' :: padded.drop whole

/-- The text of a double. -/
def text (x : Float) : String :=
  if x.isNaN then "NaN"
  else
    let bits := x.toBits
    let sign := if bits.toNat / Nat.pow 2 63 = 1 then "-" else ""
    if x.isInf then sign ++ "inf"
    else
      let d := Dyadic.ofBits bits
      if d.mantissa = 0 then sign ++ "0"
      else sign ++ String.ofList (positional (shortest d).1 (shortest d).2)

end CurveGuess.Decimal
