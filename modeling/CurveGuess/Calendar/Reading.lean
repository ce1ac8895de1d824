import CurveGuess.Calendar
import CurveGuess.Decimal.Numeral
import CurveGuess.Text.Blank

/-!
# Reading dates

A date is typed as year, month and day with hyphens between them. Each number may have blanks before
it and need not have all its digits, but only a year with a sign may have more.
-/
namespace CurveGuess

/-- Why a text is no date. -/
inductive DateFault where
  | invalid
  | tooShort
  | tooLong
  | outOfRange
  deriving DecidableEq, Repr, Inhabited

def DateFault.text : DateFault → String
  | invalid => "input contains invalid characters"
  | tooShort => "premature end of input"
  | tooLong => "trailing input"
  | outOfRange => "input is out of range"

namespace Date

/-- Takes something off the characters that are left. -/
abbrev Reader (A : Type) := StateT (List Char) (Except DateFault) A

def skipBlanks : Reader Unit := modify (·.dropWhile isBlank)

/-- Reads a number of at least one digit; of more than `limit` digits the rest is left. -/
def readDigits (limit : Option Nat) : Reader Nat := do
  let cs ← get
  if cs.isEmpty then throw .tooShort
  let window := match limit with
    | none => cs
    | some n => cs.take n
  let digits := window.takeWhile Char.isDigit
  if digits.isEmpty then throw .invalid
  set (cs.drop digits.length)
  return Numeral.ofDigits digits

/-- Reads a number from `low` to `high`, which has two digits at most. -/
def readBetween (low high : Nat) : Reader Nat := do
  skipBlanks
  let n ← readDigits (some 2)
  if low ≤ n ∧ n ≤ high then return n else throw .outOfRange

/-- Reads a year; without a sign it has four digits at most. -/
def readAnyYear : Reader Int := do
  skipBlanks
  match ← get with
  | '-' :: cs => set cs; return -(← readDigits none)
  | '+' :: cs => set cs; return (← readDigits none)
  | _ => return (← readDigits (some 4))

/-- Reads a year of 32 bits. -/
def readYear : Reader Int := do
  let year ← readAnyYear
  if Int32.minValue.toInt ≤ year ∧ year ≤ Int32.maxValue.toInt then return year
  else throw .outOfRange

def readHyphen : Reader Unit := do
  match ← get with
  | [] => throw .tooShort
  | c :: cs => if c = '-' then set cs else throw .invalid

def readEnd : Reader Unit := do
  unless (← get).isEmpty do throw .tooLong

/-- The years that can be typed. -/
def isSupported (year : Int) : Bool := -262143 ≤ year && year ≤ 262142

/-- Reads the numbers of a date, whether there is such a day or not. -/
def readNumbers : Reader (Int × Nat × Nat) := do
  let year ← readYear
  readHyphen
  let month ← readBetween 1 12
  readHyphen
  let day ← readBetween 1 31
  readEnd
  return (year, month, day)

/-- The date that a text is. -/
def read (text : String) : Except DateFault Date := do
  let (year, month, day) ← readNumbers.run' text.toList
  match of? year month day with
  | some date => if isSupported year then return date else throw .outOfRange
  | none => throw .outOfRange

end Date

end CurveGuess
