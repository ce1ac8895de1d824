/-!
# Edit distance

The least number of insertions, deletions and substitutions of a character that turn one text into
another.
-/
namespace CurveGuess.EditDistance

/-- The distances of the empty text to `ys` and to everything that is left of it further on. -/
def initial : List Char → List Nat
  | [] => [0]
  | _ :: ys => (ys.length + 1) :: initial ys

/-- Puts `x` in front of a text: from its distances to `ys` and to everything that is left of `ys`
further on, the distances of the longer text. -/
def extend (x : Char) : List Char → List Nat → List Nat
  | [], row => [row.headD 0 + 1]
  | y :: ys, row =>
    let more := extend x ys row.tail
    let swap := row.tail.headD 0 + if x = y then 0 else 1
    min swap (min (row.headD 0) (more.headD 0) + 1) :: more

end EditDistance

/-- The number of edits between two texts. -/
def editDistance (a b : String) : Nat :=
  (a.toList.foldr (fun x row => EditDistance.extend x b.toList row)
    (EditDistance.initial b.toList)).headD 0

end CurveGuess
