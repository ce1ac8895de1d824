import CurveGuess.Event
import CurveGuess.Terminal.Canvas

/-!
# The board

The curves that are drawn at a time and the picture of them. There is at most one curve under each
identifier; curves are held in the order in which they were drawn, but the target is painted first,
so that guesses are seen over it.
-/
namespace CurveGuess.Terminal

/-- A curve with its formula. -/
structure Drawn where
  curve : Curve
  formula : Formula

namespace Drawn

def isTarget (d : Drawn) : Bool := d.curve.id == Curve.targetId

def glyph (d : Drawn) : Char :=
  if d.isTarget then '*' else if d.curve.id = Curve.createdId then '+' else 'o'

end Drawn

structure Board where
  held : List Drawn
  view : Viewport Float
  /-- In characters. -/
  width : Nat
  height : Nat

namespace Board

def blank : Board := ⟨[], .standard, 73, 25⟩

/-- Drops what is drawn under an identifier. -/
def remove (b : Board) (id : String) : Board :=
  { b with held := b.held.filter fun d => d.curve.id != id }

/-- Draws a curve in place of the one before. What clears or is no formula leaves nothing drawn. -/
def draw (b : Board) (curve : Curve) : Step Board Unit :=
  let removed := b.remove curve.id
  if curve.isClear then ⟨removed, (), [.draw curve]⟩
  else match Formula.read curve.expression with
    | .ok formula =>
      ⟨{ removed with held := removed.held ++ [⟨curve, formula⟩] }, (), [.draw curve]⟩
    | .error f =>
      ⟨removed, (), [.draw curve,
        .remark (f.remark ("not drawing `" ++ curve.id ++ "`") "curve" curve.expression)]⟩

/-- Follows an event. -/
def follow (b : Board) : Event → Step Board Unit
  | .draw curve => b.draw curve
  | .remove id => ⟨b.remove id, (), [.remove id]⟩
  | .remark note => ⟨b, (), [.remark note]⟩

/-- Follows events one after the other. The remarks of the board come in between. -/
def followAll (b : Board) : List Event → Step Board Unit
  | [] => ⟨b, (), []⟩
  | e :: es =>
    let first := b.follow e
    let rest := first.state.followAll es
    ⟨rest.state, (), first.events ++ rest.events⟩

/-- The curves that are drawn and what they are drawn with. The target keeps its equation. -/
def legend (b : Board) : String :=
  "\n".intercalate <| b.held.map fun d =>
    String.singleton d.glyph ++ " " ++ if d.isTarget then "target" else d.curve.equation

/-- The value of `x` in a column. -/
def xAt (b : Board) (column : Nat) : Float :=
  b.view.left + (b.view.right - b.view.left) * column.toFloat / (max (b.width - 1) 1).toFloat

/-- The place at a part of the way over some cells; halves are rounded up. -/
def place (part : Float) (cells : Nat) : Nat :=
  (part * (cells - 1).toFloat).round.toUInt64.toNat

/-- The column of a value of `x` that is in view. -/
def column? (b : Board) (x : Float) : Option Nat :=
  if b.view.left ≤ x ∧ x ≤ b.view.right then
    some (place ((x - b.view.left) / (b.view.right - b.view.left)) b.width)
  else none

/-- The row of a value of `y` that is in view. -/
def row? (b : Board) (y : Float) : Option Nat :=
  if b.view.bottom ≤ y ∧ y ≤ b.view.top then
    some (place ((b.view.top - y) / (b.view.top - b.view.bottom)) b.height)
  else none

/-- The row in which a curve passes through a column. -/
def path (b : Board) (d : Drawn) (column : Nat) : Option Nat :=
  (d.formula.valueAt (b.xAt column)).bind b.row?

/-- The curves in the order in which they are painted: the target first, and the others as they are
held. -/
def painted (b : Board) : List Drawn := b.held.mergeSort fun d e => d.isTarget || !e.isTarget

/-- Paints axes and curves that take the given ways. -/
def paint (b : Board) (row? column? : Option Nat) (path : Drawn → Nat → Option Nat) : Canvas :=
  .paint b.width b.height row? column? (b.painted.map fun d => ⟨d.glyph, path d⟩)

def canvas (b : Board) : Canvas := b.paint (b.row? 0) (b.column? 0) b.path

/-- The picture. -/
def picture (b : Board) : String := "\n".intercalate b.canvas.lines

end Board

end CurveGuess.Terminal
