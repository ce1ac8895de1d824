/-!
# Painting with characters

A picture is painted layer by layer, and what is painted later covers what was there before: first
the horizontal axis, then the vertical one and the point where they meet, then the curves.
-/
namespace CurveGuess.Terminal

/-- Rows of characters, from the top. -/
structure Canvas where
  rows : List (List Char)
  deriving DecidableEq, Repr, Inhabited

/-- A curve on a canvas: the row in which it passes through a column, if it does. -/
structure Trace where
  glyph : Char
  row? : Nat → Option Nat

namespace Canvas

def blank (width height : Nat) : Canvas := ⟨List.replicate height (List.replicate width ' ')⟩

/-- Paints one cell. -/
def put (c : Canvas) (row column : Nat) (glyph : Char) : Canvas :=
  ⟨c.rows.modify row fun cells => cells.set column glyph⟩

/-- Paints a whole row. -/
def fillRow (c : Canvas) (row : Nat) (glyph : Char) : Canvas :=
  ⟨c.rows.modify row fun cells => cells.map fun _ => glyph⟩

/-- Paints a whole column. -/
def fillColumn (c : Canvas) (column : Nat) (glyph : Char) : Canvas :=
  ⟨c.rows.map fun cells => cells.set column glyph⟩

/-- Paints the axes that are to be seen. -/
def paintAxes (c : Canvas) (row? column? : Option Nat) : Canvas :=
  let c := match row? with
    | some row => c.fillRow row '-'
    | none => c
  let c := match column? with
    | some column => c.fillColumn column '|'
    | none => c
  match row?, column? with
  | some row, some column => c.put row column '+'
  | _, _ => c

/-- Paints a curve in the first `width` columns. -/
def paintTrace (width : Nat) (c : Canvas) (t : Trace) : Canvas :=
  (List.range width).foldl (fun c column =>
    match t.row? column with
    | some row => c.put row column t.glyph
    | none => c) c

/-- Paints the axes and then the curves. -/
def paint (width height : Nat) (row? column? : Option Nat) (traces : List Trace) : Canvas :=
  traces.foldl (paintTrace width) ((blank width height).paintAxes row? column?)

def lines (c : Canvas) : List String := c.rows.map String.ofList

end Canvas

end CurveGuess.Terminal
