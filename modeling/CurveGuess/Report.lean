import CurveGuess.Diagnostic
import CurveGuess.Text.Blank
import CurveGuess.Text.Width

/-!
# Reports

A fault drawn under the line it is in, in colour. The columns of a span are counted in characters. A
span that goes on behind the last character has no place under the line; then the line is left out,
or its beginning is marked if the span goes on for more than one column.
-/
namespace CurveGuess.Report

def error : Colour := ⟨"31"⟩
def margin : Colour := ⟨"38;5;246"⟩
def gap : Colour := ⟨"38;5;240"⟩
def plain : Colour := ⟨"38;5;249"⟩
def help : Colour := ⟨"38;5;115"⟩

/-- How a span lies on a line of some number of characters. -/
inductive Fit where
  | inside
  | sticksOut
  | beyond
  deriving DecidableEq, Repr, Inhabited

def fit (length : Nat) (s : Span) : Fit :=
  if s.stop ≤ length then .inside
  else if s.start ≤ length && length < max (s.stop - 1) s.start then .sticksOut
  else .beyond

/-- The width of the character in a column; a tab goes to the next multiple of four. -/
def cellWidth (source : List Char) (col : Nat) : Nat :=
  match source[col]? with
  | none => 1
  | some '\t' => (col / 4 + 1) * 4 - col
  | some c => if isBlank c then 1 else columns c

/-- Draws under the first `n` columns of a line: in each column a mark, and what fills up the width
of the character above it. -/
def under (line : List Char) (n : Nat) (mark : Nat → String × String) : String :=
  String.join <| (List.range n).map fun col =>
    match cellWidth line col with
    | 0 => ""
    | w + 1 => (mark col).1 ++ String.join (List.replicate w (mark col).2)

/-- The characters of a line, those inside the span in the colour of expressions. -/
def paintLine (line : List Char) (s : Span) : String :=
  String.join <| line.zipIdx.map fun (c, col) =>
    let colour := if s.start ≤ col && col < s.stop then Colour.expression else plain
    if isBlank c then String.join (List.replicate (cellWidth line col) (colour.paint " "))
    else colour.paint (String.singleton c)

/-- The underline of a span, with the start of the arrow at its middle. -/
def underline (line : List Char) (s : Span) : String :=
  under line (s.stop + 2) fun col =>
    let isInside := s.start ≤ col && col < s.stop
    let draw (m : String) := Colour.expression.paint m
    if col = max ((s.start + s.stop) / 2) s.start then
      if isInside then (draw "┬", draw "─") else (draw "│", draw " ")
    else if isInside then (draw "─", draw "─")
    else (" ", " ")

/-- The arrow from the middle of a span to the label. -/
def arrow (line : List Char) (s : Span) : String :=
  let middle := max ((s.start + s.stop) / 2) s.start
  under line (s.stop + 2) fun col =>
    let draw (m : String) := Colour.expression.paint m
    if col = middle then (draw "╰", draw "─")
    else if middle < col then (draw "─", draw "─")
    else (" ", " ")

/-- The margin of a line that is not of the source. -/
def blankMargin : String := " " ++ gap.paint "  │" ++ " "

def sourceMargin : String := " " ++ margin.paint "1 │" ++ " "

/-- The source line with what is drawn under it. -/
def body (d : Diagnostic) (source : String) : List String :=
  let line := trimEnd source.toList
  let length := source.toList.length
  let draw (m : String) := Colour.expression.paint m
  match fit length d.span with
  | .inside =>
    [sourceMargin ++ paintLine line d.span,
      blankMargin ++ underline line d.span,
      blankMargin ++ arrow line d.span ++ " " ++ d.label]
  | .sticksOut =>
    if d.span.start < length then
      [sourceMargin ++ draw "╭" ++ draw "─" ++ draw "▶" ++ draw " " ++ paintLine line d.span]
    else [blankMargin]
  | .beyond => [blankMargin]

/-- What stands between the margin and the help: room for the mark of a span that sticks out. -/
def inset (d : Diagnostic) (source : String) : String :=
  match fit source.toList.length d.span with
  | .sticksOut =>
    if d.span.start < source.toList.length then "    "
    else Colour.expression.paint "│" ++ "   "
  | _ => ""

/-- Where a report is about, counted from one. -/
def location (d : Diagnostic) (source : String) : String :=
  if d.span.start ≤ source.toList.length then "1:" ++ toString (d.span.start + 1) else "?:?"

def lines (d : Diagnostic) (name source : String) : List String :=
  let header :=
    [error.paint "Error:" ++ " " ++ d.message,
      "   " ++ margin.paint "╭" ++ margin.paint "─" ++ margin.paint "[" ++ name ++ ":"
        ++ location d source ++ margin.paint "]",
      "   " ++ margin.paint "│"]
  let footer :=
    match d.help with
    | none => []
    | some text =>
      let left := blankMargin ++ inset d source
      [left, left ++ help.paint "Help" ++ ": " ++ text]
  header ++ body d source ++ footer ++ [margin.paint "───╯"]

end Report

/-- The report of a fault in a source of one line that goes by the given name. -/
def Diagnostic.report (d : Diagnostic) (name source : String) : String :=
  String.join ((Report.lines d name source).map (· ++ "\n"))

end CurveGuess
