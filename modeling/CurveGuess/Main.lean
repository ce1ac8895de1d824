import Std.Time.Date.PlainDate
import Std.Time.DateTime.Timestamp
import CurveGuess.Terminal.Program

/-!
# The command line

Reads arguments and lines, writes answers, and brings along what the game does not know by itself:
the date and fresh seeds. The journal goes to the error stream.
-/
namespace CurveGuess.Terminal

/-- The date at Greenwich. -/
def today : IO Date := do
  let day := Std.Time.PlainDate.ofEpochDay (← Std.Time.Timestamp.now).toDaysSinceUnixEpoch
  match Date.of? day.year.toInt day.month.toNat day.day.toNat with
  | some date => return date
  | none => throw (IO.userError "no date")

def freshSeed : IO Seed := do return ⟨(← IO.rand 0 (Target.practiceSeeds - 1)).toUInt64⟩

/-- Writes the remarks that the environment asks for. -/
def writeNotes (notes : List Note) : IO Unit := do
  let setting := (← IO.getEnv journalVariable).getD ""
  for n in notes do
    if n.level.isShown setting then IO.eprintln n.line

/-- Answers lines until the input or the game ends. Whoever sits at a terminal is asked for each
line, and may leave it blank. -/
partial def answerLines (g : Game) (isTerminal : Bool) : IO Unit := do
  if isTerminal then
    IO.print "y = "
    (← IO.getStdout).flush
  let line ← (← IO.getStdin).getLine
  if line.isEmpty then return
  if isTerminal && (trim line).isEmpty then answerLines g isTerminal
  else
    let step := g.handle (← freshSeed) line
    writeNotes (Event.notes step.events)
    match step.reply with
    | .quit => return
    | .print text =>
      IO.println text
      answerLines step.state isTerminal

end CurveGuess.Terminal

open CurveGuess CurveGuess.Terminal in
/-- Runs the program. -/
def main (words : List String) : IO UInt32 := do
  match launch words (← today) (← freshSeed) with
  | .error f =>
    writeNotes f.notes
    IO.eprint f.text
    return 1
  | .ok .usage =>
    IO.println usageText
    return 0
  | .ok (.game step) =>
    writeNotes (Event.notes step.events)
    IO.println step.reply
    let isTerminal ← (← IO.getStdin).isTty
    if isTerminal then IO.println "Type :help for commands, :plot to see the graph."
    answerLines step.state isTerminal
    return 0
