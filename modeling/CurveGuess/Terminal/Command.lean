import CurveGuess.Terminal.Game

/-!
# Lines of input

A line that starts with a colon is a command, and any other line is a guess.
-/
namespace CurveGuess.Terminal

inductive Command where
  | quit
  | help
  | hint
  | preview (input : String)
  | plot
  | status
  | newTarget
  | setTier (text : String)
  | setMode (text : String)
  | share
  | unknown (name : String)
  | guess (input : String)
  deriving DecidableEq, Repr, Inhabited

namespace Command

/-- The command of a name, with what follows the name. -/
def ofName (name rest : String) : Command :=
  match name with
  | "q" | "quit" | "exit" => quit
  | "h" | "help" => help
  | "hint" => hint
  | "p" | "preview" => preview rest
  | "plot" => plot
  | "status" => status
  | "new" => newTarget
  | "d" | "difficulty" => setTier rest
  | "m" | "mode" => setMode rest
  | "share" => share
  | _ => unknown name

/-- What a line says. The name of a command ends at a blank. -/
def ofLine (line : String) : Command :=
  let line := trim line
  match line.toList with
  | ':' :: cs =>
    ofName (String.ofList (cs.takeWhile (!isBlank ·)))
      (trim (String.ofList (cs.dropWhile (!isBlank ·))))
  | _ => guess line

end Command

/-- The answer to a line. -/
inductive Reply where
  | print (text : String)
  | quit
  deriving DecidableEq, Repr, Inhabited

def helpText : String :=
  "Type a function of x to guess the target, such as `3x^2 + sin(x)`.\n\n" ++
  ":hint                 get a hint (the third one reveals the answer)\n" ++
  ":preview <function>   draw a function without guessing it\n" ++
  ":plot                 show the graph\n" ++
  ":status               show attempts, hints, and score\n" ++
  ":new                  start over with a new target\n" ++
  ":difficulty <tier>    switch to easy, medium, hard or very_hard\n" ++
  ":mode <mode>          switch to daily, practice or create\n" ++
  ":share                print a link to the function\n" ++
  ":help                 show this message\n" ++
  ":quit                 leave"

namespace Game

/-- Follows a command; a fresh seed is there if it needs one. -/
def perform (g : Game) (fresh : Seed) : Command → Step Game Reply
  | .quit => ⟨g, .quit, []⟩
  | .help => ⟨g, .print helpText, []⟩
  | .hint => g.hint.map .print
  | .preview input => (g.preview input).map .print
  | .plot => ⟨g, .print g.plotText, []⟩
  | .status => ⟨g, .print g.statusText, []⟩
  | .newTarget => (g.newTarget fresh).map .print
  | .setTier text => (g.setTier text fresh).map .print
  | .setMode text => (g.setMode text fresh).map .print
  | .share => ⟨g, .print g.shareText, []⟩
  | .unknown name => ⟨g, .print ("unknown command `:" ++ name ++ "`, try :help"), []⟩
  | .guess input => (g.guess input).map .print

/-- Answers a line. -/
def handle (g : Game) (fresh : Seed) (line : String) : Step Game Reply :=
  g.perform fresh (.ofLine line)

/-- Answers lines, each of which comes with a fresh seed, until one of them ends the game. -/
def handleAll (g : Game) : List (Seed × String) → Step Game (List String)
  | [] => ⟨g, [], []⟩
  | (fresh, line) :: rest =>
    let first := g.handle fresh line
    match first.reply with
    | .quit => ⟨first.state, [], first.events⟩
    | .print text => first.andThen fun g => (g.handleAll rest).map (text :: ·)

end Game

end CurveGuess.Terminal
