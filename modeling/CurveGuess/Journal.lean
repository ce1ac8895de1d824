/-!
# The journal

Remarks on what the game does, for whoever looks after it.
-/
namespace CurveGuess

inductive Level where
  | debug
  | info
  | warn
  deriving DecidableEq, Repr, Inhabited

def Level.word : Level → String
  | debug => "DEBUG"
  | info => "INFO"
  | warn => "WARN"

/-- Does the journal show a level under a setting? Without a known setting it shows warnings. -/
def Level.isShown (l : Level) (setting : String) : Bool :=
  match setting with
  | "debug" | "trace" => true
  | "info" => l != debug
  | "error" | "off" => false
  | _ => l == warn

/-- One remark. -/
structure Note where
  level : Level
  text : String
  deriving DecidableEq, Repr, Inhabited

def Note.line (n : Note) : String := n.level.word ++ " " ++ n.text

end CurveGuess
