import CurveGuess.Terminal.Arguments
import CurveGuess.Terminal.Command

/-!
# The program

How a game starts from its arguments, and what the program writes when it is given all of its input
at once.
-/
namespace CurveGuess.Terminal

/-- The environment variable that says how much of the journal is shown. -/
def journalVariable : String := "RUST_LOG"

def usageText : String :=
  "usage: graphle [daily|practice|create] [options]\n\n" ++
  "options:\n" ++
  "    -d, --difficulty <tier>    easy, medium, hard or very_hard (default: easy)\n" ++
  "        --date <YYYY-MM-DD>    play the daily challenge of another date\n" ++
  "        --seed <n|text>        play the practice target generated from this seed\n" ++
  "        --share <token|link>   play a function someone shared\n" ++
  "        --origin <url>         the site that share links point to\n" ++
  "    -h, --help                 show this message\n\n" ++
  "Set " ++ journalVariable ++ "=debug to see generated targets and similarity ratios."

namespace StartFault

/-- What the program writes about a fault. -/
def text : StartFault → String
  | usage cause => cause.message ++ "\n\n" ++ usageText ++ "\n"
  | unknownTier f => f.diagnostic.report "argument" f.name
  | badToken f token => f.diagnostic.report "argument" token

def notes : StartFault → List Note
  | badToken f _ => [Share.remark f]
  | _ => []

end StartFault

namespace Game

/-- A game before its first screen. -/
def blank (a : Arguments) (today : Date) : Game where
  board := .blank
  dailyTier := a.tier
  practiceTier := a.tier
  date := a.date.getD today
  origin := a.origin
  screen := .create
  daily := none
  practice := none
  creator := .blank

/-- Starts with a session that is practice. -/
def startPractice (g : Game) (opened : Step Session Unit) : Step Game Unit :=
  { g with screen := .play .practice }.play opened

/-- Starts a game, with a greeting. What someone shared comes before everything else. -/
def start (a : Arguments) (today : Date) (fresh : Seed) : Except StartFault (Step Game String) :=
  let g := blank a today
  match a.share, a.activity, a.seed with
  | some link, _, _ =>
    let token := (Share.token? link).getD link
    match Share.decode token with
    | .error f => .error (.badToken f token)
    | .ok formal => .ok ((g.startPractice (Session.ofTarget .practice a.tier formal)).map fun _ =>
      "Shared challenge loaded! Try to guess the function.")
  | none, .practice, some seed =>
    let opened := Session.practice a.tier seed
    .ok ((g.startPractice opened).map fun _ => loadedText opened.state)
  | none, .practice, none => .ok (g.enter (.play .practice) fresh)
  | none, .daily, _ => .ok (g.enter (.play .daily) fresh)
  | none, .create, _ => .ok (g.enter .create fresh)

end Game

/-- How the program starts: with its usage, if that was asked for, or with a game. -/
inductive Launch where
  | usage
  | game (step : Step Game String)

def launch (words : List String) (today : Date) (fresh : Seed) : Except StartFault Launch := do
  let a ← Arguments.read words
  if a.help then return .usage else return .game (← Game.start a today fresh)

/-- What a program writes, and the code with which it ends. -/
structure Output where
  code : Nat
  out : String
  err : String
  deriving DecidableEq, Repr, Inhabited

/-- The output for arguments and lines of input. -/
def output (words : List String) (today : Date) (fresh : Seed) (lines : List (Seed × String)) :
    Output :=
  match launch words today fresh with
  | .error f => ⟨1, "", f.text⟩
  | .ok .usage => ⟨0, usageText ++ "\n", ""⟩
  | .ok (.game step) =>
    ⟨0, String.join ((step.reply :: (step.state.handleAll lines).reply).map (· ++ "\n")), ""⟩

end CurveGuess.Terminal
