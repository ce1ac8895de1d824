import CurveGuess.Session.Basic
import CurveGuess.Share.Creator
import CurveGuess.Terminal.Board

/-!
# A game in the terminal

The player is on one of three screens: the daily challenge, practice, or the making of a function.
There is one session for each of the first two, and all of them draw on one board.
-/
namespace CurveGuess.Terminal

inductive Screen where
  | play (mode : Mode)
  | create
  deriving DecidableEq, Repr, Inhabited

structure Game where
  board : Board
  dailyTier : Tier
  practiceTier : Tier
  /-- The date of the daily challenge. -/
  date : Date
  /-- Where links lead to. -/
  origin : String
  screen : Screen
  /-- The last session of the daily challenge. -/
  daily : Option Session
  /-- The last practice session. -/
  practice : Option Session
  creator : Creator

/-- What is said of a session when its target is loaded. -/
def loadedText (s : Session) : String :=
  match s.date with
  | some date => Target.dailyLabel date ++ "\n" ++ s.loadedMessage
  | none => s.loadedMessage

/-- A session of a mode as it starts. -/
def openSession (mode : Mode) (tier : Tier) (date : Date) (fresh : Seed) : Step Session Unit :=
  match mode with
  | .daily => Session.daily date tier
  | .practice => Session.practice tier fresh

namespace Game

variable {A : Type}

def tier (g : Game) : Mode → Tier
  | .daily => g.dailyTier
  | .practice => g.practiceTier

def session? (g : Game) : Mode → Option Session
  | .daily => g.daily
  | .practice => g.practice

/-- The session on the screen. -/
def active? (g : Game) : Option Session :=
  match g.screen with
  | .play mode => g.session? mode
  | .create => none

/-- Keeps a session as the last one of its mode. -/
def keep (g : Game) (s : Session) : Game :=
  match s.mode with
  | .daily => { g with daily := some s }
  | .practice => { g with practice := some s }

/-- Lets the board follow a step of a session. -/
def play (g : Game) (step : Step Session A) : Step Game A :=
  let shown := g.board.followAll step.events
  ⟨{ g.keep step.state with board := shown.state }, step.reply, shown.events⟩

/-- Lets the board follow a step in making a function. -/
def write (g : Game) (step : Step Creator A) : Step Game A :=
  let shown := g.board.followAll step.events
  ⟨{ g with creator := step.state, board := shown.state }, step.reply, shown.events⟩

/-- Takes away what only the present screen draws. -/
def leave (g : Game) : Step Game Unit :=
  match g.active? with
  | some s => g.play s.clearPreview
  | none => g.write Creator.clear

/-- Goes to a screen, and starts anew there. -/
def enter (g : Game) (screen : Screen) (fresh : Seed) : Step Game String :=
  g.leave.andThen fun g =>
    let g := { g with screen := screen }
    match screen with
    | .create => (g.write Creator.start).map fun _ =>
      "Create mode! Type a function, then :share to get a link to it."
    | .play mode =>
      let opened := openSession mode (g.tier mode) g.date fresh
      (g.play opened).map fun _ => loadedText opened.state

/-- What is said when there is nothing to guess or to draw. -/
def emptyText : String := "Please enter a function!"

/-- Takes a line as a guess, which is drawn as well, or as the function to make. -/
def guess (g : Game) (input : String) : Step Game String :=
  match g.active? with
  | some s => (g.play ((s.preview input).andThen (·.submit input))).map Feedback.text
  | none =>
    let written := g.write (g.creator.update input)
    written.map fun _ =>
      match written.state.creator.formal? with
      | some formal => written.state.board.picture ++ "\n\ny = " ++ Spelling.toReadable formal
      | none => emptyText

def hint (g : Game) : Step Game String :=
  match g.active? with
  | some s => (g.play s.hint).map Hint.text
  | none => ⟨g, "Hints are only given while playing.", []⟩

/-- Draws a function without guessing it. -/
def preview (g : Game) (input : String) : Step Game String :=
  let drawn := match g.active? with
    | some s => g.play (s.preview input)
    | none => g.write (g.creator.update input)
  drawn.map fun _ => drawn.state.board.picture

def plotText (g : Game) : String := g.board.picture ++ "\n\n" ++ g.board.legend

def statusText (g : Game) : String :=
  match g.active? with
  | some s =>
    s.mode.name ++ " " ++ s.tier.label ++ " | attempts: " ++ toString s.attempts
      ++ " | hints left: " ++ toString s.hintsLeft ++ " | score: " ++ toString s.score
  | none =>
    match g.creator.formal? with
    | some formal => "Creating y = " ++ Spelling.toReadable formal
    | none => "Nothing created yet."

/-- Loads another target, or clears the function that is made. -/
def newTarget (g : Game) (fresh : Seed) : Step Game String :=
  match g.active? with
  | some s =>
    let loaded := s.newTarget fresh
    (g.play loaded).map fun _ => loadedText loaded.state
  | none => (g.write Creator.clear).map fun _ => "Cleared."

/-- Sets the tier of the mode on the screen, or of both modes if there is none. -/
def withTier (g : Game) (tier : Tier) : Game :=
  match g.screen with
  | .play .daily => { g with dailyTier := tier }
  | .play .practice => { g with practiceTier := tier }
  | .create => { g with dailyTier := tier, practiceTier := tier }

/-- Goes to the tier that a text names. -/
def setTier (g : Game) (text : String) (fresh : Seed) : Step Game String :=
  match Tier.read text with
  | .error f => ⟨g, f.diagnostic.report "difficulty" text, []⟩
  | .ok tier =>
    let g := g.withTier tier
    match g.active? with
    | some s =>
      let loaded := s.setTier tier fresh
      (g.play loaded).map fun _ => loadedText loaded.state
    | none => ⟨g, "Difficulty set to " ++ tier.label ++ ".", []⟩

/-- Goes to the screen that a text names. -/
def setMode (g : Game) (text : String) (fresh : Seed) : Step Game String :=
  match text with
  | "daily" => g.enter (.play .daily) fresh
  | "practice" => g.enter (.play .practice) fresh
  | "create" => g.enter .create fresh
  | _ => ⟨g, "unknown mode `" ++ text ++ "`, choose daily, practice or create", []⟩

/-- The path that links lead to. -/
def sharePath : String := "/"

def shareText (g : Game) : String :=
  match g.active? with
  | some s => Share.link g.origin sharePath s.challenge.formal
  | none => (g.creator.link? g.origin sharePath).getD "Please enter a function first!"

end Game

end CurveGuess.Terminal
