import CurveGuess.Comparison
import CurveGuess.Event
import CurveGuess.Hint
import CurveGuess.Spelling.Readable
import CurveGuess.Target.Daily

/-!
# Sessions

One game: a target to be guessed, and what the player has done about it since it was loaded.
-/
namespace CurveGuess

/-- Where targets come from: the day, or chance. -/
inductive Mode where
  | daily
  | practice
  deriving DecidableEq, Repr, Inhabited

namespace Mode

def name : Mode → String
  | daily => "Daily"
  | practice => "Practice"

/-- What the identifiers of previews begin with. -/
def previewStem : Mode → String
  | daily => "daily_user"
  | practice => "practice_user"

/-- The identifier of a preview. -/
def previewId (m : Mode) (n : Nat) : String := m.previewStem ++ "_" ++ toString n

end Mode

/-- A target with all that is derived from its text. -/
structure Challenge where
  formal : String
  readable : String
  formula : Option Formula
  facts : Facts Float

/-- Reads the text once: the facts are about the formula that guesses are compared with. -/
def Challenge.ofText (formal : String) : Challenge :=
  let formula := (Formula.read formal).toOption
  { formal := formal
    readable := Spelling.toReadable formal
    formula := formula
    facts := (formula.map fun f => Facts.ofExpr f.expr).getD .none }

/-- What the player is told about a guess. -/
inductive Feedback where
  | empty
  | success (points score : Nat) (target : String)
  | close
  | notClose
  deriving DecidableEq, Repr, Inhabited

def Feedback.text : Feedback → String
  | empty => "Please enter a function!"
  | success points _ target =>
    "🎉 Excellent! Perfect match!\n+" ++ toString points ++ " points\nTarget was: " ++ target
  | close => "Good! Pretty close!\nTry adjusting the coefficients..."
  | notClose => "Not quite right. Keep trying!\nHint: Look at the shape and scale of the graph."

structure Session where
  mode : Mode
  tier : Tier
  date : Option Date
  seed : Option Seed
  challenge : Challenge
  attempts : Nat
  hints : Nat
  score : Nat
  /-- The preview that is drawn. -/
  previewId : Option String
  /-- How many previews were drawn, also for earlier targets. -/
  previews : Nat

namespace Session

/-- A session before its first target is loaded. -/
def blank (mode : Mode) (tier : Tier) (date : Option Date) : Session :=
  ⟨mode, tier, date, none, .ofText "", 0, 0, 0, none, 0⟩

/-- The session in the words of remarks. -/
def title (s : Session) : String := s.mode.name ++ " " ++ s.tier.name

def loadedMessage (s : Session) : String :=
  s.mode.name ++ " " ++ s.tier.label ++ " challenge loaded! Try to guess the function."

def hintsLeft (s : Session) : Nat := Hint.limit - s.hints

/-- Removes the preview if there is one. -/
def clearPreview (s : Session) : Step Session Unit :=
  ⟨{ s with previewId := none }, (), s.previewId.toList.map .remove⟩

/-- The remark on a target that is no formula. -/
def complaint (formal : String) : List Event :=
  match Formula.read formal with
  | .ok _ => []
  | .error f => [.remark (f.remark "target does not parse" "target" formal)]

/-- Draws a target and starts all over with it. -/
def load (s : Session) (formal : String) : Step Session Unit :=
  let cleared := s.clearPreview
  { state :=
      { cleared.state with
        seed := none
        challenge := .ofText formal
        attempts := 0
        hints := 0
        score := 0 }
    reply := ()
    events := complaint formal ++ cleared.events
      ++ [.draw (.target formal), .remark ⟨.info, s.title ++ " challenge loaded"⟩] }

/-- Loads the target of a seed. -/
def loadSeed (s : Session) (seed : Seed) : Step Session Unit :=
  let formal := Target.generate s.tier seed
  let loaded := s.load formal
  { state := { loaded.state with seed := some seed }
    reply := ()
    events := .remark (Target.generated s.tier seed)
      :: .remark ⟨.debug, s.title ++ " target from seed " ++ seed.text ++ ": " ++ formal⟩
      :: loaded.events }

/-- The daily challenge of a date. -/
def daily (date : Date) (tier : Tier) : Step Session Unit :=
  (blank .daily tier (some date)).loadSeed (Target.dailySeed date tier)

/-- Practice with the target of a seed. -/
def practice (tier : Tier) (seed : Seed) : Step Session Unit :=
  (blank .practice tier none).loadSeed seed

/-- A session with a target that someone gave. -/
def ofTarget (mode : Mode) (tier : Tier) (formal : String) : Step Session Unit :=
  (blank mode tier none).load formal

/-- The seed of the next target: that of the day if the session has one, and else a fresh one. -/
def nextSeed (s : Session) (fresh : Seed) : Seed :=
  match s.mode, s.date with
  | .daily, some date => Target.dailySeed date s.tier
  | _, _ => fresh

/-- Loads the next target. -/
def newTarget (s : Session) (fresh : Seed) : Step Session Unit := s.loadSeed (s.nextSeed fresh)

/-- Goes to a tier and loads a target of it. -/
def setTier (s : Session) (tier : Tier) (fresh : Seed) : Step Session Unit :=
  { s with tier := tier }.newTarget fresh

/-- Adds the points for a solution that took the attempts and hints that are counted. -/
def solve (s : Session) : Step Session Feedback :=
  let points := s.tier.score s.attempts s.hints
  { state := { s with score := s.score + points }
    reply := .success points (s.score + points) s.challenge.readable
    events := [.remark ⟨.info, s.title ++ " challenge solved in " ++ toString s.attempts
      ++ " attempt(s) with " ++ toString s.hints ++ " hint(s) for " ++ toString points
      ++ " points"⟩] }

/-- Answers a guess that was compared with the target. -/
def judge (s : Session) (formal : String) (tally : Tally) : Step Session Feedback :=
  let result : Step Session Feedback :=
    match tally.outcome Sampling.standard with
    | .success => s.solve
    | .close => ⟨s, .close, []⟩
    | .notClose => ⟨s, .notClose, []⟩
  { result with
    events := .remark ⟨.debug, "guess `" ++ formal ++ "` matched " ++ toString tally.hits ++ "/"
      ++ toString tally.samples ++ " samples (" ++ toString tally.valid ++ " valid)"⟩
      :: result.events }

/-- Counts a guess, unless it is blank, and compares it with the target. -/
def submit (s : Session) (input : String) : Step Session Feedback :=
  let input := trim input
  if input.isEmpty then ⟨s, .empty, []⟩
  else
    let s := { s with attempts := s.attempts + 1 }
    let formal := Spelling.toFormal input
    match Formula.read formal, s.challenge.formula with
    | .error f, _ => ⟨s, .notClose, [.remark (f.remark "guess does not parse" "guess" formal)]⟩
    | .ok _, none => ⟨s, .notClose, []⟩
    | .ok guess, some target => s.judge formal (.compare guess target Sampling.standard)

/-- The next hint. Hints are counted until there are none left. -/
def hint (s : Session) : Step Session (Hint Float) :=
  { state := if s.hints < Hint.limit then { s with hints := s.hints + 1 } else s
    reply := .after s.hints s.challenge.facts s.challenge.readable
    events := [] }

/-- Draws a preview of a formula in place of the one before. Of anything else there is none. -/
def preview (s : Session) (input : String) : Step Session Unit :=
  let cleared := s.clearPreview
  let input := trim input
  let formal := Spelling.toFormal input
  if input.isEmpty || !(Formula.read formal).isOk then cleared
  else
    let id := s.mode.previewId s.previews
    { state := { cleared.state with previewId := some id, previews := s.previews + 1 }
      reply := ()
      events := cleared.events ++ [.draw (.preview id formal)] }

end Session

end CurveGuess
