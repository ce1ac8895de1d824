import CurveGuess.Calendar.Reading
import CurveGuess.Share.Link
import CurveGuess.Tier
import CurveGuess.Random.Seed

/-!
# Arguments

What the game is started with: words that say what to play, and flags with a value each. What comes
later counts more.
-/
namespace CurveGuess.Terminal

/-- What to start with. -/
inductive Activity where
  | daily
  | practice
  | create
  deriving DecidableEq, Repr, Inhabited

structure Arguments where
  activity : Activity
  tier : Tier
  date : Option Date
  seed : Option Seed
  /-- A token or a link that someone shared. -/
  share : Option String
  /-- Where links lead to. -/
  origin : String
  help : Bool
  deriving DecidableEq, Repr

def Arguments.default : Arguments :=
  ⟨.daily, .easy, none, none, none, "http://localhost:8000", false⟩

/-- Why the arguments make no sense. -/
inductive UsageCause where
  | missingValue (flag : String)
  | invalidDate (input : String) (fault : DateFault)
  | unexpected (argument : String)
  deriving DecidableEq, Repr, Inhabited

def UsageCause.message : UsageCause → String
  | missingValue flag => "missing value for `" ++ flag ++ "`"
  | invalidDate input fault => "invalid date `" ++ input ++ "`: " ++ fault.text
  | unexpected argument => "unexpected argument `" ++ argument ++ "`"

/-- Why the game does not start. -/
inductive StartFault where
  | usage (cause : UsageCause)
  | unknownTier (fault : UnknownTier)
  | badToken (fault : ShareFault) (token : String)
  deriving DecidableEq, Repr, Inhabited

/-- The flags that need a value. -/
inductive Flag where
  | tier
  | date
  | seed
  | share
  | origin
  deriving DecidableEq, Repr, Inhabited

def Flag.ofText? : String → Option Flag
  | "-d" | "--difficulty" => some tier
  | "--date" => some date
  | "--seed" => some seed
  | "--share" => some share
  | "--origin" => some origin
  | _ => none

namespace Arguments

/-- Takes in a word that stands for itself. -/
def withWord? (a : Arguments) : String → Option Arguments
  | "daily" => some { a with activity := .daily }
  | "practice" => some { a with activity := .practice }
  | "create" => some { a with activity := .create }
  | "-h" | "--help" => some { a with help := true }
  | _ => none

/-- Takes in the value of a flag. -/
def withValue (a : Arguments) (flag : Flag) (value : String) : Except StartFault Arguments :=
  match flag with
  | .tier =>
    match Tier.read value with
    | .ok tier => .ok { a with tier := tier }
    | .error fault => .error (.unknownTier fault)
  | .date =>
    match Date.read value with
    | .ok date => .ok { a with date := some date }
    | .error fault => .error (.usage (.invalidDate value fault))
  | .seed => .ok { a with seed := some (.read value) }
  | .share => .ok { a with share := some value }
  | .origin => .ok { a with origin := value }

/-- Takes in one argument after the other. A flag takes the next one, whatever it is. -/
def extend (a : Arguments) : List String → Except StartFault Arguments
  | [] => .ok a
  | word :: rest =>
    match a.withWord? word with
    | some b => b.extend rest
    | none =>
      match Flag.ofText? word, rest with
      | none, _ => .error (.usage (.unexpected word))
      | some _, [] => .error (.usage (.missingValue word))
      | some flag, value :: rest =>
        match a.withValue flag value with
        | .ok b => b.extend rest
        | .error fault => .error fault

def read (words : List String) : Except StartFault Arguments := default.extend words

end Arguments

end CurveGuess.Terminal
