import CurveGuess.Calendar
import CurveGuess.Target.Basic

/-!
# The daily target

Every player gets the same target on the same day in the same tier: its seed is the hash of the date
and the name of the tier.
-/
namespace CurveGuess.Target

def dailyText (date : Date) (tier : Tier) : String := date.text ++ tier.name

def dailySeed (date : Date) (tier : Tier) : Seed := .ofText (dailyText date tier)

def daily (date : Date) (tier : Tier) : String := generate tier (dailySeed date tier)

def dailyLabel (date : Date) : String := "Daily Challenge - " ++ date.longText

end CurveGuess.Target
