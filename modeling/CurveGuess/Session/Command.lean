import CurveGuess.Session.Basic

/-!
# Runs of a session

What a player can do in a session, and what comes of doing one thing after the other.
-/
namespace CurveGuess.Session

/-- Where a new target may need it, a command brings along a fresh seed. -/
inductive Command where
  | submit (input : String)
  | hint
  | preview (input : String)
  | clearPreview
  | newTarget (fresh : Seed)
  | setTier (tier : Tier) (fresh : Seed)
  deriving DecidableEq, Repr, Inhabited

inductive Reply where
  | feedback (feedback : Feedback)
  | hint (hint : Hint Float)
  | loaded (message : String)
  | done
  deriving DecidableEq, Repr

/-- The step to a new target, with the message about it. -/
def announced (step : Step Session Unit) : Step Session Reply :=
  step.map fun _ => .loaded step.state.loadedMessage

def perform (s : Session) : Command → Step Session Reply
  | .submit input => (s.submit input).map .feedback
  | .hint => s.hint.map .hint
  | .preview input => (s.preview input).map fun _ => .done
  | .clearPreview => s.clearPreview.map fun _ => .done
  | .newTarget fresh => announced (s.newTarget fresh)
  | .setTier tier fresh => announced (s.setTier tier fresh)

/-- Performs commands one after the other. -/
def run (s : Session) : List Command → Step Session (List Reply)
  | [] => ⟨s, [], []⟩
  | c :: cs =>
    let first := s.perform c
    let rest := run first.state cs
    ⟨rest.state, first.reply :: rest.reply, first.events ++ rest.events⟩

@[simp] theorem run_nil (s : Session) : s.run [] = ⟨s, [], []⟩ := rfl

@[simp] theorem run_cons (s : Session) (c : Command) (cs : List Command) :
    s.run (c :: cs) =
      ⟨((s.perform c).state.run cs).state, (s.perform c).reply :: ((s.perform c).state.run cs).reply,
        (s.perform c).events ++ ((s.perform c).state.run cs).events⟩ := rfl

theorem state_run_append (s : Session) (cs ds : List Command) :
    (s.run (cs ++ ds)).state = ((s.run cs).state.run ds).state := by
  induction cs generalizing s with
  | nil => rfl
  | cons c cs ih => simp [ih]

end CurveGuess.Session
