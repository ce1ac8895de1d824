import CurveGuess.Curve
import CurveGuess.Eval.Basic
import CurveGuess.Journal
import CurveGuess.Report

/-!
# Events

Playing changes a state, gives an answer and causes events, which are kept in the order in which
they happen.
-/
namespace CurveGuess

/-- A curve is drawn or removed, or something is remarked. -/
inductive Event where
  | draw (curve : Curve)
  | remove (id : String)
  | remark (note : Note)
  deriving DecidableEq, Repr, Inhabited

namespace Event

/-- The remarks among some events. -/
def notes (events : List Event) : List Note :=
  events.filterMap fun
    | remark n => some n
    | _ => none

end Event

/-- What a step leads to. -/
structure Step (S A : Type) where
  state : S
  reply : A
  events : List Event

namespace Step

variable {S A B : Type}

/-- Changes the answer. -/
def map (f : A → B) (s : Step S A) : Step S B := ⟨s.state, f s.reply, s.events⟩

@[simp] theorem state_map (f : A → B) (s : Step S A) : (s.map f).state = s.state := rfl

@[simp] theorem reply_map (f : A → B) (s : Step S A) : (s.map f).reply = f s.reply := rfl

@[simp] theorem events_map (f : A → B) (s : Step S A) : (s.map f).events = s.events := rfl

/-- Another step after the first one, whose answer is not given. -/
def andThen (s : Step S A) (next : S → Step S B) : Step S B :=
  let t := next s.state
  ⟨t.state, t.reply, s.events ++ t.events⟩

end Step

/-- The remark that a text is no formula; `subject` says what became of it, and `name` is what the
text goes by in the report. -/
def FormFault.remark (f : FormFault) (subject name text : String) : Note :=
  ⟨.debug, subject ++ ":\n" ++ f.diagnostic.report name text⟩

end CurveGuess
