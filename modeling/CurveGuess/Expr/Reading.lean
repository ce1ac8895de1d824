import CurveGuess.Token.Cursor
import CurveGuess.Expr.Fault

/-!
# Readings

What comes of reading at a cursor: a value or a fault, and in both cases the place where reading
stopped. Readings are put together by `andThen`; inside recursive readers `advance` is used in its
place, which hands on the fact that the cursor has moved.
-/
namespace CurveGuess

inductive Reading (α : Type) where
  | done (value : α) (cursor : Cursor)
  | failed (fault : FormFault) (cursor : Cursor)
  deriving Repr

namespace Reading

variable {α β : Type}

def cursor : Reading α → Cursor
  | done _ c => c
  | failed _ c => c

/-- Goes on after a success. -/
def andThen : Reading α → (α → Cursor → Reading β) → Reading β
  | done a c, f => f a c
  | failed e c, _ => failed e c

def map (f : α → β) (r : Reading α) : Reading β := r.andThen fun a c => done (f a) c

/-- Goes on after a success that took at least one of the tokens to come at `c`. A reading that
took none ends here, since nothing could be read in its place either. -/
def advance (c : Cursor) (r : Reading α)
    (f : α → (c' : Cursor) → c'.rest.length < c.rest.length → Reading β) : Reading β :=
  match r with
  | done a c' =>
    if h : c'.rest.length < c.rest.length then f a c' h else failed ⟨.unexpectedEnd, c'.span⟩ c'
  | failed e c' => failed e c'

/-- Goes back to `c` after a failure. -/
def restore (c : Cursor) : Reading α → Reading α
  | failed e _ => failed e c
  | r => r

/-- The second reading instead of a failed first one. -/
def orElse : Reading α → Reading α → Reading α
  | failed _ _, r => r
  | r, _ => r

/-- The value or the fault, without the place. -/
def result : Reading α → Except FormFault α
  | done a _ => .ok a
  | failed e _ => .error e

@[simp] theorem andThen_done (a : α) (c : Cursor) (f : α → Cursor → Reading β) :
    (done a c).andThen f = f a c := rfl

@[simp] theorem andThen_failed (e : FormFault) (c : Cursor) (f : α → Cursor → Reading β) :
    (failed e c).andThen f = failed e c := rfl

@[simp] theorem advance_failed (e : FormFault) (c c' : Cursor)
    (f : α → (c' : Cursor) → c'.rest.length < c.rest.length → Reading β) :
    (failed e c').advance c f = failed e c' := rfl

theorem advance_done (a : α) (c c' : Cursor) (h : c'.rest.length < c.rest.length)
    (f : α → (c' : Cursor) → c'.rest.length < c.rest.length → Reading β) :
    (done a c').advance c f = f a c' h := by
  simp [advance, h]

@[simp] theorem restore_done (c c' : Cursor) (a : α) : (done a c').restore c = done a c' := rfl

@[simp] theorem restore_failed (c c' : Cursor) (e : FormFault) :
    (failed e c' : Reading α).restore c = failed e c := rfl

end Reading

end CurveGuess
