import CurveGuess.Eval.Arithmetic
import CurveGuess.Random.Seed

/-!
# Random numbers

A stream of numbers from 0 to 1, the same for the same seed everywhere: a linear recurrence of
modulus 233280. Draws take numbers from a stream, and are functions of the stream they begin with.
-/
namespace CurveGuess

/-- The state of a stream, before the next number is taken. -/
structure Stream where
  state : UInt64
  deriving DecidableEq, Repr, Inhabited

namespace Stream

def modulus : UInt64 := 233280

def ofSeed (s : Seed) : Stream := ⟨s.value⟩

/-- The stream after one number. The product is taken in words of 64 bits. -/
def next (s : Stream) : Stream := ⟨(s.state * 9301 + 49297) % modulus⟩

/-- The stream after `n` numbers. -/
def after : Nat → Stream → Stream
  | 0, s => s
  | n + 1, s => after n s.next

end Stream

/-- A choice that takes numbers from a stream. -/
abbrev Draw (α : Type) := StateM Stream α

namespace Draw

/-- The next number of the stream. -/
def unit (R : Type) [Arithmetic R] : Draw R := fun s =>
  let s' := s.next
  (Arithmetic.ofNat s'.state.toNat / Arithmetic.ofNat Stream.modulus.toNat, s')

/-- A whole number from `low` to `high`. -/
def int (R : Type) [Arithmetic R] (low high : Int) : Draw Int := do
  let u ← unit R
  return Arithmetic.floor (u * Arithmetic.ofInt (high - low + 1)) + low

/-- A place in a list of `n` items. -/
def index (R : Type) [Arithmetic R] (n : Nat) : Draw Nat := do
  let u ← unit R
  return (Arithmetic.floor (u * Arithmetic.ofNat n)).toNat

/-- One of the items; none, and no number is taken, if there are none. -/
def choose (R : Type) [Arithmetic R] {α : Type} (items : List α) : Draw (Option α) :=
  if items.isEmpty then pure none
  else do
    let i ← index R items.length
    return items[i]?

/-- Exchanges the items at two places. -/
def swap {α : Type} (items : List α) (i j : Nat) : List α :=
  match items[i]?, items[j]? with
  | some a, some b => (items.set i b).set j a
  | _, _ => items

/-- Exchanges from the last place down to the second one: the first of the places given is for the
last item. -/
def arrange {α : Type} (items : List α) : List Nat → List α
  | [] => items
  | j :: js => arrange (swap items (js.length + 1) j) js

/-- A place from 0 to `i` for each `i` from `n` down to 1. -/
def places (R : Type) [Arithmetic R] : Nat → Draw (List Nat)
  | 0 => pure []
  | n + 1 => do
    let j ← index R (n + 2)
    let js ← places R n
    return j :: js

/-- The items in random order. -/
def shuffle (R : Type) [Arithmetic R] {α : Type} (items : List α) : Draw (List α) := do
  let js ← places R (items.length - 1)
  return arrange items js

end Draw

end CurveGuess
