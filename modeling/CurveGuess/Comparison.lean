import CurveGuess.Eval.Basic
import CurveGuess.Journal

/-!
# Comparing two curves

A guess is compared with a target by sampling both at evenly spaced points. A sample counts for the
guess if both curves are defined there and close to each other, and all samples count in the end.
-/
namespace CurveGuess

variable {R : Type}

/-- Where to sample, and how close is close. -/
structure Sampling (R : Type) where
  start : R
  stop : R
  samples : Nat
  absTolerance : R
  relTolerance : R
  successAbove : R
  closeAbove : R

/-- The game samples 30 points from -10 to 10. -/
def Sampling.standard : Sampling Float where
  start := -10
  stop := 10
  samples := 30
  absTolerance := 0.1
  relTolerance := 0.01
  successAbove := 0.95
  closeAbove := 0.7

inductive Outcome where
  | success
  | close
  | notClose
  deriving DecidableEq, Repr, Inhabited

/-- How many samples a guess got right, how many had both curves defined, and how many there were. -/
structure Tally where
  hits : Nat
  valid : Nat
  samples : Nat
  deriving DecidableEq, Repr, Inhabited

variable [Arithmetic R]

namespace Sampling

/-- The sampled values of `x`; both ends are among them if there are two or more. -/
def points (s : Sampling R) : List R :=
  let step := (s.stop - s.start) / Arithmetic.ofNat (max (s.samples - 1) 1)
  (List.range s.samples).map fun i => s.start + Arithmetic.ofNat i * step

/-- Is a guessed value close to the right one, absolutely or in relation to its size? -/
def isWithin (s : Sampling R) (guess target : R) : Bool :=
  let diff := Arithmetic.abs (guess - target)
  Arithmetic.lt diff s.absTolerance ||
    Arithmetic.lt (diff / (Arithmetic.abs target + Arithmetic.ofNat 1)) s.relTolerance

def classify (s : Sampling R) (ratio : R) : Outcome :=
  if Arithmetic.lt s.successAbove ratio then .success
  else if Arithmetic.lt s.closeAbove ratio then .close
  else .notClose

end Sampling

namespace Tally

/-- Counts one sample. -/
def count (s : Sampling R) (guess target : Except (EvalFault R) R) (t : Tally) : Tally :=
  match guess, target with
  | .ok g, .ok y =>
    if Arithmetic.isFinite g && Arithmetic.isFinite y then
      { t with valid := t.valid + 1, hits := t.hits + if s.isWithin g y then 1 else 0 }
    else t
  | _, _ => t

/-- Samples both curves at a point, in a context that keeps its other values. -/
def step (s : Sampling R) (guess target : Formula) (state : Context R × Tally) (x : R) :
    Context R × Tally :=
  let ctx := state.1.setX x
  let g := guess.expr.eval ctx
  let ctx := ctx.setX x
  (ctx, state.2.count s g (target.expr.eval ctx))

/-- Compares a guess with a target at every point. -/
def compare (guess target : Formula) (s : Sampling R) : Tally :=
  (s.points.foldl (step s guess target) (.constants, ⟨0, 0, s.samples⟩)).2

/-- The part of all samples that the guess got right. -/
def ratio (t : Tally) : R :=
  if t.samples = 0 then Arithmetic.ofNat 0
  else Arithmetic.ofNat t.hits / Arithmetic.ofNat t.samples

def outcome (t : Tally) (s : Sampling R) : Outcome := s.classify t.ratio

/-- All three counts in words. -/
def text (t : Tally) : String :=
  "SimilarityReport \x7b matches: " ++ toString t.hits ++ ", valid: " ++ toString t.valid
    ++ ", samples: " ++ toString t.samples ++ " \x7d"

end Tally

/-- How similar two texts are as formulas, with a remark. Texts that are no formulas are not similar
to anything. -/
def similarity (guess target : String) : Float × Note :=
  match Formula.read guess, Formula.read target with
  | .ok g, .ok t =>
    let tally := Tally.compare g t Sampling.standard
    (tally.ratio, ⟨.debug, "similarity of `" ++ guess ++ "` to `" ++ target ++ "`: " ++ tally.text⟩)
  | g, t =>
    (0, ⟨.debug, "similarity of unparseable input: guess ok = " ++ toString g.isOk
      ++ ", target ok = " ++ toString t.isOk⟩)

end CurveGuess
