import CurveGuess.Eval.Builtin
import CurveGuess.Decimal.Shortest
import CurveGuess.Diagnostic

/-!
# Faults of evaluation

Why a formula has no value at some place.
-/
namespace CurveGuess

inductive EvalCause (R : Type) where
  | undefinedVariable (name : String)
  | undefinedFunction (name : String)
  | tooManyArguments (function : Builtin) (given : Nat)
  | missingArgument (function : Builtin)
  | logOfNonPositive (value : R)
  | sqrtOfNegative (value : R)
  | nonReal
  deriving DecidableEq, Repr

/-- A cause with its place. -/
structure EvalFault (R : Type) where
  cause : EvalCause R
  span : Span
  deriving DecidableEq, Repr

namespace EvalCause

def message {R : Type} : EvalCause R → String
  | undefinedVariable name => "`" ++ name ++ "` is not defined"
  | undefinedFunction name => "the `" ++ name ++ "` function does not exist"
  | tooManyArguments f _ => "too many arguments were given to the `" ++ f.name ++ "` function"
  | missingArgument f => "missing argument for the `" ++ f.name ++ "` function"
  | logOfNonPositive _ => "logarithm of a non-positive number"
  | sqrtOfNegative _ => "square root of a negative number"
  | nonReal => "the result is not a real number"

/-- What to call instead of a function that does not exist. -/
def suggestion (name : String) : String :=
  match (Builtin.similar name).map fun n => "`" ++ emphasis n ++ "`" with
  | [] => "the available functions are: " ++ ", ".intercalate (Builtin.table.map Prod.fst)
  | [n] => "did you mean the " ++ n ++ " function?"
  | ns => "did you mean one of these functions? " ++ ", ".intercalate ns

/-- How many arguments a function takes. -/
def demand (f : Builtin) : String :=
  "the `" ++ emphasis f.name ++ "` function takes " ++ toString f.arity ++ " argument(s)"

def label : EvalCause Float → String
  | undefinedVariable _ => "this variable"
  | undefinedFunction _ => "this function"
  | tooManyArguments _ _ | missingArgument _ => "this function call"
  | logOfNonPositive v | sqrtOfNegative v => "this evaluated to " ++ Decimal.text v
  | nonReal => "this operation"

def help {R : Type} : EvalCause R → Option String
  | undefinedVariable _ =>
    some ("the only variable is " ++ emphasis "x" ++ "; the constants " ++ emphasis "pi" ++ " and "
      ++ emphasis "e" ++ " are also available")
  | undefinedFunction name => some (suggestion name)
  | tooManyArguments f given => some (demand f ++ "; " ++ toString given ++ " were given")
  | missingArgument f => some (demand f)
  | logOfNonPositive _ => some "the logarithm is only defined for numbers greater than zero"
  | sqrtOfNegative _ => some "the square root of a negative number is not a real number"
  | nonReal => none

end EvalCause

def EvalFault.diagnostic (f : EvalFault Float) : Diagnostic :=
  ⟨f.cause.message, f.cause.label, f.cause.help, f.span⟩

end CurveGuess
