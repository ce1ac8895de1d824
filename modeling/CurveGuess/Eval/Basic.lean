import CurveGuess.Eval.Context
import CurveGuess.Eval.Fault
import CurveGuess.Expr.Parser

/-!
# The value of a formula

Operands are evaluated from left to right, and the first fault ends the evaluation. What an operator
or a function gives has to be finite.
-/
namespace CurveGuess

variable {R : Type} [Arithmetic R]

/-- Refuses what is not a finite number. -/
def finite (value : R) (span : Span) : Except (EvalFault R) R :=
  if Arithmetic.isFinite value then .ok value else .error ⟨.nonReal, span⟩

/-- Applies a function inside its domain; `span` is the call. -/
def Builtin.apply (f : Builtin) (arg : R) (span : Span) : Except (EvalFault R) R :=
  match f with
  | sin => .ok (Arithmetic.sin arg)
  | cos => .ok (Arithmetic.cos arg)
  | tan => .ok (Arithmetic.tan arg)
  | ln =>
    if Arithmetic.le arg (Arithmetic.ofNat 0) then .error ⟨.logOfNonPositive arg, span⟩
    else .ok (Arithmetic.ln arg)
  | sqrt =>
    if Arithmetic.lt arg (Arithmetic.ofNat 0) then .error ⟨.sqrtOfNegative arg, span⟩
    else .ok (Arithmetic.sqrt arg)
  | exp => .ok (Arithmetic.exp arg)
  | abs => .ok (Arithmetic.abs arg)

def UnaryKind.apply : UnaryKind → R → R
  | neg, a => -a
  | pos, a => a

def BinaryKind.apply : BinaryKind → R → R → R
  | add, a, b => a + b
  | sub, a, b => a - b
  | mul, a, b => a * b
  | div, a, b => a / b
  | exp, a, b => Arithmetic.pow a b

/-- The value of a formula in a context. -/
def Expr.eval (ctx : Context R) : Expr → Except (EvalFault R) R
  | .number v _ => .ok (Arithmetic.ofNumeral v)
  | .symbol i =>
    match ctx.get? i.name with
    | some v => .ok v
    | none => .error ⟨.undefinedVariable i.name, i.span⟩
  | .group _ e _ => e.eval ctx
  | .call i _ _ args s =>
    match Builtin.lookup? i.name, args with
    | none, _ => .error ⟨.undefinedFunction i.name, i.span⟩
    | some f, [] => .error ⟨.missingArgument f, s⟩
    | some f, [arg] => do finite (← f.apply (← arg.eval ctx) s) s
    | some f, args => .error ⟨.tooManyArguments f args.length, s⟩
  | .unary op e _ => do return op.kind.apply (← e.eval ctx)
  | .binary op l r s => do
    let a ← l.eval ctx
    let b ← r.eval ctx
    finite (op.kind.apply a b) s

/-- A text that is a formula, with its tree. -/
structure Formula where
  source : String
  expr : Expr
  deriving Repr, Inhabited

namespace Formula

def read (source : String) : Except FormFault Formula :=
  (parse source).map fun e => ⟨source, e⟩

/-- The value at `x`. -/
def evalAt (f : Formula) (x : R) : Except (EvalFault R) R := f.expr.eval (.ofX x)

/-- The value at `x` if there is a finite one. -/
def valueAt (f : Formula) (x : R) : Option R :=
  (f.evalAt x).toOption.filter fun v => Arithmetic.isFinite v

end Formula

/-- The value at `x` of the formula that a text is. -/
def evaluate (source : String) (x : R) : Option R :=
  (Formula.read source).toOption.bind (·.valueAt x)

end CurveGuess
