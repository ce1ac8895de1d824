import CurveGuess.Eval.Arithmetic
import CurveGuess.Expr.Parser
import CurveGuess.Expr.Traversal

/-!
# Facts about a formula

What hints are made of: the terms of a formula, their kinds, the numbers that are written in it and
a constant at its end. All of it is read off the tree that the formula is evaluated by.
-/
namespace CurveGuess

/-- The kinds of term, in the order in which hints list them. -/
inductive TermKind where
  | quadratic
  | linear
  | sine
  | cosine
  | logarithmic
  | squareRoot
  | exponential
  deriving DecidableEq, Repr, Inhabited

namespace TermKind

def all : List TermKind :=
  [quadratic, linear, sine, cosine, logarithmic, squareRoot, exponential]

def text : TermKind → String
  | quadratic => "quadratic"
  | linear => "linear"
  | sine => "sine"
  | cosine => "cosine"
  | logarithmic => "logarithmic"
  | squareRoot => "square root"
  | exponential => "exponential"

/-- The kind of a call. -/
def ofCall? (name : String) : Option TermKind :=
  if name = "sin" then some sine
  else if name = "cos" then some cosine
  else if name = "ln" ∨ name = "log" then some logarithmic
  else if name = "sqrt" then some squareRoot
  else none

end TermKind

namespace Expr

/-- Is this the variable, perhaps inside groups? -/
def isX : Expr → Bool
  | symbol i => i.name = "x"
  | group _ e _ => e.isX
  | _ => false

def containsX (e : Expr) : Bool := e.nodes.any isX

/-- A summand of a formula. -/
structure Summand where
  isSubtracted : Bool
  expr : Expr

/-- The summands of a sum, from left to right. Groups are not opened. -/
def summands (isSubtracted : Bool) : Expr → List Summand
  | binary op l r s =>
    match op.kind with
    | .add => l.summands isSubtracted ++ r.summands isSubtracted
    | .sub => l.summands isSubtracted ++ r.summands (!isSubtracted)
    | _ => [⟨isSubtracted, binary op l r s⟩]
  | e => [⟨isSubtracted, e⟩]

/-- The numeral that a node is. -/
def numeral? : Expr → Option Numeral
  | number v _ => some v
  | _ => none

/-- The numerals of a formula, from left to right. -/
def numerals (e : Expr) : List Numeral := e.nodes.filterMap numeral?

section
variable (R : Type) [Arithmetic R]

/-- The value of a number, perhaps inside groups and with minus signs. -/
def literal? : Expr → Option R
  | number v _ => some (Arithmetic.ofNumeral v)
  | group _ e _ => e.literal?
  | unary op e _ =>
    match op.kind with
    | .neg => e.literal?.map (-·)
    | .pos => none
  | _ => none

/-- The kind of a term. In a product the last factor with a kind decides. -/
def kind? : Expr → Option TermKind
  | number _ _ => none
  | symbol i => if i.name = "x" then some .linear else none
  | group _ e _ => e.kind?
  | call i _ _ _ _ => TermKind.ofCall? i.name
  | unary _ e _ => e.kind?
  | binary op l r _ =>
    match op.kind with
    | .exp =>
      if l.isX then
        if (r.literal? R).any (Arithmetic.same · (Arithmetic.ofNat 2)) then some .quadratic
        else none
      else if (l.literal? R).isSome && r.containsX then some .exponential
      else none
    | _ => r.kind?.or l.kind?

end

end Expr

/-- What there is to say about a formula. -/
structure Facts (R : Type) where
  /-- How many terms there are, with the offset. -/
  terms : Nat
  /-- The kinds of the terms, without the offset. -/
  kinds : List TermKind
  /-- The written numbers between 1 and 100 in ascending order; 1 if there is none. -/
  coefficients : List R
  /-- The constant at the end, or zero. -/
  offset : R

namespace Facts

section
variable {R : Type} [Arithmetic R]

/-- What is said of a text that is no formula. -/
def none : Facts R := ⟨0, [], [Arithmetic.ofNat 1], Arithmetic.ofNat 0⟩

def isCoefficient (v : R) : Bool :=
  Arithmetic.lt (Arithmetic.ofNat 1) v && Arithmetic.lt v (Arithmetic.ofNat 100)

def coefficientsOf (e : Expr) : List R :=
  let found := (e.numerals.map Arithmetic.ofNumeral).filter isCoefficient
  if found.isEmpty then [Arithmetic.ofNat 1] else found.mergeSort Arithmetic.le

/-- The number that ends a sum of two or more terms. -/
def offset? (terms : List Expr.Summand) : Option R :=
  if terms.length < 2 then .none
  else terms.getLast?.bind fun last =>
    (last.expr.literal? R).map fun v => if last.isSubtracted then -v else v

def ofExpr (e : Expr) : Facts R :=
  let terms := e.summands false
  let offset : Option R := offset? terms
  let body := if offset.isSome then terms.dropLast else terms
  let kinds := body.filterMap (·.expr.kind? R)
  { terms := terms.length
    kinds := TermKind.all.filter (kinds.contains ·)
    coefficients := coefficientsOf e
    offset := offset.getD (Arithmetic.ofNat 0) }

/-- The facts about the formula that a text is. -/
def ofText (formal : String) : Facts R :=
  match parse formal with
  | .ok e => ofExpr e
  | .error _ => .none

/-- The smallest and the largest coefficient. -/
def range (f : Facts R) : R × R :=
  (f.coefficients.head?.getD (Arithmetic.ofNat 1), f.coefficients.getLast?.getD (Arithmetic.ofNat 1))

end

end Facts

end CurveGuess
