import CurveGuess.Token.Basic
import CurveGuess.Decimal.Numeral

/-!
# Expressions

The tree of a formula. Every node remembers the region it was read from; `3x` and `3*x` differ in
whether the multiplication is written, `sin(x)` and `\sin(x)` in whether the call is formal.
-/
namespace CurveGuess

/-- The pair of characters around a group. -/
inductive Delimiter where
  | paren
  | brace
  deriving DecidableEq, Repr, Inhabited

namespace Delimiter

def openKind : Delimiter → Kind
  | paren => .openParen
  | brace => .openBrace

def closeKind : Delimiter → Kind
  | paren => .closeParen
  | brace => .closeBrace

/-- The delimiter that a kind of token opens. -/
def ofKind? : Kind → Option Delimiter
  | .openParen => some paren
  | .openBrace => some brace
  | _ => none

end Delimiter

/-- How tightly an operator binds, from loose to tight. -/
inductive Precedence where
  | any
  | term
  | factor
  | sign
  | power
  deriving DecidableEq, Repr, Inhabited

namespace Precedence

def rank : Precedence → Nat
  | any => 0
  | term => 1
  | factor => 2
  | sign => 3
  | power => 4

/-- The word for a precedence. -/
def word : Precedence → String
  | any => "Any"
  | term => "Term"
  | factor => "Factor"
  | sign => "Neg"
  | power => "Exp"

end Precedence

inductive UnaryKind where
  | neg
  | pos
  deriving DecidableEq, Repr, Inhabited

/-- A sign before an operand. -/
structure UnaryOp where
  kind : UnaryKind
  span : Span
  deriving DecidableEq, Repr, Inhabited

inductive BinaryKind where
  | add
  | sub
  | mul
  | div
  | exp
  deriving DecidableEq, Repr, Inhabited

namespace BinaryKind

def precedence : BinaryKind → Precedence
  | add | sub => .term
  | mul | div => .factor
  | exp => .power

/-- Only powers group to the right. -/
def isRightAssociative (k : BinaryKind) : Bool := k = exp

end BinaryKind

/-- An operator between two operands. A product without a sign is implicit; its span is empty. -/
structure BinaryOp where
  kind : BinaryKind
  isImplicit : Bool
  span : Span
  deriving DecidableEq, Repr, Inhabited

namespace BinaryOp

def precedence (op : BinaryOp) : Precedence := op.kind.precedence

/-- Does `next`, which follows the right operand of `op`, take that operand first? -/
def yieldsTo (op next : BinaryOp) : Bool :=
  op.precedence.rank < next.precedence.rank ||
    (op.precedence.rank == next.precedence.rank && next.kind.isRightAssociative)

end BinaryOp

/-- A name as it stands in a formula, without a backslash. -/
structure Ident where
  name : String
  span : Span
  deriving DecidableEq, Repr, Inhabited

/-- A formula that was read. -/
inductive Expr where
  | number (value : Numeral) (span : Span)
  | symbol (ident : Ident)
  | group (delimiter : Delimiter) (inner : Expr) (span : Span)
  | call (callee : Ident) (isFormal : Bool) (delimiter : Delimiter) (args : List Expr) (span : Span)
  | unary (op : UnaryOp) (operand : Expr) (span : Span)
  | binary (op : BinaryOp) (left right : Expr) (span : Span)
  deriving Repr, Inhabited

namespace Expr

def span : Expr → Span
  | number _ s => s
  | symbol i => i.span
  | group _ _ s => s
  | call _ _ _ _ s => s
  | unary _ _ s => s
  | binary _ _ _ s => s

/-- The expression inside all groups around it. -/
def innermost : Expr → Expr
  | group _ e _ => e.innermost
  | e => e

/-- `left op right`, from the start of the one to the end of the other. -/
def join (op : BinaryOp) (left right : Expr) : Expr :=
  .binary op left right (left.span.through right.span)

end Expr

end CurveGuess
