import CurveGuess.Expr.Basic
import CurveGuess.Expr.Reading
import CurveGuess.Token.Lexer

/-!
# Reading formulas

Sums, products, signs and powers are read by climbing the precedences: a left operand takes every
operator that binds at least as tightly as asked for, and before a node is built its right operand
takes what binds more tightly still. Where an operand follows another without a sign in between,
they are multiplied. Each reader takes at least one token when it succeeds, and that is why reading
ends.
-/
namespace CurveGuess

/-- The next token, or a fault at the end of the text. -/
def readToken (c : Cursor) : Reading Token :=
  match c.next with
  | (some t, c') => .done t c'
  | (none, c') => .failed ⟨.unexpectedEnd, c'.span⟩ c'

def unexpected (expected : List Kind) (t : Token) : FormFault :=
  ⟨.unexpectedToken expected t.kind, t.span⟩

/-- The next token, which has to be of the given kind. -/
def readKind (k : Kind) (c : Cursor) : Reading Token :=
  Reading.restore c <| (readToken c).andThen fun t c' =>
    if t.kind = k then .done t c' else .failed (unexpected [k] t) c'

namespace UnaryOp

def ofToken? (t : Token) : Option UnaryOp :=
  match t.kind with
  | .sub => some ⟨.neg, t.span⟩
  | .add => some ⟨.pos, t.span⟩
  | _ => none

/-- Reads a sign. -/
def read (c : Cursor) : Reading UnaryOp :=
  (readToken c).andThen fun t c' =>
    match ofToken? t with
    | some op => .done op c'
    | none => .failed (unexpected [.sub, .add] t) c'

end UnaryOp

namespace BinaryOp

/-- The operator that a token stands for after an operand. A token that could start another operand
stands for a product. -/
def ofToken? (t : Token) : Option BinaryOp :=
  match t.kind with
  | .add => some ⟨.add, false, t.span⟩
  | .sub => some ⟨.sub, false, t.span⟩
  | .mul | .cdot => some ⟨.mul, false, t.span⟩
  | .div => some ⟨.div, false, t.span⟩
  | .exp => some ⟨.exp, false, t.span⟩
  | k => if k.startsOperand then some ⟨.mul, true, .point t.start⟩ else none

/-- The operator that comes next. -/
def peek? (c : Cursor) : Option BinaryOp := c.peek?.bind ofToken?

/-- The cursor after the operator that comes next; an implicit one takes no token. -/
def skip (op : BinaryOp) (c : Cursor) : Cursor := if op.isImplicit then c else c.next.2

theorem skip_length_le (op : BinaryOp) (c : Cursor) :
    (op.skip c).rest.length ≤ c.rest.length := by
  unfold skip
  split
  · exact Nat.le_refl _
  · exact c.next_length_le

end BinaryOp

namespace Ident

/-- Reads a name or a command. -/
def read (c : Cursor) : Reading Ident :=
  ((readKind .name c).orElse (readKind .command c)).map fun t => ⟨t.bareName, t.span⟩

end Ident

namespace Expr

def readNumber (c : Cursor) : Reading Expr :=
  ((readKind .int c).orElse (readKind .float c)).map fun t =>
    .number (.ofText t.lexeme) t.span

def readSymbol (c : Cursor) : Reading Expr := (Ident.read c).map .symbol

def readLiteral (c : Cursor) : Reading Expr := (readNumber c).orElse (readSymbol c)

end Expr

/-- The opening token of a group. -/
structure Opening where
  delimiter : Delimiter
  span : Span
  deriving DecidableEq, Repr, Inhabited

namespace Opening

def read (c : Cursor) : Reading Opening :=
  (readToken c).andThen fun t c' =>
    match Delimiter.ofKind? t.kind with
    | some d => .done ⟨d, t.span⟩ c'
    | none => .failed (unexpected [.openParen, .openBrace] t) c'

/-- Reads the opening of a group that is not closed at once. -/
def readFilled (c : Cursor) : Reading Opening :=
  (read c).andThen fun o c' =>
    match c'.peek? with
    | some t => if t.kind = o.delimiter.closeKind then .failed ⟨.emptyGroup, o.span.through t.span⟩ c'
      else .done o c'
    | none => .done o c'

/-- Reads the end of a group. When the text ends first, the fault is at the opening token. -/
def readClose (o : Opening) (expected : List Kind) (c : Cursor) : Reading Span :=
  match c.peek? with
  | none => .failed ⟨.unclosed true, o.span⟩ c
  | some _ => (readToken c).andThen fun t c' =>
    if t.kind = o.delimiter.closeKind then .done t.span c' else .failed (unexpected expected t) c'

end Opening

namespace Expr

/-- Does a call start here? A command before a group is a call, and so is a plain name of more than
one letter. -/
def startsCall (c : Cursor) : Bool :=
  match c.peek?, c.peekSecond? with
  | some t, some u =>
    (t.kind = .command || (t.kind = .name && t.lexeme.length > 1)) && u.kind.isOpening
  | _, _ => false

/-- What an operand without a sign can begin with. -/
def operandKinds : List Kind := [.int, .float, .name, .command, .openParen, .openBrace]

mutual

/-- Reads a sum, the whole of a formula or of what stands inside a group. -/
def read (c : Cursor) : Reading Expr :=
  match c.peek? with
  | some t =>
    if t.kind.isClosing then .failed ⟨.unclosed false, t.span⟩ c
    else (readSigned c).advance c fun left c' _ => climb left .any c'
  | none => (readSigned c).advance c fun left c' _ => climb left .any c'
  termination_by 8 * c.rest.length + 5

/-- Reads an operand with its signs. -/
def readSigned (c : Cursor) : Reading Expr :=
  if c.sees Kind.isSign then readUnary c else readPrimary c
  termination_by 8 * c.rest.length + 4

/-- Reads a sign and what it is the sign of, a power included. -/
def readUnary (c : Cursor) : Reading Expr :=
  ((UnaryOp.read c).restore c).advance c fun op c₁ _ =>
    (readSigned c₁).advance c₁ fun operand c₂ _ =>
      (climb operand .sign c₂).map fun operand =>
        .unary op operand (op.span.through operand.span)
  termination_by 8 * c.rest.length + 3

/-- Reads a literal, a call or a group. -/
def readPrimary (c : Cursor) : Reading Expr :=
  match c.peek? with
  | none => .failed ⟨.unexpectedEnd, c.span⟩ c
  | some t =>
    if t.kind.isOpening then (readGroup c).restore c
    else if t.kind.startsOperand then
      if startsCall c then (readCall c).restore c else (readLiteral c).restore c
    else .failed (unexpected operandKinds t) c
  termination_by 8 * c.rest.length + 2

/-- Reads a parenthesized or braced expression. -/
def readGroup (c : Cursor) : Reading Expr :=
  (Opening.readFilled c).advance c fun o c₁ _ =>
    ((read c₁).restore c₁).andThen fun inner c₂ =>
      (o.readClose [o.delimiter.closeKind] c₂).map fun close =>
        .group o.delimiter inner (o.span.through close)
  termination_by 8 * c.rest.length + 1

/-- Reads a name and the arguments it is called with. Braces hold a single argument. -/
def readCall (c : Cursor) : Reading Expr :=
  (Ident.read c).advance c fun callee c₁ _ =>
    (Opening.readFilled c₁).advance c₁ fun o c₂ _ =>
      ((read c₂).restore c₂).advance c₂ fun arg c₃ _ =>
        (readArgs o c₃).map fun (args, close) =>
          .call callee (c.sees (· = .command)) o.delimiter (arg :: args) (callee.span.through close)
  termination_by 8 * c.rest.length + 1

/-- Reads the rest of the arguments and the end of the call. -/
def readArgs (o : Opening) (c : Cursor) : Reading (List Expr × Span) :=
  match o.delimiter with
  | .brace => (o.readClose [.closeBrace] c).map fun close => ([], close)
  | .paren =>
    match readKind .comma c with
    | .failed _ _ => (o.readClose [.comma, .closeParen] c).map fun close => ([], close)
    | .done t c' => (Reading.done t c').advance c fun _ c₁ _ =>
      ((read c₁).restore c₁).advance c₁ fun arg c₂ _ =>
        (readArgs o c₂).map fun (args, close) => (arg :: args, close)
  termination_by 8 * c.rest.length

/-- Takes the operators that bind at least as tightly as `p`. -/
def climb (left : Expr) (p : Precedence) (c : Cursor) : Reading Expr :=
  match BinaryOp.peek? c with
  | none => .done left c
  | some op =>
    if op.precedence.rank < p.rank then .done left c
    else (readSigned (op.skip c)).advance c fun right c₁ _ =>
      (climbRight op right c₁).advance c fun right c₂ _ =>
        climb (join op left right) p c₂
  termination_by 8 * c.rest.length + 6
  decreasing_by
    all_goals
      have h := op.skip_length_le c
      omega

/-- Lets the right operand of `op` take the operators that come before `op`. -/
def climbRight (op : BinaryOp) (right : Expr) (c : Cursor) : Reading Expr :=
  match BinaryOp.peek? c with
  | none => .done right c
  | some next =>
    if op.yieldsTo next then
      (climb right next.precedence c).advance c fun right c' _ => climbRight op right c'
    else .done right c
  termination_by 8 * c.rest.length + 7

end

end Expr

/-- Reads with `p` and asks that nothing is left. -/
def readFull {α : Type} (p : Cursor → Reading α) (c : Cursor) : Reading α :=
  (p c).andThen fun a c' =>
    match c'.peek? with
    | none => .done a c'
    | some t =>
      if t.kind.isClosing then .failed ⟨.unclosed false, t.span⟩ c'
      else .failed ⟨.expectedEnd, ⟨t.start, c'.finish⟩⟩ c'

/-- The formula that a text is, in either spelling. -/
def parse (source : String) : Except FormFault Expr :=
  (readFull Expr.read (.start (tokens source))).result

end CurveGuess
