import CurveGuess.Expr.Parser

/-!
# The grammar of formulas

Sums of products of signed powers, in layers: each kind of operator has a part of its own, and a
part of one layer is built from parts of the next. A derivation takes pieces from the front of a
row and leaves the rest of it, and it is data, so that there is a question of how many there are.
The answer is one at most, and the shape that a derivation builds tells which.
-/
namespace CurveGuess

/-- A token without its place. -/
structure Piece where
  kind : Kind
  text : List Char
  deriving DecidableEq, Repr, Inhabited

namespace Token

def piece (t : Token) : Piece := ⟨t.kind, t.lexeme.toList⟩

@[simp] theorem kind_piece (t : Token) : t.piece.kind = t.kind := rfl

@[simp] theorem text_piece (t : Token) : t.piece.text = t.lexeme.toList := rfl

end Token

namespace Piece

def isSpace (t : Piece) : Bool := t.kind = .whitespace

def isName (t : Piece) : Bool := t.kind = .name || t.kind = .command

/-- Commands and names of more than one letter are called when a group follows. -/
def isCallable (t : Piece) : Bool := t.kind = .command || (t.kind = .name && t.text.length > 1)

/-- The text without a leading backslash. -/
def name (t : Piece) : String := String.ofList (t.text.dropWhile (· = '\\'))

theorem name_piece (t : Token) : t.piece.name = t.bareName := rfl

def numeral (t : Piece) : Numeral := .ofText (String.ofList t.text)

/-- Does an opening group come first? -/
def opens (ts : List Piece) : Bool := ts.head?.any (·.kind.isOpening)

@[simp] theorem opens_nil : opens [] = false := rfl

@[simp] theorem opens_cons (t : Piece) (ts : List Piece) : opens (t :: ts) = t.kind.isOpening := rfl

theorem isName_piece (t : Token) :
    t.piece.isName = (t.kind = .name || t.kind = .command) := rfl

theorem isCallable_piece (t : Token) :
    t.piece.isCallable = (t.kind = .command || (t.kind = .name && t.lexeme.length > 1)) := by
  rw [← String.length_toList]
  rfl

end Piece

/-- The pieces of a text in order, without white space. -/
def pieces (ts : List Token) : List Piece := (ts.filter (!·.isSpace)).map Token.piece

/-- An expression without places. -/
inductive Shape where
  | number (value : Numeral)
  | symbol (name : String)
  | group (delimiter : Delimiter) (inner : Shape)
  | call (name : String) (isFormal : Bool) (delimiter : Delimiter) (args : List Shape)
  | unary (kind : UnaryKind) (operand : Shape)
  | binary (kind : BinaryKind) (isImplicit : Bool) (left right : Shape)
  deriving Repr, Inhabited

namespace Expr

mutual

def shape : Expr → Shape
  | .number n _ => .number n
  | .symbol i => .symbol i.name
  | .group d e _ => .group d e.shape
  | .call i isFormal d args _ => .call i.name isFormal d (shapes args)
  | .unary op e _ => .unary op.kind e.shape
  | .binary op l r _ => .binary op.kind op.isImplicit l.shape r.shape

def shapes : List Expr → List Shape
  | [] => []
  | e :: es => e.shape :: shapes es

end

end Expr

/-- The parts of a formula, from loose to tight, and the arguments of a call. -/
inductive Part where
  | sum
  | product
  | signed
  | power
  | primary
  | arguments
  deriving DecidableEq, Repr

def signKind? : Kind → Option UnaryKind
  | .sub => some .neg
  | .add => some .pos
  | _ => none

def sumKind? : Kind → Option BinaryKind
  | .add => some .add
  | .sub => some .sub
  | _ => none

def productKind? : Kind → Option BinaryKind
  | .mul | .cdot => some .mul
  | .div => some .div
  | _ => none

theorem eq_of_signKind? {k : Kind} {b : UnaryKind} (h : signKind? k = some b) :
    k = .sub ∨ k = .add := by
  cases k <;> simp_all [signKind?]

theorem eq_of_sumKind? {k : Kind} {b : BinaryKind} (h : sumKind? k = some b) :
    k = .add ∨ k = .sub := by
  cases k <;> simp_all [sumKind?]

theorem eq_of_productKind? {k : Kind} {b : BinaryKind} (h : productKind? k = some b) :
    k = .mul ∨ k = .cdot ∨ k = .div := by
  cases k <;> simp_all [productKind?]

open Piece in
/-- `Derivation p i r es` takes a part `p` of the shapes `es` from the pieces `i` and leaves `r`.
There is one shape in `es` but for `arguments`. Sums and products nest to the left. What is left
over matters in one place: a name that could be called is a symbol only if no group follows it. -/
inductive Derivation : Part → List Piece → List Piece → List Shape → Type
  | ofProduct {i r e} : Derivation .product i r [e] → Derivation .sum i r [e]
  | add {i t m r a b k} : Derivation .sum i (t :: m) [a] → sumKind? t.kind = some k →
      Derivation .product m r [b] → Derivation .sum i r [.binary k false a b]
  | ofSigned {i r e} : Derivation .signed i r [e] → Derivation .product i r [e]
  | mul {i t m r a b k} : Derivation .product i (t :: m) [a] → productKind? t.kind = some k →
      Derivation .signed m r [b] → Derivation .product i r [.binary k false a b]
  | juxtapose {i m r a b} : Derivation .product i m [a] → Derivation .power m r [b] →
      Derivation .product i r [.binary .mul true a b]
  | sign {t m r a k} : signKind? t.kind = some k → Derivation .signed m r [a] →
      Derivation .signed (t :: m) r [.unary k a]
  | ofPower {i r e} : Derivation .power i r [e] → Derivation .signed i r [e]
  | ofPrimary {i r e} : Derivation .primary i r [e] → Derivation .power i r [e]
  | raise {i t m r a b} : Derivation .primary i (t :: m) [a] → t.kind = .exp →
      Derivation .signed m r [b] → Derivation .power i r [.binary .exp false a b]
  | number {t r} : t.kind.isNumber = true → Derivation .primary (t :: r) r [.number t.numeral]
  | group {t u m r e d} : Delimiter.ofKind? t.kind = some d → Derivation .sum m (u :: r) [e] →
      u.kind = d.closeKind → Derivation .primary (t :: m) r [.group d e]
  | symbol {t r} : t.isName = true → (t.isCallable = true → opens r = false) →
      Derivation .primary (t :: r) r [.symbol t.name]
  | braceCall {t u v m r e} : t.isCallable = true → u.kind = .openBrace →
      Derivation .sum m (v :: r) [e] → v.kind = .closeBrace →
      Derivation .primary (t :: u :: m) r [.call t.name (t.kind = .command) .brace [e]]
  | parenCall {t u m r es} : t.isCallable = true → u.kind = .openParen →
      Derivation .arguments m r es →
      Derivation .primary (t :: u :: m) r [.call t.name (t.kind = .command) .paren es]
  | lastArgument {v m r e} : Derivation .sum m (v :: r) [e] → v.kind = .closeParen →
      Derivation .arguments m r [e]
  | nextArgument {v m n r e es} : Derivation .sum m (v :: n) [e] → v.kind = .comma →
      Derivation .arguments n r es → Derivation .arguments m r (e :: es)

namespace Part

def rank : Part → Nat
  | sum => 0
  | product => 1
  | signed => 2
  | power => 3
  | primary => 4
  | arguments => 5

/-- Arguments are counted with the piece that ends each of them, other parts without. -/
def surplus : Part → Nat
  | arguments => 0
  | _ => 1

end Part

/-- The part whose rule builds an operator. -/
def BinaryKind.part : BinaryKind → Part
  | .add | .sub => .sum
  | .mul | .div => .product
  | .exp => .power

theorem part_of_sumKind? {k : Kind} {b : BinaryKind} (h : sumKind? k = some b) :
    b.part = .sum := by
  cases k <;> simp [sumKind?] at h <;> subst h <;> rfl

theorem part_of_productKind? {k : Kind} {b : BinaryKind} (h : productKind? k = some b) :
    b.part = .product := by
  cases k <;> simp [productKind?] at h <;> subst h <;> rfl

namespace Shape

/-- The tightest part that a shape can be. -/
def part : Shape → Part
  | .binary k _ _ _ => k.part
  | .unary _ _ => .signed
  | _ => .primary

mutual

/-- The number of pieces that a shape is written with. -/
def width : Shape → Nat
  | .number _ => 1
  | .symbol _ => 1
  | .group _ e => e.width + 2
  | .call _ _ _ es => widths es + 2
  | .unary _ e => e.width + 1
  | .binary _ isImplicit a b => a.width + b.width + if isImplicit then 0 else 1

/-- The number of pieces of arguments, each with the one that ends it. -/
def widths : List Shape → Nat
  | [] => 0
  | e :: es => e.width + widths es + 1

end

end Shape

namespace Derivation

variable {p q : Part} {i r r' : List Piece} {e : Shape} {es : List Shape}

theorem lift_product (d : Derivation .product i r [e]) (h : p.rank ≤ Part.product.rank) :
    Nonempty (Derivation p i r [e]) := by
  cases p with
  | sum => exact ⟨.ofProduct d⟩
  | product => exact ⟨d⟩
  | _ => exact absurd h (by decide)

theorem lift_signed (d : Derivation .signed i r [e]) (h : p.rank ≤ Part.signed.rank) :
    Nonempty (Derivation p i r [e]) := by
  cases p with
  | sum | product => exact lift_product (.ofSigned d) (by decide)
  | signed => exact ⟨d⟩
  | _ => exact absurd h (by decide)

theorem lift_power (d : Derivation .power i r [e]) (h : p.rank ≤ Part.power.rank) :
    Nonempty (Derivation p i r [e]) := by
  cases p with
  | sum | product | signed => exact lift_signed (.ofPower d) (by decide)
  | power => exact ⟨d⟩
  | _ => exact absurd h (by decide)

theorem lift_primary (d : Derivation .primary i r [e]) (h : p.rank ≤ Part.primary.rank) :
    Nonempty (Derivation p i r [e]) := by
  cases p with
  | sum | product | signed | power => exact lift_power (.ofPrimary d) (by decide)
  | primary => exact ⟨d⟩
  | arguments => exact absurd h (by decide)

/-- A tighter part is a looser one too. -/
theorem lift (d : Derivation q i r [e]) (h : p.rank ≤ q.rank) (hq : q ≠ .arguments) :
    Nonempty (Derivation p i r [e]) := by
  cases q with
  | sum =>
    cases p with
    | sum => exact ⟨d⟩
    | _ => exact absurd h (by decide)
  | product => exact lift_product d h
  | signed => exact lift_signed d h
  | power => exact lift_power d h
  | primary => exact lift_primary d h
  | arguments => exact absurd rfl hq

theorem suffix (d : Derivation p i r es) : r <:+ i := by
  induction d with
  | ofProduct _ ih | ofSigned _ ih | ofPower _ ih | ofPrimary _ ih => exact ih
  | add _ _ _ ih₁ ih₂ | mul _ _ _ ih₁ ih₂ | raise _ _ _ ih₁ ih₂ =>
    exact ih₂.trans ((List.suffix_cons _ _).trans ih₁)
  | juxtapose _ _ ih₁ ih₂ => exact ih₂.trans ih₁
  | sign _ _ ih => exact ih.trans (List.suffix_cons _ _)
  | number | symbol => exact List.suffix_cons _ _
  | group _ _ _ ih => exact (List.suffix_cons _ _).trans (ih.trans (List.suffix_cons _ _))
  | braceCall _ _ _ _ ih =>
    exact (List.suffix_cons _ _).trans
      (ih.trans ((List.suffix_cons _ _).trans (List.suffix_cons _ _)))
  | parenCall _ _ _ ih => exact ih.trans ((List.suffix_cons _ _).trans (List.suffix_cons _ _))
  | lastArgument _ _ ih => exact (List.suffix_cons _ _).trans ih
  | nextArgument _ _ _ ih₁ ih₂ => exact ih₂.trans ((List.suffix_cons _ _).trans ih₁)

theorem length_eq (d : Derivation p i r es) :
    i.length + p.surplus = r.length + Shape.widths es := by
  induction d <;> simp only [Shape.widths, Shape.width, Part.surplus, List.length_cons] at * <;>
    simp <;> omega

/-- The shape of a part says where it ends. -/
theorem rest_eq (d : Derivation p i r es) (d' : Derivation p i r' es) : r = r' := by
  have h := d.length_eq
  have h' := d'.length_eq
  exact (List.suffix_of_suffix_length_le d.suffix d'.suffix (by omega)).eq_of_length (by omega)

theorem rank_le (d : Derivation p i r es) : p = .arguments ∨ ∀ e ∈ es, p.rank ≤ e.part.rank := by
  induction d with
  | ofProduct _ ih | ofSigned _ ih | ofPower _ ih | ofPrimary _ ih =>
    simp only [reduceCtorEq, false_or] at ih ⊢
    exact fun e he => Nat.le_trans (by decide) (ih e he)
  | add _ h => simp [Shape.part, part_of_sumKind? h]
  | mul _ h => simp [Shape.part, part_of_productKind? h]
  | lastArgument | nextArgument => exact .inl rfl
  | _ => simp [Part.rank, Shape.part, BinaryKind.part]

theorem rank_le_part (d : Derivation p i r [e]) (hp : p ≠ .arguments) :
    p.rank ≤ e.part.rank :=
  (d.rank_le.resolve_left hp) e (List.mem_singleton_self e)

-- Two derivations of one shape are compared rule by rule. Where the rules differ, one of them asks
-- for a shape that is too loose for its part.
theorem not_product_of_sumKind? {t k c a b} (d : Derivation .product i r [.binary k c a b])
    (h : sumKind? t = some k) : False := by
  have hr := d.rank_le_part (by simp)
  simp [Shape.part, part_of_sumKind? h, Part.rank] at hr

theorem not_signed_of_productKind? {t k c a b} (d : Derivation .signed i r [.binary k c a b])
    (h : productKind? t = some k) : False := by
  have hr := d.rank_le_part (by simp)
  simp [Shape.part, part_of_productKind? h, Part.rank] at hr

theorem not_power_unary {k a} (d : Derivation .power i r [.unary k a]) : False := by
  have hr := d.rank_le_part (by simp)
  simp [Shape.part, Part.rank] at hr

theorem not_primary_binary {k c a b} (d : Derivation .primary i r [.binary k c a b]) : False := by
  have hr := d.rank_le_part (by simp)
  cases k <;> simp [Shape.part, BinaryKind.part, Part.rank] at hr

theorem not_nil (d : Derivation p i r []) : False := by
  cases d

/-- The grammar is unambiguous: a shape is derived in one way. -/
theorem unique (d d' : Derivation p i r es) : d = d' := by
  induction d with
  | ofProduct d ih =>
    cases d' with
    | ofProduct d' => rw [ih d']
    | add _ h _ => exact (d.not_product_of_sumKind? h).elim
  | add d₁ h d₂ ih₁ ih₂ =>
    cases d' with
    | ofProduct d' => exact (d'.not_product_of_sumKind? h).elim
    | add d₁' _ d₂' =>
      obtain ⟨rfl, rfl⟩ := List.cons.inj (d₁.rest_eq d₁')
      rw [ih₁ d₁', ih₂ d₂']
  | ofSigned d ih =>
    cases d' with
    | ofSigned d' => rw [ih d']
    | mul _ h _ => exact (d.not_signed_of_productKind? h).elim
    | juxtapose _ _ => exact (d.not_signed_of_productKind? (t := .mul) rfl).elim
  | mul d₁ h d₂ ih₁ ih₂ =>
    cases d' with
    | ofSigned d' => exact (d'.not_signed_of_productKind? h).elim
    | mul d₁' _ d₂' =>
      obtain ⟨rfl, rfl⟩ := List.cons.inj (d₁.rest_eq d₁')
      rw [ih₁ d₁', ih₂ d₂']
  | juxtapose d₁ d₂ ih₁ ih₂ =>
    cases d' with
    | ofSigned d' => exact (d'.not_signed_of_productKind? (t := .mul) rfl).elim
    | juxtapose d₁' d₂' =>
      obtain rfl := d₁.rest_eq d₁'
      rw [ih₁ d₁', ih₂ d₂']
  | sign _ d ih =>
    cases d' with
    | sign _ d' => rw [ih d']
    | ofPower d' => exact d'.not_power_unary.elim
  | ofPower d ih =>
    cases d' with
    | sign _ _ => exact d.not_power_unary.elim
    | ofPower d' => rw [ih d']
  | ofPrimary d ih =>
    cases d' with
    | ofPrimary d' => rw [ih d']
    | raise _ _ _ => exact d.not_primary_binary.elim
  | raise d₁ _ d₂ ih₁ ih₂ =>
    cases d' with
    | ofPrimary d' => exact d'.not_primary_binary.elim
    | raise d₁' _ d₂' =>
      obtain ⟨rfl, rfl⟩ := List.cons.inj (d₁.rest_eq d₁')
      rw [ih₁ d₁', ih₂ d₂']
  | number _ => cases d'; rfl
  | group _ d _ ih =>
    cases d' with
    | group _ d' _ =>
      obtain ⟨rfl, -⟩ := List.cons.inj (d.rest_eq d')
      rw [ih d']
  | symbol _ _ => cases d'; rfl
  | braceCall _ _ d _ ih =>
    cases d' with
    | braceCall _ _ d' _ =>
      obtain ⟨rfl, -⟩ := List.cons.inj (d.rest_eq d')
      rw [ih d']
  | parenCall _ _ d ih =>
    cases d' with
    | parenCall _ _ d' => rw [ih d']
  | lastArgument d _ ih =>
    cases d' with
    | lastArgument d' _ =>
      obtain ⟨rfl, -⟩ := List.cons.inj (d.rest_eq d')
      rw [ih d']
    | nextArgument _ _ d' => exact d'.not_nil.elim
  | nextArgument d _ d₁ ih ih₁ =>
    cases d' with
    | lastArgument _ _ => exact d₁.not_nil.elim
    | nextArgument d' _ d₁' =>
      obtain ⟨rfl, rfl⟩ := List.cons.inj (d.rest_eq d')
      rw [ih d', ih₁ d₁']

end Derivation

end CurveGuess
