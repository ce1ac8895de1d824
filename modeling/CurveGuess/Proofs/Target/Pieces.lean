import CurveGuess.Proofs.Readable.Meaning
import CurveGuess.Target.Basic

/-!
# The pieces of a target

A target is written in one of two hands: formally, as it is drawn, or readably, as it is shown to
the player. In both hands it is a row of pieces that keep apart, and in both it is a sum of
products.
-/
namespace CurveGuess

namespace Piece

/-- A whole number. -/
def whole (n : Nat) : Piece := ⟨.int, Nat.toDigits 10 n⟩

/-- A single character. -/
def mark (c : Char) : Piece := ⟨(Lexer.first c []).1, [c]⟩

@[simp] theorem text_mark (c : Char) : (mark c).text = [c] := rfl

theorem isDigit_of_mem_whole {n : Nat} {c : Char} (h : c ∈ (whole n).text) :
    Lexer.isDigit c = true := by
  rw [← Numeral.isDigit_eq]
  exact Nat.isDigit_of_mem_toDigits (by decide) (by decide) h

theorem valid_whole (n : Nat) : (whole n).Valid :=
  valid_int Nat.toDigits_ne_nil fun _ => isDigit_of_mem_whole

theorem valid_mark (c : Char) : (mark c).Valid := by
  have h := Lexer.first_le c []
  exact ⟨c, [], rfl, Prod.ext rfl (Nat.le_zero.mp h)⟩

theorem numeral_whole (n : Nat) : (whole n).numeral = ⟨n, 0⟩ := by
  have hdigits : ∀ c ∈ (whole n).text, c.isDigit = true := fun c hc => by
    rw [Numeral.isDigit_eq]
    exact isDigit_of_mem_whole hc
  have hwhole := List.takeWhile_eq_self_iff.mpr hdigits
  have hrest := List.dropWhile_eq_nil_iff.mpr hdigits
  rw [numeral, Numeral.ofText, String.toList_ofList, hrest]
  dsimp only
  rw [hwhole, whole, Numeral.ofDigits_toDigits]

theorem toList_toString (n : Nat) : (toString n).toList = (whole n).text := by
  rw [Nat.toString_eq_ofList_toDigits, String.toList_ofList, whole]

theorem rowText_append (ts us : List Piece) : rowText (ts ++ us) = rowText ts ++ rowText us :=
  List.flatMap_append

/-- No piece of a row would take the character after it. -/
def Apart : List Piece → Prop
  | [] => True
  | t :: ts => t.Valid ∧ t.kind ≠ .whitespace ∧ t.grows ts = false ∧ Apart ts

theorem Apart.solid {ts : List Piece} (h : Apart ts) : Spelling.Solid ts := by
  induction ts with
  | nil => exact fun _ ht => absurd ht List.not_mem_nil
  | cons t ts ih =>
    obtain ⟨hvalid, hspace, -, hts⟩ := h
    exact List.forall_mem_cons.mpr ⟨⟨hvalid, hspace⟩, ih hts⟩

/-- A row that keeps apart is read as it was written. -/
theorem map_piece_tokensFrom {ts : List Piece} (h : Apart ts) (n : Nat) :
    (Lexer.tokensFrom n (rowText ts)).map Token.piece = ts := by
  induction ts generalizing n with
  | nil => simp [Lexer.tokensFrom]
  | cons t ts ih =>
    obtain ⟨⟨c, cs, htext, hfirst⟩, hspace, hgrows, hts⟩ := h
    have htakes : ∀ d ∈ (rowText ts).head?, t.takes d = false := by
      intro d hd
      simpa [grows, hspace, Option.mem_def.mp hd] using hgrows
    obtain ⟨k, text⟩ := t
    obtain rfl : text = c :: cs := htext
    have hread := (Lexer.first_append c cs (rowText ts) k).mpr ⟨hfirst, htakes⟩
    rw [rowText_cons, List.cons_append, Lexer.tokensFrom, List.map_cons, hread, List.drop_left,
      ih hts, Token.piece, List.take_left, String.toList_ofList]

theorem map_piece_tokens {s : String} {ts : List Piece} (h : Apart ts)
    (hs : s.toList = rowText ts) : (tokens s).map Token.piece = ts := by
  rw [tokens, hs, map_piece_tokensFrom h]

theorem pieces_tokens {s : String} {ts : List Piece} (h : Apart ts) (hs : s.toList = rowText ts) :
    pieces (tokens s) = ts := by
  rw [Spelling.pieces_eq, map_piece_tokens h hs, h.solid.withoutSpace_eq]

theorem apart_cons {t : Piece} {ts : List Piece} (ht : t.Valid) (hspace : t.kind ≠ .whitespace) :
    Apart (t :: ts) ↔ (∀ c ∈ (rowText ts).head?, t.takes c = false) ∧ Apart ts := by
  have hgrows : t.grows ts = false ↔ ∀ c ∈ (rowText ts).head?, t.takes c = false := by
    simp [grows, hspace, Option.any_eq_false]
  rw [Apart, hgrows]
  exact ⟨fun h => h.2.2, fun h => ⟨ht, hspace, h⟩⟩

/-- A row is empty or begins with one of some characters. -/
def Begins (cs : List Char) (ts : List Piece) : Prop := ∀ c ∈ (rowText ts).head?, c ∈ cs

@[simp] theorem begins_mark {cs : List Char} {c : Char} {ts : List Piece} :
    Begins cs (mark c :: ts) ↔ c ∈ cs := by
  simp [Begins]

theorem Begins.mono {cs ds : List Char} {ts : List Piece} (h : Begins cs ts) (hcs : cs ⊆ ds) :
    Begins ds ts := fun c hc => hcs (h c hc)

/-- Signs and brackets. -/
def signs : List Char := ['+', '-', '^', '(', ')', '\x7b', '\x7d']

/-- What follows a number in a target. -/
def followers : List Char := ['\\', 'x', 's', 'c', 'l'] ++ signs

theorem signs_subset : signs ⊆ followers := List.subset_append_right _ _

@[simp] theorem mem_signs {c : Char} : c ∈ signs ↔
    c = '+' ∨ c = '-' ∨ c = '^' ∨ c = '(' ∨ c = ')' ∨ c = '\x7b' ∨ c = '\x7d' := by
  simp [signs]

@[simp] theorem mem_followers {c : Char} : c ∈ followers ↔
    (c = '\\' ∨ c = 'x' ∨ c = 's' ∨ c = 'c' ∨ c = 'l') ∨ c ∈ signs := by
  simp [followers, or_assoc]

/-- Signs and brackets take nothing. -/
@[simp] theorem apart_mark {c : Char} {ts : List Piece} (hc : c ∈ signs) :
    Apart (mark c :: ts) ↔ Apart ts := by
  have hquiet : ∀ c ∈ signs, (mark c).kind ≠ .whitespace ∧ ∀ d, (mark c).takes d = false := by
    simp only [signs, List.forall_mem_cons]
    exact ⟨⟨by decide, fun _ => rfl⟩, ⟨by decide, fun _ => rfl⟩, ⟨by decide, fun _ => rfl⟩,
      ⟨by decide, fun _ => rfl⟩, ⟨by decide, fun _ => rfl⟩, ⟨by decide, fun _ => rfl⟩,
      ⟨by decide, fun _ => rfl⟩, by simp⟩
  rw [apart_cons (valid_mark c) (hquiet c hc).1]
  simp [(hquiet c hc).2]

@[simp] theorem apart_whole {n : Nat} {ts : List Piece} (h : Begins followers ts) :
    Apart (whole n :: ts) ↔ Apart ts := by
  have hquiet : followers.all (fun c => !(Lexer.isDigit c || c = '.')) = true := by decide
  rw [apart_cons (valid_whole n) (by simp [whole])]
  refine and_iff_right fun c hc => ?_
  rw [← Bool.not_eq_true']
  exact List.all_eq_true.mp hquiet c (h c hc)

theorem apart_letters {t : Piece} {ts : List Piece} (ht : t.Valid)
    (hk : t.kind = .name ∨ t.kind = .command) (h : Begins signs ts) :
    Apart (t :: ts) ↔ Apart ts := by
  have hquiet : signs.all (fun c => !Lexer.isLetter c) = true := by decide
  rw [apart_cons ht (by rcases hk with hk | hk <;> simp [hk])]
  refine and_iff_right fun c hc => ?_
  have hletter := List.all_eq_true.mp hquiet c (h c hc)
  rw [Bool.not_eq_true'] at hletter
  rcases hk with hk | hk <;> simp [takes, hk, hletter]

@[simp] theorem apart_x {ts : List Piece} (h : Begins signs ts) :
    Apart (mark 'x' :: ts) ↔ Apart ts :=
  apart_letters (valid_mark 'x') (by decide) h

end Piece

open Piece

inductive Hand where
  | formal
  | readable
  deriving DecidableEq, Repr

namespace Hand

/-- The functions that targets use. -/
def functions : List String := ["sin", "cos", "ln", "sqrt"]

@[simp] theorem mem_functions {f : String} :
    f ∈ functions ↔ f = "sin" ∨ f = "cos" ∨ f = "ln" ∨ f = "sqrt" := by
  simp [functions]

/-- The name of a function. The formal hand writes it as a command. -/
def callee : Hand → String → Piece
  | formal, f => ⟨.command, '\\' :: f.toList⟩
  | readable, f => ⟨.name, (if f = "ln" then "log" else f).toList⟩

theorem valid_callee (h : Hand) {f : String} (hf : f ∈ functions) : (h.callee f).Valid := by
  rw [mem_functions] at hf
  rcases hf with rfl | rfl | rfl | rfl <;> cases h <;> exact ⟨_, _, rfl, by decide⟩

theorem isCallable_callee (h : Hand) {f : String} (hf : f ∈ functions) :
    (h.callee f).isCallable = true := by
  rw [mem_functions] at hf
  rcases hf with rfl | rfl | rfl | rfl <;> cases h <;> decide

@[simp] theorem apart_callee (h : Hand) {f : String} {ts : List Piece} (hf : f ∈ functions)
    (hts : Begins signs ts) : Apart (h.callee f :: ts) ↔ Apart ts :=
  apart_letters (h.valid_callee hf) (by cases h <;> simp [callee]) hts

@[simp] theorem begins_callee (h : Hand) {f : String} {ts : List Piece} (hf : f ∈ functions) :
    Begins followers (h.callee f :: ts) := by
  rw [mem_functions] at hf
  rcases hf with rfl | rfl | rfl | rfl <;> cases h <;> simp [Begins, callee]

/-- An exponent of one piece. -/
def exponent : Hand → Piece → List Piece
  | formal, t => [mark '\x7b', t, mark '\x7d']
  | readable, t => [t]

/-- The argument of a square root. -/
def radicand : Hand → List Piece → List Piece
  | formal, ts => mark '\x7b' :: ts ++ [mark '\x7d']
  | readable, ts => mark '(' :: ts ++ [mark ')']

end Hand

namespace Term

/-- The numbers that were drawn for a term. -/
def numbers : Term → List Int
  | linear c | quadratic c | squareRoot c | exponential c => [c]
  | sine c f | cosine c f => c :: f.toList
  | logarithm c s => [c, s]

def angleRow : Option Int → List Piece
  | none => [mark 'x']
  | some f => [whole f.natAbs, mark 'x']

/-- The pieces of a term. -/
def row (h : Hand) : Term → List Piece
  | linear c => [whole c.natAbs, mark 'x']
  | quadratic c => whole c.natAbs :: mark 'x' :: mark '^' :: h.exponent (whole 2)
  | sine c f =>
    whole c.natAbs :: h.callee "sin" :: mark '(' :: angleRow f ++ [mark ')']
  | cosine c f =>
    whole c.natAbs :: h.callee "cos" :: mark '(' :: angleRow f ++ [mark ')']
  | logarithm c s =>
    [whole c.natAbs, h.callee "ln", mark '(', mark 'x', mark '+', whole s.natAbs, mark ')']
  | squareRoot c => h.callee "sqrt" :: h.radicand [whole c.natAbs, mark 'x']
  | exponential b => whole b.natAbs :: mark '^' :: h.exponent (mark 'x')

theorem toList_repr {n : Int} (h : 0 < n) : n.repr.toList = (whole n.natAbs).text := by
  rw [← Piece.toList_toString]
  cases n with
  | ofNat n => rfl
  | negSucc n => omega

theorem toList_angle {f : Option Int} (h : ∀ n ∈ f, 0 < n) :
    (angle f).toList = rowText (angleRow f) := by
  cases f with
  | none => rfl
  | some n => simp [angle, angleRow, toList_repr (h n rfl), mark]

/-- The formal row spells the text of a term. -/
theorem toList_text {t : Term} (h : ∀ n ∈ t.numbers, 0 < n) :
    t.text.toList = rowText (t.row .formal) := by
  have htwo : (whole 2).text = ['2'] := by decide
  cases t with
  | linear c | quadratic c | squareRoot c | exponential c =>
    have hc := toList_repr (h c (by simp [numbers]))
    simp [text, row, hc, htwo, Hand.exponent, Hand.radicand, Hand.callee, mark]
  | sine c f | cosine c f =>
    have hc := toList_repr (h c (by simp [numbers]))
    have hf := toList_angle (f := f) fun n hn => h n (by simp [numbers, Option.mem_def.mp hn])
    simp [text, row, hc, hf, Hand.callee, mark, rowText]
  | logarithm c s =>
    have hc := toList_repr (h c (by simp [numbers]))
    have hs := toList_repr (h s (by simp [numbers]))
    simp [text, row, hc, hs, Hand.callee, mark]

theorem apart_row (h : Hand) (t : Term) {rest : List Piece} (hrest : Apart rest)
    (hj : Begins ['+', '-'] rest) : Apart (t.row h ++ rest) := by
  have hs : Begins signs rest := hj.mono (by simp)
  have hf : Begins followers rest := hs.mono signs_subset
  cases t with
  | linear c => simp [row, hrest, hs]
  | quadratic c | exponential c => cases h <;> simp [row, Hand.exponent, hrest, hs, hf]
  | sine c f | cosine c f => cases f <;> simp [row, angleRow, hrest]
  | logarithm c s => simp [row, hrest]
  | squareRoot c => cases h <;> simp [row, Hand.radicand, hrest]

end Term

namespace Shape

def whole (n : Nat) : Shape := .number ⟨n, 0⟩

def x : Shape := .symbol "x"

/-- A product without a sign. -/
def times (a b : Shape) : Shape := .binary .mul true a b

def power (a b : Shape) : Shape := .binary .exp false a b

end Shape

namespace Hand

/-- The call of a function of targets. -/
def call (h : Hand) (f : String) (d : Delimiter) (e : Shape) : Shape :=
  .call (h.callee f).name ((h.callee f).kind = .command) d [e]

/-- The group around an exponent. -/
def grouped : Hand → Shape → Shape
  | formal, e => .group .brace e
  | readable, e => e

/-- The delimiter of a square root. -/
def rootDelimiter : Hand → Delimiter
  | formal => .brace
  | readable => .paren

end Hand

namespace Term

def angleShape : Option Int → Shape
  | none => .x
  | some f => .times (.whole f.natAbs) .x

/-- What a term is read as. -/
def shape (h : Hand) : Term → Shape
  | linear c => .times (.whole c.natAbs) .x
  | quadratic c => .times (.whole c.natAbs) (.power .x (h.grouped (.whole 2)))
  | sine c f => .times (.whole c.natAbs) (h.call "sin" .paren (angleShape f))
  | cosine c f => .times (.whole c.natAbs) (h.call "cos" .paren (angleShape f))
  | logarithm c s =>
    .times (.whole c.natAbs) (h.call "ln" .paren (.binary .add false .x (.whole s.natAbs)))
  | squareRoot c => h.call "sqrt" h.rootDelimiter (.times (.whole c.natAbs) .x)
  | exponential b => .power (.whole b.natAbs) (h.grouped .x)

end Term

namespace Derivation

variable {i m r : List Piece} {a b : Shape}

def whole (n : Nat) (r : List Piece) : Derivation .primary (.whole n :: r) r [.whole n] := by
  have d : Derivation .primary (.whole n :: r) r [.number (Piece.whole n).numeral] := .number rfl
  rwa [numeral_whole] at d

def x (r : List Piece) : Derivation .primary (mark 'x' :: r) r [.x] := by
  have hname : (mark 'x').name = "x" := by decide
  have d : Derivation .primary (mark 'x' :: r) r [.symbol (mark 'x').name] :=
    .symbol (by decide) fun h => absurd h (by decide)
  rwa [hname] at d

def signed (d : Derivation .primary m r [a]) : Derivation .signed m r [a] := .ofPower (.ofPrimary d)

def product (d : Derivation .primary m r [a]) : Derivation .product m r [a] := .ofSigned d.signed

/-- A number before a power. -/
def times (n : Nat) (d : Derivation .power m r [b]) :
    Derivation .product (.whole n :: m) r [.times (.whole n) b] :=
  .juxtapose (whole n m).product d

def grouped (h : Hand) {t : Piece} (d : ∀ r, Derivation .primary (t :: r) r [a]) (r : List Piece) :
    Derivation .signed (h.exponent t ++ r) r [h.grouped a] :=
  match h with
  | .formal => signed (.group (d := .brace) rfl (.ofProduct (d (mark '\x7d' :: r)).product) rfl)
  | .readable => (d r).signed

def angle (f : Option Int) (r : List Piece) :
    Derivation .product (Term.angleRow f ++ r) r [Term.angleShape f] :=
  match f with
  | none => (x r).product
  | some f => times f.natAbs (.ofPrimary (x r))

def call (h : Hand) {f : String} (hf : f ∈ Hand.functions)
    (d : Derivation .sum m (mark ')' :: r) [a]) :
    Derivation .primary (h.callee f :: mark '(' :: m) r [h.call f .paren a] :=
  .parenCall (h.isCallable_callee hf) rfl (.lastArgument d rfl)

def wave (h : Hand) {f : String} (hf : f ∈ Hand.functions) (n : Nat) (o : Option Int)
    (r : List Piece) :
    Derivation .product (.whole n :: h.callee f :: mark '(' :: Term.angleRow o ++ [mark ')'] ++ r) r
      [.times (.whole n) (h.call f .paren (Term.angleShape o))] := by
  simpa using times n (.ofPrimary (call h hf (.ofProduct (angle o (mark ')' :: r)))))

def root (h : Hand) (d : ∀ r, Derivation .product (i ++ r) r [a]) (r : List Piece) :
    Derivation .primary (h.callee "sqrt" :: h.radicand i ++ r) r
      [h.call "sqrt" h.rootDelimiter a] := by
  have hcall := h.isCallable_callee (f := "sqrt") (by simp)
  cases h with
  | formal =>
    simpa [Hand.radicand] using .braceCall hcall rfl (.ofProduct (d (mark '\x7d' :: r))) rfl
  | readable =>
    simpa [Hand.radicand, Hand.rootDelimiter] using
      call .readable (by simp) (.ofProduct (d (mark ')' :: r)))

/-- Every term is a product, whatever follows it. -/
theorem nonempty_row (h : Hand) (t : Term) (r : List Piece) :
    Nonempty (Derivation .product (t.row h ++ r) r [t.shape h]) := by
  cases t with
  | linear c => exact ⟨times c.natAbs (.ofPrimary (x r))⟩
  | quadratic c => exact ⟨times c.natAbs (.raise (x _) rfl (grouped h (whole 2) r))⟩
  | exponential b => exact ⟨.ofSigned (.ofPower (.raise (whole _ _) rfl (grouped h x r)))⟩
  | sine c f | cosine c f => exact ⟨wave h (by simp) c.natAbs f r⟩
  | logarithm c s =>
    have darg : Derivation .sum (mark 'x' :: mark '+' :: .whole s.natAbs :: mark ')' :: r)
        (mark ')' :: r) [.binary .add false .x (.whole s.natAbs)] :=
      .add (.ofProduct (x _).product) rfl (whole s.natAbs _).product
    exact ⟨times c.natAbs (.ofPrimary (call h (by simp) darg))⟩
  | squareRoot c => exact ⟨(root h (fun r => times c.natAbs (.ofPrimary (x r))) r).product⟩

end Derivation

namespace Joint

def piece : Joint → Piece
  | plus => mark '+'
  | minus => mark '-'

def kind : Joint → BinaryKind
  | plus => .add
  | minus => .sub

end Joint

/-- What follows a joint of a target: a term, or the offset without its sign. -/
inductive Addend where
  | term (t : Term)
  | offset (n : Nat)
  deriving DecidableEq, Repr

namespace Addend

def row (h : Hand) : Addend → List Piece
  | term t => t.row h
  | offset n => [whole n]

def shape (h : Hand) : Addend → Shape
  | term t => t.shape h
  | offset n => .whole n

end Addend

namespace Target

/-- The targets that the game draws: one term or more, a joint between any two of them, and positive
numbers in the terms. -/
structure IsProper (t : Target) : Prop where
  terms_ne_nil : t.terms ≠ []
  length_joints : t.joints.length + 1 = t.terms.length
  pos : ∀ term ∈ t.terms, ∀ n ∈ term.numbers, 0 < n

/-- The offset with its sign as a joint; none if it is zero. -/
def offsetTail (offset : Int) : List (Joint × Addend) :=
  if offset = 0 then [] else [(if 0 < offset then .plus else .minus, .offset offset.natAbs)]

/-- What follows the first term of a target. -/
def tail (t : Target) : List (Joint × Addend) :=
  (t.joints.zip t.terms.tail).map (fun p => (p.1, .term p.2)) ++ offsetTail t.offset

def tailRow (h : Hand) (ps : List (Joint × Addend)) : List Piece :=
  ps.flatMap fun p => p.1.piece :: p.2.row h

/-- The pieces of a sum that begins with the term `first`. -/
def sumRow (h : Hand) (first : Term) (ps : List (Joint × Addend)) : List Piece :=
  first.row h ++ tailRow h ps

/-- What is read when the joints and addends follow an expression. -/
def tailShape (h : Hand) (e : Shape) (ps : List (Joint × Addend)) : Shape :=
  ps.foldl (fun e p => .binary p.1.kind false e (p.2.shape h)) e

/-- What the sum is read as. -/
def sumShape (h : Hand) (first : Term) (ps : List (Joint × Addend)) : Shape :=
  tailShape h (first.shape h) ps

theorem begins_tailRow (h : Hand) (ps : List (Joint × Addend)) :
    Begins ['+', '-'] (tailRow h ps) := by
  cases ps with
  | nil => simp [tailRow, Begins]
  | cons p ps =>
    obtain ⟨j, a⟩ := p
    cases j <;> simp [tailRow, Joint.piece]

theorem apart_tailRow (h : Hand) (ps : List (Joint × Addend)) : Apart (tailRow h ps) := by
  induction ps with
  | nil => trivial
  | cons p ps ih =>
    obtain ⟨j, a⟩ := p
    have hbegins := begins_tailRow h ps
    have hrow : Apart (a.row h ++ tailRow h ps) := by
      cases a with
      | term t => exact Term.apart_row h t ih hbegins
      | offset n => exact (apart_whole (hbegins.mono (by simp))).mpr ih
    cases j <;> exact (apart_mark (by simp)).mpr hrow

theorem apart_sumRow (h : Hand) (first : Term) (ps : List (Joint × Addend)) :
    Apart (sumRow h first ps) :=
  Term.apart_row h first (apart_tailRow h ps) (begins_tailRow h ps)

/-- A sum takes one addend after the other. -/
theorem nonempty_tailRow (h : Hand) {i : List Piece} {e : Shape} (ps : List (Joint × Addend))
    (d : Derivation .sum i (tailRow h ps) [e]) :
    Nonempty (Derivation .sum i [] [tailShape h e ps]) := by
  induction ps generalizing e with
  | nil => exact ⟨d⟩
  | cons p ps ih =>
    obtain ⟨j, a⟩ := p
    obtain ⟨da⟩ : Nonempty (Derivation .product (a.row h ++ tailRow h ps) (tailRow h ps)
        [a.shape h]) := by
      cases a with
      | term t => exact Derivation.nonempty_row h t _
      | offset n => exact ⟨(Derivation.whole n _).product⟩
    have hkind : sumKind? j.piece.kind = some j.kind := by cases j <;> rfl
    exact ih (.add d hkind da)

theorem nonempty_sumRow (h : Hand) (first : Term) (ps : List (Joint × Addend)) :
    Nonempty (Derivation .sum (sumRow h first ps) [] [sumShape h first ps]) := by
  obtain ⟨d⟩ := Derivation.nonempty_row h first (tailRow h ps)
  exact nonempty_tailRow h ps (.ofProduct d)

theorem toList_offsetText (offset : Int) :
    (offsetText offset).toList = rowText (tailRow .formal (offsetTail offset)) := by
  rcases Int.lt_trichotomy offset 0 with h | rfl | h
  · obtain ⟨n, rfl⟩ := Int.eq_negSucc_of_lt_zero h
    have hneg : offsetText (.negSucc n) = "-" ++ toString (n + 1) := rfl
    simp [hneg, offsetTail, tailRow, Joint.piece, Addend.row, ← Piece.toList_toString]
  · rfl
  · rw [offsetText, offsetTail, if_neg (by omega), if_pos h, if_neg (by omega), if_pos h]
    simp [tailRow, Joint.piece, Addend.row, Term.toList_repr h]

theorem toList_join {ps : List (Joint × Term)} (h : ∀ p ∈ ps, ∀ n ∈ p.2.numbers, 0 < n) :
    (String.join (ps.map fun p => p.1.text ++ p.2.text)).toList =
      rowText (tailRow .formal (ps.map fun p => (p.1, .term p.2))) := by
  induction ps with
  | nil => rfl
  | cons p ps ih =>
    obtain ⟨hp, hps⟩ := List.forall_mem_cons.mp h
    obtain ⟨j, t⟩ := p
    have ih := ih hps
    have ht := Term.toList_text hp
    cases j <;> simp_all [tailRow, Joint.text, Joint.piece, Addend.row, rowText]

/-- The formal row spells the text of a target. -/
theorem toList_text {t : Target} (ht : t.IsProper) {first : Term} {rest : List Term}
    (hterms : t.terms = first :: rest) :
    t.text.toList = rowText (sumRow .formal first t.tail) := by
  have hpos := ht.pos
  rw [hterms] at hpos
  have hjoin : ∀ p ∈ t.joints.zip rest, ∀ n ∈ p.2.numbers, 0 < n :=
    fun p hp => hpos p.2 (List.mem_cons_of_mem _ (List.of_mem_zip hp).2)
  have hfirst := Term.toList_text (hpos first (List.mem_cons_self ..))
  have hrow : tailRow .formal t.tail =
      tailRow .formal ((t.joints.zip rest).map fun p => (p.1, .term p.2)) ++
        tailRow .formal (offsetTail t.offset) := by
    rw [tail, hterms, List.tail_cons]
    exact List.flatMap_append
  rw [text, hterms, sumRow, hrow, rowText_append, rowText_append, ← hfirst, ← toList_join hjoin,
    ← toList_offsetText, ← List.append_assoc, ← String.toList_append, ← String.toList_append]

/-- A text that spells a sum is read as that sum. -/
theorem exists_parse {s : String} {h : Hand} {first : Term} {ps : List (Joint × Addend)}
    (hs : s.toList = rowText (sumRow h first ps)) :
    ∃ e, parse s = .ok e ∧ e.shape = sumShape h first ps := by
  rw [parse_eq_ok, pieces_tokens (apart_sumRow h first ps) hs]
  exact nonempty_sumRow h first ps

end Target

end CurveGuess
