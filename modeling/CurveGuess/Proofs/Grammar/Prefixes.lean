import CurveGuess.Proofs.Grammar.Scan
import CurveGuess.Proofs.Lexing

/-!
# Beginnings of formulas

A row of tokens begins a formula exactly if the pass over its pieces comes to their end. What is
missing then is an operand at most, and the ends of the brackets that are open. A token that the
pass does not let come ends all hope, whatever follows it.
-/
namespace CurveGuess

open Stage

/-- Are the tokens those of a formula? -/
def Accepted (ts : List Token) : Prop :=
  ∃ e, (readFull Expr.read (.start ts)).result = .ok e

/-- Is there a text whose tokens complete these to a formula? -/
def Completable (ts : List Token) : Prop := ∃ more : String, Accepted (ts ++ tokens more)

theorem accepted_iff (ts : List Token) : Accepted ts ↔ scan .operand [] (pieces ts) = true := by
  rw [scan_iff]
  constructor
  · rintro ⟨e, h⟩
    exact ⟨e.shape, (exists_readFull_iff ts e.shape).mp ⟨e, h, rfl⟩⟩
  · rintro ⟨s, d⟩
    obtain ⟨e, h, -⟩ := (exists_readFull_iff ts s).mpr d
    exact ⟨e, h⟩

theorem pieces_append (ts us : List Token) : pieces (ts ++ us) = pieces ts ++ pieces us := by
  rw [pieces, List.filter_append, List.map_append, ← pieces, ← pieces]

namespace Bracket

def closer : Bracket → Char
  | .brace => '\x7d'
  | _ => ')'

/-- The piece of a closing character. -/
def closing : Bracket → Piece
  | .brace => ⟨.closeBrace, ['\x7d']⟩
  | _ => ⟨.closeParen, [')']⟩

theorem visible_closer (b : Bracket) (cs : List Char) :
    visible (b.closer :: cs) = b.closing :: visible cs := by
  cases b <;> exact visible_cons _ _

theorem step_closing (b : Bracket) (brackets : List Bracket) (c : Bool) :
    step (.operator c) (b :: brackets) b.closing = some (.operator false, brackets) := by
  cases b <;> rfl

end Bracket

theorem scan_closers (brackets : List Bracket) (c : Bool) :
    scan (.operator c) brackets (visible (brackets.map Bracket.closer)) = true := by
  induction brackets generalizing c with
  | nil => rw [List.map_nil, visible_nil]; rfl
  | cons b brackets ih =>
    rw [List.map_cons, b.visible_closer, scan_cons (b.step_closing brackets c)]
    exact ih false

/-- Wherever the pass has come to, some text ends the formula. -/
theorem exists_scan (stage : Stage) (brackets : List Bracket) :
    ∃ cs, scan stage brackets (visible cs) = true := by
  cases stage with
  | operator c => exact ⟨_, scan_closers brackets c⟩
  | operand =>
    have hx : Piece.Valid ⟨.name, ['x']⟩ :=
      Piece.valid_name (by simp) (List.forall_mem_singleton.mpr (by decide))
    have hnext : ∀ c ∈ (brackets.map Bracket.closer).head?,
        Piece.takes ⟨.name, ['x']⟩ c = false := by
      cases brackets with
      | nil => simp
      | cons b brackets => cases b <;> simp [Bracket.closer, Piece.takes] <;> decide
    refine ⟨'x' :: brackets.map Bracket.closer, ?_⟩
    rw [← List.singleton_append, visible_append hx _ hnext]
    exact (scan_cons (step_name rfl)).trans (scan_closers brackets _)

section
variable {ts : List Token} {stage : Stage} {brackets : List Bracket}

theorem completable_of_run (h : run .operand [] (pieces ts) = some (stage, brackets)) :
    Completable ts := by
  obtain ⟨cs, hcs⟩ := exists_scan stage brackets
  refine ⟨String.ofList cs, ?_⟩
  rw [accepted_iff, pieces_append, scan_append h, tokens, String.toList_ofList]
  exact hcs

theorem not_accepted_of_step (h : run .operand [] (pieces ts) = some (stage, brackets)) {t : Token}
    (hspace : t.kind ≠ .whitespace) (ht : stage.step brackets t.piece = none) (us : List Token) :
    ¬Accepted (ts ++ t :: us) := by
  rw [accepted_iff, pieces_append, scan_append h, pieces_cons, if_neg hspace,
    scan_refused ht]
  exact Bool.false_ne_true

end

end CurveGuess
