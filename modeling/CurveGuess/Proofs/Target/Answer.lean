import CurveGuess.Proofs.Formal.Meaning
import CurveGuess.Proofs.Grammar.Value
import CurveGuess.Proofs.Target.Pieces
import CurveGuess.Proofs.Text
import CurveGuess.Session.Basic

/-!
# The revealed answer

What is revealed of a target is the same row of terms in the readable hand. Typed in as a guess, it
is written formally once more and read as the target, up to groups and spelling.
-/
namespace CurveGuess

open Piece Spelling

namespace Spelling

variable {gs : List ReadableGroup} {ts : List Piece}

@[simp] theorem shown_whole (n : Nat) :
    shown false gs (whole n :: ts) = whole n :: shown false gs ts :=
  shown_kept (t := whole n) rfl false gs ts

@[simp] theorem shown_mark {c : Char} (hc : c ∈ ['x', '+', '-', '^', '(', ')']) :
    shown false gs (mark c :: ts) = mark c :: shown false gs ts := by
  have hkept : ['x', '+', '-', '^', '(', ')'].all (fun c => isKept (mark c).kind) = true := by
    decide
  exact shown_kept (List.all_eq_true.mp hkept c hc) false gs ts

/-- Parentheses stay around the argument of a function. -/
@[simp] theorem shown_callee {f : String} (hf : f ∈ Hand.functions) :
    shown false gs (Hand.formal.callee f :: mark '(' :: ts) =
      Hand.readable.callee f :: mark '(' :: shown false gs ts := by
  have hname : shownName (Hand.formal.callee f) = Hand.readable.callee f := by
    rw [Hand.mem_functions] at hf
    rcases hf with rfl | rfl | rfl | rfl <;> decide
  have hnext : nextIs .openBrace (withoutSpace (mark '(' :: ts)) = false := rfl
  rw [shown, show (Hand.formal.callee f).kind = .command from rfl]
  simp only [hname, hnext, Bool.and_false]
  rw [shown_mark (by simp)]

/-- The braces of a square root become parentheses. -/
theorem shown_root : shown false gs (Hand.formal.callee "sqrt" :: mark '\x7b' :: ts) =
    Hand.readable.callee "sqrt" :: mark '(' :: shown false (.paren :: gs) ts := by
  have hname : shownName (Hand.formal.callee "sqrt") = Hand.readable.callee "sqrt" := by decide
  have hnext : nextIs .openBrace (withoutSpace (mark '\x7b' :: ts)) = true := rfl
  rw [shown, show (Hand.formal.callee "sqrt").kind = .command from rfl]
  simp only [hname, hnext, Bool.and_true]
  rw [show decide ((Hand.formal.callee "sqrt").name = "sqrt") = true by decide,
    shown_openBrace (by decide)]
  simp
  rfl

theorem shown_rootEnd :
    shown false (.paren :: gs) (mark '\x7d' :: ts) = mark ')' :: shown false gs ts := by
  rw [shown_closeBrace (by decide), if_pos rfl]
  rfl

/-- The braces of an exponent go. -/
@[simp] theorem shown_exponent {t : Piece} (ht : isKept t.kind = true) :
    shown false gs (mark '\x7b' :: t :: mark '\x7d' :: ts) = t :: shown false gs ts := by
  -- a single piece that is shown as it is neither opens nor closes a group
  obtain ⟨hspace, hclose, hdepth⟩ : t.kind ≠ .whitespace ∧ t.kind ≠ .closeBrace ∧
      depthAfter 0 t.kind = 0 := by
    cases hk : t.kind <;> simp_all [isKept, depthAfter]
  have hflat : isFlat (t :: mark '\x7d' :: ts) = true := by
    rw [isFlat, withoutSpace_cons, if_neg hspace, withoutSpace_cons, if_neg (by decide),
      closing?_cons, if_neg (fun h => hclose h.1), hdepth, closing?_cons,
      if_pos ⟨by decide, rfl⟩]
    rfl
  rw [shown_openBrace (by decide), hflat]
  simp [shown_kept ht, shown_closeBrace (t := mark '\x7d') (by decide)]

end Spelling

namespace Target

theorem shown_row (t : Term) (gs : List ReadableGroup) (ts : List Piece) :
    shown false gs (t.row .formal ++ ts) = t.row .readable ++ shown false gs ts := by
  cases t with
  | linear c => simp [Term.row]
  | quadratic c => simp [Term.row, Hand.exponent, shown_exponent (t := whole 2) rfl]
  | exponential b => simp [Term.row, Hand.exponent, shown_exponent (t := mark 'x') (by decide)]
  | sine c f | cosine c f => cases f <;> simp [Term.row, Term.angleRow]
  | logarithm c s => simp [Term.row]
  | squareRoot c => simp [Term.row, Hand.radicand, shown_root, shown_rootEnd]

theorem shown_addend (a : Addend) (gs : List ReadableGroup) (ts : List Piece) :
    shown false gs (a.row .formal ++ ts) = a.row .readable ++ shown false gs ts := by
  cases a with
  | term t => exact shown_row t gs ts
  | offset n => exact shown_whole n

theorem shown_tailRow (ps : List (Joint × Addend)) :
    shown false [] (tailRow .formal ps) = tailRow .readable ps := by
  induction ps with
  | nil => rfl
  | cons p ps ih =>
    obtain ⟨j, a⟩ := p
    have hcons (h : Hand) : tailRow h ((j, a) :: ps) = j.piece :: (a.row h ++ tailRow h ps) := rfl
    have hjoint (ts : List Piece) : shown false [] (j.piece :: ts) =
        j.piece :: shown false [] ts := by
      cases j <;> exact shown_mark (by simp)
    rw [hcons, hcons, hjoint, shown_addend, ih]

theorem shown_sumRow (first : Term) (ps : List (Joint × Addend)) :
    shown false [] (sumRow .formal first ps) = sumRow .readable first ps := by
  rw [sumRow, shown_row, shown_tailRow, sumRow]

/-- The readable spelling turns the formal hand into the readable one. -/
theorem toList_toReadable {s : String} {first : Term} {ps : List (Joint × Addend)}
    (hs : s.toList = rowText (sumRow .formal first ps)) :
    (toReadable s).toList = rowText (sumRow .readable first ps) := by
  have hapart := apart_sumRow .formal first ps
  obtain ⟨d⟩ := nonempty_sumRow .formal first ps
  have hpaired : Paired (pieces (tokens s)) := by
    rw [pieces_tokens hapart hs]
    exact (Matched.of_derivation d).paired trivial
  rw [toReadable, String.toList_ofList, readableFrom_eq hpaired, map_piece_tokens hapart hs,
    shown_sumRow, rowText]

/-- The characters that answers are made of. -/
def isAnswerChar (c : Char) : Bool :=
  Lexer.isDigit c || Lexer.isLetter c || ['+', '-', '^', '(', ')'].contains c

def Clean (ts : List Piece) : Prop := ∀ c ∈ rowText ts, isAnswerChar c = true

@[simp] theorem clean_nil : Clean [] := fun _ hc => absurd hc List.not_mem_nil

theorem clean_append {ts us : List Piece} : Clean (ts ++ us) ↔ Clean ts ∧ Clean us := by
  rw [Clean, rowText_append]
  exact List.forall_mem_append

theorem clean_cons {t : Piece} {ts : List Piece} (ht : ∀ c ∈ t.text, isAnswerChar c = true) :
    Clean (t :: ts) ↔ Clean ts := by
  rw [Clean, rowText_cons, List.forall_mem_append]
  exact and_iff_right ht

@[simp] theorem clean_whole {n : Nat} {ts : List Piece} : Clean (whole n :: ts) ↔ Clean ts :=
  clean_cons fun c hc => by simp [isAnswerChar, isDigit_of_mem_whole hc]

@[simp] theorem clean_mark {c : Char} {ts : List Piece} (hc : c ∈ ['x', '+', '-', '^', '(', ')']) :
    Clean (mark c :: ts) ↔ Clean ts := by
  have hclean : ['x', '+', '-', '^', '(', ')'].all isAnswerChar = true := by decide
  exact clean_cons (by simpa using List.all_eq_true.mp hclean c hc)

@[simp] theorem clean_callee {f : String} {ts : List Piece} (hf : f ∈ Hand.functions) :
    Clean (Hand.readable.callee f :: ts) ↔ Clean ts := by
  have hclean : (Hand.readable.callee f).text.all isAnswerChar = true := by
    rw [Hand.mem_functions] at hf
    rcases hf with rfl | rfl | rfl | rfl <;> decide
  exact clean_cons (List.all_eq_true.mp hclean)

theorem clean_row (t : Term) : Clean (t.row .readable) := by
  cases t with
  | sine c f | cosine c f => cases f <;> simp [Term.row, Term.angleRow]
  | _ => simp [Term.row, Hand.exponent, Hand.radicand]

theorem clean_tailRow (ps : List (Joint × Addend)) : Clean (tailRow .readable ps) := by
  induction ps with
  | nil => exact clean_nil
  | cons p ps ih =>
    obtain ⟨j, a⟩ := p
    have hrow : Clean (a.row .readable) := by
      cases a with
      | term t => exact clean_row t
      | offset n => exact clean_whole.mpr clean_nil
    cases j <;> exact (clean_mark (by simp)).mpr (clean_append.mpr ⟨hrow, ih⟩)

theorem clean_sumRow (first : Term) (ps : List (Joint × Addend)) :
    Clean (sumRow .readable first ps) :=
  clean_append.mpr ⟨clean_row first, clean_tailRow ps⟩

theorem not_isBlank_of_clean {ts : List Piece} (h : Clean ts) :
    ∀ c ∈ rowText ts, isBlank c = false := by
  have hsigns : ['+', '-', '^', '(', ')'].all (fun c => !isBlank c) = true := by decide
  intro c hc
  have hclean := h c hc
  simp only [isAnswerChar, Bool.or_eq_true, List.contains_iff_mem, or_assoc] at hclean
  rcases hclean with hd | hl | hs
  · exact not_isBlank (.inr (by simp [isNumberChar, hd]))
  · exact not_isBlank (.inl hl)
  · simpa using List.all_eq_true.mp hsigns c hs

theorem not_mem_of_clean {ts : List Piece} (h : Clean ts) {c : Char}
    (hc : c ∈ ['\\', '\x7b', '\x7d']) : c ∉ rowText ts := by
  have hspecial : ['\\', '\x7b', '\x7d'].all (fun c => !isAnswerChar c) = true := by decide
  intro hmem
  have hfalse := List.all_eq_true.mp hspecial c hc
  rw [h c hmem] at hfalse
  cases hfalse

/-- There is no multiplication sign in an answer. -/
theorem ne_mul_of_clean {ts : List Piece} (h : Clean ts) (hts : Solid ts) :
    ∀ t ∈ ts, t.kind ≠ .mul := by
  intro t ht hk
  have hspell := (hts t ht).1.spells
  rw [hk] at hspell
  have hstar : '*' ∈ t.text := by
    rw [show t.text = ['*'] from hspell]
    exact List.mem_singleton_self _
  have hclean := h '*' (List.mem_flatMap.mpr ⟨t, ht, hstar⟩)
  exact absurd hclean (by decide)

theorem multipliesName_eq_false {ts : List Piece} (h : ∀ t ∈ ts, t.kind ≠ .mul) :
    multipliesName ts = false := by
  induction ts with
  | nil => rfl
  | cons t ts ih =>
    obtain ⟨-, hts⟩ := List.forall_mem_cons.mp h
    have hhead : ts.head?.any (·.kind = .mul) = false := by
      rw [Option.any_eq_false]
      intro u hu
      simpa using hts u (List.mem_of_mem_head? hu)
    rw [multipliesName, ih hts, hhead]
    simp

theorem singleArgs_shape (h : Hand) (t : Term) : (t.shape h).singleArgs = true := by
  cases t with
  | sine c f | cosine c f => cases f <;> rfl
  | _ => cases h <;> rfl

theorem singleArgs_tailShape (h : Hand) {e : Shape} (he : e.singleArgs = true)
    (ps : List (Joint × Addend)) : (tailShape h e ps).singleArgs = true := by
  induction ps generalizing e with
  | nil => exact he
  | cons p ps ih =>
    obtain ⟨j, a⟩ := p
    have ha : (a.shape h).singleArgs = true := by
      cases a with
      | term t => exact singleArgs_shape h t
      | offset n => rfl
    exact ih (by rw [Shape.singleArgs, he, ha, Bool.and_self])

/-- The two hands differ in groups and spelling alone. -/
theorem bare_shape (t : Term) : (t.shape .readable).bare = (t.shape .formal).bare := by
  cases t with
  | sine c f | cosine c f => cases f <;> rfl
  | _ => rfl

theorem bare_tailShape {e e' : Shape} (he : e'.bare = e.bare) (ps : List (Joint × Addend)) :
    (tailShape .readable e' ps).bare = (tailShape .formal e ps).bare := by
  induction ps generalizing e e' with
  | nil => exact he
  | cons p ps ih =>
    obtain ⟨j, a⟩ := p
    have ha : (a.shape .readable).bare = (a.shape .formal).bare := by
      cases a with
      | term t => exact bare_shape t
      | offset n => rfl
    exact ih (by rw [Shape.bare_binary, Shape.bare_binary, he, ha])

/-- What is typed as an answer is read as the answer once it is written formally. -/
theorem exists_parse_toFormal {s : String} {first : Term} {ps : List (Joint × Addend)}
    (hs : s.toList = rowText (sumRow .readable first ps)) :
    ∃ e, parse (toFormal s) = .ok e ∧ e.shape.plain = (sumShape .readable first ps).plain := by
  have hapart := apart_sumRow .readable first ps
  have hrow := pieces_tokens hapart hs
  obtain ⟨d⟩ := nonempty_sumRow .readable first ps
  have hsep : Separate (tokens s) := separate_of_pieces fun u hu hk => by
    rw [hrow] at hu
    cases d.mem_of_symbol hu hk
  -- without multiplication signs no name can become a call
  have hm := multipliesName_eq_false (ne_mul_of_clean (clean_sumRow first ps) hapart.solid)
  have hargs := singleArgs_tailShape .readable (singleArgs_shape .readable first) ps
  have hfollows : FollowsProduct [] := fun _ _ he => by cases he
  obtain ⟨_, e, ⟨d'⟩, he⟩ := formalizes d hm hargs hfollows none []
  rw [← hrow, ← pieces_toFormal hsep] at d'
  obtain ⟨e', h', rfl⟩ := parse_eq_ok.mpr ⟨d'⟩
  exact ⟨e', h', he⟩

end Target

/-- A guess that is a formula is compared with the target. -/
theorem Session.submit_of_read {s : Session} {input : String} {g f : Formula}
    (hinput : trim input = input) (hne : input ≠ "")
    (hg : Formula.read (toFormal input) = .ok g) (hf : s.challenge.formula = some f) :
    s.submit input = ({ s with attempts := s.attempts + 1 } : Session).judge (toFormal input)
      (.compare g f Sampling.standard) := by
  have hempty : ¬input.isEmpty = true := by simpa using hne
  rw [submit, hinput, if_neg hempty]
  dsimp only
  rw [hg, hf]

namespace Target

/-- The readable text of a target is free of commands and braces, it is read as the target, also
after it is written formally, and submitting it compares the target with itself. -/
theorem submit_readable {t : Target} (ht : t.IsProper) :
    (∀ c ∈ ['\\', '\x7b', '\x7d'], c ∉ (toReadable t.text).toList) ∧
    ∃ e r f, parse t.text = .ok e ∧ parse (toReadable t.text) = .ok r ∧
      parse (toFormal (toReadable t.text)) = .ok f ∧
      r.shape.bare = e.shape.bare ∧ f.shape.bare = e.shape.bare ∧
      ∀ s : Session, s.challenge = .ofText t.text →
        s.submit s.challenge.readable =
          ({ s with attempts := s.attempts + 1 } : Session).judge (toFormal (toReadable t.text))
            (.compare ⟨t.text, e⟩ ⟨t.text, e⟩ Sampling.standard) := by
  obtain ⟨first, rest, hterms⟩ := List.exists_cons_of_ne_nil ht.terms_ne_nil
  have htext := toList_text ht hterms
  have hreadable := toList_toReadable htext
  have hclean := clean_sumRow first t.tail
  have hbare : (sumShape .readable first t.tail).bare = (sumShape .formal first t.tail).bare :=
    bare_tailShape (bare_shape first) t.tail
  obtain ⟨e, hparse, he⟩ := exists_parse htext
  obtain ⟨r, hparse', hr⟩ := exists_parse hreadable
  obtain ⟨f, hparse'', hf⟩ := exists_parse_toFormal hreadable
  have hsame : f.shape.bare = e.shape.bare := by
    rw [Shape.bare, hf, ← Shape.bare, hbare, he]
  refine ⟨?_, e, r, f, hparse, hparse', hparse'', by rw [hr, hbare, he], hsame, ?_⟩
  · rw [hreadable]
    exact fun c => not_mem_of_clean hclean
  · intro s hs
    have hinput : trim (toReadable t.text) = toReadable t.text :=
      trim_eq_self fun c hc => not_isBlank_of_clean hclean c (hreadable ▸ hc)
    have hguess : Formula.read (toFormal (toReadable t.text)) =
        .ok ⟨toFormal (toReadable t.text), f⟩ := by rw [Formula.read, hparse'']; rfl
    have htarget : s.challenge.formula = some ⟨t.text, e⟩ := by
      rw [hs, Challenge.ofText, Formula.read, hparse]
      rfl
    have hshown : s.challenge.readable = toReadable t.text := by rw [hs, Challenge.ofText]
    rw [hshown, Session.submit_of_read hinput (ne_empty_of_parse hparse') hguess htarget,
      Tally.compare_congr (g := ⟨t.text, e⟩) hsame]

theorem submit_readable_logarithm : ∃ e r f, parse "3\\ln(x+5)-2^\x7bx\x7d" = .ok e ∧
    parse "3log(x+5)-2^x" = .ok r ∧ parse "3\\ln(x+5)-2^x" = .ok f ∧
    r.shape.bare = e.shape.bare ∧ f.shape.bare = e.shape.bare ∧
    (Session.ofTarget .practice .easy "3\\ln(x+5)-2^\x7bx\x7d").state.submit "3log(x+5)-2^x" =
      ({ (Session.ofTarget .practice .easy "3\\ln(x+5)-2^\x7bx\x7d").state with
          attempts := 1 } : Session).judge "3\\ln(x+5)-2^x"
        (.compare ⟨"3\\ln(x+5)-2^\x7bx\x7d", e⟩ ⟨"3\\ln(x+5)-2^\x7bx\x7d", e⟩
          Sampling.standard) := by
  have hproper : IsProper ⟨[.logarithm 3 5, .exponential 2], [.minus], 0⟩ :=
    ⟨by simp, rfl, by simp [Term.numbers]⟩
  have htext : text ⟨[.logarithm 3 5, .exponential 2], [.minus], 0⟩ = "3\\ln(x+5)-2^\x7bx\x7d" := by
    decide +kernel
  have hreadable : toReadable "3\\ln(x+5)-2^\x7bx\x7d" = "3log(x+5)-2^x" := by decide +kernel
  have hformal : toFormal "3log(x+5)-2^x" = "3\\ln(x+5)-2^x" := by decide +kernel
  obtain ⟨-, e, r, f, he, hr, hf, hsame, hsame', hsubmit⟩ := submit_readable hproper
  rw [htext] at he hr hf hsubmit
  rw [hreadable] at hr hf hsubmit
  rw [hformal] at hf hsubmit
  have hsubmit := hsubmit (Session.ofTarget .practice .easy "3\\ln(x+5)-2^\x7bx\x7d").state rfl
  refine ⟨e, r, f, he, hr, hf, hsame, hsame', ?_⟩
  rw [← hreadable]
  exact hsubmit

end Target

end CurveGuess
