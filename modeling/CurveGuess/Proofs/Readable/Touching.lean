import CurveGuess.Proofs.Readable.Shown
import Mathlib.Data.List.TakeWhile

/-!
# Pieces that touch

The readable text puts pieces together that were apart. Names that touch grow together, and so do
numbers, which leaves fewer words than there were. Only between two numbers with a point does no
word go: the first takes the digits before the second point, and that is no change if they are
zeros.
-/
namespace CurveGuess

namespace Piece

/-- The text of a row of pieces. -/
def rowText (ts : List Piece) : List Char := ts.flatMap text

@[simp] theorem rowText_nil : rowText [] = [] := rfl

@[simp] theorem rowText_cons (t : Piece) (ts : List Piece) :
    rowText (t :: ts) = t.text ++ rowText ts := rfl

/-- Does the piece take the first character of the pieces after it? White space may. -/
def grows (t : Piece) (ts : List Piece) : Bool :=
  t.kind ≠ .whitespace && (rowText ts).head?.any t.takes

/-- Is the first piece a number with a point that is left with a digit when the zeros before its
point go? -/
def sparesZeros : List Piece → Bool
  | [] => false
  | t :: ts => t.kind = .float && (t.text.takeWhile (· ≠ '.')).all (· = '0') &&
      (t.text.getLast? ≠ some '.' || t.grows ts)

/-- Does no piece take any of the next, but for zeros that can be spared? -/
def isLegible : List Piece → Bool
  | [] => true
  | t :: ts => (!t.grows ts || t.kind = .float && sparesZeros ts) && isLegible ts

/-- The pieces that are counted. -/
def isCounted (t : Piece) : Bool := isWordKind t.kind || t.kind = .symbol

end Piece

open Piece Spelling

theorem exists_span (p : Char → Bool) (cs : List Char) :
    ∃ w r, cs = w ++ r ∧ (∀ c ∈ w, p c = true) ∧ ∀ c ∈ r.head?, p c = false := by
  refine ⟨cs.takeWhile p, cs.dropWhile p, List.takeWhile_append_dropWhile.symm,
    fun c hc => List.mem_takeWhile_imp hc, ?_⟩
  intro c hc
  have h := List.head?_dropWhile_not p cs
  rw [Option.mem_def.mp hc] at h
  simpa using h

theorem span_ne_nil {p : Char → Bool} {w r : List Char} {c : Char}
    (hr : ∀ c ∈ r.head?, p c = false) (hc : (w ++ r).head? = some c) (hp : p c = true) :
    w ≠ [] := by
  rintro rfl
  rw [hr c hc] at hp
  cases hp

theorem visible_of_valid {t : Piece} (ht : t.Valid) (hspace : t.kind ≠ .whitespace)
    {cs : List Char} (h : ∀ c ∈ cs.head?, t.takes c = false) :
    visible (t.text ++ cs) = t :: visible cs := by
  rw [visible_append ht cs h, if_neg (by simp [Piece.isSpace, hspace])]

theorem visible_letters {w r : List Char} (hne : w ≠ [])
    (hw : ∀ c ∈ w, Lexer.isLetter c = true) (hr : ∀ c ∈ r.head?, Lexer.isLetter c = false) :
    visible (w ++ r) = ⟨.name, w⟩ :: visible r :=
  visible_of_valid (valid_name hne hw) (by simp) hr

theorem visible_digits {w r : List Char} (hne : w ≠ [])
    (hw : ∀ c ∈ w, Lexer.isDigit c = true)
    (hr : ∀ c ∈ r.head?, Lexer.isDigit c = false ∧ c ≠ '.') :
    visible (w ++ r) = ⟨.int, w⟩ :: visible r :=
  visible_of_valid (valid_int hne hw) (by simp) fun c hc => by simp [takes, hr c hc]

/-- A number with a point, or a point alone. -/
def pointed (w v : List Char) : Piece :=
  ⟨if w = [] ∧ v = [] then .symbol else .float, w ++ '.' :: v⟩

theorem isCounted_pointed (w v : List Char) : (pointed w v).isCounted = true := by
  rw [isCounted, pointed]
  split <;> rfl

theorem visible_point {w v r : List Char} (hw : ∀ c ∈ w, Lexer.isDigit c = true)
    (hv : ∀ c ∈ v, Lexer.isDigit c = true) (hr : ∀ c ∈ r.head?, Lexer.isDigit c = false) :
    visible (w ++ '.' :: (v ++ r)) = pointed w v :: visible r := by
  rw [pointed, show w ++ '.' :: (v ++ r) = (w ++ '.' :: v) ++ r by simp]
  by_cases hne : w = [] ∧ v = []
  · obtain ⟨rfl, rfl⟩ := hne
    have hvalid : Valid ⟨.symbol, ['.']⟩ := ⟨'.', [], rfl, by decide⟩
    exact visible_of_valid hvalid (by simp) fun c hc => by simp [takes, hr c hc]
  · rw [if_neg hne]
    refine visible_of_valid (valid_float ?_ hw hv) (by simp) hr
    rwa [← Decidable.not_and_iff_not_or_not]

/-- A piece that takes the next character grows together with the next token, or else it is a number
with a point that takes the digits before another point. -/
theorem grown {t : Piece} (ht : t.Valid) (hs : isShown t.kind = true)
    (hspace : t.kind ≠ .whitespace) {cs : List Char} (h : cs.head?.any t.takes = true) :
    isWordKind t.kind = true ∧
      ((∃ u v r, u.isCounted = true ∧ v.isCounted = true ∧ visible cs = u :: visible r ∧
          visible (t.text ++ cs) = v :: visible r) ∨
        t.kind = .float ∧ ∃ w v r, w ≠ [] ∧ (∀ c ∈ w, Lexer.isDigit c = true) ∧
          (∀ c ∈ v, Lexer.isDigit c = true) ∧ (∀ c ∈ r.head?, Lexer.isDigit c = false) ∧
          cs = w ++ '.' :: (v ++ r)) := by
  obtain ⟨c, hc, htakes⟩ : ∃ c, cs.head? = some c ∧ t.takes c = true := by
    simpa [Option.any_eq_true] using h
  obtain ⟨b, bs, htext, hfirst⟩ := ht
  have hspell := Lexer.first_spells hfirst
  rw [← htext] at hspell
  have hne : t.text ≠ [] := by rw [htext]; exact List.cons_ne_nil b bs
  rw [takes] at htakes
  cases hk : t.kind <;> rw [hk] at htakes hspell hs hspace
  case name =>
    obtain ⟨w, r, rfl, hw, hr⟩ := exists_span Lexer.isLetter cs
    refine ⟨rfl, .inl ⟨⟨.name, w⟩, ⟨.name, t.text ++ w⟩, r, rfl, rfl, ?_, ?_⟩⟩
    · exact visible_letters (span_ne_nil hr hc htakes) hw hr
    · rw [← List.append_assoc]
      exact visible_letters (by simp [hne]) (List.forall_mem_append.mpr ⟨hspell, hw⟩) hr
  case int =>
    obtain ⟨w, r, rfl, hw, hr⟩ := exists_span Lexer.isDigit cs
    refine ⟨rfl, .inl ?_⟩
    have htw := List.forall_mem_append.mpr ⟨hspell, hw⟩
    by_cases hpoint : r.head? = some '.'
    · obtain ⟨r', rfl⟩ := List.head?_eq_some_iff.mp hpoint
      obtain ⟨v, q, rfl, hv, hq⟩ := exists_span Lexer.isDigit r'
      refine ⟨pointed w v, pointed (t.text ++ w) v, q, isCounted_pointed w v,
        isCounted_pointed _ v, visible_point hw hv hq, ?_⟩
      rw [← List.append_assoc]
      exact visible_point htw hv hq
    · have hw' : w ≠ [] := by
        rintro rfl
        rw [Bool.or_eq_true, decide_eq_true_eq] at htakes
        rcases htakes with hd | rfl
        · exact span_ne_nil hr hc hd rfl
        · exact hpoint hc
      have hr' : ∀ c ∈ r.head?, Lexer.isDigit c = false ∧ c ≠ '.' :=
        fun c hc => ⟨hr c hc, fun he => hpoint (he ▸ hc)⟩
      refine ⟨⟨.int, w⟩, ⟨.int, t.text ++ w⟩, r, rfl, rfl, visible_digits hw' hw hr', ?_⟩
      rw [← List.append_assoc]
      exact visible_digits (by simp [hne]) htw hr'
  case float =>
    obtain ⟨w, r, rfl, hw, hr⟩ := exists_span Lexer.isDigit cs
    have hw' := span_ne_nil hr hc htakes
    refine ⟨rfl, ?_⟩
    by_cases hpoint : r.head? = some '.'
    · obtain ⟨r', rfl⟩ := List.head?_eq_some_iff.mp hpoint
      obtain ⟨v, q, rfl, hv, hq⟩ := exists_span Lexer.isDigit r'
      exact .inr ⟨rfl, w, v, q, hw', hw, hv, hq, rfl⟩
    · have hr' : ∀ c ∈ r.head?, Lexer.isDigit c = false ∧ c ≠ '.' :=
        fun c hc => ⟨hr c hc, fun he => hpoint (he ▸ hc)⟩
      obtain ⟨x, y, hxy, -, hx, hy⟩ := hspell
      refine .inl ⟨⟨.int, w⟩, pointed x (y ++ w), r, rfl, isCounted_pointed x _,
        visible_digits hw' hw hr', ?_⟩
      rw [hxy, List.append_assoc, List.cons_append, ← List.append_assoc y]
      exact visible_point hx (List.forall_mem_append.mpr ⟨hy, hw⟩) hr
  all_goals simp_all [isShown]

theorem text_of_float {t : Piece} (ht : t.Valid) (hk : t.kind = .float) :
    ∃ x y, t.text = x ++ '.' :: y ∧ (x ≠ [] ∨ y ≠ []) ∧ (∀ c ∈ x, Lexer.isDigit c = true) ∧
      ∀ c ∈ y, Lexer.isDigit c = true := by
  have hspell := ht.spells
  rwa [hk] at hspell

/-- A number with a point takes the digits before the next point. -/
theorem visible_shifted {t : Piece} (ht : t.Valid) (hk : t.kind = .float) {w v r : List Char}
    (hw : ∀ c ∈ w, Lexer.isDigit c = true) (hv : ∀ c ∈ v, Lexer.isDigit c = true)
    (hr : ∀ c ∈ r.head?, Lexer.isDigit c = false) :
    visible (t.text ++ (w ++ '.' :: (v ++ r))) =
      ⟨.float, t.text ++ w⟩ :: pointed [] v :: visible r := by
  obtain ⟨x, y, hxy, hne, hx, hy⟩ := text_of_float ht hk
  have hvalid : Valid ⟨.float, t.text ++ w⟩ := by
    rw [hxy, List.append_assoc, List.cons_append]
    refine valid_float ?_ hx (List.forall_mem_append.mpr ⟨hy, hw⟩)
    exact hne.imp_right fun h h' => h (List.append_eq_nil_iff.mp h').1
  have hpoint : visible ('.' :: (v ++ r)) = pointed [] v :: visible r :=
    visible_point (w := []) (by simp) hv hr
  rw [← List.append_assoc, ← hpoint]
  refine visible_of_valid hvalid (by simp) ?_
  rintro c ⟨⟩
  rfl

/-- What becomes of a piece when the pieces after it are read with it: it is skipped, it is read as
it is, it grows together with the next token, or it takes the digits before the next point. -/
inductive Touching (t : Piece) (ts : List Piece) : Prop where
  | skipped (hk : t.kind = .whitespace) (h : visible (rowText (t :: ts)) = visible (rowText ts))
  | apart (hk : t.kind ≠ .whitespace) (hg : t.grows ts = false)
      (h : visible (rowText (t :: ts)) = t :: visible (rowText ts))
  | joined (hg : t.grows ts = true) (hk : isWordKind t.kind = true) {u v : Piece} {r : List Char}
      (hu : u.isCounted = true) (hv : v.isCounted = true)
      (h : visible (rowText ts) = u :: visible r)
      (h' : visible (rowText (t :: ts)) = v :: visible r)
  | shifted (hg : t.grows ts = true) (hk : t.kind = .float) {w v r : List Char} (hne : w ≠ [])
      (hw : ∀ c ∈ w, Lexer.isDigit c = true) (hv : ∀ c ∈ v, Lexer.isDigit c = true)
      (hr : ∀ c ∈ r.head?, Lexer.isDigit c = false) (htext : rowText ts = w ++ '.' :: (v ++ r))
      (h : visible (rowText ts) = pointed w v :: visible r)
      (h' : visible (rowText (t :: ts)) = ⟨.float, t.text ++ w⟩ :: pointed [] v :: visible r)

theorem touching {t : Piece} (ht : t.Valid) (hs : isShown t.kind = true) (ts : List Piece) :
    Touching t ts := by
  by_cases hk : t.kind = .whitespace
  · refine .skipped hk (visible_space ?_ _)
    have hspell := ht.spells
    rwa [hk] at hspell
  · have hgrows : t.grows ts = (rowText ts).head?.any t.takes := by simp [grows, hk]
    cases hg : t.grows ts with
    | false =>
      refine .apart hk hg (visible_of_valid ht hk fun c hc => ?_)
      have hhead : (rowText ts).head? = some c := hc
      rw [hgrows, hhead] at hg
      exact hg
    | true =>
      obtain ⟨hword, ⟨u, v, r, hu, hv, h, h'⟩ | ⟨hf, w, v, r, hne, hw, hv, hr, htext⟩⟩ :=
        grown ht hs hk (hgrows ▸ hg)
      · exact .joined hg hword hu hv h h'
      · refine .shifted hg hf hne hw hv hr htext (by rw [htext, visible_point hw hv hr]) ?_
        rw [rowText_cons, htext, visible_shifted ht hf hw hv hr]

def count (ts : List Piece) : Nat := ts.countP Piece.isCounted

theorem count_cons (t : Piece) (ts : List Piece) :
    count (t :: ts) = count ts + if t.isCounted then 1 else 0 := List.countP_cons

theorem isCounted_of_isWordKind {t : Piece} (h : isWordKind t.kind = true) :
    t.isCounted = true := by
  rw [isCounted, h, Bool.true_or]

theorem count_rowText_le {ts : List Piece} (h : ∀ t ∈ ts, t.Valid ∧ isShown t.kind = true) :
    count (visible (rowText ts)) ≤ count ts := by
  induction ts with
  | nil => simp
  | cons t ts ih =>
    have ih := ih fun u hu => h u (List.mem_cons_of_mem t hu)
    rw [count_cons]
    cases touching (h t List.mem_cons_self).1 (h t List.mem_cons_self).2 ts with
    | skipped hk h => rw [h]; omega
    | apart hk hg h => rw [h, count_cons]; omega
    | joined hg hk hu hv h h' =>
      rw [h, count_cons, hu] at ih
      rw [h', count_cons, hv, isCounted_of_isWordKind hk]
      omega
    | shifted hg hk hne hw hv hr htext h h' =>
      have ht : t.isCounted = true := isCounted_of_isWordKind (by rw [hk]; rfl)
      rw [h, count_cons, isCounted_pointed] at ih
      rw [h', count_cons, count_cons, isCounted_pointed, ht]
      simp only [isCounted, isWordKind, Bool.true_or, if_true] at ih ⊢
      omega

theorem takes_float {t : Piece} (hk : t.kind = .float) (c : Char) :
    t.takes c = Lexer.isDigit c := by
  simp [takes, hk]

/-- Two numbers with a point that touch. -/
theorem exists_shifted {t u : Piece} {us : List Piece} (ht : t.Valid) (hk : t.kind = .float)
    (hu : u.Valid) (huk : u.kind = .float) :
    ∃ w b d r, u.text = w ++ '.' :: b ∧ (∀ c ∈ w, Lexer.isDigit c = true) ∧
      (∀ c ∈ b ++ d, Lexer.isDigit c = true) ∧
      (sparesZeros (u :: us) = true ↔ (∀ c ∈ w, c = '0') ∧ b ++ d ≠ []) ∧
      visible (rowText (u :: us)) = pointed w (b ++ d) :: visible r ∧
      visible (rowText (t :: u :: us)) =
        ⟨.float, t.text ++ w⟩ :: pointed [] (b ++ d) :: visible r := by
  obtain ⟨w, b, htext, hne, hw, hb⟩ := text_of_float hu huk
  obtain ⟨d, r, hus, hd, hr⟩ := exists_span Lexer.isDigit (rowText us)
  have hbd := List.forall_mem_append.mpr ⟨hb, hd⟩
  have hrow : rowText (u :: us) = w ++ '.' :: ((b ++ d) ++ r) := by
    rw [rowText_cons, htext, hus]
    simp
  have hbefore : u.text.takeWhile (· ≠ '.') = w := by
    have hpoint : ∀ c ∈ w, decide (c ≠ '.') = true := by
      intro c hc
      rw [decide_eq_true_eq]
      rintro rfl
      exact absurd (hw _ hc) (by decide)
    rw [htext, List.takeWhile_append_of_pos hpoint]
    simp
  have hlast : u.text.getLast? ≠ some '.' ↔ b ≠ [] := by
    rw [htext, List.getLast?_append_of_ne_nil _ (by simp)]
    cases hl : b.getLast? with
    | none =>
      rw [List.getLast?_eq_none_iff] at hl
      simp [hl]
    | some c =>
      have hc := List.mem_of_getLast? hl
      have hne : b ≠ [] := List.ne_nil_of_mem hc
      have hpoint : c ≠ '.' := by
        rintro rfl
        exact absurd (hb _ hc) (by decide)
      simp [List.getLast?_cons, hl, hne, hpoint]
  have hgrows : u.grows us = true ↔ d ≠ [] := by
    rw [grows, hus, huk]
    cases d with
    | nil =>
      cases hh : r.head? with
      | none => simp [hh]
      | some c => simp [hh, takes_float huk, hr c hh]
    | cons c d => simp [takes_float huk, hd c List.mem_cons_self]
  refine ⟨w, b, d, r, htext, hw, hbd, ?_, ?_, ?_⟩
  · rw [sparesZeros, hbefore, huk, Bool.and_eq_true, Bool.and_eq_true, Bool.or_eq_true,
      decide_eq_true_eq, decide_eq_true_eq, hlast, hgrows]
    simp only [List.all_eq_true, decide_eq_true_eq, true_and, ne_eq, List.append_eq_nil_iff,
      Decidable.not_and_iff_not_or_not]
  · rw [hrow, visible_point hw hbd hr]
  · rw [rowText_cons, hrow, visible_shifted ht hk hw hbd hr]

/-- Digits that a number with a point takes do not change it exactly if they are zeros. -/
theorem reduced_shifted {t : Piece} (ht : t.Valid) (hk : t.kind = .float) {w : List Char}
    (hw : ∀ c ∈ w, Lexer.isDigit c = true) :
    (numeral ⟨.float, t.text ++ w⟩).reduced = t.numeral.reduced ↔ ∀ c ∈ w, c = '0' := by
  obtain ⟨x, y, hxy, -, hx, hy⟩ := text_of_float ht hk
  rw [numeral, numeral, hxy, List.append_assoc, List.cons_append]
  exact Numeral.reduced_ofText_zeros hx hy hw

theorem numeral_pointed {w v : List Char} (hw : ∀ c ∈ w, Lexer.isDigit c = true)
    (hv : ∀ c ∈ v, Lexer.isDigit c = true) (hzero : ∀ c ∈ w, c = '0') :
    (pointed w v).numeral = (pointed [] v).numeral :=
  Numeral.ofText_zeros hw hv hzero

/-- A row that is legible is read as it is, up to how numbers are written. -/
theorem alike_visible {ts : List Piece} (h : ∀ t ∈ ts, t.Valid ∧ isShown t.kind = true)
    (hl : isLegible ts = true) :
    List.Forall₂ Alike (withoutSpace ts) (visible (rowText ts)) := by
  induction ts with
  | nil => simp [withoutSpace]
  | cons t ts ih =>
    obtain ⟨ht, hs⟩ := h t List.mem_cons_self
    have h' : ∀ u ∈ ts, u.Valid ∧ isShown u.kind = true :=
      fun u hu => h u (List.mem_cons_of_mem t hu)
    rw [isLegible, Bool.and_eq_true] at hl
    have ih := ih h' hl.2
    rw [withoutSpace_cons]
    cases hg : t.grows ts with
    | false =>
      cases touching ht hs ts with
      | skipped hk h =>
        rw [if_pos hk, h]
        exact ih
      | apart hk _ h =>
        rw [if_neg hk, h]
        exact .cons (.inl rfl) ih
      | joined hg' | shifted hg' => rw [hg] at hg'; cases hg'
    | true =>
      rw [hg, Bool.not_true, Bool.false_or, Bool.and_eq_true, decide_eq_true_eq] at hl
      obtain ⟨⟨hk, hspares⟩, -⟩ := hl
      cases ts with
      | nil => cases hspares
      | cons u us =>
        have huk : u.kind = .float := by
          rw [sparesZeros, Bool.and_eq_true, Bool.and_eq_true, decide_eq_true_eq] at hspares
          exact hspares.1.1
        obtain ⟨w, b, d, r, htext, hw, hbd, hiff, hrest, hall⟩ :=
          exists_shifted ht hk (h' u List.mem_cons_self).1 huk
        obtain ⟨hzero, hne⟩ := hiff.mp hspares
        rw [withoutSpace_cons, if_neg (by rw [huk]; decide), hrest] at ih
        rw [if_neg (by rw [hk]; decide), withoutSpace_cons, if_neg (by rw [huk]; decide), hall]
        cases ih with
        | cons hu hus =>
          refine .cons (.inr ⟨hk, rfl, ((reduced_shifted ht hk hw).mpr hzero).symm⟩) (.cons ?_ hus)
          refine .inr ⟨huk, by rw [pointed, if_neg fun h => hne h.2], ?_⟩
          rw [hu.reduced_eq, numeral_pointed hw hbd hzero]

theorem length_words {ts : List Piece} (h : ∀ t ∈ ts, t.kind ≠ .symbol) :
    (ts.filterMap (word · false)).length = count ts := by
  induction ts with
  | nil => rfl
  | cons t ts ih =>
    have ih := ih fun u hu => h u (List.mem_cons_of_mem t hu)
    have ht := h t List.mem_cons_self
    rw [List.filterMap_cons, count_cons, ← ih]
    cases hk : t.kind <;> simp_all [word, isCounted, isWordKind, Kind.isNumber, isName]

/-- The second of two numbers with a point that touch has a point, where no word goes. -/
theorem float_of_shifted {u : Piece} {us : List Piece} {w v r : List Char}
    (h : ∀ t ∈ u :: us, t.Valid ∧ isShown t.kind = true)
    (hcount : count (visible (rowText (u :: us))) = count (u :: us)) (hne : w ≠ [])
    (hw : ∀ c ∈ w, Lexer.isDigit c = true) (htext : rowText (u :: us) = w ++ '.' :: (v ++ r))
    (hread : visible (rowText (u :: us)) = pointed w v :: visible r) : u.kind = .float := by
  obtain ⟨hu, hs⟩ := h u List.mem_cons_self
  cases touching hu hs us with
  | skipped hk _ =>
    obtain ⟨b, bs, hb, hfirst⟩ := hu
    obtain ⟨c, w, rfl⟩ := List.exists_cons_of_ne_nil hne
    have hspace : ∀ c ∈ b :: bs, Lexer.isSpace c = true := by
      have hspell := Lexer.first_spells hfirst
      rwa [hk] at hspell
    rw [rowText_cons, hb] at htext
    have hbc : b = c := (List.cons.inj htext).1
    have hspace := hspace b List.mem_cons_self
    rw [hbc, Lexer.not_isSpace_of_isDigit (hw c List.mem_cons_self)] at hspace
    cases hspace
  | apart _ _ h =>
    rw [hread] at h
    rw [← (List.cons.inj h).1, pointed, if_neg fun h => hne h.1]
  | joined _ hk hv hv' hrest hread' =>
    have hle := count_rowText_le fun t ht => h t (List.mem_cons_of_mem u ht)
    rw [hrest, count_cons, hv] at hle
    rw [hread', count_cons, hv', count_cons, isCounted_of_isWordKind hk] at hcount
    simp only [if_true] at hle hcount
    omega
  | shifted _ hk => exact hk

/-- The text of a row has the words of the row again. -/
structure HasWords (ts : List Piece) : Prop where
  count_eq : count (visible (rowText ts)) = count ts
  noSymbol : ∀ t ∈ visible (rowText ts), t.kind ≠ .symbol
  words_eq : (visible (rowText ts)).filterMap (word · false) = ts.filterMap (word · false)

namespace HasWords

variable {t : Piece} {ts : List Piece}

theorem tail_of_skipped (h : HasWords (t :: ts)) (hk : t.kind = .whitespace)
    (hread : visible (rowText (t :: ts)) = visible (rowText ts)) : HasWords ts := by
  have hquiet : t.isCounted = false := by rw [isCounted, hk]; rfl
  refine ⟨?_, hread ▸ h.noSymbol, ?_⟩
  · rw [← hread, h.count_eq, count_cons, hquiet]
    rfl
  · rw [← hread, h.words_eq, List.filterMap_cons, word_eq_none (by rw [hk]; rfl)]

theorem tail_of_apart (h : HasWords (t :: ts))
    (hread : visible (rowText (t :: ts)) = t :: visible (rowText ts)) : HasWords ts := by
  obtain ⟨hcount, hsymbol, hwords⟩ := h
  rw [hread] at hcount hsymbol hwords
  rw [count_cons, count_cons, Nat.add_right_cancel_iff] at hcount
  refine ⟨hcount, fun u hu => hsymbol u (.tail t hu), ?_⟩
  rw [List.filterMap_cons, List.filterMap_cons] at hwords
  cases hword : t.word false <;> rw [hword] at hwords
  · exact hwords
  · exact (List.cons.inj hwords).2

/-- Two pieces that become one are a word less. -/
theorem not_joined (h : HasWords (t :: ts)) (hts : ∀ u ∈ ts, u.Valid ∧ isShown u.kind = true)
    (hk : isWordKind t.kind = true) {u v : Piece} {r : List Char} (hu : u.isCounted = true)
    (hv : v.isCounted = true) (hrest : visible (rowText ts) = u :: visible r)
    (hread : visible (rowText (t :: ts)) = v :: visible r) : False := by
  have hle := count_rowText_le hts
  have hcount := h.count_eq
  rw [hrest, count_cons, hu] at hle
  rw [hread, count_cons, hv, count_cons, isCounted_of_isWordKind hk] at hcount
  simp only [if_true] at hle hcount
  omega

/-- A number that takes digits from the next one leaves zeros, since the values stay as they are. -/
theorem tail_of_shifted (h : HasWords (t :: ts)) (ht : t.Valid)
    (hts : ∀ u ∈ ts, u.Valid ∧ isShown u.kind = true) (hk : t.kind = .float) {w v r : List Char}
    (hne : w ≠ []) (hw : ∀ c ∈ w, Lexer.isDigit c = true)
    (htext : rowText ts = w ++ '.' :: (v ++ r))
    (hrest : visible (rowText ts) = pointed w v :: visible r)
    (hread : visible (rowText (t :: ts)) = ⟨.float, t.text ++ w⟩ :: pointed [] v :: visible r) :
    sparesZeros ts = true ∧ HasWords ts := by
  obtain ⟨hcount, hsymbol, hwords⟩ := h
  have hle := count_rowText_le hts
  cases ts with
  | nil =>
    rw [rowText_nil, eq_comm, List.append_eq_nil_iff] at htext
    exact absurd htext.1 hne
  | cons u us =>
    have hcount' : count (visible (rowText (u :: us))) = count (u :: us) := by
      rw [hread, count_cons, count_cons, isCounted_pointed, count_cons t,
        isCounted_of_isWordKind (t := t) (by rw [hk]; rfl)] at hcount
      rw [hrest, count_cons, isCounted_pointed] at hle ⊢
      simp only [isCounted, isWordKind, Bool.true_or, if_true] at hcount hle ⊢
      omega
    have huk := float_of_shifted hts hcount' hne hw htext hrest
    obtain ⟨w, b, d, r, -, hw, hbd, hiff, hrest, hall⟩ :=
      exists_shifted ht hk (hts u List.mem_cons_self).1 huk
    rw [hall] at hsymbol hwords
    have hne : b ++ d ≠ [] := by
      intro he
      exact hsymbol _ (.tail _ (.head _)) (by rw [pointed, if_pos ⟨rfl, he⟩])
    have hfloat : ∀ w, (pointed w (b ++ d)).kind = .float := by
      intro w
      rw [pointed, if_neg fun h => hne h.2]
    rw [List.filterMap_cons, List.filterMap_cons, List.filterMap_cons, word_isNumber (by rfl),
      word_isNumber (by rw [hfloat]; rfl), word_isNumber (t := t) (by rw [hk]; rfl)] at hwords
    obtain ⟨hfirst, hwords⟩ := List.cons.inj hwords
    have hzero := (reduced_shifted ht hk hw).mp (Word.number.inj hfirst)
    refine ⟨hiff.mpr ⟨hzero, hne⟩, hcount', ?_, ?_⟩
    · rw [hrest]
      refine List.forall_mem_cons.mpr ⟨by rw [hfloat]; decide, fun v hv => ?_⟩
      exact hsymbol v (.tail _ (.tail _ hv))
    · rw [hrest, List.filterMap_cons, word_isNumber (by rw [hfloat]; rfl),
        numeral_pointed hw hbd hzero]
      exact hwords

theorem isLegible (h : HasWords ts) (hts : ∀ t ∈ ts, t.Valid ∧ isShown t.kind = true) :
    isLegible ts = true := by
  induction ts with
  | nil => rfl
  | cons t ts ih =>
    obtain ⟨ht, hs⟩ := hts t List.mem_cons_self
    have hts : ∀ u ∈ ts, u.Valid ∧ isShown u.kind = true :=
      fun u hu => hts u (List.mem_cons_of_mem t hu)
    rw [Piece.isLegible, Bool.and_eq_true]
    cases touching ht hs ts with
    | skipped hk hread => exact ⟨by simp [grows, hk], ih (h.tail_of_skipped hk hread) hts⟩
    | apart _ hg hread => exact ⟨by rw [hg]; rfl, ih (h.tail_of_apart hread) hts⟩
    | joined _ hk hu hv hrest hread => exact (h.not_joined hts hk hu hv hrest hread).elim
    | shifted _ hk hne hw _ _ htext hrest hread =>
      obtain ⟨hspares, htail⟩ := h.tail_of_shifted ht hts hk hne hw htext hrest hread
      exact ⟨by simp [hk, hspares], ih htail hts⟩

end HasWords

end CurveGuess
