import CurveGuess.Proofs.Facts.Coefficients
import CurveGuess.Proofs.Target.Pieces
import Mathlib.Data.List.Induction

/-!
# The facts about a target

What hints say of a target is true of what was drawn: how many terms there are and of which kinds,
which numbers they are written with, and which offset there is.
-/
namespace CurveGuess

open Arithmetic Piece

namespace Term

def kind : Term → TermKind
  | linear _ => .linear
  | quadratic _ => .quadratic
  | sine _ _ => .sine
  | cosine _ _ => .cosine
  | logarithm _ _ => .logarithmic
  | squareRoot _ => .squareRoot
  | exponential _ => .exponential

/-- The numbers that a term is written with: those drawn for it, and the exponent of a square. -/
def written : Term → List Nat
  | quadratic c => [c.natAbs, 2]
  | t => t.numbers.map Int.natAbs

end Term

namespace Target

def written (t : Target) : List Nat :=
  t.terms.flatMap Term.written ++ if t.offset = 0 then [] else [t.offset.natAbs]

/-- The facts about a target, told from what was drawn. -/
def facts (t : Target) : Facts Float where
  terms := t.terms.length + if t.offset = 0 then 0 else 1
  kinds := TermKind.all.filter fun k => t.terms.any (·.kind = k)
  coefficients :=
    let found := t.written.filter fun n => 1 < n && n < 100
    if found = [] then [ofNat 1] else found.mergeSort.map ofNat
  offset := if t.offset < 0 then -ofNat t.offset.natAbs else ofNat t.offset.natAbs

end Target

namespace Expr

section
variable {e : Expr} {a b : Shape}

theorem exists_number {n : Nat} (h : e.shape = .whole n) : ∃ s, e = number ⟨n, 0⟩ s := by
  cases e with
  | number v s =>
    obtain rfl : v = ⟨n, 0⟩ := by simpa [shape, Shape.whole] using h
    exact ⟨s, rfl⟩
  | _ => simp [shape, Shape.whole] at h

theorem exists_symbol (h : e.shape = .x) : ∃ i, e = symbol i ∧ i.name = "x" := by
  cases e with
  | symbol i => exact ⟨i, rfl, by simpa [shape, Shape.x] using h⟩
  | _ => simp [shape, Shape.x] at h

theorem exists_group {d : Delimiter} (h : e.shape = .group d a) :
    ∃ e' s, e = group d e' s ∧ e'.shape = a := by
  cases e with
  | group d' e s =>
    obtain ⟨rfl, he⟩ : d' = d ∧ e.shape = a := by simpa [shape] using h
    exact ⟨e, s, rfl, he⟩
  | _ => simp [shape] at h

theorem exists_call {f : String} {i : Bool} {d : Delimiter} (h : e.shape = .call f i d [a]) :
    ∃ c i' d' e' s, e = call c i' d' [e'] s ∧ c.name = f ∧ e'.shape = a := by
  cases e with
  | call c i' d' args s =>
    obtain ⟨hf, -, -, hargs⟩ : c.name = f ∧ i' = i ∧ d' = d ∧ shapes args = [a] := by
      simpa [shape] using h
    cases args with
    | nil => simp [shapes] at hargs
    | cons e' es =>
      obtain ⟨he, hes⟩ : e'.shape = a ∧ shapes es = [] := by simpa [shapes] using hargs
      cases es with
      | nil => exact ⟨c, i', d', e', s, rfl, hf, he⟩
      | cons => simp [shapes] at hes
  | _ => simp [shape] at h

theorem exists_binary {o : BinaryKind} {i : Bool} (h : e.shape = .binary o i a b) :
    ∃ op l r s, e = binary op l r s ∧ op.kind = o ∧ l.shape = a ∧ r.shape = b := by
  cases e with
  | binary op l r s =>
    obtain ⟨hop, -, hl, hr⟩ : op.kind = o ∧ op.isImplicit = i ∧ l.shape = a ∧ r.shape = b := by
      simpa [shape] using h
    exact ⟨op, l, r, s, rfl, hop, hl, hr⟩
  | _ => simp [shape] at h

end

end Expr

namespace Shape

/-- Expressions of this shape have one kind and one list of numbers, all of them whole. -/
def Tells (a : Shape) (k : Option TermKind) (ns : List Nat) : Prop :=
  ∀ e : Expr, e.shape = a → e.kind? Float = k ∧ e.numerals = ns.map (⟨·, 0⟩)

variable {a b : Shape} {k k' : Option TermKind} {ms ns : List Nat}

theorem tells_whole (n : Nat) : (whole n).Tells none [n] := by
  intro e he
  obtain ⟨s, rfl⟩ := Expr.exists_number he
  exact ⟨rfl, Expr.numerals_number _ s⟩

theorem tells_x : x.Tells (some .linear) [] := by
  intro e he
  obtain ⟨i, rfl, hi⟩ := Expr.exists_symbol he
  simp [Expr.kind?, hi]

/-- Any operator but that of powers puts its operands together. -/
theorem Tells.binary {o : BinaryKind} (ho : o ≠ .exp) {i : Bool} (ha : a.Tells k ms)
    (hb : b.Tells k' ns) : (Shape.binary o i a b).Tells (k'.or k) (ms ++ ns) := by
  intro e he
  obtain ⟨op, l, r, s, rfl, hop, hl, hr⟩ := Expr.exists_binary he
  obtain ⟨hkl, hnl⟩ := ha l hl
  obtain ⟨hkr, hnr⟩ := hb r hr
  refine ⟨?_, by simp [hnl, hnr]⟩
  cases o <;> simp_all [Expr.kind?]

theorem Tells.call (ha : a.Tells k ns) {f : String} {i : Bool} {d : Delimiter} :
    (Shape.call f i d [a]).Tells (TermKind.ofCall? f) ns := by
  intro e he
  obtain ⟨c, i', d', e, s, rfl, hf, he'⟩ := Expr.exists_call he
  simp [Expr.kind?, hf, (ha e he').2]

theorem tells_square : (power x (.group .brace (whole 2))).Tells (some .quadratic) [2] := by
  intro e he
  obtain ⟨op, l, r, s, rfl, hop, hl, hr⟩ := Expr.exists_binary he
  obtain ⟨i, rfl, hi⟩ := Expr.exists_symbol hl
  obtain ⟨e, s', rfl, he'⟩ := Expr.exists_group hr
  obtain ⟨s'', rfl⟩ := Expr.exists_number he'
  have htwo : same (ofNumeral ⟨2, 0⟩ : Float) (ofNat 2) = true := by decide
  simp [Expr.kind?, hop, Expr.isX, hi, Expr.literal?, htwo]

theorem tells_exponential (n : Nat) :
    (power (whole n) (.group .brace x)).Tells (some .exponential) [n] := by
  intro e he
  obtain ⟨op, l, r, s, rfl, hop, hl, hr⟩ := Expr.exists_binary he
  obtain ⟨s', rfl⟩ := Expr.exists_number hl
  obtain ⟨e, s'', rfl, he'⟩ := Expr.exists_group hr
  obtain ⟨i, rfl, hi⟩ := Expr.exists_symbol he'
  simp [Expr.kind?, hop, Expr.isX, hi, Expr.literal?, Expr.containsX, Expr.nodes_eq,
    Expr.postOrder_eq, Expr.children]

end Shape

namespace Term

theorem tells_angle (f : Option Int) :
    ∃ k, (angleShape f).Tells k (f.toList.map Int.natAbs) := by
  cases f with
  | none => exact ⟨_, Shape.tells_x⟩
  | some f => exact ⟨_, .binary (by decide) (Shape.tells_whole f.natAbs) Shape.tells_x⟩

/-- A term tells its kind and its numbers. -/
theorem tells (t : Term) : (t.shape .formal).Tells (some t.kind) t.written := by
  cases t with
  | linear c => exact .binary (by decide) (Shape.tells_whole _) Shape.tells_x
  | quadratic c => exact .binary (by decide) (Shape.tells_whole _) Shape.tells_square
  | exponential b => exact Shape.tells_exponential b.natAbs
  | sine c f | cosine c f =>
    obtain ⟨k, hf⟩ := tells_angle f
    exact .binary (by decide) (Shape.tells_whole _) hf.call
  | logarithm c s =>
    have hs :=
      Shape.tells_x.binary (o := .add) (i := false) (by decide) (Shape.tells_whole s.natAbs)
    exact .binary (by decide) (Shape.tells_whole _) hs.call
  | squareRoot c =>
    have hc := (Shape.tells_whole c.natAbs).binary (o := .mul) (i := true) (by decide) Shape.tells_x
    exact hc.call

theorem summands_of_binary {e : Expr} {o : BinaryKind} {i : Bool} {a b : Shape}
    (h : e.shape = .binary o i a b) (hadd : o ≠ .add) (hsub : o ≠ .sub) (c : Bool) :
    e.summands c = [⟨c, e⟩] ∧ e.literal? Float = none := by
  obtain ⟨op, l, r, s, rfl, hop, -, -⟩ := Expr.exists_binary h
  cases o <;> simp_all [Expr.summands, Expr.literal?]

theorem summands_of_call {e : Expr} {f : String} {i : Bool} {d : Delimiter} {a : Shape}
    (h : e.shape = .call f i d [a]) (c : Bool) :
    e.summands c = [⟨c, e⟩] ∧ e.literal? Float = none := by
  obtain ⟨_, _, _, _, _, rfl, -, -⟩ := Expr.exists_call h
  simp [Expr.summands, Expr.literal?]

/-- A term is one summand, and no literal. -/
theorem summands_of_shape {t : Term} {e : Expr} (h : e.shape = t.shape .formal) (c : Bool) :
    e.summands c = [⟨c, e⟩] ∧ e.literal? Float = none := by
  cases t with
  | squareRoot => exact summands_of_call h c
  | _ => exact summands_of_binary h (by decide) (by decide) c

end Term

def Addend.written : Addend → List Nat
  | term t => t.written
  | offset n => [n]

namespace Target

/-- A summand without places. -/
def outline (s : Expr.Summand) : Bool × Shape := (s.isSubtracted, s.expr.shape)

/-- The summands of a sum are its first term and its addends, each with the sign before it. -/
theorem outline_summands {first : Term} (ps : List (Joint × Addend)) {e : Expr}
    (h : e.shape = sumShape .formal first ps) :
    (e.summands false).map outline =
      (false, first.shape .formal) :: ps.map fun p => (p.1 = .minus, p.2.shape .formal) := by
  -- the last joint is the root of the tree
  induction ps using List.reverseRecOn generalizing e with
  | nil =>
    rw [(Term.summands_of_shape h false).1]
    simpa [outline, sumShape, tailShape] using h
  | append_singleton ps p ih =>
    obtain ⟨j, a⟩ := p
    rw [sumShape, tailShape, List.foldl_concat] at h
    obtain ⟨op, l, r, s, rfl, hop, hl, hr⟩ := Expr.exists_binary h
    have hsingle (c : Bool) : r.summands c = [⟨c, r⟩] := by
      cases a with
      | term t => exact (Term.summands_of_shape hr c).1
      | offset n =>
        obtain ⟨s', rfl⟩ := Expr.exists_number hr
        rfl
    have ih := ih hl
    cases j <;> simp_all [Expr.summands, Joint.kind, outline]

/-- The numbers of a sum are those of its first term and of its addends. -/
theorem exists_tells (ps : List (Joint × Addend)) {a : Shape} {k : Option TermKind}
    {ns : List Nat} (ha : a.Tells k ns) :
    ∃ k', (tailShape .formal a ps).Tells k'
      (ns ++ ps.flatMap fun p => p.2.written) := by
  induction ps generalizing a k ns with
  | nil => exact ⟨k, by simpa [tailShape] using ha⟩
  | cons p ps ih =>
    obtain ⟨j, b⟩ := p
    obtain ⟨kb, hb⟩ : ∃ k, (b.shape .formal).Tells k b.written := by
      cases b with
      | term t => exact ⟨_, t.tells⟩
      | offset n => exact ⟨_, Shape.tells_whole n⟩
    have hj : j.kind ≠ .exp := by cases j <;> decide
    simpa [tailShape] using ih (ha.binary hj hb)

theorem kinds_of_shapes {ss : List Expr.Summand} {ts : List Term}
    (h : ss.map (·.expr.shape) = ts.map (Term.shape .formal)) :
    ss.filterMap (·.expr.kind? Float) = ts.map Term.kind := by
  induction ts generalizing ss with
  | nil => simp_all
  | cons t ts ih =>
    obtain ⟨s, ss, rfl, hs, hss⟩ := List.map_eq_cons_iff.mp h
    simp [(t.tells s.expr hs).1, ih hss]

/-- There is no offset after a term. -/
theorem offset?_of_shapes {ss : List Expr.Summand} {ts : List Term}
    (h : ss.map (·.expr.shape) = ts.map (Term.shape .formal)) :
    (Facts.offset? ss : Option Float) = none := by
  have hlit : ∀ s ∈ ss, s.expr.literal? Float = none := by
    intro s hs
    have hmem : s.expr.shape ∈ ts.map (Term.shape .formal) := h ▸ List.mem_map_of_mem hs
    obtain ⟨t, -, ht⟩ := List.mem_map.mp hmem
    exact (Term.summands_of_shape ht.symm false).2
  rw [Facts.offset?]
  split
  · rfl
  · cases hlast : ss.getLast? with
    | none => rfl
    | some s => simp [hlit s (List.mem_of_getLast? hlast)]

theorem offset?_concat {ss : List Expr.Summand} {s : Expr.Summand} {n : Nat} (hne : ss ≠ [])
    (hs : s.expr.shape = .whole n) :
    (Facts.offset? (ss ++ [s]) : Option Float) =
      some (if s.isSubtracted then -ofNat n else ofNat n) := by
  obtain ⟨s', hs'⟩ := Expr.exists_number hs
  have hlength : ¬(ss ++ [s]).length < 2 := by
    have := List.length_pos_iff.mpr hne
    simp
    omega
  rw [Facts.offset?, if_neg hlength]
  simp [hs', Expr.literal?, ofNat]

end Target

namespace Facts

/-- Whole numbers are coefficients if they lie between 1 and 100, however large they are. -/
theorem isCoefficient_ofNat (n : Nat) :
    isCoefficient (ofNat n : Float) = (decide (1 < n) && decide (n < 100)) := by
  rcases Nat.eq_zero_or_pos n with rfl | hpos
  · decide
  by_cases hn : n < 2 ^ 53
  · rw [isCoefficient, lt_ofNat (by decide) hpos (by decide) hn,
      lt_ofNat hpos (by decide) hn (by decide)]
  · have hlarge : ¬n < 100 := by omega
    rw [isCoefficient, lt_ofNat_large (a := n) (b := 100) (by omega) (by decide) (by decide)]
    simp [hlarge]

theorem coefficientsOf_eq {e : Expr} {ns : List Nat} (h : e.numerals = ns.map (⟨·, 0⟩)) :
    (coefficientsOf e : List Float) =
      let found := ns.filter fun n => 1 < n && n < 100
      if found = [] then [ofNat 1] else found.mergeSort.map ofNat := by
  have hfound : (e.numerals.map ofNumeral).filter (isCoefficient (R := Float)) =
      (ns.filter fun n => 1 < n && n < 100).map ofNat := by
    rw [h, List.map_map, List.filter_map]
    congr 1
    exact List.filter_congr fun n _ => isCoefficient_ofNat n
  have hle : ∀ a ∈ ns.filter fun n => 1 < n && n < 100,
      ∀ b ∈ ns.filter fun n => 1 < n && n < 100,
        decide (a ≤ b) = le (ofNat a : Float) (ofNat b) := by
    intro a ha b hb
    simp only [List.mem_filter, Bool.and_eq_true, decide_eq_true_eq] at ha hb
    rw [le_ofNat (by omega) (by omega) (by omega) (by omega)]
  rw [coefficientsOf, hfound]
  simp only [List.isEmpty_map, List.isEmpty_iff, ← List.map_mergeSort hle]

end Facts

namespace Target

/-- The facts about a sum without an offset. -/
theorem ofExpr_terms {e : Expr} {ts : List Term}
    (hss : (e.summands false).map (·.expr.shape) = ts.map (Term.shape .formal)) :
    (Facts.ofExpr e : Facts Float) =
      { terms := ts.length
        kinds := TermKind.all.filter ((ts.map Term.kind).contains ·)
        coefficients := Facts.coefficientsOf e
        offset := ofNat 0 } := by
  have hlength : (e.summands false).length = ts.length := by
    simpa using congrArg List.length hss
  simp [Facts.ofExpr, offset?_of_shapes hss, kinds_of_shapes hss, hlength]

/-- The facts about a sum that ends with an offset. -/
theorem ofExpr_offset {e : Expr} {ts : List Term} {ss : List Expr.Summand} {s : Expr.Summand}
    {n : Nat} (he : e.summands false = ss ++ [s]) (hne : ts ≠ [])
    (hss : ss.map (·.expr.shape) = ts.map (Term.shape .formal)) (hs : s.expr.shape = .whole n) :
    (Facts.ofExpr e : Facts Float) =
      { terms := ts.length + 1
        kinds := TermKind.all.filter ((ts.map Term.kind).contains ·)
        coefficients := Facts.coefficientsOf e
        offset := if s.isSubtracted then -ofNat n else ofNat n } := by
  have hlength : ss.length = ts.length := by simpa using congrArg List.length hss
  have hne' : ss ≠ [] := by
    rintro rfl
    exact hne (List.map_eq_nil_iff.mp hss.symm)
  simp [Facts.ofExpr, he, offset?_concat hne' hs, kinds_of_shapes hss, hlength]

theorem kinds_eq (t : Target) :
    t.facts.kinds = TermKind.all.filter ((t.terms.map Term.kind).contains ·) := by
  refine List.filter_congr fun k _ => ?_
  rw [Bool.eq_iff_iff]
  simp

/-- With each joint goes the term after it. -/
theorem map_snd_zip {t : Target} (ht : t.IsProper) :
    (t.joints.zip t.terms.tail).map Prod.snd = t.terms.tail := by
  apply List.map_snd_zip
  have := ht.length_joints
  rw [List.length_tail]
  omega

theorem written_eq {t : Target} (ht : t.IsProper) {first : Term} {rest : List Term}
    (hterms : t.terms = first :: rest) :
    first.written ++ t.tail.flatMap (fun p => p.2.written) = t.written := by
  have hzip := map_snd_zip ht
  rw [hterms, List.tail_cons] at hzip
  have hrest : rest.flatMap Term.written =
      (t.joints.zip rest).flatMap fun p => p.2.written := by
    rw [← hzip, List.flatMap_map, hzip]
  have hoffset : (offsetTail t.offset).flatMap (fun p => p.2.written) =
      if t.offset = 0 then [] else [t.offset.natAbs] := by
    rw [offsetTail]
    split <;> simp [Addend.written]
  rw [written, tail, hterms, List.flatMap_append, hoffset]
  simp [hrest, List.flatMap_map, Addend.written]

/-- The summands of a target are its terms and its offset. -/
theorem exists_summands {t : Target} (ht : t.IsProper) {first : Term} {rest : List Term}
    (hterms : t.terms = first :: rest) {e : Expr} (h : e.shape = sumShape .formal first t.tail) :
    ∃ ss os, e.summands false = ss ++ os ∧
      ss.map (·.expr.shape) = t.terms.map (Term.shape .formal) ∧
      os.map outline =
        (offsetTail t.offset).map fun p => (decide (p.1 = .minus), p.2.shape .formal) := by
  have houtline := outline_summands t.tail h
  rw [tail, List.map_append, ← List.cons_append, List.map_eq_append_iff] at houtline
  obtain ⟨ss, os, hsummands, hss, hos⟩ := houtline
  refine ⟨ss, os, hsummands, ?_, hos⟩
  have hzip := congrArg (List.map (Term.shape .formal)) (map_snd_zip ht)
  have hshapes := congrArg (List.map Prod.snd) hss
  simp only [List.map_map, List.map_cons, hterms, List.tail_cons] at hzip hshapes ⊢
  rw [← hzip]
  exact hshapes

/-- Hints tell the truth about every target that can be drawn. -/
theorem facts_ofText {t : Target} (ht : t.IsProper) : Facts.ofText t.text = t.facts := by
  obtain ⟨first, rest, hterms⟩ := List.exists_cons_of_ne_nil ht.terms_ne_nil
  obtain ⟨e, hparse, hshape⟩ := exists_parse (toList_text ht hterms)
  obtain ⟨k, htells⟩ := exists_tells t.tail first.tells
  have hnumbers := (htells e hshape).2
  rw [written_eq ht hterms] at hnumbers
  obtain ⟨ss, os, hsummands, hss, hos⟩ := exists_summands ht hterms hshape
  rw [Facts.ofText, hparse]
  dsimp only
  by_cases hzero : t.offset = 0
  · obtain rfl : os = [] := by simpa [offsetTail, hzero] using hos
    rw [List.append_nil] at hsummands
    rw [ofExpr_terms (hsummands ▸ hss), Facts.coefficientsOf_eq hnumbers, ← kinds_eq]
    simp [facts, hzero]
  · rw [offsetTail, if_neg hzero] at hos
    obtain ⟨s, rfl, hs⟩ := List.map_eq_singleton_iff.mp hos
    obtain ⟨hsubtracted, hs⟩ := Prod.mk.inj hs
    have hsign : s.isSubtracted = decide (t.offset < 0) := by
      have hle : t.offset ≤ 0 ↔ t.offset < 0 := by omega
      simp [hsubtracted, hle]
    rw [ofExpr_offset hsummands ht.terms_ne_nil hss hs, Facts.coefficientsOf_eq hnumbers,
      ← kinds_eq]
    simp [facts, hzero, hsign]

theorem facts_ofText_wave :
    IsProper ⟨[.quadratic 3, .sine 12 (some 2), .linear 100], [.minus, .plus], -7⟩ ∧
    Facts.ofText "3x^\x7b2\x7d-12\\sin(2x)+100x-7" =
      { terms := 4
        kinds := [.quadratic, .linear, .sine]
        coefficients := [2, 2, 3, 7, 12].map ofNat
        offset := -ofNat 7 : Facts Float } := by
  have hproper : IsProper ⟨[.quadratic 3, .sine 12 (some 2), .linear 100], [.minus, .plus], -7⟩ :=
    ⟨by simp, rfl, by simp [Term.numbers]⟩
  have htext : text ⟨[.quadratic 3, .sine 12 (some 2), .linear 100], [.minus, .plus], -7⟩ =
      "3x^\x7b2\x7d-12\\sin(2x)+100x-7" := by decide +kernel
  have hfacts := facts_ofText hproper
  rw [htext] at hfacts
  have hsorted : [3, 2, 12, 2, 7].mergeSort = [2, 2, 3, 7, 12] := by
    simp [List.mergeSort]
  refine ⟨hproper, hfacts.trans ?_⟩
  rw [facts, ← hsorted]
  rfl

end Target

end CurveGuess
