import CurveGuess.Facts
import CurveGuess.Proofs.Decimal.Exact
import CurveGuess.Proofs.Traversal
import Mathlib

/-!
# Coefficients

The coefficients of a formula are the numbers between 1 and 100 that are written anywhere in it, as
often as they are written, in ascending order. So they stay what they are when groups and signs come
or go and when the operands of an operator change sides.
-/
namespace CurveGuess

open Arithmetic

namespace Expr

/-- The numerals of a node are those of its operands and its own. -/
theorem numerals_eq (e : Expr) :
    e.numerals = e.children.flatMap numerals ++ e.numeral?.toList := by
  have hnodes : numerals = fun e => e.postOrder.filterMap numeral? := by
    funext e
    rw [numerals, nodes_eq]
  rw [hnodes]
  dsimp only
  rw [postOrder_eq, List.filterMap_append, List.filterMap_flatMap]
  cases e <;> rfl

@[simp] theorem numerals_number (v : Numeral) (s : Span) : (number v s).numerals = [v] := by
  rw [numerals_eq]
  rfl

@[simp] theorem numerals_symbol (i : Ident) : (symbol i).numerals = [] := by
  rw [numerals_eq]
  rfl

@[simp] theorem numerals_group (d : Delimiter) (e : Expr) (s : Span) :
    (group d e s).numerals = e.numerals := by
  rw [numerals_eq]
  simp [children, numeral?]

@[simp] theorem numerals_call (i : Ident) (b : Bool) (d : Delimiter) (args : List Expr) (s : Span) :
    (call i b d args s).numerals = args.flatMap numerals := by
  rw [numerals_eq]
  simp [children, numeral?]

@[simp] theorem numerals_unary (op : UnaryOp) (e : Expr) (s : Span) :
    (unary op e s).numerals = e.numerals := by
  rw [numerals_eq]
  simp [children, numeral?]

@[simp] theorem numerals_binary (op : BinaryOp) (l r : Expr) (s : Span) :
    (binary op l r s).numerals = l.numerals ++ r.numerals := by
  rw [numerals_eq]
  simp [children, numeral?]

/-- At the place stands a number, and `x` is the double for it. -/
def IsNumberAt (e : Expr) (path : List Nat) (x : Float) : Prop :=
  ∃ v s, e.at? path = some (number v s) ∧ x = ofNumeral v

/-- The formulas differ by groups and signs around their parts, by the sides on which operands
stand, and by where all of it stands in the text. -/
inductive Rearranged : Expr → Expr → Prop
  | refl (e) : Rearranged e e
  | symm {e e'} : Rearranged e e' → Rearranged e' e
  | trans {e e' e''} : Rearranged e e' → Rearranged e' e'' → Rearranged e e''
  | number (v s s') : Rearranged (number v s) (number v s')
  | symbol {i i'} : i.name = i'.name → Rearranged (symbol i) (symbol i')
  | group (d e s) : Rearranged e (group d e s)
  | sign (op e s) : Rearranged e (unary op e s)
  | swap (op op' l r s s') : op.kind = op'.kind →
      Rearranged (binary op l r s) (binary op' r l s')
  | binary {l l' r r'} (op op' s s') : op.kind = op'.kind → Rearranged l l' → Rearranged r r' →
      Rearranged (binary op l r s) (binary op' l' r' s')
  | call {i i' e e'} (b d before after s s') : i.name = i'.name → Rearranged e e' →
      Rearranged (call i b d (before ++ e :: after) s) (call i' b d (before ++ e' :: after) s')

theorem Rearranged.perm_numerals {e e' : Expr} (h : e.Rearranged e') :
    e.numerals.Perm e'.numerals := by
  induction h with
  | refl => exact .refl _
  | symm _ ih => exact ih.symm
  | trans _ _ ih ih' => exact ih.trans ih'
  | number | symbol | group | sign => simp
  | swap op op' l r =>
    rw [numerals_binary, numerals_binary]
    exact List.perm_append_comm
  | binary _ _ _ _ _ _ _ ihl ihr =>
    rw [numerals_binary, numerals_binary]
    exact ihl.append ihr
  | call _ _ before after _ _ _ _ ih =>
    simp only [numerals_call, List.flatMap_append, List.flatMap_cons]
    exact (ih.append_right _).append_left _

end Expr

/-- The number at a place, if one is there. -/
def Spot.number? (s : Spot) : Option (List Nat × Float) :=
  match s.node with
  | .number v _ => some (s.path, ofNumeral v)
  | _ => none

theorem Spot.number?_eq_some {s : Spot} {p : List Nat} {x : Float} :
    s.number? = some (p, x) ↔ s.path = p ∧ ∃ v t, s.node = .number v t ∧ x = ofNumeral v := by
  obtain ⟨path, node⟩ := s
  cases node with
  | number v t =>
    simp only [number?, Option.some.injEq, Prod.mk.injEq, Expr.number.injEq]
    grind
  | _ => simp [number?]

namespace Expr

/-- The numbers in a formula, each with its place. -/
def numbers (e : Expr) : List (List Nat × Float) :=
  (Spot.postOrder ⟨[], e⟩).filterMap Spot.number?

theorem mem_numbers {e : Expr} {p : List Nat} {x : Float} :
    (p, x) ∈ e.numbers ↔ e.IsNumberAt p x := by
  simp only [numbers, List.mem_filterMap, Spot.mem_postOrder, Spot.number?_eq_some,
    List.append_nil]
  constructor
  · rintro ⟨s, ⟨below, hpath, hat⟩, rfl, v, t, hnode, hx⟩
    exact ⟨v, t, by rw [hpath, hat, hnode], hx⟩
  · rintro ⟨v, t, hat, hx⟩
    exact ⟨⟨p, .number v t⟩, ⟨p, rfl, hat⟩, rfl, v, t, rfl, hx⟩

theorem nodup_numbers (e : Expr) : (e.numbers.map Prod.fst).Nodup := by
  have hplaces := (Spot.postOrder ⟨[], e⟩).pairwise_map.mp (Spot.nodup_postOrder ⟨[], e⟩)
  rw [List.Nodup, List.pairwise_map, numbers, List.pairwise_filterMap]
  refine hplaces.imp fun {s t} hne a ha b hb => ?_
  rw [← (Spot.number?_eq_some.mp ha).1, ← (Spot.number?_eq_some.mp hb).1]
  exact hne

theorem map_snd_numbers (e : Expr) : e.numbers.map Prod.snd = e.numerals.map ofNumeral := by
  rw [numbers, numerals, nodes_eq, ← Spot.map_node_postOrder ⟨[], e⟩, List.filterMap_map,
    List.map_filterMap, List.map_filterMap]
  refine List.filterMap_congr fun s _ => ?_
  obtain ⟨path, node⟩ := s
  cases node with
  | _ => rfl

end Expr

namespace Facts

/-- What lies between 1 and 100 is positive and finite. -/
theorem isPositive_of_isCoefficient {x : Float} (h : isCoefficient x = true) :
    Double.IsPositive x := by
  obtain ⟨hone, hhundred⟩ := Bool.and_eq_true_iff.mp h
  obtain ⟨_, _, _, hlow⟩ := Double.isPositive_ofNat (n := 1) (by decide) (by decide)
  obtain ⟨_, _, _, hhigh⟩ := Double.isPositive_ofNat (n := 100) (by decide) (by decide)
  rw [lt_eq, hlow] at hone
  rw [lt_eq, hhigh] at hhundred
  cases hx : x.toModel.unpack with
  | notANumber | zero =>
    rw [hx] at hone
    cases hone
  | infinity s =>
    rw [hx] at hone hhundred
    cases s with
    | positive => cases hhundred
    | negative => cases hone
  | finite s m e hm =>
    rw [hx] at hone
    cases s with
    | positive => exact ⟨m, e, hm, hx⟩
    | negative => cases hone

variable {xs ys : List Float}

theorem pairwise_mergeSort (h : ∀ x ∈ xs, Double.IsPositive x) :
    (xs.mergeSort le).Pairwise fun x y => Double.toRat 0 x ≤ Double.toRat 0 y := by
  have hmap : (xs.mergeSort le).map (Double.toRat 0) =
      (xs.map (Double.toRat 0)).mergeSort fun q r => decide (q ≤ r) :=
    List.map_mergeSort fun x hx y hy => (h x hx).le_eq (h y hy)
  have hsorted := (xs.map (Double.toRat 0)).pairwise_mergeSort' (· ≤ ·)
  rw [← List.pairwise_map (R := (· ≤ ·)), hmap]
  exact hsorted

/-- The order in which they are written does not matter. -/
theorem mergeSort_eq_of_perm (h : ∀ x ∈ xs, Double.IsPositive x) (hperm : xs.Perm ys) :
    xs.mergeSort le = ys.mergeSort le := by
  have hys : ∀ y ∈ ys, Double.IsPositive y := fun y hy => h y (hperm.mem_iff.mpr hy)
  refine List.Perm.eq_of_pairwise (fun x y hx hy hxy hyx => ?_) (pairwise_mergeSort h)
    (pairwise_mergeSort hys) ?_
  · exact (h x (List.mem_mergeSort.mp hx)).toRat_inj (hys y (List.mem_mergeSort.mp hy))
      (le_antisymm hxy hyx)
  · exact (List.mergeSort_perm xs le).trans (hperm.trans (List.mergeSort_perm ys le).symm)

theorem coefficientsOf_perm (e : Expr) :
    (coefficientsOf e : List Float).Perm
      (if (e.numbers.filter (isCoefficient ·.2)).isEmpty then [ofNat 1]
        else (e.numbers.filter (isCoefficient ·.2)).map Prod.snd) := by
  have hfound : (e.numbers.filter (isCoefficient ·.2)).map Prod.snd =
      (e.numerals.map ofNumeral).filter isCoefficient := by
    rw [← e.map_snd_numbers, List.filter_map]
    rfl
  rw [coefficientsOf, ← hfound, List.isEmpty_map]
  split
  · exact .refl _
  · exact List.mergeSort_perm _ _

theorem coefficientsOf_ne_nil (e : Expr) : (coefficientsOf e : List Float) ≠ [] := by
  intro hnil
  have hlength := (coefficientsOf_perm e).length_eq
  rw [hnil] at hlength
  split at hlength
  · cases hlength
  · next hfound => exact hfound (by simpa using hlength.symm)

theorem isPositive_of_mem_coefficientsOf {e : Expr} {x : Float} (h : x ∈ coefficientsOf e) :
    Double.IsPositive x := by
  have hmem := (coefficientsOf_perm e).mem_iff.mp h
  split at hmem
  · obtain rfl := List.mem_singleton.mp hmem
    exact Double.isPositive_ofNat (by decide) (by decide)
  · obtain ⟨y, hy, rfl⟩ := List.mem_map.mp hmem
    exact isPositive_of_isCoefficient (List.mem_filter.mp hy).2

theorem pairwise_coefficientsOf (e : Expr) :
    (coefficientsOf e : List Float).Pairwise fun x y => Double.toRat 0 x ≤ Double.toRat 0 y := by
  rw [coefficientsOf]
  split
  · exact List.pairwise_singleton _ _
  · exact pairwise_mergeSort fun x hx => isPositive_of_isCoefficient (List.mem_filter.mp hx).2

theorem coefficientsOf_eq_of_rearranged {e e' : Expr} (h : e.Rearranged e') :
    (coefficientsOf e : List Float) = coefficientsOf e' := by
  have hperm := (h.perm_numerals.map (ofNumeral (R := Float))).filter isCoefficient
  rw [coefficientsOf, coefficientsOf, hperm.isEmpty_eq]
  split
  · rfl
  · exact mergeSort_eq_of_perm
      (fun x hx => isPositive_of_isCoefficient (List.mem_filter.mp hx).2) hperm

/-- The ends of the range are the first and the last coefficient. -/
theorem range_ofExpr (e : Expr) :
    (ofExpr e : Facts Float).range = ((coefficientsOf e).head (coefficientsOf_ne_nil e),
      (coefficientsOf e).getLast (coefficientsOf_ne_nil e)) := by
  rw [range, ofExpr, List.head?_eq_some_head (coefficientsOf_ne_nil e),
    List.getLast?_eq_some_getLast (coefficientsOf_ne_nil e)]
  rfl

theorem range_le {e : Expr} {x : Float} (h : x ∈ (coefficientsOf e : List Float)) :
    (ofExpr e : Facts Float).range.1 ≤ x ∧ x ≤ (ofExpr e : Facts Float).range.2 := by
  have hrefl : Std.Refl fun x y => Double.toRat 0 x ≤ Double.toRat 0 y := ⟨fun _ => le_rfl⟩
  have hpairwise := pairwise_coefficientsOf e
  rw [range_ofExpr]
  exact ⟨(isPositive_of_mem_coefficientsOf (List.head_mem _)).le_iff
      (isPositive_of_mem_coefficientsOf h) |>.mpr (hpairwise.rel_head h),
    (isPositive_of_mem_coefficientsOf h).le_iff
      (isPositive_of_mem_coefficientsOf (List.getLast_mem _)) |>.mpr (hpairwise.rel_getLast h)⟩

/-- The coefficients are the numbers that are written. In ascending order they are the numbers
between 1 and 100 that stand anywhere in the formula, once for each place where they stand, or 1 if
there is none. The range goes from the smallest to the largest, and neither changes when the formula
is rearranged. -/
theorem coefficients_written (e : Expr) :
    (ofExpr e : Facts Float).coefficients ≠ [] ∧
    (ofExpr e : Facts Float).coefficients.Pairwise (· ≤ ·) ∧
    (∃ found : List (List Nat × Float), (found.map Prod.fst).Nodup ∧
      (∀ p x, (p, x) ∈ found ↔ e.IsNumberAt p x ∧ ofNat 1 < x ∧ x < ofNat 100) ∧
      (ofExpr e : Facts Float).coefficients.Perm
        (if found.isEmpty then [ofNat 1] else found.map Prod.snd)) ∧
    (ofExpr e : Facts Float).range.1 ∈ (ofExpr e : Facts Float).coefficients ∧
    (ofExpr e : Facts Float).range.2 ∈ (ofExpr e : Facts Float).coefficients ∧
    (∀ x ∈ (ofExpr e : Facts Float).coefficients,
      (ofExpr e : Facts Float).range.1 ≤ x ∧ x ≤ (ofExpr e : Facts Float).range.2) ∧
    ∀ e' : Expr, e.Rearranged e' →
      (ofExpr e' : Facts Float).coefficients = (ofExpr e : Facts Float).coefficients ∧
      (ofExpr e' : Facts Float).range = (ofExpr e : Facts Float).range := by
  have hfields : (ofExpr e : Facts Float).coefficients = coefficientsOf e := rfl
  rw [hfields]
  refine ⟨coefficientsOf_ne_nil e, ?_, ?_, ?_, ?_, fun x hx => range_le hx, fun e' h => ?_⟩
  · refine (pairwise_coefficientsOf e).imp_of_mem fun hx hy h => ?_
    exact ((isPositive_of_mem_coefficientsOf hx).le_iff
      (isPositive_of_mem_coefficientsOf hy)).mpr h
  · refine ⟨e.numbers.filter (isCoefficient ·.2), ?_, fun p x => ?_, coefficientsOf_perm e⟩
    · exact (List.filter_sublist.map Prod.fst).nodup e.nodup_numbers
    · rw [List.mem_filter, Expr.mem_numbers, isCoefficient, Bool.and_eq_true_iff]
      exact and_congr_right fun _ => and_congr decide_eq_true_iff decide_eq_true_iff
  · rw [range_ofExpr]
    exact List.head_mem _
  · rw [range_ofExpr]
    exact List.getLast_mem _
  · have heq := coefficientsOf_eq_of_rearranged h.symm
    refine ⟨heq, ?_⟩
    rw [range, range, ofExpr, ofExpr, heq]

/-- In `7-2` the operands change sides, and one of them gets a group. -/
theorem coefficients_written_swapped :
    ∃ e e' : Expr,
      e = .binary ⟨.sub, false, ⟨1, 2⟩⟩ (.number ⟨7, 0⟩ ⟨0, 1⟩) (.number ⟨2, 0⟩ ⟨2, 3⟩) ⟨0, 3⟩ ∧
      e' = .binary ⟨.sub, false, ⟨3, 4⟩⟩ (.group .paren (.number ⟨2, 0⟩ ⟨1, 2⟩) ⟨0, 3⟩)
        (.number ⟨7, 0⟩ ⟨4, 5⟩) ⟨0, 5⟩ ∧
      e.Rearranged e' ∧
      (ofExpr e : Facts Float).coefficients.Perm [ofNat 7, ofNat 2] ∧
      (ofExpr e' : Facts Float).coefficients = (ofExpr e : Facts Float).coefficients ∧
      (ofExpr e' : Facts Float).range = (ofExpr e : Facts Float).range := by
  refine ⟨_, _, rfl, rfl, ?rearranged, ?numbers,
    (coefficients_written _).2.2.2.2.2.2 _ ?rearranged⟩
  case rearranged =>
    exact .trans (.swap _ ⟨.sub, false, ⟨3, 4⟩⟩ _ _ _ ⟨0, 5⟩ rfl)
      (.binary _ _ _ _ rfl (.trans (.number _ _ ⟨1, 2⟩) (.group _ _ _)) (.number _ _ _))
  case numbers =>
    have hfound : (([⟨7, 0⟩, ⟨2, 0⟩] : List Numeral).map ofNumeral).filter isCoefficient =
        ([ofNat 7, ofNat 2] : List Float) := by
      change [ofNat 7, ofNat 2].filter isCoefficient = _
      simp [isCoefficient, lt_ofNat]
    change (coefficientsOf _).Perm _
    rw [coefficientsOf, Expr.numerals_binary, Expr.numerals_number, Expr.numerals_number,
      List.cons_append, List.nil_append, hfound]
    exact List.mergeSort_perm _ _

end Facts

end CurveGuess
