import CurveGuess.Facts
import CurveGuess.Proofs.Decimal.Exact
import CurveGuess.Proofs.Eval.Blame
import CurveGuess.Proofs.Traversal
import Mathlib

/-!
# Summands

The summands of a formula are its largest parts that are no sums, from left to right. Each counts
as it would if the sums were multiplied out: whatever values the parts have, the summands make up
the value of the formula. A constant at the end of two or more summands is the offset, with the sign
that its place and the minus signs in front of it give it.
-/
namespace CurveGuess

namespace Expr

/-- Is a formula a sum or a difference? -/
def IsSum : Expr → Prop
  | binary op _ _ _ => op.kind = .add ∨ op.kind = .sub
  | _ => False

/-- What holds of all that is no sum, and of sums whose operands it holds of, holds of every
formula. -/
theorem sumInduction {P : Expr → Prop} (term : ∀ e, ¬e.IsSum → P e)
    (sum : ∀ op l r s, (binary op l r s).IsSum → P l → P r → P (binary op l r s)) (e : Expr) :
    P e := by
  by_cases h : e.IsSum
  · cases e with
    | binary op l r s => exact sum op l r s h (sumInduction term sum l) (sumInduction term sum r)
    | _ => exact h.elim
  · exact term e h
  termination_by sizeOf e

/-- The node at the place is no sum, but all nodes around it are. -/
structure IsTermAt (e : Expr) (s : Spot) : Prop where
  at_eq : e.at? s.path = some s.node
  not_isSum : ¬s.node.IsSum
  isSum_around : ∀ around, around <:+ s.path → around ≠ s.path →
    ∃ d, e.at? around = some d ∧ d.IsSum

theorem isTermAt_of_not_isSum {e : Expr} (h : ¬e.IsSum) {s : Spot} :
    e.IsTermAt s ↔ s = ⟨[], e⟩ := by
  obtain ⟨path, node⟩ := s
  constructor
  · intro hs
    by_cases hpath : path = []
    · subst hpath
      obtain rfl : e = node := Option.some.inj hs.at_eq
      rfl
    · obtain ⟨d, hd, hsum⟩ := hs.isSum_around [] (List.nil_suffix) (Ne.symm hpath)
      obtain rfl : e = d := Option.some.inj hd
      exact absurd hsum h
  · rintro ⟨⟩
    exact ⟨rfl, h, fun around hsuffix hne => absurd (List.suffix_nil.mp hsuffix) hne⟩

/-- The terms of a sum are those of its operands. -/
theorem isTermAt_of_isSum {e : Expr} (h : e.IsSum) {p : List Nat} {d : Expr} :
    e.IsTermAt ⟨p, d⟩ ↔ ∃ i c below, e.children[i]? = some c ∧ p = below ++ [i] ∧
      c.IsTermAt ⟨below, d⟩ := by
  have hat {i : Nat} {c : Expr} (hc : e.children[i]? = some c) (below : List Nat) :
      e.at? (below ++ [i]) = c.at? below := by
    rw [at?_append, at?, at?, Option.bind_some, hc, Option.bind_some]
  constructor
  · rintro ⟨hpath, hnot, haround⟩
    rcases List.eq_nil_or_concat p with rfl | ⟨below, i, rfl⟩
    · obtain rfl : e = d := Option.some.inj hpath
      exact absurd h hnot
    · rw [List.concat_eq_append] at hpath haround ⊢
      have hsplit := hpath
      rw [at?_append, at?, at?, Option.bind_some] at hsplit
      obtain ⟨c, hc, hd⟩ := Option.bind_eq_some_iff.mp hsplit
      refine ⟨i, c, below, hc, rfl, hd, hnot, fun around hsuffix hne => ?_⟩
      obtain ⟨d', hd', hsum⟩ := haround (around ++ [i])
        (List.suffix_append_inj_of_length_eq rfl |>.mpr ⟨hsuffix, rfl⟩)
        fun heq => hne (List.append_cancel_right heq)
      exact ⟨d', (hat hc around).symm.trans hd', hsum⟩
  · rintro ⟨i, c, below, hc, rfl, hbelow, hnot, haround⟩
    refine ⟨(hat hc below).trans hbelow, hnot, fun around hsuffix hne => ?_⟩
    rcases List.suffix_concat_iff.mp hsuffix with rfl | ⟨around', rfl, hsuffix'⟩
    · exact ⟨e, rfl, h⟩
    · obtain ⟨d', hd', hsum⟩ := haround around' hsuffix' fun heq => hne (by rw [heq])
      exact ⟨d', (hat hc around').trans hd', hsum⟩

end Expr

/-- A summand at its place. -/
structure PlacedSummand where
  isSubtracted : Bool
  spot : Spot

/-- What the facts know of it. -/
def PlacedSummand.summand (t : PlacedSummand) : Expr.Summand := ⟨t.isSubtracted, t.spot.node⟩

/-- The ways to two places part at a node where the one to `p` goes down to an earlier operand. -/
def IsLeftOf (p q : List Nat) : Prop :=
  ∃ left i right j shared, p = left ++ i :: shared ∧ q = right ++ j :: shared ∧ i < j

namespace Expr

/-- The summands of a formula that stands at a place. -/
def summandsAt (path : List Nat) (isSubtracted : Bool) : Expr → List PlacedSummand
  | binary op l r s =>
    match op.kind with
    | .add => l.summandsAt (0 :: path) isSubtracted ++ r.summandsAt (1 :: path) isSubtracted
    | .sub => l.summandsAt (0 :: path) isSubtracted ++ r.summandsAt (1 :: path) (!isSubtracted)
    | _ => [⟨isSubtracted, path, binary op l r s⟩]
  | e => [⟨isSubtracted, path, e⟩]

section
variable {e l r : Expr} {op : BinaryOp} {s : Span}

theorem summandsAt_of_not_isSum (h : ¬e.IsSum) (path : List Nat) (b : Bool) :
    e.summandsAt path b = [⟨b, path, e⟩] := by
  cases e with
  | binary op l r s =>
    obtain ⟨hadd, hsub⟩ := not_or.mp h
    rw [summandsAt]
    cases hop : op.kind with
    | add => exact absurd hop hadd
    | sub => exact absurd hop hsub
    | mul | div | exp => rfl
  | _ => rfl

/-- A difference turns the signs on its right over. -/
theorem summandsAt_of_isSum (h : (binary op l r s).IsSum) (path : List Nat) (b : Bool) :
    (binary op l r s).summandsAt path b =
      l.summandsAt (0 :: path) b ++ r.summandsAt (1 :: path) (b ^^ decide (op.kind = .sub)) := by
  rw [summandsAt]
  rcases h with hop | hop <;> simp [hop]

end

/-- The facts see the same summands. -/
theorem map_summand_summandsAt (e : Expr) (path : List Nat) (b : Bool) :
    (e.summandsAt path b).map PlacedSummand.summand = e.summands b := by
  induction e using sumInduction generalizing path b with
  | term e h =>
    rw [summandsAt_of_not_isSum h]
    cases e with
    | binary op l r s =>
      obtain ⟨hadd, hsub⟩ := not_or.mp h
      rw [summands]
      cases hop : op.kind with
      | add => exact absurd hop hadd
      | sub => exact absurd hop hsub
      | mul | div | exp => rfl
    | _ => rfl
  | sum op l r s h ihl ihr =>
    rw [summandsAt_of_isSum h, List.map_append, ihl, ihr, summands]
    rcases h with hop | hop <;> simp [hop]

/-- The summands are the terms, and each has its place. -/
theorem mem_map_spot_summandsAt (e : Expr) (path : List Nat) (b : Bool) {x : Spot} :
    x ∈ (e.summandsAt path b).map PlacedSummand.spot ↔
      ∃ below, x.path = below ++ path ∧ e.IsTermAt ⟨below, x.node⟩ := by
  induction e using sumInduction generalizing path b with
  | term e h =>
    simp only [summandsAt_of_not_isSum h, isTermAt_of_not_isSum h, List.map_singleton,
      List.mem_singleton, Spot.mk.injEq]
    constructor
    · rintro rfl
      exact ⟨[], rfl, rfl, rfl⟩
    · rintro ⟨below, hpath, rfl, hnode⟩
      obtain ⟨p, d⟩ := x
      cases hpath
      cases hnode
      rfl
  | sum op l r s h ihl ihr =>
    rw [summandsAt_of_isSum h, List.map_append, List.mem_append, ihl, ihr]
    simp only [isTermAt_of_isSum h, children]
    constructor
    · rintro (⟨below, hpath, hterm⟩ | ⟨below, hpath, hterm⟩)
      · exact ⟨below ++ [0], by simpa using hpath, 0, l, below, rfl, rfl, hterm⟩
      · exact ⟨below ++ [1], by simpa using hpath, 1, r, below, rfl, rfl, hterm⟩
    · rintro ⟨_, hpath, i, c, below, hc, rfl, hterm⟩
      have hpath : x.path = below ++ i :: path := by simpa using hpath
      rcases i with _ | _ | i
      · obtain rfl := Option.some.inj hc
        exact .inl ⟨below, hpath, hterm⟩
      · obtain rfl := Option.some.inj hc
        exact .inr ⟨below, hpath, hterm⟩
      · cases hc

theorem exists_path_eq_of_mem_summandsAt {e : Expr} {path : List Nat} {b : Bool}
    {t : PlacedSummand} (h : t ∈ e.summandsAt path b) : ∃ below, t.spot.path = below ++ path := by
  obtain ⟨below, hpath, -⟩ := (e.mem_map_spot_summandsAt path b).mp (List.mem_map_of_mem h)
  exact ⟨below, hpath⟩

theorem pairwise_isLeftOf_summandsAt (e : Expr) (path : List Nat) (b : Bool) :
    (e.summandsAt path b).Pairwise fun t u => IsLeftOf t.spot.path u.spot.path := by
  induction e using sumInduction generalizing path b with
  | term e h =>
    rw [summandsAt_of_not_isSum h]
    exact List.pairwise_singleton _ _
  | sum op l r s h ihl ihr =>
    rw [summandsAt_of_isSum h, List.pairwise_append]
    refine ⟨ihl _ _, ihr _ _, fun t ht u hu => ?_⟩
    obtain ⟨left, hleft⟩ := exists_path_eq_of_mem_summandsAt ht
    obtain ⟨right, hright⟩ := exists_path_eq_of_mem_summandsAt hu
    exact ⟨left, 0, right, 1, path, hleft, hright, Nat.zero_lt_one⟩

/-- Every summand has tokens of its own. -/
theorem exists_written_of_mem_summandsAt {e : Expr} {ts : List Token} (h : Written [e] ts)
    {path : List Nat} {b : Bool} {t : PlacedSummand} (ht : t ∈ e.summandsAt path b) :
    ∃ own, own <:+: ts ∧ Written [t.spot.node] own := by
  obtain ⟨below, -, hterm⟩ := (e.mem_map_spot_summandsAt path b).mp (List.mem_map_of_mem ht)
  refine h.exists_of_mem_postOrder ?_
  rw [← Spot.map_node_postOrder ⟨[], e⟩]
  have hspot : (⟨below, t.spot.node⟩ : Spot) ∈ Spot.postOrder ⟨[], e⟩ :=
    (Spot.mem_postOrder _).mpr ⟨below, (List.append_nil below).symm, hterm.at_eq⟩
  exact List.mem_map.mpr ⟨_, hspot, rfl⟩

end Expr

theorem stop_extent_le_start_extent {ts us : List Token} (hts : ts ≠ []) (hus : us ≠ [])
    (h : ∀ t ∈ ts, ∀ u ∈ us, t.stop ≤ u.start) : (extent ts).stop ≤ (extent us).start := by
  rw [extent, extent, List.getLast?_eq_some_getLast hts, List.head?_eq_some_head hus]
  exact h _ (List.getLast_mem hts) _ (List.head_mem hus)

/-- A summand on the right starts where one on the left has ended. -/
theorem Written.pairwise_summandsAt {e : Expr} {ts : List Token} (h : Written [e] ts)
    (hts : ts.Pairwise fun t u => t.stop ≤ u.start) (path : List Nat) (b : Bool) :
    (e.summandsAt path b).Pairwise fun t u => t.spot.node.span.stop ≤ u.spot.node.span.start := by
  induction e using Expr.sumInduction generalizing ts path b with
  | term e hterm =>
    rw [Expr.summandsAt_of_not_isSum hterm]
    exact List.pairwise_singleton _ _
  | sum op l r s hsum ihl ihr =>
    rw [Expr.summandsAt_of_isSum hsum]
    cases h with
    | @operator t k _ _ ts us _ hl hr =>
      obtain ⟨hleft, hright, hcross⟩ := List.pairwise_append.mp hts
      refine List.pairwise_append.mpr
        ⟨ihl hl hleft _ _, ihr hr (List.pairwise_cons.mp hright).2 _ _, fun x hx y hy => ?_⟩
      obtain ⟨own, hown, hwritten⟩ := Expr.exists_written_of_mem_summandsAt hl hx
      obtain ⟨own', hown', hwritten'⟩ := Expr.exists_written_of_mem_summandsAt hr hy
      rw [hwritten.span_eq, hwritten'.span_eq]
      refine stop_extent_le_start_extent hwritten.ne_nil hwritten'.ne_nil fun v hv w hw => ?_
      exact hcross v (hown.subset hv) w (List.mem_cons_of_mem t (hown'.subset hw))
    | juxtapose => exact absurd hsum (by simp [Expr.IsSum])
    | arguments _ _ hnil => exact absurd hnil (by rintro ⟨⟩)

/-- A value for every place, and one for the numbers beyond the largest double. -/
structure Assignment where
  value : List Nat → ℚ
  infinite : ℚ

/-- Negates what is subtracted. -/
def negateIf (isSubtracted : Bool) (v : ℚ) : ℚ := if isSubtracted then -v else v

@[simp] theorem negateIf_false (v : ℚ) : negateIf false v = v := rfl

@[simp] theorem negateIf_true (v : ℚ) : negateIf true v = -v := rfl

theorem negateIf_add (b : Bool) (v w : ℚ) : negateIf b (v + w) = negateIf b v + negateIf b w := by
  cases b with
  | false => rfl
  | true => exact neg_add v w

theorem negateIf_negateIf (b c : Bool) (v : ℚ) :
    negateIf b (negateIf c v) = negateIf (b ^^ c) v := by
  cases b <;> cases c <;> simp

theorem Double.toRat_ite_neg (infinite : ℚ) (b : Bool) (x : Float) :
    toRat infinite (if b then -x else x) = negateIf b (toRat infinite x) := by
  cases b with
  | false => rfl
  | true => exact toRat_neg infinite x

namespace Expr
variable (a : Assignment)

/-- The value of a formula at a place. Numbers, groups, minus signs, sums and differences mean what
they always mean. All else has the value that its place is given. -/
def valueAt (path : List Nat) : Expr → ℚ
  | number v _ => Double.toRat a.infinite (Arithmetic.ofNumeral v)
  | group _ e _ => e.valueAt (0 :: path)
  | unary op e _ =>
    match op.kind with
    | .neg => -e.valueAt (0 :: path)
    | .pos => a.value path
  | binary op l r _ =>
    match op.kind with
    | .add => l.valueAt (0 :: path) + r.valueAt (1 :: path)
    | .sub => l.valueAt (0 :: path) - r.valueAt (1 :: path)
    | _ => a.value path
  | _ => a.value path

theorem valueAt_of_isSum {op : BinaryOp} {l r : Expr} {s : Span} (h : (binary op l r s).IsSum)
    (path : List Nat) : (binary op l r s).valueAt a path =
      l.valueAt a (0 :: path) + negateIf (op.kind = .sub) (r.valueAt a (1 :: path)) := by
  rw [valueAt]
  rcases h with hop | hop <;> simp [hop, sub_eq_add_neg]

/-- What is read as a number has its value. -/
theorem valueAt_of_literal? (e : Expr) {v : Float} (h : e.literal? Float = some v)
    (path : List Nat) : e.valueAt a path = Double.toRat a.infinite v := by
  fun_induction literal? Float e generalizing v path with
  | case1 n s =>
    obtain rfl := Option.some.inj h
    rfl
  | case2 d e s ih => exact ih h (0 :: path)
  | case3 op e s hop ih =>
    obtain ⟨w, hw, rfl⟩ := Option.map_eq_some_iff.mp h
    rw [valueAt, hop, Double.toRat_neg]
    exact congrArg Neg.neg (ih hw (0 :: path))
  | case4 | case5 => cases h

end Expr

namespace PlacedSummand
variable (a : Assignment)

/-- What a summand adds. -/
def value (t : PlacedSummand) : ℚ := negateIf t.isSubtracted (t.spot.node.valueAt a t.spot.path)

/-- What some summands add up to. -/
def total (ts : List PlacedSummand) : ℚ := (ts.map (value a)).sum

theorem total_append (ts us : List PlacedSummand) :
    total a (ts ++ us) = total a ts + total a us := by
  rw [total, List.map_append, List.sum_append]
  rfl

theorem total_singleton (t : PlacedSummand) : total a [t] = t.value a := List.sum_singleton

end PlacedSummand

open PlacedSummand

/-- The summands of a formula add up to its value. -/
theorem Expr.total_summandsAt (a : Assignment) (e : Expr) (path : List Nat) (b : Bool) :
    total a (e.summandsAt path b) = negateIf b (e.valueAt a path) := by
  induction e using sumInduction generalizing path b with
  | term e h => rw [summandsAt_of_not_isSum h, total_singleton, PlacedSummand.value]
  | sum op l r s h ihl ihr =>
    rw [summandsAt_of_isSum h, total_append, ihl, ihr, valueAt_of_isSum a h, negateIf_add,
      negateIf_negateIf]

theorem Facts.offset?_eq_some {ts : List Expr.Summand} {c : Float} (h : offset? ts = some c) :
    2 ≤ ts.length ∧ ∃ last v, ts.getLast? = some last ∧ last.expr.literal? Float = some v ∧
      c = if last.isSubtracted then -v else v := by
  rw [offset?] at h
  split at h
  · cases h
  · next hlength =>
    obtain ⟨last, hlast, h⟩ := Option.bind_eq_some_iff.mp h
    obtain ⟨v, hv, hc⟩ := Option.map_eq_some_iff.mp h
    exact ⟨Nat.le_of_not_lt hlength, last, v, hlast, hv, hc.symm⟩

/-- The last summand adds the offset. -/
theorem total_dropLast_add_offset (a : Assignment) {ts : List PlacedSummand} {c : Float}
    (h : Facts.offset? (ts.map summand) = some c) :
    total a ts = total a ts.dropLast + Double.toRat a.infinite c := by
  obtain ⟨-, last, v, hlast, hv, rfl⟩ := Facts.offset?_eq_some h
  rw [List.getLast?_map, Option.map_eq_some_iff] at hlast
  obtain ⟨t, ht, rfl⟩ := hlast
  have hvalue : t.value a = Double.toRat a.infinite (if t.isSubtracted then -v else v) := by
    rw [value, Double.toRat_ite_neg, t.spot.node.valueAt_of_literal? a hv]
  calc total a ts = total a (ts.dropLast ++ [t]) := by rw [List.dropLast_append_getLast? t ht]
    _ = total a ts.dropLast + t.value a := by rw [total_append, total_singleton]
    _ = _ := by rw [hvalue]; rfl

/-- The summands make up the formula. They are its largest parts that are no sums, each at its
place, from left to right in the tree and in every text that the tree is read from, and there are as
many as the facts say. They add up to the value of the formula whatever values its parts have. If
the facts name an offset, there are two or more of them, and all but the last one add up to the
value with the offset for the last one. -/
theorem summands_make_up (e : Expr) (a : Assignment) :
    (e.summandsAt [] false).map summand = e.summands false ∧
    (Facts.ofExpr e : Facts Float).terms = (e.summandsAt [] false).length ∧
    (∀ s, s ∈ (e.summandsAt [] false).map spot ↔ e.IsTermAt s) ∧
    (e.summandsAt [] false).Pairwise (fun t u => IsLeftOf t.spot.path u.spot.path) ∧
    (∀ source, parse source = .ok e → (e.summandsAt [] false).Pairwise fun t u =>
      t.spot.node.span.stop ≤ u.spot.node.span.start) ∧
    e.valueAt a [] = total a (e.summandsAt [] false) ∧
    (Arithmetic.same (Facts.ofExpr e : Facts Float).offset (Arithmetic.ofNat 0) = false →
      2 ≤ (e.summandsAt [] false).length ∧
      e.valueAt a [] = total a (e.summandsAt [] false).dropLast +
        Double.toRat a.infinite (Facts.ofExpr e : Facts Float).offset) := by
  have hforget := e.map_summand_summandsAt [] false
  have hlength : (e.summands false).length = (e.summandsAt [] false).length := by
    rw [← hforget, List.length_map]
  have htotal : e.valueAt a [] = total a (e.summandsAt [] false) :=
    (e.total_summandsAt a [] false).symm
  refine ⟨hforget, hlength, fun s => ?_, e.pairwise_isLeftOf_summandsAt [] false, ?_, htotal, ?_⟩
  · rw [e.mem_map_spot_summandsAt [] false]
    simp
  · intro source hparse
    obtain ⟨ts, hwritten, hts⟩ := exists_written_of_parse hparse
    exact hwritten.pairwise_summandsAt ((Lexer.pairwise_tokensFrom 0 _).sublist hts) [] false
  · intro hoffset
    cases hfound : (Facts.offset? (e.summands false) : Option Float) with
    | none =>
      -- without a constant at the end the facts say zero
      have hzero : Arithmetic.same (Arithmetic.ofNat 0 : Float) (Arithmetic.ofNat 0) = true := by
        decide
      rw [Facts.ofExpr, hfound] at hoffset
      exact absurd (hzero.symm.trans hoffset) (by decide)
    | some c =>
      have hc : (Facts.ofExpr e : Facts Float).offset = c := by
        rw [Facts.ofExpr, hfound]
        rfl
      rw [hc, htotal, ← hlength]
      refine ⟨(Facts.offset?_eq_some hfound).1, total_dropLast_add_offset a ?_⟩
      rw [hforget, hfound]

/-- Two minus signs in front of a constant, one of them in a group. -/
theorem summands_make_up_difference :
    ∃ e, parse "2x-(x-1)-(-(7))" = .ok e ∧
      Arithmetic.same (Facts.ofExpr e : Facts Float).offset (Arithmetic.ofNat 7) = true ∧
      Arithmetic.same (Facts.ofExpr e : Facts Float).offset (Arithmetic.ofNat 0) = false ∧
      (e.summandsAt [] false).Pairwise
        (fun t u => t.spot.node.span.stop ≤ u.spot.node.span.start) ∧
      2 ≤ (e.summandsAt [] false).length ∧
      e.valueAt ⟨fun path => path.length, 0⟩ [] =
        total ⟨fun path => path.length, 0⟩ (e.summandsAt [] false).dropLast +
          Double.toRat 0 (Facts.ofExpr e : Facts Float).offset := by
  have hrun : ((parse "2x-(x-1)-(-(7))").toOption.map fun e =>
      let offset := (Facts.ofExpr e : Facts Float).offset
      (Arithmetic.same offset (Arithmetic.ofNat 7), Arithmetic.same offset (Arithmetic.ofNat 0))) =
        some (true, false) := by decide +kernel
  cases hparse : parse "2x-(x-1)-(-(7))" with
  | error f =>
    rw [hparse] at hrun
    cases hrun
  | ok e =>
    rw [hparse] at hrun
    obtain ⟨hseven, hzero⟩ := Prod.mk.inj (Option.some.inj hrun)
    obtain ⟨-, -, -, -, hspans, -, hoffset⟩ := summands_make_up e ⟨fun path => path.length, 0⟩
    exact ⟨e, rfl, hseven, hzero, hspans _ hparse, hoffset hzero⟩

end CurveGuess
