import CurveGuess.Proofs.Share.Query
import CurveGuess.Terminal.Board
import Mathlib.Data.List.Basic

/-!
# What a picture shows

A canvas is a table of its cells, and each layer of paint changes the table in the cells that it
covers. So a cell of the picture shows the curve through it that was painted last: the last guess,
and without any the target, and without that the axes.
-/
namespace CurveGuess.Terminal

namespace Canvas

/-- The canvas with the given cells. -/
def ofFn (width height : Nat) (cell : Nat → Nat → Char) : Canvas :=
  ⟨(List.range height).map fun row => (List.range width).map (cell row)⟩

section
variable {width height : Nat} {cell cell' : Nat → Nat → Char}

theorem ofFn_congr (h : ∀ row < height, ∀ column < width, cell row column = cell' row column) :
    ofFn width height cell = ofFn width height cell' := by
  refine congrArg Canvas.mk (List.map_congr_left fun row hrow => ?_)
  refine List.map_congr_left fun column hcolumn => ?_
  exact h row (List.mem_range.mp hrow) column (List.mem_range.mp hcolumn)

theorem blank_eq (width height : Nat) : blank width height = ofFn width height fun _ _ => ' ' := by
  simp [blank, ofFn]

theorem set_range (n i : Nat) (f : Nat → Char) (c : Char) :
    ((List.range n).map f).set i c = (List.range n).map fun j => if j = i then c else f j := by
  refine List.ext_getElem (by simp) fun j _ _ => ?_
  simp only [List.getElem_set, List.getElem_map, List.getElem_range, eq_comm]

theorem modify_range {A : Type} (n i : Nat) (f : Nat → A) (g : A → A) :
    ((List.range n).map f).modify i g =
      (List.range n).map fun j => if j = i then g (f j) else f j := by
  refine List.ext_getElem (by simp) fun j _ _ => ?_
  simp only [List.getElem_modify, List.getElem_map, List.getElem_range, eq_comm]

theorem put_ofFn (row column : Nat) (glyph : Char) :
    (ofFn width height cell).put row column glyph = ofFn width height fun i j =>
      if i = row ∧ j = column then glyph else cell i j := by
  rw [put, ofFn, modify_range, ofFn]
  refine congrArg Canvas.mk (List.map_congr_left fun i _ => ?_)
  rw [set_range]
  by_cases h : i = row <;> simp [h]

theorem fillRow_ofFn (row : Nat) (glyph : Char) :
    (ofFn width height cell).fillRow row glyph = ofFn width height fun i j =>
      if i = row then glyph else cell i j := by
  rw [fillRow, ofFn, modify_range, ofFn]
  refine congrArg Canvas.mk (List.map_congr_left fun i _ => ?_)
  by_cases h : i = row <;> simp [h, Function.comp_def]

theorem fillColumn_ofFn (column : Nat) (glyph : Char) :
    (ofFn width height cell).fillColumn column glyph = ofFn width height fun i j =>
      if j = column then glyph else cell i j := by
  simp only [fillColumn, ofFn, List.map_map, Function.comp_def, set_range]

end

/-- What a cell shows of the axes. -/
def axisGlyph (row? column? : Option Nat) (row column : Nat) : Char :=
  if row? = some row ∧ column? = some column then '+'
  else if column? = some column then '|'
  else if row? = some row then '-'
  else ' '

theorem paintAxes_blank (width height : Nat) (row? column? : Option Nat) :
    (blank width height).paintAxes row? column? =
      ofFn width height (axisGlyph row? column?) := by
  rw [blank_eq]
  cases row? <;> cases column? <;>
    simp only [paintAxes, fillRow_ofFn, fillColumn_ofFn, put_ofFn] <;>
    exact ofFn_congr fun row _ column _ => by simp [axisGlyph, eq_comm]

section
variable {width height : Nat} (cell : Nat → Nat → Char)

/-- Paints one column of a curve. -/
def paintColumn (t : Trace) (c : Canvas) (column : Nat) : Canvas :=
  match t.row? column with
  | some row => c.put row column t.glyph
  | none => c

theorem paintTrace_eq (c : Canvas) (t : Trace) :
    paintTrace width c t = (List.range width).foldl (paintColumn t) c := rfl

theorem paintColumn_ofFn (t : Trace) (column : Nat) :
    paintColumn t (ofFn width height cell) column = ofFn width height fun i j =>
      if j = column ∧ t.row? j = some i then t.glyph else cell i j := by
  unfold paintColumn
  cases hrow : t.row? column with
  | none =>
    refine ofFn_congr fun i _ j _ => (if_neg ?_).symm
    rintro ⟨rfl, hj⟩
    rw [hrow] at hj
    cases hj
  | some row =>
    dsimp only
    rw [put_ofFn]
    refine ofFn_congr fun i _ j _ => if_congr ?_ rfl rfl
    rw [and_comm]
    refine and_congr_right fun hj => ?_
    rw [hj, hrow, Option.some_inj, eq_comm]

theorem paintTrace_ofFn (t : Trace) : paintTrace width (ofFn width height cell) t =
    ofFn width height fun row column =>
      if t.row? column = some row then t.glyph else cell row column := by
  have hcolumns : ∀ n, (List.range n).foldl (paintColumn t) (ofFn width height cell) =
      ofFn width height fun row column =>
        if column < n ∧ t.row? column = some row then t.glyph else cell row column := by
    intro n
    induction n with
    | zero => simp
    | succ n ih =>
      rw [List.range_succ, List.foldl_concat, ih, paintColumn_ofFn]
      refine ofFn_congr fun row _ column _ => ?_
      simp only [Nat.lt_succ_iff_lt_or_eq]
      by_cases hrow : t.row? column = some row <;> by_cases hn : column = n <;> simp [hrow, hn]
  rw [paintTrace_eq, hcolumns]
  exact ofFn_congr fun row _ column hcolumn => by simp [hcolumn]

/-- The curve that is painted last is seen. -/
theorem foldl_paintTrace (ts : List Trace) :
    ts.foldl (paintTrace width) (ofFn width height cell) =
      ofFn width height fun row column =>
        (((ts.filter (·.row? column = some row)).getLast?).map Trace.glyph).getD
          (cell row column) := by
  induction ts generalizing cell with
  | nil => rfl
  | cons t ts ih =>
    rw [List.foldl_cons, paintTrace_ofFn, ih]
    refine ofFn_congr fun row _ column _ => ?_
    by_cases h : t.row? column = some row
    · rw [if_pos h, List.filter_cons_of_pos (by simpa using h), List.getLast?_cons]
      cases (ts.filter (·.row? column = some row)).getLast? <;> rfl
    · rw [if_neg h, List.filter_cons_of_neg (by simpa using h)]

end

theorem paint_eq (width height : Nat) (row? column? : Option Nat) (ts : List Trace) :
    paint width height row? column? ts = ofFn width height fun row column =>
      (((ts.filter (·.row? column = some row)).getLast?).map Trace.glyph).getD
        (axisGlyph row? column? row column) := by
  rw [paint, paintAxes_blank, foldl_paintTrace]

/-- A picture has the rows of its table as lines. -/
theorem pieces_lines (width : Nat) {height : Nat} (hheight : 0 < height) {cell : Nat → Nat → Char}
    (hcell : ∀ row column, cell row column ≠ '\n') :
    Share.pieces '\n' ("\n".intercalate (ofFn width height cell).lines).toList =
      (ofFn width height cell).rows := by
  have hlines : ((ofFn width height cell).lines).map String.toList =
      (ofFn width height cell).rows := by
    simp [lines, Function.comp_def]
  rw [String.toList_intercalate, hlines, Share.pieces_eq_splitOn]
  refine List.splitOn_intercalate '\n' (fun line hline hbreak => ?_) fun hnil => ?_
  · obtain ⟨row, -, rfl⟩ := List.mem_map.mp hline
    obtain ⟨column, -, hcolumn⟩ := List.mem_map.mp hbreak
    exact hcell row column hcolumn
  · rw [ofFn, List.map_eq_nil_iff, List.range_eq_nil] at hnil
    omega

end Canvas

namespace Drawn

theorem glyph_of_isTarget {d : Drawn} (h : d.isTarget = true) : d.glyph = '*' := if_pos h

theorem map_glyph_targets (ds : List Drawn) :
    (ds.filter isTarget).getLast?.map glyph = if ds.any isTarget then some '*' else none := by
  cases h : (ds.filter isTarget).getLast? with
  | none =>
    rw [List.getLast?_eq_none_iff, List.filter_eq_nil_iff] at h
    rw [Option.map_none, if_neg (by simpa using h)]
  | some d =>
    obtain ⟨hd, htarget⟩ := List.mem_filter.mp (List.mem_of_getLast? h)
    rw [Option.map_some, glyph_of_isTarget htarget, if_pos (List.any_eq_true.mpr ⟨d, hd, htarget⟩)]

theorem glyph_ne_break (d : Drawn) : d.glyph ≠ '\n' := by
  unfold glyph
  split
  · decide
  · split <;> decide

end Drawn

namespace Board

variable (b : Board)

/-- Sorting does not change the order of curves that are alike in that they are targets or not. -/
theorem filter_mergeSort {le : Drawn → Drawn → Bool} (htrans : ∀ d e f, le d e → le e f → le d f)
    (htotal : ∀ d e, le d e || le e d) {p : Drawn → Bool}
    (hp : ∀ d e, p d = true → p e = true → le d e = true) (ds : List Drawn) :
    (ds.mergeSort le).filter p = ds.filter p := by
  have hsorted : (ds.filter p).Pairwise fun d e => le d e = true :=
    List.pairwise_of_forall_mem_list fun d hd e he =>
      hp d e (List.mem_filter.mp hd).2 (List.mem_filter.mp he).2
  have hsub := (List.sublist_mergeSort htrans htotal hsorted List.filter_sublist).filter p
  simp only [List.filter_filter, Bool.and_self] at hsub
  exact (hsub.eq_of_length ((ds.mergeSort_perm le).filter p).length_eq.symm).symm

/-- Where targets come first, the list falls into targets and others. -/
theorem filter_append_filter {ds : List Drawn}
    (h : ds.Pairwise fun d e => (d.isTarget || !e.isTarget) = true) :
    ds.filter Drawn.isTarget ++ ds.filter (!·.isTarget) = ds := by
  induction ds with
  | nil => rfl
  | cons d ds ih =>
    obtain ⟨hd, hds⟩ := List.pairwise_cons.mp h
    cases htarget : d.isTarget with
    | true => simp [htarget, ih hds]
    | false =>
      have hothers : ∀ e ∈ ds, e.isTarget = false := fun e he => by simpa [htarget] using hd e he
      have hnone : ds.filter Drawn.isTarget = [] :=
        List.filter_eq_nil_iff.mpr (by simpa using hothers)
      have hall : ds.filter (!·.isTarget) = ds := List.filter_eq_self.mpr (by simpa using hothers)
      simp [htarget, hnone, hall]

/-- The sort changes no order but that of the target and other curves. -/
theorem painted_eq :
    b.painted = b.held.filter Drawn.isTarget ++ b.held.filter (!·.isTarget) := by
  have htrans : ∀ d e f : Drawn, (d.isTarget || !e.isTarget) = true →
      (e.isTarget || !f.isTarget) = true → (d.isTarget || !f.isTarget) = true := by grind
  have htotal : ∀ d e : Drawn,
      ((d.isTarget || !e.isTarget) || (e.isTarget || !d.isTarget)) = true := by grind
  rw [painted, ← filter_append_filter (List.pairwise_mergeSort htrans htotal b.held),
    filter_mergeSort htrans htotal (by grind), filter_mergeSort htrans htotal (by grind)]

/-- The picture with axes and curves that take the given ways. -/
def pictureOf (row? column? : Option Nat) (path : Drawn → Nat → Option Nat) : String :=
  "\n".intercalate (b.paint row? column? path).lines

/-- What a cell shows: the last guess through it, or else the target, or else the axes. -/
def cell (row? column? : Option Nat) (path : Drawn → Nat → Option Nat) (row column : Nat) : Char :=
  let through := b.held.filter (path · column = some row)
  match (through.filter (!·.isTarget)).getLast? with
  | some d => d.glyph
  | none =>
    if through.any (·.isTarget) then '*' else Canvas.axisGlyph row? column? row column

section
variable (row? column? : Option Nat) (path : Drawn → Nat → Option Nat)

theorem cell_ne_break (row column : Nat) : b.cell row? column? path row column ≠ '\n' := by
  unfold cell
  dsimp only
  split
  · next d _ => exact d.glyph_ne_break
  · split
    · decide
    · unfold Canvas.axisGlyph
      split_ifs <;> decide

theorem paint_eq : b.paint row? column? path =
    .ofFn b.width b.height (b.cell row? column? path) := by
  rw [paint, Canvas.paint_eq]
  refine Canvas.ofFn_congr fun row _ column _ => ?_
  let through := b.held.filter (path · column = some row)
  have hpainted : b.painted.filter (path · column = some row) =
      through.filter Drawn.isTarget ++ through.filter (!·.isTarget) := by
    simp only [painted_eq, through, List.filter_append, List.filter_filter, Bool.and_comm]
  rw [List.filter_map, List.getLast?_map, Option.map_map]
  change ((b.painted.filter (path · column = some row)).getLast?.map Drawn.glyph).getD _ = _
  rw [hpainted, List.getLast?_append, cell]
  cases (through.filter (!·.isTarget)).getLast? with
  | some d => rfl
  | none =>
    rw [Option.none_or, Drawn.map_glyph_targets]
    cases through.any Drawn.isTarget <;> rfl

end

/-- The picture is that of the ways which axes and curves take in the plane. Whatever ways they
take, there are as many lines as the board is high, of as many characters as it is wide, and every
cell shows what goes through it. -/
theorem pieces_pictureOf (hheight : 0 < b.height) :
    b.picture = b.pictureOf (b.row? 0) (b.column? 0) b.path ∧
      ∀ row? column? path, Share.pieces '\n' (b.pictureOf row? column? path).toList =
        (List.range b.height).map fun row =>
          (List.range b.width).map fun column => b.cell row? column? path row column := by
  refine ⟨rfl, fun row? column? path => ?_⟩
  rw [pictureOf, paint_eq]
  exact Canvas.pieces_lines b.width hheight (b.cell_ne_break row? column? path)

/-- A small board on which a guess was drawn before the target. -/
def crossed : Board :=
  (({ blank with width := 5, height := 5 } : Board).followAll
    [.draw (.preview "daily_user_0" "x"), .draw (.target "0.5")]).state

/-- The guess is seen where it meets the target. -/
theorem pieces_pictureOf_crossed : 0 < crossed.height ∧
    Share.pieces '\n' (crossed.pictureOf (some 2) (some 2) fun d column =>
        some (if d.isTarget then 1 else 4 - column)).toList =
      ["  | o", "***o*", "--o--", " o|  ", "o |  "].map String.toList := by
  have hheight : 0 < crossed.height := by decide +kernel
  refine ⟨hheight, ((pieces_pictureOf crossed hheight).2 _ _ _).trans ?_⟩
  decide +kernel

end Board

end CurveGuess.Terminal
