import CurveGuess.Proofs.Terminal.Board

/-!
# What the board keeps

The board is a store: under each identifier it holds what was drawn there last, unless that cleared
the identifier, is no formula or was removed since. What is held is in the order in which it was
drawn last.
-/
namespace CurveGuess.Terminal

open Event

/-- What an event adds to the board. -/
def Drawn.ofEvent? : Event → Option Drawn
  | draw c => ofCurve? c
  | _ => none

theorem Drawn.ofEvent?_eq_some {e : Event} {d : Drawn} : ofEvent? e = some d ↔
    e = .draw d.curve ∧ d.curve.expression ≠ "" ∧
      Formula.read d.curve.expression = .ok d.formula := by
  cases e with
  | remove | remark => simp [ofEvent?]
  | draw c =>
    rw [ofEvent?, ofCurve?_eq_some, Event.draw.injEq]
    constructor
    · rintro ⟨rfl, hread⟩
      refine ⟨rfl, fun hempty => ?_, hread⟩
      have hnone : ofCurve? d.curve = none :=
        ofCurve?_of_isClear (by rw [Curve.isClear, hempty]; rfl)
      rw [ofCurve?_eq_some.mpr ⟨rfl, hread⟩] at hnone
      cases hnone
    · rintro ⟨rfl, -, hread⟩
      exact ⟨rfl, hread⟩

theorem Drawn.subject?_of_ofEvent? {e : Event} {d : Drawn} (h : ofEvent? e = some d) :
    e.subject? = some d.curve.id := by
  rw [(ofEvent?_eq_some.mp h).1, subject?]

namespace Board

section
variable (b : Board)

/-- An event drops what it is about, and what it draws comes last. -/
theorem held_follow (e : Event) : (b.follow e).state.held =
    b.held.filter (some ·.curve.id != e.subject?) ++ (Drawn.ofEvent? e).toList := by
  cases e with
  | draw c => exact b.held_draw c
  | remove id => exact (List.append_nil _).symm
  | remark note => exact ((List.append_nil _).trans (List.filter_eq_self.mpr fun _ _ => rfl)).symm

theorem mem_held_follow (e : Event) (d : Drawn) : d ∈ (b.follow e).state.held ↔
    d ∈ b.held ∧ e.subject? ≠ some d.curve.id ∨ Drawn.ofEvent? e = some d := by
  rw [held_follow, List.mem_append, List.mem_filter, Option.mem_toList, bne_iff_ne, ne_comm]

end

/-- Some events draw a curve for the last time before they draw another one for the last time. -/
def DrawnBefore (es : List Event) (c c' : Curve) : Prop :=
  ∃ before after, es = before ++ after ∧ last? c.id before = some (.draw c) ∧
    last? c.id after = none ∧ last? c'.id after = some (.draw c')

theorem DrawnBefore.concat {es : List Event} {c c' : Curve} (h : DrawnBefore es c c') {e : Event}
    (hc : e.subject? ≠ some c.id) (hc' : e.subject? ≠ some c'.id) :
    DrawnBefore (es ++ [e]) c c' := by
  obtain ⟨before, after, rfl, hbefore, hnone, hafter⟩ := h
  refine ⟨before, after ++ [e], List.append_assoc .., hbefore, ?_, ?_⟩
  · rw [last?_concat, if_neg hc, hnone]
  · rw [last?_concat, if_neg hc', hafter]

/-- What a board holds after some events. -/
structure Keeps (b : Board) (es : List Event) : Prop where
  /-- Under no identifier there are two curves. -/
  holdsOnce : b.HoldsOnce
  /-- Under an identifier there is what was drawn by the last event about it. -/
  held_iff : ∀ id d, d ∈ b.held ∧ d.curve.id = id ↔ last? id es = some (.draw d.curve) ∧
    d.curve.expression ≠ "" ∧ Formula.read d.curve.expression = .ok d.formula
  inOrder : b.held.Pairwise fun d d' => DrawnBefore es d.curve d'.curve

section
variable {b : Board} {es : List Event}

theorem Keeps.last?_eq (h : b.Keeps es) {d : Drawn} (hd : d ∈ b.held) :
    last? d.curve.id es = some (.draw d.curve) :=
  ((h.held_iff d.curve.id d).mp ⟨hd, rfl⟩).1

theorem keeps_nil (hb : b.held = []) : b.Keeps [] := by
  constructor
  · simp [HoldsOnce, hb]
  · simp [hb]
  · simp [hb]

/-- What a board holds goes along with an event. -/
theorem Keeps.follow (h : b.Keeps es) (e : Event) : (b.follow e).state.Keeps (es ++ [e]) := by
  constructor
  case holdsOnce => exact h.holdsOnce.follow e
  case held_iff =>
    intro id d
    rw [mem_held_follow, Drawn.ofEvent?_eq_some, last?_concat]
    by_cases he : e.subject? = some id
    · rw [if_pos he, Option.some_inj]
      constructor
      · rintro ⟨⟨-, hother⟩ | hnew, rfl⟩
        · exact absurd he hother
        · exact hnew
      · rintro hnew
        refine ⟨.inr hnew, ?_⟩
        rw [hnew.1, subject?] at he
        exact Option.some.inj he
    · rw [if_neg he, ← h.held_iff id d]
      constructor
      · rintro ⟨⟨hd, -⟩ | hnew, rfl⟩
        · exact ⟨hd, rfl⟩
        · rw [hnew.1, subject?] at he
          exact absurd rfl he
      · rintro ⟨hd, rfl⟩
        exact ⟨.inl ⟨hd, he⟩, rfl⟩
  case inOrder =>
    rw [held_follow, List.pairwise_append]
    refine ⟨?_, by cases Drawn.ofEvent? e <;> simp, ?_⟩
    · refine (h.inOrder.sublist List.filter_sublist).imp_of_mem fun hd hd' hbefore => ?_
      exact hbefore.concat (bne_iff_ne.mp (List.mem_filter.mp hd).2).symm
        (bne_iff_ne.mp (List.mem_filter.mp hd').2).symm
    · intro d hd d' hd'
      rw [Option.mem_toList] at hd'
      obtain ⟨hheld, hother⟩ := List.mem_filter.mp hd
      refine ⟨es, [e], rfl, h.last?_eq hheld, ?_, ?_⟩
      · rw [last?_singleton, if_neg (bne_iff_ne.mp hother).symm]
      · rw [last?_singleton, if_pos (Drawn.subject?_of_ofEvent? hd'),
          (Drawn.ofEvent?_eq_some.mp hd').1]

theorem Keeps.followAll (h : b.Keeps es) (fs : List Event) :
    (b.followAll fs).state.Keeps (es ++ fs) := by
  induction fs generalizing b es with
  | nil => simpa using h
  | cons e fs ih => simpa using ih (h.follow e)

end

/-- Whatever a new board is asked for, it is a store. -/
theorem keeps_followAll (view : Viewport Float) (width height : Nat) (es : List Event) :
    ((⟨[], view, width, height⟩ : Board).followAll es).state.Keeps es := by
  simpa using (keeps_nil (b := ⟨[], view, width, height⟩) rfl).followAll es

/-- What is drawn again comes last, and what is no formula goes. -/
example :
    (Board.blank.followAll [.draw (.created "x"), .draw (.preview "p" "2x"),
      .draw (.target "x+"), .draw (.created "3x")]).state.held.map (·.curve) =
        [.preview "p" "2x", .created "3x"] := by decide +kernel

end Board

end CurveGuess.Terminal
