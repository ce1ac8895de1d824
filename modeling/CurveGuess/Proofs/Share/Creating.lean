import CurveGuess.Proofs.Grammar.Value
import CurveGuess.Proofs.Session.Previews
import CurveGuess.Proofs.Share.Link
import Mathlib.Data.List.DropRight

/-!
# Making a function

What is written is the last text since everything was wiped, and what is drawn is the last of these
texts that is a formula. So the two part where a text is no formula, until the next one is.
-/
namespace CurveGuess.Creator

open Event

/-- What a player can do while a function is made. -/
inductive Command where
  | update (input : String)
  | clear
  deriving DecidableEq, Repr

def perform (c : Creator) : Command → Step Creator Unit
  | .update input => c.update input
  | .clear => Creator.clear

/-- Starts to make a function and performs commands one after the other. -/
def run (cs : List Command) : Step Creator Unit :=
  cs.foldl (fun step c => step.andThen (·.perform c)) start

theorem run_concat (cs : List Command) (c : Command) :
    run (cs ++ [c]) = (run cs).andThen (·.perform c) := by
  rw [run, List.foldl_concat, run]

namespace Command

/-- Does a command wipe all that was written? -/
def wipes : Command → Bool
  | update input => (trim input).isEmpty
  | clear => true

/-- The text that a command writes. -/
def text? : Command → Option String
  | update input => some (Spelling.toFormal (trim input))
  | clear => none

end Command

/-- The texts that were written since everything was wiped. -/
def written (cs : List Command) : List String :=
  (cs.rtakeWhile (!·.wipes)).filterMap Command.text?

/-- The formulas among them. -/
def formulas (cs : List Command) : List String :=
  (written cs).filter fun text => (Formula.read text).isOk

theorem written_of_wipes (cs : List Command) {c : Command} (h : c.wipes = true) :
    written (cs ++ [c]) = [] := by
  rw [written, List.rtakeWhile_concat_neg _ _ _ (by simp [h]), List.filterMap_nil]

theorem written_update (cs : List Command) {input : String} (h : (trim input).isEmpty = false) :
    written (cs ++ [.update input]) = written cs ++ [Spelling.toFormal (trim input)] := by
  rw [written, List.rtakeWhile_concat_pos _ _ _ (by simp [Command.wipes, h]),
    List.filterMap_append]
  rfl

section
variable (c : Creator)

theorem perform_of_wipes {d : Command} (h : d.wipes = true) : c.perform d = Creator.clear := by
  cases d with
  | clear => rfl
  | update input => exact if_pos h

/-- A text is kept whatever it is, and drawn if it is a formula. -/
theorem update_of_not_isEmpty {input : String} (h : (trim input).isEmpty = false) :
    (c.update input).state = ⟨Spelling.toFormal (trim input)⟩ ∧
      calls (c.update input).events =
        ([Spelling.toFormal (trim input)].filter fun text => (Formula.read text).isOk).map
          fun text => .draw (.created text) := by
  unfold update
  simp only [h, Bool.false_eq_true, if_false, List.filter_singleton]
  cases Formula.read (Spelling.toFormal (trim input)) <;> exact ⟨trivial, rfl⟩

/-- Making a function is about the created curve only. -/
theorem subject?_perform (d : Command) :
    ∀ e ∈ calls (c.perform d).events, e.subject? = some Curve.createdId := by
  cases hwipes : d.wipes with
  | true =>
    rw [c.perform_of_wipes hwipes]
    simp [clear, subject?, Curve.clear]
  | false =>
    cases d with
    | clear => cases hwipes
    | update input =>
      rw [perform, (c.update_of_not_isEmpty hwipes).2]
      simp [subject?, Curve.created]

end

theorem isClear_created {text : String} (h : (Formula.read text).isOk = true) :
    (Curve.created text).isClear = false := by
  cases hread : Formula.read text with
  | error f => simp [hread, Except.isOk, Except.toBool] at h
  | ok f => simpa [Curve.isClear, Curve.created] using Formula.ne_empty_of_read hread

section
variable (cs : List Command)

theorem formal_run : (run cs).state.formal = (written cs).getLast?.getD "" := by
  induction cs using List.reverseRecOn with
  | nil => rfl
  | append_singleton cs c ih =>
    rw [run_concat, Step.andThen]
    cases hwipes : c.wipes with
    | true => rw [perform_of_wipes _ hwipes, written_of_wipes cs hwipes]; rfl
    | false =>
      cases c with
      | clear => cases hwipes
      | update input =>
        rw [perform, (update_of_not_isEmpty _ hwipes).1, written_update cs hwipes,
          List.getLast?_concat, Option.getD_some]

/-- On a sink that was asked for something before, the created curve is the last formula. -/
theorem drawn?_createdId_run (earlier : List Event) :
    drawn? Curve.createdId (earlier ++ (run cs).events) =
      (formulas cs).getLast?.map Curve.created := by
  induction cs using List.reverseRecOn with
  | nil =>
    have hstart : earlier ++ (run []).events =
        (earlier ++ [.draw (.clear Curve.targetId)]) ++ [.draw (.clear Curve.createdId)] := by
      simp [run, start]
    rw [hstart]
    exact drawn?_concat_draw _ (.clear Curve.createdId)
  | append_singleton cs c ih =>
    rw [run_concat, Step.andThen, ← List.append_assoc]
    cases hwipes : c.wipes with
    | true =>
      rw [perform_of_wipes _ hwipes, formulas, written_of_wipes cs hwipes]
      exact drawn?_concat_draw _ (.clear Curve.createdId)
    | false =>
      cases c with
      | clear => cases hwipes
      | update input =>
        rw [perform, ← drawn?_append_calls, (update_of_not_isEmpty _ hwipes).2, formulas,
          written_update cs hwipes, List.filter_append, List.filter_singleton]
        cases hread : (Formula.read (Spelling.toFormal (trim input))).isOk with
        | false =>
          rw [cond_false, List.map_nil, List.append_nil, List.append_nil]
          exact ih
        | true =>
          have hdraw := drawn?_concat_draw (earlier ++ (run cs).events)
            (.created (Spelling.toFormal (trim input)))
          rw [isClear_created hread] at hdraw
          rw [cond_true, List.getLast?_concat]
          exact hdraw

/-- After the start, what is asked for is about the created curve. -/
theorem exists_events_run : ∃ events, (run cs).events = start.events ++ events ∧
    ∀ e ∈ calls events, e.subject? = some Curve.createdId := by
  induction cs using List.reverseRecOn with
  | nil => exact ⟨[], rfl, by simp⟩
  | append_singleton cs c ih =>
    obtain ⟨events, heq, hevents⟩ := ih
    refine ⟨events ++ ((run cs).state.perform c).events, ?_, ?_⟩
    · rw [run_concat, Step.andThen, heq, List.append_assoc]
    · rw [calls_append]
      intro e he
      obtain he | he := List.mem_append.mp he
      · exact hevents e he
      · exact subject?_perform _ c e he

theorem drawn?_targetId_run (earlier : List Event) :
    drawn? Curve.targetId (earlier ++ (run cs).events) = none := by
  have hne : Curve.createdId ≠ Curve.targetId := by decide
  obtain ⟨events, heq, hevents⟩ := exists_events_run cs
  have hother : ∀ e ∈ calls (.draw (.clear Curve.createdId) :: events),
      e.subject? ≠ some Curve.targetId := by
    intro e he
    obtain rfl | he := List.mem_cons.mp he
    · simpa [subject?, Curve.clear] using hne
    · simpa [hevents e he] using hne
  have hsplit : earlier ++ (run cs).events = (earlier ++ [.draw (.clear Curve.targetId)]) ++
      (.draw (.clear Curve.createdId) :: events) := by
    rw [heq]
    simp [start]
  rw [hsplit, drawn?_append_of_other _ hother]
  exact drawn?_concat_draw _ (.clear Curve.targetId)

theorem isClear_of_draw_mem_run {c : Curve} (h : .draw c ∈ (run cs).events)
    (hid : c.id = Curve.targetId) : c.isClear = true := by
  have hne : Curve.createdId ≠ Curve.targetId := by decide
  obtain ⟨events, heq, hevents⟩ := exists_events_run cs
  rw [heq, List.mem_append] at h
  obtain h | h := h
  · obtain rfl | rfl : c = .clear Curve.targetId ∨ c = .clear Curve.createdId := by
      simpa [start] using h
    · rfl
    · rfl
  · have hcreated := hevents (.draw c) (List.mem_filter.mpr ⟨h, rfl⟩)
    rw [subject?, hid, Option.some_inj] at hcreated
    exact absurd hcreated.symm hne

end

/-- What is written, drawn and shared after some commands, on a sink that was asked for something
before. -/
structure Reflects (cs : List Command) (earlier : List Event) : Prop where
  formal?_eq : (run cs).state.formal? = (written cs).getLast?.filter (!·.isEmpty)
  created_eq : drawn? Curve.createdId (earlier ++ (run cs).events) =
    (formulas cs).getLast?.map Curve.created
  target_eq : drawn? Curve.targetId (earlier ++ (run cs).events) = none
  /-- Nor was a target drawn in between. -/
  isClear_target : ∀ c, .draw c ∈ (run cs).events → c.id = Curve.targetId → c.isClear = true
  isSome_link? : ∀ origin path,
    ((run cs).state.link? origin path).isSome = (run cs).state.formal?.isSome
  link?_eq : ∀ origin path text, (run cs).state.formal? = some text →
    ∃ token, (run cs).state.link? origin path = some (origin ++ path ++ "?f=" ++ token) ∧
      Share.decode token = .ok text

/-- Whatever is done while a function is made, the history tells what came of it. -/
theorem reflects_run (cs : List Command) (earlier : List Event) : Reflects cs earlier := by
  constructor
  case formal?_eq =>
    rw [formal?, formal_run]
    cases (written cs).getLast? with
    | none => rfl
    | some text => cases htext : text.isEmpty <;> simp [Option.filter, htext]
  case created_eq => exact drawn?_createdId_run cs earlier
  case target_eq => exact drawn?_targetId_run cs earlier
  case isClear_target => exact fun c => isClear_of_draw_mem_run cs
  case isSome_link? => exact fun origin path => Option.isSome_map
  case link?_eq =>
    intro origin path text htext
    refine ⟨Share.encode text, ?_, Share.decode_encode_self text⟩
    rw [link?, htext, Option.map_some, Share.link]
    simp [Share.parameter, String.append_assoc]

/-- A text that is no formula is kept, but what is drawn is the formula before it. -/
example : (run [.clear, .update " 3*x ", .update "x+"]).state.formal? = some "x+" ∧
    drawn? Curve.createdId (run [.clear, .update " 3*x ", .update "x+"]).events =
      some (.created "3x") := by
  decide +kernel

end CurveGuess.Creator
