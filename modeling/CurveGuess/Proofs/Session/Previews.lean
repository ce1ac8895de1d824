import CurveGuess.Proofs.Session.Runs
import Std.Data.String.ToNat

/-!
# Previews come and go

At most one preview is drawn at a time: it is removed before the next one is drawn, and before a new
target is. All that a session asks for beside its targets are therefore drawings and removals in
turn, numbered from zero, and the preview that it remembers is the one that is drawn.
-/
namespace CurveGuess

namespace Mode

variable (m : Mode)

theorem previewId_inj {n k : Nat} : m.previewId n = m.previewId k ↔ n = k := by
  rw [previewId, previewId, String.append_right_inj]
  exact Nat.repr_inj

/-- Previews are told from other curves by their first letter. -/
theorem previewId_ne {id : String} (hid : id.toList.head? ≠ m.previewStem.toList.head?) (n : Nat) :
    m.previewId n ≠ id := by
  rintro rfl
  refine hid ?_
  cases m <;> simp [previewId, previewStem]

theorem previewId_ne_targetId (n : Nat) : m.previewId n ≠ Curve.targetId :=
  m.previewId_ne (by cases m <;> decide) n

theorem previewId_ne_createdId (n : Nat) : m.previewId n ≠ Curve.createdId :=
  m.previewId_ne (by cases m <;> decide) n

end Mode

namespace Event

/-- The identifier of the curve that is drawn or removed. -/
def subject? : Event → Option String
  | draw c => some c.id
  | remove id => some id
  | remark _ => none

/-- The drawings and removals among some events. -/
def calls (events : List Event) : List Event := events.filter (·.subject?.isSome)

/-- The drawings and removals of other curves than the target. -/
def otherCalls (events : List Event) : List Event :=
  (calls events).filter (·.subject? ≠ some Curve.targetId)

theorem calls_append (es fs : List Event) : calls (es ++ fs) = calls es ++ calls fs := by
  simp only [calls, List.filter_append]

theorem otherCalls_append (es fs : List Event) :
    otherCalls (es ++ fs) = otherCalls es ++ otherCalls fs := by
  simp only [otherCalls, calls_append, List.filter_append]

@[simp] theorem calls_nil : calls [] = [] := rfl

@[simp] theorem calls_remark (n : Note) (es : List Event) : calls (.remark n :: es) = calls es :=
  rfl

@[simp] theorem calls_draw (c : Curve) (es : List Event) :
    calls (.draw c :: es) = .draw c :: calls es := rfl

@[simp] theorem calls_map_remove (ids : List String) :
    calls (ids.map .remove) = ids.map .remove := by
  induction ids with
  | nil => rfl
  | cons id ids ih => simp [calls, subject?]

theorem mem_otherCalls {e : Event} {es : List Event} :
    e ∈ otherCalls es ↔ e ∈ es ∧ ∃ id, e.subject? = some id ∧ id ≠ Curve.targetId := by
  rw [otherCalls, calls, List.mem_filter, List.mem_filter]
  cases e.subject? <;> simp

/-- The last event that is about an identifier. -/
def last? (id : String) (es : List Event) : Option Event :=
  es.reverse.find? (·.subject? = some id)

/-- The curve that some events leave drawn under an identifier. -/
def drawn? (id : String) (es : List Event) : Option Curve :=
  match last? id es with
  | some (draw c) => if c.isClear then none else some c
  | _ => none

@[simp] theorem last?_nil (id : String) : last? id [] = none := rfl

theorem last?_singleton (id : String) (e : Event) :
    last? id [e] = if e.subject? = some id then some e else none := by
  simp [last?]

theorem last?_append (id : String) (es fs : List Event) :
    last? id (es ++ fs) = (last? id fs).or (last? id es) := by
  simp [last?]

theorem last?_concat (id : String) (es : List Event) (e : Event) :
    last? id (es ++ [e]) = if e.subject? = some id then some e else last? id es := by
  rw [last?_append, last?_singleton]
  split <;> rfl

/-- Remarks are about no identifier. -/
theorem last?_calls (id : String) (es : List Event) : last? id (calls es) = last? id es := by
  rw [last?, calls, ← List.filter_reverse, List.find?_filter, last?]
  congr
  funext e
  cases e.subject? <;> simp

theorem drawn?_append_calls (id : String) (es fs : List Event) :
    drawn? id (es ++ calls fs) = drawn? id (es ++ fs) := by
  rw [drawn?, last?_append, last?_calls, ← last?_append, drawn?]

theorem drawn?_concat_draw (es : List Event) (c : Curve) :
    drawn? c.id (es ++ [.draw c]) = if c.isClear then none else some c := by
  rw [drawn?, last?_concat, subject?, if_pos rfl]

/-- What is about other curves leaves a curve as it is. -/
theorem drawn?_append_of_other {id : String} (es : List Event) {fs : List Event}
    (h : ∀ e ∈ calls fs, e.subject? ≠ some id) : drawn? id (es ++ fs) = drawn? id es := by
  have hnone : last? id fs = none := by
    rw [← last?_calls, last?, List.find?_eq_none]
    simpa using h
  rw [drawn?, last?_append, hnone, Option.none_or, drawn?]

end Event

namespace Session

open Event

/-- Does a command remove the preview that is drawn? -/
def Command.clears : Command → Bool
  | submit _ | hint => false
  | preview _ | clearPreview | newTarget _ | setTier _ _ => true

/-- What an input is in the formal spelling, if that is a formula. -/
def sketch? (input : String) : Option String :=
  let input := trim input
  let formal := Spelling.toFormal input
  if input.isEmpty || !(Formula.read formal).isOk then none else some formal

/-- The text that a command draws as a preview. -/
def Command.previewText? : Command → Option String
  | preview input => sketch? input
  | _ => none

/-- A command that leaves the preview alone draws nothing. -/
theorem Command.quiet_of_not_clears {c : Command} (h : c.clears = false) :
    c.previewText? = none ∧ c.loads = false := by
  cases c with
  | submit | hint => exact ⟨rfl, rfl⟩
  | _ => cases h

/-- The texts that some commands draw as previews. -/
def previewTexts (cs : List Command) : List String := cs.filterMap Command.previewText?

/-- Previews that are drawn and removed in turn, with numbers from `n`. -/
def turns (m : Mode) (n : Nat) : List String → List Event
  | [] => []
  | text :: texts =>
    .draw (.preview (m.previewId n) text) :: .remove (m.previewId n) :: turns m (n + 1) texts

/-- The removal of the preview that is drawn. -/
def removal (s : Session) : List Event := s.previewId.toList.map .remove

/-- What has to be asked for until some texts were drawn one after the other and removed. -/
def exchange (s : Session) (texts : List String) : List Event :=
  s.removal ++ turns s.mode s.previews texts

section
variable (s : Session)

theorem calls_submit (input : String) : calls (s.submit input).events = [] := by
  unfold submit
  dsimp only
  split
  · rfl
  · split
    · rfl
    · rfl
    · unfold judge
      dsimp only
      split <;> rfl

theorem calls_complaint (formal : String) : calls (complaint formal) = [] := by
  unfold complaint
  split <;> rfl

/-- The old preview goes before the new target comes. -/
theorem calls_load (formal : String) :
    calls (s.load formal).events = s.removal ++ [.draw (.target formal)] := by
  simp [load, clearPreview, calls_append, calls_complaint, removal]

theorem calls_loadSeed (seed : Seed) :
    calls (s.loadSeed seed).events =
      s.removal ++ [.draw (.target (s.loadSeed seed).state.challenge.formal)] :=
  s.calls_load _

theorem calls_perform_of_loads {c : Command} (hc : c.loads = true) :
    calls (s.perform c).events =
      s.removal ++ [.draw (.target (s.perform c).state.challenge.formal)] := by
  cases c with
  | newTarget fresh =>
    rw [perform, announced, Step.events_map, Step.state_map, newTarget, calls_loadSeed]
  | setTier tier fresh =>
    rw [perform, announced, Step.events_map, Step.state_map, setTier, newTarget, calls_loadSeed]
    rfl
  | _ => cases hc

theorem preview_eq (input : String) :
    s.preview input = (sketch? input).elim s.clearPreview fun text =>
      { state :=
          { s with previewId := some (s.mode.previewId s.previews), previews := s.previews + 1 }
        reply := ()
        events := s.removal ++ [.draw (.preview (s.mode.previewId s.previews) text)] } := by
  unfold preview sketch?
  dsimp only
  split <;> rfl

theorem calls_preview (input : String) :
    calls (s.preview input).events = s.removal ++
      (sketch? input).toList.map fun text =>
        .draw (.preview (s.mode.previewId s.previews) text) := by
  rw [preview_eq]
  cases sketch? input <;> simp [clearPreview, removal, calls_append]

/-- All that a command asks for. -/
theorem calls_perform (c : Command) :
    calls (s.perform c).events =
      (if c.clears then s.removal else []) ++
        (c.previewText?.toList.map fun text =>
          .draw (.preview (s.mode.previewId s.previews) text)) ++
        if c.loads then [.draw (.target (s.perform c).state.challenge.formal)] else [] := by
  cases c with
  | submit input =>
    rw [perform, Step.events_map, calls_submit]
    rfl
  | hint => rfl
  | preview input =>
    rw [perform, Step.events_map, calls_preview]
    simp [Command.clears, Command.previewText?, Command.loads]
  | clearPreview =>
    simp [perform, clearPreview, removal, Command.clears, Command.previewText?, Command.loads]
  | newTarget | setTier =>
    rw [calls_perform_of_loads s rfl]
    simp [Command.clears, Command.previewText?, Command.loads]

theorem previewId_perform (c : Command) :
    (s.perform c).state.previewId =
      if c.clears then c.previewText?.map fun _ => s.mode.previewId s.previews
      else s.previewId := by
  cases c with
  | submit input =>
    obtain ⟨-, h, -⟩ | ⟨-, ⟨h, -⟩ | ⟨h, -⟩⟩ := s.submit_cases input <;>
      simp [perform, Command.clears, h]
  | hint => simp [perform, Command.clears, state_hint]
  | preview input =>
    simp only [perform, Step.state_map, preview_eq, Command.clears, if_true, Command.previewText?]
    cases sketch? input <;> rfl
  | clearPreview | newTarget | setTier => rfl

theorem previews_perform (c : Command) :
    (s.perform c).state.previews = s.previews + c.previewText?.toList.length := by
  cases c with
  | submit input =>
    obtain ⟨-, h, -⟩ | ⟨-, ⟨h, -⟩ | ⟨h, -⟩⟩ := s.submit_cases input <;>
      simp [perform, Command.previewText?, h]
  | hint => simp [perform, Command.previewText?, state_hint]
  | preview input =>
    simp only [perform, Step.state_map, preview_eq, Command.previewText?]
    cases sketch? input <;> rfl
  | clearPreview | newTarget | setTier => rfl

theorem mode_perform (c : Command) : (s.perform c).state.mode = s.mode := by
  by_cases hc : c.loads = true
  · obtain ⟨tier, seed, h, -⟩ := s.state_perform_of_loads hc
    rw [h, state_loadSeed]
  · exact (s.sameTarget_perform (by simpa using hc)).mode_eq

/-- Only previews are drawn that are not mistaken for the target. -/
def KeepsApart (s : Session) : Prop := s.previewId ≠ some Curve.targetId

variable {s}

theorem KeepsApart.perform (hs : s.KeepsApart) (c : Command) : (s.perform c).state.KeepsApart := by
  rw [KeepsApart, previewId_perform]
  split
  · cases c.previewText? with
    | none => simp
    | some text => simpa using s.mode.previewId_ne_targetId s.previews
  · exact hs

theorem otherCalls_removal (hs : s.KeepsApart) :
    s.removal.filter (·.subject? ≠ some Curve.targetId) = s.removal := by
  unfold removal
  cases hid : s.previewId with
  | none => rfl
  | some id =>
    have hne : id ≠ Curve.targetId := fun h => hs (by rw [hid, h])
    simp [subject?, hne]

/-- A command takes the first step of an exchange, and the next command goes on with it. -/
theorem exchange_perform (hs : s.KeepsApart) (c : Command) (texts : List String) :
    otherCalls (s.perform c).events ++ exchange (s.perform c).state texts =
      exchange s (c.previewText?.toList ++ texts) := by
  have hne := s.mode.previewId_ne_targetId s.previews
  rw [exchange, exchange, removal, previewId_perform, previews_perform, mode_perform, otherCalls,
    calls_perform]
  cases hclears : c.clears with
  | false =>
    obtain ⟨htext, hload⟩ := Command.quiet_of_not_clears hclears
    simp [htext, hload, removal]
  | true =>
    simp only [if_true, List.filter_append, otherCalls_removal hs]
    cases c.previewText? <;> cases c.loads <;>
      simp [turns, subject?, Curve.preview, Curve.target, hne]

end

section
variable {s : Session}

/-- Together with the removal of what is drawn in the end, the calls of a run are all the turns of
the texts that were drawn in it. -/
theorem otherCalls_run (hs : s.KeepsApart) (cs : List Command) :
    otherCalls (s.run cs).events ++ (s.run cs).state.removal = exchange s (previewTexts cs) := by
  induction cs generalizing s with
  | nil => simp [exchange, previewTexts, turns, otherCalls]
  | cons c cs ih =>
    have hcons : previewTexts (c :: cs) = c.previewText?.toList ++ previewTexts cs := by
      rw [previewTexts, List.filterMap_cons]
      cases c.previewText? <;> rfl
    rw [run_cons, otherCalls_append, List.append_assoc, ih (hs.perform c), exchange_perform hs,
      hcons]

theorem mode_run (cs : List Command) : (s.run cs).state.mode = s.mode := by
  induction cs generalizing s with
  | nil => rfl
  | cons c cs ih => rw [run_cons, ih, mode_perform]

theorem previews_run (cs : List Command) :
    (s.run cs).state.previews = s.previews + (previewTexts cs).length := by
  induction cs generalizing s with
  | nil => rfl
  | cons c cs ih =>
    rw [run_cons, ih, previews_perform, previewTexts, previewTexts, List.filterMap_cons]
    cases c.previewText? <;> simp [Nat.add_assoc, Nat.add_comm 1]

end

section
variable {m : Mode} {n : Nat} {texts : List String}

theorem draw_mem_turns {k : Nat} {text : String} :
    .draw (.preview (m.previewId k) text) ∈ turns m n texts ↔
      ∃ i, k = n + i ∧ texts[i]? = some text := by
  induction texts generalizing n with
  | nil => simp [turns]
  | cons first texts ih =>
    simp only [turns, List.mem_cons, reduceCtorEq, false_or, Event.draw.injEq, Curve.preview,
      Curve.mk.injEq, Mode.previewId_inj, and_true] at ih ⊢
    rw [ih]
    constructor
    · rintro (⟨rfl, rfl⟩ | ⟨i, rfl, hi⟩)
      · exact ⟨0, rfl, rfl⟩
      · exact ⟨i + 1, by omega, hi⟩
    · rintro ⟨i, rfl, hi⟩
      cases i with
      | zero => exact .inl ⟨rfl, (Option.some.inj hi).symm⟩
      | succ i => exact .inr ⟨i, by omega, hi⟩

theorem remove_mem_turns {k : Nat} :
    .remove (m.previewId k) ∈ turns m n texts ↔ n ≤ k ∧ k < n + texts.length := by
  induction texts generalizing n with
  | nil => simp [turns]
  | cons first texts ih =>
    simp only [turns, List.mem_cons, reduceCtorEq, false_or, Event.remove.injEq,
      Mode.previewId_inj, ih, List.length_cons]
    omega

/-- What is drawn is removed, and nothing else is. -/
theorem exists_draw_mem_turns {k : Nat} :
    (∃ text, .draw (.preview (m.previewId k) text) ∈ turns m n texts) ↔
      .remove (m.previewId k) ∈ turns m n texts := by
  simp only [draw_mem_turns, remove_mem_turns]
  constructor
  · rintro ⟨text, i, rfl, hi⟩
    have hlt := (List.getElem?_eq_some_iff.mp hi).1
    omega
  · rintro ⟨hle, hlt⟩
    obtain ⟨i, rfl⟩ := Nat.exists_eq_add_of_le hle
    exact ⟨texts[i], i, rfl, List.getElem?_eq_getElem (by omega)⟩

/-- What is asked for in turns is the drawing or the removal of a preview. -/
theorem eq_of_mem_turns {e : Event} (h : e ∈ turns m n texts) :
    ∃ k, n ≤ k ∧ (e = .remove (m.previewId k) ∨
      ∃ text ∈ texts, e = .draw (.preview (m.previewId k) text)) := by
  induction texts generalizing n with
  | nil => cases h
  | cons first texts ih =>
    rw [turns, List.mem_cons, List.mem_cons] at h
    rcases h with rfl | rfl | h
    · exact ⟨n, Nat.le_refl n, .inr ⟨first, List.mem_cons_self, rfl⟩⟩
    · exact ⟨n, Nat.le_refl n, .inl rfl⟩
    · obtain ⟨k, hk, rfl | ⟨text, htext, rfl⟩⟩ := ih h
      · exact ⟨k, by omega, .inl rfl⟩
      · exact ⟨k, by omega, .inr ⟨text, List.mem_cons_of_mem _ htext, rfl⟩⟩

/-- No number is used twice. -/
theorem nodup_turns : (turns m n texts).Nodup := by
  induction texts generalizing n with
  | nil => exact List.nodup_nil
  | cons first texts ih =>
    rw [turns, List.nodup_cons, List.nodup_cons]
    refine ⟨?_, ?_, ih⟩
    · rw [List.mem_cons, not_or, draw_mem_turns]
      refine ⟨by simp, ?_⟩
      rintro ⟨i, hi, -⟩
      omega
    · rw [remove_mem_turns]
      omega

end

namespace Start

/-- The mode of a session that was started. -/
def mode : Start → Mode
  | daily _ _ => .daily
  | practice _ _ => .practice
  | given mode _ _ => mode

/-- A start and the commands after it. -/
def play (b : Start) (cs : List Command) : Step Session (List Reply) :=
  b.step.andThen fun s => s.run cs

theorem mode_step (b : Start) : b.step.state.mode = b.mode := by
  cases b <;> rfl

theorem previewId_step (b : Start) : b.step.state.previewId = none := by
  cases b <;> rfl

theorem previews_step (b : Start) : b.step.state.previews = 0 := by
  cases b <;> rfl

/-- A start draws its target and nothing else. -/
theorem calls_step (b : Start) :
    calls b.step.events = [.draw (.target b.step.state.challenge.formal)] := by
  cases b with
  | daily date tier => exact calls_loadSeed _ _
  | practice tier seed => exact calls_loadSeed _ _
  | given mode tier formal => exact calls_load _ _

theorem keepsApart_step (b : Start) : b.step.state.KeepsApart := by
  rw [KeepsApart, previewId_step]
  simp

theorem mode_after (b : Start) (cs : List Command) : (b.after cs).mode = b.mode :=
  (mode_run cs).trans b.mode_step

theorem previews_after (b : Start) (cs : List Command) :
    (b.after cs).previews = (previewTexts cs).length := by
  rw [after, previews_run, previews_step, Nat.zero_add]

/-- All previews of a run are drawn and removed in turn, the last one perhaps not yet removed. -/
theorem otherCalls_play (b : Start) (cs : List Command) :
    otherCalls (b.play cs).events ++ (b.after cs).removal =
      turns b.mode 0 (previewTexts cs) := by
  have hstart : otherCalls b.step.events = [] := by
    rw [otherCalls, calls_step]
    rfl
  have hrun := otherCalls_run b.keepsApart_step cs
  have hremoval : b.step.state.removal = [] := by rw [removal, previewId_step]; rfl
  rw [exchange, hremoval, previews_step, mode_step] at hrun
  rw [play, Step.andThen, otherCalls_append, hstart]
  exact hrun

end Start

theorem sketch?_eq_some {input text : String} (h : sketch? input = some text) :
    text = Spelling.toFormal (trim input) ∧
      ∃ f, Formula.read (Spelling.toFormal (trim input)) = .ok f := by
  unfold sketch? at h
  dsimp only at h
  split at h
  · cases h
  · next hdrawn =>
    refine ⟨(Option.some.inj h).symm, ?_⟩
    cases hread : Formula.read (Spelling.toFormal (trim input)) with
    | ok f => exact ⟨f, rfl⟩
    | error f => simp [hread, Except.isOk, Except.toBool] at hdrawn

theorem sketch?_eq_none {input : String}
    (h : (trim input).isEmpty = true ∨
      ∃ f, Formula.read (Spelling.toFormal (trim input)) = .error f) :
    sketch? input = none := by
  unfold sketch?
  rcases h with h | ⟨f, h⟩
  · simp [h]
  · simp [h, Except.isOk, Except.toBool]

/-- How previews come and go from a start through some commands, and with the next one. -/
structure PreviewsInTurn (b : Start) (cs : List Command) : Prop where
  /-- All calls about other curves than the target are turns from zero on. While a preview is drawn,
  the removal that ends the last turn is still to come. -/
  calls_eq : otherCalls (b.play cs).events =
    if (b.after cs).previewId.isSome then (turns b.mode 0 (previewTexts cs)).dropLast
    else turns b.mode 0 (previewTexts cs)
  /-- The session remembers what was drawn and not yet removed. -/
  previewId_iff : ∀ id, (b.after cs).previewId = some id ↔
    ∃ n, id = b.mode.previewId n ∧ (∃ text, .draw (.preview id text) ∈ (b.play cs).events) ∧
      .remove id ∉ (b.play cs).events
  text_eq : ∀ c, .draw c ∈ (b.play cs).events → c.id ≠ Curve.targetId →
    ∃ input n, .preview input ∈ cs ∧
      c = .preview (b.mode.previewId n) (Spelling.toFormal (trim input)) ∧
      ∃ f, Formula.read (Spelling.toFormal (trim input)) = .ok f
  preview_calls : ∀ input, calls ((b.after cs).preview input).events =
    (b.after cs).removal ++ (sketch? input).toList.map fun text =>
      .draw (.preview (b.mode.previewId (previewTexts cs).length) text)
  preview_isNone : ∀ input, (trim input).isEmpty = true ∨
      (∃ f, Formula.read (Spelling.toFormal (trim input)) = .error f) →
    ((b.after cs).preview input).state.previewId = none
  clearPreview_isNone : (b.after cs).clearPreview.state.previewId = none
  load_isNone : ∀ c : Command, c.loads = true → ((b.after cs).perform c).state.previewId = none
  start_isNone : b.step.state.previewId = none
  /-- A target is drawn after the preview that was there is removed. -/
  load_calls : ∀ c : Command, c.loads = true →
    calls ((b.after cs).perform c).events = (b.after cs).removal ++
      [.draw (.target ((b.after cs).perform c).state.challenge.formal)]
  start_calls : calls b.step.events = [.draw (.target b.step.state.challenge.formal)]

section
variable (b : Start) (cs : List Command)

theorem previewId_eq_some_iff (id : String) : (b.after cs).previewId = some id ↔
    ∃ n, id = b.mode.previewId n ∧ (∃ text, .draw (.preview id text) ∈ (b.play cs).events) ∧
      .remove id ∉ (b.play cs).events := by
  have hplay := b.otherCalls_play cs
  have hnodup : (turns b.mode 0 (previewTexts cs)).Nodup := nodup_turns
  have hother : ∀ {e : Event} {n : Nat}, e.subject? = some (b.mode.previewId n) →
      e ∈ (b.play cs).events → e ∈ otherCalls (b.play cs).events :=
    fun hsubject he => mem_otherCalls.mpr ⟨he, _, hsubject, b.mode.previewId_ne_targetId _⟩
  constructor
  · intro h
    rw [removal, h] at hplay
    have hlast : .remove id ∈ turns b.mode 0 (previewTexts cs) := by
      rw [← hplay]
      simp
    obtain ⟨n, -, hn | ⟨text, -, hn⟩⟩ := eq_of_mem_turns hlast
    · cases hn
      refine ⟨n, rfl, ?_, ?_⟩
      · obtain ⟨text, hdraw⟩ := exists_draw_mem_turns.mpr hlast
        rw [← hplay] at hdraw
        exact ⟨text, (mem_otherCalls.mp (by simpa using hdraw)).1⟩
      · intro hremove
        rw [← hplay, List.nodup_append] at hnodup
        exact hnodup.2.2 _ (hother rfl hremove) _ (by simp) rfl
    · cases hn
  · rintro ⟨n, rfl, ⟨text, hdraw⟩, hremove⟩
    have hlast : .remove (b.mode.previewId n) ∈ turns b.mode 0 (previewTexts cs) := by
      refine exists_draw_mem_turns.mp ⟨text, ?_⟩
      rw [← hplay]
      exact List.mem_append_left _ (hother (n := n) rfl hdraw)
    rw [← hplay, List.mem_append] at hlast
    rcases hlast with hlast | hlast
    · exact absurd (mem_otherCalls.mp hlast).1 hremove
    · simpa [removal] using hlast

/-- Whatever a session is started with and whatever is done in it, its previews come in turn. -/
theorem previewsInTurn : PreviewsInTurn b cs := by
  have hplay := b.otherCalls_play cs
  constructor
  case calls_eq =>
    rw [← hplay, removal]
    cases (b.after cs).previewId <;> simp
  case previewId_iff => exact previewId_eq_some_iff b cs
  case text_eq =>
    intro c hc hid
    have hmem := List.mem_append_left (b.after cs).removal
      (mem_otherCalls.mpr ⟨hc, c.id, rfl, hid⟩)
    rw [hplay] at hmem
    obtain ⟨n, -, hn | ⟨text, htext, hn⟩⟩ := eq_of_mem_turns hmem
    · cases hn
    · obtain ⟨d, hd, hsketch⟩ := List.mem_filterMap.mp htext
      cases d with
      | preview input =>
        have hsketch : sketch? input = some text := hsketch
        obtain ⟨rfl, hread⟩ := sketch?_eq_some hsketch
        exact ⟨input, n, hd, Event.draw.inj hn, hread⟩
      | _ => cases hsketch
  case preview_calls =>
    intro input
    rw [calls_preview, b.mode_after, b.previews_after]
  case preview_isNone =>
    intro input h
    rw [preview_eq, sketch?_eq_none h]
    rfl
  case clearPreview_isNone => rfl
  case load_isNone =>
    intro c hc
    obtain ⟨tier, seed, hstate, -⟩ := (b.after cs).state_perform_of_loads hc
    rw [hstate, state_loadSeed]
  case start_isNone => exact b.previewId_step
  case load_calls => exact fun c hc => calls_perform_of_loads _ hc
  case start_calls => exact b.calls_step

end

end Session

end CurveGuess
