import CurveGuess.Proofs.Grammar.Value
import CurveGuess.Proofs.Session.Previews
import CurveGuess.Terminal.Board

/-!
# What is on the board

The board holds at most one curve under an identifier, namely the one that was drawn there last, if
that is a formula and was not removed since. A board that follows a session shows its target and the
preview that it remembers, and nothing else.
-/
namespace CurveGuess

namespace Session

/-- The text of the preview that is drawn after a command, given that of the one before. -/
def Command.sketched (c : Command) (before : Option String) : Option String :=
  if c.clears then c.previewText? else before

theorem Command.isFormula_of_previewText? {c : Command} {text : String}
    (h : c.previewText? = some text) : ∃ f, Formula.read text = .ok f := by
  cases c with
  | preview input =>
    have hsketch : sketch? input = some text := h
    obtain ⟨rfl, hread⟩ := sketch?_eq_some hsketch
    exact hread
  | _ => cases h

theorem Command.previewText?_of_loads {c : Command} (h : c.loads = true) :
    c.previewText? = none := by
  cases c with
  | newTarget | setTier => rfl
  | _ => cases h

end Session

namespace Terminal

open Event

/-- What a curve is held as. A text that clears is no formula either. -/
def Drawn.ofCurve? (c : Curve) : Option Drawn :=
  (Formula.read c.expression).toOption.map (⟨c, ·⟩)

theorem Drawn.ofCurve?_eq_some {c : Curve} {d : Drawn} :
    ofCurve? c = some d ↔ d.curve = c ∧ Formula.read c.expression = .ok d.formula := by
  obtain ⟨curve, formula⟩ := d
  cases h : Formula.read c.expression <;> simp [ofCurve?, h, Except.toOption, and_comm, eq_comm]

theorem Drawn.ofCurve?_of_isClear {c : Curve} (h : c.isClear = true) : ofCurve? c = none := by
  rw [Curve.isClear, String.isEmpty_iff] at h
  cases hread : Formula.read c.expression with
  | error f => simp [ofCurve?, hread, Except.toOption]
  | ok f => exact absurd h (Formula.ne_empty_of_read hread)

namespace Board

section
variable (b : Board) (d : Drawn)

theorem mem_held_remove (id : String) :
    d ∈ (b.remove id).held ↔ d ∈ b.held ∧ d.curve.id ≠ id := by
  simp [remove]

theorem held_draw (c : Curve) :
    (b.draw c).state.held = (b.remove c.id).held ++ (Drawn.ofCurve? c).toList := by
  unfold draw
  dsimp only
  split
  · next h => simp [Drawn.ofCurve?_of_isClear h]
  · split
    · next h => simp [Drawn.ofCurve?, h, Except.toOption]
    · next h => simp [Drawn.ofCurve?, h, Except.toOption]

theorem mem_held_draw (c : Curve) : d ∈ (b.draw c).state.held ↔
    d ∈ b.held ∧ d.curve.id ≠ c.id ∨ Drawn.ofCurve? c = some d := by
  rw [held_draw, List.mem_append, mem_held_remove, Option.mem_toList]

/-- No two curves are held under one identifier. -/
def HoldsOnce : Prop := (b.held.map (·.curve.id)).Nodup

variable {b}

theorem HoldsOnce.remove (h : b.HoldsOnce) (id : String) : (b.remove id).HoldsOnce :=
  h.sublist (List.filter_sublist.map _)

theorem HoldsOnce.follow (h : b.HoldsOnce) (e : Event) : (b.follow e).state.HoldsOnce := by
  cases e with
  | remark note => exact h
  | remove id => exact h.remove id
  | draw c =>
    rw [HoldsOnce, Board.follow, held_draw, List.map_append, List.nodup_append]
    refine ⟨h.remove c.id, ?_, ?_⟩
    · cases Drawn.ofCurve? c <;> simp
    · intro id hid id' hid'
      obtain ⟨d, hd, rfl⟩ := List.mem_map.mp hid
      obtain ⟨d', hd', rfl⟩ := List.mem_map.mp hid'
      rw [Option.mem_toList, Drawn.ofCurve?_eq_some] at hd'
      rw [hd'.1]
      exact ((b.mem_held_remove d c.id).mp hd).2

end

section
variable {b : Board}

@[simp] theorem state_followAll_nil : (b.followAll []).state = b := rfl

@[simp] theorem state_followAll_cons (e : Event) (es : List Event) :
    (b.followAll (e :: es)).state = ((b.follow e).state.followAll es).state := rfl

@[simp] theorem state_followAll_append (es fs : List Event) :
    (b.followAll (es ++ fs)).state = ((b.followAll es).state.followAll fs).state := by
  induction es generalizing b with
  | nil => rfl
  | cons e es ih => rw [List.cons_append, state_followAll_cons, ih, state_followAll_cons]

/-- Remarks change nothing. -/
theorem state_followAll_calls (es : List Event) :
    (b.followAll (calls es)).state = (b.followAll es).state := by
  induction es generalizing b with
  | nil => rfl
  | cons e es ih =>
    cases e with
    | remark note => exact ih
    | draw c | remove id => exact ih

theorem HoldsOnce.followAll (h : b.HoldsOnce) (es : List Event) :
    (b.followAll es).state.HoldsOnce := by
  induction es generalizing b with
  | nil => exact h
  | cons e es ih => exact ih (h.follow e)

/-- At most one curve is on the board, and that under a given identifier. -/
structure HoldsOnly (b : Board) (id : String) : Prop where
  holdsOnce : b.HoldsOnce
  id_eq : ∀ d ∈ b.held, d.curve.id = id

theorem HoldsOnly.of_held_eq_nil (h : b.held = []) (id : String) : b.HoldsOnly id := by
  constructor
  · simp [HoldsOnce, h]
  · simp [h]

/-- Events about one identifier leave the board to it if nothing else was there. -/
theorem HoldsOnly.followAll {id : String} (h : b.HoldsOnly id) {es : List Event}
    (hes : ∀ e ∈ calls es, e.subject? = some id) : (b.followAll es).state.HoldsOnly id := by
  refine ⟨h.holdsOnce.followAll es, ?_⟩
  have hb := h.id_eq
  rw [← state_followAll_calls]
  generalize calls es = fs at hes
  clear h
  induction fs generalizing b with
  | nil => exact hb
  | cons e es ih =>
    obtain ⟨he, hes⟩ := List.forall_mem_cons.mp hes
    refine ih (fun d hd => ?_) hes
    cases e with
    | remark note => cases he
    | remove id' => exact hb d ((b.mem_held_remove d id').mp hd).1
    | draw c =>
      obtain ⟨hd, -⟩ | hd := (b.mem_held_draw d c).mp hd
      · exact hb d hd
      · rw [(Drawn.ofCurve?_eq_some.mp hd).1]
        exact Option.some.inj he

/-- Clearing the only identifier leaves nothing. -/
theorem HoldsOnly.held_draw_clear {id : String} (h : b.HoldsOnly id) :
    (b.draw (.clear id)).state.held = [] := by
  refine List.eq_nil_iff_forall_not_mem.mpr fun d hd => ?_
  obtain ⟨hd, hne⟩ | hd := (b.mem_held_draw d _).mp hd
  · exact hne (h.id_eq d hd)
  · rw [Drawn.ofCurve?_of_isClear rfl] at hd
    cases hd

end

/-- A board on which a session is drawn: its target, if that is a formula, and the preview that it
remembers. The text of the preview is not known to the session. -/
structure Shows (b : Board) (s : Session) (text? : Option String) : Prop where
  holdsOnce : b.HoldsOnce
  isSome_eq : s.previewId.isSome = text?.isSome
  id_eq : ∀ id, s.previewId = some id → ∃ n, id = s.mode.previewId n
  isFormula : ∀ text, text? = some text → ∃ f, Formula.read text = .ok f
  mem_held_iff : ∀ d, d ∈ b.held ↔
    Drawn.ofCurve? (.target s.challenge.formal) = some d ∨
      ∃ id text, s.previewId = some id ∧ text? = some text ∧
        Drawn.ofCurve? (.preview id text) = some d

section
variable {b : Board} {s s' : Session} {text? : Option String}

theorem Shows.congr (h : b.Shows s text?) (hmode : s'.mode = s.mode)
    (hformal : s'.challenge.formal = s.challenge.formal) (hid : s'.previewId = s.previewId) :
    b.Shows s' text? := by
  obtain ⟨honce, hsome, hids, hformula, hmem⟩ := h
  constructor
  · exact honce
  · rwa [hid]
  · rwa [hid, hmode]
  · exact hformula
  · rwa [hid, hformal]

/-- What is held is the target or the preview. -/
theorem Shows.cases (h : b.Shows s text?) {d : Drawn} (hd : d ∈ b.held) :
    d.curve = .target s.challenge.formal ∧ Formula.read s.challenge.formal = .ok d.formula ∨
      ∃ n text, s.previewId = some (s.mode.previewId n) ∧ text? = some text ∧
        d.curve = .preview (s.mode.previewId n) text ∧ Formula.read text = .ok d.formula := by
  obtain hd | ⟨id, text, hid, htext, hd⟩ := (h.mem_held_iff d).mp hd
  · exact .inl (Drawn.ofCurve?_eq_some.mp hd)
  · obtain ⟨n, rfl⟩ := h.id_eq id hid
    exact .inr ⟨n, text, hid, htext, Drawn.ofCurve?_eq_some.mp hd⟩

theorem Shows.target_held_iff (h : b.Shows s text?) :
    (∃ d ∈ b.held, d.curve.id = Curve.targetId) ↔
      ∃ f, Formula.read s.challenge.formal = .ok f := by
  constructor
  · rintro ⟨d, hd, hid⟩
    obtain ⟨-, hread⟩ | ⟨n, text, -, -, hcurve, -⟩ := h.cases hd
    · exact ⟨d.formula, hread⟩
    · rw [hcurve] at hid
      exact absurd hid (s.mode.previewId_ne_targetId n)
  · rintro ⟨f, hread⟩
    let d : Drawn := ⟨.target s.challenge.formal, f⟩
    exact ⟨d, (h.mem_held_iff d).mpr (.inl (Drawn.ofCurve?_eq_some.mpr ⟨rfl, hread⟩)), rfl⟩

theorem Shows.preview_held_iff (h : b.Shows s text?) {id : String} (hid : id ≠ Curve.targetId) :
    (∃ d ∈ b.held, d.curve.id = id) ↔ s.previewId = some id := by
  constructor
  · rintro ⟨d, hd, rfl⟩
    obtain ⟨hcurve, -⟩ | ⟨n, text, hid', -, hcurve, -⟩ := h.cases hd
    · exact absurd (congrArg Curve.id hcurve) hid
    · rw [hid', hcurve]
      rfl
  · intro hpreview
    have hsome := h.isSome_eq
    rw [hpreview, Option.isSome_some, eq_comm, Option.isSome_iff_exists] at hsome
    obtain ⟨text, htext⟩ := hsome
    obtain ⟨f, hread⟩ := h.isFormula text htext
    let d : Drawn := ⟨.preview id text, f⟩
    exact ⟨d, (h.mem_held_iff d).mpr
      (.inr ⟨id, text, hpreview, htext, Drawn.ofCurve?_eq_some.mpr ⟨rfl, hread⟩⟩), rfl⟩

/-- Without the preview only the target is left. -/
theorem Shows.clearPreview (h : b.Shows s text?) :
    (b.followAll s.removal).state.Shows { s with previewId := none } none := by
  refine ⟨h.holdsOnce.followAll _, rfl, by simp, by simp, fun d => ?_⟩
  cases hid : s.previewId with
  | none => simp [Session.removal, hid, h.mem_held_iff]
  | some id =>
    obtain ⟨n, rfl⟩ := h.id_eq id hid
    have hne := s.mode.previewId_ne_targetId n
    simp only [Session.removal, hid, Option.toList_some, List.map_cons, List.map_nil,
      state_followAll_cons, state_followAll_nil, Board.follow, mem_held_remove, h.mem_held_iff]
    constructor
    · rintro ⟨hd | ⟨id, text, hid, -, hd⟩, hother⟩
      · exact .inl hd
      · rw [(Drawn.ofCurve?_eq_some.mp hd).1] at hother
        exact absurd (Option.some.inj hid).symm hother
    · rintro (hd | ⟨id, text, hid, -⟩)
      · refine ⟨.inl hd, ?_⟩
        rw [(Drawn.ofCurve?_eq_some.mp hd).1]
        exact hne.symm
      · cases hid

theorem Shows.holdsOnly (h : b.Shows s none) : b.HoldsOnly Curve.targetId := by
  refine ⟨h.holdsOnce, fun d hd => ?_⟩
  obtain ⟨hcurve, -⟩ | ⟨n, text, -, htext, -⟩ := h.cases hd
  · exact congrArg Curve.id hcurve
  · cases htext

/-- A preview is drawn beside the target. -/
theorem Shows.drawPreview (h : b.Shows s none) (n : Nat) {text : String} {f : Formula}
    (hread : Formula.read text = .ok f) :
    (b.draw (.preview (s.mode.previewId n) text)).state.Shows
      { s with previewId := some (s.mode.previewId n) } (some text) := by
  refine ⟨h.holdsOnce.follow (.draw _), rfl, ?_, ?_, fun d => ?_⟩
  · rintro id ⟨⟩
    exact ⟨n, rfl⟩
  · rintro text ⟨⟩
    exact ⟨f, hread⟩
  · rw [mem_held_draw, h.mem_held_iff]
    constructor
    · rintro (⟨hd | ⟨_, _, -, htext, -⟩, -⟩ | hd)
      · exact .inl hd
      · cases htext
      · exact .inr ⟨_, text, rfl, rfl, hd⟩
    · rintro (hd | ⟨id, text, ⟨⟩, ⟨⟩, hd⟩)
      · refine .inl ⟨.inl hd, ?_⟩
        rw [(Drawn.ofCurve?_eq_some.mp hd).1]
        exact (s.mode.previewId_ne_targetId n).symm
      · exact .inr hd

/-- A target comes in place of the one before. -/
theorem HoldsOnly.drawTarget (h : b.HoldsOnly Curve.targetId) (hid : s.previewId = none) :
    (b.draw (.target s.challenge.formal)).state.Shows s none := by
  refine ⟨h.holdsOnce.follow (.draw _), by rw [hid], by simp [hid], by simp, fun d => ?_⟩
  rw [mem_held_draw]
  constructor
  · rintro (⟨hd, hne⟩ | hd)
    · exact absurd (h.id_eq d hd) hne
    · exact .inl hd
  · rintro (hd | ⟨id, text, -, htext, -⟩)
    · exact .inr hd
    · cases htext

/-- A session is shown as soon as it has started. -/
theorem HoldsOnly.start (h : b.HoldsOnly Curve.targetId) (o : Session.Start) :
    (b.followAll o.step.events).state.Shows o.step.state none := by
  rw [← state_followAll_calls, o.calls_step]
  exact h.drawTarget o.previewId_step

/-- The board goes along with every command. -/
theorem Shows.perform (h : b.Shows s text?) (c : Session.Command) :
    (b.followAll (s.perform c).events).state.Shows (s.perform c).state (c.sketched text?) := by
  rw [← state_followAll_calls, Session.calls_perform, Session.Command.sketched]
  have hid := s.previewId_perform c
  cases hclears : c.clears with
  | false =>
    obtain ⟨htext, hloads⟩ := Session.Command.quiet_of_not_clears hclears
    have hsame := s.sameTarget_perform hloads
    rw [hclears] at hid
    simpa [htext, hloads] using
      h.congr hsame.mode_eq (congrArg Challenge.formal hsame.challenge_eq) (by simpa using hid)
  | true =>
    have hcleared := h.clearPreview
    rw [hclears] at hid
    simp only [if_true, state_followAll_append] at hid ⊢
    cases hloads : c.loads with
    | true =>
      rw [Session.Command.previewText?_of_loads hloads] at hid ⊢
      exact hcleared.holdsOnly.drawTarget hid
    | false =>
      have hsame := s.sameTarget_perform hloads
      have hformal := congrArg Challenge.formal hsame.challenge_eq
      cases htext : c.previewText? with
      | none =>
        rw [htext] at hid
        exact hcleared.congr hsame.mode_eq hformal hid
      | some text =>
        rw [htext] at hid
        obtain ⟨f, hread⟩ := Session.Command.isFormula_of_previewText? htext
        exact (hcleared.drawPreview s.previews hread).congr hsame.mode_eq hformal hid

/-- The board goes along with a run. -/
theorem Shows.run (h : b.Shows s text?) (cs : List Session.Command) :
    (b.followAll (s.run cs).events).state.Shows (s.run cs).state
      (cs.foldl (fun before c => c.sketched before) text?) := by
  induction cs generalizing b s text? with
  | nil => exact h
  | cons c cs ih =>
    rw [Session.run_cons, state_followAll_append]
    exact ih (h.perform c)

end

end Board

end Terminal

end CurveGuess
