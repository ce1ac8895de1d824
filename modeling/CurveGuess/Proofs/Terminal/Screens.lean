import CurveGuess.Proofs.Session.Reload
import CurveGuess.Proofs.Share.Creating
import CurveGuess.Proofs.Terminal.Board
import CurveGuess.Proofs.Terminal.Runs

/-!
# What is drawn is what is on the screen

Three screens share a board. On the way to another screen, the preview or the function that is made
is removed from it, and then what comes is drawn over the target. So it holds what is on the screen
and nothing of the screens before, however often they were changed.
-/
namespace CurveGuess.Terminal

namespace Command

/-- The text of the preview after a command, given that of the one before. -/
def sketched (before : Option String) : Command → Option String
  | preview input | guess input => Session.sketch? input
  | newTarget => none
  | c => if c.tier?.isSome || c.screen?.isSome then none else before

theorem sketched_of_screen? {c : Command} {screen : Screen} (h : c.screen? = some screen)
    (before : Option String) : c.sketched before = none := by
  cases c with
  | setMode text => simp [sketched, h]
  | _ => cases h

theorem tier?_of_screen? {c : Command} {screen : Screen} (h : c.screen? = some screen) :
    c.tier? = none := by
  cases c with
  | setTier text => cases h
  | _ => rfl

variable {c : Command} (fresh : Seed)

theorem foldl_sketched_inSession (hc : c.screen? = none) (before : Option String) :
    (c.inSession fresh).foldl (fun before c => c.sketched before) before = c.sketched before := by
  cases c with
  | setMode text => simp [inSession, sketched, hc, tier?]
  | setTier text =>
    cases h : Tier.read text <;>
      simp [inSession, sketched, hc, tier?, h, Except.toOption, Session.Command.sketched,
        Session.Command.clears, Session.Command.previewText?]
  | preview input | guess input =>
    simp [inSession, sketched, Session.Command.sketched, Session.Command.clears,
      Session.Command.previewText?]
  | _ => rfl

theorem foldl_tier_inSession (tier : Tier) :
    (c.inSession fresh).foldl (fun tier c => c.tier tier) tier = c.tier?.getD tier := by
  cases c with
  | setTier text =>
    cases h : Tier.read text <;>
      simp [inSession, tier?, h, Except.toOption, Session.Command.tier]
  | _ => rfl

/-- Making a function is about the created curve only. -/
theorem subject?_inCreator (creator : Creator) (c : Command) :
    ∀ e ∈ Event.calls (c.inCreator creator).events, e.subject? = some Curve.createdId := by
  cases c with
  | preview input | guess input => exact creator.subject?_perform (.update input)
  | newTarget => exact creator.subject?_perform .clear
  | _ => simp [inCreator]

end Command

namespace Game

/-- A session is played in a mode: it is the last one of that mode, with the tier and on the date of
the game, and the board shows it. -/
structure Plays (g : Game) (m : Mode) (s : Session) (text? : Option String) : Prop where
  session?_eq : g.session? m = some s
  mode_eq : s.mode = m
  tier_eq : s.tier = g.tier m
  date_eq : m = .daily → s.date = some g.date
  isCurrent : s.IsCurrent
  shows : g.board.Shows s text?

/-- The screen shows what goes on there. -/
structure IsSound (g : Game) (text? : Option String) : Prop where
  playing : ∀ m, g.screen = .play m → ∃ s, g.Plays m s text?
  creating : g.screen = .create → g.board.HoldsOnly Curve.createdId

variable {g : Game} {m : Mode} {s : Session} {text? : Option String}

theorem Plays.active?_eq (h : g.Plays m s text?) (hscreen : g.screen = .play m) :
    g.active? = some s := by
  rw [active?, hscreen]
  exact h.session?_eq

theorem active?_eq_none (hscreen : g.screen = .create) : g.active? = none := by
  rw [active?, hscreen]

theorem Plays.isSound (h : g.Plays m s text?) (hscreen : g.screen = .play m) :
    g.IsSound text? := by
  constructor
  · intro m' hm'
    obtain rfl : m = m' := Screen.play.inj (hscreen.symm.trans hm')
    exact ⟨s, h⟩
  · intro hcreate
    rw [hscreen] at hcreate
    cases hcreate

theorem isSound_of_create (h : g.board.HoldsOnly Curve.createdId) (hscreen : g.screen = .create) :
    g.IsSound text? := by
  constructor
  · intro m hm
    rw [hscreen] at hm
    cases hm
  · exact fun _ => h

/-- A session that starts in a mode of the game is played there. -/
theorem plays_start (h : g.board.HoldsOnly Curve.targetId) {o : Session.Start}
    (htier : o.step.state.tier = g.tier o.mode)
    (hdate : o.mode = .daily → o.step.state.date = some g.date) :
    (g.play o.step).state.Plays o.mode o.step.state none := by
  have hsame := g.sameSettings_play o.step
  constructor
  · rw [← o.mode_step]
    exact g.session?_play o.step
  · exact o.mode_step
  · rw [htier, hsame.tier_eq]
  · rw [hsame.date_eq]
    exact hdate
  · exact Session.isCurrent_step o
  · exact h.start o

/-- On the way to another screen all but the target is removed. -/
theorem IsSound.leave (h : g.IsSound text?) : g.leave.state.board.HoldsOnly Curve.targetId := by
  cases hscreen : g.screen with
  | play m =>
    obtain ⟨s, hplays⟩ := h.playing m hscreen
    simp only [Game.leave, hplays.active?_eq hscreen]
    exact hplays.shows.clearPreview.holdsOnly
  | create =>
    simp only [Game.leave, active?_eq_none hscreen]
    exact .of_held_eq_nil (h.creating hscreen).held_draw_clear _

theorem IsSound.enter (h : g.IsSound text?) (screen : Screen) (fresh : Seed) :
    (g.enter screen fresh).state.IsSound none := by
  have hleave := h.leave
  let left : Game := { g.leave.state with screen := screen }
  have hscreen := (g.sameSettings_enter screen fresh).screen_eq
  cases screen with
  | play m =>
    obtain ⟨o, hopen, hmode, htier, hdate⟩ :=
      exists_start_openSession m (left.tier m) left.date fresh
    subst hmode
    have hstate : (g.enter (.play o.mode) fresh).state = (left.play o.step).state := by
      rw [← hopen]
      rfl
    rw [hstate] at hscreen ⊢
    exact (plays_start (g := left) hleave htier hdate).isSound hscreen
  | create =>
    have hcleared : (left.board.draw (.clear Curve.targetId)).state.HoldsOnly Curve.createdId :=
      .of_held_eq_nil hleave.held_draw_clear _
    have hcalls : ∀ e ∈ Event.calls [.draw (.clear Curve.createdId)],
        e.subject? = some Curve.createdId := by simp [Event.subject?, Curve.clear]
    exact isSound_of_create (hcleared.followAll hcalls) hscreen

/-- Commands that stay on the screen are for the session there. -/
theorem Plays.perform (h : g.Plays m s text?) (hscreen : g.screen = .play m) (fresh : Seed)
    {c : Command} (hc : c.screen? = none) :
    (g.perform fresh c).state.Plays m (s.run (c.inSession fresh)).state (c.sketched text?) := by
  obtain rfl := h.mode_eq
  obtain ⟨dailyTier, practiceTier, heq⟩ := g.exists_withTierOf_eq c
  have hplay := g.state_perform_of_active? (h.active?_eq hscreen) h.session?_eq fresh hc
  have hsame := (g.withTierOf c).sameSettings_play (s.run (c.inSession fresh))
  rw [hplay]
  constructor
  case session?_eq =>
    have hlast := (g.withTierOf c).session?_play (s.run (c.inSession fresh))
    rwa [Session.mode_run] at hlast
  case mode_eq => exact Session.mode_run _
  case tier_eq =>
    rw [Session.tier_run, Command.foldl_tier_inSession, hsame.tier_eq, tier_withTierOf, tierSet?,
      if_pos (.inl hscreen), h.tier_eq]
  case date_eq =>
    intro hm
    rw [Session.date_run, hsame.date_eq, h.date_eq hm, heq]
  case isCurrent => exact s.isCurrent_run _ h.isCurrent
  case shows =>
    rw [← Command.foldl_sketched_inSession fresh hc]
    simp only [play, heq]
    exact h.shows.run _

theorem IsSound.active?_isSome (h : g.IsSound text?) :
    g.active?.isSome ↔ ∃ m, g.screen = .play m := by
  cases hscreen : g.screen with
  | play m =>
    obtain ⟨s, hplays⟩ := h.playing m hscreen
    simp [hplays.active?_eq hscreen]
  | create => simp [active?_eq_none hscreen]

theorem IsSound.plays (h : g.IsSound text?) (hactive : g.active? = some s) :
    g.Plays s.mode s text? := by
  obtain ⟨m, hscreen⟩ := h.active?_isSome.mp (by simp [hactive])
  obtain ⟨s', hplays⟩ := h.playing m hscreen
  obtain rfl : s = s' := Option.some.inj (hactive.symm.trans (hplays.active?_eq hscreen))
  rwa [hplays.mode_eq]

/-- All that a command does to the settings. -/
theorem IsSound.sameSettings_perform (h : g.IsSound text?) (fresh : Seed) (c : Command) :
    { g.withTierOf c with screen := c.screen?.getD g.screen }.SameSettings
      (g.perform fresh c).state := by
  obtain ⟨dailyTier, practiceTier, heq⟩ := g.exists_withTierOf_eq c
  cases hc : c.screen? with
  | some screen =>
    rw [g.state_perform_of_screen? fresh hc, withTierOf, Command.tier?_of_screen? hc]
    exact g.sameSettings_enter screen fresh
  | none =>
    cases hactive : g.active? with
    | some s =>
      rw [g.state_perform_of_active? hactive (h.plays hactive).session?_eq fresh hc, heq]
      exact sameSettings_play _ _
    | none =>
      rw [g.state_perform_of_not_active? hactive fresh hc, heq]
      exact sameSettings_write _ _

theorem IsSound.perform (h : g.IsSound text?) (fresh : Seed) (c : Command) :
    (g.perform fresh c).state.IsSound (c.sketched text?) := by
  have hsame := h.sameSettings_perform fresh c
  cases hc : c.screen? with
  | some screen =>
    rw [g.state_perform_of_screen? fresh hc, Command.sketched_of_screen? hc]
    exact h.enter screen fresh
  | none =>
    rw [hc] at hsame
    cases hscreen : g.screen with
    | play m =>
      obtain ⟨s, hplays⟩ := h.playing m hscreen
      exact (hplays.perform hscreen fresh hc).isSound (hsame.screen_eq.trans hscreen)
    | create =>
      obtain ⟨dailyTier, practiceTier, heq⟩ := g.exists_withTierOf_eq c
      rw [g.state_perform_of_not_active? (active?_eq_none hscreen) fresh hc, heq]
      exact isSound_of_create
        ((h.creating hscreen).followAll (Command.subject?_inCreator g.creator c)) hscreen

theorem IsSound.after (h : g.IsSound text?) (lines : List (Seed × String)) :
    (g.after lines).IsSound
      (lines.foldl (fun before line => (Command.ofLine line.2).sketched before) text?) := by
  induction lines generalizing g text? with
  | nil => exact h
  | cons line lines ih =>
    rw [after_cons, List.foldl_cons, handle]
    exact ih (h.perform line.1 (.ofLine line.2))

theorem isSound_start {a : Arguments} {today : Date} {fresh : Seed} {step : Step Game String}
    (h : start a today fresh = .ok step) : step.state.IsSound none := by
  obtain ⟨o, hmode, htier, hstate⟩ | ⟨screen, hstate⟩ := start_cases h
  · let g : Game := { blank a today with screen := .play .practice }
    have hplays := plays_start (g := g) (o := o) (.of_held_eq_nil rfl _)
      (by rw [htier, hmode]; rfl) (fun hdaily => by rw [hmode] at hdaily; cases hdaily)
    rw [hstate]
    refine hplays.isSound ?_
    rw [(g.sameSettings_play o.step).screen_eq, hmode]
  · have hblank : (blank a today).IsSound none := isSound_of_create (.of_held_eq_nil rfl _) rfl
    rw [hstate]
    exact hblank.enter screen fresh

/-- What is drawn is what goes on on the screen. A preview is drawn with the given text. -/
structure DrawsScreen (g : Game) (text? : Option String) : Prop where
  active?_isSome : g.active?.isSome ↔ ∃ m, g.screen = .play m
  /-- Under no identifier two curves are drawn. -/
  holdsOnce : g.board.HoldsOnce
  created_not_held : ∀ m, g.screen = .play m → ∀ d ∈ g.board.held, d.curve.id ≠ Curve.createdId
  /-- The target is drawn if it is a formula. -/
  target_held_iff : ∀ s, g.active? = some s →
    ((∃ d ∈ g.board.held, d.curve.id = Curve.targetId) ↔
      ∃ f, Formula.read s.challenge.formal = .ok f)
  target_eq : ∀ s, g.active? = some s → ∀ d ∈ g.board.held, d.curve.id = Curve.targetId →
    d.curve = .target s.challenge.formal ∧ Formula.read s.challenge.formal = .ok d.formula
  /-- Beside the target there is only the preview that the session remembers. -/
  preview_held_iff : ∀ s, g.active? = some s → ∀ id, id ≠ Curve.targetId →
    ((∃ d ∈ g.board.held, d.curve.id = id) ↔ s.previewId = some id)
  preview_eq : ∀ s, g.active? = some s → ∀ d ∈ g.board.held, d.curve.id ≠ Curve.targetId →
    ∃ text, text? = some text ∧ d.curve = .preview d.curve.id text ∧
      Formula.read text = .ok d.formula
  created_eq : g.screen = .create → ∀ d ∈ g.board.held, d.curve.id = Curve.createdId

theorem IsSound.drawsScreen (h : g.IsSound text?) : g.DrawsScreen text? := by
  constructor
  case active?_isSome => exact h.active?_isSome
  case holdsOnce =>
    cases hscreen : g.screen with
    | play m =>
      obtain ⟨s, hplays⟩ := h.playing m hscreen
      exact hplays.shows.holdsOnce
    | create => exact (h.creating hscreen).holdsOnce
  case created_not_held =>
    intro m hscreen d hd
    have hne : Curve.targetId ≠ Curve.createdId := by decide
    obtain ⟨s, hplays⟩ := h.playing m hscreen
    obtain ⟨hcurve, -⟩ | ⟨n, text, -, -, hcurve, -⟩ := hplays.shows.cases hd
    · rw [hcurve]
      exact hne
    · rw [hcurve]
      exact s.mode.previewId_ne_createdId n
  case target_held_iff => exact fun s hactive => (h.plays hactive).shows.target_held_iff
  case target_eq =>
    intro s hactive d hd hid
    obtain htarget | ⟨n, text, -, -, hcurve, -⟩ := (h.plays hactive).shows.cases hd
    · exact htarget
    · rw [hcurve] at hid
      exact absurd hid (s.mode.previewId_ne_targetId n)
  case preview_held_iff =>
    exact fun s hactive id hid => (h.plays hactive).shows.preview_held_iff hid
  case preview_eq =>
    intro s hactive d hd hid
    obtain ⟨hcurve, -⟩ | ⟨n, text, -, htext, hcurve, hread⟩ := (h.plays hactive).shows.cases hd
    · exact absurd (congrArg Curve.id hcurve) hid
    · exact ⟨text, htext, by rw [hcurve]; rfl, hread⟩
  case created_eq => exact fun hscreen => (h.creating hscreen).id_eq

/-- The text of the preview that is drawn after some lines. -/
def drawnText? (lines : List (Seed × String)) : Option String :=
  lines.foldl (fun before line => (Command.ofLine line.2).sketched before) none

/-- However a game is started and whatever lines it answers, the board shows what goes on on the
screen and nothing else. -/
theorem drawsScreen_after {a : Arguments} {today : Date} {fresh : Seed} {step : Step Game String}
    (h : start a today fresh = .ok step) (lines : List (Seed × String)) :
    (step.state.after lines).DrawsScreen (drawnText? lines) :=
  ((isSound_start h).after lines).drawsScreen

/-- A function is made and then left for practice, where two others are tried. -/
def practiceLines : List (Seed × String) :=
  [(⟨1⟩, "x^2"), (⟨2⟩, ":mode practice"), (⟨3⟩, ":p x"), (⟨4⟩, ":p 3x")]

/-- The last of them is drawn beside the target. -/
theorem drawsScreen_after_practiceLines :
    ∃ step, start { Arguments.default with activity := .create } Session.leapDay ⟨0⟩ = .ok step ∧
      (step.state.after practiceLines).DrawsScreen (some "3x") ∧
      (step.state.after practiceLines).screen = .play .practice := by
  let a : Arguments := { Arguments.default with activity := .create }
  have hstart : start a Session.leapDay ⟨0⟩ =
      .ok ((blank a Session.leapDay).enter .create ⟨0⟩) := rfl
  have htext : drawnText? practiceLines = some "3x" := by decide +kernel
  refine ⟨_, hstart, ?_, by decide +kernel⟩
  rw [← htext]
  exact drawsScreen_after hstart practiceLines

end Game

end CurveGuess.Terminal
