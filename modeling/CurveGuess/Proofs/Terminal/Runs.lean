import CurveGuess.Proofs.Session.Previews
import CurveGuess.Terminal.Program

/-!
# What a game does

A line of input goes to another screen, or it is about what is on the screen: then it stands for
commands to the session there or, if there is none, for a step in making a function. Besides, it may
set a tier. Nothing else in a game ever changes.
-/
namespace CurveGuess.Terminal

namespace Command

/-- The screen that a command goes to. -/
def screen? : Command → Option Screen
  | setMode "daily" => some (.play .daily)
  | setMode "practice" => some (.play .practice)
  | setMode "create" => some .create
  | _ => none

/-- The tier that a command sets. -/
def tier? : Command → Option Tier
  | setTier text => (Tier.read text).toOption
  | _ => none

/-- What a command stands for in a session. -/
def inSession (fresh : Seed) : Command → List Session.Command
  | hint => [.hint]
  | preview input => [.preview input]
  | guess input => [.preview input, .submit input]
  | newTarget => [.newTarget fresh]
  | setTier text => (Tier.read text).toOption.toList.map (.setTier · fresh)
  | _ => []

/-- What a command stands for where a function is made. -/
def inCreator (creator : Creator) : Command → Step Creator Unit
  | preview input | guess input => creator.update input
  | newTarget => Creator.clear
  | _ => ⟨creator, (), []⟩

end Command

namespace Game

variable {A : Type}

/-- Two games with one screen, one date and the same tiers. -/
structure SameSettings (g h : Game) : Prop where
  screen_eq : h.screen = g.screen
  date_eq : h.date = g.date
  tier_eq : ∀ m, h.tier m = g.tier m

theorem SameSettings.trans {g h k : Game} (hgh : g.SameSettings h) (hhk : h.SameSettings k) :
    g.SameSettings k :=
  ⟨hhk.screen_eq.trans hgh.screen_eq, hhk.date_eq.trans hgh.date_eq,
    fun m => (hhk.tier_eq m).trans (hgh.tier_eq m)⟩

section
variable (g : Game)

theorem sameSettings_keep (s : Session) : g.SameSettings (g.keep s) := by
  unfold keep
  cases s.mode <;> exact ⟨rfl, rfl, fun m => by cases m <;> rfl⟩

theorem sameSettings_play (step : Step Session A) : g.SameSettings (g.play step).state :=
  have h := g.sameSettings_keep step.state
  ⟨h.screen_eq, h.date_eq, h.tier_eq⟩

theorem sameSettings_write (step : Step Creator A) : g.SameSettings (g.write step).state :=
  ⟨rfl, rfl, fun _ => rfl⟩

theorem sameSettings_leave : g.SameSettings g.leave.state := by
  unfold leave
  split
  · exact g.sameSettings_play _
  · exact g.sameSettings_write _

theorem session?_keep (s : Session) : (g.keep s).session? s.mode = some s := by
  unfold keep
  cases h : s.mode <;> rfl

theorem session?_play (step : Step Session A) :
    (g.play step).state.session? step.state.mode = some step.state :=
  g.session?_keep step.state

variable {g} in
theorem keep_eq_self {s : Session} (h : g.session? s.mode = some s) : g.keep s = g := by
  obtain ⟨board, dailyTier, practiceTier, date, origin, screen, daily, practice, creator⟩ := g
  unfold keep
  cases hmode : s.mode with
  | daily | practice =>
    rw [hmode] at h
    simp only [session?] at h
    simp only [h]

/-- Tiers are all that is set. -/
theorem exists_withTier_eq (tier : Tier) : ∃ dailyTier practiceTier,
    g.withTier tier = { g with dailyTier := dailyTier, practiceTier := practiceTier } := by
  unfold withTier
  split <;> exact ⟨_, _, rfl⟩

theorem active?_withTier (tier : Tier) : (g.withTier tier).active? = g.active? := by
  obtain ⟨daily, practice, h⟩ := g.exists_withTier_eq tier
  rw [h]
  rfl

/-- Where a function is made, tiers are set for both modes. -/
theorem tier_withTier (tier : Tier) (m : Mode) : (g.withTier tier).tier m =
    if g.screen = .play m ∨ g.screen = .create then tier else g.tier m := by
  unfold withTier
  cases hscreen : g.screen with
  | create => cases m <;> simp [Game.tier]
  | play mode => cases mode <;> cases m <;> simp [Game.tier]

/-- The game with the tier that a command sets. -/
def withTierOf (c : Command) : Game := c.tier?.elim g g.withTier

theorem exists_withTierOf_eq (c : Command) : ∃ dailyTier practiceTier,
    g.withTierOf c = { g with dailyTier := dailyTier, practiceTier := practiceTier } := by
  unfold withTierOf
  cases c.tier? with
  | none => exact ⟨g.dailyTier, g.practiceTier, rfl⟩
  | some tier => exact g.exists_withTier_eq tier

/-- The tier that a command sets for a mode. -/
def tierSet? (m : Mode) (c : Command) : Option Tier :=
  if g.screen = .play m ∨ g.screen = .create then c.tier? else none

theorem tier_withTierOf (c : Command) (m : Mode) :
    (g.withTierOf c).tier m = (g.tierSet? m c).getD (g.tier m) := by
  unfold withTierOf tierSet?
  cases c.tier? with
  | none => simp
  | some tier =>
    rw [Option.elim, tier_withTier]
    split <;> rfl

/-- What is answered makes no difference to the game. -/
theorem state_play_congr {B : Type} {step : Step Session A} {step' : Step Session B}
    (hstate : step.state = step'.state) (hevents : step.events = step'.events) :
    (g.play step).state = (g.play step').state := by
  simp only [play, hstate, hevents]

variable {g} in
/-- While playing, a command is for the session on the screen. -/
theorem state_perform_of_active? {s : Session} (hactive : g.active? = some s)
    (hs : g.session? s.mode = some s) (fresh : Seed) {c : Command} (hc : c.screen? = none) :
    (g.perform fresh c).state = ((g.withTierOf c).play (s.run (c.inSession fresh))).state := by
  have hstay : (g.play (s.run [])).state = g := by
    simp only [play, Session.run_nil, keep_eq_self hs]
    rfl
  cases c with
  | quit | help | plot | status | share | unknown => exact hstay.symm
  | hint | preview | newTarget | guess =>
    simp only [perform, hint, preview, newTarget, guess, hactive, Step.state_map]
    refine g.state_play_congr ?_ ?_ <;>
      simp [Command.inSession, Session.perform, Session.announced, Step.andThen]
  | setTier text =>
    simp only [perform, setTier, Step.state_map]
    cases hread : Tier.read text with
    | error f =>
      simp only [withTierOf, Command.tier?, Command.inSession, hread]
      exact hstay.symm
    | ok tier =>
      simp only [active?_withTier, hactive, withTierOf, Command.tier?, Command.inSession, hread]
      exact (g.withTier tier).state_play_congr rfl (List.append_nil _).symm
  | setMode text =>
    simp only [perform, setMode, Step.state_map]
    split
    · cases hc
    · cases hc
    · cases hc
    · exact hstay.symm

variable {g} in
/-- Where a function is made, a command is for that. -/
theorem state_perform_of_not_active? (hactive : g.active? = none) (fresh : Seed) {c : Command}
    (hc : c.screen? = none) :
    (g.perform fresh c).state = ((g.withTierOf c).write (c.inCreator g.creator)).state := by
  cases c with
  | quit | help | plot | status | share | unknown => rfl
  | hint => simp only [perform, hint, hactive, Step.state_map]; rfl
  | preview | guess =>
    simp only [perform, preview, guess, hactive, Step.state_map]
    rfl
  | newTarget =>
    simp only [perform, newTarget, hactive, Step.state_map]
    rfl
  | setTier text =>
    simp only [perform, setTier, Step.state_map]
    cases hread : Tier.read text with
    | error f =>
      simp only [withTierOf, Command.tier?, Command.inCreator, hread]
      rfl
    | ok tier =>
      simp only [active?_withTier, hactive, withTierOf, Command.tier?, Command.inCreator, hread]
      obtain ⟨daily, practice, h⟩ := g.exists_withTier_eq tier
      simp only [Except.toOption, Option.elim, h]
      rfl
  | setMode text =>
    simp only [perform, setMode, Step.state_map]
    split
    · cases hc
    · cases hc
    · cases hc
    · rfl

theorem state_perform_of_screen? (fresh : Seed) {c : Command} {screen : Screen}
    (hc : c.screen? = some screen) : (g.perform fresh c).state = (g.enter screen fresh).state := by
  unfold Command.screen? at hc
  split at hc
  · obtain rfl := Option.some.inj hc
    rw [perform, Step.state_map, setMode]
  · obtain rfl := Option.some.inj hc
    rw [perform, Step.state_map, setMode]
  · obtain rfl := Option.some.inj hc
    rw [perform, Step.state_map, setMode]
  · cases hc

theorem sameSettings_enter (screen : Screen) (fresh : Seed) :
    { g with screen := screen }.SameSettings (g.enter screen fresh).state := by
  have hleave := g.sameSettings_leave
  let left : Game := { g.leave.state with screen := screen }
  have hleft : { g with screen := screen }.SameSettings left :=
    ⟨rfl, hleave.date_eq, hleave.tier_eq⟩
  cases screen with
  | create => exact hleft.trans (left.sameSettings_write _)
  | play m => exact hleft.trans (left.sameSettings_play _)

/-- A session that is opened is the start of a session of its mode, in the given tier. -/
theorem exists_start_openSession (m : Mode) (tier : Tier) (date : Date) (fresh : Seed) :
    ∃ o : Session.Start, openSession m tier date fresh = o.step ∧ o.mode = m ∧
      o.step.state.tier = tier ∧ (m = .daily → o.step.state.date = some date) := by
  cases m with
  | daily => exact ⟨.daily date tier, rfl, rfl, rfl, fun _ => rfl⟩
  | practice => exact ⟨.practice tier fresh, rfl, rfl, rfl, fun h => by cases h⟩

/-- A game starts with a session of practice that is made for it, or on one of the screens. -/
theorem start_cases {a : Arguments} {today : Date} {fresh : Seed} {step : Step Game String}
    (h : start a today fresh = .ok step) :
    (∃ o : Session.Start, o.mode = .practice ∧ o.step.state.tier = a.tier ∧
        step.state = ((blank a today).startPractice o.step).state) ∨
      ∃ screen, step.state = ((blank a today).enter screen fresh).state := by
  unfold start at h
  dsimp only at h
  split at h
  · split at h
    · cases h
    · next formal _ =>
      cases h
      exact .inl ⟨.given .practice a.tier formal, rfl, rfl, rfl⟩
  · next seed _ _ _ =>
    cases h
    exact .inl ⟨.practice a.tier seed, rfl, rfl, rfl⟩
  all_goals
    cases h
    exact .inr ⟨_, rfl⟩

/-- The game after some lines, each of which comes with a fresh seed. -/
def after (lines : List (Seed × String)) : Game :=
  lines.foldl (fun g line => (g.handle line.1 line.2).state) g

@[simp] theorem after_nil : g.after [] = g := rfl

@[simp] theorem after_cons (line : Seed × String) (lines : List (Seed × String)) :
    g.after (line :: lines) = (g.handle line.1 line.2).state.after lines := by
  simp only [after, List.foldl_cons]

/-- Until a line ends the game, answering lines is going through them. -/
theorem exists_state_handleAll (lines : List (Seed × String)) :
    ∃ k, (g.handleAll lines).state = g.after (lines.take k) := by
  induction lines generalizing g with
  | nil => exact ⟨0, rfl⟩
  | cons line lines ih =>
    simp only [handleAll]
    split
    · refine ⟨1, ?_⟩
      rw [List.take_succ_cons, List.take_zero, after_cons, after_nil]
    · obtain ⟨k, hk⟩ := ih (g.handle line.1 line.2).state
      refine ⟨k + 1, ?_⟩
      rw [List.take_succ_cons, after_cons, ← hk, Step.andThen, Step.state_map]

end

end Game

end CurveGuess.Terminal
