import CurveGuess.Proofs.Terminal.Screens

/-!
# The challenge of the day stands

Each mode has a tier of its own, which is set on the screens of that mode or where a function is
made, and which the session on the screen always has. The daily challenge is that of its tier and of
the date on which the game was started; nothing that is done in the game leads to another one.
-/
namespace CurveGuess.Terminal.Game

/-- The tiers that some lines set for a mode, one after the other. -/
def tiersSet (m : Mode) (g : Game) : List (Seed × String) → List Tier
  | [] => []
  | line :: lines =>
    (g.tierSet? m (.ofLine line.2)).toList ++ tiersSet m (g.handle line.1 line.2).state lines

section
variable {g : Game} {text? : Option String}

theorem IsSound.tier_perform (h : g.IsSound text?) (fresh : Seed) (c : Command) (m : Mode) :
    (g.perform fresh c).state.tier m = (g.tierSet? m c).getD (g.tier m) := by
  rw [(h.sameSettings_perform fresh c).tier_eq, ← tier_withTierOf]
  cases m <;> rfl

theorem IsSound.date_perform (h : g.IsSound text?) (fresh : Seed) (c : Command) :
    (g.perform fresh c).state.date = g.date := by
  obtain ⟨dailyTier, practiceTier, heq⟩ := g.exists_withTierOf_eq c
  rw [(h.sameSettings_perform fresh c).date_eq, heq]

/-- The tier of a mode is the last one that was set for it. -/
theorem IsSound.tier_after (h : g.IsSound text?) (m : Mode) (lines : List (Seed × String)) :
    (g.after lines).tier m = (g.tiersSet m lines).getLast?.getD (g.tier m) := by
  induction lines generalizing g text? with
  | nil => rfl
  | cons line lines ih =>
    rw [after_cons, handle, ih (h.perform line.1 (.ofLine line.2)), h.tier_perform, tiersSet,
      handle, List.getLast?_append]
    cases g.tierSet? m (.ofLine line.2) <;>
      cases (tiersSet m (g.perform line.1 (.ofLine line.2)).state lines).getLast? <;> rfl

theorem IsSound.date_after (h : g.IsSound text?) (lines : List (Seed × String)) :
    (g.after lines).date = g.date := by
  induction lines generalizing g text? with
  | nil => rfl
  | cons line lines ih =>
    rw [after_cons, handle, ih (h.perform line.1 (.ofLine line.2)), h.date_perform]

end

/-- A game starts with one tier for both modes, on the given date or else today. -/
theorem settings_start {a : Arguments} {today : Date} {fresh : Seed} {step : Step Game String}
    (h : start a today fresh = .ok step) :
    step.state.date = a.date.getD today ∧ ∀ m, step.state.tier m = a.tier := by
  have hsettings : ∀ screen g', { blank a today with screen := screen }.SameSettings g' →
      g'.date = a.date.getD today ∧ ∀ m, g'.tier m = a.tier := by
    intro screen g' hsame
    refine ⟨hsame.date_eq, fun m => (hsame.tier_eq m).trans ?_⟩
    cases m <;> rfl
  obtain ⟨o, -, -, hstate⟩ | ⟨screen, hstate⟩ := start_cases h
  · rw [hstate]
    exact hsettings _ _ (sameSettings_play _ o.step)
  · rw [hstate]
    exact hsettings _ _ ((blank a today).sameSettings_enter screen fresh)

/-- What is played after some lines in a game that was started with a tier and on a date. -/
structure ChallengeStands (g : Game) (tier : Tier) (date : Date) (lines : List (Seed × String)) :
    Prop where
  daily : (g.after lines).screen = .play .daily → ∃ s, (g.after lines).active? = some s ∧
    s.date = some date ∧ s.tier = (g.after lines).dailyTier ∧
    s.challenge.formal = Target.generate (g.after lines).dailyTier
      (Target.dailySeed date (g.after lines).dailyTier)
  practice : (g.after lines).screen = .play .practice → ∃ s, (g.after lines).active? = some s ∧
    s.tier = (g.after lines).practiceTier
  dailyTier_eq : (g.after lines).dailyTier = (g.tiersSet .daily lines).getLast?.getD tier
  practiceTier_eq : (g.after lines).practiceTier = (g.tiersSet .practice lines).getLast?.getD tier

/-- However a game is started and whatever lines it answers, the challenge of the day stands. -/
theorem challengeStands {a : Arguments} {today : Date} {fresh : Seed} {step : Step Game String}
    (h : start a today fresh = .ok step) (lines : List (Seed × String)) :
    step.state.ChallengeStands a.tier (a.date.getD today) lines := by
  have hstart := isSound_start h
  have hafter := hstart.after lines
  obtain ⟨hdate, htier⟩ := settings_start h
  constructor
  case daily =>
    intro hscreen
    obtain ⟨s, hplays⟩ := hafter.playing .daily hscreen
    have hsdate := hplays.date_eq rfl
    rw [hstart.date_after, hdate] at hsdate
    have hseed := hplays.isCurrent.seed_eq hplays.mode_eq _ hsdate
    have hformal := hplays.isCurrent.formal_eq _ hseed
    rw [hplays.tier_eq] at hformal
    exact ⟨s, hplays.active?_eq hscreen, hsdate, hplays.tier_eq, hformal⟩
  case practice =>
    intro hscreen
    obtain ⟨s, hplays⟩ := hafter.playing .practice hscreen
    exact ⟨s, hplays.active?_eq hscreen, hplays.tier_eq⟩
  case dailyTier_eq =>
    rw [← htier .daily]
    exact hstart.tier_after .daily lines
  case practiceTier_eq =>
    rw [← htier .practice]
    exact hstart.tier_after .practice lines

/-- The daily challenge with a visit to practice, and a tier that is set on either screen. -/
def visitLines : List (Seed × String) :=
  [(⟨1⟩, ":d hard"), (⟨2⟩, ":m practice"), (⟨3⟩, ":d medium"), (⟨4⟩, ":m daily")]

/-- After the visit the day has the tier that was set before. -/
theorem challengeStands_visit :
    ∃ step, start Arguments.default Session.leapDay ⟨0⟩ = .ok step ∧
      step.state.ChallengeStands .easy Session.leapDay visitLines ∧
      (step.state.after visitLines).screen = .play .daily ∧
      (step.state.after visitLines).dailyTier = .hard := by
  have hstart : start Arguments.default Session.leapDay ⟨0⟩ =
      .ok ((blank Arguments.default Session.leapDay).enter (.play .daily) ⟨0⟩) := rfl
  exact ⟨_, hstart, challengeStands hstart _, by decide +kernel, by decide +kernel⟩

end CurveGuess.Terminal.Game
