import CurveGuess.Session.Command

/-!
# What a session does

A command either loads a target, and then all counts are zero again, or it leaves the target alone.
Whatever is derived from the target is therefore derived from the target of the moment, after any
start and any commands.
-/
namespace CurveGuess.Session

/-- How a session begins: with the target of a day, of a seed, or with one that someone gave. -/
inductive Start where
  | daily (date : Date) (tier : Tier)
  | practice (tier : Tier) (seed : Seed)
  | given (mode : Mode) (tier : Tier) (formal : String)
  deriving DecidableEq, Repr

namespace Start

def step : Start → Step Session Unit
  | daily date tier => Session.daily date tier
  | practice tier seed => Session.practice tier seed
  | given mode tier formal => Session.ofTarget mode tier formal

/-- The session that some commands lead to. -/
def after (b : Start) (cs : List Command) : Session := (b.step.state.run cs).state

theorem after_append (b : Start) (cs ds : List Command) :
    b.after (cs ++ ds) = ((b.after cs).run ds).state :=
  state_run_append b.step.state cs ds

end Start

/-- What holds at the start and is kept by every command holds after all commands. -/
theorem Start.induction {P : Session → Prop} (hstart : ∀ b : Start, P b.step.state)
    (hstep : ∀ s c, P s → P (s.perform c).state) (b : Start) (cs : List Command) :
    P (b.after cs) := by
  suffices h : ∀ s, P s → P (s.run cs).state from h _ (hstart b)
  induction cs with
  | nil => exact fun s hs => hs
  | cons c cs ih => exact fun s hs => ih _ (hstep s c hs)

/-- Does the command load a target? -/
def Command.loads : Command → Bool
  | newTarget _ | setTier _ _ => true
  | _ => false

/-- The facts about the formula that was read are those about the text. -/
theorem facts_challenge (formal : String) :
    (Challenge.ofText formal).facts = Facts.ofText formal := by
  rw [Challenge.ofText, Formula.read, Facts.ofText]
  cases parse formal <;> rfl

variable (s : Session)

@[simp] theorem state_clearPreview : s.clearPreview.state = { s with previewId := none } := rfl

theorem state_loadSeed (seed : Seed) :
    (s.loadSeed seed).state =
      { s with
        seed := some seed
        challenge := .ofText (Target.generate s.tier seed)
        attempts := 0
        hints := 0
        score := 0
        previewId := none } := rfl

theorem nextSeed_of_daily {date : Date} (hmode : s.mode = .daily) (hdate : s.date = some date)
    (fresh : Seed) : s.nextSeed fresh = Target.dailySeed date s.tier := by
  simp [nextSeed, hmode, hdate]

/-- What is loaded comes from a seed, and in a daily session from that of the day. -/
theorem state_perform_of_loads {c : Command} (hc : c.loads = true) :
    ∃ tier seed, (s.perform c).state = ({ s with tier := tier }.loadSeed seed).state ∧
      (s.mode = .daily → ∀ date, s.date = some date → seed = Target.dailySeed date tier) := by
  cases c with
  | newTarget fresh =>
    exact ⟨s.tier, s.nextSeed fresh, rfl,
      fun hmode _ hdate => s.nextSeed_of_daily hmode hdate fresh⟩
  | setTier tier fresh =>
    let s' : Session := { s with tier := tier }
    exact ⟨tier, s'.nextSeed fresh, rfl,
      fun hmode _ hdate => s'.nextSeed_of_daily hmode hdate fresh⟩
  | _ => cases hc

/-- The counts are all zero, as they are when a target has just been loaded. -/
structure IsNew (s : Session) : Prop where
  attempts_eq : s.attempts = 0
  hints_eq : s.hints = 0
  score_eq : s.score = 0

theorem isNew_step (b : Start) : b.step.state.IsNew := by
  cases b <;> exact ⟨rfl, rfl, rfl⟩

theorem isNew_perform {c : Command} (hc : c.loads = true) : (s.perform c).state.IsNew := by
  obtain ⟨tier, seed, hstate, -⟩ := s.state_perform_of_loads hc
  rw [hstate]
  exact ⟨rfl, rfl, rfl⟩

/-- What becomes of a guess: blank ones change nothing, and all others are attempts, which earn the
points of their tier if they solve the target. -/
theorem submit_cases (input : String) :
    (trim input).isEmpty = true ∧ (s.submit input).state = s ∧ (s.submit input).reply = .empty ∨
    (trim input).isEmpty = false ∧
      ((s.submit input).state = { s with attempts := s.attempts + 1 } ∧
          ((s.submit input).reply = .close ∨ (s.submit input).reply = .notClose) ∨
        (s.submit input).state =
            { s with
              attempts := s.attempts + 1
              score := s.score + s.tier.score (s.attempts + 1) s.hints } ∧
          (s.submit input).reply = .success (s.tier.score (s.attempts + 1) s.hints)
            (s.score + s.tier.score (s.attempts + 1) s.hints) s.challenge.readable) := by
  unfold submit
  by_cases hblank : (trim input).isEmpty = true
  · simp [hblank]
  · refine .inr ⟨by simpa using hblank, ?_⟩
    simp only [if_neg hblank]
    split
    · exact .inl ⟨rfl, .inr rfl⟩
    · exact .inl ⟨rfl, .inr rfl⟩
    · unfold judge
      dsimp only
      split
      · exact .inr ⟨rfl, rfl⟩
      · exact .inl ⟨rfl, .inl rfl⟩
      · exact .inl ⟨rfl, .inr rfl⟩

theorem state_hint :
    s.hint.state = { s with hints := if s.hints < 2 then s.hints + 1 else s.hints } := by
  by_cases h : s.hints < 2 <;> simp [hint, Hint.limit, h]

/-- Previews are kept apart from all else. -/
theorem state_preview (input : String) :
    ∃ id n, (s.preview input).state = { s with previewId := id, previews := n } := by
  unfold preview
  dsimp only
  split
  · exact ⟨none, s.previews, rfl⟩
  · exact ⟨_, _, rfl⟩

/-- Two sessions with one target. -/
structure SameTarget (s s' : Session) : Prop where
  mode_eq : s'.mode = s.mode
  tier_eq : s'.tier = s.tier
  date_eq : s'.date = s.date
  seed_eq : s'.seed = s.seed
  challenge_eq : s'.challenge = s.challenge

theorem sameTarget_perform {c : Command} (hc : c.loads = false) :
    SameTarget s (s.perform c).state := by
  cases c with
  | submit input =>
    obtain ⟨-, h, -⟩ | ⟨-, ⟨h, -⟩ | ⟨h, -⟩⟩ := s.submit_cases input <;>
      constructor <;> simp [perform, h]
  | hint => constructor <;> simp [perform, state_hint]
  | preview input =>
    obtain ⟨id, n, h⟩ := s.state_preview input
    constructor <;> simp [perform, h]
  | clearPreview => constructor <;> simp [perform]
  | newTarget | setTier => cases hc

/-- Nothing that is derived in a session is out of date: what is shown and known of the target is
that of its text, the text is that of the seed, and the seed is that of the day. -/
structure IsCurrent (s : Session) : Prop where
  readable_eq : s.challenge.readable = Spelling.toReadable s.challenge.formal
  formula_eq : s.challenge.formula = (Formula.read s.challenge.formal).toOption
  facts_eq : s.challenge.facts = .ofText s.challenge.formal
  formal_eq : ∀ seed, s.seed = some seed → s.challenge.formal = Target.generate s.tier seed
  seed_eq : s.mode = .daily → ∀ date, s.date = some date →
    s.seed = some (Target.dailySeed date s.tier)

theorem SameTarget.isCurrent {s s' : Session} (h : SameTarget s s') (hs : s.IsCurrent) :
    s'.IsCurrent := by
  obtain ⟨hmode, htier, hdate, hseed, hchallenge⟩ := h
  constructor
  · rw [hchallenge, hs.readable_eq]
  · rw [hchallenge, hs.formula_eq]
  · rw [hchallenge, hs.facts_eq]
  · rw [hchallenge, htier, hseed]
    exact hs.formal_eq
  · rw [hmode, htier, hdate, hseed]
    exact hs.seed_eq

theorem isCurrent_loadSeed {seed : Seed}
    (h : s.mode = .daily → ∀ date, s.date = some date → seed = Target.dailySeed date s.tier) :
    (s.loadSeed seed).state.IsCurrent := by
  rw [state_loadSeed]
  refine ⟨rfl, rfl, facts_challenge _, ?_, ?_⟩
  · intro seed' hseed
    rw [← Option.some.inj hseed]
    rfl
  · intro hmode date hdate
    exact congrArg some (h hmode date hdate)

theorem isCurrent_step (b : Start) : b.step.state.IsCurrent := by
  cases b with
  | daily date tier =>
    refine isCurrent_loadSeed _ fun _ date' hdate => ?_
    rw [← Option.some.inj hdate]
    rfl
  | practice tier seed => exact isCurrent_loadSeed _ fun hmode => by cases hmode
  | given mode tier formal =>
    constructor
    · rfl
    · rfl
    · exact facts_challenge formal
    · intro seed hseed
      cases hseed
    · intro _ date hdate
      cases hdate

theorem isCurrent_perform (c : Command) (hs : s.IsCurrent) : (s.perform c).state.IsCurrent := by
  by_cases hc : c.loads = true
  · obtain ⟨tier, seed, hstate, hseed⟩ := s.state_perform_of_loads hc
    rw [hstate]
    exact isCurrent_loadSeed _ hseed
  · exact (s.sameTarget_perform (by simpa using hc)).isCurrent hs

theorem isCurrent_run (cs : List Command) (hs : s.IsCurrent) : (s.run cs).state.IsCurrent := by
  induction cs generalizing s with
  | nil => exact hs
  | cons c cs ih => exact ih _ (s.isCurrent_perform c hs)

/-- Whatever a session is started with and whatever is done in it, nothing in it is out of date. -/
theorem isCurrent_after (b : Start) (cs : List Command) : (b.after cs).IsCurrent :=
  Start.induction isCurrent_step isCurrent_perform b cs

end CurveGuess.Session
