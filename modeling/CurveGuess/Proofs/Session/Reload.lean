import CurveGuess.Proofs.Session.Previews
import Mathlib.Data.List.Forall2

/-!
# Nothing is left of earlier games

When a daily session loads a target, all that is left of what was done in it is the number of the
next preview. Two sessions of one day that load a target of one tier therefore answer alike from
then on, and ask for the same curves but for a constant shift of these numbers. Fresh seeds make no
difference in a daily session, so the two may be given different ones.
-/
namespace CurveGuess.Session

/-- Is this the session of a date? -/
def IsDaily (s : Session) (date : Date) : Prop := s.mode = .daily ∧ s.date = some date

/-- The command without the fresh seed that it brings along. -/
def Command.seedless : Command → Command
  | newTarget _ => newTarget ⟨0⟩
  | setTier tier _ => setTier tier ⟨0⟩
  | c => c

section
variable {s : Session} {date : Date}

theorem perform_seedless (hs : s.IsDaily date) (c : Command) :
    s.perform c.seedless = s.perform c := by
  cases c with
  | newTarget fresh =>
    simp only [Command.seedless, perform, newTarget, s.nextSeed_of_daily hs.1 hs.2]
  | setTier tier fresh =>
    simp only [Command.seedless, perform, setTier, newTarget,
      nextSeed_of_daily { s with tier := tier } hs.1 hs.2]
  | _ => rfl

theorem date_perform (c : Command) : (s.perform c).state.date = s.date := by
  by_cases hc : c.loads = true
  · obtain ⟨tier, seed, h, -⟩ := s.state_perform_of_loads hc
    rw [h, state_loadSeed]
  · exact (s.sameTarget_perform (by simpa using hc)).date_eq

theorem date_run (cs : List Command) : (s.run cs).state.date = s.date := by
  induction cs generalizing s with
  | nil => rfl
  | cons c cs ih => rw [run_cons, ih, date_perform]

theorem IsDaily.perform (hs : s.IsDaily date) (c : Command) : (s.perform c).state.IsDaily date :=
  ⟨(s.mode_perform c).trans hs.1, (date_perform c).trans hs.2⟩

theorem run_seedless (hs : s.IsDaily date) (cs : List Command) :
    s.run (cs.map Command.seedless) = s.run cs := by
  induction cs generalizing s with
  | nil => rfl
  | cons c cs ih => rw [List.map_cons, run_cons, run_cons, perform_seedless hs, ih (hs.perform c)]

theorem isDaily_after (date : Date) (tier : Tier) (cs : List Command) :
    ((Start.daily date tier).after cs).IsDaily date := by
  have hrun : ∀ s : Session, s.IsDaily date → (s.run cs).state.IsDaily date := by
    induction cs with
    | nil => exact fun s hs => hs
    | cons c cs ih => exact fun s hs => ih _ (hs.perform c)
  exact hrun _ ⟨rfl, rfl⟩

end

/-- The session with other previews. -/
def withPreviews (s : Session) (id : Option String) (n : Nat) : Session :=
  { s with previewId := id, previews := n }

section
variable (s : Session) (id : Option String) (n : Nat)

theorem judge_withPreviews (formal : String) (tally : Tally) :
    (s.withPreviews id n).judge formal tally =
      ⟨(s.judge formal tally).state.withPreviews id n, (s.judge formal tally).reply,
        (s.judge formal tally).events⟩ := by
  unfold judge
  dsimp only
  cases tally.outcome Sampling.standard <;> rfl

theorem submit_withPreviews (input : String) :
    (s.withPreviews id n).submit input =
      ⟨(s.submit input).state.withPreviews id n, (s.submit input).reply,
        (s.submit input).events⟩ := by
  let attempted : Session := { s with attempts := s.attempts + 1 }
  have hformula : (s.withPreviews id n).challenge.formula = s.challenge.formula := rfl
  unfold submit
  by_cases hblank : (trim input).isEmpty = true
  · simp only [if_pos hblank]
  · simp only [if_neg hblank, hformula]
    cases Formula.read (Spelling.toFormal (trim input)) with
    | error f => rfl
    | ok guess =>
      cases s.challenge.formula with
      | none => rfl
      | some target => exact attempted.judge_withPreviews id n _ _

theorem hint_withPreviews :
    (s.withPreviews id n).hint =
      ⟨s.hint.state.withPreviews id n, s.hint.reply, s.hint.events⟩ := by
  by_cases h : s.hints < Hint.limit <;> simp [hint, withPreviews, h]

end

/-- The tier after the command. -/
def Command.tier : Command → Tier → Tier
  | setTier tier _, _ => tier
  | _, tier => tier

theorem tier_perform (s : Session) (c : Command) : (s.perform c).state.tier = c.tier s.tier := by
  cases c with
  | newTarget fresh | setTier tier fresh =>
    rw [perform, announced, Step.state_map]
    simp only [newTarget, setTier, state_loadSeed, Command.tier]
  | _ => exact (s.sameTarget_perform rfl).tier_eq

theorem tier_run (s : Session) (cs : List Command) :
    (s.run cs).state.tier = cs.foldl (fun tier c => c.tier tier) s.tier := by
  induction cs generalizing s with
  | nil => rfl
  | cons c cs ih => rw [run_cons, List.foldl_cons, ← tier_perform, ih]

/-- A session that loads a target is as one that has just been started, but for the number of the
next preview. -/
theorem state_reload {s : Session} {date : Date} (hs : s.IsDaily date) {c : Command}
    (hc : c.loads = true) :
    (s.perform c).state =
      (daily date (s.perform c).state.tier).state.withPreviews none s.previews := by
  obtain ⟨tier, seed, hstate, hseed⟩ := s.state_perform_of_loads hc
  obtain ⟨hmode, hdate⟩ := hs
  rw [hstate, hseed hmode date hdate, state_loadSeed]
  simp only [daily, state_loadSeed, blank, withPreviews, hmode, hdate]

/-- Two events that are the same, but that previews are counted from `k` in the one and from `k'` in
the other. -/
inductive Shifted (m : Mode) (k k' : Nat) : Event → Event → Prop
  | remark (note : Note) : Shifted m k k' (.remark note) (.remark note)
  | target (formal : String) :
    Shifted m k k' (.draw (.target formal)) (.draw (.target formal))
  | preview (i : Nat) (text : String) :
    Shifted m k k' (.draw (.preview (m.previewId (k + i)) text))
      (.draw (.preview (m.previewId (k' + i)) text))
  | removal (i : Nat) :
    Shifted m k k' (.remove (m.previewId (k + i))) (.remove (m.previewId (k' + i)))

/-- The session with previews that are counted from `k`: the next one has the number `n`, and the
one that is drawn the number `drawn`. -/
def numbered (s : Session) (k : Nat) (drawn : Option Nat) (n : Nat) : Session :=
  s.withPreviews (drawn.map fun i => s.mode.previewId (k + i)) (k + n)

/-- Two sessions that are the same, but that previews are counted from `k` and from `k'`. -/
def Alike (k k' : Nat) (s s' : Session) : Prop :=
  ∃ t drawn n, s = numbered t k drawn n ∧ s' = numbered t k' drawn n

section
variable (m : Mode) (k k' : Nat)

/-- Remarks are not about previews. -/
theorem forall₂_shifted_of_calls {es : List Event} (h : Event.calls es = []) :
    List.Forall₂ (Shifted m k k') es es := by
  induction es with
  | nil => exact .nil
  | cons e es ih =>
    cases e with
    | remark note => exact .cons (.remark note) (ih h)
    | _ => cases h

variable (t : Session) (drawn : Option Nat) (n : Nat)

theorem forall₂_shifted_removal :
    List.Forall₂ (Shifted t.mode k k') (t.numbered k drawn n).removal
      (t.numbered k' drawn n).removal := by
  cases drawn with
  | none => exact .nil
  | some i => exact .cons (.removal i) .nil

theorem tier_numbered : (t.numbered k drawn n).tier = t.tier := rfl

theorem title_numbered : (t.numbered k drawn n).title = t.title := rfl

theorem loadSeed_numbered (seed : Seed) :
    Alike k k' ((t.numbered k drawn n).loadSeed seed).state
        ((t.numbered k' drawn n).loadSeed seed).state ∧
      List.Forall₂ (Shifted t.mode k k') ((t.numbered k drawn n).loadSeed seed).events
        ((t.numbered k' drawn n).loadSeed seed).events := by
  refine ⟨⟨(t.loadSeed seed).state, none, n, ?_, ?_⟩, ?_⟩
  · simp only [state_loadSeed, numbered, withPreviews, Option.map_none]
  · simp only [state_loadSeed, numbered, withPreviews, Option.map_none]
  · have hcomplaint := forall₂_shifted_of_calls t.mode k k'
      (calls_complaint (Target.generate t.tier seed))
    have hremoval := forall₂_shifted_removal k k' t drawn n
    simp only [loadSeed, load, tier_numbered, title_numbered]
    exact .cons (.remark _) (.cons (.remark _)
      (List.rel_append (List.rel_append hcomplaint hremoval)
        (.cons (.target _) (.cons (.remark _) .nil))))

theorem preview_numbered (input : String) :
    Alike k k' ((t.numbered k drawn n).preview input).state
        ((t.numbered k' drawn n).preview input).state ∧
      List.Forall₂ (Shifted t.mode k k') ((t.numbered k drawn n).preview input).events
        ((t.numbered k' drawn n).preview input).events := by
  have hremoval := forall₂_shifted_removal k k' t drawn n
  rw [preview_eq, preview_eq]
  cases sketch? input with
  | none => exact ⟨⟨t, none, n, rfl, rfl⟩, hremoval⟩
  | some text =>
    exact ⟨⟨t, some n, n + 1, rfl, rfl⟩, List.rel_append hremoval (.cons (.preview n text) .nil)⟩

end

/-- A change that leaves the mode and the previews alone leaves the sessions alike. -/
theorem alike_withPreviews {k k' : Nat} {s t : Session} (hmode : t.mode = s.mode)
    (drawn : Option Nat) (n : Nat) :
    Alike k k' (t.withPreviews (drawn.map fun i => s.mode.previewId (k + i)) (k + n))
      (t.withPreviews (drawn.map fun i => s.mode.previewId (k' + i)) (k' + n)) := by
  rw [← hmode]
  exact ⟨t, drawn, n, rfl, rfl⟩

theorem Alike.loadedMessage_eq {k k' : Nat} {s s' : Session} (h : Alike k k' s s') :
    s.loadedMessage = s'.loadedMessage := by
  obtain ⟨t, drawn, n, rfl, rfl⟩ := h
  rfl

/-- A command is answered alike, and it leaves the sessions alike. -/
theorem Alike.perform {k k' : Nat} {s s' : Session} (h : Alike k k' s s') (c : Command) :
    Alike k k' (s.perform c).state (s'.perform c).state ∧
      (s.perform c).reply = (s'.perform c).reply ∧
      List.Forall₂ (Shifted s.mode k k') (s.perform c).events (s'.perform c).events := by
  obtain ⟨t, drawn, n, rfl, rfl⟩ := h
  cases c with
  | submit input =>
    have hmode := t.mode_perform (.submit input)
    rw [Session.perform, Step.state_map] at hmode
    simp only [Session.perform, numbered, submit_withPreviews, Step.state_map, Step.reply_map,
      Step.events_map, true_and]
    exact ⟨alike_withPreviews hmode drawn n, forall₂_shifted_of_calls _ _ _ (t.calls_submit input)⟩
  | hint =>
    have hmode := t.mode_perform .hint
    rw [Session.perform, Step.state_map] at hmode
    simp only [Session.perform, numbered, hint_withPreviews, Step.state_map, Step.reply_map,
      Step.events_map, true_and]
    exact ⟨alike_withPreviews hmode drawn n, .nil⟩
  | preview input =>
    obtain ⟨halike, hevents⟩ := t.preview_numbered k k' drawn n input
    simp only [Session.perform, Step.state_map, Step.reply_map, Step.events_map, true_and]
    exact ⟨halike, hevents⟩
  | clearPreview =>
    simp only [Session.perform, Step.state_map, Step.reply_map, Step.events_map, true_and]
    exact ⟨⟨t, none, n, rfl, rfl⟩, forall₂_shifted_removal k k' t drawn n⟩
  | newTarget fresh =>
    have h := t.loadSeed_numbered k k' drawn n (t.nextSeed fresh)
    exact ⟨h.1, congrArg Reply.loaded h.1.loadedMessage_eq, h.2⟩
  | setTier tier fresh =>
    let t' : Session := { t with tier := tier }
    have h := t'.loadSeed_numbered k k' drawn n (t'.nextSeed fresh)
    exact ⟨h.1, congrArg Reply.loaded h.1.loadedMessage_eq, h.2⟩

theorem Alike.run {k k' : Nat} {s s' : Session} (h : Alike k k' s s') (cs : List Command) :
    Alike k k' (s.run cs).state (s'.run cs).state ∧ (s.run cs).reply = (s'.run cs).reply ∧
      List.Forall₂ (Shifted s.mode k k') (s.run cs).events (s'.run cs).events := by
  induction cs generalizing s s' with
  | nil => exact ⟨h, rfl, .nil⟩
  | cons c cs ih =>
    obtain ⟨hfirst, hreply, hevents⟩ := h.perform c
    obtain ⟨hlast, hreplies, hrest⟩ := ih hfirst
    rw [mode_perform] at hrest
    rw [run_cons, run_cons]
    exact ⟨hlast, by rw [hreply, hreplies], List.rel_append hevents hrest⟩

/-- Two runs that cannot be told apart by their answers and counts, and by what they ask for only
in the numbers of previews, which are counted from `k` in the one and from `k'` in the other. -/
structure SameAnswers (m : Mode) (k k' : Nat) (r r' : Step Session (List Reply)) : Prop where
  reply_eq : r.reply = r'.reply
  attempts_eq : r.state.attempts = r'.state.attempts
  hintsLeft_eq : r.state.hintsLeft = r'.state.hintsLeft
  score_eq : r.state.score = r'.state.score
  events_shifted : List.Forall₂ (Shifted m k k') r.events r'.events

theorem Alike.sameAnswers {k k' : Nat} {s s' : Session} (h : Alike k k' s s')
    (cs : List Command) : SameAnswers s.mode k k' (s.run cs) (s'.run cs) := by
  obtain ⟨⟨t, drawn, n, hs, hs'⟩, hreply, hevents⟩ := h.run cs
  constructor
  case reply_eq => exact hreply
  case events_shifted => exact hevents
  all_goals
    rw [hs, hs']
    rfl

/-- Two daily sessions that come to load a target of one tier are alike. -/
theorem alike_reload {s s' : Session} {date : Date} (hs : s.IsDaily date) (hs' : s'.IsDaily date)
    {c c' : Command} (hc : c.loads = true) (hc' : c'.loads = true)
    (htier : (s.perform c).state.tier = (s'.perform c').state.tier) :
    Alike s.previews s'.previews (s.perform c).state (s'.perform c').state := by
  rw [state_reload hs hc, state_reload hs' hc', htier]
  exact ⟨_, none, 0, rfl, rfl⟩

/-- Whatever was done before in two daily sessions of one date, once both have loaded a target of
one tier they have the same target, and whatever is done next is answered alike. -/
theorem sameAnswers_after_reload (date : Date) (tier tier' : Tier) (past past' : List Command)
    (c c' : Command) (hc : c.loads = true) (hc' : c'.loads = true)
    (htier : ((Start.daily date tier).after (past ++ [c])).tier =
      ((Start.daily date tier').after (past' ++ [c'])).tier)
    (cs cs' : List Command) (hcs : cs.map Command.seedless = cs'.map Command.seedless) :
    ((Start.daily date tier).after (past ++ [c])).challenge =
        ((Start.daily date tier').after (past' ++ [c'])).challenge ∧
      SameAnswers .daily ((Start.daily date tier).after past).previews
        ((Start.daily date tier').after past').previews
        (((Start.daily date tier).after (past ++ [c])).run cs)
        (((Start.daily date tier').after (past' ++ [c'])).run cs') := by
  have hdaily := isDaily_after date tier past
  have hdaily' := isDaily_after date tier' past'
  rw [Start.after_append, Start.after_append] at htier ⊢
  have halike := alike_reload hdaily hdaily' hc hc' htier
  have hanswers := halike.sameAnswers (cs.map Command.seedless)
  rw [run_seedless (hdaily.perform c), hcs, run_seedless (hdaily'.perform c'),
    (hdaily.perform c).1] at hanswers
  refine ⟨?_, hanswers⟩
  obtain ⟨t, drawn, n, hs, hs'⟩ := halike
  rw [run_cons, run_cons, run_nil, run_nil, hs, hs']
  rfl

/-- A day that comes once in four years. -/
def leapDay : Date := ⟨2024, 2, 29, by decide, by decide, by decide, by decide⟩

/-- One player has drawn and comes from an easier tier, the other has asked for a hint. -/
theorem sameAnswers_after_reload_leapDay :
    (Command.setTier .hard ⟨1⟩).loads = true ∧ (Command.newTarget ⟨2⟩).loads = true ∧
      ((Start.daily leapDay .easy).after ([.preview "2x"] ++ [.setTier .hard ⟨1⟩])).tier =
        ((Start.daily leapDay .hard).after ([.hint] ++ [.newTarget ⟨2⟩])).tier ∧
      [Command.submit "3x", .newTarget ⟨3⟩].map Command.seedless =
        [Command.submit "3x", .newTarget ⟨4⟩].map Command.seedless ∧
      SameAnswers .daily ((Start.daily leapDay .easy).after [.preview "2x"]).previews
        ((Start.daily leapDay .hard).after [.hint]).previews
        (((Start.daily leapDay .easy).after ([.preview "2x"] ++ [.setTier .hard ⟨1⟩])).run
          [.submit "3x", .newTarget ⟨3⟩])
        (((Start.daily leapDay .hard).after ([.hint] ++ [.newTarget ⟨2⟩])).run
          [.submit "3x", .newTarget ⟨4⟩]) := by
  have htier : ((Start.daily leapDay .easy).after ([.preview "2x"] ++ [.setTier .hard ⟨1⟩])).tier =
      ((Start.daily leapDay .hard).after ([.hint] ++ [.newTarget ⟨2⟩])).tier := by
    simp only [Start.after, Start.step, tier_run, daily, state_loadSeed, blank, List.cons_append,
      List.nil_append, List.foldl_cons, List.foldl_nil, Command.tier]
  exact ⟨rfl, rfl, htier, rfl,
    (sameAnswers_after_reload leapDay .easy .hard [.preview "2x"] [.hint]
      (.setTier .hard ⟨1⟩) (.newTarget ⟨2⟩) rfl rfl htier
      [.submit "3x", .newTarget ⟨3⟩] [.submit "3x", .newTarget ⟨4⟩] rfl).2⟩

end CurveGuess.Session
