import CurveGuess.Proofs.Session.Runs
import Mathlib.Data.List.DropRight

/-!
# The accounts of a game

A game begins when a target is loaded and lasts until the next one. All its counts can be told from
the commands in it: attempts are the guesses that are not blank, hints are counted up to two, and
the score adds up what the solutions earned, each of them less than or as much as the one before.
-/
namespace CurveGuess

namespace Tier

theorem ten_le_score (t : Tier) (attempts hints : Nat) : 10 ≤ t.score attempts hints :=
  Nat.le_max_right _ _

theorem baseScore_bounds (t : Tier) : 10 ≤ t.baseScore ∧ t.baseScore ≤ 500 := by
  cases t <;> decide

theorem score_le_baseScore (t : Tier) (attempts hints : Nat) :
    t.score attempts hints ≤ t.baseScore := by
  have := t.baseScore_bounds
  unfold score
  omega

/-- More attempts and more hints never earn more. -/
theorem score_antitone (t : Tier) {a b h k : Nat} (hab : a ≤ b) (hhk : h ≤ k) :
    t.score b k ≤ t.score a h := by
  unfold score
  omega

/-- The points as a whole number, which has no least one. -/
theorem cast_score (t : Tier) (a h : Nat) :
    (t.score (a + 1) h : Int) = max (t.baseScore - 10 * a - 25 * h) 10 := by
  unfold score
  omega

end Tier

namespace Session

namespace Command

def isSubmission : Command → Bool
  | submit _ => true
  | _ => false

/-- Is a guess submitted that is not blank? -/
def isAttempt : Command → Bool
  | submit input => !(trim input).isEmpty
  | _ => false

def isHint : Command → Bool
  | hint => true
  | _ => false

end Command

namespace Reply

/-- The points of a solution. -/
def points? : Reply → Option Nat
  | feedback (.success points _ _) => some points
  | _ => none

def hint? : Reply → Option (Hint Float)
  | hint h => some h
  | _ => none

end Reply

/-- What the solutions among some replies earned, in their order. -/
def awards (replies : List Reply) : List Nat := replies.filterMap Reply.points?

def total (points : List Nat) : Nat := points.foldr (· + ·) 0

def hintsGiven (replies : List Reply) : List (Hint Float) := replies.filterMap Reply.hint?

section
variable (s : Session) {c : Command}

theorem attempts_perform (hc : c.loads = false) :
    (s.perform c).state.attempts = s.attempts + if c.isAttempt then 1 else 0 := by
  cases c with
  | submit input =>
    obtain ⟨hblank, h, -⟩ | ⟨hblank, ⟨h, -⟩ | ⟨h, -⟩⟩ := s.submit_cases input <;>
      simp [perform, Command.isAttempt, h, hblank]
  | hint => simp [perform, Command.isAttempt, state_hint]
  | preview input =>
    obtain ⟨id, n, h⟩ := s.state_preview input
    simp [perform, Command.isAttempt, h]
  | clearPreview => simp [perform, Command.isAttempt]
  | newTarget | setTier => cases hc

theorem hints_perform (hs : s.hints ≤ 2) (hc : c.loads = false) :
    (s.perform c).state.hints = min 2 (s.hints + if c.isHint then 1 else 0) := by
  cases c with
  | submit input =>
    obtain ⟨-, h, -⟩ | ⟨-, ⟨h, -⟩ | ⟨h, -⟩⟩ := s.submit_cases input <;>
      simp [perform, Command.isHint, h, hs]
  | hint =>
    simp only [perform, Step.state_map, state_hint, Command.isHint, if_true]
    split <;> omega
  | preview input =>
    obtain ⟨id, n, h⟩ := s.state_preview input
    simp [perform, Command.isHint, h, hs]
  | clearPreview => simp [perform, Command.isHint, hs]
  | newTarget | setTier => cases hc

/-- Points are given for attempts alone, as many as the tier says. -/
theorem points?_perform (hc : c.loads = false) :
    (s.perform c).state.score = s.score + ((s.perform c).reply.points?).getD 0 ∧
      ∀ p ∈ (s.perform c).reply.points?, c.isAttempt = true ∧
        p = s.tier.score (s.attempts + 1) s.hints := by
  cases c with
  | submit input =>
    obtain ⟨-, h, hr⟩ | ⟨hblank, ⟨h, hr | hr⟩ | ⟨h, hr⟩⟩ := s.submit_cases input <;>
      simp_all [perform, Reply.points?, Command.isAttempt]
  | hint => simp [perform, Reply.points?, state_hint]
  | preview input =>
    obtain ⟨id, n, h⟩ := s.state_preview input
    simp [perform, Reply.points?, h]
  | clearPreview => simp [perform, Reply.points?]
  | newTarget | setTier => cases hc

/-- A solution tells the score after it and the target. -/
theorem score_of_success {points score : Nat} {target : String}
    (h : (s.perform c).reply = .feedback (.success points score target)) :
    score = s.score + points ∧ target = s.challenge.readable := by
  cases c with
  | submit input =>
    obtain ⟨-, -, hr⟩ | ⟨-, ⟨-, hr | hr⟩ | ⟨-, hr⟩⟩ := s.submit_cases input <;>
      simp only [perform, Step.reply_map, hr, Reply.feedback.injEq, reduceCtorEq] at h
    obtain ⟨rfl, rfl, rfl⟩ := Feedback.success.inj h
    exact ⟨rfl, rfl⟩
  | _ => cases h

theorem hint?_perform :
    (s.perform c).reply.hint? =
      if c.isHint then some (.after s.hints s.challenge.facts s.challenge.readable) else none := by
  cases c <;> rfl

end

variable {s : Session} {game : List Command}

theorem sameTarget_run (hgame : ∀ c ∈ game, c.loads = false) : SameTarget s (s.run game).state := by
  induction game generalizing s with
  | nil => exact ⟨rfl, rfl, rfl, rfl, rfl⟩
  | cons c cs ih =>
    obtain ⟨hc, hcs⟩ := List.forall_mem_cons.mp hgame
    have hfirst := s.sameTarget_perform hc
    have hrest := ih (s := (s.perform c).state) hcs
    exact ⟨hrest.1.trans hfirst.1, hrest.2.trans hfirst.2, hrest.3.trans hfirst.3,
      hrest.4.trans hfirst.4, hrest.5.trans hfirst.5⟩

theorem attempts_run (hgame : ∀ c ∈ game, c.loads = false) :
    (s.run game).state.attempts = s.attempts + game.countP Command.isAttempt := by
  induction game generalizing s with
  | nil => rfl
  | cons c cs ih =>
    obtain ⟨hc, hcs⟩ := List.forall_mem_cons.mp hgame
    rw [run_cons, ih hcs, attempts_perform s hc, List.countP_cons]
    omega

theorem hints_run (hs : s.hints ≤ 2) (hgame : ∀ c ∈ game, c.loads = false) :
    (s.run game).state.hints = min 2 (s.hints + game.countP Command.isHint) := by
  induction game generalizing s with
  | nil => simp [hs]
  | cons c cs ih =>
    obtain ⟨hc, hcs⟩ := List.forall_mem_cons.mp hgame
    have hfirst := s.hints_perform hs hc
    rw [run_cons, ih (by omega) hcs, hfirst, List.countP_cons]
    omega

theorem awards_run_cons (c : Command) (cs : List Command) :
    awards (s.run (c :: cs)).reply =
      ((s.perform c).reply.points?).toList ++ awards ((s.perform c).state.run cs).reply := by
  simp only [awards, run_cons, List.filterMap_cons]
  cases (s.perform c).reply.points? <;> rfl

theorem score_run (hgame : ∀ c ∈ game, c.loads = false) :
    (s.run game).state.score = s.score + total (awards (s.run game).reply) := by
  induction game generalizing s with
  | nil => rfl
  | cons c cs ih =>
    obtain ⟨hc, hcs⟩ := List.forall_mem_cons.mp hgame
    have hscore := (s.points?_perform hc).1
    rw [awards_run_cons, run_cons, ih hcs, hscore]
    cases (s.perform c).reply.points? <;> simp [total, Nat.add_assoc]

/-- The hints come in their order, whatever is done in between. -/
theorem hintsGiven_run (hs : s.hints ≤ 2) (hgame : ∀ c ∈ game, c.loads = false) (k : Nat) :
    (hintsGiven (s.run game).reply)[k]? =
      if k < game.countP Command.isHint then
        some (.after (min 2 (s.hints + k)) s.challenge.facts s.challenge.readable)
      else none := by
  induction game generalizing s k with
  | nil => simp [hintsGiven]
  | cons c cs ih =>
    obtain ⟨hc, hcs⟩ := List.forall_mem_cons.mp hgame
    have htarget := (s.sameTarget_perform hc).challenge_eq
    have hhints := s.hints_perform hs hc
    have ih := ih (s := (s.perform c).state) (by omega) hcs
    rw [htarget, hhints] at ih
    simp only [hintsGiven, run_cons, List.filterMap_cons, hint?_perform, List.countP_cons] at ih ⊢
    by_cases hhint : c.isHint = true
    · simp only [hhint, if_true] at ih ⊢
      cases k with
      | zero => simp [Nat.min_eq_right hs]
      | succ k =>
        have hmin : min 2 (min 2 (s.hints + 1) + k) = min 2 (s.hints + (k + 1)) := by omega
        simp only [List.getElem?_cons_succ, ih, hmin, Nat.add_lt_add_iff_right]
    · have hmin : min 2 (min 2 s.hints + k) = min 2 (s.hints + k) := by omega
      simpa [hhint, hmin] using ih k

theorem reply_run_getElem? (i : Nat) :
    (s.run game).reply[i]? =
      game[i]?.map fun c => ((s.run (game.take i)).state.perform c).reply := by
  induction game generalizing s i with
  | nil => simp
  | cons c cs ih =>
    cases i with
    | zero => rfl
    | succ i => simpa using ih i

theorem reply_run_take (i : Nat) : (s.run (game.take i)).reply = (s.run game).reply.take i := by
  induction game generalizing s i with
  | nil => simp
  | cons c cs ih =>
    cases i with
    | zero => rfl
    | succ i => simpa using ih i

/-- No solution earns more than the first attempt would have. -/
theorem award_between (hs : s.hints ≤ 2) (hgame : ∀ c ∈ game, c.loads = false) :
    ∀ p ∈ awards (s.run game).reply, 10 ≤ p ∧ p ≤ s.tier.score (s.attempts + 1) s.hints := by
  induction game generalizing s with
  | nil => simp [awards]
  | cons c cs ih =>
    obtain ⟨hc, hcs⟩ := List.forall_mem_cons.mp hgame
    intro p hp
    rw [awards_run_cons, List.mem_append, Option.mem_toList] at hp
    rcases hp with hp | hp
    · obtain ⟨-, rfl⟩ := (s.points?_perform hc).2 p hp
      exact ⟨s.tier.ten_le_score _ _, Nat.le_refl _⟩
    · have hhints := s.hints_perform hs hc
      have hattempts := s.attempts_perform hc
      obtain ⟨hten, hle⟩ := ih (s := (s.perform c).state) (by omega) hcs p hp
      rw [(s.sameTarget_perform hc).tier_eq] at hle
      exact ⟨hten, hle.trans (s.tier.score_antitone (by omega) (by omega))⟩

/-- Each solution earns at most as much as the one before. -/
theorem awards_pairwise (hs : s.hints ≤ 2) (hgame : ∀ c ∈ game, c.loads = false) :
    (awards (s.run game).reply).Pairwise (· ≥ ·) := by
  induction game generalizing s with
  | nil => simp [awards]
  | cons c cs ih =>
    obtain ⟨hc, hcs⟩ := List.forall_mem_cons.mp hgame
    have hhints := s.hints_perform hs hc
    have hattempts := s.attempts_perform hc
    rw [awards_run_cons, List.pairwise_append]
    refine ⟨by cases (s.perform c).reply.points? <;> simp, ih (by omega) hcs, ?_⟩
    intro p hp q hq
    obtain ⟨hattempt, rfl⟩ := (s.points?_perform hc).2 p (Option.mem_toList.mp hp)
    have hle := (award_between (s := (s.perform c).state) (by omega) hcs q hq).2
    rw [(s.sameTarget_perform hc).tier_eq] at hle
    exact hle.trans (s.tier.score_antitone (by omega) (by omega))

theorem total_append (ps qs : List Nat) : total (ps ++ qs) = total ps + total qs := by
  induction ps with
  | nil => simp [total]
  | cons p ps ih =>
    simp only [total, List.cons_append, List.foldr_cons] at ih ⊢
    omega

theorem awards_append (rs rs' : List Reply) : awards (rs ++ rs') = awards rs ++ awards rs' :=
  List.filterMap_append

theorem total_le {ps : List Nat} {bound : Nat} (h : ∀ p ∈ ps, p ≤ bound) :
    total ps ≤ ps.length * bound := by
  induction ps with
  | nil => simp [total]
  | cons p ps ih =>
    obtain ⟨hp, hps⟩ := List.forall_mem_cons.mp h
    have := ih hps
    simp only [total, List.foldr_cons, List.length_cons, Nat.add_mul, Nat.one_mul] at this ⊢
    omega

theorem length_awards_le (hgame : ∀ c ∈ game, c.loads = false) :
    (awards (s.run game).reply).length ≤ game.countP Command.isAttempt := by
  induction game generalizing s with
  | nil => simp [awards]
  | cons c cs ih =>
    obtain ⟨hc, hcs⟩ := List.forall_mem_cons.mp hgame
    have hrest := ih (s := (s.perform c).state) hcs
    rw [awards_run_cons, List.length_append, List.countP_cons]
    cases hp : (s.perform c).reply.points? with
    | none => simp; omega
    | some p =>
      simp [((s.points?_perform hc).2 p hp).1]
      omega

theorem countP_isAttempt_le (cs : List Command) :
    cs.countP Command.isAttempt ≤ cs.countP Command.isSubmission := by
  refine List.countP_mono_left fun c _ h => ?_
  cases c <;> first | rfl | cases h

/-- The accounts of a game that begins with the session `opening` and has come to the session `s`:
every count is told from the commands and the replies of the game. -/
structure Accounts (opening : Session) (game : List Command) (s : Session) : Prop where
  attempts_eq : s.attempts = game.countP Command.isAttempt
  hints_eq : s.hints = min 2 (game.countP Command.isHint)
  hintsLeft_eq : s.hintsLeft + s.hints = Hint.limit
  length_hints : (hintsGiven (opening.run game).reply).length = game.countP Command.isHint
  first_hint : ∀ h, (hintsGiven (opening.run game).reply)[0]? = some h →
    h = .terms s.challenge.facts.terms s.challenge.facts.kinds
  second_hint : ∀ h, (hintsGiven (opening.run game).reply)[1]? = some h →
    h = .coefficients s.challenge.facts.range.1 s.challenge.facts.range.2
      (if Arithmetic.same s.challenge.facts.offset (Arithmetic.ofNat 0) then none
        else some s.challenge.facts.offset)
  later_hint : ∀ k h, 2 ≤ k → (hintsGiven (opening.run game).reply)[k]? = some h →
    h = .reveal s.challenge.readable
  /-- The attempts of a solution include it, and its hints are those given before. -/
  award_eq : ∀ (i points score : Nat) (target : String),
    (opening.run game).reply[i]? = some (.feedback (.success points score target)) →
    (points : Int) = max (s.tier.baseScore
        - 10 * ((game.take (i + 1)).countP Command.isAttempt - 1)
        - 25 * min 2 ((game.take i).countP Command.isHint)) 10 ∧
      score = total (awards ((opening.run game).reply.take (i + 1))) ∧
      target = s.challenge.readable
  awards_pairwise : (awards (opening.run game).reply).Pairwise (· ≥ ·)
  award_bounds : ∀ p ∈ awards (opening.run game).reply, 10 ≤ p ∧ p ≤ s.tier.baseScore
  score_eq : s.score = total (awards (opening.run game).reply)
  attempts_lt : s.attempts < UInt32.size
  score_lt : s.score < UInt32.size
  preview_eq : ∀ input, (s.preview input).state.attempts = s.attempts ∧
    (s.preview input).state.hints = s.hints ∧ (s.preview input).state.score = s.score
  clearPreview_eq : s.clearPreview.state.attempts = s.attempts ∧
    s.clearPreview.state.hints = s.hints ∧ s.clearPreview.state.score = s.score

theorem clearPreview_counts (s : Session) : s.clearPreview.state.attempts = s.attempts ∧
    s.clearPreview.state.hints = s.hints ∧ s.clearPreview.state.score = s.score := by
  simp

theorem preview_counts (s : Session) (input : String) :
    (s.preview input).state.attempts = s.attempts ∧
      (s.preview input).state.hints = s.hints ∧ (s.preview input).state.score = s.score := by
  obtain ⟨id, n, h⟩ := s.state_preview input
  simp [h]

section
variable {opening : Session} (hnew : opening.IsNew) (hgame : ∀ c ∈ game, c.loads = false)
include hnew hgame

/-- What a solution earns and tells, from the commands before it. -/
theorem award_eq {i points score : Nat} {target : String}
    (h : (opening.run game).reply[i]? = some (.feedback (.success points score target))) :
    (points : Int) = max (opening.tier.baseScore
        - 10 * ((game.take (i + 1)).countP Command.isAttempt - 1)
        - 25 * min 2 ((game.take i).countP Command.isHint)) 10 ∧
      score = total (awards ((opening.run game).reply.take (i + 1))) ∧
      target = opening.challenge.readable := by
  obtain ⟨c, hc, hreply⟩ := Option.map_eq_some_iff.mp (reply_run_getElem? (s := opening) i ▸ h)
  have hload := hgame c (List.mem_of_getElem? hc)
  have hbefore : ∀ d ∈ game.take i, d.loads = false := fun d hd => hgame d (List.mem_of_mem_take hd)
  have htarget := sameTarget_run (s := opening) hbefore
  have hattempts := attempts_run (s := opening) hbefore
  have hhints := hints_run (s := opening) (by simp [hnew.hints_eq]) hbefore
  have hscore := score_run (s := opening) hbefore
  rw [hnew.attempts_eq, Nat.zero_add] at hattempts
  rw [hnew.hints_eq, Nat.zero_add] at hhints
  rw [hnew.score_eq, Nat.zero_add, reply_run_take] at hscore
  obtain ⟨hattempt, hpoints⟩ :=
    ((opening.run (game.take i)).state.points?_perform hload).2 points (by rw [hreply]; rfl)
  obtain ⟨htotal, hanswer⟩ := score_of_success _ hreply
  refine ⟨?_, ?_, hanswer.trans (by rw [htarget.challenge_eq])⟩
  · rw [hpoints, Tier.cast_score, hattempts, hhints, htarget.tier_eq, List.take_add_one, hc]
    simp [hattempt]
  · rw [htotal, hscore, List.take_add_one, h, awards_append, total_append]
    simp [awards, total, Reply.points?]

/-- Whatever is done in a game, with few guesses its accounts are in order. -/
theorem accounts_run (hfew : game.countP Command.isSubmission < 8000000) :
    Accounts opening game (opening.run game).state := by
  have hzero : opening.hints ≤ 2 := by simp [hnew.hints_eq]
  obtain ⟨-, htier, -, -, hchallenge⟩ := sameTarget_run (s := opening) hgame
  have hattempts := attempts_run (s := opening) hgame
  have hhints := hints_run hzero hgame
  have hscore := score_run (s := opening) hgame
  have hgiven := hintsGiven_run hzero hgame
  rw [hnew.attempts_eq, Nat.zero_add] at hattempts
  rw [hnew.score_eq, Nat.zero_add] at hscore
  simp only [hnew.hints_eq, Nat.zero_add, ← hchallenge] at hhints hgiven
  have hbounds : ∀ p ∈ awards (opening.run game).reply, 10 ≤ p ∧ p ≤ opening.tier.baseScore :=
    fun p hp => (award_between hzero hgame p hp).imp_right fun h =>
      h.trans (opening.tier.score_le_baseScore _ _)
  have htotal := total_le fun p hp => (hbounds p hp).2.trans opening.tier.baseScore_bounds.2
  have hlength := length_awards_le (s := opening) hgame
  have hcount := countP_isAttempt_le game
  have hsize : UInt32.size = 4294967296 := rfl
  constructor
  case attempts_eq => exact hattempts
  case hints_eq => exact hhints
  case hintsLeft_eq =>
    unfold hintsLeft Hint.limit
    omega
  case length_hints =>
    apply Nat.le_antisymm
    · exact List.getElem?_eq_none_iff.mp (by simp [hgiven])
    · simpa using hgiven (hintsGiven (opening.run game).reply).length
  case first_hint =>
    intro h hh
    obtain ⟨-, rfl⟩ : _ ∧ _ = h := by simpa [hgiven] using hh
    rfl
  case second_hint =>
    intro h hh
    obtain ⟨-, rfl⟩ : _ ∧ _ = h := by simpa [hgiven] using hh
    rfl
  case later_hint =>
    intro k h hk hh
    obtain ⟨-, rfl⟩ : _ ∧ _ = h := by simpa [hgiven, Nat.min_eq_left hk] using hh
    rfl
  case award_eq =>
    rw [htier, hchallenge]
    exact fun i points score target => award_eq hnew hgame
  case awards_pairwise => exact awards_pairwise hzero hgame
  case award_bounds => rw [htier]; exact hbounds
  case score_eq => exact hscore
  case attempts_lt => omega
  case score_lt => omega
  case preview_eq => exact preview_counts _
  case clearPreview_eq => exact clearPreview_counts _

end

/-- The commands up to the last one that loads a target. -/
def upToLoad (cs : List Command) : List Command := cs.rdropWhile fun c => !c.loads

/-- The commands after the last one that loads a target. -/
def sinceLoad (cs : List Command) : List Command := cs.rtakeWhile fun c => !c.loads

theorem upToLoad_append_sinceLoad (cs : List Command) : upToLoad cs ++ sinceLoad cs = cs :=
  List.rdropWhile_append_rtakeWhile

theorem loads_of_mem_sinceLoad {cs : List Command} {c : Command} (h : c ∈ sinceLoad cs) :
    c.loads = false := by
  simpa using List.mem_rtakeWhile_imp h

theorem isNew_upToLoad (b : Start) (cs : List Command) : (b.after (upToLoad cs)).IsNew := by
  by_cases hnil : upToLoad cs = []
  · rw [hnil]
    exact isNew_step b
  · have hload := List.rdropWhile_last_not (fun c : Command => !c.loads) cs hnil
    rw [← List.dropLast_append_getLast hnil, Start.after_append]
    exact isNew_perform _ (by simpa [upToLoad] using hload)

/-- After any start and any commands, the accounts of the game that was begun last are in order. -/
theorem accounts_after (b : Start) (cs : List Command)
    (hfew : cs.countP Command.isSubmission < 8000000) :
    Accounts (b.after (upToLoad cs)) (sinceLoad cs) (b.after cs) := by
  rw [← upToLoad_append_sinceLoad cs, List.countP_append] at hfew
  have hgame : ∀ c ∈ sinceLoad cs, c.loads = false := fun c => loads_of_mem_sinceLoad
  have h := accounts_run (isNew_upToLoad b cs) hgame (by omega)
  rwa [← Start.after_append, upToLoad_append_sinceLoad] at h

/-- The target `3x` is drawn, missed once and then solved twice, after one hint and after three. -/
theorem accounts_after_reload :
    [Command.hint, .newTarget ⟨5⟩, .submit "4x", .hint, .submit "3x", .hint, .hint, .submit " ",
        .submit "3*x"].countP Command.isSubmission < 8000000 ∧
      Accounts ((Start.given .daily .easy "4x").after [.hint, .newTarget ⟨5⟩])
        [.submit "4x", .hint, .submit "3x", .hint, .hint, .submit " ", .submit "3*x"]
        ((Start.given .daily .easy "4x").after
          [.hint, .newTarget ⟨5⟩, .submit "4x", .hint, .submit "3x", .hint, .hint, .submit " ",
            .submit "3*x"]) ∧
      awards (((Start.given .daily .easy "4x").after [.hint, .newTarget ⟨5⟩]).run
        [.submit "4x", .hint, .submit "3x", .hint, .hint, .submit " ", .submit "3*x"]).reply =
          [65, 30] :=
  ⟨by decide, accounts_after (.given .daily .easy "4x")
    [.hint, .newTarget ⟨5⟩, .submit "4x", .hint, .submit "3x", .hint, .hint, .submit " ",
      .submit "3*x"] (by decide), by decide +kernel⟩

end Session

end CurveGuess
