import CurveGuess.Proofs.Session.Reload
import CurveGuess.Proofs.Terminal.Runs
import Mathlib.Data.List.TakeWhile

/-!
# Lines that change nothing

A command that is not known, a mode or a tier that there is not, and a command that only asks for
something get an answer, and that is all: whatever state a game is in, it stays in it.
-/
namespace CurveGuess

namespace Tier

/-- What a tier may be called, in small letters. -/
def spellings : List String := ["easy", "medium", "hard", "very_hard", "very-hard", "veryhard"]

/-- Does a text name a tier? Blanks around it and the case of its letters do not count. -/
def IsNamed (text : String) : Prop :=
  String.ofList ((trim text).toList.map Char.toLower) ∈ spellings

theorem toOption_read_eq_none_iff {text : String} :
    (read text).toOption = none ↔ ¬ IsNamed text := by
  unfold read IsNamed
  split <;> simp_all [spellings, Except.toOption]

end Tier

namespace Terminal

namespace Command

/-- Without the blanks around it, a line is a colon and a name, which is all or is followed by a
blank; the rest is what is left of that without blanks around it. -/
def Spells (line name rest : String) : Prop :=
  ∃ tail, trim line = ":" ++ name ++ tail ∧ (∀ c ∈ name.toList, isBlank c = false) ∧
    (∀ c ∈ tail.toList.head?, isBlank c = true) ∧ rest = trim tail

theorem Spells.ofLine_eq {line name rest : String} (h : Spells line name rest) :
    ofLine line = ofName name rest := by
  obtain ⟨tail, hline, hname, htail, rfl⟩ := h
  have hchars : (trim line).toList = ':' :: (name.toList ++ tail.toList) := by
    rw [hline, String.toList_append, String.toList_append]
    rfl
  have hkeep : ∀ c ∈ name.toList, (!isBlank c) = true := fun c hc => by rw [hname c hc]; rfl
  have hstop : tail.toList.takeWhile (!isBlank ·) = [] ∧
      tail.toList.dropWhile (!isBlank ·) = tail.toList := by
    cases htail' : tail.toList with
    | nil => exact ⟨rfl, rfl⟩
    | cons c cs =>
      have hblank : (!isBlank c) = false := by rw [htail c (by rw [htail']; rfl)]; rfl
      exact ⟨List.takeWhile_cons_of_neg (by simp [hblank]),
        List.dropWhile_cons_of_neg (by simp [hblank])⟩
  simp only [ofLine, hchars]
  rw [List.takeWhile_append_of_pos hkeep, List.dropWhile_append_of_pos hkeep, hstop.1, hstop.2,
    List.append_nil, String.ofList_toList, String.ofList_toList]

/-- A line that is no guess spells a command. -/
theorem exists_spells (line : String) :
    (∃ name rest, Spells line name rest) ∨ ofLine line = guess (trim line) := by
  unfold ofLine
  dsimp only
  split
  · next cs hchars =>
    refine .inl ⟨String.ofList (cs.takeWhile (!isBlank ·)), _,
      String.ofList (cs.dropWhile (!isBlank ·)), ?_, ?_, ?_, rfl⟩
    · rw [← String.toList_inj, hchars]
      simp
    · intro c hc
      rw [String.toList_ofList] at hc
      simpa using List.mem_takeWhile_imp hc
    · intro c hc
      have := List.head?_dropWhile_not (!isBlank ·) cs
      simp_all
  · exact .inr rfl

/-- The names of the commands that ask for something. -/
def askingNames : List String := ["h", "help", "plot", "status", "share"]

def tierNames : List String := ["d", "difficulty"]

def modeNames : List String := ["m", "mode"]

/-- The names of the commands that do something, whatever follows them. -/
def doingNames : List String := ["q", "quit", "exit", "hint", "p", "preview", "new"]

/-- A name of a command, with what follows it, that is refused or that only asks for something. -/
inductive IsIdle (name rest : String) : Prop
  | asking : name ∈ askingNames → IsIdle name rest
  | tier : name ∈ tierNames → ¬ Tier.IsNamed rest → IsIdle name rest
  | mode : name ∈ modeNames → rest ∉ ["daily", "practice", "create"] → IsIdle name rest
  | unknown : name ∉ askingNames ++ tierNames ++ modeNames ++ doingNames → IsIdle name rest

/-- Does a command change nothing, whatever the game? -/
def isIdle : Command → Bool
  | help | plot | status | share | unknown _ => true
  | setTier text => (Tier.read text).toOption.isNone
  | setMode text => (setMode text).screen?.isNone
  | _ => false

theorem isIdle_setMode {text : String} :
    (setMode text).isIdle = true ↔ text ∉ ["daily", "practice", "create"] := by
  simp only [isIdle, screen?]
  split <;> simp_all

theorem isIdle_setTier {text : String} :
    (setTier text).isIdle = true ↔ ¬ Tier.IsNamed text := by
  rw [isIdle, Option.isNone_iff_eq_none, Tier.toOption_read_eq_none_iff]

section
variable {name : String} (rest : String)

theorem isIdle_ofName_of_mem_askingNames (h : name ∈ askingNames) :
    (ofName name rest).isIdle = true := by
  simp only [askingNames, List.mem_cons, List.not_mem_nil, or_false] at h
  obtain rfl | rfl | rfl | rfl | rfl := h <;> rfl

theorem ofName_of_mem_tierNames (h : name ∈ tierNames) : ofName name rest = setTier rest := by
  simp only [tierNames, List.mem_cons, List.not_mem_nil, or_false] at h
  obtain rfl | rfl := h <;> rfl

theorem ofName_of_mem_modeNames (h : name ∈ modeNames) : ofName name rest = setMode rest := by
  simp only [modeNames, List.mem_cons, List.not_mem_nil, or_false] at h
  obtain rfl | rfl := h <;> rfl

theorem isIdle_ofName_of_mem_doingNames (h : name ∈ doingNames) :
    (ofName name rest).isIdle = false := by
  simp only [doingNames, List.mem_cons, List.not_mem_nil, or_false] at h
  obtain rfl | rfl | rfl | rfl | rfl | rfl | rfl := h <;> rfl

theorem ofName_of_notMem (h : name ∉ askingNames ++ tierNames ++ modeNames ++ doingNames) :
    ofName name rest = unknown name := by
  unfold ofName
  split
  case h_17 => rfl
  all_goals exact absurd (by decide) h

theorem isIdle_ofName_iff : (ofName name rest).isIdle = true ↔ IsIdle name rest := by
  constructor
  · intro hidle
    by_cases hname : name ∈ askingNames ++ tierNames ++ modeNames ++ doingNames
    · simp only [List.mem_append] at hname
      obtain ((hasking | htier) | hmode) | hdoing := hname
      · exact .asking hasking
      · rw [ofName_of_mem_tierNames rest htier] at hidle
        exact .tier htier (isIdle_setTier.mp hidle)
      · rw [ofName_of_mem_modeNames rest hmode] at hidle
        exact .mode hmode (isIdle_setMode.mp hidle)
      · rw [isIdle_ofName_of_mem_doingNames rest hdoing] at hidle
        cases hidle
    · exact .unknown hname
  · rintro (hasking | ⟨htier, hrest⟩ | ⟨hmode, hrest⟩ | hname)
    · exact isIdle_ofName_of_mem_askingNames rest hasking
    · rw [ofName_of_mem_tierNames rest htier]
      exact isIdle_setTier.mpr hrest
    · rw [ofName_of_mem_modeNames rest hmode]
      exact isIdle_setMode.mpr hrest
    · rw [ofName_of_notMem rest hname]
      rfl

end

/-- A line that is refused or that only asks for something. -/
def IsIdleLine (line : String) : Prop := ∃ name rest, Spells line name rest ∧ IsIdle name rest

theorem isIdleLine_iff {line : String} : IsIdleLine line ↔ (ofLine line).isIdle = true := by
  constructor
  · rintro ⟨name, rest, hline, hidle⟩
    rw [hline.ofLine_eq]
    exact (isIdle_ofName_iff rest).mpr hidle
  · intro hidle
    obtain ⟨name, rest, hline⟩ | hguess := exists_spells line
    · rw [hline.ofLine_eq] at hidle
      exact ⟨name, rest, hline, (isIdle_ofName_iff rest).mp hidle⟩
    · rw [hguess] at hidle
      cases hidle

instance : DecidablePred IsIdleLine := fun _ => decidable_of_iff _ isIdleLine_iff.symm

end Command

namespace Game

variable (g : Game) (fresh : Seed)

/-- An idle command is answered, and nothing else happens. -/
theorem perform_of_isIdle {c : Command} (h : c.isIdle = true) :
    ∃ text, g.perform fresh c = ⟨g, .print text, []⟩ := by
  cases c with
  | help | plot | status | share | unknown => exact ⟨_, rfl⟩
  | setTier text =>
    simp only [perform, setTier]
    cases hread : Tier.read text with
    | error f => exact ⟨_, rfl⟩
    | ok tier =>
      rw [Command.isIdle, hread] at h
      cases h
  | setMode text =>
    rw [Command.isIdle_setMode] at h
    simp only [perform, setMode]
    split
    case h_4 => exact ⟨_, rfl⟩
    all_goals exact absurd (by decide) h
  | quit | hint | preview | newTarget | guess => cases h

section
variable {g fresh} {c : Command}

theorem screen_perform_of_screen? {screen : Screen} (hc : c.screen? = some screen) :
    (g.perform fresh c).state.screen = screen := by
  rw [g.state_perform_of_screen? fresh hc, (g.sameSettings_enter screen fresh).screen_eq]

theorem creator_perform_of_not_active? (hactive : g.active? = none) (hc : c.screen? = none) :
    (g.perform fresh c).state.creator = (c.inCreator g.creator).state := by
  rw [g.state_perform_of_not_active? hactive fresh hc, write]

theorem tier_perform_setTier {text : String} {tier : Tier} (hscreen : g.screen = .create)
    (hread : Tier.read text = .ok tier) (m : Mode) :
    (g.perform fresh (.setTier text)).state.tier m = tier := by
  have hactive : g.active? = none := by rw [active?, hscreen]
  rw [g.state_perform_of_not_active? hactive fresh rfl, (sameSettings_write _ _).tier_eq,
    withTierOf, Command.tier?, hread]
  exact (g.tier_withTier tier m).trans (if_pos (.inr hscreen))

end

/-- The idle commands are all the commands that change no game. -/
theorem isIdle_iff_perform {c : Command} : c.isIdle = true ↔
    ∀ (g : Game) (fresh : Seed), ∃ text, g.perform fresh c = ⟨g, .print text, []⟩ := by
  refine ⟨fun h g fresh => g.perform_of_isIdle fresh h, fun h => ?_⟩
  have hsame : ∀ g : Game, (g.perform ⟨0⟩ c).state = g := fun g => by
    obtain ⟨text, htext⟩ := h g ⟨0⟩
    rw [htext]
  -- two games in which a function is made, from which a command that changes either makes the same
  let g : Game := .blank .default Session.leapDay
  let g' : Game := { g with creator := ⟨"x"⟩, dailyTier := .hard }
  have hmade : g.creator ≠ g'.creator := by decide
  have htier : g.tier .daily ≠ g'.tier .daily := by decide
  have hmaking : c.screen? = none → ∀ k : Game, k.active? = none →
      (c.inCreator k.creator).state = k.creator := fun hc k hactive => by
    rw [← creator_perform_of_not_active? hactive hc, hsame]
  cases c with
  | help | plot | status | share | unknown => rfl
  | quit =>
    obtain ⟨text, htext⟩ := h g ⟨0⟩
    cases congrArg Step.reply htext
  | hint =>
    let s : Session := (Session.practice .easy ⟨0⟩).state
    let playing : Game := { g with screen := .play .practice, practice := some s }
    have hhint : playing.session? .practice = some s.hint.state :=
      (congrArg (session? · .practice) (hsame playing)).symm.trans (playing.session?_play s.hint)
    cases congrArg Session.hints (Option.some.inj hhint)
  | preview input | guess input =>
    have hupdate : (g.creator.update input).state = (g'.creator.update input).state := rfl
    exact absurd ((hmaking rfl g rfl).symm.trans (hupdate.trans (hmaking rfl g' rfl))) hmade
  | newTarget => exact absurd ((hmaking rfl g rfl).symm.trans (hmaking rfl g' rfl)) hmade
  | setTier text =>
    cases hread : Tier.read text with
    | error f => simp [Command.isIdle, hread, Except.toOption]
    | ok tier =>
      have hset : ∀ k : Game, k.screen = .create → k.tier .daily = tier := fun k hscreen => by
        rw [← tier_perform_setTier hscreen hread .daily, hsame]
      exact absurd ((hset g rfl).trans (hset g' rfl).symm) htier
  | setMode text =>
    cases hscreen : (Command.setMode text).screen? with
    | none => simp [Command.isIdle, hscreen]
    | some screen =>
      have hon : ∀ k : Game, k.screen = screen := fun k => by
        rw [← screen_perform_of_screen? hscreen, hsame]
      cases (hon g).trans (hon { g with screen := .play .daily }).symm

/-- A line that changes no game makes no difference to the lines around it. -/
theorem handleAll_insert {fresh : Seed} {line : String}
    (hline : ∀ g : Game, ∃ text, g.handle fresh line = ⟨g, .print text, []⟩)
    (before after : List (Seed × String)) :
    (g.handleAll (before ++ (fresh, line) :: after)).state = (g.handleAll (before ++ after)).state ∧
      (g.handleAll (before ++ (fresh, line) :: after)).events =
        (g.handleAll (before ++ after)).events := by
  induction before generalizing g with
  | nil =>
    obtain ⟨text, hhandle⟩ := hline g
    simp only [List.nil_append, handleAll, hhandle]
    exact ⟨rfl, rfl⟩
  | cons first before ih =>
    simp only [List.cons_append, handleAll]
    cases (g.handle first.1 first.2).reply with
    | quit =>
      -- the game ends before the line is read
      exact ⟨rfl, rfl⟩
    | print text =>
      obtain ⟨hstate, hevents⟩ := ih (g.handle first.1 first.2).state
      simp only [Step.andThen, Step.state_map, Step.events_map, hstate, hevents, and_self]

/-- The lines that leave every game as it is, with an answer and without an event, are those that
are refused and those that only ask for something. Whatever comes before and after such a line goes
on as if it were not there. -/
theorem isIdleLine_iff_handle (line : String) :
    (Command.IsIdleLine line ↔
      ∀ (g : Game) (fresh : Seed), ∃ text, g.handle fresh line = ⟨g, .print text, []⟩) ∧
    (Command.IsIdleLine line → ∀ (g : Game) (fresh : Seed) (before after : List (Seed × String)),
      (g.handleAll (before ++ (fresh, line) :: after)).state =
          (g.handleAll (before ++ after)).state ∧
        (g.handleAll (before ++ (fresh, line) :: after)).events =
          (g.handleAll (before ++ after)).events) := by
  have hiff : Command.IsIdleLine line ↔
      ∀ (g : Game) (fresh : Seed), ∃ text, g.handle fresh line = ⟨g, .print text, []⟩ :=
    Command.isIdleLine_iff.trans isIdle_iff_perform
  exact ⟨hiff, fun h g fresh => g.handleAll_insert fun k => hiff.mp h k fresh⟩

/-- A player of the daily challenge asks for a tier that there is not, between two guesses. -/
theorem isIdleLine_iff_handle_impossible :
    let g := ((blank .default Session.leapDay).enter (.play .daily) ⟨0⟩).state
    Command.IsIdleLine " :d  Impossible " ∧
      (∃ text, g.handle ⟨2⟩ " :d  Impossible " = ⟨g, .print text, []⟩) ∧
      (g.handleAll [(⟨1⟩, "x"), (⟨2⟩, " :d  Impossible "), (⟨3⟩, "x^2")]).state =
        (g.handleAll [(⟨1⟩, "x"), (⟨3⟩, "x^2")]).state := by
  intro g
  have hidle : Command.IsIdleLine " :d  Impossible " := by decide +kernel
  obtain ⟨hiff, hothers⟩ := isIdleLine_iff_handle " :d  Impossible "
  exact ⟨hidle, hiff.mp hidle g ⟨2⟩, (hothers hidle g ⟨2⟩ [(⟨1⟩, "x")] [(⟨3⟩, "x^2")]).1⟩

/-- No mode is called so, but a tier is, and a line without a colon is a guess. -/
example : Command.IsIdleLine ":m Daily" ∧ ¬ Command.IsIdleLine ":d Hard" ∧
    ¬ Command.IsIdleLine "help" := by decide +kernel

end Game

end Terminal

end CurveGuess
