import CurveGuess.Terminal.Arguments
import Mathlib.Data.List.Basic
import Mathlib.Data.Nat.Basic

/-!
# Reading arguments

Arguments are read in units: a word that stands for itself, or a flag with the argument after it,
whatever that looks like. A list that is made of units is accepted. Each unit sets one field, and a
field is as the last unit made it that sets it. Any other list is refused for its first bad unit,
the good ones before it notwithstanding.
-/
namespace CurveGuess.Terminal.Arguments

inductive Field where
  | activity
  | tier
  | date
  | seed
  | share
  | origin
  | help
  deriving DecidableEq, Repr

/-- A field and what it is set to. -/
inductive Setting where
  | activity (activity : Activity)
  | tier (tier : Tier)
  | date (date : Date)
  | seed (seed : Seed)
  | share (text : String)
  | origin (text : String)
  | help
  deriving DecidableEq, Repr

def Setting.field : Setting → Field
  | activity _ => .activity
  | tier _ => .tier
  | date _ => .date
  | seed _ => .seed
  | share _ => .share
  | origin _ => .origin
  | help => .help

def set (a : Arguments) : Setting → Arguments
  | .activity activity => { a with activity := activity }
  | .tier tier => { a with tier := tier }
  | .date date => { a with date := some date }
  | .seed seed => { a with seed := some seed }
  | .share text => { a with share := some text }
  | .origin text => { a with origin := text }
  | .help => { a with help := true }

/-- What a field is set to; none if it has been left open. -/
def get? (a : Arguments) : Field → Option Setting
  | .activity => some (.activity a.activity)
  | .tier => some (.tier a.tier)
  | .date => a.date.map .date
  | .seed => a.seed.map .seed
  | .share => a.share.map .share
  | .origin => some (.origin a.origin)
  | .help => if a.help then some .help else none

theorem get?_set (a : Arguments) (s : Setting) (f : Field) :
    (a.set s).get? f = if s.field = f then some s else a.get? f := by
  cases s <;> cases f <;> rfl

/-- The fields are all that there is. -/
theorem ext_get? {a b : Arguments} (h : ∀ f, a.get? f = b.get? f) : a = b := by
  have hactivity := h .activity
  have htier := h .tier
  have hdate := h .date
  have hseed := h .seed
  have hshare := h .share
  have horigin := h .origin
  have hhelp := h .help
  obtain ⟨activity, tier, date, seed, share, origin, help⟩ := a
  obtain ⟨activity', tier', date', seed', share', origin', help'⟩ := b
  simp only [get?, Option.some.injEq, Setting.activity.injEq, Setting.tier.injEq,
    Setting.origin.injEq] at hactivity htier hdate hseed hshare horigin hhelp
  obtain rfl := Option.map_injective (fun _ _ => Setting.date.inj) hdate
  obtain rfl := Option.map_injective (fun _ _ => Setting.seed.inj) hseed
  obtain rfl := Option.map_injective (fun _ _ => Setting.share.inj) hshare
  obtain rfl : help = help' := by cases help <;> cases help' <;> simp_all
  rw [hactivity, htier, horigin]

/-- The words that stand for themselves. -/
def wordNames : List String := ["daily", "practice", "create", "-h", "--help"]

def flagNames : List String := ["-d", "--difficulty", "--date", "--seed", "--share", "--origin"]

/-- The words make up a unit, and that is what it sets. -/
inductive Sets : List String → Setting → Prop
  | daily : Sets ["daily"] (.activity .daily)
  | practice : Sets ["practice"] (.activity .practice)
  | create : Sets ["create"] (.activity .create)
  | help {word} : word ∈ ["-h", "--help"] → Sets [word] .help
  | tier {flag value tier} : flag ∈ ["-d", "--difficulty"] → Tier.read value = .ok tier →
      Sets [flag, value] (.tier tier)
  | date {value date} : Date.read value = .ok date → Sets ["--date", value] (.date date)
  | seed (value) : Sets ["--seed", value] (.seed (.read value))
  | share (value) : Sets ["--share", value] (.share value)
  | origin (value) : Sets ["--origin", value] (.origin value)

/-- A unit with what it sets. -/
structure Entry where
  words : List String
  setting : Setting
  sets : Sets words setting

namespace Entry

def field (e : Entry) : Field := e.setting.field

theorem length_pos (e : Entry) : 0 < e.words.length := by
  obtain ⟨words, setting, hsets⟩ := e
  cases hsets <;> exact Nat.zero_lt_succ _

end Entry

/-- The words begin with a bad unit, and that is what is wrong with it. -/
inductive Fails : List String → StartFault → Prop
  | unexpected {word} (rest) : word ∉ wordNames ++ flagNames →
      Fails (word :: rest) (.usage (.unexpected word))
  | missingValue {flag} : flag ∈ flagNames → Fails [flag] (.usage (.missingValue flag))
  | tier {flag value fault} (rest) : flag ∈ ["-d", "--difficulty"] →
      Tier.read value = .error fault → Fails (flag :: value :: rest) (.unknownTier fault)
  | date {value fault} (rest) : Date.read value = .error fault →
      Fails ("--date" :: value :: rest) (.usage (.invalidDate value fault))

section
variable (a : Arguments)

/-- A flag takes the argument after it. -/
theorem extend_flag (flag : Flag) {word : String} (hword : a.withWord? word = none)
    (hflag : Flag.ofText? word = some flag) (value : String) (rest : List String) :
    a.extend (word :: value :: rest) = (a.withValue flag value).bind fun b => b.extend rest := by
  conv_lhs => unfold extend
  simp only [hword, hflag]
  cases a.withValue flag value <;> rfl

theorem extend_tier {flag : String} (h : flag ∈ ["-d", "--difficulty"]) (value : String)
    (rest : List String) :
    a.extend (flag :: value :: rest) = (a.withValue .tier value).bind fun b => b.extend rest := by
  simp only [List.mem_cons, List.not_mem_nil, or_false] at h
  obtain rfl | rfl := h <;> exact a.extend_flag .tier rfl rfl value rest

theorem extend_date (value : String) (rest : List String) :
    a.extend ("--date" :: value :: rest) =
      (a.withValue .date value).bind fun b => b.extend rest :=
  a.extend_flag .date rfl rfl value rest

theorem extend_words (e : Entry) (rest : List String) :
    a.extend (e.words ++ rest) = (a.set e.setting).extend rest := by
  obtain ⟨words, setting, hsets⟩ := e
  cases hsets with
  | daily | practice | create | seed | share | origin => rfl
  | help hword =>
    simp only [List.mem_cons, List.not_mem_nil, or_false] at hword
    obtain rfl | rfl := hword <;> rfl
  | @tier flag value tier hflag hread =>
    refine (a.extend_tier hflag value rest).trans ?_
    rw [withValue, hread]
    rfl
  | @date value date hread =>
    refine (a.extend_date value rest).trans ?_
    rw [withValue, hread]
    rfl

theorem extend_flatMap (es : List Entry) (rest : List String) :
    a.extend (es.flatMap Entry.words ++ rest) =
      ((es.map Entry.setting).foldl set a).extend rest := by
  induction es generalizing a with
  | nil => rfl
  | cons e es ih =>
    rw [List.flatMap_cons, List.append_assoc, extend_words, ih]
    rfl

theorem extend_of_fails {words : List String} {fault : StartFault} (h : Fails words fault) :
    a.extend words = .error fault := by
  cases h with
  | @unexpected word rest hword =>
    rw [List.mem_append, not_or] at hword
    have hnone : a.withWord? word = none := by
      unfold withWord?
      split <;> simp_all [wordNames]
    have hflag : Flag.ofText? word = none := by
      unfold Flag.ofText?
      split <;> simp_all [flagNames]
    unfold extend
    simp only [hnone, hflag]
  | @missingValue flag hflag =>
    simp only [flagNames, List.mem_cons, List.not_mem_nil, or_false] at hflag
    obtain rfl | rfl | rfl | rfl | rfl | rfl := hflag <;> rfl
  | @tier flag value fault rest hflag hread =>
    rw [a.extend_tier hflag, withValue, hread]
    rfl
  | @date value fault rest hread =>
    rw [extend_date, withValue, hread]
    rfl

end

/-- A flag with a value is a unit, good or bad. -/
theorem exists_unit_of_flag {flag : String} (h : flag ∈ flagNames) (value : String)
    (rest : List String) :
    (∃ e : Entry, e.words = [flag, value]) ∨ ∃ fault, Fails (flag :: value :: rest) fault := by
  have hflag : flag ∈ ["-d", "--difficulty"] ∨ flag ∈ ["--date", "--seed", "--share", "--origin"] :=
    List.mem_append.mp h
  rcases hflag with htier | hother
  · cases hread : Tier.read value with
    | ok tier => exact .inl ⟨⟨_, _, .tier htier hread⟩, rfl⟩
    | error fault => exact .inr ⟨_, .tier rest htier hread⟩
  simp only [List.mem_cons, List.not_mem_nil, or_false] at hother
  obtain rfl | rfl | rfl | rfl := hother
  · cases hread : Date.read value with
    | ok date => exact .inl ⟨⟨_, _, .date hread⟩, rfl⟩
    | error fault => exact .inr ⟨_, .date rest hread⟩
  · exact .inl ⟨⟨_, _, .seed value⟩, rfl⟩
  · exact .inl ⟨⟨_, _, .share value⟩, rfl⟩
  · exact .inl ⟨⟨_, _, .origin value⟩, rfl⟩

/-- A list that is not empty begins with a unit, good or bad. -/
theorem exists_unit (word : String) (rest : List String) :
    (∃ (e : Entry) (left : List String), word :: rest = e.words ++ left) ∨
      ∃ fault, Fails (word :: rest) fault := by
  by_cases hword : word ∈ wordNames
  · left
    simp only [wordNames, List.mem_cons, List.not_mem_nil, or_false] at hword
    obtain rfl | rfl | rfl | rfl | rfl := hword
    · exact ⟨⟨_, _, .daily⟩, rest, rfl⟩
    · exact ⟨⟨_, _, .practice⟩, rest, rfl⟩
    · exact ⟨⟨_, _, .create⟩, rest, rfl⟩
    · exact ⟨⟨["-h"], _, .help (by decide)⟩, rest, rfl⟩
    · exact ⟨⟨["--help"], _, .help (by decide)⟩, rest, rfl⟩
  by_cases hflag : word ∈ flagNames
  · cases rest with
    | nil => exact .inr ⟨_, .missingValue hflag⟩
    | cons value rest =>
      rcases exists_unit_of_flag hflag value rest with ⟨e, he⟩ | hfails
      · exact .inl ⟨e, rest, by rw [he]; rfl⟩
      · exact .inr hfails
  · exact .inr ⟨_, .unexpected rest (by simp [hword, hflag])⟩

/-- Every list is made of units, up to the first bad one if there is one. -/
theorem exists_units (words : List String) :
    ∃ (es : List Entry) (left : List String), words = es.flatMap Entry.words ++ left ∧
      (left = [] ∨ ∃ fault, Fails left fault) := by
  induction hn : words.length using Nat.strong_induction_on generalizing words with
  | _ n ih =>
    cases words with
    | nil => exact ⟨[], [], rfl, .inl rfl⟩
    | cons word rest =>
      rcases exists_unit word rest with ⟨e, left, hwords⟩ | hfails
      · have hlt : left.length < n := by
          have hpos := e.length_pos
          rw [← hn, hwords, List.length_append]
          omega
        obtain ⟨es, left', rfl, hleft⟩ := ih left.length hlt left rfl
        refine ⟨e :: es, left', ?_, hleft⟩
        rw [hwords, List.flatMap_cons, List.append_assoc]
      · exact ⟨[], word :: rest, rfl, .inr hfails⟩

/-- The last unit that sets a field. -/
def last? (f : Field) (es : List Entry) : Option Setting :=
  ((es.filter (·.field = f)).getLast?).map Entry.setting

theorem last?_cons (f : Field) (e : Entry) (es : List Entry) :
    last? f (e :: es) = (last? f es).or (if e.field = f then some e.setting else none) := by
  by_cases hf : e.field = f
  · rw [last?, List.filter_cons_of_pos (by simpa using hf), List.getLast?_cons, if_pos hf, last?]
    cases (es.filter (·.field = f)).getLast? <;> rfl
  · rw [last?, List.filter_cons_of_neg (by simpa using hf), if_neg hf, Option.or_none, last?]

/-- A field is as the last unit made it, or as it was. -/
theorem get?_foldl_set (es : List Entry) (a : Arguments) (f : Field) :
    ((es.map Entry.setting).foldl set a).get? f = (last? f es).or (a.get? f) := by
  induction es generalizing a with
  | nil => rfl
  | cons e es ih =>
    rw [List.map_cons, List.foldl_cons, ih, get?_set, last?_cons, Option.or_assoc, Entry.field]
    split <;> rfl

theorem read_flatMap (es : List Entry) :
    read (es.flatMap Entry.words) = .ok ((es.map Entry.setting).foldl set default) := by
  have h := default.extend_flatMap es []
  rwa [List.append_nil] at h

theorem read_of_fails (es : List Entry) {left : List String} {fault : StartFault}
    (h : Fails left fault) : read (es.flatMap Entry.words ++ left) = .error fault := by
  rw [read, extend_flatMap, extend_of_fails _ h]

/-- Arguments are read in units, and the last one counts. A list is accepted if it is made of units
and only then, and each field is as the last unit made it that sets it, or else as by default. Any
other list is refused for the first unit that is bad. Units may change places as long as those that
set the same field stay in order. -/
theorem read_units (words : List String) :
    (∀ a, read words = .ok a → ∃ es : List Entry, words = es.flatMap Entry.words) ∧
    (∀ es : List Entry, words = es.flatMap Entry.words →
      ∃ a, read words = .ok a ∧ ∀ f, a.get? f = (last? f es).or (Arguments.default.get? f)) ∧
    (∀ fault, read words = .error fault ↔ ∃ (es : List Entry) (left : List String),
      words = es.flatMap Entry.words ++ left ∧ Fails left fault) ∧
    ∀ es es' : List Entry, (∀ f, es.filter (·.field = f) = es'.filter (·.field = f)) →
      read (es.flatMap Entry.words) = read (es'.flatMap Entry.words) := by
  obtain ⟨es, left, hwords, hleft⟩ := exists_units words
  refine ⟨fun a hread => ?_, fun es' h => ?_, fun fault => ⟨fun hread => ?_, ?_⟩,
    fun es es' h => ?_⟩
  · rcases hleft with rfl | ⟨fault, hfails⟩
    · rw [List.append_nil] at hwords
      exact ⟨es, hwords⟩
    · rw [hwords, read_of_fails es hfails] at hread
      cases hread
  · rw [h]
    exact ⟨_, read_flatMap es', fun f => get?_foldl_set es' _ f⟩
  · rcases hleft with rfl | ⟨fault', hfails⟩
    · rw [List.append_nil] at hwords
      rw [hwords, read_flatMap] at hread
      cases hread
    · rw [hwords, read_of_fails es hfails] at hread
      obtain rfl := Except.error.inj hread
      exact ⟨es, left, hwords, hfails⟩
  · rintro ⟨es', left', rfl, hfails⟩
    exact read_of_fails es' hfails
  · have hlast : ∀ f, last? f es = last? f es' := fun f => by rw [last?, last?, h f]
    have hsame : (es.map Entry.setting).foldl set Arguments.default =
        (es'.map Entry.setting).foldl set Arguments.default := by
      apply ext_get?
      intro f
      rw [get?_foldl_set, get?_foldl_set, hlast f]
    rw [read_flatMap, read_flatMap, hsame]

theorem read_units_swapped :
    read ["practice", "--share", "--help", "-d", "hard", "--share", "daily"] =
      .ok { Arguments.default with activity := .practice, tier := .hard, share := some "daily" } ∧
    read ["--share", "--help", "--share", "daily", "-d", "hard", "practice"] =
      read ["practice", "--share", "--help", "-d", "hard", "--share", "daily"] ∧
    read ["daily", "--seed"] = .error (.usage (.missingValue "--seed")) := by
  let practice : Entry := ⟨_, _, .practice⟩
  let hard : Entry := ⟨["-d", "hard"], .tier .hard, .tier (by decide) rfl⟩
  let share (value : String) : Entry := ⟨_, _, .share value⟩
  obtain ⟨-, haccepted, -, hswap⟩ :=
    read_units ["practice", "--share", "--help", "-d", "hard", "--share", "daily"]
  obtain ⟨-, -, hrefused, -⟩ := read_units ["daily", "--seed"]
  obtain ⟨a, hread, hget⟩ := haccepted [practice, share "--help", hard, share "daily"] rfl
  refine ⟨?_, ?_, ?_⟩
  · rw [hread]
    refine congrArg Except.ok (ext_get? fun f => (hget f).trans ?_)
    cases f <;> rfl
  · refine hswap [share "--help", share "daily", hard, practice]
      [practice, share "--help", hard, share "daily"] fun f => ?_
    cases f <;> rfl
  · exact (hrefused _).mpr ⟨[⟨_, _, .daily⟩], ["--seed"], rfl, .missingValue (by decide)⟩

end CurveGuess.Terminal.Arguments
