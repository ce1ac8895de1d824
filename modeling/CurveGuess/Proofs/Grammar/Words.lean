import CurveGuess.Proofs.Grammar.Calls
import CurveGuess.Proofs.Numerals
import Mathlib.Data.List.Forall2

/-!
# The words of a formula

The names and numbers of a formula stand in its pieces in the order in which they stand in its tree,
each name together with whether a group calls it. The core of a shape forgets groups and spelling,
and numbers that have one value are one number in it.
-/
namespace CurveGuess

/-- A word of a formula: a number, or a name and whether it is called. -/
inductive Word where
  | number (value : Numeral)
  | name (text : String) (isCalled : Bool)
  deriving DecidableEq, Repr

/-- The word without whether it is called. -/
def Word.uncalled : Word → Word
  | number n => number n
  | name s _ => name s false

/-- Is the word a name that is called? -/
def Word.isCalled : Word → Bool
  | number _ => false
  | name _ b => b

namespace Shape

mutual

/-- A shape without its groups and up to spelling. -/
def core : Shape → Shape
  | .number n => .number n.reduced
  | .symbol s => .symbol (plainName s)
  | .group _ e => e.core
  | .call name _ _ es => .call (plainName name) false .paren (cores es)
  | .unary k e => .unary k e.core
  | .binary k _ a b => .binary k false a.core b.core

def cores : List Shape → List Shape
  | [] => []
  | e :: es => e.core :: cores es

end

theorem plainName_plainName (s : String) : plainName (plainName s) = plainName s := by
  unfold plainName
  split
  · rw [if_neg (by decide)]
  · rfl

mutual

/-- The core of a shape is the same whether products and calls are spelled out or not. -/
theorem core_plain : ∀ e : Shape, e.plain.core = e.core
  | .number _ => rfl
  | .symbol _ => rfl
  | .group _ e => core_plain e
  | .call name _ _ es => by
    simp only [plain, core, plainName_plainName, cores_plains es]
  | .unary k e => by
    simp only [plain, core, core_plain e]
  | .binary _ _ a b => by
    simp only [plain, core, core_plain a, core_plain b]

theorem cores_plains : ∀ es : List Shape, cores (plains es) = cores es
  | [] => rfl
  | e :: es => by
    simp only [plains, cores, core_plain e, cores_plains es]

end

theorem core_eq_of_plain {e e' : Shape} (h : e'.plain = e.plain) : e'.core = e.core := by
  rw [← core_plain e', h, core_plain]

mutual

/-- The words of a shape, from left to right. -/
def words : Shape → List Word
  | .number n => [.number n]
  | .symbol s => [.name s false]
  | .group _ e => e.words
  | .call name _ _ es => .name name true :: wordsIn es
  | .unary _ e => e.words
  | .binary _ _ a b => a.words ++ b.words

def wordsIn : List Shape → List Word
  | [] => []
  | e :: es => e.words ++ wordsIn es

end

end Shape

namespace Piece

/-- The word of a piece before a group or before something else. -/
def word (t : Piece) (isFollowed : Bool) : Option Word :=
  if t.kind.isNumber then some (.number t.numeral.reduced)
  else if t.isName then some (.name (plainName t.name) (t.isCallable && isFollowed))
  else none

/-- The words of a row of pieces. -/
def words : List Piece → List Word
  | [] => []
  | t :: ts => (t.word (opens ts)).toList ++ words ts

theorem words_cons (t : Piece) (ts : List Piece) :
    words (t :: ts) = (t.word (opens ts)).toList ++ words ts := rfl

theorem word_isNumber {t : Piece} (h : t.kind.isNumber = true) (b : Bool) :
    t.word b = some (.number t.numeral.reduced) := by
  rw [word, if_pos h]

theorem word_isName {t : Piece} (h : t.isName = true) (b : Bool) :
    t.word b = some (.name (plainName t.name) (t.isCallable && b)) := by
  have hn : t.kind.isNumber = false := by
    cases hk : t.kind <;> simp_all [isName, Kind.isNumber]
  rw [word, hn, if_neg (by decide), if_pos h]

/-- The kinds of piece that are words. -/
def isWordKind : Kind → Bool
  | .int | .float | .name | .command => true
  | _ => false

theorem word_eq_none {t : Piece} (h : isWordKind t.kind = false) (b : Bool) : t.word b = none := by
  cases hk : t.kind <;> simp_all [isWordKind, word, isName, Kind.isNumber]

theorem words_quiet {t : Piece} (h : isWordKind t.kind = false) (ts : List Piece) :
    words (t :: ts) = words ts := by
  rw [words_cons, word_eq_none h]
  rfl

/-- The calls in a row of pieces are the words that are called. -/
theorem callSites_eq (ts : List Piece) : callSites ts = (words ts).countP Word.isCalled := by
  induction ts with
  | nil => rfl
  | cons t ts ih =>
    rw [callSites, words_cons, List.countP_append, ih, Nat.add_comm]
    congr 1
    by_cases hn : t.isName = true
    · rw [word_isName hn]
      cases t.isCallable && opens ts <;> rfl
    · have hc : t.isCallable = false := by
        rw [← Bool.not_eq_true]
        exact fun hc => hn (isName_of_isCallable hc)
      rw [hc, Bool.false_and, if_neg (by decide), word, if_neg hn]
      split <;> rfl

theorem uncalled_word (t : Piece) (b : Bool) :
    (t.word b).map Word.uncalled = t.word false := by
  unfold word
  split
  · rfl
  · split
    · simp [Word.uncalled]
    · rfl

/-- The words without whether they are called are those of the single pieces. -/
theorem map_uncalled_words (ts : List Piece) :
    (words ts).map Word.uncalled = ts.filterMap (word · false) := by
  induction ts with
  | nil => rfl
  | cons t ts ih =>
    have hword := uncalled_word t (opens ts)
    rw [words_cons, List.map_append, ih, List.filterMap_cons, ← hword]
    cases t.word (opens ts) <;> rfl

end Piece

open Piece

theorem isWordKind_of_sumKind? {k : Kind} {b : BinaryKind} (h : sumKind? k = some b) :
    isWordKind k = false := by
  rcases eq_of_sumKind? h with rfl | rfl <;> rfl

theorem isWordKind_of_productKind? {k : Kind} {b : BinaryKind} (h : productKind? k = some b) :
    isWordKind k = false := by
  rcases eq_of_productKind? h with rfl | rfl | rfl <;> rfl

theorem isWordKind_of_signKind? {k : Kind} {b : UnaryKind} (h : signKind? k = some b) :
    isWordKind k = false := by
  rcases eq_of_signKind? h with rfl | rfl <;> rfl

theorem isWordKind_openKind (d : Delimiter) : isWordKind d.openKind = false := by
  cases d <;> rfl

theorem isWordKind_closeKind (d : Delimiter) : isWordKind d.closeKind = false := by
  cases d <;> rfl

namespace Derivation

variable {p : Part} {i r : List Piece} {es : List Shape}

/-- The words that a derivation takes are those of what it builds. -/
theorem words_eq (d : Derivation p i r es) :
    words i = Shape.wordsIn (Shape.cores es) ++ words r := by
  induction d with
  | ofProduct _ ih | ofSigned _ ih | ofPower _ ih | ofPrimary _ ih => exact ih
  | add _ h _ ih₁ ih₂ =>
    rw [ih₁, words_quiet (isWordKind_of_sumKind? h), ih₂]
    simp [Shape.cores, Shape.core, Shape.wordsIn, Shape.words]
  | mul _ h _ ih₁ ih₂ =>
    rw [ih₁, words_quiet (isWordKind_of_productKind? h), ih₂]
    simp [Shape.cores, Shape.core, Shape.wordsIn, Shape.words]
  | juxtapose _ _ ih₁ ih₂ =>
    rw [ih₁, ih₂]
    simp [Shape.cores, Shape.core, Shape.wordsIn, Shape.words]
  | sign h _ ih => rw [words_quiet (isWordKind_of_signKind? h), ih]; rfl
  | raise _ h _ ih₁ ih₂ =>
    rw [ih₁, words_quiet (by rw [h]; rfl), ih₂]
    simp [Shape.cores, Shape.core, Shape.wordsIn, Shape.words]
  | number h => rw [words_cons, word_isNumber h]; rfl
  | group h _ h' ih =>
    rw [words_quiet (by rw [Delimiter.eq_openKind h]; exact isWordKind_openKind _), ih,
      words_quiet (by rw [h']; exact isWordKind_closeKind _)]
    rfl
  | @symbol t r h h' =>
    have hcall : (t.isCallable && opens r) = false := by
      cases hc : t.isCallable with
      | false => rfl
      | true => exact h' hc
    rw [words_cons, word_isName h, hcall]
    rfl
  | @braceCall t u v m r e h h' _ h'' ih =>
    have hopens : opens (u :: m) = true := by rw [opens_cons, h']; rfl
    rw [words_cons, word_isName (isName_of_isCallable h), h, hopens, words_quiet (by rw [h']; rfl),
      ih, words_quiet (by rw [h'']; rfl)]
    simp [Shape.cores, Shape.core, Shape.wordsIn, Shape.words]
  | @parenCall t u m r es h h' _ ih =>
    have hopens : opens (u :: m) = true := by rw [opens_cons, h']; rfl
    rw [words_cons, word_isName (isName_of_isCallable h), h, hopens, words_quiet (by rw [h']; rfl),
      ih]
    simp [Shape.cores, Shape.core, Shape.wordsIn, Shape.words]
  | lastArgument _ h ih => rw [ih, words_quiet (by rw [h]; rfl)]
  | nextArgument _ h _ ih₁ ih₂ =>
    rw [ih₁, words_quiet (by rw [h]; rfl), ih₂]
    simp [Shape.cores, Shape.wordsIn]

/-- Two formulas with one core have the same words. -/
theorem words_congr {e e' : Shape} {i' : List Piece} (d : Derivation .sum i [] [e])
    (d' : Derivation .sum i' [] [e']) (h : e'.core = e.core) : words i' = words i := by
  rw [d.words_eq, d'.words_eq, Shape.cores, Shape.cores, h]
  rfl

end Derivation

/-- Two pieces that are the same, but for how one value is written. -/
def Alike (t u : Piece) : Prop :=
  t = u ∨ t.kind = .float ∧ u.kind = .float ∧ t.numeral.reduced = u.numeral.reduced

namespace Alike

variable {t u : Piece}

theorem kind_eq (h : Alike t u) : t.kind = u.kind := by
  rcases h with rfl | ⟨ht, hu, -⟩
  · rfl
  · rw [ht, hu]

theorem eq_of_ne (h : Alike t u) (hk : t.kind ≠ .float) : t = u :=
  h.resolve_right fun h => hk h.1

theorem eq_of_isName (h : Alike t u) (hn : t.isName = true) : t = u :=
  h.eq_of_ne fun hk => by rw [isName, hk] at hn; cases hn

theorem reduced_eq (h : Alike t u) : t.numeral.reduced = u.numeral.reduced := by
  rcases h with rfl | ⟨-, -, h⟩
  · rfl
  · exact h

theorem opens_eq {ts us : List Piece} (h : List.Forall₂ Alike ts us) : opens ts = opens us := by
  cases h with
  | nil => rfl
  | cons h _ => rw [opens_cons, opens_cons, h.kind_eq]

theorem words_eq {ts us : List Piece} (h : List.Forall₂ Alike ts us) : words ts = words us := by
  induction h with
  | nil => rfl
  | @cons t u ts us h hs ih =>
    have hword : t.word (opens ts) = u.word (opens us) := by
      rw [opens_eq hs]
      rcases h with rfl | ⟨ht, hu, h⟩
      · rfl
      · rw [word_isNumber (by rw [ht]; rfl), word_isNumber (by rw [hu]; rfl), h]
    rw [words_cons, words_cons, hword, ih]

end Alike

theorem Shape.eq_singleton_of_cores {es : List Shape} {e : Shape} (h : cores es = cores [e]) :
    ∃ e', es = [e'] ∧ e'.core = e.core := by
  cases es with
  | nil => simp [cores] at h
  | cons e' es =>
    cases es with
    | nil => exact ⟨e', rfl, (List.cons.inj h).1⟩
    | cons _ _ => simp [cores] at h

/-- From pieces that are alike the same part is derived, up to how values are written. -/
def DerivesAlike (p : Part) (i r : List Piece) (es : List Shape) : Prop :=
  ∀ i', List.Forall₂ Alike i i' → ∃ r' es', List.Forall₂ Alike r r' ∧
    Nonempty (Derivation p i' r' es') ∧ Shape.cores es' = Shape.cores es

namespace DerivesAlike

variable {p q s : Part} {i i' m r : List Piece} {t u v : Piece} {a b : Shape} {es : List Shape}

theorem single (h : DerivesAlike p i r [a]) (hi : List.Forall₂ Alike i i') :
    ∃ r' a', List.Forall₂ Alike r r' ∧ Nonempty (Derivation p i' r' [a']) ∧ a'.core = a.core := by
  obtain ⟨r', es', hr, hd, hs⟩ := h i' hi
  obtain ⟨a', rfl, ha⟩ := Shape.eq_singleton_of_cores hs
  exact ⟨r', a', hr, hd, ha⟩

/-- The piece that comes next has its like. -/
theorem before (h : DerivesAlike p i (t :: m) [a]) (hi : List.Forall₂ Alike i i') :
    ∃ t' m' a', Alike t t' ∧ List.Forall₂ Alike m m' ∧
      Nonempty (Derivation p i' (t' :: m') [a']) ∧ a'.core = a.core := by
  obtain ⟨_, a', hm, hd, ha⟩ := h.single hi
  cases hm with
  | cons ht hm => exact ⟨_, _, a', ht, hm, hd, ha⟩

theorem of_rule (h : DerivesAlike p i r [a])
    (rule : ∀ {i r a}, Derivation p i r [a] → Derivation q i r [a]) : DerivesAlike q i r [a] := by
  intro i' hi
  obtain ⟨r', a', hr, ⟨d⟩, ha⟩ := h.single hi
  exact ⟨r', [a'], hr, ⟨rule d⟩, by rw [Shape.cores, Shape.cores, ha]; rfl⟩

/-- An operator that is known by its kind. -/
theorem operator {k : BinaryKind} (h₁ : DerivesAlike p i (t :: m) [a])
    (h₂ : DerivesAlike q m r [b])
    (rule : ∀ {i t' m r a b}, t.kind = t'.kind → Derivation p i (t' :: m) [a] →
      Derivation q m r [b] → Derivation s i r [.binary k false a b]) :
    DerivesAlike s i r [.binary k false a b] := by
  intro i' hi
  obtain ⟨t', m', a', ht, hm, ⟨d₁⟩, ha⟩ := h₁.before hi
  obtain ⟨r', b', hr, ⟨d₂⟩, hb⟩ := h₂.single hm
  exact ⟨r', _, hr, ⟨rule ht.kind_eq d₁ d₂⟩, by simp only [Shape.cores, Shape.core, ha, hb]⟩

theorem juxtapose (h₁ : DerivesAlike .product i m [a]) (h₂ : DerivesAlike .power m r [b]) :
    DerivesAlike .product i r [.binary .mul true a b] := by
  intro i' hi
  obtain ⟨m', a', hm, ⟨d₁⟩, ha⟩ := h₁.single hi
  obtain ⟨r', b', hr, ⟨d₂⟩, hb⟩ := h₂.single hm
  exact ⟨r', _, hr, ⟨.juxtapose d₁ d₂⟩, by simp only [Shape.cores, Shape.core, ha, hb]⟩

theorem sign {k : UnaryKind} (hk : signKind? t.kind = some k) (h : DerivesAlike .signed m r [a]) :
    DerivesAlike .signed (t :: m) r [.unary k a] := by
  rintro _ (_ | ⟨ht, hi⟩)
  obtain ⟨r', a', hr, ⟨d⟩, ha⟩ := h.single hi
  rw [ht.kind_eq] at hk
  exact ⟨r', _, hr, ⟨.sign hk d⟩, by simp only [Shape.cores, Shape.core, ha]⟩

theorem number (hn : t.kind.isNumber = true) :
    DerivesAlike .primary (t :: r) r [.number t.numeral] := by
  rintro _ (_ | ⟨ht, hr⟩)
  rw [ht.kind_eq] at hn
  exact ⟨_, _, hr, ⟨.number hn⟩, by simp only [Shape.cores, Shape.core, ht.reduced_eq]⟩

theorem symbol (hn : t.isName = true) (hc : t.isCallable = true → opens r = false) :
    DerivesAlike .primary (t :: r) r [.symbol t.name] := by
  rintro _ (_ | ⟨ht, hr⟩)
  cases ht.eq_of_isName hn
  exact ⟨_, _, hr, ⟨.symbol hn fun h => by rw [← Alike.opens_eq hr, hc h]⟩, rfl⟩

theorem group {d : Delimiter} (hd : Delimiter.ofKind? t.kind = some d)
    (h : DerivesAlike .sum m (u :: r) [a]) (hk : u.kind = d.closeKind) :
    DerivesAlike .primary (t :: m) r [.group d a] := by
  rintro _ (_ | ⟨ht, hi⟩)
  obtain ⟨u', r', a', hu, hr, ⟨d⟩, ha⟩ := h.before hi
  rw [ht.kind_eq] at hd
  rw [hu.kind_eq] at hk
  exact ⟨r', _, hr, ⟨.group hd d hk⟩, by simp only [Shape.cores, Shape.core, ha]⟩

theorem braceCall (hc : t.isCallable = true) (hu : u.kind = .openBrace)
    (h : DerivesAlike .sum m (v :: r) [a]) (hv : v.kind = .closeBrace) :
    DerivesAlike .primary (t :: u :: m) r [.call t.name (t.kind = .command) .brace [a]] := by
  rintro _ (_ | ⟨ht, _ | ⟨hu', hi⟩⟩)
  obtain ⟨v', r', a', hv', hr, ⟨d⟩, ha⟩ := h.before hi
  cases ht.eq_of_isName (isName_of_isCallable hc)
  rw [hu'.kind_eq] at hu
  rw [hv'.kind_eq] at hv
  exact ⟨r', _, hr, ⟨.braceCall hc hu d hv⟩, by simp only [Shape.cores, Shape.core, ha]⟩

theorem parenCall (hc : t.isCallable = true) (hu : u.kind = .openParen)
    (h : DerivesAlike .arguments m r es) :
    DerivesAlike .primary (t :: u :: m) r [.call t.name (t.kind = .command) .paren es] := by
  rintro _ (_ | ⟨ht, _ | ⟨hu', hi⟩⟩)
  obtain ⟨r', es', hr, ⟨d⟩, hs⟩ := h _ hi
  cases ht.eq_of_isName (isName_of_isCallable hc)
  rw [hu'.kind_eq] at hu
  exact ⟨r', _, hr, ⟨.parenCall hc hu d⟩, by simp only [Shape.cores, Shape.core, hs]⟩

theorem lastArgument (h : DerivesAlike .sum m (v :: r) [a]) (hv : v.kind = .closeParen) :
    DerivesAlike .arguments m r [a] := by
  intro i' hi
  obtain ⟨v', r', a', hv', hr, ⟨d⟩, ha⟩ := h.before hi
  rw [hv'.kind_eq] at hv
  exact ⟨r', _, hr, ⟨.lastArgument d hv⟩, by simp only [Shape.cores, ha]⟩

theorem nextArgument (h : DerivesAlike .sum i (v :: m) [a]) (hv : v.kind = .comma)
    (hs : DerivesAlike .arguments m r es) : DerivesAlike .arguments i r (a :: es) := by
  intro i' hi
  obtain ⟨v', m', a', hv', hm, ⟨d⟩, ha⟩ := h.before hi
  obtain ⟨r', es', hr, ⟨ds⟩, hes⟩ := hs m' hm
  rw [hv'.kind_eq] at hv
  exact ⟨r', _, hr, ⟨.nextArgument d hv ds⟩, by simp only [Shape.cores, ha, hes]⟩

end DerivesAlike

/-- Pieces that are alike are derived alike. -/
theorem Derivation.derivesAlike {p : Part} {i r : List Piece} {es : List Shape}
    (d : Derivation p i r es) : DerivesAlike p i r es := by
  induction d with
  | ofProduct _ ih => exact ih.of_rule .ofProduct
  | ofSigned _ ih => exact ih.of_rule .ofSigned
  | ofPower _ ih => exact ih.of_rule .ofPower
  | ofPrimary _ ih => exact ih.of_rule .ofPrimary
  | add _ hk _ ih₁ ih₂ => exact ih₁.operator ih₂ fun ht d₁ d₂ => .add d₁ (ht ▸ hk) d₂
  | mul _ hk _ ih₁ ih₂ => exact ih₁.operator ih₂ fun ht d₁ d₂ => .mul d₁ (ht ▸ hk) d₂
  | juxtapose _ _ ih₁ ih₂ => exact ih₁.juxtapose ih₂
  | sign hk _ ih => exact .sign hk ih
  | raise _ hk _ ih₁ ih₂ => exact ih₁.operator ih₂ fun ht d₁ d₂ => .raise d₁ (ht ▸ hk) d₂
  | number hn => exact .number hn
  | group hd _ hk ih => exact .group hd ih hk
  | symbol hn hc => exact .symbol hn hc
  | braceCall hc hu _ hv ih => exact .braceCall hc hu ih hv
  | parenCall hc hu _ ih => exact .parenCall hc hu ih
  | lastArgument _ hv ih => exact ih.lastArgument hv
  | nextArgument _ hv _ ih₁ ih₂ => exact ih₁.nextArgument hv ih₂

end CurveGuess
