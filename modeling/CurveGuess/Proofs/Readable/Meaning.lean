import CurveGuess.Proofs.Readable.Touching

/-!
# The readable spelling keeps the meaning

What is shown of a formula is a formula with the same core, as long as each name is called that was
called before and no other. The readable text is read as what is shown where it is legible, and both
conditions are necessary, since the words of a text can be told from its core.
-/
namespace CurveGuess

open Piece

namespace Shape

theorem one_le_width (e : Shape) : 1 ≤ e.width := by
  cases e with
  | binary k i a b =>
    have ha := one_le_width a
    rw [width]
    omega
  | _ => simp [width]

theorem width_eq_one {e : Shape} (h : e.width = 1) :
    (∃ n, e = .number n) ∨ ∃ s, e = .symbol s := by
  cases e with
  | number n => exact .inl ⟨n, rfl⟩
  | symbol s => exact .inr ⟨s, rfl⟩
  | group d e => simp [width] at h
  | call s f d es => simp [width] at h
  | unary k e =>
    have he := one_le_width e
    rw [width] at h
    omega
  | binary k i a b =>
    have ha := one_le_width a
    have hb := one_le_width b
    rw [width] at h
    omega

end Shape

/-- A shape that can be a primary part is derived as one. -/
theorem Derivation.primary_of_part {i r : List Piece} {e : Shape} (d : Derivation .sum i r [e])
    (h : e.part = .primary) : Nonempty (Derivation .primary i r [e]) := by
  have hbinary : ∀ {k c a b}, (Shape.binary k c a b).part ≠ .primary := by
    intro k c a b
    cases k <;> simp [Shape.part, BinaryKind.part]
  cases d with
  | add => exact absurd h hbinary
  | ofProduct d =>
    cases d with
    | mul | juxtapose => exact absurd h hbinary
    | ofSigned d =>
      cases d with
      | sign => cases h
      | ofPower d =>
        cases d with
        | raise => exact absurd h hbinary
        | ofPrimary d => exact ⟨d⟩

/-- What is derived from a single piece is a number or a symbol. -/
theorem Derivation.of_single {t : Piece} {r : List Piece} {e : Shape}
    (d : Derivation .sum (t :: r) r [e]) :
    t.kind.isNumber = true ∧ e = .number t.numeral ∨
      t.isName = true ∧ (t.isCallable = true → opens r = false) ∧ e = .symbol t.name := by
  have hlength := d.length_eq
  simp only [List.length_cons, Part.surplus, Shape.widths] at hlength
  rcases Shape.width_eq_one (e := e) (by omega) with ⟨n, rfl⟩ | ⟨s, rfl⟩
  · obtain ⟨d⟩ := d.primary_of_part rfl
    cases d with
    | number h => exact .inl ⟨h, rfl⟩
  · obtain ⟨d⟩ := d.primary_of_part rfl
    cases d with
    | symbol h h' => exact .inr ⟨h, h', rfl⟩

namespace Spelling

/-- The kinds of piece that are shown as they are. -/
def isKept : Kind → Bool
  | .whitespace | .command | .cdot | .openBrace | .closeBrace => false
  | _ => true

theorem shown_kept {t : Piece} (h : isKept t.kind = true) (afterRoot : Bool)
    (groups : List ReadableGroup) (ts : List Piece) :
    shown afterRoot groups (t :: ts) = t :: shown false groups ts := by
  rw [shown]
  split <;> simp_all [isKept]

/-- Pieces without white space are their own pieces. -/
theorem withoutSpace_eq_self {ts : List Piece} (h : ∀ t ∈ ts, t.kind ≠ .whitespace) :
    withoutSpace ts = ts := by
  rw [withoutSpace, List.filter_eq_self]
  intro t ht
  simp [Piece.isSpace, h t ht]

/-- A name, with or without a backslash, is shown as a name of the same function. -/
theorem shown_name {t : Piece} (ht : t.Valid) (hn : t.isName = true)
    (groups : List ReadableGroup) (ts : List Piece) :
    ∃ u afterRoot, shown false groups (t :: ts) = u :: shown afterRoot groups ts ∧
      u.isName = true ∧ plainName u.name = plainName t.name ∧
      (afterRoot = true → t.isCallable = true ∧ nextIs .openBrace (withoutSpace ts) = true) := by
  rw [isName, Bool.or_eq_true, decide_eq_true_eq, decide_eq_true_eq] at hn
  rcases hn with hk | hk
  · exact ⟨t, false, shown_kept (by rw [hk]; rfl) _ _ _, by simp [isName, hk], rfl, by simp⟩
  · refine ⟨shownName t, _, by rw [shown, hk], rfl, (shownName_spec ht hk).2, fun h => ?_⟩
    rw [Bool.and_eq_true] at h
    exact ⟨by simp [isCallable, hk], h.2⟩

/-- Tokens that are not white space. -/
def Solid (ts : List Piece) : Prop := ∀ t ∈ ts, t.Valid ∧ t.kind ≠ .whitespace

theorem Solid.of_suffix {i r : List Piece} (h : Solid i) (hr : r <:+ i) : Solid r :=
  fun t ht => h t (hr.mem ht)

theorem Solid.tail {t : Piece} {ts : List Piece} (h : Solid (t :: ts)) : Solid ts :=
  h.of_suffix (List.suffix_cons t ts)

theorem Solid.withoutSpace_eq {ts : List Piece} (h : Solid ts) : withoutSpace ts = ts :=
  withoutSpace_eq_self fun t ht => (h t ht).2

theorem shown_openBrace {t : Piece} (ht : t.kind = .openBrace) (afterRoot : Bool)
    (groups : List ReadableGroup) (ts : List Piece) :
    shown afterRoot groups (t :: ts) =
      if isFlat ts && !afterRoot then shown false (.flat :: groups) ts
      else ⟨.openParen, ['(']⟩ :: shown false (.paren :: groups) ts := by
  rw [shown, ht]

theorem shown_closeBrace {t : Piece} (ht : t.kind = .closeBrace) (afterRoot : Bool)
    (group : ReadableGroup) (groups : List ReadableGroup) (ts : List Piece) :
    shown afterRoot (group :: groups) (t :: ts) =
      if group = .paren then ⟨.closeParen, [')']⟩ :: shown false groups ts
      else shown false groups ts := by
  rw [shown, ht]
  simp

/-- A group is flat if a derivation takes a single piece from it. -/
theorem eq_of_isFlat {m r : List Piece} {u : Piece} {e : Shape} (h : Solid m)
    (d : Derivation .sum m (u :: r) [e]) (hu : u.kind = .closeBrace) (hf : isFlat m = true) :
    ∃ t, m = t :: u :: r := by
  rw [isFlat, h.withoutSpace_eq, (Matched.of_derivation d).closing?_of_close hu,
    decide_eq_true_eq, Option.some.injEq] at hf
  obtain ⟨w, hw⟩ := d.suffix
  have hlength : w.length = 1 := by
    rw [← hw, List.length_append, List.length_cons] at hf
    omega
  obtain ⟨t, rfl⟩ := List.length_eq_one_iff.mp hlength
  exact ⟨t, hw.symm⟩

/-- The words of a name that is shown are those of the name if it is called as before. -/
theorem words_of_name {t u : Piece} {ts us : List Piece} (ht : t.isName = true)
    (hu : u.isName = true) (h : words (u :: us) = words (t :: ts)) :
    (u.isCallable && opens us) = (t.isCallable && opens ts) ∧ words us = words ts := by
  rw [words_cons, words_cons, word_isName ht, word_isName hu] at h
  obtain ⟨hword, hwords⟩ := List.cons.inj h
  exact ⟨(Word.name.inj hword).2, hwords⟩

theorem opens_of_nextIs {ts : List Piece} (h : nextIs .openBrace ts = true) : opens ts = true := by
  cases ts with
  | nil => cases h
  | cons t ts =>
    have ht : t.kind = .openBrace := by simpa [nextIs] using h
    rw [opens_cons, ht]
    rfl

/-- A symbol is shown as a symbol if it is not called then. -/
theorem shown_symbol {t : Piece} {r : List Piece} (h : Solid (t :: r)) (hn : t.isName = true)
    (hc : t.isCallable = true → opens r = false) {groups : List ReadableGroup}
    (hw : words (shown false groups (t :: r)) = words (t :: r)) :
    ∃ u, shown false groups (t :: r) = u :: shown false groups r ∧ u.isName = true ∧
      (u.isCallable = true → opens (shown false groups r) = false) ∧
      plainName u.name = plainName t.name ∧ words (shown false groups r) = words r := by
  obtain ⟨u, afterRoot, hu, hun, hname, hroot⟩ := shown_name (h t List.mem_cons_self).1 hn groups r
  have hafter : afterRoot = false := by
    rw [← Bool.not_eq_true]
    intro ha
    obtain ⟨hcall, hnext⟩ := hroot ha
    rw [h.tail.withoutSpace_eq] at hnext
    have hopens := opens_of_nextIs hnext
    rw [hc hcall] at hopens
    cases hopens
  rw [hafter] at hu
  rw [hu] at hw
  obtain ⟨hcalled, hwords⟩ := words_of_name hn hun hw
  refine ⟨u, hu, hun, fun hcall => ?_, hname, hwords⟩
  have huncalled : (t.isCallable && opens r) = false := by
    cases ht : t.isCallable with
    | false => rfl
    | true => exact hc ht
  rwa [huncalled, hcall, Bool.true_and] at hcalled

/-- What a derivation takes is shown as a derivation of the same core, and what it leaves has the
words that it had. -/
def Shows (p : Part) (i r : List Piece) (es : List Shape) : Prop :=
  ∀ groups, words (shown false groups i) = words i →
    (∃ es', Nonempty (Derivation p (shown false groups i) (shown false groups r) es') ∧
      Shape.cores es' = Shape.cores es) ∧ words (shown false groups r) = words r

theorem words_shown_kept {t : Piece} (hk : isKept t.kind = true) (hq : isWordKind t.kind = false)
    {groups : List ReadableGroup} {ts : List Piece} :
    words (shown false groups (t :: ts)) = words (t :: ts) ↔
      words (shown false groups ts) = words ts := by
  rw [shown_kept hk, words_quiet hq, words_quiet hq]

theorem isKept_of_isNumber {k : Kind} (h : k.isNumber = true) : isKept k = true := by
  cases k <;> first | rfl | cases h

/-- A product sign is shown as a product sign. -/
theorem shown_product {t : Piece} {k : BinaryKind} (h : productKind? t.kind = some k)
    (groups : List ReadableGroup) (ts : List Piece) :
    ∃ u, shown false groups (t :: ts) = u :: shown false groups ts ∧
      productKind? u.kind = some k := by
  rcases eq_of_productKind? h with hk | hk | hk
  · exact ⟨t, shown_kept (by rw [hk]; rfl) _ _ _, h⟩
  · rw [hk] at h
    exact ⟨⟨.mul, ['*']⟩, by rw [shown, hk], h⟩
  · exact ⟨t, shown_kept (by rw [hk]; rfl) _ _ _, h⟩

/-- After the name of a call, what is left of a flat group would not be called. -/
theorem not_opens_of_flat {m r : List Piece} {t v : Piece} {e : Shape} (h : Solid (t :: m))
    (ht : t.kind = .openBrace) (d : Derivation .sum m (v :: r) [e]) (hv : v.kind = .closeBrace)
    {afterRoot : Bool} (hf : (isFlat m && !afterRoot) = true) (groups : List ReadableGroup) :
    opens (shown afterRoot groups (t :: m)) = false := by
  rw [shown_openBrace ht, if_pos hf]
  obtain ⟨x, rfl⟩ := eq_of_isFlat h.tail d hv ((Bool.and_eq_true _ _).mp hf).1
  rcases d.of_single with ⟨hx, -⟩ | ⟨hx, -⟩
  · rw [shown_kept (isKept_of_isNumber hx), opens_cons]
    cases hk : x.kind <;> simp_all [Kind.isOpening, Kind.isNumber]
  · obtain ⟨y, _, hy, hyn, -⟩ := shown_name (h x (by simp)).1 hx (.flat :: groups) (v :: r)
    rw [hy, opens_cons]
    cases hk : y.kind <;> simp_all [Kind.isOpening, isName]

namespace Shows

variable {p q s : Part} {i m n r : List Piece} {t u v : Piece} {a b : Shape} {es : List Shape}

theorem single (h : Shows p i r [a]) {groups : List ReadableGroup}
    (hw : words (shown false groups i) = words i) :
    (∃ a', Nonempty (Derivation p (shown false groups i) (shown false groups r) [a']) ∧
      a'.core = a.core) ∧ words (shown false groups r) = words r := by
  obtain ⟨⟨es', d, hes⟩, hr⟩ := h groups hw
  obtain ⟨a', rfl, ha⟩ := Shape.eq_singleton_of_cores hes
  exact ⟨⟨a', d, ha⟩, hr⟩

/-- A piece that comes next is shown as it is. -/
theorem before (h : Shows p i (t :: m) [a]) (hkept : isKept t.kind = true)
    (hquiet : isWordKind t.kind = false) {groups : List ReadableGroup}
    (hw : words (shown false groups i) = words i) :
    (∃ a', Nonempty (Derivation p (shown false groups i) (t :: shown false groups m) [a']) ∧
      a'.core = a.core) ∧ words (shown false groups m) = words m := by
  have hsingle := h.single hw
  rwa [words_shown_kept hkept hquiet, shown_kept hkept] at hsingle

theorem of_rule (h : Shows p i r [a])
    (rule : ∀ {i r a}, Derivation p i r [a] → Derivation q i r [a]) : Shows q i r [a] := by
  intro groups hw
  obtain ⟨⟨a', ⟨d⟩, ha⟩, hr⟩ := h.single hw
  exact ⟨⟨_, ⟨rule d⟩, by rw [Shape.cores, Shape.cores, ha]; rfl⟩, hr⟩

/-- An operator that is shown as it is. -/
theorem operator {k : BinaryKind} (h₁ : Shows p i (t :: m) [a]) (h₂ : Shows q m r [b])
    (hkept : isKept t.kind = true) (hquiet : isWordKind t.kind = false)
    (rule : ∀ {i m r a b}, Derivation p i (t :: m) [a] → Derivation q m r [b] →
      Derivation s i r [.binary k false a b]) :
    Shows s i r [.binary k false a b] := by
  intro groups hw
  obtain ⟨⟨a', ⟨d₁⟩, ha⟩, hw⟩ := h₁.before hkept hquiet hw
  obtain ⟨⟨b', ⟨d₂⟩, hb⟩, hr⟩ := h₂.single hw
  exact ⟨⟨_, ⟨rule d₁ d₂⟩, by simp only [Shape.cores, Shape.core, ha, hb]⟩, hr⟩

theorem mul {k : BinaryKind} (hk : productKind? t.kind = some k)
    (h₁ : Shows .product i (t :: m) [a]) (h₂ : Shows .signed m r [b]) :
    Shows .product i r [.binary k false a b] := by
  intro groups hw
  obtain ⟨⟨a', ⟨d₁⟩, ha⟩, hw⟩ := h₁.single hw
  obtain ⟨u, hu, hk'⟩ := shown_product hk groups m
  rw [hu, words_quiet (isWordKind_of_productKind? hk'),
    words_quiet (isWordKind_of_productKind? hk)] at hw
  rw [hu] at d₁
  obtain ⟨⟨b', ⟨d₂⟩, hb⟩, hr⟩ := h₂.single hw
  exact ⟨⟨_, ⟨.mul d₁ hk' d₂⟩, by simp only [Shape.cores, Shape.core, ha, hb]⟩, hr⟩

theorem juxtapose (h₁ : Shows .product i m [a]) (h₂ : Shows .power m r [b]) :
    Shows .product i r [.binary .mul true a b] := by
  intro groups hw
  obtain ⟨⟨a', ⟨d₁⟩, ha⟩, hw⟩ := h₁.single hw
  obtain ⟨⟨b', ⟨d₂⟩, hb⟩, hr⟩ := h₂.single hw
  exact ⟨⟨_, ⟨.juxtapose d₁ d₂⟩, by simp only [Shape.cores, Shape.core, ha, hb]⟩, hr⟩

theorem sign {k : UnaryKind} (hk : signKind? t.kind = some k) (h : Shows .signed m r [a]) :
    Shows .signed (t :: m) r [.unary k a] := by
  intro groups hw
  have hkept : isKept t.kind = true := by rcases eq_of_signKind? hk with h | h <;> rw [h] <;> rfl
  rw [words_shown_kept hkept (isWordKind_of_signKind? hk)] at hw
  rw [shown_kept hkept]
  obtain ⟨⟨a', ⟨d⟩, ha⟩, hr⟩ := h.single hw
  exact ⟨⟨_, ⟨.sign hk d⟩, by simp only [Shape.cores, Shape.core, ha]⟩, hr⟩

theorem number (hn : t.kind.isNumber = true) :
    Shows .primary (t :: r) r [.number t.numeral] := by
  intro groups hw
  have hkept := isKept_of_isNumber hn
  rw [shown_kept hkept, words_cons, words_cons, word_isNumber hn, word_isNumber hn] at hw
  rw [shown_kept hkept]
  exact ⟨⟨_, ⟨.number hn⟩, rfl⟩, (List.cons.inj hw).2⟩

theorem symbol (h : Solid (t :: r)) (hn : t.isName = true)
    (hc : t.isCallable = true → opens r = false) : Shows .primary (t :: r) r [.symbol t.name] := by
  intro groups hw
  obtain ⟨u, hu, hun, huc, hname, hw⟩ := shown_symbol h hn hc hw
  rw [hu]
  exact ⟨⟨_, ⟨.symbol hun huc⟩, by simp only [Shape.cores, Shape.core, hname]⟩, hw⟩

theorem parenGroup (ht : t.kind = .openParen) (h : Shows .sum m (u :: r) [a])
    (hu : u.kind = .closeParen) : Shows .primary (t :: m) r [.group .paren a] := by
  intro groups hw
  have hkept : isKept t.kind = true := by rw [ht]; rfl
  rw [words_shown_kept hkept (by rw [ht]; rfl)] at hw
  rw [shown_kept hkept]
  obtain ⟨⟨a', ⟨d⟩, ha⟩, hw⟩ := h.before (by rw [hu]; rfl) (by rw [hu]; rfl) hw
  have hd : Delimiter.ofKind? t.kind = some .paren := by rw [ht]; rfl
  exact ⟨⟨_, ⟨.group hd d hu⟩, by simp only [Shape.cores, Shape.core, ha]⟩, hw⟩

/-- What is in braces that are shown as parentheses, from behind the opening one. -/
theorem inParens (h : Shows .sum m (u :: r) [a]) (hu : u.kind = .closeBrace)
    {groups : List ReadableGroup} (hw : words (shown false (.paren :: groups) m) = words m) :
    (∃ a', Nonempty (Derivation .sum (shown false (.paren :: groups) m)
        (⟨.closeParen, [')']⟩ :: shown false groups r) [a']) ∧ a'.core = a.core) ∧
      words (shown false groups r) = words r := by
  have hsingle := h.single hw
  rwa [shown_closeBrace hu, if_pos rfl, words_quiet rfl, words_quiet (by rw [hu]; rfl)] at hsingle

/-- What is in braces that are not shown is a number or a symbol. -/
theorem inFlat (h : Solid m) (d : Derivation .sum m (u :: r) [a]) (hu : u.kind = .closeBrace)
    (hf : isFlat m = true) {groups : List ReadableGroup}
    (hw : words (shown false (.flat :: groups) m) = words m) :
    (∃ a', Nonempty (Derivation .primary (shown false (.flat :: groups) m)
        (shown false groups r) [a']) ∧ a'.core = a.core) ∧
      words (shown false groups r) = words r := by
  obtain ⟨x, rfl⟩ := eq_of_isFlat h d hu hf
  have hprimary : Shows .primary (x :: u :: r) (u :: r) [a] := by
    rcases d.of_single with ⟨hn, rfl⟩ | ⟨hn, hc, rfl⟩
    · exact number hn
    · exact symbol h hn hc
  have hsingle := hprimary.single hw
  rwa [shown_closeBrace hu, if_neg (by decide), words_quiet (t := u) (by rw [hu]; rfl)] at hsingle

theorem braceGroup (h : Solid (t :: m)) (ht : t.kind = .openBrace)
    (d : Derivation .sum m (u :: r) [a]) (hm : Shows .sum m (u :: r) [a])
    (hu : u.kind = .closeBrace) : Shows .primary (t :: m) r [.group .brace a] := by
  intro groups hw
  rw [shown_openBrace ht, words_quiet (t := t) (by rw [ht]; rfl), Bool.not_false,
    Bool.and_true] at hw
  rw [shown_openBrace ht, Bool.not_false, Bool.and_true]
  by_cases hf : isFlat m = true
  · rw [if_pos hf] at hw ⊢
    obtain ⟨⟨a', hd, ha⟩, hw⟩ := inFlat h.tail d hu hf hw
    exact ⟨⟨_, hd, by simp only [Shape.cores, Shape.core, ha]⟩, hw⟩
  · rw [if_neg hf, words_quiet rfl] at hw
    rw [if_neg hf]
    obtain ⟨⟨a', ⟨d'⟩, ha⟩, hw⟩ := hm.inParens hu hw
    exact ⟨⟨_, ⟨.group (d := .paren) rfl d' rfl⟩, by simp only [Shape.cores, Shape.core, ha]⟩, hw⟩

/-- A call with braces is shown as one with parentheses. -/
theorem braceCall (h : Solid (t :: u :: m)) (hc : t.isCallable = true) (hu : u.kind = .openBrace)
    (d : Derivation .sum m (v :: r) [a]) (hm : Shows .sum m (v :: r) [a])
    (hv : v.kind = .closeBrace) :
    Shows .primary (t :: u :: m) r [.call t.name (t.kind = .command) .brace [a]] := by
  intro groups hw
  have hn := isName_of_isCallable hc
  have hopens : opens (u :: m) = true := by rw [opens_cons, hu]; rfl
  obtain ⟨w, afterRoot, hshown, hwn, hname, -⟩ :=
    shown_name (h t List.mem_cons_self).1 hn groups (u :: m)
  rw [hshown] at hw
  obtain ⟨hcalled, hw⟩ := words_of_name hn hwn hw
  rw [hc, hopens, Bool.and_self, Bool.and_eq_true] at hcalled
  have hflat : (isFlat m && !afterRoot) = false := by
    rw [← Bool.not_eq_true]
    intro hf
    have hclosed := not_opens_of_flat h.tail hu d hv hf groups
    rw [hcalled.2] at hclosed
    cases hclosed
  have hgroup : shown afterRoot groups (u :: m) =
      ⟨.openParen, ['(']⟩ :: shown false (.paren :: groups) m := by
    rw [shown_openBrace hu, hflat, if_neg (by decide)]
  rw [hgroup, words_quiet rfl, words_quiet (t := u) (by rw [hu]; rfl)] at hw
  obtain ⟨⟨a', ⟨d'⟩, ha⟩, hw⟩ := hm.inParens hv hw
  rw [hshown, hgroup]
  refine ⟨⟨_, ⟨.parenCall hcalled.1 rfl (.lastArgument d' rfl)⟩, ?_⟩, hw⟩
  simp only [Shape.cores, Shape.core, ha, hname]

theorem parenCall (h : Solid (t :: u :: m)) (hc : t.isCallable = true) (hu : u.kind = .openParen)
    (hm : Shows .arguments m r es) :
    Shows .primary (t :: u :: m) r [.call t.name (t.kind = .command) .paren es] := by
  intro groups hw
  have hn := isName_of_isCallable hc
  have hkept : isKept u.kind = true := by rw [hu]; rfl
  obtain ⟨w, afterRoot, hshown, hwn, hname, -⟩ :=
    shown_name (h t List.mem_cons_self).1 hn groups (u :: m)
  rw [shown_kept hkept] at hshown
  rw [hshown] at hw
  obtain ⟨hcalled, hw⟩ := words_of_name hn hwn hw
  rw [opens_cons, opens_cons, hc, hu, Bool.true_and] at hcalled
  have hcall : w.isCallable = true := by simpa [Kind.isOpening] using hcalled
  rw [words_quiet (by rw [hu]; rfl), words_quiet (by rw [hu]; rfl)] at hw
  obtain ⟨⟨es', ⟨d⟩, hes⟩, hw⟩ := hm groups hw
  rw [hshown]
  exact ⟨⟨_, ⟨.parenCall hcall hu d⟩, by simp only [Shape.cores, Shape.core, hes, hname]⟩, hw⟩

theorem lastArgument (h : Shows .sum m (v :: r) [a]) (hv : v.kind = .closeParen) :
    Shows .arguments m r [a] := by
  intro groups hw
  obtain ⟨⟨a', ⟨d⟩, ha⟩, hw⟩ := h.before (by rw [hv]; rfl) (by rw [hv]; rfl) hw
  exact ⟨⟨_, ⟨.lastArgument d hv⟩, by simp only [Shape.cores, ha]⟩, hw⟩

theorem nextArgument (h : Shows .sum m (v :: n) [a]) (hv : v.kind = .comma)
    (hs : Shows .arguments n r es) : Shows .arguments m r (a :: es) := by
  intro groups hw
  obtain ⟨⟨a', ⟨d⟩, ha⟩, hw⟩ := h.before (by rw [hv]; rfl) (by rw [hv]; rfl) hw
  obtain ⟨⟨es', ⟨ds⟩, hes⟩, hr⟩ := hs groups hw
  exact ⟨⟨_, ⟨.nextArgument d hv ds⟩, by simp only [Shape.cores, ha, hes]⟩, hr⟩

end Shows

theorem shows {p : Part} {i r : List Piece} {es : List Shape} (d : Derivation p i r es)
    (h : Solid i) : Shows p i r es := by
  induction d with
  | ofProduct _ ih => exact (ih h).of_rule .ofProduct
  | ofSigned _ ih => exact (ih h).of_rule .ofSigned
  | ofPower _ ih => exact (ih h).of_rule .ofPower
  | ofPrimary _ ih => exact (ih h).of_rule .ofPrimary
  | add d hk _ ih₁ ih₂ =>
    have hm := (h.of_suffix d.suffix).tail
    refine (ih₁ h).operator (ih₂ hm) ?_ (isWordKind_of_sumKind? hk) fun d₁ d₂ => .add d₁ hk d₂
    rcases eq_of_sumKind? hk with h | h <;> rw [h] <;> rfl
  | mul d hk _ ih₁ ih₂ => exact .mul hk (ih₁ h) (ih₂ (h.of_suffix d.suffix).tail)
  | juxtapose d _ ih₁ ih₂ => exact (ih₁ h).juxtapose (ih₂ (h.of_suffix d.suffix))
  | sign hk _ ih => exact .sign hk (ih h.tail)
  | raise d hk _ ih₁ ih₂ =>
    have hm := (h.of_suffix d.suffix).tail
    exact (ih₁ h).operator (ih₂ hm) (by rw [hk]; rfl) (by rw [hk]; rfl)
      fun d₁ d₂ => .raise d₁ hk d₂
  | number hn => exact .number hn
  | @group t u m r a k hd d hu ih =>
    have ht := Delimiter.eq_openKind hd
    cases k with
    | paren => exact .parenGroup ht (ih h.tail) hu
    | brace => exact .braceGroup h ht d (ih h.tail) hu
  | symbol hn hc => exact .symbol h hn hc
  | braceCall hc hu d hv ih => exact .braceCall h hc hu d (ih h.tail.tail) hv
  | parenCall hc hu _ ih => exact .parenCall h hc hu (ih h.tail.tail)
  | lastArgument _ hv ih => exact (ih h).lastArgument hv
  | nextArgument d hv _ ih₁ ih₂ =>
    exact (ih₁ h).nextArgument hv (ih₂ (h.of_suffix d.suffix).tail)

end Spelling

open Spelling

/-- What is shown of a text, white space included. -/
def shownRow (s : String) : List Piece := shown false [] ((tokens s).map Token.piece)

theorem mem_withoutSpace {t : Piece} {ts : List Piece} :
    t ∈ withoutSpace ts ↔ t ∈ ts ∧ t.kind ≠ .whitespace := by
  simp [withoutSpace, Piece.isSpace]

theorem filterMap_withoutSpace (ts : List Piece) :
    (withoutSpace ts).filterMap (word · false) = ts.filterMap (word · false) := by
  induction ts with
  | nil => rfl
  | cons t ts ih =>
    rw [withoutSpace_cons, List.filterMap_cons]
    split
    · next h =>
      rw [ih, word_eq_none (by rw [h]; rfl)]
    · rw [List.filterMap_cons, ih]

/-- The readable spelling of an accepted text is accepted and has the same core exactly if no two
pieces of it grow together and the same names are called in it as before. -/
theorem toReadable_core {s : String} {t : Expr} (h : parse s = .ok t) :
    (∃ t', parse (toReadable s) = .ok t' ∧ t'.shape.core = t.shape.core) ↔
      isLegible (shownRow s) = true ∧
        words (withoutSpace (shownRow s)) = words (pieces (tokens s)) := by
  obtain ⟨d⟩ := parse_eq_ok.mp ⟨t, h, rfl⟩
  have hlexed : Lexed (tokens s) := lexed_tokensFrom 0 s.toList
  have hrow : ∀ u ∈ (tokens s).map Token.piece, u.Valid ∧ u.kind ≠ .symbol := by
    intro u hu
    refine ⟨?_, fun hk => ?_⟩
    · obtain ⟨v, hv, rfl⟩ := List.mem_map.mp hu
      exact hlexed.valid v hv
    · have hmem : u ∈ pieces (tokens s) := by
        rw [pieces_eq]
        exact mem_withoutSpace.mpr ⟨hu, by rw [hk]; decide⟩
      cases d.mem_of_symbol hmem hk
  have hsolid : Solid (pieces (tokens s)) := by
    intro u hu
    rw [pieces_eq] at hu
    obtain ⟨hu, hspace⟩ := mem_withoutSpace.mp hu
    exact ⟨(hrow u hu).1, hspace⟩
  have hvalid : ∀ u ∈ shownRow s, u.Valid ∧ isShown u.kind = true :=
    valid_of_mem_shown hrow false []
  have hshown : withoutSpace (shownRow s) = shown false [] (pieces (tokens s)) := by
    rw [shownRow, withoutSpace_shown, ← pieces_eq]
  have htext : pieces (tokens (toReadable s)) = visible (rowText (shownRow s)) := by
    rw [tokens, toReadable, String.toList_ofList,
      readableFrom_eq ((Matched.of_derivation d).paired trivial)]
    rfl
  constructor
  · rintro ⟨t', h', he⟩
    obtain ⟨d'⟩ := parse_eq_ok.mp ⟨t', h', rfl⟩
    have hwords : words (visible (rowText (shownRow s))) = words (pieces (tokens s)) := by
      rw [← htext]
      exact d.words_congr d' he
    rw [htext] at d'
    have hsymbol : ∀ u ∈ visible (rowText (shownRow s)), u.kind ≠ .symbol :=
      fun u hu hk => by cases d'.mem_of_symbol hu hk
    have hvalues : (visible (rowText (shownRow s))).filterMap (word · false) =
        (shownRow s).filterMap (word · false) := by
      rw [← map_uncalled_words, hwords, map_uncalled_words, pieces_eq, filterMap_withoutSpace,
        shownRow, uncalled_shown fun u hu => (hrow u hu).1]
    have hcount : count (visible (rowText (shownRow s))) = count (shownRow s) := by
      rw [← length_words hsymbol, hvalues, length_words]
      intro u hu hk
      have hs := (hvalid u hu).2
      rw [hk] at hs
      cases hs
    have hlegible := HasWords.isLegible ⟨hcount, hsymbol, hvalues⟩ hvalid
    exact ⟨hlegible, by rw [Alike.words_eq (alike_visible hvalid hlegible), hwords]⟩
  · rintro ⟨hlegible, hwords⟩
    rw [hshown] at hwords
    obtain ⟨⟨e, ⟨d'⟩, he⟩, -⟩ := (shows d hsolid).single hwords
    rw [← hshown] at d'
    obtain ⟨_, es, hr, hd, hes⟩ := d'.derivesAlike _ (alike_visible hvalid hlegible)
    obtain ⟨e', rfl, he'⟩ := Shape.eq_singleton_of_cores hes
    cases hr
    rw [← htext] at hd
    obtain ⟨t', h', rfl⟩ := parse_eq_ok.mpr hd
    exact ⟨t', h', he'.trans he⟩

theorem toReadable_core_root : ∃ t t', parse "\\sqrt\x7b2\x7dx^\x7b10\x7d" = .ok t ∧
    parse (toReadable "\\sqrt\x7b2\x7dx^\x7b10\x7d") = .ok t' ∧ t'.shape.core = t.shape.core := by
  have hlegible : isLegible (shownRow "\\sqrt\x7b2\x7dx^\x7b10\x7d") = true := by decide +kernel
  have hwords : words (withoutSpace (shownRow "\\sqrt\x7b2\x7dx^\x7b10\x7d")) =
      words (pieces (tokens "\\sqrt\x7b2\x7dx^\x7b10\x7d")) := by decide +kernel
  have haccepted : (parse "\\sqrt\x7b2\x7dx^\x7b10\x7d").isOk = true := by decide +kernel
  cases h : parse "\\sqrt\x7b2\x7dx^\x7b10\x7d" with
  | error f => rw [h] at haccepted; cases haccepted
  | ok t =>
    obtain ⟨t', h', he⟩ := (toReadable_core h).mpr ⟨hlegible, hwords⟩
    exact ⟨t, t', rfl, h', he⟩

/-- A call with braces around a single piece is shown as one name. -/
theorem toReadable_joins_call : ¬∀ (s : String) (t : Expr), parse s = .ok t →
    t.shape.singleArgs = true →
    ∃ t', parse (toReadable s) = .ok t' ∧ t'.shape.core = t.shape.core := by
  intro hkeeps
  have hwords : ((parse "\\sin\x7bx\x7d").toOption.any fun t =>
      (parse (toReadable "\\sin\x7bx\x7d")).toOption.any fun t' =>
        t.shape.singleArgs && t.shape.core.words ≠ t'.shape.core.words) = true := by decide +kernel
  cases h : parse "\\sin\x7bx\x7d" with
  | error f => rw [h] at hwords; cases hwords
  | ok t =>
    cases h' : parse (toReadable "\\sin\x7bx\x7d") with
    | error f => rw [h, h'] at hwords; cases hwords
    | ok t' =>
      rw [h, h'] at hwords
      obtain ⟨hargs, hne⟩ : t.shape.singleArgs = true ∧
          t.shape.core.words ≠ t'.shape.core.words := by simpa [Except.toOption] using hwords
      obtain ⟨t'', h'', he⟩ := hkeeps _ t h hargs
      rw [h'] at h''
      cases h''
      exact hne (by rw [he])

end CurveGuess
