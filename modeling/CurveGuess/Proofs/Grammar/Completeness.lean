import CurveGuess.Proofs.Grammar.Soundness

/-!
# What is derived is read

The converse, by induction on the derivation. After the left operand of an operator the reader has
still to climb, so what is shown of an operand is not that reading ends behind it but that it comes
to the loop with that operand in hand, at every precedence its part is read at. Together with
soundness and uniqueness the reader accepts the grammar and returns its trees.
-/
namespace CurveGuess

namespace Part

/-- The loosest precedence at which the reader takes all of a part. -/
def limit : Part → Precedence
  | sum => .term
  | product => .factor
  | _ => .power

/-- What may come after a part: nothing that the reader would add to it. -/
def Follows : Part → List Piece → Prop
  | sum, r => Stops .factor r
  | product, r | signed, r | power, r => Stops .sign r
  | _, _ => True

end Part

theorem Stops.mono {p q : Precedence} {ts : List Piece} (h : Stops p ts) (hpq : p.rank ≤ q.rank) :
    Stops q ts := by
  intro o ho
  have := h o ho
  omega

/-- An operator is no tighter than its precedence. -/
theorem stops_cons {p : Precedence} {t : Piece} {ts : List Piece} {k : BinaryKind} {b : Bool}
    (h : t.kind.operator? = some (k, b)) (hp : k.precedence.rank < p.rank) :
    Stops p (t :: ts) := by
  intro o ho
  rw [Piece.operator?, List.head?_cons, Option.bind_some, h] at ho
  cases ho
  exact hp

theorem stops_of_closing {p : Precedence} {t : Piece} {ts : List Piece}
    (h : t.kind.operator? = none) : Stops p (t :: ts) := by
  intro o ho
  rw [Piece.operator?, List.head?_cons, Option.bind_some, h] at ho
  cases ho

theorem stops_nil {p : Precedence} : Stops p [] := by
  intro o ho
  cases ho

theorem stops_power_of_sign {ts : List Piece} (h : Stops .sign ts) : Stops .power ts :=
  h.mono (by decide)

namespace Kind

theorem operator?_of_startsOperand (k : Kind) :
    k.startsOperand = true → k.operator? = some (.mul, true) := by
  cases k <;> decide

theorem startsOperand_of_isOpening (k : Kind) :
    k.isOpening = true → k.startsOperand = true := by
  cases k <;> decide

theorem startsOperand_of_isNumber (k : Kind) :
    k.isNumber = true → k.startsOperand = true := by
  cases k <;> decide

theorem not_isClosing (k : Kind) :
    k.startsOperand = true ∨ k.isSign = true → k.isClosing = false := by
  cases k <;> decide

theorem not_isSign (k : Kind) : k.startsOperand = true → k.isSign = false := by
  cases k <;> decide

theorem isOpening_openKind (d : Delimiter) : d.openKind.isOpening = true := by
  cases d <;> rfl

theorem isClosing_closeKind (d : Delimiter) : d.closeKind.isClosing = true := by
  cases d <;> rfl

theorem operator?_closeKind (d : Delimiter) : d.closeKind.operator? = none := by
  cases d <;> rfl

theorem isSign_of_signKind? {k : Kind} {u : UnaryKind} (h : signKind? k = some u) :
    k.isSign = true := by
  cases k <;> simp [signKind?] at h <;> rfl

end Kind

theorem operator?_of_sumKind? {k : Kind} {o : BinaryKind} (h : sumKind? k = some o) :
    k.operator? = some (o, false) ∧ o.precedence = .term ∧ o.above = .factor := by
  cases k <;> simp [sumKind?] at h <;> subst h <;> exact ⟨rfl, rfl, rfl⟩

theorem operator?_of_productKind? {k : Kind} {o : BinaryKind} (h : productKind? k = some o) :
    k.operator? = some (o, false) ∧ o.precedence = .factor ∧ o.above = .power := by
  cases k <;> simp [productKind?] at h <;> subst h <;> exact ⟨rfl, rfl, rfl⟩

namespace Piece

theorem startsOperand_of_isName {t : Piece} (h : t.isName = true) :
    t.kind.startsOperand = true := by
  rw [isName, Bool.or_eq_true, decide_eq_true_eq, decide_eq_true_eq] at h
  rcases h with h | h <;> rw [h] <;> rfl

theorem isName_of_isCallable {t : Piece} (h : t.isCallable = true) : t.isName = true := by
  rw [isCallable, Bool.or_eq_true, Bool.and_eq_true] at h
  rcases h with h | ⟨h, -⟩ <;> simp [isName, h]

end Piece

namespace Derivation

/-- A part begins with a sign or with an operand. -/
theorem head {p : Part} {i r : List Piece} {es : List Shape} (d : Derivation p i r es) :
    ∃ t ts, i = t :: ts ∧ (t.kind.startsOperand = true ∨
      t.kind.isSign = true ∧ p ≠ .power ∧ p ≠ .primary) := by
  induction d with
  | ofProduct _ ih | ofSigned _ ih | add _ _ _ ih _ | mul _ _ _ ih _ | juxtapose _ _ ih _
  | lastArgument _ _ ih | nextArgument _ _ _ ih _ =>
    obtain ⟨t, ts, rfl, h⟩ := ih
    exact ⟨t, ts, rfl, by simpa using h⟩
  | ofPower _ ih | ofPrimary _ ih | raise _ _ _ ih _ =>
    obtain ⟨t, ts, rfl, h⟩ := ih
    exact ⟨t, ts, rfl, .inl (by simpa using h)⟩
  | sign h _ _ =>
    refine ⟨_, _, rfl, .inr ⟨?_, by simp, by simp⟩⟩
    unfold signKind? at h
    split at h <;> simp_all [Kind.isSign]
  | number h => exact ⟨_, _, rfl, .inl (Kind.startsOperand_of_isNumber _ h)⟩
  | group h _ _ _ =>
    refine ⟨_, _, rfl, .inl (Kind.startsOperand_of_isOpening _ ?_)⟩
    rw [Delimiter.eq_openKind h]
    exact Kind.isOpening_openKind _
  | symbol h _ => exact ⟨_, _, rfl, .inl (Piece.startsOperand_of_isName h)⟩
  | braceCall h _ _ _ _ | parenCall h _ _ _ =>
    exact ⟨_, _, rfl, .inl (Piece.startsOperand_of_isName (Piece.isName_of_isCallable h))⟩

end Derivation

theorem Cursor.exists_readToken {c : Cursor} {t : Piece} {ts : List Piece}
    (h : c.pieces = t :: ts) :
    ∃ u c', readToken c = .done u c' ∧ u.piece = t ∧ c'.pieces = ts := by
  obtain ⟨u, us, ha, rfl, rfl⟩ := List.map_eq_cons_iff.mp h
  obtain ⟨c', hc, hus⟩ := readToken_of_cons ha
  exact ⟨u, c', hc, rfl, by rw [Cursor.pieces, hus]⟩

namespace Expr

/-- Reading at `c` comes to the state in which `e` has been read and `r` is to come. -/
def Reaches (c : Cursor) (q : Precedence) (e : Shape) (r : List Piece) : Prop :=
  ∃ t c', t.shape = e ∧ c'.pieces = r ∧
    ∀ p : Precedence, p.rank ≤ q.rank → readAtLeast p c = climb t p c'

theorem Reaches.mono {c : Cursor} {p q : Precedence} {e : Shape} {r : List Piece}
    (h : Reaches c q e r) (hpq : p.rank ≤ q.rank) : Reaches c p e r := by
  obtain ⟨t, c', ht, hc, h⟩ := h
  exact ⟨t, c', ht, hc, fun p' hp' => h p' (hp'.trans hpq)⟩

theorem Reaches.done {c : Cursor} {p q : Precedence} {e : Shape} {r : List Piece}
    (h : Reaches c q e r) (hp : p.rank ≤ q.rank) (hr : Stops p r) :
    ∃ t c', t.shape = e ∧ c'.pieces = r ∧ readAtLeast p c = .done t c' := by
  obtain ⟨t, c', ht, rfl, h⟩ := h
  exact ⟨t, c', ht, rfl, (h p hp).trans (climb_of_stops t hr)⟩

theorem Reaches.of_readSigned {c c' : Cursor} {t : Expr} (h : readSigned c = .done t c') :
    Reaches c .power t.shape c'.pieces := by
  refine ⟨t, c', rfl, rfl, fun p _ => ?_⟩
  rw [readAtLeast, h, Reading.andThen_done]

/-- An operator after what was read is taken with its right operand. -/
theorem Reaches.operator {c : Cursor} {q : Precedence} {a b : Shape} {t : Piece}
    {ts r : List Piece} {k : BinaryKind} {isImplicit : Bool} (h : Reaches c q a (t :: ts))
    (hk : t.kind.operator? = some (k, isImplicit)) (hq : q.rank ≤ k.precedence.rank)
    (hr : ∀ c', c'.pieces = (if isImplicit then t :: ts else ts) →
      ∃ u c'', u.shape = b ∧ c''.pieces = r ∧ readAtLeast k.above c' = .done u c'') :
    Reaches c q (.binary k isImplicit a b) r := by
  obtain ⟨left, c₁, rfl, hc₁, h⟩ := h
  obtain ⟨op, c₂, rfl, rfl, hc₂, -, hclimb⟩ := exists_operator hc₁ hk
  obtain ⟨right, c₃, rfl, hc₃, hright⟩ := hr c₂ hc₂
  refine ⟨join op left right, c₃, rfl, hc₃, fun p hp => ?_⟩
  rw [h p hp, hclimb left p (by omega), hright, Reading.andThen_done]

theorem read_eq_readAtLeast {c : Cursor} {t : Piece} {ts : List Piece} (hc : c.pieces = t :: ts)
    (h : t.kind.isClosing = false) : read c = readAtLeast .any c := by
  obtain ⟨f, hf⟩ := read_eq c
  rw [hf, Cursor.sees_eq, hc, List.head?_cons, Option.any_some, h]
  rfl

theorem exists_readFilled {c : Cursor} {t u : Piece} {ts : List Piece} {d : Delimiter}
    (hc : c.pieces = t :: u :: ts) (hd : Delimiter.ofKind? t.kind = some d)
    (hu : u.kind.isClosing = false) :
    ∃ o c', Opening.readFilled c = .done o c' ∧ o.delimiter = d ∧ c'.pieces = u :: ts := by
  obtain ⟨v, c', hv, rfl, hc'⟩ := Cursor.exists_readToken hc
  refine ⟨⟨d, v.span⟩, c', Opening.readFilled_eq_done.mpr ⟨⟨v, hv, hd, rfl⟩, ?_⟩, rfl, hc'⟩
  intro w hw hk
  have hp : c'.pieces.head? = some w.piece := by
    rw [Cursor.pieces, List.head?_map, hw, Option.map_some]
  rw [hc', List.head?_cons, Option.some.injEq] at hp
  rw [hp, Token.kind_piece, hk, Kind.isClosing_closeKind] at hu
  cases hu

/-- A derived part is read. The reader has opened a call when it comes to the arguments. -/
def Complete : Part → List Piece → List Piece → List Shape → Prop
  | .arguments, i, r, es => ∀ (o : Opening) (c : Cursor), o.delimiter = .paren → c.pieces = i →
      ∃ t c₁ args s c₂, read c = .done t c₁ ∧ readArgs o c₁ = .done (args, s) c₂ ∧
        shapes (t :: args) = es ∧ c₂.pieces = r
  | p, i, r, es => p.Follows r → ∀ c, c.pieces = i → ∃ e, es = [e] ∧ Reaches c p.limit e r

theorem readClose_of_pieces (o : Opening) (ks : List Kind) {c : Cursor} {t : Piece}
    {ts : List Piece} (hc : c.pieces = t :: ts) (hk : t.kind = o.delimiter.closeKind) :
    ∃ s c', o.readClose ks c = .done s c' ∧ c'.pieces = ts := by
  obtain ⟨u, c', hu, rfl, hc'⟩ := Cursor.exists_readToken hc
  exact ⟨u.span, c', Opening.readClose_eq_done.mpr ⟨u, hu, hk, rfl⟩, hc'⟩

/-- What a group holds is read up to its end. -/
theorem exists_read {i r : List Piece} {e : Shape} {c : Cursor} {u : Piece}
    (d : Derivation .sum i (u :: r) [e]) (h : Complete .sum i (u :: r) [e])
    (hu : u.kind.operator? = none) (hc : c.pieces = i) :
    ∃ t c', t.shape = e ∧ c'.pieces = u :: r ∧ read c = .done t c' := by
  obtain ⟨v, vs, hi, hv⟩ := d.head
  obtain ⟨_, he, hreach⟩ := h (stops_of_closing hu) c hc
  cases he
  rw [read_eq_readAtLeast (hc.trans hi) (Kind.not_isClosing _ (hv.imp_right And.left))]
  exact hreach.done (by decide) (stops_of_closing hu)

theorem readSigned_of_startsOperand {c : Cursor} {t : Piece} {ts : List Piece}
    (hc : c.pieces = t :: ts) (h : t.kind.startsOperand = true) :
    readSigned c = readPrimary c := by
  rw [readSigned, Cursor.sees_eq, hc, List.head?_cons, Option.any_some, Kind.not_isSign _ h]
  rfl

theorem readPrimary_eq {c : Cursor} {t : Piece} {ts : List Piece} (hc : c.pieces = t :: ts)
    (h : t.kind.startsOperand = true) :
    readPrimary c = if t.kind.isOpening then (readGroup c).restore c
      else if startsCall c then (readCall c).restore c else (readLiteral c).restore c := by
  obtain ⟨u, us, ha, rfl, -⟩ := List.map_eq_cons_iff.mp hc
  rw [readPrimary, Cursor.peek?_eq, ha]
  simp only [List.head?_cons]
  rw [Token.kind_piece] at h ⊢
  rw [if_pos h]

/-- A call and a literal begin with no opening token. -/
theorem not_isOpening_of_isName {t : Piece} (h : t.isName = true) : t.kind.isOpening = false := by
  rw [Piece.isName, Bool.or_eq_true, decide_eq_true_eq, decide_eq_true_eq] at h
  rcases h with h | h <;> rw [h] <;> rfl

theorem readUnary_of_readAtLeast {c c₁ c₂ : Cursor} {t : Token} {k : UnaryKind} {e : Expr}
    (ht : readToken c = .done t c₁) (hk : signKind? t.kind = some k)
    (he : readAtLeast .sign c₁ = .done e c₂) :
    ∃ op span, op.kind = k ∧ readUnary c = .done (.unary op e span) c₂ := by
  obtain ⟨op, hop, hkind⟩ : ∃ op, UnaryOp.ofToken? t = some op ∧ op.kind = k := by
    unfold UnaryOp.ofToken?
    cases hkk : t.kind <;> simp [hkk, signKind?] at hk ⊢ <;> exact hk
  refine ⟨op, op.span.through e.span, hkind, ?_⟩
  have hread : (UnaryOp.read c).restore c = .done op c₁ :=
    Reading.restore_eq_done.mpr (UnaryOp.read_eq_done.mpr ⟨t, ht, hop⟩)
  obtain ⟨operand, c', hoperand, hclimb⟩ := Reading.andThen_eq_done.mp he
  rw [readUnary, hread, Reading.advance_done _ _ _ (ahead_of_readToken ht).2, hoperand,
    Reading.advance_done _ _ _ (readSigned_lt hoperand), hclimb]
  rfl

theorem readGroup_of_read {c c₁ c₂ c₃ : Cursor} {o : Opening} {e : Expr} {s : Span}
    (ho : Opening.readFilled c = .done o c₁) (he : read c₁ = .done e c₂)
    (hs : o.readClose [o.delimiter.closeKind] c₂ = .done s c₃) :
    readGroup c = .done (.group o.delimiter e (o.span.through s)) c₃ := by
  obtain ⟨⟨t, ht, -⟩, -⟩ := Opening.readFilled_eq_done.mp ho
  rw [readGroup, ho, Reading.advance_done _ _ _ (ahead_of_readToken ht).2, he,
    Reading.restore_done, Reading.andThen_done, hs]
  rfl

theorem readCall_of_readArgs {c c₁ c₂ c₃ c₄ : Cursor} {i : Ident} {o : Opening} {e : Expr}
    {args : List Expr} {s : Span} (hi : Ident.read c = .done i c₁)
    (ho : Opening.readFilled c₁ = .done o c₂) (he : read c₂ = .done e c₃)
    (hs : readArgs o c₃ = .done (args, s) c₄) :
    readCall c = .done (.call i (c.sees (· = .command)) o.delimiter (e :: args)
      (i.span.through s)) c₄ := by
  obtain ⟨t, ht, -⟩ := Ident.read_eq_done.mp hi
  obtain ⟨⟨u, hu, -⟩, -⟩ := Opening.readFilled_eq_done.mp ho
  rw [readCall, hi, Reading.advance_done _ _ _ (ahead_of_readToken ht).2, ho,
    Reading.advance_done _ _ _ (ahead_of_readToken hu).2, he, Reading.restore_done,
    Reading.advance_done _ _ _ (read_lt he), hs]
  rfl

/-- A literal is read where it is not called. -/
theorem readSigned_of_readLiteral {c c' : Cursor} {t : Piece} {ts : List Piece} {e : Expr}
    (hc : c.pieces = t :: ts) (ht : t.kind.startsOperand = true) (ho : t.kind.isOpening = false)
    (hs : (t.isCallable && Piece.opens ts) = false) (h : readLiteral c = .done e c') :
    readSigned c = .done e c' := by
  rw [readSigned_of_startsOperand hc ht, readPrimary_eq hc ht, ho, startsCall_eq hc, hs, h]
  rfl

theorem readSigned_of_readCall {c c' : Cursor} {t : Piece} {ts : List Piece} {e : Expr}
    (hc : c.pieces = t :: ts) (ht : t.isCallable = true) (ho : Piece.opens ts = true)
    (h : readCall c = .done e c') : readSigned c = .done e c' := by
  have hn := Piece.isName_of_isCallable ht
  have hs := Piece.startsOperand_of_isName hn
  rw [readSigned_of_startsOperand hc hs, readPrimary_eq hc hs, not_isOpening_of_isName hn,
    startsCall_eq hc, ht, ho, h]
  rfl

theorem readSigned_of_readGroup {c c' : Cursor} {t : Piece} {ts : List Piece} {e : Expr}
    (hc : c.pieces = t :: ts) (ht : t.kind.isOpening = true) (h : readGroup c = .done e c') :
    readSigned c = .done e c' := by
  have hs := Kind.startsOperand_of_isOpening _ ht
  rw [readSigned_of_startsOperand hc hs, readPrimary_eq hc hs, ht, h]
  rfl

theorem reaches_number {c : Cursor} {t : Piece} {r : List Piece} (h : t.kind.isNumber = true)
    (hc : c.pieces = t :: r) : Reaches c .power (.number t.numeral) r := by
  obtain ⟨u, c', hu, rfl, rfl⟩ := Cursor.exists_readToken hc
  have hcall : u.piece.isCallable = false := by
    rw [Piece.isCallable_piece]
    cases hk : u.kind <;> simp [hk, Kind.isNumber] at h ⊢
  have hopen : u.kind.isOpening = false := by
    cases hk : u.kind <;> simp [hk, Kind.isNumber, Kind.isOpening] at h ⊢
  have hlit := readLiteral_eq_done.mpr ⟨u, hu, .inl ⟨h, rfl⟩⟩
  have hread := readSigned_of_readLiteral hc (Kind.startsOperand_of_isNumber _ h) hopen
    (by rw [hcall, Bool.false_and]) hlit
  have hreach := Reaches.of_readSigned hread
  rwa [shape, ← String.ofList_toList (s := u.lexeme)] at hreach

theorem reaches_symbol {c : Cursor} {t : Piece} {r : List Piece} (h : t.isName = true)
    (hs : t.isCallable = true → Piece.opens r = false) (hc : c.pieces = t :: r) :
    Reaches c .power (.symbol t.name) r := by
  obtain ⟨u, c', hu, rfl, rfl⟩ := Cursor.exists_readToken hc
  have hk : u.kind = .name ∨ u.kind = .command := by simpa [Piece.isName_piece] using h
  have hlit := readLiteral_eq_done.mpr ⟨u, hu, .inr ⟨hk, rfl⟩⟩
  refine Reaches.of_readSigned (t := .symbol ⟨u.bareName, u.span⟩) ?_
  refine readSigned_of_readLiteral hc (Piece.startsOperand_of_isName h)
    (not_isOpening_of_isName h) ?_ hlit
  cases hcall : u.piece.isCallable with
  | false => rfl
  | true => rw [hs hcall, Bool.and_false]

theorem reaches_group {c : Cursor} {t u : Piece} {m r : List Piece} {e : Shape} {d : Delimiter}
    (hd : Delimiter.ofKind? t.kind = some d) (di : Derivation .sum m (u :: r) [e])
    (h : Complete .sum m (u :: r) [e]) (hu : u.kind = d.closeKind) (hc : c.pieces = t :: m) :
    Reaches c .power (.group d e) r := by
  obtain ⟨v, vs, rfl, hv⟩ := di.head
  obtain ⟨o, c₁, ho, rfl, hc₁⟩ :=
    exists_readFilled hc hd (Kind.not_isClosing _ (hv.imp_right And.left))
  obtain ⟨inner, c₂, rfl, hc₂, hread⟩ :=
    exists_read di h (by rw [hu]; exact Kind.operator?_closeKind _) hc₁
  obtain ⟨s, c₃, hclose, rfl⟩ := readClose_of_pieces o [o.delimiter.closeKind] hc₂ hu
  have hopen : t.kind.isOpening = true := by
    rw [Delimiter.eq_openKind hd]
    exact Kind.isOpening_openKind _
  exact Reaches.of_readSigned
    (readSigned_of_readGroup hc hopen (readGroup_of_read ho hread hclose))

/-- The callee and the opening token of a call. -/
theorem exists_callee {c : Cursor} {t u v : Piece} {ts : List Piece} {d : Delimiter}
    (hc : c.pieces = t :: u :: v :: ts) (ht : t.isCallable = true)
    (hd : Delimiter.ofKind? u.kind = some d) (hv : v.kind.isClosing = false) :
    ∃ i o c₁ c₂, Ident.read c = .done i c₁ ∧ Opening.readFilled c₁ = .done o c₂ ∧
      i.name = t.name ∧ c.sees (· = .command) = decide (t.kind = .command) ∧
      o.delimiter = d ∧ c₂.pieces = v :: ts := by
  obtain ⟨w, c₁, hw, rfl, hc₁⟩ := Cursor.exists_readToken hc
  obtain ⟨o, c₂, ho, hdel, hc₂⟩ := exists_readFilled hc₁ hd hv
  have hk : w.kind = .name ∨ w.kind = .command := by
    simpa [Piece.isName_piece] using Piece.isName_of_isCallable ht
  refine ⟨_, o, c₁, c₂, Ident.read_eq_done.mpr ⟨w, hw, hk, rfl⟩, ho, rfl, ?_, hdel, hc₂⟩
  rw [Cursor.sees_eq, hc]
  rfl

theorem reaches_braceCall {c : Cursor} {t u v : Piece} {m r : List Piece} {e : Shape}
    (ht : t.isCallable = true) (hu : u.kind = .openBrace) (d : Derivation .sum m (v :: r) [e])
    (h : Complete .sum m (v :: r) [e]) (hv : v.kind = .closeBrace)
    (hc : c.pieces = t :: u :: m) :
    Reaches c .power (.call t.name (t.kind = .command) .brace [e]) r := by
  obtain ⟨w, ws, rfl, hw⟩ := d.head
  obtain ⟨i, o, c₁, c₂, hi, ho, hname, hformal, hdel, hc₂⟩ := exists_callee hc ht
    (d := .brace) (by rw [hu]; rfl) (Kind.not_isClosing _ (hw.imp_right And.left))
  obtain ⟨arg, c₃, rfl, hc₃, hread⟩ := exists_read d h (by rw [hv]; rfl) hc₂
  obtain ⟨s, c₄, hclose, rfl⟩ := readClose_of_pieces o [.closeBrace] hc₃ (by rw [hv, hdel]; rfl)
  have hargs : readArgs o c₃ = .done ([], s) c₄ := by
    rw [readArgs, hdel, hclose]
    rfl
  have hcall := readSigned_of_readCall hc ht (by rw [Piece.opens_cons, hu]; rfl)
    (readCall_of_readArgs hi ho hread hargs)
  have hreach := Reaches.of_readSigned hcall
  rwa [shape, shapes, shapes, hname, hformal, hdel] at hreach

theorem reaches_parenCall {c : Cursor} {t u : Piece} {m r : List Piece} {es : List Shape}
    (ht : t.isCallable = true) (hu : u.kind = .openParen) (d : Derivation .arguments m r es)
    (h : Complete .arguments m r es) (hc : c.pieces = t :: u :: m) :
    Reaches c .power (.call t.name (t.kind = .command) .paren es) r := by
  obtain ⟨w, ws, rfl, hw⟩ := d.head
  obtain ⟨i, o, c₁, c₂, hi, ho, hname, hformal, hdel, hc₂⟩ := exists_callee hc ht
    (d := .paren) (by rw [hu]; rfl) (Kind.not_isClosing _ (hw.imp_right And.left))
  obtain ⟨arg, c₃, args, s, c₄, hread, hargs, rfl, rfl⟩ := h o c₂ hdel hc₂
  have hcall := readSigned_of_readCall hc ht (by rw [Piece.opens_cons, hu]; rfl)
    (readCall_of_readArgs hi ho hread hargs)
  have hreach := Reaches.of_readSigned hcall
  rwa [shape, hname, hformal, hdel] at hreach

theorem reaches_sign {c : Cursor} {t : Piece} {m r : List Piece} {a : Shape} {k : UnaryKind}
    (hk : signKind? t.kind = some k) (h : Complete .signed m r [a]) (hr : Stops .sign r)
    (hc : c.pieces = t :: m) : Reaches c .power (.unary k a) r := by
  obtain ⟨u, c₁, h₁, rfl, hc₁⟩ := Cursor.exists_readToken hc
  obtain ⟨_, he, hreach⟩ := h hr c₁ hc₁
  cases he
  obtain ⟨operand, c₂, rfl, rfl, hread⟩ := hreach.done (p := .sign) (by decide) hr
  obtain ⟨op, span, rfl, hunary⟩ := readUnary_of_readAtLeast h₁ hk hread
  refine Reaches.of_readSigned (t := .unary op operand span) ?_
  have hsign : c.sees Kind.isSign = true := by
    rw [Cursor.sees_eq, hc, List.head?_cons, Option.any_some, Kind.isSign_of_signKind? hk]
  rw [readSigned, if_pos hsign, hunary]

/-- The parenthesis after an argument ends a call. -/
theorem Complete.lastArgument {v : Piece} {m r : List Piece} {e : Shape}
    (d : Derivation .sum m (v :: r) [e]) (h : Complete .sum m (v :: r) [e])
    (hv : v.kind = .closeParen) : Complete .arguments m r [e] := by
  intro o c ho hc
  obtain ⟨arg, c₁, rfl, hc₁, hread⟩ := exists_read d h (by rw [hv]; rfl) hc
  obtain ⟨s, c₂, hclose, rfl⟩ := readClose_of_pieces o [.comma, .closeParen] hc₁
    (by rw [hv, ho]; rfl)
  refine ⟨arg, c₁, [], s, c₂, hread, ?_, rfl, rfl⟩
  rw [readArgs, ho]
  simp only
  split
  · rw [hclose]
    rfl
  · next hcomma =>
    obtain ⟨hw, hk⟩ := readKind_eq_done.mp hcomma
    have hp := Cursor.pieces_of_readToken hw
    rw [hc₁] at hp
    rw [(List.cons.inj hp).1, Token.kind_piece, hk] at hv
    cases hv

/-- The comma after an argument makes the reader read on. -/
theorem Complete.nextArgument {v : Piece} {m n r : List Piece} {e : Shape} {es : List Shape}
    (d : Derivation .sum m (v :: n) [e]) (h : Complete .sum m (v :: n) [e])
    (hv : v.kind = .comma) (hs : Complete .arguments n r es) :
    Complete .arguments m r (e :: es) := by
  intro o c ho hc
  obtain ⟨arg, c₁, rfl, hc₁, hread⟩ := exists_read d h (by rw [hv]; rfl) hc
  obtain ⟨t, c₂, ht, rfl, hc₂⟩ := Cursor.exists_readToken hc₁
  obtain ⟨arg', c₃, args, s, c₄, hread', hargs, rfl, rfl⟩ := hs o c₂ ho hc₂
  refine ⟨arg, c₁, arg' :: args, s, c₄, hread, ?_, rfl, rfl⟩
  have hcomma : readKind .comma c₁ = .done t c₂ := readKind_eq_done.mpr ⟨ht, hv⟩
  rw [readArgs, ho]
  simp only [hcomma]
  rw [Reading.advance_done _ _ _ (ahead_of_readToken ht).2, hread', Reading.restore_done,
    Reading.advance_done _ _ _ (read_lt hread'), hargs]
  rfl

theorem complete {p : Part} {i r : List Piece} {es : List Shape} (d : Derivation p i r es) :
    Complete p i r es := by
  induction d with
  | ofProduct d ih =>
    intro hr c hc
    obtain ⟨e, he, h⟩ := ih (hr.mono (by decide)) c hc
    exact ⟨e, he, h.mono (by decide)⟩
  | @add i t m r a b k d₁ hk d₂ ih₁ ih₂ =>
    intro hr c hc
    obtain ⟨ho, hp, ha⟩ := operator?_of_sumKind? hk
    obtain ⟨_, he, h₁⟩ := ih₁ (stops_cons ho (by rw [hp]; decide)) c hc
    cases he
    refine ⟨_, rfl, h₁.operator ho (by rw [hp]; decide) fun c' hc' => ?_⟩
    obtain ⟨_, he, h₂⟩ := ih₂ (hr.mono (by decide)) c' hc'
    cases he
    rw [ha]
    exact h₂.done (by decide) hr
  | ofSigned d ih =>
    intro hr c hc
    obtain ⟨e, he, h⟩ := ih hr c hc
    exact ⟨e, he, h.mono (by decide)⟩
  | mul d₁ hk d₂ ih₁ ih₂ =>
    intro hr c hc
    obtain ⟨ho, hp, ha⟩ := operator?_of_productKind? hk
    obtain ⟨_, he, h₁⟩ := ih₁ (stops_cons ho (by rw [hp]; decide)) c hc
    cases he
    refine ⟨_, rfl, h₁.operator ho (by rw [hp]; decide) fun c' hc' => ?_⟩
    obtain ⟨_, he, h₂⟩ := ih₂ hr c' hc'
    cases he
    rw [ha]
    exact h₂.done (by decide) (stops_power_of_sign hr)
  | juxtapose d₁ d₂ ih₁ ih₂ =>
    intro hr c hc
    obtain ⟨t, ts, rfl, ht⟩ := d₂.head
    have ho := Kind.operator?_of_startsOperand t.kind (by simpa using ht)
    obtain ⟨_, he, h₁⟩ := ih₁ (stops_cons ho (by decide)) c hc
    cases he
    refine ⟨_, rfl, h₁.operator ho (by decide) fun c' hc' => ?_⟩
    obtain ⟨_, he, h₂⟩ := ih₂ hr c' hc'
    cases he
    exact h₂.done (by decide) (stops_power_of_sign hr)
  | sign hk d ih => exact fun hr c hc => ⟨_, rfl, reaches_sign hk ih hr hc⟩
  | ofPower d ih => exact ih
  | ofPrimary d ih =>
    intro _ c hc
    exact ih trivial c hc
  | raise d₁ hk d₂ ih₁ ih₂ =>
    intro hr c hc
    obtain ⟨_, he, h₁⟩ := ih₁ trivial c hc
    cases he
    refine ⟨_, rfl, h₁.operator (by rw [hk]; rfl) (by decide) fun c' hc' => ?_⟩
    obtain ⟨_, he, h₂⟩ := ih₂ hr c' hc'
    cases he
    exact h₂.done (by decide) (stops_power_of_sign hr)
  | number h => exact fun _ c hc => ⟨_, rfl, reaches_number h hc⟩
  | group hd d hu ih => exact fun _ c hc => ⟨_, rfl, reaches_group hd d ih hu hc⟩
  | symbol h hs => exact fun _ c hc => ⟨_, rfl, reaches_symbol h hs hc⟩
  | braceCall ht hu d hv ih => exact fun _ c hc => ⟨_, rfl, reaches_braceCall ht hu d ih hv hc⟩
  | parenCall ht hu d ih => exact fun _ c hc => ⟨_, rfl, reaches_parenCall ht hu d ih hc⟩
  | lastArgument d hv ih => exact Complete.lastArgument d ih hv
  | nextArgument d hv d' ih ih' => exact Complete.nextArgument d ih hv ih'

end Expr

theorem Reading.result_eq_ok {α : Type} {r : Reading α} {a : α} :
    r.result = .ok a ↔ ∃ c, r = .done a c := by
  cases r <;> simp [result]

theorem readFull_eq_done {α : Type} {p : Cursor → Reading α} {c c' : Cursor} {a : α} :
    readFull p c = .done a c' ↔ p c = .done a c' ∧ c'.pieces = [] := by
  rw [readFull, Reading.andThen_eq_done]
  constructor
  · rintro ⟨b, d, h, hd⟩
    split at hd
    · next hn =>
      cases hd
      rw [Cursor.peek?_eq, List.head?_eq_none_iff] at hn
      exact ⟨h, by rw [Cursor.pieces, hn, List.map_nil]⟩
    · split at hd <;> cases hd
  · rintro ⟨h, hn⟩
    refine ⟨a, c', h, ?_⟩
    rw [Cursor.peek?_eq, List.map_eq_nil_iff.mp hn]
    rfl

/-- A whole formula is read exactly if it is a sum, and what is read is that sum. -/
theorem exists_readFull_iff (ts : List Token) (e : Shape) :
    (∃ t, (readFull Expr.read (.start ts)).result = .ok t ∧ t.shape = e) ↔
      Nonempty (Derivation .sum (pieces ts) [] [e]) := by
  have hstart : (Cursor.start ts).pieces = pieces ts := rfl
  constructor
  · rintro ⟨t, h, rfl⟩
    obtain ⟨c, h⟩ := Reading.result_eq_ok.mp h
    obtain ⟨h, hc⟩ := readFull_eq_done.mp h
    have hd := (Expr.readAtLeast_sound _ _ _ _ _ (Nat.lt_succ_self _)
      (Expr.readAtLeast_of_read h)).1
    rwa [hc, hstart] at hd
  · rintro ⟨d⟩
    obtain ⟨v, vs, hi, hv⟩ := d.head
    obtain ⟨_, he, h⟩ := Expr.complete d stops_nil (.start ts) hstart
    cases he
    obtain ⟨t, c, ht, hc, hread⟩ := h.done (p := .any) (by decide) stops_nil
    have hclosing := Kind.not_isClosing _ (hv.imp_right And.left)
    rw [← Expr.read_eq_readAtLeast (hstart.trans hi) hclosing] at hread
    exact ⟨t, Reading.result_eq_ok.mpr ⟨c, readFull_eq_done.mpr ⟨hread, hc⟩⟩, ht⟩

theorem parse_eq_ok {s : String} {e : Shape} :
    (∃ t, parse s = .ok t ∧ t.shape = e) ↔
      Nonempty (Derivation .sum (pieces (tokens s)) [] [e]) :=
  exists_readFull_iff (tokens s) e

theorem ne_empty_of_parse {s : String} {e : Expr} (h : parse s = .ok e) : s ≠ "" := by
  rintro rfl
  have hrefused : (parse "").isOk = false := by decide +kernel
  rw [h] at hrefused
  cases hrefused

/-- There is one result of reading, so there is one tree. -/
theorem Derivation.shape_unique {ts : List Token} {e e' : Shape}
    (d : Derivation .sum (pieces ts) [] [e]) (d' : Derivation .sum (pieces ts) [] [e']) :
    e = e' := by
  obtain ⟨t, ht, rfl⟩ := (exists_readFull_iff ts e).mpr ⟨d⟩
  obtain ⟨t', ht', rfl⟩ := (exists_readFull_iff ts e').mpr ⟨d'⟩
  rw [ht] at ht'
  cases ht'
  rfl

/-- The reader accepts a row of tokens exactly if it has a derivation as a sum, the tree that it
returns is the tree of that derivation, and there is no other derivation. -/
theorem readFull_derivation (ts : List Token) :
    (∀ e : Shape, (∃ t, (readFull Expr.read (.start ts)).result = .ok t ∧ t.shape = e) ↔
      Nonempty (Derivation .sum (pieces ts) [] [e])) ∧
    Subsingleton (Σ e : Shape, Derivation .sum (pieces ts) [] [e]) := by
  refine ⟨exists_readFull_iff ts, ⟨?_⟩⟩
  rintro ⟨e, d⟩ ⟨e', d'⟩
  obtain rfl := d.shape_unique d'
  rw [d.unique d']

end CurveGuess
