import CurveGuess.Proofs.Grammar.Prefixes
import CurveGuess.Proofs.Grammar.Spans

/-!
# Faults are found at once

The readers refuse a text at the first token that no formula could go on with, and complain about
its end only if some formula begins with all of it. They are compared with the pass over the
pieces: what a reader has taken so far leads the pass to where the reader stands, and the token at
which the reader gives up is one that the pass does not let come.
-/
namespace CurveGuess

open Stage

/-- The opening tokens that are not closed yet, the last one first. -/
def stillOpen (opened : List Token) : List Token → List Token
  | [] => opened
  | t :: ts =>
    if t.kind.isOpening then stillOpen (t :: opened) ts
    else if t.kind.isClosing then stillOpen opened.tail ts
    else stillOpen opened ts

section
variable {t : Token} {opened ts : List Token}

theorem stillOpen_append (opened ts us : List Token) :
    stillOpen opened (ts ++ us) = stillOpen (stillOpen opened ts) us := by
  induction ts generalizing opened with
  | nil => rfl
  | cons t ts ih =>
    rw [List.cons_append, stillOpen, stillOpen]
    split
    · exact ih _
    · split <;> exact ih _

theorem stillOpen_opening (h : t.kind.isOpening = true) :
    stillOpen opened (t :: ts) = stillOpen (t :: opened) ts := by
  rw [stillOpen, if_pos h]

theorem stillOpen_closing (h : t.kind.isOpening = false) (h' : t.kind.isClosing = true) :
    stillOpen opened (t :: ts) = stillOpen opened.tail ts := by
  rw [stillOpen, if_neg (by simp [h]), if_pos h']

end

namespace Kind

def isBracket (k : Kind) : Bool := k.isOpening || k.isClosing

theorem not_isBracket_of_isNumber {k : Kind} : k.isNumber = true → k.isBracket = false := by
  cases k <;> decide

theorem not_isBracket_of_isName {k : Kind} (h : k = .name ∨ k = .command) :
    k.isBracket = false := by
  rcases h with rfl | rfl <;> rfl

theorem not_isBracket_of_isSign {k : Kind} : k.isSign = true → k.isBracket = false := by
  cases k <;> decide

theorem not_isBracket_of_operator? {k : Kind} {b : BinaryKind}
    (h : k.operator? = some (b, false)) : k.isBracket = false := by
  cases k <;> simp_all [operator?, startsOperand, isNumber, isOpening, isBracket, isClosing]

end Kind

section
variable {t : Token} {opened ts : List Token}

theorem stillOpen_other (h : t.kind.isBracket = false) :
    stillOpen opened (t :: ts) = stillOpen opened ts := by
  rw [Kind.isBracket, Bool.or_eq_false_iff] at h
  rw [stillOpen, if_neg (by simp [h.1]), if_neg (by simp [h.2])]

theorem stillOpen_close {d : Delimiter} (h : t.kind = d.closeKind) (u : Token) :
    stillOpen (u :: opened) [t] = opened := by
  rw [stillOpen_closing (by rw [h]; cases d <;> rfl) (by rw [h]; cases d <;> rfl)]
  rfl

end

/-- In what writes expressions all that is opened is closed. -/
theorem Written.stillOpen_eq {es : List Expr} {ts : List Token} (h : Written es ts)
    (opened : List Token) : stillOpen opened ts = opened := by
  induction h generalizing opened with
  | number hk => exact stillOpen_other (Kind.not_isBracket_of_isNumber hk)
  | symbol hk => exact stillOpen_other (Kind.not_isBracket_of_isName hk)
  | group ht _ hu ih =>
    rw [stillOpen_opening (by rw [ht]; exact Kind.isOpening_openKind _), stillOpen_append, ih,
      stillOpen_close hu]
  | call hs ht _ hu ih =>
    rw [stillOpen_other (Kind.not_isBracket_of_isName hs),
      stillOpen_opening (by rw [ht]; exact Kind.isOpening_openKind _), stillOpen_append, ih,
      stillOpen_close hu]
  | sign ht _ ih =>
    rw [stillOpen_other (Kind.not_isBracket_of_isSign (Kind.isSign_of_signKind? ht)), ih]
  | operator ht _ _ ih₁ ih₂ =>
    rw [stillOpen_append, ih₁, stillOpen_other (Kind.not_isBracket_of_operator? ht), ih₂]
  | juxtapose _ _ ih₁ ih₂ => rw [stillOpen_append, ih₁, ih₂]
  | arguments _ ht _ ih₁ ih₂ =>
    rw [stillOpen_append, ih₁, stillOpen_other (by rw [ht]; rfl), ih₂]

/-- Does the fault lie at the token? That of an empty group ends with it, all others start at it. -/
def FormFault.LiesAt (f : FormFault) (t : Token) : Prop :=
  if f.cause = .emptyGroup then t.kind.isClosing = true ∧ f.span.stop = t.stop
  else f.span.start = t.start

/-- The fault is one that the pass finds too in the tokens to come: it comes to their end, or the
fault lies at a token that it does not let come. -/
inductive Found (stage : Stage) (brackets : List Bracket) (opened ts : List Token)
    (f : FormFault) : Prop
  | ended {next} : run stage brackets (ts.map Token.piece) = some next →
      f.cause = .unexpectedEnd → Found stage brackets opened ts f
  | unclosed {next o} : run stage brackets (ts.map Token.piece) = some next →
      (stillOpen opened ts).head? = some o → f = ⟨.unclosed true, o.span⟩ →
      Found stage brackets opened ts f
  | refused {stage' brackets' before t after} : ts = before ++ t :: after →
      run stage brackets (before.map Token.piece) = some (stage', brackets') →
      stage'.step brackets' t.piece = none → f.cause ≠ .unexpectedEnd →
      f.cause ≠ .unclosed true → f.LiesAt t → Found stage brackets opened ts f

namespace Found

variable {s s₁ : Stage} {bs bs₁ : List Bracket} {opened ts : List Token} {t : Token}
  {f : FormFault}

/-- Tokens that the pass lets come make no difference. -/
theorem after (us : List Token) (hrun : run s bs (us.map Token.piece) = some (s₁, bs₁))
    (h : Found s₁ bs₁ (stillOpen opened us) ts f) : Found s bs opened (us ++ ts) f := by
  have happend : ∀ ps, run s bs ((us ++ ps).map Token.piece) = run s₁ bs₁ (ps.map Token.piece) := by
    intro ps
    rw [List.map_append, run_append hrun]
  cases h with
  | ended h hf => exact .ended ((happend ts).trans h) hf
  | unclosed h ho hf =>
    exact .unclosed ((happend ts).trans h) (by rw [stillOpen_append]; exact ho) hf
  | refused heq h ht hend hunclosed hf =>
    exact .refused (by rw [heq, List.append_assoc]) ((happend _).trans h) ht hend hunclosed hf

theorem cons (hstep : s.step bs t.piece = some (s₁, bs₁)) (ht : t.kind.isBracket = false)
    (h : Found s₁ bs₁ opened ts f) : Found s bs opened (t :: ts) f := by
  refine .after [t] (run_cons hstep []) ?_
  rwa [stillOpen_other ht, stillOpen]

theorem opening (hstep : s.step bs t.piece = some (s₁, bs₁)) (ht : t.kind.isOpening = true)
    (h : Found s₁ bs₁ (t :: opened) ts f) : Found s bs opened (t :: ts) f := by
  refine .after [t] (run_cons hstep []) ?_
  rwa [stillOpen_opening ht, stillOpen]

/-- The pass does not let the next token come. -/
theorem here (ht : s.step bs t.piece = none) (hend : f.cause ≠ .unexpectedEnd)
    (hunclosed : f.cause ≠ .unclosed true) (hf : f.LiesAt t) : Found s bs opened (t :: ts) f :=
  .refused (List.nil_append _).symm rfl ht hend hunclosed hf

theorem of_unexpected {ks : List Kind} (ht : s.step bs t.piece = none) :
    Found s bs opened (t :: ts) (unexpected ks t) :=
  here ht (by simp [unexpected]) (by simp [unexpected])
    (by simp [FormFault.LiesAt, unexpected, Token.span])

/-- An operand begins after another one as it does alone, unless it calls that one. -/
theorem juxtaposed {c : Bool} (ht : t.kind.startsOperand = true)
    (hc : c = true → t.kind ≠ .openParen) (h : Found .operand bs opened (t :: ts) f) :
    Found (.operator c) bs opened (t :: ts) f := by
  have hrun : ∀ ps, run (.operator c) bs (t.piece :: ps) = run .operand bs (t.piece :: ps) := by
    intro ps
    rw [run, step_juxtaposed ht hc, ← run]
  cases h with
  | ended h hf => exact .ended ((hrun _).trans h) hf
  | unclosed h ho hf => exact .unclosed ((hrun _).trans h) ho hf
  | @refused s' bs' before u after heq h hu hend hunclosed hf =>
    cases before with
    | nil =>
      cases h
      obtain ⟨rfl, -⟩ := List.cons.inj heq
      exact here (by rw [step_juxtaposed ht hc, hu]) hend hunclosed hf
    | cons v before =>
      obtain ⟨rfl, -⟩ := List.cons.inj heq
      exact .refused heq ((hrun _).trans h) hu hend hunclosed hf

/-- After an operand has been read, the pass is where the reader is. -/
theorem after_operand {c c' : Cursor} {e : Expr} {p : Part} (hp : p ≠ .arguments)
    (hb : Between c [e] c') (hd : Nonempty (Derivation p c.pieces c'.pieces [e.shape]))
    (h : ∀ b, (b = true → Piece.opens c'.pieces = false) →
      Found (.operator b) bs opened c'.ahead f) : Found .operand bs opened c.ahead f := by
  obtain ⟨ts, hts, hwritten⟩ := hb
  obtain ⟨d⟩ := hd
  obtain ⟨b, hopens, hleads⟩ := d.leads
  obtain ⟨m, hm, hrun⟩ := hleads bs
  rw [if_neg hp] at hrun
  rw [Cursor.pieces, hts.ahead_eq, List.map_append] at hm
  obtain rfl := List.append_cancel_right hm
  rw [hts.ahead_eq]
  exact .after ts hrun (by rw [hwritten.stillOpen_eq]; exact h b hopens)

end Found

theorem Cursor.exists_of_sees {c : Cursor} {p : Kind → Bool} (h : c.sees p = true) :
    ∃ t ts, c.ahead = t :: ts ∧ p t.kind = true := by
  rw [sees, peek?_eq] at h
  cases hts : c.ahead with
  | nil =>
    rw [hts] at h
    cases h
  | cons t ts =>
    rw [hts] at h
    exact ⟨t, ts, rfl, h⟩

theorem UnaryOp.exists_ofToken? {t : Token} (h : t.kind.isSign = true) :
    ∃ op, ofToken? t = some op := by
  unfold ofToken?
  cases hk : t.kind <;> simp_all [Kind.isSign]

section
variable {brackets : List Bracket} {opened : List Token} {f : FormFault} {b : Bool}

theorem Delimiter.exists_ofKind? {k : Kind} (h : k.isOpening = true) :
    ∃ d, ofKind? k = some d := by
  cases k <;> simp_all [Kind.isOpening, ofKind?]

/-- The opening token of a group is taken, unless the group is closed at once. -/
theorem Opening.readFilled_cases {c : Cursor} {t : Token} {ts : List Token} {d : Delimiter}
    (hts : c.ahead = t :: ts) (hd : Delimiter.ofKind? t.kind = some d) :
    (∃ c₁, readFilled c = .done ⟨d, t.span⟩ c₁ ∧ c₁.ahead = ts ∧
        c₁.rest.length < c.rest.length) ∨
      ∃ u us c₁, ts = u :: us ∧ u.kind = d.closeKind ∧
        readFilled c = .failed ⟨.emptyGroup, t.span.through u.span⟩ c₁ := by
  obtain ⟨c₁, hread, rfl⟩ := readToken_of_cons hts
  have hopen : Opening.read c = .done ⟨d, t.span⟩ c₁ :=
    read_eq_done.mpr ⟨t, hread, hd, rfl⟩
  by_cases hclosed : ∃ u us, c₁.ahead = u :: us ∧ u.kind = d.closeKind
  · obtain ⟨u, us, hus, hu⟩ := hclosed
    refine .inr ⟨u, us, c₁, hus, hu, ?_⟩
    rw [readFilled, hopen, Reading.andThen_done, Cursor.peek?_eq, hus]
    exact if_pos hu
  · refine .inl ⟨c₁, readFilled_eq_done.mpr ⟨⟨t, hread, hd, rfl⟩, ?_⟩, rfl,
      (ahead_of_readToken hread).2⟩
    intro u hu hk
    obtain ⟨us, hus⟩ := List.head?_eq_some_iff.mp hu
    exact hclosed ⟨u, us, hus, hk⟩

theorem Stops.operator?_eq_none {c : Cursor} (h : Stops .any c.pieces) :
    ∀ u ∈ c.ahead.head?, u.kind.operator? = none := by
  intro u hu
  obtain ⟨us, hus⟩ := List.head?_eq_some_iff.mp hu
  rw [Cursor.pieces, hus, List.map_cons] at h
  exact CurveGuess.operator?_eq_none h

theorem step_closing_eq_none {t : Piece} (h : t.kind.isClosing = true) :
    step .operand brackets t = none :=
  step_operand_eq_none (by cases hk : t.kind <;> simp_all [Kind.isClosing, Kind.isSign])
    (by cases hk : t.kind <;> simp_all [Kind.isClosing, Kind.startsOperand, Kind.isNumber,
      Kind.isOpening])

theorem Found.of_emptyGroup {d : Delimiter} {t u : Token} {us : List Token}
    (hu : u.kind = d.closeKind) :
    Found .operand brackets opened (u :: us) ⟨.emptyGroup, t.span.through u.span⟩ := by
  have hclosing : u.kind.isClosing = true := by
    rw [hu]
    exact Kind.isClosing_closeKind d
  exact .here (step_closing_eq_none hclosing) (by simp) (by simp) ⟨hclosing, rfl⟩

/-- An operator leads from after its left operand to its right operand. -/
theorem BinaryOp.found {c : Cursor} {op : BinaryOp} (hop : peek? c = some op)
    (hb : b = true → Piece.opens c.pieces = false)
    (h : Found .operand brackets opened (op.skip c).ahead f) :
    Found (.operator b) brackets opened c.ahead f := by
  obtain ⟨t, hhead, hk, ⟨heq, ht⟩ | ⟨rfl, hskip⟩⟩ := peek?_eq_some hop
  · rw [heq] at hk
    rw [ht.ahead_eq]
    exact .cons (step_of_operator? hk) (Kind.not_isBracket_of_operator? hk) h
  · obtain ⟨ts, hts⟩ := List.head?_eq_some_iff.mp hhead
    obtain ⟨hwritten, -⟩ | ⟨-, -, hstart⟩ := Derivation.operator?_eq_some hk
    · cases hwritten
    rw [hskip, hts] at h
    rw [hts]
    refine .juxtaposed hstart (fun hc hparen => ?_) h
    have hopens := hb hc
    rw [Cursor.pieces, hts, List.map_cons, Piece.opens_cons, Token.kind_piece, hparen] at hopens
    cases hopens

namespace Expr

/-- Before fewer than `n` tokens, every fault is one that the pass finds too. -/
def FoundBelow (n : Nat) : Prop :=
  ∀ (p : Precedence) (c c' : Cursor) (f : FormFault) (brackets : List Bracket)
    (opened : List Token), c.rest.length < n → readAtLeast p c = .failed f c' →
      Found .operand brackets opened c.ahead f

theorem found_after_readAtLeast {p : Precedence} {c c' : Cursor} {e : Expr}
    (hread : readAtLeast p c = .done e c')
    (h : ∀ b, (b = true → Piece.opens c'.pieces = false) → Stops p c'.pieces →
      Found (.operator b) brackets opened c'.ahead f) :
    Found .operand brackets opened c.ahead f := by
  have hlt := Nat.lt_succ_self c.rest.length
  obtain ⟨hd, hstop⟩ := readAtLeast_sound _ p c c' e hlt hread
  exact .after_operand (by cases p <;> decide) (readAtLeast_between _ p c c' e hlt hread) hd
    fun b hb => h b hb hstop

theorem found_after_readSigned {c c' : Cursor} {e : Expr} (hread : readSigned c = .done e c')
    (h : ∀ b, (b = true → Piece.opens c'.pieces = false) →
      Found (.operator b) brackets opened c'.ahead f) :
    Found .operand brackets opened c.ahead f := by
  have hbetween := readSigned_between (readAtLeast_between _) le_rfl hread
  refine .after_operand (p := .signed) (by decide) hbetween ?_ h
  rw [readSigned] at hread
  split at hread
  · exact (readUnary_sound (readAtLeast_sound _) le_rfl hread).1
  · obtain ⟨d⟩ := readPrimary_sound (readAtLeast_sound _) le_rfl hread
    exact Derivation.lift_primary d (by decide)

theorem climb_found {n : Nat} (H : FoundBelow n) {p : Precedence} {left : Expr} {c c' : Cursor}
    (hn : c.rest.length < n) (hb : b = true → Piece.opens c.pieces = false)
    (h : climb left p c = .failed f c') : Found (.operator b) brackets opened c.ahead f := by
  induction hm : c.rest.length using Nat.strong_induction_on generalizing left c b with
  | _ m ih =>
    rw [climb_eq_readAtLeast] at h
    split at h
    · cases h
    · next op hop =>
      split at h
      · cases h
      · have hle := op.skip_length_le c
        refine BinaryOp.found hop hb ?_
        rcases Reading.andThen_eq_failed h with h | ⟨right, c₁, hright, h⟩
        · exact H _ _ _ _ _ _ (by omega) h
        · have hlt := readAtLeast_lt hright
          refine found_after_readAtLeast hright fun b' hb' _ => ?_
          exact ih c₁.rest.length (by omega) (by omega) hb' h rfl

theorem readUnary_found {n : Nat} (H : FoundBelow n) {c c' : Cursor} (hn : c.rest.length ≤ n)
    (hsign : c.sees Kind.isSign = true) (h : readUnary c = .failed f c') :
    Found .operand brackets opened c.ahead f := by
  obtain ⟨t, ts, hts, ht⟩ := Cursor.exists_of_sees hsign
  obtain ⟨c₁, hread, rfl⟩ := readToken_of_cons hts
  obtain ⟨op, hop⟩ := UnaryOp.exists_ofToken? ht
  have hlt := (ahead_of_readToken hread).2
  rw [readUnary, UnaryOp.read_eq_done.mpr ⟨t, hread, hop⟩, Reading.restore_done,
    Reading.advance_done _ _ _ hlt] at h
  have h : readAtLeast .sign c₁ = .failed f c' := by
    rcases Reading.advance_eq_failed (fun _ _ => readSigned_lt) h with h | ⟨e, c₂, -, he, h⟩
    · rw [readAtLeast, h]
      rfl
    · rw [readAtLeast, he]
      exact Reading.map_eq_failed h
  rw [hts]
  exact .cons (step_sign ht) (Kind.not_isBracket_of_isSign ht) (H _ _ _ _ _ _ (by omega) h)

/-- What is inside a bracket. -/
theorem read_found {n : Nat} (H : FoundBelow n) {c c' : Cursor} (hn : c.rest.length < n)
    (h : read c = .failed f c') : Found .operand brackets opened c.ahead f := by
  by_cases hclosing : c.sees Kind.isClosing = true
  · obtain ⟨t, ts, hts, ht⟩ := Cursor.exists_of_sees hclosing
    rw [read, Cursor.peek?_eq, hts] at h
    simp only [List.head?_cons, ht, if_true] at h
    cases h
    rw [hts]
    exact .here (step_closing_eq_none ht) (by simp) (by simp) rfl
  · obtain ⟨f', hread⟩ := read_eq c
    rw [hread, if_neg hclosing] at h
    exact H _ _ _ _ _ _ hn h

/-- The end of a bracket. -/
theorem readClose_found {o : Opening} {t : Token} {ks : List Kind} {c c' : Cursor}
    (ho : o.span = t.span)
    (hstep : ∀ u ∈ c.ahead.head?, u.kind ≠ o.delimiter.closeKind →
      step (.operator b) brackets u.piece = none)
    (h : o.readClose ks c = .failed f c') :
    Found (.operator b) brackets (t :: opened) c.ahead f := by
  rw [Opening.readClose, Cursor.peek?_eq] at h
  cases hahead : c.ahead with
  | nil =>
    rw [hahead] at h
    cases h
    exact .unclosed rfl rfl (by rw [ho])
  | cons u us =>
    obtain ⟨c₁, hread, -⟩ := readToken_of_cons hahead
    rw [hahead] at h hstep
    simp only [List.head?_cons, hread, Reading.andThen_done] at h
    split at h
    · cases h
    · next hk =>
      cases h
      exact .of_unexpected (hstep u rfl hk)

theorem readGroup_found {n : Nat} (H : FoundBelow n) {c c' : Cursor} (hn : c.rest.length ≤ n)
    {t : Token} {ts : List Token} (hts : c.ahead = t :: ts) (ht : t.kind.isOpening = true)
    (h : readGroup c = .failed f c') : Found .operand brackets opened c.ahead f := by
  obtain ⟨d, hd⟩ := Delimiter.exists_ofKind? ht
  rw [hts]
  refine .opening (step_open (Delimiter.eq_openKind hd)) ht ?_
  obtain ⟨c₁, hfilled, rfl, hlt⟩ | ⟨u, us, c₁, rfl, hu, hfilled⟩ := Opening.readFilled_cases hts hd
  · rw [readGroup, hfilled, Reading.advance_done _ _ _ hlt] at h
    rcases Reading.andThen_eq_failed h with h | ⟨inner, c₂, hinner, h⟩
    · obtain ⟨_, h⟩ := Reading.restore_eq_failed h
      exact read_found H (by omega) h
    · have hread := readAtLeast_of_read (Reading.restore_eq_done.mp hinner)
      refine found_after_readAtLeast hread fun b _ hstop => ?_
      exact readClose_found (o := ⟨d, t.span⟩) rfl
        (fun u hu hk => step_close_eq_none (hstop.operator?_eq_none u hu) hk)
        (Reading.map_eq_failed h)
  · rw [readGroup, hfilled] at h
    cases h
    exact .of_emptyGroup hu

/-- The arguments of a call that follow the first one, and the end of the call. -/
theorem readArgs_found {n : Nat} (H : FoundBelow n) {o : Opening} {t : Token} {c c' : Cursor}
    (ho : o.span = t.span) (hn : c.rest.length < n) (hstop : Stops .any c.pieces)
    (h : readArgs o c = .failed f c') :
    Found (.operator b) (callBracket o.delimiter :: brackets) (t :: opened) c.ahead f := by
  induction hm : c.rest.length using Nat.strong_induction_on generalizing b c with
  | _ m ih =>
    rw [readArgs] at h
    split at h
    · next hd =>
      refine readClose_found ho (fun u hu hk => ?_) (Reading.map_eq_failed h)
      rw [hd] at hk ⊢
      exact step_close_eq_none (d := .brace) (hstop.operator?_eq_none u hu) hk
    · next hd =>
      split at h
      · next hcomma =>
        refine readClose_found ho (fun u hu hk => ?_) (Reading.map_eq_failed h)
        rw [hd] at hk ⊢
        refine step_closeArguments_eq_none (hstop.operator?_eq_none u hu) hk fun hk => ?_
        obtain ⟨us, hus⟩ := List.head?_eq_some_iff.mp hu
        obtain ⟨c₁, hread, -⟩ := readToken_of_cons hus
        rw [readKind_eq_done.mpr ⟨hread, hk⟩] at hcomma
        cases hcomma
      · next u c₁ hcomma =>
        obtain ⟨hread, hk⟩ := readKind_eq_done.mp hcomma
        obtain ⟨hahead, hlt⟩ := ahead_of_readToken hread
        rw [Reading.advance_done _ _ _ hlt] at h
        rw [hd, hahead]
        refine .cons (step_comma hk) (by rw [hk]; rfl) ?_
        rcases Reading.advance_eq_failed (fun _ _ h => read_lt (Reading.restore_eq_done.mp h)) h
          with h | ⟨arg, c₂, hlt₂, harg, h⟩
        · obtain ⟨_, h⟩ := Reading.restore_eq_failed h
          exact read_found H (by omega) h
        · have hread := readAtLeast_of_read (Reading.restore_eq_done.mp harg)
          refine found_after_readAtLeast hread fun b' _ hstop' => ?_
          have hrest := ih c₂.rest.length (by omega) (b := b') (by omega) hstop'
            (Reading.map_eq_failed h) rfl
          rwa [hd] at hrest

theorem readCall_found {n : Nat} (H : FoundBelow n) {c c' : Cursor} (hn : c.rest.length ≤ n)
    {t : Token} {ts : List Token} (hts : c.ahead = t :: ts) (hcall : startsCall c = true)
    (h : readCall c = .failed f c') : Found .operand brackets opened c.ahead f := by
  have hpieces : c.pieces = t.piece :: ts.map Token.piece := by
    rw [Cursor.pieces, hts, List.map_cons]
  rw [startsCall_eq hpieces, Bool.and_eq_true] at hcall
  obtain ⟨hcallable, hopens⟩ := hcall
  obtain ⟨u, us, rfl, hu⟩ : ∃ u us, ts = u :: us ∧ u.kind.isOpening = true := by
    cases ts with
    | nil => cases hopens
    | cons u us => exact ⟨u, us, rfl, hopens⟩
  obtain ⟨d, hd⟩ := Delimiter.exists_ofKind? hu
  have hname : t.kind = .name ∨ t.kind = .command := by
    simpa [Piece.isName_piece] using Piece.isName_of_isCallable hcallable
  obtain ⟨c₁, hread, hus⟩ := readToken_of_cons hts
  have hident := Ident.read_eq_done.mpr ⟨t, hread, hname, rfl⟩
  have hstep : step .operand brackets t.piece = some (.operator true, brackets) := by
    rw [step_name (Piece.isName_of_isCallable hcallable), hcallable]
  rw [readCall, hident, Reading.advance_done _ _ _ (ahead_of_readToken hread).2] at h
  rw [hts]
  refine .cons hstep (Kind.not_isBracket_of_isName hname) ?_
  refine .opening (step_openCall (Delimiter.eq_openKind hd)) hu ?_
  obtain ⟨c₂, hfilled, rfl, hlt⟩ | ⟨v, vs, c₂, rfl, hv, hfilled⟩ :=
    Opening.readFilled_cases hus hd
  · rw [hfilled, Reading.advance_done _ _ _ hlt] at h
    have hlt₁ := (ahead_of_readToken hread).2
    rcases Reading.advance_eq_failed (fun _ _ h => read_lt (Reading.restore_eq_done.mp h)) h
      with h | ⟨arg, c₃, hlt₃, harg, h⟩
    · obtain ⟨_, h⟩ := Reading.restore_eq_failed h
      exact read_found H (by omega) h
    · have hread := readAtLeast_of_read (Reading.restore_eq_done.mp harg)
      refine found_after_readAtLeast hread fun b _ hstop => ?_
      exact readArgs_found (o := ⟨d, u.span⟩) H rfl (by omega) hstop (Reading.map_eq_failed h)
  · rw [hfilled] at h
    cases h
    exact .of_emptyGroup hv

theorem exists_readLiteral {c : Cursor} {t : Token} {ts : List Token} (hts : c.ahead = t :: ts)
    (hstart : t.kind.startsOperand = true) (hopen : t.kind.isOpening = false) :
    ∃ e c', readLiteral c = .done e c' := by
  obtain ⟨c', hread, -⟩ := readToken_of_cons hts
  by_cases hnumber : t.kind.isNumber = true
  · exact ⟨_, c', readLiteral_eq_done.mpr ⟨t, hread, .inl ⟨hnumber, rfl⟩⟩⟩
  · have hname : t.kind = .name ∨ t.kind = .command := by
      simpa [Kind.startsOperand, hnumber, hopen] using hstart
    exact ⟨_, c', readLiteral_eq_done.mpr ⟨t, hread, .inr ⟨hname, rfl⟩⟩⟩

theorem readPrimary_found {n : Nat} (H : FoundBelow n) {c c' : Cursor} (hn : c.rest.length ≤ n)
    (hsign : c.sees Kind.isSign = false) (h : readPrimary c = .failed f c') :
    Found .operand brackets opened c.ahead f := by
  rw [readPrimary, Cursor.peek?_eq] at h
  cases hts : c.ahead with
  | nil =>
    rw [hts] at h
    cases h
    exact .ended rfl rfl
  | cons t ts =>
    rw [Cursor.sees, Cursor.peek?_eq, hts] at hsign
    rw [hts] at h
    simp only [List.head?_cons] at h
    rw [← hts]
    split at h
    · next hopen =>
      obtain ⟨_, h⟩ := Reading.restore_eq_failed h
      exact readGroup_found H hn hts hopen h
    · next hopen =>
      split at h
      · next hstart =>
        split at h
        · next hcall =>
          obtain ⟨_, h⟩ := Reading.restore_eq_failed h
          exact readCall_found H hn hts hcall h
        · obtain ⟨_, h⟩ := Reading.restore_eq_failed h
          obtain ⟨e, c₁, hread⟩ := exists_readLiteral hts hstart (Bool.eq_false_iff.mpr hopen)
          rw [hread] at h
          cases h
      · next hstart =>
        cases h
        rw [hts]
        exact .of_unexpected (step_operand_eq_none hsign (Bool.eq_false_iff.mpr hstart))

theorem readAtLeast_found (n : Nat) : FoundBelow n := by
  induction n with
  | zero =>
    intro p c c' f brackets opened hn
    omega
  | succ n H =>
    intro p c c' f brackets opened hn h
    rcases Reading.andThen_eq_failed h with h | ⟨left, c₁, hleft, h⟩
    · rw [readSigned] at h
      split at h
      · next hsign => exact readUnary_found H (by omega) hsign h
      · next hsign => exact readPrimary_found H (by omega) (Bool.eq_false_iff.mpr hsign) h
    · have hlt := readSigned_lt hleft
      exact found_after_readSigned hleft fun b hb => climb_found H (by omega) hb h

end Expr

theorem readFull_found {c c' : Cursor} (h : readFull Expr.read c = .failed f c') :
    Found .operand [] [] c.ahead f := by
  rcases Reading.andThen_eq_failed h with h | ⟨e, c₁, hread, h⟩
  · exact Expr.read_found (Expr.readAtLeast_found _) (Nat.lt_succ_self _) h
  · refine Expr.found_after_readAtLeast (Expr.readAtLeast_of_read hread) fun b _ hstop => ?_
    rw [Cursor.peek?_eq] at h
    cases hts : c₁.ahead with
    | nil =>
      rw [hts] at h
      cases h
    | cons t ts =>
      have hstep : step (.operator b) [] t.piece = none :=
        step_end_eq_none (hstop.operator?_eq_none t (by rw [hts]; rfl))
      rw [hts] at h
      simp only [List.head?_cons] at h
      split at h
      · cases h
        exact .here hstep (by simp) (by simp) rfl
      · cases h
        exact .here hstep (by simp) (by simp) rfl

end

/-- The fault is found as early as it can be in the tokens. If it is about their end, some text
completes them, and the bracket that is not closed is the last one. Any other lies at a token after
which no formula goes on, while the tokens before it can be completed. -/
structure FormFault.IsTimely (f : FormFault) (ts : List Token) : Prop where
  completable : f.cause = .unexpectedEnd ∨ f.cause = .unclosed true → Completable ts
  exists_open : f.cause = .unclosed true →
    ∃ o, (stillOpen [] ts).head? = some o ∧ f.span = o.span
  exists_refused : f.cause ≠ .unexpectedEnd → f.cause ≠ .unclosed true →
    ∃ before t after, ts = before ++ t :: after ∧ f.LiesAt t ∧ Completable before ∧
      ∀ us, ¬Accepted (before ++ t :: us)

theorem pieces_eq_map {ts : List Token} (h : ∀ t ∈ ts, t.kind ≠ .whitespace) :
    pieces ts = ts.map Token.piece := by
  rw [pieces, List.filter_eq_self.mpr]
  simpa [Token.isSpace] using h

theorem Found.isTimely {ts : List Token} {f : FormFault} (h : Found .operand [] [] ts f)
    (hts : ∀ t ∈ ts, t.kind ≠ .whitespace) : f.IsTimely ts := by
  cases h with
  | ended h hf =>
    rw [← pieces_eq_map hts] at h
    exact ⟨fun _ => completable_of_run h, by simp [hf], fun hend _ => absurd hf hend⟩
  | unclosed h ho hf =>
    rw [← pieces_eq_map hts] at h
    subst hf
    exact ⟨fun _ => completable_of_run h, fun _ => ⟨_, ho, rfl⟩, fun _ hopen => absurd rfl hopen⟩
  | @refused stage brackets before t after heq h ht hend hunclosed hf =>
    rw [heq] at hts
    have hbefore : ∀ u ∈ before, u.kind ≠ .whitespace := fun u hu =>
      hts u (List.mem_append_left _ hu)
    have htoken : t.kind ≠ .whitespace := hts t (by simp)
    rw [← pieces_eq_map hbefore] at h
    refine ⟨fun hc => ?_, fun hc => absurd hc hunclosed, fun _ _ => ?_⟩
    · exact absurd hc (not_or.mpr ⟨hend, hunclosed⟩)
    · exact ⟨before, t, after, heq, hf, completable_of_run h, not_accepted_of_step h htoken ht⟩

/-- Every text that is no formula is refused as early as it can be. -/
theorem parse_isTimely {source : String} {f : FormFault} (h : parse source = .error f) :
    f.IsTimely ((tokens source).filter (!·.isSpace)) := by
  cases hread : readFull Expr.read (.start (tokens source)) with
  | done e c =>
    rw [parse, hread] at h
    cases h
  | failed f' c =>
    rw [parse, hread] at h
    cases h
    refine (readFull_found hread).isTimely fun t ht => ?_
    simpa [Token.isSpace] using (List.mem_filter.mp ht).2

/-- Whether a text is refused, and why, can be computed without comparing trees. -/
theorem parse_eq_error {source : String} {f : FormFault}
    (h : (parse source).map (fun _ => ()) = .error f) : parse source = .error f := by
  cases hp : parse source with
  | ok e =>
    rw [hp] at h
    cases h
  | error f' =>
    rw [hp] at h
    cases h
    rfl

/-- A group that is not closed, and one that has a comma in it. -/
theorem parse_isTimely_groups :
    parse "3(x+1" = .error ⟨.unclosed true, ⟨1, 2⟩⟩ ∧
      FormFault.IsTimely ⟨.unclosed true, ⟨1, 2⟩⟩ ((tokens "3(x+1").filter (!·.isSpace)) ∧
      parse "x (2,3)" = .error ⟨.unexpectedToken [.closeParen] .comma, ⟨4, 5⟩⟩ ∧
      FormFault.IsTimely ⟨.unexpectedToken [.closeParen] .comma, ⟨4, 5⟩⟩
        ((tokens "x (2,3)").filter (!·.isSpace)) := by
  have hopen : parse "3(x+1" = .error ⟨.unclosed true, ⟨1, 2⟩⟩ :=
    parse_eq_error (by decide +kernel)
  have hcomma : parse "x (2,3)" = .error ⟨.unexpectedToken [.closeParen] .comma, ⟨4, 5⟩⟩ :=
    parse_eq_error (by decide +kernel)
  exact ⟨hopen, parse_isTimely hopen, hcomma, parse_isTimely hcomma⟩

end CurveGuess
