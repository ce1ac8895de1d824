import CurveGuess.Proofs.Grammar.Completeness

/-!
# White space between tokens

Two rows of tokens that differ only in their places and in the white space among them are read
alike. The readers look at the pieces to come and at nothing else, so two cursors before the same
pieces stay before the same pieces, and where one reader stops for some reason, the other one stops
for the same reason.
-/
namespace CurveGuess

namespace Reading

variable {α β γ δ : Type}

/-- Both readings succeed, with values that `f` does not tell apart and before the same pieces, or
both fail for the same reason. Where a failed reading stopped does not matter. -/
inductive Agree (f : α → γ) : Reading α → Reading α → Prop
  | done {a a' c c'} : f a = f a' → c.pieces = c'.pieces → Agree f (.done a c) (.done a' c')
  | failed {e e' c c'} : e.cause = e'.cause → Agree f (.failed e c) (.failed e' c')

namespace Agree

variable {f : α → γ} {g : β → δ} {r r' s s' : Reading α} {c c' : Cursor}

theorem andThen (h : Agree f r r') {k k' : α → Cursor → Reading β}
    (hk : ∀ a a' c c', r = .done a c → f a = f a' → c.pieces = c'.pieces →
      Agree g (k a c) (k' a' c')) :
    Agree g (r.andThen k) (r'.andThen k') := by
  cases h with
  | done hf hc => exact hk _ _ _ _ rfl hf hc
  | failed he => exact .failed he

theorem map (h : Agree f r r') {m m' : α → β} (hm : ∀ a a', f a = f a' → g (m a) = g (m' a')) :
    Agree g (r.map m) (r'.map m') :=
  h.andThen fun _ _ _ _ _ hf hc => .done (hm _ _ hf) hc

theorem restore (h : Agree f r r') (c c' : Cursor) : Agree f (r.restore c) (r'.restore c') := by
  cases h with
  | done hf hc => exact .done hf hc
  | failed he => exact .failed he

theorem orElse (h : Agree f r r') (hs : Agree f s s') :
    Agree f (r.orElse s) (r'.orElse s') := by
  cases h with
  | done hf hc => exact .done hf hc
  | failed _ => exact hs

/-- `advance` is `andThen` for readings that take a token when they succeed. -/
theorem advance (h : Agree f r r')
    {k : α → (d : Cursor) → d.rest.length < c.rest.length → Reading β}
    {k' : α → (d : Cursor) → d.rest.length < c'.rest.length → Reading β}
    (hlt : ∀ a d, r = .done a d → d.rest.length < c.rest.length)
    (hlt' : ∀ a d, r' = .done a d → d.rest.length < c'.rest.length)
    (hk : ∀ a a' d d' hd hd', f a = f a' → d.pieces = d'.pieces →
      Agree g (k a d hd) (k' a' d' hd')) :
    Agree g (r.advance c k) (r'.advance c' k') := by
  cases h with
  | done hf hc =>
    rw [advance_done _ _ _ (hlt _ _ rfl), advance_done _ _ _ (hlt' _ _ rfl)]
    exact hk _ _ _ _ _ _ hf hc
  | failed he => exact .failed he

end Agree

end Reading

open Reading (Agree)

namespace Cursor

variable {c c' : Cursor}

/-- Both cursors are at the end, or both are before tokens of the same kind and text. -/
theorem ahead_cases (h : c.pieces = c'.pieces) :
    (c.ahead = [] ∧ c'.ahead = []) ∨
      ∃ t ts t' ts', c.ahead = t :: ts ∧ c'.ahead = t' :: ts' ∧ t.piece = t'.piece ∧
        ts.map Token.piece = ts'.map Token.piece := by
  rw [pieces, pieces] at h
  cases hts : c.ahead with
  | nil =>
    rw [hts, List.map_nil, eq_comm, List.map_eq_nil_iff] at h
    exact .inl ⟨rfl, h⟩
  | cons t ts =>
    rw [hts, List.map_cons, eq_comm, List.map_eq_cons_iff] at h
    obtain ⟨t', ts', hts', ht, h⟩ := h
    exact .inr ⟨t, ts, t', ts', rfl, hts', ht.symm, h.symm⟩

theorem sees_congr (h : c.pieces = c'.pieces) (p : Kind → Bool) : c.sees p = c'.sees p := by
  rw [sees_eq, sees_eq, h]

theorem pieces_next (c : Cursor) : c.next.2.pieces = c.pieces.tail := by
  have hn := (ahead_takeFrom c.before c.rest).2
  change c.next.2.ahead = c.ahead.tail at hn
  rw [pieces, hn, List.map_tail, ← pieces]

end Cursor

section
variable {c c' : Cursor}

theorem readToken_of_nil (h : c.ahead = []) :
    readToken c = .failed ⟨.unexpectedEnd, c.next.2.span⟩ c.next.2 := by
  have hn := (Cursor.ahead_takeFrom c.before c.rest).1
  rw [← Cursor.ahead, h] at hn
  simp only [readToken]
  rw [show c.next = (none, c.next.2) from Prod.ext hn rfl]

theorem readToken_agree (h : c.pieces = c'.pieces) :
    Agree Token.piece (readToken c) (readToken c') := by
  obtain ⟨hnil, hnil'⟩ | ⟨t, ts, t', ts', hts, hts', ht, h⟩ := Cursor.ahead_cases h
  · rw [readToken_of_nil hnil, readToken_of_nil hnil']
    exact .failed rfl
  · obtain ⟨d, hread, rfl⟩ := readToken_of_cons hts
    obtain ⟨d', hread', rfl⟩ := readToken_of_cons hts'
    rw [hread, hread']
    exact .done ht h

theorem kind_eq_of_piece {t t' : Token} (h : t.piece = t'.piece) : t.kind = t'.kind :=
  congrArg Piece.kind h

theorem lexeme_eq_of_piece {t t' : Token} (h : t.piece = t'.piece) : t.lexeme = t'.lexeme :=
  String.toList_inj.mp (congrArg Piece.text h)

/-- A token that should not be there is told apart by its kind only. -/
theorem unexpected_agree {α γ : Type} {f : α → γ} {t t' : Token} (h : t.piece = t'.piece)
    (ks : List Kind) {d d' : Cursor} :
    Agree f (.failed (unexpected ks t) d) (.failed (unexpected ks t') d') :=
  .failed (by rw [unexpected, unexpected, kind_eq_of_piece h])

/-- What comes of a token depends on its piece only, if this is so for success and for failure. -/
theorem readToken_andThen_agree {β δ : Type} {g : β → δ} (h : c.pieces = c'.pieces)
    {k k' : Token → Cursor → Reading β}
    (hk : ∀ t t' d d', t.piece = t'.piece → d.pieces = d'.pieces →
      Agree g (k t d) (k' t' d')) :
    Agree g ((readToken c).andThen k) ((readToken c').andThen k') :=
  (readToken_agree h).andThen fun _ _ _ _ _ ht hd => hk _ _ _ _ ht hd

theorem readKind_agree (h : c.pieces = c'.pieces) (k : Kind) :
    Agree Token.piece (readKind k c) (readKind k c') := by
  refine .restore (readToken_andThen_agree h fun t t' d d' ht hd => ?_) c c'
  rw [kind_eq_of_piece ht]
  split
  · exact .done ht hd
  · exact unexpected_agree ht _

theorem UnaryOp.read_agree (h : c.pieces = c'.pieces) :
    Agree UnaryOp.kind (UnaryOp.read c) (UnaryOp.read c') := by
  refine readToken_andThen_agree h fun t t' d d' ht hd => ?_
  rw [UnaryOp.ofToken?, UnaryOp.ofToken?, ← kind_eq_of_piece ht]
  cases t.kind with
  | sub | add => exact .done rfl hd
  | _ => exact unexpected_agree ht _

theorem Ident.read_agree (h : c.pieces = c'.pieces) :
    Agree Ident.name (Ident.read c) (Ident.read c') :=
  .map (.orElse (readKind_agree h .name) (readKind_agree h .command)) fun t t' ht => by
    rw [← Piece.name_piece, ← Piece.name_piece, ht]

namespace Opening

theorem read_agree (h : c.pieces = c'.pieces) :
    Agree Opening.delimiter (Opening.read c) (Opening.read c') := by
  refine readToken_andThen_agree h fun t t' d d' ht hd => ?_
  rw [← kind_eq_of_piece ht]
  cases Delimiter.ofKind? t.kind with
  | some o => exact .done rfl hd
  | none => exact unexpected_agree ht _

theorem readFilled_agree (h : c.pieces = c'.pieces) :
    Agree Opening.delimiter (readFilled c) (readFilled c') := by
  refine (read_agree h).andThen fun o o' d d' _ ho hd => ?_
  rw [Cursor.peek?_eq, Cursor.peek?_eq]
  obtain ⟨hnil, hnil'⟩ | ⟨t, ts, t', ts', hts, hts', ht, -⟩ := Cursor.ahead_cases hd
  · rw [hnil, hnil']
    exact .done ho hd
  · rw [hts, hts']
    simp only [List.head?_cons, kind_eq_of_piece ht, ho]
    split
    · exact .failed rfl
    · exact .done ho hd

theorem readClose_agree {o o' : Opening} (ho : o.delimiter = o'.delimiter)
    (h : c.pieces = c'.pieces) (ks : List Kind) :
    Agree (fun _ => ()) (o.readClose ks c) (o'.readClose ks c') := by
  rw [readClose, readClose, Cursor.peek?_eq, Cursor.peek?_eq]
  obtain ⟨hnil, hnil'⟩ | ⟨u, us, u', us', hus, hus', -, -⟩ := Cursor.ahead_cases h
  · rw [hnil, hnil']
    exact .failed rfl
  · rw [hus, hus']
    refine readToken_andThen_agree h fun t t' d d' ht hd => ?_
    rw [kind_eq_of_piece ht, ho]
    split
    · exact .done rfl hd
    · exact unexpected_agree ht _

end Opening

theorem BinaryOp.skip_congr {op op' : BinaryOp} (ho : op.isImplicit = op'.isImplicit)
    (h : c.pieces = c'.pieces) : (op.skip c).pieces = (op'.skip c').pieces := by
  rw [skip, skip, ho]
  split
  · exact h
  · rw [Cursor.pieces_next, Cursor.pieces_next, h]

/-- The same operator comes next, but for its place. -/
theorem BinaryOp.peek?_cases (h : c.pieces = c'.pieces) :
    (peek? c = none ∧ peek? c' = none) ∨ ∃ op op', peek? c = some op ∧ peek? c' = some op' ∧
      op.kind = op'.kind ∧ op.isImplicit = op'.isImplicit := by
  have hk := kind_peek? c
  rw [h, ← kind_peek? c'] at hk
  cases hop : peek? c <;> cases hop' : peek? c' <;> simp_all

end

namespace Expr

section
variable {c c' : Cursor}

theorem readNumber_agree (h : c.pieces = c'.pieces) :
    Agree shape (readNumber c) (readNumber c') :=
  .map (.orElse (readKind_agree h .int) (readKind_agree h .float)) fun t t' ht => by
    rw [shape, shape, lexeme_eq_of_piece ht]

theorem readSymbol_agree (h : c.pieces = c'.pieces) :
    Agree shape (readSymbol c) (readSymbol c') :=
  (Ident.read_agree h).map fun i i' hi => by rw [shape, shape, hi]

theorem readLiteral_agree (h : c.pieces = c'.pieces) :
    Agree shape (readLiteral c) (readLiteral c') :=
  (readNumber_agree h).orElse (readSymbol_agree h)

theorem startsCall_congr (h : c.pieces = c'.pieces) : startsCall c = startsCall c' := by
  cases hc : c.pieces with
  | nil =>
    have hnil := List.map_eq_nil_iff.mp hc
    have hnil' := List.map_eq_nil_iff.mp (h ▸ hc)
    rw [startsCall, startsCall, Cursor.peek?_eq, Cursor.peek?_eq, hnil, hnil']
    rfl
  | cons t ts => rw [startsCall_eq hc, startsCall_eq (h ▸ hc)]

end

theorem read_of_isClosing {c : Cursor} {t : Token} {ts : List Token} (hts : c.ahead = t :: ts)
    (ht : t.kind.isClosing = true) : read c = .failed ⟨.unclosed false, t.span⟩ c := by
  rw [read, Cursor.peek?_eq, hts, List.head?_cons]
  exact if_pos ht

theorem read_of_not_isClosing {c : Cursor} (h : ∀ t ∈ c.ahead.head?, t.kind.isClosing = false) :
    read c = readAtLeast .any c := by
  obtain ⟨f, hf⟩ := read_eq c
  rw [hf, Cursor.sees, Cursor.peek?_eq, if_neg]
  cases hts : c.ahead.head? with
  | none => simp
  | some t => simp [h t hts]

/-- Before fewer than `n` tokens, the readers at each precedence agree with those before the same
pieces. -/
def AgreeBelow (n : Nat) : Prop :=
  ∀ (p : Precedence) (c c' : Cursor), c.rest.length < n → c.pieces = c'.pieces →
    Agree shape (readAtLeast p c) (readAtLeast p c')

section
variable {n : Nat} {c c' : Cursor} (H : AgreeBelow n)
include H

theorem climb_agree {p : Precedence} {left left' : Expr} (hl : left.shape = left'.shape)
    (hn : c.rest.length < n) (h : c.pieces = c'.pieces) :
    Agree shape (climb left p c) (climb left' p c') := by
  induction hm : c.rest.length using Nat.strong_induction_on generalizing left left' c c' with
  | _ m ih =>
    rw [climb_eq_readAtLeast, climb_eq_readAtLeast]
    obtain ⟨hop, hop'⟩ | ⟨op, op', hop, hop', hk, hi⟩ := BinaryOp.peek?_cases h
    · rw [hop, hop']
      exact .done hl h
    · rw [hop, hop']
      have hprec : op.precedence = op'.precedence := by
        rw [BinaryOp.precedence, BinaryOp.precedence, hk]
      simp only [hprec, hk]
      by_cases hp : op'.precedence.rank < p.rank
      · simp only [if_pos hp]
        exact .done hl h
      · simp only [if_neg hp]
        have hle := op.skip_length_le c
        refine (H _ _ _ (by omega) (BinaryOp.skip_congr hi h)).andThen
          fun right right' d d' hr hs hd => ?_
        have hlt := readAtLeast_lt hr
        refine ih d.rest.length (by omega) ?_ (by omega) hd rfl
        rw [join, join, shape, shape, hl, hs, hk, hi]

/-- What is inside a bracket. -/
theorem read_agree (hn : c.rest.length < n) (h : c.pieces = c'.pieces) :
    Agree shape (read c) (read c') := by
  have hread := H .any c c' hn h
  obtain ⟨hnil, hnil'⟩ | ⟨t, ts, t', ts', hts, hts', ht, -⟩ := Cursor.ahead_cases h
  · rw [read_of_not_isClosing (by rw [hnil]; simp), read_of_not_isClosing (by rw [hnil']; simp)]
    exact hread
  · have hk := kind_eq_of_piece ht
    by_cases hclosing : t.kind.isClosing = true
    · rw [read_of_isClosing hts hclosing, read_of_isClosing hts' (hk ▸ hclosing)]
      exact .failed rfl
    · rw [read_of_not_isClosing (by rw [hts]; simpa using hclosing),
        read_of_not_isClosing (by rw [hts']; simpa [← hk] using hclosing)]
      exact hread

theorem readUnary_agree (hn : c.rest.length ≤ n) (h : c.pieces = c'.pieces) :
    Agree shape (readUnary c) (readUnary c') := by
  have hsigned : ∀ (op : UnaryOp) (d : Cursor),
      ((readSigned d).advance d fun operand d₁ _ => (climb operand .sign d₁).map fun operand =>
        Expr.unary op operand (op.span.through operand.span)) =
      (readAtLeast .sign d).map fun operand =>
        Expr.unary op operand (op.span.through operand.span) := by
    intro op d
    rw [Reading.advance_eq_andThen fun _ _ h => readSigned_lt h, readAtLeast, Reading.map,
      Reading.andThen_assoc]
    rfl
  rw [readUnary, readUnary]
  refine ((UnaryOp.read_agree h).restore c c').advance
    (fun _ _ h => UnaryOp.read_lt (Reading.restore_eq_done.mp h))
    (fun _ _ h => UnaryOp.read_lt (Reading.restore_eq_done.mp h))
    fun op op' d d' hd _ hop hpieces => ?_
  rw [hsigned, hsigned]
  refine (H .sign d d' (by omega) hpieces).map fun operand operand' hs => ?_
  rw [shape, shape, hop, hs]

theorem readGroup_agree (hn : c.rest.length ≤ n) (h : c.pieces = c'.pieces) :
    Agree shape (readGroup c) (readGroup c') := by
  rw [readGroup, readGroup]
  refine (Opening.readFilled_agree h).advance (fun _ _ => Opening.readFilled_lt)
    (fun _ _ => Opening.readFilled_lt) fun o o' d d' hd _ ho hpieces => ?_
  refine ((read_agree H (by omega) hpieces).restore d d').andThen
    fun inner inner' e e' _ hs hpieces => ?_
  rw [ho]
  refine (Opening.readClose_agree ho hpieces _).map fun _ _ _ => ?_
  rw [shape, shape, hs]

/-- The arguments that follow the first one, and the end of the call. -/
theorem readArgs_agree {o o' : Opening} (ho : o.delimiter = o'.delimiter)
    (hn : c.rest.length < n) (h : c.pieces = c'.pieces) :
    Agree (fun a => shapes a.1) (readArgs o c) (readArgs o' c') := by
  induction hm : c.rest.length using Nat.strong_induction_on generalizing c c' with
  | _ m ih =>
    have hclosed : ∀ ks, Agree (fun a : List Expr × Span => shapes a.1)
        ((o.readClose ks c).map fun close => ([], close))
        ((o'.readClose ks c').map fun close => ([], close)) :=
      fun ks => (Opening.readClose_agree ho h ks).map fun _ _ _ => rfl
    rw [readArgs, readArgs, ho]
    split
    · exact hclosed _
    · have hcomma := readKind_agree h .comma
      generalize hr : readKind .comma c = r at hcomma ⊢
      generalize hr' : readKind .comma c' = r' at hcomma ⊢
      cases hcomma with
      | failed => exact hclosed _
      | @done t t' d d' ht hd =>
        have hlt := (ahead_of_readToken (readKind_eq_done.mp hr).1).2
        have hlt' := (ahead_of_readToken (readKind_eq_done.mp hr').1).2
        dsimp only
        rw [Reading.advance_done _ _ _ hlt, Reading.advance_done _ _ _ hlt']
        refine ((read_agree H (by omega) hd).restore d d').advance
          (fun _ _ h => read_lt (Reading.restore_eq_done.mp h))
          (fun _ _ h => read_lt (Reading.restore_eq_done.mp h))
          fun arg arg' e e' he _ hs hpieces => ?_
        refine (ih e.rest.length (by omega) (by omega) hpieces rfl).map fun a a' hargs => ?_
        rw [shapes, shapes, hs, hargs]

theorem readCall_agree (hn : c.rest.length ≤ n) (h : c.pieces = c'.pieces) :
    Agree shape (readCall c) (readCall c') := by
  rw [readCall, readCall]
  refine (Ident.read_agree h).advance (fun _ _ => Ident.read_lt) (fun _ _ => Ident.read_lt)
    fun i i' d d' hd _ hi hpieces => ?_
  refine (Opening.readFilled_agree hpieces).advance (fun _ _ => Opening.readFilled_lt)
    (fun _ _ => Opening.readFilled_lt) fun o o' e e' he _ ho hpieces => ?_
  refine ((read_agree H (by omega) hpieces).restore e e').advance
    (fun _ _ h => read_lt (Reading.restore_eq_done.mp h))
    (fun _ _ h => read_lt (Reading.restore_eq_done.mp h))
    fun arg arg' g g' hg _ hs hpieces => ?_
  refine (readArgs_agree H ho (by omega) hpieces).map fun a a' hargs => ?_
  rw [Cursor.sees_congr h, shape, shape, shapes, shapes, hi, ho, hs, hargs]

theorem readPrimary_agree (hn : c.rest.length ≤ n) (h : c.pieces = c'.pieces) :
    Agree shape (readPrimary c) (readPrimary c') := by
  rw [readPrimary, readPrimary, Cursor.peek?_eq, Cursor.peek?_eq, startsCall_congr h]
  obtain ⟨hnil, hnil'⟩ | ⟨t, ts, t', ts', hts, hts', ht, -⟩ := Cursor.ahead_cases h
  · rw [hnil, hnil']
    exact .failed rfl
  · rw [hts, hts']
    simp only [List.head?_cons, kind_eq_of_piece ht]
    split
    · exact (readGroup_agree H hn h).restore c c'
    · split
      · split
        · exact (readCall_agree H hn h).restore c c'
        · exact (readLiteral_agree h).restore c c'
      · exact unexpected_agree ht _

theorem readSigned_agree (hn : c.rest.length ≤ n) (h : c.pieces = c'.pieces) :
    Agree shape (readSigned c) (readSigned c') := by
  rw [readSigned, readSigned, Cursor.sees_congr h]
  split
  · exact readUnary_agree H hn h
  · exact readPrimary_agree H hn h

end

theorem readAtLeast_agree (n : Nat) : AgreeBelow n := by
  induction n with
  | zero =>
    intro p c c' hn
    omega
  | succ n H =>
    intro p c c' hn h
    refine (readSigned_agree H (by omega) h).andThen fun left left' d d' hleft hl hd => ?_
    have hlt := readSigned_lt hleft
    exact climb_agree H hl (by omega) hd

end Expr

/-- A whole row of pieces is read the same way in every spacing. -/
theorem readFull_agree {c c' : Cursor} (h : c.pieces = c'.pieces) :
    Agree Expr.shape (readFull Expr.read c) (readFull Expr.read c') := by
  refine (Expr.read_agree (Expr.readAtLeast_agree _) (Nat.lt_succ_self _) h).andThen
    fun e e' d d' _ hs hd => ?_
  rw [Cursor.peek?_eq, Cursor.peek?_eq]
  obtain ⟨hnil, hnil'⟩ | ⟨t, ts, t', ts', hts, hts', ht, -⟩ := Cursor.ahead_cases hd
  · rw [hnil, hnil']
    exact .done hs hd
  · rw [hts, hts']
    simp only [List.head?_cons, kind_eq_of_piece ht]
    split
    · exact .failed rfl
    · exact .failed rfl

/-- White space between tokens does not change what is read: the same tree but for the places, or a
fault with the same cause. -/
theorem parse_respaced {source source' : String}
    (h : pieces (tokens source) = pieces (tokens source')) :
    (∃ e e', parse source = .ok e ∧ parse source' = .ok e' ∧ e.shape = e'.shape) ∨
      ∃ f f', parse source = .error f ∧ parse source' = .error f' ∧ f.cause = f'.cause := by
  have hread : Agree Expr.shape (readFull Expr.read (.start (tokens source)))
      (readFull Expr.read (.start (tokens source'))) := readFull_agree h
  rw [parse, parse]
  generalize readFull Expr.read (.start (tokens source)) = r at hread ⊢
  generalize readFull Expr.read (.start (tokens source')) = r' at hread ⊢
  cases hread with
  | done hs _ => exact .inl ⟨_, _, rfl, rfl, hs⟩
  | failed he => exact .inr ⟨_, _, rfl, rfl, he⟩

/-- A call with its blanks in other places, and a group that stays open. -/
theorem parse_respaced_call :
    (pieces (tokens "3 sin( x)^ 2") = pieces (tokens " 3sin (x )^2 ") ∧
      ((∃ e e', parse "3 sin( x)^ 2" = .ok e ∧ parse " 3sin (x )^2 " = .ok e' ∧
          e.shape = e'.shape) ∨
        ∃ f f', parse "3 sin( x)^ 2" = .error f ∧ parse " 3sin (x )^2 " = .error f' ∧
          f.cause = f'.cause)) ∧
    pieces (tokens "2 (x+") = pieces (tokens "2(x + ") ∧
      ((∃ e e', parse "2 (x+" = .ok e ∧ parse "2(x + " = .ok e' ∧ e.shape = e'.shape) ∨
        ∃ f f', parse "2 (x+" = .error f ∧ parse "2(x + " = .error f' ∧ f.cause = f'.cause) := by
  have hcall : pieces (tokens "3 sin( x)^ 2") = pieces (tokens " 3sin (x )^2 ") := by
    decide +kernel
  have hopen : pieces (tokens "2 (x+") = pieces (tokens "2(x + ") := by decide +kernel
  exact ⟨⟨hcall, parse_respaced hcall⟩, hopen, parse_respaced hopen⟩

end CurveGuess
