import CurveGuess.Proofs.Grammar.Climbing
import CurveGuess.Proofs.Grammar.Derivation

/-!
# What is read is derived

Reading at a precedence takes the part of that precedence from the pieces to come, and stops where
no operator follows that binds at least as tightly. The loop over the operators keeps one
invariant: what was read so far is what the operator to come takes on its left.
-/
namespace CurveGuess

/-- The operator that a kind stands for after an operand, and whether it is implicit. -/
def Kind.operator? : Kind → Option (BinaryKind × Bool)
  | .add => some (.add, false)
  | .sub => some (.sub, false)
  | .mul | .cdot => some (.mul, false)
  | .div => some (.div, false)
  | .exp => some (.exp, false)
  | k => if k.startsOperand then some (.mul, true) else none

/-- The operator that comes first. -/
def Piece.operator? (ts : List Piece) : Option (BinaryKind × Bool) :=
  ts.head?.bind (·.kind.operator?)

/-- No operator comes first that binds at least as tightly as `p`. -/
def Stops (p : Precedence) (ts : List Piece) : Prop :=
  ∀ o ∈ Piece.operator? ts, o.1.precedence.rank < p.rank

/-- The pieces to come. -/
def Cursor.pieces (c : Cursor) : List Piece := c.ahead.map Token.piece

theorem Cursor.pieces_of_readToken {c c' : Cursor} {t : Token} (h : readToken c = .done t c') :
    c.pieces = t.piece :: c'.pieces := by
  simp [Cursor.pieces, (ahead_of_readToken h).1]

theorem not_stops {p : Precedence} {ts : List Piece} (h : ¬Stops p ts) :
    ∃ t us k isImplicit, ts = t :: us ∧ t.kind.operator? = some (k, isImplicit) ∧
      ¬k.precedence.rank < p.rank := by
  simp only [Stops, not_forall] at h
  obtain ⟨⟨k, isImplicit⟩, ho, hp⟩ := h
  cases ts with
  | nil => simp [Piece.operator?] at ho
  | cons t us => exact ⟨t, us, k, isImplicit, rfl, ho, hp⟩

theorem Delimiter.eq_openKind {k : Kind} {d : Delimiter} (h : ofKind? k = some d) :
    k = d.openKind := by
  cases k <;> simp [ofKind?] at h <;> subst h <;> rfl

theorem UnaryOp.signKind?_eq {t : Token} {op : UnaryOp} (h : ofToken? t = some op) :
    signKind? t.kind = some op.kind := by
  unfold ofToken? at h
  split at h <;> simp_all [signKind?] <;> rw [← h]

namespace BinaryOp

theorem kind_ofToken? (t : Token) :
    (ofToken? t).map (fun op => (op.kind, op.isImplicit)) = t.kind.operator? := by
  unfold ofToken? Kind.operator?
  cases t.kind <;> rfl

theorem kind_peek? (c : Cursor) :
    (peek? c).map (fun op => (op.kind, op.isImplicit)) = Piece.operator? c.pieces := by
  rw [peek?, Cursor.peek?_eq, Piece.operator?, Cursor.pieces]
  cases c.ahead with
  | nil => rfl
  | cons t ts => exact kind_ofToken? t

theorem pieces_skip {c : Cursor} {t : Piece} {ts : List Piece} (op : BinaryOp)
    (h : c.pieces = t :: ts) : (op.skip c).pieces = if op.isImplicit then t :: ts else ts := by
  rw [skip]
  split
  · exact h
  · have hn := (Cursor.ahead_takeFrom c.before c.rest).2
    change c.next.2.ahead = c.ahead.tail at hn
    rw [Cursor.pieces, hn, List.map_tail, ← Cursor.pieces, h, List.tail_cons]

end BinaryOp

namespace Expr

theorem climb_of_stops {p : Precedence} {c : Cursor} (left : Expr) (h : Stops p c.pieces) :
    climb left p c = .done left c := by
  rw [climb_eq]
  cases hop : BinaryOp.peek? c with
  | none => rfl
  | some op =>
    have hk := BinaryOp.kind_peek? c
    rw [hop] at hk
    simp [show op.precedence.rank < p.rank from h _ hk.symm]

/-- The operator that comes first and the place of its right operand. -/
theorem exists_operator {c : Cursor} {t : Piece} {ts : List Piece} {k : BinaryKind}
    {isImplicit : Bool} (hc : c.pieces = t :: ts)
    (ho : t.kind.operator? = some (k, isImplicit)) :
    ∃ op c₁, op.kind = k ∧ op.isImplicit = isImplicit ∧
      c₁.pieces = (if isImplicit then t :: ts else ts) ∧ c₁.rest.length ≤ c.rest.length ∧
      ∀ (left : Expr) (p : Precedence), ¬k.precedence.rank < p.rank → climb left p c =
        (readAtLeast k.above c₁).andThen fun right c₂ => climb (join op left right) p c₂ := by
  have hk := BinaryOp.kind_peek? c
  rw [hc, Piece.operator?, List.head?_cons, Option.bind_some, ho] at hk
  obtain ⟨op, hop, he⟩ := Option.map_eq_some_iff.mp hk
  cases he
  refine ⟨op, op.skip c, rfl, rfl, op.pieces_skip hc, op.skip_length_le c, ?_⟩
  intro left p hp
  rw [climb_eq_readAtLeast, hop]
  exact if_neg hp

end Expr

/-- The part that is read at a precedence. -/
def Precedence.part : Precedence → Part
  | .any | .term => .sum
  | .factor => .product
  | .sign | .power => .signed

namespace BinaryKind

/-- The part that an operator takes on its left. -/
def leftPart : BinaryKind → Part
  | add | sub => .sum
  | mul | div => .product
  | exp => .primary

theorem part_rank_le (k : BinaryKind) (p : Precedence) :
    ¬k.precedence.rank < p.rank → p.part.rank ≤ k.part.rank := by
  cases k <;> cases p <;> decide

theorem leftPart_rank_le (k next : BinaryKind) :
    next.precedence.rank < k.above.rank → next.leftPart.rank ≤ k.part.rank := by
  cases k <;> cases next <;> decide

end BinaryKind

namespace Derivation

variable {t : Piece} {ts i m r : List Piece} {a b e : Shape}

/-- What begins without a sign is a power. -/
theorem power_of_signed (d : Derivation .signed (t :: m) r [e]) (h : t.kind.isSign = false) :
    Nonempty (Derivation .power (t :: m) r [e]) := by
  cases d with
  | sign hk _ => cases ht : t.kind <;> simp_all [Kind.isSign, signKind?]
  | ofPower d => exact ⟨d⟩

theorem operator?_eq_some {k : Kind} {o : BinaryKind} {isImplicit : Bool}
    (h : k.operator? = some (o, isImplicit)) :
    isImplicit = false ∧
        (sumKind? k = some o ∨ productKind? k = some o ∨ k = .exp ∧ o = .exp) ∨
      isImplicit = true ∧ o = .mul ∧ k.startsOperand = true := by
  cases k <;>
    simp_all [Kind.operator?, sumKind?, productKind?, Kind.startsOperand, Kind.isNumber,
      Kind.isOpening, eq_comm]

/-- An operator and its two operands make the part of the operator. -/
theorem join {k : BinaryKind} {isImplicit : Bool}
    (hk : t.kind.operator? = some (k, isImplicit)) (hl : Derivation k.leftPart i (t :: ts) [a])
    (hr : Derivation k.above.part (if isImplicit then t :: ts else ts) r [b]) :
    Nonempty (Derivation k.part i r [.binary k isImplicit a b]) := by
  rcases operator?_eq_some hk with ⟨rfl, hs | hm | ⟨he, rfl⟩⟩ | ⟨rfl, rfl, ho⟩
  · cases k <;> cases part_of_sumKind? hs
    · exact ⟨.add hl hs hr⟩
    · exact ⟨.add hl hs hr⟩
  · cases k <;> cases part_of_productKind? hm
    · exact ⟨.mul hl hm hr⟩
    · exact ⟨.mul hl hm hr⟩
  · exact ⟨.raise hl he hr⟩
  · have hsign : t.kind.isSign = false := by
      cases ht : t.kind <;>
        simp_all [Kind.isSign, Kind.startsOperand, Kind.isNumber, Kind.isOpening]
    obtain ⟨hr⟩ := power_of_signed hr hsign
    exact ⟨.juxtapose hl hr⟩

end Derivation

/-- What was read up to `m` is what the operator to come takes on its left. -/
def Ready (p : Precedence) (i m : List Piece) (left : Shape) : Prop :=
  Nonempty (Derivation p.part i m [left]) ∧
    ∀ o ∈ Piece.operator? m, ¬o.1.precedence.rank < p.rank →
      Nonempty (Derivation o.1.leftPart i m [left])

namespace Ready

variable {p : Precedence} {i m r ts : List Piece} {t : Piece} {a b : Shape}

theorem of_primary (d : Derivation .primary i m [a]) : Ready p i m a := by
  refine ⟨Derivation.lift_primary d (by cases p <;> decide), ?_⟩
  intro o _ _
  exact Derivation.lift_primary d (by cases o.1 <;> decide)

theorem of_signed (d : Derivation .signed i m [a]) (h : Stops .sign m) : Ready p i m a := by
  refine ⟨Derivation.lift_signed d (by cases p <;> decide), ?_⟩
  intro o ho _
  have hs := h o ho
  refine Derivation.lift_signed d ?_
  revert hs
  cases o.1 <;> decide

/-- The operator after the right operand is no tighter, so it takes the new node. -/
theorem join {k : BinaryKind} {isImplicit : Bool} (hl : Ready p i (t :: ts) a)
    (hk : t.kind.operator? = some (k, isImplicit)) (hp : ¬k.precedence.rank < p.rank)
    (hr : Nonempty (Derivation k.above.part (if isImplicit then t :: ts else ts) r [b]))
    (hstop : Stops k.above r) : Ready p i r (.binary k isImplicit a b) := by
  obtain ⟨dl⟩ := hl.2 _ hk hp
  obtain ⟨dr⟩ := hr
  obtain ⟨d⟩ := Derivation.join hk dl dr
  refine ⟨Derivation.lift d (k.part_rank_le p hp) (by cases k <;> decide), ?_⟩
  intro o ho _
  exact Derivation.lift d (k.leftPart_rank_le o.1 (hstop o ho)) (by cases k <;> decide)

end Ready

namespace Expr

/-- The reader at each precedence is sound before fewer than `n` tokens. -/
def SoundBelow (n : Nat) : Prop :=
  ∀ (p : Precedence) (c c' : Cursor) (e : Expr), c.rest.length < n →
    readAtLeast p c = .done e c' →
      Nonempty (Derivation p.part c.pieces c'.pieces [e.shape]) ∧ Stops p c'.pieces

theorem climb_sound {n : Nat} (H : SoundBelow n) {p : Precedence} {i : List Piece}
    {left e : Expr} {c c' : Cursor} (hn : c.rest.length < n)
    (hl : Ready p i c.pieces left.shape) (h : climb left p c = .done e c') :
    Nonempty (Derivation p.part i c'.pieces [e.shape]) ∧ Stops p c'.pieces := by
  induction hm : c.rest.length using Nat.strong_induction_on generalizing left c with
  | _ m ih =>
    by_cases hs : Stops p c.pieces
    · rw [climb_of_stops left hs] at h
      cases h
      exact ⟨hl.1, hs⟩
    · obtain ⟨t, ts, k, isImplicit, hc, ho, hp⟩ := not_stops hs
      obtain ⟨op, c₁, rfl, rfl, hc₁, hle, hclimb⟩ := exists_operator hc ho
      rw [hclimb left p hp] at h
      obtain ⟨right, c₂, h₂, h⟩ := Reading.andThen_eq_done.mp h
      have hlt := readAtLeast_lt h₂
      obtain ⟨dr, hstop⟩ := H _ _ _ _ (by omega) h₂
      rw [hc] at hl
      rw [hc₁] at dr
      exact ih c₂.rest.length (by omega) (by omega) (hl.join ho hp dr hstop) h rfl

end Expr

theorem Cursor.sees_eq (c : Cursor) (p : Kind → Bool) :
    c.sees p = c.pieces.head?.any (p ·.kind) := by
  rw [sees, peek?_eq, pieces, List.head?_map]
  cases c.ahead.head? <;> rfl

namespace Expr

theorem startsCall_eq {c : Cursor} {t : Piece} {ts : List Piece} (h : c.pieces = t :: ts) :
    startsCall c = (t.isCallable && Piece.opens ts) := by
  rw [startsCall, Cursor.peek?_eq, Cursor.peekSecond?]
  obtain ⟨u, us, ha, rfl, rfl⟩ := List.map_eq_cons_iff.mp h
  rw [ha, Piece.isCallable_piece]
  cases us with
  | nil => simp
  | cons v vs => rfl

theorem read_eq (c : Cursor) :
    ∃ f, read c = if c.sees Kind.isClosing then .failed f c else readAtLeast .any c := by
  have hadv : (readSigned c).advance c (fun left c₁ _ => climb left .any c₁) =
      readAtLeast .any c :=
    Reading.advance_eq_andThen fun _ _ h => readSigned_lt h
  rw [read, hadv, Cursor.sees]
  cases hc : c.peek? with
  | none => exact ⟨default, rfl⟩
  | some t => exact ⟨_, rfl⟩

theorem readAtLeast_of_read {c c' : Cursor} {e : Expr} (h : read c = .done e c') :
    readAtLeast .any c = .done e c' := by
  obtain ⟨f, hf⟩ := read_eq c
  rw [hf] at h
  split at h
  · cases h
  · exact h

theorem readArgs_sound {n : Nat} (H : SoundBelow n) {o : Opening} (ho : o.delimiter = .paren)
    {i : List Piece} {e : Shape} {args : List Expr} {s : Span} {c c' : Cursor}
    (hn : c.rest.length < n) (d : Derivation .sum i c.pieces [e])
    (h : readArgs o c = .done (args, s) c') :
    Nonempty (Derivation .arguments i c'.pieces (e :: shapes args)) := by
  induction hm : c.rest.length using Nat.strong_induction_on generalizing i e args s c with
  | _ m ih =>
    rw [readArgs, ho] at h
    simp only at h
    split at h
    · obtain ⟨close, hclose, he⟩ := Reading.map_eq_done.mp h
      cases he
      obtain ⟨t, ht, hk, -⟩ := Opening.readClose_eq_done.mp hclose
      rw [Cursor.pieces_of_readToken ht] at d
      rw [ho] at hk
      exact ⟨.lastArgument d hk⟩
    · next t c₁ hcomma =>
      obtain ⟨ht, hk⟩ := readKind_eq_done.mp hcomma
      obtain ⟨_, c₂, h₁, heq, h⟩ := Reading.advance_eq_done.mp h
      cases heq
      obtain ⟨arg, c₃, h₂, harg, h⟩ := Reading.advance_eq_done.mp h
      obtain ⟨⟨as, close⟩, hrest, he⟩ := Reading.map_eq_done.mp h
      cases he
      have hread := readAtLeast_of_read (Reading.restore_eq_done.mp harg)
      obtain ⟨⟨d₁⟩, -⟩ := H _ _ _ _ (by omega) hread
      obtain ⟨d₂⟩ := ih c₃.rest.length (by omega) (by omega) d₁ hrest rfl
      rw [Cursor.pieces_of_readToken ht] at d
      exact ⟨.nextArgument d hk d₂⟩

theorem readCall_sound {n : Nat} (H : SoundBelow n) {e : Expr} {c c' : Cursor}
    (hn : c.rest.length ≤ n) (hs : startsCall c = true) (h : readCall c = .done e c') :
    Nonempty (Derivation .primary c.pieces c'.pieces [e.shape]) := by
  rw [readCall, Reading.advance_eq_done] at h
  obtain ⟨callee, c₁, h₁, hcallee, h⟩ := h
  obtain ⟨o, c₂, h₂, ho, h⟩ := Reading.advance_eq_done.mp h
  obtain ⟨arg, c₃, h₃, harg, h⟩ := Reading.advance_eq_done.mp h
  obtain ⟨⟨args, close⟩, hargs, he⟩ := Reading.map_eq_done.mp h
  obtain ⟨v, hv, -, rfl⟩ := Ident.read_eq_done.mp hcallee
  obtain ⟨⟨w, hw, hd, -⟩, -⟩ := Opening.readFilled_eq_done.mp ho
  have hread := readAtLeast_of_read (Reading.restore_eq_done.mp harg)
  obtain ⟨⟨d⟩, -⟩ := H _ _ _ _ (by omega) hread
  have hv' := Cursor.pieces_of_readToken hv
  have hw' := Cursor.pieces_of_readToken hw
  have hformal : c.sees (· = .command) = decide (v.piece.kind = .command) := by
    rw [Cursor.sees_eq, hv']
    rfl
  rw [startsCall_eq hv', Bool.and_eq_true] at hs
  have hcall := hs.1
  rw [← he, hv', hw', shape, shapes, hformal]
  cases hdel : o.delimiter with
  | brace =>
    rw [readArgs, hdel] at hargs
    obtain ⟨close', hclose, he'⟩ := Reading.map_eq_done.mp hargs
    cases he'
    obtain ⟨x, hx, hk, -⟩ := Opening.readClose_eq_done.mp hclose
    rw [Cursor.pieces_of_readToken hx] at d
    rw [hdel] at hd hk
    exact ⟨.braceCall hcall (Delimiter.eq_openKind hd) d hk⟩
  | paren =>
    obtain ⟨d'⟩ := readArgs_sound H hdel (by omega) d hargs
    rw [hdel] at hd
    exact ⟨.parenCall hcall (Delimiter.eq_openKind hd) d'⟩

theorem readGroup_sound {n : Nat} (H : SoundBelow n) {e : Expr} {c c' : Cursor}
    (hn : c.rest.length ≤ n) (h : readGroup c = .done e c') :
    Nonempty (Derivation .primary c.pieces c'.pieces [e.shape]) := by
  rw [readGroup, Reading.advance_eq_done] at h
  obtain ⟨o, c₁, h₁, ho, h⟩ := h
  obtain ⟨inner, c₂, hinner, h⟩ := Reading.andThen_eq_done.mp h
  obtain ⟨close, hclose, he⟩ := Reading.map_eq_done.mp h
  obtain ⟨⟨w, hw, hd, -⟩, -⟩ := Opening.readFilled_eq_done.mp ho
  obtain ⟨x, hx, hk, -⟩ := Opening.readClose_eq_done.mp hclose
  have hread := readAtLeast_of_read (Reading.restore_eq_done.mp hinner)
  obtain ⟨⟨d⟩, -⟩ := H _ _ _ _ (by omega) hread
  rw [Cursor.pieces_of_readToken hx] at d
  rw [← he, Cursor.pieces_of_readToken hw, shape]
  exact ⟨.group hd d hk⟩

/-- A name is read as a literal only where it is not called. -/
theorem readLiteral_sound {e : Expr} {c c' : Cursor} (hs : startsCall c = false)
    (h : readLiteral c = .done e c') :
    Nonempty (Derivation .primary c.pieces c'.pieces [e.shape]) := by
  obtain ⟨t, ht, ⟨hk, rfl⟩ | ⟨hk, rfl⟩⟩ := readLiteral_eq_done.mp h
  · have hd := Derivation.number (t := t.piece) (r := c'.pieces) hk
    rw [Piece.numeral, Token.text_piece, String.ofList_toList] at hd
    rw [Cursor.pieces_of_readToken ht, shape]
    exact ⟨hd⟩
  · have hc := Cursor.pieces_of_readToken ht
    rw [startsCall_eq hc] at hs
    rw [hc, shape]
    refine ⟨.symbol ?_ ?_⟩
    · simpa [Piece.isName_piece] using hk
    · intro hcall
      simpa [hcall] using hs

theorem readPrimary_sound {n : Nat} (H : SoundBelow n) {e : Expr} {c c' : Cursor}
    (hn : c.rest.length ≤ n) (h : readPrimary c = .done e c') :
    Nonempty (Derivation .primary c.pieces c'.pieces [e.shape]) := by
  rw [readPrimary] at h
  split at h
  · cases h
  · split at h
    · exact readGroup_sound H hn (Reading.restore_eq_done.mp h)
    · split at h
      · split at h
        · next hs => exact readCall_sound H hn hs (Reading.restore_eq_done.mp h)
        · next hs =>
          exact readLiteral_sound (Bool.eq_false_iff.mpr hs) (Reading.restore_eq_done.mp h)
      · cases h

theorem readUnary_sound {n : Nat} (H : SoundBelow n) {e : Expr} {c c' : Cursor}
    (hn : c.rest.length ≤ n) (h : readUnary c = .done e c') :
    Nonempty (Derivation .signed c.pieces c'.pieces [e.shape]) ∧ Stops .sign c'.pieces := by
  rw [readUnary, Reading.advance_eq_done] at h
  obtain ⟨op, c₁, h₁, hop, h⟩ := h
  obtain ⟨operand, c₂, h₂, hoperand, h⟩ := Reading.advance_eq_done.mp h
  obtain ⟨operand', hclimb, he⟩ := Reading.map_eq_done.mp h
  obtain ⟨t, ht, hk⟩ := UnaryOp.read_eq_done.mp (Reading.restore_eq_done.mp hop)
  have hread : readAtLeast .sign c₁ = .done operand' c' :=
    Reading.andThen_eq_done.mpr ⟨operand, c₂, hoperand, hclimb⟩
  obtain ⟨⟨d⟩, hstop⟩ := H _ _ _ _ (by omega) hread
  rw [← he, Cursor.pieces_of_readToken ht, shape]
  exact ⟨⟨.sign (UnaryOp.signKind?_eq hk) d⟩, hstop⟩

theorem readAtLeast_sound (n : Nat) : SoundBelow n := by
  induction n with
  | zero =>
    intro p c c' e hn
    omega
  | succ n H =>
    intro p c c' e hn h
    obtain ⟨left, c₁, hleft, h⟩ := Reading.andThen_eq_done.mp h
    have hlt := readSigned_lt hleft
    rw [readSigned] at hleft
    split at hleft
    · obtain ⟨⟨d⟩, hs⟩ := readUnary_sound H (by omega) hleft
      exact climb_sound H (by omega) (.of_signed d hs) h
    · obtain ⟨d⟩ := readPrimary_sound H (by omega) hleft
      exact climb_sound H (by omega) (.of_primary d) h

end Expr

end CurveGuess
