import CurveGuess.Proofs.Grammar.Spans
import Mathlib.Logic.Function.Iterate
import Mathlib.Logic.Relation

/-!
# Reading goes forward and ends

The readers call each other, and the check that the cursor has moved stands in their recursion only
to show that it ends. Here it is taken out: one level of calls is a function of the readers that it
calls, and the readers are what comes of that level put on itself a number of times, whatever is
called at the bottom. The number of times depends on the tokens to come and on nothing else. What
one level keeps, the readers keep, and so no reader goes back or leaves the text. The loops over the
operators go round by round, and each round takes a token.
-/
namespace CurveGuess

namespace Cursor

/-- The second cursor stands in the same tokens as the first one, and not before it. -/
def Reaches (c c' : Cursor) : Prop :=
  ∃ passed, c.rest = passed ++ c'.rest ∧ c'.before = passed.reverse ++ c.before

/-- From the first cursor to the second one a token is taken that is no white space. -/
def Advances (c c' : Cursor) : Prop :=
  ∃ ts, ts ≠ [] ∧ c.Takes ts c'

variable {c c₁ c₂ : Cursor} {ts : List Token}

namespace Reaches

theorem refl (c : Cursor) : c.Reaches c := ⟨[], rfl, rfl⟩

theorem trans (h₁ : c.Reaches c₁) (h₂ : c₁.Reaches c₂) : c.Reaches c₂ := by
  obtain ⟨ps, hrest₁, hbefore₁⟩ := h₁
  obtain ⟨qs, hrest₂, hbefore₂⟩ := h₂
  refine ⟨ps ++ qs, ?_, ?_⟩
  · rw [hrest₁, hrest₂, List.append_assoc]
  · rw [hbefore₂, hbefore₁, List.reverse_append, List.append_assoc]

theorem takeFrom (before ts : List Token) :
    (Cursor.mk before ts).Reaches (Cursor.takeFrom before ts).2 := by
  induction ts generalizing before with
  | nil => exact refl _
  | cons t ts ih =>
    have hstep : (Cursor.mk before (t :: ts)).Reaches ⟨t :: before, ts⟩ := ⟨[t], rfl, rfl⟩
    rw [Cursor.takeFrom]
    split
    · exact hstep.trans (ih _)
    · exact hstep

theorem next (c : Cursor) : c.Reaches c.next.2 := takeFrom c.before c.rest

end Reaches

theorem Takes.refl (c : Cursor) : c.Takes [] c := ⟨[], rfl, rfl, rfl, rfl⟩

theorem Advances.trans_takes (h₁ : c.Advances c₁) (h₂ : c₁.Takes ts c₂) : c.Advances c₂ := by
  obtain ⟨us, hne, hus⟩ := h₁
  exact ⟨us ++ ts, List.append_ne_nil_of_left_ne_nil hne ts, hus.trans h₂⟩

theorem Takes.trans_advances (h₁ : c.Takes ts c₁) (h₂ : c₁.Advances c₂) : c.Advances c₂ := by
  obtain ⟨us, hne, hus⟩ := h₂
  exact ⟨ts ++ us, List.append_ne_nil_of_right_ne_nil ts hne, h₁.trans hus⟩

end Cursor

theorem Between.advances {c c' : Cursor} {es : List Expr} (h : Between c es c') :
    c.Advances c' := by
  obtain ⟨ts, hts, hwritten⟩ := h
  exact ⟨ts, hwritten.ne_nil, hts⟩

/-- Wherever reading stops, with success or not, it has gone forward. -/
def Reading.GoesOn {α : Type} (c : Cursor) (r : Reading α) : Prop := c.Reaches r.cursor

namespace Reading.GoesOn

variable {α β : Type} {c : Cursor} {r : Reading α}

theorem andThen (h : r.GoesOn c) {f : α → Cursor → Reading β}
    (hf : ∀ a c', (f a c').GoesOn c') : (r.andThen f).GoesOn c := by
  cases r with
  | done a c' => exact h.trans (hf a c')
  | failed e c' => exact h

theorem map (h : r.GoesOn c) (f : α → β) : (r.map f).GoesOn c :=
  h.andThen fun _ c' => .refl c'

theorem restore (h : r.GoesOn c) : (r.restore c).GoesOn c := by
  cases r with
  | done a c' => exact h
  | failed e c' => exact .refl c

theorem orElse {r' : Reading α} (h : r.GoesOn c) (h' : r'.GoesOn c) : (r.orElse r').GoesOn c := by
  cases r with
  | done a c' => exact h
  | failed e c' => exact h'

end Reading.GoesOn

section
variable (c : Cursor)

theorem readToken_goesOn : (readToken c).GoesOn c := by
  have hnext := Cursor.Reaches.next c
  rw [readToken]
  split
  · next h =>
    rw [h] at hnext
    exact hnext
  · next h =>
    rw [h] at hnext
    exact hnext

theorem readKind_goesOn (k : Kind) : (readKind k c).GoesOn c := by
  refine ((readToken_goesOn c).andThen fun t c' => ?_).restore
  split <;> exact .refl c'

theorem UnaryOp.read_goesOn : (UnaryOp.read c).GoesOn c := by
  refine (readToken_goesOn c).andThen fun t c' => ?_
  split <;> exact .refl c'

theorem Ident.read_goesOn : (Ident.read c).GoesOn c :=
  .map (.orElse (readKind_goesOn c .name) (readKind_goesOn c .command)) _

theorem BinaryOp.reaches_skip (op : BinaryOp) : c.Reaches (op.skip c) := by
  rw [skip]
  split
  · exact .refl c
  · exact .next c

theorem Expr.readLiteral_goesOn : (Expr.readLiteral c).GoesOn c :=
  .orElse (.map (.orElse (readKind_goesOn c .int) (readKind_goesOn c .float)) _)
    ((Ident.read_goesOn c).map _)

theorem Opening.readFilled_goesOn : (Opening.readFilled c).GoesOn c := by
  have hread : (Opening.read c).GoesOn c := by
    refine (readToken_goesOn c).andThen fun t c' => ?_
    split <;> exact .refl c'
  refine hread.andThen fun o c' => ?_
  split
  · split <;> exact .refl c'
  · exact .refl c'

theorem Opening.readClose_goesOn (o : Opening) (ks : List Kind) : (o.readClose ks c).GoesOn c := by
  rw [readClose]
  split
  · exact .refl c
  · refine (readToken_goesOn c).andThen fun t c' => ?_
    split <;> exact .refl c'

end

/-- The readers that call each other, each with what it is given besides the cursor. -/
inductive Reader where
  | expr
  | signed
  | unary
  | primary
  | group
  | call
  | arguments (o : Opening)
  | operators (left : Expr) (p : Precedence)
  | tighter (op : BinaryOp) (right : Expr)

namespace Reader

/-- What a reader gives when it succeeds. -/
abbrev Value : Reader → Type
  | arguments _ => List Expr × Span
  | _ => Expr

/-- Something in the place of each reader. -/
abbrev Table : Type := (k : Reader) → Cursor → Reading k.Value

def read : Table
  | expr => Expr.read
  | signed => Expr.readSigned
  | unary => Expr.readUnary
  | primary => Expr.readPrimary
  | group => Expr.readGroup
  | call => Expr.readCall
  | arguments o => Expr.readArgs o
  | operators left p => Expr.climb left p
  | tighter op right => Expr.climbRight op right

/-- What each reader does itself, where `F` stands for the readers that it calls. Nothing asks
whether the cursor has moved. -/
def once (F : Table) : Table
  | expr, c =>
    match c.peek? with
    | some t =>
      if t.kind.isClosing then .failed ⟨.unclosed false, t.span⟩ c
      else (F signed c).andThen fun left c' => F (operators left .any) c'
    | none => (F signed c).andThen fun left c' => F (operators left .any) c'
  | signed, c => if c.sees Kind.isSign then F unary c else F primary c
  | unary, c =>
    ((UnaryOp.read c).restore c).andThen fun op c₁ =>
      (F signed c₁).andThen fun operand c₂ =>
        (F (operators operand .sign) c₂).map fun operand =>
          .unary op operand (op.span.through operand.span)
  | primary, c =>
    match c.peek? with
    | none => .failed ⟨.unexpectedEnd, c.span⟩ c
    | some t =>
      if t.kind.isOpening then (F group c).restore c
      else if t.kind.startsOperand then
        if Expr.startsCall c then (F call c).restore c else (Expr.readLiteral c).restore c
      else .failed (unexpected Expr.operandKinds t) c
  | group, c =>
    (Opening.readFilled c).andThen fun o c₁ =>
      ((F expr c₁).restore c₁).andThen fun inner c₂ =>
        (o.readClose [o.delimiter.closeKind] c₂).map fun close =>
          .group o.delimiter inner (o.span.through close)
  | call, c =>
    (Ident.read c).andThen fun callee c₁ =>
      (Opening.readFilled c₁).andThen fun o c₂ =>
        ((F expr c₂).restore c₂).andThen fun arg c₃ =>
          (F (arguments o) c₃).map fun (args, close) =>
            .call callee (c.sees (· = .command)) o.delimiter (arg :: args)
              (callee.span.through close)
  | arguments o, c =>
    match o.delimiter with
    | .brace => (o.readClose [.closeBrace] c).map fun close => ([], close)
    | .paren =>
      match readKind .comma c with
      | .failed _ _ => (o.readClose [.comma, .closeParen] c).map fun close => ([], close)
      | .done _ c₁ => ((F expr c₁).restore c₁).andThen fun arg c₂ =>
        (F (arguments o) c₂).map fun (args, close) => (arg :: args, close)
  | operators left p, c =>
    match BinaryOp.peek? c with
    | none => .done left c
    | some op =>
      if op.precedence.rank < p.rank then .done left c
      else (F signed (op.skip c)).andThen fun right c₁ =>
        (F (tighter op right) c₁).andThen fun right c₂ =>
          F (operators (Expr.join op left right) p) c₂
  | tighter op right, c =>
    match BinaryOp.peek? c with
    | none => .done right c
    | some next =>
      if op.yieldsTo next then
        (F (operators right next.precedence) c).andThen fun right c' => F (tighter op right) c'
      else .done right c

/-- What the calls below a reader at a cursor use up: eight times the tokens to come, and a place in
the order in which the readers call each other where no token is taken. -/
def room (k : Reader) (c : Cursor) : Nat :=
  8 * c.rest.length + match k with
    | arguments _ => 0
    | group => 1
    | call => 1
    | primary => 2
    | unary => 3
    | signed => 4
    | expr => 5
    | operators _ _ => 6
    | tighter _ _ => 7

theorem room_lt (k : Reader) (c : Cursor) : k.room c < 8 * (c.rest.length + 1) := by
  cases k <;> simp only [room] <;> omega

/-- Once a token is taken, each reader may call each other one. -/
theorem room_lt_room {k k' : Reader} {c c' : Cursor} (h : c'.rest.length < c.rest.length) :
    k'.room c' < k.room c := by
  have hlt := k'.room_lt c'
  simp only [room] at hlt ⊢
  omega

/-- `F` reads as the readers do wherever they have less room than `n`. -/
def Agrees (F : Table) (n : Nat) : Prop :=
  ∀ k c, room k c < n → F k c = k.read c

end Reader

/-- Sequencing without the check, where it never fails. -/
theorem Reading.andThen_eq_advance {α β : Type} {r r' : Reading α} {c : Cursor}
    {f : α → Cursor → Reading β}
    {g : α → (c' : Cursor) → c'.rest.length < c.rest.length → Reading β}
    (hr : r = r') (hlt : ∀ a c', r' = .done a c' → c'.rest.length < c.rest.length)
    (hfg : ∀ a c' h, r' = .done a c' → f a c' = g a c' h) : r.andThen f = r'.advance c g := by
  subst hr
  cases r with
  | done a c' =>
    rw [advance_done a c c' (hlt a c' rfl), andThen_done]
    exact hfg a c' _ rfl
  | failed e c' => rfl

namespace Reader

section
variable {F : Table} {c : Cursor}

theorem once_expr (hF : Agrees F (room expr c)) : once F expr c = Expr.read c := by
  have key : ((F signed c).andThen fun left c' => F (operators left .any) c') =
      (Expr.readSigned c).advance c fun left c' _ => Expr.climb left .any c' := by
    refine Reading.andThen_eq_advance (hF signed c (by simp only [room]; omega))
      (fun _ _ => Expr.readSigned_lt) fun left c' h _ => ?_
    exact hF (operators left .any) c' (room_lt_room h)
  rw [Expr.read, ← key]
  rfl

theorem once_signed (hF : Agrees F (room signed c)) : once F signed c = Expr.readSigned c := by
  rw [Expr.readSigned, once, hF unary c (by simp only [room]; omega),
    hF primary c (by simp only [room]; omega)]
  rfl

theorem once_unary (hF : Agrees F (room unary c)) : once F unary c = Expr.readUnary c := by
  rw [Expr.readUnary]
  refine Reading.andThen_eq_advance rfl
    (fun _ _ h => UnaryOp.read_lt (Reading.restore_eq_done.mp h)) fun op c₁ h₁ _ => ?_
  refine Reading.andThen_eq_advance (hF signed c₁ (room_lt_room h₁))
    (fun _ _ => Expr.readSigned_lt) fun operand c₂ h₂ _ => ?_
  rw [hF (operators operand .sign) c₂ (room_lt_room (h₂.trans h₁))]
  rfl

theorem once_primary (hF : Agrees F (room primary c)) :
    once F primary c = Expr.readPrimary c := by
  rw [Expr.readPrimary, once, hF group c (by simp only [room]; omega),
    hF call c (by simp only [room]; omega)]
  rfl

theorem once_group (hF : Agrees F (room group c)) : once F group c = Expr.readGroup c := by
  rw [Expr.readGroup]
  refine Reading.andThen_eq_advance rfl (fun _ _ => Opening.readFilled_lt) fun o c₁ h₁ _ => ?_
  rw [hF expr c₁ (room_lt_room h₁)]
  rfl

theorem once_call (hF : Agrees F (room call c)) : once F call c = Expr.readCall c := by
  rw [Expr.readCall]
  refine Reading.andThen_eq_advance rfl (fun _ _ => Ident.read_lt) fun callee c₁ h₁ _ => ?_
  refine Reading.andThen_eq_advance rfl (fun _ _ => Opening.readFilled_lt) fun o c₂ h₂ _ => ?_
  refine Reading.andThen_eq_advance
    (congrArg (Reading.restore c₂) (hF expr c₂ (room_lt_room (h₂.trans h₁))))
    (fun _ _ h => Expr.read_lt (Reading.restore_eq_done.mp h)) fun arg c₃ h₃ _ => ?_
  rw [hF (arguments o) c₃ (room_lt_room (h₃.trans (h₂.trans h₁)))]
  rfl

theorem once_arguments {o : Opening} (hF : Agrees F (room (arguments o) c)) :
    once F (arguments o) c = Expr.readArgs o c := by
  rw [Expr.readArgs, once]
  cases o.delimiter with
  | brace => rfl
  | paren =>
    cases hcomma : readKind .comma c with
    | failed e c' => rfl
    | done t c₁ =>
      have h₁ := readKind_lt hcomma
      dsimp only
      rw [Reading.advance_done _ _ _ h₁]
      refine Reading.andThen_eq_advance
        (congrArg (Reading.restore c₁) (hF expr c₁ (room_lt_room h₁)))
        (fun _ _ h => Expr.read_lt (Reading.restore_eq_done.mp h)) fun arg c₂ h₂ _ => ?_
      rw [hF (arguments o) c₂ (room_lt_room (h₂.trans h₁))]
      rfl

theorem once_operators {left : Expr} {p : Precedence} (hF : Agrees F (room (operators left p) c)) :
    once F (operators left p) c = Expr.climb left p c := by
  rw [Expr.climb, once]
  cases BinaryOp.peek? c with
  | none => rfl
  | some op =>
    have hle := op.skip_length_le c
    by_cases hp : op.precedence.rank < p.rank
    · simp only [hp, if_true]
    · simp only [hp, if_false]
      refine Reading.andThen_eq_advance (hF signed (op.skip c) (by simp only [room]; omega))
        (fun _ _ h => (Expr.readSigned_lt h).trans_le hle) fun first c₁ h₁ _ => ?_
      refine Reading.andThen_eq_advance (hF (tighter op first) c₁ (room_lt_room h₁))
        (fun _ _ h => (Expr.climbRight_le h).trans_lt h₁) fun right c₂ h₂ _ => ?_
      exact hF (operators (Expr.join op left right) p) c₂ (room_lt_room h₂)

theorem once_tighter {op : BinaryOp} {right : Expr} (hF : Agrees F (room (tighter op right) c)) :
    once F (tighter op right) c = Expr.climbRight op right c := by
  rw [Expr.climbRight, once]
  cases hop : BinaryOp.peek? c with
  | none => rfl
  | some next =>
    by_cases hy : op.yieldsTo next
    · simp only [hy, if_true]
      refine Reading.andThen_eq_advance
        (hF (operators right next.precedence) c (by simp only [room]; omega))
        (fun _ _ => Expr.climb_lt hop (lt_irrefl _)) fun e c' h _ => ?_
      exact hF (tighter op e) c' (room_lt_room h)
    · simp only [hy]
      rfl

/-- One level on readers that are right where there is less room is right where there is this. -/
theorem once_eq_read (k : Reader) (hF : Agrees F (k.room c)) : once F k c = k.read c := by
  cases k with
  | expr => exact once_expr hF
  | signed => exact once_signed hF
  | unary => exact once_unary hF
  | primary => exact once_primary hF
  | group => exact once_group hF
  | call => exact once_call hF
  | arguments o => exact once_arguments hF
  | operators left p => exact once_operators hF
  | tighter op right => exact once_tighter hF

end

/-- Whatever stands at the bottom, `n` levels are enough wherever there is less room than `n`. -/
theorem agrees_iterate (F : Table) (n : Nat) : Agrees (once^[n] F) n := by
  induction n with
  | zero =>
    intro k c h
    omega
  | succ n ih =>
    intro k c h
    rw [Function.iterate_succ_apply']
    exact once_eq_read k fun k' c' h' => ih k' c' (by omega)

/-- One level goes forward if the readers that it calls do. -/
theorem once_goesOn {F : Table} (hF : ∀ k c, (F k c).GoesOn c) (k : Reader) (c : Cursor) :
    (once F k c).GoesOn c := by
  cases k with
  | expr =>
    have key : ((F signed c).andThen fun left c' => F (operators left .any) c').GoesOn c :=
      (hF signed c).andThen fun left c' => hF (operators left .any) c'
    rw [once]
    split
    · split
      · exact .refl c
      · exact key
    · exact key
  | signed =>
    rw [once]
    split
    · exact hF unary c
    · exact hF primary c
  | unary =>
    refine (UnaryOp.read_goesOn c).restore.andThen fun op c₁ => ?_
    refine (hF signed c₁).andThen fun operand c₂ => ?_
    exact (hF (operators operand .sign) c₂).map _
  | primary =>
    rw [once]
    split
    · exact .refl c
    · split
      · exact (hF group c).restore
      · split
        · split
          · exact (hF call c).restore
          · exact (Expr.readLiteral_goesOn c).restore
        · exact .refl c
  | group =>
    refine (Opening.readFilled_goesOn c).andThen fun o c₁ => ?_
    refine (hF expr c₁).restore.andThen fun inner c₂ => ?_
    exact (o.readClose_goesOn c₂ _).map _
  | call =>
    refine (Ident.read_goesOn c).andThen fun callee c₁ => ?_
    refine (Opening.readFilled_goesOn c₁).andThen fun o c₂ => ?_
    refine (hF expr c₂).restore.andThen fun arg c₃ => ?_
    exact (hF (arguments o) c₃).map _
  | arguments o =>
    rw [once]
    split
    · exact (o.readClose_goesOn c _).map _
    · split
      · exact (o.readClose_goesOn c _).map _
      · next t c₁ hcomma =>
        have hreach : c.Reaches c₁ := by
          have h := readKind_goesOn c .comma
          rwa [hcomma] at h
        refine hreach.trans ((hF expr c₁).restore.andThen fun arg c₂ => ?_)
        exact (hF (arguments o) c₂).map _
  | operators left p =>
    rw [once]
    split
    · exact .refl c
    · next op _ =>
      split
      · exact .refl c
      · refine (op.reaches_skip c).trans ((hF signed (op.skip c)).andThen fun right c₁ => ?_)
        refine (hF (tighter op right) c₁).andThen fun right c₂ => ?_
        exact hF (operators (Expr.join op left right) p) c₂
  | tighter op right =>
    rw [once]
    split
    · exact .refl c
    · next next _ =>
      split
      · refine (hF (operators right next.precedence) c).andThen fun right c' => ?_
        exact hF (tighter op right) c'
      · exact .refl c

/-- No reader goes back or leaves the text. -/
theorem read_goesOn (k : Reader) (c : Cursor) : (k.read c).GoesOn c := by
  -- a table that fails where it stands goes nowhere, and each level keeps what it calls going on
  have hiterate : ∀ n k c, ((once^[n] fun _ c => .failed default c) k c).GoesOn c := by
    intro n
    induction n with
    | zero =>
      intro k c
      exact .refl c
    | succ n ih =>
      rw [Function.iterate_succ_apply']
      exact once_goesOn ih
  rw [← agrees_iterate _ _ k c (Nat.lt_succ_self _)]
  exact hiterate _ k c

end Reader

theorem Cursor.Advances.length_lt {c c' : Cursor} (h : c.Advances c') :
    c'.rest.length < c.rest.length := by
  obtain ⟨ts, hne, passed, hrest, -, rfl, -⟩ := h
  have hpassed : passed ≠ [] := by
    rintro rfl
    exact hne rfl
  rw [hrest, List.length_append]
  exact Nat.lt_add_of_pos_left (List.length_pos_iff.mpr hpassed)

namespace Reading

open Relation (ReflTransGen)

variable {α : Type}

/-- A completed round of the loop that goes on as `round?` says, and ends where it says nothing. -/
def Rounds (round? : α → Cursor → Option (Reading α)) (s s' : α × Cursor) : Prop :=
  round? s.1 s.2 = some (.done s'.1 s'.2)

/-- A loop whose rounds go forward gives what is there after its last round. -/
theorem loop_eq_done {round? : α → Cursor → Option (Reading α)} {loop : α → Cursor → Reading α}
    (hloop : ∀ a c, loop a c = (round? a c).elim (.done a c) fun r => r.andThen loop)
    (hlt : ∀ a c b d, round? a c = some (.done b d) → d.rest.length < c.rest.length)
    {a b : α} {c d : Cursor} :
    loop a c = .done b d ↔ ReflTransGen (Rounds round?) (a, c) (b, d) ∧ round? b d = none := by
  constructor
  · intro h
    -- on the tokens that are left, since each round leaves fewer
    induction hn : c.rest.length using Nat.strong_induction_on generalizing a c with
    | _ n ih =>
      rw [hloop] at h
      cases hround : round? a c with
      | none =>
        rw [hround] at h
        cases h
        exact ⟨.refl, hround⟩
      | some r =>
        rw [hround, Option.elim_some] at h
        obtain ⟨a', c', rfl, h⟩ := andThen_eq_done.mp h
        obtain ⟨hrounds, hend⟩ := ih _ (hn ▸ hlt a c a' c' hround) h rfl
        have hfirst : Rounds round? (a, c) (a', c') := hround
        exact ⟨.head hfirst hrounds, hend⟩
  · rintro ⟨hrounds, hend⟩
    have hall : ∀ s, ReflTransGen (Rounds round?) s (b, d) → loop s.1 s.2 = .done b d := by
      intro s hs
      induction hs using ReflTransGen.head_induction_on with
      | refl => rw [hloop, hend, Option.elim_none]
      | head hround _ ih =>
        rw [hloop, hround, Option.elim_some, andThen_done]
        exact ih
    exact hall (a, c) hrounds

end Reading

theorem BinaryOp.takes_skip {c : Cursor} {op : BinaryOp} (h : peek? c = some op) :
    ∃ ts, c.Takes ts (op.skip c) := by
  obtain ⟨t, -, -, ⟨-, ht⟩ | ⟨-, hskip⟩⟩ := peek?_eq_some h
  · exact ⟨[t], ht⟩
  · exact ⟨[], by rw [hskip]; exact .refl c⟩

namespace Expr

open Relation (ReflTransGen)

/-- The round of the loop over the operators from `p` on: an operator, the operand after it and
what that operand takes first. There is none where the operator is too loose. -/
def round? (p : Precedence) (left : Expr) (c : Cursor) : Option (Reading Expr) :=
  (BinaryOp.peek? c).bind fun op =>
    if op.precedence.rank < p.rank then none
    else some <| (readSigned (op.skip c)).andThen fun first c₁ =>
      (climbRight op first c₁).map fun right => join op left right

/-- The round of the loop for the right operand of `op`: what the operand takes from the precedence
of the next operator on. There is none where `op` does not yield to that operator. -/
def rightRound? (op : BinaryOp) (right : Expr) (c : Cursor) : Option (Reading Expr) :=
  (BinaryOp.peek? c).bind fun next =>
    if op.yieldsTo next then some (climb right next.precedence c) else none

variable {left right e : Expr} {p : Precedence} {op : BinaryOp} {c c' : Cursor}

theorem round?_eq_none :
    round? p left c = none ↔ ∀ op, BinaryOp.peek? c = some op → op.precedence.rank < p.rank := by
  simp [round?, Option.bind_eq_none_iff]

theorem rightRound?_eq_none :
    rightRound? op right c = none ↔
      ∀ next, BinaryOp.peek? c = some next → op.yieldsTo next = false := by
  simp [rightRound?, Option.bind_eq_none_iff]

theorem round?_eq_done (h : round? p left c = some (.done e c')) :
    ∃ op first right c₁, BinaryOp.peek? c = some op ∧ readSigned (op.skip c) = .done first c₁ ∧
      climbRight op first c₁ = .done right c' ∧ e = join op left right := by
  obtain ⟨op, hop, h⟩ := Option.bind_eq_some_iff.mp h
  split at h
  · cases h
  · obtain ⟨first, c₁, hfirst, h⟩ := Reading.andThen_eq_done.mp (Option.some.inj h)
    obtain ⟨right, hright, rfl⟩ := Reading.map_eq_done.mp h
    exact ⟨op, first, right, c₁, hop, hfirst, hright, rfl⟩

theorem rightRound?_eq_done (h : rightRound? op right c = some (.done e c')) :
    ∃ next, BinaryOp.peek? c = some next ∧ climb right next.precedence c = .done e c' := by
  obtain ⟨next, hnext, h⟩ := Option.bind_eq_some_iff.mp h
  split at h
  · exact ⟨next, hnext, Option.some.inj h⟩
  · cases h

/-- An operand takes a token, even where the operator before it has none of its own. -/
theorem advances_of_operand (hop : BinaryOp.peek? c = some op)
    (h : readAtLeast p (op.skip c) = .done e c') : c.Advances c' := by
  obtain ⟨us, hus⟩ := BinaryOp.takes_skip hop
  exact hus.trans_advances (readAtLeast_between _ _ _ _ _ (Nat.lt_succ_self _) h).advances

theorem climb_takes (h : climb left p c = .done e c') : ∃ ts, c.Takes ts c' := by
  induction hn : c.rest.length using Nat.strong_induction_on generalizing left c with
  | _ n ih =>
    rw [climb_eq_readAtLeast] at h
    split at h
    · cases h
      exact ⟨[], .refl _⟩
    · next op hop =>
      split at h
      · cases h
        exact ⟨[], .refl _⟩
      · obtain ⟨right, c₁, hright, h⟩ := Reading.andThen_eq_done.mp h
        have hlt := (readAtLeast_lt hright).trans_le (op.skip_length_le c)
        obtain ⟨us, -, hus⟩ := advances_of_operand hop hright
        obtain ⟨vs, hvs⟩ := ih _ (hn ▸ hlt) h rfl
        exact ⟨us ++ vs, hus.trans hvs⟩

theorem advances_of_round? (h : round? p left c = some (.done e c')) : c.Advances c' := by
  obtain ⟨op, first, right, c₁, hop, hfirst, hright, -⟩ := round?_eq_done h
  rw [climbRight_eq_climb] at hright
  exact advances_of_operand hop (Reading.andThen_eq_done.mpr ⟨first, c₁, hfirst, hright⟩)

theorem advances_of_rightRound? (h : rightRound? op right c = some (.done e c')) :
    c.Advances c' := by
  obtain ⟨next, hnext, h⟩ := rightRound?_eq_done h
  rw [climb_eq_readAtLeast, hnext] at h
  -- the next operator binds as tightly as it does itself, and so it is taken
  simp only [lt_irrefl, if_false] at h
  obtain ⟨operand, c₁, hoperand, h⟩ := Reading.andThen_eq_done.mp h
  obtain ⟨ts, hts⟩ := climb_takes h
  exact (advances_of_operand hnext hoperand).trans_takes hts

theorem climb_eq_round? (left : Expr) (c : Cursor) :
    climb left p c = (round? p left c).elim (.done left c) fun r =>
      r.andThen fun left c' => climb left p c' := by
  rw [climb_eq, round?]
  cases BinaryOp.peek? c with
  | none => rfl
  | some op =>
    by_cases hp : op.precedence.rank < p.rank
    · simp [hp]
    · simp [hp, Reading.andThen_assoc, Reading.map]

theorem climbRight_eq_rightRound? (right : Expr) (c : Cursor) :
    climbRight op right c = (rightRound? op right c).elim (.done right c) fun r =>
      r.andThen fun right c' => climbRight op right c' := by
  rw [climbRight_eq, rightRound?]
  cases BinaryOp.peek? c with
  | none => rfl
  | some next => by_cases hy : op.yieldsTo next <;> simp [hy]

/-- The loop over the operators goes round by round until the next operator is too loose. -/
theorem climb_eq_done : climb left p c = .done e c' ↔
    ReflTransGen (Reading.Rounds (round? p)) (left, c) (e, c') ∧
      ∀ op, BinaryOp.peek? c' = some op → op.precedence.rank < p.rank := by
  have hlt : ∀ a c b d, round? p a c = some (.done b d) → d.rest.length < c.rest.length :=
    fun _ _ _ _ h => (advances_of_round? h).length_lt
  rw [Reading.loop_eq_done climb_eq_round? hlt, round?_eq_none]

/-- The loop for a right operand goes round by round until the operand keeps what it has. -/
theorem climbRight_eq_done : climbRight op right c = .done e c' ↔
    ReflTransGen (Reading.Rounds (rightRound? op)) (right, c) (e, c') ∧
      ∀ next, BinaryOp.peek? c' = some next → op.yieldsTo next = false := by
  have hlt : ∀ a c b d, rightRound? op a c = some (.done b d) → d.rest.length < c.rest.length :=
    fun _ _ _ _ h => (advances_of_rightRound? h).length_lt
  rw [Reading.loop_eq_done climbRight_eq_rightRound? hlt, rightRound?_eq_none]

end Expr

theorem Reading.exists_eq_done {α : Type} {r : Reading α} (h : r.result.isOk = true) :
    ∃ a c, r = .done a c := by
  cases r with
  | done a c => exact ⟨a, c, rfl⟩
  | failed e c => cases h

open Relation (ReflTransGen)

/-- Reading at any cursor ends, and it goes forward. The readers do what their bodies say without
any check that the cursor has moved, and as many levels of calls as the tokens to come allow for
are enough, whatever is called below them. With success or not, reading stops in the same tokens and
not before the cursor. What is read takes a token, and so does each round of both loops over the
operators; each loop is made of such rounds, and the operator that comes next after it is too loose
for it. -/
theorem Reader.progresses (c : Cursor) :
    (∀ k : Reader, once read k c = k.read c) ∧
    (∀ (F : Table) (n : Nat), 8 * (c.rest.length + 1) ≤ n →
      ∀ k : Reader, (once^[n] F) k c = k.read c) ∧
    (∀ k : Reader, c.Reaches (k.read c).cursor) ∧
    (∀ (k : NodeKind) (e : Expr) (c' : Cursor), k.read c = .done e c' → c.Advances c') ∧
    (∀ (p : Precedence) (left e : Expr) (c' : Cursor),
      (Expr.round? p left c = some (.done e c') → c.Advances c') ∧
      (Expr.climb left p c = .done e c' ↔
        ReflTransGen (Reading.Rounds (Expr.round? p)) (left, c) (e, c') ∧
          ∀ op, BinaryOp.peek? c' = some op → op.precedence.rank < p.rank)) ∧
    (∀ (op : BinaryOp) (right e : Expr) (c' : Cursor),
      (Expr.rightRound? op right c = some (.done e c') → c.Advances c') ∧
      (Expr.climbRight op right c = .done e c' ↔
        ReflTransGen (Reading.Rounds (Expr.rightRound? op)) (right, c) (e, c') ∧
          ∀ next, BinaryOp.peek? c' = some next → op.yieldsTo next = false)) := by
  refine ⟨fun k => ?_, fun F n hn k => ?_, fun k => ?_, fun k e c' h => ?_,
    fun p left e c' => ⟨?_, ?_⟩, fun op right e c' => ⟨?_, ?_⟩⟩
  · exact once_eq_read k fun _ _ _ => rfl
  · exact agrees_iterate F n k c ((room_lt k c).trans_le hn)
  · exact read_goesOn k c
  · exact (NodeKind.between h).advances
  · exact Expr.advances_of_round?
  · exact Expr.climb_eq_done
  · exact Expr.advances_of_rightRound?
  · exact Expr.climbRight_eq_done

/-- After an operand, `x^2)` is the right side of a product without a sign. One round of either loop
takes it, the power included, and stops at the parenthesis. -/
theorem Reader.progresses_product :
    8 * ((Cursor.start (tokens "x^2)")).rest.length + 1) ≤ 40 ∧
    (once^[40] fun _ c => .failed default c) expr (.start (tokens "x^2)")) =
      Expr.read (.start (tokens "x^2)")) ∧
    (∃ e c', Expr.read (.start (tokens "x^2)")) = .done e c' ∧
      (Cursor.start (tokens "x^2)")).Advances c') ∧
    (∃ e c', Expr.round? .factor default (.start (tokens "x^2)")) = some (.done e c') ∧
      (Cursor.start (tokens "x^2)")).Advances c') ∧
    ∃ e c', Expr.rightRound? ⟨.add, false, default⟩ default (.start (tokens "x^2)")) =
      some (.done e c') ∧ (Cursor.start (tokens "x^2)")).Advances c' := by
  have hroom : 8 * ((Cursor.start (tokens "x^2)")).rest.length + 1) ≤ 40 := by decide +kernel
  have hread : (Expr.read (.start (tokens "x^2)"))).result.isOk = true := by decide +kernel
  have hround : (Expr.round? .factor default (.start (tokens "x^2)"))).any (·.result.isOk) := by
    decide +kernel
  have hright : (Expr.rightRound? ⟨.add, false, default⟩ default
      (.start (tokens "x^2)"))).any (·.result.isOk) := by
    decide +kernel
  obtain ⟨-, hends, -, htakes, hrounds, hrights⟩ := progresses (.start (tokens "x^2)"))
  obtain ⟨e, c', hdone⟩ := Reading.exists_eq_done hread
  obtain ⟨r, hr, hok⟩ := (Option.any_eq_true _ _).mp hround
  obtain ⟨joined, d, rfl⟩ := Reading.exists_eq_done hok
  obtain ⟨r', hr', hok'⟩ := (Option.any_eq_true _ _).mp hright
  obtain ⟨right, d', rfl⟩ := Reading.exists_eq_done hok'
  exact ⟨hroom, hends _ 40 hroom expr, ⟨e, c', hdone, htakes .expr e c' hdone⟩,
    ⟨joined, d, hr, (hrounds _ _ _ _).1 hr⟩, ⟨right, d', hr', (hrights _ _ _ _).1 hr'⟩⟩

end CurveGuess
