import CurveGuess.Proofs.Grammar.Spans
import CurveGuess.Proofs.Lexing.Longest

/-!
# Where faults are shown

However broken a text is, the place of its fault is a place in it: from the start of one token to
the end of another, or the very end. The readers lose no token on their way. Those before a cursor
and those after it are all tokens of the text, and each place is made of some of them.
-/
namespace CurveGuess

/-- The place is inside the text. It starts and ends with tokens, or it is the end of the text. -/
structure Span.IsWithin (s : Span) (source : String) : Prop where
  start_le_stop : s.start ≤ s.stop
  stop_le : s.stop ≤ source.utf8ByteSize
  edges : (∃ t ∈ tokens source, ∃ u ∈ tokens source, s.start = t.start ∧ s.stop = u.stop) ∨
    s = .point source.utf8ByteSize

/-- The place is the extent of some of the tokens, or where the last one ends. -/
def Span.LiesIn (s : Span) (ts : List Token) : Prop :=
  (∃ own : List Token, own.Sublist ts ∧ own ≠ [] ∧ s = extent own) ∨
    s = .point (ts.getLast?.elim 0 Token.stop)

theorem Token.start_le_stop (t : Token) : t.start ≤ t.stop := Nat.le_add_right _ _

namespace Lexer

/-- A later token starts where an earlier one has ended. -/
theorem pairwise_tokensFrom (n : Nat) (cs : List Char) :
    (tokensFrom n cs).Pairwise fun t u => t.stop ≤ u.start := by
  have htrans : ∀ t u v : Token, t.stop ≤ u.start → u.stop ≤ v.start → t.stop ≤ v.start := by
    intro t u v htu huv
    exact htu.trans (u.start_le_stop.trans huv)
  have : Trans (fun t u : Token => t.stop ≤ u.start) (fun t u : Token => t.stop ≤ u.start)
    (fun t u : Token => t.stop ≤ u.start) := ⟨fun {t u v} => htrans t u v⟩
  exact ((contiguous_tokensFrom n cs).imp fun _ _ h => Nat.le_of_eq h).pairwise

end Lexer

section
variable {ts own : List Token}

theorem start_le_stop_extent (h : own.Pairwise fun t u => t.stop ≤ u.start) :
    (extent own).start ≤ (extent own).stop := by
  cases own with
  | nil => exact Nat.le_refl 0
  | cons t ts =>
    rw [List.pairwise_cons] at h
    simp only [extent, List.head?_cons, Option.elim_some, List.getLast?_cons]
    cases hlast : ts.getLast? with
    | none => exact t.start_le_stop
    | some u =>
      have hle := h.1 u (List.mem_of_getLast? hlast)
      exact t.start_le_stop.trans (hle.trans u.start_le_stop)

theorem stop_le_of_mem (h : ts.Pairwise fun t u => t.stop ≤ u.start) {t : Token} (ht : t ∈ ts) :
    t.stop ≤ ts.getLast?.elim 0 Token.stop := by
  obtain ⟨before, after, rfl⟩ := List.append_of_mem ht
  rw [List.getLast?_append, List.getLast?_cons]
  cases hlast : after.getLast? with
  | none => exact Nat.le_refl _
  | some u =>
    have hle := (List.pairwise_cons.mp (List.pairwise_append.mp h).2.1).1 u
      (List.mem_of_getLast? hlast)
    exact hle.trans u.start_le_stop

end

namespace Span.LiesIn

variable {s : Span} {t : Token} {ts own : List Token}

theorem of_sublist (h : own.Sublist ts) (hne : own ≠ []) : (extent own).LiesIn ts :=
  .inl ⟨own, h, hne, rfl⟩

theorem of_mem (h : t ∈ ts) : t.span.LiesIn ts :=
  of_sublist (List.singleton_sublist.mpr h) (List.cons_ne_nil t [])

theorem isWithin {source : String} (h : s.LiesIn (tokens source)) : s.IsWithin source := by
  have hpairwise := Lexer.pairwise_tokensFrom 0 source.toList
  have hend : (tokens source).getLast?.elim 0 Token.stop = source.utf8ByteSize := by
    rw [tokens, Lexer.stop_tokensFrom, String.ofList_toList, Nat.zero_add]
  rcases h with ⟨own, hown, hne, rfl⟩ | rfl
  · have hfirst := own.head_mem hne
    have hlast := own.getLast_mem hne
    have hstart : (extent own).start = (own.head hne).start := by
      rw [extent, List.head?_eq_some_head hne, Option.elim_some]
    have hstop : (extent own).stop = (own.getLast hne).stop := by
      rw [extent, List.getLast?_eq_some_getLast hne, Option.elim_some]
    constructor
    case start_le_stop => exact start_le_stop_extent (hpairwise.sublist hown)
    case stop_le =>
      rw [hstop, ← hend]
      exact stop_le_of_mem hpairwise (hown.mem hlast)
    case edges =>
      exact .inl ⟨_, hown.mem hfirst, _, hown.mem hlast, hstart, hstop⟩
  · rw [hend]
    exact ⟨Nat.le_refl _, Nat.le_refl _, .inr rfl⟩

end Span.LiesIn

namespace Cursor

/-- The tokens on both sides of the cursor are the given ones. -/
def IsIn (c : Cursor) (ts : List Token) : Prop := c.before.reverse ++ c.rest = ts

variable {c c' : Cursor} {t : Token} {ts : List Token}

theorem isIn_start (ts : List Token) : (start ts).IsIn ts := rfl

theorem IsIn.takeFrom {before rest : List Token} (h : (Cursor.mk before rest).IsIn ts) :
    (Cursor.takeFrom before rest).2.IsIn ts := by
  induction rest generalizing before with
  | nil => exact h
  | cons t rest ih =>
    have hnext : (Cursor.mk (t :: before) rest).IsIn ts := by
      rw [← h, IsIn, List.reverse_cons, List.append_assoc]
      rfl
    rw [Cursor.takeFrom]
    split
    · exact ih hnext
    · exact hnext

theorem IsIn.next (h : c.IsIn ts) : c.next.2.IsIn ts := takeFrom h

theorem IsIn.finish_eq (h : c.IsIn ts) : c.finish = ts.getLast?.elim 0 Token.stop := by
  rw [finish, ← h, List.getLast?_append, List.getLast?_reverse]

/-- The token at the cursor, or the end of the text. -/
theorem IsIn.span (h : c.IsIn ts) : c.span.LiesIn ts := by
  cases hrest : c.rest with
  | nil =>
    right
    rw [Cursor.span, hrest, List.head?_nil, Option.elim_none, h.finish_eq]
  | cons t rest =>
    rw [Cursor.span, hrest, List.head?_cons, Option.elim_some]
    refine .of_mem ?_
    rw [← h, hrest]
    simp

theorem IsIn.mem_of_rest (h : c.IsIn ts) (ht : t ∈ c.rest) : t ∈ ts :=
  h ▸ List.mem_append_right _ ht

theorem IsIn.mem_of_peek? (h : c.IsIn ts) (ht : c.peek? = some t) : t ∈ ts :=
  h.mem_of_rest (List.mem_of_find?_eq_some ht)

end Cursor

/-- Reading stops among the tokens, or at a fault that has its place among them. -/
inductive Reading.StaysIn {α : Type} (ts : List Token) : Reading α → Prop where
  | done {a c} : c.IsIn ts → StaysIn ts (.done a c)
  | failed {f c} : f.span.LiesIn ts → StaysIn ts (.failed f c)

namespace Reading.StaysIn

variable {α β : Type} {ts : List Token} {r : Reading α} {c : Cursor}

theorem andThen (h : r.StaysIn ts) {k : α → Cursor → Reading β}
    (hk : ∀ a c', r = .done a c' → c'.IsIn ts → (k a c').StaysIn ts) :
    (r.andThen k).StaysIn ts := by
  cases h with
  | done hc => exact hk _ _ rfl hc
  | failed hf => exact .failed hf

theorem map (h : r.StaysIn ts) (m : α → β) : (r.map m).StaysIn ts :=
  h.andThen fun _ _ _ hc => .done hc

theorem restore (h : r.StaysIn ts) (c : Cursor) : (r.restore c).StaysIn ts := by
  cases h with
  | done hc => exact .done hc
  | failed hf => exact .failed hf

theorem orElse {r' : Reading α} (h : r.StaysIn ts) (h' : r'.StaysIn ts) :
    (r.orElse r').StaysIn ts := by
  cases h with
  | done hc => exact .done hc
  | failed _ => exact h'

theorem advance (h : r.StaysIn ts)
    {k : α → (d : Cursor) → d.rest.length < c.rest.length → Reading β}
    (hk : ∀ a d hlt, r = .done a d → d.IsIn ts → (k a d hlt).StaysIn ts) :
    (r.advance c k).StaysIn ts := by
  cases h with
  | done hc =>
    rw [Reading.advance]
    split
    · exact hk _ _ _ rfl hc
    · exact .failed hc.span
  | failed hf => exact .failed hf

end Reading.StaysIn

open Reading (StaysIn)

section
variable {c c' : Cursor} {t : Token} {ts : List Token}

theorem mem_of_readToken (hc : c.IsIn ts) (h : readToken c = .done t c') : t ∈ ts := by
  have hahead : t ∈ c.ahead := (ahead_of_readToken h).1 ▸ List.mem_cons_self
  exact hc.mem_of_rest (List.mem_filter.mp hahead).1

theorem unexpected_staysIn {α : Type} (ht : t ∈ ts) (ks : List Kind) :
    (.failed (unexpected ks t) c : Reading α).StaysIn ts :=
  .failed (.of_mem ht)

theorem readToken_staysIn (hc : c.IsIn ts) : (readToken c).StaysIn ts := by
  have hnext := hc.next
  rw [readToken]
  split
  · next h =>
    rw [h] at hnext
    exact .done hnext
  · next h =>
    rw [h] at hnext
    exact .failed hnext.span

/-- What comes of a token stays among the tokens if this is so wherever the token came from. -/
theorem readToken_andThen_staysIn {β : Type} (hc : c.IsIn ts) {k : Token → Cursor → Reading β}
    (hk : ∀ t c', t ∈ ts → c'.IsIn ts → (k t c').StaysIn ts) :
    ((readToken c).andThen k).StaysIn ts :=
  (readToken_staysIn hc).andThen fun t c' h hc' => hk t c' (mem_of_readToken hc h) hc'

theorem readKind_staysIn (hc : c.IsIn ts) (k : Kind) : (readKind k c).StaysIn ts := by
  refine .restore (readToken_andThen_staysIn hc fun t c' ht hc' => ?_) c
  split
  · exact .done hc'
  · exact unexpected_staysIn ht _

theorem UnaryOp.read_staysIn (hc : c.IsIn ts) : (UnaryOp.read c).StaysIn ts := by
  refine readToken_andThen_staysIn hc fun t c' ht hc' => ?_
  split
  · exact .done hc'
  · exact unexpected_staysIn ht _

theorem Ident.read_staysIn (hc : c.IsIn ts) : (Ident.read c).StaysIn ts :=
  .map (.orElse (readKind_staysIn hc .name) (readKind_staysIn hc .command)) _

theorem BinaryOp.skip_isIn (op : BinaryOp) (hc : c.IsIn ts) : (op.skip c).IsIn ts := by
  rw [skip]
  split
  · exact hc
  · exact hc.next

theorem Expr.readLiteral_staysIn (hc : c.IsIn ts) : (Expr.readLiteral c).StaysIn ts :=
  .orElse (.map (.orElse (readKind_staysIn hc .int) (readKind_staysIn hc .float)) _)
    ((Ident.read_staysIn hc).map _)

namespace Opening

theorem read_staysIn (hc : c.IsIn ts) : (Opening.read c).StaysIn ts := by
  refine readToken_andThen_staysIn hc fun t c' ht hc' => ?_
  split
  · exact .done hc'
  · exact unexpected_staysIn ht _

/-- An empty group is shown from its opening token to its closing one, which comes later. -/
theorem readFilled_staysIn (hc : c.IsIn ts) : (readFilled c).StaysIn ts := by
  refine (read_staysIn hc).andThen fun o c' ho hc' => ?_
  split
  · next u hu =>
    split
    · obtain ⟨t, ht, -, hspan⟩ := read_eq_done.mp ho
      obtain ⟨passed, -, hbefore, -, hlast⟩ := Cursor.Takes.of_readToken ht
      have hmem : t ∈ c'.before.reverse := by
        rw [List.mem_reverse, hbefore]
        exact List.mem_append_left _ (List.mem_reverse.mpr (List.mem_of_getLast? hlast))
      have hown : [t, u].Sublist ts := by
        rw [← hc']
        exact (List.singleton_sublist.mpr hmem).append
          (List.singleton_sublist.mpr (List.mem_of_find?_eq_some hu))
      rw [hspan]
      exact .failed (.of_sublist hown (List.cons_ne_nil t [u]))
    · exact .done hc'
  · exact .done hc'

theorem span_of_readFilled {o : Opening} (hc : c.IsIn ts) (h : readFilled c = .done o c') :
    o.span.LiesIn ts := by
  obtain ⟨⟨t, ht, -, hspan⟩, -⟩ := readFilled_eq_done.mp h
  exact hspan ▸ .of_mem (mem_of_readToken hc ht)

theorem readClose_staysIn {o : Opening} (ho : o.span.LiesIn ts) (ks : List Kind)
    (hc : c.IsIn ts) : (o.readClose ks c).StaysIn ts := by
  rw [readClose]
  split
  · exact .failed ho
  · refine readToken_andThen_staysIn hc fun t c' ht hc' => ?_
    split
    · exact .done hc'
    · exact unexpected_staysIn ht _

end Opening

end

namespace Expr

variable {ts : List Token}

mutual

theorem read_staysIn {c : Cursor} (hc : c.IsIn ts) : (read c).StaysIn ts := by
  rw [read]
  split
  · next t ht =>
    split
    · exact .failed (.of_mem (hc.mem_of_peek? ht))
    · exact (readSigned_staysIn hc).advance fun left c' _ _ hc' => climb_staysIn left .any hc'
  · exact (readSigned_staysIn hc).advance fun left c' _ _ hc' => climb_staysIn left .any hc'
  termination_by 8 * c.rest.length + 5

theorem readSigned_staysIn {c : Cursor} (hc : c.IsIn ts) : (readSigned c).StaysIn ts := by
  rw [readSigned]
  split
  · exact readUnary_staysIn hc
  · exact readPrimary_staysIn hc
  termination_by 8 * c.rest.length + 4

theorem readUnary_staysIn {c : Cursor} (hc : c.IsIn ts) : (readUnary c).StaysIn ts := by
  rw [readUnary]
  refine ((UnaryOp.read_staysIn hc).restore c).advance fun op c₁ _ _ hc₁ => ?_
  refine (readSigned_staysIn hc₁).advance fun operand c₂ _ _ hc₂ => ?_
  exact (climb_staysIn operand .sign hc₂).map _
  termination_by 8 * c.rest.length + 3

theorem readPrimary_staysIn {c : Cursor} (hc : c.IsIn ts) : (readPrimary c).StaysIn ts := by
  rw [readPrimary]
  split
  · exact .failed hc.span
  · next t ht =>
    split
    · exact (readGroup_staysIn hc).restore c
    · split
      · split
        · exact (readCall_staysIn hc).restore c
        · exact (readLiteral_staysIn hc).restore c
      · exact unexpected_staysIn (hc.mem_of_peek? ht) _
  termination_by 8 * c.rest.length + 2

theorem readGroup_staysIn {c : Cursor} (hc : c.IsIn ts) : (readGroup c).StaysIn ts := by
  rw [readGroup]
  refine (Opening.readFilled_staysIn hc).advance fun o c₁ _ ho hc₁ => ?_
  refine ((read_staysIn hc₁).restore c₁).andThen fun inner c₂ _ hc₂ => ?_
  exact (Opening.readClose_staysIn (Opening.span_of_readFilled hc ho) _ hc₂).map _
  termination_by 8 * c.rest.length + 1

theorem readCall_staysIn {c : Cursor} (hc : c.IsIn ts) : (readCall c).StaysIn ts := by
  rw [readCall]
  refine (Ident.read_staysIn hc).advance fun callee c₁ _ _ hc₁ => ?_
  refine (Opening.readFilled_staysIn hc₁).advance fun o c₂ _ ho hc₂ => ?_
  refine ((read_staysIn hc₂).restore c₂).advance fun arg c₃ _ _ hc₃ => ?_
  exact (readArgs_staysIn (Opening.span_of_readFilled hc₁ ho) hc₃).map _
  termination_by 8 * c.rest.length + 1

theorem readArgs_staysIn {o : Opening} (ho : o.span.LiesIn ts) {c : Cursor} (hc : c.IsIn ts) :
    (readArgs o c).StaysIn ts := by
  rw [readArgs]
  split
  · exact (Opening.readClose_staysIn ho _ hc).map _
  · split
    · exact (Opening.readClose_staysIn ho _ hc).map _
    · next t c' ht =>
      have hcomma := readKind_staysIn hc .comma
      rw [ht] at hcomma
      refine hcomma.advance fun _ c₁ _ _ hc₁ => ?_
      refine ((read_staysIn hc₁).restore c₁).advance fun arg c₂ _ _ hc₂ => ?_
      exact (readArgs_staysIn ho hc₂).map _
  termination_by 8 * c.rest.length

theorem climb_staysIn (left : Expr) (p : Precedence) {c : Cursor} (hc : c.IsIn ts) :
    (climb left p c).StaysIn ts := by
  rw [climb]
  split
  · exact .done hc
  · next op _ =>
    split
    · exact .done hc
    · have hle := op.skip_length_le c
      refine (readSigned_staysIn (op.skip_isIn hc)).advance fun right c₁ _ _ hc₁ => ?_
      refine (climbRight_staysIn op right hc₁).advance fun right c₂ _ _ hc₂ => ?_
      exact climb_staysIn (join op left right) p hc₂
  termination_by 8 * c.rest.length + 6

theorem climbRight_staysIn (op : BinaryOp) (right : Expr) {c : Cursor} (hc : c.IsIn ts) :
    (climbRight op right c).StaysIn ts := by
  rw [climbRight]
  split
  · exact .done hc
  · next next _ =>
    split
    · refine (climb_staysIn right next.precedence hc).advance fun right c' _ _ hc' => ?_
      exact climbRight_staysIn op right hc'
    · exact .done hc
  termination_by 8 * c.rest.length + 7

end

end Expr

theorem readFull_staysIn (source : String) :
    (readFull Expr.read (.start (tokens source))).StaysIn (tokens source) := by
  refine (Expr.read_staysIn (Cursor.isIn_start _)).andThen fun e c _ hc => ?_
  split
  · exact .done hc
  · next t ht =>
    split
    · exact .failed (.of_mem (hc.mem_of_peek? ht))
    · -- what is left goes from the next token to the end
      obtain ⟨-, before, after, hrest, -⟩ := List.find?_eq_some_iff_append.mp ht
      have hown : (t :: after).Sublist (tokens source) := by
        rw [← hc, hrest]
        exact (List.sublist_append_right before _).trans (List.sublist_append_right _ _)
      have hspan : extent (t :: after) = ⟨t.start, c.finish⟩ := by
        rw [Cursor.finish, hrest, List.getLast?_append, List.getLast?_cons, extent,
          List.getLast?_cons]
        rfl
      rw [← hspan]
      exact .failed (.of_sublist hown (List.cons_ne_nil t after))

theorem isWithin_of_parse {source : String} {f : FormFault} (h : parse source = .error f) :
    f.span.IsWithin source := by
  have hstays := readFull_staysIn source
  rw [parse] at h
  cases hread : readFull Expr.read (.start (tokens source)) with
  | done e c =>
    rw [hread] at h
    cases h
  | failed f' c =>
    rw [hread] at h hstays
    cases h
    cases hstays with
    | failed hf => exact hf.isWithin

end CurveGuess
