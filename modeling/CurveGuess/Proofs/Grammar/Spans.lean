import CurveGuess.Expr.Traversal
import CurveGuess.Proofs.Grammar.Soundness

/-!
# Where expressions stand

A reader takes the tokens that its expression is written with, all of them and no others, and stops
right behind the last one. Every node remembers the region from the start of its first token to the
end of its last one. The loop over the operators keeps both: what was read so far has been taken
from one place on, and the right operand of the next operator follows it.
-/
namespace CurveGuess

/-- From the start of the first token to the end of the last one. -/
def extent (ts : List Token) : Span :=
  ⟨ts.head?.elim 0 Token.start, ts.getLast?.elim 0 Token.stop⟩

section
variable {t : Token} {ts us : List Token}

theorem start_extent_append (h : ts ≠ []) (us : List Token) :
    (extent (ts ++ us)).start = (extent ts).start := by
  cases ts with
  | nil => exact absurd rfl h
  | cons t ts => rfl

theorem stop_extent_append (ts : List Token) (h : us ≠ []) :
    (extent (ts ++ us)).stop = (extent us).stop := by
  simp only [extent, List.getLast?_append, List.getLast?_eq_some_getLast h, Option.some_or]

/-- The extents of the first and of the last of some tokens make up that of all. -/
theorem extent_through (hts : ts ≠ []) (ms : List Token) (hus : us ≠ []) :
    (extent ts).through (extent us) = extent (ts ++ (ms ++ us)) := by
  rw [Span.through, ← start_extent_append hts (ms ++ us), ← stop_extent_append (ts ++ ms) hus,
    List.append_assoc]

theorem span_through_extent (t : Token) (h : us ≠ []) :
    t.span.through (extent us) = extent (t :: us) :=
  extent_through (List.cons_ne_nil t []) [] h

theorem span_through_span (t : Token) (ms : List Token) (u : Token) :
    t.span.through u.span = extent (t :: (ms ++ [u])) :=
  extent_through (List.cons_ne_nil t []) ms (List.cons_ne_nil u [])

end

/-- `Written es ts`: the tokens `ts` write the expressions `es`, with a comma between any two of
them. Nothing is written for an implicit product, whose operator stands where its right operand
begins. Each node has the extent of its own tokens. -/
inductive Written : List Expr → List Token → Prop
  | number {t} : t.kind.isNumber = true → Written [.number (.ofText t.lexeme) t.span] [t]
  | symbol {t} : t.kind = .name ∨ t.kind = .command → Written [.symbol ⟨t.bareName, t.span⟩] [t]
  | group {t u d e ts} : t.kind = d.openKind → Written [e] ts → u.kind = d.closeKind →
      Written [.group d e (extent (t :: (ts ++ [u])))] (t :: (ts ++ [u]))
  | call {s t u d es ts} : s.kind = .name ∨ s.kind = .command → t.kind = d.openKind →
      Written es ts → u.kind = d.closeKind →
      Written [.call ⟨s.bareName, s.span⟩ (s.kind = .command) d es
        (extent (s :: t :: (ts ++ [u])))] (s :: t :: (ts ++ [u]))
  | sign {t k e ts} : signKind? t.kind = some k → Written [e] ts →
      Written [.unary ⟨k, t.span⟩ e (extent (t :: ts))] (t :: ts)
  | operator {t k a b ts us} : t.kind.operator? = some (k, false) → Written [a] ts →
      Written [b] us →
      Written [.binary ⟨k, false, t.span⟩ a b (extent (ts ++ t :: us))] (ts ++ t :: us)
  | juxtapose {a b ts us} : Written [a] ts → Written [b] us →
      Written [.binary ⟨.mul, true, .point (extent us).start⟩ a b (extent (ts ++ us))] (ts ++ us)
  | arguments {t e es ts us} : Written [e] ts → t.kind = .comma → Written es us →
      Written (e :: es) (ts ++ t :: us)

namespace Written

variable {e : Expr} {es : List Expr} {ts : List Token}

theorem ne_nil (h : Written es ts) : ts ≠ [] := by
  induction h with
  | juxtapose _ _ ih _ => simp [ih]
  | _ => simp

theorem start_eq (h : Written es ts) {t : Token} {us : List Token}
    (ht : (ts ++ us).head? = some t) : (extent ts).start = t.start := by
  rw [← start_extent_append h.ne_nil us, extent, ht]
  rfl

/-- A node has the extent of its tokens. -/
theorem span_eq (h : Written [e] ts) : e.span = extent ts := by
  cases h with
  | arguments _ _ h => exact absurd h (by rintro ⟨⟩)
  | _ => rfl

theorem exists_of_mem (h : Written es ts) (he : e ∈ es) :
    ∃ own, own <:+: ts ∧ Written [e] own := by
  induction h with
  | @arguments t a es ts us h₁ _ _ _ ih =>
    rcases List.mem_cons.mp he with rfl | he
    · exact ⟨ts, ⟨[], t :: us, rfl⟩, h₁⟩
    · obtain ⟨own, hown, h⟩ := ih he
      exact ⟨own, hown.trans ⟨ts ++ [t], [], by simp⟩, h⟩
  | _ =>
    obtain rfl := List.mem_singleton.mp he
    exact ⟨_, List.infix_rfl, by constructor <;> assumption⟩

/-- An operand has tokens of its own, which stand together among those of its node. -/
theorem exists_of_mem_children (h : Written [e] ts) {a : Expr} (ha : a ∈ e.children) :
    ∃ own, own <:+: ts ∧ Written [a] own := by
  cases h with
  | number | symbol => cases ha
  | @group t u d e ts _ he _ =>
    obtain rfl := List.mem_singleton.mp ha
    exact ⟨ts, ⟨[t], [u], rfl⟩, he⟩
  | @call s t u d es ts _ _ hes _ =>
    obtain ⟨own, hown, ha⟩ := hes.exists_of_mem ha
    exact ⟨own, hown.trans ⟨[s, t], [u], rfl⟩, ha⟩
  | @sign t k e ts _ he =>
    obtain rfl := List.mem_singleton.mp ha
    exact ⟨ts, ⟨[t], [], by simp⟩, he⟩
  | @operator t k a b ts us _ hleft hright =>
    rcases List.mem_cons.mp ha with rfl | ha
    · exact ⟨ts, ⟨[], t :: us, rfl⟩, hleft⟩
    · obtain rfl := List.mem_singleton.mp ha
      exact ⟨us, ⟨ts ++ [t], [], by simp⟩, hright⟩
  | @juxtapose a b ts us hleft hright =>
    rcases List.mem_cons.mp ha with rfl | ha
    · exact ⟨ts, ⟨[], us, rfl⟩, hleft⟩
    · obtain rfl := List.mem_singleton.mp ha
      exact ⟨us, ⟨ts, [], by simp⟩, hright⟩
  | arguments _ _ h => exact absurd h (by rintro ⟨⟩)

/-- So has every node below. -/
theorem exists_of_mem_postOrder {e : Expr} {ts : List Token} (h : Written [e] ts) {d : Expr}
    (hd : d ∈ e.postOrder) : ∃ own, own <:+: ts ∧ Written [d] own := by
  rw [Expr.postOrder_eq, List.mem_append, List.mem_flatMap, List.mem_singleton] at hd
  rcases hd with ⟨a, ha, hd⟩ | rfl
  · obtain ⟨us, hus, ha'⟩ := h.exists_of_mem_children ha
    obtain ⟨own, hown, hd⟩ := ha'.exists_of_mem_postOrder hd
    exact ⟨own, hown.trans hus, hd⟩
  · exact ⟨ts, List.infix_rfl, h⟩
  termination_by sizeOf e
  decreasing_by exact Expr.sizeOf_lt_of_mem_children ha

end Written

/-- The tokens from the one cursor to the other are `ts`, but for white space, and the last of them
stands right before the second cursor. -/
def Cursor.Takes (c : Cursor) (ts : List Token) (c' : Cursor) : Prop :=
  ∃ passed, c.rest = passed ++ c'.rest ∧ c'.before = passed.reverse ++ c.before ∧
    passed.filter (!·.isSpace) = ts ∧ passed.getLast? = ts.getLast?

namespace Cursor.Takes

variable {c c₁ c₂ : Cursor} {t : Token} {ts us : List Token}

theorem trans (h₁ : c.Takes ts c₁) (h₂ : c₁.Takes us c₂) : c.Takes (ts ++ us) c₂ := by
  obtain ⟨ps, hrest₁, hbefore₁, rfl, hlast₁⟩ := h₁
  obtain ⟨qs, hrest₂, hbefore₂, rfl, hlast₂⟩ := h₂
  refine ⟨ps ++ qs, ?_, ?_, by rw [List.filter_append], ?_⟩
  · rw [hrest₁, hrest₂, List.append_assoc]
  · rw [hbefore₂, hbefore₁, List.reverse_append, List.append_assoc]
  · rw [List.getLast?_append, List.getLast?_append, hlast₁, hlast₂]

theorem ahead_eq (h : c.Takes ts c₁) : c.ahead = ts ++ c₁.ahead := by
  obtain ⟨passed, hrest, -, rfl, -⟩ := h
  rw [ahead, hrest, List.filter_append, ahead]

theorem takeFrom (before ts : List Token) {t : Token} {c : Cursor}
    (h : Cursor.takeFrom before ts = (some t, c)) : (Cursor.mk before ts).Takes [t] c := by
  induction ts generalizing before with
  | nil => cases h
  | cons u ts ih =>
    rw [Cursor.takeFrom] at h
    split at h
    · next hu =>
      obtain ⟨passed, hrest, hbefore, hfilter, hlast⟩ := ih (u :: before) h
      refine ⟨u :: passed, ?_, ?_, ?_, ?_⟩
      · rw [List.cons_append, ← hrest]
      · rw [hbefore, List.reverse_cons, List.append_assoc]
        rfl
      · simpa [hu] using hfilter
      · rw [List.getLast?_cons, hlast]
        rfl
    · next hu =>
      cases h
      exact ⟨[t], rfl, rfl, by simp [hu], rfl⟩

theorem of_readToken (h : readToken c = .done t c₁) : c.Takes [t] c₁ := by
  rw [readToken] at h
  split at h
  · next hnext =>
    cases h
    exact takeFrom c.before c.rest hnext
  · cases h

theorem next (h : c.ahead.head? = some t) : c.Takes [t] c.next.2 := by
  have hfirst : c.next.1 = some t := (Cursor.ahead_takeFrom c.before c.rest).1.trans h
  exact takeFrom c.before c.rest (Prod.ext hfirst rfl)

end Cursor.Takes

/-- The tokens from the one cursor to the other write the expressions. -/
def Between (c : Cursor) (es : List Expr) (c' : Cursor) : Prop :=
  ∃ ts, c.Takes ts c' ∧ Written es ts

theorem UnaryOp.exists_of_ofToken? {t : Token} {op : UnaryOp} (h : ofToken? t = some op) :
    ∃ k, op = ⟨k, t.span⟩ := by
  unfold ofToken? at h
  split at h <;> cases h <;> exact ⟨_, rfl⟩

namespace BinaryOp

theorem eq_of_ofToken? {t : Token} {op : BinaryOp} (h : ofToken? t = some op) :
    op = ⟨op.kind, false, t.span⟩ ∨ op = ⟨.mul, true, .point t.start⟩ := by
  unfold ofToken? at h
  split at h
  case h_7 =>
    split at h
    · cases h
      exact .inr rfl
    · cases h
  all_goals
    cases h
    exact .inl rfl

/-- The operator to come has a token of its own, or it stands before an operand. -/
theorem peek?_eq_some {c : Cursor} {op : BinaryOp} (h : peek? c = some op) :
    ∃ t, c.ahead.head? = some t ∧ t.kind.operator? = some (op.kind, op.isImplicit) ∧
      (op = ⟨op.kind, false, t.span⟩ ∧ c.Takes [t] (op.skip c) ∨
        op = ⟨.mul, true, .point t.start⟩ ∧ op.skip c = c) := by
  rw [peek?, Cursor.peek?_eq] at h
  obtain ⟨t, ht, hop⟩ := Option.bind_eq_some_iff.mp h
  have hk := kind_ofToken? t
  rw [hop, Option.map_some] at hk
  refine ⟨t, ht, hk.symm, ?_⟩
  rcases eq_of_ofToken? hop with heq | rfl
  · exact .inl ⟨heq, by rw [heq]; exact .next ht⟩
  · exact .inr ⟨rfl, rfl⟩

end BinaryOp

/-- An operator between its operands. -/
theorem Between.join {c₀ c c' : Cursor} {op : BinaryOp} {left right : Expr}
    (hl : Between c₀ [left] c) (hop : BinaryOp.peek? c = some op)
    (hr : Between (op.skip c) [right] c') : Between c₀ [Expr.join op left right] c' := by
  obtain ⟨ts, hts, hleft⟩ := hl
  obtain ⟨us, hus, hright⟩ := hr
  obtain ⟨t, hhead, hk, ⟨heq, ht⟩ | ⟨rfl, hskip⟩⟩ := BinaryOp.peek?_eq_some hop
  · refine ⟨ts ++ t :: us, hts.trans (ht.trans hus), ?_⟩
    rw [Expr.join, hleft.span_eq, hright.span_eq,
      extent_through hleft.ne_nil [t] hright.ne_nil]
    rw [heq] at hk ⊢
    exact .operator hk hleft hright
  · rw [hskip] at hus
    refine ⟨ts ++ us, hts.trans hus, ?_⟩
    rw [Expr.join, hleft.span_eq, hright.span_eq,
      extent_through hleft.ne_nil [] hright.ne_nil]
    rw [hus.ahead_eq] at hhead
    rw [← hright.start_eq hhead]
    exact .juxtapose hleft hright

namespace Expr

theorem readLiteral_between {c c' : Cursor} {e : Expr} (h : readLiteral c = .done e c') :
    Between c [e] c' := by
  obtain ⟨t, ht, ⟨hk, rfl⟩ | ⟨hk, rfl⟩⟩ := readLiteral_eq_done.mp h
  · exact ⟨[t], .of_readToken ht, .number hk⟩
  · exact ⟨[t], .of_readToken ht, .symbol hk⟩

/-- The reader at each precedence takes what its expression is written with, before fewer than `n`
tokens. -/
def BetweenBelow (n : Nat) : Prop :=
  ∀ (p : Precedence) (c c' : Cursor) (e : Expr), c.rest.length < n →
    readAtLeast p c = .done e c' → Between c [e] c'

theorem climb_between {n : Nat} (H : BetweenBelow n) {p : Precedence} {left e : Expr}
    {c₀ c c' : Cursor} (hn : c.rest.length < n) (hl : Between c₀ [left] c)
    (h : climb left p c = .done e c') : Between c₀ [e] c' := by
  induction hm : c.rest.length using Nat.strong_induction_on generalizing left c with
  | _ m ih =>
    rw [climb_eq_readAtLeast] at h
    split at h
    · cases h
      exact hl
    · next op hop =>
      split at h
      · cases h
        exact hl
      · obtain ⟨right, c₁, hright, h⟩ := Reading.andThen_eq_done.mp h
        have hlt := readAtLeast_lt hright
        have hle := op.skip_length_le c
        have hr := H _ _ _ _ (by omega) hright
        exact ih c₁.rest.length (by omega) (by omega) (hl.join hop hr) h rfl

/-- The arguments that follow the first one, and the token that closes them. -/
theorem readArgs_between {n : Nat} (H : BetweenBelow n) {o : Opening} {arg : Expr}
    {args : List Expr} {s : Span} {c₀ c c' : Cursor} (hn : c.rest.length < n)
    (hl : Between c₀ [arg] c) (h : readArgs o c = .done (args, s) c') :
    ∃ t c₁, Between c₀ (arg :: args) c₁ ∧ c₁.Takes [t] c' ∧ t.kind = o.delimiter.closeKind ∧
      t.span = s := by
  induction hm : c.rest.length using Nat.strong_induction_on generalizing c₀ arg args s c with
  | _ m ih =>
    have hclosed : ∀ ks, ((o.readClose ks c).map fun close => ([], close)) = .done (args, s) c' →
        ∃ t c₁, Between c₀ (arg :: args) c₁ ∧ c₁.Takes [t] c' ∧
          t.kind = o.delimiter.closeKind ∧ t.span = s := by
      intro ks h
      obtain ⟨close, hclose, he⟩ := Reading.map_eq_done.mp h
      cases he
      obtain ⟨t, ht, hk, hs⟩ := Opening.readClose_eq_done.mp hclose
      exact ⟨t, c, hl, .of_readToken ht, hk, hs⟩
    rw [readArgs] at h
    split at h
    · exact hclosed _ h
    · split at h
      · exact hclosed _ h
      · next t c₁ hcomma =>
        obtain ⟨ht, hk⟩ := readKind_eq_done.mp hcomma
        obtain ⟨_, c₂, h₁, heq, h⟩ := Reading.advance_eq_done.mp h
        cases heq
        obtain ⟨next, c₃, h₂, hnext, h⟩ := Reading.advance_eq_done.mp h
        obtain ⟨⟨more, close⟩, hmore, he⟩ := Reading.map_eq_done.mp h
        cases he
        have hread := readAtLeast_of_read (Reading.restore_eq_done.mp hnext)
        have hr := H _ _ _ _ (by omega) hread
        obtain ⟨u, c₄, ⟨us, hus, hmore⟩, hclose⟩ :=
          ih c₃.rest.length (by omega) (by omega) hr hmore rfl
        obtain ⟨ts, hts, harg⟩ := hl
        exact ⟨u, c₄, ⟨ts ++ t :: us, hts.trans ((Cursor.Takes.of_readToken ht).trans hus),
          .arguments harg hk hmore⟩, hclose⟩

theorem readCall_between {n : Nat} (H : BetweenBelow n) {e : Expr} {c c' : Cursor}
    (hn : c.rest.length ≤ n) (h : readCall c = .done e c') : Between c [e] c' := by
  rw [readCall, Reading.advance_eq_done] at h
  obtain ⟨callee, c₁, h₁, hcallee, h⟩ := h
  obtain ⟨o, c₂, h₂, ho, h⟩ := Reading.advance_eq_done.mp h
  obtain ⟨arg, c₃, h₃, harg, h⟩ := Reading.advance_eq_done.mp h
  obtain ⟨⟨args, close⟩, hargs, he⟩ := Reading.map_eq_done.mp h
  cases he
  obtain ⟨t, ht, hname, rfl⟩ := Ident.read_eq_done.mp hcallee
  obtain ⟨⟨u, hu, hd, -⟩, -⟩ := Opening.readFilled_eq_done.mp ho
  have hread := readAtLeast_of_read (Reading.restore_eq_done.mp harg)
  obtain ⟨v, c₄, ⟨ts, hts, hwritten⟩, hv, hclose, rfl⟩ :=
    readArgs_between H (by omega) (H _ _ _ _ (by omega) hread) hargs
  have hformal : c.sees (· = .command) = decide (t.kind = .command) := by
    rw [Cursor.sees, Cursor.peek?_eq, (ahead_of_readToken ht).1]
    rfl
  refine ⟨t :: u :: (ts ++ [v]), (Cursor.Takes.of_readToken ht).trans
    ((Cursor.Takes.of_readToken hu).trans (hts.trans hv)), ?_⟩
  dsimp only
  rw [hformal, span_through_span t (u :: ts) v]
  exact .call hname (Delimiter.eq_openKind hd) hwritten hclose

theorem readGroup_between {n : Nat} (H : BetweenBelow n) {e : Expr} {c c' : Cursor}
    (hn : c.rest.length ≤ n) (h : readGroup c = .done e c') : Between c [e] c' := by
  rw [readGroup, Reading.advance_eq_done] at h
  obtain ⟨o, c₁, h₁, ho, h⟩ := h
  obtain ⟨inner, c₂, hinner, h⟩ := Reading.andThen_eq_done.mp h
  obtain ⟨close, hclose, rfl⟩ := Reading.map_eq_done.mp h
  obtain ⟨⟨t, ht, hd, hs⟩, -⟩ := Opening.readFilled_eq_done.mp ho
  obtain ⟨u, hu, hk, rfl⟩ := Opening.readClose_eq_done.mp hclose
  have hread := readAtLeast_of_read (Reading.restore_eq_done.mp hinner)
  obtain ⟨ts, hts, hwritten⟩ := H _ _ _ _ (by omega) hread
  refine ⟨t :: (ts ++ [u]), (Cursor.Takes.of_readToken ht).trans
    (hts.trans (.of_readToken hu)), ?_⟩
  rw [hs, span_through_span t ts u]
  exact .group (Delimiter.eq_openKind hd) hwritten hk

theorem readPrimary_between {n : Nat} (H : BetweenBelow n) {e : Expr} {c c' : Cursor}
    (hn : c.rest.length ≤ n) (h : readPrimary c = .done e c') : Between c [e] c' := by
  rw [readPrimary] at h
  split at h
  · cases h
  · split at h
    · exact readGroup_between H hn (Reading.restore_eq_done.mp h)
    · split at h
      · split at h
        · exact readCall_between H hn (Reading.restore_eq_done.mp h)
        · exact readLiteral_between (Reading.restore_eq_done.mp h)
      · cases h

theorem readUnary_between {n : Nat} (H : BetweenBelow n) {e : Expr} {c c' : Cursor}
    (hn : c.rest.length ≤ n) (h : readUnary c = .done e c') : Between c [e] c' := by
  rw [readUnary, Reading.advance_eq_done] at h
  obtain ⟨op, c₁, h₁, hop, h⟩ := h
  obtain ⟨first, c₂, h₂, hfirst, h⟩ := Reading.advance_eq_done.mp h
  obtain ⟨operand, hclimb, rfl⟩ := Reading.map_eq_done.mp h
  obtain ⟨t, ht, hk⟩ := UnaryOp.read_eq_done.mp (Reading.restore_eq_done.mp hop)
  have hread : readAtLeast .sign c₁ = .done operand c' :=
    Reading.andThen_eq_done.mpr ⟨first, c₂, hfirst, hclimb⟩
  obtain ⟨ts, hts, hwritten⟩ := H _ _ _ _ (by omega) hread
  refine ⟨t :: ts, (Cursor.Takes.of_readToken ht).trans hts, ?_⟩
  obtain ⟨k, rfl⟩ := UnaryOp.exists_of_ofToken? hk
  rw [hwritten.span_eq, span_through_extent t hwritten.ne_nil]
  exact .sign (UnaryOp.signKind?_eq hk) hwritten

theorem readSigned_between {n : Nat} (H : BetweenBelow n) {e : Expr} {c c' : Cursor}
    (hn : c.rest.length ≤ n) (h : readSigned c = .done e c') : Between c [e] c' := by
  rw [readSigned] at h
  split at h
  · exact readUnary_between H hn h
  · exact readPrimary_between H hn h

theorem readAtLeast_between (n : Nat) : BetweenBelow n := by
  induction n with
  | zero =>
    intro p c c' e hn
    omega
  | succ n H =>
    intro p c c' e hn h
    obtain ⟨left, c₁, hleft, h⟩ := Reading.andThen_eq_done.mp h
    have hlt := readSigned_lt hleft
    exact climb_between H (by omega) (readSigned_between H (by omega) hleft) h

theorem read_between {c c' : Cursor} {e : Expr} (h : read c = .done e c') : Between c [e] c' :=
  readAtLeast_between _ _ _ _ _ (Nat.lt_succ_self _) (readAtLeast_of_read h)

end Expr

/-- The kinds of node that can be read on their own. -/
inductive NodeKind where
  | expr
  | primary
  | call
  | group
  | literal
  | number
  | symbol
  | unary
  deriving DecidableEq, Repr

namespace NodeKind

/-- Is the node of the kind? -/
def admits : NodeKind → Expr → Bool
  | expr, _ => true
  | primary, .unary .. | primary, .binary .. => false
  | primary, _ => true
  | call, .call .. => true
  | group, .group .. => true
  | literal, .number .. | literal, .symbol .. => true
  | number, .number .. => true
  | symbol, .symbol .. => true
  | unary, .unary .. => true
  | _, _ => false

/-- The reader of the kind. -/
def read : NodeKind → Cursor → Reading Expr
  | expr => Expr.read
  | primary => Expr.readPrimary
  | call => Expr.readCall
  | group => Expr.readGroup
  | literal => Expr.readLiteral
  | number => Expr.readNumber
  | symbol => Expr.readSymbol
  | unary => Expr.readUnary

variable {k : NodeKind} {c c' : Cursor} {e : Expr}

theorem between (h : k.read c = .done e c') : Between c [e] c' := by
  have H := Expr.readAtLeast_between c.rest.length
  cases k with
  | expr => exact Expr.read_between h
  | primary => exact Expr.readPrimary_between H le_rfl h
  | call => exact Expr.readCall_between H le_rfl h
  | group => exact Expr.readGroup_between H le_rfl h
  | literal => exact Expr.readLiteral_between h
  | number =>
    change Expr.readNumber c = _ at h
    exact Expr.readLiteral_between (by rw [Expr.readLiteral, h]; rfl)
  | symbol =>
    obtain ⟨i, hi, rfl⟩ := Reading.map_eq_done.mp h
    obtain ⟨t, ht, hk, rfl⟩ := Ident.read_eq_done.mp hi
    exact ⟨[t], .of_readToken ht, .symbol hk⟩
  | unary => exact Expr.readUnary_between H le_rfl h

theorem admits_literal (h : Expr.readLiteral c = .done e c') : literal.admits e = true := by
  obtain ⟨t, -, ⟨-, rfl⟩ | ⟨-, rfl⟩⟩ := Expr.readLiteral_eq_done.mp h <;> rfl

theorem admits_call (h : Expr.readCall c = .done e c') : call.admits e = true := by
  rw [Expr.readCall, Reading.advance_eq_done] at h
  obtain ⟨_, _, -, -, h⟩ := h
  obtain ⟨_, _, -, -, h⟩ := Reading.advance_eq_done.mp h
  obtain ⟨_, _, -, -, h⟩ := Reading.advance_eq_done.mp h
  obtain ⟨_, -, rfl⟩ := Reading.map_eq_done.mp h
  rfl

theorem admits_group (h : Expr.readGroup c = .done e c') : group.admits e = true := by
  rw [Expr.readGroup, Reading.advance_eq_done] at h
  obtain ⟨_, _, -, -, h⟩ := h
  obtain ⟨_, _, -, h⟩ := Reading.andThen_eq_done.mp h
  obtain ⟨_, -, rfl⟩ := Reading.map_eq_done.mp h
  rfl

theorem admits_primary
    (h : literal.admits e = true ∨ call.admits e = true ∨ group.admits e = true) :
    primary.admits e = true := by
  cases e with
  | unary | binary => simp [admits] at h
  | _ => rfl

theorem admits_of_read (h : k.read c = .done e c') : k.admits e = true := by
  cases k with
  | expr => rfl
  | primary =>
    change Expr.readPrimary c = _ at h
    rw [Expr.readPrimary] at h
    refine admits_primary ?_
    split at h
    · cases h
    · split at h
      · exact .inr (.inr (admits_group (Reading.restore_eq_done.mp h)))
      · split at h
        · split at h
          · exact .inr (.inl (admits_call (Reading.restore_eq_done.mp h)))
          · exact .inl (admits_literal (Reading.restore_eq_done.mp h))
        · cases h
  | call => exact admits_call h
  | group => exact admits_group h
  | literal => exact admits_literal h
  | number =>
    obtain ⟨t, -, rfl⟩ := Reading.map_eq_done.mp h
    rfl
  | symbol =>
    obtain ⟨i, -, rfl⟩ := Reading.map_eq_done.mp h
    rfl
  | unary =>
    change Expr.readUnary c = _ at h
    rw [Expr.readUnary, Reading.advance_eq_done] at h
    obtain ⟨_, _, -, -, h⟩ := h
    obtain ⟨_, _, -, -, h⟩ := Reading.advance_eq_done.mp h
    obtain ⟨_, -, rfl⟩ := Reading.map_eq_done.mp h
    rfl

end NodeKind

/-- A node and the tokens it was read from: they write it, and every node below has the extent of
its own part of them. An operator that is not written stands where its right operand begins. -/
structure Stands (e : Expr) (ts : List Token) : Prop where
  written : Written [e] ts
  ne_nil : ts ≠ []
  span_eq : e.span = extent ts
  exists_own : ∀ d ∈ e.postOrder, ∃ own, own <:+: ts ∧ Written [d] own ∧ d.span = extent own
  point_eq : ∀ op left right span, .binary op left right span ∈ e.postOrder →
    op.isImplicit = true → op.span = .point right.span.start

theorem Written.stands {e : Expr} {ts : List Token} (h : Written [e] ts) : Stands e ts where
  written := h
  ne_nil := h.ne_nil
  span_eq := h.span_eq
  exists_own d hd := by
    obtain ⟨own, hown, hd⟩ := h.exists_of_mem_postOrder hd
    exact ⟨own, hown, hd, hd.span_eq⟩
  point_eq op left right span hd himplicit := by
    obtain ⟨own, -, hd⟩ := h.exists_of_mem_postOrder hd
    cases hd with
    | operator => cases himplicit
    | juxtapose _ hright => rw [hright.span_eq]
    | arguments _ _ hnil => exact absurd hnil (by rintro ⟨⟩)

/-- Wherever a node of some kind or a sign is asked for, either one is read, from just the tokens
that are taken, or nothing is taken. -/
theorem attempt_stands (c : Cursor) :
    (∀ k : NodeKind,
      (∃ e ts c', (k.read c).restore c = .done e c' ∧ k.admits e = true ∧ c.Takes ts c' ∧
        Stands e ts) ∨
      ∃ f, (k.read c).restore c = .failed f c) ∧
    ((∃ op t c', (UnaryOp.read c).restore c = .done op c' ∧ c.Takes [t] c' ∧
        signKind? t.kind = some op.kind ∧ op.span = t.span) ∨
      ∃ f, (UnaryOp.read c).restore c = .failed f c) := by
  constructor
  · intro k
    cases h : k.read c with
    | failed f c' => exact .inr ⟨f, rfl⟩
    | done e c' =>
      obtain ⟨ts, hts, hwritten⟩ := NodeKind.between h
      exact .inl ⟨e, ts, c', rfl, NodeKind.admits_of_read h, hts, hwritten.stands⟩
  · cases h : UnaryOp.read c with
    | failed f c' => exact .inr ⟨f, rfl⟩
    | done op c' =>
      obtain ⟨t, ht, hop⟩ := UnaryOp.read_eq_done.mp h
      obtain ⟨k, rfl⟩ := UnaryOp.exists_of_ofToken? hop
      exact .inl ⟨_, t, c', rfl, .of_readToken ht, UnaryOp.signKind?_eq hop, rfl⟩

end CurveGuess
