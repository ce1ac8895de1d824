import CurveGuess.Expr.Parser
import Mathlib.Data.Nat.Basic
import Mathlib.Order.Basic

/-!
# The reader as one loop

What the readers do when they succeed, in terms of the tokens to come. Every reader takes a token,
so the checks that let reading end never fail. Once they are gone, the two nested loops over the
operators turn out to be one: the right operand of an operator is whatever is read at the next
precedence above it.
-/
namespace CurveGuess

namespace Cursor

theorem peek?_eq (c : Cursor) : c.peek? = c.ahead.head? := by
  simp [peek?, ahead, List.head?_filter]

theorem ahead_takeFrom (before ts : List Token) :
    (takeFrom before ts).1 = (ts.filter (!·.isSpace)).head? ∧
      (takeFrom before ts).2.ahead = (ts.filter (!·.isSpace)).tail := by
  induction ts generalizing before with
  | nil => simp [takeFrom, ahead]
  | cons t ts ih =>
    by_cases h : t.isSpace
    · simpa [takeFrom, h] using ih (t :: before)
    · simp [takeFrom, h, ahead]

theorem takeFrom_length_lt (before ts : List Token) (h : (takeFrom before ts).1.isSome) :
    (takeFrom before ts).2.rest.length < ts.length := by
  induction ts generalizing before with
  | nil => simp [takeFrom] at h
  | cons t ts ih =>
    by_cases hs : t.isSpace
    · simp only [takeFrom, hs, if_true] at h ⊢
      exact Nat.lt_succ_of_lt (ih _ h)
    · simp [takeFrom, hs]

end Cursor

theorem readToken_of_cons {c : Cursor} {t : Token} {ts : List Token} (h : c.ahead = t :: ts) :
    ∃ c', readToken c = .done t c' ∧ c'.ahead = ts := by
  have hn := Cursor.ahead_takeFrom c.before c.rest
  rw [← Cursor.ahead, h] at hn
  refine ⟨c.next.2, ?_, hn.2⟩
  simp only [readToken]
  rw [show c.next = (some t, c.next.2) from Prod.ext hn.1 rfl]

theorem ahead_of_readToken {c c' : Cursor} {t : Token} (h : readToken c = .done t c') :
    c.ahead = t :: c'.ahead ∧ c'.rest.length < c.rest.length := by
  have hn := Cursor.ahead_takeFrom c.before c.rest
  have hl := Cursor.takeFrom_length_lt c.before c.rest
  simp only [readToken] at h
  split at h
  · next u d hu =>
    obtain ⟨rfl, rfl⟩ := (Reading.done.injEq ..).mp h
    change Cursor.takeFrom c.before c.rest = _ at hu
    rw [hu] at hn hl
    refine ⟨?_, hl rfl⟩
    have h1 := hn.1
    have h2 := hn.2
    rw [← Cursor.ahead] at h1 h2
    cases ha : c.ahead with
    | nil => simp [ha] at h1
    | cons a as => simp_all
  · cases h

namespace Reading

variable {α β : Type}

theorem andThen_eq_done {r : Reading α} {f : α → Cursor → Reading β} {b : β} {c : Cursor} :
    r.andThen f = .done b c ↔ ∃ a c', r = .done a c' ∧ f a c' = .done b c := by
  cases r with
  | done a c' =>
    constructor
    · intro h
      exact ⟨a, c', rfl, h⟩
    · rintro ⟨a', d, he, h⟩
      cases he
      exact h
  | failed e c' => simp

theorem map_eq_done {r : Reading α} {f : α → β} {b : β} {c : Cursor} :
    r.map f = .done b c ↔ ∃ a, r = .done a c ∧ f a = b := by
  rw [map, andThen_eq_done]
  constructor
  · rintro ⟨a, d, h, he⟩
    cases he
    exact ⟨a, h, rfl⟩
  · rintro ⟨a, h, rfl⟩
    exact ⟨a, c, h, rfl⟩

theorem restore_eq_done {r : Reading α} {a : α} {c c' : Cursor} :
    r.restore c = .done a c' ↔ r = .done a c' := by
  cases r <;> simp [restore]

theorem advance_eq_done {r : Reading α} {c c'' : Cursor} {b : β}
    {f : α → (c' : Cursor) → c'.rest.length < c.rest.length → Reading β} :
    r.advance c f = .done b c'' ↔ ∃ a c' h, r = .done a c' ∧ f a c' h = .done b c'' := by
  cases r with
  | done a c' =>
    simp only [advance]
    split
    · next h =>
      constructor
      · intro hf
        exact ⟨a, c', h, rfl, hf⟩
      · rintro ⟨a', d, h', he, hf⟩
        cases he
        exact hf
    · next h =>
      constructor
      · intro hf
        cases hf
      · rintro ⟨a', d, h', he, hf⟩
        cases he
        exact absurd h' h
  | failed e c' => simp

/-- Where every success takes a token, `advance` is plain sequencing. -/
theorem advance_eq_andThen {r : Reading α} {c : Cursor} {f : α → Cursor → Reading β}
    (h : ∀ a c', r = .done a c' → c'.rest.length < c.rest.length) :
    r.advance c (fun a c' _ => f a c') = r.andThen f := by
  cases r with
  | done a c' => exact advance_done a c c' (h a c' rfl) _
  | failed e c' => rfl

theorem andThen_assoc {γ : Type} (r : Reading α) (f : α → Cursor → Reading β)
    (g : β → Cursor → Reading γ) :
    (r.andThen f).andThen g = r.andThen fun a c => (f a c).andThen g := by
  cases r <;> rfl

section
variable {c d : Cursor} {e : FormFault}

theorem andThen_eq_failed {r : Reading α} {f : α → Cursor → Reading β}
    (h : r.andThen f = .failed e d) :
    r = .failed e d ∨ ∃ a c', r = .done a c' ∧ f a c' = .failed e d := by
  cases r with
  | done a c' => exact .inr ⟨a, c', rfl, h⟩
  | failed e' c' =>
    cases h
    exact .inl rfl

theorem map_eq_failed {r : Reading α} {f : α → β} (h : r.map f = .failed e d) :
    r = .failed e d := by
  rcases andThen_eq_failed h with h | ⟨a, c', -, h⟩
  · exact h
  · cases h

theorem restore_eq_failed {r : Reading α} (h : r.restore c = .failed e d) :
    ∃ d, r = .failed e d := by
  cases r with
  | done a c' => cases h
  | failed e' c' =>
    cases h
    exact ⟨c', rfl⟩

/-- Where every success takes a token, only the readings themselves can fail. -/
theorem advance_eq_failed {r : Reading α}
    {f : α → (c' : Cursor) → c'.rest.length < c.rest.length → Reading β}
    (hlt : ∀ a c', r = .done a c' → c'.rest.length < c.rest.length)
    (h : r.advance c f = .failed e d) :
    r = .failed e d ∨ ∃ a c' h', r = .done a c' ∧ f a c' h' = .failed e d := by
  cases r with
  | done a c' =>
    rw [advance_done a c c' (hlt a c' rfl)] at h
    exact .inr ⟨a, c', _, rfl, h⟩
  | failed e' c' =>
    cases h
    exact .inl rfl

end

end Reading

theorem readKind_eq_done {k : Kind} {c c' : Cursor} {t : Token} :
    readKind k c = .done t c' ↔ readToken c = .done t c' ∧ t.kind = k := by
  rw [readKind, Reading.restore_eq_done, Reading.andThen_eq_done]
  constructor
  · rintro ⟨u, d, hu, h⟩
    split at h
    · next hk => cases h; exact ⟨hu, hk⟩
    · cases h
  · rintro ⟨h, hk⟩
    exact ⟨t, c', h, by simp [hk]⟩

/-- Either of two kinds of token. -/
theorem readKind_orElse_eq_done {k l : Kind} {c c' : Cursor} {t : Token} :
    (readKind k c).orElse (readKind l c) = .done t c' ↔
      readToken c = .done t c' ∧ (t.kind = k ∨ t.kind = l) := by
  cases h : readKind k c with
  | done u d =>
    obtain ⟨hu, hk⟩ := readKind_eq_done.mp h
    rw [hu]
    constructor
    · intro he
      cases he
      exact ⟨rfl, .inl hk⟩
    · rintro ⟨he, -⟩
      cases he
      rfl
  | failed e d =>
    rw [Reading.orElse, readKind_eq_done]
    constructor
    · rintro ⟨ht, hl⟩
      exact ⟨ht, .inr hl⟩
    · rintro ⟨ht, hk | hl⟩
      · rw [readKind_eq_done.mpr ⟨ht, hk⟩] at h
        cases h
      · exact ⟨ht, hl⟩

theorem UnaryOp.read_eq_done {c c' : Cursor} {op : UnaryOp} :
    UnaryOp.read c = .done op c' ↔ ∃ t, readToken c = .done t c' ∧ ofToken? t = some op := by
  rw [UnaryOp.read, Reading.andThen_eq_done]
  constructor
  · rintro ⟨t, d, ht, h⟩
    split at h
    · next hop => cases h; exact ⟨t, ht, hop⟩
    · cases h
  · rintro ⟨t, ht, h⟩
    exact ⟨t, c', ht, by rw [h]⟩

theorem Ident.read_eq_done {c c' : Cursor} {i : Ident} :
    Ident.read c = .done i c' ↔
      ∃ t, readToken c = .done t c' ∧ (t.kind = .name ∨ t.kind = .command) ∧
        i = ⟨t.bareName, t.span⟩ := by
  simp only [Ident.read, Reading.map_eq_done, readKind_orElse_eq_done, and_assoc]
  simp only [eq_comm (a := i)]

namespace Opening

theorem read_eq_done {c c' : Cursor} {o : Opening} :
    Opening.read c = .done o c' ↔
      ∃ t, readToken c = .done t c' ∧ Delimiter.ofKind? t.kind = some o.delimiter ∧
        o.span = t.span := by
  rw [Opening.read, Reading.andThen_eq_done]
  constructor
  · rintro ⟨t, d, ht, h⟩
    split at h
    · next hd => cases h; exact ⟨t, ht, hd, rfl⟩
    · cases h
  · rintro ⟨t, ht, hd, hs⟩
    refine ⟨t, c', ht, ?_⟩
    rw [hd, ← hs]

theorem readFilled_eq_done {c c' : Cursor} {o : Opening} :
    Opening.readFilled c = .done o c' ↔
      (∃ t, readToken c = .done t c' ∧ Delimiter.ofKind? t.kind = some o.delimiter ∧
        o.span = t.span) ∧ ∀ u ∈ c'.ahead.head?, u.kind ≠ o.delimiter.closeKind := by
  rw [Opening.readFilled, Reading.andThen_eq_done]
  simp only [read_eq_done, Cursor.peek?_eq]
  constructor
  · rintro ⟨o', d, ht, h⟩
    split at h
    · next u hu =>
      split at h
      · cases h
      · next hk =>
        cases h
        refine ⟨ht, ?_⟩
        rw [hu]
        simpa using hk
    · next hn =>
      cases h
      rw [hn]
      exact ⟨ht, by simp⟩
  · rintro ⟨ht, hk⟩
    refine ⟨o, c', ht, ?_⟩
    split
    · next u hu =>
      rw [if_neg (hk u hu)]
    · rfl

theorem readClose_eq_done {o : Opening} {ks : List Kind} {c c' : Cursor} {s : Span} :
    o.readClose ks c = .done s c' ↔
      ∃ t, readToken c = .done t c' ∧ t.kind = o.delimiter.closeKind ∧ t.span = s := by
  rw [Opening.readClose, Cursor.peek?_eq]
  split
  · next hn =>
    constructor
    · intro h
      cases h
    · rintro ⟨t, ht, -⟩
      rw [(ahead_of_readToken ht).1] at hn
      cases hn
  · rw [Reading.andThen_eq_done]
    constructor
    · rintro ⟨t, d, ht, h⟩
      split at h
      · next hk => cases h; exact ⟨t, ht, hk, rfl⟩
      · cases h
    · rintro ⟨t, ht, hk, rfl⟩
      exact ⟨t, c', ht, by simp [hk]⟩

end Opening

section
variable {c c' : Cursor}

theorem readKind_lt {k : Kind} {t : Token} (h : readKind k c = .done t c') :
    c'.rest.length < c.rest.length :=
  (ahead_of_readToken (readKind_eq_done.mp h).1).2

theorem UnaryOp.read_lt {op : UnaryOp} (h : UnaryOp.read c = .done op c') :
    c'.rest.length < c.rest.length := by
  obtain ⟨t, ht, -⟩ := read_eq_done.mp h
  exact (ahead_of_readToken ht).2

theorem Ident.read_lt {i : Ident} (h : Ident.read c = .done i c') :
    c'.rest.length < c.rest.length := by
  obtain ⟨t, ht, -⟩ := read_eq_done.mp h
  exact (ahead_of_readToken ht).2

theorem Opening.readFilled_lt {o : Opening} (h : readFilled c = .done o c') :
    c'.rest.length < c.rest.length := by
  obtain ⟨⟨t, ht, -⟩, -⟩ := readFilled_eq_done.mp h
  exact (ahead_of_readToken ht).2

end

namespace Expr

theorem readLiteral_eq_done {c c' : Cursor} {e : Expr} :
    readLiteral c = .done e c' ↔
      ∃ t, readToken c = .done t c' ∧
        (t.kind.isNumber = true ∧ e = .number (.ofText t.lexeme) t.span ∨
          (t.kind = .name ∨ t.kind = .command) ∧ e = .symbol ⟨t.bareName, t.span⟩) := by
  have hnum : ∀ e d, readNumber c = .done e d ↔ ∃ t, readToken c = .done t d ∧
      t.kind.isNumber = true ∧ e = .number (.ofText t.lexeme) t.span := by
    intro e d
    simp only [readNumber, Reading.map_eq_done, readKind_orElse_eq_done, and_assoc, Kind.isNumber,
      Bool.or_eq_true, decide_eq_true_eq, eq_comm (b := e)]
  have hsym : ∀ e d, readSymbol c = .done e d ↔ ∃ t, readToken c = .done t d ∧
      (t.kind = .name ∨ t.kind = .command) ∧ e = .symbol ⟨t.bareName, t.span⟩ := by
    intro e d
    simp only [readSymbol, Reading.map_eq_done, Ident.read_eq_done]
    constructor
    · rintro ⟨i, ⟨t, ht, hk, rfl⟩, rfl⟩
      exact ⟨t, ht, hk, rfl⟩
    · rintro ⟨t, ht, hk, rfl⟩
      exact ⟨_, ⟨t, ht, hk, rfl⟩, rfl⟩
  rw [readLiteral]
  cases h : readNumber c with
  | done a d =>
    obtain ⟨t, ht, hk, rfl⟩ := (hnum a d).mp h
    rw [Reading.orElse, ht]
    · constructor
      · intro he
        cases he
        exact ⟨t, rfl, .inl ⟨hk, rfl⟩⟩
      · rintro ⟨u, hu, ⟨-, rfl⟩ | ⟨hn, -⟩⟩
        · cases hu
          rfl
        · cases hu
          rcases hn with hn | hn <;> simp [hn, Kind.isNumber] at hk
    · simp
  | failed f d =>
    rw [Reading.orElse, hsym]
    constructor
    · rintro ⟨t, ht, hs⟩
      exact ⟨t, ht, .inr hs⟩
    · rintro ⟨t, ht, hn | hs⟩
      · rw [(hnum e c').mpr ⟨t, ht, hn⟩] at h
        cases h
      · exact ⟨t, ht, hs⟩

theorem readLiteral_lt {c c' : Cursor} {e : Expr} (h : readLiteral c = .done e c') :
    c'.rest.length < c.rest.length := by
  obtain ⟨t, ht, -⟩ := readLiteral_eq_done.mp h
  exact (ahead_of_readToken ht).2

theorem climb_le {left e : Expr} {p : Precedence} {c c' : Cursor}
    (h : climb left p c = .done e c') : c'.rest.length ≤ c.rest.length := by
  induction hn : c.rest.length using Nat.strong_induction_on generalizing left c with
  | _ n ih =>
    rw [climb] at h
    split at h
    · cases h
      exact hn.le
    · split at h
      · cases h
        exact hn.le
      · obtain ⟨right, c₁, -, -, h⟩ := Reading.advance_eq_done.mp h
        obtain ⟨right', c₂, hlt, -, h⟩ := Reading.advance_eq_done.mp h
        exact (ih _ (hn ▸ hlt) h rfl).trans (hn ▸ hlt.le)

theorem climbRight_le {op : BinaryOp} {right e : Expr} {c c' : Cursor}
    (h : climbRight op right c = .done e c') : c'.rest.length ≤ c.rest.length := by
  induction hn : c.rest.length using Nat.strong_induction_on generalizing right c with
  | _ n ih =>
    rw [climbRight] at h
    split at h
    · cases h
      exact hn.le
    · split at h
      · obtain ⟨right', c₁, hlt, -, h⟩ := Reading.advance_eq_done.mp h
        exact (ih _ (hn ▸ hlt) h rfl).trans (hn ▸ hlt.le)
      · cases h
        exact hn.le

theorem read_lt {c c' : Cursor} {e : Expr} (h : read c = .done e c') :
    c'.rest.length < c.rest.length := by
  have key : ∀ {e c'}, (readSigned c).advance c (fun left c₁ _ => climb left .any c₁) =
      .done e c' → c'.rest.length < c.rest.length := by
    intro e c' h
    obtain ⟨left, c₁, hlt, -, h⟩ := Reading.advance_eq_done.mp h
    exact (climb_le h).trans_lt hlt
  rw [read] at h
  split at h
  · split at h
    · cases h
    · exact key h
  · exact key h

theorem readUnary_lt {c c' : Cursor} {e : Expr} (h : readUnary c = .done e c') :
    c'.rest.length < c.rest.length := by
  rw [readUnary, Reading.advance_eq_done] at h
  obtain ⟨op, c₁, h₁, -, h⟩ := h
  obtain ⟨operand, c₂, h₂, -, h⟩ := Reading.advance_eq_done.mp h
  obtain ⟨_, h, -⟩ := Reading.map_eq_done.mp h
  exact (climb_le h).trans_lt (h₂.trans h₁)

theorem readClose_lt {o : Opening} {ks : List Kind} {c c' : Cursor} {s : Span}
    (h : o.readClose ks c = .done s c') : c'.rest.length < c.rest.length := by
  obtain ⟨t, ht, -⟩ := Opening.readClose_eq_done.mp h
  exact (ahead_of_readToken ht).2

theorem readGroup_lt {c c' : Cursor} {e : Expr} (h : readGroup c = .done e c') :
    c'.rest.length < c.rest.length := by
  rw [readGroup, Reading.advance_eq_done] at h
  obtain ⟨o, c₁, h₁, -, h⟩ := h
  obtain ⟨inner, c₂, h₂, h⟩ := Reading.andThen_eq_done.mp h
  obtain ⟨close, h₃, -⟩ := Reading.map_eq_done.mp h
  exact (readClose_lt h₃).trans ((read_lt (Reading.restore_eq_done.mp h₂)).trans h₁)

theorem readArgs_lt {o : Opening} {c c' : Cursor} {a : List Expr × Span}
    (h : readArgs o c = .done a c') : c'.rest.length < c.rest.length := by
  induction hn : c.rest.length using Nat.strong_induction_on generalizing c a with
  | _ n ih =>
    rw [readArgs] at h
    split at h
    · obtain ⟨close, h, -⟩ := Reading.map_eq_done.mp h
      exact hn ▸ readClose_lt h
    · split at h
      · obtain ⟨close, h, -⟩ := Reading.map_eq_done.mp h
        exact hn ▸ readClose_lt h
      · obtain ⟨_, c₁, h₁, -, h⟩ := Reading.advance_eq_done.mp h
        obtain ⟨arg, c₂, h₂, -, h⟩ := Reading.advance_eq_done.mp h
        obtain ⟨as, h, -⟩ := Reading.map_eq_done.mp h
        have h₃ := ih _ (hn ▸ h₂.trans h₁) h rfl
        exact hn ▸ h₃.trans (h₂.trans h₁)

theorem readCall_lt {c c' : Cursor} {e : Expr} (h : readCall c = .done e c') :
    c'.rest.length < c.rest.length := by
  rw [readCall, Reading.advance_eq_done] at h
  obtain ⟨callee, c₁, h₁, -, h⟩ := h
  obtain ⟨o, c₂, h₂, -, h⟩ := Reading.advance_eq_done.mp h
  obtain ⟨arg, c₃, h₃, -, h⟩ := Reading.advance_eq_done.mp h
  obtain ⟨_, h, -⟩ := Reading.map_eq_done.mp h
  exact (readArgs_lt h).trans (h₃.trans (h₂.trans h₁))

theorem readPrimary_lt {c c' : Cursor} {e : Expr} (h : readPrimary c = .done e c') :
    c'.rest.length < c.rest.length := by
  rw [readPrimary] at h
  split at h
  · cases h
  · split at h
    · exact readGroup_lt (Reading.restore_eq_done.mp h)
    · split at h
      · split at h
        · exact readCall_lt (Reading.restore_eq_done.mp h)
        · exact readLiteral_lt (Reading.restore_eq_done.mp h)
      · cases h

theorem readSigned_lt {c c' : Cursor} {e : Expr} (h : readSigned c = .done e c') :
    c'.rest.length < c.rest.length := by
  rw [readSigned] at h
  split at h
  · exact readUnary_lt h
  · exact readPrimary_lt h

/-- An operand with all operators after it that bind at least as tightly as `p`. -/
def readAtLeast (p : Precedence) (c : Cursor) : Reading Expr :=
  (readSigned c).andThen fun left c₁ => climb left p c₁

theorem readAtLeast_lt {p : Precedence} {c c' : Cursor} {e : Expr}
    (h : readAtLeast p c = .done e c') : c'.rest.length < c.rest.length := by
  obtain ⟨left, c₁, h₁, h⟩ := Reading.andThen_eq_done.mp h
  exact (climb_le h).trans_lt (readSigned_lt h₁)

theorem climb_eq (left : Expr) (p : Precedence) (c : Cursor) :
    climb left p c = match BinaryOp.peek? c with
      | none => .done left c
      | some op =>
        if op.precedence.rank < p.rank then .done left c
        else (readSigned (op.skip c)).andThen fun right c₁ =>
          (climbRight op right c₁).andThen fun right c₂ => climb (join op left right) p c₂ := by
  rw [climb]
  cases h : BinaryOp.peek? c with
  | none => rfl
  | some op =>
    by_cases hp : op.precedence.rank < p.rank
    · simp only [hp, if_true]
    · simp only [hp, if_false]
      cases hr : readSigned (op.skip c) with
      | failed => rfl
      | done right c₁ =>
        have h₁ := (readSigned_lt hr).trans_le (op.skip_length_le c)
        rw [Reading.advance_done _ _ _ h₁, Reading.andThen_done, Reading.advance_eq_andThen]
        intro right' c₂ h₂
        exact (climbRight_le h₂).trans_lt h₁

theorem climb_lt {left e : Expr} {p : Precedence} {c c' : Cursor} {op : BinaryOp}
    (hop : BinaryOp.peek? c = some op) (hp : ¬op.precedence.rank < p.rank)
    (h : climb left p c = .done e c') : c'.rest.length < c.rest.length := by
  rw [climb_eq, hop] at h
  simp only [hp, if_false] at h
  obtain ⟨right, c₁, h₁, h⟩ := Reading.andThen_eq_done.mp h
  obtain ⟨right', c₂, h₂, h⟩ := Reading.andThen_eq_done.mp h
  have := readSigned_lt h₁
  have := op.skip_length_le c
  have := climbRight_le h₂
  have := climb_le h
  omega

theorem climbRight_eq (op : BinaryOp) (right : Expr) (c : Cursor) :
    climbRight op right c = match BinaryOp.peek? c with
      | none => .done right c
      | some next =>
        if op.yieldsTo next then
          (climb right next.precedence c).andThen fun right c' => climbRight op right c'
        else .done right c := by
  rw [climbRight]
  cases h : BinaryOp.peek? c with
  | none => rfl
  | some next =>
    by_cases hy : op.yieldsTo next
    · simp only [hy, if_true]
      rw [Reading.advance_eq_andThen]
      intro e c' he
      exact climb_lt h (lt_irrefl _) he
    · simp [hy]

/-- Taking first what binds at least as tightly as `q` changes nothing for a looser `p`. -/
theorem climb_andThen {p q : Precedence} (hpq : p.rank ≤ q.rank) (left : Expr) (c : Cursor) :
    (climb left q c).andThen (fun e c' => climb e p c') = climb left p c := by
  induction hn : c.rest.length using Nat.strong_induction_on generalizing left c with
  | _ n ih =>
    rw [climb_eq left q c]
    cases hop : BinaryOp.peek? c with
    | none => rfl
    | some op =>
      by_cases hq : op.precedence.rank < q.rank
      · simp only [hq, if_true, Reading.andThen_done]
      · have hp : ¬op.precedence.rank < p.rank := by omega
        rw [climb_eq left p c, hop]
        simp only [hq, hp, if_false]
        rw [Reading.andThen_assoc]
        cases hr : readSigned (op.skip c) with
        | failed => rfl
        | done right c₁ =>
          simp only [Reading.andThen_done]
          rw [Reading.andThen_assoc]
          cases hr' : climbRight op right c₁ with
          | failed => rfl
          | done right' c₂ =>
            have := readSigned_lt hr
            have := op.skip_length_le c
            have := climbRight_le hr'
            exact ih c₂.rest.length (by omega) _ _ rfl

end Expr

/-- How tightly an operator has to bind to come before `k` on its right. -/
def BinaryKind.above : BinaryKind → Precedence
  | .add | .sub => .factor
  | .mul | .div | .exp => .power

theorem BinaryOp.yieldsTo_eq (op next : BinaryOp) :
    op.yieldsTo next = !decide (next.precedence.rank < op.kind.above.rank) := by
  rcases op with ⟨k, b, s⟩
  rcases next with ⟨k', b', s'⟩
  cases k <;> cases k' <;> rfl

namespace Expr

theorem climbRight_eq_climb (op : BinaryOp) (right : Expr) (c : Cursor) :
    climbRight op right c = climb right op.kind.above c := by
  induction hn : c.rest.length using Nat.strong_induction_on generalizing right c with
  | _ n ih =>
    rw [climbRight_eq]
    cases hop : BinaryOp.peek? c with
    | none => rw [climb_eq, hop]
    | some next =>
      by_cases hy : next.precedence.rank < op.kind.above.rank
      · rw [climb_eq, hop]
        simp [BinaryOp.yieldsTo_eq, hy]
      · rw [← climb_andThen (Nat.le_of_not_lt hy)]
        simp only [BinaryOp.yieldsTo_eq, hy, decide_false, Bool.not_false, if_true]
        cases hr : climb right next.precedence c with
        | failed => rfl
        | done right' c' =>
          exact ih c'.rest.length (hn ▸ climb_lt hop (lt_irrefl _) hr) _ _ rfl

/-- The reader as one loop: the right operand of an operator takes all that binds more tightly. -/
theorem climb_eq_readAtLeast (left : Expr) (p : Precedence) (c : Cursor) :
    climb left p c = match BinaryOp.peek? c with
      | none => .done left c
      | some op =>
        if op.precedence.rank < p.rank then .done left c
        else (readAtLeast op.kind.above (op.skip c)).andThen fun right c₁ =>
          climb (join op left right) p c₁ := by
  rw [climb_eq]
  cases BinaryOp.peek? c with
  | none => rfl
  | some op =>
    simp only [readAtLeast, Reading.andThen_assoc, climbRight_eq_climb]

end Expr

end CurveGuess
