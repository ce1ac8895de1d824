import CurveGuess.Proofs.Grammar.Completeness

/-!
# One pass over the pieces

Whether pieces are a formula can be told from left to right, with one piece at a time and the
brackets that are open. Between operands and operators nothing else has to be remembered, but for
whether the last operand was a name that a parenthesis would call.
-/
namespace CurveGuess

/-- A bracket that is open. Only the arguments of a call are separated by commas. -/
inductive Bracket where
  | paren
  | brace
  | arguments
  deriving DecidableEq, Repr

/-- What may come next: an operand, or else what goes on after one. -/
inductive Stage where
  | operand
  | operator (isCallable : Bool)
  deriving DecidableEq, Repr

namespace Stage

/-- What comes of the first piece of an operand. -/
def begin (t : Piece) (bracket : Bracket) (brackets : List Bracket) :
    Option (Stage × List Bracket) :=
  match t.kind with
  | .int | .float | .name | .command => some (operator t.isCallable, brackets)
  | .openParen => some (operand, bracket :: brackets)
  | .openBrace => some (operand, .brace :: brackets)
  | _ => none

/-- What comes of a piece that ends what is inside a bracket. -/
def finish (k : Kind) (brackets : List Bracket) : Option (Stage × List Bracket) :=
  match k, brackets with
  | .closeParen, .paren :: rest | .closeParen, .arguments :: rest | .closeBrace, .brace :: rest =>
    some (operator false, rest)
  | .comma, .arguments :: _ => some (operand, brackets)
  | _, _ => none

/-- What comes of a piece, if it may come. -/
def step (stage : Stage) (brackets : List Bracket) (t : Piece) : Option (Stage × List Bracket) :=
  match stage with
  | operand => if t.kind.isSign then some (operand, brackets) else begin t .paren brackets
  | operator isCallable =>
    match t.kind with
    | .add | .sub | .mul | .cdot | .div | .exp => some (operand, brackets)
    | .closeParen | .closeBrace | .comma => finish t.kind brackets
    | _ => begin t (if isCallable then .arguments else .paren) brackets

/-- Do the pieces end a formula inside the brackets? -/
def scan (stage : Stage) (brackets : List Bracket) : List Piece → Bool
  | [] => stage ≠ operand && brackets = []
  | t :: ts =>
    match stage.step brackets t with
    | some (stage, brackets) => scan stage brackets ts
    | none => false

/-- Where some pieces lead to, if all of them may come. -/
def run (stage : Stage) (brackets : List Bracket) : List Piece → Option (Stage × List Bracket)
  | [] => some (stage, brackets)
  | t :: ts => (stage.step brackets t).bind fun next => run next.1 next.2 ts

theorem run_cons {stage stage' : Stage} {brackets brackets' : List Bracket} {t : Piece}
    (h : stage.step brackets t = some (stage', brackets')) (ts : List Piece) :
    run stage brackets (t :: ts) = run stage' brackets' ts := by
  rw [run, h, Option.bind_some]

theorem run_append {stage stage' : Stage} {brackets brackets' : List Bracket} {ts : List Piece}
    (h : run stage brackets ts = some (stage', brackets')) (us : List Piece) :
    run stage brackets (ts ++ us) = run stage' brackets' us := by
  induction ts generalizing stage brackets with
  | nil =>
    obtain ⟨rfl, rfl⟩ := Prod.mk.inj (Option.some.inj h)
    rfl
  | cons t ts ih =>
    obtain ⟨⟨stage₁, brackets₁⟩, ht, h⟩ := Option.bind_eq_some_iff.mp h
    rw [List.cons_append, run_cons ht, ih h]

theorem scan_append {stage stage' : Stage} {brackets brackets' : List Bracket} {ts : List Piece}
    (h : run stage brackets ts = some (stage', brackets')) (us : List Piece) :
    scan stage brackets (ts ++ us) = scan stage' brackets' us := by
  induction ts generalizing stage brackets with
  | nil =>
    obtain ⟨rfl, rfl⟩ := Prod.mk.inj (Option.some.inj h)
    rfl
  | cons t ts ih =>
    obtain ⟨⟨stage₁, brackets₁⟩, ht, h⟩ := Option.bind_eq_some_iff.mp h
    rw [List.cons_append, scan, ht]
    exact ih h

end Stage

open Stage

variable {i m r ts : List Piece} {t u v : Piece} {brackets : List Bracket} {c : Bool}

theorem step_sign (h : t.kind.isSign = true) :
    step .operand brackets t = some (.operand, brackets) := by
  rw [step, if_pos h]

theorem step_number (h : t.kind.isNumber = true) :
    step .operand brackets t = some (.operator false, brackets) := by
  cases hk : t.kind <;> simp_all [Kind.isNumber, Kind.isSign, step, begin, Piece.isCallable]

theorem step_name (h : t.isName = true) :
    step .operand brackets t = some (.operator t.isCallable, brackets) := by
  cases hk : t.kind <;> simp_all [Piece.isName, Kind.isSign, step, begin]

/-- The bracket that a delimiter of a group opens. -/
def bracketOf : Delimiter → Bracket
  | .paren => .paren
  | .brace => .brace

theorem step_open {d : Delimiter} (h : t.kind = d.openKind) :
    step .operand brackets t = some (.operand, bracketOf d :: brackets) := by
  cases d <;> simp_all [Delimiter.openKind, Kind.isSign, step, begin, bracketOf]

theorem step_close {d : Delimiter} (h : t.kind = d.closeKind) :
    step (.operator c) (bracketOf d :: brackets) t = some (.operator false, brackets) := by
  cases d <;> simp_all [Delimiter.closeKind, step, finish, bracketOf]

/-- The bracket that a delimiter opens after a name that it calls. -/
def callBracket : Delimiter → Bracket
  | .paren => .arguments
  | .brace => .brace

theorem step_openCall {d : Delimiter} (h : t.kind = d.openKind) :
    step (.operator true) brackets t = some (.operand, callBracket d :: brackets) := by
  cases d <;> simp_all [Delimiter.openKind, step, begin, callBracket]

theorem step_comma (h : t.kind = .comma) :
    step (.operator c) (.arguments :: brackets) t = some (.operand, .arguments :: brackets) := by
  simp [h, step, finish]

theorem step_closeArguments (h : t.kind = .closeParen) :
    step (.operator c) (.arguments :: brackets) t = some (.operator false, brackets) := by
  simp [h, step, finish]

/-- An operand begins as well after another one, but for a parenthesis that calls it. -/
theorem step_juxtaposed (h : t.kind.startsOperand = true) (hc : c = true → t.kind ≠ .openParen) :
    step (.operator c) brackets t = step .operand brackets t := by
  cases c <;> cases hk : t.kind <;>
    simp_all [Kind.startsOperand, Kind.isNumber, Kind.isOpening, Kind.isSign, step, begin]

theorem step_of_operator? {k : BinaryKind} (h : t.kind.operator? = some (k, false)) :
    step (.operator c) brackets t = some (.operand, brackets) := by
  cases hk : t.kind <;>
    simp_all [Kind.operator?, Kind.startsOperand, Kind.isNumber, Kind.isOpening, step]

theorem step_operand_eq_none (h : t.kind.isSign = false) (h' : t.kind.startsOperand = false) :
    step .operand brackets t = none := by
  cases hk : t.kind <;> simp_all [Kind.startsOperand, Kind.isNumber, Kind.isOpening, Kind.isSign,
    step, begin]

theorem step_end_eq_none (h : t.kind.operator? = none) : step (.operator c) [] t = none := by
  cases hk : t.kind <;> simp_all [Kind.operator?, Kind.startsOperand, Kind.isNumber,
    Kind.isOpening, step, finish, begin]

theorem step_close_eq_none {d : Delimiter} (h : t.kind.operator? = none)
    (hd : t.kind ≠ d.closeKind) : step (.operator c) (bracketOf d :: brackets) t = none := by
  cases d <;> cases hk : t.kind <;> simp_all [Kind.operator?, Kind.startsOperand, Kind.isNumber,
    Kind.isOpening, step, finish, begin, bracketOf, Delimiter.closeKind]

theorem step_closeArguments_eq_none (h : t.kind.operator? = none) (hparen : t.kind ≠ .closeParen)
    (hcomma : t.kind ≠ .comma) : step (.operator c) (.arguments :: brackets) t = none := by
  cases hk : t.kind <;> simp_all [Kind.operator?, Kind.startsOperand, Kind.isNumber,
    Kind.isOpening, step, finish, begin]

theorem scan_cons {stage stage' : Stage} {brackets' : List Bracket}
    (h : stage.step brackets t = some (stage', brackets')) :
    scan stage brackets (t :: ts) = scan stage' brackets' ts :=
  scan_append (run_cons h []) ts

theorem scan_refused {stage : Stage} (h : stage.step brackets t = none) (ts : List Piece) :
    scan stage brackets (t :: ts) = false := by
  rw [scan, h]

theorem scan_sign (h : t.kind.isSign = true) :
    scan .operand brackets (t :: ts) = scan .operand brackets ts := scan_cons (step_sign h)

theorem scan_number (h : t.kind.isNumber = true) :
    scan .operand brackets (t :: ts) = scan (.operator false) brackets ts :=
  scan_cons (step_number h)

theorem scan_name (h : t.isName = true) :
    scan .operand brackets (t :: ts) = scan (.operator t.isCallable) brackets ts :=
  scan_cons (step_name h)

theorem scan_open {d : Delimiter} (h : t.kind = d.openKind) :
    scan .operand brackets (t :: ts) = scan .operand (bracketOf d :: brackets) ts :=
  scan_cons (step_open h)

theorem scan_openArguments (h : t.kind = .openParen) :
    scan (.operator true) brackets (t :: ts) = scan .operand (.arguments :: brackets) ts :=
  scan_cons (step_openCall (d := .paren) h)

theorem scan_operator (h : t.kind.startsOperand = true) (hc : c = true → t.kind ≠ .openParen) :
    scan (.operator c) brackets (t :: ts) = scan .operand brackets (t :: ts) := by
  rw [scan, step_juxtaposed h hc, ← scan]

/-- Only a group makes a difference after a name. -/
theorem scan_uncalled (h : c = true → Piece.opens ts = false) :
    scan (.operator c) brackets ts = scan (.operator false) brackets ts := by
  cases c with
  | false => rfl
  | true =>
    cases ts with
    | nil => rfl
    | cons t ts =>
      have hopen := h rfl
      cases hk : t.kind <;> simp_all [Piece.opens, Kind.isOpening, scan, step, begin]

/-- An operator after an operand, with a piece of its own or without one. -/
theorem scan_of_operator? {k : BinaryKind} {b : Bool} (h : t.kind.operator? = some (k, b))
    (brackets : List Bracket) (ts : List Piece) :
    scan (.operator false) brackets (t :: ts) =
      scan .operand brackets (if b then t :: ts else ts) := by
  cases b with
  | true =>
    rw [if_pos rfl]
    refine scan_operator ?_ (by simp)
    cases hk : t.kind <;>
      simp_all [Kind.operator?, Kind.startsOperand, Kind.isNumber, Kind.isOpening]
  | false => exact scan_cons (step_of_operator? h)

/-- From the pieces `i` the pass comes to `r`, and there it goes on as after an operand. -/
def Leads (stage : Stage) (brackets : List Bracket) (i : List Piece) (stage' : Stage)
    (brackets' : List Bracket) (r : List Piece) : Prop :=
  ∃ m, i = m ++ r ∧ run stage brackets m = some (stage', brackets')

namespace Leads

variable {s s₁ s₂ : Stage} {bs bs₁ bs₂ : List Bracket}

theorem cons (h : s.step bs t = some (s₁, bs₁)) (h₁ : Leads s₁ bs₁ i s₂ bs₂ r) :
    Leads s bs (t :: i) s₂ bs₂ r := by
  obtain ⟨m, rfl, hm⟩ := h₁
  exact ⟨t :: m, rfl, (run_cons h m).trans hm⟩

theorem one (h : s.step bs t = some (s₁, bs₁)) : Leads s bs (t :: r) s₁ bs₁ r :=
  ⟨[t], rfl, run_cons h []⟩

theorem trans (h : Leads s bs i s₁ bs₁ m) (h₁ : Leads s₁ bs₁ m s₂ bs₂ r) :
    Leads s bs i s₂ bs₂ r := by
  obtain ⟨m, rfl, hm⟩ := h
  obtain ⟨n, rfl, hn⟩ := h₁
  exact ⟨m ++ n, (List.append_assoc ..).symm, (run_append hm n).trans hn⟩

/-- An operand that follows another one without a sign. -/
theorem juxtaposed (ht : t.kind.startsOperand = true) (hc : c = true → t.kind ≠ .openParen)
    (h : Leads .operand bs (t :: i) s₁ bs₁ r) (hlt : r.length < (t :: i).length) :
    Leads (.operator c) bs (t :: i) s₁ bs₁ r := by
  obtain ⟨m, heq, hm⟩ := h
  cases m with
  | nil => exact absurd hlt (by rw [heq]; exact Nat.lt_irrefl _)
  | cons u m =>
    obtain ⟨rfl, -⟩ := List.cons.inj heq
    rw [run, ← step_juxtaposed ht hc, ← run] at hm
    exact ⟨t :: m, heq, hm⟩

end Leads

theorem Derivation.length_lt {p : Part} {es : List Shape} (d : Derivation p i r es) :
    r.length < i.length := by
  induction d <;> (try simp only [List.length_cons] at *) <;> omega

/-- What is derived leads from an operand to what may follow one. -/
theorem Derivation.leads {p : Part} {es : List Shape} (d : Derivation p i r es) :
    ∃ c, (c = true → Piece.opens r = false) ∧ ∀ brackets,
      Leads .operand (if p = .arguments then .arguments :: brackets else brackets) i
        (.operator c) brackets r := by
  induction d with
  | ofProduct _ ih | ofSigned _ ih | ofPower _ ih | ofPrimary _ ih => exact ih
  | @add i t m r a b k _ hk _ ih₁ ih₂ =>
    obtain ⟨c₁, -, h₁⟩ := ih₁
    obtain ⟨c₂, hc₂, h₂⟩ := ih₂
    exact ⟨c₂, hc₂, fun brackets => (h₁ brackets).trans
      (.cons (step_of_operator? (operator?_of_sumKind? hk).1) (h₂ brackets))⟩
  | @mul i t m r a b k _ hk _ ih₁ ih₂ =>
    obtain ⟨c₁, -, h₁⟩ := ih₁
    obtain ⟨c₂, hc₂, h₂⟩ := ih₂
    exact ⟨c₂, hc₂, fun brackets => (h₁ brackets).trans
      (.cons (step_of_operator? (operator?_of_productKind? hk).1) (h₂ brackets))⟩
  | juxtapose _ d₂ ih₁ ih₂ =>
    obtain ⟨c₁, hc₁, h₁⟩ := ih₁
    obtain ⟨c₂, hc₂, h₂⟩ := ih₂
    obtain ⟨t, ts, rfl, ht⟩ := d₂.head
    have hparen : c₁ = true → t.kind ≠ .openParen := by
      intro hc hk
      have hopen := hc₁ hc
      rw [Piece.opens_cons, hk] at hopen
      cases hopen
    exact ⟨c₂, hc₂, fun brackets => (h₁ brackets).trans
      (.juxtaposed (by simpa using ht) hparen (h₂ brackets) d₂.length_lt)⟩
  | sign hk _ ih =>
    obtain ⟨c, hc, h⟩ := ih
    exact ⟨c, hc, fun brackets => .cons (step_sign (Kind.isSign_of_signKind? hk)) (h brackets)⟩
  | @raise i t m r a b _ hk _ ih₁ ih₂ =>
    obtain ⟨c₁, -, h₁⟩ := ih₁
    obtain ⟨c₂, hc₂, h₂⟩ := ih₂
    have ho : t.kind.operator? = some (.exp, false) := by rw [hk]; rfl
    exact ⟨c₂, hc₂, fun brackets =>
      (h₁ brackets).trans (.cons (step_of_operator? ho) (h₂ brackets))⟩
  | number h => exact ⟨false, by simp, fun brackets => .one (step_number h)⟩
  | group hd _ hu ih =>
    obtain ⟨c, -, h⟩ := ih
    exact ⟨false, by simp, fun brackets => .cons (step_open (Delimiter.eq_openKind hd))
      ((h _).trans (.one (step_close hu)))⟩
  | symbol h hs => exact ⟨_, hs, fun brackets => .one (step_name h)⟩
  | @braceCall t u v m r e ht hu _ hv ih =>
    obtain ⟨c, -, h⟩ := ih
    refine ⟨false, by simp, fun brackets => .cons (step_name (Piece.isName_of_isCallable ht)) ?_⟩
    rw [ht]
    exact .cons (step_openCall (d := .brace) hu)
      ((h (.brace :: brackets)).trans (.one (step_close (d := .brace) hv)))
  | @parenCall t u m r es ht hu _ ih =>
    obtain ⟨c, hc, h⟩ := ih
    refine ⟨c, hc, fun brackets => .cons (step_name (Piece.isName_of_isCallable ht)) ?_⟩
    rw [ht]
    exact .cons (step_openCall (d := .paren) hu) (h brackets)
  | lastArgument _ hv ih =>
    obtain ⟨c, -, h⟩ := ih
    exact ⟨false, by simp, fun brackets => (h (.arguments :: brackets)).trans
      (.one (step_closeArguments hv))⟩
  | nextArgument _ hv _ ih ih' =>
    obtain ⟨c₁, -, h₁⟩ := ih
    obtain ⟨c₂, hc₂, h₂⟩ := ih'
    exact ⟨c₂, hc₂, fun brackets => (h₁ (.arguments :: brackets)).trans
      (.cons (step_comma hv) (h₂ brackets))⟩

theorem Derivation.scan_eq {p : Part} {es : List Shape} (d : Derivation p i r es)
    (brackets : List Bracket) :
    scan .operand (if p = .arguments then .arguments :: brackets else brackets) i =
      scan (.operator false) brackets r := by
  obtain ⟨c, hc, h⟩ := d.leads
  obtain ⟨m, rfl, hm⟩ := h brackets
  rw [scan_append hm, scan_uncalled hc]

theorem operator?_eq_none (h : Stops .any (v :: r)) : v.kind.operator? = none := by
  cases ho : v.kind.operator? with
  | none => rfl
  | some o => exact absurd (h o (by simp [Piece.operator?, ho])) (Nat.not_lt_zero _)

theorem eq_nil_of_stops (h : Stops .any m) (hs : scan (.operator false) [] m = true) : m = [] := by
  cases m with
  | nil => rfl
  | cons v r =>
    rw [scan_refused (step_end_eq_none (operator?_eq_none h))] at hs
    cases hs

/-- A group goes on to its end. -/
theorem closes_of_stops {d : Delimiter} (h : Stops .any m)
    (hs : scan (.operator false) (bracketOf d :: brackets) m = true) :
    ∃ v r, m = v :: r ∧ v.kind = d.closeKind ∧ scan (.operator false) brackets r = true := by
  cases m with
  | nil => simp [scan] at hs
  | cons v r =>
    by_cases hv : v.kind = d.closeKind
    · rw [scan_cons (step_close hv)] at hs
      exact ⟨v, r, rfl, hv, hs⟩
    · rw [scan_refused (step_close_eq_none (operator?_eq_none h) hv)] at hs
      cases hs

/-- An argument goes on to its end. -/
theorem closesArgument_of_stops (h : Stops .any m)
    (hs : scan (.operator false) (.arguments :: brackets) m = true) :
    ∃ v r, m = v :: r ∧ (v.kind = .closeParen ∧ scan (.operator false) brackets r = true ∨
      v.kind = .comma ∧ scan .operand (.arguments :: brackets) r = true) := by
  cases m with
  | nil => simp [scan] at hs
  | cons v r =>
    refine ⟨v, r, rfl, ?_⟩
    by_cases hparen : v.kind = .closeParen
    · rw [scan_cons (step_closeArguments hparen)] at hs
      exact .inl ⟨hparen, hs⟩
    by_cases hcomma : v.kind = .comma
    · rw [scan_cons (step_comma hcomma)] at hs
      exact .inr ⟨hcomma, hs⟩
    · rw [scan_refused (step_closeArguments_eq_none (operator?_eq_none h) hparen hcomma)] at hs
      cases hs

/-- What the pass accepts begins with a part of any precedence, if it has fewer than `n` pieces. -/
def DerivedBelow (n : Nat) : Prop :=
  ∀ (p : Precedence) (i : List Piece) (brackets : List Bracket), i.length < n →
    scan .operand brackets i = true → ∃ e r, Nonempty (Derivation p.part i r [e]) ∧
      Stops p r ∧ scan (.operator false) brackets r = true

/-- The operators that bind tightly enough are taken one after the other. -/
theorem Ready.exists_derivation {n : Nat} (H : DerivedBelow n) {p : Precedence} {left : Shape}
    (hl : Ready p i m left) (hn : m.length < n) (h : scan (.operator false) brackets m = true) :
    ∃ e r, Nonempty (Derivation p.part i r [e]) ∧ Stops p r ∧
      scan (.operator false) brackets r = true := by
  induction hm : m.length using Nat.strong_induction_on generalizing m left with
  | _ l ih =>
    by_cases hs : Stops p m
    · exact ⟨left, m, hl.1, hs, h⟩
    · obtain ⟨t, ts, k, b, rfl, ho, hp⟩ := not_stops hs
      rw [scan_of_operator? ho] at h
      have hle : (if b then t :: ts else ts).length ≤ (t :: ts).length := by
        split <;> simp
      obtain ⟨right, r, hr, hstop, h⟩ := H k.above _ brackets (by omega) h
      have hlt := hr.some.length_lt
      exact ih r.length (by omega) (hl.join ho hp hr hstop) (by omega) h rfl

/-- The arguments of a call. -/
theorem exists_arguments {n : Nat} (H : DerivedBelow n) (hn : i.length < n)
    (h : scan .operand (.arguments :: brackets) i = true) :
    ∃ es r, Nonempty (Derivation .arguments i r es) ∧ scan (.operator false) brackets r = true := by
  induction hm : i.length using Nat.strong_induction_on generalizing i with
  | _ l ih =>
    obtain ⟨e, m, ⟨d⟩, hstop, h⟩ := H .any i _ hn h
    obtain ⟨v, r, rfl, ⟨hv, h⟩ | ⟨hv, h⟩⟩ := closesArgument_of_stops hstop h
    · exact ⟨[e], r, ⟨.lastArgument d hv⟩, h⟩
    · have hlt := d.length_lt
      rw [List.length_cons] at hlt
      obtain ⟨es, r', ⟨d'⟩, h⟩ := ih r.length (by omega) (by omega) h rfl
      exact ⟨e :: es, r', ⟨.nextArgument d hv d'⟩, h⟩

/-- A name that a group calls. -/
theorem exists_call {n : Nat} (H : DerivedBelow n) (hn : i.length < n) (ht : t.isCallable = true)
    (hopens : Piece.opens i = true) (h : scan (.operator true) brackets i = true) :
    ∃ e r, Nonempty (Derivation .primary (t :: i) r [e]) ∧
      scan (.operator false) brackets r = true := by
  cases i with
  | nil => cases hopens
  | cons u m =>
    rw [List.length_cons] at hn
    by_cases hu : u.kind = .openParen
    · rw [scan_openArguments hu] at h
      obtain ⟨es, r, ⟨d⟩, h⟩ := exists_arguments H (by omega) h
      exact ⟨_, r, ⟨.parenCall ht hu d⟩, h⟩
    · have hbrace : u.kind = .openBrace := by
        simpa [Kind.isOpening, hu] using hopens
      rw [scan_operator (by rw [hbrace]; rfl) (fun _ => hu),
        scan_open (d := .brace) hbrace] at h
      obtain ⟨e, m', ⟨d⟩, hstop, h⟩ := H .any m _ (by omega) h
      obtain ⟨v, r, rfl, hv, h⟩ := closes_of_stops (d := .brace) hstop h
      exact ⟨_, r, ⟨.braceCall ht hbrace d hv⟩, h⟩

/-- An operand that begins without a sign. -/
theorem exists_primary {n : Nat} (H : DerivedBelow n) (hn : i.length < n)
    (h : scan .operand brackets (t :: i) = true) (hsign : t.kind.isSign = false) :
    ∃ e r, Nonempty (Derivation .primary (t :: i) r [e]) ∧
      scan (.operator false) brackets r = true := by
  by_cases hnum : t.kind.isNumber = true
  · rw [scan_number hnum] at h
    exact ⟨_, i, ⟨.number hnum⟩, h⟩
  by_cases hname : t.isName = true
  · rw [scan_name hname] at h
    by_cases hcall : t.isCallable = true ∧ Piece.opens i = true
    · rw [hcall.1] at h
      exact exists_call H hn hcall.1 hcall.2 h
    · have hopens : t.isCallable = true → Piece.opens i = false :=
        fun hc => Bool.eq_false_iff.mpr fun ho => hcall ⟨hc, ho⟩
      rw [scan_uncalled hopens] at h
      exact ⟨_, i, ⟨.symbol hname hopens⟩, h⟩
  · obtain ⟨d, hd⟩ : ∃ d, Delimiter.ofKind? t.kind = some d := by
      cases hk : t.kind <;> simp_all [Kind.isNumber, Kind.isSign, Piece.isName, scan, step, begin,
        Delimiter.ofKind?]
    rw [scan_open (Delimiter.eq_openKind hd)] at h
    obtain ⟨e, m, ⟨di⟩, hstop, h⟩ := H .any i _ hn h
    obtain ⟨v, r, rfl, hv, h⟩ := closes_of_stops hstop h
    exact ⟨_, r, ⟨.group hd di hv⟩, h⟩

theorem derivedBelow (n : Nat) : DerivedBelow n := by
  induction n with
  | zero =>
    intro p i brackets hn
    omega
  | succ n H =>
    intro p i brackets hn h
    cases i with
    | nil => cases h
    | cons t ts =>
      rw [List.length_cons] at hn
      cases hsign : t.kind.isSign with
      | true =>
        rw [scan_sign hsign] at h
        obtain ⟨k, hk⟩ : ∃ k, signKind? t.kind = some k := by
          cases hk : t.kind <;> simp_all [Kind.isSign, signKind?]
        obtain ⟨e, r, ⟨d⟩, hstop, h⟩ := H .sign ts brackets (by omega) h
        have hlt := d.length_lt
        exact Ready.exists_derivation H (.of_signed (.sign hk d) hstop) (by omega) h
      | false =>
        obtain ⟨e, r, ⟨d⟩, h⟩ := exists_primary H (by omega) h hsign
        have hlt := d.length_lt
        rw [List.length_cons] at hlt
        exact Ready.exists_derivation H (.of_primary d) (by omega) h

/-- The pass accepts exactly the formulas. -/
theorem scan_iff (i : List Piece) :
    scan .operand [] i = true ↔ ∃ e, Nonempty (Derivation .sum i [] [e]) := by
  constructor
  · intro h
    obtain ⟨e, r, d, hstop, h⟩ := derivedBelow (i.length + 1) .any i [] (Nat.lt_succ_self _) h
    rw [eq_nil_of_stops hstop h] at d
    exact ⟨e, d⟩
  · rintro ⟨e, ⟨d⟩⟩
    exact d.scan_eq []

end CurveGuess
