import CurveGuess.Proofs.Formal.Mending

/-!
# Broken input that stays broken

In a tidy text there is nothing to mend that matters: each multiplication sign stands between two
factors, no brace closes and no backslash stands alone before a name. If it is broken, then so is
its formal spelling. One pass goes over the pieces and over the mended ones at the same time, and
what differs is only what is open in a square root: the arguments of a call or a brace.
-/
namespace CurveGuess

open Stage

/-- What may come after the piece, wherever it may come itself. -/
def Piece.stageAfter (t : Piece) : Stage :=
  match t.kind with
  | .int | .float | .name | .command | .closeParen | .closeBrace => operator t.isCallable
  | _ => operand

theorem stage_eq_of_finish {k : Kind} {s : Stage} {bs bs' : List Bracket}
    (h : finish k bs = some (s, bs')) :
    s = if k = .comma then operand else operator false := by
  unfold finish at h
  split at h <;> simp_all

theorem stage_eq_of_step {s s' : Stage} {bs bs' : List Bracket} {t : Piece}
    (h : s.step bs t = some (s', bs')) : s' = t.stageAfter := by
  cases s <;> cases hk : t.kind <;>
    simp_all [step, begin, Piece.stageAfter, Piece.isCallable, Kind.isSign]
  all_goals exact stage_eq_of_finish h

namespace Spelling

/-- Does a multiplication sign at the stage `s` and before `ts` stand between two factors? It does
not if without it the parenthesis that follows would call the name before it. -/
def mayMultiply (s : Stage) (ts : List Piece) : Bool :=
  match s with
  | .operand => false
  | .operator isCallable => ts.head?.any fun u =>
    u.kind.isSign || u.kind.startsOperand && !(isCallable && u.kind = .openParen)

/-- Does each multiplication sign stand between two factors? -/
def multiplies (s : Stage) : List Piece → Bool
  | [] => true
  | t :: ts => (t.kind ≠ .mul || mayMultiply s ts) && multiplies t.stageAfter ts

/-- The brackets that are open in the mended pieces beside those that are open in the pieces. -/
inductive Beside : List FormalGroup → List Bracket → List Bracket → Prop where
  | nil : Beside [] [] []
  | paren {gs : List FormalGroup} {ms bs : List Bracket} :
      Beside gs ms bs → Beside (.paren :: gs) (.paren :: ms) (.paren :: bs)
  | arguments {gs : List FormalGroup} {ms bs : List Bracket} :
      Beside gs ms bs → Beside (.paren :: gs) (.arguments :: ms) (.arguments :: bs)
  | brace {gs : List FormalGroup} {ms bs : List Bracket} :
      Beside gs ms bs → Beside (.brace :: gs) (.brace :: ms) (.brace :: bs)
  | root {gs : List FormalGroup} {ms bs : List Bracket} :
      Beside gs ms bs → Beside (.root :: gs) (.brace :: ms) (.arguments :: bs)

namespace Beside

variable {gs : List FormalGroup} {ms ms' bs : List Bracket} {s s' : Stage} {t : Piece}
  {afterRoot : Bool}

/-- A piece that is no bracket leaves the brackets as they are. Only a comma looks at them, which
is refused in the braces of a square root. -/
theorem step_other (h : Beside gs ms bs) (hopen : t.kind.isOpening = false)
    (hclose : t.kind.isClosing = false) (hs : s.step ms t = some (s', ms')) :
    ms' = ms ∧ s.step bs t = some (s', bs) := by
  by_cases ht : t.kind = .comma
  · cases s with
    | operand => simp [step, begin, ht, Kind.isSign] at hs
    | operator c => cases h <;> simp_all [step, finish]
  · cases s <;> cases hk : t.kind <;>
      simp_all [step, begin, Kind.isSign, Kind.isOpening, Kind.isClosing]

theorem step_openParen (h : Beside gs ms bs) (ht : t.kind = .openParen)
    (hs : s.step ms t = some (s', ms')) :
    ∃ bs', s.step bs t = some (s', bs') ∧ Beside (.paren :: gs) ms' bs' := by
  cases s with
  | operand =>
    rw [step_open (d := .paren) ht] at hs ⊢
    cases hs
    exact ⟨_, rfl, h.paren⟩
  | operator c =>
    cases c with
    | false =>
      rw [step_juxtaposed (by rw [ht]; rfl) (by simp), step_open (d := .paren) ht] at hs ⊢
      cases hs
      exact ⟨_, rfl, h.paren⟩
    | true =>
      rw [step_openCall (d := .paren) ht] at hs ⊢
      cases hs
      exact ⟨_, rfl, h.arguments⟩

theorem step_openBrace (h : Beside gs ms bs) (ht : t.kind = .openBrace)
    (hs : s.step ms t = some (s', ms')) :
    ∃ bs', s.step bs t = some (s', bs') ∧ Beside (.brace :: gs) ms' bs' := by
  cases s <;> simp only [step, begin, ht, Kind.isSign] at hs ⊢ <;> cases hs <;>
    exact ⟨_, rfl, h.brace⟩

/-- The parenthesis of a square root begins its arguments, and the brace in its place a group. -/
theorem step_root (h : Beside gs ms bs) (ht : t.kind = .openParen)
    (hs : Stage.step (.operator true) ms (bracket true gs t) = some (s', ms')) :
    ∃ bs', Stage.step (.operator true) bs t = some (s', bs') ∧ Beside (.root :: gs) ms' bs' := by
  have hbrace : (bracket true gs t).kind = .openBrace := by simp [bracket, ht]
  rw [step_openCall (d := .brace) hbrace] at hs
  cases hs
  exact ⟨_, step_openCall (d := .paren) ht, h.root⟩

theorem step_closeParen (h : Beside gs ms bs) (ht : t.kind = .closeParen)
    (hs : s.step ms (bracket afterRoot gs t) = some (s', ms')) :
    ∃ bs', s.step bs t = some (s', bs') ∧ Beside gs.tail ms' bs' := by
  cases s with
  | operand =>
    simp only [bracket, ht] at hs
    split at hs <;> simp [step, begin, ht, Kind.isSign] at hs
  | operator c => cases h <;> simp_all [bracket, step, finish]

theorem step (h : Beside gs ms bs) (ht : t.kind ≠ .closeBrace)
    (hroot : afterRoot = true → s = .operator true)
    (hs : s.step ms (bracket afterRoot gs t) = some (s', ms')) :
    ∃ bs', s.step bs t = some (s', bs') ∧ Beside (groupsAfter afterRoot gs t) ms' bs' := by
  cases hk : t.kind
  case openParen =>
    rw [groupsAfter, hk]
    cases afterRoot with
    | true =>
      obtain rfl := hroot rfl
      exact h.step_root hk hs
    | false => exact h.step_openParen hk (by simpa [bracket, hk] using hs)
  case openBrace =>
    rw [groupsAfter, hk]
    exact h.step_openBrace hk (by simpa [bracket, hk] using hs)
  case closeParen =>
    rw [groupsAfter, hk]
    exact h.step_closeParen hk hs
  case closeBrace => exact absurd hk ht
  all_goals
    have hbracket : bracket afterRoot gs t = t := by rw [bracket, hk]
    rw [hbracket] at hs
    obtain ⟨rfl, hstep⟩ := h.step_other (by rw [hk]; rfl) (by rw [hk]; rfl) hs
    exact ⟨bs, hstep, by rwa [groupsAfter, hk]⟩

theorem eq_nil (h : Beside gs [] bs) : bs = [] := by
  cases h
  rfl

end Beside

/-- Between two factors it makes no difference whether a multiplication sign is kept. -/
theorem scan_mend_factor {t u : Piece} {us : List Piece} {c : Bool} (ht : t.kind = .mul)
    (h : mayMultiply (.operator c) (u :: us) = true) (afterRoot : Bool) (gs : List FormalGroup)
    (ms : List Bracket) :
    scan (.operator c) ms (mend false afterRoot gs (t :: u :: us)) =
      scan .operand ms (mend false false gs (u :: us)) := by
  have hoperator : t.kind.operator? = some (.mul, false) := by rw [ht]; rfl
  rw [mend, if_pos ht, isNeeded, Bool.false_and, Bool.or_false, List.head?_cons, Option.any_some]
  rw [mayMultiply, List.head?_cons, Option.any_some, Bool.or_eq_true, Bool.and_eq_true] at h
  cases hsign : u.kind.isSign with
  | true => rw [if_pos rfl, scan_cons (step_of_operator? hoperator)]
  | false =>
    obtain ⟨hstarts, hcall⟩ := h.resolve_left (by rw [hsign]; decide)
    have hmul : u.kind ≠ .mul := by
      rintro hk
      rw [hk] at hstarts
      cases hstarts
    have hbracket : bracket false gs u = u := by
      cases hk : u.kind <;> simp_all [bracket, Kind.startsOperand, Kind.isNumber, Kind.isOpening]
    rw [if_neg (by decide), mend, if_neg hmul, hbracket]
    exact scan_operator hstarts (by rintro rfl; simpa using hcall)

/-- If the pass accepts the mended pieces, then it accepts the pieces. -/
theorem scan_of_mend {ts : List Piece} (hclose : ∀ t ∈ ts, t.kind ≠ .closeBrace) {s : Stage}
    (hmul : multiplies s ts = true) {afterDot afterRoot : Bool}
    (hdot : afterDot = true → s = .operand) (hroot : afterRoot = true → s = .operator true)
    {gs : List FormalGroup} {ms bs : List Bracket} (h : Beside gs ms bs)
    (hs : scan s ms (mend afterDot afterRoot gs ts) = true) : scan s bs ts = true := by
  -- both passes are at the same stage, since the last piece alone tells it
  induction ts generalizing s afterDot afterRoot gs ms bs with
  | nil =>
    rw [mend, scan, Bool.and_eq_true, decide_eq_true_eq, decide_eq_true_eq] at hs
    obtain ⟨hstage, rfl⟩ := hs
    simp [scan, hstage, h.eq_nil]
  | cons t ts ih =>
    have ih := fun {s} => @ih (fun u hu => hclose u (List.mem_cons_of_mem t hu)) s
    rw [multiplies, Bool.and_eq_true] at hmul
    by_cases hk : t.kind = .mul
    · cases s with
      | operand => simp [hk, mayMultiply] at hmul
      | operator c =>
        cases ts with
        | nil => simp [hk, mayMultiply] at hmul
        | cons u us =>
          have hfactor : mayMultiply (.operator c) (u :: us) = true := by simpa [hk] using hmul.1
          obtain rfl : afterDot = false := by simpa using hdot
          have hafter : t.stageAfter = .operand := by rw [Piece.stageAfter, hk]
          rw [scan_mend_factor hk hfactor] at hs
          rw [scan_cons (step_of_operator? (by rw [hk]; rfl))]
          exact ih (hafter ▸ hmul.2) (by simp) (by simp) h hs
    · rw [mend, if_neg hk, scan] at hs
      cases hstep : s.step ms (bracket afterRoot gs t) with
      | none => simp [hstep] at hs
      | some next =>
        obtain ⟨s', ms'⟩ := next
        obtain ⟨bs', hstep', hbeside⟩ := h.step (hclose t List.mem_cons_self) hroot hstep
        obtain rfl := stage_eq_of_step hstep'
        rw [hstep] at hs
        rw [scan_cons hstep']
        refine ih hmul.2 (fun hdot => ?_) (fun hroot => ?_) hbeside hs
        · rw [decide_eq_true_eq] at hdot
          rw [Piece.stageAfter, hdot]
        · have hcall := isCallable_of_isRoot hroot
          rw [isRoot, Bool.and_eq_true, decide_eq_true_eq] at hroot
          rw [Piece.stageAfter, hroot.1, hcall]

theorem joinNames_eq_self {ts : List Token} (h : Separate ts) : joinNames false ts = ts := by
  induction ts with
  | nil => rfl
  | cons t ts ih => rw [joinNames_cons h.1, ih h.2]

end Spelling

open Spelling

/-- Is there nothing in the text to be mended that matters? -/
structure IsTidy (s : String) : Prop where
  /-- No backslash stands alone before a name. -/
  separate : Separate (tokens s)
  factors : multiplies .operand (pieces (tokens s)) = true
  not_closeBrace : ∀ t ∈ pieces (tokens s), t.kind ≠ .closeBrace

theorem IsTidy.isFormula_of_mended {s : String} (hs : IsTidy s)
    (h : IsFormula (mended (tokens s))) : IsFormula (pieces (tokens s)) := by
  rw [IsFormula, ← scan_iff, mended, joinNames_eq_self hs.separate] at h
  rw [IsFormula, ← scan_iff]
  exact scan_of_mend hs.not_closeBrace hs.factors (by simp) (by simp) .nil h

/-- A tidy text that is broken stays broken in the formal spelling. -/
theorem IsTidy.stays_broken {s : String} (hs : IsTidy s) (hbroken : ∀ t, parse s ≠ .ok t) :
    ∀ t, parse (toFormal s) ≠ .ok t := by
  rw [← not_exists, exists_parse_toFormal_iff]
  rw [← not_exists, exists_parse_iff] at hbroken
  exact fun h => hbroken (hs.isFormula_of_mended h)

example : IsTidy "2*(x+sqrt(-3*y)" :=
  ⟨separate_of_pieces (by decide +kernel), by decide +kernel, by decide +kernel⟩

end CurveGuess
