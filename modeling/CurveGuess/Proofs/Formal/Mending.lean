import CurveGuess.Proofs.Formal.Meaning
import CurveGuess.Proofs.Grammar.Scan

/-!
# Broken input in the formal spelling

Which broken texts have a formal spelling that is accepted: those that are mended when needless
multiplication signs go, when the brace that closes the parenthesis of a square root is read as one
that matches, and when a lone backslash belongs to the name after it. The formal pieces and the
mended ones are compared in one pass over both.
-/
namespace CurveGuess

namespace Spelling

/-- Puts a lone backslash and the name after it together, when nothing but multiplication signs
stands between them. `isWaiting` tells that the backslash came before. -/
def joinNames (isWaiting : Bool) : List Token → List Token
  | [] => []
  | t :: ts =>
    if isWaiting then
      if t.kind = .mul then joinNames true ts
      else ⟨if t.lexeme = "cdot" then .cdot else .command, "\\" ++ t.lexeme, t.start⟩ ::
        joinNames false ts
    else if joins t ts then joinNames true ts
    else t :: joinNames false ts

theorem joinNames_waiting {ts us : List Token} {u : Token}
    (h : ts.dropWhile (·.kind = .mul) = u :: us) :
    joinNames true ts =
      ⟨if u.lexeme = "cdot" then .cdot else .command, "\\" ++ u.lexeme, u.start⟩ ::
        joinNames false us := by
  induction ts with
  | nil => cases h
  | cons t ts ih =>
    rw [joinNames, if_pos rfl]
    by_cases ht : t.kind = .mul
    · rw [List.dropWhile_cons_of_pos (by simpa using ht)] at h
      rw [if_pos ht, ih h]
    · rw [List.dropWhile_cons_of_neg (by simpa using ht)] at h
      cases h
      rw [if_neg ht]

theorem exists_name_of_joins {t : Token} {ts : List Token} (h : joins t ts = true) :
    t.kind = .symbol ∧ t.lexeme = "\\" ∧ ∃ u us, ts.dropWhile (·.kind = .mul) = u :: us ∧
      us.length < ts.length ∧ u.kind = .name ∧ staysName (u :: us) = true := by
  rw [joins, Bool.and_eq_true, Bool.and_eq_true, decide_eq_true_eq, decide_eq_true_eq] at h
  obtain ⟨⟨hk, hl⟩, hs⟩ := h
  refine ⟨hk, hl, ?_⟩
  cases hd : ts.dropWhile (·.kind = .mul) with
  | nil => rw [hd] at hs; cases hs
  | cons u us =>
    rw [hd] at hs
    refine ⟨u, us, rfl, ?_, ?_, hs⟩
    · have hle := (List.dropWhile_sublist (·.kind = .mul) (l := ts)).length_le
      rw [hd, List.length_cons] at hle
      omega
    · rw [staysName, Bool.and_eq_true, decide_eq_true_eq] at hs
      exact hs.1

theorem joinNames_cons {t : Token} {ts : List Token} (h : joins t ts = false) :
    joinNames false (t :: ts) = t :: joinNames false ts := by
  simp [joinNames, h]

theorem joinNames_of_joins {t : Token} {ts : List Token} (h : joins t ts = true) :
    joinNames false (t :: ts) = joinNames true ts := by
  simp [joinNames, h]

/-- What others see of a token that comes next. -/
def outline (t : Token) : Bool × Bool × Option Char :=
  (t.kind = .openParen, t.kind.isSign, t.lexeme.toList.head?)

/-- A joined token looks from before as the backslash does. -/
theorem exists_outline {t : Token} {ts : List Token} (h : joins t ts = true) :
    ∃ u us, joinNames false (t :: ts) = u :: joinNames false us ∧ outline u = outline t ∧
      (u.kind = .command ∨ u.kind = .cdot) ∧ t.kind = .symbol := by
  obtain ⟨hk, hl, u, us, hd, -⟩ := exists_name_of_joins h
  refine ⟨_, us, by rw [joinNames_of_joins h, joinNames_waiting hd], ?_, ?_, hk⟩
  · rw [outline, outline, hk, hl]
    split <;> simp [Kind.isSign]
  · dsimp only
    split <;> simp

theorem outline_joinNames (ts : List Token) :
    (joinNames false ts).head?.map outline = ts.head?.map outline := by
  cases ts with
  | nil => rfl
  | cons t ts =>
    cases h : joins t ts with
    | true =>
      obtain ⟨u, us, hu, ho, -⟩ := exists_outline h
      rw [hu, List.head?_cons, List.head?_cons, Option.map_some, Option.map_some, ho]
    | false => rw [joinNames_cons h]; rfl

theorem outline_skipSpace (ts : List Token) :
    (skipSpace (joinNames false ts)).head?.map outline = (skipSpace ts).head?.map outline := by
  induction ts with
  | nil => rfl
  | cons t ts ih =>
    cases h : joins t ts with
    | true =>
      obtain ⟨u, us, hu, ho, hk, ht⟩ := exists_outline h
      have hspace : u.kind ≠ .whitespace := by rcases hk with hk | hk <;> simp [hk]
      have hspace' : t.kind ≠ .whitespace := by simp [ht]
      rw [hu, skipSpace_solid hspace, skipSpace_solid hspace', List.head?_cons, List.head?_cons,
        Option.map_some, Option.map_some, ho]
    | false =>
      rw [joinNames_cons h]
      by_cases ht : t.kind = .whitespace
      · rw [skipSpace_space ht, skipSpace_space ht, ih]
      · rw [skipSpace_solid ht, skipSpace_solid ht]
        rfl

theorem comes_joinNames (ts : List Token) :
    comes .openParen (joinNames false ts) = comes .openParen ts := by
  have hcomes : ∀ us : List Token, comes .openParen us =
      ((skipSpace us).head?.map outline).any (·.1) := by
    intro us
    rw [comes]
    cases (skipSpace us).head? <;> rfl
  rw [hcomes, hcomes, outline_skipSpace]

theorem productSign_joinNames (last : Option Char) (ts : List Token) :
    productSign last (joinNames false ts) = productSign last ts := by
  have h := outline_skipSpace ts
  rw [productSign, productSign]
  cases hl : (skipSpace (joinNames false ts)).head? <;> cases hr : (skipSpace ts).head? <;>
    rw [hl, hr] at h
  · cases h
  · cases h
  · simp only [Option.map_some, Option.some.injEq, outline, Prod.mk.injEq] at h
    simp only [h.2.1, h.2.2]

theorem tail_joinNames {ts : List Token} (h : comes .openParen ts = true) :
    (skipSpace (joinNames false ts)).tail = joinNames false (skipSpace ts).tail := by
  induction ts with
  | nil => cases h
  | cons t ts ih =>
    cases hj : joins t ts with
    | true =>
      have ht := (exists_name_of_joins hj).1
      simp [comes, skipSpace, Token.isSpace, ht] at h
    | false =>
      rw [joinNames_cons hj]
      by_cases ht : t.kind = .whitespace
      · rw [comes, skipSpace_space ht] at h
        rw [skipSpace_space ht, skipSpace_space ht]
        exact ih h
      · rw [skipSpace_solid ht, skipSpace_solid ht]
        rfl

theorem formalStep_joinNames (last : Option Char) (groups : List FormalGroup) (t : Token)
    (ts : List Token) :
    (formalStep last groups t (joinNames false ts)).text = (formalStep last groups t ts).text ∧
      (formalStep last groups t (joinNames false ts)).groups =
        (formalStep last groups t ts).groups ∧
      (formalStep last groups t (joinNames false ts)).rest =
        joinNames false (formalStep last groups t ts).rest := by
  unfold formalStep
  split
  · rw [comes_joinNames]
    split
    · next hcomes =>
      split
      · exact ⟨rfl, rfl, tail_joinNames hcomes⟩
      · exact ⟨rfl, rfl, rfl⟩
    · exact ⟨rfl, rfl, rfl⟩
  · exact ⟨productSign_joinNames last ts, rfl, rfl⟩
  all_goals exact ⟨rfl, rfl, rfl⟩

theorem formalStep_of_staysName {last : Option Char} {groups : List FormalGroup} {t : Token}
    {ts : List Token} (hname : t.kind = .name) (h : staysName (t :: ts) = true) :
    formalStep last groups t ts = ⟨t.lexeme.toList, groups, ts⟩ := by
  rw [formalStep, hname]
  dsimp only
  cases hcomes : comes .openParen ts with
  | false => rfl
  | true =>
    have htext : calleeText t.lexeme = t.lexeme := by
      rw [staysName, hcomes, hname] at h
      have hcallee : callee t.piece = t.piece := by simpa using h
      have htext := congrArg Piece.text hcallee
      simpa [callee, Token.piece, String.toList_inj] using htext
    by_cases hroot : t.lexeme = "sqrt"
    · rw [hroot] at htext
      exact absurd htext (by decide)
    · rw [calleeText, if_neg hroot] at htext
      rw [if_pos rfl, if_neg hroot, htext]

/-- After a backslash the multiplication signs go. -/
theorem formalFrom_backslash {groups : List FormalGroup} {ts us : List Token} {u : Token}
    (hd : ts.dropWhile (·.kind = .mul) = u :: us) (hname : u.kind = .name)
    (hstay : staysName (u :: us) = true) :
    formalFrom (some '\\') groups ts =
      u.lexeme.toList ++ formalFrom (lastVisible (some '\\') u.lexeme.toList) groups us := by
  induction ts with
  | nil => cases hd
  | cons t ts ih =>
    by_cases ht : t.kind = .mul
    · rw [List.dropWhile_cons_of_pos (by simpa using ht)] at hd
      have hsign : productSign (some '\\') ts = [] := by
        obtain ⟨v, vs, rfl, hspace, hv⟩ : ∃ v vs, ts = v :: vs ∧ v.kind ≠ .whitespace ∧
            v.kind.isSign = false := by
          cases ts with
          | nil => cases hd
          | cons v vs =>
            by_cases hv : v.kind = .mul
            · exact ⟨v, vs, rfl, by simp [hv], by rw [hv]; rfl⟩
            · rw [List.dropWhile_cons_of_neg (by simpa using hv)] at hd
              cases hd
              exact ⟨u, us, rfl, by simp [hname], by rw [hname]; rfl⟩
        have hnum : isNumberChar '\\' = false := by decide
        have hlet : Lexer.isLetter '\\' = false := by decide
        rw [productSign, skipSpace_solid hspace]
        cases hb : v.lexeme.toList.head? <;> simp [hv, hnum, hlet, hb]
      rw [formalFrom_cons, formalStep, ht]
      dsimp only
      rw [hsign, List.nil_append, lastVisible_nil, ih hd]
    · rw [List.dropWhile_cons_of_neg (by simpa using ht)] at hd
      cases hd
      rw [formalFrom_cons, formalStep_of_staysName hname hstay]

/-- A name as text: letters, and at least one. -/
theorem letters_of_name {u : Token} (h : u.piece.Valid) (hname : u.kind = .name) :
    u.lexeme.toList ≠ [] ∧ ∀ c ∈ u.lexeme.toList, Lexer.isLetter c = true := by
  obtain ⟨b, w, htext, hfirst⟩ := h
  have hspell := Lexer.first_spells hfirst
  rw [Token.kind_piece, hname] at hspell
  rw [Token.text_piece] at htext
  rw [htext]
  exact ⟨List.cons_ne_nil b w, hspell⟩

/-- The text does not change when a name is joined to the backslash before it. -/
theorem formalFrom_joinNames {ts : List Token} (h : Lexed ts) (last : Option Char)
    (groups : List FormalGroup) :
    formalFrom last groups (joinNames false ts) = formalFrom last groups ts := by
  induction hm : ts.length using Nat.strongRecOn generalizing last groups ts with
  | _ m ih =>
    cases ts with
    | nil => rfl
    | cons t ts =>
      rw [List.length_cons] at hm
      cases hj : joins t ts with
      | true =>
        obtain ⟨hk, hl, u, us, hd, hlt, hname, hstay⟩ := exists_name_of_joins hj
        have hu := h.2.2.dropWhile (·.kind = .mul)
        rw [hd] at hu
        obtain ⟨hne, hletters⟩ := letters_of_name hu.1 hname
        obtain ⟨a, ha, hla⟩ := getLast?_of_forall hne hletters
        have hblank := not_isBlank (.inl hla)
        have hlast : lastVisible last ("\\" ++ u.lexeme).toList =
            lastVisible (some '\\') u.lexeme.toList := by
          rw [lastVisible_of_getLast? ha hblank, String.toList_append]
          exact lastVisible_of_getLast? (by rw [List.getLast?_append, ha]; rfl) hblank
        have hstep : ∀ k, (k = .command ∨ k = .cdot) → ∀ vs,
            formalStep last groups ⟨k, "\\" ++ u.lexeme, u.start⟩ vs =
              ⟨("\\" ++ u.lexeme).toList, groups, vs⟩ := by
          rintro k (rfl | rfl) vs <;> rfl
        have hstep' : formalStep last groups t ts = ⟨['\\'], groups, ts⟩ := by
          rw [formalStep, hk, hl]
          rfl
        have hback : lastVisible last ['\\'] = some '\\' := rfl
        rw [joinNames_of_joins hj, joinNames_waiting hd, formalFrom_cons,
          hstep _ (by split <;> simp), formalFrom_cons last groups t ts, hstep']
        dsimp only
        rw [hback, formalFrom_backslash hd hname hstay, hlast, ih _ (by omega) hu.2.2 _ _ rfl,
          String.toList_append]
        rfl
      | false =>
        obtain ⟨htext, hgroups, hrest⟩ := formalStep_joinNames last groups t ts
        have hle := length_formalStep_le last groups t ts
        rw [joinNames_cons hj, formalFrom_cons, formalFrom_cons last groups t ts, htext, hgroups,
          hrest, ih _ (by omega) (lexed_rest h.2.2) _ _ rfl]

theorem lexed_joinNames {ts : List Token} (h : Lexed ts) : Lexed (joinNames false ts) := by
  induction hm : ts.length using Nat.strongRecOn generalizing ts with
  | _ m ih =>
    cases ts with
    | nil => exact h
    | cons t ts =>
      rw [List.length_cons] at hm
      have hhead : ∀ {us : List Token} {v : Token}, v ∈ (joinNames false us).head? →
          ∃ v' ∈ us.head?, v'.lexeme.toList.head? = v.lexeme.toList.head? := by
        intro us v hv
        have ho := outline_joinNames us
        rw [Option.mem_def.mp hv, Option.map_some, eq_comm, Option.map_eq_some_iff] at ho
        obtain ⟨v', hv', he⟩ := ho
        exact ⟨v', hv', congrArg (·.2.2) he⟩
      cases hj : joins t ts with
      | true =>
        obtain ⟨-, -, u, us, hd, hlt, hname, -⟩ := exists_name_of_joins hj
        have hu := h.2.2.dropWhile (·.kind = .mul)
        rw [hd] at hu
        obtain ⟨hne, hletters⟩ := letters_of_name hu.1 hname
        have hcdot : (u.lexeme = "cdot") = (u.lexeme.toList = ['c', 'd', 'o', 't']) :=
          propext String.toList_inj.symm
        rw [joinNames_of_joins hj, joinNames_waiting hd]
        refine ⟨?_, ?_, ih _ (by omega) hu.2.2 rfl⟩
        · have hvalid := Piece.valid_command hne hletters
          simpa [Token.piece, hcdot, String.toList_append] using hvalid
        · intro v hv c hc
          obtain ⟨v', hv', he⟩ := hhead hv
          have htakes := hu.2.1 v' hv' c (he ▸ hc)
          rw [Piece.takes, Token.kind_piece, hname] at htakes
          by_cases hdot : u.lexeme = "cdot" <;> simpa [Piece.takes, Token.piece, hdot] using htakes
      | false =>
        rw [joinNames_cons hj]
        refine ⟨h.1, ?_, ih _ (by omega) h.2.2 rfl⟩
        intro v hv c hc
        obtain ⟨v', hv', he⟩ := hhead hv
        exact h.2.1 v' hv' c (he ▸ hc)

theorem staysName_joinNames {ts : List Token}
    (h : staysName ((joinNames false ts).dropWhile (·.kind = .mul)) = true) :
    staysName (ts.dropWhile (·.kind = .mul)) = true := by
  induction ts with
  | nil => exact h
  | cons t ts ih =>
    cases hj : joins t ts with
    | true =>
      obtain ⟨u, us, hu, -, hk, -⟩ := exists_outline hj
      rw [hu, List.dropWhile_cons_of_neg (by rcases hk with hk | hk <;> simp [hk])] at h
      rcases hk with hk | hk <;> simp [staysName, hk] at h
    | false =>
      rw [joinNames_cons hj] at h
      by_cases ht : t.kind = .mul
      · rw [List.dropWhile_cons_of_pos (by simpa using ht)] at h ⊢
        exact ih h
      · rw [List.dropWhile_cons_of_neg (by simpa using ht)] at h ⊢
        rwa [staysName, comes_joinNames] at h

/-- What was joined does not join again. -/
theorem separate_joinNames (ts : List Token) : Separate (joinNames false ts) := by
  induction hm : ts.length using Nat.strongRecOn generalizing ts with
  | _ m ih =>
    cases ts with
    | nil => trivial
    | cons t ts =>
      rw [List.length_cons] at hm
      cases hj : joins t ts with
      | true =>
        obtain ⟨-, -, u, us, hd, hlt, -⟩ := exists_name_of_joins hj
        rw [joinNames_of_joins hj, joinNames_waiting hd]
        refine ⟨?_, ih _ (by omega) us rfl⟩
        rw [joins]
        dsimp only
        split <;> rfl
      | false =>
        rw [joinNames_cons hj]
        refine ⟨?_, ih _ (by omega) ts rfl⟩
        rw [← Bool.not_eq_true] at hj ⊢
        intro h
        rw [joins, Bool.and_eq_true] at h hj
        exact hj ⟨h.1, staysName_joinNames h.2⟩

/-- Is a multiplication sign before the pieces `ts` needed? One is before a sign and, after a
product sign of the other spelling, before a name. -/
def isNeeded (afterDot : Bool) (ts : List Piece) : Bool :=
  ts.head?.any (·.kind.isSign) || afterDot && nextIs .name ts

/-- The pieces without the multiplication signs that are not needed and with the parentheses of a
square root as braces. `afterDot` tells that a product sign of the other spelling came last. -/
def mend (afterDot afterRoot : Bool) (groups : List FormalGroup) : List Piece → List Piece
  | [] => []
  | t :: ts =>
    if t.kind = .mul then
      if isNeeded afterDot ts then t :: mend false false groups ts
      else mend afterDot false groups ts
    else
      bracket afterRoot groups t ::
        mend (t.kind = .cdot) (isRoot t) (groupsAfter afterRoot groups t) ts

open Stage

/-- What the last character says about the stage. -/
structure Agrees (last : Option Char) (afterDot : Bool) (stage : Stage) : Prop where
  letter : ∀ a ∈ last, Lexer.isLetter a = true → afterDot = true ∨ stage ≠ .operand
  number : ∀ a ∈ last, isNumberChar a = true → stage ≠ .operand
  dot : afterDot = true → last = some 't' ∧ stage = .operand

/-- The pass does the same over the formal pieces and over the mended ones. -/
def Mends (ts : List Piece) : Prop :=
  ∀ (last : Option Char) (afterDot afterRoot : Bool) (stage : Stage), Agrees last afterDot stage →
    ∀ groups brackets, scan stage brackets (formalPieces last afterRoot groups ts) =
      scan stage brackets (mend afterDot afterRoot groups ts)

theorem step_of_isName {stage : Stage} {brackets : List Bracket} {t : Piece}
    (h : t.isName = true) : stage.step brackets t = some (.operator t.isCallable, brackets) := by
  cases stage <;> cases hk : t.kind <;> simp_all [Piece.isName, step, begin, Kind.isSign]

/-- After a piece that may come the last character agrees with the stage. -/
theorem agrees_step {w : Piece} (hw : w.Valid) (hmul : w.kind ≠ .mul) (last : Option Char)
    {stage stage' : Stage} {brackets brackets' : List Bracket}
    (h : stage.step brackets w = some (stage', brackets')) :
    Agrees (lastVisible last w.text) (w.kind = .cdot) stage' := by
  have hspell := hw.spells
  have hoperator : ∀ b, w.kind ≠ .cdot → stage' = .operator b →
      Agrees (lastVisible last w.text) (w.kind = .cdot) stage' := by
    rintro b hdot rfl
    exact ⟨fun _ _ _ => .inr (by simp), fun _ _ _ => by simp,
      fun hd => absurd (by simpa using hd) hdot⟩
  have hlone : ∀ b, w.kind ≠ .cdot → w.text = [b] → isBlank b = false →
      Lexer.isLetter b = false ∧ isNumberChar b = false →
      Agrees (lastVisible last w.text) (w.kind = .cdot) stage' := by
    rintro b hdot hb hblank ⟨hl, hn⟩
    rw [hb, lastVisible_of_getLast? rfl hblank]
    refine ⟨?_, ?_, fun hd => absurd (by simpa using hd) hdot⟩
    · rintro a ⟨⟩ ha
      rw [hl] at ha
      cases ha
    · rintro a ⟨⟩ ha
      rw [hn] at ha
      cases ha
  cases hk : w.kind <;> rw [hk] at hspell
  case name | command | int | float =>
    refine hk ▸ hoperator w.isCallable (by simp [hk]) ?_
    cases stage <;> simp_all [step, begin, Kind.isSign]
  case whitespace | symbol =>
    cases stage <;> simp [step, begin, hk, Kind.isSign] at h
  case mul => exact absurd hk hmul
  case cdot =>
    have hstage : stage' = .operand := by
      cases stage <;> simp_all [step, begin, Kind.isSign]
    rw [show w.text = _ from hspell, hstage]
    refine ⟨fun _ _ _ => .inl rfl, ?_, fun _ => ⟨rfl, rfl⟩⟩
    rintro a ⟨⟩ ha
    cases ha
  all_goals exact hk ▸ hlone _ (by simp [hk]) hspell (by decide) (by decide)

/-- A piece and what is written for it make the same step, and afterwards the last character agrees
with the stage. -/
theorem step_written {t : Piece} (ht : t.Valid) (hmul : t.kind ≠ .mul) (last : Option Char)
    (afterRoot : Bool) (groups : List FormalGroup) (ts : List Piece) :
    ∃ w, written last afterRoot groups t ts = some w ∧ w.Valid ∧ w.kind ≠ .mul ∧
      (w.kind = .cdot ↔ t.kind = .cdot) ∧ ∀ (stage : Stage) brackets,
        stage.step brackets w = stage.step brackets (bracket afterRoot groups t) := by
  by_cases hname : t.kind = .name
  · have hbracket : bracket afterRoot groups t = t := by simp [bracket, hname]
    have hself : t.Valid ∧ t.kind ≠ .mul ∧ (t.kind = .cdot ↔ t.kind = .cdot) ∧
        ∀ (stage : Stage) brackets, stage.step brackets t = stage.step brackets t :=
      ⟨ht, hmul, Iff.rfl, fun _ _ => rfl⟩
    refine ⟨_, by rw [written, hname], ?_⟩
    rw [hbracket]
    split
    · rcases callee_cases hname with hc | ⟨hc, hcall, -⟩
      · rw [hc]
        exact hself
      · refine ⟨(callee_valid ht hname).1, by simp [hc], by simp [hc, hname], ?_⟩
        intro stage brackets
        rw [step_of_isName (Piece.isName_of_isCallable hcall), hcall,
          step_of_isName (by simp [Piece.isName, hc])]
        simp [Piece.isCallable, hc]
    · exact hself
  · obtain ⟨hvalid, -, -⟩ := bracket_valid afterRoot groups ht
    refine ⟨bracket afterRoot groups t, ?_, hvalid, ?_, ?_, fun _ _ => rfl⟩
    · unfold written
      split <;> simp_all
    all_goals
      unfold bracket
      split
      · split <;> simp_all
      · split <;> simp_all
      · simp [hmul]

theorem scan_mend_cons {u : Piece} {us : List Piece} (hu : u.Valid) (hmul : u.kind ≠ .mul)
    (ih : Mends us) (last : Option Char) (afterDot afterRoot : Bool) (groups : List FormalGroup)
    {s₁ s₂ : Stage} {brackets : List Bracket}
    (hstep : s₁.step brackets (bracket afterRoot groups u) =
      s₂.step brackets (bracket afterRoot groups u)) :
    scan s₁ brackets (formalPieces last afterRoot groups (u :: us)) =
      scan s₂ brackets (mend afterDot afterRoot groups (u :: us)) := by
  obtain ⟨w, hw, hvalid, hwmul, hdot, hsame⟩ :=
    step_written hu hmul last afterRoot groups us
  rw [formalPieces_cons, hw, mend, if_neg hmul]
  simp only [Option.toList_some, List.singleton_append, Option.elim_some, scan]
  rw [← hstep, ← hsame]
  cases hs : s₁.step brackets w with
  | none => rfl
  | some r =>
    obtain ⟨stage', brackets'⟩ := r
    have hagrees := agrees_step hvalid hwmul last hs
    rw [decide_eq_decide.mpr hdot] at hagrees
    exact ih _ _ _ _ hagrees _ _

/-- The first character of a piece tells names and numbers. -/
theorem exists_head {u : Piece} (hu : u.Valid) : ∃ b, u.text.head? = some b ∧
    (u.kind = .name ↔ Lexer.isLetter b = true) ∧
    (isNumberChar b = true → u.kind = .int ∨ u.kind = .float ∨ u.kind = .symbol) := by
  obtain ⟨b, w, htext, hfirst⟩ := hu
  refine ⟨b, by rw [htext]; rfl, ⟨?_, ?_⟩, ?_⟩
  · intro hname
    have hspell := Lexer.first_spells hfirst
    rw [hname] at hspell
    exact hspell b List.mem_cons_self
  · intro hl
    have hkind : Lexer.first b w = (.name, Lexer.run Lexer.isLetter w) := by
      simp [Lexer.first, not_isSpace (.inl hl), hl]
    rw [hkind] at hfirst
    exact (Prod.mk.inj hfirst).1.symm
  · intro hn
    rw [isNumberChar, Bool.or_eq_true, decide_eq_true_eq] at hn
    rcases hn with hd | rfl
    · have hn : isNumberChar b = true := by rw [isNumberChar, hd]; rfl
      have hkind : Lexer.first b w = Lexer.number w := by
        simp [Lexer.first, hd, not_isSpace (.inr hn), isLetter_of_isNumberChar hn]
      rw [hkind] at hfirst
      have hk := Lexer.number_kind w
      rw [hfirst] at hk
      exact hk.imp_right .inl
    · have hkind : Lexer.first '.' w = _ := Lexer.point_eq w
      rw [hfirst] at hkind
      have hk := (Prod.mk.inj hkind).1
      split at hk
      · exact .inr (.inr hk)
      · exact .inr (.inl hk)

/-- A product sign after an operand may come again before the next one. -/
theorem step_operator {u : Piece} (hname : u.kind = .name ∨ u.kind = .int ∨ u.kind = .float ∨
    u.kind = .symbol) (c : Bool) (brackets : List Bracket) :
    Stage.operand.step brackets u = (Stage.operator c).step brackets u := by
  rcases hname with hk | hk | hk | hk <;> simp [step, begin, hk, Kind.isSign]

/-- Where an operand has to come, a product is refused in either spelling. -/
theorem scan_product_operand {t : Piece} (ht : t.kind = .mul) (brackets : List Bracket)
    (ps qs : List Piece) :
    scan .operand brackets (productPiece :: ps) = scan .operand brackets (t :: qs) := by
  rw [scan_refused (step_operand_eq_none rfl rfl),
    scan_refused (step_operand_eq_none (by rw [ht]; rfl) (by rw [ht]; rfl))]

/-- A multiplication sign that is needed is written as a product sign. -/
theorem scan_needed {t u : Piece} {us : List Piece} (ht : t.kind = .mul) (hu : u.Valid)
    (hmul : u.kind ≠ .mul) (ih : Mends us) (stage : Stage) (last : Option Char)
    (groups : List FormalGroup) (brackets : List Bracket) :
    scan stage brackets (productPiece :: formalPieces last false groups (u :: us)) =
      scan stage brackets (t :: mend false false groups (u :: us)) := by
  cases stage with
  | operand => exact scan_product_operand ht brackets _ _
  | operator c =>
    have hk : t.kind.operator? = some (.mul, false) := by rw [ht]; rfl
    rw [scan_cons (step_of_operator? (t := productPiece) rfl), scan_cons (step_of_operator? hk)]
    exact scan_mend_cons hu hmul ih _ _ _ _ rfl

/-- A product sign that is written only to keep characters apart may go. -/
theorem scan_needless {u : Piece} {us : List Piece} (hu : u.Valid)
    (hk : u.kind = .name ∨ u.kind = .int ∨ u.kind = .float ∨ u.kind = .symbol) (ih : Mends us)
    (c : Bool) (last : Option Char) (groups : List FormalGroup) (brackets : List Bracket) :
    scan (.operator c) brackets (productPiece :: formalPieces last false groups (u :: us)) =
      scan (.operator c) brackets (mend false false groups (u :: us)) := by
  have hbracket : bracket false groups u = u := by
    rcases hk with hk | hk | hk | hk <;> simp [bracket, hk]
  have hmul : u.kind ≠ .mul := by rcases hk with hk | hk | hk | hk <;> rw [hk] <;> decide
  rw [scan_cons (step_of_operator? (t := productPiece) rfl)]
  exact scan_mend_cons hu hmul ih _ _ _ _ (by rw [hbracket, step_operator hk])

theorem exists_last_of_writesSign {last : Option Char} {u : Piece} {us : List Piece} {b : Char}
    (hsign : u.kind.isSign = false) (hb : u.text.head? = some b)
    (h : writesSign last (u :: us) = true) :
    ∃ a, last = some a ∧ (isNumberChar a = true ∧ isNumberChar b = true ∨
      Lexer.isLetter a = true ∧ Lexer.isLetter b = true) := by
  cases last with
  | none => simp [writesSign, hsign] at h
  | some a => exact ⟨a, rfl, by simpa [writesSign, hsign, hb] using h⟩

theorem scan_mend_mul {t u : Piece} {us : List Piece} (ht : t.kind = .mul) (hu : u.Valid)
    (ih : Mends us) (ih' : Mends (u :: us)) : Mends (t :: u :: us) := by
  intro last afterDot afterRoot stage hs groups brackets
  rw [formalPieces_mul ht, mend, if_pos ht]
  obtain ⟨b, hb, hletter, hnumber⟩ := exists_head hu
  cases hsign : u.kind.isSign with
  | true =>
    have hwrites : writesSign last (u :: us) = true := by simp [writesSign, hsign]
    have hneeded : isNeeded afterDot (u :: us) = true := by simp [isNeeded, hsign]
    have hmul : u.kind ≠ .mul := by rintro hk; rw [hk] at hsign; cases hsign
    rw [if_pos hwrites, if_pos hneeded]
    exact scan_needed ht hu hmul ih _ _ _ _
  | false =>
    have hneeded : isNeeded afterDot (u :: us) = (afterDot && u.kind = .name) := by
      simp [isNeeded, hsign, nextIs]
    rw [hneeded]
    by_cases hw : writesSign last (u :: us) = true
    · rw [if_pos hw]
      obtain ⟨a, rfl, hab⟩ := exists_last_of_writesSign hsign hb hw
      cases afterDot with
      | true =>
        -- the last character is the `t` of the other product sign
        obtain ⟨hlast, rfl⟩ := hs.dot rfl
        cases hlast
        have hname := hletter.mpr (hab.resolve_left fun h => absurd h.1 (by decide)).2
        rw [hname]
        exact scan_product_operand ht brackets _ _
      | false =>
        have hstage : stage ≠ .operand := by
          rcases hab with ⟨ha, -⟩ | ⟨ha, -⟩
          · exact hs.number a rfl ha
          · exact (hs.letter a rfl ha).resolve_left (by decide)
        rw [Bool.false_and, if_neg (by decide)]
        cases stage with
        | operand => exact absurd rfl hstage
        | operator c =>
          refine scan_needless hu ?_ ih _ _ _ _
          exact hab.elim (fun h => .inr (hnumber h.2)) fun h => .inl (hletter.mpr h.2)
    · rw [if_neg hw]
      have hdot : (afterDot && u.kind = .name) = false := by
        rw [← Bool.not_eq_true]
        intro h
        rw [Bool.and_eq_true, decide_eq_true_eq] at h
        obtain ⟨rfl, -⟩ := hs.dot h.1
        have ht : Lexer.isLetter 't' = true := by decide
        exact hw (by simp [writesSign, hb, hletter.mp h.2, ht])
      rw [hdot, if_neg (by decide)]
      exact ih' last afterDot false stage hs groups brackets

theorem mends {ts : List Piece} (h : ∀ t ∈ ts, t.Valid) : Mends ts := by
  induction hm : ts.length using Nat.strongRecOn generalizing ts with
  | _ m ih =>
    cases ts with
    | nil =>
      intro _ _ _ _ _ _ _
      rfl
    | cons t ts =>
      rw [List.length_cons] at hm
      have ht := h t List.mem_cons_self
      have h' : ∀ u ∈ ts, u.Valid := fun u hu => h u (List.mem_cons_of_mem t hu)
      have ih' := ih ts.length (by omega) h' rfl
      by_cases hmul : t.kind = .mul
      · cases ts with
        | nil =>
          intro last afterDot afterRoot stage _ groups brackets
          have hneeded : isNeeded afterDot [] = false := by simp [isNeeded, nextIs]
          rw [formalPieces_mul hmul, mend, if_pos hmul, hneeded]
          rfl
        | cons u us =>
          rw [List.length_cons] at hm
          have hus := ih us.length (by omega) (fun v hv => h' v (List.mem_cons_of_mem u hv)) rfl
          exact scan_mend_mul hmul (h' u List.mem_cons_self) hus ih'
      · intro last afterDot afterRoot stage _ groups brackets
        exact scan_mend_cons ht hmul ih' last afterDot afterRoot groups rfl

/-- The tokens of a text as they are left when it is mended. -/
def mended (ts : List Token) : List Piece := mend false false [] (pieces (joinNames false ts))

theorem scan_toFormal (s : String) :
    scan .operand [] (pieces (tokens (toFormal s))) = scan .operand [] (mended (tokens s)) := by
  have hlexed : Lexed (tokens s) := lexed_tokensFrom 0 s.toList
  have hjoined : Lexed (joinNames false (tokens s)) := lexed_joinNames hlexed
  have hpieces : pieces (tokens (toFormal s)) =
      formalPieces none false [] (pieces (joinNames false (tokens s))) := by
    rw [← visible_formalFrom hjoined (separate_joinNames _)]
    rw [formalFrom_joinNames hlexed, tokens, toFormal, String.toList_ofList]
    rfl
  have hagrees : Agrees none false .operand := by constructor <;> simp
  rw [hpieces, mended]
  exact mends (valid_of_mem_pieces hjoined) none false false .operand hagrees [] []

end Spelling

/-- Are the pieces derived as a formula? -/
def IsFormula (ts : List Piece) : Prop := ∃ e, Nonempty (Derivation .sum ts [] [e])

open Spelling

theorem exists_parse_iff (s : String) : (∃ t, parse s = .ok t) ↔ IsFormula (pieces (tokens s)) := by
  constructor
  · rintro ⟨t, h⟩
    exact ⟨t.shape, parse_eq_ok.mp ⟨t, h, rfl⟩⟩
  · rintro ⟨e, h⟩
    obtain ⟨t, h, -⟩ := parse_eq_ok.mpr h
    exact ⟨t, h⟩

theorem exists_parse_toFormal_iff (s : String) :
    (∃ t, parse (toFormal s) = .ok t) ↔ IsFormula (mended (tokens s)) := by
  rw [exists_parse_iff, IsFormula, IsFormula, ← scan_iff, ← scan_iff, scan_toFormal]

/-- A broken text stays broken in the formal spelling exactly if mending it does not make a formula
of it. -/
theorem toFormal_keeps_broken (s : String) :
    ((∀ t, parse s ≠ .ok t) → ∀ t, parse (toFormal s) ≠ .ok t) ↔
      (IsFormula (mended (tokens s)) → IsFormula (pieces (tokens s))) := by
  rw [← exists_parse_toFormal_iff, ← exists_parse_iff, ← not_exists, ← not_exists]
  constructor
  · intro h hmended
    exact Classical.byContradiction fun hbroken => h hbroken hmended
  · intro h hbroken hmended
    exact hbroken (h hmended)

/-- A power with two stars is broken, but without them two factors are left. -/
theorem toFormal_mends_stars :
    ¬∀ s : String, (∀ t, parse s ≠ .ok t) → ∀ t, parse (toFormal s) ≠ .ok t := by
  intro h
  have hbroken : (parse "x**2").isOk = false := by decide +kernel
  have hmended : (parse (toFormal "x**2")).isOk = true := by decide +kernel
  have hrejected := h "x**2" fun t ht => by rw [ht] at hbroken; cases hbroken
  cases hp : parse (toFormal "x**2") with
  | error f => rw [hp] at hmended; cases hmended
  | ok t => exact hrejected t hp

end CurveGuess
