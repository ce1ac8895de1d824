import CurveGuess.Proofs.Formal.Pieces

/-!
# Reading the formal text

The formal text is put together from pieces, and a multiplication sign that was left out lets its
two neighbours touch. They never grow together: the sign stays between two numbers and two names.
One case is left, a lone backslash before the sign, which makes a command of the name after it.
-/
namespace CurveGuess

namespace Spelling

theorem isLetter_of_isNumberChar {c : Char} (h : isNumberChar c = true) :
    Lexer.isLetter c = false := by
  rw [isNumberChar, Bool.or_eq_true, decide_eq_true_eq] at h
  rcases h with h | rfl
  · exact Lexer.not_isLetter_of_isDigit h
  · decide

theorem not_isBlank {c : Char} (h : Lexer.isLetter c = true ∨ isNumberChar c = true) :
    isBlank c = false := by
  have hc : c.toNat = c.val.toNat := rfl
  simp only [isNumberChar, Lexer.isLetter, Lexer.isDigit, Bool.or_eq_true, Bool.and_eq_true,
    decide_eq_true_eq, Char.le_def, UInt32.le_iff_toNat_le] at h
  simp only [isBlank, blankCodes, List.contains_eq_mem, List.mem_cons, hc,
    decide_eq_false_iff_not, List.not_mem_nil, or_false, not_or]
  have h0 : ('0' : Char).val.toNat = 48 := rfl
  have h1 : ('9' : Char).val.toNat = 57 := rfl
  have h2 : ('a' : Char).val.toNat = 97 := rfl
  have h3 : ('A' : Char).val.toNat = 65 := rfl
  have h4 : ('z' : Char).val.toNat = 122 := rfl
  have h5 : ('Z' : Char).val.toNat = 90 := rfl
  rcases h with h | h | rfl
  · omega
  · omega
  · decide

theorem not_isSpace {c : Char} (h : Lexer.isLetter c = true ∨ isNumberChar c = true) :
    Lexer.isSpace c = false := by
  rw [isNumberChar, Bool.or_eq_true, decide_eq_true_eq] at h
  rcases h with h | h | rfl
  · exact Lexer.not_isSpace_of_isLetter h
  · exact Lexer.not_isSpace_of_isDigit h
  · decide

theorem lastVisible_of_getLast? {last : Option Char} {w : List Char} {a : Char}
    (h : w.getLast? = some a) (ha : isBlank a = false) : lastVisible last w = some a := by
  obtain ⟨w, rfl⟩ := List.getLast?_eq_some_iff.mp h
  simp [lastVisible, trimEnd, ha]

theorem getLast?_of_forall {p : Char → Bool} {w : List Char} (hw : w ≠ [])
    (h : ∀ c ∈ w, p c = true) : ∃ a, w.getLast? = some a ∧ p a = true :=
  ⟨w.getLast hw, List.getLast?_eq_some_getLast hw, h _ (List.getLast_mem hw)⟩

/-- What a token would take is like its own last character. -/
theorem getLast?_of_takes {t : Piece} {c : Char} (ht : t.Valid) (hk : t.kind ≠ .whitespace)
    (hc : t.takes c = true) :
    (∃ a, t.text.getLast? = some a ∧ (Lexer.isLetter a = true ∧ Lexer.isLetter c = true ∨
      isNumberChar a = true ∧ isNumberChar c = true)) ∨
    t.kind = .symbol ∧ t.text = ['\\'] ∧ Lexer.isLetter c = true := by
  obtain ⟨b, w, htext, hfirst⟩ := ht
  have hspell := Lexer.first_spells hfirst
  rw [Piece.takes] at hc
  rw [htext]
  split at hc
  · next h => exact absurd h hk
  · next h =>
    rw [h] at hspell
    obtain ⟨a, ha, hl⟩ := getLast?_of_forall (List.cons_ne_nil b w) hspell
    exact .inl ⟨a, ha, .inl ⟨hl, hc⟩⟩
  · next h =>
    rw [h] at hspell
    obtain ⟨u, hu, hne, -, hl⟩ := hspell
    obtain ⟨a, ha, hla⟩ := getLast?_of_forall hne hl
    cases hu
    exact .inl ⟨a, by rw [List.getLast?_cons, ha]; rfl, .inl ⟨hla, hc⟩⟩
  · next h =>
    rw [h] at hspell
    cases hspell
    exact .inl ⟨'t', rfl, .inl ⟨by decide, hc⟩⟩
  · next h =>
    rw [h] at hspell
    obtain ⟨a, ha, hd⟩ := getLast?_of_forall (List.cons_ne_nil b w) hspell
    exact .inl ⟨a, ha, .inr ⟨by simp [isNumberChar, hd], by simpa [isNumberChar] using hc⟩⟩
  · next h =>
    rw [h] at hspell
    obtain ⟨u, v, huv, -, -, hv⟩ := hspell
    rw [huv]
    refine .inl ?_
    have hall : ∀ c ∈ '.' :: v, isNumberChar c = true := by
      refine List.forall_mem_cons.mpr ⟨by decide, fun c hc => by simp [isNumberChar, hv c hc]⟩
    obtain ⟨a, ha, hd⟩ := getLast?_of_forall (List.cons_ne_nil _ _) hall
    refine ⟨a, by rw [List.getLast?_append, ha]; rfl, .inr ⟨hd, by simp [isNumberChar, hc]⟩⟩
  · next h =>
    rw [htext, Bool.or_eq_true, Bool.and_eq_true, Bool.and_eq_true, decide_eq_true_eq,
      decide_eq_true_eq] at hc
    rcases hc with ⟨hw, hd⟩ | ⟨hw, hl⟩
    · rw [hw]
      exact .inl ⟨'.', rfl, .inr ⟨by decide, by simp [isNumberChar, hd]⟩⟩
    · exact .inr ⟨h, hw, hl⟩
  · cases hc

theorem lastVisible_nil (last : Option Char) : lastVisible last [] = last := rfl

theorem lastVisible_space {last : Option Char} {w : List Char}
    (h : ∀ c ∈ w, Lexer.isSpace c = true) : lastVisible last w = last := by
  have hblank : ∀ c ∈ w.reverse, isBlank c = true := by
    intro c hc
    have hs := h c (List.mem_reverse.mp hc)
    simp only [Lexer.isSpace, Bool.or_eq_true, decide_eq_true_eq, or_assoc] at hs
    rcases hs with rfl | rfl | rfl | rfl <;> decide
  have hdrop : (w.reverse ++ []).dropWhile isBlank = [] := List.dropWhile_append_of_pos hblank
  rw [List.append_nil] at hdrop
  rw [lastVisible, trimEnd, hdrop]
  rfl

/-- After a multiplication sign a space is written where a name follows. -/
theorem productSign_eq (last : Option Char) {ts : List Token} (h : Lexed ts) :
    ∃ w, (w = [] ∨ w = [' ']) ∧
      productSign last ts = (if writesSign last (pieces ts) then productPiece.text ++ w else []) ∧
      (w = [] → writesSign last (pieces ts) → ∀ u ∈ (skipSpace ts).head?,
        ∀ c ∈ u.lexeme.toList.head?, Lexer.isLetter c = false) := by
  have hlexed := h.skipSpace
  rw [productSign, writesSign, head?_pieces]
  cases hs : skipSpace ts with
  | nil => exact ⟨[], .inl rfl, rfl, by simp⟩
  | cons u us =>
    rw [hs] at hlexed
    obtain ⟨⟨b, w, htext, hfirst⟩, -⟩ := hlexed
    rw [Token.text_piece] at htext
    have hsign : u.kind.isSign = true → Lexer.isLetter b = false := by
      intro hk
      have hspell := Lexer.first_spells hfirst
      rw [Token.kind_piece] at hspell
      rw [Kind.isSign, Bool.or_eq_true, decide_eq_true_eq, decide_eq_true_eq] at hk
      rcases hk with hk | hk <;> rw [hk] at hspell <;> cases hspell <;> rfl
    simp only [List.head?_cons, Option.map_some, Option.any_some, Token.kind_piece,
      Token.text_piece, productPiece, htext, Option.mem_some, forall_eq']
    by_cases hk : u.kind.isSign = true
    · exact ⟨[], .inl rfl, by simp [hk], fun _ _ => hsign hk⟩
    cases last with
    | none => exact ⟨[], .inl rfl, by simp [hk], by simp [hk]⟩
    | some a =>
      by_cases hnum : (isNumberChar a && isNumberChar b) = true
      · refine ⟨[], .inl rfl, by simp [hk, hnum], fun _ _ => ?_⟩
        exact isLetter_of_isNumberChar (Bool.and_eq_true _ _ ▸ hnum).2
      · by_cases hlet : (Lexer.isLetter a && Lexer.isLetter b) = true
        · exact ⟨[' '], .inr rfl, by simp [hk, hnum, hlet], by simp⟩
        · exact ⟨[], .inl rfl, by simp [hk, hnum, hlet], by simp [hk, hnum, hlet]⟩

/-- Does a name come first that is written as it is? -/
def staysName : List Token → Bool
  | [] => false
  | u :: us => u.kind = .name && (!comes .openParen us || callee u.piece = u.piece)

theorem formalFrom_cons (last : Option Char) (groups : List FormalGroup) (t : Token)
    (ts : List Token) : formalFrom last groups (t :: ts) =
      (formalStep last groups t ts).text ++ formalFrom
        (lastVisible last (formalStep last groups t ts).text) (formalStep last groups t ts).groups
        (formalStep last groups t ts).rest := by
  rw [formalFrom]

/-- What a token is written as begins as the token does or with no letter or digit. -/
theorem head_formalStep (last : Option Char) (groups : List FormalGroup) {t : Token}
    {ts : List Token} (h : Lexed (t :: ts)) (hmul : t.kind ≠ .mul) :
    ∃ b w, (formalStep last groups t ts).text = b :: w ∧
      (Lexer.isLetter b = true ∨ isNumberChar b = true →
        t.lexeme.toList.head? = some b ∧ t.kind ≠ .whitespace ∧
          (Lexer.isLetter b = true → staysName (t :: ts) = true)) := by
  obtain ⟨⟨b, w, htext, hfirst⟩, -⟩ := h
  have hspell := Lexer.first_spells hfirst
  rw [Token.kind_piece] at hspell
  rw [Token.text_piece] at htext
  unfold formalStep
  split
  · next hk =>
    split
    · next hcomes =>
      split
      · next hroot => exact ⟨_, _, rfl, fun hl => absurd hl (by decide)⟩
      · next hroot =>
        have hcallee : calleeText t.lexeme = formalName t.lexeme := if_neg hroot
        rcases calleeText_cases t.lexeme with hsame | ⟨v, hv⟩
        · refine ⟨b, w, by rw [← hcallee, hsame, htext], fun _ => ?_⟩
          refine ⟨by rw [htext]; rfl, by simp [hk], ?_⟩
          simp [staysName, hk, callee, hsame, Token.piece]
        · rw [hcallee] at hv
          exact ⟨_, _, hv, fun hl => absurd hl (by decide)⟩
    · next hcomes =>
      refine ⟨b, w, htext, fun _ => ⟨by rw [htext]; rfl, by simp [hk], ?_⟩⟩
      simp [staysName, hk, hcomes]
  · next hk => exact absurd hk hmul
  · exact ⟨_, _, rfl, fun hl => absurd hl (by decide)⟩
  · exact ⟨_, _, rfl, fun hl => absurd hl (by decide)⟩
  · split <;> exact ⟨_, _, rfl, fun hl => absurd hl (by decide)⟩
  · exact ⟨_, _, rfl, fun hl => absurd hl (by decide)⟩
  · next hname _ _ _ _ _ =>
    refine ⟨b, w, htext, fun hl => ⟨by rw [htext]; rfl, ?_, fun hletter => ?_⟩⟩
    · rintro hspace
      rw [hspace] at hspell
      have hb := hspell b List.mem_cons_self
      rw [not_isSpace hl] at hb
      cases hb
    · have hkind : Lexer.first b w = (.name, Lexer.run Lexer.isLetter w) := by
        simp [Lexer.first, not_isSpace hl, hletter]
      rw [hkind] at hfirst
      exact absurd (Prod.mk.inj hfirst).1.symm hname

/-- The text goes on with the next token that is not a multiplication sign, if it goes on with a
letter or a digit at all. -/
theorem head_formalFrom {last : Option Char} {groups : List FormalGroup} {ts : List Token}
    (h : Lexed ts) {c : Char} (hc : c ∈ (formalFrom last groups ts).head?)
    (hl : Lexer.isLetter c = true ∨ isNumberChar c = true) :
    ∃ u us, ts.dropWhile (·.kind = .mul) = u :: us ∧ c ∈ u.lexeme.toList.head? ∧
      u.kind ≠ .whitespace ∧ (Lexer.isLetter c = true → staysName (u :: us) = true) ∧
      (ts ≠ u :: us → writesSign last (u.piece :: pieces us) = false) := by
  induction ts generalizing last groups with
  | nil => simp [formalFrom] at hc
  | cons t ts ih =>
    rw [formalFrom_cons] at hc
    by_cases hmul : t.kind = .mul
    · obtain ⟨w, -, hw, -⟩ := productSign_eq last h.2.2
      have hstep : formalStep last groups t ts = ⟨productSign last ts, groups, ts⟩ := by
        rw [formalStep, hmul]
      rw [hstep] at hc
      dsimp only at hc
      rw [hw] at hc
      by_cases hwrite : writesSign last (pieces ts) = true
      · rw [if_pos hwrite] at hc
        cases hc
        exact absurd hl (by decide)
      · rw [if_neg hwrite, List.nil_append, lastVisible_nil] at hc
        obtain ⟨u, us, hdrop, hu, hspace, hstay, hwrites⟩ := ih h.2.2 hc
        refine ⟨u, us, ?_, hu, hspace, hstay, fun _ => ?_⟩
        · rw [List.dropWhile_cons_of_pos (by simpa using hmul), hdrop]
        · by_cases hts : ts = u :: us
          · rw [hts, pieces_cons, if_neg hspace] at hwrite
            exact Bool.eq_false_iff.mpr hwrite
          · exact hwrites hts
    · obtain ⟨b, w, htext, hb⟩ := head_formalStep last groups h hmul
      rw [htext] at hc
      cases hc
      obtain ⟨hhead, hspace, hstay⟩ := hb hl
      exact ⟨t, ts, List.dropWhile_cons_of_neg (by simpa using hmul), hhead, hspace, hstay,
        absurd rfl⟩

/-- A backslash, multiplication signs and a name stand together, so that the text has the command
of that name. -/
def joins (t : Token) (ts : List Token) : Bool :=
  t.kind = .symbol && t.lexeme = "\\" && staysName (ts.dropWhile (·.kind = .mul))

/-- Nothing joins. -/
def Separate : List Token → Prop
  | [] => True
  | t :: ts => joins t ts = false ∧ Separate ts

theorem Separate.tail_skipSpace {ts : List Token} (h : Separate ts) :
    Separate (skipSpace ts).tail := by
  induction ts with
  | nil => exact h
  | cons t ts ih =>
    by_cases ht : t.kind = .whitespace
    · rw [skipSpace_space ht]
      exact ih h.2
    · rw [skipSpace_solid ht]
      exact h.2

/-- Nothing that is written for `t` takes the first character after it. -/
theorem takes_formalFrom {t : Token} {ts : List Token} {p : Piece} (h : Lexed (t :: ts))
    (hs : joins t ts = false) (hp : p.Valid) (hspace : p.kind ≠ .whitespace)
    (hlike : p = t.piece ∨
      p.kind ≠ .symbol ∧ ∀ c, p.takes c = true → t.piece.takes c = true)
    {last : Option Char} {groups : List FormalGroup} :
    ∀ c ∈ (formalFrom (lastVisible last p.text) groups ts).head?, p.takes c = false := by
  intro c hc
  rw [← Bool.not_eq_true]
  intro hpc
  have hlast := getLast?_of_takes hp hspace hpc
  have hclass : Lexer.isLetter c = true ∨ isNumberChar c = true := by
    rcases hlast with ⟨a, -, ⟨-, hl⟩ | ⟨-, hl⟩⟩ | ⟨-, -, hl⟩
    · exact .inl hl
    · exact .inr hl
    · exact .inl hl
  obtain ⟨u, us, hdrop, hu, huspace, hstay, hwrites⟩ := head_formalFrom h.2.2 hc hclass
  by_cases hts : ts = u :: us
  · have hfalse := h.2.1 u (by rw [hts]; rfl) c hu
    rcases hlike with rfl | ⟨-, htakes⟩
    · exact absurd hpc (Bool.eq_false_iff.mp hfalse)
    · exact absurd (htakes c hpc) (Bool.eq_false_iff.mp hfalse)
  · have hw := hwrites hts
    rcases hlast with ⟨a, ha, hac⟩ | ⟨hk, htext, hl⟩
    · have hblank : isBlank a = false := not_isBlank (hac.imp And.left And.left)
      rw [lastVisible_of_getLast? ha hblank, writesSign, List.head?_cons, Option.any_some,
        Token.text_piece, Option.mem_def.mp hu] at hw
      rcases hac with ⟨hla, hlc⟩ | ⟨hna, hnc⟩ <;> simp_all
    · obtain rfl := hlike.resolve_right fun h => h.1 hk
      rw [Token.kind_piece] at hk
      have hlexeme : t.lexeme = "\\" := String.toList_inj.mp htext
      simp [joins, hdrop, hstay hl, hk, hlexeme] at hs

/-- A token that is written as the piece `p`. -/
theorem visible_written {t : Token} {ts : List Token} {p : Piece} (h : Lexed (t :: ts))
    (hs : joins t ts = false) (hp : p.Valid) (hspace : p.kind ≠ .whitespace)
    (hlike : p = t.piece ∨
      p.kind ≠ .symbol ∧ ∀ c, p.takes c = true → t.piece.takes c = true)
    (last : Option Char) (groups : List FormalGroup) :
    visible (p.text ++ formalFrom (lastVisible last p.text) groups ts) =
      p :: visible (formalFrom (lastVisible last p.text) groups ts) := by
  rw [visible_append hp _ (takes_formalFrom h hs hp hspace hlike), Piece.isSpace]
  simp [hspace]

/-- A name after a multiplication sign does not belong to it. -/
theorem takes_product {last : Option Char} {groups : List FormalGroup} {ts : List Token}
    (h : Lexed ts) (hletter : ∀ u ∈ (skipSpace ts).head?, ∀ c ∈ u.lexeme.toList.head?,
      Lexer.isLetter c = false) :
    ∀ c ∈ (formalFrom (lastVisible last productPiece.text) groups ts).head?,
      productPiece.takes c = false := by
  intro c hc
  rw [← Bool.not_eq_true]
  intro hl
  change Lexer.isLetter c = true at hl
  obtain ⟨u, us, -, hu, huspace, -, hwrites⟩ := head_formalFrom h hc (.inl hl)
  by_cases hts : ts = u :: us
  · have hskip : u ∈ (skipSpace ts).head? := by
      rw [hts, skipSpace_solid huspace]
      rfl
    rw [hletter u hskip c hu] at hl
    cases hl
  · have hw := hwrites hts
    rw [writesSign, List.head?_cons, Option.any_some, Token.text_piece, Option.mem_def.mp hu] at hw
    have hlast : lastVisible last productPiece.text = some 't' := rfl
    have ht : Lexer.isLetter 't' = true := by decide
    simp [hlast, hl, ht] at hw

/-- A token that is neither a name nor a multiplication sign. -/
theorem formalStep_eq {last : Option Char} {groups : List FormalGroup} {t : Token}
    {ts : List Token} (ht : t.piece.Valid) (hname : t.kind ≠ .name) (hmul : t.kind ≠ .mul) :
    formalStep last groups t ts =
      ⟨(bracket false groups t.piece).text, groupsAfter false groups t.piece, ts⟩ := by
  have hspell := ht.spells
  rw [Token.kind_piece, Token.text_piece] at hspell
  cases hk : t.kind <;> simp only [hk, Lexer.Spells] at hspell <;>
    simp_all [formalStep, bracket, groupsAfter]
  split
  · rfl
  · exact hspell.symm

theorem visible_space_cons {last : Option Char} {groups : List FormalGroup} {t : Token}
    {ts : List Token} (h : Lexed (t :: ts)) (hspace : t.kind = .whitespace) :
    visible (formalFrom last groups (t :: ts)) = visible (formalFrom last groups ts) := by
  have hall : ∀ c ∈ t.lexeme.toList, Lexer.isSpace c = true := by
    have hspell := h.1.spells
    rwa [Token.kind_piece, hspace] at hspell
  have hstep : formalStep last groups t ts = ⟨t.lexeme.toList, groups, ts⟩ := by
    rw [formalStep, hspace]
  rw [formalFrom_cons, hstep]
  dsimp only
  rw [visible_space hall, lastVisible_space hall]

theorem visible_mul_cons {last : Option Char} {groups : List FormalGroup} {t : Token}
    {ts : List Token} (h : Lexed (t :: ts)) (hmul : t.kind = .mul) :
    visible (formalFrom last groups (t :: ts)) =
      if writesSign last (pieces ts) then
        productPiece :: visible (formalFrom (lastVisible last productPiece.text) groups ts)
      else visible (formalFrom last groups ts) := by
  have hstep : formalStep last groups t ts = ⟨productSign last ts, groups, ts⟩ := by
    rw [formalStep, hmul]
  obtain ⟨w, hw, hsign, hletter⟩ := productSign_eq last h.2.2
  rw [formalFrom_cons, hstep]
  dsimp only
  by_cases hwrites : writesSign last (pieces ts) = true
  · rw [if_pos hwrites] at hsign ⊢
    have hlast : lastVisible last (productSign last ts) = lastVisible last productPiece.text := by
      rcases hw with rfl | rfl <;> rw [hsign] <;> rfl
    have hspaces : ∀ c ∈ w, Lexer.isSpace c = true := by
      rcases hw with rfl | rfl
      · exact List.forall_mem_nil _
      · exact List.forall_mem_singleton.mpr rfl
    have htakes : ∀ c ∈ (w ++ formalFrom (lastVisible last productPiece.text) groups ts).head?,
        productPiece.takes c = false := by
      rcases hw with rfl | rfl
      · exact takes_product h.2.2 (hletter rfl hwrites)
      · rintro c hc
        cases hc
        decide
    rw [hlast, hsign, List.append_assoc, visible_append ⟨_, _, rfl, by decide⟩ _ htakes,
      visible_space hspaces]
    rfl
  · rw [if_neg hwrites] at hsign ⊢
    rw [hsign, List.nil_append, lastVisible_nil]

theorem visible_root_cons {last : Option Char} {groups : List FormalGroup} {t : Token}
    {ts : List Token} (hname : t.kind = .name) (hroot : t.lexeme = "sqrt")
    (hcomes : nextIs .openParen (pieces ts) = true) :
    visible (formalFrom last groups (t :: ts)) =
      ⟨.command, ['\\', 's', 'q', 'r', 't']⟩ :: ⟨.openBrace, ['\x7b']⟩ ::
        visible (formalFrom (some '\x7b') (.root :: groups) (skipSpace ts).tail) := by
  have hstep : formalStep last groups t ts =
      ⟨['\\', 's', 'q', 'r', 't', '\x7b'], .root :: groups, (skipSpace ts).tail⟩ := by
    simp [formalStep, hname, hroot, comes_eq, hcomes]
  have hcommand : Piece.Valid ⟨.command, ['\\', 's', 'q', 'r', 't']⟩ := ⟨_, _, rfl, by decide⟩
  have hbrace : Piece.Valid ⟨.openBrace, ['\x7b']⟩ := ⟨_, _, rfl, by decide⟩
  rw [formalFrom_cons, hstep]
  have h₁ := visible_append hcommand ('\x7b' ::
    formalFrom (some '\x7b') (.root :: groups) (skipSpace ts).tail) (by simp; decide)
  have h₂ := visible_append hbrace
    (formalFrom (some '\x7b') (.root :: groups) (skipSpace ts).tail) (fun _ _ => rfl)
  exact h₁.trans (congrArg (List.cons _) h₂)

/-- A name that is not a square root with its parenthesis. -/
theorem visible_name_cons {last : Option Char} {groups : List FormalGroup} {t : Token}
    {ts : List Token} (h : Lexed (t :: ts)) (hs : joins t ts = false) (hname : t.kind = .name)
    (hroot : t.lexeme = "sqrt" → nextIs .openParen (pieces ts) = false) {p : Piece}
    (hp : p = if nextIs .openParen (pieces ts) then callee t.piece else t.piece) :
    visible (formalFrom last groups (t :: ts)) =
      p :: visible (formalFrom (lastVisible last p.text) groups ts) := by
  have hlike : p.Valid ∧ (p.kind = .name ∨ p.kind = .command) := by
    rw [hp]
    split
    · exact callee_valid h.1 hname
    · exact ⟨h.1, .inl hname⟩
  have hstep : formalStep last groups t ts = ⟨p.text, groups, ts⟩ := by
    rw [hp]
    by_cases hcomes : nextIs .openParen (pieces ts) = true
    · have hne : t.lexeme ≠ "sqrt" := fun he => by simp [hroot he] at hcomes
      simp [formalStep, hname, comes_eq, hcomes, hne, callee, calleeText, Token.piece]
    · simp [formalStep, hname, comes_eq, hcomes]
  have htakes : ∀ c, p.takes c = true → t.piece.takes c = true := by
    intro c hc
    rw [Piece.takes, Token.kind_piece, hname]
    rcases hlike.2 with hk | hk <;> rwa [Piece.takes, hk] at hc
  rw [formalFrom_cons, hstep]
  refine visible_written h hs hlike.1 ?_ (.inr ⟨?_, htakes⟩) last groups
  · rcases hlike.2 with hk | hk <;> rw [hk] <;> decide
  · rcases hlike.2 with hk | hk <;> rw [hk] <;> decide

theorem visible_other_cons {last : Option Char} {groups : List FormalGroup} {t : Token}
    {ts : List Token} (h : Lexed (t :: ts)) (hs : joins t ts = false)
    (hspace : t.kind ≠ .whitespace) (hname : t.kind ≠ .name) (hmul : t.kind ≠ .mul) {p : Piece}
    (hp : p = bracket false groups t.piece) :
    visible (formalFrom last groups (t :: ts)) = p ::
      visible (formalFrom (lastVisible last p.text) (groupsAfter false groups t.piece) ts) := by
  obtain ⟨hb, hb', hlike⟩ := bracket_valid false groups h.1
  rw [← hp] at hb hb' hlike
  rw [formalFrom_cons, formalStep_eq h.1 hname hmul, ← hp]
  exact visible_written h hs hb (fun hk => hspace (hb' hk)) hlike last _

/-- The formal text is read as the pieces that it was put together from. -/
theorem visible_formalFrom {last : Option Char} {groups : List FormalGroup} {ts : List Token}
    (h : Lexed ts) (hs : Separate ts) :
    visible (formalFrom last groups ts) = formalPieces last false groups (pieces ts) := by
  induction hm : ts.length using Nat.strongRecOn generalizing last groups ts with
  | _ m ih =>
  cases ts with
  | nil => simp [formalFrom, pieces, formalPieces]
  | cons t ts =>
    have ih' : ∀ last groups, visible (formalFrom last groups ts) =
        formalPieces last false groups (pieces ts) :=
      fun _ _ => ih ts.length (by rw [← hm]; exact Nat.lt_succ_self _) h.2.2 hs.2 rfl
    rw [pieces_cons]
    by_cases hspace : t.kind = .whitespace
    · rw [visible_space_cons h hspace, if_pos hspace, ih']
    rw [if_neg hspace]
    by_cases hmul : t.kind = .mul
    · rw [visible_mul_cons h hmul, formalPieces_mul hmul, ih', ih']
    by_cases hname : t.kind = .name
    · by_cases hroot : t.lexeme = "sqrt" ∧ nextIs .openParen (pieces ts) = true
      · obtain ⟨hsqrt, hcomes⟩ := hroot
        obtain ⟨u, us, hts, hu⟩ : ∃ u us, pieces ts = u :: us ∧ u.kind = .openParen := by
          cases hp : pieces ts with
          | nil => simp [nextIs, hp] at hcomes
          | cons u us => exact ⟨u, us, rfl, by simpa [nextIs, hp] using hcomes⟩
        have hrest : pieces (skipSpace ts).tail = us := by rw [tail_pieces, hts]; rfl
        have hlt : (skipSpace ts).tail.length < m := by
          have hle := length_tail_skipSpace_le ts
          rw [List.length_cons] at hm
          omega
        have hr : isRoot t.piece = true := by simp [isRoot, hname, hsqrt]
        rw [visible_root_cons hname hsqrt hcomes,
          ih _ hlt h.2.2.skipSpace.tail hs.2.tail_skipSpace rfl, hrest, hts,
          formalPieces_root hr hu]
      · have hne : t.lexeme = "sqrt" → nextIs .openParen (pieces ts) = false :=
          fun he => Bool.eq_false_iff.mpr fun hc => hroot ⟨he, hc⟩
        have hne' : isRoot t.piece = true → nextIs .openParen (pieces ts) = false := by
          intro hr
          exact hne (by simpa [isRoot, hname, Token.piece, ← String.toList_inj] using hr)
        rw [visible_name_cons h hs.1 hname hne rfl, ih', formalPieces_name hname hne' rfl]
    · rw [visible_other_cons h hs.1 hspace hname hmul rfl, ih', formalPieces_other hname hmul]

end Spelling

end CurveGuess
