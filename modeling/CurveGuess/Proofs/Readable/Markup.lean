import CurveGuess.Proofs.Formal.Unchanged
import CurveGuess.Proofs.Readable.Shown

/-!
# Markup in the readable spelling

Braces never show in a readable text, whether they have a partner or not. A backslash goes with the
command that it begins; one that begins no command is a symbol like any other, and stays.
-/
namespace CurveGuess.Spelling

/-- The characters that only the formal spelling needs. -/
def isMarkup (c : Char) : Bool := c = '\\' || c = '\x7b' || c = '\x7d'

/-- Is the token a symbol, and the symbol `c`? -/
def isSymbol (c : Char) (t : Token) : Bool := t.kind = .symbol && t.lexeme.toList = [c]

section
variable {c : Char} {t : Token}

theorem eq_of_isMarkup (h : isMarkup c = true) : c = '\\' ∨ c = '\x7b' ∨ c = '\x7d' := by
  simpa [isMarkup, or_assoc] using h

theorem not_isInner_of_isMarkup (h : isMarkup c = true) : Lexer.isInner c = false := by
  rcases eq_of_isMarkup h with rfl | rfl | rfl <;> rfl

theorem not_isLetter_of_isMarkup (h : isMarkup c = true) : Lexer.isLetter c = false := by
  rcases eq_of_isMarkup h with rfl | rfl | rfl <;> rfl

/-- The kinds of token whose text has markup in it. -/
def isMarked (k : Kind) : Bool := k = .command || k = .cdot || k = .openBrace || k = .closeBrace

/-- Besides those, only symbols can be markup. -/
theorem mem_lexeme_iff (hc : isMarkup c = true) (ht : t.piece.Valid)
    (hmarked : isMarked t.kind = false) : c ∈ t.lexeme.toList ↔ isSymbol c t = true := by
  rw [isSymbol, Bool.and_eq_true, decide_eq_true_eq, decide_eq_true_eq]
  constructor
  · intro hmem
    simp only [isMarked, Bool.or_eq_false_iff, decide_eq_false_iff_not] at hmarked
    obtain ⟨⟨⟨hcommand, hcdot⟩, hopen⟩, hclose⟩ := hmarked
    obtain ⟨w, htext, -, rfl | ⟨-, hk | hk⟩⟩ :=
      ht.text_eq_cons hmem (not_isInner_of_isMarkup hc)
    · have hkind := ht.kind_eq htext
      rcases eq_of_isMarkup hc with rfl | rfl | rfl
      · exact ⟨hkind, htext⟩
      · exact absurd hkind hopen
      · exact absurd hkind hclose
    · exact absurd hk hcommand
    · exact absurd hk hcdot
  · rintro ⟨-, htext⟩
    rw [htext]
    exact List.mem_singleton_self c

/-- Markup can stand at the head of a token only. -/
theorem notMem_tail_lexeme (hc : isMarkup c = true) (ht : t.piece.Valid) :
    c ∉ t.lexeme.toList.tail := by
  intro hmem
  obtain ⟨w, htext, hnot, -⟩ :=
    ht.text_eq_cons (List.mem_of_mem_tail hmem) (not_isInner_of_isMarkup hc)
  rw [Token.text_piece] at htext
  rw [htext] at hmem
  exact hnot hmem

end

section
variable {c : Char} {t : Token} {ts : List Token}

theorem exists_isSymbol_cons (h : t.kind ≠ .symbol) :
    (∃ u ∈ t :: ts, isSymbol c u = true) ↔ ∃ u ∈ ts, isSymbol c u = true := by
  simp [isSymbol, h]

/-- There are no symbols between the name of a square root and its group. -/
theorem exists_isSymbol_group (h : opensGroup ts = true) :
    (∃ u ∈ (skipSpace ts).tail, isSymbol c u = true) ↔ ∃ u ∈ ts, isSymbol c u = true := by
  rw [opensGroup, Bool.and_eq_true] at h
  obtain ⟨spaces, u, after, rfl, hspaces, hu⟩ := (comes_iff (by decide)).mp h.1
  have hspace : ∀ s ∈ spaces, isSymbol c s = false := by
    intro s hs
    have hk : s.kind = .whitespace := by simpa [Token.isSpace] using hspaces s hs
    rw [isSymbol, hk]
    rfl
  rw [skipSpace_append hspaces (by simp [hu]), List.tail_cons,
    ← exists_isSymbol_cons (t := u) (by simp [hu])]
  constructor
  · rintro ⟨v, hv, hsymbol⟩
    exact ⟨v, List.mem_append_right spaces hv, hsymbol⟩
  · rintro ⟨v, hv, hsymbol⟩
    rcases List.mem_append.mp hv with hv | hv
    · rw [hspace v hv] at hsymbol
      cases hsymbol
    · exact ⟨v, hv, hsymbol⟩

theorem notMem_commandName (hc : isMarkup c = true) (ht : t.piece.Valid) (hk : t.kind = .command) :
    c ∉ (if t.bareName = "ln" then "log" else t.bareName).toList := by
  have hletters : ∀ d ∈ (shownName t.piece).text, Lexer.isLetter d = true :=
    (shownName_spec ht hk).1.spells
  simp only [shownName, Piece.name_piece] at hletters
  intro hmem
  have hletter := hletters c hmem
  rw [not_isLetter_of_isMarkup hc] at hletter
  cases hletter

theorem rest_readableStep_subset (groups : List ReadableGroup) (t : Token) (ts : List Token) :
    (readableStep groups t ts).rest ⊆ ts := by
  have hgroup : (skipSpace ts).tail ⊆ ts := fun u hu =>
    (List.dropWhile_sublist _).subset (List.mem_of_mem_tail hu)
  unfold readableStep
  split <;> (try split) <;> (try split) <;> first | exact hgroup | exact List.Subset.refl ts

/-- Where a token is no symbol, markup is a symbol of the tokens after it if the step writes none
of it and leaves all symbols to be written. -/
theorem markup_step (hk : t.kind ≠ .symbol) {s : ReadableStep} (htext : c ∉ s.text)
    (hrest : (∃ u ∈ s.rest, isSymbol c u = true) ↔ ∃ u ∈ ts, isSymbol c u = true) :
    (c ∈ s.text ∨ ∃ u ∈ s.rest, isSymbol c u = true) ↔
      ∃ u ∈ t :: ts, isSymbol c u = true := by
  rw [or_iff_right htext, hrest, exists_isSymbol_cons hk]

/-- One step writes the markup that is a symbol, and leaves what comes after it. -/
theorem markup_readableStep (hc : isMarkup c = true) (groups : List ReadableGroup)
    (ht : t.piece.Valid) :
    (c ∈ (readableStep groups t ts).text ∨
        ∃ u ∈ (readableStep groups t ts).rest, isSymbol c u = true) ↔
      ∃ u ∈ t :: ts, isSymbol c u = true := by
  have hplain : ∀ d, isMarkup d = false → c ≠ d := by
    rintro d hd rfl
    rw [hd] at hc
    cases hc
  have hparen : c ∉ ['('] := by simpa using hplain '(' rfl
  unfold readableStep
  split
  · next hk =>
    split
    · next hroot =>
      refine markup_step (by simp [hk]) ?_ (exists_isSymbol_group hroot.2)
      simp only [List.mem_cons, List.not_mem_nil, not_or]
      exact ⟨hplain _ rfl, hplain _ rfl, hplain _ rfl, hplain _ rfl, hplain _ rfl, not_false⟩
    · exact markup_step (by simp [hk]) (notMem_commandName hc ht hk) Iff.rfl
  · next hk => exact markup_step (by simp [hk]) (by simpa using hplain '*' rfl) Iff.rfl
  · next hk =>
    split
    · exact markup_step (by simp [hk]) List.not_mem_nil Iff.rfl
    · split
      · exact markup_step (by simp [hk]) List.not_mem_nil Iff.rfl
      · exact markup_step (by simp [hk]) hparen Iff.rfl
  · next hk =>
    refine markup_step (by simp [hk]) ?_ Iff.rfl
    split
    · simpa using hplain ')' rfl
    · exact List.not_mem_nil
  · next hcommand hcdot hopen hclose =>
    have hmarked : isMarked t.kind = false := by
      cases hk : t.kind <;> simp_all [isMarked]
    simp only [mem_lexeme_iff hc ht hmarked, List.mem_cons, exists_eq_or_imp]

/-- Markup is written where it is a symbol, and nowhere else. -/
theorem mem_readableFrom_iff (hc : isMarkup c = true) (groups : List ReadableGroup)
    (hts : ∀ t ∈ ts, t.piece.Valid) :
    c ∈ readableFrom groups ts ↔ ∃ t ∈ ts, isSymbol c t = true := by
  fun_induction readableFrom groups ts with
  | case1 => simp
  | case2 groups t ts s ih =>
    obtain ⟨ht, hts⟩ := List.forall_mem_cons.mp hts
    rw [List.mem_append, ih fun u hu => hts u (rest_readableStep_subset groups t ts hu)]
    exact markup_readableStep hc groups ht

end

/-- Is there a backslash with no letter after it? -/
def hasLoneBackslash : List Char → Bool
  | [] => false
  | c :: cs => c = '\\' && !cs.head?.any Lexer.isLetter || hasLoneBackslash cs

theorem hasLoneBackslash_append {w : List Char} (hw : '\\' ∉ w) (rest : List Char) :
    hasLoneBackslash (w ++ rest) = hasLoneBackslash rest := by
  induction w with
  | nil => rfl
  | cons c w ih =>
    rw [List.mem_cons, not_or] at hw
    rw [List.cons_append, hasLoneBackslash, ih hw.2, decide_eq_false (Ne.symm hw.1)]
    rfl

/-- A backslash begins a command or a product if there is a letter after it. -/
theorem first_backslash (cs : List Char) : Lexer.first '\\' cs = (.symbol, 0) ∧
      cs.head?.any Lexer.isLetter = false ∨
    (Lexer.first '\\' cs).1 ≠ .symbol ∧ cs.head?.any Lexer.isLetter = true := by
  have hfirst : Lexer.first '\\' cs = _ := Lexer.backslash_eq cs
  rw [hfirst]
  cases cs with
  | nil => exact .inl ⟨rfl, rfl⟩
  | cons c cs =>
    cases hc : Lexer.isLetter c with
    | false => simp [hc, Lexer.run]
    | true =>
      refine .inr ⟨?_, by simp [hc]⟩
      split
      · next h => simp [hc] at h
      · split <;> simp

/-- Such a backslash is a token of its own. -/
theorem exists_isSymbol_iff (n : Nat) (cs : List Char) :
    (∃ t ∈ Lexer.tokensFrom n cs, isSymbol '\\' t = true) ↔ hasLoneBackslash cs = true := by
  induction n, cs using Lexer.tokensFrom.induct with
  | case1 n => simp [Lexer.tokensFrom, hasLoneBackslash]
  | case2 n c cs more lexeme ih =>
    have hvalid := (lexed_tokensFrom n (c :: cs)).valid
    rw [Lexer.tokensFrom] at hvalid
    have hmore : '\\' ∉ cs.take more := by
      have htail := notMem_tail_lexeme (c := '\\') rfl (hvalid _ List.mem_cons_self)
      rwa [String.toList_ofList] at htail
    have hafter : hasLoneBackslash cs = hasLoneBackslash (cs.drop more) := by
      rw [← hasLoneBackslash_append hmore (cs.drop more), List.take_append_drop]
    have htoken : isSymbol '\\' ⟨(Lexer.first c cs).1, lexeme, n⟩ =
        (c = '\\' && !cs.head?.any Lexer.isLetter) := by
      rw [isSymbol, String.toList_ofList]
      by_cases hc : c = '\\'
      · subst hc
        rcases first_backslash cs with ⟨hfirst, hhead⟩ | ⟨hfirst, hhead⟩
        · simp [hhead, more, hfirst]
        · simp [hhead, hfirst]
      · simp [hc]
    rw [Lexer.tokensFrom, List.exists_mem_cons_iff, ih, htoken, hasLoneBackslash, hafter,
      Bool.or_eq_true]

/-- A brace is never a symbol. -/
theorem not_isSymbol_brace {c : Char} (hc : c = '\x7b' ∨ c = '\x7d') {t : Token}
    (ht : t.piece.Valid) : isSymbol c t = false := by
  rw [isSymbol, Bool.and_eq_false_iff, decide_eq_false_iff_not, decide_eq_false_iff_not,
    or_iff_not_imp_left, not_not]
  intro hk htext
  have hkind := ht.kind_eq htext
  rw [Token.kind_piece, hk] at hkind
  rcases hc with rfl | rfl <;> cases hkind

/-- A readable text has no braces, and it has a backslash exactly if the text that it was made of
has one with no letter after it. -/
theorem markup_toReadable (s : String) :
    '\x7b' ∉ (toReadable s).toList ∧ '\x7d' ∉ (toReadable s).toList ∧
      ('\\' ∈ (toReadable s).toList ↔ hasLoneBackslash s.toList = true) := by
  have hvalid : ∀ t ∈ tokens s, t.piece.Valid := (lexed_tokensFrom 0 s.toList).valid
  have hbrace : ∀ c, c = '\x7b' ∨ c = '\x7d' → c ∉ (toReadable s).toList := by
    intro c hc hmem
    have hmarkup : isMarkup c = true := by rcases hc with rfl | rfl <;> rfl
    rw [toReadable, String.toList_ofList, mem_readableFrom_iff hmarkup [] hvalid] at hmem
    obtain ⟨t, ht, hsymbol⟩ := hmem
    rw [not_isSymbol_brace hc (hvalid t ht)] at hsymbol
    cases hsymbol
  refine ⟨hbrace _ (.inl rfl), hbrace _ (.inr rfl), ?_⟩
  rw [toReadable, String.toList_ofList, mem_readableFrom_iff rfl [] hvalid, tokens,
    exists_isSymbol_iff]

/-- A backslash before a digit is still there when the text is shown. -/
theorem toReadable_keeps_backslash :
    ¬∀ s : String, ∀ c ∈ (toReadable s).toList, isMarkup c = false := by
  intro hnone
  have hmem : '\\' ∈ (toReadable "x+\\1").toList := by decide +kernel
  exact absurd (hnone _ _ hmem) (by decide)

end CurveGuess.Spelling
