import CurveGuess.Proofs.Formal.Relexing
import CurveGuess.Proofs.Lexing.Longest

/-!
# Formal input

A text that has nothing to turn into the formal spelling comes out as it went in, whatever else is
wrong with it: no square root is opened, so that every bracket is written as itself and every token
keeps its text, and the texts of the tokens make up the whole.
-/
namespace CurveGuess.Spelling

/-- The functions that the formal spelling writes in another way. -/
def shorthand : List String := ["sin", "cos", "tan", "exp", "abs", "log", "ln", "sqrt"]

/-- Tokens that the formal spelling leaves as they are: there is no multiplication sign, and no
parenthesis opens after a name of a function. -/
structure IsFormal (ts : List Token) : Prop where
  ne_mul : ∀ t ∈ ts, t.kind ≠ .mul
  ne_openParen : ∀ t spaces u after, t :: (spaces ++ u :: after) <:+ ts → t.kind = .name →
    t.lexeme ∈ shorthand → (∀ s ∈ spaces, s.isSpace = true) → u.kind ≠ .openParen

theorem isFormal_nil : IsFormal [] where
  ne_mul _ h := absurd h List.not_mem_nil
  ne_openParen _ _ _ _ h := absurd (List.suffix_nil.mp h) (List.cons_ne_nil _ _)

theorem isFormal_cons {t : Token} {ts : List Token} : IsFormal (t :: ts) ↔ t.kind ≠ .mul ∧
    ¬(t.kind = .name ∧ t.lexeme ∈ shorthand ∧ comes .openParen ts = true) ∧ IsFormal ts := by
  have hcomes : comes .openParen ts = true ↔ _ := comes_iff (by decide)
  constructor
  · intro h
    refine ⟨h.ne_mul t List.mem_cons_self, ?_, ?_, ?_⟩
    · rintro ⟨hname, hmem, hopen⟩
      obtain ⟨spaces, u, after, rfl, hspaces, hu⟩ := hcomes.mp hopen
      exact h.ne_openParen t spaces u after List.suffix_rfl hname hmem hspaces hu
    · exact fun u hu => h.ne_mul u (List.mem_cons_of_mem t hu)
    · exact fun u spaces v after hsuffix =>
        h.ne_openParen u spaces v after (hsuffix.trans (List.suffix_cons t ts))
  · rintro ⟨hmul, hcall, h⟩
    refine ⟨List.forall_mem_cons.mpr ⟨hmul, h.ne_mul⟩, ?_⟩
    intro u spaces v after hsuffix hname hmem hspaces hv
    rcases List.suffix_cons_iff.mp hsuffix with heq | hsuffix
    · obtain ⟨rfl, rfl⟩ := List.cons.inj heq
      exact hcall ⟨hname, hmem, hcomes.mpr ⟨spaces, v, after, rfl, hspaces, hv⟩⟩
    · exact h.ne_openParen u spaces v after hsuffix hname hmem hspaces hv

instance decidableIsFormal : DecidablePred IsFormal
  | [] => isTrue isFormal_nil
  | _ :: ts =>
    have := decidableIsFormal ts
    decidable_of_iff _ isFormal_cons.symm

theorem formalName_eq_self {name : String} (h : name ∉ shorthand) : formalName name = name := by
  simp only [shorthand, List.mem_cons, List.not_mem_nil, not_or, or_false] at h
  simp [formalName, h]

/-- A token is written as it is, and no square root is opened or closed. -/
theorem formalStep_of_isFormal {t : Token} {ts : List Token} (ht : t.piece.Valid)
    (h : IsFormal (t :: ts)) (last : Option Char) {groups : List FormalGroup}
    (hgroups : .root ∉ groups) : ∃ groups', .root ∉ groups' ∧
      formalStep last groups t ts = ⟨t.lexeme.toList, groups', ts⟩ := by
  obtain ⟨hmul, hcall, -⟩ := isFormal_cons.mp h
  have hspells := ht.spells
  rw [Token.kind_piece, Token.text_piece] at hspells
  have htail : .root ∉ groups.tail := fun hmem => hgroups (List.mem_of_mem_tail hmem)
  unfold formalStep
  split
  · next hname =>
    refine ⟨groups, hgroups, ?_⟩
    split
    · next hopen =>
      have hmem : t.lexeme ∉ shorthand := fun hmem => hcall ⟨hname, hmem, hopen⟩
      have hroot : t.lexeme ≠ "sqrt" := fun hroot => hmem (hroot ▸ by decide)
      rw [if_neg hroot, formalName_eq_self hmem]
    · rfl
  · next hk => exact absurd hk hmul
  · next hk =>
    rw [hk] at hspells
    exact ⟨.paren :: groups, by simp [hgroups], by rw [hspells]⟩
  · next hk =>
    rw [hk] at hspells
    exact ⟨.brace :: groups, by simp [hgroups], by rw [hspells]⟩
  · next hk =>
    rw [hk] at hspells
    have hhead : groups.head? ≠ some .root := fun hhead => hgroups (List.mem_of_mem_head? hhead)
    exact ⟨groups.tail, htail, by rw [if_neg hhead, hspells]⟩
  · next hk =>
    rw [hk] at hspells
    exact ⟨groups.tail, htail, by rw [hspells]⟩
  · exact ⟨groups, hgroups, rfl⟩

theorem formalFrom_of_isFormal {ts : List Token} (hts : ∀ t ∈ ts, t.piece.Valid) (h : IsFormal ts)
    (last : Option Char) {groups : List FormalGroup} (hgroups : .root ∉ groups) :
    String.ofList (formalFrom last groups ts) = String.join (ts.map Token.lexeme) := by
  -- the open groups change on the way, but no square root is ever among them
  induction ts generalizing last groups with
  | nil =>
    rw [formalFrom]
    rfl
  | cons t ts ih =>
    obtain ⟨ht, hts⟩ := List.forall_mem_cons.mp hts
    obtain ⟨groups', hgroups', hstep⟩ := formalStep_of_isFormal ht h last hgroups
    rw [formalFrom_cons, hstep, String.ofList_append, String.ofList_toList,
      ih hts (isFormal_cons.mp h).2.2 _ hgroups', List.map_cons, String.join_cons]

/-- Formal input is returned unchanged, whether it is a formula or not. -/
theorem toFormal_of_isFormal {s : String} (h : IsFormal (tokens s)) : toFormal s = s := by
  have hvalid : ∀ t ∈ tokens s, t.piece.Valid := (lexed_tokensFrom 0 s.toList).valid
  rw [toFormal, formalFrom_of_isFormal hvalid h none List.not_mem_nil, tokens,
    Lexer.join_tokensFrom, String.ofList_toList]

/-- Brackets that do not match, names without arguments and other characters stay. -/
theorem toFormal_of_isFormal_broken :
    IsFormal (tokens ")\\sqrt\x7bé(2) sin \x7d x\\cdot x ²") ∧
      toFormal ")\\sqrt\x7bé(2) sin \x7d x\\cdot x ²" = ")\\sqrt\x7bé(2) sin \x7d x\\cdot x ²" := by
  have h : IsFormal (tokens ")\\sqrt\x7bé(2) sin \x7d x\\cdot x ²") := by decide +kernel
  exact ⟨h, toFormal_of_isFormal h⟩

end CurveGuess.Spelling
