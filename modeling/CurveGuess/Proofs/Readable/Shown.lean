import CurveGuess.Proofs.Formal.Pieces
import CurveGuess.Proofs.Grammar.Words
import CurveGuess.Spelling.Readable

/-!
# The readable spelling in pieces

What is shown of a row of pieces, white space included: commands become names, and braces go or
become parentheses. When every brace has a partner, as in a formula, the readable text is put
together from these pieces. Its words are those of the formula, up to which of them are called.
-/
namespace CurveGuess.Spelling

open Piece

/-- The pieces that are not white space. -/
def withoutSpace (ts : List Piece) : List Piece := ts.filter (!·.isSpace)

/-- How many groups are open after a kind of piece. -/
def depthAfter (depth : Nat) (k : Kind) : Nat :=
  match k with
  | .openBrace => depth + 1
  | .closeBrace => depth - 1
  | _ => depth

/-- The index of the brace that closes a group, `depth` groups being open inside. -/
def closing? (depth : Nat) : List Piece → Option Nat
  | [] => none
  | t :: ts =>
    if t.kind = .closeBrace ∧ depth = 0 then some 0
    else (closing? (depthAfter depth t.kind) ts).map (· + 1)

/-- Does a brace close the group after a single piece? -/
def isFlat (ts : List Piece) : Bool := closing? 0 (withoutSpace ts) = some 1

/-- The name that is shown for a command. -/
def shownName (t : Piece) : Piece :=
  ⟨.name, (if t.name = "ln" then "log" else t.name).toList⟩

/-- What is shown of pieces inside the brace groups `groups`, the innermost first. `afterRoot` tells
that the group of a square root comes next. -/
def shown (afterRoot : Bool) (groups : List ReadableGroup) : List Piece → List Piece
  | [] => []
  | t :: ts =>
    match t.kind with
    | .whitespace => if afterRoot then shown true groups ts else t :: shown false groups ts
    | .command =>
      shownName t :: shown (t.name = "sqrt" && nextIs .openBrace (withoutSpace ts)) groups ts
    | .cdot => ⟨.mul, ['*']⟩ :: shown false groups ts
    | .openBrace =>
      if isFlat ts && !afterRoot then shown false (.flat :: groups) ts
      else ⟨.openParen, ['(']⟩ :: shown false (.paren :: groups) ts
    | .closeBrace =>
      if groups.head? = some .paren then ⟨.closeParen, [')']⟩ :: shown false groups.tail ts
      else shown false groups.tail ts
    | _ => t :: shown false groups ts

theorem withoutSpace_cons (t : Piece) (ts : List Piece) :
    withoutSpace (t :: ts) = if t.kind = .whitespace then withoutSpace ts
      else t :: withoutSpace ts := by
  by_cases h : t.kind = .whitespace <;> simp [withoutSpace, Piece.isSpace, h]

theorem withoutSpace_withoutSpace (ts : List Piece) :
    withoutSpace (withoutSpace ts) = withoutSpace ts := by
  rw [withoutSpace, withoutSpace, List.filter_filter]
  simp only [Bool.and_self]

theorem pieces_eq (ts : List Token) : pieces ts = withoutSpace (ts.map Token.piece) := by
  induction ts with
  | nil => rfl
  | cons t ts ih =>
    rw [pieces_cons, List.map_cons, withoutSpace_cons, ih]
    rfl

theorem isFlat_withoutSpace (ts : List Piece) : isFlat (withoutSpace ts) = isFlat ts := by
  rw [isFlat, withoutSpace_withoutSpace, isFlat]

/-- White space does not change what else is shown. -/
theorem withoutSpace_shown (afterRoot : Bool) (groups : List ReadableGroup) (ts : List Piece) :
    withoutSpace (shown afterRoot groups ts) = shown afterRoot groups (withoutSpace ts) := by
  induction ts generalizing afterRoot groups with
  | nil => rfl
  | cons t ts ih =>
    rw [withoutSpace_cons]
    by_cases hspace : t.kind = .whitespace
    · rw [if_pos hspace, ← ih, shown, hspace]
      cases afterRoot <;> simp [withoutSpace_cons, hspace]
    · rw [if_neg hspace, shown, shown]
      split
      · exact absurd ‹_› hspace
      · rw [withoutSpace_withoutSpace, ← ih, withoutSpace_cons]
        rfl
      · rw [← ih, withoutSpace_cons]
        rfl
      · rw [isFlat_withoutSpace]
        split
        · exact ih ..
        · rw [← ih, withoutSpace_cons]
          rfl
      · split
        · rw [← ih, withoutSpace_cons]
          rfl
        · exact ih ..
      · rw [← ih, withoutSpace_cons, if_neg hspace]

theorem closing?_cons (depth : Nat) (t : Piece) (ts : List Piece) :
    closing? depth (t :: ts) = if t.kind = .closeBrace ∧ depth = 0 then some 0
      else (closing? (depthAfter depth t.kind) ts).map (· + 1) := rfl

theorem closingBrace?_cons (depth : Nat) (t : Token) (ts : List Token) :
    closingBrace? depth (t :: ts) = if t.kind = .closeBrace ∧ depth = 0 then some 0
      else (closingBrace? (depthAfter depth t.kind) ts).map (· + 1) := by
  cases depth <;> cases hk : t.kind <;> simp [closingBrace?, depthAfter, hk]

/-- The index among the pieces counts the tokens before it that are not white space. -/
theorem closing?_pieces (depth : Nat) (ts : List Token) :
    closing? depth (pieces ts) =
      (closingBrace? depth ts).map fun n => (pieces (ts.take n)).length := by
  induction ts generalizing depth with
  | nil => rfl
  | cons t ts ih =>
    rw [closingBrace?_cons, pieces_cons]
    by_cases hspace : t.kind = .whitespace
    · rw [if_pos hspace, ih, if_neg (by simp [hspace]), Option.map_map, hspace]
      simp [pieces_cons, hspace, depthAfter, Function.comp_def]
    · rw [if_neg hspace, closing?_cons, Token.kind_piece]
      split
      · rfl
      · rw [ih, Option.map_map, Option.map_map]
        simp [pieces_cons, hspace, Function.comp_def]

/-- Every opening brace has a partner. -/
def Paired : List Piece → Prop
  | [] => True
  | t :: ts => (t.kind = .openBrace → (closing? 0 ts).isSome = true) ∧ Paired ts

def isBrace (k : Kind) : Bool := k = .openBrace || k = .closeBrace

theorem depthAfter_of_not_isBrace {k : Kind} (hk : isBrace k = false) (depth : Nat) :
    depthAfter depth k = depth := by
  cases k <;> first | rfl | cases hk

/-- The braces before `r` in the pieces `i` are partners of each other. -/
structure Matched (i r : List Piece) : Prop where
  closing?_eq : ∃ n, i.length = r.length + n ∧
    ∀ depth, closing? depth i = (closing? depth r).map (· + n)
  paired : Paired r → Paired i

namespace Matched

variable {i m r : List Piece} {t u : Piece}

theorem trans (h : Matched i m) (h' : Matched m r) : Matched i r := by
  obtain ⟨n, hn, hi⟩ := h.closing?_eq
  obtain ⟨n', hn', hm⟩ := h'.closing?_eq
  refine ⟨⟨n' + n, by omega, fun depth => ?_⟩, fun hr => h.paired (h'.paired hr)⟩
  rw [hi, hm, Option.map_map]
  congr 1
  funext k
  exact Nat.add_assoc k n' n

theorem quiet (h : isBrace t.kind = false) (m : List Piece) : Matched (t :: m) m := by
  have hdepth := depthAfter_of_not_isBrace h
  rw [isBrace, Bool.or_eq_false_iff, decide_eq_false_iff_not, decide_eq_false_iff_not] at h
  refine ⟨⟨1, rfl, fun depth => ?_⟩, fun hm => ⟨fun hk => absurd hk h.1, hm⟩⟩
  rw [closing?_cons, if_neg fun hk => h.2 hk.1, hdepth]

theorem closing?_of_close (h : Matched m (u :: r)) (hu : u.kind = .closeBrace) :
    closing? 0 m = some (m.length - (r.length + 1)) := by
  obtain ⟨n, hn, hm⟩ := h.closing?_eq
  rw [List.length_cons] at hn
  rw [hm, closing?_cons, if_pos ⟨hu, rfl⟩, hn]
  simp

theorem group (ht : t.kind = .openBrace) (h : Matched m (u :: r)) (hu : u.kind = .closeBrace) :
    Matched (t :: m) r := by
  constructor
  · obtain ⟨n, hn, hm⟩ := h.closing?_eq
    refine ⟨1 + n + 1, by simp [hn]; omega, fun depth => ?_⟩
    rw [closing?_cons, if_neg (by simp [ht]), ht, depthAfter, hm, closing?_cons,
      if_neg (by simp), hu, depthAfter, Option.map_map, Option.map_map]
    congr 1
    funext k
    change k + 1 + n + 1 = k + (1 + n + 1)
    omega
  · intro hr
    refine ⟨fun _ => by rw [h.closing?_of_close hu]; rfl, h.paired ⟨fun hk => ?_, hr⟩⟩
    rw [hk] at hu
    cases hu

/-- What a derivation takes opens and closes its own braces. -/
theorem of_derivation {p : Part} {es : List Shape} (d : Derivation p i r es) : Matched i r := by
  induction d with
  | ofProduct _ ih | ofSigned _ ih | ofPower _ ih | ofPrimary _ ih => exact ih
  | add _ h _ ih₁ ih₂ =>
    refine (ih₁.trans (quiet ?_ _)).trans ih₂
    rcases eq_of_sumKind? h with h | h <;> rw [h] <;> rfl
  | mul _ h _ ih₁ ih₂ =>
    refine (ih₁.trans (quiet ?_ _)).trans ih₂
    rcases eq_of_productKind? h with h | h | h <;> rw [h] <;> rfl
  | juxtapose _ _ ih₁ ih₂ => exact ih₁.trans ih₂
  | sign h _ ih =>
    refine (quiet ?_ _).trans ih
    rcases eq_of_signKind? h with h | h <;> rw [h] <;> rfl
  | raise _ h _ ih₁ ih₂ | nextArgument _ h _ ih₁ ih₂ =>
    exact (ih₁.trans (quiet (by rw [h]; rfl) _)).trans ih₂
  | @number t r h =>
    refine quiet ?_ r
    cases hk : t.kind <;> simp_all [isBrace, Kind.isNumber]
  | @group t u m r e k h _ hu ih =>
    have ht := Delimiter.eq_openKind h
    cases k with
    | brace => exact group ht ih hu
    | paren =>
      exact ((quiet (by rw [ht]; rfl) m).trans ih).trans (quiet (by rw [hu]; rfl) r)
  | @symbol t r h _ =>
    refine quiet ?_ r
    cases hk : t.kind <;> simp_all [isBrace, isName]
  | @braceCall t u v m r e h hu _ hv ih =>
    refine (quiet ?_ _).trans (group hu ih hv)
    cases hk : t.kind <;> simp_all [isBrace, isCallable]
  | @parenCall t u m r es h hu _ ih =>
    refine ((quiet ?_ _).trans (quiet (by rw [hu]; rfl) m)).trans ih
    cases hk : t.kind <;> simp_all [isBrace, isCallable]
  | lastArgument _ h ih => exact ih.trans (quiet (by rw [h]; rfl) _)

end Matched

theorem isFlat_row (ts : List Token) {n : Nat} (h : closingBrace? 0 ts = some n) :
    isFlat (ts.map Token.piece) = decide (((ts.take n).filter (!·.isSpace)).length = 1) := by
  rw [isFlat, ← pieces_eq, closing?_pieces, h]
  simp [pieces]

theorem paired_tail {ts : List Token} (h : Paired (pieces ts)) :
    Paired (pieces (skipSpace ts).tail) := by
  rw [tail_pieces]
  cases hp : pieces ts with
  | nil => trivial
  | cons t ps =>
    rw [hp] at h
    exact h.2

theorem opensGroup_eq {ts : List Token} (h : Paired (pieces ts)) :
    opensGroup ts = nextIs .openBrace (withoutSpace (ts.map Token.piece)) := by
  rw [opensGroup, comes_eq, ← pieces_eq]
  cases hp : pieces ts with
  | nil => rfl
  | cons t ps =>
    by_cases ht : t.kind = .openBrace
    · rw [hp] at h
      have hclosing := h.1 ht
      have htail := tail_pieces ts
      rw [hp, List.tail_cons] at htail
      rw [← htail, closing?_pieces, Option.isSome_map] at hclosing
      rw [hclosing, Bool.and_true]
    · simp [nextIs, ht]

/-- The brace after a square root is shown together with its name. -/
theorem shown_afterRoot {ts : List Token} (h : comes .openBrace ts = true)
    (groups : List ReadableGroup) :
    shown true groups (ts.map Token.piece) = ⟨.openParen, ['(']⟩ ::
      shown false (.paren :: groups) ((skipSpace ts).tail.map Token.piece) := by
  induction ts with
  | nil => cases h
  | cons t ts ih =>
    by_cases hspace : t.kind = .whitespace
    · rw [comes, skipSpace_space hspace] at h
      rw [skipSpace_space hspace, List.map_cons, shown, Token.kind_piece, hspace]
      exact ih h
    · rw [comes, skipSpace_solid hspace] at h
      have ht : t.kind = .openBrace := by simpa using h
      rw [skipSpace_solid hspace, List.map_cons, shown, Token.kind_piece, ht]
      simp

theorem readableFrom_eq {ts : List Token} (h : Paired (pieces ts)) (groups : List ReadableGroup) :
    readableFrom groups ts = (shown false groups (ts.map Token.piece)).flatMap Piece.text := by
  induction hm : ts.length using Nat.strongRecOn generalizing groups ts with
  | _ m ih =>
    cases ts with
    | nil => simp [readableFrom, shown]
    | cons t ts =>
      rw [List.length_cons] at hm
      have hts : Paired (pieces ts) := by
        rw [pieces_cons] at h
        split at h
        · exact h
        · exact h.2
      have ih' := fun groups => ih ts.length (by omega) hts groups rfl
      rw [readableFrom, List.map_cons, shown, Token.kind_piece, readableStep]
      split
      · next hk =>
        rw [hk]
        dsimp only
        rw [opensGroup_eq hts]
        by_cases hroot : t.bareName = "sqrt" ∧
            nextIs .openBrace (withoutSpace (ts.map Token.piece)) = true
        · have hcomes : comes .openBrace ts = true := by
            rw [comes_eq, pieces_eq]
            exact hroot.2
          have hle := length_tail_skipSpace_le ts
          have hname : t.piece.name = "sqrt" := hroot.1
          rw [if_pos hroot, hname, hroot.2, Bool.and_true, decide_eq_true rfl,
            shown_afterRoot hcomes, ih _ (by omega) (paired_tail hts) _ rfl]
          simp [shownName, hname]
        · have hflag : (decide (t.piece.name = "sqrt") &&
              nextIs .openBrace (withoutSpace (ts.map Token.piece))) = false := by
            rw [← Bool.not_eq_true, Bool.and_eq_true, decide_eq_true_eq]
            exact hroot
          rw [if_neg hroot, hflag, ih', List.flatMap_cons, shownName, name_piece]
      · next hk =>
        rw [hk, ih']
        rfl
      · next hk =>
        rw [pieces_cons, if_neg (by rw [hk]; decide)] at h
        have hclosing := h.1 hk
        rw [closing?_pieces, Option.isSome_map, Option.isSome_iff_exists] at hclosing
        obtain ⟨n, hn⟩ := hclosing
        rw [hk, hn]
        dsimp only
        simp only [isFlat_row ts hn, Bool.not_false, Bool.and_true, decide_eq_true_eq]
        split
        · exact ih' _
        · rw [ih', List.flatMap_cons]
      · next hk =>
        rw [hk]
        dsimp only
        split
        · rw [ih', List.flatMap_cons]
        · exact ih' _
      · rw [ih']
        split
        · rw [if_neg (by decide)]
          rfl
        all_goals first | contradiction | rfl

theorem dropWhile_letters {w : List Char} (h : ∀ c ∈ w, Lexer.isLetter c = true) :
    w.dropWhile (· = '\\') = w := by
  cases w with
  | nil => rfl
  | cons b w =>
    have hb : b ≠ '\\' := by
      rintro rfl
      exact absurd (h _ List.mem_cons_self) (by decide)
    rw [List.dropWhile_cons_of_neg (by simpa)]

theorem letters_of_command {t : Piece} (ht : t.Valid) (hk : t.kind = .command) :
    ∃ u, t.text = '\\' :: u ∧ u ≠ [] ∧ (∀ c ∈ u, Lexer.isLetter c = true) ∧
      t.name = String.ofList u := by
  have hspell := ht.spells
  rw [hk] at hspell
  obtain ⟨u, hu, hne, -, hletters⟩ := hspell
  refine ⟨u, hu, hne, hletters, ?_⟩
  rw [name, hu, List.dropWhile_cons_of_pos (by decide), dropWhile_letters hletters]

theorem name_eq_text {t : Piece} (h : ∀ c ∈ t.text, Lexer.isLetter c = true) :
    t.name = String.ofList t.text := by
  rw [name, dropWhile_letters h]

/-- The shown name of a command is a name of the same function. -/
theorem shownName_spec {t : Piece} (ht : t.Valid) (hk : t.kind = .command) :
    (shownName t).Valid ∧ plainName (shownName t).name = plainName t.name := by
  obtain ⟨u, -, hne, hletters, hname⟩ := letters_of_command ht hk
  by_cases hln : t.name = "ln"
  · have hshown : shownName t = ⟨.name, ['l', 'o', 'g']⟩ := by rw [shownName, if_pos hln]; rfl
    rw [hshown, hln]
    exact ⟨valid_name (List.cons_ne_nil _ _) (List.all_eq_true.mp rfl), rfl⟩
  · have hshown : shownName t = ⟨.name, u⟩ := by
      rw [shownName, if_neg hln, hname, String.toList_ofList]
    rw [hshown, hname]
    exact ⟨valid_name hne hletters, by rw [name_eq_text hletters]⟩

/-- The kinds of piece that are shown. -/
def isShown : Kind → Bool
  | .command | .cdot | .symbol => false
  | _ => true

/-- What is shown of tokens are tokens. -/
theorem valid_of_mem_shown {ts : List Piece} (h : ∀ t ∈ ts, t.Valid ∧ t.kind ≠ .symbol)
    (afterRoot : Bool) (groups : List ReadableGroup) :
    ∀ t ∈ shown afterRoot groups ts, t.Valid ∧ isShown t.kind = true := by
  induction ts generalizing afterRoot groups with
  | nil => simp [shown]
  | cons t ts ih =>
    obtain ⟨ht, hsymbol⟩ := h t List.mem_cons_self
    have ih := ih fun u hu => h u (List.mem_cons_of_mem t hu)
    rw [shown]
    split
    · next hk =>
      split
      · exact ih _ _
      · exact List.forall_mem_cons.mpr ⟨⟨ht, by rw [hk]; rfl⟩, ih _ _⟩
    · next hk => exact List.forall_mem_cons.mpr ⟨⟨(shownName_spec ht hk).1, rfl⟩, ih _ _⟩
    · exact List.forall_mem_cons.mpr ⟨⟨⟨_, _, rfl, by decide⟩, rfl⟩, ih _ _⟩
    · split
      · exact ih _ _
      · exact List.forall_mem_cons.mpr ⟨⟨⟨_, _, rfl, by decide⟩, rfl⟩, ih _ _⟩
    · split
      · exact List.forall_mem_cons.mpr ⟨⟨⟨_, _, rfl, by decide⟩, rfl⟩, ih _ _⟩
      · exact ih _ _
    · next hcommand hcdot _ _ =>
      refine List.forall_mem_cons.mpr ⟨⟨ht, ?_⟩, ih _ _⟩
      cases hk : t.kind <;> simp_all [isShown]

/-- A command is shown as a word that differs from it at most in whether it is called. -/
theorem word_shownName {t : Piece} (ht : t.Valid) (hk : t.kind = .command) (b : Bool) :
    (shownName t).word b =
      some (.name (plainName t.name) ((shownName t).isCallable && b)) := by
  rw [word_isName rfl, (shownName_spec ht hk).2]

/-- The words that are shown differ from those of the pieces at most in which are called. -/
theorem uncalled_shown {ts : List Piece} (h : ∀ t ∈ ts, t.Valid) (afterRoot : Bool)
    (groups : List ReadableGroup) :
    (shown afterRoot groups ts).filterMap (word · false) = ts.filterMap (word · false) := by
  induction ts generalizing afterRoot groups with
  | nil => rfl
  | cons t ts ih =>
    have ih := ih fun u hu => h u (List.mem_cons_of_mem t hu)
    rw [shown, List.filterMap_cons]
    split
    · next hk =>
      rw [word_eq_none (by rw [hk]; rfl)]
      split
      · exact ih _ _
      · rw [List.filterMap_cons, word_eq_none (by rw [hk]; rfl)]
        exact ih _ _
    · next hk =>
      rw [List.filterMap_cons, word_shownName (h t List.mem_cons_self) hk,
        word_isName (by simp [isName, hk]), ih]
      simp
    · next hk =>
      rw [List.filterMap_cons, word_eq_none rfl, word_eq_none (by rw [hk]; rfl)]
      exact ih _ _
    · next hk =>
      rw [word_eq_none (by rw [hk]; rfl)]
      split
      · exact ih _ _
      · rw [List.filterMap_cons, word_eq_none rfl]
        exact ih _ _
    · next hk =>
      rw [word_eq_none (by rw [hk]; rfl)]
      split
      · rw [List.filterMap_cons, word_eq_none rfl]
        exact ih _ _
      · exact ih _ _
    · rw [List.filterMap_cons, ih]

end CurveGuess.Spelling
