import CurveGuess.Proofs.Lexing
import CurveGuess.Spelling.Formal
import Mathlib.Data.List.TakeWhile

/-!
# The formal spelling in pieces

What the formal spelling makes of a row of pieces: names before a parenthesis become commands, the
parentheses of a square root become braces, and a multiplication sign is written as a command or not
at all. That is what is read from the formal text, see `visible_formalFrom`.
-/
namespace CurveGuess

theorem Lexed.dropWhile {ts : List Token} (h : Lexed ts) (p : Token → Bool) :
    Lexed (ts.dropWhile p) := by
  induction ts with
  | nil => exact h
  | cons t ts ih =>
    rw [List.dropWhile_cons]
    split
    · exact ih h.2.2
    · exact h

theorem Lexed.skipSpace {ts : List Token} (h : Lexed ts) : Lexed (Spelling.skipSpace ts) :=
  h.dropWhile Token.isSpace

theorem Lexed.tail {ts : List Token} (h : Lexed ts) : Lexed ts.tail := by
  cases ts with
  | nil => exact h
  | cons t ts => exact h.2.2

namespace Spelling

/-- Is the piece the name of a square root? -/
def isRoot (t : Piece) : Bool := t.kind = .name && t.text = ['s', 'q', 'r', 't']

/-- Is the next piece of the given kind? -/
def nextIs (k : Kind) (ts : List Piece) : Bool := ts.head?.any (·.kind = k)

/-- What a name before a parenthesis is written as. -/
def calleeText (name : String) : String := if name = "sqrt" then "\\sqrt" else formalName name

def callee (t : Piece) : Piece :=
  let text := calleeText (String.ofList t.text)
  ⟨if text.toList = t.text then .name else .command, text.toList⟩

def productPiece : Piece := ⟨.cdot, ['\\', 'c', 'd', 'o', 't']⟩

/-- Is a multiplication sign written between the character `last` and the pieces `ts`? -/
def writesSign (last : Option Char) (ts : List Piece) : Bool :=
  ts.head?.any fun t => t.kind.isSign || last.any fun a => t.text.head?.any fun b =>
    isNumberChar a && isNumberChar b || Lexer.isLetter a && Lexer.isLetter b

/-- A bracket as it is written: those of a square root are braces. -/
def bracket (afterRoot : Bool) (groups : List FormalGroup) (t : Piece) : Piece :=
  match t.kind with
  | .openParen => if afterRoot then ⟨.openBrace, ['\x7b']⟩ else t
  | .closeParen => if groups.head? = some .root then ⟨.closeBrace, ['\x7d']⟩ else t
  | _ => t

/-- The groups that are open after a piece. -/
def groupsAfter (afterRoot : Bool) (groups : List FormalGroup) (t : Piece) : List FormalGroup :=
  match t.kind with
  | .openParen => (if afterRoot then .root else .paren) :: groups
  | .openBrace => .brace :: groups
  | .closeParen | .closeBrace => groups.tail
  | _ => groups

/-- The piece that is written for `t` before `ts`, if any is. -/
def written (last : Option Char) (afterRoot : Bool) (groups : List FormalGroup) (t : Piece)
    (ts : List Piece) : Option Piece :=
  match t.kind with
  | .mul => if writesSign last ts then some productPiece else none
  | .name => some (if nextIs .openParen ts then callee t else t)
  | _ => some (bracket afterRoot groups t)

/-- The pieces of the formal spelling. `afterRoot` tells that the name of a square root came just
before. -/
def formalPieces (last : Option Char) (afterRoot : Bool) (groups : List FormalGroup) :
    List Piece → List Piece
  | [] => []
  | t :: ts =>
    let w := written last afterRoot groups t ts
    w.toList ++ formalPieces (lastVisible last (w.elim [] Piece.text)) (isRoot t)
      (groupsAfter afterRoot groups t) ts

theorem formalPieces_cons (last : Option Char) (afterRoot : Bool) (groups : List FormalGroup)
    (t : Piece) (ts : List Piece) :
    formalPieces last afterRoot groups (t :: ts) =
      (written last afterRoot groups t ts).toList ++
        formalPieces (lastVisible last ((written last afterRoot groups t ts).elim [] Piece.text))
          (isRoot t) (groupsAfter afterRoot groups t) ts := rfl

theorem formalPieces_afterRoot {last : Option Char} {groups : List FormalGroup} {ts : List Piece}
    (h : nextIs .openParen ts = false) :
    formalPieces last true groups ts = formalPieces last false groups ts := by
  cases ts with
  | nil => rfl
  | cons t ts =>
    have ht : t.kind ≠ .openParen := by simpa [nextIs] using h
    have hb : bracket true groups t = bracket false groups t := by
      unfold bracket
      split <;> simp_all
    have hg : groupsAfter true groups t = groupsAfter false groups t := by
      unfold groupsAfter
      split <;> simp_all
    simp only [formalPieces_cons, written, hb, hg]

theorem formalPieces_mul {t : Piece} (h : t.kind = .mul) (last : Option Char) (afterRoot : Bool)
    (groups : List FormalGroup) (ts : List Piece) :
    formalPieces last afterRoot groups (t :: ts) =
      if writesSign last ts then
        productPiece :: formalPieces (lastVisible last productPiece.text) false groups ts
      else formalPieces last false groups ts := by
  have hroot : isRoot t = false := by simp [isRoot, h]
  have hgroups : groupsAfter afterRoot groups t = groups := by simp [groupsAfter, h]
  have hwritten : written last afterRoot groups t ts =
      if writesSign last ts then some productPiece else none := by simp [written, h]
  rw [formalPieces_cons, hroot, hgroups, hwritten]
  split <;> rfl

theorem formalPieces_name {t w : Piece} {ts : List Piece} (h : t.kind = .name)
    (hroot : isRoot t = true → nextIs .openParen ts = false)
    (hw : w = if nextIs .openParen ts then callee t else t) (last : Option Char)
    (afterRoot : Bool) (groups : List FormalGroup) :
    formalPieces last afterRoot groups (t :: ts) =
      w :: formalPieces (lastVisible last w.text) false groups ts := by
  have hgroups : groupsAfter afterRoot groups t = groups := by simp [groupsAfter, h]
  have hwritten : written last afterRoot groups t ts = some w := by simp [written, h, hw]
  rw [formalPieces_cons, hgroups, hwritten]
  cases hr : isRoot t with
  | false => rfl
  | true =>
    rw [formalPieces_afterRoot (hroot hr)]
    rfl

theorem formalPieces_other {t : Piece} (hname : t.kind ≠ .name) (hmul : t.kind ≠ .mul)
    (last : Option Char) (afterRoot : Bool) (groups : List FormalGroup) (ts : List Piece) :
    formalPieces last afterRoot groups (t :: ts) =
      bracket afterRoot groups t :: formalPieces
        (lastVisible last (bracket afterRoot groups t).text) false (groupsAfter afterRoot groups t)
        ts := by
  have hroot : isRoot t = false := by simp [isRoot, hname]
  have hwritten : written last afterRoot groups t ts = some (bracket afterRoot groups t) := by
    unfold written
    split <;> simp_all
  rw [formalPieces_cons, hroot, hwritten]
  rfl

/-- The kinds of piece that are written as they are wherever they stand. -/
def isCopied : Kind → Bool
  | .name | .mul | .openParen | .openBrace | .closeParen | .closeBrace => false
  | _ => true

theorem formalPieces_copied {t : Piece} (h : isCopied t.kind = true) (last : Option Char)
    (afterRoot : Bool) (groups : List FormalGroup) (ts : List Piece) :
    formalPieces last afterRoot groups (t :: ts) =
      t :: formalPieces (lastVisible last t.text) false groups ts := by
  have hname : t.kind ≠ .name := by intro hk; rw [hk] at h; cases h
  have hmul : t.kind ≠ .mul := by intro hk; rw [hk] at h; cases h
  have hbracket : bracket afterRoot groups t = t := by
    unfold bracket
    split <;> simp_all [isCopied]
  have hgroups : groupsAfter afterRoot groups t = groups := by
    unfold groupsAfter
    split <;> simp_all [isCopied]
  rw [formalPieces_other hname hmul, hbracket, hgroups]

/-- The group that a delimiter opens. -/
def groupOf : Delimiter → FormalGroup
  | .paren => .paren
  | .brace => .brace

theorem groupOf_ne_root (d : Delimiter) : groupOf d ≠ .root := by
  cases d <;> decide

theorem formalPieces_open {t : Piece} {d : Delimiter} (h : t.kind = d.openKind)
    (last : Option Char) (groups : List FormalGroup) (ts : List Piece) :
    formalPieces last false groups (t :: ts) =
      t :: formalPieces (lastVisible last t.text) false (groupOf d :: groups) ts := by
  cases d <;> rw [formalPieces_other (by simp [h, Delimiter.openKind])
    (by simp [h, Delimiter.openKind])] <;>
    simp [bracket, groupsAfter, h, Delimiter.openKind, groupOf]

/-- A closing token ends the innermost group, and that of a square root by a brace. -/
theorem formalPieces_close {t : Piece} {d : Delimiter} (h : t.kind = d.closeKind)
    (last : Option Char) (g : FormalGroup) (groups : List FormalGroup) (ts : List Piece) :
    ∃ u last', formalPieces last false (g :: groups) (t :: ts) =
        u :: formalPieces last' false groups ts ∧
      u.kind = if g = .root then .closeBrace else d.closeKind := by
  cases d <;> rw [formalPieces_other (by simp [h, Delimiter.closeKind])
    (by simp [h, Delimiter.closeKind])]
  all_goals
    refine ⟨_, _, by rw [groupsAfter, h]; rfl, ?_⟩
    by_cases hg : g = .root <;> simp [bracket, h, Delimiter.closeKind, hg]

theorem callee_of_isRoot {t : Piece} (h : isRoot t = true) :
    callee t = ⟨.command, ['\\', 's', 'q', 'r', 't']⟩ := by
  rw [isRoot, Bool.and_eq_true, decide_eq_true_eq, decide_eq_true_eq] at h
  rw [callee, h.2]
  decide

/-- The parenthesis of a square root is written together with its name. -/
theorem formalPieces_root {t u : Piece} (ht : isRoot t = true) (hu : u.kind = .openParen)
    (last : Option Char) (afterRoot : Bool) (groups : List FormalGroup) (ts : List Piece) :
    formalPieces last afterRoot groups (t :: u :: ts) =
      ⟨.command, ['\\', 's', 'q', 'r', 't']⟩ :: ⟨.openBrace, ['\x7b']⟩ ::
        formalPieces (some '\x7b') false (.root :: groups) ts := by
  have hname : t.kind = .name := by
    rw [isRoot, Bool.and_eq_true, decide_eq_true_eq] at ht
    exact ht.1
  have hroot : isRoot u = false := by simp [isRoot, hu]
  have hwritten : written last afterRoot groups t (u :: ts) = some (callee t) := by
    simp [written, hname, nextIs, hu]
  have hbrace : ∀ last, written last true groups u ts = some ⟨.openBrace, ['\x7b']⟩ := by
    simp [written, bracket, hu]
  have hgroups : groupsAfter afterRoot groups t = groups := by simp [groupsAfter, hname]
  have hgroups' : groupsAfter true groups u = .root :: groups := by simp [groupsAfter, hu]
  rw [formalPieces_cons, formalPieces_cons, ht, hroot, hwritten, hgroups, hbrace, hgroups',
    callee_of_isRoot ht]
  rfl

theorem skipSpace_space {t : Token} (h : t.kind = .whitespace) (ts : List Token) :
    skipSpace (t :: ts) = skipSpace ts :=
  List.dropWhile_cons_of_pos (by simp [Token.isSpace, h])

theorem skipSpace_solid {t : Token} (h : t.kind ≠ .whitespace) (ts : List Token) :
    skipSpace (t :: ts) = t :: ts :=
  List.dropWhile_cons_of_neg (by simp [Token.isSpace, h])

theorem skipSpace_append {spaces : List Token} (hspaces : ∀ s ∈ spaces, s.isSpace = true)
    {u : Token} (hu : u.kind ≠ .whitespace) (after : List Token) :
    skipSpace (spaces ++ u :: after) = u :: after := by
  rw [skipSpace, List.dropWhile_append_of_pos hspaces, ← skipSpace, skipSpace_solid hu]

/-- The next token is the first one after white space. -/
theorem comes_iff {k : Kind} (hk : k ≠ .whitespace) {ts : List Token} :
    comes k ts = true ↔ ∃ spaces u after, ts = spaces ++ u :: after ∧
      (∀ t ∈ spaces, t.isSpace = true) ∧ u.kind = k := by
  constructor
  · intro h
    cases hskip : skipSpace ts with
    | nil => simp [comes, hskip] at h
    | cons u after =>
      refine ⟨ts.takeWhile Token.isSpace, u, after, ?_, fun t => List.mem_takeWhile_imp, ?_⟩
      · rw [← hskip, skipSpace, List.takeWhile_append_dropWhile]
      · simpa [comes, hskip] using h
  · rintro ⟨spaces, u, after, rfl, hspaces, rfl⟩
    rw [comes, skipSpace_append hspaces hk]
    simp

theorem head?_pieces (ts : List Token) :
    (pieces ts).head? = (skipSpace ts).head?.map Token.piece := by
  induction ts with
  | nil => rfl
  | cons t ts ih =>
    rw [pieces_cons]
    by_cases h : t.kind = .whitespace
    · rw [if_pos h, skipSpace_space h, ih]
    · rw [if_neg h, skipSpace_solid h]
      rfl

theorem tail_pieces (ts : List Token) : pieces (skipSpace ts).tail = (pieces ts).tail := by
  induction ts with
  | nil => rfl
  | cons t ts ih =>
    rw [pieces_cons]
    by_cases h : t.kind = .whitespace
    · rw [if_pos h, skipSpace_space h, ih]
    · rw [if_neg h, skipSpace_solid h]
      rfl

theorem comes_eq (k : Kind) (ts : List Token) : comes k ts = nextIs k (pieces ts) := by
  rw [comes, nextIs, head?_pieces]
  cases (skipSpace ts).head? <;> rfl

theorem lexed_rest {last : Option Char} {groups : List FormalGroup} {t : Token}
    {ts : List Token} (h : Lexed ts) : Lexed (formalStep last groups t ts).rest := by
  unfold formalStep
  split
  · split
    · split
      · exact h.skipSpace.tail
      · exact h
    · exact h
  all_goals exact h

theorem calleeText_cases (name : String) :
    calleeText name = name ∨ ∃ w, (calleeText name).toList = '\\' :: w := by
  unfold calleeText formalName
  split
  · exact .inr ⟨_, rfl⟩
  · split
    · exact .inr ⟨name.toList, by rw [String.toList_append]; rfl⟩
    · split
      · exact .inr ⟨_, rfl⟩
      · exact .inl rfl

theorem calleeText_mem (name : String) :
    calleeText name = name ∨
      calleeText name ∈ ["\\sqrt", "\\sin", "\\cos", "\\tan", "\\exp", "\\abs", "\\ln"] := by
  unfold calleeText formalName
  split
  · exact .inr (by decide)
  · split
    · next h =>
      refine .inr ?_
      simp only [List.mem_cons, List.not_mem_nil, or_false] at h
      rcases h with rfl | rfl | rfl | rfl | rfl <;> decide
    · split
      · exact .inr (by decide)
      · exact .inl rfl

theorem callee_eq {t : Piece} (ht : t.Valid) (hk : t.kind = .name) :
    callee t = t ∨ callee t ∈ ["\\sqrt", "\\sin", "\\cos", "\\tan", "\\exp", "\\abs", "\\ln"].map
      fun s => ⟨.command, s.toList⟩ := by
  obtain ⟨k, text⟩ := t
  cases hk
  rcases calleeText_mem (String.ofList text) with h | h
  · exact .inl (by simp [callee, h])
  · refine .inr (List.mem_map.mpr ⟨_, h, ?_⟩)
    obtain ⟨c, cs, rfl, hfirst⟩ := ht
    have hletter := Lexer.first_spells hfirst c List.mem_cons_self
    have hne : (calleeText (String.ofList (c :: cs))).toList ≠ c :: cs := by
      intro he
      simp only [List.mem_cons, List.not_mem_nil, or_false] at h
      rcases h with h | h | h | h | h | h | h <;> rw [h] at he <;> cases he <;>
        exact absurd hletter (by decide)
    rw [callee, if_neg hne]

theorem callee_valid {t : Piece} (ht : t.Valid) (hk : t.kind = .name) :
    (callee t).Valid ∧ ((callee t).kind = .name ∨ (callee t).kind = .command) := by
  rcases callee_eq ht hk with h | h
  · rw [h]
    exact ⟨ht, .inl hk⟩
  · obtain ⟨s, hs, h⟩ := List.mem_map.mp h
    rw [← h]
    refine ⟨?_, .inr rfl⟩
    simp only [List.mem_cons, List.not_mem_nil, or_false] at hs
    rcases hs with rfl | rfl | rfl | rfl | rfl | rfl | rfl <;> exact ⟨_, _, rfl, by decide⟩

theorem bracket_valid (afterRoot : Bool) (groups : List FormalGroup) {t : Piece} (ht : t.Valid) :
    (bracket afterRoot groups t).Valid ∧
      ((bracket afterRoot groups t).kind = .whitespace → t.kind = .whitespace) ∧
      (bracket afterRoot groups t = t ∨ (bracket afterRoot groups t).kind ≠ .symbol ∧
        ∀ c, (bracket afterRoot groups t).takes c = true → t.takes c = true) := by
  have hopen : Piece.Valid ⟨.openBrace, ['\x7b']⟩ := ⟨_, _, rfl, by decide⟩
  have hclose : Piece.Valid ⟨.closeBrace, ['\x7d']⟩ := ⟨_, _, rfl, by decide⟩
  unfold bracket
  split
  · split
    · exact ⟨hopen, by simp, .inr ⟨by decide, fun _ hc => by cases hc⟩⟩
    · exact ⟨ht, id, .inl rfl⟩
  · split
    · exact ⟨hclose, by simp, .inr ⟨by decide, fun _ hc => by cases hc⟩⟩
    · exact ⟨ht, id, .inl rfl⟩
  · exact ⟨ht, id, .inl rfl⟩

end Spelling

end CurveGuess
