import CurveGuess.Proofs.Formal.Relexing
import CurveGuess.Proofs.Lexing.Longest

/-!
# Brackets of the formal spelling

A text whose brackets are nested keeps every one of them in its place when it is spelled formally.
The group of a square root is written with braces, for the parenthesis that closes it is found on
the stack of open groups; all other brackets are written as they are. So the partners stay partners.
-/
namespace CurveGuess.Spelling

def isBracket (c : Char) : Bool := c = '(' || c = ')' || c = '\x7b' || c = '\x7d'

/-- The brackets of a text in order. -/
def brackets (cs : List Char) : List Char := cs.filter isBracket

def isOpener (c : Char) : Bool := c = '(' || c = '\x7b'

/-- The opening and the closing bracket of one form. -/
inductive IsPair : Char → Char → Prop where
  | paren : IsPair '(' ')'
  | brace : IsPair '\x7b' '\x7d'

/-- Brackets that all have a partner of their form, with nested brackets in between. -/
inductive Nested : List Char → Prop where
  | nil : Nested []
  | pair {o c : Char} {inner after : List Char} : IsPair o c → Nested inner → Nested after →
      Nested (o :: (inner ++ c :: after))

/-- The brackets at the places `i` and `j` are partners: they make a pair and what stands between
them is nested. -/
def Partners (bs : List Char) (i j : Nat) : Prop :=
  ∃ before o inner c after, bs = before ++ o :: (inner ++ c :: after) ∧ IsPair o c ∧
    Nested inner ∧ before.length = i ∧ i + inner.length + 1 = j

theorem brackets_append (u v : List Char) : brackets (u ++ v) = brackets u ++ brackets v :=
  List.filter_append u v

theorem brackets_eq_nil {cs : List Char} : brackets cs = [] ↔ ∀ c ∈ cs, isBracket c = false := by
  simp [brackets]

theorem IsPair.isOpener {o c : Char} (h : IsPair o c) : isOpener o = true ∧ isOpener c = false := by
  cases h <;> exact ⟨rfl, rfl⟩

/-- Nested brackets end where a closing bracket has no partner among them. -/
theorem Nested.eq_of_append {u v : List Char} (hu : Nested u) (hv : Nested v) {c d : Char}
    (hc : isOpener c = false) (hd : isOpener d = false) {r s : List Char}
    (h : u ++ c :: r = v ++ d :: s) : u = v := by
  induction hu generalizing v c d r s with
  | nil =>
    cases hv with
    | nil => rfl
    | pair hpair _ _ =>
      obtain ⟨rfl, -⟩ := List.cons.inj h
      rw [hpair.isOpener.1] at hc
      cases hc
  | @pair o close inner after hpair _ _ ihinner ihafter =>
    cases hv with
    | nil =>
      obtain ⟨rfl, -⟩ := List.cons.inj h
      rw [hpair.isOpener.1] at hd
      cases hd
    | @pair o' close' inner' after' hpair' hinner' hafter' =>
      simp only [List.cons_append, List.append_assoc, List.cons.injEq] at h
      obtain ⟨rfl, h⟩ := h
      obtain rfl := ihinner hinner' hpair.isOpener.2 hpair'.isOpener.2 h
      obtain ⟨rfl, hrest⟩ := List.cons.inj (List.append_cancel_left h)
      rw [ihafter hafter' hc hd hrest]

/-- Every opening bracket has a partner. -/
theorem Nested.exists_close {bs : List Char} (h : Nested bs) {before : List Char} {o : Char}
    {rest : List Char} (ho : isOpener o = true) (hbs : bs = before ++ o :: rest) :
    ∃ inner c after, rest = inner ++ c :: after ∧ IsPair o c ∧ Nested inner := by
  induction h generalizing before rest with
  | nil => simp at hbs
  | @pair o' c inner after hpair hinner _ ihinner ihafter =>
    cases before with
    | nil =>
      obtain ⟨rfl, rfl⟩ := List.cons.inj hbs
      exact ⟨inner, c, after, rfl, hpair, hinner⟩
    | cons b before =>
      obtain ⟨-, hbs⟩ := List.cons.inj hbs
      -- the bracket stands inside the first pair or after it
      rcases List.append_eq_append_iff.mp hbs with ⟨w, rfl, hw⟩ | ⟨w, hw, hrest⟩
      · cases w with
        | nil =>
          obtain ⟨rfl, -⟩ := List.cons.inj hw
          rw [hpair.isOpener.2] at ho
          cases ho
        | cons _ w =>
          obtain ⟨-, rfl⟩ := List.cons.inj hw
          exact ihafter rfl
      · cases w with
        | nil =>
          obtain ⟨rfl, -⟩ := List.cons.inj hrest
          rw [hpair.isOpener.2] at ho
          cases ho
        | cons _ w =>
          obtain ⟨rfl, rfl⟩ := List.cons.inj hrest
          obtain ⟨inner', c', after', rfl, hpair', hinner'⟩ := ihinner hw
          exact ⟨inner', c', after' ++ c :: after, by simp, hpair', hinner'⟩

theorem Partners.unique {bs : List Char} {i j k : Nat} (hj : Partners bs i j)
    (hk : Partners bs i k) : j = k := by
  obtain ⟨before, o, inner, c, after, rfl, hpair, hinner, rfl, rfl⟩ := hj
  obtain ⟨before', o', inner', c', after', hbs, hpair', hinner', hlength, rfl⟩ := hk
  obtain ⟨-, htail⟩ := List.append_inj hbs hlength.symm
  rw [hinner.eq_of_append hinner' hpair.isOpener.2 hpair'.isOpener.2 (List.cons.inj htail).2]

/-- What stands at the places of a pair. -/
theorem getElem?_pair (before inner after : List Char) (o c : Char) :
    (before ++ o :: (inner ++ c :: after))[before.length]? = some o ∧
      (before ++ o :: (inner ++ c :: after))[before.length + inner.length + 1]? = some c := by
  constructor
  · simp
  · rw [Nat.add_assoc, List.getElem?_append_right (Nat.le_add_right _ _)]
    simp

/-- A bracket of a text. `root` tells that it is a parenthesis after the name of a square root. -/
structure Mark where
  char : Char
  root : Bool

namespace Mark

/-- What the bracket is written as inside the groups `groups`. -/
def written (m : Mark) (groups : List FormalGroup) : Char :=
  if m.char = '(' ∧ m.root = true then '\x7b'
  else if m.char = ')' ∧ groups.head? = some .root then '\x7d'
  else m.char

/-- The groups that are open after the bracket. -/
def groupsAfter (m : Mark) (groups : List FormalGroup) : List FormalGroup :=
  if m.char = '(' then (if m.root then .root else .paren) :: groups
  else if m.char = '\x7b' then .brace :: groups
  else groups.tail

theorem isOpener_written (m : Mark) (groups : List FormalGroup) :
    isOpener (m.written groups) = isOpener m.char := by
  unfold written
  split
  · next h =>
    rw [h.1]
    rfl
  · split
    · next h =>
      rw [h.1]
      rfl
    · rfl

theorem written_close (root : Bool) (groups : List FormalGroup) :
    written ⟨')', root⟩ groups = if groups.head? = some .root then '\x7d' else ')' := by
  simp [written]

section
variable {a b : Mark}

/-- A pair leaves the open groups as they were, whatever they are. -/
theorem groupsAfter_pair (h : IsPair a.char b.char) (groups : List FormalGroup) :
    b.groupsAfter (a.groupsAfter groups) = groups := by
  obtain ⟨o, root⟩ := a
  obtain ⟨c, _⟩ := b
  cases h <;> cases root <;> rfl

theorem isPair_written (h : IsPair a.char b.char) (groups : List FormalGroup) :
    IsPair (a.written groups) (b.written (a.groupsAfter groups)) := by
  obtain ⟨o, root⟩ := a
  obtain ⟨c, _⟩ := b
  cases h <;> cases root <;> constructor

/-- The parentheses of a square root become braces. -/
theorem written_root (h : IsPair a.char b.char) (ha : a = ⟨'(', true⟩)
    (groups : List FormalGroup) :
    b.char = ')' ∧ a.written groups = '\x7b' ∧ b.written (a.groupsAfter groups) = '\x7d' := by
  subst ha
  obtain ⟨c, _⟩ := b
  cases h
  exact ⟨rfl, rfl, rfl⟩

/-- Other brackets are written as they are. -/
theorem written_of_ne_root (h : IsPair a.char b.char) (ha : a ≠ ⟨'(', true⟩)
    (groups : List FormalGroup) :
    a.written groups = a.char ∧ b.written (a.groupsAfter groups) = b.char := by
  obtain ⟨o, root⟩ := a
  obtain ⟨c, _⟩ := b
  cases h <;> cases root
  case paren.true => exact absurd rfl ha
  all_goals exact ⟨rfl, rfl⟩

end

end Mark

/-- The brackets as they are written inside the groups `groups`. -/
def respell (groups : List FormalGroup) : List Mark → List Char
  | [] => []
  | m :: ms => m.written groups :: respell (m.groupsAfter groups) ms

/-- The groups that are open after the brackets. -/
def groupsAfterAll (groups : List FormalGroup) (ms : List Mark) : List FormalGroup :=
  ms.foldl (fun gs m => m.groupsAfter gs) groups

theorem length_respell (groups : List FormalGroup) (ms : List Mark) :
    (respell groups ms).length = ms.length := by
  induction ms generalizing groups with
  | nil => rfl
  | cons m ms ih => simp [respell, ih]

theorem respell_append (groups : List FormalGroup) (u v : List Mark) :
    respell groups (u ++ v) = respell groups u ++ respell (groupsAfterAll groups u) v := by
  induction u generalizing groups with
  | nil => rfl
  | cons m u ih =>
    rw [List.cons_append, respell, respell, ih, List.cons_append]
    rfl

theorem groupsAfterAll_append (groups : List FormalGroup) (u v : List Mark) :
    groupsAfterAll groups (u ++ v) = groupsAfterAll (groupsAfterAll groups u) v :=
  List.foldl_append

/-- Nested brackets leave the open groups as they were, and are nested when they are written. -/
theorem Nested.respell {ms : List Mark} (h : Nested (ms.map Mark.char))
    (groups : List FormalGroup) :
    groupsAfterAll groups ms = groups ∧ Nested (Spelling.respell groups ms) := by
  generalize hbs : ms.map Mark.char = bs at h
  induction h generalizing ms groups with
  | nil =>
    rw [List.map_eq_nil_iff.mp hbs]
    exact ⟨rfl, .nil⟩
  | pair hpair _ _ ihinner ihafter =>
    obtain ⟨a, inside, rfl, rfl, hinside⟩ := List.map_eq_cons_iff.mp hbs
    obtain ⟨inner, rest, rfl, rfl, hrest⟩ := List.map_eq_append_iff.mp hinside
    obtain ⟨b, after, rfl, rfl, rfl⟩ := List.map_eq_cons_iff.mp hrest
    obtain ⟨hinner, hinner'⟩ := ihinner (a.groupsAfter groups) rfl
    obtain ⟨hafter, hafter'⟩ := ihafter groups rfl
    have hgroups := Mark.groupsAfter_pair hpair groups
    constructor
    · change groupsAfterAll (a.groupsAfter groups) (inner ++ b :: after) = groups
      rw [groupsAfterAll_append, hinner]
      change groupsAfterAll (b.groupsAfter (a.groupsAfter groups)) after = groups
      rw [hgroups, hafter]
    · rw [Spelling.respell, respell_append, hinner, Spelling.respell, hgroups]
      exact .pair (Mark.isPair_written hpair groups) hinner' hafter'

/-- What is written for a pair and all around it. -/
theorem respell_pair {a b : Mark} (hpair : IsPair a.char b.char) {inner : List Mark}
    (hinner : Nested (inner.map Mark.char)) (groups : List FormalGroup) (before after : List Mark) :
    respell groups (before ++ a :: (inner ++ b :: after)) =
      let open' := groupsAfterAll groups before
      respell groups before ++ a.written open' :: (respell (a.groupsAfter open') inner ++
        b.written (a.groupsAfter open') :: respell open' after) := by
  rw [respell_append, respell, respell_append, (hinner.respell _).1, respell,
    Mark.groupsAfter_pair hpair]

theorem Partners.exists_marks {ms : List Mark} {i j : Nat} (h : Partners (ms.map Mark.char) i j) :
    ∃ before a inner b after, ms = before ++ a :: (inner ++ b :: after) ∧ IsPair a.char b.char ∧
      Nested (inner.map Mark.char) ∧ before.length = i ∧ i + inner.length + 1 = j := by
  obtain ⟨before, o, inner, c, after, hms, hpair, hinner, rfl, rfl⟩ := h
  obtain ⟨before, here, rfl, rfl, hhere⟩ := List.map_eq_append_iff.mp hms
  obtain ⟨a, inside, rfl, rfl, hinside⟩ := List.map_eq_cons_iff.mp hhere
  obtain ⟨inner, rest, rfl, rfl, hrest⟩ := List.map_eq_append_iff.mp hinside
  obtain ⟨b, after, rfl, rfl, rfl⟩ := List.map_eq_cons_iff.mp hrest
  exact ⟨before, a, inner, b, after, rfl, hpair, hinner, by simp, by simp⟩

theorem Partners.respell {ms : List Mark} {i j : Nat} (h : Partners (ms.map Mark.char) i j)
    (groups : List FormalGroup) : Partners (Spelling.respell groups ms) i j := by
  obtain ⟨before, a, inner, b, after, rfl, hpair, hinner, rfl, rfl⟩ := h.exists_marks
  rw [respell_pair hpair hinner]
  exact ⟨_, _, _, _, _, rfl, Mark.isPair_written hpair _, (hinner.respell _).2,
    length_respell _ before, by rw [length_respell]⟩

/-- A written bracket is written for the bracket at its place. -/
theorem exists_mark {groups : List FormalGroup} {ms : List Mark} {u v : List Char} {o : Char}
    (h : respell groups ms = u ++ o :: v) :
    ∃ before m after, ms = before ++ m :: after ∧ before.length = u.length ∧
      m.written (groupsAfterAll groups before) = o := by
  induction u generalizing groups ms with
  | nil =>
    cases ms with
    | nil => cases h
    | cons m after => exact ⟨[], m, after, rfl, rfl, (List.cons.inj h).1⟩
  | cons c u ih =>
    cases ms with
    | nil => cases h
    | cons m ms =>
      obtain ⟨before, m', after, rfl, hlength, hwritten⟩ := ih (List.cons.inj h).2
      exact ⟨m :: before, m', after, rfl, by simp [hlength], hwritten⟩

/-- Brackets are partners when they are written just if they were before. -/
theorem partners_respell {ms : List Mark} (h : Nested (ms.map Mark.char)) {i j : Nat}
    (groups : List FormalGroup) :
    Partners (respell groups ms) i j ↔ Partners (ms.map Mark.char) i j := by
  refine ⟨fun hwritten => ?_, fun hgiven => hgiven.respell groups⟩
  -- the opening bracket had a partner before, which it keeps, and it has no other
  obtain ⟨u, o, _, _, _, hms, hpair, -, rfl, -⟩ := id hwritten
  obtain ⟨before, m, after, rfl, hlength, rfl⟩ := exists_mark hms
  have hopener : isOpener m.char = true := by
    rw [← m.isOpener_written]
    exact hpair.isOpener.1
  rw [List.map_append, List.map_cons] at h ⊢
  obtain ⟨inner, c, rest, hrest, hpair', hinner⟩ := h.exists_close hopener rfl
  have hgiven : Partners (before.map Mark.char ++ m.char :: after.map Mark.char) u.length
      (u.length + inner.length + 1) :=
    ⟨_, _, inner, c, rest, by rw [hrest], hpair', hinner, by rw [List.length_map, hlength], rfl⟩
  rw [← List.map_cons, ← List.map_append] at hgiven ⊢
  rw [hwritten.unique (hgiven.respell groups)]
  exact hgiven

/-- The brackets of tokens in order. `afterRoot` tells that the name of a square root came just
before. -/
def marks (afterRoot : Bool) : List Token → List Mark
  | [] => []
  | t :: ts => (brackets t.lexeme.toList).map (⟨·, afterRoot && t.kind = .openParen⟩) ++
      marks (if t.isSpace then afterRoot else isRoot t.piece) ts

/-- The tokens end in the name of a square root, but for white space. -/
def EndsInRoot (ts : List Token) : Prop :=
  ∃ before name spaces, ts = before ++ name :: spaces ∧ name.kind = .name ∧ name.lexeme = "sqrt" ∧
    ∀ u ∈ spaces, u.isSpace = true

/-- The bracket at the place `i` is a parenthesis right after the name of a square root. -/
def RootAt (source : String) (i : Nat) : Prop :=
  ∃ before t after, tokens source = before ++ t :: after ∧ EndsInRoot before ∧
    t.kind = .openParen ∧ (brackets (String.join (before.map Token.lexeme)).toList).length = i

theorem eq_of_isBracket {c : Char} (h : isBracket c = true) :
    c = '(' ∨ c = ')' ∨ c = '\x7b' ∨ c = '\x7d' := by
  simpa [isBracket, or_assoc] using h

/-- Only brackets have brackets in their text. -/
theorem brackets_text {t : Piece} (ht : t.Valid) (hopen : t.kind ≠ .openParen)
    (hclose : t.kind ≠ .closeParen) (hopen' : t.kind ≠ .openBrace)
    (hclose' : t.kind ≠ .closeBrace) : brackets t.text = [] := by
  rw [brackets_eq_nil]
  intro c hc
  refine Bool.eq_false_iff.mpr fun hbracket => ?_
  have hinner : Lexer.isInner c = false := by
    rcases eq_of_isBracket hbracket with rfl | rfl | rfl | rfl <;> rfl
  obtain ⟨w, htext, -, rfl | ⟨rfl, -⟩⟩ := ht.text_eq_cons hc hinner
  · have hkind := ht.kind_eq htext
    rcases eq_of_isBracket hbracket with rfl | rfl | rfl | rfl
    · exact hopen hkind
    · exact hclose hkind
    · exact hopen' hkind
    · exact hclose' hkind
  · cases hbracket

theorem isRoot_piece {t : Token} : isRoot t.piece = true ↔ t.kind = .name ∧ t.lexeme = "sqrt" := by
  rw [isRoot, Bool.and_eq_true, decide_eq_true_eq, decide_eq_true_eq, Token.kind_piece,
    Token.text_piece, ← String.toList_inj]
  rfl

theorem isRoot_of_ne_name {t : Token} (h : t.kind ≠ .name) : isRoot t.piece = false :=
  Bool.eq_false_iff.mpr fun hroot => h (isRoot_piece.mp hroot).1

theorem marks_space {t : Token} (ht : t.piece.Valid) (hspace : t.isSpace = true) (afterRoot : Bool)
    (ts : List Token) : marks afterRoot (t :: ts) = marks afterRoot ts := by
  have hk : t.kind = .whitespace := by simpa [Token.isSpace] using hspace
  have hnone : brackets t.lexeme.toList = [] := by
    apply brackets_text ht <;> simp [hk]
  rw [marks, hnone, if_pos hspace]
  rfl

theorem marks_quiet {t : Token} (hspace : t.kind ≠ .whitespace)
    (hnone : brackets t.lexeme.toList = []) (afterRoot : Bool) (ts : List Token) :
    marks afterRoot (t :: ts) = marks (isRoot t.piece) ts := by
  rw [marks, hnone, if_neg (by simpa [Token.isSpace] using hspace)]
  rfl

theorem marks_bracket {t : Token} {c : Char} (hspace : t.kind ≠ .whitespace)
    (hname : t.kind ≠ .name) (htext : t.lexeme.toList = [c]) (hc : isBracket c = true)
    (afterRoot : Bool) (ts : List Token) :
    marks afterRoot (t :: ts) = ⟨c, afterRoot && t.kind = .openParen⟩ :: marks false ts := by
  have hone : brackets [c] = [c] := by simp [brackets, hc]
  rw [marks, htext, hone, if_neg (by simpa [Token.isSpace] using hspace), isRoot_of_ne_name hname]
  rfl

theorem marks_spaces {spaces : List Token} (hspaces : ∀ s ∈ spaces, s.isSpace = true)
    (hvalid : ∀ s ∈ spaces, s.piece.Valid) (afterRoot : Bool) (ts : List Token) :
    marks afterRoot (spaces ++ ts) = marks afterRoot ts := by
  induction spaces with
  | nil => rfl
  | cons s spaces ih =>
    obtain ⟨hspace, hspaces⟩ := List.forall_mem_cons.mp hspaces
    obtain ⟨hs, hvalid⟩ := List.forall_mem_cons.mp hvalid
    rw [List.cons_append, marks_space hs hspace, ih hspaces hvalid]

theorem map_char_marks (afterRoot : Bool) (ts : List Token) :
    (marks afterRoot ts).map Mark.char = brackets (String.join (ts.map Token.lexeme)).toList := by
  induction ts generalizing afterRoot with
  | nil => rfl
  | cons t ts ih =>
    rw [marks, List.map_append, ih, List.map_cons, String.join_cons, String.toList_append,
      brackets_append, List.map_map]
    congr 1
    exact List.map_id _

/-- Did the name of a square root come just before, after the tokens? -/
def rootAfter (afterRoot : Bool) (ts : List Token) : Bool :=
  ts.foldl (fun r t => if t.isSpace then r else isRoot t.piece) afterRoot

theorem marks_append (afterRoot : Bool) (u v : List Token) :
    marks afterRoot (u ++ v) = marks afterRoot u ++ marks (rootAfter afterRoot u) v := by
  induction u generalizing afterRoot with
  | nil => rfl
  | cons t u ih =>
    rw [List.cons_append, marks, marks, ih, List.append_assoc]
    rfl

theorem rootAfter_iff {ts : List Token} : rootAfter false ts = true ↔ EndsInRoot ts := by
  induction ts using List.reverseRecOn with
  | nil => simp [rootAfter, EndsInRoot]
  | append_singleton ts t ih =>
    have hlast : rootAfter false (ts ++ [t]) =
        if t.isSpace then rootAfter false ts else isRoot t.piece := by
      rw [rootAfter, List.foldl_append]
      rfl
    rw [hlast]
    constructor
    · intro h
      split at h
      · next hspace =>
        obtain ⟨before, name, spaces, rfl, hname, hroot, hspaces⟩ := ih.mp h
        refine ⟨before, name, spaces ++ [t], by simp, hname, hroot, ?_⟩
        rw [List.forall_mem_append, List.forall_mem_singleton]
        exact ⟨hspaces, hspace⟩
      · obtain ⟨hname, hroot⟩ := isRoot_piece.mp h
        exact ⟨ts, t, [], rfl, hname, hroot, by simp⟩
    · rintro ⟨before, name, spaces, hts, hname, hroot, hspaces⟩
      rcases List.eq_nil_or_concat' spaces with rfl | ⟨spaces, space, rfl⟩
      · obtain ⟨rfl, ht⟩ := List.append_inj' hts rfl
        obtain rfl := List.singleton_inj.mp ht
        rw [if_neg (by simp [Token.isSpace, hname])]
        exact isRoot_piece.mpr ⟨hname, hroot⟩
      · rw [← List.cons_append, ← List.append_assoc] at hts
        obtain ⟨rfl, ht⟩ := List.append_inj' hts rfl
        obtain rfl := List.singleton_inj.mp ht
        rw [if_pos (hspaces t (by simp))]
        exact ih.mpr ⟨before, name, spaces, rfl, hname, hroot,
          fun u hu => hspaces u (List.mem_append_left _ hu)⟩

/-- The parenthesis that is marked stands after the name. -/
theorem exists_of_marks_eq {ts : List Token} (hts : ∀ t ∈ ts, t.piece.Valid) {afterRoot : Bool}
    {u v : List Mark} (h : marks afterRoot ts = u ++ ⟨'(', true⟩ :: v) :
    ∃ before t after, ts = before ++ t :: after ∧ rootAfter afterRoot before = true ∧
      t.kind = .openParen ∧ marks afterRoot before = u := by
  induction ts generalizing afterRoot u with
  | nil => simp [marks] at h
  | cons t ts ih =>
    obtain ⟨ht, hts⟩ := List.forall_mem_cons.mp hts
    rw [marks] at h
    rcases List.append_eq_append_iff.mp h with ⟨w, rfl, hw⟩ | ⟨w, hu, hw⟩
    · obtain ⟨before, v', after, rfl, hroot, hv', rfl⟩ := ih hts hw
      exact ⟨t :: before, v', after, rfl, hroot, hv', rfl⟩
    · cases w with
      | nil =>
        obtain ⟨before, v', after, rfl, hroot, hv', hbefore⟩ := ih hts (u := []) hw.symm
        refine ⟨t :: before, v', after, rfl, hroot, hv', ?_⟩
        rw [marks, hbefore, hu, List.append_nil, List.append_nil]
      | cons m w =>
        obtain ⟨rfl, -⟩ := List.cons.inj hw
        have hmem : ⟨'(', true⟩ ∈ u ++ (⟨'(', true⟩ : Mark) :: w := by simp
        rw [← hu] at hmem
        obtain ⟨c, -, hc⟩ := List.mem_map.mp hmem
        obtain ⟨-, hflag⟩ := Mark.mk.inj hc
        rw [Bool.and_eq_true, decide_eq_true_eq] at hflag
        have htext := ht.spells
        rw [Token.kind_piece, Token.text_piece, hflag.2] at htext
        rw [show t.lexeme.toList = ['('] from htext] at hu
        have hnil : u = [] := by
          have hlength := congrArg List.length hu
          simp [brackets, isBracket] at hlength
          exact List.length_eq_zero_iff.mp (by omega)
        exact ⟨[], t, ts, rfl, hflag.1, hflag.2, hnil.symm⟩

theorem rootAt_iff {s : String} {i : Nat} :
    RootAt s i ↔ ∃ u v, marks false (tokens s) = u ++ ⟨'(', true⟩ :: v ∧ u.length = i := by
  have hvalid : ∀ t ∈ tokens s, t.piece.Valid := (lexed_tokensFrom 0 s.toList).valid
  have hlength : ∀ ts : List Token,
      (brackets (String.join (ts.map Token.lexeme)).toList).length = (marks false ts).length := by
    intro ts
    rw [← map_char_marks false, List.length_map]
  constructor
  · rintro ⟨before, t, after, hts, hroot, ht, rfl⟩
    have htext := (hvalid t (by simp [hts])).spells
    rw [Token.kind_piece, ht] at htext
    refine ⟨marks false before, marks false after, ?_, (hlength before).symm⟩
    rw [hts, marks_append, rootAfter_iff.mpr hroot,
      marks_bracket (by simp [ht]) (by simp [ht]) htext rfl, decide_eq_true ht, Bool.true_and]
  · rintro ⟨u, v, hmarks, rfl⟩
    obtain ⟨before, t, after, hts, hroot, ht, rfl⟩ := exists_of_marks_eq hvalid hmarks
    exact ⟨before, t, after, hts, rootAfter_iff.mp hroot, ht, hlength before⟩

theorem brackets_formalName {t : Token} (ht : t.piece.Valid) (hk : t.kind = .name)
    (hroot : t.lexeme ≠ "sqrt") : brackets (formalName t.lexeme).toList = [] := by
  have hcallee : (callee t.piece).text = (formalName t.lexeme).toList := by
    simp [callee, calleeText, hroot]
  obtain ⟨hvalid, hkind⟩ := callee_valid ht hk
  rw [← hcallee]
  apply brackets_text hvalid <;> rcases hkind with h | h <;> simp [h]

theorem brackets_productSign (last : Option Char) {ts : List Token} (h : Lexed ts) :
    brackets (productSign last ts) = [] := by
  obtain ⟨w, hw, hsign, -⟩ := productSign_eq last h
  rw [hsign]
  split
  · rcases hw with rfl | rfl <;> rfl
  · rfl

/-- The step writes the brackets `ms` as far as it takes their tokens. Before the tokens that it
leaves, no name of a square root waits for its parenthesis. -/
def FormalStep.Writes (s : FormalStep) (groups : List FormalGroup) (ms : List Mark) : Prop :=
  ∃ afterRoot, (afterRoot = true → comes .openParen s.rest = false) ∧
    respell groups ms = brackets s.text ++ respell s.groups (marks afterRoot s.rest)

section
variable {t : Token} {ts : List Token}

/-- The parenthesis of a square root is written together with the name. -/
theorem writes_name (h : Lexed (t :: ts)) (hk : t.kind = .name) (last : Option Char)
    (groups : List FormalGroup) (afterRoot : Bool) :
    (formalStep last groups t ts).Writes groups (marks afterRoot (t :: ts)) := by
  obtain ⟨ht, -, hts⟩ := h
  have hnone : brackets t.lexeme.toList = [] := by apply brackets_text ht <;> simp [hk]
  rw [formalStep, hk, marks_quiet (by simp [hk]) hnone]
  dsimp only
  split
  · next hopen =>
    split
    · next hname =>
      obtain ⟨spaces, u, after, rfl, hspaces, hu⟩ := (comes_iff (by decide)).mp hopen
      have hvalid : ∀ s ∈ spaces ++ u :: after, s.piece.Valid := hts.valid
      have hutext := (hvalid u (by simp)).spells
      rw [Token.kind_piece, hu] at hutext
      refine ⟨false, by simp, ?_⟩
      rw [isRoot_piece.mpr ⟨hk, hname⟩,
        marks_spaces hspaces fun s hs => hvalid s (List.mem_append_left _ hs),
        marks_bracket (by simp [hu]) (by simp [hu]) hutext rfl,
        skipSpace_append hspaces (by simp [hu]), decide_eq_true hu]
      rfl
    · next hname =>
      have hroot : isRoot t.piece = false :=
        Bool.eq_false_iff.mpr fun hroot => hname (isRoot_piece.mp hroot).2
      refine ⟨false, by simp, ?_⟩
      rw [hroot, brackets_formalName ht hk hname]
      rfl
  · next hopen =>
    refine ⟨isRoot t.piece, fun _ => by simpa using hopen, ?_⟩
    rw [hnone]
    rfl

/-- A token without brackets leaves those of the others to be written. -/
theorem writes_quiet (hname : t.kind ≠ .name) (hnone : brackets t.lexeme.toList = [])
    (ht : t.piece.Valid) (groups : List FormalGroup) {text : List Char}
    (htext : brackets text = []) {afterRoot : Bool}
    (hafter : afterRoot = true → comes .openParen (t :: ts) = false) :
    FormalStep.Writes ⟨text, groups, ts⟩ groups (marks afterRoot (t :: ts)) := by
  by_cases hspace : t.kind = .whitespace
  · refine ⟨afterRoot, ?_, ?_⟩
    · rwa [comes, skipSpace_space hspace] at hafter
    · rw [marks_space ht (by simp [Token.isSpace, hspace]), htext]
      rfl
  · refine ⟨false, by simp, ?_⟩
    rw [marks_quiet hspace hnone, isRoot_of_ne_name hname, htext]
    rfl

theorem writes_formalStep (h : Lexed (t :: ts)) (last : Option Char) (groups : List FormalGroup)
    {afterRoot : Bool} (hafter : afterRoot = true → comes .openParen (t :: ts) = false) :
    (formalStep last groups t ts).Writes groups (marks afterRoot (t :: ts)) := by
  by_cases hname : t.kind = .name
  · exact writes_name h hname last groups afterRoot
  obtain ⟨ht, -, hts⟩ := h
  have hspells := ht.spells
  rw [Token.kind_piece, Token.text_piece] at hspells
  have hnone := brackets_text ht
  rw [Token.kind_piece, Token.text_piece] at hnone
  unfold formalStep
  split
  · next hk => exact absurd hk hname
  · next hk =>
    replace hnone := hnone (by simp [hk]) (by simp [hk]) (by simp [hk]) (by simp [hk])
    exact writes_quiet hname hnone ht groups (brackets_productSign last hts) hafter
  · next hk =>
    rw [hk] at hspells
    have hplain : afterRoot = false := by
      cases afterRoot with
      | false => rfl
      | true => simpa [comes, skipSpace_solid, hk] using hafter rfl
    refine ⟨false, by simp, ?_⟩
    rw [marks_bracket (by simp [hk]) hname hspells rfl, hplain]
    rfl
  · next hk =>
    rw [hk] at hspells
    refine ⟨false, by simp, ?_⟩
    rw [marks_bracket (by simp [hk]) hname hspells rfl]
    rfl
  · next hk =>
    rw [hk] at hspells
    refine ⟨false, by simp, ?_⟩
    rw [marks_bracket (by simp [hk]) hname hspells rfl, respell, Mark.written_close]
    split <;> rfl
  · next hk =>
    rw [hk] at hspells
    refine ⟨false, by simp, ?_⟩
    rw [marks_bracket (by simp [hk]) hname hspells rfl]
    rfl
  · next _ _ hopen hopen' hclose hclose' =>
    replace hnone := hnone hopen hclose hopen' hclose'
    exact writes_quiet hname hnone ht groups hnone hafter

end

/-- The brackets of a formal text are those of its tokens, respelled. -/
theorem brackets_formalFrom {ts : List Token} (h : Lexed ts) (last : Option Char)
    (groups : List FormalGroup) (afterRoot : Bool)
    (hafter : afterRoot = true → comes .openParen ts = false) :
    brackets (formalFrom last groups ts) = respell groups (marks afterRoot ts) := by
  induction last, groups, ts using formalFrom.induct generalizing afterRoot with
  | case1 last groups =>
    rw [formalFrom]
    rfl
  | case2 last groups t ts s ih =>
    obtain ⟨afterRoot', hafter', hstep⟩ := writes_formalStep h last groups hafter
    rw [formalFrom_cons, brackets_append, hstep, ih (lexed_rest h.2.2) afterRoot' hafter']

/-- The brackets of a formal text are the brackets of what was typed, and partners stay partners.
The pairs that change are those of square roots. -/
theorem partners_toFormal {s : String} (h : Nested (brackets s.toList)) :
    let given := brackets s.toList
    let formal := brackets (toFormal s).toList
    formal.length = given.length ∧ Nested formal ∧
      (∀ i j, Partners formal i j ↔ Partners given i j) ∧
      ∀ i j, Partners given i j →
        (RootAt s i → given[i]? = some '(' ∧ given[j]? = some ')' ∧
          formal[i]? = some '\x7b' ∧ formal[j]? = some '\x7d') ∧
        (¬RootAt s i → formal[i]? = given[i]? ∧ formal[j]? = given[j]?) := by
  have hlexed : Lexed (tokens s) := lexed_tokensFrom 0 s.toList
  have hgiven : (marks false (tokens s)).map Mark.char = brackets s.toList := by
    rw [map_char_marks, tokens, Lexer.join_tokensFrom, String.ofList_toList]
  have hformal : brackets (toFormal s).toList = respell [] (marks false (tokens s)) := by
    rw [toFormal, String.toList_ofList, brackets_formalFrom hlexed none [] false (by simp)]
  dsimp only
  rw [← hgiven] at h ⊢
  rw [hformal]
  refine ⟨?_, (h.respell []).2, fun i j => partners_respell h [], ?_⟩
  · rw [length_respell, List.length_map]
  · intro i j hij
    obtain ⟨before, a, inner, b, after, hms, hpair, hinner, rfl, rfl⟩ := hij.exists_marks
    have hroot : RootAt s before.length ↔ a = ⟨'(', true⟩ := by
      rw [rootAt_iff]
      constructor
      · rintro ⟨u, v, hu, hlength⟩
        exact (List.cons.inj (List.append_inj (hms.symm.trans hu) hlength.symm).2).1
      · rintro rfl
        exact ⟨before, _, hms, rfl⟩
    obtain ⟨hi, hj⟩ := getElem?_pair (before.map Mark.char) (inner.map Mark.char)
      (after.map Mark.char) a.char b.char
    obtain ⟨hi', hj'⟩ := getElem?_pair (respell [] before)
      (respell (a.groupsAfter (groupsAfterAll [] before)) inner)
      (respell (groupsAfterAll [] before) after) (a.written (groupsAfterAll [] before))
      (b.written (a.groupsAfter (groupsAfterAll [] before)))
    simp only [List.length_map] at hi hj
    simp only [length_respell] at hi' hj'
    rw [hroot, hms, respell_pair hpair hinner, List.map_append, List.map_cons, List.map_append,
      List.map_cons, hi, hj, hi', hj']
    constructor
    · intro ha
      obtain ⟨hb, hopen, hclose⟩ := Mark.written_root hpair ha (groupsAfterAll [] before)
      rw [hopen, hclose, hb, ha]
      exact ⟨rfl, rfl, rfl, rfl⟩
    · intro ha
      obtain ⟨hopen, hclose⟩ := Mark.written_of_ne_root hpair ha (groupsAfterAll [] before)
      rw [hopen, hclose]
      exact ⟨rfl, rfl⟩

/-- The outer pair is that of a square root, although there is a pair inside. -/
theorem partners_toFormal_root :
    Nested (brackets "3*sqrt (x*(y))".toList) ∧ RootAt "3*sqrt (x*(y))" 0 ∧
      Partners (brackets (toFormal "3*sqrt (x*(y))").toList) 0 3 ∧
      (brackets (toFormal "3*sqrt (x*(y))").toList)[0]? = some '\x7b' ∧
      (brackets (toFormal "3*sqrt (x*(y))").toList)[3]? = some '\x7d' := by
  have hbrackets : brackets "3*sqrt (x*(y))".toList = '(' :: (['(', ')'] ++ ')' :: []) := by
    decide +kernel
  have hinner : Nested ('(' :: ([] ++ ')' :: [])) := .pair .paren .nil .nil
  have hnested : Nested (brackets "3*sqrt (x*(y))".toList) := by
    rw [hbrackets]
    exact .pair .paren hinner .nil
  have hpartners : Partners (brackets "3*sqrt (x*(y))".toList) 0 3 :=
    ⟨[], _, _, _, [], hbrackets, .paren, hinner, rfl, rfl⟩
  have hroot : RootAt "3*sqrt (x*(y))" 0 := by
    have htokens : tokens "3*sqrt (x*(y))" =
        ([⟨.int, "3", 0⟩, ⟨.mul, "*", 1⟩] ++ ⟨.name, "sqrt", 2⟩ :: [⟨.whitespace, " ", 6⟩]) ++
          ⟨.openParen, "(", 7⟩ :: (tokens "3*sqrt (x*(y))").drop 5 := by decide +kernel
    exact ⟨_, _, _, htokens, ⟨_, _, _, rfl, rfl, rfl, by decide⟩, rfl, by decide +kernel⟩
  obtain ⟨-, -, hiff, hpairs⟩ := partners_toFormal hnested
  obtain ⟨-, -, hopen, hclose⟩ := (hpairs 0 3 hpartners).1 hroot
  exact ⟨hnested, hroot, (hiff 0 3).mpr hpartners, hopen, hclose⟩

end CurveGuess.Spelling
