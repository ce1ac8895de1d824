import CurveGuess.Proofs.Lexing
import Mathlib.Computability.Language
import Mathlib.Data.List.Chain

/-!
# Tokens are longest matches

Each kind of token has a pattern, which is a regular language. Reading cuts a text into tokens that
follow on one another without gaps. Each of them is the longest beginning of what is left that
matches any pattern at all, and where several patterns match it, all but one give way.
-/
namespace CurveGuess

open Computability

/-- One character of a class. -/
def oneOf (p : Char → Bool) : Language Char := {w | ∃ c, p c = true ∧ w = [c]}

/-- One or more in a row. -/
def many (l : Language Char) : Language Char := l * l∗

/-- The texts that a kind of token may have. Any character but a line feed is a symbol, so that the
pattern of symbols overlaps with others; so does that of commands with the one of products. -/
def Kind.pattern : Kind → Language Char
  | whitespace => many (oneOf Lexer.isSpace)
  | add => {['+']}
  | sub => {['-']}
  | mul => {['*']}
  | cdot => {['\\', 'c', 'd', 'o', 't']}
  | div => {['/']}
  | exp => {['^']}
  | command => {['\\']} * many (oneOf Lexer.isLetter)
  | name => many (oneOf Lexer.isLetter)
  | comma => {[',']}
  | openParen => {['(']}
  | closeParen => {[')']}
  | openBrace => {['\x7b']}
  | closeBrace => {['\x7d']}
  | int => many (oneOf Lexer.isDigit)
  | float =>
    many (oneOf Lexer.isDigit) * {['.']} * (oneOf Lexer.isDigit)∗
      + {['.']} * many (oneOf Lexer.isDigit)
  | symbol => oneOf (· ≠ '\n')

section
variable {p : Char → Bool} {w : List Char}

theorem mem_star_oneOf : w ∈ (oneOf p)∗ ↔ ∀ c ∈ w, p c = true := by
  rw [Language.mem_kstar]
  constructor
  · rintro ⟨ws, rfl, h⟩ c hc
    obtain ⟨v, hv, hc⟩ := List.mem_flatten.mp hc
    obtain ⟨d, hd, rfl⟩ := h v hv
    rwa [List.mem_singleton.mp hc]
  · intro h
    refine ⟨w.map fun c => [c], by rw [← List.flatMap_def, List.flatMap_singleton' w], ?_⟩
    intro v hv
    obtain ⟨c, hc, rfl⟩ := List.mem_map.mp hv
    exact ⟨c, h c hc, rfl⟩

theorem mem_many_oneOf : w ∈ many (oneOf p) ↔ w ≠ [] ∧ ∀ c ∈ w, p c = true := by
  rw [many, Language.mem_mul]
  constructor
  · rintro ⟨u, ⟨c, hc, rfl⟩, v, hv, rfl⟩
    exact ⟨by simp, List.forall_mem_cons.mpr ⟨hc, mem_star_oneOf.mp hv⟩⟩
  · rintro ⟨hne, h⟩
    obtain ⟨c, v, rfl⟩ := List.exists_cons_of_ne_nil hne
    obtain ⟨hc, hv⟩ := List.forall_mem_cons.mp h
    exact ⟨[c], ⟨c, hc, rfl⟩, v, mem_star_oneOf.mpr hv, rfl⟩

theorem mem_exactly {u : List Char} : w ∈ ({u} : Language Char) ↔ w = u := Iff.rfl

theorem mem_command : w ∈ Kind.command.pattern ↔
    ∃ u, w = '\\' :: u ∧ u ≠ [] ∧ ∀ c ∈ u, Lexer.isLetter c = true := by
  rw [Kind.pattern, Language.mem_mul]
  constructor
  · rintro ⟨a, ha, u, hu, rfl⟩
    rw [mem_exactly.mp ha]
    exact ⟨u, rfl, mem_many_oneOf.mp hu⟩
  · rintro ⟨u, rfl, hu⟩
    exact ⟨['\\'], rfl, u, mem_many_oneOf.mpr hu, rfl⟩

/-- A decimal has a point and at least one digit. -/
theorem mem_float : w ∈ Kind.float.pattern ↔
    ∃ u v, w = u ++ '.' :: v ∧ (u ≠ [] ∨ v ≠ []) ∧ (∀ c ∈ u, Lexer.isDigit c = true) ∧
      ∀ c ∈ v, Lexer.isDigit c = true := by
  rw [Kind.pattern, Language.mem_add, Language.mem_mul, Language.mem_mul]
  constructor
  · rintro (⟨a, ha, v, hv, rfl⟩ | ⟨a, ha, v, hv, rfl⟩)
    · obtain ⟨u, hu, b, hb, rfl⟩ := Language.mem_mul.mp ha
      rw [mem_exactly.mp hb]
      obtain ⟨hne, hu⟩ := mem_many_oneOf.mp hu
      exact ⟨u, v, by simp, .inl hne, hu, mem_star_oneOf.mp hv⟩
    · rw [mem_exactly.mp ha]
      obtain ⟨hne, hv⟩ := mem_many_oneOf.mp hv
      exact ⟨[], v, rfl, .inr hne, by simp, hv⟩
  · rintro ⟨u, v, rfl, hne, hu, hv⟩
    by_cases hu' : u = []
    · subst hu'
      exact .inr ⟨['.'], rfl, v, mem_many_oneOf.mpr ⟨by simpa using hne, hv⟩, rfl⟩
    · refine .inl ⟨u ++ ['.'], ?_, v, mem_star_oneOf.mpr hv, by simp⟩
      exact Language.mem_mul.mpr ⟨u, mem_many_oneOf.mpr ⟨hu', hu⟩, ['.'], rfl, rfl⟩

end

namespace Lexer

theorem run_mono (p : Char → Bool) (u rest : List Char) : run p u ≤ run p (u ++ rest) := by
  induction u with
  | nil => exact Nat.zero_le _
  | cons c u ih =>
    rw [List.cons_append, run_cons, run_cons]
    split
    · exact Nat.succ_le_succ ih
    · exact Nat.le_refl 0

theorem number_mono (u rest : List Char) : (number u).2 ≤ (number (u ++ rest)).2 := by
  induction u with
  | nil => exact Nat.zero_le _
  | cons c u ih =>
    rw [List.cons_append, number_cons, number_cons]
    split
    · exact Nat.succ_le_succ ih
    · split
      · exact Nat.succ_le_succ (run_mono isDigit u rest)
      · exact Nat.le_refl 0

/-- The more text there is, the longer is its first token. -/
theorem first_mono (c : Char) (u rest : List Char) : (first c u).2 ≤ (first c (u ++ rest)).2 := by
  have hs := run_mono isSpace u rest
  have hl := run_mono isLetter u rest
  have hd := run_mono isDigit u rest
  have hn := number_mono u rest
  unfold first
  split
  · exact hs
  split
  · exact hl
  split
  · exact hn
  split
  · rw [point_eq, point_eq]
    exact hd
  · rw [backslash_eq, backslash_eq]
    exact hl
  all_goals exact Nat.le_refl 0

end Lexer

/-- A text with a pattern is read off as a whole, as a token of that kind. Only symbols and products
have patterns that others come before. -/
theorem first_of_mem_pattern {k : Kind} {c : Char} {u : List Char} (h : c :: u ∈ k.pattern) :
    Lexer.first c u = (k, u.length) ∨
      k = .command ∧ u = ['c', 'd', 'o', 't'] ∧ Lexer.first c u = (.cdot, u.length) ∨
      k = .symbol ∧ u = [] := by
  have hvalid : ∀ {t : Piece}, t.Valid → t.text = c :: u →
      Lexer.first c u = (t.kind, u.length) := by
    rintro t ⟨d, w, htext, hfirst⟩ ht
    cases ht.symm.trans htext
    exact hfirst
  cases k with
  | whitespace =>
    obtain ⟨-, h⟩ := mem_many_oneOf.mp h
    obtain ⟨hc, hu⟩ := List.forall_mem_cons.mp h
    left
    unfold Lexer.first
    rw [if_pos hc, Lexer.run_eq_length.mpr hu]
  | name =>
    obtain ⟨hne, h⟩ := mem_many_oneOf.mp h
    exact .inl (hvalid (Piece.valid_name hne h) rfl)
  | int =>
    obtain ⟨hne, h⟩ := mem_many_oneOf.mp h
    exact .inl (hvalid (Piece.valid_int hne h) rfl)
  | float =>
    obtain ⟨a, b, hab, hne, ha, hb⟩ := mem_float.mp h
    exact .inl (hvalid (Piece.valid_float hne ha hb) hab.symm)
  | command =>
    obtain ⟨w, hw, hne, hletters⟩ := mem_command.mp h
    obtain ⟨rfl, rfl⟩ := List.cons.inj hw
    have hfirst := hvalid (Piece.valid_command hne hletters) rfl
    dsimp only at hfirst
    split at hfirst
    · next hcdot => exact .inr (.inl ⟨rfl, hcdot, hfirst⟩)
    · exact .inl hfirst
  | symbol =>
    obtain ⟨d, -, hd⟩ := h
    exact .inr (.inr ⟨rfl, (List.cons.inj hd).2⟩)
  | _ =>
    cases mem_exactly.mp h
    exact .inl rfl

theorem mem_pattern_of_first {k : Kind} {c : Char} {u : List Char}
    (h : Lexer.first c u = (k, u.length)) : c :: u ∈ k.pattern := by
  have hspells := Lexer.first_spells h
  cases k with
  | whitespace => exact mem_many_oneOf.mpr ⟨List.cons_ne_nil c u, hspells⟩
  | name => exact mem_many_oneOf.mpr ⟨List.cons_ne_nil c u, hspells⟩
  | int => exact mem_many_oneOf.mpr ⟨List.cons_ne_nil c u, hspells⟩
  | float => exact mem_float.mpr hspells
  | command =>
    obtain ⟨w, hw, hne, -, hletters⟩ := hspells
    exact mem_command.mpr ⟨w, hw, hne, hletters⟩
  | symbol =>
    obtain rfl : u = [] := List.eq_nil_of_length_eq_zero (by simpa [Lexer.Spells] using hspells)
    refine ⟨c, ?_, rfl⟩
    -- a line feed is white space
    rw [decide_eq_true_eq]
    rintro rfl
    cases h
  | _ => exact hspells

/-- The token is the longest beginning of the text that matches any pattern. If another pattern
matches it too, that is the one of symbols, or the one of commands for a product. A symbol is a
single character, where no other pattern matches anything. -/
structure Token.IsLongest (t : Token) (text : List Char) : Prop where
  begins : t.lexeme.toList <+: text
  mem_pattern : t.lexeme.toList ∈ t.kind.pattern
  length_le : ∀ k : Kind, ∀ w ∈ k.pattern, w <+: text → w.length ≤ t.lexeme.toList.length
  kind_eq : ∀ k : Kind, t.lexeme.toList ∈ k.pattern →
    k = t.kind ∨ k = .symbol ∨ k = .command ∧ t.kind = .cdot
  lone : t.kind = .symbol → t.lexeme.toList.length = 1 ∧
    ∀ k : Kind, k ≠ .symbol → ∀ w ∈ k.pattern, ¬w <+: text

theorem nil_notMem_pattern (k : Kind) : [] ∉ k.pattern := by
  intro h
  cases k with
  | whitespace | name | int => exact (mem_many_oneOf.mp h).1 rfl
  | command =>
    obtain ⟨u, hu, -⟩ := mem_command.mp h
    cases hu
  | float =>
    obtain ⟨u, v, huv, -⟩ := mem_float.mp h
    simp at huv
  | symbol =>
    obtain ⟨c, -, hc⟩ := h
    cases hc
  | _ => cases mem_exactly.mp h

/-- What is read off is read as the same token when nothing follows it. -/
theorem first_take {c : Char} {cs : List Char} {k : Kind} {n : Nat}
    (h : Lexer.first c cs = (k, n)) :
    (cs.take n).length = n ∧ Lexer.first c (cs.take n) = (k, n) := by
  have hle := Lexer.first_le c cs
  rw [h] at hle
  have hlength : (cs.take n).length = n := List.length_take_of_le hle
  refine ⟨hlength, ?_⟩
  have hsplit : Lexer.first c (cs.take n ++ cs.drop n) = (k, (cs.take n).length) := by
    rw [List.take_append_drop, h, hlength]
  rw [((Lexer.first_append c _ _ k).mp hsplit).1, hlength]

theorem length_le_of_mem_pattern {k : Kind} {c : Char} {u cs : List Char}
    (h : c :: u ∈ k.pattern) (hu : u <+: cs) : u.length ≤ (Lexer.first c cs).2 := by
  obtain ⟨rest, rfl⟩ := hu
  have hmono := Lexer.first_mono c u rest
  rcases first_of_mem_pattern h with h | ⟨-, -, h⟩ | ⟨-, rfl⟩
  · rwa [h] at hmono
  · rwa [h] at hmono
  · exact Nat.zero_le _

/-- Where a symbol is read, nothing else could be. -/
theorem eq_symbol_of_mem_pattern {k : Kind} {c : Char} {u cs : List Char}
    (hfirst : Lexer.first c cs = (.symbol, 0)) (h : c :: u ∈ k.pattern) (hu : u <+: cs) :
    k = .symbol := by
  have hle := length_le_of_mem_pattern h hu
  rw [hfirst] at hle
  obtain rfl : u = [] := List.eq_nil_of_length_eq_zero (Nat.eq_zero_of_le_zero hle)
  have hnil := (first_take hfirst).2
  rw [List.take_zero] at hnil
  rcases first_of_mem_pattern h with h | ⟨-, h, -⟩ | ⟨h, -⟩
  · rw [hnil] at h
    exact (Prod.mk.inj h).1.symm
  · cases h
  · exact h

/-- What is read off first is the longest match. -/
theorem isLongest_first (start : Nat) (c : Char) (cs : List Char) :
    Token.IsLongest ⟨(Lexer.first c cs).1, String.ofList (c :: cs.take (Lexer.first c cs).2), start⟩
      (c :: cs) := by
  rcases hread : Lexer.first c cs with ⟨k, n⟩
  obtain ⟨hlength, hfirst⟩ := first_take hread
  dsimp only
  refine ⟨?_, ?_, ?_, ?_, ?_⟩ <;> rw [String.toList_ofList]
  · exact List.cons_prefix_cons.mpr ⟨rfl, List.take_prefix n cs⟩
  · exact mem_pattern_of_first (by rw [hfirst, hlength])
  · intro l w hw hbegins
    cases w with
    | nil => exact absurd hw (nil_notMem_pattern l)
    | cons d u =>
      obtain ⟨rfl, hu⟩ := List.cons_prefix_cons.mp hbegins
      have hle := length_le_of_mem_pattern hw hu
      rw [hread] at hle
      rw [List.length_cons, List.length_cons, hlength]
      exact Nat.succ_le_succ hle
  · intro l hl
    rcases first_of_mem_pattern hl with h | ⟨rfl, -, h⟩ | ⟨rfl, -⟩
    · rw [hfirst] at h
      exact .inl (Prod.mk.inj h).1.symm
    · rw [hfirst] at h
      exact .inr (.inr ⟨rfl, (Prod.mk.inj h).1⟩)
    · exact .inr (.inl rfl)
  · rintro rfl
    have hspells : (c :: cs.take n).length = 1 :=
      Lexer.first_spells (k := .symbol) (by rw [hfirst, hlength])
    obtain rfl : n = 0 := by simpa [hlength] using hspells
    refine ⟨hspells, ?_⟩
    intro l hl w hw hbegins
    cases w with
    | nil => exact nil_notMem_pattern l hw
    | cons d u =>
      obtain ⟨rfl, hu⟩ := List.cons_prefix_cons.mp hbegins
      exact hl (eq_symbol_of_mem_pattern hread hw hu)

/-- The tokens cut the source into pieces without gaps, from its first byte to its last one. Each
begins and ends between characters, has the text that stands there and is the longest match of what
is left of the source at its start. -/
structure IsPartition (source : String) (ts : List Token) : Prop where
  join_eq : String.join (ts.map Token.lexeme) = source
  start_eq : ts.head?.elim 0 Token.start = 0
  stop_eq : ts.getLast?.elim 0 Token.stop = source.utf8ByteSize
  contiguous : ts.IsChain fun t u => t.stop = u.start
  nonempty : ∀ t ∈ ts, t.start < t.stop
  boundaries : ∀ t ∈ ts, (String.Pos.Raw.mk t.start).IsValid source ∧
    (String.Pos.Raw.mk t.stop).IsValid source
  slice_eq : ∀ t ∈ ts, source.toByteArray.extract t.start t.stop = t.lexeme.toByteArray
  longest : ∀ t ∈ ts, ∀ passed rest : String, source = passed ++ rest →
    passed.utf8ByteSize = t.start → t.IsLongest rest.toList

namespace Lexer

theorem ofList_cons_take (c : Char) (cs : List Char) (n : Nat) :
    String.ofList (c :: cs) = String.ofList (c :: cs.take n) ++ String.ofList (cs.drop n) := by
  rw [← String.ofList_append, List.cons_append, List.take_append_drop]

/-- Every token begins where the texts of those before it end. -/
theorem exists_split {n : Nat} {cs : List Char} {t : Token} (h : t ∈ tokensFrom n cs) :
    ∃ passed rest : String, String.ofList cs = passed ++ (t.lexeme ++ rest) ∧
      t.start = n + passed.utf8ByteSize ∧ t.IsLongest (t.lexeme ++ rest).toList := by
  induction n, cs using tokensFrom.induct with
  | case1 n => simp [tokensFrom] at h
  | case2 n c cs more lexeme ih =>
    have hcs : String.ofList (c :: cs) = lexeme ++ String.ofList (cs.drop more) :=
      ofList_cons_take c cs more
    rw [tokensFrom, List.mem_cons] at h
    rcases h with rfl | h
    · refine ⟨"", String.ofList (cs.drop more), ?_, rfl, ?_⟩
      · rw [String.empty_append, hcs]
      · rw [← hcs, String.toList_ofList]
        exact isLongest_first n c cs
    · obtain ⟨passed, rest, hrest, hstart, hlongest⟩ := ih h
      refine ⟨lexeme ++ passed, rest, ?_, ?_, hlongest⟩
      · rw [hcs, hrest, String.append_assoc]
      · rw [hstart, String.utf8ByteSize_append, Nat.add_assoc]

theorem join_tokensFrom (n : Nat) (cs : List Char) :
    String.join ((tokensFrom n cs).map Token.lexeme) = String.ofList cs := by
  induction n, cs using tokensFrom.induct with
  | case1 n => rw [tokensFrom]; rfl
  | case2 n c cs more lexeme ih =>
    rw [tokensFrom, List.map_cons, String.join_cons, ih]
    exact (ofList_cons_take c cs more).symm

theorem start_of_mem_head? {n : Nat} {cs : List Char} {t : Token}
    (h : t ∈ (tokensFrom n cs).head?) : t.start = n := by
  cases cs with
  | nil => simp [tokensFrom] at h
  | cons c cs =>
    rw [tokensFrom] at h
    cases h
    rfl

theorem contiguous_tokensFrom (n : Nat) (cs : List Char) :
    (tokensFrom n cs).IsChain fun t u => t.stop = u.start := by
  induction n, cs using tokensFrom.induct with
  | case1 n => rw [tokensFrom]; exact .nil
  | case2 n c cs more lexeme ih =>
    rw [tokensFrom]
    exact ih.cons fun u hu => (start_of_mem_head? hu).symm

theorem stop_tokensFrom (n : Nat) (cs : List Char) :
    (tokensFrom n cs).getLast?.elim n Token.stop = n + (String.ofList cs).utf8ByteSize := by
  induction n, cs using tokensFrom.induct with
  | case1 n => rw [tokensFrom]; rfl
  | case2 n c cs more lexeme ih =>
    have hcs : String.ofList (c :: cs) = lexeme ++ String.ofList (cs.drop more) :=
      ofList_cons_take c cs more
    rw [tokensFrom, hcs, String.utf8ByteSize_append, ← Nat.add_assoc, ← ih, List.getLast?_cons]
    cases (tokensFrom (n + lexeme.utf8ByteSize) (cs.drop more)).getLast? with
    | none => rfl
    | some u => rfl

end Lexer

theorem isValid_append (a b : String) : (String.Pos.Raw.mk a.utf8ByteSize).IsValid (a ++ b) := by
  rw [String.Pos.Raw.isValid_iff_isValidUTF8_extract_zero, String.toByteArray_append]
  constructor
  · rw [String.Pos.Raw.le_iff, String.byteIdx_rawEndPos, String.utf8ByteSize_append]
    exact Nat.le_add_right _ _
  · have hextract := ByteArray.extract_append_eq_left (b := b.toByteArray) a.size_toByteArray.symm
    rw [hextract]
    exact a.isValidUTF8

theorem extract_append_append (a b c : String) :
    (a ++ (b ++ c)).toByteArray.extract a.utf8ByteSize (a.utf8ByteSize + b.utf8ByteSize) =
      b.toByteArray := by
  rw [String.toByteArray_append, String.toByteArray_append]
  have hskip := ByteArray.extract_append_size_add' (i := 0) (j := b.utf8ByteSize)
    (b := b.toByteArray ++ c.toByteArray) a.size_toByteArray.symm
  rw [Nat.add_zero] at hskip
  rw [hskip, ByteArray.extract_append_eq_left b.size_toByteArray.symm]

/-- A text is cut in one way only at a given byte. -/
theorem append_inj_of_size {a b c d : String} (h : a ++ b = c ++ d)
    (hsize : a.utf8ByteSize = c.utf8ByteSize) : b = d := by
  have hbytes := congrArg String.toByteArray h
  rw [String.toByteArray_append, String.toByteArray_append] at hbytes
  have hac : a = c := String.toByteArray_inj.mp (ByteArray.append_inj_left hbytes hsize)
  subst hac
  exact (String.append_right_inj a).mp h

/-- Every text is cut into tokens, its longest matches, and nothing of it is lost. -/
theorem isPartition_tokens (source : String) : IsPartition source (tokens source) := by
  have hsplit : ∀ t ∈ tokens source, ∃ passed rest : String,
      source = passed ++ (t.lexeme ++ rest) ∧ t.start = passed.utf8ByteSize ∧
        t.IsLongest (t.lexeme ++ rest).toList := by
    intro t ht
    obtain ⟨passed, rest, hsource, hstart, hlongest⟩ := Lexer.exists_split ht
    rw [String.ofList_toList] at hsource
    exact ⟨passed, rest, hsource, by rw [hstart, Nat.zero_add], hlongest⟩
  constructor
  case join_eq => rw [tokens, Lexer.join_tokensFrom, String.ofList_toList]
  case start_eq =>
    cases ht : (tokens source).head? with
    | none => rfl
    | some t => exact Lexer.start_of_mem_head? ht
  case stop_eq => rw [tokens, Lexer.stop_tokensFrom, String.ofList_toList, Nat.zero_add]
  case contiguous => exact Lexer.contiguous_tokensFrom 0 source.toList
  case nonempty =>
    intro t ht
    obtain ⟨passed, rest, -, -, hlongest⟩ := hsplit t ht
    have hne : t.lexeme ≠ "" := by
      intro he
      have hmem := hlongest.mem_pattern
      rw [he] at hmem
      exact nil_notMem_pattern t.kind hmem
    have hpos : 0 < t.lexeme.utf8ByteSize :=
      Nat.pos_of_ne_zero fun hz => hne (String.utf8ByteSize_eq_zero_iff.mp hz)
    rw [Token.stop]
    omega
  case boundaries =>
    intro t ht
    obtain ⟨passed, rest, hsource, hstart, -⟩ := hsplit t ht
    rw [Token.stop, hstart, ← String.utf8ByteSize_append]
    constructor
    · rw [hsource]
      exact isValid_append _ _
    · rw [hsource, ← String.append_assoc]
      exact isValid_append _ _
  case slice_eq =>
    intro t ht
    obtain ⟨passed, rest, hsource, hstart, -⟩ := hsplit t ht
    rw [Token.stop, hstart, hsource]
    exact extract_append_append _ _ _
  case longest =>
    intro t ht passed rest hsource hsize
    obtain ⟨passed', rest', hsource', hstart, hlongest⟩ := hsplit t ht
    rw [append_inj_of_size (hsource.symm.trans hsource') (hsize.trans hstart)]
    exact hlongest

end CurveGuess
