import CurveGuess.Proofs.Grammar.Derivation

/-!
# Lexing what was put together

A text that is put together from tokens need not be read as those tokens: where one of them goes on
with the first character of the next, they grow together. Where none does, they are read again.
-/
namespace CurveGuess

namespace Lexer

theorem not_isLetter_of_isDigit {c : Char} (h : isDigit c = true) : isLetter c = false := by
  simp only [isDigit, isLetter, Bool.and_eq_true, decide_eq_true_eq, Char.le_def,
    UInt32.le_iff_toNat_le] at h ⊢
  rw [Bool.or_eq_false_iff, Bool.and_eq_false_iff, Bool.and_eq_false_iff]
  simp only [decide_eq_false_iff_not]
  have h0 : ('0' : Char).val.toNat = 48 := rfl
  have h1 : ('9' : Char).val.toNat = 57 := rfl
  have h2 : ('a' : Char).val.toNat = 97 := rfl
  have h3 : ('A' : Char).val.toNat = 65 := rfl
  omega

theorem not_isSpace_of_isLetter {c : Char} (h : isLetter c = true) : isSpace c = false := by
  cases hs : isSpace c with
  | false => rfl
  | true =>
    simp only [isSpace, Bool.or_eq_true, decide_eq_true_eq, or_assoc] at hs
    rcases hs with rfl | rfl | rfl | rfl <;> exact absurd h (by decide)

theorem not_isSpace_of_isDigit {c : Char} (h : isDigit c = true) : isSpace c = false := by
  cases hs : isSpace c with
  | false => rfl
  | true =>
    simp only [isSpace, Bool.or_eq_true, decide_eq_true_eq, or_assoc] at hs
    rcases hs with rfl | rfl | rfl | rfl <;> exact absurd h (by decide)

theorem run_le (p : Char → Bool) (cs : List Char) : run p cs ≤ cs.length :=
  (List.takeWhile_sublist p).length_le

theorem run_cons (p : Char → Bool) (c : Char) (cs : List Char) :
    run p (c :: cs) = if p c then run p cs + 1 else 0 := by
  rw [run, List.takeWhile_cons]
  split <;> simp [run]

theorem run_append (p : Char → Bool) (w rest : List Char) :
    run p (w ++ rest) = w.length ↔ run p w = w.length ∧ ∀ c ∈ rest.head?, p c = false := by
  induction w with
  | nil =>
    cases rest with
    | nil => simp [run]
    | cons c rest => cases hc : p c <;> simp [hc, run]
  | cons c w ih =>
    rw [List.cons_append, run_cons, run_cons, List.length_cons]
    cases hc : p c with
    | false => simp
    | true => simpa using ih

theorem takeWhile_eq_of_run {p : Char → Bool} {w : List Char} (rest : List Char)
    (h : run p (w ++ rest) = w.length) : (w ++ rest).takeWhile p = w := by
  have ht := List.takeWhile_prefix (l := w ++ rest) p
  exact (List.prefix_of_prefix_length_le ht (List.prefix_append w rest)
    (Nat.le_of_eq h)).eq_of_length h

theorem takeWhile_eq_self {p : Char → Bool} {w : List Char} (h : run p w = w.length) :
    w.takeWhile p = w := by
  simpa using takeWhile_eq_of_run [] (by simpa using h)

theorem run_eq_length {p : Char → Bool} {w : List Char} :
    run p w = w.length ↔ ∀ c ∈ w, p c = true := by
  induction w with
  | nil => simp [run]
  | cons c w ih =>
    rw [run_cons, List.length_cons]
    cases hc : p c <;> simp [hc, ih]

end Lexer

namespace Piece

/-- Would the character belong to the token if it came right after it? -/
def takes (t : Piece) (c : Char) : Bool :=
  match t.kind with
  | .whitespace => Lexer.isSpace c
  | .name | .command | .cdot => Lexer.isLetter c
  | .int => Lexer.isDigit c || c = '.'
  | .float => Lexer.isDigit c
  | .symbol => t.text = ['.'] && Lexer.isDigit c || t.text = ['\\'] && Lexer.isLetter c
  | _ => false

/-- The text of the piece is a token of its kind. -/
def Valid (t : Piece) : Prop :=
  ∃ c cs, t.text = c :: cs ∧ Lexer.first c cs = (t.kind, cs.length)

end Piece

namespace Lexer

theorem run_first_append {c : Char} {w rest : List Char} {k : Kind} {p : Char → Bool}
    (f : List Char → Kind) (hf : ∀ d, Piece.takes ⟨f w, c :: w⟩ d = p d) :
    (f ((w ++ rest).takeWhile p), run p (w ++ rest)) = (k, w.length) ↔
      (f (w.takeWhile p), run p w) = (k, w.length) ∧
        ∀ d ∈ rest.head?, Piece.takes ⟨k, c :: w⟩ d = false := by
  rw [Prod.mk.injEq, Prod.mk.injEq]
  constructor
  · rintro ⟨hk, hr⟩
    rw [takeWhile_eq_of_run rest hr] at hk
    obtain ⟨hr, hd⟩ := (run_append p w rest).mp hr
    subst hk
    exact ⟨⟨by rw [takeWhile_eq_self hr], hr⟩, fun d hd' => (hf d).trans (hd d hd')⟩
  · rintro ⟨⟨hk, hr⟩, hd⟩
    rw [takeWhile_eq_self hr] at hk
    subst hk
    have hr' := (run_append p w rest).mpr ⟨hr, fun d hd' => (hf d).symm.trans (hd d hd')⟩
    exact ⟨by rw [takeWhile_eq_of_run rest hr'], hr'⟩

theorem number_cons (a : Char) (w : List Char) :
    number (a :: w) = if isDigit a then ((number w).1, (number w).2 + 1)
      else if a = '.' then (.float, run isDigit w + 1) else (.int, 0) := by
  rw [number, run_cons]
  by_cases hd : isDigit a
  · simp only [hd, if_true, List.drop_succ_cons, number]
    split
    · simp
      omega
    · rfl
  · simp only [hd]
    by_cases ha : a = '.'
    · simp [ha, Nat.add_comm]
    · simp [ha]

theorem number_nil : number [] = (.int, 0) := rfl

theorem number_append (w rest : List Char) (k : Kind) :
    number (w ++ rest) = (k, w.length) ↔ number w = (k, w.length) ∧
      ∀ d ∈ rest.head?, (isDigit d || (k = .int && d = '.')) = false := by
  induction w with
  | nil =>
    cases rest with
    | nil => simp
    | cons d rest =>
      rw [List.nil_append, number_cons, number_nil]
      by_cases hd : isDigit d
      · simp [hd]
      · by_cases ha : d = '.'
        · subst ha
          rw [if_neg hd, if_pos rfl]
          constructor
          · rintro h
            cases h
          · rintro ⟨h, hk⟩
            cases h
            simp at hk
        · simp [hd, ha]
  | cons a w ih =>
    rw [List.cons_append, number_cons, number_cons]
    by_cases hd : isDigit a
    · rw [Prod.ext_iff, Prod.ext_iff] at ih
      simpa only [hd, if_true, Prod.mk.injEq, List.length_cons, Nat.add_right_cancel_iff] using ih
    · by_cases ha : a = '.'
      · subst ha
        rw [if_neg hd, if_neg hd, if_pos rfl, if_pos rfl, Prod.mk.injEq, Prod.mk.injEq,
          List.length_cons, Nat.add_right_cancel_iff, Nat.add_right_cancel_iff, run_append]
        constructor
        · rintro ⟨rfl, hw, hr⟩
          exact ⟨⟨rfl, hw⟩, by simpa using hr⟩
        · rintro ⟨⟨rfl, hw⟩, hr⟩
          exact ⟨rfl, hw, by simpa using hr⟩
      · simp [hd, ha]

theorem number_kind (cs : List Char) : (number cs).1 = .int ∨ (number cs).1 = .float := by
  unfold number
  dsimp only
  split <;> simp

/-- What begins with a point is a number if digits follow. -/
theorem point_eq (cs : List Char) :
    (if run isDigit cs = 0 then (Kind.symbol, 0) else (.float, run isDigit cs)) =
      (if cs.takeWhile isDigit = [] then .symbol else .float, run isDigit cs) := by
  by_cases h : cs.takeWhile isDigit = [] <;> simp [run, h]

theorem backslash_eq (cs : List Char) :
    (if run isLetter cs = 0 then (Kind.symbol, 0)
      else if cs.takeWhile isLetter = ['c', 'd', 'o', 't'] then (.cdot, run isLetter cs)
      else (.command, run isLetter cs)) =
    (if cs.takeWhile isLetter = [] then .symbol
      else if cs.takeWhile isLetter = ['c', 'd', 'o', 't'] then .cdot else .command,
      run isLetter cs) := by
  by_cases h : cs.takeWhile isLetter = []
  · simp [run, h]
  · simp only [run, List.length_eq_zero_iff, h, if_false]
    split <;> rfl

theorem lone_append {c : Char} {w rest : List Char} {k l : Kind}
    (h : ∀ d, Piece.takes ⟨l, [c]⟩ d = false) :
    (l, 0) = (k, w.length) ↔
      (l, 0) = (k, w.length) ∧ ∀ d ∈ rest.head?, Piece.takes ⟨k, c :: w⟩ d = false := by
  rw [iff_self_and]
  intro he d _
  cases w with
  | nil => cases he; exact h d
  | cons a w => simp at he

/-- A token is read again unless it takes the character after it. -/
theorem first_append (c : Char) (w rest : List Char) (k : Kind) :
    first c (w ++ rest) = (k, w.length) ↔
      first c w = (k, w.length) ∧ ∀ d ∈ rest.head?, Piece.takes ⟨k, c :: w⟩ d = false := by
  unfold first
  by_cases hs : isSpace c
  · simp only [if_pos hs]
    exact run_first_append (fun _ => .whitespace) fun _ => rfl
  simp only [if_neg hs]
  by_cases hl : isLetter c
  · simp only [if_pos hl]
    exact run_first_append (fun _ => .name) fun _ => rfl
  simp only [if_neg hl]
  by_cases hd : isDigit c
  · simp only [if_pos hd]
    rw [number_append]
    refine and_congr_right fun hw => forall_congr' fun d => forall_congr' fun _ => ?_
    have hk := number_kind w
    rw [hw] at hk
    rcases hk with rfl | rfl <;> simp [Piece.takes]
  simp only [if_neg hd]
  split
  · rw [point_eq, point_eq]
    refine run_first_append (fun cs => if cs = [] then .symbol else .float) fun d => ?_
    cases w <;> simp [Piece.takes]
  · rw [backslash_eq, backslash_eq]
    refine run_first_append (fun cs => if cs = [] then .symbol else
      if cs = ['c', 'd', 'o', 't'] then .cdot else .command) fun d => ?_
    cases w with
    | nil => simp [Piece.takes]
    | cons a w => by_cases hw : a :: w = ['c', 'd', 'o', 't'] <;> simp [Piece.takes, hw]
  all_goals
    refine lone_append fun d => ?_
    simp_all [Piece.takes]

theorem number_le (cs : List Char) : (number cs).2 ≤ cs.length := by
  induction cs with
  | nil => simp [number_nil]
  | cons a w ih =>
    rw [number_cons]
    have h := run_le isDigit w
    split
    · simpa using ih
    · split <;> simp
      exact h

theorem first_le (c : Char) (cs : List Char) : (first c cs).2 ≤ cs.length := by
  have hs := run_le isSpace cs
  have hl := run_le isLetter cs
  have hd := run_le isDigit cs
  have hn := number_le cs
  unfold first
  repeat' split
  all_goals simp only [Nat.zero_le, hs, hl, hd, hn]

/-- The characters that words, numbers and white space are made of. -/
def isInner (c : Char) : Bool := isSpace c || isLetter c || isDigit c || c = '.'

/-- The texts of a kind of token, but for which characters are symbols. -/
def Spells (k : Kind) (w : List Char) : Prop :=
  match k with
  | .whitespace => ∀ c ∈ w, isSpace c = true
  | .name => ∀ c ∈ w, isLetter c = true
  | .int => ∀ c ∈ w, isDigit c = true
  | .float => ∃ u v, w = u ++ '.' :: v ∧ (u ≠ [] ∨ v ≠ []) ∧
      (∀ c ∈ u, isDigit c = true) ∧ ∀ c ∈ v, isDigit c = true
  | .command => ∃ u, w = '\\' :: u ∧ u ≠ [] ∧ u ≠ ['c', 'd', 'o', 't'] ∧ ∀ c ∈ u, isLetter c = true
  | .cdot => w = ['\\', 'c', 'd', 'o', 't']
  | .add => w = ['+']
  | .sub => w = ['-']
  | .mul => w = ['*']
  | .div => w = ['/']
  | .exp => w = ['^']
  | .comma => w = [',']
  | .openParen => w = ['(']
  | .closeParen => w = [')']
  | .openBrace => w = ['\x7b']
  | .closeBrace => w = ['\x7d']
  | .symbol => w.length = 1

theorem number_spells {w : List Char} {k : Kind} (h : number w = (k, w.length)) :
    k = .int ∧ (∀ c ∈ w, isDigit c = true) ∨ k = .float ∧ ∃ u v, w = u ++ '.' :: v ∧
      (∀ c ∈ u, isDigit c = true) ∧ ∀ c ∈ v, isDigit c = true := by
  induction w with
  | nil =>
    cases h
    exact .inl ⟨rfl, by simp⟩
  | cons a w ih =>
    rw [number_cons] at h
    split at h
    · next ha =>
      rw [Prod.mk.injEq, List.length_cons, Nat.add_right_cancel_iff, ← Prod.mk.injEq] at h
      rcases ih h with ⟨hk, hw⟩ | ⟨hk, u, v, rfl, hu, hv⟩
      · exact .inl ⟨hk, List.forall_mem_cons.mpr ⟨ha, hw⟩⟩
      · exact .inr ⟨hk, a :: u, v, rfl, List.forall_mem_cons.mpr ⟨ha, hu⟩, hv⟩
    · split at h
      · next ha =>
        rw [Prod.mk.injEq, List.length_cons, Nat.add_right_cancel_iff] at h
        exact .inr ⟨h.1.symm, [], w, by rw [ha]; rfl, by simp, run_eq_length.mp h.2⟩
      · cases h

theorem first_spells {c : Char} {w : List Char} {k : Kind} (h : first c w = (k, w.length)) :
    Spells k (c :: w) := by
  unfold first at h
  split at h
  · next hc =>
    obtain ⟨rfl, hr⟩ := Prod.mk.inj h
    exact List.forall_mem_cons.mpr ⟨hc, run_eq_length.mp hr⟩
  split at h
  · next hc =>
    obtain ⟨rfl, hr⟩ := Prod.mk.inj h
    exact List.forall_mem_cons.mpr ⟨hc, run_eq_length.mp hr⟩
  split at h
  · next hc =>
    rcases number_spells h with ⟨rfl, hw⟩ | ⟨rfl, u, v, rfl, hu, hv⟩
    · exact List.forall_mem_cons.mpr ⟨hc, hw⟩
    · exact ⟨c :: u, v, rfl, .inl (by simp), List.forall_mem_cons.mpr ⟨hc, hu⟩, hv⟩
  split at h
  · split at h
    · obtain ⟨rfl, hr⟩ := Prod.mk.inj h
      simpa [Spells] using hr.symm
    · next hz =>
      obtain ⟨rfl, hr⟩ := Prod.mk.inj h
      refine ⟨[], w, rfl, .inr ?_, by simp, run_eq_length.mp hr⟩
      rintro rfl
      exact hz rfl
  · split at h
    · obtain ⟨rfl, hr⟩ := Prod.mk.inj h
      simpa [Spells] using hr.symm
    · split at h
      · next hz hcdot =>
        obtain ⟨rfl, hr⟩ := Prod.mk.inj h
        rw [takeWhile_eq_self hr] at hcdot
        rw [hcdot]
        rfl
      · next hz hcdot =>
        obtain ⟨rfl, hr⟩ := Prod.mk.inj h
        rw [takeWhile_eq_self hr] at hcdot
        refine ⟨w, rfl, ?_, hcdot, run_eq_length.mp hr⟩
        rintro rfl
        exact hz rfl
  all_goals
    obtain ⟨rfl, hr⟩ := Prod.mk.inj h
    rw [List.length_eq_zero_iff.mp hr.symm]
    rfl

end Lexer

namespace Piece

theorem Valid.spells {t : Piece} (ht : t.Valid) : Lexer.Spells t.kind t.text := by
  obtain ⟨c, w, htext, hfirst⟩ := ht
  rw [htext]
  exact Lexer.first_spells hfirst

theorem Valid.kind_eq {t : Piece} (ht : t.Valid) {c : Char} {w : List Char} (h : t.text = c :: w) :
    t.kind = (Lexer.first c w).1 := by
  obtain ⟨d, u, htext, hfirst⟩ := ht
  rw [h] at htext
  obtain ⟨rfl, rfl⟩ := List.cons.inj htext
  rw [hfirst]

/-- A character of no word, number or white space stands at the head of a token. It is a token of its
own, unless it is a backslash that begins a command. -/
theorem Valid.text_eq_cons {t : Piece} (ht : t.Valid) {c : Char} (hc : c ∈ t.text)
    (hinner : Lexer.isInner c = false) : ∃ w, t.text = c :: w ∧ c ∉ w ∧
      (w = [] ∨ c = '\\' ∧ (t.kind = .command ∨ t.kind = .cdot)) := by
  simp only [Lexer.isInner, Bool.or_eq_false_iff, decide_eq_false_iff_not] at hinner
  obtain ⟨⟨⟨hspace, hletter⟩, hdigit⟩, hpoint⟩ := hinner
  have hbackslash : ∀ u : List Char, (∀ d ∈ u, Lexer.isLetter d = true) → t.text = '\\' :: u →
      t.text = c :: u ∧ c ∉ u ∧ c = '\\' := by
    intro u hu htext
    have hnot : c ∉ u := fun hmem => by
      rw [hu c hmem] at hletter
      cases hletter
    rw [htext, List.mem_cons, or_iff_left hnot] at hc
    exact ⟨hc ▸ htext, hnot, hc⟩
  have hspells := ht.spells
  cases hk : t.kind <;> rw [hk] at hspells
  case command =>
    obtain ⟨u, htext, -, -, hu⟩ := hspells
    obtain ⟨htext, hnot, hc⟩ := hbackslash u hu htext
    exact ⟨u, htext, hnot, .inr ⟨hc, .inl rfl⟩⟩
  case cdot =>
    obtain ⟨htext, hnot, hc⟩ := hbackslash ['c', 'd', 'o', 't'] (List.all_eq_true.mp rfl) hspells
    exact ⟨_, htext, hnot, .inr ⟨hc, .inr rfl⟩⟩
  case whitespace => exact absurd (hspells c hc) (by simp [hspace])
  case name => exact absurd (hspells c hc) (by simp [hletter])
  case int => exact absurd (hspells c hc) (by simp [hdigit])
  case float =>
    obtain ⟨u, v, huv, -, hu, hv⟩ := hspells
    rw [huv, List.mem_append, List.mem_cons] at hc
    rcases hc with hc | rfl | hc
    · exact absurd (hu c hc) (by simp [hdigit])
    · exact absurd rfl hpoint
    · exact absurd (hv c hc) (by simp [hdigit])
  case symbol =>
    obtain ⟨a, ha⟩ := List.length_eq_one_iff.mp hspells
    rw [ha, List.mem_singleton] at hc
    exact ⟨[], by rw [ha, hc], List.not_mem_nil, .inl rfl⟩
  all_goals
    rw [show t.text = _ from hspells, List.mem_singleton] at hc
    exact ⟨[], hc ▸ hspells, List.not_mem_nil, .inl rfl⟩

theorem valid_name {w : List Char} (hne : w ≠ []) (h : ∀ c ∈ w, Lexer.isLetter c = true) :
    Valid ⟨.name, w⟩ := by
  obtain ⟨c, w, rfl⟩ := List.exists_cons_of_ne_nil hne
  have hc := h c List.mem_cons_self
  have hw : ∀ d ∈ w, Lexer.isLetter d = true := fun d hd => h d (List.mem_cons_of_mem c hd)
  refine ⟨c, w, rfl, ?_⟩
  simp only [Lexer.first, Lexer.not_isSpace_of_isLetter hc, hc, Lexer.run_eq_length.mpr hw, if_true,
    Bool.false_eq_true, if_false]

theorem valid_command {w : List Char} (hne : w ≠ []) (h : ∀ c ∈ w, Lexer.isLetter c = true) :
    Valid ⟨if w = ['c', 'd', 'o', 't'] then .cdot else .command, '\\' :: w⟩ := by
  refine ⟨'\\', w, rfl, ?_⟩
  have hrun := Lexer.run_eq_length.mpr h
  rw [show Lexer.first '\\' w = _ from Lexer.backslash_eq w, Lexer.takeWhile_eq_self hrun, hrun,
    if_neg hne]

theorem first_digit {c : Char} (h : Lexer.isDigit c = true) (w : List Char) :
    Lexer.first c w = Lexer.number w := by
  simp only [Lexer.first, Lexer.not_isSpace_of_isDigit h, Lexer.not_isLetter_of_isDigit h, h,
    if_true, Bool.false_eq_true, if_false]

theorem valid_int {w : List Char} (hne : w ≠ []) (h : ∀ c ∈ w, Lexer.isDigit c = true) :
    Valid ⟨.int, w⟩ := by
  obtain ⟨c, w, rfl⟩ := List.exists_cons_of_ne_nil hne
  have hw : ∀ d ∈ w, Lexer.isDigit d = true := fun d hd => h d (List.mem_cons_of_mem c hd)
  have hrun := Lexer.run_eq_length.mpr hw
  refine ⟨c, w, rfl, ?_⟩
  rw [first_digit (h c List.mem_cons_self), Lexer.number, hrun, List.drop_length]

theorem number_point {u v : List Char} (hu : ∀ c ∈ u, Lexer.isDigit c = true)
    (hv : ∀ c ∈ v, Lexer.isDigit c = true) :
    Lexer.number (u ++ '.' :: v) = (.float, (u ++ '.' :: v).length) := by
  have hrun : Lexer.run Lexer.isDigit (u ++ '.' :: v) = u.length :=
    (Lexer.run_append _ u _).mpr ⟨Lexer.run_eq_length.mpr hu, by simp; decide⟩
  rw [Lexer.number, hrun, List.drop_left]
  change (Kind.float, u.length + 1 + Lexer.run Lexer.isDigit v) = _
  rw [Lexer.run_eq_length.mpr hv, List.length_append, List.length_cons, Nat.add_assoc,
    Nat.add_comm 1]

theorem valid_float {u v : List Char} (hne : u ≠ [] ∨ v ≠ [])
    (hu : ∀ c ∈ u, Lexer.isDigit c = true) (hv : ∀ c ∈ v, Lexer.isDigit c = true) :
    Valid ⟨.float, u ++ '.' :: v⟩ := by
  cases u with
  | nil =>
    refine ⟨'.', v, rfl, ?_⟩
    have hrun := Lexer.run_eq_length.mpr hv
    have hlength : v.length ≠ 0 := by simpa using hne
    change (if Lexer.run Lexer.isDigit v = 0 then (Kind.symbol, 0)
      else (.float, Lexer.run Lexer.isDigit v)) = _
    rw [hrun, if_neg hlength]
  | cons c u =>
    refine ⟨c, u ++ '.' :: v, rfl, ?_⟩
    rw [first_digit (hu c List.mem_cons_self)]
    exact number_point (fun d hd => hu d (List.mem_cons_of_mem c hd)) hv

end Piece

/-- The pieces of a text. -/
def visible (cs : List Char) : List Piece := pieces (Lexer.tokensFrom 0 cs)

theorem pieces_cons (t : Token) (ts : List Token) :
    pieces (t :: ts) = if t.kind = .whitespace then pieces ts else t.piece :: pieces ts := by
  by_cases h : t.kind = .whitespace <;> simp [pieces, Token.isSpace, h]

/-- The pieces do not depend on the place of the text. -/
theorem pieces_tokensFrom (n : Nat) (cs : List Char) :
    pieces (Lexer.tokensFrom n cs) = visible cs := by
  suffices h : ∀ m, pieces (Lexer.tokensFrom n cs) = pieces (Lexer.tokensFrom m cs) from h 0
  induction n, cs using Lexer.tokensFrom.induct with
  | case1 n => simp [Lexer.tokensFrom]
  | case2 n c cs more lexeme ih =>
    intro m
    rw [Lexer.tokensFrom, Lexer.tokensFrom, pieces_cons, pieces_cons, ih]
    rfl

@[simp] theorem visible_nil : visible [] = [] := by
  simp [visible, Lexer.tokensFrom, pieces]

theorem visible_cons (c : Char) (cs : List Char) :
    visible (c :: cs) =
      if (Lexer.first c cs).1 = .whitespace then visible (cs.drop (Lexer.first c cs).2)
      else ⟨(Lexer.first c cs).1, c :: cs.take (Lexer.first c cs).2⟩ ::
        visible (cs.drop (Lexer.first c cs).2) := by
  rw [visible, Lexer.tokensFrom, pieces_cons, pieces_tokensFrom, Token.piece, String.toList_ofList]

theorem visible_append {t : Piece} (ht : t.Valid) (rest : List Char)
    (h : ∀ c ∈ rest.head?, t.takes c = false) :
    visible (t.text ++ rest) = if t.isSpace then visible rest else t :: visible rest := by
  obtain ⟨c, cs, htext, hfirst⟩ := ht
  obtain ⟨k, text⟩ := t
  dsimp only at htext hfirst
  subst htext
  have hf := (Lexer.first_append c cs rest k).mpr ⟨hfirst, h⟩
  rw [List.cons_append, visible_cons, hf, List.take_left, List.drop_left]
  simp [Piece.isSpace]

/-- White space between two tokens is read away, however much there is. -/
theorem visible_space {w : List Char} (hw : ∀ c ∈ w, Lexer.isSpace c = true) (rest : List Char) :
    visible (w ++ rest) = visible rest := by
  have hdrop : ∀ cs : List Char, visible cs = visible (cs.dropWhile Lexer.isSpace) := by
    intro cs
    cases cs with
    | nil => rfl
    | cons c cs =>
      by_cases hc : Lexer.isSpace c = true
      · rw [visible_cons, List.dropWhile_cons_of_pos hc]
        simp only [Lexer.first, hc, if_true, Lexer.run]
        conv =>
          lhs
          arg 1
          arg 2
          rw [← List.takeWhile_append_dropWhile (p := Lexer.isSpace) (l := cs)]
        rw [List.drop_left]
      · rw [List.dropWhile_cons_of_neg hc]
  rw [hdrop, hdrop rest, List.dropWhile_append_of_pos hw]

/-- The tokens of a text are read off one by one, none of which takes what comes after it. -/
def Lexed : List Token → Prop
  | [] => True
  | t :: ts => t.piece.Valid ∧
      (∀ u ∈ ts.head?, ∀ c ∈ u.lexeme.toList.head?, t.piece.takes c = false) ∧ Lexed ts

theorem Lexed.valid {ts : List Token} (h : Lexed ts) : ∀ t ∈ ts, t.piece.Valid := by
  induction ts with
  | nil => simp
  | cons t ts ih => exact List.forall_mem_cons.mpr ⟨h.1, ih h.2.2⟩

theorem valid_of_mem_pieces {ts : List Token} (h : Lexed ts) : ∀ t ∈ pieces ts, t.Valid := by
  intro t ht
  rw [pieces, List.mem_map] at ht
  obtain ⟨u, hu, rfl⟩ := ht
  exact h.valid u (List.mem_filter.mp hu).1

theorem head_tokensFrom {n : Nat} {cs : List Char} {u : Token}
    (h : u ∈ (Lexer.tokensFrom n cs).head?) : u.lexeme.toList.head? = cs.head? := by
  cases cs with
  | nil => simp [Lexer.tokensFrom] at h
  | cons c cs =>
    rw [Lexer.tokensFrom] at h
    cases h
    simp

theorem lexed_tokensFrom (n : Nat) (cs : List Char) : Lexed (Lexer.tokensFrom n cs) := by
  induction n, cs using Lexer.tokensFrom.induct with
  | case1 n => simp [Lexer.tokensFrom, Lexed]
  | case2 n c cs more lexeme ih =>
    rw [Lexer.tokensFrom]
    have hsplit : Lexer.first c (cs.take more ++ cs.drop more) =
        ((Lexer.first c cs).1, (cs.take more).length) := by
      rw [List.take_append_drop, List.length_take_of_le (Lexer.first_le c cs)]
    obtain ⟨hvalid, htakes⟩ := (Lexer.first_append c _ _ _).mp hsplit
    refine ⟨⟨c, cs.take more, String.toList_ofList, hvalid⟩, ?_, ih⟩
    intro u hu d hd
    rw [head_tokensFrom hu] at hd
    rw [Token.piece, String.toList_ofList]
    exact htakes d hd

end CurveGuess
