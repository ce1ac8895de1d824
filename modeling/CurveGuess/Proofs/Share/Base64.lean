import CurveGuess.Share.Base64
import Mathlib.Data.List.Basic
import Mathlib.Data.Nat.Basic

/-!
# Base 64 there and back

A text is base 64 of some bytes in one way only, given the alphabet and whether equals signs fill up
the last block. Decoding accepts that text and no other, so it undoes encoding and nothing else.
-/
namespace CurveGuess.Base64

theorem toNat_toUInt8 {n : Nat} (h : n < 256) : n.toUInt8.toNat = n := by
  rw [Nat.toUInt8, UInt8.toNat_ofNat', Nat.mod_eq_of_lt h]

theorem toUInt8_eq {n : Nat} {x : UInt8} (h : n = x.toNat) : n.toUInt8 = x := by
  rw [h, Nat.toUInt8, UInt8.ofNat_toNat]

theorem sextets_lt (bytes : List UInt8) : ∀ v ∈ sextets bytes, v < 64 := by
  induction bytes using sextets.induct with
  | case1 => simp [sextets]
  | case2 x =>
    have hx := x.toNat_lt
    simp only [sextets, List.forall_mem_cons]
    refine ⟨?_, ?_, by simp⟩ <;> omega
  | case3 x y =>
    have hx := x.toNat_lt
    have hy := y.toNat_lt
    simp only [sextets, List.forall_mem_cons]
    refine ⟨?_, ?_, ?_, by simp⟩ <;> omega
  | case4 x y z rest ih =>
    have hx := x.toNat_lt
    have hy := y.toNat_lt
    have hz := z.toNat_lt
    simp only [sextets, List.forall_mem_cons]
    refine ⟨?_, ?_, ?_, ?_, ih⟩ <;> omega

/-- Three bytes are four values, and a last byte or two are one value more than there are bytes. -/
theorem length_sextets (bytes : List UInt8) :
    (sextets bytes).length = bytes.length + (bytes.length + 2) / 3 := by
  induction bytes using sextets.induct with
  | case1 | case2 | case3 => simp [sextets]
  | case4 x y z rest ih =>
    simp only [sextets, List.length_cons, ih]
    omega

theorem unite_sextets (bytes : List UInt8) : unite (sextets bytes) = (bytes, 0) := by
  induction bytes using sextets.induct with
  | case1 => rfl
  | case2 x =>
    have hx := x.toNat_lt
    rw [sextets, unite, toUInt8_eq (x := x) (by omega), Nat.mul_mod_left]
  | case3 x y =>
    have hx := x.toNat_lt
    have hy := y.toNat_lt
    rw [sextets, unite, toUInt8_eq (x := x) (by omega), toUInt8_eq (x := y) (by omega),
      Nat.mul_mod_left]
  | case4 x y z rest ih =>
    have hx := x.toNat_lt
    have hy := y.toNat_lt
    have hz := z.toNat_lt
    rw [sextets, unite, ih, toUInt8_eq (x := x) (by omega), toUInt8_eq (x := y) (by omega),
      toUInt8_eq (x := z) (by omega)]

/-- What is put together without a rest is cut into the same values again. -/
theorem sextets_of_unite {vs : List Nat} {bytes : List UInt8} (hlt : ∀ v ∈ vs, v < 64)
    (hlength : vs.length % 4 ≠ 1) (h : unite vs = (bytes, 0)) : sextets bytes = vs := by
  induction vs using unite.induct generalizing bytes with
  | case1 => cases h; rfl
  | case2 a => exact absurd rfl hlength
  | case3 a b =>
    simp only [List.forall_mem_cons] at hlt
    obtain ⟨ha, hb, -⟩ := hlt
    obtain ⟨rfl, hunused⟩ := Prod.mk.inj h
    rw [sextets, toNat_toUInt8 (by omega)]
    simp only [List.cons.injEq, and_true]
    omega
  | case4 a b c =>
    simp only [List.forall_mem_cons] at hlt
    obtain ⟨ha, hb, hc, -⟩ := hlt
    obtain ⟨rfl, hunused⟩ := Prod.mk.inj h
    rw [sextets, toNat_toUInt8 (by omega), toNat_toUInt8 (by omega)]
    simp only [List.cons.injEq, and_true]
    omega
  | case5 a b c d rest bytes' unused hrest ih =>
    simp only [List.forall_mem_cons] at hlt
    obtain ⟨ha, hb, hc, hd, hlt⟩ := hlt
    have hlength' : rest.length % 4 ≠ 1 := by
      simp only [List.length_cons] at hlength
      omega
    rw [unite, hrest] at h
    obtain ⟨rfl, rfl⟩ := Prod.mk.inj h
    rw [sextets, ih hlt hlength' hrest, toNat_toUInt8 (by omega), toNat_toUInt8 (by omega),
      toNat_toUInt8 (by omega)]
    simp only [List.cons.injEq, and_true]
    omega

/-- The value of a symbol of either alphabet, told by its code. -/
def valueOf (c : Char) : Nat :=
  if c.isUpper then c.toNat - 'A'.toNat
  else if c.isLower then c.toNat - 'a'.toNat + 26
  else if c.isDigit then c.toNat - '0'.toNat + 52
  else if c = '+' ∨ c = '-' then 62 else 63

namespace Alphabet

/-- The symbols one by one, which is faster to go through than the text they are written as. -/
theorem symbols_eq (a : Alphabet) : a.symbols =
      ['A', 'B', 'C', 'D', 'E', 'F', 'G', 'H', 'I', 'J', 'K', 'L', 'M', 'N', 'O', 'P', 'Q', 'R',
        'S', 'T', 'U', 'V', 'W', 'X', 'Y', 'Z', 'a', 'b', 'c', 'd', 'e', 'f', 'g', 'h', 'i', 'j',
        'k', 'l', 'm', 'n', 'o', 'p', 'q', 'r', 's', 't', 'u', 'v', 'w', 'x', 'y', 'z', '0', '1',
        '2', '3', '4', '5', '6', '7', '8', '9'] ++ a.last :=
  congrArg (· ++ a.last) String.toList_ofList

theorem length_symbols (a : Alphabet) : a.symbols.length = 64 := by
  rw [symbols_eq]
  cases a <;> rfl

theorem valueOf_symbol (a : Alphabet) {v : Nat} (h : v < 64) : valueOf (a.symbol v) = v := by
  have hall : ∀ w < 64, valueOf (a.symbol w) = w := by
    simp only [symbol, symbols_eq]
    cases a <;> decide +kernel
  exact hall v h

/-- No symbol stands for two values, not even in different alphabets. -/
theorem symbol_inj {a b : Alphabet} {v w : Nat} (hv : v < 64) (hw : w < 64)
    (h : a.symbol v = b.symbol w) : v = w := by
  rw [← valueOf_symbol a hv, h, valueOf_symbol b hw]

theorem symbol_mem (a : Alphabet) {v : Nat} (h : v < 64) : a.symbol v ∈ a.symbols := by
  have hv : v < a.symbols.length := by rwa [length_symbols]
  rw [symbol, List.getElem?_eq_getElem hv]
  exact List.getElem_mem hv

/-- Symbols are letters, digits and the last two of their alphabet. -/
theorem isAlphanum_or_mem_last {a : Alphabet} {c : Char} (h : c ∈ a.symbols) :
    c.isAlphanum ∨ c ∈ a.last := by
  have hall : a.symbols.all (fun c => c.isAlphanum ∨ c ∈ a.last) = true := by
    rw [symbols_eq]
    cases a <;> decide +kernel
  simpa using List.all_eq_true.1 hall c h

theorem toNat_lt_of_mem {a : Alphabet} {c : Char} (h : c ∈ a.symbols) : c.toNat < 128 := by
  have hall : a.symbols.all (·.toNat < 128) = true := by
    rw [symbols_eq]
    cases a <;> decide +kernel
  simpa using List.all_eq_true.1 hall c h

theorem ne_sign_of_mem {a : Alphabet} {c : Char} (h : c ∈ a.symbols) : c ≠ '=' := by
  have hall : a.symbols.all (· ≠ '=') = true := by
    rw [symbols_eq]
    cases a <;> decide +kernel
  simpa using List.all_eq_true.1 hall c h

/-- A byte is read as the value whose symbol it is. -/
theorem value?_eq_some {a : Alphabet} {b : UInt8} {v : Nat} :
    a.value? b = some v ↔ v < 64 ∧ (a.symbol v).toNat = b.toNat := by
  have hget (w : Nat) (hw : w < a.symbols.length) : a.symbol w = a.symbols[w] := by
    rw [symbol, List.getElem?_eq_getElem hw, Option.getD_some]
  rw [value?, List.findIdx?_eq_some_iff_getElem]
  constructor
  · rintro ⟨hv, hsymbol, -⟩
    exact ⟨length_symbols a ▸ hv, by rw [hget v hv]; exact of_decide_eq_true hsymbol⟩
  · rintro ⟨hv, hsymbol⟩
    have hv' : v < a.symbols.length := by rwa [length_symbols]
    refine ⟨hv', by rw [← hget v hv']; exact decide_eq_true hsymbol, fun w hw => ?_⟩
    -- an earlier symbol with the same code would have the same value
    rw [← hget w (by omega), Bool.not_eq_true, decide_eq_false_iff_not]
    intro hsame
    have hchar : a.symbol w = a.symbol v := Char.toNat_inj.1 (hsame.trans hsymbol.symm)
    have heq : w = v := symbol_inj (by omega) hv hchar
    omega

end Alphabet

/-- How many equals signs stand after so many symbols. -/
def Padding.signs (p : Padding) (symbols : Nat) : Nat :=
  match p with
  | refused => 0
  | required => (4 - symbols % 4) % 4

/-- The base 64 of some bytes in an alphabet, with equals signs if the padding asks for them. -/
def spell (a : Alphabet) (p : Padding) (bytes : List UInt8) : List Char :=
  encode a bytes ++ List.replicate (p.signs (encode a bytes).length) '='

theorem length_encode (a : Alphabet) (bytes : List UInt8) :
    (encode a bytes).length = bytes.length + (bytes.length + 2) / 3 := by
  rw [encode, List.length_map, length_sextets]

theorem mem_symbols_of_mem_encode {a : Alphabet} {bytes : List UInt8} {c : Char}
    (h : c ∈ encode a bytes) : c ∈ a.symbols := by
  obtain ⟨v, hv, rfl⟩ := List.mem_map.1 h
  exact a.symbol_mem (sextets_lt bytes v hv)

theorem mem_of_mem_spell {a : Alphabet} {p : Padding} {bytes : List UInt8} {c : Char}
    (h : c ∈ spell a p bytes) : c ∈ a.symbols ∨ c = '=' := by
  obtain h | h := List.mem_append.1 h
  · exact .inl (mem_symbols_of_mem_encode h)
  · exact .inr (List.eq_of_mem_replicate h)

/-- Different bytes are never spelled alike, not even in different alphabets or paddings. -/
theorem spell_inj {a b : Alphabet} {p q : Padding} {bytes others : List UInt8}
    (h : spell a p bytes = spell b q others) : bytes = others := by
  have hcut (a : Alphabet) (p : Padding) (bytes : List UInt8) :
      (spell a p bytes).takeWhile (· ≠ '=') = encode a bytes := by
    have hsymbols : ∀ c ∈ encode a bytes, decide (c ≠ '=') = true := fun c hc =>
      decide_eq_true (Alphabet.ne_sign_of_mem (mem_symbols_of_mem_encode hc))
    rw [spell, List.takeWhile_append_of_pos hsymbols, List.takeWhile_replicate_eq_filter]
    simp
  have hencode : encode a bytes = encode b others := by rw [← hcut a p, h, hcut]
  have hsextets : sextets bytes = sextets others := by
    refine List.ext_getElem (by simpa [encode] using congrArg List.length hencode) ?_
    intro i hi hi'
    refine Alphabet.symbol_inj (a := a) (b := b) (sextets_lt _ _ (List.getElem_mem hi))
      (sextets_lt _ _ (List.getElem_mem hi')) ?_
    simpa [encode, hi, hi'] using congrArg (·[i]?) hencode
  exact (Prod.mk.inj ((unite_sextets bytes).symm.trans (hsextets ▸ unite_sextets others))).1

theorem length_spell_refused (a : Alphabet) (bytes : List UInt8) :
    (spell a .refused bytes).length = bytes.length + (bytes.length + 2) / 3 := by
  rw [spell, List.length_append, length_encode]
  simp [Padding.signs]

theorem length_spell_required (a : Alphabet) (bytes : List UInt8) :
    (spell a .required bytes).length % 4 = 0 := by
  rw [spell, List.length_append, List.length_replicate, length_encode]
  simp only [Padding.signs]
  omega

/-- A spelling without equals signs is the one that has none in any case. -/
theorem spell_of_not_mem_sign {a : Alphabet} {p : Padding} {bytes : List UInt8}
    (h : '=' ∉ spell a p bytes) : spell a p bytes = spell a .refused bytes := by
  have hsigns : p.signs (encode a bytes).length = 0 := by
    by_contra hne
    exact h (List.mem_append_right _ (List.mem_replicate.2 ⟨hne, rfl⟩))
  rw [spell, hsigns]
  rfl

/-- Three bytes each make a whole block, to which no equals sign is added. -/
theorem spell_refused_eq_required {a : Alphabet} {bytes : List UInt8} (h : bytes.length % 3 = 0) :
    spell a .refused bytes = spell a .required bytes := by
  have hsigns : Padding.required.signs (encode a bytes).length = 0 := by
    rw [length_encode, Padding.signs]
    omega
  rw [spell, spell, hsigns]
  rfl

theorem not_mem_spell_urlSafe {p : Padding} {bytes : List UInt8} {c : Char}
    (h : c ∈ Alphabet.standard.last) : c ∉ spell .urlSafe p bytes := by
  have hall : Alphabet.standard.last.all (fun c => c ∉ '=' :: Alphabet.urlSafe.symbols) = true := by
    rw [Alphabet.symbols_eq]
    decide +kernel
  intro hc
  exact of_decide_eq_true (List.all_eq_true.1 hall c h) (List.mem_cons.2 (mem_of_mem_spell hc).symm)

/-- Without its own symbols the standard alphabet is the other one. -/
theorem spell_standard_eq_urlSafe {p : Padding} {bytes : List UInt8}
    (h : ∀ c ∈ Alphabet.standard.last, c ∉ spell .standard p bytes) :
    spell .standard p bytes = spell .urlSafe p bytes := by
  have hall : ∀ v < 64, Alphabet.standard.symbol v ∈ Alphabet.standard.last ∨
      Alphabet.standard.symbol v = Alphabet.urlSafe.symbol v := by
    simp only [Alphabet.symbol, Alphabet.symbols_eq]
    decide +kernel
  have hencode : encode .standard bytes = encode .urlSafe bytes := by
    refine List.map_congr_left fun v hv => ?_
    refine (hall v (sextets_lt _ v hv)).resolve_left fun hlast => h _ hlast ?_
    exact List.mem_append_left _ (List.mem_map_of_mem hv)
  rw [spell, spell, hencode]

/-- Only equals signs, each where a block of four that began at a multiple of four lacks symbols. -/
def IsFilling (i : Nat) : List UInt8 → Prop
  | [] => True
  | b :: rest => b = pad ∧ 2 ≤ i % 4 ∧ IsFilling (i + 1) rest

/-- A filling ends with the block at the latest. -/
theorem isFilling_iff {i : Nat} {text : List UInt8} :
    IsFilling i text ↔ text = List.replicate text.length pad ∧
      (text = [] ∨ 2 ≤ i % 4 ∧ i % 4 + text.length ≤ 4) := by
  induction text generalizing i with
  | nil => simp [IsFilling]
  | cons b rest ih =>
    simp only [IsFilling, ih, List.length_cons, List.replicate_succ, List.cons.injEq, reduceCtorEq,
      false_or]
    constructor
    · rintro ⟨rfl, hi, hrest, rfl | ⟨hi', hlength⟩⟩
      · exact ⟨⟨rfl, hrest⟩, hi, by simp only [List.length_nil]; omega⟩
      · exact ⟨⟨rfl, hrest⟩, hi, by omega⟩
    · rintro ⟨⟨rfl, hrest⟩, hi, hlength⟩
      refine ⟨rfl, hi, hrest, ?_⟩
      rcases rest with _ | ⟨b', rest⟩
      · exact .inl rfl
      · simp only [List.length_cons] at hlength ⊢
        exact .inr (by omega)

/-- The byte of a symbol. -/
def Alphabet.byte (a : Alphabet) (value : Nat) : UInt8 := (a.symbol value).toUInt8

/-- The byte that an ASCII character is written as is told by its code. -/
theorem toUInt8_eq_iff {c : Char} {b : UInt8} (hc : c.toNat < 128) :
    c.toUInt8 = b ↔ c.toNat = b.toNat := by
  rw [← UInt8.toNat_inj]
  simp only [Char.toUInt8, UInt32.toNat_toUInt8]
  rw [Nat.mod_eq_of_lt (by change c.toNat < 256; omega)]
  rfl

namespace Alphabet

theorem value?_eq_some_byte {a : Alphabet} {b : UInt8} {v : Nat} :
    a.value? b = some v ↔ v < 64 ∧ a.byte v = b := by
  rw [value?_eq_some]
  refine and_congr_right fun hv => ?_
  rw [byte, toUInt8_eq_iff (toNat_lt_of_mem (a.symbol_mem hv))]

theorem byte_ne_pad {a : Alphabet} {v : Nat} (hv : v < 64) : a.byte v ≠ pad := by
  have hmem := a.symbol_mem hv
  rw [byte, Ne, toUInt8_eq_iff (toNat_lt_of_mem hmem)]
  exact fun h => ne_sign_of_mem hmem (Char.toNat_inj.1 h)

end Alphabet

/-- After an equals sign there is nothing else. -/
theorem values_some_eq_ok_iff {a : Alphabet} {i j : Nat} {text : List UInt8} {vs : List Nat} :
    values a i (some j) text = .ok vs ↔ vs = [] ∧ IsFilling i text := by
  induction text generalizing i with
  | nil => simp [values, IsFilling, eq_comm]
  | cons b rest ih =>
    rw [values]
    split
    · next hpad =>
      split
      · next hplace => simp only [IsFilling, reduceCtorEq, false_iff]; omega
      · next hplace => simp [ih, IsFilling, hpad, Nat.not_lt.1 hplace]
    · next hpad => simp [IsFilling, hpad]

/-- What is read is the symbols of the values, and after them the last block may be filled up. -/
theorem values_none_eq_ok_iff {a : Alphabet} {i : Nat} {text : List UInt8} {vs : List Nat} :
    values a i none text = .ok vs ↔ (∀ v ∈ vs, v < 64) ∧
      ∃ filling, text = vs.map a.byte ++ filling ∧ IsFilling (i + vs.length) filling := by
  induction text generalizing i vs with
  | nil =>
    simp only [values, Except.ok.injEq, List.nil_eq, List.append_eq_nil_iff, List.map_eq_nil_iff]
    constructor
    · rintro rfl
      exact ⟨by simp, [], ⟨rfl, rfl⟩, trivial⟩
    · rintro ⟨-, filling, ⟨rfl, -⟩, -⟩
      rfl
  | cons b rest ih =>
    constructor
    · intro h
      simp only [values] at h
      split at h
      · next hpad =>
        split at h
        · cases h
        · next hplace =>
          obtain ⟨rfl, hrest⟩ := values_some_eq_ok_iff.1 h
          exact ⟨by simp, b :: rest, rfl, hpad, Nat.not_lt.1 hplace, hrest⟩
      · cases hvalue : a.value? b with
        | none => simp [hvalue] at h
        | some v =>
          obtain ⟨hv, hbyte⟩ := Alphabet.value?_eq_some_byte.1 hvalue
          cases hvalues : values a (i + 1) none rest with
          | error f => simp [hvalue, hvalues, Except.map] at h
          | ok ws =>
            obtain rfl : v :: ws = vs := by simpa [hvalue, hvalues, Except.map] using h
            obtain ⟨hws, filling, rfl, hfilling⟩ := ih.1 hvalues
            refine ⟨List.forall_mem_cons.2 ⟨hv, hws⟩, filling, by simp [hbyte], ?_⟩
            rwa [List.length_cons, Nat.add_comm ws.length, ← Nat.add_assoc]
    · rintro ⟨hlt, filling, htext, hfilling⟩
      cases vs with
      | nil =>
        obtain rfl : b :: rest = filling := htext
        obtain ⟨hpad, hplace, hrest⟩ := hfilling
        have hplace' : ¬ i % 4 < 2 := Nat.not_lt.2 hplace
        simp only [values, hpad, if_pos, if_neg hplace']
        exact values_some_eq_ok_iff.2 ⟨rfl, hrest⟩
      | cons v ws =>
        obtain ⟨hv, hws⟩ := List.forall_mem_cons.1 hlt
        obtain ⟨rfl, hrest⟩ := List.cons.inj htext
        have hvalues : values a (i + 1) none rest = .ok ws := by
          refine ih.2 ⟨hws, filling, hrest, ?_⟩
          rwa [Nat.add_assoc, Nat.add_comm 1]
        simp only [values, if_neg (Alphabet.byte_ne_pad hv),
          Alphabet.value?_eq_some_byte.2 ⟨hv, rfl⟩, hvalues]
        rfl

theorem checkLength_eq_ok_iff {a : Alphabet} {text : List UInt8} :
    checkLength a text = .ok () ↔ text.length % 4 ≠ 1 := by
  unfold checkLength
  split
  · next h =>
    split
    · simp [h]
    · split <;> simp [h]
  · next h => simp [h]

/-- The bytes of a spelling. -/
theorem map_toUInt8_spell (a : Alphabet) (p : Padding) (bytes : List UInt8) :
    (spell a p bytes).map Char.toUInt8 = (sextets bytes).map a.byte ++
      List.replicate (p.signs (sextets bytes).length) pad := by
  rw [spell, List.map_append, encode, List.map_map, List.map_replicate, List.length_map]
  rfl

/-- A filling that the padding admits has all the signs that the padding asks for. -/
theorem eq_signs_of_admits {p : Padding} {n : Nat} {filling : List UInt8}
    (hfilling : IsFilling n filling) (hadmits : p.admits (n + filling.length) n = true) :
    filling = List.replicate (p.signs n) pad := by
  obtain ⟨hpads, hplace⟩ := isFilling_iff.1 hfilling
  have hlength : filling.length = p.signs n := by
    cases p with
    | refused => simpa [Padding.admits, Padding.signs] using hadmits
    | required =>
      have hfull : (n + filling.length) % 4 = 0 := by simpa [Padding.admits] using hadmits
      rw [Padding.signs]
      obtain rfl | ⟨hplace, hlength⟩ := hplace
      · simp only [List.length_nil] at hfull ⊢
        omega
      · omega
  rw [hpads, hlength]

/-- The signs that a padding asks for fill up a block of two symbols or three. -/
theorem isFilling_signs (p : Padding) {n : Nat} (hn : n % 4 ≠ 1) :
    IsFilling n (List.replicate (p.signs n) pad) := by
  rw [isFilling_iff, List.length_replicate, List.replicate_eq_nil_iff]
  refine ⟨rfl, ?_⟩
  cases p with
  | refused => exact .inl rfl
  | required =>
    simp only [Padding.signs]
    omega

theorem admits_signs (p : Padding) (n : Nat) : p.admits (n + p.signs n) n = true := by
  cases p with
  | refused => simp [Padding.admits, Padding.signs]
  | required =>
    simp only [Padding.admits, Padding.signs, beq_iff_eq]
    omega

theorem length_sextets_mod (bytes : List UInt8) : (sextets bytes).length % 4 ≠ 1 := by
  rw [length_sextets]
  omega

/-- A text is read as some bytes just when it is their base 64. -/
theorem decode_eq_ok_iff {a : Alphabet} {p : Padding} {text bytes : List UInt8} :
    decode a p text = .ok bytes ↔ text = (spell a p bytes).map Char.toUInt8 := by
  rw [map_toUInt8_spell]
  constructor
  · intro h
    simp only [decode, bind, Except.bind] at h
    cases hcheck : checkLength a text with
    | error f => simp [hcheck] at h
    | ok _ =>
      cases hvalues : values a 0 none text with
      | error f => simp [hcheck, hvalues] at h
      | ok vs =>
        simp only [hcheck, hvalues] at h
        split at h
        · next hadmits =>
          obtain ⟨hlt, filling, rfl, hfilling⟩ := values_none_eq_ok_iff.1 hvalues
          rw [Nat.zero_add] at hfilling
          simp only [List.length_append, List.length_map] at hadmits
          have hn : vs.length % 4 ≠ 1 := by
            have hlength := checkLength_eq_ok_iff.1 hcheck
            rw [List.length_append, List.length_map] at hlength
            obtain rfl | ⟨hplace, -⟩ := (isFilling_iff.1 hfilling).2
            · exact hlength
            · omega
          split at h
          · next hunused =>
            have hunite : unite vs = (bytes, 0) := Prod.ext (Except.ok.inj h) hunused
            rw [eq_signs_of_admits hfilling hadmits, sextets_of_unite hlt hn hunite]
          · cases h
        · cases h
  · rintro rfl
    set text := (sextets bytes).map a.byte ++ List.replicate (p.signs (sextets bytes).length) pad
      with htext
    have hn := length_sextets_mod bytes
    have hlength : text.length = (sextets bytes).length + p.signs (sextets bytes).length := by
      simp [htext]
    have hcheck : checkLength a text = .ok () := by
      rw [checkLength_eq_ok_iff, hlength]
      cases p <;> simp only [Padding.signs] <;> omega
    have hvalues : values a 0 none text = .ok (sextets bytes) :=
      values_none_eq_ok_iff.2 ⟨sextets_lt bytes, _, htext, by simpa using isFilling_signs p hn⟩
    simp only [decode, hcheck, hvalues, bind, Except.bind, hlength, admits_signs, if_pos,
      unite_sextets]
    rfl

end CurveGuess.Base64
