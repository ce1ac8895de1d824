import CurveGuess.Proofs.Share.Base64
import CurveGuess.Proofs.Text
import CurveGuess.Share.Link

/-!
# The spellings of a token

A text has four tokens, one for each alphabet with or without equals signs at the end. Links have
the one of the URL-safe alphabet without the signs. Three are read as the text; the one of the
standard alphabet without the signs is read only if it happens to be one of the others. Nothing else
is read, and of the tokens that are written as in links only one is read as a given text.
-/
namespace CurveGuess.Share

open Base64 (Alphabet Padding spell)

/-- The base 64 of a text. -/
def token (a : Alphabet) (p : Padding) (s : String) : String :=
  String.ofList (spell a p (utf8 s))

theorem encode_eq_token (s : String) : encode s = token .urlSafe .refused s := by
  rw [token, spell, Padding.signs, List.replicate_zero, List.append_nil]
  rfl

theorem toList_token (a : Alphabet) (p : Padding) (s : String) :
    (token a p s).toList = spell a p (utf8 s) := String.toList_ofList

/-- Tokens are written in ASCII. -/
theorem toNat_lt_of_mem_spell {a : Alphabet} {p : Padding} {bytes : List UInt8} {c : Char}
    (h : c ∈ spell a p bytes) : c.toNat < 128 := by
  obtain h | rfl := Base64.mem_of_mem_spell h
  · exact Alphabet.toNat_lt_of_mem h
  · decide

theorem not_isBlank_of_mem_token {a : Alphabet} {p : Padding} {s : String} {c : Char}
    (h : c ∈ (token a p s).toList) : isBlank c = false := by
  have hall : ('=' :: a.symbols).all (fun c => !isBlank c) = true := by
    rw [Alphabet.symbols_eq]
    cases a <;> decide +kernel
  rw [toList_token] at h
  simpa using List.all_eq_true.1 hall c (List.mem_cons.2 (Base64.mem_of_mem_spell h).symm)

theorem trim_token {a : Alphabet} {p : Padding} {before s after : String}
    (hbefore : ∀ c ∈ before.toList, isBlank c = true)
    (hafter : ∀ c ∈ after.toList, isBlank c = true) :
    trim (before ++ token a p s ++ after) = token a p s :=
  trim_surrounded hbefore (fun _ hc => not_isBlank_of_mem_token hc) hafter

theorem base64_decode_eq_ok_iff {a : Alphabet} {p : Padding} {t : String} {bytes : List UInt8} :
    Base64.decode a p (utf8 t) = .ok bytes ↔ t = String.ofList (spell a p bytes) := by
  rw [Base64.decode_eq_ok_iff, ← utf8_ofList fun c hc => toNat_lt_of_mem_spell hc, utf8_inj]

/-- It does not matter which spelling is tried first, as no two texts share one. -/
theorem bytes_eq_ok_iff {t : String} {bs : List UInt8} :
    bytes t = .ok bs ↔ t = String.ofList (spell .urlSafe .refused bs) ∨
      t = String.ofList (spell .urlSafe .required bs) ∨
      t = String.ofList (spell .standard .required bs) := by
  have hsame {a b : Alphabet} {p q : Padding} {bs' : List UInt8}
      (h : Base64.decode a p (utf8 t) = .ok bs') (h' : Base64.decode b q (utf8 t) = .ok bs) :
      bs' = bs := by
    rw [base64_decode_eq_ok_iff] at h h'
    exact Base64.spell_inj (String.ofList_inj.1 (h.symm.trans h'))
  have hutf8 : t.toUTF8.data.toList = utf8 t := rfl
  simp only [← base64_decode_eq_ok_iff, bytes, hutf8]
  cases hfirst : Base64.decode .urlSafe .refused (utf8 t) with
  | ok bs' =>
    refine (or_iff_left_of_imp ?_).symm
    rintro (h | h) <;> rw [hsame hfirst h]
  | error _ =>
    simp only [reduceCtorEq, false_or]
    cases hsecond : Base64.decode .urlSafe .required (utf8 t) with
    | ok bs' =>
      refine (or_iff_left_of_imp fun h => ?_).symm
      rw [hsame hsecond h]
    | error _ => simp

/-- A text is read from its three tokens, with or without blanks around them, and from nothing
else. -/
theorem decode_eq_ok_iff {t s : String} :
    decode t = .ok s ↔ trim t = token .urlSafe .refused s ∨ trim t = token .urlSafe .required s ∨
      trim t = token .standard .required s := by
  unfold decode
  have hbytes : bytes (trim t) = .ok (utf8 s) ↔ _ := bytes_eq_ok_iff
  simp only [token, ← hbytes]
  cases hread : bytes (trim t) with
  | error f => simp
  | ok bs =>
    simp only [Except.ok.injEq, ← fromUTF8?_eq_some_iff]
    cases String.fromUTF8? ⟨bs.toArray⟩ with
    | none => simp
    | some s' => simp

/-- Is this the spelling in the standard alphabet without equals signs, and unlike each of the
other three? It is unlike them if it has one of the two symbols of its own, and if equals signs are
missing from its last block. -/
structure IsUntried (a : Alphabet) (p : Padding) (s : String) : Prop where
  alphabet : a = .standard
  padding : p = .refused
  length : (utf8 s).length % 3 ≠ 0
  symbol : ∃ c ∈ Alphabet.standard.last, c ∈ (token a p s).toList

/-- Every other token of a text is spelled in one of the three ways that are tried. -/
theorem spelling_of_not_isUntried {a : Alphabet} {p : Padding} {s : String}
    (h : ¬IsUntried a p s) : token a p s = token .urlSafe .refused s ∨
      token a p s = token .urlSafe .required s ∨ token a p s = token .standard .required s := by
  cases a with
  | urlSafe =>
    cases p with
    | refused => exact .inl rfl
    | required => exact .inr (.inl rfl)
  | standard =>
    cases p with
    | required => exact .inr (.inr rfl)
    | refused =>
      by_cases hlength : (utf8 s).length % 3 = 0
      · exact .inr (.inr (congrArg String.ofList (Base64.spell_refused_eq_required hlength)))
      · refine .inl (congrArg String.ofList (Base64.spell_standard_eq_urlSafe fun c hlast hc => ?_))
        rw [← toList_token] at hc
        exact h ⟨rfl, rfl, hlength, c, hlast, hc⟩

/-- The spelling that is not tried is not that of other bytes either. -/
theorem bytes_ne_ok_of_isUntried {a : Alphabet} {p : Padding} {s : String} (h : IsUntried a p s)
    (bs : List UInt8) : bytes (token a p s) ≠ .ok bs := by
  obtain ⟨rfl, rfl, hlength, c, hlast, hc⟩ := h
  rw [toList_token] at hc
  intro hread
  obtain hsame | hsame | hsame := bytes_eq_ok_iff.1 hread
  · rw [String.ofList_inj.1 hsame] at hc
    exact Base64.not_mem_spell_urlSafe hlast hc
  · rw [String.ofList_inj.1 hsame] at hc
    exact Base64.not_mem_spell_urlSafe hlast hc
  · -- equals signs would make the length a multiple of four
    have hblocks := Base64.length_spell_required .standard bs
    rw [← String.ofList_inj.1 hsame, Base64.length_spell_refused] at hblocks
    omega

/-- All tokens of a text are read as the text, whatever blanks stand around them, but for the
spelling that is not tried, which is refused. -/
theorem decode_token (a : Alphabet) (p : Padding) (s : String) {before after : String}
    (hbefore : ∀ c ∈ before.toList, isBlank c = true)
    (hafter : ∀ c ∈ after.toList, isBlank c = true) :
    (¬IsUntried a p s → decode (before ++ token a p s ++ after) = .ok s) ∧
    (IsUntried a p s → ∃ fault,
      decode (before ++ token a p s ++ after) = .error ⟨.notBase64 fault, token a p s⟩) := by
  have htrim : trim (before ++ token a p s ++ after) = token a p s := trim_token hbefore hafter
  constructor
  · intro htried
    rw [decode_eq_ok_iff, htrim]
    exact spelling_of_not_isUntried htried
  · intro huntried
    cases hread : bytes (token a p s) with
    | ok bs => exact absurd hread (bytes_ne_ok_of_isUntried huntried bs)
    | error fault =>
      refine ⟨fault, ?_⟩
      rw [decode, htrim]
      simp only [hread]

theorem decode_token_question : decode ("\t " ++ "YWI/ZA==" ++ "\n") = .ok "ab?d" ∧
    ∃ fault, decode ("\t " ++ "YWI/ZA" ++ "\n") = .error ⟨.notBase64 fault, "YWI/ZA"⟩ := by
  have hbefore : ∀ c ∈ "\t ".toList, isBlank c = true := List.all_eq_true.1 (by decide +kernel)
  have hafter : ∀ c ∈ "\n".toList, isBlank c = true := List.all_eq_true.1 (by decide +kernel)
  have hpadded : token .standard .required "ab?d" = "YWI/ZA==" := by decide +kernel
  have hbare : token .standard .refused "ab?d" = "YWI/ZA" := by decide +kernel
  have htried : ¬IsUntried .standard .required "ab?d" := fun h => Padding.noConfusion h.padding
  have huntried : IsUntried .standard .refused "ab?d" :=
    ⟨rfl, rfl, by decide +kernel, '/', by decide, by rw [hbare]; decide⟩
  rw [← hpadded, ← hbare]
  exact ⟨(decode_token .standard .required "ab?d" hbefore hafter).1 htried,
    (decode_token .standard .refused "ab?d" hbefore hafter).2 huntried⟩

theorem decode_refuses_unpadded :
    token .standard .refused "ab?d" = "YWI/ZA" ∧ decode "YWI/ZA" ≠ .ok "ab?d" := by
  have hrefused : (decode "YWI/ZA").isOk = false := by decide +kernel
  refine ⟨by decide +kernel, fun h => ?_⟩
  rw [h] at hrefused
  cases hrefused

/-- Is a token written as it is in links, without blanks around it, without equals signs and without
the symbols that only the standard alphabet has? -/
structure IsPlain (t : String) : Prop where
  trimmed : trim t = t
  unpadded : '=' ∉ t.toList
  urlSafe : ∀ c ∈ Alphabet.standard.last, c ∉ t.toList

theorem eq_encode_of_isPlain {a : Alphabet} {p : Padding} {t s : String} (ht : IsPlain t)
    (h : t = token a p s) : t = encode s := by
  have hunpadded : '=' ∉ spell a p (utf8 s) := by
    rw [← toList_token, ← h]
    exact ht.unpadded
  have hrefused : t = token a .refused s := by
    rw [h, token, token, Base64.spell_of_not_mem_sign hunpadded]
  rw [encode_eq_token]
  cases a with
  | urlSafe => exact hrefused
  | standard =>
    rw [hrefused]
    refine congrArg String.ofList (Base64.spell_standard_eq_urlSafe fun c hlast hc => ?_)
    rw [← toList_token, ← hrefused] at hc
    exact ht.urlSafe c hlast hc

/-- Whatever is read as a text is, but for blanks around it, the base 64 of the text in one of the
alphabets, with no equals signs or with those that fill up the last block. Of a text that is written
as in links this leaves one token only. -/
theorem canonical_of_decode {t s : String} (h : decode t = .ok s) :
    (∃ a p, trim t = token a p s ∧ ∀ c ∈ (trim t).toList, c ∈ a.symbols ∨ c = '=') ∧
    (IsPlain t → encode s = t ∧ ∀ t', IsPlain t' → decode t' = .ok s → t' = t) := by
  have hspelled {t : String} (h : decode t = .ok s) : ∃ a p, trim t = token a p s := by
    obtain h | h | h := decode_eq_ok_iff.1 h
    · exact ⟨.urlSafe, .refused, h⟩
    · exact ⟨.urlSafe, .required, h⟩
    · exact ⟨.standard, .required, h⟩
  have hplain {t : String} (ht : IsPlain t) (h : decode t = .ok s) : t = encode s := by
    obtain ⟨a, p, hp⟩ := hspelled h
    rw [ht.trimmed] at hp
    exact eq_encode_of_isPlain ht hp
  constructor
  · obtain ⟨a, p, hp⟩ := hspelled h
    refine ⟨a, p, hp, fun c hc => ?_⟩
    rw [hp, toList_token] at hc
    exact Base64.mem_of_mem_spell hc
  · intro ht
    refine ⟨(hplain ht h).symm, fun t' ht' h' => ?_⟩
    rw [hplain ht' h', hplain ht h]

theorem canonical_of_decode_question : decode "YWI_ZA" = .ok "ab?d" ∧ IsPlain "YWI_ZA" ∧
    encode "ab?d" = "YWI_ZA" ∧ ∀ t, IsPlain t → decode t = .ok "ab?d" → t = "YWI_ZA" := by
  have hplain : IsPlain "YWI_ZA" := ⟨by decide +kernel, by simp, by simp [Alphabet.last]⟩
  have htoken : token .urlSafe .refused "ab?d" = "YWI_ZA" := by decide +kernel
  have hread : decode "YWI_ZA" = .ok "ab?d" :=
    decode_eq_ok_iff.2 (.inl (hplain.trimmed.trans htoken.symm))
  exact ⟨hread, hplain, (canonical_of_decode hread).2 hplain⟩

end CurveGuess.Share
