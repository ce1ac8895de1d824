import CurveGuess.Text.Blank
import Mathlib.Data.List.Basic

/-!
# Texts

What taking the blanks off a text leaves, and the bytes that a text is written as in UTF-8.
-/
namespace CurveGuess

theorem dropWhile_isBlank_eq_self {cs : List Char} (h : ∀ c ∈ cs, isBlank c = false) :
    cs.dropWhile isBlank = cs := by
  cases cs with
  | nil => rfl
  | cons c cs => exact List.dropWhile_cons_of_neg (by simp [h c List.mem_cons_self])

/-- A text without blanks comes out of blanks around it unchanged. -/
theorem trim_surrounded {before s after : String} (hbefore : ∀ c ∈ before.toList, isBlank c = true)
    (hs : ∀ c ∈ s.toList, isBlank c = false) (hafter : ∀ c ∈ after.toList, isBlank c = true) :
    trim (before ++ s ++ after) = s := by
  have hleft : (before.toList ++ (s.toList ++ after.toList)).dropWhile isBlank =
      (s.toList ++ after.toList).dropWhile isBlank := List.dropWhile_append_of_pos hbefore
  have hafter' : ∀ c ∈ after.toList.reverse, isBlank c = true := fun c hc =>
    hafter c (List.mem_reverse.1 hc)
  have hs' : ∀ c ∈ s.toList.reverse, isBlank c = false := fun c hc => hs c (List.mem_reverse.1 hc)
  rw [trim, String.toList_append, String.toList_append, List.append_assoc, hleft]
  cases hcs : s.toList with
  | nil =>
    -- nothing but blanks, all of which fall at the left end
    obtain rfl : s = "" := String.toList_eq_nil_iff.1 hcs
    have hgone : (after.toList ++ []).dropWhile isBlank = [] :=
      List.dropWhile_append_of_pos hafter
    rw [List.append_nil] at hgone
    rw [List.nil_append, hgone]
    rfl
  | cons c cs =>
    have hfirst : (c :: cs ++ after.toList).dropWhile isBlank = c :: cs ++ after.toList :=
      List.dropWhile_cons_of_neg (by simp [hs c (hcs ▸ List.mem_cons_self)])
    rw [hfirst, ← hcs, trimEnd, List.reverse_append, List.dropWhile_append_of_pos hafter',
      dropWhile_isBlank_eq_self hs', List.reverse_reverse, String.ofList_toList]

theorem trim_eq_self {s : String} (h : ∀ c ∈ s.toList, isBlank c = false) : trim s = s := by
  simpa using @trim_surrounded "" s "" (by simp) h (by simp)

/-- The bytes of a text in UTF-8. -/
def utf8 (s : String) : List UInt8 := s.toUTF8.data.toList

theorem utf8_inj {s t : String} : utf8 s = utf8 t ↔ s = t := by
  rw [utf8, utf8, Array.toList_inj, ← ByteArray.ext_iff, String.toUTF8_eq_toByteArray,
    String.toUTF8_eq_toByteArray, String.toByteArray_inj]

/-- A text in ASCII has a byte for each character. -/
theorem utf8_ofList {cs : List Char} (h : ∀ c ∈ cs, c.toNat < 128) :
    utf8 (String.ofList cs) = cs.map Char.toUInt8 := by
  simp only [utf8, String.toUTF8_eq_toByteArray, String.toByteArray_ofList]
  induction cs with
  | nil => rfl
  | cons c cs ih =>
    obtain ⟨hc, hcs⟩ := List.forall_mem_cons.1 h
    have hsize : c.utf8Size = 1 := by
      rw [Char.utf8Size_eq_one_iff, UInt32.le_iff_toNat_le]
      exact Nat.le_of_lt_succ hc
    rw [List.utf8Encode_cons, List.utf8Encode_singleton, String.utf8EncodeChar_eq_singleton hsize,
      ByteArray.data_append, Array.toList_append, ih hcs]
    rfl

/-- Bytes are read as the text that is written as them. -/
theorem fromUTF8?_eq_some_iff {bytes : List UInt8} {s : String} :
    String.fromUTF8? ⟨bytes.toArray⟩ = some s ↔ bytes = utf8 s := by
  unfold String.fromUTF8?
  split
  · next hvalid =>
    rw [Option.some_inj, ← String.toByteArray_inj, utf8, String.toUTF8_eq_toByteArray]
    constructor
    · intro h
      rw [← h]
      rfl
    · rintro rfl
      rfl
  · next hvalid =>
    simp only [reduceCtorEq, false_iff]
    rintro rfl
    exact hvalid s.isValidUTF8

end CurveGuess
