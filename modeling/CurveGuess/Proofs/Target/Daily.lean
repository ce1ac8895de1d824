import CurveGuess.Proofs.Numerals
import CurveGuess.Target.Daily

/-!
# Daily texts

The text that a daily seed is the hash of is a date followed by the name of a tier, with nothing in
between, and it tells both. The name begins with the only letter that can follow a date. Month and
day have two digits, so that the year is what stands before them. A year may have any number of
digits, with zeros in front and with a sign, but the sign and the value are all there is to it.
-/
namespace CurveGuess

/-- A text is cut in one way only before its first character that satisfies `p`. -/
theorem append_inj_of_head {p : Char → Bool} {u u' v v' : List Char}
    (hu : ∀ c ∈ u, p c = false) (hu' : ∀ c ∈ u', p c = false) (hv : v.head?.any p = true)
    (hv' : v'.head?.any p = true) (h : u ++ v = u' ++ v') : u = u' ∧ v = v' := by
  have hcut : ∀ w r : List Char, (∀ c ∈ w, p c = false) → r.head?.any p = true →
      (w ++ r).takeWhile (!p ·) = w := by
    intro w r hw hr
    rw [List.takeWhile_append_of_pos fun c hc => by rw [hw c hc]; rfl]
    cases r with
    | nil => cases hr
    | cons c r =>
      rw [List.takeWhile_cons_of_neg (by simpa using hr), List.append_nil]
  have heq : u = u' := by rw [← hcut u v hu hv, h, hcut u' v' hu' hv']
  subst heq
  exact ⟨rfl, List.append_cancel_left h⟩

namespace Date

theorem toList_padded (width n : Nat) : (padded width n).toList =
    List.replicate (width - (Nat.toDigits 10 n).length) '0' ++ Nat.toDigits 10 n := by
  rw [padded, String.toList_ofList]

/-- The zeros in front of a number do not change it. -/
theorem ofDigits_padded (width n : Nat) : Numeral.ofDigits (padded width n).toList = n := by
  have hzeros : Numeral.ofDigits (List.replicate (width - (Nat.toDigits 10 n).length) '0') = 0 := by
    refine (Numeral.ofDigits_eq_zero fun c hc => ?_).mpr fun c hc => List.eq_of_mem_replicate hc
    rw [List.eq_of_mem_replicate hc]
    rfl
  rw [toList_padded, Numeral.ofDigits_append, hzeros, Nat.zero_mul, Nat.zero_add,
    Numeral.ofDigits_toDigits]

theorem padded_inj {width n m : Nat} :
    (padded width n).toList = (padded width m).toList ↔ n = m := by
  refine ⟨fun h => ?_, fun h => by rw [h]⟩
  rw [← ofDigits_padded width n, h, ofDigits_padded]

theorem isDigit_of_mem_padded {width n : Nat} {c : Char} (h : c ∈ (padded width n).toList) :
    c.isDigit = true := by
  rw [toList_padded, List.mem_append] at h
  rcases h with h | h
  · rw [List.eq_of_mem_replicate h]
    rfl
  · exact Nat.isDigit_of_mem_toDigits (by decide) (by decide) h

theorem padded_ne_nil (width n : Nat) : (padded width n).toList ≠ [] := by
  rw [toList_padded]
  exact List.append_ne_nil_of_right_ne_nil _ Nat.toDigits_ne_nil

/-- A number that needs no more digits than there is room for has exactly so many. -/
theorem length_padded {width n : Nat} (hwidth : 0 < width) (h : n < 10 ^ width) :
    (padded width n).toList.length = width := by
  have hdigits := (Nat.length_toDigits_le_iff (b := 10) (by decide) hwidth).mpr h
  rw [toList_padded, List.length_append, List.length_replicate]
  omega

/-- What stands before the digits of a year. -/
def signOf (year : Int) : List Char :=
  if 0 ≤ year ∧ year ≤ 9999 then [] else if year < 0 then ['-'] else ['+']

theorem toList_yearText (year : Int) :
    (yearText year).toList = signOf year ++ (padded 4 year.natAbs).toList := by
  rw [yearText, signOf]
  split
  · rfl
  · split <;> rw [String.toList_append] <;> rfl

theorem eq_of_mem_signOf {year : Int} {c : Char} (h : c ∈ signOf year) : c = '-' ∨ c = '+' := by
  rw [signOf] at h
  split at h
  · cases h
  · split at h
    · exact .inl (List.mem_singleton.mp h)
    · exact .inr (List.mem_singleton.mp h)

/-- A minus stands before negative years and no others. -/
theorem signOf_eq_minus {year : Int} : signOf year = ['-'] ↔ year < 0 := by
  rw [signOf]
  split
  · next h => simpa using h.1
  · split <;> simp_all

theorem yearText_inj {year year' : Int} :
    (yearText year).toList = (yearText year').toList ↔ year = year' := by
  refine ⟨fun h => ?_, fun h => by rw [h]⟩
  have hdigits (n : Nat) : (padded 4 n).toList.head?.any Char.isDigit = true := by
    rw [List.head?_eq_some_head (padded_ne_nil 4 n), Option.any_some]
    exact isDigit_of_mem_padded (List.head_mem _)
  have hsigns (y : Int) : ∀ c ∈ signOf y, c.isDigit = false := fun c hc => by
    rcases eq_of_mem_signOf hc with rfl | rfl <;> rfl
  rw [toList_yearText, toList_yearText] at h
  obtain ⟨hsign, hsize⟩ :=
    append_inj_of_head (hsigns year) (hsigns year') (hdigits _) (hdigits _) h
  have hnegative : year < 0 ↔ year' < 0 := by rw [← signOf_eq_minus, hsign, signOf_eq_minus]
  have hnatAbs := padded_inj.mp hsize
  omega

theorem toList_text (d : Date) : d.text.toList = (yearText d.year).toList ++
    ('-' :: (padded 2 d.month).toList ++ '-' :: (padded 2 d.day).toList) := by
  simp [text, String.toList_append]

theorem daysIn_lt (year : Int) (month : Nat) : daysIn year month < 10 ^ 2 := by
  unfold daysIn
  split
  · split <;> decide
  all_goals decide

/-- Months and days have two digits each. -/
theorem length_month_day (d : Date) :
    (padded 2 d.month).toList.length = 2 ∧ (padded 2 d.day).toList.length = 2 := by
  have hmonth := d.month_le
  have hday := d.day_le
  have hdays := daysIn_lt d.year d.month
  exact ⟨length_padded (by decide) (by omega), length_padded (by decide) (by omega)⟩

theorem text_inj {d d' : Date} : d.text.toList = d'.text.toList ↔ d = d' := by
  refine ⟨fun h => ?_, fun h => by rw [h]⟩
  obtain ⟨hmonth, hday⟩ := d.length_month_day
  obtain ⟨hmonth', hday'⟩ := d'.length_month_day
  rw [toList_text, toList_text] at h
  obtain ⟨hyear, hrest⟩ := List.append_inj' h (by simp [hmonth, hday, hmonth', hday'])
  obtain ⟨hmonths, hdays⟩ := List.append_inj' hrest (by simp [hday, hday'])
  have hyears := yearText_inj.mp hyear
  have hmonths := padded_inj.mp (List.cons.inj hmonths).2
  have hdays := padded_inj.mp (List.cons.inj hdays).2
  cases d
  cases d'
  simp_all

/-- There are no letters in a date. -/
theorem not_isLetter_of_mem_text {d : Date} {c : Char} (h : c ∈ d.text.toList) :
    Lexer.isLetter c = false := by
  have hnumber {width n : Nat} (hc : c ∈ (padded width n).toList) : Lexer.isLetter c = false := by
    have hdigit := isDigit_of_mem_padded hc
    rw [Numeral.isDigit_eq] at hdigit
    exact Lexer.not_isLetter_of_isDigit hdigit
  simp only [toList_text, toList_yearText, List.mem_append, List.mem_cons] at h
  rcases h with (hsign | hyear) | (rfl | hmonth) | rfl | hday
  · rcases eq_of_mem_signOf hsign with rfl | rfl <;> rfl
  · exact hnumber hyear
  · rfl
  · exact hnumber hmonth
  · rfl
  · exact hnumber hday

end Date

namespace Target

theorem head_name (t : Tier) : t.name.toList.head?.any Lexer.isLetter = true := by
  cases t <;> decide

theorem name_inj {t t' : Tier} : t.name.toList = t'.name.toList ↔ t = t' := by
  cases t <;> cases t' <;> decide

/-- A daily text tells the date and the tier. -/
theorem dailyText_inj {date date' : Date} {tier tier' : Tier} :
    dailyText date tier = dailyText date' tier' ↔ date = date' ∧ tier = tier' := by
  constructor
  · intro h
    have htexts := congrArg String.toList h
    rw [dailyText, dailyText, String.toList_append, String.toList_append] at htexts
    obtain ⟨hdate, htier⟩ := append_inj_of_head (fun c => Date.not_isLetter_of_mem_text)
      (fun c => Date.not_isLetter_of_mem_text) (head_name tier) (head_name tier') htexts
    exact ⟨Date.text_inj.mp hdate, name_inj.mp htier⟩
  · rintro ⟨rfl, rfl⟩
    rfl

example : dailyText ⟨-44, 3, 15, by decide, by decide, by decide, by decide⟩ .veryHard =
    "-0044-03-15very_hard" := by decide +kernel

end Target

end CurveGuess
