import CurveGuess.Text.EditDistance
import Mathlib.Order.Bounds.Defs
import Mathlib.Order.MinMax
import Mathlib.Order.Nat

/-!
# The least number of edits

The table of distances holds what a plain recursion over both texts gives, and that is the least
number of edits, each at any place, that turn the one text into the other. For an upper bound the
recursion is read as a way to edit; for a lower bound, one edit is shown to change the distance to
any text by one at most.
-/
namespace CurveGuess.EditDistance

/-- One edit: somewhere a character is put in, taken out or replaced. -/
inductive Edit : List Char → List Char → Prop
  | insert (us vs : List Char) (c : Char) : Edit (us ++ vs) (us ++ c :: vs)
  | delete (us vs : List Char) (c : Char) : Edit (us ++ c :: vs) (us ++ vs)
  | replace (us vs : List Char) (c d : Char) : Edit (us ++ c :: vs) (us ++ d :: vs)

/-- So many edits, one after the other. -/
inductive Edits : Nat → List Char → List Char → Prop
  | nil (xs : List Char) : Edits 0 xs xs
  | cons {n : Nat} {xs ys zs : List Char} : Edit xs ys → Edits n ys zs → Edits (n + 1) xs zs

/-- The distance by recursion over both texts. -/
def distance : List Char → List Char → Nat
  | [], ys => ys.length
  | x :: xs, [] => (x :: xs).length
  | x :: xs, y :: ys =>
    min (distance xs ys + if x = y then 0 else 1)
      (min (distance xs (y :: ys)) (distance (x :: xs) ys) + 1)
  termination_by xs ys => xs.length + ys.length

section
variable (x y : Char) (xs ys : List Char)

@[simp] theorem distance_nil_left : distance [] ys = ys.length := by rw [distance]

@[simp] theorem distance_nil_right : distance xs [] = xs.length := by
  cases xs <;> rw [distance]

theorem distance_cons_cons :
    distance (x :: xs) (y :: ys) = min (distance xs ys + if x = y then 0 else 1)
      (min (distance xs (y :: ys)) (distance (x :: xs) ys) + 1) := by
  rw [distance]

/-- The distances of `xs` to a text and to everything that is left of it further on. -/
def row (xs : List Char) : List Char → List Nat
  | [] => [distance xs []]
  | y :: ys => distance xs (y :: ys) :: row xs ys

theorem headD_row : (row xs ys).headD 0 = distance xs ys := by cases ys <;> rfl

theorem initial_eq_row : initial ys = row [] ys := by
  induction ys with
  | nil => simp [initial, row]
  | cons y ys ih => simp [initial, row, ih]

theorem extend_row : extend x ys (row xs ys) = row (x :: xs) ys := by
  induction ys with
  | nil => simp [extend, row]
  | cons y ys ih =>
    simp only [extend, row, List.tail_cons, List.headD_cons, ih, headD_row, distance_cons_cons]

theorem foldr_extend : xs.foldr (fun x row => extend x ys row) (initial ys) = row xs ys := by
  induction xs with
  | nil => exact initial_eq_row ys
  | cons x xs ih => rw [List.foldr_cons, ih, extend_row]

end

theorem editDistance_eq (a b : String) : editDistance a b = distance a.toList b.toList := by
  rw [editDistance, foldr_extend, headD_row]

section
variable {n : Nat} {xs ys : List Char}

theorem Edit.cons (c : Char) (h : Edit xs ys) : Edit (c :: xs) (c :: ys) := by
  cases h with
  | insert us vs d => exact .insert (c :: us) vs d
  | delete us vs d => exact .delete (c :: us) vs d
  | replace us vs d e => exact .replace (c :: us) vs d e

theorem Edits.keep (c : Char) (h : Edits n xs ys) : Edits n (c :: xs) (c :: ys) := by
  induction h with
  | nil xs => exact .nil _
  | cons hedit _ ih => exact .cons (hedit.cons c) ih

theorem edits_zero : Edits 0 xs ys ↔ xs = ys := by
  constructor
  · rintro ⟨⟩
    rfl
  · rintro rfl
    exact .nil xs

theorem edits_one : Edits 1 xs ys ↔ Edit xs ys := by
  constructor
  · rintro (_ | ⟨hedit, hrest⟩)
    exact edits_zero.mp hrest ▸ hedit
  · intro hedit
    exact .cons hedit (.nil ys)

theorem Edits.insert (c : Char) (h : Edits n xs ys) : Edits (n + 1) xs (c :: ys) :=
  .cons (.insert [] xs c) (h.keep c)

theorem Edits.delete (c : Char) (h : Edits n xs ys) : Edits (n + 1) (c :: xs) ys :=
  .cons (.delete [] xs c) h

theorem Edits.replace (c d : Char) (h : Edits n xs ys) : Edits (n + 1) (c :: xs) (d :: ys) :=
  .cons (.replace [] xs c d) (h.keep d)

end

theorem edits_length_left (xs : List Char) : Edits xs.length xs [] := by
  induction xs with
  | nil => exact .nil []
  | cons x xs ih => exact ih.delete x

theorem edits_length_right (ys : List Char) : Edits ys.length [] ys := by
  induction ys with
  | nil => exact .nil []
  | cons y ys ih => exact ih.insert y

/-- As many edits as the distance says are enough. -/
theorem edits_distance (xs ys : List Char) : Edits (distance xs ys) xs ys := by
  fun_induction distance xs ys with
  | case1 ys => exact edits_length_right ys
  | case2 x xs => exact edits_length_left (x :: xs)
  | case3 x xs y ys hswap hdelete hinsert =>
    have hswap : Edits (distance xs ys + if x = y then 0 else 1) (x :: xs) (y :: ys) := by
      split
      · next hxy => exact hxy ▸ hswap.keep x
      · exact hswap.replace x y
    rcases min_choice (distance xs ys + if x = y then 0 else 1)
      (min (distance xs (y :: ys)) (distance (x :: xs) ys) + 1) with hmin | hmin
    · rw [hmin]
      exact hswap
    · rw [hmin]
      rcases min_choice (distance xs (y :: ys)) (distance (x :: xs) ys) with hmin | hmin
      · rw [hmin]
        exact hdelete.delete x
      · rw [hmin]
        exact hinsert.insert y

section
variable {xs ys : List Char}

theorem distance_self (xs : List Char) : distance xs xs = 0 := by
  induction xs with
  | nil => simp
  | cons x xs ih => simp [distance_cons_cons, ih]

theorem distance_cons_left_le (c : Char) (xs zs : List Char) :
    distance (c :: xs) zs ≤ distance xs zs + 1 := by
  cases zs with
  | nil => simp
  | cons z zs =>
    rw [distance_cons_cons]
    omega

theorem distance_cons_right_le (z : Char) (xs zs : List Char) :
    distance xs (z :: zs) ≤ distance xs zs + 1 := by
  cases xs with
  | nil => simp
  | cons x xs =>
    rw [distance_cons_cons]
    omega

theorem distance_le_cons_left (c : Char) (xs zs : List Char) :
    distance xs zs ≤ distance (c :: xs) zs + 1 := by
  induction zs with
  | nil =>
    simp only [distance_nil_right, List.length_cons]
    omega
  | cons z zs ih =>
    have hright := distance_cons_right_le z xs zs
    rw [distance_cons_cons]
    omega

theorem distance_replace_le (c d : Char) (xs zs : List Char) :
    distance (c :: xs) zs ≤ distance (d :: xs) zs + 1 := by
  induction zs with
  | nil => simp
  | cons z zs ih =>
    rw [distance_cons_cons, distance_cons_cons]
    split <;> omega

/-- What changes the distance to any text by one at most does so behind a common beginning. -/
theorem distance_append_le (us : List Char) (h : ∀ zs, distance xs zs ≤ distance ys zs + 1)
    (zs : List Char) : distance (us ++ xs) zs ≤ distance (us ++ ys) zs + 1 := by
  induction us generalizing zs with
  | nil => exact h zs
  | cons u us ih =>
    induction zs with
    | nil =>
      have hnil := ih []
      simp only [distance_nil_right, List.cons_append, List.length_cons] at hnil ⊢
      omega
    | cons z zs ihz =>
      have hskip := ih zs
      have hstay := ih (z :: zs)
      simp only [List.cons_append] at ihz ⊢
      rw [distance_cons_cons, distance_cons_cons]
      omega

theorem Edit.distance_le (h : Edit xs ys) (zs : List Char) :
    distance xs zs ≤ distance ys zs + 1 := by
  cases h with
  | insert us vs c => exact distance_append_le us (distance_le_cons_left c vs) zs
  | delete us vs c => exact distance_append_le us (distance_cons_left_le c vs) zs
  | replace us vs c d => exact distance_append_le us (distance_replace_le c d vs) zs

/-- Fewer edits than the distance says do not do. -/
theorem Edits.distance_le {n : Nat} (h : Edits n xs ys) : distance xs ys ≤ n := by
  induction h with
  | nil xs => exact (distance_self xs).le
  | cons hedit _ ih => exact (hedit.distance_le _).trans (Nat.succ_le_succ ih)

end

/-- The distance of two texts is the least number of edits that turn the one into the other. -/
theorem isLeast_editDistance (a b : String) :
    IsLeast {n | Edits n a.toList b.toList} (editDistance a b) := by
  rw [editDistance_eq]
  exact ⟨edits_distance _ _, fun n h => Edits.distance_le h⟩

/-- Is a text the other one, or does a single edit turn it into the other one? -/
def IsNear (a b : String) : Prop := a = b ∨ Edit a.toList b.toList

theorem editDistance_lt_two_iff {a b : String} : editDistance a b < 2 ↔ IsNear a b := by
  obtain ⟨henough, hneeded⟩ := isLeast_editDistance a b
  constructor
  · intro hlt
    obtain hzero | hone : editDistance a b = 0 ∨ editDistance a b = 1 := by omega
    · rw [hzero] at henough
      exact .inl (String.toList_inj.mp (edits_zero.mp henough))
    · rw [hone] at henough
      exact .inr (edits_one.mp henough)
  · intro hnear
    have hle : editDistance a b ≤ 1 := by
      rcases hnear with rfl | hedit
      · exact (hneeded (edits_zero.mpr rfl)).trans (Nat.zero_le 1)
      · exact hneeded (edits_one.mpr hedit)
    exact Nat.lt_succ_of_le hle

end CurveGuess.EditDistance
