import CurveGuess.Proofs.Eval.Names
import CurveGuess.Proofs.Text.EditDistance

/-!
# Suggestions

For a name that cannot be called, the names are suggested that can and that are one edit away from
it at most, in alphabetical order. In which order the names that can be called are kept does not
show.
-/
namespace CurveGuess.Builtin

open EditDistance (IsNear)

variable {names : List String} (name : String)

theorem mem_similarAmong {n : String} :
    n ∈ similarAmong names name ↔ n ∈ names ∧ IsNear n name := by
  rw [similarAmong, List.mem_mergeSort, List.mem_filter, decide_eq_true_eq,
    EditDistance.editDistance_lt_two_iff]

theorem pairwise_le_similarAmong (names : List String) :
    (similarAmong names name).Pairwise (· ≤ ·) := by
  have hsorted := @List.pairwise_mergeSort String (fun a b => decide (a ≤ b))
    (fun a b c hab hbc => by
      simp only [decide_eq_true_eq] at hab hbc ⊢
      exact String.le_trans hab hbc)
    (fun a b => by
      simp only [Bool.or_eq_true, decide_eq_true_eq]
      exact String.le_total a b)
    (names.filter fun n => editDistance n name < 2)
  exact hsorted.imp of_decide_eq_true

/-- Names that occur once each are suggested in strictly increasing order. -/
theorem pairwise_similarAmong (h : names.Nodup) :
    (similarAmong names name).Pairwise (· < ·) := by
  have hnodup : (similarAmong names name).Nodup :=
    (List.mergeSort_perm _ _).nodup_iff.mpr (h.filter _)
  refine (pairwise_le_similarAmong name names).imp₂ (fun a b hle hne => ?_) hnodup
  exact String.not_le.mp fun hge => hne (String.le_antisymm hle hge)

/-- The order of the names does not matter. -/
theorem similarAmong_eq_of_perm {names' : List String} (h : names.Perm names') :
    similarAmong names name = similarAmong names' name := by
  refine List.Perm.eq_of_pairwise (fun a b _ _ => String.le_antisymm)
    (pairwise_le_similarAmong name names) (pairwise_le_similarAmong name names') ?_
  exact (List.mergeSort_perm _ _).trans ((h.filter _).trans (List.mergeSort_perm _ _).symm)

/-- The suggestions are the names that can be called and that a single edit, if any, turns into the
given one, in strictly increasing order, whatever order the names are kept in. -/
theorem similar_neighbours :
    (similar name).Pairwise (· < ·) ∧
    (∀ n, n ∈ similar name ↔ (lookup? n).isSome ∧ IsNear n name) ∧
    ∀ names : List String, names.Perm (table.map Prod.fst) →
      similarAmong names name = similar name := by
  refine ⟨pairwise_similarAmong name (by decide), fun n => ?_, fun names h => ?_⟩
  · rw [similar, mem_similarAmong, isSome_lookup?]
  · exact similarAmong_eq_of_perm name h

theorem similar_neighbours_lg :
    similarAmong ["abs", "exp", "sqrt", "log", "ln", "tan", "cos", "sin"] "lg" = similar "lg" ∧
    similar "lg" = ["ln", "log"] ∧ IsNear "log" "lg" ∧ ¬ IsNear "exp" "lg" := by
  obtain ⟨-, hmem, horder⟩ := similar_neighbours "lg"
  have hnear : (table.map Prod.fst).filter (fun n => editDistance n "lg" < 2) = ["ln", "log"] := by
    decide +kernel
  have hsimilar : similar "lg" = ["ln", "log"] := by
    rw [similar, similarAmong, hnear]
    simp [List.mergeSort]
  refine ⟨horder _ (by decide), hsimilar, ?_, fun hexp => ?_⟩
  · exact ((hmem "log").mp (by rw [hsimilar]; decide)).2
  · have hlisted := (hmem "exp").mpr ⟨by decide, hexp⟩
    rw [hsimilar] at hlisted
    exact absurd hlisted (by decide)

end CurveGuess.Builtin
