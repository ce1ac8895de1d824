import CurveGuess.Proofs.Readable.Shown

/-!
# Partners of braces

The partner of an opening brace is found by counting forward from it. Tokens in between that are no
braces only move it on. Where one group is not closed, none around it is. The count never has to go
below zero, whatever comes behind the brace.
-/
namespace CurveGuess.Spelling

/-- The place of the brace that closes the group which the token at a place opens. -/
def partner? (ts : List Token) (place : Nat) : Option Nat :=
  match ts.drop place with
  | [] => none
  | t :: rest =>
    if t.kind = .openBrace then (closingBrace? 0 rest).map (place + 1 + ·) else none

/-- How many tokens stand before the brace that closes a group, found with a counter of the groups
that are open, which is zero before the brace that opens the group. There is no answer if the
counter would have to go below zero. -/
def search? (counter : Nat) : List Token → Option (Option Nat)
  | [] => some none
  | t :: ts =>
    match t.kind, counter with
    | .closeBrace, 0 => none
    | .closeBrace, 1 => some (some 0)
    | .closeBrace, d + 2 => (search? (d + 1) ts).map (Option.map (· + 1))
    | .openBrace, d => (search? (d + 1) ts).map (Option.map (· + 1))
    | _, d => (search? d ts).map (Option.map (· + 1))

section
variable {t : Token} {ts us : List Token}

theorem closingBrace?_openBrace (ht : t.kind = .openBrace) (depth : Nat) (ts : List Token) :
    closingBrace? depth (t :: ts) = (closingBrace? (depth + 1) ts).map (· + 1) := by
  rw [closingBrace?_cons, if_neg (by simp [ht]), ht]
  rfl

theorem closingBrace?_closeBrace (ht : t.kind = .closeBrace) (ts : List Token) :
    closingBrace? 0 (t :: ts) = some 0 ∧
      ∀ depth, closingBrace? (depth + 1) (t :: ts) = (closingBrace? depth ts).map (· + 1) := by
  refine ⟨by rw [closingBrace?_cons, if_pos ⟨ht, rfl⟩], fun depth => ?_⟩
  rw [closingBrace?_cons, if_neg (by simp), ht]
  rfl

theorem closingBrace?_append (hus : ∀ t ∈ us, isBrace t.kind = false) (depth : Nat)
    (ts : List Token) :
    closingBrace? depth (us ++ ts) = (closingBrace? depth ts).map (us.length + ·) := by
  induction us with
  | nil => simp
  | cons t us ih =>
    obtain ⟨ht, hus⟩ := List.forall_mem_cons.mp hus
    have hclose : t.kind ≠ .closeBrace := by
      intro hk
      rw [hk] at ht
      cases ht
    rw [List.cons_append, closingBrace?_cons, if_neg fun h => hclose h.1,
      depthAfter_of_not_isBrace ht, ih hus, Option.map_map]
    congr 1
    funext n
    change us.length + n + 1 = us.length + 1 + n
    omega

/-- Where one group is not closed, those around it are not closed either. -/
theorem closingBrace?_eq_none {depth : Nat} (h : closingBrace? depth ts = none) (more : Nat) :
    closingBrace? (depth + more) ts = none := by
  induction ts generalizing depth with
  | nil => rfl
  | cons t ts ih =>
    rw [closingBrace?_cons] at h ⊢
    split at h
    · cases h
    · next hend =>
      have hdepth : depthAfter (depth + more) t.kind = depthAfter depth t.kind + more := by
        unfold depthAfter
        split
        · omega
        · next hk =>
          have : depth ≠ 0 := fun hzero => hend ⟨hk, hzero⟩
          omega
        · rfl
      rw [if_neg fun hboth => hend ⟨hboth.1, by omega⟩, hdepth,
        ih (Option.map_eq_none_iff.mp h), Option.map_none]

theorem exists_of_closingBrace? {depth n : Nat} (h : closingBrace? depth ts = some n) :
    ∃ u, ts[n]? = some u ∧ u.kind = .closeBrace := by
  induction ts generalizing depth n with
  | nil => cases h
  | cons t ts ih =>
    rw [closingBrace?_cons] at h
    split at h
    · next hend =>
      obtain rfl := Option.some.inj h
      exact ⟨t, rfl, hend.1⟩
    · obtain ⟨m, hm, rfl⟩ := Option.map_eq_some_iff.mp h
      exact ih hm

theorem search?_openBrace (ht : t.kind = .openBrace) (counter : Nat) (ts : List Token) :
    search? counter (t :: ts) = (search? (counter + 1) ts).map (Option.map (· + 1)) := by
  cases counter <;> simp [search?, ht]

theorem search?_succ (counter : Nat) (ts : List Token) :
    search? (counter + 1) ts = some (closingBrace? counter ts) := by
  induction ts generalizing counter with
  | nil => rfl
  | cons t ts ih =>
    rw [closingBrace?_cons]
    cases hk : t.kind <;> cases counter <;> simp [search?, depthAfter, hk, ih]

end

section
variable {all : List Token} {t : Token} {ts : List Token} {i j : Nat}

theorem partner?_of_drop (h : all.drop i = t :: ts) : partner? all i =
    if t.kind = .openBrace then (closingBrace? 0 ts).map (i + 1 + ·) else none := by
  rw [partner?, h]

theorem getElem?_of_drop (h : all.drop i = t :: ts) : all[i]? = some t := by
  rw [← List.head?_drop, h, List.head?_cons]

/-- Partners are an opening brace and a closing brace behind it. -/
theorem partner?_eq_some (h : partner? all i = some j) :
    i < j ∧ (∃ t, all[i]? = some t ∧ t.kind = .openBrace) ∧
      ∃ u, all[j]? = some u ∧ u.kind = .closeBrace := by
  cases hdrop : all.drop i with
  | nil =>
    rw [partner?, hdrop] at h
    cases h
  | cons t ts =>
    rw [partner?_of_drop hdrop] at h
    split at h
    · next ht =>
      obtain ⟨n, hn, rfl⟩ := Option.map_eq_some_iff.mp h
      obtain ⟨u, hu, hkind⟩ := exists_of_closingBrace? hn
      have htail : ts = all.drop (i + 1) := by rw [← List.tail_drop, hdrop, List.tail_cons]
      rw [htail, List.getElem?_drop] at hu
      exact ⟨by omega, ⟨t, getElem?_of_drop hdrop, ht⟩, u, hu, hkind⟩
    · cases h

/-- From an opening brace on, the counter never goes below zero. -/
theorem search?_of_openBrace (h : all[i]? = some t) (ht : t.kind = .openBrace) :
    (search? 0 (all.drop i)).map (Option.map (i + ·)) = some (partner? all i) := by
  have hdrop : all.drop i = t :: all.drop (i + 1) := by
    obtain ⟨hi, rfl⟩ := List.getElem?_eq_some_iff.mp h
    exact List.drop_eq_getElem_cons hi
  rw [partner?_of_drop hdrop, if_pos ht, hdrop, search?_openBrace ht]
  simp only [search?_succ, Option.map_some, Option.map_map]
  congr 2
  funext n
  change i + (n + 1) = i + 1 + n
  omega

end

end CurveGuess.Spelling
