import CurveGuess.Proofs.Random.Draws
import Mathlib.Data.List.Permutation
import Mathlib.Data.Set.Card
import Mathlib.Data.Set.Function

/-!
# Shuffles

A shuffle exchanges the items from the last place down, each with one that is not behind it. The
exchanges after the first leave the last item where it is, so that the last item of a shuffled list
tells which place was drawn first. By induction on the number of items, the places drawn and the
orders of the items determine each other, and every order is as likely as the places that lead to it.
-/
namespace CurveGuess.Draw

/-- Is every place at or before the item that it is drawn for? The last place is for the second
item. -/
def IsPlaces : List Nat → Prop
  | [] => True
  | j :: js => j ≤ js.length + 1 ∧ IsPlaces js

/-- What may be drawn to shuffle `n` items: a place for each item but the first. -/
def choices (n : Nat) : Set (List Nat) := {js | js.length = n - 1 ∧ IsPlaces js}

section
variable {α : Type} {items : List α} {i j : Nat}

theorem swap_eq (hi : i < items.length) (hj : j < items.length) :
    swap items i j = (items.set i items[j]).set j items[i] := by
  rw [swap, List.getElem?_eq_getElem hi, List.getElem?_eq_getElem hj]

theorem swap_perm (items : List α) (i j : Nat) : (swap items i j).Perm items := by
  by_cases hi : i < items.length
  · by_cases hj : j < items.length
    · rw [swap_eq hi hj]
      exact List.set_set_perm hi hj
    · rw [swap, List.getElem?_eq_none (Nat.le_of_not_lt hj)]
      cases items[i]? <;> exact .refl _
  · rw [swap, List.getElem?_eq_none (Nat.le_of_not_lt hi)]

theorem length_swap (items : List α) (i j : Nat) : (swap items i j).length = items.length :=
  (swap_perm items i j).length_eq

theorem arrange_perm (items : List α) (js : List Nat) : (arrange items js).Perm items := by
  induction js generalizing items with
  | nil => exact .refl _
  | cons j js ih => exact (ih _).trans (swap_perm ..)

theorem swap_concat (a : α) (hi : i < items.length) (hj : j < items.length) :
    swap (items ++ [a]) i j = swap items i j ++ [a] := by
  rw [swap_eq hi hj, swap_eq (by simp; omega) (by simp; omega)]
  simp [hi, hj]

/-- An item behind all places stays where it is. -/
theorem arrange_concat {js : List Nat} (hjs : IsPlaces js) (h : js.length < items.length) (a : α) :
    arrange (items ++ [a]) js = arrange items js ++ [a] := by
  induction js generalizing items with
  | nil => rfl
  | cons j js ih =>
    obtain ⟨hj, hjs⟩ := hjs
    rw [List.length_cons] at h
    rw [arrange, swap_concat a h (by omega), ih hjs (by rw [length_swap]; omega), arrange]

theorem getElem?_swap (hi : i < items.length) (hj : j < items.length) :
    (swap items i j)[i]? = some items[j] := by
  rw [swap_eq hi hj, List.getElem?_set]
  by_cases h : j = i
  · simp [h, hi]
  · simp [h, hi]

/-- The items without the one at place `j`, which the last item has taken. -/
def without (items : List α) (j : Nat) : List α := (swap items (items.length - 1) j).dropLast

theorem getLast?_swap (hj : j < items.length) :
    items[j] ∈ (swap items (items.length - 1) j).getLast? := by
  rw [List.getLast?_eq_getElem?, length_swap]
  exact getElem?_swap (by omega) hj

theorem without_perm (hj : j < items.length) : (without items j ++ [items[j]]).Perm items := by
  rw [without, List.dropLast_append_getLast? _ (getLast?_swap hj)]
  exact swap_perm ..

theorem length_without (items : List α) (j : Nat) :
    (without items j).length = items.length - 1 := by
  rw [without, List.length_dropLast, length_swap]

/-- The first exchange brings an item to the end, and the others leave it there. -/
theorem arrange_cons {js : List Nat} (hjs : IsPlaces js) (hlength : items.length = js.length + 2)
    (hj : j < items.length) :
    arrange items (j :: js) = arrange (without items j) js ++ [items[j]] := by
  have hfirst : swap items (js.length + 1) j = without items j ++ [items[j]] := by
    rw [without, List.dropLast_append_getLast? _ (getLast?_swap hj), hlength]
    rfl
  rw [arrange, hfirst, arrange_concat hjs (by rw [length_without]; omega)]

theorem mem_choices_succ {n : Nat} {js : List Nat} : js ∈ choices (n + 2) ↔
    ∃ j ks, js = j :: ks ∧ j < n + 2 ∧ ks.length = n ∧ IsPlaces ks := by
  constructor
  · rintro ⟨hlength, hjs⟩
    cases js with
    | nil => simp at hlength
    | cons j ks =>
      obtain ⟨hj, hks⟩ := hjs
      rw [List.length_cons] at hlength
      exact ⟨j, ks, rfl, by omega, by omega, hks⟩
  · rintro ⟨j, ks, rfl, hj, hlength, hks⟩
    exact ⟨by simp [hlength], by omega, hks⟩

theorem mem_choices_one {js : List Nat} : js ∈ choices 1 ↔ js = [] := by
  constructor
  · exact fun h => List.eq_nil_of_length_eq_zero h.1
  · rintro rfl
    exact ⟨rfl, trivial⟩

/-- Different choices lead to different orders: the last item tells the first place. -/
theorem injOn_arrange {n : Nat} (hlength : items.length = n + 1) (hnodup : items.Nodup) :
    Set.InjOn (arrange items) (choices (n + 1)) := by
  induction n generalizing items with
  | zero =>
    intro js hjs ks hks _
    rw [mem_choices_one.mp hjs, mem_choices_one.mp hks]
  | succ n ih =>
    intro js hjs ks hks heq
    obtain ⟨j, js, rfl, hj, hjslength, hjs'⟩ := mem_choices_succ.mp hjs
    obtain ⟨k, ks, rfl, hk, hkslength, hks'⟩ := mem_choices_succ.mp hks
    have hj' : j < items.length := by omega
    have hk' : k < items.length := by omega
    rw [arrange_cons hjs' (by omega) hj', arrange_cons hks' (by omega) hk'] at heq
    obtain ⟨hrest, hitem⟩ := List.append_singleton_inj.mp heq
    -- different items stand at different places, so that the item at the end tells its place
    obtain rfl : j = k := hnodup.getElem_inj_iff.mp hitem
    have hnodup' : (without items j).Nodup :=
      ((without_perm hj').nodup_iff.mpr hnodup).of_append_left
    have hlength' : (without items j).length = n + 1 := by
      rw [length_without]
      omega
    rw [ih hlength' hnodup' ⟨hjslength, hjs'⟩ ⟨hkslength, hks'⟩ hrest]

/-- Every order is reached: its last item tells the first place, and the order of the others tells
the places after it. -/
theorem surjOn_arrange {n : Nat} (hlength : items.length = n + 1) :
    Set.SurjOn (arrange items) (choices (n + 1)) {xs | xs.Perm items} := by
  induction n generalizing items with
  | zero =>
    intro xs hxs
    obtain ⟨a, rfl⟩ := List.length_eq_one_iff.mp hlength
    exact ⟨[], mem_choices_one.mpr rfl, (List.perm_singleton.mp hxs).symm⟩
  | succ n ih =>
    intro xs hxs
    have hperm : xs.Perm items := hxs
    have hne : xs ≠ [] := by
      rintro rfl
      simp [hperm.symm.eq_nil] at hlength
    obtain ⟨ys, a, rfl⟩ := xs.eq_nil_or_concat'.resolve_left hne
    -- the place of the last item is drawn first; the others are in some order of what is left
    obtain ⟨j, hj, rfl⟩ := List.mem_iff_getElem.mp (hperm.subset (by simp : a ∈ ys ++ [a]))
    have hys : ys.Perm (without items j) :=
      (List.perm_append_right_iff _).mp (hperm.trans (without_perm hj).symm)
    have hlength' : (without items j).length = n + 1 := by
      rw [length_without]
      omega
    obtain ⟨js, ⟨hjslength, hjs⟩, harrange⟩ := ih hlength' hys
    refine ⟨j :: js, mem_choices_succ.mpr ⟨j, js, rfl, by omega, hjslength, hjs⟩, ?_⟩
    have hjslength : js.length = n := hjslength
    rw [arrange_cons hjs (by omega) hj, harrange]

/-- The choices and the orders of different items correspond to each other. -/
theorem bijOn_arrange (hnodup : items.Nodup) :
    Set.BijOn (arrange items) (choices items.length) {xs | xs.Perm items} := by
  refine ⟨fun js _ => arrange_perm items js, ?_⟩
  cases hlength : items.length with
  | zero =>
    obtain rfl := List.eq_nil_of_length_eq_zero hlength
    have hnil {js : List Nat} (hjs : js ∈ choices 0) : js = [] :=
      List.eq_nil_of_length_eq_zero hjs.1
    refine ⟨fun js hjs ks hks _ => by rw [hnil hjs, hnil hks], fun xs hxs => ?_⟩
    exact ⟨[], ⟨rfl, trivial⟩, (List.perm_nil.mp hxs).symm⟩
  | succ n => exact ⟨injOn_arrange hlength hnodup, surjOn_arrange hlength⟩

/-- There are as many orders of different items as the factorial of their number. -/
theorem ncard_perm (hnodup : items.Nodup) :
    {xs : List α | xs.Perm items}.ncard = items.length.factorial := by
  classical
  have horders : {xs : List α | xs.Perm items} = (items.permutations.toFinset : Set (List α)) := by
    ext xs
    simp
  rw [horders, Set.ncard_coe_finset, List.toFinset_card_of_nodup (List.nodup_permutations _ hnodup),
    List.length_permutations]

end

/-- The places that a stream gives to shuffle `n` items. The number after `i` others is for a place
among the first `n - i`. -/
def drawn (R : Type) [Arithmetic R] (n : Nat) (s : Stream) : List Nat :=
  (List.range (n - 1)).map fun i => ((index R (n - i)).run (s.after i)).1

theorem drawn_succ (R : Type) [Arithmetic R] (n : Nat) (s : Stream) :
    drawn R (n + 2) s = ((index R (n + 2)).run s).1 :: drawn R (n + 1) s.next := by
  have hshift (i : Nat) : n + 2 - (i + 1) = n + 1 - i := by omega
  rw [drawn, drawn, Nat.add_one_sub_one, Nat.add_one_sub_one, List.range_succ_eq_map,
    List.map_cons, List.map_map]
  refine congrArg₂ _ ?_ (List.map_congr_left fun i _ => ?_)
  · rw [Stream.after, Nat.sub_zero]
  · rw [Function.comp_apply, hshift, Stream.after]

theorem run_places (R : Type) [Arithmetic R] (n : Nat) (s : Stream) :
    (places R n).run s = (drawn R (n + 1) s, s.after n) := by
  induction n generalizing s with
  | zero => rfl
  | succ n ih =>
    rw [drawn_succ, places, StateT.run_bind]
    change (((index R (n + 2)).run s).1 :: ((places R n).run s.next).1,
      ((places R n).run s.next).2) = _
    rw [ih, Stream.after]

theorem run_shuffle (R : Type) [Arithmetic R] {α : Type} (items : List α) (s : Stream) :
    (shuffle R items).run s =
      (arrange items (drawn R items.length s), s.after (items.length - 1)) := by
  cases items with
  | nil => rfl
  | cons a items =>
    rw [shuffle, StateT.run_bind, run_places]
    rfl

theorem gives_shuffle (R : Type) [Arithmetic R] {α : Type} (items : List α) :
    Gives (shuffle R items) (·.Perm items) := by
  intro s
  rw [run_shuffle]
  exact arrange_perm ..

theorem gives_places (n : Nat) : Gives (places Float n) (· ∈ choices (n + 1)) := by
  induction n with
  | zero => exact gives_pure (mem_choices_one.mpr rfl)
  | succ n ih =>
    refine (gives_index (by omega)).bind fun j hj => ?_
    refine ih.bind fun js hjs => ?_
    obtain ⟨hlength, hplaces⟩ := hjs
    exact gives_pure (mem_choices_succ.mpr ⟨j, js, rfl, hj, hlength, hplaces⟩)

theorem drawn_mem_choices (n : Nat) (s : Stream) : drawn Float n s ∈ choices n := by
  cases n with
  | zero => exact ⟨rfl, trivial⟩
  | succ n =>
    have h := gives_places n s
    rwa [run_places] at h

/-- Shuffles are not biased. For different items, the places that may be drawn correspond one to
one to all orders of the items; for any items, none is lost and none comes twice. A shuffle of a
stream draws one of these choices of places, with a number less than there are items. -/
theorem shuffle_unbiased {α : Type} (items : List α) :
    (items.Nodup → Set.BijOn (arrange items) (choices items.length) {xs | xs.Perm items} ∧
      {xs : List α | xs.Perm items}.ncard = items.length.factorial) ∧
    (∀ js, (arrange items js).Perm items) ∧
    ∀ s : Stream, drawn Float items.length s ∈ choices items.length ∧
      (shuffle Float items).run s =
        (arrange items (drawn Float items.length s), s.after (items.length - 1)) :=
  ⟨fun hnodup => ⟨bijOn_arrange hnodup, ncard_perm hnodup⟩, arrange_perm items,
    fun s => ⟨drawn_mem_choices _ s, run_shuffle Float items s⟩⟩

theorem shuffle_unbiased_three : ['a', 'b', 'c'].Nodup ∧
    Set.BijOn (arrange ['a', 'b', 'c']) (choices 3) {xs | xs.Perm ['a', 'b', 'c']} ∧
    {xs : List Char | xs.Perm ['a', 'b', 'c']}.ncard = 6 :=
  ⟨by decide, (shuffle_unbiased ['a', 'b', 'c']).1 (by decide)⟩

end CurveGuess.Draw
