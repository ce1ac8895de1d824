import CurveGuess.Share.Link
import Mathlib.Data.List.TakeWhile

/-!
# The query of a link

A link with a query is some text, a question mark and items with ampersands between them, and
perhaps a fragment behind a hash. An item is a word, or a key, an equals sign and a value. A
separator counts only where it is the first that can: a value may have question marks and equals
signs in it, and a fragment whatever it likes. The token of a link is the value of the first item
with the right key.
-/
namespace CurveGuess.Share

theorem query?_append {before rest : List Char} (h : '?' ∉ before) :
    query? (before ++ '?' :: rest) = some (rest.takeWhile (· ≠ '#')) := by
  have hbefore : ∀ c ∈ before, decide (c ≠ '?') = true := fun c hc =>
    decide_eq_true (ne_of_mem_of_not_mem hc h)
  rw [query?, List.dropWhile_append_of_pos hbefore]
  rfl

theorem query?_eq_none {link : List Char} (h : '?' ∉ link) : query? link = none := by
  have hlink : link.dropWhile (· ≠ '?') = [] :=
    List.dropWhile_eq_nil_iff.2 fun c hc => decide_eq_true (ne_of_mem_of_not_mem hc h)
  rw [query?, hlink]

theorem pieces_eq_splitOn (separator : Char) (cs : List Char) :
    pieces separator cs = cs.splitOn separator := by
  induction cs with
  | nil => rfl
  | cons c cs ih =>
    obtain ⟨p, ps, hsplit⟩ := List.exists_cons_of_ne_nil (List.splitOn_ne_nil separator cs)
    rw [pieces, ih, List.splitOn_cons_eq_if_modifyHead, hsplit]
    simp [beq_iff_eq]

theorem valueOf?_append {own value : List Char} (h : '=' ∉ own) (key : List Char) :
    valueOf? key (own ++ '=' :: value) = if own = key then some value else none := by
  have hown : ∀ c ∈ own, decide (c ≠ '=') = true := fun c hc =>
    decide_eq_true (ne_of_mem_of_not_mem hc h)
  rw [valueOf?, List.dropWhile_append_of_pos hown, List.takeWhile_append_of_pos hown]
  simp

theorem valueOf?_eq_none {item : List Char} (h : '=' ∉ item) (key : List Char) :
    valueOf? key item = none := by
  have hitem : item.dropWhile (· ≠ '=') = [] :=
    List.dropWhile_eq_nil_iff.2 fun c hc => decide_eq_true (ne_of_mem_of_not_mem hc h)
  rw [valueOf?, hitem]

/-- An item of a query: a word, or a key with a value. -/
inductive Item where
  | word (text : String) (htext : ∀ c ∈ ['=', '&', '#'], c ∉ text.toList)
  | pair (key value : String) (hkey : ∀ c ∈ ['=', '&', '#'], c ∉ key.toList)
      (hvalue : ∀ c ∈ ['&', '#'], c ∉ value.toList)

namespace Item

def text : Item → String
  | word text _ => text
  | pair key value _ _ => key ++ "=" ++ value

/-- The value of an item with the given key. -/
def value? (key : String) : Item → Option String
  | word _ _ => none
  | pair own value _ _ => if own = key then some value else none

theorem not_mem_text (i : Item) {c : Char} (hc : c ∈ ['&', '#']) : c ∉ i.text.toList := by
  cases i with
  | word text htext => exact htext c (List.mem_cons_of_mem _ hc)
  | pair key value hkey hvalue =>
    have heq : c ≠ '=' := by
      rintro rfl
      exact absurd hc (by decide)
    simp only [text, String.toList_append, List.mem_append, not_or]
    exact ⟨⟨hkey c (List.mem_cons_of_mem _ hc), by simpa using heq⟩, hvalue c hc⟩

theorem valueOf?_text (key : String) (i : Item) :
    valueOf? key.toList i.text.toList = (i.value? key).map String.toList := by
  cases i with
  | word text htext => exact valueOf?_eq_none (htext '=' List.mem_cons_self) _
  | pair own value hown hvalue =>
    have htext : (pair own value hown hvalue).text.toList = own.toList ++ '=' :: value.toList := by
      simp [text]
    rw [htext, valueOf?_append (hown '=' List.mem_cons_self), value?]
    simp only [String.toList_inj]
    split <;> rfl

/-- Whatever stands between ampersands and before a fragment is an item. -/
theorem exists_text {cs : List Char} (h : ∀ c ∈ ['&', '#'], c ∉ cs) :
    ∃ i : Item, i.text.toList = cs := by
  by_cases heq : '=' ∈ cs
  · obtain ⟨key, value, rfl, hkey⟩ := List.eq_append_cons_of_mem heq
    have hparts : ∀ c ∈ ['&', '#'], c ∉ key ∧ c ∉ value := fun c hc =>
      ⟨fun hmem => h c hc (by simp [hmem]), fun hmem => h c hc (by simp [hmem])⟩
    refine ⟨.pair (String.ofList key) (String.ofList value) ?_ ?_, by simp [text]⟩
    · rw [String.toList_ofList]
      exact List.forall_mem_cons.mpr ⟨hkey, fun c hc => (hparts c hc).1⟩
    · rw [String.toList_ofList]
      exact fun c hc => (hparts c hc).2
  · refine ⟨.word (String.ofList cs) ?_, String.toList_ofList⟩
    rw [String.toList_ofList]
    exact List.forall_mem_cons.mpr ⟨heq, h⟩

/-- The items with ampersands between them. -/
def join (items : List Item) : List Char := ['&'].intercalate (items.map (·.text.toList))

theorem join_singleton (i : Item) : join [i] = i.text.toList := List.intercalate_singleton

theorem join_cons_cons (i j : Item) (items : List Item) :
    join (i :: j :: items) = i.text.toList ++ '&' :: join (j :: items) := by
  rw [join, List.map_cons, List.map_cons, List.intercalate_cons_cons, List.append_assoc]
  rfl

theorem not_mem_join (items : List Item) : '#' ∉ join items := by
  induction items with
  | nil => exact List.not_mem_nil
  | cons i items ih =>
    have hi : '#' ∉ i.text.toList := i.not_mem_text (by decide)
    cases items with
    | nil => rwa [join_singleton]
    | cons j items =>
      rw [join_cons_cons]
      simp [hi, ih]

/-- Without items there is still an empty piece, in which nothing is found. -/
theorem findSome?_pieces_join (key : String) (items : List Item) :
    (pieces '&' (join items)).findSome? (valueOf? key.toList) =
      (items.findSome? (value? key)).map String.toList := by
  cases items with
  | nil => rfl
  | cons i items =>
    have hclean : ∀ p ∈ (i :: items).map (·.text.toList), '&' ∉ p := by
      intro p hp
      obtain ⟨j, -, rfl⟩ := List.mem_map.mp hp
      exact j.not_mem_text List.mem_cons_self
    have hvalue : valueOf? key.toList ∘ (fun j : Item => j.text.toList) =
        Option.map String.toList ∘ value? key := funext (valueOf?_text key)
    rw [pieces_eq_splitOn, join, List.splitOn_intercalate '&' hclean (List.cons_ne_nil _ _),
      List.findSome?_map, hvalue, List.map_findSome?]

/-- Whatever stands before a fragment is made of items. -/
theorem exists_join {cs : List Char} (h : '#' ∉ cs) : ∃ i items, join (i :: items) = cs := by
  induction hn : cs.length using Nat.strong_induction_on generalizing cs with
  | _ n ih =>
    by_cases hamp : '&' ∈ cs
    · obtain ⟨p, rest, rfl, hp⟩ := List.eq_append_cons_of_mem hamp
      simp only [List.mem_append, List.mem_cons, not_or] at h
      simp only [List.length_append, List.length_cons] at hn
      obtain ⟨i, hi⟩ := @exists_text p (by simp [hp, h.1])
      obtain ⟨j, items, hrest⟩ := ih rest.length (by omega) h.2.2 rfl
      exact ⟨i, j :: items, by rw [join_cons_cons, hi, hrest]⟩
    · obtain ⟨i, hi⟩ := @exists_text cs (by simp [hamp, h])
      exact ⟨i, [], by rw [join_singleton, hi]⟩

end Item

/-- A link with a query. -/
structure Address where
  before : String
  items : List Item
  fragment : Option String
  not_mem_before : '?' ∉ before.toList

namespace Address

def text (a : Address) : String :=
  a.before ++ "?" ++ "&".intercalate (a.items.map Item.text) ++ a.fragment.elim "" ("#" ++ ·)

theorem toList_text (a : Address) :
    a.text.toList =
      a.before.toList ++ '?' :: (Item.join a.items ++ a.fragment.elim [] ('#' :: ·.toList)) := by
  obtain ⟨before, items, fragment, h⟩ := a
  cases fragment <;> simp [text, Item.join, String.toList_intercalate, Function.comp_def]

theorem query?_text (a : Address) : query? a.text.toList = some (Item.join a.items) := by
  have hjoin : ∀ c ∈ Item.join a.items, decide (c ≠ '#') = true := fun c hc =>
    decide_eq_true (ne_of_mem_of_not_mem hc (Item.not_mem_join a.items))
  have hfragment : (a.fragment.elim [] ('#' :: ·.toList)).takeWhile (· ≠ '#') = [] := by
    cases a.fragment <;> rfl
  rw [toList_text, query?_append a.not_mem_before, List.takeWhile_append_of_pos hjoin, hfragment,
    List.append_nil]

/-- The token is the value of the first item that has its key. -/
theorem token?_text (a : Address) : token? a.text = a.items.findSome? (Item.value? parameter) := by
  rw [token?, query?_text, Option.bind_some, Item.findSome?_pieces_join, Option.map_map]
  simp [Function.comp_def]

/-- Every link with a question mark is one with a query. -/
theorem exists_text {link : String} (h : '?' ∈ link.toList) : ∃ a : Address, a.text = link := by
  obtain ⟨before, rest, hlink, hbefore⟩ := List.eq_append_cons_of_mem h
  have hrest : ∃ (i : Item) (items : List Item) (fragment : Option String),
      Item.join (i :: items) ++ fragment.elim [] ('#' :: ·.toList) = rest := by
    by_cases hhash : '#' ∈ rest
    · obtain ⟨query, fragment, rfl, hquery⟩ := List.eq_append_cons_of_mem hhash
      obtain ⟨i, items, hitems⟩ := Item.exists_join hquery
      exact ⟨i, items, some (String.ofList fragment), by simp [hitems]⟩
    · obtain ⟨i, items, hitems⟩ := Item.exists_join hhash
      exact ⟨i, items, none, by simp [hitems]⟩
  obtain ⟨i, items, fragment, hrest⟩ := hrest
  refine ⟨⟨String.ofList before, i :: items, fragment, by rwa [String.toList_ofList]⟩, ?_⟩
  rw [← String.toList_inj, toList_text, hlink]
  dsimp only
  rw [String.toList_ofList, hrest]

end Address

/-- Every link with a question mark is one with a query, and its token is the value of the first
item that has the key `f`. A link without a question mark has none, and shares nothing. -/
theorem token?_first_item :
    (∀ a : Address, token? a.text = a.items.findSome? (Item.value? "f")) ∧
    (∀ link : String, '?' ∈ link.toList → ∃ a : Address, a.text = link) ∧
    ∀ link : String, '?' ∉ link.toList →
      token? link = none ∧ target link = .error ⟨.missing, link⟩ := by
  refine ⟨Address.token?_text, fun link h => Address.exists_text h, fun link h => ?_⟩
  have hnone : token? link = none := by
    rw [token?, query?_eq_none h]
    rfl
  exact ⟨hnone, by rw [target, hnone]⟩

theorem token?_first_item_amid :
    token? "https://a.b/?f&mode=f=x?&f=M3g=&f=no#f=?&f=1" = some "M3g=" ∧
    (∃ a : Address, a.text = "https://a.b/?f&mode=f=x?&f=M3g=&f=no#f=?&f=1") ∧
    token? "https://a.b/" = none ∧ target "https://a.b/" = .error ⟨.missing, "https://a.b/"⟩ := by
  obtain ⟨hfirst, hevery, hnone⟩ := token?_first_item
  have htoken := hfirst ⟨"https://a.b/", [.word "f" (by simp),
    .pair "mode" "f=x?" (by simp) (by simp), .pair "f" "M3g=" (by simp) (by simp),
    .pair "f" "no" (by simp) (by simp)], some "f=?&f=1", by decide +kernel⟩
  exact ⟨htoken, hevery _ (by decide +kernel), hnone _ (by decide +kernel)⟩

end CurveGuess.Share
