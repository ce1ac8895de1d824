import CurveGuess.Proofs.Readable.Partners
import Mathlib.Logic.Function.Iterate

/-!
# Braces of the readable spelling

Two things are known of the braces while a readable text is written. Whether a brace has a partner
is found out by counting forward from it; which group a closing brace ends is kept on a stack, on
which braces without a partner never come. For any text, balanced or not, the two agree: the groups
on the stack are those whose braces stand on both sides, the innermost first.
-/
namespace CurveGuess.Spelling

/-- Writes one more token after what is written, with the groups that were left open. -/
def ReadableStep.next (s : ReadableStep) : ReadableStep :=
  match s.rest with
  | [] => s
  | t :: ts =>
    let step := readableStep s.groups t ts
    ⟨s.text ++ step.text, step.groups, step.rest⟩

/-- A brace group that is open, with the place of the brace that opened it. -/
structure OpenGroup where
  place : Nat
  group : ReadableGroup

/-- What is done for a token. A brace that closes comes with the group that it ends, if one is
open. -/
inductive Act where
  | writes (text : List Char)
  | opens (g : OpenGroup)
  | drops
  | closes (g : Option OpenGroup)

/-- What is written for a token. -/
def Act.text : Act → List Char
  | writes text => text
  | opens g => if g.group = .paren then ['('] else []
  | drops => []
  | closes g => if g.map OpenGroup.group = some .paren then [')'] else []

/-- A readable text in the making: what was done for the tokens so far, one after the other, the
groups that are open, the innermost first, and the tokens that are left. -/
structure Draft where
  acts : List Act
  groups : List OpenGroup
  rest : List Token

namespace Draft

@[simps]
def start (ts : List Token) : Draft := ⟨[], [], ts⟩

/-- Writes a text for the next token. -/
@[simps]
def write (d : Draft) (text : List Char) : Draft :=
  ⟨d.acts ++ [.writes text], d.groups, d.rest.tail⟩

/-- Writes nothing for white space. -/
@[simps]
def skip (d : Draft) : Draft :=
  ⟨d.acts ++ (d.rest.takeWhile Token.isSpace).map fun _ => .writes [], d.groups,
    skipSpace d.rest⟩

/-- Opens a group for the brace that comes next. -/
@[simps]
def enter (d : Draft) (group : ReadableGroup) : Draft :=
  ⟨d.acts ++ [.opens ⟨d.acts.length, group⟩], ⟨d.acts.length, group⟩ :: d.groups, d.rest.tail⟩

/-- Leaves out the brace that comes next. -/
@[simps]
def drop (d : Draft) : Draft := ⟨d.acts ++ [.drops], d.groups, d.rest.tail⟩

/-- Closes the innermost group for the brace that comes next. -/
@[simps]
def leave (d : Draft) : Draft :=
  ⟨d.acts ++ [.closes d.groups.head?], d.groups.tail, d.rest.tail⟩

/-- Does what the next token asks for. The brace after a square root is opened together with it. -/
def step (d : Draft) : Draft :=
  match d.rest with
  | [] => d
  | t :: ts =>
    match t.kind with
    | .command =>
      if t.bareName = "sqrt" ∧ opensGroup ts then
        ((d.write ['s', 'q', 'r', 't']).skip).enter .paren
      else d.write (if t.bareName = "ln" then "log" else t.bareName).toList
    | .cdot => d.write ['*']
    | .openBrace =>
      match closingBrace? 0 ts with
      | none => d.drop
      | some n =>
        d.enter (if ((ts.take n).filter (!·.isSpace)).length = 1 then .flat else .paren)
    | .closeBrace => d.leave
    | _ => d.write t.lexeme.toList

/-- The finished draft of the readable spelling of a text. Every step is for one token at least. -/
def of (source : String) : Draft := step^[(tokens source).length] (start (tokens source))

/-- What is written so far. -/
def text (d : Draft) : List Char := d.acts.flatMap Act.text

/-- What is written for the token at a place. -/
def textAt (d : Draft) (place : Nat) : List Char := (d.acts[place]?.map Act.text).getD []

/-- The groups that are open, without their places. -/
def kinds (d : Draft) : List ReadableGroup := d.groups.map OpenGroup.group

/-- The draft without the places of its groups, which is all that the readable spelling keeps. -/
def plain (d : Draft) : ReadableStep := ⟨d.text, d.kinds, d.rest⟩

/-- What is written and what is still to be written. -/
def whole (d : Draft) : List Char := d.text ++ readableFrom d.kinds d.rest

/-- What a step is for the tokens `t :: ts`, and what is written for the token `t`, whichever groups
are open. -/
inductive Moves (d : Draft) (t : Token) (ts : List Token) : Draft → Prop
  | write (text : List Char) (quiet : isBrace t.kind = false)
      (written : ∀ groups, readableStep groups t ts = ⟨text, groups, ts⟩) :
      Moves d t ts (d.write text)
  | root (quiet : isBrace t.kind = false) (opens : opensGroup ts = true)
      (written : ∀ groups, readableStep groups t ts =
        ⟨['s', 'q', 'r', 't', '('], .paren :: groups, (skipSpace ts).tail⟩) :
      Moves d t ts (((d.write ['s', 'q', 'r', 't']).skip).enter .paren)
  | drop (opening : t.kind = .openBrace) (unclosed : closingBrace? 0 ts = none)
      (written : ∀ groups, readableStep groups t ts = ⟨[], groups, ts⟩) :
      Moves d t ts d.drop
  | enter (group : ReadableGroup) (n : Nat) (opening : t.kind = .openBrace)
      (closed : closingBrace? 0 ts = some n)
      (written : ∀ groups, readableStep groups t ts =
        ⟨if group = .paren then ['('] else [], group :: groups, ts⟩) :
      Moves d t ts (d.enter group)
  | leave (closing : t.kind = .closeBrace)
      (written : ∀ groups, readableStep groups t ts =
        ⟨if groups.head? = some .paren then [')'] else [], groups.tail, ts⟩) :
      Moves d t ts d.leave

section
variable {d : Draft} {t : Token} {ts : List Token}

theorem moves_step (h : d.rest = t :: ts) : Moves d t ts d.step := by
  rw [step, h]
  dsimp only
  split
  · next hk =>
    have hquiet : isBrace t.kind = false := by rw [hk]; rfl
    split
    · next hroot =>
      exact .root hquiet hroot.2 fun groups => by rw [readableStep, hk]; exact if_pos hroot
    · next hroot =>
      exact .write _ hquiet fun groups => by rw [readableStep, hk]; exact if_neg hroot
  · next hk =>
    exact .write _ (by rw [hk]; rfl) fun groups => by rw [readableStep, hk]
  · next hk =>
    split
    · next hnone =>
      exact .drop hk hnone fun groups => by rw [readableStep, hk, hnone]
    · next n hclose =>
      refine .enter _ n hk hclose fun groups => ?_
      rw [readableStep, hk, hclose]
      dsimp only
      split <;> rfl
  · next hk =>
    exact .leave hk fun groups => by rw [readableStep, hk]
  · next hcommand hcdot hopen hclose =>
    refine .write _ ?_ fun groups => ?_
    · rw [isBrace, Bool.or_eq_false_iff, decide_eq_false_iff_not, decide_eq_false_iff_not]
      exact ⟨hopen, hclose⟩
    · rw [readableStep]
      split
      exacts [absurd ‹_› hcommand, absurd ‹_› hcdot, absurd ‹_› hopen, absurd ‹_› hclose, rfl]

/-- A group that is opened together with a square root has a brace of its own. -/
theorem exists_of_opensGroup (h : opensGroup ts = true) : ∃ u after n,
    skipSpace ts = u :: after ∧ u.kind = .openBrace ∧ closingBrace? 0 after = some n := by
  rw [opensGroup, Bool.and_eq_true, Option.isSome_iff_exists] at h
  obtain ⟨hcomes, n, hn⟩ := h
  obtain ⟨spaces, u, after, rfl, hspaces, hu⟩ := (comes_iff (by decide)).mp hcomes
  rw [skipSpace_append hspaces (by simp [hu])] at hn ⊢
  exact ⟨u, after, n, rfl, hu, hn⟩

@[simp] theorem text_write (d : Draft) (text : List Char) :
    (d.write text).text = d.text ++ text := by
  simp [Draft.text, Act.text]

@[simp] theorem text_skip (d : Draft) : d.skip.text = d.text := by
  have hblank : ∀ us : List Token, (us.map fun _ => Act.writes []).flatMap Act.text = [] := by
    intro us
    rw [List.flatMap_map]
    exact List.flatMap_eq_nil_iff.mpr fun _ _ => rfl
  rw [Draft.text, skip_acts, List.flatMap_append, hblank, List.append_nil, Draft.text]

@[simp] theorem text_enter (d : Draft) (group : ReadableGroup) :
    (d.enter group).text = d.text ++ if group = .paren then ['('] else [] := by
  simp [Draft.text, Act.text]

@[simp] theorem text_drop (d : Draft) : d.drop.text = d.text := by
  simp [Draft.text, Act.text]

@[simp] theorem text_leave (d : Draft) : d.leave.text =
    d.text ++ if (d.groups.map OpenGroup.group).head? = some .paren then [')'] else [] := by
  simp [Draft.text, Act.text, List.head?_map]

theorem plain_step_of_rest (h : d.rest = t :: ts) : d.step.plain =
    ⟨d.text ++ (readableStep d.kinds t ts).text, (readableStep d.kinds t ts).groups,
      (readableStep d.kinds t ts).rest⟩ := by
  have hmoves := moves_step h
  generalize d.step = d' at hmoves ⊢
  cases hmoves with
  | write text _ written => simp [plain, kinds, h, written]
  | root _ _ written => simp [plain, kinds, h, written]
  | drop _ _ written => simp [plain, kinds, h, written]
  | enter group n _ _ written => simp [plain, kinds, h, written]
  | leave _ written => simp [plain, kinds, h, written, List.map_tail]

/-- Without places, a draft goes on as the readable spelling does. -/
theorem plain_step (d : Draft) : d.step.plain = d.plain.next := by
  cases h : d.rest with
  | nil => rw [step, h, ReadableStep.next, plain, h]
  | cons t ts => rw [plain_step_of_rest h, ReadableStep.next, plain, h]

theorem whole_step (d : Draft) : d.step.whole = d.whole := by
  cases h : d.rest with
  | nil => rw [step, h]
  | cons t ts =>
    obtain ⟨htext, hkinds, hrest⟩ := ReadableStep.mk.inj (plain_step_of_rest h)
    rw [whole, htext, hkinds, hrest, whole, h, readableFrom, List.append_assoc]

theorem length_rest_step (d : Draft) : d.step.rest.length ≤ d.rest.length - 1 := by
  cases h : d.rest with
  | nil => simp [step, h]
  | cons t ts =>
    rw [(ReadableStep.mk.inj (plain_step_of_rest h)).2.2]
    exact length_readableStep_le d.kinds t ts

end

end Draft

/-- What was done for the token `t` at a place agrees with its kind, with whether it has a partner,
and with what was done for its partner. -/
inductive Act.IsRight (all : List Token) (acts : List Act) (place : Nat) (t : Token) : Act → Prop
  | writes {text : List Char} (quiet : isBrace t.kind = false) :
      IsRight all acts place t (.writes text)
  | opens {group : ReadableGroup} {j : Nat} (opening : t.kind = .openBrace)
      (partner : partner? all place = some j) : IsRight all acts place t (.opens ⟨place, group⟩)
  | drops (opening : t.kind = .openBrace) (alone : partner? all place = none) :
      IsRight all acts place t .drops
  | closes {g : OpenGroup} (closing : t.kind = .closeBrace)
      (partner : ∀ i, partner? all i = some place ↔ i = g.place)
      (opened : acts[g.place]? = some (.opens g)) : IsRight all acts place t (.closes (some g))
  | closesNone (closing : t.kind = .closeBrace) (alone : ∀ i, partner? all i ≠ some place) :
      IsRight all acts place t (.closes none)

/-- The groups on the stack are those of the pairs of braces that stand on both sides of the place
where the draft is: the one at depth `m` ends where a group with `m` others in it is closed. -/
structure Draft.IsExact (all : List Token) (d : Draft) : Prop where
  rest_eq : d.rest = all.drop d.acts.length
  length_le : d.acts.length ≤ all.length
  closes : ∀ m g, d.groups[m]? = some g → ∃ n, closingBrace? m d.rest = some n ∧
    partner? all g.place = some (d.acts.length + n)
  isOpen : ∀ i j, partner? all i = some j → i < d.acts.length → d.acts.length ≤ j →
    ∃ g ∈ d.groups, g.place = i
  opened : ∀ g ∈ d.groups, d.acts[g.place]? = some (.opens g)
  right : ∀ place (a : Act), d.acts[place]? = some a →
    ∃ t, all[place]? = some t ∧ a.IsRight all d.acts place t

section
variable {all : List Token} {acts new : List Act} {place : Nat} {a : Act} {t : Token}

theorem getElem?_append (h : acts[place]? = some a) (new : List Act) :
    (acts ++ new)[place]? = some a := by
  rw [List.getElem?_append_left (List.getElem?_eq_some_iff.mp h).1, h]

theorem Act.IsRight.append (h : a.IsRight all acts place t) (new : List Act) :
    a.IsRight all (acts ++ new) place t := by
  cases h with
  | writes quiet => exact .writes quiet
  | opens opening partner => exact .opens opening partner
  | drops opening alone => exact .drops opening alone
  | closes closing partner opened => exact .closes closing partner (getElem?_append opened new)
  | closesNone closing alone => exact .closesNone closing alone

theorem Act.IsRight.of_quiet (h : a.IsRight all acts place t) (ht : isBrace t.kind = false) :
    ∃ text, a = .writes text := by
  cases h with
  | writes => exact ⟨_, rfl⟩
  | opens opening | drops opening => simp [opening, isBrace] at ht
  | closes closing | closesNone closing => simp [closing, isBrace] at ht

theorem Act.IsRight.of_openBrace (h : a.IsRight all acts place t) (ht : t.kind = .openBrace) :
    partner? all place = none ∧ a = .drops ∨
      (∃ j, partner? all place = some j) ∧ ∃ group, a = .opens ⟨place, group⟩ := by
  cases h with
  | writes quiet => simp [ht, isBrace] at quiet
  | opens _ partner => exact .inr ⟨⟨_, partner⟩, _, rfl⟩
  | drops _ alone => exact .inl ⟨alone, rfl⟩
  | closes closing | closesNone closing => simp [ht] at closing

theorem Act.IsRight.of_closeBrace (h : a.IsRight all acts place t) (ht : t.kind = .closeBrace) :
    (∀ i, partner? all i ≠ some place) ∧ a = .closes none ∨
      ∃ g, (∀ i, partner? all i = some place ↔ i = g.place) ∧ a = .closes (some g) ∧
        acts[g.place]? = some (.opens g) := by
  cases h with
  | writes quiet => simp [ht, isBrace] at quiet
  | opens opening | drops opening => simp [ht] at opening
  | closes _ partner opened => exact .inr ⟨_, partner, rfl, opened⟩
  | closesNone _ alone => exact .inl ⟨alone, rfl⟩

end

namespace Draft.IsExact

variable {all us ts : List Token} {d : Draft} {t : Token} {new : List Act}
  {groups : List OpenGroup}

theorem start (all : List Token) : (Draft.start all).IsExact all where
  rest_eq := rfl
  length_le := Nat.zero_le _
  closes := by simp
  isOpen := by simp
  opened := by simp
  right := by simp

theorem getElem?_eq (h : d.IsExact all) (n : Nat) : all[d.acts.length + n]? = d.rest[n]? := by
  rw [h.rest_eq, List.getElem?_drop]

/-- What has to be shown of a draft that has gone on by a row of tokens. -/
theorem extend (h : d.IsExact all) (hrest : d.rest = us ++ ts) (hnew : new.length = us.length)
    (closes : ∀ m g, groups[m]? = some g → ∃ n, closingBrace? m ts = some n ∧
      partner? all g.place = some (d.acts.length + us.length + n))
    (isOpen : ∀ i j, partner? all i = some j → i < d.acts.length + us.length →
      d.acts.length + us.length ≤ j → ∃ g ∈ groups, g.place = i)
    (opened : ∀ g ∈ groups, (d.acts ++ new)[g.place]? = some (.opens g))
    (right : ∀ n (a : Act), new[n]? = some a → ∃ t, all[d.acts.length + n]? = some t ∧
      a.IsRight all (d.acts ++ new) (d.acts.length + n) t) :
    Draft.IsExact all ⟨d.acts ++ new, groups, ts⟩ := by
  have hlength : (d.acts ++ new).length = d.acts.length + us.length := by
    rw [List.length_append, hnew]
  constructor
  case rest_eq =>
    rw [hlength, ← List.drop_drop, ← h.rest_eq, hrest, List.drop_left]
  case length_le =>
    have := congrArg List.length (h.rest_eq.symm.trans hrest)
    rw [List.length_drop, List.length_append] at this
    have := h.length_le
    rw [hlength]
    omega
  case closes => rwa [hlength]
  case isOpen => rwa [hlength]
  case opened => exact opened
  case right =>
    intro place a ha
    by_cases hold : place < d.acts.length
    · rw [List.getElem?_append_left hold] at ha
      obtain ⟨t, ht, hright⟩ := h.right place a ha
      exact ⟨t, ht, hright.append new⟩
    · rw [List.getElem?_append_right (by omega)] at ha
      have := right _ a ha
      rwa [Nat.add_sub_cancel' (by omega)] at this

/-- Tokens that are no braces leave the stack as it is. -/
theorem quiet (h : d.IsExact all) (hrest : d.rest = us ++ ts)
    (hus : ∀ u ∈ us, isBrace u.kind = false) (hnew : new.length = us.length)
    (hwrites : ∀ a ∈ new, ∃ text, a = .writes text) :
    Draft.IsExact all ⟨d.acts ++ new, d.groups, ts⟩ := by
  have htoken : ∀ n < us.length, ∃ u, all[d.acts.length + n]? = some u ∧
      isBrace u.kind = false := by
    intro n hn
    refine ⟨us[n], ?_, hus _ (List.getElem_mem hn)⟩
    rw [h.getElem?_eq, hrest, List.getElem?_append_left hn, List.getElem?_eq_getElem hn]
  refine h.extend hrest hnew (fun m g hg => ?closes) (fun i j hij hi hj => ?isOpen)
    (fun g hg => getElem?_append (h.opened g hg) new) fun n a ha => ?right
  case closes =>
    obtain ⟨n, hn, hpartner⟩ := h.closes m g hg
    rw [hrest, closingBrace?_append hus] at hn
    obtain ⟨k, hk, rfl⟩ := Option.map_eq_some_iff.mp hn
    exact ⟨k, hk, by rw [hpartner, Nat.add_assoc]⟩
  case isOpen =>
    by_cases hlt : i < d.acts.length
    · exact h.isOpen i j hij hlt (by omega)
    · obtain ⟨u, hu, hquiet⟩ := htoken (i - d.acts.length) (by omega)
      obtain ⟨-, ⟨t, ht, hk⟩, -⟩ := partner?_eq_some hij
      rw [Nat.add_sub_cancel' (by omega), ht] at hu
      obtain rfl := Option.some.inj hu
      rw [hk] at hquiet
      cases hquiet
  case right =>
    obtain ⟨text, rfl⟩ := hwrites a (List.mem_of_getElem? ha)
    obtain ⟨u, hu, hquiet⟩ := htoken n (hnew ▸ (List.getElem?_eq_some_iff.mp ha).1)
    exact ⟨u, hu, .writes hquiet⟩

theorem write (h : d.IsExact all) (hrest : d.rest = t :: ts) (ht : isBrace t.kind = false)
    (text : List Char) : (d.write text).IsExact all := by
  rw [Draft.write, hrest, List.tail_cons]
  exact h.quiet (show d.rest = [t] ++ ts from hrest) (by simpa using ht) rfl (by simp)

theorem skip (h : d.IsExact all) : d.skip.IsExact all := by
  refine h.quiet List.takeWhile_append_dropWhile.symm (fun u hu => ?_) (List.length_map _)
    fun a ha => ?_
  · have hspace : u.kind = .whitespace := by
      simpa [Token.isSpace] using List.mem_takeWhile_imp hu
    rw [hspace]
    rfl
  · obtain ⟨u, -, rfl⟩ := List.mem_map.mp ha
    exact ⟨[], rfl⟩

theorem getElem?_length (h : d.IsExact all) (hrest : d.rest = t :: ts) :
    all[d.acts.length]? = some t :=
  getElem?_of_drop (h.rest_eq.symm.trans hrest)

theorem partner?_eq (h : d.IsExact all) (hrest : d.rest = t :: ts) :
    partner? all d.acts.length =
      if t.kind = .openBrace then (closingBrace? 0 ts).map (d.acts.length + 1 + ·) else none :=
  partner?_of_drop (h.rest_eq.symm.trans hrest)

/-- A pair that goes on behind the next token is of this token or of one before it. -/
theorem isOpen_succ (h : d.IsExact all) {i j : Nat} (hij : partner? all i = some j)
    (hi : i < d.acts.length + 1) (hj : d.acts.length + 1 ≤ j) :
    i = d.acts.length ∨ ∃ g ∈ d.groups, g.place = i := by
  by_cases hlt : i < d.acts.length
  · exact .inr (h.isOpen i j hij hlt (by omega))
  · exact .inl (by omega)

theorem enter (h : d.IsExact all) (hrest : d.rest = t :: ts) (ht : t.kind = .openBrace) {n : Nat}
    (hn : closingBrace? 0 ts = some n) (group : ReadableGroup) : (d.enter group).IsExact all := by
  have hpartner : partner? all d.acts.length = some (d.acts.length + 1 + n) := by
    rw [h.partner?_eq hrest, if_pos ht, hn]
    rfl
  rw [Draft.enter, hrest, List.tail_cons]
  refine h.extend (show d.rest = [t] ++ ts from hrest) rfl (fun m g hg => ?closes)
    (fun i j hij hi hj => ?isOpen) (fun g hg => ?opened) fun k a ha => ?right
  case closes =>
    cases m with
    | zero =>
      obtain rfl := Option.some.inj hg
      exact ⟨n, hn, hpartner⟩
    | succ m =>
      obtain ⟨n, hn, hpartner⟩ := h.closes m g hg
      rw [hrest, closingBrace?_openBrace ht, Option.map_eq_some_iff] at hn
      obtain ⟨k, hk, rfl⟩ := hn
      exact ⟨k, hk, by rw [hpartner, List.length_singleton, Nat.add_assoc, Nat.add_comm 1]⟩
  case isOpen =>
    rcases h.isOpen_succ hij hi hj with rfl | ⟨g, hg, rfl⟩
    · exact ⟨_, List.mem_cons_self, rfl⟩
    · exact ⟨g, List.mem_cons_of_mem _ hg, rfl⟩
  case opened =>
    rcases List.mem_cons.mp hg with rfl | hg
    · exact List.getElem?_concat_length
    · exact getElem?_append (h.opened g hg) _
  case right =>
    obtain ⟨rfl, rfl⟩ : k = 0 ∧ a = .opens ⟨d.acts.length, group⟩ := by
      simpa [List.getElem?_singleton, eq_comm] using ha
    exact ⟨t, h.getElem?_length hrest, .opens ht hpartner⟩

/-- Where an opening brace has no partner, no group can be open: it would not be closed either. -/
theorem drop (h : d.IsExact all) (hrest : d.rest = t :: ts) (ht : t.kind = .openBrace)
    (hnone : closingBrace? 0 ts = none) : d.drop.IsExact all := by
  have hpartner : partner? all d.acts.length = none := by
    rw [h.partner?_eq hrest, if_pos ht, hnone]
    rfl
  have hgroups : d.groups = [] := by
    cases hg : d.groups with
    | nil => rfl
    | cons g groups =>
      obtain ⟨n, hn, -⟩ := h.closes 0 g (by rw [hg]; rfl)
      rw [hrest, closingBrace?_openBrace ht, closingBrace?_eq_none hnone] at hn
      cases hn
  rw [Draft.drop, hrest, List.tail_cons]
  refine h.extend (show d.rest = [t] ++ ts from hrest) rfl (fun m g hg => ?closes)
    (fun i j hij hi hj => ?isOpen) (fun g hg => ?opened) fun k a ha => ?right
  case closes =>
    rw [hgroups] at hg
    cases hg
  case isOpen =>
    rcases h.isOpen_succ hij hi hj with rfl | hg
    · rw [hpartner] at hij
      cases hij
    · exact hg
  case opened => exact getElem?_append (h.opened g hg) _
  case right =>
    obtain ⟨rfl, rfl⟩ : k = 0 ∧ a = .drops := by
      simpa [List.getElem?_singleton, eq_comm] using ha
    exact ⟨t, h.getElem?_length hrest, .drops ht hpartner⟩

/-- The partner of a closing brace is the one that opened the innermost group, if there is one. -/
theorem partner?_eq_some_iff (h : d.IsExact all) (hrest : d.rest = t :: ts)
    (ht : t.kind = .closeBrace) (i : Nat) :
    partner? all i = some d.acts.length ↔ d.groups.head?.map OpenGroup.place = some i := by
  obtain ⟨hzero, hsucc⟩ := closingBrace?_closeBrace ht ts
  constructor
  · intro hi
    obtain ⟨g, hg, rfl⟩ := h.isOpen i _ hi (partner?_eq_some hi).1 (Nat.le_refl _)
    obtain ⟨m, hm⟩ := List.getElem?_of_mem hg
    obtain ⟨n, hn, hpartner⟩ := h.closes m g hm
    rw [hi, Option.some.injEq] at hpartner
    cases m with
    | zero => rw [List.head?_eq_getElem?, hm, Option.map_some]
    | succ m =>
      rw [hrest, hsucc, Option.map_eq_some_iff] at hn
      obtain ⟨k, -, rfl⟩ := hn
      omega
  · intro hi
    obtain ⟨g, hg, rfl⟩ := Option.map_eq_some_iff.mp hi
    rw [List.head?_eq_getElem?] at hg
    obtain ⟨n, hn, hpartner⟩ := h.closes 0 g hg
    rw [hrest, hzero, Option.some.injEq] at hn
    rw [hpartner, ← hn, Nat.add_zero]

theorem leave (h : d.IsExact all) (hrest : d.rest = t :: ts) (ht : t.kind = .closeBrace) :
    d.leave.IsExact all := by
  have hiff := h.partner?_eq_some_iff hrest ht
  rw [Draft.leave, hrest, List.tail_cons]
  refine h.extend (show d.rest = [t] ++ ts from hrest) rfl (fun m g hg => ?closes)
    (fun i j hij hi hj => ?isOpen)
    (fun g hg => getElem?_append (h.opened g (List.mem_of_mem_tail hg)) _) fun k a ha => ?right
  case closes =>
    rw [List.getElem?_tail] at hg
    obtain ⟨n, hn, hpartner⟩ := h.closes (m + 1) g hg
    rw [hrest, (closingBrace?_closeBrace ht ts).2, Option.map_eq_some_iff] at hn
    obtain ⟨k, hk, rfl⟩ := hn
    exact ⟨k, hk, by rw [hpartner, List.length_singleton, Nat.add_assoc, Nat.add_comm 1]⟩
  case isOpen =>
    rcases h.isOpen_succ hij hi hj with rfl | ⟨g, hg, rfl⟩
    · rw [h.partner?_eq hrest, if_neg (by simp [ht])] at hij
      cases hij
    · refine ⟨g, ?_, rfl⟩
      cases hgroups : d.groups with
      | nil => simp [hgroups] at hg
      | cons g' groups =>
        rw [hgroups] at hg
        rcases List.mem_cons.mp hg with rfl | hg
        · have hhead := (hiff g.place).mpr (by rw [hgroups]; rfl)
          rw [hij, Option.some.injEq] at hhead
          rw [hhead] at hj
          exact absurd hj (Nat.not_succ_le_self _)
        · exact hg
  case right =>
    obtain ⟨rfl, rfl⟩ : k = 0 ∧ a = .closes d.groups.head? := by
      simpa [List.getElem?_singleton, eq_comm] using ha
    refine ⟨t, h.getElem?_length hrest, ?_⟩
    cases hgroup : d.groups.head? with
    | none =>
      refine .closesNone ht fun i hi => ?_
      have := (hiff i).mp hi
      rw [hgroup] at this
      cases this
    | some g =>
      rw [hgroup] at hiff
      refine .closes ht (fun i => (hiff i).trans ?_) ?_
      · rw [Option.map_some, Option.some.injEq, eq_comm]
      · exact getElem?_append (h.opened g (List.mem_of_head? hgroup)) _

theorem step (h : d.IsExact all) : d.step.IsExact all := by
  cases hrest : d.rest with
  | nil => rwa [Draft.step, hrest]
  | cons t ts =>
    have hmoves := moves_step hrest
    generalize d.step = d' at hmoves ⊢
    cases hmoves with
    | write text quiet => exact h.write hrest quiet text
    | root quiet opens =>
      obtain ⟨u, after, n, hskip, hu, hn⟩ := exists_of_opensGroup opens
      exact (h.write hrest quiet _).skip.enter (by simpa [hrest] using hskip) hu hn .paren
    | drop opening unclosed => exact h.drop hrest opening unclosed
    | enter group n opening closed => exact h.enter hrest opening closed group
    | leave closing => exact h.leave hrest closing

theorem finished (h : d.IsExact all) (hrest : d.rest = []) :
    d.acts.length = all.length ∧ d.groups = [] := by
  constructor
  · have hlength := List.drop_eq_nil_iff.mp (h.rest_eq.symm.trans hrest)
    have := h.length_le
    omega
  · cases hg : d.groups with
    | nil => rfl
    | cons g groups =>
      obtain ⟨n, hn, -⟩ := h.closes 0 g (by rw [hg]; rfl)
      rw [hrest] at hn
      cases hn

theorem iterate (all : List Token) (n : Nat) : (Draft.step^[n] (Draft.start all)).IsExact all := by
  induction n with
  | zero => exact .start all
  | succ n ih =>
    rw [Function.iterate_succ_apply']
    exact ih.step

end Draft.IsExact

namespace Draft

theorem plain_iterate (d : Draft) (n : Nat) :
    (step^[n] d).plain = ReadableStep.next^[n] d.plain := by
  induction n with
  | zero => rfl
  | succ n ih => rw [Function.iterate_succ_apply', Function.iterate_succ_apply', plain_step, ih]

theorem whole_iterate (d : Draft) (n : Nat) : (step^[n] d).whole = d.whole := by
  induction n with
  | zero => rfl
  | succ n ih => rw [Function.iterate_succ_apply', whole_step, ih]

theorem length_rest_iterate (d : Draft) (n : Nat) :
    (step^[n] d).rest.length ≤ d.rest.length - n := by
  induction n with
  | zero => exact Nat.le_refl _
  | succ n ih =>
    rw [Function.iterate_succ_apply']
    have := length_rest_step (step^[n] d)
    omega

theorem rest_of (source : String) : (of source).rest = [] := by
  have := length_rest_iterate (start (tokens source)) (tokens source).length
  rw [start_rest, Nat.sub_self] at this
  exact List.eq_nil_of_length_eq_zero (Nat.le_zero.mp this)

theorem isExact_of (source : String) : (of source).IsExact (tokens source) := .iterate _ _

section
variable {source : String} {i j place : Nat} {t : Token}

theorem exists_act (h : (tokens source)[place]? = some t) : ∃ a,
    (of source).acts[place]? = some a ∧
      a.IsRight (tokens source) (of source).acts place t := by
  have hlength := ((isExact_of source).finished (rest_of source)).1
  have hplace : place < (of source).acts.length :=
    hlength ▸ (List.getElem?_eq_some_iff.mp h).1
  have hact := List.getElem?_eq_getElem hplace
  obtain ⟨u, hu, hright⟩ := (isExact_of source).right place _ hact
  obtain rfl := Option.some.inj (h.symm.trans hu)
  exact ⟨_, hact, hright⟩

theorem acts_of_partner? (h : partner? (tokens source) i = some j) : ∃ group,
    (of source).acts[i]? = some (.opens ⟨i, group⟩) ∧
      (of source).acts[j]? = some (.closes (some ⟨i, group⟩)) := by
  obtain ⟨-, -, u, hu, hclosing⟩ := partner?_eq_some h
  obtain ⟨a, ha, hright⟩ := exists_act hu
  rcases hright.of_closeBrace hclosing with ⟨halone, -⟩ | ⟨⟨place, group⟩, hiff, rfl, hopened⟩
  · exact absurd h (halone i)
  · obtain rfl := (hiff i).mp h
    exact ⟨group, hopened, ha⟩

theorem act_of_openBrace (h : (tokens source)[place]? = some t) (ht : t.kind = .openBrace)
    (halone : partner? (tokens source) place = none) :
    (of source).acts[place]? = some .drops := by
  obtain ⟨a, ha, hright⟩ := exists_act h
  rcases hright.of_openBrace ht with ⟨-, rfl⟩ | ⟨⟨j, hj⟩, -⟩
  · exact ha
  · rw [halone] at hj
    cases hj

theorem act_of_closeBrace (h : (tokens source)[place]? = some t) (ht : t.kind = .closeBrace)
    (halone : ∀ i, partner? (tokens source) i ≠ some place) :
    (of source).acts[place]? = some (.closes none) := by
  obtain ⟨a, ha, hright⟩ := exists_act h
  rcases hright.of_closeBrace ht with ⟨-, rfl⟩ | ⟨g, hiff, -⟩
  · exact ha
  · exact absurd ((hiff g.place).mpr rfl) (halone g.place)

theorem act_of_quiet (h : (tokens source)[place]? = some t) (ht : isBrace t.kind = false) :
    ∃ text, (of source).acts[place]? = some (.writes text) := by
  obtain ⟨a, ha, hright⟩ := exists_act h
  obtain ⟨text, rfl⟩ := hright.of_quiet ht
  exact ⟨text, ha⟩

theorem textAt_eq {a : Act} (h : (of source).acts[place]? = some a) :
    (of source).textAt place = a.text := by
  rw [textAt, h, Option.map_some, Option.getD_some]

end

/-- No step changes what the whole text will be. -/
theorem toList_toReadable (source : String) (n : Nat) :
    (toReadable source).toList = (step^[n] (start (tokens source))).whole := by
  rw [whole_iterate, toReadable, String.toList_ofList]
  rfl

theorem whole_of (source : String) : (of source).whole = (of source).text := by
  rw [whole, rest_of, readableFrom, List.append_nil]

end Draft

/-- Whatever the braces of a text are, the groups on the stack are kept right while its readable
spelling is written, whose run is that of a draft but for the places of the groups. A closing brace
ends the very group that its partner opened, and gets a parenthesis if and only if its partner got
one. A brace without a partner writes nothing; where it is a closing brace, no group is open. At the
end, no group is open. The counter of the search for a partner, which is done for opening braces,
never goes below zero. -/
theorem partners_toReadable (source : String) :
    (∀ n, (Draft.step^[n] (Draft.start (tokens source))).plain =
      ReadableStep.next^[n] ⟨[], [], tokens source⟩) ∧
    (∀ n, (toReadable source).toList = (Draft.step^[n] (Draft.start (tokens source))).whole) ∧
    (toReadable source).toList = (Draft.of source).text ∧
    (Draft.of source).rest = [] ∧
    (Draft.of source).groups = [] ∧
    (Draft.of source).acts.length = (tokens source).length ∧
    (∀ i j, partner? (tokens source) i = some j →
      (∃ group, (Draft.of source).acts[i]? = some (.opens ⟨i, group⟩) ∧
        (Draft.of source).acts[j]? = some (.closes (some ⟨i, group⟩))) ∧
      ((Draft.of source).textAt i = ['('] ∧ (Draft.of source).textAt j = [')'] ∨
        (Draft.of source).textAt i = [] ∧ (Draft.of source).textAt j = [])) ∧
    ∀ place t, (tokens source)[place]? = some t →
      (t.kind = .openBrace →
        (search? 0 ((tokens source).drop place)).map (Option.map (place + ·)) =
          some (partner? (tokens source) place)) ∧
      (t.kind = .openBrace → partner? (tokens source) place = none →
        (Draft.of source).acts[place]? = some .drops ∧ (Draft.of source).textAt place = []) ∧
      (t.kind = .closeBrace → (∀ i, partner? (tokens source) i ≠ some place) →
        (Draft.of source).acts[place]? = some (.closes none) ∧
          (Draft.of source).textAt place = []) ∧
      (isBrace t.kind = false → ∃ text, (Draft.of source).acts[place]? = some (.writes text)) := by
  obtain ⟨hlength, hgroups⟩ := (Draft.isExact_of source).finished (Draft.rest_of source)
  refine ⟨Draft.plain_iterate (Draft.start (tokens source)), Draft.toList_toReadable source,
    (Draft.toList_toReadable source _).trans (Draft.whole_of source), Draft.rest_of source, hgroups,
    hlength, fun i j h => ?pair, fun place t h => ⟨search?_of_openBrace h,
      fun ht halone => ?opening, fun ht halone => ?closing, Draft.act_of_quiet h⟩⟩
  case pair =>
    obtain ⟨group, hi, hj⟩ := Draft.acts_of_partner? h
    refine ⟨⟨group, hi, hj⟩, ?_⟩
    rw [Draft.textAt_eq hi, Draft.textAt_eq hj]
    cases group
    · exact .inr ⟨rfl, rfl⟩
    · exact .inl ⟨rfl, rfl⟩
  case opening =>
    have hact := Draft.act_of_openBrace h ht halone
    exact ⟨hact, Draft.textAt_eq hact⟩
  case closing =>
    have hact := Draft.act_of_closeBrace h ht halone
    exact ⟨hact, Draft.textAt_eq hact⟩

/-- A square root with a power in it, and behind it a brace of either kind that has no partner. -/
theorem partners_toReadable_root : ∃ source,
    source = "\\sqrt \x7bx^\x7b-2\x7d\x7d\x7d\x7b" ∧
    (toReadable source).toList = (Draft.of source).text ∧
    partner? (tokens source) 2 = some 9 ∧
    (∃ group, (Draft.of source).acts[2]? = some (.opens ⟨2, group⟩) ∧
      (Draft.of source).acts[9]? = some (.closes (some ⟨2, group⟩))) ∧
    (Draft.of source).acts[10]? = some (.closes none) ∧
    (Draft.of source).acts[11]? = some .drops := by
  refine ⟨_, rfl, ?_⟩
  obtain ⟨-, -, htext, -, -, -, hpair, hplace⟩ :=
    partners_toReadable "\\sqrt \x7bx^\x7b-2\x7d\x7d\x7d\x7b"
  have hpartner : partner? (tokens "\\sqrt \x7bx^\x7b-2\x7d\x7d\x7d\x7b") 2 = some 9 := by
    decide +kernel
  have halone : ∀ i < 10,
      partner? (tokens "\\sqrt \x7bx^\x7b-2\x7d\x7d\x7d\x7b") i ≠ some 10 := by decide +kernel
  have hclosing : (tokens "\\sqrt \x7bx^\x7b-2\x7d\x7d\x7d\x7b")[10]?.map Token.kind =
      some .closeBrace := by decide +kernel
  have hopening : (tokens "\\sqrt \x7bx^\x7b-2\x7d\x7d\x7d\x7b")[11]?.map Token.kind =
      some .openBrace := by decide +kernel
  obtain ⟨t, ht, hkind⟩ := Option.map_eq_some_iff.mp hclosing
  obtain ⟨u, hu, hkind'⟩ := Option.map_eq_some_iff.mp hopening
  exact ⟨htext, hpartner, (hpair 2 9 hpartner).1,
    ((hplace 10 t ht).2.2.1 hkind fun i hi => halone i (partner?_eq_some hi).1 hi).1,
    ((hplace 11 u hu).2.1 hkind' (by decide +kernel)).1⟩

end CurveGuess.Spelling
