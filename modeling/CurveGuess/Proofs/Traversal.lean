import CurveGuess.Expr.Traversal
import Mathlib.Data.List.Basic

/-!
# Walks visit every node once

A walk keeps a stack of nodes and knows the place it has visited last. Below a node in which that
place does not lie, it visits the operands one after the other and then the node, whatever else is
on the stack. So a walk from the root ends, after it has visited all places in the order of the
recursive traversal: operands before their node, and those on the left before those on the right.
-/
namespace CurveGuess

namespace Expr

/-- The node at a place. A place is the way to it from the root: the number of the operand to go
down to at each node, the last one first. -/
def at? (e : Expr) : List Nat → Option Expr
  | [] => some e
  | i :: path => (e.at? path).bind fun d => d.children[i]?

theorem at?_append (e : Expr) (below path : List Nat) :
    e.at? (below ++ path) = (e.at? path).bind fun d => d.at? below := by
  induction below with
  | nil => simp [at?]
  | cons i below ih =>
    rw [List.cons_append, at?, ih, Option.bind_assoc]
    rfl

end Expr

/-- The place `p` lies below `q`, or to the left of it: the ways to them part at a node where the
one to `p` goes down to an earlier operand. -/
def ComesBefore (p q : List Nat) : Prop :=
  (∃ below i, p = below ++ i :: q) ∨
    ∃ left i right j shared, p = left ++ i :: shared ∧ q = right ++ j :: shared ∧ i < j

theorem not_comesBefore_self (p : List Nat) : ¬ComesBefore p p := by
  rintro (⟨below, i, h⟩ | ⟨left, i, right, j, shared, hleft, hright, hlt⟩)
  · have hlength := congrArg List.length h
    rw [List.length_append, List.length_cons] at hlength
    omega
  · have heq := List.append_inj_right' (hleft.symm.trans hright) rfl
    obtain rfl : i = j := (List.cons.inj heq).1
    exact Nat.lt_irrefl i hlt

namespace Spot

variable {s c x : Spot}

theorem mem_children : c ∈ s.children ↔
    ∃ i, s.node.children[i]? = some c.node ∧ c.path = i :: s.path := by
  obtain ⟨path, node⟩ := c
  simp only [children, List.mem_mapIdx, mk.injEq, List.getElem?_eq_some_iff]
  grind

theorem sizeOf_lt_of_mem_children (h : c ∈ s.children) : sizeOf c.node < sizeOf s.node := by
  obtain ⟨i, hi, -⟩ := mem_children.mp h
  exact Expr.sizeOf_lt_of_mem_children (List.mem_of_getElem? hi)

/-- All places at or below one, in the order of the recursive traversal. -/
def postOrder (s : Spot) : List Spot :=
  (s.children.attach.map fun c => c.1.postOrder).flatten ++ [s]
  termination_by sizeOf s.node
  decreasing_by exact sizeOf_lt_of_mem_children c.2

theorem postOrder_eq (s : Spot) : s.postOrder = s.children.flatMap postOrder ++ [s] := by
  rw [postOrder]
  simp [List.flatMap]

/-- What holds of a place whenever it holds of the operands there holds of every place. -/
theorem operandInduction {P : Spot → Prop} (h : ∀ s : Spot, (∀ c ∈ s.children, P c) → P s)
    (s : Spot) : P s := by
  refine h s fun c hc => ?_
  have hlt := sizeOf_lt_of_mem_children hc
  exact operandInduction h c
  termination_by sizeOf s.node

theorem map_node_children (s : Spot) : s.children.map node = s.node.children := by
  refine List.ext_getElem? fun i => ?_
  simp [children, Function.comp_def]

theorem map_node_postOrder (s : Spot) : s.postOrder.map node = s.node.postOrder := by
  induction s using operandInduction with
  | h s ih =>
    rw [postOrder_eq, Expr.postOrder_eq, List.map_append, List.map_flatMap, ← map_node_children,
      List.flatMap_map]
    congr 1
    exact List.flatMap_congr ih

/-- The recursive traversal comes to the places that there are, and to no others. -/
theorem mem_postOrder (s : Spot) : x ∈ s.postOrder ↔
    ∃ below, x.path = below ++ s.path ∧ s.node.at? below = some x.node := by
  induction s using operandInduction with
  | h s ih =>
    rw [postOrder_eq, List.mem_append, List.mem_flatMap, List.mem_singleton]
    constructor
    · rintro (⟨c, hc, hx⟩ | rfl)
      · obtain ⟨below, hpath, hat⟩ := (ih c hc).mp hx
        obtain ⟨i, hi, hci⟩ := mem_children.mp hc
        refine ⟨below ++ [i], by rw [hpath, hci, List.append_assoc]; rfl, ?_⟩
        rw [Expr.at?_append, Expr.at?, Expr.at?, Option.bind_some, hi, Option.bind_some, hat]
      · exact ⟨[], rfl, rfl⟩
    · rintro ⟨below, hpath, hat⟩
      rcases List.eq_nil_or_concat below with rfl | ⟨below, i, rfl⟩
      · obtain ⟨path, node⟩ := x
        cases hpath
        cases hat
        exact .inr rfl
      · rw [List.concat_eq_append, Expr.at?_append, Expr.at?, Expr.at?, Option.bind_some] at hat
        obtain ⟨d, hd, hat⟩ := Option.bind_eq_some_iff.mp hat
        have hc : ⟨i :: s.path, d⟩ ∈ s.children := mem_children.mpr ⟨i, hd, rfl⟩
        refine .inl ⟨_, hc, (ih _ hc).mpr ⟨below, ?_, hat⟩⟩
        rw [hpath, List.concat_eq_append, List.append_assoc]
        rfl

theorem path_suffix (h : x ∈ s.postOrder) : s.path <:+ x.path := by
  obtain ⟨below, hpath, -⟩ := (mem_postOrder s).mp h
  exact ⟨below, hpath.symm⟩

theorem pairwise_children (s : Spot) :
    s.children.Pairwise fun a b => ∃ i j, a.path = i :: s.path ∧ b.path = j :: s.path ∧ i < j := by
  rw [List.pairwise_iff_getElem]
  intro i j hi hj hlt
  exact ⟨i, j, by simp [children], by simp [children], hlt⟩

/-- The recursive traversal goes from the bottom up and from left to right. -/
theorem pairwise_postOrder (s : Spot) :
    s.postOrder.Pairwise fun a b => ComesBefore a.path b.path := by
  induction s using operandInduction with
  | h s ih =>
    rw [postOrder_eq, List.pairwise_append, List.pairwise_flatMap]
    refine ⟨⟨ih, ?_⟩, List.pairwise_singleton _ _, ?_⟩
    · refine (pairwise_children s).imp ?_
      rintro c d ⟨i, j, hc, hd, hlt⟩ a ha b hb
      obtain ⟨left, hleft⟩ := path_suffix ha
      obtain ⟨right, hright⟩ := path_suffix hb
      rw [hc] at hleft
      rw [hd] at hright
      exact .inr ⟨left, i, right, j, s.path, hleft.symm, hright.symm, hlt⟩
    · intro a ha b hb
      obtain ⟨c, hc, ha⟩ := List.mem_flatMap.mp ha
      obtain ⟨i, -, hpath⟩ := mem_children.mp hc
      obtain ⟨below, hbelow⟩ := path_suffix ha
      obtain rfl := List.mem_singleton.mp hb
      rw [hpath] at hbelow
      exact .inl ⟨below, i, hbelow.symm⟩

theorem nodup_postOrder (s : Spot) : (s.postOrder.map path).Nodup := by
  rw [List.Nodup, List.pairwise_map]
  exact s.pairwise_postOrder.imp fun {a b} h heq => by
    rw [heq] at h
    exact not_comesBefore_self b.path h

end Spot

namespace Expr

theorem size_eq (e : Expr) : e.size = 1 + (e.children.map size).foldr (· + ·) 0 := by
  rw [size, List.attach_map_val]

theorem length_postOrder (e : Expr) : e.postOrder.length = e.size := by
  have hoperands : ∀ cs : List Expr, (∀ c ∈ cs, c.postOrder.length = c.size) →
      (cs.flatMap postOrder).length = (cs.map size).foldr (· + ·) 0 := by
    intro cs hcs
    induction cs with
    | nil => rfl
    | cons c cs ih =>
      obtain ⟨hc, hcs⟩ := List.forall_mem_cons.mp hcs
      rw [List.flatMap_cons, List.length_append, hc, ih hcs, List.map_cons, List.foldr_cons]
  rw [postOrder_eq, size_eq, List.length_append, List.length_singleton, Nat.add_comm,
    hoperands e.children fun c hc => c.length_postOrder]
  termination_by sizeOf e
  decreasing_by exact sizeOf_lt_of_mem_children hc

end Expr

namespace Walk

/-- The walk `w` visits the places `ss`, one after the other, and is then at `w'`. -/
inductive Visits : Walk → List Spot → Walk → Prop
  | stay (w : Walk) : Visits w [] w
  | step {w s w₁ ss w₂} : w.next? = some (s, w₁) → Visits w₁ ss w₂ → Visits w (s :: ss) w₂

variable {w w₁ w₂ : Walk} {s : Spot} {ss ts : List Spot}

namespace Visits

theorem trans (h : Visits w ss w₁) (h' : Visits w₁ ts w₂) : Visits w (ss ++ ts) w₂ := by
  induction h with
  | stay => exact h'
  | step hnext _ ih => exact .step hnext (ih h')

/-- Only the next step tells walks apart. -/
theorem of_next?_eq (h : Visits w₁ ss w₂) (hne : ss ≠ []) (hnext : w.next? = w₁.next?) :
    Visits w ss w₂ := by
  cases h with
  | stay => exact absurd rfl hne
  | step h hss => exact .step (hnext.trans h) hss

theorem visit_eq (h : Visits w ss w₂) (hend : w₂.next? = none) {n : Nat}
    (hn : ss.length ≤ n) : w.visit n = ss.map Spot.node := by
  induction h generalizing n with
  | stay w =>
    cases n with
    | zero => rfl
    | succ n => rw [visit, hend]; rfl
  | step hnext _ ih =>
    cases n with
    | zero => cases hn
    | succ n =>
      rw [visit, hnext]
      dsimp only
      rw [ih hend (Nat.le_of_succ_le_succ hn), List.map_cons]

end Visits

/-- A node without operands, or whose last operand has just been visited, is visited next. -/
theorem next?_of_last (below : List Spot) {last : Option (List Nat)}
    (h : ∀ c ∈ s.children.getLast?, last = some c.path) :
    next? ⟨s :: below, last⟩ = some (s, ⟨below, some s.path⟩) := by
  rw [next?, reach]
  split
  · rfl
  · next c cs hchildren =>
    rw [if_pos (h _ (by rw [hchildren]; exact List.getLast?_eq_some_getLast _))]

/-- The operands of any other node are put on the stack. -/
theorem next?_of_ne_last (below : List Spot) {last : Option (List Nat)} (hne : s.children ≠ [])
    (h : ∀ c ∈ s.children.getLast?, last ≠ some c.path) :
    next? ⟨s :: below, last⟩ = next? ⟨s.children ++ s :: below, last⟩ := by
  rw [next?, reach]
  split
  · next hchildren => exact absurd hchildren hne
  · next c cs hchildren =>
    rw [if_neg (h _ (by rw [hchildren]; exact List.getLast?_eq_some_getLast _)), hchildren]
    rfl

/-- The place that was visited last does not lie at or below a node. -/
def IsElsewhere (last : Option (List Nat)) (s : Spot) : Prop := ∀ path ∈ last, ¬s.path <:+ path

theorem IsElsewhere.operand {last : Option (List Nat)} {c : Spot} (h : IsElsewhere last s)
    (hc : c ∈ s.children) : IsElsewhere last c := by
  intro path hpath hsuffix
  obtain ⟨i, -, hci⟩ := Spot.mem_children.mp hc
  rw [hci] at hsuffix
  exact h path hpath ((List.suffix_cons i s.path).trans hsuffix)

/-- An operand of a node does not lie below another one. -/
theorem pairwise_isElsewhere (s : Spot) :
    s.children.Pairwise fun a b => IsElsewhere (some a.path) b := by
  refine s.pairwise_children.imp ?_
  rintro a b ⟨i, j, ha, hb, hlt⟩ path ⟨⟩ hsuffix
  rw [ha, hb] at hsuffix
  obtain rfl := (List.cons.inj (hsuffix.eq_of_length rfl)).1
  exact Nat.lt_irrefl j hlt

/-- Nodes next to each other are visited one after the other, each with all that is below it, if a
walk visits all that is below any of them. -/
theorem visits_siblings (below : List Spot)
    (hss : ∀ s ∈ ss, ∀ below last, IsElsewhere last s →
      Visits ⟨s :: below, last⟩ s.postOrder ⟨below, some s.path⟩)
    (hpairwise : ss.Pairwise fun a b => IsElsewhere (some a.path) b)
    {last : Option (List Nat)} (hlast : ∀ s ∈ ss, IsElsewhere last s) :
    Visits ⟨ss ++ below, last⟩ (ss.flatMap Spot.postOrder)
      ⟨below, (ss.getLast?.map Spot.path).or last⟩ := by
  induction ss generalizing last with
  | nil => exact .stay _
  | cons s ss ih =>
    obtain ⟨hs, hss⟩ := List.forall_mem_cons.mp hss
    obtain ⟨hright, hpairwise⟩ := List.pairwise_cons.mp hpairwise
    have hothers := ih hss hpairwise hright
    rw [List.flatMap_cons, List.getLast?_cons]
    refine (hs (ss ++ below) last (hlast s List.mem_cons_self)).trans ?_
    cases hlast : ss.getLast? <;> simpa [hlast] using hothers

/-- Whatever else is on the stack, a walk visits all that is at or below its first node, unless it
has just been there. -/
theorem visits_postOrder (s : Spot) (below : List Spot) (last : Option (List Nat))
    (hlast : IsElsewhere last s) :
    Visits ⟨s :: below, last⟩ s.postOrder ⟨below, some s.path⟩ := by
  induction s using Spot.operandInduction generalizing below last with
  | h s ih =>
    have hoperand : ∀ c ∈ s.children, IsElsewhere last c := fun c hc => hlast.operand hc
    have hoperands := visits_siblings (s :: below) ih (pairwise_isElsewhere s) hoperand
    have hself : Visits ⟨s :: below, (s.children.getLast?.map Spot.path).or last⟩ [s]
        ⟨below, some s.path⟩ := by
      refine .step (next?_of_last below fun c hc => ?_) (.stay _)
      rw [hc]
      rfl
    rw [Spot.postOrder_eq]
    refine Visits.trans ?_ hself
    by_cases hne : s.children = []
    · rw [hne] at hoperands ⊢
      exact hoperands
    · refine hoperands.of_next?_eq ?_ (next?_of_ne_last below hne fun c hc heq => ?_)
      · obtain ⟨c, hc⟩ := List.exists_mem_of_ne_nil _ hne
        intro hnil
        have hempty := List.flatMap_eq_nil_iff.mp hnil c hc
        rw [Spot.postOrder_eq] at hempty
        exact List.append_ne_nil_of_right_ne_nil _ (List.cons_ne_nil c []) hempty
      · exact hoperand c (List.mem_of_getLast? hc) c.path heq List.suffix_rfl

end Walk

/-- A walk from the root goes through all places. -/
theorem Walk.visits_start (e : Expr) :
    (Walk.start e).Visits (Spot.postOrder ⟨[], e⟩) ⟨[], some []⟩ :=
  visits_postOrder ⟨[], e⟩ [] none fun _ hpath => by cases hpath

theorem Expr.nodes_eq (e : Expr) : e.nodes = e.postOrder := by
  have hnodes : (Spot.postOrder ⟨[], e⟩).map Spot.node = e.postOrder :=
    Spot.map_node_postOrder ⟨[], e⟩
  have hlength : (Spot.postOrder ⟨[], e⟩).length = e.size := by
    rw [← Expr.length_postOrder, ← hnodes, List.length_map]
  rw [nodes, (Walk.visits_start e).visit_eq rfl (Nat.le_of_eq hlength), hnodes]

/-- A walk from the root visits every place in the tree exactly once and then ends. The places
come from the bottom up and from left to right, the root last, as in the recursive traversal; so
the nodes that are listed are those of the recursive traversal too. -/
theorem walk_postOrder (e : Expr) :
    (∃ w, (Walk.start e).Visits (Spot.postOrder ⟨[], e⟩) w ∧ w.next? = none) ∧
    (∀ s : Spot, s ∈ Spot.postOrder ⟨[], e⟩ ↔ e.at? s.path = some s.node) ∧
    ((Spot.postOrder ⟨[], e⟩).map Spot.path).Nodup ∧
    (Spot.postOrder ⟨[], e⟩).Pairwise (fun a b => ComesBefore a.path b.path) ∧
    (Spot.postOrder ⟨[], e⟩).getLast? = some ⟨[], e⟩ ∧
    (Spot.postOrder ⟨[], e⟩).map Spot.node = e.postOrder ∧ e.nodes = e.postOrder := by
  refine ⟨⟨_, Walk.visits_start e, rfl⟩, fun s => ?_, Spot.nodup_postOrder _,
    Spot.pairwise_postOrder _, ?_, Spot.map_node_postOrder _, e.nodes_eq⟩
  · rw [Spot.mem_postOrder]
    simp
  · rw [Spot.postOrder_eq, List.getLast?_append]
    rfl

end CurveGuess
