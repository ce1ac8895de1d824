import CurveGuess.Expr.Basic

/-!
# Going through a tree

A walk visits the nodes of a tree one at a time, operands before the node they belong to and from
left to right. It keeps the nodes whose turn has not come and the place it has visited last, and it
tells nodes apart by their places, so that equal parts of a tree are no trouble.
-/
namespace CurveGuess

namespace Expr

/-- The operands of a node, from left to right. -/
def children : Expr → List Expr
  | number _ _ => []
  | symbol _ => []
  | group _ e _ => [e]
  | call _ _ _ args _ => args
  | unary _ e _ => [e]
  | binary _ l r _ => [l, r]

theorem sizeOf_lt_of_mem_children {e c : Expr} (h : c ∈ e.children) : sizeOf c < sizeOf e := by
  cases e with
  | number | symbol => simp [children] at h
  | group | unary =>
    obtain rfl := List.mem_singleton.1 h
    simp
    omega
  | call _ _ _ args _ =>
    have := List.sizeOf_lt_of_mem (show c ∈ args from h)
    simp
    omega
  | binary =>
    simp only [children, List.mem_cons, List.not_mem_nil, or_false] at h
    rcases h with rfl | rfl <;> simp <;> omega

/-- The number of nodes. -/
def size (e : Expr) : Nat := 1 + (e.children.attach.map fun c => c.1.size).foldr (· + ·) 0
  termination_by sizeOf e
  decreasing_by exact sizeOf_lt_of_mem_children c.2

/-- All nodes, operands first. -/
def postOrder (e : Expr) : List Expr :=
  (e.children.attach.map fun c => c.1.postOrder).flatten ++ [e]
  termination_by sizeOf e
  decreasing_by exact sizeOf_lt_of_mem_children c.2

theorem postOrder_eq (e : Expr) : e.postOrder = e.children.flatMap postOrder ++ [e] := by
  rw [postOrder]
  simp [List.flatMap]

end Expr

/-- A node at its place: the numbers of the operands to go down to, the last one first. -/
structure Spot where
  path : List Nat
  node : Expr
  deriving Inhabited

def Spot.children (s : Spot) : List Spot :=
  s.node.children.mapIdx fun i e => ⟨i :: s.path, e⟩

/-- A walk under way. -/
structure Walk where
  pending : List Spot
  last : Option (List Nat)

namespace Walk

def start (e : Expr) : Walk := ⟨[⟨[], e⟩], none⟩

theorem sizeOf_first {s c : Spot} {cs : List Spot} (h : s.children = c :: cs) :
    sizeOf c.node < sizeOf s.node := by
  apply Expr.sizeOf_lt_of_mem_children
  have hc : c ∈ s.children := by simp [h]
  simp only [Spot.children, List.mem_mapIdx] at hc
  obtain ⟨i, hi, rfl⟩ := hc
  simp

/-- The next node to visit at or below `s`: one whose last operand has just been visited, or that
has none. -/
def reach (last : Option (List Nat)) (s : Spot) (below : List Spot) : Spot × Walk :=
  match h : s.children with
  | [] => (s, ⟨below, some s.path⟩)
  | c :: cs =>
    if last = some ((c :: cs).getLast (by simp)).path then (s, ⟨below, some s.path⟩)
    else reach last c (cs ++ s :: below)
  termination_by sizeOf s.node
  decreasing_by exact sizeOf_first h

/-- Visits a node. -/
def next? : Walk → Option (Spot × Walk)
  | ⟨[], _⟩ => none
  | ⟨s :: below, last⟩ => some (reach last s below)

/-- The next `n` nodes. -/
def visit : Nat → Walk → List Expr
  | 0, _ => []
  | n + 1, w =>
    match w.next? with
    | none => []
    | some (s, w') => s.node :: visit n w'

end Walk

/-- The nodes of a tree in the order of a walk. -/
def Expr.nodes (e : Expr) : List Expr := (Walk.start e).visit e.size

end CurveGuess
