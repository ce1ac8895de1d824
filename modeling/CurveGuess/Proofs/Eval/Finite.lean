import CurveGuess.Proofs.Decimal.Packing
import CurveGuess.Proofs.Eval.Samples

/-!
# Finite values

Whether a value is finite is asked of calls and of operators between two operands only. A group
and a sign hand on what their operand is, numbers and variables are finite or not from the start,
and so nothing that is not finite comes out of a formula, or is lost inside it, unless it was put in.
-/
namespace CurveGuess

/-- The sign of a double does not matter for whether it is finite. -/
theorem Double.isFinite_neg (x : Float) : (-x).isFinite = x.isFinite := by
  have hunpack (y : Float) : y.isFinite = y.toModel.unpack.isFinite := rfl
  rw [hunpack, hunpack, unpack_neg]
  cases x.toModel.unpack <;> rfl

variable {R : Type} [Arithmetic R]

/-- Are all variables finite? -/
def Context.IsFinite (c : Context R) : Prop :=
  ∀ name v, c.get? name = some v → Arithmetic.isFinite v = true

theorem Context.IsFinite.set {c : Context R} (hc : c.IsFinite) (name : String) {v : R}
    (hv : Arithmetic.isFinite v = true) : (c.set name v).IsFinite := by
  intro other w hw
  rw [get?_set] at hw
  split at hw
  · obtain rfl := Option.some.inj hw
    exact hv
  · exact hc other w hw

theorem Context.isFinite_constants : (constants : Context Float).IsFinite := by
  intro name v hv
  rw [get?_constants] at hv
  split at hv
  · obtain rfl := Option.some.inj hv
    decide +kernel
  · split at hv
    · obtain rfl := Option.some.inj hv
      decide +kernel
    · cases hv

namespace Expr

variable (R) in
/-- Are all numbers in a formula finite when they are computed with? -/
def HasFiniteNumbers (e : Expr) : Prop :=
  ∀ v s, number v s ∈ e.postOrder → Arithmetic.isFinite (Arithmetic.ofNumeral v : R) = true

theorem HasFiniteNumbers.of_mem_postOrder {e node : Expr} (h : e.HasFiniteNumbers R)
    (hnode : node ∈ e.postOrder) : node.HasFiniteNumbers R :=
  fun v s hv => h v s (mem_postOrder_trans hnode hv)

theorem isFinite_of_finite {v w : R} {s : Span} (h : finite v s = .ok w) :
    Arithmetic.isFinite w = true := by
  unfold finite at h
  split at h
  · next hv =>
    obtain rfl := Except.ok.inj h
    exact hv
  · cases h

/-- One node has a finite value if its operands have finite values only. -/
theorem isFinite_of_operands
    (hneg : ∀ a : R, Arithmetic.isFinite a = true → Arithmetic.isFinite (-a) = true)
    {ctx : Context R} (hctx : ctx.IsFinite) {e : Expr} (he : e.HasFiniteNumbers R) {v : R}
    (h : e.eval ctx = .ok v)
    (ih : ∀ c ∈ e.children, ∀ w, c.eval ctx = .ok w → Arithmetic.isFinite w = true) :
    Arithmetic.isFinite v = true := by
  cases e with
  | number n s =>
    obtain rfl := Except.ok.inj h
    exact he n s (mem_postOrder.mpr (.inl rfl))
  | symbol i =>
    rw [eval] at h
    cases hget : ctx.get? i.name with
    | none =>
      rw [hget] at h
      cases h
    | some w =>
      rw [hget] at h
      obtain rfl := Except.ok.inj h
      exact hctx i.name w hget
  | group d e s => exact ih e List.mem_cons_self v h
  | call i b d args s =>
    obtain ⟨_, _, _, u, -, -, -, -, hfinite⟩ := eval_call_eq_ok.mp h
    exact isFinite_of_finite hfinite
  | unary op e s =>
    obtain ⟨a, ha, rfl⟩ := eval_unary_eq_ok.mp h
    have hfinite := ih e List.mem_cons_self a ha
    cases op.kind with
    | neg => exact hneg a hfinite
    | pos => exact hfinite
  | binary op l r s =>
    obtain ⟨a, b, -, -, hfinite⟩ := eval_binary_eq_ok.mp h
    exact isFinite_of_finite hfinite

theorem isFinite_of_eval
    (hneg : ∀ a : R, Arithmetic.isFinite a = true → Arithmetic.isFinite (-a) = true)
    {ctx : Context R} (hctx : ctx.IsFinite) {e : Expr} (he : e.HasFiniteNumbers R) {v : R}
    (h : e.eval ctx = .ok v) : Arithmetic.isFinite v = true :=
  isFinite_of_operands hneg hctx he h fun c hc _ hw =>
    have hnode : c ∈ e.postOrder := mem_postOrder.mpr (.inr ⟨c, hc, mem_postOrder.mpr (.inl rfl)⟩)
    isFinite_of_eval hneg hctx (he.of_mem_postOrder hnode) hw
  termination_by sizeOf e
  decreasing_by exact sizeOf_lt_of_mem_children hc

/-- Nothing that is not finite passes through a formula: if a sign keeps numbers finite, then
with finite numbers and variables the value of a formula and the values of all its parts are finite.
And its value or its fault depends only on the variables in it, not on the names of its functions. -/
theorem eval_finite (e : Expr) (ctx : Context R) :
    ((∀ a : R, Arithmetic.isFinite a = true → Arithmetic.isFinite (-a) = true) →
      e.HasFiniteNumbers R → ctx.IsFinite → ∀ v, e.eval ctx = .ok v →
        Arithmetic.isFinite v = true ∧
          ∀ node ∈ e.postOrder, ∃ w, node.eval ctx = .ok w ∧ Arithmetic.isFinite w = true) ∧
    ∀ ctx' : Context R,
      (∀ i, symbol i ∈ e.postOrder → ctx.get? i.name = ctx'.get? i.name) →
        e.eval ctx = e.eval ctx' := by
  constructor
  · intro hneg he hctx v hv
    refine ⟨isFinite_of_eval hneg hctx he hv, fun node hnode => ?_⟩
    obtain ⟨w, hw⟩ := exists_eval_of_mem_postOrder hv hnode
    exact ⟨w, hw, isFinite_of_eval hneg hctx (he.of_mem_postOrder hnode) hw⟩
  · intro ctx' hagree
    exact eval_congr hagree

/-- The size of `-x`, and two more. -/
def sizeAndTwo : Expr :=
  .binary ⟨.add, false, ⟨7, 8⟩⟩
    (.call ⟨"abs", ⟨0, 3⟩⟩ false .paren
      [.unary ⟨.neg, ⟨4, 5⟩⟩ (.symbol ⟨"x", ⟨5, 6⟩⟩) ⟨4, 6⟩] ⟨0, 7⟩)
    (.number ⟨2, 0⟩ ⟨8, 9⟩) ⟨0, 9⟩

/-- A variable with the name of a function makes no difference, although it is infinite. -/
theorem eval_finite_size :
    ∃ v, sizeAndTwo.eval (.ofX (3 : Float)) = .ok v ∧ Arithmetic.isFinite v = true ∧
      (∀ node ∈ sizeAndTwo.postOrder, ∃ w, node.eval (.ofX (3 : Float)) = .ok w ∧
        Arithmetic.isFinite w = true) ∧
      sizeAndTwo.eval (.ofX (3 : Float)) =
        sizeAndTwo.eval ((Context.ofX (3 : Float)).set "abs" (1 / 0)) := by
  have hneg : ∀ a : Float, Arithmetic.isFinite a = true → Arithmetic.isFinite (-a) = true :=
    fun a ha => (Double.isFinite_neg a).trans ha
  have hnumbers : sizeAndTwo.HasFiniteNumbers Float := by
    have htwo : Arithmetic.isFinite (Arithmetic.ofNumeral ⟨2, 0⟩ : Float) = true := by
      decide +kernel
    intro v s hv
    have hvalue : v = ⟨2, 0⟩ := by
      simp [sizeAndTwo, postOrder_eq, children] at hv
      exact hv.1
    rw [hvalue]
    exact htwo
  have hctx : (Context.ofX (3 : Float)).IsFinite :=
    Context.isFinite_constants.set _ (by decide +kernel)
  have hagree : ∀ i, symbol i ∈ sizeAndTwo.postOrder → (Context.ofX (3 : Float)).get? i.name =
      ((Context.ofX (3 : Float)).set "abs" (1 / 0)).get? i.name := by
    intro i hi
    have hname : i.name ≠ "abs" := by
      simp [sizeAndTwo, postOrder_eq, children] at hi
      simp [hi]
    rw [Context.get?_set, if_neg hname]
  have hsome : (sizeAndTwo.eval (.ofX (3 : Float))).toOption.isSome = true := by decide +kernel
  obtain ⟨hfinite, hcongr⟩ := eval_finite sizeAndTwo (Context.ofX (3 : Float))
  cases heval : sizeAndTwo.eval (.ofX (3 : Float)) with
  | error f =>
    rw [heval] at hsome
    cases hsome
  | ok v =>
    obtain ⟨hv, hnodes⟩ := hfinite hneg hnumbers hctx v heval
    exact ⟨v, rfl, hv, hnodes, heval.symm.trans (hcongr _ hagree)⟩

end Expr

end CurveGuess
