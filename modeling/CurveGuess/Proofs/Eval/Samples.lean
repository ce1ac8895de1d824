import CurveGuess.Proofs.Eval.Names

/-!
# Samples one by one

A comparison hands one context from sample to sample and from the one formula to the other, but
nothing is passed on in it: a value depends only on the names that occur in the formula, `x` is set
before each evaluation, and the constants stay as they are. So a comparison counts what every sample
gives for itself, and a formula with a finite value is always close to itself.
-/
namespace CurveGuess

variable {R : Type} [Arithmetic R]

namespace Expr

/-- The value of a formula depends only on the names in it. -/
theorem eval_congr {ctx ctx' : Context R} {e : Expr}
    (h : ∀ i, symbol i ∈ e.postOrder → ctx.get? i.name = ctx'.get? i.name) :
    e.eval ctx = e.eval ctx' := by
  have hchildren : ∀ c ∈ e.children, c.eval ctx = c.eval ctx' := fun c hc =>
    eval_congr fun i hi => h i (mem_postOrder.mpr (.inr ⟨c, hc, hi⟩))
  cases e with
  | number v s => rfl
  | symbol i => rw [eval, eval, h i (mem_postOrder.mpr (.inl rfl))]
  | group d e s => rw [eval, eval, hchildren e List.mem_cons_self]
  | call i b d args s =>
    rw [eval.eq_def, eval.eq_def]
    dsimp only
    cases Builtin.lookup? i.name with
    | none => rfl
    | some f =>
      rcases args with _ | ⟨arg, _ | _⟩
      · rfl
      · dsimp only
        rw [hchildren arg List.mem_cons_self]
      · rfl
  | unary op e s => rw [eval, eval, hchildren e List.mem_cons_self]
  | binary op l r s =>
    rw [eval, eval, hchildren l List.mem_cons_self,
      hchildren r (List.mem_cons_of_mem _ List.mem_cons_self)]
  termination_by sizeOf e
  decreasing_by exact sizeOf_lt_of_mem_children hc

end Expr

namespace Context

/-- Do all names but `x` have the values that they have at first? -/
def IsFresh (c : Context R) : Prop := ∀ name ≠ variableName, c.get? name = constants.get? name

theorem isFresh_constants : (constants : Context R).IsFresh := fun _ _ => rfl

theorem IsFresh.setX {c : Context R} (h : c.IsFresh) (x : R) : (c.setX x).IsFresh := by
  intro name hname
  rw [Context.setX, get?_set, if_neg hname, h name hname]

theorem IsFresh.get?_setX {c : Context R} (h : c.IsFresh) (x : R) (name : String) :
    (c.setX x).get? name = (ofX x).get? name := by
  rw [ofX, Context.setX, Context.setX, get?_set, get?_set]
  by_cases hname : name = variableName
  · rw [if_pos hname, if_pos hname]
  · rw [if_neg hname, if_neg hname, h name hname]

end Context

namespace Formula

theorem eval_setX {ctx : Context R} (h : ctx.IsFresh) (f : Formula) (x : R) :
    f.expr.eval (ctx.setX x) = f.evalAt x :=
  Expr.eval_congr fun i _ => h.get?_setX x i.name

/-- The values of two formulas at a point, each in a context of its own, if both are finite. -/
def pairAt (f g : Formula) (x : R) : Option (R × R) :=
  match f.evalAt x, g.evalAt x with
  | .ok v, .ok w => if Arithmetic.isFinite v && Arithmetic.isFinite w then some (v, w) else none
  | _, _ => none

theorem pairAt_self {f : Formula} {x : R} {p : R × R} (h : f.pairAt f x = some p) :
    p.1 = p.2 ∧ Arithmetic.isFinite p.2 = true := by
  rw [pairAt] at h
  cases heval : f.evalAt x with
  | error => simp [heval] at h
  | ok v =>
    simp only [heval, Bool.and_self] at h
    split at h
    · next hfinite =>
      obtain rfl := Option.some.inj h
      exact ⟨rfl, hfinite⟩
    · cases h

end Formula

namespace Tally

variable {guess target : Formula} {s : Sampling R}

/-- Is a point a hit: are both formulas defined there, and close to each other? -/
def isHit (s : Sampling R) (guess target : Formula) (x : R) : Bool :=
  (guess.pairAt target x).any fun p => s.isWithin p.1 p.2

/-- One sample counts for itself, and leaves the context fresh. -/
theorem step_of_isFresh (s : Sampling R) (guess target : Formula) {state : Context R × Tally}
    (h : state.1.IsFresh) (x : R) :
    (step s guess target state x).1.IsFresh ∧ (step s guess target state x).2 =
      ⟨state.2.hits + (isHit s guess target x).toNat,
        state.2.valid + (guess.pairAt target x).isSome.toNat, state.2.samples⟩ := by
  refine ⟨(h.setX x).setX x, ?_⟩
  simp only [step, Formula.eval_setX h, Formula.eval_setX (h.setX x), isHit, Formula.pairAt]
  cases guess.evalAt x with
  | error => rfl
  | ok g =>
    cases target.evalAt x with
    | error => rfl
    | ok y =>
      simp only [count]
      split
      · cases hwithin : s.isWithin g y <;> simp [hwithin]
      · rfl

theorem foldl_step (xs : List R) {state : Context R × Tally} (h : state.1.IsFresh) :
    (xs.foldl (step s guess target) state).2 =
      ⟨state.2.hits + xs.countP (isHit s guess target),
        state.2.valid + xs.countP (fun x => (guess.pairAt target x).isSome), state.2.samples⟩ := by
  -- a fresh context is all that one sample hands to the next
  induction xs generalizing state with
  | nil => rfl
  | cons x xs ih =>
    have hcount (p : R → Bool) : (x :: xs).countP p = (p x).toNat + xs.countP p := by
      cases hp : p x <;> simp [hp, Nat.add_comm]
    obtain ⟨hfresh, hstep⟩ := step_of_isFresh s guess target h x
    rw [List.foldl_cons, ih hfresh, hstep, hcount, hcount, Nat.add_assoc, Nat.add_assoc]

theorem compare_eq (guess target : Formula) (s : Sampling R) :
    compare guess target s = ⟨s.points.countP (isHit s guess target),
      s.points.countP (fun x => (guess.pairAt target x).isSome), s.samples⟩ := by
  rw [compare, foldl_step s.points Context.isFresh_constants, Nat.zero_add, Nat.zero_add]

theorem isSome_of_isHit {x : R} (h : isHit s guess target x = true) :
    (guess.pairAt target x).isSome = true := by
  rw [isHit, Option.any_eq_true] at h
  obtain ⟨p, hp, -⟩ := h
  rw [hp]
  rfl

/-- Where a formula has a finite value, it is close to itself. -/
theorem isHit_self {f : Formula} {s : Sampling Float} (h : 0 < s.absTolerance) {x : Float}
    (hx : (f.pairAt f x).isSome = true) : isHit s f f x = true := by
  obtain ⟨⟨v, w⟩, hp⟩ := Option.isSome_iff_exists.mp hx
  obtain ⟨hsame, hfinite⟩ := Formula.pairAt_self hp
  obtain rfl : v = w := hsame
  have hlt : Arithmetic.lt (Arithmetic.ofNat 0) s.absTolerance = true := decide_eq_true h
  rw [isHit, hp, Option.any_some, Sampling.isWithin]
  dsimp only
  rw [Arithmetic.abs_sub_self hfinite, hlt, Bool.true_or]

/-- Samples count one by one. A comparison counts the points at which both formulas have finite
values, each in a context of its own, and of these the points at which the values are close. All
samples are in the denominator, and a formula is close to itself wherever it has a finite value. -/
theorem compare_pointwise (guess target : Formula) (s : Sampling Float) :
    compare guess target s = ⟨s.points.countP (isHit s guess target),
        s.points.countP (fun x => (guess.pairAt target x).isSome), s.samples⟩ ∧
      s.points.length = s.samples ∧
      (compare guess target s).hits ≤ (compare guess target s).valid ∧
      (compare guess target s).valid ≤ s.samples ∧
      (compare guess target s).ratio = (if s.samples = 0 then Arithmetic.ofNat 0
        else Arithmetic.ofNat (compare guess target s).hits / Arithmetic.ofNat s.samples : Float) ∧
      (0 < s.absTolerance → (compare target target s).hits = (compare target target s).valid) := by
  have hlength : s.points.length = s.samples := by
    rw [Sampling.points, List.length_map, List.length_range]
  rw [compare_eq, compare_eq target target]
  refine ⟨rfl, hlength, ?_, hlength ▸ List.countP_le_length, rfl, fun h => ?_⟩
  · exact List.countP_mono_left fun x _ => isSome_of_isHit
  · exact List.countP_congr fun x _ => ⟨isSome_of_isHit, isHit_self h⟩

/-- There is no value at the first standard sample, `-10`. It is in the denominator all the same. -/
theorem compare_pointwise_reciprocal :
    let f : Formula := ⟨"1/(x+10)", .binary ⟨.div, false, ⟨1, 2⟩⟩ (.number ⟨1, 0⟩ ⟨0, 1⟩)
      (.group .paren (.binary ⟨.add, false, ⟨4, 5⟩⟩ (.symbol ⟨"x", ⟨3, 4⟩⟩) (.number ⟨10, 0⟩ ⟨5, 7⟩)
        ⟨3, 7⟩) ⟨2, 8⟩) ⟨0, 8⟩⟩
    0 < Sampling.standard.absTolerance ∧
      (compare f f Sampling.standard).hits = (compare f f Sampling.standard).valid ∧
      (compare f f Sampling.standard).valid = 29 ∧ Sampling.standard.samples = 30 := by
  intro f
  have hpos : 0 < Sampling.standard.absTolerance := by decide +kernel
  obtain ⟨-, -, -, -, -, hself⟩ := compare_pointwise f f Sampling.standard
  exact ⟨hpos, hself hpos, by decide +kernel, rfl⟩

end Tally

end CurveGuess
