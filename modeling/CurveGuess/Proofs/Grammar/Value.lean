import CurveGuess.Comparison
import CurveGuess.Proofs.Grammar.Calls

/-!
# The value of a shape

Where a formula has a value, its shape tells which, and neither the groups nor the spelling of the
shape matter. So formulas that differ in nothing else cannot be told apart by their samples.
-/
namespace CurveGuess

variable {R : Type}

namespace Shape

mutual

/-- A shape without its groups. -/
def ungrouped : Shape → Shape
  | .number v => .number v
  | .symbol s => .symbol s
  | .group _ e => e.ungrouped
  | .call name f d es => .call name f d (allUngrouped es)
  | .unary k e => .unary k e.ungrouped
  | .binary k i a b => .binary k i a.ungrouped b.ungrouped

def allUngrouped : List Shape → List Shape
  | [] => []
  | e :: es => e.ungrouped :: allUngrouped es

end

/-- A shape without its groups and up to the spelling of calls and products. -/
def bare (e : Shape) : Shape := e.plain.ungrouped

theorem bare_binary (k : BinaryKind) (i : Bool) (a b : Shape) :
    (binary k i a b).bare = .binary k false a.bare b.bare := rfl

end Shape

variable [Arithmetic R]

theorem toOption_finite (v : R) (s : Span) :
    (finite v s).toOption = (some v).filter fun v => Arithmetic.isFinite v := by
  unfold finite
  by_cases h : Arithmetic.isFinite v = true <;> simp [h, Except.toOption, Option.filter]

namespace Builtin

/-- The value of a function, if it is defined and finite. -/
def result? (f : Builtin) (v : R) : Option R :=
  (f.apply v ⟨0, 0⟩).toOption.filter fun v => Arithmetic.isFinite v

/-- The value of a call with these values as arguments. -/
def value? (f : Builtin) : List (Option R) → Option R
  | [v] => v.bind f.result?
  | _ => none

/-- The place of a call only matters for its fault. -/
theorem toOption_apply (f : Builtin) (v : R) (s : Span) :
    (f.apply v s >>= fun v => finite v s).toOption = f.result? v := by
  have hplace : (f.apply v s).toOption = (f.apply v ⟨0, 0⟩).toOption := by
    unfold apply
    split <;> (try split) <;> rfl
  rw [result?, ← hplace]
  cases f.apply v s with
  | error => rfl
  | ok v => exact toOption_finite v s

theorem lookup?_plainName (name : String) : lookup? (plainName name) = lookup? name := by
  unfold plainName
  split
  · next h => rw [h]; rfl
  · rfl

end Builtin

namespace Shape

mutual

/-- The value of a shape in a context, if it has one. -/
def value? (ctx : Context R) : Shape → Option R
  | .number v => some (Arithmetic.ofNumeral v)
  | .symbol s => ctx.get? s
  | .group _ e => e.value? ctx
  | .call name _ _ es => (Builtin.lookup? name).bind fun f => f.value? (values ctx es)
  | .unary k e => (e.value? ctx).map k.apply
  | .binary k _ a b =>
    (a.value? ctx).bind fun v => (b.value? ctx).bind fun w =>
      (some (k.apply v w)).filter fun v => Arithmetic.isFinite v

def values (ctx : Context R) : List Shape → List (Option R)
  | [] => []
  | e :: es => e.value? ctx :: values ctx es

end

mutual

theorem value?_plain (ctx : Context R) : ∀ e : Shape, e.plain.value? ctx = e.value? ctx
  | .number _ | .symbol _ => rfl
  | .group _ e => value?_plain ctx e
  | .call name _ _ es => by
    simp only [plain, value?, Builtin.lookup?_plainName, values_plains ctx es]
  | .unary _ e => by
    simp only [plain, value?, value?_plain ctx e]
  | .binary _ _ a b => by
    simp only [plain, value?, value?_plain ctx a, value?_plain ctx b]

theorem values_plains (ctx : Context R) :
    ∀ es : List Shape, values ctx (plains es) = values ctx es
  | [] => rfl
  | e :: es => by
    simp only [plains, values, value?_plain ctx e, values_plains ctx es]

end

mutual

theorem value?_ungrouped (ctx : Context R) : ∀ e : Shape, e.ungrouped.value? ctx = e.value? ctx
  | .number _ | .symbol _ => rfl
  | .group _ e => value?_ungrouped ctx e
  | .call _ _ _ es => by
    simp only [ungrouped, value?, values_allUngrouped ctx es]
  | .unary _ e => by
    simp only [ungrouped, value?, value?_ungrouped ctx e]
  | .binary _ _ a b => by
    simp only [ungrouped, value?, value?_ungrouped ctx a, value?_ungrouped ctx b]

theorem values_allUngrouped (ctx : Context R) :
    ∀ es : List Shape, values ctx (allUngrouped es) = values ctx es
  | [] => rfl
  | e :: es => by
    simp only [allUngrouped, values, value?_ungrouped ctx e, values_allUngrouped ctx es]

end

theorem value?_bare (ctx : Context R) (e : Shape) : e.bare.value? ctx = e.value? ctx := by
  rw [bare, value?_ungrouped, value?_plain]

end Shape

/-- Without any text there is no formula. -/
theorem Formula.ne_empty_of_read {s : String} {f : Formula} (h : Formula.read s = .ok f) :
    s ≠ "" := by
  cases hparse : parse s with
  | error g => simp [Formula.read, hparse, Except.map] at h
  | ok e => exact ne_empty_of_parse hparse

namespace Expr

theorem toOption_call (ctx : Context R) (i : Ident) (b : Bool) (d : Delimiter) (args : List Expr)
    (s : Span) : ((call i b d args s).eval ctx).toOption = (Builtin.lookup? i.name).bind fun f =>
      f.value? (args.map fun e => (e.eval ctx).toOption) := by
  rw [eval.eq_def]
  dsimp only
  cases Builtin.lookup? i.name with
  | none => rfl
  | some f =>
    cases args with
    | nil => rfl
    | cons arg args =>
      cases args with
      | cons => rfl
      | nil =>
        change (arg.eval ctx >>= fun v => f.apply v s >>= fun v => finite v s).toOption =
          f.value? [(arg.eval ctx).toOption]
        cases arg.eval ctx with
        | error => rfl
        | ok v => exact f.toOption_apply v s

mutual

/-- Evaluation gives the value of the shape. -/
theorem toOption_eval (ctx : Context R) : ∀ e : Expr, (e.eval ctx).toOption = e.shape.value? ctx
  | .number _ _ => rfl
  | .symbol i => by
    rw [eval, shape, Shape.value?]
    cases ctx.get? i.name <;> rfl
  | .group _ e _ => toOption_eval ctx e
  | .call i b d args s => by
    rw [toOption_call, map_toOption_eval ctx args, shape, Shape.value?]
  | .unary op e _ => by
    rw [eval, shape, Shape.value?, ← toOption_eval ctx e]
    cases e.eval ctx <;> rfl
  | .binary op l r s => by
    rw [eval, shape, Shape.value?, ← toOption_eval ctx l, ← toOption_eval ctx r]
    cases l.eval ctx with
    | error => rfl
    | ok v =>
      cases r.eval ctx with
      | error => rfl
      | ok w => exact toOption_finite _ s

theorem map_toOption_eval (ctx : Context R) :
    ∀ es : List Expr, (es.map fun e => (e.eval ctx).toOption) = Shape.values ctx (shapes es)
  | [] => rfl
  | e :: es => by
    simp only [List.map_cons, shapes, Shape.values, toOption_eval ctx e, map_toOption_eval ctx es]

end

/-- Formulas of the same bare shape have the same values. -/
theorem toOption_eval_congr {e e' : Expr} (h : e'.shape.bare = e.shape.bare) (ctx : Context R) :
    (e'.eval ctx).toOption = (e.eval ctx).toOption := by
  rw [toOption_eval, toOption_eval, ← Shape.value?_bare, h, Shape.value?_bare]

end Expr

namespace Tally

/-- Of a guess only its value counts. -/
theorem count_congr (s : Sampling R) {g g' : Except (EvalFault R) R}
    (h : g'.toOption = g.toOption) (y : Except (EvalFault R) R) (t : Tally) :
    count s g' y t = count s g y t := by
  cases g <;> cases g' <;> simp_all [count, Except.toOption]

theorem compare_congr {g g' : Formula} (h : g'.expr.shape.bare = g.expr.shape.bare) (f : Formula)
    (s : Sampling R) : compare g' f s = compare g f s := by
  have hstep : step s g' f = step s g f := by
    funext state x
    have heval := Expr.toOption_eval_congr h (state.1.setX x)
    simp only [step, count_congr s heval]
  rw [compare, hstep, compare]

end Tally

end CurveGuess
