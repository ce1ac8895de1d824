import CurveGuess.Comparison
import CurveGuess.Expr.Traversal
import CurveGuess.Proofs.Decimal.Whole

/-!
# Names that mean nothing

A formula has no value if there is anywhere in it a symbol besides `x` and the constants, or a call
of no function or with another number of arguments than one. The fault cannot be hidden by its
surroundings, since a node has a value only if all its operands have one, and so such a formula gets
no sample right. In any other formula only values can be at fault.
-/
namespace CurveGuess

variable {R : Type}

section
variable {E A B : Type} {x : Except E A} {f : A → Except E B}

theorem bind_eq_ok {b : B} : x >>= f = .ok b ↔ ∃ a, x = .ok a ∧ f a = .ok b := by
  cases x <;> simp [bind, Except.bind]

theorem bind_eq_error {e : E} :
    x >>= f = .error e ↔ x = .error e ∨ ∃ a, x = .ok a ∧ f a = .error e := by
  cases x <;> simp [bind, Except.bind]

end

namespace Context

/-- The names that have values when a formula is evaluated. -/
def names : List String := [variableName, "pi", "e"]

theorem get?_set (c : Context R) (name : String) (v : R) (other : String) :
    (c.set name v).get? other = if other = name then some v else c.get? other := by
  by_cases h : other = name
  · rw [if_pos h, h, get?, set, List.lookup_cons_self]
  · rw [if_neg h, get?, set, List.lookup_cons, beq_false_of_ne h, get?]
    induction c.values with
    | nil => rfl
    | cons p ps ih =>
      obtain ⟨key, w⟩ := p
      by_cases hkey : key = name
      · have hother : (other == key) = false := beq_false_of_ne (hkey ▸ h)
        simpa [hkey, List.lookup_cons, hkey ▸ hother] using ih
      · cases hother : other == key <;> simp_all [List.lookup_cons]

/-- Has nothing else a value in a context? -/
def IsClosed (c : Context R) : Prop := ∀ name, (c.get? name).isSome → name ∈ names

theorem IsClosed.setX {c : Context R} (hc : c.IsClosed) (x : R) : (c.setX x).IsClosed := by
  intro name h
  rw [Context.setX, get?_set] at h
  split at h
  · next hname => simp [hname, names]
  · exact hc name h

variable [Arithmetic R]

theorem get?_constants (name : String) : (constants : Context R).get? name =
    if name = "pi" then some Arithmetic.pi else if name = "e" then some Arithmetic.euler
    else none := by
  by_cases hpi : name = "pi"
  · rw [hpi]
    rfl
  · by_cases he : name = "e"
    · rw [he]
      rfl
    · rw [if_neg hpi, if_neg he, get?, constants, List.lookup_cons, beq_false_of_ne hpi,
        List.lookup_cons, beq_false_of_ne he]
      rfl

theorem isClosed_constants : (constants : Context R).IsClosed := by
  intro name h
  rw [get?_constants] at h
  by_cases hpi : name = "pi"
  · simp [hpi, names]
  · by_cases he : name = "e"
    · simp [he, names]
    · simp [hpi, he] at h

theorem isSome_get?_ofX (x : R) {name : String} (h : name ∈ names) :
    ((ofX x).get? name).isSome := by
  rw [ofX, setX, get?_set, get?_constants]
  obtain rfl | rfl | rfl : name = variableName ∨ name = "pi" ∨ name = "e" := by
    simpa [names] using h
  all_goals rfl

end Context

theorem Builtin.isSome_lookup? {name : String} :
    (lookup? name).isSome ↔ name ∈ table.map Prod.fst := by
  rw [lookup?, List.lookup_isSome_iff]
  simp

namespace Expr

/-- Is a node a symbol without a value, or a call that cannot be made? -/
def IsIllFormed : Expr → Prop
  | .symbol i => i.name ∉ Context.names
  | .call i _ _ args _ => i.name ∉ Builtin.table.map Prod.fst ∨ args.length ≠ 1
  | _ => False

theorem mem_postOrder {e node : Expr} :
    node ∈ e.postOrder ↔ node = e ∨ ∃ c ∈ e.children, node ∈ c.postOrder := by
  rw [postOrder_eq, List.mem_append, List.mem_flatMap, List.mem_singleton, or_comm]

theorem forall_mem_postOrder {e : Expr} {P : Expr → Prop} : (∀ node ∈ e.postOrder, P node) ↔
    P e ∧ ∀ c ∈ e.children, ∀ node ∈ c.postOrder, P node := by
  rw [postOrder_eq, List.forall_mem_append, List.forall_mem_flatMap, List.forall_mem_singleton,
    and_comm]

/-- The nodes of a node of a tree are nodes of the tree. -/
theorem mem_postOrder_trans {e node other : Expr} (hnode : node ∈ e.postOrder)
    (hother : other ∈ node.postOrder) : other ∈ e.postOrder := by
  obtain rfl | ⟨c, hc, hnode⟩ := mem_postOrder.mp hnode
  · exact hother
  · exact mem_postOrder.mpr (.inr ⟨c, hc, mem_postOrder_trans hnode hother⟩)
  termination_by sizeOf e
  decreasing_by exact sizeOf_lt_of_mem_children hc

variable [Arithmetic R] {ctx : Context R}

theorem eval_call_eq_ok {i : Ident} {b : Bool} {d : Delimiter} {args : List Expr} {s : Span}
    {v : R} :
    (call i b d args s).eval ctx = .ok v ↔ ∃ f arg w u, Builtin.lookup? i.name = some f ∧
      args = [arg] ∧ arg.eval ctx = .ok w ∧ f.apply w s = .ok u ∧ finite u s = .ok v := by
  rw [eval.eq_def]
  dsimp only
  cases Builtin.lookup? i.name with
  | none => simp
  | some f => rcases args with _ | ⟨arg, _ | _⟩ <;> simp [bind_eq_ok]

theorem eval_binary_eq_ok {op : BinaryOp} {l r : Expr} {s : Span} {v : R} :
    (binary op l r s).eval ctx = .ok v ↔ ∃ a b, l.eval ctx = .ok a ∧ r.eval ctx = .ok b ∧
      finite (op.kind.apply a b) s = .ok v := by
  rw [eval.eq_def]
  simp [bind_eq_ok]

theorem eval_unary_eq_ok {op : UnaryOp} {e : Expr} {s : Span} {v : R} :
    (unary op e s).eval ctx = .ok v ↔ ∃ a, e.eval ctx = .ok a ∧ op.kind.apply a = v := by
  rw [eval.eq_def]
  simp [bind_eq_ok, pure, Except.pure]

/-- A node has a value only if its operands have. -/
theorem exists_eval_of_mem_children {e c : Expr} {v : R} (h : e.eval ctx = .ok v)
    (hc : c ∈ e.children) : ∃ w, c.eval ctx = .ok w := by
  cases e with
  | number | symbol => cases hc
  | group d e s =>
    obtain rfl := List.mem_singleton.mp hc
    exact ⟨v, h⟩
  | call i b d args s =>
    obtain ⟨f, arg, w, u, -, rfl, harg, -⟩ := eval_call_eq_ok.mp h
    obtain rfl := List.mem_singleton.mp hc
    exact ⟨w, harg⟩
  | unary op e s =>
    obtain ⟨a, he, -⟩ := eval_unary_eq_ok.mp h
    obtain rfl := List.mem_singleton.mp hc
    exact ⟨a, he⟩
  | binary op l r s =>
    obtain ⟨a, b, hl, hr, -⟩ := eval_binary_eq_ok.mp h
    obtain rfl | rfl : c = l ∨ c = r := by simpa [children] using hc
    · exact ⟨a, hl⟩
    · exact ⟨b, hr⟩

theorem not_isIllFormed_of_eval (hctx : ctx.IsClosed) {e : Expr} {v : R}
    (h : e.eval ctx = .ok v) : ¬e.IsIllFormed := by
  cases e with
  | symbol i =>
    have hname := hctx i.name
    rw [eval] at h
    cases hget : ctx.get? i.name with
    | none => simp [hget] at h
    | some w => exact not_not.mpr (hname (by rw [hget]; rfl))
  | call i b d args s =>
    obtain ⟨f, arg, w, u, hlookup, rfl, -⟩ := eval_call_eq_ok.mp h
    have hname := Builtin.isSome_lookup?.mp (Option.isSome_of_eq_some hlookup)
    simp [IsIllFormed, hname]
  | number | group | unary | binary => exact not_false

end Expr

/-- Is a cause that some value is none that is allowed, and nothing about names or arguments? -/
def EvalCause.IsOfValues (c : EvalCause R) : Prop :=
  (∃ v, c = .logOfNonPositive v) ∨ (∃ v, c = .sqrtOfNegative v) ∨ c = .nonReal

section
variable [Arithmetic R] {ctx : Context R}

theorem eq_of_finite {v : R} {s : Span} {f : EvalFault R} (h : finite v s = .error f) :
    f = ⟨.nonReal, s⟩ := by
  unfold finite at h
  split at h
  · cases h
  · exact (Except.error.inj h).symm

/-- Where a function has no value, the fault is shown at the call. -/
theorem Builtin.fault_of_apply {b : Builtin} {v : R} {s : Span} {f : EvalFault R}
    (h : b.apply v s = .error f) : f = ⟨.logOfNonPositive v, s⟩ ∨ f = ⟨.sqrtOfNegative v, s⟩ := by
  cases b with
  | ln =>
    simp only [apply] at h
    split at h
    · exact .inl (Except.error.inj h).symm
    · cases h
  | sqrt =>
    simp only [apply] at h
    split at h
    · exact .inr (Except.error.inj h).symm
    · cases h
  | _ => cases h

namespace Expr

/-- The node is at fault itself: it is a name without a value, a call that cannot be made, or it has
no value where its operands have theirs. -/
inductive Fails (ctx : Context R) : Expr → EvalFault R → Prop where
  | symbol {i} : ctx.get? i.name = none → Fails ctx (.symbol i) ⟨.undefinedVariable i.name, i.span⟩
  | function {i b d args s} : Builtin.lookup? i.name = none →
      Fails ctx (.call i b d args s) ⟨.undefinedFunction i.name, i.span⟩
  | missing {i b d s g} : Builtin.lookup? i.name = some g →
      Fails ctx (.call i b d [] s) ⟨.missingArgument g, s⟩
  | tooMany {i b d arg arg' args s g} : Builtin.lookup? i.name = some g →
      Fails ctx (.call i b d (arg :: arg' :: args) s) ⟨.tooManyArguments g (args.length + 2), s⟩
  | domain {i b d arg s g v f} : Builtin.lookup? i.name = some g → arg.eval ctx = .ok v →
      g.apply v s = .error f → Fails ctx (.call i b d [arg] s) f
  | result {i b d arg s g v u f} : Builtin.lookup? i.name = some g → arg.eval ctx = .ok v →
      g.apply v s = .ok u → finite u s = .error f → Fails ctx (.call i b d [arg] s) f
  | operator {op l r s a b f} : l.eval ctx = .ok a → r.eval ctx = .ok b →
      finite (op.kind.apply a b) s = .error f → Fails ctx (.binary op l r s) f

/-- At fault is a node itself or one of its operands. -/
theorem fails_or_operand {e : Expr} {f : EvalFault R} (h : e.eval ctx = .error f) :
    e.Fails ctx f ∨ ∃ c ∈ e.children, c.eval ctx = .error f := by
  cases e with
  | number => cases h
  | symbol i =>
    rw [eval] at h
    cases hget : ctx.get? i.name with
    | some v =>
      rw [hget] at h
      cases h
    | none =>
      rw [hget] at h
      cases h
      exact .inl (.symbol hget)
  | group d e s => exact .inr ⟨e, List.mem_singleton_self e, h⟩
  | call i b d args s =>
    rw [eval.eq_def] at h
    dsimp only at h
    cases hlookup : Builtin.lookup? i.name with
    | none =>
      rw [hlookup] at h
      cases h
      exact .inl (.function hlookup)
    | some g =>
      rw [hlookup] at h
      rcases args with _ | ⟨arg, _ | ⟨arg', args⟩⟩
      · cases h
        exact .inl (.missing hlookup)
      · obtain harg | ⟨v, harg, h⟩ := bind_eq_error.mp h
        · exact .inr ⟨arg, List.mem_singleton_self arg, harg⟩
        · obtain happly | ⟨u, happly, h⟩ := bind_eq_error.mp h
          · exact .inl (.domain hlookup harg happly)
          · exact .inl (.result hlookup harg happly h)
      · cases h
        exact .inl (.tooMany hlookup)
  | unary op e s =>
    rw [eval.eq_def] at h
    obtain he | ⟨a, -, h⟩ := bind_eq_error.mp h
    · exact .inr ⟨e, List.mem_singleton_self e, he⟩
    · cases h
  | binary op l r s =>
    rw [eval.eq_def] at h
    obtain hl | ⟨a, hl, h⟩ := bind_eq_error.mp h
    · exact .inr ⟨l, by simp [children], hl⟩
    · obtain hr | ⟨b, hr, h⟩ := bind_eq_error.mp h
      · exact .inr ⟨r, by simp [children], hr⟩
      · exact .inl (.operator hl hr h)

/-- A node fails for its form or for a value. -/
theorem Fails.isIllFormed_or (hctx : ∀ name ∈ Context.names, (ctx.get? name).isSome) {e : Expr}
    {f : EvalFault R} (h : e.Fails ctx f) : e.IsIllFormed ∨ f.cause.IsOfValues := by
  cases h with
  | symbol hget =>
    refine .inl fun hname => ?_
    have hsome := hctx _ hname
    rw [hget] at hsome
    cases hsome
  | function hlookup =>
    refine .inl (.inl fun hname => ?_)
    have hsome := Builtin.isSome_lookup?.mpr hname
    rw [hlookup] at hsome
    cases hsome
  | missing _ => exact .inl (.inr (by simp))
  | tooMany _ => exact .inl (.inr (by simp))
  | domain _ _ happly =>
    rcases Builtin.fault_of_apply happly with rfl | rfl
    · exact .inr (.inl ⟨_, rfl⟩)
    · exact .inr (.inr (.inl ⟨_, rfl⟩))
  | result _ _ _ hfinite | operator _ _ hfinite =>
    rw [eq_of_finite hfinite]
    exact .inr (.inr (.inr rfl))

/-- All nodes of a tree that has a value have values. -/
theorem exists_eval_of_mem_postOrder {e node : Expr} {v : R} (h : e.eval ctx = .ok v)
    (hnode : node ∈ e.postOrder) : ∃ w, node.eval ctx = .ok w := by
  obtain rfl | ⟨c, hc, hnode⟩ := mem_postOrder.mp hnode
  · exact ⟨v, h⟩
  · obtain ⟨w, hw⟩ := exists_eval_of_mem_children h hc
    exact exists_eval_of_mem_postOrder hw hnode
  termination_by sizeOf e
  decreasing_by exact sizeOf_lt_of_mem_children hc

/-- Nothing that a tree contains is ill-formed if the tree has a value. -/
theorem not_isIllFormed_of_mem_postOrder (hctx : ctx.IsClosed) {e node : Expr} {v : R}
    (h : e.eval ctx = .ok v) (hnode : node ∈ e.postOrder) : ¬node.IsIllFormed := by
  obtain ⟨w, hw⟩ := exists_eval_of_mem_postOrder h hnode
  exact not_isIllFormed_of_eval hctx hw

theorem exists_error_of_isIllFormed (hctx : ctx.IsClosed) {e node : Expr}
    (hnode : node ∈ e.postOrder) (hill : node.IsIllFormed) : ∃ f, e.eval ctx = .error f := by
  cases h : e.eval ctx with
  | ok v => exact absurd hill (not_isIllFormed_of_mem_postOrder hctx h hnode)
  | error f => exact ⟨f, rfl⟩

/-- There is always a node of the tree that is at fault. -/
theorem exists_fails {e : Expr} {f : EvalFault R} (h : e.eval ctx = .error f) :
    ∃ node ∈ e.postOrder, node.Fails ctx f := by
  obtain hfails | ⟨c, hc, hchild⟩ := fails_or_operand h
  · exact ⟨e, mem_postOrder.mpr (.inl rfl), hfails⟩
  · obtain ⟨node, hnode, hfails⟩ := exists_fails hchild
    exact ⟨node, mem_postOrder.mpr (.inr ⟨c, hc, hnode⟩), hfails⟩
  termination_by sizeOf e
  decreasing_by exact sizeOf_lt_of_mem_children hc

theorem isOfValues_of_eval (hctx : ∀ name ∈ Context.names, (ctx.get? name).isSome) {e : Expr}
    {f : EvalFault R} (he : ∀ node ∈ e.postOrder, ¬node.IsIllFormed) (h : e.eval ctx = .error f) :
    f.cause.IsOfValues := by
  obtain ⟨node, hnode, hfails⟩ := exists_fails h
  exact (hfails.isIllFormed_or hctx).resolve_left (he node hnode)

end Expr

namespace Tally

variable {guess target : Formula} {s : Sampling R}

/-- Samples at which the guess has no value leave the counts as they are. -/
theorem foldl_step_of_error
    (hguess : ∀ ctx : Context R, ctx.IsClosed → ∃ f, guess.expr.eval ctx = .error f) (xs : List R)
    (hctx : ctx.IsClosed) (t : Tally) : (xs.foldl (step s guess target) (ctx, t)).2 = t := by
  induction xs generalizing ctx with
  | nil => rfl
  | cons x xs ih =>
    obtain ⟨f, hf⟩ := hguess _ (hctx.setX x)
    rw [List.foldl_cons, step]
    simp only [hf, count]
    exact ih ((hctx.setX x).setX x)

theorem compare_of_isIllFormed {node : Expr} (hnode : node ∈ guess.expr.postOrder)
    (hill : node.IsIllFormed) : compare guess target s = ⟨0, 0, s.samples⟩ :=
  foldl_step_of_error (fun _ hctx => Expr.exists_error_of_isIllFormed hctx hnode hill) _
    Context.isClosed_constants _

theorem ratio_eq_zero {t : Tally} (h : t.hits = 0) : (t.ratio : Float) = 0 := by
  rw [ratio, h]
  split
  · rfl
  · next hsamples => exact Whole.zero_div (Nat.pos_of_ne_zero hsamples)

/-- Nothing is reached with a part of zero if the thresholds are not negative. -/
theorem outcome_eq_notClose {t : Tally} {s : Sampling Float} (h : t.hits = 0)
    (hsuccess : 0 ≤ s.successAbove) (hclose : 0 ≤ s.closeAbove) : t.outcome s = .notClose := by
  rw [outcome, ratio_eq_zero h, Sampling.classify, Arithmetic.lt_zero_of_le hsuccess,
    Arithmetic.lt_zero_of_le hclose]
  rfl

end Tally

end

/-- A guess with an ill-formed node anywhere in it gets no sample right and is never close to
anything. A guess without one only fails where some value is none that is allowed. -/
theorem compare_illFormed (guess : Formula) :
    ((∃ node ∈ guess.expr.postOrder, node.IsIllFormed) →
      ∀ (target : Formula) (s : Sampling Float),
        Tally.compare guess target s = ⟨0, 0, s.samples⟩ ∧
        (Tally.compare guess target s).ratio = (0 : Float) ∧
        (0 ≤ s.successAbove → 0 ≤ s.closeAbove →
          (Tally.compare guess target s).outcome s = .notClose)) ∧
    ((∀ node ∈ guess.expr.postOrder, ¬node.IsIllFormed) →
      ∀ (x : Float) (f : EvalFault Float), guess.evalAt x = .error f → f.cause.IsOfValues) := by
  constructor
  · rintro ⟨node, hnode, hill⟩ target s
    have htally : Tally.compare guess target s = ⟨0, 0, s.samples⟩ :=
      Tally.compare_of_isIllFormed hnode hill
    rw [htally]
    exact ⟨rfl, Tally.ratio_eq_zero rfl, Tally.outcome_eq_notClose rfl⟩
  · intro hwell x f h
    exact Expr.isOfValues_of_eval (fun _ => Context.isSome_get?_ofX x) hwell h

/-- The sine of twice a name that means nothing. -/
def sineOfUnknown : Formula where
  source := "sin(2y)"
  expr := .call ⟨"sin", ⟨0, 3⟩⟩ false .paren
    [.binary ⟨.mul, true, ⟨5, 5⟩⟩ (.number ⟨2, 0⟩ ⟨4, 5⟩) (.symbol ⟨"y", ⟨5, 6⟩⟩) ⟨4, 6⟩] ⟨0, 7⟩

/-- A formula without a value at `-1`. -/
def logarithm : Formula where
  source := "ln(x)"
  expr := .call ⟨"ln", ⟨0, 2⟩⟩ false .paren [.symbol ⟨"x", ⟨3, 4⟩⟩] ⟨0, 5⟩

theorem compare_illFormed_unknown :
    (∃ node ∈ sineOfUnknown.expr.postOrder, node.IsIllFormed) ∧
    Tally.compare sineOfUnknown logarithm Sampling.standard = ⟨0, 0, 30⟩ ∧
    (Tally.compare sineOfUnknown logarithm Sampling.standard).outcome Sampling.standard =
      .notClose ∧
    (∀ node ∈ logarithm.expr.postOrder, ¬node.IsIllFormed) ∧
    ∃ f : EvalFault Float, logarithm.evalAt (-1) = .error f ∧ f.cause.IsOfValues := by
  have hill : ∃ node ∈ sineOfUnknown.expr.postOrder, node.IsIllFormed := by
    refine ⟨.symbol ⟨"y", ⟨5, 6⟩⟩, ?_, ?_⟩
    · simp [sineOfUnknown, Expr.postOrder_eq, Expr.children]
    · simp [Expr.IsIllFormed, Context.names, Context.variableName]
  have hwell : ∀ node ∈ logarithm.expr.postOrder, ¬node.IsIllFormed := by
    simp [logarithm, Expr.postOrder_eq, Expr.children, Expr.IsIllFormed, Context.names,
      Context.variableName, Builtin.table]
  have hsuccess : 0 ≤ Sampling.standard.successAbove := by decide +kernel
  have hclose : 0 ≤ Sampling.standard.closeAbove := by decide +kernel
  obtain ⟨htally, -, houtcome⟩ :=
    (compare_illFormed sineOfUnknown).1 hill logarithm Sampling.standard
  have hfault : logarithm.evalAt (-1 : Float) = .error ⟨.logOfNonPositive (-1), ⟨0, 5⟩⟩ := by rfl
  exact ⟨hill, htally, houtcome hsuccess hclose, hwell, _, hfault,
    (compare_illFormed logarithm).2 hwell _ _ hfault⟩

end CurveGuess
