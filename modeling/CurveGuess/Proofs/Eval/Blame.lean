import CurveGuess.Proofs.Eval.Names
import CurveGuess.Proofs.Grammar.Places
import CurveGuess.Proofs.Grammar.Refusal

/-!
# What a fault points at

A text that is no formula and a formula without a value both come with one place in the text. For a
value that is missing this is the place of a node that has none although all its operands have one.
-/
namespace CurveGuess

variable {R : Type} [Arithmetic R]

/-- The fault points at the node, or at the name of a function that does not exist. If it is about a
value, the operands have values. -/
structure EvalFault.PointsAt (f : EvalFault R) (ctx : Context R) (node : Expr) : Prop where
  place : f.span = node.span ∨ ∃ i b d args s, node = .call i b d args s ∧
    f = ⟨.undefinedFunction i.name, i.span⟩
  operands : f.cause.IsOfValues → ∀ c ∈ node.children, ∃ v, c.eval ctx = .ok v

theorem Expr.Fails.pointsAt {ctx : Context R} {node : Expr} {f : EvalFault R}
    (h : node.Fails ctx f) : f.PointsAt ctx node := by
  cases h with
  | symbol _ => exact ⟨.inl rfl, fun _ => by simp [children]⟩
  | function _ =>
    refine ⟨.inr ⟨_, _, _, _, _, rfl, rfl⟩, ?_⟩
    rintro (⟨v, hv⟩ | ⟨v, hv⟩ | hv) <;> cases hv
  | missing _ => exact ⟨.inl rfl, fun _ => by simp [children]⟩
  | tooMany _ =>
    refine ⟨.inl rfl, ?_⟩
    rintro (⟨v, hv⟩ | ⟨v, hv⟩ | hv) <;> cases hv
  | domain _ harg happly =>
    refine ⟨.inl ?_, fun _ => by simpa [children] using ⟨_, harg⟩⟩
    rcases Builtin.fault_of_apply happly with rfl | rfl <;> rfl
  | result _ harg _ hfinite =>
    refine ⟨.inl ?_, fun _ => by simpa [children] using ⟨_, harg⟩⟩
    rw [eq_of_finite hfinite]
    rfl
  | operator hl hr hfinite =>
    refine ⟨.inl ?_, fun _ => by simpa [children] using ⟨⟨_, hl⟩, ⟨_, hr⟩⟩⟩
    rw [eq_of_finite hfinite]
    rfl

/-- A formula is written with tokens of its text. -/
theorem exists_written_of_parse {source : String} {e : Expr} (h : parse source = .ok e) :
    ∃ ts, Written [e] ts ∧ ts.Sublist (tokens source) := by
  cases hread : readFull Expr.read (.start (tokens source)) with
  | failed f c =>
    rw [parse, hread] at h
    cases h
  | done e' c =>
    rw [parse, hread] at h
    cases h
    obtain ⟨ts, ⟨passed, hrest, -, rfl, -⟩, hwritten⟩ :=
      Expr.read_between (readFull_eq_done.mp hread).1
    refine ⟨_, hwritten, List.filter_sublist.trans ?_⟩
    change tokens source = passed ++ c.rest at hrest
    rw [hrest]
    exact List.sublist_append_left passed c.rest

/-- Nodes and the names in calls have their places among the tokens of the text. -/
theorem EvalFault.PointsAt.liesIn {f : EvalFault R} {ctx : Context R} {e node : Expr}
    (h : f.PointsAt ctx node) (hnode : node ∈ e.postOrder) {ts us : List Token}
    (he : Written [e] ts) (hts : ts.Sublist us) : f.span.LiesIn us := by
  obtain ⟨own, hown, hwritten⟩ := he.exists_of_mem_postOrder hnode
  have hsub : own.Sublist us := hown.sublist.trans hts
  rcases h.place with hspan | ⟨i, b, d, args, s, rfl, rfl⟩
  · rw [hspan, hwritten.span_eq]
    exact .of_sublist hsub hwritten.ne_nil
  · cases hwritten with
    | call => exact .of_mem (hsub.mem List.mem_cons_self)
    | arguments _ _ hnil => exact absurd hnil (by rintro ⟨⟩)

/-- Every fault has its place in the text, whether the text is no formula or the formula has no
value, and the fault of a value points at a node whose operands have values. -/
theorem faults_within (source : String) :
    (∀ f, parse source = .error f → f.span.IsWithin source) ∧
      ∀ e, parse source = .ok e → ∀ (ctx : Context R) (f : EvalFault R), e.eval ctx = .error f →
        f.span.IsWithin source ∧ ∃ node ∈ e.postOrder, f.PointsAt ctx node := by
  constructor
  · intro f h
    exact isWithin_of_parse h
  · intro e hparse ctx f heval
    obtain ⟨ts, hwritten, hts⟩ := exists_written_of_parse hparse
    obtain ⟨node, hnode, hfails⟩ := Expr.exists_fails heval
    have hpoints := hfails.pointsAt
    exact ⟨(hpoints.liesIn hnode hwritten hts).isWithin, node, hnode, hpoints⟩

/-- A group that is not closed, and a logarithm of `-1`. -/
theorem faults_within_logarithm :
    parse "3(x+1" = .error ⟨.unclosed true, ⟨1, 2⟩⟩ ∧ Span.IsWithin ⟨1, 2⟩ "3(x+1" ∧
      ∃ e f, parse "2 ln(x)" = .ok e ∧ e.eval (.ofX (-1 : Float)) = .error f ∧ f.span = ⟨2, 7⟩ ∧
        f.span.IsWithin "2 ln(x)" ∧ ∃ node ∈ e.postOrder, f.PointsAt (.ofX (-1)) node := by
  have hopen : parse "3(x+1" = .error ⟨.unclosed true, ⟨1, 2⟩⟩ :=
    parse_eq_error (by decide +kernel)
  have hspan : ((parse "2 ln(x)").toOption.map fun e =>
      ((e.eval (.ofX (-1 : Float))).mapError EvalFault.span).map fun _ => ()) =
        some (.error ⟨2, 7⟩) := by decide +kernel
  refine ⟨hopen, (faults_within (R := Float) "3(x+1").1 _ hopen, ?_⟩
  cases hparse : parse "2 ln(x)" with
  | error f =>
    rw [hparse] at hspan
    cases hspan
  | ok e =>
    rw [hparse] at hspan
    have hfault := Option.some.inj hspan
    dsimp only at hfault
    cases heval : e.eval (.ofX (-1 : Float)) with
    | ok v =>
      rw [heval] at hfault
      cases hfault
    | error f =>
      rw [heval] at hfault
      obtain ⟨hplace, hnode⟩ := (faults_within "2 ln(x)").2 e hparse (.ofX (-1)) f heval
      exact ⟨e, f, rfl, heval, Except.error.inj hfault, hplace, hnode⟩

end CurveGuess
