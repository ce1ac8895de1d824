import CurveGuess.Proofs.Eval.Names
import CurveGuess.Proofs.Random.Shuffle
import CurveGuess.Proofs.Target.Facts

/-!
# What targets are drawn

Whatever the seed, a target is put together as its tier says: so many terms, each after a template of
its own with numbers within the bounds of that template, and an offset that is not too large. Such a
target is always a formula, and `x` is all that it depends on.
-/
namespace CurveGuess

open Draw

theorem exists_mem_of_forall₂ {α β : Type} {R : α → β → Prop} {as : List α} {bs : List β}
    (h : List.Forall₂ R as bs) {b : β} (hb : b ∈ bs) : ∃ a ∈ as, R a b := by
  induction h with
  | nil => cases hb
  | cons hab _ ih =>
    rcases List.mem_cons.mp hb with rfl | hb
    · exact ⟨_, List.mem_cons_self, hab⟩
    · obtain ⟨a, ha, hab⟩ := ih hb
      exact ⟨a, List.mem_cons_of_mem _ ha, hab⟩

namespace Bounds

/-- Is a number within the bounds? -/
def Holds (b : Bounds) (n : Int) : Prop := b.low ≤ n ∧ n ≤ b.high

theorem gives_draw {b : Bounds} (h : b.low ≤ b.high) : Gives (b.draw Float) b.Holds := gives_int h

end Bounds

namespace Template

/-- The bounds of the numbers of a template. -/
def bounds : Template → List Bounds
  | linear b | quadratic b | squareRoot b | exponential b => [b]
  | sine b f | cosine b f => b :: f.toList
  | logarithm b s => [b, s]

/-- `Realizes t term` says that the term is of the form of the template and that its numbers are
within the bounds. -/
inductive Realizes : Template → Term → Prop
  | linear {b n} : b.Holds n → Realizes (.linear b) (.linear n)
  | quadratic {b n} : b.Holds n → Realizes (.quadratic b) (.quadratic n)
  | sine {b n f m} : b.Holds n → Option.Rel Bounds.Holds f m → Realizes (.sine b f) (.sine n m)
  | cosine {b n f m} : b.Holds n → Option.Rel Bounds.Holds f m → Realizes (.cosine b f) (.cosine n m)
  | logarithm {b n s m} : b.Holds n → s.Holds m → Realizes (.logarithm b s) (.logarithm n m)
  | squareRoot {b n} : b.Holds n → Realizes (.squareRoot b) (.squareRoot n)
  | exponential {b n} : b.Holds n → Realizes (.exponential b) (.exponential n)

theorem Realizes.forall₂ {t : Template} {term : Term} (h : t.Realizes term) :
    List.Forall₂ Bounds.Holds t.bounds term.numbers := by
  have hoption {f : Option Bounds} {m : Option Int} (h : Option.Rel Bounds.Holds f m) :
      List.Forall₂ Bounds.Holds f.toList m.toList := by
    cases h with
    | some h => exact .cons h .nil
    | none => exact .nil
  cases h with
  | linear h | quadratic h | squareRoot h | exponential h => exact .cons h .nil
  | sine h hf | cosine h hf => exact .cons h (hoption hf)
  | logarithm h hs => exact .cons h (.cons hs .nil)

theorem gives_drawOption {f : Option Bounds} (h : ∀ b ∈ f, b.low ≤ b.high) :
    Gives (drawOption Float f) (Option.Rel Bounds.Holds f) := by
  cases f with
  | none => exact gives_pure .none
  | some b => exact (Bounds.gives_draw (h b rfl)).bind fun n hn => gives_pure (.some hn)

theorem gives_realize {t : Template} (h : ∀ b ∈ t.bounds, b.low ≤ b.high) :
    Gives (t.realize Float) t.Realizes := by
  have hdraw {b : Bounds} (hb : b ∈ t.bounds) : Gives (b.draw Float) b.Holds :=
    Bounds.gives_draw (h b hb)
  have hwave {b : Bounds} {f : Option Bounds} (ht : t.bounds = b :: f.toList) :
      Gives (drawOption Float f) (Option.Rel Bounds.Holds f) :=
    gives_drawOption fun b hb =>
      h b (ht ▸ List.mem_cons_of_mem _ (Option.mem_toList.mpr hb))
  cases t with
  | linear b => exact (hdraw List.mem_cons_self).bind fun _ hn => gives_pure (.linear hn)
  | quadratic b => exact (hdraw List.mem_cons_self).bind fun _ hn => gives_pure (.quadratic hn)
  | squareRoot b => exact (hdraw List.mem_cons_self).bind fun _ hn => gives_pure (.squareRoot hn)
  | exponential b => exact (hdraw List.mem_cons_self).bind fun _ hn => gives_pure (.exponential hn)
  | sine b f =>
    exact (hdraw List.mem_cons_self).bind fun _ hn =>
      (hwave rfl).bind fun _ hm => gives_pure (.sine hn hm)
  | cosine b f =>
    exact (hdraw List.mem_cons_self).bind fun _ hn =>
      (hwave rfl).bind fun _ hm => gives_pure (.cosine hn hm)
  | logarithm b s =>
    exact (hdraw List.mem_cons_self).bind fun _ hn =>
      (hdraw (List.mem_cons_of_mem _ List.mem_cons_self)).bind fun _ hm =>
        gives_pure (.logarithm hn hm)

end Template

namespace Tier

theorem termBounds_le (tier : Tier) : 0 < tier.termBounds.low ∧
    tier.termBounds.low ≤ tier.termBounds.high ∧
    tier.termBounds.high ≤ tier.templates.length := by
  cases tier <;> decide

theorem nodup_templates (tier : Tier) : tier.templates.Nodup := by
  cases tier <;> decide

theorem bounds_le (tier : Tier) :
    ∀ t ∈ tier.templates, ∀ b ∈ t.bounds, 0 < b.low ∧ b.low ≤ b.high := by
  cases tier <;> decide

end Tier

namespace Target

/-- Is a target put together as a tier says? -/
structure IsOf (t : Target) (tier : Tier) : Prop where
  holds_length : tier.termBounds.Holds t.terms.length
  length_joints : t.joints.length + 1 = t.terms.length
  exists_templates : ∃ ts, ts ⊆ tier.templates ∧ ts.Nodup ∧
    List.Forall₂ Template.Realizes ts t.terms
  offset_le : t.offset.natAbs ≤ tier.offsetBound.getD 0

theorem gives_drawTerms {ts : List Template}
    (h : ∀ t ∈ ts, ∀ b ∈ t.bounds, b.low ≤ b.high) :
    Gives (drawTerms Float ts) (List.Forall₂ Template.Realizes ts) := by
  induction ts with
  | nil => exact gives_pure .nil
  | cons t ts ih =>
    obtain ⟨ht, hts⟩ := List.forall_mem_cons.mp h
    refine (Template.gives_realize ht).bind fun term hterm => ?_
    exact (ih hts).bind fun terms hterms => gives_pure (.cons hterm hterms)

theorem gives_drawJoints (n : Nat) : Gives (drawJoints Float n) (·.length = n) := by
  induction n with
  | zero => exact gives_pure rfl
  | succ n ih =>
    refine Gives.bind (gives_true _) fun u _ => ?_
    refine ih.bind fun joints hjoints => gives_pure ?_
    rw [List.length_cons, hjoints]

theorem gives_drawOffset (bound : Option Nat) :
    Gives (drawOffset Float bound) fun n => n.natAbs ≤ bound.getD 0 := by
  cases bound with
  | none => exact gives_pure (Nat.le_refl 0)
  | some b =>
    refine (gives_int (by omega)).mono fun n hn => ?_
    rw [Option.getD_some]
    omega

theorem gives_draw (tier : Tier) : Gives (draw Float tier) (·.IsOf tier) := by
  obtain ⟨hpos, hle, hlength⟩ := tier.termBounds_le
  refine (Bounds.gives_draw hle).bind fun count hcount => ?_
  refine (gives_shuffle Float tier.templates).bind fun pool hpool => ?_
  -- the first templates of the shuffled list are different, and there are enough of them
  have hsub : pool.take count.toNat ⊆ tier.templates :=
    fun t ht => hpool.subset (List.mem_of_mem_take ht)
  have hnodup : (pool.take count.toNat).Nodup :=
    (hpool.nodup_iff.mpr tier.nodup_templates).sublist (List.take_sublist ..)
  have htake : (pool.take count.toNat).length = count.toNat := by
    rw [List.length_take, hpool.length_eq]
    obtain ⟨-, hhigh⟩ := hcount
    omega
  have hbounds : ∀ t ∈ pool.take count.toNat, ∀ b ∈ t.bounds, b.low ≤ b.high :=
    fun t ht b hb => (tier.bounds_le t (hsub ht) b hb).2
  refine (gives_drawTerms hbounds).bind fun terms hterms => ?_
  refine (gives_drawJoints _).bind fun joints hjoints => ?_
  refine (gives_drawOffset _).bind fun offset hoffset => gives_pure ?_
  have hcount_terms : (terms.length : Int) = count := by
    have hlow := hcount.1
    rw [← hterms.length_eq, htake]
    omega
  have hjoints_terms : joints.length + 1 = terms.length := by
    have hlow := hcount.1
    omega
  exact ⟨hcount_terms ▸ hcount, hjoints_terms, ⟨_, hsub, hnodup, hterms⟩, hoffset⟩

theorem isOf_ofSeed (tier : Tier) (seed : Seed) : (ofSeed Float tier seed).IsOf tier := by
  rw [ofSeed]
  exact gives_draw tier (.ofSeed seed)

theorem IsOf.isProper {t : Target} {tier : Tier} (h : t.IsOf tier) : t.IsProper where
  terms_ne_nil := by
    have hpos := tier.termBounds_le.1
    have hlow := h.holds_length.1
    exact List.ne_nil_of_length_pos (by omega)
  length_joints := h.length_joints
  pos := by
    intro term hterm n hn
    obtain ⟨ts, hsub, -, hterms⟩ := h.exists_templates
    obtain ⟨t, ht, hrealizes⟩ := exists_mem_of_forall₂ hterms hterm
    obtain ⟨b, hb, hlow, -⟩ := exists_mem_of_forall₂ hrealizes.forall₂ hn
    have := (tier.bounds_le t (hsub ht) b hb).1
    omega

/-- Is a text empty, or a sign and a whole number from 1 up to a bound? -/
def IsOffset (bound : Option Nat) (text : String) : Prop :=
  text = "" ∨ ∃ b ∈ bound, ∃ n : Nat, 0 < n ∧ n ≤ b ∧
    (text = "+" ++ toString n ∨ text = "-" ++ toString n)

theorem isOffset_offsetText {bound : Option Nat} {offset : Int}
    (h : offset.natAbs ≤ bound.getD 0) : IsOffset bound (offsetText offset) := by
  by_cases hzero : offset = 0
  · rw [hzero]
    exact .inl rfl
  have hpos : 0 < offset.natAbs := Int.natAbs_pos.mpr hzero
  cases bound with
  | none =>
    rw [Option.getD_none] at h
    omega
  | some b =>
    refine .inr ⟨b, rfl, offset.natAbs, hpos, h, ?_⟩
    cases offset with
    | ofNat n =>
      have hsign : 0 < Int.ofNat n := Int.natCast_pos.mpr hpos
      rw [offsetText, if_neg hzero, if_pos hsign]
      exact .inl rfl
    | negSucc n =>
      rw [offsetText, if_neg hzero, if_neg (by omega)]
      exact .inr rfl

end Target

/-- Is a node neither a symbol besides `x` nor a call besides those of functions with one
argument? -/
def Expr.IsPlain : Expr → Prop
  | .symbol i => i.name = Context.variableName
  | .call i _ _ args _ => i.name ∈ Builtin.table.map Prod.fst ∧ args.length = 1
  | _ => True

namespace Shape

/-- There are only plain nodes in expressions of this shape. -/
def OnlyX (a : Shape) : Prop := ∀ e : Expr, e.shape = a → ∀ node ∈ e.postOrder, node.IsPlain

variable {a b : Shape}

theorem onlyX_whole (n : Nat) : (whole n).OnlyX := by
  intro e he
  obtain ⟨s, rfl⟩ := Expr.exists_number he
  exact Expr.forall_mem_postOrder.mpr ⟨trivial, List.forall_mem_nil _⟩

theorem onlyX_x : x.OnlyX := by
  intro e he
  obtain ⟨i, rfl, hi⟩ := Expr.exists_symbol he
  exact Expr.forall_mem_postOrder.mpr ⟨hi, List.forall_mem_nil _⟩

theorem OnlyX.group (ha : a.OnlyX) (d : Delimiter) : (Shape.group d a).OnlyX := by
  intro e he
  obtain ⟨e, s, rfl, he'⟩ := Expr.exists_group he
  exact Expr.forall_mem_postOrder.mpr ⟨trivial, List.forall_mem_singleton.mpr (ha e he')⟩

theorem OnlyX.call (ha : a.OnlyX) {f : String} (hf : f ∈ Builtin.table.map Prod.fst) (i : Bool)
    (d : Delimiter) : (Shape.call f i d [a]).OnlyX := by
  intro e he
  obtain ⟨c, i', d', e, s, rfl, rfl, he'⟩ := Expr.exists_call he
  exact Expr.forall_mem_postOrder.mpr ⟨⟨hf, rfl⟩, List.forall_mem_singleton.mpr (ha e he')⟩

theorem OnlyX.binary (ha : a.OnlyX) (hb : b.OnlyX) (o : BinaryKind) (i : Bool) :
    (Shape.binary o i a b).OnlyX := by
  intro e he
  obtain ⟨op, l, r, s, rfl, -, hl, hr⟩ := Expr.exists_binary he
  refine Expr.forall_mem_postOrder.mpr ⟨trivial, List.forall_mem_cons.mpr ⟨ha l hl, ?_⟩⟩
  exact List.forall_mem_singleton.mpr (hb r hr)

end Shape

namespace Term

theorem onlyX_angle (f : Option Int) : (angleShape f).OnlyX := by
  cases f with
  | none => exact Shape.onlyX_x
  | some f => exact (Shape.onlyX_whole _).binary Shape.onlyX_x _ _

theorem onlyX (t : Term) : (t.shape .formal).OnlyX := by
  have hx := Shape.onlyX_x
  have hn := Shape.onlyX_whole
  cases t with
  | linear c => exact (hn _).binary hx _ _
  | quadratic c => exact (hn _).binary (hx.binary ((hn 2).group _) _ _) _ _
  | exponential b => exact (hn _).binary (hx.group _) _ _
  | sine c f | cosine c f => exact (hn _).binary ((onlyX_angle f).call (by decide) _ _) _ _
  | logarithm c s => exact (hn _).binary ((hx.binary (hn _) _ _).call (by decide) _ _) _ _
  | squareRoot c => exact ((hn _).binary hx _ _).call (by decide) _ _

end Term

namespace Target

theorem onlyX_tailShape (ps : List (Joint × Addend)) {a : Shape} (ha : a.OnlyX) :
    (tailShape .formal a ps).OnlyX := by
  induction ps generalizing a with
  | nil => exact ha
  | cons p ps ih =>
    obtain ⟨j, b⟩ := p
    have hb : (b.shape .formal).OnlyX := by
      cases b with
      | term t => exact t.onlyX
      | offset n => exact Shape.onlyX_whole n
    exact ih (ha.binary hb _ _)

/-- A target is a formula in `x`. -/
theorem exists_parse_text {t : Target} (ht : t.IsProper) :
    ∃ e, parse t.text = .ok e ∧ ∀ node ∈ e.postOrder, node.IsPlain := by
  obtain ⟨first, rest, hterms⟩ := List.exists_cons_of_ne_nil ht.terms_ne_nil
  obtain ⟨e, hparse, hshape⟩ := exists_parse (toList_text ht hterms)
  exact ⟨e, hparse, onlyX_tailShape t.tail first.onlyX e hshape⟩

/-- The text of a target: its first term, the other terms with their operators, and its offset. -/
theorem exists_text {t : Target} (ht : t.IsProper) :
    ∃ (first : Term) (rest : List (Joint × Term)), t.terms = first :: rest.map Prod.snd ∧
      t.text = first.text ++ String.join (rest.map fun p => p.1.text ++ p.2.text) ++
        offsetText t.offset := by
  obtain ⟨first, others, hterms⟩ := List.exists_cons_of_ne_nil ht.terms_ne_nil
  have hzip := map_snd_zip ht
  rw [hterms, List.tail_cons] at hzip
  refine ⟨first, t.joints.zip others, by rw [hterms, hzip], ?_⟩
  rw [text, hterms]

/-- Targets obey their tiers. Whatever the seed, the text that is generated is a sum of as many
terms as the tier allows, after templates of the tier that are all different, with an offset that the
tier allows or none. It is a formula, and depends on nothing but `x`. -/
theorem generate_obeys (tier : Tier) (seed : Seed) :
    ∃ (first : Term) (rest : List (Joint × Term)) (offset : String),
      generate tier seed =
        first.text ++ String.join (rest.map fun p => p.1.text ++ p.2.text) ++ offset ∧
      tier.termBounds.Holds (rest.length + 1) ∧
      (∃ ts, ts ⊆ tier.templates ∧ ts.Nodup ∧
        List.Forall₂ Template.Realizes ts (first :: rest.map Prod.snd)) ∧
      IsOffset tier.offsetBound offset ∧
      ∃ e, parse (generate tier seed) = .ok e ∧ ∀ node ∈ e.postOrder, node.IsPlain := by
  have ht := isOf_ofSeed tier seed
  -- what was drawn is all that counts from here on, and not how
  rw [generate]
  generalize ofSeed Float tier seed = t at ht ⊢
  obtain ⟨first, rest, hterms, htext⟩ := exists_text ht.isProper
  have hlength := ht.holds_length
  rw [hterms, List.length_cons, List.length_map] at hlength
  exact ⟨first, rest, _, htext, hlength, hterms ▸ ht.exists_templates,
    isOffset_offsetText ht.offset_le, exists_parse_text ht.isProper⟩

end Target

end CurveGuess
