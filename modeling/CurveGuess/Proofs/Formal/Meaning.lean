import CurveGuess.Proofs.Formal.Relexing
import CurveGuess.Proofs.Grammar.Words

/-!
# The formal spelling keeps the meaning

The formal pieces of a formula are a formula of the same shape, by induction on its derivation: a
product whose sign is left out becomes one without a sign. A sign that keeps a name from being
called is left out all the same, and then there is a call more than before.
-/
namespace CurveGuess

open Piece

namespace Piece

/-- Does a multiplication sign stand between a name that could be called and a group? -/
def multipliesName : List Piece → Bool
  | [] => false
  | t :: ts => t.isCallable && ts.head?.any (·.kind = .mul) && opens ts.tail || multipliesName ts

theorem multipliesName_of_suffix {i r : List Piece} (h : r <:+ i) (hi : multipliesName i = false) :
    multipliesName r = false := by
  induction i with
  | nil => rwa [List.suffix_nil.mp h]
  | cons t ts ih =>
    rcases List.suffix_cons_iff.mp h with rfl | h
    · exact hi
    · rw [multipliesName, Bool.or_eq_false_iff] at hi
      exact ih h hi.2

end Piece

namespace Spelling

theorem plainName_calleeText (name : String) : calleeText name = name ∨
    1 < name.length ∧ (calleeText name).toList ≠ name.toList ∧
      plainName (String.ofList ((calleeText name).toList.dropWhile (· = '\\'))) =
        plainName (String.ofList (name.toList.dropWhile (· = '\\'))) := by
  unfold calleeText formalName
  split
  · next h =>
    rw [h]
    exact .inr (by decide)
  · split
    · next h =>
      simp only [List.mem_cons, List.not_mem_nil, or_false] at h
      rcases h with rfl | rfl | rfl | rfl | rfl <;> exact .inr (by decide)
    · split
      · next h => rcases h with rfl | rfl <;> exact .inr (by decide)
      · exact .inl rfl

/-- A name is written as itself, or it can be called and is written as a command of the same
function. -/
theorem callee_cases {t : Piece} (h : t.kind = .name) :
    callee t = t ∨ (callee t).kind = .command ∧ t.isCallable = true ∧
      plainName (callee t).name = plainName t.name := by
  obtain ⟨k, text⟩ := t
  cases h
  rcases plainName_calleeText (String.ofList text) with hc | ⟨hlen, hne, hname⟩
  · exact .inl (by simp [callee, hc])
  · rw [String.toList_ofList] at hne hname
    refine .inr ⟨by rw [callee, if_neg hne], ?_, hname⟩
    simpa [isCallable] using hlen

theorem isCallable_of_isRoot {t : Piece} (h : isRoot t = true) : t.isCallable = true := by
  rw [isRoot, Bool.and_eq_true, decide_eq_true_eq, decide_eq_true_eq] at h
  simp [isCallable, h.1, h.2]

/-- A name is written as it is where no parenthesis calls it. -/
theorem formalPieces_symbol {t : Piece} {r : List Piece} (h : t.isName = true)
    (hr : t.isCallable = true → nextIs .openParen r = false) (last : Option Char)
    (groups : List FormalGroup) :
    formalPieces last false groups (t :: r) =
      t :: formalPieces (lastVisible last t.text) false groups r := by
  rw [isName, Bool.or_eq_true, decide_eq_true_eq, decide_eq_true_eq] at h
  rcases h with hk | hk
  · refine formalPieces_name hk (fun hroot => hr (isCallable_of_isRoot hroot)) ?_ last false groups
    rcases callee_cases hk with hc | ⟨-, hcall, -⟩
    · rw [hc, ite_self]
    · rw [hr hcall]
      rfl
  · exact formalPieces_copied (by rw [hk]; rfl) last false groups r

/-- A name that a parenthesis calls, but for a square root. -/
theorem formalPieces_callee {t u : Piece} {m : List Piece} (h : t.isCallable = true)
    (hu : u.kind = .openParen) (hroot : isRoot t = false) (last : Option Char)
    (groups : List FormalGroup) :
    ∃ w last', formalPieces last false groups (t :: u :: m) =
        w :: u :: formalPieces last' false (.paren :: groups) m ∧ w.isCallable = true ∧
      plainName w.name = plainName t.name := by
  have hn := isName_of_isCallable h
  have hnext : nextIs .openParen (u :: m) = true := by simp [nextIs, hu]
  rw [isName, Bool.or_eq_true, decide_eq_true_eq, decide_eq_true_eq] at hn
  rcases hn with hk | hk
  · have hw := formalPieces_name (w := callee t) hk (fun hr => by rw [hroot] at hr; cases hr)
      (by rw [hnext]; rfl) last false groups
    rw [formalPieces_open (d := .paren) hu] at hw
    refine ⟨_, _, hw, ?_⟩
    rcases callee_cases hk with hc | ⟨hc, -, hname⟩
    · rw [hc]
      exact ⟨h, rfl⟩
    · exact ⟨by simp [isCallable, hc], hname⟩
  · have hw := formalPieces_copied (t := t) (by rw [hk]; rfl) last false groups (u :: m)
    rw [formalPieces_open (d := .paren) hu] at hw
    exact ⟨_, _, hw, h, rfl⟩

theorem isCopied_of_sumKind? {k : Kind} {b : BinaryKind} (h : sumKind? k = some b) :
    isCopied k = true := by
  cases k <;> first | rfl | cases h

theorem isCopied_of_signKind? {k : Kind} {u : UnaryKind} (h : signKind? k = some u) :
    isCopied k = true := by
  cases k <;> first | rfl | cases h

theorem isCopied_of_productKind? {k : Kind} {b : BinaryKind} (h : productKind? k = some b)
    (hk : k ≠ .mul) : isCopied k = true := by
  cases k <;> first | rfl | exact absurd rfl hk | cases h

theorem isCopied_of_isNumber {k : Kind} (h : k.isNumber = true) : isCopied k = true := by
  cases k <;> first | rfl | cases h

theorem ne_mul_of_isCopied {k : Kind} (h : isCopied k = true) : k ≠ .mul := by
  rintro rfl
  cases h

/-- A product is followed by something else than a product. -/
def FollowsProduct (ts : List Piece) : Prop :=
  ∀ t us, ts = t :: us → t.kind = .mul → ∃ u vs, us = u :: vs ∧ u.kind ≠ .mul

theorem followsProduct_cons {t : Piece} {ts : List Piece} (h : t.kind ≠ .mul) :
    FollowsProduct (t :: ts) := by
  intro u us he hu
  cases he
  exact absurd hu h

theorem head_ne_mul {p : Part} {i r : List Piece} {es : List Shape} (d : Derivation p i r es) :
    ∃ t ts, i = t :: ts ∧ t.kind ≠ .mul := by
  obtain ⟨t, ts, rfl, h⟩ := d.head
  refine ⟨t, ts, rfl, ?_⟩
  rintro hk
  rw [hk] at h
  simp [Kind.startsOperand, Kind.isSign, Kind.isNumber, Kind.isOpening] at h

theorem followsProduct_of_derivation {p : Part} {i r : List Piece} {es : List Shape}
    (d : Derivation p i r es) (t : Piece) : FollowsProduct (t :: i) := by
  rintro u us he -
  cases he
  obtain ⟨v, vs, rfl, hv⟩ := head_ne_mul d
  exact ⟨v, vs, rfl, hv⟩

theorem followsProduct_of_juxtapose {p : Part} {i r : List Piece} {es : List Shape}
    (d : Derivation p i r es) : FollowsProduct i := by
  obtain ⟨t, ts, rfl, ht⟩ := head_ne_mul d
  exact followsProduct_cons ht

theorem followsProduct_close {t : Piece} {ts : List Piece} {d : Delimiter}
    (h : t.kind = d.closeKind) : FollowsProduct (t :: ts) := by
  refine followsProduct_cons ?_
  rw [h]
  cases d <;> decide

theorem kind_bracket (afterRoot : Bool) (groups : List FormalGroup) (t : Piece) :
    (bracket afterRoot groups t).kind.isOpening = t.kind.isOpening ∧
      (bracket afterRoot groups t).kind.isSign = t.kind.isSign := by
  unfold bracket
  split
  · next h => cases afterRoot <;> simp [h, Kind.isOpening, Kind.isSign]
  · next h => split <;> simp [h, Kind.isOpening, Kind.isSign]
  · exact ⟨rfl, rfl⟩

theorem head_formalPieces {t : Piece} (h : t.kind ≠ .mul) (ts : List Piece) (last : Option Char)
    (afterRoot : Bool) (groups : List FormalGroup) :
    ∃ u us, formalPieces last afterRoot groups (t :: ts) = u :: us ∧
      u.kind.isOpening = t.kind.isOpening ∧ u.kind.isSign = t.kind.isSign := by
  by_cases hname : t.kind = .name
  · have hw : written last afterRoot groups t ts =
        some (if nextIs .openParen ts then callee t else t) := by simp [written, hname]
    refine ⟨_, _, by rw [formalPieces_cons, hw]; rfl, ?_⟩
    split
    · rcases callee_cases hname with hc | ⟨hc, -⟩
      · rw [hc]
        exact ⟨rfl, rfl⟩
      · rw [hc, hname]
        decide
    · exact ⟨rfl, rfl⟩
  · exact ⟨_, _, formalPieces_other hname h last afterRoot groups ts,
      kind_bracket afterRoot groups t⟩

theorem power_of_not_writesSign {m r : List Piece} {a b : Shape} {last last' : Option Char}
    {groups : List FormalGroup} (d : Derivation .signed m r [a]) (h : ¬writesSign last m = true)
    (d' : Derivation .signed (formalPieces last false groups m)
      (formalPieces last' false groups r) [b]) :
    Nonempty (Derivation .power (formalPieces last false groups m)
      (formalPieces last' false groups r) [b]) := by
  obtain ⟨t, ts, rfl, ht⟩ := head_ne_mul d
  obtain ⟨u, us, hu, -, hsign⟩ := head_formalPieces ht ts last false groups
  rw [hu] at d' ⊢
  refine d'.power_of_signed ?_
  rw [hsign, ← Bool.not_eq_true]
  intro hk
  exact h (by simp [writesSign, hk])

/-- A name that is not called is not called in the formal text. -/
theorem opens_formalPieces_of_symbol {t : Piece} {r : List Piece} (ht : t.isCallable = true)
    (hopens : opens r = false) (hm : multipliesName (t :: r) = false) (hr : FollowsProduct r)
    (last : Option Char) (groups : List FormalGroup) :
    opens (formalPieces last false groups r) = false := by
  cases r with
  | nil => rfl
  | cons u us =>
    by_cases hu : u.kind = .mul
    · obtain ⟨v, vs, rfl, hv⟩ := hr u us rfl hu
      have hvopen : v.kind.isOpening = false := by
        rw [multipliesName, ht] at hm
        simpa [hu] using (Bool.or_eq_false_iff.mp hm).1
      rw [formalPieces_mul hu]
      split
      · rfl
      · obtain ⟨w, ws, hw, hopen, -⟩ := head_formalPieces hv vs last false groups
        rw [hw, opens_cons, hopen, hvopen]
    · obtain ⟨w, ws, hw, hopen, -⟩ := head_formalPieces hu us last false groups
      rw [hw, opens_cons, hopen, ← hopens, opens_cons]

/-- The formal pieces of a part are the part again. -/
def FormalizesPart (p : Part) (i r : List Piece) (a : Shape) : Prop :=
  a.singleArgs = true → FollowsProduct r → ∀ last groups, ∃ last' b,
    Nonempty (Derivation p (formalPieces last false groups i)
      (formalPieces last' false groups r) [b]) ∧ b.plain = a.plain

/-- The formal pieces of a single argument are the argument again. Its end is written as a brace for
a square root. -/
def FormalizesArgument (i r : List Piece) (a : Shape) : Prop :=
  a.singleArgs = true → ∀ last g groups, ∃ last' b v,
    Nonempty (Derivation .sum (formalPieces last false (g :: groups) i)
      (v :: formalPieces last' false groups r) [b]) ∧
    v.kind = (if g = .root then .closeBrace else .closeParen) ∧ b.plain = a.plain

def Formalizes : Part → List Piece → List Piece → List Shape → Prop
  | .arguments, i, r, [a] => FormalizesArgument i r a
  | p, i, r, [a] => FormalizesPart p i r a
  | _, _, _, _ => True

namespace FormalizesPart

variable {p q s : Part} {i m r : List Piece} {t u v : Piece} {a b : Shape}

theorem of_rule (h : FormalizesPart p i r a)
    (rule : ∀ {i r a}, Derivation p i r [a] → Derivation q i r [a]) : FormalizesPart q i r a := by
  intro hs hr last groups
  obtain ⟨last', b, ⟨d⟩, hb⟩ := h hs hr last groups
  exact ⟨last', b, ⟨rule d⟩, hb⟩

/-- An operator that is written as it is. -/
theorem operator {k : BinaryKind} (h₁ : FormalizesPart p i (t :: m) a)
    (h₂ : FormalizesPart q m r b) (hcopied : isCopied t.kind = true)
    (rule : ∀ {i m r a b}, Derivation p i (t :: m) [a] → Derivation q m r [b] →
      Derivation s i r [.binary k false a b]) :
    FormalizesPart s i r (.binary k false a b) := by
  intro hs hr last groups
  rw [Shape.singleArgs, Bool.and_eq_true] at hs
  obtain ⟨last₁, a', ⟨d₁⟩, ha⟩ :=
    h₁ hs.1 (followsProduct_cons (ne_mul_of_isCopied hcopied)) last groups
  rw [formalPieces_copied hcopied] at d₁
  obtain ⟨last₂, b', ⟨d₂⟩, hb⟩ := h₂ hs.2 hr _ groups
  exact ⟨last₂, _, ⟨rule d₁ d₂⟩, by rw [Shape.plain, Shape.plain, ha, hb]⟩

/-- A multiplication sign that is typed is written or left out. -/
theorem times (d : Derivation .signed m r [b]) (h₁ : FormalizesPart .product i (t :: m) a)
    (h₂ : FormalizesPart .signed m r b) (ht : t.kind = .mul) :
    FormalizesPart .product i r (.binary .mul false a b) := by
  intro hs hr last groups
  rw [Shape.singleArgs, Bool.and_eq_true] at hs
  obtain ⟨last₁, a', ⟨d₁⟩, ha⟩ := h₁ hs.1 (followsProduct_of_derivation d t) last groups
  rw [formalPieces_mul ht] at d₁
  by_cases hw : writesSign last₁ m = true
  · rw [if_pos hw] at d₁
    obtain ⟨last₂, b', ⟨d₂⟩, hb⟩ := h₂ hs.2 hr _ groups
    exact ⟨last₂, _, ⟨.mul d₁ rfl d₂⟩, by rw [Shape.plain, Shape.plain, ha, hb]⟩
  · -- what follows a sign that is left out has no sign of its own
    rw [if_neg hw] at d₁
    obtain ⟨last₂, b', ⟨d₂⟩, hb⟩ := h₂ hs.2 hr last₁ groups
    obtain ⟨d₂'⟩ := power_of_not_writesSign d hw d₂
    exact ⟨last₂, _, ⟨.juxtapose d₁ d₂'⟩, by rw [Shape.plain, Shape.plain, ha, hb]⟩

theorem mul {k : BinaryKind} (hk : productKind? t.kind = some k)
    (d : Derivation .signed m r [b]) (h₁ : FormalizesPart .product i (t :: m) a)
    (h₂ : FormalizesPart .signed m r b) :
    FormalizesPart .product i r (.binary k false a b) := by
  by_cases ht : t.kind = .mul
  · rw [ht] at hk
    cases hk
    exact times d h₁ h₂ ht
  · exact h₁.operator h₂ (isCopied_of_productKind? hk ht) fun d₁ d₂ => .mul d₁ hk d₂

theorem juxtapose (d : Derivation .power m r [b]) (h₁ : FormalizesPart .product i m a)
    (h₂ : FormalizesPart .power m r b) :
    FormalizesPart .product i r (.binary .mul true a b) := by
  intro hs hr last groups
  rw [Shape.singleArgs, Bool.and_eq_true] at hs
  obtain ⟨last₁, a', ⟨d₁⟩, ha⟩ := h₁ hs.1 (followsProduct_of_juxtapose d) last groups
  obtain ⟨last₂, b', ⟨d₂⟩, hb⟩ := h₂ hs.2 hr last₁ groups
  exact ⟨last₂, _, ⟨.juxtapose d₁ d₂⟩, by rw [Shape.plain, Shape.plain, ha, hb]⟩

theorem sign {k : UnaryKind} (hk : signKind? t.kind = some k)
    (h : FormalizesPart .signed m r a) : FormalizesPart .signed (t :: m) r (.unary k a) := by
  intro hs hr last groups
  rw [formalPieces_copied (isCopied_of_signKind? hk)]
  obtain ⟨last', a', ⟨d⟩, ha⟩ := h hs hr _ groups
  exact ⟨last', _, ⟨.sign hk d⟩, by rw [Shape.plain, Shape.plain, ha]⟩

theorem number (h : t.kind.isNumber = true) :
    FormalizesPart .primary (t :: r) r (.number t.numeral) := by
  intro _ _ last groups
  rw [formalPieces_copied (isCopied_of_isNumber h)]
  exact ⟨_, _, ⟨.number h⟩, rfl⟩

/-- What is in a group, up to the piece that closes it. -/
theorem inGroup {d : Delimiter} (h : FormalizesPart .sum m (u :: r) a) (hu : u.kind = d.closeKind)
    (hs : a.singleArgs = true) (last : Option Char) (groups : List FormalGroup) :
    ∃ last' b v, Nonempty (Derivation .sum (formalPieces last false (groupOf d :: groups) m)
      (v :: formalPieces last' false groups r) [b]) ∧
      v.kind = d.closeKind ∧ b.plain = a.plain := by
  obtain ⟨last₁, a', d', ha⟩ := h hs (followsProduct_close hu) last (groupOf d :: groups)
  obtain ⟨v, last₂, hv, hvk⟩ := formalPieces_close hu last₁ (groupOf d) groups r
  rw [hv] at d'
  rw [if_neg (groupOf_ne_root d)] at hvk
  exact ⟨last₂, a', v, d', hvk, ha⟩

theorem group {d : Delimiter} (hd : Delimiter.ofKind? t.kind = some d)
    (h : FormalizesPart .sum m (u :: r) a) (hu : u.kind = d.closeKind) :
    FormalizesPart .primary (t :: m) r (.group d a) := by
  intro hs _ last groups
  rw [formalPieces_open (Delimiter.eq_openKind hd)]
  obtain ⟨last', a', v, ⟨d'⟩, hv, ha⟩ := h.inGroup hu hs _ groups
  exact ⟨last', _, ⟨.group hd d' hv⟩, by rw [Shape.plain, Shape.plain, ha]⟩

theorem symbol (hm : multipliesName (t :: r) = false) (h : t.isName = true)
    (hc : t.isCallable = true → opens r = false) :
    FormalizesPart .primary (t :: r) r (.symbol t.name) := by
  intro _ hr last groups
  have hnext : t.isCallable = true → nextIs .openParen r = false := fun ht => by
    have hopens := hc ht
    cases r with
    | nil => rfl
    | cons u us => simp_all [nextIs, Kind.isOpening]
  rw [formalPieces_symbol h hnext]
  exact ⟨_, _, ⟨.symbol h fun ht => opens_formalPieces_of_symbol ht (hc ht) hm hr _ _⟩, rfl⟩

theorem braceCall (ht : t.isCallable = true) (hu : u.kind = .openBrace)
    (h : FormalizesPart .sum m (v :: r) a) (hv : v.kind = .closeBrace) :
    FormalizesPart .primary (t :: u :: m) r (.call t.name (t.kind = .command) .brace [a]) := by
  intro hs _ last groups
  rw [Shape.singleArgs, Bool.and_eq_true, Shape.allSingleArgs, Bool.and_eq_true] at hs
  have hnext : nextIs .openParen (u :: m) = false := by simp [nextIs, hu]
  rw [formalPieces_symbol (isName_of_isCallable ht) (fun _ => hnext),
    formalPieces_open (d := .brace) hu]
  obtain ⟨last', a', w, ⟨d⟩, hw, ha⟩ := h.inGroup (d := .brace) hv hs.2.1 _ groups
  exact ⟨last', _, ⟨.braceCall ht hu d hw⟩, by simp only [Shape.plain, Shape.plains, ha]⟩

/-- The parentheses of a square root are written as braces. -/
theorem rootCall (hroot : isRoot t = true) (hu : u.kind = .openParen)
    (h : FormalizesArgument m r a) :
    FormalizesPart .primary (t :: u :: m) r (.call t.name (t.kind = .command) .paren [a]) := by
  intro hs _ last groups
  rw [Shape.singleArgs, Bool.and_eq_true, Shape.allSingleArgs, Bool.and_eq_true] at hs
  rw [formalPieces_root hroot hu]
  obtain ⟨last', b, v, ⟨d⟩, hv, hb⟩ := h hs.2.1 (some '\x7b') .root groups
  refine ⟨last', _, ⟨.braceCall rfl rfl d hv⟩, ?_⟩
  have htext : t.text = ['s', 'q', 'r', 't'] := by
    rw [isRoot, Bool.and_eq_true, decide_eq_true_eq, decide_eq_true_eq] at hroot
    exact hroot.2
  simp only [Shape.plain, Shape.plains, hb, name, htext]
  rfl

theorem parenCall (ht : t.isCallable = true) (hu : u.kind = .openParen)
    (h : FormalizesArgument m r a) :
    FormalizesPart .primary (t :: u :: m) r (.call t.name (t.kind = .command) .paren [a]) := by
  by_cases hroot : isRoot t = true
  · exact rootCall hroot hu h
  · rw [Bool.not_eq_true] at hroot
    intro hs _ last groups
    rw [Shape.singleArgs, Bool.and_eq_true, Shape.allSingleArgs, Bool.and_eq_true] at hs
    obtain ⟨w, last₀, hw, hcall, hname⟩ := formalPieces_callee ht hu hroot last groups (m := m)
    rw [hw]
    obtain ⟨last', b, v, ⟨d⟩, hv, hb⟩ := h hs.2.1 last₀ .paren groups
    refine ⟨last', _, ⟨.parenCall hcall hu (.lastArgument d hv)⟩, ?_⟩
    simp only [Shape.plain, Shape.plains, hb, hname]

theorem argument (h : FormalizesPart .sum m (v :: r) a) (hv : v.kind = .closeParen) :
    FormalizesArgument m r a := by
  intro hs last g groups
  obtain ⟨last₁, a', hd, ha⟩ := h hs (followsProduct_close (d := .paren) hv) last (g :: groups)
  obtain ⟨w, last₂, hw, hwk⟩ := formalPieces_close (d := .paren) hv last₁ g groups r
  rw [hw] at hd
  exact ⟨last₂, a', w, hd, hwk, ha⟩

end FormalizesPart

theorem formalizes {p : Part} {i r : List Piece} {es : List Shape} (d : Derivation p i r es)
    (hm : multipliesName i = false) : Formalizes p i r es := by
  have hsuffix {i m : List Piece} {t : Piece} (hi : multipliesName i = false)
      (h : t :: m <:+ i) : multipliesName m = false :=
    multipliesName_of_suffix ((List.suffix_cons t m).trans h) hi
  induction d with
  | ofProduct _ ih => exact (ih hm).of_rule .ofProduct
  | ofSigned _ ih => exact (ih hm).of_rule .ofSigned
  | ofPower _ ih => exact (ih hm).of_rule .ofPower
  | ofPrimary _ ih => exact (ih hm).of_rule .ofPrimary
  | add d hk _ ih₁ ih₂ =>
    exact (ih₁ hm).operator (ih₂ (hsuffix hm d.suffix)) (isCopied_of_sumKind? hk)
      fun d₁ d₂ => .add d₁ hk d₂
  | mul d₁ hk d₂ ih₁ ih₂ => exact .mul hk d₂ (ih₁ hm) (ih₂ (hsuffix hm d₁.suffix))
  | juxtapose d₁ d₂ ih₁ ih₂ =>
    exact .juxtapose d₂ (ih₁ hm) (ih₂ (multipliesName_of_suffix d₁.suffix hm))
  | sign hk _ ih => exact .sign hk (ih (hsuffix hm List.suffix_rfl))
  | raise d hk _ ih₁ ih₂ =>
    exact (ih₁ hm).operator (ih₂ (hsuffix hm d.suffix)) (by rw [hk]; rfl)
      fun d₁ d₂ => .raise d₁ hk d₂
  | number h => exact .number h
  | group hd _ hu ih => exact .group hd (ih (hsuffix hm List.suffix_rfl)) hu
  | symbol h hc => exact .symbol hm h hc
  | @braceCall t u _ m _ _ ht hu _ hv ih =>
    exact .braceCall ht hu (ih (hsuffix hm (List.suffix_cons t (u :: m)))) hv
  | @parenCall t u m r es ht hu _ ih =>
    have harguments := ih (hsuffix hm (List.suffix_cons t (u :: m)))
    intro hs
    have hone := hs
    rw [Shape.singleArgs, Bool.and_eq_true, decide_eq_true_eq] at hone
    obtain ⟨a, rfl⟩ := List.length_eq_one_iff.mp hone.1
    exact FormalizesPart.parenCall ht hu harguments hs
  | lastArgument _ hv ih => exact (ih hm).argument hv
  | nextArgument _ _ d _ _ => cases d <;> exact trivial

/-- An opening piece is written right after a name that the sign between them left. -/
theorem opens_formalPieces_of_mul {t u : Piece} {us : List Piece} (ht : t.kind = .mul)
    (hu : u.Valid) (hopen : u.kind.isOpening = true) (last : Option Char) (afterRoot : Bool)
    (groups : List FormalGroup) :
    opens (formalPieces last afterRoot groups (t :: u :: us)) = true := by
  have hmul : u.kind ≠ .mul := by rintro h; rw [h] at hopen; cases hopen
  have hwrites : writesSign last (u :: us) = false := by
    have hspell := hu.spells
    have hparen : isNumberChar '(' = false ∧ Lexer.isLetter '(' = false := by decide
    have hbrace : isNumberChar '\x7b' = false ∧ Lexer.isLetter '\x7b' = false := by decide
    rw [Kind.isOpening, Bool.or_eq_true, decide_eq_true_eq, decide_eq_true_eq] at hopen
    rcases hopen with hk | hk <;> rw [hk] at hspell <;> cases last <;>
      simp [writesSign, hk, Kind.isSign, show u.text = _ from hspell, hparen, hbrace]
  obtain ⟨w, ws, hw, hk, -⟩ := head_formalPieces hmul us last false groups
  rw [formalPieces_mul ht, hwrites, if_neg (by decide), hw, opens_cons, hk, hopen]

theorem written_isCallable {t : Piece} (h : t.kind ≠ .mul) (last : Option Char)
    (afterRoot : Bool) (groups : List FormalGroup) (ts : List Piece) :
    ∃ w, written last afterRoot groups t ts = some w ∧ w.isCallable = t.isCallable := by
  by_cases hname : t.kind = .name
  · refine ⟨_, by rw [written, hname], ?_⟩
    split
    · rcases callee_cases hname with hc | ⟨hc, hcall, -⟩
      · rw [hc]
      · simp [isCallable, hc, ← hcall]
    · rfl
  · refine ⟨bracket afterRoot groups t, ?_, ?_⟩
    · unfold written
      split <;> simp_all
    · unfold bracket
      split
      · next hk => cases afterRoot <;> simp [isCallable, hk]
      · next hk => split <;> simp [isCallable, hk]
      · rfl

/-- A group comes next in the formal text if it comes next or after a multiplication sign. -/
theorem opens_formalPieces_of_sites {ts : List Piece} (h : ∀ t ∈ ts, t.Valid)
    (last : Option Char) (afterRoot : Bool) (groups : List FormalGroup) :
    (if opens ts then 1 else 0) + (if ts.head?.any (·.kind = .mul) && opens ts.tail then 1 else 0) ≤
      if opens (formalPieces last afterRoot groups ts) then 1 else 0 := by
  cases ts with
  | nil => exact Nat.le_refl _
  | cons t us =>
    by_cases hmul : t.kind = .mul
    · have hopen : opens (t :: us) = false := by rw [opens_cons, hmul]; rfl
      rw [hopen]
      cases hus : opens us with
      | false => simp [hus]
      | true =>
        cases us with
        | nil => cases hus
        | cons u us =>
          have hu := h u (List.mem_cons_of_mem t List.mem_cons_self)
          rw [opens_formalPieces_of_mul hmul hu hus last afterRoot groups]
          simp [hmul, hus]
    · obtain ⟨u, vs, hu, hopen, -⟩ := head_formalPieces hmul us last afterRoot groups
      rw [hu, opens_cons, opens_cons, hopen]
      simp [hmul]

/-- No call is lost in the formal text, and there is one more for each name that was multiplied by
a group. -/
theorem callSites_formalPieces_le {ts : List Piece} (h : ∀ t ∈ ts, t.Valid) (last : Option Char)
    (afterRoot : Bool) (groups : List FormalGroup) :
    callSites ts + (if multipliesName ts then 1 else 0) ≤
      callSites (formalPieces last afterRoot groups ts) := by
  induction ts generalizing last afterRoot groups with
  | nil => exact Nat.zero_le _
  | cons t ts ih =>
    have ih := ih fun u hu => h u (List.mem_cons_of_mem t hu)
    by_cases hmul : t.kind = .mul
    · have hcall : t.isCallable = false := by simp [isCallable, hmul]
      have hcall' : productPiece.isCallable = false := rfl
      rw [formalPieces_mul hmul, callSites, multipliesName, hcall]
      by_cases hw : writesSign last ts = true
      · rw [if_pos hw, callSites, hcall']
        simpa using ih _ false groups
      · rw [if_neg hw]
        simpa using ih last false groups
    · obtain ⟨w, hw, hcall⟩ := written_isCallable hmul last afterRoot groups ts
      have hle := ih (lastVisible last w.text) (isRoot t) (groupsAfter afterRoot groups t)
      have hopens := opens_formalPieces_of_sites (fun u hu => h u (List.mem_cons_of_mem t hu))
        (lastVisible last w.text) (isRoot t) (groupsAfter afterRoot groups t)
      rw [formalPieces_cons, hw, Option.toList_some, List.singleton_append, callSites, callSites,
        multipliesName, hcall, Option.elim_some]
      cases hc : t.isCallable with
      | false => simpa using hle
      | true =>
        simp only [Bool.true_and]
        cases hm : multipliesName ts <;> rw [hm] at hle <;>
          cases hx : ts.head?.any (·.kind = .mul) && opens ts.tail <;> rw [hx] at hopens <;>
          simp at hle hopens ⊢ <;> omega

end Spelling

open Spelling

theorem separate_of_pieces {ts : List Token} (h : ∀ t ∈ pieces ts, t.kind ≠ .symbol) :
    Separate ts := by
  induction ts with
  | nil => trivial
  | cons t ts ih =>
    rw [pieces_cons] at h
    by_cases hspace : t.kind = .whitespace
    · rw [if_pos hspace] at h
      exact ⟨by simp [joins, hspace], ih h⟩
    · rw [if_neg hspace, List.forall_mem_cons, Token.kind_piece] at h
      exact ⟨by simp [joins, h.1], ih h.2⟩

theorem pieces_toFormal {s : String} (h : Separate (tokens s)) :
    pieces (tokens (toFormal s)) = formalPieces none false [] (pieces (tokens s)) := by
  rw [tokens, toFormal, String.toList_ofList]
  exact visible_formalFrom (lexed_tokensFrom 0 s.toList) h

/-- The formal spelling of an accepted text whose calls have one argument each is accepted and has
the same tree exactly if no name that could be called is multiplied by a group. -/
theorem toFormal_plain {s : String} {t : Expr} (h : parse s = .ok t)
    (hs : t.shape.singleArgs = true) :
    (∃ t', parse (toFormal s) = .ok t' ∧ t'.shape.plain = t.shape.plain) ↔
      multipliesName (pieces (tokens s)) = false := by
  obtain ⟨d⟩ := parse_eq_ok.mp ⟨t, h, rfl⟩
  have hvalid : ∀ u ∈ pieces (tokens s), u.Valid :=
    valid_of_mem_pieces (lexed_tokensFrom 0 s.toList)
  have hsep : Separate (tokens s) := separate_of_pieces fun u hu hk => by
    cases d.mem_of_symbol hu hk
  constructor
  · rintro ⟨t', h', he⟩
    obtain ⟨d'⟩ := parse_eq_ok.mp ⟨t', h', rfl⟩
    rw [pieces_toFormal hsep] at d'
    have hwords := d.words_congr d' (Shape.core_eq_of_plain he)
    have hle := callSites_formalPieces_le hvalid none false []
    rw [callSites_eq, callSites_eq, hwords] at hle
    cases hm : multipliesName (pieces (tokens s)) with
    | false => rfl
    | true =>
      rw [hm, if_pos rfl] at hle
      omega
  · intro hm
    have hfollows : FollowsProduct [] := fun _ _ he => by cases he
    obtain ⟨_, e, ⟨d'⟩, he⟩ := formalizes d hm hs hfollows none []
    rw [← pieces_toFormal hsep] at d'
    obtain ⟨t', h', rfl⟩ := parse_eq_ok.mpr ⟨d'⟩
    exact ⟨t', h', he⟩

theorem toFormal_plain_sine : ∃ t t', parse "2*sin(x)" = .ok t ∧ t.shape.singleArgs = true ∧
    parse (toFormal "2*sin(x)") = .ok t' ∧ t'.shape.plain = t.shape.plain := by
  have hargs : ((parse "2*sin(x)").toOption.any (·.shape.singleArgs)) = true := by decide +kernel
  have hproduct : multipliesName (pieces (tokens "2*sin(x)")) = false := by decide +kernel
  cases h : parse "2*sin(x)" with
  | error f => rw [h] at hargs; cases hargs
  | ok t =>
    rw [h] at hargs
    obtain ⟨t', h', he⟩ := (toFormal_plain h hargs).mpr hproduct
    exact ⟨t, t', rfl, hargs, h', he⟩

/-- The product of a constant and a group is written as a call. -/
theorem toFormal_makes_call : ¬∀ (s : String) (t : Expr), parse s = .ok t →
    t.shape.singleArgs = true →
    ∃ t', parse (toFormal s) = .ok t' ∧ t'.shape.plain = t.shape.plain := by
  intro hkeeps
  have hwords : ((parse "pi*(x)").toOption.any fun t =>
      (parse (toFormal "pi*(x)")).toOption.any fun t' =>
        t.shape.singleArgs && t.shape.core.words ≠ t'.shape.core.words) = true := by decide +kernel
  cases h : parse "pi*(x)" with
  | error f => rw [h] at hwords; cases hwords
  | ok t =>
    cases h' : parse (toFormal "pi*(x)") with
    | error f => rw [h, h'] at hwords; cases hwords
    | ok t' =>
      rw [h, h'] at hwords
      obtain ⟨hargs, hne⟩ : t.shape.singleArgs = true ∧
          t.shape.core.words ≠ t'.shape.core.words := by simpa [Except.toOption] using hwords
      obtain ⟨t'', h'', he⟩ := hkeeps _ t h hargs
      rw [h'] at h''
      cases h''
      exact hne (by rw [Shape.core_eq_of_plain he])

end CurveGuess
