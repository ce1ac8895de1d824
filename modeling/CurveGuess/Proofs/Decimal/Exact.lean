import CurveGuess.Proofs.Decimal.Packing
import CurveGuess.Proofs.Decimal.Whole
import Mathlib

/-!
# Doubles as rational numbers

A finite double is a rational number. Its negation is the negation of the number, and positive
doubles are compared as their numbers are, since the exponents of two canonical forms decide unless
they are the same.
-/
namespace CurveGuess.Double
open Float.Model UnpackedFloat Whole

/-- The number of a double, if `infinite` is taken for what is beyond the largest double. -/
def toRat (infinite : ℚ) (x : Float) : ℚ :=
  match x.toModel.unpack with
  | .notANumber | .zero _ => 0
  | .infinity s => s.apply 1 * infinite
  | .finite s m e _ => s.apply 1 * value m e

theorem apply_neg_one (s : Sign) : (-s).apply 1 = -s.apply 1 := by
  cases s <;> rfl

@[simp] theorem toRat_neg (infinite : ℚ) (x : Float) : toRat infinite (-x) = -toRat infinite x := by
  rw [toRat, toRat, unpack_neg]
  cases x.toModel.unpack with
  | notANumber | zero => exact neg_zero.symm
  | infinity s | finite s =>
    simp only [UnpackedFloat.neg, apply_neg_one]
    push_cast
    ring

/-- Is a double positive and finite? -/
def IsPositive (x : Float) : Prop := ∃ m e h, x.toModel.unpack = .finite .positive m e h

theorem isPositive_ofNat {n : Nat} (hpos : 0 < n) (hn : n < 2 ^ 53) :
    IsPositive (Arithmetic.ofNat n) :=
  ⟨_, _, _, unpack_ofScientific hpos hn⟩

/-- A larger exponent makes up for any mantissa. -/
theorem value_lt_value {m n : Nat} {d e : Int} (hm : m < 2 ^ 53) (hn : 2 ^ 52 ≤ n) (h : d < e) :
    value m d < value n e := by
  have hexponent : (2 : ℚ) ^ (d + 1) ≤ 2 ^ e := zpow_le_zpow_right₀ (by norm_num) h
  calc value m d < 2 ^ 53 * 2 ^ d := by
        rw [value]
        exact mul_lt_mul_of_pos_right (by exact_mod_cast hm) (by positivity)
    _ = 2 ^ 52 * 2 ^ (d + 1) := by
        rw [zpow_add_one₀ (by norm_num)]
        ring
    _ ≤ n * 2 ^ e := mul_le_mul (by exact_mod_cast hn) hexponent (by positivity) (by positivity)

/-- Exponents are compared first, and mantissas if they are the same. -/
theorem compare_eq_compare_value {m n : Nat} {d e : Int} {hm : 0 < m} {hn : 0 < n}
    (hx : IsCanonical (.finite .positive m d hm)) (hy : IsCanonical (.finite .positive n e hn)) :
    (compare d e).then (compare m n) = compare (value m d) (value n e) := by
  cases hx with
  | finite _ _ hmhigh hdlow _ hmcanonical =>
    cases hy with
    | finite _ _ hnhigh helow _ hncanonical =>
      rcases Int.lt_trichotomy d e with h | rfl | h
      · have hlt := value_lt_value hmhigh (hncanonical.resolve_right (by omega)) h
        rw [compare_lt_iff_lt.mpr h, compare_lt_iff_lt.mpr hlt]
        rfl
      · have hpos : (0 : ℚ) < 2 ^ d := by positivity
        rw [compare_eq_iff_eq.mpr rfl]
        rcases Nat.lt_trichotomy m n with h | rfl | h
        · have hlt : value m d < value n d :=
            mul_lt_mul_of_pos_right (by exact_mod_cast h) hpos
          rw [compare_lt_iff_lt.mpr h, compare_lt_iff_lt.mpr hlt]
          rfl
        · rw [compare_eq_iff_eq.mpr rfl, compare_eq_iff_eq.mpr rfl]
          rfl
        · have hlt : value n d < value m d :=
            mul_lt_mul_of_pos_right (by exact_mod_cast h) hpos
          rw [compare_gt_iff_gt.mpr h, compare_gt_iff_gt.mpr hlt]
          rfl
      · have hlt := value_lt_value hnhigh (hmcanonical.resolve_right (by omega)) h
        rw [compare_gt_iff_gt.mpr h, compare_gt_iff_gt.mpr hlt]
        rfl

theorem IsPositive.compare_eq {x y : Float} (hx : IsPositive x) (hy : IsPositive y) :
    x.toModel.unpack.compare y.toModel.unpack = some (compare (toRat 0 x) (toRat 0 y)) := by
  obtain ⟨m, d, hm, hx⟩ := hx
  obtain ⟨n, e, hn, hy⟩ := hy
  have hxcanonical := isCanonical_unpack x.toModel
  have hycanonical := isCanonical_unpack y.toModel
  rw [hx] at hxcanonical
  rw [hy] at hycanonical
  have hcompare := compare_eq_compare_value hxcanonical hycanonical
  simp only [toRat, hx, hy, Sign.apply, Int.cast_one, one_mul, ← hcompare]
  rfl

theorem IsPositive.le_eq {x y : Float} (hx : IsPositive x) (hy : IsPositive y) :
    Arithmetic.le x y = decide (toRat 0 x ≤ toRat 0 y) := by
  rw [Arithmetic.le_eq, hx.compare_eq hy, Option.any_some, Bool.eq_iff_iff, decide_eq_true_eq,
    Ordering.isLE_iff_ne_gt]
  exact compare_le_iff_le

theorem IsPositive.le_iff {x y : Float} (hx : IsPositive x) (hy : IsPositive y) :
    x ≤ y ↔ toRat 0 x ≤ toRat 0 y := by
  rw [← decide_eq_true_iff (p := toRat 0 x ≤ toRat 0 y), ← hx.le_eq hy]
  exact decide_eq_true_iff.symm

/-- No two doubles are the same number. -/
theorem IsPositive.toRat_inj {x y : Float} (hx : IsPositive x) (hy : IsPositive y)
    (h : toRat 0 x = toRat 0 y) : x = y := by
  have hcompare := hx.compare_eq hy
  rw [compare_eq_iff_eq.mpr h] at hcompare
  obtain ⟨m, d, hm, hx⟩ := hx
  obtain ⟨n, e, hn, hy⟩ := hy
  rw [hx, hy] at hcompare
  refine unpack_inj ?_
  obtain ⟨hde, hmn⟩ : compare d e = .eq ∧ compare m n = .eq :=
    Ordering.then_eq_eq.mp (Option.some.inj hcompare)
  obtain rfl := compare_eq_iff_eq.mp hde
  obtain rfl := compare_eq_iff_eq.mp hmn
  rw [hx, hy]

end CurveGuess.Double
