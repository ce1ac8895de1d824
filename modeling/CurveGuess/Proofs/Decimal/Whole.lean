import CurveGuess.Proofs.Decimal.Packing
import Mathlib

/-!
# Whole numbers as doubles

A whole number below `2 ^ 53` is a double, with the number as its mantissa once all 53 bits are
used, and so such numbers are compared as they are. Larger ones may be rounded, but they stay large,
and they grow by no more than one part in `2 ^ 52`.
-/
namespace CurveGuess.Whole
open Float.Model UnpackedFloat

/-- The number that a mantissa and an exponent stand for. -/
def value (m : Nat) (e : Int) : ℚ := m * 2 ^ e

/-- A positive double with a mantissa of 53 bits. -/
structure IsNormal (x : UnpackedFloat) (m : Nat) (e : Int) : Prop where
  low : 2 ^ 52 ≤ m
  high : m < 2 ^ 53
  exists_eq : ∃ h, x = .finite .positive m e h

/-- How much a number may grow when it is rounded. -/
def slack : ℚ := 1 + 1 / 2 ^ 52

theorem slack_nonneg : 0 ≤ slack := by norm_num [slack]

theorem value_nonneg (m : Nat) (e : Int) : 0 ≤ value m e := by
  rw [value]
  positivity

theorem log2_normal {m : Nat} (hlow : 2 ^ 52 ≤ m) (hhigh : m < 2 ^ 53) : m.log2 = 52 :=
  (Nat.log2_eq_iff (by omega)).mpr ⟨hlow, hhigh⟩

theorem targetExponent_eq {m : Nat} {e : Int} (h : -1074 ≤ (m.log2 : Int) - 52 + e) :
    Format.binary64.targetExponent (totalExponent m e) = m.log2 - 52 + e := by
  simp only [Format.targetExponent, totalExponent, Format.mantissaBits, Format.minExponent]
  omega

theorem mantissa_shiftRight (em : ExtendedMantissa) (k : Nat) :
    (em >>> k).mantissa = em.mantissa / 2 ^ k := by
  change (k.repeat ExtendedMantissa.shiftRightOne em).mantissa = _
  induction k with
  | zero => simp [Nat.repeat]
  | succ k ih =>
    rw [Nat.repeat, ExtendedMantissa.shiftRightOne, ih, Nat.pow_succ, Nat.div_div_eq_div_mul]

theorem shiftRight_exact (m k : Nat) :
    (ExtendedMantissa.mk (m * 2 ^ k) false false) >>> k = ⟨m, false, false⟩ := by
  change k.repeat ExtendedMantissa.shiftRightOne _ = _
  induction k generalizing m with
  | zero => simp [Nat.repeat]
  | succ k ih =>
    rw [Nat.repeat, Nat.pow_succ', ← Nat.mul_assoc, ih]
    simp [ExtendedMantissa.shiftRightOne]

theorem roundedMantissa_bounds (em : ExtendedMantissa) :
    em.mantissa ≤ em.roundedMantissa ∧ em.roundedMantissa ≤ em.mantissa + 1 := by
  obtain ⟨m, r, s⟩ := em
  cases r <;> cases s <;>
    simp [ExtendedMantissa.roundedMantissa, ExtendedMantissa.accuracy, Accuracy.roundToNearestEven]
  omega

theorem mantissa_ofMantissaAndAccuracy (m : Nat) (acc : Accuracy) :
    (ExtendedMantissa.ofMantissaAndAccuracy m acc).mantissa = m := by
  rcases acc with _ | o
  · rfl
  · cases o <;> rfl

/-- What the model rounds to has a mantissa of 53 bits. -/
theorem shiftToTargetExponent_normal {m : Nat} {e : Int} (acc : Accuracy) (hlow : 2 ^ 52 ≤ m)
    (hhigh : m < 2 ^ 53) (he : -1074 ≤ e) :
    shiftToTargetExponent .binary64 m e acc = (.ofMantissaAndAccuracy m acc, e) := by
  have hlog := log2_normal hlow hhigh
  have htarget : Format.binary64.targetExponent (totalExponent m e) = e := by
    rw [targetExponent_eq (by omega)]
    omega
  simp only [shiftToTargetExponent, shiftToExponent, htarget, Int.sub_self]
  refine Prod.ext rfl (Int.add_zero e)

theorem roundWithAccuracy_exact {m : Nat} {e : Int} (hlow : 2 ^ 52 ≤ m) (hhigh : m < 2 ^ 53)
    (he : -1074 ≤ e) (k : Nat) :
    roundWithAccuracy .binary64 .positive (m * 2 ^ k) (e - k) .exact =
      .finite .positive m e (by omega) := by
  have hlog : (m * 2 ^ k).log2 = 52 + k := by
    have hpos := Nat.two_pow_pos k
    rw [Nat.log2_eq_iff (Nat.mul_ne_zero (by omega) (by omega)), Nat.pow_add,
      show 52 + k + 1 = 53 + k by omega, Nat.pow_add]
    exact ⟨Nat.mul_le_mul_right _ hlow, Nat.mul_lt_mul_of_pos_right hhigh hpos⟩
  have htarget : Format.binary64.targetExponent (totalExponent (m * 2 ^ k) (e - k)) = e := by
    rw [targetExponent_eq (by omega)]
    omega
  have hfirst : shiftToTargetExponent .binary64 (m * 2 ^ k) (e - k) .exact =
      (⟨m, false, false⟩, e) := by
    simp only [shiftToTargetExponent, shiftToExponent, htarget]
    have hshift : (e - (e - k)).toNat = k := by omega
    rw [hshift]
    exact Prod.ext (shiftRight_exact m k) (Int.sub_add_cancel e k)
  have hsecond := shiftToTargetExponent_normal .exact hlow hhigh he
  simp only [roundWithAccuracy, hfirst, hsecond, ExtendedMantissa.roundedMantissa,
    ExtendedMantissa.accuracy, Accuracy.roundToNearestEven, mantissa_ofMantissaAndAccuracy]
  rw [dif_neg (by omega)]

theorem shiftToTargetExponent_carry {e : Int} (he : -1074 ≤ e) :
    shiftToTargetExponent .binary64 (2 ^ 53) e .exact = (⟨2 ^ 52, false, false⟩, e + 1) := by
  have htarget : Format.binary64.targetExponent (totalExponent (2 ^ 53) e) = e + 1 := by
    rw [targetExponent_eq (by rw [Nat.log2_two_pow]; omega), Nat.log2_two_pow]
    omega
  have hshift : (e + 1 - e).toNat = 1 := by omega
  simp only [shiftToTargetExponent, shiftToExponent, htarget, hshift]
  rfl

/-- What is cut off when a mantissa is shortened is less than one part in `2 ^ 52` of it. -/
theorem rounded_mul_le {m k r : Nat} (hm : 2 ^ (52 + k) ≤ m) (hr : r ≤ m / 2 ^ k + 1) (e : Int) :
    value r (k + e) ≤ slack * value m e := by
  have hnat : 2 ^ 52 * (r * 2 ^ k) ≤ (2 ^ 52 + 1) * m := by
    have hdiv := Nat.div_mul_le_self m (2 ^ k)
    have hmul := Nat.mul_le_mul_right (2 ^ k) hr
    rw [Nat.add_one_mul] at hmul
    rw [Nat.pow_add] at hm
    omega
  have hcast : (2 : ℚ) ^ 52 * (r * 2 ^ k) ≤ (2 ^ 52 + 1) * m := by exact_mod_cast hnat
  have hscaled : (r : ℚ) * 2 ^ k ≤ slack * m := by
    rw [slack]
    linarith
  calc value r (k + e) = r * 2 ^ k * 2 ^ e := by
        rw [value, zpow_add₀ (by norm_num), zpow_natCast, mul_assoc]
    _ ≤ slack * m * 2 ^ e := mul_le_mul_of_nonneg_right hscaled (by positivity)
    _ = slack * value m e := by rw [value, mul_assoc]

/-- Rounding keeps the size of a number that has enough bits. -/
theorem exists_isNormal_round {m : Nat} {e : Int} (acc : Accuracy) (hm : 2 ^ 52 ≤ m)
    (he : -1074 ≤ (m.log2 : Int) - 52 + e) :
    ∃ m' e', IsNormal (roundWithAccuracy .binary64 .positive m e acc) m' e' ∧
      (m.log2 : Int) - 52 + e ≤ e' ∧ e' ≤ (m.log2 : Int) - 51 + e ∧
      value m' e' ≤ slack * value m e := by
  obtain ⟨k, hk⟩ := Nat.exists_eq_add_of_le ((Nat.le_log2 (by omega)).mpr hm)
  have hpow := (Nat.log2_eq_iff (by omega)).mp hk
  have hfirst : shiftToTargetExponent .binary64 m e acc =
      (ExtendedMantissa.ofMantissaAndAccuracy m acc >>> k, (k : Int) + e) := by
    have hshift : (((52 + k : Nat) : Int) - 52 + e - e).toNat = k := by omega
    simp only [shiftToTargetExponent, shiftToExponent, targetExponent_eq he, hk, hshift]
    exact Prod.ext rfl (Int.add_comm e k)
  have hmantissa := mantissa_shiftRight (.ofMantissaAndAccuracy m acc) k
  have hround := roundedMantissa_bounds (ExtendedMantissa.ofMantissaAndAccuracy m acc >>> k)
  rw [hmantissa, mantissa_ofMantissaAndAccuracy] at hround
  have hlow : 2 ^ 52 ≤ m / 2 ^ k :=
    (Nat.le_div_iff_mul_le (Nat.two_pow_pos k)).mpr (by rw [← Nat.pow_add]; exact hpow.1)
  have hhigh : m / 2 ^ k < 2 ^ 53 :=
    (Nat.div_lt_iff_lt_mul (Nat.two_pow_pos k)).mpr
      (by rw [← Nat.pow_add, show 53 + k = 52 + k + 1 by omega]; exact hpow.2)
  generalize ExtendedMantissa.ofMantissaAndAccuracy m acc >>> k = em at hfirst hround
  have hvalue := rounded_mul_le hpow.1 hround.2 e
  by_cases hcarry : em.roundedMantissa = 2 ^ 53
  · refine ⟨2 ^ 52, k + e + 1, ⟨by decide, by decide, by decide, ?_⟩, by omega, by omega, ?_⟩
    · simp only [roundWithAccuracy, hfirst, hcarry,
        shiftToTargetExponent_carry (e := k + e) (by omega)]
      rfl
    · rw [hcarry] at hvalue
      refine Eq.trans_le ?_ hvalue
      rw [value, value, zpow_add_one₀ (by norm_num)]
      push_cast
      ring
  · have hsecond := shiftToTargetExponent_normal (m := em.roundedMantissa) (e := k + e) .exact
      (by omega) (by omega) (by omega)
    refine ⟨em.roundedMantissa, k + e, ⟨by omega, by omega, by omega, ?_⟩, by omega, by omega,
      hvalue⟩
    simp only [roundWithAccuracy, hfirst, hsecond, mantissa_ofMantissaAndAccuracy]
    rw [dif_neg (by omega)]

theorem unpack_pack {m : Nat} {e : Int} (hlow : 2 ^ 52 ≤ m) (hhigh : m < 2 ^ 53)
    (he : -1074 ≤ e) :
    (Float.Model.pack (.finite .positive m e (by omega))).unpack =
      if e ≤ 971 then .finite .positive m e (by omega) else .infinity .positive := by
  by_cases hbig : e ≤ 971
  · rw [if_pos hbig]
    exact (Double.IsCanonical.finite .positive _ hhigh he hbig (.inl hlow)).unpack_pack
  · rw [if_neg hbig]
    change UnpackedFloat.unpack .binary64 (UnpackedFloat.pack .binary64 _) = _
    rw [Double.pack_large .positive _ (by omega)]
    rfl

theorem IsNormal.pack {x : UnpackedFloat} {m : Nat} {e : Int} (h : IsNormal x m e)
    (hlow : -1074 ≤ e) (hhigh : e ≤ 971) : IsNormal (Float.Model.pack x).unpack m e := by
  obtain ⟨hpos, rfl⟩ := h.exists_eq
  refine ⟨h.low, h.high, hpos, ?_⟩
  rw [unpack_pack h.low h.high hlow, if_pos hhigh]

/-- What is too large becomes infinite. -/
theorem IsNormal.pack_or {x : UnpackedFloat} {m : Nat} {e : Int} (h : IsNormal x m e)
    (hlow : -1074 ≤ e) : (Float.Model.pack x).unpack = .infinity .positive ∨
      IsNormal (Float.Model.pack x).unpack m e := by
  by_cases hhigh : e ≤ 971
  · exact .inr (h.pack hlow hhigh)
  · obtain ⟨hpos, rfl⟩ := h.exists_eq
    rw [unpack_pack h.low h.high hlow, if_neg hhigh]
    exact .inl rfl

/-- A whole number that fits has 53 bits after a shift. -/
theorem normal_shift {n : Nat} (hpos : 0 < n) (hn : n < 2 ^ 53) :
    2 ^ 52 ≤ n * 2 ^ (52 - n.log2) ∧ n * 2 ^ (52 - n.log2) < 2 ^ 53 := by
  have hlog : n.log2 < 53 := (Nat.log2_lt (by omega)).mpr hn
  have hpow := (Nat.log2_eq_iff (by omega)).mp (rfl : n.log2 = n.log2)
  have hsplit : (2 : Nat) ^ n.log2 * 2 ^ (52 - n.log2) = 2 ^ 52 := by
    rw [← Nat.pow_add, Nat.add_sub_cancel' (by omega)]
  have hlow := Nat.mul_le_mul_right (2 ^ (52 - n.log2)) hpow.1
  have hhigh := Nat.mul_lt_mul_of_pos_right hpow.2 (Nat.two_pow_pos (52 - n.log2))
  rw [Nat.pow_succ', Nat.mul_assoc] at hhigh
  omega

theorem ofUInt64_eq {n : Nat} (hpos : 0 < n) (hn : n < 2 ^ 53) :
    UnpackedFloat.ofUInt64 .binary64 n.toUInt64 =
      .finite .positive (n * 2 ^ (52 - n.log2)) (n.log2 - 52)
        (Nat.mul_pos hpos (Nat.two_pow_pos _)) := by
  have hlog : n.log2 < 53 := (Nat.log2_lt (by omega)).mpr hn
  have hnat : n.toUInt64.toNat = n := by
    simp [Nat.toUInt64]
    omega
  have htarget : Format.binary64.targetExponent (totalExponent n 0) = n.log2 - 52 := by
    rw [targetExponent_eq (by omega)]
    omega
  have hshift : (0 - ((n.log2 : Int) - 52)).toNat = 52 - n.log2 := by omega
  obtain ⟨hlow, hhigh⟩ := normal_shift hpos hn
  have hexact := roundWithAccuracy_exact (e := n.log2 - 52) hlow hhigh (by omega) 0
  have hexp : (0 : Int) - ((52 - n.log2 : Nat) : Int) = n.log2 - 52 := by omega
  have hgt : compare (n : Int) 0 = .gt := Int.compare_eq_gt.mpr (by omega)
  simp only [UnpackedFloat.ofUInt64, UnpackedFloat.ofNat, UnpackedFloat.ofInt,
    UnpackedFloat.normalize, hnat, hgt, UnpackedFloat.round, Int.toNat_natCast, htarget,
    decreaseExponent, hshift, Nat.shiftLeft_eq, hexp]
  simpa using hexact

theorem div_one {m : Nat} {e : Int} (hlow : 2 ^ 52 ≤ m) (hhigh : m < 2 ^ 53) (he : -1000 ≤ e) :
    UnpackedFloat.div .binary64 (.finite .positive m e (by omega))
      (.finite .positive (2 ^ 52) (-52) (by decide)) = .finite .positive m e (by omega) := by
  have hlog := log2_normal hlow hhigh
  have hcore : divCore .binary64 m e (2 ^ 52) (-52) = (m * 2 ^ 1, e - (1 : Nat), .exact) := by
    have htarget : Format.binary64.targetExponent (totalExponent m e - totalExponent (2 ^ 52) (-52))
        = e - 1 := by
      simp only [Format.targetExponent, totalExponent, Format.mantissaBits, Format.minExponent,
        hlog, Nat.log2_two_pow]
      omega
    have hshift : (e - -52 - (e - 1)).toNat = 53 := by omega
    have hmin : min (e - -52) (e - 1) = e - 1 := by omega
    simp only [divCore, htarget, hmin, hshift, Nat.shiftLeft_eq]
    have hdiv : m * 2 ^ 53 / 2 ^ 52 = m * 2 ^ 1 := by omega
    have hmod : m * 2 ^ 53 % 2 ^ 52 = 0 := by omega
    rw [hdiv, hmod]
    rfl
  simp only [UnpackedFloat.div, hcore]
  exact roundWithAccuracy_exact hlow hhigh (by omega) 1

theorem unpack_ofScientific {n : Nat} (hpos : 0 < n) (hn : n < 2 ^ 53) :
    (Float.ofScientific n true 0).toModel.unpack =
      .finite .positive (n * 2 ^ (52 - n.log2)) (n.log2 - 52)
        (Nat.mul_pos hpos (Nat.two_pow_pos _)) := by
  have hlog : n.log2 < 53 := (Nat.log2_lt (by omega)).mpr hn
  obtain ⟨hlow, hhigh⟩ := normal_shift hpos hn
  have hone : (Float.ofBits 4607182418800017408).toModel.unpack =
      .finite .positive (2 ^ 52) (-52) (by decide) := by rfl
  rw [Float.ofScientific, dif_pos ⟨hn, by decide⟩]
  change (Float.Model.pack (UnpackedFloat.div .binary64
    (Float.Model.pack (UnpackedFloat.ofUInt64 .binary64 n.toUInt64)).unpack
    (Float.ofBits 4607182418800017408).toModel.unpack)).unpack = _
  rw [hone, ofUInt64_eq hpos hn, unpack_pack hlow hhigh (by omega), if_pos (by omega),
    div_one hlow hhigh (by omega), unpack_pack hlow hhigh (by omega), if_pos (by omega)]

/-- Larger numbers may be rounded, but they stay large. -/
theorem unpack_ofScientific_large {n : Nat} (hn : 2 ^ 53 ≤ n) :
    (Float.ofScientific n true 0).toModel.unpack = .infinity .positive ∨
      ∃ m e, IsNormal (Float.ofScientific n true 0).toModel.unpack m e ∧ 1 ≤ e ∧
        value m e ≤ slack * n := by
  have hlog : 53 ≤ n.log2 := (Nat.le_log2 (by omega)).mpr hn
  have hlog' : (n * 2 ^ 53).log2 = n.log2 + 53 := by
    have hpow := (Nat.log2_eq_iff (by omega)).mp (rfl : n.log2 = n.log2)
    rw [Nat.log2_eq_iff (by omega), Nat.pow_add, Nat.add_right_comm, Nat.pow_add]
    omega
  obtain ⟨m, e, hnormal, he, -, hvalue⟩ :=
    exists_isNormal_round (m := n * 2 ^ 53) (e := -53) .exact (by omega) (by omega)
  have hmodel : UnpackedFloat.ofScientific .binary64 n 0 =
      roundWithAccuracy .binary64 .positive (n * 2 ^ 53) (-53) .exact := by
    have hsmall : ¬(0 : Int) < -(2 ^ 11 + n.log2) := by omega
    rw [UnpackedFloat.ofScientific, dif_neg (by omega), if_neg (by decide), if_neg hsmall,
      if_pos (by decide)]
    simp only [UnpackedFloat.mul, Nat.shiftLeft_eq, Int.toNat_zero, Nat.pow_zero, Nat.mul_one,
      Int.add_zero]
    rfl
  have hunpack : (Float.ofScientific n true 0).toModel.unpack =
      (Float.Model.pack (roundWithAccuracy .binary64 .positive (n * 2 ^ 53) (-53)
        .exact)).unpack := by
    rw [Float.ofScientific, dif_neg (by omega), ← hmodel]
    rfl
  have hscale : value (n * 2 ^ 53) (-53) = n := by
    rw [value, Nat.cast_mul, mul_assoc]
    norm_num
  rw [hscale] at hvalue
  rw [hunpack]
  exact (hnormal.pack_or (by omega)).imp id fun h => ⟨m, e, h, by omega, hvalue⟩

theorem unpack_zero : (0 : Float).toModel.unpack = .zero .positive := by rfl

/-- No part of something is zero. -/
theorem zero_div {n : Nat} (hn : 0 < n) :
    (Arithmetic.ofNat 0 : Float) / Arithmetic.ofNat n = 0 := by
  have hdiv : UnpackedFloat.div .binary64 (0 : Float).toModel.unpack
      (Float.ofScientific n true 0).toModel.unpack = .zero .positive := by
    rw [unpack_zero]
    by_cases hsmall : n < 2 ^ 53
    · rw [unpack_ofScientific hn hsmall]
      rfl
    · obtain h | ⟨m, e, ⟨-, -, _, h⟩, -⟩ := unpack_ofScientific_large (Nat.le_of_not_lt hsmall)
      · rw [h]
        rfl
      · rw [h]
        rfl
  change Float.ofModel (Float.Model.pack (UnpackedFloat.div .binary64
    (0 : Float).toModel.unpack (Float.ofScientific n true 0).toModel.unpack)) = 0
  rw [hdiv]
  rfl

theorem sub_self {x : UnpackedFloat} (h : x.isFinite = true) :
    UnpackedFloat.sub .binary64 x x = .zero .positive := by
  cases x with
  | notANumber | infinity => cases h
  | zero s => cases s <;> rfl
  | finite s m e hm =>
    simp only [UnpackedFloat.sub, Int.min_self, decreaseExponent, Int.sub_self, Int.toNat_zero,
      Nat.shiftLeft_zero, UnpackedFloat.normalize]
    rfl

/-- Normal forms are compared like the numbers they are of. -/
theorem compare_normal {a b : Nat} (ha : 0 < a) (hb : 0 < b) :
    (compare (a.log2 - 52 : Int) (b.log2 - 52)).then
      (compare (a * 2 ^ (52 - a.log2)) (b * 2 ^ (52 - b.log2))) = compare a b := by
  have hpa := (Nat.log2_eq_iff (by omega)).mp (rfl : a.log2 = a.log2)
  have hpb := (Nat.log2_eq_iff (by omega)).mp (rfl : b.log2 = b.log2)
  rcases Nat.lt_trichotomy a.log2 b.log2 with h | h | h
  · have hpow := Nat.pow_le_pow_right (n := 2) (by decide) (show a.log2 + 1 ≤ b.log2 from h)
    rw [Int.compare_eq_lt.mpr (by omega), Nat.compare_eq_lt.mpr (show a < b by omega)]
    rfl
  · rw [h, Int.compare_eq_eq.mpr rfl]
    have hpos := Nat.two_pow_pos (52 - b.log2)
    simp only [Ordering.then, compare, compareOfLessAndEq, Nat.mul_lt_mul_right hpos,
      Nat.mul_left_inj (Nat.ne_of_gt hpos)]
  · have hpow := Nat.pow_le_pow_right (n := 2) (by decide) (show b.log2 + 1 ≤ a.log2 from h)
    rw [Int.compare_eq_gt.mpr (by omega), Nat.compare_eq_gt.mpr (show b < a by omega)]
    rfl

theorem compare_ofScientific {a b : Nat} (ha : 0 < a) (hb : 0 < b) (ha' : a < 2 ^ 53)
    (hb' : b < 2 ^ 53) :
    (Float.ofScientific a true 0).toModel.unpack.compare
      (Float.ofScientific b true 0).toModel.unpack = some (compare a b) := by
  rw [unpack_ofScientific ha ha', unpack_ofScientific hb hb', ← compare_normal ha hb]
  rfl

theorem compare_ofScientific_large {a b : Nat} (ha : 2 ^ 53 ≤ a) (hb : 0 < b) (hb' : b < 2 ^ 53) :
    (Float.ofScientific a true 0).toModel.unpack.compare
      (Float.ofScientific b true 0).toModel.unpack = some .gt := by
  have hlog : b.log2 < 53 := (Nat.log2_lt (by omega)).mpr hb'
  rw [unpack_ofScientific hb hb']
  rcases unpack_ofScientific_large ha with h | ⟨m, e, ⟨-, -, _, h⟩, he, -⟩
  · rw [h]
    rfl
  · rw [h]
    simp only [UnpackedFloat.compare, Int.compare_eq_gt.mpr (show e > (b.log2 : Int) - 52 by omega)]
    rfl

end CurveGuess.Whole

namespace CurveGuess.Arithmetic

theorem lt_eq (a b : Float) :
    lt a b = (a.toModel.unpack.compare b.toModel.unpack == some .lt) := by
  change decide (decide (_ = true) = true) = _
  simp
  rfl

theorem le_eq (a b : Float) :
    le a b = (a.toModel.unpack.compare b.toModel.unpack).any Ordering.isLE := by
  change decide (decide (_ = true) = true) = _
  simp
  rfl

theorem lt_ofNat {a b : Nat} (ha : 0 < a) (hb : 0 < b) (ha' : a < 2 ^ 53) (hb' : b < 2 ^ 53) :
    lt (ofNat a : Float) (ofNat b) = decide (a < b) := by
  rw [lt_eq]
  change ((Float.ofScientific a true 0).toModel.unpack.compare
    (Float.ofScientific b true 0).toModel.unpack == _) = _
  rw [Whole.compare_ofScientific ha hb ha' hb', Bool.eq_iff_iff]
  simp [Nat.compare_eq_lt]

theorem le_ofNat {a b : Nat} (ha : 0 < a) (hb : 0 < b) (ha' : a < 2 ^ 53) (hb' : b < 2 ^ 53) :
    le (ofNat a : Float) (ofNat b) = decide (a ≤ b) := by
  rw [le_eq]
  change Option.any _ ((Float.ofScientific a true 0).toModel.unpack.compare
    (Float.ofScientific b true 0).toModel.unpack) = _
  rw [Whole.compare_ofScientific ha hb ha' hb', Bool.eq_iff_iff]
  simp [Nat.isLE_compare]

theorem lt_ofNat_large {a b : Nat} (ha : 2 ^ 53 ≤ a) (hb : 0 < b) (hb' : b < 2 ^ 53) :
    lt (ofNat a : Float) (ofNat b) = false := by
  rw [lt_eq]
  change ((Float.ofScientific a true 0).toModel.unpack.compare
    (Float.ofScientific b true 0).toModel.unpack == _) = _
  rw [Whole.compare_ofScientific_large ha hb hb']
  rfl

/-- A finite double is at no distance from itself. -/
theorem abs_sub_self {y : Float} (h : isFinite y = true) : abs (y - y) = ofNat 0 := by
  change Float.ofModel (Float.Model.pack (Float.Model.pack (Float.Model.UnpackedFloat.sub .binary64
    y.toModel.unpack y.toModel.unpack)).unpack.abs) = _
  rw [Whole.sub_self h]
  rfl

/-- A bound that is not negative is not below zero. -/
theorem lt_zero_of_le {a : Float} (h : 0 ≤ a) : lt a 0 = false := by
  have hle : le 0 a = true := decide_eq_true h
  rw [le_eq, Whole.unpack_zero] at hle
  rw [lt_eq, Whole.unpack_zero]
  cases hunpack : a.toModel.unpack with
  | notANumber => rfl
  | zero => rfl
  | infinity s | finite s =>
    rw [hunpack] at hle
    cases s with
    | positive => rfl
    | negative => cases hle

end CurveGuess.Arithmetic
