import CurveGuess.Proofs.Decimal.Whole

/-!
# Whole numbers below a bound

A part of a whole number is computed with three roundings, and each makes it larger by no more than
one part in `2 ^ 52`. As long as the part is smaller than the whole by more than that, rounding down
gives a whole number below the bound.
-/
namespace CurveGuess.Whole
open Float.Model UnpackedFloat

theorem isNormal_ofNat {n : Nat} (hpos : 0 < n) (hn : n < 2 ^ 53) :
    IsNormal (Arithmetic.ofNat n : Float).toModel.unpack (n * 2 ^ (52 - n.log2)) (n.log2 - 52) := by
  obtain ⟨hlow, hhigh⟩ := normal_shift hpos hn
  exact ⟨hlow, hhigh, _, unpack_ofScientific hpos hn⟩

theorem value_ofNat {n : Nat} (hpos : 0 < n) (hn : n < 2 ^ 53) :
    value (n * 2 ^ (52 - n.log2)) (n.log2 - 52) = n := by
  have hlog : n.log2 < 53 := (Nat.log2_lt (by omega)).mpr hn
  have hexp : ((52 - n.log2 : Nat) : Int) + (n.log2 - 52) = 0 := by omega
  rw [value, Nat.cast_mul, Nat.cast_pow, Nat.cast_ofNat, mul_assoc, ← zpow_natCast,
    ← zpow_add₀ (by norm_num), hexp, zpow_zero, mul_one]

/-- A positive whole number is infinite as a double, or it has grown by a rounding at most. -/
theorem isNormal_ofNat_or {n : Nat} (hpos : 0 < n) :
    (Arithmetic.ofNat n : Float).toModel.unpack = .infinity .positive ∨
      ∃ m e, IsNormal (Arithmetic.ofNat n : Float).toModel.unpack m e ∧ -52 ≤ e ∧
        value m e ≤ slack * n := by
  by_cases hn : n < 2 ^ 53
  · have hvalue : value (n * 2 ^ (52 - n.log2)) (n.log2 - 52) ≤ slack * n := by
      rw [value_ofNat hpos hn]
      exact le_mul_of_one_le_left (by positivity) (by norm_num [slack])
    exact .inr ⟨_, _, isNormal_ofNat hpos hn, by omega, hvalue⟩
  · rcases unpack_ofScientific_large (Nat.le_of_not_lt hn) with h | ⟨m, e, h, he, hvalue⟩
    · exact .inl h
    · exact .inr ⟨m, e, h, by omega, hvalue⟩

section
variable {x y : UnpackedFloat} {ma mb : Nat} {ea eb : Int}

theorem IsNormal.div (hx : IsNormal x ma ea) (hy : IsNormal y mb eb) (he : -1000 ≤ ea - eb) :
    ∃ m e, IsNormal (UnpackedFloat.div .binary64 x y) m e ∧ ea - eb - 53 ≤ e ∧ e ≤ ea - eb - 51 ∧
      value m e ≤ slack * (value ma ea / value mb eb) := by
  obtain ⟨hlowa, hhigha, hposa, rfl⟩ := hx
  obtain ⟨hlowb, hhighb, hposb, rfl⟩ := hy
  have hcore : divCore .binary64 ma ea mb eb =
      (ma * 2 ^ 53 / mb, ea - eb - 53, accuracyOfFraction (ma * 2 ^ 53 % mb) mb) := by
    have htarget : Format.binary64.targetExponent (totalExponent ma ea - totalExponent mb eb) =
        ea - eb - 53 := by
      simp only [Format.targetExponent, totalExponent, Format.mantissaBits, Format.minExponent,
        log2_normal hlowa hhigha, log2_normal hlowb hhighb]
      omega
    have hmin : min (ea - eb) (ea - eb - 53) = ea - eb - 53 := by omega
    have hshift : (ea - eb - (ea - eb - 53)).toNat = 53 := by omega
    simp only [divCore, htarget, hmin, hshift, Nat.shiftLeft_eq]
  have hquotient : 2 ^ 52 ≤ ma * 2 ^ 53 / mb := by
    rw [Nat.le_div_iff_mul_le hposb]
    omega
  have hlow := (Nat.le_log2 (by omega)).mpr hquotient
  have hhigh : (ma * 2 ^ 53 / mb).log2 < 54 := by
    rw [Nat.log2_lt (by omega), Nat.div_lt_iff_lt_mul hposb]
    omega
  obtain ⟨m, e, hnormal, hemin, hemax, hvalue⟩ :=
    exists_isNormal_round (accuracyOfFraction (ma * 2 ^ 53 % mb) mb) hquotient
      (e := ea - eb - 53) (by omega)
  refine ⟨m, e, ?_, by omega, by omega, ?_⟩
  · simp only [UnpackedFloat.div, hcore]
    exact hnormal
  · refine hvalue.trans (mul_le_mul_of_nonneg_left ?_ slack_nonneg)
    have hcast : ((ma * 2 ^ 53 / mb : Nat) : ℚ) ≤ ma * 2 ^ 53 / mb := by
      refine Nat.cast_div_le.trans_eq ?_
      norm_num
    calc value (ma * 2 ^ 53 / mb) (ea - eb - 53) ≤ ma * 2 ^ 53 / mb * 2 ^ (ea - eb - 53) :=
          mul_le_mul_of_nonneg_right hcast (by positivity)
      _ = value ma ea / value mb eb := by
        rw [value, value, zpow_sub₀ (by norm_num), zpow_sub₀ (by norm_num)]
        field_simp

theorem IsNormal.mul (hx : IsNormal x ma ea) (hy : IsNormal y mb eb) (he : -1000 ≤ ea + eb) :
    ∃ m e, IsNormal (UnpackedFloat.mul .binary64 x y) m e ∧ -1000 ≤ e ∧
      value m e ≤ slack * (value ma ea * value mb eb) := by
  obtain ⟨hlowa, hhigha, hposa, rfl⟩ := hx
  obtain ⟨hlowb, hhighb, hposb, rfl⟩ := hy
  have hproduct : 2 ^ 52 ≤ ma * mb := hlowa.trans (Nat.le_mul_of_pos_right ma hposb)
  have hlow := (Nat.le_log2 (by omega)).mpr hproduct
  obtain ⟨m, e, hnormal, hemin, -, hvalue⟩ :=
    exists_isNormal_round .exact hproduct (e := ea + eb) (by omega)
  refine ⟨m, e, hnormal, by omega, hvalue.trans_eq ?_⟩
  rw [value, value, value, zpow_add₀ (by norm_num), Nat.cast_mul]
  ring

end

end CurveGuess.Whole

namespace CurveGuess.Double
open Float.Model UnpackedFloat Whole

theorem floor_of_isNormal {x : Float} {m n : Nat} {e : Int} (hx : IsNormal x.toModel.unpack m e)
    (hn : value m e < n) : 0 ≤ floor x ∧ floor x < n := by
  obtain ⟨hpos, hx⟩ := hx.exists_eq
  have hfloor : floor x = (m * 2 ^ e.toNat / 2 ^ (-e).toNat : Nat) := by
    rw [floor, hx]
    simp [Sign.apply]
  rw [hfloor]
  refine ⟨Int.natCast_nonneg _, ?_⟩
  rw [Int.ofNat_lt, Nat.div_lt_iff_lt_mul (Nat.two_pow_pos _)]
  rw [value] at hn
  rcases Int.le_total 0 e with h | h
  · obtain ⟨k, rfl⟩ := Int.eq_ofNat_of_zero_le h
    rw [zpow_natCast] at hn
    simpa using (by exact_mod_cast hn : m * 2 ^ k < n)
  · obtain ⟨k, hk⟩ := Int.eq_ofNat_of_zero_le (Int.neg_nonneg_of_nonpos h)
    obtain rfl : e = -k := by omega
    rw [zpow_neg, zpow_natCast, ← div_eq_mul_inv, div_lt_iff₀ (by positivity)] at hn
    simpa using (by exact_mod_cast hn : m < n * 2 ^ k)

theorem floor_eq_zero {x : Float} (h : ∀ s m e hm, x.toModel.unpack ≠ .finite s m e hm) :
    floor x = 0 := by
  rw [floor]
  cases hx : x.toModel.unpack with
  | finite s m e hm => exact absurd hx (h s m e hm)
  | _ => rfl

/-- Three roundings do not fill a gap. -/
theorem slack_mul_lt {a b : Nat} (hab : a < b) (hb : b ≤ 2 ^ 50) : slack ^ 3 * (a / b) < 1 := by
  have hslack : slack ^ 3 ≤ 1 + 1 / 2 ^ 50 := by norm_num [slack]
  have hab' : (a : ℚ) + 1 ≤ b := by exact_mod_cast hab
  have hb' : (b : ℚ) ≤ 2 ^ 50 := by exact_mod_cast hb
  have hpos : (0 : ℚ) < b := by linarith [(Nat.cast_nonneg a : (0 : ℚ) ≤ a)]
  rw [← mul_div_assoc, div_lt_one hpos]
  calc slack ^ 3 * a ≤ (1 + 1 / 2 ^ 50) * a := mul_le_mul_of_nonneg_right hslack (by positivity)
    _ < b := by linarith

theorem unpack_mul (x y : Float) : (x * y).toModel.unpack =
    (Float.Model.pack (UnpackedFloat.mul .binary64 x.toModel.unpack y.toModel.unpack)).unpack := rfl

theorem floor_of_infinity {x : Float} {s : Sign} (h : x.toModel.unpack = .infinity s) :
    floor x = 0 :=
  floor_eq_zero (by simp [h])

theorem floor_zero_mul {n : Nat} (hn : 0 < n) : floor (0 * Arithmetic.ofNat n) = 0 := by
  apply floor_eq_zero
  rw [unpack_mul, unpack_zero]
  rcases isNormal_ofNat_or hn with h | ⟨m, e, ⟨-, -, _, h⟩, -⟩
  · rw [h]
    exact fun _ _ _ _ hfinite => by cases hfinite
  · have hzero : (Float.Model.pack (.zero .positive)).unpack = .zero .positive := by rfl
    rw [h]
    exact fun _ _ _ _ hfinite => by cases hzero.symm.trans hfinite

/-- A part of a whole number that is smaller than it, rounded down. -/
theorem floor_part {a b n : Nat} (hab : a < b) (hb : b ≤ 2 ^ 50) (hn : 0 < n) :
    0 ≤ floor (Arithmetic.ofNat a / Arithmetic.ofNat b * Arithmetic.ofNat n) ∧
      floor (Arithmetic.ofNat a / Arithmetic.ofNat b * Arithmetic.ofNat n) < n := by
  -- zero has no normal form
  rcases Nat.eq_zero_or_pos a with rfl | ha
  · rw [zero_div hab, floor_zero_mul hn]
    omega
  have hloga : a.log2 < 53 := (Nat.log2_lt (by omega)).mpr (by omega)
  have hlogb : b.log2 < 53 := (Nat.log2_lt (by omega)).mpr (by omega)
  obtain ⟨m, e, hquotient, hmin, hmax, hvalue⟩ :=
    (isNormal_ofNat ha (by omega)).div (isNormal_ofNat (n := b) (by omega) (by omega)) (by omega)
  rw [value_ofNat ha (by omega), value_ofNat (by omega) (by omega)] at hvalue
  have hunit : IsNormal (Arithmetic.ofNat a / Arithmetic.ofNat b : Float).toModel.unpack m e :=
    hquotient.pack (by omega) (by omega)
  generalize (Arithmetic.ofNat a / Arithmetic.ofNat b : Float) = u at hunit
  have hzero (h : (u * Arithmetic.ofNat n).toModel.unpack = .infinity .positive) :
      0 ≤ floor (u * Arithmetic.ofNat n) ∧ floor (u * Arithmetic.ofNat n) < n := by
    rw [floor_of_infinity h]
    omega
  rcases isNormal_ofNat_or hn with h | ⟨m', e', hnormal, he', hvalue'⟩
  · refine hzero ?_
    obtain ⟨hpos, hu⟩ := hunit.exists_eq
    have hpack : (Float.Model.pack (.infinity .positive)).unpack = .infinity .positive := by rfl
    rw [unpack_mul, hu, h]
    exact hpack
  · obtain ⟨m'', e'', hproduct, he'', hvalue''⟩ := hunit.mul hnormal (by omega)
    rcases hproduct.pack_or (by omega) with h | h
    · exact hzero h
    · refine floor_of_isNormal h ?_
      have hpos : (0 : ℚ) < n := by exact_mod_cast hn
      calc value m'' e'' ≤ slack * (value m e * value m' e') := hvalue''
        _ ≤ slack * (slack * (a / b) * (slack * n)) :=
          mul_le_mul_of_nonneg_left (mul_le_mul hvalue hvalue' (value_nonneg ..)
            (mul_nonneg slack_nonneg (by positivity))) slack_nonneg
        _ = slack ^ 3 * (a / b) * n := by ring
        _ < n := mul_lt_of_lt_one_left hpos (slack_mul_lt hab hb)

end CurveGuess.Double
