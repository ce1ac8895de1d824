import CurveGuess.Eval.Arithmetic
import Mathlib

/-!
# Packing doubles

A double is kept as 64 bits, and its operations unpack them into a sign, a mantissa and an exponent
and pack the result again. What unpacks from a double is canonical. Packing keeps all that is
canonical, and a double is packed from what it unpacks to, so that no two doubles unpack to the
same.
-/
namespace CurveGuess.Double
open Float.Model UnpackedFloat

/-- A mantissa has 53 bits, or it has the least exponent. -/
inductive IsCanonical : UnpackedFloat → Prop
  | notANumber : IsCanonical .notANumber
  | infinity (s : Sign) : IsCanonical (.infinity s)
  | zero (s : Sign) : IsCanonical (.zero s)
  | finite (s : Sign) {m : Nat} {e : Int} (hpos : 0 < m) (hm : m < 2 ^ 53) (hlow : -1074 ≤ e)
      (hhigh : e ≤ 971) (h : 2 ^ 52 ≤ m ∨ e = -1074) : IsCanonical (.finite s m e hpos)

theorem IsCanonical.neg {x : UnpackedFloat} (h : IsCanonical x) : IsCanonical x.neg := by
  cases h with
  | notANumber => exact .notANumber
  | infinity s => exact .infinity _
  | zero s => exact .zero _
  | finite s hpos hm hlow hhigh h => exact .finite _ hpos hm hlow hhigh h

/-- The first bit of a mantissa of 53 bits is not kept. -/
theorem toNat_one_append (m : BitVec 52) : (1#1 ++ m).toNat = 2 ^ 52 + m.toNat := by
  rw [BitVec.toNat_append, ← Nat.shiftLeft_add_eq_or_of_lt m.isLt]
  rfl

theorem isCanonical_unpack (x : Float.Model) : IsCanonical x.unpack := by
  have hexponent := (@unpackExponent .binary64 x.toBits.toBitVec).isLt
  have hmantissa := (@unpackMantissa .binary64 x.toBits.toBitVec).isLt
  rw [Float.Model.unpack, UnpackedFloat.unpack]
  dsimp only [Format.exponentBias] at hexponent hmantissa ⊢
  split
  · split
    · exact .infinity _
    · exact .notANumber
  · next hones =>
    have hlt : (@unpackExponent .binary64 x.toBits.toBitVec).toNat ≠ 2 ^ 11 - 1 :=
      fun h => hones (BitVec.eq_of_toNat_eq h)
    split
    · next hzero =>
      split
      · exact .zero _
      · refine .finite _ _ (by omega) ?_ ?_ (.inr ?_) <;> simp [hzero]
    · next hzero =>
      have hpos : (@unpackExponent .binary64 x.toBits.toBitVec).toNat ≠ 0 :=
        fun h => hzero (BitVec.eq_of_toNat_eq h)
      refine .finite _ _ ?_ (by omega) (by omega) (.inl ?_) <;> rw [toNat_one_append] <;> omega

@[simp] theorem ofBitVec_toBitVec (s : Sign) : Sign.ofBitVec s.toBitVec = s := by
  cases s <;> rfl

theorem ofNat_ne {w n : Nat} {v : BitVec w} (hn : n < 2 ^ w) (h : n ≠ v.toNat) :
    BitVec.ofNat w n ≠ v := by
  rintro rfl
  rw [BitVec.toNat_ofNat, Nat.mod_eq_of_lt hn] at h
  exact h rfl

theorem log2_eq_iff {m : Nat} (hpos : 0 < m) (hm : m < 2 ^ 53) : m.log2 = 52 ↔ 2 ^ 52 ≤ m := by
  rw [Nat.log2_eq_iff (by omega)]
  exact ⟨And.left, fun h => ⟨h, hm⟩⟩

/-- The exponent of a canonical double is kept as a positive number. -/
theorem pack_finite (s : Sign) {m : Nat} {e : Int} (hpos : 0 < m) (hm : m < 2 ^ 53)
    (hlow : -1074 ≤ e) (hhigh : e ≤ 971) :
    UnpackedFloat.pack .binary64 (.finite s m e hpos) =
      packComponents .binary64 s
        (if 2 ^ 52 ≤ m then BitVec.ofNat 11 (e + 1075).toNat else 0#11) (BitVec.ofNat 52 m) := by
  have hlog : m.log2 + 1 = Format.binary64.mantissaBits ↔ 2 ^ 52 ≤ m := by
    rw [← log2_eq_iff hpos hm]
    simp only [Format.mantissaBits]
    omega
  have hexponent : (e + Format.binary64.exponentBias +
      Format.binary64.mantissaBitsWithoutImplicit).toNat = (e + 1075).toNat := by
    simp only [Format.exponentBias]
    omega
  simp only [UnpackedFloat.pack, hlog, hexponent]
  rw [if_neg (by omega)]
  split <;> rfl

/-- Doubles go up to the exponent 971, and after that there is only infinity. -/
theorem pack_large (s : Sign) {m : Nat} {e : Int} (hpos : 0 < m) (h : 971 < e) :
    UnpackedFloat.pack .binary64 (.finite s m e hpos) = packedInfinity .binary64 s := by
  have hexponent : (e + Format.binary64.exponentBias +
      Format.binary64.mantissaBitsWithoutImplicit).toNat = (e + 1075).toNat := by
    simp only [Format.exponentBias]
    omega
  simp only [UnpackedFloat.pack, hexponent]
  rw [if_pos (by omega)]

theorem IsCanonical.unpack_pack {x : UnpackedFloat} (h : IsCanonical x) :
    (Float.Model.pack x).unpack = x := by
  cases h with
  | notANumber => rfl
  | infinity s | zero s => cases s <;> rfl
  | @finite s m e hpos hm hlow hhigh h =>
    change UnpackedFloat.unpack .binary64 (UnpackedFloat.pack .binary64 (.finite s m e hpos)) = _
    rw [pack_finite s hpos hm hlow hhigh]
    simp only [UnpackedFloat.unpack, unpackMantissa_packComponents, unpackExponent_packComponents,
      unpackSign_packComponents, ofBitVec_toBitVec, Format.exponentBias]
    by_cases hbits : 2 ^ 52 ≤ m
    · have hexponent : (BitVec.ofNat 11 (e + 1075).toNat).toNat = (e + 1075).toNat := by
        rw [BitVec.toNat_ofNat, Nat.mod_eq_of_lt (by omega)]
      have hones := ofNat_ne (v := -1#11) (n := (e + 1075).toNat) (by omega) (by simp; omega)
      have hzero := ofNat_ne (v := 0#11) (n := (e + 1075).toNat) (by omega) (by simp; omega)
      have hmantissa : (1#1 ++ BitVec.ofNat 52 m).toNat = m := by
        rw [toNat_one_append, BitVec.toNat_ofNat]
        omega
      simp only [if_pos hbits, hones, hzero, if_false, hexponent, hmantissa]
      congr 1
      omega
    · have hmantissa : (BitVec.ofNat 52 m).toNat = m := by
        rw [BitVec.toNat_ofNat, Nat.mod_eq_of_lt (by omega)]
      have hzero := ofNat_ne (v := 0#52) (n := m) (by omega) (by simp; omega)
      obtain rfl := h.resolve_left hbits
      simp only [if_neg hbits, hmantissa, hzero]
      rfl

@[simp] theorem unpack_neg (x : Float) : (-x).toModel.unpack = x.toModel.unpack.neg :=
  (isCanonical_unpack x.toModel).neg.unpack_pack

/-- The 64 bits are those of the sign, the exponent and the mantissa. -/
theorem eq_packComponents {b : BitVec Format.binary64.numBits} {e : BitVec 11} {m : BitVec 52}
    (he : unpackExponent b = e) (hm : unpackMantissa b = m) :
    packComponents .binary64 (Sign.ofBitVec (unpackSign b)) e m = b := by
  have hsign (v : BitVec 1) : (Sign.ofBitVec v).toBitVec = v := by
    revert v
    decide
  subst he hm
  simp only [packComponents, hsign, unpackSign, unpackExponent, unpackMantissa, BitVec.extractLsb]
  ext i hi
  grind

theorem pack_unpack_bits {b : BitVec Format.binary64.numBits} (hb : Format.binary64.Valid b) :
    UnpackedFloat.pack .binary64 (UnpackedFloat.unpack .binary64 b) = b := by
  have hexponent := (@unpackExponent .binary64 b).isLt
  have hmantissa := (@unpackMantissa .binary64 b).isLt
  rw [UnpackedFloat.unpack]
  dsimp only [Format.exponentBias] at hexponent hmantissa ⊢
  split
  · next hones =>
    split
    · next hm => exact eq_packComponents hones hm
    · next hm => exact (hb.eq_packedNaN hones hm).symm
  · next hones =>
    have hlt : (@unpackExponent .binary64 b).toNat ≠ 2 ^ 11 - 1 :=
      fun h => hones (BitVec.eq_of_toNat_eq h)
    split
    · next hzero =>
      split
      · next hm => exact eq_packComponents hzero hm
      · rw [hzero, pack_finite _ _ (by omega) (by simp) (by simp), if_neg (by omega),
          BitVec.ofNat_toNat, BitVec.setWidth_eq]
        exact eq_packComponents hzero rfl
    · next hzero =>
      have hpos : (@unpackExponent .binary64 b).toNat ≠ 0 :=
        fun h => hzero (BitVec.eq_of_toNat_eq h)
      have hm := toNat_one_append (@unpackMantissa .binary64 b)
      rw [pack_finite _ _ (by omega) (by omega) (by omega), if_pos (by omega)]
      refine eq_packComponents (BitVec.eq_of_toNat_eq ?_) (BitVec.eq_of_toNat_eq ?_)
      · change _ = _ % 2 ^ 11
        omega
      · change _ = _ % 2 ^ 52
        omega

theorem pack_unpack (x : Float.Model) : Float.Model.pack x.unpack = x := by
  obtain ⟨bits, hvalid⟩ := x
  simp only [Float.Model.pack, Float.Model.unpack, pack_unpack_bits hvalid]

theorem unpack_inj {x y : Float} (h : x.toModel.unpack = y.toModel.unpack) : x = y := by
  obtain ⟨x⟩ := x
  obtain ⟨y⟩ := y
  rw [← pack_unpack x, ← pack_unpack y]
  exact congrArg (fun u => Float.ofModel (Float.Model.pack u)) h

end CurveGuess.Double
