import CurveGuess.Proofs.Random.Recurrence
import Mathlib

/-!
# Hashes are polynomials

The hash of a text is a polynomial in 31 over the sixteen-bit units of the text, read as a word of
32 bits with a sign, without the sign. The lowest word has no counterpart among the words with a
sign, but its size is a hash all the same. Hashes are so small that no stream from one ever goes
round.
-/
namespace CurveGuess

namespace Char

theorem toNat_lt (c : Char) : c.toNat < 0x110000 := by
  have hvalid := c.valid
  simp only [UInt32.isValidChar, Nat.isValidChar] at hvalid
  change c.val.toNat < 0x110000
  omega

theorem length_units16 (c : Char) :
    (units16 c).length = 1 + if 0x10000 ≤ c.toNat then 1 else 0 := by
  rw [units16]
  split <;> split <;> first | rfl | omega

theorem lt_of_mem_units16 {c : Char} {u : Nat} (h : u ∈ units16 c) : u < 2 ^ 16 := by
  have hlt := toNat_lt c
  rw [units16] at h
  split at h
  · obtain rfl := List.mem_singleton.mp h
    assumption
  · simp only [List.mem_cons, List.not_mem_nil, or_false] at h
    omega

end Char

theorem units16_append (s t : String) : units16 (s ++ t) = units16 s ++ units16 t := by
  rw [units16, String.toList_append, List.flatMap_append]
  rfl

theorem lt_of_mem_units16 {s : String} {u : Nat} (h : u ∈ units16 s) : u < 2 ^ 16 := by
  obtain ⟨c, -, hc⟩ := List.mem_flatMap.mp h
  exact Char.lt_of_mem_units16 hc

/-- Characters beyond the basic plane have two units. -/
theorem length_units16 (s : String) :
    (units16 s).length = s.toList.length + s.toList.countP (0x10000 ≤ ·.toNat) := by
  rw [units16]
  induction s.toList with
  | nil => rfl
  | cons c cs ih =>
    rw [List.flatMap_cons, List.length_append, Char.length_units16, ih, List.length_cons,
      List.countP_cons]
    simp only [decide_eq_true_eq]
    omega

namespace Seed

/-- The polynomial in 31 with the units as its coefficients, the last one constant. -/
def polynomial (units : List Nat) : Nat :=
  ∑ i : Fin units.length, units[i] * 31 ^ (units.length - (i + 1))

theorem polynomial_cons (u : Nat) (us : List Nat) :
    polynomial (u :: us) = u * 31 ^ us.length + polynomial us := by
  rw [polynomial, polynomial]
  simp only [List.length_cons]
  rw [Fin.sum_univ_succ]
  simp

theorem polynomial_append (us vs : List Nat) :
    polynomial (us ++ vs) = polynomial us * 31 ^ vs.length + polynomial vs := by
  induction us with
  | nil => simp [polynomial]
  | cons u us ih =>
    rw [List.cons_append, polynomial_cons, polynomial_cons, ih, List.length_append]
    ring

/-- The number from `-2 ^ 31` on that a word of 32 bits stands for. -/
def signed (word : Nat) : Int := if word < 2 ^ 31 then word else word - 2 ^ 32

theorem toInt_ofNat (n : Nat) : (Int32.ofNat n).toInt = signed (n % 2 ^ 32) := by
  rw [Int32.toInt_ofNat', Int.bmod_def, signed]
  simp only [Int32.size]
  omega

theorem toInt_modEq (n : Nat) : (Int32.ofNat n).toInt ≡ n [ZMOD 2 ^ 32] := by
  rw [Int32.toInt_ofNat']
  exact Int.bmod_emod

/-- A multiplication by 31 is a shift and a subtraction. -/
theorem shift_sub (h : Int32) : (h <<< 5) - h = h * 31 := by
  have hshift : h <<< 5 = h * 32 := by
    apply Int32.toBitVec_inj.mp
    rw [Int32.toBitVec_shiftLeft, Int32.toBitVec_mul]
    exact BitVec.shiftLeft_eq_mul_twoPow h.toBitVec 5
  rw [hshift]
  grind

theorem foldl_eq (us : List Nat) (h : Nat) :
    us.foldl (fun (h : Int32) u => (h <<< 5) - h + Int32.ofNat u) (Int32.ofNat h) =
      Int32.ofNat (h * 31 ^ us.length + polynomial us) := by
  induction us generalizing h with
  | nil => simp [polynomial]
  | cons u us ih =>
    have hstep : (Int32.ofNat h <<< 5) - Int32.ofNat h + Int32.ofNat u =
        Int32.ofNat (h * 31 + u) := by
      rw [shift_sub, Int32.ofNat_add, Int32.ofNat_mul]
      rfl
    rw [List.foldl_cons, hstep, ih, polynomial_cons, List.length_cons]
    congr 1
    ring

theorem accumulate_eq (us : List Nat) : accumulate us = Int32.ofNat (polynomial us) := by
  have h := foldl_eq us 0
  rwa [Nat.zero_mul, Nat.zero_add] at h

theorem toNat_hash (text : String) :
    (hash text).toNat = (accumulate (units16 text)).toInt.natAbs := by
  have hlow := (accumulate (units16 text)).le_toInt
  have hhigh := (accumulate (units16 text)).toInt_lt
  rw [hash, Nat.toUInt64, UInt64.toNat_ofNat']
  omega

theorem toNat_hash_le (text : String) : (hash text).toNat ≤ 2 ^ 31 := by
  have hlow := (accumulate (units16 text)).le_toInt
  have hhigh := (accumulate (units16 text)).toInt_lt
  rw [toNat_hash]
  omega

/-- The hash of a text is the polynomial of its units in 31, as a word with a sign, without the
sign: shifting and subtracting multiplies by 31. It is at most `2 ^ 31`, no product of the stream
from it goes round, and the hash of a whole text is put together from those of its parts. -/
theorem hash_polynomial (text : String) :
    ((hash text).toNat : Int) = |signed (polynomial (units16 text) % 2 ^ 32)| ∧
    accumulate (units16 text) =
      (units16 text).foldl (fun (h : Int32) u => h * 31 + Int32.ofNat u) 0 ∧
    (units16 text).length = text.toList.length + text.toList.countP (0x10000 ≤ ·.toNat) ∧
    (∀ i : Fin (units16 text).length, (units16 text)[i] < 2 ^ 16) ∧
    (hash text).toNat ≤ 2 ^ 31 ∧
    (∀ n, 9301 * ((Stream.ofSeed (ofText text)).after n).state.toNat + 49297 < 2 ^ 64) ∧
    ∀ rest : String, (accumulate (units16 (text ++ rest))).toInt ≡
      (accumulate (units16 text)).toInt * 31 ^ (units16 rest).length +
        (accumulate (units16 rest)).toInt [ZMOD 2 ^ 32] := by
  have hbound := toNat_hash_le text
  refine ⟨?_, ?_, length_units16 text, fun i => lt_of_mem_units16 (List.getElem_mem _), hbound,
    fun n => ?_, fun rest => ?_⟩
  · rw [toNat_hash, accumulate_eq, toInt_ofNat, Int.natCast_natAbs]
  · simp only [accumulate, shift_sub]
  · cases n with
    | zero =>
      have hstate : ((Stream.ofSeed (ofText text)).after 0).state = hash text := rfl
      rw [hstate]
      omega
    | succ n =>
      have hlt := Stream.state_after_lt (Stream.ofSeed (ofText text)) n
      omega
  · rw [units16_append, accumulate_eq, accumulate_eq, accumulate_eq, polynomial_append]
    refine (toInt_modEq _).trans ?_
    push_cast
    exact ((toInt_modEq _).symm.mul_right _).add (toInt_modEq _).symm

/-- The lowest word with a sign is what this text accumulates. -/
example : hash "polygenelubricants" = 2 ^ 31 := by decide +kernel

end Seed

end CurveGuess
