import CurveGuess.Proofs.Lexing
import Mathlib.Algebra.Group.Nat.Defs

/-!
# Numbers and their zeros

Zeros before the first digit of a number or after its last place do not change its value. A number
is reduced when it has no zeros of the second kind, and numbers of one value are reduced to one.
-/
namespace CurveGuess

namespace Numeral

/-- The number without the zeros that end its places. -/
def reduce (digits : Nat) : Nat → Numeral
  | 0 => ⟨digits, 0⟩
  | places + 1 =>
    if digits % 10 = 0 then reduce (digits / 10) places else ⟨digits, places + 1⟩

def reduced (n : Numeral) : Numeral := reduce n.digits n.places

theorem reduce_zero (digits places : Nat) : reduce (10 * digits) (places + 1) =
    reduce digits places := by
  rw [reduce, if_pos (Nat.mul_mod_right 10 digits), Nat.mul_div_cancel_left digits (by decide)]

/-- Zeros after the last place make no difference. -/
theorem reduce_zeros (digits places n : Nat) :
    reduce (digits * 10 ^ n) (places + n) = reduce digits places := by
  induction n with
  | zero => rw [Nat.pow_zero, Nat.mul_one, Nat.add_zero]
  | succ n ih =>
    rw [Nat.pow_succ, ← Nat.mul_assoc, Nat.mul_comm _ 10, ← Nat.add_assoc, reduce_zero, ih]

theorem reduce_value (digits places : Nat) :
    (reduce digits places).digits * 10 ^ places =
      digits * 10 ^ (reduce digits places).places := by
  induction places generalizing digits with
  | zero => rfl
  | succ places ih =>
    rw [reduce]
    split
    · next h =>
      rw [Nat.pow_succ, ← Nat.mul_assoc, ih, Nat.mul_right_comm,
        Nat.div_mul_cancel (Nat.dvd_of_mod_eq_zero h)]
    · rfl

/-- What is reduced to the same has the same value. -/
theorem value_of_reduced_eq {n m : Numeral} (h : n.reduced = m.reduced) :
    n.digits * 10 ^ m.places = m.digits * 10 ^ n.places := by
  have hn : n.reduced.digits * 10 ^ n.places = n.digits * 10 ^ n.reduced.places :=
    reduce_value n.digits n.places
  have hm : m.reduced.digits * 10 ^ m.places = m.digits * 10 ^ m.reduced.places :=
    reduce_value m.digits m.places
  rw [← h] at hm
  have hpos : 0 < 10 ^ n.reduced.places := Nat.pow_pos (by decide)
  refine Nat.eq_of_mul_eq_mul_right hpos ?_
  calc n.digits * 10 ^ m.places * 10 ^ n.reduced.places
      = n.digits * 10 ^ n.reduced.places * 10 ^ m.places := Nat.mul_right_comm ..
    _ = n.reduced.digits * 10 ^ n.places * 10 ^ m.places := by rw [hn]
    _ = n.reduced.digits * 10 ^ m.places * 10 ^ n.places := Nat.mul_right_comm ..
    _ = m.digits * 10 ^ n.reduced.places * 10 ^ n.places := by rw [hm]
    _ = m.digits * 10 ^ n.places * 10 ^ n.reduced.places := Nat.mul_right_comm ..

theorem foldl_push (n : Nat) (cs : List Char) :
    cs.foldl push n = n * 10 ^ cs.length + ofDigits cs := by
  induction cs generalizing n with
  | nil => simp [ofDigits]
  | cons c cs ih =>
    have hdigits : ofDigits (c :: cs) = push 0 c * 10 ^ cs.length + ofDigits cs := ih (push 0 c)
    have hpush : push n c = n * 10 + push 0 c := by rw [push, push]; omega
    rw [List.foldl_cons, ih, hdigits, hpush, List.length_cons, Nat.add_mul, Nat.mul_assoc,
      Nat.pow_succ, Nat.mul_comm 10, Nat.add_assoc]

theorem ofDigits_append (u v : List Char) :
    ofDigits (u ++ v) = ofDigits u * 10 ^ v.length + ofDigits v := by
  rw [ofDigits, List.foldl_append, foldl_push]
  rfl

/-- The digits of a number are read as the number. -/
theorem ofDigits_toDigits (n : Nat) : ofDigits (Nat.toDigits 10 n) = n := by
  have h := Nat.ofDigitChars_ten_toDigits (n := n)
  rwa [Nat.ofDigitChars_eq_foldl] at h

/-- Only zeros make zero. -/
theorem ofDigits_eq_zero {cs : List Char} (h : ∀ c ∈ cs, Lexer.isDigit c = true) :
    ofDigits cs = 0 ↔ ∀ c ∈ cs, c = '0' := by
  induction cs with
  | nil => simp [ofDigits]
  | cons c cs ih =>
    have hpush : push 0 c = 0 ↔ c = '0' := by
      have hc := h c List.mem_cons_self
      simp only [Lexer.isDigit, Bool.and_eq_true, decide_eq_true_eq, Char.le_def,
        UInt32.le_iff_toNat_le] at hc
      have h0 : ('0' : Char).val.toNat = 48 := rfl
      have hnat : c.toNat = c.val.toNat := rfl
      have hzero : ('0' : Char).toNat = 48 := rfl
      rw [← Char.toNat_inj, push, hzero]
      omega
    rw [ofDigits, List.foldl_cons, foldl_push, Nat.add_eq_zero_iff,
      ih fun d hd => h d (List.mem_cons_of_mem c hd), List.forall_mem_cons, Nat.mul_eq_zero, hpush]
    simp

theorem isDigit_eq (c : Char) : c.isDigit = Lexer.isDigit c := by
  simp [Char.isDigit, Lexer.isDigit, Char.le_def]

/-- A number with a point has as many places as there are digits behind it. -/
theorem ofText_point {u v : List Char} (hu : ∀ c ∈ u, Lexer.isDigit c = true)
    (hv : ∀ c ∈ v, Lexer.isDigit c = true) :
    ofText (String.ofList (u ++ '.' :: v)) = ⟨ofDigits (u ++ v), v.length⟩ := by
  have hdigit : ∀ {w : List Char}, (∀ c ∈ w, Lexer.isDigit c = true) →
      ∀ c ∈ w, c.isDigit = true := fun hw c hc => by rw [isDigit_eq, hw c hc]
  have htake : v.takeWhile Char.isDigit = v :=
    Lexer.takeWhile_eq_self (Lexer.run_eq_length.mpr (hdigit hv))
  have hpoint : ('.' : Char).isDigit = false := by decide
  rw [ofText, String.toList_ofList, List.takeWhile_append_of_pos (hdigit hu),
    List.dropWhile_append_of_pos (hdigit hu), List.takeWhile_cons, List.dropWhile_cons, hpoint]
  simp [htake]

/-- Zeros taken from the front of one number to the end of another change neither. -/
theorem reduced_ofText_zeros {u v w : List Char} (hu : ∀ c ∈ u, Lexer.isDigit c = true)
    (hv : ∀ c ∈ v, Lexer.isDigit c = true) (hw : ∀ c ∈ w, Lexer.isDigit c = true) :
    (ofText (String.ofList (u ++ '.' :: (v ++ w)))).reduced =
      (ofText (String.ofList (u ++ '.' :: v))).reduced ↔ ∀ c ∈ w, c = '0' := by
  have hvw : ∀ c ∈ v ++ w, Lexer.isDigit c = true := List.forall_mem_append.mpr ⟨hv, hw⟩
  rw [ofText_point hu hvw, ofText_point hu hv, ← ofDigits_eq_zero hw, ← List.append_assoc,
    ofDigits_append, List.length_append]
  constructor
  · intro h
    have hvalue := value_of_reduced_eq h
    dsimp only at hvalue
    rw [Nat.add_mul, Nat.mul_assoc, Nat.pow_add, Nat.mul_comm (10 ^ w.length)] at hvalue
    have hzero : ofDigits w * 10 ^ v.length = 0 := by omega
    have hpos : 0 < 10 ^ v.length := Nat.pow_pos (by decide)
    exact (Nat.mul_eq_zero.mp hzero).resolve_right (by omega)
  · intro h
    rw [h, Nat.add_zero]
    exact reduce_zeros ..

theorem ofText_zeros {u v : List Char} (hu : ∀ c ∈ u, Lexer.isDigit c = true)
    (hv : ∀ c ∈ v, Lexer.isDigit c = true) (hzero : ∀ c ∈ u, c = '0') :
    ofText (String.ofList (u ++ '.' :: v)) = ofText (String.ofList ('.' :: v)) := by
  have hpoint := ofText_point (u := []) (by simp) hv
  rw [List.nil_append, List.nil_append] at hpoint
  rw [ofText_point hu hv, hpoint, ofDigits_append, (ofDigits_eq_zero hu).mpr hzero, Nat.zero_mul,
    Nat.zero_add]

end Numeral

end CurveGuess
