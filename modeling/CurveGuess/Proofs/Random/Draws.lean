import CurveGuess.Proofs.Decimal.Floor
import CurveGuess.Random.Stream

/-!
# What draws give

A number of a stream is a part of its modulus, so that a draw stays within its bounds: the double
that is computed with is rounded, but never up to the bound.
-/
namespace CurveGuess

theorem Stream.state_next_lt (s : Stream) : s.next.state.toNat < 233280 := by
  rw [next, UInt64.toNat_mod]
  exact Nat.mod_lt _ (by decide)

/-- The part of a whole number that the next number of a stream stands for. -/
theorem Stream.floor_part_next (s : Stream) {n : Nat} (hn : 0 < n) :
    0 ≤ Double.floor (((Draw.unit Float).run s).1 * Arithmetic.ofNat n) ∧
      Double.floor (((Draw.unit Float).run s).1 * Arithmetic.ofNat n) < n :=
  Double.floor_part s.state_next_lt (by decide) hn

namespace Draw

section
variable {α β : Type} {d : Draw α} {f : α → Draw β} {P Q : α → Prop} {low high : Int} {n : Nat}

/-- Whatever stream it takes its numbers from, the draw gives a result with this property. -/
def Gives (d : Draw α) (P : α → Prop) : Prop := ∀ s, P (d.run s).1

theorem Gives.mono (h : Gives d P) (hPQ : ∀ a, P a → Q a) : Gives d Q := fun s => hPQ _ (h s)

theorem gives_pure {a : α} (ha : P a) : Gives (pure a) P := fun _ => ha

theorem gives_true (d : Draw α) : Gives d fun _ => True := fun _ => trivial

theorem Gives.bind {Q : β → Prop} (h : Gives d P) (hf : ∀ a, P a → Gives (f a) Q) :
    Gives (d >>= f) Q := by
  intro s
  rw [StateT.run_bind]
  exact hf _ (h s) _

theorem gives_index (hn : 0 < n) : Gives (index Float n) (· < n) := by
  intro s
  obtain ⟨hlow, hhigh⟩ := s.floor_part_next hn
  change (Double.floor (((unit Float).run s).1 * Arithmetic.ofNat n)).toNat < n
  omega

theorem gives_int (h : low ≤ high) : Gives (int Float low high) fun n => low ≤ n ∧ n ≤ high := by
  intro s
  obtain ⟨n, hn⟩ := Int.eq_ofNat_of_zero_le (a := high - low + 1) (by omega)
  obtain ⟨hlow, hhigh⟩ := s.floor_part_next (n := n) (by omega)
  have hwidth : (Arithmetic.ofInt (high - low + 1) : Float) = Arithmetic.ofNat n := by
    rw [hn]
    rfl
  have hrun : ((int Float low high).run s).1 =
      Double.floor (((unit Float).run s).1 * Arithmetic.ofInt (high - low + 1)) + low := rfl
  rw [hrun, hwidth]
  omega

end

end Draw

end CurveGuess
