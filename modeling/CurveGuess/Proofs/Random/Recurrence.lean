import CurveGuess.Proofs.Random.Draws
import CurveGuess.Target.Basic
import Mathlib

/-!
# Streams as a recurrence

The states of a stream follow a linear recurrence modulo 233280, which has a closed form. Only the
first step can leave it: a seed is any word of 64 bits, and its product goes round once for each
`2 ^ 64` in it. Since 233280 is 64 times 3645, this leaves no trace in the states exactly if it goes
round a multiple of 3645 times, as it does for all seeds up to about `2 ^ 51`, which never go round.
-/
namespace CurveGuess

/-- The state that a seed leads to in `n` steps if all of them are taken in whole numbers. -/
def Seed.state (s : Seed) (n : Nat) : Nat :=
  (9301 ^ n * s.value.toNat + 49297 * ∑ i ∈ Finset.range n, 9301 ^ i) % 233280

/-- How often the first product goes round the words of 64 bits. -/
def Seed.rounds (s : Seed) : Nat := (9301 * s.value.toNat + 49297) / 2 ^ 64

namespace Stream

@[simp] theorem state_ofSeed (s : Seed) : (ofSeed s).state = s.value := rfl

/-- A step from a state is the recurrence, less what goes round. -/
theorem state_next_modEq (s : Stream) :
    s.next.state.toNat + (9301 * s.state.toNat + 49297) / 2 ^ 64 * 2 ^ 64 ≡
      9301 * s.state.toNat + 49297 [MOD 233280] := by
  have hword : (s.state * 9301 + 49297).toNat = (9301 * s.state.toNat + 49297) % 2 ^ 64 := by
    rw [UInt64.toNat_add, UInt64.toNat_mul, Nat.mod_add_mod, Nat.mul_comm]
    rfl
  have hstate : s.next.state.toNat = (9301 * s.state.toNat + 49297) % 2 ^ 64 % 233280 := by
    rw [next, UInt64.toNat_mod, hword]
    rfl
  calc s.next.state.toNat + (9301 * s.state.toNat + 49297) / 2 ^ 64 * 2 ^ 64
      ≡ (9301 * s.state.toNat + 49297) % 2 ^ 64 +
          (9301 * s.state.toNat + 49297) / 2 ^ 64 * 2 ^ 64 [MOD 233280] :=
        (hstate ▸ Nat.mod_modEq _ _).add_right _
    _ = 9301 * s.state.toNat + 49297 := Nat.mod_add_div' _ _

/-- States go up to the modulus, and from there no product goes round. -/
theorem state_next_next_modEq (s : Stream) :
    s.next.next.state.toNat ≡ 9301 * s.next.state.toNat + 49297 [MOD 233280] := by
  have hlt := s.state_next_lt
  have hstep := s.next.state_next_modEq
  rwa [Nat.div_eq_of_lt (by omega), Nat.zero_mul, Nat.add_zero] at hstep

theorem after_succ (n : Nat) (s : Stream) : s.after (n + 1) = (s.after n).next := by
  induction n generalizing s with
  | zero => rw [after, after, after]
  | succ n ih => rw [after, ih s.next, after]

/-- What goes round in the first step is multiplied in all others. -/
theorem state_after_modEq (s : Seed) (n : Nat) :
    ((ofSeed s).after (n + 1)).state.toNat + 9301 ^ n * (s.rounds * 2 ^ 64) ≡
      9301 ^ (n + 1) * s.value.toNat + 49297 * ∑ i ∈ Finset.range (n + 1), 9301 ^ i
        [MOD 233280] := by
  induction n with
  | zero => simpa [after_succ, after, Seed.rounds] using (ofSeed s).state_next_modEq
  | succ n ih =>
    have hstep : ((ofSeed s).after (n + 2)).state.toNat ≡
        9301 * ((ofSeed s).after (n + 1)).state.toNat + 49297 [MOD 233280] := by
      rw [after_succ (n + 1), after_succ n]
      exact state_next_next_modEq _
    have hsum : ∑ i ∈ Finset.range (n + 2), 9301 ^ i =
        9301 * ∑ i ∈ Finset.range (n + 1), 9301 ^ i + 1 := by
      rw [Finset.sum_range_succ', Finset.mul_sum]
      simp only [Nat.pow_succ', Nat.pow_zero]
    calc ((ofSeed s).after (n + 2)).state.toNat + 9301 ^ (n + 1) * (s.rounds * 2 ^ 64)
        ≡ 9301 * ((ofSeed s).after (n + 1)).state.toNat + 49297 +
            9301 ^ (n + 1) * (s.rounds * 2 ^ 64) [MOD 233280] := hstep.add_right _
      _ = 9301 * (((ofSeed s).after (n + 1)).state.toNat + 9301 ^ n * (s.rounds * 2 ^ 64)) +
            49297 := by ring
      _ ≡ 9301 * (9301 ^ (n + 1) * s.value.toNat +
            49297 * ∑ i ∈ Finset.range (n + 1), 9301 ^ i) + 49297 [MOD 233280] :=
          (ih.mul_left 9301).add_right 49297
      _ = 9301 ^ (n + 2) * s.value.toNat + 49297 * ∑ i ∈ Finset.range (n + 2), 9301 ^ i := by
          rw [hsum]
          ring

theorem state_after_lt (s : Stream) (n : Nat) : (s.after (n + 1)).state.toNat < 233280 := by
  rw [after_succ]
  exact state_next_lt _

theorem rounds_modEq_iff (a b : Nat) :
    a * 2 ^ 64 ≡ b * 2 ^ 64 [MOD 233280] ↔ a ≡ b [MOD 3645] := by
  have hmodulus : 233280 / Nat.gcd 233280 (2 ^ 64) = 3645 := by decide +kernel
  constructor
  · intro h
    exact hmodulus ▸ h.cancel_right_div_gcd (by decide)
  · intro h
    have hsplit (c : Nat) : c * 2 ^ 64 = c * 64 * 2 ^ 58 := by ring
    rw [hsplit, hsplit]
    exact (h.mul_right' 64).mul_right _

/-- The factor of the recurrence is prime to the modulus, so that later steps hide nothing. -/
theorem pow_mul_modEq_iff (n a b : Nat) :
    9301 ^ n * a ≡ 9301 ^ n * b [MOD 233280] ↔ a ≡ b [MOD 233280] := by
  have hcoprime : Nat.gcd 233280 (9301 ^ n) = 1 := Nat.Coprime.pow_right n (by decide)
  exact ⟨Nat.ModEq.cancel_left_of_coprime hcoprime, fun h => h.mul_left _⟩

theorem state_after_eq_iff (s : Seed) (n : Nat) :
    ((ofSeed s).after (n + 1)).state.toNat = s.state (n + 1) ↔ 3645 ∣ s.rounds := by
  have hstate := state_after_modEq s n
  have hlt := state_after_lt (ofSeed s) n
  generalize ((ofSeed s).after (n + 1)).state.toNat = a at hstate hlt
  calc a = s.state (n + 1)
      ↔ a ≡ 9301 ^ (n + 1) * s.value.toNat + 49297 * ∑ i ∈ Finset.range (n + 1), 9301 ^ i
          [MOD 233280] := by rw [Nat.ModEq, Nat.mod_eq_of_lt hlt, Seed.state]
    _ ↔ a + 9301 ^ n * (s.rounds * 2 ^ 64) ≡ a + 9301 ^ n * 0 [MOD 233280] :=
        ⟨fun h => hstate.trans h.symm, fun h => h.symm.trans hstate⟩
    _ ↔ 9301 ^ n * (s.rounds * 2 ^ 64) ≡ 9301 ^ n * 0 [MOD 233280] :=
        ⟨fun h => h.add_left_cancel' a, fun h => h.add_left a⟩
    _ ↔ s.rounds * 2 ^ 64 ≡ 0 * 2 ^ 64 [MOD 233280] := by rw [pow_mul_modEq_iff, Nat.zero_mul]
    _ ↔ s.rounds ≡ 0 [MOD 3645] := rounds_modEq_iff _ _
    _ ↔ 3645 ∣ s.rounds := Nat.modEq_zero_iff_dvd

/-- Seeds that are the same modulo 233280 lead to the same state exactly if their first products go
round equally often modulo 3645. -/
theorem next_eq_iff {s t : Seed} (h : s.value.toNat ≡ t.value.toNat [MOD 233280]) :
    (ofSeed s).next = (ofSeed t).next ↔ s.rounds ≡ t.rounds [MOD 3645] := by
  have hs : (ofSeed s).next.state.toNat + s.rounds * 2 ^ 64 ≡
      9301 * s.value.toNat + 49297 [MOD 233280] := (ofSeed s).state_next_modEq
  have ht : (ofSeed t).next.state.toNat + t.rounds * 2 ^ 64 ≡
      9301 * t.value.toNat + 49297 [MOD 233280] := (ofSeed t).state_next_modEq
  have hsums := (hs.trans ((h.mul_left 9301).add_right 49297)).trans ht.symm
  have hslt := (ofSeed s).state_next_lt
  have htlt := (ofSeed t).state_next_lt
  rw [← rounds_modEq_iff]
  constructor
  · intro heq
    rw [heq] at hsums
    exact Nat.ModEq.add_left_cancel' _ hsums
  · intro hrounds
    have hstate : (ofSeed s).next.state.toNat = (ofSeed t).next.state.toNat :=
      Nat.ModEq.eq_of_lt_of_lt (hrounds.add_right_cancel hsums) hslt htlt
    exact congrArg Stream.mk (UInt64.toNat_inj.mp hstate)

end Stream

namespace Draw

variable {s t : Stream}

@[simp] theorem snd_run_unit (s : Stream) : ((unit Float).run s).2 = s.next := rfl

/-- A number is read off the state after it is taken. -/
theorem run_unit_congr (h : s.next = t.next) : (unit Float).run s = (unit Float).run t := by
  change (Arithmetic.ofNat s.next.state.toNat / _, s.next) = _
  rw [h]
  rfl

theorem run_bind_congr {α β : Type} {d : Draw α} {f : α → Draw β} (h : d.run s = d.run t) :
    (d >>= f).run s = (d >>= f).run t := by
  rw [StateT.run_bind, StateT.run_bind, h]

/-- All numbers of two streams are the same if the first ones are. -/
theorem run_unit_after (h : s.next = t.next) (n : Nat) :
    (unit Float).run (s.after n) = (unit Float).run (t.after n) := by
  cases n with
  | zero => exact run_unit_congr h
  | succ n => rw [Stream.after, Stream.after, h]

end Draw

/-- The target of a seed depends on the state after the first number only. -/
theorem Target.generate_congr {s t : Seed} (h : (Stream.ofSeed s).next = (Stream.ofSeed t).next)
    (tier : Tier) : generate tier s = generate tier t := by
  have hdraw : (draw Float tier).run (.ofSeed s) = (draw Float tier).run (.ofSeed t) := by
    refine Draw.run_bind_congr ?_
    exact Draw.run_bind_congr (Draw.run_unit_congr h)
  rw [generate, generate, ofSeed, ofSeed, hdraw]

namespace Stream

/-- A stream follows the recurrence from a seed exactly if its first product goes round a multiple
of 3645 times. Two seeds that are the same modulo 233280 have the same stream exactly if their
first products go round equally often modulo 3645, and then they have the same targets. -/
theorem follows_recurrence (s : Seed) :
    (∀ n, 0 < n → (((ofSeed s).after n).state.toNat = s.state n ↔ 3645 ∣ s.rounds)) ∧
    ∀ t : Seed, s.value.toNat ≡ t.value.toNat [MOD 233280] →
      ((∀ n, (Draw.unit Float).run ((ofSeed s).after n) =
        (Draw.unit Float).run ((ofSeed t).after n)) ↔ s.rounds ≡ t.rounds [MOD 3645]) ∧
      (s.rounds ≡ t.rounds [MOD 3645] →
        ∀ tier, Target.generate tier s = Target.generate tier t) := by
  refine ⟨fun n hn => ?_, fun t h => ⟨⟨fun hall => ?_, fun hrounds => ?_⟩, fun hrounds => ?_⟩⟩
  · obtain ⟨n, rfl⟩ := Nat.exists_eq_add_one_of_ne_zero (Nat.ne_of_gt hn)
    exact state_after_eq_iff s n
  · have hnext := congrArg Prod.snd (hall 0)
    rw [Draw.snd_run_unit, Draw.snd_run_unit] at hnext
    exact (next_eq_iff h).mp hnext
  · exact Draw.run_unit_after ((next_eq_iff h).mpr hrounds)
  · exact Target.generate_congr ((next_eq_iff h).mpr hrounds)

theorem follows_recurrence_around :
    7229156235745760197 ≡ 175237 [MOD 233280] ∧
      Seed.rounds ⟨7229156235745760197⟩ = 3645 ∧ Seed.rounds ⟨175237⟩ = 0 ∧
      ((ofSeed ⟨7229156235745760197⟩).after 5).state.toNat =
        Seed.state ⟨7229156235745760197⟩ 5 ∧
      Target.generate .veryHard ⟨7229156235745760197⟩ = Target.generate .veryHard ⟨175237⟩ := by
  have hsame : 7229156235745760197 ≡ 175237 [MOD 233280] := by decide +kernel
  have hrounds : Seed.rounds ⟨7229156235745760197⟩ = 3645 := by decide +kernel
  have hother : Seed.rounds ⟨175237⟩ = 0 := by decide +kernel
  obtain ⟨hstate, hseeds⟩ := follows_recurrence ⟨7229156235745760197⟩
  obtain ⟨-, htarget⟩ := hseeds ⟨175237⟩ hsame
  refine ⟨hsame, hrounds, hother, (hstate 5 (by decide)).mpr (by rw [hrounds]), htarget ?_ _⟩
  rw [hrounds, hother]
  decide

/-- The largest seed leaves the recurrence at the first step. -/
theorem leaves_recurrence :
    ¬∀ (s : Seed) (n : Nat), 0 < n → ((ofSeed s).after n).state.toNat = s.state n := by
  intro h
  have hstate := h ⟨18446744073709551615⟩ 1 (by decide)
  exact absurd hstate (by decide +kernel)

end Stream

end CurveGuess
