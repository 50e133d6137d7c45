import Mathlib.Data.Int.CardIntervalMod

/-!
# Taking turns

A counter that goes up with each ticket sends the tickets to the classes modulo `n` in
turn. No class gets two tickets more than another one, wherever the counter started.
-/

namespace IoUring

variable {n : Nat} [NeZero n]

/-- The classes of the tickets from `k` to `k + m - 1`. -/
def turns (n : Nat) [NeZero n] (k m : Nat) : List (Fin n) :=
  (List.range m).map fun i => Fin.ofNat n (k + i)

@[simp] theorem turns_zero (k : Nat) : turns n k 0 = [] := rfl

theorem turns_succ (k m : Nat) : turns n k (m + 1) = turns n k m ++ [Fin.ofNat n (k + m)] := by
  rw [turns, List.range_succ, List.map_append]
  rfl

/-- The first ticket of a class is as far from `k` as the class is. -/
theorem ofNat_add_eq_iff (k i : Nat) (c : Fin n) :
    Fin.ofNat n (k + i) = c ↔ i ≡ c.val + (n - 1) * k [MOD n] := by
  have hround : k + (c.val + (n - 1) * k) = c.val + n * k := by
    have hpos : 0 < n := Nat.pos_of_ne_zero (NeZero.ne n)
    have hsum : n * k = (n - 1) * k + k := by rw [← Nat.succ_mul, Nat.succ_eq_add_one, Nat.sub_add_cancel hpos]
    omega
  have hclass : c.val + n * k ≡ c.val [MOD n] := Nat.add_modulus_mul_modEq_iff.mpr rfl
  rw [← hround] at hclass
  constructor
  · intro h
    have hval : (k + i) % n = c.val := congrArg Fin.val h
    have hi : k + i ≡ k + (c.val + (n - 1) * k) [MOD n] := by
      rw [Nat.ModEq, hclass, hval, Nat.mod_eq_of_lt c.isLt]
    exact Nat.ModEq.add_left_cancel' k hi
  · intro h
    apply Fin.ext
    have hi : k + i ≡ c.val [MOD n] := (h.add_left k).trans hclass
    rw [Nat.ModEq, Nat.mod_eq_of_lt c.isLt] at hi
    exact hi

theorem count_turns (k m : Nat) (c : Fin n) :
    (turns n k m).count c = m / n + if (c.val + (n - 1) * k) % n < m % n then 1 else 0 := by
  rw [← Nat.count_modEq_card m (Nat.pos_of_ne_zero (NeZero.ne n)), Nat.count, turns, List.count, List.countP_map]
  apply List.countP_congr
  intro i _
  simpa using ofNat_add_eq_iff k i c

/-- Tickets are spread evenly. -/
theorem count_turns_le (k m : Nat) (b c : Fin n) :
    (turns n k m).count b ≤ (turns n k m).count c + 1 := by
  rw [count_turns, count_turns]
  split <;> split <;> omega

end IoUring
