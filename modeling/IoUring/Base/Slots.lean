import Mathlib.Logic.Function.Basic
import Mathlib.Data.List.Basic

/-!
# Rings of slots

A producer writes value number `n` of a sequence into slot `n % size`. The ring
then holds the last `size` values, each in its slot.
-/

namespace IoUring

/-- Numbers of a window of `size` have different slots. -/
theorem slot_ne {size m n : Nat} (hlt : n < m) (hwindow : m < n + size) :
    n % size ≠ m % size := by
  intro h
  have hzero : (m - n) % size = 0 := Nat.sub_mod_eq_zero_of_mod_eq h.symm
  rw [Nat.mod_eq_of_lt (by omega)] at hzero
  omega

/-- The ring `slots` after the values of a sequence were written. -/
structure Slots {α : Type*} (size : Nat) (slots : Nat → α) (values : List α) : Prop where
  get : ∀ n v, values[n]? = some v → values.length ≤ n + size → slots (n % size) = v

namespace Slots

variable {α : Type*} {size : Nat} {slots : Nat → α} {values : List α}

theorem nil : Slots size slots [] :=
  ⟨by simp⟩

/-- The next value is written. -/
theorem push (h : Slots size slots values) (v : α) :
    Slots size (Function.update slots (values.length % size) v) (values ++ [v]) := by
  refine ⟨fun n w hw hn => ?_⟩
  rw [List.length_append, List.length_singleton] at hn
  by_cases hlt : n < values.length
  · rw [List.getElem?_append_left hlt] at hw
    rw [Function.update_of_ne (slot_ne hlt (by omega))]
    exact h.get n w hw (by omega)
  · obtain ⟨hlast, -⟩ := List.getElem?_eq_some_iff.mp hw
    rw [List.length_append, List.length_singleton] at hlast
    obtain rfl : n = values.length := by omega
    simpa using hw

/-- The last value is written again. -/
theorem overwrite {v : α} (h : Slots size slots (values ++ [v])) (w : α) :
    Slots size (Function.update slots (values.length % size) w) (values ++ [w]) := by
  refine ⟨fun n x hx hn => ?_⟩
  rw [List.length_append, List.length_singleton] at hn
  by_cases hlt : n < values.length
  · rw [Function.update_of_ne (slot_ne hlt (by omega))]
    rw [List.getElem?_append_left hlt] at hx
    refine h.get n x ?_ (by simpa using hn)
    rw [List.getElem?_append_left hlt, hx]
  · obtain ⟨hlast, -⟩ := List.getElem?_eq_some_iff.mp hx
    rw [List.length_append, List.length_singleton] at hlast
    obtain rfl : n = values.length := by omega
    simpa using hx

/-- The number of the value that was written last into the slot of number `n`. -/
def latest (size length n : Nat) : Nat :=
  n + size * ((length - 1 - n) / size)

theorem latest_of_window {length n : Nat} (hwindow : length ≤ n + size) (hn : n < length) :
    latest size length n = n := by
  rw [latest, Nat.div_eq_of_lt (by omega), Nat.mul_zero, Nat.add_zero]

/-- A slot that was overwritten holds the last of its values. -/
theorem get_latest (h : Slots size slots values) (hsize : 0 < size) {n : Nat}
    (hn : n < values.length) :
    values[latest size values.length n]? = some (slots (n % size)) := by
  have hdiv := Nat.div_add_mod (values.length - 1 - n) size
  have hmod := Nat.mod_lt (values.length - 1 - n) hsize
  have hlt : latest size values.length n < values.length := by
    rw [latest]
    omega
  rw [List.getElem?_eq_getElem hlt]
  have hget := h.get _ _ (List.getElem?_eq_getElem hlt) (by rw [latest]; omega)
  rw [← hget, latest, Nat.add_mul_mod_self_left]

end Slots

end IoUring
