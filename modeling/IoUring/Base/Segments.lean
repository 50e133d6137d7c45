import Mathlib.Data.List.Basic

/-!
# Scattered and gathered lists

A segment is a range of positions of a list. Data is written into the segments of a list
one after the other, and read out of them in the same order. Where each segment starts at
the end of the one before, this is the same as one write and one read.
-/

namespace IoUring

structure Segment where
  base : Nat
  len : Nat
  deriving DecidableEq

namespace Segment

variable {α : Type*} {gs : List Segment} {data l : List α} {a b : Nat}

/-- Each segment starts where the one before ends; the first starts at `a`, the last ends
at `b`. -/
def Covers : List Segment → Nat → Nat → Prop
  | [], a, b => a = b
  | g :: gs, a, b => g.base = a ∧ Covers gs (a + g.len) b

/-- The items in the segments. -/
def gather (gs : List Segment) (l : List α) : List α :=
  gs.flatMap fun g => (l.drop g.base).take g.len

/-- `data` replaces what is at position `a`. -/
def overwrite (a : Nat) (data l : List α) : List α :=
  l.take a ++ data ++ l.drop (a + data.length)

/-- `data` fills one segment after the other. -/
def scatter : List Segment → List α → List α → List α
  | [], _, l => l
  | g :: gs, data, l => scatter gs (data.drop g.len) (overwrite g.base (data.take g.len) l)

theorem Covers.le (h : Covers gs a b) : a ≤ b := by
  induction gs generalizing a with
  | nil => exact Nat.le_of_eq h
  | cons g gs ih =>
      have hrest := ih h.2
      omega

theorem Covers.gather (h : Covers gs a b) : gather gs l = (l.drop a).take (b - a) := by
  induction gs generalizing a with
  | nil =>
      obtain rfl : a = b := h
      simp [Segment.gather]
  | cons g gs ih =>
      obtain ⟨rfl, hrest⟩ := h
      have hle := hrest.le
      have hsplit : b - g.base = g.len + (b - (g.base + g.len)) := by omega
      have htail := ih hrest
      rw [Segment.gather] at htail
      rw [Segment.gather, List.flatMap_cons, htail, hsplit, List.take_add, List.drop_drop]

/-- A write behind a write continues it. -/
theorem overwrite_overwrite (first second : List α) (h : a + first.length ≤ l.length) :
    overwrite (a + first.length) second (overwrite a first l) = overwrite a (first ++ second) l := by
  have hlength : (l.take a ++ first).length = a + first.length := by
    rw [List.length_append, List.length_take, Nat.min_eq_left (by omega)]
  rw [overwrite, overwrite, overwrite, List.take_left' hlength, ← List.drop_drop, List.drop_left' hlength,
    List.drop_drop, List.length_append, Nat.add_assoc, List.append_assoc (l.take a)]

theorem overwrite_nil : overwrite a [] l = l := by
  simp [overwrite]

theorem Covers.scatter (h : Covers gs a b) (hl : b ≤ l.length) (hdata : data.length ≤ b - a) :
    scatter gs data l = overwrite a data l := by
  induction gs generalizing a data l with
  | nil =>
      obtain rfl : a = b := h
      obtain rfl : data = [] := List.length_eq_zero_iff.mp (by omega)
      rw [overwrite_nil]
      rfl
  | cons g gs ih =>
      obtain ⟨rfl, hrest⟩ := h
      have hle := hrest.le
      rw [Segment.scatter]
      by_cases hlen : g.len ≤ data.length
      · have htake : (data.take g.len).length = g.len := by rw [List.length_take, Nat.min_eq_left hlen]
        have hkeep : (overwrite g.base (data.take g.len) l).length = l.length := by
          rw [overwrite, List.length_append, List.length_append, List.length_take, List.length_drop, htake]
          omega
        rw [ih hrest (by omega) (by rw [List.length_drop]; omega)]
        have hroom : g.base + (data.take g.len).length ≤ l.length := by omega
        have hjoin := overwrite_overwrite (data.take g.len) (data.drop g.len) hroom
        rwa [htake, List.take_append_drop] at hjoin
      · -- the data ends in this segment
        have htake : data.take g.len = data := List.take_of_length_le (by omega)
        have hdrop : data.drop g.len = [] := List.drop_eq_nil_of_le (by omega)
        have hkeep : (overwrite g.base data l).length = l.length := by
          rw [overwrite, List.length_append, List.length_append, List.length_take, List.length_drop]
          omega
        rw [htake, hdrop, ih hrest (by omega) (by simp), overwrite_nil]

/-- What was scattered is gathered, and behind it what was there. -/
theorem Covers.gather_scatter (h : Covers gs 0 l.length) (hdata : data.length ≤ l.length) :
    Segment.gather gs (Segment.scatter gs data l) = data ++ l.drop data.length := by
  rw [h.gather, h.scatter (Nat.le_refl _) (by omega), overwrite, List.take_zero, List.nil_append,
    Nat.zero_add, List.drop_zero]
  refine List.take_of_length_le ?_
  rw [List.length_append, List.length_drop]
  omega

end Segment

end IoUring
