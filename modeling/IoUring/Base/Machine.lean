import Mathlib.Algebra.GroupWithZero.Nat
import Mathlib.Order.Basic

/-!
# Labelled machines and their invariants

A machine executes one label at a time and is stuck where a label is not
enabled. Concurrency is the choice of the next label: a run is a list of
labels, and a property of every interleaving is a property of every run.
-/

namespace IoUring

/-- Initial states and an executable step for each label. -/
structure Machine (σ α : Type*) where
  init : σ → Prop
  step : σ → α → Option σ

namespace Machine

variable {σ α : Type*} (m : Machine σ α)

/-- Execute the labels in order; `none` when one of them is not enabled. -/
def run : σ → List α → Option σ
  | s, [] => some s
  | s, a :: as => (m.step s a).bind fun t => run t as

@[simp] theorem run_nil (s : σ) : m.run s [] = some s := rfl

theorem run_cons (s : σ) (a : α) (as : List α) :
    m.run s (a :: as) = (m.step s a).bind fun t => m.run t as := rfl

theorem run_cons_some {s t : σ} {a : α} {as : List α} :
    m.run s (a :: as) = some t ↔ ∃ u, m.step s a = some u ∧ m.run u as = some t := by
  simp only [run_cons, Option.bind_eq_some_iff]

theorem run_append (s : σ) (as bs : List α) :
    m.run s (as ++ bs) = (m.run s as).bind fun t => m.run t bs := by
  induction as generalizing s with
  | nil => simp
  | cons a as ih =>
      simp only [List.cons_append, run_cons]
      cases m.step s a with
      | none => rfl
      | some t => simpa using ih t

/-- The states of the runs in which every step meets `ok`, a condition on the
state before the step and on its label. -/
inductive Reach (ok : σ → α → Prop) : σ → Prop where
  | start {s : σ} : m.init s → Reach ok s
  | next {s t : σ} {a : α} : Reach ok s → ok s a → m.step s a = some t → Reach ok t

/-- The states of all runs. -/
abbrev Reachable : σ → Prop := m.Reach fun _ _ => True

variable {m} {ok : σ → α → Prop}

/-- The induction every safety result goes through: the property holds
initially and each permitted step from a permitted state keeps it. -/
theorem Reach.invariant (P : σ → Prop) (hinit : ∀ s, m.init s → P s)
    (hstep : ∀ s a t, m.Reach ok s → P s → ok s a → m.step s a = some t → P t)
    {s : σ} (h : m.Reach ok s) : P s := by
  induction h with
  | start hs => exact hinit _ hs
  | next hreach hok hs ih => exact hstep _ _ _ hreach ih hok hs

/-- What holds in the states of these runs may be used in the condition. -/
theorem Reach.of_reach {ok' : σ → α → Prop} (hle : ∀ s a, m.Reach ok s → ok s a → ok' s a)
    {s : σ} (h : m.Reach ok s) : m.Reach ok' s := by
  induction h with
  | start hs => exact .start hs
  | next hreach hok hs ih => exact .next ih (hle _ _ hreach hok) hs

theorem Reach.mono {ok' : σ → α → Prop} (hle : ∀ s a, ok s a → ok' s a)
    {s : σ} (h : m.Reach ok s) : m.Reach ok' s :=
  h.of_reach fun s a _ => hle s a

theorem Reach.reachable {s : σ} (h : m.Reach ok s) : m.Reachable s :=
  h.mono fun _ _ _ => trivial

theorem Reach.run {s t : σ} (h : m.Reachable s) {as : List α}
    (hr : m.run s as = some t) : m.Reachable t := by
  induction as generalizing s with
  | nil =>
      obtain rfl : s = t := by simpa using hr
      exact h
  | cons a as ih =>
      obtain ⟨u, hu, ht⟩ := m.run_cons_some.mp hr
      exact ih (h.next trivial hu) ht

theorem Reachable.of_run {s t : σ} (hs : m.init s) {as : List α}
    (hr : m.run s as = some t) : m.Reachable t :=
  (Reach.start hs).run hr

/-- The rule for progress: while the goal is not reached, one of the labels that may be
chosen lowers a bound. -/
theorem leads {own : α → Prop} {goal : σ → Prop} {P : Nat → σ → Prop}
    (hstep : ∀ n s, P n s → goal s ∨ ∃ a t k, own a ∧ m.step s a = some t ∧ k < n ∧ P k t)
    {n : Nat} {s : σ} (h : P n s) :
    ∃ as t, (∀ a ∈ as, own a) ∧ m.run s as = some t ∧ goal t := by
  induction n using Nat.strongRecOn generalizing s with
  | ind n ih =>
      rcases hstep n s h with hgoal | ⟨a, t, k, ha, hs, hlt, hk⟩
      · exact ⟨[], s, by simp, rfl, hgoal⟩
      · obtain ⟨as, u, hall, hr, hgoal⟩ := ih k hlt hk
        refine ⟨a :: as, u, ?_, m.run_cons_some.mpr ⟨t, hs, hr⟩, hgoal⟩
        simpa [ha] using hall

variable (m) in
/-- The machine that takes the permitted steps only, to replay permitted runs. -/
def restrict (ok : σ → α → Prop) [∀ s a, Decidable (ok s a)] : Machine σ α where
  init := m.init
  step s a := if ok s a then m.step s a else none

theorem Reach.restrict [∀ s a, Decidable (ok s a)] {s t : σ} (h : m.Reach ok s) {as : List α}
    (hr : (m.restrict ok).run s as = some t) : m.Reach ok t := by
  induction as generalizing s with
  | nil =>
      obtain rfl : s = t := by simpa using hr
      exact h
  | cons a as ih =>
      obtain ⟨u, hu, ht⟩ := (m.restrict ok).run_cons_some.mp hr
      simp only [Machine.restrict] at hu
      split at hu
      · next hok => exact ih (h.next hok hu) ht
      · cases hu

end Machine

/-! ## Small index types

Concrete runs number their threads and nodes by `Fin 1` to `Fin 4`. Their numerals are read
through one instance each, wherever they stand. -/

instance neZeroOne : NeZero 1 := ⟨by decide⟩

instance neZeroTwo : NeZero 2 := ⟨by decide⟩

instance neZeroThree : NeZero 3 := ⟨by decide⟩

instance neZeroFour : NeZero 4 := ⟨by decide⟩

end IoUring
