import IoUring.Base.Machine

/-!
# Simulation

A step of a machine is one step of an abstract machine, or none, under a function on the
states. Which one it is depends on the state and on the label. The runs of the machine are
then runs of the abstract machine.
-/

namespace IoUring.Machine

variable {σ α τ β : Type*} {m : Machine σ α} {m' : Machine τ β} {abs : σ → τ} {effect : σ → α → Option β}

/-- The step from `t` to `t'` with this effect. -/
def Matches (m' : Machine τ β) (t : τ) (effect : Option β) (t' : τ) : Prop :=
  match effect with
  | some b => m'.step t b = some t'
  | none => t' = t

/-- The labels of the abstract run. -/
def trace (m : Machine σ α) (effect : σ → α → Option β) : σ → List α → List β
  | _, [] => []
  | s, a :: as =>
      match m.step s a with
      | some t => (effect s a).toList ++ trace m effect t as
      | none => []

structure Simulates (m : Machine σ α) (m' : Machine τ β) (abs : σ → τ) (effect : σ → α → Option β) :
    Prop where
  init : ∀ s, m.init s → m'.init (abs s)
  step : ∀ s a t, m.Reachable s → m.step s a = some t → m'.Matches (abs s) (effect s a) (abs t)

namespace Simulates

theorem run (h : Simulates m m' abs effect) {s t : σ} (hs : m.Reachable s) {as : List α}
    (hr : m.run s as = some t) : m'.run (abs s) (m.trace effect s as) = some (abs t) := by
  induction as generalizing s with
  | nil =>
      obtain rfl : s = t := by simpa using hr
      rfl
  | cons a as ih =>
      obtain ⟨u, hu, ht⟩ := m.run_cons_some.mp hr
      have hstep := h.step s a u hs hu
      have hrest := ih (hs.next trivial hu) ht
      simp only [trace, hu]
      cases heffect : effect s a with
      | none =>
          rw [heffect] at hstep
          rw [← show abs u = abs s from hstep]
          exact hrest
      | some b =>
          rw [heffect] at hstep
          exact m'.run_cons_some.mpr ⟨_, hstep, hrest⟩

theorem reachable (h : Simulates m m' abs effect) {s : σ} (hs : m.Reachable s) : m'.Reachable (abs s) := by
  refine hs.invariant (fun s => m'.Reachable (abs s)) (fun s hs => .start (h.init s hs)) ?_
  intro s a t hreach habs _ hstep
  have hmatch := h.step s a t hreach hstep
  cases heffect : effect s a with
  | none =>
      rw [heffect] at hmatch
      rwa [show abs t = abs s from hmatch]
  | some b =>
      rw [heffect] at hmatch
      exact habs.next trivial hmatch

end Simulates

end IoUring.Machine
