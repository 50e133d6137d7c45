import IoUring.Base.Machine

/-!
# Machines with a history

An observer writes down what the steps of a machine do. It never stops a step, so
a property of the history holds of every run of the machine.
-/

namespace IoUring.Machine

variable {σ α η : Type*} (m : Machine σ α) (start : η) (note : η → σ → α → σ → η)

/-- `note h s a t` is the history after the step from `s` to `t` with label `a`. -/
def observed : Machine (σ × η) α where
  init p := m.init p.1 ∧ p.2 = start
  step p a := (m.step p.1 a).map fun t => (t, note p.2 p.1 a t)

variable {m start note} {p q : σ × η} {a : α}

theorem observed_step : (m.observed start note).step p a = some q ↔
    m.step p.1 a = some q.1 ∧ q.2 = note p.2 p.1 a q.1 := by
  simp only [observed, Option.map_eq_some_iff]
  constructor
  · rintro ⟨t, ht, rfl⟩
    exact ⟨ht, rfl⟩
  · rintro ⟨ht, hq⟩
    exact ⟨q.1, ht, Prod.ext rfl hq.symm⟩

/-- A run with its history is a run. -/
theorem Reach.fst {ok : σ → α → Prop}
    (h : (m.observed start note).Reach (fun p a => ok p.1 a) p) : m.Reach ok p.1 := by
  induction h with
  | start hp => exact .start hp.1
  | next _ hok hstep ih => exact ih.next hok (observed_step.mp hstep).1

theorem Reachable.fst (h : (m.observed start note).Reachable p) : m.Reachable p.1 :=
  @Reach.fst _ _ _ m start note p (fun _ _ => True) h

theorem Reachable.observed {s : σ} (hs : m.init s) {as : List α}
    (hr : (m.observed start note).run (s, start) as = some p) :
    (m.observed start note).Reachable p :=
  have hinit : (m.observed start note).init (s, start) := ⟨hs, rfl⟩
  .of_run hinit hr

end IoUring.Machine
