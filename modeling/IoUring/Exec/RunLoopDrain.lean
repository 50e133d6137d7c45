import IoUring.Exec.RunLoopPlaces
import IoUring.Exec.RunLoopInvariant

/-!
# Which buckets a pass empties

A terminal pass drains the bucket of `_walltime_step` and one that is drawn. A
bucket is empty if and only if it was drained after the last task came in.
-/

namespace IoUring.Exec.RunLoop

variable {O T : Type*}

/-- The buckets that a terminal pass has drained at a point of its step. -/
def DrainPlan (robin : Bucket) (drains : List Bucket) : LoopPc O → Prop
  | .check => drains = []
  | .launch sources => sources = [.attached, .robin, .random] ∧ drains = [] ∨
      sources = [.robin, .random] ∧ drains = [] ∨ sources = [.random] ∧ drains = [robin] ∨
      sources = [] ∧ ∃ draw, drains = [robin, draw]
  | .visit _ sources => sources = [.robin, .random] ∧ drains = [] ∨
      sources = [.random] ∧ drains = [robin] ∨ sources = [] ∧ ∃ draw, drains = [robin, draw]
  | _ => ∃ draw, drains = [robin, draw]

/-- Bucket `b` was empty at the beginning of the pass or was drained since, and it
was drained after each push into it. -/
def DrainedLast (log : PassLog O) (b : Bucket) : Prop :=
  (log.startImmediate b = [] ∨ b ∈ log.drains) ∧
    ∀ e ∈ log.pushes, e.2 = b → b ∈ log.drains.drop e.1

structure DrainOk (immediate : Bucket → List (Task O)) (log : PassLog O) : Prop where
  left : ∀ b, immediate b = [] ↔ DrainedLast log b
  bound : ∀ e ∈ log.pushes, e.1 ≤ log.drains.length

variable [DecidableEq T] {immediate : Bucket → List (Task O)} {log : PassLog O}
  {b : Bucket} {s s' : State O T} {t : T}

theorem DrainOk.start (log : PassLog O) (hstart : log.startImmediate = immediate)
    (hdrains : log.drains = []) (hpushes : log.pushes = []) : DrainOk immediate log where
  left := by simp [DrainedLast, hstart, hdrains, hpushes]
  bound := by simp [hpushes]

theorem DrainOk.congr {log' : PassLog O} (h : DrainOk immediate log)
    (hstart : log'.startImmediate = log.startImmediate) (hdrains : log'.drains = log.drains)
    (hpushes : log'.pushes = log.pushes) : DrainOk immediate log' where
  left := by
    simp only [DrainedLast, hstart, hdrains, hpushes]
    exact h.left
  bound := by
    rw [hpushes, hdrains]
    exact h.bound

theorem DrainOk.drain (h : DrainOk immediate log) (b : Bucket) :
    DrainOk (Function.update immediate b []) { log with drains := log.drains ++ [b] } where
  left := by
    intro b'
    by_cases hb : b' = b
    · subst hb
      simp only [Function.update_self, true_iff]
      refine ⟨.inr (by simp), fun e he _ => ?_⟩
      rw [List.drop_append_of_le_length (h.bound e he)]
      simp
    · rw [Function.update_of_ne hb, h.left b']
      simp only [DrainedLast, List.mem_append, List.mem_singleton, hb, or_false]
      refine and_congr Iff.rfl (forall₂_congr fun e he => ?_)
      rw [List.drop_append_of_le_length (h.bound e he)]
      simp [hb]
  bound := by
    intro e he
    have := h.bound e he
    simp only [List.length_append, List.length_singleton]
    omega

theorem DrainOk.push (h : DrainOk immediate log) (b : Bucket) (k : Task O) :
    DrainOk (Function.update immediate b (k :: immediate b))
      { log with pushes := (log.drains.length, b) :: log.pushes } where
  left := by
    intro b'
    by_cases hb : b' = b
    · subst hb
      simp [DrainedLast]
    · rw [Function.update_of_ne hb, h.left b']
      simp [DrainedLast, Ne.symm hb]
  bound := by
    intro e he
    rcases List.mem_cons.mp he with rfl | he
    · exact Nat.le_refl _
    · exact h.bound e he

omit [DecidableEq T] in
theorem DrainOk.same (h : DrainOk s.exec.immediate (s.pass t)) (hs : SameQueues s s') :
    DrainOk s'.exec.immediate (s'.pass t) := by
  rw [hs.immediate]
  exact h.congr (hs.startImmediate t) (hs.drains t) (hs.pushes t)

theorem DrainOk.pushes (h : DrainOk s.exec.immediate (s.pass t)) (hs : Pushes t s s') :
    DrainOk s'.exec.immediate (s'.pass t) ∧ (s'.pass t).drains = (s.pass t).drains := by
  induction hs with
  | same hs => exact ⟨h.same hs, hs.drains t⟩
  | @push s₁ s₂ r _ hs ih =>
      refine ⟨DrainOk.same ?_ hs, (hs.drains t).trans ?_⟩
      · simpa [State.pushImmediate, State.touch] using ih.1.push (robinAccess s₁.exec.storeBalance) ⟨s₁.nextTask, r⟩
      · simpa [State.pushImmediate, State.touch] using ih.2

theorem DrainPlan.of_launched {robin : Bucket} {drains : List Bucket} {pc : LoopPc O}
    (hpc : pc.launched = true) : DrainPlan robin drains pc ↔ ∃ draw, drains = [robin, draw] := by
  cases pc <;> simp_all [LoopPc.launched, DrainPlan]

/-- The plan of a terminal pass and its buckets, between two points of the loop. -/
theorem QueueMove.drain {f : Frame T} {pc pc' : LoopPc O} (h : QueueMove s s' t f pc pc')
    (hloop : f.loop = .exec) (hdrain : DrainOk s.exec.immediate (s.pass t))
    (hplan : DrainPlan (robinAccess (s.walltimeStep .exec)) (s.pass t).drains pc) :
    DrainOk s'.exec.immediate (s'.pass t) ∧
      DrainPlan (robinAccess (s.walltimeStep .exec)) (s'.pass t).drains pc' := by
  cases h with
  | @attached sources hsame =>
      have hdrain' : DrainOk (s.drainAttached t).exec.immediate ((s.drainAttached t).pass t) := hdrain
      refine ⟨hdrain'.same hsame, ?_⟩
      rw [hsame.drains t]
      have hfirst : sources = [.robin, .random] ∧ (s.pass t).drains = [] := by
        simpa [DrainPlan] using hplan
      exact .inl hfirst
  | @bucket source sources b hsource hb hsame =>
      have hdrain' : DrainOk (s.drainBucket t b).exec.immediate ((s.drainBucket t b).pass t) := by
        simpa [State.drainBucket, State.visiting, State.setPass, State.touch] using hdrain.drain b
      refine ⟨hdrain'.same hsame, ?_⟩
      rw [hsame.drains t]
      simp only [State.drainBucket, State.visiting, State.setPass, State.touch, Function.update_self]
      rw [hloop] at hb
      cases source with
      | attached => exact absurd rfl hsource
      | robin =>
          obtain ⟨rfl, hdrains⟩ : sources = [.random] ∧ (s.pass t).drains = [] := by
            simpa [DrainPlan] using hplan
          simp [DrainPlan, hdrains, hb rfl]
      | random =>
          obtain ⟨rfl, hdrains⟩ : sources = [] ∧ (s.pass t).drains =
              [robinAccess (s.walltimeStep .exec)] := by simpa [DrainPlan] using hplan
          simp [DrainPlan, hdrains]
  | @visit k rest _ hpushes =>
      have hdrain' : DrainOk (s.finishTask k).exec.immediate ((s.finishTask k).pass t) := hdrain
      obtain ⟨hdrain', hdrains⟩ := hdrain'.pushes hpushes
      refine ⟨hdrain', ?_⟩
      rw [hdrains]
      exact hplan
  | next hsame =>
      refine ⟨hdrain.same hsame, ?_⟩
      rw [hsame.drains t]
      exact .inr hplan
  | later hlater hlater' hpushes =>
      obtain ⟨hdrain', hdrains⟩ := hdrain.pushes hpushes
      refine ⟨hdrain', (DrainPlan.of_launched hlater').mpr ?_⟩
      rw [hdrains]
      rcases hlater with rfl | hlater
      · simpa [DrainPlan] using hplan
      · exact (DrainPlan.of_launched hlater).mp hplan

end IoUring.Exec.RunLoop
