import IoUring.Base.Placement
import IoUring.Exec.RunLoopStep

/-!
# Where the tasks are

Every task that was pushed is in one bucket, in one attached queue, in the hands
of one thread, or finished, and it is finished once.
-/

namespace IoUring.Exec.RunLoop

variable {O T : Type*}

/-- The numbers of the tasks at a place; `tasks t` is what is left of the chain
that thread `t` has drained. -/
def State.content (s : State O T) (tasks : T → List (Task O)) : Place T → List Nat
  | .bucket b => (s.exec.immediate b).map Task.id
  | .attached t => (s.locals t).attached.map Task.id
  | .visiting t => (tasks t).map Task.id
  | .finished => []

def State.tasks (s : State O T) (t : T) : List (Task O) :=
  (s.thread t).tasks

variable [DecidableEq T]

/-- A task that is attached to a local is not a restart task. -/
structure PlaceOk (s : State O T) (tasks : T → List (Task O)) : Prop where
  placement : Placement (fun p => p ≠ .finished) (s.content tasks) s.place s.nextTask
  finished : ∀ n, s.finished n = if s.place n = some .finished then 1 else 0
  user : ∀ t, ∀ k ∈ (s.locals t).attached, k.restartOf = none

variable {cfg : Config O T} {s s' : State O T} {t : T} {f : Frame T} {c : Caller T} {ch : Choice}
  {pc pc' : LoopPc O} {tasks tasks' : T → List (Task O)}

namespace PlaceOk

theorem congr (h : PlaceOk s tasks) (hs : SamePlaces s s') (ht : tasks' = tasks) :
    PlaceOk s' tasks' where
  placement := by
    have hcontent : s'.content tasks' = s.content tasks := by
      funext p
      cases p <;> simp [State.content, hs.immediate, hs.attached, ht]
    rw [hcontent, hs.place, hs.nextTask]
    exact h.placement
  finished := by rw [hs.finished, hs.place]; exact h.finished
  user := by simp only [hs.attached]; exact h.user

/-- A task that is placed anew has not been finished before. -/
theorem finished_update (h : PlaceOk s tasks) {p : Place T} (hp : p ≠ .finished) (n : Nat) :
    s.finished n =
      if Function.update s.place s.nextTask (some p) n = some .finished then 1 else 0 := by
  rw [h.finished n]
  by_cases hn : n = s.nextTask
  · subst hn
    simp [h.placement.fresh, hp]
  · simp [hn]

theorem pushImmediate (h : PlaceOk s tasks) (t : T) (r : Option O) :
    PlaceOk (s.pushImmediate t r) tasks where
  placement := by
    have hcontent : (s.pushImmediate t r).content tasks = Function.update (s.content tasks)
        (.bucket (robinAccess s.exec.storeBalance))
        (s.nextTask :: s.content tasks (.bucket (robinAccess s.exec.storeBalance))) := by
      funext p
      cases p with
      | bucket b =>
          by_cases hb : b = robinAccess s.exec.storeBalance
          · subst hb
            simp [State.content, State.pushImmediate, State.touch]
          · simp [State.content, State.pushImmediate, State.touch, hb]
      | _ => simp [State.content, State.pushImmediate, State.touch]
    rw [hcontent]
    exact h.placement.push (by simp)
  finished := h.finished_update (fun heq => by cases heq)
  user := h.user

theorem pushes (h : PlaceOk s tasks) (hs : Pushes t s s') : PlaceOk s' tasks := by
  induction hs with
  | same hsame => exact h.congr hsame.toSamePlaces rfl
  | push r _ hsame ih => exact (ih.pushImmediate t r).congr hsame.toSamePlaces rfl

theorem pushAttached (h : PlaceOk s tasks) (t : T) : PlaceOk (s.pushAttached t) tasks where
  placement := by
    have hcontent : (s.pushAttached t).content tasks = Function.update (s.content tasks)
        (.attached t) (s.nextTask :: s.content tasks (.attached t)) := by
      funext p
      cases p with
      | attached t' =>
          by_cases ht : t' = t
          · subst ht
            simp [State.content, State.pushAttached, State.setLocal]
          · simp [State.content, State.pushAttached, State.setLocal, ht]
      | _ => simp [State.content, State.pushAttached, State.setLocal]
    rw [hcontent]
    exact h.placement.push (by simp)
  finished := h.finished_update (fun heq => by cases heq)
  user := by
    intro t' k hk
    by_cases ht : t' = t
    · subst ht
      simp only [State.pushAttached, State.setLocal, Function.update_self] at hk
      rcases List.mem_cons.mp hk with rfl | hk
      · rfl
      · exact h.user _ k hk
    · exact h.user t' k (by simpa [State.pushAttached, State.setLocal, ht] using hk)

/-- A queue at place `p` is drained by thread `t`. -/
theorem drain (h : PlaceOk s tasks) {p : Place T} (hp : p ≠ .finished) (hpt : p ≠ .visiting t)
    {queue : List (Task O)} (hqueue : s.content tasks p = queue.map Task.id)
    (hempty : tasks t = []) (hplace : s'.place = (s.visiting t queue).place)
    (hfinished : s'.finished = s.finished) (hnext : s'.nextTask = s.nextTask)
    (hcontent : ∀ q, q ≠ .visiting t → s'.content tasks q =
      Function.update (s.content tasks) p [] q)
    (huser : ∀ t, ∀ k ∈ (s'.locals t).attached, k ∈ (s.locals t).attached) :
    PlaceOk s' (Function.update tasks t (launchOrder f.policy queue)) where
  placement := by
    have hperm : ((launchOrder f.policy queue).map Task.id).Perm (s.content tasks p) := by
      rw [hqueue]
      simp only [launchOrder]
      split
      · exact .refl _
      · exact (List.reverse_perm queue).map _
    have hmoved := h.placement.move (q := .visiting t) hp (by simp) hpt (by simp [State.content, hempty])
      hperm
    have hcontent' : s'.content (Function.update tasks t (launchOrder f.policy queue)) =
        Function.update (Function.update (s.content tasks) p []) (.visiting t)
          ((launchOrder f.policy queue).map Task.id) := by
      funext q
      by_cases hq : q = .visiting t
      · subst hq
        simp [State.content]
      · rw [Function.update_of_ne hq, ← hcontent q hq]
        cases q with
        | visiting t' =>
            have ht : t' ≠ t := fun heq => hq (by rw [heq])
            simp [State.content, ht]
        | _ => rfl
    rw [hcontent', hplace, hnext]
    simp only [State.visiting, ← hqueue]
    exact hmoved
  finished := by
    intro n
    rw [hfinished, hplace, h.finished n]
    simp only [State.visiting]
    by_cases hn : n ∈ queue.map Task.id
    · have hnot : s.place n ≠ some .finished := by
        rw [(h.placement.mem p hp n).mpr (hqueue ▸ hn)]
        simpa using hp
      simp only [hnot, if_false, hn, if_true]
      simp
    · simp [hn]
  user := fun t' k hk => h.user t' k (huser t' k hk)

theorem drainAttached (h : PlaceOk s tasks) (hempty : tasks t = []) :
    PlaceOk (s.drainAttached t) (Function.update tasks t (launchOrder f.policy (s.locals t).attached)) := by
  refine h.drain (p := .attached t) (by simp) (by simp) rfl hempty rfl rfl rfl ?_ ?_
  · intro q _
    cases q with
    | attached t' =>
        by_cases ht : t' = t
        · subst ht
          simp [State.content, State.drainAttached, State.visiting, State.setLocal]
        · simp [State.content, State.drainAttached, State.visiting, State.setLocal, ht]
    | _ => simp [State.content, State.drainAttached, State.visiting, State.setLocal]
  · intro t' k hk
    by_cases ht : t' = t
    · subst ht
      simp [State.drainAttached, State.visiting, State.setLocal] at hk
    · simpa [State.drainAttached, State.visiting, State.setLocal, ht] using hk

theorem drainBucket (h : PlaceOk s tasks) (hempty : tasks t = []) (b : Bucket) :
    PlaceOk (s.drainBucket t b) (Function.update tasks t (launchOrder f.policy (s.exec.immediate b))) := by
  refine h.drain (p := .bucket b) (by simp) (by simp) rfl hempty rfl rfl rfl ?_ fun _ _ hk => hk
  intro q _
  cases q with
  | bucket b' =>
      by_cases hb : b' = b
      · subst hb
        simp [State.content, State.drainBucket, State.visiting, State.setPass, State.touch]
      · simp [State.content, State.drainBucket, State.visiting, State.setPass, State.touch, hb]
  | _ => simp [State.content, State.drainBucket, State.visiting, State.setPass, State.touch]

/-- The first task in the hands of thread `t` is called. -/
theorem finishTask (h : PlaceOk s tasks) {k : Task O} {rest : List (Task O)}
    (hcons : tasks t = k :: rest) : PlaceOk (s.finishTask k) (Function.update tasks t rest) where
  placement := by
    have hcons' : s.content tasks (.visiting t) = k.id :: rest.map Task.id := by
      simp [State.content, hcons]
    have htaken := h.placement.take (d := .finished) (by simp) (by simp) hcons'
    have hcontent : (s.finishTask k).content (Function.update tasks t rest) =
        Function.update (s.content tasks) (.visiting t) (rest.map Task.id) := by
      funext q
      cases q with
      | visiting t' =>
          by_cases ht : t' = t
          · subst ht
            simp [State.content]
          · simp [State.content, ht]
      | _ => simp [State.content, State.finishTask]
    rw [hcontent]
    exact htaken
  finished := by
    intro n
    by_cases hn : n = k.id
    · subst hn
      have hplace := (h.placement.mem (.visiting t) (by simp) k.id).mpr (by simp [State.content, hcons])
      have hold := h.finished k.id
      simp only [hplace] at hold
      simp only [State.finishTask, Function.update_self, hold]
      simp
    · simpa [State.finishTask, hn] using h.finished n
  user := h.user

end PlaceOk

/-! ## All labels -/

theorem LoopPc.tasks_launched (hpc : pc.launched = true) : pc.tasks = [] := by
  cases pc <;> simp_all [LoopPc.launched, LoopPc.tasks]

/-- The tasks in the hands of the acting thread. -/
theorem tasks_update (helse : ∀ t', t' ≠ t → s'.thread t' = s.thread t') :
    s'.tasks = Function.update s.tasks t (s'.thread t).tasks := by
  funext t'
  by_cases ht : t' = t
  · subst ht
    simp [State.tasks]
  · simp [State.tasks, ht, helse t' ht]

theorem PlaceOk.same (h : PlaceOk s s.tasks) (hs : SamePlaces s s')
    (helse : ∀ t', t' ≠ t → s'.thread t' = s.thread t')
    (ht : (s'.thread t).tasks = (s.thread t).tasks) : PlaceOk s' s'.tasks := by
  apply h.congr hs
  rw [tasks_update helse, ht]
  exact Function.update_eq_self t s.tasks

/-- The thread moves between two points without tasks. -/
theorem PlaceOk.goto (h : PlaceOk s s.tasks) {s₁ : State O T} {before after : ThreadPc O T}
    (hs : SamePlaces s s₁) (hpc : s.thread t = before) (hbefore : before.tasks = [])
    (helse : ∀ t', t' ≠ t → s₁.thread t' = s.thread t') (hafter : after.tasks = []) :
    PlaceOk (s₁.setThread t after) (s₁.setThread t after).tasks := by
  refine h.same (t := t) { hs with } (fun t' ht => ?_) ?_
  · simpa [State.setThread, ht] using helse t' ht
  · simp [State.setThread, hpc, hbefore, hafter]

variable [DecidableEq O]

theorem Continues.places (h : Continues s s' t f c pc) (hpc : s.thread t = .run f c pc)
    (hplace : PlaceOk s s.tasks) : PlaceOk s' s'.tasks := by
  obtain ⟨f', pc', hgo⟩ := h.goes
  have hbefore : s.tasks t = pc.tasks := by simp [State.tasks, hpc, ThreadPc.tasks]
  have hafter : s'.tasks = Function.update s.tasks t pc'.tasks := by
    rw [tasks_update fun t' ht => (h.elsewhere t' ht).2.2]
    rcases hgo.thread with hthread | hthread <;> rw [hthread] <;> rfl
  cases hgo.queues with
  | attached hsame => exact (hplace.drainAttached hbefore).congr hsame.toSamePlaces hafter
  | bucket b _ _ hsame => exact (hplace.drainBucket hbefore b).congr hsame.toSamePlaces hafter
  | visit hpushes =>
      rw [hafter]
      exact (hplace.finishTask hbefore).pushes hpushes
  | next hsame =>
      refine hplace.congr hsame.toSamePlaces (hafter.trans ?_)
      exact (congrArg _ hbefore.symm).trans (Function.update_eq_self t s.tasks)
  | later hpc hpc' hpushes =>
      have hnone : pc.tasks = pc'.tasks := by
        rw [LoopPc.tasks_launched hpc']
        rcases hpc with rfl | hpc
        · rfl
        · exact LoopPc.tasks_launched hpc
      have heq : s'.tasks = s.tasks := by
        rw [hafter, ← hnone, ← hbefore]
        exact Function.update_eq_self t s.tasks
      rw [heq]
      exact hplace.pushes hpushes

omit [DecidableEq O] in
theorem returnRun_thread (s : State O T) (t : T) (f : Frame T) (info : RunProgressInfo)
    (c : Caller T) : ((returnRun s t f info c).thread t).tasks = [] := by
  cases c <;> simp [returnRun, State.setThread, ThreadPc.tasks]

omit [DecidableEq O] in
/-- `run()` returns from a point without tasks. -/
theorem PlaceOk.returned (h : PlaceOk s s.tasks) {s₁ : State O T} (hcalm : Calm s s₁ t)
    (hpc : s.thread t = .run f c pc) (hnone : pc.tasks = []) (f' : Frame T)
    (info : RunProgressInfo) :
    PlaceOk (returnRun s₁ t f' info c) (returnRun s₁ t f' info c).tasks := by
  obtain ⟨helse, hqueues⟩ := returnRun_elsewhere s₁ t f' info c
  refine h.same (hcalm.queues.trans hqueues).toSamePlaces
    (fun t' ht => ((hcalm.elsewhere.trans helse) t' ht).2.2) ?_
  rw [returnRun_thread, hpc]
  exact hnone.symm

theorem Keeps.places (h : Keeps s s' t) (hplace : PlaceOk s s.tasks) : PlaceOk s' s'.tasks := by
  have heq : s'.tasks = s.tasks := by
    rw [tasks_update fun t' ht => (h.elsewhere t' ht).2.2, h.thread]
    exact Function.update_eq_self t s.tasks
  rw [heq]
  exact hplace.pushes h.queues

theorem step_places {a : Label O T} (hplace : PlaceOk s s.tasks) (h : Step cfg s a s') :
    PlaceOk s' s'.tasks := by
  cases h with
  | @command t f c _ r hpc hr =>
      have hlocal : SameQueues s (s.setLocal t { s.locals t with ring := r.submit r.sq.length }) :=
        sameQueues_setLocal rfl
      exact hplace.goto hlocal.toSamePlaces hpc rfl (fun _ _ => rfl) rfl
  | @drain t f c _ hpc =>
      exact hplace.goto { SamePlaces.refl s with } hpc rfl (fun _ _ => rfl) rfl
  | @check t f c _ _ hpc henters =>
      cases henters with
      | stopped _ hcalm _ _ heq =>
          rw [heq]
          exact hplace.returned hcalm hpc rfl f _
      | entered _ hcalm _ _ _ heq =>
          rw [heq]
          exact hplace.goto hcalm.queues.toSamePlaces hpc rfl
            (fun t' ht => (hcalm.elsewhere t' ht).2.2) rfl
  | @tail t f c _ _ hpc hends =>
      cases hends with
      | back info hcalm _ _ heq _ _ =>
          rw [heq]
          exact hplace.returned hcalm hpc rfl _ info
      | stop _ hcalm _ heq _ =>
          rw [heq]
          exact hplace.goto hcalm.queues.toSamePlaces hpc rfl
            (fun t' ht => (hcalm.elsewhere t' ht).2.2) rfl
      | again _ hcalm heq _ _ =>
          rw [heq]
          exact hplace.goto { hcalm.queues with } hpc rfl
            (fun t' ht => (hcalm.elsewhere t' ht).2.2) rfl
  | inside hpc _ _ _ hgo => exact hgo.places hpc hplace
  | waitLocals hpc hone => exact hplace.goto { SamePlaces.refl s with } hpc rfl (fun _ _ => rfl) rfl
  | @detach t _ hpc =>
      have hlocal : SameQueues s (s.setLocal t { s.locals t with stage := .closed }) :=
        sameQueues_setLocal rfl
      simp only [detachStep]
      split <;> exact hplace.goto { hlocal.toSamePlaces with } hpc rfl (fun _ _ => rfl) rfl
  | @start t o ch huser => exact (Keeps.startOp cfg s t o ch).places hplace
  | @schedule t _ huser => exact (Keeps.pushImmediate s t none).places hplace
  | @scheduleOn t t' _ huser hstage => exact hplace.pushAttached t'
  | @ret t f c pc _ hpc => 
      refine hplace.same (t := t) { SamePlaces.refl s with } (fun t' ht => ?_) ?_
      · simp [State.setThread, ht]
      · simp [State.setThread, hpc, ThreadPc.tasks]
  | call hpc => exact hplace.goto (.refl s) hpc rfl (fun _ _ => rfl) rfl
  | exitLocal hpc hstage => exact hplace.goto (.refl s) hpc rfl (fun _ _ => rfl) rfl
  | exit hpc hstage => exact hplace.goto (.refl s) hpc rfl (fun _ _ => rfl) rfl
  | @destroy t _ hpc hmain halive =>
      have hlocal := Calm.getLocal s t
      exact hplace.goto { hlocal.queues.toSamePlaces with } hpc rfl
        (fun t' ht => (hlocal.elsewhere t' ht).2.2) rfl
  | @post t i res e r hstage hr =>
      have hlocal : SameQueues s (s.setLocal t { s.locals t with ring := r }) := sameQueues_setLocal rfl
      exact hplace.congr { hlocal.toSamePlaces with } rfl
  | @stopPush t o hstage hring => exact (Keeps.setStopping s t _ _).places hplace
  | requestStop => exact hplace.congr { SamePlaces.refl s with } rfl
  | stopScope => exact hplace.congr { SamePlaces.refl s with } rfl

theorem reachable_places {ok : State O T → Label O T → Prop} (h : (machine cfg).Reach ok s) :
    PlaceOk s s.tasks := by
  refine h.invariant (fun s => PlaceOk s s.tasks) (fun s hs => ?_) fun s a s' _ hplace _ hstep =>
    step_places hplace (.of_step hstep)
  obtain ⟨-, -, -, -, himmediate, hlocals, -, hthread, hnext, -, hplace, hfinished, -⟩ := hs
  have hempty : ∀ p, s.content s.tasks p = [] := by
    intro p
    cases p <;>
      simp [State.content, himmediate, hlocals, State.tasks, hthread, ThreadPc.tasks]
  exact {
    placement := {
      mem := by simp [hplace, hempty]
      nodup := by simp [hempty]
      fresh := by simp [hplace] }
    finished := by simp [hplace, hfinished]
    user := by simp [hlocals] }

end IoUring.Exec.RunLoop
