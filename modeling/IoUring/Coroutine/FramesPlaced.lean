import IoUring.Coroutine.FramesSafe

/-!
# Where the `Task` objects are

A `Task` object in a frame lives as long as the frame: a variable is in the frame of a coroutine
that was started and has not returned, and a parameter in a frame that exists or was destroyed just
now. A `Task` that is a parameter holds an older coroutine.
-/

namespace IoUring.Coroutine.Frames

variable {s s' : State} {l : Label} {f g t : Nat}

/-- The coroutine has run and has not returned. -/
def Point.started : Point → Bool
  | .running => true
  | .atOperation _ => true
  | .atTask _ => true
  | _ => false

structure Placed (s : State) : Prop where
  locals : ∀ t x f, s.task t = some x → x.place = .variable f → (s.frame f).point.started = true
  parameters : ∀ t x f, s.task t = some x → x.place = .parameter f →
    (s.frame f).point ≠ .gone ∨ t ∈ s.dtors
  older : ∀ t x f g, s.task t = some x → x.handle = some f → x.place = .parameter g → f < g

theorem task_setTask (s : State) (t t' : Nat) (x : Option Task) :
    (s.setTask t x).task t' = if t' = t then x else s.task t' := by
  simp [State.setTask, Function.update_apply]

theorem handle_setTask (s : State) (t t' : Nat) (x : Option Task) :
    (s.setTask t x).handle t' = if t' = t then x.bind Task.handle else s.handle t' := by
  rw [State.handle, task_setTask]
  split <;> rfl

theorem handle_detach (s : State) (t t' : Nat) :
    (s.detach t).handle t' = if t' = t then none else s.handle t' := by
  rw [State.detach, handle_setTask]
  cases s.task t <;> rfl

theorem handle_newTask (s : State) (x : Task) (t : Nat) :
    (s.newTask x).handle t = if t = s.nextTask then x.handle else s.handle t :=
  handle_setTask s s.nextTask t (some x)

theorem handle_nextTask (h : Inv s) : s.handle s.nextTask = none := by
  rw [State.handle, h.tasks _ (Nat.le_refl _)]
  rfl

/-- A coroutine that a `Task` holds was created. -/
theorem Inv.handle_lt (h : Inv s) (hf : s.handle t = some f) : f < s.nextFrame := by
  obtain ⟨hpoint, -⟩ := h.unstarted (mem_refers_task.mpr hf) rfl
  by_contra hle
  rw [(h.frames f (Nat.le_of_not_lt hle)).1] at hpoint
  cases hpoint

namespace Placed

/-- The coroutines go on, and none of them returns. -/
theorem mono (h : Placed s) (htask : s'.task = s.task) (hdtors : s'.dtors = s.dtors)
    (hstarted : ∀ f, (s.frame f).point.started = true → (s'.frame f).point.started = true)
    (hgone : ∀ f, (s.frame f).point ≠ .gone → (s'.frame f).point ≠ .gone) : Placed s' where
  locals t x f hx hplace := hstarted f (h.locals t x f (htask ▸ hx) hplace)
  parameters t x f hx hplace := by
    rw [hdtors]
    exact (h.parameters t x f (htask ▸ hx) hplace).imp_left (hgone f)
  older t x f g hx := h.older t x f g (htask ▸ hx)

/-- One coroutine goes on. -/
theorem moved (h : Placed s) {p : Point} (hstarted : p.started = true) (htask : s'.task = s.task)
    (hdtors : s'.dtors = s.dtors) (hframe : ∀ g, (s'.frame g).point = if g = f then p else (s.frame g).point) :
    Placed s' := by
  refine h.mono htask hdtors (fun g hg => ?_) fun g hg => ?_
  · rw [hframe]
    split
    · exact hstarted
    · exact hg
  · rw [hframe]
    split
    · rintro rfl
      cases hstarted
    · exact hg

theorem resume (h : Placed s) (hsuspended : (s.frame f).point.suspended = true) : Placed (s.resume f) := by
  rw [resume_eq hsuspended]
  exact h.moved (f := f) (p := .running) rfl rfl rfl fun g => point_setPoint s f g .running

theorem detach (h : Placed s) (t : Nat) : Placed (s.detach t) := by
  have hold : ∀ t' x, (s.detach t).task t' = some x →
      ∃ y, s.task t' = some y ∧ y.place = x.place ∧ (x.handle = none ∨ x.handle = y.handle) := by
    intro t' x hx
    rw [State.detach, task_setTask] at hx
    split at hx
    · next ht =>
        obtain ⟨y, hy, rfl⟩ := Option.map_eq_some_iff.mp hx
        exact ⟨y, ht ▸ hy, rfl, .inl rfl⟩
    · exact ⟨x, hx, rfl, .inr rfl⟩
  refine ⟨fun t' x f hx hplace => ?_, fun t' x f hx hplace => ?_, fun t' x f g hx hhandle hplace => ?_⟩
  · obtain ⟨y, hy, hsame, -⟩ := hold t' x hx
    exact h.locals t' y f hy (hsame.trans hplace)
  · obtain ⟨y, hy, hsame, -⟩ := hold t' x hx
    exact h.parameters t' y f hy (hsame.trans hplace)
  · obtain ⟨y, hy, hsame, hnone | hkept⟩ := hold t' x hx
    · rw [hnone] at hhandle
      cases hhandle
    · exact h.older t' y f g hy (hkept.symm.trans hhandle) (hsame.trans hplace)

/-- A `Task` object is made at a place that exists. -/
theorem newTask (h : Placed s) {x : Task}
    (hvariable : ∀ f, x.place = .variable f → (s.frame f).point.started = true)
    (hparameter : ∀ g, x.place = .parameter g → (s.frame g).point ≠ .gone ∧ ∀ f, x.handle = some f → f < g) :
    Placed (s.newTask x) := by
  have hold : ∀ t' y, (s.newTask x).task t' = some y → y = x ∨ s.task t' = some y := by
    intro t' y hy
    have hy : (s.setTask s.nextTask (some x)).task t' = some y := hy
    rw [task_setTask] at hy
    split at hy
    · exact .inl (Option.some.inj hy).symm
    · exact .inr hy
  refine ⟨fun t' y f hy hplace => ?_, fun t' y f hy hplace => ?_, fun t' y f g hy hhandle hplace => ?_⟩
  · rcases hold t' y hy with rfl | hy
    · exact hvariable f hplace
    · exact h.locals t' y f hy hplace
  · rcases hold t' y hy with rfl | hy
    · exact .inl (hparameter f hplace).1
    · exact h.parameters t' y f hy hplace
  · rcases hold t' y hy with rfl | hy
    · exact (hparameter g hplace).2 f hhandle
    · exact h.older t' y f g hy hhandle hplace

theorem moveTask (h : Placed s) (t : Nat) {p : Place}
    (hvariable : ∀ f, p = .variable f → (s.frame f).point.started = true)
    (hparameter : ∀ g, p = .parameter g → (s.frame g).point ≠ .gone ∧ ∀ f, s.handle t = some f → f < g) :
    Placed (s.moveTask t p) :=
  (h.detach t).newTask hvariable hparameter

/-- The place of a variable of the code that executes. -/
theorem here (hinv : Inv s) {p : Place} (hp : s.here = some p) :
    (∀ f, p = .variable f → (s.frame f).point.started = true) ∧ ∀ f, p ≠ .parameter f := by
  cases hcontrol : s.control with
  | outside =>
      obtain rfl : Place.outside = p := by simpa [State.here, hcontrol] using hp
      exact ⟨by simp, by simp⟩
  | running f =>
      obtain rfl : Place.variable f = p := by simpa [State.here, hcontrol] using hp
      refine ⟨fun f' hf' => ?_, by simp⟩
      obtain rfl := Place.variable.inj hf'
      rw [hinv.control_of_running hcontrol]
      rfl
  | returning g c => simp [State.here, hcontrol] at hp

theorem newCoroutine (h : Placed s) (hinv : Inv s) {p : Place} (hp : s.here = some p) :
    Placed (s.newCoroutine p) := by
  have hgone : (s.frame s.nextFrame).point = .gone := by rw [(hinv.frames _ (Nat.le_refl _)).1]
  obtain ⟨hvariable, hparameter⟩ := here hinv hp
  have hframe : Placed (s.setFrame s.nextFrame ⟨.unstarted, none⟩) := by
    refine h.mono rfl rfl (fun f hf => ?_) fun f hf => ?_
    · rw [frame_setFrame, if_neg]
      · exact hf
      · rintro rfl
        simp [hgone, Point.started] at hf
    · rw [frame_setFrame]
      split
      · simp
      · exact hf
  have htask : Placed ((s.setFrame s.nextFrame ⟨.unstarted, none⟩).newTask ⟨some s.nextFrame, p⟩) := by
    refine hframe.newTask (fun f hf => ?_) fun g hg => absurd hg (hparameter g)
    have hstarted := hvariable f hf
    rw [frame_setFrame, if_neg]
    · exact hstarted
    · rintro rfl
      simp [hgone, Point.started] at hstarted
  exact ⟨htask.locals, htask.parameters, htask.older⟩

/-- The parameters of a new coroutine hold coroutines that were there before. -/
theorem create (h : Placed s) (hinv : Inv s) {args : List Nat} {p : Place} (hp : s.here = some p)
    (hargs : ∀ t ∈ args, s.task t ≠ none) : Placed (s.create args p) := by
  have hold : ∀ t ∈ args, t < s.nextTask := by
    intro t ht
    by_contra hle
    exact hargs t ht (hinv.tasks t (Nat.le_of_not_lt hle))
  have hmoves : ∀ (args : List Nat) (s' : State), Placed s' → (s'.frame s.nextFrame).point ≠ .gone →
      s.nextTask ≤ s'.nextTask → (∀ t f, t < s.nextTask → s'.handle t = some f → f < s.nextFrame) →
      (∀ t ∈ args, t < s.nextTask) →
      Placed (args.foldl (fun s' t => s'.moveTask t (.parameter s.nextFrame)) s') := by
    intro args
    induction args with
    | nil => exact fun _ h _ _ _ _ => h
    | cons t args ih =>
        intro s' h hgone hnext holder hold
        refine ih _ (h.moveTask t (fun f hf => by cases hf) fun g hg => ?_) hgone (Nat.le_succ_of_le hnext)
          (fun t' f ht' hf => ?_) fun t' ht' => hold t' (List.mem_cons_of_mem _ ht')
        · obtain rfl := Place.parameter.inj hg
          exact ⟨hgone, fun f hf => holder t f (hold t List.mem_cons_self) hf⟩
        · have hf : (((s'.detach t).newTask ⟨s'.handle t, .parameter s.nextFrame⟩)).handle t' = some f := hf
          have hne : t' ≠ (s'.detach t).nextTask := Nat.ne_of_lt (Nat.lt_of_lt_of_le ht' hnext)
          rw [handle_newTask, if_neg hne, handle_detach] at hf
          split at hf
          · cases hf
          · exact holder t' f ht' hf
  refine hmoves args _ (h.newCoroutine hinv hp) ?_ (Nat.le_succ _) (fun t f ht hf => ?_) hold
  · rw [show (s.newCoroutine p).frame s.nextFrame = (s.setFrame s.nextFrame ⟨.unstarted, none⟩).frame s.nextFrame
      from rfl, frame_setFrame, if_pos rfl]
    simp
  · have hf : ((s.setFrame s.nextFrame ⟨.unstarted, none⟩).newTask ⟨some s.nextFrame, p⟩).handle t = some f := hf
    have hne : t ≠ (s.setFrame s.nextFrame ⟨.unstarted, none⟩).nextTask := Nat.ne_of_lt ht
    rw [handle_newTask, if_neg hne] at hf
    exact hinv.handle_lt hf

/-- A frame without variables is destroyed, and its parameters are next. -/
theorem destroyed (h : Placed s) (hbound : ∀ t, s.nextTask ≤ t → s.task t = none) (htask : s'.task = s.task)
    (hframe : s'.frame = (s.setFrame f ⟨.gone, none⟩).frame) (hdtors : s'.dtors = s.parameters f ++ s.dtors)
    (hvariables : ∀ t x, s.task t = some x → x.place ≠ .variable f) : Placed s' where
  locals t x g hx hplace := by
    rw [htask] at hx
    rw [hframe, frame_setFrame, if_neg]
    · exact h.locals t x g hx hplace
    · rintro rfl
      exact hvariables t x hx hplace
  parameters t x g hx hplace := by
    rw [htask] at hx
    rw [hframe, hdtors, frame_setFrame]
    by_cases hg : g = f
    · subst hg
      refine .inr (List.mem_append_left _ (mem_parameters.mpr ⟨?_, x, hx, hplace⟩))
      by_contra hle
      rw [hbound t (Nat.le_of_not_lt hle)] at hx
      cases hx
    · rw [if_neg hg]
      exact (h.parameters t x g hx hplace).imp_right (List.mem_append_right _)
  older t x f g hx := h.older t x f g (htask ▸ hx)

/-- `~Task` of an object, which may be the next destructor. -/
theorem destroyTask (h : Placed s) (hinv : Inv s) {dtors : List Nat}
    (hdtors : ∀ t' ∈ s.dtors, t' = t ∨ t' ∈ dtors) (htask : s.task t ≠ none) :
    Placed (State.destroyTask { s with dtors := dtors } t) := by
  have hnone : Placed (State.setTask { s with dtors := dtors } t none) := by
    have hold : ∀ t' x, (State.setTask { s with dtors := dtors } t none).task t' = some x →
        t' ≠ t ∧ s.task t' = some x := by
      intro t' x hx
      rw [task_setTask] at hx
      split at hx
      · cases hx
      · next hne => exact ⟨hne, hx⟩
    refine ⟨fun t' x f hx hplace => ?_, fun t' x f hx hplace => ?_, fun t' x f g hx => ?_⟩
    · exact h.locals t' x f (hold t' x hx).2 hplace
    · obtain ⟨hne, hx⟩ := hold t' x hx
      exact (h.parameters t' x f hx hplace).imp_right fun hmem => (hdtors t' hmem).resolve_left hne
    · exact h.older t' x f g (hold t' x hx).2
  rw [State.destroyTask]
  split
  · next f p hx =>
      have hx : s.task t = some ⟨some f, p⟩ := hx
      have hhandle : s.handle t = some f := handle_eq_some.mpr ⟨p, hx⟩
      obtain ⟨hpoint, hcaller⟩ := hinv.unstarted (mem_refers_task.mpr hhandle) rfl
      have hsuspended : ((State.setTask { s with dtors := dtors } t none).frame f).point.suspended = true := by
        rw [show (State.setTask { s with dtors := dtors } t none).frame f = s.frame f from rfl, hpoint]
        rfl
      rw [destroy_eq (.inl hsuspended)]
      refine hnone.destroyed (f := f) (fun t' ht' => ?_) rfl rfl rfl fun t' x hx hplace => ?_
      · rw [task_setTask]
        split
        · rfl
        · exact hinv.tasks t' ht'
      · have hstarted : (s.frame f).point.started = true := hnone.locals t' x f hx hplace
        rw [hpoint] at hstarted
        cases hstarted
  · exact hnone
  · next hnone' => exact absurd hnone' htask

theorem finalSuspend (h : Placed s) (hinv : Inv s) (hlocals : s.locals f = []) : Placed (s.finalSuspend f) := by
  rw [Inv.finalSuspend_eq]
  refine h.destroyed (f := f) hinv.tasks rfl rfl rfl fun t x hx hplace => ?_
  have hmem : t ∈ s.locals f := by
    have hlt : t < s.nextTask := by
      by_contra hle
      rw [hinv.tasks t (Nat.le_of_not_lt hle)] at hx
      cases hx
    simp [State.locals, hlt, hx, hplace]
  rw [hlocals] at hmem
  cases hmem

theorem awaitTask (h : Placed s) (hinv : Inv s) (hcontrol : s.control = .running f) (t : Nat) :
    Placed (s.awaitTask f t) := by
  rw [State.awaitTask]
  split
  · exact h
  · next g hhandle =>
      obtain ⟨hpoint, hcaller⟩ := hinv.unstarted (mem_refers_task.mpr hhandle) rfl
      have hrunning := hinv.control_of_running hcontrol
      have hgf : g ≠ f := by
        rintro rfl
        simp [hpoint] at hrunning
      rw [if_neg (by simp [hpoint])]
      have hpush : Placed ((s.detach t).push f g) := by
        refine (h.detach t).moved (f := f) (p := .atTask g) rfl rfl rfl fun g' => ?_
        simp only [State.push, frame_setFrame, State.setPoint, if_neg hgf]
        split
        · next hg => rw [hg, if_neg hgf]
        · split <;> rfl
      obtain ⟨hdetach, hfree⟩ := hinv.detach t
      obtain ⟨-, -, hpoint'⟩ := hdetach.push hcontrol (hfree g hhandle) hpoint hcaller
      exact hpush.resume (by rw [hpoint']; rfl)

theorem act (h : Placed s) (hinv : Inv s) (hact : Frames.act s l = some s') : Placed s' := by
  cases l with
  | create args =>
      simp only [Frames.act] at hact
      split at hact
      · next p hp =>
          split at hact
          · next hargs =>
              obtain rfl := Option.some.inj hact
              exact h.create hinv hp hargs
          · cases hact
      · cases hact
  | move t out =>
      simp only [Frames.act] at hact
      split at hact
      · next p hp =>
          split at hact
          · obtain rfl := Option.some.inj hact
            obtain ⟨hvariable, hparameter⟩ := here hinv hp
            cases out with
            | true => exact h.moveTask t (fun f hf => by cases hf) fun f hf => by cases hf
            | false => exact h.moveTask t hvariable fun f hf => absurd hf (hparameter f)
          · cases hact
      · cases hact
  | destroy t =>
      simp only [Frames.act] at hact
      split at hact
      · next htask =>
          obtain rfl := Option.some.inj hact
          have hdtors : ∀ t' ∈ s.dtors, t' = t ∨ t' ∈ s.dtors := fun _ => .inr
          exact h.destroyTask hinv hdtors htask.2
      · cases hact
  | dtor => cases hact
  | coSpawn t =>
      simp only [Frames.act] at hact
      split at hact
      · obtain rfl := Option.some.inj hact
        exact (h.detach t).mono rfl rfl (fun _ => id) fun _ => id
      · cases hact
  | awaitTask t =>
      simp only [Frames.act] at hact
      split at hact
      · next f hcontrol =>
          split at hact
          · obtain rfl := Option.some.inj hact
            exact h.awaitTask hinv hcontrol t
          · cases hact
      · cases hact
  | awaitOperation sqe =>
      simp only [Frames.act] at hact
      split at hact
      · next f hcontrol =>
          obtain rfl := Option.some.inj hact
          split
          · exact h.moved (f := f) (p := .atOperation s.nextOperation) rfl rfl rfl fun g => point_setPoint s f g _
          · exact h
      · cases hact
  | ret =>
      simp only [Frames.act] at hact
      split at hact
      · next f hcontrol =>
          split at hact
          · next hlocals =>
              obtain rfl := Option.some.inj hact
              exact h.finalSuspend hinv hlocals
          · cases hact
      · cases hact
  | transfer =>
      simp only [Frames.act] at hact
      split at hact
      · obtain rfl := Option.some.inj hact
        exact h.mono rfl rfl (fun _ => id) fun _ => id
      · next g f hcontrol =>
          obtain rfl := Option.some.inj hact
          obtain ⟨-, -, hpoint⟩ := hinv.returned hcontrol
          have hmoved : Placed { s with control := .outside, log := s.log ++ [.resumed f g] } :=
            h.mono rfl rfl (fun _ => id) fun _ => id
          exact hmoved.resume (by simp [hpoint, Point.suspended])
      · cases hact
  | launch =>
      simp only [Frames.act] at hact
      split at hact
      · next f operations hcontrol hqueue =>
          obtain rfl := Option.some.inj hact
          have hmem : f ∈ s.refers .queue := by simp [State.refers, hqueue]
          have hmoved : Placed { s with operations := operations } := h.mono rfl rfl (fun _ => id) fun _ => id
          exact hmoved.resume (by simp [(hinv.unstarted hmem rfl).1, Point.suspended])
      · cases hact
  | reap o canceled =>
      simp only [Frames.act] at hact
      split at hact
      · next f hcontrol ho =>
          obtain rfl := Option.some.inj hact
          have hmoved : Placed { s with h := Function.update s.h o none } :=
            h.mono rfl rfl (fun _ => id) fun _ => id
          split
          · exact hmoved
          · have hpoint : (s.frame f).point = .atOperation o :=
              hinv.fitted.fits (.operation o) f (by simp [State.refers, ho])
            exact hmoved.resume (by simp [hpoint, Point.suspended])
      · cases hact

theorem step (h : Placed s) (hinv : Inv s) (hstep : Frames.step s l = some s') : Placed s' := by
  simp only [Frames.step] at hstep
  split at hstep
  · exact h.act hinv hstep
  · next t dtors hdtors =>
      split at hstep
      · obtain rfl := Option.some.inj hstep
        obtain ⟨x, -, hx, -⟩ := hinv.dying t (hdtors ▸ List.mem_cons_self)
        refine h.destroyTask hinv (fun t' ht' => ?_) (by simp [hx])
        rw [hdtors] at ht'
        exact List.mem_cons.mp ht'
      · cases hstep

end Placed

theorem reachable_placed (h : machine.Reachable s) : Placed s := by
  refine h.invariant Placed (fun s hs => ?_) fun s l s' hreach hplaced _ hstep =>
    hplaced.step (reachable_frames hreach) hstep
  obtain ⟨-, -, htask, -⟩ := hs
  exact ⟨fun t x f hx => by simp [htask] at hx, fun t x f hx => by simp [htask] at hx,
    fun t x f g hx => by simp [htask] at hx⟩

end IoUring.Coroutine.Frames
