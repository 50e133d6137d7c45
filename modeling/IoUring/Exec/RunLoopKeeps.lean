import IoUring.Exec.RunLoopPass

/-!
# What happens in passing

The library and the user touch the executor, construct a local, push tasks and
take SQEs between two points of a loop. None of it moves a thread, changes a flag
or takes a task out of a queue.
-/

namespace IoUring.Exec.RunLoop

variable {O T : Type*} [DecidableEq T]

/-- The other threads are as they were. -/
def Elsewhere (s s' : State O T) (t : T) : Prop :=
  ∀ t', t' ≠ t → s'.locals t' = s.locals t' ∧ s'.pass t' = s.pass t' ∧ s'.thread t' = s.thread t'

/-- The flags of the executor and of its loops are as they were. -/
structure SameFlags (s s' : State O T) : Prop where
  mustStop : s'.mustStop = s.mustStop
  exits : s'.exits = s.exits
  walltimeStep : s'.walltimeStep = s.walltimeStep
  stopRequested : s'.exec.stopRequested = s.exec.stopRequested
  alive : s'.exec.alive = s.exec.alive
  wild : s.exec.alive = true → s'.wild = s.wild

/-- The tasks are where they were. -/
structure SamePlaces (s s' : State O T) : Prop where
  immediate : s'.exec.immediate = s.exec.immediate
  attached : ∀ t, (s'.locals t).attached = (s.locals t).attached
  nextTask : s'.nextTask = s.nextTask
  place : s'.place = s.place
  finished : s'.finished = s.finished

/-- The task queues and what the history says about them are as they were. -/
structure SameQueues (s s' : State O T) : Prop extends SamePlaces s s' where
  immediateAtDestroy : s'.immediateAtDestroy = s.immediateAtDestroy
  attachedAtDestroy : s'.attachedAtDestroy = s.attachedAtDestroy
  startImmediate : ∀ t, (s'.pass t).startImmediate = (s.pass t).startImmediate
  drains : ∀ t, (s'.pass t).drains = (s.pass t).drains
  pushes : ∀ t, (s'.pass t).pushes = (s.pass t).pushes

/-- Nothing that the others or the queues could notice. -/
structure Calm (s s' : State O T) (t : T) : Prop where
  elsewhere : Elsewhere s s' t
  thread : s'.thread t = s.thread t
  flags : SameFlags s s'
  queues : SameQueues s s'

/-- Thread `t` has pushed restart tasks or tasks of `schedule()`, and nothing
else has happened to the queues. -/
inductive Pushes (t : T) : State O T → State O T → Prop where
  | same {s s' : State O T} : SameQueues s s' → Pushes t s s'
  | push {s s' s'' : State O T} (restartOf : Option O) :
      Pushes t s s' → SameQueues (s'.pushImmediate t restartOf) s'' → Pushes t s s''

variable {cfg : Config O T} {s s' s'' : State O T} {t : T} {o : O} {f : Frame T} {c : Caller T}
  {ch : Choice} {pc : LoopPc O} {sources : List LaunchSource}

omit [DecidableEq T] in
theorem Elsewhere.refl (s : State O T) (t : T) : Elsewhere s s t :=
  fun _ _ => ⟨rfl, rfl, rfl⟩

omit [DecidableEq T] in
theorem Elsewhere.trans (h : Elsewhere s s' t) (h' : Elsewhere s' s'' t) : Elsewhere s s'' t := by
  intro t' ht
  obtain ⟨hl, hp, hpc⟩ := h t' ht
  obtain ⟨hl', hp', hpc'⟩ := h' t' ht
  exact ⟨hl'.trans hl, hp'.trans hp, hpc'.trans hpc⟩

omit [DecidableEq T] in
theorem SameFlags.refl (s : State O T) : SameFlags s s :=
  ⟨rfl, rfl, rfl, rfl, rfl, fun _ => rfl⟩

omit [DecidableEq T] in
theorem SameFlags.trans (h : SameFlags s s') (h' : SameFlags s' s'') : SameFlags s s'' where
  mustStop := h'.mustStop.trans h.mustStop
  exits := h'.exits.trans h.exits
  walltimeStep := h'.walltimeStep.trans h.walltimeStep
  stopRequested := h'.stopRequested.trans h.stopRequested
  alive := h'.alive.trans h.alive
  wild := fun ha => (h'.wild (h.alive.trans ha)).trans (h.wild ha)

omit [DecidableEq T] in
theorem sameFlags_touch (s : State O T) : SameFlags s s.touch :=
  { SameFlags.refl s with wild := fun ha => by simp [State.touch, ha] }

omit [DecidableEq T] in
theorem SamePlaces.refl (s : State O T) : SamePlaces s s :=
  ⟨rfl, fun _ => rfl, rfl, rfl, rfl⟩

omit [DecidableEq T] in
theorem SameQueues.refl (s : State O T) : SameQueues s s :=
  ⟨.refl s, rfl, rfl, fun _ => rfl, fun _ => rfl, fun _ => rfl⟩

omit [DecidableEq T] in
theorem SameQueues.trans (h : SameQueues s s') (h' : SameQueues s' s'') : SameQueues s s'' where
  immediate := h'.immediate.trans h.immediate
  attached := fun t => (h'.attached t).trans (h.attached t)
  nextTask := h'.nextTask.trans h.nextTask
  place := h'.place.trans h.place
  finished := h'.finished.trans h.finished
  immediateAtDestroy := h'.immediateAtDestroy.trans h.immediateAtDestroy
  attachedAtDestroy := h'.attachedAtDestroy.trans h.attachedAtDestroy
  startImmediate := fun t => (h'.startImmediate t).trans (h.startImmediate t)
  drains := fun t => (h'.drains t).trans (h.drains t)
  pushes := fun t => (h'.pushes t).trans (h.pushes t)

theorem elsewhere_setThread (s : State O T) (t : T) (pc : ThreadPc O T) :
    Elsewhere s (s.setThread t pc) t :=
  fun _ ht => ⟨rfl, rfl, by simp [State.setThread, ht]⟩

theorem elsewhere_setLocal (s : State O T) (t : T) (l : IoUringExecLocal O) :
    Elsewhere s (s.setLocal t l) t :=
  fun _ ht => ⟨by simp [State.setLocal, ht], rfl, rfl⟩

theorem elsewhere_setPass (s : State O T) (t : T) (p : PassLog O) :
    Elsewhere s (s.setPass t p) t :=
  fun _ ht => ⟨rfl, by simp [State.setPass, ht], rfl⟩

theorem Pushes.trans (h : Pushes t s s') (h' : Pushes t s' s'') : Pushes t s s'' := by
  induction h' with
  | same hsame =>
      cases h with
      | same h => exact .same (h.trans hsame)
      | push r h hpush => exact .push r h (hpush.trans hsame)
  | push r _ hpush ih => exact .push r ih hpush

/-- A new content of a local with the same attached queue. -/
theorem sameQueues_setLocal {l : IoUringExecLocal O} (hl : l.attached = (s.locals t).attached) :
    SameQueues s (s.setLocal t l) :=
  { SameQueues.refl s with
    attached := fun t' => by by_cases h : t' = t <;> simp [State.setLocal, h, hl] }

theorem sameQueues_setPass {log : PassLog O} (himmediate : log.startImmediate = (s.pass t).startImmediate)
    (hdrains : log.drains = (s.pass t).drains) (hpushes : log.pushes = (s.pass t).pushes) :
    SameQueues s (s.setPass t log) :=
  { SameQueues.refl s with
    startImmediate := fun t' => by by_cases h : t' = t <;> simp [State.setPass, h, himmediate]
    drains := fun t' => by by_cases h : t' = t <;> simp [State.setPass, h, hdrains]
    pushes := fun t' => by by_cases h : t' = t <;> simp [State.setPass, h, hpushes] }

namespace Calm

omit [DecidableEq T] in
theorem refl (s : State O T) (t : T) : Calm s s t :=
  ⟨.refl s t, rfl, .refl s, .refl s⟩

omit [DecidableEq T] in
theorem trans (h : Calm s s' t) (h' : Calm s' s'' t) : Calm s s'' t :=
  ⟨h.elsewhere.trans h'.elsewhere, h'.thread.trans h.thread, h.flags.trans h'.flags,
    h.queues.trans h'.queues⟩

omit [DecidableEq T] in
theorem touch (s : State O T) (t : T) : Calm s s.touch t :=
  ⟨.refl s t, rfl, sameFlags_touch s, { SameQueues.refl s with }⟩

omit [DecidableEq T] in
theorem touchLoop (s : State O T) (t : T) (loop : Loop T) : Calm s (s.touchLoop loop) t := by
  cases loop with
  | exec => exact touch s t
  | own t' => exact refl s t

theorem setLocal {l : IoUringExecLocal O} (hl : l.attached = (s.locals t).attached) :
    Calm s (s.setLocal t l) t :=
  ⟨elsewhere_setLocal s t l, rfl, { SameFlags.refl s with }, sameQueues_setLocal hl⟩

theorem setPass {log : PassLog O} (himmediate : log.startImmediate = (s.pass t).startImmediate)
    (hdrains : log.drains = (s.pass t).drains) (hpushes : log.pushes = (s.pass t).pushes) :
    Calm s (s.setPass t log) t :=
  ⟨elsewhere_setPass s t log, rfl, { SameFlags.refl s with },
    sameQueues_setPass himmediate hdrains hpushes⟩

theorem getLocal (s : State O T) (t : T) : Calm s (s.getLocal t) t := by
  refine (touch s t).trans ?_
  simp only [State.getLocal]
  split
  · have hlocal : Calm s.touch (s.touch.setLocal t { s.touch.locals t with stage := .alive }) t :=
      setLocal rfl
    exact { hlocal with
      flags := { hlocal.flags with }
      queues := { hlocal.queues with } }
  · exact refl _ t

end Calm

/-- `get_local()` changes the stage of a local only. -/
theorem getLocal_locals (s : State O T) (t t' : T) :
    ((s.getLocal t).locals t').ring = (s.locals t').ring ∧
      ((s.getLocal t).locals t').attached = (s.locals t').attached ∧
      (s.getLocal t).pass = s.pass := by
  simp only [State.getLocal]
  split
  · by_cases h : t' = t <;> simp [State.setLocal, State.touch, h]
  · exact ⟨rfl, rfl, rfl⟩

variable [DecidableEq O]

/-- What the library and the user do in passing, between two points of a loop. -/
structure Keeps (s s' : State O T) (t : T) : Prop where
  elsewhere : Elsewhere s s' t
  thread : s'.thread t = s.thread t
  flags : SameFlags s s'
  queues : Pushes t s s'
  pass : ∀ p pc, pc ≠ .check → PassOk p (s.locals t) (s.pass t) pc →
    PassOk p (s'.locals t) (s'.pass t) pc

namespace Keeps

theorem of_calm (h : Calm s s' t) (hpass : ∀ p pc, pc ≠ .check →
    PassOk p (s.locals t) (s.pass t) pc → PassOk p (s'.locals t) (s'.pass t) pc) : Keeps s s' t :=
  ⟨h.elsewhere, h.thread, h.flags, .same h.queues, hpass⟩

theorem refl (s : State O T) (t : T) : Keeps s s t :=
  of_calm (.refl s t) fun _ _ _ h => h

theorem trans (h : Keeps s s' t) (h' : Keeps s' s'' t) : Keeps s s'' t where
  elsewhere := h.elsewhere.trans h'.elsewhere
  thread := h'.thread.trans h.thread
  flags := h.flags.trans h'.flags
  queues := h.queues.trans h'.queues
  pass := fun p pc hpc hp => h'.pass p pc hpc (h.pass p pc hpc hp)

theorem touch (s : State O T) (t : T) : Keeps s s.touch t :=
  of_calm (.touch s t) fun _ _ _ h => h

theorem getLocal (s : State O T) (t : T) : Keeps s (s.getLocal t) t := by
  obtain ⟨hring, hattached, hpass⟩ := getLocal_locals s t t
  refine of_calm (.getLocal s t) fun p pc _ h => ?_
  rw [hpass]
  exact h.congr_local hring hattached

theorem pushImmediate (s : State O T) (t : T) (r : Option O) :
    Keeps s (s.pushImmediate t r) t where
  elsewhere := fun t' ht => ⟨rfl, by simp [State.pushImmediate, State.touch, ht], rfl⟩
  thread := rfl
  flags := { SameFlags.refl s with wild := (sameFlags_touch s).wild }
  queues := .push r (.same (.refl s)) (.refl _)
  pass := fun p pc _ h => by
    simpa [State.pushImmediate, State.touch] using { h with }

theorem asyncRestart (s : State O T) (t : T) (o : O) (throws : Bool) :
    Keeps s (s.asyncRestart t o throws).1 t := by
  simp only [State.asyncRestart]
  split
  · exact touch s t
  · exact pushImmediate s t _

theorem setStopping (s : State O T) (t : T) (b : Bucket) (ops : List O) :
    Keeps s (s.setStopping t b ops) t := by
  refine of_calm (.setLocal rfl) fun p pc _ h => ?_
  simp only [State.setStopping, State.setLocal, Function.update_self]
  exact h.congr_local rfl rfl

theorem takeSqe {entries : Nat} {e : Sqe O} {r : Ring O} {taken : List O}
    (hr : (s.locals t).ring.getSqe entries e = some r) (htaken : taken = e.data.toList) :
    Keeps s (s.takeSqe t r taken) t := by
  have hlocal : Calm s (s.setLocal t { s.locals t with
      ring := r
      inflight := (s.locals t).inflight + 1 }) t := .setLocal rfl
  refine of_calm (hlocal.trans (.setPass rfl rfl rfl)) fun p pc hpc h => ?_
  simpa [State.takeSqe, State.setLocal, State.setPass] using h.takeSqe hr htaken hpc

theorem startOp (cfg : Config O T) (s : State O T) (t : T) (o : O) (ch : Choice) :
    Keeps s (startOp cfg s t o ch).1 t := by
  simp only [RunLoop.startOp]
  split
  · exact refl s t
  · refine (getLocal s t).trans ?_
    split
    · next hr => exact takeSqe hr rfl
    · exact asyncRestart _ t o ch.throws

end Keeps

end IoUring.Exec.RunLoop
