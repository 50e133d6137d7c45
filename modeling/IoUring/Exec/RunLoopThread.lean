import IoUring.Exec.RunLoopKeeps

/-!
# One thread at a time

A step of a thread changes the local, the log and the program counter of that
thread only; the one exception is a task that is attached to another local.
-/

namespace IoUring.Exec.RunLoop

variable {O T : Type*} [DecidableEq T]
  {cfg : Config O T} {s s' s'' : State O T} {t : T} {o : O} {f : Frame T} {c : Caller T}
  {ch : Choice} {pc : LoopPc O} {sources : List LaunchSource}

/-! ## The points inside a loop step -/

/-- What the way from one point of a loop to another means for the queues. -/
inductive QueueMove (s s' : State O T) (t : T) (f : Frame T) : LoopPc O → LoopPc O → Prop where
  | attached {sources : List LaunchSource} : SameQueues (s.drainAttached t) s' →
      QueueMove s s' t f (.launch (.attached :: sources))
        (.visit (launchOrder f.policy (s.locals t).attached) sources)
  | bucket {source : LaunchSource} {sources : List LaunchSource} (b : Bucket) :
      source ≠ .attached → (source = .robin → b = robinAccess (s.walltimeStep f.loop)) →
      SameQueues (s.drainBucket t b) s' → QueueMove s s' t f (.launch (source :: sources))
        (.visit (launchOrder f.policy (s.exec.immediate b)) sources)
  | visit {k : Task O} {rest : List (Task O)} {sources : List LaunchSource} :
      Pushes t (s.finishTask k) s' →
      QueueMove s s' t f (.visit (k :: rest) sources) (.visit rest sources)
  | next {sources : List LaunchSource} : SameQueues s s' →
      QueueMove s s' t f (.visit [] sources) (.launch sources)
  | later {pc pc' : LoopPc O} : pc = .launch [] ∨ pc.launched = true → pc'.launched = true →
      Pushes t s s' → QueueMove s s' t f pc pc'

theorem QueueMove.ne_check {pc' : LoopPc O} (h : QueueMove s s' t f pc pc') : pc' ≠ .check := by
  cases h with
  | later _ hpc' _ =>
      rintro rfl
      simp [LoopPc.launched] at hpc'
  | _ => simp

/-- The queues do not see the program counter. -/
theorem QueueMove.setThread {pc' : LoopPc O} (h : QueueMove s s' t f pc pc') (n : ThreadPc O T) :
    QueueMove s (s'.setThread t n) t f pc pc' := by
  have hsame : SameQueues s' (s'.setThread t n) := { SameQueues.refl s' with }
  cases h with
  | attached h => exact .attached (h.trans hsame)
  | bucket b hsource hb h => exact .bucket b hsource hb (h.trans hsame)
  | visit h => exact .visit (h.trans (.same hsame))
  | next h => exact .next (h.trans hsame)
  | later hpc hpc' h => exact .later hpc hpc' (h.trans (.same hsame))

omit [DecidableEq T] in
theorem FrameOk.congr {f' : Frame T} (h : FrameOk t f c) (hl : f'.loop = f.loop)
    (hp : f'.policy = f.policy) : FrameOk t f' c := by
  cases c <;> simp_all [FrameOk]

section Loop

variable [DecidableEq O]

/-- The activation `f` has gone from `pc` to `pc'`, where it is `f'`: the same
object and policy, perhaps in a callback. -/
structure Arrives (s s' : State O T) (t : T) (f : Frame T) (c : Caller T) (pc : LoopPc O)
    (f' : Frame T) (pc' : LoopPc O) : Prop where
  loop : f'.loop = f.loop
  policy : f'.policy = f.policy
  thread : s'.thread t = .run f' c pc' ∨ s'.thread t = .callback f' c pc'
  queues : QueueMove s s' t f pc pc'
  pass : PassOk f.policy (s.locals t) (s.pass t) pc → PassOk f.policy (s'.locals t) (s'.pass t) pc'

structure Continues (s s' : State O T) (t : T) (f : Frame T) (c : Caller T) (pc : LoopPc O) :
    Prop where
  elsewhere : Elsewhere s s' t
  flags : SameFlags s s'
  goes : ∃ f' pc', Arrives s s' t f c pc f' pc'

/-- The loop is resumed after a change of the acting thread. -/
theorem continues_resume {f' : Frame T} {pc' : LoopPc O} (called : Bool)
    (helse : Elsewhere s s' t) (hflags : SameFlags s s') (hl : f'.loop = f.loop)
    (hp : f'.policy = f.policy) (hqueues : QueueMove s s' t f pc pc')
    (hpass : PassOk f.policy (s.locals t) (s.pass t) pc →
      PassOk f.policy (s'.locals t) (s'.pass t) pc') :
    Continues s (s'.resume t f' c pc' called) t f c pc where
  elsewhere := helse.trans (elsewhere_setThread _ t _)
  flags := { hflags with }
  goes := by
    refine ⟨f', pc', hl, hp, ?_, hqueues.setThread _, hpass⟩
    cases called <;> simp [State.resume, State.setThread]

/-- Something happened in passing. -/
theorem Keeps.resume (h : Keeps s s' t) {pc' : LoopPc O} (called : Bool)
    (hpc : pc.launched = true) (hpc' : pc'.launched = true)
    (hpass : PassOk f.policy (s'.locals t) (s'.pass t) pc →
      PassOk f.policy (s'.locals t) (s'.pass t) pc') :
    Continues s (s'.resume t f c pc' called) t f c pc :=
  continues_resume called h.elsewhere h.flags rfl rfl (.later (.inr hpc) hpc' h.queues) fun hp =>
    hpass (h.pass _ _ (by rintro rfl; simp [LoopPc.launched] at hpc) hp)

/-- The policies of the final passes submit, reap until the CQ ring is empty and
look at the stopping map. -/
theorem PassOk.plan {p : RunPolicy} {l : IoUringExecLocal O} {log : PassLog O}
    (h : PassOk p l log pc) : afterLaunch p = (.submit : LoopPc O) ∧
      afterSubmit p = (.peek : LoopPc O) ∧ afterIodone p = (.stopping : LoopPc O) ∧
      p.waitable = false ∧ p.weaklyParallel = true ∧ p.iodoneBatch = 64 ∧
      ∀ done some, greedy p done some = false := by
  rcases h.policy with rfl | rfl <;> exact ⟨rfl, rfl, rfl, rfl, rfl, rfl, fun _ _ => rfl⟩

omit [DecidableEq O] in
/-- The plans of all policies lead past the launch. -/
theorem launched_plan (p : RunPolicy) : (afterIodone p : LoopPc O).launched = true ∧
    (afterSubmit p : LoopPc O).launched = true ∧ (afterLaunch p : LoopPc O).launched = true := by
  have hiodone : (afterIodone p : LoopPc O).launched = true := by
    simp only [afterIodone]
    split <;> rfl
  have hsubmit : (afterSubmit p : LoopPc O).launched = true := by
    simp only [afterSubmit]
    split
    · rfl
    · exact hiodone
  refine ⟨hiodone, hsubmit, ?_⟩
  simp only [afterLaunch]
  split
  · rfl
  · exact hsubmit

omit [DecidableEq O] in
theorem mem_launchOrder {p : RunPolicy} {tasks : List (Task O)} {k : Task O} :
    k ∈ launchOrder p tasks ↔ k ∈ tasks := by
  simp only [launchOrder]
  split <;> simp

theorem launchBucket_continues (b : Bucket) {source : LaunchSource} (hsource : source ≠ .attached)
    (hrobin : source = .robin → b = robinAccess (s.walltimeStep f.loop)) :
    Continues s (launchBucket s t f c b sources) t f c (.launch (source :: sources)) := by
  have hun : (LoopPc.launch (source :: sources) : LoopPc O).unlaunched = false := by
    cases source <;> simp_all [LoopPc.unlaunched]
  have helse : Elsewhere s (s.drainBucket t b) t := fun t' ht =>
    ⟨rfl, by simp [State.drainBucket, State.visiting, State.setPass, State.touch, ht], rfl⟩
  refine continues_resume false helse { sameFlags_touch s with } rfl rfl
    (.bucket b hsource hrobin (.refl _)) fun h => ?_
  have hgo : PassOk f.policy (s.locals t) (s.pass t)
      (.visit (launchOrder f.policy (s.exec.immediate b)) sources) :=
    h.goto (by simp) (by simp) rfl (by simp) (by simp [LoopPc.reaped]) fun hp k hk _ =>
      .inl (h.all_cancelled rfl hun hp k hk)
  simpa [State.drainBucket, State.visiting, State.setPass, State.touch] using { hgo with }

theorem launchStep_continues (draw : Bucket) :
    Continues s (launchStep s t f c draw sources) t f c (.launch sources) := by
  cases sources with
  | nil =>
      refine continues_resume false (.refl s t) (.refl s) rfl rfl
        (.later (.inl rfl) (launched_plan f.policy).2.2 (.same (.refl s))) fun h => ?_
      rw [h.plan.1]
      exact h.goto (by simp) (by simp) rfl (by simp) (by simp [LoopPc.reaped]) fun hp k hk _ =>
        .inl (h.all_cancelled rfl rfl hp k hk)
  | cons source sources =>
      cases source with
      | attached =>
          refine continues_resume false (elsewhere_setLocal s t _) { SameFlags.refl s with } rfl rfl
            (.attached (.refl _)) fun h => ?_
          simpa [State.drainAttached, State.visiting, State.setLocal] using
            h.launchAttached fun _ => mem_launchOrder
      | robin => exact launchBucket_continues _ (by simp) (fun _ => rfl)
      | random => exact launchBucket_continues _ (by simp) (by simp)

/-- A task is called and the callback, if there is one, comes next. -/
theorem visitStep_continues (k : Task O) (rest : List (Task O)) :
    Continues s (visitStep cfg s t f c k rest sources ch) t f c (.visit (k :: rest) sources) := by
  have hfinish : Elsewhere s (s.finishTask k) t ∧ SameFlags s (s.finishTask k) :=
    ⟨fun _ _ => ⟨rfl, rfl, rfl⟩, { SameFlags.refl s with }⟩
  simp only [visitStep]
  split
  · refine continues_resume _ (hfinish.1.trans (elsewhere_setPass _ t _)) { SameFlags.refl s with } rfl rfl
      (.visit (.same (sameQueues_setPass rfl rfl rfl))) fun h => ?_
    simpa [State.setPass, State.finishTask] using h.cancelled
  · next hterminal =>
      -- Under a terminal policy every task of the chain is cancelled.
      have hresume : ∀ s' called, Keeps (s.finishTask k) s' t → ∀ f' : Frame T,
          f'.loop = f.loop → f'.policy = f.policy →
          Continues s (s'.resume t f' c (.visit rest sources) called) t f c
            (.visit (k :: rest) sources) := fun s' called hk f' hl hp =>
        continues_resume called (hfinish.1.trans hk.elsewhere) (hfinish.2.trans hk.flags) hl hp
          (.visit hk.queues) fun h => (hk.pass _ _ (by simp) h).goto (by simp) (by simp) rfl
            (by simp) (by simp [LoopPc.reaped]) fun hp =>
              absurd (congrArg RunPolicy.terminal hp) (by simpa [terminalPolicy] using hterminal)
      split
      · exact hresume _ _ (.refl _ t) _ rfl rfl
      · next o _ =>
        split
        · exact hresume _ _ (.touch _ t) _ rfl rfl
        · exact hresume _ _ ((Keeps.touch _ t).trans (.startOp cfg _ t o ch)) _ rfl rfl

/-- The loop goes on after a change of the acting thread outside of the queues. -/
theorem continues_later {f' : Frame T} {pc' : LoopPc O} (helse : Elsewhere s s' t)
    (hflags : SameFlags s s') (hqueues : SameQueues s s') (hl : f'.loop = f.loop)
    (hp : f'.policy = f.policy) (hpc : pc.launched = true) (hpc' : pc'.launched = true)
    (hpass : PassOk f.policy (s.locals t) (s.pass t) pc →
      PassOk f.policy (s'.locals t) (s'.pass t) pc') :
    Continues s (s'.setThread t (.run f' c pc')) t f c pc :=
  continues_resume false helse hflags hl hp (.later (.inr hpc) hpc' (.same hqueues)) hpass

theorem submitStep_continues : Continues s (submitStep s t f c) t f c .submit := by
  refine continues_later (elsewhere_setLocal s t _) { SameFlags.refl s with } (sameQueues_setLocal rfl)
    rfl rfl rfl ?_ fun h => ?_
  · split
    · rfl
    · exact (launched_plan _).2.1
  · simpa [State.setLocal] using h.submit (by simp [h.plan.2.1, h.plan.2.2.2.1])

theorem wait_continues :
    Continues s (s.setThread t (.run f c (afterSubmit f.policy))) t f c .wait := by
  apply continues_later (.refl s t) (.refl s) (.refl s) rfl rfl rfl (launched_plan _).2.1
  intro h
  rw [h.plan.2.1]
  exact h.goto (by simp) (by simp) rfl (by simp) (by simp [LoopPc.reaped]) fun hp k hk _ =>
    .inl (h.all_cancelled rfl rfl hp k hk)

theorem peekStep_continues : Continues s (peekStep s t f c) t f c .peek := by
  simp only [peekStep]
  split
  · next htake =>
      refine continues_later (elsewhere_setPass s t _) { SameFlags.refl s with }
        (sameQueues_setPass rfl rfl rfl) rfl rfl rfl (launched_plan _).1 fun h => ?_
      have hcq : (s.locals t).ring.cq = [] := by simpa [h.plan.2.2.2.2.2.1] using htake
      simpa [State.setPass] using h.peekEmpty hcq h.plan.2.2.1
  · next cqes _ =>
      apply continues_later (.refl s t) (.refl s) (.refl s) rfl rfl rfl rfl
      intro h
      refine h.goto (by simp) (by simp) ?_ ?_ (by simp [LoopPc.reaped]) fun hp k hk _ =>
        .inl (h.all_cancelled rfl rfl hp k hk)
      · simp only [pending, List.length_take]
        rcases Nat.le_total f.policy.iodoneBatch (s.locals t).ring.cq.length with hle | hle
        · rw [Nat.min_eq_left hle, List.take_append_drop]
        · rw [Nat.min_eq_right hle, List.take_of_length_le hle, List.drop_length, List.append_nil]
      · intro rest n hpc
        obtain ⟨-, rfl⟩ : _ ∧ _ = n := by simpa only [LoopPc.consume.injEq] using hpc
        exact List.length_take_le' _ _

/-- `consume_one`. -/
theorem consumeStep_continues (e : Cqe O) (rest : List (Cqe O)) (n : Nat) :
    Continues s (consumeStep cfg s t f c e rest n ch) t f c (.consume (e :: rest) n) := by
  -- The CQE counts as dealt with before its operation is called.
  have hresume : ∀ s' called, Keeps (s.setPass t
      { s.pass t with delivered := (s.pass t).delivered ++ [e] }) s' t →
      Continues s (s'.resume t f c (.consume rest n) called) t f c (.consume (e :: rest) n) := by
    intro s' called hk
    have hlog : SameQueues s (s.setPass t { s.pass t with delivered := (s.pass t).delivered ++ [e] }) :=
      sameQueues_setPass rfl rfl rfl
    refine continues_resume called ((elsewhere_setPass s t _).trans hk.elsewhere) { hk.flags with } rfl rfl
      (.later (.inr rfl) rfl (Pushes.trans (.same hlog) hk.queues)) fun h => hk.pass _ _ (by simp) ?_
    simpa [State.setPass] using h.consumed
  simp only [consumeStep]
  split
  · exact hresume _ false (.refl _ t)
  · next o _ =>
      have hun := Keeps.setStopping (s.setPass t
        { s.pass t with delivered := (s.pass t).delivered ++ [e] }) t (cfg.bucket o)
      split
      · exact hresume _ _ ((hun _).trans (.asyncRestart _ t o ch.throws))
      · exact hresume _ _ (hun _)

theorem advanceStep_continues (n : Nat) :
    Continues s (advanceStep s t f c n) t f c (.consume [] n) := by
  refine continues_later (elsewhere_setLocal s t _) { SameFlags.refl s with } (sameQueues_setLocal rfl)
    rfl rfl rfl ?_ fun h => ?_
  · split
    · exact (launched_plan _).1
    · rfl
  · simpa [State.setLocal] using h.advance (by simp [h.plan.2.2.2.2.2.2])

theorem stoppingStep_continues : Continues s (stoppingStep s t f c) t f c .stopping := by
  refine (Keeps.setStopping s t (robinAccess (s.walltimeStep f.loop)) []).resume false rfl rfl
    fun h => ?_
  exact h.goto (by simp) (by simp) rfl (by simp) (fun _ => h.reaped rfl) fun hp k hk _ =>
    .inl (h.all_cancelled rfl rfl hp k hk)

theorem cancelStep_continues (b : Bucket) (ops : List O) :
    Continues s (cancelStep cfg s t f c b ops) t f c (.cancelling b ops) := by
  -- Whatever the step does in passing, the pass is at the same point afterwards.
  have hgo : ∀ s' pc', Keeps s s' t → pc' = .tail ∨ (∃ ops', pc' = .cancelling b ops') →
      Continues s (s'.setThread t (.run f c pc')) t f c (.cancelling b ops) := by
    intro s' pc' hk hpc'
    refine hk.resume false rfl ?_ fun h => ?_
    · rcases hpc' with rfl | ⟨ops', rfl⟩ <;> rfl
    · rcases hpc' with rfl | ⟨ops', rfl⟩ <;>
        exact h.goto (by simp) (by simp) rfl (by simp) (fun _ => h.reaped rfl) fun hp k hk _ =>
          .inl (h.all_cancelled rfl rfl hp k hk)
  cases ops with
  | nil => exact hgo s _ (.refl s t) (.inl rfl)
  | cons o ops =>
      simp only [cancelStep]
      split
      · next r hr => exact hgo _ _ (.takeSqe hr rfl) (.inr ⟨ops, rfl⟩)
      · exact hgo _ _ (.setStopping s t b _) (.inl rfl)

/-- Between its entry and the end of its step, an activation continues. -/
theorem loopStep_continues (h : loopStep cfg s t f c ch pc = some s') (hcheck : pc ≠ .check)
    (htail : pc ≠ .tail) : Continues s s' t f c pc := by
  cases pc with
  | check => exact absurd rfl hcheck
  | tail => exact absurd rfl htail
  | launch sources => obtain rfl := Option.some.inj h; exact launchStep_continues ch.bucket
  | visit tasks sources =>
      cases tasks with
      | nil =>
          obtain rfl := Option.some.inj h
          apply continues_resume false (.refl s t) (.refl s) rfl rfl (.next (.refl s))
          intro h
          exact h.goto (by simp) (by simp) rfl (by simp) (by simp [LoopPc.reaped]) fun hp k hk _ =>
            .inl (h.all_cancelled rfl rfl hp k hk)
      | cons k rest => obtain rfl := Option.some.inj h; exact visitStep_continues k rest
  | submit => obtain rfl := Option.some.inj h; exact submitStep_continues
  | wait =>
      simp only [loopStep] at h
      split at h
      · cases h
      · obtain rfl := Option.some.inj h; exact wait_continues
  | peek => obtain rfl := Option.some.inj h; exact peekStep_continues
  | consume rest n =>
      cases rest with
      | nil => obtain rfl := Option.some.inj h; exact advanceStep_continues n
      | cons e rest => obtain rfl := Option.some.inj h; exact consumeStep_continues e rest n
  | stopping => obtain rfl := Option.some.inj h; exact stoppingStep_continues
  | cancelling b ops => obtain rfl := Option.some.inj h; exact cancelStep_continues b ops

end Loop

/-! ## Entry and return -/

theorem returnRun_elsewhere (s : State O T) (t : T) (f : Frame T) (info : RunProgressInfo)
    (c : Caller T) : Elsewhere s (returnRun s t f info c) t ∧
      SameQueues s (returnRun s t f info c) := by
  cases c with
  | stopRequest outer =>
      have h := Calm.touchLoop s t outer.loop
      exact ⟨h.elsewhere.trans (elsewhere_setThread _ t _), { h.queues with }⟩
  | execTransfer =>
      have h := Calm.getLocal s t
      exact ⟨h.elsewhere.trans (elsewhere_setThread _ t _), { h.queues with }⟩
  | _ => exact ⟨elsewhere_setThread _ t _, { SameQueues.refl s with }⟩

/-- What `run()` does at its entry: it returns at once, or it begins to launch. -/
inductive Enters (s s' : State O T) (t : T) (f : Frame T) (c : Caller T) : Prop where
  | stopped {s₁ : State O T} : s.mustStop f.loop = true → Calm s s₁ t → s₁.locals = s.locals →
      s₁.pass t = { s.pass t with first := s.exits.all fun e => e.loop ≠ f.loop } →
      s' = returnRun s₁ t f (f.info.final 0) c → Enters s s' t f c
  | entered {s₁ : State O T} : s.mustStop f.loop = false → Calm s s₁ t →
      (s₁.locals t).ring = (s.locals t).ring → (s₁.locals t).attached = (s.locals t).attached →
      s₁.pass t = { s.pass t with
        first := s.exits.all fun e => e.loop ≠ f.loop
        entered := true } →
      s' = s₁.setThread t (.run f c (.launch (launchSources f.policy))) → Enters s s' t f c

theorem checkStep_note (s : State O T) (t : T) (loop : Loop T) :
    Calm s ((s.touchLoop loop).noteFirst t loop) t ∧
      ((s.touchLoop loop).noteFirst t loop).locals = s.locals ∧
      ((s.touchLoop loop).noteFirst t loop).pass t =
        { s.pass t with first := s.exits.all fun e => e.loop ≠ loop } := by
  refine ⟨(Calm.touchLoop s t loop).trans (.setPass rfl rfl rfl), ?_, ?_⟩ <;>
    cases loop <;> simp [State.touchLoop, State.touch, State.noteFirst, State.setPass]

theorem enter_calm (s : State O T) (t : T) (loop : Loop T) :
    Calm s (s.enter t loop) t ∧ ((s.enter t loop).locals t).ring = (s.locals t).ring ∧
      ((s.enter t loop).locals t).attached = (s.locals t).attached ∧
      (s.enter t loop).pass t = { s.pass t with entered := true } := by
  cases loop with
  | exec =>
      obtain ⟨hring, hattached, hpass⟩ := getLocal_locals s t t
      exact ⟨(Calm.getLocal s t).trans (.setPass rfl rfl rfl), hring, hattached,
        by simp [State.enter, State.setPass, hpass]⟩
  | own t' => exact ⟨.setPass rfl rfl rfl, rfl, rfl, by simp [State.enter, State.setPass]⟩

theorem checkStep_enters (s : State O T) (t : T) (f : Frame T) (c : Caller T) :
    Enters s (checkStep s t f c) t f c := by
  obtain ⟨hnote, hlocals, hlog⟩ := checkStep_note s t f.loop
  simp only [checkStep]
  split
  · next hstop => exact .stopped (by rwa [hnote.flags.mustStop] at hstop) hnote hlocals hlog rfl
  · next hstop =>
      obtain ⟨henter, hring, hattached, hlog'⟩ :=
        enter_calm ((s.touchLoop f.loop).noteFirst t f.loop) t f.loop
      rw [hlocals] at hring hattached
      rw [hlog] at hlog'
      refine .entered ?_ (hnote.trans henter) hring hattached hlog' rfl
      rw [hnote.flags.mustStop] at hstop
      simpa using hstop

/-- What `run()` does after the parts of a step: it returns, it makes its
terminal pass, or it goes on with the next step. -/
inductive Ends (s s' : State O T) (t : T) (f : Frame T) (c : Caller T) : Prop where
  | back {s₁ : State O T} {f' : Frame T} (info : RunProgressInfo) : Calm s s₁ t →
      s₁.locals = s.locals → s₁.pass = s.pass → s' = returnRun s₁ t f' info c →
      f'.loop = f.loop → f'.policy = f.policy → Ends s s' t f c
  | stop {s₁ : State O T} {f' : Frame T} : f.policy.weaklyParallel = false → Calm s s₁ t →
      s₁.exec.stopRequested = true →
      s' = s₁.setThread t (.command { loop := f.loop, policy := terminalPolicy } (.stopRequest f')) →
      f'.loop = f.loop → Ends s s' t f c
  | again {s₁ : State O T} {f' : Frame T} : f.policy.weaklyParallel = false → Calm s s₁ t →
      s' = (s₁.nextStep f.loop).setThread t (.run f' c (.launch (launchSources f.policy))) →
      f'.loop = f.loop → f'.policy = f.policy → Ends s s' t f c

theorem tailStep_ends (s : State O T) (t : T) (f : Frame T) (c : Caller T) (external : Bool) :
    Ends s (tailStep s t f c external) t f c := by
  simp only [tailStep]
  split
  · exact .back _ (.refl s t) rfl rfl rfl rfl rfl
  · next hweakly =>
    have hweakly : f.policy.weaklyParallel = false := by simpa using hweakly
    split
    · exact .back _ (.refl s t) rfl rfl rfl rfl rfl
    split
    · exact .back _ (.refl s t) rfl rfl rfl rfl rfl
    -- The stop request is looked at under a policy that is not detached.
    have hseen : ∃ s₁, (if f.policy.detached = true then s else s.touch) = s₁ ∧ Calm s s₁ t ∧
        s₁.locals = s.locals ∧ s₁.pass = s.pass := by
      split
      · exact ⟨s, rfl, .refl s t, rfl, rfl⟩
      · exact ⟨s.touch, rfl, .touch s t, rfl, rfl⟩
    obtain ⟨s₁, hs₁, hcalm, hlocals, hpass⟩ := hseen
    rw [hs₁]
    split
    · next hstop => exact .stop hweakly hcalm hstop.2 rfl rfl
    split
    · exact .back _ hcalm hlocals hpass rfl rfl rfl
    · exact .again hweakly (hcalm.trans (.touchLoop s₁ t f.loop)) rfl rfl rfl

end IoUring.Exec.RunLoop
