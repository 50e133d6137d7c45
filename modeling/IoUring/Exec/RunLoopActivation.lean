import IoUring.Exec.RunLoopServed

/-!
# The way of an activation

An activation of `run()` goes from its entry through the launch, the submission, the
peeks and one bucket of the stopping map to the end of a step, where it returns or
increments `_walltime_step` and begins with the next one.
-/

namespace IoUring.Exec.RunLoop

variable {O T : Type*} [DecidableEq T]
  {cfg : Config O T} {s s' : State O T} {t : T} {f f' : Frame T} {c : Caller T} {ch : Choice}
  {pc pc' : LoopPc O} {a : Label O T}

def ThreadPc.activation : ThreadPc O T → Option (Frame T × Caller T × LoopPc O)
  | .run f c pc => some (f, c, pc)
  | .callback f c pc => some (f, c, pc)
  | _ => none

/-- The stopping map has been visited in the present step. -/
def LoopPc.visited : LoopPc O → Bool
  | .cancelling _ _ => true
  | .tail => true
  | _ => false

/-- The queues that are still to be launched in the present step. -/
def LoopPc.pending (p : RunPolicy) : LoopPc O → List LaunchSource
  | .check => launchSources p
  | .launch sources => sources
  | .visit _ sources => sources
  | _ => []

/-- Where an activation is after a step of its thread. -/
inductive Moves (s s' : State O T) (t : T) (f : Frame T) (c : Caller T) : LoopPc O → Prop where
  | enters (hact : (s'.thread t).activation = some (f, c, .launch (launchSources f.policy))) :
      Moves s s' t f c .check
  | goes {pc pc' : LoopPc O} {f' : Frame T} (hact : (s'.thread t).activation = some (f', c, pc'))
      (hcheck : pc ≠ .check) (htail : pc ≠ .tail) (hloop : f'.loop = f.loop)
      (hpolicy : f'.policy = f.policy) (hstep : f'.step = f.step) (hcheck' : pc' ≠ .check)
      (hvisited : f.policy.blocking = false →
        (pc'.visited = true ↔ pc.visited = true ∨ pc = .stopping))
      (hpending : ∀ source ∈ pc.pending f.policy,
        source ∈ pc'.pending f.policy ∨ ∃ rest, pc = .launch (source :: rest)) :
      Moves s s' t f c pc
  | leaves {pc : LoopPc O} (hact : (s'.thread t).activation = none)
      (hpc : pc = .check ∨ pc = .tail) (hwalltime : s'.walltimeStep = s.walltimeStep) :
      Moves s s' t f c pc
  | again {f' : Frame T}
      (hact : (s'.thread t).activation = some (f', c, .launch (launchSources f.policy)))
      (hweakly : f.policy.weaklyParallel = false) (hloop : f'.loop = f.loop)
      (hpolicy : f'.policy = f.policy) (hstep : f'.step = f.step + 1)
      (hwalltime : s'.walltimeStep f.loop = s.walltimeStep f.loop + 1) : Moves s s' t f c .tail

/-- The visit of the stopping map is still ahead after the launch, the submission and
the peek. -/
theorem visited_plan (p : RunPolicy) (h : p.blocking = false) :
    (afterIodone p : LoopPc O).visited = false ∧ (afterSubmit p : LoopPc O).visited = false ∧
      (afterLaunch p : LoopPc O).visited = false := by
  have hiodone : (afterIodone p : LoopPc O).visited = false := by simp [afterIodone, h, LoopPc.visited]
  have hsubmit : (afterSubmit p : LoopPc O).visited = false := by
    simp only [afterSubmit]
    split
    · rfl
    · exact hiodone
  refine ⟨hiodone, hsubmit, ?_⟩
  simp only [afterLaunch]
  split
  · rfl
  · exact hsubmit

theorem returnRun_activation (s : State O T) (t : T) (f : Frame T) (info : RunProgressInfo)
    (c : Caller T) : ((returnRun s t f info c).thread t).activation = none := by
  cases c <;> simp [returnRun, State.setThread, ThreadPc.activation]

theorem returnRun_walltime (s : State O T) (t : T) (f : Frame T) (info : RunProgressInfo)
    (c : Caller T) : (returnRun s t f info c).walltimeStep = s.walltimeStep := by
  cases c with
  | stopRequest outer => exact (Calm.touchLoop s t outer.loop).flags.walltimeStep
  | execTransfer => exact (Calm.getLocal s t).flags.walltimeStep
  | _ => rfl

theorem resume_activation (s : State O T) (t : T) (f : Frame T) (c : Caller T) (pc : LoopPc O)
    (called : Bool) : ((s.resume t f c pc called).thread t).activation = some (f, c, pc) := by
  cases called <;> simp [State.resume, State.setThread, ThreadPc.activation]

theorem setThread_activation (s : State O T) (t : T) (n : ThreadPc O T) :
    ((s.setThread t n).thread t).activation = n.activation := by
  simp [State.setThread]

theorem plan_ne_check (p : RunPolicy) : (afterIodone p : LoopPc O) ≠ .check ∧
    (afterSubmit p : LoopPc O) ≠ .check ∧ (afterLaunch p : LoopPc O) ≠ .check := by
  refine ⟨?_, ?_, ?_⟩ <;> rintro h <;>
    simp only [afterIodone, afterSubmit, afterLaunch] at h <;> split_ifs at h

omit [DecidableEq T] in
/-- The launch is over and the visit of the stopping map is ahead. -/
theorem Moves.ahead {pc pc' : LoopPc O} (hact : (s'.thread t).activation = some (f', c, pc'))
    (hcheck : pc ≠ .check) (hpc : pc.visited = false) (hstopping : pc ≠ .stopping)
    (hloop : f'.loop = f.loop) (hpolicy : f'.policy = f.policy) (hstep : f'.step = f.step)
    (hcheck' : pc' ≠ .check) (hvisited : f.policy.blocking = false → pc'.visited = false)
    (hpending : pc.pending f.policy = []) : Moves s s' t f c pc := by
  refine .goes hact hcheck ?_ hloop hpolicy hstep hcheck' (fun hb => ?_) ?_
  · rintro rfl
    simp [LoopPc.visited] at hpc
  · simp [hvisited hb, hpc, hstopping]
  · simp [hpending]

variable [DecidableEq O]

theorem loopStep_moves (h : loopStep cfg s t f c ch pc = some s') : Moves s s' t f c pc := by
  have hplan := plan_ne_check (O := O) f.policy
  have hvisited := visited_plan (O := O) f.policy
  cases pc with
  | check =>
      obtain rfl := Option.some.inj h
      simp only [checkStep]
      split
      · exact .leaves (returnRun_activation _ t f _ c) (.inl rfl) ((returnRun_walltime _ t f _ c).trans
          (checkStep_note s t f.loop).1.flags.walltimeStep)
      · exact .enters (setThread_activation _ t _)
  | launch sources =>
      obtain rfl := Option.some.inj h
      cases sources with
      | nil =>
          exact .ahead (setThread_activation s t _) (by simp) rfl (by simp) rfl rfl
            rfl hplan.2.2 (fun hb => (hvisited hb).2.2) rfl
      | cons source sources =>
          have hgo : ∀ (s₁ : State O T) (tasks : List (Task O)),
              Moves s (s₁.setThread t (.run f c (.visit tasks sources))) t f c
                (.launch (source :: sources)) := by
            intro s₁ tasks
            refine .goes (setThread_activation s₁ t _) (by simp) (by simp) rfl rfl rfl (by simp)
              (by simp [LoopPc.visited]) ?_
            simp only [LoopPc.pending, List.mem_cons]
            rintro source' (rfl | hmem)
            · exact .inr ⟨sources, rfl⟩
            · exact .inl hmem
          cases source <;> exact hgo _ _
  | visit tasks sources =>
      cases tasks with
      | nil =>
          obtain rfl := Option.some.inj h
          exact .goes (setThread_activation s t _) (by simp) (by simp) rfl rfl rfl (by simp)
            (by simp [LoopPc.visited]) fun _ hmem => .inl hmem
      | cons k rest =>
          obtain rfl := Option.some.inj h
          have hgo : ∀ (s₁ : State O T) (f' : Frame T) (called : Bool), f'.loop = f.loop →
              f'.policy = f.policy → f'.step = f.step →
              Moves s (s₁.resume t f' c (.visit rest sources) called) t f c
                (.visit (k :: rest) sources) := fun s₁ f' called hloop hpolicy hstep =>
            .goes (resume_activation s₁ t f' c _ called) (by simp) (by simp) hloop hpolicy hstep
              (by simp) (by simp [LoopPc.visited]) fun _ hmem => .inl hmem
          simp only [visitStep]
          split
          · exact hgo _ _ _ rfl rfl rfl
          split
          · exact hgo _ _ _ rfl rfl rfl
          split <;> exact hgo _ _ _ rfl rfl rfl
  | submit =>
      obtain rfl := Option.some.inj h
      refine .ahead (setThread_activation _ t _) (by simp) rfl (by simp) rfl rfl rfl ?_ (fun hb => ?_) rfl
      · split
        · simp
        · exact hplan.2.1
      · split
        · rfl
        · exact (hvisited hb).2.1
  | wait =>
      simp only [loopStep] at h
      split at h
      · cases h
      · obtain rfl := Option.some.inj h
        exact .ahead (setThread_activation s t _) (by simp) rfl (by simp) rfl rfl rfl hplan.2.1
          (fun hb => (hvisited hb).2.1) rfl
  | peek =>
      obtain rfl := Option.some.inj h
      simp only [peekStep]
      split
      · exact .ahead (setThread_activation _ t _) (by simp) rfl (by simp)
          rfl rfl rfl hplan.1 (fun hb => (hvisited hb).1) rfl
      · exact .ahead (setThread_activation _ t _) (by simp) rfl (by simp)
          rfl rfl rfl (by simp) (fun _ => rfl) rfl
  | consume rest n =>
      cases rest with
      | nil =>
          obtain rfl := Option.some.inj h
          refine .ahead (setThread_activation _ t _) (by simp) rfl (by simp) rfl rfl rfl ?_ (fun hb => ?_) rfl
          · split
            · exact hplan.1
            · simp
          · split
            · exact (hvisited hb).1
            · rfl
      | cons e rest =>
          obtain rfl := Option.some.inj h
          have hgo : ∀ (s₁ : State O T) (called : Bool),
              Moves s (s₁.resume t f c (.consume rest n) called) t f c (.consume (e :: rest) n) :=
            fun s₁ called => .goes (resume_activation s₁ t f c _ called) (by simp) (by simp) rfl rfl
              rfl (by simp) (by simp [LoopPc.visited]) (by simp [LoopPc.pending])
          simp only [consumeStep]
          split
          · exact hgo _ false
          split <;> exact hgo _ _
  | stopping =>
      obtain rfl := Option.some.inj h
      exact .goes (setThread_activation _ t _) (by simp) (by simp) rfl rfl rfl (by simp)
        (by simp [LoopPc.visited]) (by simp [LoopPc.pending])
  | cancelling b ops =>
      obtain rfl := Option.some.inj h
      have hgo : ∀ (s₁ : State O T) (pc' : LoopPc O), pc' = .tail ∨ (∃ ops', pc' = .cancelling b ops') →
          Moves s (s₁.setThread t (.run f c pc')) t f c (.cancelling b ops) := by
        intro s₁ pc' hpc'
        refine .goes (setThread_activation s₁ t _) (by simp) (by simp) rfl rfl rfl ?_ ?_
          (by simp [LoopPc.pending])
        · rcases hpc' with rfl | ⟨ops', rfl⟩ <;> simp
        · rcases hpc' with rfl | ⟨ops', rfl⟩ <;> simp [LoopPc.visited]
      cases ops with
      | nil => exact hgo s _ (.inl rfl)
      | cons o ops =>
          simp only [cancelStep]
          split
          · exact hgo _ _ (.inr ⟨ops, rfl⟩)
          · exact hgo _ _ (.inl rfl)
  | tail =>
      obtain rfl := Option.some.inj h
      simp only [tailStep]
      split
      · exact .leaves (returnRun_activation s t _ _ c) (.inr rfl) (returnRun_walltime s t _ _ c)
      · next hweakly =>
        split
        · exact .leaves (returnRun_activation s t _ _ c) (.inr rfl) (returnRun_walltime s t _ _ c)
        split
        · exact .leaves (returnRun_activation s t _ _ c) (.inr rfl) (returnRun_walltime s t _ _ c)
        obtain ⟨s₁, hs₁, hsame⟩ : ∃ s₁, (if f.policy.detached = true then s else s.touch) = s₁ ∧
            s₁.walltimeStep = s.walltimeStep := ⟨_, rfl, by split <;> rfl⟩
        rw [hs₁]
        split
        · exact .leaves (setThread_activation s₁ t _) (.inr rfl) hsame
        split
        · exact .leaves (returnRun_activation s₁ t _ _ c) (.inr rfl)
            ((returnRun_walltime s₁ t _ _ c).trans hsame)
        · refine .again (setThread_activation _ t _) (by simpa using hweakly) rfl rfl rfl ?_
          have htouch := (Calm.touchLoop s₁ t f.loop).flags.walltimeStep
          simp [State.setThread, State.nextStep, htouch, hsame]

/-- What a step of thread `t` means for its activation. -/
inductive Acts (cfg : Config O T) (s s' : State O T) (t : T) : Label O T → Prop where
  | run {ch : Choice} {f : Frame T} {c : Caller T} {pc : LoopPc O} (hpc : s.thread t = .run f c pc)
      (hstep : loopStep cfg s t f c ch pc = some s') (hmoves : Moves s s' t f c pc) :
      Acts cfg s s' t (.thread t ch)
  | same {a : Label O T} (hidle : ∀ ch, a = .thread t ch → ∀ f c pc, s.thread t ≠ .run f c pc)
      (hact : (s'.thread t).activation = (s.thread t).activation) : Acts cfg s s' t a
  | call {loop : Loop T} {policy : RunPolicy} {ch : Choice}
      (hact : (s'.thread t).activation = some ({ loop := loop, policy := policy }, .user, .check))
      (hidle : (s.thread t).activation = none) : Acts cfg s s' t (.user t (.call loop policy) ch)
  | drain {ch : Choice} {f : Frame T} {c : Caller T} (hpc : s.thread t = .drain f c)
      (hact : (s'.thread t).activation = some (f, c, .check)) : Acts cfg s s' t (.thread t ch)

/-- The thread goes on elsewhere with the same activation. -/
theorem Acts.goto {s₁ : State O T} {n : ThreadPc O T} (hs' : s' = s₁.setThread t n)
    (hn : n.activation = (s.thread t).activation)
    (hidle : ∀ ch, a = .thread t ch → ∀ f c pc, s.thread t ≠ .run f c pc) :
    Acts cfg s s' t a := by
  refine .same hidle ?_
  rw [hs', setThread_activation, hn]

theorem step_acts (h : (machine cfg).step s a = some s') (ha : a.actor = some t) :
    Acts cfg s s' t a := by
  have hstep := Step.of_step h
  cases hstep with
  | @command t₁ f c ch _ hpc _ =>
      obtain rfl : t₁ = t := by simpa [Label.actor] using ha
      exact .goto rfl (by rw [hpc]; rfl) (by simp [hpc])
  | @drain t₁ f c ch hpc =>
      obtain rfl : t₁ = t := by simpa [Label.actor] using ha
      exact .drain hpc (setThread_activation _ t₁ _)
  | @check t₁ f c ch _ hpc _ =>
      obtain rfl : t₁ = t := by simpa [Label.actor] using ha
      have hloop : loopStep cfg s t₁ f c ch .check = some s' := by
        simpa [machine, step, threadStep, hpc] using h
      exact .run hpc hloop (loopStep_moves hloop)
  | @tail t₁ f c ch _ hpc _ =>
      obtain rfl : t₁ = t := by simpa [Label.actor] using ha
      have hloop : loopStep cfg s t₁ f c ch .tail = some s' := by
        simpa [machine, step, threadStep, hpc] using h
      exact .run hpc hloop (loopStep_moves hloop)
  | @inside t₁ f c ch pc _ hpc _ _ hs' _ =>
      obtain rfl : t₁ = t := by simpa [Label.actor] using ha
      exact .run hpc hs' (loopStep_moves hs')
  | @waitLocals t₁ ch hpc _ =>
      obtain rfl : t₁ = t := by simpa [Label.actor] using ha
      exact .goto rfl (by rw [hpc]; rfl) (by simp [hpc])
  | @detach t₁ ch hpc =>
      obtain rfl : t₁ = t := by simpa [Label.actor] using ha
      exact .goto rfl (by rw [hpc]; rfl) (by simp [hpc])
  | @start t₁ o ch _ =>
      obtain rfl : t₁ = t := by simpa [Label.actor] using ha
      exact .same (by simp) (by rw [(Keeps.startOp cfg s t₁ o ch).thread])
  | @schedule t₁ _ _ => exact .same (by simp) rfl
  | @scheduleOn t₁ t' _ _ _ => exact .same (by simp) rfl
  | @ret t₁ f c pc ch hpc =>
      obtain rfl : t₁ = t := by simpa [Label.actor] using ha
      exact .goto rfl (by rw [hpc]; rfl) (by simp)
  | @call t₁ loop policy ch hpc =>
      obtain rfl : t₁ = t := by simpa [Label.actor] using ha
      exact .call (setThread_activation _ t₁ _) (by rw [hpc]; rfl)
  | @exitLocal t₁ ch hpc _ =>
      obtain rfl : t₁ = t := by simpa [Label.actor] using ha
      exact .goto rfl (by rw [hpc]; rfl) (by simp)
  | @exit t₁ ch hpc _ =>
      obtain rfl : t₁ = t := by simpa [Label.actor] using ha
      exact .goto rfl (by rw [hpc]; rfl) (by simp)
  | @destroy t₁ ch hpc _ _ =>
      obtain rfl : t₁ = t := by simpa [Label.actor] using ha
      exact .goto rfl (by rw [hpc]; rfl) (by simp)
  | _ => simp [Label.actor] at ha

/-- `_walltime_step` moves at the end of a step that goes on. -/
theorem step_walltime (h : Step cfg s a s') (loop : Loop T) :
    s'.walltimeStep loop = s.walltimeStep loop ∨
      ∃ t ch f c, a = .thread t ch ∧ s.thread t = .run f c .tail ∧ f.loop = loop ∧
        f.policy.weaklyParallel = false ∧ s'.walltimeStep loop = s.walltimeStep loop + 1 := by
  have hsame : ∀ {s₁ : State O T}, s₁.walltimeStep = s.walltimeStep → s'.walltimeStep =
      s₁.walltimeStep → s'.walltimeStep loop = s.walltimeStep loop := fun h₁ h₂ => by rw [h₂, h₁]
  cases h with
  | check _ henters =>
      cases henters with
      | stopped _ hcalm _ _ heq =>
          exact .inl (hsame hcalm.flags.walltimeStep (by rw [heq]; exact returnRun_walltime _ _ _ _ _))
      | entered _ hcalm _ _ _ heq =>
          exact .inl (hsame hcalm.flags.walltimeStep (by rw [heq]; rfl))
  | @tail t f c ch _ hpc hends =>
      cases hends with
      | back info hcalm _ _ heq _ _ =>
          exact .inl (hsame hcalm.flags.walltimeStep (by rw [heq]; exact returnRun_walltime _ _ _ _ _))
      | stop _ hcalm _ heq _ =>
          exact .inl (hsame hcalm.flags.walltimeStep (by rw [heq]; rfl))
      | again hweakly hcalm heq _ _ =>
          by_cases hloop : f.loop = loop
          · refine .inr ⟨t, ch, f, c, rfl, hpc, hloop, hweakly, ?_⟩
            subst hloop
            simp [heq, State.setThread, State.nextStep, hcalm.flags.walltimeStep]
          · left
            simp [heq, State.setThread, State.nextStep, hcalm.flags.walltimeStep, Ne.symm hloop]
  | inside _ _ _ _ hgo => exact .inl (by rw [hgo.flags.walltimeStep])
  | @detach t _ _ =>
      left
      simp only [detachStep]
      split <;> rfl
  | @start t o ch _ => exact .inl (by rw [(Keeps.startOp cfg s t o ch).flags.walltimeStep])
  | @destroy t _ _ _ _ => exact .inl (congrFun (Calm.getLocal s t).flags.walltimeStep loop)
  | _ => exact .inl rfl

/-- An activation of the user on the executor. -/
def OnExec (n : ThreadPc O T) (f : Frame T) (pc : LoopPc O) : Prop :=
  n.activation = some (f, .user, pc) ∧ f.loop = .exec

omit [DecidableEq O] [DecidableEq T] in
/-- An activation on the executor stays there and does not come from elsewhere. -/
theorem Moves.onExec (h : Moves s s' t f c pc) (hon : OnExec (s'.thread t) f' pc') :
    c = .user ∧ f.loop = .exec := by
  obtain ⟨hact', hexec⟩ := hon
  cases h with
  | enters hact =>
      obtain ⟨rfl, rfl, -⟩ : f = f' ∧ c = .user ∧ _ = pc' := by simpa [hact] using hact'
      exact ⟨rfl, hexec⟩
  | goes hact _ _ hloop _ _ _ _ _ =>
      obtain ⟨rfl, rfl, -⟩ : _ = f' ∧ c = .user ∧ _ = pc' := by simpa [hact] using hact'
      exact ⟨rfl, hloop ▸ hexec⟩
  | leaves hact _ _ => simp [hact] at hact'
  | again hact _ hloop _ _ _ =>
      obtain ⟨rfl, rfl, -⟩ : _ = f' ∧ c = .user ∧ _ = pc' := by simpa [hact] using hact'
      exact ⟨rfl, hloop ▸ hexec⟩

/-- The end of a step that moves `_walltime_step`, seen from its thread. -/
theorem step_walltime_actor (h : Step cfg s a s') (hinv : LoopInv s) (ha : a.actor = some t) :
    s'.walltimeStep .exec = s.walltimeStep .exec ∨
      ∃ ch f, a = .thread t ch ∧ s.thread t = .run f .user .tail ∧ f.loop = .exec := by
  refine (step_walltime h .exec).imp id ?_
  rintro ⟨t₁, ch, f, c, rfl, hpc, hexec, hweakly, -⟩
  obtain rfl : t₁ = t := by simpa [Label.actor] using ha
  refine ⟨ch, f, rfl, ?_, hexec⟩
  -- a destructor makes one step
  suffices huser : c = .user by rw [hpc, huser]
  by_contra hc
  have ht := hinv.threads t₁
  rw [hpc] at ht
  rcases ht.1.policy hc with hp | hp <;> rw [hp] at hweakly <;> exact absurd hweakly (by decide)

end IoUring.Exec.RunLoop
