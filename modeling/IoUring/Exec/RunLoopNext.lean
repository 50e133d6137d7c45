import IoUring.Exec.RunLoopActivation
import IoUring.Exec.RunLoopEffects

/-!
# The counters of a step

Which counters of its frame an activation changes on the way from one point of the
loop to the next. The CQ ring of a thread grows when the kernel posts a CQE and
shrinks at the end of a batch.
-/

namespace IoUring.Exec.RunLoop

variable {O T : Type*} [DecidableEq T]

def Frame.launchedOne (f : Frame T) : Frame T :=
  { f with oneStep := { f.oneStep with launched := f.oneStep.launched + 1 } }

/-- The next point of an activation with the local `l`, and its frame there. -/
inductive Next (l : IoUringExecLocal O) (f : Frame T) : LoopPc O → Frame T → LoopPc O → Prop where
  | enter : Next l f .check f (.launch (launchSources f.policy))
  | drain {source : LaunchSource} {sources : List LaunchSource} (tasks : List (Task O)) :
      Next l f (.launch (source :: sources)) f (.visit tasks sources)
  | launched : Next l f (.launch []) f (afterLaunch f.policy)
  | visited {sources : List LaunchSource} : Next l f (.visit [] sources) f (.launch sources)
  | cancelled {k : Task O} {rest : List (Task O)} {sources : List LaunchSource} :
      f.policy.terminal = true → Next l f (.visit (k :: rest) sources) f (.visit rest sources)
  | completed {k : Task O} {rest : List (Task O)} {sources : List LaunchSource} :
      f.policy.terminal = false →
      Next l f (.visit (k :: rest) sources) f.launchedOne (.visit rest sources)
  | submitted : Next l f .submit
      { f with oneStep := { f.oneStep with submitted := l.ring.sq.length } }
      (if f.policy.waitable then .wait else afterSubmit f.policy)
  | waited : Next l f .wait f (afterSubmit f.policy)
  | nothing : l.ring.cq.take f.policy.iodoneBatch = [] → Next l f .peek f (afterIodone f.policy)
  | some {cqes : List (Cqe O)} : cqes = l.ring.cq.take f.policy.iodoneBatch → cqes ≠ [] →
      Next l f .peek f (.consume cqes cqes.length)
  | consumed {e : Cqe O} {rest : List (Cqe O)} {n : Nat} :
      Next l f (.consume (e :: rest) n) f (.consume rest n)
  | advanced {n : Nat} : Next l f (.consume [] n)
      { f with oneStep := { f.oneStep with done := f.oneStep.done + n } }
      (if greedy f.policy (f.oneStep.done + n) n then afterIodone f.policy else .peek)
  | stopping {b : Bucket} {ops : List O} : Next l f .stopping f (.cancelling b ops)
  | cancelling {b : Bucket} {o : O} {ops : List O} :
      Next l f (.cancelling b (o :: ops)) f (.cancelling b ops)
  | stopped {b : Bucket} {ops : List O} : Next l f (.cancelling b ops) f .tail
  | again : f.policy.weaklyParallel = false → Next l f .tail
      { f with info := f.info.add f.oneStep, oneStep := {}, step := f.step + 1 }
      (.launch (launchSources f.policy))

/-- The CQ rings are as they were. -/
def SameCq (s s' : State O T) : Prop :=
  ∀ t, (s'.locals t).ring.cq = (s.locals t).ring.cq

variable {cfg : Config O T} {s s' s'' : State O T} {t : T} {f : Frame T} {c : Caller T}
  {ch : Choice} {pc : LoopPc O} {a : Label O T}

/-! ## From point to point -/

theorem afterIodone_end (p : RunPolicy) :
    (afterIodone p : LoopPc O) = .stopping ∨ (afterIodone p : LoopPc O) = .tail := by
  simp only [afterIodone]
  split
  · exact .inr rfl
  · exact .inl rfl

theorem afterSubmit_next (p : RunPolicy) : (afterSubmit p : LoopPc O) = .peek ∨
    (afterSubmit p : LoopPc O) = .stopping ∨ (afterSubmit p : LoopPc O) = .tail := by
  simp only [afterSubmit]
  split
  · exact .inl rfl
  · exact .inr (afterIodone_end p)

theorem afterLaunch_next (p : RunPolicy) : (afterLaunch p : LoopPc O) = .submit ∨
    (afterLaunch p : LoopPc O) = .peek ∨ (afterLaunch p : LoopPc O) = .stopping ∨
    (afterLaunch p : LoopPc O) = .tail := by
  simp only [afterLaunch]
  split
  · exact .inl rfl
  · exact .inr (afterSubmit_next p)

theorem loopStep_next [DecidableEq O] (h : loopStep cfg s t f c ch pc = some s') :
    (∃ f' pc', Next (s.locals t) f pc f' pc' ∧ (s'.thread t).activation = some (f', c, pc')) ∨
      (s'.thread t).activation = none ∧ (pc = .check ∨ pc = .tail) := by
  cases pc with
  | check =>
      obtain rfl := Option.some.inj h
      simp only [checkStep]
      split
      · exact .inr ⟨returnRun_activation _ t f _ c, by simp⟩
      · exact .inl ⟨_, _, .enter, setThread_activation _ t _⟩
  | launch sources =>
      obtain rfl := Option.some.inj h
      cases sources with
      | nil => exact .inl ⟨_, _, .launched, setThread_activation s t _⟩
      | cons source sources =>
          cases source <;> exact .inl ⟨_, _, .drain _, setThread_activation _ t _⟩
  | visit tasks sources =>
      cases tasks with
      | nil =>
          obtain rfl := Option.some.inj h
          exact .inl ⟨_, _, .visited, setThread_activation s t _⟩
      | cons k rest =>
          obtain rfl := Option.some.inj h
          simp only [visitStep]
          split
          · next hterminal =>
            exact .inl ⟨_, _, .cancelled hterminal, resume_activation _ t f c _ _⟩
          · next hterminal =>
            rw [Bool.not_eq_true] at hterminal
            split
            · exact .inl ⟨_, _, .completed hterminal, resume_activation _ t _ c _ _⟩
            · split <;> exact .inl ⟨_, _, .completed hterminal, resume_activation _ t _ c _ _⟩
  | submit =>
      obtain rfl := Option.some.inj h
      exact .inl ⟨_, _, .submitted, setThread_activation _ t _⟩
  | wait =>
      simp only [loopStep] at h
      split at h
      · cases h
      · obtain rfl := Option.some.inj h
        exact .inl ⟨_, _, .waited, setThread_activation s t _⟩
  | peek =>
      obtain rfl := Option.some.inj h
      simp only [peekStep]
      split
      · next hcq => exact .inl ⟨_, _, .nothing hcq, setThread_activation _ t _⟩
      · next hcq => exact .inl ⟨_, _, .some rfl hcq, setThread_activation s t _⟩
  | consume rest n =>
      cases rest with
      | nil =>
          obtain rfl := Option.some.inj h
          exact .inl ⟨_, _, .advanced, setThread_activation _ t _⟩
      | cons e rest =>
          obtain rfl := Option.some.inj h
          simp only [consumeStep]
          split
          · exact .inl ⟨_, _, .consumed, setThread_activation _ t _⟩
          · split <;> exact .inl ⟨_, _, .consumed, resume_activation _ t f c _ _⟩
  | stopping =>
      obtain rfl := Option.some.inj h
      exact .inl ⟨_, _, .stopping, setThread_activation _ t _⟩
  | cancelling b ops =>
      obtain rfl := Option.some.inj h
      cases ops with
      | nil => exact .inl ⟨_, _, .stopped, setThread_activation s t _⟩
      | cons o ops =>
          simp only [cancelStep]
          split
          · exact .inl ⟨_, _, .cancelling, setThread_activation _ t _⟩
          · exact .inl ⟨_, _, .stopped, setThread_activation _ t _⟩
  | tail =>
      obtain rfl := Option.some.inj h
      simp only [tailStep]
      split
      · exact .inr ⟨returnRun_activation s t _ _ c, by simp⟩
      · next hweakly =>
        rw [Bool.not_eq_true] at hweakly
        split
        · exact .inr ⟨returnRun_activation s t _ _ c, by simp⟩
        split
        · exact .inr ⟨returnRun_activation s t _ _ c, by simp⟩
        obtain ⟨s₁, hs₁⟩ : ∃ s₁, (if f.policy.detached = true then s else s.touch) = s₁ := ⟨_, rfl⟩
        rw [hs₁]
        split
        · exact .inr ⟨setThread_activation _ t _, by simp⟩
        split
        · exact .inr ⟨returnRun_activation _ t _ _ c, by simp⟩
        · exact .inl ⟨_, _, .again hweakly, setThread_activation _ t _⟩

/-! ## The CQ rings -/

namespace SameCq

omit [DecidableEq T] in
theorem of_locals (h : s'.locals = s.locals) : SameCq s s' :=
  fun _ => by rw [h]

theorem setLocal {l : IoUringExecLocal O} (hcq : l.ring.cq = (s.locals t).ring.cq) :
    SameCq s (s.setLocal t l) := by
  intro t'
  by_cases ht : t' = t
  · subst ht
    simpa [State.setLocal] using hcq
  · simp [State.setLocal, ht]

omit [DecidableEq T] in
theorem trans (h : SameCq s s') (h' : SameCq s' s'') : SameCq s s'' :=
  fun t => (h' t).trans (h t)

theorem getLocal (s : State O T) (t : T) : SameCq s (s.getLocal t) :=
  fun t' => by rw [(getLocal_locals s t t').1]

theorem takeSqe {entries : Nat} {e : Sqe O} {r : Ring O} (taken : List O)
    (hr : (s.locals t).ring.getSqe entries e = some r) : SameCq s (s.takeSqe t r taken) := by
  have hlocal : SameCq s (s.setLocal t { s.locals t with
      ring := r
      inflight := (s.locals t).inflight + 1 }) := setLocal (Ring.getSqe_cq hr)
  exact hlocal.trans (of_locals rfl)

theorem allows : Allows (SameCq : State O T → State O T → Prop) where
  trans := trans
  frame := fun h _ => of_locals h
  getLocal := getLocal
  takeSqe := takeSqe
  setStopping := fun _ _ _ _ => setLocal rfl
  drain := fun _ _ => setLocal rfl
  submit := fun _ _ _ => setLocal rfl

end SameCq

/-- The CQ ring of a thread changes when a CQE is posted there and when the thread comes to
the end of a batch. -/
theorem step_cq [DecidableEq O] (h : (machine cfg).step s a = some s') (hpost : ∀ i res, a ≠ .post t i res)
    (hbatch : ∀ ch f c n, a = .thread t ch → s.thread t ≠ .run f c (.consume [] n)) :
    (s'.locals t).ring.cq = (s.locals t).ring.cq := by
  have hrun : ∀ {t₁ ch f c pc}, a = .thread t₁ ch → s.thread t₁ = .run f c pc →
      (s'.locals t).ring.cq = (s.locals t).ring.cq := by
    rintro t₁ ch f c pc rfl hpc
    have hloop : loopStep cfg s t₁ f c ch pc = some s' := by
      simpa [machine, step, threadStep, hpc] using h
    by_cases hend : ∃ n, pc = .consume [] n
    · obtain ⟨n, rfl⟩ := hend
      have ht : t ≠ t₁ := fun ht => hbatch ch f c n (ht ▸ rfl) (ht ▸ hpc)
      obtain rfl := Option.some.inj hloop
      simp [advanceStep, State.setThread, State.setLocal, ht]
    · exact SameCq.allows.loopStep hloop (fun n hn => hend ⟨n, hn⟩) t
  cases Step.of_step h with
  | @command t₁ f c ch r hpc hr =>
      have hcq := Ring.getSqe_cq hr
      have hcommand : SameCq s (s.setLocal t₁ { s.locals t₁ with ring := r.submit r.sq.length }) :=
        .setLocal hcq
      exact hcommand t
  | check hpc _ => exact hrun rfl hpc
  | tail hpc _ => exact hrun rfl hpc
  | inside hpc _ _ _ _ => exact hrun rfl hpc
  | @detach t₁ ch hpc =>
      have hclosed : SameCq s (s.setLocal t₁ { s.locals t₁ with stage := .closed }) := .setLocal rfl
      refine Eq.trans ?_ (hclosed t)
      simp only [detachStep]
      split <;> rfl
  | @start t₁ o ch huser => exact SameCq.allows.startOp cfg s t₁ o ch t
  | @scheduleOn t₁ t₂ ch huser hstage =>
      have hpush : SameCq s (s.setLocal t₂ { s.locals t₂ with
          attached := ⟨s.nextTask, none⟩ :: (s.locals t₂).attached }) := .setLocal rfl
      exact hpush t
  | @destroy t₁ ch hpc hmain halive => exact SameCq.getLocal s t₁ t
  | @post t₁ i res e r hstage hr =>
      have ht : t ≠ t₁ := fun ht => hpost i res (ht ▸ rfl)
      simp [State.setPass, State.setLocal, ht]
  | @stopPush t₁ o hstage hring =>
      have hpush : SameCq s (s.setStopping t₁ (cfg.bucket o)
          (o :: (s.locals t₁).stopping (cfg.bucket o))) := .setLocal rfl
      exact hpush t
  | _ => rfl

end IoUring.Exec.RunLoop
