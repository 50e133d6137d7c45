import IoUring.Exec.RunLoopInflight
import IoUring.Exec.RunLoopNext

/-!
# What `run()` returns

The counters of a step are added to those of the run after the step, behind the
return under `weakly_parallel`. So a run under this policy reports its one step and
none of the work of the step.
-/

namespace IoUring.Exec.RunLoop

variable {O T : Type*}

/-- The last call of `run()` by the user on a thread: its policy, the steps it has
executed with the work that was done in them, and the work they found: the tasks of the
drained queues, the SQEs prepared at a submission and the CQEs of the peeked batches. -/
structure WorkLog where
  policy : Option RunPolicy := none
  work : RunProgressInfo := {}
  found : Nat := 0

/-- What a thread with the local `l`, and with `tasks` to be called afterwards, does at a
point of the loop. -/
def WorkLog.note (w : WorkLog) (l : IoUringExecLocal O) (p : RunPolicy) (tasks : List (Task O)) :
    LoopPc O → WorkLog
  | .launch (_ :: _) => { w with found := w.found + tasks.length }
  | .visit (_ :: _) _ => { w with work := { w.work with launched := w.work.launched + 1 } }
  | .submit => { w with
      work := { w.work with submitted := w.work.submitted + l.ring.sq.length }
      found := w.found + l.ring.sq.length }
  | .peek => { w with found := w.found + (l.ring.cq.take p.iodoneBatch).length }
  | .consume (_ :: _) _ => { w with work := { w.work with done := w.work.done + 1 } }
  | .tail => { w with work := { w.work with loopStep := w.work.loopStep + 1 } }
  | _ => w

/-- The steps of a pass that the run makes when it is stopped are not its own. -/
def noteWork [DecidableEq T] (log : T → WorkLog) (s : State O T) (a : Label O T)
    (s' : State O T) : T → WorkLog :=
  match a with
  | .user t (.call _ policy) _ => Function.update log t { policy := some policy }
  | .thread t _ =>
      match s.thread t with
      | .run f .user pc => Function.update log t
          ((log t).note (s.locals t) f.policy (s'.thread t).tasks pc)
      | _ => log
  | _ => log

/-- The machine with the history of the work. -/
def workMachine [DecidableEq O] [DecidableEq T] (cfg : Config O T) :
    Machine (State O T × (T → WorkLog)) (Label O T) :=
  (machine cfg).observed (fun _ => {}) noteWork

/-- The CQEs of the batch that are still to be dealt with. -/
def LoopPc.rest : LoopPc O → Nat
  | .consume rest _ => rest.length
  | _ => 0

/-- The submission of the step is ahead. -/
def LoopPc.submits : LoopPc O → Bool
  | .check => true
  | .launch _ => true
  | .visit _ _ => true
  | .submit => true
  | _ => false

/-- The counters of a run that is not over. -/
structure Counts (f : Frame T) (w : WorkLog) (pc : LoopPc O) : Prop where
  policy : w.policy = some f.policy
  check : pc = .check → f.step = 1 ∧ f.oneStep = {} ∧ w.found = 0
  step : w.work.loopStep + 1 = f.step
  launched : w.work.launched = f.info.launched + f.oneStep.launched
  submitted : w.work.submitted = f.info.submitted + f.oneStep.submitted
  done : w.work.done + pc.rest = f.info.done + f.oneStep.done + pc.batch
  found : w.found = w.work.launched + w.work.submitted + w.work.done + pc.tasks.length + pc.rest
  submits : pc.submits = true → f.oneStep.submitted = 0
  weakly : f.policy.weaklyParallel = true → f.info = {}

/-- The run is over, or there was none. -/
def Settled (w : WorkLog) (result : Option RunProgressInfo) : Prop :=
  ∀ p, w.policy = some p → p.terminal = false →
    (result = some w.work ↔ (p.weaklyParallel = true → w.found = 0))

/-- The run of `outer` is over but for its terminal pass. -/
def Stopped (outer : Frame T) (w : WorkLog) : Prop :=
  w.policy = some outer.policy ∧ outer.policy.weaklyParallel = false ∧
    (outer.policy.terminal = false → w.work = outer.info.final outer.step)

/-- What the history and the last result of a thread at `n` say about each other. -/
def Booked (w : WorkLog) (result : Option RunProgressInfo) (n : ThreadPc O T) : Prop :=
  match n.activation, n.caller with
  | some (f, .user, pc), _ => w.policy = some f.policy ∧ (f.policy.terminal = false → Counts f w pc)
  | _, some (.stopRequest outer) => Stopped outer w
  | _, _ => Settled w result

variable {cfg : Config O T} {s s' : State O T} {t : T} {f f' : Frame T} {c : Caller T}
  {ch : Choice} {pc pc' : LoopPc O} {a : Label O T} {l : IoUringExecLocal O} {w : WorkLog}
  {log : T → WorkLog} {tasks : List (Task O)}

/-! ## The counters -/

/-- The points at which no task and no CQE is at hand. -/
theorem Counts.goto (h : Counts f w pc) (hpc' : pc' ≠ .check) (hrest : pc'.rest = pc.rest)
    (hbatch : pc'.batch = pc.batch) (htasks : pc'.tasks.length = pc.tasks.length)
    (hsubmits : pc'.submits = true → pc.submits = true) : Counts f w pc' where
  policy := h.policy
  check := fun h' => absurd h' hpc'
  step := h.step
  launched := h.launched
  submitted := h.submitted
  done := by rw [hrest, hbatch]; exact h.done
  found := by rw [hrest, htasks]; exact h.found
  submits := fun h' => h.submits (hsubmits h')
  weakly := h.weakly

/-- The activation takes a step. -/
theorem Counts.next (h : Counts f w pc) (hterminal : f.policy.terminal = false)
    (hn : Next l f pc f' pc') : Counts f' (w.note l f.policy pc'.tasks pc) pc' := by
  cases hn with
  | enter => exact h.goto (by simp) rfl rfl rfl (by simp [LoopPc.submits])
  | drain tasks =>
      have hfound := h.found
      exact { h with
        check := by simp
        found := by simpa [LoopPc.tasks, LoopPc.rest, WorkLog.note] using hfound
        submits := fun _ => h.submits rfl }
  | launched =>
      rcases afterLaunch_next (O := O) f.policy with h' | h' | h' | h' <;> rw [h'] <;>
        exact h.goto (by simp) rfl rfl rfl (by simp [LoopPc.submits])
  | visited => exact h.goto (by simp) rfl rfl rfl (by simp [LoopPc.submits])
  | cancelled hcancel => simp [hterminal] at hcancel
  | completed _ =>
      have hlaunched := h.launched
      have hfound := h.found
      exact { h with
        check := by simp
        launched := by simp [WorkLog.note, Frame.launchedOne, hlaunched, Nat.add_assoc]
        found := by
          simp only [LoopPc.tasks, LoopPc.rest, WorkLog.note, List.length_cons] at hfound ⊢
          omega
        submits := fun _ => h.submits rfl }
  | submitted =>
      have hsubmitted := h.submitted
      have hfound := h.found
      rw [h.submits rfl] at hsubmitted
      have hnext : Counts { f with oneStep := { f.oneStep with submitted := l.ring.sq.length } }
          (w.note l f.policy [] (.submit : LoopPc O)) (.wait : LoopPc O) := { h with
        check := by simp
        submitted := by simp [WorkLog.note, hsubmitted]
        found := by
          simp only [LoopPc.tasks, LoopPc.rest, WorkLog.note, List.length_nil] at hfound ⊢
          omega
        submits := by simp [LoopPc.submits] }
      split
      · exact hnext
      · rcases afterSubmit_next (O := O) f.policy with h' | h' | h' <;> rw [h'] <;>
          exact hnext.goto (by simp) rfl rfl rfl (by simp [LoopPc.submits])
  | waited =>
      rcases afterSubmit_next (O := O) f.policy with h' | h' | h' <;> rw [h'] <;>
        exact h.goto (by simp) rfl rfl rfl (by simp [LoopPc.submits])
  | nothing hcq =>
      have hnote : w.note l f.policy [] (.peek : LoopPc O) = w := by simp [WorkLog.note, hcq]
      rcases afterIodone_end (O := O) f.policy with h' | h' <;> rw [h'] <;>
        simp only [LoopPc.tasks, hnote] <;>
        exact h.goto (by simp) rfl rfl rfl (by simp [LoopPc.submits])
  | some hcqes _ =>
      subst hcqes
      have hdone := h.done
      have hfound := h.found
      exact { h with
        check := by simp
        done := by
          simp only [LoopPc.rest, LoopPc.batch, WorkLog.note] at hdone ⊢
          omega
        found := by
          simp only [LoopPc.tasks, LoopPc.rest, WorkLog.note, List.length_nil] at hfound ⊢
          omega
        submits := by simp [LoopPc.submits] }
  | consumed =>
      have hdone := h.done
      have hfound := h.found
      exact { h with
        check := by simp
        done := by
          simp only [LoopPc.rest, LoopPc.batch, WorkLog.note, List.length_cons] at hdone ⊢
          omega
        found := by
          simp only [LoopPc.tasks, LoopPc.rest, WorkLog.note, List.length_cons] at hfound ⊢
          omega
        submits := by simp [LoopPc.submits] }
  | @advanced n =>
      have hdone := h.done
      have hnext : Counts { f with oneStep := { f.oneStep with done := f.oneStep.done + n } }
          w (.peek : LoopPc O) := { h with
        check := by simp
        done := by
          simp only [LoopPc.rest, LoopPc.batch, List.length_nil] at hdone ⊢
          omega
        submits := by simp [LoopPc.submits] }
      split
      · rcases afterIodone_end (O := O) f.policy with h' | h' <;> rw [h'] <;>
          exact hnext.goto (by simp) rfl rfl rfl (by simp [LoopPc.submits])
      · exact hnext
  | stopping => exact h.goto (by simp) rfl rfl rfl (by simp [LoopPc.submits])
  | cancelling => exact h.goto (by simp) rfl rfl rfl (by simp [LoopPc.submits])
  | stopped => exact h.goto (by simp) rfl rfl rfl (by simp [LoopPc.submits])
  | again hweakly =>
      have hdone := h.done
      exact { h with
        check := by simp
        step := congrArg (· + 1) h.step
        launched := h.launched
        submitted := h.submitted
        done := h.done
        submits := fun _ => rfl
        weakly := fun h' => by simp [hweakly] at h' }

/-- The run finds that the loop was stopped before. -/
theorem Counts.none (h : Counts f w (.check : LoopPc O)) : w.work = f.info.final 0 := by
  obtain ⟨hone, honeStep, -⟩ := h.check rfl
  have hstep : w.work.loopStep = 0 := by have := h.step; omega
  have hlaunched : w.work.launched = f.info.launched := by simp [h.launched, honeStep]
  have hsubmitted : w.work.submitted = f.info.submitted := by simp [h.submitted, honeStep]
  have hdone : w.work.done = f.info.done + f.oneStep.done := h.done
  have hwork : w.work = ⟨w.work.loopStep, w.work.launched, w.work.submitted, w.work.done⟩ := rfl
  rw [hwork, hstep, hlaunched, hsubmitted, hdone, honeStep]
  rfl

/-- What the run has done when it returns behind the sum. -/
theorem Counts.total (h : Counts f w (.tail : LoopPc O)) :
    (w.note l f.policy tasks (.tail : LoopPc O)).work = (f.info.add f.oneStep).final f.step := by
  have hdone : w.work.done = f.info.done + f.oneStep.done := h.done
  simp [WorkLog.note, RunProgressInfo.add, RunProgressInfo.final, h.step, h.launched, h.submitted,
    hdone]

/-- What the run returns in front of the sum. -/
theorem Counts.weak (h : Counts f w (.tail : LoopPc O)) (hweakly : f.policy.weaklyParallel = true) :
    f.info.final f.step = (w.note l f.policy tasks (.tail : LoopPc O)).work ↔ w.found = 0 := by
  have hdone : w.work.done = f.info.done + f.oneStep.done := h.done
  have hfound : w.found = w.work.launched + w.work.submitted + w.work.done := h.found
  have hlaunched := h.launched
  have hsubmitted := h.submitted
  rw [h.total, hfound]
  simp only [h.weakly hweakly, RunProgressInfo.add, RunProgressInfo.final,
    RunProgressInfo.mk.injEq, true_and] at hlaunched hsubmitted hdone ⊢
  omega

/-! ## The results -/

variable [DecidableEq T]

/-- How the activation `f` ends at a point of the loop: it finds the flag, it returns in
front of the sum of the counters or behind it, or it makes its terminal pass. -/
inductive Returns (s s' : State O T) (t : T) (f : Frame T) (c : Caller T) : LoopPc O → Prop where
  | stopped {s₁ : State O T} : s₁.result = s.result →
      s' = returnRun s₁ t f (f.info.final 0) c → Returns s s' t f c .check
  | weakly : f.policy.weaklyParallel = true → s' = returnRun s t f (f.info.final f.step) c →
      Returns s s' t f c .tail
  | summed {s₁ : State O T} {f' : Frame T} : f.policy.weaklyParallel = false →
      s₁.result = s.result → s' = returnRun s₁ t f' ((f.info.add f.oneStep).final f.step) c →
      Returns s s' t f c .tail
  | stop {s₁ : State O T} {f' : Frame T} : f.policy.weaklyParallel = false →
      s₁.result = s.result → s' = s₁.setThread t (.command f'
        (.stopRequest { f with info := f.info.add f.oneStep, oneStep := {} })) →
      Returns s s' t f c .tail

theorem getLocal_result (s : State O T) (t : T) : (s.getLocal t).result = s.result := by
  simp only [State.getLocal]
  split <;> rfl

theorem asyncRestart_result (s : State O T) (t : T) (o : O) (throws : Bool) :
    (s.asyncRestart t o throws).1.result = s.result := by
  simp only [State.asyncRestart]
  split <;> rfl

theorem startOp_result (cfg : Config O T) (s : State O T) (t : T) (o : O) (ch : Choice) :
    (startOp cfg s t o ch).1.result = s.result := by
  simp only [startOp]
  split
  · rfl
  split
  · exact getLocal_result s t
  · exact (asyncRestart_result _ t o ch.throws).trans (getLocal_result s t)

theorem enter_result (s : State O T) (t : T) (loop : Loop T) :
    (s.enter t loop).result = s.result := by
  cases loop with
  | exec => exact getLocal_result s t
  | own _ => rfl

omit [DecidableEq T] in
theorem touchLoop_result (s : State O T) (loop : Loop T) :
    (s.touchLoop loop).result = s.result := by
  cases loop <;> rfl

variable [DecidableEq O]

/-- Between the entry and the end of a step no result is stored. -/
theorem loopStep_result (h : loopStep cfg s t f c ch pc = some s') (hcheck : pc ≠ .check)
    (htail : pc ≠ .tail) : s'.result = s.result := by
  cases pc with
  | check => exact absurd rfl hcheck
  | launch sources =>
      obtain rfl := Option.some.inj h
      cases sources with
      | nil => rfl
      | cons source sources => cases source <;> rfl
  | visit tasks sources =>
      cases tasks with
      | nil => obtain rfl := Option.some.inj h; rfl
      | cons k rest =>
          obtain rfl := Option.some.inj h
          simp only [visitStep]
          split
          · rfl
          split
          · rfl
          split
          · rfl
          · exact startOp_result cfg _ t _ ch
  | submit => obtain rfl := Option.some.inj h; rfl
  | wait =>
      simp only [loopStep] at h
      split at h
      · cases h
      · obtain rfl := Option.some.inj h
        rfl
  | peek =>
      obtain rfl := Option.some.inj h
      simp only [peekStep]
      split <;> rfl
  | consume rest n =>
      cases rest with
      | nil => obtain rfl := Option.some.inj h; rfl
      | cons e rest =>
          obtain rfl := Option.some.inj h
          simp only [consumeStep]
          split
          · rfl
          split
          · exact asyncRestart_result _ t _ ch.throws
          · rfl
  | stopping => obtain rfl := Option.some.inj h; rfl
  | cancelling b ops =>
      obtain rfl := Option.some.inj h
      cases ops with
      | nil => rfl
      | cons o ops =>
          simp only [cancelStep]
          split <;> rfl
  | tail => exact absurd rfl htail

/-- The activation goes on, or it ends with a result. -/
theorem loopStep_returns (h : loopStep cfg s t f c ch pc = some s') :
    (∃ f' pc', Next (s.locals t) f pc f' pc' ∧ (s'.thread t).activation = some (f', c, pc') ∧
      s'.result = s.result) ∨ Returns s s' t f c pc := by
  by_cases hcheck : pc = .check
  · subst hcheck
    obtain rfl := Option.some.inj h
    have hsame : ((s.touchLoop f.loop).noteFirst t f.loop).result = s.result :=
      touchLoop_result s f.loop
    simp only [checkStep]
    split
    · exact .inr (.stopped hsame rfl)
    · exact .inl ⟨_, _, .enter, setThread_activation _ t _, (enter_result _ t f.loop).trans hsame⟩
  by_cases htail : pc = .tail
  · subst htail
    obtain rfl := Option.some.inj h
    simp only [tailStep]
    split
    · next hweakly => exact .inr (.weakly hweakly rfl)
    · next hweakly =>
      rw [Bool.not_eq_true] at hweakly
      split
      · exact .inr (.summed hweakly rfl rfl)
      split
      · exact .inr (.summed hweakly rfl rfl)
      obtain ⟨s₁, hs₁, hsame⟩ : ∃ s₁, (if f.policy.detached = true then s else s.touch) = s₁ ∧
          s₁.result = s.result := ⟨_, rfl, by split <;> rfl⟩
      rw [hs₁]
      split
      · exact .inr (.stop hweakly hsame rfl)
      split
      · exact .inr (.summed hweakly hsame rfl)
      · exact .inl ⟨_, _, .again hweakly, setThread_activation _ t _,
          (touchLoop_result s₁ f.loop).trans hsame⟩
  rcases loopStep_next h with ⟨f', pc', hn, hact⟩ | ⟨-, hend⟩
  · exact .inl ⟨f', pc', hn, hact, loopStep_result h hcheck htail⟩
  · exact absurd hend (by simp [hcheck, htail])

omit [DecidableEq O] in
/-- The caller that gets a result, and the result. -/
theorem returnRun_result (s : State O T) (t : T) (f : Frame T) (info : RunProgressInfo)
    (c : Caller T) :
    (returnRun s t f info c).result = match c with
      | .user => Function.update s.result t (some info)
      | .stopRequest outer => Function.update s.result t (some (outer.info.final outer.step))
      | _ => s.result := by
  cases c with
  | stopRequest outer => rfl
  | execTransfer => exact getLocal_result s t
  | _ => rfl

omit [DecidableEq O] in
theorem returnRun_booked (s : State O T) (t : T) (f : Frame T) (info : RunProgressInfo)
    (c : Caller T)
    (w : WorkLog) (result : Option RunProgressInfo) :
    Booked w result ((returnRun s t f info c).thread t) ↔ Settled w result := by
  cases c <;> simp [returnRun, State.setThread, Booked, ThreadPc.activation, ThreadPc.caller]

omit [DecidableEq O] in
theorem setThread_booked (s : State O T) (t : T) (n : ThreadPc O T) (w : WorkLog)
    (result : Option RunProgressInfo) :
    Booked w result ((s.setThread t n).thread t) ↔ Booked w result n := by
  simp [State.setThread]

omit [DecidableEq O] [DecidableEq T] in
theorem booked_activation {n : ThreadPc O T} {result : Option RunProgressInfo}
    (h : n.activation = some (f, c, pc)) : Booked w result n ↔ match c with
      | .user => w.policy = some f.policy ∧ (f.policy.terminal = false → Counts f w pc)
      | .stopRequest outer => Stopped outer w
      | _ => Settled w result := by
  have hcaller : n.caller = some c := by
    cases n <;> simp_all [ThreadPc.activation, ThreadPc.caller]
  simp only [Booked, h, hcaller]
  cases c <;> rfl

omit [DecidableEq O] [DecidableEq T] in
theorem tasks_activation {n : ThreadPc O T} (h : n.activation = some (f, c, pc)) :
    n.tasks = pc.tasks := by
  cases n <;> simp_all [ThreadPc.activation, ThreadPc.tasks]

/-- A run of the user takes a step. -/
theorem Booked.userStep (h : w.policy = some f.policy ∧ (f.policy.terminal = false → Counts f w pc))
    (hs : loopStep cfg s t f .user ch pc = some s') :
    Booked (w.note (s.locals t) f.policy (s'.thread t).tasks pc) (s'.result t) (s'.thread t) := by
  obtain ⟨hpolicy, hcounts⟩ := h
  have hnote : ∀ tasks, (w.note (s.locals t) f.policy tasks pc).policy = some f.policy := by
    intro tasks
    rw [← hpolicy]
    simp only [WorkLog.note]
    split <;> rfl
  rcases loopStep_returns hs with ⟨f', pc', hn, hact, -⟩ | hback
  · have hsame : f'.policy = f.policy := by cases hn <;> rfl
    rw [booked_activation hact, tasks_activation hact, hsame]
    exact ⟨hnote _, fun hterminal => (hcounts hterminal).next hterminal hn⟩
  · -- the run is over
    have hsettled : ∀ result, (f.policy.terminal = false →
        (result = some (w.note (s.locals t) f.policy (s'.thread t).tasks pc).work ↔
          (f.policy.weaklyParallel = true →
            (w.note (s.locals t) f.policy (s'.thread t).tasks pc).found = 0))) →
        Settled (w.note (s.locals t) f.policy (s'.thread t).tasks pc) result := by
      intro result hresult p hp
      obtain rfl : f.policy = p := Option.some.inj ((hnote _).symm.trans hp)
      exact hresult
    have huser : ∀ (s₁ : State O T) (f' : Frame T) (info : RunProgressInfo),
        (returnRun s₁ t f' info .user).result t = some info := by simp [returnRun_result]
    cases hback with
    | stopped hresult heq =>
        subst heq
        rw [returnRun_booked, huser]
        refine hsettled _ fun hterminal => iff_of_true ?_ fun _ => ?_
        · exact congrArg some (hcounts hterminal).none.symm
        · exact ((hcounts hterminal).check rfl).2.2
    | weakly hweakly heq =>
        subst heq
        rw [returnRun_booked, huser]
        refine hsettled _ fun hterminal => ?_
        have hweak : f.info.final f.step = (w.note (s.locals t) f.policy [] .tail).work ↔
            w.found = 0 := (hcounts hterminal).weak hweakly
        simpa [hweakly, WorkLog.note] using hweak
    | summed hweakly _ heq =>
        subst heq
        rw [returnRun_booked, huser]
        refine hsettled _ fun hterminal => iff_of_true ?_ (by simp [hweakly])
        rw [(hcounts hterminal).total]
    | stop hweakly _ heq =>
        subst heq
        rw [setThread_booked]
        exact ⟨hnote _, hweakly, fun hterminal => (hcounts hterminal).total⟩

/-- A pass of the library takes a step. -/
theorem Booked.passStep (h : Booked w (s.result t) (.run f c pc : ThreadPc O T))
    (hc : c ≠ .user) (hweakly : f.policy.weaklyParallel = true)
    (hs : loopStep cfg s t f c ch pc = some s') : Booked w (s'.result t) (s'.thread t) := by
  have hact : ((.run f c pc : ThreadPc O T)).activation = some (f, c, pc) := rfl
  rw [booked_activation hact] at h
  have hback : ∀ (s₁ : State O T) (f' : Frame T) (info : RunProgressInfo), s₁.result = s.result →
      Booked w ((returnRun s₁ t f' info c).result t) ((returnRun s₁ t f' info c).thread t) := by
    intro s₁ f' info hsame
    rw [returnRun_booked, returnRun_result, hsame]
    cases c with
    | user => exact absurd rfl hc
    | stopRequest outer =>
        obtain ⟨hpolicy, hweakly, hwork⟩ := h
        intro p hp hterminal
        obtain rfl : outer.policy = p := Option.some.inj (hpolicy.symm.trans hp)
        refine iff_of_true ?_ (by simp [hweakly])
        rw [hwork hterminal]
        exact Function.update_self ..
    | _ => exact h
  rcases loopStep_returns hs with ⟨f', pc', -, hact', hresult⟩ | hend
  · rw [booked_activation hact', hresult]
    cases c with
    | user => exact absurd rfl hc
    | _ => exact h
  · cases hend with
    | stopped hsame heq => subst heq; exact hback _ _ _ hsame
    | weakly _ heq => subst heq; exact hback _ _ _ rfl
    | summed _ hsame heq => subst heq; exact hback _ _ _ hsame
    | stop hgo _ _ => simp [hweakly] at hgo

/-! ## All labels -/

omit [DecidableEq O] in
theorem noteWork_other (log : T → WorkLog) (ha : a.actor ≠ some t) :
    noteWork log s a s' t = log t := by
  cases a with
  | thread u ch =>
      have hne : t ≠ u := fun heq => ha (by rw [heq]; rfl)
      simp only [noteWork]
      cases s.thread u with
      | run f c pc =>
          cases c with
          | user => exact Function.update_of_ne hne _ _
          | _ => rfl
      | _ => rfl
  | user u act ch =>
      have hne : t ≠ u := fun heq => ha (by rw [heq]; rfl)
      cases act with
      | call loop policy => exact Function.update_of_ne hne _ _
      | _ => rfl
  | _ => rfl

/-- A step stores no result for another thread. -/
theorem step_result (h : (machine cfg).step s a = some s') (ha : a.actor ≠ some t) :
    s'.result t = s.result t := by
  have hrun : ∀ {u ch f c pc}, a = .thread u ch → s.thread u = .run f c pc →
      s'.result t = s.result t := by
    rintro u ch f c pc rfl hpc
    have hne : t ≠ u := fun heq => ha (by rw [heq]; rfl)
    have hloop : loopStep cfg s u f c ch pc = some s' := by
      simpa [machine, step, threadStep, hpc] using h
    have hback : ∀ (s₁ : State O T) (f' : Frame T) (info : RunProgressInfo), s₁.result = s.result →
        (returnRun s₁ u f' info c).result t = s.result t := by
      intro s₁ f' info hsame
      rw [returnRun_result, hsame]
      cases c <;> simp [hne]
    rcases loopStep_returns hloop with ⟨_, _, -, -, hsame⟩ | hend
    · rw [hsame]
    · cases hend with
      | stopped hsame heq => subst heq; exact hback _ _ _ hsame
      | weakly _ heq => subst heq; exact hback _ _ _ rfl
      | summed _ hsame heq => subst heq; exact hback _ _ _ hsame
      | stop _ hsame heq => subst heq; exact congrFun hsame t
  cases Step.of_step h with
  | check hpc _ => exact hrun rfl hpc
  | tail hpc _ => exact hrun rfl hpc
  | inside hpc _ _ _ _ => exact hrun rfl hpc
  | @detach u ch hpc =>
      simp only [detachStep]
      split <;> rfl
  | @start u o ch _ => exact congrFun (startOp_result cfg s u o ch) t
  | @destroy u ch _ _ _ => exact congrFun (getLocal_result s u) t
  | _ => rfl

theorem booked_step (hinv : LoopInv s) (hok : ∀ t, Booked (log t) (s.result t) (s.thread t))
    (h : (machine cfg).step s a = some s') (t : T) :
    Booked (noteWork log s a s' t) (s'.result t) (s'.thread t) := by
  have ht := hinv.threads t
  have hb := hok t
  by_cases ha : a.actor = some t
  · have hrun : ∀ {f c pc ch}, a = .thread t ch → s.thread t = .run f c pc →
        Booked (noteWork log s a s' t) (s'.result t) (s'.thread t) := by
      rintro f c pc ch rfl hpc
      have hloop : loopStep cfg s t f c ch pc = some s' := by
        simpa [machine, step, threadStep, hpc] using h
      rw [hpc] at hb ht
      by_cases hc : c = .user
      · subst hc
        simp only [noteWork, hpc, Function.update_self]
        exact Booked.userStep hb hloop
      · have hweakly : f.policy.weaklyParallel = true := by
          rcases ht.1.policy hc with hp | hp <;> rw [hp] <;> rfl
        have hlog : noteWork log s (.thread t ch) s' t = log t := by
          simp only [noteWork, hpc]
          cases c with
          | user => exact absurd rfl hc
          | _ => rfl
        rw [hlog]
        exact hb.passStep hc hweakly hloop
    cases Step.of_step h with
    | @command u f c ch r hpc hr =>
        obtain rfl : u = t := by simpa [Label.actor] using ha
        rw [hpc] at hb
        simp only [noteWork, hpc, setThread_booked]
        cases c <;> exact hb
    | @drain u f c ch hpc =>
        obtain rfl : u = t := by simpa [Label.actor] using ha
        rw [hpc] at hb ht
        simp only [noteWork, hpc, setThread_booked]
        cases c with
        | user => exact absurd rfl ht.2.1
        | _ => exact hb
    | @check u f c ch _ hpc henters =>
        obtain rfl : u = t := by simpa [Label.actor] using ha
        exact hrun rfl hpc
    | @tail u f c ch _ hpc hends =>
        obtain rfl : u = t := by simpa [Label.actor] using ha
        exact hrun rfl hpc
    | @inside u f c ch pc _ hpc _ _ _ hgo =>
        obtain rfl : u = t := by simpa [Label.actor] using ha
        exact hrun rfl hpc
    | @waitLocals u ch hpc hone =>
        obtain rfl : u = t := by simpa [Label.actor] using ha
        rw [hpc] at hb
        simp only [noteWork, hpc, setThread_booked]
        exact hb
    | @detach u ch hpc =>
        obtain rfl : u = t := by simpa [Label.actor] using ha
        rw [hpc] at hb
        simp only [noteWork, hpc, detachStep]
        split <;> rw [setThread_booked] <;> exact hb
    | @start u o ch huser =>
        obtain rfl : u = t := by simpa [Label.actor] using ha
        rw [(Keeps.startOp cfg s u o ch).thread, startOp_result]
        exact hb
    | schedule _ => exact hb
    | scheduleOn _ _ => exact hb
    | @ret u f c pc ch hpc =>
        obtain rfl : u = t := by simpa [Label.actor] using ha
        rw [hpc] at hb
        rw [setThread_booked]
        cases c <;> exact hb
    | @call u loop policy ch hpc =>
        obtain rfl : u = t := by simpa [Label.actor] using ha
        simp only [noteWork, setThread_booked, Function.update_self]
        exact ⟨rfl, fun _ => ⟨rfl, fun _ => ⟨rfl, rfl, rfl⟩, rfl, rfl, rfl, rfl, rfl, fun _ => rfl,
          fun _ => rfl⟩⟩
    | @exitLocal u ch hpc hstage =>
        obtain rfl : u = t := by simpa [Label.actor] using ha
        rw [hpc] at hb
        simp only [noteWork, setThread_booked]
        exact hb
    | @exit u ch hpc hstage =>
        obtain rfl : u = t := by simpa [Label.actor] using ha
        rw [hpc] at hb
        simp only [noteWork, setThread_booked]
        exact hb
    | @destroy u ch hpc hmain halive =>
        obtain rfl : u = t := by simpa [Label.actor] using ha
        rw [hpc] at hb
        rw [setThread_booked]
        have hresult : (s.getLocal u).result u = s.result u := congrFun (getLocal_result s u) u
        simp only [noteWork, State.setThread, hresult]
        exact hb
    | _ => simp [Label.actor] at ha
  · rw [(step_other (.of_step h) ha).1, step_result h ha, noteWork_other log ha]
    exact hb

theorem reachable_booked {p : State O T × (T → WorkLog)} (h : (workMachine cfg).Reachable p) :
    LoopInv p.1 ∧ ∀ t, Booked (p.2 t) (p.1.result t) (p.1.thread t) := by
  refine h.invariant (fun p => LoopInv p.1 ∧ ∀ t, Booked (p.2 t) (p.1.result t) (p.1.thread t))
    (fun p hp => ?_) fun p a q _ hok _ hstep => ?_
  · have hreach : (machine cfg).Reachable p.1 := .start hp.1
    refine ⟨reachable_inv hreach, fun t => ?_⟩
    obtain ⟨⟨-, -, -, -, -, -, -, hthread, -⟩, hlog⟩ := hp
    rw [hthread t, hlog]
    intro policy hp
    cases hp
  · obtain ⟨hs, hq⟩ := Machine.observed_step.mp hstep
    rw [hq]
    exact ⟨step_inv hok.1 (.of_step hs), booked_step hok.1 hok.2 hs⟩

/-- When a thread is back from `run()`, what was returned is the number of steps and the
work done in them if and only if the policy is not `weakly_parallel` or the one step has
found no task in the queues it drained, no SQE at its submission and no CQE at its peeks. -/
theorem progress_info_exact {p : State O T × (T → WorkLog)} (h : (workMachine cfg).Reachable p)
    (hpc : p.1.thread t = .outside) {policy : RunPolicy} (hpolicy : (p.2 t).policy = some policy)
    (hterminal : policy.terminal = false) :
    p.1.result t = some (p.2 t).work ↔ (policy.weaklyParallel = true → (p.2 t).found = 0) := by
  have hbooked := (reachable_booked h).2 t
  rw [hpc] at hbooked
  exact hbooked policy hpolicy hterminal

section Weakly

/-- A call of thread 1 under a policy, with a task in a bucket that it visits. -/
def oneTask (policy : RunPolicy) : List (Label (Fin 2) (Fin 2)) :=
  [.user 1 .schedule draw, .user 1 (.call .exec policy) draw] ++ goes 1 5 ++
    [.user 1 .ret draw] ++ goes 1 9

/-- A step under `weakly_concurrent` is reported with the task it has called. -/
theorem progress_info_exact_concurrent : ∃ p : State (Fin 2) (Fin 2) × (Fin 2 → WorkLog),
    p.1.result 1 = some (p.2 1).work ∧ (p.2 1).work = ⟨1, 1, 0, 0⟩ := by
  have hrun : ∃ p, (workMachine pairConfig).run (pairStart, fun _ => {})
      (oneTask { concurrent := false, weaklyConcurrent := true }) = some p ∧
      p.1.thread 1 = .outside ∧
      (p.2 1).policy = some { concurrent := false, weaklyConcurrent := true } ∧
      (p.2 1).work = ⟨1, 1, 0, 0⟩ := ⟨_, rfl, rfl, rfl, rfl⟩
  obtain ⟨p, hp, hpc, hpolicy, hwork⟩ := hrun
  have hreach : (workMachine pairConfig).Reachable p := .observed pairStart_init hp
  exact ⟨p, (progress_info_exact hreach hpc hpolicy rfl).mpr (by simp), hwork⟩

/-- Under `weakly_parallel` the same step is reported without the task. -/
theorem progress_info_lost : ∃ p : State (Fin 2) (Fin 2) × (Fin 2 → WorkLog),
    (workMachine pairConfig).Reachable p ∧ p.1.thread 1 = .outside ∧
      (p.2 1).policy = some { concurrent := false, weaklyParallel := true } ∧
      (p.2 1).work = ⟨1, 1, 0, 0⟩ ∧ p.1.result 1 = some ⟨1, 0, 0, 0⟩ := by
  have hrun : ∃ p, (workMachine pairConfig).run (pairStart, fun _ => {})
      (oneTask { concurrent := false, weaklyParallel := true }) = some p ∧
      p.1.thread 1 = .outside ∧
      (p.2 1).policy = some { concurrent := false, weaklyParallel := true } ∧
      (p.2 1).work = ⟨1, 1, 0, 0⟩ ∧ p.1.result 1 = some ⟨1, 0, 0, 0⟩ :=
    ⟨_, rfl, rfl, rfl, rfl, rfl⟩
  obtain ⟨p, hp, hrest⟩ := hrun
  exact ⟨p, .observed pairStart_init hp, hrest⟩

end Weakly

end IoUring.Exec.RunLoop
