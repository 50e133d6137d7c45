import IoUring.Exec.OperationCore

/-!
# What becomes of a restart

A restart task that is finished is accounted for when the operation has been
started once more, or is completed. `then` forwards `set_stopped` without
calling `start()`, so a task that is cancelled, or that finds a stop request on
the transfer scope, leaves its operation with neither.
-/

namespace IoUring.Exec.Operation

variable {O T S : Type*}

/-- Each finished restart task of `o` was followed by one more `start()`, or `o`
is completed exactly once. -/
def Settled (s : State O T S) (o : O) : Prop :=
  ∀ k fate, (s.tasks o)[k]? = some fate → fate ≠ .pending →
    k + 2 ≤ s.starts o ∨ (s.signals o).length = 1

/-- No restart task is launched after a stop request on its scope, and none is
cancelled by a terminal pass. -/
def RestartOk (s : State O T S) : Label O T S → Prop
  | .launch _ _ => s.scopeStopped = false
  | .cancelTask _ _ => False
  | _ => True

instance (s : State O T S) (a : Label O T S) : Decidable (RestartOk s a) := by
  unfold RestartOk
  split <;> infer_instance

variable [DecidableEq O] [DecidableEq T] [DecidableEq S]
variable {cfg : Config O T S} {s s' : State O T S} {o : O}

omit [DecidableEq S] in
theorem Core.settled_iff (hc : Core s) : Settled s o ↔ s.status o ≠ .dropped := by
  have htasks := hc.tasks o
  have hsignals := hc.signals o
  constructor
  · intro hs hdrop
    simp only [hdrop, TasksOk] at htasks
    simp only [hdrop, reduceCtorEq, if_false] at hsignals
    obtain ⟨k, hk, htask | htask⟩ := htasks
    · have h := hs k .stopped (by simp [htask]) (by simp)
      omega
    · have h := hs k .cancelled (by simp [htask]) (by simp)
      omega
  · intro hdrop k fate hk hfate
    -- a task before the newest was launched, and the newest is launched or pending
    cases hst : s.status o with
    | fresh => simp_all [TasksOk]
    | dropped => exact absurd hst hdrop
    | completed => exact .inr (by simpa [hst] using hsignals)
    | busy t =>
        simp only [hst, TasksOk] at htasks
        obtain ⟨n, hn, htask⟩ := htasks
        have hlt : k < n := by simpa [htask] using (List.getElem?_eq_some_iff.mp hk).1
        exact .inl (by omega)
    | onRing t =>
        simp only [hst, TasksOk] at htasks
        obtain ⟨n, hn, htask⟩ := htasks
        have hlt : k < n := by simpa [htask] using (List.getElem?_eq_some_iff.mp hk).1
        exact .inl (by omega)
    | waiting =>
        simp only [hst, TasksOk] at htasks
        obtain ⟨n, hn, htask⟩ := htasks
        have hle : k < n + 1 := by simpa [htask] using (List.getElem?_eq_some_iff.mp hk).1
        have hne : k ≠ n := by
          rintro rfl
          exact hfate (by simpa [htask] using hk.symm)
        exact .inl (by omega)

/-- Only a restart task that ends with `set_stopped` drops its operation. -/
theorem Step.not_dropped {a : Label O T S} (h : Step cfg s a s') (hok : RestartOk s a)
    (hs : ∀ o, s.status o ≠ .dropped) (o : O) : s'.status o ≠ .dropped := by
  have hupdate (o' : O) (st : Status T) (hst : st ≠ .dropped) :
      Function.update s.status o' st o ≠ .dropped := by
    by_cases ho : o = o'
    · subst ho; simpa using hst
    · simpa [ho] using hs o
  cases h with
  | launchStopped hpc hopen hst hscope => simp [RestartOk, hscope] at hok
  | cancelTask hpc hopen hst => exact absurd hok id
  | @start t o' => exact hupdate o' (.busy t) (by simp)
  | @launch t o' => exact hupdate o' (.busy t) (by simp)
  | @testStopped t o' => exact hupdate o' .completed (by simp)
  | @sqe t o' => exact hupdate o' (.onRing t) (by simp)
  | @spawnThrows t o' => exact hupdate o' .completed (by simp)
  | @spawn t o' => exact hupdate o' .waiting (by simp)
  | @restart t o' => exact hupdate o' (.busy t) (by simp)
  | @complete t o' => exact hupdate o' .completed (by simp)
  | _ => exact hs o

theorem not_dropped (h : (machine cfg).Reach RestartOk s) (o : O) : s.status o ≠ .dropped := by
  refine h.invariant (fun s => ∀ o, s.status o ≠ .dropped) ?_ ?_ o
  · intro s hinit o
    rw [hinit.2.2.1 o]
    simp
  · intro s a s' _ hs hok hstep
    exact (Step.of_step hstep).not_dropped hok hs

/-- While no restart task is launched after a stop request on its scope or
cancelled, none that is finished has lost its operation; and each task that
ends in one of these two ways does lose it. -/
theorem restart_settled (cfg : Config O T S) :
    (∀ s, (machine cfg).Reach RestartOk s → ∀ o, Settled s o) ∧
      ∀ s t o a s', (machine cfg).Reachable s → a = .launch t o ∨ a = .cancelTask t o →
        (machine cfg).step s a = some s' → (Settled s' o ↔ RestartOk s a) := by
  constructor
  · intro s h o
    exact (reachable_core h.reachable).settled_iff.mpr (not_dropped h o)
  · intro s t o a s' h ha hstep
    have hs := Step.of_step hstep
    have hc := step_core (reachable_core h) hs
    rw [hc.settled_iff]
    rcases ha with rfl | rfl
    · cases hs with
      | launch hpc hopen hst hscope => simp [RestartOk, hscope, State.enterStart]
      | launchStopped hpc hopen hst hscope => simp [RestartOk, hscope]
    · cases hs with
      | cancelTask hpc hopen hst => simp [RestartOk]

section Leave

/-- One operation without a stop token, and two threads. -/
def leaveConfig : Config (Fin 1) (Fin 2) Unit where
  token _ := none
  bucket _ := robinAccess 0
  timer _ := false
  entries _ := 8

def leaveStart : State (Fin 1) (Fin 2) Unit where
  heap := ⟨fun _ => none, fun _ => none⟩
  status _ := .fresh
  callback _ := .none
  localScheduler _ := 0
  stopSource _ := false
  scopeStopped := false
  ring _ := .empty
  issued _ := []
  thread _ := .idle
  closed _ := false
  starts _ := 0
  signals _ := []
  tasks _ := []
  effects _ := []

theorem leaveStart_init : Init leaveStart := by simp [Init, leaveStart]

/-- Thread 0 submits the operation and leaves: its transfer pass restarts the
cancelled request and the local is destroyed. -/
def leaveRun : List (Label (Fin 1) (Fin 2) Unit) :=
  [.start 0 0, .thread 0 false, .thread 0 false, .thread 0 false, .submit 0 1, .cancelAny 0,
    .post 0 0 (-ECANCELED), .consume 0 .transfer, .thread 0 false, .thread 0 false,
    .post 0 0 0, .consume 0 .transfer, .close 0]

def leaveState : State (Fin 1) (Fin 2) Unit :=
  ((machine leaveConfig).run leaveStart leaveRun).getD leaveStart

theorem leaveState_reachable : (machine leaveConfig).Reachable leaveState := by
  have hrun : (machine leaveConfig).run leaveStart leaveRun = some leaveState := rfl
  exact .of_run leaveStart_init hrun

/-- A runner that launches the restart task starts the operation again. -/
theorem restart_settled_launched :
    ∃ s', (machine leaveConfig).step leaveState (.launch 1 0) = some s' ∧ s'.starts 0 = 2 ∧
      Settled s' 0 :=
  ⟨_, rfl, rfl, ((restart_settled leaveConfig).2 leaveState 1 0 _ _ leaveState_reachable
    (.inl rfl) rfl).mpr rfl⟩

/-- The terminal pass of thread 1 cancels the restart task instead: the operation
was started once and its receiver hears nothing. -/
theorem restart_lost : ∃ s : State (Fin 1) (Fin 2) Unit, (machine leaveConfig).Reachable s ∧
    (s.tasks 0)[0]? = some .cancelled ∧ s.starts 0 = 1 ∧ s.signals 0 = [] ∧ ¬ Settled s 0 := by
  have hrun : ∃ s, (machine leaveConfig).run leaveStart (leaveRun ++ [.cancelTask 1 0]) = some s ∧
      (s.tasks 0)[0]? = some .cancelled ∧ s.starts 0 = 1 ∧ s.signals 0 = [] :=
    ⟨_, rfl, rfl, rfl, rfl⟩
  obtain ⟨s, hs, htask, hstarts, hsignals⟩ := hrun
  refine ⟨s, .of_run leaveStart_init hs, htask, hstarts, hsignals, fun hsettled => ?_⟩
  have h := hsettled 0 .cancelled htask (by simp)
  simp [hstarts, hsignals] at h

end Leave

end IoUring.Exec.Operation
