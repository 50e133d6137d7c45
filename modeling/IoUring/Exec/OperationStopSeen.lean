import IoUring.Exec.OperationStopping
import Mathlib.Data.Fintype.Basic

/-!
# No stop request is lost

While no restart is lost and no local is destroyed with an operation on its
ring, a requested stop of a running operation is always on its way: to a test
in `start()`, to a push, to a sweep of the right local, or to the ring.
-/

namespace IoUring.Exec.Operation

variable {O T S : Type*} [DecidableEq O] [DecidableEq T] [DecidableEq S]

/-- `o` is in the chain that thread `t` has taken out of a bucket. -/
def InHand (s : State O T S) (t : T) (o : O) : Prop :=
  ∃ l, PrivOk s.heap.next l (s.thread t) ∧ o ∈ l

/-- What a stop request for `o` waits for, when the SQE of `o` is on the ring of
`t`: the installation of the callback, the callback, the sweep of the bucket of
`o` in the stopping map of `t`, the thread of `t` with `o` in hand, or the
completion of the request, which is cancelled or posted. -/
def StopPending (cfg : Config O T S) (s : State O T S) (t : T) (o : O) : Prop :=
  s.thread t = .install o ∨ s.callback o = .registered ∨ (∃ pc, s.callback o = .running pc) ∨
    InBucket s (t, cfg.bucket o) o ∨ InHand s t o ∨ CancelledAfter (s.issued t) o ∨
    ∃ res, ⟨some o, res⟩ ∈ (s.ring t).cq

/-- A `start()` or a restart of `o` is still to come, or its stop is pending on
the ring of a local that exists. -/
def StopSeen (cfg : Config O T S) (s : State O T S) (o : O) : Prop :=
  (∃ t, (s.thread t).holds = some o) ∨ s.status o = .waiting ∨
    ∃ t, s.status o = .onRing t ∧ s.closed t = false ∧ StopPending cfg s t o

/-- No restart is lost, and no local is destroyed with an operation on its ring. -/
def StopOk (s : State O T S) : Label O T S → Prop
  | .close t => ∀ o, s.status o ≠ .onRing t
  | a => RestartOk s a

instance [Fintype O] (s : State O T S) : ∀ a : Label O T S, Decidable (StopOk s a)
  | .close t => inferInstanceAs (Decidable (∀ o, s.status o ≠ .onRing t))
  | .start t o => inferInstanceAs (Decidable (RestartOk s (.start t o)))
  | .thread t choice => inferInstanceAs (Decidable (RestartOk s (.thread t choice)))
  | .launch t o => inferInstanceAs (Decidable (RestartOk s (.launch t o)))
  | .cancelTask t o => inferInstanceAs (Decidable (RestartOk s (.cancelTask t o)))
  | .requestStop src => inferInstanceAs (Decidable (RestartOk s (.requestStop src)))
  | .stopScope => inferInstanceAs (Decidable (RestartOk s .stopScope))
  | .fire o => inferInstanceAs (Decidable (RestartOk s (.fire o)))
  | .push o spurious => inferInstanceAs (Decidable (RestartOk s (.push o spurious)))
  | .submit t n => inferInstanceAs (Decidable (RestartOk s (.submit t n)))
  | .cancelAny t => inferInstanceAs (Decidable (RestartOk s (.cancelAny t)))
  | .post t i res => inferInstanceAs (Decidable (RestartOk s (.post t i res)))
  | .consume t pass => inferInstanceAs (Decidable (RestartOk s (.consume t pass)))
  | .sweep t b => inferInstanceAs (Decidable (RestartOk s (.sweep t b)))

omit [DecidableEq O] [DecidableEq T] [DecidableEq S] in
theorem StopOk.restartOk {s : State O T S} {a : Label O T S} (h : StopOk s a) : RestartOk s a := by
  cases a with
  | close t => trivial
  | _ => exact h

variable {cfg : Config O T S} {s s' : State O T S} {t : T} {o : O}

/-- A destroyed local has no thread and, while `StopOk` holds, no operation. -/
def ClosedOk (s : State O T S) : Prop :=
  ∀ t, s.closed t = true → s.thread t = .idle ∧ ∀ o, s.status o ≠ .onRing t

/-- No step gives a program or an SQE to the thread of a destroyed local. -/
theorem Step.closed_frame {a : Label O T S} (h : Step cfg s a s') {t : T}
    (hclosed : s.closed t = true) (hidle : s.thread t = .idle) :
    s'.thread t = .idle ∧ ∀ o, s'.status o = .onRing t → s.status o = .onRing t := by
  cases h <;>
    simp only [State.setThread, State.signal, State.issue, State.finishTask, State.enterStart] <;>
    grind

theorem Step.closed_iff {a : Label O T S} (h : Step cfg s a s') (t : T) :
    s'.closed t = true ↔ s.closed t = true ∨ a = .close t := by
  cases h with
  | @close t' =>
      by_cases ht : t = t'
      · simp [ht]
      · simp [ht, Ne.symm ht]
  | _ => simp [State.setThread, State.signal, State.issue, State.finishTask, State.enterStart]

theorem reach_closedOk (h : (machine cfg).Reach StopOk s) : ClosedOk s := by
  refine h.invariant ClosedOk ?_ ?_
  · intro s hinit t hclosed
    simp [hinit.2.2.2.2.2.2.2.1 t] at hclosed
  · intro s a s' _ hs hok hstep t hclosed
    have hstep := Step.of_step hstep
    rcases (hstep.closed_iff t).mp hclosed with hold | rfl
    · obtain ⟨hidle, hst⟩ := hs t hold
      obtain ⟨hidle', hst'⟩ := hstep.closed_frame hold hidle
      exact ⟨hidle', fun o ho => hst o (hst' o ho)⟩
    · cases hstep with
      | close hpc hopen => exact ⟨hpc, hok⟩

omit [DecidableEq S] in
theorem Linked.stopPending {own : O → Owner T} {content : T × Bucket → List O} {priv : T → List O}
    (hl : Linked cfg s own content priv) (hc : Core s) (hk : CallbackOk cfg s o)
    (hst : s.status o = .onRing t) (hstop : s.stopRequested cfg o = true) :
    StopPending cfg s t o := by
  cases hcb : s.callback o with
  | registered => exact .inr (.inl hcb)
  | running pc => exact .inr (.inr (.inl ⟨pc, hcb⟩))
  | none =>
      have htok : (cfg.token o).isSome := by
        cases h : cfg.token o with
        | none => simp [State.stopRequested, h] at hstop
        | some src => rfl
      rcases hk.silent t hst hcb htok with h | ⟨res, pass, stage, h⟩
      · exact .inl h
      · -- the thread has already reset the callback, for the CQE at the head
        have hhead := hc.consuming t o res pass stage h
        exact .inr (.inr (.inr (.inr (.inr (.inr ⟨res, List.mem_of_mem_head? hhead⟩)))))
  | ran =>
      have hlocal : s.localScheduler o = t :=
        Status.onRing.inj ((hk.live (by simp [hcb])).2.1.symm.trans hst)
      rcases (hl.ops o).seen hcb with hown | hcancel
      · cases h : own o with
        | nobody => exact absurd h hown
        | bucket q =>
            have hq := ((hl.ops o).bucket q h).2
            simp only [stoppingQueue, hlocal] at hq
            exact .inr (.inr (.inr (.inl (hl.inBucket_iff.mpr (hq ▸ h)))))
        | thread t' =>
            obtain rfl : t' = t := Status.onRing.inj (((hl.ops o).priv t' h).1.symm.trans hst)
            have hmem := (hl.chains.mem_priv t' o).mpr h
            exact .inr (.inr (.inr (.inr (.inl ⟨_, hl.chains.private_ok t', hmem⟩))))
      · exact .inr (.inr (.inr (.inr (.inr (.inl (hlocal ▸ hcancel))))))

/-- In every run in which no restart is lost and no local is destroyed with an
operation on its ring, every stop request for an operation that is started and
not completed is still on its way. -/
theorem stop_seen (h : (machine cfg).Reach StopOk s) (hstop : s.stopRequested cfg o = true)
    (hstart : 0 < s.starts o) (hlive : s.signals o = []) : StopSeen cfg s o := by
  have hc := reachable_core h.reachable
  obtain ⟨own, content, priv, hl⟩ := reachable_linked h.reachable
  have htasks := hc.tasks o
  have hsignals := hc.signals o
  cases hst : s.status o with
  | fresh =>
      simp only [hst, TasksOk] at htasks
      omega
  | busy t => exact .inl ⟨t, (hc.busy t o).mpr hst⟩
  | onRing t =>
      refine .inr (.inr ⟨t, hst, ?_, hl.stopPending hc (reachable_callbackOk h.reachable o) hst hstop⟩)
      by_contra hclosed
      exact (reach_closedOk h t (by simpa using hclosed)).2 o hst
  | waiting => exact .inr (.inl hst)
  | dropped => exact absurd hst (not_dropped (h.mono fun _ _ hok => hok.restartOk) o)
  | completed => simp [hst, hlive] at hsignals

section Lost

/-- The sweep of thread 0 has taken the operation out of its bucket and found the
SQ ring full. -/
def sweepConfig : Config (Fin 1) (Fin 2) Unit :=
  { stopConfig with entries := fun _ => 1 }

def sweepRun : List (Label (Fin 1) (Fin 2) Unit) :=
  stopRun ++ [.sweep 0 (robinAccess 3), .thread 0 false, .thread 0 false, .thread 0 false]

theorem stop_seen_sweep : ∃ s : State (Fin 1) (Fin 2) Unit,
    s.thread 0 = .sweepBack (robinAccess 3) (some 0) .test ∧ StopSeen sweepConfig s 0 := by
  have hrun : ∃ s, ((machine sweepConfig).restrict StopOk).run leaveStart sweepRun = some s ∧
      s.thread 0 = .sweepBack (robinAccess 3) (some 0) .test ∧
      s.stopRequested sweepConfig 0 = true ∧ s.starts 0 = 1 ∧ s.signals 0 = [] :=
    ⟨_, rfl, rfl, rfl, rfl, rfl⟩
  obtain ⟨s, hs, hpc, hstop, hstarts, hlive⟩ := hrun
  have hreach := Machine.Reach.restrict (.start leaveStart_init) hs
  exact ⟨s, hpc, stop_seen hreach hstop (by omega) hlive⟩

/-- Thread 0 leaves, a stop is requested for the operation and for the transfer
scope, and the restart task is launched after that. -/
def lostRun : List (Label (Fin 1) (Fin 2) Unit) :=
  [.start 0 0, .thread 0 false, .thread 0 false, .thread 0 false, .submit 0 1, .cancelAny 0,
    .post 0 0 (-ECANCELED), .consume 0 .transfer, .thread 0 false, .thread 0 false, .thread 0 false,
    .thread 0 false, .thread 0 false, .post 0 0 0, .consume 0 .transfer, .close 0,
    .requestStop (), .stopScope, .launch 1 0]

/-- Nothing is left that would see the stop request. -/
theorem stop_lost : ∃ s : State (Fin 1) (Fin 2) Unit, (machine stopConfig).Reachable s ∧
    s.stopRequested stopConfig 0 = true ∧ s.starts 0 = 1 ∧ s.signals 0 = [] ∧
      ¬ StopSeen stopConfig s 0 := by
  have hrun : ∃ s, (machine stopConfig).run leaveStart lostRun = some s ∧
      s.stopRequested stopConfig 0 = true ∧ s.starts 0 = 1 ∧ s.signals 0 = [] ∧
      s.status 0 = .dropped ∧ (∀ t, s.thread t = .idle) := by
    refine ⟨_, rfl, rfl, rfl, rfl, rfl, ?_⟩
    decide
  obtain ⟨s, hs, hstop, hstarts, hlive, hst, hidle⟩ := hrun
  refine ⟨s, .of_run leaveStart_init hs, hstop, hstarts, hlive, ?_⟩
  rintro (⟨t, h⟩ | h | ⟨t, h, -⟩)
  · simp [hidle, ThreadPc.holds] at h
  · simp [hst] at h
  · simp [hst] at h

end Lost

end IoUring.Exec.Operation
