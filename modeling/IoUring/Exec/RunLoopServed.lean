import IoUring.Exec.RunLoopInvariant

/-!
# What the pass of a leaving thread has done

All loops on one executor share `_runloop_must_have_stopped`. A thread that
leaves `run()` through the stop branch makes its terminal pass if and only if no
thread has left the same object this way before the pass tests the flag. The
transfer pass of `~io_uring_exec_local` empties the ring if and only if every
operation that took an SQE during the pass had its CQE posted before the last
peek.
-/

namespace IoUring.Exec.RunLoop

variable {O T : Type*} [DecidableEq O] [DecidableEq T]

/-- At the test of the flag by a terminal pass of the stop branch, no thread has
left the same object through the stop branch. -/
def State.firstToLeave (s : State O T) : Label O T → Bool
  | .thread t _ =>
      match s.thread t with
      | .run f (.stopRequest _) .check => s.exits.all fun e => e.loop ≠ f.loop
      | _ => true
  | _ => true

variable {cfg : Config O T} {s s' : State O T} {t : T} {f : Frame T} {c : Caller T} {ch : Choice}

/-- A thread that leaves through the stop branch as the first one has made its
pass. -/
theorem step_first {a : Label O T} (hinv : LoopInv s) (hok : s.firstToLeave a = true)
    (h : Step cfg s a s') {e : Exit O T} (he : e ∈ s'.exits) :
    e ∈ s.exits ∨ e.pass.first = true := by
  rcases step_exits h he with he | ⟨t, ch, f, outer, pc, rfl, hleaves⟩
  · exact .inl he
  have ht := hinv.threads t
  rw [hleaves.thread] at ht
  rcases hleaves.pass with ⟨rfl, hpass⟩ | ⟨rfl, hpass⟩
  · exact .inr (by simpa [State.firstToLeave, hleaves.thread, hpass] using hok)
  · rw [hpass]
    exact .inr ((ht.2 (by simp)).entered (by simp)).2

/-- In every run, a thread that leaves `run()` through the stop branch has made
its terminal pass if and only if no thread had left the same object this way when
the pass tested the flag; and when this is so at every such test, every thread
that leaves has made its pass. -/
theorem stop_request_served :
    (∀ s, (machine cfg).Reachable s → ∀ e ∈ s.exits, (Served e.pass ↔ e.pass.first = true)) ∧
      ∀ s, (machine cfg).Reach (fun s a => s.firstToLeave a = true) s →
        ∀ e ∈ s.exits, Served e.pass := by
  refine ⟨fun s h => (reachable_inv h).served, fun s h e he => ?_⟩
  have hfirst : ∀ e ∈ s.exits, e.pass.first = true := by
    refine h.invariant (fun s => ∀ e ∈ s.exits, e.pass.first = true) (fun s hs => ?_)
      fun s a s' hs ih hok hstep e he => ?_
    · obtain ⟨-, -, -, -, -, -, -, -, -, hexits, -⟩ := hs
      simp [hexits]
    · rcases step_first (reachable_inv hs) hok (.of_step hstep) he with he | he
      · exact ih e he
      · exact he
  exact ((reachable_inv h).served e he).mpr (hfirst e he)

section Pair

/-- Two threads and two operations. -/
def pairConfig : Config (Fin 2) (Fin 2) where
  entries := fun _ => 8
  bucket := fun _ => robinAccess 0
  main := 0

def pairStart : State (Fin 2) (Fin 2) where
  exec := {
    immediate := fun _ => []
    storeBalance := 0
    stopRequested := false
    scopeStopped := false
    runningLocal := 0
    alive := true }
  locals := fun _ => ⟨[], fun _ => [], 0, .empty, .absent⟩
  mustStop := fun _ => false
  walltimeStep := fun _ => 0
  thread := fun _ => .outside
  result := fun _ => none
  nextTask := 0
  pass := fun _ => {}
  exits := []
  place := fun _ => none
  finished := fun _ => 0
  immediateAtDestroy := fun _ => []
  attachedAtDestroy := []
  wild := false

theorem pairStart_init : (machine pairConfig).init pairStart :=
  ⟨rfl, rfl, rfl, rfl, fun _ => rfl, fun _ => ⟨rfl, rfl, rfl, rfl, fun _ => rfl⟩,
    fun _ => rfl, fun _ => rfl, rfl, rfl, fun _ => rfl, fun _ => rfl, rfl⟩

def draw : Choice := { bucket := robinAccess 5 }

/-- `n` steps of thread `t`. -/
def goes (t : Fin 2) (n : Nat) : List (Label (Fin 2) (Fin 2)) :=
  List.replicate n (.thread t draw)

/-- Both threads test the flag before one of them sets it. -/
def bothRun : List (Label (Fin 2) (Fin 2)) :=
  [.user 1 (.start 1) draw, .user 0 (.call .exec defaultPolicy) draw,
      .user 1 (.call .exec defaultPolicy) draw] ++ goes 0 1 ++ goes 1 1 ++ [.requestStop] ++
    goes 0 13 ++ goes 1 13 ++ [.post 1 0 (-ECANCELED)] ++ goes 0 2 ++ goes 1 2 ++ goes 0 12 ++
    goes 1 10 ++ [.user 1 .ret draw] ++ goes 1 5

theorem stop_request_served_both : ∃ s : State (Fin 2) (Fin 2), s.exits.map Exit.thread = [1, 0] ∧
    (∀ e ∈ s.exits, Served e.pass ↔ e.pass.first = true) ∧ ∀ e ∈ s.exits, Served e.pass := by
  have hrun : ∃ s, ((machine pairConfig).restrict fun s a => s.firstToLeave a = true).run pairStart
      bothRun = some s ∧ s.exits.map Exit.thread = [1, 0] := ⟨_, rfl, rfl⟩
  obtain ⟨s, hs, hexits⟩ := hrun
  have hreach := Machine.Reach.restrict (.start pairStart_init) hs
  exact ⟨s, hexits, stop_request_served.1 s hreach.reachable, stop_request_served.2 s hreach⟩

/-- Thread 0 leaves before thread 1 comes to its terminal pass. -/
def leftRun : List (Label (Fin 2) (Fin 2)) :=
  [.user 1 (.start 1) draw, .user 0 (.call .exec defaultPolicy) draw,
      .user 1 (.call .exec defaultPolicy) draw] ++ goes 0 1 ++ goes 1 1 ++ [.requestStop] ++
    goes 0 27 ++ goes 1 13 ++ [.post 1 0 (-ECANCELED)] ++ goes 1 2

/-- The CQE in the ring of thread 1 is not delivered. -/
theorem stop_request_unserved : ∃ s : State (Fin 2) (Fin 2), (machine pairConfig).Reachable s ∧
    ∃ e ∈ s.exits, e.thread = 1 ∧ e.pass.startCq = [⟨some 1, -ECANCELED⟩] ∧ ¬ Served e.pass := by
  have hrun : ∃ s e rest, (machine pairConfig).run pairStart leftRun = some s ∧
      s.exits = e :: rest ∧ e.thread = 1 ∧ e.pass.startCq = [⟨some 1, -ECANCELED⟩] ∧
      e.pass.entered = false := ⟨_, _, _, rfl, rfl, rfl, rfl, rfl⟩
  obtain ⟨s, e, rest, hs, hexits, hthread, hcq, hentered⟩ := hrun
  exact ⟨s, .of_run pairStart_init hs, e, by simp [hexits], hthread, hcq, by simp [Served, hentered]⟩

end Pair

/-! ## The ring of a thread that ends -/

/-- When the transfer pass of `~io_uring_exec_local` has returned, and it began with no
operation in flight, no operation is prepared, in flight or posted on the ring if and only if no thread had left the
loop of this local through the stop branch or no operation had a CQE when the
pass began, and every operation that took an SQE during the pass had its CQE
posted before the last peek. -/
theorem local_dtor_drained (h : (machine cfg).Reachable s) (hpc : s.thread t = .detach)
    (hsettled : (s.pass t).settled = true) :
    (∀ o, (s.locals t).ring.tokens o = 0) ↔
      ((s.pass t).first = true ∨ ∀ o, opCount ((s.pass t).startCq.map Cqe.data) o = 0) ∧
        ∀ o, (s.pass t).taken.count o ≤ opCount ((s.pass t).lastPosted.map Cqe.data) o := by
  have ht := (reachable_inv h).threads t
  rw [hpc] at ht
  exact PassEnd.tokens ht hsettled

section Ends

/-- Thread 1 ends with an operation in flight, and a task attached to it starts another
one in the transfer pass, which submits it. -/
def startRun : List (Label (Fin 2) (Fin 2)) :=
  [.user 1 (.start 1) draw, .user 1 (.scheduleOn 1) draw, .user 1 .exit draw] ++ goes 1 1 ++
    [.post 1 0 (-ECANCELED)] ++ goes 1 4 ++ [.user 1 (.start 0) draw, .user 1 .ret draw] ++
    goes 1 3

/-- Both are handed over when the second one has its CQE in time. -/
theorem local_dtor_drained_hand_over : ∃ s : State (Fin 2) (Fin 2), s.thread 1 = .detach ∧
    (s.pass 1).taken = [0] ∧ s.exec.immediate (robinAccess 0) = [⟨1, some 1⟩] ∧
    s.exec.immediate (robinAccess 1) = [⟨2, some 0⟩] ∧ ∀ o, (s.locals 1).ring.tokens o = 0 := by
  have hrun : ∃ s, (machine pairConfig).run pairStart (startRun ++ [.post 1 1 7] ++ goes 1 8) = some s ∧
      s.thread 1 = .detach ∧ (s.pass 1).settled = true ∧ (s.pass 1).first = true ∧
      (s.pass 1).taken = [0] ∧ (s.pass 1).lastPosted = [⟨some 0, 7⟩] ∧
      s.exec.immediate (robinAccess 0) = [⟨1, some 1⟩] ∧
      s.exec.immediate (robinAccess 1) = [⟨2, some 0⟩] := ⟨_, rfl, rfl, rfl, rfl, rfl, rfl, rfl, rfl⟩
  obtain ⟨s, hs, hpc, hsettled, hfirst, htaken, hlast, htasks⟩ := hrun
  refine ⟨s, hpc, htaken, htasks.1, htasks.2, ?_⟩
  refine (local_dtor_drained (.of_run pairStart_init hs) hpc hsettled).mpr ⟨.inl hfirst, ?_⟩
  rw [htaken, hlast]
  decide

/-- The operation is in flight on the ring that is about to be closed. -/
theorem local_dtor_leaves : ∃ s : State (Fin 2) (Fin 2), (machine pairConfig).Reachable s ∧
    s.thread 1 = .detach ∧ (s.pass 1).settled = true ∧
    (s.locals 1).ring.flight = [.cancelAny, .request 0] := by
  have hrun : ∃ s, (machine pairConfig).run pairStart (startRun ++ goes 1 7) = some s ∧
      s.thread 1 = .detach ∧ (s.pass 1).settled = true ∧
      (s.locals 1).ring.flight = [.cancelAny, .request 0] := ⟨_, rfl, rfl, rfl, rfl⟩
  obtain ⟨s, hs, hpc, hrest⟩ := hrun
  exact ⟨s, .of_run pairStart_init hs, hpc, hrest⟩

end Ends

end IoUring.Exec.RunLoop
