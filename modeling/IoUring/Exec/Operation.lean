import IoUring.Base.Machine
import IoUring.Exec.IntrusiveQueue
import IoUring.Exec.Ring
import IoUring.Exec.TaskMap

/-!
# The life of `io_uring_exec_operation`

Any number of operations are started, stopped, cancelled, migrated and
completed by any number of threads. Each thread has one local, that is a ring
and a stopping map. `start()`, `uninstall_stoppable_callback` and the stopping
pass of the run loop are programs of single accesses; a stop callback pushes
from whichever thread requested the stop. A thread may take up any permitted
piece of work whenever it is not inside one of these programs, which covers
every order in which a run loop or a final pass does.
-/

namespace IoUring.Exec.Operation

/-- What does not change: the stop source of an operation (`none` for an
unstoppable token), its bucket in a stopping map (a function of its address),
whether it was prepared by `io_uring_prep_timeout`, and the size of each ring. -/
structure Config (O T S : Type*) where
  token : O → Option S
  bucket : O → Bucket
  timer : O → Bool
  entries : T → Nat

/-- `busy t`: in the hands of thread `t`, inside `start()` before its SQE or
inside `async_restart`. `onRing t`: an SQE of the local of `t` was taken and its
CQE is not dealt with. `waiting`: a restart task is queued. `dropped`: the
restart task is finished without having called `start()`. -/
inductive Status (T : Type*) where
  | fresh
  | busy (t : T)
  | onRing (t : T)
  | waiting
  | dropped
  | completed
  deriving DecidableEq

/-- The optional `stop_callback`: empty, registered, being executed, or executed
and not yet reset. -/
inductive Callback (O : Type*) where
  | none
  | registered
  | running (pc : PushPc O)
  | ran
  deriving DecidableEq

/-- What became of one restart task: still queued, launched, launched after a
stop request on its scope, cancelled by a terminal pass, or never spawned. -/
inductive Fate where
  | pending
  | launched
  | stopped
  | cancelled
  | unspawned
  deriving DecidableEq

/-- `uninstall_stoppable_callback`, then the completion or the restart. -/
inductive Uninstall (O : Type*) where
  | reset
  | moveAll (pc : MoveAllPc O)
  | before (first : Option O) (pc : PushAllPc O)
  | next
  | after (first : Option O) (pc : PushAllPc O)
  | deliver
  deriving DecidableEq

inductive ThreadPc (O : Type*) where
  | idle
  -- `start()` and `async_restart()`
  | test (o : O)
  | getSqe (o : O)
  | install (o : O)
  | spawn (o : O)
  -- the CQE at the head of the ring is being consumed
  | uninstall (o : O) (res : Int) (pass : Pass) (stage : Uninstall O)
  -- the stopping pass over one bucket
  | sweepMove (b : Bucket) (pc : MoveAllPc O)
  | sweep (b : Bucket) (op : Option O)
  | sweepBack (b : Bucket) (first : Option O) (pc : PushAllPc O)
  deriving DecidableEq

/-- `issued` lists the SQEs ever taken from a ring, newest first; `tasks` the
restart tasks of an operation, oldest first; `effects` the results with which
the kernel has carried out its requests. `localScheduler` has no value before
the first `install_stoppable_callback`, so it starts out arbitrary. -/
structure State (O T S : Type*) where
  heap : Heap O (T × Bucket)
  status : O → Status T
  callback : O → Callback O
  localScheduler : O → T
  stopSource : S → Bool
  scopeStopped : Bool
  ring : T → Ring O
  issued : T → List (Sqe O)
  thread : T → ThreadPc O
  closed : T → Bool
  starts : O → Nat
  signals : O → List Signal
  tasks : O → List Fate
  effects : O → List Int

inductive Label (O T S : Type*) where
  | start (t : T) (o : O)
  | thread (t : T) (choice : Bool)
  | launch (t : T) (o : O)
  | cancelTask (t : T) (o : O)
  | requestStop (src : S)
  | stopScope
  | fire (o : O)
  | push (o : O) (spurious : Bool)
  | submit (t : T) (n : Nat)
  | cancelAny (t : T)
  | post (t : T) (i : Nat) (res : Int)
  | consume (t : T) (pass : Pass)
  | sweep (t : T) (b : Bucket)
  | close (t : T)

/-! ## The helper task of `async_restart` -/

inductive TaskSignal where
  | setValue
  | setStopped
  deriving DecidableEq

/-- `this_vtable.complete` of `trivial_scheduler::operation`, which asks the stop
token of its receiver, here that of the transfer scope. -/
def taskComplete (stopRequested : Bool) : TaskSignal :=
  if stopRequested then .setStopped else .setValue

/-- `this_vtable.cancel` of `trivial_scheduler::operation`. -/
def taskCancel : TaskSignal := .setStopped

/-- `then(f)` calls `f` on `set_value` and forwards every other signal. -/
def thenCalls : TaskSignal → Bool
  | .setValue => true
  | .setStopped => false

section Step

variable {O T S : Type*} [DecidableEq O] [DecidableEq T] [DecidableEq S]
variable (cfg : Config O T S)

namespace State

variable (s : State O T S)

/-- `stop_requested()`. -/
def stopRequested (o : O) : Bool :=
  match cfg.token o with
  | some src => s.stopSource src
  | none => false

def setThread (t : T) (pc : ThreadPc O) : State O T S :=
  { s with thread := Function.update s.thread t pc }

/-- One of the completion functions is called on the receiver. -/
def signal (o : O) (sig : Signal) : State O T S :=
  { s with
    status := Function.update s.status o .completed
    signals := Function.update s.signals o (s.signals o ++ [sig]) }

/-- An entry prepared on the ring of thread `t`. -/
def issue (t : T) (r : Ring O) (e : Sqe O) : State O T S :=
  { s with
    ring := Function.update s.ring t r
    issued := Function.update s.issued t (e :: s.issued t) }

/-- The newest restart task of `o` is finished. -/
def finishTask (o : O) (fate : Fate) : State O T S :=
  { s with tasks := Function.update s.tasks o ((s.tasks o).dropLast ++ [fate]) }

/-- Thread `t` calls `start()`. -/
def enterStart (t : T) (o : O) : State O T S :=
  { s with
    status := Function.update s.status o (.busy t)
    starts := Function.update s.starts o (s.starts o + 1)
    thread := Function.update s.thread t (.test o) }

end State

/-- The stopping-map queue of `get_stopping_queue`, on the local that the
operation was started on. -/
def stoppingQueue (s : State O T S) (o : O) : T × Bucket :=
  (s.localScheduler o, cfg.bucket o)

/-- One step of `uninstall_stoppable_callback` for the CQE at the head of the
ring of `t`; the last stage dispatches the CQE. -/
def uninstallStep (s : State O T S) (t : T) (o : O) (res : Int) (pass : Pass) (spurious : Bool) :
    Uninstall O → Option (State O T S)
  | .reset =>
      match s.callback o with
      | .running _ => none
      | _ => some ({ s with callback := Function.update s.callback o .none }.setThread t
          (.uninstall o res pass (.moveAll .load)))
  | .moveAll pc =>
      match moveAllStep s.heap (stoppingQueue cfg s o) spurious pc with
      | (h, .running pc') =>
          some ({ s with heap := h }.setThread t (.uninstall o res pass (.moveAll pc')))
      | (h, .returned none) =>
          some ({ s with heap := h }.setThread t (.uninstall o res pass .deliver))
      | (h, .returned (some op)) =>
          some ({ s with heap := h }.setThread t (.uninstall o res pass (.before (some op) .test)))
  | .before first pc =>
      match pushAllStep s.heap (stoppingQueue cfg s o) first (fun node => node ≠ o) spurious pc with
      | (h, .running pc') =>
          some ({ s with heap := h }.setThread t (.uninstall o res pass (.before first pc')))
      | (h, .returned _) =>
          some ({ s with heap := h }.setThread t (.uninstall o res pass .next))
  | .next => some (s.setThread t (.uninstall o res pass (.after (s.heap.next o) .test)))
  | .after first pc =>
      match pushAllStep s.heap (stoppingQueue cfg s o) first (fun _ => true) spurious pc with
      | (h, .running pc') =>
          some ({ s with heap := h }.setThread t (.uninstall o res pass (.after first pc')))
      | (h, .returned _) =>
          some ({ s with heap := h }.setThread t (.uninstall o res pass .deliver))
  | .deliver =>
      let s' := { s with ring := Function.update s.ring t ((s.ring t).advance 1) }
      match consumeOne pass (cfg.timer o) res with
      | .restart => some ({ s' with
          status := Function.update s.status o (.busy t) }.setThread t (.spawn o))
      | .complete sig => some ((s'.signal o sig).setThread t .idle)

/-- One step of thread `t`. `choice` is a spurious failure of a weak
compare-exchange, or whether `spawn` throws. -/
def threadStep (s : State O T S) (t : T) (choice : Bool) : Option (State O T S) :=
  match s.thread t with
  | .idle => none
  | .test o =>
      if s.stopRequested cfg o then some ((s.signal o .setStopped).setThread t .idle)
      else some (s.setThread t (.getSqe o))
  | .getSqe o =>
      match (s.ring t).getSqe (cfg.entries t) (.request o) with
      | some r => some ({ s.issue t r (.request o) with
          status := Function.update s.status o (.onRing t) }.setThread t (.install o))
      | none => some (s.setThread t (.spawn o))
  | .install o =>
      match cfg.token o with
      | none => some (s.setThread t .idle)
      | some src =>
          -- a callback emplaced after the stop request runs at once
          some ({ s with
            localScheduler := Function.update s.localScheduler o t
            callback := Function.update s.callback o
              (if s.stopSource src then .running .load else .registered) }.setThread t .idle)
  | .spawn o =>
      if choice then
        some (({ s with tasks := Function.update s.tasks o (s.tasks o ++ [Fate.unspawned]) }.signal o
          .setException).setThread t .idle)
      else
        some ({ s with
          tasks := Function.update s.tasks o (s.tasks o ++ [Fate.pending])
          status := Function.update s.status o .waiting }.setThread t .idle)
  | .uninstall o res pass stage => uninstallStep cfg s t o res pass choice stage
  | .sweepMove b pc =>
      match moveAllStep s.heap (t, b) choice pc with
      | (h, .running pc') => some ({ s with heap := h }.setThread t (.sweepMove b pc'))
      | (h, .returned op) => some ({ s with heap := h }.setThread t (.sweep b op))
  | .sweep _ none => some (s.setThread t .idle)
  | .sweep b (some op) =>
      match (s.ring t).getSqe (cfg.entries t) (.cancel op) with
      | some r =>
          some ({ s.issue t r (.cancel op) with
            heap := s.heap.setNext op none }.setThread t (.sweep b (s.heap.next op)))
      | none => some (s.setThread t (.sweepBack b (some op) .test))
  | .sweepBack b first pc =>
      match pushAllStep s.heap (t, b) first (fun _ => true) choice pc with
      | (h, .running pc') => some ({ s with heap := h }.setThread t (.sweepBack b first pc'))
      | (h, .returned _) => some ({ s with heap := h }.setThread t .idle)

/-- A runner, or the terminal pass, ends the queued restart task of `o` with a
signal; `then` calls `start()` on `set_value` only. -/
def finishRestart (s : State O T S) (t : T) (o : O) (sig : TaskSignal) (lost : Fate) :
    State O T S :=
  if thenCalls sig then (s.finishTask o .launched).enterStart t o
  else { s.finishTask o lost with status := Function.update s.status o .dropped }

def step (s : State O T S) : Label O T S → Option (State O T S)
  | .start t o =>
      if s.thread t = .idle ∧ s.closed t = false ∧ s.status o = .fresh then
        some (s.enterStart t o)
      else none
  | .thread t choice => threadStep cfg s t choice
  | .launch t o =>
      if s.thread t = .idle ∧ s.closed t = false ∧ s.status o = .waiting then
        some (finishRestart s t o (taskComplete s.scopeStopped) .stopped)
      else none
  | .cancelTask t o =>
      if s.thread t = .idle ∧ s.closed t = false ∧ s.status o = .waiting then
        some (finishRestart s t o taskCancel .cancelled)
      else none
  | .requestStop src => some { s with stopSource := Function.update s.stopSource src true }
  | .stopScope => some { s with scopeStopped := true }
  | .fire o =>
      if s.callback o = .registered ∧ s.stopRequested cfg o = true then
        some { s with callback := Function.update s.callback o (.running .load) }
      else none
  | .push o spurious =>
      match s.callback o with
      | .running pc =>
          match pushStep s.heap (stoppingQueue cfg s o) o spurious pc with
          | (h, .running pc') => some { s with
              heap := h
              callback := Function.update s.callback o (.running pc') }
          | (h, .returned _) => some { s with
              heap := h
              callback := Function.update s.callback o .ran }
      | _ => none
  | .submit t n =>
      if s.thread t = .idle ∧ s.closed t = false then
        some { s with ring := Function.update s.ring t ((s.ring t).submit n) }
      else none
  | .cancelAny t =>
      if s.thread t = .idle ∧ s.closed t = false then
        let r := (s.ring t).submit (s.ring t).sq.length
        match r.getSqe (cfg.entries t) .cancelAny with
        | some r' => some (s.issue t (r'.submit r'.sq.length) .cancelAny)
        | none => none
      else none
  | .post t i res =>
      match (s.ring t).post i res with
      | some (e, r) => some { s with
          ring := Function.update s.ring t r
          effects := match e.data with
            | some o => if res = -ECANCELED then s.effects
                else Function.update s.effects o (s.effects o ++ [res])
            | none => s.effects }
      | none => none
  | .consume t pass =>
      if s.thread t = .idle ∧ s.closed t = false then
        match (s.ring t).cq with
        | [] => none
        | ⟨none, _⟩ :: _ =>
            some { s with ring := Function.update s.ring t ((s.ring t).advance 1) }
        | ⟨some o, res⟩ :: _ =>
            let stage := if (cfg.token o).isSome then Uninstall.reset else Uninstall.deliver
            some (s.setThread t (.uninstall o res pass stage))
      else none
  | .sweep t b =>
      if s.thread t = .idle ∧ s.closed t = false then
        some (s.setThread t (.sweepMove b .load))
      else none
  | .close t =>
      if s.thread t = .idle ∧ s.closed t = false then
        some { s with closed := Function.update s.closed t true }
      else none

/-- Nothing started yet; the stop sources and the members without an initialiser
are arbitrary. -/
def Init (s : State O T S) : Prop :=
  (∀ o, s.heap.next o = none) ∧ (∀ q, s.heap.head q = none) ∧ (∀ o, s.status o = .fresh) ∧
    (∀ o, s.callback o = .none) ∧ (∀ t, s.ring t = .empty) ∧ (∀ t, s.issued t = []) ∧
    (∀ t, s.thread t = .idle) ∧ (∀ t, s.closed t = false) ∧ (∀ o, s.starts o = 0) ∧
    (∀ o, s.signals o = []) ∧ (∀ o, s.tasks o = []) ∧ ∀ o, s.effects o = []

def machine : Machine (State O T S) (Label O T S) where
  init := Init
  step := step cfg

end Step

end IoUring.Exec.Operation
