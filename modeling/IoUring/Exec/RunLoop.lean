import IoUring.Base.Machine
import IoUring.Exec.Ring
import IoUring.Exec.TaskMap

/-!
# `io_uring_exec_run`, the final passes and the two destructors

Any number of threads run loops on one executor. A thread executes one access
to a queue, a ring or a flag at a time; a queue is a list, newest task first.
Inside the callback of a task or of a CQE, and outside of the loop, the user may
start operations and schedule tasks. `io_uring_submit` takes every prepared
entry. User code does not call `run()` from a callback.
-/

namespace IoUring.Exec.RunLoop

structure Config (O T : Type*) where
  /-- The size of the SQ ring. -/
  entries : T → Nat
  /-- The bucket of an operation in a stopping map. -/
  bucket : O → Bucket
  /-- `_thread_id`, the thread that constructs the executor. -/
  main : T

/-- A queued task has a number of its own; a task of `async_restart` starts an
operation. -/
structure Task (O : Type*) where
  id : Nat
  restartOf : Option O
  deriving DecidableEq

/-- The flags of `run_policy` that `run()` looks at. -/
structure RunPolicy where
  concurrent : Bool := true
  weaklyParallel : Bool := false
  weaklyConcurrent : Bool := false
  launch : Bool := true
  submit : Bool := true
  iodone : Bool := true
  autoquit : Bool := false
  waitable : Bool := false
  detached : Bool := false
  noDelay : Bool := false
  blocking : Bool := false
  locality : Bool := false
  transfer : Bool := false
  terminal : Bool := false
  iodoneBatch : Nat := 64
  iodoneMaxnr : Nat := 512
  exclusive : concurrent.toNat + weaklyParallel.toNat + weaklyConcurrent.toNat = 1 := by decide
  deriving DecidableEq

/-- The policy of `run()` when the caller names none. -/
def defaultPolicy : RunPolicy := {}

/-- The policy of a caller that names `weakly_parallel` only. -/
def weaklyParallelPolicy : RunPolicy :=
  { concurrent := false, weaklyParallel := true }

/-- The policy of `transfer_run`. -/
def transferPolicy : RunPolicy :=
  { concurrent := false, weaklyParallel := true, transfer := true }

/-- The policy of `inplace_terminal_run`. -/
def terminalPolicy : RunPolicy :=
  { concurrent := false, weaklyParallel := true, terminal := true }

structure RunProgressInfo where
  loopStep : Nat := 0
  launched : Nat := 0
  submitted : Nat := 0
  done : Nat := 0
  deriving DecidableEq

/-- `operator+=`. -/
def RunProgressInfo.add (l r : RunProgressInfo) : RunProgressInfo where
  loopStep := l.loopStep + r.loopStep
  launched := l.launched + r.launched
  submitted := l.submitted + r.submitted
  done := l.done + r.done

/-- `operator()`. -/
def RunProgressInfo.final (info : RunProgressInfo) (finalStep : Nat) : RunProgressInfo :=
  { info with loopStep := finalStep }

/-- The objects that derive from `io_uring_exec_run`. -/
inductive Loop (T : Type*) where
  | exec
  | own (t : T)
  deriving DecidableEq

inductive LaunchSource where
  | attached
  | robin
  | random
  deriving DecidableEq

/-- The points of `run()` between two accesses. `visit` lists what is left of
the drained chain and the queues still to be launched in this step; `consume`
what is left of a batch of `some` CQEs. -/
inductive LoopPc (O : Type*) where
  | check
  | launch (sources : List LaunchSource)
  | visit (tasks : List (Task O)) (sources : List LaunchSource)
  | submit
  | wait
  | peek
  | consume (rest : List (Cqe O)) (some : Nat)
  | stopping
  | cancelling (b : Bucket) (ops : List O)
  | tail
  deriving DecidableEq

/-- The locals of one activation of `run()`. -/
structure Frame (T : Type*) where
  loop : Loop T
  policy : RunPolicy
  step : Nat := 1
  info : RunProgressInfo := {}
  oneStep : RunProgressInfo := {}
  deriving DecidableEq

/-- Who has called `run()`: the user, the stop branch of the activation `outer`,
or one of the destructors. -/
inductive Caller (T : Type*) where
  | user
  | stopRequest (outer : Frame T)
  | localDtor
  | execTransfer
  | execTerminal
  deriving DecidableEq

/-- `command` is `submit_destructive_command`, `drain` its second submission. -/
inductive ThreadPc (O T : Type*) where
  | outside
  | command (f : Frame T) (c : Caller T)
  | drain (f : Frame T) (c : Caller T)
  | run (f : Frame T) (c : Caller T) (pc : LoopPc O)
  | callback (f : Frame T) (c : Caller T) (pc : LoopPc O)
  | waitLocals
  | detach
  | ended
  deriving DecidableEq

inductive Stage where
  | absent
  | alive
  | closed
  deriving DecidableEq

/-- `io_uring_exec_local`. -/
structure IoUringExecLocal (O : Type*) where
  attached : List (Task O)
  stopping : Bucket → List O
  inflight : BitVec 64
  ring : Ring O
  stage : Stage

/-- `io_uring_exec`. -/
structure IoUringExec (O : Type*) where
  immediate : Bucket → List (Task O)
  storeBalance : Nat
  stopRequested : Bool
  scopeStopped : Bool
  runningLocal : Nat
  alive : Bool

/-- What happened since a final pass of a thread began: what it found, the requests
that were in flight included, the tasks it cancelled, the CQEs it dealt with, the operations that took an SQE, the CQEs
that were posted, those that were posted when it last peeked, the buckets it
drained and the buckets into which the thread has pushed, with the number of
buckets drained before. -/
structure PassLog (O : Type*) where
  entered : Bool := false
  first : Bool := false
  startAttached : List (Task O) := []
  startCq : List (Cqe O) := []
  startFlight : List (Sqe O) := []
  startImmediate : Bucket → List (Task O) := fun _ => []
  cancelled : List (Task O) := []
  delivered : List (Cqe O) := []
  taken : List O := []
  posted : List (Cqe O) := []
  lastPosted : List (Cqe O) := []
  drains : List Bucket := []
  pushes : List (Nat × Bucket) := []

/-- One return from `run()` through its stop branch. -/
structure Exit (O T : Type*) where
  thread : T
  loop : Loop T
  pass : PassLog O

inductive Place (T : Type*) where
  | bucket (b : Bucket)
  | attached (t : T)
  | visiting (t : T)
  | finished
  deriving DecidableEq

/-- `mustStop` and `walltimeStep` are the members of `io_uring_exec_run`. The
fields from `pass` on are history; `wild` records an access to the executor
after its destruction. -/
structure State (O T : Type*) where
  exec : IoUringExec O
  locals : T → IoUringExecLocal O
  mustStop : Loop T → Bool
  walltimeStep : Loop T → Nat
  thread : T → ThreadPc O T
  result : T → Option RunProgressInfo
  nextTask : Nat
  pass : T → PassLog O
  exits : List (Exit O T)
  place : Nat → Option (Place T)
  finished : Nat → Nat
  immediateAtDestroy : Bucket → List (Task O)
  attachedAtDestroy : List (Task O)
  wild : Bool

/-- The choices of one step: the draw of `random_access()`, whether `spawn`
throws, and whether the stop token of an operation and the external stop token
of `run()` are stopped. -/
structure Choice where
  bucket : Bucket
  throws : Bool := false
  stopped : Bool := false
  external : Bool := false

inductive UserAct (O T : Type*) where
  | start (o : O)
  | schedule
  | scheduleOn (t : T)
  | ret
  | call (loop : Loop T) (policy : RunPolicy)
  | exit
  | destroy

inductive Label (O T : Type*) where
  | thread (t : T) (c : Choice)
  | user (t : T) (act : UserAct O T) (c : Choice)
  | post (t : T) (i : Nat) (res : Int)
  | stopPush (t : T) (o : O)
  | requestStop
  | stopScope

section Step

variable {O T : Type*} [DecidableEq O] [DecidableEq T]

namespace State

variable (s : State O T)

def setThread (t : T) (pc : ThreadPc O T) : State O T :=
  { s with thread := Function.update s.thread t pc }

def setLocal (t : T) (l : IoUringExecLocal O) : State O T :=
  { s with locals := Function.update s.locals t l }

/-- A new content of one bucket of the stopping map of `t`. -/
def setStopping (t : T) (b : Bucket) (ops : List O) : State O T :=
  s.setLocal t { s.locals t with
    stopping := Function.update (s.locals t).stopping b ops }

def setPass (t : T) (p : PassLog O) : State O T :=
  { s with pass := Function.update s.pass t p }

/-- An access to the executor. -/
def touch : State O T :=
  { s with wild := s.wild || !s.exec.alive }

def touchLoop : Loop T → State O T
  | .exec => s.touch
  | .own _ => s

/-- `get_local()`, which constructs the local of the thread at the first call. -/
def getLocal (t : T) : State O T :=
  let s := s.touch
  match (s.locals t).stage with
  | .absent => { s.setLocal t { s.locals t with stage := .alive } with
      exec := { s.exec with runningLocal := s.exec.runningLocal + 1 } }
  | _ => s

/-- `start_operation(io_uring_exec *, operation)`. -/
def pushImmediate (t : T) (restartOf : Option O) : State O T :=
  let s := s.touch
  let b := robinAccess s.exec.storeBalance
  { s with
    exec := { s.exec with
      storeBalance := s.exec.storeBalance + 1
      immediate := Function.update s.exec.immediate b
        (⟨s.nextTask, restartOf⟩ :: s.exec.immediate b) }
    nextTask := s.nextTask + 1
    place := Function.update s.place s.nextTask (some (.bucket b))
    pass := Function.update s.pass t { s.pass t with
      pushes := ((s.pass t).drains.length, b) :: (s.pass t).pushes } }

/-- `start_operation(io_uring_exec_local *, operation)`. -/
def pushAttached (t : T) : State O T :=
  { s.setLocal t { s.locals t with
      attached := ⟨s.nextTask, none⟩ :: (s.locals t).attached } with
    nextTask := s.nextTask + 1
    place := Function.update s.place s.nextTask (some (.attached t)) }

/-- The second component of these functions says whether the receiver of the
operation was completed, so that user code runs. -/
def asyncRestart (t : T) (o : O) (throws : Bool) : State O T × Bool :=
  if throws then (s.touch, true) else (s.pushImmediate t (some o), false)

/-- An SQE is prepared on the ring of `t` and counted by `add_inflight()`. -/
def takeSqe (t : T) (r : Ring O) (taken : List O) : State O T :=
  (s.setLocal t { s.locals t with
    ring := r
    inflight := (s.locals t).inflight + 1 }).setPass t
      { s.pass t with taken := taken ++ (s.pass t).taken }

end State

/-- `io_uring_exec_operation::start()`. -/
def startOp (cfg : Config O T) (s : State O T) (t : T) (o : O) (c : Choice) : State O T × Bool :=
  if c.stopped then (s, true)
  else
    let s := s.getLocal t
    match (s.locals t).ring.getSqe (cfg.entries t) (.request o) with
    | some r => (s.takeSqe t r [o], false)
    | none => s.asyncRestart t o c.throws

/-- The loop goes on at `pc`, after user code has run if `called`. -/
def State.resume (s : State O T) (t : T) (f : Frame T) (c : Caller T) (pc : LoopPc O)
    (called : Bool) : State O T :=
  s.setThread t (if called then .callback f c pc else .run f c pc)

/-! ## The parts of one loop step -/

def afterIodone (p : RunPolicy) : LoopPc O :=
  if p.blocking then .tail else .stopping

def afterSubmit (p : RunPolicy) : LoopPc O :=
  if p.iodone then .peek else afterIodone p

def afterLaunch (p : RunPolicy) : LoopPc O :=
  if p.submit then .submit else afterSubmit p

def launchSources (p : RunPolicy) : List LaunchSource :=
  if p.launch then
    if p.transfer then [.attached] else [.attached, .robin, .random]
  else []

/-- The order in which `launch` visits a drained chain. -/
def launchOrder (p : RunPolicy) (tasks : List (Task O)) : List (Task O) :=
  if p.locality then tasks else tasks.reverse

/-- The drained tasks are in the hands of thread `t`. -/
def State.visiting (s : State O T) (t : T) (tasks : List (Task O)) : State O T :=
  { s with place := fun k => if k ∈ tasks.map Task.id then some (.visiting t) else s.place k }

/-- `move_all` on the attached queue. -/
def State.drainAttached (s : State O T) (t : T) : State O T :=
  (s.setLocal t { s.locals t with attached := [] }).visiting t (s.locals t).attached

/-- `move_all` on a bucket of `_immediate_map`. -/
def State.drainBucket (s : State O T) (t : T) (b : Bucket) : State O T :=
  let s := s.touch
  ({ s with exec := { s.exec with immediate := Function.update s.exec.immediate b [] } }.setPass t
    { s.pass t with drains := (s.pass t).drains ++ [b] }).visiting t (s.exec.immediate b)

/-- `launch` up to the first task, on a bucket. -/
def launchBucket (s : State O T) (t : T) (f : Frame T) (c : Caller T) (b : Bucket)
    (sources : List LaunchSource) : State O T :=
  (s.drainBucket t b).setThread t
    (.run f c (.visit (launchOrder f.policy (s.exec.immediate b)) sources))

def launchStep (s : State O T) (t : T) (f : Frame T) (c : Caller T) (draw : Bucket) :
    List LaunchSource → State O T
  | [] => s.setThread t (.run f c (afterLaunch f.policy))
  | .attached :: sources => (s.drainAttached t).setThread t
      (.run f c (.visit (launchOrder f.policy (s.locals t).attached) sources))
  | .robin :: sources =>
      launchBucket s t f c (robinAccess (s.walltimeStep f.loop)) sources
  | .random :: sources => launchBucket s t f c draw sources

/-- A task is gone when its `complete` or `cancel` has been called. -/
def State.finishTask (s : State O T) (k : Task O) : State O T :=
  { s with
    place := Function.update s.place k.id (some .finished)
    finished := Function.update s.finished k.id (s.finished k.id + 1) }

/-- The call of `complete` or `cancel` on task `k`. -/
def visitStep (cfg : Config O T) (s : State O T) (t : T) (f : Frame T) (c : Caller T) (k : Task O)
    (rest : List (Task O)) (sources : List LaunchSource) (ch : Choice) : State O T :=
  let s := s.finishTask k
  if f.policy.terminal then
    (s.setPass t { s.pass t with cancelled := k :: (s.pass t).cancelled }).resume t f c
      (.visit rest sources) k.restartOf.isNone
  else
    let f := { f with oneStep := { f.oneStep with launched := f.oneStep.launched + 1 } }
    match k.restartOf with
    | none => s.resume t f c (.visit rest sources) true
    | some o =>
        let s := s.touch
        if s.exec.scopeStopped then s.resume t f c (.visit rest sources) false
        else
          let r := startOp cfg s t o ch
          r.1.resume t f c (.visit rest sources) r.2

def submitStep (s : State O T) (t : T) (f : Frame T) (c : Caller T) : State O T :=
  let l := s.locals t
  let f := { f with oneStep := { f.oneStep with submitted := l.ring.sq.length } }
  (s.setLocal t { l with ring := l.ring.submit l.ring.sq.length }).setThread t
    (.run f c (if f.policy.waitable then .wait else afterSubmit f.policy))

def peekStep (s : State O T) (t : T) (f : Frame T) (c : Caller T) : State O T :=
  match (s.locals t).ring.cq.take f.policy.iodoneBatch with
  | [] => (s.setPass t { s.pass t with lastPosted := (s.pass t).posted }).setThread t
      (.run f c (afterIodone f.policy))
  | cqes => s.setThread t (.run f c (.consume cqes cqes.length))

/-- The lambda `greedy`, after `done` was increased. -/
def greedy (p : RunPolicy) (done some : Nat) : Bool :=
  if p.transfer || p.terminal then false
  else if done > p.iodoneMaxnr then true
  else if some ≠ p.iodoneBatch then !p.noDelay
  else false

/-- `uninstall_stoppable_callback`. -/
def uninstall (cfg : Config O T) (s : State O T) (t : T) (o : O) : State O T :=
  s.setStopping t (cfg.bucket o) (((s.locals t).stopping (cfg.bucket o)).erase o)

/-- `consume_one` on CQE `e`. -/
def consumeStep (cfg : Config O T) (s : State O T) (t : T) (f : Frame T) (c : Caller T) (e : Cqe O)
    (rest : List (Cqe O)) (some : Nat) (ch : Choice) : State O T :=
  let s := s.setPass t { s.pass t with delivered := (s.pass t).delivered ++ [e] }
  match e.data with
  | none => s.setThread t (.run f c (.consume rest some))
  | .some o =>
      let s := uninstall cfg s t o
      if f.policy.transfer then
        let r := s.asyncRestart t o ch.throws
        r.1.resume t f c (.consume rest some) r.2
      else s.resume t f c (.consume rest some) true

/-- The end of a batch. -/
def advanceStep (s : State O T) (t : T) (f : Frame T) (c : Caller T) (some : Nat) : State O T :=
  let l := s.locals t
  let done := f.oneStep.done + some
  let f := { f with oneStep := { f.oneStep with done := done } }
  (s.setLocal t { l with
    ring := l.ring.advance some
    inflight := l.inflight - BitVec.ofNat 64 some }).setThread t
      (.run f c (if greedy f.policy done some then afterIodone f.policy else .peek))

def stoppingStep (s : State O T) (t : T) (f : Frame T) (c : Caller T) : State O T :=
  let b := robinAccess (s.walltimeStep f.loop)
  (s.setStopping t b []).setThread t (.run f c (.cancelling b ((s.locals t).stopping b)))

def cancelStep (cfg : Config O T) (s : State O T) (t : T) (f : Frame T) (c : Caller T) (b : Bucket) :
    List O → State O T
  | [] => s.setThread t (.run f c .tail)
  | o :: ops =>
      match (s.locals t).ring.getSqe (cfg.entries t) (.cancel o) with
      | some r => (s.takeSqe t r []).setThread t (.run f c (.cancelling b ops))
      | none => (s.setStopping t b (o :: ops ++ (s.locals t).stopping b)).setThread t
          (.run f c .tail)

/-! ## The ends of `run()` -/

/-- `run()` returns `info` to its caller. -/
def returnRun (s : State O T) (t : T) (f : Frame T) (info : RunProgressInfo) :
    Caller T → State O T
  | .user => { s with result := Function.update s.result t (some info) }.setThread t .outside
  | .stopRequest outer =>
      { s.touchLoop outer.loop with
        mustStop := Function.update s.mustStop outer.loop true
        result := Function.update s.result t (some (outer.info.final outer.step))
        exits := ⟨t, f.loop, s.pass t⟩ :: s.exits }.setThread t .outside
  | .localDtor => s.setThread t .detach
  | .execTransfer => { s.getLocal t with
      exec := { (s.getLocal t).exec with stopRequested := true } }.setThread t .waitLocals
  | .execTerminal => { s with exec := { s.exec with alive := false } }.setThread t .outside

/-- The history notes whether a thread has left `loop` through its stop branch. -/
def State.noteFirst (s : State O T) (t : T) (loop : Loop T) : State O T :=
  s.setPass t { s.pass t with first := s.exits.all fun e => e.loop ≠ loop }

/-- `that()->get_local()` at the entry of `run()`. -/
def State.enter (s : State O T) (t : T) (loop : Loop T) : State O T :=
  let s := match loop with
    | .exec => s.getLocal t
    | .own _ => s
  s.setPass t { s.pass t with entered := true }

/-- `if(_runloop_must_have_stopped) return progress_info(0)`. -/
def checkStep (s : State O T) (t : T) (f : Frame T) (c : Caller T) : State O T :=
  let s := (s.touchLoop f.loop).noteFirst t f.loop
  if s.mustStop f.loop then returnRun s t f (f.info.final 0) c
  else (s.enter t f.loop).setThread t (.run f c (.launch (launchSources f.policy)))

/-- `_walltime_step++`. -/
def State.nextStep (s : State O T) (loop : Loop T) : State O T :=
  { s with
    walltimeStep := Function.update s.walltimeStep loop (s.walltimeStep loop + 1) }

/-- What `run()` does after the parts of a step. -/
def tailStep (s : State O T) (t : T) (f : Frame T) (c : Caller T) (external : Bool) : State O T :=
  if f.policy.weaklyParallel then returnRun s t f (f.info.final f.step) c
  else
    let any := 0 < f.oneStep.launched ∨ 0 < f.oneStep.submitted ∨ 0 < f.oneStep.done
    let f := { f with info := f.info.add f.oneStep, oneStep := {} }
    if f.policy.weaklyConcurrent ∧ any then returnRun s t f (f.info.final f.step) c
    else if external then returnRun s t f (f.info.final f.step) c
    else
      let s := if f.policy.detached then s else s.touch
      if f.policy.detached = false ∧ s.exec.stopRequested then
        s.setThread t (.command { loop := f.loop, policy := terminalPolicy } (.stopRequest f))
      else if f.policy.autoquit ∧ (s.locals t).inflight = 0 then
        returnRun s t f (f.info.final f.step) c
      else
        ((s.touchLoop f.loop).nextStep f.loop).setThread t
          (.run { f with step := f.step + 1 } c (.launch (launchSources f.policy)))

def loopStep (cfg : Config O T) (s : State O T) (t : T) (f : Frame T) (c : Caller T) (ch : Choice) :
    LoopPc O → Option (State O T)
  | .check => some (checkStep s t f c)
  | .launch sources => some (launchStep s t f c ch.bucket sources)
  | .visit [] sources => some (s.setThread t (.run f c (.launch sources)))
  | .visit (k :: rest) sources => some (visitStep cfg s t f c k rest sources ch)
  | .submit => some (submitStep s t f c)
  | .wait =>
      if (s.locals t).ring.cq = [] then none
      else some (s.setThread t (.run f c (afterSubmit f.policy)))
  | .peek => some (peekStep s t f c)
  | .consume [] n => some (advanceStep s t f c n)
  | .consume (e :: rest) n => some (consumeStep cfg s t f c e rest n ch)
  | .stopping => some (stoppingStep s t f c)
  | .cancelling b ops => some (cancelStep cfg s t f c b ops)
  | .tail => some (tailStep s t f c ch.external)

/-! ## The final passes -/

/-- `submit_destructive_command` up to its second submission. -/
def commandStep (cfg : Config O T) (s : State O T) (t : T) (f : Frame T) (c : Caller T) :
    Option (State O T) :=
  let l := s.locals t
  let r := l.ring.submit l.ring.sq.length
  match r.getSqe (cfg.entries t) .cancelAny with
  | some r' => some ((s.setLocal t { l with ring := r'.submit r'.sq.length }).setThread t (.drain f c))
  | none => none

/-- The second submission has returned, and the pass begins. -/
def drainStep (s : State O T) (t : T) (f : Frame T) (c : Caller T) : State O T :=
  (s.setPass t {
    startAttached := (s.locals t).attached
    startCq := (s.locals t).ring.cq
    startFlight := (s.locals t).ring.flight
    startImmediate := s.exec.immediate }).setThread t (.run f c .check)

/-- The end of `~io_uring_exec_local`. -/
def detachStep (cfg : Config O T) (s : State O T) (t : T) : State O T :=
  let s := if t = cfg.main then s
    else { s.touch with exec := { s.exec with runningLocal := s.exec.runningLocal - 1 } }
  (s.setLocal t { s.locals t with stage := .closed }).setThread t .ended

def threadStep (cfg : Config O T) (s : State O T) (t : T) (ch : Choice) : Option (State O T) :=
  match s.thread t with
  | .outside => none
  | .callback _ _ _ => none
  | .ended => none
  | .command f c => commandStep cfg s t f c
  | .drain f c => some (drainStep s t f c)
  | .run f c pc => loopStep cfg s t f c ch pc
  | .waitLocals =>
      if s.exec.runningLocal > 1 then none
      else some (s.touch.setThread t (.command { loop := .exec, policy := terminalPolicy } .execTerminal))
  | .detach => some (detachStep cfg s t)

/-! ## Users and the kernel -/

/-- User code runs outside of `run()` and in callbacks. -/
def ThreadPc.isUser : ThreadPc O T → Bool
  | .outside => true
  | .callback _ _ _ => true
  | _ => false

def userStep (cfg : Config O T) (s : State O T) (t : T) (ch : Choice) :
    UserAct O T → Option (State O T)
  | .start o => if (s.thread t).isUser then some (startOp cfg s t o ch).1 else none
  | .schedule => if (s.thread t).isUser then some (s.pushImmediate t none) else none
  | .scheduleOn t' =>
      if (s.thread t).isUser ∧ (s.locals t').stage = .alive then some (s.pushAttached t') else none
  | .ret =>
      match s.thread t with
      | .callback f c pc => some (s.setThread t (.run f c pc))
      | _ => none
  | .call loop policy =>
      if s.thread t = .outside ∧ (loop = .exec ∨ loop = .own t ∧ (s.locals t).stage = .alive) then
        some (s.setThread t (.run { loop := loop, policy := policy } .user .check))
      else none
  | .exit =>
      if s.thread t = .outside then
        match (s.locals t).stage with
        | .alive => some (s.setThread t
            (.command { loop := .own t, policy := transferPolicy } .localDtor))
        | _ => some (s.setThread t .ended)
      else none
  | .destroy =>
      if s.thread t = .outside ∧ t = cfg.main ∧ s.exec.alive then
        some ({ s.getLocal t with
          immediateAtDestroy := s.exec.immediate
          attachedAtDestroy := (s.locals t).attached }.setThread t
            (.command { loop := .exec, policy := transferPolicy } .execTransfer))
      else none

def step (cfg : Config O T) (s : State O T) : Label O T → Option (State O T)
  | .thread t ch => threadStep cfg s t ch
  | .user t act ch => userStep cfg s t ch act
  | .post t i res =>
      if (s.locals t).stage = .alive then
        match (s.locals t).ring.post i res with
        | some (e, r) => some ((s.setLocal t { s.locals t with ring := r }).setPass t
            { s.pass t with posted := (s.pass t).posted ++ [⟨e.data, res⟩] })
        | none => none
      else none
  | .stopPush t o =>
      if (s.locals t).stage = .alive ∧ 0 < (s.locals t).ring.tokens o ∧
          o ∉ (s.locals t).stopping (cfg.bucket o) then
        some (s.setStopping t (cfg.bucket o) (o :: (s.locals t).stopping (cfg.bucket o)))
      else none
  | .requestStop => some { s.touch with exec := { s.exec with stopRequested := true } }
  | .stopScope => some { s.touch with exec := { s.exec with scopeStopped := true } }

/-- An executor without tasks, and threads without locals; the two counters of
bucket choice are arbitrary. -/
def Init (s : State O T) : Prop :=
  s.exec.alive = true ∧ s.exec.runningLocal = 0 ∧ s.exec.stopRequested = false ∧
    s.exec.scopeStopped = false ∧ (∀ b, s.exec.immediate b = []) ∧
    (∀ t, (s.locals t).attached = [] ∧ (s.locals t).ring = .empty ∧ (s.locals t).inflight = 0 ∧
      (s.locals t).stage = .absent ∧ ∀ b, (s.locals t).stopping b = []) ∧
    (∀ l, s.mustStop l = false) ∧ (∀ t, s.thread t = .outside) ∧ s.nextTask = 0 ∧
    s.exits = [] ∧ (∀ k, s.place k = none) ∧ (∀ k, s.finished k = 0) ∧ s.wild = false

def machine (cfg : Config O T) : Machine (State O T) (Label O T) where
  init := Init
  step := step cfg

end Step

end IoUring.Exec.RunLoop
