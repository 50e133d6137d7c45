import IoUring.Base.Observe
import IoUring.Exec.TaskMap

/-!
# The lambda `launch` of `run()`

Any number of launches drain any number of queues, each by single accesses to memory,
while pushers fill the queues. A callback is user code: between its call and its return,
as between any two accesses, the nodes that the clients hold may be written and pushed,
and the clients hold a node again as soon as its callback is called. A launch is
named by the index that its sentinel has in the layout of the stacks, so one that starts
inside a callback of another is among them.

The history numbers the tasks by their pushes. It keeps what was done to each queue and
what each launch has read and called.
-/

namespace IoUring.Exec.Launch

/-- The options of `run_policy` that `launch` asks for. -/
structure Policy where
  locality : Bool
  terminal : Bool
  deriving DecidableEq

/-- The entries of `vtab` that `launch` calls. -/
inductive Callback where
  | complete
  | cancel
  deriving DecidableEq

def Policy.callback (policy : Policy) : Callback :=
  if policy.terminal then .cancel else .complete

/-- A launch between two accesses. `test op` is the condition of `safe_for_each` and the
read of `next(op)`, `call op rest` the call of the callback after the exchange that left
`rest` in the loop variable, and `callback rest` is inside the callback. -/
inductive LauncherPc (α : Type*) where
  | moveAll (pc : MoveAllPc α)
  | makeFifo (node : α) (pc : MakeFifoPc α)
  | test (op : Option α)
  | call (op : α) (rest : Option α)
  | callback (rest : Option α)
  | returned
  deriving DecidableEq

/-- A launch of `queue`, that is the lambda between its call and its return. -/
structure Launcher (α κ : Type*) where
  queue : κ
  policy : Policy
  pc : LauncherPc α

/-- A thread that calls `push`. -/
inductive PusherPc (α κ : Type*) where
  | idle
  | push (q : κ) (op : α) (pc : PushPc α)

/-- `held` are the nodes that the clients may write and push. -/
structure State (α κ τ ρ : Type*) where
  heap : Heap α κ
  pusher : τ → PusherPc α κ
  launcher : ρ → Option (Launcher α κ)
  held : α → Bool

inductive Label (α κ τ ρ : Type*) where
  | write (a : α) (v : Option α)
  | push (t : τ) (q : κ) (op : α)
  | pusher (t : τ) (spurious : Bool)
  | launch (r : ρ) (q : κ) (policy : Policy)
  | launcher (r : ρ) (spurious : Bool)

variable {α κ τ ρ : Type*} [DecidableEq α] [DecidableEq κ] [DecidableEq τ] [DecidableEq ρ]

section Step

variable (L : TaskMap.Layout α ρ)

def State.setPc (s : State α κ τ ρ) (r : ρ) (l : Launcher α κ) (pc : LauncherPc α) :
    State α κ τ ρ :=
  { s with launcher := Function.update s.launcher r (some { l with pc := pc }) }

/-- One access of `push`. -/
def pusherStep (s : State α κ τ ρ) (t : τ) (spurious : Bool) : Option (State α κ τ ρ) :=
  match s.pusher t with
  | .idle => none
  | .push q op pc =>
      match pushStep s.heap q op spurious pc with
      | (h, .running pc') =>
          some { s with heap := h, pusher := Function.update s.pusher t (.push q op pc') }
      | (h, .returned _) =>
          some { s with heap := h, pusher := Function.update s.pusher t .idle }

/-- One access of launch `r`, or the call of a callback or the return from it. -/
def launcherStep (s : State α κ τ ρ) (r : ρ) (spurious : Bool) : Option (State α κ τ ρ) :=
  match s.launcher r with
  | none => none
  | some l =>
      match l.pc with
      | .moveAll pc =>
          match moveAllStep s.heap l.queue spurious pc with
          | (h, .running pc') => some ({ s with heap := h }.setPc r l (.moveAll pc'))
          | (h, .returned none) => some ({ s with heap := h }.setPc r l (.test none))
          | (h, .returned (some node)) => some ({ s with heap := h }.setPc r l
              (if l.policy.locality then .test (some node) else .makeFifo node .link))
      | .makeFifo node pc =>
          match makeFifoStep s.heap (L.sentinel r) node pc with
          | (h, .running pc') => some ({ s with heap := h }.setPc r l (.makeFifo node pc'))
          | (h, .returned op) => some ({ s with heap := h }.setPc r l (.test op))
      | .test none => some (s.setPc r l .returned)
      | .test (some op) => some (s.setPc r l (.call op (s.heap.next op)))
      | .call op rest =>
          some ({ s with held := Function.update s.held op true }.setPc r l (.callback rest))
      | .callback rest => some (s.setPc r l (.test rest))
      | .returned => none

def step (s : State α κ τ ρ) : Label α κ τ ρ → Option (State α κ τ ρ)
  | .write a v =>
      if s.held a = true then some { s with heap := s.heap.setNext a v } else none
  | .push t q op =>
      match s.pusher t with
      | .idle =>
          if s.held op = true then
            some { s with
              pusher := Function.update s.pusher t (.push q op .load)
              held := Function.update s.held op false }
          else none
      | _ => none
  | .pusher t spurious => pusherStep s t spurious
  | .launch r q policy =>
      match s.launcher r with
      | none => some { s with
          launcher := Function.update s.launcher r (some ⟨q, policy, .moveAll .load⟩) }
      | some _ => none
  | .launcher r spurious => launcherStep L s r spurious

/-- Empty queues, and all nodes outside the stacks with the clients; the memory is arbitrary. -/
def Init (s : State α κ τ ρ) : Prop :=
  (∀ q, s.heap.head q = none) ∧ (∀ t, s.pusher t = .idle) ∧ (∀ r, s.launcher r = none) ∧
    ∀ a, s.held a = !L.onStack a

def machine : Machine (State α κ τ ρ) (Label α κ τ ρ) where
  init := Init L
  step := step L

end Step

/-! ## The history -/

/-- What is pushed: the node, and how many pushes there were before. -/
structure Task (α : Type*) where
  node : α
  number : Nat
  deriving DecidableEq

/-- What changes a queue. -/
inductive Entry (α ρ : Type*) where
  | push (x : Task α)
  | drain (r : ρ)
  deriving DecidableEq

/-- What a launch does to a task: it reads its `next` field, or calls one of its callbacks. -/
inductive Event (α : Type*) where
  | read (x : Task α)
  | call (f : Callback) (x : Task α)
  deriving DecidableEq

/-- `number a` is the number of the task that was pushed last at address `a`. -/
structure History (α κ ρ : Type*) where
  log : κ → List (Entry α ρ)
  trace : ρ → List (Event α)
  pushes : Nat
  number : α → Nat

namespace History

variable (e : History α κ ρ)

def task (a : α) : Task α := ⟨a, e.number a⟩

/-- `op` is pushed onto `q`. -/
def push (q : κ) (op : α) : History α κ ρ :=
  { e with
    log := Function.update e.log q (e.log q ++ [.push ⟨op, e.pushes⟩])
    pushes := e.pushes + 1
    number := Function.update e.number op e.pushes }

/-- Launch `r` drains `q`. -/
def drain (q : κ) (r : ρ) : History α κ ρ :=
  { e with log := Function.update e.log q (e.log q ++ [.drain r]) }

def record (r : ρ) (event : Event α) : History α κ ρ :=
  { e with trace := Function.update e.trace r (e.trace r ++ [event]) }

end History

/-- What a step of launch `r` adds to the history. -/
def noteLauncher (e : History α κ ρ) (s : State α κ τ ρ) (r : ρ) (spurious : Bool) :
    History α κ ρ :=
  match s.launcher r with
  | none => e
  | some l =>
      match l.pc with
      | .moveAll pc =>
          match moveAllStep s.heap l.queue spurious pc with
          | (_, .running _) => e
          | (_, .returned _) => e.drain l.queue r
      | .makeFifo _ (.loop _ (some cur)) => e.record r (.read (e.task cur))
      | .makeFifo _ _ => e
      | .test (some op) => e.record r (.read (e.task op))
      | .call op _ => e.record r (.call l.policy.callback (e.task op))
      | _ => e

def note (e : History α κ ρ) (s : State α κ τ ρ) (a : Label α κ τ ρ) (_ : State α κ τ ρ) :
    History α κ ρ :=
  match a with
  | .pusher t spurious =>
      match s.pusher t with
      | .idle => e
      | .push q op pc =>
          match pushStep s.heap q op spurious pc with
          | (_, .running _) => e
          | (_, .returned _) => e.push q op
  | .launcher r spurious => noteLauncher e s r spurious
  | _ => e

/-- The machine with its history; nodes that were never pushed have number 0. -/
def historyMachine (L : TaskMap.Layout α ρ) :
    Machine (State α κ τ ρ × History α κ ρ) (Label α κ τ ρ) :=
  (machine L).observed ⟨fun _ => [], fun _ => [], 0, fun _ => 0⟩ note

/-! ## What a launch should do -/

def fill (tasks : List (Task α)) : Entry α ρ → List (Task α)
  | .push x => tasks ++ [x]
  | .drain _ => []

/-- The tasks pushed since the queue was last drained, the oldest first. -/
def filled (log : List (Entry α ρ)) : List (Task α) :=
  log.foldl fill []

/-- The order in which a launch calls the tasks: `move_all` returns the newest first, and
`make_fifo` turns the chain round. -/
def order (policy : Policy) (tasks : List (Task α)) : List (Task α) :=
  if policy.locality then tasks.reverse else tasks

/-- `safe_for_each` reads the link of a task before it calls the task. -/
def visit (policy : Policy) (x : Task α) : List (Event α) :=
  [.read x, .call policy.callback x]

/-- The trace of a launch that has dealt with `done`: `make_fifo` reads the links of all
tasks first, the newest task's first. -/
def visited (policy : Policy) (tasks done : List (Task α)) : List (Event α) :=
  (if policy.locality then [] else tasks.reverse.map .read) ++ done.flatMap (visit policy)

end IoUring.Exec.Launch
