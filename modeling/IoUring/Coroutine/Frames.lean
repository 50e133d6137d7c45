import Mathlib.Logic.Function.Basic
import IoUring.Base.Machine

/-!
# `Task` and the frames of the coroutines

One thread executes: the coroutine that was resumed last, or code that is no
coroutine. The latter includes `run_once()`, whose two loops are taken apart here, so that
the coroutines in its queue are resumed and the CQEs are reaped in any order. Frames, `Task`
objects and operations have addresses that are not used again. To resume a coroutine
that is not suspended, to destroy a frame that is not suspended, or to destroy a `Task` object
twice is undefined in C++, and is recorded.
-/

namespace IoUring.Coroutine.Frames

/-- Where a coroutine is; `gone` is a frame that does not exist. -/
inductive Point where
  | unstarted
  | running
  | atOperation (o : Nat)
  | atTask (callee : Nat)
  | final
  | gone
  deriving DecidableEq

/-- `caller` is `_caller` of the promise, `none` for `std::noop_coroutine()`. -/
structure Frame where
  point : Point
  caller : Option Nat
  deriving DecidableEq

/-- Where a `Task` object is: in a variable or in a parameter of a coroutine, or in no frame. -/
inductive Place where
  | outside
  | variable (f : Nat)
  | parameter (f : Nat)
  deriving DecidableEq

/-- `handle` is `_handle`. -/
structure Task where
  handle : Option Nat
  place : Place
  deriving DecidableEq

/-- Who executes. A coroutine that returns has destroyed its frame and goes to its caller,
or to whoever resumed it. -/
inductive Control where
  | outside
  | running (f : Nat)
  | returning (f : Nat) (caller : Option Nat)
  deriving DecidableEq

inductive Event where
  | called (caller callee : Nat)
  | finished (f : Nat)
  | destroyed (f : Nat)
  | resumed (caller callee : Nat)
  deriving DecidableEq

/-- `operations` is the queue of the context, `h` the handle in the `Async_user_data` of an
operation whose CQE was not reaped, and `dtors` are the `Task` objects in destroyed
frames, whose destructors are executed next. -/
structure State where
  frame : Nat → Frame
  nextFrame : Nat
  task : Nat → Option Task
  nextTask : Nat
  operations : List Nat
  h : Nat → Option Nat
  nextOperation : Nat
  control : Control
  dtors : List Nat
  log : List Event
  fault : Bool

/-- `create` is the call of a coroutine, with `Task` objects that are moved into its
parameters. `transfer` is the end of `Final_suspend::await_suspend`, `launch` an iteration of the
first loop of `run_once()` and `reap` one of the second. -/
inductive Label where
  | create (args : List Nat)
  | move (t : Nat) (out : Bool)
  | destroy (t : Nat)
  | dtor
  | coSpawn (t : Nat)
  | awaitTask (t : Nat)
  | awaitOperation (sqe : Bool)
  | ret
  | transfer
  | launch
  | reap (o : Nat) (canceled : Bool)
  deriving DecidableEq

/-- A coroutine is suspended here and can be resumed. -/
def Point.suspended : Point → Bool
  | .unstarted => true
  | .atOperation _ => true
  | .atTask _ => true
  | _ => false

namespace State

variable (s : State)

def handle (t : Nat) : Option Nat :=
  (s.task t).bind Task.handle

def setFrame (f : Nat) (x : Frame) : State :=
  { s with frame := Function.update s.frame f x }

def setPoint (f : Nat) (p : Point) : State :=
  s.setFrame f { s.frame f with point := p }

def setTask (t : Nat) (x : Option Task) : State :=
  { s with task := Function.update s.task t x }

def newTask (x : Task) : State :=
  { s.setTask s.nextTask (some x) with nextTask := s.nextTask + 1 }

/-- `h.resume()`, and the transfer to a coroutine. -/
def resume (f : Nat) : State :=
  if (s.frame f).point.suspended then
    { s.setPoint f .running with control := .running f }
  else { s with fault := true }

def parameters (f : Nat) : List Nat :=
  (List.range s.nextTask).filter fun t => (s.task t).map Task.place = some (.parameter f)

/-- `h.destroy()`. The destructors of the parameters are to be executed. -/
def destroy (f : Nat) : State :=
  if (s.frame f).point.suspended ∨ (s.frame f).point = .final then
    { s.setFrame f ⟨.gone, none⟩ with
      dtors := s.parameters f ++ s.dtors
      log := s.log ++ [.destroyed f] }
  else { s with fault := true }

/-! ## `Task` -/

/-- `std::exchange(_handle, {})`. -/
def detach (t : Nat) : State :=
  s.setTask t ((s.task t).map fun x => { x with handle := none })

/-- `Task(Task &&)`. -/
def moveTask (t : Nat) (p : Place) : State :=
  (s.detach t).newTask ⟨s.handle t, p⟩

/-- `~Task`. -/
def destroyTask (t : Nat) : State :=
  match s.task t with
  | some ⟨some f, _⟩ => (s.setTask t none).destroy f
  | some ⟨none, _⟩ => s.setTask t none
  | none => { s with fault := true }

/-- A new coroutine suspends at once, and its promise makes the `Task`. -/
def newCoroutine (p : Place) : State :=
  { (s.setFrame s.nextFrame ⟨.unstarted, none⟩).newTask ⟨some s.nextFrame, p⟩ with
    nextFrame := s.nextFrame + 1 }

/-- The call of a coroutine. -/
def create (args : List Nat) (p : Place) : State :=
  args.foldl (fun s' t => s'.moveTask t (.parameter s.nextFrame)) (s.newCoroutine p)

/-- `await_suspend` of a `Task` that holds `callee`, where `caller` awaits it: `caller` is
suspended and becomes `_caller`, and then `callee` is resumed. -/
def push (caller callee : Nat) : State :=
  let s := s.setPoint caller (.atTask callee)
  { s.setFrame callee { s.frame callee with caller := some caller } with
    control := .outside
    log := s.log ++ [.called caller callee] }

/-- `co_await std::move(task)` by coroutine `f`. -/
def awaitTask (f t : Nat) : State :=
  match s.handle t with
  | none => s
  | some callee =>
      -- `await_ready`: `_handle.done()`
      if (s.frame callee).point = .final then s.detach t
      else ((s.detach t).push f callee).resume callee

/-- `co_await` of a plain operation by coroutine `f`. -/
def awaitOperation (f : Nat) : State :=
  { s.setPoint f (.atOperation s.nextOperation) with
    h := Function.update s.h s.nextOperation (some f)
    nextOperation := s.nextOperation + 1
    control := .outside }

/-- `Final_suspend::await_suspend`, up to the end of `callee.destroy()`. -/
def finalSuspend (f : Nat) : State :=
  let caller := (s.frame f).caller
  let s := { s.setPoint f .final with log := s.log ++ [Event.finished f] }
  { s.destroy f with control := .returning f caller }

/-- Where a variable of the code that executes is. -/
def here : Option Place :=
  match s.control with
  | .outside => some .outside
  | .running f => some (.variable f)
  | .returning _ _ => none

/-- The variables of a coroutine that are `Task` objects. -/
def locals (f : Nat) : List Nat :=
  (List.range s.nextTask).filter fun t => (s.task t).map Task.place = some (.variable f)

end State

/-- A step of the code. `co_spawn` is called with a `Task` that was not moved from. A coroutine
destroys its variables before it comes to `final_suspend`. -/
def act (s : State) : Label → Option State
  | .create args =>
      match s.here with
      | some p => if ∀ t ∈ args, s.task t ≠ none then some (s.create args p) else none
      | none => none
  | .move t out =>
      match s.here with
      | some p =>
          if s.task t ≠ none then some (s.moveTask t (if out then .outside else p)) else none
      | none => none
  | .destroy t => if s.here ≠ none ∧ s.task t ≠ none then some (s.destroyTask t) else none
  | .dtor => none
  | .coSpawn t =>
      match s.here, s.handle t with
      | some _, some f => some { s.detach t with operations := s.operations ++ [f] }
      | _, _ => none
  | .awaitTask t =>
      match s.control with
      | .running f => if s.task t ≠ none then some (s.awaitTask f t) else none
      | _ => none
  | .awaitOperation sqe =>
      match s.control with
      | .running f => some (if sqe then s.awaitOperation f else s)
      | _ => none
  | .ret =>
      match s.control with
      | .running f => if s.locals f = [] then some (s.finalSuspend f) else none
      | _ => none
  | .transfer =>
      match s.control with
      | .returning _ none => some { s with control := .outside }
      | .returning f (some caller) =>
          some ({ s with control := .outside, log := s.log ++ [Event.resumed caller f] }.resume caller)
      | _ => none
  | .launch =>
      match s.control, s.operations with
      | .outside, f :: operations => some ({ s with operations := operations }.resume f)
      | _, _ => none
  | .reap o canceled =>
      match s.control, s.h o with
      | .outside, some f =>
          let s := { s with h := Function.update s.h o none }
          some (if canceled then s else s.resume f)
      | _, _ => none

/-- The destructors of `Task` objects in destroyed frames come before anything else. -/
def step (s : State) (l : Label) : Option State :=
  match s.dtors with
  | [] => act s l
  | t :: dtors => if l = .dtor then some ({ s with dtors := dtors }.destroyTask t) else none

def Init (s : State) : Prop :=
  (∀ f, s.frame f = ⟨.gone, none⟩) ∧ s.nextFrame = 0 ∧ (∀ t, s.task t = none) ∧ s.nextTask = 0 ∧
    s.operations = [] ∧ (∀ o, s.h o = none) ∧ s.nextOperation = 0 ∧ s.control = .outside ∧
    s.dtors = [] ∧ s.log = [] ∧ s.fault = false

def machine : Machine State Label where
  init := Init
  step := step

def State.start : State where
  frame := fun _ => ⟨.gone, none⟩
  nextFrame := 0
  task := fun _ => none
  nextTask := 0
  operations := []
  h := fun _ => none
  nextOperation := 0
  control := .outside
  dtors := []
  log := []
  fault := false

theorem init_start : Init .start := by
  simp [Init, State.start]

end IoUring.Coroutine.Frames
