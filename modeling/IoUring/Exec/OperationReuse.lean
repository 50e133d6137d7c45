import IoUring.Exec.OperationStopping

/-!
# Operations at reused addresses

Operations that are completed are destroyed, and new ones are created at their
addresses, with another stop token and another preparation function. A cancel
SQE carries an address, so what it cancels depends on who lives there when the
kernel executes it. Operations are numbered here: each entry of a ring is kept
together with the number of the operation that it is meant for, in the order in
which the entries were prepared.
-/

namespace IoUring.Exec.Operation

/-- `serial` numbers the operations created at an address, and `drained t` is a copy of
it from the last time thread `t` took a bucket of its stopping map. `line t` are the
entries of a ring that are prepared or in the hands of the kernel, of which the
first `executed t` are executed. -/
structure Reused (O T S : Type*) where
  base : State O T S
  token : O → Option S
  timer : O → Bool
  serial : O → Nat
  drained : T → O → Nat
  line : T → List (Sqe O × Nat)
  executed : T → Nat

/-- `create` constructs an operation, whose `localScheduler` has no initialiser;
`cancelAny` is `submit_destructive_command` where its two calls of
`io_uring_submit` take `n` and `m` entries. -/
inductive ReuseLabel (O T S : Type*) where
  | run (a : Label O T S)
  | create (o : O) (token : Option S) (timer : Bool) (localScheduler : T)
  | cancelAny (t : T) (n m : Nat)
  | execute (t : T)

namespace Reused

variable {O T S : Type*} [DecidableEq O] [DecidableEq T] [DecidableEq S] (cfg : Config O T S)

/-- The configuration of the operations that live now; the addresses and the
rings stay as they are. -/
def config (s : Reused O T S) : Config O T S :=
  { cfg with token := s.token, timer := s.timer }

/-- The entries that a step has taken from the ring of `t`, oldest first. -/
def taken (b b' : State O T S) (t : T) : List (Sqe O) :=
  ((b'.issued t).take ((b'.issued t).length - (b.issued t).length)).reverse

/-- The operation that an entry taken from the ring of `t` is meant for. -/
def tag (s : Reused O T S) (t : T) : Sqe O → Sqe O × Nat
  | .request o => (.request o, s.serial o)
  | .cancel o => (.cancel o, s.drained t o)
  | .cancelAny => (.cancelAny, 0)

/-- The kernel finishes entries that it has executed. -/
def Permits (s : Reused O T S) : Label O T S → Prop
  | .post t i _ => i < s.executed t
  | _ => True

instance (s : Reused O T S) : ∀ a, Decidable (s.Permits a)
  | .post t i _ => inferInstanceAs (Decidable (i < s.executed t))
  | .start _ _ | .thread _ _ | .launch _ _ | .cancelTask _ _ | .requestStop _ | .stopScope
  | .fire _ | .push _ _ | .submit _ _ | .cancelAny _ | .consume _ _ | .sweep _ _ | .close _ =>
      inferInstanceAs (Decidable True)

omit [DecidableEq O] [DecidableEq S] in
/-- What remains of the entries `l` of the ring of `t` when the kernel finishes one. -/
def remaining {β : Type*} (t : T) (l : List β) : Label O T S → List β
  | .post u i _ => if t = u then l.eraseIdx i else l
  | _ => l

def executedAfter (s : Reused O T S) (t : T) : Label O T S → Nat
  | .post u _ _ => if t = u then s.executed t - 1 else s.executed t
  | _ => s.executed t

/-- Thread `t` has just taken the chain of a bucket for the stopping pass. -/
def drains (b b' : State O T S) (t : T) : Bool :=
  match b.thread t, b'.thread t with
  | .sweepMove _ _, .sweep _ _ => true
  | _, _ => false

/-- A step of the operations, to the state `b`. -/
def advance (s : Reused O T S) (a : Label O T S) (b : State O T S) : Reused O T S :=
  { s with
    base := b
    drained := fun t => if drains s.base b t then s.serial else s.drained t
    line := fun t => remaining t (s.line t) a ++ (taken s.base b t).map (s.tag t)
    executed := fun t => s.executedAfter t a }

/-- The constructor of an operation at address `o`. -/
def construct (b : State O T S) (o : O) (localScheduler : T) : State O T S :=
  { b with
    heap := b.heap.setNext o none
    status := Function.update b.status o .fresh
    callback := Function.update b.callback o .none
    localScheduler := Function.update b.localScheduler o localScheduler
    starts := Function.update b.starts o 0
    signals := Function.update b.signals o []
    tasks := Function.update b.tasks o []
    effects := Function.update b.effects o [] }

def step (s : Reused O T S) : ReuseLabel O T S → Option (Reused O T S)
  | .run a =>
      if s.Permits a then
        match Operation.step (s.config cfg) s.base a with
        | some b => some (s.advance a b)
        | none => none
      else none
  | .create o token timer localScheduler =>
      -- an operation is destroyed before it is started or after it is completed
      if s.base.status o = .fresh ∨ s.base.status o = .completed then
        some { s with
          base := construct s.base o localScheduler
          token := Function.update s.token o token
          timer := Function.update s.timer o timer
          serial := Function.update s.serial o (s.serial o + 1) }
      else none
  | .cancelAny t n m =>
      if s.base.thread t = .idle ∧ s.base.closed t = false then
        match ((s.base.ring t).submit n).getSqe (cfg.entries t) .cancelAny with
        | some r => some (s.advance (.cancelAny t) (s.base.issue t (r.submit m) .cancelAny))
        | none => none
      else none
  | .execute t =>
      if s.executed t < (s.base.ring t).flight.length then
        some { s with executed := Function.update s.executed t (s.executed t + 1) }
      else none

/-- Nothing started yet. -/
def Init (s : Reused O T S) : Prop :=
  Operation.Init s.base ∧ (∀ t, s.line t = []) ∧ ∀ t, s.executed t = 0

def machine : Machine (Reused O T S) (ReuseLabel O T S) where
  init := Init
  step := step cfg

/-- The entry that the kernel executes next, with the operation it is meant for. -/
def next (s : Reused O T S) (t : T) : Option (Sqe O × Nat) :=
  if s.executed t < (s.base.ring t).flight.length then (s.line t)[s.executed t]? else none

/-- The entries that the kernel has executed and not finished. -/
def inFlight (s : Reused O T S) (t : T) : List (Sqe O × Nat) :=
  (s.line t).take (s.executed t)

end Reused

end IoUring.Exec.Operation
