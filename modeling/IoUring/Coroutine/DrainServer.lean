import IoUring.Base.Barrier
import IoUring.Coroutine.ContextInflight
import IoUring.Coroutine.ContextOperation

/-!
# The echo server with `IOSQE_IO_DRAIN`

The coroutine `server` accepts clients with drain operations and spawns a coroutine `echo`
for each of them, all on one context. The context is the one of the other modules; its
coroutines do what their code says, and the kernel keeps to the order that drain requests
demand. Nothing is cancelled.
-/

namespace IoUring.Coroutine

/-- The kernel may start the requests of chain `i`: a drain request waits for everything
before it, and everything behind it waits for it. -/
def Ring.mayStart (r : Ring) (i : Nat) : Prop :=
  ∀ c ∈ r.flight.take i, ∀ e ∈ c.members, e.flags.ioDrain = false ∧
    ∀ c' ∈ r.flight[i]?, ∀ e' ∈ c'.members, e'.flags.ioDrain = false

instance (r : Ring) (i : Nat) : Decidable (r.mayStart i) :=
  inferInstanceAs (Decidable (∀ _ ∈ _, _))

namespace DrainServer

/-- Where `server` or `echo` is. From the construction of an operation on, a coroutine is at
this operation, until it has its result. -/
inductive Point where
  | accept
  | accepting (a : Nat)
  | spawn
  | read
  | reading (a : Nat)
  | write
  | writing (a : Nat)
  | close
  | closing (a : Nat)
  | ret
  | gone
  | exit
  deriving DecidableEq

/-- What the coroutine does next; `exit` is `std::terminate()`. -/
def Point.act : Point → Option UserAct
  | .accept => some .asyncDrainOperation
  | .accepting a => some (.await a)
  | .spawn => some .coSpawn
  | .read => some .asyncOperation
  | .reading a => some (.await a)
  | .write => some .asyncOperation
  | .writing a => some (.await a)
  | .close => some .asyncOperation
  | .closing a => some (.await a)
  | .ret => some .ret
  | .gone => none
  | .exit => none

/-- The operation at address `a` was constructed. -/
def Point.constructed (a : Nat) : Point → Point
  | .accept => .accepting a
  | .read => .reading a
  | .write => .writing a
  | .close => .closing a
  | pc => pc

/-- `co_await` has returned `res`, which `nofail` looks at in all cases but one; `zz` says
whether the buffer begins with "Zz". -/
def Point.resumed (res : Int) (zz : Bool) : Point → Point
  | .accepting _ => if res < 0 then .exit else .spawn
  | .reading _ => if res < 0 then .exit else .write
  | .writing _ =>
      if res < 0 then .exit
      else if res = 0 ∨ 2 < res ∧ zz = true then .close
      else .read
  | .closing _ => .ret
  | pc => pc

/-- The operation a coroutine is at. -/
def Point.operation : Point → Option Nat
  | .accepting a => some a
  | .reading a => some a
  | .writing a => some a
  | .closing a => some a
  | _ => none

/-- Whether the operation is a read or a write. -/
def Point.transfers : Point → Bool
  | .reading _ => true
  | .writing _ => true
  | _ => false

/-- The coroutines by their frames. The fields from `accepts` on are history: the accept
operations, the frames of the clients in the order of their arrival, the first read and the
first write of a client, and the results of all its reads and writes. -/
structure Program where
  server : Option Nat
  terminated : Bool
  point : Nat → Point
  accepts : List Nat
  clients : List Nat
  reads : Nat → Option Nat
  writes : Nat → Option Nat
  results : Nat → List (Int × Bool)

/-- The Boolean is what the buffer says when `co_await` returns. -/
abbrev Label := Coroutine.Label × Bool

namespace Program

variable (p : Program)

def goto (f : Nat) (pc : Point) : Program :=
  { p with point := Function.update p.point f pc }

/-- Coroutine `f` constructs the operation at `a`. -/
def construct (f a : Nat) : Program :=
  let p' := p.goto f ((p.point f).constructed a)
  match p.point f with
  | .accept => { p' with accepts := p.accepts ++ [a] }
  | .read => { p' with reads := if p.reads f = none then Function.update p.reads f (some a) else p.reads }
  | .write =>
      { p' with writes := if p.writes f = none then Function.update p.writes f (some a) else p.writes }
  | _ => p'

/-- Coroutine `f` spawns the one in frame `child`. -/
def spawn (f child : Nat) : Program :=
  { (p.goto f .accept).goto child .read with clients := p.clients ++ [child] }

def act (s : State) (f : Nat) : UserAct → Program
  | .asyncOperation => p.construct f s.next
  | .asyncDrainOperation => p.construct f s.next
  | .coSpawn => p.spawn f s.nextFrame
  | .ret => p.goto f .gone
  | _ => p

/-- `co_await` in coroutine `f` returns. -/
def resume (f : Nat) (res : Int) (zz : Bool) : Program :=
  let pc := (p.point f).resumed res zz
  { p.goto f pc with
    terminated := pc = .exit
    results :=
      if (p.point f).transfers = true then Function.update p.results f (p.results f ++ [(res, zz)])
      else p.results }

end Program

/-- What `co_await` has returned in the step from `s` to `s'`. -/
def result (s s' : State) : Option Int :=
  match s'.returned with
  | (_, res) :: rest => if rest = s.returned then some res else none
  | [] => none

/-- The program after a step of the context. -/
def Program.next (p : Program) (s : State) (l : Label) (s' : State) : Program :=
  let p :=
    match l.1, s.running with
    | .coSpawn, _ => { p.goto s.nextFrame .accept with server := some s.nextFrame }
    | .user act, some h => p.act s h.frame act
    | _, _ => p
  match result s s', s'.running with
  | some res, some h => p.resume h.frame res l.2
  | _, _ => p

/-- What the code and the kernel may do. `main` spawns `server` and calls `run()`; nothing
comes from other contexts, and no request is cancelled. -/
def Program.permits (p : Program) (s : State) : Coroutine.Label → Prop
  | .coSpawn => p.server = none
  | .push _ => False
  | .runOnce exactlyOnce => exactlyOnce = false
  | .go => True
  | .user act => ∃ h ∈ s.running, (p.point h.frame).act = some act
  | .finish i res _ _ => res ≠ -ECANCELED ∧ s.ring.mayStart i
  | .more _ _ => True

instance (p : Program) (s : State) : (l : Coroutine.Label) → Decidable (p.permits s l)
  | .coSpawn => inferInstanceAs (Decidable (_ = _))
  | .push _ => inferInstanceAs (Decidable False)
  | .runOnce _ => inferInstanceAs (Decidable (_ = _))
  | .go => inferInstanceAs (Decidable True)
  | .user _ => inferInstanceAs (Decidable (∃ _ ∈ _, _))
  | .finish .. => inferInstanceAs (Decidable (_ ∧ _))
  | .more .. => inferInstanceAs (Decidable True)

def step (cfg : Config) (x : State × Program) (l : Label) : Option (State × Program) :=
  if x.2.terminated = false ∧ x.2.permits x.1 l.1 then
    (Coroutine.step cfg x.1 l.1).map fun s' => (s', x.2.next x.1 l s')
  else none

def Program.start : Program where
  server := none
  terminated := false
  point := fun _ => .gone
  accepts := []
  clients := []
  reads := fun _ => none
  writes := fun _ => none
  results := fun _ => []

def machine (cfg : Config) : Machine (State × Program) Label where
  init x := Init x.1 ∧ x.2 = .start
  step := step cfg

end DrainServer

end IoUring.Coroutine
