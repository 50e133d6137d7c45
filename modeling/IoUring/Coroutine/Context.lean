import Mathlib.Data.List.DropRight
import Mathlib.Logic.Function.Basic
import IoUring.Base.Machine
import IoUring.Coroutine.LinkLayout

/-!
# `Io_context`

One context with its ring. The context executes one access at a time; the
coroutine it has resumed does what it likes; the kernel finishes requests in any
order that the links allow, which includes the orders that `IOSQE_IO_DRAIN`
demands; another context pushes coroutines into the switch queue, which is a
bounded queue here. `io_uring_submit` takes every prepared entry. A step that is
undefined in C++ is not enabled, but an access to a destroyed operation is
recorded.
-/

namespace IoUring.Coroutine

def ECANCELED : Int := 125
def ENOMEM : Int := 12

structure Config where
  /-- The size of the SQ ring. -/
  entries : Nat
  /-- The size of the CQ ring. -/
  cqEntries : Nat
  cqEntries_pos : 0 < cqEntries
  /-- `uring_features::inflight_conflict`. -/
  inflightConflict : Bool := true

/-- A coroutine that can be resumed: its innermost frame and the frames of the
callers, linked by `_caller`. -/
structure Handle where
  frame : Nat
  callers : List Nat
  deriving DecidableEq

/-- What `uring_prep_fn` asks for. -/
inductive Request where
  | oneshot
  | multishot
  | cancel (userData : Nat)
  deriving DecidableEq

/-- `more` is `IORING_CQE_F_MORE`. -/
structure Cqe where
  data : Option Nat
  res : Int
  more : Bool
  deriving DecidableEq

/-- `sqe` and `uring` say whether the pointer is not null; `cqe` is a slot of the
CQ ring; `h` is `none` for `std::noop_coroutine()`. -/
structure AsyncUserData where
  uring : Bool := true
  sqe : Bool
  cqe : Option Nat := none
  h : Option Handle := none
  deriving DecidableEq

/-- `Async_operation` or `Async_multishot_operation`. -/
structure Awaitable where
  multishot : Bool
  alive : Bool := true
  userData : AsyncUserData
  deriving DecidableEq

/-- Linked requests that are not finished; the first one is the next to finish,
with `-ECANCELED` after a link was severed. -/
structure Chain where
  members : List (Sqe Request)
  severed : Bool
  deriving DecidableEq

structure Ring where
  sq : List (Sqe Request)
  flight : List Chain
  khead : Nat
  ktail : Nat
  cqes : Nat → Cqe

/-- The points of `run_once()`; `launch` counts the coroutines that are still to be
resumed. -/
inductive Phase where
  | idle
  | launch (some : Nat)
  | submit
  | reap (done : Nat)
  deriving DecidableEq

/-- How a request has finished. -/
structure Outcome where
  res : Int
  failed : Bool
  severed : Bool
  deriving DecidableEq

/-- `suspended` is the coroutine that waits for an operation. The fields from
`posted` on are history: the CQEs that were posted, the number of requests that
finished without a CQE, for each expression over `&` and `|` the entries that are
linked to the one of its awaitable, and this one, the outcomes, the operations that
were awaited, what `co_await` returned, and whether a destroyed operation was
accessed. -/
structure State where
  operations : List Handle
  inflight : Nat
  switchSpsc : List Handle
  phase : Phase
  running : Option Handle
  ring : Ring
  next : Nat
  nextFrame : Nat
  object : Nat → Awaitable
  suspended : Nat → Option Handle
  posted : List Cqe
  silent : Nat
  chains : List (List (Sqe Request))
  outcome : Nat → Option Outcome
  awaits : List Nat
  returned : List (Nat × Int)
  torn : Bool

/-- What a running coroutine does. `rightFirst` are the operators whose right operand is
evaluated first. `stale` is the user data that the entry of a cancellation has from the
request that was in its slot before. -/
inductive UserAct where
  | asyncOperation
  | asyncDrainOperation
  | asyncMultishotOperation
  | link (e : Expr Request) (rightFirst : List (List Bool))
  | await (userData : Nat)
  | coSpawn
  | call
  | ret
  | switchTo (ok : Bool)
  | dropOperation (userData : Nat)
  | dropMultishot (userData : Nat) (stale : Option Nat)
  deriving DecidableEq

/-- `coSpawn` comes from outside of the context, `push` from another context. -/
inductive Label where
  | coSpawn
  | push (h : Handle)
  | runOnce (exactlyOnce : Bool)
  | go
  | user (act : UserAct)
  | finish (i : Nat) (res : Int) (failed post : Bool)
  | more (i : Nat) (res : Int)
  deriving DecidableEq

/-! ## The ring -/

def Sqe.linked {P : Type*} (e : Sqe P) : Bool :=
  e.flags.ioLink || e.flags.ioHardlink

/-- The address of the operation that a request belongs to. A cancellation has the user
data of another one. -/
def Sqe.operation (e : Sqe Request) : Option Nat :=
  match e.prep with
  | .cancel _ => none
  | _ => e.data

/-- The entries that are linked to entry `i`, and this one. -/
def chainTo {P : Type*} (sq : List (Sqe P)) (i : Nat) : List (Sqe P) :=
  (sq.take i).rtakeWhile Sqe.linked ++ sq[i]?.toList

/-- The chains of a submission. -/
def chainsOf {P : Type*} : List (Sqe P) → List (List (Sqe P))
  | [] => []
  | e :: es =>
      match e.linked, chainsOf es with
      | true, c :: cs => (e :: c) :: cs
      | _, cs => [e] :: cs

/-- `io_uring_submit`. -/
def Ring.submit (r : Ring) : Ring :=
  { r with sq := [], flight := r.flight ++ (chainsOf r.sq).map (⟨·, false⟩) }

/-- The kernel writes a CQE into the next slot. -/
def State.post (cfg : Config) (s : State) (c : Cqe) : State :=
  { s with
    ring := { s.ring with
      cqes := Function.update s.ring.cqes (s.ring.ktail % cfg.cqEntries) c
      ktail := s.ring.ktail + 1 }
    posted := s.posted ++ [c] }

def Ring.hasRoom (cfg : Config) (r : Ring) : Prop :=
  r.ktail < r.khead + cfg.cqEntries

instance (cfg : Config) (r : Ring) : Decidable (r.hasRoom cfg) :=
  inferInstanceAs (Decidable (_ < _))

/-- Whether a finished request has a CQE. The kernel is free to post one or not for
a request of a severed chain, and for a cancellation, whose flags
`io_uring_prep_cancel` overwrites. -/
def posts (e : Sqe Request) (severed failed post : Bool) : Bool :=
  match severed, e.prep with
  | true, _ => post
  | false, .cancel _ => post
  | false, _ => !e.flags.cqeSkipSuccess || failed

/-- The first request of chain `i` finishes. A link that is not hard is severed by
a failure, also by a short transfer. -/
def finishStep (cfg : Config) (s : State) (i : Nat) (res : Int) (failed post : Bool) :
    Option State :=
  match s.ring.flight[i]? with
  | some ⟨e :: rest, severed⟩ =>
      if (severed = true → res = -ECANCELED) ∧ (severed = true ∨ res < 0 → failed = true) then
        let chain : Chain := ⟨rest, severed || failed && !e.flags.ioHardlink⟩
        let s := { s with
          ring := { s.ring with flight := s.ring.flight.set i chain }
          outcome := fun a =>
            if e.operation = some a then some ⟨res, failed, severed⟩ else s.outcome a }
        if posts e severed failed post then
          if s.ring.hasRoom cfg then some (s.post cfg ⟨e.data, res, false⟩) else none
        else some { s with silent := s.silent + 1 }
      else none
  | _ => none

/-- A multishot request posts a CQE and goes on. -/
def moreStep (cfg : Config) (s : State) (i : Nat) (res : Int) : Option State :=
  match s.ring.flight[i]? with
  | some ⟨e :: _, _⟩ =>
      if e.prep = .multishot ∧ s.ring.hasRoom cfg then some (s.post cfg ⟨e.data, res, true⟩)
      else none
  | _ => none

/-! ## Operations -/

namespace State

variable (s : State)

def setObject (a : Nat) (o : Awaitable) : State :=
  { s with object := Function.update s.object a o }

def setUserData (a : Nat) (d : AsyncUserData) : State :=
  s.setObject a { s.object a with userData := d }

/-- The SQ ring as a constructor sees it. -/
def sqRing (cfg : Config) : SqRing Request :=
  ⟨cfg.entries, s.ring.sq, s.next⟩

/-- The objects that were constructed on the way to `r`. -/
def construct (r : SqRing Request) (o : Awaitable) : State :=
  { s with
    ring := { s.ring with sq := r.sq }
    next := r.next
    object := fun a => if s.next ≤ a ∧ a < r.next then o else s.object a }

/-- `await_resume()` of `Async_operation` and `Async_multishot_operation`. The
latter drops `uring` after a CQE without `IORING_CQE_F_MORE`. -/
def awaitResume (a : Nat) : State :=
  let o := s.object a
  let d := o.userData
  let cqe := d.cqe.map s.ring.cqes
  let res := if d.sqe then (cqe.map Cqe.res).getD 0 else -ENOMEM
  let s := { s with returned := (a, res) :: s.returned }
  if o.multishot then
    s.setUserData a { d with uring := d.uring && (cqe.map Cqe.more).getD false, cqe := none }
  else s

end State

/-- `co_await` of an operation by the running coroutine `h`. -/
def awaitStep (s : State) (h : Handle) (a : Nat) : Option State :=
  if a < s.next ∧ (s.object a).alive = true ∧ s.suspended a = none then
    let s := { s with awaits := a :: s.awaits }
    let d := (s.object a).userData
    if d.sqe && d.cqe.isNone then
      some { s.setUserData a { d with h := some h } with
        suspended := Function.update s.suspended a (some h)
        running := none }
    else some (s.awaitResume a)
  else none

/-- The constructors of plain, drain and multishot operations. A drain operation
writes through its `sqe`. -/
def constructStep (cfg : Config) (s : State) (prep : Request) (drain : Bool) : Option State :=
  let r := asyncOperation (s.sqRing cfg) prep
  let o : Awaitable := { multishot := prep = .multishot, userData := { sqe := r.2.sqe.isSome } }
  match drain, r.2.sqe with
  | false, _ => some (s.construct r.1 o)
  | true, some i => some (s.construct { r.1 with
      sq := r.1.sq.modify i fun e => { e with flags := { e.flags with ioDrain := true } } } o)
  | true, none => none

/-- An expression over `&` and `|` of plain operations. It goes through a null
pointer when the SQ ring is full. -/
def linkStep (cfg : Config) (s : State) (e : Expr Request) (order : Order) : Option State :=
  if e.operators ≠ [] ∧ ∀ prep ∈ e.leaves, prep = .oneshot then
    match e.eval order (s.sqRing cfg) with
    | some (r, op) => some { s.construct r { multishot := false, userData := { sqe := true } } with
        chains := op.sqe.toList.map (chainTo r.sq) ++ s.chains }
    | none => none
  else none

/-- The ring is submitted when it is full. -/
def Ring.retrieve (cfg : Config) (r : Ring) : Ring :=
  if r.sq.length < cfg.entries then r else r.submit

/-- A cancellation is submitted if there is an entry. Its user data is not set. -/
def Ring.cancel (cfg : Config) (r : Ring) (a : Nat) (stale : Option Nat) : Ring :=
  let r := r.retrieve cfg
  let e : Sqe Request := ⟨.cancel a, { cqeSkipSuccess := true }, stale⟩
  if r.sq.length < cfg.entries then Ring.submit { r with sq := r.sq ++ [e] } else r

/-- The end of an `Async_operation`, or of a `Sync_link_operation`. -/
def dropOperation (s : State) (a : Nat) : State :=
  s.setObject a { s.object a with alive := false }

/-- `~Async_multishot_operation`. -/
def dropMultishot (cfg : Config) (s : State) (a : Nat) (stale : Option Nat) : State :=
  { dropOperation s a with
    ring := if (s.object a).userData.uring then s.ring.cancel cfg a stale else s.ring }

def coSpawn (s : State) : State :=
  { s with
    operations := s.operations ++ [⟨s.nextFrame, []⟩]
    nextFrame := s.nextFrame + 1 }

def userStep (cfg : Config) (s : State) (h : Handle) : UserAct → Option State
  | .asyncOperation => constructStep cfg s .oneshot false
  | .asyncDrainOperation => constructStep cfg s .oneshot true
  | .asyncMultishotOperation => constructStep cfg s .multishot false
  | .link e rightFirst => linkStep cfg s e (.ofRight rightFirst)
  | .await a => awaitStep s h a
  | .coSpawn => some (coSpawn s)
  | .call => some { s with
      running := some ⟨s.nextFrame, h.frame :: h.callers⟩
      nextFrame := s.nextFrame + 1 }
  | .ret =>
      match h.callers with
      | [] => some { s with running := none }
      | frame :: callers => some { s with running := some ⟨frame, callers⟩ }
  | .switchTo ok => some (if ok then { s with running := none } else s)
  | .dropOperation a =>
      if a < s.next ∧ (s.object a).multishot = false ∧ (s.object a).alive = true ∧
          s.suspended a = none then
        some (dropOperation s a)
      else none
  | .dropMultishot a stale =>
      if a < s.next ∧ (s.object a).multishot = true ∧ (s.object a).alive = true ∧
          s.suspended a = none then
        some (dropMultishot cfg s a stale)
      else none

/-! ## `run_once()` -/

/-- `run_once_prepare()`, and the number of coroutines to be resumed. -/
def prepareStep (s : State) (exactlyOnce : Bool) : State :=
  let operations := s.operations ++ s.switchSpsc.take 1
  { s with
    operations := operations
    switchSpsc := s.switchSpsc.drop 1
    phase := .launch (min (if exactlyOnce then 1 else 32) operations.length) }

/-- `user_data->cqe = cqe; user_data->h.resume();`. The coroutine goes on where it
waits for this operation. A run ends where it waits for another one, whose
`await_resume` goes through a null pointer. -/
def completeStep (s : State) (a slot : Nat) : Option State :=
  let o := s.object a
  if o.alive = false then some { s with torn := true }
  else
    let s := s.setUserData a { o.userData with cqe := some slot }
    match o.userData.h with
    | none => some s
    | some h =>
        if s.suspended a = some h then
          some { s.awaitResume a with
            suspended := Function.update s.suspended a none
            running := some h }
        else none

/-- `inflight_conflict_workaround` and the assertion after it. -/
def leaveStep (cfg : Config) (s : State) (done : Nat) : Option State :=
  let inflight := if cfg.inflightConflict then max s.inflight done else s.inflight
  if done ≤ inflight then
    some { s with
      ring := { s.ring with khead := s.ring.khead + done }
      inflight := inflight - done
      phase := .idle }
  else none

/-- The body of `io_uring_for_each_cqe` after `done` CQEs, or what follows it. The user data
of an entry that was never used is a null pointer. -/
def reapStep (cfg : Config) (s : State) (done : Nat) : Option State :=
  if s.ring.khead + done < s.ring.ktail then
    let slot := (s.ring.khead + done) % cfg.cqEntries
    let cqe := s.ring.cqes slot
    let s := { s with phase := .reap (done + 1) }
    if cqe.res = -ECANCELED then some s
    else
      match cqe.data with
      | some a => completeStep s a slot
      | none => none
  else leaveStep cfg s done

/-- `_inflight += io_uring_submit(&uring)`, and the return when nothing is in
flight. -/
def submitStep (cfg : Config) (s : State) : State :=
  let inflight := s.inflight + s.ring.sq.length
  { s with
    inflight := inflight
    ring := s.ring.submit
    phase := if inflight = 0 ∧ cfg.inflightConflict = false then .idle else .reap 0 }

def goStep (cfg : Config) (s : State) : Option State :=
  match s.phase with
  | .idle => none
  | .launch 0 => some { s with phase := .submit }
  | .launch (n + 1) =>
      match s.operations with
      | [] => none
      | h :: operations => some { s with
          operations := operations
          running := some h
          phase := .launch n }
  | .submit => some (submitStep cfg s)
  | .reap done => reapStep cfg s done

def step (cfg : Config) (s : State) : Label → Option State
  | .coSpawn => if s.phase = .idle then some (coSpawn s) else none
  | .push h =>
      if s.switchSpsc.length < 63 then some { s with switchSpsc := s.switchSpsc ++ [h] } else none
  | .runOnce exactlyOnce =>
      if s.phase = .idle then some (prepareStep s exactlyOnce) else none
  | .go =>
      match s.running with
      | none => goStep cfg s
      | some _ => none
  | .user act =>
      match s.running with
      | some h => userStep cfg s h act
      | none => none
  | .finish i res failed post => finishStep cfg s i res failed post
  | .more i res => moreStep cfg s i res

/-- `drained()`. -/
def State.drained (s : State) : Bool :=
  s.operations.isEmpty && s.inflight == 0

/-- A context without coroutines. -/
def Init (s : State) : Prop :=
  s.operations = [] ∧ s.inflight = 0 ∧ s.switchSpsc = [] ∧ s.phase = .idle ∧ s.running = none ∧
    s.ring.sq = [] ∧ s.ring.flight = [] ∧ s.ring.khead = 0 ∧ s.ring.ktail = 0 ∧ s.next = 0 ∧
    (∀ a, s.suspended a = none) ∧ s.posted = [] ∧ s.silent = 0 ∧ s.chains = [] ∧
    (∀ a, s.outcome a = none) ∧ s.awaits = [] ∧ s.returned = [] ∧ s.torn = false

def machine (cfg : Config) : Machine State Label where
  init := Init
  step := step cfg

/-- A fresh context. -/
def State.start : State where
  operations := []
  inflight := 0
  switchSpsc := []
  phase := .idle
  running := none
  ring := { sq := [], flight := [], khead := 0, ktail := 0, cqes := fun _ => ⟨none, 0, false⟩ }
  next := 0
  nextFrame := 0
  object := fun _ => { multishot := false, userData := { sqe := false } }
  suspended := fun _ => none
  posted := []
  silent := 0
  chains := []
  outcome := fun _ => none
  awaits := []
  returned := []
  torn := false

def smallConfig : Config where
  entries := 8
  cqEntries := 16
  cqEntries_pos := by decide

theorem init_start : Init .start := by
  simp [Init, State.start]

end IoUring.Coroutine
