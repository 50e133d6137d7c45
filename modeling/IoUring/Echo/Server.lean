import Mathlib.Logic.Function.Basic
import IoUring.Base.Machine

/-!
# The echo server with callbacks

One loop waits for a CQE and calls the handler of its operation, which issues the next one.
The user data of a request is the operation and the file descriptor of the client. The
kernel finishes requests in any order and gives the lowest or any other free descriptor to a
new client. The CQ ring keeps all CQEs, as the kernel does with those that do not fit.
-/

namespace IoUring.Echo

/-- A `char`. -/
abbrev Byte := BitVec 8

/-- An `int`, or a `uint32_t`. -/
abbrev Word := BitVec 32

/-- `std::size` of a buffer. -/
def bufferSize : Nat := 4096

abbrev Buffer := Nat → Byte

/-- A new buffer in the map is value-initialized. -/
def Buffer.zero : Buffer := fun _ => 0

def Buffer.take (b : Buffer) (n : Nat) : List Byte :=
  (List.range n).map b

def Buffer.fill (b : Buffer) (block : List Byte) : Buffer := fun i => block.getD i (b i)

inductive OP where
  | trap
  | accept
  | read
  | write
  | close
  deriving DecidableEq

def OP.code : OP → Word
  | .trap => 0
  | .accept => 1
  | .read => 2
  | .write => 3
  | .close => 4

def dataPack (high32 low32 : Word) : BitVec 64 :=
  high32.setWidth 64 <<< 32 ||| low32.setWidth 64

def dataUnpack (data : BitVec 64) : Word × BitVec 64 :=
  (data.setWidth 32, data >>> 32)

/-- What a request asks for. A buffer has an address. -/
inductive Prep where
  | accept
  | read (fd : Word) (buf nbytes : Nat)
  | write (fd : Word) (buf nbytes : Nat)
  | close (fd : Word)
  deriving DecidableEq

structure Sqe where
  prep : Prep
  data : BitVec 64
  deriving DecidableEq

structure Cqe where
  data : BitVec 64
  res : Word
  deriving DecidableEq

/-- `connection` is the kernel's table of the descriptors of clients, `started` says whether
`main` is in its loop, and `torn` whether a buffer was accessed that does not exist, or beyond
its end. The fields from `connections` on
are history: how many clients were accepted, the blocks that were received from each of them,
and sent to it, and the results that its handlers have seen, with what its buffer said then. -/
structure State where
  bufMap : Word → Option Nat
  memory : Nat → Option Buffer
  next : Nat
  flight : List Sqe
  cqes : List Cqe
  stdout : List Byte
  connection : Word → Option Nat
  started : Bool
  terminated : Bool
  torn : Bool
  connections : Nat
  received : Nat → List (List Byte)
  sent : Nat → List (List Byte)
  results : Nat → List (Int × Bool)

namespace State

variable (s : State)

/-- `buf_map[fd]`. -/
def buf (fd : Word) : Nat × State :=
  match s.bufMap fd with
  | some a => (a, s)
  | none => (s.next, { s with
      bufMap := Function.update s.bufMap fd (some s.next)
      memory := Function.update s.memory s.next (some .zero)
      next := s.next + 1 })

/-- `buf_map.erase(fd)`. -/
def erase (fd : Word) : State :=
  match s.bufMap fd with
  | some a => { s with
      bufMap := Function.update s.bufMap fd none
      memory := Function.update s.memory a none }
  | none => s

/-- The first bytes of a buffer. -/
def load (a n : Nat) : Option (List Byte) :=
  match s.memory a with
  | some b => if n ≤ bufferSize then some (b.take n) else none
  | none => none

/-- `std::copy_n` to the standard output. -/
def print (a n : Nat) : State :=
  match s.load a n with
  | some block => { s with stdout := s.stdout ++ block }
  | none => { s with torn := true }

end State

/-! ## Handlers

`none` is `std::terminate()`. -/

/-- `nofail`, with the default comparison. -/
def nofail (res : Word) : Option Nat :=
  if res.toInt < 0 then none else some res.toNat

/-- `ok` says whether `io_uring_submit` has submitted something. -/
def asyncOperation (s : State) (ok : Bool) (data : BitVec 64) (prep : Prep) : Option State :=
  if ok then some { s with flight := s.flight ++ [⟨prep, data⟩] } else none

def asyncAccept (s : State) (ok : Bool) : Option State :=
  asyncOperation s ok (dataPack 0 OP.accept.code) .accept

def asyncRead (s : State) (ok : Bool) (fd : Word) (buf : Nat) : Option State :=
  asyncOperation s ok (dataPack fd OP.read.code) (.read fd buf bufferSize)

def asyncWrite (s : State) (ok : Bool) (fd : Word) (buf nbytes : Nat) : Option State :=
  asyncOperation s ok (dataPack fd OP.write.code) (.write fd buf nbytes)

def asyncClose (s : State) (ok : Bool) (fd : Word) : Option State :=
  asyncOperation s ok (dataPack fd OP.close.code) (.close fd)

/-- `handlers[OP_ACCEPT]`. `ok` is the result of each `io_uring_submit`. -/
def onAccept (s : State) (ok : Nat → Bool) (cqe : Cqe) : Option State := do
  let _ ← nofail cqe.res
  let (a, s) := s.buf cqe.res
  let s ← asyncRead s (ok 0) cqe.res a
  asyncAccept s (ok 1)

/-- `handlers[OP_READ]`. -/
def onRead (s : State) (ok : Nat → Bool) (cqe : Cqe) (fd : Word) : Option State := do
  let n ← nofail cqe.res
  let (a, s) := s.buf fd
  asyncWrite (s.print a n) (ok 0) fd a n

/-- The bytes `Zz`. -/
def zz : List Byte := [0x5a, 0x7a]

/-- `handlers[OP_WRITE]`. -/
def onWrite (s : State) (ok : Nat → Bool) (cqe : Cqe) (fd : Word) : Option State := do
  let n ← nofail cqe.res
  let (a, s) := s.buf fd
  let closeProactive := n > 2 ∧ s.load a 2 = some zz
  let closeReactive := n = 0
  if closeReactive ∨ closeProactive then
    let s ← asyncClose s (ok 0) fd
    return s.erase fd
  else asyncRead s (ok 0) fd a

/-- A call through the array of handlers. The one for `OP_CLOSE` is empty. -/
def handle (s : State) (ok : Nat → Bool) (cqe : Cqe) : Option State :=
  let (op, userData) := dataUnpack cqe.data
  let fd := userData.setWidth 32
  match op.toNat with
  | 0 => none
  | 1 => onAccept s ok cqe
  | 2 => onRead s ok cqe fd
  | 3 => onWrite s ok cqe fd
  | 4 => some s
  | _ => some { s with torn := true }

/-- The result of a read or of a write, when its handler is called. -/
def State.record (s : State) (cqe : Cqe) : Nat → List (Int × Bool) :=
  let (op, userData) := dataUnpack cqe.data
  let fd := userData.setWidth 32
  match s.connection fd, s.bufMap fd with
  | some c, some a =>
      if op = OP.read.code ∨ op = OP.write.code then
        Function.update s.results c (s.results c ++ [(cqe.res.toInt, decide (s.load a 2 = some zz))])
      else s.results
  | _, _ => s.results

/-! ## The kernel and the loop -/

/-- How a request finishes. -/
inductive Result where
  | accepted (fd : Word)
  | read (block : List Byte)
  | wrote (n : Nat)
  | closed (res : Word)
  | failed (res : Word)
  deriving DecidableEq

/-- `ok` is the result of `io_uring_wait_cqe`, or of each `io_uring_submit`. -/
inductive Label where
  | finish (i : Nat) (result : Result)
  | kickOff (ok : Bool)
  | loop (wait : Bool) (ok : Nat → Bool)

namespace State

variable (s : State)

def post (i : Nat) (e : Sqe) (res : Word) : State :=
  { s with flight := s.flight.eraseIdx i, cqes := s.cqes ++ [⟨e.data, res⟩] }

def log (h : Nat → List (List Byte)) (fd : Word) (block : List Byte) : Nat → List (List Byte) :=
  match s.connection fd with
  | some c => Function.update h c (h c ++ [block])
  | none => h

/-- The kernel finishes request `i`. `reserved` says which descriptors are no clients. -/
def finish (reserved : Word → Bool) (i : Nat) (e : Sqe) (result : Result) : Option State :=
  match e.prep, result with
  | .accept, .accepted fd =>
      if 0 ≤ fd.toInt ∧ reserved fd = false ∧ s.connection fd = none then
        some { s.post i e fd with
          connection := Function.update s.connection fd (some s.connections)
          connections := s.connections + 1 }
      else none
  | .read fd a n, .read block =>
      if block.length ≤ n then
        match s.memory a with
        | some b => some { s.post i e (BitVec.ofNat 32 block.length) with
            memory := Function.update s.memory a (some (b.fill block))
            received := s.log s.received fd block }
        | none => some { s with torn := true }
      else none
  | .write fd a n, .wrote m =>
      if m ≤ n then
        match s.load a m with
        | some block => some { s.post i e (BitVec.ofNat 32 m) with sent := s.log s.sent fd block }
        | none => some { s with torn := true }
      else none
  | .close fd, .closed res =>
      some { s.post i e res with connection := Function.update s.connection fd none }
  | .close _, _ => none
  | _, .failed res => if res.toInt < 0 then some (s.post i e res) else none
  | _, _ => none

end State

def step (reserved : Word → Bool) (s : State) (l : Label) : Option State :=
  if s.terminated = true then none
  else
    match l with
    | .finish i result =>
        match s.flight[i]? with
        | some e => s.finish reserved i e result
        | none => none
    | .kickOff ok =>
        if s.started = true then none
        else
          let s := { s with started := true }
          some ((asyncAccept s ok).getD { s with terminated := true })
    | .loop wait ok =>
        match s.started, wait, s.cqes with
        | true, false, _ => some { s with terminated := true }
        | true, true, cqe :: cqes =>
            match handle s ok cqe with
            | some s' => some { s' with cqes := cqes, results := s.record cqe }
            | none => some { s with terminated := true }
        | _, _, _ => none

/-- Before `async_accept` in `main`. -/
def State.start : State where
  bufMap := fun _ => none
  memory := fun _ => none
  next := 0
  flight := []
  cqes := []
  stdout := []
  connection := fun _ => none
  started := false
  terminated := false
  torn := false
  connections := 0
  received := fun _ => []
  sent := fun _ => []
  results := fun _ => []

def machine (reserved : Word → Bool) : Machine State Label where
  init s := s = .start
  step := step reserved

end IoUring.Echo
