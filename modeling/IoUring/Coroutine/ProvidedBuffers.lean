import IoUring.Base.Machine
import IoUring.Base.Slots
import Mathlib.Data.Nat.Bitwise

/-!
# Provided buffers

A ring of buffers that the program fills and the kernel empties, with 16-bit
counters on both sides. Any number of reads are in flight. The kernel picks the
buffer at the head for one of them, and a coroutine that has its data puts the
buffer back. All coroutines run on one thread, the kernel beside them; a buffer
that the kernel looks at and leaves in the ring is no step.
-/

namespace IoUring.Coroutine.ProvidedBuffers

/-! ## The ring of `liburing` -/

/-- `io_uring_buf`. -/
structure Buf where
  addr : Nat
  len : Nat
  bid : Nat
  deriving DecidableEq

/-- `io_uring_buf_ring`, with the head that the kernel keeps. -/
structure BufRing where
  bufs : Nat → Buf
  head : Nat
  tail : Nat

namespace BufRing

/-- `io_uring_buf_ring_init`. -/
def init : BufRing :=
  ⟨fun _ => ⟨0, 0, 0⟩, 0, 0⟩

/-- `io_uring_buf_ring_add`, which takes an `unsigned int` and an `unsigned short`. -/
def add (r : BufRing) (addr len bid mask bufOffset : Nat) : BufRing :=
  { r with
    bufs := Function.update r.bufs ((r.tail + bufOffset) &&& mask)
      ⟨addr, len % 2 ^ 32, bid % 2 ^ 16⟩ }

/-- `io_uring_buf_ring_advance`. -/
def advance (r : BufRing) (count : Nat) : BufRing :=
  { r with tail := (r.tail + count) % 2 ^ 16 }

/-- The entries that the kernel can pick, in the order in which it does. -/
def window (r : BufRing) (mask : Nat) : List Buf :=
  (List.range ((r.tail + 2 ^ 16 - r.head) % 2 ^ 16)).map fun i => r.bufs ((r.head + i) &&& mask)

end BufRing

/-! ## `feature_provided_buffers.h` -/

/-- The arguments of `make_provided_buffers` and the address of its `buffers`. The
kernel registers rings of up to `2 ^ 15` entries. -/
structure Config where
  nentries : Nat
  perBufferSize : Nat
  base : Nat
  pow_two : ∃ k, k ≤ 15 ∧ nentries = 2 ^ k

namespace Config

variable (cfg : Config)

/-- `io_uring_buf_ring_mask`. -/
def mask : Nat :=
  cfg.nentries - 1

/-- The lambda `buffer`, which is also the `buffer_finder` of the helpers. -/
def buffer (index : Nat) : Nat :=
  cfg.base + cfg.perBufferSize * index

def makeProvidedBuffers : BufRing :=
  let bufRing := (List.range cfg.nentries).foldl
    (fun (r : BufRing) i => r.add (cfg.buffer i) cfg.perBufferSize i cfg.mask i) .init
  bufRing.advance cfg.nentries

end Config

structure Cqe where
  res : Int
  flags : Nat
  deriving DecidableEq

/-- `IORING_CQE_F_BUFFER`. -/
def Cqe.buffer (cqe : Cqe) : Bool :=
  cqe.flags &&& 1 ≠ 0

/-- `cqe->flags >> IORING_CQE_BUFFER_SHIFT`. -/
def Cqe.bid (cqe : Cqe) : Nat :=
  cqe.flags >>> 16

/-- `await_resume()` of `Async_provided_buffers_operations` with an SQE. -/
def awaitResume (cqe : Cqe) : Int × Nat :=
  if cqe.res < 0 then (cqe.res, 0)
  else if cqe.buffer then (cqe.res, cqe.bid)
  else (cqe.res, 0)

/-! ## Reads -/

/-- `picked`: the kernel has chosen the buffer of a read that is not completed.
`handed`: `co_await` has returned the buffer ID with a result that is no error.
`rejoining`: between the two calls of `buffer_rejoin`. -/
inductive Read where
  | waiting
  | picked (bid : Nat)
  | failed
  | handed (bid : Nat)
  | rejoining (bid : Nat)
  | rejoined
  deriving DecidableEq

/-- The buffer that a read has. -/
def Read.bid : Read → Option Nat
  | .picked bid => some bid
  | .handed bid => some bid
  | .rejoining bid => some bid
  | _ => none

def Read.isRejoining : Read → Bool
  | .rejoining _ => true
  | _ => false

structure State where
  ring : BufRing
  reads : List Read

inductive Label where
  | read
  | pick (i : Nat)
  | complete (i : Nat) (cqe : Cqe)
  | add (i : Nat)
  | advance (i : Nat)
  deriving DecidableEq

namespace State

variable (s : State)

def setRead (i : Nat) (r : Read) : State :=
  { s with reads := s.reads.set i r }

/-- The coroutine of read `i` gets the CQE. A coroutine with an error does not rejoin. -/
def resume (i : Nat) (cqe : Cqe) : State :=
  let (res, bid) := awaitResume cqe
  s.setRead i (if res < 0 then .failed else .handed bid)

end State

def step (cfg : Config) (s : State) : Label → Option State
  | .read => some { s with reads := s.reads ++ [.waiting] }
  | .pick i =>
      match s.reads[i]? with
      | some .waiting =>
          if s.ring.head ≠ s.ring.tail then
            let buf := s.ring.bufs (s.ring.head &&& cfg.mask)
            some { s.setRead i (.picked buf.bid) with
              ring := { s.ring with head := (s.ring.head + 1) % 2 ^ 16 } }
          else none
      | _ => none
  | .complete i cqe =>
      -- the flag says whether a buffer was chosen, and the upper bits say which one
      match s.reads[i]? with
      | some .waiting => if cqe.buffer = false then some (s.resume i cqe) else none
      | some (.picked bid) =>
          if cqe.buffer = true ∧ cqe.bid = bid then some (s.resume i cqe) else none
      | _ => none
  | .add i =>
      match s.reads[i]? with
      | some (.handed bid) =>
          if s.reads.any Read.isRejoining then none
          else some { s.setRead i (.rejoining bid) with
            ring := s.ring.add (cfg.buffer bid) cfg.perBufferSize bid cfg.mask 0 }
      | _ => none
  | .advance i =>
      match s.reads[i]? with
      | some (.rejoining _) => some { s.setRead i .rejoined with ring := s.ring.advance 1 }
      | _ => none

def Init (cfg : Config) (s : State) : Prop :=
  s = ⟨cfg.makeProvidedBuffers, []⟩

def machine (cfg : Config) : Machine State Label where
  init := Init cfg
  step := step cfg

/-- Every buffer is in one place, that is in the ring or with one read, and the ring
holds what `make_provided_buffers` put into it. -/
structure Conserved (cfg : Config) (s : State) : Prop where
  place : ∀ bid < cfg.nentries, ((s.ring.window cfg.mask).map Buf.bid).count bid +
    (s.reads.map Read.bid).count (some bid) = 1
  owner : ∀ (i j : Nat) (r r' : Read) (bid : Nat), s.reads[i]? = some r → s.reads[j]? = some r' →
    r.bid = some bid → r'.bid = some bid → i = j
  buffers : ∀ b ∈ s.ring.window cfg.mask, b.bid < cfg.nentries ∧ b.addr = cfg.buffer b.bid
  room : (s.ring.window cfg.mask).length ≤ cfg.nentries

/-- A CQE carries `IORING_CQE_F_BUFFER` if and only if it is no error. -/
def Flagged (_ : State) : Label → Prop
  | .complete _ cqe => 0 ≤ cqe.res ↔ cqe.buffer = true
  | _ => True

instance (s : State) : ∀ a, Decidable (Flagged s a)
  | .complete _ cqe => inferInstanceAs (Decidable (0 ≤ cqe.res ↔ cqe.buffer = true))
  | .read | .pick _ | .add _ | .advance _ => inferInstanceAs (Decidable True)

end IoUring.Coroutine.ProvidedBuffers
