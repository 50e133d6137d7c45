import Mathlib.Algebra.Group.Nat.Defs
import IoUring.Base.Machine
import IoUring.Exec.IntrusiveQueue

/-!
# `schedule()` on an executor and the launch of its task map

Any number of starters run `start_operation` and any number of runners launch
buckets of `_immediate_map`, one access to memory at a time. A task is created
at an address, and after its completion the address may be used again at once,
also by the callback that runs inside `complete`: between two steps of a runner
every other step is possible.
-/

namespace IoUring.Exec

/-- `Fixed_bucket_size`. -/
def nWayConcurrency : Nat := 16

abbrev Bucket := Fin nWayConcurrency

/-- The bucket of `robin_access()[index]`. -/
def robinAccess (index : Nat) : Bucket :=
  ⟨index % nWayConcurrency, Nat.mod_lt _ (by decide)⟩

namespace TaskMap

/-- Addresses on the stacks of the runners, where `make_fifo` keeps its
sentinel, are never addresses of tasks. -/
structure Layout (α ρ : Type*) where
  onStack : α → Bool
  sentinel : ρ → α
  sentinel_onStack : ∀ r, onStack (sentinel r) = true

/-- How far `start()` has been called on a task: not yet, in progress, or it has
pushed the task. -/
inductive Phase where
  | constructed
  | starting
  | started
  deriving DecidableEq

/-- A thread inside `start_operation(io_uring_exec *, operation)`. -/
inductive StarterPc (α : Type*) where
  | idle
  | fetchAdd (op : α)
  | push (op : α) (q : Bucket) (pc : PushPc α)

/-- A thread inside the lambda `launch` of `run()`. `walk op` is the test of
`safe_for_each` and the read of `next(op)`, `call op rest` the call of `complete`
after the exchange that left `rest` in the loop variable. -/
inductive RunnerPc (α : Type*) where
  | idle
  | moveAll (q : Bucket) (pc : MoveAllPc α)
  | makeFifo (node : α) (pc : MakeFifoPc α)
  | walk (op : Option α)
  | call (op : α) (rest : Option α)

/-- `object a` is the task that lives at address `a`. A task keeps its number
when its memory is gone, so completions are counted per task, not per address.
`wild` records a call of `complete` where no task lives. -/
structure State (α τ ρ : Type*) where
  heap : Heap α Bucket
  storeBalance : Nat
  walltimeStep : Nat
  starter : τ → StarterPc α
  runner : ρ → RunnerPc α
  object : α → Option Nat
  created : Nat
  phase : Nat → Phase
  completed : Nat → Nat
  wild : Bool

inductive Label (α τ ρ : Type*) where
  | construct (a : α)
  | destroy (a : α)
  | scribble (a : α) (v : Option α)
  | start (t : τ) (a : α)
  | starter (t : τ) (spurious : Bool)
  | launchRobin (r : ρ)
  | launchRandom (r : ρ) (b : Bucket)
  | runner (r : ρ) (spurious : Bool)
  | tick

variable {α τ ρ : Type*} [DecidableEq α] [DecidableEq τ] [DecidableEq ρ]

section Step

variable (L : Layout α ρ) (locality : ρ → Bool)

/-- One access of `start_operation`. `_store_balance` is a `size_t`. -/
def starterStep (s : State α τ ρ) (t : τ) (spurious : Bool) : Option (State α τ ρ) :=
  match s.starter t with
  | .idle => none
  | .fetchAdd op => some { s with
      storeBalance := (s.storeBalance + 1) % 2 ^ 64
      starter := Function.update s.starter t (.push op (robinAccess s.storeBalance) .load) }
  | .push op q pc =>
      match pushStep s.heap q op spurious pc with
      | (h, .running pc') => some { s with
          heap := h
          starter := Function.update s.starter t (.push op q pc') }
      | (h, .returned _) => some { s with
          heap := h
          starter := Function.update s.starter t .idle
          phase := match s.object op with
            | some n => Function.update s.phase n .started
            | none => s.phase }

/-- One access of `launch`: `move_all`, `make_fifo` unless the policy asks for
locality, then the walk. -/
def runnerStep (s : State α τ ρ) (r : ρ) (spurious : Bool) : Option (State α τ ρ) :=
  match s.runner r with
  | .idle => none
  | .moveAll q pc =>
      match moveAllStep s.heap q spurious pc with
      | (h, .running pc') => some { s with
          heap := h
          runner := Function.update s.runner r (.moveAll q pc') }
      | (h, .returned none) => some { s with
          heap := h
          runner := Function.update s.runner r .idle }
      | (h, .returned (some node)) => some { s with
          heap := h
          runner := Function.update s.runner r
            (if locality r then .walk (some node) else .makeFifo node .link) }
  | .makeFifo node pc =>
      match makeFifoStep s.heap (L.sentinel r) node pc with
      | (h, .running pc') => some { s with
          heap := h
          runner := Function.update s.runner r (.makeFifo node pc') }
      | (h, .returned op) => some { s with
          heap := h
          runner := Function.update s.runner r (.walk op) }
  | .walk none => some { s with runner := Function.update s.runner r .idle }
  | .walk (some op) => some { s with
      runner := Function.update s.runner r (.call op (s.heap.next op)) }
  | .call op rest =>
      match s.object op with
      | some n => some { s with
          completed := Function.update s.completed n (s.completed n + 1)
          runner := Function.update s.runner r (.walk rest) }
      | none => some { s with
          wild := true
          runner := Function.update s.runner r (.walk rest) }

/-- Users construct tasks (the base `intrusive_node` starts with a null link),
start each at most once, and destroy a task only before it was started or after
it was completed. Memory without a task may be overwritten with anything. -/
def step (s : State α τ ρ) : Label α τ ρ → Option (State α τ ρ)
  | .construct a =>
      if s.object a = none ∧ L.onStack a = false then
        some { s with
          heap := s.heap.setNext a none
          object := Function.update s.object a (some s.created)
          created := s.created + 1 }
      else none
  | .destroy a =>
      match s.object a with
      | some n =>
          if s.phase n = .constructed ∨ s.completed n ≠ 0 then
            some { s with object := Function.update s.object a none }
          else none
      | none => none
  | .scribble a v =>
      if s.object a = none ∧ L.onStack a = false then
        some { s with heap := s.heap.setNext a v }
      else none
  | .start t a =>
      match s.starter t, s.object a with
      | .idle, some n =>
          if s.phase n = .constructed then
            some { s with
              starter := Function.update s.starter t (.fetchAdd a)
              phase := Function.update s.phase n .starting }
          else none
      | _, _ => none
  | .starter t spurious => starterStep s t spurious
  | .launchRobin r =>
      match s.runner r with
      | .idle => some { s with
          runner := Function.update s.runner r (.moveAll (robinAccess s.walltimeStep) .load) }
      | _ => none
  | .launchRandom r b =>
      match s.runner r with
      | .idle => some { s with runner := Function.update s.runner r (.moveAll b .load) }
      | _ => none
  | .runner r spurious => runnerStep L locality s r spurious
  | .tick => some { s with walltimeStep := (s.walltimeStep + 1) % 2 ^ 64 }

/-- An executor before its first `schedule()`; the counters and the memory are
arbitrary. -/
def Init (s : State α τ ρ) : Prop :=
  (∀ b, s.heap.head b = none) ∧ (∀ t, s.starter t = .idle) ∧ (∀ r, s.runner r = .idle) ∧
    (∀ a, s.object a = none) ∧ s.created = 0 ∧ (∀ n, s.phase n = .constructed) ∧
    (∀ n, s.completed n = 0) ∧ s.wild = false

def machine : Machine (State α τ ρ) (Label α τ ρ) where
  init := Init
  step := step L locality

end Step

/-! ## Where a task is -/

/-- The nodes of the private chain of a runner that it has not visited. While
`make_fifo` runs they lie in two chains, the reversed one ending at the
sentinel. -/
def Unvisited (L : Layout α ρ) (next : α → Option α) (r : ρ) (l : List α) : RunnerPc α → Prop
  | .idle => l = []
  | .moveAll _ _ => l = []
  | .makeFifo node pc => l.head? = some node ∧ L.sentinel r ∉ l ∧ l.Nodup ∧
      FifoOk next (L.sentinel r) l pc
  | .walk op => Chain next op l
  | .call op rest => ∃ l', l = op :: l' ∧ op ∉ l' ∧ Chain next rest l'

inductive Place (ρ : Type*) where
  | bucket (b : Bucket)
  | runner (r : ρ)
  | done

/-- Task `n` is at a place: in the chain of a bucket, among the unvisited nodes
of a runner, or completed, exactly once. -/
def At (L : Layout α ρ) (s : State α τ ρ) (n : Nat) : Place ρ → Prop
  | .bucket b => ∃ a l, s.object a = some n ∧ Chain s.heap.next (s.heap.head b) l ∧ a ∈ l
  | .runner r => ∃ a l, s.object a = some n ∧ Unvisited L s.heap.next r l (s.runner r) ∧ a ∈ l
  | .done => s.completed n = 1

end TaskMap

end IoUring.Exec
