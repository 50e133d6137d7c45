import Mathlib.Data.List.Perm.Basic
import IoUring.Base.Machine
import IoUring.Base.Placement

/-!
# `switch_to`

Any number of contexts, each with a thread, and coroutines that switch between them.
`await_suspend` pushes the handle into the switch queue of the other context, then
stores to `ok`, then returns. The thread of the other context goes on with the
coroutine as soon as the handle is in its queue. A queue is the atomic one here.
-/

namespace IoUring.Coroutine.Switch

/-- What the thread of a context does. From `push` to `ret` it is in `await_suspend`
of an awaiter, before the step that is named; `resume` is before `await_resume`, and
`moved` says that the handle came out of the switch queue. -/
inductive Thread where
  | idle
  | running (h : Nat)
  | push (h awaiter : Nat)
  | store (h awaiter : Nat) (ok : Bool)
  | ret (h awaiter : Nat) (ok : Bool)
  | resume (h awaiter : Nat) (moved : Bool)
  deriving DecidableEq

/-- `context_switch_operation`. `stored` and `resumed` are history: whether the
source has stored to `ok`, and whether the coroutine was resumed elsewhere. -/
structure Awaiter (C : Type*) where
  source : C
  dest : C
  ok : Bool := false
  stored : Bool := false
  resumed : Bool := false

/-- What `co_await` of an awaiter has returned, and where. -/
structure Return (C : Type*) where
  awaiter : Nat
  value : Bool
  context : C
  moved : Bool

/-- `waiting` holds the coroutines that wait for an operation of the context, and
`suspended` the awaiter of a coroutine in `switch_to`. `late` is history: a source has
stored to an awaiter whose coroutine was resumed elsewhere before. -/
structure State (C : Type*) where
  switchSpsc : C → List Nat
  operations : C → List Nat
  waiting : C → List Nat
  thread : C → Thread
  awaiter : Nat → Awaiter C
  suspended : Nat → Option Nat
  nextHandle : Nat
  nextAwaiter : Nat
  returned : List (Return C)
  late : Bool

/-- `pop` and `resume` are steps of `run_once`, `complete` resumes a coroutine whose
operation is complete; `switchTo`, `wait` and `finish` are what a running coroutine
does; `go` is the next step of a thread in `switch_to`. -/
inductive Label (C : Type*) where
  | coSpawn (k : C)
  | pop (k : C)
  | resume (k : C)
  | complete (k : C) (i : Nat)
  | switchTo (k dest : C)
  | wait (k : C)
  | finish (k : C)
  | go (k : C)

variable {C : Type*} [DecidableEq C]

namespace State

variable (s : State C)

def setThread (k : C) (pc : Thread) : State C :=
  { s with thread := Function.update s.thread k pc }

def setAwaiter (w : Nat) (o : Awaiter C) : State C :=
  { s with awaiter := Function.update s.awaiter w o }

end State

/-- `push_to_switch`, with the 63 places of the queue. -/
def pushToSwitch (s : State C) (k : C) (h w : Nat) : State C :=
  let dest := (s.awaiter w).dest
  if (s.switchSpsc dest).length < 63 then
    { s with switchSpsc := Function.update s.switchSpsc dest (s.switchSpsc dest ++ [h]) }.setThread k
      (.store h w true)
  else s.setThread k (.store h w false)

/-- `ok.store(_ok)`. -/
def storeOk (s : State C) (k : C) (h w : Nat) (ok : Bool) : State C :=
  let o := s.awaiter w
  { s.setAwaiter w { o with ok := ok, stored := true } with late := s.late || o.resumed }.setThread k
    (.ret h w ok)

/-- The coroutine is resumed in `switch_to`, or goes on. -/
def resumeAt (s : State C) (k : C) (h : Nat) : State C :=
  match s.suspended h with
  | some w =>
      { s.setAwaiter w { s.awaiter w with resumed := true } with
        suspended := Function.update s.suspended h none }.setThread k (.resume h w true)
  | none => s.setThread k (.running h)

def goStep (s : State C) (k : C) : Option (State C) :=
  match s.thread k with
  | .push h w => some (pushToSwitch s k h w)
  | .store h w ok => some (storeOk s k h w ok)
  | .ret _ _ true => some (s.setThread k .idle)
  | .ret h w false => some ({ s with
      suspended := Function.update s.suspended h none }.setThread k (.resume h w false))
  | .resume h w moved => some ({ s with
      returned := ⟨w, (s.awaiter w).ok, k, moved⟩ :: s.returned }.setThread k (.running h))
  | _ => none

def step (s : State C) : Label C → Option (State C)
  | .coSpawn k => some { s with
      operations := Function.update s.operations k (s.operations k ++ [s.nextHandle])
      nextHandle := s.nextHandle + 1 }
  | .pop k =>
      match s.thread k, s.switchSpsc k with
      | .idle, h :: rest => some { s with
          switchSpsc := Function.update s.switchSpsc k rest
          operations := Function.update s.operations k (s.operations k ++ [h]) }
      | _, _ => none
  | .resume k =>
      match s.thread k, s.operations k with
      | .idle, h :: rest =>
          some (resumeAt { s with operations := Function.update s.operations k rest } k h)
      | _, _ => none
  | .complete k i =>
      match s.thread k, (s.waiting k)[i]? with
      | .idle, some h => some ({ s with
          waiting := Function.update s.waiting k ((s.waiting k).eraseIdx i) }.setThread k (.running h))
      | _, _ => none
  | .switchTo k dest =>
      match s.thread k with
      | .running h => some ({ s.setAwaiter s.nextAwaiter { source := k, dest := dest } with
          suspended := Function.update s.suspended h (some s.nextAwaiter)
          nextAwaiter := s.nextAwaiter + 1 }.setThread k (.push h s.nextAwaiter))
      | _ => none
  | .wait k =>
      match s.thread k with
      | .running h => some ({ s with
          waiting := Function.update s.waiting k (s.waiting k ++ [h]) }.setThread k .idle)
      | _ => none
  | .finish k =>
      match s.thread k with
      | .running _ => some (s.setThread k .idle)
      | _ => none
  | .go k => goStep s k

def Init (s : State C) : Prop :=
  (∀ k, s.switchSpsc k = []) ∧ (∀ k, s.operations k = []) ∧ (∀ k, s.waiting k = []) ∧
    (∀ k, s.thread k = .idle) ∧ s.nextAwaiter = 0 ∧ (∀ h, s.suspended h = none) ∧ s.returned = [] ∧
    s.late = false

variable (C) in
def machine : Machine (State C) (Label C) where
  init := Init
  step := step

/-- When a context resumes a coroutine out of `switch_to`, the source has stored to
`ok`. -/
def StoreFirst (s : State C) : Label C → Prop
  | .resume k => ∀ h ∈ (s.operations k).head?, ∀ w ∈ s.suspended h, (s.awaiter w).stored = true
  | _ => True

instance (s : State C) : (l : Label C) → Decidable (StoreFirst s l)
  | .resume _ => inferInstanceAs (Decidable (∀ h ∈ _, ∀ w ∈ _, _ = true))
  | .coSpawn _ | .pop _ | .complete .. | .switchTo .. | .wait _ | .finish _ | .go _ =>
      inferInstanceAs (Decidable True)

end IoUring.Coroutine.Switch
