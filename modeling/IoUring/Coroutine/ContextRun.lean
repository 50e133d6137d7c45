import IoUring.Base.Ledger
import IoUring.Coroutine.ContextRing

/-!
# `run()` and `stop()`

The loop of `run()` around the steps of a context. `run_once()` is called by the loop, or by
its user when the loop does not execute. `stop()` is called by a coroutine, or from outside
of the loop. Other threads do not call it, and no coroutine calls `run()` or `run_once()`.
-/

namespace IoUring.Coroutine.Run

/-- `stop` is `_stop`, and `looping` says that a call of `run()` has not returned. The other
fields are history: what was put into the queue of the coroutines and what was resumed from
it, and the same for the switch queue. -/
structure Loop where
  stop : Bool
  looping : Bool
  queued : List Handle
  resumed : List Handle
  pushed : List Handle
  pulled : List Handle

/-- `leave` is the return of `run()`. -/
inductive Label where
  | run
  | stop
  | leave
  | context (l : Coroutine.Label)

/-- `stopped()`. -/
def stopped (s : State) (r : Loop) : Bool :=
  r.stop && s.operations.isEmpty

/-- In a call of `run()`, the next `run_once()` is the one of the loop. -/
def permitted (s : State) (r : Loop) : Coroutine.Label → Bool
  | .runOnce exactlyOnce => !r.looping || !exactlyOnce && !stopped s r
  | .coSpawn => !r.looping
  | _ => true

/-- The history of a step of the context. -/
def note (s : State) (r : Loop) : Coroutine.Label → Loop
  | .coSpawn => { r with queued := r.queued ++ [⟨s.nextFrame, []⟩] }
  | .user .coSpawn => { r with queued := r.queued ++ [⟨s.nextFrame, []⟩] }
  | .push h => { r with pushed := r.pushed ++ [h] }
  | .runOnce _ => { r with
      queued := r.queued ++ s.switchSpsc.take 1
      pulled := r.pulled ++ s.switchSpsc.take 1 }
  | .go =>
      match s.phase, s.operations with
      | .launch (_ + 1), h :: _ => { r with resumed := r.resumed ++ [h] }
      | _, _ => r
  | _ => r

def step (cfg : Config) (x : State × Loop) : Label → Option (State × Loop)
  | .run =>
      if x.1.phase = .idle ∧ x.2.looping = false then
        some (x.1, { x.2 with stop := false, looping := true })
      else none
  | .stop =>
      if x.1.running ≠ none ∨ x.1.phase = .idle ∧ x.2.looping = false then
        some (x.1, { x.2 with stop := true })
      else none
  | .leave =>
      if x.1.phase = .idle ∧ x.2.looping = true ∧ stopped x.1 x.2 = true then
        some (x.1, { x.2 with looping := false })
      else none
  | .context l =>
      if permitted x.1 x.2 l = true then
        (Coroutine.step cfg x.1 l).map fun s => (s, note x.1 x.2 l)
      else none

def Loop.start : Loop where
  stop := false
  looping := false
  queued := []
  resumed := []
  pushed := []
  pulled := []

def machine (cfg : Config) : Machine (State × Loop) Label where
  init x := Init x.1 ∧ x.2 = .start
  step := step cfg

/-! ## What a step does to the queues -/

/-- How many coroutines the first loop of `run_once()` is still going to resume. -/
def launching : Phase → Nat
  | .launch n => n
  | _ => 0

/-- How many coroutines a step of the context makes room for. -/
def batch : Coroutine.Label → Nat
  | .runOnce exactlyOnce => if exactlyOnce then 1 else 32
  | _ => 0

/-- How many coroutines a step of the context pulls out of the switch queue. -/
def pulls : Coroutine.Label → Nat
  | .runOnce _ => 1
  | _ => 0

variable {cfg : Config} {s s' : State} {r : Loop} {l : Coroutine.Label}

/-- The queues and the first loop of `run_once()` are as they were. -/
structure Quiet (s s' : State) : Prop where
  operations : s'.operations = s.operations
  switchSpsc : s'.switchSpsc = s.switchSpsc
  launching : launching s'.phase = launching s.phase

/-- The ways in which a step of a context takes part in the queues. -/
inductive Queues (s : State) : Coroutine.Label → State → Prop
  | spawn {l : Coroutine.Label} (hl : l = .coSpawn ∨ l = .user .coSpawn) : Queues s l (coSpawn s)
  | push {h : Handle} : Queues s (.push h) { s with switchSpsc := s.switchSpsc ++ [h] }
  | prepare {exactlyOnce : Bool} (hidle : s.phase = .idle) :
      Queues s (.runOnce exactlyOnce) (prepareStep s exactlyOnce)
  | resume {n : Nat} {h : Handle} {operations : List Handle} (hphase : s.phase = .launch (n + 1))
      (hqueue : s.operations = h :: operations) :
      Queues s .go { s with operations := operations, running := some h, phase := .launch n }
  | other {l : Coroutine.Label} {s' : State} (hquiet : Quiet s s') (hbatch : batch l = 0) (hpulls : pulls l = 0)
      (hnote : ∀ r, note s r l = r) : Queues s l s'

theorem note_go (hphase : launching s.phase = 0) (r : Loop) : note s r .go = r := by
  cases hp : s.phase with
  | launch n =>
      rw [hp] at hphase
      cases n with
      | zero => simp [note, hp]
      | succ n => simp [launching] at hphase
  | idle => simp [note, hp]
  | submit => simp [note, hp]
  | reap done => simp [note, hp]

theorem Quiet.prepares {sqes : List (Sqe Request)} {o : Awaitable} (h : Prepares s s' sqes o) : Quiet s s' := by
  have hrest := h.rest
  exact ⟨by rw [hrest], by rw [hrest], by rw [hrest]⟩

/-- A step of the loop over the ring. -/
theorem Queues.reaping (hphase : ∃ done, s.phase = .reap done) (hoperations : s'.operations = s.operations)
    (hswitch : s'.switchSpsc = s.switchSpsc) (hphase' : launching s'.phase = 0) : Queues s .go s' := by
  obtain ⟨done, hphase⟩ := hphase
  have hzero : launching s.phase = 0 := by rw [hphase]; rfl
  exact .other ⟨hoperations, hswitch, hphase'.trans hzero.symm⟩ rfl rfl (note_go hzero)

theorem Queues.of_step (h : Step cfg s l s') : Queues s l s' := by
  cases h with
  | coSpawn _ => exact .spawn (.inl rfl)
  | spawn => exact .spawn (.inr rfl)
  | push _ => exact .push
  | runOnce hidle => exact .prepare hidle
  | launched _ hphase =>
      have hzero : launching s.phase = 0 := by rw [hphase]; rfl
      exact .other ⟨rfl, rfl, hzero.symm⟩ rfl rfl (note_go hzero)
  | resume _ hphase hqueue => exact .resume hphase hqueue
  | submit _ hphase =>
      have hzero : launching s.phase = 0 := by rw [hphase]; rfl
      refine .other ⟨rfl, rfl, ?_⟩ rfl rfl (note_go hzero)
      rw [hzero, submitStep]
      split <;> rfl
  | skip hreap _ => exact .reaping hreap.phase rfl rfl rfl
  | torn hreap _ _ _ => exact .reaping hreap.phase rfl rfl rfl
  | eager hreap _ _ _ _ => exact .reaping hreap.phase rfl rfl rfl
  | @complete a hd hreap _ _ _ _ _ =>
      obtain ⟨d, res, heq⟩ := awaitResume_eq (s.reaped cfg a) a
      rw [heq]
      exact .reaping hreap.phase rfl rfl rfl
  | leave _ hphase _ _ _ => exact .reaping hphase rfl rfl rfl
  | posted _ _ _ => exact .other ⟨rfl, rfl, rfl⟩ rfl rfl fun _ => rfl
  | silent _ _ => exact .other ⟨rfl, rfl, rfl⟩ rfl rfl fun _ => rfl
  | more _ _ _ => exact .other ⟨rfl, rfl, rfl⟩ rfl rfl fun _ => rfl
  | @construct act prep drain _ hact hs' =>
      obtain ⟨sqes, o, hprep, -⟩ := constructStep_prepares (UserAct.prep_of_constructs hact) hs'
      refine .other (.prepares hprep) rfl rfl fun r => ?_
      cases act <;> first | rfl | simp [UserAct.constructs] at hact
  | link hs' =>
      obtain ⟨_, _, _, hprep, -⟩ := linkStep_prepares hs'
      exact .other (.prepares hprep) rfl rfl fun _ => rfl
  | suspend _ _ _ _ _ _ => exact .other ⟨rfl, rfl, rfl⟩ rfl rfl fun _ => rfl
  | @ready a _ _ _ _ =>
      obtain ⟨d, res, heq⟩ := awaitResume_eq { s with awaits := a :: s.awaits } a
      rw [heq]
      exact .other ⟨rfl, rfl, rfl⟩ rfl rfl fun _ => rfl
  | @run act running nextFrame hact _ =>
      refine .other ⟨rfl, rfl, rfl⟩ rfl rfl fun r => ?_
      rcases hact with rfl | rfl | ⟨ok, rfl⟩ <;> rfl
  | discard _ _ _ _ => exact .other ⟨rfl, rfl, rfl⟩ rfl rfl fun _ => rfl
  | drop _ _ _ _ => exact .other ⟨rfl, rfl, rfl⟩ rfl rfl fun _ => rfl

end IoUring.Coroutine.Run
