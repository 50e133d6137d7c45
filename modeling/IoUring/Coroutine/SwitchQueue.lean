import IoUring.Base.Simulation
import IoUring.Coroutine.Context
import IoUring.Coroutine.Fifo

/-!
# The switch queue of a context

The switch queue is a `Fifo`. Another thread pushes into it while `run_once()` pops, one
access after the other, and the kernel goes on. The other modules take the queue for one
with atomic calls; this is what the context does with the `Fifo`, too.
-/

namespace IoUring.Coroutine.SwitchQueue

/-- `entering` is the template argument of a call of `run_once()` that is popping. -/
structure State where
  context : Coroutine.State
  fifo : Fifo.State Handle
  entering : Option Bool

/-- `push` and `produce` are steps of the other thread. -/
inductive Label where
  | push (h : Handle)
  | produce
  | runOnce (exactlyOnce : Bool)
  | consume
  | context (l : Coroutine.Label)

/-- The size of `_switch_spsc`. -/
def size : Fifo.Size := ⟨64, by decide⟩

/-- What `pop` has written to its argument when it returns. -/
def popped : Fifo.Consumer Handle → Option Handle
  | .store _ opt => some opt
  | _ => none

/-- `run_once_prepare()` behind `pop`, and the number of coroutines to be resumed. -/
def prepared (s : Coroutine.State) (h : Option Handle) (exactlyOnce : Bool) : Coroutine.State :=
  let operations := s.operations ++ h.toList
  { s with
    operations := operations
    phase := .launch (min (if exactlyOnce then 1 else 32) operations.length) }

/-- While it pops, the thread of the context does nothing else. -/
def permitted (entering : Option Bool) : Coroutine.Label → Bool
  | .finish .. => true
  | .more .. => true
  | .push _ => false
  | .runOnce _ => false
  | _ => entering.isNone

def step (cfg : Config) (x : State) : Label → Option State
  | .push h => (Fifo.step size x.fifo (.push h)).map fun f => { x with fifo := f }
  | .produce => (Fifo.step size x.fifo .produce).map fun f => { x with fifo := f }
  | .runOnce exactlyOnce =>
      if x.context.phase = .idle ∧ x.entering = none then
        (Fifo.step size x.fifo .pop).map fun f => { x with fifo := f, entering := some exactlyOnce }
      else none
  | .consume =>
      match x.entering with
      | some exactlyOnce => (Fifo.step size x.fifo .consume).map fun f =>
          match f.consumer with
          | .idle => ⟨prepared x.context (popped x.fifo.consumer) exactlyOnce, f, none⟩
          | _ => { x with fifo := f }
      | none => none
  | .context l =>
      if permitted x.entering l = true then
        (Coroutine.step cfg x.context l).map fun s => { x with context := s }
      else none

def machine (cfg : Config) : Machine State Label where
  init x := Init x.context ∧ Fifo.Init x.fifo ∧ x.entering = none
  step := step cfg

/-! ## The atomic queue -/

/-- The context with the atomic queue. Where `pop` has found the queue empty, `run_once()` has
gone on already. -/
def State.atomic (x : State) : Coroutine.State :=
  { x.context with
    switchSpsc := x.fifo.queue
    phase :=
      match x.entering, x.fifo.consumer with
      | some exactlyOnce, .loadOut in_ _ =>
          if in_ = x.fifo.out_ then .launch (min (if exactlyOnce then 1 else 32) x.context.operations.length)
          else x.context.phase
      | _, _ => x.context.phase }

/-- Where the calls take effect. -/
def State.effect (x : State) : Label → Option Coroutine.Label
  | .push _ => none
  | .produce =>
      match x.fifo.producer with
      | .store elem _ => some (.push elem)
      | _ => none
  | .runOnce exactlyOnce => if x.fifo.in_ = x.fifo.out_ then some (.runOnce exactlyOnce) else none
  | .consume =>
      match x.entering, x.fifo.consumer with
      | some exactlyOnce, .store _ _ => some (.runOnce exactlyOnce)
      | _, _ => none
  | .context l => some l

/-! ## The rest of the context -/

section Frame

variable {cfg : Config} {s' : Coroutine.State} (s : Coroutine.State) (q : List Handle)

/-- The kernel finishes a request without a look at the queues or at the phase. -/
theorem finish_frame (phase : Phase) {i : Nat} {res : Int} {failed post : Bool}
    (h : finishStep cfg s i res failed post = some s') :
    finishStep cfg { s with switchSpsc := q, phase := phase } i res failed post =
      some { s' with switchSpsc := q, phase := phase } ∧
      s'.operations = s.operations ∧ s'.phase = s.phase := by
  simp only [finishStep] at h ⊢
  split at h
  · split at h
    · next hallowed =>
        rw [if_pos hallowed]
        split at h
        · next hposts =>
            rw [if_pos hposts]
            split at h
            · next hroom =>
                obtain rfl := Option.some.inj h
                exact ⟨if_pos hroom, rfl, rfl⟩
            · cases h
        · next hposts =>
            obtain rfl := Option.some.inj h
            exact ⟨if_neg hposts, rfl, rfl⟩
    · cases h
  · cases h

theorem more_frame (phase : Phase) {i : Nat} {res : Int} (h : moreStep cfg s i res = some s') :
    moreStep cfg { s with switchSpsc := q, phase := phase } i res =
      some { s' with switchSpsc := q, phase := phase } ∧
      s'.operations = s.operations ∧ s'.phase = s.phase := by
  simp only [moreStep] at h ⊢
  split at h
  · split at h <;> cases h
    simp [*, State.post]
  · cases h

theorem constructStep_frame (prep : Request) (drain : Bool) :
    constructStep cfg { s with switchSpsc := q } prep drain =
      (constructStep cfg s prep drain).map fun s => { s with switchSpsc := q } := by
  simp only [constructStep, State.sqRing]
  split <;> rfl

theorem linkStep_frame (e : Expr Request) (order : Order) :
    linkStep cfg { s with switchSpsc := q } e order =
      (linkStep cfg s e order).map fun s => { s with switchSpsc := q } := by
  simp only [linkStep, State.sqRing]
  split
  · split <;> rfl
  · rfl

theorem awaitResume_frame (a : Nat) : Coroutine.State.awaitResume { s with switchSpsc := q } a =
    { s.awaitResume a with switchSpsc := q } := by
  simp only [State.awaitResume]
  split <;> rfl

theorem awaitStep_frame (h : Handle) (a : Nat) : awaitStep { s with switchSpsc := q } h a =
    (awaitStep s h a).map fun s => { s with switchSpsc := q } := by
  simp only [awaitStep]
  split
  · split
    · rfl
    · exact congrArg some (awaitResume_frame { s with awaits := a :: s.awaits } q a)
  · rfl

theorem userStep_frame (h : Handle) (act : UserAct) : userStep cfg { s with switchSpsc := q } h act =
    (userStep cfg s h act).map fun s => { s with switchSpsc := q } := by
  cases act with
  | asyncOperation => exact constructStep_frame s q .oneshot false
  | asyncDrainOperation => exact constructStep_frame s q .oneshot true
  | asyncMultishotOperation => exact constructStep_frame s q .multishot false
  | link e rightFirst => exact linkStep_frame s q e (.ofRight rightFirst)
  | await a => exact awaitStep_frame s q h a
  | coSpawn => rfl
  | call => rfl
  | ret => simp only [userStep]; split <;> rfl
  | switchTo ok => cases ok <;> rfl
  | dropOperation a => simp only [userStep]; split <;> rfl
  | dropMultishot a stale => simp only [userStep]; split <;> rfl

theorem completeStep_frame (a slot : Nat) : completeStep { s with switchSpsc := q } a slot =
    (completeStep s a slot).map fun s => { s with switchSpsc := q } := by
  simp only [completeStep, State.setUserData, State.setObject]
  split
  · rfl
  · split
    · rfl
    · next h _ =>
        by_cases hsuspended : s.suspended a = some h
        · refine (if_pos hsuspended).trans (Eq.trans ?_ (congrArg (Option.map _) (if_pos hsuspended)).symm)
          exact congrArg (fun t : Coroutine.State => some { t with
            suspended := Function.update s.suspended a none
            running := some h })
            (awaitResume_frame (s.setUserData a { (s.object a).userData with cqe := some slot }) q a)
        · refine (if_neg hsuspended).trans (Eq.trans ?_ (congrArg (Option.map _) (if_neg hsuspended)).symm)
          rfl

theorem leaveStep_frame (done : Nat) : leaveStep cfg { s with switchSpsc := q } done =
    (leaveStep cfg s done).map fun s => { s with switchSpsc := q } := by
  simp only [leaveStep]
  split <;> split <;> rfl

theorem goStep_frame : goStep cfg { s with switchSpsc := q } =
    (goStep cfg s).map fun s => { s with switchSpsc := q } := by
  simp only [goStep]
  split
  · rfl
  · rfl
  · split <;> rfl
  · rfl
  · next done _ =>
      simp only [reapStep]
      split
      · split
        · rfl
        · split
          · exact completeStep_frame { s with phase := .reap (done + 1) } q _ _
          · rfl
      · exact leaveStep_frame s q done

/-- The thread of the context does not look at the queue. -/
theorem step_frame {l : Coroutine.Label} (hl : permitted none l = true) (hfinish : ∀ i res failed post,
    l ≠ .finish i res failed post) (hmore : ∀ i res, l ≠ .more i res) :
    Coroutine.step cfg { s with switchSpsc := q } l =
      (Coroutine.step cfg s l).map fun s => { s with switchSpsc := q } := by
  cases l with
  | coSpawn => simp only [Coroutine.step]; split <;> rfl
  | push _ => cases hl
  | runOnce _ => cases hl
  | go =>
      simp only [Coroutine.step]
      split
      · exact goStep_frame s q
      · rfl
  | user act =>
      simp only [Coroutine.step]
      split
      · exact userStep_frame s q _ act
      · rfl
  | finish i res failed post => exact absurd rfl (hfinish i res failed post)
  | more i res => exact absurd rfl (hmore i res)

end Frame

/-! ## The steps of the queue -/

section Queue

variable {f f' : Fifo.State Handle} {capacity : Nat} {queue queue' : List Handle} {h : Handle}

theorem queueStep_push (hstep : Fifo.QueueStep capacity queue (.push h true) queue') :
    queue.length < capacity ∧ queue' = queue ++ [h] := by
  cases hstep with
  | push hlt => exact ⟨hlt, rfl⟩

theorem queueStep_full (hstep : Fifo.QueueStep capacity queue (.push h false) queue') :
    queue.length = capacity ∧ queue' = queue := by
  cases hstep with
  | full hfull => exact ⟨hfull, rfl⟩

theorem queueStep_pop (hstep : Fifo.QueueStep capacity queue (.pop (some h)) queue') : queue = h :: queue' := by
  cases hstep
  rfl

theorem queueStep_empty (hstep : Fifo.QueueStep capacity queue (.pop none) queue') :
    queue = [] ∧ queue' = [] := by
  cases hstep
  exact ⟨rfl, rfl⟩

/-- The producer leaves alone what belongs to the consumer. -/
theorem produce_same (hstep : Fifo.produce size f = some f') : f'.out_ = f.out_ ∧ f'.consumer = f.consumer := by
  simp only [Fifo.produce] at hstep
  split at hstep
  · cases hstep
  · split at hstep <;> cases hstep <;> exact ⟨rfl, rfl⟩
  · cases hstep; exact ⟨rfl, rfl⟩
  · cases hstep; exact ⟨rfl, rfl⟩
  · cases hstep; exact ⟨rfl, rfl⟩

end Queue

/-! ## Every run -/

section Simulation

variable {cfg : Config} {x y : State}

/-- The queue keeps its promises, and while it pops the context is in no call of a coroutine. -/
structure Ok (x : State) : Prop where
  fifo : Fifo.Inv size x.fifo
  idle : x.entering ≠ none → x.context.phase = .idle

/-- Only the queue has changed, for the consumer as well. -/
theorem atomic_queue {f : Fifo.State Handle} (hout : f.out_ = x.fifo.out_)
    (hconsumer : f.consumer = x.fifo.consumer) :
    State.atomic { x with fifo := f } = { x.atomic with switchSpsc := f.queue } := by
  simp only [State.atomic, hout, hconsumer]

theorem Ok.produce (h : Ok x) {f : Fifo.State Handle} (hf : Fifo.produce size x.fifo = some f) :
    Ok { x with fifo := f } ∧
      (Coroutine.machine cfg).Matches x.atomic (x.effect .produce) (State.atomic { x with fifo := f }) := by
  obtain ⟨hinv, hrefines⟩ := h.fifo.step (l := .produce) hf
  obtain ⟨hout, hconsumer⟩ := produce_same hf
  refine ⟨⟨hinv, h.idle⟩, ?_⟩
  rw [atomic_queue hout hconsumer]
  have hsame : f.queue = x.fifo.queue → { x.atomic with switchSpsc := f.queue } = x.atomic := by
    intro hqueue
    rw [hqueue]
    rfl
  simp only [Fifo.Refines, Fifo.State.effect] at hrefines
  cases hproducer : x.fifo.producer with
  | store elem next_in =>
      simp only [hproducer] at hrefines
      obtain ⟨hlt, hqueue⟩ := queueStep_push hrefines
      simp only [State.effect, hproducer, Machine.Matches, Coroutine.machine, Coroutine.step, hqueue]
      exact if_pos hlt
  | loadOut elem in_ =>
      simp only [hproducer] at hrefines
      simp only [State.effect, hproducer, Machine.Matches]
      by_cases hfull : (in_ + 1) &&& size.mask = x.fifo.out_
      · rw [if_pos hfull] at hrefines
        exact hsame (queueStep_full hrefines).2
      · rw [if_neg hfull] at hrefines
        exact hsame hrefines
  | _ =>
      simp only [hproducer] at hrefines
      simp only [State.effect, hproducer, Machine.Matches]
      exact hsame hrefines

theorem Ok.runOnce (h : Ok x) {exactlyOnce : Bool} {f : Fifo.State Handle} (hidle : x.context.phase = .idle)
    (hnone : x.entering = none) (hf : Fifo.step size x.fifo .pop = some f) :
    Ok { x with fifo := f, entering := some exactlyOnce } ∧
      (Coroutine.machine cfg).Matches x.atomic (x.effect (.runOnce exactlyOnce))
        (State.atomic { x with fifo := f, entering := some exactlyOnce }) := by
  obtain ⟨hinv, hrefines⟩ := h.fifo.step (l := .pop) hf
  refine ⟨⟨hinv, fun _ => hidle⟩, ?_⟩
  simp only [Fifo.step] at hf
  split at hf
  · obtain rfl := Option.some.inj hf
    simp only [Fifo.Refines, Fifo.State.effect] at hrefines
    by_cases hempty : x.fifo.in_ = x.fifo.out_
    · rw [if_pos hempty] at hrefines
      have hqueue : x.fifo.queue = [] := (queueStep_empty hrefines).1
      simp only [State.effect, if_pos hempty, Machine.Matches, Coroutine.machine, Coroutine.step]
      refine (if_pos ?_).trans (congrArg some ?_)
      · simp [State.atomic, hnone, hidle]
      · have hafter : ∀ b, State.atomic { x with
            fifo := { x.fifo with consumer := .loadOut x.fifo.in_ x.fifo.unread }
            entering := some b } = { x.context with
              switchSpsc := x.fifo.queue
              phase := .launch (min (if b then 1 else 32) x.context.operations.length) } := by
          intro b
          simp only [State.atomic, if_pos hempty]
          rfl
        rw [hafter]
        simp [State.atomic, prepareStep, hqueue]
    · simp only [State.effect, if_neg hempty, Machine.Matches, State.atomic, hnone]
      rfl
  · cases hf

theorem Ok.consume (h : Ok x) {exactlyOnce : Bool} {f : Fifo.State Handle}
    (hentering : x.entering = some exactlyOnce) (hf : Fifo.consume size x.fifo = some f)
    (hy : (match f.consumer with
      | .idle => ⟨prepared x.context (popped x.fifo.consumer) exactlyOnce, f, none⟩
      | _ => { x with fifo := f }) = y) :
    Ok y ∧ (Coroutine.machine cfg).Matches x.atomic (x.effect .consume) y.atomic := by
  obtain ⟨hinv, hrefines⟩ := h.fifo.step (l := .consume) hf
  have hidle := h.idle (by simp [hentering])
  simp only [Fifo.Refines, Fifo.State.effect] at hrefines
  simp only [Fifo.consume] at hf
  cases hconsumer : x.fifo.consumer with
  | idle => simp [hconsumer] at hf
  | loadOut in_ unread =>
      simp only [hconsumer] at hf hrefines
      simp only [State.effect, hentering, hconsumer, Machine.Matches]
      by_cases hempty : in_ = x.fifo.out_
      · -- the call has taken effect before
        rw [if_pos hempty] at hf
        obtain rfl := Option.some.inj hf
        obtain rfl := hy
        refine ⟨⟨hinv, by simp⟩, ?_⟩
        simp only [State.atomic, prepared, popped, hconsumer, hentering, hrefines, if_pos hempty]
        simp
      · rw [if_neg hempty] at hf
        obtain rfl := Option.some.inj hf
        obtain rfl := hy
        refine ⟨⟨hinv, fun _ => hidle⟩, ?_⟩
        simp only [State.atomic, hconsumer, hentering, hrefines, if_neg hempty]
  | read out =>
      simp only [hconsumer] at hf hrefines
      obtain rfl := Option.some.inj hf
      obtain rfl := hy
      refine ⟨⟨hinv, fun _ => hidle⟩, ?_⟩
      simp only [State.effect, hentering, hconsumer, Machine.Matches, State.atomic, hrefines]
  | reading out =>
      simp only [hconsumer] at hf hrefines
      obtain ⟨opt, -, rfl⟩ := Option.map_eq_some_iff.mp hf
      obtain rfl := hy
      refine ⟨⟨hinv, fun _ => hidle⟩, ?_⟩
      simp only [State.effect, hentering, hconsumer, Machine.Matches, State.atomic, hrefines]
  | store out opt =>
      simp only [hconsumer] at hf hrefines
      obtain rfl := Option.some.inj hf
      obtain rfl := hy
      have hqueue := queueStep_pop hrefines
      refine ⟨⟨hinv, by simp⟩, ?_⟩
      simp only [State.effect, hentering, hconsumer, Machine.Matches, Coroutine.machine, Coroutine.step]
      refine (if_pos ?_).trans (congrArg some ?_)
      · simp [State.atomic, hentering, hconsumer, hidle]
      · simp [State.atomic, prepareStep, prepared, popped, hentering, hconsumer, hqueue]

/-- A step of the kernel, which goes on while the context pops. -/
theorem Ok.kernel (h : Ok x) {l : Coroutine.Label} {s : Coroutine.State}
    (hstep : ∀ q phase, Coroutine.step cfg { x.context with switchSpsc := q, phase := phase } l =
      some { s with switchSpsc := q, phase := phase })
    (hoperations : s.operations = x.context.operations) (hphase : s.phase = x.context.phase) :
    Ok { x with context := s } ∧ Coroutine.step cfg x.atomic l = some (State.atomic { x with context := s }) := by
  refine ⟨⟨h.fifo, fun hne => hphase.trans (h.idle hne)⟩, ?_⟩
  have hatomic : State.atomic { x with context := s } =
      { s with switchSpsc := x.fifo.queue, phase := x.atomic.phase } := by
    simp only [State.atomic, hoperations, hphase]
  rw [hatomic]
  exact hstep x.fifo.queue x.atomic.phase

/-- A step of the thread of the context. -/
theorem Ok.thread (h : Ok x) (hnone : x.entering = none) {l : Coroutine.Label} {s : Coroutine.State}
    (hstep : ∀ q, Coroutine.step cfg { x.context with switchSpsc := q } l = some { s with switchSpsc := q }) :
    Ok { x with context := s } ∧ Coroutine.step cfg x.atomic l = some (State.atomic { x with context := s }) := by
  have hatomic : ∀ s : Coroutine.State, State.atomic { x with context := s } =
      { s with switchSpsc := x.fifo.queue } := fun s => by simp only [State.atomic, hnone]
  refine ⟨⟨h.fifo, fun hne => absurd hnone hne⟩, ?_⟩
  rw [hatomic s, show x.atomic = _ from hatomic x.context]
  exact hstep x.fifo.queue

theorem Ok.context (h : Ok x) {l : Coroutine.Label} {s : Coroutine.State} (hl : permitted x.entering l = true)
    (hs : Coroutine.step cfg x.context l = some s) :
    Ok { x with context := s } ∧ Coroutine.step cfg x.atomic l = some (State.atomic { x with context := s }) := by
  cases l with
  | push _ => simp [permitted] at hl
  | runOnce _ => simp [permitted] at hl
  | finish i res failed post =>
      obtain ⟨-, hoperations, hphase⟩ := finish_frame x.context [] .idle hs
      exact h.kernel (fun q phase => (finish_frame x.context q phase hs).1) hoperations hphase
  | more i res =>
      obtain ⟨-, hoperations, hphase⟩ := more_frame x.context [] .idle hs
      exact h.kernel (fun q phase => (more_frame x.context q phase hs).1) hoperations hphase
  | _ =>
      have hnone : x.entering = none := by simpa [permitted] using hl
      refine h.thread hnone fun q => ?_
      rw [step_frame x.context q (by simp [permitted]) (by simp) (by simp), hs]
      rfl

theorem Ok.step (h : Ok x) {l : Label} (hstep : step cfg x l = some y) :
    Ok y ∧ (Coroutine.machine cfg).Matches x.atomic (x.effect l) y.atomic := by
  cases l with
  | push hd =>
      obtain ⟨f, hf, rfl⟩ := Option.map_eq_some_iff.mp hstep
      refine ⟨⟨(h.fifo.step (l := .push hd) hf).1, h.idle⟩, ?_⟩
      simp only [Fifo.step] at hf
      split at hf
      · obtain rfl := Option.some.inj hf
        rfl
      · cases hf
  | produce =>
      obtain ⟨f, hf, rfl⟩ := Option.map_eq_some_iff.mp hstep
      exact h.produce hf
  | runOnce exactlyOnce =>
      simp only [SwitchQueue.step] at hstep
      split at hstep
      · next hidle =>
          obtain ⟨f, hf, rfl⟩ := Option.map_eq_some_iff.mp hstep
          exact h.runOnce hidle.1 hidle.2 hf
      · cases hstep
  | consume =>
      simp only [SwitchQueue.step] at hstep
      split at hstep
      · next hentering =>
          obtain ⟨f, hf, hy⟩ := Option.map_eq_some_iff.mp hstep
          exact h.consume hentering hf hy
      · cases hstep
  | context l =>
      simp only [SwitchQueue.step] at hstep
      split at hstep
      · next hl =>
          obtain ⟨s, hs, rfl⟩ := Option.map_eq_some_iff.mp hstep
          exact h.context hl hs
      · cases hstep

theorem ok_init (hx : (machine cfg).init x) : Ok x := by
  obtain ⟨-, hfifo, hnone⟩ := hx
  exact ⟨Fifo.reachable_inv (.start hfifo), fun hne => absurd hnone hne⟩

theorem reachable_ok (hx : (machine cfg).Reachable x) : Ok x :=
  hx.invariant Ok (fun _ => ok_init) fun _ _ _ _ hok _ hstep => (hok.step hstep).1

theorem atomic_init (hx : (machine cfg).init x) : Init x.atomic := by
  obtain ⟨hcontext, ⟨-, -, -, -, hpushed, -⟩, hnone⟩ := hx
  obtain ⟨h1, h2, -, h4⟩ := hcontext
  have hqueue : x.fifo.queue = [] := by rw [Fifo.State.queue, hpushed, List.drop_nil]
  simp only [State.atomic, hnone, hqueue]
  exact ⟨h1, h2, rfl, h4⟩

theorem simulates : Machine.Simulates (machine cfg) (Coroutine.machine cfg) State.atomic State.effect :=
  ⟨fun _ => atomic_init, fun _ _ _ hx hstep => ((reachable_ok hx).step hstep).2⟩

/-- What a context does whose switch queue is a `Fifo`, with every interleaving of a push and a pop, is
what it does with the atomic queue: a run is one with the atomic queue, in which a call of `run_once()`
is one step, and so is a push that succeeds. A push fails only when 63 coroutines are in the queue. -/
theorem switch_queue_atomic (hx : (machine cfg).Reachable x) : (Coroutine.machine cfg).Reachable x.atomic ∧
    (∀ as y, (machine cfg).run x as = some y → (Coroutine.machine cfg).run x.atomic
      ((machine cfg).trace State.effect x as) = some y.atomic) ∧
    ∀ elem in_, x.fifo.producer = .loadOut elem in_ → (in_ + 1) &&& size.mask = x.fifo.out_ →
      x.atomic.switchSpsc.length = 63 := by
  refine ⟨simulates.reachable hx, fun as y hrun => simulates.run hx hrun, fun elem in_ hproducer hfull => ?_⟩
  have hstep : Fifo.produce size x.fifo = some { x.fifo with
      producer := .idle
      refused := x.fifo.unread :: x.fifo.refused } := by
    simp only [Fifo.produce, hproducer, if_pos hfull]
  obtain ⟨-, hrefines⟩ := (reachable_ok hx).fifo.step (l := .produce) hstep
  simp only [Fifo.Refines, Fifo.State.effect, hproducer, if_pos hfull] at hrefines
  exact (queueStep_full hrefines).1

end Simulation

section Interleaved

def State.start : State :=
  ⟨.start, ⟨fun _ => none, 0, 0, .idle, .idle, [], [], [], []⟩, none⟩

/-- Coroutine 7 is pushed. While the context pops it, coroutine 8 is pushed. -/
def interleavedRun : List Label :=
  [.push ⟨7, []⟩, .produce, .produce, .produce, .produce, .runOnce false, .push ⟨8, []⟩, .consume, .produce,
    .consume, .produce, .consume, .produce, .consume, .produce]

theorem switch_queue_atomic_interleaved : ∃ x, (machine smallConfig).Reachable x ∧
    x.context.operations = [⟨7, []⟩] ∧ x.atomic.switchSpsc = [⟨8, []⟩] ∧
    (Coroutine.machine smallConfig).Reachable x.atomic := by
  have hrun : ∃ x, (machine smallConfig).run .start interleavedRun = some x ∧
      x.context.operations = [⟨7, []⟩] ∧ x.atomic.switchSpsc = [⟨8, []⟩] := ⟨_, rfl, rfl, rfl⟩
  obtain ⟨x, hx, hoperations, hqueue⟩ := hrun
  have hreach : (machine smallConfig).Reachable x :=
    .of_run ⟨init_start, by simp [Fifo.Init, State.start], rfl⟩ hx
  exact ⟨x, hreach, hoperations, hqueue, (switch_queue_atomic hreach).1⟩

example : (machine smallConfig).trace State.effect .start interleavedRun =
    [.push ⟨7, []⟩, .runOnce false, .push ⟨8, []⟩] := rfl

end Interleaved

end IoUring.Coroutine.SwitchQueue
