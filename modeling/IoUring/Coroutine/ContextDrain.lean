import IoUring.Coroutine.ContextInflight
import IoUring.Coroutine.ContextOperation

/-!
# `drained()`

A coroutine that is resumed by the loop over the ring may await again. Its SQE is
then prepared after the submission, and neither counter of `drained()` sees it
before the next one. The switch queue is not counted at all.
-/

namespace IoUring.Coroutine

variable {cfg : Config} {s s' : State} {l : Label}

def UserAct.plain : UserAct → Bool
  | .asyncOperation | .await _ | .coSpawn | .call | .ret | .switchTo _ | .dropOperation _ => true
  | _ => false

def Label.plain : Label → Bool
  | .user act => act.plain
  | _ => true

/-- The coroutines await plain operations only. -/
def Plain (_ : State) (l : Label) : Prop :=
  l.plain = true

instance (s : State) (l : Label) : Decidable (Plain s l) :=
  inferInstanceAs (Decidable (_ = _))

/-- The loop over the ring is about to look at a CQE. -/
def State.reaping (s : State) : Bool :=
  match s.phase with
  | .reap done => s.ring.khead + done < s.ring.ktail
  | _ => false

/-- Where `drained()` does not look: the switch queue, and the coroutines that wait for an
operation that is prepared only. -/
def State.overlooked (s : State) : Prop :=
  s.switchSpsc ≠ [] ∨ ∃ e ∈ s.ring.sq, e.data.bind s.suspended ≠ none

instance (s : State) : Decidable s.overlooked :=
  inferInstanceAs (Decidable (_ ∨ _))

/-- A coroutine is queued, or the kernel has not finished all that was submitted. -/
def State.busy (s : State) : Prop :=
  s.operations ≠ [] ∨ s.ring.requests ≠ []

instance (s : State) : Decidable s.busy :=
  inferInstanceAs (Decidable (_ ∨ _))

/-- `run_once()` is in the loop over the ring. -/
def State.inLoop (s : State) : Bool :=
  match s.phase with
  | .reap _ => true
  | _ => false

/-- No CQE with `-ECANCELED` is reaped. In the loop over the ring a coroutine awaits an
operation that is prepared only, or is pushed, or is left in the switch queue from before,
when the context is busy, and the kernel does not finish the last thing the context is busy
with. No coroutine is pushed while the context is drained and idle. -/
def DrainsOk (cfg : Config) (s : State) (l : Label) : Prop :=
  l.plain = true ∧
    match l with
    | .push _ => (s.phase = .idle → s.drained = false) ∧ (s.inLoop = true → s.busy)
    | .go => (s.reaping = true → (s.current cfg).res ≠ -ECANCELED) ∧
        (s.phase = .submit → s.switchSpsc ≠ [] → s.busy ∨ s.ring.sq ≠ [])
    | .user (.await a) => s.inLoop = true → (∃ e ∈ s.ring.sq, e.data = some a) → s.busy
    | .finish .. => s.inLoop = true → s.overlooked → s.operations ≠ [] ∨ 1 < s.ring.requests.length
    | _ => True

instance (s : State) : (l : Label) → Decidable (DrainsOk cfg s l)
  | .push _ => inferInstanceAs (Decidable (_ ∧ (_ → _) ∧ (_ → _)))
  | .go => inferInstanceAs (Decidable (_ ∧ (_ → _) ∧ (_ → _ → _)))
  | .finish .. => inferInstanceAs (Decidable (_ ∧ (_ → _ → _)))
  | .user (.await _) => inferInstanceAs (Decidable (_ ∧ (_ → _ → _)))
  | .user .asyncOperation | .user .asyncDrainOperation | .user .asyncMultishotOperation
  | .user (.link ..) | .user .coSpawn | .user .call | .user .ret | .user (.switchTo _)
  | .user (.dropOperation _) | .user (.dropMultishot ..) | .coSpawn | .runOnce _ | .more .. =>
      inferInstanceAs (Decidable (_ ∧ True))

theorem DrainsOk.noMultishot (h : DrainsOk cfg s l) : NoMultishot s l := by
  rintro rfl
  exact absurd h.1 (by decide)

/-- No coroutine that the context has accepted is unfinished on it. -/
def State.allDone (s : State) : Prop :=
  s.operations = [] ∧ s.switchSpsc = [] ∧ s.running = none ∧ ∀ a, s.suspended a = none

/-! ## Requests of plain operations -/

/-- How many requests and CQEs an operation has. -/
def State.issued (s : State) (a : Nat) : Nat :=
  (s.ring.live a).length + s.posted.countP fun c => c.data = some a

structure SentOk (s : State) : Prop where
  flags : ∀ e ∈ s.ring.requests ++ s.ring.sq, e.flags = {}
  chain : ∀ c ∈ s.ring.flight, c.severed = true → c.members = []
  single : ∀ c ∈ s.ring.flight, c.members.length ≤ 1
  issued : ∀ a, a < s.next → (s.object a).userData.sqe = true → 0 < s.issued a

theorem SentOk.same (h : SentOk s) (hring : s'.ring = s.ring) (hposted : s'.posted = s.posted)
    (hnext : s'.next = s.next)
    (hsqe : ∀ a, (s'.object a).userData.sqe = (s.object a).userData.sqe) : SentOk s' where
  flags := by rw [hring]; exact h.flags
  chain := by rw [hring]; exact h.chain
  single := by rw [hring]; exact h.single
  issued := by
    intro a ha
    rw [hsqe, State.issued, hring, hposted]
    exact h.issued a (hnext ▸ ha)

/-- Without links, each request is submitted alone. -/
theorem chainsOf_unlinked {P : Type*} {sq : List (Sqe P)} (h : ∀ e ∈ sq, e.linked = false) :
    chainsOf sq = sq.map fun e => [e] := by
  induction sq with
  | nil => rfl
  | cons e es ih =>
      have hlinked := h e List.mem_cons_self
      have htail := ih fun x hx => h x (List.mem_cons_of_mem _ hx)
      simp [chainsOf, hlinked, htail]

theorem SentOk.submit (h : SentOk s) : SentOk (submitStep cfg s) := by
  have hchains : chainsOf s.ring.sq = s.ring.sq.map fun e => [e] :=
    chainsOf_unlinked fun e he => by
      rw [Sqe.linked, h.flags e (List.mem_append_right _ he)]
      rfl
  have hflight : (submitStep cfg s).ring.flight =
      s.ring.flight ++ s.ring.sq.map fun e => ⟨[e], false⟩ := by
    simp [submitStep, Ring.submit, hchains]
  refine ⟨fun e he => ?_, fun c hc => ?_, fun c hc => ?_, fun a ha hsqe => ?_⟩
  · simp only [submitStep, Ring.requests_submit] at he
    exact h.flags e (by simpa [Ring.submit] using he)
  · rw [hflight] at hc
    rcases List.mem_append.mp hc with hc | hc
    · exact h.chain c hc
    · obtain ⟨e, -, rfl⟩ := List.mem_map.mp hc
      simp
  · rw [hflight] at hc
    rcases List.mem_append.mp hc with hc | hc
    · exact h.single c hc
    · obtain ⟨e, -, rfl⟩ := List.mem_map.mp hc
      simp
  · have hissued : (submitStep cfg s).issued a = s.issued a := by
      simp [State.issued, submitStep, Ring.live_submit]
    rw [hissued]
    exact h.issued a ha hsqe

/-- Every request that finishes has a CQE. -/
theorem SentOk.posts (h : SentOk s) (hinflight : InflightOk s) {i : Nat} {e : Sqe Request}
    {rest : List (Sqe Request)} {o : Outcome} (hfinish : Finishes s i e rest o) (post : Bool) :
    rest = [] ∧ posts e o.severed o.failed post = true := by
  have hmem := List.mem_of_getElem? hfinish.chain
  have hrequest := List.mem_append_left s.ring.sq (mem_requests hfinish.chain)
  have hsingle := h.single _ hmem
  have hsevered : o.severed = false := by
    by_contra hsevered
    have hnil := h.chain _ hmem (by simpa using hsevered)
    simp at hnil
  refine ⟨by simpa using hsingle, ?_⟩
  simp [IoUring.Coroutine.posts, hsevered, hinflight.prep e hrequest, h.flags e hrequest]

theorem SentOk.posted (h : SentOk s) (hinflight : InflightOk s) {i : Nat} {e : Sqe Request}
    {rest : List (Sqe Request)} {o : Outcome} (hfinish : Finishes s i e rest o) :
    SentOk ((s.finished i e rest o).post cfg ⟨e.data, o.res, false⟩) := by
  obtain ⟨rfl, -⟩ := h.posts hinflight hfinish true
  refine ⟨fun x hx => ?_, fun c hc => ?_, fun c hc => ?_, fun a ha hsqe => ?_⟩
  · rcases List.mem_append.mp hx with hx | hx
    · exact h.flags x (List.mem_append_left _
        ((requests_finished s hfinish).mem_iff.mpr (List.mem_cons_of_mem _ hx)))
    · exact h.flags x (List.mem_append_right _ hx)
  · rcases List.mem_or_eq_of_mem_set hc with hc | rfl
    · exact h.chain c hc
    · simp
  · rcases List.mem_or_eq_of_mem_set hc with hc | rfl
    · exact h.single c hc
    · simp
  · have hissued := h.issued a ha hsqe
    have hlive := (live_finished hfinish a).length_eq
    simp only [State.issued, State.post, State.finished, Ring.live, Ring.requests,
      List.countP_append, List.length_append] at hissued hlive ⊢
    split at hlive
    · next howner =>
        have hown : [(⟨e.data, o.res, false⟩ : Cqe)].countP (fun c => c.data = some a) = 1 := by
          simp [Sqe.data_of_operation howner]
        simp only [List.length_singleton] at hlive
        omega
    · next hdata =>
        simp only [List.length_nil] at hlive
        omega

theorem Prepares.sentOk {sqes : List (Sqe Request)} {o : Awaitable} (hprep : Prepares s s' sqes o)
    (hflags : ∀ e ∈ sqes, e.flags = {}) (hown : o.userData.sqe = true → ∃ e ∈ sqes, e.data = some s.next)
    (hnext : s'.next = s.next + 1) (h : SentOk s) : SentOk s' := by
  have hrest := hprep.rest
  have hflight : s'.ring.flight = s.ring.flight := by rw [hprep.sq]
  refine ⟨fun e he => ?_, by rw [hflight]; exact h.chain, by rw [hflight]; exact h.single,
    fun a ha hsqe => ?_⟩
  · rw [hprep.sq] at he
    rcases List.mem_append.mp he with he | he
    · exact h.flags e (List.mem_append_left _ he)
    · rcases List.mem_append.mp he with he | he
      · exact h.flags e (List.mem_append_right _ he)
      · exact hflags e he
  · rw [State.issued, hprep.live, hrest]
    rw [hprep.object] at hsqe
    split at hsqe
    · next hnew =>
        obtain ⟨e, he, hdata⟩ := hown hsqe
        obtain rfl : a = s.next := by omega
        have hmem : e ∈ sqes.filter fun e => e.data = some s.next :=
          List.mem_filter.mpr ⟨he, by simpa using hdata⟩
        have hpos := List.length_pos_of_mem hmem
        simp only [List.length_append]
        omega
    · next hold =>
        have hissued := h.issued a (by omega) hsqe
        rw [State.issued] at hissued
        simp only [List.length_append]
        omega

theorem SentOk.step (h : SentOk s) (hinflight : InflightOk s) (hoperations : OperationsOk cfg s)
    (hring : RingOk cfg s) (hok : Plain s l) (hstep : Step cfg s l s') : SentOk s' := by
  cases hstep with
  | submit _ _ => exact h.submit
  | leave _ _ _ _ _ => exact ⟨h.flags, h.chain, h.single, h.issued⟩
  | posted hfinish _ _ => exact h.posted hinflight hfinish
  | silent hfinish hposts => simp [(h.posts hinflight hfinish _).2] at hposts
  | more hchain hprep _ =>
      simp [hinflight.prep _ (List.mem_append_left _ (mem_requests hchain))] at hprep
  | @construct act prep drain _ hact hs' =>
      obtain ⟨rfl, rfl⟩ : prep = .oneshot ∧ drain = false := by
        cases act <;> simp [UserAct.constructs, Plain, Label.plain, UserAct.plain] at hact hok
        exact ⟨hact.1.symm, hact.2⟩
      obtain ⟨sqes, o, hprep, -, hnext, -, hsqes, hsqe⟩ := constructStep_prepares (.inl rfl) hs'
      refine hprep.sentOk (fun e he => (hsqes e he).1) (fun hown => ?_) hnext h
      obtain ⟨e, he⟩ := List.exists_mem_of_ne_nil _ (hsqe hown)
      exact ⟨e, he, (hsqes e he).2⟩
  | link hs' => simp [Plain, Label.plain, UserAct.plain] at hok
  | discard _ _ _ _ => exact h.same rfl rfl rfl (dropOperation_sqe s _)
  | drop _ _ _ _ => simp [Plain, Label.plain, UserAct.plain] at hok
  | @eager a _ _ _ _ _ => exact h.same rfl rfl rfl (setUserData_sqe _ a _ (by rfl))
  | @suspend a hd _ _ _ _ _ _ => exact h.same rfl rfl rfl (setUserData_sqe _ a _ (by rfl))
  | @complete a hd hreap _ hdata _ _ _ =>
      have ha := hoperations.lt_of_posted (List.mem_of_getElem? (hring.current hreap)) hdata
      rw [awaitResume_plain (by simpa using hinflight.object a ha)]
      exact h.same rfl rfl rfl (setUserData_sqe _ a _ (by rfl))
  | @ready a ha _ _ _ =>
      rw [awaitResume_plain (s := { s with awaits := a :: s.awaits }) (hinflight.object a ha)]
      exact h.same rfl rfl rfl fun _ => rfl
  | _ => exact h.same rfl rfl rfl fun _ => rfl

/-! ## Whole runs -/

/-- A coroutine runs when it was launched or resumed by the loop over the ring. -/
def RunningOk (s : State) : Prop :=
  s.running ≠ none → s.phase ≠ .idle ∧ s.phase ≠ .submit

theorem RunningOk.step (h : RunningOk s) (hstep : Step cfg s l s') : RunningOk s' := by
  cases hstep with
  | runOnce _ => exact fun hrun => ⟨by simp [prepareStep], by simp [prepareStep]⟩
  | launched hrun _ => exact fun hsome => absurd hrun hsome
  | resume _ _ _ => exact fun _ => ⟨by simp, by simp⟩
  | submit hrun _ => exact fun hsome => absurd hrun hsome
  | skip hreap _ => exact fun hsome => absurd hreap.running hsome
  | torn hreap _ _ _ => exact fun hsome => absurd hreap.running hsome
  | eager hreap _ _ _ _ => exact fun hsome => absurd hreap.running hsome
  | @complete a hd _ _ _ _ _ _ =>
      obtain ⟨d, res, heq⟩ := awaitResume_eq (s.reaped cfg a) a
      rw [heq]
      exact fun _ => ⟨by simp [State.reaped, State.setUserData, State.setObject, State.passed],
        by simp [State.reaped, State.setUserData, State.setObject, State.passed]⟩
  | leave hrun _ _ _ _ => exact fun hsome => absurd hrun hsome
  | construct hact hs' =>
      obtain ⟨sqes, o, hprep, -⟩ := constructStep_prepares (UserAct.prep_of_constructs hact) hs'
      rw [hprep.rest]
      exact h
  | link hs' =>
      obtain ⟨_, _, _, hprep, -⟩ := linkStep_prepares hs'
      rw [hprep.rest]
      exact h
  | suspend _ _ _ _ _ _ => exact fun hsome => absurd rfl hsome
  | @ready a _ _ _ _ =>
      obtain ⟨d, res, heq⟩ := awaitResume_eq { s with awaits := a :: s.awaits } a
      rw [heq]
      exact h
  | run _ hrun => exact fun _ => h hrun
  | _ => exact h

theorem reachable_running {ok : State → Label → Prop} (h : (machine cfg).Reach ok s) :
    RunningOk s := by
  refine h.invariant RunningOk (fun s hs => ?_) fun s l s' _ hrunning _ hstep =>
    hrunning.step (.of_step hstep)
  obtain ⟨-, -, -, -, hrun, -⟩ := hs
  exact fun hsome => absurd hrun hsome

/-- No CQE with `-ECANCELED` was passed. -/
def PassedOk (s : State) : Prop :=
  ∀ n c, n < s.seen → s.posted[n]? = some c → c.res ≠ -ECANCELED

/-- In the loop over the ring the context is busy, and between two calls it is not drained, as
long as somebody waits where `drained()` does not look. -/
structure OverlookedOk (s : State) : Prop where
  loop : s.inLoop = true → s.overlooked → s.busy
  idle : s.phase = .idle → s.drained = true → ¬s.overlooked

theorem PassedOk.step (h : PassedOk s) (hring : RingOk cfg s) (hok : DrainsOk cfg s l)
    (hstep : Step cfg s l s') : PassedOk s' := by
  have hlen : s.seen ≤ s.posted.length := by rw [hring.tail]; exact hring.head
  rcases hstep.seen with ⟨hseen, hposted⟩ | ⟨rfl, hreap, hseen, hposted⟩
  · intro n c hn hc
    rw [hposted, List.getElem?_append_left (by omega)] at hc
    exact h n c (hseen ▸ hn) hc
  · intro n c hn hc
    rw [hposted] at hc
    by_cases hold : n < s.seen
    · exact h n c hold hc
    · obtain rfl : n = s.seen := by omega
      have hcurrent := hring.current hreap
      rw [← State.seen, hc, Option.some.injEq] at hcurrent
      have hreaping : s.reaping = true := by
        obtain ⟨done, hphase⟩ := hreap.phase
        have hlt := hreap.lt
        rw [hphase] at hlt
        simpa [State.reaping, hphase, Phase.done] using hlt
      rw [hcurrent]
      exact hok.2.1 hreaping

namespace OverlookedOk

/-- Nobody waits who did not wait before, and the context stays busy. -/
theorem same (h : OverlookedOk s) (hphase : s'.phase = s.phase) (hwaits : s'.overlooked → s.overlooked)
    (hbusy : s.busy → s'.busy) (hdrained : s'.drained = true → s.drained = true) : OverlookedOk s' where
  loop := by
    rw [State.inLoop, hphase]
    exact fun hloop hw => hbusy (h.loop hloop (hwaits hw))
  idle := by
    rw [hphase]
    exact fun hidle hd hw => h.idle hidle (hdrained hd) (hwaits hw)

/-- The loop goes on. -/
theorem looped (h : OverlookedOk s) (hreap : Reaping s) (hphase : s'.phase = s.passed.phase)
    (hwaits : s'.overlooked → s.overlooked) (hbusy : s.busy → s'.busy) : OverlookedOk s' where
  loop := by
    obtain ⟨done, hdone⟩ := hreap.phase
    exact fun _ hw => hbusy (h.loop (by rw [State.inLoop, hdone]) (hwaits hw))
  idle := by
    intro hidle
    rw [hphase] at hidle
    cases hidle

/-- Outside of the loop, and not idle. -/
theorem of_phase (hloop : s'.inLoop = false) (hidle : s'.phase ≠ .idle) : OverlookedOk s' :=
  ⟨fun h => by simp [hloop] at h, fun h => absurd h hidle⟩

/-- A request finishes. -/
theorem finished (h : OverlookedOk s) {i : Nat} {e : Sqe Request} {rest : List (Sqe Request)} {o : Outcome}
    (hfinish : Finishes s i e rest o)
    (hok : s.inLoop = true → s.overlooked → s.operations ≠ [] ∨ 1 < s.ring.requests.length)
    (hrest : s' = { s with ring := s'.ring, outcome := s'.outcome, posted := s'.posted, silent := s'.silent })
    (hsq : s'.ring.sq = s.ring.sq) (hflight : s'.ring.flight = (s.finished i e rest o).ring.flight) :
    OverlookedOk s' := by
  have hlength := (requests_finished s hfinish).length_eq
  have hrequests : s'.ring.requests = (s.finished i e rest o).ring.requests := by
    rw [Ring.requests, hflight, Ring.requests]
  have hwaits : s'.overlooked → s.overlooked := by
    rw [State.overlooked, hsq, hrest]
    exact id
  refine ⟨fun hloop hw => ?_, fun hidle hd => ?_⟩
  · have hloop : s.inLoop = true := by
      rw [hrest] at hloop
      exact hloop
    rcases hok hloop (hwaits hw) with hqueue | hflying
    · refine .inl ?_
      rw [hrest]
      exact hqueue
    · refine .inr ?_
      rw [hrequests]
      intro hnil
      simp [hnil] at hlength
      omega
  · rw [hrest] at hidle hd
    exact fun hw => h.idle hidle hd (hwaits hw)

/-- An operation is constructed, and nobody waits for it yet. -/
theorem construct (h : OverlookedOk s) {sqes : List (Sqe Request)} {o : Awaitable}
    (hprep : Prepares s s' sqes o) (hblank : ∀ a, s.next ≤ a → s.suspended a = none) : OverlookedOk s' := by
  have hrest := hprep.rest
  have hrequests : s'.ring.requests = s.ring.requests := by
    rw [hprep.sq]
    rfl
  refine h.same (by rw [hrest]) (fun hw => ?_) (fun hb => ?_) fun hd => ?_
  · rw [hrest] at hw
    refine hw.imp id fun ⟨e, he, hsuspended⟩ => ⟨e, ?_, hsuspended⟩
    simp only [hprep.sq, List.mem_append] at he
    refine he.resolve_right fun hnew => hsuspended ?_
    obtain ⟨a, ha, hlow, -⟩ := hprep.data e hnew
    rw [ha]
    exact hblank a hlow
  · rw [State.busy, hrequests, hrest]
    exact hb
  · rw [hrest] at hd
    exact hd

/-- The coroutine that runs waits for the operation. -/
theorem suspend (h : OverlookedOk s) {a : Nat} (hd : Handle) (hidle : s.phase ≠ .idle)
    (hok : s.inLoop = true → (∃ e ∈ s.ring.sq, e.data = some a) → s.busy) :
    OverlookedOk (s.suspend hd a) := by
  refine ⟨fun hloop hw => ?_, fun hidle' => absurd hidle' hidle⟩
  have hloop : s.inLoop = true := hloop
  by_cases hprepared : ∃ e ∈ s.ring.sq, e.data = some a
  · exact hok hloop hprepared
  · refine h.loop hloop (hw.imp id fun ⟨e, he, hsuspended⟩ => ⟨e, he, ?_⟩)
    have he : e ∈ s.ring.sq := he
    have hne : e.data ≠ some a := fun hdata => hprepared ⟨e, he, hdata⟩
    cases hdata : e.data with
    | none => simp [hdata] at hsuspended
    | some b =>
        have hba : b ≠ a := fun hba => hne (hdata.trans (by rw [hba]))
        simpa [hdata, State.suspend, hba] using hsuspended

/-- The call goes on, or it ends without anything to wait for. -/
theorem submit (hinflight : InflightOk s) (hring : RingOk cfg s)
    (hok : s.switchSpsc ≠ [] → s.busy ∨ s.ring.sq ≠ []) :
    OverlookedOk (submitStep cfg s) := by
  have hwaits : (submitStep cfg s).overlooked → s.busy ∨ s.ring.sq ≠ [] := by
    rintro (hqueue | ⟨e, he, -⟩)
    · exact hok hqueue
    · simp [submitStep, Ring.submit] at he
  refine ⟨fun _ hw => ?_, fun hidle hd hw => ?_⟩
  · rw [State.busy]
    simp only [submitStep, Ring.requests_submit]
    rcases hwaits hw with (hqueue | hflying) | hprepared
    · exact .inl hqueue
    · exact .inr (by simp [hflying])
    · exact .inr (by simp [hprepared])
  · simp only [State.drained, submitStep, Bool.and_eq_true, List.isEmpty_iff, beq_iff_eq] at hd
    have hcount := hinflight.count
    have hhead := hring.head
    have hrequests : s.ring.requests = [] := List.length_eq_zero_iff.mp (by omega)
    have hsq : s.ring.sq = [] := List.length_eq_zero_iff.mp (by omega)
    rcases hwaits hw with (hqueue | hflying) | hprepared
    · exact hqueue hd.1
    · exact hflying hrequests
    · exact hprepared hsq

/-- The call ends, and nothing is in flight if the counters say so. -/
theorem leave (h : OverlookedOk s) (hinflight : InflightOk s) (hring : RingOk cfg s)
    (hloop : s.inLoop = true) {inflight : Nat} (hle : s.ring.ktail ≤ s.ring.khead + s.phase.done)
    (hmax : inflight = s.inflight ∨ inflight = max s.inflight s.phase.done) :
    OverlookedOk (s.left inflight) := by
  refine ⟨fun hloop' => by simp [State.left, State.inLoop] at hloop', fun _ hd hw => ?_⟩
  simp only [State.drained, State.left, Bool.and_eq_true, List.isEmpty_iff, beq_iff_eq] at hd
  have hcount := hinflight.count
  have hhead := hring.head
  have hrequests : s.ring.requests = [] := List.length_eq_zero_iff.mp (by omega)
  rcases h.loop hloop hw with hqueue | hflying
  · exact hqueue hd.1
  · exact hflying hrequests

/-- A coroutine is queued. -/
theorem queued (s : State) : OverlookedOk (coSpawn s) := by
  refine ⟨fun _ _ => .inl (by simp [coSpawn]), fun _ hd => ?_⟩
  simp [State.drained, coSpawn] at hd

theorem step (h : OverlookedOk s) (hinflight : InflightOk s) (hring : RingOk cfg s)
    (hoperations : OperationsOk cfg s) (hrunning : RunningOk s)
    (huser : ∀ act, l = .user act → s.running ≠ none) (hok : DrainsOk cfg s l)
    (hstep : Step cfg s l s') : OverlookedOk s' := by
  have hcalled : ∀ act, l = .user act → s.phase ≠ .idle := fun act hact => (hrunning (huser act hact)).1
  cases hstep with
  | coSpawn _ => exact queued s
  | push _ =>
      refine ⟨fun hl _ => hok.2.2 hl, fun hidle hd => ?_⟩
      have hd : s.drained = true := hd
      simp [hok.2.1 hidle] at hd
  | runOnce _ => exact .of_phase rfl (by simp [prepareStep])
  | launched _ _ => exact .of_phase rfl (by simp)
  | resume _ _ _ => exact .of_phase rfl (by simp)
  | submit _ hphase => exact submit hinflight hring (hok.2.2 hphase)
  | skip hreap _ => exact h.looped hreap rfl id id
  | torn hreap _ _ _ => exact h.looped hreap rfl id id
  | eager hreap _ _ _ _ => exact h.looped hreap rfl id id
  | @complete a hd hreap _ hdata _ _ _ =>
      have ha := hoperations.lt_of_posted (List.mem_of_getElem? (hring.current hreap)) hdata
      rw [awaitResume_plain (by simpa using hinflight.object a ha)]
      refine h.looped hreap rfl (fun hw => ?_) id
      rcases hw with hspsc | ⟨e, he, hsuspended⟩
      · exact .inl hspsc
      refine .inr ⟨e, he, ?_⟩
      cases hb : e.data with
      | none => simp [hb] at hsuspended
      | some b =>
          by_cases hba : b = a
          · simp [hb, hba] at hsuspended
          · simpa [hb, hba] using hsuspended
  | leave _ hphase hle hmax _ =>
      obtain ⟨done, hphase⟩ := hphase
      exact h.leave hinflight hring (by rw [State.inLoop, hphase]) hle hmax
  | posted hfinish _ _ => exact h.finished hfinish hok.2 rfl rfl rfl
  | silent hfinish _ => exact h.finished hfinish hok.2 rfl rfl rfl
  | more _ _ _ => exact h.same rfl id id id
  | construct hact hs' =>
      obtain ⟨sqes, o, hprep, -⟩ := constructStep_prepares (UserAct.prep_of_constructs hact) hs'
      exact h.construct hprep fun a ha => (hoperations.blank a ha).suspended
  | link hs' =>
      obtain ⟨_, _, _, hprep, -⟩ := linkStep_prepares hs'
      exact h.construct hprep fun a ha => (hoperations.blank a ha).suspended
  | suspend _ _ _ _ _ _ => exact h.suspend _ (hcalled _ rfl) hok.2
  | @ready a ha _ _ _ =>
      rw [awaitResume_plain (s := { s with awaits := a :: s.awaits }) (hinflight.object a ha)]
      exact h.same rfl id id id
  | spawn => exact queued s
  | run _ _ => exact h.same rfl id id id
  | discard _ _ _ _ => exact h.same rfl id id id
  | drop ha hmultishot _ _ => simp [hinflight.object _ ha] at hmultishot

end OverlookedOk

structure DrainOk (cfg : Config) (s : State) : Prop where
  sent : SentOk s
  passed : PassedOk s
  overlooked : OverlookedOk s

theorem reachable_drain (h : (machine cfg).Reach (DrainsOk cfg) s) : DrainOk cfg s := by
  refine h.invariant (DrainOk cfg) (fun s hs => ?_) fun s l s' hreach ih hok hstep => ?_
  · obtain ⟨-, -, hspsc, hphase, -, hsq, hflight, hhead, -, hnext, -, hposted, -⟩ := hs
    have hnone : ¬s.overlooked := by simp [State.overlooked, hspsc, hsq]
    refine ⟨⟨by simp [Ring.requests, hflight, hsq], by simp [hflight], by simp [hflight], ?_⟩, ?_,
      ⟨fun _ hw => absurd hw hnone, fun _ _ => hnone⟩⟩
    · intro a ha
      rw [hnext] at ha
      exact absurd ha (Nat.not_lt_zero a)
    · intro n c hn hc
      simp [hposted] at hc
  · have hplain := hreach.mono fun _ _ hok => hok.noMultishot
    have hinflight := reachable_inflight hplain
    have hoperations := reachable_operations hplain
    have hring := reachable_ring hreach
    have hstep' := Step.of_step hstep
    refine ⟨ih.sent.step hinflight hoperations hring hok.1 hstep', ih.passed.step hring hok hstep',
      ih.overlooked.step hinflight hring hoperations (reachable_running hreach) ?_ hok hstep'⟩
    rintro act rfl hnone
    simp [machine, step, hnone] at hstep

/-- In every run that meets the condition, a context that is drained between two
calls of `run_once()` has completed every coroutine it has accepted. -/
theorem drained_allDone (h : (machine cfg).Reach (DrainsOk cfg) s) (hidle : s.phase = .idle)
    (hdrained : s.drained = true) : s.allDone := by
  have hplain := h.mono fun _ _ hok => hok.noMultishot
  have hinflight := reachable_inflight hplain
  have hring := reachable_ring h
  have hoperations := reachable_operations hplain
  have hdrain := reachable_drain h
  have hoverlooked := hdrain.overlooked.idle hidle hdrained
  simp only [State.drained, Bool.and_eq_true, List.isEmpty_iff, beq_iff_eq] at hdrained
  have hcount := hinflight.count
  have hhead := hring.head
  have htail := hring.tail
  have hseen : s.seen = s.posted.length := by
    rw [State.seen, hidle]
    rw [hidle] at hhead
    simp only [Phase.done] at hhead ⊢
    omega
  have hrequests : s.ring.requests = [] := List.length_eq_zero_iff.mp (by omega)
  refine ⟨hdrained.1, ?_, ?_, fun a => ?_⟩
  · by_contra hspsc
    exact hoverlooked (.inl hspsc)
  · by_contra hrun
    exact (reachable_running h hrun).1 hidle
  · by_contra hsome
    obtain ⟨hd, hsuspended⟩ := Option.ne_none_iff_exists'.mp hsome
    have ha : a < s.next := by
      by_contra hle
      exact hsome (hoperations.blank a (by omega)).suspended
    have hop := hoperations.operation a ha (hinflight.object a ha)
    obtain ⟨-, hsqe, hcqe, halive⟩ := hop.waits hd hsuspended
    -- its CQE is not posted, so that its request is prepared
    have hposted : s.posted.countP (fun c => c.data = some a) = 0 := by
      apply List.countP_eq_zero.mpr
      intro c hc hdata
      obtain ⟨n, hn⟩ := List.mem_iff_getElem?.mp hc
      have hlt : n < s.seen := hseen ▸ (List.getElem?_eq_some_iff.mp hn).1
      exact hdrain.passed n c hlt hn (hop.seen halive hcqe n c hlt hn (by simpa using hdata))
    have hissued := hdrain.sent.issued a ha hsqe
    rw [State.issued, hposted] at hissued
    obtain ⟨e, he⟩ := List.exists_mem_of_length_pos hissued
    rw [Ring.live, hrequests, List.nil_append] at he
    obtain ⟨hmem, howner⟩ := List.mem_filter.mp he
    have hdata := Sqe.data_of_operation (of_decide_eq_true howner)
    exact hoverlooked (.inr ⟨e, hmem, by rw [hdata]; exact hsome⟩)

section Drain

/-- Of two coroutines the first one awaits again, while the request of the second one is in
flight. -/
def againRun : List Label :=
  [.coSpawn, .coSpawn, .runOnce false, .go, .user .asyncOperation, .user (.await 0), .go,
    .user .asyncOperation, .user (.await 1), .go, .go, .finish 0 1 false false, .go,
    .user .asyncOperation, .user (.await 2), .go, .runOnce false, .go, .go, .finish 1 3 false false,
    .finish 2 2 false false, .go, .user .ret, .go, .user .ret, .go]

theorem drained_allDone_again : ∃ s, (machine smallConfig).Reach (DrainsOk smallConfig) s ∧
    s.returned = [(2, 2), (1, 3), (0, 1)] ∧ s.allDone := by
  have hrun : ∃ s, ((machine smallConfig).restrict (DrainsOk smallConfig)).run .start againRun =
      some s ∧ s.phase = .idle ∧ s.drained = true ∧ s.returned = [(2, 2), (1, 3), (0, 1)] :=
    ⟨_, rfl, rfl, rfl, rfl⟩
  obtain ⟨s, hs, hidle, hdrained, hreturned⟩ := hrun
  have hreach := Machine.Reach.restrict (.start init_start) hs
  exact ⟨s, hreach, hreturned, drained_allDone hreach hidle hdrained⟩

/-- One coroutine awaits two operations, one after the other. -/
def twoRun : List Label :=
  [.coSpawn, .runOnce false, .go, .user .asyncOperation, .user (.await 0), .go, .go, .finish 0 1 false false,
    .go, .user .asyncOperation, .user (.await 1), .go]

/-- The coroutine is resumed by the loop over the ring and waits for an operation
that is prepared only. -/
theorem drained_not_allDone : ∃ s, (machine smallConfig).Reach Plain s ∧ s.phase = .idle ∧
    s.drained = true ∧ (s.suspended 1).isSome = true ∧ s.posted = [⟨some 0, 1, false⟩] := by
  have hrun : ∃ s, ((machine smallConfig).restrict Plain).run .start twoRun = some s ∧
      s.phase = .idle ∧ s.drained = true ∧ (s.suspended 1).isSome = true ∧
      s.posted = [⟨some 0, 1, false⟩] := ⟨_, rfl, rfl, rfl, rfl, rfl⟩
  obtain ⟨s, hs, hrest⟩ := hrun
  exact ⟨s, Machine.Reach.restrict (.start init_start) hs, hrest⟩

end Drain

end IoUring.Coroutine
