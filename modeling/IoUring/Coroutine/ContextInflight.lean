import IoUring.Coroutine.ContextOperation

/-!
# `inflight()`

A submission counts SQEs and the loop over the ring counts CQEs. Without multishot
operations the counter is ahead of what is in flight by the requests that finished
without a CQE.
-/

namespace IoUring.Coroutine

variable {cfg : Config} {s s' : State} {a : Label}

/-- The coroutines construct no multishot operation. -/
def NoMultishot (_ : State) (a : Label) : Prop :=
  a ≠ .user .asyncMultishotOperation

instance (s : State) (a : Label) : Decidable (NoMultishot s a) :=
  inferInstanceAs (Decidable (_ ≠ _))

structure InflightOk (s : State) : Prop where
  object : ∀ a, a < s.next → (s.object a).multishot = false
  prep : ∀ e ∈ s.ring.requests ++ s.ring.sq, e.prep = .oneshot
  count : s.inflight + s.ring.khead = s.ring.requests.length + s.ring.ktail + s.silent

theorem requests_finished (s : State) {i : Nat} {e : Sqe Request} {rest : List (Sqe Request)}
    {o : Outcome} (h : Finishes s i e rest o) :
    s.ring.requests.Perm (e :: (s.finished i e rest o).ring.requests) :=
  requests_perm _ h.chain

/-- No multishot operation is on its way, and `total` requests were submitted. -/
structure SubmittedOk (s : State) (total : Nat) : Prop where
  object : ∀ a, a < s.next → (s.object a).multishot = false
  prep : ∀ e ∈ s.ring.requests ++ s.ring.sq, e.prep = .oneshot
  count : total = s.ring.requests.length + s.ring.ktail + s.silent

/-- The requests that a step submits. -/
def State.submits (s : State) : Label → Nat
  | .go => if s.phase = .submit then s.ring.sq.length else 0
  | _ => 0

variable {total : Nat}

namespace SubmittedOk

/-- Neither the operations nor the rings change. -/
theorem same (h : SubmittedOk s total) (hnext : s'.next = s.next)
    (hobject : ∀ a, (s'.object a).multishot = (s.object a).multishot) (hring : s'.ring = s.ring)
    (hsilent : s'.silent = s.silent) : SubmittedOk s' total where
  object := by
    intro a ha
    rw [hobject, h.object a (hnext ▸ ha)]
  prep := by rw [hring]; exact h.prep
  count := by rw [hring, hsilent]; exact h.count

/-- One request has finished. -/
theorem finished (h : SubmittedOk s total) {i : Nat} {e : Sqe Request}
    {rest : List (Sqe Request)} {o : Outcome} (hfinish : Finishes s i e rest o) :
    (∀ x ∈ (s.finished i e rest o).ring.requests ++ s.ring.sq, x.prep = .oneshot) ∧
      s.ring.requests.length = (s.finished i e rest o).ring.requests.length + 1 := by
  have hperm := requests_finished s hfinish
  refine ⟨fun x hx => ?_, by simpa using hperm.length_eq⟩
  rcases List.mem_append.mp hx with hx | hx
  · exact h.prep x (List.mem_append_left _ (hperm.mem_iff.mpr (List.mem_cons_of_mem _ hx)))
  · exact h.prep x (List.mem_append_right _ hx)

theorem prepares {sqes : List (Sqe Request)} {o : Awaitable} (h : SubmittedOk s total)
    (hprep : Prepares s s' sqes o) (ho : o.multishot = false) : SubmittedOk s' total := by
  have hring := hprep.sq
  have hrest := hprep.rest
  refine ⟨fun a ha => ?_, fun e he => ?_, ?_⟩
  · rw [hprep.object]
    split
    · exact ho
    · exact h.object a (by omega)
  · rw [hring] at he
    rcases List.mem_append.mp he with he | he
    · exact h.prep e (List.mem_append_left _ he)
    · rcases List.mem_append.mp he with he | he
      · exact h.prep e (List.mem_append_right _ he)
      · rw [hprep.prep e he, ho]
        rfl
  · rw [hrest]
    simp only
    rw [hring]
    exact h.count

/-- All prepared requests are submitted. -/
theorem submit (h : SubmittedOk s total) (hnext : s'.next = s.next) (hobject : s'.object = s.object)
    (hring : s'.ring = s.ring.submit) (hsilent : s'.silent = s.silent) :
    SubmittedOk s' (total + s.ring.sq.length) where
  object := by rw [hnext, hobject]; exact h.object
  prep := by
    intro e he
    rw [hring, Ring.requests_submit] at he
    exact h.prep e (by simpa [Ring.submit] using he)
  count := by
    have hcount := h.count
    rw [hring, hsilent, Ring.requests_submit, List.length_append]
    simp only [Ring.submit]
    omega

theorem step (h : SubmittedOk s total) (hok : NoMultishot s a) (hstep : Step cfg s a s') :
    SubmittedOk s' (total + s.submits a) := by
  have hcount := h.count
  have hreaping : Reaping s → total + s.submits .go = total := fun hreap => by
    obtain ⟨done, hphase⟩ := hreap.phase
    simp [State.submits, hphase]
  cases hstep with
  | launched _ hphase =>
      rw [State.submits, if_neg (by simp [hphase])]
      exact h.same rfl (fun _ => rfl) rfl rfl
  | resume _ hphase _ =>
      rw [State.submits, if_neg (by simp [hphase])]
      exact h.same rfl (fun _ => rfl) rfl rfl
  | submit _ hphase =>
      rw [State.submits, if_pos hphase]
      exact h.submit rfl rfl rfl rfl
  | skip hreap _ =>
      rw [hreaping hreap]
      exact h.same rfl (fun _ => rfl) rfl rfl
  | torn hreap _ _ _ =>
      rw [hreaping hreap]
      exact h.same rfl (fun _ => rfl) rfl rfl
  | @eager a hreap _ _ _ _ =>
      rw [hreaping hreap]
      exact h.same rfl (setUserData_multishot _ a _) rfl rfl
  | @complete a hd hreap _ _ _ _ _ =>
      rw [hreaping hreap]
      refine h.same ?_ (fun a' => ?_) ?_ ?_
      on_goal 2 => exact (awaitResume_multishot _ a a').trans (setUserData_multishot _ a _ a')
      all_goals
        obtain ⟨d, res, heq⟩ := awaitResume_eq (s.reaped cfg a) a
        rw [heq]
        rfl
  | leave _ hphase _ _ _ =>
      obtain ⟨done, hphase⟩ := hphase
      rw [State.submits, if_neg (by simp [hphase])]
      exact ⟨h.object, h.prep, h.count⟩
  | @posted i e rest o post hfinish hroom _ =>
      obtain ⟨hprep, hlength⟩ := h.finished hfinish
      refine ⟨h.object, hprep, ?_⟩
      simp only [State.submits, State.post, State.finished, Ring.requests] at hlength hcount ⊢
      omega
  | @silent i e rest o post hfinish _ =>
      obtain ⟨hprep, hlength⟩ := h.finished hfinish
      refine ⟨h.object, hprep, ?_⟩
      simp only [State.submits, State.finished, Ring.requests] at hlength hcount ⊢
      omega
  | @more i res e rest severed hchain hprep _ =>
      have hmem := mem_requests hchain
      simp [h.prep e (List.mem_append_left _ hmem)] at hprep
  | @construct act prep drain _ hact hs' =>
      have hone : prep = .oneshot := by
        cases act <;> simp only [UserAct.constructs, Option.some.injEq, Prod.mk.injEq,
          reduceCtorEq] at hact
        · exact hact.1.symm
        · exact hact.1.symm
        · exact absurd rfl hok
      obtain ⟨sqes, o, hprep, -, -, ho, -⟩ := constructStep_prepares (.inl hone) hs'
      apply h.prepares hprep
      cases hmultishot : o.multishot with
      | false => rfl
      | true => simp [hone] at ho; simp [ho] at hmultishot
  | link hs' =>
      obtain ⟨_, _, _, hprep, -⟩ := linkStep_prepares hs'
      exact h.prepares hprep rfl
  | discard _ _ _ _ => exact h.same rfl (dropOperation_multishot s _) rfl rfl
  | drop ha hmultishot _ _ => simp [h.object _ ha] at hmultishot
  | @ready a _ _ _ _ =>
      refine h.same ?_ (fun a' => awaitResume_multishot _ a a') ?_ ?_
      all_goals
        obtain ⟨d, res, heq⟩ := awaitResume_eq { s with awaits := a :: s.awaits } a
        rw [heq]
  | @suspend a hd _ _ _ _ _ _ => exact h.same rfl (setUserData_multishot _ a _) rfl rfl
  | _ => exact h.same rfl (fun _ => rfl) rfl rfl

end SubmittedOk

namespace InflightOk

theorem submitted (h : InflightOk s) : SubmittedOk s (s.inflight + s.ring.khead) :=
  ⟨h.object, h.prep, h.count⟩

/-- `_inflight` counts what a step submits. -/
theorem inflight_eq (h : InflightOk s) (hring : RingOk cfg s) (hok : NoMultishot s a)
    (hstep : Step cfg s a s') :
    s'.inflight + s'.ring.khead = s.inflight + s.ring.khead + s.submits a := by
  have hcount := h.count
  have hreaping : Reaping s → s.submits .go = 0 := fun hreap => by
    obtain ⟨done, hphase⟩ := hreap.phase
    simp [State.submits, hphase]
  cases hstep with
  | launched _ hphase => simp [State.submits, hphase]
  | resume _ hphase _ => simp [State.submits, hphase]
  | submit _ hphase =>
      simp only [State.submits, hphase, if_true, submitStep, Ring.submit]
      omega
  | skip hreap _ => simp [hreaping hreap, State.passed]
  | torn hreap _ _ _ => simp [hreaping hreap, State.passed]
  | eager hreap _ _ _ _ =>
      simp [hreaping hreap, State.reaped, State.passed, State.setUserData, State.setObject]
  | @complete a hd hreap _ _ _ _ _ =>
      obtain ⟨d, res, heq⟩ := awaitResume_eq (s.reaped cfg a) a
      rw [heq, hreaping hreap]
      rfl
  | @leave inflight _ hphase hle hinflight hdone =>
      obtain ⟨done, hphase⟩ := hphase
      have hhead := hring.head
      rw [State.submits, if_neg (by simp [hphase])]
      have heq : inflight = s.inflight := by omega
      simp only [State.left]
      omega
  | construct hact hs' =>
      obtain ⟨sqes, o, hprep, -⟩ := constructStep_prepares (UserAct.prep_of_constructs hact) hs'
      rw [hprep.rest]
      simp only
      rw [hprep.sq]
      rfl
  | link hs' =>
      obtain ⟨_, _, _, hprep, -⟩ := linkStep_prepares hs'
      rw [hprep.rest]
      simp only
      rw [hprep.sq]
      rfl
  | drop ha hmultishot _ _ => simp [h.object _ ha] at hmultishot
  | @ready a _ _ _ _ =>
      obtain ⟨d, res, heq⟩ := awaitResume_eq { s with awaits := a :: s.awaits } a
      rw [heq]
      rfl
  | _ => rfl

theorem step (h : InflightOk s) (hring : RingOk cfg s) (hok : NoMultishot s a)
    (hstep : Step cfg s a s') : InflightOk s' := by
  have hsubmitted := h.submitted.step hok hstep
  refine ⟨hsubmitted.object, hsubmitted.prep, ?_⟩
  rw [h.inflight_eq hring hok hstep]
  exact hsubmitted.count

end InflightOk

theorem reachable_inflight (h : (machine cfg).Reach NoMultishot s) : InflightOk s := by
  refine h.invariant InflightOk (fun s hs => ?_) fun s a s' hreach hinflight hok hstep =>
    hinflight.step (reachable_ring hreach) hok (.of_step hstep)
  obtain ⟨-, hinflight, -, -, -, hsq, hflight, hhead, htail, hnext, -, -, hsilent, -⟩ := hs
  refine ⟨fun a ha => ?_, ?_, ?_⟩
  · rw [hnext] at ha
    exact absurd ha (Nat.not_lt_zero a)
  · simp [Ring.requests, hflight, hsq]
  · simp [Ring.requests, hflight, hinflight, hhead, htail, hsilent]

/-- Nothing is cancelled. -/
theorem reachable_operations (h : (machine cfg).Reach NoMultishot s) : OperationsOk cfg s := by
  have haddress : ∀ a, AddressOk cfg s a := fun a =>
    reachable_address (h.of_reach fun s l hreach _ => by
      have hprep := (reachable_inflight hreach).prep
      intro e he howner c hc hdata
      obtain ⟨_, _, _, hchain, hsame⟩ := nextCqe_data he hc
      have hmem := List.mem_append_left s.ring.sq (mem_requests hchain)
      exact howner ((Sqe.operation_of_prep (.inl (hprep e hmem))).trans (hsame.symm.trans hdata)))
  exact ⟨fun a => (haddress a).operation, fun a => (haddress a).blank⟩

/-- Between two calls of `run_once()`, `inflight()` is the number of requests that
are submitted and not finished and of CQEs that are posted and not reaped, exactly
when no request has finished without a CQE. -/
theorem inflight_accurate (h : (machine cfg).Reach NoMultishot s) (hidle : s.phase = .idle) :
    s.inflight = s.ring.requests.length + (s.ring.ktail - s.ring.khead) ↔ s.silent = 0 := by
  have hcount := (reachable_inflight h).count
  have hhead := (reachable_ring h).head
  rw [hidle] at hhead
  simp only [Phase.done, Nat.add_zero] at hhead
  omega

section Inflight

/-- One coroutine awaits one operation. -/
def plainRun : List Label :=
  [.coSpawn, .runOnce false, .go, .user .asyncOperation, .user (.await 0), .go, .go, .finish 0 1 false false,
    .go, .user .ret, .go]

theorem inflight_accurate_plain : ∃ s, (machine smallConfig).Reach NoMultishot s ∧ s.phase = .idle ∧
    s.silent = 0 ∧ s.returned = [(0, 1)] ∧
    s.inflight = s.ring.requests.length + (s.ring.ktail - s.ring.khead) := by
  have hrun : ∃ s, ((machine smallConfig).restrict NoMultishot).run .start plainRun = some s ∧
      s.phase = .idle ∧ s.silent = 0 ∧ s.returned = [(0, 1)] := ⟨_, rfl, rfl, rfl, rfl⟩
  obtain ⟨s, hs, hidle, hsilent, hreturned⟩ := hrun
  have hreach := Machine.Reach.restrict (.start init_start) hs
  exact ⟨s, hreach, hidle, hsilent, hreturned, (inflight_accurate hreach hidle).mpr hsilent⟩

/-- One coroutine awaits a chain of two operations, and both succeed. -/
def linkRun : List Label :=
  [.coSpawn, .runOnce false, .go, .user (.link (.link false (.op .oneshot) (.op .oneshot)) []), .user (.await 2), .go,
    .go, .finish 0 1 false false, .finish 0 1 false false, .go, .user .ret, .go]

/-- The first request of a chain succeeds without a CQE and stays counted. -/
theorem inflight_not_accurate : ∃ s, (machine smallConfig).Reach NoMultishot s ∧ s.phase = .idle ∧
    s.ring.sq = [] ∧ s.ring.requests = [] ∧ s.ring.khead = s.ring.ktail ∧ s.inflight = 1 := by
  have hrun : ∃ s, ((machine smallConfig).restrict NoMultishot).run .start linkRun = some s ∧
      s.phase = .idle ∧ s.ring.sq = [] ∧ s.ring.requests = [] ∧ s.ring.khead = s.ring.ktail ∧
      s.inflight = 1 := ⟨_, rfl, rfl, rfl, rfl, rfl, rfl⟩
  obtain ⟨s, hs, hrest⟩ := hrun
  exact ⟨s, Machine.Reach.restrict (.start init_start) hs, hrest⟩

end Inflight

end IoUring.Coroutine
