import IoUring.Exec.OperationCore

/-!
# The stop callback of one operation

A callback exists only while the operation is on the ring of the local that it
was installed for. Between the SQE and the installation, and from the reset to
the completion or the restart, the thread of that local has the operation in
its hands.
-/

namespace IoUring.Exec.Operation

variable {O T S : Type*}

/-- The callback was called, by `request_stop` or by its own constructor. -/
def Callback.fired : Callback O → Bool
  | .running _ => true
  | .ran => true
  | _ => false

structure CallbackOk (cfg : Config O T S) (s : State O T S) (o : O) : Prop where
  live : s.callback o ≠ .none → (cfg.token o).isSome ∧ s.status o = .onRing (s.localScheduler o) ∧
    s.thread (s.localScheduler o) ≠ .install o
  fired : (s.callback o).fired = true → s.stopRequested cfg o = true
  reset : ∀ t res pass stage, s.thread t = .uninstall o res pass stage → stage ≠ .reset →
    s.callback o = .none
  token : ∀ t res pass stage, s.thread t = .uninstall o res pass stage → stage ≠ .deliver →
    (cfg.token o).isSome
  scheduler : ∀ t, s.status o = .onRing t → (cfg.token o).isSome →
    s.thread t = .install o ∨ s.localScheduler o = t
  silent : ∀ t, s.status o = .onRing t → s.callback o = .none → (cfg.token o).isSome →
    s.thread t = .install o ∨ ∃ res pass stage, s.thread t = .uninstall o res pass stage
  issued : ∀ t, s.status o = .onRing t → .request o ∈ s.issued t

variable {cfg : Config O T S} {s s' : State O T S} {t : T} {o : O}

theorem init_callbackOk (h : Init s) (o : O) : CallbackOk cfg s o := by
  obtain ⟨-, -, hstatus, hcallback, -, -, hthread, -⟩ := h
  constructor <;> simp_all [Callback.fired]

/-- An operation that the step does not touch. -/
theorem CallbackOk.frame (hk : CallbackOk cfg s o) (hstatus : s'.status o = s.status o)
    (hcallback : s'.callback o = s.callback o)
    (hlocal : s'.localScheduler o = s.localScheduler o)
    (hstop : s.stopRequested cfg o = true → s'.stopRequested cfg o = true)
    (hissued : ∀ t, .request o ∈ s.issued t → .request o ∈ s'.issued t)
    (hinst : ∀ t, s'.thread t = .install o ↔ s.thread t = .install o)
    (huninst : ∀ t res pass stage, s'.thread t = .uninstall o res pass stage ↔
      s.thread t = .uninstall o res pass stage) : CallbackOk cfg s' o where
  live := by simpa [hstatus, hcallback, hlocal, hinst] using hk.live
  fired := fun h => hstop (hk.fired (by simpa [hcallback] using h))
  reset := by simpa [hcallback, huninst] using hk.reset
  token := by simpa [huninst] using hk.token
  scheduler := by simpa [hstatus, hlocal, hinst] using hk.scheduler
  silent := by simpa [hstatus, hcallback, hinst, huninst] using hk.silent
  issued := fun t h => hissued t (hk.issued t (by simpa [hstatus] using h))

theorem stopRequested_mono [DecidableEq S] {src : S} (h : s.stopRequested cfg o = true) :
    ({ s with stopSource := Function.update s.stopSource src true } :
      State O T S).stopRequested cfg o = true := by
  simp only [State.stopRequested] at h ⊢
  cases htok : cfg.token o with
  | none => simp [htok] at h
  | some src' =>
      simp only [htok] at h ⊢
      by_cases hs : src' = src <;> simp [hs, h]

variable [DecidableEq O] [DecidableEq T]

/-- The operation that an entry of the thread's program concerns. -/
def ThreadPc.subject : ThreadPc O → Option O
  | .install o => some o
  | .uninstall o _ _ _ => some o
  | _ => none

omit [DecidableEq O] in
/-- A step in which thread `t` deals with operation `o` and with no other. -/
theorem CallbackOk.other (hk : CallbackOk cfg s o) (t : T)
    (hthread : ∀ t', t' ≠ t → s'.thread t' = s.thread t')
    (hstatus : s'.status o = s.status o) (hcallback : s'.callback o = s.callback o)
    (hlocal : s'.localScheduler o = s.localScheduler o) (hstop : s'.stopSource = s.stopSource)
    (hissued : ∀ t, .request o ∈ s.issued t → .request o ∈ s'.issued t)
    (hold : (s.thread t).subject ≠ some o) (hnew : (s'.thread t).subject ≠ some o) :
    CallbackOk cfg s' o := by
  have hpc (t' : T) (pc : ThreadPc O) (hpc : pc.subject = some o) :
      s'.thread t' = pc ↔ s.thread t' = pc := by
    by_cases ht : t' = t
    · subst ht
      exact ⟨fun h => absurd (h ▸ hpc) hnew, fun h => absurd (h ▸ hpc) hold⟩
    · rw [hthread t' ht]
  exact hk.frame hstatus hcallback hlocal (by simp [State.stopRequested, hstop]) hissued
    (fun t' => hpc t' _ rfl) fun t' _ _ _ => hpc t' _ rfl

omit [DecidableEq T] in
/-- An operation that is on no ring has no callback. -/
theorem CallbackOk.callback_none (hk : CallbackOk cfg s o) (hst : ∀ t, s.status o ≠ .onRing t) :
    s.callback o = .none := by
  by_contra hne
  exact hst _ (hk.live hne).2.1

theorem CallbackOk.away (hc : Core s) (hcallback : s.callback o = .none)
    (hst : ∀ t, s.status o ≠ .onRing t) : CallbackOk cfg s o where
  live := fun h => absurd hcallback h
  fired := fun h => by simp [hcallback, Callback.fired] at h
  reset := fun _ _ _ _ _ _ => hcallback
  token := fun t _ _ _ h _ => absurd (hc.status_of_uninstall h) (hst t)
  scheduler := fun t h => absurd h (hst t)
  silent := fun t h => absurd h (hst t)
  issued := fun t h => absurd h (hst t)

/-- Operation `o` leaves for a status other than `onRing`, by a step of thread `t`. -/
theorem CallbackOk.depart {o' : O} (hk : CallbackOk cfg s o') (hc : Core s') (t : T) (o : O)
    (hcallback : s.callback o = .none) (hst : ∀ t, s'.status o ≠ .onRing t)
    (hthread : ∀ t', t' ≠ t → s'.thread t' = s.thread t')
    (hstatus : ∀ o', o' ≠ o → s'.status o' = s.status o')
    (hold : ∀ o', (s.thread t).subject = some o' → o' = o) (hnew : (s'.thread t).subject = none)
    (hcallbacks : s'.callback = s.callback) (hlocal : s'.localScheduler = s.localScheduler)
    (hstop : s'.stopSource = s.stopSource) (hissued : s'.issued = s.issued) :
    CallbackOk cfg s' o' := by
  by_cases ho : o' = o
  · subst ho
    exact .away hc (hcallbacks ▸ hcallback) hst
  · exact hk.other t hthread (hstatus o' ho) (by rw [hcallbacks]) (by rw [hlocal]) hstop
      (by simp [hissued]) (fun h => ho (hold o' h)) (by simp [hnew])

/-- A stage of the uninstallation after the reset. -/
theorem CallbackOk.setUninstall (hk : CallbackOk cfg s o) {o' : O} {res : Int} {pass : Pass}
    {stage stage' : Uninstall O} {h : Heap O (T × Bucket)}
    (hpc : s.thread t = .uninstall o' res pass stage) (hreset : stage ≠ .reset)
    (hdeliver : stage ≠ .deliver) :
    CallbackOk cfg ({ s with heap := h }.setThread t (.uninstall o' res pass stage')) o := by
  by_cases ho : o = o'
  · subst ho
    have hcb := hk.reset t res pass stage hpc hreset
    have htok := hk.token t res pass stage hpc hdeliver
    have hself : (s.setThread t (.uninstall o res pass stage')).thread t =
        .uninstall o res pass stage' := by simp [State.setThread]
    exact { hk with
      live := fun h => absurd hcb h
      reset := fun _ _ _ _ _ _ => hcb
      token := fun _ _ _ _ _ _ => htok
      scheduler := by
        intro t' hst htok'
        rcases hk.scheduler t' hst htok' with h | h
        · have hne : t' ≠ t := by
            rintro rfl
            simp [hpc] at h
          exact .inl (by simpa [State.setThread, hne] using h)
        · exact .inr h
      silent := by
        intro t' hst hcb' htok'
        by_cases ht : t' = t
        · subst ht; exact .inr ⟨_, _, _, hself⟩
        · simpa [State.setThread, ht] using hk.silent t' hst hcb' htok' }
  · exact hk.other t (fun t' ht => by simp [State.setThread, ht]) rfl rfl rfl rfl (fun _ h => h)
      (by simp [hpc, ThreadPc.subject, Ne.symm ho])
      (by simp [State.setThread, ThreadPc.subject, Ne.symm ho])

omit [DecidableEq O] in
/-- A thread moves between two points at which it deals with no operation. -/
theorem CallbackOk.setIdle (hk : CallbackOk cfg s o) {pc : ThreadPc O} {h : Heap O (T × Bucket)}
    (hold : (s.thread t).subject = none) (hnew : pc.subject = none) :
    CallbackOk cfg ({ s with heap := h }.setThread t pc) o :=
  hk.other t (fun t' ht => by simp [State.setThread, ht]) rfl rfl rfl rfl (fun _ h => h)
    (by simp [hold]) (by simp [State.setThread, hnew])

theorem CallbackOk.install (hk : CallbackOk cfg s o) (hc : Core s) {src : S}
    (hpc : s.thread t = .install o) (htok : cfg.token o = some src) :
    CallbackOk cfg ({ s with
      localScheduler := Function.update s.localScheduler o t
      callback := Function.update s.callback o
        (if s.stopSource src then .running .load else .registered) }.setThread t .idle) o := by
  have hst := hc.installing t o hpc
  have hun (t' : T) (res : Int) (pass : Pass) (stage : Uninstall O)
      (h : Function.update s.thread t .idle t' = .uninstall o res pass stage) : False := by
    have ht : t' ≠ t := by
      rintro rfl
      simp at h
    have hst' := hc.status_of_uninstall (by simpa [ht] using h)
    rw [hst] at hst'
    exact ht (Status.onRing.inj hst').symm
  exact {
    live := by simp [State.setThread, htok, hst]
    fired := by
      intro h
      by_cases hs : s.stopSource src
      · simpa [State.setThread, State.stopRequested, htok] using hs
      · simp [State.setThread, hs, Callback.fired] at h
    reset := fun t' res pass stage h => (hun t' res pass stage h).elim
    token := fun t' res pass stage h => (hun t' res pass stage h).elim
    scheduler := by
      intro t' h _
      refine .inr ?_
      have heq : Status.onRing t = .onRing t' := hst.symm.trans h
      simpa [State.setThread] using heq
    silent := by
      intro t' _ h
      by_cases hs : s.stopSource src <;> simp [State.setThread, hs] at h
    issued := hk.issued }

omit [DecidableEq O] in
/-- An operation whose token is unstoppable gets no callback. -/
theorem CallbackOk.installNothing (hk : CallbackOk cfg s o) (htok : cfg.token o = none) :
    CallbackOk cfg (s.setThread t .idle) o := by
  have hun (t' : T) (res : Int) (pass : Pass) (stage : Uninstall O)
      (h : Function.update s.thread t .idle t' = .uninstall o res pass stage) :
      s.thread t' = .uninstall o res pass stage := by
    by_cases ht : t' = t
    · subst ht; simp at h
    · simpa [ht] using h
  exact {
    live := fun h => by simpa [htok] using (hk.live h).1
    fired := hk.fired
    reset := fun t' res pass stage h => hk.reset t' res pass stage (hun t' res pass stage h)
    token := fun t' res pass stage h => hk.token t' res pass stage (hun t' res pass stage h)
    scheduler := by simp [htok]
    silent := by simp [htok]
    issued := hk.issued }

/-- `stop_callback.reset()` returns. -/
theorem CallbackOk.resetDone (hk : CallbackOk cfg s o) (hc : Core s) {res : Int} {pass : Pass}
    (hpc : s.thread t = .uninstall o res pass .reset) :
    CallbackOk cfg ({ s with
      callback := Function.update s.callback o .none }.setThread t
        (.uninstall o res pass (.moveAll .load))) o := by
  have htok := hk.token t res pass .reset hpc (by simp)
  have hst := hc.status_of_uninstall hpc
  exact {
    live := by simp [State.setThread]
    fired := by simp [State.setThread, Callback.fired]
    reset := by simp [State.setThread]
    token := fun _ _ _ _ _ _ => htok
    scheduler := by
      intro t' h htok'
      have ht : t' = t := (Status.onRing.inj (hst.symm.trans h)).symm
      subst ht
      refine .inr ?_
      have hor := hk.scheduler t' hst htok'
      simpa [hpc, State.setThread] using hor
    silent := by
      intro t' h _ _
      have ht : t' = t := (Status.onRing.inj (hst.symm.trans h)).symm
      subst ht
      exact .inr ⟨res, pass, .moveAll .load, by simp [State.setThread]⟩
    issued := hk.issued }

omit [DecidableEq T] in
/-- A callback that exists goes on, by a step of its own thread. -/
theorem CallbackOk.callback (hk : CallbackOk cfg s o) {h : Heap O (T × Bucket)} {cb : Callback O}
    (hcb : s.callback o ≠ .none) (hnew : cb ≠ .none) (hstop : s.stopRequested cfg o = true) :
    CallbackOk cfg { s with heap := h, callback := Function.update s.callback o cb } o where
  live := by simpa [hnew] using hk.live hcb
  fired := fun _ => hstop
  reset := fun t res pass stage h hne => absurd (hk.reset t res pass stage h hne) hcb
  token := hk.token
  scheduler := hk.scheduler
  silent := by simp [hnew]
  issued := hk.issued

omit [DecidableEq O] in
theorem mem_issued_cons {e e' : Sqe O} {t t' : T} (h : e ∈ s.issued t') :
    e ∈ Function.update s.issued t (e' :: s.issued t) t' := by
  by_cases ht : t' = t
  · subst ht; simp [h]
  · simpa [ht] using h

theorem CallbackOk.takeSqe (hk : CallbackOk cfg s o) (hc : Core s) {r : Ring O}
    (hst : ∀ t, s.status o ≠ .onRing t) :
    CallbackOk cfg ({ s.issue t r (.request o) with
      status := Function.update s.status o (.onRing t) }.setThread t (.install o)) o := by
  have hcb := hk.callback_none hst
  have hun (t' : T) (res : Int) (pass : Pass) (stage : Uninstall O) :
      Function.update s.thread t (.install o) t' ≠ .uninstall o res pass stage := by
    by_cases ht : t' = t
    · subst ht; simp
    · simpa [ht] using fun h => hst t' (hc.status_of_uninstall h)
  have hself (t' : T) (h : Function.update s.status o (.onRing t) o = .onRing t') : t' = t := by
    simpa [eq_comm] using h
  exact {
    live := fun h => absurd hcb h
    fired := fun h => by simp [State.setThread, State.issue, hcb, Callback.fired] at h
    reset := fun t' res pass stage h => absurd h (hun t' res pass stage)
    token := fun t' res pass stage h => absurd h (hun t' res pass stage)
    scheduler := fun t' h _ => .inl (by simp [State.setThread, hself t' h])
    silent := fun t' h _ _ => .inl (by simp [State.setThread, hself t' h])
    issued := fun t' h => by simp [State.setThread, State.issue, hself t' h] }

/-- The thread of the ring begins to deal with the CQE of the operation. -/
theorem CallbackOk.takeCqe (hk : CallbackOk cfg s o) (hc : Core s) {res : Int} {pass : Pass}
    (hpc : s.thread t = .idle) (hst : s.status o = .onRing t) :
    CallbackOk cfg (s.setThread t (.uninstall o res pass
      (if (cfg.token o).isSome then .reset else .deliver))) o := by
  have hcb (htok : ¬ (cfg.token o).isSome) : s.callback o = .none := by
    by_contra hne
    exact htok (hk.live hne).1
  have hself (t' : T) (h : s.status o = .onRing t') : t' = t :=
    (Status.onRing.inj (hst.symm.trans h)).symm
  have hun (t' : T) (res' : Int) (pass' : Pass) (stage : Uninstall O)
      (h : Function.update s.thread t (.uninstall o res pass
        (if (cfg.token o).isSome then .reset else .deliver)) t' = .uninstall o res' pass' stage) :
      stage = if (cfg.token o).isSome then .reset else .deliver := by
    by_cases ht : t' = t
    · subst ht
      simp only [Function.update_self, ThreadPc.uninstall.injEq] at h
      exact h.2.2.2.symm
    · exact absurd (hself t' (hc.status_of_uninstall (by simpa [ht] using h))) ht
  exact {
    live := by
      intro hne
      obtain ⟨htok, hst', hinst⟩ := hk.live hne
      exact ⟨htok, hst', by simp [State.setThread, hself _ hst']⟩
    fired := hk.fired
    reset := by
      intro t' res' pass' stage h hne
      apply hcb
      intro htok
      exact hne (by simpa [htok] using hun t' res' pass' stage h)
    token := by
      intro t' res' pass' stage h hne
      by_contra htok
      exact hne (by simpa [htok] using hun t' res' pass' stage h)
    scheduler := by
      intro t' h htok
      obtain rfl := hself t' h
      exact .inr (by simpa [hpc, State.setThread] using hk.scheduler t' h htok)
    silent := by
      intro t' h _ _
      obtain rfl := hself t' h
      exact .inr ⟨res, pass, if (cfg.token o).isSome then .reset else .deliver,
        by simp [State.setThread]⟩
    issued := hk.issued }

variable [DecidableEq S]

theorem step_callbackOk {a : Label O T S} (hk : ∀ o, CallbackOk cfg s o) (hc : Core s)
    (h : Step cfg s a s') (o' : O) : CallbackOk cfg s' o' := by
  have hc' := step_core hc h
  have hk' := hk o'
  cases h with
  | @start t o hpc hopen hst =>
      refine hk'.depart hc' t o ((hk o).callback_none (by simp [hst])) (by simp [State.enterStart])
        (fun t' ht => by simp [State.enterStart, ht]) (fun o' ho => by simp [State.enterStart, ho])
        (by simp [hpc, ThreadPc.subject]) (by simp [State.enterStart, ThreadPc.subject]) rfl rfl rfl rfl
  | @testStopped t o c hpc hstop =>
      have hst := hc.status_of_holds hpc rfl
      exact hk'.depart hc' t o ((hk o).callback_none (by simp [hst]))
        (by simp [State.setThread, State.signal]) (fun t' ht => by simp [State.setThread, State.signal, ht])
        (fun o' ho => by simp [State.setThread, State.signal, ho]) (by simp [hpc, ThreadPc.subject])
        (by simp [State.setThread, ThreadPc.subject]) rfl rfl rfl rfl
  | @testPassed t o c hpc hstop => exact hk'.setIdle (by rw [hpc]; rfl) rfl
  | @sqe t o c r hpc hr =>
      have hst := hc.status_of_holds hpc rfl
      by_cases ho : o' = o
      · subst ho
        exact hk'.takeSqe hc (by simp [hst])
      · refine hk'.other t (fun t' ht => by simp [State.setThread, State.issue, ht])
          (by simp [State.setThread, ho]) rfl rfl rfl ?_ (by simp [hpc, ThreadPc.subject])
          (by simp [State.setThread, ThreadPc.subject, Ne.symm ho])
        exact fun t' h => mem_issued_cons h
  | @full t o c hpc hr => exact hk'.setIdle (by rw [hpc]; rfl) rfl
  | @installNothing t o c hpc htok =>
      by_cases ho : o' = o
      · subst ho
        exact hk'.installNothing htok
      · exact hk'.other t (fun t' ht => by simp [State.setThread, ht]) rfl rfl rfl rfl (fun _ h => h)
          (by simp [hpc, ThreadPc.subject, Ne.symm ho]) (by simp [State.setThread, ThreadPc.subject])
  | @install t o c src hpc htok =>
      by_cases ho : o' = o
      · subst ho
        exact hk'.install hc hpc htok
      · exact hk'.other t (fun t' ht => by simp [State.setThread, ht]) rfl
          (by simp [State.setThread, ho]) (by simp [State.setThread, ho]) rfl (fun _ h => h)
          (by simp [hpc, ThreadPc.subject, Ne.symm ho]) (by simp [State.setThread, ThreadPc.subject])
  | @spawnThrows t o hpc =>
      have hst := hc.status_of_holds hpc rfl
      exact hk'.depart hc' t o ((hk o).callback_none (by simp [hst]))
        (by simp [State.setThread, State.signal]) (fun t' ht => by simp [State.setThread, State.signal, ht])
        (fun o' ho => by simp [State.setThread, State.signal, ho]) (by simp [hpc, ThreadPc.subject])
        (by simp [State.setThread, ThreadPc.subject]) rfl rfl rfl rfl
  | @spawn t o hpc =>
      have hst := hc.status_of_holds hpc rfl
      exact hk'.depart hc' t o ((hk o).callback_none (by simp [hst])) (by simp [State.setThread])
        (fun t' ht => by simp [State.setThread, ht]) (fun o' ho => by simp [State.setThread, ho])
        (by simp [hpc, ThreadPc.subject]) (by simp [State.setThread, ThreadPc.subject]) rfl rfl rfl rfl
  | @reset t o res pass c hpc hcb =>
      by_cases ho : o' = o
      · subst ho
        exact hk'.resetDone hc hpc
      · exact hk'.other t (fun t' ht => by simp [State.setThread, ht]) rfl
          (by simp [State.setThread, ho]) rfl rfl (fun _ h => h)
          (by simp [hpc, ThreadPc.subject, Ne.symm ho])
          (by simp [State.setThread, ThreadPc.subject, Ne.symm ho])
  | @moveAll t o res pass c pc pc' h hpc hm => exact hk'.setUninstall hpc (by simp) (by simp)
  | @movedNothing t o res pass c pc h hpc hm => exact hk'.setUninstall hpc (by simp) (by simp)
  | @moved t o res pass c pc op h hpc hm => exact hk'.setUninstall hpc (by simp) (by simp)
  | @before t o res pass c first pc pc' h hpc hm => exact hk'.setUninstall hpc (by simp) (by simp)
  | @beforeDone t o res pass c first pc u h hpc hm =>
      exact hk'.setUninstall hpc (by simp) (by simp)
  | @next t o res pass c hpc => exact hk'.setUninstall hpc (by simp) (by simp)
  | @after t o res pass c first pc pc' h hpc hm => exact hk'.setUninstall hpc (by simp) (by simp)
  | @afterDone t o res pass c first pc u h hpc hm =>
      exact hk'.setUninstall hpc (by simp) (by simp)
  | @restart t o res pass c hpc hd =>
      have hcb := (hk o).reset t res pass .deliver hpc (by simp)
      exact hk'.depart hc' t o hcb (by simp [State.setThread])
        (fun t' ht => by simp [State.setThread, ht]) (fun o' ho => by simp [State.setThread, ho])
        (by simp [hpc, ThreadPc.subject, eq_comm]) (by simp [State.setThread, ThreadPc.subject])
        rfl rfl rfl rfl
  | @complete t o res pass c sig hpc hd =>
      have hcb := (hk o).reset t res pass .deliver hpc (by simp)
      exact hk'.depart hc' t o hcb (by simp [State.setThread, State.signal])
        (fun t' ht => by simp [State.setThread, State.signal, ht])
        (fun o' ho => by simp [State.setThread, State.signal, ho])
        (by simp [hpc, ThreadPc.subject, eq_comm]) (by simp [State.setThread, ThreadPc.subject])
        rfl rfl rfl rfl
  | @sweepMove t b c pc pc' h hpc hm => exact hk'.setIdle (by rw [hpc]; rfl) rfl
  | @sweepMoved t b c pc op h hpc hm => exact hk'.setIdle (by rw [hpc]; rfl) rfl
  | @sweepEnd t b c hpc => exact hk'.setIdle (by rw [hpc]; rfl) rfl
  | @sweepCancel t b c op r hpc hr =>
      refine hk'.other t (fun t' ht => by simp [State.setThread, State.issue, ht]) rfl rfl rfl rfl
        (fun t' h => mem_issued_cons h) (by simp [hpc, ThreadPc.subject])
        (by simp [State.setThread, ThreadPc.subject])
  | @sweepFull t b c op hpc hr => exact hk'.setIdle (by rw [hpc]; rfl) rfl
  | @sweepBack t b c first pc pc' h hpc hm => exact hk'.setIdle (by rw [hpc]; rfl) rfl
  | @sweepBackDone t b c first pc u h hpc hm => exact hk'.setIdle (by rw [hpc]; rfl) rfl
  | @launch t o hpc hopen hst hscope =>
      exact hk'.depart hc' t o ((hk o).callback_none (by simp [hst])) (by simp [State.enterStart])
        (fun t' ht => by simp [State.enterStart, State.finishTask, ht])
        (fun o' ho => by simp [State.enterStart, State.finishTask, ho])
        (by simp [hpc, ThreadPc.subject]) (by simp [State.enterStart, ThreadPc.subject]) rfl rfl rfl rfl
  | @launchStopped t o hpc hopen hst hscope =>
      exact hk'.depart hc' t o ((hk o).callback_none (by simp [hst])) (by simp)
        (fun _ _ => rfl) (fun o' ho => by simp [ho])
        (by simp [hpc, ThreadPc.subject]) (by simp [State.finishTask, hpc, ThreadPc.subject])
        rfl rfl rfl rfl
  | @cancelTask t o hpc hopen hst =>
      exact hk'.depart hc' t o ((hk o).callback_none (by simp [hst])) (by simp)
        (fun _ _ => rfl) (fun o' ho => by simp [ho])
        (by simp [hpc, ThreadPc.subject]) (by simp [State.finishTask, hpc, ThreadPc.subject])
        rfl rfl rfl rfl
  | @requestStop src =>
      exact hk'.frame rfl rfl rfl stopRequested_mono (fun _ h => h) (fun _ => Iff.rfl)
        fun _ _ _ _ => Iff.rfl
  | stopScope => exact { hk' with }
  | @fire o hcb hstop =>
      by_cases ho : o' = o
      · subst ho
        exact hk'.callback (h := s.heap) (by simp [hcb]) (by simp) hstop
      · exact hk'.frame rfl (by simp [ho]) rfl (fun h => h) (fun _ h => h) (fun _ => Iff.rfl)
          fun _ _ _ _ => Iff.rfl
  | @push o c pc pc' h hcb hm =>
      have hstop := (hk o).fired (by simp [hcb, Callback.fired])
      by_cases ho : o' = o
      · subst ho
        exact hk'.callback (by simp [hcb]) (by simp) hstop
      · exact hk'.frame rfl (by simp [ho]) rfl (fun h => h) (fun _ h => h) (fun _ => Iff.rfl)
          fun _ _ _ _ => Iff.rfl
  | @pushed o c pc u h hcb hm =>
      have hstop := (hk o).fired (by simp [hcb, Callback.fired])
      by_cases ho : o' = o
      · subst ho
        exact hk'.callback (by simp [hcb]) (by simp) hstop
      · exact hk'.frame rfl (by simp [ho]) rfl (fun h => h) (fun _ h => h) (fun _ => Iff.rfl)
          fun _ _ _ _ => Iff.rfl
  | @submit t n hpc hopen => exact { hk' with }
  | @cancelAny t r hpc hopen hr =>
      exact hk'.frame rfl rfl rfl (fun h => h) (fun t' h => mem_issued_cons h) (fun _ => Iff.rfl)
        fun _ _ _ _ => Iff.rfl
  | @post t i res e r hr => exact { hk' with }
  | @consumeNoop t pass res l hpc hopen hcq => exact { hk' with }
  | @consume t pass o res l hpc hopen hcq =>
      by_cases ho : o' = o
      · subst ho
        exact hk'.takeCqe hc hpc (hc.status_of_cqe (c := ⟨some o', res⟩) (by simp [hcq]) rfl)
      · exact hk'.other t (fun t' ht => by simp [State.setThread, ht]) rfl rfl rfl rfl (fun _ h => h)
          (by simp [hpc, ThreadPc.subject]) (by simp [State.setThread, ThreadPc.subject, Ne.symm ho])
  | @sweep t b hpc hopen => exact hk'.setIdle (by rw [hpc]; rfl) rfl
  | @close t hpc hopen => exact { hk' with }

theorem reachable_callbackOk (h : (machine cfg).Reachable s) (o : O) : CallbackOk cfg s o := by
  refine h.invariant (fun s => ∀ o, CallbackOk cfg s o) (fun _ => init_callbackOk) ?_ o
  intro s a s' hr hk _ hs
  exact step_callbackOk hk (reachable_core hr) (.of_step hs)

end IoUring.Exec.Operation
