import IoUring.Exec.OperationStep

/-!
# One completion, one SQE and one restart task at a time

The part of the invariant that does not look at links: which thread holds an
operation, that an operation is on the ring of its local exactly while its
status says so, and how its restart tasks account for the calls of `start()`.
-/

namespace IoUring.Exec.Operation

variable {O T S : Type*}

/-- The operation in the hands of a thread that has no SQE for it. -/
def ThreadPc.holds : ThreadPc O → Option O
  | .test o => some o
  | .getSqe o => some o
  | .spawn o => some o
  | _ => none

/-- Every restart task but the newest was launched, and each launch is one more
call of `start()` after the first. -/
def TasksOk (tasks : List Fate) (starts : Nat) : Status T → Prop
  | .fresh => starts = 0 ∧ tasks = []
  | .busy _ => ∃ k, starts = k + 1 ∧ tasks = List.replicate k .launched
  | .onRing _ => ∃ k, starts = k + 1 ∧ tasks = List.replicate k .launched
  | .waiting => ∃ k, starts = k + 1 ∧ tasks = List.replicate k .launched ++ [.pending]
  | .dropped => ∃ k, starts = k + 1 ∧ (tasks = List.replicate k .launched ++ [.stopped] ∨
      tasks = List.replicate k .launched ++ [.cancelled])
  | .completed => ∃ k, starts = k + 1 ∧ (tasks = List.replicate k .launched ∨
      tasks = List.replicate k .launched ++ [.unspawned])

variable [DecidableEq O] [DecidableEq T]

structure Core (s : State O T S) : Prop where
  busy : ∀ t o, (s.thread t).holds = some o ↔ s.status o = .busy t
  installing : ∀ t o, s.thread t = .install o → s.status o = .onRing t
  consuming : ∀ t o res pass stage, s.thread t = .uninstall o res pass stage →
    (s.ring t).cq.head? = some ⟨some o, res⟩
  tokens : ∀ t o, (s.ring t).tokens o = if s.status o = .onRing t then 1 else 0
  signals : ∀ o, (s.signals o).length = if s.status o = .completed then 1 else 0
  tasks : ∀ o, TasksOk (s.tasks o) (s.starts o) (s.status o)

variable {cfg : Config O T S} {s s' : State O T S} {t : T} {o : O}

theorem init_core (h : Init s) : Core s := by
  obtain ⟨-, -, hstatus, -, hring, -, hthread, -, hstarts, hsignals, htasks, -⟩ := h
  constructor <;> simp_all [ThreadPc.holds, TasksOk]

namespace Core

theorem status_of_token (hc : Core s) (h : 0 < (s.ring t).tokens o) : s.status o = .onRing t := by
  rw [hc.tokens t o] at h
  by_contra hne
  simp [hne] at h

theorem status_of_holds (hc : Core s) {pc : ThreadPc O} (h : s.thread t = pc)
    (hold : pc.holds = some o) : s.status o = .busy t := by
  subst h
  exact (hc.busy t o).mp hold

theorem tokens_of_busy (hc : Core s) (h : s.status o = .busy t) : (s.ring t).tokens o = 0 := by
  simpa [h] using hc.tokens t o

theorem tokens_of_onRing (hc : Core s) (h : s.status o = .onRing t) : (s.ring t).tokens o = 1 := by
  simpa [h] using hc.tokens t o

theorem status_of_cqe (hc : Core s) {c : Cqe O} (hmem : c ∈ (s.ring t).cq)
    (hdata : c.data = some o) : s.status o = .onRing t := by
  apply hc.status_of_token
  have : some o ∈ (s.ring t).cq.map Cqe.data := List.mem_map.mpr ⟨c, hmem, hdata⟩
  have := List.count_pos_iff.mpr this
  simp only [Ring.tokens]
  omega

theorem status_of_uninstall (hc : Core s) {res : Int} {pass : Pass} {stage : Uninstall O}
    (h : s.thread t = .uninstall o res pass stage) : s.status o = .onRing t := by
  have hhead := hc.consuming t o res pass stage h
  exact hc.status_of_cqe (List.mem_of_mem_head? hhead) rfl

/-- A step of a thread that holds no operation before or after it. -/
theorem setThread (hc : Core s) {pc : ThreadPc O} (hold : (s.thread t).holds = none)
    (hnew : pc.holds = none) (hinst : ∀ o, pc = .install o → s.status o = .onRing t)
    (hcq : ∀ o res pass stage, pc = .uninstall o res pass stage →
      (s.ring t).cq.head? = some ⟨some o, res⟩) : Core (s.setThread t pc) := by
  exact { hc with
    busy := by
      intro t' o
      by_cases h : t' = t
      · subst h; simpa [State.setThread, hnew, hold] using hc.busy t' o
      · simpa [State.setThread, h] using hc.busy t' o
    installing := by
      intro t' o
      by_cases h : t' = t
      · subst h; simpa [State.setThread] using hinst o
      · simpa [State.setThread, h] using hc.installing t' o
    consuming := by
      intro t' o res pass stage
      by_cases h : t' = t
      · subst h; simpa [State.setThread] using hcq o res pass stage
      · simpa [State.setThread, h] using hc.consuming t' o res pass stage }

/-- Inside `uninstall_stoppable_callback` the CQE at the head stays the same. -/
theorem setUninstall (hc : Core s) {res : Int} {pass : Pass} {stage stage' : Uninstall O}
    (h : s.thread t = .uninstall o res pass stage) :
    Core (s.setThread t (.uninstall o res pass stage')) := by
  apply hc.setThread (by simp [h, ThreadPc.holds]) rfl (by simp)
  intro o' res' pass' stage'' heq
  obtain ⟨rfl, rfl, rfl, -⟩ : o = o' ∧ res = res' ∧ pass = pass' ∧ stage' = stage'' := by
    simpa using heq
  exact hc.consuming t o res pass stage h

/-- Links and callbacks play no part here. -/
theorem links (hc : Core s) (h : Heap O (T × Bucket)) (cb : O → Callback O) :
    Core { s with heap := h, callback := cb } :=
  { hc with }

/-- Thread `t` changes what it does with operation `o`, which no other thread
has a hand on before or after. -/
theorem change (hc : Core s) (t : T) (o : O)
    (hthread : ∀ t', t' ≠ t → s'.thread t' = s.thread t')
    (hring : ∀ t', t' ≠ t → s'.ring t' = s.ring t')
    (hother : ∀ o', o' ≠ o → s'.status o' = s.status o' ∧ s'.signals o' = s.signals o' ∧
      s'.starts o' = s.starts o' ∧ s'.tasks o' = s.tasks o')
    (hold : ∀ o', (s.thread t).holds = some o' → o' = o)
    (hnew : ∀ o', (s'.thread t).holds = some o' → o' = o)
    (hfree : ∀ t', t' ≠ t → s.status o ≠ .busy t' ∧ s.status o ≠ .onRing t' ∧
      s'.status o ≠ .busy t' ∧ s'.status o ≠ .onRing t')
    (hbusy : (s'.thread t).holds = some o ↔ s'.status o = .busy t)
    (hinst : ∀ o', s'.thread t = .install o' → s'.status o' = .onRing t)
    (hcons : ∀ o' res pass stage, s'.thread t ≠ .uninstall o' res pass stage)
    (htokens : ∀ o', (s'.ring t).tokens o' = if s'.status o' = .onRing t then 1 else 0)
    (hsignals : (s'.signals o).length = if s'.status o = .completed then 1 else 0)
    (htasks : TasksOk (s'.tasks o) (s'.starts o) (s'.status o)) : Core s' where
  busy := by
    intro t' o'
    have h := hc.busy t' o'
    have hst := hother o'
    by_cases ht : t' = t
    · subst ht
      by_cases ho : o' = o
      · subst ho; exact hbusy
      · have hn := hnew o'
        have hl := hold o'
        grind
    · rw [hthread t' ht]
      have hf := hfree t' ht
      grind
  installing := by
    intro t' o' hpc
    by_cases ht : t' = t
    · subst ht; exact hinst o' hpc
    · rw [hthread t' ht] at hpc
      have h := hc.installing t' o' hpc
      have hf := hfree t' ht
      have hst := hother o'
      grind
  consuming := by
    intro t' o' res pass stage hpc
    by_cases ht : t' = t
    · subst ht; exact absurd hpc (hcons o' res pass stage)
    · rw [hthread t' ht] at hpc
      rw [hring t' ht]
      exact hc.consuming t' o' res pass stage hpc
  tokens := by
    intro t' o'
    by_cases ht : t' = t
    · subst ht; exact htokens o'
    · rw [hring t' ht, hc.tokens t' o']
      have hf := hfree t' ht
      have hst := hother o'
      grind
  signals := by
    intro o'
    by_cases ho : o' = o
    · subst ho; exact hsignals
    · obtain ⟨hst, hsig, -, -⟩ := hother o' ho
      rw [hst, hsig]
      exact hc.signals o'
  tasks := by
    intro o'
    by_cases ho : o' = o
    · subst ho; exact htasks
    · obtain ⟨hst, -, hstarts, hts⟩ := hother o' ho
      rw [hst, hstarts, hts]
      exact hc.tasks o'

/-- The thread that holds an operation moves on to another point where it holds it. -/
theorem setHolder (hc : Core s) {pc : ThreadPc O} (hold : (s.thread t).holds = some o)
    (hnew : pc.holds = some o) (hinst : ∀ o, pc ≠ .install o)
    (hcons : ∀ o res pass stage, pc ≠ .uninstall o res pass stage) : Core (s.setThread t pc) := by
  exact { hc with
    busy := by
      intro t' o'
      by_cases h : t' = t
      · subst h; simpa [State.setThread, hnew, hold] using hc.busy t' o'
      · simpa [State.setThread, h] using hc.busy t' o'
    installing := by
      intro t' o' hpc
      by_cases h : t' = t
      · subst h; exact absurd hpc (by simpa [State.setThread] using hinst o')
      · exact hc.installing t' o' (by simpa [State.setThread, h] using hpc)
    consuming := by
      intro t' o' res pass stage hpc
      by_cases h : t' = t
      · subst h; exact absurd hpc (by simpa [State.setThread] using hcons o' res pass stage)
      · exact hc.consuming t' o' res pass stage (by simpa [State.setThread, h] using hpc) }

/-- The ring changes without losing an entry of an operation or the head of the CQ. -/
theorem setRing (hc : Core s) {t : T} {r : Ring O} {issued : T → List (Sqe O)}
    {effects : O → List Int} (htokens : ∀ o, r.tokens o = (s.ring t).tokens o)
    (hcq : ∀ c, (s.ring t).cq.head? = some c → r.cq.head? = some c) :
    Core { s with ring := Function.update s.ring t r, issued := issued, effects := effects } := by
  exact { hc with
    consuming := by
      intro t' o' res pass stage hpc
      have h := hc.consuming t' o' res pass stage hpc
      by_cases ht : t' = t
      · subst ht; simpa using hcq _ h
      · simpa [ht] using h
    tokens := by
      intro t' o'
      by_cases ht : t' = t
      · subst ht; simpa [htokens] using hc.tokens t' o'
      · simpa [ht] using hc.tokens t' o' }

theorem enterStart (hc : Core s) {t : T} {o : O} {tasks : O → List Fate}
    (hpc : s.thread t = .idle) (hst : s.status o = .fresh ∨ s.status o = .waiting)
    (hother : ∀ o', o' ≠ o → tasks o' = s.tasks o')
    (htasks : tasks o = List.replicate (s.starts o) .launched) :
    Core ({ s with tasks := tasks }.enterStart t o) := by
  refine hc.change t o ?_ (fun _ _ => rfl) ?_ ?_ ?_ ?_ ?_ ?_ ?_ ?_ ?_ ?_
  · intro t' ht
    simp [State.enterStart, ht]
  · intro o' ho
    simp [State.enterStart, ho, hother o' ho]
  · simp [hpc, ThreadPc.holds]
  · intro o' h
    simpa [State.enterStart, ThreadPc.holds, eq_comm] using h
  · intro t' ht
    rcases hst with hst | hst <;> simp [State.enterStart, hst, Ne.symm ht]
  · simp [State.enterStart, ThreadPc.holds]
  · simp [State.enterStart]
  · simp [State.enterStart]
  · intro o'
    have htok := hc.tokens t o'
    by_cases ho : o' = o
    · subst ho
      rcases hst with hst | hst <;> simpa [State.enterStart, hst] using htok
    · simpa [State.enterStart, ho] using htok
  · have hsig := hc.signals o
    rcases hst with hst | hst <;> simpa [State.enterStart, hst] using hsig
  · simpa [State.enterStart, TasksOk] using htasks

/-- The operation of thread `t` is completed, from `start()`, from
`async_restart()`, or with the CQE at the head of the ring. -/
theorem signal (hc : Core s) {t : T} {o : O} {sig : Signal} {tasks : O → List Fate}
    {ring : T → Ring O} (hst : s.status o = .busy t ∨ s.status o = .onRing t)
    (hold : ∀ o', (s.thread t).holds = some o' → o' = o)
    (hring : ∀ t', t' ≠ t → ring t' = s.ring t')
    (htokens : ∀ o', (ring t).tokens o' = if o' = o then 0 else (s.ring t).tokens o')
    (hother : ∀ o', o' ≠ o → tasks o' = s.tasks o')
    (htasks : tasks o = s.tasks o ∨ tasks o = s.tasks o ++ [.unspawned]) :
    Core (({ s with tasks := tasks, ring := ring }.signal o sig).setThread t .idle) := by
  refine hc.change t o ?_ ?_ ?_ hold ?_ ?_ ?_ ?_ ?_ ?_ ?_ ?_
  · intro t' ht
    simp [State.setThread, State.signal, ht]
  · intro t' ht
    simp [State.setThread, State.signal, hring t' ht]
  · intro o' ho
    simp [State.setThread, State.signal, ho, hother o' ho]
  · simp [State.setThread, ThreadPc.holds]
  · intro t' ht
    rcases hst with hst | hst <;> simp [State.setThread, State.signal, hst, Ne.symm ht]
  · simp [State.setThread, State.signal, ThreadPc.holds]
  · simp [State.setThread]
  · simp [State.setThread]
  · intro o'
    have htok := hc.tokens t o'
    by_cases ho : o' = o
    · subst ho; simp [State.setThread, State.signal, htokens]
    · simpa [State.setThread, State.signal, htokens, ho] using htok
  · have hsig := hc.signals o
    rcases hst with hst | hst <;> simpa [State.setThread, State.signal, hst] using hsig
  · have htask := hc.tasks o
    have hlaunched : ∃ k, s.starts o = k + 1 ∧ s.tasks o = List.replicate k .launched := by
      rcases hst with hst | hst <;> simpa [hst, TasksOk] using htask
    obtain ⟨k, hk, hts⟩ := hlaunched
    rw [hts] at htasks
    simpa [State.setThread, State.signal, TasksOk, hk] using htasks

/-- An operation goes from the hands or the ring of thread `t`, or from its
restart task, to a status other than completed. -/
theorem release (hc : Core s) {t : T} {o : O} {pc : ThreadPc O} {st : Status T}
    {tasks : O → List Fate} {ring : T → Ring O} {issued : T → List (Sqe O)}
    (hold : s.status o = .busy t ∨ s.status o = .onRing t ∨ s.status o = .waiting)
    (hpc : ∀ o', (s.thread t).holds = some o' → o' = o)
    (hnew : ∀ o', pc.holds = some o' ↔ o' = o ∧ st = .busy t)
    (hst : ∀ t', t' ≠ t → st ≠ .busy t' ∧ st ≠ .onRing t')
    (hinst : ∀ o', pc = .install o' → o' = o ∧ st = .onRing t)
    (hcons : ∀ o' res pass stage, pc ≠ .uninstall o' res pass stage)
    (hring : ∀ t', t' ≠ t → ring t' = s.ring t')
    (htokens : ∀ o', o' ≠ o → (ring t).tokens o' = (s.ring t).tokens o')
    (htoken : (ring t).tokens o = if st = .onRing t then 1 else 0)
    (hlive : st ≠ .completed) (hother : ∀ o', o' ≠ o → tasks o' = s.tasks o')
    (htasks : TasksOk (tasks o) (s.starts o) st) :
    Core ({ s with
      ring := ring
      issued := issued
      tasks := tasks
      status := Function.update s.status o st }.setThread t pc) := by
  refine hc.change t o ?_ ?_ ?_ hpc ?_ ?_ ?_ ?_ ?_ ?_ ?_ ?_
  · intro t' ht
    simp [State.setThread, ht]
  · exact hring
  · intro o' ho
    simp [State.setThread, ho, hother o' ho]
  · intro o' h
    exact ((hnew o').mp (by simpa [State.setThread] using h)).1
  · intro t' ht
    have h := hst t' ht
    rcases hold with hold | hold | hold <;> simp [State.setThread, hold, Ne.symm ht, h]
  · simpa [State.setThread] using hnew o
  · intro o' h
    obtain ⟨rfl, rfl⟩ := hinst o' (by simpa [State.setThread] using h)
    simp [State.setThread]
  · simpa [State.setThread] using hcons
  · intro o'
    by_cases ho : o' = o
    · subst ho; simpa [State.setThread] using htoken
    · simpa [State.setThread, ho, htokens o' ho] using hc.tokens t o'
  · have hsig := hc.signals o
    rcases hold with hold | hold | hold <;> simpa [State.setThread, hold, hlive] using hsig
  · simpa [State.setThread] using htasks

end Core

/-- The restart task of an operation ends without calling `start()`. -/
theorem Core.drop (hc : Core s) {o : O} {fate : Fate} (hst : s.status o = .waiting)
    (hfate : fate = .stopped ∨ fate = .cancelled) :
    Core { s.finishTask o fate with status := Function.update s.status o .dropped } := by
  have htask := hc.tasks o
  simp only [hst, TasksOk] at htask
  obtain ⟨k, hk, hts⟩ := htask
  exact { hc with
    busy := by
      intro t o'
      by_cases ho : o' = o
      · subst ho; simpa [hst, State.finishTask] using hc.busy t o'
      · simpa [ho, State.finishTask] using hc.busy t o'
    installing := by
      intro t o' hpc
      have h := hc.installing t o' hpc
      by_cases ho : o' = o
      · subst ho; simp [hst] at h
      · simpa [ho] using h
    tokens := by
      intro t o'
      by_cases ho : o' = o
      · subst ho; simpa [hst, State.finishTask] using hc.tokens t o'
      · simpa [ho, State.finishTask] using hc.tokens t o'
    signals := by
      intro o'
      by_cases ho : o' = o
      · subst ho; simpa [hst, State.finishTask] using hc.signals o'
      · simpa [ho, State.finishTask] using hc.signals o'
    tasks := by
      intro o'
      by_cases ho : o' = o
      · subst ho
        rcases hfate with rfl | rfl <;> simp [TasksOk, State.finishTask, hts, hk]
      · simpa [ho, State.finishTask] using hc.tasks o' }

/-- A CQE of the static `noop` is consumed by an idle thread. -/
theorem Core.advanceNoop (hc : Core s) {t : T} (hpc : s.thread t = .idle)
    (htokens : ∀ o, ((s.ring t).advance 1).tokens o = (s.ring t).tokens o) :
    Core { s with ring := Function.update s.ring t ((s.ring t).advance 1) } := by
  exact { hc with
    consuming := by
      intro t' o res pass stage h
      have ht : t' ≠ t := by
        rintro rfl
        simp [hpc] at h
      simpa [ht] using hc.consuming t' o res pass stage h
    tokens := by
      intro t' o
      by_cases ht : t' = t
      · subst ht; simpa [htokens] using hc.tokens t' o
      · simpa [ht] using hc.tokens t' o }

/-- A thread that only writes links, or nothing. -/
theorem Core.setLinks (hc : Core s) {t : T} {pc : ThreadPc O} {h : Heap O (T × Bucket)}
    (hold : (s.thread t).holds = none) (hnew : pc.holds = none)
    (hinst : ∀ o, pc ≠ .install o) (hcons : ∀ o res pass stage, pc ≠ .uninstall o res pass stage) :
    Core ({ s with heap := h }.setThread t pc) :=
  (hc.links h s.callback).setThread hold hnew (fun o ho => absurd ho (hinst o))
    fun o res pass stage ho => absurd ho (hcons o res pass stage)

theorem Core.setUninstallLinks (hc : Core s) {res : Int} {pass : Pass} {stage stage' : Uninstall O}
    {h : Heap O (T × Bucket)} (hpc : s.thread t = .uninstall o res pass stage) :
    Core ({ s with heap := h }.setThread t (.uninstall o res pass stage')) :=
  (hc.links h s.callback).setUninstall hpc

variable [DecidableEq S]

theorem step_core {a : Label O T S} (hc : Core s) (h : Step cfg s a s') : Core s' := by
  cases h with
  | @start t o hpc hopen hst =>
      have htask := hc.tasks o
      simp only [hst, TasksOk] at htask
      exact hc.enterStart hpc (.inl hst) (fun _ _ => rfl) (by simp [htask])
  | @testStopped t o c hpc hstop =>
      have hst := hc.status_of_holds hpc rfl
      refine hc.signal (.inl hst) (by simp [hpc, ThreadPc.holds]) (fun _ _ => rfl) ?_
        (fun _ _ => rfl) (.inl rfl)
      intro o'
      split
      · next ho => simpa [ho, hst] using hc.tokens t o
      · rfl
  | @testPassed t o c hpc hstop =>
      exact hc.setHolder (by rw [hpc]; rfl) rfl (by simp) (by simp)
  | @sqe t o c r hpc hr =>
      have hst := hc.status_of_holds hpc rfl
      have htok := Ring.tokens_getSqe hr
      have hzero := hc.tokens_of_busy hst
      have htask := hc.tasks o
      simp only [hst, TasksOk] at htask
      refine hc.release (.inl hst) (by simp [hpc, ThreadPc.holds]) (by simp [ThreadPc.holds])
        (by simp [eq_comm]) (by simp [eq_comm]) (by simp) ?_ ?_ ?_ (by simp) (fun _ _ => rfl) htask
      · intro t' ht
        simp [State.issue, ht]
      · intro o' ho
        simp [State.issue, htok, Sqe.data, Ne.symm ho]
      · simp [State.issue, htok, Sqe.data, hzero]
  | @full t o c hpc hr => exact hc.setHolder (by rw [hpc]; rfl) rfl (by simp) (by simp)
  | @installNothing t o c hpc htok =>
      exact hc.setThread (by simp [hpc, ThreadPc.holds]) rfl (by simp) (by simp)
  | @install t o c src hpc htok =>
      have hc' : Core { s with
          localScheduler := Function.update s.localScheduler o t
          callback := Function.update s.callback o
            (if s.stopSource src then .running .load else .registered) } := { hc with }
      exact hc'.setThread (by simp [hpc, ThreadPc.holds]) rfl (by simp) (by simp)
  | @spawnThrows t o hpc =>
      have hst := hc.status_of_holds hpc rfl
      refine hc.signal (.inl hst) (by simp [hpc, ThreadPc.holds]) (fun _ _ => rfl) ?_
        (fun o' ho => by simp [ho]) (.inr (by simp))
      intro o'
      split
      · next ho => simpa [ho, hst] using hc.tokens t o
      · rfl
  | @spawn t o hpc =>
      have hst := hc.status_of_holds hpc rfl
      have htask := hc.tasks o
      simp only [hst, TasksOk] at htask
      have hzero := hc.tokens_of_busy hst
      refine hc.release (.inl hst) (by simp [hpc, ThreadPc.holds]) (by simp [ThreadPc.holds])
        (by simp) (by simp) (by simp) (fun _ _ => rfl) (fun _ _ => rfl) (by simpa using hzero)
        (by simp) (fun o' ho => by simp [ho]) (by simpa [TasksOk] using htask)
  | @reset t o res pass c hpc hcb => exact (hc.links _ _).setUninstall hpc
  | @moveAll t o res pass c pc pc' h hpc hm => exact hc.setUninstallLinks hpc
  | @movedNothing t o res pass c pc h hpc hm => exact hc.setUninstallLinks hpc
  | @moved t o res pass c pc op h hpc hm => exact hc.setUninstallLinks hpc
  | @before t o res pass c first pc pc' h hpc hm => exact hc.setUninstallLinks hpc
  | @beforeDone t o res pass c first pc u h hpc hm => exact hc.setUninstallLinks hpc
  | @next t o res pass c hpc => exact hc.setUninstall hpc
  | @after t o res pass c first pc pc' h hpc hm => exact hc.setUninstallLinks hpc
  | @afterDone t o res pass c first pc u h hpc hm => exact hc.setUninstallLinks hpc
  | @restart t o res pass c hpc hd =>
      have hst := hc.status_of_uninstall hpc
      have htok := Ring.tokens_advance (hc.consuming t o res pass .deliver hpc)
      have hone := hc.tokens_of_onRing hst
      have htask := hc.tasks o
      simp only [hst, TasksOk] at htask
      refine hc.release (.inr (.inl hst)) (by simp [hpc, ThreadPc.holds])
        (by simp [ThreadPc.holds, eq_comm]) (by simp [eq_comm]) (by simp) (by simp) ?_ ?_ ?_ (by simp)
        (fun _ _ => rfl) htask
      · intro t' ht
        simp [ht]
      · intro o' ho
        simpa [Ne.symm ho] using htok o'
      · simpa [hone] using htok o
  | @complete t o res pass c sig hpc hd =>
      have hst := hc.status_of_uninstall hpc
      have htok := Ring.tokens_advance (hc.consuming t o res pass .deliver hpc)
      have hone := hc.tokens_of_onRing hst
      refine hc.signal (.inr hst) (by simp [hpc, ThreadPc.holds]) ?_ ?_ (fun _ _ => rfl) (.inl rfl)
      · intro t' ht
        simp [ht]
      · intro o'
        split
        · next ho => subst ho; simpa [hone] using htok o'
        · next ho => simpa [Ne.symm ho] using htok o'
  | @sweepMove t b c pc pc' h hpc hm =>
      exact hc.setLinks (by simp [hpc, ThreadPc.holds]) rfl (by simp) (by simp)
  | @sweepMoved t b c pc op h hpc hm =>
      exact hc.setLinks (by simp [hpc, ThreadPc.holds]) rfl (by simp) (by simp)
  | @sweepEnd t b c hpc =>
      exact hc.setThread (by simp [hpc, ThreadPc.holds]) rfl (by simp) (by simp)
  | @sweepCancel t b c op r hpc hr =>
      have hring : Core { s.issue t r (.cancel op) with heap := s.heap.setNext op none } := by
        refine (hc.links (s.heap.setNext op none) s.callback).setRing ?_ ?_
        · intro o
          simpa [Sqe.data] using Ring.tokens_getSqe hr o
        · intro c h
          exact (congrArg List.head? (Ring.getSqe_cq hr)).trans h
      exact hring.setThread (by simp [State.issue, hpc, ThreadPc.holds]) rfl (by simp) (by simp)
  | @sweepFull t b c op hpc hr =>
      exact hc.setThread (by simp [hpc, ThreadPc.holds]) rfl (by simp) (by simp)
  | @sweepBack t b c first pc pc' h hpc hm =>
      exact hc.setLinks (by simp [hpc, ThreadPc.holds]) rfl (by simp) (by simp)
  | @sweepBackDone t b c first pc u h hpc hm =>
      exact hc.setLinks (by simp [hpc, ThreadPc.holds]) rfl (by simp) (by simp)
  | @launch t o hpc hopen hst hscope =>
      have htask := hc.tasks o
      simp only [hst, TasksOk] at htask
      obtain ⟨k, hk, hts⟩ := htask
      refine hc.enterStart hpc (.inr hst) (fun o' ho => by simp [ho]) ?_
      simp [hts, hk, List.replicate_succ']
  | @launchStopped t o hpc hopen hst hscope => exact hc.drop hst (.inl rfl)
  | @cancelTask t o hpc hopen hst => exact hc.drop hst (.inr rfl)
  | requestStop => exact { hc with }
  | stopScope => exact { hc with }
  | @fire o hcb hstop => exact { hc with }
  | @push o c pc pc' h hcb hm => exact { hc with }
  | @pushed o c pc u h hcb hm => exact { hc with }
  | @submit t n hpc hopen => exact hc.setRing (Ring.tokens_submit _ n) (fun _ h => h)
  | @cancelAny t r hpc hopen hr =>
      refine hc.setRing ?_ ?_
      · intro o
        rw [Ring.tokens_submit, Ring.tokens_getSqe hr, Ring.tokens_submit]
        simp [Sqe.data]
      · intro c h
        have hcq := Ring.getSqe_cq hr
        exact (congrArg List.head? hcq).trans h
  | @post t i res e r hr => exact hc.setRing (Ring.tokens_post hr) fun c h => Ring.post_head hr h
  | @consumeNoop t pass res l hpc hopen hcq =>
      have hhead : (s.ring t).cq.head? = some ⟨none, res⟩ := by simp [hcq]
      exact hc.advanceNoop hpc (by simpa using Ring.tokens_advance hhead)
  | @consume t pass o res l hpc hopen hcq =>
      apply hc.setThread (by simp [hpc, ThreadPc.holds]) rfl (by simp)
      intro o' res' pass' stage h
      obtain ⟨rfl, rfl, -, -⟩ : o = o' ∧ res = res' ∧ pass = pass' ∧ _ = stage := by simpa using h
      simp [hcq]
  | @sweep t b hpc hopen =>
      exact hc.setThread (by simp [hpc, ThreadPc.holds]) rfl (by simp) (by simp)
  | @close t hpc hopen => exact { hc with }

theorem reachable_core {s : State O T S} (h : (machine cfg).Reachable s) : Core s :=
  h.invariant Core (fun _ => init_core) fun _ _ _ _ hc _ hs => step_core hc (.of_step hs)

end IoUring.Exec.Operation
