import IoUring.Exec.OperationLinks
import IoUring.Exec.OperationRestart

/-!
# Buckets hold running operations

Every step keeps an assignment of owners that agrees with all links, so at any
moment a bucket is an acyclic chain of operations that are on the ring of the
same local, and no operation is in two buckets.
-/

namespace IoUring.Exec.Operation

variable {O T S : Type*} [DecidableEq O]

/-- Every operation has an owner that agrees with all links. -/
structure Linked (cfg : Config O T S) (s : State O T S) (own : O → Owner T)
    (content : T × Bucket → List O) (priv : T → List O) : Prop where
  chains : Chains s own content priv
  ops : ∀ o, LinkOk cfg s own o

/-- The operation that a step pushes onto its stopping queue. -/
def pushed [DecidableEq T] (cfg : Config O T S) (s : State O T S) : Label O T S → Option O
  | .push o spurious =>
      match s.callback o with
      | .running pc =>
          match (pushStep s.heap (stoppingQueue cfg s o) o spurious pc).2 with
          | .running _ => none
          | .returned _ => some o
      | _ => none
  | _ => none

/-- The operation that a thread may leave out of what it has in hand. -/
def leftOut (s : State O T S) : Label O T S → Option O
  | .thread t _ =>
      match s.thread t with
      | .uninstall o _ _ .next => some o
      | .sweep _ op => op
      | _ => none
  | _ => none

/-- Only `gained` comes to be linked and only `lost` ceases to be. -/
structure OwnerStep (own own' : O → Owner T) (gained lost : Option O) : Prop where
  kept : ∀ o, own o ≠ .nobody → own' o = .nobody → lost = some o
  fresh : ∀ o, own o = .nobody → own' o ≠ .nobody → gained = some o
  gained : ∀ o, gained = some o → own' o ≠ .nobody

/-- Some owners agree with all links, and they come from `own` by one step. -/
def Relinked (cfg : Config O T S) (s : State O T S) (own : O → Owner T)
    (gained lost : Option O) : Prop :=
  ∃ own' content priv, Linked cfg s own' content priv ∧ OwnerStep own own' gained lost

variable {cfg : Config O T S} {s s' : State O T S} {t : T} {o : O} {own own' : O → Owner T}
  {content : T × Bucket → List O} {priv : T → List O} {lost : Option O}

omit [DecidableEq O] in
theorem OwnerStep.of_iff (h : ∀ o, own' o = .nobody ↔ own o = .nobody) :
    OwnerStep own own' none lost where
  kept := fun o hne heq => absurd ((h o).mp heq) hne
  fresh := fun o heq hne => absurd ((h o).mpr heq) hne
  gained := nofun

theorem OwnerStep.update_nobody (own : O → Owner T) (o : O) :
    OwnerStep own (Function.update own o .nobody) none (some o) where
  kept := by
    intro o' hne heq
    by_contra hlost
    rw [Function.update_of_ne fun h : o' = o => hlost (congrArg some h.symm)] at heq
    exact hne heq
  fresh := by
    intro o' heq hne
    by_cases ho : o' = o
    · subst ho; simp at hne
    · simp [ho, heq] at hne
  gained := nofun

theorem OwnerStep.update_bucket (hfree : own o = .nobody) (q : T × Bucket) :
    OwnerStep own (Function.update own o (.bucket q)) (some o) lost where
  kept := by
    intro o' hne heq
    by_cases ho : o' = o
    · subst ho; simp at heq
    · simp [ho, hne] at heq
  fresh := by
    intro o' heq hne
    by_contra hgained
    rw [Function.update_of_ne fun h : o' = o => hgained (congrArg some h.symm)] at hne
    exact hne heq
  gained := by
    intro o' h
    obtain rfl := Option.some.inj h
    simp

namespace Linked

theorem relinked (hl : Linked cfg s own content priv) : Relinked cfg s own none lost :=
  ⟨own, content, priv, hl, .of_iff fun _ => Iff.rfl⟩

theorem setStatus (hl : Linked cfg s own content priv) {st : Status T} {ring : T → Ring O}
    {starts : O → Nat} {signals : O → List Signal} {tasks : O → List Fate}
    (hfree : own o = .nobody) (hnext : (∃ t, st = .onRing t) → s.heap.next o = none) :
    Linked cfg { s with
      ring := ring
      starts := starts
      signals := signals
      tasks := tasks
      status := Function.update s.status o st } own content priv where
  chains := { hl.chains with }
  ops := fun o' => { (hl.ops o').setStatus hfree hnext with }

/-- The nodes in hand, at the program counter of the thread. -/
theorem priv_ok (hl : Linked cfg s own content priv) {pc : ThreadPc O} (hpc : s.thread t = pc) :
    PrivOk s.heap.next (priv t) pc :=
  hpc ▸ hl.chains.private_ok t

/-- With nothing to wait for in memory, a thread has no node in hand. -/
theorem priv_eq (hl : Linked cfg s own content priv) {pc : ThreadPc O} (hpc : s.thread t = pc)
    (hpriv : ∀ l, PrivOk s.heap.next l pc → l = []) : priv t = [] :=
  hpriv _ (hl.priv_ok hpc)

/-- An operation that is not in its own bucket is linked nowhere while its thread has
no node in hand. -/
theorem nobody_of_empty (hl : Linked cfg s own content priv) (hempty : priv t = [])
    (hst : s.status o = .onRing t) (hnil : content (stoppingQueue cfg s o) = []) :
    own o = .nobody := by
  cases hown : own o with
  | nobody => rfl
  | bucket q =>
      have hq := ((hl.ops o).bucket q hown).2
      have hmem := (hl.chains.mem_content q o).mpr hown
      rw [← hq, hnil] at hmem
      simp at hmem
  | thread t' =>
      have hst' := ((hl.ops o).priv t' hown).1
      rw [hst] at hst'
      obtain rfl := Status.onRing.inj hst'
      simpa [hempty] using (hl.chains.mem_priv t o).mpr hown

/-- A callback that has not pushed its operation finds it linked nowhere. -/
theorem nobody_of_running (hl : Linked cfg s own content priv) {pc : PushPc O}
    (hcb : s.callback o = .running pc) : own o = .nobody := by
  by_contra hne
  rcases (hl.ops o).ran hne with h | h <;> simp [hcb] at h

end Linked

variable [DecidableEq T]

/-- The bucket that an uninstallation works on belongs to its own local. -/
theorem CallbackOk.queue (hk : CallbackOk cfg s o) (hc : Core s) {res : Int} {pass : Pass}
    {stage : Uninstall O} (hpc : s.thread t = .uninstall o res pass stage) (hne : stage ≠ .deliver) :
    stoppingQueue cfg s o = (t, cfg.bucket o) := by
  have htok := hk.token t res pass stage hpc hne
  rcases hk.scheduler t (hc.status_of_uninstall hpc) htok with h | h
  · simp [hpc] at h
  · simp [stoppingQueue, h]

theorem Core.not_clean (hc : Core s) (hst : s.status o = .onRing t)
    (hpc : s.thread t ≠ .install o) (t' : T) : (s.thread t').clean ≠ some o := by
  intro h
  cases hpc' : s.thread t' with
  | getSqe o' =>
      obtain rfl : o' = o := by simpa [hpc', ThreadPc.clean] using h
      have hbusy := (hc.busy t' o').mp (by simp [hpc', ThreadPc.holds])
      simp [hst] at hbusy
  | install o' =>
      obtain rfl : o' = o := by simpa [hpc', ThreadPc.clean] using h
      have hinst := hc.installing t' o' hpc'
      rw [hst] at hinst
      exact hpc (Status.onRing.inj hinst ▸ hpc')
  | _ => simp [hpc', ThreadPc.clean] at h

namespace Linked

theorem setThread (hl : Linked cfg s own content priv) {pc : ThreadPc O}
    (hpriv : PrivOk s.heap.next (priv t) pc)
    (hwork : priv t = [] ∨ pc.work cfg = (s.thread t).work cfg)
    (hdetached : ∀ o, pc.detached = some o → ∀ q, own o ≠ .bucket q)
    (hpast : ∀ o, pc.past = some o → own o = .nobody)
    (hleave : ∀ o, (s.thread t).past = some o → s.status o = .onRing t → pc.past = some o)
    (hclean : ∀ o, pc.clean = some o → own o = .nobody ∧ s.heap.next o = none) :
    Linked cfg (s.setThread t pc) own content priv where
  chains := hl.chains.setThread hpriv
  ops := by
    intro o
    refine (hl.ops o).setThread ?_ (hdetached o) (hpast o) (hleave o) (hclean o)
    intro hown
    have hmem := (hl.chains.mem_priv t o).mpr hown
    rcases hwork with hempty | hwork
    · simp [hempty] at hmem
    · exact hwork

/-- A thread with no node in hand goes to a point where it needs none. -/
theorem setPlain (hl : Linked cfg s own content priv) {pc : ThreadPc O} (hempty : priv t = [])
    (hpriv : PrivOk s.heap.next [] pc) (hleave : ∀ o, (s.thread t).past = some o →
      s.status o ≠ .onRing t) (hdetached : pc.detached = none) (hpast : pc.past = none)
    (hclean : ∀ o, pc.clean = some o → own o = .nobody ∧ s.heap.next o = none) :
    Linked cfg (s.setThread t pc) own content priv :=
  hl.setThread (hempty ▸ hpriv) (.inl hempty) (by simp [hdetached]) (by simp [hpast])
    (fun o h h' => absurd h' (hleave o h)) hclean

/-- A step of another thread leaves the links of the operations on the ring of `t` alone,
but for those whose callbacks run. -/
theorem next_kept [DecidableEq S] (hl : Linked cfg s own content priv) {a : Label O T S} (h : Step cfg s a s')
    (hst : s.status o = .onRing t) (hcb : ∀ pc, s.callback o ≠ .running pc)
    (ha : ∀ c, a ≠ .thread t c) : s'.heap.next o = s.heap.next o := by
  have hout : ∀ u, u ≠ t → o ∉ priv u := by
    intro u hu hmem
    have hst' := ((hl.ops o).priv u ((hl.chains.mem_priv u o).mp hmem)).1
    exact hu (Status.onRing.inj (hst'.symm.trans hst))
  have hmove {q : T × Bucket} {c : Bool} {pc : MoveAllPc O} {h : Heap O (T × Bucket)}
      {r : Call (MoveAllPc O) (Option O)} (hm : moveAllStep s.heap q c pc = (h, r)) :
      h.next o = s.heap.next o := by
    cases r with
    | running pc' => rw [moveAllStep_running hm]
    | returned v => simp [(moveAllStep_returned hm).2]
  have hpush {u : T} {q : T × Bucket} {first : Option O} {p : O → Bool} {c : Bool}
      {pc : PushAllPc O} {h : Heap O (T × Bucket)} {r : Call (PushAllPc O) Unit}
      (hok : PushAllOk s.heap.next first p (priv u) pc) (hu : u ≠ t)
      (hm : pushAllStep s.heap q first p c pc = (h, r)) : h.next o = s.heap.next o := by
    cases r with
    | running pc' => exact (pushAllStep_running hok hm).2.2 o (hout u hu)
    | returned v =>
        obtain ⟨-, -, -, -, -, -, hnext, -⟩ := pushAllStep_returned hok hm
        rw [hnext]
  have hne {u : T} {c : Bool} (hac : ∀ c', (Label.thread u c : Label O T S) ≠ .thread t c') :
      u ≠ t := by
    rintro rfl
    exact hac c rfl
  cases h with
  | @moveAll u o' res pass c pc pc' h hpc hm => exact hmove hm
  | @movedNothing u o' res pass c pc h hpc hm => exact hmove hm
  | @moved u o' res pass c pc op h hpc hm => exact hmove hm
  | @sweepMove u b c pc pc' h hpc hm => exact hmove hm
  | @sweepMoved u b c pc op h hpc hm => exact hmove hm
  | @before u o' res pass c first pc pc' h hpc hm => exact hpush (hl.priv_ok hpc) (hne ha) hm
  | @beforeDone u o' res pass c first pc v h hpc hm => exact hpush (hl.priv_ok hpc) (hne ha) hm
  | @after u o' res pass c first pc pc' h hpc hm => exact hpush (hl.priv_ok hpc) (hne ha) hm
  | @afterDone u o' res pass c first pc v h hpc hm => exact hpush (hl.priv_ok hpc) (hne ha) hm
  | @sweepBack u b c first pc pc' h hpc hm => exact hpush (hl.priv_ok hpc) (hne ha) hm
  | @sweepBackDone u b c first pc v h hpc hm => exact hpush (hl.priv_ok hpc) (hne ha) hm
  | @sweepCancel u b c op r hpc hr =>
      have hop : op ∈ priv u := by
        obtain ⟨l, hcons, -⟩ := chain_some.mp (hl.priv_ok hpc)
        simp [hcons]
      have hneq : o ≠ op := by
        rintro rfl
        exact hout u (hne ha) hop
      simp [State.issue, State.setThread, hneq]
  | @push o' c pc pc' h hcb' hm =>
      have hneq : o ≠ o' := by
        rintro rfl
        exact hcb pc hcb'
      cases pc with
      | load =>
          simp only [pushStep, Prod.mk.injEq] at hm
          rw [← hm.1]
      | write node =>
          simp only [pushStep, Prod.mk.injEq] at hm
          simp [← hm.1, hneq]
      | cas node =>
          simp only [pushStep] at hm
          split at hm
          · simp at hm
          · simp only [Prod.mk.injEq] at hm
            rw [← hm.1]
  | @pushed o' c pc v h hcb' hm =>
      cases pc with
      | load => simp [pushStep] at hm
      | write node => simp [pushStep] at hm
      | cas node =>
          simp only [pushStep] at hm
          split at hm
          · simp only [Prod.mk.injEq] at hm
            simp [← hm.1]
          · simp at hm
  | _ => rfl

/-- A thread inside `push_all`. -/
theorem pushAllRunning (hl : Linked cfg s own content priv) {q : T × Bucket} {first : Option O}
    {predicate : O → Bool} {spurious : Bool} {pc pc' : PushAllPc O} {h : Heap O (T × Bucket)}
    {tpc : ThreadPc O} (hok : PushAllOk s.heap.next first predicate (priv t) pc)
    (hm : pushAllStep s.heap q first predicate spurious pc = (h, .running pc'))
    (hpriv : PushAllOk h.next first predicate (priv t) pc' → PrivOk h.next (priv t) tpc)
    (hwork : tpc.work cfg = (s.thread t).work cfg) (hdetached : tpc.detached = (s.thread t).detached)
    (hpast : tpc.past = (s.thread t).past) (hclean : tpc.clean = none) :
    Linked cfg ({ s with heap := h }.setThread t tpc) own content priv := by
  obtain ⟨hok', hhead, hframe⟩ := pushAllStep_running hok hm
  exact ⟨hl.chains.threadStep hhead hframe (hpriv hok'),
    fun o => (hl.ops o).threadStep hl.chains hframe hwork hdetached hpast hclean⟩

/-- A thread takes the chain of a bucket of its own local. -/
theorem moveAllReturned (hl : Linked cfg s own content priv) {b : Bucket} {spurious : Bool}
    {pc : MoveAllPc O} {v : Option O} {h : Heap O (T × Bucket)} {tpc : ThreadPc O}
    (hempty : priv t = []) (hm : moveAllStep s.heap (t, b) spurious pc = (h, .returned v))
    (hpriv : ∀ l, Chain s.heap.next v l → PrivOk s.heap.next l tpc) (hwork : tpc.work cfg = some b)
    (hdetached : ∀ o, tpc.detached = some o → cfg.bucket o = b ∧ s.localScheduler o = t)
    (hpast : ∀ o, tpc.past = some o → content (t, b) = [] → own o = .nobody)
    (hpast' : tpc.past ≠ none → v = none) (hold : (s.thread t).past = none)
    (hclean : tpc.clean = none) :
    Relinked cfg ({ s with heap := h }.setThread t tpc) own none lost := by
  obtain ⟨rfl, rfl⟩ := moveAllStep_returned hm
  have hch := hl.chains.bucket_chain (t, b)
  refine ⟨_, _, _, ⟨hl.chains.moveAll hempty (hpriv _ hch),
    fun o => (hl.ops o).moveAll hl.chains hempty hwork hdetached ?_ hold hclean⟩, .of_iff ?_⟩
  · intro o' ho'
    apply hpast o' ho'
    rw [hpast' (by simp [ho'])] at hch
    exact chain_none.mp hch
  · intro o'
    by_cases hmem : o' ∈ content (t, b)
    · simp [hmem, (hl.chains.mem_content (t, b) o').mp hmem]
    · simp [hmem]

/-- A thread has pushed back the first part of what it had in hand. -/
theorem pushAllReturned (hl : Linked cfg s own content priv) (hc : Core s) {b : Bucket}
    {first : Option O} {predicate : O → Bool} {spurious : Bool} {pc : PushAllPc O} {u : Unit}
    {h : Heap O (T × Bucket)} {tpc : ThreadPc O}
    (hok : PushAllOk s.heap.next first predicate (priv t) pc)
    (hm : pushAllStep s.heap (t, b) first predicate spurious pc = (h, .returned u))
    (hpriv : ∀ l, (∀ a ∈ l.head?, predicate a = false) → Chain h.next l.head? l →
      PrivOk h.next l tpc)
    (hold : (s.thread t).work cfg = some b)
    (hwork : tpc.work cfg = some b ∨ ∀ a, predicate a = true)
    (hdetached : ∀ o, tpc.detached = some o → (s.thread t).detached = some o ∧
      (predicate o = false ∨ own o = .nobody))
    (hleave : ∀ o, (s.thread t).past = some o → tpc.past = some o)
    (hpast : ∀ o, tpc.past = some o → own o = .nobody) (hclean : tpc.clean = none) :
    Relinked cfg ({ s with heap := h }.setThread t tpc) own none lost := by
  obtain ⟨seg, rest, hl', hseg, hrest, hch, hnext, hother, hself⟩ := pushAllStep_returned hok hm
  refine ⟨_, _, _, ⟨hl.chains.pushAll hl' hok.nodup hnext hother
    (hself _ (hl.chains.bucket_chain (t, b))) (hpriv rest hrest hch),
    fun o => (hl.ops o).pushAll hl.chains hc hl' hnext hold ?_ ?_ hleave hpast hclean⟩, .of_iff ?_⟩
  · intro hne
    rcases hwork with hwork | hall
    · exact hwork
    · cases rest with
      | nil => exact absurd rfl hne
      | cons a rest => simpa [hall a] using hrest a (by simp)
  · intro o' ho'
    obtain ⟨hdet, hp⟩ := hdetached o' ho'
    refine ⟨hdet, fun hmem => ?_⟩
    rcases hp with hp | hp
    · exact absurd (hseg o' hmem) (by simp [hp])
    · have := (hl.chains.mem_priv t o').mp (by simp [hl', hmem])
      simp [hp] at this
  · intro o'
    by_cases hmem : o' ∈ seg
    · simp [hmem, (hl.chains.mem_priv t o').mp (by simp [hl', hmem])]
    · simp [hmem]

/-- A thread with no node in hand goes on to where it needs none and has passed no test. -/
theorem goPlain (hl : Linked cfg s own content priv) {pc : ThreadPc O} (hempty : priv t = [])
    (hold : (s.thread t).past = none) (hpriv : PrivOk s.heap.next [] pc)
    (hdetached : pc.detached = none) (hpast : pc.past = none) (hclean : pc.clean = none) :
    Relinked cfg (s.setThread t pc) own none lost :=
  (hl.setPlain hempty hpriv (by simp [hold]) hdetached hpast (by simp [hclean])).relinked

/-- A thread brings an operation that is linked nowhere to a status off the rings. -/
theorem settle (hl : Linked cfg s own content priv) {st : Status T} {ring : T → Ring O}
    {starts : O → Nat} {signals : O → List Signal} {tasks : O → List Fate} {pc : ThreadPc O}
    (hempty : priv t = []) (hfree : own o = .nobody) (hst : ∀ t, st ≠ .onRing t)
    (hold : ∀ o', (s.thread t).past = some o' → o' = o) (hpriv : PrivOk s.heap.next [] pc)
    (hdetached : pc.detached = none) (hpast : pc.past = none) (hclean : pc.clean = none) :
    Relinked cfg ({ s with
      ring := ring
      starts := starts
      signals := signals
      tasks := tasks
      status := Function.update s.status o st }.setThread t pc) own none lost := by
  have hstatus : Linked cfg { s with
      ring := ring
      starts := starts
      signals := signals
      tasks := tasks
      status := Function.update s.status o st } own content priv :=
    hl.setStatus hfree fun ⟨t', h⟩ => absurd h (hst t')
  refine (hstatus.setPlain hempty hpriv ?_ hdetached hpast (by simp [hclean])).relinked
  intro o' h
  obtain rfl := hold o' h
  simpa using hst t

/-- A callback inside `push`. -/
theorem pushRunning (hl : Linked cfg s own content priv) (hc : Core s) (hk : CallbackOk cfg s o)
    {c : Bool} {pc pc' : PushPc O} {h : Heap O (T × Bucket)} (hcb : s.callback o = .running pc)
    (hm : pushStep s.heap (stoppingQueue cfg s o) o c pc = (h, .running pc')) :
    Relinked cfg { s with
      heap := h
      callback := Function.update s.callback o (.running pc') } own none lost := by
  cases pc with
  | load =>
      simp only [pushStep, Prod.mk.injEq, Call.running.injEq] at hm
      obtain ⟨rfl, rfl⟩ := hm
      exact relinked ⟨{ hl.chains with }, fun o' => (hl.ops o').pushLoad hcb⟩
  | write node =>
      simp only [pushStep, Prod.mk.injEq, Call.running.injEq] at hm
      obtain ⟨rfl, rfl⟩ := hm
      have hfree := hl.nobody_of_running hcb
      exact relinked ⟨hl.chains.pushWrite hfree,
        fun o' => (hl.ops o').pushWrite hfree (running_apart hc hk hcb)⟩
  | cas node =>
      simp only [pushStep] at hm
      split at hm
      · simp at hm
      · simp only [Prod.mk.injEq, Call.running.injEq] at hm
        obtain ⟨rfl, rfl⟩ := hm
        exact relinked ⟨{ hl.chains with }, fun o' => (hl.ops o').pushLoad hcb⟩

/-- A callback has pushed its operation. -/
theorem pushReturned (hl : Linked cfg s own content priv) (hc : Core s) (hk : CallbackOk cfg s o)
    {c : Bool} {pc : PushPc O} {u : Unit} {h : Heap O (T × Bucket)}
    (hcb : s.callback o = .running pc)
    (hm : pushStep s.heap (stoppingQueue cfg s o) o c pc = (h, .returned u)) :
    Relinked cfg { s with
      heap := h
      callback := Function.update s.callback o .ran } own (some o) lost := by
  cases pc with
  | load => simp [pushStep] at hm
  | write node => simp [pushStep] at hm
  | cas node =>
      simp only [pushStep] at hm
      split at hm
      · next hg =>
          simp only [Prod.mk.injEq] at hm
          obtain ⟨rfl, -⟩ := hm
          have hnext := ((hl.ops o).cas node hcb).trans hg.1.symm
          obtain ⟨-, hst, -⟩ := hk.live (by simp [hcb])
          have hstop := hk.fired (by simp [hcb, Callback.fired])
          exact ⟨_, _, _, ⟨hl.chains.pushed (hl.nobody_of_running hcb) hnext,
            fun o' => (hl.ops o').pushed hst rfl hstop (running_apart hc hk hcb)⟩,
            .update_bucket (hl.nobody_of_running hcb) _⟩
      · simp at hm

/-- `q.next(this)` of an uninstallation. -/
theorem uninstallNext (hl : Linked cfg s own content priv) (hc : Core s) (hk : CallbackOk cfg s o)
    {res : Int} {pass : Pass} (hpc : s.thread t = .uninstall o res pass .next) :
    Relinked cfg (s.setThread t
      (.uninstall o res pass (.after (s.heap.next o) .test))) own none (some o) := by
  have hst := hc.status_of_uninstall hpc
  have hcb := hk.reset t res pass .next hpc (by simp)
  have hown := (hl.ops o).detached t (by rw [hpc]; rfl)
  have hnext (hno : own o = .nobody) : s.heap.next o = none := by
    by_contra hne
    have h := ((hl.ops o).stale hne hno (by simp [hcb])).2 t hst
    simp [hpc, ThreadPc.past] at h
  have hring (t' : T) (h : own o = .thread t') : t' = t :=
    Status.onRing.inj (((hl.ops o).priv t' h).1.symm.trans hst)
  obtain ⟨rest, hch⟩ := hl.chains.next hpc hown hring hnext
  exact ⟨_, _, _, ⟨hch, fun o' => (hl.ops o').next hpc hst hcb
    (hc.not_clean hst (by simp [hpc])) hown hnext⟩, .update_nobody own o⟩

/-- The token of an operation is not stopped, so its link is null: it is left behind only
where a stop was requested. -/
theorem testPassed (hl : Linked cfg s own content priv) (hc : Core s) (hk : CallbackOk cfg s o)
    (hpc : s.thread t = .test o) (hstop : s.stopRequested cfg o = false) :
    Relinked cfg (s.setThread t (.getSqe o)) own none lost := by
  have hst := hc.status_of_holds hpc rfl
  have hfree := (hl.ops o).free (by simp [hst])
  have hcb := hk.callback_none (by simp [hst])
  have hnext : s.heap.next o = none := by
    by_contra hne
    have h := ((hl.ops o).stale hne hfree (by simp [hcb])).1
    simp [hstop] at h
  refine relinked (hl.setPlain (hl.priv_eq hpc fun _ h => h) rfl (by simp [hpc, ThreadPc.past]) rfl rfl ?_)
  intro o' h
  obtain rfl : o = o' := by simpa [ThreadPc.clean] using h
  exact ⟨hfree, hnext⟩

/-- An operation gets onto the ring. -/
theorem takeSqe (hl : Linked cfg s own content priv) (hc : Core s) (hk : CallbackOk cfg s o) {r : Ring O}
    (hpc : s.thread t = .getSqe o) :
    Relinked cfg ({ s.issue t r (.request o) with
      status := Function.update s.status o (.onRing t) }.setThread t (.install o)) own none lost := by
  have hst := hc.status_of_holds hpc rfl
  have hcb := hk.callback_none (by simp [hst])
  have hclean := (hl.ops o).clean t (by rw [hpc]; rfl)
  have hissue : Linked cfg { s with
      issued := Function.update s.issued t (.request o :: s.issued t) } own content priv :=
    ⟨{ hl.chains with }, fun o' => (hl.ops o').setIssued (by
      intro h
      obtain rfl : o = o' := by simpa using h
      simp [hcb])⟩
  have hstatus : Linked cfg { s.issue t r (.request o) with
      status := Function.update s.status o (.onRing t) } own content priv :=
    hissue.setStatus hclean.1 fun _ => hclean.2
  refine relinked (hstatus.setPlain (hl.priv_eq hpc fun _ h => h) rfl
    (by simp [State.issue, hpc, ThreadPc.past]) rfl rfl ?_)
  intro o' h
  obtain rfl : o = o' := by simpa [ThreadPc.clean] using h
  exact hclean

/-- The callback of an operation is installed. -/
theorem install (hl : Linked cfg s own content priv) {src : S} (hpc : s.thread t = .install o) :
    Relinked cfg ({ s with
      localScheduler := Function.update s.localScheduler o t
      callback := Function.update s.callback o
        (if s.stopSource src then .running .load else .registered) }.setThread t .idle) own none lost := by
  have hclean := (hl.ops o).clean t (by rw [hpc]; rfl)
  have hcb : Linked cfg { s with
      localScheduler := Function.update s.localScheduler o t
      callback := Function.update s.callback o
        (if s.stopSource src then .running .load else .registered) } own content priv :=
    ⟨{ hl.chains with }, fun o' => (hl.ops o').setCallback t hclean.1
      (by by_cases h : s.stopSource src <;> simp [h]) fun _ => hclean.2⟩
  exact hcb.goPlain (hl.priv_eq hpc fun _ h => h) (by simp [hpc, ThreadPc.past]) rfl rfl rfl rfl

omit [DecidableEq T] in
/-- The callback of an operation begins to run. -/
theorem fire (hl : Linked cfg s own content priv) (hcb : s.callback o = .registered) :
    Relinked cfg { s with callback := Function.update s.callback o (.running .load) } own none lost := by
  have hfree : own o = .nobody := by
    by_contra hne
    rcases (hl.ops o).ran hne with h | h <;> simp [hcb] at h
  refine relinked ⟨{ hl.chains with }, fun o' => ?_⟩
  have h := (hl.ops o').setCallback (s.localScheduler o) hfree (.inr rfl) (by simp)
  simpa using h

/-! ### An uninstallation -/

/-- A CQE is at the head of the ring. Without a stop token nothing is uninstalled. -/
theorem consume (hl : Linked cfg s own content priv) {res : Int} {pass : Pass} (hpc : s.thread t = .idle) :
    Relinked cfg (s.setThread t (.uninstall o res pass
      (if (cfg.token o).isSome then .reset else .deliver))) own none lost := by
  have hempty := hl.priv_eq hpc fun _ h => h
  cases htok : cfg.token o with
  | some src =>
      exact relinked (hl.setPlain hempty rfl (by simp [hpc, ThreadPc.past]) rfl rfl
        (by simp [ThreadPc.clean]))
  | none =>
      have hfree : own o = .nobody := by
        by_contra hne
        simpa [State.stopRequested, htok] using (hl.ops o).stopped hne
      refine relinked (hl.setThread (hempty ▸ rfl) (.inl hempty) ?_ ?_
        (by simp [hpc, ThreadPc.past]) (by simp [ThreadPc.clean]))
      · intro o' h
        obtain rfl : o = o' := by simpa [ThreadPc.detached] using h
        simp [hfree]
      · intro o' h
        obtain rfl : o = o' := by simpa [ThreadPc.past] using h
        exact hfree

theorem reset (hl : Linked cfg s own content priv) {res : Int} {pass : Pass}
    (hpc : s.thread t = .uninstall o res pass .reset) (hcb : ∀ pc, s.callback o ≠ .running pc) :
    Relinked cfg ({ s with callback := Function.update s.callback o .none }.setThread t
      (.uninstall o res pass (.moveAll .load))) own none lost := by
  have hreset : Linked cfg { s with callback := Function.update s.callback o .none } own content priv :=
    ⟨{ hl.chains with }, fun o' => (hl.ops o').resetCallback hcb⟩
  exact hreset.goPlain (hl.priv_eq hpc fun _ h => h) (by simp [hpc, ThreadPc.past]) rfl rfl rfl rfl

/-- The bucket was empty, so the operation is linked nowhere. -/
theorem movedNothing (hl : Linked cfg s own content priv) (hc : Core s) (hk : CallbackOk cfg s o)
    {res : Int} {pass : Pass} {c : Bool} {pc : MoveAllPc O} {h : Heap O (T × Bucket)}
    (hpc : s.thread t = .uninstall o res pass (.moveAll pc))
    (hm : moveAllStep s.heap (stoppingQueue cfg s o) c pc = (h, .returned none)) :
    Relinked cfg ({ s with heap := h }.setThread t (.uninstall o res pass .deliver)) own none lost := by
  have hempty := hl.priv_eq hpc fun _ h => h
  have hq := hk.queue hc hpc (by simp)
  rw [hq] at hm
  refine hl.moveAllReturned hempty hm (fun l hch => chain_none.mp hch) rfl ?_ ?_ (by simp)
    (by simp [hpc, ThreadPc.past]) rfl
  · intro o' h
    obtain rfl : o = o' := by simpa [ThreadPc.detached] using h
    exact ⟨rfl, congrArg Prod.fst hq⟩
  · intro o' h hnil
    obtain rfl : o = o' := by simpa [ThreadPc.past] using h
    exact hl.nobody_of_empty hempty (hc.status_of_uninstall hpc) (hq ▸ hnil)

/-- The chain of the bucket is in hand. -/
theorem moved (hl : Linked cfg s own content priv) (hc : Core s) (hk : CallbackOk cfg s o)
    {res : Int} {pass : Pass} {c : Bool} {pc : MoveAllPc O} {op : O} {h : Heap O (T × Bucket)}
    (hpc : s.thread t = .uninstall o res pass (.moveAll pc))
    (hm : moveAllStep s.heap (stoppingQueue cfg s o) c pc = (h, .returned (some op))) :
    Relinked cfg ({ s with heap := h }.setThread t (.uninstall o res pass (.before (some op) .test)))
      own none lost := by
  have hq := hk.queue hc hpc (by simp)
  rw [hq] at hm
  refine hl.moveAllReturned (hl.priv_eq hpc fun _ h => h) hm (fun l hch => hch) rfl ?_
    (by simp [ThreadPc.past]) (by simp [ThreadPc.past]) (by simp [hpc, ThreadPc.past]) rfl
  intro o' h
  obtain rfl : o = o' := by simpa [ThreadPc.detached] using h
  exact ⟨rfl, congrArg Prod.fst hq⟩

/-- What was before the operation is back in the bucket. -/
theorem beforeDone (hl : Linked cfg s own content priv) (hc : Core s) (hk : CallbackOk cfg s o)
    {res : Int} {pass : Pass} {c : Bool} {first : Option O} {pc : PushAllPc O} {u : Unit}
    {h : Heap O (T × Bucket)} (hpc : s.thread t = .uninstall o res pass (.before first pc))
    (hm : pushAllStep s.heap (stoppingQueue cfg s o) first (fun node => node ≠ o) c pc =
      (h, .returned u)) :
    Relinked cfg ({ s with heap := h }.setThread t (.uninstall o res pass .next)) own none lost := by
  rw [hk.queue hc hpc (by simp)] at hm
  refine hl.pushAllReturned hc (hl.priv_ok hpc) hm ?_ (by simp [hpc, ThreadPc.work]) (.inl rfl) ?_
    (by simp [hpc, ThreadPc.past]) (by simp [ThreadPc.past]) rfl
  · intro l hhead hch
    cases l with
    | nil => exact .inl rfl
    | cons a rest =>
        obtain rfl : a = o := by simpa using hhead a (by simp)
        exact .inr ⟨rest, rfl, hch.2⟩
  · intro o' h
    obtain rfl : o = o' := by simpa [ThreadPc.detached] using h
    exact ⟨by rw [hpc]; rfl, .inl (by simp)⟩

/-- What was behind the operation is back in the bucket. -/
theorem afterDone (hl : Linked cfg s own content priv) (hc : Core s) (hk : CallbackOk cfg s o)
    {res : Int} {pass : Pass} {c : Bool} {first : Option O} {pc : PushAllPc O} {u : Unit}
    {h : Heap O (T × Bucket)} (hpc : s.thread t = .uninstall o res pass (.after first pc))
    (hm : pushAllStep s.heap (stoppingQueue cfg s o) first (fun _ => true) c pc = (h, .returned u)) :
    Relinked cfg ({ s with heap := h }.setThread t (.uninstall o res pass .deliver)) own none lost := by
  rw [hk.queue hc hpc (by simp)] at hm
  have hfree := (hl.ops o).past t (by rw [hpc]; rfl)
  refine hl.pushAllReturned hc (hl.priv_ok hpc) hm ?_ (by simp [hpc, ThreadPc.work]) (.inl rfl) ?_ ?_ ?_ rfl
  · intro l hhead _
    cases l with
    | nil => rfl
    | cons a rest => simpa using hhead a (by simp)
  · intro o' h
    obtain rfl : o = o' := by simpa [ThreadPc.detached] using h
    exact ⟨by rw [hpc]; rfl, .inr hfree⟩
  · intro o' h
    simpa [hpc, ThreadPc.past] using h
  · intro o' h
    obtain rfl : o = o' := by simpa [ThreadPc.past] using h
    exact hfree

/-! ### A sweep -/

/-- The cancel SQE of an operation is prepared, and its link is cleared. -/
theorem sweepCancel (hl : Linked cfg s own content priv) (hk : ∀ o, CallbackOk cfg s o) {b : Bucket}
    {r : Ring O} (hpc : s.thread t = .sweep b (some o)) :
    Relinked cfg ({ s.issue t r (.cancel o) with heap := s.heap.setNext o none }.setThread t
      (.sweep b (s.heap.next o))) own none (some o) := by
  obtain ⟨rest, hch⟩ := hl.chains.cancel hpc
  obtain ⟨l, hcons, -⟩ := chain_some.mp (hl.priv_ok hpc)
  have hown : own o = .thread t := (hl.chains.mem_priv t o).mp (by simp [hcons])
  exact ⟨_, _, _, ⟨{ hch with }, fun o' => (hl.ops o').cancel (hk o') hpc hown⟩, .update_nobody own o⟩

/-- The SQ ring is full, and the rest of the chain goes back. -/
theorem sweepFull (hl : Linked cfg s own content priv) {b : Bucket} (hpc : s.thread t = .sweep b (some o)) :
    Relinked cfg (s.setThread t (.sweepBack b (some o) .test)) own none lost := by
  have hok := hl.priv_ok hpc
  exact relinked (hl.setThread hok (.inr (by simp [hpc, ThreadPc.work]))
    (by simp [ThreadPc.detached]) (by simp [ThreadPc.past]) (by simp [hpc, ThreadPc.past])
    (by simp [ThreadPc.clean]))

theorem sweepBackDone (hl : Linked cfg s own content priv) (hc : Core s) {b : Bucket} {c : Bool}
    {first : Option O} {pc : PushAllPc O} {u : Unit} {h : Heap O (T × Bucket)}
    (hpc : s.thread t = .sweepBack b first pc)
    (hm : pushAllStep s.heap (t, b) first (fun _ => true) c pc = (h, .returned u)) :
    Relinked cfg ({ s with heap := h }.setThread t .idle) own none lost := by
  refine hl.pushAllReturned hc (hl.priv_ok hpc) hm ?_ (by simp [hpc, ThreadPc.work]) (.inr fun _ => rfl)
    (by simp [ThreadPc.detached]) (by simp [hpc, ThreadPc.past]) (by simp [ThreadPc.past]) rfl
  intro l hhead _
  cases l with
  | nil => rfl
  | cons a rest => simpa using hhead a (by simp)

end Linked

variable [DecidableEq S]

theorem step_linked {a : Label O T S} (hc : Core s) (hk : ∀ o, CallbackOk cfg s o)
    (hl : Linked cfg s own content priv) (h : Step cfg s a s') :
    Relinked cfg s' own (pushed cfg s a) (leftOut s a) := by
  cases h with
  | @start t o hpc hopen hst =>
      exact hl.settle (hl.priv_eq hpc fun _ h => h) ((hl.ops o).free (by simp [hst])) (by simp)
        (by simp [hpc, ThreadPc.past]) rfl rfl rfl rfl
  | @testStopped t o c hpc hstop =>
      have hst := hc.status_of_holds hpc rfl
      exact hl.settle (hl.priv_eq hpc fun _ h => h) ((hl.ops o).free (by simp [hst])) (by simp)
        (by simp [hpc, ThreadPc.past]) rfl rfl rfl rfl
  | @testPassed t o c hpc hstop => exact hl.testPassed hc (hk o) hpc hstop
  | @sqe t o c r hpc hr => exact hl.takeSqe hc (hk o) hpc
  | @full t o c hpc hr =>
      exact hl.goPlain (hl.priv_eq hpc fun _ h => h) (by rw [hpc]; rfl) rfl rfl rfl rfl
  | @installNothing t o c hpc htok =>
      exact hl.goPlain (hl.priv_eq hpc fun _ h => h) (by rw [hpc]; rfl) rfl rfl rfl rfl
  | @install t o c src hpc htok => exact hl.install hpc
  | @spawnThrows t o hpc =>
      have hst := hc.status_of_holds hpc rfl
      exact hl.settle (hl.priv_eq hpc fun _ h => h) ((hl.ops o).free (by simp [hst])) (by simp)
        (by simp [hpc, ThreadPc.past]) rfl rfl rfl rfl
  | @spawn t o hpc =>
      have hst := hc.status_of_holds hpc rfl
      exact hl.settle (hl.priv_eq hpc fun _ h => h) ((hl.ops o).free (by simp [hst])) (by simp)
        (by simp [hpc, ThreadPc.past]) rfl rfl rfl rfl
  | @reset t o res pass c hpc hcb => exact hl.reset hpc hcb
  | @moveAll t o res pass c pc pc' h hpc hm =>
      obtain rfl := moveAllStep_running hm
      exact hl.goPlain (hl.priv_eq hpc fun _ h => h) (by rw [hpc]; rfl) rfl rfl rfl rfl
  | @movedNothing t o res pass c pc h hpc hm => exact hl.movedNothing hc (hk o) hpc hm
  | @moved t o res pass c pc op h hpc hm => exact hl.moved hc (hk o) hpc hm
  | @before t o res pass c first pc pc' h hpc hm =>
      exact Linked.relinked (hl.pushAllRunning (hl.priv_ok hpc) hm (fun h => h) (by simp [hpc, ThreadPc.work])
        (by simp [hpc, ThreadPc.detached]) (by simp [hpc, ThreadPc.past]) rfl)
  | @beforeDone t o res pass c first pc u h hpc hm => exact hl.beforeDone hc (hk o) hpc hm
  | @next t o res pass c hpc =>
      have hleft : leftOut s (.thread t c) = some o := by simp [leftOut, hpc]
      rw [hleft]
      exact hl.uninstallNext hc (hk o) hpc
  | @after t o res pass c first pc pc' h hpc hm =>
      exact Linked.relinked (hl.pushAllRunning (hl.priv_ok hpc) hm (fun h => h) (by simp [hpc, ThreadPc.work])
        (by simp [hpc, ThreadPc.detached]) (by simp [hpc, ThreadPc.past]) rfl)
  | @afterDone t o res pass c first pc u h hpc hm => exact hl.afterDone hc (hk o) hpc hm
  | @restart t o res pass c hpc hd =>
      have hfree := (hl.ops o).past t (by rw [hpc]; rfl)
      exact hl.settle (hl.priv_eq hpc fun _ h => h) hfree (by simp)
        (by simp [hpc, ThreadPc.past, eq_comm]) rfl rfl rfl rfl
  | @complete t o res pass c sig hpc hd =>
      have hfree := (hl.ops o).past t (by rw [hpc]; rfl)
      exact hl.settle (hl.priv_eq hpc fun _ h => h) hfree (by simp)
        (by simp [hpc, ThreadPc.past, eq_comm]) rfl rfl rfl rfl
  | @sweepMove t b c pc pc' h hpc hm =>
      obtain rfl := moveAllStep_running hm
      exact hl.goPlain (hl.priv_eq hpc fun _ h => h) (by rw [hpc]; rfl) rfl rfl rfl rfl
  | @sweepMoved t b c pc op h hpc hm =>
      have hempty := hl.priv_eq hpc fun _ h => h
      exact hl.moveAllReturned hempty hm (fun l hch => hch) rfl (by simp [ThreadPc.detached])
        (by simp [ThreadPc.past]) (by simp [ThreadPc.past]) (by simp [hpc, ThreadPc.past]) rfl
  | @sweepEnd t b c hpc =>
      exact hl.goPlain (hl.priv_eq hpc fun _ h => chain_none.mp h) (by rw [hpc]; rfl) rfl rfl rfl rfl
  | @sweepCancel t b c op r hpc hr =>
      have hleft : leftOut s (.thread t c) = some op := by simp [leftOut, hpc]
      rw [hleft]
      exact hl.sweepCancel hk hpc
  | @sweepFull t b c op hpc hr => exact hl.sweepFull hpc
  | @sweepBack t b c first pc pc' h hpc hm =>
      exact Linked.relinked (hl.pushAllRunning (hl.priv_ok hpc) hm (fun h => h) (by simp [hpc, ThreadPc.work])
        (by simp [hpc, ThreadPc.detached]) (by simp [hpc, ThreadPc.past]) rfl)
  | @sweepBackDone t b c first pc u h hpc hm => exact hl.sweepBackDone hc hpc hm
  | @launch t o hpc hopen hst hscope =>
      exact hl.settle (hl.priv_eq hpc fun _ h => h) ((hl.ops o).free (by simp [hst])) (by simp)
        (by simp [hpc, ThreadPc.past]) rfl rfl rfl rfl
  | @launchStopped t o hpc hopen hst hscope =>
      exact Linked.relinked (hl.setStatus ((hl.ops o).free (by simp [hst])) (by simp))
  | @cancelTask t o hpc hopen hst =>
      exact Linked.relinked (hl.setStatus ((hl.ops o).free (by simp [hst])) (by simp))
  | @requestStop src =>
      exact Linked.relinked ⟨{ hl.chains with }, fun o => (hl.ops o).frame rfl rfl rfl rfl rfl
        stopRequested_mono (fun _ h => h) (fun _ _ => rfl) (fun _ h => h) (fun _ => Iff.rfl)
        fun _ h => h⟩
  | stopScope => exact Linked.relinked ⟨{ hl.chains with }, fun o => { hl.ops o with }⟩
  | @fire o hcb hstop => exact hl.fire hcb
  | @push o c pc pc' h hcb hm =>
      have hpushed : pushed cfg s (.push o c) = none := by simp [pushed, hcb, hm]
      rw [hpushed]
      exact hl.pushRunning hc (hk o) hcb hm
  | @pushed o c pc u h hcb hm =>
      have hpushed : pushed cfg s (.push o c) = some o := by simp [pushed, hcb, hm]
      rw [hpushed]
      exact hl.pushReturned hc (hk o) hcb hm
  | @submit t n hpc hopen => exact Linked.relinked ⟨{ hl.chains with }, fun o => { hl.ops o with }⟩
  | @cancelAny t r hpc hopen hr =>
      have hissue : ∀ o, LinkOk cfg { s with
          issued := Function.update s.issued t (.cancelAny :: s.issued t) } own o :=
        fun o => (hl.ops o).setIssued (by simp)
      exact Linked.relinked ⟨{ hl.chains with }, fun o => { hissue o with }⟩
  | @post t i res e r hr => exact Linked.relinked ⟨{ hl.chains with }, fun o => { hl.ops o with }⟩
  | @consumeNoop t pass res l hpc hopen hcq =>
      exact Linked.relinked ⟨{ hl.chains with }, fun o => { hl.ops o with }⟩
  | @consume t pass o res l hpc hopen hcq => exact hl.consume hpc
  | @sweep t b hpc hopen =>
      exact hl.goPlain (hl.priv_eq hpc fun _ h => h) (by rw [hpc]; rfl) rfl rfl rfl rfl
  | @close t hpc hopen => exact Linked.relinked ⟨{ hl.chains with }, fun o => { hl.ops o with }⟩

theorem reachable_linked (h : (machine cfg).Reachable s) :
    ∃ own content priv, Linked cfg s own content priv := by
  refine h.invariant (fun s => ∃ own content priv, Linked cfg s own content priv) ?_ ?_
  · intro s hinit
    exact ⟨_, _, _, init_chains hinit, init_linkOk hinit⟩
  · rintro s a s' hr ⟨own, content, priv, hl⟩ _ hs
    obtain ⟨own', content', priv', hl', -⟩ :=
      step_linked (reachable_core hr) (reachable_callbackOk hr) hl (.of_step hs)
    exact ⟨own', content', priv', hl'⟩

/-- Following the links of bucket `q` from its head comes across `o`. -/
def InBucket (s : State O T S) (q : T × Bucket) (o : O) : Prop :=
  ∃ l, Chain s.heap.next (s.heap.head q) l ∧ o ∈ l

omit [DecidableEq T] [DecidableEq S] in
theorem Linked.inBucket_iff (hl : Linked cfg s own content priv) {q : T × Bucket} :
    InBucket s q o ↔ own o = .bucket q := by
  rw [← hl.chains.mem_content]
  constructor
  · rintro ⟨l, hch, hmem⟩
    rwa [chain_unique (hl.chains.bucket_chain q) hch]
  · exact fun hmem => ⟨_, hl.chains.bucket_chain q, hmem⟩

/-- In every run a receiver gets at most one completion, every bucket is a chain
that visits an operation at most once, an operation is in at most one bucket, and
only while its request is on the ring of the same local and it is not completed. -/
theorem one_completion_one_bucket (h : (machine cfg).Reachable s) (o : O) :
    (s.signals o).length ≤ 1 ∧
      (∀ q, ∃ l, Chain s.heap.next (s.heap.head q) l ∧ l.count o ≤ 1) ∧
      (∀ q q', InBucket s q o → InBucket s q' o → q = q') ∧
      ∀ q, InBucket s q o → 0 < s.starts o ∧ s.signals o = [] ∧ s.status o = .onRing q.1 := by
  have hc := reachable_core h
  obtain ⟨own, content, priv, hl⟩ := reachable_linked h
  have hsignals := hc.signals o
  refine ⟨by rw [hsignals]; split <;> simp, ?_, ?_, ?_⟩
  · intro q
    have hch := hl.chains.bucket_chain q
    exact ⟨content q, hch, List.nodup_iff_count_le_one.mp (chain_nodup hch) o⟩
  · intro q q' hq hq'
    rw [hl.inBucket_iff] at hq hq'
    exact Owner.bucket.inj (hq.symm.trans hq')
  · intro q hq
    have hst := ((hl.ops o).bucket q (hl.inBucket_iff.mp hq)).1
    have htasks := hc.tasks o
    simp only [hst, TasksOk] at htasks
    obtain ⟨k, hk, -⟩ := htasks
    exact ⟨by omega, by simpa [hst] using hsignals, hst⟩

section Stop

/-- One stoppable operation and two threads. -/
def stopConfig : Config (Fin 1) (Fin 2) Unit where
  token _ := some ()
  bucket _ := robinAccess 3
  timer _ := false
  entries _ := 8

/-- The stop request arrives between the test of `start()` and the installation
of the callback, which runs at once and pushes the operation. -/
def stopRun : List (Label (Fin 1) (Fin 2) Unit) :=
  [.start 0 0, .thread 0 false, .requestStop (), .thread 0 false, .thread 0 false,
    .push 0 false, .push 0 false, .push 0 false]

def stopState : State (Fin 1) (Fin 2) Unit :=
  ((machine stopConfig).run leaveStart stopRun).getD leaveStart

theorem one_completion_one_bucket_stop :
    InBucket stopState (0, robinAccess 3) 0 ∧ stopState.signals 0 = [] ∧
      ∀ q, InBucket stopState q 0 → q = (0, robinAccess 3) := by
  have hrun : (machine stopConfig).run leaveStart stopRun = some stopState := rfl
  have hin : InBucket stopState (0, robinAccess 3) 0 := ⟨[0], ⟨rfl, rfl⟩, by simp⟩
  have h := one_completion_one_bucket (.of_run leaveStart_init hrun) 0
  exact ⟨hin, (h.2.2.2 _ hin).2.1, fun q hq => h.2.2.1 _ _ hq hin⟩

end Stop

end IoUring.Exec.Operation
