import IoUring.Exec.OperationCallback

/-!
# Where an operation is linked

The links of the stopping maps. Each operation is linked nowhere, in one
bucket, or in the chain that one thread has taken out of a bucket; only that
thread, or the callback that is about to push the operation, writes its link.
-/

namespace IoUring.Exec.Operation

variable {O T S : Type*}

inductive Owner (T : Type*) where
  | nobody
  | bucket (q : T × Bucket)
  | thread (t : T)

/-- The bucket index that a program works on. -/
def ThreadPc.work (cfg : Config O T S) : ThreadPc O → Option Bucket
  | .uninstall o _ _ _ => some (cfg.bucket o)
  | .sweepMove b _ => some b
  | .sweep b _ => some b
  | .sweepBack b _ _ => some b
  | _ => none

/-- The operation that `uninstall_stoppable_callback` has taken out of its bucket. -/
def ThreadPc.detached : ThreadPc O → Option O
  | .uninstall o _ _ (.before _ _) => some o
  | .uninstall o _ _ .next => some o
  | .uninstall o _ _ (.after _ _) => some o
  | .uninstall o _ _ .deliver => some o
  | _ => none

/-- The operation whose link `uninstall_stoppable_callback` has read for the last time. -/
def ThreadPc.past : ThreadPc O → Option O
  | .uninstall o _ _ (.after _ _) => some o
  | .uninstall o _ _ .deliver => some o
  | _ => none

/-- The operation that has passed the test of its stop token and has no callback yet. -/
def ThreadPc.clean : ThreadPc O → Option O
  | .getSqe o => some o
  | .install o => some o
  | _ => none

/-- A cancel SQE for `o` was taken from a ring after the newest SQE of `o`. -/
def CancelledAfter (issued : List (Sqe O)) (o : O) : Prop :=
  ∃ post pre, issued = post ++ .request o :: pre ∧ .request o ∉ post ∧ .cancel o ∈ post

theorem CancelledAfter.cons {issued : List (Sqe O)} {o : O} {e : Sqe O}
    (h : CancelledAfter issued o) (he : e ≠ .request o) : CancelledAfter (e :: issued) o := by
  obtain ⟨post, pre, rfl, hreq, hcancel⟩ := h
  exact ⟨e :: post, pre, rfl, by simp [hreq, Ne.symm he], by simp [hcancel]⟩

theorem cancelledAfter_cancel [DecidableEq O] {issued : List (Sqe O)} {o : O}
    (h : .request o ∈ issued) : CancelledAfter (.cancel o :: issued) o := by
  obtain ⟨post, pre, rfl, hreq⟩ := List.eq_append_cons_of_mem h
  exact ⟨.cancel o :: post, pre, rfl, by simp [hreq], by simp⟩

variable [DecidableEq O]

/-- The nodes `l` that a thread has taken out of a bucket, by its program counter. -/
def PrivOk (next : O → Option O) (l : List O) : ThreadPc O → Prop
  | .uninstall o _ _ (.before first pc) => PushAllOk next first (fun node => node ≠ o) l pc
  | .uninstall o _ _ .next => l = [] ∨ ∃ rest, l = o :: rest ∧ Chain next (next o) rest
  | .uninstall _ _ _ (.after first pc) => PushAllOk next first (fun _ => true) l pc
  | .sweep _ op => Chain next op l
  | .sweepBack _ first pc => PushAllOk next first (fun _ => true) l pc
  | _ => l = []

theorem PrivOk.congr {next next' : O → Option O} {l : List O} {pc : ThreadPc O}
    (h : PrivOk next l pc) (heq : ∀ a ∈ l, next' a = next a) : PrivOk next' l pc := by
  cases pc with
  | uninstall o res pass stage =>
      cases stage with
      | before first pc => exact PushAllOk.congr h heq
      | after first pc => exact PushAllOk.congr h heq
      | next =>
          obtain rfl | ⟨rest, rfl, hch⟩ := h
          · exact .inl rfl
          · refine .inr ⟨rest, rfl, ?_⟩
            rw [heq o (by simp)]
            exact hch.congr fun a ha => heq a (by simp [ha])
      | _ => exact h
  | sweep b op => exact Path.congr h heq
  | sweepBack b first pc => exact PushAllOk.congr h heq
  | _ => exact h

structure Chains (s : State O T S) (own : O → Owner T) (content : T × Bucket → List O)
    (priv : T → List O) : Prop where
  bucket_chain : ∀ q, Chain s.heap.next (s.heap.head q) (content q)
  private_ok : ∀ t, PrivOk s.heap.next (priv t) (s.thread t)
  mem_content : ∀ q o, o ∈ content q ↔ own o = .bucket q
  mem_priv : ∀ t o, o ∈ priv t ↔ own o = .thread t

/-- What the owner of an operation says about it. `stale`: a link that leads
somewhere is left behind only where a stop was requested, and until the
operation has left its ring only by the thread that completes or restarts it. -/
structure LinkOk (cfg : Config O T S) (s : State O T S) (own : O → Owner T) (o : O) : Prop where
  bucket : ∀ q, own o = .bucket q → s.status o = .onRing q.1 ∧ stoppingQueue cfg s o = q
  priv : ∀ t, own o = .thread t → s.status o = .onRing t ∧ s.localScheduler o = t ∧
    (s.thread t).work cfg = some (cfg.bucket o)
  stopped : own o ≠ .nobody → s.stopRequested cfg o = true
  ran : own o ≠ .nobody → s.callback o = .ran ∨ s.callback o = .none
  cas : ∀ node, s.callback o = .running (.cas node) → s.heap.next o = node
  detached : ∀ t, (s.thread t).detached = some o → ∀ q, own o ≠ .bucket q
  past : ∀ t, (s.thread t).past = some o → own o = .nobody
  clean : ∀ t, (s.thread t).clean = some o → own o = .nobody ∧ s.heap.next o = none
  stale : s.heap.next o ≠ none → own o = .nobody → (∀ pc, s.callback o ≠ .running pc) →
    s.stopRequested cfg o = true ∧ ∀ t, s.status o = .onRing t → (s.thread t).past = some o
  seen : s.callback o = .ran →
    own o ≠ .nobody ∨ CancelledAfter (s.issued (s.localScheduler o)) o

variable {cfg : Config O T S} {s s' : State O T S} {t : T} {o : O} {own : O → Owner T}
  {content : T × Bucket → List O} {priv : T → List O}

theorem init_chains (h : Init s) : Chains s (fun _ => .nobody) (fun _ => []) fun _ => [] := by
  obtain ⟨-, hhead, -, -, -, -, hthread, -⟩ := h
  exact ⟨fun q => by simp [hhead], fun t => by simp [hthread, PrivOk], by simp, by simp⟩

omit [DecidableEq O] in
theorem init_linkOk (h : Init s) (o : O) : LinkOk cfg s (fun _ => .nobody) o := by
  obtain ⟨hnext, -, -, hcallback, -, -, hthread, -⟩ := h
  constructor <;>
    simp_all [ThreadPc.detached, ThreadPc.past, ThreadPc.clean]

omit [DecidableEq O] in
theorem LinkOk.free (hl : LinkOk cfg s own o) (hst : ∀ t, s.status o ≠ .onRing t) :
    own o = .nobody := by
  cases h : own o with
  | nobody => rfl
  | bucket q => exact absurd (hl.bucket q h).1 (hst q.1)
  | thread t => exact absurd (hl.priv t h).1 (hst t)

omit [DecidableEq O] in
/-- An operation that the step does not touch. -/
theorem LinkOk.frame {own' : O → Owner T} (hl : LinkOk cfg s own o) (hown : own' o = own o)
    (hstatus : s'.status o = s.status o) (hcallback : s'.callback o = s.callback o)
    (hlocal : s'.localScheduler o = s.localScheduler o) (hnext : s'.heap.next o = s.heap.next o)
    (hstop : s.stopRequested cfg o = true → s'.stopRequested cfg o = true)
    (hissued : ∀ t, CancelledAfter (s.issued t) o → CancelledAfter (s'.issued t) o)
    (hwork : ∀ t, own o = .thread t → (s'.thread t).work cfg = (s.thread t).work cfg)
    (hdetached : ∀ t, (s'.thread t).detached = some o → (s.thread t).detached = some o)
    (hpast : ∀ t, (s'.thread t).past = some o ↔ (s.thread t).past = some o)
    (hclean : ∀ t, (s'.thread t).clean = some o → (s.thread t).clean = some o) :
    LinkOk cfg s' own' o where
  bucket := by simpa [hown, hstatus, stoppingQueue, hlocal] using hl.bucket
  priv := by
    intro t h
    rw [hown] at h
    rw [hstatus, hlocal, hwork t h]
    exact hl.priv t h
  stopped := fun h => hstop (hl.stopped (hown ▸ h))
  ran := fun h => hcallback ▸ hl.ran (hown ▸ h)
  cas := by simpa [hcallback, hnext] using hl.cas
  detached := fun t h => hown ▸ hl.detached t (hdetached t h)
  past := fun t h => hown ▸ hl.past t ((hpast t).mp h)
  clean := fun t h => by simpa [hown, hnext] using hl.clean t (hclean t h)
  stale := by
    intro h hno hrun
    rw [hnext] at h
    rw [hown] at hno
    obtain ⟨hreq, hst⟩ := hl.stale h hno (by simpa [hcallback] using hrun)
    exact ⟨hstop hreq, fun t ht => (hpast t).mpr (hst t (hstatus ▸ ht))⟩
  seen := by
    intro h
    rw [hown, hlocal]
    exact (hl.seen (hcallback ▸ h)).imp_right (hissued _)

variable [DecidableEq T]

omit [DecidableEq O] in
/-- The same, where only thread `t` moves. -/
theorem LinkOk.move {own' : O → Owner T} (hl : LinkOk cfg s own o) (t : T)
    (hthread : ∀ t', t' ≠ t → s'.thread t' = s.thread t') (hown : own' o = own o)
    (hstatus : s'.status o = s.status o) (hcallback : s'.callback o = s.callback o)
    (hlocal : s'.localScheduler o = s.localScheduler o) (hnext : s'.heap.next o = s.heap.next o)
    (hstop : s'.stopSource = s.stopSource)
    (hissued : ∀ t, CancelledAfter (s.issued t) o → CancelledAfter (s'.issued t) o)
    (hwork : own o = .thread t → (s'.thread t).work cfg = (s.thread t).work cfg)
    (hdetached : (s'.thread t).detached = some o → ∀ q, own o ≠ .bucket q)
    (hpast : (s'.thread t).past = some o → own o = .nobody)
    (hleave : (s.thread t).past = some o → s.status o = .onRing t → (s'.thread t).past = some o)
    (hclean : (s'.thread t).clean = some o → own o = .nobody ∧ s.heap.next o = none) :
    LinkOk cfg s' own' o where
  bucket := by simpa [hown, hstatus, stoppingQueue, hlocal] using hl.bucket
  priv := by
    intro t' h
    rw [hown] at h
    have hw : (s'.thread t').work cfg = (s.thread t').work cfg := by
      by_cases ht : t' = t
      · subst ht; exact hwork h
      · rw [hthread t' ht]
    rw [hstatus, hlocal, hw]
    exact hl.priv t' h
  stopped := by simpa [hown, State.stopRequested, hstop] using hl.stopped
  ran := fun h => hcallback ▸ hl.ran (hown ▸ h)
  cas := by simpa [hcallback, hnext] using hl.cas
  detached := by
    intro t' h
    rw [hown]
    by_cases ht : t' = t
    · subst ht; exact hdetached h
    · rw [hthread t' ht] at h
      exact hl.detached t' h
  past := by
    intro t' h
    rw [hown]
    by_cases ht : t' = t
    · subst ht; exact hpast h
    · rw [hthread t' ht] at h
      exact hl.past t' h
  clean := by
    intro t' h
    rw [hown, hnext]
    by_cases ht : t' = t
    · subst ht; exact hclean h
    · rw [hthread t' ht] at h
      exact hl.clean t' h
  stale := by
    intro h hno hrun
    rw [hnext] at h
    rw [hown] at hno
    obtain ⟨hreq, hst⟩ := hl.stale h hno (by simpa [hcallback] using hrun)
    refine ⟨by simpa [State.stopRequested, hstop] using hreq, fun t' ht' => ?_⟩
    rw [hstatus] at ht'
    by_cases ht : t' = t
    · subst ht; exact hleave (hst t' ht') ht'
    · rw [hthread t' ht]
      exact hst t' ht'
  seen := by
    intro h
    rw [hown, hlocal]
    exact (hl.seen (hcallback ▸ h)).imp_right (hissued _)

/-! ## Steps that keep every owner -/

/-- A thread moves on without touching links. -/
theorem Chains.setThread (hch : Chains s own content priv) {pc : ThreadPc O}
    (hpriv : PrivOk s.heap.next (priv t) pc) : Chains (s.setThread t pc) own content priv := by
  exact { hch with
    private_ok := by
      intro t'
      by_cases ht : t' = t
      · subst ht; simpa [State.setThread] using hpriv
      · simpa [State.setThread, ht] using hch.private_ok t' }

omit [DecidableEq O] in
theorem LinkOk.setThread (hl : LinkOk cfg s own o) {pc : ThreadPc O}
    (hwork : own o = .thread t → pc.work cfg = (s.thread t).work cfg)
    (hdetached : pc.detached = some o → ∀ q, own o ≠ .bucket q)
    (hpast : pc.past = some o → own o = .nobody)
    (hleave : (s.thread t).past = some o → s.status o = .onRing t → pc.past = some o)
    (hclean : pc.clean = some o → own o = .nobody ∧ s.heap.next o = none) :
    LinkOk cfg (s.setThread t pc) own o :=
  hl.move t (fun t' ht => by simp [State.setThread, ht]) rfl rfl rfl rfl rfl rfl (fun _ h => h)
    (by simpa [State.setThread] using hwork) (by simpa [State.setThread] using hdetached)
    (by simpa [State.setThread] using hpast) (by simpa [State.setThread] using hleave)
    (by simpa [State.setThread] using hclean)

omit [DecidableEq T] in
/-- An operation that is linked nowhere gets a new status. -/
theorem LinkOk.setStatus (hl : LinkOk cfg s own o) {o' : O} {st : Status T}
    (hfree : own o' = .nobody) (hnext : (∃ t, st = .onRing t) → s.heap.next o' = none) :
    LinkOk cfg { s with status := Function.update s.status o' st } own o := by
  by_cases ho : o = o'
  · subst ho
    exact { hl with
      bucket := fun q h => by simp [hfree] at h
      priv := fun t h => by simp [hfree] at h
      stale := by
        intro h hno hrun
        refine ⟨(hl.stale h hno hrun).1, fun t ht => ?_⟩
        exact absurd (hnext ⟨t, by simpa using ht⟩) h }
  · exact hl.frame rfl (by simp [ho]) rfl rfl rfl (fun h => h) (fun _ h => h) (fun _ _ => rfl)
      (fun _ h => h) (fun _ => Iff.rfl) fun _ h => h

omit [DecidableEq O] in
/-- An SQE is taken, and for no operation that still awaits its cancellation. -/
theorem LinkOk.setIssued (hl : LinkOk cfg s own o) {e : Sqe O}
    (he : e = .request o → s.callback o ≠ .ran) :
    LinkOk cfg { s with issued := Function.update s.issued t (e :: s.issued t) } own o := by
  exact { hl with
    seen := by
      intro h
      refine (hl.seen h).imp_right fun hc => ?_
      by_cases ht : s.localScheduler o = t
      · subst ht
        simpa using hc.cons fun heq => he heq h
      · simpa [ht] using hc }

/-! ## Steps of a stop callback -/

omit [DecidableEq T] in
/-- The callback is installed, or begins to run. -/
theorem LinkOk.setCallback (hl : LinkOk cfg s own o) {o' : O} {cb : Callback O} (loc : T)
    (hfree : own o' = .nobody) (hnew : cb = .registered ∨ cb = .running .load)
    (hnext : cb = .registered → s.heap.next o' = none) :
    LinkOk cfg { s with
      callback := Function.update s.callback o' cb
      localScheduler := Function.update s.localScheduler o' loc } own o := by
  by_cases ho : o = o'
  · subst ho
    exact { hl with
      bucket := fun q h => by simp [hfree] at h
      priv := fun t h => by simp [hfree] at h
      ran := fun h => absurd hfree h
      cas := by rcases hnew with rfl | rfl <;> simp
      stale := by
        intro h _ hrun
        rcases hnew with rfl | rfl
        · exact absurd (hnext rfl) h
        · exact absurd (by simp) (hrun .load)
      seen := by rcases hnew with rfl | rfl <;> simp }
  · exact hl.frame rfl rfl (by simp [ho]) (by simp [ho]) rfl (fun h => h) (fun _ h => h)
      (fun _ _ => rfl) (fun _ h => h) (fun _ => Iff.rfl) fun _ h => h

omit [DecidableEq T] in
/-- `stop_callback.reset()`. -/
theorem LinkOk.resetCallback (hl : LinkOk cfg s own o) {o' : O}
    (hcb : ∀ pc, s.callback o' ≠ .running pc) :
    LinkOk cfg { s with callback := Function.update s.callback o' .none } own o := by
  by_cases ho : o = o'
  · subst ho
    exact { hl with
      ran := fun _ => .inr (by simp)
      cas := by simp
      stale := fun h hno _ => hl.stale h hno hcb
      seen := by simp }
  · exact hl.frame rfl rfl (by simp [ho]) rfl rfl (fun h => h) (fun _ h => h)
      (fun _ _ => rfl) (fun _ h => h) (fun _ => Iff.rfl) fun _ h => h

omit [DecidableEq T] in
/-- The callback loads the head of its queue. -/
theorem LinkOk.pushLoad (hl : LinkOk cfg s own o) {o' : O} {pc : PushPc O} {node : Option O}
    (hcb : s.callback o' = .running pc) :
    LinkOk cfg { s with
      callback := Function.update s.callback o' (.running (.write node)) } own o := by
  by_cases ho : o = o'
  · subst ho
    exact { hl with
      ran := fun h => by
        rcases hl.ran h with h' | h' <;> simp [hcb] at h'
      cas := by simp
      stale := fun _ _ h => absurd (by simp) (h (.write node))
      seen := by simp }
  · exact hl.frame rfl rfl (by simp [ho]) rfl rfl (fun h => h) (fun _ h => h)
      (fun _ _ => rfl) (fun _ h => h) (fun _ => Iff.rfl) fun _ h => h

/-- While a callback runs, no thread has the operation in its hands beyond the
reset, before the SQE, or before the installation. -/
theorem running_apart (hc : Core s) (hk : CallbackOk cfg s o) {pc : PushPc O}
    (hcb : s.callback o = .running pc) (t : T) :
    (s.thread t).detached ≠ some o ∧ (s.thread t).past ≠ some o ∧ (s.thread t).clean ≠ some o := by
  obtain ⟨-, hst, hinst⟩ := hk.live (by simp [hcb])
  have hreset := hk.reset t
  have hbusy := (hc.busy t o).mp
  have hring := hc.installing t o
  cases hpc : s.thread t with
  | getSqe o' =>
      refine ⟨by simp [ThreadPc.detached], by simp [ThreadPc.past], ?_⟩
      intro h
      obtain rfl : o' = o := by simpa [ThreadPc.clean] using h
      simp [hpc, ThreadPc.holds, hst] at hbusy
  | install o' =>
      refine ⟨by simp [ThreadPc.detached], by simp [ThreadPc.past], ?_⟩
      intro h
      obtain rfl : o' = o := by simpa [ThreadPc.clean] using h
      have heq := hring hpc
      rw [hst] at heq
      exact hinst (Status.onRing.inj heq ▸ hpc)
  | uninstall o' res pass stage =>
      have hne (h : o' = o) : stage = .reset := by
        subst h
        by_contra hstage
        simpa [hcb] using hreset res pass stage hpc hstage
      cases stage <;> simp_all [ThreadPc.detached, ThreadPc.past, ThreadPc.clean]
  | _ => simp [ThreadPc.detached, ThreadPc.past, ThreadPc.clean]

omit [DecidableEq T] in
/-- `op->*Next = node` in `push`. -/
theorem Chains.pushWrite (hch : Chains s own content priv) {node : Option O}
    {cb : O → Callback O} (hfree : own o = .nobody) :
    Chains { s with heap := s.heap.setNext o node, callback := cb } own content priv := by
  exact { hch with
    bucket_chain := fun q => (hch.bucket_chain q).update fun h => by
      simpa [hfree] using (hch.mem_content q o).mp h
    private_ok := fun t => (hch.private_ok t).congr fun a ha => by
      have hne : a ≠ o := by
        rintro rfl
        simpa [hfree] using (hch.mem_priv t a).mp ha
      simp [hne] }

omit [DecidableEq T] in
theorem LinkOk.pushWrite (hl : LinkOk cfg s own o) {o' : O} {node : Option O}
    (hfree : own o' = .nobody) (hapart : ∀ t, (s.thread t).detached ≠ some o' ∧
      (s.thread t).past ≠ some o' ∧ (s.thread t).clean ≠ some o') :
    LinkOk cfg { s with
      heap := s.heap.setNext o' node
      callback := Function.update s.callback o' (.running (.cas node)) } own o := by
  by_cases ho : o = o'
  · subst ho
    exact { hl with
      ran := fun h => absurd hfree h
      cas := by simp
      clean := fun t h => absurd h (hapart t).2.2
      stale := fun _ _ h => absurd (by simp) (h (.cas node))
      seen := by simp }
  · exact hl.frame rfl rfl (by simp [ho]) rfl (by simp [ho]) (fun h => h) (fun _ h => h)
      (fun _ _ => rfl) (fun _ h => h) (fun _ => Iff.rfl) fun _ h => h

/-- A successful compare-exchange of `push`. -/
theorem Chains.pushed (hch : Chains s own content priv) {q : T × Bucket} {cb : O → Callback O}
    (hfree : own o = .nobody) (hnext : s.heap.next o = s.heap.head q) :
    Chains { s with heap := s.heap.setHead q (some o), callback := cb }
      (Function.update own o (.bucket q)) (Function.update content q (o :: content q)) priv := by
  exact { hch with
    bucket_chain := by
      intro q'
      by_cases hq : q' = q
      · subst hq
        simpa [hnext] using hch.bucket_chain q'
      · simpa [hq] using hch.bucket_chain q'
    mem_content := by
      intro q' a
      have h := hch.mem_content q' a
      by_cases ha : a = o
      · subst ha
        by_cases hq : q' = q
        · subst hq; simp
        · simp [hq, Ne.symm hq, h, hfree]
      · by_cases hq : q' = q
        · subst hq; simp [ha, h]
        · simp [ha, hq, h]
    mem_priv := by
      intro t a
      have h := hch.mem_priv t a
      by_cases ha : a = o
      · subst ha; simp [h, hfree]
      · simpa [ha] using h }

theorem LinkOk.pushed (hl : LinkOk cfg s own o) {o' : O} {q : T × Bucket}
    (hst : s.status o' = .onRing (s.localScheduler o')) (hq : q = stoppingQueue cfg s o')
    (hstop : s.stopRequested cfg o' = true) (hapart : ∀ t, (s.thread t).detached ≠ some o' ∧
      (s.thread t).past ≠ some o' ∧ (s.thread t).clean ≠ some o') :
    LinkOk cfg { s with
      heap := s.heap.setHead q (some o')
      callback := Function.update s.callback o' .ran } (Function.update own o' (.bucket q)) o := by
  by_cases ho : o = o'
  · subst ho
    exact { hl with
      bucket := by
        intro q' h
        obtain rfl : q = q' := by simpa using h
        exact ⟨by simp [hq, stoppingQueue, hst], hq.symm⟩
      priv := by simp
      stopped := fun _ => hstop
      ran := fun _ => .inl (by simp)
      cas := by simp
      detached := fun t h => absurd h (hapart t).1
      past := fun t h => absurd h (hapart t).2.1
      clean := fun t h => absurd h (hapart t).2.2
      stale := by simp
      seen := fun _ => .inl (by simp) }
  · exact hl.frame (by simp [ho]) rfl (by simp [ho]) rfl rfl (fun h => h) (fun _ h => h)
      (fun _ _ => rfl) (fun _ h => h) (fun _ => Iff.rfl) fun _ h => h

/-! ## Steps of a thread -/

/-- A thread writes at most nodes that it has taken out. -/
theorem Chains.threadStep (hch : Chains s own content priv) {h : Heap O (T × Bucket)}
    {pc : ThreadPc O} (hhead : h.head = s.heap.head)
    (hframe : ∀ a, a ∉ priv t → h.next a = s.heap.next a) (hpc : PrivOk h.next (priv t) pc) :
    Chains ({ s with heap := h }.setThread t pc) own content priv := by
  have hkeep (a : O) (h' : own a ≠ .thread t) : h.next a = s.heap.next a :=
    hframe a fun hp => h' ((hch.mem_priv t a).mp hp)
  exact { hch with
    bucket_chain := by
      intro q
      simp only [State.setThread, hhead]
      exact (hch.bucket_chain q).congr fun a ha => by
        have := (hch.mem_content q a).mp ha
        exact hkeep a (by simp [this])
    private_ok := by
      intro t'
      by_cases ht : t' = t
      · subst ht; simpa [State.setThread] using hpc
      · simp only [State.setThread, ne_eq, ht, not_false_eq_true, Function.update_of_ne]
        exact (hch.private_ok t').congr fun a ha => by
          have := (hch.mem_priv t' a).mp ha
          exact hkeep a (by simpa [this] using ht) }

/-- A step of a thread inside `push_all`, before its end. -/
theorem LinkOk.threadStep (hl : LinkOk cfg s own o) {h : Heap O (T × Bucket)} {pc : ThreadPc O}
    (hch : Chains s own content priv) (hframe : ∀ a, a ∉ priv t → h.next a = s.heap.next a)
    (hwork : pc.work cfg = (s.thread t).work cfg) (hdetached : pc.detached = (s.thread t).detached)
    (hpast : pc.past = (s.thread t).past) (hclean : pc.clean = none) :
    LinkOk cfg ({ s with heap := h }.setThread t pc) own o := by
  by_cases hown : own o = .thread t
  · -- the link of a node in hand does not matter to its owner
    have hthread (t' : T) : (Function.update s.thread t pc t').detached = (s.thread t').detached ∧
        (Function.update s.thread t pc t').past = (s.thread t').past ∧
        (Function.update s.thread t pc t').work cfg = (s.thread t').work cfg := by
      by_cases ht : t' = t
      · subst ht; simp [hwork, hdetached, hpast]
      · simp [ht]
    exact {
      bucket := hl.bucket
      priv := by
        intro t' h'
        obtain ⟨hst, hloc, hw⟩ := hl.priv t' h'
        exact ⟨hst, hloc, ((hthread t').2.2).trans hw⟩
      stopped := hl.stopped
      ran := hl.ran
      cas := by
        intro node hcb
        have hcb' : s.callback o = .running (.cas node) := hcb
        rcases hl.ran (by simp [hown]) with h' | h' <;> simp [hcb'] at h'
      detached := fun t' h' => hl.detached t' (((hthread t').1).symm.trans h')
      past := fun t' h' => hl.past t' (((hthread t').2.1).symm.trans h')
      clean := by
        intro t' h'
        by_cases ht : t' = t
        · subst ht; simp [State.setThread, hclean] at h'
        · have := (hl.clean t' (by simpa [State.setThread, ht] using h')).1
          simp [hown] at this
      stale := fun _ h' => by simp [hown] at h'
      seen := hl.seen }
  · exact hl.move t (fun t' ht => by simp [State.setThread, ht]) rfl rfl rfl rfl
      (hframe o fun hp => hown ((hch.mem_priv t o).mp hp)) rfl (fun _ h' => h')
      (fun _ => by simpa [State.setThread] using hwork)
      (fun h' => hl.detached t (by simpa [State.setThread, hdetached] using h'))
      (fun h' => hl.past t (by simpa [State.setThread, hpast] using h'))
      (fun h' _ => by simpa [State.setThread, hpast] using h')
      (fun h' => by simp [State.setThread, hclean] at h')

/-- A successful compare-exchange of `move_all` hands the chain of a bucket to
the thread. -/
theorem Chains.moveAll (hch : Chains s own content priv) {q : T × Bucket} {pc : ThreadPc O}
    (hempty : priv t = []) (hpc : PrivOk s.heap.next (content q) pc) :
    Chains ({ s with heap := s.heap.setHead q none }.setThread t pc)
      (fun a => if a ∈ content q then .thread t else own a) (Function.update content q [])
      (Function.update priv t (content q)) := by
  have hnone (a : O) : own a ≠ .thread t := by
    intro h
    simpa [hempty] using (hch.mem_priv t a).mpr h
  exact {
    bucket_chain := by
      intro q'
      by_cases hq : q' = q
      · subst hq; simp [State.setThread]
      · simpa [State.setThread, hq] using hch.bucket_chain q'
    private_ok := by
      intro t'
      by_cases ht : t' = t
      · subst ht; simpa [State.setThread] using hpc
      · simpa [State.setThread, ht] using hch.private_ok t'
    mem_content := by
      intro q' a
      have h := hch.mem_content q' a
      have h' := hch.mem_content q a
      by_cases hq : q' = q
      · subst hq
        by_cases ha : a ∈ content q' <;> simp [ha, ← h]
      · by_cases ha : a ∈ content q
        · have hne : own a ≠ .bucket q' := by simp [h'.mp ha, Ne.symm hq]
          simp [hq, ha, h, hne]
        · simp [hq, ha, h]
    mem_priv := by
      intro t' a
      have h := hch.mem_priv t' a
      have h' := hch.mem_content q a
      by_cases ht : t' = t
      · subst ht
        by_cases ha : a ∈ content q <;> simp [ha, hnone]
      · by_cases ha : a ∈ content q
        · have hne : own a ≠ .thread t' := by simp [h'.mp ha]
          simp [ht, ha, h, hne, Ne.symm ht]
        · simp [ht, ha, h] }

theorem LinkOk.moveAll (hl : LinkOk cfg s own o) (hch : Chains s own content priv) {b : Bucket}
    {pc : ThreadPc O} (hempty : priv t = []) (hwork : pc.work cfg = some b)
    (hdetached : ∀ o, pc.detached = some o → cfg.bucket o = b ∧ s.localScheduler o = t)
    (hpast : ∀ o, pc.past = some o → own o = .nobody) (hold : (s.thread t).past = none)
    (hclean : pc.clean = none) :
    LinkOk cfg ({ s with heap := s.heap.setHead (t, b) none }.setThread t pc)
      (fun a => if a ∈ content (t, b) then .thread t else own a) o := by
  by_cases ho : o ∈ content (t, b)
  · have hown := (hch.mem_content (t, b) o).mp ho
    obtain ⟨hst, hq⟩ := hl.bucket (t, b) hown
    have hlocal : s.localScheduler o = t := congrArg Prod.fst hq
    have hbucket : cfg.bucket o = b := congrArg Prod.snd hq
    exact {
      bucket := by simp [ho]
      priv := by
        intro t' h
        obtain rfl : t = t' := by simpa [ho] using h
        exact ⟨hst, hlocal, by simp [State.setThread, hwork, hbucket]⟩
      stopped := fun _ => hl.stopped (by simp [hown])
      ran := fun _ => hl.ran (by simp [hown])
      cas := hl.cas
      detached := by simp [ho]
      past := by
        intro t' h
        have hnobody : own o = .nobody := by
          by_cases ht : t' = t
          · subst ht; exact hpast o (by simpa [State.setThread] using h)
          · exact hl.past t' (by simpa [State.setThread, ht] using h)
        simp [hown] at hnobody
      clean := by
        intro t' h
        have ht : t' ≠ t := by
          rintro rfl
          simp [State.setThread, hclean] at h
        have hnobody := (hl.clean t' (by simpa [State.setThread, ht] using h)).1
        simp [hown] at hnobody
      stale := by simp [ho]
      seen := by simp [ho] }
  · refine hl.move t (fun t' ht => by simp [State.setThread, ht]) (by simp [ho]) rfl rfl rfl rfl rfl
      (fun _ h => h) ?_ ?_ (fun h => hpast o (by simpa [State.setThread] using h)) ?_ ?_
    · intro h
      simpa [hempty] using (hch.mem_priv t o).mpr h
    · -- the operation that is being taken out was in this bucket or in none
      intro h q hq
      obtain ⟨hb, hloc⟩ := hdetached o (by simpa [State.setThread] using h)
      obtain ⟨-, hq'⟩ := hl.bucket q hq
      have heq : q = (t, b) := by rw [← hq', stoppingQueue, hb, hloc]
      exact ho ((hch.mem_content (t, b) o).mpr (heq ▸ hq))
    · simp [hold]
    · simp [State.setThread, hclean]

/-- A successful compare-exchange of `push_all`: a segment of the nodes in hand
goes back to the bucket. -/
theorem Chains.pushAll (hch : Chains s own content priv) {q : T × Bucket}
    {h : Heap O (T × Bucket)} {pc : ThreadPc O} {seg rest : List O} (hl : priv t = seg ++ rest)
    (hnd : (priv t).Nodup) (hnext : h.next = s.heap.next)
    (hother : ∀ q', q' ≠ q → h.head q' = s.heap.head q')
    (hself : Chain h.next (h.head q) (seg ++ content q)) (hpc : PrivOk h.next rest pc) :
    Chains ({ s with heap := h }.setThread t pc)
      (fun a => if a ∈ seg then .bucket q else own a) (Function.update content q (seg ++ content q))
      (Function.update priv t rest) := by
  have hseg (a : O) (ha : a ∈ seg) : own a = .thread t := (hch.mem_priv t a).mp (by simp [hl, ha])
  exact {
    bucket_chain := by
      intro q'
      by_cases hq : q' = q
      · subst hq; simpa [State.setThread] using hself
      · simpa [State.setThread, hq, hother q' hq, hnext] using hch.bucket_chain q'
    private_ok := by
      intro t'
      by_cases ht : t' = t
      · subst ht; simpa [State.setThread] using hpc
      · simpa [State.setThread, ht, hnext] using hch.private_ok t'
    mem_content := by
      intro q' a
      have h := hch.mem_content q' a
      by_cases ha : a ∈ seg
      · have hne : a ∉ content q' := by simp [h, hseg a ha]
        by_cases hq : q' = q
        · subst hq; simp [ha]
        · simp [hq, Ne.symm hq, ha, hne]
      · by_cases hq : q' = q
        · subst hq; simp [ha, h]
        · simp [hq, ha, h]
    mem_priv := by
      intro t' a
      have h := hch.mem_priv t' a
      by_cases ht : t' = t
      · subst ht
        by_cases ha : a ∈ seg
        · have hne : a ∉ rest := by
            rw [hl, List.nodup_append] at hnd
            exact fun hr => hnd.2.2 a ha a hr rfl
          simp [ha, hne]
        · simp [ha, ← h, hl]
      · by_cases ha : a ∈ seg
        · have hne : a ∉ priv t' := by simpa [h, hseg a ha] using Ne.symm ht
          simp [ht, ha, hne]
        · simp [ht, ha, h] }

theorem status_of_detached (hc : Core s) (h : (s.thread t).detached = some o) :
    s.status o = .onRing t := by
  cases hpc : s.thread t with
  | uninstall o' res pass stage =>
      have ho : o' = o := by cases stage <;> simp_all [ThreadPc.detached]
      exact hc.status_of_uninstall (ho ▸ hpc)
  | _ => simp [hpc, ThreadPc.detached] at h

theorem LinkOk.pushAll (hl : LinkOk cfg s own o) (hch : Chains s own content priv) (hc : Core s)
    {b : Bucket} {h : Heap O (T × Bucket)} {pc : ThreadPc O} {seg rest : List O}
    (hpriv : priv t = seg ++ rest) (hnext : h.next = s.heap.next)
    (hold : (s.thread t).work cfg = some b) (hwork : rest ≠ [] → pc.work cfg = some b)
    (hdetached : ∀ o, pc.detached = some o → (s.thread t).detached = some o ∧ o ∉ seg)
    (hleave : ∀ o, (s.thread t).past = some o → pc.past = some o)
    (hpast : ∀ o, pc.past = some o → own o = .nobody) (hclean : pc.clean = none) :
    LinkOk cfg ({ s with heap := h }.setThread t pc)
      (fun a => if a ∈ seg then .bucket (t, b) else own a) o := by
  by_cases ho : o ∈ seg
  · have hown : own o = .thread t := (hch.mem_priv t o).mp (by simp [hpriv, ho])
    obtain ⟨hst, hlocal, hw⟩ := hl.priv t hown
    obtain rfl : b = cfg.bucket o := by simpa [hold] using hw
    exact {
      bucket := by
        intro q hq
        obtain rfl : (t, cfg.bucket o) = q := by simpa [ho] using hq
        exact ⟨hst, by simp [State.setThread, stoppingQueue, hlocal]⟩
      priv := by simp [ho]
      stopped := fun _ => hl.stopped (by simp [hown])
      ran := fun _ => hl.ran (by simp [hown])
      cas := by
        intro node hcb
        have hcb' : s.callback o = .running (.cas node) := hcb
        rcases hl.ran (by simp [hown]) with h' | h' <;> simp [hcb'] at h'
      detached := by
        intro t' h'
        by_cases ht : t' = t
        · subst ht; exact absurd ho (hdetached o (by simpa [State.setThread] using h')).2
        · have hst' := status_of_detached hc (o := o) (t := t') (by simpa [State.setThread, ht] using h')
          exact absurd (Status.onRing.inj (hst'.symm.trans hst)) ht
      past := by
        intro t' h'
        have hnobody : own o = .nobody := by
          by_cases ht : t' = t
          · subst ht; exact hpast o (by simpa [State.setThread] using h')
          · exact hl.past t' (by simpa [State.setThread, ht] using h')
        simp [hown] at hnobody
      clean := by
        intro t' h'
        have ht : t' ≠ t := by
          rintro rfl
          simp [State.setThread, hclean] at h'
        have hnobody := (hl.clean t' (by simpa [State.setThread, ht] using h')).1
        simp [hown] at hnobody
      stale := by simp [ho]
      seen := by simp [ho] }
  · refine hl.move t (fun t' ht => by simp [State.setThread, ht]) (by simp [ho]) rfl rfl rfl
      (by simp [State.setThread, hnext]) rfl (fun _ h => h) ?_ ?_
      (fun h' => hpast o (by simpa [State.setThread] using h')) ?_ ?_
    · intro hown
      have hmem : o ∈ seg ++ rest := hpriv ▸ (hch.mem_priv t o).mpr hown
      have hne : rest ≠ [] := by
        rintro rfl
        simp [ho] at hmem
      simp [State.setThread, hwork hne, hold]
    · intro h'
      exact hl.detached t (hdetached o (by simpa [State.setThread] using h')).1
    · intro h' _
      simpa [State.setThread] using hleave o h'
    · simp [State.setThread, hclean]

/-- `q.next(this)`: the operation itself is left out of what goes back. -/
theorem Chains.next (hch : Chains s own content priv) {res : Int} {pass : Pass}
    (hpc : s.thread t = .uninstall o res pass .next) (hown : ∀ q, own o ≠ .bucket q)
    (hring : ∀ t', own o = .thread t' → t' = t)
    (hnext : own o = .nobody → s.heap.next o = none) :
    ∃ rest, Chains (s.setThread t (.uninstall o res pass (.after (s.heap.next o) .test)))
      (Function.update own o .nobody) content (Function.update priv t rest) := by
  have hpriv := hch.private_ok t
  rw [hpc] at hpriv
  -- without the operation in hand, nothing is in hand and its link is null
  obtain ⟨rest, hrest, hmem⟩ : ∃ rest, Chain s.heap.next (s.heap.next o) rest ∧
      ∀ a, a ∈ rest ↔ a ∈ priv t ∧ a ≠ o := by
    obtain hnil | ⟨rest, hcons, hrest⟩ := hpriv
    · have hnot : own o ≠ .thread t := by
        intro h
        simpa [hnil] using (hch.mem_priv t o).mpr h
      refine ⟨[], ?_, by simp [hnil]⟩
      apply hnext
      cases h : own o with
      | nobody => rfl
      | bucket q => exact absurd h (hown q)
      | thread t' => exact absurd (hring t' h ▸ h) hnot
    · have hnd : (o :: rest).Nodup := chain_nodup (p := some o) ⟨rfl, hrest⟩
      refine ⟨rest, hrest, fun a => ?_⟩
      rw [List.nodup_cons] at hnd
      rw [hcons]
      constructor
      · intro ha
        refine ⟨by simp [ha], ?_⟩
        rintro rfl
        exact hnd.1 ha
      · rintro ⟨ha, hne⟩
        simpa [hne] using ha
  refine ⟨rest, ?_⟩
  exact {
    bucket_chain := hch.bucket_chain
    private_ok := by
      intro t'
      by_cases ht : t' = t
      · subst ht; simpa [State.setThread, PrivOk, PushAllOk] using hrest
      · simpa [State.setThread, ht] using hch.private_ok t'
    mem_content := by
      intro q a
      by_cases ha : a = o
      · subst ha; simp [hch.mem_content, hown q]
      · simp [ha, hch.mem_content]
    mem_priv := by
      intro t' a
      by_cases ha : a = o
      · subst ha
        by_cases ht : t' = t
        · subst ht; simp [hmem]
        · have hne : own a ≠ .thread t' := fun h => ht (hring t' h)
          simp [ht, hch.mem_priv, hne]
      · by_cases ht : t' = t
        · subst ht; simp [ha, hmem, hch.mem_priv]
        · simp [ha, ht, hch.mem_priv] }

theorem LinkOk.next {o' : O} (hl : LinkOk cfg s own o') {res : Int} {pass : Pass}
    (hpc : s.thread t = .uninstall o res pass .next) (hst : s.status o = .onRing t)
    (hcb : s.callback o = .none) (hclean : ∀ t, (s.thread t).clean ≠ some o)
    (hdetached : ∀ q, own o ≠ .bucket q) (hnext : own o = .nobody → s.heap.next o = none) :
    LinkOk cfg (s.setThread t (.uninstall o res pass (.after (s.heap.next o) .test)))
      (Function.update own o .nobody) o' := by
  by_cases ho : o' = o
  · subst ho
    exact {
      bucket := by simp
      priv := by simp
      stopped := by simp
      ran := by simp
      cas := by simp [State.setThread, hcb]
      detached := by simp
      past := by simp
      clean := by
        intro t' h
        have ht : t' ≠ t := by
          rintro rfl
          simp [State.setThread, ThreadPc.clean] at h
        exact absurd (by simpa [State.setThread, ht] using h) (hclean t')
      stale := by
        intro h _ _
        refine ⟨hl.stopped fun hno => h (hnext hno), fun t' ht' => ?_⟩
        obtain rfl := Status.onRing.inj (hst.symm.trans ht')
        simp [State.setThread, ThreadPc.past]
      seen := by simp [State.setThread, hcb] }
  · exact hl.move t (fun t' ht => by simp [State.setThread, ht]) (by simp [ho]) rfl rfl rfl rfl rfl
      (fun _ h => h) (by simp [State.setThread, hpc, ThreadPc.work])
      (by simp [State.setThread, ThreadPc.detached, Ne.symm ho])
      (by simp [State.setThread, ThreadPc.past, Ne.symm ho])
      (by simp [hpc, ThreadPc.past])
      (by simp [State.setThread, ThreadPc.clean])

/-- `q.clear(op)` after its cancel SQE was prepared. -/
theorem Chains.cancel (hch : Chains s own content priv) {b : Bucket}
    (hpc : s.thread t = .sweep b (some o)) :
    ∃ rest, Chains ({ s with heap := s.heap.setNext o none }.setThread t
      (.sweep b (s.heap.next o))) (Function.update own o .nobody) content
        (Function.update priv t rest) := by
  have hpriv := hch.private_ok t
  rw [hpc] at hpriv
  obtain ⟨rest, hcons, hrest⟩ := chain_some.mp hpriv
  have hnd : (o :: rest).Nodup := hcons ▸ chain_nodup hpriv
  rw [List.nodup_cons] at hnd
  have hown : own o = .thread t := (hch.mem_priv t o).mp (by simp [hcons])
  refine ⟨rest, ?_⟩
  exact {
    bucket_chain := fun q => (hch.bucket_chain q).update fun h => by
      simpa [hown] using (hch.mem_content q o).mp h
    private_ok := by
      intro t'
      by_cases ht : t' = t
      · subst ht
        simpa [State.setThread, PrivOk] using hrest.update hnd.1
      · simp only [State.setThread, ne_eq, ht, not_false_eq_true, Function.update_of_ne]
        refine (hch.private_ok t').congr fun a ha => ?_
        have hne : a ≠ o := by
          rintro rfl
          have h := (hch.mem_priv t' a).mp ha
          rw [hown] at h
          exact ht (Owner.thread.inj h).symm
        simp [hne]
    mem_content := by
      intro q a
      by_cases ha : a = o
      · subst ha; simp [hch.mem_content, hown]
      · simp [ha, hch.mem_content]
    mem_priv := by
      intro t' a
      have h := hch.mem_priv t' a
      by_cases ha : a = o
      · subst ha
        by_cases ht : t' = t
        · subst ht; simp [hnd.1]
        · simp [ht, h, hown, Ne.symm ht]
      · by_cases ht : t' = t
        · subst ht; simpa [ha, hcons] using h
        · simpa [ha, ht] using h }

theorem LinkOk.cancel {o' : O} (hl : LinkOk cfg s own o') (hk : CallbackOk cfg s o') {b : Bucket} {r : Ring O}
    (hpc : s.thread t = .sweep b (some o)) (hown : own o = .thread t) :
    LinkOk cfg ({ s.issue t r (.cancel o) with heap := s.heap.setNext o none }.setThread t
      (.sweep b (s.heap.next o))) (Function.update own o .nobody) o' := by
  by_cases ho : o' = o
  · subst ho
    obtain ⟨hst, hlocal, -⟩ := hl.priv t hown
    exact {
      bucket := by simp
      priv := by simp
      stopped := by simp
      ran := by simp
      cas := by
        intro node hcb
        have hcb' : s.callback o' = .running (.cas node) := hcb
        rcases hl.ran (by simp [hown]) with h' | h' <;> simp [hcb'] at h'
      detached := by simp
      past := by simp
      clean := by
        intro t' h
        have ht : t' ≠ t := by
          rintro rfl
          simp [State.setThread, ThreadPc.clean] at h
        have hnobody := (hl.clean t' (by simpa [State.setThread, State.issue, ht] using h)).1
        simp [hown] at hnobody
      stale := by simp [State.setThread]
      seen := by
        intro _
        refine .inr ?_
        have hreq := hk.issued t hst
        simpa [State.setThread, State.issue, hlocal] using cancelledAfter_cancel hreq }
  · refine hl.move t (fun t' ht => by simp [State.setThread, State.issue, ht]) (by simp [ho]) rfl rfl
      rfl (by simp [State.setThread, ho]) rfl ?_ (by simp [State.setThread, hpc, ThreadPc.work])
      (by simp [State.setThread, ThreadPc.detached]) (by simp [State.setThread, ThreadPc.past])
      (by simp [hpc, ThreadPc.past]) (by simp [State.setThread, ThreadPc.clean])
    intro t' h
    by_cases ht : t' = t
    · subst ht; simpa [State.setThread, State.issue] using h.cons (by simp)
    · simpa [State.setThread, State.issue, ht] using h

end IoUring.Exec.Operation
