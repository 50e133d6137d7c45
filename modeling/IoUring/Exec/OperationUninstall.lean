import IoUring.Base.Linearize
import IoUring.Exec.OperationStopping

/-!
# `uninstall_stoppable_callback` removes its own operation

The call takes the whole bucket, pushes back what precedes its operation, and
then what the link of the operation leads to. While it runs, stop callbacks on
other threads push further operations into the bucket. The operations that
belong to the bucket and are linked somewhere stay the same over the call, but
for the pushes and for the operation itself.
-/

namespace IoUring.Exec.Operation

variable {O T S : Type*} [DecidableEq O] [DecidableEq T] [DecidableEq S]

/-- A push onto queue `q`. -/
def pushedTo (cfg : Config O T S) (q : T × Bucket) (s : State O T S) (a : Label O T S) :
    Option O :=
  (pushed cfg s a).filter fun o => stoppingQueue cfg s o = q

/-- `o` belongs to queue `q` and is in it or in the hands of the thread of `q`. -/
def Held (cfg : Config O T S) (s : State O T S) (own : O → Owner T) (q : T × Bucket) (o : O) :
    Prop :=
  own o ≠ .nobody ∧ stoppingQueue cfg s o = q

variable {cfg : Config O T S} {s s' : State O T S} {t : T} {o x : O} {own own' : O → Owner T}
  {content content' : T × Bucket → List O} {priv priv' : T → List O} {q : T × Bucket}
  {a : Label O T S} {as : List (Label O T S)}

omit [DecidableEq S] in
theorem pushedTo_eq_some :
    pushedTo cfg q s a = some x ↔ pushed cfg s a = some x ∧ stoppingQueue cfg s x = q := by
  simp [pushedTo, Option.filter_eq_some_iff]

/-! ## The operations of a queue over one step -/

omit [DecidableEq T] [DecidableEq S] in
theorem Held.status (h : Held cfg s own q x) (hl : Linked cfg s own content priv) :
    s.status x = .onRing q.1 := by
  obtain ⟨hne, rfl⟩ := h
  cases hown : own x with
  | nobody => exact absurd hown hne
  | bucket q' =>
      obtain ⟨hst, hq⟩ := (hl.ops x).bucket q' hown
      rw [hst, hq]
  | thread t' =>
      obtain ⟨hst, hlocal, -⟩ := (hl.ops x).priv t' hown
      rw [hst, ← hlocal]
      rfl

omit [DecidableEq T] [DecidableEq S] in
/-- While the thread of a queue has nothing in hand, all that belongs to the queue is in it. -/
theorem Linked.held_iff (hl : Linked cfg s own content priv) (hempty : priv q.1 = []) :
    Held cfg s own q x ↔ InBucket s q x := by
  rw [hl.inBucket_iff]
  constructor
  · intro h
    have hst := h.status hl
    cases hown : own x with
    | nobody => exact absurd hown h.1
    | bucket q' => rw [← h.2, ((hl.ops x).bucket q' hown).2]
    | thread t' =>
        have ht := Status.onRing.inj (hst.symm.trans ((hl.ops x).priv t' hown).1)
        have hmem := (hl.chains.mem_priv t' x).mpr hown
        rw [← ht, hempty] at hmem
        cases hmem
  · intro hown
    exact ⟨by simp [hown], ((hl.ops x).bucket q hown).2⟩

/-- A queue is written into an operation only between its SQE and its callback. -/
theorem Step.stoppingQueue_eq (h : Step cfg s a s') (x : O) :
    stoppingQueue cfg s' x = stoppingQueue cfg s x ∨
      ∃ t c, a = .thread t c ∧ s.thread t = .install x := by
  cases h with
  | @install t o c src hpc htok =>
      by_cases hx : x = o
      · exact .inr ⟨t, c, rfl, hx ▸ hpc⟩
      · left
        simp [stoppingQueue, State.setThread, hx]
  | _ => exact .inl rfl

omit [DecidableEq O] [DecidableEq T] [DecidableEq S] in
theorem leftOut_eq_some (h : leftOut s a = some x) : ∃ t c, a = .thread t c ∧
    ((∃ res pass, s.thread t = .uninstall x res pass .next) ∨
      ∃ b, s.thread t = .sweep b (some x)) := by
  cases a with
  | thread t c =>
      refine ⟨t, c, rfl, ?_⟩
      simp only [leftOut] at h
      split at h
      · next hpc =>
          obtain rfl := Option.some.inj h
          exact .inl ⟨_, _, hpc⟩
      · next hpc =>
          subst h
          exact .inr ⟨_, hpc⟩
      · cases h
  | _ => cases h

/-- While its thread uninstalls `o`, a queue loses no other operation and gains those that
are pushed onto it. -/
theorem held_step (hc : Core s) (hl : Linked cfg s own content priv)
    (hos : OwnerStep own own' (pushed cfg s a) (leftOut s a)) (h : Step cfg s a s')
    {res : Int} {pass : Pass} {stage : Uninstall O}
    (hpc : s.thread q.1 = .uninstall o res pass stage) (hx : x ≠ o) :
    Held cfg s' own' q x ↔ Held cfg s own q x ∨ pushedTo cfg q s a = some x := by
  have hqueue (hlinked : own x ≠ .nobody ∨ own' x ≠ .nobody) :
      stoppingQueue cfg s' x = stoppingQueue cfg s x := by
    rcases h.stoppingQueue_eq x with heq | ⟨t, c, rfl, hinst⟩
    · exact heq
    · -- an operation without a callback is linked nowhere, and a thread pushes nothing
      have hfree := ((hl.ops x).clean t (by rw [hinst]; rfl)).1
      rcases hlinked with hne | hne
      · exact absurd hfree hne
      · exact absurd (hos.fresh x hfree hne) nofun
  constructor
  · rintro ⟨hne, hq⟩
    rw [hqueue (.inr hne)] at hq
    by_cases hfree : own x = .nobody
    · exact .inr (pushedTo_eq_some.mpr ⟨hos.fresh x hfree hne, hq⟩)
    · exact .inl ⟨hfree, hq⟩
  · rintro (hheld | hpushed)
    · refine ⟨fun hfree => ?_, hqueue (.inl hheld.1) ▸ hheld.2⟩
      obtain ⟨t, c, rfl, ⟨res', pass', hnext⟩ | ⟨b, hsweep⟩⟩ :=
        leftOut_eq_some (hos.kept x hheld.1 hfree)
      · have hst := (hheld.status hl).symm.trans (hc.status_of_uninstall hnext)
        rw [Status.onRing.inj hst, hnext] at hpc
        simp [hx] at hpc
      · have hpriv := hl.chains.private_ok t
        rw [hsweep] at hpriv
        obtain ⟨rest, hcons, -⟩ := chain_some.mp hpriv
        have hown := (hl.chains.mem_priv t x).mp (by simp [hcons])
        have hst := (hheld.status hl).symm.trans ((hl.ops x).priv t hown).1
        rw [Status.onRing.inj hst, hsweep] at hpc
        cases hpc
    · obtain ⟨hgained, hq⟩ := pushedTo_eq_some.mp hpushed
      have hne := hos.gained x hgained
      exact ⟨hne, hqueue (.inr hne) ▸ hq⟩

/-! ## The whole call -/

/-- Only a CQE begins an uninstallation. -/
theorem Step.inside (h : Step cfg s a s') (hcall : ∀ pass, a ≠ .consume t pass) {res : Int}
    {pass : Pass} {stage' : Uninstall O} (hpc : s'.thread t = .uninstall o res pass stage') :
    ∃ stage, s.thread t = .uninstall o res pass stage := by
  cases h <;>
    simp only [State.setThread, State.signal, State.issue, State.finishTask, State.enterStart]
      at hpc <;>
    grind

theorem run_inside (hrun : (machine cfg).run s as = some s') (hcall : ∀ pass, .consume t pass ∉ as)
    {res : Int} {pass : Pass} {stage' : Uninstall O}
    (hpc : s'.thread t = .uninstall o res pass stage') :
    ∃ stage, s.thread t = .uninstall o res pass stage := by
  induction as generalizing s with
  | nil =>
      obtain rfl : s = s' := by simpa using hrun
      exact ⟨_, hpc⟩
  | cons a as ih =>
      obtain ⟨u, hu, hrun⟩ := (machine cfg).run_cons_some.mp hrun
      obtain ⟨stage, hstage⟩ := ih hrun fun pass h => hcall pass (by simp [h])
      exact (Step.of_step hu).inside (fun pass h => hcall pass (by simp [h])) hstage

/-- Over a stretch of a call, the other operations of the queue stay, and those that are
pushed onto it are added. -/
theorem held_run (hr : (machine cfg).Reachable s) (hl : Linked cfg s own content priv)
    (hrun : (machine cfg).run s as = some s') (hcall : ∀ pass, .consume q.1 pass ∉ as)
    {res : Int} {pass : Pass} {stage' : Uninstall O}
    (hret : s'.thread q.1 = .uninstall o res pass stage') :
    ∃ own' content' priv', Linked cfg s' own' content' priv' ∧ ∀ x, x ≠ o →
      (Held cfg s' own' q x ↔
        Held cfg s own q x ∨ x ∈ (machine cfg).history (pushedTo cfg q) s as) := by
  induction as generalizing s own content priv with
  | nil =>
      obtain rfl : s = s' := by simpa using hrun
      exact ⟨own, content, priv, hl, fun x _ => by simp [Machine.history]⟩
  | cons a as ih =>
      have hall := hrun
      obtain ⟨u, hu, hrun⟩ := (machine cfg).run_cons_some.mp hrun
      obtain ⟨stage, hpc⟩ := run_inside hall hcall hret
      have hstep := Step.of_step hu
      obtain ⟨own₁, content₁, priv₁, hl₁, hos⟩ :=
        step_linked (reachable_core hr) (reachable_callbackOk hr) hl hstep
      obtain ⟨own', content', priv', hl', hheld⟩ :=
        ih (hr.next trivial hu) hl₁ hrun fun pass h => hcall pass (by simp [h])
      refine ⟨own', content', priv', hl', fun x hx => ?_⟩
      rw [hheld x hx, held_step (reachable_core hr) hl hos hstep hpc hx,
        Machine.history_cons_some hu, List.mem_append, Option.mem_toList, or_assoc]

/-- In every run, from the moment a thread enters `uninstall_stoppable_callback` of `o` to
its return, whatever the bucket of `o` holds, whatever the link of `o` was left at and
whatever other threads push: after the call the bucket is an acyclic chain of exactly the
other operations that were in it or were pushed onto it. -/
theorem uninstall_removes (hr : (machine cfg).Reachable s) {res res' : Int} {pass pass' : Pass}
    {o' : O} (hpc : s.thread t = .uninstall o res pass .reset)
    (hrun : (machine cfg).run s as = some s') (hcall : ∀ pass, .consume t pass ∉ as)
    (hret : s'.thread t = .uninstall o' res' pass' .deliver) :
    ∃ l, Chain s'.heap.next (s'.heap.head (stoppingQueue cfg s o)) l ∧ l.Nodup ∧ ∀ x, x ∈ l ↔
      x ≠ o ∧ (InBucket s (stoppingQueue cfg s o) x ∨
        x ∈ (machine cfg).history (pushedTo cfg (stoppingQueue cfg s o)) s as) := by
  obtain ⟨stage, hin⟩ := run_inside hrun hcall hret
  obtain rfl : o' = o := by
    rw [hpc] at hin
    simp_all
  rw [(reachable_callbackOk hr o').queue (reachable_core hr) hpc (by simp)]
  obtain ⟨own, content, priv, hl⟩ := reachable_linked hr
  obtain ⟨own', content', priv', hl', hheld⟩ :=
    held_run (q := (t, cfg.bucket o')) hr hl hrun hcall hret
  have hempty : priv t = [] := hl.priv_eq hpc fun _ h => h
  have hempty' : priv' t = [] := hl'.priv_eq hret fun _ h => h
  have hch := hl'.chains.bucket_chain (t, cfg.bucket o')
  refine ⟨_, hch, chain_nodup hch, fun x => ?_⟩
  rw [hl'.chains.mem_content, ← hl'.inBucket_iff]
  by_cases hx : x = o'
  · subst hx
    have hfree := (hl'.ops x).past t (by rw [hret]; rfl)
    rw [hl'.inBucket_iff, hfree]
    simp
  · rw [← hl'.held_iff hempty', hheld x hx, hl.held_iff hempty]
    simp [hx]

section Uninstall

/-- Four operations in one bucket, and two threads. -/
def uninstallConfig : Config (Fin 4) (Fin 2) Unit where
  token _ := some ()
  bucket _ := robinAccess 3
  timer _ := false
  entries _ := 8

def uninstallStart : State (Fin 4) (Fin 2) Unit where
  heap := ⟨fun _ => none, fun _ => none⟩
  status _ := .fresh
  callback _ := .none
  localScheduler _ := 0
  stopSource _ := false
  scopeStopped := false
  ring _ := .empty
  issued _ := []
  thread _ := .idle
  closed _ := false
  starts _ := 0
  signals _ := []
  tasks _ := []
  effects _ := []

/-- Operations 0, 1 and 2 are in the bucket of thread 0, with 1 in the middle, when the
request of 1 is finished and its CQE is taken; operation 3 is about to be pushed. -/
def enterRun : List (Label (Fin 4) (Fin 2) Unit) :=
  (List.finRange 4).flatMap (fun o => [.start 0 o, .thread 0 false, .thread 0 false,
    .thread 0 false]) ++ [.submit 0 4, .post 0 1 7, .requestStop ()] ++
  (List.finRange 4).map .fire ++
  ([0, 1, 2] : List (Fin 4)).flatMap (fun o => List.replicate 3 (.push o false)) ++
  [.consume 0 .ordinary]

/-- The call, with the push of operation 3 between its two splices. -/
def callRun : List (Label (Fin 4) (Fin 2) Unit) :=
  List.replicate 9 (.thread 0 false) ++ List.replicate 3 (.push 3 false) ++
    List.replicate 5 (.thread 0 false)

/-- Operation 1 was between 2 and 0; what remains are these two and operation 3. -/
theorem uninstall_removes_middle : ∃ s : State (Fin 4) (Fin 2) Unit,
    s.heap.head (0, robinAccess 3) = some 0 ∧
      ∃ l, Chain s.heap.next (some 0) l ∧ l.Nodup ∧ 1 ∉ l ∧ 0 ∈ l ∧ 2 ∈ l ∧ 3 ∈ l := by
  have henter : ∃ s, (machine uninstallConfig).run uninstallStart enterRun = some s ∧
      s.thread 0 = .uninstall 1 7 .ordinary .reset ∧ s.localScheduler 1 = 0 ∧
      Chain s.heap.next (s.heap.head (0, robinAccess 3)) [2, 1, 0] ∧
      3 ∈ (machine uninstallConfig).history (pushedTo uninstallConfig (0, robinAccess 3)) s callRun ∧
      ∃ s', (machine uninstallConfig).run s callRun = some s' ∧
        s'.thread 0 = .uninstall 1 7 .ordinary .deliver ∧
        s'.heap.head (0, robinAccess 3) = some 0 :=
    ⟨_, rfl, rfl, rfl, ⟨rfl, rfl, rfl, rfl⟩, by decide, _, rfl, rfl, rfl⟩
  obtain ⟨s, hs, hpc, hlocal, hch, hpush, s', hs', hret, hhead⟩ := henter
  have hinit : Init uninstallStart := by simp [Init, uninstallStart]
  have hq : stoppingQueue uninstallConfig s 1 = (0, robinAccess 3) := by
    simp [stoppingQueue, hlocal, uninstallConfig]
  obtain ⟨l, hl, hnd, hmem⟩ :=
    uninstall_removes (.of_run hinit hs) hpc hs' (by simp [callRun]) hret
  rw [hq] at hl hmem
  rw [hhead] at hl
  have hin (x : Fin 4) (hx : x ∈ [2, 1, 0]) : InBucket s (0, robinAccess 3) x := ⟨_, hch, hx⟩
  refine ⟨s', hhead, l, hl, hnd, ?_, ?_, ?_, ?_⟩
  · simp [hmem]
  · exact (hmem 0).mpr ⟨by decide, .inl (hin 0 (by decide))⟩
  · exact (hmem 2).mpr ⟨by decide, .inl (hin 2 (by decide))⟩
  · exact (hmem 3).mpr ⟨by decide, .inr hpush⟩

end Uninstall

end IoUring.Exec.Operation
