import IoUring.Base.Observe
import IoUring.Exec.RunLoopEffects
import IoUring.Exec.RunLoopServed

/-!
# `_inflight`

`add_inflight()` is called where `start()` and the stopping pass take an SQE, and
not where `submit_destructive_command` does, while every CQE that is consumed is
subtracted. So the counter is behind the ring by the number of these commands.
-/

namespace IoUring.Exec.RunLoop

variable {O T : Type*} [DecidableEq T]

/-- The SQEs taken from the ring whose CQE has not been consumed: prepared, worked
on by the kernel, or with a CQE in the CQ ring. -/
def outstanding (r : Ring O) : Nat :=
  r.sq.length + r.flight.length + r.cq.length

/-- The history counts the destructive commands of each thread. -/
def noteCommand (n : T → Nat) (s : State O T) (a : Label O T) (_ : State O T) : T → Nat :=
  match a with
  | .thread t _ =>
      match s.thread t with
      | .command _ _ => Function.update n t (n t + 1)
      | _ => n
  | _ => n

/-- The machine with the number of destructive commands. -/
def commandMachine [DecidableEq O] (cfg : Config O T) : Machine (State O T × (T → Nat)) (Label O T) :=
  (machine cfg).observed (fun _ => 0) noteCommand

/-- How far the counter is ahead of the ring. -/
def IoUringExecLocal.lead (l : IoUringExecLocal O) : BitVec 64 :=
  l.inflight - BitVec.ofNat 64 (outstanding l.ring)

/-- The size of the batch that is being consumed. -/
def LoopPc.batch : LoopPc O → Nat
  | .consume _ n => n
  | _ => 0

def ThreadPc.batch : ThreadPc O T → Nat
  | .run _ _ pc => pc.batch
  | .callback _ _ pc => pc.batch
  | _ => 0

/-- The counters and the rings have moved together, and no CQE was consumed. -/
structure Paid (s s' : State O T) : Prop where
  lead : ∀ t, (s'.locals t).lead = (s.locals t).lead
  cq : ∀ t, (s.locals t).ring.cq.length ≤ (s'.locals t).ring.cq.length

variable {cfg : Config O T} {s s' s'' : State O T} {t : T} {o : O} {f : Frame T} {c : Caller T}
  {ch : Choice} {pc : LoopPc O}

/-! ## Rings -/

@[simp] theorem outstanding_submit (r : Ring O) (n : Nat) :
    outstanding (r.submit n) = outstanding r := by
  simp only [outstanding, Ring.submit, List.length_drop, List.length_append, List.length_take]
  omega

theorem outstanding_getSqe {r r' : Ring O} {entries : Nat} {e : Sqe O}
    (h : r.getSqe entries e = some r') : outstanding r' = outstanding r + 1 := by
  rw [Ring.getSqe_eq h]
  simp only [outstanding, List.length_append, List.length_singleton]
  omega

theorem outstanding_post {r r' : Ring O} {i : Nat} {res : Int} {e : Sqe O}
    (h : r.post i res = some (e, r')) : outstanding r' = outstanding r := by
  simp only [Ring.post] at h
  split at h
  · next he =>
      simp only [Option.some.injEq, Prod.mk.injEq] at h
      obtain ⟨-, rfl⟩ := h
      obtain ⟨hi, -⟩ := List.getElem?_eq_some_iff.mp he
      simp only [outstanding, List.length_eraseIdx_of_lt hi, List.length_append,
        List.length_singleton]
      omega
  · cases h

theorem outstanding_advance {r : Ring O} {n : Nat} (h : n ≤ r.cq.length) :
    outstanding (r.advance n) + n = outstanding r := by
  simp only [outstanding, Ring.advance, List.length_drop]
  omega

/-! ## What keeps the counter in step with the ring -/

theorem lead_taken {l : IoUringExecLocal O} {r : Ring O} {entries : Nat} {e : Sqe O}
    (h : l.ring.getSqe entries e = some r) :
    IoUringExecLocal.lead { l with ring := r, inflight := l.inflight + 1 } = l.lead := by
  simp only [IoUringExecLocal.lead, outstanding_getSqe h, BitVec.ofNat_add]
  grind

theorem lead_advance {l : IoUringExecLocal O} {n : Nat} (h : n ≤ l.ring.cq.length) :
    IoUringExecLocal.lead { l with
      ring := l.ring.advance n
      inflight := l.inflight - BitVec.ofNat 64 n } = l.lead := by
  simp only [IoUringExecLocal.lead, ← outstanding_advance h, BitVec.ofNat_add]
  grind

namespace Paid

omit [DecidableEq T] in
theorem trans (h : Paid s s') (h' : Paid s' s'') : Paid s s'' :=
  ⟨fun t => (h'.lead t).trans (h.lead t), fun t => Nat.le_trans (h.cq t) (h'.cq t)⟩

omit [DecidableEq T] in
theorem of_locals (h : s'.locals = s.locals) : Paid s s' :=
  ⟨fun t => by rw [h], fun t => Nat.le_of_eq (by rw [h])⟩

theorem setLocal {l : IoUringExecLocal O} (hlead : l.lead = (s.locals t).lead)
    (hcq : (s.locals t).ring.cq.length ≤ l.ring.cq.length) : Paid s (s.setLocal t l) where
  lead := fun t' => by by_cases h : t' = t <;> simp [State.setLocal, h, hlead]
  cq := fun t' => by by_cases h : t' = t <;> simp [State.setLocal, h, hcq]

theorem getLocal (s : State O T) (t : T) : Paid s (s.getLocal t) := by
  simp only [State.getLocal]
  split
  · have hlocal : Paid s (s.setLocal t { s.locals t with stage := .alive }) :=
      setLocal rfl (Nat.le_refl _)
    exact hlocal.trans (of_locals rfl)
  · exact of_locals rfl

theorem setStopping (s : State O T) (t : T) (b : Bucket) (ops : List O) :
    Paid s (s.setStopping t b ops) :=
  setLocal rfl (Nat.le_refl _)

theorem takeSqe {entries : Nat} {e : Sqe O} {r : Ring O} (taken : List O)
    (hr : (s.locals t).ring.getSqe entries e = some r) : Paid s (s.takeSqe t r taken) := by
  have hcq : (s.locals t).ring.cq.length ≤ r.cq.length := Nat.le_of_eq (by rw [Ring.getSqe_cq hr])
  have hlocal : Paid s (s.setLocal t { s.locals t with
      ring := r
      inflight := (s.locals t).inflight + 1 }) := setLocal (lead_taken hr) hcq
  exact hlocal.trans (of_locals rfl)

theorem detachStep (cfg : Config O T) (s : State O T) (t : T) :
    Paid s (detachStep cfg s t) := by
  have hclosed : Paid s (s.setLocal t { s.locals t with stage := .closed }) :=
    setLocal rfl (Nat.le_refl _)
  simp only [RunLoop.detachStep]
  split <;> exact hclosed.trans (of_locals rfl)

theorem allows : Allows (Paid : State O T → State O T → Prop) where
  trans := trans
  frame := fun h _ => of_locals h
  getLocal := getLocal
  takeSqe := takeSqe
  setStopping := setStopping
  drain := fun _ _ => setLocal rfl (Nat.le_refl _)
  submit := fun _ _ _ => setLocal (by simp [IoUringExecLocal.lead]) (Nat.le_refl _)

end Paid

/-- The counter is behind the ring by the number of destructive commands, and the
batch that is being consumed is in the CQ ring. -/
structure InflightOk (s : State O T) (n : T → Nat) : Prop where
  lead : ∀ t, (s.locals t).lead + BitVec.ofNat 64 (n t) = 0
  batch : ∀ t, (s.thread t).batch ≤ (s.locals t).ring.cq.length

variable {n : T → Nat}

/-- Nothing is consumed before the first peek or after the last one. -/
theorem batch_plan (p : RunPolicy) : (afterIodone p : LoopPc O).batch = 0 ∧
    (afterSubmit p : LoopPc O).batch = 0 ∧ (afterLaunch p : LoopPc O).batch = 0 := by
  have hiodone : (afterIodone p : LoopPc O).batch = 0 := by
    simp only [afterIodone]
    split <;> rfl
  have hsubmit : (afterSubmit p : LoopPc O).batch = 0 := by
    simp only [afterSubmit]
    split
    · rfl
    · exact hiodone
  refine ⟨hiodone, hsubmit, ?_⟩
  simp only [afterLaunch]
  split
  · rfl
  · exact hsubmit

theorem setThread_batch (s : State O T) (t : T) (n : ThreadPc O T) :
    ((s.setThread t n).thread t).batch = n.batch := by
  simp [State.setThread]

theorem resume_batch (s : State O T) (t : T) (f : Frame T) (c : Caller T) (pc : LoopPc O)
    (called : Bool) : ((s.resume t f c pc called).thread t).batch = pc.batch := by
  cases called <;> exact setThread_batch s t _

theorem returnRun_batch (s : State O T) (t : T) (f : Frame T) (info : RunProgressInfo)
    (c : Caller T) : ((returnRun s t f info c).thread t).batch = 0 := by
  cases c <;> exact setThread_batch _ t _

variable [DecidableEq O]

/-- A batch is taken by a peek only. -/
theorem loopStep_batch (h : loopStep cfg s t f c ch pc = some s') :
    (s'.thread t).batch ≤ pc.batch ∨ (s'.thread t).batch ≤ (s.locals t).ring.cq.length := by
  obtain ⟨hiodone, hsubmit, hlaunch⟩ := batch_plan (O := O) f.policy
  cases pc with
  | check =>
      obtain rfl := Option.some.inj h
      refine .inl (Nat.le_of_eq ?_)
      simp only [checkStep]
      split
      · exact returnRun_batch _ t f _ c
      · exact setThread_batch _ t _
  | launch sources =>
      obtain rfl := Option.some.inj h
      refine .inl (Nat.le_of_eq ?_)
      cases sources with
      | nil => exact (setThread_batch s t _).trans hlaunch
      | cons source sources => cases source <;> exact setThread_batch _ t _
  | visit tasks sources =>
      refine .inl (Nat.le_of_eq ?_)
      cases tasks with
      | nil => obtain rfl := Option.some.inj h; exact setThread_batch s t _
      | cons k rest =>
          obtain rfl := Option.some.inj h
          simp only [visitStep]
          split
          · exact resume_batch _ t f c _ _
          split
          · exact resume_batch _ t _ c _ _
          split <;> exact resume_batch _ t _ c _ _
  | submit =>
      obtain rfl := Option.some.inj h
      refine .inl (Nat.le_of_eq ((setThread_batch _ t _).trans ?_))
      simp only [ThreadPc.batch]
      split
      · rfl
      · exact hsubmit
  | wait =>
      simp only [loopStep] at h
      split at h
      · cases h
      · obtain rfl := Option.some.inj h
        exact .inl (Nat.le_of_eq ((setThread_batch s t _).trans hsubmit))
  | peek =>
      obtain rfl := Option.some.inj h
      simp only [peekStep]
      split
      · exact .inl (Nat.le_of_eq ((setThread_batch _ t _).trans hiodone))
      · refine .inr (Nat.le_trans (Nat.le_of_eq (setThread_batch s t _)) ?_)
        exact List.length_take_le' _ _
  | consume rest k =>
      cases rest with
      | nil =>
          obtain rfl := Option.some.inj h
          refine .inl (Nat.le_trans (Nat.le_of_eq (setThread_batch _ t _)) ?_)
          simp only [ThreadPc.batch]
          split
          · exact Nat.le_trans (Nat.le_of_eq hiodone) (Nat.zero_le _)
          · exact Nat.zero_le _
      | cons e rest =>
          obtain rfl := Option.some.inj h
          refine .inl (Nat.le_of_eq ?_)
          simp only [consumeStep]
          split
          · exact setThread_batch _ t _
          split <;> exact resume_batch _ t f c _ _
  | stopping => obtain rfl := Option.some.inj h; exact .inl (Nat.le_of_eq (setThread_batch _ t _))
  | cancelling b ops =>
      obtain rfl := Option.some.inj h
      refine .inl (Nat.le_of_eq ?_)
      cases ops with
      | nil => exact setThread_batch s t _
      | cons o ops =>
          simp only [cancelStep]
          split <;> exact setThread_batch _ t _
  | tail =>
      obtain rfl := Option.some.inj h
      refine .inl (Nat.le_of_eq ?_)
      simp only [tailStep]
      split
      · exact returnRun_batch s t _ _ c
      split
      · exact returnRun_batch s t _ _ c
      split
      · exact returnRun_batch s t _ _ c
      obtain ⟨s₁, hs₁⟩ : ∃ s₁, (if f.policy.detached = true then s else s.touch) = s₁ := ⟨_, rfl⟩
      rw [hs₁]
      split
      · exact setThread_batch _ t _
      split
      · exact returnRun_batch _ t _ _ c
      · exact setThread_batch _ t _

/-! ## All labels -/

omit [DecidableEq O] in
/-- The end of a batch. -/
theorem InflightOk.advance (h : InflightOk s n) {k : Nat}
    (hpc : s.thread t = .run f c (.consume [] k)) : InflightOk (advanceStep s t f c k) n := by
  have hle : k ≤ (s.locals t).ring.cq.length := by simpa [hpc, ThreadPc.batch, LoopPc.batch] using h.batch t
  constructor
  · intro t'
    rw [← h.lead t']
    by_cases ht : t' = t
    · subst ht
      simpa [advanceStep, State.setThread, State.setLocal] using lead_advance hle
    · simp [advanceStep, State.setThread, State.setLocal, ht]
  · intro t'
    by_cases ht : t' = t
    · subst ht
      have hbatch : ((advanceStep s t' f c k).thread t').batch = 0 := by
        apply (setThread_batch _ t' _).trans
        simp only [ThreadPc.batch]
        split
        · exact (batch_plan f.policy).1
        · rfl
      exact Nat.le_trans (Nat.le_of_eq hbatch) (Nat.zero_le _)
    · simpa [advanceStep, State.setThread, State.setLocal, ht] using h.batch t'

omit [DecidableEq O] in
/-- `submit_destructive_command` takes an SQE behind the back of the counter. -/
theorem InflightOk.command (h : InflightOk s n) {r : Ring O}
    (hr : ((s.locals t).ring.submit (s.locals t).ring.sq.length).getSqe (cfg.entries t)
      .cancelAny = some r) :
    InflightOk ((s.setLocal t { s.locals t with ring := r.submit r.sq.length }).setThread t
      (.drain f c)) (Function.update n t (n t + 1)) := by
  have hout := outstanding_getSqe hr
  rw [outstanding_submit] at hout
  constructor
  · intro t'
    by_cases ht : t' = t
    · subst ht
      have hlead := h.lead t'
      simp only [State.setThread, State.setLocal, Function.update_self, IoUringExecLocal.lead,
        outstanding_submit, hout, BitVec.ofNat_add] at hlead ⊢
      grind
    · simpa [State.setThread, State.setLocal, ht] using h.lead t'
  · intro t'
    by_cases ht : t' = t
    · subst ht
      exact Nat.le_trans (Nat.le_of_eq (setThread_batch _ t' _)) (Nat.zero_le _)
    · simpa [State.setThread, State.setLocal, ht] using h.batch t'

/-- A step that does not consume, of a thread that takes no batch. -/
theorem InflightOk.step {a : Label O T} (hok : InflightOk s n) (h : Step cfg s a s')
    (hp : Paid s s') (hbatch : ∀ t, a.actor = some t → (s'.thread t).batch ≤ (s.thread t).batch ∨
      (s'.thread t).batch ≤ (s.locals t).ring.cq.length) : InflightOk s' n where
  lead := fun t => by rw [hp.lead t]; exact hok.lead t
  batch := by
    intro t
    refine Nat.le_trans ?_ (hp.cq t)
    by_cases ha : a.actor = some t
    · exact (hbatch t ha).elim (fun hle => Nat.le_trans hle (hok.batch t)) id
    · rw [(step_other h ha).1]
      exact hok.batch t

theorem threadStep_inflight (hok : InflightOk s n) (hs : threadStep cfg s t ch = some s') :
    InflightOk s' (noteCommand n s (.thread t ch) s') := by
  have h : Step cfg s (.thread t ch) s' := .of_threadStep hs
  have hgo : Paid s s' → (s'.thread t).batch ≤ (s.thread t).batch ∨
      (s'.thread t).batch ≤ (s.locals t).ring.cq.length → InflightOk s' n := fun hp hbatch =>
    hok.step h hp fun t' ht => by
      obtain rfl : t = t' := by simpa [Label.actor] using ht
      exact hbatch
  have hzero : ∀ {m : ThreadPc O T} {s₁ : State O T}, m.batch = 0 → s' = s₁.setThread t m →
      (s'.thread t).batch ≤ (s.thread t).batch ∨
        (s'.thread t).batch ≤ (s.locals t).ring.cq.length := by
    rintro m s₁ hm rfl
    exact .inl (Nat.le_trans (Nat.le_of_eq ((setThread_batch s₁ t m).trans hm)) (Nat.zero_le _))
  simp only [threadStep] at hs
  cases hpc : s.thread t with
  | outside => simp [hpc] at hs
  | callback f c pc => simp [hpc] at hs
  | ended => simp [hpc] at hs
  | command f c =>
      simp only [noteCommand, hpc]
      simp only [hpc, commandStep] at hs
      split at hs
      · next r hr => obtain rfl := Option.some.inj hs; exact hok.command hr
      · cases hs
  | drain f c =>
      simp only [noteCommand, hpc]
      simp only [hpc] at hs
      obtain rfl := Option.some.inj hs
      exact hgo (.of_locals rfl) (hzero rfl rfl)
  | run f c pc =>
      simp only [noteCommand, hpc]
      simp only [hpc] at hs
      by_cases hend : ∃ k, pc = .consume [] k
      · obtain ⟨k, rfl⟩ := hend
        obtain rfl := Option.some.inj hs
        exact hok.advance hpc
      · refine hgo (Paid.allows.loopStep hs fun k hk => hend ⟨k, hk⟩) ?_
        rw [hpc]
        exact loopStep_batch hs
  | waitLocals =>
      simp only [noteCommand, hpc]
      simp only [hpc] at hs
      split at hs
      · cases hs
      · obtain rfl := Option.some.inj hs
        exact hgo (.of_locals rfl) (hzero rfl rfl)
  | detach =>
      simp only [noteCommand, hpc]
      simp only [hpc] at hs
      obtain rfl := Option.some.inj hs
      exact hgo (.detachStep cfg s t) (hzero (m := .ended) rfl rfl)

theorem step_inflight {a : Label O T} (hok : InflightOk s n)
    (hs : (machine cfg).step s a = some s') : InflightOk s' (noteCommand n s a s') := by
  have h := Step.of_step hs
  -- User code, the kernel and the stop callbacks leave a batch alone.
  have hsame : Paid s s' → (∀ t, (s'.thread t).batch ≤ (s.thread t).batch) → InflightOk s' n :=
    fun hp hbatch => hok.step h hp fun t _ => .inl (hbatch t)
  cases a with
  | thread t ch => exact threadStep_inflight hok hs
  | user t act ch =>
      have hthread : ∀ {m : ThreadPc O T}, m.batch ≤ (s.thread t).batch →
          ∀ t', ((Function.update s.thread t m) t').batch ≤ (s.thread t').batch := by
        intro m hm t'
        by_cases ht : t' = t
        · subst ht
          simpa using hm
        · simp [ht]
      cases h with
      | @start _ o _ _ =>
          have hk := Keeps.startOp cfg s t o ch
          refine hsame (Paid.allows.startOp cfg s t o ch) fun t' => Nat.le_of_eq ?_
          by_cases ht : t' = t
          · rw [ht, hk.thread]
          · rw [(hk.elsewhere t' ht).2.2]
      | schedule _ => exact hsame (.of_locals rfl) fun _ => Nat.le_refl _
      | @scheduleOn _ t' _ _ _ =>
          have hpush : Paid s (s.setLocal t' { s.locals t' with
              attached := ⟨s.nextTask, none⟩ :: (s.locals t').attached }) :=
            .setLocal rfl (Nat.le_refl _)
          exact hsame (hpush.trans (.of_locals rfl)) fun _ => Nat.le_refl _
      | ret hpc => exact hsame (.of_locals rfl) (hthread (by rw [hpc]; exact Nat.le_refl _))
      | call _ => exact hsame (.of_locals rfl) (hthread (Nat.zero_le _))
      | exitLocal _ _ => exact hsame (.of_locals rfl) (hthread (Nat.zero_le _))
      | exit _ _ => exact hsame (.of_locals rfl) (hthread (Nat.zero_le _))
      | destroy _ _ _ =>
          have hlocal := Calm.getLocal s t
          apply hsame ((Paid.getLocal s t).trans (.of_locals rfl))
          intro t'
          by_cases ht : t' = t
          · subst ht
            exact Nat.le_trans (Nat.le_of_eq (setThread_batch _ t' _)) (Nat.zero_le _)
          · simp [State.setThread, ht, (hlocal.elsewhere t' ht).2.2]
  | post t i res =>
      cases h with
      | @post _ _ _ e r hstage hr =>
          have hring : Paid s (s.setLocal t { s.locals t with ring := r }) :=
            .setLocal (by simp [IoUringExecLocal.lead, outstanding_post hr])
              (by simp [(Ring.post_spec hr).2])
          exact hsame (hring.trans (.of_locals rfl)) fun _ => Nat.le_refl _
  | stopPush t o => cases h; exact hsame (.setStopping s t _ _) fun _ => Nat.le_refl _
  | requestStop => cases h; exact hsame (.of_locals rfl) fun _ => Nat.le_refl _
  | stopScope => cases h; exact hsame (.of_locals rfl) fun _ => Nat.le_refl _

theorem reachable_inflight {p : State O T × (T → Nat)} (h : (commandMachine cfg).Reachable p) :
    InflightOk p.1 p.2 := by
  refine h.invariant (fun p => InflightOk p.1 p.2) (fun p hp => ?_) fun p a q _ hok _ hstep => ?_
  · obtain ⟨⟨-, -, -, -, -, hlocals, -, hthread, -⟩, hn⟩ := hp
    rw [hn]
    constructor
    · intro t
      obtain ⟨-, hring, hinflight, -⟩ := hlocals t
      simp [IoUringExecLocal.lead, outstanding, hring, hinflight, Ring.empty]
    · intro t
      rw [hthread t]
      exact Nat.zero_le _
  · obtain ⟨hs, hq⟩ := Machine.observed_step.mp hstep
    rw [hq]
    exact step_inflight hok hs

/-- In every run, `_inflight` equals the number of SQEs taken from the ring whose
CQE has not been consumed if and only if no destructive command (up to a multiple
of `2 ^ 64`) was submitted on the ring. Then the subtraction after a batch does not
wrap, and the test for zero is exact. -/
theorem inflight_exact {p : State O T × (T → Nat)} (h : (commandMachine cfg).Reachable p) (t : T) :
    ((p.1.locals t).inflight = BitVec.ofNat 64 (outstanding (p.1.locals t).ring) ↔
        p.2 t % 2 ^ 64 = 0) ∧
      (p.2 t % 2 ^ 64 = 0 → outstanding (p.1.locals t).ring < 2 ^ 64 →
        (∀ f c k, p.1.thread t = .run f c (.consume [] k) → k ≤ (p.1.locals t).inflight.toNat) ∧
          ((p.1.locals t).inflight = 0 ↔ outstanding (p.1.locals t).ring = 0)) := by
  have hok := reachable_inflight h
  have hlead := hok.lead t
  have hiff : (p.1.locals t).inflight = BitVec.ofNat 64 (outstanding (p.1.locals t).ring) ↔
      p.2 t % 2 ^ 64 = 0 := by
    have hzero : BitVec.ofNat 64 (p.2 t) = 0 ↔ p.2 t % 2 ^ 64 = 0 := by
      rw [← BitVec.toNat_inj]
      simp
    rw [← hzero]
    simp only [IoUringExecLocal.lead] at hlead
    constructor
    · intro heq
      rw [heq] at hlead
      grind
    · intro heq
      rw [heq] at hlead
      grind
  refine ⟨hiff, fun hnone hlt => ?_⟩
  have heq := hiff.mpr hnone
  have hnat : (p.1.locals t).inflight.toNat = outstanding (p.1.locals t).ring := by
    rw [heq, BitVec.toNat_ofNat, Nat.mod_eq_of_lt hlt]
  constructor
  · intro f c k hpc
    have hle : k ≤ (p.1.locals t).ring.cq.length := by
      simpa [hpc, ThreadPc.batch, LoopPc.batch] using hok.batch t
    rw [hnat]
    simp only [outstanding]
    omega
  · rw [← hnat, ← BitVec.toNat_inj]
    rfl

section Command

/-- Thread 1 ends with an operation in flight, and its transfer pass consumes the
CQEs of the operation and of the command. -/
def commandRun : List (Label (Fin 2) (Fin 2)) :=
  [.user 1 (.start 1) draw, .user 1 .exit draw] ++ goes 1 1 ++
    [.post 1 0 (-ECANCELED), .post 1 0 1] ++ goes 1 10

theorem inflight_exact_start : ∃ p : State (Fin 2) (Fin 2) × (Fin 2 → Nat),
    (p.1.locals 1).ring.sq = [.request 1] ∧
      (p.1.locals 1).inflight = BitVec.ofNat 64 (outstanding (p.1.locals 1).ring) := by
  have hrun : ∃ p, (commandMachine pairConfig).run (pairStart, fun _ => 0)
      [.user 1 (.start 1) draw] = some p ∧ (p.1.locals 1).ring.sq = [.request 1] ∧
      p.2 1 = 0 := ⟨_, rfl, rfl, rfl⟩
  obtain ⟨p, hp, hsq, hnone⟩ := hrun
  have hreach : (commandMachine pairConfig).Reachable p := .observed pairStart_init hp
  exact ⟨p, hsq, (inflight_exact hreach 1).1.mpr (by simp [hnone])⟩

/-- Nothing is outstanding, and the counter has wrapped. -/
theorem inflight_wraps : ∃ p : State (Fin 2) (Fin 2) × (Fin 2 → Nat),
    (commandMachine pairConfig).Reachable p ∧ outstanding (p.1.locals 1).ring = 0 ∧
      (p.1.locals 1).inflight.toNat = 2 ^ 64 - 1 := by
  have hrun : ∃ p, (commandMachine pairConfig).run (pairStart, fun _ => 0) commandRun = some p ∧
      outstanding (p.1.locals 1).ring = 0 ∧ (p.1.locals 1).inflight.toNat = 2 ^ 64 - 1 :=
    ⟨_, rfl, rfl, rfl⟩
  obtain ⟨p, hp, hrest⟩ := hrun
  exact ⟨p, .observed pairStart_init hp, hrest⟩

end Command

end IoUring.Exec.RunLoop
