import Mathlib.Data.Fintype.Basic
import IoUring.Exec.RunLoopDrain

/-!
# The destruction of the executor

The thread that constructed the executor destroys it when no other thread is
alive. From then on it is the only one that acts.
-/

namespace IoUring.Exec.RunLoop

variable {O T : Type*} [DecidableEq T]

/-- Thread `t` has ended, or it has never used the executor. -/
def State.Gone (s : State O T) (t : T) : Prop :=
  (s.thread t = .outside ∨ s.thread t = .ended) ∧ (s.locals t).stage ≠ .alive

def Caller.isDtor : Caller T → Bool
  | .execTransfer => true
  | .execTerminal => true
  | _ => false

/-- The thread is in `~io_uring_exec`. -/
def ThreadPc.inDtor (n : ThreadPc O T) : Bool :=
  n.caller.any Caller.isDtor

/-- The destructor has begun. -/
def State.destroying (cfg : Config O T) (s : State O T) : Bool :=
  (s.thread cfg.main).inDtor || !s.exec.alive

def Label.isDestroy : Label O T → Bool
  | .user _ .destroy _ => true
  | _ => false

instance [DecidableEq O] (s : State O T) (t : T) : Decidable (s.Gone t) :=
  inferInstanceAs (Decidable ((_ ∨ _) ∧ _))

/-- The executor is destroyed when no other thread is alive, and the other
threads do not come back. -/
def Alone (cfg : Config O T) (s : State O T) (a : Label O T) : Prop :=
  (a.isDestroy = true → ∀ t, t ≠ cfg.main → s.Gone t) ∧
    match a with
    | .user t _ _ => s.destroying cfg = true → t = cfg.main
    | _ => True

instance [DecidableEq O] [Fintype T] (cfg : Config O T) (s : State O T) :
    ∀ a, Decidable (Alone cfg s a)
  | .user _ _ _ => inferInstanceAs (Decidable ((_ → ∀ _, _ → _) ∧ (_ → _)))
  | .thread _ _ => inferInstanceAs (Decidable ((_ → ∀ _, _ → _) ∧ True))
  | .post _ _ _ => inferInstanceAs (Decidable ((_ → ∀ _, _ → _) ∧ True))
  | .stopPush _ _ => inferInstanceAs (Decidable ((_ → ∀ _, _ → _) ∧ True))
  | .requestStop => inferInstanceAs (Decidable ((_ → ∀ _, _ → _) ∧ True))
  | .stopScope => inferInstanceAs (Decidable ((_ → ∀ _, _ → _) ∧ True))

variable {cfg : Config O T} {s s' : State O T} {t : T} {f : Frame T} {c : Caller T} {ch : Choice}
  {a : Label O T} {pc : LoopPc O}

section Gone

variable [DecidableEq O]

theorem step_inDtor (h : Step cfg s a s') (t : T) (hin : (s'.thread t).inDtor = true) :
    (s.thread t).inDtor = true ∨ ∃ ch, a = .user t .destroy ch := by
  obtain ⟨c, hc, hdtor⟩ := (Option.any_eq_true _ _).mp hin
  cases step_caller h t hc with
  | before hbefore => exact .inl (by simpa [ThreadPc.inDtor, hbefore] using hdtor)
  | stop outer _ => cases hdtor
  | call => cases hdtor
  | exit => cases hdtor
  | destroy => exact .inr ⟨_, rfl⟩
  | terminal hbefore => exact .inl (by simp [ThreadPc.inDtor, hbefore, Caller.isDtor])

/-- Only the thread that constructed the executor is in its destructor. -/
theorem reachable_main {ok : State O T → Label O T → Prop} (h : (machine cfg).Reach ok s) :
    ∀ t, (s.thread t).inDtor = true → t = cfg.main := by
  refine h.invariant (fun s => ∀ t, (s.thread t).inDtor = true → t = cfg.main) (fun s hs t hin => ?_)
    fun s a s' _ ih _ hstep t hin => ?_
  · obtain ⟨-, -, -, -, -, -, -, hthread, -⟩ := hs
    simp [hthread, ThreadPc.inDtor, ThreadPc.caller] at hin
  · have hstep' := Step.of_step hstep
    rcases step_inDtor hstep' t hin with hin | ⟨ch, rfl⟩
    · exact ih t hin
    · cases hstep' with
      | destroy _ hmain _ => exact hmain

/-- Without a stop request, no thread has left or is leaving through the stop
branch. -/
theorem reachable_unstopped {ok : State O T → Label O T → Prop} (h : (machine cfg).Reach ok s) :
    s.exec.stopRequested = false →
      s.exits = [] ∧ ∀ t outer, (s.thread t).caller ≠ some (.stopRequest outer) := by
  refine h.invariant (fun s => s.exec.stopRequested = false →
    s.exits = [] ∧ ∀ t outer, (s.thread t).caller ≠ some (.stopRequest outer)) (fun s hs _ => ?_)
    fun s a s' _ ih _ hstep hstop => ?_
  · obtain ⟨-, -, -, -, -, -, -, hthread, -, hexits, -⟩ := hs
    exact ⟨hexits, by simp [hthread, ThreadPc.caller]⟩
  · have hstep' := Step.of_step hstep
    have hstop' : s.exec.stopRequested = false := by
      by_contra hs
      simp [(step_flags hstep').stopRequested (by simpa using hs)] at hstop
    obtain ⟨hexits, hcaller⟩ := ih hstop'
    refine ⟨List.eq_nil_iff_forall_not_mem.mpr fun e he => ?_, fun t outer hc => ?_⟩
    · rcases step_exits hstep' he with he | ⟨t, ch, f, outer, pc, -, hleaves⟩
      · simp [hexits] at he
      · exact hcaller t outer (by simp [hleaves.thread, ThreadPc.caller])
    · cases step_caller hstep' t hc with
      | before hbefore => exact hcaller t outer hbefore
      | stop _ hs => simp [hs] at hstop'

/-! ## One thread is left -/

/-- Where a thread that is gone could act, and does not. -/
theorem State.Gone.not_thread (h : s.Gone t) (hstep : Step cfg s (.thread t ch) s') : False := by
  have hnot : ∀ n : ThreadPc O T, n ≠ .outside → n ≠ .ended → s.thread t ≠ n := by
    rintro n hn hn' rfl
    rcases h.1 with hpc | hpc
    · exact hn hpc
    · exact hn' hpc
  cases hstep with
  | command hpc _ => exact hnot _ (by simp) (by simp) hpc
  | drain hpc => exact hnot _ (by simp) (by simp) hpc
  | check hpc _ => exact hnot _ (by simp) (by simp) hpc
  | tail hpc _ => exact hnot _ (by simp) (by simp) hpc
  | inside hpc _ _ _ _ => exact hnot _ (by simp) (by simp) hpc
  | waitLocals hpc _ => exact hnot _ (by simp) (by simp) hpc
  | detach hpc => exact hnot _ (by simp) (by simp) hpc

/-- From the beginning of the destruction on, the other threads are gone. -/
theorem reach_gone (h : (machine cfg).Reach (Alone cfg) s) :
    s.destroying cfg = true → ∀ t, t ≠ cfg.main → s.Gone t := by
  refine h.invariant (fun s => s.destroying cfg = true → ∀ t, t ≠ cfg.main → s.Gone t)
    (fun s hs hd => ?_) fun s a s' hreach ih hok hstep hd t ht => ?_
  · obtain ⟨halive, -, -, -, -, -, -, hthread, -⟩ := hs
    simp [State.destroying, halive, hthread, ThreadPc.inDtor, ThreadPc.caller] at hd
  · have hstep' := Step.of_step hstep
    have hgone : s.Gone t ∧ a.actor ≠ some t := by
      by_cases hbefore : s.destroying cfg = true
      · refine ⟨ih hbefore t ht, fun hactor => ?_⟩
        cases a with
        | thread t' ch =>
            obtain rfl : t' = t := by simpa [Label.actor] using hactor
            exact (ih hbefore t' ht).not_thread hstep'
        | user t' act ch =>
            obtain rfl : t' = t := by simpa [Label.actor] using hactor
            exact ht (hok.2 hbefore)
        | _ => simp [Label.actor] at hactor
      · rw [State.destroying, Bool.or_eq_true, not_or] at hbefore
        rw [State.destroying, Bool.or_eq_true] at hd
        rcases hd with hin | hdead
        · rcases step_inDtor hstep' cfg.main hin with hin | ⟨ch, rfl⟩
          · exact absurd hin hbefore.1
          · exact ⟨hok.1 rfl t ht, fun hactor => ht (by simpa [Label.actor, eq_comm] using hactor)⟩
        · rcases (step_flags hstep').alive with halive | ⟨t', ch, f, pc, s₁, -, hdies⟩
          · exact absurd (halive ▸ hdead) hbefore.2
          · have hin : (s.thread t').inDtor = true := by
              simp [hdies.thread, ThreadPc.inDtor, ThreadPc.caller, Caller.isDtor]
            exact absurd (reachable_main hreach t' hin ▸ hin) hbefore.1
    obtain ⟨hpc, hstage⟩ := step_other hstep' hgone.2
    exact ⟨hpc ▸ hgone.1.1, hstage ▸ hgone.1.2⟩

end Gone

/-! ## The tasks that were queued when the destructor began -/

/-- A task of place `p` is still there, in the hands of thread `t`, or finished. -/
def Onward (t : T) (p : Place T) (q : Option (Place T)) : Prop :=
  q = some p ∨ q = some (.visiting t) ∨ q = some .finished

/-- The transfer pass has not drained the attached queue yet. -/
def ThreadPc.beforeLaunch : ThreadPc O T → Bool
  | .command _ .execTransfer => true
  | .drain _ .execTransfer => true
  | .run _ .execTransfer pc => pc.unlaunched
  | _ => false

/-- The point of the terminal pass. -/
def ThreadPc.terminalAt : ThreadPc O T → Option (LoopPc O)
  | .run _ .execTerminal pc => some pc
  | .callback _ .execTerminal pc => some pc
  | _ => none

/-- `n` is the program counter of the thread in the destructor. -/
structure DtorOk (cfg : Config O T) (s : State O T) (n : ThreadPc O T) : Prop where
  exits : s.exits = []
  old : ∀ b, ∀ k ∈ s.immediateAtDestroy b, Onward cfg.main (.bucket b) (s.place k.id)
  oldAttached : ∀ k ∈ s.attachedAtDestroy, Onward cfg.main (.attached cfg.main) (s.place k.id) ∧
    (s.place k.id = some (.attached cfg.main) → n.beforeLaunch = true)
  drain : ∀ pc, n.terminalAt = some pc → DrainOk s.exec.immediate (s.pass cfg.main) ∧
    DrainPlan (robinAccess (s.walltimeStep .exec)) (s.pass cfg.main).drains pc

variable {n n' : ThreadPc O T}

theorem Pushes.place (h : Pushes t s s') {tasks : T → List (Task O)} (hplace : PlaceOk s tasks)
    {m : Nat} {q : Place T} (hq : s.place m = some q) : s'.place m = some q := by
  induction h with
  | same hsame => rwa [hsame.place]
  | @push s₁ s₂ r hpushes hsame ih =>
      have hlt := (hplace.pushes hpushes).placement.lt_next ih
      rw [hsame.place]
      simpa [State.pushImmediate, State.touch, Nat.ne_of_lt hlt] using ih

/-- Where the tasks go between two points of a loop. -/
theorem QueueMove.place {pc' : LoopPc O} (h : QueueMove s s' t f pc pc')
    (hplace : PlaceOk s s.tasks) (htasks : s.tasks t = pc.tasks) {m : Nat} {q : Place T}
    (hq : s.place m = some q) :
    s'.place m = some q ∨ s'.place m = some (.visiting t) ∨ s'.place m = some .finished := by
  cases h with
  | attached hsame =>
      rw [hsame.place]
      simp only [State.drainAttached, State.visiting]
      split
      · exact .inr (.inl rfl)
      · exact .inl hq
  | bucket b _ _ hsame =>
      rw [hsame.place]
      simp only [State.drainBucket, State.visiting]
      split
      · exact .inr (.inl rfl)
      · exact .inl hq
  | @visit k rest _ hpushes =>
      have hfinish := (hplace.finishTask htasks)
      by_cases hm : m = k.id
      · subst hm
        exact .inr (.inr (hpushes.place hfinish (by simp [State.finishTask])))
      · exact .inl (hpushes.place hfinish (by simpa [State.finishTask, hm] using hq))
  | next hsame => exact .inl (by rwa [hsame.place])
  | later _ _ hpushes => exact .inl (hpushes.place hplace hq)

/-- The attached queue is drained first. -/
theorem QueueMove.unlaunched {pc' : LoopPc O} (h : QueueMove s s' t f pc pc')
    (hplace : PlaceOk s s.tasks) (hpc : pc ≠ .check) (hun : pc.unlaunched = true) {m : Nat}
    (hq : s.place m = some (.attached t)) : s'.place m = some (.visiting t) := by
  cases h with
  | attached hsame =>
      have hmem := (hplace.placement.mem (.attached t) (by simp) m).mp hq
      rw [hsame.place]
      simp only [State.drainAttached, State.visiting]
      exact if_pos hmem
  | @bucket source _ b hsource _ _ => cases source <;> simp_all [LoopPc.unlaunched]
  | visit _ => simp [LoopPc.unlaunched] at hun
  | next _ => simp [LoopPc.unlaunched] at hun
  | later hlater _ _ =>
      rcases hlater with rfl | hlater
      · simp [LoopPc.unlaunched] at hun
      · cases pc <;> simp_all [LoopPc.launched, LoopPc.unlaunched]

theorem Pushes.atDestroy (h : Pushes t s s') : s'.immediateAtDestroy = s.immediateAtDestroy ∧
    s'.attachedAtDestroy = s.attachedAtDestroy := by
  induction h with
  | same hsame => exact ⟨hsame.immediateAtDestroy, hsame.attachedAtDestroy⟩
  | push r _ hsame ih =>
      exact ⟨hsame.immediateAtDestroy.trans ih.1, hsame.attachedAtDestroy.trans ih.2⟩

theorem QueueMove.atDestroy {pc' : LoopPc O} (h : QueueMove s s' t f pc pc') :
    s'.immediateAtDestroy = s.immediateAtDestroy ∧
      s'.attachedAtDestroy = s.attachedAtDestroy := by
  cases h with
  | attached hsame => exact ⟨hsame.immediateAtDestroy, hsame.attachedAtDestroy⟩
  | bucket b _ _ hsame => exact ⟨hsame.immediateAtDestroy, hsame.attachedAtDestroy⟩
  | @visit k rest _ hpushes => exact hpushes.atDestroy
  | next hsame => exact ⟨hsame.immediateAtDestroy, hsame.attachedAtDestroy⟩
  | later _ _ hpushes => exact hpushes.atDestroy

/-! ## The destructor keeps its invariant -/

omit [DecidableEq T] in
/-- The tasks go on, and the thread does too. -/
theorem DtorOk.move (h : DtorOk cfg s n) (hexits : s'.exits = s.exits)
    (hqueued : s'.immediateAtDestroy = s.immediateAtDestroy ∧
      s'.attachedAtDestroy = s.attachedAtDestroy)
    (hplace : ∀ m q, s.place m = some q → s'.place m = some q ∨
      s'.place m = some (.visiting cfg.main) ∨ s'.place m = some .finished)
    (hbefore : ∀ m, s.place m = some (.attached cfg.main) → n.beforeLaunch = true →
      s'.place m = some (.attached cfg.main) → n'.beforeLaunch = true)
    (hdrain : ∀ pc, n'.terminalAt = some pc → DrainOk s'.exec.immediate (s'.pass cfg.main) ∧
      DrainPlan (robinAccess (s'.walltimeStep .exec)) (s'.pass cfg.main).drains pc) :
    DtorOk cfg s' n' where
  exits := hexits.trans h.exits
  old := by
    rw [hqueued.1]
    intro b k hk
    rcases h.old b k hk with hq | hq | hq
    · exact hplace _ _ hq
    · exact .inr (by simpa using hplace _ _ hq)
    · exact .inr (by simpa [or_comm] using hplace _ _ hq)
  oldAttached := by
    rw [hqueued.2]
    intro k hk
    obtain ⟨honward, hun⟩ := h.oldAttached k hk
    rcases honward with hq | hq | hq
    · exact ⟨hplace _ _ hq, fun hq' => hbefore _ hq (hun hq) hq'⟩
    · have hq' := hplace _ _ hq
      exact ⟨.inr (by simpa using hq'), fun heq => by simp [heq] at hq'⟩
    · have hq' := hplace _ _ hq
      exact ⟨.inr (by simpa [or_comm] using hq'), fun heq => by simp [heq] at hq'⟩
  drain := hdrain

omit [DecidableEq T] in
/-- Nothing happens to the queues, and the thread moves on. -/
theorem DtorOk.same (h : DtorOk cfg s n) (hs : SameQueues s s') (hexits : s'.exits = s.exits)
    (hstep : s'.walltimeStep = s.walltimeStep)
    (hbefore : n.beforeLaunch = true → n'.beforeLaunch = true)
    (hplan : ∀ pc, n'.terminalAt = some pc → ∃ pc₀, n.terminalAt = some pc₀ ∧
      ∀ robin drains, DrainPlan robin drains pc₀ → DrainPlan robin drains pc) :
    DtorOk cfg s' n' := by
  refine h.move hexits ⟨hs.immediateAtDestroy, hs.attachedAtDestroy⟩ (fun m q hq => ?_)
    (fun m _ hn _ => hbefore hn) fun pc hpc => ?_
  · rw [hs.place]
    exact .inl hq
  · obtain ⟨pc₀, hpc₀, hgo⟩ := hplan pc hpc
    obtain ⟨hdrain, hplan⟩ := h.drain pc₀ hpc₀
    rw [hstep, hs.drains]
    exact ⟨hdrain.same hs, hgo _ _ hplan⟩

variable [DecidableEq O]

/-- User code runs in a callback. -/
theorem DtorOk.keeps (h : DtorOk cfg s n) (hk : Keeps s s' cfg.main) (hplace : PlaceOk s s.tasks) :
    DtorOk cfg s' n := by
  refine h.move hk.flags.exits hk.queues.atDestroy (fun m q hq => .inl (hk.queues.place hplace hq))
    (fun m _ hn _ => hn) fun pc hpc => ?_
  obtain ⟨hdrain, hplan⟩ := h.drain pc hpc
  obtain ⟨hdrain', hdrains⟩ := hdrain.pushes hk.queues
  rw [hk.flags.walltimeStep, hdrains]
  exact ⟨hdrain', hplan⟩

/-- The loop of a final pass goes on. -/
theorem DtorOk.continues (h : DtorOk cfg s (.run f c pc)) (hpc : s.thread cfg.main = .run f c pc)
    (hc : c.isDtor = true) (hcheck : pc ≠ .check) (hf : f.loop = .exec)
    (hgo : Continues s s' cfg.main f c pc) (hplace : PlaceOk s s.tasks) :
    DtorOk cfg s' (s'.thread cfg.main) := by
  obtain ⟨f', pc', hgoes⟩ := hgo.goes
  have htasks : s.tasks cfg.main = pc.tasks := by simp [State.tasks, hpc, ThreadPc.tasks]
  refine h.move hgo.flags.exits hgoes.queues.atDestroy
    (fun m q hq => hgoes.queues.place hplace htasks hq) (fun m hq hn hq' => ?_) fun pc₁ hpc₁ => ?_
  · -- The queue is drained by the step that leaves the launch of it.
    have hun : pc.unlaunched = true := by cases c <;> simp_all [ThreadPc.beforeLaunch]
    simp [hgoes.queues.unlaunched hplace hcheck hun hq] at hq'
  · have hterminal : c = .execTerminal ∧ pc' = pc₁ := by
      rcases hgoes.thread with hthread | hthread <;> rw [hthread] at hpc₁ <;>
        cases c <;> simp_all [ThreadPc.terminalAt]
    obtain ⟨rfl, rfl⟩ := hterminal
    obtain ⟨hdrain, hplan⟩ := h.drain pc rfl
    rw [hgo.flags.walltimeStep]
    exact hgoes.queues.drain hf hdrain hplan

end IoUring.Exec.RunLoop
