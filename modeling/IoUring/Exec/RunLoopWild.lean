import IoUring.Exec.RunLoopCancel

/-!
# After the destruction of the executor

The local of the thread that destroyed the executor outlives it and points back to
it. Its transfer pass stays away from the executor as long as the two final passes
have left no operation on its ring.
-/

namespace IoUring.Exec.RunLoop

variable {O T : Type*} [DecidableEq O] [DecidableEq T]

/-- The user calls a member of the executor or of a loop on it. -/
def Label.usesExec : Label O T → Bool
  | .user _ (.start _) _ => true
  | .user _ .schedule _ => true
  | .user _ (.call _ _) _ => true
  | .requestStop => true
  | .stopScope => true
  | _ => false

/-- What the final terminal pass leaves on the ring: at the test of the flag, no
operation has a CQE when a thread has left the executor through the stop branch;
at its end, every operation that took an SQE during the pass had its CQE posted
before the last peek. -/
def LeavesNothing (s : State O T) (t : T) : Prop :=
  ((s.thread t).terminalAt = some .check → (∃ e ∈ s.exits, e.loop = .exec) →
      ∀ o, opCount ((s.pass t).startCq.map Cqe.data) o = 0) ∧
    ((s.thread t).terminalAt = some .tail →
      ∀ o, (s.pass t).taken.count o ≤ opCount ((s.pass t).lastPosted.map Cqe.data) o)

/-- The kernel has finished every operation in flight when the final terminal pass
begins. -/
def Settles (s : State O T) (a : Label O T) : Prop :=
  ∀ t, a.actor = some t → (s.thread t).terminalAt ≠ none → (s.pass t).settled = true

/-- The executor is destroyed when no other thread is alive, and the user does not
use it afterwards. -/
def Unused (cfg : Config O T) (s : State O T) (a : Label O T) : Prop :=
  Alone cfg s a ∧ Settles s a ∧ (a.usesExec = true → s.exec.alive = true)

/-- Moreover the terminal pass leaves no operation on the ring. -/
def Outlived (cfg : Config O T) (s : State O T) (a : Label O T) : Prop :=
  Unused cfg s a ∧ ∀ t, a.actor = some t → LeavesNothing s t

instance [Fintype O] (s : State O T) (t : T) : Decidable (LeavesNothing s t) :=
  inferInstanceAs (Decidable ((_ = _ → (∃ e ∈ s.exits, e.loop = .exec) → ∀ _, _ = _) ∧
    (_ = _ → ∀ _, _ ≤ _)))

instance [Fintype T] (s : State O T) (a : Label O T) : Decidable (Settles s a) :=
  inferInstanceAs (Decidable (∀ _, _ = _ → _ → _ = _))

instance [Fintype T] (cfg : Config O T) (s : State O T) (a : Label O T) :
    Decidable (Unused cfg s a) :=
  inferInstanceAs (Decidable (_ ∧ Settles s a ∧ (_ = _ → _ = _)))

instance [Fintype O] [Fintype T] (cfg : Config O T) (s : State O T) (a : Label O T) :
    Decidable (Outlived cfg s a) :=
  inferInstanceAs (Decidable (_ ∧ ∀ _, _ = _ → LeavesNothing _ _))

/-- A point of the transfer pass from which it does not go to the executor. -/
def LoopPc.Tame : LoopPc O → Prop
  | .launch sources => ∀ source ∈ sources, source = .attached
  | .visit tasks sources => (∀ k ∈ tasks, k.restartOf = none) ∧
      ∀ source ∈ sources, source = .attached
  | .consume rest _ => ∀ e ∈ rest, e.data = none
  | _ => True

def ThreadPc.Tame : ThreadPc O T → Prop
  | .command _ c => c = .localDtor
  | .drain _ c => c = .localDtor
  | .run _ c pc => c = .localDtor ∧ pc.Tame
  | .callback _ c pc => c = .localDtor ∧ pc.Tame
  | .waitLocals => False
  | _ => True

/-- The ring of the thread holds no operation, and the thread stays away from the
executor. -/
structure DeadOk (s : State O T) (t : T) : Prop where
  ring : ∀ o, (s.locals t).ring.tokens o = 0
  thread : (s.thread t).Tame

variable {cfg : Config O T} {s s' : State O T} {t : T} {f : Frame T} {c : Caller T} {ch : Choice}
  {a : Label O T} {pc : LoopPc O}

/-- Nothing is accessed, and no operation comes onto the ring. -/
theorem DeadOk.goto {s₁ : State O T} {n : ThreadPc O T} (hwild : s₁.wild = s.wild)
    (hring : ∀ o, (s₁.locals t).ring.tokens o = 0) (hn : n.Tame) :
    (s₁.setThread t n).wild = s.wild ∧ DeadOk (s₁.setThread t n) t :=
  ⟨hwild, hring, by simpa [State.setThread] using hn⟩

theorem tokens_data {r : Ring O} (h : ∀ o, r.tokens o = 0) {e : Cqe O} (he : e ∈ r.cq) :
    e.data = none := by
  cases hdata : e.data with
  | none => rfl
  | some o =>
      have hpos : 0 < (r.cq.map Cqe.data).count (some o) :=
        List.count_pos_iff.mpr (List.mem_map.mpr ⟨e, he, hdata⟩)
      have := h o
      simp only [Ring.tokens] at this
      omega

theorem tokens_getSqe_zero {r r' : Ring O} {entries : Nat} {e : Sqe O}
    (hr : r.getSqe entries e = some r') (he : e.data = none) (h : ∀ o, r.tokens o = 0) (o : O) :
    r'.tokens o = 0 := by
  rw [Ring.tokens_getSqe hr o, h o]
  simp [he]

theorem tokens_drop {r : Ring O} (h : ∀ o, r.tokens o = 0) (n : Nat) (o : O) :
    (r.advance n).tokens o = 0 := by
  have hle : (((r.cq.drop n).map Cqe.data).count (some o)) ≤ (r.cq.map Cqe.data).count (some o) :=
    ((List.drop_sublist n r.cq).map Cqe.data).count_le _
  have := h o
  simp only [Ring.tokens, Ring.advance] at this ⊢
  omega

/-- The transfer pass of a thread whose ring holds no operation. -/
theorem dead_loopStep (hf : FrameOk t f .localDtor) (hdead : DeadOk s t) (hpc : pc.Tame)
    (huser : ∀ k ∈ (s.locals t).attached, k.restartOf = none)
    (h : loopStep cfg s t f .localDtor ch pc = some s') : s'.wild = s.wild ∧ DeadOk s' t := by
  obtain ⟨hpolicy, hloop⟩ := hf
  have hring := hdead.ring
  cases pc with
  | check =>
      obtain rfl := Option.some.inj h
      simp only [checkStep, hloop, State.touchLoop, State.noteFirst, State.enter, hpolicy]
      split
      · exact DeadOk.goto rfl (by simpa [State.setPass] using hring) (by simp [ThreadPc.Tame])
      · refine DeadOk.goto rfl (by simpa [State.setPass] using hring) ⟨rfl, ?_⟩
        simp [LoopPc.Tame, launchSources, transferPolicy]
  | launch sources =>
      obtain rfl := Option.some.inj h
      cases sources with
      | nil =>
          refine DeadOk.goto rfl hring ⟨rfl, ?_⟩
          simp [hpolicy, afterLaunch, transferPolicy, LoopPc.Tame]
      | cons source rest =>
          cases source with
          | attached =>
              refine DeadOk.goto rfl
                (by simpa [State.drainAttached, State.visiting, State.setLocal] using hring)
                ⟨rfl, fun k hk => huser k (mem_launchOrder.mp hk),
                  fun source hs => hpc source (by simp [hs])⟩
          | robin => simpa using hpc .robin (by simp)
          | random => simpa using hpc .random (by simp)
  | visit tasks sources =>
      cases tasks with
      | nil =>
          obtain rfl := Option.some.inj h
          exact DeadOk.goto rfl hring ⟨rfl, hpc.2⟩
      | cons k rest =>
          obtain rfl := Option.some.inj h
          have hk : k.restartOf = none := hpc.1 k (by simp)
          simp only [visitStep, hpolicy, transferPolicy, hk, State.resume]
          exact DeadOk.goto rfl hring ⟨rfl, fun k' hk' => hpc.1 k' (by simp [hk']), hpc.2⟩
  | submit =>
      obtain rfl := Option.some.inj h
      refine DeadOk.goto rfl (by simpa [State.setLocal] using hring) ⟨rfl, ?_⟩
      simp [hpolicy, transferPolicy, afterSubmit, LoopPc.Tame]
  | wait =>
      simp only [loopStep] at h
      split at h
      · cases h
      · obtain rfl := Option.some.inj h
        refine DeadOk.goto rfl hring ⟨rfl, ?_⟩
        simp [hpolicy, transferPolicy, afterSubmit, LoopPc.Tame]
  | peek =>
      obtain rfl := Option.some.inj h
      simp only [peekStep]
      split
      · refine DeadOk.goto rfl (by simpa [State.setPass] using hring) ⟨rfl, ?_⟩
        simp [hpolicy, transferPolicy, afterIodone, LoopPc.Tame]
      · refine DeadOk.goto rfl hring ⟨rfl, fun e he => ?_⟩
        exact tokens_data hring (List.mem_of_mem_take he)
  | consume rest n =>
      cases rest with
      | nil =>
          obtain rfl := Option.some.inj h
          refine DeadOk.goto rfl (by simpa [State.setLocal] using tokens_drop hring n) ⟨rfl, ?_⟩
          simp [hpolicy, transferPolicy, greedy, LoopPc.Tame]
      | cons e rest =>
          obtain rfl := Option.some.inj h
          have he : e.data = none := hpc e (by simp)
          simp only [consumeStep, he]
          exact DeadOk.goto rfl (by simpa [State.setPass] using hring)
            ⟨rfl, fun e' he' => hpc e' (by simp [he'])⟩
  | stopping =>
      obtain rfl := Option.some.inj h
      exact DeadOk.goto rfl (by simpa [State.setStopping, State.setLocal] using hring) ⟨rfl, trivial⟩
  | cancelling b ops =>
      obtain rfl := Option.some.inj h
      cases ops with
      | nil => exact DeadOk.goto rfl hring ⟨rfl, trivial⟩
      | cons o ops =>
          simp only [cancelStep]
          split
          · next r hr =>
              have hcancel := tokens_getSqe_zero hr rfl hring
              exact DeadOk.goto rfl (by simpa [State.takeSqe, State.setPass, State.setLocal] using hcancel)
                ⟨rfl, trivial⟩
          · exact DeadOk.goto rfl (by simpa [State.setStopping, State.setLocal] using hring) ⟨rfl, trivial⟩
  | tail =>
      obtain rfl := Option.some.inj h
      simp only [tailStep, hpolicy, transferPolicy, returnRun]
      exact DeadOk.goto rfl hring trivial

/-! ## From the destruction on -/

/-- The destroying thread dies with an empty ring. -/
theorem Dies.deadOk {s₁ : State O T} (h : Dies s s' t f pc s₁)
    (hthread : ThreadOk t (s.locals t) (s.pass t) (s.thread t))
    (hstops : ∀ loop, s.mustStop loop = true ↔ ∃ e ∈ s.exits, e.loop = loop)
    (hsettled : (s.pass t).settled = true) (hleaves : LeavesNothing s t) : DeadOk s' t := by
  rw [h.thread] at hthread
  have hpass := hthread.2 (by simp)
  have hloop : f.loop = .exec := hthread.1.2
  have hlocals : s'.locals = s.locals := by rw [h.after]; exact h.locals
  refine ⟨?_, by simp [h.after, State.setThread, ThreadPc.Tame]⟩
  rw [hlocals]
  rcases h.point with ⟨rfl, hstop⟩ | rfl
  · have hcq := hleaves.1 (by simp [h.thread, ThreadPc.terminalAt]) ((hstops _).mp (hloop ▸ hstop))
    have hend : PassEnd f.policy (s.locals t) { s.pass t with first := false } :=
      .inl ⟨rfl, hpass.note false⟩
    exact (hend.tokens hsettled).mpr ⟨.inr hcq, by simp [(hpass.check rfl).2.1]⟩
  · have hend : PassEnd f.policy (s.locals t) (s.pass t) := .inr hpass
    exact (hend.tokens hsettled).mpr ⟨.inl (hpass.entered (by simp)).2,
      hleaves.2 (by simp [h.thread, ThreadPc.terminalAt])⟩

/-- A step of the thread after the destruction. -/
theorem dead_threadStep (hinv : LoopInv s) (hplace : PlaceOk s s.tasks)
    (hdead : DeadOk s cfg.main) (h : threadStep cfg s cfg.main ch = some s') :
    s'.wild = s.wild ∧ DeadOk s' cfg.main := by
  have hthread := hinv.threads cfg.main
  have htame := hdead.thread
  have hring := hdead.ring
  simp only [threadStep] at h
  cases hpc : s.thread cfg.main with
  | outside => simp [hpc] at h
  | callback f c pc => simp [hpc] at h
  | ended => simp [hpc] at h
  | waitLocals => simp [hpc, ThreadPc.Tame] at htame
  | command f c =>
      rw [hpc] at htame
      simp only [hpc, commandStep] at h
      split at h
      · next r hr =>
          obtain rfl := Option.some.inj h
          have hsubmit := tokens_getSqe_zero hr rfl fun o => (Ring.tokens_submit _ _ o).trans (hring o)
          exact DeadOk.goto rfl (by simpa [State.setLocal] using hsubmit) htame
      · cases h
  | drain f c =>
      rw [hpc] at htame
      simp only [hpc] at h
      obtain rfl := Option.some.inj h
      exact DeadOk.goto rfl hring ⟨htame, trivial⟩
  | run f c pc =>
      rw [hpc] at htame hthread
      simp only [hpc] at h
      obtain ⟨rfl, hpc'⟩ := htame
      exact dead_loopStep hthread.1 hdead hpc' (hplace.user cfg.main) h
  | detach =>
      simp only [hpc, detachStep, if_pos] at h
      obtain rfl := Option.some.inj h
      exact DeadOk.goto rfl (by simpa [State.setLocal] using hring) trivial

/-- A step after the destruction. -/
theorem dead_step (hinv : LoopInv s) (hplace : PlaceOk s s.tasks)
    (hgone : ∀ t, t ≠ cfg.main → s.Gone t) (halive : s.exec.alive = false)
    (hdead : DeadOk s cfg.main) (hok : Outlived cfg s a)
    (h : (machine cfg).step s a = some s') : s'.wild = s.wild ∧ DeadOk s' cfg.main := by
  have hstep := Step.of_step h
  have hring := hdead.ring
  cases a with
  | thread t ch =>
      by_cases ht : t = cfg.main
      · subst ht
        exact dead_threadStep hinv hplace hdead h
      · exact ((hgone t ht).not_thread hstep).elim
  | user t act ch =>
      obtain ⟨⟨halone, -, hact⟩, -⟩ := hok
      obtain rfl : t = cfg.main := halone.2 (by simp [State.destroying, halive])
      have htame := hdead.thread
      cases hstep with
      | start _ => simp [Label.usesExec, halive] at hact
      | schedule _ => simp [Label.usesExec, halive] at hact
      | call _ => simp [Label.usesExec, halive] at hact
      | @scheduleOn _ t' _ _ _ =>
          refine ⟨rfl, fun o => ?_, htame⟩
          rw [← hring o]
          by_cases ht : cfg.main = t' <;> simp [State.pushAttached, State.setLocal, ht]
      | ret hpc =>
          rw [hpc] at htame
          exact DeadOk.goto rfl hring htame
      | exitLocal _ _ => exact DeadOk.goto rfl hring rfl
      | exit _ _ => exact DeadOk.goto rfl hring trivial
      | destroy _ _ hlive => simp [hlive] at halive
  | post t i res =>
      cases hstep with
      | @post _ _ _ e r _ hr =>
          refine ⟨rfl, fun o => ?_, hdead.thread⟩
          rw [← hring o]
          by_cases ht : cfg.main = t
          · subst ht
            simpa [State.setPass, State.setLocal] using Ring.tokens_post hr o
          · simp [State.setPass, State.setLocal, ht]
  | stopPush t o =>
      cases hstep with
      | stopPush _ _ =>
          refine ⟨rfl, fun o' => ?_, hdead.thread⟩
          rw [← hring o']
          by_cases ht : cfg.main = t <;> simp [State.setStopping, State.setLocal, ht]
  | requestStop => simp [Outlived, Unused, Label.usesExec, halive] at hok
  | stopScope => simp [Outlived, Unused, Label.usesExec, halive] at hok

/-- In every run in which the executor is destroyed when no other thread is alive
and its terminal pass leaves no operation on the ring, the destroyed executor is
not accessed by any later step, unless the user does so. -/
theorem executor_outlived (h : (machine cfg).Reach (Outlived cfg) s) : s.wild = false := by
  have hinv : s.wild = false ∧ (s.exec.alive = false → DeadOk s cfg.main) := by
    refine h.invariant (fun s => s.wild = false ∧ (s.exec.alive = false → DeadOk s cfg.main))
      (fun s hs => ?_) fun s a s' hreach ih hok hstep => ?_
    · obtain ⟨halive, -, -, -, -, -, -, -, -, -, -, -, hwild⟩ := hs
      exact ⟨hwild, by simp [halive]⟩
    · have hloop := reachable_inv hreach
      have hflags := step_flags (.of_step hstep)
      by_cases halive : s.exec.alive = true
      · refine ⟨(hflags.wild halive).trans ih.1, fun hdied => ?_⟩
        rcases hflags.alive with hsame | ⟨t, ch, f, pc, s₁, rfl, hdies⟩
        · simp [hsame, halive] at hdied
        · have hmain : t = cfg.main := reachable_main hreach t
            (by simp [hdies.thread, ThreadPc.inDtor, ThreadPc.caller, Caller.isDtor])
          have hsettled := hok.1.2.1 t rfl (by simp [hdies.thread, ThreadPc.terminalAt])
          exact hmain ▸ hdies.deadOk (hloop.threads t) hloop.stops hsettled (hok.2 t rfl)
      · have halive : s.exec.alive = false := by simpa using halive
        have hgone := reach_gone (hreach.mono fun _ _ hok => hok.1.1) (by simp [State.destroying, halive])
        obtain ⟨hwild, hdead⟩ :=
          dead_step hloop (reachable_places hreach) hgone halive (ih.2 halive) hok hstep
        exact ⟨hwild.trans ih.1, fun _ => hdead⟩
  exact hinv.1

section Outlives

/-- An operation is in flight when the executor is destroyed; the thread ends
after that. -/
def outliveRun : List (Label (Fin 2) (Fin 2)) :=
  [.user 0 (.start 0) draw, .user 0 .destroy draw] ++ goes 0 1 ++ [.post 0 0 (-ECANCELED)] ++
    goes 0 30 ++ [.user 0 .exit draw] ++ goes 0 12

theorem executor_outlived_exit : ∃ s : State (Fin 2) (Fin 2),
    (machine pairConfig).Reach (Outlived pairConfig) s ∧ s.thread 0 = .ended ∧
      s.exec.alive = false ∧ s.wild = false := by
  have hrun : ∃ s, ((machine pairConfig).restrict (Outlived pairConfig)).run pairStart outliveRun =
      some s ∧ s.thread 0 = .ended ∧ s.exec.alive = false := ⟨_, rfl, rfl, rfl⟩
  obtain ⟨s, hs, hpc, hdead⟩ := hrun
  have hreach := Machine.Reach.restrict (.start pairStart_init) hs
  exact ⟨s, hreach, hpc, hdead, executor_outlived hreach⟩

/-- The task that the terminal pass cancels starts an operation. -/
def wildRun : List (Label (Fin 2) (Fin 2)) :=
  [.user 0 .schedule draw, .user 0 .destroy draw] ++ goes 0 19 ++
    [.user 0 (.start 1) draw, .user 0 .ret draw] ++ goes 0 9 ++ [.user 0 .exit draw] ++ goes 0 1 ++
    [.post 0 2 (-ECANCELED)] ++ goes 0 8

/-- The transfer pass of the thread restarts the operation on the destroyed
executor. -/
theorem executor_not_outlived : ∃ s : State (Fin 2) (Fin 2),
    (machine pairConfig).Reach (Unused pairConfig) s ∧ s.exec.alive = false ∧ s.wild = true := by
  have hrun : ∃ s, ((machine pairConfig).restrict (Unused pairConfig)).run pairStart wildRun =
      some s ∧ s.exec.alive = false ∧ s.wild = true := ⟨_, rfl, rfl, rfl⟩
  obtain ⟨s, hs, hrest⟩ := hrun
  exact ⟨s, Machine.Reach.restrict (.start pairStart_init) hs, hrest⟩

end Outlives

end IoUring.Exec.RunLoop
