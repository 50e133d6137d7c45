import IoUring.Exec.RunLoopStep

/-!
# The invariant of all threads

An activation that returns has made its pass to the end, or it has found that a
thread had left the same object through the stop branch before.
-/

namespace IoUring.Exec.RunLoop

variable {O T : Type*} [DecidableEq O] [DecidableEq T]

structure LoopInv (s : State O T) : Prop where
  threads : ∀ t, ThreadOk t (s.locals t) (s.pass t) (s.thread t)
  stops : ∀ loop, s.mustStop loop = true ↔ ∃ e ∈ s.exits, e.loop = loop
  served : ∀ e ∈ s.exits, Served e.pass ↔ e.pass.first = true

variable {cfg : Config O T} {s s' : State O T} {t : T} {f : Frame T} {c : Caller T} {ch : Choice}
  {pc : LoopPc O} {p : RunPolicy} {l l' : IoUringExecLocal O} {log log' : PassLog O}

/-! ## One thread changes -/

omit [DecidableEq T] in
/-- A change of a local and its log that every point of a pass survives. -/
theorem ThreadOk.change {threadPc : ThreadPc O T} (h : ThreadOk t l log threadPc)
    (hpass : ∀ p pc, PassOk p l log pc → PassOk p l' log' pc)
    (hsq : l.ring.sq = [] → l'.ring.sq = []) (hfirst : log'.first = log.first) :
    ThreadOk t l' log' threadPc := by
  cases threadPc with
  | drain f c => exact ⟨h.1, h.2.1, hsq h.2.2⟩
  | run f c pc => exact ⟨h.1, fun hc => hpass _ _ (h.2 hc)⟩
  | callback f c pc => exact ⟨h.1, h.2.1, fun hc => hpass _ _ (h.2.2 hc)⟩
  | detach => exact h.imp (fun hc => ⟨hfirst.trans hc.1, hpass _ _ hc.2⟩) (hpass _ _)
  | _ => exact h

theorem LoopInv.change (h : LoopInv s) (helse : Elsewhere s s' t)
    (hstop : s'.mustStop = s.mustStop) (hexits : s'.exits = s.exits)
    (ht : ThreadOk t (s'.locals t) (s'.pass t) (s'.thread t)) : LoopInv s' where
  threads := by
    intro t'
    by_cases heq : t' = t
    · rw [heq]
      exact ht
    · obtain ⟨hl, hp, hpc⟩ := helse t' heq
      rw [hl, hp, hpc]
      exact h.threads t'
  stops := by
    rw [hstop, hexits]
    exact h.stops
  served := by
    rw [hexits]
    exact h.served

/-- User code runs on a thread that has no loop, or in a callback. -/
theorem LoopInv.user (h : LoopInv s) (hk : Keeps s s' t) (huser : (s.thread t).isUser = true) :
    LoopInv s' := by
  refine h.change hk.elsewhere hk.flags.mustStop hk.flags.exits ?_
  have ht := h.threads t
  rw [hk.thread]
  cases hpc : s.thread t with
  | outside => trivial
  | callback f c pc =>
      rw [hpc] at ht
      exact ⟨ht.1, ht.2.1, fun hc => hk.pass _ _ ht.2.1 (ht.2.2 hc)⟩
  | _ => simp [hpc, ThreadPc.isUser] at huser

theorem Continues.inv (h : Continues s s' t f c pc) (hinv : LoopInv s) (hf : FrameOk t f c)
    (hpass : c ≠ .user → PassOk f.policy (s.locals t) (s.pass t) pc) : LoopInv s' := by
  refine hinv.change h.elsewhere h.flags.mustStop h.flags.exits ?_
  obtain ⟨f', pc', hgo⟩ := h.goes
  have hf' := hf.congr hgo.loop hgo.policy
  have hnext : c ≠ .user → PassOk f'.policy (s'.locals t) (s'.pass t) pc' := fun hc => by
    rw [hgo.policy]
    exact hgo.pass (hpass hc)
  rcases hgo.thread with hthread | hthread <;> rw [hthread]
  · exact ⟨hf', hnext⟩
  · exact ⟨hf', hgo.queues.ne_check, hnext⟩

/-! ## Entry and return -/

/-- Every return but that of the stop branch leaves the exits alone. -/
theorem returnRun_inv (hinv : LoopInv s) (hf : FrameOk t f c)
    (hend : c ≠ .user → PassEnd f.policy (s.locals t) (s.pass t)) (info : RunProgressInfo) :
    LoopInv (returnRun s t f info c) := by
  have helse := (returnRun_elsewhere s t f info c).1
  cases c with
  | user => exact hinv.change helse rfl rfl (by simp [returnRun, State.setThread, ThreadOk])
  | localDtor =>
      refine hinv.change helse rfl rfl ?_
      have hend := hend (by simp)
      rw [hf.1] at hend
      simpa [returnRun, State.setThread, ThreadOk] using hend
  | execTransfer =>
      have hflags := (Calm.getLocal s t).flags
      exact hinv.change helse hflags.mustStop hflags.exits (by simp [returnRun, State.setThread, ThreadOk])
  | execTerminal => exact hinv.change helse rfl rfl (by simp [returnRun, State.setThread, ThreadOk])
  | stopRequest outer =>
      have hserved : Served (s.pass t) ↔ (s.pass t).first = true := by
        have hend := hend (by simp)
        rw [hf.1] at hend
        exact hend.served
      have hloop : f.loop = outer.loop := hf.2
      exact {
        threads := by
          intro t'
          by_cases heq : t' = t
          · subst heq
            simp [returnRun, State.setThread, ThreadOk]
          · obtain ⟨hl, hp, hpc⟩ := helse t' heq
            rw [hl, hp, hpc]
            exact hinv.threads t'
        stops := by
          intro loop
          simp only [returnRun, State.setThread, List.mem_cons, exists_eq_or_imp, hloop]
          by_cases heq : loop = outer.loop
          · simp [heq]
          · rw [Function.update_of_ne heq, hinv.stops loop]
            simp [Ne.symm heq]
        served := by
          intro e he
          rcases List.mem_cons.mp he with rfl | he
          · exact hserved
          · exact hinv.served e he }

/-- The test of `_runloop_must_have_stopped`. -/
theorem Enters.inv (h : Enters s s' t f c) (hinv : LoopInv s)
    (hpc : s.thread t = .run f c .check) : LoopInv s' := by
  have ht := hinv.threads t
  rw [hpc] at ht
  obtain ⟨hf, hpass⟩ := ht
  cases h with
  | @stopped s₁ hstop hcalm hlocals hlog heq =>
      rw [heq]
      have hpass₁ : c ≠ .user → PassOk f.policy (s₁.locals t) (s₁.pass t) .check := fun hc => by
        rw [hlocals, hlog]
        exact (hpass hc).note _
      have hinv₁ : LoopInv s₁ := hinv.change hcalm.elsewhere hcalm.flags.mustStop hcalm.flags.exits
        (by rw [hcalm.thread, hpc]; exact ⟨hf, hpass₁⟩)
      obtain ⟨e, he, hloop⟩ := (hinv.stops f.loop).mp hstop
      refine returnRun_inv hinv₁ hf (fun hc => .inl ⟨?_, hpass₁ hc⟩) _
      simpa [hlog] using ⟨e, he, hloop⟩
  | @entered s₁ hstop hcalm hring hattached hlog heq =>
      rw [heq]
      have hfirst : (s.exits.all fun e => e.loop ≠ f.loop) = true := by
        simp only [List.all_eq_true, decide_eq_true_eq]
        intro e he hloop
        simp [(hinv.stops f.loop).mpr ⟨e, he, hloop⟩] at hstop
      refine hinv.change (hcalm.elsewhere.trans (elsewhere_setThread _ t _)) hcalm.flags.mustStop
        hcalm.flags.exits ?_
      simp only [State.setThread, Function.update_self, ThreadOk, hlog]
      exact ⟨hf, fun hc => (((hpass hc).note _).enter hfirst).congr_local hring hattached⟩

/-! ## The end of a step -/

/-- `submit_destructive_command` begins. -/
theorem LoopInv.command (hinv : LoopInv s) (hf : FrameOk t f c) (hc : c ≠ .user) :
    LoopInv (s.setThread t (.command f c)) :=
  hinv.change (elsewhere_setThread s t _) rfl rfl (by simpa [State.setThread, ThreadOk] using ⟨hf, hc⟩)

theorem Ends.inv (h : Ends s s' t f c) (hinv : LoopInv s) (hf : FrameOk t f c)
    (hpass : c ≠ .user → PassOk f.policy (s.locals t) (s.pass t) .tail) : LoopInv s' := by
  have hcalm : ∀ s₁, Calm s s₁ t → s₁.locals = s.locals → s₁.pass = s.pass → LoopInv s₁ :=
    fun s₁ h hlocals hlog => hinv.change h.elsewhere h.flags.mustStop h.flags.exits
      (by rw [hlocals, hlog, h.thread]; exact hinv.threads t)
  -- Only a `run()` of the user goes on after a step.
  have huser : f.policy.weaklyParallel = false → c = .user := fun hweakly => by
    by_contra hc
    simp [(hpass hc).plan.2.2.2.2.1] at hweakly
  cases h with
  | back info h hlocals hlog heq hl hp =>
      rw [heq]
      refine returnRun_inv (hcalm _ h hlocals hlog) (hf.congr hl hp) (fun hc => .inr ?_) info
      rw [hlocals, hlog, hp]
      exact hpass hc
  | stop hweakly h hstop heq hl =>
      rw [heq]
      refine hinv.change (h.elsewhere.trans (elsewhere_setThread _ t _)) h.flags.mustStop h.flags.exits ?_
      simp [State.setThread, ThreadOk, FrameOk, hl]
  | again hweakly h heq hl hp =>
      rw [heq]
      refine hinv.change (h.elsewhere.trans (elsewhere_setThread _ t _)) h.flags.mustStop h.flags.exits ?_
      simp [State.setThread, ThreadOk, FrameOk, huser hweakly]

/-! ## All labels -/

theorem step_inv {a : Label O T} (hinv : LoopInv s) (h : Step cfg s a s') : LoopInv s' := by
  cases h with
  | @command t f c _ r hpc hr =>
      have ht := hinv.threads t
      rw [hpc] at ht
      refine hinv.change ((elsewhere_setLocal s t _).trans (elsewhere_setThread _ t _)) rfl rfl ?_
      simpa [State.setThread, State.setLocal, ThreadOk, Ring.submit] using ht
  | @drain t f c _ hpc =>
      have ht := hinv.threads t
      rw [hpc] at ht
      refine hinv.change ((elsewhere_setPass s t _).trans (elsewhere_setThread _ t _)) rfl rfl ?_
      simp only [State.setThread, State.setPass, Function.update_self, ThreadOk]
      exact ⟨ht.1, fun hc => .start (ht.1.policy hc) ht.2.2 _⟩
  | check hpc henters => exact henters.inv hinv hpc
  | @tail t f c _ _ hpc hends =>
      have ht := hinv.threads t
      rw [hpc] at ht
      exact hends.inv hinv ht.1 ht.2
  | @inside t f c _ pc _ hpc _ _ _ hgo =>
      have ht := hinv.threads t
      rw [hpc] at ht
      exact hgo.inv hinv ht.1 ht.2
  | waitLocals hpc hone => exact LoopInv.command { hinv with } (by simp [FrameOk]) (by simp)
  | @detach t _ hpc =>
      -- `_running_local` is the only thing that differs between the two cases.
      have hend : ∀ s₁ : State O T, Elsewhere s s₁ t → s₁.mustStop = s.mustStop →
          s₁.exits = s.exits → LoopInv ((s₁.setLocal t { s₁.locals t with stage := .closed }).setThread t
            .ended) := fun s₁ helse hstop hexits =>
        hinv.change (helse.trans ((elsewhere_setLocal _ t _).trans (elsewhere_setThread _ t _)))
          hstop hexits (by simp [State.setThread, ThreadOk])
      simp only [detachStep]
      split
      · exact hend s (.refl s t) rfl rfl
      · exact hend _ (fun _ _ => ⟨rfl, rfl, rfl⟩) rfl rfl
  | @start t o ch huser => exact hinv.user (.startOp cfg s t o ch) huser
  | @schedule t _ huser => exact hinv.user (.pushImmediate s t none) huser
  | @scheduleOn t t' _ huser hstage =>
      refine hinv.change (elsewhere_setLocal s t' _) rfl rfl ?_
      simp only [State.pushAttached, State.setLocal, Function.update_self]
      exact (hinv.threads t').change (fun _ _ hp => hp.attach _) id rfl
  | @ret t f c pc _ hpc =>
      have ht := hinv.threads t
      rw [hpc] at ht
      exact hinv.change (elsewhere_setThread s t _) rfl rfl
        (by simpa [State.setThread, ThreadOk] using ⟨ht.1, ht.2.2⟩)
  | @call t loop policy _ hpc =>
      exact hinv.change (elsewhere_setThread s t _) rfl rfl
        (by simp [State.setThread, ThreadOk, FrameOk])
  | exitLocal hpc hstage => exact hinv.command (by simp [FrameOk]) (by simp)
  | @exit t _ hpc hstage =>
      exact hinv.change (elsewhere_setThread s t _) rfl rfl (by simp [State.setThread, ThreadOk])
  | @destroy t _ hpc hmain halive =>
      have hlocal := hinv.user (.getLocal s t) (by simp [hpc, ThreadPc.isUser])
      exact LoopInv.command { hlocal with } (by simp [FrameOk]) (by simp)
  | @post t i res e r hstage hr =>
      refine hinv.change ((elsewhere_setLocal s t _).trans (elsewhere_setPass _ t _)) rfl rfl ?_
      simp only [State.setPass, State.setLocal, Function.update_self]
      exact (hinv.threads t).change (fun _ _ hp => hp.post hr) (fun hsq => (Ring.post_sq hr).trans hsq) rfl
  | @stopPush t o hstage hring =>
      refine hinv.change (elsewhere_setLocal s t _) rfl rfl ?_
      simp only [State.setStopping, State.setLocal, Function.update_self]
      exact (hinv.threads t).change (fun _ _ hp => hp.congr_local rfl rfl) id rfl
  | requestStop => exact { hinv with }
  | stopScope => exact { hinv with }

theorem reachable_inv {ok : State O T → Label O T → Prop} (h : (machine cfg).Reach ok s) :
    LoopInv s := by
  refine h.invariant LoopInv (fun s hs => ?_) fun s a s' _ hinv _ hstep =>
    step_inv hinv (.of_step hstep)
  obtain ⟨-, -, -, -, -, -, hstop, hthread, -, hexits, -⟩ := hs
  exact {
    threads := fun t => by rw [hthread t]; trivial
    stops := by simp [hstop, hexits]
    served := by simp [hexits] }

end IoUring.Exec.RunLoop
