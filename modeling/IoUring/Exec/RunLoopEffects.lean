import IoUring.Exec.RunLoopThread

/-!
# What a loop step does to the locals

Between two points of a loop the locals change in a few ways only. A relation
between states that allows each of them relates the states before and after the
step; the end of a batch, which consumes CQEs, is left out.
-/

namespace IoUring.Exec.RunLoop

variable {O T : Type*} [DecidableEq T]

/-- `R` allows what a loop step does, one access at a time. -/
structure Allows (R : State O T → State O T → Prop) : Prop where
  trans : ∀ {s s' s''}, R s s' → R s' s'' → R s s''
  /-- The locals and their number are as they were. -/
  frame : ∀ {s s'}, s'.locals = s.locals → s'.exec.runningLocal = s.exec.runningLocal → R s s'
  getLocal : ∀ s t, R s (s.getLocal t)
  takeSqe : ∀ {s t entries e r} (taken : List O),
    (s.locals t).ring.getSqe entries e = some r → R s (s.takeSqe t r taken)
  setStopping : ∀ s t b ops, R s (s.setStopping t b ops)
  drain : ∀ s t, R s (s.setLocal t { s.locals t with attached := [] })
  submit : ∀ s t n, R s (s.setLocal t { s.locals t with ring := (s.locals t).ring.submit n })

variable {cfg : Config O T} {s s' : State O T} {t : T} {f : Frame T} {c : Caller T} {ch : Choice}
  {pc : LoopPc O} {R : State O T → State O T → Prop}

namespace Allows

theorem same (hR : Allows R) {s₁ : State O T} (h : R s s₁) (hlocals : s'.locals = s₁.locals)
    (hrunning : s'.exec.runningLocal = s₁.exec.runningLocal) : R s s' :=
  hR.trans h (hR.frame hlocals hrunning)

theorem asyncRestart (hR : Allows R) (s : State O T) (t : T) (o : O) (throws : Bool) :
    R s (s.asyncRestart t o throws).1 := by
  simp only [State.asyncRestart]
  split <;> exact hR.frame rfl rfl

theorem startOp (hR : Allows R) (cfg : Config O T) (s : State O T) (t : T) (o : O) (ch : Choice) :
    R s (startOp cfg s t o ch).1 := by
  simp only [RunLoop.startOp]
  split
  · exact hR.frame rfl rfl
  · apply hR.trans (hR.getLocal s t)
    split
    · next hr => exact hR.takeSqe _ hr
    · exact hR.asyncRestart _ t o ch.throws

theorem touchLoop (hR : Allows R) (s : State O T) (loop : Loop T) : R s (s.touchLoop loop) := by
  cases loop <;> exact hR.frame rfl rfl

theorem returnRun (hR : Allows R) (s : State O T) (t : T) (f : Frame T) (info : RunProgressInfo)
    (c : Caller T) : R s (returnRun s t f info c) := by
  cases c with
  | stopRequest outer => exact hR.same (hR.touchLoop s outer.loop) rfl rfl
  | execTransfer => exact hR.same (hR.getLocal s t) rfl rfl
  | _ => exact hR.frame rfl rfl

variable [DecidableEq O]

/-- Only the end of a batch does more. -/
theorem loopStep (hR : Allows R) (h : loopStep cfg s t f c ch pc = some s')
    (hpc : ∀ k, pc ≠ .consume [] k) : R s s' := by
  cases pc with
  | check =>
      obtain rfl := Option.some.inj h
      have hnote : R s ((s.touchLoop f.loop).noteFirst t f.loop) :=
        hR.same (hR.touchLoop s f.loop) rfl rfl
      simp only [checkStep]
      split
      · exact hR.trans hnote (hR.returnRun _ t f _ c)
      · apply hR.trans hnote
        cases f.loop with
        | exec => exact hR.same (hR.getLocal _ t) rfl rfl
        | own _ => exact hR.frame rfl rfl
  | launch sources =>
      obtain rfl := Option.some.inj h
      cases sources with
      | nil => exact hR.frame rfl rfl
      | cons source sources =>
          cases source with
          | attached => exact hR.same (hR.drain s t) rfl rfl
          | robin => exact hR.frame rfl rfl
          | random => exact hR.frame rfl rfl
  | visit tasks sources =>
      cases tasks with
      | nil => obtain rfl := Option.some.inj h; exact hR.frame rfl rfl
      | cons k rest =>
          obtain rfl := Option.some.inj h
          simp only [visitStep]
          split
          · exact hR.frame rfl rfl
          split
          · exact hR.frame rfl rfl
          split
          · exact hR.frame rfl rfl
          · next o _ _ =>
              have htouch : R s (s.finishTask k).touch := hR.frame rfl rfl
              exact hR.same (hR.trans htouch (hR.startOp cfg _ t o ch)) rfl rfl
  | submit => obtain rfl := Option.some.inj h; exact hR.same (hR.submit s t _) rfl rfl
  | wait =>
      simp only [RunLoop.loopStep] at h
      split at h
      · cases h
      · obtain rfl := Option.some.inj h
        exact hR.frame rfl rfl
  | peek =>
      obtain rfl := Option.some.inj h
      simp only [peekStep]
      split <;> exact hR.frame rfl rfl
  | consume rest k =>
      cases rest with
      | nil => exact absurd rfl (hpc k)
      | cons e rest =>
          obtain rfl := Option.some.inj h
          have hlog : R s (s.setPass t { s.pass t with delivered := (s.pass t).delivered ++ [e] }) :=
            hR.frame rfl rfl
          simp only [consumeStep]
          split
          · exact hR.frame rfl rfl
          · next o _ =>
              have hun := hR.trans hlog (hR.setStopping _ t (cfg.bucket o)
                (((s.locals t).stopping (cfg.bucket o)).erase o))
              split
              · exact hR.same (hR.trans hun (hR.asyncRestart _ t o ch.throws)) rfl rfl
              · exact hR.same hun rfl rfl
  | stopping => obtain rfl := Option.some.inj h; exact hR.same (hR.setStopping s t _ []) rfl rfl
  | cancelling b ops =>
      obtain rfl := Option.some.inj h
      cases ops with
      | nil => exact hR.frame rfl rfl
      | cons o ops =>
          simp only [cancelStep]
          split
          · next hr => exact hR.same (hR.takeSqe [] hr) rfl rfl
          · exact hR.same (hR.setStopping s t b _) rfl rfl
  | tail =>
      obtain rfl := Option.some.inj h
      simp only [tailStep]
      split
      · exact hR.returnRun s t _ _ c
      split
      · exact hR.returnRun s t _ _ c
      split
      · exact hR.returnRun s t _ _ c
      obtain ⟨s₁, hs₁, hseen⟩ : ∃ s₁, (if f.policy.detached = true then s else s.touch) = s₁ ∧
          R s s₁ := ⟨_, rfl, by split <;> exact hR.frame rfl rfl⟩
      rw [hs₁]
      split
      · exact hR.same hseen rfl rfl
      split
      · exact hR.trans hseen (hR.returnRun _ t _ _ c)
      · exact hR.same (hR.trans hseen (hR.touchLoop _ f.loop)) rfl rfl

end Allows

end IoUring.Exec.RunLoop
