import IoUring.Exec.RunLoopThread

/-!
# What one step can do

Each constructor is one way in which a label executes. Inside a loop the step is
known by what it keeps; at the entry and at the end of a loop step by where it
leads.
-/

namespace IoUring.Exec.RunLoop

variable {O T : Type*} [DecidableEq O] [DecidableEq T]

inductive Step (cfg : Config O T) (s : State O T) : Label O T → State O T → Prop
  | command {t f c ch r} (hpc : s.thread t = .command f c)
      (hr : ((s.locals t).ring.submit (s.locals t).ring.sq.length).getSqe (cfg.entries t)
        .cancelAny = some r) :
      Step cfg s (.thread t ch)
        ((s.setLocal t { s.locals t with ring := r.submit r.sq.length }).setThread t (.drain f c))
  | drain {t f c ch} (hpc : s.thread t = .drain f c) :
      Step cfg s (.thread t ch) ((s.setPass t {
        startAttached := (s.locals t).attached
        startCq := (s.locals t).ring.cq
        startFlight := (s.locals t).ring.flight
        startImmediate := s.exec.immediate }).setThread t (.run f c .check))
  | check {t f c ch s'} (hpc : s.thread t = .run f c .check) (henters : Enters s s' t f c) :
      Step cfg s (.thread t ch) s'
  | tail {t f c ch s'} (hpc : s.thread t = .run f c .tail) (hends : Ends s s' t f c) :
      Step cfg s (.thread t ch) s'
  | inside {t f c ch pc s'} (hpc : s.thread t = .run f c pc) (hcheck : pc ≠ .check)
      (htail : pc ≠ .tail) (hs' : loopStep cfg s t f c ch pc = some s')
      (hgo : Continues s s' t f c pc) : Step cfg s (.thread t ch) s'
  | waitLocals {t ch} (hpc : s.thread t = .waitLocals) (hone : s.exec.runningLocal ≤ 1) :
      Step cfg s (.thread t ch) (s.touch.setThread t
        (.command { loop := .exec, policy := terminalPolicy } .execTerminal))
  | detach {t ch} (hpc : s.thread t = .detach) : Step cfg s (.thread t ch) (detachStep cfg s t)
  | start {t o ch} (huser : (s.thread t).isUser = true) :
      Step cfg s (.user t (.start o) ch) (startOp cfg s t o ch).1
  | schedule {t ch} (huser : (s.thread t).isUser = true) :
      Step cfg s (.user t .schedule ch) (s.pushImmediate t none)
  | scheduleOn {t t' ch} (huser : (s.thread t).isUser = true)
      (hstage : (s.locals t').stage = .alive) :
      Step cfg s (.user t (.scheduleOn t') ch) (s.pushAttached t')
  | ret {t f c pc ch} (hpc : s.thread t = .callback f c pc) :
      Step cfg s (.user t .ret ch) (s.setThread t (.run f c pc))
  | call {t loop policy ch} (hpc : s.thread t = .outside) :
      Step cfg s (.user t (.call loop policy) ch)
        (s.setThread t (.run { loop := loop, policy := policy } .user .check))
  | exitLocal {t ch} (hpc : s.thread t = .outside) (hstage : (s.locals t).stage = .alive) :
      Step cfg s (.user t .exit ch) (s.setThread t
        (.command { loop := .own t, policy := transferPolicy } .localDtor))
  | exit {t ch} (hpc : s.thread t = .outside) (hstage : (s.locals t).stage ≠ .alive) :
      Step cfg s (.user t .exit ch) (s.setThread t .ended)
  | destroy {t ch} (hpc : s.thread t = .outside) (hmain : t = cfg.main)
      (halive : s.exec.alive = true) :
      Step cfg s (.user t .destroy ch) ({ s.getLocal t with
        immediateAtDestroy := s.exec.immediate
        attachedAtDestroy := (s.locals t).attached }.setThread t
          (.command { loop := .exec, policy := transferPolicy } .execTransfer))
  | post {t i res e r} (hstage : (s.locals t).stage = .alive)
      (hr : (s.locals t).ring.post i res = some (e, r)) :
      Step cfg s (.post t i res) ((s.setLocal t { s.locals t with ring := r }).setPass t
        { s.pass t with posted := (s.pass t).posted ++ [⟨e.data, res⟩] })
  | stopPush {t o} (hstage : (s.locals t).stage = .alive)
      (hring : 0 < (s.locals t).ring.tokens o) :
      Step cfg s (.stopPush t o)
        (s.setStopping t (cfg.bucket o) (o :: (s.locals t).stopping (cfg.bucket o)))
  | requestStop : Step cfg s .requestStop { s.touch with
      exec := { s.exec with stopRequested := true } }
  | stopScope : Step cfg s .stopScope { s.touch with
      exec := { s.exec with scopeStopped := true } }

variable {cfg : Config O T} {s s' : State O T} {t : T} {ch : Choice}

theorem Step.of_threadStep (h : threadStep cfg s t ch = some s') :
    Step cfg s (.thread t ch) s' := by
  simp only [threadStep] at h
  cases hpc : s.thread t with
  | outside => simp [hpc] at h
  | callback f c pc => simp [hpc] at h
  | ended => simp [hpc] at h
  | command f c =>
      simp only [hpc, commandStep] at h
      split at h
      · next hr => obtain rfl := Option.some.inj h; exact .command hpc hr
      · cases h
  | drain f c =>
      simp only [hpc] at h
      obtain rfl := Option.some.inj h
      exact .drain hpc
  | run f c pc =>
      simp only [hpc] at h
      by_cases hcheck : pc = .check
      · subst hcheck
        obtain rfl := Option.some.inj h
        exact .check hpc (checkStep_enters s t f c)
      by_cases htail : pc = .tail
      · subst htail
        obtain rfl := Option.some.inj h
        exact .tail hpc (tailStep_ends s t f c ch.external)
      exact .inside hpc hcheck htail h (loopStep_continues h hcheck htail)
  | waitLocals =>
      simp only [hpc] at h
      split at h
      · cases h
      · next hone => obtain rfl := Option.some.inj h; exact .waitLocals hpc (by omega)
  | detach =>
      simp only [hpc] at h
      obtain rfl := Option.some.inj h
      exact .detach hpc

theorem Step.of_userStep {act : UserAct O T} (h : userStep cfg s t ch act = some s') :
    Step cfg s (.user t act ch) s' := by
  cases act with
  | start o =>
      simp only [userStep] at h
      split at h
      · next huser => obtain rfl := Option.some.inj h; exact .start huser
      · cases h
  | schedule =>
      simp only [userStep] at h
      split at h
      · next huser => obtain rfl := Option.some.inj h; exact .schedule huser
      · cases h
  | scheduleOn t' =>
      simp only [userStep] at h
      split at h
      · next hg => obtain rfl := Option.some.inj h; exact .scheduleOn hg.1 hg.2
      · cases h
  | ret =>
      simp only [userStep] at h
      split at h
      · next hpc => obtain rfl := Option.some.inj h; exact .ret hpc
      · cases h
  | call loop policy =>
      simp only [userStep] at h
      split at h
      · next hg => obtain rfl := Option.some.inj h; exact .call hg.1
      · cases h
  | exit =>
      simp only [userStep] at h
      split at h
      · next hpc =>
          split at h
          · next hstage => obtain rfl := Option.some.inj h; exact .exitLocal hpc hstage
          · next hstage => obtain rfl := Option.some.inj h; exact .exit hpc (by simpa using hstage)
      · cases h
  | destroy =>
      simp only [userStep] at h
      split at h
      · next hg => obtain rfl := Option.some.inj h; exact .destroy hg.1 hg.2.1 hg.2.2
      · cases h

theorem Step.of_step {a : Label O T} (h : (machine cfg).step s a = some s') : Step cfg s a s' := by
  simp only [machine, step] at h
  cases a with
  | thread t ch => exact .of_threadStep h
  | user t act ch => exact .of_userStep h
  | post t i res =>
      simp only at h
      split at h
      · next hstage =>
          split at h
          · next hr => obtain rfl := Option.some.inj h; exact .post hstage hr
          · cases h
      · cases h
  | stopPush t o =>
      simp only at h
      split at h
      · next hg => obtain rfl := Option.some.inj h; exact .stopPush hg.1 hg.2.1
      · cases h
  | requestStop => obtain rfl := Option.some.inj h; exact .requestStop
  | stopScope => obtain rfl := Option.some.inj h; exact .stopScope

/-! ## What all steps have in common -/

/-- The thread that executes a label. -/
def Label.actor : Label O T → Option T
  | .thread t _ => some t
  | .user t _ _ => some t
  | _ => none

omit [DecidableEq O] [DecidableEq T] in
theorem Elsewhere.stage (h : Elsewhere s s' t) {t' : T} (ht : t' ≠ t) :
    s'.thread t' = s.thread t' ∧ (s'.locals t').stage = (s.locals t').stage := by
  obtain ⟨hl, -, hpc⟩ := h t' ht
  exact ⟨hpc, by rw [hl]⟩

/-- A step moves its own thread only, and it constructs and destroys the local of
that thread only. -/
theorem step_other (h : Step cfg s a s') {t' : T} (ht : a.actor ≠ some t') :
    s'.thread t' = s.thread t' ∧ (s'.locals t').stage = (s.locals t').stage := by
  cases h with
  | @command t f c _ r hpc hr =>
      have hne : t' ≠ t := fun heq => ht (by simp [Label.actor, heq])
      exact ((elsewhere_setLocal s t _).trans (elsewhere_setThread _ t _)).stage hne
  | @drain t f c _ hpc =>
      have hne : t' ≠ t := fun heq => ht (by simp [Label.actor, heq])
      exact ((elsewhere_setPass s t _).trans (elsewhere_setThread _ t _)).stage hne
  | @check t f c _ _ hpc henters =>
      have hne : t' ≠ t := fun heq => ht (by simp [Label.actor, heq])
      cases henters with
      | stopped _ hcalm _ _ heq =>
          rw [heq]
          exact (hcalm.elsewhere.trans (returnRun_elsewhere _ t f _ c).1).stage hne
      | entered _ hcalm _ _ _ heq =>
          rw [heq]
          exact (hcalm.elsewhere.trans (elsewhere_setThread _ t _)).stage hne
  | @tail t f c _ _ hpc hends =>
      have hne : t' ≠ t := fun heq => ht (by simp [Label.actor, heq])
      cases hends with
      | back info hcalm _ _ heq _ _ =>
          rw [heq]
          exact (hcalm.elsewhere.trans (returnRun_elsewhere _ t _ _ c).1).stage hne
      | stop _ hcalm _ heq _ =>
          rw [heq]
          exact (hcalm.elsewhere.trans (elsewhere_setThread _ t _)).stage hne
      | again _ hcalm heq _ _ =>
          rw [heq]
          exact (hcalm.elsewhere.trans (elsewhere_setThread _ t _)).stage hne
  | @inside t f c _ pc _ hpc _ _ _ hgo =>
      exact hgo.elsewhere.stage fun heq => ht (by simp [Label.actor, heq])
  | @waitLocals t _ hpc hone =>
      exact (elsewhere_setThread s.touch t _).stage fun heq => ht (by simp [Label.actor, heq])
  | @detach t _ hpc =>
      have hne : t' ≠ t := fun heq => ht (by simp [Label.actor, heq])
      simp only [detachStep]
      split <;> simp [State.setThread, State.setLocal, State.touch, hne]
  | @start t o ch huser =>
      exact (Keeps.startOp cfg s t o ch).elsewhere.stage fun heq => ht (by simp [Label.actor, heq])
  | @schedule t _ huser =>
      exact (Keeps.pushImmediate s t none).elsewhere.stage fun heq => ht (by simp [Label.actor, heq])
  | @scheduleOn t t₁ _ huser hstage =>
      refine ⟨rfl, ?_⟩
      by_cases heq : t' = t₁
      · subst heq
        simp [State.pushAttached, State.setLocal]
      · simp [State.pushAttached, State.setLocal, heq]
  | @ret t f c pc _ hpc =>
      exact (elsewhere_setThread s t _).stage fun heq => ht (by simp [Label.actor, heq])
  | @call t loop policy _ hpc =>
      exact (elsewhere_setThread s t _).stage fun heq => ht (by simp [Label.actor, heq])
  | @exitLocal t _ hpc hstage =>
      exact (elsewhere_setThread s t _).stage fun heq => ht (by simp [Label.actor, heq])
  | @exit t _ hpc hstage =>
      exact (elsewhere_setThread s t _).stage fun heq => ht (by simp [Label.actor, heq])
  | @destroy t _ hpc hmain halive =>
      have hne : t' ≠ t := fun heq => ht (by simp [Label.actor, heq])
      exact ((Calm.getLocal s t).elsewhere.trans (elsewhere_setThread (s.getLocal t) t
        (.command { loop := .exec, policy := transferPolicy } .execTransfer))).stage hne
  | @post t i res e r hstage hr =>
      by_cases heq : t' = t
      · subst heq
        simp [State.setPass, State.setLocal]
      · exact ((elsewhere_setLocal s t _).trans (elsewhere_setPass _ t _)).stage heq
  | @stopPush t o hstage hring =>
      by_cases heq : t' = t
      · subst heq
        simp [State.setStopping, State.setLocal]
      · exact (elsewhere_setLocal s t _).stage heq
  | requestStop => exact ⟨rfl, rfl⟩
  | stopScope => exact ⟨rfl, rfl⟩

/-- Who waits for the return of the activation; in `waitLocals` the terminal pass
is about to be called. -/
def ThreadPc.caller : ThreadPc O T → Option (Caller T)
  | .command _ c => some c
  | .drain _ c => some c
  | .run _ c _ => some c
  | .callback _ c _ => some c
  | .waitLocals => some .execTerminal
  | _ => none

omit [DecidableEq O] in
/-- `run()` returns to the user, or into the destructor that goes on. -/
theorem returnRun_caller {f : Frame T} {c c' : Caller T} {info : RunProgressInfo}
    (hc : ((returnRun s t f info c).thread t).caller = some c') :
    c = .execTransfer ∧ c' = .execTerminal := by
  cases c <;> simp_all [returnRun, State.setThread, ThreadPc.caller]

/-- Where the activations of a thread come from. -/
inductive Begins (s : State O T) (t : T) : Label O T → Caller T → Prop where
  | before {a : Label O T} {c : Caller T} : (s.thread t).caller = some c → Begins s t a c
  | stop {a : Label O T} (outer : Frame T) : s.exec.stopRequested = true →
      Begins s t a (.stopRequest outer)
  | call {loop : Loop T} {policy : RunPolicy} {ch : Choice} : Begins s t (.user t (.call loop policy) ch) .user
  | exit {ch : Choice} : Begins s t (.user t .exit ch) .localDtor
  | destroy {ch : Choice} : Begins s t (.user t .destroy ch) .execTransfer
  | terminal {a : Label O T} : (s.thread t).caller = some .execTransfer →
      Begins s t a .execTerminal

theorem step_caller {a : Label O T} {c : Caller T} (h : Step cfg s a s') (t : T)
    (hc : (s'.thread t).caller = some c) : Begins s t a c := by
  by_cases hactor : a.actor = some t
  · cases h with
    | @check t₁ f c₁ _ _ hpc henters =>
        obtain rfl : t₁ = t := by simpa [Label.actor] using hactor
        cases henters with
        | stopped _ _ _ _ heq =>
            obtain ⟨rfl, rfl⟩ := returnRun_caller (heq ▸ hc)
            exact .terminal (by simp [hpc, ThreadPc.caller])
        | entered _ _ _ _ _ heq =>
            exact .before (by simpa [heq, hpc, State.setThread, ThreadPc.caller] using hc)
    | @tail t₁ f c₁ _ _ hpc hends =>
        obtain rfl : t₁ = t := by simpa [Label.actor] using hactor
        cases hends with
        | back info _ _ _ heq _ _ =>
            obtain ⟨rfl, rfl⟩ := returnRun_caller (heq ▸ hc)
            exact .terminal (by simp [hpc, ThreadPc.caller])
        | @stop s₁ f' _ hcalm hstop heq _ =>
            obtain rfl : Caller.stopRequest f' = c := by
              simpa [heq, State.setThread, ThreadPc.caller] using hc
            exact .stop f' (hcalm.flags.stopRequested ▸ hstop)
        | again _ _ heq _ _ =>
            exact .before (by simpa [heq, hpc, State.setThread, ThreadPc.caller] using hc)
    | @inside t₁ f c₁ _ pc _ hpc _ _ _ hgo =>
        obtain rfl : t₁ = t := by simpa [Label.actor] using hactor
        obtain ⟨f', pc', hgo⟩ := hgo.goes
        refine .before ?_
        rcases hgo.thread with hthread | hthread <;> simpa [hthread, hpc, ThreadPc.caller] using hc
    | @detach t₁ _ hpc =>
        obtain rfl : t₁ = t := by simpa [Label.actor] using hactor
        simp only [detachStep] at hc
        split at hc <;> simp [State.setThread, ThreadPc.caller] at hc
    | @start t₁ o ch huser =>
        obtain rfl : t₁ = t := by simpa [Label.actor] using hactor
        rw [(Keeps.startOp cfg s t₁ o ch).thread] at hc
        exact .before hc
    | @destroy t₁ ch hpc hmain halive =>
        obtain rfl : t₁ = t := by simpa [Label.actor] using hactor
        obtain rfl : Caller.execTransfer = c := by simpa [State.setThread, ThreadPc.caller] using hc
        exact .destroy
    | @command t₁ _ _ _ _ hpc _ =>
        obtain rfl : t₁ = t := by simpa [Label.actor] using hactor
        exact .before (by simpa [hpc, State.setThread, ThreadPc.caller] using hc)
    | @drain t₁ _ _ _ hpc =>
        obtain rfl : t₁ = t := by simpa [Label.actor] using hactor
        exact .before (by simpa [hpc, State.setThread, ThreadPc.caller] using hc)
    | @waitLocals t₁ _ hpc _ =>
        obtain rfl : t₁ = t := by simpa [Label.actor] using hactor
        exact .before (by simpa [hpc, State.setThread, ThreadPc.caller] using hc)
    | @ret t₁ _ _ _ _ hpc =>
        obtain rfl : t₁ = t := by simpa [Label.actor] using hactor
        exact .before (by simpa [hpc, State.setThread, ThreadPc.caller] using hc)
    | @call t₁ _ _ _ hpc =>
        obtain rfl : t₁ = t := by simpa [Label.actor] using hactor
        obtain rfl : Caller.user = c := by simpa [State.setThread, ThreadPc.caller] using hc
        exact .call
    | @exitLocal t₁ _ hpc _ =>
        obtain rfl : t₁ = t := by simpa [Label.actor] using hactor
        obtain rfl : Caller.localDtor = c := by simpa [State.setThread, ThreadPc.caller] using hc
        exact .exit
    | @exit t₁ _ hpc _ =>
        obtain rfl : t₁ = t := by simpa [Label.actor] using hactor
        simp [State.setThread, ThreadPc.caller] at hc
    | _ => exact .before hc
  · rw [(step_other h hactor).1] at hc
    exact .before hc

/-- The end of `~io_uring_exec`. -/
structure Dies (s s' : State O T) (t : T) (f : Frame T) (pc : LoopPc O) (s₁ : State O T) : Prop where
  thread : s.thread t = .run f .execTerminal pc
  point : pc = .check ∧ s.mustStop f.loop = true ∨ pc = .tail
  calm : Calm s s₁ t
  locals : s₁.locals = s.locals
  after : s' = { s₁ with exec := { s₁.exec with alive := false } }.setThread t .outside

/-- A stop request stays, and an executor that is alive is not accessed wildly. It
dies at the end of its terminal pass. -/
structure FlagStep (s s' : State O T) (a : Label O T) : Prop where
  stopRequested : s.exec.stopRequested = true → s'.exec.stopRequested = true
  wild : s.exec.alive = true → s'.wild = s.wild
  alive : s'.exec.alive = s.exec.alive ∨
    ∃ t ch f pc s₁, a = .thread t ch ∧ Dies s s' t f pc s₁

omit [DecidableEq O] in
theorem FlagStep.of_same {a : Label O T} (h : SameFlags s s') : FlagStep s s' a :=
  ⟨fun hs => h.stopRequested.trans hs, h.wild, .inl h.alive⟩

omit [DecidableEq O] in
theorem FlagStep.returned {f f' : Frame T} {c : Caller T} {pc : LoopPc O} {s₁ : State O T}
    (hpc : s.thread t = .run f c pc) (hpoint : pc = .check ∧ s.mustStop f.loop = true ∨ pc = .tail)
    (hcalm : Calm s s₁ t) (hlocals : s₁.locals = s.locals) (info : RunProgressInfo) :
    FlagStep s (returnRun s₁ t f' info c) (.thread t ch) := by
  have hflags := hcalm.flags
  cases c with
  | user => exact .of_same { hflags with }
  | localDtor => exact .of_same { hflags with }
  | stopRequest outer =>
      have htouch := hflags.trans (Calm.touchLoop s₁ t outer.loop).flags
      exact ⟨fun hs => htouch.stopRequested.trans hs, htouch.wild, .inl htouch.alive⟩
  | execTransfer =>
      have hlocal := hflags.trans (Calm.getLocal s₁ t).flags
      exact ⟨fun _ => rfl, hlocal.wild, .inl hlocal.alive⟩
  | execTerminal =>
      exact ⟨fun hs => hflags.stopRequested.trans hs, hflags.wild,
        .inr ⟨t, ch, f, pc, s₁, rfl, hpc, hpoint, hcalm, hlocals, rfl⟩⟩

theorem step_flags {a : Label O T} (h : Step cfg s a s') : FlagStep s s' a := by
  cases h with
  | @check t f c _ _ hpc henters =>
      cases henters with
      | stopped hstop hcalm hlocals _ heq =>
          rw [heq]
          exact .returned hpc (.inl ⟨rfl, hstop⟩) hcalm hlocals _
      | entered _ hcalm _ _ _ heq =>
          rw [heq]
          exact .of_same { hcalm.flags with }
  | @tail t f c _ _ hpc hends =>
      cases hends with
      | back info hcalm hlocals _ heq _ _ =>
          rw [heq]
          exact .returned hpc (.inr rfl) hcalm hlocals info
      | stop _ hcalm _ heq _ =>
          rw [heq]
          exact .of_same { hcalm.flags with }
      | again _ hcalm heq _ _ =>
          rw [heq]
          exact ⟨fun hs => hcalm.flags.stopRequested.trans hs, hcalm.flags.wild, .inl hcalm.flags.alive⟩
  | inside _ _ _ _ hgo => exact .of_same hgo.flags
  | waitLocals _ _ => exact .of_same { sameFlags_touch s with }
  | detach _ =>
      simp only [detachStep]
      split
      · exact .of_same { SameFlags.refl s with }
      · exact .of_same { sameFlags_touch s with }
  | @start t o ch _ => exact .of_same (Keeps.startOp cfg s t o ch).flags
  | @schedule t _ _ => exact .of_same (Keeps.pushImmediate s t none).flags
  | @destroy t _ _ _ _ => exact .of_same { (Calm.getLocal s t).flags with }
  | requestStop => exact ⟨fun _ => rfl, (sameFlags_touch s).wild, .inl rfl⟩
  | stopScope => exact .of_same { sameFlags_touch s with }
  | _ => exact .of_same { SameFlags.refl s with }

/-- Who leaves through the stop branch: `e.pass` is the log of a pass that found
the flag set, or of one that was made to the end. -/
structure Leaves (s : State O T) (e : Exit O T) (t : T) (f : Frame T) (outer : Frame T)
    (pc : LoopPc O) : Prop where
  thread : s.thread t = .run f (.stopRequest outer) pc
  pass : pc = .check ∧ e.pass = { s.pass t with first := s.exits.all fun e => e.loop ≠ f.loop } ∨
    pc = .tail ∧ e.pass = s.pass t

omit [DecidableEq O] in
theorem returnRun_exits (s : State O T) (t : T) (f : Frame T) (info : RunProgressInfo)
    (c : Caller T) {e : Exit O T} (he : e ∈ (returnRun s t f info c).exits) :
    e ∈ s.exits ∨ (∃ outer, c = .stopRequest outer) ∧ e.pass = s.pass t := by
  cases c with
  | stopRequest outer =>
      rcases List.mem_cons.mp he with rfl | he
      · exact .inr ⟨⟨outer, rfl⟩, rfl⟩
      · exact .inl he
  | execTransfer =>
      exact .inl (by simpa [returnRun, State.setThread, (Calm.getLocal s t).flags.exits] using he)
  | _ => exact .inl he

theorem step_exits {a : Label O T} (h : Step cfg s a s') {e : Exit O T} (he : e ∈ s'.exits) :
    e ∈ s.exits ∨ ∃ t ch f outer pc, a = .thread t ch ∧ Leaves s e t f outer pc := by
  cases h with
  | @check t f c ch _ hpc henters =>
      cases henters with
      | stopped _ hcalm _ hlog heq =>
          subst heq
          rcases returnRun_exits _ t f _ c he with he | ⟨⟨outer, rfl⟩, hpass⟩
          · exact .inl (by rwa [hcalm.flags.exits] at he)
          · exact .inr ⟨t, ch, f, outer, .check, rfl, hpc, .inl ⟨rfl, hpass.trans hlog⟩⟩
      | entered _ hcalm _ _ _ heq =>
          subst heq
          exact .inl (by rwa [← hcalm.flags.exits])
  | @tail t f c ch _ hpc hends =>
      cases hends with
      | back info hcalm _ hpass heq _ _ =>
          subst heq
          rcases returnRun_exits _ t _ info c he with he | ⟨⟨outer, rfl⟩, hlog⟩
          · exact .inl (by rwa [hcalm.flags.exits] at he)
          · exact .inr ⟨t, ch, f, outer, .tail, rfl, hpc, .inr ⟨rfl, hlog.trans (congrFun hpass t)⟩⟩
      | stop _ hcalm _ heq _ =>
          subst heq
          exact .inl (by rwa [← hcalm.flags.exits])
      | again _ hcalm heq _ _ =>
          subst heq
          exact .inl (by rwa [← hcalm.flags.exits])
  | inside _ _ _ _ hgo => exact .inl (by rwa [← hgo.flags.exits])
  | detach _ =>
      refine .inl ?_
      simp only [detachStep] at he
      split at he <;> exact he
  | @start t o ch _ => exact .inl (by rwa [← (Keeps.startOp cfg s t o ch).flags.exits])
  | @destroy t _ _ _ _ =>
      exact .inl (by simpa [State.setThread, (Calm.getLocal s t).flags.exits] using he)
  | _ => exact .inl he

end IoUring.Exec.RunLoop
