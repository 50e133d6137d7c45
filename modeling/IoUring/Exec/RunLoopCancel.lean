import IoUring.Exec.RunLoopDtor
import IoUring.Exec.RunLoopServed

/-!
# What the destructor cancels

The final terminal pass of `~io_uring_exec` drains two buckets. It leaves no task
behind if and only if these are the buckets that held one.
-/

namespace IoUring.Exec.RunLoop

variable {O T : Type*} [DecidableEq O] [DecidableEq T]

/-- The executor is destroyed when no other thread is alive and no stop was
requested. -/
def Quiet (cfg : Config O T) (s : State O T) (a : Label O T) : Prop :=
  Alone cfg s a ∧ (a.isDestroy = true → s.exec.stopRequested = false)

instance [Fintype T] (cfg : Config O T) (s : State O T) (a : Label O T) :
    Decidable (Quiet cfg s a) :=
  inferInstanceAs (Decidable (_ ∧ (_ → _)))

variable {cfg : Config O T} {s s' : State O T} {t : T} {f : Frame T} {c : Caller T} {ch : Choice}
  {a : Label O T} {pc : LoopPc O}

/-- The destructor begins. -/
theorem dtorOk_destroy (hplace : PlaceOk s s.tasks) (hexits : s.exits = []) {ch : Choice}
    (h : Step cfg s (.user cfg.main .destroy ch) s') : DtorOk cfg s' (s'.thread cfg.main) := by
  cases h with
  | destroy hpc _ halive =>
      have hlocal := Calm.getLocal s cfg.main
      have hsame := hlocal.queues.place
      exact {
        exits := hlocal.flags.exits.trans hexits
        old := by
          intro b k hk
          refine .inl ((congrFun hsame k.id).trans ?_)
          exact (hplace.placement.mem (.bucket b) (by simp) k.id).mpr (List.mem_map_of_mem hk)
        oldAttached := by
          intro k hk
          refine ⟨.inl ((congrFun hsame k.id).trans ?_), fun _ => by simp [State.setThread, ThreadPc.beforeLaunch]⟩
          exact (hplace.placement.mem (.attached cfg.main) (by simp) k.id).mpr (List.mem_map_of_mem hk)
        drain := by simp [State.setThread, ThreadPc.terminalAt] }

/-- A step of the thread in the destructor. -/
theorem dtorOk_step (hinv : LoopInv s) (hplace : PlaceOk s s.tasks)
    (hdtor : DtorOk cfg s (s.thread cfg.main)) (hin : (s.thread cfg.main).inDtor = true)
    (hin' : (s'.thread cfg.main).inDtor = true) (hactor : a.actor = some cfg.main)
    (h : Step cfg s a s') : DtorOk cfg s' (s'.thread cfg.main) := by
  have hmain := hinv.threads cfg.main
  cases h with
  | @command t f c _ r hpc hr =>
      obtain rfl : t = cfg.main := by simpa [Label.actor] using hactor
      rw [hpc] at hdtor
      have hlocal : SameQueues s (s.setLocal cfg.main { s.locals cfg.main with
        ring := r.submit r.sq.length }) := sameQueues_setLocal rfl
      refine hdtor.same { hlocal with } rfl rfl ?_ ?_ <;>
        cases c <;> simp [State.setThread, ThreadPc.beforeLaunch, ThreadPc.terminalAt]
  | @drain t f c _ hpc =>
      obtain rfl : t = cfg.main := by simpa [Label.actor] using hactor
      rw [hpc] at hdtor
      refine hdtor.move rfl ⟨rfl, rfl⟩ (fun m q hq => .inl hq) (fun m _ hn _ => ?_) fun pc₁ hpc₁ => ?_
      · cases c <;> simp_all [State.setThread, ThreadPc.beforeLaunch, LoopPc.unlaunched]
      · have hcheck : .check = pc₁ := by
          cases c <;> simp_all [State.setThread, ThreadPc.terminalAt]
        subst hcheck
        simp only [State.setThread, State.setPass, Function.update_self]
        exact ⟨.start _ rfl rfl rfl, rfl⟩
  | @check t f c _ _ hpc henters =>
      obtain rfl : t = cfg.main := by simpa [Label.actor] using hactor
      rw [hpc] at hdtor hmain
      cases henters with
      | stopped hstop _ _ _ _ =>
          obtain ⟨e, he, -⟩ := (hinv.stops f.loop).mp hstop
          simp [hdtor.exits] at he
      | entered _ hcalm _ _ _ heq =>
          subst heq
          have hc : c.isDtor = true := by simpa [hpc, ThreadPc.inDtor, ThreadPc.caller] using hin
          refine hdtor.same { hcalm.queues with } hcalm.flags.exits hcalm.flags.walltimeStep ?_ ?_
          · intro hbefore
            cases c <;> simp_all [State.setThread, ThreadPc.beforeLaunch, LoopPc.unlaunched]
            simp [hmain.1.1, launchSources, transferPolicy]
          · intro pc₁ hpc₁
            cases c <;> simp_all [State.setThread, ThreadPc.terminalAt]
            subst hpc₁
            exact fun robin drains hdrains => .inl ⟨by simp [hmain.1.1, launchSources, terminalPolicy], hdrains⟩
  | @tail t f c _ _ hpc hends =>
      obtain rfl : t = cfg.main := by simpa [Label.actor] using hactor
      rw [hpc] at hdtor hmain
      have hc : c.isDtor = true := by simpa [hpc, ThreadPc.inDtor, ThreadPc.caller] using hin
      have hweakly : f.policy.weaklyParallel = true :=
        (hmain.2 (by rintro rfl; cases hc)).plan.2.2.2.2.1
      cases hends with
      | @back s₁ f' info hcalm _ _ heq _ _ =>
          subst heq
          obtain ⟨c', hc', -⟩ := (Option.any_eq_true _ _).mp hin'
          obtain ⟨rfl, -⟩ := returnRun_caller hc'
          have hlocal := hcalm.trans (.getLocal s₁ cfg.main)
          refine hdtor.same { hlocal.queues with } hlocal.flags.exits hlocal.flags.walltimeStep ?_ ?_ <;>
            simp [returnRun, State.setThread, ThreadPc.beforeLaunch, LoopPc.unlaunched,
              ThreadPc.terminalAt]
      | stop hnot _ _ _ _ => simp [hweakly] at hnot
      | again hnot _ _ _ _ => simp [hweakly] at hnot
  | @inside t f c _ pc _ hpc hcheck _ _ hgo =>
      obtain rfl : t = cfg.main := by simpa [Label.actor] using hactor
      rw [hpc] at hdtor hmain
      have hc : c.isDtor = true := by simpa [hpc, ThreadPc.inDtor, ThreadPc.caller] using hin
      have hf : f.loop = .exec := by
        cases c with
        | execTransfer => exact hmain.1.2
        | execTerminal => exact hmain.1.2
        | _ => cases hc
      exact hdtor.continues hpc hc hcheck hf hgo hplace
  | @waitLocals t _ hpc hone =>
      obtain rfl : t = cfg.main := by simpa [Label.actor] using hactor
      rw [hpc] at hdtor
      refine hdtor.same { SameQueues.refl s with } rfl rfl ?_ ?_ <;>
        simp [State.setThread, ThreadPc.beforeLaunch, ThreadPc.terminalAt]
  | @start t o ch huser =>
      obtain rfl : t = cfg.main := by simpa [Label.actor] using hactor
      rw [(Keeps.startOp cfg s _ o ch).thread]
      exact hdtor.keeps (.startOp cfg s _ o ch) hplace
  | @schedule t _ huser =>
      obtain rfl : t = cfg.main := by simpa [Label.actor] using hactor
      exact hdtor.keeps (.pushImmediate s _ none) hplace
  | @scheduleOn t t' _ huser hstage =>
      refine hdtor.move rfl ⟨rfl, rfl⟩ (fun m q hq => .inl ?_) (fun m _ hn _ => hn) hdtor.drain
      have hlt := hplace.placement.lt_next hq
      simpa [State.pushAttached, Nat.ne_of_lt hlt] using hq
  | @ret t f c pc _ hpc =>
      obtain rfl : t = cfg.main := by simpa [Label.actor] using hactor
      rw [hpc] at hdtor
      refine hdtor.same { SameQueues.refl s with } rfl rfl ?_ ?_ <;>
        cases c <;> simp [State.setThread, ThreadPc.beforeLaunch, ThreadPc.terminalAt]
  | @detach t _ hpc =>
      obtain rfl : t = cfg.main := by simpa [Label.actor] using hactor
      simp [hpc, ThreadPc.inDtor, ThreadPc.caller] at hin
  | @call t _ _ _ hpc =>
      obtain rfl : t = cfg.main := by simpa [Label.actor] using hactor
      simp [hpc, ThreadPc.inDtor, ThreadPc.caller] at hin
  | @exitLocal t _ hpc _ =>
      obtain rfl : t = cfg.main := by simpa [Label.actor] using hactor
      simp [hpc, ThreadPc.inDtor, ThreadPc.caller] at hin
  | @exit t _ hpc _ =>
      obtain rfl : t = cfg.main := by simpa [Label.actor] using hactor
      simp [hpc, ThreadPc.inDtor, ThreadPc.caller] at hin
  | @destroy t _ hpc _ _ =>
      obtain rfl : t = cfg.main := by simpa [Label.actor] using hactor
      simp [hpc, ThreadPc.inDtor, ThreadPc.caller] at hin
  | _ => simp [Label.actor] at hactor

/-- While the destructor runs, alone and after no stop request, its invariant
holds. -/
theorem reach_dtorOk (h : (machine cfg).Reach (Quiet cfg) s) :
    (s.thread cfg.main).inDtor = true → DtorOk cfg s (s.thread cfg.main) := by
  refine h.invariant (fun s => (s.thread cfg.main).inDtor = true → DtorOk cfg s (s.thread cfg.main))
    (fun s hs hin => ?_) fun s a s' hreach ih hok hstep hin' => ?_
  · obtain ⟨-, -, -, -, -, -, -, hthread, -⟩ := hs
    simp [hthread, ThreadPc.inDtor, ThreadPc.caller] at hin
  · have hstep' := Step.of_step hstep
    have hplace := reachable_places hreach
    rcases step_inDtor hstep' cfg.main hin' with hin | ⟨ch, rfl⟩
    · by_cases hactor : a.actor = some cfg.main
      · exact dtorOk_step (reachable_inv hreach) hplace (ih hin) hin hin' hactor hstep'
      · have hdestroying : s.destroying cfg = true := by simp [State.destroying, hin]
        rw [(step_other hstep' hactor).1]
        have hkeep : ∀ {s' : State O T}, SameQueues s s' → s'.exits = s.exits →
            s'.walltimeStep = s.walltimeStep → DtorOk cfg s' (s.thread cfg.main) :=
          fun hs hexits hwall => (ih hin).same hs hexits hwall id fun pc hpc => ⟨pc, hpc, fun _ _ h => h⟩
        cases a with
        | thread t ch =>
            have hgone := reach_gone (hreach.mono fun _ _ hok => hok.1) hdestroying t
              (fun heq => hactor (by simp [Label.actor, heq]))
            exact (hgone.not_thread hstep').elim
        | user t act ch => exact absurd (by simp [Label.actor, hok.1.2 hdestroying]) hactor
        | post t i res =>
            cases hstep' with
            | @post _ _ _ e r _ _ =>
                have hlocal : SameQueues s (s.setLocal t { s.locals t with ring := r }) :=
                  sameQueues_setLocal rfl
                refine hkeep ?_ rfl rfl
                exact hlocal.trans (sameQueues_setPass rfl rfl rfl)
        | stopPush t o => cases hstep'; exact hkeep (sameQueues_setLocal rfl) rfl rfl
        | requestStop => cases hstep'; exact hkeep { SameQueues.refl s with } rfl rfl
        | stopScope => cases hstep'; exact hkeep { SameQueues.refl s with } rfl rfl
    · have hexits := (reachable_unstopped hreach (hok.2 rfl)).1
      exact dtorOk_destroy hplace hexits hstep'

/-! ## The end of the final pass -/

/-- No bucket is left with a task, and every task that was queued when the
destructor began is finished once. -/
def AllFinished (s : State O T) : Prop :=
  (∀ b, s.exec.immediate b = []) ∧ ∀ k, (∃ b, k ∈ s.immediateAtDestroy b) ∨
    k ∈ s.attachedAtDestroy → s.finished k.id = 1

omit [DecidableEq O] in
theorem DtorOk.allFinished {f : Frame T} (h : DtorOk cfg s (.run f .execTerminal .tail))
    (hpc : s.thread cfg.main = .run f .execTerminal .tail) (hplace : PlaceOk s s.tasks) :
    AllFinished s ↔ ∀ b, s.exec.immediate b = [] := by
  refine ⟨And.left, fun hempty => ⟨hempty, ?_⟩⟩
  have hdone : ∀ {m : Nat} {p : Place T}, s.place m = some p → p ≠ .finished →
      m ∈ s.content s.tasks p := fun hm hp => (hplace.placement.mem _ hp _).mp hm
  have hvisiting : ∀ m, s.place m ≠ some (.visiting cfg.main) := fun m hm => by
    simpa [State.content, State.tasks, hpc, ThreadPc.tasks, LoopPc.tasks] using hdone hm (by simp)
  rintro k (⟨b, hk⟩ | hk) <;> rw [hplace.finished, if_pos]
  · rcases h.old b k hk with hq | hq | hq
    · simpa [State.content, hempty] using hdone hq (by simp)
    · exact absurd hq (hvisiting _)
    · exact hq
  · obtain ⟨hq | hq | hq, hun⟩ := h.oldAttached k hk
    · simpa [ThreadPc.beforeLaunch, LoopPc.unlaunched] using hun hq
    · exact absurd hq (hvisiting _)
    · exact hq

/-- When `~io_uring_exec` returns, alone and after no stop request, its terminal
pass has drained the bucket of `_walltime_step` and one that was drawn. No task is
left, and every task that was queued is finished once, if and only if each bucket
with a task at the beginning of the pass is one of the two and each push since
then went into a bucket that was drained after it. -/
theorem destructor_cancels_all (h : (machine cfg).Reach (Quiet cfg) s) {ch : Choice}
    (hstep : (machine cfg).step s (.thread cfg.main ch) = some s') (halive : s.exec.alive = true)
    (hdead : s'.exec.alive = false) :
    ∃ draw, (s.pass cfg.main).drains = [robinAccess (s.walltimeStep .exec), draw] ∧
      (AllFinished s' ↔
        (∀ b, (s.pass cfg.main).startImmediate b ≠ [] → b ∈ (s.pass cfg.main).drains) ∧
          ∀ e ∈ (s.pass cfg.main).pushes, e.2 ∈ (s.pass cfg.main).drains.drop e.1) := by
  have hinv := reachable_inv h
  have hplace := reachable_places h
  rcases (step_flags (.of_step hstep)).alive with hsame | ⟨t, ch', f, pc, s₁, ht, hdies⟩
  · simp [hsame, halive] at hdead
  obtain ⟨rfl, -⟩ : cfg.main = t ∧ ch = ch' := by simpa using ht
  have hdtor := reach_dtorOk h (by simp [hdies.thread, ThreadPc.inDtor, ThreadPc.caller, Caller.isDtor])
  rw [hdies.thread] at hdtor
  rcases hdies.point with ⟨-, hstop⟩ | rfl
  · obtain ⟨e, he, -⟩ := (hinv.stops f.loop).mp hstop
    simp [hdtor.exits] at he
  obtain ⟨hdrain, draw, hdrains⟩ := hdtor.drain .tail rfl
  refine ⟨draw, hdrains, ?_⟩
  have hqueues : SameQueues s s' := by
    rw [hdies.after]
    exact { hdies.calm.queues with }
  have hsame : AllFinished s' ↔ AllFinished s := by
    simp only [AllFinished, hqueues.immediate, hqueues.immediateAtDestroy, hqueues.attachedAtDestroy,
      hqueues.finished]
  rw [hsame, hdtor.allFinished hdies.thread hplace]
  constructor
  · intro hempty
    refine ⟨fun b hb => ?_, fun e he => ?_⟩
    · exact ((hdrain.left b).mp (hempty b)).1.resolve_left hb
    · exact ((hdrain.left e.2).mp (hempty e.2)).2 e he rfl
  · rintro ⟨hstart, hpushes⟩ b
    refine (hdrain.left b).mpr ⟨?_, fun e he heq => heq ▸ hpushes e he⟩
    by_cases hb : (s.pass cfg.main).startImmediate b = []
    · exact .inl hb
    · exact .inr (hstart b hb)

section Both

/-- A loop that only launches. -/
def launchPolicy : RunPolicy :=
  { defaultPolicy with submit := false, iodone := false, blocking := true }

def drawing (n : Nat) : Choice := { bucket := robinAccess n }

def pushStart : State (Fin 2) (Fin 2) :=
  { pairStart with exec := { pairStart.exec with storeBalance := 8 } }

theorem pushStart_init : (machine pairConfig).init pushStart :=
  pairStart_init

/-- One step of the loop launches a task of each of its two buckets. -/
def launches (n : Nat) : List (Label (Fin 2) (Fin 2)) :=
  goes 0 4 ++ [.user 0 .ret draw, .thread 0 draw, .thread 0 (drawing n), .thread 0 draw,
    .user 0 .ret draw] ++ goes 0 3

/-- The loop launches all of fifteen tasks but the first one, in bucket 8. Then tasks come
into bucket 7, which is that of `_walltime_step`, and into the attached queue. -/
def queueRun : List (Label (Fin 2) (Fin 2)) :=
  List.replicate 15 (.user 0 .schedule draw) ++ [.user 0 (.call .exec launchPolicy) draw] ++ goes 0 1 ++
    [9, 10, 11, 12, 13, 14, 15].flatMap launches ++ goes 0 7 ++
    [.thread 0 { draw with external := true }, .user 0 .schedule draw, .user 0 (.scheduleOn 0) draw]

/-- When the task of bucket 7 is cancelled, another one is pushed into bucket 8, which is
drawn next. -/
def pushRun : List (Label (Fin 2) (Fin 2)) :=
  .user 0 .destroy draw :: goes 0 5 ++ [.user 0 .ret draw] ++ goes 0 15 ++
    [.user 0 .schedule draw, .user 0 .ret draw, .thread 0 draw, .thread 0 (drawing 8), .thread 0 draw,
      .user 0 .ret draw, .thread 0 draw, .user 0 .ret draw] ++ goes 0 6

set_option maxRecDepth 4000 in
theorem destructor_cancels_all_push : ∃ s s' : State (Fin 2) (Fin 2),
    (machine pairConfig).step s (.thread 0 draw) = some s' ∧
      s'.immediateAtDestroy (robinAccess 7) = [⟨15, none⟩] ∧
      s'.immediateAtDestroy (robinAccess 8) = [⟨0, none⟩] ∧ s'.attachedAtDestroy = [⟨16, none⟩] ∧
      (s.pass 0).pushes = [(1, robinAccess 8)] ∧ AllFinished s' := by
  have hrun : ∃ s s', ((machine pairConfig).restrict (Quiet pairConfig)).run pushStart
        (queueRun ++ pushRun) = some s ∧
      (machine pairConfig).step s (.thread 0 draw) = some s' ∧ s.exec.alive = true ∧
      s'.exec.alive = false ∧ s'.immediateAtDestroy (robinAccess 7) = [⟨15, none⟩] ∧
      s'.immediateAtDestroy (robinAccess 8) = [⟨0, none⟩] ∧ s'.attachedAtDestroy = [⟨16, none⟩] ∧
      (∀ b, (s.pass 0).startImmediate b ≠ [] → b ∈ (s.pass 0).drains) ∧
      (s.pass 0).pushes = [(1, robinAccess 8)] ∧ (s.pass 0).drains = [robinAccess 7, robinAccess 8] := by
    refine ⟨_, _, rfl, rfl, rfl, rfl, rfl, rfl, rfl, ?_, rfl, rfl⟩
    decide
  obtain ⟨s, s', hs, hstep, halive, hdead, hrobin, hdrawn, hattached, hstart, hpushes, hdrains⟩ := hrun
  have hreach := Machine.Reach.restrict (.start pushStart_init) hs
  obtain ⟨-, -, hiff⟩ := destructor_cancels_all hreach hstep halive hdead
  refine ⟨s, s', hstep, hrobin, hdrawn, hattached, hpushes, hiff.mpr ⟨hstart, ?_⟩⟩
  simp [pairConfig, hpushes, hdrains]

/-- Two tasks are queued; the second is in the next bucket. -/
def twoRun : List (Label (Fin 2) (Fin 2)) :=
  [.user 0 .schedule draw, .user 0 .schedule draw, .user 0 .destroy draw] ++ goes 0 19 ++
    [.user 0 .ret draw] ++ goes 0 8

/-- The second task is left in its bucket. -/
theorem destructor_leaves : ∃ s s' : State (Fin 2) (Fin 2),
    (machine pairConfig).Reach (Quiet pairConfig) s ∧
      (machine pairConfig).step s (.thread 0 draw) = some s' ∧ s.exec.alive = true ∧
      s'.exec.alive = false ∧ s'.exec.immediate (robinAccess 1) = [⟨1, none⟩] ∧ s'.finished 1 = 0 := by
  have hrun : ∃ s s', ((machine pairConfig).restrict (Quiet pairConfig)).run pairStart twoRun = some s ∧
      (machine pairConfig).step s (.thread 0 draw) = some s' ∧ s.exec.alive = true ∧
      s'.exec.alive = false ∧ s'.exec.immediate (robinAccess 1) = [⟨1, none⟩] ∧ s'.finished 1 = 0 :=
    ⟨_, _, rfl, rfl, rfl, rfl, rfl, rfl⟩
  obtain ⟨s, s', hs, hrest⟩ := hrun
  exact ⟨s, s', Machine.Reach.restrict (.start pairStart_init) hs, hrest⟩

end Both

end IoUring.Exec.RunLoop
