import IoUring.Base.Observe
import IoUring.Exec.RunLoopDtor
import IoUring.Exec.RunLoopEffects
import IoUring.Exec.RunLoopServed

/-!
# The wait for the other locals

`terminal_run` waits until `_running_local` is at most 1. The local of the thread
that constructed the executor exists by then and is never subtracted, so no other
local is left, and each of them has handed over what it had before.
-/

namespace IoUring.Exec.RunLoop

variable {O T : Type*} [DecidableEq O] [DecidableEq T]

/-! ## The history of the hand-overs -/

/-- The tasks that the destructors of the other locals have pushed into
`_immediate_map`, those of them that were pushed after the wait, the threads whose
`transfer_run` has returned, and whether the wait has begun and ended. -/
structure HandOvers (T : Type*) where
  handed : List Nat := []
  late : List Nat := []
  returned : List T := []
  started : Bool := false
  ended : Bool := false

def Place.isBucket : Place T → Bool
  | .bucket _ => true
  | _ => false

/-- Thread `t` hands a task over while it is in `~io_uring_exec_local`. -/
def HandsOver (cfg : Config O T) (s s' : State O T) (t : T) : Prop :=
  t ≠ cfg.main ∧ (s.thread t).caller = some .localDtor ∧
    (s'.place s.nextTask).any Place.isBucket = true

instance (cfg : Config O T) (s s' : State O T) (t : T) : Decidable (HandsOver cfg s s' t) :=
  inferInstanceAs (Decidable (_ ∧ _ ∧ _))

def noteHandOver (cfg : Config O T) (v : HandOvers T) (s : State O T) (a : Label O T)
    (s' : State O T) : HandOvers T :=
  match a.actor with
  | none => v
  | some t => {
      handed := if HandsOver cfg s s' t then s.nextTask :: v.handed else v.handed
      late := if HandsOver cfg s s' t ∧ v.ended = true then s.nextTask :: v.late else v.late
      returned := if s'.thread t = .detach then t :: v.returned else v.returned
      started := v.started || s'.thread t = .waitLocals
      ended := v.ended || (s.thread t = .waitLocals && s'.thread t ≠ .waitLocals) }

/-- The machine with the history of the hand-overs. -/
def handMachine (cfg : Config O T) : Machine (State O T × HandOvers T) (Label O T) :=
  (machine cfg).observed {} (noteHandOver cfg)

/-- Once `terminal_run` waits, no other local is created. -/
def CreatedBefore (cfg : Config O T) (p : State O T × HandOvers T) (a : Label O T) : Prop :=
  p.2.started = true → ∀ t, t ≠ cfg.main → (p.1.locals t).stage = .absent →
    ∀ s' ∈ step cfg p.1 a, (s'.locals t).stage = .absent

instance [Fintype T] (cfg : Config O T) (p : State O T × HandOvers T) (a : Label O T) :
    Decidable (CreatedBefore cfg p a) :=
  inferInstanceAs (Decidable (_ → ∀ _, _ → _ → ∀ s' ∈ step cfg p.1 a, _))

variable {cfg : Config O T} {s s' s'' : State O T} {t : T} {f : Frame T} {c : Caller T}
  {ch : Choice} {a : Label O T} {v : HandOvers T}

/-! ## The locals and their number -/

/-- A local that `_running_local` counts. -/
def Counted (cfg : Config O T) (s : State O T) (t : T) : Prop :=
  (s.locals t).stage = .alive ∨ t = cfg.main ∧ (s.locals t).stage = .closed

/-- `_running_local` is the number of the counted locals. -/
def CountOk (cfg : Config O T) (s : State O T) : Prop :=
  ∃ l : List T, l.Nodup ∧ (∀ t, t ∈ l ↔ Counted cfg s t) ∧ s.exec.runningLocal = l.length

/-- Locals are created and counted, and nothing else happens to them. -/
structure Grows (cfg : Config O T) (s s' : State O T) : Prop where
  stage : ∀ t, (s'.locals t).stage = (s.locals t).stage ∨
    (s.locals t).stage = .absent ∧ (s'.locals t).stage = .alive
  count : CountOk cfg s → CountOk cfg s'

namespace Grows

omit [DecidableEq O] [DecidableEq T] in
theorem of_stages (hstage : ∀ t, (s'.locals t).stage = (s.locals t).stage)
    (hrunning : s'.exec.runningLocal = s.exec.runningLocal) : Grows cfg s s' where
  stage := fun t => .inl (hstage t)
  count := by
    rintro ⟨l, hnodup, hmem, hlength⟩
    exact ⟨l, hnodup, by simpa only [Counted, hstage] using hmem, hrunning.trans hlength⟩

omit [DecidableEq O] [DecidableEq T] in
theorem trans (h : Grows cfg s s') (h' : Grows cfg s' s'') : Grows cfg s s'' where
  stage := by
    intro t
    rcases h.stage t with heq | ⟨habsent, halive⟩ <;> rcases h'.stage t with heq' | ⟨habsent', halive'⟩
    · exact .inl (heq'.trans heq)
    · exact .inr ⟨heq ▸ habsent', halive'⟩
    · exact .inr ⟨habsent, heq'.trans halive⟩
    · rw [halive] at habsent'
      cases habsent'
  count := fun hc => h'.count (h.count hc)

omit [DecidableEq O] in
theorem of_local {l : IoUringExecLocal O} (hlocals : s'.locals = Function.update s.locals t l)
    (h : l.stage = (s.locals t).stage) (hrunning : s'.exec.runningLocal = s.exec.runningLocal) :
    Grows cfg s s' := by
  refine of_stages (fun t' => ?_) hrunning
  by_cases ht : t' = t <;> simp [hlocals, ht, h]

omit [DecidableEq O] in
theorem getLocal (s : State O T) (t : T) : Grows cfg s (s.getLocal t) := by
  simp only [State.getLocal]
  split
  · next habsent =>
    have habsent : (s.locals t).stage = .absent := habsent
    constructor
    · intro t'
      by_cases ht : t' = t
      · subst ht
        exact .inr ⟨habsent, by simp [State.setLocal]⟩
      · simp [State.setLocal, State.touch, ht]
    · rintro ⟨l, hnodup, hmem, hlength⟩
      have hnot : t ∉ l := fun ht => by simpa [Counted, habsent] using (hmem t).mp ht
      refine ⟨t :: l, List.nodup_cons.mpr ⟨hnot, hnodup⟩, fun t' => ?_, by simp [State.touch, hlength]⟩
      by_cases ht : t' = t
      · simp [Counted, State.setLocal, ht]
      · simpa [Counted, State.setLocal, State.touch, ht] using hmem t'
  · exact of_stages (fun _ => rfl) rfl

omit [DecidableEq O] in
theorem allows : Allows (Grows cfg) where
  trans := trans
  frame := fun hlocals hrunning => of_stages (fun t => by rw [hlocals]) hrunning
  getLocal := getLocal
  takeSqe := fun _ _ => of_local rfl rfl rfl
  setStopping := fun _ _ _ _ => of_local rfl rfl rfl
  drain := fun _ _ => of_local rfl rfl rfl
  submit := fun _ _ _ => of_local rfl rfl rfl

end Grows

/-- A step creates locals, or it is the end of a local. -/
theorem step_grows (h : (machine cfg).step s a = some s') :
    Grows cfg s s' ∨ ∃ t ch, a = .thread t ch ∧ s.thread t = .detach := by
  have hR : Allows (Grows cfg) := Grows.allows
  have hstep := Step.of_step h
  have hrun : ∀ t ch f c pc, a = .thread t ch → s.thread t = .run f c pc → Grows cfg s s' := by
    rintro t ch f c pc rfl hpc
    have hloop : loopStep cfg s t f c ch pc = some s' := by
      simpa [machine, step, threadStep, hpc] using h
    by_cases hend : ∃ k, pc = .consume [] k
    · obtain ⟨k, rfl⟩ := hend
      obtain rfl := Option.some.inj hloop
      exact .of_local rfl rfl rfl
    · exact hR.loopStep hloop fun k hk => hend ⟨k, hk⟩
  cases hstep with
  | command _ _ => exact .inl (.of_local rfl rfl rfl)
  | drain _ => exact .inl (hR.frame rfl rfl)
  | @check t f c ch _ hpc _ => exact .inl (hrun t ch f c _ rfl hpc)
  | @tail t f c ch _ hpc _ => exact .inl (hrun t ch f c _ rfl hpc)
  | @inside t f c ch pc _ hpc _ _ _ _ => exact .inl (hrun t ch f c pc rfl hpc)
  | waitLocals _ _ => exact .inl (hR.frame rfl rfl)
  | @detach t ch hpc => exact .inr ⟨t, ch, rfl, hpc⟩
  | @start t o ch _ => exact .inl (hR.startOp cfg s t o ch)
  | @schedule t _ _ => exact .inl (hR.frame rfl rfl)
  | scheduleOn _ _ => exact .inl (.of_local rfl rfl rfl)
  | @destroy t _ _ _ _ => exact .inl (hR.same (hR.getLocal s t) rfl rfl)
  | post _ _ => exact .inl (.of_local rfl rfl rfl)
  | @stopPush t _ _ _ => exact .inl (hR.setStopping s t _ _)
  | _ => exact .inl (hR.frame rfl rfl)

/-! ## Who has a local -/

/-- A thread at this point has constructed its local and has not closed it. -/
def ThreadPc.needsLocal : ThreadPc O T → Bool
  | .outside => false
  | .ended => false
  | .run f .user .check => f.loop ≠ .exec
  | _ => true

structure LocalsOk (cfg : Config O T) (s : State O T) : Prop where
  count : CountOk cfg s
  alive : ∀ t, (s.thread t).needsLocal = true → (s.locals t).stage = .alive
  closed : ∀ t, (s.locals t).stage = .closed → s.thread t = .ended

omit [DecidableEq O] in
theorem getLocal_stage (h : (s.locals t).stage ≠ .closed) :
    ((s.getLocal t).locals t).stage = .alive := by
  simp only [State.getLocal]
  split
  · simp [State.setLocal]
  · next hstage =>
    have hstage : (s.locals t).stage ≠ .absent := hstage
    have hsame : (s.touch.locals t).stage = (s.locals t).stage := rfl
    rw [hsame]
    cases hs : (s.locals t).stage <;> simp_all

theorem step_ended (h : Step cfg s a s') (hended : s.thread t = .ended) : s'.thread t = .ended := by
  by_cases ha : a.actor = some t
  · cases h with
    | start huser =>
        obtain rfl : _ = t := by simpa [Label.actor] using ha
        simp [hended, ThreadPc.isUser] at huser
    | schedule huser =>
        obtain rfl : _ = t := by simpa [Label.actor] using ha
        simp [hended, ThreadPc.isUser] at huser
    | scheduleOn huser _ =>
        obtain rfl : _ = t := by simpa [Label.actor] using ha
        simp [hended, ThreadPc.isUser] at huser
    | post _ _ => simp [Label.actor] at ha
    | stopPush _ _ => simp [Label.actor] at ha
    | requestStop => simp [Label.actor] at ha
    | stopScope => simp [Label.actor] at ha
    | _ =>
        obtain rfl : _ = t := by simpa [Label.actor] using ha
        simp_all
  · rw [(step_other h ha).1, hended]

/-- A thread comes to such a point with its local. -/
theorem step_needsLocal (hok : LocalsOk cfg s) (h : (machine cfg).step s a = some s')
    (ha : a.actor = some t) (hneeds : (s'.thread t).needsLocal = true) :
    (s.thread t).needsLocal = true ∨ (s'.locals t).stage = .alive := by
  have hstep := Step.of_step h
  have hopen : s.thread t ≠ .ended → (s.locals t).stage ≠ .closed := fun hpc hclosed =>
    hpc (hok.closed t hclosed)
  cases hstep with
  | @check t₁ f c ch _ hpc _ =>
      obtain rfl : t₁ = t := by simpa [Label.actor] using ha
      by_cases hbefore : (s.thread t₁).needsLocal = true
      · exact .inl hbefore
      have hloop : loopStep cfg s t₁ f c ch .check = some s' := by
        simpa [machine, step, threadStep, hpc] using h
      obtain rfl := Option.some.inj hloop
      obtain ⟨rfl, hexec⟩ : c = .user ∧ f.loop = .exec := by
        cases c <;> simp_all [ThreadPc.needsLocal]
      right
      simp only [checkStep] at hneeds ⊢
      split at hneeds
      · simp [returnRun, State.setThread, ThreadPc.needsLocal] at hneeds
      · next hstop =>
        rw [if_neg hstop]
        have hlocals := (checkStep_note s t₁ f.loop).2.1
        rw [hexec] at hlocals ⊢
        exact getLocal_stage (by rw [hlocals]; exact hopen (by simp [hpc]))
  | @call t₁ loop policy ch hpc =>
      obtain rfl : t₁ = t := by simpa [Label.actor] using ha
      have hneeds : loop ≠ .exec := by simpa [State.setThread, ThreadPc.needsLocal] using hneeds
      simp only [machine, step, userStep] at h
      split at h
      · next hg => exact .inr ((hg.2.resolve_left hneeds).2)
      · cases h
  | @exitLocal t₁ ch hpc hstage =>
      obtain rfl : t₁ = t := by simpa [Label.actor] using ha
      exact .inr hstage
  | @exit t₁ ch hpc _ =>
      obtain rfl : t₁ = t := by simpa [Label.actor] using ha
      simp [State.setThread, ThreadPc.needsLocal] at hneeds
  | @destroy t₁ ch hpc _ _ =>
      obtain rfl : t₁ = t := by simpa [Label.actor] using ha
      exact .inr (getLocal_stage (hopen (by simp [hpc])))
  | @start t₁ o ch huser =>
      obtain rfl : t₁ = t := by simpa [Label.actor] using ha
      rw [(Keeps.startOp cfg s t₁ o ch).thread] at hneeds
      exact .inl hneeds
  | schedule _ => exact .inl hneeds
  | scheduleOn _ _ => exact .inl hneeds
  | post _ _ => simp [Label.actor] at ha
  | stopPush _ _ => simp [Label.actor] at ha
  | requestStop => simp [Label.actor] at ha
  | stopScope => simp [Label.actor] at ha
  | @inside t₁ f c ch pc _ hpc hcheck _ _ _ =>
      obtain rfl : t₁ = t := by simpa [Label.actor] using ha
      left
      rw [hpc]
      cases c <;> cases pc <;> simp_all [ThreadPc.needsLocal]
  | @tail t₁ f c ch _ hpc _ =>
      obtain rfl : t₁ = t := by simpa [Label.actor] using ha
      left
      rw [hpc]
      cases c <;> rfl
  | _ =>
      obtain rfl : _ = t := by simpa [Label.actor] using ha
      left
      simp [*, ThreadPc.needsLocal]

theorem LocalsOk.step (hok : LocalsOk cfg s) (h : (machine cfg).step s a = some s') :
    LocalsOk cfg s' := by
  have hstep := Step.of_step h
  rcases step_grows h with hgrows | ⟨t, ch, rfl, hpc⟩
  · refine ⟨hgrows.count hok.count, fun t hneeds => ?_, fun t hclosed => ?_⟩
    · have hbefore : (s.thread t).needsLocal = true ∨ (s'.locals t).stage = .alive := by
        by_cases ha : a.actor = some t
        · exact step_needsLocal hok h ha hneeds
        · rw [(step_other hstep ha).1] at hneeds
          exact .inl hneeds
      rcases hbefore with hbefore | halive
      · have halive := hok.alive t hbefore
        rcases hgrows.stage t with hsame | ⟨habsent, _⟩
        · exact hsame.trans halive
        · rw [halive] at habsent
          cases habsent
      · exact halive
    · refine step_ended hstep (hok.closed t ?_)
      rcases hgrows.stage t with hsame | ⟨_, halive⟩
      · exact hsame ▸ hclosed
      · rw [halive] at hclosed
        cases hclosed
  · -- the end of the local of `t`
    have halive := hok.alive t (by simp [hpc, ThreadPc.needsLocal])
    obtain rfl : detachStep cfg s t = s' := by simpa [machine, RunLoop.step, threadStep, hpc] using h
    have hself : (detachStep cfg s t).thread t = .ended ∧
        ((detachStep cfg s t).locals t).stage = .closed := by
      simp only [detachStep]
      split <;> simp [State.setThread, State.setLocal]
    have hother : ∀ t', t' ≠ t → (detachStep cfg s t).thread t' = s.thread t' ∧
        ((detachStep cfg s t).locals t').stage = (s.locals t').stage := fun t' ht =>
      step_other hstep fun heq => ht (by simpa [Label.actor, eq_comm] using heq)
    refine ⟨?_, fun t' hneeds => ?_, fun t' hclosed => ?_⟩
    · obtain ⟨l, hnodup, hmem, hlength⟩ := hok.count
      have hin : t ∈ l := (hmem t).mpr (.inl halive)
      by_cases hmain : t = cfg.main
      · refine ⟨l, hnodup, fun t' => ?_, ?_⟩
        · by_cases ht : t' = t
          · subst ht
            exact iff_of_true hin (.inr ⟨hmain, hself.2⟩)
          · rw [hmem t', Counted, Counted, (hother t' ht).2]
        · simpa [detachStep, hmain, State.setThread, State.setLocal] using hlength
      · refine ⟨l.erase t, hnodup.erase t, fun t' => ?_, ?_⟩
        · rw [hnodup.mem_erase_iff]
          by_cases ht : t' = t
          · subst ht
            simp [Counted, hself.2, hmain]
          · rw [hmem t', Counted, Counted, (hother t' ht).2]
            simp [ht]
        · rw [List.length_erase_of_mem hin, ← hlength]
          simp [detachStep, hmain, State.setThread, State.setLocal, State.touch]
    · by_cases ht : t' = t
      · subst ht
        simp [hself.1, ThreadPc.needsLocal] at hneeds
      · rw [(hother t' ht).1] at hneeds
        rw [(hother t' ht).2]
        exact hok.alive t' hneeds
    · by_cases ht : t' = t
      · subst ht
        exact hself.1
      · rw [(hother t' ht).2] at hclosed
        rw [(hother t' ht).1]
        exact hok.closed t' hclosed

theorem reachable_locals {ok : State O T → Label O T → Prop} (h : (machine cfg).Reach ok s) :
    LocalsOk cfg s := by
  refine h.invariant (LocalsOk cfg) (fun s hs => ?_) fun s a s' _ hok _ hstep => hok.step hstep
  obtain ⟨-, hrunning, -, -, -, hlocals, -, hthread, -⟩ := hs
  have habsent : ∀ t, (s.locals t).stage = .absent := fun t => (hlocals t).2.2.2.1
  exact ⟨⟨[], List.nodup_nil, by simp [Counted, habsent], hrunning⟩,
    by simp [hthread, ThreadPc.needsLocal], by simp [habsent]⟩

/-! ## Where the tasks go -/

omit [DecidableEq O] in
theorem pushImmediate_place (hplace : PlaceOk s s.tasks) (r : Option O) {m : Nat} {q : Place T}
    (hq : s.place m = some q) : (s.pushImmediate t r).place m = some q := by
  have hpush : Pushes t s (s.pushImmediate t r) := .push r (.same (.refl s)) (.refl _)
  exact hpush.place hplace hq

/-- A task stays where it is, comes into the hands of a thread, or is finished. -/
theorem step_place (hplace : PlaceOk s s.tasks) (h : Step cfg s a s') {m : Nat} {q : Place T}
    (hq : s.place m = some q) : s'.place m = some q ∨ (∃ t, s'.place m = some (.visiting t)) ∨
      s'.place m = some .finished := by
  have hsame : SamePlaces s s' → s'.place m = some q := fun hs => by rwa [hs.place]
  have hreturn : ∀ {s₁ : State O T} {t f f' c info}, Calm s s₁ t → s' = returnRun s₁ t f' info c →
      (f : Frame T) = f → s'.place m = some q := by
    rintro s₁ t f f' c info hcalm rfl -
    rwa [(hcalm.queues.trans (returnRun_elsewhere s₁ t f' info c).2).place]
  cases h with
  | @check t f c _ _ hpc henters =>
      left
      cases henters with
      | stopped _ hcalm _ _ heq => exact hreturn (f := f) hcalm heq rfl
      | entered _ hcalm _ _ _ heq => exact hsame (heq ▸ { hcalm.queues.toSamePlaces with })
  | @tail t f c _ _ hpc hends =>
      left
      cases hends with
      | back info hcalm _ _ heq _ _ => exact hreturn (f := f) hcalm heq rfl
      | stop _ hcalm _ heq _ => exact hsame (heq ▸ { hcalm.queues.toSamePlaces with })
      | again _ hcalm heq _ _ => exact hsame (heq ▸ { hcalm.queues.toSamePlaces with })
  | @inside t f c _ pc _ hpc _ _ _ hgo =>
      obtain ⟨f', pc', hgo⟩ := hgo.goes
      have htasks : s.tasks t = pc.tasks := by simp [State.tasks, hpc, ThreadPc.tasks]
      exact (hgo.queues.place hplace htasks hq).imp id (Or.imp (fun hv => ⟨t, hv⟩) id)
  | @start t o ch _ => exact .inl ((Keeps.startOp cfg s t o ch).queues.place hplace hq)
  | @schedule t _ _ => exact .inl (pushImmediate_place hplace none hq)
  | @scheduleOn t t' _ _ _ =>
      have hlt := hplace.placement.lt_next hq
      exact .inl (by simpa [State.pushAttached, Nat.ne_of_lt hlt] using hq)
  | @destroy t _ _ _ _ => exact .inl (hsame { (Calm.getLocal s t).queues.toSamePlaces with })
  | detach _ =>
      left
      simp only [detachStep]
      split <;> exact hq
  | _ => exact .inl hq

/-! ## The end of the wait -/

structure HandOk (cfg : Config O T) (s : State O T) (v : HandOvers T) : Prop where
  started : s.thread cfg.main = .waitLocals → v.started = true
  ended : v.ended = true → v.started = true ∧ ∀ t, t ≠ cfg.main → (s.locals t).stage ≠ .alive
  late : v.late = []
  returned : ∀ t, s.thread t = .detach ∨ (s.locals t).stage = .closed → t ∈ v.returned
  handed : ∀ k ∈ v.handed, ∃ p, s.place k = some p ∧ ∀ t, p ≠ .attached t

omit [DecidableEq O] in
/-- The wait is over when no other local is alive. -/
theorem LocalsOk.wait_ends (hok : LocalsOk cfg s) (hpc : s.thread cfg.main = .waitLocals)
    (hone : s.exec.runningLocal ≤ 1) (ht : t ≠ cfg.main) : (s.locals t).stage ≠ .alive := by
  intro halive
  obtain ⟨l, hnodup, hmem, hlength⟩ := hok.count
  have hmain : cfg.main ∈ l := (hmem _).mpr (.inl (hok.alive _ (by simp [hpc, ThreadPc.needsLocal])))
  have hin : t ∈ l := (hmem t).mpr (.inl halive)
  -- two different threads are on the list
  have hsub : [t, cfg.main].Subperm l := (List.subperm_of_subset (by simp [ht]) (by simp [hin, hmain]))
  have := hsub.length_le
  simp only [List.length_cons, List.length_nil] at this
  omega

/-- What a step does to the local of a thread. -/
theorem step_stage (h : (machine cfg).step s a = some s') (t : T) :
    (s'.locals t).stage = (s.locals t).stage ∨
      (s.locals t).stage = .absent ∧ (s'.locals t).stage = .alive ∨
      s.thread t = .detach ∧ (s'.locals t).stage = .closed := by
  rcases step_grows h with hgrows | ⟨t₁, ch, rfl, hpc⟩
  · exact (hgrows.stage t).imp id .inl
  · by_cases ht : t = t₁
    · subst ht
      obtain rfl : detachStep cfg s t = s' := by simpa [machine, RunLoop.step, threadStep, hpc] using h
      refine .inr (.inr ⟨hpc, ?_⟩)
      simp only [detachStep]
      split <;> simp [State.setThread, State.setLocal]
    · exact .inl (step_other (.of_step h) fun heq => ht (by simpa [Label.actor, eq_comm] using heq)).2

/-- The only way out of the wait. -/
theorem step_waitLocals (h : Step cfg s a s') (hpc : s.thread t = .waitLocals)
    (hleave : s'.thread t ≠ .waitLocals) : s.exec.runningLocal ≤ 1 := by
  by_cases ha : a.actor = some t
  · cases h with
    | waitLocals _ hone => exact hone
    | start huser =>
        obtain rfl : _ = t := by simpa [Label.actor] using ha
        simp [hpc, ThreadPc.isUser] at huser
    | schedule huser =>
        obtain rfl : _ = t := by simpa [Label.actor] using ha
        simp [hpc, ThreadPc.isUser] at huser
    | scheduleOn huser _ =>
        obtain rfl : _ = t := by simpa [Label.actor] using ha
        simp [hpc, ThreadPc.isUser] at huser
    | post _ _ => simp [Label.actor] at ha
    | stopPush _ _ => simp [Label.actor] at ha
    | requestStop => simp [Label.actor] at ha
    | stopScope => simp [Label.actor] at ha
    | _ =>
        obtain rfl : _ = t := by simpa [Label.actor] using ha
        simp_all
  · exact absurd ((step_other h ha).1.trans hpc) hleave

omit [DecidableEq O] in
theorem needsLocal_localDtor {n : ThreadPc O T} (h : n.caller = some .localDtor) :
    n.needsLocal = true := by
  cases n with
  | run f c pc =>
      obtain rfl : c = .localDtor := by simpa [ThreadPc.caller] using h
      cases pc <;> rfl
  | outside => simp [ThreadPc.caller] at h
  | ended => simp [ThreadPc.caller] at h
  | _ => rfl

theorem HandOk.step (hok : HandOk cfg s v) (hlocals : LocalsOk cfg s) (hplace : PlaceOk s s.tasks)
    (hmain : ∀ t, (s.thread t).inDtor = true → t = cfg.main)
    (hbefore : CreatedBefore cfg (s, v) a) (h : (machine cfg).step s a = some s') :
    HandOk cfg s' (noteHandOver cfg v s a s') := by
  have hstep := Step.of_step h
  have hstays : ∀ k ∈ v.handed, ∃ p, s'.place k = some p ∧ ∀ t, p ≠ .attached t := by
    intro k hk
    obtain ⟨p, hp, hne⟩ := hok.handed k hk
    rcases step_place hplace hstep hp with hp | ⟨t, hp⟩ | hp
    · exact ⟨p, hp, hne⟩
    · exact ⟨_, hp, by simp⟩
    · exact ⟨_, hp, by simp⟩
  -- the others come to life neither after the wait nor at its end
  have hgone : v.started = true → (∀ t, t ≠ cfg.main → (s.locals t).stage ≠ .alive) →
      ∀ t, t ≠ cfg.main → (s'.locals t).stage ≠ .alive := by
    intro hstarted hdead t ht halive
    rcases step_stage h t with hsame | ⟨habsent, _⟩ | ⟨_, hclosed⟩
    · exact hdead t ht (hsame ▸ halive)
    · have := hbefore hstarted t ht habsent s' h
      simp [halive] at this
    · rw [halive] at hclosed
      cases hclosed
  have hclosed : ∀ t, (s'.locals t).stage = .closed → t ∈ v.returned := by
    intro t hclosed
    rcases step_stage h t with hsame | ⟨_, halive⟩ | ⟨hpc, _⟩
    · exact hok.returned t (.inr (hsame ▸ hclosed))
    · rw [halive] at hclosed
      cases hclosed
    · exact hok.returned t (.inl hpc)
  cases hactor : a.actor with
  | none =>
      have hthread : ∀ t, s'.thread t = s.thread t := fun t => (step_other hstep (by simp [hactor])).1
      simp only [noteHandOver, hactor]
      refine ⟨by rw [hthread]; exact hok.started, fun hended => ?_, hok.late, fun t ht => ?_, hstays⟩
      · obtain ⟨hstarted, hdead⟩ := hok.ended hended
        exact ⟨hstarted, hgone hstarted hdead⟩
      · rw [hthread] at ht
        exact ht.elim (fun hpc => hok.returned t (.inl hpc)) (hclosed t)
  | some u =>
      have hthread : ∀ t, t ≠ u → s'.thread t = s.thread t := fun t ht =>
        (step_other hstep fun heq => ht (by simpa [hactor, eq_comm] using heq)).1
      simp only [noteHandOver, hactor]
      constructor
      · intro hpc
        by_cases hu : cfg.main = u
        · simp [← hu, hpc]
        · simp [hok.started (hthread _ hu ▸ hpc)]
      · intro hended
        simp only [Bool.or_eq_true, Bool.and_eq_true, decide_eq_true_eq] at hended ⊢
        rcases hended with hended | ⟨hpc, hleave⟩
        · obtain ⟨hstarted, hdead⟩ := hok.ended hended
          exact ⟨.inl hstarted, hgone hstarted hdead⟩
        · obtain rfl : u = cfg.main := hmain u (by simp [hpc, ThreadPc.inDtor, ThreadPc.caller, Caller.isDtor])
          have hstarted := hok.started hpc
          exact ⟨.inl hstarted, hgone hstarted fun t ht =>
            hlocals.wait_ends hpc (step_waitLocals hstep hpc hleave) ht⟩
      · dsimp only
        rw [if_neg, hok.late]
        rintro ⟨⟨hne, hcaller, _⟩, hended⟩
        exact (hok.ended hended).2 u hne (hlocals.alive u (needsLocal_localDtor hcaller))
      · intro t ht
        dsimp only
        by_cases hu : t = u
        · subst hu
          split
          · simp
          · next hpc => exact hclosed t (ht.resolve_left hpc)
        · have hold : t ∈ v.returned :=
            ht.elim (fun hpc => hok.returned t (.inl (hthread t hu ▸ hpc))) (hclosed t)
          split <;> simp [hold]
      · dsimp only
        split
        · next hands =>
          intro k hk
          rcases List.mem_cons.mp hk with rfl | hk
          · obtain ⟨p, hp, hbucket⟩ := (Option.any_eq_true _ _).mp hands.2.2
            refine ⟨p, hp, ?_⟩
            rintro t rfl
            simp [Place.isBucket] at hbucket
          · exact hstays k hk
        · exact hstays

theorem reachable_handed {p : State O T × HandOvers T}
    (h : (handMachine cfg).Reach (CreatedBefore cfg) p) :
    HandOk cfg p.1 p.2 ∧ (machine cfg).Reachable p.1 := by
  refine h.invariant (fun p => HandOk cfg p.1 p.2 ∧ (machine cfg).Reachable p.1) (fun p hp => ?_)
    fun p a q _ hok hbefore hstep => ?_
  · obtain ⟨hinit, hv⟩ := hp
    refine ⟨?_, .start hinit⟩
    obtain ⟨-, -, -, -, -, hlocals, -, hthread, -⟩ := hinit
    have habsent : ∀ t, (p.1.locals t).stage = .absent := fun t => (hlocals t).2.2.2.1
    constructor <;> simp [hv, hthread, habsent]
  · obtain ⟨hs, hv⟩ := Machine.observed_step.mp hstep
    obtain ⟨hok, hreach⟩ := hok
    rw [hv]
    exact ⟨hok.step (reachable_locals hreach) (reachable_places hreach) (reachable_main hreach)
      hbefore hs, hreach.next trivial hs⟩

/-- The final terminal pass has not begun. -/
def ThreadPc.beforeTerminal : ThreadPc O T → Bool
  | .command _ .execTerminal => true
  | .drain _ .execTerminal => true
  | .run _ .execTerminal .check => true
  | _ => false

/-- When the wait of `terminal_run` has ended and no other local was created since it
began, every other local that existed has returned from its `transfer_run`, and none has
handed over a task since. Until the final terminal pass begins, what they handed over is in
a bucket of `_immediate_map` if it has not been completed. -/
theorem wait_ends_after_transfers {p : State O T × HandOvers T}
    (h : (handMachine cfg).Reach (CreatedBefore cfg) p) (hended : p.2.ended = true) :
    (∀ t, t ≠ cfg.main → (p.1.locals t).stage = .absent ∨
        (p.1.locals t).stage = .closed ∧ t ∈ p.2.returned) ∧
      p.2.late = [] ∧
      ((p.1.thread cfg.main).beforeTerminal = true → ∀ k ∈ p.2.handed,
        p.1.place k = some .finished ∨ ∃ b, k ∈ (p.1.exec.immediate b).map Task.id) := by
  obtain ⟨hok, hreach⟩ := reachable_handed h
  have hlocals := reachable_locals hreach
  have hplace := reachable_places hreach
  have hdead := (hok.ended hended).2
  refine ⟨fun t ht => ?_, hok.late, fun hbefore k hk => ?_⟩
  · cases hstage : (p.1.locals t).stage with
    | absent => exact .inl rfl
    | alive => exact absurd hstage (hdead t ht)
    | closed => exact .inr ⟨rfl, hok.returned t (.inr hstage)⟩
  · obtain ⟨q, hq, hne⟩ := hok.handed k hk
    cases q with
    | bucket b => exact .inr ⟨b, (hplace.placement.mem (.bucket b) (by simp) k).mp hq⟩
    | attached t => exact absurd rfl (hne t)
    | finished => exact .inl hq
    | visiting t =>
        -- no thread has a task in its hands
        have hmem := (hplace.placement.mem (.visiting t) (by simp) k).mp hq
        exfalso
        by_cases ht : t = cfg.main
        · subst ht
          cases hpc : p.1.thread cfg.main with
          | run f c pc => cases c <;> cases pc <;> simp_all [ThreadPc.beforeTerminal, State.content,
              State.tasks, ThreadPc.tasks, LoopPc.tasks]
          | _ => simp_all [ThreadPc.beforeTerminal, State.content, State.tasks, ThreadPc.tasks]
        · refine hdead t ht (hlocals.alive t ?_)
          cases hpc : p.1.thread t with
          | run f c pc => cases c <;> cases pc <;> simp_all [ThreadPc.needsLocal, State.content,
              State.tasks, ThreadPc.tasks, LoopPc.tasks]
          | _ => simp_all [ThreadPc.needsLocal, State.content, State.tasks, ThreadPc.tasks]

section Wait

/-- Thread 0 waits in the destructor while thread 1 hands an operation over and ends. -/
def waitRun : List (Label (Fin 2) (Fin 2)) :=
  [.user 1 (.start 1) draw, .user 0 .destroy draw] ++ goes 0 11 ++ [.user 1 .exit draw] ++
    goes 1 1 ++ [.post 1 0 (-ECANCELED)] ++ goes 1 14 ++ goes 0 3

theorem wait_ends_hand_over : ∃ p : State (Fin 2) (Fin 2) × HandOvers (Fin 2),
    (p.1.thread 0).beforeTerminal = true ∧ p.2.handed = [0] ∧ (p.1.locals 1).stage ≠ .alive ∧
      (p.1.place 0 = some .finished ∨ ∃ b, 0 ∈ (p.1.exec.immediate b).map Task.id) := by
  have hrun : ∃ p, ((handMachine pairConfig).restrict (CreatedBefore pairConfig)).run
      (pairStart, {}) waitRun = some p ∧ p.2.ended = true ∧
      (p.1.thread 0).beforeTerminal = true ∧ p.2.handed = [0] := ⟨_, rfl, rfl, rfl, rfl⟩
  obtain ⟨p, hp, hended, hbefore, hhanded⟩ := hrun
  have hinit : (handMachine pairConfig).init (pairStart, {}) := ⟨pairStart_init, rfl⟩
  obtain ⟨hothers, -, hqueued⟩ := wait_ends_after_transfers (.restrict (.start hinit) hp) hended
  refine ⟨p, hbefore, hhanded, ?_, hqueued hbefore 0 (by simp [hhanded])⟩
  rcases hothers 1 (by decide) with habsent | ⟨hclosed, _⟩
  · simp [habsent]
  · simp [hclosed]

end Wait

end IoUring.Exec.RunLoop
