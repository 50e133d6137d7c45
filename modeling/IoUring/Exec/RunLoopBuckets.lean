import IoUring.Base.Observe
import IoUring.Base.Residues
import IoUring.Exec.RunLoopActivation
import Mathlib.Algebra.BigOperators.Group.List.Basic

/-!
# Which buckets the loop steps visit

`_walltime_step` belongs to the object on which `run()` is called, and every
thread that runs on the executor reads and increments the same one. It is
incremented between two steps of one call only: the last step of a call and the
first step of the next one read the same value.
-/

namespace IoUring.Exec.RunLoop

variable {O T : Type*} [DecidableEq O] [DecidableEq T]

/-! ## The history of the steps -/

/-- One step of an activation of the user on the executor: whether it is the first
one of its call, the buckets of `_immediate_map` and of the stopping map that it
drained, and how often the other threads have incremented `_walltime_step` since the
last visit of the stopping map. -/
structure LoopStep where
  policy : RunPolicy
  first : Bool
  immediate : List Bucket
  stopping : Bucket
  others : Nat
  deriving DecidableEq

/-- The increments of `_walltime_step` since the visit before. A step that begins a call
finds the value of the last step of the call before. -/
def LoopStep.gap (st : LoopStep) : Nat :=
  (if st.first then 0 else 1) + st.others

/-- The buckets of `_immediate_map` drained in the present step, the increments by
other threads since the last visit of the stopping map, and the steps, newest first. -/
structure Visits (T : Type*) where
  immediate : T → List Bucket
  others : T → Nat
  steps : T → List LoopStep

def Visits.empty : Visits T :=
  ⟨fun _ => [], fun _ => 0, fun _ => []⟩

/-- The bucket of the stopping map whose operations the thread is cancelling. -/
def ThreadPc.drained : ThreadPc O T → Option Bucket
  | .run _ _ (.cancelling b _) => some b
  | _ => none

/-- The history of a step of thread `t` in an activation of the user on the executor. -/
def noteLoop (v : Visits T) (s s' : State O T) (t : T) (f : Frame T) : LoopPc O → Visits T
  | .check => { v with immediate := Function.update v.immediate t [] }
  | .launch _ => { v with
      immediate := Function.update v.immediate t
        (v.immediate t ++ (s'.pass t).drains.drop (s.pass t).drains.length) }
  | .stopping =>
      match (s'.thread t).drained with
      | some b => { v with
          others := Function.update v.others t 0
          steps := Function.update v.steps t
            (⟨f.policy, f.step == 1, v.immediate t, b, v.others t⟩ :: v.steps t) }
      | none => v
  | .tail => { v with
      immediate := Function.update v.immediate t []
      others := fun u =>
        if u = t ∨ s'.walltimeStep .exec = s.walltimeStep .exec then v.others u
        else v.others u + 1 }
  | _ => v

def noteVisits (v : Visits T) (s : State O T) (a : Label O T) (s' : State O T) : Visits T :=
  match a with
  | .thread t _ =>
      match s.thread t with
      | .run f .user pc => if f.loop = .exec then noteLoop v s s' t f pc else v
      | _ => v
  | _ => v

/-- The machine with the history of its loop steps. -/
def visitMachine (cfg : Config O T) : Machine (State O T × Visits T) (Label O T) :=
  (machine cfg).observed .empty noteVisits

/-- The user calls `run()` on the executor with policies that launch and are not blocking. -/
def Visiting : Label O T → Prop
  | .user _ (.call .exec policy) _ => policy.launch = true ∧ policy.blocking = false
  | _ => True

/-- Moreover thread `t` alone calls `run()` on the executor. -/
def VisitingAlone (t : T) : Label O T → Prop
  | .user t' (.call .exec policy) _ => t' = t ∧ policy.launch = true ∧ policy.blocking = false
  | _ => True

instance (a : Label O T) : Decidable (Visiting a) := by
  unfold Visiting
  split <;> infer_instance

instance (t : T) (a : Label O T) : Decidable (VisitingAlone t a) := by
  unfold VisitingAlone
  split <;> infer_instance

variable {cfg : Config O T} {s s' : State O T} {v : Visits T} {t u : T} {f f' : Frame T}
  {c : Caller T} {ch : Choice} {pc pc' : LoopPc O} {a : Label O T}

/-- What a step of thread `t` means for its activation on the executor. -/
inductive Turns (cfg : Config O T) (s s' : State O T) (t : T) (a : Label O T) : Prop where
  | run {ch : Choice} {f : Frame T} {pc : LoopPc O} (hpc : s.thread t = .run f .user pc)
      (hexec : f.loop = .exec) (hstep : loopStep cfg s t f .user ch pc = some s')
      (hmoves : Moves s s' t f .user pc)
      (hsame : s'.walltimeStep .exec = s.walltimeStep .exec ∨ pc = .tail)
      (hnote : ∀ v, noteVisits v s a s' = noteLoop v s s' t f pc) : Turns cfg s s' t a
  | elsewhere (hbefore : ∀ f pc, ¬ OnExec (s.thread t) f pc)
      (hafter : ∀ f pc, ¬ OnExec (s'.thread t) f pc)
      (hsame : s'.walltimeStep .exec = s.walltimeStep .exec)
      (hnote : ∀ v, noteVisits v s a s' = v) : Turns cfg s s' t a
  | same (hact : (s'.thread t).activation = (s.thread t).activation)
      (hsame : s'.walltimeStep .exec = s.walltimeStep .exec)
      (hnote : ∀ v, noteVisits v s a s' = v) : Turns cfg s s' t a
  | call {loop : Loop T} {policy : RunPolicy} {ch : Choice} (ha : a = .user t (.call loop policy) ch)
      (hact : (s'.thread t).activation = some ({ loop := loop, policy := policy }, .user, .check))
      (hidle : (s.thread t).activation = none)
      (hsame : s'.walltimeStep .exec = s.walltimeStep .exec) : Turns cfg s s' t a

omit [DecidableEq O] in
theorem noteVisits_idle (v : Visits T)
    (h : ∀ ch, a = .thread t ch → ∀ f pc, s.thread t = .run f .user pc → f.loop ≠ .exec)
    (ha : a.actor = some t) : noteVisits v s a s' = v := by
  cases a with
  | thread t₁ ch =>
      obtain rfl : t₁ = t := by simpa [Label.actor] using ha
      simp only [noteVisits]
      split
      · next hpc => exact if_neg (h ch rfl _ _ hpc)
      · rfl
  | _ => rfl

theorem step_turns (hinv : LoopInv s) (h : (machine cfg).step s a = some s')
    (ha : a.actor = some t) : Turns cfg s s' t a := by
  have hwalltime := step_walltime_actor (.of_step h) hinv ha
  have ht := hinv.threads t
  cases step_acts h ha with
  | @run ch f c pc hpc hloop hmoves =>
      have htail : s'.walltimeStep .exec = s.walltimeStep .exec ∨
          c = .user ∧ pc = .tail ∧ f.loop = .exec := by
        apply hwalltime.imp id
        rintro ⟨ch₁, f₁, -, hpc₁, hexec⟩
        rw [hpc] at hpc₁
        obtain ⟨rfl, rfl, rfl⟩ := ThreadPc.run.inj hpc₁
        exact ⟨rfl, rfl, hexec⟩
      by_cases hon : c = .user ∧ f.loop = .exec
      · obtain ⟨rfl, hexec⟩ := hon
        exact .run hpc hexec hloop hmoves (htail.imp id fun h => h.2.1) fun v => by
          simp [noteVisits, hpc, hexec]
      · refine .elsewhere (fun f₁ pc₁ h₁ => ?_) (fun f₁ pc₁ h₁ => hon (hmoves.onExec h₁))
          (htail.resolve_right fun h => hon ⟨h.1, h.2.2⟩)
          fun v => noteVisits_idle v (fun ch₁ _ f₁ pc₁ hpc₁ hexec => ?_) ha
        · obtain ⟨hact, hexec⟩ := h₁
          rw [hpc] at hact
          obtain ⟨rfl, rfl, -⟩ : f = f₁ ∧ c = .user ∧ pc = pc₁ := by
            simpa [ThreadPc.activation] using hact
          exact hon ⟨rfl, hexec⟩
        · rw [hpc] at hpc₁
          obtain ⟨rfl, rfl, -⟩ := ThreadPc.run.inj hpc₁
          exact hon ⟨rfl, hexec⟩
  | same hidle hact =>
      have hkept : s'.walltimeStep .exec = s.walltimeStep .exec := by
        refine hwalltime.resolve_right ?_
        rintro ⟨ch, f, heq, hpc, -⟩
        exact hidle ch heq _ _ _ hpc
      exact .same hact hkept
        fun v => noteVisits_idle v (fun ch heq f pc hpc => absurd hpc (hidle ch heq f _ pc)) ha
  | call hact hidle =>
      refine .call rfl hact hidle (hwalltime.resolve_right ?_)
      rintro ⟨ch, f, heq, -⟩
      simp at heq
  | @drain ch f c hpc hact =>
      rw [hpc] at ht
      have hkept : s'.walltimeStep .exec = s.walltimeStep .exec := by
        refine hwalltime.resolve_right ?_
        rintro ⟨ch₁, f₁, -, heq, -⟩
        simp [hpc] at heq
      refine .elsewhere (by simp [OnExec, hpc, ThreadPc.activation]) (fun f₁ pc₁ h₁ => ?_) hkept
        fun v => noteVisits_idle v (by simp [hpc]) ha
      obtain ⟨-, rfl, -⟩ : f = f₁ ∧ c = .user ∧ LoopPc.check = pc₁ := by simpa [hact] using h₁.1
      exact ht.2.1 rfl

/-! ## Where the visits of one thread are -/

/-- The increments of `_walltime_step` by the thread itself since its last visit. -/
def ThreadPc.ticks (n : ThreadPc O T) : Nat :=
  match n.activation with
  | some (f, .user, pc) => if f.loop = .exec ∧ pc.visited = false ∧ f.step ≠ 1 then 1 else 0
  | _ => 0

/-- The visits of thread `t` follow one another, and `_walltime_step` is as far ahead of
the last one as it has been incremented since. -/
structure VisitOk (s : State O T) (v : Visits T) (t : T) : Prop where
  frame : ∀ f pc, OnExec (s.thread t) f pc → f.policy.launch = true ∧ f.policy.blocking = false ∧
    0 < f.step ∧ (pc = .check → f.step = 1)
  position : ∀ st rest, v.steps t = st :: rest → s.walltimeStep .exec % nWayConcurrency =
    (st.stopping.val + v.others t + (s.thread t).ticks) % nWayConcurrency
  chain : (v.steps t).IsChain (Follows LoopStep.stopping LoopStep.gap)

omit [DecidableEq O] in
theorem ticks_onExec {n : ThreadPc O T} (h : OnExec n f pc) :
    n.ticks = if pc.visited = false ∧ f.step ≠ 1 then 1 else 0 := by
  simp [ThreadPc.ticks, h.1, h.2]

omit [DecidableEq O] in
theorem ticks_elsewhere {n : ThreadPc O T} (h : ∀ f pc, ¬ OnExec n f pc) : n.ticks = 0 := by
  simp only [ThreadPc.ticks]
  split
  · next f pc hact => rw [if_neg fun hexec => h f pc ⟨hact, hexec.1⟩]
  · rfl

omit [DecidableEq O] in
/-- The steps and the increments by other threads that a thread sees are noted at its
visits and at the ends of steps. -/
theorem noteLoop_steps (v : Visits T) (s s' : State O T) (t : T) (f : Frame T) (hstopping : pc ≠ .stopping) :
    (noteLoop v s s' t f pc).steps = v.steps ∧ (noteLoop v s s' t f pc).others t = v.others t := by
  cases pc with
  | stopping => exact absurd rfl hstopping
  | tail => simp [noteLoop]
  | _ => exact ⟨rfl, rfl⟩

omit [DecidableEq O] in
theorem noteLoop_stopping (v : Visits T) (s : State O T) (t : T) (f : Frame T) (c : Caller T) :
    noteLoop v s (stoppingStep s t f c) t f (.stopping : LoopPc O) = { v with
      others := Function.update v.others t 0
      steps := Function.update v.steps t (⟨f.policy, f.step == 1, v.immediate t,
        robinAccess (s.walltimeStep f.loop), v.others t⟩ :: v.steps t) } := by
  simp [noteLoop, stoppingStep, State.setThread, ThreadPc.drained]

omit [DecidableEq O] in
/-- The next visit is as far from the last one as `_walltime_step` says. -/
theorem VisitOk.visit (hok : VisitOk s v t) (hon : OnExec (s.thread t) f .stopping) (imm : List Bucket) :
    ((⟨f.policy, f.step == 1, imm, robinAccess (s.walltimeStep .exec), v.others t⟩ : LoopStep) ::
      v.steps t).IsChain (Follows LoopStep.stopping LoopStep.gap) := by
  cases hsteps : v.steps t with
  | nil => exact .singleton _
  | cons st rest =>
      have hchain := hok.chain
      rw [hsteps] at hchain
      refine List.isChain_cons_cons.mpr ⟨?_, hchain⟩
      have hposition := hok.position st rest hsteps
      rw [ticks_onExec hon] at hposition
      simp only [Follows, LoopStep.gap, robinAccess, hposition, LoopPc.visited, true_and, beq_iff_eq]
      by_cases hfirst : f.step = 1
      · simp [hfirst]
      · simp [hfirst, Nat.add_comm, Nat.add_left_comm]

omit [DecidableEq O] in
/-- What `_walltime_step` has gained is accounted for. -/
theorem VisitOk.advance {v' : Visits T} (hok : VisitOk s v t)
    (hframe : ∀ f pc, OnExec (s'.thread t) f pc → f.policy.launch = true ∧
      f.policy.blocking = false ∧ 0 < f.step ∧ (pc = .check → f.step = 1))
    (hsteps : v'.steps t = v.steps t) (k : Nat)
    (hwalltime : s'.walltimeStep .exec = s.walltimeStep .exec + k)
    (hgain : v'.others t + (s'.thread t).ticks = v.others t + (s.thread t).ticks + k) :
    VisitOk s' v' t := by
  refine ⟨hframe, fun st rest hst => ?_, by rw [hsteps]; exact hok.chain⟩
  rw [hsteps] at hst
  have hposition := hok.position st rest hst
  rw [hwalltime]
  simp only [nWayConcurrency] at hposition ⊢
  omega

/-- An activation of the user on the executor takes a step. -/
theorem VisitOk.loop (hok : VisitOk s v t) (hpc : s.thread t = .run f .user pc)
    (hexec : f.loop = .exec) (hmoves : Moves s s' t f .user pc)
    (hstep : loopStep cfg s t f .user ch pc = some s')
    (hsame : s'.walltimeStep .exec = s.walltimeStep .exec ∨ pc = .tail) :
    VisitOk s' (noteLoop v s s' t f pc) t := by
  have hon : OnExec (s.thread t) f pc := ⟨by rw [hpc]; rfl, hexec⟩
  obtain ⟨hlaunch, hblocking, hpos, hcheck⟩ := hok.frame f pc hon
  have hticks := ticks_onExec hon
  cases hmoves with
  | enters hact =>
      obtain ⟨hsteps, hothers⟩ := noteLoop_steps v s s' t f
        (show (.check : LoopPc O) ≠ .stopping by simp)
      have hon' : OnExec (s'.thread t) f (.launch (launchSources f.policy)) := ⟨hact, hexec⟩
      refine hok.advance (fun f₁ pc₁ h₁ => ?_) (by rw [hsteps]) 0 (by simpa using hsame) ?_
      · obtain ⟨rfl, rfl⟩ : f = f₁ ∧ _ = pc₁ := by simpa [hact] using h₁.1
        exact ⟨hlaunch, hblocking, hpos, by simp⟩
      · rw [hothers, hticks, ticks_onExec hon']
        simp [hcheck rfl]
  | @goes _ pc' f' hact hpcheck htail hloop hpolicy hstep' hcheck' hvisited _ =>
      have hon' : OnExec (s'.thread t) f' pc' := ⟨hact, hloop.trans hexec⟩
      have hframe : ∀ f₁ pc₁, OnExec (s'.thread t) f₁ pc₁ → f₁.policy.launch = true ∧
          f₁.policy.blocking = false ∧ 0 < f₁.step ∧ (pc₁ = .check → f₁.step = 1) := by
        intro f₁ pc₁ h₁
        obtain ⟨rfl, rfl⟩ : f' = f₁ ∧ pc' = pc₁ := by simpa [hact] using h₁.1
        rw [hpolicy, hstep']
        exact ⟨hlaunch, hblocking, hpos, fun h => absurd h hcheck'⟩
      have hwalltime : s'.walltimeStep .exec = s.walltimeStep .exec := by simpa [htail] using hsame
      have hvisited := hvisited hblocking
      by_cases hstopping : pc = .stopping
      · subst hstopping
        obtain rfl := Option.some.inj hstep
        rw [noteLoop_stopping, hexec]
        refine ⟨hframe, fun st rest hst => ?_, ?_⟩
        · -- the new visit is where `_walltime_step` is
          obtain ⟨rfl, rfl⟩ := List.cons.inj (by simpa using hst)
          simp [hwalltime, ticks_onExec hon', hvisited.mpr (.inr rfl), robinAccess]
        · simpa using hok.visit hon _
      · obtain ⟨hsteps, hothers⟩ := noteLoop_steps v s s' t f hstopping
        apply hok.advance hframe (by rw [hsteps]) 0 hwalltime
        have hiff : pc'.visited = pc.visited := by
          simp only [hstopping, or_false] at hvisited
          exact Bool.eq_iff_iff.mpr hvisited
        rw [hothers, hticks, ticks_onExec hon', hiff, hstep', Nat.add_zero]
  | leaves hact hend hwalltime =>
      have hnone : ∀ f₁ pc₁, ¬ OnExec (s'.thread t) f₁ pc₁ := fun f₁ pc₁ h₁ => by
        simp [OnExec, hact] at h₁
      obtain ⟨hsteps, hothers⟩ := noteLoop_steps v s s' t f
        (show pc ≠ .stopping by rcases hend with rfl | rfl <;> simp)
      refine hok.advance (fun f₁ pc₁ h₁ => absurd h₁ (hnone f₁ pc₁)) (by rw [hsteps]) 0
        (by rw [hwalltime]; rfl) ?_
      · rw [hothers, hticks, ticks_elsewhere hnone]
        rcases hend with rfl | rfl
        · simp [hcheck rfl]
        · simp [LoopPc.visited]
  | @again f' hact hweakly hloop hpolicy hstep' hwalltime =>
      obtain ⟨hsteps, hothers⟩ := noteLoop_steps v s s' t f
        (show (.tail : LoopPc O) ≠ .stopping by simp)
      have hon' : OnExec (s'.thread t) f' (.launch (launchSources f.policy)) :=
        ⟨hact, hloop.trans hexec⟩
      refine hok.advance (fun f₁ pc₁ h₁ => ?_) (by rw [hsteps]) 1 (by rwa [hexec] at hwalltime) ?_
      · obtain ⟨rfl, rfl⟩ : f' = f₁ ∧ _ = pc₁ := by simpa [hact] using h₁.1
        rw [hpolicy, hstep']
        exact ⟨hlaunch, hblocking, by omega, by simp⟩
      · rw [hothers, hticks, ticks_onExec hon', hstep']
        simp [LoopPc.visited, Nat.pos_iff_ne_zero.mp hpos]

omit [DecidableEq O] in
theorem noteLoop_other (v : Visits T) (s s' : State O T) (f : Frame T) (pc : LoopPc O) (hne : t ≠ u) :
    (noteLoop v s s' u f pc).steps t = v.steps t ∧
      (noteLoop v s s' u f pc).immediate t = v.immediate t ∧
      (s'.walltimeStep .exec = s.walltimeStep .exec →
        (noteLoop v s s' u f pc).others t = v.others t) := by
  cases pc with
  | stopping =>
      simp only [noteLoop]
      split <;> simp [hne]
  | check => simp [noteLoop, hne]
  | launch sources => simp [noteLoop, hne]
  | tail => simp +contextual [noteLoop, hne]
  | _ => exact ⟨rfl, rfl, fun _ => rfl⟩

/-- What the history says about the threads that do not move. -/
theorem noteVisits_other (hinv : LoopInv s) (h : Step cfg s a s') (ha : a.actor ≠ some t) :
    (noteVisits v s a s').steps t = v.steps t ∧
      (noteVisits v s a s').immediate t = v.immediate t ∧
      ∃ k, s'.walltimeStep .exec = s.walltimeStep .exec + k ∧
        (noteVisits v s a s').others t = v.others t + k := by
  by_cases hsame : s'.walltimeStep .exec = s.walltimeStep .exec
  · suffices hnote : (noteVisits v s a s').steps t = v.steps t ∧
        (noteVisits v s a s').immediate t = v.immediate t ∧
        (noteVisits v s a s').others t = v.others t from ⟨hnote.1, hnote.2.1, 0, hsame, hnote.2.2⟩
    cases a with
    | thread u ch =>
        have hne : t ≠ u := fun heq => ha (by simp [Label.actor, heq])
        simp only [noteVisits]
        split
        · split
          · next f pc _ _ =>
            obtain ⟨hsteps, himmediate, hothers⟩ := noteLoop_other v s s' f pc hne
            exact ⟨hsteps, himmediate, hothers hsame⟩
          · exact ⟨rfl, rfl, rfl⟩
        · exact ⟨rfl, rfl, rfl⟩
    | _ => exact ⟨rfl, rfl, rfl⟩
  · obtain ⟨u, ch, f, c, rfl, hpc, hloop, hweakly, hwalltime⟩ :=
      (step_walltime h .exec).resolve_left hsame
    have hne : t ≠ u := fun heq => ha (by simp [Label.actor, heq])
    -- a destructor makes one step
    have huser : c = .user := by
      by_contra hc
      have ht := hinv.threads u
      rw [hpc] at ht
      rcases ht.1.policy hc with hp | hp <;> rw [hp] at hweakly <;>
        exact absurd hweakly (by decide)
    subst huser
    exact ⟨by simp [noteVisits, hpc, hloop, noteLoop], by simp [noteVisits, hpc, hloop, noteLoop, hne],
      1, hwalltime, by simp [noteVisits, hpc, hloop, noteLoop, hne, hwalltime]⟩

theorem VisitOk.step (hinv : LoopInv s) (hok : VisitOk s v t) (hvisiting : Visiting a)
    (h : (machine cfg).step s a = some s') : VisitOk s' (noteVisits v s a s') t := by
  have hstep := Step.of_step h
  by_cases ha : a.actor = some t
  · cases step_turns hinv h ha with
    | run hpc hexec hloop hmoves hsame hnote =>
        rw [hnote]
        exact hok.loop hpc hexec hmoves hloop hsame
    | elsewhere hbefore hafter hsame hnote =>
        rw [hnote]
        exact hok.advance (fun f pc hon => absurd hon (hafter f pc)) rfl 0 hsame
          (by rw [ticks_elsewhere hbefore, ticks_elsewhere hafter])
    | same hact hsame hnote =>
        rw [hnote]
        exact hok.advance (fun f pc hon => hok.frame f pc ⟨hact ▸ hon.1, hon.2⟩) rfl 0 hsame
          (by simp only [ThreadPc.ticks, hact, Nat.add_zero])
    | @call loop policy ch heq hact hidle hsame =>
        subst heq
        refine hok.advance (fun f pc hon => ?_) rfl 0 hsame ?_
        · obtain ⟨hact', hexec⟩ := hon
          obtain ⟨rfl, rfl⟩ : _ = f ∧ LoopPc.check = pc := by simpa [hact] using hact'
          obtain rfl : loop = .exec := hexec
          exact ⟨hvisiting.1, hvisiting.2, Nat.one_pos, fun _ => rfl⟩
        · simp [ThreadPc.ticks, hact, hidle, noteVisits]
  · obtain ⟨hsteps, -, k, hwalltime, hothers⟩ := noteVisits_other (v := v) hinv hstep ha
    have hthread := (step_other hstep ha).1
    refine hok.advance ?_ hsteps k hwalltime ?_
    · rw [hthread]
      exact hok.frame
    · rw [hothers, hthread]
      omega

omit [DecidableEq O] in
/-- The visits of consecutive steps follow one another. -/
theorem VisitOk.window (h : VisitOk s v t) {w : List LoopStep} (hw : w <:+: v.steps t) :
    w.IsChain (Follows LoopStep.stopping LoopStep.gap) := by
  obtain ⟨before, after, hsteps⟩ := hw
  have hchain := h.chain
  rw [← hsteps] at hchain
  exact hchain.left_of_append.right_of_append

theorem reachable_visits {p : State O T × Visits T}
    (h : (visitMachine cfg).Reach (fun _ a => Visiting a) p) (t : T) : VisitOk p.1 p.2 t := by
  have hinv : LoopInv p.1 ∧ VisitOk p.1 p.2 t := by
    refine h.invariant (fun p => LoopInv p.1 ∧ VisitOk p.1 p.2 t) (fun p hp => ?_)
      fun p a q _ hok hvisiting hstep => ?_
    · obtain ⟨hinit, hv⟩ := hp
      have hthread := hinit.2.2.2.2.2.2.2.1 t
      have hreach : (machine cfg).Reachable p.1 := .start hinit
      refine ⟨reachable_inv hreach, ?_, ?_, ?_⟩
      · simp [OnExec, hthread, ThreadPc.activation]
      · simp [hv, Visits.empty]
      · simp [hv, Visits.empty]
    · obtain ⟨hs, hv⟩ := Machine.observed_step.mp hstep
      rw [hv]
      exact ⟨step_inv hok.1 (.of_step hs), hok.2.step hok.1 hvisiting hs⟩
  exact hinv.2

/-- For any number of threads that run on one executor and every interleaving: among
16 consecutive loop steps of one thread, every bucket of its stopping map is drained
if and only if the increments of `_walltime_step` between two of these steps, those of
the other threads included, never add up to a multiple of 16. -/
theorem stopping_map_covered {p : State O T × Visits T}
    (h : (visitMachine cfg).Reach (fun _ a => Visiting a) p) (t : T) {w : List LoopStep}
    (hw : w <:+: p.2.steps t) (hlength : w.length = nWayConcurrency) :
    (∀ b, ∃ st ∈ w, st.stopping = b) ↔
      ∀ seg, seg ≠ [] → seg <:+: w.dropLast → (seg.map LoopStep.gap).sum % nWayConcurrency ≠ 0 :=
  forall_visited_iff ((reachable_visits h t).window hw) hlength

/-! ## One thread -/

/-- Thread `t` is the only one that runs on the executor. In a step, the bucket of
`_immediate_map` whose turn it is has been drained when the queue is not pending. -/
structure AloneOk (s : State O T) (v : Visits T) (t : T) : Prop where
  alone : ∀ u, u ≠ t → ∀ f pc, ¬ OnExec (s.thread u) f pc
  others : v.others t = 0
  turn : ∀ f pc, OnExec (s.thread t) f pc → pc.visited = false → f.policy.transfer = false →
    .robin ∈ pc.pending f.policy ∨ robinAccess (s.walltimeStep .exec) ∈ v.immediate t
  steps : ∀ st ∈ v.steps t, st.others = 0 ∧
    (st.policy.transfer = false → st.stopping ∈ st.immediate)

theorem robin_mem_launchSources {p : RunPolicy} (hlaunch : p.launch = true)
    (htransfer : p.transfer = false) : .robin ∈ launchSources p := by
  simp [launchSources, hlaunch, htransfer]

omit [DecidableEq O] in
/-- The buckets drained in the present step stay noted until its end. -/
theorem mem_noteLoop_immediate {b : Bucket} (hb : b ∈ v.immediate t) (hcheck : pc ≠ .check)
    (htail : pc ≠ .tail) : b ∈ (noteLoop v s s' t f pc).immediate t := by
  cases pc with
  | check => exact absurd rfl hcheck
  | tail => exact absurd rfl htail
  | launch sources => simp [noteLoop, hb]
  | stopping =>
      simp only [noteLoop]
      split <;> exact hb
  | _ => exact hb

theorem mem_noteLoop_robin {rest : List LaunchSource}
    (h : loopStep cfg s t f c ch (.launch (.robin :: rest)) = some s') :
    robinAccess (s.walltimeStep f.loop) ∈
      (noteLoop v s s' t f (.launch (.robin :: rest) : LoopPc O)).immediate t := by
  obtain rfl := Option.some.inj h
  simp [noteLoop, launchStep, launchBucket, State.drainBucket, State.visiting, State.setPass,
    State.setThread, State.touch]

theorem AloneOk.loop (halone : AloneOk s v t) (hok : VisitOk s v t)
    (hpc : s.thread t = .run f .user pc) (hexec : f.loop = .exec)
    (hmoves : Moves s s' t f .user pc) (hstep : loopStep cfg s t f .user ch pc = some s')
    (hsame : s'.walltimeStep .exec = s.walltimeStep .exec ∨ pc = .tail)
    (hothers : ∀ u, u ≠ t → ∀ f pc, ¬ OnExec (s'.thread u) f pc) :
    AloneOk s' (noteLoop v s s' t f pc) t := by
  have hon : OnExec (s.thread t) f pc := ⟨by rw [hpc]; rfl, hexec⟩
  obtain ⟨hlaunch, hblocking, -, -⟩ := hok.frame f pc hon
  have hbegin : ∀ f' : Frame T, f'.policy = f.policy →
      (s'.thread t).activation = some (f', .user, .launch (launchSources f.policy)) →
      ∀ f₁ pc₁, OnExec (s'.thread t) f₁ pc₁ → pc₁.visited = false → f₁.policy.transfer = false →
        .robin ∈ pc₁.pending f₁.policy ∨
          robinAccess (s'.walltimeStep .exec) ∈ (noteLoop v s s' t f pc).immediate t := by
    intro f' hpolicy hact f₁ pc₁ h₁ _ htransfer
    obtain ⟨rfl, rfl⟩ : f' = f₁ ∧ _ = pc₁ := by simpa [hact] using h₁.1
    exact .inl (robin_mem_launchSources hlaunch (hpolicy ▸ htransfer))
  by_cases hstopping : pc = .stopping
  · subst hstopping
    obtain rfl := Option.some.inj hstep
    have hact : ((stoppingStep s t f .user).thread t).activation =
      some (f, .user, .cancelling _ _) := setThread_activation _ t _
    rw [noteLoop_stopping, hexec]
    refine ⟨hothers, by simp, fun f₁ pc₁ h₁ hvisited _ => ?_, fun st hst => ?_⟩
    · obtain ⟨rfl, rfl⟩ : f = f₁ ∧ _ = pc₁ := by simpa [hact] using h₁.1
      simp [LoopPc.visited] at hvisited
    · rcases List.mem_cons.mp (by simpa using hst) with rfl | hst
      · refine ⟨halone.others, fun htransfer => ?_⟩
        exact (halone.turn f _ hon rfl htransfer).resolve_left (by simp [LoopPc.pending])
      · exact halone.steps st hst
  · obtain ⟨hsteps, hcount⟩ := noteLoop_steps v s s' t f hstopping
    refine ⟨hothers, hcount.trans halone.others, ?_, by rw [hsteps]; exact halone.steps⟩
    cases hmoves with
    | enters hact => exact hbegin f rfl hact
    | again hact _ _ hpolicy _ _ => exact hbegin _ hpolicy hact
    | leaves hact _ _ =>
        intro f₁ pc₁ h₁
        simp [OnExec, hact] at h₁
    | @goes _ pc' f' hact hcheck htail hloop hpolicy _ _ hvisited hpending =>
        intro f₁ pc₁ h₁ hahead htransfer
        obtain ⟨rfl, rfl⟩ : f' = f₁ ∧ pc' = pc₁ := by simpa [hact] using h₁.1
        rw [hpolicy] at htransfer ⊢
        have hbefore : pc.visited = false := by
          have hvisited := hvisited hblocking
          simp only [hahead, hstopping, or_false, Bool.false_eq_true, false_iff, Bool.not_eq_true] at hvisited
          exact hvisited
        rw [hsame.resolve_right htail]
        rcases halone.turn f pc hon hbefore htransfer with hrobin | hdrained
        · rcases hpending _ hrobin with hrobin | ⟨rest, rfl⟩
          · exact .inl hrobin
          · exact .inr (hexec ▸ mem_noteLoop_robin hstep)
        · exact .inr (mem_noteLoop_immediate hdrained hcheck htail)

/-- The other threads stay away from the executor. -/
theorem AloneOk.step_alone (hinv : LoopInv s) (halone : AloneOk s v t) (hvisiting : VisitingAlone t a)
    (h : (machine cfg).step s a = some s') (u : T) (hne : u ≠ t) (f : Frame T) (pc : LoopPc O) :
    ¬ OnExec (s'.thread u) f pc := by
  have hbefore := halone.alone u hne
  by_cases ha : a.actor = some u
  · cases step_turns hinv h ha with
    | run hpc hexec _ _ _ _ => exact absurd ⟨by rw [hpc]; rfl, hexec⟩ (hbefore _ _)
    | elsewhere _ hafter _ _ => exact hafter f pc
    | same hact _ _ => exact fun hon => hbefore f pc ⟨hact ▸ hon.1, hon.2⟩
    | @call loop policy ch heq hact _ _ =>
        subst heq
        rintro ⟨hact', hexec⟩
        obtain ⟨rfl, -⟩ : _ = f ∧ LoopPc.check = pc := by simpa [hact] using hact'
        obtain rfl : loop = .exec := hexec
        exact hne hvisiting.1
  · rw [(step_other (.of_step h) ha).1]
    exact hbefore f pc

theorem AloneOk.step (hinv : LoopInv s) (hok : VisitOk s v t) (halone : AloneOk s v t)
    (hvisiting : VisitingAlone t a) (h : (machine cfg).step s a = some s') :
    AloneOk s' (noteVisits v s a s') t := by
  have hstep := Step.of_step h
  have hothers := halone.step_alone hinv hvisiting h
  by_cases ha : a.actor = some t
  · cases step_turns hinv h ha with
    | run hpc hexec hloop hmoves hsame hnote =>
        rw [hnote]
        exact halone.loop hok hpc hexec hmoves hloop hsame hothers
    | elsewhere _ hafter _ hnote =>
        rw [hnote]
        exact ⟨hothers, halone.others, fun f pc hon => absurd hon (hafter f pc), halone.steps⟩
    | same hact hsame hnote =>
        rw [hnote]
        refine ⟨hothers, halone.others, fun f pc hon => ?_, halone.steps⟩
        rw [hsame]
        exact halone.turn f pc ⟨hact ▸ hon.1, hon.2⟩
    | @call loop policy ch heq hact _ _ =>
        subst heq
        refine ⟨hothers, halone.others, fun f pc hon _ htransfer => ?_, halone.steps⟩
        obtain ⟨hact', hexec⟩ := hon
        obtain ⟨rfl, rfl⟩ : _ = f ∧ LoopPc.check = pc := by simpa [hact] using hact'
        obtain rfl : loop = .exec := hexec
        exact .inl (robin_mem_launchSources hvisiting.2.1 htransfer)
  · obtain ⟨hsteps, himmediate, k, hwalltime, hcount⟩ := noteVisits_other (v := v) hinv hstep ha
    -- the one who has moved `_walltime_step` would run on the executor
    have hzero : k = 0 := by
      by_contra hk
      obtain ⟨u, ch, f, c, rfl, hpc, hexec, -⟩ := (step_walltime hstep .exec).resolve_left (by omega)
      have hne : u ≠ t := fun heq => ha (by simp [Label.actor, heq])
      obtain ⟨ch₁, f₁, -, hpc₁, hexec₁⟩ :=
        (step_walltime_actor hstep hinv (t := u) rfl).resolve_left (by omega)
      exact halone.alone u hne f₁ .tail ⟨by rw [hpc₁]; rfl, hexec₁⟩
    subst hzero
    refine ⟨hothers, hcount.trans (by rw [halone.others]), ?_, by rw [hsteps]; exact halone.steps⟩
    rw [(step_other hstep ha).1, himmediate, hwalltime]
    exact halone.turn

omit [DecidableEq O] [DecidableEq T] in
theorem VisitingAlone.visiting (h : VisitingAlone t a) : Visiting a := by
  cases a with
  | user t' act ch =>
      cases act with
      | call loop policy =>
          cases loop with
          | exec => exact h.2
          | own _ => trivial
      | _ => trivial
  | _ => trivial

theorem reachable_alone {p : State O T × Visits T}
    (h : (visitMachine cfg).Reach (fun _ a => VisitingAlone t a) p) : AloneOk p.1 p.2 t := by
  have hinv : (LoopInv p.1 ∧ VisitOk p.1 p.2 t) ∧ AloneOk p.1 p.2 t := by
    refine h.invariant (fun p => (LoopInv p.1 ∧ VisitOk p.1 p.2 t) ∧ AloneOk p.1 p.2 t)
      (fun p hp => ?_) fun p a q hreach hok hvisiting hstep => ?_
    · have hthread : ∀ u, p.1.thread u = .outside := hp.1.2.2.2.2.2.2.2.1
      have hreach : (visitMachine cfg).Reach (fun _ a => Visiting a) p := .start hp
      have hinit : (machine cfg).Reachable p.1 := .start hp.1
      refine ⟨⟨reachable_inv hinit, reachable_visits hreach t⟩, ?_, ?_, ?_, ?_⟩
      · simp [OnExec, hthread, ThreadPc.activation]
      · simp [hp.2, Visits.empty]
      · simp [OnExec, hthread, ThreadPc.activation]
      · simp [hp.2, Visits.empty]
    · obtain ⟨hs, hv⟩ := Machine.observed_step.mp hstep
      obtain ⟨⟨hinv, hok⟩, halone⟩ := hok
      rw [hv]
      exact ⟨⟨step_inv hinv (.of_step hs), hok.step hinv hvisiting.visiting hs⟩,
        halone.step hinv hok hvisiting hs⟩
  exact hinv.2

/-- The increments of one thread alone never add up to 16 within 16 steps, unless a step
sees the value of the step before. -/
theorem sum_gap_alone {w : List LoopStep} (hothers : ∀ st ∈ w.dropLast, st.others = 0)
    (hlength : w.length = nWayConcurrency) :
    (∀ seg, seg ≠ [] → seg <:+: w.dropLast → (seg.map LoopStep.gap).sum % nWayConcurrency ≠ 0) ↔
      ∀ st ∈ w.dropLast, st.first = false := by
  constructor
  · intro hsum st hst
    obtain ⟨l₁, l₂, hsplit⟩ := List.append_of_mem hst
    have hinfix : [st] <:+: w.dropLast := ⟨l₁, l₂, by simp [hsplit]⟩
    have hgap := hsum [st] (by simp) hinfix
    by_contra hfirst
    rw [Bool.not_eq_false] at hfirst
    simp [LoopStep.gap, hothers st hst, hfirst] at hgap
  · intro hfirst seg hne hinfix
    have hgap : seg.map LoopStep.gap = List.replicate seg.length 1 := by
      rw [← List.map_const']
      apply List.map_congr_left
      intro st hst
      have hst := hinfix.subset hst
      simp [LoopStep.gap, hfirst st hst, hothers st hst]
    have hle := hinfix.length_le
    have hpos := List.length_pos_of_ne_nil hne
    rw [List.length_dropLast, hlength] at hle
    rw [hgap, List.sum_const_nat, Nat.mul_one]
    simp only [nWayConcurrency] at hle ⊢
    omega

/-- Among 16 consecutive steps of the calls of one thread, every bucket of its stopping map
and of `_immediate_map` is drained if and only if no call begins after the oldest of these
steps, and the bucket whose turn it is under a policy of the transfer pass is drawn at
random in one of them. -/
theorem buckets_covered {p : State O T × Visits T}
    (h : (visitMachine cfg).Reach (fun _ a => VisitingAlone t a) p) {w : List LoopStep}
    (hw : w <:+: p.2.steps t) (hlength : w.length = nWayConcurrency) :
    ((∀ b, ∃ st ∈ w, st.stopping = b) ∧ ∀ b, ∃ st ∈ w, b ∈ st.immediate) ↔
      (∀ st ∈ w.dropLast, st.first = false) ∧
        ∀ st ∈ w, st.policy.transfer = true → ∃ st' ∈ w, st.stopping ∈ st'.immediate := by
  have hsteps : ∀ st ∈ w, st.others = 0 ∧ (st.policy.transfer = false → st.stopping ∈ st.immediate) :=
    fun st hst => (reachable_alone h).steps st (hw.subset hst)
  have hreach : (visitMachine cfg).Reach (fun _ a => Visiting a) p := h.mono fun _ _ => VisitingAlone.visiting
  have hcovered : (∀ b, ∃ st ∈ w, st.stopping = b) ↔ ∀ st ∈ w.dropLast, st.first = false := by
    rw [forall_visited_iff ((reachable_visits hreach t).window hw) hlength]
    exact sum_gap_alone (fun st hst => (hsteps st (List.mem_of_mem_dropLast hst)).1) hlength
  rw [hcovered]
  apply and_congr_right
  intro hfirst
  constructor
  · exact fun hall st _ _ => hall st.stopping
  · intro hturn b
    obtain ⟨st, hst, rfl⟩ := hcovered.mpr hfirst b
    cases htransfer : st.policy.transfer with
    | false => exact ⟨st, hst, (hsteps st hst).2 htransfer⟩
    | true => exact hturn st hst htransfer

section Windows

/-- One call of thread 1 under the default policy, for 16 steps. -/
def oneCall : List (Label (Fin 2) (Fin 2)) :=
  .user 1 (.call .exec defaultPolicy) draw :: goes 1 193

/-- `n` calls of thread 1 under `weakly_parallel`, one after the other. -/
def weakCalls (n : Nat) : List (Label (Fin 2) (Fin 2)) :=
  (List.replicate n (.user 1 (.call .exec weaklyParallelPolicy) draw :: goes 1 13)).flatten

theorem visit_restrict {ok : Label (Fin 2) (Fin 2) → Prop} [DecidablePred ok]
    {as : List (Label (Fin 2) (Fin 2))} {p : State (Fin 2) (Fin 2) × Visits (Fin 2)}
    (hp : ((visitMachine pairConfig).restrict fun _ a => ok a).run (pairStart, .empty) as = some p) :
    (visitMachine pairConfig).Reach (fun _ a => ok a) p :=
  have hinit : (visitMachine pairConfig).init (pairStart, .empty) := ⟨pairStart_init, rfl⟩
  .restrict (.start hinit) hp

theorem buckets_covered_call : ∃ (p : State (Fin 2) (Fin 2) × Visits (Fin 2)) (w : List LoopStep),
    w <:+: p.2.steps 1 ∧ w.length = nWayConcurrency ∧ (∀ b, ∃ st ∈ w, st.stopping = b) ∧
      ∀ b, ∃ st ∈ w, b ∈ st.immediate := by
  have hrun : (((visitMachine pairConfig).restrict fun _ a => VisitingAlone 1 a).run
      (pairStart, .empty) oneCall).any (fun p => (p.2.steps 1).length = nWayConcurrency ∧
        (∀ st ∈ (p.2.steps 1).dropLast, st.first = false) ∧
        ∀ st ∈ p.2.steps 1, st.policy.transfer = false) = true := by decide +kernel
  obtain ⟨p, hp, hsteps⟩ := (Option.any_eq_true _ _).mp hrun
  obtain ⟨hlength, hfirst, htransfer⟩ := of_decide_eq_true hsteps
  have hreach := visit_restrict hp
  obtain ⟨hstopping, himmediate⟩ := (buckets_covered hreach List.infix_rfl hlength).mpr
    ⟨hfirst, fun st hst h => by simp [htransfer st hst] at h⟩
  exact ⟨p, _, List.infix_rfl, hlength, hstopping, himmediate⟩

/-- 16 calls under `weakly_parallel` visit one bucket only. -/
theorem weak_calls_one_bucket : ∃ p : State (Fin 2) (Fin 2) × Visits (Fin 2),
    (visitMachine pairConfig).Reach (fun _ a => VisitingAlone 1 a) p ∧
      (p.2.steps 1).length = nWayConcurrency ∧
      ∀ st ∈ p.2.steps 1, st.stopping ≠ robinAccess 1 ∧ robinAccess 1 ∉ st.immediate := by
  have hrun : (((visitMachine pairConfig).restrict fun _ a => VisitingAlone 1 a).run
      (pairStart, .empty) (weakCalls 16)).any (fun p => (p.2.steps 1).length = nWayConcurrency ∧
        ∀ st ∈ p.2.steps 1, st.stopping ≠ robinAccess 1 ∧ robinAccess 1 ∉ st.immediate) = true := by
    decide +kernel
  obtain ⟨p, hp, hsteps⟩ := (Option.any_eq_true _ _).mp hrun
  exact ⟨p, visit_restrict hp, of_decide_eq_true hsteps⟩

/-- Both threads run on the executor: they take turns for `n` rounds, then thread 0 takes
`m` steps alone. -/
def bothCalls (n m : Nat) : List (Label (Fin 2) (Fin 2)) :=
  [.user 0 (.call .exec defaultPolicy) draw, .user 1 (.call .exec defaultPolicy) draw] ++
    goes 1 1 ++ goes 0 1 ++ (List.replicate n (goes 1 12 ++ goes 0 12)).flatten ++ goes 0 (12 * m)

theorem stopping_map_covered_both : ∃ (p : State (Fin 2) (Fin 2) × Visits (Fin 2))
    (w : List LoopStep), (p.2.steps 1).length = 1 ∧ w <:+: p.2.steps 0 ∧
      w.length = nWayConcurrency ∧ ∀ b, ∃ st ∈ w, st.stopping = b := by
  have hrun : (((visitMachine pairConfig).restrict fun _ a => Visiting a).run
      (pairStart, .empty) (bothCalls 1 15)).any (fun p => (p.2.steps 1).length = 1 ∧
        (p.2.steps 0).length = nWayConcurrency ∧
        (∀ st ∈ (p.2.steps 0).dropLast, st.others = 0) ∧
        ∀ st ∈ (p.2.steps 0).dropLast, st.first = false) = true := by decide +kernel
  obtain ⟨p, hp, hsteps⟩ := (Option.any_eq_true _ _).mp hrun
  obtain ⟨hone, hlength, hothers, hfirst⟩ := of_decide_eq_true hsteps
  exact ⟨p, _, hone, List.infix_rfl, hlength, (stopping_map_covered (visit_restrict hp) 0
    List.infix_rfl hlength).mpr ((sum_gap_alone hothers hlength).mpr hfirst)⟩

/-- Two threads take turns, and thread 0 never visits the first bucket of its stopping map. -/
theorem turns_miss_bucket : ∃ p : State (Fin 2) (Fin 2) × Visits (Fin 2),
    (visitMachine pairConfig).Reach (fun _ a => Visiting a) p ∧
      (p.2.steps 0).length = nWayConcurrency ∧ (∀ st ∈ p.2.steps 0, st.policy = {}) ∧
      ∀ st ∈ p.2.steps 0, st.stopping ≠ robinAccess 0 := by
  have hrun : (((visitMachine pairConfig).restrict fun _ a => Visiting a).run
      (pairStart, .empty) (bothCalls 16 0)).any (fun p =>
        (p.2.steps 0).length = nWayConcurrency ∧ (∀ st ∈ p.2.steps 0, st.policy = {}) ∧
        ∀ st ∈ p.2.steps 0, st.stopping ≠ robinAccess 0) = true := by decide +kernel
  obtain ⟨p, hp, hsteps⟩ := (Option.any_eq_true _ _).mp hrun
  exact ⟨p, visit_restrict hp, of_decide_eq_true hsteps⟩

end Windows

end IoUring.Exec.RunLoop
