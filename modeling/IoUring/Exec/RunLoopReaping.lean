import IoUring.Base.Observe
import IoUring.Exec.RunLoopNext

/-!
# The CQEs of one step

A step takes CQEs batch by batch and compares their number with `iodone_maxnr` after
each batch. It goes on when the number is equal to the limit, and it takes the batch
that goes over the limit to its end.
-/

namespace IoUring.Exec.RunLoop

variable {O T : Type*} [DecidableEq T]

/-- The present step of a thread: the CQ ring when the step began, the CQEs posted since
and those passed to `consume_one`; the size of the last batch that was peeked, and how many
CQEs had been in the ring at the beginning or had been posted when it was. -/
structure ReapLog (O : Type*) where
  startCq : List (Cqe O) := []
  arrived : List (Cqe O) := []
  dispatched : List (Cqe O) := []
  peeked : Option Nat := none
  atPeek : Nat := 0

/-- What a thread with the CQ ring `cq`, and `cq'` afterwards, does at a point of the loop. -/
def ReapLog.note (r : ReapLog O) (cq cq' : List (Cqe O)) (p : RunPolicy) : LoopPc O → ReapLog O
  | .check => { startCq := cq' }
  | .tail => { startCq := cq' }
  | .peek => { r with
      peeked := some (cq.take p.iodoneBatch).length
      atPeek := r.startCq.length + r.arrived.length }
  | .consume (e :: _) _ => { r with dispatched := r.dispatched ++ [e] }
  | _ => r

def noteReap (log : T → ReapLog O) (s : State O T) (a : Label O T) (s' : State O T) :
    T → ReapLog O :=
  match a with
  | .thread t _ =>
      match s.thread t with
      | .run f _ pc => Function.update log t
          ((log t).note (s.locals t).ring.cq (s'.locals t).ring.cq f.policy pc)
      | _ => log
  | .post t _ _ => Function.update log t { log t with
      arrived := (log t).arrived ++ (s'.locals t).ring.cq.drop (s.locals t).ring.cq.length }
  | _ => log

/-- The machine with the history of the present steps. -/
def reapMachine [DecidableEq O] (cfg : Config O T) :
    Machine (State O T × (T → ReapLog O)) (Label O T) :=
  (machine cfg).observed (fun _ => {}) noteReap

/-- A policy under which a step takes CQEs up to its limit. -/
structure RunPolicy.Limited (p : RunPolicy) : Prop where
  iodone : p.iodone = true
  transfer : p.transfer = false
  terminal : p.terminal = false
  batch : 0 < p.iodoneBatch

/-- What the comment on `iodone_maxnr` and the loop promise of a step: the limit is kept,
the CQEs are passed on once and in the order of the ring, its head is advanced by their
number, and the step stops below the limit after a batch that is not full only. -/
structure StepReaped (p : RunPolicy) (cq : List (Cqe O)) (r : ReapLog O) : Prop where
  limit : r.dispatched.length ≤ p.iodoneMaxnr
  order : r.dispatched = (r.startCq ++ r.arrived).take r.dispatched.length
  head : cq = (r.startCq ++ r.arrived).drop r.dispatched.length
  short : r.dispatched.length < p.iodoneMaxnr → ∃ n, r.peeked = some n ∧ n < p.iodoneBatch

/-- The CQEs of the step are dispatched, in the batch at hand or in the ring, and `done`
of them are gone from the ring. -/
structure Reaps (p : RunPolicy) (done : Nat) (cq : List (Cqe O)) (r : ReapLog O) (pc : LoopPc O) :
    Prop where
  check : pc = .check → done = 0
  queue : pc ≠ .check → r.startCq ++ r.arrived = r.dispatched ++ pending cq pc
  count : pc ≠ .check → (r.startCq ++ r.arrived).length = done + cq.length
  batch : ∀ rest n, pc = .consume rest n → n ≤ cq.length ∧ r.peeked = some n ∧
    n ≤ p.iodoneBatch ∧ done + n ≤ r.atPeek ∧ (n < p.iodoneBatch → done + n = r.atPeek)
  limit : pc.reaped = false → done ≤ p.iodoneMaxnr
  reaped : pc.reaped = true → done ≤ r.atPeek ∧
    (done ≤ p.iodoneMaxnr → done = r.atPeek ∧ ∃ n, r.peeked = some n ∧ n < p.iodoneBatch)

def ReapOk (s : State O T) (log : T → ReapLog O) : Prop :=
  ∀ t f c pc, (s.thread t).activation = some (f, c, pc) → f.policy.Limited →
    Reaps f.policy f.oneStep.done (s.locals t).ring.cq (log t) pc

variable {cfg : Config O T} {s s' : State O T} {t : T} {f f' : Frame T} {c : Caller T}
  {pc pc' : LoopPc O} {a : Label O T} {p : RunPolicy} {done n : Nat} {cq cq' : List (Cqe O)}
  {r : ReapLog O} {l : IoUringExecLocal O} {log : T → ReapLog O}

namespace Reaps

/-- A step begins. -/
theorem start (sources : List LaunchSource) : Reaps p 0 cq { startCq := cq } (.launch sources) where
  check := by simp
  queue := fun _ => by simp [pending]
  count := fun _ => by simp
  batch := by simp
  limit := fun _ => Nat.zero_le _
  reaped := by simp [LoopPc.reaped]

/-- The step goes on without an access to the CQ ring. -/
theorem goto (h : Reaps p done cq r pc) (hpc : pc ≠ .check) (hpc' : pc' ≠ .check)
    (hpending : pending cq pc' = pending cq pc) (hbatch : ∀ rest n, pc' ≠ .consume rest n)
    (hreaped : pc'.reaped = pc.reaped) : Reaps p done cq r pc' where
  check := fun h' => absurd h' hpc'
  queue := fun _ => by rw [h.queue hpc, hpending]
  count := fun _ => h.count hpc
  batch := fun rest n h' => absurd h' (hbatch rest n)
  limit := fun h' => h.limit (hreaped ▸ h')
  reaped := fun h' => h.reaped (hreaped ▸ h')

/-- A CQE is posted. -/
theorem post (h : Reaps p done cq r pc) (e : Cqe O) :
    Reaps p done (cq ++ [e]) { r with arrived := r.arrived ++ [e] } pc where
  check := h.check
  queue := by
    intro hpc
    have hp : pending (cq ++ [e]) pc = pending cq pc ++ [e] := by
      cases pc with
      | consume rest n => simp [pending, List.drop_append_of_le_length (h.batch rest n rfl).1]
      | _ => simp [pending]
    rw [hp, ← List.append_assoc, h.queue hpc, List.append_assoc]
  count := by
    intro hpc
    have hcount := h.count hpc
    simp only [List.length_append, List.length_singleton] at hcount ⊢
    omega
  batch := by
    intro rest n hpc
    obtain ⟨hle, hrest⟩ := h.batch rest n hpc
    exact ⟨Nat.le_trans hle (by simp), hrest⟩
  limit := h.limit
  reaped := h.reaped

theorem peekSome (h : Reaps p done cq r .peek) :
    Reaps p done cq (r.note cq cq' p (.peek : LoopPc O))
      (.consume (cq.take p.iodoneBatch) (cq.take p.iodoneBatch).length) where
  check := by simp
  queue := fun _ => by
    simpa [ReapLog.note, pending, ← List.drop_eq_drop_min] using h.queue (by simp)
  count := fun _ => h.count (by simp)
  batch := by
    rintro _ n ⟨⟩
    have hcount := h.count (by simp)
    rw [List.length_append] at hcount
    simp only [ReapLog.note, List.length_take, hcount, true_and]
    omega
  limit := fun _ => h.limit rfl
  reaped := by simp [LoopPc.reaped]

/-- The reaping loop is over. -/
theorem ends (hpc : pc = .stopping ∨ pc = .tail)
    (hqueue : r.startCq ++ r.arrived = r.dispatched ++ cq)
    (hcount : (r.startCq ++ r.arrived).length = done + cq.length) (hroom : done ≤ r.atPeek)
    (hshort : done ≤ p.iodoneMaxnr → done = r.atPeek ∧ ∃ n, r.peeked = some n ∧ n < p.iodoneBatch) :
    Reaps p done cq r pc where
  check := by rcases hpc with rfl | rfl <;> simp
  queue := fun _ => by rcases hpc with rfl | rfl <;> exact hqueue
  count := fun _ => hcount
  batch := by rcases hpc with rfl | rfl <;> simp
  limit := by rcases hpc with rfl | rfl <;> simp [LoopPc.reaped]
  reaped := fun _ => ⟨hroom, hshort⟩

/-- A peek finds the CQ ring empty. -/
theorem peekNone (h : Reaps p done cq r .peek) (hcq : cq = []) (hbatch : 0 < p.iodoneBatch)
    (hpc' : pc' = .stopping ∨ pc' = .tail) :
    Reaps p done cq (r.note cq cq' p (.peek : LoopPc O)) pc' := by
  subst hcq
  have hcount := h.count (by simp)
  rw [List.length_append, List.length_nil, Nat.add_zero] at hcount
  have hnone : (r.note [] cq' p (.peek : LoopPc O)).peeked = some 0 := by simp [ReapLog.note]
  exact ends hpc' (h.queue (by simp)) (h.count (by simp)) (Nat.le_of_eq hcount.symm)
    fun _ => ⟨hcount.symm, 0, hnone, hbatch⟩

theorem consumed {e : Cqe O} {rest : List (Cqe O)}
    (h : Reaps p done cq r (.consume (e :: rest) n)) :
    Reaps p done cq (r.note cq cq' p (.consume (e :: rest) n)) (.consume rest n) where
  check := by simp
  queue := fun _ => by simpa [ReapLog.note, pending] using h.queue (by simp)
  count := fun _ => h.count (by simp)
  batch := by
    rintro _ _ ⟨⟩
    exact h.batch _ n rfl
  limit := fun _ => h.limit rfl
  reaped := by simp [LoopPc.reaped]

/-- The loop goes on while the limit is not exceeded and the batches are full, and under
`no_delay` after a batch that is not full, too. -/
theorem advanced (h : Reaps p done cq r (.consume [] n)) (hp : p.Limited)
    (hpc' : pc' = .stopping ∨ pc' = .tail) :
    Reaps p (done + n) (cq.drop n) r (if greedy p (done + n) n then pc' else .peek) := by
  obtain ⟨hle, hpeeked, hfull, hroom, hshort⟩ := h.batch [] n rfl
  have hqueue : r.startCq ++ r.arrived = r.dispatched ++ cq.drop n := h.queue (by simp)
  have hcount : (r.startCq ++ r.arrived).length = done + n + (cq.drop n).length := by
    rw [h.count (by simp), List.length_drop]
    omega
  split
  · next hgreedy =>
      refine ends hpc' hqueue hcount hroom fun hlimit => ?_
      have hne : n ≠ p.iodoneBatch := by
        rintro rfl
        simp [greedy, hp.transfer, hp.terminal, Nat.not_lt.mpr hlimit] at hgreedy
      have hlt : n < p.iodoneBatch := Nat.lt_of_le_of_ne hfull hne
      exact ⟨hshort hlt, n, hpeeked, hlt⟩
  · next hgreedy =>
      have hlimit : done + n ≤ p.iodoneMaxnr := by
        by_contra hgt
        simp [greedy, hp.transfer, hp.terminal, Nat.not_le.mp hgt] at hgreedy
      exact {
        check := by simp
        queue := fun _ => hqueue
        count := fun _ => hcount
        batch := by simp
        limit := fun _ => hlimit
        reaped := by simp [LoopPc.reaped] }

end Reaps

/-- The way to the first peek. -/
theorem limited_plan (hp : p.Limited) : (afterSubmit p : LoopPc O) = .peek ∧
    ((afterLaunch p : LoopPc O) = .submit ∨ (afterLaunch p : LoopPc O) = .peek) := by
  have hpeek : (afterSubmit p : LoopPc O) = .peek := if_pos hp.iodone
  refine ⟨hpeek, ?_⟩
  simp only [afterLaunch]
  split
  · exact .inl rfl
  · exact .inr hpeek

omit [DecidableEq T] in
/-- The activation takes a step. -/
theorem Reaps.next (h : Reaps f.policy f.oneStep.done l.ring.cq r pc) (hp : f.policy.Limited)
    (hn : Next l f pc f' pc') (hsame : (∀ n, pc ≠ .consume [] n) → cq' = l.ring.cq)
    (hadvance : ∀ n, pc = .consume [] n → cq' = l.ring.cq.drop n) :
    Reaps f'.policy f'.oneStep.done cq' (r.note l.ring.cq cq' f.policy pc) pc' := by
  obtain ⟨hsubmit, hlaunch⟩ := limited_plan (O := O) hp
  have hiodone := afterIodone_end (O := O) f.policy
  cases hn with
  | enter =>
      have hdone := h.check rfl
      rw [hdone]
      exact .start _
  | drain | visited | cancelled | completed | stopping | cancelling | stopped =>
      obtain rfl := hsame (by simp)
      exact h.goto (by simp) (by simp) rfl (by simp) rfl
  | launched =>
      obtain rfl := hsame (by simp)
      rcases hlaunch with hlaunch | hlaunch <;> rw [hlaunch] <;>
        exact h.goto (by simp) (by simp) rfl (by simp) rfl
  | submitted =>
      obtain rfl := hsame (by simp)
      rw [hsubmit]
      split <;> exact h.goto (by simp) (by simp) rfl (by simp) rfl
  | waited =>
      obtain rfl := hsame (by simp)
      rw [hsubmit]
      exact h.goto (by simp) (by simp) rfl (by simp) rfl
  | nothing hcq =>
      obtain rfl := hsame (by simp)
      have hempty : l.ring.cq = [] := by simpa [Nat.pos_iff_ne_zero.mp hp.batch] using hcq
      exact h.peekNone hempty hp.batch hiodone
  | some hcqes _ =>
      obtain rfl := hsame (by simp)
      subst hcqes
      exact h.peekSome
  | consumed =>
      obtain rfl := hsame (by simp)
      exact h.consumed
  | advanced =>
      obtain rfl := hadvance _ rfl
      exact h.advanced hp hiodone
  | again _ => exact .start _

/-! ## All labels -/

theorem noteReap_run (log : T → ReapLog O) {ch : Choice} (hpc : s.thread t = .run f c pc) :
    noteReap log s (.thread t ch) s' t =
      (log t).note (s.locals t).ring.cq (s'.locals t).ring.cq f.policy pc := by
  simp [noteReap, hpc]

/-- A step that is neither one of the loop of thread `t` nor a CQE for it. -/
theorem noteReap_idle (log : T → ReapLog O) (hpost : ∀ i res, a ≠ .post t i res)
    (hidle : ∀ ch, a = .thread t ch → ∀ f c pc, s.thread t ≠ .run f c pc) :
    noteReap log s a s' t = log t := by
  cases a with
  | thread u ch =>
      simp only [noteReap]
      cases hpc : s.thread u with
      | run f c pc =>
          have hne : t ≠ u := fun heq => hidle ch (heq ▸ rfl) f c pc (heq ▸ hpc)
          exact Function.update_of_ne hne _ _
      | _ => rfl
  | post u i res =>
      have hne : t ≠ u := fun heq => hpost i res (heq ▸ rfl)
      exact Function.update_of_ne hne _ _
  | _ => rfl

variable [DecidableEq O]

theorem ReapOk.step (hok : ReapOk s log) (hinv : LoopInv s) (h : (machine cfg).step s a = some s') :
    ReapOk s' (noteReap log s a s') := by
  intro t f c pc hact hp
  -- the thread is where it was, and its ring is as it was
  have hstay : (∀ i res, a ≠ .post t i res) →
      (∀ ch, a = .thread t ch → ∀ f c pc, s.thread t ≠ .run f c pc) →
      (s'.thread t).activation = (s.thread t).activation →
      Reaps f.policy f.oneStep.done (s'.locals t).ring.cq (noteReap log s a s' t) pc := by
    intro hpost hidle hsame
    rw [noteReap_idle log hpost hidle, step_cq h hpost fun ch f c n heq => hidle ch heq _ _ _]
    exact hok t f c pc (hsame ▸ hact) hp
  by_cases ha : a.actor = some t
  · have hpost : ∀ i res, a ≠ .post t i res := by
      rintro i res rfl
      simp [Label.actor] at ha
    cases step_acts h ha with
    | @run ch f₁ c₁ pc₁ hpc hloop hmoves =>
        rw [noteReap_run log hpc]
        rcases loopStep_next hloop with ⟨f', pc', hn, hact'⟩ | ⟨hnone, -⟩
        · obtain ⟨rfl, rfl, rfl⟩ : f' = f ∧ c₁ = c ∧ pc' = pc := by simpa [hact'] using hact
          have hpolicy : f'.policy = f₁.policy := by cases hn <;> rfl
          have hp₁ : f₁.policy.Limited := hpolicy ▸ hp
          have hreaps := hok t f₁ c₁ pc₁ (by rw [hpc]; rfl) hp₁
          refine hreaps.next hp₁ hn (fun hpc₁ => ?_) fun n hpc₁ => ?_
          · refine step_cq h hpost fun ch' f₂ c₂ n _ hpc₂ => ?_
            rw [hpc] at hpc₂
            exact hpc₁ n (ThreadPc.run.inj hpc₂).2.2
          · subst hpc₁
            obtain rfl := Option.some.inj hloop
            simp [advanceStep, State.setThread, State.setLocal, Ring.advance]
        · simp [hnone] at hact
    | same hidle hsame => exact hstay hpost hidle hsame
    | call hact' hidle =>
        obtain ⟨rfl, rfl, rfl⟩ : _ = f ∧ Caller.user = c ∧ .check = pc := by
          simpa [hact'] using hact
        exact {
          check := fun _ => rfl
          queue := by simp
          count := by simp
          batch := by simp
          limit := fun _ => Nat.zero_le _
          reaped := by simp [LoopPc.reaped] }
    | @drain ch f₁ c₁ hpc hact' =>
        -- the pass of a destructor has another policy
        obtain ⟨rfl, rfl, rfl⟩ : f₁ = f ∧ c₁ = c ∧ .check = pc := by simpa [hact'] using hact
        have ht := hinv.threads t
        rw [hpc] at ht
        rcases ht.1.policy ht.2.1 with hpolicy | hpolicy
        · exact absurd hp.transfer (by simp [hpolicy, transferPolicy])
        · exact absurd hp.terminal (by simp [hpolicy, terminalPolicy])
  · by_cases hpost : ∃ i res, a = .post t i res
    · obtain ⟨i, res, rfl⟩ := hpost
      cases Step.of_step h with
      | @post _ _ _ e r _ hr =>
          have hcq : r.cq = (s.locals t).ring.cq ++ [⟨e.data, res⟩] := (Ring.post_spec hr).2
          have hpost := (hok t f c pc hact hp).post ⟨e.data, res⟩
          simpa [noteReap, State.setPass, State.setLocal, hcq] using hpost
    · simp only [not_exists] at hpost
      refine hstay hpost (fun ch heq => absurd (by rw [heq]; rfl) ha) ?_
      rw [(step_other (.of_step h) ha).1]

theorem reachable_reaps {p : State O T × (T → ReapLog O)} (h : (reapMachine cfg).Reachable p) :
    LoopInv p.1 ∧ ReapOk p.1 p.2 := by
  refine h.invariant (fun p => LoopInv p.1 ∧ ReapOk p.1 p.2) (fun p hp => ?_)
    fun p a q _ hok _ hstep => ?_
  · have hreach : (machine cfg).Reachable p.1 := .start hp.1
    refine ⟨reachable_inv hreach, ?_⟩
    obtain ⟨⟨-, -, -, -, -, -, -, hthread, -⟩, -⟩ := hp
    intro t f c pc hact
    simp [hthread t, ThreadPc.activation] at hact
  · obtain ⟨hs, hq⟩ := Machine.observed_step.mp hstep
    rw [hq]
    exact ⟨step_inv hok.1 (.of_step hs), hok.2.step hok.1 hs⟩

/-- When the reaping loop of a step is over, it has kept its promise if and only if the CQEs
that were in the ring when the step began and those that were posted until the last peek are
not more than `iodone_maxnr`. -/
theorem iodone_maxnr_kept {p : State O T × (T → ReapLog O)} (h : (reapMachine cfg).Reachable p)
    (hpc : p.1.thread t = .run f c pc) (hreaped : pc.reaped = true) (hp : f.policy.Limited) :
    StepReaped f.policy (p.1.locals t).ring.cq (p.2 t) ↔ (p.2 t).atPeek ≤ f.policy.iodoneMaxnr := by
  have hreaps := (reachable_reaps h).2 t f c pc (by rw [hpc]; rfl) hp
  have hcheck : pc ≠ .check := by
    rintro rfl
    simp [LoopPc.reaped] at hreaped
  obtain ⟨hroom, hshort⟩ := hreaps.reaped hreaped
  have hqueue : (p.2 t).startCq ++ (p.2 t).arrived =
      (p.2 t).dispatched ++ (p.1.locals t).ring.cq := by
    have hpending : pending (p.1.locals t).ring.cq pc = (p.1.locals t).ring.cq := by
      cases pc <;> simp_all [pending, LoopPc.reaped]
    rw [hreaps.queue hcheck, hpending]
  have hdone : (p.2 t).dispatched.length = f.oneStep.done := by
    have hcount := hreaps.count hcheck
    rw [hqueue, List.length_append] at hcount
    omega
  constructor
  · intro hkept
    have hlimit := hkept.limit
    rw [hdone] at hlimit
    rw [← (hshort hlimit).1]
    exact hlimit
  · intro hlimit
    have hkept : f.oneStep.done ≤ f.policy.iodoneMaxnr := Nat.le_trans hroom hlimit
    exact {
      limit := hdone ▸ hkept
      order := by rw [hqueue, List.take_left]
      head := by rw [hqueue, List.drop_left]
      short := fun _ => (hshort hkept).2 }

section OneByOne

/-- Thread 1 takes the CQEs of two operations one by one; they arrive before its first peek. -/
def oneByOne (maxnr : Nat) : List (Label (Fin 2) (Fin 2)) :=
  [.user 1 (.start 0) draw, .user 1 (.start 1) draw,
      .user 1 (.call .exec { defaultPolicy with iodoneBatch := 1, iodoneMaxnr := maxnr }) draw] ++
    goes 1 9 ++ [.post 1 0 0, .post 1 0 0] ++ goes 1 2 ++ [.user 1 .ret draw] ++ goes 1 3 ++
    [.user 1 .ret draw] ++ goes 1 1

theorem iodone_maxnr_kept_two : ∃ (p : State (Fin 2) (Fin 2) × (Fin 2 → ReapLog (Fin 2)))
    (f : Frame (Fin 2)), f.policy.iodoneMaxnr = 2 ∧ (p.2 1).dispatched.length = 2 ∧
      StepReaped f.policy (p.1.locals 1).ring.cq (p.2 1) := by
  have hrun : ∃ p f, (reapMachine pairConfig).run (pairStart, fun _ => {})
      (oneByOne 2 ++ goes 1 1) = some p ∧ p.1.thread 1 = .run f .user .stopping ∧
      f.policy = { iodoneBatch := 1, iodoneMaxnr := 2 } ∧ (p.2 1).dispatched.length = 2 ∧
      (p.2 1).atPeek = 2 := ⟨_, _, rfl, rfl, rfl, rfl, rfl⟩
  obtain ⟨p, f, hp, hpc, hpolicy, hlength, hpeek⟩ := hrun
  have hreach : (reapMachine pairConfig).Reachable p := .observed pairStart_init hp
  have hlimited : f.policy.Limited := by rw [hpolicy]; exact ⟨rfl, rfl, rfl, Nat.one_pos⟩
  have hmaxnr : f.policy.iodoneMaxnr = 2 := by rw [hpolicy]
  exact ⟨p, f, hmaxnr, hlength,
    (iodone_maxnr_kept hreach hpc rfl hlimited).mpr (by simp [hpeek, hmaxnr])⟩

/-- With a limit of one, the step takes both CQEs. -/
theorem iodone_maxnr_exceeded : ∃ (p : State (Fin 2) (Fin 2) × (Fin 2 → ReapLog (Fin 2)))
    (f : Frame (Fin 2)), (reapMachine pairConfig).Reachable p ∧
      p.1.thread 1 = .run f .user .stopping ∧ f.policy.Limited ∧
      f.policy.iodoneBatch = 1 ∧ f.policy.iodoneMaxnr = 1 ∧ (p.2 1).dispatched.length = 2 ∧
      ¬ StepReaped f.policy (p.1.locals 1).ring.cq (p.2 1) := by
  have hrun : ∃ p f, (reapMachine pairConfig).run (pairStart, fun _ => {}) (oneByOne 1) = some p ∧
      p.1.thread 1 = .run f .user .stopping ∧ f.policy = { iodoneBatch := 1, iodoneMaxnr := 1 } ∧
      (p.2 1).dispatched.length = 2 := ⟨_, _, rfl, rfl, rfl, rfl⟩
  obtain ⟨p, f, hp, hpc, hpolicy, hlength⟩ := hrun
  refine ⟨p, f, .observed pairStart_init hp, hpc, ?_, by rw [hpolicy], by rw [hpolicy], hlength, ?_⟩
  · rw [hpolicy]
    exact ⟨rfl, rfl, rfl, Nat.one_pos⟩
  · intro hkept
    have hlimit := hkept.limit
    simp [hpolicy, hlength] at hlimit

end OneByOne

end IoUring.Exec.RunLoop
