import IoUring.Exec.OperationRestart

/-!
# How often a request takes effect

The kernel carries out a request or cancels it, and its CQE says which. The
transfer pass restarts the operation of every CQE it finds, so a request that
was carried out before its thread left is issued once more and its result is
dropped.
-/

namespace IoUring.Exec.Operation

variable {O T S : Type*}

/-- A CQE is dealt with as its result says: an operation is restarted after
`-ECANCELED` only, and is completed with any other result. -/
def Faithful (pass : Pass) (timer : O → Bool) (c : Cqe O) : Prop :=
  ∀ o, c.data = some o →
    (consumeOne pass (timer o) c.res = .restart → c.res = -ECANCELED) ∧
      (c.res ≠ -ECANCELED →
        consumeOne pass (timer o) c.res = .complete (completeSignal (timer o) c.res))

/-- The CQE of an operation says that its request was cancelled. -/
def Cancelled (c : Cqe O) : Prop :=
  c.data.isSome → c.res = -ECANCELED

instance (c : Cqe O) : Decidable (Cancelled c) :=
  inferInstanceAs (Decidable (c.data.isSome → c.res = -ECANCELED))

theorem faithful_transfer_iff (timer : O → Bool) (c : Cqe O) :
    Faithful .transfer timer c ↔ Cancelled c := by
  constructor
  · intro h hdata
    obtain ⟨o, ho⟩ := Option.isSome_iff_exists.mp hdata
    exact (h o ho).1 rfl
  · intro h o ho
    have hres := h (by simp [ho])
    exact ⟨fun _ => hres, fun hne => absurd hres hne⟩

/-- A transfer pass consumes no CQE of a request that was carried out. -/
def TransferOk (s : State O T S) : Label O T S → Prop
  | .consume t .transfer => ∀ c ∈ (s.ring t).cq.head?, Cancelled c
  | _ => True

instance (s : State O T S) : ∀ a : Label O T S, Decidable (TransferOk s a)
  | .consume t .transfer => inferInstanceAs (Decidable (∀ c ∈ (s.ring t).cq.head?, Cancelled c))
  | .consume _ .ordinary | .consume _ .terminal | .start _ _ | .thread _ _ | .launch _ _
  | .cancelTask _ _ | .requestStop _ | .stopScope | .fire _ | .push _ _ | .submit _ _
  | .cancelAny _ | .post _ _ _ | .sweep _ _ | .close _ => inferInstanceAs (Decidable True)

variable [DecidableEq O] [DecidableEq T]

/-- The results of `o` among posted CQEs, except for a cancellation. -/
def posted (cq : List (Cqe O)) (o : O) : List Int :=
  (cq.filter fun c => c.data = some o ∧ c.res ≠ -ECANCELED).map Cqe.res

/-- What the kernel has done for an operation is in its CQE until the CQE is
dealt with, and then in the completion. -/
def EffectsOk (cfg : Config O T S) (s : State O T S) (o : O) : Status T → Prop
  | .onRing t => s.effects o = posted (s.ring t).cq o
  | .completed => s.effects o = [] ∨
      ∃ res, s.effects o = [res] ∧ s.signals o = [completeSignal (cfg.timer o) res]
  | _ => s.effects o = []

structure Effects (cfg : Config O T S) (s : State O T S) : Prop where
  effects : ∀ o, EffectsOk cfg s o (s.status o)
  transfer : ∀ t o res stage, s.thread t = .uninstall o res .transfer stage → res = -ECANCELED

variable {cfg : Config O T S} {s s' : State O T S} {t : T} {o : O}

section Posted

variable {cq : List (Cqe O)}

theorem posted_append (c : Cqe O) : posted (cq ++ [c]) o =
    posted cq o ++ if c.data = some o ∧ c.res ≠ -ECANCELED then [c.res] else [] := by
  simp only [posted, List.filter_append, List.map_append, List.append_cancel_left_eq]
  by_cases h : c.data = some o ∧ c.res ≠ -ECANCELED <;> simp [h]

theorem posted_cons (c : Cqe O) : posted (c :: cq) o =
    (if c.data = some o ∧ c.res ≠ -ECANCELED then [c.res] else []) ++ posted cq o := by
  by_cases h : c.data = some o ∧ c.res ≠ -ECANCELED <;> simp [posted, h]

/-- An operation has at most one entry on a ring, so at most one result. -/
theorem posted_length_le (cq : List (Cqe O)) (o : O) :
    (posted cq o).length ≤ (cq.map Cqe.data).count (some o) := by
  induction cq with
  | nil => simp [posted]
  | cons c cq ih =>
      rw [posted_cons, List.length_append, List.map_cons, List.count_cons]
      by_cases h : c.data = some o ∧ c.res ≠ -ECANCELED
      · simp only [h, beq_self_eq_true, if_true]
        simp only [h.2, ne_eq, not_false_eq_true, and_self, if_true, List.length_singleton]
        omega
      · simp only [h, if_false, List.length_nil]
        omega

end Posted

omit [DecidableEq T] in
theorem init_effects (h : Init s) : Effects cfg s := by
  obtain ⟨-, -, hstatus, -, -, -, hthread, -, -, -, -, heffects⟩ := h
  exact ⟨fun o => by simp [hstatus, EffectsOk, heffects], fun t => by simp [hthread]⟩

namespace Effects

theorem setThread (he : Effects cfg s) {pc : ThreadPc O}
    (h : ∀ o res stage, pc = .uninstall o res .transfer stage → res = -ECANCELED) :
    Effects cfg (s.setThread t pc) where
  effects o := he.effects o
  transfer := by
    intro t' o res stage hpc
    by_cases ht : t' = t
    · subst ht; exact h o res stage (by simpa [State.setThread] using hpc)
    · exact he.transfer t' o res stage (by simpa [State.setThread, ht] using hpc)

theorem setUninstall (he : Effects cfg s) {res : Int} {pass : Pass} {stage stage' : Uninstall O}
    (hpc : s.thread t = .uninstall o res pass stage) :
    Effects cfg (s.setThread t (.uninstall o res pass stage')) := by
  apply he.setThread
  intro o' res' stage'' h
  obtain ⟨rfl, rfl, rfl, -⟩ : o = o' ∧ res = res' ∧ pass = .transfer ∧ stage' = stage'' := by
    simpa using h
  exact he.transfer t o res stage hpc

omit [DecidableEq T] in
theorem links (he : Effects cfg s) (h : Heap O (T × Bucket)) (cb : O → Callback O) :
    Effects cfg { s with heap := h, callback := cb } where
  effects o := he.effects o
  transfer := he.transfer

omit [DecidableEq T] in
/-- Operation `o` gets a new status, and no CQE of another operation changes. -/
theorem move (he : Effects cfg s) {o : O} {st : Status T} {ring : T → Ring O}
    {issued : T → List (Sqe O)} {tasks : O → List Fate} {starts : O → Nat}
    {signals : O → List Signal} (hsignals : ∀ o', o' ≠ o → signals o' = s.signals o')
    (hcq : ∀ t o', o' ≠ o → posted (ring t).cq o' = posted (s.ring t).cq o')
    (hnew : EffectsOk cfg { s with ring := ring, signals := signals } o st) :
    Effects cfg { s with
      ring := ring
      issued := issued
      tasks := tasks
      starts := starts
      signals := signals
      status := Function.update s.status o st } where
  effects := by
    intro o'
    by_cases ho : o' = o
    · subst ho
      simpa [EffectsOk] using hnew
    · have h := he.effects o'
      simp only [ne_eq, ho, not_false_eq_true, Function.update_of_ne]
      cases hst : s.status o' <;> simpa [hst, EffectsOk, hcq _ o' ho, hsignals o' ho] using h
  transfer := he.transfer

omit [DecidableEq T] in
theorem nil_of_busy (he : Effects cfg s) (hst : s.status o = .busy t) : s.effects o = [] := by
  simpa [hst, EffectsOk] using he.effects o

omit [DecidableEq T] in
theorem nil_of_waiting (he : Effects cfg s) (hst : s.status o = .waiting) : s.effects o = [] := by
  simpa [hst, EffectsOk] using he.effects o

/-- The ring of a thread changes, but for each operation not its results. -/
theorem setRing (he : Effects cfg s) {r : Ring O} {issued : T → List (Sqe O)}
    (hcq : ∀ o, posted r.cq o = posted (s.ring t).cq o) :
    Effects cfg { s with ring := Function.update s.ring t r, issued := issued } where
  effects := by
    intro o
    have h := he.effects o
    cases hst : s.status o with
    | onRing t' =>
        by_cases ht : t' = t
        · subst ht; simpa [hst, EffectsOk, hcq] using h
        · simpa [hst, EffectsOk, ht] using h
    | _ => simpa [hst, EffectsOk] using h
  transfer := he.transfer

end Effects

/-- What is left on the ring when the CQE of `o` at its head is dealt with. -/
theorem Core.posted_head (hc : Core s) {res : Int} {pass : Pass} {stage : Uninstall O}
    (hpc : s.thread t = .uninstall o res pass stage) :
    posted (s.ring t).cq o = (if res ≠ -ECANCELED then [res] else []) ∧
      ∀ o', o' ≠ o → posted ((s.ring t).advance 1).cq o' = posted (s.ring t).cq o' := by
  obtain ⟨l, hl⟩ := List.head?_eq_some_iff.mp (hc.consuming t o res pass stage hpc)
  constructor
  · -- the one entry of the operation is the head
    have hone := hc.tokens_of_onRing (hc.status_of_uninstall hpc)
    have hzero : (l.map Cqe.data).count (some o) = 0 := by
      simp only [Ring.tokens, hl, List.map_cons, List.count_cons_self] at hone
      omega
    have hle := posted_length_le l o
    have hnil : posted l o = [] := List.length_eq_zero_iff.mp (by omega)
    simp [hl, posted_cons, hnil]
  · intro o' ho
    simp [Ring.advance, hl, posted_cons, Ne.symm ho]

theorem Core.status_of_flight (hc : Core s) {e : Sqe O} (hmem : e ∈ (s.ring t).flight)
    (hdata : e.data = some o) : s.status o = .onRing t := by
  apply hc.status_of_token
  have hin : some o ∈ (s.ring t).flight.map Sqe.data := List.mem_map.mpr ⟨e, hmem, hdata⟩
  have hpos := List.count_pos_iff.mpr hin
  simp only [Ring.tokens]
  omega

theorem consumeOne_restart {pass : Pass} {timer : Bool} {res : Int}
    (h : consumeOne pass timer res = .restart) : pass = .transfer := by
  cases pass <;> simp_all [consumeOne]

theorem consumeOne_complete {pass : Pass} {timer : Bool} {res : Int} {sig : Signal}
    (h : consumeOne pass timer res = .complete sig) : sig = completeSignal timer res := by
  cases pass <;> simp_all [consumeOne]

/-- The kernel finishes a request: its result is an effect unless it is a
cancellation, and the CQE carries it. -/
theorem Effects.post (he : Effects cfg s) (hc : Core s) {i : Nat} {res : Int} {e : Sqe O}
    {r : Ring O} (hr : (s.ring t).post i res = some (e, r)) :
    Effects cfg { s with
      ring := Function.update s.ring t r
      effects := match e.data with
        | some o => if res = -ECANCELED then s.effects
            else Function.update s.effects o (s.effects o ++ [res])
        | none => s.effects } where
  effects := by
    intro o
    obtain ⟨hmem, hcq⟩ := Ring.post_spec hr
    have h := he.effects o
    by_cases hdata : e.data = some o
    · have hst := hc.status_of_flight hmem hdata
      simp only [hst, EffectsOk] at h
      by_cases hres : res = -ECANCELED
      · simp [hst, EffectsOk, hdata, hcq, posted_append, hres, h]
      · simp [hst, EffectsOk, hdata, hcq, posted_append, hres, h]
    · -- neither the effects nor the results of another operation change
      have heff : (match e.data with
          | some o => if res = -ECANCELED then s.effects
              else Function.update s.effects o (s.effects o ++ [res])
          | none => s.effects) o = s.effects o := by
        cases hed : e.data with
        | none => rfl
        | some o' =>
            have hne : o ≠ o' := by
              rintro rfl
              exact hdata hed
            by_cases hres : res = -ECANCELED <;> simp [hres, hne]
      have hposted (t' : T) : posted (Function.update s.ring t r t').cq o =
          posted (s.ring t').cq o := by
        by_cases ht : t' = t
        · subst ht; simp [hcq, posted_append, hdata]
        · simp [ht]
      cases hst : s.status o <;> simpa only [hst, EffectsOk, heff, hposted] using h
  transfer := he.transfer

variable [DecidableEq S]

theorem step_effects {a : Label O T S} (he : Effects cfg s) (hc : Core s) (hok : TransferOk s a)
    (h : Step cfg s a s') : Effects cfg s' := by
  have hposted {t : T} {r : Ring O} {e : Sqe O}
      (hr : (s.ring t).getSqe (cfg.entries t) e = some r) (o : O) :
      posted r.cq o = posted (s.ring t).cq o := by rw [Ring.getSqe_cq hr]
  cases h with
  | @start t o hpc hopen hst =>
      have hnil : s.effects o = [] := by simpa [hst, EffectsOk] using he.effects o
      have hmove : Effects cfg { s with
          status := Function.update s.status o (.busy t)
          starts := Function.update s.starts o (s.starts o + 1) } :=
        he.move (fun _ _ => rfl) (fun _ _ _ => rfl) hnil
      exact hmove.setThread (by simp)
  | @testStopped t o c hpc hstop =>
      have hst := hc.status_of_holds hpc rfl
      have hmove : Effects cfg (s.signal o .setStopped) :=
        he.move (fun o' ho => by simp [ho]) (fun _ _ _ => rfl) (.inl (he.nil_of_busy hst))
      exact hmove.setThread (by simp)
  | @testPassed t o c hpc hstop => exact he.setThread (by simp)
  | @sqe t o c r hpc hr =>
      have hst := hc.status_of_holds hpc rfl
      have hzero := hc.tokens_of_busy hst
      have hle := posted_length_le (s.ring t).cq o
      have hnil : posted (s.ring t).cq o = [] :=
        List.length_eq_zero_iff.mp (by simp only [Ring.tokens] at hzero; omega)
      have hmove : Effects cfg { s.issue t r (.request o) with
          status := Function.update s.status o (.onRing t) } := by
        refine he.move (fun _ _ => rfl) ?_ ?_
        · intro t' o' _
          by_cases ht : t' = t
          · subst ht; simp [State.issue, hposted hr]
          · simp [State.issue, ht]
        · simp [EffectsOk, State.issue, hposted hr, hnil, he.nil_of_busy hst]
      exact hmove.setThread (by simp)
  | @full t o c hpc hr => exact he.setThread (by simp)
  | @installNothing t o c hpc htok => exact he.setThread (by simp)
  | @install t o c src hpc htok =>
      have he' : Effects cfg { s with
          localScheduler := Function.update s.localScheduler o t
          callback := Function.update s.callback o
            (if s.stopSource src then .running .load else .registered) } :=
        ⟨he.effects, he.transfer⟩
      exact he'.setThread (by simp)
  | @spawnThrows t o hpc =>
      have hst := hc.status_of_holds hpc rfl
      have hmove : Effects cfg ({ s with
          tasks := Function.update s.tasks o (s.tasks o ++ [Fate.unspawned]) }.signal o
            .setException) :=
        he.move (fun o' ho => by simp [ho]) (fun _ _ _ => rfl) (.inl (he.nil_of_busy hst))
      exact hmove.setThread (by simp)
  | @spawn t o hpc =>
      have hst := hc.status_of_holds hpc rfl
      have hmove : Effects cfg { s with
          tasks := Function.update s.tasks o (s.tasks o ++ [Fate.pending])
          status := Function.update s.status o .waiting } :=
        he.move (fun _ _ => rfl) (fun _ _ _ => rfl) (he.nil_of_busy hst)
      exact hmove.setThread (by simp)
  | @restart t o res pass c hpc hd =>
      obtain ⟨hhead, hrest⟩ := hc.posted_head hpc
      have hpass := consumeOne_restart hd
      subst hpass
      have heff : s.effects o = [] := by
        have h := he.effects o
        simpa [hc.status_of_uninstall hpc, EffectsOk, hhead, he.transfer t o res _ hpc] using h
      have hmove : Effects cfg { s with
          ring := Function.update s.ring t ((s.ring t).advance 1)
          status := Function.update s.status o (.busy t) } := by
        refine he.move (fun _ _ => rfl) ?_ heff
        intro t' o' ho
        by_cases ht : t' = t
        · subst ht; simpa using hrest o' ho
        · simp [ht]
      exact hmove.setThread (by simp)
  | @complete t o res pass c sig hpc hd =>
      obtain ⟨hhead, hrest⟩ := hc.posted_head hpc
      have hsig := consumeOne_complete hd
      have hst := hc.status_of_uninstall hpc
      have hnone : s.signals o = [] := by
        simpa [hst] using hc.signals o
      have hmove : Effects cfg ({ s with
          ring := Function.update s.ring t ((s.ring t).advance 1) }.signal o sig) := by
        refine he.move (fun o' ho => by simp [ho]) ?_ ?_
        · intro t' o' ho
          by_cases ht : t' = t
          · subst ht; simpa using hrest o' ho
          · simp [ht]
        · have h := he.effects o
          simp only [hst, EffectsOk, hhead] at h
          by_cases hres : res = -ECANCELED
          · exact .inl (by simpa [hres] using h)
          · exact .inr ⟨res, by simpa [hres] using h, by simp [hnone, hsig]⟩
      exact hmove.setThread (by simp)
  | @reset t o res pass c hpc hcb => exact (he.links _ _).setUninstall hpc
  | @moveAll t o res pass c pc pc' h hpc hm => exact (he.links h s.callback).setUninstall hpc
  | @movedNothing t o res pass c pc h hpc hm => exact (he.links h s.callback).setUninstall hpc
  | @moved t o res pass c pc op h hpc hm => exact (he.links h s.callback).setUninstall hpc
  | @before t o res pass c first pc pc' h hpc hm => exact (he.links h s.callback).setUninstall hpc
  | @beforeDone t o res pass c first pc u h hpc hm => exact (he.links h s.callback).setUninstall hpc
  | @next t o res pass c hpc => exact he.setUninstall hpc
  | @after t o res pass c first pc pc' h hpc hm => exact (he.links h s.callback).setUninstall hpc
  | @afterDone t o res pass c first pc u h hpc hm => exact (he.links h s.callback).setUninstall hpc
  | @sweepMove t b c pc pc' h hpc hm => exact (he.links h s.callback).setThread (by simp)
  | @sweepMoved t b c pc op h hpc hm => exact (he.links h s.callback).setThread (by simp)
  | @sweepEnd t b c hpc => exact he.setThread (by simp)
  | @sweepCancel t b c op r hpc hr =>
      exact (((he.links (s.heap.setNext op none) s.callback).setRing (hposted hr))).setThread (by simp)
  | @sweepFull t b c op hpc hr => exact he.setThread (by simp)
  | @sweepBack t b c first pc pc' h hpc hm => exact (he.links h s.callback).setThread (by simp)
  | @sweepBackDone t b c first pc u h hpc hm => exact (he.links h s.callback).setThread (by simp)
  | @launch t o hpc hopen hst hscope =>
      have hmove : Effects cfg { s.finishTask o .launched with
          status := Function.update s.status o (.busy t)
          starts := Function.update s.starts o (s.starts o + 1) } :=
        he.move (fun _ _ => rfl) (fun _ _ _ => rfl) (he.nil_of_waiting hst)
      exact hmove.setThread (by simp)
  | @launchStopped t o hpc hopen hst hscope =>
      exact he.move (fun _ _ => rfl) (fun _ _ _ => rfl) (he.nil_of_waiting hst)
  | @cancelTask t o hpc hopen hst =>
      exact he.move (fun _ _ => rfl) (fun _ _ _ => rfl) (he.nil_of_waiting hst)
  | requestStop => exact ⟨he.effects, he.transfer⟩
  | stopScope => exact ⟨he.effects, he.transfer⟩
  | @fire o hcb hstop => exact he.links _ _
  | @push o c pc pc' h hcb hm => exact he.links h _
  | @pushed o c pc u h hcb hm => exact he.links h _
  | @submit t n hpc hopen => exact he.setRing fun _ => rfl
  | @cancelAny t r hpc hopen hr =>
      have hcq := Ring.getSqe_cq hr
      exact he.setRing fun o => congrArg (fun cq => posted cq o) hcq
  | @post t i res e r hr => exact he.post hc hr
  | @consumeNoop t pass res l hpc hopen hcq =>
      have hcq' (o : O) : posted ((s.ring t).advance 1).cq o = posted (s.ring t).cq o := by
        simp [Ring.advance, hcq, posted_cons]
      exact he.setRing hcq'
  | @consume t pass o res l hpc hopen hcq =>
      apply he.setThread
      intro o' res' stage h
      obtain ⟨rfl, rfl, rfl, -⟩ : o = o' ∧ res = res' ∧ pass = .transfer ∧ _ = stage := by
        simpa using h
      exact hok ⟨some o, res⟩ (by simp [hcq]) rfl
  | @sweep t b hpc hopen => exact he.setThread (by simp)
  | @close t hpc hopen => exact ⟨he.effects, he.transfer⟩

theorem reach_effects (h : (machine cfg).Reach TransferOk s) : Effects cfg s := by
  refine h.invariant (Effects cfg) (fun _ => init_effects) ?_
  intro s a s' hr he hok hs
  exact step_effects he (reachable_core hr.reachable) hok (.of_step hs)

omit [DecidableEq S] in
/-- Each operation has at most one effect, and its result is on its way to the
receiver or has arrived there. -/
theorem Effects.once (he : Effects cfg s) (hc : Core s) (o : O) :
    (s.effects o).length ≤ 1 ∧ ∀ res ∈ s.effects o,
      s.signals o = [completeSignal (cfg.timer o) res] ∨ ∃ t, ⟨some o, res⟩ ∈ (s.ring t).cq := by
  have h := he.effects o
  cases hst : s.status o with
  | completed =>
      simp only [hst, EffectsOk] at h
      obtain hnil | ⟨res, hres, hsig⟩ := h
      · simp [hnil]
      · simp [hres, hsig]
  | onRing t =>
      simp only [hst, EffectsOk] at h
      have htok := hc.tokens t o
      have hle := posted_length_le (s.ring t).cq o
      simp only [hst, if_true, Ring.tokens] at htok
      refine ⟨by rw [h]; omega, fun res hres => .inr ⟨t, ?_⟩⟩
      rw [h] at hres
      simp only [posted, List.mem_map, List.mem_filter, decide_eq_true_eq] at hres
      obtain ⟨c, ⟨hmem, hdata, -⟩, rfl⟩ := hres
      rwa [← hdata]
  | _ => simp_all [EffectsOk]

section Repeat

/-- The kernel finishes the request with 5 just before thread 0 leaves. -/
def repeatRun : List (Label (Fin 1) (Fin 2) Unit) :=
  [.start 0 0, .thread 0 false, .thread 0 false, .thread 0 false, .submit 0 1, .post 0 0 5,
    .cancelAny 0, .post 0 0 0, .consume 0 .transfer, .thread 0 false, .thread 0 false,
    .consume 0 .transfer, .close 0,
    .launch 1 0, .thread 1 false, .thread 1 false, .thread 1 false, .submit 1 1, .post 1 0 5]

/-- Thread 0 leaves before the kernel is done, and its request is cancelled. -/
def handOverRun : List (Label (Fin 1) (Fin 2) Unit) :=
  leaveRun ++ [.launch 1 0, .thread 1 false, .thread 1 false, .thread 1 false, .submit 1 1,
    .post 1 0 5, .consume 1 .ordinary, .thread 1 false]

end Repeat

end IoUring.Exec.Operation
