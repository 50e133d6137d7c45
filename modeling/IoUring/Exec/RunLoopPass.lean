import IoUring.Exec.RunLoop

/-!
# What a final pass leaves behind

From the moment the pass begins, the requests on the ring, the CQEs found and
posted, the CQEs dealt with and the SQEs taken stay in balance. At the end of a
pass that was entered the CQEs dealt with are those found at the beginning and
those posted before the last peek.
-/

namespace IoUring.Exec.RunLoop

variable {O T : Type*}

/-- The policy and the object of an activation of `run()` by a final pass. -/
def FrameOk (t : T) (f : Frame T) : Caller T → Prop
  | .user => True
  | .stopRequest outer => f.policy = terminalPolicy ∧ f.loop = outer.loop
  | .localDtor => f.policy = transferPolicy ∧ f.loop = .own t
  | .execTransfer => f.policy = transferPolicy ∧ f.loop = .exec
  | .execTerminal => f.policy = terminalPolicy ∧ f.loop = .exec

/-- The CQEs of the ring that the pass has not dealt with. -/
def pending (cq : List (Cqe O)) : LoopPc O → List (Cqe O)
  | .consume rest n => rest ++ cq.drop n
  | _ => cq

/-- The CQ ring was empty at a peek, and the pass will not peek again. -/
def LoopPc.reaped : LoopPc O → Bool
  | .stopping => true
  | .cancelling _ _ => true
  | .tail => true
  | _ => false

/-- A task of the attached queue of the beginning is still there. -/
def LoopPc.unlaunched : LoopPc O → Bool
  | .check => true
  | .launch (.attached :: _) => true
  | _ => false

/-- The queues of this step are launched. -/
def LoopPc.launched : LoopPc O → Bool
  | .check => false
  | .launch _ => false
  | .visit _ _ => false
  | _ => true

/-- The tasks that are still to be called. -/
def LoopPc.tasks : LoopPc O → List (Task O)
  | .visit tasks _ => tasks
  | _ => []

theorem FrameOk.policy {t : T} {f : Frame T} {c : Caller T} (h : FrameOk t f c) (hc : c ≠ .user) :
    f.policy = transferPolicy ∨ f.policy = terminalPolicy := by
  cases c with
  | user => exact absurd rfl hc
  | stopRequest outer => exact .inr h.1
  | localDtor => exact .inl h.1
  | execTransfer => exact .inl h.1
  | execTerminal => exact .inr h.1

def ThreadPc.tasks : ThreadPc O T → List (Task O)
  | .run _ _ pc => pc.tasks
  | .callback _ _ pc => pc.tasks
  | _ => []

variable [DecidableEq O] [DecidableEq T]

/-- The pass began with no operation in flight: the kernel has finished all of them
before the submission of the cancellation returned. -/
def PassLog.settled (log : PassLog O) : Bool :=
  log.startFlight.all fun e => e.data.isNone

/-- How often `o` occurs as user data. -/
def opCount (data : List (Option O)) (o : O) : Nat :=
  data.count (some o)

structure PassOk (p : RunPolicy) (l : IoUringExecLocal O) (log : PassLog O) (pc : LoopPc O) :
    Prop where
  policy : p = transferPolicy ∨ p = terminalPolicy
  taken : ∀ o, log.taken.count o + opCount (log.startFlight.map Sqe.data) o =
    opCount (l.ring.sq.map Sqe.data) o + opCount (l.ring.flight.map Sqe.data) o + opCount (log.posted.map Cqe.data) o
  queue : log.startCq ++ log.posted = log.delivered ++ pending l.ring.cq pc
  batch : ∀ rest n, pc = .consume rest n → n ≤ l.ring.cq.length
  reaped : pc.reaped = true → log.posted = log.lastPosted ++ l.ring.cq
  attached : p = terminalPolicy → ∀ k ∈ log.startAttached, k ∈ log.cancelled ∨ k ∈ pc.tasks ∨
    pc.unlaunched = true ∧ k ∈ l.attached
  check : pc = .check → log.entered = false ∧ log.taken = [] ∧ log.delivered = []
  entered : pc ≠ .check → log.entered = true ∧ log.first = true

/-- How a final pass ends: at once, as a thread has left the same object through
the stop branch before, or with the step made. -/
def PassEnd (p : RunPolicy) (l : IoUringExecLocal O) (log : PassLog O) : Prop :=
  log.first = false ∧ PassOk p l log .check ∨ PassOk p l log .tail

/-- A final pass that was made: the attached tasks it found are cancelled and
the CQEs it found are dealt with, in their order. -/
def Served (log : PassLog O) : Prop :=
  log.entered = true ∧ (∀ k ∈ log.startAttached, k ∈ log.cancelled) ∧
    log.startCq <+: log.delivered

/-- The invariant of one thread. -/
def ThreadOk (t : T) (l : IoUringExecLocal O) (log : PassLog O) : ThreadPc O T → Prop
  | .command f c => FrameOk t f c ∧ c ≠ .user
  | .drain f c => FrameOk t f c ∧ c ≠ .user ∧ l.ring.sq = []
  | .run f c pc => FrameOk t f c ∧ (c ≠ .user → PassOk f.policy l log pc)
  | .callback f c pc => FrameOk t f c ∧ pc ≠ .check ∧ (c ≠ .user → PassOk f.policy l log pc)
  | .detach => PassEnd transferPolicy l log
  | _ => True

variable {p : RunPolicy} {l : IoUringExecLocal O} {log : PassLog O} {pc : LoopPc O}
  {sources : List LaunchSource} {k : Task O} {rest : List (Task O)}

namespace PassOk

/-- The pass begins when no request is prepared. -/
theorem start (hp : p = transferPolicy ∨ p = terminalPolicy) (hsq : l.ring.sq = [])
    (immediate : Bucket → List (Task O)) :
    PassOk p l {
      startAttached := l.attached
      startCq := l.ring.cq
      startFlight := l.ring.flight
      startImmediate := immediate } .check where
  policy := hp
  taken := by simp [hsq, opCount]
  queue := by simp [pending]
  batch := by simp
  reaped := by simp [LoopPc.reaped]
  attached := fun _ k hk => .inr (.inr ⟨rfl, hk⟩)
  check := fun _ => ⟨rfl, rfl, rfl⟩
  entered := by simp

/-- Every request that the pass has met is on the ring or dealt with. -/
theorem balance (h : PassOk p l log pc) (hpc : ∀ rest n, pc ≠ .consume rest n)
    (hsettled : log.settled = true) (o : O) :
    l.ring.tokens o + opCount (log.delivered.map Cqe.data) o =
      log.taken.count o + opCount (log.startCq.map Cqe.data) o := by
  have hflight : opCount (log.startFlight.map Sqe.data) o = 0 := by
    apply List.count_eq_zero.mpr
    intro hmem
    obtain ⟨e, he, hdata⟩ := List.mem_map.mp hmem
    have hnone := List.all_eq_true.mp hsettled e he
    simp [hdata] at hnone
  have htaken := h.taken o
  have hqueue := congrArg (fun cq => opCount (cq.map Cqe.data) o) h.queue
  have hpending : pending l.ring.cq pc = l.ring.cq := by
    cases pc <;> simp_all [pending]
  simp only [hpending, opCount, List.map_append, List.count_append] at hqueue
  rw [hflight] at htaken
  simp only [opCount] at htaken
  simp only [Ring.tokens, opCount]
  omega

/-- At the end of a pass, what it dealt with. -/
theorem delivered (h : PassOk p l log pc) (hpc : pc.reaped = true) :
    log.delivered = log.startCq ++ log.lastPosted := by
  have hqueue := h.queue
  have hpending : pending l.ring.cq pc = l.ring.cq := by
    cases pc <;> simp_all [pending, LoopPc.reaped]
  rw [h.reaped hpc, hpending, ← List.append_assoc] at hqueue
  exact (List.append_cancel_right hqueue).symm

/-- Once the attached queue is drained and visited, what was in it is cancelled. -/
theorem all_cancelled (h : PassOk p l log pc) (htasks : pc.tasks = [])
    (hun : pc.unlaunched = false) (hp : p = terminalPolicy) (k : Task O)
    (hk : k ∈ log.startAttached) : k ∈ log.cancelled := by
  rcases h.attached hp k hk with hc | hc | ⟨hu, -⟩
  · exact hc
  · simp [htasks] at hc
  · simp [hun] at hu

/-- A CQE is posted. -/
theorem post (h : PassOk p l log pc) {i : Nat} {res : Int} {e : Sqe O} {r : Ring O}
    (hr : l.ring.post i res = some (e, r)) :
    PassOk p { l with ring := r } { log with posted := log.posted ++ [⟨e.data, res⟩] } pc := by
  have hcq := (Ring.post_spec hr).2
  exact { h with
    taken := by
      intro o
      obtain ⟨hsq, hflight⟩ := Ring.post_flight hr o
      have htaken := h.taken o
      simp only [opCount, hsq, List.map_append, List.map_cons, List.map_nil, List.count_append,
        List.count_singleton, beq_iff_eq] at htaken ⊢
      omega
    queue := by
      have hq := h.queue
      have hp : pending r.cq pc = pending l.ring.cq pc ++ [⟨e.data, res⟩] := by
        cases pc with
        | consume rest n =>
            simp [pending, hcq, List.drop_append_of_le_length (h.batch rest n rfl)]
        | _ => simp [pending, hcq]
      rw [hp, ← List.append_assoc, hq, List.append_assoc]
    batch := by
      intro rest n hpc
      have hle := h.batch rest n hpc
      simp only [hcq, List.length_append, List.length_singleton]
      omega
    reaped := by
      intro hpc
      simp only [hcq]
      rw [h.reaped hpc, List.append_assoc] }

/-- An SQE is taken, by an operation or for a cancellation. -/
theorem takeSqe (h : PassOk p l log pc) {entries : Nat} {e : Sqe O} {r : Ring O} {n : BitVec 64}
    {taken : List O} (hr : l.ring.getSqe entries e = some r) (htaken : taken = e.data.toList)
    (hpc : pc ≠ .check) :
    PassOk p { l with ring := r, inflight := n } { log with taken := taken ++ log.taken } pc := by
  have heq := Ring.getSqe_eq hr
  subst heq
  exact { h with
    taken := by
      intro o
      have ht := h.taken o
      have hcount : taken.count o = if e.data = some o then 1 else 0 := by
        rw [htaken]
        cases he : e.data with
        | none => simp
        | some o' => simp [List.count_singleton]
      simp only [opCount, List.map_append, List.map_cons, List.map_nil, List.count_append,
        List.count_singleton, beq_iff_eq, hcount] at ht ⊢
      omega
    check := fun h' => absurd h' hpc }

/-- A task is attached to the local. -/
theorem attach (h : PassOk p l log pc) (k : Task O) :
    PassOk p { l with attached := k :: l.attached } log pc := by
  exact { h with
    attached := by
      intro hp k' hk'
      rcases h.attached hp k' hk' with hc | hc | ⟨hu, hc⟩
      · exact .inl hc
      · exact .inr (.inl hc)
      · exact .inr (.inr ⟨hu, by simp [hc]⟩) }

/-- The pass moves on without an access to the ring. -/
theorem goto (h : PassOk p l log pc) {pc' : LoopPc O} (hpc : pc ≠ .check) (hpc' : pc' ≠ .check)
    (hpending : pending l.ring.cq pc' = pending l.ring.cq pc)
    (hbatch : ∀ rest n, pc' = .consume rest n → n ≤ l.ring.cq.length)
    (hreaped : pc'.reaped = true → log.posted = log.lastPosted ++ l.ring.cq)
    (hattached : p = terminalPolicy → ∀ k ∈ log.startAttached, k ∈ pc.tasks ∨
      pc.unlaunched = true ∧ k ∈ l.attached → k ∈ log.cancelled ∨ k ∈ pc'.tasks ∨
        pc'.unlaunched = true ∧ k ∈ l.attached) : PassOk p l log pc' := by
  exact { h with
    queue := by rw [hpending, h.queue]
    batch := hbatch
    reaped := hreaped
    attached := by
      intro hp k hk
      rcases h.attached hp k hk with hc | hc
      · exact .inl hc
      · exact hattached hp k hk hc
    check := fun h' => absurd h' hpc'
    entered := fun _ => h.entered hpc }

/-- A pass looks at the ring and the attached queue of its local only. -/
theorem congr_local {l' : IoUringExecLocal O} (h : PassOk p l log pc) (hring : l'.ring = l.ring)
    (hattached : l'.attached = l.attached) : PassOk p l' log pc := by
  exact { h with
    taken := by rw [hring]; exact h.taken
    queue := by rw [hring]; exact h.queue
    batch := by rw [hring]; exact h.batch
    reaped := by rw [hring]; exact h.reaped
    attached := by rw [hattached]; exact h.attached }

/-- The note whether a thread has left through the stop branch. -/
theorem note (h : PassOk p l log .check) (first : Bool) :
    PassOk p l { log with first := first } .check := by
  exact { h with entered := by simp }

/-- The pass is entered. -/
theorem enter (h : PassOk p l log .check) (hfirst : log.first = true) :
    PassOk p l { log with entered := true } (.launch (launchSources p)) := by
  exact { h with
    batch := by simp
    reaped := by simp [LoopPc.reaped]
    attached := by
      rintro rfl k hk
      rcases h.attached rfl k hk with hc | hc | ⟨-, hc⟩
      · exact .inl hc
      · simp [LoopPc.tasks] at hc
      · exact .inr (.inr ⟨rfl, hc⟩)
    check := by simp
    entered := fun _ => ⟨rfl, hfirst⟩ }

/-- The attached queue is drained. -/
theorem launchAttached (h : PassOk p l log (.launch (.attached :: sources)))
    {tasks : List (Task O)} (htasks : ∀ k, k ∈ tasks ↔ k ∈ l.attached) :
    PassOk p { l with attached := [] } log (.visit tasks sources) := by
  exact { h with
    batch := by simp
    reaped := by simp [LoopPc.reaped]
    attached := by
      intro hp k hk
      rcases h.attached hp k hk with hc | hc | ⟨-, hc⟩
      · exact .inl hc
      · simp [LoopPc.tasks] at hc
      · exact .inr (.inl ((htasks k).mpr hc))
    check := by simp
    entered := fun _ => h.entered (by simp) }

/-- A task is cancelled. -/
theorem cancelled (h : PassOk p l log (.visit (k :: rest) sources)) :
    PassOk p l { log with cancelled := k :: log.cancelled } (.visit rest sources) := by
  exact { h with
    batch := by simp
    reaped := by simp [LoopPc.reaped]
    attached := by
      intro hp k' hk'
      rcases h.attached hp k' hk' with hc | hc | ⟨hu, -⟩
      · exact .inl (by simp [hc])
      · rcases List.mem_cons.mp hc with rfl | hc
        · exact .inl (by simp)
        · exact .inr (.inl hc)
      · simp [LoopPc.unlaunched] at hu
    check := by simp
    entered := fun _ => h.entered (by simp) }

theorem submit (h : PassOk p l log .submit) {pc' : LoopPc O} (hpc' : pc' = .peek) :
    PassOk p { l with ring := l.ring.submit l.ring.sq.length } log pc' := by
  subst hpc'
  exact { h with
    taken := by
      intro o
      have ht := h.taken o
      simp only [opCount, Ring.submit, List.drop_length, List.take_length, List.map_nil,
        List.map_append, List.count_append, List.count_nil] at ht ⊢
      omega
    batch := by simp
    reaped := by simp [LoopPc.reaped]
    attached := fun hp k hk => .inl (h.all_cancelled rfl rfl hp k hk)
    check := by simp
    entered := fun _ => h.entered (by simp) }

/-- The last peek of the pass finds the CQ ring empty. -/
theorem peekEmpty (h : PassOk p l log .peek) (hcq : l.ring.cq = []) {pc' : LoopPc O}
    (hpc' : pc' = .stopping) : PassOk p l { log with lastPosted := log.posted } pc' := by
  subst hpc'
  exact { h with
    batch := by simp
    reaped := by simp [hcq]
    attached := fun hp k hk => .inl (h.all_cancelled rfl rfl hp k hk)
    check := by simp
    entered := fun _ => h.entered (by simp) }

/-- One CQE of a batch is dealt with. -/
theorem consumed {e : Cqe O} {rest : List (Cqe O)} {n : Nat}
    (h : PassOk p l log (.consume (e :: rest) n)) :
    PassOk p l { log with delivered := log.delivered ++ [e] } (.consume rest n) := by
  exact { h with
    queue := by
      have hq := h.queue
      simpa [pending] using hq
    batch := fun rest' n' hpc => by
      obtain ⟨rfl, rfl⟩ : rest = rest' ∧ n = n' := by simpa using hpc
      exact h.batch _ n rfl
    reaped := by simp [LoopPc.reaped]
    attached := fun hp k hk => .inl (h.all_cancelled rfl rfl hp k hk)
    check := by simp
    entered := fun _ => h.entered (by simp) }

/-- `io_uring_cq_advance` after a batch. -/
theorem advance {n : Nat} (h : PassOk p l log (.consume [] n)) {pc' : LoopPc O} {m : BitVec 64}
    (hpc' : pc' = .peek) :
    PassOk p { l with ring := l.ring.advance n, inflight := m } log pc' := by
  subst hpc'
  exact { h with
    queue := by
      have hq := h.queue
      simpa [pending, Ring.advance] using hq
    batch := by simp
    reaped := by simp [LoopPc.reaped]
    attached := fun hp k hk => .inl (h.all_cancelled rfl rfl hp k hk)
    check := by simp
    entered := fun _ => h.entered (by simp) }

end PassOk

theorem PassEnd.served (h : PassEnd terminalPolicy l log) :
    Served log ↔ log.first = true := by
  rcases h with ⟨hfirst, hpass⟩ | hpass
  · simp [Served, (hpass.check rfl).1, hfirst]
  · obtain ⟨hentered, hfirst⟩ := hpass.entered (by simp)
    refine iff_of_true ⟨hentered, hpass.all_cancelled rfl rfl rfl, ?_⟩ hfirst
    exact ⟨_, (hpass.delivered rfl).symm⟩

/-- What a request leaves on the ring at the end of a pass. -/
theorem PassEnd.tokens (h : PassEnd p l log) (hsettled : log.settled = true) :
    (∀ o, l.ring.tokens o = 0) ↔
      (log.first = true ∨ ∀ o, opCount (log.startCq.map Cqe.data) o = 0) ∧
        ∀ o, log.taken.count o ≤ opCount (log.lastPosted.map Cqe.data) o := by
  rcases h with ⟨hfirst, hpass⟩ | hpass
  · obtain ⟨-, htaken, hdelivered⟩ := hpass.check rfl
    have hbalance : ∀ o, l.ring.tokens o = opCount (log.startCq.map Cqe.data) o := fun o => by
      simpa [htaken, hdelivered, opCount] using hpass.balance (by simp) hsettled o
    simp [hbalance, hfirst, htaken]
  · have hbalance : ∀ o, l.ring.tokens o + opCount (log.lastPosted.map Cqe.data) o =
        log.taken.count o := fun o => by
      have hsum := hpass.balance (by simp) hsettled o
      simp only [hpass.delivered rfl, opCount, List.map_append, List.count_append] at hsum ⊢
      omega
    simp only [(hpass.entered (by simp)).2, true_or, true_and]
    apply forall_congr'
    intro o
    have := hbalance o
    omega

end IoUring.Exec.RunLoop
