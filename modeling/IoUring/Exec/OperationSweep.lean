import IoUring.Base.Observe
import IoUring.Exec.OperationUninstall

/-!
# The stopping pass on a full ring

The pass takes the whole bucket, prepares a cancellation for one operation after the
other, and splices what is left back into the bucket when the SQ ring is full. Stop
callbacks on other threads push operations into the bucket all the while.
-/

namespace IoUring.Exec.Operation

variable {O T S : Type*} [DecidableEq O] [DecidableEq T] [DecidableEq S]

/-- What a step of thread `t` does to `_inflight`: `start()` and the stopping pass call
`add_inflight()` after `io_uring_get_sqe`, and a CQE that is dealt with is subtracted. -/
def countThread (cfg : Config O T S) (s : State O T S) (t : T) (n : BitVec 64) : BitVec 64 :=
  match s.thread t with
  | .getSqe o => if ((s.ring t).getSqe (cfg.entries t) (.request o)).isSome then n + 1 else n
  | .sweep _ (some op) =>
      if ((s.ring t).getSqe (cfg.entries t) (.cancel op)).isSome then n + 1 else n
  | .uninstall _ _ _ .deliver => n - 1
  | _ => n

/-- The history keeps `_inflight`. The CQE of a no-op is dealt with at once, that of an
operation at the end of its program; `submit_destructive_command` counts nothing. -/
def noteInflight (cfg : Config O T S) (n : T → BitVec 64) (s : State O T S) (a : Label O T S)
    (_ : State O T S) : T → BitVec 64 :=
  match a with
  | .thread t _ => Function.update n t (countThread cfg s t (n t))
  | .consume t _ =>
      Function.update n t (match (s.ring t).cq with
        | ⟨none, _⟩ :: _ => n t - 1
        | _ => n t)
  | _ => n

/-- The machine with `_inflight`. -/
def inflightMachine (cfg : Config O T S) : Machine (State O T S × (T → BitVec 64)) (Label O T S) :=
  (machine cfg).observed (fun _ => 0) (noteInflight cfg)

/-- The entries of the SQ ring of `t` that are free. -/
def freeEntries (cfg : Config O T S) (s : State O T S) (t : T) : Nat :=
  cfg.entries t - (s.ring t).sq.length

/-- What a pass of thread `t` over bucket `b` has done between `p` and `p'`: it has drained
the chain `l`, and `after` was pushed since. The first operations of the chain got the free
entries, the rest is back in the bucket. -/
structure Swept (cfg : Config O T S) (t : T) (b : Bucket) (l after : List O)
    (p p' : State O T S × (T → BitVec 64)) : Prop where
  nodup : l.Nodup
  sq : (p'.1.ring t).sq =
    (p.1.ring t).sq ++ (l.take (min l.length (freeEntries cfg p.1 t))).map .cancel
  inflight : p'.2 t = p.2 t + BitVec.ofNat 64 (min l.length (freeEntries cfg p.1 t))
  cleared : ∀ o ∈ l.take (min l.length (freeEntries cfg p.1 t)), p'.1.heap.next o = none
  bucket : Chain p'.1.heap.next (p'.1.heap.head (t, b))
    (l.drop (min l.length (freeEntries cfg p.1 t)) ++ after.reverse)

/-- `o` is on the ring of `t`, and its callback does not run before `t` deals with it. -/
def Resting (s : State O T S) (t : T) (o : O) : Prop :=
  s.status o = .onRing t ∧ (s.callback o = .ran ∨ s.callback o = .none)

/-- The pass has drained the chain `l`, cancelled `done` of it and has `rest` in hand;
`after` was pushed since. -/
structure Drained (cfg : Config O T S) (t : T) (b : Bucket) (l done rest after : List O)
    (p p' : State O T S × (T → BitVec 64)) : Prop where
  split : l = done ++ rest
  nodup : l.Nodup
  resting : ∀ o ∈ l, Resting p'.1 t o
  apart : ∀ o ∈ l, o ∉ after
  sq : (p'.1.ring t).sq = (p.1.ring t).sq ++ done.map .cancel
  inflight : p'.2 t = p.2 t + BitVec.ofNat 64 done.length
  room : done.length ≤ freeEntries cfg p.1 t
  cleared : ∀ o ∈ done, p'.1.heap.next o = none
  bucket : Chain p'.1.heap.next (p'.1.heap.head (t, b)) after.reverse

/-- Where a pass that began at `p` with `content` in the bucket is at `p'`; the list is of
the operations pushed onto the bucket so far, the oldest first. -/
inductive SweepOk (cfg : Config O T S) (t : T) (b : Bucket) (content : List O)
    (p p' : State O T S × (T → BitVec 64)) : List O → Prop
  | draining {pc : MoveAllPc O} {pushes : List O} (hpc : p'.1.thread t = .sweepMove b pc)
      (hch : Chain p'.1.heap.next (p'.1.heap.head (t, b)) (pushes.reverse ++ content))
      (hsq : (p'.1.ring t).sq = (p.1.ring t).sq) (hn : p'.2 t = p.2 t) :
      SweepOk cfg t b content p p' pushes
  | walking {op : Option O} {before after done rest : List O} (hpc : p'.1.thread t = .sweep b op)
      (hd : Drained cfg t b (before.reverse ++ content) done rest after p p')
      (hch : Chain p'.1.heap.next op rest) : SweepOk cfg t b content p p' (before ++ after)
  | returning {first : Option O} {pc : PushAllPc O} {before after done rest : List O}
      (hpc : p'.1.thread t = .sweepBack b first pc)
      (hd : Drained cfg t b (before.reverse ++ content) done rest after p p')
      (hok : PushAllOk p'.1.heap.next first (fun _ => true) rest pc)
      (hfull : done.length = freeEntries cfg p.1 t) : SweepOk cfg t b content p p' (before ++ after)
  | ended {before after : List O} (hpc : p'.1.thread t = .idle)
      (hs : Swept cfg t b (before.reverse ++ content) after p p') :
      SweepOk cfg t b content p p' (before ++ after)

variable {cfg : Config O T S} {s s' : State O T S} {t : T} {b : Bucket} {o : O}
  {own : O → Owner T} {content : T × Bucket → List O} {priv : T → List O} {a : Label O T S}

/-! ## Steps of the others -/

omit [DecidableEq O] [DecidableEq T] [DecidableEq S] in
theorem Resting.not_running (h : Resting s t o) (pc : PushPc O) : s.callback o ≠ .running pc := by
  rcases h.2 with hcb | hcb <;> simp [hcb]

omit [DecidableEq T] [DecidableEq S] in
/-- What is linked in a bucket rests. -/
theorem Linked.resting (hl : Linked cfg s own content priv) (ho : o ∈ content (t, b)) :
    Resting s t o := by
  have hown := (hl.chains.mem_content (t, b) o).mp ho
  exact ⟨((hl.ops o).bucket (t, b) hown).1, (hl.ops o).ran (by simp [hown])⟩

/-- A thread inside a program goes on by its own steps only, and the others leave the
entries it has prepared and its counter alone. -/
theorem Step.busy {n : T → BitVec 64} (h : Step cfg s a s') (ha : ∀ c, a ≠ .thread t c)
    (hbusy : s.thread t ≠ .idle) :
    s'.thread t = s.thread t ∧ (s'.ring t).sq = (s.ring t).sq ∧
      noteInflight cfg n s a s' t = n t := by
  have hcount : noteInflight cfg n s a s' t = n t := by
    cases a with
    | thread u c =>
        have hne : t ≠ u := fun heq => ha c (heq ▸ rfl)
        exact Function.update_of_ne hne _ _
    | consume u pass =>
        have hne : t ≠ u := by
          rintro rfl
          cases h <;> exact hbusy ‹_›
        exact Function.update_of_ne hne _ _
    | _ => rfl
  refine ⟨?_, ?_, hcount⟩
  · cases h <;>
      simp only [State.setThread, State.signal, State.issue, State.finishTask, State.enterStart] <;>
      grind
  · cases h with
    | @post u i res e r hr =>
        by_cases ht : t = u
        · subst ht
          simp [Ring.post_sq hr]
        · simp [ht]
    | _ =>
        simp only [State.setThread, State.signal, State.issue, State.finishTask,
          State.enterStart] <;> grind

/-- Nobody else deals with an operation on the ring of `t` or runs its callback again. -/
theorem Resting.step (h : Step cfg s a s') (hc : Core s) (hr : Resting s t o)
    (ha : ∀ c, a ≠ .thread t c) : Resting s' t o := by
  obtain ⟨hst, hcb⟩ := hr
  have hholds : ∀ u, (s.thread u).holds ≠ some o := by
    intro u hu
    have hbusy := (hc.busy u o).mp hu
    simp [hst] at hbusy
  have htest : ∀ u, s.thread u ≠ .test o := fun u hu => hholds u (by rw [hu]; rfl)
  have hsqe : ∀ u, s.thread u ≠ .getSqe o := fun u hu => hholds u (by rw [hu]; rfl)
  have hspawn : ∀ u, s.thread u ≠ .spawn o := fun u hu => hholds u (by rw [hu]; rfl)
  have hinst : ∀ u, s.thread u = .install o → u = t := fun u hu =>
    Status.onRing.inj ((hc.installing u o hu).symm.trans hst)
  have huninst : ∀ u res pass stage, s.thread u = .uninstall o res pass stage → u = t :=
    fun u res pass stage hu => Status.onRing.inj ((hc.status_of_uninstall hu).symm.trans hst)
  cases h <;>
    simp only [Resting, State.setThread, State.signal, State.issue, State.finishTask,
      State.enterStart] <;>
    grind

/-- A push onto a queue. -/
theorem Linked.head_pushed (hl : Linked cfg s own content priv) (h : Step cfg s a s')
    {q : T × Bucket} (hpush : pushedTo cfg q s a = some o) :
    s'.heap = s.heap.setHead q (some o) ∧ s.heap.next o = s.heap.head q ∧
      ∃ pc, s.callback o = .running pc := by
  obtain ⟨hpushed, rfl⟩ := pushedTo_eq_some.mp hpush
  cases h with
  | @push o' c pc pc' h hcb hm => simp [pushed, hcb, hm] at hpushed
  | @pushed o' c pc u h hcb hm =>
      obtain rfl : o' = o := by simpa [pushed, hcb, hm] using hpushed
      cases pc with
      | load => simp [pushStep] at hm
      | write node => simp [pushStep] at hm
      | cas node =>
          simp only [pushStep] at hm
          split at hm
          · next hg =>
              simp only [Prod.mk.injEq] at hm
              exact ⟨hm.1.symm, ((hl.ops o').cas node hcb).trans hg.1.symm, _, hcb⟩
          · simp at hm
  | _ => simp [pushed] at hpushed

/-- The head of a queue of thread `t` is moved by `t` and by the pushes onto it. -/
theorem Linked.head_kept (hl : Linked cfg s own content priv) (hc : Core s)
    (hk : ∀ o, CallbackOk cfg s o) (h : Step cfg s a s') (ha : ∀ c, a ≠ .thread t c)
    (hpush : pushedTo cfg (t, b) s a = none) : s'.heap.head (t, b) = s.heap.head (t, b) := by
  have hne {u : T} {c : Bool} (hac : ∀ c', (Label.thread u c : Label O T S) ≠ .thread t c') :
      u ≠ t := by
    rintro rfl
    exact hac c rfl
  have hqueue {u : T} {o : O} {res : Int} {pass : Pass} {stage : Uninstall O}
      (hpc : s.thread u = .uninstall o res pass stage) (hstage : stage ≠ .deliver) (hu : u ≠ t) :
      stoppingQueue cfg s o ≠ (t, b) := by
    rw [(hk o).queue hc hpc hstage]
    exact fun heq => hu (congrArg Prod.fst heq)
  have hmove {q : T × Bucket} {c : Bool} {pc : MoveAllPc O} {h : Heap O (T × Bucket)}
      {r : Call (MoveAllPc O) (Option O)} (hm : moveAllStep s.heap q c pc = (h, r))
      (hq : q ≠ (t, b)) : h.head (t, b) = s.heap.head (t, b) := by
    cases r with
    | running pc' => rw [moveAllStep_running hm]
    | returned v => simp [(moveAllStep_returned hm).2, Ne.symm hq]
  have hsplice {u : T} {q : T × Bucket} {first : Option O} {p : O → Bool} {c : Bool}
      {pc : PushAllPc O} {h : Heap O (T × Bucket)} {r : Call (PushAllPc O) Unit}
      (hok : PushAllOk s.heap.next first p (priv u) pc)
      (hm : pushAllStep s.heap q first p c pc = (h, r)) (hq : q ≠ (t, b)) :
      h.head (t, b) = s.heap.head (t, b) := by
    cases r with
    | running pc' => rw [(pushAllStep_running hok hm).2.1]
    | returned v =>
        obtain ⟨-, -, -, -, -, -, -, hother, -⟩ := pushAllStep_returned hok hm
        exact hother _ (Ne.symm hq)
  have hok {u : T} {pc : ThreadPc O} (hpc : s.thread u = pc) : PrivOk s.heap.next (priv u) pc :=
    hpc ▸ hl.chains.private_ok u
  have hfst {u : T} (b' : Bucket) (hu : u ≠ t) : (u, b') ≠ (t, b) := fun heq =>
    hu (congrArg Prod.fst heq)
  cases h with
  | @moveAll u o' res pass c pc pc' h hpc hm => exact hmove hm (hqueue hpc (by simp) (hne ha))
  | @movedNothing u o' res pass c pc h hpc hm => exact hmove hm (hqueue hpc (by simp) (hne ha))
  | @moved u o' res pass c pc op h hpc hm => exact hmove hm (hqueue hpc (by simp) (hne ha))
  | @sweepMove u b c pc pc' h hpc hm => exact hmove hm (hfst _ (hne ha))
  | @sweepMoved u b c pc op h hpc hm => exact hmove hm (hfst _ (hne ha))
  | @before u o' res pass c first pc pc' h hpc hm =>
      exact hsplice (hok hpc) hm (hqueue hpc (by simp) (hne ha))
  | @beforeDone u o' res pass c first pc v h hpc hm =>
      exact hsplice (hok hpc) hm (hqueue hpc (by simp) (hne ha))
  | @after u o' res pass c first pc pc' h hpc hm =>
      exact hsplice (hok hpc) hm (hqueue hpc (by simp) (hne ha))
  | @afterDone u o' res pass c first pc v h hpc hm =>
      exact hsplice (hok hpc) hm (hqueue hpc (by simp) (hne ha))
  | @sweepBack u b c first pc pc' h hpc hm => exact hsplice (hok hpc) hm (hfst _ (hne ha))
  | @sweepBackDone u b c first pc v h hpc hm => exact hsplice (hok hpc) hm (hfst _ (hne ha))
  | @push o' c pc pc' h hcb hm =>
      cases pc with
      | load =>
          simp only [pushStep, Prod.mk.injEq] at hm
          rw [← hm.1]
      | write node =>
          simp only [pushStep, Prod.mk.injEq] at hm
          simp [← hm.1]
      | cas node =>
          simp only [pushStep] at hm
          split at hm
          · simp at hm
          · simp only [Prod.mk.injEq] at hm
            rw [← hm.1]
  | @pushed o' c pc v h hcb hm =>
      have hq : stoppingQueue cfg s o' ≠ (t, b) := by
        intro hq
        have hpushed : pushed cfg s (.push o' c) = some o' := by simp [pushed, hcb, hm]
        rw [pushedTo_eq_some.mpr ⟨hpushed, hq⟩] at hpush
        cases hpush
      cases pc with
      | load => simp [pushStep] at hm
      | write node => simp [pushStep] at hm
      | cas node =>
          simp only [pushStep] at hm
          split at hm
          · simp only [Prod.mk.injEq] at hm
            simp [← hm.1, Ne.symm hq]
          · simp at hm
  | _ => rfl

/-- The bucket of a thread over a step of another one. -/
theorem Linked.bucket_step (hl : Linked cfg s own content priv) (hc : Core s)
    (hk : ∀ o, CallbackOk cfg s o) (h : Step cfg s a s') (ha : ∀ c, a ≠ .thread t c) {l : List O}
    (hch : Chain s.heap.next (s.heap.head (t, b)) l) :
    Chain s'.heap.next (s'.heap.head (t, b)) ((pushedTo cfg (t, b) s a).toList ++ l) := by
  cases hpush : pushedTo cfg (t, b) s a with
  | none =>
      rw [hl.head_kept hc hk h ha hpush]
      refine hch.congr fun o ho => ?_
      rw [chain_unique hch (hl.chains.bucket_chain (t, b))] at ho
      exact hl.next_kept h (hl.resting ho).1 (hl.resting ho).not_running ha
  | some o =>
      obtain ⟨heap, hnext, -⟩ := hl.head_pushed h hpush
      rw [heap]
      refine ⟨by simp, ?_⟩
      rw [Heap.setHead_next, hnext]
      exact hch

/-! ## Steps of the pass -/

section Pass

variable {p q q' : State O T S × (T → BitVec 64)} {l done rest after found pushes : List O}

/-- A step of another thread. -/
theorem Drained.other (hd : Drained cfg t b l done rest after p q)
    (hl : Linked cfg q.1 own content priv) (hc : Core q.1) (hk : ∀ o, CallbackOk cfg q.1 o)
    (h : Step cfg q.1 a q'.1) (ha : ∀ c, a ≠ .thread t c)
    (hsq : (q'.1.ring t).sq = (q.1.ring t).sq) (hn : q'.2 t = q.2 t) :
    Drained cfg t b l done rest (after ++ (pushedTo cfg (t, b) q.1 a).toList) p q' ∧
      ∀ o ∈ l, q'.1.heap.next o = q.1.heap.next o := by
  have hnext : ∀ o ∈ l, q'.1.heap.next o = q.1.heap.next o := fun o ho =>
    hl.next_kept h (hd.resting o ho).1 (hd.resting o ho).not_running ha
  refine ⟨?_, hnext⟩
  exact { hd with
    resting := fun o ho => (hd.resting o ho).step h hc ha
    apart := by
      intro o ho hmem
      rcases List.mem_append.mp hmem with hmem | hmem
      · exact hd.apart o ho hmem
      · -- what is pushed has a running callback
        obtain ⟨-, -, pc, hcb⟩ := hl.head_pushed h (Option.mem_toList.mp hmem)
        exact (hd.resting o ho).not_running pc hcb
    sq := hsq.trans hd.sq
    inflight := hn.trans hd.inflight
    cleared := by
      intro o ho
      rw [hnext o (by simp [hd.split, ho])]
      exact hd.cleared o ho
    bucket := by
      have hbucket := hl.bucket_step hc hk h ha hd.bucket
      cases hpush : pushedTo cfg (t, b) q.1 a <;> simpa [hpush] using hbucket }

theorem SweepOk.other (hok : SweepOk cfg t b found p q pushes)
    (hl : Linked cfg q.1 own content priv) (hc : Core q.1) (hk : ∀ o, CallbackOk cfg q.1 o)
    (h : Step cfg q.1 a q'.1) (hn : q'.2 = noteInflight cfg q.2 q.1 a q'.1)
    (ha : ∀ c, a ≠ .thread t c) (hbusy : q.1.thread t ≠ .idle) :
    SweepOk cfg t b found p q' (pushes ++ (pushedTo cfg (t, b) q.1 a).toList) := by
  obtain ⟨hthread, hsq, hcount⟩ := h.busy (n := q.2) ha hbusy
  rw [← hn] at hcount
  cases hok with
  | draining hpc hch hsq₀ hn₀ =>
      refine .draining (hthread.trans hpc) ?_ (hsq.trans hsq₀) (hcount.trans hn₀)
      have hbucket := hl.bucket_step hc hk h ha hch
      cases hpush : pushedTo cfg (t, b) q.1 a <;> simpa [hpush] using hbucket
  | walking hpc hd hch =>
      obtain ⟨hd', hnext⟩ := hd.other hl hc hk h ha hsq hcount
      rw [List.append_assoc]
      exact .walking (hthread.trans hpc) hd'
        (hch.congr fun o ho => hnext o (by simp [hd.split, ho]))
  | returning hpc hd hback hfull =>
      obtain ⟨hd', hnext⟩ := hd.other hl hc hk h ha hsq hcount
      rw [List.append_assoc]
      exact .returning (hthread.trans hpc) hd'
        (hback.congr fun o ho => hnext o (by simp [hd.split, ho])) hfull
  | ended hpc _ => exact absurd hpc hbusy

omit [DecidableEq O] [DecidableEq T] [DecidableEq S] in
/-- The pass is over: all operations of the chain have an entry, or no entry is left. -/
theorem Drained.swept (hd : Drained cfg t b l done rest after p q)
    (hend : rest = [] ∨ done.length = freeEntries cfg p.1 t)
    (hsq : (q'.1.ring t).sq = (q.1.ring t).sq) (hn : q'.2 t = q.2 t)
    (hnext : q'.1.heap.next = q.1.heap.next)
    (hbucket : Chain q'.1.heap.next (q'.1.heap.head (t, b)) (rest ++ after.reverse)) :
    Swept cfg t b l after p q' := by
  have hmin : min l.length (freeEntries cfg p.1 t) = done.length := by
    have hroom := hd.room
    have hlength := congrArg List.length hd.split
    rw [List.length_append] at hlength
    rcases hend with rfl | hfull
    · rw [List.length_nil] at hlength
      omega
    · omega
  have htake : l.take (min l.length (freeEntries cfg p.1 t)) = done := by
    rw [hmin, hd.split, List.take_left]
  have hdrop : l.drop (min l.length (freeEntries cfg p.1 t)) = rest := by
    rw [hmin, hd.split, List.drop_left]
  exact {
    nodup := hd.nodup
    sq := by rw [htake, hsq, hd.sq]
    inflight := by rw [hmin, hn, hd.inflight]
    cleared := by
      rw [htake, hnext]
      exact hd.cleared
    bucket := by rw [hdrop]; exact hbucket }

omit [DecidableEq S] in
/-- `add_inflight()` and `q.clear(op)` after `io_uring_get_sqe`. -/
theorem Drained.cancel {rest' : List O} {r : Ring O}
    (hd : Drained cfg t b l done (o :: rest') after p q)
    (hr : (q.1.ring t).getSqe (cfg.entries t) (.cancel o) = some r) {pc : ThreadPc O}
    (hs : q'.1 = { q.1.issue t r (.cancel o) with
      heap := q.1.heap.setNext o none }.setThread t pc)
    (hn : q'.2 t = q.2 t + 1) :
    Drained cfg t b l (done ++ [o]) rest' after p q' := by
  have ho : o ∈ l := by simp [hd.split]
  have hring : q'.1.ring t = r := by simp [hs, State.issue, State.setThread]
  have hsq := Ring.getSqe_eq hr
  exact {
    split := by simp [hd.split]
    nodup := hd.nodup
    resting := fun o' ho' => by
      simpa [hs, Resting, State.issue, State.setThread] using hd.resting o' ho'
    apart := hd.apart
    sq := by
      rw [hring, hsq, hd.sq]
      simp
    inflight := by
      rw [hn, hd.inflight, List.length_append, List.length_singleton, BitVec.ofNat_add]
      grind
    room := by
      have hroom : (q.1.ring t).sq.length < cfg.entries t := by
        by_contra hfull
        simp [Ring.getSqe, hfull] at hr
      rw [hd.sq, List.length_append, List.length_map] at hroom
      simp only [freeEntries, List.length_append, List.length_singleton]
      omega
    cleared := by
      intro o' ho'
      rw [hs]
      by_cases heq : o' = o
      · simp [State.setThread, heq]
      · have hmem : o' ∈ done := by simpa [heq] using ho'
        simpa [State.setThread, heq] using hd.cleared o' hmem
    bucket := by
      rw [hs]
      exact hd.bucket.update fun hmem => hd.apart o ho (List.mem_reverse.mp hmem) }

omit [DecidableEq S] in
/-- A step of the pass itself. -/
theorem SweepOk.step (hok : SweepOk cfg t b found p q pushes)
    (hl : Linked cfg q.1 own content priv) {c : Bool} (hs : threadStep cfg q.1 t c = some q'.1)
    (hn : q'.2 t = countThread cfg q.1 t (q.2 t)) (hbusy : q.1.thread t ≠ .idle) :
    SweepOk cfg t b found p q' pushes := by
  -- an access to the heap
  have hheap : ∀ {pc' : ThreadPc O} {h : Heap O (T × Bucket)},
      q'.1 = { q.1 with heap := h }.setThread t pc' → countThread cfg q.1 t (q.2 t) = q.2 t →
        q'.1.thread t = pc' ∧ q'.1.heap = h ∧ (q'.1.ring t).sq = (q.1.ring t).sq ∧
        q'.2 t = q.2 t ∧ ∀ o, Resting q.1 t o → Resting q'.1 t o := by
    intro pc' h heq hcount
    refine ⟨by simp [heq, State.setThread], by rw [heq]; rfl, by rw [heq]; rfl,
      by rw [hn, hcount], ?_⟩
    rw [heq]
    exact fun _ h => h
  cases hok with
  | @draining pc _ hpc hch hsq₀ hn₀ =>
      simp only [threadStep, hpc] at hs
      have hkept : countThread cfg q.1 t (q.2 t) = q.2 t := by simp [countThread, hpc]
      split at hs <;>
        obtain ⟨hpc', hheap', hsq, hcount, hrest⟩ := hheap (Option.some.inj hs).symm hkept
      · next hm =>
          rw [moveAllStep_running hm] at hheap'
          exact .draining hpc' (by rw [hheap']; exact hch) (hsq.trans hsq₀) (hcount.trans hn₀)
      · next hm =>
          obtain ⟨hop, hhead⟩ := moveAllStep_returned hm
          have hnext : q'.1.heap.next = q.1.heap.next := by rw [hheap', hhead]; rfl
          have hempty : q'.1.heap.head (t, b) = none := by simp [hheap', hhead]
          have hcontent := chain_unique hch (hl.chains.bucket_chain (t, b))
          have hd : Drained cfg t b (pushes.reverse ++ found) [] (pushes.reverse ++ found) []
              p q' := {
            split := rfl
            nodup := chain_nodup hch
            resting := fun o ho => hrest o (hl.resting (hcontent ▸ ho))
            apart := by simp
            sq := by simp [hsq, hsq₀]
            inflight := by simp [hcount, hn₀]
            room := by simp
            cleared := by simp
            bucket := hempty }
          have hwalk : SweepOk cfg t b found p q' (pushes ++ []) := by
            refine .walking hpc' hd ?_
            rw [hnext, hop]
            exact hch
          simpa using hwalk
  | @walking op before after done rest hpc hd hch =>
      simp only [threadStep, hpc] at hs
      cases op with
      | none =>
          have hkept : countThread cfg q.1 t (q.2 t) = q.2 t := by simp [countThread, hpc]
          obtain ⟨hpc', hheap', hsq, hcount, -⟩ := hheap (Option.some.inj hs).symm hkept
          obtain rfl := chain_none.mp hch
          refine .ended hpc' (hd.swept (.inl rfl) hsq hcount (by rw [hheap']) ?_)
          rw [hheap']
          exact hd.bucket
      | some op =>
          obtain ⟨rest', rfl, hrest⟩ := chain_some.mp hch
          simp only at hs
          split at hs
          · next r hr =>
              have heq := (Option.some.inj hs).symm
              have hcount : q'.2 t = q.2 t + 1 := by simp [hn, countThread, hpc, hr]
              have hd' := hd.cancel hr heq hcount
              have hop : op ∉ rest' := (List.nodup_cons.mp (chain_nodup hch)).1
              have hpc' : q'.1.thread t = .sweep b (q.1.heap.next op) := by
                rw [heq]
                simp [State.setThread, State.issue]
              refine .walking hpc' hd' ?_
              rw [heq]
              exact hrest.update hop
          · next hr =>
              have hkept : countThread cfg q.1 t (q.2 t) = q.2 t := by simp [countThread, hpc, hr]
              obtain ⟨hpc', hheap', hsq, hcount, hresting⟩ := hheap (Option.some.inj hs).symm hkept
              have hfull : done.length = freeEntries cfg p.1 t := by
                have hroom := hd.room
                have hnone : cfg.entries t ≤ (q.1.ring t).sq.length := by
                  by_contra hlt
                  simp [Ring.getSqe, Nat.not_le.mp hlt] at hr
                rw [hd.sq, List.length_append, List.length_map] at hnone
                simp only [freeEntries] at hroom ⊢
                omega
              have hd' : Drained cfg t b (before.reverse ++ found) done (op :: rest') after p q' :=
                { hd with
                  resting := fun o ho => hresting o (hd.resting o ho)
                  sq := hsq.trans hd.sq
                  inflight := hcount.trans hd.inflight
                  cleared := by rw [hheap']; exact hd.cleared
                  bucket := by rw [hheap']; exact hd.bucket }
              refine .returning hpc' hd' ?_ hfull
              rw [hheap']
              exact hch
  | @returning first pc before after done rest hpc hd hback hfull =>
      simp only [threadStep, hpc] at hs
      have hkept : countThread cfg q.1 t (q.2 t) = q.2 t := by simp [countThread, hpc]
      split at hs <;>
        obtain ⟨hpc', hheap', hsq, hcount, hresting⟩ := hheap (Option.some.inj hs).symm hkept
      · next hm =>
          obtain ⟨hback', hhead, hframe⟩ := pushAllStep_running hback hm
          have hnodup := hd.nodup
          rw [hd.split, List.nodup_append] at hnodup
          refine .returning hpc' { hd with
            resting := fun o ho => hresting o (hd.resting o ho)
            sq := hsq.trans hd.sq
            inflight := hcount.trans hd.inflight
            cleared := ?_
            bucket := ?_ } (by rw [hheap']; exact hback') hfull
          · intro o ho
            rw [hheap', hframe o fun hmem => hnodup.2.2 o ho o hmem rfl]
            exact hd.cleared o ho
          · rw [hheap', hhead]
            refine hd.bucket.congr fun o ho => hframe o fun hmem => ?_
            exact hd.apart o (by simp [hd.split, hmem]) (List.mem_reverse.mp ho)
      · next hm =>
          obtain ⟨seg, tail, hl', -, htail, -, hnext, -, hbucket⟩ := pushAllStep_returned hback hm
          -- the predicate holds of every node
          obtain rfl : tail = [] := by
            cases tail with
            | nil => rfl
            | cons o tail => simp at htail
          rw [List.append_nil] at hl'
          subst hl'
          refine .ended hpc' (hd.swept (.inr hfull) hsq hcount (by rw [hheap', hnext]) ?_)
          rw [hheap']
          exact hbucket _ hd.bucket
  | ended hpc _ => exact absurd hpc hbusy

end Pass

/-! ## The whole pass -/

/-- The runs that end, at the latest, where thread `t` leaves the program it is in. -/
def passMachine (cfg : Config O T S) (t : T) :
    Machine (State O T S × (T → BitVec 64)) (Label O T S) :=
  (inflightMachine cfg).restrict fun p _ => p.1.thread t ≠ .idle

section Run

variable {p q q' : State O T S × (T → BitVec 64)} {found pushes : List O}

theorem passMachine_step (hs : (passMachine cfg t).step q a = some q') :
    q.1.thread t ≠ .idle ∧ (inflightMachine cfg).step q a = some q' := by
  simp only [passMachine, Machine.restrict] at hs
  split at hs
  · next hbusy => exact ⟨hbusy, hs⟩
  · cases hs

theorem SweepOk.run (hok : SweepOk cfg t b found p q pushes)
    (hr : (inflightMachine cfg).Reachable q) (hrun : (passMachine cfg t).run q as = some q') :
    SweepOk cfg t b found p q' (pushes ++ (machine cfg).history (pushedTo cfg (t, b)) q.1 as) := by
  induction as generalizing q pushes with
  | nil =>
      obtain rfl : q = q' := by simpa using hrun
      simpa [Machine.history] using hok
  | cons a as ih =>
      obtain ⟨u, hu, hrun⟩ := (passMachine cfg t).run_cons_some.mp hrun
      obtain ⟨hbusy, hu⟩ := passMachine_step hu
      obtain ⟨hs, hn⟩ := Machine.observed_step.mp hu
      have hreach : (machine cfg).Reachable q.1 := Machine.Reachable.fst hr
      obtain ⟨own, content, priv, hl⟩ := reachable_linked hreach
      rw [Machine.history_cons_some hs, ← List.append_assoc]
      refine ih ?_ (hr.next trivial hu) hrun
      by_cases ha : ∃ c, a = .thread t c
      · obtain ⟨c, rfl⟩ := ha
        have hnone : pushedTo cfg (t, b) q.1 (.thread t c) = none := rfl
        rw [hnone]
        have hcount : u.2 t = countThread cfg q.1 t (q.2 t) := by simp [hn, noteInflight]
        simpa using hok.step hl hs hcount hbusy
      · exact hok.other hl (reachable_core hreach) (reachable_callbackOk hreach) (.of_step hs) hn
          (fun c heq => ha ⟨c, heq⟩) hbusy

end Run

/-! ## The pass returns -/

/-- At most `n` steps of its own are left to the pass of `t` over `b` when no other thread
moves and no compare-exchange fails spuriously. -/
inductive SweepLeft (s : State O T S) (t : T) (b : Bucket) : Nat → Prop
  | load {l : List O} (hpc : s.thread t = .sweepMove b .load)
      (hch : Chain s.heap.next (s.heap.head (t, b)) l) : SweepLeft s t b (l.length + 9)
  | cas {node : Option O} {l : List O} (hpc : s.thread t = .sweepMove b (.cas node))
      (hch : Chain s.heap.next (s.heap.head (t, b)) l) :
      SweepLeft s t b (l.length + if s.heap.head (t, b) = node then 7 else 8)
  | walk {op : Option O} {rest : List O} (hpc : s.thread t = .sweep b op)
      (hch : Chain s.heap.next op rest) : SweepLeft s t b (rest.length + 6)
  | test {first : Option O} {rest : List O} (hpc : s.thread t = .sweepBack b first .test)
      (hch : Chain s.heap.next first rest) : SweepLeft s t b (rest.length + 5)
  | last {first : Option O} {last : O} {rest : List O}
      (hpc : s.thread t = .sweepBack b first (.walk last))
      (hch : Chain s.heap.next (s.heap.next last) rest) : SweepLeft s t b (rest.length + 4)
  | reload {first : Option O} {last : O} (hpc : s.thread t = .sweepBack b first (.load last)) :
      SweepLeft s t b 3
  | write {first node : Option O} {last : O}
      (hpc : s.thread t = .sweepBack b first (.write last node)) :
      SweepLeft s t b (if s.heap.head (t, b) = node then 2 else 4)
  | splice {first node : Option O} {last : O}
      (hpc : s.thread t = .sweepBack b first (.cas last node)) :
      SweepLeft s t b (if s.heap.head (t, b) = node then 1 else 3)
  | ended (hpc : s.thread t = .idle) : SweepLeft s t b 0

theorem SweepLeft.next (cfg : Config O T S) {n : Nat} (h : SweepLeft s t b n) : s.thread t = .idle ∨
    ∃ s' k, step cfg s (.thread t false) = some s' ∧ k < n ∧ SweepLeft s' t b k := by
  have hthread (pc : ThreadPc O) (h : Heap O (T × Bucket)) :
      ({ s with heap := h }.setThread t pc).thread t = pc := by simp [State.setThread]
  cases h with
  | ended hpc => exact .inl hpc
  | @load l hpc hch =>
      right
      have hleft := SweepLeft.cas (hthread (.sweepMove b (.cas (s.heap.head (t, b)))) s.heap) hch
      refine ⟨_, _, by simp only [step, threadStep, hpc, moveAllStep], ?_, hleft⟩
      simp [State.setThread]
  | @cas node l hpc hch =>
      right
      by_cases hfresh : s.heap.head (t, b) = node
      · have hrest : Chain (s.heap.setHead (t, b) none).next node l := hfresh ▸ hch
        have hleft := SweepLeft.walk (hthread (.sweep b node) (s.heap.setHead (t, b) none)) hrest
        refine ⟨_, _, by simp [step, threadStep, hpc, moveAllStep, hfresh], ?_, hleft⟩
        simp [hfresh]
      · have hleft := SweepLeft.cas (hthread (.sweepMove b (.cas (s.heap.head (t, b)))) s.heap) hch
        refine ⟨_, _, by simp [step, threadStep, hpc, moveAllStep, hfresh], ?_, hleft⟩
        simp [State.setThread, hfresh]
  | @walk op rest hpc hch =>
      right
      cases op with
      | none =>
          have hleft := SweepLeft.ended (b := b) (hthread .idle s.heap)
          exact ⟨_, _, by simp only [step, threadStep, hpc], by omega, hleft⟩
      | some op =>
          obtain ⟨rest', rfl, hrest⟩ := chain_some.mp hch
          cases hr : (s.ring t).getSqe (cfg.entries t) (.cancel op) with
          | some r =>
              have hop : op ∉ rest' := (List.nodup_cons.mp (chain_nodup hch)).1
              have hleft : SweepLeft ({ s.issue t r (.cancel op) with
                  heap := s.heap.setNext op none }.setThread t (.sweep b (s.heap.next op))) t b
                  (rest'.length + 6) :=
                .walk (by simp [State.setThread]) (hrest.update hop)
              exact ⟨_, _, by simp only [step, threadStep, hpc, hr], by simp, hleft⟩
          | none =>
              have hleft := SweepLeft.test (hthread (.sweepBack b (some op) .test) s.heap) hch
              exact ⟨_, _, by simp only [step, threadStep, hpc, hr], by simp, hleft⟩
  | @test first rest hpc hch =>
      right
      cases first with
      | none =>
          have hleft := SweepLeft.ended (b := b) (hthread .idle s.heap)
          exact ⟨_, _, by simp only [step, threadStep, hpc, pushAllStep], by omega, hleft⟩
      | some op =>
          obtain ⟨rest', rfl, hrest⟩ := chain_some.mp hch
          have hleft :=
            SweepLeft.last (hthread (.sweepBack b (some op) (.walk op)) s.heap) hrest
          exact ⟨_, _, by simp only [step, threadStep, hpc, pushAllStep, if_true], by simp, hleft⟩
  | @last first last rest hpc hch =>
      right
      cases hnext : s.heap.next last with
      | none =>
          have hleft := SweepLeft.reload (hthread (.sweepBack b first (.load last)) s.heap)
          exact ⟨_, _, by simp only [step, threadStep, hpc, pushAllStep, hnext], by omega, hleft⟩
      | some op =>
          rw [hnext] at hch
          obtain ⟨rest', rfl, hrest⟩ := chain_some.mp hch
          have hleft := SweepLeft.last (hthread (.sweepBack b first (.walk op)) s.heap) hrest
          exact ⟨_, _, by simp only [step, threadStep, hpc, pushAllStep, hnext, if_true], by simp,
            hleft⟩
  | @reload first last hpc =>
      right
      have hleft := SweepLeft.write
        (hthread (.sweepBack b first (.write last (s.heap.head (t, b)))) s.heap)
      refine ⟨_, _, by simp only [step, threadStep, hpc, pushAllStep], ?_, hleft⟩
      simp [State.setThread]
  | @write first node last hpc =>
      right
      have hleft := SweepLeft.splice
        (hthread (.sweepBack b first (.cas last node)) (s.heap.setNext last node))
      refine ⟨_, _, by simp only [step, threadStep, hpc, pushAllStep], ?_, hleft⟩
      by_cases hfresh : s.heap.head (t, b) = node <;> simp [State.setThread, hfresh]
  | @splice first node last hpc =>
      right
      by_cases hfresh : s.heap.head (t, b) = node
      · have hleft := SweepLeft.ended (b := b) (hthread .idle (s.heap.setHead (t, b) first))
        refine ⟨_, _, by simp [step, threadStep, hpc, pushAllStep, hfresh], ?_, hleft⟩
        simp [hfresh]
      · have hleft := SweepLeft.write
          (hthread (.sweepBack b first (.write last (s.heap.head (t, b)))) s.heap)
        refine ⟨_, _, by simp [step, threadStep, hpc, pushAllStep, hfresh], ?_, hleft⟩
        simp [State.setThread, hfresh]

omit [DecidableEq T] [DecidableEq S] in
theorem SweepOk.left {p q : State O T S × (T → BitVec 64)} {found pushes : List O}
    (hok : SweepOk cfg t b found p q pushes) : ∃ n, SweepLeft q.1 t b n := by
  cases hok with
  | @draining pc _ hpc hch _ _ =>
      cases pc with
      | load => exact ⟨_, .load hpc hch⟩
      | cas node => exact ⟨_, .cas hpc hch⟩
  | walking hpc _ hch => exact ⟨_, .walk hpc hch⟩
  | @returning first pc _ _ _ _ hpc _ hback _ =>
      cases pc with
      | test => exact ⟨_, .test hpc hback⟩
      | walk last =>
          obtain ⟨seg, rest, rfl, -, hch⟩ := hback
          exact ⟨_, .last hpc (chain_split hch).2⟩
      | load last => exact ⟨_, .reload hpc⟩
      | write last node => exact ⟨_, .write hpc⟩
      | cas last node => exact ⟨_, .splice hpc⟩
  | ended hpc _ => exact ⟨_, .ended hpc⟩

/-- Whatever the others have done so far, a pass returns by steps of its own. -/
theorem SweepLeft.returns {n : Nat} {q : State O T S × (T → BitVec 64)}
    (h : SweepLeft q.1 t b n) : ∃ as q', (∀ a ∈ as, a = .thread t false) ∧
      (passMachine cfg t).run q as = some q' ∧ q'.1.thread t = .idle := by
  refine Machine.leads (P := fun n q => SweepLeft q.1 t b n) ?_ h
  intro n q h
  by_cases hidle : q.1.thread t = .idle
  · exact .inl hidle
  · rcases h.next cfg with hpc | ⟨s', k, hs, hk, hleft⟩
    · exact .inl hpc
    · have hstep : (inflightMachine cfg).step q (.thread t false) =
          some (s', noteInflight cfg q.2 q.1 (.thread t false) s') :=
        Machine.observed_step.mpr ⟨hs, rfl⟩
      have hpass : (passMachine cfg t).step q (.thread t false) =
          some (s', noteInflight cfg q.2 q.1 (.thread t false) s') :=
        (if_pos hidle).trans hstep
      exact .inr ⟨_, _, k, rfl, hpass, hk, hleft⟩

/-- A pass over a bucket in any run, from the first access of `move_all` on, whatever the
bucket holds, however many entries are free and whatever the others push meanwhile: when
it returns it has cancelled as many operations of the chain that it took as there were
entries, each once, and the bucket holds the rest in its order and what was pushed since;
and wherever it is, it returns by steps of its own. -/
theorem sweep_exact {p p' : State O T S × (T → BitVec 64)}
    (hr : (inflightMachine cfg).Reachable p) (hpc : p.1.thread t = .sweepMove b .load)
    {found : List O} (hfound : Chain p.1.heap.next (p.1.heap.head (t, b)) found)
    (hrun : (passMachine cfg t).run p as = some p') :
    (p'.1.thread t = .idle → ∃ before after,
      (machine cfg).history (pushedTo cfg (t, b)) p.1 as = before ++ after ∧
      Swept cfg t b (before.reverse ++ found) after p p') ∧
    ∃ as' p'', (∀ a ∈ as', a = .thread t false) ∧
      (passMachine cfg t).run p' as' = some p'' ∧ p''.1.thread t = .idle := by
  have hstart : SweepOk cfg t b found p p [] := .draining hpc hfound rfl rfl
  have hok := hstart.run hr hrun
  rw [List.nil_append] at hok
  refine ⟨fun hidle => ?_, ?_⟩
  · generalize (machine cfg).history (pushedTo cfg (t, b)) p.1 as = pushes at hok
    cases hok with
    | draining hpc => simp [hpc] at hidle
    | walking hpc => simp [hpc] at hidle
    | returning hpc => simp [hpc] at hidle
    | ended _ hs => exact ⟨_, _, rfl, hs⟩
  · obtain ⟨n, hleft⟩ := hok.left
    exact hleft.returns

section Sweep

/-- Four operations in one bucket, and a ring of one entry. -/
def fullRingConfig : Config (Fin 4) (Fin 2) Unit :=
  { uninstallConfig with entries := fun _ => 1 }

/-- Operations 0 and 1 are in the bucket of thread 0 when the pass begins. -/
def enterFullRing : List (Label (Fin 4) (Fin 2) Unit) :=
  (List.finRange 4).flatMap (fun o => [.start 0 o, .thread 0 false, .thread 0 false,
    .thread 0 false, .submit 0 1]) ++ [.requestStop ()] ++ (List.finRange 4).map .fire ++
  ([0, 1] : List (Fin 4)).flatMap (fun o => List.replicate 3 (.push o false)) ++
  [.sweep 0 (robinAccess 3)]

/-- Operation 2 is pushed before the bucket is taken, operation 3 when the ring is full. -/
def fullRingRun : List (Label (Fin 4) (Fin 2) Unit) :=
  List.replicate 3 (.push 2 false) ++ List.replicate 4 (.thread 0 false) ++
    List.replicate 3 (.push 3 false) ++ List.replicate 6 (.thread 0 false)

/-- One entry is free for a chain of three. -/
theorem sweep_exact_full : ∃ (p p' : State (Fin 4) (Fin 2) Unit × (Fin 2 → BitVec 64))
    (before after : List (Fin 4)),
    freeEntries fullRingConfig p.1 0 = 1 ∧ before ++ after = [2, 3] ∧
      Swept fullRingConfig 0 (robinAccess 3) (before.reverse ++ [1, 0]) after p p' := by
  have henter : ∃ p,
      (inflightMachine fullRingConfig).run (uninstallStart, fun _ => 0) enterFullRing = some p ∧
      p.1.thread 0 = .sweepMove (robinAccess 3) .load ∧
      Chain p.1.heap.next (p.1.heap.head (0, robinAccess 3)) [1, 0] ∧
      freeEntries fullRingConfig p.1 0 = 1 ∧
      (machine fullRingConfig).history (pushedTo fullRingConfig (0, robinAccess 3)) p.1
        fullRingRun = [2, 3] ∧
      ∃ p', (passMachine fullRingConfig 0).run p fullRingRun = some p' ∧ p'.1.thread 0 = .idle :=
    ⟨_, rfl, rfl, ⟨rfl, rfl, rfl⟩, rfl, by decide, _, rfl, rfl⟩
  obtain ⟨p, hp, hpc, hch, hfree, hpush, p', hp', hidle⟩ := henter
  have hinit : Init uninstallStart := by simp [Init, uninstallStart]
  obtain ⟨before, after, hsplit, hswept⟩ :=
    (sweep_exact (Machine.Reachable.observed hinit hp) hpc hch hp').1 hidle
  exact ⟨p, p', before, after, hfree, hsplit.symm.trans hpush, hswept⟩

end Sweep

end IoUring.Exec.Operation
