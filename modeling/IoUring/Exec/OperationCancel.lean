import IoUring.Exec.OperationReuse

/-!
# Whom a cancel SQE cancels

A cancel SQE is prepared for an operation whose request is on the same ring. The
CQE of that request is consumed, and the operation destroyed, only by the thread
that prepared the cancel, so the request of a new operation at the address is
prepared later and stands behind the cancel in the ring.
-/

namespace IoUring.Exec.Operation

variable {O T S : Type*} [DecidableEq O] [DecidableEq T]

/-! ## What a step does to the rings and to the chains in hand -/

/-- Submission keeps the order of the entries. -/
theorem submit_entries {O : Type*} (r : Ring O) (n : Nat) :
    (r.submit n).flight ++ (r.submit n).sq = r.flight ++ r.sq := by
  simp [Ring.submit]

/-- A taken entry is the last one. -/
theorem getSqe_entries {O : Type*} {r r' : Ring O} {entries : Nat} {e : Sqe O}
    (h : r.getSqe entries e = some r') :
    r'.flight ++ r'.sq = r.flight ++ r.sq ++ [e] := by
  simp [Ring.getSqe_eq h]

section Step

variable [DecidableEq S] {cfg : Config O T S} {s s' : State O T S} {a : Label O T S} {t : T} {o : O}
  {own : O → Owner T} {content : T × Bucket → List O} {priv : T → List O}

theorem Step.stopRequested (h : Step cfg s a s') (hstop : s.stopRequested cfg o = true) :
    s'.stopRequested cfg o = true := by
  cases h with
  | requestStop => exact stopRequested_mono hstop
  | _ => exact hstop

/-- Step `a` prepares entries at the end of the ring of `t`, a cancel only for an
operation at which the stopping pass of `t` stands. -/
def Grows (s s' : State O T S) (a : Label O T S) (t : T) : Prop :=
  ∃ l, s'.issued t = l.reverse ++ s.issued t ∧
    (s'.ring t).flight ++ (s'.ring t).sq =
      Reused.remaining t ((s.ring t).flight ++ (s.ring t).sq) a ++ l ∧
    ∀ o, .cancel o ∈ l → ∃ b, s.thread t = .sweep b (some o)

theorem Step.grows (h : Step cfg s a s') (t : T) : Grows s s' a t := by
  have hsame (hissued : s'.issued t = s.issued t)
      (hring : (s'.ring t).flight ++ (s'.ring t).sq =
        Reused.remaining t ((s.ring t).flight ++ (s.ring t).sq) a) :
      Grows s s' a t :=
    ⟨[], by simpa using hissued, by simpa using hring, by simp⟩
  -- one entry is taken from the ring of thread `u`
  have hissue (u : T) (e : Sqe O) (r : Ring O)
      (hissued : s'.issued = Function.update s.issued u (e :: s.issued u))
      (hring : s'.ring = Function.update s.ring u r)
      (hr : r.flight ++ r.sq = (s.ring u).flight ++ (s.ring u).sq ++ [e])
      (hrem : ∀ l : List (Sqe O), Reused.remaining t l a = l)
      (he : ∀ o, e = .cancel o → ∃ b, s.thread u = .sweep b (some o)) :
      Grows s s' a t := by
    by_cases ht : t = u
    · subst ht
      refine ⟨[e], by simp [hissued], by simp [hring, hr, hrem], ?_⟩
      intro o ho
      exact he o (by simpa [eq_comm] using ho)
    · exact hsame (by simp [hissued, ht]) (by simp [hring, ht, hrem])
  -- the ring of thread `u` keeps its entries
  have hkeep (u : T) (r : Ring O) (hissued : s'.issued = s.issued)
      (hring : s'.ring = Function.update s.ring u r)
      (hr : r.flight ++ r.sq = (s.ring u).flight ++ (s.ring u).sq)
      (hrem : ∀ l : List (Sqe O), Reused.remaining t l a = l) :
      Grows s s' a t := by
    apply hsame (by rw [hissued])
    by_cases ht : t = u
    · subst ht
      simp [hring, hr, hrem]
    · simp [hring, ht, hrem]
  cases h with
  | @sqe u o c r hpc hr =>
      exact hissue u (.request o) r rfl rfl (getSqe_entries hr) (fun _ => rfl) (by simp)
  | @sweepCancel u b c op r hpc hr =>
      refine hissue u (.cancel op) r rfl rfl (getSqe_entries hr) (fun _ => rfl) ?_
      intro o ho
      obtain rfl := Sqe.cancel.inj ho
      exact ⟨b, hpc⟩
  | @cancelAny u r hpc hopen hr =>
      refine hissue u .cancelAny _ rfl rfl ?_ (fun _ => rfl) (by simp)
      rw [submit_entries, getSqe_entries hr, submit_entries]
  | @submit u n hpc hopen => exact hkeep u _ rfl rfl (submit_entries _ n) fun _ => rfl
  | @restart u o res pass c hpc hd => exact hkeep u _ rfl rfl (by simp [Ring.advance]) fun _ => rfl
  | @complete u o res pass c sig hpc hd =>
      exact hkeep u _ rfl rfl (by simp [Ring.advance]) fun _ => rfl
  | @consumeNoop u pass res l hpc hopen hcq =>
      exact hkeep u _ rfl rfl (by simp [Ring.advance]) fun _ => rfl
  | @post u i res e r hr =>
      apply hsame rfl
      by_cases ht : t = u
      · subst ht
        simp only [Ring.post] at hr
        split at hr
        · next e' he =>
            obtain ⟨hi, -⟩ := List.getElem?_eq_some_iff.mp he
            obtain ⟨rfl, rfl⟩ : e' = e ∧ _ = r := by simpa using hr
            simp [Reused.remaining, List.eraseIdx_append_of_lt_length hi]
        · cases hr
      · simp [Reused.remaining, ht]
  | _ => exact hsame rfl rfl

/-- A step of another thread leaves the links of the nodes in hand alone. -/
theorem Linked.next_frame (hl : Linked cfg s own content priv) (h : Step cfg s a s')
    (hin : o ∈ priv t) (ha : ∀ c, a ≠ .thread t c) : s'.heap.next o = s.heap.next o := by
  have hown : own o = .thread t := (hl.chains.mem_priv t o).mp hin
  refine hl.next_kept h ((hl.ops o).priv t hown).1 (fun pc hcb => ?_) ha
  rcases (hl.ops o).ran (by simp [hown]) with hran | hran <;> simp [hcb] at hran

omit [DecidableEq T] [DecidableEq S] in
/-- What the stopping pass of a thread has still in hand. -/
theorem Linked.sweep_chain (hl : Linked cfg s own content priv) {b : Bucket} {op : Option O}
    (hpc : s.thread t = .sweep b op) : Chain s.heap.next op (priv t) := by
  have hok := hl.chains.private_ok t
  rwa [hpc] at hok

/-- How a thread comes to a point of the walk of its stopping pass. -/
theorem Step.sweep_cases (h : Step cfg s a s') {b : Bucket} {op : Option O}
    (hpc : s'.thread t = .sweep b op) :
    (s.thread t = .sweep b op ∧ ∀ c, a ≠ .thread t c) ∨
      (∃ pc, s.thread t = .sweepMove b pc) ∨
      ∃ p, s.thread t = .sweep b (some p) ∧ op = s.heap.next p ∧
        s'.heap.next = Function.update s.heap.next p none := by
  have hother {u : T} {pc : ThreadPc O} (hs : s'.thread = Function.update s.thread u pc)
      (hne : ∀ b op, pc ≠ .sweep b op) : s.thread t = .sweep b op ∧ t ≠ u := by
    by_cases ht : t = u
    · subst ht
      rw [hs, Function.update_self] at hpc
      exact absurd hpc (hne b op)
    · rw [hs, Function.update_of_ne ht] at hpc
      exact ⟨hpc, ht⟩
  have hthread {u : T} {pc : ThreadPc O} {c : Bool} (ha : a = .thread u c)
      (hs : s'.thread = Function.update s.thread u pc) (hne : ∀ b op, pc ≠ .sweep b op) :
      s.thread t = .sweep b op ∧ ∀ c, a ≠ .thread t c := by
    obtain ⟨hold, ht⟩ := hother hs hne
    refine ⟨hold, fun c' h => ht ?_⟩
    rw [ha, Label.thread.injEq] at h
    exact h.1.symm
  cases h with
  | @sweepMoved u b' c pc op' h hpc' hm =>
      by_cases ht : t = u
      · subst ht
        obtain ⟨rfl, rfl⟩ : b' = b ∧ op' = op := by simpa [State.setThread] using hpc
        exact .inr (.inl ⟨pc, hpc'⟩)
      · exact .inl ⟨by simpa [State.setThread, ht] using hpc, by simp [Ne.symm ht]⟩
  | @sweepCancel u b' c p r hpc' hr =>
      by_cases ht : t = u
      · subst ht
        obtain ⟨rfl, rfl⟩ : b' = b ∧ s.heap.next p = op := by
          simpa [State.setThread, State.issue] using hpc
        exact .inr (.inr ⟨p, hpc', rfl, rfl⟩)
      · exact .inl ⟨by simpa [State.setThread, State.issue, ht] using hpc, by simp [Ne.symm ht]⟩
  | start hpc' hopen hst => exact .inl ⟨(hother rfl (by simp)).1, by simp⟩
  | launch hpc' hopen hst hscope => exact .inl ⟨(hother rfl (by simp)).1, by simp⟩
  | consume hpc' hopen hcq => exact .inl ⟨(hother rfl (by simp)).1, by simp⟩
  | sweep hpc' hopen => exact .inl ⟨(hother rfl (by simp)).1, by simp⟩
  | launchStopped | cancelTask | requestStop | stopScope | fire | push | pushed | submit |
    cancelAny | post | consumeNoop | close => exact .inl ⟨hpc, by simp⟩
  | _ => exact .inl (hthread rfl rfl (by simp))

omit [DecidableEq S] in
/-- A request that is prepared or in the hands of the kernel. -/
theorem Core.status_of_request (hc : Core s)
    (h : .request o ∈ (s.ring t).flight ++ (s.ring t).sq) : s.status o = .onRing t := by
  apply hc.status_of_token
  have hdata : some o ∈ ((s.ring t).flight ++ (s.ring t).sq).map Sqe.data :=
    List.mem_map.mpr ⟨_, h, rfl⟩
  have hpos := List.count_pos_iff.mpr hdata
  simp only [List.map_append, List.count_append] at hpos
  simp only [Ring.tokens]
  omega

end Step

/-! ## A new operation at an address -/

section Construct

variable {cfg : Config O T S} {s : State O T S} {o p : O} {loc : T} {own : O → Owner T}
  {content : T × Bucket → List O} {priv : T → List O} {token : O → Option S} {timer : O → Bool}

theorem Core.construct (hc : Core s) (hst : s.status o = .fresh ∨ s.status o = .completed) :
    Core (Reused.construct s o loc) where
  busy := by
    intro t p
    have hbusy := hc.busy t p
    by_cases hp : p = o
    · subst hp
      rcases hst with hst | hst <;> simpa [Reused.construct, hst] using hbusy
    · simpa [Reused.construct, hp] using hbusy
  installing := by
    intro t p hpc
    have hring := hc.installing t p hpc
    by_cases hp : p = o
    · subst hp
      rcases hst with hst | hst <;> simp [hst] at hring
    · simpa [Reused.construct, hp] using hring
  consuming := hc.consuming
  tokens := by
    intro t p
    have htok := hc.tokens t p
    by_cases hp : p = o
    · subst hp
      rcases hst with hst | hst <;> simpa [Reused.construct, hst] using htok
    · simpa [Reused.construct, hp] using htok
  signals := by
    intro p
    by_cases hp : p = o
    · subst hp
      simp [Reused.construct]
    · simpa [Reused.construct, hp] using hc.signals p
  tasks := by
    intro p
    by_cases hp : p = o
    · subst hp
      simp [Reused.construct, TasksOk]
    · simpa [Reused.construct, hp] using hc.tasks p

theorem CallbackOk.construct (hk : CallbackOk cfg s p) (hc : Core (Reused.construct s o loc))
    (htok : p ≠ o → token p = cfg.token p) :
    CallbackOk { cfg with token, timer } (Reused.construct s o loc) p := by
  by_cases hp : p = o
  · subst hp
    exact .away hc (by simp [Reused.construct]) (by simp [Reused.construct])
  · have htok := htok hp
    exact {
      live := by simpa [Reused.construct, hp, htok] using hk.live
      fired := by simpa [Reused.construct, hp, htok, State.stopRequested] using hk.fired
      reset := by simpa [Reused.construct, hp] using hk.reset
      token := by simpa [Reused.construct, htok] using hk.token
      scheduler := by simpa [Reused.construct, hp, htok] using hk.scheduler
      silent := by simpa [Reused.construct, hp, htok] using hk.silent
      issued := by simpa [Reused.construct, hp] using hk.issued }

omit [DecidableEq O] [DecidableEq T] in
theorem work_config (pc : ThreadPc O) : pc.work { cfg with token, timer } = pc.work cfg := by
  cases pc <;> rfl

omit [DecidableEq T] in
theorem LinkOk.construct (hl : LinkOk cfg s own p) (hfree : own o = .nobody)
    (htok : p ≠ o → token p = cfg.token p) :
    LinkOk { cfg with token, timer } (Reused.construct s o loc) own p := by
  by_cases hp : p = o
  · subst hp
    exact {
      bucket := by simp [hfree]
      priv := by simp [hfree]
      stopped := by simp [hfree]
      ran := by simp [hfree]
      cas := by simp [Reused.construct]
      detached := by simp [hfree]
      past := fun _ _ => hfree
      clean := fun _ _ => ⟨hfree, by simp [Reused.construct]⟩
      stale := by simp [Reused.construct]
      seen := by simp [Reused.construct] }
  · have htok := htok hp
    exact {
      bucket := by simpa [Reused.construct, hp, stoppingQueue] using hl.bucket
      priv := by
        intro t hown
        obtain ⟨hst, hloc, hwork⟩ := hl.priv t hown
        exact ⟨by simpa [Reused.construct, hp] using hst,
          by simpa [Reused.construct, hp] using hloc, (work_config _).trans hwork⟩
      stopped := by simpa [Reused.construct, htok, State.stopRequested] using hl.stopped
      ran := by simpa [Reused.construct, hp] using hl.ran
      cas := by simpa [Reused.construct, hp] using hl.cas
      detached := hl.detached
      past := hl.past
      clean := by simpa [Reused.construct, hp] using hl.clean
      stale := by simpa [Reused.construct, hp, htok, State.stopRequested] using hl.stale
      seen := by simpa [Reused.construct, hp] using hl.seen }

omit [DecidableEq T] in
theorem Linked.construct (hl : Linked cfg s own content priv) (hfree : own o = .nobody)
    (htok : ∀ p, p ≠ o → token p = cfg.token p) :
    Linked { cfg with token, timer } (Reused.construct s o loc) own content priv := by
  have hwrite : Chains { s with heap := s.heap.setNext o none, callback := s.callback }
      own content priv := hl.chains.pushWrite hfree
  exact ⟨{ hwrite with }, fun p => (hl.ops p).construct hfree (htok p)⟩

end Construct

/-! ## The invariant -/

namespace Reused

variable {cfg : Config O T S} {s s' : Reused O T S} {t : T} {o : O}

/-- What holds of the operations that live now, as without reuse of addresses. -/
structure BaseOk (cfg : Config O T S) (b : State O T S) : Prop where
  core : Core b
  callback : ∀ o, CallbackOk cfg b o
  linked : ∃ own content priv, Linked cfg b own content priv

/-- `current`: the request of an earlier operation is finished before the address is
used again. `ordered`: behind a request, a cancel for its address is meant for its
operation. -/
structure Inv (cfg : Config O T S) (s : Reused O T S) : Prop where
  base : BaseOk (s.config cfg) s.base
  line : ∀ t, (s.line t).map Prod.fst = (s.base.ring t).flight ++ (s.base.ring t).sq
  current : ∀ t o g, (.request o, g) ∈ s.line t → g = s.serial o
  ordered : ∀ t, (s.line t).Pairwise fun x y => ∀ o, x.1 = .request o → y.1 = .cancel o → y.2 = x.2
  stopped : ∀ t o g, (.cancel o, g) ∈ s.line t →
    g ≤ s.serial o ∧ (g = s.serial o → s.base.stopRequested (s.config cfg) o = true)
  drained : ∀ t b op l, s.base.thread t = .sweep b op → Chain s.base.heap.next op l →
    ∀ o ∈ l, s.drained t o = s.serial o

theorem init_inv (h : Init s) : Inv cfg s := by
  obtain ⟨hbase, hline, -⟩ := h
  have hring : ∀ t, s.base.ring t = .empty := hbase.2.2.2.2.1
  have hthread : ∀ t, s.base.thread t = .idle := hbase.2.2.2.2.2.2.1
  exact {
    base := ⟨init_core hbase, init_callbackOk hbase, _, _, _, init_chains hbase, init_linkOk hbase⟩
    line := by simp [hline, hring, Ring.empty]
    current := by simp [hline]
    ordered := by simp [hline]
    stopped := by simp [hline]
    drained := by simp [hthread] }

/-! ## The line of a ring -/

omit [DecidableEq O] in
theorem map_remaining {β γ : Type*} (f : β → γ) (t : T) (l : List β) (a : Label O T S) :
    (remaining t l a).map f = remaining t (l.map f) a := by
  cases a with
  | post u i res =>
      by_cases ht : t = u <;> simp [remaining, ht, List.eraseIdx_map]
  | _ => rfl

omit [DecidableEq O] in
theorem remaining_sublist {β : Type*} (t : T) (l : List β) (a : Label O T S) :
    (remaining t l a).Sublist l := by
  cases a with
  | post u i res =>
      by_cases ht : t = u
      · simpa [remaining, ht] using List.eraseIdx_sublist l i
      · simp [remaining, ht]
  | _ => exact List.Sublist.refl l

omit [DecidableEq O] [DecidableEq T] in
theorem taken_eq {b b' : State O T S} {l : List (Sqe O)}
    (h : b'.issued t = l.reverse ++ b.issued t) : taken b b' t = l := by
  simp [taken, h]

omit [DecidableEq O] [DecidableEq T] in
theorem tag_fst (e : Sqe O) : (s.tag t e).1 = e := by
  cases e <;> rfl

/-- The stopping pass prepares a cancel for the operation that it has drained, whose stop was
requested. -/
theorem Inv.sweeping (hi : Inv cfg s) {b : Bucket} (hpc : s.base.thread t = .sweep b (some o)) :
    s.drained t o = s.serial o ∧ s.base.stopRequested (s.config cfg) o = true := by
  obtain ⟨own, content, priv, hl⟩ := hi.base.linked
  have hch := hl.sweep_chain hpc
  have hmem : o ∈ priv t := by
    obtain ⟨l, hcons, -⟩ := chain_some.mp hch
    simp [hcons]
  have hown : own o = .thread t := (hl.chains.mem_priv t o).mp hmem
  exact ⟨hi.drained t b _ _ hpc hch o hmem, (hl.ops o).stopped (by simp [hown])⟩

/-- New entries come to the end of each line. -/
theorem Inv.advance (hi : Inv cfg s) {a : Label O T S} {b : State O T S}
    (hbase : BaseOk (s.config cfg) b)
    (hgrows : ∀ t, Grows s.base b a t)
    (hstop : ∀ o, s.base.stopRequested (s.config cfg) o = true →
      b.stopRequested (s.config cfg) o = true)
    (hdrained : ∀ t bk op l, b.thread t = .sweep bk op → Chain b.heap.next op l →
      ∀ o ∈ l, (s.advance a b).drained t o = s.serial o) :
    Inv cfg (s.advance a b) := by
  -- an entry was on the line before, or it is tagged with the operation that lives now
  have hmem : ∀ t e g, (e, g) ∈ (s.advance a b).line t → (e, g) ∈ s.line t ∨
      ∃ e' ∈ taken s.base b t, s.tag t e' = (e, g) := by
    intro t e g h
    rcases List.mem_append.mp h with h | h
    · exact .inl ((remaining_sublist t _ a).subset h)
    · exact .inr (by simpa using h)
  have hnew : ∀ t o, .cancel o ∈ taken s.base b t →
      s.drained t o = s.serial o ∧ s.base.stopRequested (s.config cfg) o = true := by
    intro t o h
    obtain ⟨l, hl, -, hcancel⟩ := hgrows t
    rw [taken_eq hl] at h
    obtain ⟨bk, hpc⟩ := hcancel o h
    exact hi.sweeping hpc
  have hcurrent : ∀ t o g, (.request o, g) ∈ (s.advance a b).line t → g = s.serial o := by
    intro t o g h
    rcases hmem t _ g h with h | ⟨e', -, he⟩
    · exact hi.current t o g h
    · cases e' with
      | request o' =>
          obtain ⟨rfl, rfl⟩ : o' = o ∧ s.serial o' = g := by simpa [tag] using he
          rfl
      | cancel o' => simp [tag] at he
      | cancelAny => simp [tag] at he
  have htagged : ∀ t o g, (.cancel o, g) ∈ (taken s.base b t).map (s.tag t) →
      g = s.serial o ∧ s.base.stopRequested (s.config cfg) o = true := by
    intro t o g h
    obtain ⟨e, he, htag⟩ := List.mem_map.mp h
    have heq := congrArg Prod.fst htag
    rw [tag_fst] at heq
    subst heq
    obtain ⟨hdr, hstop⟩ := hnew t o he
    exact ⟨(congrArg Prod.snd htag).symm.trans hdr, hstop⟩
  exact {
    base := hbase
    line := by
      intro t
      obtain ⟨l, hl, hring, -⟩ := hgrows t
      have hfst : (l.map (s.tag t)).map Prod.fst = l := by simp [Function.comp_def, tag_fst]
      simp only [Reused.advance, taken_eq hl, List.map_append, map_remaining, hi.line t, hfst]
      exact hring.symm
    current := hcurrent
    ordered := by
      intro t
      refine List.pairwise_append.mpr ⟨(hi.ordered t).sublist (remaining_sublist t _ a), ?_, ?_⟩
      · refine List.Pairwise.imp_of_mem ?_ (List.pairwise_of_forall (R := fun _ _ => True) (by simp))
        rintro ⟨e, g⟩ ⟨e', g'⟩ hx hy - o rfl rfl
        exact (htagged t o g' hy).1.trans (hcurrent t o g (List.mem_append_right _ hx)).symm
      · rintro ⟨e, g⟩ hx ⟨e', g'⟩ hy o rfl rfl
        exact (htagged t o g' hy).1.trans (hcurrent t o g (List.mem_append_left _ hx)).symm
    stopped := by
      intro t o g h
      rcases List.mem_append.mp h with h | h
      · obtain ⟨hle, hold⟩ := hi.stopped t o g ((remaining_sublist t _ a).subset h)
        exact ⟨hle, fun hg => hstop o (hold hg)⟩
      · obtain ⟨hg, hold⟩ := htagged t o g h
        exact ⟨Nat.le_of_eq hg, fun _ => hstop o hold⟩
    drained := hdrained }

variable [DecidableEq S]

/-- A step of the operations. -/
theorem Inv.run (hi : Inv cfg s) {a : Label O T S} {b : State O T S}
    (h : Step (s.config cfg) s.base a b) : Inv cfg (s.advance a b) := by
  obtain ⟨own, content, priv, hl⟩ := hi.base.linked
  obtain ⟨own', content', priv', hl', -⟩ := step_linked hi.base.core hi.base.callback hl h
  have hbase : BaseOk (s.config cfg) b :=
    ⟨step_core hi.base.core h, step_callbackOk hi.base.callback hi.base.core h,
      own', content', priv', hl'⟩
  refine hi.advance hbase h.grows (fun o => h.stopRequested) ?_
  intro t bk op l hpc hch o ho
  rcases h.sweep_cases hpc with ⟨hold, ha⟩ | ⟨pc, hold⟩ | ⟨p, hold, rfl, hnext⟩
  · -- another thread or no thread at all: the chain in hand stays the same
    have hpriv := hl.sweep_chain hold
    have hpriv' : Chain b.heap.next op (priv t) :=
      hpriv.congr fun c hc => hl.next_frame h hc ha
    rw [chain_unique hch hpriv'] at ho
    simpa [Reused.advance, drains, hold] using hi.drained t bk op _ hold hpriv o ho
  · simp [Reused.advance, drains, hold, hpc]
  · -- the pass goes on behind the operation it has prepared a cancel for
    have hpriv := hl.sweep_chain hold
    obtain ⟨rest, hcons, hrest⟩ := chain_some.mp hpriv
    have hout : p ∉ rest := (List.nodup_cons.mp (hcons ▸ chain_nodup hpriv)).1
    rw [hnext] at hch
    rw [chain_unique hch (hrest.update hout)] at ho
    simpa [Reused.advance, drains, hold] using
      hi.drained t bk _ _ hold hpriv o (by simp [hcons, ho])

omit [DecidableEq S] in
/-- An operation is created at an address whose last operation is gone. -/
theorem Inv.create (hi : Inv cfg s) {token : Option S} {timer : Bool} {loc : T}
    (hst : s.base.status o = .fresh ∨ s.base.status o = .completed) :
    Inv cfg { s with
      base := construct s.base o loc
      token := Function.update s.token o token
      timer := Function.update s.timer o timer
      serial := Function.update s.serial o (s.serial o + 1) } := by
  obtain ⟨own, content, priv, hl⟩ := hi.base.linked
  have hring : ∀ t, s.base.status o ≠ .onRing t := by
    rcases hst with hst | hst <;> simp [hst]
  have hfree := (hl.ops o).free hring
  have htok : ∀ p, p ≠ o → Function.update s.token o token p = (s.config cfg).token p :=
    fun p hp => Function.update_of_ne hp _ _
  have hcore : Core (construct s.base o loc) := hi.base.core.construct hst
  have hlinked : Linked { cfg with
      token := Function.update s.token o token
      timer := Function.update s.timer o timer } (construct s.base o loc) own content priv :=
    hl.construct hfree htok
  exact {
    base := ⟨hcore, fun p => (hi.base.callback p).construct hcore (htok p), _, _, _, hlinked⟩
    line := hi.line
    current := by
      intro t p g h
      by_cases hp : p = o
      · subst hp
        have hmem : Sqe.request p ∈ (s.line t).map Prod.fst := List.mem_map.mpr ⟨_, h, rfl⟩
        rw [hi.line t] at hmem
        exact absurd (hi.base.core.status_of_request hmem) (hring t)
      · simpa [hp] using hi.current t p g h
    ordered := hi.ordered
    stopped := by
      intro t p g h
      obtain ⟨hle, hstop⟩ := hi.stopped t p g h
      by_cases hp : p = o
      · subst hp
        simp only [Function.update_self]
        exact ⟨Nat.le_succ_of_le hle, fun hg => absurd hle (by omega)⟩
      · simpa [hp, construct, config, State.stopRequested] using And.intro hle hstop
    drained := by
      intro t bk op l hpc hch p hp
      have hpriv : Chain s.base.heap.next op (priv t) := hl.sweep_chain hpc
      rw [chain_unique hch (hlinked.sweep_chain hpc)] at hp
      have hne : p ≠ o := by
        rintro rfl
        simpa [hfree] using (hl.chains.mem_priv t p).mp hp
      simpa [hne] using hi.drained t bk op _ hpc hpriv p hp }

omit [DecidableEq S] in
/-- `submit_destructive_command`, whichever entries its submissions take. -/
theorem Inv.cancelAny (hi : Inv cfg s) {n m : Nat} {r : Ring O} (hpc : s.base.thread t = .idle)
    (hr : ((s.base.ring t).submit n).getSqe (cfg.entries t) .cancelAny = some r) :
    Inv cfg (s.advance (.cancelAny t) (s.base.issue t (r.submit m) .cancelAny)) := by
  obtain ⟨own, content, priv, hl⟩ := hi.base.linked
  have hcq : (r.submit m).cq = (s.base.ring t).cq := by
    simp [Ring.submit, Ring.getSqe_cq hr]
  have htokens : ∀ o, (r.submit m).tokens o = (s.base.ring t).tokens o := by
    intro o
    rw [Ring.tokens_submit, Ring.tokens_getSqe hr, Ring.tokens_submit]
    simp [Sqe.data]
  have hcore : Core (s.base.issue t (r.submit m) .cancelAny) :=
    hi.base.core.setRing htokens (by simp [hcq])
  have hcallback : ∀ o, CallbackOk (s.config cfg) (s.base.issue t (r.submit m) .cancelAny) o :=
    fun o => (hi.base.callback o).frame rfl rfl rfl (fun h => h) (fun _ h => mem_issued_cons h)
      (fun _ => Iff.rfl) fun _ _ _ _ => Iff.rfl
  have hissue : ∀ o, LinkOk (s.config cfg) { s.base with
      issued := Function.update s.base.issued t (.cancelAny :: s.base.issued t) } own o :=
    fun o => (hl.ops o).setIssued (by simp)
  refine hi.advance ⟨hcore, hcallback, own, content, priv, { hl.chains with },
    fun o => { hissue o with }⟩ ?_ (fun _ h => h) ?_
  · intro u
    by_cases hu : u = t
    · subst hu
      refine ⟨[.cancelAny], by simp [State.issue], ?_, by simp⟩
      simp only [State.issue, Function.update_self, remaining]
      rw [submit_entries, getSqe_entries hr, submit_entries]
    · exact ⟨[], by simp [State.issue, hu], by simp [State.issue, hu, remaining], by simp⟩
  · intro u bk op l hpc' hch o ho
    have hold : s.base.thread u = .sweep bk op := hpc'
    simpa [Reused.advance, drains, hold] using hi.drained u bk op l hold hch o ho

theorem Inv.step (hi : Inv cfg s) {a : ReuseLabel O T S} (h : step cfg s a = some s') :
    Inv cfg s' := by
  cases a with
  | run a =>
      simp only [Reused.step] at h
      split at h
      · split at h
        · next b hb =>
            obtain rfl := Option.some.inj h
            exact hi.run (.of_step hb)
        · cases h
      · cases h
  | create o token timer loc =>
      simp only [Reused.step] at h
      split at h
      · next hst =>
          obtain rfl := Option.some.inj h
          exact hi.create hst
      · cases h
  | cancelAny t n m =>
      simp only [Reused.step] at h
      split at h
      · next hg =>
          split at h
          · next r hr =>
              obtain rfl := Option.some.inj h
              exact hi.cancelAny hg.1 hr
          · cases h
      · cases h
  | execute t =>
      simp only [Reused.step] at h
      split at h
      · obtain rfl := Option.some.inj h
        exact { hi with }
      · cases h

theorem reachable_inv (h : (machine cfg).Reachable s) : Inv cfg s :=
  h.invariant (Inv cfg) (fun _ => init_inv) fun _ _ _ _ hi _ hs => hi.step hs

/-- Whenever the kernel is about to execute a cancel for an address while a request
with that user data is in flight on the ring, the request is that of the operation
that was drained when the cancel was prepared, and its stop was requested. -/
theorem cancel_hits_drained (h : (machine cfg).Reachable s) {g g' : Nat}
    (hcancel : s.next t = some (.cancel o, g)) (hrequest : (.request o, g') ∈ s.inFlight t) :
    g' = g ∧ g = s.serial o ∧ s.base.stopRequested (s.config cfg) o = true := by
  have hi := reachable_inv h
  obtain ⟨-, hget⟩ : s.executed t < (s.base.ring t).flight.length ∧
      (s.line t)[s.executed t]? = some (.cancel o, g) := by
    simpa [next] using hcancel
  obtain ⟨hlt, hget⟩ := List.getElem?_eq_some_iff.mp hget
  obtain ⟨i, hi', hreq⟩ := List.mem_take_iff_getElem.mp hrequest
  have hbefore : i < s.executed t := by omega
  have hpair := List.pairwise_iff_getElem.mp (hi.ordered t) i (s.executed t) (by omega) hlt hbefore
  rw [hreq, hget] at hpair
  have hsame : g = g' := hpair o rfl rfl
  have hcurrent : g' = s.serial o := hi.current t o g' (List.mem_of_mem_take hrequest)
  have hmem : (Sqe.cancel o, g) ∈ s.line t := hget ▸ List.getElem_mem hlt
  exact ⟨hsame.symm, hsame.trans hcurrent, (hi.stopped t o g hmem).2 (hsame.trans hcurrent)⟩

section Reuse

/-- One address, one thread, and a stop source for each of two operations. -/
def reuseConfig : Config (Fin 1) (Fin 1) Bool where
  token _ := some false
  bucket _ := robinAccess 3
  timer _ := false
  entries _ := 8

def reuseStart : Reused (Fin 1) (Fin 1) Bool where
  base := {
    heap := { next := fun _ => none, head := fun _ => none }
    status := fun _ => .fresh
    callback := fun _ => .none
    localScheduler := fun _ => 0
    stopSource := fun _ => false
    scopeStopped := false
    ring := fun _ => .empty
    issued := fun _ => []
    thread := fun _ => .idle
    closed := fun _ => false
    starts := fun _ => 0
    signals := fun _ => []
    tasks := fun _ => []
    effects := fun _ => [] }
  token _ := some false
  timer _ := false
  serial _ := 0
  drained _ _ := 0
  line _ := []
  executed _ := 0

theorem reuseStart_init : Init reuseStart := by simp [Init, Operation.Init, reuseStart]

/-- `n` steps of the only thread. -/
def threadSteps (n : Nat) : List (ReuseLabel (Fin 1) (Fin 1) Bool) :=
  List.replicate n (.run (.thread 0 false))

/-- A stop request, the push of the operation, and a stopping pass that prepares a cancel. -/
def stopAndSweep (src : Bool) : List (ReuseLabel (Fin 1) (Fin 1) Bool) :=
  [.run (.requestStop src), .run (.fire 0), .run (.push 0 false), .run (.push 0 false),
    .run (.push 0 false), .run (.sweep 0 (robinAccess 3))] ++ threadSteps 4

/-- The first operation completes before its cancel is submitted; the second one is
created at its address, and its request stands behind that cancel. -/
def reuseRun : List (ReuseLabel (Fin 1) (Fin 1) Bool) :=
  [.run (.start 0 0)] ++ threadSteps 3 ++ [.run (.submit 0 1), .execute 0] ++
    stopAndSweep false ++ [.run (.post 0 0 5), .run (.consume 0 .ordinary)] ++ threadSteps 4 ++
    [.create 0 (some true) false 0, .run (.start 0 0)] ++ threadSteps 3 ++
    [.run (.submit 0 2), .execute 0, .execute 0] ++ stopAndSweep true ++ [.run (.submit 0 1)]

def reuseState : Reused (Fin 1) (Fin 1) Bool :=
  ((machine reuseConfig).run reuseStart reuseRun).getD reuseStart

theorem cancel_hits_drained_reused :
    reuseState.next 0 = some (.cancel 0, 1) ∧
      reuseState.inFlight 0 = [(.cancel 0, 0), (.request 0, 1)] ∧ reuseState.serial 0 = 1 ∧
      reuseState.base.stopRequested (reuseState.config reuseConfig) 0 = true := by
  have hrun : (machine reuseConfig).run reuseStart reuseRun = some reuseState := rfl
  have hnext : reuseState.next 0 = some (.cancel 0, 1) := by decide
  have hflight : reuseState.inFlight 0 = [(.cancel 0, 0), (.request 0, 1)] := by decide
  have h := cancel_hits_drained (.of_run reuseStart_init hrun) hnext
    (show (.request 0, 1) ∈ reuseState.inFlight 0 by simp [hflight])
  exact ⟨hnext, hflight, h.2.1.symm, h.2.2⟩

end Reuse

end Reused

end IoUring.Exec.Operation
