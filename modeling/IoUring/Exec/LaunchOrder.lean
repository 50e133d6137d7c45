import IoUring.Exec.LaunchInvariant

/-!
# A launch calls what it has drained, once and in order

Each link is read before the callback of its task, all that was drained is called, and
what the callbacks push is left to the next launch of the queue.
-/

namespace IoUring.Exec.Launch

variable {α κ τ ρ : Type*}

/-! ## No link is read after the call -/

section Trace

variable {policy : Policy} {tasks rest : List (Task α)} {trace before after : List (Event α)}
  {f : Callback} {x y : Task α}

theorem visit_unread (hnd : (rest.map Task.node).Nodup)
    (h : rest.flatMap (visit policy) = before ++ .call f x :: after) (hy : y.node = x.node) :
    .read y ∉ after := by
  induction rest generalizing before with
  | nil => simp at h
  | cons z rest ih =>
      obtain ⟨hz, hnd⟩ := List.nodup_cons.mp hnd
      rw [List.flatMap_cons, visit] at h
      rcases before with _ | ⟨b, _ | ⟨b', before⟩⟩
      · simp at h
      · -- the call of `z` itself
        simp only [List.cons_append, List.nil_append, List.cons.injEq, Event.call.injEq] at h
        obtain ⟨-, ⟨-, rfl⟩, rfl⟩ := h
        intro hmem
        obtain ⟨z', hz', hread⟩ := List.mem_flatMap.mp hmem
        obtain rfl : y = z' := by simpa [visit] using hread
        exact hz (hy ▸ List.mem_map_of_mem hz')
      · simp only [List.cons_append, List.nil_append, List.cons.injEq] at h
        exact ih hnd h.2.2

theorem visited_unread (hnd : ((order policy tasks).map Task.node).Nodup)
    (hstarted : trace <+: visited policy tasks (order policy tasks))
    (h : trace = before ++ .call f x :: after) (hy : y.node = x.node) : .read y ∉ after := by
  obtain ⟨more, hmore⟩ := hstarted
  rw [h, visited, List.append_assoc, List.cons_append] at hmore
  have hcalls : .call f x ∉ (if policy.locality then [] else tasks.reverse.map Event.read) := by
    split <;> simp
  have hvisits : ∃ l, (order policy tasks).flatMap (visit policy) =
      l ++ .call f x :: (after ++ more) := by
    rcases List.append_eq_append_iff.mp hmore with ⟨l, hl, hrest⟩ | ⟨l, -, hrest⟩
    · cases l with
      | nil => exact ⟨[], hrest.symm⟩
      | cons b l =>
          rw [List.cons_append, List.cons.injEq] at hrest
          exact absurd (by rw [hl, ← hrest.1]; simp) hcalls
    · exact ⟨l, hrest⟩
  obtain ⟨l, hl⟩ := hvisits
  exact fun hmem => visit_unread hnd hl hy (List.mem_append_left _ hmem)

end Trace

/-! ## The launch returns -/

/-- At most `n` steps are left to launch `r` when its callbacks return, no other thread moves
and no compare-exchange fails spuriously. -/
inductive LaunchLeft [DecidableEq α] (L : TaskMap.Layout α ρ) (s : State α κ τ ρ) (r : ρ) : Nat → Prop
  | load {q : κ} {policy : Policy} {l : List α}
      (hpc : s.launcher r = some ⟨q, policy, .moveAll .load⟩)
      (hch : Chain s.heap.next (s.heap.head q) l) (hsen : L.sentinel r ∉ l) :
      LaunchLeft L s r (5 * l.length + 9)
  | cas {q : κ} {policy : Policy} {node : Option α} {l : List α}
      (hpc : s.launcher r = some ⟨q, policy, .moveAll (.cas node)⟩)
      (hch : Chain s.heap.next (s.heap.head q) l) (hsen : L.sentinel r ∉ l) :
      LaunchLeft L s r (5 * l.length + if s.heap.head q = node then 7 else 8)
  | link {q : κ} {policy : Policy} {node : α} {l : List α}
      (hpc : s.launcher r = some ⟨q, policy, .makeFifo node .link⟩)
      (hch : Chain s.heap.next (some node) l) (hsen : L.sentinel r ∉ l) :
      LaunchLeft L s r (5 * l.length + 6)
  | loop {q : κ} {policy : Policy} {node prev : α} {cur : Option α} {l rest : List α}
      (hpc : s.launcher r = some ⟨q, policy, .makeFifo node (.loop prev cur)⟩)
      (hnd : l.Nodup) (hhead : l.head? = some node) (hsen : L.sentinel r ∉ l)
      (hok : FifoOk s.heap.next (L.sentinel r) l (.loop prev cur))
      (hch : Chain s.heap.next cur rest) :
      LaunchLeft L s r (3 * l.length + 2 * rest.length + 4)
  | relink {q : κ} {policy : Policy} {node prev cur : α} {nxt : Option α} {l rest : List α}
      (hpc : s.launcher r = some ⟨q, policy, .makeFifo node (.relink prev cur nxt)⟩)
      (hnd : l.Nodup) (hhead : l.head? = some node) (hsen : L.sentinel r ∉ l)
      (hok : FifoOk s.heap.next (L.sentinel r) l (.relink prev cur nxt))
      (hch : Chain s.heap.next nxt rest) :
      LaunchLeft L s r (3 * l.length + 2 * rest.length + 5)
  | test {q : κ} {policy : Policy} {op : Option α} {l : List α}
      (hpc : s.launcher r = some ⟨q, policy, .test op⟩) (hch : Chain s.heap.next op l) :
      LaunchLeft L s r (3 * l.length + 2)
  | call {q : κ} {policy : Policy} {op : α} {link : Option α} {l : List α}
      (hpc : s.launcher r = some ⟨q, policy, .call op link⟩)
      (hch : Chain s.heap.next link l) : LaunchLeft L s r (3 * l.length + 4)
  | callback {q : κ} {policy : Policy} {link : Option α} {l : List α}
      (hpc : s.launcher r = some ⟨q, policy, .callback link⟩)
      (hch : Chain s.heap.next link l) : LaunchLeft L s r (3 * l.length + 3)
  | returned {q : κ} {policy : Policy} (hpc : s.launcher r = some ⟨q, policy, .returned⟩) :
      LaunchLeft L s r 0

def Returned (s : State α κ τ ρ) (r : ρ) : Prop :=
  ∃ q policy, s.launcher r = some ⟨q, policy, .returned⟩

section Left

variable [DecidableEq α] {L : TaskMap.Layout α ρ} {s : State α κ τ ρ} {e : History α κ ρ}
  {own : α → Option (Place κ τ ρ)} {content : Place κ τ ρ → List α} {r : ρ}

theorem Inv.left (hi : Inv L s e own content) {l : Launcher α κ} (hr : s.launcher r = some l) :
    ∃ n, LaunchLeft L s r n := by
  have hlaunch := hi.launcher r
  rw [hr] at hlaunch
  have hsen {p : Place κ τ ρ} : L.sentinel r ∉ content p := by
    intro hmem
    have hstack := hi.not_onStack hmem
    simp [L.sentinel_onStack] at hstack
  generalize hl : content (.launcher r) = l at hlaunch
  cases hlaunch with
  | @moving q policy pc ht hlog =>
      cases pc with
      | load => exact ⟨_, .load hr (hi.queue q) hsen⟩
      | cas node => exact ⟨_, .cas hr (hi.queue q) hsen⟩
  | @fifo q policy node pc tasks hw hpolicy hnode hok hread =>
      have hout : L.sentinel r ∉ (tasks.map Task.node).reverse := by
        rw [List.mem_reverse, ← hl]
        exact hsen
      have hnd := List.nodup_reverse.mpr hw.nodup
      rw [← List.head?_reverse] at hnode
      cases pc with
      | link =>
          rw [FifoOk, hnode] at hok
          exact ⟨_, .link hr hok hout⟩
      | loop prev cur =>
          obtain ⟨unread, hch, -⟩ := hread
          exact ⟨_, .loop hr hnd hnode hout hok hch⟩
      | relink prev cur nxt =>
          obtain ⟨unread, hch, -⟩ := hread
          exact ⟨_, .relink hr hnd hnode hout hok hch⟩
  | test hw hch ht => exact ⟨_, .test hr hch⟩
  | call hw hch ht => exact ⟨_, .call hr hch⟩
  | callback hw hch ht => exact ⟨_, .callback hr hch⟩
  | returned hw ht => exact ⟨_, .returned hr⟩

variable [DecidableEq κ] [DecidableEq τ] [DecidableEq ρ]

/-- Launch `r` can take a step of its own, and less than `n` steps are left then. -/
def Lowers (L : TaskMap.Layout α ρ) (s : State α κ τ ρ) (r : ρ) (n : Nat) : Prop :=
  ∃ s' k, step L s (.launcher r false) = some s' ∧ k < n ∧ LaunchLeft L s' r k

omit [DecidableEq α] [DecidableEq κ] [DecidableEq τ] in
theorem setPc_launcher (s : State α κ τ ρ) (r : ρ) (l : Launcher α κ) (pc : LauncherPc α)
    (h : Heap α κ) :
    ({ s with heap := h }.setPc r l pc).launcher r = some ⟨l.queue, l.policy, pc⟩ := by
  simp [State.setPc]

variable {q : κ} {policy : Policy} {node prev cur : α} {l rest : List α}

/-- The compare-exchange of `move_all` finds the head that was loaded. -/
theorem lowers_taken
    (hpc : s.launcher r = some ⟨q, policy, .moveAll (.cas (s.heap.head q))⟩)
    (hch : Chain s.heap.next (s.heap.head q) l) (hsen : L.sentinel r ∉ l) :
    Lowers L s r (5 * l.length + 7) := by
  cases hhead : s.heap.head q with
  | none =>
      rw [hhead] at hch
      obtain rfl := chain_none.mp hch
      have hleft := LaunchLeft.test (L := L) (l := []) (setPc_launcher s r ⟨q, policy,
        .moveAll (.cas (s.heap.head q))⟩ (.test none) (s.heap.setHead q none)) rfl
      refine ⟨_, _, ?_, by simp, hleft⟩
      simp only [step, launcherStep, hpc, moveAllStep, hhead, and_self, if_true]
  | some node =>
      rw [hhead] at hch
      have hch' : Chain (s.heap.setHead q none).next (some node) l := hch
      cases hpolicy : policy.locality with
      | true =>
          have hleft := LaunchLeft.test (L := L) (setPc_launcher s r ⟨q, policy,
            .moveAll (.cas (s.heap.head q))⟩ (.test (some node)) (s.heap.setHead q none)) hch'
          refine ⟨_, _, ?_, by omega, hleft⟩
          simp only [step, launcherStep, hpc, moveAllStep, hhead, hpolicy, and_self, if_true]
      | false =>
          have hleft := LaunchLeft.link (L := L) (setPc_launcher s r ⟨q, policy,
            .moveAll (.cas (s.heap.head q))⟩ (.makeFifo node .link) (s.heap.setHead q none))
            hch' hsen
          refine ⟨_, _, ?_, by omega, hleft⟩
          simp only [step, launcherStep, hpc, moveAllStep, hhead, hpolicy, and_self, if_true]
          rfl

theorem lowers_link (hpc : s.launcher r = some ⟨q, policy, .makeFifo node .link⟩)
    (hch : Chain s.heap.next (some node) l) (hsen : L.sentinel r ∉ l) :
    Lowers L s r (5 * l.length + 6) := by
  have hhead : l.head? = some node := by
    have hstart := hch.start_eq
    rw [Option.or_none] at hstart
    exact hstart.symm
  have hlink : makeFifoStep s.heap (L.sentinel r) node .link =
      (s.heap.setNext (L.sentinel r) (some node), .running (.loop (L.sentinel r) (some node))) :=
    rfl
  have hok : FifoOk s.heap.next (L.sentinel r) l .link := by
    rw [FifoOk, hhead]
    exact hch
  have hok' := makeFifoStep_running (chain_nodup hch) hsen hhead hok hlink
  have hleft := LaunchLeft.loop (setPc_launcher s r ⟨q, policy, .makeFifo node .link⟩
    (.makeFifo node (.loop (L.sentinel r) (some node))) (s.heap.setNext (L.sentinel r) (some node)))
    (chain_nodup hch) hhead hsen hok' (hch.update hsen)
  exact ⟨_, _, by simp only [step, launcherStep, hpc, hlink], by omega, hleft⟩

theorem lowers_loop {cur : Option α}
    (hpc : s.launcher r = some ⟨q, policy, .makeFifo node (.loop prev cur)⟩)
    (hnd : l.Nodup) (hhead : l.head? = some node) (hsen : L.sentinel r ∉ l)
    (hok : FifoOk s.heap.next (L.sentinel r) l (.loop prev cur))
    (hch : Chain s.heap.next cur rest) : Lowers L s r (3 * l.length + 2 * rest.length + 4) := by
  cases cur with
  | none =>
      obtain rfl := chain_none.mp hch
      have hend : makeFifoStep s.heap (L.sentinel r) node (.loop prev none) =
          (s.heap.setNext node none, .returned (some prev)) := rfl
      have hleft := LaunchLeft.test (L := L) (setPc_launcher s r ⟨q, policy,
        .makeFifo node (.loop prev none)⟩ (.test (some prev)) (s.heap.setNext node none))
        (makeFifoStep_returned hnd hhead hok hend)
      exact ⟨_, _, by simp only [step, launcherStep, hpc, hend], by simp, hleft⟩
  | some cur =>
      obtain ⟨rest', rfl, hrest⟩ := chain_some.mp hch
      have hread : makeFifoStep s.heap (L.sentinel r) node (.loop prev (some cur)) =
          (s.heap, .running (.relink prev cur (s.heap.next cur))) := rfl
      have hok' := makeFifoStep_running hnd hsen hhead hok hread
      have hleft := LaunchLeft.relink (setPc_launcher s r ⟨q, policy,
        .makeFifo node (.loop prev (some cur))⟩
        (.makeFifo node (.relink prev cur (s.heap.next cur))) s.heap) hnd hhead hsen hok' hrest
      refine ⟨_, _, by simp only [step, launcherStep, hpc, hread], ?_, hleft⟩
      rw [List.length_cons]
      omega

theorem lowers_relink {nxt : Option α}
    (hpc : s.launcher r = some ⟨q, policy, .makeFifo node (.relink prev cur nxt)⟩)
    (hnd : l.Nodup) (hhead : l.head? = some node) (hsen : L.sentinel r ∉ l)
    (hok : FifoOk s.heap.next (L.sentinel r) l (.relink prev cur nxt))
    (hch : Chain s.heap.next nxt rest) : Lowers L s r (3 * l.length + 2 * rest.length + 5) := by
  have hwrite : makeFifoStep s.heap (L.sentinel r) node (.relink prev cur nxt) =
      (s.heap.setNext cur (some prev), .running (.loop cur nxt)) := rfl
  have hok' := makeFifoStep_running hnd hsen hhead hok hwrite
  have hout : cur ∉ rest := by
    obtain ⟨moved, rest', rfl, -, -, hrest⟩ := hok
    rw [chain_unique hch hrest]
    exact (List.nodup_cons.mp (List.nodup_append.mp hnd).2.1).1
  have hleft := LaunchLeft.loop (setPc_launcher s r
    ⟨q, policy, .makeFifo node (.relink prev cur nxt)⟩ (.makeFifo node (.loop cur nxt))
    (s.heap.setNext cur (some prev))) hnd hhead hsen hok' (hch.update hout)
  exact ⟨_, _, by simp only [step, launcherStep, hpc, hwrite], by omega, hleft⟩

/-- The condition of the loop, and the read of the link. -/
theorem lowers_test {op : Option α} (hpc : s.launcher r = some ⟨q, policy, .test op⟩)
    (hch : Chain s.heap.next op l) : Lowers L s r (3 * l.length + 2) := by
  cases op with
  | none =>
      have hleft := LaunchLeft.returned (L := L)
        (setPc_launcher s r ⟨q, policy, .test none⟩ .returned s.heap)
      exact ⟨_, _, by simp only [step, launcherStep, hpc], by omega, hleft⟩
  | some op =>
      obtain ⟨rest, rfl, hrest⟩ := chain_some.mp hch
      have hleft := LaunchLeft.call (L := L)
        (setPc_launcher s r ⟨q, policy, .test (some op)⟩ (.call op (s.heap.next op)) s.heap) hrest
      refine ⟨_, _, by simp only [step, launcherStep, hpc], ?_, hleft⟩
      rw [List.length_cons]
      omega

theorem lowers_call {link : Option α} (hpc : s.launcher r = some ⟨q, policy, .call cur link⟩)
    (hch : Chain s.heap.next link l) : Lowers L s r (3 * l.length + 4) := by
  have hcall : ({ s with held := Function.update s.held cur true }.setPc r
      ⟨q, policy, .call cur link⟩ (.callback link)).launcher r =
      some ⟨q, policy, .callback link⟩ := by simp [State.setPc]
  have hleft := LaunchLeft.callback (L := L) hcall hch
  exact ⟨_, _, by simp only [step, launcherStep, hpc], by omega, hleft⟩

theorem LaunchLeft.next {n : Nat} (h : LaunchLeft L s r n) : Returned s r ∨ Lowers L s r n := by
  cases h with
  | returned hpc => exact .inl ⟨_, _, hpc⟩
  | @load q policy l hpc hch hsen =>
      have hleft := LaunchLeft.cas (setPc_launcher s r ⟨q, policy, .moveAll .load⟩
        (.moveAll (.cas (s.heap.head q))) s.heap) hch hsen
      refine .inr ⟨_, _, by simp only [step, launcherStep, hpc, moveAllStep], ?_, hleft⟩
      simp [State.setPc]
  | @cas q policy node l hpc hch hsen =>
      by_cases hfresh : s.heap.head q = node
      · subst hfresh
        rw [if_pos rfl]
        exact .inr (lowers_taken hpc hch hsen)
      · have hleft := LaunchLeft.cas (setPc_launcher s r ⟨q, policy, .moveAll (.cas node)⟩
          (.moveAll (.cas (s.heap.head q))) s.heap) hch hsen
        refine .inr ⟨_, _, by simp [step, launcherStep, hpc, moveAllStep, hfresh], ?_, hleft⟩
        simp [State.setPc, hfresh]
  | link hpc hch hsen => exact .inr (lowers_link hpc hch hsen)
  | loop hpc hnd hhead hsen hok hch => exact .inr (lowers_loop hpc hnd hhead hsen hok hch)
  | relink hpc hnd hhead hsen hok hch => exact .inr (lowers_relink hpc hnd hhead hsen hok hch)
  | test hpc hch => exact .inr (lowers_test hpc hch)
  | call hpc hch => exact .inr (lowers_call hpc hch)
  | @callback q policy link l hpc hch =>
      have hleft := LaunchLeft.test (L := L)
        (setPc_launcher s r ⟨q, policy, .callback link⟩ (.test link) s.heap) hch
      exact .inr ⟨_, _, by simp only [step, launcherStep, hpc], by omega, hleft⟩

/-- Wherever a launch is, it returns by steps of its own. -/
theorem LaunchLeft.returns {n : Nat} {p : State α κ τ ρ × History α κ ρ}
    (h : LaunchLeft L p.1 r n) : ∃ as p', (∀ a ∈ as, a = .launcher r false) ∧
      (historyMachine L).run p as = some p' ∧ Returned p'.1 r := by
  refine Machine.leads (P := fun n p => LaunchLeft L p.1 r n) ?_ h
  intro n p h
  rcases h.next with hret | ⟨s', k, hs, hk, hleft⟩
  · exact .inl hret
  · have hstep : (historyMachine L).step p (.launcher r false) =
        some (s', note p.2 p.1 (.launcher r false) s') :=
      Machine.observed_step.mpr ⟨hs, rfl⟩
    exact .inr ⟨_, _, k, rfl, hstep, hk, hleft⟩

end Left

/-! ## The launch -/

section Main

variable {L : TaskMap.Layout α ρ} {p : State α κ τ ρ × History α κ ρ} {r : ρ} {l : Launcher α κ}
  {policy : Policy} {tasks done rest : List (Task α)} {x : Task α} {f : Callback}

/-- Launch `r` has drained its queue when `past` had been done to it, and `later` has been
done to it since. -/
structure Launched (p : State α κ τ ρ × History α κ ρ) (r : ρ) (l : Launcher α κ)
    (past later : List (Entry α ρ)) : Prop where
  log : p.2.log l.queue = past ++ .drain r :: later
  once : .drain r ∉ past ∧ .drain r ∉ later
  nodup : ((filled past).map Task.node).Nodup
  started : p.2.trace r <+: visited l.policy (filled past) (order l.policy (filled past))
  whole : l.pc = .returned →
    p.2.trace r = visited l.policy (filled past) (order l.policy (filled past))
  unread : ∀ before f x after, p.2.trace r = before ++ .call f x :: after →
    ∀ y, y.node = x.node → .read y ∉ after
  uncalled : ∀ x, .push x ∈ later → ∀ f, .call f x ∉ p.2.trace r
  queue : Chain p.1.heap.next (p.1.heap.head l.queue)
    ((filled (p.2.log l.queue)).map Task.node).reverse
  kept : (∀ r', .drain r' ∉ later) → later = (filled (p.2.log l.queue)).map .push

theorem call_mem_visited (h : .call f x ∈ visited policy tasks done) : x ∈ done := by
  rw [visited, List.mem_append] at h
  rcases h with h | h
  · split at h <;> simp at h
  · obtain ⟨y, hy, hcall⟩ := List.mem_flatMap.mp h
    obtain ⟨-, rfl⟩ : f = policy.callback ∧ x = y := by simpa [visit] using hcall
    exact hy

theorem FifoRead.trace_started {next : α → Option α} {trace : List (Event α)} {pc : MakeFifoPc α}
    (h : FifoRead next tasks trace pc) : trace <+: tasks.reverse.map .read := by
  cases pc with
  | link =>
      obtain rfl : trace = [] := h
      exact List.nil_prefix
  | loop prev cur =>
      obtain ⟨unread, -, heq⟩ := h
      exact ⟨_, heq⟩
  | relink prev cur nxt =>
      obtain ⟨unread, -, heq⟩ := h
      exact ⟨_, heq⟩

theorem visited_mono (h : order policy tasks = done ++ rest) :
    visited policy tasks done <+: visited policy tasks (order policy tasks) := by
  rw [h, visited, visited, List.flatMap_append, ← List.append_assoc]
  exact List.prefix_append _ _

theorem Inv.launched {own : α → Option (Place κ τ ρ)} {content : Place κ τ ρ → List α}
    (hi : Inv L p.1 p.2 own content) {q : κ} {pc : LauncherPc α}
    (hw : Walk p.2 r q policy tasks done rest)
    (hstarted : p.2.trace r <+: visited policy tasks (order policy tasks))
    (hwhole : pc = .returned → p.2.trace r = visited policy tasks (order policy tasks)) :
    ∃ past later, Launched p r ⟨q, policy, pc⟩ past later := by
  obtain ⟨past, later, hlog, hpast, hlater, rfl⟩ := hw.took
  refine ⟨past, later, hlog, ⟨hpast, hlater⟩, hw.nodup, hstarted, hwhole, ?_, ?_, ?_, ?_⟩
  · intro before f x after htrace y hy
    exact visited_unread hw.order_nodup hstarted htrace hy
  · intro x hx f hcall
    have hmem := call_mem_visited (hstarted.subset hcall)
    have hbefore := hi.ordered q
    rw [hlog, List.pairwise_append] at hbefore
    have hlt := hbefore.2.2 _ (push_mem_of_filled (mem_order.mp hmem)) _
      (List.mem_cons_of_mem _ hx) x x rfl rfl
    omega
  · rw [← hi.listed q]
    exact hi.queue q
  · intro halone
    rw [hlog]
    exact filled_later halone

variable [DecidableEq α] [DecidableEq κ] [DecidableEq τ] [DecidableEq ρ]

/-- Whatever the callbacks, the pushers and other launches do: a launch that has taken what
was pushed since the last drain, `filled past`, reads and calls these tasks in the order of
its policy, all of them by its return, and never reads the link of a node after it has
called the callback. What is pushed later, at whatever address, is not called by this
launch and stays in the queue until another launch drains it. And the launch returns if
its callbacks do. -/
theorem launch_order (hr : (historyMachine L).Reachable p) (hl : p.1.launcher r = some l) :
    ((∃ pc, l.pc = .moveAll pc) ∧ p.2.trace r = [] ∨ ∃ past later, Launched p r l past later) ∧
    ∃ as p', (∀ a ∈ as, a = .launcher r false) ∧ (historyMachine L).run p as = some p' ∧
      Returned p'.1 r := by
  obtain ⟨own, content, hi⟩ := reachable_inv hr
  constructor
  · have hlaunch := hi.launcher r
    rw [hl] at hlaunch
    generalize content (.launcher r) = nodes at hlaunch
    cases hlaunch with
    | moving ht _ => exact .inl ⟨⟨_, rfl⟩, ht⟩
    | @fifo q policy node pc tasks hw hpolicy hnode hok hread =>
        refine .inr (hi.launched hw ?_ (by simp))
        refine hread.trace_started.trans ?_
        simp [visited, hpolicy]
    | test hw hch ht => exact .inr (hi.launched hw (ht ▸ visited_mono hw.split) (by simp))
    | @call q policy x link tasks done rest hw hch ht =>
        refine .inr (hi.launched hw ?_ (by simp))
        rw [ht]
        have hsplit : order policy tasks = (done ++ [x]) ++ rest := by simp [hw.split]
        exact .trans (by simp) (visited_mono hsplit)
    | callback hw hch ht => exact .inr (hi.launched hw (ht ▸ visited_mono hw.split) (by simp))
    | returned hw ht =>
        have hdone := hw.split
        rw [List.append_nil] at hdone
        exact .inr (hi.launched hw (ht ▸ visited_mono hw.split) fun _ => hdone ▸ ht)
  · obtain ⟨n, hleft⟩ := hi.left hl
    exact hleft.returns

end Main

section Relaunch

/-- Nodes 0, 1 and 2, and node 3 on the stack of the launch. -/
def relaunchLayout : TaskMap.Layout (Fin 4) (Fin 1) where
  onStack a := decide (a = 3)
  sentinel _ := 3
  sentinel_onStack _ := by decide

def relaunchStart : State (Fin 4) Unit (Fin 1) (Fin 1) where
  heap := ⟨fun _ => none, fun _ => none⟩
  pusher _ := .idle
  launcher _ := none
  held a := decide (a ≠ 3)

/-- The callback of node 0 overwrites its link, and pushes it again. -/
def relaunchRun : List (Label (Fin 4) Unit (Fin 1) (Fin 1)) :=
  [.push 0 () 0] ++ List.replicate 3 (.pusher 0 false) ++
    [.push 0 () 1] ++ List.replicate 3 (.pusher 0 false) ++
    [.launch 0 () ⟨false, false⟩] ++ List.replicate 10 (.launcher 0 false) ++
    [.write 0 (some 2), .push 0 () 0] ++ List.replicate 3 (.pusher 0 false) ++
    List.replicate 5 (.launcher 0 false)

theorem launch_order_relaunch :
    ∃ (p : State (Fin 4) Unit (Fin 1) (Fin 1) × History (Fin 4) Unit (Fin 1))
      (past later : List (Entry (Fin 4) (Fin 1))),
      Launched p 0 ⟨(), ⟨false, false⟩, .returned⟩ past later ∧
      p.2.log () = [.push ⟨0, 0⟩, .push ⟨1, 1⟩, .drain 0, .push ⟨0, 2⟩] ∧
      p.2.trace 0 = [.read ⟨1, 1⟩, .read ⟨0, 0⟩, .read ⟨0, 0⟩, .call .complete ⟨0, 0⟩,
        .read ⟨1, 1⟩, .call .complete ⟨1, 1⟩] := by
  have hrun : ∃ p, (historyMachine relaunchLayout).run
      (relaunchStart, ⟨fun _ => [], fun _ => [], 0, fun _ => 0⟩) relaunchRun = some p ∧
      p.1.launcher 0 = some ⟨(), ⟨false, false⟩, .returned⟩ ∧
      p.2.log () = [.push ⟨0, 0⟩, .push ⟨1, 1⟩, .drain 0, .push ⟨0, 2⟩] ∧
      p.2.trace 0 = [.read ⟨1, 1⟩, .read ⟨0, 0⟩, .read ⟨0, 0⟩, .call .complete ⟨0, 0⟩,
        .read ⟨1, 1⟩, .call .complete ⟨1, 1⟩] :=
    ⟨_, rfl, rfl, rfl, rfl⟩
  obtain ⟨p, hp, hl, hlog, htrace⟩ := hrun
  have hinit : Init relaunchLayout relaunchStart :=
    ⟨fun _ => rfl, fun _ => rfl, fun _ => rfl, by decide⟩
  rcases (launch_order (Machine.Reachable.observed hinit hp) hl).1 with ⟨-, hnil⟩ | hlaunched
  · rw [htrace] at hnil
    cases hnil
  · obtain ⟨past, later, h⟩ := hlaunched
    exact ⟨p, past, later, h, hlog, htrace⟩

end Relaunch

end IoUring.Exec.Launch
