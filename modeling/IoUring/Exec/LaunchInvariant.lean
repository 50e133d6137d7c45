import IoUring.Base.Placement
import IoUring.Exec.Launch

/-!
# The invariant of the launches

Each node that the clients do not hold is in a queue, in the hands of a pusher or
among the nodes that a launch has not called yet. A launch touches its own nodes and its
sentinel only, so what callbacks and other threads do with their nodes does not change
the rest of its walk, and its walk changes neither the queues nor what the callbacks
have pushed onto them.
-/

namespace IoUring.Exec.Launch

variable {α κ τ ρ : Type*}

inductive Place (κ τ ρ : Type*) where
  | queue (q : κ)
  | pusher (t : τ)
  | launcher (r : ρ)
  deriving DecidableEq

/-- The nodes in the hands of a pusher. -/
def PusherOk (next : α → Option α) : PusherPc α κ → List α → Prop
  | .idle, l => l = []
  | .push _ op pc, l => l = [op] ∧ ∀ node, pc = .cas node → next op = node

/-- Launch `r` has drained the queue once, and took `tasks`. -/
def Took (log : List (Entry α ρ)) (r : ρ) (tasks : List (Task α)) : Prop :=
  ∃ past later, log = past ++ .drain r :: later ∧ .drain r ∉ past ∧ .drain r ∉ later ∧
    filled past = tasks

/-- Launch `r` took `tasks` from `q`, has called `done` and not yet called `rest`. -/
structure Walk (e : History α κ ρ) (r : ρ) (q : κ) (policy : Policy)
    (tasks done rest : List (Task α)) : Prop where
  took : Took (e.log q) r tasks
  nodup : (tasks.map Task.node).Nodup
  split : order policy tasks = done ++ rest
  current : ∀ x ∈ rest, e.number x.node = x.number

/-- The links that `make_fifo` has still to read. -/
def FifoRead (next : α → Option α) (tasks : List (Task α)) (trace : List (Event α)) :
    MakeFifoPc α → Prop
  | .link => trace = []
  | .loop _ cur => ∃ unread : List (Task α), Chain next cur (unread.map Task.node) ∧
      trace ++ unread.map .read = tasks.reverse.map .read
  | .relink _ _ nxt => ∃ unread : List (Task α), Chain next nxt (unread.map Task.node) ∧
      trace ++ unread.map .read = tasks.reverse.map .read

/-- The nodes in the hands of launch `r`, in the order in which it is to call them. -/
inductive LaunchOk (L : TaskMap.Layout α ρ) (next : α → Option α) (e : History α κ ρ) (r : ρ) :
    Option (Launcher α κ) → List α → Prop
  | idle (ht : e.trace r = []) (hlog : ∀ q, .drain r ∉ e.log q) : LaunchOk L next e r none []
  | moving {q : κ} {policy : Policy} {pc : MoveAllPc α} (ht : e.trace r = [])
      (hlog : ∀ q, .drain r ∉ e.log q) : LaunchOk L next e r (some ⟨q, policy, .moveAll pc⟩) []
  | fifo {q : κ} {policy : Policy} {node : α} {pc : MakeFifoPc α} {tasks : List (Task α)}
      (hw : Walk e r q policy tasks [] tasks) (hpolicy : policy.locality = false)
      (hnode : (tasks.map Task.node).getLast? = some node)
      (hok : FifoOk next (L.sentinel r) (tasks.map Task.node).reverse pc)
      (hread : FifoRead next tasks (e.trace r) pc) :
      LaunchOk L next e r (some ⟨q, policy, .makeFifo node pc⟩) (tasks.map Task.node)
  | test {q : κ} {policy : Policy} {op : Option α} {tasks done rest : List (Task α)}
      (hw : Walk e r q policy tasks done rest) (hch : Chain next op (rest.map Task.node))
      (ht : e.trace r = visited policy tasks done) :
      LaunchOk L next e r (some ⟨q, policy, .test op⟩) (rest.map Task.node)
  | call {q : κ} {policy : Policy} {x : Task α} {link : Option α}
      {tasks done rest : List (Task α)} (hw : Walk e r q policy tasks done (x :: rest))
      (hch : Chain next link (rest.map Task.node))
      (ht : e.trace r = visited policy tasks done ++ [.read x]) :
      LaunchOk L next e r (some ⟨q, policy, .call x.node link⟩) (x.node :: rest.map Task.node)
  | callback {q : κ} {policy : Policy} {link : Option α} {tasks done rest : List (Task α)}
      (hw : Walk e r q policy tasks done rest) (hch : Chain next link (rest.map Task.node))
      (ht : e.trace r = visited policy tasks done) :
      LaunchOk L next e r (some ⟨q, policy, .callback link⟩) (rest.map Task.node)
  | returned {q : κ} {policy : Policy} {tasks done : List (Task α)}
      (hw : Walk e r q policy tasks done []) (ht : e.trace r = visited policy tasks done) :
      LaunchOk L next e r (some ⟨q, policy, .returned⟩) []

/-- Of two entries of a queue the earlier push has the smaller number. -/
def Before (a b : Entry α ρ) : Prop :=
  ∀ x y, a = .push x → b = .push y → x.number < y.number

structure Inv (L : TaskMap.Layout α ρ) (s : State α κ τ ρ) (e : History α κ ρ)
    (own : α → Option (Place κ τ ρ)) (content : Place κ τ ρ → List α) : Prop where
  owned : Owned own content
  held : ∀ a, s.held a = true → own a = none
  stack : ∀ a, s.held a = true ∨ own a ≠ none → L.onStack a = false
  queue : ∀ q, Chain s.heap.next (s.heap.head q) (content (.queue q))
  listed : ∀ q, content (.queue q) = ((filled (e.log q)).map Task.node).reverse
  current : ∀ q, ∀ x ∈ filled (e.log q), e.number x.node = x.number
  pusher : ∀ t, PusherOk s.heap.next (s.pusher t) (content (.pusher t))
  launcher : ∀ r, LaunchOk L s.heap.next e r (s.launcher r) (content (.launcher r))
  ordered : ∀ q, (e.log q).Pairwise Before
  below : ∀ q x, .push x ∈ e.log q → x.number < e.pushes

/-! ## What is pushed and drained -/

section Filled

variable {log later : List (Entry α ρ)} {x : Task α} {r : ρ} {policy : Policy}
  {tasks done : List (Task α)}

@[simp] theorem filled_push : filled (log ++ [.push x]) = filled log ++ [x] := by
  simp [filled, fill, List.foldl_append]

@[simp] theorem filled_drain : filled (log ++ [.drain r]) = [] := by
  simp [filled, fill, List.foldl_append]

theorem mem_fill (hx : x ∈ log.foldl fill tasks) : x ∈ tasks ∨ .push x ∈ log := by
  induction log generalizing tasks with
  | nil => exact .inl hx
  | cons entry log ih =>
      rcases ih hx with hx | hx
      · cases entry with
        | push y =>
            rcases List.mem_append.mp hx with hx | hx
            · exact .inl hx
            · obtain rfl := List.mem_singleton.mp hx
              exact .inr (by simp)
        | drain r => cases hx
      · exact .inr (List.mem_cons_of_mem _ hx)

theorem push_mem_of_filled (hx : x ∈ filled log) : .push x ∈ log :=
  (mem_fill hx).resolve_left (by simp)

/-- Entries without a drain are pushes, and what they push is added. -/
theorem fill_pushes (hlater : ∀ r', .drain r' ∉ later) :
    ∃ pushed : List (Task α), later = pushed.map .push ∧ later.foldl fill tasks = tasks ++ pushed := by
  induction later generalizing tasks with
  | nil => exact ⟨[], rfl, by simp⟩
  | cons entry later ih =>
      cases entry with
      | push x =>
          obtain ⟨pushed, hmap, hfill⟩ :=
            ih fun r' hr' => hlater r' (List.mem_cons_of_mem _ hr')
          refine ⟨x :: pushed, by simp [hmap], ?_⟩
          rw [List.foldl_cons, fill, hfill, List.append_assoc, List.singleton_append]
      | drain r' => exact absurd (by simp) (hlater r')

/-- What is pushed after a drain stays as long as nobody drains the queue again. -/
theorem filled_later (hlater : ∀ r', .drain r' ∉ later) :
    later = (filled (log ++ .drain r :: later)).map .push := by
  obtain ⟨pushed, hmap, hfill⟩ := fill_pushes hlater
  have hfilled : filled (log ++ .drain r :: later) = pushed := by
    rw [filled, List.foldl_append, List.foldl_cons]
    exact hfill
  rw [hfilled, ← hmap]

theorem Took.mono (h : Took log r tasks) (hlater : .drain r ∉ later) :
    Took (log ++ later) r tasks := by
  obtain ⟨past, later', rfl, hpast, hlater', hfilled⟩ := h
  refine ⟨past, later' ++ later, by simp, hpast, ?_, hfilled⟩
  simp [hlater', hlater]

@[simp] theorem visited_snoc :
    visited policy tasks (done ++ [x]) =
      visited policy tasks done ++ [.read x, .call policy.callback x] := by
  simp [visited, visit]

end Filled

/-! ## Steps elsewhere -/

section Frame

variable {L : TaskMap.Layout α ρ} {next next' : α → Option α} {e e' : History α κ ρ} {r : ρ}
  {l : List α} {pc : PusherPc α κ} {x : Option (Launcher α κ)} {tasks done rest : List (Task α)}

theorem PusherOk.congr (h : PusherOk next pc l) (heq : ∀ a ∈ l, next' a = next a) :
    PusherOk next' pc l := by
  cases pc with
  | idle => exact h
  | push q op pc =>
      obtain ⟨rfl, hop⟩ := h
      refine ⟨rfl, fun node hpc => ?_⟩
      rw [heq op (by simp)]
      exact hop node hpc

/-- `e'` goes on from `e`, and launch `r` has done nothing between them. -/
structure Later (r : ρ) (e e' : History α κ ρ) : Prop where
  log : ∀ q, ∃ more, e'.log q = e.log q ++ more ∧ .drain r ∉ more
  trace : e'.trace r = e.trace r

theorem Later.refl (r : ρ) (e : History α κ ρ) : Later r e e :=
  ⟨fun q => ⟨[], by simp, by simp⟩, rfl⟩

theorem Later.not_drained (h : Later r e e') (hlog : ∀ q, .drain r ∉ e.log q) (q : κ) :
    .drain r ∉ e'.log q := by
  obtain ⟨more, heq, hmore⟩ := h.log q
  simp [heq, hlog q, hmore]

theorem Walk.later {q : κ} {policy : Policy} (hw : Walk e r q policy tasks done rest)
    (hlater : Later r e e') (hnumber : ∀ x ∈ rest, e'.number x.node = e.number x.node) :
    Walk e' r q policy tasks done rest where
  took := by
    obtain ⟨more, heq, hmore⟩ := hlater.log q
    rw [heq]
    exact hw.took.mono hmore
  nodup := hw.nodup
  split := hw.split
  current := fun x hx => (hnumber x hx).trans (hw.current x hx)

theorem Walk.order_nodup {q : κ} {policy : Policy} (hw : Walk e r q policy tasks done rest) :
    ((order policy tasks).map Task.node).Nodup := by
  unfold order
  split
  · rw [List.map_reverse, List.nodup_reverse]
    exact hw.nodup
  · exact hw.nodup

theorem Walk.set_trace {q : κ} {policy : Policy} (hw : Walk e r q policy tasks done rest)
    {trace : ρ → List (Event α)} : Walk { e with trace := trace } r q policy tasks done rest :=
  ⟨hw.took, hw.nodup, hw.split, hw.current⟩

theorem FifoRead.congr {trace : List (Event α)} {pc : MakeFifoPc α} {node : α}
    (hok : FifoOk next node (tasks.map Task.node).reverse pc) (h : FifoRead next tasks trace pc)
    (heq : ∀ a ∈ tasks.map Task.node, next' a = next a) : FifoRead next' tasks trace pc := by
  have hunread {cur : Option α} {unread old : List α} (hch : Chain next cur unread)
      (hrest : Chain next cur old) (hmem : ∀ a ∈ old, a ∈ tasks.map Task.node) :
      Chain next' cur unread := by
    obtain rfl := chain_unique hch hrest
    exact hch.congr fun a ha => heq a (hmem a ha)
  cases pc with
  | link => exact h
  | loop prev cur =>
      obtain ⟨unread, hch, htrace⟩ := h
      obtain ⟨moved, old, hl, -, hrest⟩ := hok
      refine ⟨unread, hunread hch hrest fun a ha => ?_, htrace⟩
      exact List.mem_reverse.mp (by simp [hl, ha])
  | relink prev cur nxt =>
      obtain ⟨unread, hch, htrace⟩ := h
      obtain ⟨moved, old, hl, -, -, hrest⟩ := hok
      refine ⟨unread, hunread hch hrest fun a ha => ?_, htrace⟩
      exact List.mem_reverse.mp (by simp [hl, ha])

theorem LaunchOk.later (h : LaunchOk L next e r x l) (hlater : Later r e e')
    (hnext : ∀ a ∈ l, next' a = next a) (hnumber : ∀ a ∈ l, e'.number a = e.number a) :
    LaunchOk L next' e' r x l := by
  have hwalk {q : κ} {policy : Policy} {tasks done rest : List (Task α)}
      (hw : Walk e r q policy tasks done rest) (hl : l = rest.map Task.node) :
      Walk e' r q policy tasks done rest :=
    hw.later hlater fun x hx => hnumber x.node (hl ▸ List.mem_map_of_mem hx)
  have htrace := hlater.trace
  cases h with
  | idle ht hlog => exact .idle (htrace.trans ht) (hlater.not_drained hlog)
  | moving ht hlog => exact .moving (htrace.trans ht) (hlater.not_drained hlog)
  | fifo hw hpolicy hnode hok hread =>
      have hok' := hok.congr fun a ha => hnext a (by simpa using ha)
      refine .fifo (hwalk hw rfl) hpolicy hnode hok' ?_
      rw [htrace]
      exact hread.congr hok hnext
  | test hw hch ht => exact .test (hwalk hw rfl) (hch.congr hnext) (htrace.trans ht)
  | call hw hch ht =>
      exact .call (hwalk hw rfl) (hch.congr fun a ha => hnext a (List.mem_cons_of_mem _ ha))
        (htrace.trans ht)
  | callback hw hch ht => exact .callback (hwalk hw rfl) (hch.congr hnext) (htrace.trans ht)
  | returned hw ht => exact .returned (hwalk hw rfl) (htrace.trans ht)

end Frame

/-! ## Steps of the clients and the pushers -/

namespace Inv

variable {L : TaskMap.Layout α ρ} {s : State α κ τ ρ} {e : History α κ ρ}
  {own : α → Option (Place κ τ ρ)} {content : Place κ τ ρ → List α} {h : Heap α κ} {t : τ} {r : ρ}
  {q : κ} {op : α}

theorem not_onStack (hi : Inv L s e own content) {p : Place κ τ ρ} {a : α} (ha : a ∈ content p) :
    L.onStack a = false :=
  hi.stack a (.inr (by simp [(hi.owned p a).mp ha]))

/-- A step of the owner of `p` on its own nodes and its stack. -/
theorem next_eq (hi : Inv L s e own content) {p p' : Place κ τ ρ} {next : α → Option α}
    (hframe : ∀ a, a ∉ content p → L.onStack a = false → next a = s.heap.next a) (hp : p' ≠ p) :
    ∀ a ∈ content p', next a = s.heap.next a :=
  fun a ha => hframe a (hi.owned.disjoint hp ha) (hi.not_onStack ha)

variable [DecidableEq α]

theorem write (hi : Inv L s e own content) {a : α} (ha : s.held a = true) (v : Option α) :
    Inv L { s with heap := s.heap.setNext a v } e own content := by
  have hout : ∀ p, ∀ b ∈ content p, Function.update s.heap.next a v b = s.heap.next b := by
    intro p b hb
    apply Function.update_of_ne
    rintro rfl
    exact hi.owned.not_mem_of_none (hi.held b ha) hb
  exact { hi with
    queue := fun q => (hi.queue q).congr (hout _)
    pusher := fun t => (hi.pusher t).congr (hout _)
    launcher := fun r => (hi.launcher r).later (.refl r e) (hout _) fun _ _ => rfl }

variable [DecidableEq κ] [DecidableEq τ] [DecidableEq ρ]

theorem push (hi : Inv L s e own content) (ht : s.pusher t = .idle) (hop : s.held op = true) :
    Inv L { s with
        pusher := Function.update s.pusher t (.push q op .load)
        held := Function.update s.held op false } e
      (fun a => if a ∈ [op] then some (.pusher t) else own a)
      (Function.update content (.pusher t) ([op] ++ content (.pusher t))) where
  owned := hi.owned.add (by simpa using hi.held op hop)
  held := by
    intro a ha
    by_cases haop : a = op
    · simp [haop] at ha
    · simpa [haop] using hi.held a (by simpa [haop] using ha)
  stack := by
    intro a ha
    by_cases haop : a = op
    · exact hi.stack a (.inl (haop ▸ hop))
    · exact hi.stack a (by simpa [haop] using ha)
  queue := by simpa using hi.queue
  listed := by simpa using hi.listed
  current := hi.current
  pusher := by
    intro u
    by_cases hu : u = t
    · subst hu
      have hidle := hi.pusher u
      rw [ht] at hidle
      simpa [PusherOk] using hidle
    · simpa [hu] using hi.pusher u
  launcher := by simpa using hi.launcher
  ordered := hi.ordered
  below := hi.below

omit [DecidableEq ρ] in
/-- `push` before its compare-exchange succeeds. -/
theorem pushing (hi : Inv L s e own content) {pc pc' : PushPc α} {spurious : Bool}
    (ht : s.pusher t = .push q op pc) (hs : pushStep s.heap q op spurious pc = (h, .running pc')) :
    Inv L { s with heap := h, pusher := Function.update s.pusher t (.push q op pc') }
      e own content := by
  have hcall := hi.pusher t
  rw [ht] at hcall
  obtain ⟨hcontent, hlink⟩ := hcall
  have hstep : h.head = s.heap.head ∧ (∀ a, a ≠ op → h.next a = s.heap.next a) ∧
      ∀ node, pc' = .cas node → h.next op = node := by
    cases pc with
    | load =>
        simp only [pushStep, Prod.mk.injEq, Call.running.injEq] at hs
        obtain ⟨rfl, rfl⟩ := hs
        exact ⟨rfl, fun _ _ => rfl, nofun⟩
    | write node =>
        simp only [pushStep, Prod.mk.injEq, Call.running.injEq] at hs
        obtain ⟨rfl, rfl⟩ := hs
        exact ⟨rfl, fun a ha => Function.update_of_ne ha _ _, by simp⟩
    | cas node =>
        simp only [pushStep] at hs
        split at hs
        · simp at hs
        · simp only [Prod.mk.injEq, Call.running.injEq] at hs
          obtain ⟨rfl, rfl⟩ := hs
          exact ⟨rfl, fun _ _ => rfl, nofun⟩
  obtain ⟨hhead, hframe, hlink'⟩ := hstep
  have hout {p : Place κ τ ρ} (hp : p ≠ .pusher t) : ∀ a ∈ content p, h.next a = s.heap.next a :=
    hi.next_eq (fun a ha _ => hframe a fun haop => ha (by simp [hcontent, haop])) hp
  exact { hi with
    queue := by
      intro q'
      rw [hhead]
      exact (hi.queue q').congr (hout (by simp))
    pusher := by
      intro u
      by_cases hu : u = t
      · subst hu
        have hcall : PusherOk h.next (.push q op pc') (content (.pusher u)) := ⟨hcontent, hlink'⟩
        simpa using hcall
      · simpa [hu] using (hi.pusher u).congr (hout (by simpa using hu))
    launcher := fun r => (hi.launcher r).later (.refl r e) (hout (by simp)) fun _ _ => rfl }

/-- The compare-exchange of `push` succeeds. -/
theorem pushed (hi : Inv L s e own content) {pc : PushPc α} {u : Unit} {spurious : Bool}
    (ht : s.pusher t = .push q op pc) (hs : pushStep s.heap q op spurious pc = (h, .returned u)) :
    Inv L { s with heap := h, pusher := Function.update s.pusher t .idle } (e.push q op)
      (fun a => if a ∈ [op] then some (.queue q) else own a)
      (Function.update (Function.update content (.pusher t) []) (.queue q)
        ([op] ++ content (.queue q))) := by
  have hcall := hi.pusher t
  rw [ht] at hcall
  obtain ⟨hcontent, hlink⟩ := hcall
  have hstep : h = s.heap.setHead q (some op) ∧ s.heap.next op = s.heap.head q := by
    cases pc with
    | load => simp [pushStep] at hs
    | write node => simp [pushStep] at hs
    | cas node =>
        simp only [pushStep] at hs
        split at hs
        · next hg =>
            simp only [Prod.mk.injEq] at hs
            exact ⟨hs.1.symm, (hlink node rfl).trans hg.1.symm⟩
        · simp at hs
  obtain ⟨rfl, hnext⟩ := hstep
  have hout {p : Place κ τ ρ} (hp : p ≠ .pusher t) : op ∉ content p :=
    hi.owned.disjoint (Ne.symm hp) (by simp [hcontent])
  have hnumber {p : Place κ τ ρ} (hp : p ≠ .pusher t) :
      ∀ a ∈ content p, (e.push q op).number a = e.number a := by
    intro a ha
    apply Function.update_of_ne
    rintro rfl
    exact hout hp ha
  have hlog (q' : κ) : (e.push q op).log q' =
      e.log q' ++ if q' = q then [.push ⟨op, e.pushes⟩] else [] := by
    by_cases hq : q' = q
    · subst hq
      simp [History.push]
    · simp [History.push, hq]
  have hmem {q' : κ} {x : Task α} (hx : x ∈ filled (e.log q')) :
      x.node ∈ content (.queue q') := by
    rw [hi.listed q']
    simpa using ⟨x, hx, rfl⟩
  exact {
    owned := hi.owned.move (by simp) (by simpa using hcontent) (by simp [hcontent])
    held := by
      intro a ha
      have hout : a ≠ op := by
        rintro rfl
        have hown := (hi.owned (.pusher t) a).mp (by simp [hcontent])
        simp [hi.held a ha] at hown
      simpa [hout] using hi.held a ha
    stack := by
      intro a ha
      by_cases haop : a = op
      · exact haop ▸ hi.not_onStack (p := .pusher t) (by simp [hcontent])
      · exact hi.stack a (by simpa [haop] using ha)
    queue := by
      intro q'
      by_cases hq : q' = q
      · subst hq
        simpa [hnext] using hi.queue q'
      · simpa [hq] using hi.queue q'
    listed := by
      intro q'
      rw [hlog]
      by_cases hq : q' = q
      · subst hq
        simp [hi.listed q']
      · simpa [hq] using hi.listed q'
    current := by
      intro q' x hx
      rw [hlog] at hx
      have hold (hx : x ∈ filled (e.log q')) :
          (e.push q op).number x.node = x.number :=
        (hnumber (by simp) x.node (hmem hx)).trans (hi.current q' x hx)
      by_cases hq : q' = q
      · rw [if_pos hq, filled_push] at hx
        rcases List.mem_append.mp hx with hx | hx
        · exact hold hx
        · obtain rfl := List.mem_singleton.mp hx
          simp [History.push]
      · exact hold (by simpa [hq] using hx)
    pusher := by
      intro u
      rw [Function.update_of_ne (by simp)]
      by_cases hu : u = t
      · subst hu
        simp [PusherOk]
      · simpa [hu] using hi.pusher u
    launcher := by
      intro r
      rw [Function.update_of_ne (by simp), Function.update_of_ne (by simp)]
      refine (hi.launcher r).later ⟨fun q' => ⟨_, hlog q', ?_⟩, rfl⟩ (fun _ _ => rfl)
        (hnumber (by simp))
      split <;> simp
    ordered := by
      intro q'
      rw [hlog]
      by_cases hq : q' = q
      · rw [if_pos hq, List.pairwise_append]
        refine ⟨hi.ordered q', by simp, ?_⟩
        rintro a ha b hb x y rfl rfl
        obtain rfl := Entry.push.inj (List.mem_singleton.mp hb)
        exact hi.below q' x ha
      · simpa [hq] using hi.ordered q'
    below := by
      intro q' x hx
      rw [hlog] at hx
      have hlt : x.number < e.pushes ∨ x.number = e.pushes := by
        rcases List.mem_append.mp hx with hx | hx
        · exact .inl (hi.below q' x hx)
        · split at hx
          · obtain rfl := Entry.push.inj (List.mem_singleton.mp hx)
            exact .inr rfl
          · cases hx
      simp only [History.push]
      omega }

/-! ## Steps of the launches -/

omit [DecidableEq α] [DecidableEq κ] [DecidableEq τ] in
/-- A step of launch `r` that keeps its nodes; `trace` is what it has read and called then. -/
theorem advance (hi : Inv L s e own content) {x : Option (Launcher α κ)} {trace : List (Event α)}
    (hhead : h.head = s.heap.head)
    (hframe : ∀ a, a ∉ content (.launcher r) → L.onStack a = false → h.next a = s.heap.next a)
    (hok : LaunchOk L h.next { e with trace := Function.update e.trace r trace } r x
      (content (.launcher r))) :
    Inv L { s with heap := h, launcher := Function.update s.launcher r x }
      { e with trace := Function.update e.trace r trace } own content := by
  have hout {p : Place κ τ ρ} (hp : p ≠ .launcher r) : ∀ a ∈ content p, h.next a = s.heap.next a :=
    hi.next_eq hframe hp
  exact {
    owned := hi.owned
    held := hi.held
    stack := hi.stack
    queue := by
      intro q
      rw [hhead]
      exact (hi.queue q).congr (hout (by simp))
    listed := hi.listed
    current := hi.current
    pusher := fun t => (hi.pusher t).congr (hout (by simp))
    launcher := by
      intro r'
      by_cases hr : r' = r
      · subst hr
        simpa using hok
      · have hlater : Later r' e { e with trace := Function.update e.trace r trace } :=
          ⟨fun q => ⟨[], by simp, by simp⟩, Function.update_of_ne hr _ _⟩
        simpa [hr] using (hi.launcher r').later hlater (hout (by simpa using hr)) fun _ _ => rfl
    ordered := hi.ordered
    below := hi.below }

omit [DecidableEq α] [DecidableEq κ] [DecidableEq τ] in
theorem advance_same (hi : Inv L s e own content) {x : Option (Launcher α κ)}
    (hhead : h.head = s.heap.head)
    (hframe : ∀ a, a ∉ content (.launcher r) → L.onStack a = false → h.next a = s.heap.next a)
    (hok : LaunchOk L h.next e r x (content (.launcher r))) :
    Inv L { s with heap := h, launcher := Function.update s.launcher r x } e own content := by
  have hsame : { e with trace := Function.update e.trace r (e.trace r) } = e := by simp
  rw [← hsame] at hok
  exact hsame ▸ hi.advance hhead hframe hok

/-- The compare-exchange of `move_all` succeeds. -/
theorem drained (hi : Inv L s e own content) {policy : Policy} {pc : MoveAllPc α}
    (hr : s.launcher r = some ⟨q, policy, .moveAll pc⟩) {pc' : LauncherPc α} {l : List α}
    (hl : ∀ a, a ∈ l ↔ a ∈ content (.queue q))
    (hok : LaunchOk L s.heap.next (e.drain q r) r (some ⟨q, policy, pc'⟩) l) :
    Inv L { s with
        heap := s.heap.setHead q none
        launcher := Function.update s.launcher r (some ⟨q, policy, pc'⟩) } (e.drain q r)
      (fun a => if a ∈ content (.queue q) then some (.launcher r) else own a)
      (Function.update (Function.update content (.queue q) []) (.launcher r) l) := by
  have hempty : content (.launcher r) = [] := by
    have hlaunch := hi.launcher r
    rw [hr] at hlaunch
    generalize content (.launcher r) = l at hlaunch
    cases hlaunch
    rfl
  have hlog (q' : κ) : (e.drain q r).log q' =
      e.log q' ++ if q' = q then [.drain r] else [] := by
    by_cases hq : q' = q
    · subst hq
      simp [History.drain]
    · simp [History.drain, hq]
  exact {
    owned := by
      have hmove := hi.owned.move (q := .launcher r) (by simp) (List.append_nil _).symm
        (chain_nodup (hi.queue q))
      intro p a
      rw [← hmove p a]
      by_cases hp : p = .launcher r
      · subst hp
        simp [hempty, hl]
      · simp [hp]
    held := by
      intro a ha
      have hout : a ∉ content (.queue q) := hi.owned.not_mem_of_none (hi.held a ha)
      simpa [hout] using hi.held a ha
    stack := by
      intro a ha
      by_cases haq : a ∈ content (.queue q)
      · exact hi.not_onStack haq
      · exact hi.stack a (by simpa [haq] using ha)
    queue := by
      intro q'
      by_cases hq : q' = q
      · subst hq
        simp
      · simpa [hq] using hi.queue q'
    listed := by
      intro q'
      rw [hlog]
      by_cases hq : q' = q
      · subst hq
        simp
      · simpa [hq] using hi.listed q'
    current := by
      intro q' x hx
      rw [hlog] at hx
      by_cases hq : q' = q
      · simp [hq] at hx
      · exact hi.current q' x (by simpa [hq] using hx)
    pusher := by simpa using hi.pusher
    launcher := by
      intro r'
      by_cases hr' : r' = r
      · subst hr'
        simpa using hok
      · have hlater : Later r' e (e.drain q r) := by
          refine ⟨fun q' => ⟨_, hlog q', ?_⟩, rfl⟩
          split <;> simp [hr']
        simpa [hr'] using (hi.launcher r').later hlater (fun _ _ => rfl) fun _ _ => rfl
    ordered := by
      intro q'
      rw [hlog, List.pairwise_append]
      refine ⟨hi.ordered q', ?_, ?_⟩
      · split <;> simp
      · rintro a - b hb x y - rfl
        split at hb <;> simp at hb
    below := by
      intro q' x hx
      rw [hlog] at hx
      refine hi.below q' x ?_
      rcases List.mem_append.mp hx with hx | hx
      · exact hx
      · split at hx <;> simp at hx }

/-- The callback of `op` is called: from then on the clients have the node. -/
theorem called (hi : Inv L s e own content) {x : Option (Launcher α κ)} {trace : List (Event α)}
    {rest : List α} (hcontent : content (.launcher r) = op :: rest) (hnd : (op :: rest).Nodup)
    (hok : LaunchOk L s.heap.next { e with trace := Function.update e.trace r trace } r x rest) :
    Inv L { s with
        held := Function.update s.held op true
        launcher := Function.update s.launcher r x }
      { e with trace := Function.update e.trace r trace }
      (fun a => if a ∈ [op] then none else own a)
      (Function.update content (.launcher r) rest) where
  owned := hi.owned.remove (by simpa using hcontent) (by rwa [hcontent])
  held := by
    intro a ha
    by_cases haop : a = op
    · simp [haop]
    · simpa [haop] using hi.held a (by simpa [haop] using ha)
  stack := by
    intro a ha
    by_cases haop : a = op
    · exact haop ▸ hi.not_onStack (p := .launcher r) (by simp [hcontent])
    · exact hi.stack a (by simpa [haop] using ha)
  queue := by simpa using hi.queue
  listed := by simpa using hi.listed
  current := hi.current
  pusher := by simpa using hi.pusher
  launcher := by
    intro r'
    by_cases hr : r' = r
    · subst hr
      simpa using hok
    · have hlater : Later r' e { e with trace := Function.update e.trace r trace } :=
        ⟨fun q => ⟨[], by simp, by simp⟩, Function.update_of_ne hr _ _⟩
      simpa [hr] using (hi.launcher r').later hlater (fun _ _ => rfl) fun _ _ => rfl
  ordered := hi.ordered
  below := hi.below

end Inv

section Step

variable {L : TaskMap.Layout α ρ} {s s' : State α κ τ ρ} {e : History α κ ρ}
  {own : α → Option (Place κ τ ρ)} {content : Place κ τ ρ → List α} {h : Heap α κ} {r : ρ}
  {q : κ} {policy : Policy} {spurious : Bool} {tasks : List (Task α)} {node : α}
  {pc pc' : MakeFifoPc α}

theorem mem_order {x : Task α} : x ∈ order policy tasks ↔ x ∈ tasks := by
  unfold order
  split <;> simp

/-- What `make_fifo` reads in one access. -/
def fifoTrace (e : History α κ ρ) (r : ρ) : MakeFifoPc α → List (Event α)
  | .loop _ (some cur) => e.trace r ++ [.read (e.task cur)]
  | _ => e.trace r

variable [DecidableEq α]

theorem FifoRead.running (h' : Heap α κ) (hread : FifoRead s.heap.next tasks (e.trace r) pc)
    (hok : FifoOk s.heap.next (L.sentinel r) (tasks.map Task.node).reverse pc)
    (hnode : (tasks.map Task.node).getLast? = some node)
    (hnd : (tasks.map Task.node).Nodup) (hsen : L.sentinel r ∉ tasks.map Task.node)
    (hcur : ∀ x ∈ tasks, e.number x.node = x.number)
    (hs : makeFifoStep s.heap (L.sentinel r) node pc = (h', .running pc')) :
    FifoRead h'.next tasks (fifoTrace e r pc) pc' := by
  cases pc with
  | link =>
      simp only [makeFifoStep, Prod.mk.injEq, Call.running.injEq] at hs
      obtain ⟨rfl, rfl⟩ := hs
      have hch : Chain s.heap.next (some node) (tasks.reverse.map Task.node) := by
        rw [FifoOk, List.head?_reverse, hnode, ← List.map_reverse] at hok
        exact hok
      refine ⟨tasks.reverse, hch.update (by simpa using hsen), ?_⟩
      rw [show fifoTrace e r .link = [] from hread, List.nil_append]
  | loop prev cur =>
      cases cur with
      | none => simp [makeFifoStep] at hs
      | some cur =>
          simp only [makeFifoStep, Prod.mk.injEq, Call.running.injEq] at hs
          obtain ⟨rfl, rfl⟩ := hs
          obtain ⟨unread, hch, htrace⟩ := hread
          cases unread with
          | nil => simp at hch
          | cons x unread =>
              obtain ⟨hx, hrest⟩ := hch
              obtain rfl : cur = x.node := Option.some.inj hx
              have hmem : x ∈ tasks := by
                have hx' : Event.read x ∈ tasks.reverse.map .read := by simp [← htrace]
                simpa using hx'
              have htask : e.task x.node = x := by simp [History.task, hcur x hmem]
              exact ⟨unread, hrest, by simpa [fifoTrace, htask] using htrace⟩
  | relink prev cur nxt =>
      simp only [makeFifoStep, Prod.mk.injEq, Call.running.injEq] at hs
      obtain ⟨rfl, rfl⟩ := hs
      obtain ⟨unread, hch, htrace⟩ := hread
      obtain ⟨moved, rest, hl, -, -, hrest⟩ := hok
      have hcur' : cur ∉ unread.map Task.node := by
        rw [← List.nodup_reverse, hl] at hnd
        rw [chain_unique hch hrest]
        exact (List.nodup_cons.mp (List.nodup_append.mp hnd).2.1).1
      exact ⟨unread, hch.update hcur', htrace⟩

theorem FifoRead.returned {h' : Heap α κ} {v : Option α}
    (hread : FifoRead s.heap.next tasks (e.trace r) pc)
    (hs : makeFifoStep s.heap (L.sentinel r) node pc = (h', .returned v)) :
    fifoTrace e r pc = tasks.reverse.map .read := by
  cases pc with
  | link => simp [makeFifoStep] at hs
  | relink prev cur nxt => simp [makeFifoStep] at hs
  | loop prev cur =>
      cases cur with
      | some cur => simp [makeFifoStep] at hs
      | none =>
          obtain ⟨unread, hch, htrace⟩ := hread
          obtain rfl : unread = [] := by simpa using chain_none.mp hch
          simpa [fifoTrace] using htrace

namespace Inv

variable [DecidableEq κ]

omit [DecidableEq α] in
/-- The tasks that a drain takes. -/
theorem walk_drained (hi : Inv L s e own content) (hlog : ∀ q, .drain r ∉ e.log q) :
    Walk (e.drain q r) r q policy (filled (e.log q)) [] (order policy (filled (e.log q))) where
  took := ⟨e.log q, [], by simp [History.drain], hlog q, by simp, rfl⟩
  nodup := by
    have hnd := chain_nodup (hi.queue q)
    rwa [hi.listed q, List.nodup_reverse] at hnd
  split := rfl
  current := fun x hx => hi.current q x (mem_order.mp hx)

variable [DecidableEq τ] [DecidableEq ρ]

theorem moveAll_step (hi : Inv L s e own content) {pc : MoveAllPc α}
    (hr : s.launcher r = some ⟨q, policy, .moveAll pc⟩)
    (hs : launcherStep L s r spurious = some s') :
    ∃ own' content', Inv L s' (noteLauncher e s r spurious) own' content' := by
  have hlaunch := hi.launcher r
  rw [hr] at hlaunch
  generalize hl : content (.launcher r) = l at hlaunch
  cases hlaunch with
  | moving ht hlog =>
  have hw : Walk (e.drain q r) r q policy (filled (e.log q)) []
      (order policy (filled (e.log q))) := hi.walk_drained hlog
  have hqueue := hi.queue q
  have hfilled := hi.listed q
  have htrace : (e.drain q r).trace r = [] := ht
  simp only [launcherStep, hr] at hs
  cases hm : moveAllStep s.heap q spurious pc with
  | mk h result =>
  cases result with
  | running pc' =>
      obtain rfl := moveAllStep_running hm
      simp only [hm, Option.some.injEq] at hs
      subst hs
      simp only [noteLauncher, hr, hm]
      have hok : LaunchOk L s.heap.next e r (some ⟨q, policy, .moveAll pc'⟩)
          (content (.launcher r)) := hl ▸ .moving ht hlog
      exact ⟨own, content, hi.advance_same rfl (fun _ _ _ => rfl) hok⟩
  | returned v =>
      obtain ⟨rfl, rfl⟩ := moveAllStep_returned hm
      have hnote : noteLauncher e s r spurious = e.drain q r := by simp only [noteLauncher, hr, hm]
      rw [hnote]
      have hmem : ∀ a, a ∈ (order policy (filled (e.log q))).map Task.node ↔
          a ∈ content (.queue q) := by simp [hi.listed, mem_order]
      rw [hi.listed q] at hqueue
      cases hhead : s.heap.head q with
      | none =>
          simp only [hm, hhead, Option.some.injEq] at hs
          subst hs
          have hnone : filled (e.log q) = [] := by
            rw [hhead, chain_none] at hqueue
            simpa using hqueue
          have hrest : order policy (filled (e.log q)) = [] := by simp [order, hnone]
          refine ⟨_, _, hi.drained hr hmem (.test hw ?_ ?_)⟩
          · rw [hrest]
            rfl
          · simp [htrace, visited, hnone]
      | some node =>
          simp only [hm, hhead, Option.some.injEq] at hs
          subst hs
          rw [hhead] at hqueue
          cases hpolicy : policy.locality with
          | true =>
              refine ⟨_, _, hi.drained hr hmem (.test hw ?_ ?_)⟩
              · simpa [order, hpolicy, List.map_reverse] using hqueue
              · simp [htrace, visited, hpolicy]
          | false =>
              have horder : order policy (filled (e.log q)) = filled (e.log q) := by
                simp [order, hpolicy]
              rw [horder] at hw hmem
              have hnode := hqueue.start_eq
              rw [Option.or_none, List.head?_reverse] at hnode
              refine ⟨_, _, hi.drained hr hmem (.fifo hw hpolicy hnode.symm ?_ htrace)⟩
              rw [FifoOk, List.head?_reverse, ← hnode]
              exact hqueue

omit [DecidableEq τ] in
theorem makeFifo_step (hi : Inv L s e own content)
    (hr : s.launcher r = some ⟨q, policy, .makeFifo node pc⟩)
    (hs : launcherStep L s r spurious = some s') :
    Inv L s' (noteLauncher e s r spurious) own content := by
  have hlaunch := hi.launcher r
  rw [hr] at hlaunch
  generalize hl : content (.launcher r) = l at hlaunch
  cases hlaunch with
  | fifo hw hpolicy hnode hok hread =>
  rename_i tasks
  have hnote : noteLauncher e s r spurious =
      { e with trace := Function.update e.trace r (fifoTrace e r pc) } := by
    rcases pc with _ | ⟨prev, _ | cur⟩ | _ <;>
      simp [noteLauncher, hr, fifoTrace, History.record]
  have hsen : L.sentinel r ∉ tasks.map Task.node := by
    intro hmem
    have hheap := hi.not_onStack (p := .launcher r) (hl ▸ hmem)
    simp [L.sentinel_onStack] at hheap
  have hhead : (tasks.map Task.node).reverse.head? = some node := by
    rw [List.head?_reverse, hnode]
  have hmem : node ∈ (tasks.map Task.node).reverse := List.mem_of_mem_head? hhead
  have hnd : (tasks.map Task.node).reverse.Nodup := List.nodup_reverse.mpr hw.nodup
  simp only [launcherStep, hr] at hs
  rw [hnote]
  cases hm : makeFifoStep s.heap (L.sentinel r) node pc with
  | mk h result =>
  obtain ⟨hheads, hframe⟩ := makeFifoStep_frame hmem hok hm
  have hout : ∀ a, a ∉ content (.launcher r) → L.onStack a = false →
      h.next a = s.heap.next a := by
    intro a ha hstack
    refine hframe a (by simpa [hl] using ha) ?_
    rintro rfl
    simp [L.sentinel_onStack] at hstack
  cases result with
  | running pc' =>
      simp only [hm, Option.some.injEq] at hs
      subst hs
      refine hi.advance hheads hout ?_
      rw [hl]
      refine .fifo hw.set_trace hpolicy hnode ?_ ?_
      · exact makeFifoStep_running hnd (by simpa using hsen) hhead hok hm
      · have hread' := hread.running h hok hnode hw.nodup hsen hw.current hm
        simpa using hread'
  | returned v =>
      simp only [hm, Option.some.injEq] at hs
      subst hs
      refine hi.advance hheads hout ?_
      rw [hl]
      refine .test hw.set_trace ?_ ?_
      · have hch := makeFifoStep_returned hnd hhead hok hm
        rwa [List.reverse_reverse] at hch
      · simp [hread.returned hm, visited, hpolicy]

omit [DecidableEq τ] in
/-- The condition of the loop, and the read of the link. -/
theorem test_step (hi : Inv L s e own content) {op : Option α}
    (hr : s.launcher r = some ⟨q, policy, .test op⟩)
    (hs : launcherStep L s r spurious = some s') :
    Inv L s' (noteLauncher e s r spurious) own content := by
  have hlaunch := hi.launcher r
  rw [hr] at hlaunch
  generalize hl : content (.launcher r) = l at hlaunch
  cases hlaunch with
  | test hw hch ht =>
  rename_i tasks done rest
  simp only [launcherStep, hr] at hs
  cases op with
  | none =>
      simp only [Option.some.injEq] at hs
      subst hs
      obtain rfl : rest = [] := by simpa using chain_none.mp hch
      simp only [noteLauncher, hr]
      refine hi.advance_same rfl (fun _ _ _ => rfl) ?_
      rw [hl]
      exact .returned hw ht
  | some op =>
      simp only [Option.some.injEq] at hs
      subst hs
      cases rest with
      | nil => simp at hch
      | cons x rest =>
          obtain ⟨hx, hrest⟩ := hch
          obtain rfl : op = x.node := Option.some.inj hx
          have htask : e.task x.node = x := by simp [History.task, hw.current x (by simp)]
          simp only [noteLauncher, hr, htask, History.record]
          refine hi.advance rfl (fun _ _ _ => rfl) ?_
          rw [hl]
          exact .call hw.set_trace hrest (by simp [ht])

theorem call_step (hi : Inv L s e own content) {op : α} {link : Option α}
    (hr : s.launcher r = some ⟨q, policy, .call op link⟩)
    (hs : launcherStep L s r spurious = some s') :
    ∃ own' content', Inv L s' (noteLauncher e s r spurious) own' content' := by
  have hlaunch := hi.launcher r
  rw [hr] at hlaunch
  generalize hl : content (.launcher r) = l at hlaunch
  cases hlaunch with
  | call hw hch ht =>
  rename_i x tasks done rest
  simp only [launcherStep, hr, Option.some.injEq] at hs
  subst hs
  have htask : e.task x.node = x := by simp [History.task, hw.current x (by simp)]
  have hnote : noteLauncher e s r spurious = { e with
      trace := Function.update e.trace r (visited policy tasks (done ++ [x])) } := by
    simp [noteLauncher, hr, htask, History.record, ht]
  rw [hnote]
  have hnd : (x.node :: rest.map Task.node).Nodup := by
    have hall := hw.order_nodup
    rw [hw.split, List.map_append, List.nodup_append] at hall
    exact hall.2.1
  have hdone : Walk e r q policy tasks (done ++ [x]) rest := { hw with
    split := by simp [hw.split]
    current := fun y hy => hw.current y (List.mem_cons_of_mem _ hy) }
  exact ⟨_, _, hi.called hl hnd (.callback hdone.set_trace hch (by simp))⟩

omit [DecidableEq τ] in
theorem callback_step (hi : Inv L s e own content) {link : Option α}
    (hr : s.launcher r = some ⟨q, policy, .callback link⟩)
    (hs : launcherStep L s r spurious = some s') :
    Inv L s' (noteLauncher e s r spurious) own content := by
  have hlaunch := hi.launcher r
  rw [hr] at hlaunch
  generalize hl : content (.launcher r) = l at hlaunch
  cases hlaunch with
  | callback hw hch ht =>
  simp only [launcherStep, hr, Option.some.injEq] at hs
  subst hs
  simp only [noteLauncher, hr]
  refine hi.advance_same rfl (fun _ _ _ => rfl) ?_
  rw [hl]
  exact .test hw hch ht

theorem launcher_step (hi : Inv L s e own content) (hs : launcherStep L s r spurious = some s') :
    ∃ own' content', Inv L s' (noteLauncher e s r spurious) own' content' := by
  cases hr : s.launcher r with
  | none => simp [launcherStep, hr] at hs
  | some l =>
      obtain ⟨q, policy, pc⟩ := l
      cases pc with
      | moveAll pc => exact hi.moveAll_step hr hs
      | makeFifo node pc => exact ⟨own, content, hi.makeFifo_step hr hs⟩
      | test op => exact ⟨own, content, hi.test_step hr hs⟩
      | call op link => exact hi.call_step hr hs
      | callback link => exact ⟨own, content, hi.callback_step hr hs⟩
      | returned => simp [launcherStep, hr] at hs

theorem pusher_step (hi : Inv L s e own content) {t : τ} (hs : pusherStep s t spurious = some s') :
    ∃ own' content', Inv L s' (note e s (.pusher t spurious) s') own' content' := by
  cases ht : s.pusher t with
  | idle => simp [pusherStep, ht] at hs
  | push q op pc =>
      simp only [pusherStep, ht] at hs
      cases hm : pushStep s.heap q op spurious pc with
      | mk h result =>
      cases result with
      | running pc' =>
          simp only [hm, Option.some.injEq] at hs
          subst hs
          simp only [note, ht, hm]
          exact ⟨_, _, hi.pushing ht hm⟩
      | returned u =>
          simp only [hm, Option.some.injEq] at hs
          subst hs
          simp only [note, ht, hm]
          exact ⟨_, _, hi.pushed ht hm⟩

theorem step (hi : Inv L s e own content) {a : Label α κ τ ρ} (hs : Launch.step L s a = some s') :
    ∃ own' content', Inv L s' (note e s a s') own' content' := by
  cases a with
  | write a v =>
      simp only [Launch.step] at hs
      split at hs
      · next ha =>
          obtain rfl := Option.some.inj hs
          exact ⟨_, _, hi.write ha v⟩
      · cases hs
  | push t q op =>
      simp only [Launch.step] at hs
      split at hs
      · next ht =>
          split at hs
          · next hop =>
              obtain rfl := Option.some.inj hs
              exact ⟨_, _, hi.push ht hop⟩
          · cases hs
      · cases hs
  | pusher t spurious => exact hi.pusher_step hs
  | launch r q policy =>
      simp only [Launch.step] at hs
      split at hs
      · next hr =>
          obtain rfl := Option.some.inj hs
          refine ⟨_, _, hi.advance_same (h := s.heap) rfl (fun _ _ _ => rfl) ?_⟩
          have hlaunch := hi.launcher r
          rw [hr] at hlaunch
          generalize content (.launcher r) = l at hlaunch
          cases hlaunch with
          | idle ht hlog => exact .moving ht hlog
      · cases hs
  | launcher r spurious => exact hi.launcher_step hs

end Inv

end Step

section Reachable

variable {L : TaskMap.Layout α ρ} {s : State α κ τ ρ} {p : State α κ τ ρ × History α κ ρ}

theorem init_inv (h : Init L s) :
    Inv L s (⟨fun _ => [], fun _ => [], 0, fun _ => 0⟩ : History α κ ρ) (fun _ => none) (fun _ => []) := by
  obtain ⟨hhead, hpusher, hlauncher, hheld⟩ := h
  exact {
    owned := fun p a => by simp
    held := fun _ _ => rfl
    stack := fun a ha => by simpa [hheld] using ha
    queue := hhead
    listed := fun q => rfl
    current := fun q x hx => by cases hx
    pusher := fun t => by rw [hpusher]; rfl
    launcher := fun r => by rw [hlauncher]; exact .idle rfl (by simp)
    ordered := fun q => .nil
    below := fun q x hx => by cases hx }

variable [DecidableEq α] [DecidableEq κ] [DecidableEq τ] [DecidableEq ρ]

theorem reachable_inv (hr : (historyMachine L).Reachable p) :
    ∃ own content, Inv L p.1 p.2 own content := by
  refine hr.invariant (fun p => ∃ own content, Inv L p.1 p.2 own content) ?_ ?_
  · rintro p ⟨hinit, he⟩
    rw [he]
    exact ⟨_, _, init_inv hinit⟩
  · rintro p a p' - ⟨own, content, hi⟩ - hs
    obtain ⟨hs, he⟩ := Machine.observed_step.mp hs
    rw [he]
    exact hi.step hs

end Reachable

end IoUring.Exec.Launch
