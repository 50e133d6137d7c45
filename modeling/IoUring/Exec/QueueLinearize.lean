import IoUring.Base.Linearize
import IoUring.Base.Placement
import IoUring.Exec.IntrusiveQueue

/-!
# `intrusive_queue` is linearizable

Any number of threads call `push`, `push_all` and `move_all` on any number of
queues, one access to memory at a time. Nodes in the hands of the clients may be
written and pushed at will, also those that were drained before, so a
compare-exchange may find a node at the top that left the queue and came back
in the meantime.

The abstraction reads each queue as the list of the nodes on its chain. It
needs an owner for each node: a queue, a call in progress, or a drained
chain that its client has not walked to the end.
-/

namespace IoUring.Exec.Queue

/-! ## The atomic stack -/

/-- `chain` lists the nodes of the null-terminated chain that the caller passes. -/
inductive Op (α κ : Type*) where
  | push (q : κ) (op : α)
  | pushAll (q : κ) (chain : List α) (predicate : α → Bool)
  | moveAll (q : κ)

inductive Result (α : Type*) where
  | done
  | nodes (l : List α)
  deriving DecidableEq

variable {α κ τ : Type*} [DecidableEq α] [DecidableEq κ] [DecidableEq τ]

/-- A family of stacks of nodes, top first. -/
def stack : AtomicObject (κ → List α) (Op α κ) (Result α) where
  start := fun _ => []
  apply s
    | .push q op => (Function.update s q (op :: s q), .done)
    | .pushAll q chain predicate =>
        (Function.update s q (chain.takeWhile predicate ++ s q), .done)
    | .moveAll q => (Function.update s q [], .nodes (s q))

/-! ## Threads that call the queues -/

/-- A thread between two accesses. `returned rest` is a `push` or `push_all`
before its return, `rest` what the predicate left to the caller; `drained v` is a
`move_all` that will return `v`. -/
inductive Pc (α κ : Type*) where
  | idle
  | push (q : κ) (op : α) (pc : PushPc α)
  | pushAll (q : κ) (chain : List α) (predicate : α → Bool) (pc : PushAllPc α)
  | moveAll (q : κ) (pc : MoveAllPc α)
  | returned (rest : List α)
  | drained (v : Option α)

/-- `held` are the nodes that clients may write and push. `drained k` is how far
a client has walked the chain of the `k`-th `move_all`. -/
structure State (α κ τ : Type*) where
  heap : Heap α κ
  thread : τ → Pc α κ
  held : α → Bool
  drained : Nat → Option α
  drains : Nat

inductive Label (α κ τ : Type*) where
  | write (a : α) (v : Option α)
  | invoke (t : τ) (op : Op α κ)
  | access (t : τ) (spurious : Bool)
  | respond (t : τ)
  | walk (k : Nat)

/-- The nodes a client gives away with a call. -/
def Op.nodes : Op α κ → List α
  | .push _ op => [op]
  | .pushAll _ chain _ => chain
  | .moveAll _ => []

def Op.entry : Op α κ → Pc α κ
  | .push q op => .push q op .load
  | .pushAll q chain predicate => .pushAll q chain predicate .test
  | .moveAll q => .moveAll q .load

/-- A client passes to `push_all` the first node of a null-terminated chain. -/
def Op.Valid (next : α → Option α) : Op α κ → Prop
  | .pushAll _ chain _ => Chain next chain.head? chain
  | _ => True

def pathDecidable (next : α → Option α) (q : Option α) :
    (p : Option α) → (l : List α) → Decidable (Path next p l q)
  | p, [] => inferInstanceAs (Decidable (p = q))
  | p, a :: l =>
      have := pathDecidable next q (next a) l
      inferInstanceAs (Decidable (p = some a ∧ Path next (next a) l q))

instance (next : α → Option α) (p : Option α) (l : List α) (q : Option α) :
    Decidable (Path next p l q) := pathDecidable next q p l

instance (next : α → Option α) (op : Op α κ) : Decidable (op.Valid next) :=
  match op with
  | .push _ _ => inferInstanceAs (Decidable True)
  | .pushAll _ chain _ => inferInstanceAs (Decidable (Chain next chain.head? chain))
  | .moveAll _ => inferInstanceAs (Decidable True)

/-- One access of the call in progress. -/
def Pc.access (h : Heap α κ) (spurious : Bool) : Pc α κ → Option (Heap α κ × Pc α κ)
  | .push q op pc =>
      match pushStep h q op spurious pc with
      | (h', .running pc') => some (h', .push q op pc')
      | (h', .returned _) => some (h', .returned [])
  | .pushAll q chain predicate pc =>
      match pushAllStep h q chain.head? predicate spurious pc with
      | (h', .running pc') => some (h', .pushAll q chain predicate pc')
      | (h', .returned _) => some (h', .returned (chain.dropWhile predicate))
  | .moveAll q pc =>
      match moveAllStep h q spurious pc with
      | (h', .running pc') => some (h', .moveAll q pc')
      | (h', .returned v) => some (h', .drained v)
  | _ => none

def step (s : State α κ τ) : Label α κ τ → Option (State α κ τ)
  | .write a v =>
      if s.held a = true then some { s with heap := s.heap.setNext a v } else none
  | .invoke t op =>
      match s.thread t with
      | .idle =>
          if (∀ a ∈ op.nodes, s.held a = true) ∧ op.Valid s.heap.next then
            some { s with
              thread := Function.update s.thread t op.entry
              held := fun a => s.held a && decide (a ∉ op.nodes) }
          else none
      | _ => none
  | .access t spurious =>
      match (s.thread t).access s.heap spurious with
      | some (h, pc) => some { s with heap := h, thread := Function.update s.thread t pc }
      | none => none
  | .respond t =>
      match s.thread t with
      | .returned rest => some { s with
          thread := Function.update s.thread t .idle
          held := fun a => s.held a || decide (a ∈ rest) }
      | .drained v => some { s with
          thread := Function.update s.thread t .idle
          drained := Function.update s.drained s.drains v
          drains := s.drains + 1 }
      | _ => none
  | .walk k =>
      match s.drained k with
      | some a => some { s with
          held := Function.update s.held a true
          drained := Function.update s.drained k (s.heap.next a) }
      | none => none

/-- Empty queues, and all nodes with the clients; `next` is what their fields hold. -/
def start (next : α → Option α) : State α κ τ where
  heap := { next, head := fun _ => none }
  thread := fun _ => .idle
  held := fun _ => true
  drained := fun _ => none
  drains := 0

def machine : Machine (State α κ τ) (Label α κ τ) where
  init s := ∃ next, s = start next
  step := step

/-! ## What the callers see -/

inductive Value (α : Type*) where
  | void
  | pointer (p : Option α)
  deriving DecidableEq

/-- A response is seen together with the links in memory at that moment. -/
inductive Event (α κ τ : Type*) where
  | invocation (t : τ) (op : Op α κ)
  | response (t : τ) (value : Value α) (next : α → Option α)

def observe (s : State α κ τ) : Label α κ τ → Option (Event α κ τ)
  | .invoke t op => some (.invocation t op)
  | .respond t =>
      match s.thread t with
      | .returned _ => some (.response t .void s.heap.next)
      | .drained v => some (.response t (.pointer v) s.heap.next)
      | _ => none
  | _ => none

/-- A returned pointer stands for the nodes of an acyclic null-terminated chain. -/
inductive Matches : Event α κ τ → AtomicObject.Event τ (Op α κ) (Result α) → Prop where
  | invocation (t : τ) (op : Op α κ) : Matches (.invocation t op) (.invocation t op)
  | done (t : τ) (next : α → Option α) : Matches (.response t .void next) (.response t .done)
  | nodes (t : τ) (next : α → Option α) (v : Option α) (l : List α) :
      Chain next v l → l.Nodup → Matches (.response t (.pointer v) next) (.response t (.nodes l))

/-! ## The owner of each node -/

inductive Place (κ τ : Type*) where
  | queue (q : κ)
  | call (t : τ)
  | drained (k : Nat)
  deriving DecidableEq

/-- The nodes that a call in progress owns. -/
def CallOk (next : α → Option α) : Pc α κ → List α → Prop
  | .idle, l => l = []
  | .push _ op pc, l => l = [op] ∧ ∀ node, pc = .cas node → next op = node
  | .pushAll _ chain predicate pc, l =>
      l = chain ∧ PushAllOk next chain.head? predicate chain pc
  | .moveAll _ _, l => l = []
  | .returned rest, l => l = rest ∧ l.Nodup
  | .drained v, l => Chain next v l

structure Inv (s : State α κ τ) (own : α → Option (Place κ τ))
    (content : Place κ τ → List α) : Prop where
  owned : Owned own content
  held : ∀ a, s.held a = true → own a = none
  queue : ∀ q, Chain s.heap.next (s.heap.head q) (content (.queue q))
  call : ∀ t, CallOk s.heap.next (s.thread t) (content (.call t))
  drained : ∀ k, Chain s.heap.next (s.drained k) (content (.drained k))
  fresh : ∀ k, s.drains ≤ k → s.drained k = none

omit [DecidableEq α] [DecidableEq κ] in
theorem CallOk.congr {next next' : α → Option α} {pc : Pc α κ} {l : List α}
    (h : CallOk next pc l) (heq : ∀ a ∈ l, next' a = next a) : CallOk next' pc l := by
  cases pc with
  | idle => exact h
  | push q op pc =>
      obtain ⟨rfl, hop⟩ := h
      refine ⟨rfl, fun node hpc => ?_⟩
      rw [heq op (by simp)]
      exact hop node hpc
  | pushAll q chain predicate pc =>
      obtain ⟨rfl, hok⟩ := h
      exact ⟨rfl, hok.congr heq⟩
  | moveAll q pc => exact h
  | returned rest => exact h
  | drained v => exact Path.congr h heq

omit [DecidableEq α] [DecidableEq κ] in
theorem CallOk.nodup {next : α → Option α} {pc : Pc α κ} {l : List α} (h : CallOk next pc l) :
    l.Nodup := by
  cases pc with
  | idle => simp [show l = [] from h]
  | push q op pc => simp [h.1]
  | pushAll q chain predicate pc =>
      obtain ⟨rfl, hok⟩ := h
      exact hok.nodup
  | moveAll q pc => simp [show l = [] from h]
  | returned rest => exact h.2
  | drained v => exact chain_nodup h

omit [DecidableEq α] [DecidableEq κ] in
/-- Before its first access a call owns the nodes the client gave it. -/
theorem callOk_entry {next : α → Option α} {op : Op α κ} (h : op.Valid next) :
    CallOk next op.entry op.nodes := by
  cases op with
  | push q op => exact ⟨rfl, by simp⟩
  | pushAll q chain predicate => exact ⟨rfl, h⟩
  | moveAll q => rfl

namespace Inv

variable {s : State α κ τ} {own : α → Option (Place κ τ)} {content : Place κ τ → List α}

omit [DecidableEq α] [DecidableEq κ] [DecidableEq τ] in
theorem drained_eq_nil (hi : Inv s own content) {k : Nat} (hk : s.drains ≤ k) :
    content (.drained k) = [] :=
  chain_none.mp (hi.fresh k hk ▸ hi.drained k)

omit [DecidableEq α] [DecidableEq κ] [DecidableEq τ] in
theorem content_idle (hi : Inv s own content) {t : τ} (ht : s.thread t = .idle) :
    content (.call t) = [] := by
  have hcall := hi.call t
  rwa [ht] at hcall

omit [DecidableEq κ] [DecidableEq τ] in
/-- The clients hold no node that moves from one place to another. -/
theorem held_move (hi : Inv s own content) {p p' : Place κ τ} {l : List α}
    (hl : ∀ a ∈ l, a ∈ content p) (a : α) (ha : s.held a = true) :
    (if a ∈ l then some p' else own a) = none := by
  have hout : a ∉ l := fun hmem => hi.owned.not_mem_of_none (hi.held a ha) (hl a hmem)
  rw [if_neg hout]
  exact hi.held a ha

/-! ## The steps of the clients -/

omit [DecidableEq κ] [DecidableEq τ] in
theorem write (hi : Inv s own content) {a : α} (ha : s.held a = true) (v : Option α) :
    Inv { s with heap := s.heap.setNext a v } own content := by
  have hout : ∀ p, a ∉ content p := fun p => hi.owned.not_mem_of_none (hi.held a ha)
  have heq : ∀ p, ∀ b ∈ content p, Function.update s.heap.next a v b = s.heap.next b := by
    intro p b hb
    apply Function.update_of_ne
    rintro rfl
    exact hout p hb
  exact { hi with
    queue := fun q => (hi.queue q).congr (heq _)
    call := fun t => (hi.call t).congr (heq _)
    drained := fun k => (hi.drained k).congr (heq _) }

theorem invoke (hi : Inv s own content) {t : τ} {op : Op α κ} (ht : s.thread t = .idle)
    (hheld : ∀ a ∈ op.nodes, s.held a = true) (hop : op.Valid s.heap.next) :
    Inv { s with
        thread := Function.update s.thread t op.entry
        held := fun a => s.held a && decide (a ∉ op.nodes) }
      (fun a => if a ∈ op.nodes then some (.call t) else own a)
      (Function.update content (.call t) op.nodes) where
  owned := by
    have hadd := hi.owned.add (p := .call t) fun a ha => hi.held a (hheld a ha)
    rwa [hi.content_idle ht, List.append_nil] at hadd
  held := by
    intro a ha
    simp only [Bool.and_eq_true, decide_eq_true_eq] at ha
    rw [if_neg ha.2]
    exact hi.held a ha.1
  queue := by
    intro q
    rw [Function.update_of_ne (by simp)]
    exact hi.queue q
  call := by
    intro u
    by_cases hu : u = t
    · subst hu
      simpa using callOk_entry hop
    · simpa [hu] using hi.call u
  drained := by
    intro k
    rw [Function.update_of_ne (by simp)]
    exact hi.drained k
  fresh := hi.fresh

theorem respond_returned (hi : Inv s own content) {t : τ} {rest : List α}
    (ht : s.thread t = .returned rest) :
    Inv { s with
        thread := Function.update s.thread t .idle
        held := fun a => s.held a || decide (a ∈ rest) }
      (fun a => if a ∈ rest then none else own a)
      (Function.update content (.call t) []) where
  owned := by
    have hcall := hi.call t
    rw [ht] at hcall
    obtain ⟨hrest, hnd⟩ := hcall
    exact hi.owned.remove (by rw [hrest, List.append_nil]) hnd
  held := by
    intro a ha
    simp only [Bool.or_eq_true, decide_eq_true_eq] at ha
    by_cases har : a ∈ rest
    · rw [if_pos har]
    · rw [if_neg har]
      exact hi.held a (ha.resolve_right har)
  queue := by
    intro q
    rw [Function.update_of_ne (by simp)]
    exact hi.queue q
  call := by
    intro u
    by_cases hu : u = t
    · subst hu
      simp [CallOk]
    · simpa [hu] using hi.call u
  drained := by
    intro k
    rw [Function.update_of_ne (by simp)]
    exact hi.drained k
  fresh := hi.fresh

theorem respond_drained (hi : Inv s own content) {t : τ} {v : Option α}
    (ht : s.thread t = .drained v) :
    Inv { s with
        thread := Function.update s.thread t .idle
        drained := Function.update s.drained s.drains v
        drains := s.drains + 1 }
      (fun a => if a ∈ content (.call t) then some (.drained s.drains) else own a)
      (Function.update (Function.update content (.call t) []) (.drained s.drains)
        (content (.call t) ++ content (.drained s.drains))) where
  owned :=
    hi.owned.move (by simp) (List.append_nil _).symm (hi.call t).nodup
  held := hi.held_move fun _ h => h
  queue := by
    intro q
    rw [Function.update_of_ne (by simp), Function.update_of_ne (by simp)]
    exact hi.queue q
  call := by
    intro u
    rw [Function.update_of_ne (by simp)]
    by_cases hu : u = t
    · subst hu
      simp [CallOk]
    · simpa [hu] using hi.call u
  drained := by
    intro k
    by_cases hk : k = s.drains
    · subst hk
      have hcall := hi.call t
      rw [ht] at hcall
      simpa [hi.drained_eq_nil (Nat.le_refl _)] using (show Chain _ v _ from hcall)
    · simpa [hk] using hi.drained k
  fresh := by
    intro k hk
    have hne : k ≠ s.drains := by
      rintro rfl
      exact Nat.not_succ_le_self _ hk
    simpa [hne] using hi.fresh k (Nat.le_of_succ_le hk)

theorem walk (hi : Inv s own content) {k : Nat} {a : α} (hk : s.drained k = some a) :
    ∃ own', Inv { s with
        held := Function.update s.held a true
        drained := Function.update s.drained k (s.heap.next a) }
      own' (Function.update content (.drained k) (content (.drained k)).tail) := by
  have hchain := hi.drained k
  rw [hk] at hchain
  obtain ⟨l, hl, hrest⟩ := chain_some.mp hchain
  have howned := hi.owned.remove (l := [a]) hl (chain_nodup hchain)
  refine ⟨fun b => if b ∈ [a] then none else own b, ⟨?_, ?_, ?_, ?_, ?_, ?_⟩⟩
  · rwa [hl, List.tail_cons]
  · intro b hb
    by_cases hba : b = a
    · simp [hba]
    · simp only [Function.update_of_ne hba] at hb
      simpa [hba] using hi.held b hb
  · intro q
    rw [Function.update_of_ne (by simp)]
    exact hi.queue q
  · intro t
    rw [Function.update_of_ne (by simp)]
    exact hi.call t
  · intro j
    by_cases hj : j = k
    · subst hj
      simpa [hl] using hrest
    · simpa [hj] using hi.drained j
  · intro j hj
    have hne : j ≠ k := by
      rintro rfl
      rw [hi.fresh j hj] at hk
      cases hk
    simpa [hne] using hi.fresh j hj

/-! ## The accesses of a call -/

omit [DecidableEq α] [DecidableEq κ] in
/-- A call writes only nodes it owns. -/
theorem running (hi : Inv s own content) {t : τ} {h : Heap α κ} {pc : Pc α κ}
    (hhead : h.head = s.heap.head)
    (hout : ∀ a, a ∉ content (.call t) → h.next a = s.heap.next a)
    (hok : CallOk h.next pc (content (.call t))) :
    Inv { s with heap := h, thread := Function.update s.thread t pc } own content := by
  have heq : ∀ p, p ≠ .call t → ∀ a ∈ content p, h.next a = s.heap.next a :=
    fun p hp a ha => hout a (hi.owned.disjoint hp ha)
  refine { hi with queue := ?_, call := ?_, drained := ?_ }
  · intro q
    rw [hhead]
    exact (hi.queue q).congr (heq _ (by simp))
  · intro u
    by_cases hu : u = t
    · subst hu
      simpa using hok
    · have hcall := (hi.call u).congr (heq _ (by simpa using hu))
      simpa [hu] using hcall
  · intro k
    exact (hi.drained k).congr (heq _ (by simp))

/-- The successful compare-exchange of `push` and `push_all` moves the first nodes
of the call to the top of the queue. -/
theorem pushed (hi : Inv s own content) {t : τ} {q : κ} {h : Heap α κ} {seg rest : List α}
    (hcall : content (.call t) = seg ++ rest) (hnext : h.next = s.heap.next)
    (hhead : ∀ q', q' ≠ q → h.head q' = s.heap.head q')
    (hq : Chain h.next (h.head q) (seg ++ content (.queue q))) :
    Inv { s with heap := h, thread := Function.update s.thread t (.returned rest) }
      (fun a => if a ∈ seg then some (.queue q) else own a)
      (Function.update (Function.update content (.call t) rest) (.queue q)
        (seg ++ content (.queue q))) where
  owned := hi.owned.move (by simp) hcall (hi.call t).nodup
  held := by
    apply hi.held_move (p := .call t)
    intro a ha
    rw [hcall]
    exact List.mem_append_left rest ha
  queue := by
    intro q'
    by_cases hq' : q' = q
    · subst hq'
      simpa using hq
    · simpa [hq', hhead q' hq', hnext] using hi.queue q'
  call := by
    intro u
    rw [Function.update_of_ne (by simp)]
    by_cases hu : u = t
    · subst hu
      have hnd := (hi.call u).nodup
      rw [hcall, List.nodup_append] at hnd
      simpa [CallOk] using hnd.2.1
    · simpa [hu, hnext] using hi.call u
  drained := by
    intro k
    simpa [hnext] using hi.drained k
  fresh := hi.fresh

/-- The successful compare-exchange of `move_all` moves all nodes of the queue to the call. -/
theorem moved (hi : Inv s own content) {t : τ} {q : κ} (ht : content (.call t) = []) :
    Inv { s with
        heap := s.heap.setHead q none
        thread := Function.update s.thread t (.drained (s.heap.head q)) }
      (fun a => if a ∈ content (.queue q) then some (.call t) else own a)
      (Function.update (Function.update content (.queue q) []) (.call t)
        (content (.queue q) ++ content (.call t))) where
  owned :=
    hi.owned.move (by simp) (List.append_nil _).symm (chain_nodup (hi.queue q))
  held := hi.held_move fun _ h => h
  queue := by
    intro q'
    by_cases hq' : q' = q
    · subst hq'
      simp
    · simpa [hq'] using hi.queue q'
  call := by
    intro u
    by_cases hu : u = t
    · subst hu
      simpa [CallOk, ht] using hi.queue q
    · simpa [hu] using hi.call u
  drained := by
    intro k
    simpa using hi.drained k
  fresh := hi.fresh

end Inv

/-! ## What an access does -/

/-- The state of the caller as the atomic stack sees it, when `l` are the nodes of the call. -/
def Pc.client : Pc α κ → List α → AtomicObject.Client (Op α κ) (Result α)
  | .idle, _ => .idle
  | .push q op _, _ => .invoked (.push q op)
  | .pushAll q chain predicate _, _ => .invoked (.pushAll q chain predicate)
  | .moveAll q _, _ => .invoked (.moveAll q)
  | .returned _, _ => .applied .done
  | .drained _, l => .applied (.nodes l)

/-- An access either leaves all queues alone, or is the compare-exchange at which the
call takes effect. -/
inductive Access (h : Heap α κ) (pc : Pc α κ) (l : List α) (h' : Heap α κ) (pc' : Pc α κ) :
    Prop where
  | running (hhead : h'.head = h.head) (hout : ∀ a, a ∉ l → h'.next a = h.next a)
      (hok : CallOk h'.next pc' l) (hclient : pc'.client l = pc.client l)
  | pushed (q : κ) (op : Op α κ) (seg rest : List α) (hl : l = seg ++ rest)
      (hpc : pc' = .returned rest) (hnext : h'.next = h.next)
      (hhead : ∀ q', q' ≠ q → h'.head q' = h.head q')
      (hq : ∀ l', Chain h.next (h.head q) l' → Chain h'.next (h'.head q) (seg ++ l'))
      (hclient : pc.client l = .invoked op)
      (hop : ∀ s : κ → List α, stack.apply s op = (Function.update s q (seg ++ s q), .done))
  | moved (q : κ) (hl : l = []) (hpc : pc' = .drained (h.head q)) (hh : h' = h.setHead q none)
      (hclient : pc.client l = .invoked (.moveAll q))

section Access

variable {h h' : Heap α κ} {q : κ} {l : List α} {spurious : Bool} {r : Pc α κ}

theorem access_push {op : α} {pc : PushPc α} (hok : CallOk h.next (.push q op pc) l)
    (hs : (Pc.push q op pc).access h spurious = some (h', r)) :
    Access h (.push q op pc) l h' r := by
  obtain ⟨rfl, hlink⟩ := hok
  cases pc with
  | load =>
      simp only [Pc.access, pushStep, Option.some.injEq, Prod.mk.injEq] at hs
      obtain ⟨rfl, rfl⟩ := hs
      exact .running rfl (fun _ _ => rfl) ⟨rfl, by simp⟩ rfl
  | write node =>
      simp only [Pc.access, pushStep, Option.some.injEq, Prod.mk.injEq] at hs
      obtain ⟨rfl, rfl⟩ := hs
      refine .running rfl (fun a ha => ?_) ⟨rfl, by simp⟩ rfl
      have hne : a ≠ op := by simpa using ha
      simp [hne]
  | cas node =>
      by_cases hg : h.head q = node ∧ spurious = false
      · simp only [Pc.access, pushStep, if_pos hg, Option.some.injEq, Prod.mk.injEq] at hs
        obtain ⟨rfl, rfl⟩ := hs
        refine .pushed q (.push q op) [op] [] rfl rfl rfl (fun q' hq' => by simp [hq']) ?_ rfl
          fun s => rfl
        -- the node points to the expected top, and the expected top is the present one
        intro l' hl'
        have hop : h.next op = h.head q := (hlink node rfl).trans hg.1.symm
        simpa [hop] using hl'
      · simp only [Pc.access, pushStep, if_neg hg, Option.some.injEq, Prod.mk.injEq] at hs
        obtain ⟨rfl, rfl⟩ := hs
        exact .running rfl (fun _ _ => rfl) ⟨rfl, by simp⟩ rfl

omit [DecidableEq α] in
theorem takeWhile_split {p : α → Bool} {seg rest : List α} (hseg : ∀ a ∈ seg, p a)
    (hrest : ∀ a ∈ rest.head?, p a = false) :
    (seg ++ rest).takeWhile p = seg ∧ (seg ++ rest).dropWhile p = rest := by
  have hhead : rest.takeWhile p = [] ∧ rest.dropWhile p = rest := by
    cases rest with
    | nil => simp
    | cons a rest => simp [hrest a (by simp)]
  rw [List.takeWhile_append_of_pos hseg, List.dropWhile_append_of_pos hseg, hhead.1, hhead.2]
  simp

theorem access_pushAll {chain : List α} {predicate : α → Bool} {pc : PushAllPc α}
    (hok : CallOk h.next (.pushAll q chain predicate pc) l)
    (hs : (Pc.pushAll q chain predicate pc).access h spurious = some (h', r)) :
    Access h (.pushAll q chain predicate pc) l h' r := by
  obtain ⟨rfl, hwalk⟩ := hok
  simp only [Pc.access] at hs
  split at hs
  · next k pc' hstep =>
      simp only [Option.some.injEq, Prod.mk.injEq] at hs
      obtain ⟨rfl, rfl⟩ := hs
      obtain ⟨hok, hhead, hout⟩ := pushAllStep_running hwalk hstep
      exact .running hhead hout ⟨rfl, hok⟩ rfl
  · next k u hstep =>
      simp only [Option.some.injEq, Prod.mk.injEq] at hs
      obtain ⟨rfl, rfl⟩ := hs
      obtain ⟨seg, rest, rfl, hseg, hrest, -, hnext, hhead, hq⟩ :=
        pushAllStep_returned hwalk hstep
      obtain ⟨htake, hdrop⟩ := takeWhile_split hseg hrest
      refine .pushed q (.pushAll q (seg ++ rest) predicate) seg rest rfl (by rw [hdrop]) hnext
        hhead hq rfl fun s => ?_
      simp only [stack, htake]

theorem access_moveAll {pc : MoveAllPc α} (hok : CallOk h.next (.moveAll q pc) l)
    (hs : (Pc.moveAll q pc).access h spurious = some (h', r)) :
    Access h (.moveAll q pc) l h' r := by
  simp only [Pc.access] at hs
  split at hs
  · next k pc' hstep =>
      simp only [Option.some.injEq, Prod.mk.injEq] at hs
      obtain ⟨rfl, rfl⟩ := hs
      obtain rfl := moveAllStep_running hstep
      exact .running rfl (fun _ _ => rfl) hok rfl
  · next k v hstep =>
      simp only [Option.some.injEq, Prod.mk.injEq] at hs
      obtain ⟨rfl, rfl⟩ := hs
      obtain ⟨rfl, rfl⟩ := moveAllStep_returned hstep
      exact .moved q hok rfl rfl rfl

theorem access_spec {pc : Pc α κ} (hok : CallOk h.next pc l)
    (hs : pc.access h spurious = some (h', r)) : Access h pc l h' r := by
  cases pc with
  | push q op pc => exact access_push hok hs
  | pushAll q chain predicate pc => exact access_pushAll hok hs
  | moveAll q pc => exact access_moveAll hok hs
  | idle => simp [Pc.access] at hs
  | returned rest => simp [Pc.access] at hs
  | drained v => simp [Pc.access] at hs

end Access

/-! ## The simulation -/

/-- The state of the atomic stack that a state of the queues stands for. -/
def abs (s : State α κ τ) (content : Place κ τ → List α) :
    AtomicObject.State (κ → List α) (Op α κ) (Result α) τ where
  object q := content (.queue q)
  client t := (s.thread t).client (content (.call t))

omit [DecidableEq α] [DecidableEq κ] in
theorem abs_update (s : State α κ τ) (content : Place κ τ → List α)
    {content' : Place κ τ → List α} {t : τ} {pc : Pc α κ} {heap : Heap α κ} {held : α → Bool}
    {drained : Nat → Option α} {drains : Nat}
    (hcall : ∀ u, u ≠ t → content' (.call u) = content (.call u)) :
    abs ⟨heap, Function.update s.thread t pc, held, drained, drains⟩ content' = {
      object := fun q => content' (.queue q)
      client := Function.update (abs s content).client t (pc.client (content' (.call t))) } := by
  simp only [abs, AtomicObject.State.mk.injEq, true_and]
  funext u
  by_cases hu : u = t
  · subst hu
    simp
  · simp [hu, hcall u hu]

section Step

variable {s s' : State α κ τ} {own : α → Option (Place κ τ)} {content : Place κ τ → List α}

/-- An access is answered by nothing, or by the step at which its operation takes effect. -/
theorem Inv.access (hi : Inv s own content) {t : τ} {spurious : Bool}
    (hs : step s (.access t spurious) = some s') :
    ∃ bs own' content', Inv s' own' content' ∧
      stack.machine.run (abs s content) bs = some (abs s' content') ∧
      stack.machine.history AtomicObject.observe (abs s content) bs = [] := by
  simp only [step] at hs
  split at hs
  case h_2 => cases hs
  case h_1 h pc hacc =>
    obtain rfl := Option.some.inj hs
    cases access_spec (hi.call t) hacc with
    | running hhead hout hok hclient =>
        refine ⟨[], own, content, hi.running hhead hout hok, ?_, rfl⟩
        rw [Machine.run_nil, abs_update s content fun _ _ => rfl, hclient]
        simp [abs]
    | pushed q op seg rest hl hpc hnext hhead hq hclient hop =>
        obtain rfl := hpc
        have hinv := hi.pushed hl hnext hhead (hq _ (hi.queue q))
        obtain ⟨hrun, hhist⟩ := AtomicObject.run_apply (o := stack) (s := abs s content) hclient
        refine ⟨[.apply t], _, _, hinv, ?_, hhist⟩
        rw [hrun, abs_update s content fun u hu => by simp [hu], hop]
        simp only [Option.some.injEq, AtomicObject.State.mk.injEq]
        refine ⟨?_, rfl⟩
        funext q'
        by_cases hq' : q' = q
        · subst hq'
          simp [abs]
        · simp [abs, hq']
    | moved q hl hpc hh hclient =>
        obtain rfl := hpc
        obtain rfl := hh
        have hinv := hi.moved (q := q) hl
        obtain ⟨hrun, hhist⟩ := AtomicObject.run_apply (o := stack) (s := abs s content) hclient
        refine ⟨[.apply t], _, _, hinv, ?_, hhist⟩
        rw [hrun, abs_update s content fun u hu => by simp [hu]]
        simp only [Option.some.injEq, AtomicObject.State.mk.injEq]
        refine ⟨?_, by simp [stack, abs, Pc.client, hl]⟩
        funext q'
        by_cases hq' : q' = q
        · subst hq'
          simp [stack]
        · simp [stack, abs, hq']

theorem Inv.step (hi : Inv s own content) {a : Label α κ τ} (hs : step s a = some s') :
    ∃ bs own' content', Inv s' own' content' ∧
      stack.machine.run (abs s content) bs = some (abs s' content') ∧
      List.Forall₂ Matches (observe s a).toList
        (stack.machine.history AtomicObject.observe (abs s content) bs) := by
  cases a with
  | write a v =>
      simp only [Queue.step] at hs
      split at hs
      · next ha =>
          obtain rfl := Option.some.inj hs
          exact ⟨[], own, content, hi.write ha v, rfl, .nil⟩
      · cases hs
  | invoke t op =>
      simp only [Queue.step] at hs
      split at hs
      · next ht =>
          split at hs
          · next hg =>
              obtain rfl := Option.some.inj hs
              have hidle : (abs s content).client t = .idle := by simp [abs, ht, Pc.client]
              obtain ⟨hrun, hhist⟩ := AtomicObject.run_invoke (o := stack) op hidle
              refine ⟨[.invoke t op], _, _, hi.invoke ht hg.1 hg.2, ?_, ?_⟩
              · rw [hrun, abs_update s content fun u hu => by simp [hu]]
                cases op <;> simp [abs, Op.entry, Pc.client]
              · rw [hhist]
                exact .cons (.invocation t op) .nil
          · cases hs
      · cases hs
  | access t spurious =>
      obtain ⟨bs, own', content', hinv, hrun, hhist⟩ := hi.access hs
      refine ⟨bs, own', content', hinv, hrun, ?_⟩
      rw [hhist]
      exact .nil
  | respond t =>
      simp only [Queue.step] at hs
      split at hs
      · next rest ht =>
          obtain rfl := Option.some.inj hs
          have hdone : (abs s content).client t = .applied .done := by simp [abs, ht, Pc.client]
          obtain ⟨hrun, hhist⟩ := AtomicObject.run_respond (o := stack) hdone
          refine ⟨[.respond t], _, _, hi.respond_returned ht, ?_, ?_⟩
          · rw [hrun, abs_update s content fun u hu => by simp [hu]]
            simp [abs, Pc.client]
          · rw [hhist]
            simp only [observe, ht]
            exact .cons (.done t _) .nil
      · next v ht =>
          obtain rfl := Option.some.inj hs
          have hnodes : (abs s content).client t = .applied (.nodes (content (.call t))) := by
            simp [abs, ht, Pc.client]
          obtain ⟨hrun, hhist⟩ := AtomicObject.run_respond (o := stack) hnodes
          have hcall := hi.call t
          rw [ht] at hcall
          refine ⟨[.respond t], _, _, hi.respond_drained ht, ?_, ?_⟩
          · rw [hrun, abs_update s content fun u hu => by simp [hu]]
            simp [abs, Pc.client]
          · rw [hhist]
            simp only [observe, ht]
            exact .cons (.nodes t _ v _ hcall (chain_nodup hcall)) .nil
      · cases hs
  | walk k =>
      simp only [Queue.step] at hs
      split at hs
      · next a hk =>
          obtain rfl := Option.some.inj hs
          obtain ⟨own', hinv⟩ := hi.walk hk
          refine ⟨[], own', _, hinv, ?_, .nil⟩
          simp [abs]
      · cases hs

end Step

omit [DecidableEq α] [DecidableEq κ] [DecidableEq τ] in
theorem start_inv (next : α → Option α) :
    Inv (start next : State α κ τ) (fun _ => none) fun _ => [] where
  owned := by simp [Owned]
  held := fun _ _ => rfl
  queue := fun _ => rfl
  call := fun _ => rfl
  drained := fun _ => rfl
  fresh := fun _ _ => rfl

/-- The calls of any number of threads on any number of queues return what the calls on
an atomic stack return, each `move_all` the chain of the nodes on its stack. -/
theorem intrusive_queue_linearizable (next : α → Option α) (as : List (Label α κ τ)) :
    AtomicObject.Linearizable stack Matches (machine.history observe (start next) as) := by
  have hstart : ∃ own content, Inv (start next : State α κ τ) own content ∧
      (⟨fun _ => [], fun _ => .idle⟩ : AtomicObject.State _ _ _ τ) = abs (start next) content :=
    ⟨_, _, start_inv next, rfl⟩
  obtain ⟨bs, t, hrun, hhist⟩ := Machine.history_simulates (m := machine)
    (stack : AtomicObject _ (Op α κ) _).machine
    (fun s u => ∃ own content, Inv s own content ∧ u = abs s content) Matches
    (fun s u a s' ⟨own, content, hi, hu⟩ hs => by
      subst hu
      obtain ⟨bs, own', content', hinv, hrun, hhist⟩ := hi.step hs
      exact ⟨bs, _, hrun, ⟨own', content', hinv, rfl⟩, hhist⟩)
    hstart as
  exact ⟨_, bs, t, rfl, hrun, hhist⟩

/-- While `1` is pushed onto `0`, another thread drains `0` and pushes `2` and `0`; the
compare-exchange still finds `0` at the top. -/
example :
    let push (t : Bool) (a : Fin 3) : List (Label (Fin 3) Unit Bool) :=
      [.invoke t (.push () a), .access t false, .access t false, .access t false, .respond t]
    let interrupted : List (Label (Fin 3) Unit Bool) :=
      [.invoke false (.push () 1), .access false false, .access false true,
        .invoke true (.moveAll ()), .access true false, .access true false, .respond true, .walk 0]
    ((machine.run (start fun _ => none)
      (push true 0 ++ interrupted ++ push true 2 ++ push true 0 ++ [.access false false])).map
        fun s => (s.heap.head (), s.heap.next 1, s.heap.next 0, s.heap.next 2)) =
      some (some 1, some 0, some 2, none) := by
  decide

end IoUring.Exec.Queue
