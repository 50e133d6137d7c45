import IoUring.Base.Chain

/-!
# `detail::intrusive_queue`

A queue is an atomic `_head` over nodes that carry their own `next` field. Each
member function is a small program whose steps are the single loads, stores
and compare-exchanges of the source; a caller interleaves these steps with
those of every other thread. A weak compare-exchange takes a flag that lets it
fail spuriously.
-/

namespace IoUring.Exec

variable {α κ : Type*}

/-- The memory shared by all queues: the `next` field of each node and the
`_head` of each queue. -/
structure Heap (α κ : Type*) where
  next : α → Option α
  head : κ → Option α

namespace Heap

variable (h : Heap α κ)

def setNext [DecidableEq α] (a : α) (v : Option α) : Heap α κ :=
  { h with next := Function.update h.next a v }

def setHead [DecidableEq κ] (q : κ) (v : Option α) : Heap α κ :=
  { h with head := Function.update h.head q v }

@[simp] theorem setNext_next [DecidableEq α] (a : α) (v : Option α) :
    (h.setNext a v).next = Function.update h.next a v := rfl

@[simp] theorem setNext_head [DecidableEq α] (a : α) (v : Option α) :
    (h.setNext a v).head = h.head := rfl

@[simp] theorem setHead_next [DecidableEq κ] (q : κ) (v : Option α) :
    (h.setHead q v).next = h.next := rfl

@[simp] theorem setHead_head [DecidableEq κ] (q : κ) (v : Option α) :
    (h.setHead q v).head = Function.update h.head q v := rfl

end Heap

/-- A member function in progress, or its return value. -/
inductive Call (π ρ : Type*) where
  | running (pc : π)
  | returned (value : ρ)
  deriving DecidableEq

/-! ## `push` -/

/-- The points of `push` between two accesses to memory. -/
inductive PushPc (α : Type*) where
  | load
  | write (node : Option α)
  | cas (node : Option α)
  deriving DecidableEq

def pushStep [DecidableEq α] [DecidableEq κ] (h : Heap α κ) (q : κ) (op : α) (spurious : Bool) :
    PushPc α → Heap α κ × Call (PushPc α) Unit
  | .load => (h, .running (.write (h.head q)))
  | .write node => (h.setNext op node, .running (.cas node))
  | .cas node =>
      if h.head q = node ∧ spurious = false then (h.setHead q (some op), .returned ())
      else (h, .running (.write (h.head q)))

/-! ## `move_all` -/

inductive MoveAllPc (α : Type*) where
  | load
  | cas (node : Option α)
  deriving DecidableEq

def moveAllStep [DecidableEq α] [DecidableEq κ] (h : Heap α κ) (q : κ) (spurious : Bool) :
    MoveAllPc α → Heap α κ × Call (MoveAllPc α) (Option α)
  | .load => (h, .running (.cas (h.head q)))
  | .cas node =>
      if h.head q = node ∧ spurious = false then (h.setHead q none, .returned node)
      else (h, .running (.cas (h.head q)))

section MoveAll

variable [DecidableEq α] [DecidableEq κ] {h h' : Heap α κ} {q : κ} {spurious : Bool}
  {pc pc' : MoveAllPc α} {v : Option α}

theorem moveAllStep_running (hs : moveAllStep h q spurious pc = (h', .running pc')) : h' = h := by
  cases pc with
  | load => simp_all [moveAllStep]
  | cas node =>
      simp only [moveAllStep] at hs
      split at hs <;> simp_all

/-- A successful compare-exchange returns the present head and leaves null. -/
theorem moveAllStep_returned (hs : moveAllStep h q spurious pc = (h', .returned v)) :
    v = h.head q ∧ h' = h.setHead q none := by
  cases pc with
  | load => simp [moveAllStep] at hs
  | cas node =>
      simp only [moveAllStep] at hs
      split at hs
      · next hg =>
          simp only [Prod.mk.injEq, Call.returned.injEq] at hs
          exact ⟨hs.2.symm.trans hg.1.symm, hs.1.symm⟩
      · simp at hs

end MoveAll

/-! ## `push_all` -/

inductive PushAllPc (α : Type*) where
  | test
  | walk (last : α)
  | load (last : α)
  | write (last : α) (node : Option α)
  | cas (last : α) (node : Option α)
  deriving DecidableEq

/-- `predicate` is given on nodes: every predicate of the source is false on
null, which is the only case in which `last` would be dereferenced as null. The
loop reads `last->*Next` for its test and again to move on; the node is in the
hands of the caller, so both reads find the same link and are one step here. -/
def pushAllStep [DecidableEq α] [DecidableEq κ] (h : Heap α κ) (q : κ) (first : Option α) (predicate : α → Bool)
    (spurious : Bool) : PushAllPc α → Heap α κ × Call (PushAllPc α) Unit
  | .test =>
      match first with
      | some a => (h, if predicate a then .running (.walk a) else .returned ())
      | none => (h, .returned ())
  | .walk last =>
      match h.next last with
      | some n => (h, .running (if predicate n then .walk n else .load last))
      | none => (h, .running (.load last))
  | .load last => (h, .running (.write last (h.head q)))
  | .write last node => (h.setNext last node, .running (.cas last node))
  | .cas last node =>
      if h.head q = node ∧ spurious = false then (h.setHead q first, .returned ())
      else (h, .running (.write last (h.head q)))

/-- A chain `l` in the hands of the caller of `push_all`, split where the walk
stands. From the first write on, the segment up to `last` no longer points to
what followed it. -/
def PushAllOk (next : α → Option α) (first : Option α) (predicate : α → Bool) (l : List α) :
    PushAllPc α → Prop
  | .test => Chain next first l
  | .walk last => ∃ seg rest, l = seg ++ last :: rest ∧ (∀ a ∈ seg ++ [last], predicate a) ∧
      Chain next first l
  | .load last => ∃ seg rest, l = seg ++ last :: rest ∧ (∀ a ∈ seg ++ [last], predicate a) ∧
      (∀ a ∈ rest.head?, predicate a = false) ∧ Chain next first l
  | .write last _ => ∃ seg rest, l = seg ++ last :: rest ∧ (∀ a ∈ seg ++ [last], predicate a) ∧
      (∀ a ∈ rest.head?, predicate a = false) ∧ l.Nodup ∧ Path next first seg (some last) ∧
      Chain next rest.head? rest
  | .cas last node => ∃ seg rest, l = seg ++ last :: rest ∧ (∀ a ∈ seg ++ [last], predicate a) ∧
      (∀ a ∈ rest.head?, predicate a = false) ∧ l.Nodup ∧ Path next first seg (some last) ∧
      Chain next rest.head? rest ∧ next last = node

section PushAll

variable {h h' : Heap α κ} {q : κ} {first : Option α} {predicate : α → Bool} {spurious : Bool}
  {l : List α} {pc pc' : PushAllPc α}

theorem PushAllOk.congr {next next' : α → Option α} (hok : PushAllOk next first predicate l pc)
    (heq : ∀ a ∈ l, next' a = next a) : PushAllOk next' first predicate l pc := by
  cases pc with
  | test => exact Path.congr hok heq
  | walk last =>
      obtain ⟨seg, rest, hl, hseg, hch⟩ := hok
      exact ⟨seg, rest, hl, hseg, hch.congr heq⟩
  | load last =>
      obtain ⟨seg, rest, hl, hseg, hrest, hch⟩ := hok
      exact ⟨seg, rest, hl, hseg, hrest, hch.congr heq⟩
  | write last node =>
      obtain ⟨seg, rest, rfl, hseg, hrest, hnd, hpath, hch⟩ := hok
      exact ⟨seg, rest, rfl, hseg, hrest, hnd, hpath.congr fun a ha => heq a (by simp [ha]),
        hch.congr fun a ha => heq a (by simp [ha])⟩
  | cas last node =>
      obtain ⟨seg, rest, rfl, hseg, hrest, hnd, hpath, hch, hnode⟩ := hok
      exact ⟨seg, rest, rfl, hseg, hrest, hnd, hpath.congr fun a ha => heq a (by simp [ha]),
        hch.congr fun a ha => heq a (by simp [ha]), (heq last (by simp)).trans hnode⟩

theorem PushAllOk.nodup {next : α → Option α} (hok : PushAllOk next first predicate l pc) :
    l.Nodup := by
  cases pc with
  | test => exact chain_nodup hok
  | walk last =>
      obtain ⟨_, _, -, -, hch⟩ := hok
      exact chain_nodup hch
  | load last =>
      obtain ⟨_, _, -, -, -, hch⟩ := hok
      exact chain_nodup hch
  | write last node =>
      obtain ⟨_, _, -, -, -, hnd, -⟩ := hok
      exact hnd
  | cas last node =>
      obtain ⟨_, _, -, -, -, hnd, -⟩ := hok
      exact hnd

variable [DecidableEq α] [DecidableEq κ]

/-- A step of `push_all` before its end writes at most one node of the chain. -/
theorem pushAllStep_running (hok : PushAllOk h.next first predicate l pc)
    (hs : pushAllStep h q first predicate spurious pc = (h', .running pc')) :
    PushAllOk h'.next first predicate l pc' ∧ h'.head = h.head ∧
      ∀ a, a ∉ l → h'.next a = h.next a := by
  cases pc with
  | test =>
      cases first with
      | none => simp [pushAllStep] at hs
      | some a =>
          simp only [pushAllStep, Prod.mk.injEq] at hs
          obtain ⟨rfl, hs⟩ := hs
          split at hs
          · next hp =>
              obtain rfl := Call.running.inj hs
              obtain ⟨rest, rfl, hrest⟩ := chain_some.mp hok
              exact ⟨⟨[], rest, rfl, by simpa using hp, hok⟩, rfl, fun _ _ => rfl⟩
          · cases hs
  | walk last =>
      obtain ⟨seg, rest, rfl, hseg, hch⟩ := hok
      obtain ⟨hpath, hrest⟩ := chain_split hch
      cases hn : h.next last with
      | none =>
          simp only [pushAllStep, hn, Prod.mk.injEq, Call.running.injEq] at hs
          obtain ⟨rfl, rfl⟩ := hs
          obtain rfl := chain_none.mp (hn ▸ hrest)
          exact ⟨⟨seg, [], rfl, hseg, by simp, hch⟩, rfl, fun _ _ => rfl⟩
      | some n =>
          simp only [pushAllStep, hn, Prod.mk.injEq, Call.running.injEq] at hs
          obtain ⟨rfl, rfl⟩ := hs
          obtain ⟨rest', rfl, hrest'⟩ := chain_some.mp (hn ▸ hrest)
          refine ⟨?_, rfl, fun _ _ => rfl⟩
          split
          · next hp =>
              refine ⟨seg ++ [last], rest', by simp, ?_, hch⟩
              intro a ha
              rcases List.mem_append.mp ha with ha | ha
              · exact hseg a ha
              · obtain rfl : a = n := by simpa using ha
                exact hp
          · next hp => exact ⟨seg, n :: rest', rfl, hseg, by simpa using hp, hch⟩
  | load last =>
      simp only [pushAllStep, Prod.mk.injEq, Call.running.injEq] at hs
      obtain ⟨rfl, rfl⟩ := hs
      obtain ⟨seg, rest, rfl, hseg, hrest, hch⟩ := hok
      obtain ⟨hpath, hch'⟩ := chain_split hch
      have hstart : Chain h.next rest.head? rest := by
        have heq := hch'.start_eq
        rw [Option.or_none] at heq
        rwa [heq] at hch'
      exact ⟨⟨seg, rest, rfl, hseg, hrest, chain_nodup hch, hpath, hstart⟩, rfl, fun _ _ => rfl⟩
  | write last node =>
      simp only [pushAllStep, Prod.mk.injEq, Call.running.injEq] at hs
      obtain ⟨rfl, rfl⟩ := hs
      obtain ⟨seg, rest, rfl, hseg, hrest, hnd, hpath, hch⟩ := hok
      have hnot : last ∉ seg ∧ last ∉ rest := by
        rw [List.nodup_append, List.nodup_cons] at hnd
        exact ⟨fun hm => hnd.2.2 last hm last (by simp) rfl, hnd.2.1.1⟩
      refine ⟨⟨seg, rest, rfl, hseg, hrest, hnd, hpath.update hnot.1, hch.update hnot.2, by simp⟩,
        rfl, ?_⟩
      intro a ha
      have hne : a ≠ last := by
        rintro rfl
        exact ha (by simp)
      simp [hne]
  | cas last node =>
      simp only [pushAllStep] at hs
      split at hs
      · simp at hs
      · simp only [Prod.mk.injEq, Call.running.injEq] at hs
        obtain ⟨rfl, rfl⟩ := hs
        obtain ⟨seg, rest, rfl, hseg, hrest, hnd, hpath, hch, -⟩ := hok
        exact ⟨⟨seg, rest, rfl, hseg, hrest, hnd, hpath, hch⟩, rfl, fun _ _ => rfl⟩

/-- `push_all` has put a segment on which the predicate holds in front of the
queue; the rest of the chain starts with a node on which it does not. -/
theorem pushAllStep_returned {u : Unit} (hok : PushAllOk h.next first predicate l pc)
    (hs : pushAllStep h q first predicate spurious pc = (h', .returned u)) :
    ∃ seg rest, l = seg ++ rest ∧ (∀ a ∈ seg, predicate a) ∧
      (∀ a ∈ rest.head?, predicate a = false) ∧ Chain h'.next rest.head? rest ∧
      h'.next = h.next ∧ (∀ q', q' ≠ q → h'.head q' = h.head q') ∧
      ∀ l', Chain h.next (h.head q) l' → Chain h'.next (h'.head q) (seg ++ l') := by
  cases pc with
  | test =>
      have hkeep (hrest : ∀ a ∈ l.head?, predicate a = false) (heq : h' = h) :
          ∃ seg rest, l = seg ++ rest ∧ (∀ a ∈ seg, predicate a) ∧
            (∀ a ∈ rest.head?, predicate a = false) ∧ Chain h'.next rest.head? rest ∧
            h'.next = h.next ∧ (∀ q', q' ≠ q → h'.head q' = h.head q') ∧
            ∀ l', Chain h.next (h.head q) l' → Chain h'.next (h'.head q) (seg ++ l') := by
        subst heq
        have hstart : first = l.head? := by simpa using Path.start_eq hok
        exact ⟨[], l, rfl, by simp, hrest, hstart ▸ hok, rfl, fun _ _ => rfl, fun _ hl' => hl'⟩
      cases first with
      | none =>
          simp only [pushAllStep, Prod.mk.injEq] at hs
          obtain rfl := chain_none.mp hok
          exact hkeep (by simp) hs.1.symm
      | some a =>
          simp only [pushAllStep, Prod.mk.injEq] at hs
          obtain ⟨rfl, hs⟩ := hs
          split at hs
          · cases hs
          · next hp =>
              obtain ⟨rest, rfl, -⟩ := chain_some.mp hok
              exact hkeep (by simpa using hp) rfl
  | walk last =>
      simp only [pushAllStep] at hs
      split at hs <;> simp at hs
  | load last => simp [pushAllStep] at hs
  | write last node => simp [pushAllStep] at hs
  | cas last node =>
      simp only [pushAllStep] at hs
      split at hs
      · next hg =>
          simp only [Prod.mk.injEq] at hs
          obtain ⟨rfl, -⟩ := hs
          obtain ⟨seg, rest, rfl, hseg, hrest, hnd, hpath, hch, hnode⟩ := hok
          refine ⟨seg ++ [last], rest, by simp, hseg, hrest, hch, rfl, ?_, ?_⟩
          · intro q' hq'
            simp [hq']
          · intro l' hl'
            have hlast : Path h.next first (seg ++ [last]) (h.head q) :=
              path_snoc.mpr ⟨hpath, hnode.trans hg.1.symm⟩
            simpa using hlast.trans hl'
      · simp at hs

end PushAll

/-! ## `make_fifo` -/

inductive MakeFifoPc (α : Type*) where
  | link
  | loop (prev : α) (cur : Option α)
  | relink (prev cur : α) (next : Option α)
  deriving DecidableEq

/-- `sentinel` is the address of the node on the stack of the caller. -/
def makeFifoStep [DecidableEq α] (h : Heap α κ) (sentinel node : α) :
    MakeFifoPc α → Heap α κ × Call (MakeFifoPc α) (Option α)
  | .link => (h.setNext sentinel (some node), .running (.loop sentinel (some node)))
  | .loop prev (some cur) => (h, .running (.relink prev cur (h.next cur)))
  | .loop prev none => (h.setNext node none, .returned (some prev))
  | .relink prev cur next => (h.setNext cur (some prev), .running (.loop cur next))

/-- The loop invariant of `make_fifo` on a chain `l`: a reversed part that ends
at the sentinel, and the part still in the old order. -/
def FifoOk (next : α → Option α) (sentinel : α) (l : List α) : MakeFifoPc α → Prop
  | .link => Chain next l.head? l
  | .loop prev cur => ∃ moved rest, l = moved ++ rest ∧
      Path next (some prev) moved.reverse (some sentinel) ∧ Chain next cur rest
  | .relink prev cur nxt => ∃ moved rest, l = moved ++ cur :: rest ∧
      Path next (some prev) moved.reverse (some sentinel) ∧ next cur = nxt ∧
      Chain next nxt rest

section MakeFifo

variable {h h' : Heap α κ} {sentinel node : α} {l : List α} {pc pc' : MakeFifoPc α}

theorem FifoOk.congr {next next' : α → Option α} (hok : FifoOk next sentinel l pc)
    (heq : ∀ a ∈ l, next' a = next a) : FifoOk next' sentinel l pc := by
  cases pc with
  | link => exact Path.congr hok heq
  | loop prev cur =>
      obtain ⟨moved, rest, rfl, hprev, hcur⟩ := hok
      exact ⟨moved, rest, rfl, hprev.congr fun a ha => heq a (by simp_all),
        hcur.congr fun a ha => heq a (by simp [ha])⟩
  | relink prev cur nxt =>
      obtain ⟨moved, rest, rfl, hprev, hlink, hrest⟩ := hok
      exact ⟨moved, rest, rfl, hprev.congr fun a ha => heq a (by simp_all),
        (heq cur (by simp)).trans hlink, hrest.congr fun a ha => heq a (by simp [ha])⟩

variable [DecidableEq α]

/-- `make_fifo` writes the nodes of its chain and its sentinel, nothing else. -/
theorem makeFifoStep_frame {r : Call (MakeFifoPc α) (Option α)} (hl : node ∈ l)
    (hok : FifoOk h.next sentinel l pc) (hs : makeFifoStep h sentinel node pc = (h', r)) :
    h'.head = h.head ∧ ∀ a, a ∉ l → a ≠ sentinel → h'.next a = h.next a := by
  have hframe (b : α) (v : Option α) (hb : b ∈ l ∨ b = sentinel) (a : α) (ha : a ∉ l)
      (has : a ≠ sentinel) : Function.update h.next b v a = h.next a := by
    apply Function.update_of_ne
    rintro rfl
    exact hb.elim ha has
  cases pc with
  | link =>
      simp only [makeFifoStep, Prod.mk.injEq] at hs
      obtain ⟨rfl, rfl⟩ := hs
      exact ⟨rfl, hframe sentinel (some node) (Or.inr rfl)⟩
  | loop prev cur =>
      cases cur with
      | none =>
          simp only [makeFifoStep, Prod.mk.injEq] at hs
          obtain ⟨rfl, rfl⟩ := hs
          exact ⟨rfl, hframe node none (Or.inl hl)⟩
      | some cur =>
          simp only [makeFifoStep, Prod.mk.injEq] at hs
          obtain ⟨rfl, rfl⟩ := hs
          exact ⟨rfl, fun a _ _ => rfl⟩
  | relink prev cur nxt =>
      simp only [makeFifoStep, Prod.mk.injEq] at hs
      obtain ⟨rfl, rfl⟩ := hs
      obtain ⟨moved, rest, rfl, -, -, -⟩ := hok
      exact ⟨rfl, hframe cur (some prev) (Or.inl (by simp))⟩

/-- Each step of the loop moves the reversal on by one node. -/
theorem makeFifoStep_running (hnd : l.Nodup) (hsen : sentinel ∉ l) (hhead : l.head? = some node)
    (hok : FifoOk h.next sentinel l pc)
    (hs : makeFifoStep h sentinel node pc = (h', .running pc')) :
    FifoOk h'.next sentinel l pc' := by
  cases pc with
  | link =>
      simp only [makeFifoStep, Prod.mk.injEq, Call.running.injEq] at hs
      obtain ⟨rfl, rfl⟩ := hs
      refine ⟨[], l, rfl, rfl, ?_⟩
      rw [← hhead]
      exact Path.update hok hsen
  | loop prev cur =>
      cases cur with
      | none => simp [makeFifoStep] at hs
      | some cur =>
          simp only [makeFifoStep, Prod.mk.injEq, Call.running.injEq] at hs
          obtain ⟨rfl, rfl⟩ := hs
          obtain ⟨moved, rest, rfl, hprev, hcur⟩ := hok
          obtain ⟨rest, rfl, hrest⟩ := chain_some.mp hcur
          exact ⟨moved, rest, rfl, hprev, rfl, hrest⟩
  | relink prev cur nxt =>
      simp only [makeFifoStep, Prod.mk.injEq, Call.running.injEq] at hs
      obtain ⟨rfl, rfl⟩ := hs
      obtain ⟨moved, rest, rfl, hprev, -, hrest⟩ := hok
      have hmoved : cur ∉ moved.reverse := by
        rw [List.nodup_append] at hnd
        intro hm
        exact hnd.2.2 cur (by simpa using hm) cur (by simp) rfl
      have hcur : cur ∉ rest := (List.nodup_cons.mp (List.nodup_append.mp hnd).2.1).1
      refine ⟨moved ++ [cur], rest, by simp, ?_, hrest.update hcur⟩
      rw [List.reverse_append]
      exact hprev.cons_update hmoved

/-- `make_fifo` returns the chain in the opposite order, null-terminated and
without the sentinel. -/
theorem makeFifoStep_returned {v : Option α} (hnd : l.Nodup) (hhead : l.head? = some node)
    (hok : FifoOk h.next sentinel l pc)
    (hs : makeFifoStep h sentinel node pc = (h', .returned v)) :
    Chain h'.next v l.reverse := by
  cases pc with
  | link => simp [makeFifoStep] at hs
  | relink prev cur nxt => simp [makeFifoStep] at hs
  | loop prev cur =>
      cases cur with
      | some cur => simp [makeFifoStep] at hs
      | none =>
          simp only [makeFifoStep, Prod.mk.injEq, Call.returned.injEq] at hs
          obtain ⟨rfl, rfl⟩ := hs
          obtain ⟨moved, rest, rfl, hprev, hcur⟩ := hok
          obtain rfl := chain_none.mp hcur
          -- the first node of the old chain is the last of the reversed one
          cases moved with
          | nil => simp at hhead
          | cons a moved =>
              obtain rfl : a = node := by simpa using hhead
              have ha : a ∉ moved.reverse := by simpa using (List.nodup_cons.mp (by simpa using hnd)).1
              rw [List.reverse_cons, path_snoc] at hprev
              simpa using hprev.1.snoc_update (v := none) ha

end MakeFifo

end IoUring.Exec
