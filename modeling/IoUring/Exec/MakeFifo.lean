import IoUring.Base.Machine
import IoUring.Exec.IntrusiveQueue

/-!
# `make_fifo` from its call to its return

The loop takes the nodes out of the old chain one by one and puts each in front of
the reversed part, which ends at a node on the stack of the call. The first node of the
old chain is the last one of the new chain, and its link to the stack is cut at the end.
-/

namespace IoUring.Exec

/-- The nodes of the heap, and the node on the stack of `make_fifo`. -/
inductive Address (α : Type*) where
  | node (a : α)
  | sentinel
  deriving DecidableEq

variable {α κ : Type*} [DecidableEq α]

/-- `make_fifo` from a point of its loop on, when it returns within `fuel` accesses. -/
def makeFifoFrom (sentinel node : α) :
    Nat → Heap α κ → MakeFifoPc α → Option (Heap α κ × Option α)
  | 0, _, _ => none
  | fuel + 1, h, pc =>
      match makeFifoStep h sentinel node pc with
      | (h', .running pc') => makeFifoFrom sentinel node fuel h' pc'
      | (h', .returned v) => some (h', v)

/-- `make_fifo`, when it returns within `fuel` accesses. -/
def makeFifo (fuel : Nat) (h : Heap (Address α) κ) (node : Option α) :
    Option (Heap (Address α) κ × Option (Address α)) :=
  match node with
  | none => some (h, none)
  | some a => makeFifoFrom .sentinel (.node a) fuel h .link

section MakeFifo

variable {h h' : Heap α κ} {sentinel node : α} {l rest : List α} {cur : Option α} {prev : α}
  {pc pc' : MakeFifoPc α}

theorem makeFifoFrom_running {fuel : Nat}
    (hs : makeFifoStep h sentinel node pc = (h', .running pc')) :
    makeFifoFrom sentinel node (fuel + 1) h pc = makeFifoFrom sentinel node fuel h' pc' := by
  rw [makeFifoFrom, hs]

/-- What `make_fifo` leaves behind on a chain `l`. -/
structure Reversed (h h' : Heap α κ) (sentinel : α) (l : List α) : Prop where
  chain : Chain h'.next l.getLast? l.reverse
  head : h'.head = h.head
  frame : ∀ a, a ∉ l → a ≠ sentinel → h'.next a = h.next a

theorem Reversed.of_step {r : Call (MakeFifoPc α) (Option α)} {k : Heap α κ}
    (hr : Reversed h' k sentinel l) (hl : node ∈ l) (hok : FifoOk h.next sentinel l pc)
    (hs : makeFifoStep h sentinel node pc = (h', r)) : Reversed h k sentinel l := by
  obtain ⟨hhead, hframe⟩ := makeFifoStep_frame hl hok hs
  exact {
    chain := hr.chain
    head := hr.head.trans hhead
    frame := fun a ha has => (hr.frame a ha has).trans (hframe a ha has) }

/-- The loop, on the part of the chain that is still in the old order. -/
theorem makeFifoFrom_loop (hnd : l.Nodup) (hsen : sentinel ∉ l) (hhead : l.head? = some node)
    (hok : FifoOk h.next sentinel l (.loop prev cur)) (hcur : Chain h.next cur rest) :
    ∃ h', makeFifoFrom sentinel node (2 * rest.length + 1) h (.loop prev cur) =
      some (h', l.getLast?) ∧ Reversed h h' sentinel l := by
  have hl : node ∈ l := List.mem_of_mem_head? hhead
  induction rest generalizing h prev cur with
  | nil =>
      obtain rfl : cur = none := hcur
      have hs : makeFifoStep h sentinel node (.loop prev none) =
          (h.setNext node none, .returned (some prev)) := rfl
      have hchain := makeFifoStep_returned hnd hhead hok hs
      have hlast : some prev = l.getLast? := by
        have hstart := hchain.start_eq
        rwa [Option.or_none, List.head?_reverse] at hstart
      have hframe := makeFifoStep_frame hl hok hs
      exact ⟨_, by rw [← hlast]; rfl, hlast ▸ hchain, hframe.1, hframe.2⟩
  | cons a rest ih =>
      obtain ⟨rfl, hrest⟩ := hcur
      have hread : makeFifoStep h sentinel node (.loop prev (some a)) =
          (h, .running (.relink prev a (h.next a))) := rfl
      have hok' := makeFifoStep_running hnd hsen hhead hok hread
      have hwrite : makeFifoStep h sentinel node (.relink prev a (h.next a)) =
          (h.setNext a (some prev), .running (.loop a (h.next a))) := rfl
      have hok'' := makeFifoStep_running hnd hsen hhead hok' hwrite
      -- the node that was relinked is not in the rest of the old chain
      have hout : a ∉ rest := by
        have hchain : Chain h.next (some a) (a :: rest) := ⟨rfl, hrest⟩
        exact (List.nodup_cons.mp (chain_nodup hchain)).1
      obtain ⟨k, hrun, hrev⟩ := ih hok'' (hrest.update hout)
      refine ⟨k, ?_, (hrev.of_step hl hok' hwrite).of_step hl hok hread⟩
      rw [List.length_cons, Nat.mul_succ, makeFifoFrom_running hread, makeFifoFrom_running hwrite,
        hrun]

end MakeFifo

/-- On every acyclic null-terminated chain `make_fifo` returns the last node, from which the
chain leads in the opposite order to null and never to the stack. No other node is written. -/
theorem make_fifo_reverses {h : Heap (Address α) κ} {node : Option α} {l : List α}
    (hl : Chain h.next (node.map .node) (l.map .node)) :
    ∃ h', makeFifo (2 * l.length + 2) h node = some (h', l.getLast?.map .node) ∧
      Chain h'.next (l.getLast?.map .node) (l.reverse.map .node) ∧
      (∀ a ∈ l, h'.next (.node a) ≠ some .sentinel) ∧
      (∀ a, a ∉ l → h'.next (.node a) = h.next (.node a)) ∧ h'.head = h.head := by
  cases node with
  | none =>
      obtain rfl : l = [] := by simpa using chain_none.mp hl
      exact ⟨h, rfl, rfl, by simp, fun _ _ => rfl, rfl⟩
  | some n =>
      have hnd := chain_nodup hl
      have hsen : (.sentinel : Address α) ∉ l.map .node := by simp
      have hhead : (l.map Address.node).head? = some (.node n) := by
        have hstart := hl.start_eq
        rw [Option.or_none] at hstart
        exact hstart.symm
      have hlink : makeFifoStep h .sentinel (.node n) .link =
          (h.setNext .sentinel (some (.node n)), .running (.loop .sentinel (some (.node n)))) := rfl
      have hok : FifoOk h.next .sentinel (l.map .node) .link := by
        rw [FifoOk, hhead]
        exact hl
      have hok' := makeFifoStep_running hnd hsen hhead hok hlink
      obtain ⟨h', hrun, hrev⟩ := makeFifoFrom_loop hnd hsen hhead hok' (hl.update hsen)
      have hrev := hrev.of_step (List.mem_of_mem_head? hhead) hok hlink
      have hchain := hrev.chain
      rw [List.length_map, List.getLast?_map] at hrun
      rw [List.getLast?_map, ← List.map_reverse] at hchain
      refine ⟨h', ?_, hchain, fun a ha hsentinel => ?_, fun a ha => ?_, hrev.head⟩
      · rw [makeFifo, makeFifoFrom_running hlink, hrun]
      · have hmem : Address.node a ∈ l.reverse.map Address.node := by simpa using ha
        rcases hchain.next_of_mem hmem with hnull | ⟨b, hb, hnext⟩
        · simp [hsentinel] at hnull
        · obtain rfl := Option.some.inj (hsentinel.symm.trans hnext)
          simp at hb
      · exact hrev.frame (.node a) (by simpa using ha) (by simp)

section Reversal

/-- The chain of 2, 0 and 1, and a node outside it that points into it. -/
def threeNodes : Heap (Address (Fin 4)) Unit where
  next
    | .node 2 => some (.node 0)
    | .node 0 => some (.node 1)
    | .node 3 => some (.node 0)
    | _ => none
  head _ := some (.node 2)

theorem make_fifo_reverses_three : ∃ h', makeFifo 8 threeNodes (some 2) = some (h', some (.node 1)) ∧
    Chain h'.next (some (.node 1)) [.node 1, .node 0, .node 2] ∧
    h'.next (.node 3) = some (.node 0) := by
  have hchain : Chain threeNodes.next ((some 2).map .node) ([2, 0, 1].map .node) :=
    ⟨rfl, rfl, rfl, rfl⟩
  obtain ⟨h', hrun, hreversed, -, hframe, -⟩ := make_fifo_reverses hchain
  exact ⟨h', hrun, hreversed, hframe 3 (by decide)⟩

end Reversal

end IoUring.Exec
