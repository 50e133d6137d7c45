import Mathlib.Order.Lattice
import IoUring.Base.Machine

/-!
# Queues that are served in rounds

A ledger lists everything that was ever put into a queue, and how many of these entries
were taken out, from the front. A round takes a number of entries out, or all of them if
there are not that many. What was in the queue before is served in time, whatever is put
into the queue in the meantime.
-/

namespace IoUring

structure Ledger (α : Type*) where
  queued : List α
  served : Nat

namespace Ledger

variable {α : Type*} {l l' l'' : Ledger α} {m n p : Nat}

/-- From `l` to `l'`, `n` entries were served, or fewer when nothing of what was in the
queue is left. -/
structure Serves (l l' : Ledger α) (n : Nat) : Prop where
  queued : l.queued <+: l'.queued
  le : l.served ≤ l'.served
  most : l'.served ≤ l.served + n
  least : min (l.served + n) l.queued.length ≤ l'.served

theorem Serves.refl (l : Ledger α) : l.Serves l 0 where
  queued := List.prefix_rfl
  le := Nat.le_refl _
  most := Nat.le_refl _
  least := Nat.min_le_left _ _

theorem Serves.trans (h : l.Serves l' m) (h' : l'.Serves l'' n) : l.Serves l'' (m + n) where
  queued := h.queued.trans h'.queued
  le := Nat.le_trans h.le h'.le
  most := by
    have hm := h.most
    have hn := h'.most
    omega
  least := by
    have hlength := h.queued.length_le
    have hm := h.least
    have hn := h'.least
    omega

/-- New entries wait behind the others. -/
theorem Serves.push (l : Ledger α) (xs : List α) : l.Serves ⟨l.queued ++ xs, l.served⟩ 0 where
  queued := List.prefix_append _ _
  le := Nat.le_refl _
  most := Nat.le_refl _
  least := Nat.min_le_left _ _

/-- A round that also sees the entries `xs`. -/
theorem Serves.round (xs : List α) (hqueued : l'.queued = l.queued ++ xs)
    (hserved : l'.served = l.served + min n (l'.queued.length - l.served)) : l.Serves l' n := by
  refine ⟨hqueued ▸ List.prefix_append _ _, by omega, by omega, ?_⟩
  have hlength : l'.queued.length = l.queued.length + xs.length := by rw [hqueued, List.length_append]
  omega

/-- An entry is served exactly when the rounds come to it. -/
theorem Serves.served_iff (h : l.Serves l' n) (hp : p < l.queued.length) :
    p < l'.served ↔ p < l.served + n := by
  have hmost := h.most
  have hleast := h.least
  omega

/-- The entry that waits at position `p` is the one after `p` others, and it is taken out exactly
when the rounds come to it. -/
theorem Serves.taken_iff (h : l.Serves l' n) {taken taken' waiting waiting' : List α}
    (hl : l.queued = taken ++ waiting) (hserved : l.served = taken.length)
    (hl' : l'.queued = taken' ++ waiting') (hserved' : l'.served = taken'.length) {a : α}
    (hp : waiting[p]? = some a) : taken'[taken.length + p]? = some a ↔ p < n := by
  obtain ⟨hlt, -⟩ := List.getElem?_eq_some_iff.mp hp
  have hindex : taken.length + p < l.queued.length := by
    rw [hl, List.length_append]
    omega
  have hentry : l'.queued[taken.length + p]? = some a := by
    obtain ⟨xs, hxs⟩ := h.queued
    rw [← hxs, List.getElem?_append_left hindex, hl, List.getElem?_append_right (Nat.le_add_right _ _),
      Nat.add_sub_cancel_left, hp]
  have hiff := h.served_iff hindex
  rw [hserved, hserved'] at hiff
  by_cases hlt' : taken.length + p < taken'.length
  · rw [hl', List.getElem?_append_left hlt'] at hentry
    have hpn : p < n := by omega
    exact iff_of_true hentry hpn
  · have hnone : taken'[taken.length + p]? = none := List.getElem?_eq_none (Nat.le_of_not_lt hlt')
    have hpn : ¬ p < n := by omega
    rw [hnone]
    exact iff_of_false (by simp) hpn

/-- What was taken out is known by how much it is. -/
theorem taken_eq {taken taken' waiting queued : List α} (htaken : taken' <+: queued)
    (hqueued : taken ++ waiting <+: queued)
    (hlength : taken'.length = taken.length + min n waiting.length) : taken' = taken ++ waiting.take n := by
  have hle : taken'.length ≤ (taken ++ waiting).length := by
    rw [List.length_append]
    omega
  have hprefix := List.prefix_of_prefix_length_le htaken hqueued hle
  rw [List.prefix_iff_eq_take.mp hprefix, hlength, List.take_length_add_append, List.take_eq_take_min (i := n)]

/-- The rule for runs: when a step serves what its label says, a run serves the sum. -/
theorem serves_run {σ β : Type*} {m : Machine σ β} {ledger : σ → Ledger α} {weight : β → Nat}
    (hstep : ∀ s a t, m.Reachable s → m.step s a = some t → (ledger s).Serves (ledger t) (weight a))
    {s t : σ} (hs : m.Reachable s) {as : List β} (hrun : m.run s as = some t) :
    (ledger s).Serves (ledger t) (as.map weight).sum := by
  induction as generalizing s with
  | nil =>
      obtain rfl : s = t := by simpa using hrun
      exact .refl _
  | cons a as ih =>
      obtain ⟨u, hu, ht⟩ := m.run_cons_some.mp hrun
      exact (hstep s a u hs hu).trans (ih (hs.next trivial hu) ht)

end Ledger

end IoUring
