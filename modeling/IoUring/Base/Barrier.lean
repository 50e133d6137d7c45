import Mathlib.Order.Lattice

/-!
# Requests with barriers

Requests are issued in an order and finish in another one. Some of them are barriers: a
barrier starts when everything issued before it has finished, and what is issued after
it starts when the barrier has finished. The log holds the ends, with entries that may be
about something else.
-/

namespace IoUring.Barrier

variable {ι α : Type*}

/-- The end of `i` is in the log. -/
def Finished (item : α → Option ι) (log : List α) (i : ι) : Prop :=
  ∃ x ∈ log, item x = some i

theorem Finished.mono {item : α → Option ι} {log log' : List α} {i : ι} (h : Finished item log i)
    (hsub : log ⊆ log') : Finished item log' i := by
  obtain ⟨y, hy, hi⟩ := h
  exact ⟨y, hsub hy, hi⟩

theorem Finished.append {item : α → Option ι} {log : List α} {i : ι} (h : Finished item log i)
    (x : α) : Finished item (log ++ [x]) i :=
  h.mono (List.subset_append_left _ _)

theorem Finished.of_take {item : α → Option ι} {log : List α} {i : ι} {n : Nat}
    (h : Finished item (log.take n) i) : Finished item log i :=
  h.mono (List.take_subset _ _)

variable [LinearOrder ι]

/-- `i` has to finish before `j` may start. -/
def Before (barrier : ι → Prop) (i j : ι) : Prop :=
  i < j ∧ (barrier i ∨ barrier j)

/-- Everything that has to finish before `j` has finished. -/
def MayStart (barrier issued : ι → Prop) (item : α → Option ι) (log : List α) (j : ι) : Prop :=
  ∀ i, issued i → Before barrier i j → Finished item log i

/-- No request has finished before it could start. -/
def Respects (barrier issued : ι → Prop) (item : α → Option ι) (log : List α) : Prop :=
  ∀ n x j, log[n]? = some x → item x = some j → MayStart barrier issued item (log.take n) j

variable {barrier issued barrier' issued' : ι → Prop} {item : α → Option ι} {log : List α} {i j b : ι}

theorem respects_nil : Respects barrier issued item ([] : List α) := by
  intro n x j hx
  simp at hx

/-- A request that could start finishes, or the entry is about none. -/
theorem Respects.push (h : Respects barrier issued item log) {x : α}
    (hx : ∀ j, item x = some j → MayStart barrier issued item log j) :
    Respects barrier issued item (log ++ [x]) := by
  intro n y j hy hj
  by_cases hn : n < log.length
  · rw [List.getElem?_append_left hn] at hy
    rw [List.take_append_of_le_length (Nat.le_of_lt hn)]
    exact h n y j hy hj
  · obtain ⟨hlt, -⟩ := List.getElem?_eq_some_iff.mp hy
    rw [List.length_append, List.length_singleton] at hlt
    obtain rfl : n = log.length := by omega
    obtain rfl : x = y := by simpa using hy
    simpa using hx j hj

/-- New requests come after those that have finished. -/
theorem Respects.issue (h : Respects barrier issued item log)
    (hnew : ∀ i j, issued' i → Finished item log j → i < j → issued i)
    (hbarrier : ∀ i j, Finished item log j → i ≤ j → barrier' i → barrier i) :
    Respects barrier' issued' item log := by
  intro n x j hx hj i hi hij
  have hfinished : Finished item log j := ⟨x, List.mem_of_getElem? hx, hj⟩
  refine h n x j hx hj i (hnew i j hi hfinished hij.1) ⟨hij.1, ?_⟩
  exact hij.2.imp (hbarrier i j hfinished (le_of_lt hij.1)) (hbarrier j j hfinished le_rfl)

/-- What has finished could start. -/
theorem Respects.mayStart (h : Respects barrier issued item log) (hj : Finished item log j) :
    MayStart barrier issued item log j := by
  obtain ⟨x, hx, hj⟩ := hj
  obtain ⟨n, hn⟩ := List.mem_iff_getElem?.mp hx
  exact fun i hi hij => (h n x j hn hj i hi hij).of_take

/-- What was seen of the log keeps to the order, too. -/
theorem Respects.take (h : Respects barrier issued item log) (n : Nat) :
    Respects barrier issued item (log.take n) := by
  intro m x j hx hj
  rw [List.getElem?_take] at hx
  split at hx
  · next hm =>
      rw [List.take_take, Nat.min_eq_left (Nat.le_of_lt hm)]
      exact h m x j hx hj
  · cases hx

end IoUring.Barrier
