import Mathlib.Logic.Function.Basic
import Mathlib.Data.List.Basic
import Mathlib.Data.List.Nodup

/-!
# Pointer chains

A heap of singly linked nodes is a function `next` from addresses to optional
addresses. `Path next p l q` says that following `next` from `p` visits
exactly the nodes of `l`, in order, and arrives at `q`. A chain is a path that
arrives at null, so it is finite and, as proved below, acyclic.
-/

namespace IoUring

variable {α : Type*}

/-- Following `next` from `p` visits `l` and arrives at `q`. -/
def Path (next : α → Option α) : Option α → List α → Option α → Prop
  | p, [], q => p = q
  | p, a :: l, q => p = some a ∧ Path next (next a) l q

/-- A null-terminated path. -/
abbrev Chain (next : α → Option α) (p : Option α) (l : List α) : Prop :=
  Path next p l none

section Path

variable {next : α → Option α} {p q r : Option α} {l l' : List α}

@[simp] theorem path_nil : Path next p [] q ↔ p = q := Iff.rfl

@[simp] theorem path_cons {a : α} :
    Path next p (a :: l) q ↔ p = some a ∧ Path next (next a) l q := Iff.rfl

theorem path_append :
    Path next p (l ++ l') q ↔ ∃ r, Path next p l r ∧ Path next r l' q := by
  induction l generalizing p with
  | nil => simp
  | cons a l ih => simp [ih, and_assoc]

theorem path_snoc {a : α} :
    Path next p (l ++ [a]) q ↔ Path next p l (some a) ∧ next a = q := by
  simp only [path_append, path_cons, path_nil]
  constructor
  · rintro ⟨r, hl, rfl, hq⟩
    exact ⟨hl, hq⟩
  · rintro ⟨hl, hq⟩
    exact ⟨_, hl, rfl, hq⟩

theorem Path.trans (h : Path next p l q) (h' : Path next q l' r) :
    Path next p (l ++ l') r :=
  path_append.mpr ⟨q, h, h'⟩

/-- The start of a path is its first node, or its end when it has no node. -/
theorem Path.start_eq (h : Path next p l q) : p = l.head?.or q := by
  cases l with
  | nil => simpa using h
  | cons a l => simpa using h.1

theorem chain_none : Chain next none l ↔ l = [] := by
  cases l <;> simp [Chain]

theorem chain_some {a : α} :
    Chain next (some a) l ↔ ∃ l', l = a :: l' ∧ Chain next (next a) l' := by
  cases l with
  | nil => simp [Chain]
  | cons b l =>
      simp only [Chain, path_cons, Option.some.injEq, List.cons.injEq]
      constructor
      · rintro ⟨rfl, h⟩
        exact ⟨l, ⟨rfl, rfl⟩, h⟩
      · rintro ⟨_, ⟨rfl, rfl⟩, h⟩
        exact ⟨rfl, h⟩

/-- Splitting a chain at a node that it visits. -/
theorem chain_split {seg rest : List α} {last : α} (h : Chain next p (seg ++ last :: rest)) :
    Path next p seg (some last) ∧ Chain next (next last) rest := by
  obtain ⟨r, hseg, hlast⟩ := path_append.mp h
  obtain ⟨rfl, hrest⟩ := hlast
  exact ⟨hseg, hrest⟩

/-- Two heaps that agree on the nodes of a path have the same path. -/
theorem Path.congr {next' : α → Option α} (h : Path next p l q)
    (heq : ∀ a ∈ l, next' a = next a) : Path next' p l q := by
  induction l generalizing p with
  | nil => exact h
  | cons a l ih =>
      refine ⟨h.1, ?_⟩
      rw [heq a (by simp)]
      exact ih h.2 fun b hb => heq b (by simp [hb])

/-- A link of a path leads to a node of the path or to its end. -/
theorem Path.next_of_mem {a : α} (h : Path next p l q) (ha : a ∈ l) :
    next a = q ∨ ∃ b ∈ l, next a = some b := by
  induction l generalizing p with
  | nil => cases ha
  | cons b l ih =>
      obtain ⟨rfl, hl⟩ := h
      rcases List.mem_cons.mp ha with rfl | ha
      · cases l with
        | nil => exact .inl hl
        | cons c l => exact .inr ⟨c, by simp, hl.1⟩
      · rcases ih hl ha with hq | ⟨c, hc, hnext⟩
        · exact .inl hq
        · exact .inr ⟨c, List.mem_cons_of_mem _ hc, hnext⟩

theorem chain_unique (h : Chain next p l) (h' : Chain next p l') : l = l' := by
  induction l generalizing p l' with
  | nil =>
      obtain rfl : p = none := h
      exact (chain_none.mp h').symm
  | cons a l ih =>
      obtain ⟨rfl, hl⟩ := h
      obtain ⟨l'', rfl, hl'⟩ := chain_some.mp h'
      rw [ih hl hl']

/-- Two paths to a node that neither of them visits are the same. -/
theorem path_unique {z : α} (h : Path next p l (some z)) (h' : Path next p l' (some z))
    (hz : z ∉ l) (hz' : z ∉ l') : l = l' := by
  induction l generalizing p l' with
  | nil =>
      obtain rfl : p = some z := h
      cases l' with
      | nil => rfl
      | cons b l' =>
          obtain rfl : z = b := by simpa using h'.1
          simp at hz'
  | cons a l ih =>
      obtain ⟨rfl, hl⟩ := h
      cases l' with
      | nil =>
          obtain rfl : a = z := by simpa using h'
          simp at hz
      | cons b l' =>
          obtain rfl : a = b := by simpa using h'.1
          rw [ih hl h'.2 (by simp_all) (by simp_all)]

/-- A null-terminated chain visits no node twice. -/
theorem chain_nodup (h : Chain next p l) : l.Nodup := by
  induction l generalizing p with
  | nil => simp
  | cons a l ih =>
      refine List.nodup_cons.mpr ⟨fun ha => ?_, ih h.2⟩
      -- a second visit of `a` would make two chains of different length from it
      obtain ⟨l₁, l₂, rfl⟩ := List.append_of_mem ha
      obtain ⟨r, _, hr⟩ := path_append.mp h.2
      have hlen := congrArg List.length (chain_unique h.2 hr.2)
      simp only [List.length_append, List.length_cons] at hlen
      omega

variable [DecidableEq α]

/-- A write to a node outside the path leaves the path alone. -/
theorem Path.update {a : α} {v : Option α} (h : Path next p l q) (ha : a ∉ l) :
    Path (Function.update next a v) p l q :=
  h.congr fun b hb => Function.update_of_ne (fun hab : b = a => ha (hab ▸ hb)) v next

/-- Linking a node in front of a path. -/
theorem Path.cons_update {a : α} (h : Path next p l q) (ha : a ∉ l) :
    Path (Function.update next a p) (some a) (a :: l) q :=
  ⟨rfl, by simpa using h.update ha⟩

/-- Redirecting the last node of a path. -/
theorem Path.snoc_update {a : α} {v : Option α} (h : Path next p l (some a)) (ha : a ∉ l) :
    Path (Function.update next a v) p (l ++ [a]) v :=
  path_snoc.mpr ⟨h.update ha, by simp⟩

end Path

end IoUring
