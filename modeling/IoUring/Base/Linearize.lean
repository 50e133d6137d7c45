import IoUring.Base.Machine
import Mathlib.Data.List.Forall2

/-!
# Linearizable objects

An atomic object serves the operations of many threads. Each operation takes
effect in one step, which lies between its invocation and its response, and
the response reports what the sequential object returned at that step. A
history is linearizable when it matches the history of a run of the atomic
object. Forward simulation proves it for the histories of a machine.
-/

namespace IoUring

/-! ## Histories -/

namespace Machine

variable {σ α ε : Type*}

/-- The observable events of a list of labels, up to the first one that is not enabled. -/
def history (m : Machine σ α) (observe : σ → α → Option ε) : σ → List α → List ε
  | _, [] => []
  | s, a :: as =>
      match m.step s a with
      | some t => (observe s a).toList ++ m.history observe t as
      | none => []

variable {m : Machine σ α} {observe : σ → α → Option ε}

theorem history_cons_some {s t : σ} {a : α} {as : List α} (hs : m.step s a = some t) :
    m.history observe s (a :: as) = (observe s a).toList ++ m.history observe t as := by
  simp only [history, hs]

theorem history_cons_none {s : σ} {a : α} {as : List α} (hs : m.step s a = none) :
    m.history observe s (a :: as) = [] := by
  simp only [history, hs]

theorem history_append {s t : σ} {as bs : List α} (hr : m.run s as = some t) :
    m.history observe s (as ++ bs) = m.history observe s as ++ m.history observe t bs := by
  induction as generalizing s with
  | nil =>
      obtain rfl : s = t := by simpa using hr
      rfl
  | cons a as ih =>
      obtain ⟨u, hu, ht⟩ := m.run_cons_some.mp hr
      rw [List.cons_append, history_cons_some hu, history_cons_some hu, ih ht, List.append_assoc]

/-- A machine whose every step is answered by a run of another machine with matching
events has only histories that match histories of the other machine. -/
theorem history_simulates {σ' α' ε' : Type*} (m' : Machine σ' α')
    {observe' : σ' → α' → Option ε'} (R : σ → σ' → Prop) (Matches : ε → ε' → Prop)
    (hstep : ∀ s s' a t, R s s' → m.step s a = some t → ∃ bs t', m'.run s' bs = some t' ∧ R t t' ∧
      List.Forall₂ Matches (observe s a).toList (m'.history observe' s' bs))
    {s : σ} {s' : σ'} (h : R s s') (as : List α) :
    ∃ bs t', m'.run s' bs = some t' ∧
      List.Forall₂ Matches (m.history observe s as) (m'.history observe' s' bs) := by
  induction as generalizing s s' with
  | nil => exact ⟨[], s', rfl, .nil⟩
  | cons a as ih =>
      cases hs : m.step s a with
      | none =>
          refine ⟨[], s', rfl, ?_⟩
          rw [history_cons_none hs]
          exact .nil
      | some t =>
          obtain ⟨bs, t', hrun, ht, hev⟩ := hstep s s' a t h hs
          obtain ⟨cs, u', hrun', hev'⟩ := ih ht
          refine ⟨bs ++ cs, u', ?_, ?_⟩
          · rw [run_append, hrun]
            exact hrun'
          · rw [history_cons_some hs, history_append hrun]
            exact List.rel_append hev hev'

end Machine

/-! ## Atomic objects -/

/-- A sequential object: what an operation does to its state, and what it returns. -/
structure AtomicObject (σ ι ρ : Type*) where
  start : σ
  apply : σ → ι → σ × ρ

namespace AtomicObject

/-- A thread without an operation, with one that has not taken effect, or with the
result of one that has. -/
inductive Client (ι ρ : Type*) where
  | idle
  | invoked (op : ι)
  | applied (result : ρ)

structure State (σ ι ρ τ : Type*) where
  object : σ
  client : τ → Client ι ρ

inductive Label (τ ι : Type*) where
  | invoke (t : τ) (op : ι)
  | apply (t : τ)
  | respond (t : τ)

inductive Event (τ ι ρ : Type*) where
  | invocation (t : τ) (op : ι)
  | response (t : τ) (result : ρ)

variable {σ ι ρ τ ε : Type*} [DecidableEq τ] (o : AtomicObject σ ι ρ)

def step (s : State σ ι ρ τ) : Label τ ι → Option (State σ ι ρ τ)
  | .invoke t op =>
      match s.client t with
      | .idle => some { s with client := Function.update s.client t (.invoked op) }
      | _ => none
  | .apply t =>
      match s.client t with
      | .invoked op => some {
          object := (o.apply s.object op).1
          client := Function.update s.client t (.applied (o.apply s.object op).2) }
      | _ => none
  | .respond t =>
      match s.client t with
      | .applied _ => some { s with client := Function.update s.client t .idle }
      | _ => none

def machine : Machine (State σ ι ρ τ) (Label τ ι) where
  init s := s = { object := o.start, client := fun _ => .idle }
  step := o.step

omit [DecidableEq τ] in
/-- Invocations and responses are seen, the steps at which operations take effect are not. -/
def observe (s : State σ ι ρ τ) : Label τ ι → Option (Event τ ι ρ)
  | .invoke t op => some (.invocation t op)
  | .apply _ => none
  | .respond t =>
      match s.client t with
      | .applied result => some (.response t result)
      | _ => none

/-- `h` matches, event by event, the history of a run of the atomic object. -/
def Linearizable (Matches : ε → Event τ ι ρ → Prop) (h : List ε) : Prop :=
  ∃ s as t, o.machine.init s ∧ o.machine.run s as = some t ∧
    List.Forall₂ Matches h (o.machine.history observe s as)

section Runs

variable {o} {s : State σ ι ρ τ} {t : τ}

/-- The runs of one label, with what is seen of them. -/
theorem run_invoke (op : ι) (hc : s.client t = .idle) :
    o.machine.run s [.invoke t op] =
        some { s with client := Function.update s.client t (.invoked op) } ∧
      o.machine.history observe s [.invoke t op] = [.invocation t op] := by
  simp [Machine.run_cons, Machine.history, machine, step, observe, hc]

theorem run_apply {op : ι} (hc : s.client t = .invoked op) :
    o.machine.run s [.apply t] = some {
        object := (o.apply s.object op).1
        client := Function.update s.client t (.applied (o.apply s.object op).2) } ∧
      o.machine.history observe s [.apply t] = [] := by
  simp [Machine.run_cons, Machine.history, machine, step, observe, hc]

theorem run_respond {result : ρ} (hc : s.client t = .applied result) :
    o.machine.run s [.respond t] =
        some { s with client := Function.update s.client t .idle } ∧
      o.machine.history observe s [.respond t] = [.response t result] := by
  simp [Machine.run_cons, Machine.history, machine, step, observe, hc]

end Runs

end AtomicObject

end IoUring
