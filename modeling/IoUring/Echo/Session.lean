import Mathlib.Data.List.Forall2
import IoUring.Echo.Server

/-!
# What an echo server is for

A session is what has happened on one connection: the blocks that were received, and those
that were sent. Each block is answered before the next one is read, with the part of it that
the kernel has written, and the session ends with an empty answer, or with one to `Zz`.
-/

namespace IoUring.Echo

abbrev Block := List Byte

/-- The answer `out` to `block` is not the last one. -/
def goesOn (block out : Block) : Bool :=
  !(out = [] || 2 < out.length && block.take 2 = zz)

inductive Status where
  | reading
  | writing (block : Block)
  | closed
  deriving DecidableEq

/-- The status after an answer. -/
def Status.after (block out : Block) : Status :=
  if goesOn block out then .reading else .closed

inductive Session : List Block → List Block → Status → Prop where
  | start : Session [] [] .reading
  | read {received sent : List Block} (h : Session received sent .reading) (block : Block) :
      Session (received ++ [block]) sent (.writing block)
  | write {received sent : List Block} {block : Block} (h : Session received sent (.writing block))
      {out : Block} (hout : out <+: block) : Session received (sent ++ [out]) (.after block out)

/-- What a client gets next, by the results so far. -/
inductive Next where
  | read
  | write
  | close
  | exit
  deriving DecidableEq

/-- `zz` says whether the buffer begins with "Zz". -/
def Next.after (res : Int) (zz : Bool) : Next → Next
  | .read => if res < 0 then .exit else .write
  | .write =>
      if res < 0 then .exit
      else if res = 0 ∨ 2 < res ∧ zz = true then .close
      else .read
  | .close => .close
  | .exit => .exit

def Next.of (results : List (Int × Bool)) : Next :=
  results.foldl (fun next x => next.after x.1 x.2) .read

theorem Next.of_concat (results : List (Int × Bool)) (res : Int) (zz : Bool) :
    Next.of (results ++ [(res, zz)]) = (Next.of results).after res zz := by
  simp [Next.of]

/-- The block that is not answered yet. -/
def Status.pending : Status → List Block
  | .writing block => [block]
  | _ => []

variable {received sent : List Block} {status : Status}

/-- The answers are parts of the blocks, in their order, and one block at most waits for its
answer. -/
theorem Session.answers (h : Session received sent status) :
    ∃ answered, received = answered ++ status.pending ∧ List.Forall₂ (· <+: ·) sent answered := by
  induction h with
  | start => exact ⟨[], rfl, .nil⟩
  | read _ block ih =>
      obtain ⟨answered, heq, hall⟩ := ih
      exact ⟨answered, by simp [heq, Status.pending], hall⟩
  | @write received sent block _ out hout ih =>
      obtain ⟨answered, rfl, hall⟩ := ih
      refine ⟨answered ++ [block], ?_, List.rel_append hall (.cons hout .nil)⟩
      have hnil : (Status.after block out).pending = [] := by
        rw [Status.after]
        split <;> rfl
      rw [hnil, List.append_nil]
      rfl

/-- A session goes on after each answer but the last one of a session that is closed. -/
theorem Session.closes (h : Session received sent status) :
    ∀ n block out, received[n]? = some block → sent[n]? = some out →
      (goesOn block out = false ↔ status = .closed ∧ n + 1 = sent.length) := by
  induction h with
  | start => simp
  | @read received sent hsession block ih =>
      intro n b out hb hout
      obtain ⟨answered, hanswered, hall⟩ := hsession.answers
      have hlt := (List.getElem?_eq_some_iff.mp hout).1
      have hlength : received.length = sent.length := by
        rw [hanswered, hall.length_eq]
        simp [Status.pending]
      rw [List.getElem?_append_left (by omega)] at hb
      have hnext := ih n b out hb hout
      simpa using hnext
  | @write received sent block hsession out' hout' ih =>
      intro n b out hb hout
      obtain ⟨answered, hanswered, hall⟩ := hsession.answers
      have hlength : received.length = sent.length + 1 := by
        rw [hanswered, hall.length_eq]
        simp [Status.pending]
      by_cases hlast : n < sent.length
      · rw [List.getElem?_append_left hlast] at hout
        have hnext := ih n b out hb hout
        simp only [reduceCtorEq, false_and, iff_false] at hnext
        refine iff_of_false hnext ?_
        rw [List.length_append, List.length_singleton]
        omega
      · obtain rfl : n = sent.length := by
          have hlt := (List.getElem?_eq_some_iff.mp hout).1
          simp at hlt
          omega
        rw [List.getElem?_concat_length] at hout
        obtain rfl := Option.some.inj hout
        obtain rfl : block = b := by
          rw [hanswered, List.getElem?_append_right (Nat.le_of_eq hall.length_eq.symm)] at hb
          simpa [hall.length_eq, Status.pending] using hb
        simp [Status.after]

/-- A session ends with an answer. -/
theorem Session.last (h : Session received sent .closed) : ∃ out, sent.getLast? = some out := by
  generalize hstatus : Status.closed = status at h
  cases h with
  | start => cases hstatus
  | read _ _ => cases hstatus
  | write _ _ => exact ⟨_, List.getLast?_concat ..⟩

/-- As long as the kernel writes whole blocks, the client gets back what it has sent. -/
theorem Session.exact (h : Session received sent status)
    (hfull : ∀ (n : Nat) (block out : Block), received[n]? = some block → sent[n]? = some out →
      out.length = block.length) : received = sent ++ status.pending := by
  obtain ⟨answered, rfl, hall⟩ := h.answers
  have heq : sent = answered := by
    refine List.ext_getElem hall.length_eq fun n hsent hanswered => ?_
    have hpart := hall.get hsent hanswered
    refine hpart.eq_of_length (hfull n _ _ ?_ (List.getElem?_eq_getElem hsent))
    rw [List.getElem?_append_left hanswered]
    exact List.getElem?_eq_getElem hanswered
  rw [heq]

end IoUring.Echo
