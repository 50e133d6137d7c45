import Mathlib.Data.List.Count
import Mathlib.Data.List.Perm.Basic

/-!
# The rings of one local and the completions of a receiver

The part of io_uring that the executor relies on: `io_uring_get_sqe` fails when
the SQ ring is full, `io_uring_submit` hands prepared entries to the kernel in
order, and the kernel posts one CQE for each SQE it has taken.
-/

namespace IoUring.Exec

def ETIME : Int := 62
def ETIMEDOUT : Int := 110
def ECANCELED : Int := 125

/-- A submission of operation `o`, or one of the two cancellations that carry
the address of the static object `noop` as their user data. -/
inductive Sqe (O : Type*) where
  | request (o : O)
  | cancel (o : O)
  | cancelAny
  deriving DecidableEq

/-- The operation whose address is the user data of the entry, `none` for `noop`. -/
def Sqe.data {O : Type*} : Sqe O → Option O
  | .request o => some o
  | .cancel _ => none
  | .cancelAny => none

structure Cqe (O : Type*) where
  data : Option O
  res : Int
  deriving DecidableEq

/-- Prepared entries, entries the kernel works on, and posted CQEs. -/
structure Ring (O : Type*) where
  sq : List (Sqe O)
  flight : List (Sqe O)
  cq : List (Cqe O)
  deriving DecidableEq

namespace Ring

variable {O : Type*}

def empty : Ring O := ⟨[], [], []⟩

/-- `io_uring_get_sqe` and the preparation of the entry; `none` is the null
pointer of a full ring. -/
def getSqe (r : Ring O) (entries : Nat) (e : Sqe O) : Option (Ring O) :=
  if r.sq.length < entries then some { r with sq := r.sq ++ [e] } else none

/-- `io_uring_submit`, which takes the first `n` prepared entries. -/
def submit (r : Ring O) (n : Nat) : Ring O :=
  { r with sq := r.sq.drop n, flight := r.flight ++ r.sq.take n }

/-- The kernel finishes the `i`-th entry in flight with result `res`. -/
def post (r : Ring O) (i : Nat) (res : Int) : Option (Sqe O × Ring O) :=
  match r.flight[i]? with
  | some e => some (e, { r with
      flight := r.flight.eraseIdx i
      cq := r.cq ++ [⟨e.data, res⟩] })
  | none => none

/-- `io_uring_cq_advance`. -/
def advance (r : Ring O) (n : Nat) : Ring O :=
  { r with cq := r.cq.drop n }

variable [DecidableEq O]

/-- How often operation `o` is on the ring: prepared, in flight, or posted. -/
def tokens (r : Ring O) (o : O) : Nat :=
  (r.sq.map Sqe.data).count (some o) + (r.flight.map Sqe.data).count (some o) +
    (r.cq.map Cqe.data).count (some o)

@[simp] theorem tokens_empty (o : O) : (empty : Ring O).tokens o = 0 := by
  simp [tokens, empty]

@[simp] theorem tokens_submit (r : Ring O) (n : Nat) (o : O) :
    (r.submit n).tokens o = r.tokens o := by
  have hsplit := congrArg (fun l => (l.map Sqe.data).count (some o)) (List.take_append_drop n r.sq)
  simp only [List.map_append, List.count_append] at hsplit
  simp only [tokens, submit, List.map_append, List.count_append]
  omega

omit [DecidableEq O] in
theorem getSqe_eq {r r' : Ring O} {entries : Nat} {e : Sqe O}
    (h : r.getSqe entries e = some r') : r' = { r with sq := r.sq ++ [e] } := by
  simp only [getSqe] at h
  split at h
  · exact (Option.some.inj h).symm
  · cases h

theorem tokens_getSqe {r r' : Ring O} {entries : Nat} {e : Sqe O}
    (h : r.getSqe entries e = some r') (o : O) :
    r'.tokens o = r.tokens o + if e.data = some o then 1 else 0 := by
  simp only [getSqe_eq h, tokens, List.map_append, List.map_cons, List.map_nil, List.count_append,
    List.count_singleton, beq_iff_eq]
  omega

/-- Posting takes one entry out of the flight. -/
theorem post_flight {r r' : Ring O} {i : Nat} {res : Int} {e : Sqe O}
    (h : r.post i res = some (e, r')) (o : O) :
    r'.sq = r.sq ∧ (r.flight.map Sqe.data).count (some o) =
      (r'.flight.map Sqe.data).count (some o) + if e.data = some o then 1 else 0 := by
  simp only [post] at h
  split at h
  · next e' he =>
      simp only [Option.some.injEq, Prod.mk.injEq] at h
      obtain ⟨rfl, rfl⟩ := h
      obtain ⟨hi, hget⟩ := List.getElem?_eq_some_iff.mp he
      have hp : r.flight.Perm (e' :: r.flight.eraseIdx i) := by
        rw [← hget]
        exact (List.getElem_cons_eraseIdx_perm hi).symm
      have hcount := (hp.map Sqe.data).count_eq (some o)
      simp only [List.map_cons, List.count_cons, beq_iff_eq] at hcount
      exact ⟨rfl, hcount⟩
  · cases h

theorem tokens_advance {r : Ring O} {c : Cqe O} (h : r.cq.head? = some c) (o : O) :
    (r.advance 1).tokens o + (if c.data = some o then 1 else 0) = r.tokens o := by
  obtain ⟨l, hl⟩ := List.head?_eq_some_iff.mp h
  simp only [tokens, advance, hl, List.drop_succ_cons, List.drop_zero, List.map_cons,
    List.count_cons, beq_iff_eq]
  omega

omit [DecidableEq O] in
theorem getSqe_cq {r r' : Ring O} {entries : Nat} {e : Sqe O}
    (h : r.getSqe entries e = some r') : r'.cq = r.cq := by
  rw [getSqe_eq h]

omit [DecidableEq O] in
theorem post_spec {r r' : Ring O} {i : Nat} {res : Int} {e : Sqe O}
    (h : r.post i res = some (e, r')) : e ∈ r.flight ∧ r'.cq = r.cq ++ [⟨e.data, res⟩] := by
  simp only [post] at h
  split at h
  · next he =>
      simp only [Option.some.injEq, Prod.mk.injEq] at h
      obtain ⟨rfl, rfl⟩ := h
      exact ⟨List.mem_of_getElem? he, rfl⟩
  · cases h

omit [DecidableEq O] in
theorem post_sq {r r' : Ring O} {i : Nat} {res : Int} {e : Sqe O}
    (h : r.post i res = some (e, r')) : r'.sq = r.sq := by
  simp only [post] at h
  split at h
  · simp only [Option.some.injEq, Prod.mk.injEq] at h
    rw [← h.2]
  · cases h

theorem tokens_post {r r' : Ring O} {i : Nat} {res : Int} {e : Sqe O}
    (h : r.post i res = some (e, r')) (o : O) : r'.tokens o = r.tokens o := by
  obtain ⟨hsq, hflight⟩ := post_flight h o
  simp only [tokens, hsq, hflight, (post_spec h).2, List.map_append, List.map_cons, List.map_nil,
    List.count_append, List.count_singleton, beq_iff_eq]
  omega

omit [DecidableEq O] in
/-- Posting does not change the CQE that is taken next. -/
theorem post_head {r r' : Ring O} {i : Nat} {res : Int} {e : Sqe O}
    (h : r.post i res = some (e, r')) {c : Cqe O} (hc : r.cq.head? = some c) :
    r'.cq.head? = some c := by
  obtain ⟨l, hl⟩ := List.head?_eq_some_iff.mp hc
  simp [(post_spec h).2, hl]

end Ring

/-! ## Completions -/

/-- What a receiver is told. `setException` is the exception caught from `spawn`. -/
inductive Signal where
  | setValue (res : Int)
  | setError (errno : Int)
  | setException
  | setStopped
  deriving DecidableEq

/-- `this_vtable.complete` of `io_uring_exec_operation`; `timer` says that the
operation was prepared by `io_uring_prep_timeout`. -/
def completeSignal (timer : Bool) (res : Int) : Signal :=
  if timer = true ∧ (res = -ETIME ∨ res = -ETIMEDOUT) then .setValue res
  else if 0 ≤ res then .setValue res
  else if res = -ECANCELED then .setStopped
  else .setError (-res)

/-- The three ways in which `run()` consumes CQEs. -/
inductive Pass where
  | ordinary
  | transfer
  | terminal
  deriving DecidableEq

/-- What `consume_one` does with the operation of a CQE. -/
inductive Dispatch where
  | restart
  | complete (signal : Signal)
  deriving DecidableEq

/-- `consume_one`: the transfer pass restarts, the other passes complete. -/
def consumeOne (pass : Pass) (timer : Bool) (res : Int) : Dispatch :=
  match pass with
  | .transfer => .restart
  | .ordinary => .complete (completeSignal timer res)
  | .terminal => .complete (completeSignal timer res)

end IoUring.Exec
