import Mathlib.Data.List.Basic

/-!
# Link chains

An operation takes its SQE in its constructor, and `&` and `|` patch the SQEs of
their operands. An expression is evaluated on the SQ ring; the temporaries it
constructs have fresh addresses. `uring_prep_fn` and its arguments are a
parameter.
-/

namespace IoUring.Coroutine

structure SqeFlags where
  ioLink : Bool := false
  ioHardlink : Bool := false
  ioDrain : Bool := false
  cqeSkipSuccess : Bool := false
  deriving DecidableEq

/-- The user data is the address of an `Async_user_data`, or none of these. -/
structure Sqe (P : Type*) where
  prep : P
  flags : SqeFlags := {}
  data : Option Nat
  deriving DecidableEq

/-- The entries that are prepared and not submitted, and the address of the next
temporary. -/
structure SqRing (P : Type*) where
  entries : Nat
  sq : List (Sqe P)
  next : Nat
  deriving DecidableEq

/-- The address of the `user_data` of an operation and the position of its `sqe`,
`none` for the null pointer. -/
structure AsyncOperation where
  userData : Nat
  sqe : Option Nat
  deriving DecidableEq

variable {P : Type*}

/-- The constructor of `Async_operation`. -/
def asyncOperation (s : SqRing P) (prep : P) : SqRing P × AsyncOperation :=
  let userData := s.next
  let s := { s with next := s.next + 1 }
  if s.sq.length < s.entries then
    ({ s with sq := s.sq ++ [{ prep := prep, data := some userData }] }, ⟨userData, some s.sq.length⟩)
  else (s, ⟨userData, none⟩)

/-- `IOSQE_IO_LINK` or `IOSQE_IO_HARDLINK`, and `IOSQE_CQE_SKIP_SUCCESS`. -/
def SqeFlags.link (hard : Bool) (flags : SqeFlags) : SqeFlags :=
  let flags :=
    if hard then { flags with ioHardlink := true } else { flags with ioLink := true }
  { flags with cqeSkipSuccess := true }

/-- The constructor of `Sync_link_operation<Hard>`; `none` when it goes through a
null pointer. -/
def syncLinkOperation (hard : Bool) (s : SqRing P) (previous next : AsyncOperation) :
    Option (SqRing P × AsyncOperation) :=
  let op : AsyncOperation := { next with userData := s.next }
  let s := { s with next := s.next + 1 }
  match previous.sqe, op.sqe with
  | some i, some j =>
      let s := { s with sq := s.sq.modify i fun e => { e with flags := e.flags.link hard } }
      some ({ s with sq := s.sq.modify j fun e => { e with data := some op.userData } }, op)
  | _, _ => none

/-- An expression over `&` (a link) and `|` (a hard link). -/
inductive Expr (P : Type*) where
  | op (prep : P)
  | link (hard : Bool) (previous next : Expr P)
  deriving DecidableEq

/-- Which operand of the operator at a position is evaluated first, `true` for
the left one. A position is the list of turns to the right. -/
abbrev Order := List Bool → Bool

def Order.left (order : Order) : Order := fun position => order (false :: position)

def Order.right (order : Order) : Order := fun position => order (true :: position)

def leftToRight : Order := fun _ => true

/-- The right operand first at the positions that are listed. -/
def Order.ofRight (rightFirst : List (List Bool)) : Order := fun position => !rightFirst.contains position

namespace Expr

/-- The evaluation of an expression of fresh operations. -/
def eval : Expr P → Order → SqRing P → Option (SqRing P × AsyncOperation)
  | .op prep, _, s => some (asyncOperation s prep)
  | .link hard l r, order, s =>
      if order [] then
        (l.eval order.left s).bind fun previous =>
          (r.eval order.right previous.1).bind fun next =>
            syncLinkOperation hard next.1 previous.2 next.2
      else
        (r.eval order.right s).bind fun next =>
          (l.eval order.left next.1).bind fun previous =>
            syncLinkOperation hard previous.1 previous.2 next.2

/-- The operations in the written order. -/
def leaves : Expr P → List P
  | .op prep => [prep]
  | .link _ l r => l.leaves ++ r.leaves

/-- The operators in the written order. -/
def operators : Expr P → List Bool
  | .op _ => []
  | .link hard l r => l.operators ++ hard :: r.operators

/-- The last operation in the written order. -/
def last : Expr P → P
  | .op prep => prep
  | .link _ _ r => r.last

/-- The operations whose SQEs come before the one of the last operation, and those
whose SQEs come after it. -/
def others : Expr P → Order → List (P × SqeFlags) × List (P × SqeFlags)
  | .op _, _ => ([], [])
  | .link hard l r, order =>
      let left := l.others order.left
      let right := r.others order.right
      let previous := left.1 ++ (l.last, SqeFlags.link hard {}) :: left.2
      if order [] then (previous ++ right.1, right.2) else (right.1, right.2 ++ previous)

end Expr

/-- Entries of the operations `ops`, for temporaries from `low` on and below `high`. -/
structure Prepared (sqes : List (Sqe P)) (ops : List (P × SqeFlags)) (low high : Nat) :
    Prop where
  ops : sqes.map (fun e => (e.prep, e.flags)) = ops
  data : ∀ e ∈ sqes, ∃ a, e.data = some a ∧ low ≤ a ∧ a < high

/-- What the evaluation of an expression does: the entry that belongs to its
awaitable is the one of its last operation. -/
structure Evaluates (e : Expr P) (order : Order) (s s' : SqRing P) (op : AsyncOperation) : Prop where
  entries : s'.entries = s.entries
  le : s.next ≤ op.userData
  next : s'.next = op.userData + 1
  sq : ∃ pre post, s'.sq = s.sq ++ pre ++ ⟨e.last, {}, some op.userData⟩ :: post ∧
    op.sqe = some (s.sq ++ pre).length ∧
    Prepared pre (e.others order).1 s.next op.userData ∧
    Prepared post (e.others order).2 s.next op.userData ∧
    ∀ a, (pre.map Sqe.data).count (some a) + (post.map Sqe.data).count (some a) ≤ 1

end IoUring.Coroutine
