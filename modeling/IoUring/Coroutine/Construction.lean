import IoUring.Coroutine.Context
import IoUring.Coroutine.ProvidedBuffers

/-!
# Awaitables on a full ring

`Async_operation` leaves `sqe` null when the SQ ring is full, and `co_await` of it
yields `-ENOMEM` at once. The constructors of the classes derived from it, and the
operators `&` and `|`, write through `sqe` without a test.
-/

namespace IoUring.Coroutine

/-- What `uring_prep_fn` writes, with `IOSQE_BUFFER_SELECT` and `buf_group`. -/
structure BufferPrep (P : Type*) where
  prep : P
  bufferSelect : Bool := false
  bufGroup : Int := 0
  deriving DecidableEq

/-- The ways of building an awaitable. -/
inductive Build (P : Type*) where
  | plain (prep : BufferPrep P)
  | multishot (prep : BufferPrep P)
  | drain (prep : BufferPrep P)
  | providedBuffers (bgid : Int) (prep : BufferPrep P)
  | chain (hard : Bool) (previous next : Expr (BufferPrep P))
  deriving DecidableEq

variable {P : Type*} {s s' : SqRing P} {op : AsyncOperation} {order : Order}

/-! ## Constructors -/

/-- The body of a constructor derived from `Async_operation`, which writes through
`user_data.sqe`; `none` when that is null. -/
def writeSqe (r : SqRing P × AsyncOperation) (f : Sqe P → Sqe P) :
    Option (SqRing P × AsyncOperation) :=
  match r.2.sqe with
  | some i => some ({ r.1 with sq := r.1.sq.modify i f }, r.2)
  | none => none

def asyncDrainOperation (s : SqRing P) (prep : P) : Option (SqRing P × AsyncOperation) :=
  writeSqe (asyncOperation s prep) fun e => { e with flags := { e.flags with ioDrain := true } }

def asyncProvidedBuffersOperations (s : SqRing (BufferPrep P)) (bgid : Int)
    (prep : BufferPrep P) : Option (SqRing (BufferPrep P) × AsyncOperation) :=
  writeSqe (asyncOperation s prep) fun e =>
    { e with prep := { e.prep with bufferSelect := true, bufGroup := bgid } }

namespace Build

/-- The construction of an awaitable; `order` is the one in which the operands of a
chain are evaluated. -/
def eval (order : Order) (s : SqRing (BufferPrep P)) :
    Build P → Option (SqRing (BufferPrep P) × AsyncOperation)
  | .plain prep => some (asyncOperation s prep)
  | .multishot prep => some (asyncOperation s prep)
  | .drain prep => asyncDrainOperation s prep
  | .providedBuffers bgid prep => asyncProvidedBuffersOperations s bgid prep
  | .chain hard previous next => (Expr.link hard previous next).eval order s

/-- The number of SQEs that an awaitable asks for. -/
def requests : Build P → Nat
  | .chain hard previous next => (Expr.link hard previous next).leaves.length
  | _ => 1

end Build

/-! ## `co_await` -/

/-- `co_await` suspends, or it yields what `await_resume()` returns, which is a
result and, for provided buffers, a buffer ID. -/
inductive Awaited where
  | suspended
  | resumed (res : Int) (bid : Option Nat)
  deriving DecidableEq

namespace AsyncUserData

variable (d : AsyncUserData)

/-- `await_ready()`. -/
def awaitReady : Bool :=
  !(d.sqe && d.cqe.isNone)

/-- `await_resume()` of `Async_operation`; `none` when it reads through a null `cqe`. -/
def awaitResume (cqes : Nat → ProvidedBuffers.Cqe) : Option Int :=
  if d.sqe then d.cqe.map fun slot => (cqes slot).res else some (-ENOMEM)

end AsyncUserData

/-- `IORING_CQE_F_MORE`. -/
def ProvidedBuffers.Cqe.more (cqe : ProvidedBuffers.Cqe) : Bool :=
  cqe.flags &&& 2 ≠ 0

namespace Build

/-- The derived `await_resume()`, with what it leaves in the `user_data`. -/
def awaitResume (d : AsyncUserData) (cqes : Nat → ProvidedBuffers.Cqe) :
    Build P → Option (AsyncUserData × Awaited)
  | .multishot _ =>
      (d.awaitResume cqes).map fun res =>
        ({ d with
          uring := d.uring && (d.cqe.map fun slot => (cqes slot).more).getD false
          cqe := none }, .resumed res none)
  | .providedBuffers _ _ =>
      (d.awaitResume cqes).bind fun res =>
        if res < 0 then some (d, .resumed res (some 0))
        else d.cqe.map fun slot =>
          let (res, bid) := ProvidedBuffers.awaitResume (cqes slot)
          (d, .resumed res (some bid))
  | _ => (d.awaitResume cqes).map fun res => (d, .resumed res none)

/-- `co_await` by the coroutine `h`; `none` when it goes through a null pointer. -/
def coAwait (b : Build P) (d : AsyncUserData) (cqes : Nat → ProvidedBuffers.Cqe) (h : Handle) :
    Option (AsyncUserData × Awaited) :=
  if d.awaitReady then b.awaitResume d cqes else some ({ d with h := some h }, .suspended)

/-- What `Async_operation` promises of an awaitable: its construction goes through no
null pointer, and `co_await` of it without an SQE yields `-ENOMEM`, whatever else its
`user_data` holds. -/
def Promised (b : Build P) (order : Order) (s : SqRing (BufferPrep P)) : Prop :=
  ∃ s' op, b.eval order s = some (s', op) ∧
    (op.sqe = none → ∀ (d : AsyncUserData) (cqes : Nat → ProvidedBuffers.Cqe) (h : Handle),
      d.sqe = false → ∃ d' bid, b.coAwait d cqes h = some (d', .resumed (-ENOMEM) bid))

end Build

/-! ## When the ring is full -/

/-- Without an SQE, `co_await` does not suspend, whatever the class. -/
theorem Build.coAwait_null (b : Build P) {d : AsyncUserData} (hsqe : d.sqe = false)
    (cqes : Nat → ProvidedBuffers.Cqe) (h : Handle) :
    ∃ d' bid, b.coAwait d cqes h = some (d', .resumed (-ENOMEM) bid) := by
  have hready : d.awaitReady = true := by simp [AsyncUserData.awaitReady, hsqe]
  have hres : d.awaitResume cqes = some (-ENOMEM) := by simp [AsyncUserData.awaitResume, hsqe]
  have hneg : 0 < ENOMEM := by decide
  cases b <;> simp [coAwait, hready, Build.awaitResume, hres, hneg]

theorem Build.promised_iff_eval (b : Build P) (order : Order) (s : SqRing (BufferPrep P)) :
    b.Promised order s ↔ (b.eval order s).isSome := by
  rw [Option.isSome_iff_exists]
  constructor
  · rintro ⟨s', op, heval, -⟩
    exact ⟨_, heval⟩
  · rintro ⟨⟨s', op⟩, heval⟩
    exact ⟨s', op, heval, fun _ d cqes h hsqe => b.coAwait_null hsqe cqes h⟩

theorem asyncOperation_sqe (s : SqRing P) (prep : P) :
    (asyncOperation s prep).2.sqe = if s.sq.length < s.entries then some s.sq.length else none := by
  simp only [asyncOperation]
  split <;> rfl

theorem asyncOperation_length_le (s : SqRing P) (prep : P) :
    (asyncOperation s prep).1.entries = s.entries ∧
      (asyncOperation s prep).1.sq.length ≤ max s.sq.length s.entries := by
  simp only [asyncOperation]
  split
  · simp only [List.length_append, List.length_singleton, true_and]
    omega
  · exact ⟨rfl, Nat.le_max_left _ _⟩

/-- A constructor that writes through its SQE needs one. -/
theorem writeSqe_isSome (s : SqRing P) (prep : P) (f : Sqe P → Sqe P) :
    (writeSqe (asyncOperation s prep) f).isSome ↔ s.sq.length + 1 ≤ s.entries := by
  rw [writeSqe, asyncOperation_sqe]
  by_cases hroom : s.sq.length < s.entries
  · simp only [hroom, if_true, Option.isSome_some, true_iff]
    exact hroom
  · simp only [hroom, if_false, Option.isSome_none, Bool.false_eq_true, false_iff]
    omega

theorem syncLinkOperation_length {hard : Bool} {previous next : AsyncOperation}
    (h : syncLinkOperation hard s previous next = some (s', op)) :
    s'.entries = s.entries ∧ s'.sq.length = s.sq.length := by
  simp only [syncLinkOperation] at h
  split at h
  · obtain ⟨rfl, -⟩ := Prod.mk.inj (Option.some.inj h)
    simp
  · cases h

/-- The ring never holds more entries than it has room for. -/
theorem Expr.eval_length_le (e : Expr P) (order : Order) (s : SqRing P)
    (h : e.eval order s = some (s', op)) :
    s'.entries = s.entries ∧ s'.sq.length ≤ max s.sq.length s.entries := by
  induction e generalizing order s s' op with
  | op prep =>
      have hlength := asyncOperation_length_le s prep
      rwa [Option.some.inj h] at hlength
  | link hard l r ihl ihr =>
      simp only [Expr.eval] at h
      split at h
      · obtain ⟨⟨s₁, previous⟩, hl, h⟩ := Option.bind_eq_some_iff.mp h
        obtain ⟨⟨s₂, next⟩, hr, hlink⟩ := Option.bind_eq_some_iff.mp h
        have hl := ihl _ _ hl
        have hr := ihr _ _ hr
        have hlength := syncLinkOperation_length hlink
        simp only at hl hr hlength
        omega
      · obtain ⟨⟨s₁, next⟩, hr, h⟩ := Option.bind_eq_some_iff.mp h
        obtain ⟨⟨s₂, previous⟩, hl, hlink⟩ := Option.bind_eq_some_iff.mp h
        have hr := ihr _ _ hr
        have hl := ihl _ _ hl
        have hlength := syncLinkOperation_length hlink
        simp only at hl hr hlength
        omega

/-- A chain needs an entry for each of its operations, in every order of evaluation. -/
theorem Expr.eval_isSome (hard : Bool) (l r : Expr P) (order : Order) (s : SqRing P) :
    ((Expr.link hard l r).eval order s).isSome ↔
      s.sq.length + (Expr.link hard l r).leaves.length ≤ s.entries := by
  constructor
  · intro h
    obtain ⟨⟨s', op⟩, heval⟩ := Option.isSome_iff_exists.mp h
    have hop := Expr.sqe_of_eval _ order s (by simp [Expr.operators]) heval
    have hlength := (Expr.evaluates_of_eval _ order s heval hop).length
    obtain ⟨-, hle⟩ := Expr.eval_length_le _ order s heval
    have hpos := List.length_pos_iff.mpr (Expr.leaves_ne_nil (.link hard l r))
    omega
  · intro hroom
    obtain ⟨s', op, heval, -⟩ := Expr.eval_evaluates (.link hard l r) order s hroom
    rw [heval]
    rfl

/-- For every way of building an awaitable, every order of evaluation and every occupancy
of the SQ ring: the promise holds if and only if the awaitable is a plain or a multishot
operation, or the ring has an entry for each SQE that the awaitable asks for. -/
theorem promised_iff (b : Build P) (order : Order) (s : SqRing (BufferPrep P)) :
    b.Promised order s ↔ (∃ prep, b = .plain prep ∨ b = .multishot prep) ∨
      s.sq.length + b.requests ≤ s.entries := by
  rw [b.promised_iff_eval order s]
  cases b with
  | plain prep => simp [Build.eval]
  | multishot prep => simp [Build.eval]
  | drain prep =>
      apply (writeSqe_isSome s prep _).trans
      simp [Build.requests]
  | providedBuffers bgid prep =>
      apply (writeSqe_isSome s prep _).trans
      simp [Build.requests]
  | chain hard previous next =>
      apply (Expr.eval_isSome hard previous next order s).trans
      simp [Build.requests]

section Full

/-- A ring of one entry, which is taken. -/
def fullRing : SqRing (BufferPrep Unit) :=
  ⟨1, [⟨{ prep := () }, {}, some 0⟩], 1⟩

/-- A ring of one entry, which is free. -/
def singleRing : SqRing (BufferPrep Unit) :=
  ⟨1, [], 0⟩

/-- Each of the derived kinds goes through a null pointer: a drain operation and provided
buffers on a full ring, and a chain when the ring fills up between its two members. -/
theorem promise_broken :
    ¬(Build.drain { prep := () }).Promised leftToRight fullRing ∧
      ¬(Build.providedBuffers 0 { prep := () }).Promised leftToRight fullRing ∧
      ¬(Build.chain false (.op { prep := () }) (.op { prep := () })).Promised leftToRight singleRing := by
  simp only [Build.promised_iff_eval]
  decide

end Full

/-! ## The same operations in a context -/

/-- A drain operation of a context is built the same way. -/
theorem constructStep_drain (cfg : Config) (s : State) (prep : Request) :
    constructStep cfg s prep true = (asyncDrainOperation (s.sqRing cfg) prep).map fun r =>
      s.construct r.1 { multishot := prep = .multishot, userData := { sqe := true } } := by
  simp only [constructStep, asyncDrainOperation, writeSqe]
  cases (asyncOperation (s.sqRing cfg) prep).2.sqe <;> rfl

/-- `co_await` in a context of an operation without an SQE goes on at once with `-ENOMEM`. -/
theorem awaitStep_null {s s' : State} {h : Handle} {a : Nat}
    (hsqe : (s.object a).userData.sqe = false) (hs : awaitStep s h a = some s') :
    s'.running = s.running ∧ s'.suspended = s.suspended ∧
      s'.returned = (a, -ENOMEM) :: s.returned := by
  simp only [awaitStep] at hs
  split at hs
  · rw [if_neg (by simp [hsqe])] at hs
    obtain rfl := Option.some.inj hs
    simp only [State.awaitResume, hsqe]
    split <;> simp [State.setUserData, State.setObject]
  · cases hs

end IoUring.Coroutine
