import Mathlib.Data.Nat.Bits
import Mathlib.Data.List.Infix
import IoUring.Base.Machine
import IoUring.Base.Slots

/-!
# `Fifo`

One thread calls `push` and one thread calls `pop`. Each load, each access to the
buffer and each store is a step of its own; a value is written in two steps, and in
between the slot holds no value.
-/

namespace IoUring.Coroutine.Fifo

/-- `SIZE`, with the `static_assert` of the constructor. -/
structure Size where
  val : Nat
  valid : 1 < val ∧ val &&& (val - 1) = 0

def Size.mask (size : Size) : Nat := size.val - 1

/-- The points of `push`. -/
inductive Producer (T : Type*) where
  | idle
  | loadOut (elem : T) (in_ : Nat)
  | write (elem : T) (in_ next_in : Nat)
  | writing (elem : T) (in_ next_in : Nat)
  | store (elem : T) (next_in : Nat)

/-- The points of `pop`; `unread` is history, the number of unread values at the
load of `_in`. -/
inductive Consumer (T : Type*) where
  | idle
  | loadOut (in_ unread : Nat)
  | read (out : Nat)
  | reading (out : Nat)
  | store (out : Nat) (opt : T)

/-- The last four fields are history: the values whose `push` has returned true, the
values that were popped, and the number of unread values at the load of `_out` of
each `push` that returned false, and at the load of `_in` of each `pop` that left its
argument unchanged. -/
structure State (T : Type*) where
  buffer : Nat → Option T
  in_ : Nat
  out_ : Nat
  producer : Producer T
  consumer : Consumer T
  pushed : List T
  popped : List T
  refused : List Nat
  missed : List Nat

inductive Label (T : Type*) where
  | push (elem : T)
  | produce
  | pop
  | consume

variable {T : Type*}

def State.unread (s : State T) : Nat :=
  s.pushed.length - s.popped.length

/-- The next step of `push`. -/
def produce (size : Size) (s : State T) : Option (State T) :=
  match s.producer with
  | .idle => none
  | .loadOut elem in_ =>
      let next_in := (in_ + 1) &&& size.mask
      if next_in = s.out_ then
        some { s with producer := .idle, refused := s.unread :: s.refused }
      else some { s with producer := .write elem in_ next_in }
  | .write elem in_ next_in => some { s with
      buffer := Function.update s.buffer in_ none
      producer := .writing elem in_ next_in }
  | .writing elem in_ next_in => some { s with
      buffer := Function.update s.buffer in_ (some elem)
      producer := .store elem next_in }
  | .store elem next_in => some { s with
      in_ := next_in
      producer := .idle
      pushed := s.pushed ++ [elem] }

/-- The next step of `pop`; to read a slot that is being written is undefined. -/
def consume (size : Size) (s : State T) : Option (State T) :=
  match s.consumer with
  | .idle => none
  | .loadOut in_ unread =>
      let out := s.out_
      if in_ = out then some { s with consumer := .idle, missed := unread :: s.missed }
      else some { s with consumer := .read out }
  | .read out => some { s with consumer := .reading out }
  | .reading out => (s.buffer out).map fun opt => { s with consumer := .store out opt }
  | .store out opt => some { s with
      out_ := (out + 1) &&& size.mask
      consumer := .idle
      popped := s.popped ++ [opt] }

/-- A call starts with the load of `_in`. -/
def step (size : Size) (s : State T) : Label T → Option (State T)
  | .push elem =>
      match s.producer with
      | .idle => some { s with producer := .loadOut elem s.in_ }
      | _ => none
  | .produce => produce size s
  | .pop =>
      match s.consumer with
      | .idle => some { s with consumer := .loadOut s.in_ s.unread }
      | _ => none
  | .consume => consume size s

def Init (s : State T) : Prop :=
  s.in_ = 0 ∧ s.out_ = 0 ∧ s.producer = .idle ∧ s.consumer = .idle ∧ s.pushed = [] ∧
    s.popped = [] ∧ s.refused = [] ∧ s.missed = []

def machine (T : Type*) (size : Size) : Machine (State T) (Label T) where
  init := Init
  step := step size

/-! ## The atomic queue -/

inductive QueueOp (T : Type*) where
  | push (elem : T) (ok : Bool)
  | pop (opt : Option T)

/-- The atomic queue of a bounded length. -/
inductive QueueStep (capacity : Nat) : List T → QueueOp T → List T → Prop
  | push {queue : List T} {elem : T} :
      queue.length < capacity → QueueStep capacity queue (.push elem true) (queue ++ [elem])
  | full {queue : List T} {elem : T} :
      queue.length = capacity → QueueStep capacity queue (.push elem false) queue
  | pop {queue : List T} {opt : T} : QueueStep capacity (opt :: queue) (.pop (some opt)) queue
  | empty : QueueStep capacity [] (.pop none) []

/-- The values that are pushed and not popped. -/
def State.queue (s : State T) : List T :=
  s.pushed.drop s.popped.length

/-- Where the calls take effect: `push` at its store, or at the load of `_out` that
finds the queue full, and `pop` at its store, or at the load of `_in` that finds it
empty. -/
def State.effect (size : Size) (s : State T) : Label T → Option (QueueOp T)
  | .push _ => none
  | .produce =>
      match s.producer with
      | .loadOut elem in_ =>
          if (in_ + 1) &&& size.mask = s.out_ then some (.push elem false) else none
      | .store elem _ => some (.push elem true)
      | _ => none
  | .pop => if s.in_ = s.out_ then some (.pop none) else none
  | .consume =>
      match s.consumer with
      | .store _ opt => some (.pop (some opt))
      | _ => none

/-- The slot that the producer is about to write, or writes. -/
def Producer.slot : Producer T → Option Nat
  | .write _ in_ _ | .writing _ in_ _ => some in_
  | _ => none

/-- The slot that the consumer is about to read, or reads. -/
def Consumer.slot : Consumer T → Option Nat
  | .read out | .reading out => some out
  | _ => none

/-- What the queue promises in a state. -/
structure Safe (size : Size) (s : State T) : Prop where
  order : s.popped <+: s.pushed
  capacity : s.unread ≤ size.val - 1
  unreadSlot : ∀ in_, s.producer.slot = some in_ →
    ∀ n, s.popped.length ≤ n → n < s.pushed.length → n % size.val ≠ in_
  race : ∀ in_ out, s.producer.slot = some in_ → s.consumer.slot = some out → in_ ≠ out
  untorn : ∀ out, s.consumer = .reading out → ∃ opt, s.buffer out = some opt ∧
    s.queue.head? = some opt
  empty : ∀ in_ unread, s.consumer = .loadOut in_ unread → (in_ = s.out_ ↔ unread = 0)
  refused : ∀ unread ∈ s.refused, unread = size.val - 1
  missed : ∀ unread ∈ s.missed, unread = 0

/-- A step does what the atomic queue does where a call takes effect, and nothing
elsewhere. -/
def Refines (size : Size) (s : State T) (l : Label T) (s' : State T) : Prop :=
  match s.effect size l with
  | some op => QueueStep (size.val - 1) s.queue op s'.queue
  | none => s'.queue = s.queue

/-! ## Indices -/

/-- `MASK` computes the remainder. -/
theorem Size.and_mask (size : Size) (n : Nat) : n &&& size.mask = n % size.val := by
  obtain ⟨hone, hpow⟩ := size.valid
  obtain ⟨k, hk⟩ := (Nat.and_sub_one_eq_zero_iff_isPowerOfTwo (by omega)).mp hpow
  rw [Size.mask, hk, Nat.and_two_pow_sub_one_eq_mod]

theorem Size.succ_and_mask (size : Size) (n : Nat) :
    (n % size.val + 1) &&& size.mask = (n + 1) % size.val := by
  rw [size.and_mask, Nat.mod_add_mod]

/-- Two numbers of a window that is longer than their distance are equal when their
slots are. -/
theorem eq_of_slot {size m n : Nat} (hle : n ≤ m) (hlt : m < n + size) (h : n % size = m % size) :
    n = m := by
  by_contra hne
  exact slot_ne (by omega) hlt h

/-- What the producer has put into its slot, before the slot is published. -/
def Producer.pending : Producer T → List (Option T)
  | .writing .. => [none]
  | .store elem _ => [some elem]
  | _ => []

/-- The producer knows `_in`, and that there was room. -/
def Producer.Ok (size : Size) (s : State T) : Producer T → Prop
  | .idle => True
  | .loadOut _ in_ => in_ = s.pushed.length % size.val
  | .write _ in_ next_in | .writing _ in_ next_in =>
      in_ = s.pushed.length % size.val ∧ next_in = (s.pushed.length + 1) % size.val ∧
        s.pushed.length + 1 < s.popped.length + size.val
  | .store _ next_in => next_in = (s.pushed.length + 1) % size.val ∧
      s.pushed.length + 1 < s.popped.length + size.val

/-- The consumer knows `_out`, and a number of values that were pushed. -/
def Consumer.Ok (size : Size) (s : State T) : Consumer T → Prop
  | .idle => True
  | .loadOut in_ unread => in_ = (s.popped.length + unread) % size.val ∧
      s.popped.length + unread ≤ s.pushed.length
  | .read out | .reading out => out = s.popped.length % size.val ∧ s.popped.length < s.pushed.length
  | .store out opt => out = s.popped.length % size.val ∧ s.pushed[s.popped.length]? = some opt

structure Inv (size : Size) (s : State T) : Prop where
  in_ : s.in_ = s.pushed.length % size.val
  out_ : s.out_ = s.popped.length % size.val
  order : s.popped <+: s.pushed
  window : s.pushed.length < s.popped.length + size.val
  slots : Slots size.val s.buffer (s.pushed.map some ++ s.producer.pending)
  producer : s.producer.Ok size s
  consumer : s.consumer.Ok size s
  refused : ∀ unread ∈ s.refused, unread = size.val - 1
  missed : ∀ unread ∈ s.missed, unread = 0

variable {size : Size} {s s' : State T} {l : Label T}

theorem Inv.le (h : Inv size s) : s.popped.length ≤ s.pushed.length :=
  h.order.length_le

/-- The oldest unread value is in its slot. -/
theorem Inv.oldest (h : Inv size s) {opt : T} (hopt : s.pushed[s.popped.length]? = some opt) :
    s.buffer (s.popped.length % size.val) = some opt := by
  obtain ⟨hlt, -⟩ := List.getElem?_eq_some_iff.mp hopt
  refine h.slots.get s.popped.length (some opt) ?_ ?_
  · rw [List.getElem?_append_left (by simpa using hlt), List.getElem?_map, hopt]
    rfl
  · have hproducer := h.producer
    have hwindow := h.window
    cases hpc : s.producer with
    | writing elem in_ next_in =>
        rw [hpc] at hproducer
        obtain ⟨-, -, hroom⟩ := hproducer
        simp only [List.length_append, List.length_map, Producer.pending, List.length_singleton]
        omega
    | store elem next_in =>
        rw [hpc] at hproducer
        obtain ⟨-, hroom⟩ := hproducer
        simp only [List.length_append, List.length_map, Producer.pending, List.length_singleton]
        omega
    | _ =>
        simp only [List.length_append, List.length_map, Producer.pending, List.length_nil]
        omega

theorem State.queue_cons {opt : T} (hopt : s.pushed[s.popped.length]? = some opt) :
    s.queue = opt :: s.pushed.drop (s.popped.length + 1) := by
  obtain ⟨hlt, hget⟩ := List.getElem?_eq_some_iff.mp hopt
  rw [State.queue, List.drop_eq_getElem_cons hlt, hget]

/-- The slot of the producer is the one after the last value. -/
theorem Inv.slot (h : Inv size s) {in_ : Nat} (hslot : s.producer.slot = some in_) :
    in_ = s.pushed.length % size.val ∧ s.pushed.length + 1 < s.popped.length + size.val := by
  have hproducer := h.producer
  cases hpc : s.producer with
  | write elem i next_in =>
      rw [hpc] at hproducer hslot
      obtain rfl := Option.some.inj hslot
      exact ⟨hproducer.1, hproducer.2.2⟩
  | writing elem i next_in =>
      rw [hpc] at hproducer hslot
      obtain rfl := Option.some.inj hslot
      exact ⟨hproducer.1, hproducer.2.2⟩
  | _ => simp [hpc, Producer.slot] at hslot

/-- The slot of the consumer is the one of the oldest unread value. -/
theorem Inv.slot_consumer (h : Inv size s) {out : Nat} (hslot : s.consumer.slot = some out) :
    out = s.popped.length % size.val ∧ s.popped.length < s.pushed.length := by
  have hconsumer := h.consumer
  cases hpc : s.consumer with
  | read i =>
      rw [hpc] at hconsumer hslot
      obtain rfl := Option.some.inj hslot
      exact hconsumer
  | reading i =>
      rw [hpc] at hconsumer hslot
      obtain rfl := Option.some.inj hslot
      exact hconsumer
  | _ => simp [hpc, Consumer.slot] at hslot

theorem Inv.safe (h : Inv size s) : Safe size s where
  order := h.order
  capacity := by
    have hwindow := h.window
    rw [State.unread]
    omega
  unreadSlot := by
    intro in_ hslot n hle hlt
    obtain ⟨rfl, hroom⟩ := h.slot hslot
    exact slot_ne hlt (by omega)
  race := by
    intro in_ out hslot hslot'
    obtain ⟨rfl, hroom⟩ := h.slot hslot
    obtain ⟨rfl, hlt⟩ := h.slot_consumer hslot'
    exact (slot_ne hlt (by omega)).symm
  untorn := by
    intro out hpc
    have hslot : s.consumer.slot = some out := by rw [hpc]; rfl
    obtain ⟨rfl, hlt⟩ := h.slot_consumer hslot
    have hopt := List.getElem?_eq_getElem hlt
    exact ⟨_, h.oldest hopt, by rw [State.queue_cons hopt]; rfl⟩
  empty := by
    intro in_ unread hpc
    have hconsumer := h.consumer
    have hwindow := h.window
    rw [hpc] at hconsumer
    obtain ⟨rfl, hle⟩ := hconsumer
    rw [h.out_]
    constructor
    · intro heq
      have hsame := eq_of_slot (by omega) (by omega) heq.symm
      omega
    · rintro rfl
      rfl
  refused := h.refused
  missed := h.missed

/-! ## Steps -/

/-- The room that the producer has seen only grows. -/
theorem Producer.Ok.mono {producer : Producer T} (h : producer.Ok size s)
    (hpushed : s'.pushed = s.pushed) (hpopped : s.popped.length ≤ s'.popped.length) :
    producer.Ok size s' := by
  cases producer with
  | idle => trivial
  | loadOut elem in_ => exact (hpushed ▸ h : in_ = s'.pushed.length % size.val)
  | write elem in_ next_in =>
      obtain ⟨hin, hnext, hroom⟩ := h
      exact ⟨hpushed ▸ hin, hpushed ▸ hnext, by rw [hpushed]; omega⟩
  | writing elem in_ next_in =>
      obtain ⟨hin, hnext, hroom⟩ := h
      exact ⟨hpushed ▸ hin, hpushed ▸ hnext, by rw [hpushed]; omega⟩
  | store elem next_in =>
      obtain ⟨hnext, hroom⟩ := h
      exact ⟨hpushed ▸ hnext, by rw [hpushed]; omega⟩

/-- The values that the consumer has seen stay. -/
theorem Consumer.Ok.mono {consumer : Consumer T} (h : consumer.Ok size s)
    (hpopped : s'.popped = s.popped) (hpushed : s.pushed <+: s'.pushed) : consumer.Ok size s' := by
  have hle := hpushed.length_le
  cases consumer with
  | idle => trivial
  | loadOut in_ unread => exact ⟨hpopped ▸ h.1, by rw [hpopped]; exact Nat.le_trans h.2 hle⟩
  | read out => exact ⟨hpopped ▸ h.1, by rw [hpopped]; exact Nat.lt_of_lt_of_le h.2 hle⟩
  | reading out => exact ⟨hpopped ▸ h.1, by rw [hpopped]; exact Nat.lt_of_lt_of_le h.2 hle⟩
  | store out opt =>
      obtain ⟨hlt, -⟩ := List.getElem?_eq_some_iff.mp h.2
      obtain ⟨rest, hrest⟩ := hpushed
      exact ⟨hpopped ▸ h.1, by rw [hpopped, ← hrest, List.getElem?_append_left hlt]; exact h.2⟩

/-- The producer takes a step that leaves the queue. -/
theorem Inv.advance (h : Inv size s) {producer : Producer T} {buffer : Nat → Option T}
    {refused : List Nat} (hok : producer.Ok size s)
    (hslots : Slots size.val buffer (s.pushed.map some ++ producer.pending))
    (hrefused : ∀ unread ∈ refused, unread = size.val - 1) :
    Inv size { s with producer := producer, buffer := buffer, refused := refused } where
  in_ := h.in_
  out_ := h.out_
  order := h.order
  window := h.window
  slots := hslots
  producer := hok.mono rfl (Nat.le_refl _)
  consumer := h.consumer.mono rfl (List.prefix_refl _)
  refused := hrefused
  missed := h.missed

/-- The consumer takes a step that leaves the queue. -/
theorem Inv.examine (h : Inv size s) {consumer : Consumer T} {missed : List Nat}
    (hok : consumer.Ok size s) (hmissed : ∀ unread ∈ missed, unread = 0) :
    Inv size { s with consumer := consumer, missed := missed } where
  in_ := h.in_
  out_ := h.out_
  order := h.order
  window := h.window
  slots := h.slots
  producer := h.producer.mono rfl (Nat.le_refl _)
  consumer := hok.mono rfl (List.prefix_refl _)
  refused := h.refused
  missed := hmissed

/-- `push` publishes its value. -/
theorem Inv.publish (h : Inv size s) {elem : T} {next_in : Nat}
    (hpc : s.producer = .store elem next_in) :
    Inv size { s with in_ := next_in, producer := .idle, pushed := s.pushed ++ [elem] } := by
  have hproducer := h.producer
  have hslots := h.slots
  rw [hpc] at hproducer hslots
  obtain ⟨hnext, hroom⟩ := hproducer
  exact {
    in_ := by simpa using hnext
    out_ := h.out_
    order := h.order.trans (List.prefix_append _ _)
    window := by simpa using hroom
    slots := by simpa [Producer.pending] using hslots
    producer := trivial
    consumer := h.consumer.mono rfl (List.prefix_append _ _)
    refused := h.refused
    missed := h.missed }

/-- `pop` gives its slot back. -/
theorem Inv.release (h : Inv size s) {out : Nat} {opt : T} (hpc : s.consumer = .store out opt) :
    Inv size { s with
      out_ := (out + 1) &&& size.mask, consumer := .idle, popped := s.popped ++ [opt] } := by
  have hconsumer := h.consumer
  have hwindow := h.window
  rw [hpc] at hconsumer
  obtain ⟨rfl, hopt⟩ := hconsumer
  obtain ⟨hlt, hget⟩ := List.getElem?_eq_some_iff.mp hopt
  exact {
    in_ := h.in_
    out_ := by simp [size.succ_and_mask]
    order := by
      rw [List.prefix_iff_eq_take.mp h.order, ← hget, List.length_take,
        Nat.min_eq_left h.le, List.take_append_getElem hlt]
      exact List.take_prefix _ _
    window := by
      simp only [List.length_append, List.length_singleton]
      omega
    slots := h.slots
    producer := h.producer.mono rfl (by simp)
    consumer := trivial
    refused := h.refused
    missed := h.missed }

theorem State.length_queue (s : State T) : s.queue.length = s.unread := by
  rw [State.queue, List.length_drop, State.unread]

theorem Inv.queue_append (h : Inv size s) (elem : T) :
    (s.pushed ++ [elem]).drop s.popped.length = s.queue ++ [elem] :=
  List.drop_append_of_le_length h.le

theorem Inv.produce (h : Inv size s) (hstep : produce size s = some s') :
    Inv size s' ∧ Refines size s .produce s' := by
  have hproducer := h.producer
  have hslots := h.slots
  have hle := h.le
  have hwindow := h.window
  simp only [Fifo.produce] at hstep
  split at hstep
  · cases hstep
  · next elem in_ hpc =>
      rw [hpc] at hproducer hslots
      have hin : in_ = s.pushed.length % size.val := hproducer
      have hnext : (in_ + 1) &&& size.mask = (s.pushed.length + 1) % size.val := by
        rw [hin, size.succ_and_mask]
      split at hstep
      · next hfull =>
          obtain rfl := Option.some.inj hstep
          have hunread : s.unread = size.val - 1 := by
            rw [hnext, h.out_] at hfull
            have hwrap : (s.popped.length + size.val) % size.val = (s.pushed.length + 1) % size.val := by
              rw [Nat.add_mod_right, hfull]
            rw [State.unread]
            by_contra hne
            exact slot_ne (by omega) (by omega) hwrap.symm
          refine ⟨h.advance trivial (by simpa [Producer.pending] using hslots) ?_, ?_⟩
          · exact List.forall_mem_cons.mpr ⟨hunread, h.refused⟩
          · simp only [Refines, State.effect, hpc, hfull, if_true]
            exact .full (s.length_queue.trans hunread)
      · next hroom =>
          obtain rfl := Option.some.inj hstep
          refine ⟨h.advance ⟨hin, hnext, ?_⟩ (by simpa [Producer.pending] using hslots) h.refused, ?_⟩
          · rw [hnext, h.out_] at hroom
            by_contra hfull
            have hwrap : s.pushed.length + 1 = s.popped.length + size.val := by omega
            rw [hwrap, Nat.add_mod_right] at hroom
            exact hroom rfl
          · simp only [Refines, State.effect, hpc, hroom, if_false]
            rfl
  · next elem in_ next_in hpc =>
      rw [hpc] at hproducer hslots
      obtain rfl := Option.some.inj hstep
      refine ⟨h.advance hproducer ?_ h.refused, by simp only [Refines, State.effect, hpc]; rfl⟩
      have hfilled : Slots size.val s.buffer (s.pushed.map some) := by
        simpa [Producer.pending] using hslots
      have hpush := hfilled.push none
      rw [hproducer.1]
      simpa [Producer.pending] using hpush
  · next elem in_ next_in hpc =>
      rw [hpc] at hproducer hslots
      obtain rfl := Option.some.inj hstep
      refine ⟨h.advance hproducer.2 ?_ h.refused, by simp only [Refines, State.effect, hpc]; rfl⟩
      have hover := hslots.overwrite (some elem)
      rw [hproducer.1]
      simpa [Producer.pending] using hover
  · next elem next_in hpc =>
      rw [hpc] at hproducer
      obtain rfl := Option.some.inj hstep
      refine ⟨h.publish hpc, ?_⟩
      have heffect : s.effect size .produce = some (.push elem true) := by rw [State.effect, hpc]
      rw [Refines, heffect]
      change QueueStep _ s.queue _ ((s.pushed ++ [elem]).drop s.popped.length)
      rw [h.queue_append]
      refine .push ?_
      rw [s.length_queue, State.unread]
      have hroom := hproducer.2
      omega

theorem Inv.consume (h : Inv size s) (hstep : consume size s = some s') :
    Inv size s' ∧ Refines size s .consume s' := by
  have hconsumer := h.consumer
  simp only [Fifo.consume] at hstep
  split at hstep
  · cases hstep
  · next in_ unread hpc =>
      rw [hpc] at hconsumer
      obtain ⟨rfl, hle⟩ := hconsumer
      have hwindow := h.window
      split at hstep
      · next hempty =>
          obtain rfl := Option.some.inj hstep
          have hunread : unread = 0 := (h.safe.empty _ _ hpc).mp hempty
          refine ⟨h.examine trivial (List.forall_mem_cons.mpr ⟨hunread, h.missed⟩), ?_⟩
          simp only [Refines, State.effect, hpc]
          rfl
      · next hne =>
          obtain rfl := Option.some.inj hstep
          refine ⟨h.examine ⟨h.out_, ?_⟩ h.missed, by simp only [Refines, State.effect, hpc]; rfl⟩
          have hpos : unread ≠ 0 := fun hzero => hne ((h.safe.empty _ _ hpc).mpr hzero)
          omega
  · next out hpc =>
      rw [hpc] at hconsumer
      obtain rfl := Option.some.inj hstep
      exact ⟨h.examine hconsumer h.missed, by simp only [Refines, State.effect, hpc]; rfl⟩
  · next out hpc =>
      rw [hpc] at hconsumer
      obtain ⟨rfl, hlt⟩ := hconsumer
      have hopt := List.getElem?_eq_getElem hlt
      rw [h.oldest hopt] at hstep
      obtain rfl := Option.some.inj hstep
      exact ⟨h.examine ⟨rfl, hopt⟩ h.missed, by simp only [Refines, State.effect, hpc]; rfl⟩
  · next out opt hpc =>
      rw [hpc] at hconsumer
      obtain rfl := Option.some.inj hstep
      refine ⟨h.release hpc, ?_⟩
      simp only [Refines, State.effect, hpc]
      rw [State.queue_cons hconsumer.2, State.queue]
      simp only [List.length_append, List.length_singleton]
      exact .pop

theorem Inv.step (h : Inv size s) (hstep : (machine T size).step s l = some s') :
    Inv size s' ∧ Refines size s l s' := by
  simp only [machine, Fifo.step] at hstep
  cases l with
  | produce => exact h.produce hstep
  | consume => exact h.consume hstep
  | push elem =>
      simp only at hstep
      split at hstep
      · next hpc =>
          obtain rfl := Option.some.inj hstep
          have hslots := h.slots
          rw [hpc] at hslots
          exact ⟨h.advance h.in_ (by simpa [Producer.pending] using hslots) h.refused, rfl⟩
      · cases hstep
  | pop =>
      simp only at hstep
      split at hstep
      · have hle := h.le
        have hwindow := h.window
        obtain rfl := Option.some.inj hstep
        refine ⟨h.examine ⟨?_, ?_⟩ h.missed, ?_⟩
        · rw [h.in_, State.unread, Nat.add_sub_cancel' hle]
        · rw [State.unread, Nat.add_sub_cancel' hle]
        · simp only [Refines, State.effect]
          by_cases hempty : s.in_ = s.out_
          · have hnil : s.queue = [] := by
              rw [h.in_, h.out_] at hempty
              have heq := eq_of_slot hle hwindow hempty.symm
              rw [State.queue, heq, List.drop_length]
            rw [if_pos hempty]
            change QueueStep _ s.queue _ s.queue
            rw [hnil]
            exact .empty
          · rw [if_neg hempty]
            rfl
      · cases hstep

theorem reachable_inv (h : (machine T size).Reachable s) : Inv size s := by
  refine h.invariant (Inv size) (fun s hs => ?_) fun s l s' _ hinv _ hstep => (hinv.step hstep).1
  obtain ⟨hin, hout, hproducer, hconsumer, hpushed, hpopped, hrefused, hmissed⟩ := hs
  exact {
    in_ := by simp [hin, hpushed]
    out_ := by simp [hout, hpopped]
    order := by simp [hpopped]
    window := by
      have hone := size.valid.1
      simp only [hpushed, hpopped, List.length_nil]
      omega
    slots := by
      rw [hpushed, hproducer]
      exact .nil
    producer := by rw [hproducer]; trivial
    consumer := by rw [hconsumer]; trivial
    refused := by simp [hrefused]
    missed := by simp [hmissed] }

/-- In every state of every interleaving the queue keeps its promises, and every
step refines the atomic queue of capacity `SIZE - 1`. -/
theorem fifo_atomic (h : (machine T size).Reachable s) : Safe size s ∧
    ∀ l s', (machine T size).step s l = some s' → Refines size s l s' :=
  ⟨(reachable_inv h).safe, fun _ _ hstep => ((reachable_inv h).step hstep).2⟩

section Wraps

def two : Size := ⟨2, by decide⟩

/-- With two slots, one value fills the queue, and the second `push` returns false. The
third one loads `_in` while the value is popped, and both indices wrap around. -/
def wrapRun : List (Label Nat) :=
  [.push 7, .produce, .produce, .produce, .produce, .push 8, .produce, .pop, .consume, .consume,
    .consume, .push 9, .consume, .produce, .produce, .produce, .pop, .produce, .consume, .pop, .consume,
    .consume, .consume, .consume]

theorem fifo_atomic_wraps : ∃ s : State Nat, (machine Nat two).Reachable s ∧ s.pushed = [7, 9] ∧
    s.popped = [7, 9] ∧ s.refused = [1] ∧ s.missed = [0] ∧ s.in_ = 0 ∧ s.out_ = 0 ∧ Safe two s := by
  have hrun : ∃ s : State Nat, (machine Nat two).run
      ⟨fun _ => none, 0, 0, .idle, .idle, [], [], [], []⟩ wrapRun = some s ∧ s.pushed = [7, 9] ∧
      s.popped = [7, 9] ∧ s.refused = [1] ∧ s.missed = [0] ∧ s.in_ = 0 ∧ s.out_ = 0 :=
    ⟨_, rfl, rfl, rfl, rfl, rfl, rfl, rfl⟩
  obtain ⟨s, hs, hpushed, hpopped, hrefused, hmissed, hin, hout⟩ := hrun
  have hreach := Machine.Reachable.of_run (by simp [machine, Init]) hs
  exact ⟨s, hreach, hpushed, hpopped, hrefused, hmissed, hin, hout, (fifo_atomic hreach).1⟩

end Wraps

end IoUring.Coroutine.Fifo
