import IoUring.Echo.Session

/-!
# The clients of the echo server

At any time a descriptor is free, or its client is arriving, is served or is leaving, and one
request or one CQE says which. The handlers and the kernel move one client at a time.
-/

namespace IoUring.Echo

variable {s s' : State} {reserved : Word → Bool}

/-! ## User data -/

theorem dataUnpack_dataPack (high32 low32 : Word) :
    dataUnpack (dataPack high32 low32) = (low32, high32.setWidth 64) := by
  simp only [dataUnpack, dataPack, Prod.mk.injEq]
  constructor
  · ext i hi
    simp
  · ext i hi
    simp
    grind

/-- The descriptor and the operation come back from the user data. -/
theorem dataPack_inj {high32 low32 high32' low32' : Word}
    (h : dataPack high32 low32 = dataPack high32' low32') : high32 = high32' ∧ low32 = low32' := by
  have hunpack := congrArg dataUnpack h
  rw [dataUnpack_dataPack, dataUnpack_dataPack, Prod.mk.injEq] at hunpack
  refine ⟨?_, hunpack.1⟩
  have hhigh := congrArg (BitVec.setWidth 32) hunpack.2
  simpa using hhigh

theorem OP.code_inj {op op' : OP} (h : op.code = op'.code) : op = op' := by
  cases op <;> cases op' <;> first | rfl | exact absurd h (by decide)

/-- The user data of an operation on a descriptor. -/
def OP.data (op : OP) (fd : Word) : BitVec 64 :=
  dataPack fd op.code

theorem OP.data_inj {op op' : OP} {fd fd' : Word} (h : op.data fd = op'.data fd') : op = op' ∧ fd = fd' :=
  have hpack := dataPack_inj h
  ⟨OP.code_inj hpack.2, hpack.1⟩

@[simp] theorem OP.data_eq {op op' : OP} {fd fd' : Word} : op.data fd = op'.data fd' ↔ op = op' ∧ fd = fd' :=
  ⟨OP.data_inj, by rintro ⟨rfl, rfl⟩; rfl⟩

def Prep.data : Prep → BitVec 64
  | .accept => OP.accept.data 0
  | .read fd _ _ => OP.read.data fd
  | .write fd _ _ => OP.write.data fd
  | .close fd => OP.close.data fd

/-- The client that a request is for. -/
def Prep.fd : Prep → Option Word
  | .accept => none
  | .read fd _ _ => some fd
  | .write fd _ _ => some fd
  | .close fd => some fd

/-- A transfer is smaller than a buffer, so that its size is not negative. -/
theorem nofail_ofNat {n : Nat} (h : n ≤ bufferSize) : nofail (BitVec.ofNat 32 n) = some n := by
  rw [bufferSize] at h
  have hn : (BitVec.ofNat 32 n).toNat = n := by
    rw [BitVec.toNat_ofNat]
    omega
  rw [nofail, if_neg, hn]
  rw [BitVec.toInt_eq_toNat_of_lt (by omega)]
  omega

/-! ## Lists -/

section Lists

variable {α : Type*} {l : List α} {i : Nat} {x y : α} {p : α → Bool}

theorem filter_eraseIdx_of_neg (hx : l[i]? = some x) (hp : p x = false) :
    (l.eraseIdx i).filter p = l.filter p := by
  obtain ⟨hlt, rfl⟩ := List.getElem?_eq_some_iff.mp hx
  conv_rhs => rw [← List.take_append_drop i l, List.drop_eq_getElem_cons hlt]
  rw [List.eraseIdx_eq_take_drop_succ, List.filter_append, List.filter_append,
    List.filter_cons_of_neg (by simp [hp])]

theorem filter_eraseIdx_of_singleton (hx : l[i]? = some x) (hp : p x = true) (hl : l.filter p = [y]) :
    x = y ∧ (l.eraseIdx i).filter p = [] := by
  obtain ⟨hlt, rfl⟩ := List.getElem?_eq_some_iff.mp hx
  rw [← List.take_append_drop i l, List.drop_eq_getElem_cons hlt, List.filter_append,
    List.filter_cons_of_pos hp] at hl
  rw [List.eraseIdx_eq_take_drop_succ, List.filter_append]
  match hleft : (l.take i).filter p, hl with
  | [], hl =>
      rw [List.nil_append, List.cons.injEq] at hl
      exact ⟨hl.1, by rw [hl.2]; rfl⟩
  | _ :: _, hl => simp at hl

theorem length_filter_eraseIdx (hx : l[i]? = some x) (hp : p x = true) :
    ((l.eraseIdx i).filter p).length + 1 = (l.filter p).length := by
  obtain ⟨hlt, rfl⟩ := List.getElem?_eq_some_iff.mp hx
  conv_rhs => rw [← List.take_append_drop i l, List.drop_eq_getElem_cons hlt]
  rw [List.eraseIdx_eq_take_drop_succ, List.filter_append, List.filter_append,
    List.filter_cons_of_pos hp]
  simp
  omega

end Lists

/-! ## One client -/

variable {fd fd' : Word}

namespace State

variable (s fd)

/-- The requests for a client that the kernel has not finished. -/
def requests : List Sqe :=
  s.flight.filter fun e => e.prep.fd = some fd

/-- The CQEs of a client for which the loop calls a handler. -/
def completions : List Cqe :=
  s.cqes.filter fun c => c.data = OP.read.data fd ∨ c.data = OP.write.data fd

/-- The CQEs that bring a client. -/
def arrivals : List Cqe :=
  s.cqes.filter fun c => c.data = OP.accept.data 0 ∧ c.res = fd ∧ 0 ≤ c.res.toInt

/-- All that is outstanding for a client. -/
def outstanding : List Cqe × List Sqe × List Cqe :=
  (s.arrivals fd, s.requests fd, s.completions fd)

/-- The answer that ends a session waits for its handler, or the close operation is
outstanding, and nothing else is. -/
def closes : Prop :=
  (∃ res, s.outstanding fd = ([], [], [⟨OP.write.data fd, res⟩])) ∨
    s.outstanding fd = ([], [⟨.close fd, OP.close.data fd⟩], [])

end State

/-- The request or the CQE of a client that is served, with its buffer and its session. -/
inductive Outstanding (fd : Word) (a : Nat) (b : Buffer) (received sent : List Block) :
    Next → List Sqe → List Cqe → Prop
  | reading (h : Session received sent .reading) :
      Outstanding fd a b received sent .read [⟨.read fd a bufferSize, OP.read.data fd⟩] []
  | readFailed {res : Word} (h : Session received sent .reading) (hres : res.toInt < 0) :
      Outstanding fd a b received sent .read [] [⟨OP.read.data fd, res⟩]
  | readDone {block : Block} (h : Session received sent (.writing block))
      (hlength : block.length ≤ bufferSize) (hb : b.take block.length = block) :
      Outstanding fd a b received sent .read [] [⟨OP.read.data fd, BitVec.ofNat 32 block.length⟩]
  | writing {block : Block} (h : Session received sent (.writing block))
      (hlength : block.length ≤ bufferSize) (hb : b.take block.length = block) :
      Outstanding fd a b received sent .write [⟨.write fd a block.length, OP.write.data fd⟩] []
  | writeFailed {block : Block} {res : Word} (h : Session received sent (.writing block)) (hres : res.toInt < 0) :
      Outstanding fd a b received sent .write [] [⟨OP.write.data fd, res⟩]
  | written {block out : Block} (h : Session received sent (.after block out)) (hout : out <+: block)
      (hlength : block.length ≤ bufferSize) (hb : b.take block.length = block) :
      Outstanding fd a b received sent .write [] [⟨OP.write.data fd, BitVec.ofNat 32 out.length⟩]

section Inversion

variable {a : Nat} {b : Buffer} {received sent : List Block} {next : Next} {requests : List Sqe}
  {completions : List Cqe}

/-- A client that is served has one request, or one CQE. -/
theorem Outstanding.one (h : Outstanding fd a b received sent next requests completions) :
    requests.length + completions.length = 1 := by
  cases h <;> rfl

/-- After the answer that ends a session its CQE is the only thing that is left. -/
theorem Outstanding.session (h : Outstanding fd a b received sent next requests completions) :
    ∃ status, Session received sent status ∧
      (status = .closed → requests = [] ∧ ∃ res, completions = [⟨OP.write.data fd, res⟩]) := by
  cases h with
  | reading h => exact ⟨_, h, by simp⟩
  | readFailed h _ => exact ⟨_, h, by simp⟩
  | readDone h _ _ => exact ⟨_, h, by simp⟩
  | writing h _ _ => exact ⟨_, h, by simp⟩
  | writeFailed h _ => exact ⟨_, h, by simp⟩
  | written h _ _ _ => exact ⟨_, h, fun _ => ⟨rfl, _, rfl⟩⟩

theorem Outstanding.request (h : Outstanding fd a b received sent next requests completions) {e : Sqe}
    (he : e ∈ requests) : requests = [e] ∧ completions = [] ∧
      (e.prep = .read fd a bufferSize ∧ next = .read ∧ Session received sent .reading ∨
        ∃ block : Block, e.prep = .write fd a block.length ∧ next = .write ∧
          Session received sent (.writing block) ∧ block.length ≤ bufferSize ∧ b.take block.length = block) := by
  cases h with
  | reading h =>
      obtain rfl := List.mem_singleton.mp he
      exact ⟨rfl, rfl, .inl ⟨rfl, rfl, h⟩⟩
  | writing h hlength hb =>
      obtain rfl := List.mem_singleton.mp he
      exact ⟨rfl, rfl, .inr ⟨_, rfl, rfl, h, hlength, hb⟩⟩
  | _ => simp at he

theorem Outstanding.completion (h : Outstanding fd a b received sent next requests completions) {c : Cqe}
    (hc : c ∈ completions) : completions = [c] ∧ requests = [] ∧
      (c.res.toInt < 0 ∨
        c.data = OP.read.data fd ∧ next = .read ∧ (∃ block : Block, c.res = BitVec.ofNat 32 block.length ∧
          Session received sent (.writing block) ∧ block.length ≤ bufferSize ∧ b.take block.length = block) ∨
        c.data = OP.write.data fd ∧ next = .write ∧ ∃ block out : Block,
          c.res = BitVec.ofNat 32 out.length ∧ Session received sent (.after block out) ∧ out <+: block ∧
            block.length ≤ bufferSize ∧ b.take block.length = block) := by
  cases h with
  | readFailed h hres =>
      obtain rfl := List.mem_singleton.mp hc
      exact ⟨rfl, rfl, .inl hres⟩
  | readDone h hlength hb =>
      obtain rfl := List.mem_singleton.mp hc
      exact ⟨rfl, rfl, .inr (.inl ⟨rfl, rfl, _, rfl, h, hlength, hb⟩)⟩
  | writeFailed h hres =>
      obtain rfl := List.mem_singleton.mp hc
      exact ⟨rfl, rfl, .inl hres⟩
  | written h hout hlength hb =>
      obtain rfl := List.mem_singleton.mp hc
      exact ⟨rfl, rfl, .inr (.inr ⟨rfl, rfl, _, _, rfl, h, hout, hlength, hb⟩)⟩
  | _ => simp at hc

end Inversion

/-- The life of a descriptor. -/
inductive Life (s : State) (fd : Word) : Prop
  | free (hconnection : s.connection fd = none) (hbuf : s.bufMap fd = none) (harrivals : s.arrivals fd = [])
      (hrequests : s.requests fd = []) (hcompletions : s.completions fd = [])
  | arriving {c : Nat} (hconnection : s.connection fd = some c) (hbuf : s.bufMap fd = none)
      (harrivals : s.arrivals fd = [⟨OP.accept.data 0, fd⟩]) (hrequests : s.requests fd = [])
      (hcompletions : s.completions fd = [])
      (hnew : s.received c = [] ∧ s.sent c = [] ∧ s.results c = [])
  | client {a c : Nat} {b : Buffer} (hconnection : s.connection fd = some c) (hbuf : s.bufMap fd = some a)
      (harrivals : s.arrivals fd = []) (hmemory : s.memory a = some b)
      (houtstanding : Outstanding fd a b (s.received c) (s.sent c) (.of (s.results c)) (s.requests fd)
        (s.completions fd))
  | leaving {c : Nat} (hconnection : s.connection fd = some c) (hbuf : s.bufMap fd = none)
      (harrivals : s.arrivals fd = []) (hrequests : s.requests fd = [⟨.close fd, OP.close.data fd⟩])
      (hcompletions : s.completions fd = [])
      (hclosed : Session (s.received c) (s.sent c) .closed ∧ .of (s.results c) = Next.close)

/-- A step that is not about a descriptor. -/
structure Same (s s' : State) (fd : Word) : Prop where
  connection : s'.connection fd = s.connection fd
  buf : s'.bufMap fd = s.bufMap fd
  arrivals : s'.arrivals fd = s.arrivals fd
  requests : s'.requests fd = s.requests fd
  completions : s'.completions fd = s.completions fd
  memory : ∀ a, s.bufMap fd = some a → s'.memory a = s.memory a
  session : ∀ c, s.connection fd = some c →
    s'.received c = s.received c ∧ s'.sent c = s.sent c ∧ s'.results c = s.results c

theorem Life.same (h : Life s fd) (hs : Same s s' fd) : Life s' fd := by
  cases h with
  | free hconnection hbuf harrivals hrequests hcompletions =>
      exact .free (hs.connection.trans hconnection) (hs.buf.trans hbuf) (hs.arrivals.trans harrivals)
        (hs.requests.trans hrequests) (hs.completions.trans hcompletions)
  | @arriving c hconnection hbuf harrivals hrequests hcompletions hnew =>
      obtain ⟨hreceived, hsent, hresults⟩ := hs.session c hconnection
      exact .arriving (hs.connection.trans hconnection) (hs.buf.trans hbuf) (hs.arrivals.trans harrivals)
        (hs.requests.trans hrequests) (hs.completions.trans hcompletions)
        ⟨hreceived.trans hnew.1, hsent.trans hnew.2.1, hresults.trans hnew.2.2⟩
  | @client a c b hconnection hbuf harrivals hmemory houtstanding =>
      obtain ⟨hreceived, hsent, hresults⟩ := hs.session c hconnection
      refine .client (hs.connection.trans hconnection) (hs.buf.trans hbuf) (hs.arrivals.trans harrivals)
        ((hs.memory a hbuf).trans hmemory) ?_
      rw [hreceived, hsent, hresults, hs.requests, hs.completions]
      exact houtstanding
  | @leaving c hconnection hbuf harrivals hrequests hcompletions hclosed =>
      obtain ⟨hreceived, hsent, hresults⟩ := hs.session c hconnection
      refine .leaving (hs.connection.trans hconnection) (hs.buf.trans hbuf) (hs.arrivals.trans harrivals)
        (hs.requests.trans hrequests) (hs.completions.trans hcompletions) ?_
      rw [hreceived, hsent, hresults]
      exact hclosed

/-- A request is for a client that is served, or that is leaving. -/
theorem Life.request (h : Life s fd) {e : Sqe} (he : e ∈ s.requests fd) :
    ∃ c, s.connection fd = some c ∧ s.arrivals fd = [] ∧ s.requests fd = [e] ∧ s.completions fd = [] ∧
      ((∃ a b, s.bufMap fd = some a ∧ s.memory a = some b ∧
          (e.prep = .read fd a bufferSize ∧ .of (s.results c) = Next.read ∧
              Session (s.received c) (s.sent c) .reading ∨
            ∃ block : Block, e.prep = .write fd a block.length ∧ .of (s.results c) = Next.write ∧
              Session (s.received c) (s.sent c) (.writing block) ∧ block.length ≤ bufferSize ∧
                b.take block.length = block)) ∨
        s.bufMap fd = none ∧ e.prep = .close fd ∧ Session (s.received c) (s.sent c) .closed ∧
          .of (s.results c) = Next.close) := by
  cases h with
  | free _ _ _ hrequests _ => simp [hrequests] at he
  | arriving _ _ _ hrequests _ _ => simp [hrequests] at he
  | client hconnection hbuf harrivals hmemory houtstanding =>
      obtain ⟨hrequests, hcompletions, hrest⟩ := houtstanding.request he
      exact ⟨_, hconnection, harrivals, hrequests, hcompletions, .inl ⟨_, _, hbuf, hmemory, hrest⟩⟩
  | leaving hconnection hbuf harrivals hrequests hcompletions hclosed =>
      rw [hrequests] at he
      obtain rfl := List.mem_singleton.mp he
      exact ⟨_, hconnection, harrivals, hrequests, hcompletions, .inr ⟨hbuf, rfl, hclosed⟩⟩

/-- A CQE of a read or of a write is for a client that is served. -/
theorem Life.completion (h : Life s fd) {x : Cqe} (hx : x ∈ s.completions fd) :
    ∃ c a b, s.connection fd = some c ∧ s.bufMap fd = some a ∧ s.memory a = some b ∧ s.arrivals fd = [] ∧
      Outstanding fd a b (s.received c) (s.sent c) (.of (s.results c)) (s.requests fd) (s.completions fd) := by
  cases h with
  | free _ _ _ _ hcompletions => simp [hcompletions] at hx
  | arriving _ _ _ _ hcompletions _ => simp [hcompletions] at hx
  | client hconnection hbuf harrivals hmemory houtstanding =>
      exact ⟨_, _, _, hconnection, hbuf, hmemory, harrivals, houtstanding⟩
  | leaving _ _ _ _ hcompletions _ => simp [hcompletions] at hx

/-- A client that arrives has no buffer yet. -/
theorem Life.arrival (h : Life s fd) {x : Cqe} (hx : x ∈ s.arrivals fd) :
    ∃ c, s.connection fd = some c ∧ s.bufMap fd = none ∧ s.arrivals fd = [x] ∧ s.requests fd = [] ∧
      s.completions fd = [] ∧ s.received c = [] ∧ s.sent c = [] ∧ s.results c = [] := by
  cases h with
  | free _ _ harrivals _ _ => simp [harrivals] at hx
  | arriving hconnection hbuf harrivals hrequests hcompletions hnew =>
      rw [harrivals] at hx
      obtain rfl := List.mem_singleton.mp hx
      exact ⟨_, hconnection, hbuf, harrivals, hrequests, hcompletions, hnew⟩
  | client _ _ harrivals _ _ => simp [harrivals] at hx
  | leaving _ _ harrivals _ _ _ => simp [harrivals] at hx

/-! ## Requests and CQEs -/

section Post

variable {i : Nat} {e : Sqe} {res : Word}

theorem post_requests_of_ne (res : Word) (he : s.flight[i]? = some e) (hfd : e.prep.fd ≠ some fd) :
    (s.post i e res).requests fd = s.requests fd :=
  filter_eraseIdx_of_neg he (by simpa using hfd)

theorem post_requests (res : Word) (he : s.flight[i]? = some e) (hfd : e.prep.fd = some fd) {x : Sqe}
    (hx : s.requests fd = [x]) : e = x ∧ (s.post i e res).requests fd = [] :=
  filter_eraseIdx_of_singleton he (by simpa using hfd) hx

theorem post_completions (s : State) (fd : Word) (i : Nat) (e : Sqe) (res : Word) :
    (s.post i e res).completions fd = s.completions fd ++
    if e.data = OP.read.data fd ∨ e.data = OP.write.data fd then [⟨e.data, res⟩] else [] := by
  simp only [State.completions, State.post, List.filter_append, List.filter_singleton, Bool.cond_decide]

theorem post_arrivals (s : State) (fd : Word) (i : Nat) (e : Sqe) (res : Word) :
    (s.post i e res).arrivals fd = s.arrivals fd ++
    if e.data = OP.accept.data 0 ∧ res = fd ∧ 0 ≤ res.toInt then [⟨e.data, res⟩] else [] := by
  simp only [State.arrivals, State.post, List.filter_append, List.filter_singleton, Bool.cond_decide]

/-- A request is in the list of its client. -/
theorem mem_requests (he : s.flight[i]? = some e) (hfd : e.prep.fd = some fd) : e ∈ s.requests fd :=
  List.mem_filter.mpr ⟨List.mem_of_getElem? he, by simpa using hfd⟩

end Post

end IoUring.Echo
