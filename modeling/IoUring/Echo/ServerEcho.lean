import IoUring.Echo.ServerLoop

/-!
# The echo server answers and stays in its memory

What holds in every run: the kernel and the handlers find the buffers they use, each client
has one request at most, and each connection is a session.
-/

namespace IoUring.Echo

variable {s : State} {reserved : Word → Bool}

/-- The buffer that a request uses, with the number of bytes. -/
def Prep.buf : Prep → Option (Nat × Nat)
  | .read _ a n => some (a, n)
  | .write _ a n => some (a, n)
  | _ => none

/-! ## A run -/

/-- A client says "Zz!" and is gone, and the next one gets its descriptor and says "a". -/
def twoClients : List Label :=
  let loop : Label := .loop true fun _ => true
  [.kickOff true, .finish 0 (.accepted 5), loop, .finish 0 (.read [0x5a, 0x7a, 0x21]), loop, .finish 1 (.wrote 3),
    loop, .finish 1 (.closed 0), loop, .finish 0 (.accepted 5), loop, .finish 0 (.read [0x61]), loop,
    .finish 1 (.wrote 1), loop]

def noneReserved (_ : Word) : Bool := false

theorem twoClients_run : ∃ s, (machine noneReserved).Reachable s ∧ s.connections = 2 ∧
    s.received 0 = [[0x5a, 0x7a, 0x21]] ∧ s.sent 0 = [[0x5a, 0x7a, 0x21]] ∧ s.connection 5 = some 1 ∧
    s.bufMap 5 = some 1 ∧ s.flight.length = 2 := by
  have hrun : ∃ s, (machine noneReserved).run .start twoClients = some s ∧ s.connections = 2 ∧
      s.received 0 = [[0x5a, 0x7a, 0x21]] ∧ s.sent 0 = [[0x5a, 0x7a, 0x21]] ∧ s.connection 5 = some 1 ∧
      s.bufMap 5 = some 1 ∧ s.flight.length = 2 := ⟨_, rfl, rfl, rfl, rfl, rfl, rfl, rfl⟩
  obtain ⟨s, hs, hrest⟩ := hrun
  exact ⟨s, Machine.Reachable.of_run rfl hs, hrest⟩

/-! ## Every run -/

/-- No buffer is used that does not exist, or by two requests, and the buffers are those of
the clients that are served. One accept operation is outstanding all the time. -/
theorem buffers_safe (h : (machine reserved).Reachable s) :
    s.torn = false ∧
      (∀ e ∈ s.flight, ∀ a n, e.prep.buf = some (a, n) → s.memory a ≠ none ∧ n ≤ bufferSize ∧
        s.flight.filter (fun e => (e.prep.buf.map Prod.fst) = some a) = [e]) ∧
      (∀ a, s.memory a ≠ none ↔ ∃ fd, s.bufMap fd = some a) ∧
      (∀ fd a, s.bufMap fd = some a →
        s.connection fd ≠ none ∧ (s.requests fd).length + (s.completions fd).length = 1) ∧
      (s.started = true → s.terminated = false → (s.flight.filter fun e => e.prep = .accept).length +
        (s.cqes.filter fun c => c.data = OP.accept.data 0).length = 1) := by
  have hok := reachable_ok h
  have hlife : ∀ fd a, s.bufMap fd = some a → s.connection fd ≠ none ∧ s.memory a ≠ none ∧
      (s.requests fd).length + (s.completions fd).length = 1 := by
    intro fd a hbuf
    cases hok.life fd with
    | free _ hnone _ _ _ => simp [hnone] at hbuf
    | arriving _ hnone _ _ _ _ => simp [hnone] at hbuf
    | leaving _ hnone _ _ _ _ => simp [hnone] at hbuf
    | client hconnection hbuf' _ hmemory hout =>
        obtain rfl := Option.some.inj (hbuf.symm.trans hbuf')
        refine ⟨by simp [hconnection], by simp [hmemory], ?_⟩
        exact hout.one
  have hrequest : ∀ e ∈ s.flight, ∀ a n, e.prep.buf = some (a, n) →
      ∃ fd, e.prep.fd = some fd ∧ (e.prep = .read fd a n ∨ e.prep = .write fd a n) := by
    intro e _ a n hbuf
    cases hprep : e.prep <;> simp [hprep, Prep.buf] at hbuf <;> obtain ⟨rfl, rfl⟩ := hbuf <;>
      simp [Prep.fd]
  refine ⟨hok.torn, fun e he a n hbuf => ?_, fun a => ⟨hok.owned a, ?_⟩, fun fd a hbuf => ?_, fun hstarted hend => ?_⟩
  · obtain ⟨fd, hfd, hprep⟩ := hrequest e he a n hbuf
    obtain ⟨i, hi⟩ := List.mem_iff_getElem?.mp he
    obtain ⟨b, hmemory, hn, hmap, hrequests, -⟩ := hok.transfers hi hprep
    refine ⟨by simp [hmemory], hn, ?_⟩
    rw [← hrequests, State.requests]
    refine List.filter_congr fun e' he' => decide_eq_decide.mpr ⟨fun hbuf' => ?_, fun hfd' => ?_⟩
    · obtain ⟨⟨a', n'⟩, hused, heq⟩ := Option.map_eq_some_iff.mp hbuf'
      obtain rfl : a' = a := heq
      obtain ⟨fd', hfd', hprep'⟩ := hrequest e' he' a' n' hused
      obtain ⟨j, hj⟩ := List.mem_iff_getElem?.mp he'
      obtain ⟨-, -, -, hmap', -⟩ := hok.transfers hj hprep'
      rw [hfd', hok.buffers fd' fd a' hmap' hmap]
    · have hmem : e' ∈ s.requests fd := List.mem_filter.mpr ⟨he', by simpa using hfd'⟩
      rw [hrequests, List.mem_singleton] at hmem
      rw [hmem, hbuf]
      rfl
  · rintro ⟨fd, hbuf⟩
    exact (hlife fd a hbuf).2.1
  · exact ⟨(hlife fd a hbuf).1, (hlife fd a hbuf).2.2⟩
  · rw [hok.accept hend, if_pos hstarted]

/-- A client that is served has its buffer. -/
theorem buffers_safe_twoClients : ∃ s, (machine noneReserved).Reachable s ∧ s.connections = 2 ∧ s.torn = false ∧
    s.memory 1 ≠ none := by
  obtain ⟨s, h, hconnections, -, -, -, hbuf, -⟩ := twoClients_run
  obtain ⟨htorn, -, howned, -⟩ := buffers_safe h
  exact ⟨s, h, hconnections, htorn, (howned 1).mpr ⟨5, hbuf⟩⟩

/-- Each connection is a session. When it is over, the server closes the descriptor, and it
does so for no other session. -/
theorem Ok.session (h : Ok s) {c : Nat} (hc : c < s.connections) :
    ∃ status, Session (s.received c) (s.sent c) status ∧
      (status = .closed → ∀ fd, s.connection fd = some c → s.closes fd) ∧
      ((∀ fd, s.connection fd = some c → ∃ e ∈ s.requests fd, e.prep = .close fd) → status = .closed) := by
  by_cases hlive : ∃ fd, s.connection fd = some c
  · obtain ⟨fd, hconnection⟩ := hlive
    have hfd : ∀ fd', s.connection fd' = some c → fd' = fd := fun fd' h' =>
      h.connections fd' fd c h' hconnection
    cases h.life fd with
    | free hnone _ _ _ _ => simp [hnone] at hconnection
    | arriving hconnection' _ _ hrequests _ hnew =>
        obtain rfl := Option.some.inj (hconnection.symm.trans hconnection')
        refine ⟨.reading, by rw [hnew.1, hnew.2.1]; exact .start, by simp, fun hclose => ?_⟩
        obtain ⟨e, he, -⟩ := hclose fd hconnection
        simp [hrequests] at he
    | leaving hconnection' _ harrivals hrequests hcompletions hclosed =>
        obtain rfl := Option.some.inj (hconnection.symm.trans hconnection')
        refine ⟨.closed, hclosed.1, fun _ fd' h' => ?_, fun _ => rfl⟩
        obtain rfl := hfd fd' h'
        exact .inr (by rw [State.outstanding, harrivals, hrequests, hcompletions])
    | client hconnection' _ harrivals _ hout =>
        obtain rfl := Option.some.inj (hconnection.symm.trans hconnection')
        obtain ⟨status, hsession, hclosed⟩ := hout.session
        refine ⟨status, hsession, fun hstatus fd' h' => ?_, fun hclose => ?_⟩
        · obtain rfl := hfd fd' h'
          obtain ⟨hrequests, res, hcompletions⟩ := hclosed hstatus
          exact .inl ⟨res, by rw [State.outstanding, harrivals, hrequests, hcompletions]⟩
        · obtain ⟨e, he, hprep⟩ := hclose fd hconnection
          obtain ⟨-, -, ⟨hread, -⟩ | ⟨_, hwrite, -⟩⟩ := hout.request he
          · simp [hprep] at hread
          · simp [hprep] at hwrite
  · have hclosed := ((h.past c hc).resolve_left hlive).1
    exact ⟨.closed, hclosed, fun _ fd h' => absurd ⟨fd, h'⟩ hlive, fun _ => rfl⟩

/-- The answers to a client are parts of the blocks that it has sent, in their order, and one
block at most waits for its answer. After the first answer that is empty, or is to "Zz", the
server closes the connection, and after no other. Where the kernel writes whole blocks, the
client gets back what it has sent. -/
theorem connections_echo (h : (machine reserved).Reachable s) {c : Nat} (hc : c < s.connections) :
    ∃ answered pending, s.received c = answered ++ pending ∧ pending.length ≤ 1 ∧
      List.Forall₂ (· <+: ·) (s.sent c) answered ∧
      (∀ (n : Nat) (block out : Block), (s.received c)[n]? = some block → (s.sent c)[n]? = some out →
        goesOn block out = false → n + 1 = (s.sent c).length ∧ pending = [] ∧
          ∀ fd, s.connection fd = some c → s.closes fd) ∧
      ((∀ fd, s.connection fd = some c → ∃ e ∈ s.requests fd, e.prep = .close fd) → pending = [] ∧
        ∃ block out, answered.getLast? = some block ∧ (s.sent c).getLast? = some out ∧
          goesOn block out = false) ∧
      ((∀ (n : Nat) (block out : Block), (s.received c)[n]? = some block → (s.sent c)[n]? = some out →
        out.length = block.length) → s.received c = s.sent c ++ pending) := by
  obtain ⟨status, hsession, hcloses, hclosed⟩ := (reachable_ok h).session hc
  obtain ⟨answered, hreceived, hall⟩ := hsession.answers
  refine ⟨answered, status.pending, hreceived, ?_, hall, fun n block out hblock hout hlast => ?_, fun hclose => ?_,
    hsession.exact⟩
  · cases status <;> simp [Status.pending]
  · obtain ⟨rfl, hlength⟩ := (hsession.closes n block out hblock hout).mp hlast
    exact ⟨hlength, rfl, hcloses rfl⟩
  · obtain rfl := hclosed hclose
    have hpending : Status.closed.pending = [] := rfl
    rw [hpending, List.append_nil] at hreceived
    obtain ⟨out, hout⟩ := hsession.last
    have hlength := hall.length_eq
    have hlt := (List.getElem?_eq_some_iff.mp (List.getLast?_eq_getElem? ▸ hout)).1
    obtain ⟨block, hblock⟩ : ∃ block, answered[(s.sent c).length - 1]? = some block :=
      ⟨_, List.getElem?_eq_getElem (by omega)⟩
    refine ⟨rfl, block, out, ?_, hout, ?_⟩
    · rw [List.getLast?_eq_getElem?, ← hlength, hblock]
    · rw [List.getLast?_eq_getElem?] at hout
      exact (hsession.closes _ block out (hreceived ▸ hblock) hout).mpr ⟨rfl, by omega⟩

/-- The answer to "Zz!" was handled: the server closes the descriptor. -/
theorem connections_echo_twoClients : ∃ s, (machine noneReserved).Reachable s ∧ s.connection 5 = some 0 ∧
    s.sent 0 = [[0x5a, 0x7a, 0x21]] ∧ s.outstanding 5 = ([], [⟨.close 5, OP.close.data 5⟩], []) ∧
    ∃ answered, s.received 0 = answered ∧ List.Forall₂ (· <+: ·) (s.sent 0) answered := by
  have hrun : ∃ s, (machine noneReserved).run .start (twoClients.take 7) = some s ∧ s.connections = 1 ∧
      s.connection 5 = some 0 ∧ s.received 0 = [[0x5a, 0x7a, 0x21]] ∧ s.sent 0 = [[0x5a, 0x7a, 0x21]] ∧
      s.cqes = [] := ⟨_, rfl, rfl, rfl, rfl, rfl, rfl⟩
  obtain ⟨s, hs, hconnections, hconnection, hreceived, hsent, hcqes⟩ := hrun
  have hreach : (machine noneReserved).Reachable s := Machine.Reachable.of_run rfl hs
  obtain ⟨answered, pending, hanswered, -, hall, hlast, -⟩ := connections_echo hreach
    (by rw [hconnections]; decide : 0 < s.connections)
  obtain ⟨-, rfl, hcloses⟩ := hlast 0 _ _ (by rw [hreceived]; rfl) (by rw [hsent]; rfl) (by decide)
  refine ⟨s, hreach, hconnection, hsent, ?_, answered, by simpa using hanswered, hall⟩
  rcases hcloses 5 hconnection with ⟨res, hres⟩ | hout
  · simp [State.outstanding, State.completions, hcqes] at hres
  · exact hout

end IoUring.Echo
