import IoUring.Echo.ServerClient

/-!
# The kernel below the echo server

A request that finishes moves its own client only. It finds its buffer, since the buffer of a
client is erased when no request of the client is left.
-/

namespace IoUring.Echo

variable {s s' : State} {fd fd' : Word} {reserved : Word → Bool} {i : Nat} {e : Sqe} {res : Word}

/-- The invariant of the server: one accept operation is outstanding, different clients have
different buffers and connections, and a connection that is over was closed by the server. -/
structure Ok (s : State) : Prop where
  data : ∀ e ∈ s.flight, e.data = e.prep.data
  cqe : ∀ c ∈ s.cqes, ∃ (op : OP) (fd : Word), op ≠ .trap ∧ c.data = op.data fd ∧ (op = .accept → fd = 0)
  life : ∀ fd, Life s fd
  buffers : ∀ fd fd' a, s.bufMap fd = some a → s.bufMap fd' = some a → fd = fd'
  next : ∀ fd a, s.bufMap fd = some a → a < s.next
  connections : ∀ fd fd' c, s.connection fd = some c → s.connection fd' = some c → fd = fd'
  lt : ∀ fd c, s.connection fd = some c → c < s.connections
  owned : ∀ a, s.memory a ≠ none → ∃ fd, s.bufMap fd = some a
  later : ∀ c, s.connections ≤ c → s.received c = [] ∧ s.sent c = [] ∧ s.results c = []
  past : ∀ c, c < s.connections → (∃ fd, s.connection fd = some c) ∨
    Session (s.received c) (s.sent c) .closed ∧ .of (s.results c) = Next.close
  accept : s.terminated = false → (s.flight.filter fun e => e.prep = .accept).length +
    (s.cqes.filter fun c => c.data = OP.accept.data 0).length = if s.started = true then 1 else 0
  torn : s.torn = false

/-! ## Frames -/

/-- A request that finishes is not about the other clients. -/
theorem post_same (res : Word) (he : s.flight[i]? = some e) (hdata : e.data = e.prep.data) (hfd : e.prep.fd ≠ some fd)
    (hres : e.prep = .accept → res ≠ fd ∨ res.toInt < 0) : Same s (s.post i e res) fd where
  connection := rfl
  buf := rfl
  requests := post_requests_of_ne res he hfd
  completions := by
    rw [post_completions, if_neg, List.append_nil]
    rw [hdata]
    cases hprep : e.prep <;> simp [Prep.data, Prep.fd, hprep] at hfd ⊢ <;> exact hfd
  arrivals := by
    rw [post_arrivals, if_neg, List.append_nil]
    rintro ⟨haccept, rfl, hpos⟩
    have hprep : e.prep = .accept := by
      rw [hdata] at haccept
      cases hprep : e.prep <;> simp [hprep, Prep.data] at haccept ⊢
    rcases hres hprep with hne | hneg
    · exact hne rfl
    · omega
  memory := fun _ _ => rfl
  session := fun _ _ => ⟨rfl, rfl, rfl⟩

theorem log_of_ne {h : Nat → List Block} {block : Block} {c : Nat} (hc : s.connection fd ≠ some c) :
    s.log h fd block c = h c := by
  cases hc' : s.connection fd with
  | none => simp only [State.log, hc']
  | some c' =>
      simp only [State.log, hc']
      rw [Function.update_of_ne]
      rintro rfl
      exact hc hc'

theorem log_self {h : Nat → List Block} {block : Block} {c : Nat} (hc : s.connection fd = some c) :
    s.log h fd block c = h c ++ [block] := by
  simp only [State.log, hc, Function.update_self]

/-- The number of accept operations does not change. -/
theorem post_accept (he : s.flight[i]? = some e) (hdata : e.data = e.prep.data) :
    ((s.post i e res).flight.filter fun e => e.prep = .accept).length +
        ((s.post i e res).cqes.filter fun c => c.data = OP.accept.data 0).length =
      (s.flight.filter fun e => e.prep = .accept).length +
        (s.cqes.filter fun c => c.data = OP.accept.data 0).length := by
  have haccept : e.data = OP.accept.data 0 ↔ e.prep = .accept := by
    rw [hdata]
    cases e.prep <;> simp [Prep.data]
  simp only [State.post, List.filter_append, List.length_append, List.filter_singleton, Bool.cond_decide, haccept]
  by_cases hprep : e.prep = .accept
  · have hlength := length_filter_eraseIdx (p := fun e : Sqe => decide (e.prep = .accept)) he
      (by simpa using hprep)
    rw [if_pos hprep, List.length_singleton]
    omega
  · rw [filter_eraseIdx_of_neg he (by simpa using hprep), if_neg hprep, List.length_nil]
    omega

section Tables

variable {table table' : Word → Option Nat} {n n' : Nat} {fd : Word}

/-- A descriptor keeps its number, loses it or gets a new one, and no number is given twice. -/
theorem table_injective (hinj : ∀ fd fd' a, table fd = some a → table fd' = some a → fd = fd')
    (hlt : ∀ fd a, table fd = some a → a < n) (hsame : ∀ fd', fd' ≠ fd → table' fd' = table fd')
    (hfd : table' fd = table fd ∨ table' fd = none ∨ table' fd = some n) :
    ∀ fd₁ fd₂ a, table' fd₁ = some a → table' fd₂ = some a → fd₁ = fd₂ := by
  have hunique : ∀ fd' a, fd' ≠ fd → table' fd = some a → table' fd' ≠ some a := by
    intro fd' a hne ha ha'
    rw [hsame fd' hne] at ha'
    rcases hfd with hold | hnone | hnew
    · exact hne (hinj fd' fd a ha' (hold ▸ ha))
    · simp [hnone] at ha
    · obtain rfl := Option.some.inj (hnew.symm.trans ha)
      exact absurd (hlt fd' _ ha') (Nat.lt_irrefl _)
  intro fd₁ fd₂ a h₁ h₂
  by_cases hfd₁ : fd₁ = fd
  · by_cases hfd₂ : fd₂ = fd
    · exact hfd₁.trans hfd₂.symm
    · exact absurd h₂ (hunique fd₂ a hfd₂ (hfd₁ ▸ h₁))
  · by_cases hfd₂ : fd₂ = fd
    · exact absurd h₁ (hunique fd₁ a hfd₁ (hfd₂ ▸ h₂))
    · rw [hsame fd₁ hfd₁] at h₁
      rw [hsame fd₂ hfd₂] at h₂
      exact hinj fd₁ fd₂ a h₁ h₂

theorem table_lt (hlt : ∀ fd a, table fd = some a → a < n) (hsame : ∀ fd', fd' ≠ fd → table' fd' = table fd')
    (hfd : table' fd = table fd ∨ table' fd = none ∨ table' fd = some n) (hle : n ≤ n')
    (hnew : table' fd = some n → n < n') : ∀ fd' a, table' fd' = some a → a < n' := by
  intro fd' a ha
  by_cases hfd' : fd' = fd
  · subst hfd'
    rcases hfd with hold | hnone | hgiven
    · exact Nat.lt_of_lt_of_le (hlt fd' a (hold ▸ ha)) hle
    · simp [hnone] at ha
    · obtain rfl := Option.some.inj (hgiven.symm.trans ha)
      exact hnew hgiven
  · rw [hsame fd' hfd'] at ha
    exact Nat.lt_of_lt_of_le (hlt fd' a ha) hle

end Tables

namespace Ok

/-- What an invariant of all clients needs when one of them moves. -/
theorem move (h : Ok s) (fd : Word) (hlife : Life s' fd) (hsame : ∀ fd', fd' ≠ fd → Same s s' fd')
    (hdata : ∀ e ∈ s'.flight, e.data = e.prep.data)
    (hcqe : ∀ c ∈ s'.cqes, c ∈ s.cqes ∨ ∃ p : Prep, c.data = p.data)
    (hbuf : s'.bufMap fd = s.bufMap fd ∨ s'.bufMap fd = none ∨ s'.bufMap fd = some s.next)
    (hnext : s.next ≤ s'.next) (hnew : s'.bufMap fd = some s.next → s.next < s'.next)
    (hconnection : s'.connection fd = s.connection fd ∧ s'.connections = s.connections ∨
      s'.connection fd = none ∧ s'.connections = s.connections ∨
      s'.connection fd = some s.connections ∧ s'.connections = s.connections + 1)
    (howned : ∀ a, s'.memory a ≠ none → s'.bufMap fd = some a ∨ s.memory a ≠ none ∧ s.bufMap fd ≠ some a)
    (hother : ∀ c, s.connection fd ≠ some c →
      s'.received c = s.received c ∧ s'.sent c = s.sent c ∧ s'.results c = s.results c)
    (hpast : ∀ c, s.connection fd = some c → s'.connection fd = some c ∨
      Session (s'.received c) (s'.sent c) .closed ∧ .of (s'.results c) = Next.close)
    (haccept : s'.terminated = false → (s'.flight.filter fun e => e.prep = .accept).length +
      (s'.cqes.filter fun c => c.data = OP.accept.data 0).length = if s'.started = true then 1 else 0)
    (htorn : s'.torn = false) : Ok s' where
  data := hdata
  cqe := by
    intro c hc
    rcases hcqe c hc with hc | ⟨p, hp⟩
    · exact h.cqe c hc
    · cases p with
      | accept => exact ⟨.accept, 0, by simp, hp, fun _ => rfl⟩
      | read fd _ _ => exact ⟨.read, fd, by simp, hp, by simp⟩
      | write fd _ _ => exact ⟨.write, fd, by simp, hp, by simp⟩
      | close fd => exact ⟨.close, fd, by simp, hp, by simp⟩
  life := by
    intro fd'
    by_cases hfd : fd' = fd
    · exact hfd ▸ hlife
    · exact (h.life fd').same (hsame fd' hfd)
  buffers := table_injective h.buffers h.next (fun fd' hne => (hsame fd' hne).buf) hbuf
  next := table_lt h.next (fun fd' hne => (hsame fd' hne).buf) hbuf hnext hnew
  connections := table_injective h.connections h.lt (fun fd' hne => (hsame fd' hne).connection)
    (hconnection.imp And.left (.imp And.left And.left))
  lt := table_lt h.lt (fun fd' hne => (hsame fd' hne).connection)
    (hconnection.imp And.left (.imp And.left And.left)) (by omega) fun hnew => by
    rcases hconnection with ⟨hold, -⟩ | ⟨hnone, -⟩ | ⟨-, hcount⟩
    · exact absurd (h.lt fd _ (hold ▸ hnew)) (Nat.lt_irrefl _)
    · rw [hnone] at hnew
      cases hnew
    · omega
  owned := by
    intro a ha
    rcases howned a ha with hown | ⟨hmemory, hne⟩
    · exact ⟨fd, hown⟩
    · obtain ⟨fd', hown⟩ := h.owned a hmemory
      have hfd : fd' ≠ fd := by
        rintro rfl
        exact hne hown
      exact ⟨fd', (hsame fd' hfd).buf.trans hown⟩
  later := by
    intro c hc
    have hle : s.connections ≤ c := by omega
    obtain ⟨hreceived, hsent, hresults⟩ := hother c fun hc' => by
      have hlt := h.lt fd c hc'
      omega
    rw [hreceived, hsent, hresults]
    exact h.later c hle
  past := by
    intro c hc
    by_cases hown : s.connection fd = some c
    · exact (hpast c hown).imp_left fun hc' => ⟨fd, hc'⟩
    · obtain ⟨hreceived, hsent, hresults⟩ := hother c hown
      rw [hreceived, hsent, hresults]
      by_cases hold : c < s.connections
      · refine (h.past c hold).imp_left fun ⟨fd', hc'⟩ => ⟨fd', ?_⟩
        have hne : fd' ≠ fd := by
          rintro rfl
          exact hown hc'
        exact (hsame fd' hne).connection.trans hc'
      · refine .inl ⟨fd, ?_⟩
        have hnew := hconnection.resolve_left (by omega)
        obtain ⟨hconnection, hcount⟩ := hnew.resolve_left (by omega)
        rw [hconnection]
        congr 1
        omega
  accept := haccept
  torn := htorn

/-- No buffer is new, and the client keeps its own. -/
theorem owned_same (h : ∀ a, s'.memory a ≠ none → s.memory a ≠ none) (hbuf : s'.bufMap fd = s.bufMap fd) :
    ∀ a, s'.memory a ≠ none → s'.bufMap fd = some a ∨ s.memory a ≠ none ∧ s.bufMap fd ≠ some a := by
  intro a ha
  by_cases hown : s.bufMap fd = some a
  · exact .inl (hbuf.trans hown)
  · exact .inr ⟨h a ha, hown⟩

/-! ## Requests that finish -/

variable {a n : Nat}

theorem prep_data (h : Ok s) (he : s.flight[i]? = some e) : e.data = e.prep.data :=
  h.data e (List.mem_of_getElem? he)

theorem data_post (h : Ok s) : ∀ x ∈ s.flight.eraseIdx i, x.data = x.prep.data :=
  fun x hx => h.data x (List.mem_of_mem_eraseIdx hx)

theorem cqe_post (h : Ok s) (he : s.flight[i]? = some e) :
    ∀ c ∈ (s.post i e res).cqes, c ∈ s.cqes ∨ ∃ p : Prep, c.data = p.data := by
  intro c hc
  rcases List.mem_append.mp hc with hc | hc
  · exact .inl hc
  · rw [List.mem_singleton.mp hc]
    exact .inr ⟨e.prep, h.prep_data he⟩

/-- A client arrives. -/
theorem accepted (h : Ok s) (he : s.flight[i]? = some e) (hprep : e.prep = .accept) (hpos : 0 ≤ fd.toInt)
    (hfree : s.connection fd = none) : Ok { s.post i e fd with
      connection := Function.update s.connection fd (some s.connections)
      connections := s.connections + 1 } := by
  have hdata := h.prep_data he
  have hlife : s.bufMap fd = none ∧ s.arrivals fd = [] ∧ s.requests fd = [] ∧ s.completions fd = [] := by
    cases h.life fd with
    | free _ hbuf harrivals hrequests hcompletions => exact ⟨hbuf, harrivals, hrequests, hcompletions⟩
    | arriving hconnection => simp [hfree] at hconnection
    | client hconnection => simp [hfree] at hconnection
    | leaving hconnection => simp [hfree] at hconnection
  obtain ⟨hbuf, harrivals, hrequests, hcompletions⟩ := hlife
  have hnew := h.later s.connections (Nat.le_refl _)
  refine h.move fd ?_ ?_ h.data_post (h.cqe_post he) (.inl rfl) (Nat.le_refl _) (by simp [State.post, hbuf]) ?_
    (owned_same (fun _ ha => ha) rfl) (fun _ _ => ⟨rfl, rfl, rfl⟩) (by simp [hfree]) ((post_accept he hdata).symm ▸ h.accept) h.torn
  · refine .arriving (Function.update_self ..) hbuf ?_ ((post_requests_of_ne fd he (by simp [hprep, Prep.fd])).trans
      hrequests) ?_ hnew
    · refine (post_arrivals s fd i e fd).trans ?_
      rw [harrivals, hdata, hprep, if_pos ⟨rfl, rfl, hpos⟩]
      rfl
    · refine (post_completions s fd i e fd).trans ?_
      rw [hcompletions, hdata, hprep, if_neg (by simp [Prep.data])]
      rfl
  · intro fd' hne
    have hsame : Same s (s.post i e fd) fd' := post_same fd he hdata (by simp [hprep, Prep.fd]) fun _ => .inl hne.symm
    exact { hsame with connection := Function.update_of_ne hne .. }
  · exact .inr (.inr ⟨Function.update_self .., rfl⟩)

/-- The other clients, when a request of client `fd` finishes and the session goes on. -/
theorem others (h : Ok s) (he : s.flight[i]? = some e) (hfd : e.prep.fd = some fd) {c : Nat}
    (hc : s.connection fd = some c) (hpost : s' = { s.post i e res with
      memory := s'.memory, received := s'.received, sent := s'.sent })
    (hmemory : ∀ a, s.bufMap fd ≠ some a → s'.memory a = s.memory a)
    (hsession : ∀ c', c' ≠ c → s'.received c' = s.received c' ∧ s'.sent c' = s.sent c') :
    ∀ fd', fd' ≠ fd → Same s s' fd' := by
  intro fd' hne
  have hsame : Same s (s.post i e res) fd' := post_same res he (h.prep_data he) (by simp [hfd, hne.symm])
    (fun hprep => by simp [hprep, Prep.fd] at hfd)
  rw [hpost]
  exact { hsame with
    memory := fun a ha => hmemory a fun ha' => hne (h.buffers fd' fd a ha ha')
    session := fun c' hc' =>
      have hother := hsession c' fun heq => hne (h.connections fd' fd c' hc' (heq ▸ hc))
      ⟨hother.1, hother.2, rfl⟩ }

/-- A request of a client finishes, and the session goes on. -/
theorem transfer (h : Ok s) (he : s.flight[i]? = some e) (hfd : e.prep.fd = some fd) {c : Nat}
    (hc : s.connection fd = some c) (hpost : s' = { s.post i e res with
      memory := s'.memory, received := s'.received, sent := s'.sent })
    (hmemory : ∀ a, s.bufMap fd ≠ some a → s'.memory a = s.memory a)
    (hsession : ∀ c', c' ≠ c → s'.received c' = s.received c' ∧ s'.sent c' = s.sent c')
    (hold : ∀ a, s'.memory a ≠ none → s.memory a ≠ none) (hlife : Life s' fd) : Ok s' := by
  have hothers := h.others he hfd hc hpost hmemory hsession
  refine h.move fd hlife hothers ?_ ?_ (.inl ?_) (Nat.le_of_eq ?_) ?_ (.inl ?_) (owned_same hold ?_) ?_ ?_ ?_ ?_
  · rw [hpost]
    exact h.data_post
  · rw [hpost]
    exact h.cqe_post he
  · rw [hpost]
    rfl
  · rw [hpost]
    rfl
  · rw [hpost]
    intro hbuf
    exact absurd (h.next fd _ hbuf) (Nat.lt_irrefl _)
  · rw [hpost]
    exact ⟨rfl, rfl⟩
  · rw [hpost]
    rfl
  · intro c' hc'
    have hother := hsession c' fun heq => hc' (heq ▸ hc)
    refine ⟨hother.1, hother.2, ?_⟩
    rw [hpost]
    rfl
  · intro c' hc'
    rw [hpost]
    exact .inl hc'
  · rw [hpost]
    exact (post_accept he (h.prep_data he)).symm ▸ h.accept
  · rw [hpost]
    exact h.torn

/-- The only request of a client becomes its only CQE. -/
theorem posted (he : s.flight[i]? = some e) {c : Nat} {b : Buffer}
    (hc : s.connection fd = some c) (hbuf : s.bufMap fd = some a) (harrivals : s.arrivals fd = [])
    (hrequests : s.requests fd = [e]) (hcompletions : s.completions fd = []) (hpost : s' = { s.post i e res with
      memory := s'.memory, received := s'.received, sent := s'.sent }) (hb : s'.memory a = some b)
    (hkind : e.data = OP.read.data fd ∨ e.data = OP.write.data fd) (hfd : e.prep.fd = some fd)
    (hout : Outstanding fd a b (s'.received c) (s'.sent c) (.of (s.results c)) [] [⟨e.data, res⟩]) :
    Life s' fd := by
  have hresults : s'.results c = s.results c := by
    rw [hpost]
    rfl
  have hrequests' : s'.requests fd = [] := by
    rw [hpost]
    exact (post_requests res he hfd hrequests).2
  have hcompletions' : s'.completions fd = [⟨e.data, res⟩] := by
    rw [hpost]
    refine (post_completions s fd i e res).trans ?_
    rw [hcompletions, if_pos hkind]
    rfl
  refine .client (c := c) ?_ (a := a) ?_ ?_ hb ?_
  · rw [hpost]
    exact hc
  · rw [hpost]
    exact hbuf
  · rw [hpost]
    refine (post_arrivals s fd i e res).trans ?_
    rw [harrivals, if_neg]
    · rfl
    · rintro ⟨hdata, -⟩
      rcases hkind with hkind | hkind <;> simp [hkind] at hdata
  · rw [hrequests', hcompletions', hresults]
    exact hout

/-- The buffer of a request is the one in the map, and is large enough. -/
theorem transfers (h : Ok s) (he : s.flight[i]? = some e)
    (hprep : e.prep = .read fd a n ∨ e.prep = .write fd a n) :
    ∃ b, s.memory a = some b ∧ n ≤ bufferSize ∧ s.bufMap fd = some a ∧ s.requests fd = [e] ∧
      s.completions fd = [] := by
  have hfd : e.prep.fd = some fd := by rcases hprep with hprep | hprep <;> rw [hprep] <;> rfl
  obtain ⟨c, -, -, hrequests, hcompletions, hkind⟩ := (h.life fd).request (mem_requests he hfd)
  rcases hkind with ⟨a', b, hbuf, hmemory, ⟨hread, -⟩ | ⟨block, hwrite, -, -, hlength, -⟩⟩ | ⟨-, hclose, -⟩
  · obtain ⟨rfl, rfl⟩ : a = a' ∧ n = bufferSize := by simpa [hread, eq_comm] using hprep
    exact ⟨b, hmemory, Nat.le_refl _, hbuf, hrequests, hcompletions⟩
  · obtain ⟨rfl, rfl⟩ : a = a' ∧ n = block.length := by simpa [hwrite, eq_comm] using hprep
    exact ⟨b, hmemory, hlength, hbuf, hrequests, hcompletions⟩
  · simp [hclose] at hprep

/-- A read into the buffer of a client. -/
theorem readDone (h : Ok s) (he : s.flight[i]? = some e) (hprep : e.prep = .read fd a n) {block : Block}
    (hlength : block.length ≤ n) {b : Buffer} (hmemory : s.memory a = some b) :
    Ok { s.post i e (BitVec.ofNat 32 block.length) with
      memory := Function.update s.memory a (some (b.fill block))
      received := s.log s.received fd block } := by
  have hfd : e.prep.fd = some fd := by rw [hprep]; rfl
  obtain ⟨c, hc, harrivals, hrequests, hcompletions, hkind⟩ := (h.life fd).request (mem_requests he hfd)
  rcases hkind with ⟨a', b', hbuf, -, hkind⟩ | ⟨-, hclose, -⟩
  · rcases hkind with ⟨hread, hnext, hsession⟩ | ⟨block', hwrite, -⟩
    · obtain ⟨-, rfl, rfl⟩ : fd = fd ∧ a = a' ∧ n = bufferSize := by simpa [hprep] using hread
      have hdata : e.data = OP.read.data fd := by rw [h.prep_data he, hprep]; rfl
      have hcontent : (b.fill block).take block.length = block := by
        refine List.ext_getElem (by simp [Buffer.take]) fun m _ hm => ?_
        simp [Buffer.take, Buffer.fill, hm]
      refine h.transfer he hfd hc rfl (fun a' ha' => Function.update_of_ne ?_ ..) (fun c' hc' => ⟨?_, rfl⟩) ?_ ?_
      · rintro rfl
        exact ha' hbuf
      · exact log_of_ne fun hc'' => hc' (Option.some.inj (hc.symm.trans hc'')).symm
      · intro a' ha'
        by_cases heq : a' = a
        · simp [heq, hmemory]
        · simpa [Function.update_of_ne heq, State.post] using ha'
      · refine posted he hc hbuf harrivals hrequests hcompletions rfl (Function.update_self ..) (.inl hdata) hfd ?_
        simp only [log_self hc, hdata, hnext]
        exact .readDone (hsession.read block) hlength hcontent
    · simp [hprep] at hwrite
  · simp [hprep] at hclose

/-- A write from the buffer of a client. -/
theorem wrote (h : Ok s) (he : s.flight[i]? = some e) (hprep : e.prep = .write fd a n) {m : Nat} {out : Block}
    (hm : m ≤ n) (hload : s.load a m = some out) :
    Ok { s.post i e (BitVec.ofNat 32 m) with sent := s.log s.sent fd out } := by
  have hfd : e.prep.fd = some fd := by rw [hprep]; rfl
  obtain ⟨c, hc, harrivals, hrequests, hcompletions, hkind⟩ := (h.life fd).request (mem_requests he hfd)
  rcases hkind with ⟨a', b, hbuf, hmemory, hkind⟩ | ⟨-, hclose, -⟩
  · rcases hkind with ⟨hread, -⟩ | ⟨block, hwrite, hnext, hsession, hlength, hcontent⟩
    · simp [hprep] at hread
    · obtain ⟨-, rfl, rfl⟩ : fd = fd ∧ a = a' ∧ n = block.length := by simpa [hprep] using hwrite
      have hdata : e.data = OP.write.data fd := by rw [h.prep_data he, hprep]; rfl
      have hout : out = b.take m := by
        simp only [State.load, hmemory] at hload
        split at hload
        · exact (Option.some.inj hload).symm
        · cases hload
      have hpart : b.take m <+: block := by
        rw [← hcontent, Buffer.take, Buffer.take]
        obtain ⟨k, hk⟩ := Nat.exists_eq_add_of_le hm
        rw [hk, List.range_add, List.map_append]
        exact List.prefix_append _ _
      have hm : m = out.length := by simp [hout, Buffer.take]
      subst hm
      refine h.transfer he hfd hc rfl (fun _ _ => rfl) (fun c' hc' => ⟨rfl, ?_⟩) (fun _ ha => ha) ?_
      · exact log_of_ne fun hc'' => hc' (Option.some.inj (hc.symm.trans hc'')).symm
      · refine posted he hc hbuf harrivals hrequests hcompletions rfl hmemory (.inr hdata) hfd ?_
        simp only [log_self hc, hdata, hnext]
        exact .written (hsession.write (hout ▸ hpart)) (hout ▸ hpart) hlength hcontent
  · simp [hprep] at hclose

/-- A read or a write fails. -/
theorem failed (h : Ok s) (he : s.flight[i]? = some e) (hfd : e.prep.fd = some fd) (hclose : e.prep ≠ .close fd)
    (hres : res.toInt < 0) : Ok (s.post i e res) := by
  obtain ⟨c, hc, harrivals, hrequests, hcompletions, hkind⟩ := (h.life fd).request (mem_requests he hfd)
  obtain ⟨a, b, hbuf, hmemory, hkind⟩ := hkind.resolve_right fun hleave => hclose hleave.2.1
  have hdata := h.prep_data he
  refine h.transfer he hfd hc rfl (fun _ _ => rfl) (fun _ _ => ⟨rfl, rfl⟩) (fun _ ha => ha) ?_
  rcases hkind with ⟨hread, hnext, hsession⟩ | ⟨block, hwrite, hnext, hsession, -⟩
  · rw [hread, Prep.data] at hdata
    refine posted he hc hbuf harrivals hrequests hcompletions rfl hmemory (.inl hdata) hfd ?_
    rw [hdata, hnext]
    exact .readFailed hsession hres
  · rw [hwrite, Prep.data] at hdata
    refine posted he hc hbuf harrivals hrequests hcompletions rfl hmemory (.inr hdata) hfd ?_
    rw [hdata, hnext]
    exact .writeFailed hsession hres

/-- An accept operation fails. -/
theorem acceptFailed (h : Ok s) (he : s.flight[i]? = some e) (hprep : e.prep = .accept) (hres : res.toInt < 0) :
    Ok (s.post i e res) := by
  have hsame : ∀ fd, Same s (s.post i e res) fd := fun fd =>
    post_same res he (h.prep_data he) (by simp [hprep, Prep.fd]) fun _ => .inr hres
  refine h.move 0 ((h.life 0).same (hsame 0)) (fun fd _ => hsame fd) h.data_post (h.cqe_post he) (.inl rfl)
    (Nat.le_refl _) (fun hbuf => absurd (h.next 0 _ hbuf) (Nat.lt_irrefl _)) (.inl ⟨rfl, rfl⟩)
    (owned_same (fun _ ha => ha) rfl) (fun _ _ => ⟨rfl, rfl, rfl⟩) (fun c hc => .inl hc) ((post_accept he (h.prep_data he)).symm ▸ h.accept) h.torn

/-- The descriptor of a client is closed. -/
theorem closed (h : Ok s) (he : s.flight[i]? = some e) (hprep : e.prep = .close fd) :
    Ok { s.post i e res with connection := Function.update s.connection fd none } := by
  have hfd : e.prep.fd = some fd := by rw [hprep]; rfl
  have hdata := h.prep_data he
  obtain ⟨c, hc, harrivals, hrequests, hcompletions, hkind⟩ := (h.life fd).request (mem_requests he hfd)
  rcases hkind with ⟨a, b, -, -, ⟨hread, -⟩ | ⟨block, hwrite, -⟩⟩ | ⟨hbuf, -, hclosed⟩
  · simp [hprep] at hread
  · simp [hprep] at hwrite
  · refine h.move fd ?_ ?_ h.data_post (h.cqe_post he) (.inl rfl) (Nat.le_refl _) (by simp [State.post, hbuf])
      (.inr (.inl ⟨Function.update_self .., rfl⟩)) (owned_same (fun _ ha => ha) rfl)
      (fun _ _ => ⟨rfl, rfl, rfl⟩) ?_
      ((post_accept he hdata).symm ▸ h.accept) h.torn
    · refine .free (Function.update_self ..) hbuf ?_ (post_requests res he hfd hrequests).2 ?_
      · refine (post_arrivals s fd i e res).trans ?_
        rw [harrivals, hdata, hprep, if_neg (by simp [Prep.data])]
        rfl
      · refine (post_completions s fd i e res).trans ?_
        rw [hcompletions, hdata, hprep, if_neg (by simp [Prep.data])]
        rfl
    · intro fd' hne
      have hsame : Same s (s.post i e res) fd' := post_same res he hdata (by simp [hfd, hne.symm])
        (by simp [hprep])
      exact { hsame with connection := Function.update_of_ne hne .. }
    · intro c' hc'
      obtain rfl := Option.some.inj (hc.symm.trans hc')
      exact .inr hclosed

theorem finish (h : Ok s) (he : s.flight[i]? = some e) {result : Result}
    (hs' : s.finish reserved i e result = some s') : Ok s' := by
  unfold State.finish at hs'
  cases hprep : e.prep with
  | accept =>
      rw [hprep] at hs'
      cases result <;> simp only [reduceCtorEq] at hs'
      · split at hs'
        · next hok =>
            obtain rfl := Option.some.inj hs'
            exact h.accepted he hprep hok.1 hok.2.2
        · cases hs'
      · split at hs'
        · next hneg =>
            obtain rfl := Option.some.inj hs'
            exact h.acceptFailed he hprep hneg
        · cases hs'
  | read fd a n =>
      have hfd : e.prep.fd = some fd := by rw [hprep]; rfl
      rw [hprep] at hs'
      cases result <;> simp only [reduceCtorEq] at hs'
      · split at hs'
        · next hlength =>
            split at hs'
            · next b hmemory =>
                obtain rfl := Option.some.inj hs'
                exact h.readDone he hprep hlength hmemory
            · next hnone =>
                obtain ⟨b, hb, -⟩ := h.transfers he (.inl hprep)
                simp [hnone] at hb
        · cases hs'
      · split at hs'
        · next hneg =>
            obtain rfl := Option.some.inj hs'
            exact h.failed he hfd (by simp [hprep]) hneg
        · cases hs'
  | write fd a n =>
      have hfd : e.prep.fd = some fd := by rw [hprep]; rfl
      rw [hprep] at hs'
      cases result <;> simp only [reduceCtorEq] at hs'
      · split at hs'
        · next hm =>
            split at hs'
            · next out hload =>
                obtain rfl := Option.some.inj hs'
                exact h.wrote he hprep hm hload
            · next hnone =>
                obtain ⟨b, hb, hn, -⟩ := h.transfers he (.inr hprep)
                simp [State.load, hb, Nat.le_trans hm hn] at hnone
        · cases hs'
      · split at hs'
        · next hneg =>
            obtain rfl := Option.some.inj hs'
            exact h.failed he hfd (by simp [hprep]) hneg
        · cases hs'
  | close fd =>
      rw [hprep] at hs'
      cases result <;> simp only [reduceCtorEq] at hs'
      obtain rfl := Option.some.inj hs'
      exact h.closed he hprep

end Ok

end IoUring.Echo
