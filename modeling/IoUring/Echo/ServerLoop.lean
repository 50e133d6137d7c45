import IoUring.Echo.ServerKernel

/-!
# The loop of the echo server

The CQE at the head of the ring is the only thing that is outstanding for its client, and its
handler issues the next request of the client.
-/

namespace IoUring.Echo

variable {s s' : State} {fd fd' : Word} {reserved : Word → Bool} {ok : Nat → Bool} {x : Cqe}
  {xs : List Cqe} {es : List Sqe}

/-! ## Handlers -/

/-- The handler finds its operation and its client in the user data. -/
theorem handle_eq {op : OP} (hdata : x.data = op.data fd) : handle s ok x =
    match op with
    | .trap => none
    | .accept => onAccept s ok x
    | .read => onRead s ok x fd
    | .write => onWrite s ok x fd
    | .close => some s := by
  have hfd : (fd.setWidth 64).setWidth 32 = fd := by simp
  simp only [handle, hdata, OP.data, dataUnpack_dataPack, hfd]
  cases op <;> rfl

theorem nofail_some {res : Word} {n : Nat} (h : nofail res = some n) : 0 ≤ res.toInt ∧ n = res.toNat := by
  rw [nofail] at h
  split at h
  · cases h
  · next hpos => exact ⟨by omega, (Option.some.inj h).symm⟩

theorem asyncOperation_some {good : Bool} {data : BitVec 64} {prep : Prep}
    (h : asyncOperation s good data prep = some s') : s' = { s with flight := s.flight ++ [⟨prep, data⟩] } := by
  rw [asyncOperation] at h
  split at h
  · exact (Option.some.inj h).symm
  · cases h

/-- A client arrives: its first read, and the next accept operation. -/
theorem onAccept_some (hbuf : s.bufMap x.res = none) (h : onAccept s ok x = some s') :
    0 ≤ x.res.toInt ∧ s' = { s with
      bufMap := Function.update s.bufMap x.res (some s.next)
      memory := Function.update s.memory s.next (some .zero)
      next := s.next + 1
      flight := s.flight ++ [⟨.read x.res s.next bufferSize, OP.read.data x.res⟩, ⟨.accept, OP.accept.data 0⟩] } := by
  simp only [onAccept, State.buf, hbuf, Option.bind_eq_bind, Option.bind_eq_some_iff] at h
  obtain ⟨n, hres, s₁, hread, haccept⟩ := h
  obtain rfl := asyncOperation_some hread
  obtain rfl := asyncOperation_some haccept
  exact ⟨(nofail_some hres).1, by simp [OP.data]⟩

/-- A block is printed and written back. -/
theorem onRead_some {a n : Nat} {block : Block} (hbuf : s.bufMap fd = some a) (hres : nofail x.res = some n)
    (hload : s.load a n = some block) (h : onRead s ok x fd = some s') : s' = { s with
      stdout := s.stdout ++ block
      flight := s.flight ++ [⟨.write fd a n, OP.write.data fd⟩] } := by
  simp only [onRead, hres, State.buf, hbuf, Option.bind_eq_bind, Option.bind_some, State.print, hload] at h
  exact asyncOperation_some h

/-- The answer was the last one, or the next block is read. -/
theorem onWrite_some {a n : Nat} (hbuf : s.bufMap fd = some a) (hres : nofail x.res = some n)
    (h : onWrite s ok x fd = some s') : s' =
      if n = 0 ∨ n > 2 ∧ s.load a 2 = some zz then { s with
        flight := s.flight ++ [⟨.close fd, OP.close.data fd⟩]
        bufMap := Function.update s.bufMap fd none
        memory := Function.update s.memory a none }
      else { s with flight := s.flight ++ [⟨.read fd a bufferSize, OP.read.data fd⟩] } := by
  simp only [onWrite, hres, State.buf, hbuf, Option.bind_eq_bind, Option.bind_some] at h
  split at h
  · next hclose =>
      rw [Option.bind_eq_some_iff] at h
      obtain ⟨s₁, hs₁, h⟩ := h
      obtain rfl := asyncOperation_some hs₁
      rw [if_pos hclose, ← Option.some.inj h]
      simp [State.erase, hbuf, OP.data]
  · next hgo =>
      rw [if_neg hgo]
      exact asyncOperation_some h

theorem record_client {a c : Nat} (hdata : x.data = OP.read.data fd ∨ x.data = OP.write.data fd)
    (hc : s.connection fd = some c) (hbuf : s.bufMap fd = some a) : s.record x =
      Function.update s.results c (s.results c ++ [(x.res.toInt, decide (s.load a 2 = some zz))]) := by
  have hfd : (fd.setWidth 64).setWidth 32 = fd := by simp
  rcases hdata with hdata | hdata <;>
    simp [State.record, hdata, OP.data, dataUnpack_dataPack, hfd, hc, hbuf]

theorem record_other {op : OP} (hdata : x.data = op.data fd) (hop : op ≠ .read ∧ op ≠ .write) :
    s.record x = s.results := by
  have hcode : ¬(op.code = OP.read.code ∨ op.code = OP.write.code) := by
    rintro (hcode | hcode)
    · exact hop.1 (OP.code_inj hcode)
    · exact hop.2 (OP.code_inj hcode)
  simp only [State.record, hdata, OP.data, dataUnpack_dataPack]
  split
  · rw [if_neg hcode]
  · rfl

/-! ## The head of the ring -/

theorem head_completions (hcqes : s.cqes = x :: xs) (fd : Word) : s.completions fd =
    (if x.data = OP.read.data fd ∨ x.data = OP.write.data fd then [x] else []) ++
      xs.filter fun c => c.data = OP.read.data fd ∨ c.data = OP.write.data fd := by
  rw [State.completions, hcqes, List.filter_cons]
  simp only [decide_eq_true_eq]
  split <;> rfl

theorem head_arrivals (hcqes : s.cqes = x :: xs) (fd : Word) : s.arrivals fd =
    (if x.data = OP.accept.data 0 ∧ x.res = fd ∧ 0 ≤ x.res.toInt then [x] else []) ++
      xs.filter fun c => c.data = OP.accept.data 0 ∧ c.res = fd ∧ 0 ≤ c.res.toInt := by
  rw [State.arrivals, hcqes, List.filter_cons]
  simp only [decide_eq_true_eq]
  split <;> rfl

/-- What a handler does to the other clients. -/
theorem head_same (hcqes : s.cqes = x :: xs) (hs' : s'.cqes = xs) (hflight : s'.flight = s.flight ++ es)
    (hconnection : s'.connection = s.connection) (hsession : s'.received = s.received ∧ s'.sent = s.sent)
    (hresults : ∀ c, s.connection fd = some c → s'.results c = s.results c)
    (hes : ∀ e ∈ es, e.prep.fd ≠ some fd) (hdata : x.data ≠ OP.read.data fd ∧ x.data ≠ OP.write.data fd)
    (hres : x.data = OP.accept.data 0 → x.res ≠ fd) (hbuf : s'.bufMap fd = s.bufMap fd)
    (hmemory : ∀ a, s.bufMap fd = some a → s'.memory a = s.memory a) : Same s s' fd where
  connection := by rw [hconnection]
  buf := hbuf
  requests := by
    have hnil : es.filter (fun e => e.prep.fd = some fd) = [] :=
      List.filter_eq_nil_iff.mpr fun e he => by simpa using hes e he
    rw [State.requests, hflight, List.filter_append, hnil, List.append_nil]
    rfl
  completions := by
    rw [head_completions hcqes, if_neg (by simp [hdata]), State.completions, hs']
    rfl
  arrivals := by
    rw [head_arrivals hcqes, if_neg fun h => hres h.1 h.2.1, State.arrivals, hs']
    rfl
  memory := hmemory
  session := fun c hc => ⟨by rw [hsession.1], by rw [hsession.2], hresults c hc⟩

namespace Ok

/-- The accept operations, when the head of the ring is not one. -/
theorem head_accept (h : Ok s) (hcqes : s.cqes = x :: xs) (hdata : x.data ≠ OP.accept.data 0)
    (hes : ∀ e ∈ es, e.prep ≠ .accept) : s.terminated = false →
    ((s.flight ++ es).filter fun e => e.prep = .accept).length +
      (xs.filter fun c => c.data = OP.accept.data 0).length = if s.started = true then 1 else 0 := by
  intro hterminated
  have haccept := h.accept hterminated
  rw [hcqes, List.filter_cons_of_neg (by simpa using hdata)] at haccept
  have hnil : es.filter (fun e => e.prep = .accept) = [] :=
    List.filter_eq_nil_iff.mpr fun e he => by simpa using hes e he
  rw [List.filter_append, hnil, List.append_nil]
  exact haccept

/-- `handlers[OP_ACCEPT]`. -/
theorem onAccept (h : Ok s) (hcqes : s.cqes = x :: xs) (hdata : x.data = OP.accept.data 0)
    (hs' : Echo.onAccept s ok x = some s') : Ok { s' with cqes := xs, results := s.record x } := by
  rw [record_other hdata (by simp)]
  have hpos : 0 ≤ x.res.toInt := by
    simp only [Echo.onAccept, Option.bind_eq_bind, Option.bind_eq_some_iff] at hs'
    obtain ⟨n, hres, -⟩ := hs'
    exact (nofail_some hres).1
  have hx : x ∈ s.arrivals x.res := List.mem_filter.mpr ⟨by simp [hcqes], by simp [hdata, hpos]⟩
  obtain ⟨c, hc, hbuf, harrivals, hrequests, hcompletions, hreceived, hsent, hresults⟩ :=
    (h.life x.res).arrival hx
  obtain ⟨-, rfl⟩ := onAccept_some hbuf hs'
  rw [head_arrivals hcqes, if_pos ⟨hdata, rfl, hpos⟩, List.cons_append, List.cons.injEq] at harrivals
  rw [head_completions hcqes, if_neg (by simp [hdata]), List.nil_append] at hcompletions
  refine h.move x.res ?_ ?_ ?_ ?_ (.inr (.inr (Function.update_self ..))) (Nat.le_succ _)
    (fun _ => Nat.lt_succ_self _) (.inl ⟨rfl, rfl⟩) ?_ (fun _ _ => ⟨rfl, rfl, rfl⟩) (fun c hc => .inl hc) ?_ h.torn
  · refine .client hc (Function.update_self ..) harrivals.2 (Function.update_self ..) ?_
    have hreq : (s.flight ++ ([⟨.read x.res s.next bufferSize, OP.read.data x.res⟩,
        ⟨.accept, OP.accept.data 0⟩] : List Sqe)).filter (fun e : Sqe => e.prep.fd = some x.res) =
          [⟨.read x.res s.next bufferSize, OP.read.data x.res⟩] := by
      rw [List.filter_append, show s.flight.filter _ = [] from hrequests]
      simp [Prep.fd]
    simp only [State.requests, State.completions]
    rw [hreq, hcompletions, hreceived, hsent, hresults]
    exact .reading .start
  · intro fd hne
    refine head_same hcqes rfl rfl rfl ⟨rfl, rfl⟩ (fun _ _ => rfl) ?_ (by simp [hdata]) (fun _ => hne.symm)
      (Function.update_of_ne hne ..) fun a ha => Function.update_of_ne ?_ ..
    · simp [Prep.fd, hne.symm]
    · rintro rfl
      exact absurd (h.next fd _ ha) (Nat.lt_irrefl _)
  · intro e he
    rcases List.mem_append.mp he with he | he
    · exact h.data e he
    · simp only [List.mem_cons, List.not_mem_nil, or_false] at he
      rcases he with rfl | rfl <;> rfl
  · exact fun c hc => .inl (by rw [hcqes]; exact List.mem_cons_of_mem _ hc)
  · intro a ha
    by_cases hnew : a = s.next
    · exact .inl (by rw [hnew]; exact Function.update_self ..)
    · simp only [Function.update_of_ne hnew] at ha
      exact .inr ⟨ha, by simp [hbuf]⟩
  · intro hterminated
    have haccept := h.accept hterminated
    rw [hcqes, List.filter_cons_of_pos (by simpa using hdata), List.length_cons] at haccept
    have hnew : (([⟨.read x.res s.next bufferSize, OP.read.data x.res⟩, ⟨.accept, OP.accept.data 0⟩] :
        List Sqe).filter fun e => e.prep = .accept).length = 1 := rfl
    rw [List.filter_append, List.length_append, hnew]
    refine Eq.trans ?_ haccept
    exact Nat.add_right_comm _ 1 _

/-- The client of a CQE, with its buffer and its session. -/
theorem head (h : Ok s) (hcqes : s.cqes = x :: xs) (hdata : x.data = OP.read.data fd ∨ x.data = OP.write.data fd) :
    ∃ c a b, s.connection fd = some c ∧ s.bufMap fd = some a ∧ s.memory a = some b ∧
      (xs.filter fun c => c.data = OP.accept.data 0 ∧ c.res = fd ∧ 0 ≤ c.res.toInt) = [] ∧
      (xs.filter fun c => c.data = OP.read.data fd ∨ c.data = OP.write.data fd) = [] ∧ s.requests fd = [] ∧
      (x.res.toInt < 0 ∨
        x.data = OP.read.data fd ∧ .of (s.results c) = Next.read ∧ (∃ block : Block,
          x.res = BitVec.ofNat 32 block.length ∧ Session (s.received c) (s.sent c) (.writing block) ∧
            block.length ≤ bufferSize ∧ b.take block.length = block) ∨
        x.data = OP.write.data fd ∧ .of (s.results c) = Next.write ∧ ∃ block out : Block,
          x.res = BitVec.ofNat 32 out.length ∧ Session (s.received c) (s.sent c) (.after block out) ∧
            out <+: block ∧ block.length ≤ bufferSize ∧ b.take block.length = block) := by
  have hx : x ∈ s.completions fd := List.mem_filter.mpr ⟨by simp [hcqes], by simpa using hdata⟩
  obtain ⟨c, a, b, hc, hbuf, hmemory, harrivals, hout⟩ := (h.life fd).completion hx
  obtain ⟨hcompletions, hrequests, hkind⟩ := hout.completion hx
  rw [head_completions hcqes, if_pos hdata, List.cons_append, List.cons.injEq] at hcompletions
  rw [head_arrivals hcqes, if_neg (by rcases hdata with hdata | hdata <;> simp [hdata])] at harrivals
  exact ⟨c, a, b, hc, hbuf, hmemory, harrivals, hcompletions.2, hrequests, hkind⟩

/-- A client that is served gets its next request. -/
theorem next_request (h : Ok s) (hcqes : s.cqes = x :: xs)
    (hdata : x.data = OP.read.data fd ∨ x.data = OP.write.data fd) {e : Sqe} (he : e.prep.fd = some fd)
    (hedata : e.data = e.prep.data) {stdout : List Byte} {result : Int × Bool} {a c : Nat} {b : Buffer} (hc : s.connection fd = some c)
    (hbuf : s.bufMap fd = some a) (hmemory : s.memory a = some b)
    (harrivals : (xs.filter fun c => c.data = OP.accept.data 0 ∧ c.res = fd ∧ 0 ≤ c.res.toInt) = [])
    (hcompletions : (xs.filter fun c => c.data = OP.read.data fd ∨ c.data = OP.write.data fd) = [])
    (hrequests : s.requests fd = [])
    (hout : Outstanding fd a b (s.received c) (s.sent c) (.of (s.results c ++ [result])) [e] []) :
    Ok { s with
      stdout := stdout
      flight := s.flight ++ [e]
      cqes := xs
      results := Function.update s.results c (s.results c ++ [result]) } := by
  refine h.move fd ?_ ?_ ?_ ?_ (.inl rfl) (Nat.le_refl _)
    (fun hnew => absurd (h.next fd _ hnew) (Nat.lt_irrefl _)) (.inl ⟨rfl, rfl⟩)
    (owned_same (fun _ ha => ha) rfl) (fun c' hc' => ⟨rfl, rfl, Function.update_of_ne ?_ ..⟩) (fun c hc => .inl hc)
    (h.head_accept hcqes (by rcases hdata with hdata | hdata <;> simp [hdata]) ?_) h.torn
  · refine .client hc hbuf harrivals hmemory ?_
    have hreq : (s.flight ++ [e]).filter (fun e : Sqe => e.prep.fd = some fd) = [e] := by
      rw [List.filter_append, show s.flight.filter _ = [] from hrequests]
      simp [he]
    simp only [State.requests, State.completions, Function.update_self]
    rw [hreq, hcompletions]
    exact hout
  · intro fd' hne
    refine head_same hcqes rfl rfl rfl ⟨rfl, rfl⟩ (fun c' hc' => Function.update_of_ne ?_ ..)
      (by simp [he, hne.symm]) (by rcases hdata with hdata | hdata <;> simp [hdata, hne.symm])
      (by rcases hdata with hdata | hdata <;> simp [hdata]) rfl fun _ _ => rfl
    rintro rfl
    exact hne (h.connections fd' fd _ hc' hc)
  · intro e' he'
    rcases List.mem_append.mp he' with he' | he'
    · exact h.data e' he'
    · rw [List.mem_singleton.mp he', hedata]
  · exact fun c hc => .inl (by rw [hcqes]; exact List.mem_cons_of_mem _ hc)
  · rintro rfl
    exact hc' hc
  · intro e' he' hprep
    rw [List.mem_singleton.mp he'] at hprep
    simp [hprep, Prep.fd] at he

/-- A client that is served leaves, and its buffer is erased. -/
theorem leave (h : Ok s) (hcqes : s.cqes = x :: xs) (hdata : x.data = OP.write.data fd)
    {result : Int × Bool} {a c : Nat}
    (hc : s.connection fd = some c) (hbuf : s.bufMap fd = some a)
    (harrivals : (xs.filter fun c => c.data = OP.accept.data 0 ∧ c.res = fd ∧ 0 ≤ c.res.toInt) = [])
    (hcompletions : (xs.filter fun c => c.data = OP.read.data fd ∨ c.data = OP.write.data fd) = [])
    (hrequests : s.requests fd = []) (hsession : Session (s.received c) (s.sent c) .closed)
    (hnext : .of (s.results c ++ [result]) = Next.close) :
    Ok { s with
      flight := s.flight ++ [⟨.close fd, OP.close.data fd⟩]
      bufMap := Function.update s.bufMap fd none
      memory := Function.update s.memory a none
      cqes := xs
      results := Function.update s.results c (s.results c ++ [result]) } := by
  refine h.move fd ?_ ?_ ?_ ?_ (.inr (.inl (Function.update_self ..))) (Nat.le_refl _) (by simp)
    (.inl ⟨rfl, rfl⟩) ?_ (fun c' hc' => ⟨rfl, rfl, Function.update_of_ne ?_ ..⟩) (fun c hc => .inl hc)
    (h.head_accept hcqes (by simp [hdata]) (by simp)) h.torn
  · refine .leaving hc (Function.update_self ..) harrivals ?_ hcompletions ⟨hsession, ?_⟩
    · simp only [State.requests]
      rw [List.filter_append, show s.flight.filter _ = [] from hrequests]
      simp [Prep.fd]
    · simp only [Function.update_self]
      exact hnext
  · intro fd' hne
    refine head_same hcqes rfl rfl rfl ⟨rfl, rfl⟩ (fun c' hc' => Function.update_of_ne ?_ ..)
      (by simp [Prep.fd, hne.symm]) (by simp [hdata, hne.symm]) (by simp [hdata])
      (Function.update_of_ne hne ..) fun a' ha' => Function.update_of_ne ?_ ..
    · rintro rfl
      exact hne (h.connections fd' fd _ hc' hc)
    · rintro rfl
      exact hne (h.buffers fd' fd _ ha' hbuf)
  · intro e he
    rcases List.mem_append.mp he with he | he
    · exact h.data e he
    · rw [List.mem_singleton.mp he]
      rfl
  · exact fun c hc => .inl (by rw [hcqes]; exact List.mem_cons_of_mem _ hc)
  · intro a' ha'
    have hne : a' ≠ a := by
      rintro rfl
      simp at ha'
    simp only [Function.update_of_ne hne] at ha'
    exact .inr ⟨ha', by simp [hbuf, hne.symm]⟩
  · rintro rfl
    exact hc' hc

/-- `handlers[OP_READ]`. -/
theorem onRead (h : Ok s) (hcqes : s.cqes = x :: xs) (hdata : x.data = OP.read.data fd)
    (hs' : Echo.onRead s ok x fd = some s') : Ok { s' with cqes := xs, results := s.record x } := by
  obtain ⟨n, hres⟩ : ∃ n, nofail x.res = some n := by
    simp only [Echo.onRead, Option.bind_eq_bind, Option.bind_eq_some_iff] at hs'
    obtain ⟨n, hres, -⟩ := hs'
    exact ⟨n, hres⟩
  obtain ⟨c, a, b, hc, hbuf, hmemory, harrivals, hcompletions, hrequests, hkind⟩ := h.head hcqes (.inl hdata)
  rcases hkind with hneg | ⟨-, hnext, block, hblock, hsession, hlength, hcontent⟩ | ⟨hwrite, -⟩
  · have hpos := (nofail_some hres).1
    omega
  · obtain rfl : block.length = n := Option.some.inj ((nofail_ofNat hlength).symm.trans (hblock ▸ hres))
    have hload : s.load a block.length = some block := by simp [State.load, hmemory, hlength, hcontent]
    obtain rfl := onRead_some hbuf hres hload hs'
    rw [record_client (.inl hdata) hc hbuf]
    refine h.next_request hcqes (.inl hdata) rfl rfl hc hbuf hmemory harrivals hcompletions hrequests ?_
    rw [Next.of_concat, hnext, Next.after, if_neg (by have hpos := (nofail_some hres).1; omega)]
    exact .writing hsession hlength hcontent
  · simp [hdata] at hwrite

/-- `handlers[OP_WRITE]`. -/
theorem onWrite (h : Ok s) (hcqes : s.cqes = x :: xs) (hdata : x.data = OP.write.data fd)
    (hs' : Echo.onWrite s ok x fd = some s') : Ok { s' with cqes := xs, results := s.record x } := by
  obtain ⟨n, hres⟩ : ∃ n, nofail x.res = some n := by
    simp only [Echo.onWrite, Option.bind_eq_bind, Option.bind_eq_some_iff] at hs'
    obtain ⟨n, hres, -⟩ := hs'
    exact ⟨n, hres⟩
  obtain ⟨c, a, b, hc, hbuf, hmemory, harrivals, hcompletions, hrequests, hkind⟩ := h.head hcqes (.inr hdata)
  rcases hkind with hneg | ⟨hread, -⟩ | ⟨-, hnext, block, out, hout, hsession, hpart, hlength, hcontent⟩
  · have hpos := (nofail_some hres).1
    omega
  · simp [hdata] at hread
  · obtain rfl : out.length = n := Option.some.inj
      ((nofail_ofNat (Nat.le_trans hpart.length_le hlength)).symm.trans (hout ▸ hres))
    have hgo : (out.length = 0 ∨ out.length > 2 ∧ s.load a 2 = some zz) ↔ goesOn block out = false := by
      have hload : s.load a 2 = some (b.take 2) := by simp [State.load, hmemory, bufferSize]
      have htake : out.length > 2 → b.take 2 = block.take 2 := by
        intro hlong
        have hle := hpart.length_le
        rw [← hcontent, Buffer.take, Buffer.take, ← List.map_take, List.take_range, Nat.min_eq_left (by omega)]
      rw [hload, goesOn]
      by_cases hlong : out.length > 2
      · simp [hlong, htake hlong, or_iff_not_imp_left]
      · simp [hlong]
    have hlog : Next.of (s.results c ++ [(x.res.toInt, decide (s.load a 2 = some zz))]) =
        if goesOn block out = false then .close else .read := by
      obtain ⟨hpos, hnat⟩ := nofail_some hres
      have hint : x.res.toInt = out.length := by
        have hlt := x.res.isLt
        rw [hnat]
        rw [BitVec.toInt_eq_toNat_cond] at hpos ⊢
        split at hpos
        · next hsmall => rw [if_pos hsmall]
        · omega
      rw [Next.of_concat, hnext, Next.after, if_neg (by omega)]
      refine if_congr (Iff.trans ?_ hgo) rfl rfl
      rw [hint]
      by_cases hzz : s.load a 2 = some zz <;>
        simp only [hzz, decide_true, decide_false, and_true, Bool.false_eq_true, and_false, or_false] <;> omega
    rw [onWrite_some hbuf hres hs', record_client (.inr hdata) hc hbuf]
    by_cases hclose : goesOn block out = false
    · rw [if_pos (hgo.mpr hclose)]
      rw [Status.after, if_neg (by simp [hclose])] at hsession
      rw [if_pos hclose] at hlog
      exact h.leave hcqes hdata hc hbuf harrivals hcompletions hrequests hsession hlog
    · rw [if_neg fun hend => hclose (hgo.mp hend)]
      rw [Status.after, if_pos (by simpa using hclose)] at hsession
      rw [if_neg hclose] at hlog
      refine h.next_request hcqes (.inr hdata) rfl rfl hc hbuf hmemory harrivals hcompletions hrequests ?_
      rw [hlog]
      exact .reading hsession

/-- The loop calls the handler of a CQE. -/
theorem handle (h : Ok s) (hcqes : s.cqes = x :: xs) (hs' : Echo.handle s ok x = some s') :
    Ok { s' with cqes := xs, results := s.record x } := by
  obtain ⟨op, fd, hop, hdata, haccept⟩ := h.cqe x (by simp [hcqes])
  rw [handle_eq hdata] at hs'
  cases op with
  | trap => exact absurd rfl hop
  | accept =>
      rw [haccept rfl] at hdata
      exact h.onAccept hcqes hdata hs'
  | read => exact h.onRead hcqes hdata hs'
  | write => exact h.onWrite hcqes hdata hs'
  | close =>
      obtain rfl := Option.some.inj hs'
      rw [record_other hdata (by simp)]
      have hsame : ∀ fd, Same s { s with cqes := xs } fd := fun fd =>
        head_same hcqes rfl (List.append_nil _).symm rfl ⟨rfl, rfl⟩ (fun _ _ => rfl) (by simp) (by simp [hdata])
          (by simp [hdata]) rfl fun _ _ => rfl
      refine h.move fd ((h.life fd).same (hsame fd)) (fun fd' _ => hsame fd') h.data ?_ (.inl rfl)
        (Nat.le_refl _) (fun hnew => absurd (h.next fd _ hnew) (Nat.lt_irrefl _)) (.inl ⟨rfl, rfl⟩)
        (owned_same (fun _ ha => ha) rfl) (fun _ _ => ⟨rfl, rfl, rfl⟩) (fun c hc => .inl hc) ?_ h.torn
      · exact fun c hc => .inl (by rw [hcqes]; exact List.mem_cons_of_mem _ hc)
      · have hhead := h.head_accept hcqes (by simp [hdata]) (List.forall_mem_nil _)
        rwa [List.append_nil] at hhead

/-- `std::terminate()`. -/
theorem terminate (h : Ok s) : Ok { s with terminated := true } :=
  { h with
    life := fun fd => (h.life fd).same ⟨rfl, rfl, rfl, rfl, rfl, fun _ _ => rfl, fun _ _ => ⟨rfl, rfl, rfl⟩⟩
    accept := by simp }

/-- The first accept operation fails. -/
theorem kickOffFailed (h : Ok s) : Ok { s with started := true, terminated := true } :=
  { h with
    life := fun fd => (h.life fd).same ⟨rfl, rfl, rfl, rfl, rfl, fun _ _ => rfl, fun _ _ => ⟨rfl, rfl, rfl⟩⟩
    accept := by simp }

/-- The first accept operation. -/
theorem kickOff (h : Ok s) (hstarted : s.started = false) :
    Ok { s with started := true, flight := s.flight ++ [⟨.accept, OP.accept.data 0⟩] } := by
  have hsame : ∀ fd, Same s { s with started := true, flight := s.flight ++ [⟨.accept, OP.accept.data 0⟩] } fd :=
    fun fd => {
      connection := rfl
      buf := rfl
      arrivals := rfl
      requests := by simp [State.requests, Prep.fd]
      completions := rfl
      memory := fun _ _ => rfl
      session := fun _ _ => ⟨rfl, rfl, rfl⟩ }
  refine h.move 0 ((h.life 0).same (hsame 0)) (fun fd _ => hsame fd) ?_ (fun c hc => .inl hc) (.inl rfl)
    (Nat.le_refl _) (fun hnew => absurd (h.next 0 _ hnew) (Nat.lt_irrefl _)) (.inl ⟨rfl, rfl⟩)
    (owned_same (fun _ ha => ha) rfl) (fun _ _ => ⟨rfl, rfl, rfl⟩) (fun c hc => .inl hc) ?_ h.torn
  · intro e he
    rcases List.mem_append.mp he with he | he
    · exact h.data e he
    · rw [List.mem_singleton.mp he]
      rfl
  · intro hterminated
    have haccept := h.accept hterminated
    rw [if_neg (by simp [hstarted])] at haccept
    have hone : (([⟨.accept, OP.accept.data 0⟩] : List Sqe).filter fun e => e.prep = .accept).length = 1 := rfl
    rw [List.filter_append, List.length_append, hone, if_pos rfl, Nat.add_right_comm]
    exact congrArg Nat.succ haccept

theorem step (h : Ok s) {l : Label} (hs' : Echo.step reserved s l = some s') : Ok s' := by
  simp only [Echo.step] at hs'
  split at hs'
  · cases hs'
  · cases l with
    | finish i result =>
        simp only at hs'
        split at hs'
        · next e he => exact h.finish he hs'
        · cases hs'
    | kickOff good =>
        simp only at hs'
        split at hs'
        · cases hs'
        · next hstarted =>
            have hstarted : s.started = false := by simpa using hstarted
            obtain rfl := Option.some.inj hs'
            cases hkick : asyncAccept { s with started := true } good with
            | none => exact h.kickOffFailed
            | some s₁ =>
                obtain rfl := asyncOperation_some hkick
                exact h.kickOff hstarted
    | loop wait ok =>
        simp only at hs'
        split at hs'
        · obtain rfl := Option.some.inj hs'
          exact h.terminate
        · next x xs _ _ hcqes =>
            split at hs'
            · next s₁ hs₁ =>
                obtain rfl := Option.some.inj hs'
                exact h.handle hcqes hs₁
            · obtain rfl := Option.some.inj hs'
              exact h.terminate
        · cases hs'

end Ok

theorem ok_start : Ok .start where
  data := by simp [State.start]
  cqe := by simp [State.start]
  life := fun fd => .free rfl rfl rfl rfl rfl
  buffers := by simp [State.start]
  next := by simp [State.start]
  connections := by simp [State.start]
  lt := by simp [State.start]
  owned := by simp [State.start]
  later := fun _ _ => ⟨rfl, rfl, rfl⟩
  past := by simp [State.start]
  accept := fun _ => rfl
  torn := rfl

theorem reachable_ok (h : (machine reserved).Reachable s) : Ok s :=
  h.invariant Ok (by rintro s rfl; exact ok_start) fun _ _ _ _ hok _ hs' => hok.step hs'

end IoUring.Echo
