import IoUring.Coroutine.ContextRing

/-!
# One operation in a context

The SQE of a plain operation, or of a chain, leads to one CQE at most. The loop over
the ring writes the slot of this CQE into the operation, and resumes the coroutine
that waits for it.
-/

namespace IoUring.Coroutine

variable {cfg : Config} {s s' : State} {a : Nat}

/-- The requests of an operation that are not finished, prepared ones included. -/
def Ring.live (r : Ring) (a : Nat) : List (Sqe Request) :=
  (r.requests ++ r.sq).filter fun e => e.operation = some a

/-- How many CQEs the loop has passed since the context exists. -/
def State.seen (s : State) : Nat :=
  s.ring.khead + s.phase.done

/-- A request of the operation at an address is prepared, in flight or has an outcome. -/
structure LiveOk (s : State) (a : Nat) : Prop where
  one : (s.ring.live a).length + (s.outcome a).toList.length ≤ 1
  blank : s.next ≤ a → s.ring.live a = [] ∧ s.outcome a = none

/-- A plain operation or the awaitable of a chain, or a temporary of one. -/
structure OperationOk (cfg : Config) (s : State) (a : Nat) : Prop where
  prep : ∀ e ∈ s.ring.live a, e.prep ≠ .multishot
  once : (s.ring.live a).length + s.posted.countP (fun c => c.data = some a) ≤ 1
  waits : ∀ h, s.suspended a = some h → (s.object a).userData.h = some h ∧
    (s.object a).userData.sqe = true ∧ (s.object a).userData.cqe = none ∧ (s.object a).alive = true
  balance : s.awaits.count a =
    (s.returned.map Prod.fst).count a + (s.suspended a).toList.length
  cqe : ∀ slot, (s.object a).userData.cqe = some slot → ∃ n c, n < s.seen ∧
    s.posted[n]? = some c ∧ c.data = some a ∧ c.res ≠ -ECANCELED ∧ slot = n % cfg.cqEntries
  seen : (s.object a).alive = true → (s.object a).userData.cqe = none → ∀ n c, n < s.seen →
    s.posted[n]? = some c → c.data = some a → c.res = -ECANCELED
  outcome : ∀ c ∈ s.posted, c.data = some a → ∃ o, s.outcome a = some o ∧ o.res = c.res
  returned : a ∈ s.returned.map Prod.fst →
    (s.object a).userData.sqe = false ∨ (s.object a).userData.cqe ≠ none

/-- No operation was constructed at the address. -/
structure Blank (s : State) (a : Nat) : Prop where
  posted : ∀ c ∈ s.posted, c.data ≠ some a
  suspended : s.suspended a = none
  awaits : a ∉ s.awaits
  returned : a ∉ s.returned.map Prod.fst

/-- A step that is not about the operation: CQEs of others are posted, and CQEs of
others, or with `-ECANCELED`, are passed. -/
structure Same (s s' : State) (a : Nat) : Prop where
  object : s'.object a = s.object a
  suspended : s'.suspended a = s.suspended a
  outcome : s'.outcome a = s.outcome a
  live : (s.ring.live a).Perm (s'.ring.live a)
  awaits : s'.awaits.count a = s.awaits.count a
  returned : (s'.returned.map Prod.fst).count a = (s.returned.map Prod.fst).count a
  posted : ∃ cs, s'.posted = s.posted ++ cs ∧ ∀ c ∈ cs, c.data ≠ some a
  le : s.seen ≤ s'.seen
  passed : ∀ n c, s.seen ≤ n → n < s'.seen → s.posted[n]? = some c → c.data = some a →
    c.res = -ECANCELED

theorem Same.liveOk (hs : Same s s' a) (hnext : a < s'.next ↔ a < s.next) (h : LiveOk s a) :
    LiveOk s' a := by
  refine ⟨by rw [← hs.live.length_eq, hs.outcome]; exact h.one, fun hle => ?_⟩
  obtain ⟨hlive, houtcome⟩ := h.blank (by omega)
  have hnil := hs.live
  rw [hlive] at hnil
  exact ⟨hnil.symm.eq_nil, hs.outcome.trans houtcome⟩

theorem Same.operationOk (hs : Same s s' a) (hring : RingOk cfg s) (h : OperationOk cfg s a) :
    OperationOk cfg s' a := by
  obtain ⟨cs, hposted, hcs⟩ := hs.posted
  have hlen : s.seen ≤ s.posted.length := by rw [hring.tail]; exact hring.head
  have hget : ∀ n, n < s.seen → s'.posted[n]? = s.posted[n]? := by
    intro n hn
    rw [hposted, List.getElem?_append_left (by omega)]
  exact {
    prep := fun e he => h.prep e (hs.live.mem_iff.mpr he)
    once := by
      have hzero : cs.countP (fun c => c.data = some a) = 0 :=
        List.countP_eq_zero.mpr (by simpa using hcs)
      rw [← hs.live.length_eq, hposted, List.countP_append, hzero]
      exact h.once
    waits := by rw [hs.object, hs.suspended]; exact h.waits
    balance := by rw [hs.awaits, hs.returned, hs.suspended]; exact h.balance
    cqe := by
      rw [hs.object]
      intro slot hslot
      obtain ⟨n, c, hn, hc, hrest⟩ := h.cqe slot hslot
      exact ⟨n, c, Nat.lt_of_lt_of_le hn hs.le, (hget n hn).trans hc, hrest⟩
    seen := by
      rw [hs.object]
      intro halive hnone n c hn hc hdata
      by_cases hold : n < s.seen
      · exact h.seen halive hnone n c hold ((hget n hold).symm.trans hc) hdata
      · by_cases hlt : n < s.posted.length
        · rw [hposted, List.getElem?_append_left hlt] at hc
          exact hs.passed n c (by omega) hn hc hdata
        · rw [hposted, List.getElem?_append_right (by omega)] at hc
          exact absurd hdata (hcs c (List.mem_of_getElem? hc))
    outcome := by
      rw [hs.outcome, hposted]
      intro c hc hdata
      rcases List.mem_append.mp hc with hc | hc
      · exact h.outcome c hc hdata
      · exact absurd hdata (hcs c hc)
    returned := by
      rw [hs.object]
      intro hmem
      refine h.returned (List.count_pos_iff.mp ?_)
      rw [← hs.returned]
      exact List.count_pos_iff.mpr hmem }

theorem Same.blank (hs : Same s s' a) (h : Blank s a) : Blank s' a := by
  obtain ⟨cs, hposted, hcs⟩ := hs.posted
  refine ⟨?_, ?_, ?_, ?_⟩
  · rw [hposted]
    intro c hc
    rcases List.mem_append.mp hc with hc | hc
    · exact h.posted c hc
    · exact hcs c hc
  · rw [hs.suspended, h.suspended]
  · rw [← List.count_eq_zero, hs.awaits]
    exact List.count_eq_zero.mpr h.awaits
  · rw [← List.count_eq_zero, hs.returned]
    exact List.count_eq_zero.mpr h.returned

/-! ## Requests -/

theorem Ring.live_submit (r : Ring) (a : Nat) : r.submit.live a = r.live a := by
  rw [Ring.live, Ring.requests_submit, Ring.live]
  simp [Ring.submit]

theorem Drives.live {r r' : Ring} (h : Drives r r') (a : Nat) : r'.live a = r.live a := by
  induction h with
  | refl => rfl
  | submit _ ih => rw [Ring.live_submit, ih]
  | cancel b flags stale _ _ _ ih =>
      rw [← ih]
      simp [Ring.live, Ring.requests, Sqe.operation]

/-- The new entries are requests of the new operations. -/
theorem Prepares.operation {sqes : List (Sqe Request)} {o : Awaitable} (hprep : Prepares s s' sqes o)
    {e : Sqe Request} (he : e ∈ sqes) : e.operation = e.data := by
  have hkind := hprep.prep e he
  apply Sqe.operation_of_prep
  split at hkind
  · exact .inr hkind
  · exact .inl hkind

theorem Prepares.live {sqes : List (Sqe Request)} {o : Awaitable} (hprep : Prepares s s' sqes o)
    (a : Nat) : s'.ring.live a = s.ring.live a ++ sqes.filter fun e => e.data = some a := by
  have hfilter : sqes.filter (fun e => e.operation = some a) = sqes.filter fun e => e.data = some a :=
    List.filter_congr fun e he => by rw [hprep.operation he]
  rw [hprep.sq, ← hfilter]
  simp [Ring.live, Ring.requests]

theorem live_finished {i : Nat} {e : Sqe Request} {rest : List (Sqe Request)} {o : Outcome}
    (h : Finishes s i e rest o) (a : Nat) : (s.ring.live a).Perm
      ((if e.operation = some a then [e] else []) ++ (s.finished i e rest o).ring.live a) := by
  have hperm := ((requests_perm (o.severed || o.failed && !e.flags.ioHardlink) h.chain).append_right
    s.ring.sq).filter fun e => e.operation = some a
  rw [Ring.live, Ring.requests]
  refine hperm.trans (.of_eq ?_)
  split
  · next howner => simp [howner, Ring.live, Ring.requests, State.finished]
  · next howner => simp [howner, Ring.live, Ring.requests, State.finished]

/-! ## Steps -/

/-- Nothing is posted or passed. -/
theorem Same.quiet (hobject : s'.object a = s.object a) (hsuspended : s'.suspended a = s.suspended a)
    (houtcome : s'.outcome a = s.outcome a) (hlive : s'.ring.live a = s.ring.live a)
    (hawaits : s'.awaits.count a = s.awaits.count a)
    (hreturned : (s'.returned.map Prod.fst).count a = (s.returned.map Prod.fst).count a)
    (hposted : s'.posted = s.posted) (hseen : s'.seen = s.seen) : Same s s' a where
  object := hobject
  suspended := hsuspended
  outcome := houtcome
  live := .of_eq hlive.symm
  awaits := hawaits
  returned := hreturned
  posted := ⟨[], by simp [hposted]⟩
  le := Nat.le_of_eq hseen.symm
  passed := by
    intro n c hle hlt
    omega

/-- The loop passes a CQE. -/
theorem Same.pass (hring : RingOk cfg s) (hreap : Reaping s)
    (hother : (s.current cfg).data = some a → (s.current cfg).res = -ECANCELED)
    (hobject : s'.object a = s.object a) (hsuspended : s'.suspended a = s.suspended a)
    (hreturned : (s'.returned.map Prod.fst).count a = (s.returned.map Prod.fst).count a)
    (hrest : s' = { s.passed with
      object := s'.object, suspended := s'.suspended, returned := s'.returned, torn := s'.torn,
      running := s'.running }) : Same s s' a where
  object := hobject
  suspended := hsuspended
  outcome := by rw [hrest]; rfl
  live := by rw [hrest]; exact .refl _
  awaits := by rw [hrest]; rfl
  returned := hreturned
  posted := ⟨[], by rw [hrest]; simp [State.passed]⟩
  le := by rw [hrest]; simp [State.seen, State.passed, Phase.done]
  passed := by
    intro n c hle hlt hc hdata
    have hseen : s'.seen = s.seen + 1 := by rw [hrest]; rfl
    obtain rfl : n = s.seen := by omega
    have hcurrent := hring.current hreap
    rw [← State.seen, hc, Option.some.injEq] at hcurrent
    subst hcurrent
    exact hother hdata

theorem Prepares.same {sqes : List (Sqe Request)} {o : Awaitable} (hprep : Prepares s s' sqes o)
    (ha : a < s.next ∨ s'.next ≤ a) : Same s s' a := by
  have hnone : (sqes.filter fun e => e.data = some a) = [] := by
    rw [List.filter_eq_nil_iff]
    intro e he
    obtain ⟨b, hb, hlow, hhigh⟩ := hprep.data e he
    simp only [hb, Option.some.injEq, decide_eq_true_eq]
    omega
  have hlive := hprep.live a
  rw [hnone, List.append_nil] at hlive
  have hring := hprep.sq
  have hobject := hprep.object a
  rw [if_neg (by omega)] at hobject
  have hrest := hprep.rest
  refine .quiet hobject ?_ ?_ hlive ?_ ?_ ?_ ?_
  any_goals rw [hrest]
  simp only [State.seen]
  rw [hring]

/-- A fresh operation. -/
theorem Prepares.operationOk {sqes : List (Sqe Request)} {o : Awaitable}
    (hprep : Prepares s s' sqes o) (ho : o.multishot = false) (hlow : s.next ≤ a)
    (hhigh : a < s'.next) (hblank : s.ring.live a = []) (h : Blank s a) : OperationOk cfg s' a := by
  have hlive := hprep.live a
  rw [hblank, List.nil_append] at hlive
  have hobject := hprep.object a
  rw [if_pos ⟨hlow, hhigh⟩, hprep.fresh] at hobject
  have hrest := hprep.rest
  have hposted : s'.posted = s.posted := by rw [hrest]
  have hsuspended : s'.suspended a = none := by rw [hrest]; exact h.suspended
  have hawaits : s'.awaits.count a = 0 := by rw [hrest]; exact List.count_eq_zero.mpr h.awaits
  have hreturned : a ∉ s'.returned.map Prod.fst := by rw [hrest]; exact h.returned
  exact {
    prep := by
      intro e he
      rw [hlive] at he
      rw [hprep.prep e (List.mem_filter.mp he).1, ho]
      simp
    once := by
      have hcount := hprep.count a
      have hzero : s.posted.countP (fun c => c.data = some a) = 0 :=
        List.countP_eq_zero.mpr (by simpa using h.posted)
      rw [hposted, hzero, hlive, ← List.countP_eq_length_filter]
      simpa [List.count, List.countP_map, Function.comp_def, beq_eq_decide] using hcount
    waits := by simp [hsuspended]
    balance := by rw [hawaits, List.count_eq_zero.mpr hreturned, hsuspended]; rfl
    cqe := by simp [hobject]
    seen := by
      rw [hposted]
      intro _ _ n c _ hc hdata
      exact absurd hdata (h.posted c (List.mem_of_getElem? hc))
    outcome := by
      rw [hposted]
      intro c hc hdata
      exact absurd hdata (h.posted c hc)
    returned := fun hmem => absurd hmem hreturned }

/-- The only request of the operation. -/
theorem OperationOk.of_live (h : OperationOk cfg s a) {i : Nat} {e : Sqe Request}
    {rest : List (Sqe Request)} {o : Outcome} (hfinish : Finishes s i e rest o)
    (howner : e.operation = some a) :
    (s.finished i e rest o).ring.live a = [] ∧ ∀ c ∈ s.posted, c.data ≠ some a := by
  have hlive := (live_finished hfinish a).length_eq
  rw [if_pos howner, List.length_append, List.length_singleton] at hlive
  have honce := h.once
  have hzero : s.posted.countP (fun c => c.data = some a) = 0 := by omega
  refine ⟨List.length_eq_zero_iff.mp (by omega), fun c hc => ?_⟩
  simpa using List.countP_eq_zero.mp hzero c hc

theorem OperationOk.posted (h : OperationOk cfg s a) {i : Nat} {e : Sqe Request}
    {rest : List (Sqe Request)} {o : Outcome} (hfinish : Finishes s i e rest o)
    (howner : e.operation = some a) (hring : RingOk cfg s) :
    OperationOk cfg ((s.finished i e rest o).post cfg ⟨e.data, o.res, false⟩) a := by
  have hdata := Sqe.data_of_operation howner
  obtain ⟨hlive, hnone⟩ := h.of_live hfinish howner
  have hlive : ((s.finished i e rest o).post cfg ⟨e.data, o.res, false⟩).ring.live a = [] := hlive
  have hlen : s.seen ≤ s.posted.length := by rw [hring.tail]; exact hring.head
  have hzero : s.posted.countP (fun c => c.data = some a) = 0 :=
    List.countP_eq_zero.mpr (by simpa using hnone)
  have hget : ∀ n c, n < s.seen → (s.posted ++ [(⟨e.data, o.res, false⟩ : Cqe)])[n]? = some c →
      c.data ≠ some a := by
    intro n c hn hc
    rw [List.getElem?_append_left (by omega)] at hc
    exact hnone c (List.mem_of_getElem? hc)
  exact {
    prep := by simp [hlive]
    once := by
      rw [hlive]
      simp [State.post, State.finished, hzero, hdata]
    waits := h.waits
    balance := h.balance
    cqe := by
      intro slot hslot
      obtain ⟨n, c, hn, hc, hrest⟩ := h.cqe slot hslot
      exact absurd hrest.1 (hnone c (List.mem_of_getElem? hc))
    seen := fun _ _ n c hn hc hdata => absurd hdata (hget n c hn hc)
    outcome := by
      intro c hc hown
      rcases List.mem_append.mp hc with hc | hc
      · exact absurd hown (hnone c hc)
      · obtain rfl := List.mem_singleton.mp hc
        exact ⟨o, if_pos howner, rfl⟩
    returned := h.returned }

theorem OperationOk.silent (h : OperationOk cfg s a) {i : Nat} {e : Sqe Request}
    {rest : List (Sqe Request)} {o : Outcome} (hfinish : Finishes s i e rest o)
    (howner : e.operation = some a) :
    OperationOk cfg { s.finished i e rest o with silent := s.silent + 1 } a := by
  obtain ⟨hlive, hnone⟩ := h.of_live hfinish howner
  have hlive : ({ s.finished i e rest o with silent := s.silent + 1 } : State).ring.live a = [] :=
    hlive
  have honce := h.once
  exact {
    prep := by simp [hlive]
    once := by
      rw [hlive]
      simp only [State.finished, List.length_nil]
      omega
    waits := h.waits
    balance := h.balance
    cqe := h.cqe
    seen := h.seen
    outcome := fun c hc hown => absurd hown (hnone c hc)
    returned := h.returned }

@[simp] theorem reaped_object (s : State) (a : Nat) : (s.reaped cfg a).object a =
    { s.object a with userData := { (s.object a).userData with
      cqe := some (s.seen % cfg.cqEntries) } } := by
  simp [State.reaped, State.setUserData, State.setObject, State.passed, State.seen]

/-- The loop passes the CQE of the operation, which the coroutine does not wait
for any more. -/
theorem OperationOk.reaped (h : OperationOk cfg s a) (hring : RingOk cfg s) (hreap : Reaping s)
    (hres : (s.current cfg).res ≠ -ECANCELED) (hdata : (s.current cfg).data = some a)
    (hobject : s'.object a = (s.reaped cfg a).object a) (hsuspended : s'.suspended a = none)
    (hbalance : s'.awaits.count a = (s'.returned.map Prod.fst).count a)
    (hposted : s'.posted = s.posted) (hseen : s'.seen = s.seen + 1)
    (hsq : s'.ring = s.ring) (houtcome : s'.outcome = s.outcome) : OperationOk cfg s' a where
  prep := by rw [hsq]; exact h.prep
  once := by rw [hsq, hposted]; exact h.once
  waits := by simp [hsuspended]
  balance := by rw [hbalance, hsuspended]; rfl
  cqe := by
    rw [hobject, reaped_object, hposted, hseen]
    intro slot hslot
    obtain rfl := Option.some.inj hslot
    exact ⟨s.seen, s.current cfg, by omega, hring.current hreap, hdata, hres, rfl⟩
  seen := by simp [hobject]
  outcome := by rw [hposted, houtcome]; exact h.outcome
  returned := by simp [hobject]

/-- The operation is destroyed, and the loop passes its CQE. -/
theorem OperationOk.torn (h : OperationOk cfg s a) (halive : (s.object a).alive = false) :
    OperationOk cfg { s.passed with torn := true } a where
  prep := h.prep
  once := h.once
  waits := h.waits
  balance := h.balance
  cqe := by
    intro slot hslot
    obtain ⟨n, c, hn, hrest⟩ := h.cqe slot hslot
    exact ⟨n, c, Nat.lt_succ_of_lt hn, hrest⟩
  seen := fun halive' => by
    have halive' : (s.object a).alive = true := halive'
    simp [halive] at halive'
  outcome := h.outcome
  returned := h.returned

/-- The operation is destroyed, and nobody waits for it. -/
theorem OperationOk.discard (h : OperationOk cfg s a) (hfree : s.suspended a = none) :
    OperationOk cfg (dropOperation s a) a := by
  have hobject : (dropOperation s a).object a = { s.object a with alive := false } := by
    simp [dropOperation, State.setObject]
  exact {
    prep := h.prep
    once := h.once
    waits := by
      intro hd hsuspended
      have hsuspended : s.suspended a = some hd := hsuspended
      simp [hfree] at hsuspended
    balance := h.balance
    cqe := by rw [hobject]; exact h.cqe
    seen := by simp [hobject]
    outcome := h.outcome
    returned := by rw [hobject]; exact h.returned }

theorem OperationOk.suspend (h : OperationOk cfg s a) {hd : Handle} (hfree : s.suspended a = none)
    (hsqe : (s.object a).userData.sqe = true) (hcqe : (s.object a).userData.cqe = none)
    (halive : (s.object a).alive = true) :
    OperationOk cfg (s.suspend hd a) a := by
  have hobject : (s.suspend hd a).object a =
      { s.object a with userData := { (s.object a).userData with h := some hd } } := by
    simp [State.suspend, State.setUserData, State.setObject]
  have hsuspended : (s.suspend hd a).suspended a = some hd := by simp [State.suspend]
  have hbalance := h.balance
  exact {
    prep := h.prep
    once := h.once
    waits := by
      rw [hobject, hsuspended]
      intro hd' hd
      obtain rfl := Option.some.inj hd
      exact ⟨rfl, hsqe, hcqe, halive⟩
    balance := by
      rw [hsuspended]
      rw [hfree] at hbalance
      simpa [State.suspend, State.setUserData, State.setObject] using hbalance
    cqe := by rw [hobject]; simp [hcqe]
    seen := by rw [hobject]; exact h.seen
    outcome := h.outcome
    returned := by
      rw [hobject]
      exact h.returned }

/-- `co_await` of the operation returns. -/
theorem OperationOk.ready (h : OperationOk cfg s a) (hfree : s.suspended a = none)
    (hready : (s.object a).userData.sqe = false ∨ (s.object a).userData.cqe ≠ none) (res : Int) :
    OperationOk cfg { s with awaits := a :: s.awaits, returned := (a, res) :: s.returned } a where
  prep := h.prep
  once := h.once
  waits := h.waits
  balance := by
    have hbalance := h.balance
    rw [hfree] at hbalance
    rw [hfree]
    simpa using hbalance
  cqe := h.cqe
  seen := h.seen
  outcome := h.outcome
  returned := fun _ => hready

/-! ## Every address -/

structure AddressOk (cfg : Config) (s : State) (a : Nat) : Prop where
  operation : a < s.next → (s.object a).multishot = false → OperationOk cfg s a
  blank : s.next ≤ a → Blank s a

structure OperationsOk (cfg : Config) (s : State) : Prop where
  operation : ∀ a, a < s.next → (s.object a).multishot = false → OperationOk cfg s a
  blank : ∀ a, s.next ≤ a → Blank s a

/-- The operation has one CQE at most. -/
theorem OperationOk.unique (h : OperationOk cfg s a) {m n : Nat} {c c' : Cqe}
    (hm : s.posted[m]? = some c) (hn : s.posted[n]? = some c') (hc : c.data = some a)
    (hc' : c'.data = some a) : m = n := by
  have honce := h.once
  have hlt : ∀ {m n : Nat} {c c' : Cqe}, s.posted[m]? = some c → s.posted[n]? = some c' →
      c.data = some a → c'.data = some a → ¬m < n := by
    intro m n c c' hm hn hc hc' hmn
    obtain ⟨hlength, -⟩ := List.getElem?_eq_some_iff.mp hn
    have hfirst : 0 < (s.posted.take n).countP fun c => c.data = some a :=
      List.countP_pos_iff.mpr ⟨c, List.mem_of_getElem? ((List.getElem?_take_of_lt hmn).trans hm),
        by simpa using hc⟩
    have hsecond : 0 < (s.posted.drop n).countP fun c => c.data = some a :=
      List.countP_pos_iff.mpr ⟨c', List.mem_of_getElem? (i := 0) (by simpa using hn),
        by simpa using hc'⟩
    rw [← List.take_append_drop n s.posted, List.countP_append] at honce
    omega
  have := hlt hm hn hc hc'
  have := hlt hn hm hc' hc
  omega

/-- The address in a request, or in a CQE, belongs to an operation. -/
theorem LiveOk.lt_of_live (h : LiveOk s a) {e : Sqe Request} (he : e ∈ s.ring.requests ++ s.ring.sq)
    (howner : e.operation = some a) : a < s.next := by
  by_contra hle
  have hnil := (h.blank (by omega)).1
  rw [Ring.live, List.filter_eq_nil_iff] at hnil
  exact hnil e he (by simpa using howner)

theorem AddressOk.lt_of_posted (h : AddressOk cfg s a) {c : Cqe} (hc : c ∈ s.posted)
    (hdata : c.data = some a) : a < s.next := by
  by_contra hle
  exact (h.blank (by omega)).posted c hc hdata

theorem OperationsOk.address (h : OperationsOk cfg s) (a : Nat) : AddressOk cfg s a :=
  ⟨h.operation a, h.blank a⟩

theorem OperationsOk.lt_of_posted (h : OperationsOk cfg s) {c : Cqe} (hc : c ∈ s.posted)
    (hdata : c.data = some a) : a < s.next :=
  (h.address a).lt_of_posted hc hdata

/-- A request of another operation finishes. -/
theorem Same.finished {i : Nat} {e : Sqe Request} {rest : List (Sqe Request)} {o : Outcome}
    (hfinish : Finishes s i e rest o) (howner : e.operation ≠ some a) {cs : List Cqe}
    (hcs : ∀ c ∈ cs, c.data ≠ some a) (hlive : s'.ring.live a = (s.finished i e rest o).ring.live a)
    (hseen : s'.seen = s.seen) (hposted : s'.posted = s.posted ++ cs)
    (hrest : s' = { s.finished i e rest o with
      ring := s'.ring, posted := s'.posted, silent := s'.silent }) : Same s s' a where
  object := by rw [hrest]; rfl
  suspended := by rw [hrest]; rfl
  outcome := by rw [hrest]; exact if_neg howner
  live := by
    have hperm := live_finished hfinish a
    rw [if_neg howner, List.nil_append] at hperm
    rwa [hlive]
  awaits := by rw [hrest]; rfl
  returned := by rw [hrest]; rfl
  posted := ⟨cs, hposted, hcs⟩
  le := Nat.le_of_eq hseen.symm
  passed := by
    intro n c hle hlt
    omega

@[simp] theorem setUserData_object_of_ne {b : Nat} (d : AsyncUserData) (h : a ≠ b) :
    (s.setUserData b d).object a = s.object a := by
  simp [State.setUserData, State.setObject, h]

/-- The CQE that a step of the kernel posts. -/
def State.nextCqe (s : State) : Label → Option Cqe
  | .finish i res failed post =>
      match s.ring.flight[i]? with
      | some ⟨e :: _, severed⟩ => if posts e severed failed post then some ⟨e.data, res, false⟩ else none
      | _ => none
  | .more i res =>
      match s.ring.flight[i]? with
      | some ⟨e :: _, _⟩ => some ⟨e.data, res, true⟩
      | _ => none
  | _ => none

/-- The request that a step of the kernel is about. -/
def State.nextSqe (s : State) : Label → Option (Sqe Request)
  | .finish i _ _ _ => (s.ring.flight[i]?).bind fun c => c.members.head?
  | .more i _ => (s.ring.flight[i]?).bind fun c => c.members.head?
  | _ => none

/-- The CQE of a request has its user data. -/
theorem nextCqe_data {l : Label} {e : Sqe Request} {c : Cqe} (he : e ∈ s.nextSqe l) (hc : c ∈ s.nextCqe l) :
    ∃ (i : Nat) (rest : List (Sqe Request)) (severed : Bool),
      s.ring.flight[i]? = some ⟨e :: rest, severed⟩ ∧ c.data = e.data := by
  have hhead : ∀ i : Nat, e ∈ (s.ring.flight[i]?).bind (fun c : Chain => c.members.head?) →
      ∃ (rest : List (Sqe Request)) (severed : Bool), s.ring.flight[i]? = some ⟨e :: rest, severed⟩ := by
    intro i he
    obtain ⟨⟨members, severed⟩, hchain, hmember⟩ := Option.bind_eq_some_iff.mp he
    cases members with
    | nil => cases hmember
    | cons e' rest =>
        obtain rfl : e' = e := Option.some.inj hmember
        exact ⟨rest, severed, hchain⟩
  cases l with
  | finish i res failed post =>
      obtain ⟨rest, severed, hchain⟩ := hhead i he
      simp only [State.nextCqe, hchain, Option.mem_def] at hc
      split at hc
      · exact ⟨i, rest, severed, hchain, by rw [← Option.some.inj hc]⟩
      · cases hc
  | more i res =>
      obtain ⟨rest, severed, hchain⟩ := hhead i he
      simp only [State.nextCqe, hchain, Option.mem_def] at hc
      exact ⟨i, rest, severed, hchain, by rw [← Option.some.inj hc]⟩
  | _ => cases he

/-- The step posts no CQE with the address for a request that is not the one of the operation
there: the user data of a cancellation is another one. -/
def Spares (a : Nat) (s : State) (l : Label) : Prop :=
  ∀ e ∈ s.nextSqe l, e.operation ≠ some a → ∀ c ∈ s.nextCqe l, c.data ≠ some a

instance (a : Nat) (s : State) (l : Label) : Decidable (Spares a s l) :=
  inferInstanceAs (Decidable (∀ _ ∈ _, _ → _))

/-- Either a CQE is posted, or the loop over the ring passes one. -/
theorem Step.seen {l : Label} (hstep : Step cfg s l s') :
    (s'.seen = s.seen ∧ s'.posted = s.posted ++ (s.nextCqe l).toList) ∨
      (l = .go ∧ Reaping s ∧ s'.seen = s.seen + 1 ∧ s'.posted = s.posted) := by
  have hnil : s.posted = s.posted ++ [] := (List.append_nil _).symm
  cases hstep with
  | runOnce hphase => exact .inl ⟨by simp [State.seen, prepareStep, hphase, Phase.done], hnil⟩
  | launched _ hphase => exact .inl ⟨by simp [State.seen, hphase, Phase.done], hnil⟩
  | resume _ hphase _ => exact .inl ⟨by simp [State.seen, hphase, Phase.done], hnil⟩
  | submit _ hphase =>
      refine .inl ⟨?_, hnil⟩
      simp only [State.seen, submitStep, hphase]
      split <;> rfl
  | skip hreap _ => exact .inr ⟨rfl, hreap, rfl, rfl⟩
  | torn hreap _ _ _ => exact .inr ⟨rfl, hreap, rfl, rfl⟩
  | eager hreap _ _ _ _ => exact .inr ⟨rfl, hreap, rfl, rfl⟩
  | @complete a hd hreap _ _ _ _ _ =>
      obtain ⟨d, res, heq⟩ := awaitResume_eq (s.reaped cfg a) a
      rw [heq]
      exact .inr ⟨rfl, hreap, rfl, rfl⟩
  | leave _ _ _ _ _ => exact .inl ⟨by simp [State.seen, State.left, Phase.done], hnil⟩
  | posted hfinish _ hposts =>
      refine .inl ⟨rfl, ?_⟩
      simp [State.nextCqe, hfinish.chain, hposts, State.post, State.finished]
  | silent hfinish hposts =>
      refine .inl ⟨rfl, ?_⟩
      simp [State.nextCqe, hfinish.chain, hposts, State.finished]
  | more hchain _ _ =>
      refine .inl ⟨rfl, ?_⟩
      simp [State.nextCqe, hchain, State.post]
  | construct hact hs' =>
      obtain ⟨sqes, o, hprep, -⟩ := constructStep_prepares (UserAct.prep_of_constructs hact) hs'
      rw [hprep.rest]
      exact .inl ⟨by simp [State.seen, hprep.sq], hnil⟩
  | link hs' =>
      obtain ⟨_, _, _, hprep, -⟩ := linkStep_prepares hs'
      rw [hprep.rest]
      exact .inl ⟨by simp [State.seen, hprep.sq], hnil⟩
  | @ready a _ _ _ _ =>
      obtain ⟨d, res, heq⟩ := awaitResume_eq { s with awaits := a :: s.awaits } a
      rw [heq]
      exact .inl ⟨rfl, hnil⟩
  | @drop a stale _ _ _ _ =>
      obtain ⟨r, hdrives, heq⟩ := dropMultishot_drives cfg s a stale
      rw [heq]
      exact .inl ⟨by simp [State.seen, dropOperation, State.setObject, hdrives.same.1], hnil⟩
  | _ => exact .inl ⟨rfl, hnil⟩

/-- The steps that are about one operation. -/
inductive Concerns (cfg : Config) (s : State) (a : Nat) : Label → State → Prop
  | torn (hreap : Reaping s) (hres : (s.current cfg).res ≠ -ECANCELED)
      (hdata : (s.current cfg).data = some a) (halive : (s.object a).alive = false) :
      Concerns cfg s a .go { s.passed with torn := true }
  | eager (hreap : Reaping s) (hres : (s.current cfg).res ≠ -ECANCELED)
      (hdata : (s.current cfg).data = some a) (hh : (s.object a).userData.h = none) :
      Concerns cfg s a .go (s.reaped cfg a)
  | complete {h : Handle} (hreap : Reaping s) (hres : (s.current cfg).res ≠ -ECANCELED)
      (hdata : (s.current cfg).data = some a) (hh : (s.object a).userData.h = some h)
      (hsuspended : s.suspended a = some h) :
      Concerns cfg s a .go { (s.reaped cfg a).awaitResume a with
        suspended := Function.update s.suspended a none
        running := some h }
  | posted {i : Nat} {e : Sqe Request} {rest : List (Sqe Request)} {o : Outcome} {post : Bool}
      (hfinish : Finishes s i e rest o) (howner : e.operation = some a)
      (hposts : posts e o.severed o.failed post = true) :
      Concerns cfg s a (.finish i o.res o.failed post)
        ((s.finished i e rest o).post cfg ⟨e.data, o.res, false⟩)
  | stray {i : Nat} {e : Sqe Request} {rest : List (Sqe Request)} {o : Outcome} {post : Bool}
      (hfinish : Finishes s i e rest o) (howner : e.operation ≠ some a) (hdata : e.data = some a)
      (hposts : posts e o.severed o.failed post = true) :
      Concerns cfg s a (.finish i o.res o.failed post)
        ((s.finished i e rest o).post cfg ⟨e.data, o.res, false⟩)
  | silent {i : Nat} {e : Sqe Request} {rest : List (Sqe Request)} {o : Outcome} {post : Bool}
      (hfinish : Finishes s i e rest o) (howner : e.operation = some a) :
      Concerns cfg s a (.finish i o.res o.failed post)
        { s.finished i e rest o with silent := s.silent + 1 }
  | more {i : Nat} {res : Int} {e : Sqe Request} {rest : List (Sqe Request)} {severed : Bool}
      (hchain : s.ring.flight[i]? = some ⟨e :: rest, severed⟩) (hprep : e.prep = .multishot)
      (hdata : e.data = some a) : Concerns cfg s a (.more i res) (s.post cfg ⟨e.data, res, true⟩)
  | fresh {act : UserAct} {sqes : List (Sqe Request)} {o : Awaitable} {s' : State}
      (hprep : Prepares s s' sqes o) (hlow : s.next ≤ a) (hhigh : a < s'.next)
      (hact : o.multishot = true → act = .asyncMultishotOperation ∧ s'.next = s.next + 1) :
      Concerns cfg s a (.user act) s'
  | suspend {h : Handle} (hrun : s.running = some h) (ha : a < s.next) (hfree : s.suspended a = none)
      (hsqe : (s.object a).userData.sqe = true) (hcqe : (s.object a).userData.cqe = none)
      (halive : (s.object a).alive = true) :
      Concerns cfg s a (.user (.await a)) (s.suspend h a)
  | ready (ha : a < s.next) (hfree : s.suspended a = none)
      (hready : (s.object a).userData.sqe = false ∨ (s.object a).userData.cqe ≠ none) :
      Concerns cfg s a (.user (.await a)) ({ s with awaits := a :: s.awaits }.awaitResume a)
  | discard (ha : a < s.next) (hplain : (s.object a).multishot = false) (hfree : s.suspended a = none) :
      Concerns cfg s a (.user (.dropOperation a)) (dropOperation s a)
  | drop {stale : Option Nat} (ha : a < s.next) (hmultishot : (s.object a).multishot = true)
      (hfree : s.suspended a = none) :
      Concerns cfg s a (.user (.dropMultishot a stale)) (dropMultishot cfg s a stale)

/-- Every other step leaves the operation as it is. -/
theorem Step.same_or_concerns {l : Label} (hring : RingOk cfg s) (hstep : Step cfg s l s')
    (a : Nat) : (Same s s' a ∧ (a < s'.next ↔ a < s.next)) ∨ Concerns cfg s a l s' := by
  cases hstep with
  | runOnce hphase =>
      refine .inl ⟨.quiet rfl rfl rfl rfl rfl rfl rfl ?_, Iff.rfl⟩
      simp [State.seen, prepareStep, hphase, Phase.done]
  | launched _ hphase =>
      refine .inl ⟨.quiet rfl rfl rfl rfl rfl rfl rfl ?_, Iff.rfl⟩
      simp [State.seen, hphase, Phase.done]
  | resume _ hphase _ =>
      refine .inl ⟨.quiet rfl rfl rfl rfl rfl rfl rfl ?_, Iff.rfl⟩
      simp [State.seen, hphase, Phase.done]
  | submit _ hphase =>
      refine .inl ⟨.quiet rfl rfl rfl (Ring.live_submit s.ring a) rfl rfl rfl ?_, Iff.rfl⟩
      simp only [State.seen, submitStep, hphase]
      split <;> rfl
  | skip hreap hres => exact .inl ⟨.pass hring hreap (fun _ => hres) rfl rfl rfl rfl, Iff.rfl⟩
  | @torn b hreap hres hdata halive =>
      by_cases hab : a = b
      · subst hab
        exact .inr (.torn hreap hres hdata halive)
      · refine .inl ⟨.pass hring hreap (fun hdata' => ?_) rfl rfl rfl rfl, Iff.rfl⟩
        exact absurd (Option.some.inj (hdata'.symm.trans hdata)) hab
  | @eager b hreap hres hdata halive hh =>
      by_cases hab : a = b
      · subst hab
        exact .inr (.eager hreap hres hdata hh)
      · refine .inl ⟨.pass hring hreap (fun hdata' => ?_) (setUserData_object_of_ne _ hab) rfl rfl rfl,
          Iff.rfl⟩
        exact absurd (Option.some.inj (hdata'.symm.trans hdata)) hab
  | @complete b hd hreap hres hdata halive hh hsuspended =>
      by_cases hab : a = b
      · subst hab
        exact .inr (.complete hreap hres hdata hh hsuspended)
      · obtain ⟨d, res, heq⟩ := awaitResume_eq (s.reaped cfg b) b
        rw [heq]
        refine .inl ⟨.pass hring hreap (fun hdata' => ?_) ?_ (Function.update_of_ne hab _ _) ?_ rfl, Iff.rfl⟩
        · exact absurd (Option.some.inj (hdata'.symm.trans hdata)) hab
        · exact (Function.update_of_ne hab _ _).trans (setUserData_object_of_ne _ hab)
        · exact List.count_cons_of_ne (Ne.symm hab)
  | leave hrun hphase hle hinflight hdone =>
      refine .inl ⟨.quiet rfl rfl rfl rfl rfl rfl rfl ?_, Iff.rfl⟩
      simp [State.seen, State.left, Phase.done]
  | @posted i e rest o post hfinish hroom hposts =>
      by_cases howner : e.operation = some a
      · exact .inr (.posted hfinish howner hposts)
      · by_cases hdata : e.data = some a
        · exact .inr (.stray hfinish howner hdata hposts)
        · exact .inl ⟨.finished hfinish howner (by simpa using hdata) rfl rfl rfl rfl, Iff.rfl⟩
  | @silent i e rest o post hfinish hposts =>
      by_cases howner : e.operation = some a
      · exact .inr (.silent hfinish howner)
      · exact .inl ⟨.finished hfinish howner (by simp) rfl rfl (List.append_nil _).symm rfl, Iff.rfl⟩
  | @more i res e rest severed hchain hprep hroom =>
      by_cases hdata : e.data = some a
      · exact .inr (.more hchain hprep hdata)
      · refine .inl ⟨?_, Iff.rfl⟩
        exact {
          object := rfl, suspended := rfl, outcome := rfl, live := .refl _, awaits := rfl, returned := rfl
          posted := ⟨[⟨e.data, res, true⟩], rfl, by simpa using hdata⟩
          le := Nat.le_refl _
          passed := by intro n c hle hlt; exact absurd hlt (Nat.not_lt.mpr hle) }
  | @construct act prep drain _ hact hs' =>
      obtain ⟨sqes, o, hprep, -, hnext, ho, -⟩ :=
        constructStep_prepares (UserAct.prep_of_constructs hact) hs'
      by_cases hnew : s.next ≤ a ∧ a < s'.next
      · refine .inr (.fresh hprep hnew.1 hnew.2 fun hmultishot => ⟨?_, hnext⟩)
        rw [ho.mp hmultishot] at hact
        cases act <;> simp [UserAct.constructs] at hact ⊢
      · exact .inl ⟨hprep.same (by omega), by omega⟩
  | link hs' =>
      obtain ⟨_, _, _, hprep, -⟩ := linkStep_prepares hs'
      by_cases hnew : s.next ≤ a ∧ a < s'.next
      · exact .inr (.fresh hprep hnew.1 hnew.2 (by simp))
      · have hnext := hprep.next
        exact .inl ⟨hprep.same (by omega), by omega⟩
  | @suspend b hd hrun hb halive hfree hsqe hcqe =>
      by_cases hab : a = b
      · subst hab
        exact .inr (.suspend hrun hb hfree hsqe hcqe halive)
      · exact .inl ⟨.quiet (setUserData_object_of_ne _ hab) (Function.update_of_ne hab _ _) rfl rfl
          (List.count_cons_of_ne (Ne.symm hab)) rfl rfl rfl, Iff.rfl⟩
  | @ready b hb halive hfree hready =>
      by_cases hab : a = b
      · subst hab
        exact .inr (.ready hb hfree hready)
      · obtain ⟨d, res, heq⟩ := awaitResume_eq { s with awaits := b :: s.awaits } b
        rw [heq]
        exact .inl ⟨.quiet (Function.update_of_ne hab _ _) rfl rfl rfl
          (List.count_cons_of_ne (Ne.symm hab)) (List.count_cons_of_ne (Ne.symm hab)) rfl rfl, Iff.rfl⟩
  | @discard b hb hplain halive hfree =>
      by_cases hab : a = b
      · subst hab
        exact .inr (.discard hb hplain hfree)
      · exact .inl ⟨.quiet (Function.update_of_ne hab _ _) rfl rfl rfl rfl rfl rfl rfl, Iff.rfl⟩
  | @drop b stale hb hmultishot halive hfree =>
      by_cases hab : a = b
      · subst hab
        exact .inr (.drop hb hmultishot hfree)
      · obtain ⟨r, hdrives, heq⟩ := dropMultishot_drives cfg s b stale
        obtain ⟨hhead, -, -⟩ := hdrives.same
        rw [heq]
        exact .inl ⟨.quiet (Function.update_of_ne hab _ _) rfl rfl (hdrives.live a) rfl rfl rfl
          (by simp [State.seen, dropOperation, State.setObject, hhead]), Iff.rfl⟩
  | _ => exact .inl ⟨.quiet rfl rfl rfl rfl rfl rfl rfl rfl, Iff.rfl⟩

/-- A request of the operation finishes. -/
theorem LiveOk.finished (h : LiveOk s a) {i : Nat} {e : Sqe Request} {rest : List (Sqe Request)}
    {o : Outcome} (hfinish : Finishes s i e rest o) (howner : e.operation = some a)
    (hlive : s'.ring.live a = (s.finished i e rest o).ring.live a)
    (houtcome : s'.outcome = (s.finished i e rest o).outcome) (hnext : s'.next = s.next) : LiveOk s' a := by
  have hlength := (live_finished hfinish a).length_eq
  have hlt := h.lt_of_live (List.mem_append_left _ (mem_requests hfinish.chain)) howner
  have hone := h.one
  have hsome : s'.outcome a = some o := by
    rw [houtcome]
    exact if_pos howner
  rw [if_pos howner, List.length_append, List.length_singleton] at hlength
  refine ⟨?_, fun hle => by omega⟩
  rw [hlive, hsome, Option.toList_some, List.length_singleton]
  omega

/-- Nothing is left of a request that has finished. -/
theorem LiveOk.nil (h : LiveOk s a) (ho : s.outcome a ≠ none) : s.ring.live a = [] := by
  obtain ⟨o, ho⟩ := Option.ne_none_iff_exists'.mp ho
  have hone := h.one
  rw [ho, Option.toList_some, List.length_singleton] at hone
  exact List.length_eq_zero_iff.mp (by omega)

theorem LiveOk.concerns {l : Label} (h : LiveOk s a) (hstep : Concerns cfg s a l s') : LiveOk s' a := by
  cases hstep with
  | complete _ _ _ _ _ =>
      obtain ⟨d, res, heq⟩ := awaitResume_eq (s.reaped cfg a) a
      rw [heq]
      exact ⟨h.one, h.blank⟩
  | posted hfinish howner _ => exact h.finished hfinish howner rfl rfl rfl
  | silent hfinish howner => exact h.finished hfinish howner rfl rfl rfl
  | @stray i e rest o post hfinish howner _ _ =>
      have hperm := live_finished hfinish a
      rw [if_neg howner, List.nil_append] at hperm
      have houtcome : (s.finished i e rest o).outcome a = s.outcome a := if_neg howner
      have hone := h.one
      rw [hperm.length_eq, ← houtcome] at hone
      refine ⟨hone, fun hle => ⟨?_, houtcome.trans (h.blank hle).2⟩⟩
      rw [(h.blank hle).1] at hperm
      exact hperm.symm.eq_nil
  | fresh hprep hlow hhigh _ =>
      obtain ⟨hlive, houtcome⟩ := h.blank hlow
      have hcount := hprep.count a
      have hsame : s'.outcome a = none := by
        rw [hprep.rest]
        exact houtcome
      refine ⟨?_, fun hle => by omega⟩
      rw [hprep.live, hlive, hsame, List.nil_append, ← List.countP_eq_length_filter]
      simpa [List.count, List.countP_map, Function.comp_def, beq_eq_decide] using hcount
  | ready _ _ _ =>
      obtain ⟨d, res, heq⟩ := awaitResume_eq { s with awaits := a :: s.awaits } a
      rw [heq]
      exact ⟨h.one, h.blank⟩
  | @drop stale _ _ _ =>
      obtain ⟨r, hdrives, heq⟩ := dropMultishot_drives cfg s a stale
      rw [heq]
      refine ⟨?_, ?_⟩
      · exact (hdrives.live a).symm ▸ h.one
      · exact (hdrives.live a).symm ▸ h.blank
  | _ => exact ⟨h.one, h.blank⟩

theorem reachable_live {ok : State → Label → Prop} (h : (machine cfg).Reach ok s) (a : Nat) :
    LiveOk s a := by
  refine h.invariant (LiveOk · a) (fun s hs => ?_) fun s l s' hreach ih _ hstep => ?_
  · obtain ⟨-, -, -, -, -, hsq, hflight, -, -, -, -, -, -, -, houtcome, -⟩ := hs
    have hnil : s.ring.live a = [] := by simp [Ring.live, Ring.requests, hsq, hflight]
    exact ⟨by simp [hnil, houtcome a], fun _ => ⟨hnil, houtcome a⟩⟩
  · rcases (Step.of_step hstep).same_or_concerns (reachable_ring hreach) a with ⟨hsame, hlt⟩ | hconcerns
    · exact hsame.liveOk hlt ih
    · exact ih.concerns hconcerns

/-- A step about an operation that is there, and to a plain one. -/
theorem AddressOk.concerns {l : Label} (h : AddressOk cfg s a) (hlive : LiveOk s a) (hring : RingOk cfg s)
    (hok : Spares a s l) (hstep : Concerns cfg s a l s') :
    a < s'.next ∧ ((s'.object a).multishot = false → OperationOk cfg s' a) := by
  cases hstep with
  | torn hreap hres hdata halive =>
      have ha := h.lt_of_posted (List.mem_of_getElem? (hring.current hreap)) hdata
      exact ⟨ha, fun hplain => (h.operation ha hplain).torn halive⟩
  | eager hreap hres hdata hh =>
      have ha := h.lt_of_posted (List.mem_of_getElem? (hring.current hreap)) hdata
      refine ⟨ha, fun hplain => ?_⟩
      have hop := h.operation ha (by simpa using hplain)
      have hfree : s.suspended a = none := by
        by_contra hsome
        obtain ⟨hd, hsuspended⟩ := Option.ne_none_iff_exists'.mp hsome
        simp [(hop.waits hd hsuspended).1] at hh
      have hbalance := hop.balance
      rw [hfree] at hbalance
      exact hop.reaped hring hreap hres hdata rfl hfree hbalance rfl rfl rfl rfl
  | complete hreap hres hdata hh hsuspended =>
      have ha := h.lt_of_posted (List.mem_of_getElem? (hring.current hreap)) hdata
      obtain ⟨d, res, heq⟩ := awaitResume_eq (s.reaped cfg a) a
      refine ⟨by rw [heq]; exact ha, fun hplain => ?_⟩
      have hplain : ((s.reaped cfg a).object a).multishot = false := by
        simpa only [awaitResume_multishot] using hplain
      have hop := h.operation ha (by simpa using hplain)
      have hbalance := hop.balance
      rw [hsuspended, Option.toList_some, List.length_singleton] at hbalance
      rw [awaitResume_plain hplain]
      exact hop.reaped hring hreap hres hdata rfl (Function.update_self _ _ _)
        (hbalance.trans List.count_cons_self.symm) rfl rfl rfl rfl
  | posted hfinish howner _ =>
      have ha := hlive.lt_of_live (List.mem_append_left _ (mem_requests hfinish.chain)) howner
      exact ⟨ha, fun hplain => (h.operation ha hplain).posted hfinish howner hring⟩
  | @stray i e rest o post hfinish howner hdata hposts =>
      refine absurd hdata (hok e ?_ howner ⟨e.data, o.res, false⟩ ?_)
      · simp [State.nextSqe, hfinish.chain]
      · simp [State.nextCqe, hfinish.chain, hposts]
  | silent hfinish howner =>
      have ha := hlive.lt_of_live (List.mem_append_left _ (mem_requests hfinish.chain)) howner
      exact ⟨ha, fun hplain => (h.operation ha hplain).silent hfinish howner⟩
  | more hchain hprep hdata =>
      have hmem := List.mem_append_left s.ring.sq (mem_requests hchain)
      have howner := (Sqe.operation_of_prep (.inr hprep)).trans hdata
      have ha := hlive.lt_of_live hmem howner
      refine ⟨ha, fun hplain => ?_⟩
      exact absurd hprep ((h.operation ha hplain).prep _
        (List.mem_filter.mpr ⟨hmem, by simpa using howner⟩))
  | fresh hprep hlow hhigh _ =>
      refine ⟨hhigh, fun hplain => ?_⟩
      rw [hprep.object, if_pos ⟨hlow, hhigh⟩] at hplain
      exact hprep.operationOk hplain hlow hhigh (hlive.blank hlow).1 (h.blank hlow)
  | suspend hrun ha hfree hsqe hcqe halive =>
      refine ⟨ha, fun hplain => ?_⟩
      have hplain : (s.object a).multishot = false := by
        simpa [State.suspend, State.setUserData, State.setObject] using hplain
      exact (h.operation ha hplain).suspend hfree hsqe hcqe halive
  | ready ha hfree hready =>
      obtain ⟨d, res, heq⟩ := awaitResume_eq { s with awaits := a :: s.awaits } a
      refine ⟨by rw [heq]; exact ha, fun hplain => ?_⟩
      have hplain : (s.object a).multishot = false := by
        simpa only [awaitResume_multishot] using hplain
      rw [awaitResume_plain (s := { s with awaits := a :: s.awaits }) hplain]
      exact (h.operation ha hplain).ready hfree hready _
  | discard ha hplain hfree => exact ⟨ha, fun _ => (h.operation ha hplain).discard hfree⟩
  | drop ha hmultishot _ =>
      refine ⟨ha, fun hplain => ?_⟩
      simp [dropMultishot, dropOperation, State.setObject, hmultishot] at hplain

theorem AddressOk.step {l : Label} (h : AddressOk cfg s a) (hlive : LiveOk s a) (hring : RingOk cfg s)
    (hok : Spares a s l) (hstep : Step cfg s l s') : AddressOk cfg s' a := by
  refine ⟨fun ha hplain => ?_, fun ha => ?_⟩
  · rcases hstep.same_or_concerns hring a with ⟨hsame, hlt⟩ | hconcerns
    · exact hsame.operationOk hring (h.operation (hlt.mp ha) (hsame.object ▸ hplain))
    · exact (h.concerns hlive hring hok hconcerns).2 hplain
  · rcases hstep.same_or_concerns hring a with ⟨hsame, hlt⟩ | hconcerns
    · exact hsame.blank (h.blank (by omega))
    · have hlt := (h.concerns hlive hring hok hconcerns).1
      omega

theorem reachable_address (h : (machine cfg).Reach (Spares a) s) : AddressOk cfg s a := by
  refine h.invariant (AddressOk cfg · a) (fun s hs => ?_) fun s l s' hreach hop hok hstep =>
    hop.step (reachable_live hreach a) (reachable_ring hreach) hok (.of_step hstep)
  obtain ⟨-, -, -, -, -, -, -, -, -, hnext, hsuspended, hposted, -, -, -, hawaits, hreturned, -⟩ := hs
  refine ⟨fun ha => ?_, fun _ => ?_⟩
  · rw [hnext] at ha
    exact absurd ha (Nat.not_lt_zero a)
  · exact ⟨by simp [hposted], hsuspended a, by simp [hawaits], by simp [hreturned]⟩

end IoUring.Coroutine
