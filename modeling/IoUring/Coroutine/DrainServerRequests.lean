import IoUring.Coroutine.ContextDrain
import IoUring.Coroutine.DrainServerStep

/-!
# The requests of the drain server

Operations have increasing addresses, so that the order of the requests in the rings is the
order of the addresses, and the drain requests are barriers in it.
-/

namespace IoUring.Coroutine.DrainServer

variable {cfg : Config} {s s' : State} {p p' : Program}

/-! ## The accept operations -/

@[simp] theorem goto_accepts (f : Nat) (pc : Point) : (p.goto f pc).accepts = p.accepts := rfl

@[simp] theorem spawn_accepts (f child : Nat) : (p.spawn f child).accepts = p.accepts := rfl

theorem construct_accepts {f : Nat} {drain : Bool} (a : Nat) (hact : (p.point f).act =
    some (if drain then .asyncDrainOperation else .asyncOperation)) :
    (p.construct f a).accepts = if drain then p.accepts ++ [a] else p.accepts := by
  cases drain <;> cases hpc : p.point f <;> simp [hpc, Point.act] at hact <;>
    simp [Program.construct, hpc]

/-! ## Entries -/

theorem getElem?_split {α : Type*} {l : List α} {i : Nat} {x : α} (h : l[i]? = some x) :
    l = l.take i ++ x :: l.drop (i + 1) := by
  obtain ⟨hlt, rfl⟩ := List.getElem?_eq_some_iff.mp h
  rw [← List.drop_eq_getElem_cons hlt, List.take_append_drop]

/-- The requests before, of and behind a chain. -/
theorem requests_split {r : Ring} {i : Nat} {c : Chain} (h : r.flight[i]? = some c) :
    r.requests = (r.flight.take i).flatMap Chain.members ++
      (c.members ++ (r.flight.drop (i + 1)).flatMap Chain.members) := by
  conv_lhs => rw [Ring.requests, getElem?_split h]
  simp

theorem finished_requests {i : Nat} {e : Sqe Request} {o : Outcome} (h : Finishes s i e [] o) :
    (s.finished i e [] o).ring.requests = (s.ring.flight.take i).flatMap Chain.members ++
      (s.ring.flight.drop (i + 1)).flatMap Chain.members := by
  obtain ⟨hlt, -⟩ := List.getElem?_eq_some_iff.mp h.chain
  simp [Ring.requests, State.finished, List.set_eq_take_append_cons_drop, hlt]

theorem finished_sublist {i : Nat} {e : Sqe Request} {o : Outcome} (h : Finishes s i e [] o) :
    ((s.finished i e [] o).ring.requests ++ s.ring.sq).Sublist (s.ring.requests ++ s.ring.sq) := by
  rw [finished_requests h, requests_split h.chain]
  exact ((List.sublist_append_right _ _).append_left _).append_right _

theorem construct_sqe (h : constructStep cfg s .oneshot true = some s') :
    (s'.object s.next).userData.sqe = true := by
  by_cases hroom : s.ring.sq.length < cfg.entries
  · simp only [constructStep, asyncOperation, State.sqRing, hroom, if_true, Option.some.injEq] at h
    rw [← h]
    simp [State.construct]
  · simp [constructStep, asyncOperation, State.sqRing, hroom] at h

/-- What the construction of an operation does to the ring and to the operations. -/
structure Constructs (s s' : State) (drain : Bool) : Prop where
  entries : ∃ entries, s'.ring.sq = s.ring.sq ++ entries ∧ entries.length ≤ 1 ∧
    (∀ e ∈ entries, e.operation = some s.next ∧ e.flags = { ioDrain := drain }) ∧
    ((s'.object s.next).userData.sqe = true → entries ≠ [])
  next : s'.next = s.next + 1
  object : ∀ a, a ≠ s.next → s'.object a = s.object a
  own : (s'.object s.next).userData.cqe = none ∧ (drain = true → (s'.object s.next).userData.sqe = true)
  rest : s' = { s with ring := s'.ring, next := s'.next, object := s'.object, chains := s'.chains }
  ring : s'.ring = { s.ring with sq := s'.ring.sq }

theorem Constructs.of_step {drain : Bool} (h : constructStep cfg s .oneshot drain = some s') :
    Constructs s s' drain := by
  obtain ⟨sqes, o, hprep, -, hnext, -, hsqes, hsqe⟩ := constructStep_prepares (.inl rfl) h
  have hobject := hprep.object s.next
  rw [if_pos ⟨le_rfl, by omega⟩] at hobject
  have hlength : sqes.length ≤ 1 := by
    have hcount := hprep.count s.next
    rwa [List.count_eq_length.mpr, List.length_map] at hcount
    intro x hx
    obtain ⟨e, he, rfl⟩ := List.mem_map.mp hx
    exact ((hsqes e he).2).symm
  refine ⟨⟨sqes, by rw [hprep.sq], hlength, fun e he =>
      ⟨(hprep.operation he).trans (hsqes e he).2, (hsqes e he).1⟩, fun hown => ?_⟩, hnext,
    fun a ha => ?_, ⟨?_, ?_⟩, hprep.rest, by rw [hprep.sq]⟩
  · rw [hobject] at hown
    exact hsqe hown
  · rw [hprep.object, if_neg (by omega)]
  · rw [hobject, hprep.fresh]
  · rintro rfl
    exact construct_sqe h

/-! ## Steps -/

namespace RequestsOk

/-- Neither the rings nor the accept operations change. -/
theorem same (h : RequestsOk s p) (hsq : s'.ring.sq = s.ring.sq) (hflight : s'.ring.flight = s.ring.flight)
    (hposted : s'.posted = s.posted) (hnext : s'.next = s.next)
    (hsqe : ∀ a, (s'.object a).userData.sqe = (s.object a).userData.sqe)
    (haccepts : p'.accepts = p.accepts) : RequestsOk s' p' := by
  have hrequests : s'.ring.requests = s.ring.requests := by rw [Ring.requests, hflight, Ring.requests]
  have hissued : DrainServer.issued s' = DrainServer.issued s := by
    funext a
    rw [DrainServer.issued, hnext, hsqe, DrainServer.issued]
  exact {
    operation := by rw [hrequests, hsq, hnext, haccepts]; exact h.operation
    sorted := by rw [hrequests, hsq]; exact h.sorted
    chain := by rw [hflight]; exact h.chain
    issued := by
      rw [hissued]
      intro a ha
      rw [Ring.live, hrequests, hsq, ended, hposted]
      exact h.issued a ha
    canceled := by rw [hposted]; exact h.canceled
    respects := by rw [hissued, haccepts, hposted]; exact h.respects
    accepts := by rw [hissued, haccepts]; exact h.accepts }

theorem submit (h : RequestsOk s p) : RequestsOk (submitStep cfg s) p := by
  have hchains : chainsOf s.ring.sq = s.ring.sq.map fun e => [e] :=
    chainsOf_unlinked fun e he => by
      obtain ⟨a, -, -, hflags⟩ := h.operation e (List.mem_append_right _ he)
      simp [Sqe.linked, hflags]
  have hall : (submitStep cfg s).ring.requests ++ (submitStep cfg s).ring.sq =
      s.ring.requests ++ s.ring.sq := by
    simp only [submitStep, Ring.requests_submit]
    simp [Ring.submit]
  exact {
    operation := by rw [hall]; exact h.operation
    sorted := by rw [hall]; exact h.sorted
    chain := by
      intro c hc
      simp only [submitStep, Ring.submit, hchains, List.map_map] at hc
      rcases List.mem_append.mp hc with hc | hc
      · exact h.chain c hc
      · obtain ⟨e, -, rfl⟩ := List.mem_map.mp hc
        simp
    issued := by
      intro a ha
      rw [Ring.live, hall]
      exact h.issued a ha
    canceled := h.canceled
    respects := h.respects
    accepts := h.accepts }

/-- What the kernel may start waits for nothing. -/
theorem free_of_mayStart (h : RequestsOk s p) {i b : Nat} {e : Sqe Request} {severed : Bool}
    (hchain : s.ring.flight[i]? = some ⟨[e], severed⟩) (hdata : e.data = some b)
    (hstart : s.ring.mayStart i) : free s p b := by
  intro a ha hab
  refine (h.issued a ha).resolve_left fun hlive => ?_
  obtain ⟨e', he'⟩ := List.exists_mem_of_ne_nil _ hlive
  obtain ⟨hmem, hdata'⟩ := List.mem_filter.mp he'
  have howner : e'.operation = some a := by simpa using hdata'
  have hdata' := Sqe.data_of_operation howner
  -- its request is in one of the chains before
  have hearlier : ∃ c ∈ s.ring.flight.take i, e' ∈ c.members := by
    have hsorted := h.sorted
    rw [requests_split hchain, List.append_assoc, List.pairwise_append] at hsorted
    rw [requests_split hchain, List.append_assoc] at hmem
    rcases List.mem_append.mp hmem with hmem | hmem
    · simpa using hmem
    · rcases List.mem_cons.mp hmem with rfl | hmem
      · rw [hdata, Option.some.injEq] at hdata'
        exact absurd hab.1 (by rw [hdata']; exact lt_irrefl _)
      · have hlt := (List.pairwise_cons.mp hsorted.2.1).1 e' hmem b a hdata hdata'
        exact absurd hab.1 (by omega)
  obtain ⟨c, hc, hec⟩ := hearlier
  obtain ⟨hfirst, hsecond⟩ := hstart c hc e' hec
  have hsecond := hsecond _ hchain e (by simp)
  obtain ⟨b', -, hb', hflags⟩ := h.operation e (List.mem_append_left _ (mem_requests hchain))
  obtain ⟨a', -, ha', hflags'⟩ := h.operation e' hmem
  obtain rfl := Option.some.inj ((Sqe.data_of_operation hb').symm.trans hdata)
  obtain rfl := Option.some.inj (ha'.symm.trans howner)
  rw [hflags] at hsecond
  rw [hflags'] at hfirst
  exact hab.2.elim (of_decide_eq_false hfirst) (of_decide_eq_false hsecond)

theorem finish (h : RequestsOk s p) {i : Nat} {e : Sqe Request} {o : Outcome}
    (hfinish : Finishes s i e [] o) (hres : o.res ≠ -ECANCELED) (hstart : s.ring.mayStart i) :
    RequestsOk ((s.finished i e [] o).post cfg ⟨e.data, o.res, false⟩) p := by
  have hsublist : (((s.finished i e [] o).post cfg ⟨e.data, o.res, false⟩).ring.requests ++
      ((s.finished i e [] o).post cfg ⟨e.data, o.res, false⟩).ring.sq).Sublist
        (s.ring.requests ++ s.ring.sq) := finished_sublist hfinish
  exact {
    operation := fun x hx => h.operation x (hsublist.subset hx)
    sorted := h.sorted.sublist hsublist
    chain := by
      intro c hc
      rcases List.mem_or_eq_of_mem_set hc with hc | rfl
      · exact h.chain c hc
      · simp
    issued := by
      intro a ha
      rcases h.issued a ha with hlive | hended
      · have hperm := live_finished hfinish a
        by_cases howner : e.operation = some a
        · exact .inr ⟨_, List.mem_append_right _ (List.mem_singleton_self _), Sqe.data_of_operation howner⟩
        · rw [if_neg howner, List.nil_append] at hperm
          refine .inl fun hnil => hlive ?_
          have hnil : (s.finished i e [] o).ring.live a = [] := hnil
          rw [hnil] at hperm
          exact hperm.eq_nil
      · exact .inr (hended.append _)
    canceled := by
      intro c hc
      rcases List.mem_append.mp hc with hc | hc
      · exact h.canceled c hc
      · rw [List.mem_singleton.mp hc]
        exact hres
    respects := h.respects.push fun b hb => h.free_of_mayStart hfinish.chain hb hstart
    accepts := h.accepts }

/-- A coroutine constructs an operation. -/
theorem construct (h : RequestsOk s p) (hoperations : OperationsOk cfg s) {drain : Bool}
    (hcon : Constructs s s' drain)
    (haccepts : p'.accepts = if drain then p.accepts ++ [s.next] else p.accepts) :
    RequestsOk s' p' := by
  obtain ⟨entries, hsq, hlength, hentries, hown⟩ := hcon.entries
  have hnext := hcon.next
  have hflight : s'.ring.flight = s.ring.flight := by rw [hcon.ring]
  have hposted : s'.posted = s.posted := by rw [hcon.rest]
  have hrequests : s'.ring.requests = s.ring.requests := by rw [Ring.requests, hflight, Ring.requests]
  have hlow : ∀ e ∈ s.ring.requests ++ s.ring.sq, ∀ a, e.data = some a → a < s.next := by
    intro e he a hdata
    obtain ⟨b, hb, howner, -⟩ := h.operation e he
    obtain rfl := Option.some.inj ((Sqe.data_of_operation howner).symm.trans hdata)
    exact hb
  have hmem : ∀ a, a ≠ s.next → (a ∈ p'.accepts ↔ a ∈ p.accepts) := by
    intro a ha
    rw [haccepts]
    split <;> simp [ha]
  have hissued : ∀ a, a ≠ s.next → (DrainServer.issued s' a ↔ DrainServer.issued s a) := by
    intro a ha
    rw [DrainServer.issued, hnext, hcon.object a ha, DrainServer.issued]
    constructor <;> rintro ⟨hlt, hsqe⟩ <;> exact ⟨by omega, hsqe⟩
  have hended : ∀ a, ended s a → a < s.next := by
    rintro a ⟨c, hc, hdata⟩
    exact hoperations.lt_of_posted hc hdata
  exact {
    operation := by
      rw [hrequests, hsq, ← List.append_assoc]
      intro e he
      rcases List.mem_append.mp he with he | he
      · obtain ⟨a, ha, howner, hflags⟩ := h.operation e he
        exact ⟨a, by omega, howner, by rw [hflags, decide_eq_decide.mpr (hmem a (by omega))]⟩
      · obtain ⟨howner, hflags⟩ := hentries e he
        refine ⟨s.next, by omega, howner, ?_⟩
        rw [hflags, haccepts]
        cases drain with
        | true => simp
        | false =>
            have hnot : s.next ∉ p.accepts := fun hin => absurd (h.accepts _ hin).1 (lt_irrefl _)
            simp [hnot]
    sorted := by
      rw [hrequests, hsq, ← List.append_assoc, List.pairwise_append]
      refine ⟨h.sorted, ?_, fun e he e' he' a b hdata hdata' => ?_⟩
      · rcases Nat.le_one_iff_eq_zero_or_eq_one.mp hlength with hlength | hlength
        · rw [List.length_eq_zero_iff.mp hlength]
          exact .nil
        · obtain ⟨e, he⟩ := List.length_eq_one_iff.mp hlength
          rw [he]
          exact List.pairwise_singleton _ _
      · obtain rfl := Option.some.inj (hdata'.symm.trans (Sqe.data_of_operation (hentries e' he').1))
        exact hlow e he a hdata
    chain := by rw [hflight]; exact h.chain
    issued := by
      intro a ha
      rw [Ring.live, hrequests, hsq, ← List.append_assoc, List.filter_append, ended, hposted]
      by_cases hnew : a = s.next
      · subst hnew
        obtain ⟨e, he⟩ := List.exists_mem_of_ne_nil _ (hown ha.2)
        refine .inl (List.ne_nil_of_mem (List.mem_append_right _ (List.mem_filter.mpr ⟨he, ?_⟩)))
        simpa using (hentries e he).1
      · refine (h.issued a ((hissued a hnew).mp ha)).imp_left fun hlive hnil => hlive ?_
        exact (List.append_eq_nil_iff.mp hnil).1
    canceled := by rw [hposted]; exact h.canceled
    respects := by
      rw [hposted]
      refine h.respects.issue (fun i j hi hj hij => ?_) fun i j hj hij hi => ?_
      · have hlt := hended j hj
        exact (hissued i (by omega)).mp hi
      · have hlt := hended j hj
        exact (hmem i (by omega)).mp hi
    accepts := by
      intro a ha
      by_cases hnew : a = s.next
      · subst hnew
        refine ⟨by omega, hcon.own.2 ?_⟩
        by_contra hdrain
        rw [haccepts, if_neg hdrain] at ha
        exact lt_irrefl _ (h.accepts _ ha).1
      · exact (hissued a hnew).mpr (h.accepts a ((hmem a hnew).mp ha)) }

theorem step (h : RequestsOk s p) (hoperations : OperationsOk cfg s) (hgoes : Goes cfg s p s' p') :
    RequestsOk s' p' := by
  cases hgoes with
  | submit _ _ => exact h.submit
  | finish hfinish _ hres hstart => exact h.finish hfinish hres hstart
  | construct _ hact hs' => exact h.construct hoperations (.of_step hs') (construct_accepts _ hact)
  | quiet hquiet =>
      exact h.same hquiet.ring.1 hquiet.ring.2 hquiet.posted hquiet.next hquiet.sqe rfl
  | @resume a _ _ _ _ _ => exact h.same rfl rfl rfl rfl (setUserData_sqe _ a _ rfl) rfl
  | @suspend a _ _ _ _ _ _ _ => exact h.same rfl rfl rfl rfl (setUserData_sqe _ a _ rfl) rfl
  | _ => exact h.same rfl rfl rfl rfl (fun _ => rfl) rfl

end RequestsOk

end IoUring.Coroutine.DrainServer
