import IoUring.Coroutine.ContextOperation

/-!
# Link chains in a context

The members of a chain finish in order, and after a failure that severs the chain
the rest is cancelled. A cancelled awaitable has no CQE, or one that the loop over
the ring ignores.
-/

namespace IoUring.Coroutine

variable {cfg : Config} {s s' : State} {l : List (Sqe Request)}

/-! ## Submission of a chain -/

theorem chainsOf_cons_linked {P : Type*} {e : Sqe P} {es c : List (Sqe P)} {cs : List (List (Sqe P))}
    (h : e.linked = true) (hes : chainsOf es = c :: cs) : chainsOf (e :: es) = (e :: c) :: cs := by
  rw [chainsOf, h, hes]

theorem chainsOf_cons_unlinked {P : Type*} {e : Sqe P} (h : e.linked = false) (es : List (Sqe P)) :
    chainsOf (e :: es) = [e] :: chainsOf es := by
  rw [chainsOf, h]

theorem chainsOf_ne_nil {P : Type*} (e : Sqe P) (es : List (Sqe P)) :
    ∃ c cs, chainsOf (e :: es) = c :: cs := by
  simp only [chainsOf]
  split <;> exact ⟨_, _, rfl⟩

theorem chainsOf_append {P : Type*} {sq t : List (Sqe P)}
    (h : ∀ e, sq.getLast? = some e → e.linked = false) :
    chainsOf (sq ++ t) = chainsOf sq ++ chainsOf t := by
  induction sq with
  | nil => rfl
  | cons e es ih =>
      cases es with
      | nil =>
          rw [List.singleton_append, chainsOf_cons_unlinked (h e rfl), chainsOf_cons_unlinked (h e rfl)]
          rfl
      | cons e' es =>
          have htail := ih fun x hx => h x (by simpa using hx)
          obtain ⟨c, cs, hcs⟩ := chainsOf_ne_nil e' es
          rw [hcs] at htail
          rw [List.cons_append]
          cases hlinked : e.linked with
          | true => rw [chainsOf_cons_linked hlinked htail, chainsOf_cons_linked hlinked hcs]; rfl
          | false =>
              rw [chainsOf_cons_unlinked hlinked, chainsOf_cons_unlinked hlinked, htail, hcs]
              rfl

theorem chainsOf_chain {P : Type*} {init : List (Sqe P)} {last : Sqe P}
    (hinit : ∀ e ∈ init, e.linked = true) (hlast : last.linked = false) :
    chainsOf (init ++ [last]) = [init ++ [last]] := by
  induction init with
  | nil => exact chainsOf_cons_unlinked hlast []
  | cons e es ih =>
      exact chainsOf_cons_linked (hinit e List.mem_cons_self)
        (ih fun x hx => hinit x (List.mem_cons_of_mem _ hx))

/-- The entries that are linked to the next one to come. -/
theorem sq_split {P : Type*} (sq : List (Sqe P)) : ∃ before, sq = before ++ sq.rtakeWhile Sqe.linked ∧
    ∀ e, before.getLast? = some e → e.linked = false := by
  refine ⟨sq.rdropWhile Sqe.linked, (List.rdropWhile_append_rtakeWhile).symm, fun e he => ?_⟩
  have hne : sq.rdropWhile Sqe.linked ≠ [] := fun hnil => by simp [hnil] at he
  have hlast := List.rdropWhile_last_not Sqe.linked sq hne
  rw [List.getLast?_eq_some_getLast hne, Option.some.injEq] at he
  simpa [he] using hlast

/-- A chain with an entry that is not linked is complete. -/
theorem mem_chainsOf_append {P : Type*} {sq l : List (Sqe P)} (t : List (Sqe P)) (hl : l ∈ chainsOf sq)
    {e : Sqe P} (he : e ∈ l) (hlinked : e.linked = false) : l ∈ chainsOf (sq ++ t) := by
  obtain ⟨before, hsq, hbefore⟩ := sq_split sq
  rw [hsq, chainsOf_append hbefore] at hl
  rw [hsq, List.append_assoc, chainsOf_append hbefore]
  refine List.mem_append_left _ ((List.mem_append.mp hl).resolve_right fun hopen => ?_)
  have hmem : e ∈ sq.rtakeWhile Sqe.linked := by
    rw [← chainsOf_flatten (sq.rtakeWhile Sqe.linked)]
    exact List.mem_flatten.mpr ⟨l, hopen, he⟩
  simp [List.mem_rtakeWhile_imp hmem] at hlinked

/-! ## Progress of a chain -/

/-- The request has failed and was not linked hard to the next one. -/
def State.severs (s : State) (e : Sqe Request) : Bool :=
  match e.data.bind s.outcome with
  | some o => o.failed && !e.flags.ioHardlink
  | none => false

/-- The request has finished after the chain was severed or not. -/
structure Finished (s : State) (e : Sqe Request) (cut : Bool) (a : Nat) (o : Outcome) : Prop where
  data : e.data = some a
  outcome : s.outcome a = some o
  severed : o.severed = cut
  canceled : cut = true → o.res = -ECANCELED
  posted : cut = false → e.prep = .oneshot → e.flags.cqeSkipSuccess = false →
    ∃ c ∈ s.posted, c.data = some a

/-- The finished members of a chain. -/
structure Played (s : State) (done : List (Sqe Request)) (cut : Bool) : Prop where
  severed : cut = done.any s.severs
  member : ∀ pre e post, done = pre ++ e :: post → ∃ a o, Finished s e (pre.any s.severs) a o

/-- The request of a plain operation. -/
def PlainRequest (s : State) (e : Sqe Request) : Prop :=
  e.prep = .oneshot ∧ ∃ a, e.data = some a ∧ a < s.next ∧ (s.object a).multishot = false ∧
    (s.object a).userData.sqe = true

structure ChainOk (s : State) (l : List (Sqe Request)) : Prop where
  shape : ∃ (init : List (Sqe Request)) (last : Sqe Request), l = init ++ [last] ∧ last.flags = {}
  member : ∀ e ∈ l, PlainRequest s e
  place : l ∈ chainsOf s.ring.sq ∨ ∃ (i : Nat) (done rest : List (Sqe Request)) (cut : Bool),
    s.ring.flight[i]? = some ⟨rest, cut⟩ ∧ l = done ++ rest ∧ Played s done cut

structure ChainsOk (s : State) : Prop where
  linked : ∀ e ∈ s.ring.sq, e.linked = true → PlainRequest s e
  chain : ∀ l ∈ s.chains, ChainOk s l

theorem severs_eq_false {e : Sqe Request} : s.severs e = false ↔ (e.flags.ioHardlink = false →
    ∀ a o, e.data = some a → s.outcome a = some o → o.failed = false) := by
  rw [State.severs]
  constructor
  · intro h hlink a o hdata houtcome
    simpa [hdata, houtcome, hlink] using h
  · intro h
    split
    · next o ho =>
        obtain ⟨a, hdata, houtcome⟩ := Option.bind_eq_some_iff.mp ho
        cases hlink : e.flags.ioHardlink with
        | true => simp
        | false => simp [h hlink a o hdata houtcome]
    · rfl

theorem severs_eq {e : Sqe Request} (h : e.data.bind s'.outcome = e.data.bind s.outcome) :
    s'.severs e = s.severs e := by
  rw [State.severs, State.severs, h]

theorem any_congr_mem {α : Type*} {p q : α → Bool} {l : List α} (h : ∀ x ∈ l, p x = q x) :
    l.any p = l.any q := by
  induction l with
  | nil => rfl
  | cons x xs ih =>
      rw [List.any_cons, List.any_cons, h x List.mem_cons_self,
        ih fun y hy => h y (List.mem_cons_of_mem _ hy)]

theorem Played.mem {done : List (Sqe Request)} {cut : Bool} (h : Played s done cut)
    {e : Sqe Request} (he : e ∈ done) : ∃ a o, e.data = some a ∧ s.outcome a = some o := by
  obtain ⟨pre, post, hdone⟩ := List.append_of_mem he
  obtain ⟨a, o, hfinished⟩ := h.member pre e post hdone
  exact ⟨a, o, hfinished.data, hfinished.outcome⟩

/-- The outcomes of the finished members stay. -/
theorem Played.mono {done : List (Sqe Request)} {cut : Bool} (h : Played s done cut)
    (houtcome : ∀ e ∈ done, ∀ a, e.data = some a → s'.outcome a = s.outcome a)
    (hposted : ∀ c ∈ s.posted, c ∈ s'.posted) : Played s' done cut := by
  have hsevers : ∀ e ∈ done, s'.severs e = s.severs e := by
    intro e he
    apply severs_eq
    cases hdata : e.data with
    | none => rfl
    | some a => exact houtcome e he a hdata
  refine ⟨h.severed.trans (any_congr_mem fun e he => (hsevers e he).symm), fun pre e post hdone => ?_⟩
  obtain ⟨a, o, hfinished⟩ := h.member pre e post hdone
  have hmem : e ∈ done := by simp [hdone]
  have hpre : pre.any s'.severs = pre.any s.severs :=
    any_congr_mem fun x hx => hsevers x (by simp [hdone, hx])
  refine ⟨a, o, ?_⟩
  rw [hpre]
  exact { hfinished with
    outcome := (houtcome e hmem a hfinished.data).trans hfinished.outcome
    posted := fun hsevered hprep hskip =>
      (hfinished.posted hsevered hprep hskip).imp fun c hc => ⟨hposted c hc.1, hc.2⟩ }

/-- The next member finishes. -/
theorem Played.snoc {done : List (Sqe Request)} {cut : Bool} (h : Played s done cut)
    {e : Sqe Request} {a : Nat} {o : Outcome} (he : Finished s e cut a o) :
    Played s (done ++ [e]) (o.severed || o.failed && !e.flags.ioHardlink) := by
  have hsevers : s.severs e = (o.failed && !e.flags.ioHardlink) := by
    simp [State.severs, he.data, he.outcome]
  refine ⟨?_, fun pre x post hdone => ?_⟩
  · rw [List.any_append, List.any_cons, List.any_nil, Bool.or_false, hsevers, ← h.severed, he.severed]
  · rcases List.eq_nil_or_concat post with rfl | ⟨post, y, rfl⟩
    · obtain ⟨rfl, hx⟩ := List.append_inj' hdone rfl
      obtain rfl : e = x := by simpa using hx
      rw [← h.severed]
      exact ⟨a, o, he⟩
    · rw [List.concat_eq_append, ← List.cons_append, ← List.append_assoc] at hdone
      exact h.member pre x post (List.append_inj' hdone rfl).1

/-! ## Steps -/

/-- The objects that exist keep what a chain relies on. -/
structure Keeps (s s' : State) : Prop where
  next : s.next ≤ s'.next
  multishot : ∀ a, a < s.next → (s'.object a).multishot = (s.object a).multishot
  sqe : ∀ a, a < s.next → (s'.object a).userData.sqe = (s.object a).userData.sqe

theorem PlainRequest.keep {e : Sqe Request} (h : PlainRequest s e) (hkeeps : Keeps s s') :
    PlainRequest s' e := by
  obtain ⟨hprep, a, hdata, ha, hmultishot, hsqe⟩ := h
  exact ⟨hprep, a, hdata, Nat.lt_of_lt_of_le ha hkeeps.next, (hkeeps.multishot a ha).trans hmultishot,
    (hkeeps.sqe a ha).trans hsqe⟩

theorem ChainOk.of_place (h : ChainOk s l) (hkeeps : Keeps s s')
    (hplace : l ∈ chainsOf s'.ring.sq ∨ ∃ (i : Nat) (done rest : List (Sqe Request)) (cut : Bool),
      s'.ring.flight[i]? = some ⟨rest, cut⟩ ∧ l = done ++ rest ∧ Played s' done cut) :
    ChainOk s' l :=
  ⟨h.shape, fun e he => (h.member e he).keep hkeeps, hplace⟩

/-- The rings keep the requests. -/
theorem ChainsOk.same (h : ChainsOk s) (hkeeps : Keeps s s') (hsq : s'.ring.sq = s.ring.sq)
    (hflight : s'.ring.flight = s.ring.flight) (houtcome : s'.outcome = s.outcome)
    (hposted : ∀ c ∈ s.posted, c ∈ s'.posted) (hchains : s'.chains = s.chains) : ChainsOk s' := by
  refine ⟨fun e he hlinked => (h.linked e (hsq ▸ he) hlinked).keep hkeeps, fun l hl => ?_⟩
  rw [hchains] at hl
  have hchain := h.chain l hl
  apply hchain.of_place hkeeps
  rw [hsq, hflight]
  rcases hchain.place with hplace | ⟨i, done, rest, cut, hget, hl, hplayed⟩
  · exact .inl hplace
  · exact .inr ⟨i, done, rest, cut, hget, hl, hplayed.mono (fun _ _ _ _ => by rw [houtcome]) hposted⟩

theorem ChainsOk.submit (h : ChainsOk s) : ChainsOk { s with ring := s.ring.submit } := by
  refine ⟨by simp [Ring.submit], fun l hl => ?_⟩
  have hchain := h.chain l hl
  refine hchain.of_place ⟨Nat.le_refl _, fun _ _ => rfl, fun _ _ => rfl⟩ (.inr ?_)
  rcases hchain.place with hplace | ⟨i, done, rest, cut, hget, hl, hplayed⟩
  · obtain ⟨i, hi⟩ := List.mem_iff_getElem?.mp hplace
    refine ⟨s.ring.flight.length + i, [], l, false, ?_, rfl, ⟨rfl, by simp⟩⟩
    simp only [Ring.submit]
    rw [List.getElem?_append_right (Nat.le_add_right _ _), Nat.add_sub_cancel_left, List.getElem?_map, hi]
    rfl
  · refine ⟨i, done, rest, cut, ?_, hl, hplayed.mono (fun _ _ _ _ => rfl) fun _ hc => hc⟩
    simp only [Ring.submit]
    rw [List.getElem?_append_left (List.getElem?_eq_some_iff.mp hget).1, hget]

/-- Entries are prepared after complete chains. -/
theorem ChainsOk.append (h : ChainsOk s) (sqes : List (Sqe Request)) (hkeeps : Keeps s s')
    (hring : s'.ring = { s.ring with sq := s.ring.sq ++ sqes }) (houtcome : s'.outcome = s.outcome)
    (hposted : s'.posted = s.posted) (hlinked : ∀ e ∈ sqes, e.linked = true → PlainRequest s' e)
    (hchains : ∀ l ∈ s'.chains, l ∈ s.chains ∨ ChainOk s' l) : ChainsOk s' := by
  refine ⟨fun e he hlink => ?_, fun l hl => ?_⟩
  · rw [hring] at he
    rcases List.mem_append.mp he with he | he
    · exact (h.linked e he hlink).keep hkeeps
    · exact hlinked e he hlink
  · rcases hchains l hl with hold | hnew
    · have hchain := h.chain l hold
      apply hchain.of_place hkeeps
      obtain ⟨init, last, hshape, hflags⟩ := hchain.shape
      rcases hchain.place with hplace | ⟨i, done, rest, cut, hget, hl, hplayed⟩
      · refine .inl ?_
        rw [hring]
        exact mem_chainsOf_append sqes hplace (by simp [hshape]) (Sqe.linked_of_flags hflags)
      · exact .inr ⟨i, done, rest, cut, by rw [hring]; exact hget, hl,
          hplayed.mono (fun _ _ _ _ => by rw [houtcome]) (by simp [hposted])⟩
    · exact hnew

theorem ChainsOk.drives (h : ChainsOk s) {r : Ring} (hd : Drives s.ring r) :
    ChainsOk { s with ring := r } := by
  induction hd with
  | refl => exact h
  | submit _ ih => exact ih.submit
  | cancel a flags stale hlink hhard _ ih =>
      refine ih.append [⟨.cancel a, flags, stale⟩]
        ⟨Nat.le_refl _, fun _ _ => rfl, fun _ _ => rfl⟩ rfl rfl rfl ?_ fun l hl => .inl hl
      intro e he hlinked
      obtain rfl := List.mem_singleton.mp he
      simp [Sqe.linked, hlink, hhard] at hlinked

/-- A request finishes, perhaps the next one of the chain. -/
theorem ChainOk.finished (h : ChainOk s l) (hlive : ∀ a, LiveOk s a) {i : Nat}
    {e : Sqe Request} {rest : List (Sqe Request)} {o : Outcome} (post : Bool)
    (hfinish : Finishes s i e rest o) (hkeeps : Keeps s s') (hsq : s'.ring.sq = s.ring.sq)
    (hflight : s'.ring.flight = (s.finished i e rest o).ring.flight)
    (houtcome : s'.outcome = (s.finished i e rest o).outcome)
    (hposted : ∀ c ∈ s.posted, c ∈ s'.posted)
    (hcqe : posts e o.severed o.failed post = true → ∃ c ∈ s'.posted, c.data = e.data) :
    ChainOk s' l := by
  apply h.of_place hkeeps
  rw [hsq]
  rcases h.place with hplace | ⟨j, done, rest', cut, hget, hl, hplayed⟩
  · exact .inl hplace
  have hkept : Played s' done cut := by
    refine hplayed.mono (fun x hx a hdata => ?_) hposted
    obtain ⟨b, o', hb, ho'⟩ := hplayed.mem hx
    obtain rfl : b = a := Option.some.inj (hb.symm.trans hdata)
    rw [houtcome]
    apply if_neg
    intro he
    have hnil := (hlive b).nil (by simp [ho'])
    have hmem : e ∈ s.ring.live b := List.mem_filter.mpr
      ⟨List.mem_append_left _ (mem_requests hfinish.chain), by simpa using he⟩
    simp [hnil] at hmem
  by_cases hij : i = j
  · subst hij
    obtain ⟨rfl, rfl⟩ : rest' = e :: rest ∧ cut = o.severed := by
      simpa using hget.symm.trans hfinish.chain
    obtain ⟨hprep, a, hdata, -, -, -⟩ := h.member e (by simp [hl])
    refine .inr ⟨i, done ++ [e], rest, _, ?_, by simp [hl], hkept.snoc (a := a) (o := o) ?_⟩
    · rw [hflight]
      exact List.getElem?_set_self (List.getElem?_eq_some_iff.mp hget).1
    · refine ⟨hdata, ?_, rfl, hfinish.canceled, fun hcut _ hskip => ?_⟩
      · rw [houtcome]
        exact if_pos ((Sqe.operation_of_prep (.inl hprep)).trans hdata)
      · rw [← hdata]
        apply hcqe
        simp [posts, hcut, hprep, hskip]
  · refine .inr ⟨j, done, rest', cut, ?_, hl, hkept⟩
    rw [hflight]
    exact (List.getElem?_set_ne hij).trans hget

theorem Prepares.keeps {sqes : List (Sqe Request)} {o : Awaitable} (hprep : Prepares s s' sqes o) :
    Keeps s s' := by
  have hobject : ∀ a, a < s.next → s'.object a = s.object a := by
    intro a ha
    rw [hprep.object, if_neg (by omega)]
  exact ⟨Nat.le_of_lt hprep.next, fun a ha => by rw [hobject a ha], fun a ha => by rw [hobject a ha]⟩

theorem Keeps.reaped (cfg : Config) (s : State) (b : Nat) : Keeps s (s.reaped cfg b) :=
  ⟨Nat.le_refl _, fun a _ => setUserData_multishot s.passed b _ a,
    fun a _ => setUserData_sqe s.passed b _ (by rfl) a⟩

theorem Keeps.awaitResume (s : State) (b : Nat) : Keeps s (s.awaitResume b) := by
  obtain ⟨d, res, heq⟩ := awaitResume_eq s b
  have hnext : s.next = (s.awaitResume b).next := by rw [heq]
  exact ⟨Nat.le_of_eq hnext, fun a _ => awaitResume_multishot s b a, fun a _ => awaitResume_sqe s b a⟩

theorem Keeps.trans {t : State} (h : Keeps s t) (h' : Keeps t s') : Keeps s s' := by
  refine ⟨Nat.le_trans h.next h'.next, fun a ha => ?_, fun a ha => ?_⟩
  · exact (h'.multishot a (Nat.lt_of_lt_of_le ha h.next)).trans (h.multishot a ha)
  · exact (h'.sqe a (Nat.lt_of_lt_of_le ha h.next)).trans (h.sqe a ha)

/-- The awaitable of a chain is prepared. -/
theorem linkStep_chains {e : Expr Request} {order : Order} (h : ChainsOk s)
    (hlink : linkStep cfg s e order = some s') : ChainsOk s' := by
  obtain ⟨pre, last, post, hprep, hchains, hlinked, hflags, -⟩ := linkStep_prepares hlink
  have hplain : ∀ x ∈ pre ++ last :: post, PlainRequest s' x := by
    intro x hx
    obtain ⟨a, ha, hlow, hhigh⟩ := hprep.data x hx
    have hobject := hprep.object a
    rw [if_pos ⟨hlow, hhigh⟩] at hobject
    exact ⟨hprep.prep x hx, a, ha, hhigh, by rw [hobject], by rw [hobject]⟩
  refine h.append _ hprep.keeps hprep.sq (by rw [hprep.rest]) (by rw [hprep.rest])
    (fun x hx _ => hplain x hx) fun l hl => ?_
  rw [hchains] at hl
  rcases List.mem_cons.mp hl with rfl | hl
  · refine .inr ⟨⟨_, last, (List.append_assoc ..).symm, hflags⟩, fun x hx => ?_, .inl ?_⟩
    · rcases List.mem_append.mp hx with hx | hx
      · exact (h.linked x ((List.rtakeWhile_suffix Sqe.linked s.ring.sq).subset hx)
          (List.mem_rtakeWhile_imp hx)).keep hprep.keeps
      · refine hplain x ?_
        simp only [List.mem_append, List.mem_cons] at hx ⊢
        tauto
    · obtain ⟨before, hsq, hbefore⟩ := sq_split s.ring.sq
      have hwhole : s'.ring.sq = before ++ (s.ring.sq.rtakeWhile Sqe.linked ++ pre ++ [last] ++ post) := by
        rw [hprep.sq]
        simp only
        conv_lhs => rw [hsq]
        simp
      have hlinked' : ∀ x ∈ s.ring.sq.rtakeWhile Sqe.linked ++ pre, x.linked = true := by
        intro x hx
        rcases List.mem_append.mp hx with hx | hx
        · exact List.mem_rtakeWhile_imp hx
        · exact hlinked x (List.mem_append_left _ hx)
      rw [hwhole, chainsOf_append hbefore, chainsOf_append (by simp [Sqe.linked_of_flags hflags]),
        chainsOf_chain hlinked' (Sqe.linked_of_flags hflags)]
      simp
  · exact .inl hl

theorem ChainsOk.step {a : Label} (h : ChainsOk s) (hlive : ∀ a, LiveOk s a)
    (hstep : Step cfg s a s') : ChainsOk s' := by
  cases hstep with
  | submit _ _ =>
      exact h.submit.same ⟨Nat.le_refl _, fun _ _ => rfl, fun _ _ => rfl⟩ rfl rfl rfl (fun _ hc => hc) rfl
  | @posted i e rest o post hfinish _ _ =>
      refine ⟨h.linked, fun l hl => (h.chain l hl).finished hlive post hfinish
        ⟨Nat.le_refl _, fun _ _ => rfl, fun _ _ => rfl⟩ rfl rfl rfl (fun c hc => ?_) fun _ => ?_⟩
      · exact List.mem_append_left _ hc
      · exact ⟨⟨e.data, o.res, false⟩, List.mem_append_right _ (List.mem_singleton.mpr rfl), rfl⟩
  | @silent i e rest o post hfinish hposts =>
      refine ⟨h.linked, fun l hl => (h.chain l hl).finished hlive post hfinish
        ⟨Nat.le_refl _, fun _ _ => rfl, fun _ _ => rfl⟩ rfl rfl rfl (fun c hc => hc) fun hpost => ?_⟩
      simp [hpost] at hposts
  | more _ _ _ =>
      exact h.same ⟨Nat.le_refl _, fun _ _ => rfl, fun _ _ => rfl⟩ rfl rfl rfl
        (fun _ hc => List.mem_append_left _ hc) rfl
  | construct hact hs' =>
      obtain ⟨sqes, o, hprep, hchains, -, -, hsqes, -⟩ :=
        constructStep_prepares (UserAct.prep_of_constructs hact) hs'
      refine h.append _ hprep.keeps hprep.sq (by rw [hprep.rest]) (by rw [hprep.rest])
        (fun x hx hlinked => ?_) fun l hl => .inl (hchains ▸ hl)
      simp [Sqe.linked, (hsqes x hx).1] at hlinked
  | link hs' => exact linkStep_chains h hs'
  | @discard b _ _ _ _ =>
      exact h.same ⟨Nat.le_refl _, fun a _ => dropOperation_multishot s b a,
        fun a _ => dropOperation_sqe s b a⟩ rfl rfl rfl (fun _ hc => hc) rfl
  | @drop b stale _ _ _ _ =>
      obtain ⟨r, hdrives, heq⟩ := dropMultishot_drives cfg s b stale
      rw [heq]
      exact (h.drives hdrives).same ⟨Nat.le_refl _, fun a _ => dropOperation_multishot s b a,
        fun a _ => dropOperation_sqe s b a⟩ rfl rfl rfl (fun _ hc => hc) rfl
  | @eager b _ _ _ _ _ => exact h.same (.reaped cfg s b) rfl rfl rfl (fun _ hc => hc) rfl
  | @suspend b hd _ _ _ _ _ _ =>
      exact h.same ⟨Nat.le_refl _, fun a _ => setUserData_multishot s b _ a,
        fun a _ => setUserData_sqe s b _ (by rfl) a⟩ rfl rfl rfl (fun _ hc => hc) rfl
  | @complete b hd _ _ _ _ _ _ =>
      have hkeeps := (Keeps.reaped cfg s b).trans (.awaitResume (s.reaped cfg b) b)
      obtain ⟨d, res, heq⟩ := awaitResume_eq (s.reaped cfg b) b
      refine h.same ⟨hkeeps.next, hkeeps.multishot, hkeeps.sqe⟩ ?_ ?_ ?_ ?_ ?_
      all_goals
        rw [heq]
        first | rfl | exact fun _ hc => hc
  | @ready b _ _ _ _ =>
      have hkeeps := Keeps.awaitResume { s with awaits := b :: s.awaits } b
      obtain ⟨d, res, heq⟩ := awaitResume_eq { s with awaits := b :: s.awaits } b
      refine h.same ⟨hkeeps.next, hkeeps.multishot, hkeeps.sqe⟩ ?_ ?_ ?_ ?_ ?_
      all_goals rw [heq]
      exact fun _ hc => hc
  | _ => exact h.same ⟨Nat.le_refl _, fun _ _ => rfl, fun _ _ => rfl⟩ rfl rfl rfl (fun _ hc => hc) rfl

theorem reachable_chains {ok : State → Label → Prop} (h : (machine cfg).Reach ok s) : ChainsOk s := by
  refine h.invariant ChainsOk (fun s hs => ?_) fun s a s' hreach ih _ hstep =>
    ih.step (reachable_live hreach) (.of_step hstep)
  obtain ⟨-, -, -, -, -, hsq, -, -, -, -, -, -, -, hchains, -⟩ := hs
  exact ⟨by simp [hsq], by simp [hchains]⟩

/-! ## The awaitable of a chain -/

/-- All members have finished, so that no member is in flight. -/
theorem ChainOk.played (h : ChainOk s l) (hlive : ∀ a, LiveOk s a)
    (hfinished : ∀ e ∈ l, ∀ a, e.data = some a → s.outcome a ≠ none) :
    ∃ cut, Played s l cut := by
  have hnone : ∀ e ∈ l, e ∉ s.ring.requests ++ s.ring.sq := by
    intro e he hmem
    obtain ⟨hprep, a, hdata, -, -, -⟩ := h.member e he
    have howner := (Sqe.operation_of_prep (.inl hprep)).trans hdata
    have hnil := (hlive a).nil (hfinished e he a hdata)
    have hmem : e ∈ s.ring.live a := List.mem_filter.mpr ⟨hmem, by simpa using howner⟩
    simp [hnil] at hmem
  obtain ⟨init, last, hl, -⟩ := h.shape
  rcases h.place with hplace | ⟨i, done, rest, cut, hget, hl', hplayed⟩
  · refine absurd (List.mem_append_right _ ?_) (hnone last (by simp [hl]))
    rw [← chainsOf_flatten s.ring.sq]
    exact List.mem_flatten.mpr ⟨l, hplace, by simp [hl]⟩
  · cases rest with
    | nil => exact ⟨cut, by rw [hl', List.append_nil]; exact hplayed⟩
    | cons e rest =>
        exact absurd (List.mem_append_left _ (mem_requests hget)) (hnone e (by simp [hl']))

/-- Where the requests that are linked to the entry of an awaitable have finished, and its own
one, and the CQEs are reaped, each `co_await` of the chain has resumed the coroutine once,
exactly when none of those linked with `&` has failed and the last one has not finished with
`-ECANCELED`. Operands that are evaluated from left to right are all linked to the last one. -/
theorem chain_resumed {a : Nat} (h : (machine cfg).Reach (Spares a) s) {init : List (Sqe Request)}
    {last : Sqe Request} (hchain : init ++ [last] ∈ s.chains) (hdata : last.data = some a)
    (hawaited : a ∈ s.awaits)
    (hfinished : ∀ e ∈ init ++ [last], ∀ b, e.data = some b → s.outcome b ≠ none)
    (hreaped : ∀ n c, s.posted[n]? = some c → (∃ e ∈ init ++ [last], c.data = e.data) → n < s.seen) :
    (s.returned.map Prod.fst).count a = s.awaits.count a ↔
      (∀ e ∈ init, e.flags.ioHardlink = false → ∀ b o, e.data = some b → s.outcome b = some o →
        o.failed = false) ∧ ∀ o, s.outcome a = some o → o.res ≠ -ECANCELED := by
  have hlive := reachable_live h
  have hok := (reachable_chains h).chain _ hchain
  obtain ⟨init', last', hl, hflags⟩ := hok.shape
  obtain ⟨rfl, hlast⟩ := List.append_inj' hl rfl
  obtain rfl : last = last' := by simpa using hlast
  obtain ⟨hprep, b, hb, ha, hplain, hsqe⟩ := hok.member last (by simp)
  obtain rfl : b = a := Option.some.inj (hb.symm.trans hdata)
  have hop := (reachable_address h).operation ha hplain
  obtain ⟨cut, hplayed⟩ := hok.played hlive hfinished
  obtain ⟨b', o, hlast⟩ := hplayed.member init last [] rfl
  obtain rfl : b' = b := Option.some.inj (hlast.data.symm.trans hdata)
  have hsevers : init.any s.severs = false ↔ ∀ e ∈ init, e.flags.ioHardlink = false →
      ∀ b o, e.data = some b → s.outcome b = some o → o.failed = false := by
    simp only [List.any_eq_false, Bool.not_eq_true, severs_eq_false]
  rw [← hsevers]
  have hbalance := hop.balance
  constructor
  · intro hcount
    have hmem : b' ∈ s.returned.map Prod.fst := by
      rw [← List.count_pos_iff, hcount]
      exact List.count_pos_iff.mpr hawaited
    obtain ⟨slot, hslot⟩ := Option.ne_none_iff_exists'.mp ((hop.returned hmem).resolve_left (by simp [hsqe]))
    obtain ⟨n, c, -, hc, hown, hres, -⟩ := hop.cqe slot hslot
    obtain ⟨o', ho', hres'⟩ := hop.outcome c (List.mem_of_getElem? hc) hown
    obtain rfl : o = o' := Option.some.inj (hlast.outcome.symm.trans ho')
    refine ⟨?_, fun o' ho' => ?_⟩
    · cases hcut : init.any s.severs with
      | false => rfl
      | true => exact absurd (hres'.symm.trans (hlast.canceled hcut)) hres
    · obtain rfl : o = o' := Option.some.inj (hlast.outcome.symm.trans ho')
      rwa [hres']
  · rintro ⟨hcut, hres⟩
    obtain ⟨c, hc, hown⟩ := hlast.posted hcut hprep (by rw [hflags])
    obtain ⟨n, hn⟩ := List.mem_iff_getElem?.mp hc
    obtain ⟨o', ho', hres'⟩ := hop.outcome c hc hown
    have hseen : n < s.seen := hreaped n c hn ⟨last, by simp, hown.trans hdata.symm⟩
    -- the loop has passed the CQE, and the coroutine does not wait any more
    have hfree : s.suspended b' = none := by
      by_contra hsome
      obtain ⟨hd, hsuspended⟩ := Option.ne_none_iff_exists'.mp hsome
      obtain ⟨-, -, hcqe, halive⟩ := hop.waits hd hsuspended
      have hnone := hop.seen halive hcqe n c hseen hn hown
      exact hres o' ho' (hres'.trans hnone)
    rw [hfree] at hbalance
    exact hbalance.symm

section Chain

/-- The entries of a soft link of two operations. -/
def softFirst : Sqe Request := ⟨.oneshot, SqeFlags.link false {}, some 0⟩
def softLast : Sqe Request := ⟨.oneshot, {}, some 2⟩

/-- A coroutine awaits the chain, and the kernel has it. -/
def softRun (rightFirst : List (List Bool)) : List Label :=
  [.coSpawn, .runOnce false, .go, .user (.link (.link false (.op .oneshot) (.op .oneshot)) rightFirst),
    .user (.await 2), .go, .go]

theorem chain_resumed_soft : ∃ s, (machine smallConfig).Reach (Spares 2) s ∧
    [softFirst] ++ [softLast] ∈ s.chains ∧ (s.returned.map Prod.fst).count 2 = s.awaits.count 2 := by
  have hrun : ∃ s, ((machine smallConfig).restrict (Spares 2)).run .start
      (softRun [] ++ [.finish 0 1 false false, .finish 0 1 false false, .go]) = some s ∧
      s.chains = [[softFirst, softLast]] ∧ s.awaits = [2] ∧ s.outcome 0 = some ⟨1, false, false⟩ ∧
      s.outcome 2 = some ⟨1, false, false⟩ ∧ s.posted = [⟨some 2, 1, false⟩] ∧ s.seen = 1 :=
    ⟨_, rfl, rfl, rfl, rfl, rfl, rfl, rfl⟩
  obtain ⟨s, hs, hchains, hawaits, hfirst, hlast, hposted, hseen⟩ := hrun
  have hreach := Machine.Reach.restrict (.start init_start) hs
  have hchain : [softFirst] ++ [softLast] ∈ s.chains := by simp [hchains]
  refine ⟨s, hreach, hchain, (chain_resumed hreach hchain rfl (by simp [hawaits]) ?_ ?_).mpr ⟨?_, ?_⟩⟩
  · intro e he b hb
    rcases List.mem_cons.mp he with rfl | he
    · obtain rfl : 0 = b := Option.some.inj hb
      simp [hfirst]
    · obtain rfl := List.mem_singleton.mp he
      obtain rfl : 2 = b := Option.some.inj hb
      simp [hlast]
  · intro n c hc _
    rw [hseen]
    simpa [hposted] using (List.getElem?_eq_some_iff.mp hc).1
  · intro e he _ b o hb ho
    obtain rfl := List.mem_singleton.mp he
    obtain rfl : 0 = b := Option.some.inj hb
    obtain rfl := Option.some.inj (hfirst.symm.trans ho)
    rfl
  · intro o ho
    obtain rfl := Option.some.inj (hlast.symm.trans ho)
    decide

/-- With the right operand evaluated first, nothing is linked to the entry of the awaitable. The
other member fails, and the coroutine is resumed. -/
example : ((machine smallConfig).run .start
    (softRun [[]] ++ [.finish 1 (-9) true false, .finish 0 1 false false, .go, .go])).map
      (fun s => (s.chains, s.posted.map Cqe.res, s.returned)) = some ([[softLast]], [-9, 1], [(2, 1)]) := rfl

/-- The first member fails, the last one is cancelled, and both CQEs are reaped. The
coroutine still waits, and nothing is left that could resume it. -/
theorem chain_not_resumed : ∃ s, (machine smallConfig).Reachable s ∧ s.phase = .idle ∧
    s.chains = [[softFirst, softLast]] ∧ s.outcome 0 = some ⟨-9, true, false⟩ ∧
    s.outcome 2 = some ⟨-ECANCELED, true, true⟩ ∧ s.ring.requests = [] ∧ s.ring.sq = [] ∧
    s.posted = [⟨some 0, -9, false⟩, ⟨some 2, -ECANCELED, false⟩] ∧ s.seen = 2 ∧ s.drained = true ∧
    (s.suspended 2).isSome = true := by
  have hrun : ∃ s, (machine smallConfig).run .start
      (softRun [] ++ [.finish 0 (-9) true false, .finish 0 (-ECANCELED) true true, .go, .go, .go]) =
        some s ∧ s.phase = .idle ∧
      s.chains = [[softFirst, softLast]] ∧ s.outcome 0 = some ⟨-9, true, false⟩ ∧
      s.outcome 2 = some ⟨-ECANCELED, true, true⟩ ∧ s.ring.requests = [] ∧ s.ring.sq = [] ∧
      s.posted = [⟨some 0, -9, false⟩, ⟨some 2, -ECANCELED, false⟩] ∧ s.seen = 2 ∧
      s.drained = true ∧ (s.suspended 2).isSome = true :=
    ⟨_, rfl, rfl, rfl, rfl, rfl, rfl, rfl, rfl, rfl, rfl, rfl⟩
  obtain ⟨s, hs, hrest⟩ := hrun
  exact ⟨s, Machine.Reachable.of_run init_start hs, hrest⟩

end Chain

end IoUring.Coroutine
