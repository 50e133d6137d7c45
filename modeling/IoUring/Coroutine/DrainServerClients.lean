import IoUring.Coroutine.DrainServerOrder

/-!
# The clients of the drain server

The client that arrives with accept operation `k` reads first between accept operations
`k + 1` and `k + 2`, and writes first between `k + 2` and `k + 3`. So the server answers the
clients in the order of their arrival, but none before two more have arrived.
-/

namespace IoUring.Coroutine.DrainServer

variable {cfg : Config} {s s' : State} {p p' : Program} {f g k : Nat}

/-- Where a client is before its first write. -/
inductive Unanswered (s : State) (p : Program) (f : Nat) : Prop
  | unread (hreads : p.reads f = none)
  | reading {r : Nat} (hreads : p.reads f = some r) (hpoint : p.point f = .reading r)
  | writing {r : Nat} (hreads : p.reads f = some r) (hpoint : p.point f = .write) (hseen : seen s r)
  | exit (hpoint : p.point f = .exit)

/-- Client `k` has frame `f`. -/
structure ClientOk (s : State) (p : Program) (k f : Nat) : Prop where
  reads : ∀ r, p.reads f = some r → Placed s p f r (k + 1)
  writes : ∀ w, p.writes f = some w → Placed s p f w (k + 2)
  unread : p.reads f = none → p.point f = .read ∧ p.writes f = none ∧
    (⟨f, []⟩ ∈ s.operations ∧ p.accepts.length ≤ k + 2 ∨ p.accepts.length = k + 2)
  unanswered : p.writes f = none → p.accepts.length ≤ k + 3 ∧ Unanswered s p f

def ClientsOk (s : State) (p : Program) : Prop :=
  ∀ k f, p.clients[k]? = some f → ClientOk s p k f

/-! ## Positions -/

namespace ServerRun

/-- A client in the queue is the newest one. -/
theorem newest (h : ServerRun cfg s p) (hk : p.clients[k]? = some f) (hqueue : ⟨f, []⟩ ∈ s.operations) :
    k + 1 = p.clients.length := by
  rcases (h.control.queued _ hqueue).2 with ⟨hpoint, -⟩ | ⟨-, hlast, -, -⟩
  · have hclient := (h.points.client f (List.mem_of_getElem? hk)).1
    simp [hpoint, Point.ofServer] at hclient
  · rw [List.getLast?_eq_getElem?] at hlast
    have hlt := (List.getElem?_eq_some_iff.mp hk).1
    have hindex := (List.getElem?_inj hlt h.points.nodup).mp (hk.trans hlast.symm)
    omega

theorem accepts_ne_nil (h : ServerRun cfg s p) (hk : p.clients[k]? = some f) : p.accepts ≠ [] := by
  have hlt := (List.getElem?_eq_some_iff.mp hk).1
  obtain ⟨v, hv⟩ : ∃ v, p.server = some v := by
    refine Option.ne_none_iff_exists'.mp fun hnone => ?_
    simp [(h.points.unspawned hnone).1] at hlt
  have hlength := h.server.accepts v hv
  rintro hnil
  rw [hnil, List.length_nil] at hlength
  omega

/-- While a client runs, or nobody, `server` waits for the last accept operation, or is in
the queue with none. -/
theorem awaited (h : ServerRun cfg s p) (hterminated : p.terminated = false)
    (hrun : ∀ v, p.server = some v → s.running ≠ some ⟨v, []⟩) (haccepts : p.accepts ≠ []) :
    ∃ a, p.accepts.getLast? = some a ∧ ¬seen s a ∧ p.accepts.length = p.clients.length + 1 := by
  obtain ⟨v, hv⟩ : ∃ v, p.server = some v := by
    refine Option.ne_none_iff_exists'.mp fun hnone => haccepts (h.points.unspawned hnone).2
  have hof : (p.point v).ofServer = true := by
    refine (h.points.server v hv).resolve_right fun hexit => ?_
    simp [h.points.exit v hexit] at hterminated
  have hgone : p.point v ≠ .gone ∧ p.point v ≠ .exit := by
    constructor <;> intro hpoint <;> simp [hpoint, Point.ofServer] at hof
  rcases h.control.waiting hgone.1 hgone.2 (hrun v hv) with hqueue | ⟨a, ha, hwaits⟩
  · rcases (h.control.queued _ hqueue).2 with ⟨-, hnil⟩ | ⟨hpoint, -⟩
    · exact absurd hnil haccepts
    · simp [hpoint, Point.ofServer] at hof
  · have hpoint := ((Point.resumed_operation ha 0 false).2.1 hof).1
    have hlength := h.server.accepts v hv
    rw [if_neg (by simp [hpoint])] at hlength
    exact ⟨a, h.server.accepting v a hpoint, h.not_seen hwaits, hlength⟩

end ServerRun

namespace ClientOk

/-- Something that is not about the client. -/
theorem same (h : ClientOk s p k f) (hgrows : Grows s s')
    (hplaced : ∀ {r m}, Placed s p f r m → Placed s' p' f r m) (hpoint : p'.point f = p.point f)
    (hreads : p'.reads f = p.reads f) (hwrites : p'.writes f = p.writes f)
    (haccepts : p'.accepts = p.accepts)
    (hqueue : ⟨f, []⟩ ∈ s.operations → ⟨f, []⟩ ∈ s'.operations ∨ p.accepts.length = k + 2) :
    ClientOk s' p' k f where
  reads := fun r hr => hplaced (h.reads r (hreads ▸ hr))
  writes := fun w hw => hplaced (h.writes w (hwrites ▸ hw))
  unread := by
    rw [hreads, hpoint, hwrites, haccepts]
    intro hnone
    obtain ⟨hread, hnone, hnew⟩ := h.unread hnone
    refine ⟨hread, hnone, ?_⟩
    rcases hnew with ⟨hmem, hle⟩ | heq
    · exact (hqueue hmem).imp_left fun hmem => ⟨hmem, hle⟩
    · exact .inr heq
  unanswered := by
    rw [hwrites, haccepts]
    intro hnone
    obtain ⟨hle, hwhere⟩ := h.unanswered hnone
    refine ⟨hle, ?_⟩
    cases hwhere with
    | unread hnone => exact .unread (hreads.trans hnone)
    | reading hread hat => exact .reading (hreads.trans hread) (hpoint.trans hat)
    | writing hread hat hseen =>
        exact .writing (hreads.trans hread) (hpoint.trans hat) (seen_mono hseen hgrows.posted hgrows.seen)
    | exit hat => exact .exit (hpoint.trans hat)

/-- The client has left the points before its first write. -/
theorem answered (h : ClientOk s p k f) (hplaced : ∀ {r m}, Placed s p f r m → Placed s' p' f r m)
    (hreads : p'.reads f = p.reads f) (hwrites : p'.writes f = p.writes f)
    (hread : p.point f = .read → p.reads f ≠ none) (hpoint : ∀ r, p.point f ≠ .reading r)
    (hwrite : p.point f = .write → p.writes f ≠ none) (hexit : p.point f ≠ .exit) :
    ClientOk s' p' k f := by
  have hsome : p.reads f ≠ none := fun hnone => hread (h.unread hnone).1 hnone
  exact {
    reads := fun r hr => hplaced (h.reads r (hreads ▸ hr))
    writes := fun w hw => hplaced (h.writes w (hwrites ▸ hw))
    unread := fun hnone => absurd (hreads ▸ hnone) hsome
    unanswered := by
      rw [hwrites]
      intro hnone
      cases (h.unanswered hnone).2 with
      | unread hnone => exact absurd hnone hsome
      | reading _ hat => exact absurd hat (hpoint _)
      | writing _ hat _ => exact absurd hnone (hwrite hat)
      | exit hat => exact absurd hat hexit }

/-- `co_await` returns in the client. -/
theorem resume (h : ClientOk s p k f) {a : Nat} {res : Int} {zz : Bool}
    (hplaced : ∀ {r m}, Placed s p f r m → Placed s' (p.resume f res zz) f r m)
    (hpoint : (p.point f).operation = some a)
    (hseen : p.point f = .reading a → res < 0 ∨ seen s' a) : ClientOk s' (p.resume f res zz) k f := by
  have hmoves := resume_moves p f res zz
  have hsome : p.reads f ≠ none := by
    intro hnone
    simp [(h.unread hnone).1, Point.operation] at hpoint
  exact {
    reads := fun r hr => hplaced (h.reads r hr)
    writes := fun w hw => hplaced (h.writes w hw)
    unread := fun hnone => absurd hnone hsome
    unanswered := by
      intro hnone
      obtain ⟨hle, hwhere⟩ := h.unanswered hnone
      refine ⟨hle, ?_⟩
      cases hwhere with
      | unread hnone => exact absurd hnone hsome
      | @reading r hread hat =>
          obtain rfl : r = a := by
            rw [hat] at hpoint
            exact Option.some.inj hpoint
          have hself := hmoves.self
          rw [hat, Point.resumed] at hself
          rcases hseen hat with hneg | hseen
          · rw [if_pos hneg] at hself
            exact .exit hself
          · split at hself
            · exact .exit hself
            · exact .writing hread hself hseen
      | writing _ hat _ => simp [hat, Point.operation] at hpoint
      | exit hat => simp [hat, Point.operation] at hpoint }

end ClientOk

/-! ## Constructions -/

namespace ServerRun

variable {r : Nat}

theorem issued_accept (h : ServerRun cfg s p) {i a : Nat} (ha : p.accepts[i]? = some a) :
    issued s a ∧ a ∈ p.accepts :=
  have hmem := List.mem_of_getElem? ha
  ⟨h.requests.accepts a hmem, hmem⟩

/-- When `server` comes to the next accept operation, the newest clients are at most two that
have not answered. -/
theorem answered_before (h : ServerRun cfg s p) (hclients : ClientsOk s p) (hterminated : p.terminated = false)
    (hrun : s.running = some ⟨g, []⟩) (hpoint : p.point g = .accept) (hk : p.clients[k]? = some f) :
    (p.reads f = none → k + 1 = p.clients.length) ∧ (p.writes f = none → p.accepts.length ≤ k + 2) := by
  have hclient := hclients k f hk
  have hserver := h.points.server_of (f := g) (by rw [hpoint]; rfl)
  have hfg : f ≠ g := by
    rintro rfl
    exact (h.points.client f (List.mem_of_getElem? hk)).2 hserver
  have hother : s.running ≠ some ⟨f, []⟩ := by simp [hrun, Ne.symm hfg]
  have hlength := h.server.accepts g hserver
  rw [if_pos hpoint, Nat.add_zero] at hlength
  have hqueue : (p.point f).active = true → ⟨f, []⟩ ∈ s.operations := fun hactive =>
    (h.control.active f hactive).resolve_left hother
  have hunread : p.reads f = none → k + 1 = p.clients.length := fun hnone =>
    h.newest hk (hqueue (by rw [(hclient.unread hnone).1]; rfl))
  refine ⟨hunread, fun hnone => ?_⟩
  by_contra hlt
  cases (hclient.unanswered hnone).2 with
  | unread hnone =>
      have hnew := hunread hnone
      omega
  | @reading r hread hat =>
      -- the read was to finish before an accept operation whose client is here
      have hplaced := hclient.reads r hread
      have hwaits := (h.control.operation f r (by rw [hat]; rfl)).resolve_right fun hrunning =>
        hother hrunning.1
      obtain ⟨b, hb⟩ : ∃ b, p.accepts[k + 2]? = some b :=
        ⟨_, List.getElem?_eq_getElem (by omega)⟩
      have hseen := h.server.passed (k + 2) b hb (by omega)
      have hissued : issued s r := ⟨hplaced.lt, hplaced.sqe hterminated (.inl hother)⟩
      exact h.not_seen hwaits (h.seen_before hseen hissued
        ⟨hplaced.before b hb, .inr (h.issued_accept hb).2⟩)
  | writing _ hat _ =>
      rcases (h.control.queued _ (hqueue (by rw [hat]; rfl))).2 with ⟨hnew, -⟩ | ⟨hnew, -⟩ <;>
        simp [hat] at hnew
  | exit hat => simp [h.points.exit f hat] at hterminated

/-- A client that writes for the first time does it after the next but one accept operation. -/
theorem accepted_before (h : ServerRun cfg s p) (hclients : ClientsOk s p) (hterminated : p.terminated = false)
    (hrun : s.running = some ⟨f, []⟩) (hpoint : p.point f = .write) (hk : p.clients[k]? = some f)
    (hnone : p.writes f = none) : p.accepts.length = k + 3 := by
  have hclient := hclients k f hk
  obtain ⟨hle, hwhere⟩ := hclient.unanswered hnone
  cases hwhere with
  | unread hnone => simp [(hclient.unread hnone).1] at hpoint
  | reading _ hat => simp [hat] at hpoint
  | exit hat => simp [hat] at hpoint
  | @writing r hread _ hseen =>
      obtain ⟨a, ha, hlt⟩ := (hclient.reads r hread).after
      obtain ⟨hissued, hmem⟩ := h.issued_accept ha
      have hpassed := h.seen_before hseen hissued ⟨hlt, .inl hmem⟩
      obtain ⟨b, hb, hwaits, -⟩ := h.awaited hterminated (fun v hv hother => by
        obtain rfl : f = v := by simpa [hrun] using hother
        exact (h.points.client f (List.mem_of_getElem? hk)).2 hv) (List.ne_nil_of_mem hmem)
      have hlength := (List.getElem?_eq_some_iff.mp ha).1
      -- the accept operation that the server waits for is a later one
      by_contra hne
      rw [List.getLast?_eq_getElem?, show p.accepts.length - 1 = k + 1 by omega, ha] at hb
      obtain rfl := Option.some.inj hb
      exact hwaits hpassed

end ServerRun

namespace ClientOk

/-- `server` constructs its next accept operation. -/
theorem accept (h : ClientOk s p k f) (hgrows : Grows s s')
    (hplaced : ∀ {r m}, Placed s p f r m → Placed s' (p.construct g s.next) f r m)
    (hpoint : p.point g = .accept) (hfg : f ≠ g) (hlength : p.accepts.length = p.clients.length)
    (hunread : p.reads f = none → k + 1 = p.clients.length)
    (hunanswered : p.writes f = none → p.accepts.length ≤ k + 2) :
    ClientOk s' (p.construct g s.next) k f := by
  have hmoves := construct_moves p g s.next
  have haccepts : (p.construct g s.next).accepts.length = p.accepts.length + 1 := by
    simp [Program.construct, hpoint]
  have hreads : (p.construct g s.next).reads f = p.reads f := by simp [construct_reads, hfg]
  have hwrites : (p.construct g s.next).writes f = p.writes f := by simp [construct_writes, hfg]
  exact {
    reads := fun r hr => hplaced (h.reads r (hreads ▸ hr))
    writes := fun w hw => hplaced (h.writes w (hwrites ▸ hw))
    unread := by
      rw [hreads, hwrites, hmoves.other hfg, haccepts]
      intro hnone
      obtain ⟨hread, hnone', -⟩ := h.unread hnone
      have hnew := hunread hnone
      exact ⟨hread, hnone', .inr (by omega)⟩
    unanswered := by
      rw [hwrites, haccepts]
      intro hnone
      have hle := hunanswered hnone
      refine ⟨by omega, ?_⟩
      cases (h.unanswered hnone).2 with
      | unread hnone => exact .unread (hreads.trans hnone)
      | reading hread hat => exact .reading (hreads.trans hread) ((hmoves.other hfg).trans hat)
      | writing hread hat hseen =>
          exact .writing (hreads.trans hread) ((hmoves.other hfg).trans hat)
            (seen_mono hseen hgrows.posted hgrows.seen)
      | exit hat => exact .exit ((hmoves.other hfg).trans hat) }

/-- The operation under construction is where the first operation of a client belongs. -/
theorem place (h : ServerRun cfg s p) {drain : Bool} (hcon : Constructs s s' drain)
    (hrun : s.running = some ⟨f, []⟩) (haccepts : p'.accepts = p.accepts) {m : Nat}
    (hlength : p.accepts.length = m + 1) (hpoint : p'.point f = .reading s.next ∨ p'.point f = .writing s.next) :
    Placed s' p' f s.next m where
  lt := by
    have hnext := hcon.next
    omega
  issued := by
    refine .inr ⟨hcon.next.symm, .inr ⟨?_, hpoint⟩⟩
    rw [hcon.rest]
    exact hrun
  after := by
    obtain ⟨a, ha⟩ : ∃ a, p.accepts[m]? = some a := ⟨_, List.getElem?_eq_getElem (by omega)⟩
    exact ⟨a, haccepts ▸ ha, (h.issued_accept ha).1.1⟩
  before := by
    intro b hb
    have hlt := (List.getElem?_eq_some_iff.mp hb).1
    rw [haccepts] at hlt
    omega

/-- The client constructs its first read, or a later one. -/
theorem read (h : ServerRun cfg s p) (hclient : ClientOk s p k f) (hcon : Constructs s s' false)
    (hrun : s.running = some ⟨f, []⟩) (hpoint : p.point f = .read)
    (hplaced : ∀ {r m}, Placed s p f r m → Placed s' (p.construct f s.next) f r m) :
    ClientOk s' (p.construct f s.next) k f := by
  have hmoves := construct_moves p f s.next
  have haccepts : (p.construct f s.next).accepts = p.accepts := by simp [Program.construct, hpoint]
  have hwrites : (p.construct f s.next).writes f = p.writes f := by simp [construct_writes, hpoint]
  have hself : (p.construct f s.next).point f = .reading s.next := by
    rw [hmoves.self, hpoint, Point.constructed]
  cases hread : p.reads f with
  | some r =>
      have hreads : (p.construct f s.next).reads f = p.reads f := by simp [construct_reads, hread]
      exact hclient.answered hplaced hreads hwrites (by simp [hread]) (by simp [hpoint]) (by simp [hpoint])
        (by simp [hpoint])
  | none =>
      have hreads : (p.construct f s.next).reads f = some s.next := by
        simp [construct_reads, hread, hpoint]
      obtain ⟨-, hnone, hnew⟩ := hclient.unread hread
      have hlength : p.accepts.length = k + 2 :=
        hnew.resolve_left fun hqueue => (h.control.running _ hrun).2 hqueue.1
      exact {
        reads := by
          intro r hr
          obtain rfl : s.next = r := Option.some.inj (hreads.symm.trans hr)
          exact place h hcon hrun haccepts hlength (.inl hself)
        writes := fun w hw => hplaced (hclient.writes w (hwrites ▸ hw))
        unread := by simp [hreads]
        unanswered := by
          rw [hwrites, haccepts]
          exact fun hnone => ⟨(hclient.unanswered hnone).1, .reading hreads hself⟩ }

/-- The client constructs its first write, or a later one. -/
theorem write (h : ServerRun cfg s p) (hclient : ClientOk s p k f) (hcon : Constructs s s' false)
    (hrun : s.running = some ⟨f, []⟩) (hpoint : p.point f = .write)
    (hplaced : ∀ {r m}, Placed s p f r m → Placed s' (p.construct f s.next) f r m)
    (hlength : p.writes f = none → p.accepts.length = k + 3) :
    ClientOk s' (p.construct f s.next) k f := by
  have hmoves := construct_moves p f s.next
  have haccepts : (p.construct f s.next).accepts = p.accepts := by simp [Program.construct, hpoint]
  have hreads : (p.construct f s.next).reads f = p.reads f := by simp [construct_reads, hpoint]
  have hself : (p.construct f s.next).point f = .writing s.next := by
    rw [hmoves.self, hpoint, Point.constructed]
  cases hwrite : p.writes f with
  | some w =>
      have hwrites : (p.construct f s.next).writes f = p.writes f := by simp [construct_writes, hwrite]
      exact hclient.answered hplaced hreads hwrites (by simp [hpoint]) (by simp [hpoint]) (by simp [hwrite])
        (by simp [hpoint])
  | none =>
      have hwrites : (p.construct f s.next).writes f = some s.next := by
        simp [construct_writes, hwrite, hpoint]
      have hsome : p.reads f ≠ none := by
        intro hnone
        simp [(hclient.unread hnone).1] at hpoint
      exact {
        reads := fun r hr => hplaced (hclient.reads r (hreads ▸ hr))
        writes := by
          intro w hw
          obtain rfl : s.next = w := Option.some.inj (hwrites.symm.trans hw)
          exact place h hcon hrun haccepts (hlength hwrite) (.inr hself)
        unread := fun hnone => absurd (hreads ▸ hnone) hsome
        unanswered := by simp [hwrites] }

end ClientOk

/-! ## Runs -/

namespace ClientsOk

theorem construct (hclients : ClientsOk s p) (h : ServerRun cfg s p) {drain : Bool}
    (hterminated : p.terminated = false) (hrun : s.running = some ⟨g, []⟩)
    (hact : (p.point g).act = some (if drain then .asyncDrainOperation else .asyncOperation))
    (hcon : Constructs s s' drain) (hgrows : Grows s s')
    (hplaced : ∀ {f r m}, Placed s p f r m → Placed s' (p.construct g s.next) f r m) :
    ClientsOk s' (p.construct g s.next) := by
  intro k f hk
  have hmoves := construct_moves p g s.next
  rw [hmoves.clients] at hk
  have hclient := hclients k f hk
  have hoperations : s'.operations = s.operations := by rw [hcon.rest]
  by_cases hfg : f = g
  · subst hfg
    have hof := (h.points.client f (List.mem_of_getElem? hk)).1
    obtain rfl : drain = false := by
      cases drain with
      | false => rfl
      | true =>
          have haccept := (Point.constructed_operation s.next hact).2.2.1.mp rfl
          simp [haccept, Point.ofServer] at hof
    cases hpoint : p.point f <;> simp [hpoint, Point.act] at hact
    · exact .read h hclient hcon hrun hpoint hplaced
    · exact .write h hclient hcon hrun hpoint hplaced
        fun hnone => h.accepted_before hclients hterminated hrun hpoint hk hnone
    · exact hclient.answered hplaced (by simp [construct_reads, hpoint]) (by simp [construct_writes, hpoint])
        (by simp [hpoint]) (by simp [hpoint]) (by simp [hpoint]) (by simp [hpoint])
  · by_cases hdrain : drain = true
    · have hpoint := (Point.constructed_operation s.next hact).2.2.1.mp hdrain
      obtain ⟨hunread, hunanswered⟩ := h.answered_before hclients hterminated hrun hpoint hk
      have hlength := h.server.accepts g (h.points.server_of (by rw [hpoint]; rfl))
      rw [if_pos hpoint, Nat.add_zero] at hlength
      exact hclient.accept hgrows hplaced hpoint hfg hlength hunread hunanswered
    · refine hclient.same hgrows hplaced (hmoves.other hfg) (by simp [construct_reads, hfg])
        (by simp [construct_writes, hfg]) ?_ fun hmem => .inl (hoperations ▸ hmem)
      rw [construct_accepts _ hact, if_neg hdrain]

theorem step (hclients : ClientsOk s p) (h : ServerRun cfg s p) (hterminated : p.terminated = false)
    (hgoes : Goes cfg s p s' p') : ClientsOk s' p' := by
  have hgrows := hgoes.grows
  have hplaced : ∀ {f r m}, Placed s p f r m → Placed s' p' f r m := fun hplaced =>
    hplaced.step hterminated h.control hgoes
  cases hgoes with
  | start hserver _ =>
      intro k f hk
      have hk : p.clients[k]? = some f := hk
      simp [(h.points.unspawned hserver).1] at hk
  | prepare _ =>
      exact fun k f hk => (hclients k f hk).same hgrows hplaced rfl rfl rfl rfl fun hmem =>
        .inl (List.mem_append_left _ hmem)
  | @launch n hd operations hrunning hphase hqueue =>
      intro k f hk
      refine (hclients k f hk).same hgrows hplaced rfl rfl rfl rfl fun hmem => .inr ?_
      have hnewest := h.newest hk hmem
      obtain ⟨-, -, -, hlength⟩ := h.awaited hterminated (by simp [hrunning]) (h.accepts_ne_nil hk)
      omega
  | launched _ _ => exact fun k f hk => (hclients k f hk).same hgrows hplaced rfl rfl rfl rfl .inl
  | submit _ _ => exact fun k f hk => (hclients k f hk).same hgrows hplaced rfl rfl rfl rfl .inl
  | quiet hquiet =>
      exact fun k f hk => (hclients k f hk).same hgrows hplaced rfl rfl rfl rfl fun hmem =>
        .inl (hquiet.operations ▸ hmem)
  | finish _ _ _ _ => exact fun k f hk => (hclients k f hk).same hgrows hplaced rfl rfl rfl rfl .inl
  | @resume a hd zz hreap hdata hsuspended =>
      intro k f hk
      have hclient := hclients k f hk
      have hpoint := (h.control.suspended a _ hsuspended).2
      by_cases hfg : f = hd.frame
      · subst hfg
        exact hclient.resume hplaced hpoint fun _ =>
          .inr (Goes.resumed h.ring hreap hdata rfl (Nat.lt_succ_self _))
      · exact hclient.same hgrows hplaced ((resume_moves p _ _ zz).other hfg) rfl rfl rfl .inl
  | @construct hd drain _ hrun hact hs' =>
      obtain ⟨g, callers⟩ := hd
      obtain rfl : callers = [] := (h.control.running _ hrun).1
      exact hclients.construct h hterminated hrun hact (.of_step hs') hgrows hplaced
  | suspend _ _ _ _ _ _ =>
      exact fun k f hk => (hclients k f hk).same hgrows hplaced rfl rfl rfl rfl .inl
  | @ready a hd res zz hrun hact _ _ hready hres =>
      intro k f hk
      have hclient := hclients k f hk
      obtain ⟨g, callers⟩ := hd
      obtain rfl : callers = [] := (h.control.running _ hrun).1
      have hpoint := Point.await_operation hact
      by_cases hfg : f = g
      · subst hfg
        refine hclient.resume hplaced hpoint fun _ => .inl ?_
        rw [hres (h.ready_sqe hpoint hready)]
        decide
      · exact hclient.same hgrows hplaced ((resume_moves p g res zz).other hfg) rfl rfl rfl .inl
  | @spawn hd hrun hact =>
      obtain ⟨g, callers⟩ := hd
      obtain rfl : callers = [] := (h.control.running _ hrun).1
      have hpoint : p.point g = .spawn := by
        cases hpc : p.point g <;> simp [hpc, Point.act] at hact
        rfl
      have hserver := h.points.server_of (f := g) (by rw [hpoint]; rfl)
      have hlength := h.server.accepts g hserver
      rw [if_neg (by simp [hpoint])] at hlength
      intro k f hk
      simp only [Program.spawn, List.getElem?_append] at hk
      split at hk
      · have hmem := List.mem_of_getElem? hk
        refine (hclients k f hk).same hgrows hplaced ?_ rfl rfl rfl fun hmem =>
          .inl (List.mem_append_left _ hmem)
        rw [spawn_point, if_neg, if_neg]
        · rintro rfl
          exact (h.points.client f hmem).2 hserver
        · rintro rfl
          exact lt_irrefl _ (h.points.frames _ (.inr hmem))
      · obtain rfl : s.nextFrame = f := (List.mem_singleton.mp (List.mem_of_getElem? hk)).symm
        have hk : k = p.clients.length := by
          have hlt := (List.getElem?_eq_some_iff.mp hk).1
          rw [List.length_singleton] at hlt
          omega
        obtain ⟨hreads, hwrites⟩ := h.points.history s.nextFrame fun hmem =>
          lt_irrefl _ (h.points.frames _ (.inr hmem))
        have hread : (p.spawn g s.nextFrame).reads s.nextFrame = none := hreads
        have hwrite : (p.spawn g s.nextFrame).writes s.nextFrame = none := hwrites
        have haccepts : p.accepts.length = k + 1 := by omega
        exact {
          reads := by simp [hread]
          writes := by simp [hwrite]
          unread := by
            refine fun _ => ⟨?_, hwrite, .inl ⟨List.mem_append_right _ (List.mem_singleton_self _), ?_⟩⟩
            · rw [spawn_point, if_pos rfl]
            · simp only [spawn_accepts]
              omega
          unanswered := by
            simp only [spawn_accepts]
            exact fun _ => ⟨by omega, .unread hread⟩ }
  | @ret hd hrun hact =>
      intro k f hk
      have hclient := hclients k f hk
      have hpoint : p.point hd.frame = .ret := by
        cases hpc : p.point hd.frame <;> simp [hpc, Point.act] at hact
        rfl
      by_cases hfg : f = hd.frame
      · subst hfg
        exact hclient.answered hplaced rfl rfl (by simp [hpoint]) (by simp [hpoint]) (by simp [hpoint])
          (by simp [hpoint])
      · exact hclient.same hgrows hplaced ((goto_moves p _ .gone).other hfg) rfl rfl rfl .inl

end ClientsOk

theorem ServerRun.start (hinit : Init s) (hcontext : ContextOk cfg s .start) : ServerRun cfg s .start := by
  obtain ⟨hoperations, -, hspsc, hphase, hrun, -, -, -, -, -, hsuspended, -⟩ := hinit
  refine ⟨hcontext, ?_, ?_, ?_⟩
  · constructor <;> simp [Program.start, Point.ofServer]
  · constructor <;> simp [Program.start, Point.operation, Point.active, Point.act, *]
  · constructor <;> simp [Program.start]

theorem RequestsOk.start (hinit : Init s) : RequestsOk s .start := by
  obtain ⟨-, -, -, -, -, hsq, hflight, -, -, hnext, -, hposted, -⟩ := hinit
  constructor <;>
    simp [Ring.requests, hsq, hflight, hposted, DrainServer.issued, hnext, Program.start,
      Barrier.respects_nil]

theorem reachable_run {x : State × Program} (h : (machine cfg).Reachable x) :
    ServerRun cfg x.1 x.2 ∧ ClientsOk x.1 x.2 := by
  induction h with
  | @start x hx =>
      obtain ⟨s, p⟩ := x
      obtain ⟨hinit, rfl⟩ := hx
      have hcontext : (Coroutine.machine cfg).Reach NoMultishot s := .start hinit
      refine ⟨.start hinit ⟨reachable_ring hcontext, reachable_operations hcontext,
        (reachable_inflight hcontext).object, .start hinit⟩, fun k f hk => ?_⟩
      simp [Program.start] at hk
  | @next x y l hreach _ hstep ih =>
      obtain ⟨hrun, hclients⟩ := ih
      obtain ⟨hterminated, hok, hs', -⟩ := step_context hstep
      have hcontext := reachable_context hreach
      have hgoes := Goes.of_step hcontext hrun.requests (fun hd hd' => (hrun.control.running hd hd').1) hstep
      have hcontext' := hcontext.next (noMultishot hok) hs'
      exact ⟨hrun.step hterminated ⟨reachable_ring hcontext', reachable_operations hcontext',
        (reachable_inflight hcontext').object, hrun.requests.step hrun.operations hgoes⟩ hgoes,
        hclients.step hrun hterminated hgoes⟩

/-! ## Answers -/

/-- The kernel has finished the request of an operation, or may be at it. -/
def started (s : State) (a : Nat) : Prop :=
  ended s a ∨ ∃ i c, s.ring.flight[i]? = some c ∧ (∃ e ∈ c.members, e.data = some a) ∧ s.ring.mayStart i

namespace ServerRun

/-- What has started waits for nothing. -/
theorem free_of_started (h : ServerRun cfg s p) {a : Nat} (ha : started s a) : free s p a := by
  rcases ha with hended | ⟨i, ⟨members, severed⟩, hchain, ⟨e, he, hdata⟩, hstart⟩
  · exact h.requests.respects.mayStart hended
  · have hlength := (h.requests.chain _ (List.mem_of_getElem? hchain)).1
    obtain rfl : members = [e] := by
      obtain ⟨x, rfl⟩ := List.length_eq_one_iff.mp (Nat.le_antisymm hlength (List.length_pos_of_mem he))
      rw [List.mem_singleton.mp he]
    exact h.requests.free_of_mayStart hchain hdata hstart

end ServerRun

section Writes

variable {x : State × Program}

/-- The first write of a client waits for the next but one client. -/
theorem accept_before (h : (machine cfg).Reachable x) (hk : x.2.clients[k]? = some f) {w : Nat}
    (hw : x.2.writes f = some w) (hstarted : started x.1 w) :
    ∃ b, x.2.accepts[k + 2]? = some b ∧ b < w ∧ ended x.1 b := by
  obtain ⟨hrun, hclients⟩ := reachable_run h
  obtain ⟨b, hb, hlt⟩ := ((hclients k f hk).writes w hw).after
  obtain ⟨hissued, hmem⟩ := hrun.issued_accept hb
  exact ⟨b, hb, hlt, hrun.free_of_started hstarted b hissued ⟨hlt, .inl hmem⟩⟩

/-- The client after that waits for the first write. -/
theorem write_before (h : (machine cfg).Reachable x) (hk : x.2.clients[k]? = some f) {c : Nat}
    (hc : x.2.accepts[k + 3]? = some c) (hstarted : started x.1 c) :
    ∃ w, x.2.writes f = some w ∧ w < c ∧ ended x.1 w := by
  obtain ⟨hrun, hclients⟩ := reachable_run h
  have hclient := hclients k f hk
  obtain ⟨hissued, hmem⟩ := hrun.issued_accept hc
  obtain ⟨w, hw⟩ : ∃ w, x.2.writes f = some w := by
    refine Option.ne_none_iff_exists'.mp fun hnone => ?_
    have hle := (hclient.unanswered hnone).1
    have hlt := (List.getElem?_eq_some_iff.mp hc).1
    omega
  have hplaced := hclient.writes w hw
  have hlt := hplaced.before c hc
  have hsqe : (x.1.object w).userData.sqe = true := hplaced.issued.resolve_right fun hlast => by
    have hnext := hissued.1
    omega
  exact ⟨w, hw, hlt, hrun.free_of_started hstarted w ⟨hplaced.lt, hsqe⟩ ⟨hlt, .inr hmem⟩⟩

end Writes

/-- The first write of a client waits for the next but one client, and is over before the one
after that is accepted. -/
theorem answered_when {x : State × Program} (h : (machine cfg).Reachable x)
    (hk : x.2.clients[k]? = some f) :
    (∀ w, x.2.writes f = some w → started x.1 w →
      ∃ b, x.2.accepts[k + 2]? = some b ∧ b < w ∧ ended x.1 b) ∧
    ∀ c, x.2.accepts[k + 3]? = some c → started x.1 c → ∃ w, x.2.writes f = some w ∧ w < c ∧ ended x.1 w :=
  ⟨fun _ hw hstarted => accept_before h hk hw hstarted, fun _ hc hstarted => write_before h hk hc hstarted⟩

section Answers

theorem posted_ended {s : State} {l : List Nat} {a : Nat} (h : s.posted.map Cqe.data = l.map some)
    (ha : a ∈ l) : ended s a := by
  have hmem : some a ∈ s.posted.map Cqe.data := by
    rw [h]
    exact List.mem_map_of_mem ha
  obtain ⟨c, hc, hdata⟩ := List.mem_map.mp hmem
  exact ⟨c, hc, hdata⟩

/-- Four clients arrive, and the first two have their answers. -/
def fourClients : List Label :=
  [.coSpawn, .runOnce false, .go, .user .asyncDrainOperation, .user (.await 0), .go, .go, .finish 0 7 false false,
    .go, .user .coSpawn, .user .asyncDrainOperation, .user (.await 1), .go,
    .runOnce false, .go, .user .asyncOperation, .user (.await 2), .go, .go, .finish 1 8 false false,
    .finish 2 5 false false, .go, .user .coSpawn, .user .asyncDrainOperation, .user (.await 3), .go,
    .user .asyncOperation, .user (.await 4), .go,
    .runOnce false, .go, .user .asyncOperation, .user (.await 5), .go, .go, .finish 3 9 false false,
    .finish 4 5 false false, .finish 5 6 false false, .go, .user .coSpawn, .user .asyncDrainOperation,
    .user (.await 6), .go, .user .asyncOperation, .user (.await 7), .go, .user .asyncOperation, .user (.await 8), .go,
    .runOnce false, .go, .user .asyncOperation, .user (.await 9), .go, .go, .finish 6 10 false false,
    .finish 8 6 false false].map fun l => (l, false)

theorem fourClients_run : ∃ x, (machine smallConfig).Reachable x ∧ x.2.clients = [1, 2, 3] ∧
    x.2.accepts = [0, 1, 3, 6] ∧ x.2.writes 1 = some 4 ∧ x.2.writes 2 = some 8 ∧
    x.1.posted.map Cqe.data = [0, 1, 2, 3, 4, 5, 6, 8].map some := by
  have hrun : ∃ x, (machine smallConfig).run (.start, .start) fourClients = some x ∧
      x.2.clients = [1, 2, 3] ∧ x.2.accepts = [0, 1, 3, 6] ∧ x.2.writes 1 = some 4 ∧ x.2.writes 2 = some 8 ∧
      x.1.posted.map Cqe.data = [0, 1, 2, 3, 4, 5, 6, 8].map some := ⟨_, rfl, rfl, rfl, rfl, rfl, rfl⟩
  obtain ⟨x, hx, hrest⟩ := hrun
  exact ⟨x, Machine.Reachable.of_run ⟨init_start, rfl⟩ hx, hrest⟩

/-- Client 0 has its answer between the arrivals of clients 2 and 3. -/
theorem answered_when_fourClients : ∃ x, (machine smallConfig).Reachable x ∧
    (∃ b, x.2.accepts[2]? = some b ∧ b < 4 ∧ ended x.1 b) ∧
      ∃ w, x.2.writes 1 = some w ∧ w < 6 ∧ ended x.1 w := by
  obtain ⟨x, h, hclients, haccepts, hwrites, -, hposted⟩ := fourClients_run
  have hk : x.2.clients[0]? = some 1 := by rw [hclients]; rfl
  refine ⟨x, h, (answered_when h hk).1 4 hwrites (.inl ?_), (answered_when h hk).2 6 ?_ (.inl ?_)⟩
  · exact posted_ended hposted (by decide)
  · rw [haccepts]
    rfl
  · exact posted_ended hposted (by decide)

/-- The server responds to each previous client before it responds to a new one. -/
theorem answers_in_order {x : State × Program} (h : (machine cfg).Reachable x) {j : Nat}
    (hj : x.2.clients[j]? = some f) (hk : x.2.clients[k]? = some g) (hjk : j < k) {w : Nat}
    (hw : x.2.writes g = some w) (hstarted : started x.1 w) :
    ∃ v, x.2.writes f = some v ∧ v < w ∧ ended x.1 v := by
  induction k generalizing g w with
  | zero => omega
  | succ k ih =>
      obtain ⟨e, he⟩ : ∃ e, x.2.clients[k]? = some e :=
        ⟨_, List.getElem?_eq_getElem (by have hlt := (List.getElem?_eq_some_iff.mp hk).1; omega)⟩
      -- the accept operation between the two writes
      obtain ⟨b, hb, hlt, hended⟩ := accept_before h hk hw hstarted
      obtain ⟨v, hv, hltv, hendedv⟩ := write_before h he hb (.inl hended)
      by_cases hlast : j = k
      · subst hlast
        obtain rfl : f = e := Option.some.inj (hj.symm.trans he)
        exact ⟨v, hv, by omega, hendedv⟩
      · obtain ⟨u, hu, hltu, hendedu⟩ := ih he (by omega) hv (.inl hendedv)
        exact ⟨u, hu, by omega, hendedu⟩

/-- Clients 0 and 1 have their answers, in this order. -/
theorem answers_in_order_fourClients : ∃ x, (machine smallConfig).Reachable x ∧ ended x.1 8 ∧
    ∃ v, x.2.writes 1 = some v ∧ v < 8 ∧ ended x.1 v := by
  obtain ⟨x, h, hclients, -, -, hwrites, hposted⟩ := fourClients_run
  have hended := posted_ended hposted (a := 8) (by decide)
  have hj : x.2.clients[0]? = some 1 := by rw [hclients]; rfl
  have hk : x.2.clients[1]? = some 2 := by rw [hclients]; rfl
  exact ⟨x, h, hended, answers_in_order h hj hk (by decide) hwrites (.inl hended)⟩

end Answers

end IoUring.Coroutine.DrainServer
