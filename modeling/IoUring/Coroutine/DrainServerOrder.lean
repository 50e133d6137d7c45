import IoUring.Coroutine.DrainServerControl

/-!
# The order of the answers of the drain server

The first read of a client is between the next accept operation and the one after it, and its
first write is between that one and the following one. Accept operations are barriers, so the
first answers come in the order of the clients.
-/

namespace IoUring.Coroutine.DrainServer

variable {cfg : Config} {s s' : State} {p p' : Program} {f g : Nat}

/-! ## Seen CQEs -/

/-- The loop has passed the CQE of an operation. -/
abbrev seen (s : State) (a : Nat) : Prop :=
  Barrier.Finished Cqe.data (s.posted.take s.seen) a

/-- What is known about the context in a run of the program. -/
structure ContextOk (cfg : Config) (s : State) (p : Program) : Prop where
  ring : RingOk cfg s
  operations : OperationsOk cfg s
  plain : ∀ a, a < s.next → (s.object a).multishot = false
  requests : RequestsOk s p

namespace ContextOk

/-- The CQE of an operation that somebody waits for was not passed. -/
theorem not_seen (h : ContextOk cfg s p) {a : Nat} {hd : Handle} (hwaits : s.suspended a = some hd) :
    ¬seen s a := by
  rintro ⟨c, hc, hdata⟩
  obtain ⟨n, hn⟩ := List.mem_iff_getElem?.mp hc
  rw [List.getElem?_take] at hn
  split at hn
  · next hlt =>
      have ha := h.operations.lt_of_posted (List.mem_of_getElem? hn) hdata
      have hoperation := h.operations.operation a ha (h.plain a ha)
      obtain ⟨-, -, hcqe, halive⟩ := hoperation.waits hd hwaits
      have hres := hoperation.seen halive hcqe n c hlt hn hdata
      exact h.requests.canceled c (List.mem_of_getElem? hn) hres
  · cases hn

/-- A request that is not submitted has no CQE. -/
theorem not_posted (h : ContextOk cfg s p) {a : Nat} {e : Sqe Request} (he : e ∈ s.ring.sq)
    (hdata : e.data = some a) : ¬ended s a := by
  rintro ⟨c, hc, hcdata⟩
  have ha := h.operations.lt_of_posted hc hcdata
  have honce := (h.operations.operation a ha (h.plain a ha)).once
  have hmem : e ∈ s.ring.requests ++ s.ring.sq := List.mem_append_right _ he
  obtain ⟨b, -, howner, -⟩ := h.requests.operation e hmem
  obtain rfl := Option.some.inj ((Sqe.data_of_operation howner).symm.trans hdata)
  have hlive : 0 < (s.ring.live b).length :=
    List.length_pos_of_mem (List.mem_filter.mpr ⟨hmem, by simpa using howner⟩)
  have hposted : 0 < s.posted.countP fun c => c.data = some b :=
    List.countP_pos_iff.mpr ⟨c, hc, by simpa using hcdata⟩
  omega

/-- The CQEs come in the order that the barriers demand. -/
theorem seen_before (h : ContextOk cfg s p) {a b : Nat} (hb : seen s b) (ha : issued s a)
    (hab : Barrier.Before (· ∈ p.accepts) a b) : seen s a :=
  (h.requests.respects.take s.seen).mayStart hb a ha hab

end ContextOk

/-- A CQE that was passed stays passed. -/
theorem seen_mono {a : Nat} (h : seen s a) (hposted : ∃ cs, s'.posted = s.posted ++ cs)
    (hseen : s.seen ≤ s'.seen) : seen s' a := by
  obtain ⟨cs, hposted⟩ := hposted
  refine h.mono fun c hc => ?_
  rw [hposted]
  obtain ⟨n, hn⟩ := List.mem_iff_getElem?.mp hc
  rw [List.getElem?_take] at hn
  split at hn
  · next hlt =>
      obtain ⟨hlength, -⟩ := List.getElem?_eq_some_iff.mp hn
      refine List.mem_of_getElem? (i := n) ?_
      rw [List.getElem?_take, if_pos (by omega), List.getElem?_append_left hlength, hn]
  · cases hn

/-- Nothing is taken back. -/
structure Grows (s s' : State) : Prop where
  posted : ∃ cs, s'.posted = s.posted ++ cs
  seen : s.seen ≤ s'.seen
  next : s.next ≤ s'.next
  sqe : ∀ a, a < s.next → (s'.object a).userData.sqe = (s.object a).userData.sqe

theorem reaped_sqe (a b : Nat) (_ : b < s.next) :
    ((s.reaped cfg a).object b).userData.sqe = (s.object b).userData.sqe :=
  setUserData_sqe s.passed a { (s.object a).userData with
    cqe := some ((s.ring.khead + s.phase.done) % cfg.cqEntries) } rfl b

theorem suspend_sqe (h : Handle) (a b : Nat) (_ : b < s.next) :
    ((s.suspend h a).object b).userData.sqe = (s.object b).userData.sqe :=
  setUserData_sqe s a { (s.object a).userData with h := some h } rfl b

theorem Goes.grows (h : Goes cfg s p s' p') : Grows s s' := by
  cases h with
  | prepare hphase =>
      exact ⟨⟨[], by simp [prepareStep]⟩, by simp [State.seen, prepareStep, hphase, Phase.done], le_rfl,
        fun _ _ => rfl⟩
  | launch _ hphase _ =>
      exact ⟨⟨[], by simp⟩, by simp [State.seen, hphase, Phase.done], le_rfl, fun _ _ => rfl⟩
  | launched _ hphase =>
      exact ⟨⟨[], by simp⟩, by simp [State.seen, hphase, Phase.done], le_rfl, fun _ _ => rfl⟩
  | submit _ hphase =>
      have hdone : (submitStep cfg s).phase.done = 0 := by
        simp only [submitStep]
        split <;> rfl
      refine ⟨⟨[], by simp [submitStep]⟩, ?_, le_rfl, fun _ _ => rfl⟩
      rw [State.seen, State.seen, hdone, hphase]
      exact le_rfl
  | quiet hquiet =>
      exact ⟨⟨[], by simp [hquiet.posted]⟩, hquiet.seen, Nat.le_of_eq hquiet.next.symm,
        fun a _ => hquiet.sqe a⟩
  | finish _ _ _ _ => exact ⟨⟨_, rfl⟩, le_rfl, le_rfl, fun _ _ => rfl⟩
  | @resume a _ _ _ _ _ =>
      exact ⟨⟨[], by simp [State.reaped, State.setUserData, State.setObject, State.passed]⟩,
        Nat.le_succ _, le_rfl, reaped_sqe a⟩
  | construct _ _ hs' =>
      have hcon := Constructs.of_step hs'
      refine ⟨⟨[], by rw [hcon.rest]; simp⟩, ?_, by rw [hcon.next]; exact Nat.le_succ _, fun a ha => ?_⟩
      · rw [hcon.rest, State.seen, State.seen, hcon.ring]
      · rw [hcon.object a (Nat.ne_of_lt ha)]
  | @suspend a _ _ _ _ _ _ _ =>
      exact ⟨⟨[], by simp [State.suspend, State.setUserData, State.setObject]⟩, le_rfl, le_rfl,
        suspend_sqe _ a⟩
  | _ => exact ⟨⟨[], (List.append_nil _).symm⟩, le_rfl, le_rfl, fun _ _ => rfl⟩

/-! ## First requests -/

/-- The first read or the first write of client `f`, between two accept operations. Only an
operation without an SQE, which ends the program, is not issued. -/
structure Placed (s : State) (p : Program) (f r m : Nat) : Prop where
  lt : r < s.next
  issued : (s.object r).userData.sqe = true ∨ r + 1 = s.next ∧ (p.terminated = true ∨
    s.running = some ⟨f, []⟩ ∧ (p.point f = .reading r ∨ p.point f = .writing r))
  after : ∃ a, p.accepts[m]? = some a ∧ a < r
  before : ∀ b, p.accepts[m + 1]? = some b → r < b

namespace Placed

variable {r m : Nat}

/-- Another coroutine runs, or none. -/
theorem sqe (h : Placed s p f r m) (hterminated : p.terminated = false)
    (hother : s.running ≠ some ⟨f, []⟩ ∨ (p.point f).operation ≠ some r) :
    (s.object r).userData.sqe = true := by
  refine h.issued.resolve_right ?_
  rintro ⟨-, hend | ⟨hrun, hpoint⟩⟩
  · simp [hend] at hterminated
  · refine hother.elim (fun hne => hne hrun) fun hne => hne ?_
    rcases hpoint with hpoint | hpoint <;> rw [hpoint] <;> rfl

theorem same (h : Placed s p f r m) (hgrows : Grows s s') (haccepts : p'.accepts = p.accepts)
    (hissued : (s.object r).userData.sqe = true ∨ s'.next = s.next ∧ (p'.terminated = true ∨
      s'.running = s.running ∧ p'.point f = p.point f)) (hterminated : p.terminated = false) :
    Placed s' p' f r m where
  lt := Nat.lt_of_lt_of_le h.lt hgrows.next
  issued := by
    rw [hgrows.sqe r h.lt]
    rcases h.issued with hsqe | ⟨hlast, hrest⟩
    · exact .inl hsqe
    · refine hissued.imp_right fun ⟨hnext, hissued⟩ => ⟨hlast.trans hnext.symm, ?_⟩
      refine hissued.imp_right fun ⟨hrun, hpoint⟩ => ?_
      rw [hrun, hpoint]
      exact hrest.resolve_left (by simp [hterminated])
  after := by rw [haccepts]; exact h.after
  before := by rw [haccepts]; exact h.before

/-- An operation is constructed behind it. -/
theorem construct (h : Placed s p f r m) (hsqe : (s.object r).userData.sqe = true) (hgrows : Grows s s')
    (haccepts : p'.accepts = p.accepts ∨ p'.accepts = p.accepts ++ [s.next]) : Placed s' p' f r m where
  lt := Nat.lt_of_lt_of_le h.lt hgrows.next
  issued := .inl ((hgrows.sqe r h.lt).trans hsqe)
  after := by
    obtain ⟨a, ha, hlt⟩ := h.after
    refine ⟨a, ?_, hlt⟩
    rcases haccepts with haccepts | haccepts
    · rw [haccepts, ha]
    · rw [haccepts, List.getElem?_append_left (List.getElem?_eq_some_iff.mp ha).1, ha]
  before := by
    intro b hb
    rcases haccepts with haccepts | haccepts
    · exact h.before b (haccepts ▸ hb)
    · rw [haccepts, List.getElem?_append] at hb
      split at hb
      · exact h.before b hb
      · obtain rfl : s.next = b := by
          have hmem := List.mem_of_getElem? hb
          exact (List.mem_singleton.mp hmem).symm
        exact h.lt

theorem step (h : Placed s p f r m) (hterminated : p.terminated = false) (hcontrol : Control s p)
    (hgoes : Goes cfg s p s' p') : Placed s' p' f r m := by
  have hgrows := hgoes.grows
  cases hgoes with
  | start _ hphase =>
      exact h.same hgrows rfl (.inl (h.sqe hterminated (.inl (by simp [hcontrol.idle hphase])))) hterminated
  | prepare _ => exact h.same hgrows rfl (.inr ⟨rfl, .inr ⟨rfl, rfl⟩⟩) hterminated
  | launch hrun _ _ =>
      exact h.same hgrows rfl (.inl (h.sqe hterminated (.inl (by simp [hrun])))) hterminated
  | launched _ _ => exact h.same hgrows rfl (.inr ⟨rfl, .inr ⟨rfl, rfl⟩⟩) hterminated
  | submit _ _ => exact h.same hgrows rfl (.inr ⟨rfl, .inr ⟨rfl, rfl⟩⟩) hterminated
  | quiet hquiet =>
      exact h.same hgrows rfl (.inl (h.sqe hterminated (.inl (by simp [hquiet.running.1])))) hterminated
  | finish _ _ _ _ => exact h.same hgrows rfl (.inr ⟨rfl, .inr ⟨rfl, rfl⟩⟩) hterminated
  | resume hreap _ _ =>
      exact h.same hgrows rfl (.inl (h.sqe hterminated (.inl (by simp [hreap.running])))) hterminated
  | @construct hd drain _ hrun hact hs' =>
      refine h.construct (h.sqe hterminated ?_) hgrows ?_
      · by_cases hf : s.running = some ⟨f, []⟩
        · obtain rfl : hd = ⟨f, []⟩ := Option.some.inj (hrun.symm.trans hf)
          have hpoint := Point.active_of_act hact fun a => by cases drain <;> simp
          exact .inr (by simp [hpoint.2])
        · exact .inl hf
      · rw [construct_accepts _ hact]
        cases drain
        · exact .inl rfl
        · exact .inr rfl
  | @suspend a hd hrun hact _ _ hsqe _ =>
      refine h.same hgrows rfl (.inl ?_) hterminated
      rcases h.issued with hissued | ⟨-, hrest⟩
      · exact hissued
      · obtain ⟨hrunning, hpoint⟩ := hrest.resolve_left (by simp [hterminated])
        obtain rfl : hd = ⟨f, []⟩ := Option.some.inj (hrun.symm.trans hrunning)
        have hoperation := Point.await_operation hact
        rcases hpoint with hpoint | hpoint <;> simp only [hpoint, Point.operation] at hoperation <;>
          obtain rfl := Option.some.inj hoperation <;> exact hsqe
  | @ready a hd res zz hrun hact _ _ _ hres =>
      refine h.same hgrows rfl ?_ hterminated
      rcases h.issued with hissued | ⟨-, hrest⟩
      · exact .inl hissued
      · obtain ⟨hrunning, hpoint⟩ := hrest.resolve_left (by simp [hterminated])
        obtain rfl : hd = ⟨f, []⟩ := Option.some.inj (hrun.symm.trans hrunning)
        have hoperation := Point.await_operation hact
        obtain rfl : r = a := by
          rcases hpoint with hpoint | hpoint <;> simp only [hpoint, Point.operation] at hoperation <;>
            exact Option.some.inj hoperation
        cases hsqe : (s.object r).userData.sqe with
        | true => exact .inl rfl
        | false =>
            refine .inr ⟨rfl, .inl ?_⟩
            rcases hpoint with hpoint | hpoint <;>
              simp [Program.resume, hpoint, Point.resumed, hres hsqe, ENOMEM]
  | @spawn hd hrun hact =>
      refine h.same hgrows rfl (.inl (h.sqe hterminated ?_)) hterminated
      by_cases hf : s.running = some ⟨f, []⟩
      · obtain rfl : hd = ⟨f, []⟩ := Option.some.inj (hrun.symm.trans hf)
        have hpoint := Point.active_of_act hact fun a => by simp
        exact .inr (by simp [hpoint.2])
      · exact .inl hf
  | @ret hd hrun hact =>
      refine h.same hgrows rfl (.inl (h.sqe hterminated ?_)) hterminated
      by_cases hf : s.running = some ⟨f, []⟩
      · obtain rfl : hd = ⟨f, []⟩ := Option.some.inj (hrun.symm.trans hf)
        have hpoint := Point.active_of_act hact fun a => by simp
        exact .inr (by simp [hpoint.2])
      · exact .inl hf

end Placed

/-! ## The accept operations -/

/-- A client arrives with an accept operation. `server` is at the next one, except at its
beginning, or has the result of it. -/
structure ServerOk (s : State) (p : Program) : Prop where
  accepts : ∀ v, p.server = some v →
    p.accepts.length = p.clients.length + if p.point v = .accept then 0 else 1
  accepting : ∀ f a, p.point f = .accepting a → p.accepts.getLast? = some a
  passed : ∀ i a, p.accepts[i]? = some a → i < p.clients.length → seen s a
  last : ∀ f a, p.point f = .spawn → p.accepts.getLast? = some a → seen s a

/-- The invariant of the program, without the clients. -/
structure ServerRun (cfg : Config) (s : State) (p : Program) : Prop extends ContextOk cfg s p where
  points : PointsOk s p
  control : Control s p
  server : ServerOk s p

namespace ServerRun

/-- An operation with a result at once has no SQE. -/
theorem ready_sqe (h : ServerRun cfg s p) {a : Nat} (hpoint : (p.point f).operation = some a)
    (hready : (s.object a).userData.sqe = false ∨ (s.object a).userData.cqe ≠ none) :
    (s.object a).userData.sqe = false := by
  refine hready.resolve_right fun hcqe => ?_
  rcases h.control.operation f a hpoint with hwaits | ⟨-, -, -, hnone⟩
  · have hlt : a < s.next := by
      by_contra hge
      rw [(h.operations.blank a (by omega)).suspended] at hwaits
      cases hwaits
    exact hcqe ((h.operations.operation a hlt (h.plain a hlt)).waits _ hwaits).2.2.1
  · exact hcqe hnone

/-- So it is no accept operation. -/
theorem ready_client (h : ServerRun cfg s p) {a : Nat} (hpoint : (p.point f).operation = some a)
    (hready : (s.object a).userData.sqe = false ∨ (s.object a).userData.cqe ≠ none) :
    (p.point f).ofServer = false := by
  have hsqe := h.ready_sqe hpoint hready
  by_contra hof
  have haccepting := ((Point.resumed_operation hpoint 0 false).2.1 (by simpa using hof)).1
  have hmem := List.mem_of_getLast? (h.server.accepting f a haccepting)
  simp [(h.requests.accepts a hmem).2] at hsqe

/-- When `server` has a new client, the client before it has left the queue. -/
theorem queue_empty (h : ServerRun cfg s p) {a : Nat} (hpoint : p.point f = .accepting a)
    (hended : ended s a) : s.operations = [] := by
  refine List.eq_nil_iff_forall_not_mem.mpr fun hd hmem => ?_
  have hlast := h.server.accepting f a hpoint
  rcases (h.control.queued hd hmem).2 with ⟨-, hnil⟩ | ⟨-, -, -, hpending⟩
  · simp [hnil] at hlast
  · rcases hpending with hlength | ⟨b, hb, e, he, hdata⟩
    · have hserver := h.points.server_of (f := f) (by rw [hpoint]; rfl)
      have haccepts := h.server.accepts f hserver
      rw [if_neg (by simp [hpoint])] at haccepts
      omega
    · obtain rfl := Option.some.inj (hb.symm.trans hlast)
      exact h.not_posted he hdata hended

end ServerRun

namespace ServerOk

theorem same (h : ServerOk s p) (hgrows : Grows s s') : ServerOk s' p where
  accepts := h.accepts
  accepting := h.accepting
  passed := fun i a ha hi => seen_mono (h.passed i a ha hi) hgrows.posted hgrows.seen
  last := fun f a hf ha => seen_mono (h.last f a hf ha) hgrows.posted hgrows.seen

/-- A client goes on. -/
theorem client {pc : Point} (h : ServerOk s p) (hgrows : Grows s s') (hmoves : Moves p p' f pc)
    (haccepts : p'.accepts = p.accepts) (hf : p.server ≠ some f) (hpc : pc.ofServer = false) :
    ServerOk s' p' where
  accepts := by
    intro v hv
    rw [hmoves.server] at hv
    have hvf : v ≠ f := by
      rintro rfl
      exact hf hv
    rw [haccepts, hmoves.clients, hmoves.other hvf]
    exact h.accepts v hv
  accepting := by
    intro g a hg
    by_cases hgf : g = f
    · subst hgf
      simp [hmoves.self ▸ hg, Point.ofServer] at hpc
    · rw [haccepts]
      exact h.accepting g a (hmoves.other hgf ▸ hg)
  passed := by
    intro i a ha hi
    rw [haccepts] at ha
    rw [hmoves.clients] at hi
    exact seen_mono (h.passed i a ha hi) hgrows.posted hgrows.seen
  last := by
    intro g a hg ha
    rw [haccepts] at ha
    by_cases hgf : g = f
    · subst hgf
      simp [hmoves.self ▸ hg, Point.ofServer] at hpc
    · exact seen_mono (h.last g a (hmoves.other hgf ▸ hg) ha) hgrows.posted hgrows.seen

/-- `server` constructs its next accept operation. -/
theorem construct (h : ServerOk s p) (hgrows : Grows s s') (hpoints : PointsOk s p)
    (hpoint : p.point f = .accept) : ServerOk s' (p.construct f s.next) := by
  have hserver := hpoints.server_of (f := f) (by rw [hpoint]; rfl)
  have hmoves := construct_moves p f s.next
  rw [hpoint, Point.constructed] at hmoves
  have hlength := h.accepts f hserver
  rw [if_pos hpoint, Nat.add_zero] at hlength
  have haccepts : (p.construct f s.next).accepts = p.accepts ++ [s.next] := by
    simp [Program.construct, hpoint]
  have hother : ∀ g, g ≠ f → (p.point g).ofServer = false := by
    intro g hgf
    by_contra hof
    have hg := hpoints.server_of (f := g) (by simpa using hof)
    exact hgf (Option.some.inj (hg.symm.trans hserver))
  exact {
    accepts := by
      intro v hv
      obtain rfl : f = v := Option.some.inj (hserver.symm.trans (hmoves.server ▸ hv))
      rw [hmoves.self, hmoves.clients, haccepts, List.length_append, hlength]
      rfl
    accepting := by
      intro g a hg
      by_cases hgf : g = f
      · subst hgf
        rw [hmoves.self, Point.accepting.injEq] at hg
        rw [haccepts, hg, List.getLast?_concat]
      · have hof := hother g hgf
        rw [hmoves.other hgf] at hg
        simp [hg, Point.ofServer] at hof
    passed := by
      intro i a ha hi
      rw [hmoves.clients] at hi
      rw [haccepts, List.getElem?_append_left (by omega)] at ha
      exact seen_mono (h.passed i a ha hi) hgrows.posted hgrows.seen
    last := by
      intro g a hg
      by_cases hgf : g = f
      · subst hgf
        simp [hmoves.self] at hg
      · have hof := hother g hgf
        rw [hmoves.other hgf] at hg
        simp [hg, Point.ofServer] at hof }

/-- `server` has a client. -/
theorem accepted (h : ServerOk s p) (hgrows : Grows s s') (hpoints : PointsOk s p) {a : Nat}
    (hpoint : p.point f = .accepting a) (ha : seen s' a) (res : Int) (zz : Bool) :
    ServerOk s' (p.resume f res zz) := by
  have hserver := hpoints.server_of (f := f) (by rw [hpoint]; rfl)
  have hmoves := resume_moves p f res zz
  have hpc : (p.point f).resumed res zz = .exit ∨ (p.point f).resumed res zz = .spawn :=
    ((Point.resumed_operation (a := a) (by rw [hpoint]; rfl) res zz).2.1 (by rw [hpoint]; rfl)).2
  have hlast := h.accepting f a hpoint
  have hother : ∀ g, g ≠ f → (p.point g).ofServer = false := by
    intro g hgf
    by_contra hof
    have hg := hpoints.server_of (f := g) (by simpa using hof)
    exact hgf (Option.some.inj (hg.symm.trans hserver))
  exact {
    accepts := by
      intro v hv
      obtain rfl : f = v := Option.some.inj (hserver.symm.trans hv)
      have hlength := h.accepts f hserver
      rw [if_neg (by simp [hpoint])] at hlength
      rw [hmoves.self, if_neg (by rcases hpc with hpc | hpc <;> simp [hpc])]
      exact hlength
    accepting := by
      intro g b hg
      by_cases hgf : g = f
      · subst hgf
        rw [hmoves.self] at hg
        rcases hpc with hpc | hpc <;> simp [hpc] at hg
      · have hof := hother g hgf
        rw [hmoves.other hgf] at hg
        simp [hg, Point.ofServer] at hof
    passed := fun i b hb hi => seen_mono (h.passed i b hb hi) hgrows.posted hgrows.seen
    last := by
      intro g b _ hb
      obtain rfl : a = b := Option.some.inj (hlast.symm.trans hb)
      exact ha }

/-- `server` spawns a coroutine for the client. -/
theorem spawn (h : ServerOk s p) (hgrows : Grows s s') (hpoints : PointsOk s p)
    (hpoint : p.point f = .spawn) : ServerOk s' (p.spawn f s.nextFrame) := by
  have hserver := hpoints.server_of (f := f) (by rw [hpoint]; rfl)
  have hlt : f < s.nextFrame := hpoints.frames f (.inl hserver)
  have hlength := h.accepts f hserver
  rw [if_neg (by simp [hpoint])] at hlength
  have hself : (p.spawn f s.nextFrame).point f = .accept := by
    rw [spawn_point, if_neg (Nat.ne_of_lt hlt), if_pos rfl]
  have hother : ∀ g, ((p.spawn f s.nextFrame).point g).ofServer = true →
      (p.spawn f s.nextFrame).point g = .accept := by
    intro g hof
    rw [spawn_point] at hof ⊢
    split at hof
    · cases hof
    · split at hof
      · next hgc hgf => rw [if_neg hgc, if_pos hgf]
      · next hgf =>
          exact absurd (Option.some.inj ((hpoints.server_of hof).symm.trans hserver)) hgf
  exact {
    accepts := by
      intro v hv
      obtain rfl : f = v := Option.some.inj (hserver.symm.trans hv)
      rw [if_pos hself]
      simpa [Program.spawn] using hlength
    accepting := by
      intro g a hg
      have hpc := hother g (by rw [hg]; rfl)
      simp [hg] at hpc
    passed := by
      intro i a ha hi
      refine seen_mono ?_ hgrows.posted hgrows.seen
      by_cases hold : i < p.clients.length
      · exact h.passed i a ha hold
      · have hi : i < p.clients.length + 1 := by simpa [Program.spawn] using hi
        refine h.last f a hpoint ?_
        rw [List.getLast?_eq_getElem?, hlength, Nat.add_sub_cancel]
        obtain rfl : i = p.clients.length := by omega
        exact ha
    last := by
      intro g a hg
      have hpc := hother g (by rw [hg]; rfl)
      simp [hg] at hpc }

/-- `main` spawns `server`. -/
theorem start (hpoints : PointsOk s p) (hserver : p.server = none) :
    ServerOk (coSpawn s) { p.goto s.nextFrame .accept with server := some s.nextFrame } := by
  obtain ⟨hclients, haccepts⟩ := hpoints.unspawned hserver
  have hmoves := goto_moves p s.nextFrame .accept
  exact {
    accepts := by
      rintro v ⟨⟩
      rw [if_pos hmoves.self]
      simp [Program.goto, hclients, haccepts]
    accepting := by
      intro g a hg
      have hg : (p.goto s.nextFrame .accept).point g = .accepting a := hg
      rw [hmoves.point] at hg
      split at hg
      · cases hg
      · have hserver' := hpoints.server_of (f := g) (by rw [hg]; rfl)
        simp [hserver] at hserver'
    passed := by
      intro i a ha
      have ha : p.accepts[i]? = some a := ha
      simp [haccepts] at ha
    last := by
      intro g a _ ha
      have ha : p.accepts.getLast? = some a := ha
      simp [haccepts] at ha }

end ServerOk

/-! ## Steps -/

/-- The CQE that resumes a coroutine was passed. -/
theorem Goes.resumed {a : Nat} (hring : RingOk cfg s) (hreap : Reaping s)
    (hdata : (s.current cfg).data = some a) (hposted : s'.posted = s.posted)
    (hseen : s.seen < s'.seen) : seen s' a := by
  refine ⟨s.current cfg, ?_, hdata⟩
  rw [hposted]
  refine List.mem_of_getElem? (i := s.seen) ?_
  rw [List.getElem?_take, if_pos hseen]
  exact hring.current hreap

namespace ServerRun

/-- A coroutine constructs its next operation. -/
theorem construct (h : ServerRun cfg s p) {drain : Bool} (hterminated : p.terminated = false)
    (hrun : s.running = some ⟨f, []⟩)
    (hact : (p.point f).act = some (if drain then .asyncDrainOperation else .asyncOperation))
    (hcon : Constructs s s' drain) (hgrows : Grows s s') :
    PointsOk s' (p.construct f s.next) ∧ Control s' (p.construct f s.next) ∧
      ServerOk s' (p.construct f s.next) := by
  have hmoves := construct_moves p f s.next
  obtain ⟨hoperation, hof, hdrain, haccept⟩ := Point.constructed_operation s.next hact
  have hactive := Point.active_of_act hact fun a => by cases drain <;> simp
  have haccepts := construct_accepts (p := p) s.next hact
  have hserver : drain = true → p.server = some f := fun hd =>
    h.points.server_of (by rw [hdrain.mp hd]; rfl)
  have hother : ∀ g, g ≠ f → (p.construct f s.next).reads g = p.reads g ∧
      (p.construct f s.next).writes g = p.writes g := by
    intro g hgf
    rw [construct_reads, construct_writes]
    simp [hgf]
  have hpc : ∀ pc : Point, pc.operation = none → (p.point f).constructed s.next ≠ pc := by
    rintro pc hnone rfl
    simp [hoperation] at hnone
  refine ⟨?_, ?_, ?_⟩
  · refine h.points.move hmoves (by rw [hcon.rest]) hterminated (Point.ne_gone hact)
      (fun hserver => .inl (hof.trans hserver)) hof.trans ?_ ?_ fun hexit => absurd hexit (hpc _ rfl)
    · intro hnone
      rw [haccepts, if_neg]
      intro hd
      simp [hserver hd] at hnone
    · intro g hg
      by_cases hgf : g = f
      · subst hgf
        rw [construct_reads, construct_writes]
        have hclient : (p.point g).ofServer = true := by
          by_contra hclient
          exact hg (h.points.client_of (Point.ne_gone hact) (by simpa using hclient) hterminated)
        simp [haccept hclient]
      · exact hother g hgf
  · refine h.control.goOn hmoves hrun ?_ ?_ ?_ ?_ (hpc _ rfl)
    · have hsame : s'.awaits = s.awaits ∧ s'.returned = s.returned := by
        rw [hcon.rest]
        exact ⟨rfl, rfl⟩
      rw [hsame.1, hsame.2]
      exact hcon.rest
    · intro a hwaits
      have hpoint := (h.control.suspended a _ hwaits).2
      simp [hactive.2] at hpoint
    · intro g hgf hnew
      rw [New, hmoves.other hgf, hmoves.clients, (hother g hgf).1]
      rcases hnew with ⟨hpoint, hnil⟩ | ⟨hpoint, hlast, hreads, hpending⟩
      · refine .inl ⟨hpoint, ?_⟩
        rw [haccepts, if_neg, hnil]
        intro hd
        have hg := h.points.server_of (f := g) (by rw [hpoint]; rfl)
        exact hgf (Option.some.inj (hg.symm.trans (hserver hd)))
      · refine .inr ⟨hpoint, hlast, hreads, ?_⟩
        obtain ⟨entries, hsq, -, hentries, hown⟩ := hcon.entries
        rw [Pending, haccepts, hmoves.clients, hsq]
        cases drain with
        | true =>
            obtain ⟨e, he⟩ := List.exists_mem_of_ne_nil _ (hown (hcon.own.2 rfl))
            exact .inr ⟨s.next, by simp, e, List.mem_append_right _ he,
              Sqe.data_of_operation (hentries e he).1⟩
        | false =>
            refine hpending.imp_right ?_
            rintro ⟨a, ha, e, he, hdata⟩
            exact ⟨a, ha, e, List.mem_append_left _ he, hdata⟩
    · intro a ha
      obtain rfl := Option.some.inj (hoperation.symm.trans ha)
      exact ⟨(h.operations.blank _ le_rfl).suspended, hcon.next.symm, hcon.own.1⟩
  · by_cases hd : drain = true
    · exact h.server.construct hgrows h.points (hdrain.mp hd)
    · have hclient : (p.point f).ofServer = false := by
        by_contra hclient
        exact hd (hdrain.mpr (haccept (by simpa using hclient)))
      have hmem := h.points.client_of (Point.ne_gone hact) hclient hterminated
      exact h.server.client hgrows hmoves (by rw [haccepts, if_neg hd]) (h.points.client f hmem).2
        (hof.trans hclient)

theorem step (h : ServerRun cfg s p) (hterminated : p.terminated = false) (hcontext : ContextOk cfg s' p')
    (hgoes : Goes cfg s p s' p') : ServerRun cfg s' p' := by
  have hgrows := hgoes.grows
  suffices hrun : PointsOk s' p' ∧ Control s' p' ∧ ServerOk s' p' from
    ⟨hcontext, hrun.1, hrun.2.1, hrun.2.2⟩
  clear hcontext
  cases hgoes with
  | start hserver hphase =>
      exact ⟨h.points.start hserver, h.control.start h.points hserver hphase, .start h.points hserver⟩
  | prepare hphase =>
      have hnone := h.control.idle hphase
      have hoperations : (prepareStep s false).operations = s.operations := by
        simp [prepareStep, h.control.switchSpsc]
      refine ⟨h.points.same rfl, ?_, h.server.same hgrows⟩
      refine h.control.same rfl rfl hoperations (by simp [prepareStep, h.control.switchSpsc]) rfl
        (fun _ => rfl) (fun _ => rfl) (fun n hn => ?_) (by simp [prepareStep]) (by simp [prepareStep])
        (.inr hnone)
      have hsingle := h.control.single
      simp only [prepareStep, h.control.switchSpsc, List.take_nil, List.append_nil, Phase.launch.injEq] at hn
      simp only [Bool.false_eq_true, if_false] at hn
      omega
  | launch hrun hphase hqueue =>
      exact ⟨h.points.same rfl, (h.control.launched hrun hphase hqueue).2, h.server.same hgrows⟩
  | launched hrun hphase =>
      refine ⟨h.points.same rfl, ?_, h.server.same hgrows⟩
      exact h.control.same rfl rfl rfl rfl rfl (fun _ => rfl) (fun _ => rfl) (by simp)
        (fun _ => List.length_eq_zero_iff.mp (h.control.launch 0 hphase)) (by simp) (.inr hrun)
  | submit hrun hphase =>
      have hnil := h.control.submit hphase
      refine ⟨h.points.same rfl, ?_, h.server.same hgrows⟩
      refine h.control.same rfl rfl rfl rfl rfl (fun _ => rfl) (fun hne => absurd hnil hne) ?_ ?_
        (fun _ => hrun) (.inr hrun)
      · intro n hn
        simp only [submitStep] at hn
        split at hn <;> cases hn
      · exact fun _ => hnil
  | quiet hquiet =>
      refine ⟨h.points.same hquiet.nextFrame, ?_, h.server.same hgrows⟩
      have hphase := hquiet.phase
      refine h.control.same (hquiet.running.2.trans hquiet.running.1.symm) hquiet.suspended hquiet.operations
        hquiet.switchSpsc hquiet.next (fun hne => absurd hquiet.running.1 hne) (fun _ => hquiet.ring.1) ?_ ?_
        (fun _ => hquiet.running.1) (.inr hquiet.running.1)
      · intro n hn
        rcases hphase with hidle | ⟨done, hreap⟩
        · simp [hidle] at hn
        · simp [hreap] at hn
      · intro hn
        rcases hphase with hidle | ⟨done, hreap⟩
        · simp [hidle] at hn
        · simp [hreap] at hn
  | finish _ _ _ _ =>
      refine ⟨h.points.same rfl, ?_, h.server.same hgrows⟩
      exact h.control.same rfl rfl rfl rfl rfl (fun _ => rfl) (fun _ => rfl) h.control.launch
        h.control.submit h.control.idle (.inl rfl)
  | @resume a hd zz hreap hdata hsuspended =>
      obtain ⟨f, callers⟩ := hd
      obtain ⟨hcallers, hpoint⟩ := h.control.suspended a _ hsuspended
      obtain rfl : callers = [] := hcallers
      have hended : ended s a := ⟨_, List.mem_of_getElem? (h.ring.current hreap), hdata⟩
      have hseen : seen { s.reaped cfg a with
          returned := (a, (s.current cfg).res) :: s.returned
          suspended := Function.update s.suspended a none
          running := some ⟨f, []⟩ } a :=
        Goes.resumed h.ring hreap hdata rfl (Nat.lt_succ_self _)
      refine ⟨h.points.resume hpoint (by rfl) hterminated _ zz, ?_, ?_⟩
      · exact h.control.resume hreap hsuspended fun hspawn =>
          h.queue_empty (Point.resumed_spawn hpoint hspawn) hended
      · by_cases hof : (p.point f).ofServer = true
        · exact h.server.accepted hgrows h.points
            ((Point.resumed_operation hpoint 0 false).2.1 hof).1 hseen _ zz
        · have hof : (p.point f).ofServer = false := by simpa using hof
          have hgone : p.point f ≠ .gone := by
            intro hgone
            simp [hgone, Point.operation] at hpoint
          exact h.server.client hgrows (resume_moves p f _ zz) rfl
            (h.points.client f (h.points.client_of hgone hof hterminated)).2
            ((Point.resumed_operation hpoint _ zz).2.2 hof)
  | @construct hd drain _ hrun hact hs' =>
      obtain ⟨f, callers⟩ := hd
      obtain rfl : callers = [] := (h.control.running _ hrun).1
      exact h.construct hterminated hrun hact (.of_step hs') hgrows
  | @suspend a hd hrun hact _ hfree _ _ =>
      obtain ⟨f, callers⟩ := hd
      obtain rfl : callers = [] := (h.control.running _ hrun).1
      exact ⟨h.points.same rfl, h.control.suspend hrun (Point.await_operation hact) hfree,
        h.server.same hgrows⟩
  | @ready a hd res zz hrun hact _ hfree hready _ =>
      obtain ⟨f, callers⟩ := hd
      obtain rfl : callers = [] := (h.control.running _ hrun).1
      have hpoint := Point.await_operation hact
      have hof := h.ready_client hpoint hready
      have hclient := h.points.client_of (Point.ne_gone hact) hof hterminated
      have hmoves := resume_moves p f res zz
      refine ⟨h.points.resume hpoint (by rfl) hterminated res zz, ?_, ?_⟩
      · refine h.control.goOn hmoves hrun rfl ?_ ?_ ?_ ?_
        · intro b hwaits
          obtain rfl := Option.some.inj (hpoint.symm.trans (h.control.suspended b _ hwaits).2)
          rw [hfree] at hwaits
          cases hwaits
        · intro g hgf hnew
          rw [New, hmoves.other hgf]
          exact hnew
        · simp [(Point.resumed_operation hpoint res zz).1]
        · intro hspawn
          rw [Point.resumed_spawn hpoint hspawn] at hof
          cases hof
      · exact h.server.client hgrows hmoves rfl (h.points.client f hclient).2
          ((Point.resumed_operation hpoint res zz).2.2 hof)
  | @spawn hd hrun hact =>
      obtain ⟨f, callers⟩ := hd
      obtain rfl : callers = [] := (h.control.running _ hrun).1
      have hpoint : p.point f = .spawn := by
        cases hpc : p.point f <;> simp [hpc, Point.act] at hact
        rfl
      have hlength := h.server.accepts f (h.points.server_of (by rw [hpoint]; rfl))
      rw [if_neg (by simp [hpoint])] at hlength
      exact ⟨h.points.spawn hpoint, h.control.spawned h.points hrun hpoint hlength,
        h.server.spawn hgrows h.points hpoint⟩
  | @ret hd hrun hact =>
      obtain ⟨f, callers⟩ := hd
      obtain rfl : callers = [] := (h.control.running _ hrun).1
      have hpoint : p.point f = .ret := by
        cases hpc : p.point f <;> simp [hpc, Point.act] at hact
        rfl
      have hclient := h.points.client_of (f := f) (by simp [hpoint]) (by rw [hpoint]; rfl) hterminated
      refine ⟨h.points.move (goto_moves p f .gone) rfl hterminated (by simp [hpoint])
        (by simp [hpoint, Point.ofServer]) (fun _ => rfl) (fun _ => rfl) (fun _ _ => ⟨rfl, rfl⟩) (by simp), ?_, ?_⟩
      · exact h.control.ret hrun (by rw [hpoint]; rfl)
      · exact h.server.client hgrows (goto_moves p f .gone) rfl (h.points.client f hclient).2 rfl

end ServerRun

end IoUring.Coroutine.DrainServer
