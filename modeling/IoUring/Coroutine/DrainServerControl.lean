import IoUring.Coroutine.DrainServerRequests

/-!
# Who runs in the drain server

A coroutine runs, waits for the operation it is at, or is new and in the queue of the
context. The queue holds one coroutine at most: as long as a new client is in it, the next
accept operation is not submitted.
-/

namespace IoUring.Coroutine.DrainServer

variable {cfg : Config} {s s' : State} {p p' : Program} {f g : Nat} {pc : Point}

/-! ## Points -/

/-- The points of `server`. -/
def Point.ofServer : Point → Bool
  | .accept => true
  | .accepting _ => true
  | .spawn => true
  | _ => false

/-- The coroutine is at no operation and goes on. -/
def Point.active (pc : Point) : Bool :=
  pc.act.isSome && pc.operation.isNone

theorem Point.active_of_act {act : UserAct} (hact : pc.act = some act) (hawait : ∀ a, act ≠ .await a) :
    pc.active = true ∧ pc.operation = none := by
  cases pc <;> simp [Point.act] at hact <;> subst hact <;>
    first | exact ⟨rfl, rfl⟩ | exact absurd rfl (hawait _)

theorem Point.constructed_operation {drain : Bool} (a : Nat)
    (hact : pc.act = some (if drain then .asyncDrainOperation else .asyncOperation)) :
    (pc.constructed a).operation = some a ∧ (pc.constructed a).ofServer = pc.ofServer ∧
      (drain = true ↔ pc = .accept) ∧ (pc.ofServer = true → pc = .accept) := by
  cases drain <;> cases pc <;> simp [Point.act] at hact <;>
    simp [Point.operation, Point.constructed, Point.ofServer]

theorem Point.await_operation {a : Nat} (hact : pc.act = some (.await a)) : pc.operation = some a := by
  cases pc <;> simp [Point.act] at hact <;> simp [Point.operation, hact]

theorem Point.resumed_operation {a : Nat} (h : pc.operation = some a) (res : Int) (zz : Bool) :
    (pc.resumed res zz).operation = none ∧
      (pc.ofServer = true → pc = .accepting a ∧ (pc.resumed res zz = .exit ∨ pc.resumed res zz = .spawn)) ∧
      (pc.ofServer = false → (pc.resumed res zz).ofServer = false) := by
  cases pc <;> simp only [Point.operation, Option.some.injEq, reduceCtorEq] at h <;> subst h <;>
    simp only [Point.resumed]
  · split <;> simp [Point.operation, Point.ofServer]
  · split <;> simp [Point.operation, Point.ofServer]
  · split
    · simp [Point.operation, Point.ofServer]
    · split <;> simp [Point.operation, Point.ofServer]
  · simp [Point.operation, Point.ofServer]

theorem Point.resumed_spawn {a : Nat} {res : Int} {zz : Bool} (h : pc.operation = some a)
    (hspawn : pc.resumed res zz = .spawn) : pc = .accepting a := by
  obtain ⟨hnone, hserver, hclient⟩ := Point.resumed_operation h res zz
  by_cases hof : pc.ofServer = true
  · exact (hserver hof).1
  · have hof := hclient (by simpa using hof)
    rw [hspawn] at hof
    cases hof

/-- A point at which a coroutine has to go on is not the end. -/
theorem Point.ne_gone {act : UserAct} (hact : pc.act = some act) : pc ≠ .gone := by
  rintro rfl
  cases hact

theorem Point.active_or_operation (hgone : pc ≠ .gone) (hexit : pc ≠ .exit) :
    pc.active = true ∨ ∃ a, pc.operation = some a := by
  cases pc <;> simp_all [Point.active, Point.act, Point.operation]

/-- Coroutine `f` goes to `pc`. -/
structure Moves (p p' : Program) (f : Nat) (pc : Point) : Prop where
  point : ∀ g, p'.point g = if g = f then pc else p.point g
  server : p'.server = p.server
  clients : p'.clients = p.clients

theorem goto_moves (p : Program) (f : Nat) (pc : Point) : Moves p (p.goto f pc) f pc :=
  ⟨fun g => by simp only [Program.goto, Function.update_apply], rfl, rfl⟩

theorem construct_moves (p : Program) (f a : Nat) :
    Moves p (p.construct f a) f ((p.point f).constructed a) := by
  have hsame : (p.construct f a).point = (p.goto f ((p.point f).constructed a)).point ∧
      (p.construct f a).server = p.server ∧ (p.construct f a).clients = p.clients := by
    simp only [Program.construct]
    split <;> exact ⟨rfl, rfl, rfl⟩
  obtain ⟨hpoint, hserver, hclients⟩ := hsame
  exact ⟨by rw [hpoint]; exact (goto_moves p f _).point, hserver, hclients⟩

theorem construct_reads (p : Program) (f a g : Nat) : (p.construct f a).reads g =
    if g = f ∧ p.point f = .read ∧ p.reads f = none then some a else p.reads g := by
  simp only [Program.construct]
  cases hpoint : p.point f <;> try simp [Program.goto]
  by_cases hnone : p.reads f = none <;> simp [hnone, Function.update_apply]

theorem construct_writes (p : Program) (f a g : Nat) : (p.construct f a).writes g =
    if g = f ∧ p.point f = .write ∧ p.writes f = none then some a else p.writes g := by
  simp only [Program.construct]
  cases hpoint : p.point f <;> try simp [Program.goto]
  by_cases hnone : p.writes f = none <;> simp [hnone, Function.update_apply]

theorem resume_moves (p : Program) (f : Nat) (res : Int) (zz : Bool) :
    Moves p (p.resume f res zz) f ((p.point f).resumed res zz) :=
  ⟨(goto_moves p f _).point, rfl, rfl⟩

theorem spawn_point (p : Program) (f child g : Nat) : (p.spawn f child).point g =
    if g = child then .read else if g = f then .accept else p.point g := by
  simp only [Program.spawn, (goto_moves _ _ _).point]

theorem Moves.self (h : Moves p p' f pc) : p'.point f = pc := by
  rw [h.point, if_pos rfl]

theorem Moves.other (h : Moves p p' f pc) (hg : g ≠ f) : p'.point g = p.point g := by
  rw [h.point, if_neg hg]

/-- The frames of the program. -/
structure PointsOk (s : State) (p : Program) : Prop where
  known : ∀ f, p.point f ≠ .gone → p.server = some f ∨ f ∈ p.clients
  server : ∀ v, p.server = some v → (p.point v).ofServer = true ∨ p.point v = .exit
  client : ∀ f ∈ p.clients, (p.point f).ofServer = false ∧ p.server ≠ some f
  frames : ∀ f, p.server = some f ∨ f ∈ p.clients → f < s.nextFrame
  nodup : p.clients.Nodup
  unspawned : p.server = none → p.clients = [] ∧ p.accepts = []
  history : ∀ f, f ∉ p.clients → p.reads f = none ∧ p.writes f = none
  exit : ∀ f, p.point f = .exit → p.terminated = true

namespace PointsOk

theorem server_of (h : PointsOk s p) (hf : (p.point f).ofServer = true) : p.server = some f := by
  have hne : p.point f ≠ .gone := by
    intro hgone
    simp [hgone, Point.ofServer] at hf
  refine (h.known f hne).resolve_right fun hclient => ?_
  simp [(h.client f hclient).1] at hf

theorem client_of (h : PointsOk s p) (hgone : p.point f ≠ .gone) (hf : (p.point f).ofServer = false)
    (hterminated : p.terminated = false) : f ∈ p.clients := by
  refine (h.known f hgone).resolve_left fun hserver => ?_
  rcases h.server f hserver with hpoint | hexit
  · simp [hf] at hpoint
  · simp [h.exit f hexit] at hterminated

theorem same (h : PointsOk s p) (hnext : s'.nextFrame = s.nextFrame) : PointsOk s' p :=
  { h with frames := by rw [hnext]; exact h.frames }

/-- A coroutine goes on with its own code. -/
theorem move (h : PointsOk s p) (hmoves : Moves p p' f pc) (hnext : s'.nextFrame = s.nextFrame)
    (hterminated : p.terminated = false) (hgone : p.point f ≠ .gone)
    (hserver : (p.point f).ofServer = true → pc.ofServer = true ∨ pc = .exit)
    (hclient : (p.point f).ofServer = false → pc.ofServer = false)
    (haccepts : p.server = none → p'.accepts = p.accepts)
    (hhistory : ∀ g, g ∉ p.clients → p'.reads g = p.reads g ∧ p'.writes g = p.writes g)
    (hexit : pc = .exit → p'.terminated = true) : PointsOk s' p' where
  known := by
    intro g hg
    rw [hmoves.server, hmoves.clients]
    by_cases hgf : g = f
    · exact hgf ▸ h.known f hgone
    · exact h.known g (hmoves.other hgf ▸ hg)
  server := by
    intro v hv
    rw [hmoves.server] at hv
    by_cases hvf : v = f
    · subst hvf
      rw [hmoves.self]
      refine hserver ((h.server v hv).resolve_right fun hexit => ?_)
      simp [h.exit v hexit] at hterminated
    · rw [hmoves.other hvf]
      exact h.server v hv
  client := by
    intro g hg
    rw [hmoves.clients] at hg
    rw [hmoves.server]
    refine ⟨?_, (h.client g hg).2⟩
    by_cases hgf : g = f
    · subst hgf
      rw [hmoves.self]
      exact hclient (h.client g hg).1
    · rw [hmoves.other hgf]
      exact (h.client g hg).1
  frames := by rw [hmoves.server, hmoves.clients, hnext]; exact h.frames
  nodup := by rw [hmoves.clients]; exact h.nodup
  unspawned := by
    rw [hmoves.server, hmoves.clients]
    intro hnone
    rw [haccepts hnone]
    exact h.unspawned hnone
  history := by
    rw [hmoves.clients]
    intro g hg
    obtain ⟨hreads, hwrites⟩ := hhistory g hg
    rw [hreads, hwrites]
    exact h.history g hg
  exit := by
    intro g hg
    by_cases hgf : g = f
    · subst hgf
      exact hexit (hmoves.self ▸ hg)
    · rw [hmoves.other hgf] at hg
      simp [h.exit g hg] at hterminated

/-- `co_await` has returned in coroutine `f`. -/
theorem resume (h : PointsOk s p) {a : Nat} (hpoint : (p.point f).operation = some a)
    (hnext : s'.nextFrame = s.nextFrame) (hterminated : p.terminated = false) (res : Int) (zz : Bool) :
    PointsOk s' (p.resume f res zz) := by
  obtain ⟨-, hserver, hclient⟩ := Point.resumed_operation hpoint res zz
  refine h.move (resume_moves p f res zz) hnext hterminated ?_ (fun hof => ?_) hclient (fun _ => rfl)
    (fun _ _ => ⟨rfl, rfl⟩) fun hexit => by simp [Program.resume, hexit]
  · intro hgone
    simp [hgone, Point.operation] at hpoint
  · rcases (hserver hof).2 with hexit | hspawn
    · exact .inr hexit
    · exact .inl (by rw [hspawn]; rfl)

/-- `server` spawns a coroutine for a new client. -/
theorem spawn (h : PointsOk s p) (hpoint : p.point f = .spawn) :
    PointsOk (coSpawn s) (p.spawn f s.nextFrame) := by
  have hserver : p.server = some f := h.server_of (by rw [hpoint]; rfl)
  have hlt : f < s.nextFrame := h.frames f (.inl hserver)
  have hnew : s.nextFrame ∉ p.clients := fun hmem => lt_irrefl _ (h.frames _ (.inr hmem))
  have hclients : ∀ g, g ∈ (p.spawn f s.nextFrame).clients ↔ g ∈ p.clients ∨ g = s.nextFrame := by
    simp [Program.spawn]
  exact {
    known := by
      intro g hg
      rw [hclients]
      rw [spawn_point] at hg
      by_cases hgc : g = s.nextFrame
      · exact .inr (.inr hgc)
      · by_cases hgf : g = f
        · exact .inl (hgf ▸ hserver)
        · rw [if_neg hgc, if_neg hgf] at hg
          exact (h.known g hg).imp_right .inl
    server := by
      intro v hv
      obtain rfl : f = v := Option.some.inj (hserver.symm.trans hv)
      rw [spawn_point, if_neg (Nat.ne_of_lt hlt), if_pos rfl]
      exact .inl rfl
    client := by
      intro g hg
      rw [hclients] at hg
      rw [spawn_point]
      rcases hg with hg | rfl
      · have hgf : g ≠ f := by
          rintro rfl
          exact (h.client g hg).2 hserver
        rw [if_neg (by rintro rfl; exact hnew hg), if_neg hgf]
        exact h.client g hg
      · rw [if_pos rfl]
        exact ⟨rfl, fun hv => Nat.ne_of_lt hlt (Option.some.inj (hserver.symm.trans hv))⟩
    frames := by
      intro g hg
      rw [hclients] at hg
      simp only [coSpawn]
      rcases hg with hg | hg | rfl
      · exact Nat.lt_succ_of_lt (h.frames g (.inl hg))
      · exact Nat.lt_succ_of_lt (h.frames g (.inr hg))
      · exact Nat.lt_succ_self _
    nodup := by
      simp only [Program.spawn]
      rw [List.nodup_append]
      refine ⟨h.nodup, by simp, ?_⟩
      rintro g hg _ hc rfl
      exact hnew (List.mem_singleton.mp hc ▸ hg)
    unspawned := fun hnone => by
      rw [show p.server = none from hnone] at hserver
      cases hserver
    history := fun g hg => h.history g fun hmem => hg ((hclients g).mpr (.inl hmem))
    exit := by
      intro g hg
      rw [spawn_point] at hg
      split at hg
      · cases hg
      · split at hg
        · cases hg
        · exact h.exit g hg }

/-- `main` spawns `server`. -/
theorem start (h : PointsOk s p) (hserver : p.server = none) :
    PointsOk (coSpawn s) { p.goto s.nextFrame .accept with server := some s.nextFrame } := by
  obtain ⟨hclients, haccepts⟩ := h.unspawned hserver
  have hmoves := goto_moves p s.nextFrame .accept
  have hgone : ∀ g, g ≠ s.nextFrame → (p.goto s.nextFrame .accept).point g = .gone := by
    intro g hg
    rw [hmoves.other hg]
    by_contra hne
    rcases h.known g hne with hknown | hknown
    · simp [hserver] at hknown
    · simp [hclients] at hknown
  exact {
    known := by
      intro g hg
      by_contra hnot
      refine hg (hgone g ?_)
      rintro rfl
      exact hnot (.inl rfl)
    server := by
      rintro v ⟨⟩
      exact .inl (by simp only [hmoves.self]; rfl)
    client := by
      intro g hg
      have hmem : g ∈ p.clients := hg
      simp [hclients] at hmem
    frames := by
      rintro g (hg | hg)
      · obtain rfl : s.nextFrame = g := by simpa using hg
        exact Nat.lt_succ_self _
      · have hmem : g ∈ p.clients := hg
        simp [hclients] at hmem
    nodup := h.nodup
    unspawned := by simp
    history := h.history
    exit := by
      intro g hg
      by_cases hgf : g = s.nextFrame
      · subst hgf
        simp [hmoves.self] at hg
      · simp [hgone g hgf] at hg }

end PointsOk

/-! ## Control -/

/-- The next accept operation does not exist yet, or its request is not submitted. -/
def Pending (s : State) (p : Program) : Prop :=
  p.accepts.length = p.clients.length ∨
    ∃ a, p.accepts.getLast? = some a ∧ ∃ e ∈ s.ring.sq, e.data = some a

/-- A coroutine in the queue is `server` at its beginning, or the newest client. -/
def New (s : State) (p : Program) (f : Nat) : Prop :=
  p.point f = .accept ∧ p.accepts = [] ∨
    p.point f = .read ∧ p.clients.getLast? = some f ∧ p.reads f = none ∧ Pending s p

/-- Where the coroutines are in the context. -/
structure Control (s : State) (p : Program) : Prop where
  switchSpsc : s.switchSpsc = []
  running : ∀ h, s.running = some h → h.callers = [] ∧ h ∉ s.operations
  operation : ∀ f a, (p.point f).operation = some a → s.suspended a = some ⟨f, []⟩ ∨
    s.running = some ⟨f, []⟩ ∧ s.suspended a = none ∧ a + 1 = s.next ∧
      (s.object a).userData.cqe = none
  suspended : ∀ a h, s.suspended a = some h → h.callers = [] ∧ (p.point h.frame).operation = some a
  active : ∀ f, (p.point f).active = true → s.running = some ⟨f, []⟩ ∨ ⟨f, []⟩ ∈ s.operations
  queued : ∀ h ∈ s.operations, h.callers = [] ∧ New s p h.frame
  single : s.operations.length ≤ 1
  launch : ∀ n, s.phase = .launch n → s.operations.length = n
  submit : s.phase = .submit → s.operations = []
  idle : s.phase = .idle → s.running = none
  spawn : ∀ f, p.point f = .spawn → s.operations = [] ∧ ∃ done, s.phase = .reap done

namespace Control

/-- Everybody who is not running waits, or is in the queue. -/
theorem waiting (h : Control s p) (hgone : p.point f ≠ .gone) (hexit : p.point f ≠ .exit)
    (hrun : s.running ≠ some ⟨f, []⟩) :
    ⟨f, []⟩ ∈ s.operations ∨ ∃ a, (p.point f).operation = some a ∧ s.suspended a = some ⟨f, []⟩ := by
  rcases Point.active_or_operation hgone hexit with hactive | ⟨a, ha⟩
  · exact .inl ((h.active f hactive).resolve_left hrun)
  · refine .inr ⟨a, ha, (h.operation f a ha).resolve_right ?_⟩
    rintro ⟨hrunning, -⟩
    exact hrun hrunning

/-- A step of the loop, or of the kernel. -/
theorem same (h : Control s p) (hrunning : s'.running = s.running) (hsuspended : s'.suspended = s.suspended)
    (hoperations : s'.operations = s.operations) (hspsc : s'.switchSpsc = s.switchSpsc)
    (hnext : s'.next = s.next) (hobject : s.running ≠ none → s'.object = s.object)
    (hsq : s.operations ≠ [] → s'.ring.sq = s.ring.sq)
    (hlaunch : ∀ n, s'.phase = .launch n → s.operations.length = n)
    (hsubmit : s'.phase = .submit → s.operations = []) (hidle : s'.phase = .idle → s.running = none)
    (hspawn : s'.phase = s.phase ∨ s.running = none) : Control s' p where
  switchSpsc := hspsc.trans h.switchSpsc
  running := by rw [hrunning, hoperations]; exact h.running
  operation := by
    intro f a hpoint
    rw [hsuspended, hrunning, hnext]
    refine (h.operation f a hpoint).imp_right fun ⟨hrun, hrest⟩ => ⟨hrun, ?_⟩
    rw [hobject (by simp [hrun])]
    exact hrest
  suspended := by rw [hsuspended]; exact h.suspended
  active := by rw [hrunning, hoperations]; exact h.active
  queued := by
    rw [hoperations]
    intro hd hmem
    obtain ⟨hcallers, hnew⟩ := h.queued hd hmem
    refine ⟨hcallers, hnew.imp_right fun ⟨hpoint, hlast, hreads, hpending⟩ => ?_⟩
    refine ⟨hpoint, hlast, hreads, ?_⟩
    rw [Pending, hsq (List.ne_nil_of_mem hmem)]
    exact hpending
  single := by rw [hoperations]; exact h.single
  launch := by rw [hoperations]; exact hlaunch
  submit := by rw [hoperations]; exact hsubmit
  idle := by rw [hrunning]; exact hidle
  spawn := by
    intro f hpoint
    obtain ⟨hnil, hreap⟩ := h.spawn f hpoint
    rw [hoperations]
    refine ⟨hnil, ?_⟩
    rcases hspawn with hphase | hnone
    · rwa [hphase]
    · have hactive := h.active f (by rw [hpoint]; rfl)
      simp [hnone, hnil] at hactive

/-- The first coroutine of the queue is resumed. -/
theorem launched (h : Control s p) {n : Nat} {hd : Handle} {operations : List Handle}
    (hrun : s.running = none) (hphase : s.phase = .launch (n + 1)) (hqueue : s.operations = hd :: operations) :
    operations = [] ∧
      Control { s with operations := operations, running := some hd, phase := .launch n } p := by
  have hsingle := h.single
  rw [hqueue, List.length_cons] at hsingle
  obtain rfl : operations = [] := List.length_eq_zero_iff.mp (by omega)
  have hcount := h.launch _ hphase
  rw [hqueue, List.length_singleton] at hcount
  obtain ⟨hcallers, hnew⟩ := h.queued hd (by simp [hqueue])
  refine ⟨rfl, ?_⟩
  exact {
    switchSpsc := h.switchSpsc
    running := by
      rintro hd' ⟨⟩
      exact ⟨hcallers, List.not_mem_nil⟩
    operation := by
      intro f a hpoint
      refine .inl ((h.operation f a hpoint).resolve_right ?_)
      simp [hrun]
    suspended := h.suspended
    active := by
      intro f hactive
      rcases h.active f hactive with hrunning | hmem
      · simp [hrun] at hrunning
      · rw [hqueue, List.mem_singleton] at hmem
        exact .inl (by rw [hmem])
    queued := by simp
    single := by simp
    launch := by
      intro m hm
      obtain rfl : n = m := by simpa using hm
      simp only [List.length_nil]
      omega
    submit := fun _ => rfl
    idle := by simp
    spawn := by
      intro f hpoint
      obtain ⟨-, done, hreap⟩ := h.spawn f hpoint
      simp [hphase] at hreap }

/-- The running coroutine goes on. -/
theorem goOn (h : Control s p) (hmoves : Moves p p' f pc) (hrun : s.running = some ⟨f, []⟩)
    (hrest : s' = { s with
      ring := s'.ring, next := s'.next, object := s'.object, chains := s'.chains, awaits := s'.awaits
      returned := s'.returned })
    (hfree : ∀ a, s.suspended a ≠ some ⟨f, []⟩) (hnew : ∀ g, g ≠ f → New s p g → New s' p' g)
    (hpc : ∀ a, pc.operation = some a → s.suspended a = none ∧ a + 1 = s'.next ∧
      (s'.object a).userData.cqe = none) (hspawn : pc ≠ .spawn) : Control s' p' := by
  have hrunning : s'.running = s.running := by rw [hrest]
  have hsuspended : s'.suspended = s.suspended := by rw [hrest]
  have hoperations : s'.operations = s.operations := by rw [hrest]
  have hphase : s'.phase = s.phase := by rw [hrest]
  have hqueued : ∀ hd ∈ s.operations, hd.frame ≠ f := by
    rintro ⟨g, callers⟩ hmem rfl
    obtain rfl : callers = [] := (h.queued _ hmem).1
    exact (h.running _ hrun).2 hmem
  exact {
    switchSpsc := by rw [hrest]; exact h.switchSpsc
    running := by rw [hrunning, hoperations]; exact h.running
    operation := by
      intro g a hpoint
      rw [hsuspended, hrunning]
      by_cases hgf : g = f
      · subst hgf
        rw [hmoves.self] at hpoint
        exact .inr ⟨hrun, hpc a hpoint⟩
      · rw [hmoves.other hgf] at hpoint
        refine .inl ((h.operation g a hpoint).resolve_right ?_)
        rintro ⟨hother, -⟩
        simp [hrun, Ne.symm hgf] at hother
    suspended := by
      rw [hsuspended]
      rintro a ⟨g, callers⟩ hwaits
      obtain ⟨hcallers, hpoint⟩ := h.suspended a _ hwaits
      obtain rfl : callers = [] := hcallers
      refine ⟨rfl, ?_⟩
      rwa [hmoves.other]
      rintro rfl
      exact hfree a hwaits
    active := by
      intro g hactive
      rw [hrunning, hoperations]
      by_cases hgf : g = f
      · exact .inl (hgf ▸ hrun)
      · exact h.active g (hmoves.other hgf ▸ hactive)
    queued := by
      rw [hoperations]
      intro hd hmem
      exact ⟨(h.queued hd hmem).1, hnew _ (hqueued hd hmem) (h.queued hd hmem).2⟩
    single := by rw [hoperations]; exact h.single
    launch := by rw [hoperations, hphase]; exact h.launch
    submit := by rw [hoperations, hphase]; exact h.submit
    idle := by rw [hrunning, hphase]; exact h.idle
    spawn := by
      intro g hpoint
      rw [hoperations, hphase]
      by_cases hgf : g = f
      · subst hgf
        exact absurd (hmoves.self ▸ hpoint) hspawn
      · exact h.spawn g (hmoves.other hgf ▸ hpoint) }

/-- The running coroutine waits for its operation. -/
theorem suspend (h : Control s p) {a : Nat} (hrun : s.running = some ⟨f, []⟩)
    (hpoint : (p.point f).operation = some a) (hfree : s.suspended a = none) :
    Control (s.suspend ⟨f, []⟩ a) p where
  switchSpsc := h.switchSpsc
  running := by simp [State.suspend]
  operation := by
    intro g b hg
    simp only [State.suspend]
    by_cases hb : b = a
    · subst hb
      rcases h.operation g b hg with hwaits | ⟨hother, -⟩
      · simp [hfree] at hwaits
      · obtain rfl : f = g := by simpa [hrun] using hother
        exact .inl (Function.update_self ..)
    · rw [Function.update_of_ne hb]
      refine .inl ((h.operation g b hg).resolve_right ?_)
      rintro ⟨hother, -⟩
      obtain rfl : f = g := by simpa [hrun] using hother
      exact hb (Option.some.inj (hg.symm.trans hpoint))
  suspended := by
    intro b hd hwaits
    simp only [State.suspend] at hwaits
    by_cases hb : b = a
    · subst hb
      rw [Function.update_self, Option.some.injEq] at hwaits
      subst hwaits
      exact ⟨rfl, hpoint⟩
    · rw [Function.update_of_ne hb] at hwaits
      exact h.suspended b hd hwaits
  active := by
    intro g hactive
    refine .inr ((h.active g hactive).resolve_left fun hother => ?_)
    obtain rfl : f = g := by simpa [hrun] using hother
    simp [Point.active, hpoint] at hactive
  queued := h.queued
  single := h.single
  launch := h.launch
  submit := h.submit
  idle := fun _ => rfl
  spawn := h.spawn

/-- The running coroutine is at its end. -/
theorem ret (h : Control s p) (hrun : s.running = some ⟨f, []⟩) (hactive : (p.point f).active = true) :
    Control { s with running := none } (p.goto f .gone) := by
  have hmoves := goto_moves p f .gone
  have hoperation : (p.point f).operation = none := by
    rw [Point.active, Bool.and_eq_true, Option.isNone_iff_eq_none] at hactive
    exact hactive.2
  exact {
    switchSpsc := h.switchSpsc
    running := by simp
    operation := by
      intro g a hpoint
      by_cases hgf : g = f
      · subst hgf
        simp [hmoves.self, Point.operation] at hpoint
      · rw [hmoves.other hgf] at hpoint
        refine .inl ((h.operation g a hpoint).resolve_right ?_)
        rintro ⟨hother, -⟩
        simp [hrun, Ne.symm hgf] at hother
    suspended := by
      intro a hd hwaits
      obtain ⟨hcallers, hpoint⟩ := h.suspended a hd hwaits
      refine ⟨hcallers, ?_⟩
      rwa [hmoves.other]
      intro hf
      rw [hf, hoperation] at hpoint
      cases hpoint
    active := by
      intro g hg
      by_cases hgf : g = f
      · subst hgf
        simp [hmoves.self, Point.active, Point.act] at hg
      · refine .inr ((h.active g (hmoves.other hgf ▸ hg)).resolve_left ?_)
        simp [hrun, Ne.symm hgf]
    queued := by
      rintro ⟨g, callers⟩ hmem
      obtain ⟨hcallers, hnew⟩ := h.queued _ hmem
      obtain rfl : callers = [] := hcallers
      have hgf : g ≠ f := by
        rintro rfl
        exact (h.running _ hrun).2 hmem
      refine ⟨rfl, ?_⟩
      rw [New, hmoves.other hgf]
      exact hnew
    single := h.single
    launch := h.launch
    submit := h.submit
    idle := fun _ => rfl
    spawn := by
      intro g hg
      by_cases hgf : g = f
      · subst hgf
        simp [hmoves.self] at hg
      · exact h.spawn g (hmoves.other hgf ▸ hg) }

/-- The CQE of an operation resumes the coroutine that waits for it. -/
theorem resume (h : Control s p) {a : Nat} {c : Int} {zz : Bool} (hreap : Reaping s)
    (hsuspended : s.suspended a = some ⟨f, []⟩)
    (hspawn : (p.point f).resumed c zz = .spawn → s.operations = []) :
    Control { s.reaped cfg a with
      returned := (a, c) :: s.returned
      suspended := Function.update s.suspended a none
      running := some ⟨f, []⟩ } (p.resume f c zz) := by
  have hmoves := resume_moves p f c zz
  obtain ⟨-, hpoint⟩ := h.suspended a _ hsuspended
  have hpc := (Point.resumed_operation hpoint c zz).1
  have hqueued : ∀ hd ∈ s.operations, hd.frame ≠ f := by
    intro hd hmem hf
    rcases (h.queued hd hmem).2 with ⟨hnew, -⟩ | ⟨hnew, -⟩ <;>
      simp [← hf, hnew, Point.operation] at hpoint
  exact {
    switchSpsc := h.switchSpsc
    running := by
      rintro hd ⟨⟩
      exact ⟨rfl, fun hmem => hqueued _ hmem rfl⟩
    operation := by
      intro g b hg
      by_cases hgf : g = f
      · subst hgf
        simp [hmoves.self, hpc] at hg
      · rw [hmoves.other hgf] at hg
        have hwaits := (h.operation g b hg).resolve_right (by simp [hreap.running])
        have hb : b ≠ a := by
          rintro rfl
          rw [hsuspended, Option.some.injEq, Handle.mk.injEq] at hwaits
          exact hgf hwaits.1.symm
        exact .inl (by simpa [Function.update_of_ne hb] using hwaits)
    suspended := by
      intro b hd hwaits
      have hb : b ≠ a := by
        rintro rfl
        simp at hwaits
      simp only [Function.update_of_ne hb] at hwaits
      obtain ⟨hcallers, hother⟩ := h.suspended b hd hwaits
      refine ⟨hcallers, ?_⟩
      rwa [hmoves.other]
      intro hf
      rw [hf, hpoint] at hother
      exact hb (Option.some.inj hother).symm
    active := by
      intro g hg
      by_cases hgf : g = f
      · exact .inl (by rw [hgf])
      · exact .inr ((h.active g (hmoves.other hgf ▸ hg)).resolve_left (by simp [hreap.running]))
    queued := by
      intro hd hmem
      obtain ⟨hcallers, hnew⟩ := h.queued hd hmem
      refine ⟨hcallers, ?_⟩
      rw [New, hmoves.other (hqueued hd hmem)]
      exact hnew
    single := h.single
    launch := by simp [State.reaped, State.setUserData, State.setObject, State.passed]
    submit := by simp [State.reaped, State.setUserData, State.setObject, State.passed]
    idle := by simp [State.reaped, State.setUserData, State.setObject, State.passed]
    spawn := by
      intro g hg
      by_cases hgf : g = f
      · subst hgf
        exact ⟨hspawn (hmoves.self ▸ hg), _, rfl⟩
      · rw [hmoves.other hgf] at hg
        have hactive := h.active g (by rw [hg]; rfl)
        simp [hreap.running, (h.spawn g hg).1] at hactive }

/-- `server` spawns a coroutine for a new client. -/
theorem spawned (h : Control s p) (hpoints : PointsOk s p) (hrun : s.running = some ⟨f, []⟩)
    (hpoint : p.point f = .spawn) (haccepts : p.accepts.length = p.clients.length + 1) :
    Control (coSpawn s) (p.spawn f s.nextFrame) := by
  obtain ⟨hnil, done, hreap⟩ := h.spawn f hpoint
  have hserver : p.server = some f := hpoints.server_of (by rw [hpoint]; rfl)
  have hlt : f < s.nextFrame := hpoints.frames f (.inl hserver)
  have hother : ∀ g, g ≠ s.nextFrame → g ≠ f → (p.spawn f s.nextFrame).point g = p.point g := by
    intro g hgc hgf
    rw [spawn_point, if_neg hgc, if_neg hgf]
  have hself : (p.spawn f s.nextFrame).point f = .accept := by
    rw [spawn_point, if_neg (Nat.ne_of_lt hlt), if_pos rfl]
  have hchild : (p.spawn f s.nextFrame).point s.nextFrame = .read := by rw [spawn_point, if_pos rfl]
  have hfresh : p.point s.nextFrame = .gone := by
    by_contra hgone
    exact lt_irrefl _ (hpoints.frames _ (hpoints.known _ hgone))
  exact {
    switchSpsc := h.switchSpsc
    running := by
      intro hd hd'
      obtain rfl : ⟨f, []⟩ = hd := Option.some.inj (hrun.symm.trans hd')
      simp [coSpawn, hnil, Nat.ne_of_lt hlt]
    operation := by
      intro g a hg
      have hgc : g ≠ s.nextFrame := by
        rintro rfl
        simp [hchild, Point.operation] at hg
      have hgf : g ≠ f := by
        rintro rfl
        simp [hself, Point.operation] at hg
      rw [hother g hgc hgf] at hg
      exact h.operation g a hg
    suspended := by
      intro a hd hwaits
      obtain ⟨hcallers, hwaits⟩ := h.suspended a hd hwaits
      refine ⟨hcallers, ?_⟩
      rwa [hother]
      · intro hf
        simp [hf, hfresh, Point.operation] at hwaits
      · intro hf
        simp [hf, hpoint, Point.operation] at hwaits
    active := by
      intro g hg
      by_cases hgc : g = s.nextFrame
      · exact .inr (by simp [coSpawn, hgc])
      · by_cases hgf : g = f
        · exact .inl (hgf ▸ hrun)
        · rw [hother g hgc hgf] at hg
          exact (h.active g hg).imp_right fun hmem => List.mem_append_left _ hmem
    queued := by
      intro hd hmem
      simp only [coSpawn, hnil, List.nil_append, List.mem_singleton] at hmem
      subst hmem
      refine ⟨rfl, .inr ⟨hchild, by simp [Program.spawn], ?_, .inl ?_⟩⟩
      · exact (hpoints.history _ fun hmem => lt_irrefl _ (hpoints.frames _ (.inr hmem))).1
      · simp [Program.spawn, haccepts]
    single := by simp [coSpawn, hnil]
    launch := by
      intro n hn
      have hn : s.phase = .launch n := hn
      simp [hreap] at hn
    submit := by
      intro hn
      have hn : s.phase = .submit := hn
      simp [hreap] at hn
    idle := by
      intro hn
      have hn : s.phase = .idle := hn
      simp [hreap] at hn
    spawn := by
      intro g hg
      rw [spawn_point] at hg
      split at hg
      · cases hg
      · split at hg
        · cases hg
        · next hgf =>
            have hg := hpoints.server_of (f := g) (by rw [hg]; rfl)
            exact absurd (Option.some.inj (hg.symm.trans hserver)) hgf }

/-- `main` spawns `server`. -/
theorem start (h : Control s p) (hpoints : PointsOk s p) (hserver : p.server = none)
    (hphase : s.phase = .idle) :
    Control (coSpawn s) { p.goto s.nextFrame .accept with server := some s.nextFrame } := by
  obtain ⟨hclients, haccepts⟩ := hpoints.unspawned hserver
  have hmoves := goto_moves p s.nextFrame .accept
  have hgone : ∀ g, p.point g = .gone := by
    intro g
    by_contra hne
    rcases hpoints.known g hne with hknown | hknown
    · simp [hserver] at hknown
    · simp [hclients] at hknown
  have hnil : s.operations = [] := by
    refine List.eq_nil_iff_forall_not_mem.mpr fun hd hmem => ?_
    rcases (h.queued hd hmem).2 with ⟨hpoint, -⟩ | ⟨hpoint, -⟩ <;> simp [hgone] at hpoint
  have hpoint : ∀ g, (p.goto s.nextFrame .accept).point g = if g = s.nextFrame then .accept else .gone := by
    intro g
    rw [hmoves.point, hgone]
  exact {
    switchSpsc := h.switchSpsc
    running := by
      intro hd hrun
      have hrun : s.running = some hd := hrun
      simp [h.idle hphase] at hrun
    operation := by
      intro g a hg
      simp only [hpoint] at hg
      split at hg <;> cases hg
    suspended := by
      intro a hd hwaits
      obtain ⟨-, hwaits⟩ := h.suspended a hd hwaits
      simp [hgone, Point.operation] at hwaits
    active := by
      intro g hg
      simp only [hpoint] at hg
      split at hg
      · next hgf => exact .inr (by simp [coSpawn, hgf])
      · cases hg
    queued := by
      intro hd hmem
      simp only [coSpawn, hnil, List.nil_append, List.mem_singleton] at hmem
      subst hmem
      exact ⟨rfl, .inl ⟨hmoves.self, haccepts⟩⟩
    single := by simp [coSpawn, hnil]
    launch := by
      intro n hn
      have hn : s.phase = .launch n := hn
      simp [hphase] at hn
    submit := by
      intro hn
      have hn : s.phase = .submit := hn
      simp [hphase] at hn
    idle := h.idle
    spawn := by
      intro g hg
      simp only [hpoint] at hg
      split at hg <;> cases hg }

end Control

end IoUring.Coroutine.DrainServer
