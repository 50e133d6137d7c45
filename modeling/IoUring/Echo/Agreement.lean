import IoUring.Coroutine.DrainServerClients
import IoUring.Echo.ServerEcho

/-!
# Callbacks and coroutines

The handlers of the one echo server and the coroutine `echo` of the other one are the same
program for a client: after the same results, a client gets the same operation.
-/

namespace IoUring.Echo

open Coroutine.DrainServer (Point Program Goes ServerRun)

variable {cfg : Coroutine.Config} {reserved : Word → Bool} {p p' : Program} {s s' : Coroutine.State} {f g : Nat}

/-! ## The coroutine -/

/-- The operation of a client at a point of `echo`, or the next one. -/
def nextAt : Point → Next
  | .read => .read
  | .reading _ => .read
  | .write => .write
  | .writing _ => .write
  | .exit => .exit
  | _ => .close

theorem nextAt_constructed (pc : Point) (a : Nat) : nextAt (pc.constructed a) = nextAt pc := by
  cases pc <;> rfl

/-- A result decides what is next, except the one of the last operation. -/
theorem nextAt_resumed {pc : Point} {a : Nat} (hpc : pc.operation = some a) (hclient : pc.ofServer = false)
    (res : Int) (zz : Bool) : nextAt (pc.resumed res zz) =
      if pc.transfers = true then (nextAt pc).after res zz else nextAt pc := by
  cases pc <;> simp only [Point.operation, Point.ofServer, reduceCtorEq, Bool.true_eq_false] at hpc hclient
  · by_cases hneg : res < 0 <;> simp [Point.resumed, Point.transfers, nextAt, Next.after, hneg]
  · by_cases hneg : res < 0
    · simp [Point.resumed, Point.transfers, nextAt, Next.after, hneg]
    · by_cases hclose : res = 0 ∨ 2 < res ∧ zz = true <;>
        simp only [Point.resumed, Point.transfers, nextAt, Next.after, hneg, hclose, if_true, if_false]
  · rfl

/-- Where a client is follows from its results. -/
structure NextOk (p : Program) : Prop where
  client : ∀ f ∈ p.clients, nextAt (p.point f) = .of (p.results f)
  fresh : ∀ f, f ∉ p.clients → p.results f = []

namespace NextOk

theorem move {pc : Point} (h : NextOk p) (hmoves : Coroutine.DrainServer.Moves p p' f pc)
    (hresults : p'.results = p.results) (hpc : f ∈ p.clients → nextAt pc = nextAt (p.point f)) : NextOk p' where
  client := by
    intro g hg
    rw [hmoves.clients] at hg
    rw [hresults, ← h.client g hg]
    by_cases hgf : g = f
    · subst hgf
      rw [hmoves.self, hpc hg]
    · rw [hmoves.other hgf]
  fresh := by
    rw [hmoves.clients, hresults]
    exact h.fresh

theorem resume (h : NextOk p) {a : Nat} (hpoint : (p.point f).operation = some a)
    (hclient : f ∈ p.clients → (p.point f).ofServer = false)
    (hserver : f ∉ p.clients → (p.point f).transfers = false) (res : Int) (zz : Bool) :
    NextOk (p.resume f res zz) where
  client := by
    intro g hg
    have hmoves := Coroutine.DrainServer.resume_moves p f res zz
    have hg : g ∈ p.clients := hg
    by_cases hgf : g = f
    · subst hgf
      rw [hmoves.self, nextAt_resumed hpoint (hclient hg), h.client g hg]
      simp only [Program.resume]
      split
      · rw [Function.update_self, Next.of_concat]
      · rfl
    · rw [hmoves.other hgf, h.client g hg]
      simp only [Program.resume]
      split
      · rw [Function.update_of_ne hgf]
      · rfl
  fresh := by
    intro g hg
    have hg : g ∉ p.clients := hg
    simp only [Program.resume]
    split
    · next htransfers =>
        have hgf : g ≠ f := by
          rintro rfl
          simp [hserver hg] at htransfers
        rw [Function.update_of_ne hgf]
        exact h.fresh g hg
    · exact h.fresh g hg

theorem step (h : NextOk p) (hrun : ServerRun cfg s p) (hterminated : p.terminated = false)
    (hgoes : Goes cfg s p s' p') : NextOk p' := by
  have htransfers : ∀ {f a}, (p.point f).operation = some a →
      (f ∈ p.clients → (p.point f).ofServer = false) ∧ (f ∉ p.clients → (p.point f).transfers = false) := by
    intro f a hpoint
    refine ⟨fun hf => (hrun.points.client f hf).1, fun hf => ?_⟩
    by_contra htransfers
    refine hf (hrun.points.client_of ?_ ?_ hterminated) <;>
      cases hpc : p.point f <;> simp [hpc, Point.transfers, Point.ofServer] at htransfers ⊢
  cases hgoes with
  | start hserver _ =>
      have hclients := (hrun.points.unspawned hserver).1
      exact ⟨fun g hg => by simp [hclients, Program.goto] at hg, h.fresh⟩
  | resume _ _ hsuspended =>
      have hpoint := (hrun.control.suspended _ _ hsuspended).2
      exact h.resume hpoint (htransfers hpoint).1 (htransfers hpoint).2 _ _
  | ready _ hact _ _ _ _ =>
      have hpoint := Point.await_operation hact
      exact h.resume hpoint (htransfers hpoint).1 (htransfers hpoint).2 _ _
  | @construct hd _ _ _ _ _ =>
      refine h.move (Coroutine.DrainServer.construct_moves p hd.frame s.next) ?_ fun _ => nextAt_constructed _ _
      simp only [Program.construct]
      split <;> rfl
  | @spawn hd _ hact =>
      have hpoint : p.point hd.frame = .spawn := by
        cases hpc : p.point hd.frame <;> simp [hpc, Point.act] at hact
        rfl
      have hserver := hrun.points.server_of (f := hd.frame) (by rw [hpoint]; rfl)
      have hnew : s.nextFrame ∉ p.clients := fun hmem => Nat.lt_irrefl _ (hrun.points.frames _ (.inr hmem))
      refine ⟨fun g hg => ?_, fun g hg => h.fresh g fun hmem => hg (List.mem_append_left _ hmem)⟩
      rw [Coroutine.DrainServer.spawn_point]
      rcases List.mem_append.mp hg with hg | hg
      · rw [if_neg (by rintro rfl; exact hnew hg), if_neg (by rintro rfl; exact (hrun.points.client _ hg).2 hserver)]
        exact h.client g hg
      · obtain rfl := List.mem_singleton.mp hg
        rw [if_pos rfl]
        have hnil : (p.spawn hd.frame s.nextFrame).results s.nextFrame = [] := h.fresh _ hnew
        rw [hnil]
        rfl
  | @ret hd _ hact =>
      refine h.move (Coroutine.DrainServer.goto_moves p hd.frame .gone) rfl fun _ => ?_
      cases hpc : p.point hd.frame <;> simp [hpc, Point.act] at hact
      rfl
  | _ => exact h

end NextOk

theorem reachable_next {x : Coroutine.State × Program} (h : (Coroutine.DrainServer.machine cfg).Reachable x) :
    NextOk x.2 := by
  induction h with
  | start hx =>
      rw [hx.2]
      exact ⟨by simp [Program.start], fun _ _ => rfl⟩
  | next hreach _ hstep ih =>
      have hrun := (Coroutine.DrainServer.reachable_run hreach).1
      have hgoes := Goes.of_step (Coroutine.DrainServer.reachable_context hreach) hrun.requests
        (fun hd hd' => (hrun.control.running hd hd').1) hstep
      exact ih.step hrun (Coroutine.DrainServer.step_context hstep).1 hgoes

/-! ## The handlers -/

/-- An operation of this kind is the only thing that is outstanding for a client. The first
read comes with the arrival. -/
def State.gets (s : State) (fd : Word) : Next → Prop
  | .read => s.outstanding fd = ([⟨OP.accept.data 0, fd⟩], [], []) ∨
      (∃ a, s.outstanding fd = ([], [⟨.read fd a bufferSize, OP.read.data fd⟩], [])) ∨
      ∃ res, s.outstanding fd = ([], [], [⟨OP.read.data fd, res⟩])
  | .write => (∃ a n, s.outstanding fd = ([], [⟨.write fd a n, OP.write.data fd⟩], [])) ∨
      ∃ res, s.outstanding fd = ([], [], [⟨OP.write.data fd, res⟩])
  | .close => s.outstanding fd = ([], [⟨.close fd, OP.close.data fd⟩], [])
  | .exit => False

/-- The requests and the CQEs of a client follow from its results. -/
theorem Life.gets {s : State} {fd : Word} {c : Nat} (h : Life s fd) (hc : s.connection fd = some c) :
    s.gets fd (.of (s.results c)) := by
  cases h with
  | free hconnection _ _ _ _ => simp [hc] at hconnection
  | arriving hconnection _ harrivals hrequests hcompletions hnew =>
      obtain rfl := Option.some.inj (hc.symm.trans hconnection)
      rw [hnew.2.2]
      exact .inl (by rw [State.outstanding, harrivals, hrequests, hcompletions])
  | leaving hconnection _ harrivals hrequests hcompletions hclosed =>
      obtain rfl := Option.some.inj (hc.symm.trans hconnection)
      rw [hclosed.2, State.gets, State.outstanding, harrivals, hrequests, hcompletions]
  | client hconnection _ harrivals _ hout =>
      obtain rfl := Option.some.inj (hc.symm.trans hconnection)
      have houtstanding : s.outstanding fd = ([], s.requests fd, s.completions fd) := by
        rw [State.outstanding, harrivals]
      generalize s.requests fd = requests at hout houtstanding
      generalize s.completions fd = completions at hout houtstanding
      generalize Next.of (s.results c) = next at hout
      cases hout with
      | reading _ => exact .inr (.inl ⟨_, houtstanding⟩)
      | readFailed _ _ => exact .inr (.inr ⟨_, houtstanding⟩)
      | readDone _ _ _ => exact .inr (.inr ⟨_, houtstanding⟩)
      | writing _ _ _ => exact .inl ⟨_, _, houtstanding⟩
      | writeFailed _ _ => exact .inr ⟨_, houtstanding⟩
      | written _ _ _ _ => exact .inr ⟨_, houtstanding⟩

/-- A result that is an error ends the program, and no other result does. -/
theorem handle_none_iff {s : State} {fd : Word} {x : Cqe}
    (hdata : x.data = OP.read.data fd ∨ x.data = OP.write.data fd) :
    handle s (fun _ => true) x = none ↔ x.res.toInt < 0 := by
  have hres : nofail x.res = none ↔ x.res.toInt < 0 := by
    rw [nofail]
    split <;> simp [*]
  rcases hdata with hdata | hdata
  · rw [handle_eq hdata, ← hres]
    cases hnofail : nofail x.res with
    | none => simp [onRead, hnofail]
    | some n => simp [onRead, hnofail, asyncWrite, asyncOperation]
  · rw [handle_eq hdata, ← hres]
    cases hnofail : nofail x.res with
    | none => simp [onWrite, hnofail]
    | some n =>
        simp only [onWrite, hnofail, asyncClose, asyncRead, asyncOperation, Option.bind_eq_bind, Option.bind_some,
          if_true]
        split <;> simp

/-- The next result of a client that reads or writes ends the coroutine if it is an error. -/
theorem resumed_exit_iff {pc : Point} {a : Nat} (hpc : pc.operation = some a) (hclient : pc.ofServer = false)
    (hnext : nextAt pc = .read ∨ nextAt pc = .write) (res : Int) (zz : Bool) :
    pc.resumed res zz = .exit ↔ res < 0 := by
  have hexit : pc.resumed res zz = .exit ↔ nextAt (pc.resumed res zz) = .exit := by
    cases pc.resumed res zz <;> simp [nextAt]
  have htransfers : pc.transfers = true := by
    cases pc <;> simp [nextAt, Point.operation, Point.transfers] at hnext hpc ⊢
  rw [hexit, nextAt_resumed hpc hclient, if_pos htransfers]
  rcases hnext with hnext | hnext <;> rw [hnext]
  · simp only [Next.after]
    split <;> simp [*]
  · simp only [Next.after]
    split
    · simp [*]
    · split <;> simp [*]

/-- As long as the results are the same, a client of the callback server gets the operation
that the coroutine is at, and nothing else. The next result ends the process of the callback
server exactly when it ends the one of the coroutine. -/
theorem callbacks_agree {x : Coroutine.State × Program} (hx : (Coroutine.DrainServer.machine cfg).Reachable x)
    {s : State} (hs : (machine reserved).Reachable s) (hf : f ∈ x.2.clients) {fd : Word} {c : Nat}
    (hc : s.connection fd = some c) (hresults : x.2.results f = s.results c) :
    s.gets fd (nextAt (x.2.point f)) ∧ ∀ e ∈ s.completions fd, ∀ a, (x.2.point f).operation = some a →
      ∀ zz, handle s (fun _ => true) e = none ↔ (x.2.point f).resumed e.res.toInt zz = .exit := by
  have hlife := (reachable_ok hs).life fd
  have hpoint : nextAt (x.2.point f) = .of (s.results c) := by
    rw [(reachable_next hx).client f hf, hresults]
  refine ⟨hpoint ▸ hlife.gets hc, fun e he a hoperation zz => ?_⟩
  obtain ⟨-, hdata⟩ := List.mem_filter.mp he
  obtain ⟨c', a, b, hc', -, -, -, hout⟩ := hlife.completion he
  obtain rfl := Option.some.inj (hc.symm.trans hc')
  have hnext : Next.of (s.results c) = .read ∨ Next.of (s.results c) = .write := by
    generalize s.requests fd = requests at hout
    generalize s.completions fd = completions at hout
    generalize Next.of (s.results c) = next at hout
    cases hout <;> simp
  have hclient := ((Coroutine.DrainServer.reachable_run hx).1.points.client f hf).1
  rw [handle_none_iff (by simpa using hdata), resumed_exit_iff hoperation hclient (hpoint ▸ hnext)]

section Run

/-- A client says "hello", and the read after the answer fails. -/
def helloRun : List Label :=
  let loop : Label := .loop true fun _ => true
  [.kickOff true, .finish 0 (.accepted 5), loop, .finish 0 (.read [0x68, 0x65, 0x6c, 0x6c, 0x6f]), loop,
    .finish 1 (.wrote 5), loop, .finish 1 (.failed (-104))]

/-- After five bytes both servers read again, and the error ends both. -/
theorem callbacks_agree_hello : ∃ x s, (Coroutine.DrainServer.machine Coroutine.smallConfig).Reachable x ∧
    (machine noneReserved).Reachable s ∧ s.results 0 = [(5, false), (5, false)] ∧
    s.gets 5 (nextAt (x.2.point 1)) ∧ ∃ e ∈ s.completions 5, handle s (fun _ => true) e = none ∧
      (x.2.point 1).resumed e.res.toInt false = .exit := by
  have hrun : ∃ x, (Coroutine.DrainServer.machine Coroutine.smallConfig).run (.start, .start)
      Coroutine.DrainServer.fourClients = some x ∧ x.2.clients = [1, 2, 3] ∧
        x.2.results 1 = [(5, false), (5, false)] ∧ x.2.point 1 = .reading 7 := ⟨_, rfl, rfl, rfl, rfl⟩
  obtain ⟨x, hx, hclients, hresults, hpoint⟩ := hrun
  have hrun' : ∃ s, (machine noneReserved).run .start helloRun = some s ∧ s.connection 5 = some 0 ∧
      s.results 0 = [(5, false), (5, false)] ∧ s.cqes = [⟨OP.read.data 5, -104⟩] := ⟨_, rfl, rfl, rfl, rfl⟩
  obtain ⟨s, hs, hconnection, hresults', hcqes⟩ := hrun'
  have hreach := Machine.Reachable.of_run (m := Coroutine.DrainServer.machine Coroutine.smallConfig)
    ⟨Coroutine.init_start, rfl⟩ hx
  have hreach' := Machine.Reachable.of_run (m := machine noneReserved) rfl hs
  obtain ⟨hgets, hends⟩ := callbacks_agree hreach hreach' (by simp [hclients]) hconnection
    (hresults.trans hresults'.symm)
  have hmem : (⟨OP.read.data 5, -104⟩ : Cqe) ∈ s.completions 5 := by simp [State.completions, hcqes]
  have hexit : (x.2.point 1).resumed (-104 : Word).toInt false = .exit := by
    rw [hpoint]
    rfl
  exact ⟨x, s, hreach, hreach', hresults', hgets, _, hmem,
    (hends _ hmem 7 (by rw [hpoint]; rfl) false).mpr hexit, hexit⟩

end Run

end IoUring.Echo
