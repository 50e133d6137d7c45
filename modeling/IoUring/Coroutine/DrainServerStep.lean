import Mathlib.Data.Nat.Basic
import IoUring.Coroutine.DrainServer

/-!
# What one step of the drain server can do

The steps of the context that the program and the kernel are free to take, each with what
it does to the program.
-/

namespace IoUring.Coroutine.DrainServer

variable {cfg : Config} {s s' : State} {p p' : Program} {l : Label}

/-! ## The context below -/

theorem result_same (h : s'.returned = s.returned) : result s s' = none := by
  rw [result, h]
  split
  · next b res rest hreturned =>
      have hne : rest ≠ s.returned := by
        intro heq
        have hlength := congrArg List.length hreturned
        simp [heq] at hlength
      rw [if_neg hne]
  · rfl

theorem result_cons {a : Nat} {res : Int} (h : s'.returned = (a, res) :: s.returned) :
    result s s' = some res := by
  rw [result, h]
  exact if_pos rfl

theorem step_context {x y : State × Program} (h : step cfg x l = some y) :
    x.2.terminated = false ∧ x.2.permits x.1 l.1 ∧ Coroutine.step cfg x.1 l.1 = some y.1 ∧
      y.2 = x.2.next x.1 l y.1 := by
  simp only [step] at h
  split at h
  · next hok =>
      obtain ⟨s', hs', rfl⟩ := Option.map_eq_some_iff.mp h
      exact ⟨hok.1, hok.2, hs', rfl⟩
  · cases h

theorem noMultishot (h : p.permits s l.1) : NoMultishot s l.1 := by
  intro hl
  rw [hl] at h
  obtain ⟨hd, -, hact⟩ := h
  cases hpc : p.point hd.frame <;> simp [hpc, Point.act] at hact

/-- A run of the program is a run of the context. -/
theorem reachable_context {x : State × Program} (h : (machine cfg).Reachable x) :
    (Coroutine.machine cfg).Reach NoMultishot x.1 := by
  induction h with
  | start hx => exact .start hx.1
  | next _ _ hstep ih =>
      obtain ⟨-, hok, hs', -⟩ := step_context hstep
      exact ih.next (noMultishot hok) hs'

/-! ## Requests -/

/-- The operation at an address has an SQE. -/
def issued (s : State) (a : Nat) : Prop :=
  a < s.next ∧ (s.object a).userData.sqe = true

/-- The CQE of an operation was posted. -/
abbrev ended (s : State) (a : Nat) : Prop :=
  Barrier.Finished Cqe.data s.posted a

/-- Everything that an operation has to wait for has ended. -/
abbrev free (s : State) (p : Program) (a : Nat) : Prop :=
  Barrier.MayStart (· ∈ p.accepts) (issued s) Cqe.data s.posted a

/-- The requests are those of the operations in the order of their construction, each in a
chain of its own, and the drain requests are those of the accept operations. -/
structure RequestsOk (s : State) (p : Program) : Prop where
  operation : ∀ e ∈ s.ring.requests ++ s.ring.sq, ∃ a, a < s.next ∧ e.operation = some a ∧
    e.flags = { ioDrain := decide (a ∈ p.accepts) }
  sorted : (s.ring.requests ++ s.ring.sq).Pairwise fun e e' =>
    ∀ a b, e.data = some a → e'.data = some b → a < b
  chain : ∀ c ∈ s.ring.flight, c.members.length ≤ 1 ∧ (c.severed = true → c.members = [])
  issued : ∀ a, issued s a → s.ring.live a ≠ [] ∨ ended s a
  canceled : ∀ c ∈ s.posted, c.res ≠ -ECANCELED
  respects : Barrier.Respects (· ∈ p.accepts) (DrainServer.issued s) Cqe.data s.posted
  accepts : ∀ a ∈ p.accepts, DrainServer.issued s a

/-- A step of the loop that resumes nobody, or its end. -/
structure Quiet (s s' : State) : Prop where
  ring : s'.ring.sq = s.ring.sq ∧ s'.ring.flight = s.ring.flight
  posted : s'.posted = s.posted
  seen : s.seen ≤ s'.seen
  next : s'.next = s.next
  nextFrame : s'.nextFrame = s.nextFrame
  sqe : ∀ a, (s'.object a).userData.sqe = (s.object a).userData.sqe
  suspended : s'.suspended = s.suspended
  operations : s'.operations = s.operations
  switchSpsc : s'.switchSpsc = s.switchSpsc
  running : s.running = none ∧ s'.running = none
  phase : s'.phase = .idle ∨ ∃ done, s'.phase = .reap done

/-- The steps of context and program. -/
inductive Goes (cfg : Config) (s : State) (p : Program) : State → Program → Prop
  | start (hserver : p.server = none) (hphase : s.phase = .idle) :
      Goes cfg s p (coSpawn s) { p.goto s.nextFrame .accept with server := some s.nextFrame }
  | prepare (hphase : s.phase = .idle) : Goes cfg s p (prepareStep s false) p
  | launch {n : Nat} {h : Handle} {operations : List Handle} (hrun : s.running = none)
      (hphase : s.phase = .launch (n + 1)) (hqueue : s.operations = h :: operations) :
      Goes cfg s p { s with operations := operations, running := some h, phase := .launch n } p
  | launched (hrun : s.running = none) (hphase : s.phase = .launch 0) :
      Goes cfg s p { s with phase := .submit } p
  | submit (hrun : s.running = none) (hphase : s.phase = .submit) : Goes cfg s p (submitStep cfg s) p
  | quiet {s' : State} (hquiet : Quiet s s') : Goes cfg s p s' p
  | finish {i : Nat} {e : Sqe Request} {o : Outcome} (hfinish : Finishes s i e [] o)
      (hsevered : o.severed = false) (hres : o.res ≠ -ECANCELED) (hstart : s.ring.mayStart i) :
      Goes cfg s p ((s.finished i e [] o).post cfg ⟨e.data, o.res, false⟩) p
  | resume {a : Nat} {h : Handle} {zz : Bool} (hreap : Reaping s)
      (hdata : (s.current cfg).data = some a) (hsuspended : s.suspended a = some h) :
      Goes cfg s p { s.reaped cfg a with
        returned := (a, (s.current cfg).res) :: s.returned
        suspended := Function.update s.suspended a none
        running := some h } (p.resume h.frame (s.current cfg).res zz)
  | construct {h : Handle} {drain : Bool} {s' : State} (hrun : s.running = some h)
      (hact : (p.point h.frame).act =
        some (if drain then .asyncDrainOperation else .asyncOperation))
      (hs' : constructStep cfg s .oneshot drain = some s') :
      Goes cfg s p s' (p.construct h.frame s.next)
  | suspend {a : Nat} {h : Handle} (hrun : s.running = some h)
      (hact : (p.point h.frame).act = some (.await a)) (ha : a < s.next) (hfree : s.suspended a = none)
      (hsqe : (s.object a).userData.sqe = true) (hcqe : (s.object a).userData.cqe = none) :
      Goes cfg s p (s.suspend h a) p
  | ready {a : Nat} {h : Handle} {res : Int} {zz : Bool} (hrun : s.running = some h)
      (hact : (p.point h.frame).act = some (.await a)) (ha : a < s.next) (hfree : s.suspended a = none)
      (hready : (s.object a).userData.sqe = false ∨ (s.object a).userData.cqe ≠ none)
      (hres : (s.object a).userData.sqe = false → res = -ENOMEM) :
      Goes cfg s p { s with awaits := a :: s.awaits, returned := (a, res) :: s.returned }
        (p.resume h.frame res zz)
  | spawn {h : Handle} (hrun : s.running = some h) (hact : (p.point h.frame).act = some .coSpawn) :
      Goes cfg s p (coSpawn s) (p.spawn h.frame s.nextFrame)
  | ret {h : Handle} (hrun : s.running = some h) (hact : (p.point h.frame).act = some .ret) :
      Goes cfg s p { s with running := none } (p.goto h.frame .gone)

/-! ## Inversion -/

theorem next_unchanged (h : s'.returned = s.returned) (hlabel : l.1 ≠ .coSpawn)
    (huser : ∀ act, l.1 = .user act → s.running = none) : p.next s l s' = p := by
  rw [Program.next, result_same h]
  cases hl : l.1 with
  | coSpawn => exact absurd hl hlabel
  | user act => simp [huser act hl]
  | _ => rfl

theorem next_user {act : UserAct} {h : Handle} {zz : Bool} (hreturned : s'.returned = s.returned)
    (hrun : s.running = some h) : p.next s (.user act, zz) s' = p.act s h.frame act := by
  rw [Program.next, result_same hreturned]
  simp [hrun]

theorem next_await {a : Nat} {res : Int} {h : Handle} {zz : Bool}
    (hreturned : s'.returned = (a, res) :: s.returned) (hrun : s.running = some h)
    (hrun' : s'.running = some h) : p.next s (.user (.await a), zz) s' = p.resume h.frame res zz := by
  rw [Program.next, result_cons hreturned]
  simp [hrun, hrun', Program.act]

/-- The loop is at a CQE, and resumes at most the coroutine that waits for it. -/
theorem Quiet.of_reap (hreap : Reaping s)
    (hrest : s' = { s.passed with object := s'.object, torn := s'.torn })
    (hsqe : ∀ a, (s'.object a).userData.sqe = (s.object a).userData.sqe) : Quiet s s' := by
  rw [hrest]
  rw [hrest] at hsqe
  exact ⟨⟨rfl, rfl⟩, rfl, Nat.le_succ _, rfl, rfl, hsqe, rfl, rfl, rfl, ⟨hreap.running, hreap.running⟩,
    .inr ⟨_, rfl⟩⟩

theorem Point.constructs {pc : Point} {act : UserAct} {prep : Request} {drain : Bool}
    (h : pc.act = some act) (hact : act.constructs = some (prep, drain)) :
    prep = .oneshot ∧ act = if drain then .asyncDrainOperation else .asyncOperation := by
  cases pc <;> simp only [Point.act, Option.some.injEq, reduceCtorEq] at h <;> subst h <;>
    simp [UserAct.constructs] at hact <;> obtain ⟨rfl, rfl⟩ := hact <;> exact ⟨rfl, rfl⟩

/-- A step of the context, of the code or of the kernel, is one of the steps above. -/
theorem Goes.of_step {x y : State × Program} (hcontext : (Coroutine.machine cfg).Reach NoMultishot x.1)
    (hrequests : RequestsOk x.1 x.2) (hflat : ∀ h, x.1.running = some h → h.callers = [])
    (h : step cfg x l = some y) : Goes cfg x.1 x.2 y.1 y.2 := by
  obtain ⟨s, p⟩ := x
  obtain ⟨s', p'⟩ := y
  obtain ⟨l, zz⟩ := l
  obtain ⟨-, hok, hs', hp'⟩ := step_context h
  simp only at hcontext hrequests hflat hok hs' hp' ⊢
  have hring := reachable_ring hcontext
  have hinflight := reachable_inflight hcontext
  have hoperations := reachable_operations hcontext
  have hstep : Step cfg s l s' := .of_step hs'
  cases hstep with
  | coSpawn hphase =>
      have hresult : result s (coSpawn s) = none := result_same rfl
      rw [hp', Program.next, hresult]
      exact .start hok hphase
  | push _ => exact hok.elim
  | @runOnce exactlyOnce hphase =>
      obtain rfl : exactlyOnce = false := hok
      obtain rfl : p' = p := hp'.trans (next_unchanged rfl (by simp) (by simp))
      exact .prepare hphase
  | launched hrun hphase =>
      obtain rfl : p' = p := hp'.trans (next_unchanged rfl (by simp) (by simp))
      exact .launched hrun hphase
  | resume hrun hphase hqueue =>
      obtain rfl : p' = p := hp'.trans (next_unchanged rfl (by simp) (by simp))
      exact .launch hrun hphase hqueue
  | submit hrun hphase =>
      obtain rfl : p' = p := hp'.trans (next_unchanged rfl (by simp) (by simp))
      exact .submit hrun hphase
  | skip hreap _ =>
      obtain rfl : p' = p := hp'.trans (next_unchanged rfl (by simp) (by simp))
      exact .quiet (.of_reap hreap rfl fun _ => rfl)
  | torn hreap _ _ _ =>
      obtain rfl : p' = p := hp'.trans (next_unchanged rfl (by simp) (by simp))
      exact .quiet (.of_reap hreap rfl fun _ => rfl)
  | @eager a hreap _ _ _ _ =>
      obtain rfl : p' = p := hp'.trans (next_unchanged rfl (by simp) (by simp))
      exact .quiet (.of_reap hreap rfl (setUserData_sqe _ a _ rfl))
  | @complete a hd hreap hres hdata _ hh hsuspended =>
      have ha := hoperations.lt_of_posted (List.mem_of_getElem? (hring.current hreap)) hdata
      have hplain := hinflight.object a ha
      have hsqe := ((hoperations.operation a ha hplain).waits hd hsuspended).2.1
      have hvalue : (s.reaped cfg a).awaitResume a =
          { s.reaped cfg a with returned := (a, (s.current cfg).res) :: s.returned } := by
        rw [awaitResume_plain (by simpa using hplain)]
        simp [hsqe, State.reaped, State.current, State.setUserData, State.setObject, State.passed]
      rw [hvalue] at hp' ⊢
      have hresult : result s { s.reaped cfg a with
          returned := (a, (s.current cfg).res) :: s.returned
          suspended := Function.update s.suspended a none
          running := some hd } = some (s.current cfg).res := result_cons rfl
      rw [hp', Program.next, hresult]
      simp only
      exact .resume hreap hdata hsuspended
  | @leave inflight hrun hphase _ _ _ =>
      obtain rfl : p' = p := hp'.trans (next_unchanged rfl (by simp) (by simp))
      refine .quiet ⟨⟨rfl, rfl⟩, rfl, Nat.le_of_eq ?_, rfl, rfl, fun _ => rfl, rfl, rfl, rfl, ⟨hrun, hrun⟩,
        .inl rfl⟩
      simp [State.seen, State.left, Phase.done]
  | @posted i e rest o post hfinish hroom hposts =>
      obtain ⟨hlength, hsevered⟩ := hrequests.chain _ (List.mem_of_getElem? hfinish.chain)
      obtain rfl : rest = [] := by simpa using hlength
      have hsevered : o.severed = false := by
        by_contra hsome
        simpa using hsevered (by simpa using hsome)
      obtain rfl : p' = p := hp'.trans (next_unchanged rfl (by simp) (by simp))
      exact .finish hfinish hsevered hok.1 hok.2
  | @silent i e rest o post hfinish hposts =>
      obtain ⟨-, hsevered⟩ := hrequests.chain _ (List.mem_of_getElem? hfinish.chain)
      have hsevered : o.severed = false := by
        by_contra hsome
        simpa using hsevered (by simpa using hsome)
      have hmem := List.mem_append_left s.ring.sq (mem_requests hfinish.chain)
      obtain ⟨a, -, -, hflags⟩ := hrequests.operation e hmem
      simp [posts, hsevered, hinflight.prep e hmem, hflags] at hposts
  | more hchain hprep _ =>
      simp [hinflight.prep _ (List.mem_append_left _ (mem_requests hchain))] at hprep
  | @construct act prep drain _ hact hconstruct =>
      obtain ⟨hd, hrun, hpc⟩ := hok
      obtain ⟨rfl, rfl⟩ := Point.constructs hpc hact
      obtain ⟨sqes, o, hprep, -⟩ := constructStep_prepares (.inl rfl) hconstruct
      have hreturned : s'.returned = s.returned := by rw [hprep.rest]
      rw [hp', next_user hreturned hrun]
      have hprogram : p.act s hd.frame (if drain then .asyncDrainOperation else .asyncOperation) =
          p.construct hd.frame s.next := by cases drain <;> rfl
      rw [hprogram]
      exact .construct hrun hpc hconstruct
  | link _ =>
      obtain ⟨hd, -, hpc⟩ := hok
      cases hcase : p.point hd.frame <;> simp [hcase, Point.act] at hpc
  | @suspend a hd hrun ha _ hfree hsqe hcqe =>
      obtain ⟨hd', hrun', hpc⟩ := hok
      obtain rfl := Option.some.inj (hrun.symm.trans hrun')
      obtain rfl : p' = p := hp'.trans (next_user rfl hrun)
      exact .suspend hrun hpc ha hfree hsqe hcqe
  | @ready a ha _ hfree hready =>
      obtain ⟨hd, hrun, hpc⟩ := hok
      obtain ⟨res, hres, heq⟩ : ∃ res, ((s.object a).userData.sqe = false → res = -ENOMEM) ∧
          ({ s with awaits := a :: s.awaits } : State).awaitResume a =
            { s with awaits := a :: s.awaits, returned := (a, res) :: s.returned } :=
        ⟨_, fun hsqe => by simp [hsqe], awaitResume_plain (hinflight.object a ha)⟩
      rw [heq] at hp' ⊢
      obtain rfl : p' = p.resume hd.frame res zz := hp'.trans (next_await rfl hrun hrun)
      exact .ready hrun hpc ha hfree hready hres
  | spawn =>
      obtain ⟨hd, hrun, hpc⟩ := hok
      obtain rfl : p' = p.spawn hd.frame s.nextFrame := hp'.trans (next_user rfl hrun)
      exact .spawn hrun hpc
  | @run act running nextFrame hact _ =>
      obtain ⟨hd, hrun, hpc⟩ := hok
      obtain rfl : act = .ret := by
        cases hcase : p.point hd.frame <;> simp [hcase, Point.act] at hpc <;> subst hpc <;> simp at hact
        rfl
      have hcallers := hflat hd hrun
      simp only [Option.mem_def] at hrun
      simp only [Coroutine.step, hrun, userStep, hcallers, Option.some.injEq] at hs'
      rw [← hs'] at hp' ⊢
      obtain rfl : p' = p.goto hd.frame .gone := hp'.trans (next_user rfl hrun)
      exact .ret hrun hpc
  | discard _ _ _ _ =>
      obtain ⟨hd, -, hpc⟩ := hok
      cases hcase : p.point hd.frame <;> simp [hcase, Point.act] at hpc
  | drop _ _ _ _ =>
      obtain ⟨hd, -, hpc⟩ := hok
      cases hcase : p.point hd.frame <;> simp [hcase, Point.act] at hpc

end IoUring.Coroutine.DrainServer
