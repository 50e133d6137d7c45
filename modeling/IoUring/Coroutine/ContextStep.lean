import IoUring.Coroutine.Context

/-!
# What one step of a context can do

Each constructor is one way in which a label executes, with what the code has
tested before.
-/

namespace IoUring.Coroutine

/-- How many CQEs the loop over the ring has passed. -/
def Phase.done : Phase → Nat
  | .reap done => done
  | _ => 0

/-- The CQE the loop looks at next. -/
def State.current (cfg : Config) (s : State) : Cqe :=
  s.ring.cqes ((s.ring.khead + s.phase.done) % cfg.cqEntries)

/-- The state after the kernel has taken the first request of chain `i`. -/
def State.finished (s : State) (i : Nat) (e : Sqe Request) (rest : List (Sqe Request))
    (o : Outcome) : State :=
  { s with
    ring := { s.ring with
      flight := s.ring.flight.set i ⟨rest, o.severed || o.failed && !e.flags.ioHardlink⟩ }
    outcome := fun a => if e.operation = some a then some o else s.outcome a }

/-- The loop goes on after the current CQE. -/
def State.passed (s : State) : State :=
  { s with phase := .reap (s.phase.done + 1) }

/-- `user_data->cqe = cqe`, in the operation of the current CQE. -/
def State.reaped (cfg : Config) (s : State) (a : Nat) : State :=
  s.passed.setUserData a { (s.object a).userData with
    cqe := some ((s.ring.khead + s.phase.done) % cfg.cqEntries) }

/-- The running coroutine waits for an operation. -/
def State.suspend (s : State) (h : Handle) (a : Nat) : State :=
  { s.setUserData a { (s.object a).userData with h := some h } with
    awaits := a :: s.awaits
    suspended := Function.update s.suspended a (some h)
    running := none }

/-- The loop is over; `inflight` is the value after the workaround. -/
def State.left (s : State) (inflight : Nat) : State :=
  { s with
    ring := { s.ring with khead := s.ring.khead + s.phase.done }
    inflight := inflight - s.phase.done
    phase := .idle }

/-- A step of the loop over the ring is about to look at a CQE. -/
structure Reaping (s : State) : Prop where
  running : s.running = none
  phase : ∃ done, s.phase = .reap done
  lt : s.ring.khead + s.phase.done < s.ring.ktail

/-- The first request of chain `i`, and how it may finish. -/
structure Finishes (s : State) (i : Nat) (e : Sqe Request) (rest : List (Sqe Request))
    (o : Outcome) : Prop where
  chain : s.ring.flight[i]? = some ⟨e :: rest, o.severed⟩
  canceled : o.severed = true → o.res = -ECANCELED
  failed : o.severed = true ∨ o.res < 0 → o.failed = true

/-- The constructors of single operations, with what they prepare and whether it is
a drain operation. -/
def UserAct.constructs : UserAct → Option (Request × Bool)
  | .asyncOperation => some (.oneshot, false)
  | .asyncDrainOperation => some (.oneshot, true)
  | .asyncMultishotOperation => some (.multishot, false)
  | _ => none

theorem UserAct.prep_of_constructs {act : UserAct} {prep : Request} {drain : Bool}
    (h : act.constructs = some (prep, drain)) : prep = .oneshot ∨ prep = .multishot := by
  cases act <;> simp only [UserAct.constructs, Option.some.injEq, Prod.mk.injEq, reduceCtorEq] at h
  · exact .inl h.1.symm
  · exact .inl h.1.symm
  · exact .inr h.1.symm

inductive Step (cfg : Config) (s : State) : Label → State → Prop
  | coSpawn (hphase : s.phase = .idle) : Step cfg s .coSpawn (coSpawn s)
  | push {h : Handle} (hroom : s.switchSpsc.length < 63) :
      Step cfg s (.push h) { s with switchSpsc := s.switchSpsc ++ [h] }
  | runOnce {exactlyOnce : Bool} (hphase : s.phase = .idle) :
      Step cfg s (.runOnce exactlyOnce) (prepareStep s exactlyOnce)
  | launched (hrun : s.running = none) (hphase : s.phase = .launch 0) :
      Step cfg s .go { s with phase := .submit }
  | resume {n : Nat} {h : Handle} {operations : List Handle} (hrun : s.running = none)
      (hphase : s.phase = .launch (n + 1)) (hqueue : s.operations = h :: operations) :
      Step cfg s .go { s with operations := operations, running := some h, phase := .launch n }
  | submit (hrun : s.running = none) (hphase : s.phase = .submit) :
      Step cfg s .go (submitStep cfg s)
  | skip (hreap : Reaping s) (hres : (s.current cfg).res = -ECANCELED) :
      Step cfg s .go s.passed
  | torn {a : Nat} (hreap : Reaping s) (hres : (s.current cfg).res ≠ -ECANCELED)
      (hdata : (s.current cfg).data = some a) (halive : (s.object a).alive = false) :
      Step cfg s .go { s.passed with torn := true }
  | eager {a : Nat} (hreap : Reaping s) (hres : (s.current cfg).res ≠ -ECANCELED)
      (hdata : (s.current cfg).data = some a) (halive : (s.object a).alive = true)
      (hh : (s.object a).userData.h = none) : Step cfg s .go (s.reaped cfg a)
  | complete {a : Nat} {h : Handle} (hreap : Reaping s) (hres : (s.current cfg).res ≠ -ECANCELED)
      (hdata : (s.current cfg).data = some a) (halive : (s.object a).alive = true)
      (hh : (s.object a).userData.h = some h) (hsuspended : s.suspended a = some h) :
      Step cfg s .go { (s.reaped cfg a).awaitResume a with
        suspended := Function.update s.suspended a none
        running := some h }
  | leave {inflight : Nat} (hrun : s.running = none) (hphase : ∃ done, s.phase = .reap done)
      (hle : s.ring.ktail ≤ s.ring.khead + s.phase.done)
      (hinflight : inflight = s.inflight ∨ inflight = max s.inflight s.phase.done)
      (hdone : s.phase.done ≤ inflight) : Step cfg s .go (s.left inflight)
  | posted {i : Nat} {e : Sqe Request} {rest : List (Sqe Request)} {o : Outcome} {post : Bool}
      (hfinish : Finishes s i e rest o) (hroom : s.ring.hasRoom cfg)
      (hposts : posts e o.severed o.failed post = true) :
      Step cfg s (.finish i o.res o.failed post)
        ((s.finished i e rest o).post cfg ⟨e.data, o.res, false⟩)
  | silent {i : Nat} {e : Sqe Request} {rest : List (Sqe Request)} {o : Outcome} {post : Bool}
      (hfinish : Finishes s i e rest o) (hposts : posts e o.severed o.failed post = false) :
      Step cfg s (.finish i o.res o.failed post)
        { s.finished i e rest o with silent := s.silent + 1 }
  | more {i : Nat} {res : Int} {e : Sqe Request} {rest : List (Sqe Request)} {severed : Bool}
      (hchain : s.ring.flight[i]? = some ⟨e :: rest, severed⟩) (hprep : e.prep = .multishot)
      (hroom : s.ring.hasRoom cfg) : Step cfg s (.more i res) (s.post cfg ⟨e.data, res, true⟩)
  | construct {act : UserAct} {prep : Request} {drain : Bool} {s' : State}
      (hact : act.constructs = some (prep, drain))
      (hs' : constructStep cfg s prep drain = some s') : Step cfg s (.user act) s'
  | link {e : Expr Request} {rightFirst : List (List Bool)} {s' : State}
      (hs' : linkStep cfg s e (.ofRight rightFirst) = some s') :
      Step cfg s (.user (.link e rightFirst)) s'
  | suspend {a : Nat} {h : Handle} (hrun : s.running = some h) (ha : a < s.next)
      (halive : (s.object a).alive = true) (hfree : s.suspended a = none)
      (hsqe : (s.object a).userData.sqe = true) (hcqe : (s.object a).userData.cqe = none) :
      Step cfg s (.user (.await a)) (s.suspend h a)
  | ready {a : Nat} (ha : a < s.next) (halive : (s.object a).alive = true)
      (hfree : s.suspended a = none)
      (hready : (s.object a).userData.sqe = false ∨ (s.object a).userData.cqe ≠ none) :
      Step cfg s (.user (.await a)) ({ s with awaits := a :: s.awaits }.awaitResume a)
  | spawn : Step cfg s (.user .coSpawn) (coSpawn s)
  | run {act : UserAct} {running : Option Handle} {nextFrame : Nat}
      (hact : act = .call ∨ act = .ret ∨ ∃ ok, act = .switchTo ok) (hrun : s.running ≠ none) :
      Step cfg s (.user act) { s with running := running, nextFrame := nextFrame }
  | discard {a : Nat} (ha : a < s.next) (hplain : (s.object a).multishot = false)
      (halive : (s.object a).alive = true) (hfree : s.suspended a = none) :
      Step cfg s (.user (.dropOperation a)) (dropOperation s a)
  | drop {a : Nat} {stale : Option Nat} (ha : a < s.next) (hmultishot : (s.object a).multishot = true)
      (halive : (s.object a).alive = true) (hfree : s.suspended a = none) :
      Step cfg s (.user (.dropMultishot a stale)) (dropMultishot cfg s a stale)

variable {cfg : Config} {s s' : State}

theorem Step.of_reapStep {done : Nat} (hrun : s.running = none) (hphase : s.phase = .reap done)
    (h : reapStep cfg s done = some s') : Step cfg s .go s' := by
  have hdone : s.phase.done = done := by rw [hphase]; rfl
  simp only [reapStep] at h
  split at h
  · next hlt =>
      have hreap : Reaping s := ⟨hrun, ⟨done, hphase⟩, by rwa [hdone]⟩
      have hcurrent : s.current cfg = s.ring.cqes ((s.ring.khead + done) % cfg.cqEntries) := by
        rw [State.current, hdone]
      rw [← hcurrent] at h
      split at h
      · next hres =>
          obtain rfl := Option.some.inj h
          rw [← hdone]
          exact .skip hreap hres
      · next hres =>
          split at h
          · next a hdata =>
              simp only [completeStep] at h
              split at h
              · next halive =>
                  obtain rfl := Option.some.inj h
                  rw [← hdone]
                  exact .torn hreap hres hdata halive
              · next halive =>
                  have halive : (s.object a).alive = true := by simpa using halive
                  split at h
                  · next hh =>
                      obtain rfl := Option.some.inj h
                      rw [← hdone]
                      exact .eager hreap hres hdata halive hh
                  · next hd hh =>
                      split at h
                      · next hsuspended =>
                          obtain rfl := Option.some.inj h
                          rw [← hdone]
                          exact .complete hreap hres hdata halive hh hsuspended
                      · cases h
          · cases h
  · next hle =>
      simp only [leaveStep] at h
      obtain ⟨inflight, hinflight, heq⟩ : ∃ inflight,
          (inflight = s.inflight ∨ inflight = max s.inflight s.phase.done) ∧
            (if cfg.inflightConflict = true then max s.inflight done else s.inflight) = inflight := by
        rw [hdone]
        split
        · exact ⟨_, .inr rfl, rfl⟩
        · exact ⟨_, .inl rfl, rfl⟩
      rw [heq] at h
      split at h
      · next hle' =>
          obtain rfl := Option.some.inj h
          subst hdone
          exact .leave hrun ⟨_, hphase⟩ (by omega) hinflight hle'
      · cases h

theorem Step.of_goStep (hrun : s.running = none) (h : goStep cfg s = some s') :
    Step cfg s .go s' := by
  simp only [goStep] at h
  split at h
  · cases h
  · next hphase =>
      obtain rfl := Option.some.inj h
      exact .launched hrun hphase
  · next n hphase =>
      split at h
      · cases h
      · next hqueue =>
          obtain rfl := Option.some.inj h
          exact .resume hrun hphase hqueue
  · next hphase =>
      obtain rfl := Option.some.inj h
      exact .submit hrun hphase
  · next hphase => exact .of_reapStep hrun hphase h

theorem Step.of_userStep {h : Handle} {act : UserAct} (hrun : s.running = some h)
    (hstep : userStep cfg s h act = some s') : Step cfg s (.user act) s' := by
  cases act with
  | asyncOperation =>
      have hs' : constructStep cfg s .oneshot false = some s' := hstep
      exact .construct rfl hs'
  | asyncDrainOperation =>
      have hs' : constructStep cfg s .oneshot true = some s' := hstep
      exact .construct rfl hs'
  | asyncMultishotOperation =>
      have hs' : constructStep cfg s .multishot false = some s' := hstep
      exact .construct rfl hs'
  | link e rightFirst => exact .link hstep
  | await a =>
      simp only [userStep, awaitStep] at hstep
      split at hstep
      · next hg =>
          obtain ⟨ha, halive, hfree⟩ := hg
          split at hstep
          · next hsuspend =>
              obtain rfl := Option.some.inj hstep
              rw [Bool.and_eq_true, Option.isNone_iff_eq_none] at hsuspend
              exact .suspend hrun ha halive hfree hsuspend.1 hsuspend.2
          · next hready =>
              obtain rfl := Option.some.inj hstep
              refine .ready ha halive hfree ?_
              rw [Bool.and_eq_true, Option.isNone_iff_eq_none, not_and_or] at hready
              simpa using hready
      · cases hstep
  | coSpawn =>
      obtain rfl := Option.some.inj hstep
      exact .spawn
  | call =>
      obtain rfl := Option.some.inj hstep
      exact .run (.inl rfl) (by simp [hrun])
  | ret =>
      simp only [userStep] at hstep
      split at hstep <;> obtain rfl := Option.some.inj hstep <;>
        exact .run (.inr (.inl rfl)) (by simp [hrun])
  | switchTo ok =>
      cases ok <;> obtain rfl := Option.some.inj hstep <;>
        exact .run (.inr (.inr ⟨_, rfl⟩)) (by simp [hrun])
  | dropOperation a =>
      simp only [userStep] at hstep
      split at hstep
      · next hg =>
          obtain rfl := Option.some.inj hstep
          exact .discard hg.1 hg.2.1 hg.2.2.1 hg.2.2.2
      · cases hstep
  | dropMultishot a stale =>
      simp only [userStep] at hstep
      split at hstep
      · next hg =>
          obtain rfl := Option.some.inj hstep
          exact .drop hg.1 hg.2.1 hg.2.2.1 hg.2.2.2
      · cases hstep

theorem Step.of_finishStep {i : Nat} {res : Int} {failed post : Bool}
    (h : finishStep cfg s i res failed post = some s') :
    Step cfg s (.finish i res failed post) s' := by
  simp only [finishStep] at h
  split at h
  · next e rest severed hchain =>
      split at h
      · next hg =>
          have hfinish : Finishes s i e rest ⟨res, failed, severed⟩ := ⟨hchain, hg.1, hg.2⟩
          split at h
          · next hposts =>
              split at h
              · next hroom =>
                  obtain rfl := Option.some.inj h
                  exact .posted hfinish hroom hposts
              · cases h
          · next hposts =>
              obtain rfl := Option.some.inj h
              exact .silent hfinish (by simpa using hposts)
      · cases h
  · cases h

theorem Step.of_step {a : Label} (h : (machine cfg).step s a = some s') : Step cfg s a s' := by
  simp only [machine, step] at h
  cases a with
  | coSpawn =>
      simp only at h
      split at h
      · next hphase => obtain rfl := Option.some.inj h; exact .coSpawn hphase
      · cases h
  | push hd =>
      simp only at h
      split at h
      · next hroom => obtain rfl := Option.some.inj h; exact .push hroom
      · cases h
  | runOnce exactlyOnce =>
      simp only at h
      split at h
      · next hphase => obtain rfl := Option.some.inj h; exact .runOnce hphase
      · cases h
  | go =>
      simp only at h
      split at h
      · next hrun => exact .of_goStep hrun h
      · cases h
  | user act =>
      simp only at h
      split at h
      · next hrun => exact .of_userStep hrun h
      · cases h
  | finish i res failed post => exact .of_finishStep h
  | more i res =>
      simp only [moreStep] at h
      split at h
      · next hchain =>
          split at h
          · next hg => obtain rfl := Option.some.inj h; exact .more hchain hg.1 hg.2
          · cases h
      · cases h

end IoUring.Coroutine
