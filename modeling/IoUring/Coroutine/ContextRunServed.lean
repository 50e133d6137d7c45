import IoUring.Coroutine.ContextRun

/-!
# The order and the time in which coroutines are resumed

The queue of the coroutines and the switch queue are ledgers. The first loop of `run_once()`
counts as served from its start, since nothing keeps it from resuming as many coroutines as
it has set out to.
-/

namespace IoUring.Coroutine.Run

variable {cfg : Config} {s s' : State} {r : Loop} {l : Coroutine.Label} {x y z : State × Loop}

structure Ok (x : State × Loop) : Prop where
  queued : x.2.queued = x.2.resumed ++ x.1.operations
  pushed : x.2.pushed = x.2.pulled ++ x.1.switchSpsc
  launch : launching x.1.phase ≤ x.1.operations.length

def ledger (x : State × Loop) : Ledger Handle :=
  ⟨x.2.queued, x.2.resumed.length + launching x.1.phase⟩

def switchLedger (x : State × Loop) : Ledger Handle :=
  ⟨x.2.pushed, x.2.pulled.length⟩

namespace Ok

theorem context (h : Ok (s, r)) (hqueues : Queues s l s') : Ok (s', note s r l) := by
  have hqueued : r.queued = r.resumed ++ s.operations := h.queued
  have hpushed : r.pushed = r.pulled ++ s.switchSpsc := h.pushed
  have hlaunch : launching s.phase ≤ s.operations.length := h.launch
  cases hqueues with
  | spawn hl =>
      have hok : Ok (coSpawn s, { r with queued := r.queued ++ [⟨s.nextFrame, []⟩] }) := by
        refine ⟨?_, hpushed, ?_⟩
        · simp [coSpawn, hqueued]
        · simp only [coSpawn, List.length_append]
          exact Nat.le_trans hlaunch (Nat.le_add_right _ _)
      rcases hl with rfl | rfl <;> exact hok
  | push => exact ⟨hqueued, by simp [note, hpushed], hlaunch⟩
  | @prepare exactlyOnce hidle =>
      refine ⟨?_, ?_, Nat.min_le_right _ _⟩
      · simp [note, prepareStep, hqueued]
      · simp only [note, prepareStep, hpushed, List.append_assoc, List.take_append_drop]
  | @resume n hd operations hphase hqueue =>
      rw [hphase, hqueue] at hlaunch
      refine ⟨?_, ?_, Nat.le_of_succ_le_succ hlaunch⟩
      · simp [note, hphase, hqueue, hqueued]
      · simpa [note, hphase, hqueue] using hpushed
  | other hquiet _ _ hnote =>
      rw [hnote]
      refine ⟨?_, ?_, ?_⟩
      · rwa [hquiet.operations]
      · rwa [hquiet.switchSpsc]
      · rwa [hquiet.operations, hquiet.launching]

/-- What a step does to the queue of the coroutines. -/
theorem serves (h : Ok (s, r)) (hqueues : Queues s l s') :
    (ledger (s, r)).Serves (ledger (s', note s r l)) (batch l) := by
  have hqueued : r.queued = r.resumed ++ s.operations := h.queued
  cases hqueues with
  | spawn hl => rcases hl with rfl | rfl <;> exact .push _ _
  | push => exact .refl _
  | @prepare exactlyOnce hidle =>
      have hserved : (r.queued ++ s.switchSpsc.take 1).length - r.resumed.length =
          (s.operations ++ s.switchSpsc.take 1).length := by
        rw [hqueued, List.append_assoc, List.length_append, Nat.add_sub_cancel_left]
      refine .round (s.switchSpsc.take 1) rfl ?_
      simp only [ledger, note, prepareStep, launching, hidle, batch, Nat.add_zero, hserved]
  | @resume n hd operations hphase hqueue =>
      have hsame : ledger ({ s with operations := operations, running := some hd, phase := .launch n },
          note s r .go) = ledger (s, r) := by
        simp [ledger, note, hphase, hqueue, launching]
        omega
      rw [hsame]
      exact .refl _
  | other hquiet hbatch _ hnote =>
      have hsame : ledger (s', note s r l) = ledger (s, r) := by
        simp only [ledger, hnote, hquiet.launching]
      rw [hsame, hbatch]
      exact .refl _

/-- What a step does to the switch queue. -/
theorem switch_serves (h : Ok (s, r)) (hqueues : Queues s l s') :
    (switchLedger (s, r)).Serves (switchLedger (s', note s r l)) (pulls l) := by
  have hpushed : r.pushed = r.pulled ++ s.switchSpsc := h.pushed
  cases hqueues with
  | spawn hl => rcases hl with rfl | rfl <;> exact .refl _
  | push => exact .push _ _
  | @prepare exactlyOnce hidle =>
      refine .round [] (by simp [switchLedger, note]) ?_
      simp [switchLedger, note, pulls, hpushed]
  | @resume n hd operations hphase hqueue =>
      have hsame : switchLedger ({ s with operations := operations, running := some hd, phase := .launch n },
          note s r .go) = switchLedger (s, r) := by
        simp [switchLedger, note, hphase, hqueue]
      rw [hsame]
      exact .refl _
  | other hquiet _ hpulls hnote =>
      have hsame : switchLedger (s', note s r l) = switchLedger (s, r) := by simp only [switchLedger, hnote]
      rw [hsame, hpulls]
      exact .refl _

end Ok

/-! ## Runs -/

def Label.batch : Label → Nat
  | .context l => Run.batch l
  | _ => 0

def Label.pulls : Label → Nat
  | .context l => Run.pulls l
  | _ => 0

theorem step_context (h : (machine cfg).step x (.context l) = some y) :
    permitted x.1 x.2 l = true ∧ ∃ s, Queues x.1 l s ∧ y = (s, note x.1 x.2 l) := by
  simp only [machine, step] at h
  split at h
  · next hpermitted =>
      obtain ⟨s, hs, rfl⟩ := Option.map_eq_some_iff.mp h
      exact ⟨hpermitted, s, .of_step (.of_step hs), rfl⟩
  · cases h

/-- The other steps leave everything but the flags alone. -/
theorem step_flags {a : Label} (ha : ∀ l, a ≠ .context l) (h : (machine cfg).step x a = some y) :
    y.1 = x.1 ∧ ∃ stop looping, y.2 = { x.2 with stop := stop, looping := looping } := by
  cases a <;> simp only [machine, step] at h
  case context l => exact absurd rfl (ha l)
  all_goals
    split at h
    · obtain rfl := Option.some.inj h
      exact ⟨rfl, _, _, rfl⟩
    · cases h

theorem reachable_ok (h : (machine cfg).Reachable x) : Ok x := by
  refine h.invariant Ok (fun x hx => ?_) fun x a y _ hok _ hstep => ?_
  · obtain ⟨⟨hoperations, -, hswitch, hphase, -⟩, hstart⟩ := hx
    refine ⟨?_, ?_, ?_⟩
    · simp [hstart, Loop.start, hoperations]
    · simp [hstart, Loop.start, hswitch]
    · simp [hphase, launching]
  · cases a with
    | context l =>
        obtain ⟨-, s, hqueues, rfl⟩ := step_context hstep
        exact hok.context hqueues
    | _ =>
        obtain ⟨hsame, stop, looping, hflags⟩ := step_flags (by simp) hstep
        exact ⟨by rw [hsame, hflags]; exact hok.queued, by rw [hsame, hflags]; exact hok.pushed,
          by rw [hsame]; exact hok.launch⟩

theorem step_serves (hx : (machine cfg).Reachable x) {a : Label} (h : (machine cfg).step x a = some y) :
    (ledger x).Serves (ledger y) a.batch ∧ (switchLedger x).Serves (switchLedger y) a.pulls := by
  cases a with
  | context l =>
      obtain ⟨-, s, hqueues, rfl⟩ := step_context h
      exact ⟨(reachable_ok hx).serves hqueues, (reachable_ok hx).switch_serves hqueues⟩
  | _ =>
      obtain ⟨hsame, stop, looping, hflags⟩ := step_flags (by simp) h
      have hledger : ledger y = ledger x := by simp only [ledger, hsame, hflags]
      have hswitch : switchLedger y = switchLedger x := by simp only [switchLedger, hflags]
      rw [hledger, hswitch]
      exact ⟨.refl _, .refl _⟩

theorem run_serves (hx : (machine cfg).Reachable x) {as : List Label} (hrun : (machine cfg).run x as = some y) :
    (ledger x).Serves (ledger y) (as.map Label.batch).sum :=
  Ledger.serves_run (fun _ _ _ hs hstep => (step_serves hs hstep).1) hx hrun

theorem run_switch_serves (hx : (machine cfg).Reachable x) {as : List Label}
    (hrun : (machine cfg).run x as = some y) :
    (switchLedger x).Serves (switchLedger y) (as.map Label.pulls).sum :=
  Ledger.serves_run (fun _ _ _ hs hstep => (step_serves hs hstep).2) hx hrun

/-! ## Between two calls of `run_once()` -/

theorem ledger_served (hidle : x.1.phase = .idle) : (ledger x).served = x.2.resumed.length := by
  simp [ledger, hidle, launching]

/-- The coroutine at position `p` of the queue is the next to be resumed after `p` others, and
it has been resumed exactly when the calls of `run_once()` have room for it: a call resumes up to 32
coroutines, and `run_once<true>()` one. A coroutine in the switch queue of the context comes into the
queue when there were as many calls as it has others before it, and one more. -/
theorem resumed_when (hx : (machine cfg).Reachable x) {as : List Label} (hrun : (machine cfg).run x as = some y)
    (hidle : x.1.phase = .idle) (hidle' : y.1.phase = .idle) {p : Nat} {h : Handle} :
    (x.1.operations[p]? = some h →
      (y.2.resumed[x.2.resumed.length + p]? = some h ↔ p < (as.map Label.batch).sum)) ∧
    (x.1.switchSpsc[p]? = some h →
      (y.2.pulled[x.2.pulled.length + p]? = some h ↔ p < (as.map Label.pulls).sum)) := by
  have hok := reachable_ok hx
  have hok' := reachable_ok (hx.run hrun)
  constructor
  · intro hp
    exact (run_serves hx hrun).taken_iff hok.queued (ledger_served hidle) hok'.queued (ledger_served hidle') hp
  · intro hp
    exact (run_switch_serves hx hrun).taken_iff hok.pushed rfl hok'.pushed rfl hp

/-- A call of `run_once()` resumes what was in the queue, and what it pulled out of the switch queue,
up to its bound, and nothing that was put into the queue in the meantime. -/
theorem round_resumes (hx : (machine cfg).Reachable x) {exactlyOnce : Bool} {x' : State × Loop} {as : List Label}
    (hcall : (machine cfg).step x (.context (.runOnce exactlyOnce)) = some x')
    (hrun : (machine cfg).run x' as = some y) (has : ∀ a ∈ as, a.batch = 0) (hidle' : y.1.phase = .idle) :
    y.2.resumed = x.2.resumed ++
      (x.1.operations ++ x.1.switchSpsc.take 1).take (if exactlyOnce then 1 else 32) := by
  have hx' := hx.next trivial hcall
  have hok := reachable_ok hx
  have hserves := run_serves hx' hrun
  have hzero : (as.map Label.batch).sum = 0 := List.sum_eq_zero_iff_forall_eq_nat.mpr (by simpa using has)
  rw [hzero] at hserves
  obtain ⟨-, s, hqueues, rfl⟩ := step_context hcall
  cases hqueues with
  | other _ hbatch _ _ => cases exactlyOnce <;> simp [batch] at hbatch
  | spawn hl => simp at hl
  | prepare hidle =>
      have hlength : y.2.resumed.length = x.2.resumed.length +
          min (if exactlyOnce then 1 else 32) (x.1.operations ++ x.1.switchSpsc.take 1).length := by
        rw [← ledger_served hidle']
        exact Nat.le_antisymm hserves.most hserves.le
      have hbefore : x.2.resumed ++ (x.1.operations ++ x.1.switchSpsc.take 1) <+: y.2.queued := by
        have hqueued := hserves.queued
        simp only [ledger, note, hok.queued, List.append_assoc] at hqueued
        exact hqueued
      have hresumed : y.2.resumed <+: y.2.queued :=
        (reachable_ok (hx'.run hrun)).queued ▸ List.prefix_append _ _
      exact Ledger.taken_eq hresumed hbefore hlength

/-! ## The return of `run()` -/

theorem note_flags (s : State) (r : Loop) (l : Coroutine.Label) :
    (note s r l).stop = r.stop ∧ (note s r l).looping = r.looping := by
  cases l with
  | go =>
      simp only [note]
      split <;> exact ⟨rfl, rfl⟩
  | user act => cases act <;> exact ⟨rfl, rfl⟩
  | _ => exact ⟨rfl, rfl⟩

/-- In a call of `run()`, the flag is set by a coroutine. -/
theorem stop_called {as : List Label} (hlooping : x.2.looping = true) (hstop : x.2.stop = false)
    (hrun : (machine cfg).run x as = some y) (hleave : ∀ a ∈ as, a ≠ .leave) (hstop' : y.2.stop = true) :
    ∃ before after u h, as = before ++ .stop :: after ∧ (machine cfg).run x before = some u ∧
      u.1.running = some h := by
  induction as generalizing x with
  | nil =>
      obtain rfl : x = y := by simpa using hrun
      simp [hstop] at hstop'
  | cons a as ih =>
      obtain ⟨u, hu, hrun⟩ := (machine cfg).run_cons_some.mp hrun
      have hrest : ∀ a ∈ as, a ≠ .leave := fun b hb => hleave b (List.mem_cons_of_mem _ hb)
      cases a with
      | run => simp [machine, step, hlooping] at hu
      | leave => exact absurd rfl (hleave _ List.mem_cons_self)
      | stop =>
          simp only [machine, step, hlooping, Bool.true_eq_false, and_false, or_false] at hu
          split at hu
          · next hrunning =>
              obtain ⟨h, hh⟩ := Option.ne_none_iff_exists'.mp hrunning
              exact ⟨[], as, x, h, rfl, rfl, hh⟩
          · cases hu
      | context l =>
          obtain ⟨-, s, -, rfl⟩ := step_context hu
          obtain ⟨hstopped, hlooped⟩ := note_flags x.1 x.2 l
          obtain ⟨before, after, v, h, rfl, hv, hh⟩ :=
            ih (hlooped.trans hlooping) (hstopped.trans hstop) hrun hrest
          exact ⟨.context l :: before, after, v, h, rfl, (machine cfg).run_cons_some.mpr ⟨_, hu, hv⟩, hh⟩

/-- A call of `run()` returns when a coroutine has called `stop()` in it and every coroutine that was
ever put into the queue has been resumed, in the order of the queue. -/
theorem run_returns (hx : (machine cfg).Reachable x) {x' : State × Loop} {as : List Label}
    (hcall : (machine cfg).step x .run = some x') (hrun : (machine cfg).run x' as = some y)
    (hone : ∀ a ∈ as, a ≠ .leave) (hleave : (machine cfg).step y .leave = some z) :
    (∃ before after u h, as = before ++ .stop :: after ∧ (machine cfg).run x' before = some u ∧
      u.1.running = some h) ∧ z.1.operations = [] ∧ z.2.resumed = z.2.queued := by
  have hz := reachable_ok (((hx.next trivial hcall).run hrun).next trivial hleave)
  simp only [machine, step] at hcall hleave
  split at hcall
  · obtain rfl := Option.some.inj hcall
    split at hleave
    · next hstopped =>
        obtain rfl := Option.some.inj hleave
        simp only [stopped, Bool.and_eq_true, List.isEmpty_iff] at hstopped
        obtain ⟨-, -, hstop, hempty⟩ := hstopped
        refine ⟨stop_called rfl rfl hrun hone hstop, hempty, ?_⟩
        have hqueued := hz.queued
        simp only [hempty, List.append_nil] at hqueued
        exact hqueued.symm
    · cases hleave
  · cases hcall

section TwoRounds

/-- Two coroutines in the queue, and a third one in the switch queue. -/
def setup : List Label :=
  [.context .coSpawn, .context .coSpawn, .context (.push ⟨7, []⟩)]

/-- Every coroutine returns at once; the first one spawns another one and stops the context. -/
def firstRound : List Label :=
  [.context .go, .stop, .context (.user .coSpawn), .context (.user .ret), .context .go, .context (.user .ret),
    .context .go, .context (.user .ret), .context .go, .context .go, .context .go]

def secondRound : List Label :=
  [.context (.runOnce false), .context .go, .context (.user .ret), .context .go, .context .go, .context .go]

theorem resumed_when_setup : ∃ x y, (machine smallConfig).Reachable x ∧
    (machine smallConfig).run x (.run :: .context (.runOnce false) :: firstRound) = some y ∧
    y.2.resumed[1]? = some ⟨1, []⟩ ∧ y.2.pulled[0]? = some ⟨7, []⟩ := by
  obtain ⟨x, hx, y, hy, hidle, hidle', hresumed, hpulled, hp, hq⟩ : ∃ x,
      (machine smallConfig).run (.start, .start) setup = some x ∧ ∃ y,
      (machine smallConfig).run x (.run :: .context (.runOnce false) :: firstRound) = some y ∧
      x.1.phase = .idle ∧ y.1.phase = .idle ∧ x.2.resumed = [] ∧ x.2.pulled = [] ∧
      x.1.operations[1]? = some ⟨1, []⟩ ∧ x.1.switchSpsc[0]? = some ⟨7, []⟩ :=
    ⟨_, rfl, _, rfl, rfl, rfl, rfl, rfl, rfl, rfl⟩
  have hreach : (machine smallConfig).Reachable x := .of_run ⟨init_start, rfl⟩ hx
  have htaken := (resumed_when hreach hy hidle hidle').1 hp
  have hmoved := (resumed_when hreach hy hidle hidle').2 hq
  simp only [hresumed, hpulled, List.length_nil, Nat.zero_add] at htaken hmoved
  exact ⟨x, y, hreach, hy, htaken.mpr (by decide), hmoved.mpr (by decide)⟩

theorem round_resumes_first : ∃ x y, (machine smallConfig).Reachable x ∧
    (machine smallConfig).run x firstRound = some y ∧
    y.2.resumed = [⟨0, []⟩, ⟨1, []⟩, ⟨7, []⟩] ∧ y.1.operations = [⟨2, []⟩] := by
  obtain ⟨x, hx, x', hcall, y, hy, hidle', hresumed, hoperations, hswitch, hleft⟩ : ∃ x,
      (machine smallConfig).run (.start, .start) (setup ++ [.run]) = some x ∧ ∃ x',
      (machine smallConfig).step x (.context (.runOnce false)) = some x' ∧ ∃ y,
      (machine smallConfig).run x' firstRound = some y ∧ y.1.phase = .idle ∧ x.2.resumed = [] ∧
      x.1.operations = [⟨0, []⟩, ⟨1, []⟩] ∧ x.1.switchSpsc = [⟨7, []⟩] ∧ y.1.operations = [⟨2, []⟩] :=
    ⟨_, rfl, _, rfl, _, rfl, rfl, rfl, rfl, rfl, rfl⟩
  have hreach : (machine smallConfig).Reachable x := .of_run ⟨init_start, rfl⟩ hx
  have hround := round_resumes hreach hcall hy (by decide) hidle'
  rw [hresumed, hoperations, hswitch] at hround
  exact ⟨x', y, hreach.next trivial hcall, hy, hround, hleft⟩

theorem run_returns_stopped : ∃ z, (machine smallConfig).Reachable z ∧ z.1.operations = [] ∧
    z.2.resumed = z.2.queued ∧ z.2.queued = [⟨0, []⟩, ⟨1, []⟩, ⟨7, []⟩, ⟨2, []⟩] := by
  obtain ⟨x, hx, x', hcall, y, hy, z, hleave, hqueued⟩ : ∃ x,
      (machine smallConfig).run (.start, .start) setup = some x ∧ ∃ x',
      (machine smallConfig).step x .run = some x' ∧ ∃ y,
      (machine smallConfig).run x' (.context (.runOnce false) :: firstRound ++ secondRound) = some y ∧ ∃ z,
      (machine smallConfig).step y .leave = some z ∧
      z.2.queued = [⟨0, []⟩, ⟨1, []⟩, ⟨7, []⟩, ⟨2, []⟩] :=
    ⟨_, rfl, _, rfl, _, rfl, _, rfl, rfl⟩
  have hreach : (machine smallConfig).Reachable x := .of_run ⟨init_start, rfl⟩ hx
  have hreturns := run_returns hreach hcall hy (by simp [firstRound, secondRound]) hleave
  exact ⟨z, ((hreach.next trivial hcall).run hy).next trivial hleave, hreturns.2.1, hreturns.2.2, hqueued⟩

end TwoRounds

end IoUring.Coroutine.Run
