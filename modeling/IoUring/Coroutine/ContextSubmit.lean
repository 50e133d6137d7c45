import Mathlib.Algebra.Group.Int.Defs
import Mathlib.Algebra.Group.Nat.Defs
import IoUring.Coroutine.ContextInflight

/-!
# Submissions that fail

`io_uring_submit` returns the number of submitted requests or a negative error, as an
`int`, and `run_once()` adds it to `_inflight`, which is a `size_t`. A submission that
fails submits nothing. Here a context goes on with either, and the sum of the
successful submissions is kept beside it.
-/

namespace IoUring.Coroutine.Faulty

variable {cfg : Config}

/-- `submitted` is the sum of the successful submissions, and `error` the error of the
last submission, if it failed. -/
structure State where
  base : Coroutine.State
  submitted : Nat
  error : Option Nat

inductive Label where
  | run (a : Coroutine.Label)
  | submit (error : Option Nat)
  deriving DecidableEq

/-- `_inflight += ret` with an `int`. -/
def addInt (inflight : Nat) (ret : Int) : Nat :=
  ((inflight + ret) % 2 ^ 64).toNat

/-- `_inflight += io_uring_submit(&uring)`, where that returns `ret`. -/
def submitReturning (cfg : Config) (s : Coroutine.State) (ret : Int) (ring : Ring) :
    Coroutine.State :=
  let inflight := addInt s.inflight ret
  { s with
    inflight := inflight
    ring := ring
    phase := if inflight = 0 ∧ cfg.inflightConflict = false then .idle else .reap 0 }

/-- The context is about to submit. -/
def Submitting (s : Coroutine.State) : Prop :=
  s.phase = .submit ∧ s.running = none

instance (s : Coroutine.State) : Decidable (Submitting s) :=
  inferInstanceAs (Decidable (_ ∧ _))

def step (cfg : Config) (s : State) : Label → Option State
  | .run a =>
      if Submitting s.base ∧ a = .go then none
      else (Coroutine.step cfg s.base a).map fun b => { s with base := b }
  | .submit none =>
      if Submitting s.base then
        some {
          base := submitReturning cfg s.base s.base.ring.sq.length s.base.ring.submit
          submitted := s.submitted + s.base.ring.sq.length
          error := none }
      else none
  | .submit (some e) =>
      -- an error number of the kernel
      if Submitting s.base ∧ 0 < e ∧ e < 4096 then
        some { s with
          base := submitReturning cfg s.base (-e) s.base.ring
          error := some e }
      else none

def Init (s : State) : Prop :=
  Coroutine.Init s.base ∧ s.submitted = 0 ∧ s.error = none

def machine (cfg : Config) : Machine State Label where
  init := Init
  step := step cfg

/-- `inflight()` is the sum of the successful submissions minus the CQEs that were
reaped, and `drained()` holds when these are equal and nothing is pending. -/
structure Accurate (s : State) : Prop where
  inflight : s.base.inflight = s.submitted - s.base.ring.khead
  drained : s.base.operations = [] → s.base.ring.khead = s.submitted → s.base.drained = true

/-- The loop over the ring has passed the last CQE. -/
def LoopEnds (b : Coroutine.State) : Prop :=
  b.phase = .reap b.phase.done ∧ b.ring.ktail ≤ b.ring.khead + b.phase.done

instance (b : Coroutine.State) : Decidable (LoopEnds b) :=
  inferInstanceAs (Decidable (_ ∧ _))

/-- What makes good for a failed submission of the same call: the workaround is compiled
in, the error does not wrap `_inflight`, and everything that was submitted has a CQE when
the loop ends. -/
def Repaired (cfg : Config) (s : State) (e : Nat) : Prop :=
  cfg.inflightConflict = true ∧ e ≤ s.submitted - s.base.ring.khead ∧
    s.base.ring.ktail = s.submitted

instance (s : State) (e : Nat) : Decidable (Repaired cfg s e) :=
  inferInstanceAs (Decidable (_ ∧ _))

/-- A call of `run_once()` that ends with its loop has not failed to submit, or that is
repaired; one that ends early has not failed, and `_inflight` has room for what a
successful submission adds. -/
def CountOk (cfg : Config) (s : State) : Label → Prop
  | .run a => a = .go → LoopEnds s.base → ∀ e ∈ s.error, Repaired cfg s e
  | .submit none => s.base.inflight + s.base.ring.sq.length < 2 ^ 64
  | .submit (some e) => cfg.inflightConflict = true ∨ s.base.inflight ≠ e

/-- No multishot operation is constructed. -/
def Oneshot (s : State) : Label → Prop
  | .run a => NoMultishot s.base a
  | .submit _ => True

instance (s : State) : (l : Label) → Decidable (CountOk cfg s l)
  | .run _ => inferInstanceAs (Decidable (_ → _ → ∀ e ∈ s.error, _))
  | .submit none => inferInstanceAs (Decidable (_ < _))
  | .submit (some _) => inferInstanceAs (Decidable (_ ∨ _))

instance (s : State) : (l : Label) → Decidable (Oneshot s l)
  | .run a => inferInstanceAs (Decidable (NoMultishot s.base a))
  | .submit _ => inferInstanceAs (Decidable True)

variable {s s' : State} {l : Label}

theorem accurate_iff : Accurate s ↔ s.base.inflight = s.submitted - s.base.ring.khead := by
  refine ⟨Accurate.inflight, fun h => ⟨h, fun hoperations hall => ?_⟩⟩
  simp [Coroutine.State.drained, hoperations, h, hall]

/-- An error takes its number off the counter, or wraps it. -/
theorem addInt_neg {n e : Nat} (hn : n < 2 ^ 64) (he : e < 4096) :
    addInt n (-e) = if e ≤ n then n - e else 2 ^ 64 + n - e := by
  rw [addInt]
  split <;> omega

theorem addInt_of_lt {n m : Nat} : addInt n m = (n + m) % 2 ^ 64 := by
  rw [addInt]
  omega

/-! ## Steps between submissions -/

/-- Only submissions and the end of the loop change `_inflight` and the CQ head, and only
they begin or end the loop. -/
theorem counts_same {b b' : Coroutine.State} {a : Coroutine.Label} (h : Step cfg b a b')
    (hsubmit : a = .go → b.phase ≠ .submit)
    (hloop : a = .go → ∀ done, b.phase = .reap done → b.ring.khead + done < b.ring.ktail) :
    b'.inflight = b.inflight ∧ b'.ring.khead = b.ring.khead ∧
      ((∃ done, b'.phase = .reap done) ↔ ∃ done, b.phase = .reap done) ∧
      (b'.phase = .idle → b.phase = .idle) := by
  cases h with
  | coSpawn _ => exact ⟨rfl, rfl, Iff.rfl, id⟩
  | push _ => exact ⟨rfl, rfl, Iff.rfl, id⟩
  | runOnce hphase => simp [prepareStep, hphase]
  | launched _ hphase => simp [hphase]
  | resume _ hphase _ => simp [hphase]
  | submit _ hphase => exact absurd hphase (hsubmit rfl)
  | skip hreap _ => simp [Coroutine.State.passed, hreap.phase]
  | torn hreap _ _ _ => simp [Coroutine.State.passed, hreap.phase]
  | eager hreap _ _ _ _ =>
      simp [Coroutine.State.reaped, Coroutine.State.passed, Coroutine.State.setUserData,
        Coroutine.State.setObject, hreap.phase]
  | @complete a hd hreap _ _ _ _ _ =>
      obtain ⟨d, res, heq⟩ := awaitResume_eq (b.reaped cfg a) a
      rw [heq]
      simp [Coroutine.State.reaped, Coroutine.State.passed, Coroutine.State.setUserData,
        Coroutine.State.setObject, hreap.phase]
  | leave _ hphase hle _ _ =>
      obtain ⟨done, hphase⟩ := hphase
      have hlt := hloop rfl done hphase
      rw [hphase] at hle
      simp only [Phase.done] at hle
      omega
  | construct hact hs' =>
      obtain ⟨sqes, o, hprep, -⟩ := constructStep_prepares (UserAct.prep_of_constructs hact) hs'
      have hring := hprep.sq
      rw [hprep.rest]
      simp [hring]
  | link hs' =>
      obtain ⟨_, _, _, hprep, -⟩ := linkStep_prepares hs'
      have hring := hprep.sq
      rw [hprep.rest]
      simp [hring]
  | @drop a stale _ _ _ _ =>
      obtain ⟨r, hdrives, heq⟩ := dropMultishot_drives cfg b a stale
      rw [heq]
      exact ⟨rfl, hdrives.same.1, Iff.rfl, id⟩
  | @ready a _ _ _ _ =>
      obtain ⟨d, res, heq⟩ := awaitResume_eq { b with awaits := a :: b.awaits } a
      rw [heq]
      exact ⟨rfl, rfl, Iff.rfl, id⟩
  | _ => exact ⟨rfl, rfl, Iff.rfl, id⟩

/-- The end of the loop. -/
theorem leaveStep_eq {b b' : Coroutine.State} {done : Nat} (hrun : b.running = none)
    (hphase : b.phase = .reap done) (hle : b.ring.ktail ≤ b.ring.khead + done)
    (h : Coroutine.step cfg b .go = some b') :
    ∃ inflight, inflight = (if cfg.inflightConflict then max b.inflight done else b.inflight) ∧
      done ≤ inflight ∧ b' = b.left inflight := by
  have hdone : b.phase.done = done := by rw [hphase]; rfl
  simp only [Coroutine.step, hrun, goStep, hphase, reapStep, if_neg (Nat.not_lt.mpr hle),
    leaveStep] at h
  generalize (if cfg.inflightConflict then max b.inflight done else b.inflight) = inflight at h ⊢
  split at h
  · next hinflight =>
      obtain rfl := Option.some.inj h
      exact ⟨inflight, rfl, hinflight, by rw [State.left, hdone, hrun]⟩
  · cases h

theorem running_of_go {b b' : Coroutine.State} (h : Coroutine.step cfg b .go = some b') :
    b.running = none := by
  cases hrun : b.running with
  | none => rfl
  | some hd => simp [Coroutine.step, hrun] at h

/-! ## The invariant -/

/-- What holds after every step of a run in which the count stays right. -/
structure CountsOk (cfg : Config) (s : State) : Prop where
  ring : RingOk cfg s.base
  submitted : SubmittedOk s.base s.submitted
  room : s.submitted - s.base.ring.khead < 2 ^ 64
  between : (∀ done, s.base.phase ≠ .reap done) →
    s.base.inflight = s.submitted - s.base.ring.khead
  succeeded : s.error = none → s.base.inflight = s.submitted - s.base.ring.khead
  failed : ∀ e, s.error = some e → 0 < e ∧ e < 4096 ∧ ∀ done, s.base.phase = .reap done →
    s.base.inflight = addInt (s.submitted - s.base.ring.khead) (-e)

namespace CountsOk

/-- Between two calls the invariant is what the claim about `inflight()` adds. -/
theorem of_accurate (hring : RingOk cfg s.base) (hsubmitted : SubmittedOk s.base s.submitted)
    (hroom : s.submitted - s.base.ring.khead < 2 ^ 64)
    (herror : ∀ e, s.error = some e → 0 < e ∧ e < 4096) (hidle : s.base.phase = .idle)
    (h : Accurate s) : CountsOk cfg s where
  ring := hring
  submitted := hsubmitted
  room := hroom
  between := fun _ => h.inflight
  succeeded := fun _ => h.inflight
  failed := fun e he => ⟨(herror e he).1, (herror e he).2, fun done hphase => by simp [hidle] at hphase⟩

theorem khead_le (h : CountsOk cfg s) : s.base.ring.khead + s.base.phase.done ≤ s.submitted := by
  have hhead := h.ring.head
  have hcount := h.submitted.count
  omega

/-- A step that neither submits nor ends the loop. -/
theorem run (h : CountsOk cfg s) {a : Coroutine.Label} {b : Coroutine.State}
    (hok : NoMultishot s.base a) (hb : Coroutine.step cfg s.base a = some b)
    (hsubmit : a = .go → s.base.phase ≠ .submit)
    (hloop : a = .go → ∀ done, s.base.phase = .reap done →
      s.base.ring.khead + done < s.base.ring.ktail) :
    CountsOk cfg { s with base := b } := by
  have hstep : Step cfg s.base a b := .of_step hb
  obtain ⟨hinflight, hhead, hreap, -⟩ := counts_same hstep hsubmit hloop
  have hsubmits : s.base.submits a = 0 := by
    cases a with
    | go => exact if_neg (hsubmit rfl)
    | _ => rfl
  have hsubmitted := h.submitted.step hok hstep
  rw [hsubmits, Nat.add_zero] at hsubmitted
  refine ⟨h.ring.step hstep, hsubmitted, ?_, fun hphase => ?_, fun herror => ?_, fun e he => ?_⟩
  · simpa only [hhead] using h.room
  · simp only [hinflight, hhead]
    apply h.between
    intro done hdone
    obtain ⟨done', hdone'⟩ := hreap.mpr ⟨done, hdone⟩
    exact hphase done' hdone'
  · simpa only [hinflight, hhead] using h.succeeded herror
  · obtain ⟨hpos, hlt, hfailed⟩ := h.failed e he
    refine ⟨hpos, hlt, fun done hdone => ?_⟩
    obtain ⟨done', hdone'⟩ := hreap.mp ⟨done, hdone⟩
    simpa only [hinflight, hhead] using hfailed done' hdone'

/-- The end of the loop. Where the last submission has failed, the workaround has to make up
for its error number. -/
theorem leave (h : CountsOk cfg s) {done : Nat} {b : Coroutine.State} (hrun : s.base.running = none)
    (hphase : s.base.phase = .reap done) (hle : s.base.ring.ktail ≤ s.base.ring.khead + done)
    (hb : Coroutine.step cfg s.base .go = some b) :
    b.phase = .idle ∧ (Accurate { s with base := b } ↔ CountOk cfg s (.run .go)) ∧
      (Accurate { s with base := b } → CountsOk cfg { s with base := b }) := by
  have hstep : Step cfg s.base .go b := .of_step hb
  have hring := h.ring.step hstep
  have hsubmitted := h.submitted.step (a := .go) (by simp [NoMultishot]) hstep
  rw [State.submits, if_neg (by simp [hphase]), Nat.add_zero] at hsubmitted
  have hdone : s.base.phase.done = done := by rw [hphase]; rfl
  have hkhead := h.khead_le
  have hhead := h.ring.head
  have hroom := h.room
  rw [hdone] at hkhead hhead
  obtain ⟨inflight, hinflight, hge, rfl⟩ := leaveStep_eq hrun hphase hle hb
  have hends : LoopEnds s.base := by
    rw [LoopEnds, hdone]
    exact ⟨hphase, hle⟩
  have hok : CountOk cfg s (.run .go) ↔ ∀ e ∈ s.error, Repaired cfg s e :=
    ⟨fun hok => hok rfl hends, fun hok _ _ => hok⟩
  refine ⟨rfl, ?_, fun hacc => of_accurate hring hsubmitted ?_ (fun e he => ?_) rfl hacc⟩
  · rw [accurate_iff, hok]
    simp only [State.left, hdone]
    cases herror : s.error with
    | none =>
        have hcount := h.succeeded herror
        have hmax : inflight = s.base.inflight := by
          rw [hinflight]
          split <;> omega
        simp only [Option.not_mem_none, false_implies, implies_true, iff_true]
        omega
    | some e =>
        obtain ⟨hpos, hlt, hcount⟩ := h.failed e herror
        rw [hcount done hphase, addInt_neg hroom hlt] at hinflight
        simp only [Option.mem_some_iff, forall_eq', Repaired]
        cases hconflict : cfg.inflightConflict with
        | false =>
            simp only [hconflict, Bool.false_eq_true, if_false] at hinflight
            simp only [Bool.false_eq_true, false_and, iff_false]
            split at hinflight <;> omega
        | true =>
            simp only [hconflict, if_true] at hinflight
            simp only [true_and]
            split at hinflight <;> omega
  · simp only [State.left, hdone]
    omega
  · exact ⟨(h.failed e he).1, (h.failed e he).2.1⟩

end CountsOk

/-! ## Submissions -/

/-- Neither outcome of a submission touches the CQ ring. -/
theorem submitReturning_ring {b : Coroutine.State} (h : RingOk cfg b) (ret : Int) {ring : Ring}
    (hring : ring = b.ring ∨ ring = b.ring.submit) :
    RingOk cfg (submitReturning cfg b ret ring) := by
  have hhead := h.head
  have hcq : SameCq b (submitReturning cfg b ret ring) := by
    rcases hring with rfl | rfl <;> exact ⟨rfl, rfl, rfl, rfl⟩
  apply h.same hcq
  simp only [submitReturning]
  split <;> simp only [Phase.done] <;> omega

namespace CountsOk

theorem submit (h : CountsOk cfg s) (hstep : step cfg s (.submit none) = some s') :
    (CountOk cfg s (.submit none) → CountsOk cfg s') ∧
      (s'.base.phase = .idle → (Accurate s' ↔ CountOk cfg s (.submit none))) := by
  simp only [step] at hstep
  split at hstep
  · next hsubmitting =>
      obtain rfl := Option.some.inj hstep
      have hinflight := h.between (by simp [hsubmitting.1])
      have hkhead := h.khead_le
      have hsubmitted : SubmittedOk
          (submitReturning cfg s.base s.base.ring.sq.length s.base.ring.submit)
          (s.submitted + s.base.ring.sq.length) := h.submitted.submit rfl rfl rfl rfl
      have hring := submitReturning_ring h.ring s.base.ring.sq.length (.inr rfl)
      refine ⟨fun hok => ?_, fun hidle => ?_⟩
      · have hadd : addInt s.base.inflight s.base.ring.sq.length =
            s.submitted + s.base.ring.sq.length - s.base.ring.khead := by
          simp only [CountOk] at hok
          rw [addInt_of_lt, Nat.mod_eq_of_lt hok]
          omega
        refine ⟨hring, hsubmitted, ?_, fun _ => hadd, fun _ => hadd, fun e he => by simp at he⟩
        simp only [submitReturning, Ring.submit, CountOk] at hok ⊢
        omega
      · rw [accurate_iff]
        simp only [submitReturning, ite_eq_left_iff, reduceCtorEq, imp_false, not_not] at hidle
        simp only [submitReturning, CountOk, Ring.submit]
        have hzero := hidle.1
        rw [addInt_of_lt] at hzero ⊢
        omega
  · cases hstep

/-- A failed submission. An early return leaves `_inflight` at zero, although requests are in
flight. -/
theorem submitFailed (h : CountsOk cfg s) {e : Nat}
    (hstep : step cfg s (.submit (some e)) = some s') :
    (CountOk cfg s (.submit (some e)) → CountsOk cfg s') ∧
      (s'.base.phase = .idle → (Accurate s' ↔ CountOk cfg s (.submit (some e)))) := by
  simp only [step] at hstep
  split at hstep
  · next hsubmitting =>
      obtain ⟨hsubmitting, hpos, hlt⟩ := hsubmitting
      obtain rfl := Option.some.inj hstep
      have hinflight := h.between (by simp [hsubmitting.1])
      have hkhead := h.khead_le
      have hroom := h.room
      have hsubmitted : SubmittedOk (submitReturning cfg s.base (-e) s.base.ring) s.submitted :=
        h.submitted.same rfl (fun _ => rfl) rfl rfl
      have hring := submitReturning_ring h.ring (-e) (.inl rfl)
      have hadd := addInt_neg (n := s.base.inflight) (e := e) (by omega) hlt
      have hzero : addInt s.base.inflight (-e) = 0 ↔ s.base.inflight = e := by
        rw [hadd]
        split <;> omega
      refine ⟨fun hok => ⟨hring, hsubmitted, hroom, fun hphase => ?_, fun herror => ?_, ?_⟩,
        fun hidle => ?_⟩
      · simp only [submitReturning, hzero] at hphase
        rcases hok with hconflict | hne
        · exact absurd (if_neg (by simp [hconflict])) (hphase 0)
        · exact absurd (if_neg (by simp [hne])) (hphase 0)
      · cases herror
      · intro e' he'
        obtain rfl := Option.some.inj he'
        refine ⟨hpos, hlt, fun done hdone => ?_⟩
        simp only [submitReturning, hinflight]
      · rw [accurate_iff]
        simp only [submitReturning, ite_eq_left_iff, reduceCtorEq, imp_false, not_not] at hidle
        simp only [submitReturning, CountOk, hidle.1, hidle.2, Bool.false_eq_true, false_or]
        have heq := hzero.mp hidle.1
        omega
  · cases hstep

/-- One step keeps the invariant when it meets the condition, and where it ends a call the
condition is exact. -/
theorem step (h : CountsOk cfg s) (hok : Oneshot s l) (hstep : Faulty.step cfg s l = some s') :
    (CountOk cfg s l → CountsOk cfg s') ∧
      (s'.base.phase = .idle → (Accurate s' ↔ CountOk cfg s l)) := by
  cases l with
  | submit error =>
      cases error with
      | none => exact h.submit hstep
      | some e => exact h.submitFailed hstep
  | run a =>
      simp only [Faulty.step] at hstep
      split at hstep
      · cases hstep
      · next hsubmitting =>
          obtain ⟨b, hb, rfl⟩ := Option.map_eq_some_iff.mp hstep
          by_cases hend : a = .go ∧ LoopEnds s.base
          · obtain ⟨rfl, hphase, hle⟩ := hend
            obtain ⟨-, hiff, hcounts⟩ := h.leave (running_of_go hb) hphase hle hb
            exact ⟨fun hcount => hcounts (hiff.mpr hcount), fun _ => hiff⟩
          · have hloop : a = .go → ∀ done, s.base.phase = .reap done →
                s.base.ring.khead + done < s.base.ring.ktail := fun ha done hphase =>
              Nat.lt_of_not_le fun hle => hend ⟨ha, by
                rw [LoopEnds, hphase]
                exact ⟨rfl, hle⟩⟩
            have hrun := h.run hok hb (fun ha hphase =>
              hsubmitting ⟨⟨hphase, running_of_go (ha ▸ hb)⟩, ha⟩) hloop
            refine ⟨fun _ => hrun, fun hidle => ⟨fun _ ha hends => ?_, fun _ => ?_⟩⟩
            · exact absurd ⟨ha, hends⟩ hend
            · exact accurate_iff.mpr (hrun.between fun done hphase => by
                rw [show _ = Phase.idle from hidle] at hphase
                cases hphase)

end CountsOk

/-- A run that meets the condition at every step. -/
theorem reachable_counts (h : (machine cfg).Reach (fun s l => Oneshot s l ∧ CountOk cfg s l) s) :
    CountsOk cfg s := by
  refine h.invariant (CountsOk cfg) (fun s hs => ?_) fun s l s' _ hcounts hok hstep =>
    (hcounts.step hok.1 hstep).1 hok.2
  obtain ⟨hbase, hsubmitted, herror⟩ := hs
  have hreach : (Coroutine.machine cfg).Reach NoMultishot s.base := .start hbase
  have hinflight := reachable_inflight hreach
  obtain ⟨-, hzero, -, -, -, -, -, hhead, -⟩ := hbase
  have htotal := hinflight.submitted
  rw [hzero, hhead] at htotal
  refine ⟨reachable_ring hreach, by rw [hsubmitted]; exact htotal, ?_, fun _ => ?_, fun _ => ?_,
    fun e he => by simp [herror] at he⟩
  · omega
  · omega
  · omega

/-- As long as no submission fails without being repaired, `inflight()` and `drained()` are
right between two calls, and the first call that does not meet the condition leaves them
wrong. -/
theorem inflight_after_errors
    (h : (machine cfg).Reach (fun s l => Oneshot s l ∧ CountOk cfg s l) s) :
    (s.base.phase = .idle → Accurate s) ∧
      ∀ l s', Oneshot s l → step cfg s l = some s' → s'.base.phase = .idle →
        (Accurate s' ↔ CountOk cfg s l) := by
  have hcounts := reachable_counts h
  exact ⟨fun hidle => accurate_iff.mpr (hcounts.between (by simp [hidle])),
    fun l s' hok hstep => (hcounts.step hok hstep).2⟩

section Errors

def start : State := ⟨.start, 0, none⟩

theorem init_start : Init start := ⟨Coroutine.init_start, rfl, rfl⟩

/-- Four requests are submitted; they have finished when the next submission is interrupted
(`EINTR`). -/
def interruptedRun : List Label :=
  [.run .coSpawn, .run (.runOnce false), .run .go, .run (.user .asyncOperation), .run (.user .asyncOperation),
    .run (.user .asyncOperation), .run (.user .asyncOperation), .run (.user (.await 3)), .run .go,
    .submit none, .run .go, .run (.finish 0 1 false false), .run (.finish 1 1 false false),
    .run (.finish 2 1 false false), .run (.finish 3 1 false false), .run (.runOnce false), .run .go,
    .submit (some 4), .run .go, .run .go, .run .go, .run .go, .run (.user .ret), .run .go]

theorem inflight_after_interrupt :
    ∃ s, (machine smallConfig).Reach (fun s l => Oneshot s l ∧ CountOk smallConfig s l) s ∧
      s.base.phase = .idle ∧ s.error = some 4 ∧ s.submitted = 4 ∧ Accurate s := by
  have hrun : ∃ s, ((machine smallConfig).restrict fun s l =>
      Oneshot s l ∧ CountOk smallConfig s l).run start interruptedRun = some s ∧
      s.base.phase = .idle ∧ s.error = some 4 ∧ s.submitted = 4 := ⟨_, rfl, rfl, rfl, rfl⟩
  obtain ⟨s, hs, hidle, herror, hsubmitted⟩ := hrun
  have hreach := Machine.Reach.restrict (.start init_start) hs
  exact ⟨s, hreach, hidle, herror, hsubmitted, (inflight_after_errors hreach).1 hidle⟩

/-- One request is in flight when a submission fails with `EBUSY`; the next one succeeds, with
nothing to submit. -/
def busyRun : List Label :=
  [.run .coSpawn, .run (.runOnce false), .run .go, .run (.user .asyncOperation), .run (.user (.await 0)), .run .go,
    .submit none, .run .go, .run (.runOnce false), .run .go, .submit (some 16), .run .go,
    .run (.finish 0 1 false false), .run (.runOnce false), .run .go, .submit none, .run .go, .run (.user .ret),
    .run .go]

/-- Everything is reaped and nothing is pending, but `_inflight` has wrapped. -/
theorem inflight_not_restored :
    ∃ s, (machine smallConfig).Reach Oneshot s ∧ s.base.phase = .idle ∧ s.submitted = 1 ∧
      s.base.ring.khead = 1 ∧ s.base.operations = [] ∧ s.base.inflight = 2 ^ 64 - 16 ∧
      s.base.drained = false := by
  have hrun : ∃ s, ((machine smallConfig).restrict Oneshot).run start busyRun = some s ∧
      s.base.phase = .idle ∧ s.submitted = 1 ∧ s.base.ring.khead = 1 ∧ s.base.operations = [] ∧
      s.base.inflight = 2 ^ 64 - 16 ∧ s.base.drained = false :=
    ⟨_, rfl, rfl, rfl, rfl, rfl, rfl, rfl⟩
  obtain ⟨s, hs, hrest⟩ := hrun
  exact ⟨s, Machine.Reach.restrict (.start init_start) hs, hrest⟩

end Errors

end IoUring.Coroutine.Faulty
