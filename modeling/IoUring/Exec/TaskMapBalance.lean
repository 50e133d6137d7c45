import IoUring.Base.Observe
import IoUring.Base.Turns
import IoUring.Exec.TaskMap

/-!
# The tasks are spread over the buckets

Every `start_operation` takes a ticket from `_store_balance` and pushes its task into the bucket of
the ticket. The starters are between the two in any order, and the counter wraps around, at a multiple
of the number of buckets.
-/

namespace IoUring.Exec.TaskMap

variable {α τ ρ : Type*} [DecidableEq α] [DecidableEq τ] [DecidableEq ρ] {L : Layout α ρ}
  {locality : ρ → Bool} {s s' : State α τ ρ} {l : Label α τ ρ} {t : τ} {q : Bucket}

instance neZeroBuckets : NeZero nWayConcurrency := ⟨by decide⟩

/-- The buckets of the tickets that were drawn, and those into which a task was pushed. -/
structure Tickets where
  drawn : List Bucket
  pushed : List Bucket

/-- The history of a step. -/
def note (h : Tickets) (s : State α τ ρ) (l : Label α τ ρ) (s' : State α τ ρ) : Tickets :=
  match l with
  | .starter t _ =>
      match s.starter t, s'.starter t with
      | .fetchAdd _, _ => { h with drawn := h.drawn ++ [robinAccess s.storeBalance] }
      | .push _ q _, .idle => { h with pushed := h.pushed ++ [q] }
      | _, _ => h
  | _ => h

variable (L locality) in
/-- The machine that remembers the tickets. -/
def ticketed : Machine (State α τ ρ × Tickets) (Label α τ ρ) :=
  (machine L locality).observed ⟨[], []⟩ note

/-- The bucket of the ticket that a starter holds. -/
def StarterPc.bucket : StarterPc α → Option Bucket
  | .push _ q _ => some q
  | _ => none

/-- The ways in which a step takes part in the tickets. -/
inductive Starts (s : State α τ ρ) (h : Tickets) : State α τ ρ → Tickets → Prop
  | other {s' : State α τ ρ} (hbalance : s'.storeBalance = s.storeBalance)
      (hstarter : ∀ t, (s'.starter t).bucket = (s.starter t).bucket) : Starts s h s' h
  | draw {s' : State α τ ρ} (t : τ) (hidle : (s.starter t).bucket = none)
      (hbalance : s'.storeBalance = (s.storeBalance + 1) % 2 ^ 64)
      (hstarter : ∀ t', (s'.starter t').bucket =
        if t' = t then some (robinAccess s.storeBalance) else (s.starter t').bucket) :
      Starts s h s' { h with drawn := h.drawn ++ [robinAccess s.storeBalance] }
  | push {s' : State α τ ρ} (t : τ) (q : Bucket) (hq : (s.starter t).bucket = some q)
      (hbalance : s'.storeBalance = s.storeBalance)
      (hstarter : ∀ t', (s'.starter t').bucket = if t' = t then none else (s.starter t').bucket) :
      Starts s h s' { h with pushed := h.pushed ++ [q] }

omit [DecidableEq α] [DecidableEq ρ] in
theorem bucket_update (s : State α τ ρ) (t t' : τ) (pc : StarterPc α) :
    (Function.update s.starter t pc t').bucket = if t' = t then pc.bucket else (s.starter t').bucket := by
  by_cases ht : t' = t
  · simp [ht]
  · simp [ht]

omit [DecidableEq ρ] in
theorem Starts.of_starterStep {h : Tickets} {spurious : Bool} (hstep : starterStep s t spurious = some s') :
    Starts s h s' (note h s (.starter t spurious) s') := by
  simp only [starterStep] at hstep
  split at hstep
  · cases hstep
  · next op hpc =>
      obtain rfl := Option.some.inj hstep
      rw [note]
      simp only [hpc]
      refine .draw t (by rw [hpc]; rfl) rfl fun t' => ?_
      exact bucket_update s t t' _
  · next op q pc hpc =>
      split at hstep
      · next hp pc' hcall =>
          obtain rfl := Option.some.inj hstep
          simp only [note, hpc, Function.update_self]
          refine .other rfl fun t' => ?_
          refine (bucket_update s t t' _).trans ?_
          split
          · next ht => rw [ht, hpc]; rfl
          · rfl
      · next hp hcall =>
          obtain rfl := Option.some.inj hstep
          simp only [note, hpc, Function.update_self]
          exact .push t q (by rw [hpc]; rfl) rfl fun t' => bucket_update s t t' _

omit [DecidableEq τ] in
theorem runnerStep_starter {r : ρ} {spurious : Bool} (hstep : runnerStep L locality s r spurious = some s') :
    s'.starter = s.starter ∧ s'.storeBalance = s.storeBalance := by
  simp only [runnerStep] at hstep
  split at hstep
  · cases hstep
  · split at hstep <;> obtain rfl := Option.some.inj hstep <;> exact ⟨rfl, rfl⟩
  · split at hstep <;> obtain rfl := Option.some.inj hstep <;> exact ⟨rfl, rfl⟩
  · obtain rfl := Option.some.inj hstep
    exact ⟨rfl, rfl⟩
  · obtain rfl := Option.some.inj hstep
    exact ⟨rfl, rfl⟩
  · split at hstep <;> obtain rfl := Option.some.inj hstep <;> exact ⟨rfl, rfl⟩

theorem Starts.of_step {h : Tickets} (hstep : step L locality s l = some s') : Starts s h s' (note h s l s') := by
  cases l with
  | starter t spurious => exact .of_starterStep hstep
  | runner r spurious =>
      obtain ⟨hstarter, hbalance⟩ := runnerStep_starter (L := L) hstep
      exact .other hbalance fun t => by rw [hstarter]
  | start t a =>
      simp only [step] at hstep
      split at hstep
      · next n hpc ho =>
          split at hstep
          · obtain rfl := Option.some.inj hstep
            refine .other rfl fun t' => ?_
            refine (bucket_update s t t' _).trans ?_
            split
            · next ht => rw [ht, hpc]; rfl
            · rfl
          · cases hstep
      · cases hstep
  | tick =>
      obtain rfl := Option.some.inj hstep
      exact .other rfl fun _ => rfl
  | _ =>
      simp only [step] at hstep
      split at hstep
      · first
        | split at hstep
          · obtain rfl := Option.some.inj hstep
            exact .other rfl fun _ => rfl
          · cases hstep
        | obtain rfl := Option.some.inj hstep
          exact .other rfl fun _ => rfl
      · cases hstep

/-- The tickets follow the counter from where it started, and those that were drawn are the ones of
the tasks that were pushed and of the starters between the two. -/
structure Even (s : State α τ ρ) (h : Tickets) (start : Nat) (between : List (τ × Bucket)) : Prop where
  drawn : h.drawn = turns nWayConcurrency start h.drawn.length
  balance : s.storeBalance % nWayConcurrency = (start + h.drawn.length) % nWayConcurrency
  apart : (between.map Prod.fst).Nodup
  starter : ∀ t q, (t, q) ∈ between ↔ (s.starter t).bucket = some q
  pushed : h.drawn.Perm (h.pushed ++ between.map Prod.snd)

omit [DecidableEq α] [DecidableEq ρ] in
theorem Even.step {h h' : Tickets} {start : Nat} {between : List (τ × Bucket)} (he : Even s h start between)
    (hstarts : Starts s h s' h') : ∃ between', Even s' h' start between' := by
  obtain ⟨hdrawn, hbalance, hapart, hstarter, hpushed⟩ := he
  cases hstarts with
  | other hsame hbucket =>
      exact ⟨between, hdrawn, by rw [hsame, hbalance], hapart, fun t q => by rw [hbucket, hstarter], hpushed⟩
  | draw t hidle hnext hbucket =>
      have hturn : robinAccess s.storeBalance = Fin.ofNat nWayConcurrency (start + h.drawn.length) :=
        Fin.ext hbalance
      have hnew : ∀ q, (t, q) ∉ between := fun q hq => by
        rw [hstarter, hidle] at hq
        cases hq
      refine ⟨(t, robinAccess s.storeBalance) :: between, ?_, ?_, ?_, fun t' q => ?_, ?_⟩
      · simp only [List.length_append, List.length_singleton]
        rw [turns_succ, ← hdrawn, hturn]
      · rw [hnext, List.length_append, List.length_singleton, ← Nat.add_assoc]
        -- the counter wraps around at a multiple of the number of buckets
        have hwrap : (s.storeBalance + 1) % 2 ^ 64 % nWayConcurrency = (s.storeBalance + 1) % nWayConcurrency :=
          Nat.mod_mod_of_dvd _ (by decide)
        rw [hwrap, Nat.add_mod, hbalance, ← Nat.add_mod]
      · rw [List.map_cons, List.nodup_cons]
        refine ⟨fun hmem => ?_, hapart⟩
        obtain ⟨⟨t', q⟩, hq, rfl⟩ := List.mem_map.mp hmem
        exact hnew q hq
      · rw [List.mem_cons, hstarter, hbucket, Prod.mk.injEq]
        split
        · next ht =>
            subst ht
            simp [hidle, eq_comm]
        · next ht => simp [ht]
      · rw [List.map_cons]
        exact (hpushed.append_right _).trans ((List.perm_append_singleton _ _).trans List.perm_middle.symm)
  | push t q hq hsame hbucket =>
      have hmem : (t, q) ∈ between := (hstarter t q).mpr hq
      have hperm := List.perm_cons_erase hmem
      have hapart' := (hperm.map Prod.fst).nodup_iff.mp hapart
      rw [List.map_cons, List.nodup_cons] at hapart'
      refine ⟨between.erase (t, q), hdrawn, by rw [hsame, hbalance], hapart'.2, fun t' q' => ?_, ?_⟩
      · rw [hbucket]
        split
        · next ht =>
            subst ht
            refine iff_of_false (fun hq' => hapart'.1 ?_) (by simp)
            exact List.mem_map.mpr ⟨_, hq', rfl⟩
        · next ht =>
            rw [← hstarter, hperm.mem_iff, List.mem_cons, Prod.mk.injEq]
            simp [ht]
      · refine hpushed.trans (((hperm.map Prod.snd).append_left _).trans ?_)
        rw [List.map_cons, List.append_assoc, List.singleton_append]

theorem reachable_even {x : State α τ ρ × Tickets} (hx : (ticketed L locality).Reachable x) :
    ∃ start between, Even x.1 x.2 start between := by
  refine hx.invariant (fun x => ∃ start between, Even x.1 x.2 start between) (fun x hinit => ?_)
    fun x l y _ heven _ hstep => ?_
  · obtain ⟨⟨-, hstarter, -⟩, hstart⟩ := hinit
    refine ⟨x.1.storeBalance, [], ?_, ?_, List.nodup_nil, fun t q => ?_, ?_⟩
    · simp [hstart]
    · simp [hstart]
    · simp [hstarter, StarterPc.bucket]
    · simp [hstart]
  · obtain ⟨start, between, he⟩ := heven
    obtain ⟨hstep, hnote⟩ := Machine.observed_step.mp hstep
    rw [hnote]
    obtain ⟨between', he'⟩ := he.step (Starts.of_step hstep)
    exact ⟨start, between', he'⟩

/-- However many threads start operations at once, no bucket is given two tasks more than another one:
neither by the tickets, nor, when no starter is between its ticket and the end of its push, by
the tasks that were pushed. -/
theorem starts_balanced {x : State α τ ρ × Tickets} (hx : (ticketed L locality).Reachable x) (b c : Bucket) :
    x.2.drawn.count b ≤ x.2.drawn.count c + 1 ∧ x.2.pushed.count b ≤ x.2.drawn.count b ∧
      ((∀ t, (x.1.starter t).bucket = none) → x.2.pushed.count b ≤ x.2.pushed.count c + 1) := by
  obtain ⟨start, between, he⟩ := reachable_even hx
  have hdrawn : x.2.drawn.count b ≤ x.2.drawn.count c + 1 := by
    rw [he.drawn]
    exact count_turns_le _ _ _ _
  refine ⟨hdrawn, ?_, fun hnone => ?_⟩
  · rw [he.pushed.count_eq, List.count_append]
    exact Nat.le_add_right _ _
  · have hempty : between = [] := List.eq_nil_iff_forall_not_mem.mpr fun ⟨t, q⟩ hq => by
      rw [he.starter, hnone] at hq
      cases hq
    have hperm := he.pushed
    rw [hempty, List.map_nil, List.append_nil] at hperm
    rw [← hperm.count_eq, ← hperm.count_eq]
    exact hdrawn

section Wrap

/-- Addresses 0 and 1 hold tasks, address 2 is the sentinel of the only runner. -/
def pairLayout : Layout (Fin 3) Unit where
  onStack a := a = 2
  sentinel _ := 2
  sentinel_onStack _ := rfl

/-- The counter is about to wrap around. -/
def pairStart : State (Fin 3) (Fin 2) Unit where
  heap := ⟨fun _ => none, fun _ => none⟩
  storeBalance := 2 ^ 64 - 1
  walltimeStep := 0
  starter _ := .idle
  runner _ := .idle
  object _ := none
  created := 0
  phase _ := .constructed
  completed _ := 0
  wild := false

/-- The second starter draws its ticket later, and pushes its task earlier. -/
def pairRun : List (Label (Fin 3) (Fin 2) Unit) :=
  [.construct 0, .construct 1, .start 0 0, .start 1 1, .starter 0 false, .starter 1 false, .starter 1 false,
    .starter 1 false, .starter 1 false, .starter 0 false, .starter 0 false, .starter 0 false]

theorem starts_balanced_wrap : ∃ x : State (Fin 3) (Fin 2) Unit × Tickets,
    (ticketed pairLayout fun _ => false).Reachable x ∧ x.2.drawn = [15, 0] ∧ x.2.pushed = [0, 15] ∧
      ∀ b c, x.2.pushed.count b ≤ x.2.pushed.count c + 1 := by
  obtain ⟨x, hx, hdrawn, hpushed, hfirst, hsecond⟩ : ∃ x : State (Fin 3) (Fin 2) Unit × Tickets,
      (ticketed pairLayout fun _ => false).run (pairStart, ⟨[], []⟩) pairRun = some x ∧
      x.2.drawn = [15, 0] ∧ x.2.pushed = [0, 15] ∧ (x.1.starter 0).bucket = none ∧
      (x.1.starter 1).bucket = none := ⟨_, rfl, rfl, rfl, rfl, rfl⟩
  have hinit : Init pairStart := by simp [Init, pairStart]
  have hreach : (ticketed pairLayout fun _ => false).Reachable x := Machine.Reachable.observed hinit hx
  exact ⟨x, hreach, hdrawn, hpushed, fun b c =>
    (starts_balanced hreach b c).2.2 (Fin.forall_fin_two.mpr ⟨hfirst, hsecond⟩)⟩

end Wrap

end IoUring.Exec.TaskMap
