import IoUring.Exec.TaskMapInvariant

/-!
# The partition of the started tasks

One lemma for the steps of a starter, one for those of a runner, and from them
the invariant of every run. The main result reads the partition off the
invariant.
-/

namespace IoUring.Exec.TaskMap

variable {α τ ρ : Type*} {L : Layout α ρ} {locality : ρ → Bool} {s s' : State α τ ρ}

/-- The invariant, for some owners and the lists they own. -/
def Owned (L : Layout α ρ) (s : State α τ ρ) : Prop :=
  ∃ own content priv, Inv L s own content priv

theorem init_owned (h : Init s) : Owned L s := by
  obtain ⟨hhead, hst, hru, hob, hcr, hph, hco, hwi⟩ := h
  refine ⟨fun _ => .nobody, fun _ => [], fun _ => [], ?_⟩
  constructor <;> simp_all [Unvisited, StarterPc.Linked, StarterPc.holds]

namespace Inv

variable {own : α → Owner τ ρ} {content : Bucket → List α} {priv : ρ → List α} {n : Nat}

theorem at_bucket_iff (hi : Inv L s own content priv) {b : Bucket} :
    At L s n (.bucket b) ↔ ∃ a, s.object a = some n ∧ own a = .bucket b := by
  constructor
  · rintro ⟨a, l, ho, hl, ha⟩
    rw [chain_unique hl (hi.bucket_chain b)] at ha
    exact ⟨a, ho, (hi.mem_content b a).mp ha⟩
  · rintro ⟨a, ho, ha⟩
    exact ⟨a, content b, ho, hi.bucket_chain b, (hi.mem_content b a).mpr ha⟩

theorem at_runner_iff (hi : Inv L s own content priv) {r : ρ} :
    At L s n (.runner r) ↔ ∃ a, s.object a = some n ∧ own a = .runner r := by
  constructor
  · rintro ⟨a, l, ho, hl, ha⟩
    rw [hl.unique (hi.unvisited r)] at ha
    exact ⟨a, ho, (hi.mem_priv r a).mp ha⟩
  · rintro ⟨a, ho, ha⟩
    exact ⟨a, priv r, ho, hi.unvisited r, (hi.mem_priv r a).mpr ha⟩

/-- A started task that is not completed lives at an address whose owner is the
only place it is at. -/
theorem pending_place (hi : Inv L s own content priv) (hp : s.phase n = .started)
    (hc : s.completed n = 0) :
    ∃ a, s.object a = some n ∧ ((∃ b, own a = .bucket b) ∨ ∃ r, own a = .runner r) := by
  obtain ⟨a, ho⟩ := hi.started n hp hc
  have htask := hi.task a n ho
  refine ⟨a, ho, ?_⟩
  cases h : own a with
  | nobody => simp [h, TaskOk, hp, hc] at htask
  | starter t => simp [h, TaskOk, hp] at htask
  | bucket b => exact Or.inl ⟨b, rfl⟩
  | runner r => exact Or.inr ⟨r, rfl⟩

/-- A completed task is nowhere else: its address, if it still has one, has no
owner. -/
theorem done_unowned (hi : Inv L s own content priv) {a : α} (ho : s.object a = some n)
    (hc : s.completed n = 1) : own a = .nobody := by
  have htask := hi.task a n ho
  cases h : own a <;> simp_all [TaskOk]

theorem place_unique (hi : Inv L s own content priv) {p p' : Place ρ} (h : At L s n p)
    (h' : At L s n p') : p = p' := by
  have hdone {a : α} (ho : s.object a = some n) (hd : At L s n .done) : own a = .nobody :=
    hi.done_unowned ho hd
  have hinj (a a' : α) := hi.object_inj a a' n
  have hb (b : Bucket) := hi.at_bucket_iff (n := n) (b := b)
  have hr (r : ρ) := hi.at_runner_iff (n := n) (r := r)
  cases p <;> cases p' <;> grind

end Inv

variable [DecidableEq α] [DecidableEq τ] [DecidableEq ρ]

omit [DecidableEq ρ] in
theorem starterStep_owned {t : τ} {spurious : Bool} (hi : Owned L s)
    (hs : starterStep s t spurious = some s') : Owned L s' := by
  obtain ⟨own, content, priv, hi⟩ := hi
  unfold starterStep at hs
  cases hst : s.starter t with
  | idle => simp [hst] at hs
  | fetchAdd op =>
      simp only [hst, Option.some.injEq] at hs
      subst hs
      exact ⟨own, content, priv, hi.starter_pc (by simp [hst, StarterPc.holds]) (by trivial) _⟩
  | push op q pc =>
      simp only [hst] at hs
      have hholds (pc' : PushPc α) :
          (StarterPc.push op q pc').holds = (s.starter t).holds := by
        simp [hst, StarterPc.holds]
      cases pc with
      | load =>
          simp only [pushStep, Option.some.injEq] at hs
          subst hs
          exact ⟨own, content, priv, hi.starter_pc (hholds _) (by trivial) s.storeBalance⟩
      | write node =>
          simp only [pushStep, Option.some.injEq] at hs
          subst hs
          exact ⟨own, content, priv, hi.push_write hst⟩
      | cas node =>
          have hop : own op = .starter t := (hi.holds t op).mp (by simp [hst, StarterPc.holds])
          obtain ⟨n, hn⟩ := hi.exists_object (a := op) (by simp [hop])
          by_cases hcas : s.heap.head q = node ∧ spurious = false
          · simp only [pushStep, hcas, and_self, if_true, hn, Option.some.injEq] at hs
            subst hs
            exact ⟨_, _, priv, hi.push_cas hst hcas.1 hn⟩
          · simp only [pushStep, hcas, if_false, Option.some.injEq] at hs
            subst hs
            exact ⟨own, content, priv, hi.starter_pc (hholds _) (by trivial) s.storeBalance⟩

omit [DecidableEq τ] in
theorem runnerStep_owned {r : ρ} {spurious : Bool} (hi : Owned L s)
    (hs : runnerStep L locality s r spurious = some s') : Owned L s' := by
  obtain ⟨own, content, priv, hi⟩ := hi
  have hu := hi.unvisited r
  unfold runnerStep at hs
  cases hru : s.runner r with
  | idle => simp [hru] at hs
  | moveAll q pc =>
      rw [hru] at hu
      have hpriv : priv r = [] := hu
      simp only [hru] at hs
      cases pc with
      | load =>
          simp only [moveAllStep, Option.some.injEq] at hs
          subst hs
          exact ⟨own, content, priv, hi.launch hpriv rfl⟩
      | cas node =>
          by_cases hcas : s.heap.head q = node ∧ spurious = false
          · simp only [moveAllStep, hcas, and_self, if_true] at hs
            have hchain := hi.bucket_chain q
            rw [hcas.1] at hchain
            cases node with
            | none =>
                simp only [Option.some.injEq] at hs
                subst hs
                have hempty : content q = [] := chain_none.mp hchain
                exact ⟨_, _, _, hi.moveAll_cas (q := q) hpriv hempty⟩
            | some node =>
                simp only [Option.some.injEq] at hs
                subst hs
                refine ⟨_, _, _, hi.moveAll_cas (q := q) hpriv ?_⟩
                obtain ⟨l, hl, -⟩ := chain_some.mp hchain
                have hsen : L.sentinel r ∉ content q := by
                  intro h
                  have := (hi.mem_content q _).mp h
                  simp [hi.sentinel_unowned r] at this
                split
                · exact hchain
                · refine ⟨by simp [hl], hsen, chain_nodup hchain, ?_⟩
                  simpa [FifoOk, hl] using hchain
          · simp only [moveAllStep, hcas, if_false, Option.some.injEq] at hs
            subst hs
            exact ⟨own, content, priv, hi.launch hpriv rfl⟩
  | makeFifo node pc =>
      rw [hru] at hu
      obtain ⟨hhead, hsen, hnd, hok⟩ := hu
      have hnode : node ∈ priv r := List.mem_of_mem_head? (by simp [hhead])
      simp only [hru] at hs
      cases hf : makeFifoStep s.heap (L.sentinel r) node pc with
      | mk h res =>
          obtain ⟨hh, hframe⟩ := makeFifoStep_frame hnode hok hf
          rw [hf] at hs
          cases res with
          | running pc' =>
              simp only [Option.some.injEq] at hs
              subst hs
              exact ⟨own, content, _, hi.runner_pc hh hframe (fun _ => Iff.rfl)
                ⟨hhead, hsen, hnd, makeFifoStep_running hnd hsen hhead hok hf⟩⟩
          | returned op =>
              simp only [Option.some.injEq] at hs
              subst hs
              exact ⟨own, content, _, hi.runner_pc (l := (priv r).reverse) hh hframe
                (fun _ => List.mem_reverse) (makeFifoStep_returned hnd hhead hok hf)⟩
  | walk op =>
      rw [hru] at hu
      simp only [hru] at hs
      cases op with
      | none =>
          simp only [Option.some.injEq] at hs
          subst hs
          exact ⟨own, content, priv, hi.launch (chain_none.mp hu) rfl⟩
      | some op =>
          simp only [Option.some.injEq] at hs
          subst hs
          obtain ⟨l', hl, hrest⟩ := chain_some.mp hu
          have hnd : op ∉ l' := by
            have := chain_nodup hu
            rw [hl] at this
            exact (List.nodup_cons.mp this).1
          exact ⟨own, content, _, hi.runner_pc (h := s.heap) rfl (fun _ _ _ => rfl)
            (fun _ => Iff.rfl) ⟨l', hl, hnd, hrest⟩⟩
  | call op rest =>
      rw [hru] at hu
      obtain ⟨l', hl, -, -⟩ := hu
      have hop : own op = .runner r := (hi.mem_priv r op).mp (by simp [hl])
      obtain ⟨n, hn⟩ := hi.exists_object (a := op) (by simp [hop])
      simp only [hru, hn, Option.some.injEq] at hs
      subst hs
      obtain ⟨l', -, hi'⟩ := hi.complete hru hn
      exact ⟨_, content, _, hi'⟩

/-- Every step keeps the owners apart. -/
theorem step_owned {a : Label α τ ρ} (hi : Owned L s) (hs : step L locality s a = some s') :
    Owned L s' := by
  cases a with
  | starter t spurious => exact starterStep_owned hi hs
  | runner r spurious => exact runnerStep_owned hi hs
  | construct a =>
      obtain ⟨own, content, priv, hi⟩ := hi
      simp only [step] at hs
      split at hs
      · next h =>
          obtain rfl := Option.some.inj hs
          exact ⟨own, content, priv, hi.construct h.1 h.2⟩
      · cases hs
  | destroy a =>
      obtain ⟨own, content, priv, hi⟩ := hi
      simp only [step] at hs
      split at hs
      · next n ho =>
          split at hs
          · next hd =>
              obtain rfl := Option.some.inj hs
              exact ⟨own, content, priv, hi.destroy ho hd⟩
          · cases hs
      · cases hs
  | scribble a v =>
      obtain ⟨own, content, priv, hi⟩ := hi
      simp only [step] at hs
      split at hs
      · next h =>
          obtain rfl := Option.some.inj hs
          exact ⟨own, content, priv, hi.scribble h.1⟩
      · cases hs
  | start t a =>
      obtain ⟨own, content, priv, hi⟩ := hi
      simp only [step] at hs
      split at hs
      · next n ht ho =>
          split at hs
          · next hp =>
              obtain rfl := Option.some.inj hs
              exact ⟨_, content, priv, hi.start ht ho hp⟩
          · cases hs
      · cases hs
  | launchRobin r =>
      obtain ⟨own, content, priv, hi⟩ := hi
      simp only [step] at hs
      split at hs
      · next hr =>
          obtain rfl := Option.some.inj hs
          have hu := hi.unvisited r
          rw [hr] at hu
          exact ⟨own, content, priv, hi.launch hu rfl⟩
      · cases hs
  | launchRandom r b =>
      obtain ⟨own, content, priv, hi⟩ := hi
      simp only [step] at hs
      split at hs
      · next hr =>
          obtain rfl := Option.some.inj hs
          have hu := hi.unvisited r
          rw [hr] at hu
          exact ⟨own, content, priv, hi.launch hu rfl⟩
      · cases hs
  | tick =>
      obtain ⟨own, content, priv, hi⟩ := hi
      obtain rfl := Option.some.inj hs
      exact ⟨own, content, priv, { hi with }⟩

theorem reachable_owned (h : (machine L locality).Reachable s) : Owned L s :=
  h.invariant (Owned L) (fun _ => init_owned) fun _ _ _ _ hi _ hs => step_owned hi hs

/-- In every run, with any number of starters and runners, each started task is
at exactly one place: the chain of one bucket, the unvisited nodes of one
runner, or completed exactly once. -/
theorem started_exactly_one_place (h : (machine L locality).Reachable s) (n : Nat)
    (hn : s.phase n = .started) : ∃! p, At L s n p := by
  obtain ⟨own, content, priv, hi⟩ := reachable_owned h
  suffices hex : ∃ p, At L s n p by
    obtain ⟨p, hp⟩ := hex
    exact ⟨p, hp, fun p' hp' => hi.place_unique hp' hp⟩
  by_cases hc : s.completed n = 0
  · obtain ⟨a, ho, ⟨b, hb⟩ | ⟨r, hr⟩⟩ := hi.pending_place hn hc
    · exact ⟨.bucket b, hi.at_bucket_iff.mpr ⟨a, ho, hb⟩⟩
    · exact ⟨.runner r, hi.at_runner_iff.mpr ⟨a, ho, hr⟩⟩
  · have := hi.completed_le n
    exact ⟨.done, by simp only [At]; omega⟩

/-- No runner ever calls `complete` through an address at which no task lives. -/
theorem reachable_tame (h : (machine L locality).Reachable s) : s.wild = false := by
  obtain ⟨_, _, _, hi⟩ := reachable_owned h
  exact hi.tame

section Reuse

/-- Address 0 holds tasks, address 1 is the sentinel of the only runner. -/
def reuseLayout : Layout (Fin 2) Unit where
  onStack a := a = 1
  sentinel _ := 1
  sentinel_onStack _ := rfl

def reuseStart : State (Fin 2) Unit Unit where
  heap := ⟨fun _ => none, fun _ => none⟩
  storeBalance := 0
  walltimeStep := 0
  starter _ := .idle
  runner _ := .idle
  object _ := none
  created := 0
  phase _ := .constructed
  completed _ := 0
  wild := false

/-- Task 0 is pushed, drained and completed; before the runner takes its next
step the address is reused for task 1, which is pushed in turn. -/
def reuseRun : List (Label (Fin 2) Unit Unit) :=
  [.construct 0, .start () 0, .starter () false, .starter () false, .starter () false,
    .starter () true, .starter () false, .starter () false,
    .launchRobin (), .runner () false, .runner () false, .runner () false, .runner () false,
    .runner () false, .runner () false, .runner () false, .runner () false,
    .destroy 0, .construct 0, .start () 0, .starter () false, .starter () false,
    .starter () false, .starter () false]

def reuseState : State (Fin 2) Unit Unit :=
  ((machine reuseLayout fun _ => false).run reuseStart reuseRun).getD reuseStart

theorem started_exactly_one_place_reuse :
    reuseState.completed 0 = 1 ∧ reuseState.object 0 = some 1 ∧
      (∃! p, At reuseLayout reuseState 0 p) ∧ ∃! p, At reuseLayout reuseState 1 p := by
  have hinit : Init reuseStart := by simp [Init, reuseStart]
  have hrun : (machine reuseLayout fun _ => false).run reuseStart reuseRun = some reuseState :=
    rfl
  have hreach := Machine.Reachable.of_run hinit hrun
  exact ⟨rfl, rfl, started_exactly_one_place hreach 0 rfl, started_exactly_one_place hreach 1 rfl⟩

end Reuse

end IoUring.Exec.TaskMap
