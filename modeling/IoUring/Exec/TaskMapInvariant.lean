import IoUring.Exec.TaskMap

/-!
# Every started task is in exactly one place

The invariant gives each address one owner: the starter that is about to push
it, the bucket whose chain holds it, or the runner that has drained it. Only
the owner of a node writes its `next` field, so the chains of all buckets and
runners stay disjoint, and a compare-exchange that succeeds on a reused address
still links the new node to the present top of the bucket.
-/

namespace IoUring.Exec.TaskMap

variable {α τ ρ : Type*} {L : Layout α ρ}

inductive Owner (τ ρ : Type*) where
  | nobody
  | starter (t : τ)
  | bucket (b : Bucket)
  | runner (r : ρ)

/-- The task a starter is about to publish. -/
def StarterPc.holds : StarterPc α → Option α
  | .idle => none
  | .fetchAdd op => some op
  | .push op _ _ => some op

/-- Before the compare-exchange the node already points to the expected top. -/
def StarterPc.Linked (next : α → Option α) : StarterPc α → Prop
  | .push op _ (.cas node) => next op = node
  | _ => True

/-- What the owner of an address says about the task that lives there. -/
def TaskOk (s : State α τ ρ) (n : Nat) : Owner τ ρ → Prop
  | .nobody => (s.phase n = .constructed ∧ s.completed n = 0) ∨
      (s.phase n = .started ∧ s.completed n = 1)
  | .starter _ => s.phase n = .starting ∧ s.completed n = 0
  | .bucket _ => s.phase n = .started ∧ s.completed n = 0
  | .runner _ => s.phase n = .started ∧ s.completed n = 0

structure Inv (L : Layout α ρ) (s : State α τ ρ) (own : α → Owner τ ρ)
    (content : Bucket → List α) (priv : ρ → List α) : Prop where
  bucket_chain : ∀ b, Chain s.heap.next (s.heap.head b) (content b)
  unvisited : ∀ r, Unvisited L s.heap.next r (priv r) (s.runner r)
  linked : ∀ t, (s.starter t).Linked s.heap.next
  mem_content : ∀ b a, a ∈ content b ↔ own a = .bucket b
  mem_priv : ∀ r a, a ∈ priv r ↔ own a = .runner r
  holds : ∀ t a, (s.starter t).holds = some a ↔ own a = .starter t
  owned : ∀ a, s.object a = none → own a = .nobody
  task : ∀ a n, s.object a = some n → TaskOk s n (own a)
  object_inj : ∀ a a' n, s.object a = some n → s.object a' = some n → a = a'
  object_lt : ∀ a n, s.object a = some n → n < s.created
  stack : ∀ a, L.onStack a = true → s.object a = none
  fresh : ∀ n, s.created ≤ n → s.phase n = .constructed ∧ s.completed n = 0
  started : ∀ n, s.phase n = .started → s.completed n = 0 → ∃ a, s.object a = some n
  completed_le : ∀ n, s.completed n ≤ 1
  unstarted : ∀ n, s.phase n ≠ .started → s.completed n = 0
  tame : s.wild = false

/-! ## The unvisited nodes of a runner -/

theorem Unvisited.congr {next next' : α → Option α} {r : ρ} {l : List α} {pc : RunnerPc α}
    (h : Unvisited L next r l pc) (heq : ∀ a ∈ l, next' a = next a) :
    Unvisited L next' r l pc := by
  cases pc with
  | idle => exact h
  | moveAll q pc => exact h
  | walk op => exact Path.congr h heq
  | call op rest =>
      obtain ⟨l', rfl, hop, hl⟩ := h
      exact ⟨l', rfl, hop, hl.congr fun b hb => heq b (by simp [hb])⟩
  | makeFifo node pc =>
      obtain ⟨hhead, hsen, hnd, hok⟩ := h
      refine ⟨hhead, hsen, hnd, ?_⟩
      cases pc with
      | link => exact Path.congr hok heq
      | loop prev cur =>
          obtain ⟨moved, rest, rfl, hprev, hcur⟩ := hok
          exact ⟨moved, rest, rfl, hprev.congr fun b hb => heq b (by simp_all),
            hcur.congr fun b hb => heq b (by simp_all)⟩
      | relink prev cur nxt =>
          obtain ⟨moved, rest, rfl, hprev, hnxt, hrest⟩ := hok
          exact ⟨moved, rest, rfl, hprev.congr fun b hb => heq b (by simp_all),
            by rw [heq cur (by simp), hnxt], hrest.congr fun b hb => heq b (by simp_all)⟩

/-- The program counter and the memory determine the unvisited nodes. -/
theorem Unvisited.unique {next : α → Option α} {r : ρ} {l l' : List α} {pc : RunnerPc α}
    (h : Unvisited L next r l pc) (h' : Unvisited L next r l' pc) : l = l' := by
  cases pc with
  | idle => exact Eq.trans h (Eq.symm h')
  | moveAll q pc => exact Eq.trans h (Eq.symm h')
  | walk op => exact chain_unique h h'
  | call op rest =>
      obtain ⟨k, rfl, -, hk⟩ := h
      obtain ⟨k', rfl, -, hk'⟩ := h'
      rw [chain_unique hk hk']
  | makeFifo node pc =>
      obtain ⟨hhead, hsen, -, hok⟩ := h
      obtain ⟨hhead', hsen', -, hok'⟩ := h'
      cases pc with
      | link =>
          simp only [FifoOk, hhead] at hok
          simp only [FifoOk, hhead'] at hok'
          exact chain_unique hok hok'
      | loop prev cur =>
          obtain ⟨moved, rest, rfl, hprev, hcur⟩ := hok
          obtain ⟨moved', rest', rfl, hprev', hcur'⟩ := hok'
          have hm := path_unique hprev hprev' (by simp_all) (by simp_all)
          rw [List.reverse_injective hm, chain_unique hcur hcur']
      | relink prev cur nxt =>
          obtain ⟨moved, rest, rfl, hprev, -, hrest⟩ := hok
          obtain ⟨moved', rest', rfl, hprev', -, hrest'⟩ := hok'
          have hm := path_unique hprev hprev' (by simp_all) (by simp_all)
          rw [List.reverse_injective hm, chain_unique hrest hrest']

/-! ## What the invariant says about one address -/

namespace Inv

variable {s : State α τ ρ} {own : α → Owner τ ρ} {content : Bucket → List α}
  {priv : ρ → List α}

theorem exists_object (hi : Inv L s own content priv) {a : α} (h : own a ≠ .nobody) :
    ∃ n, s.object a = some n := by
  cases ho : s.object a with
  | none => exact absurd (hi.owned a ho) h
  | some n => exact ⟨n, rfl⟩

/-- Different addresses hold different tasks. -/
theorem task_ne (hi : Inv L s own content priv) {a a' : α} {n n' : Nat} (ho : s.object a = some n)
    (hn : s.object a' = some n') (ha : a' ≠ a) : n' ≠ n := by
  rintro rfl
  exact ha (hi.object_inj _ _ _ hn ho)

/-- A task that lives has a number that was given out. -/
theorem fresh_ne (hi : Inv L s own content priv) {a : α} {n k : Nat} (ho : s.object a = some n)
    (hk : s.created ≤ k) : k ≠ n := by
  have hlt := hi.object_lt a n ho
  omega

theorem sentinel_unowned (hi : Inv L s own content priv) (r : ρ) :
    own (L.sentinel r) = .nobody :=
  hi.owned _ (hi.stack _ (L.sentinel_onStack r))

variable [DecidableEq α]

/-- A write to a node that no bucket and no runner owns leaves all chains alone. -/
theorem chains_setNext (hi : Inv L s own content priv) {a : α} {v : Option α}
    (hb : ∀ b, own a ≠ .bucket b) (hr : ∀ r, own a ≠ .runner r) :
    (∀ b, Chain (Function.update s.heap.next a v) (s.heap.head b) (content b)) ∧
      ∀ r, Unvisited L (Function.update s.heap.next a v) r (priv r) (s.runner r) := by
  constructor
  · intro b
    exact (hi.bucket_chain b).update fun ha => hb b ((hi.mem_content b a).mp ha)
  · intro r
    apply (hi.unvisited r).congr
    intro c hc
    have hca : c ≠ a := by
      rintro rfl
      exact hr r ((hi.mem_priv r c).mp hc)
    rw [Function.update_of_ne hca]

/-- Such a write does not disturb a starter that holds another node either. -/
theorem linked_setNext (hi : Inv L s own content priv) {a : α} {v : Option α} {t : τ}
    (ha : own a ≠ .starter t) : (s.starter t).Linked (Function.update s.heap.next a v) := by
  have hl := hi.linked t
  have hh := hi.holds t
  cases hpc : s.starter t with
  | idle => trivial
  | fetchAdd op => trivial
  | push op q pc =>
      cases pc with
      | load => trivial
      | write node => trivial
      | cas node =>
          have hop : op ≠ a := by
            rintro rfl
            exact ha ((hh op).mp (by simp [hpc, StarterPc.holds]))
          simp only [hpc, StarterPc.Linked] at hl ⊢
          rw [Function.update_of_ne hop, hl]

/-! ## Steps of the users of the executor -/

theorem construct (hi : Inv L s own content priv) {a : α} (ho : s.object a = none)
    (hs : L.onStack a = false) :
    Inv L { s with
      heap := s.heap.setNext a none
      object := Function.update s.object a (some s.created)
      created := s.created + 1 } own content priv := by
  have hown := hi.owned a ho
  obtain ⟨hb, hr⟩ := hi.chains_setNext (a := a) (v := none) (by simp [hown]) (by simp [hown])
  have hfresh := hi.fresh s.created (Nat.le_refl _)
  exact { hi with
    bucket_chain := hb
    unvisited := hr
    linked := fun t => hi.linked_setNext (by simp [hown])
    owned := by grind [hi.owned]
    task := by
      intro a' n hn
      by_cases ha : a' = a
      · subst ha
        obtain rfl : s.created = n := by simpa using hn
        rw [hown]
        exact Or.inl hfresh
      · exact hi.task a' n (by simpa [ha] using hn)
    object_inj := by
      intro a₁ a₂ n h₁ h₂
      have := hi.object_inj a₁ a₂ n
      have := hi.object_lt a₁ n
      have := hi.object_lt a₂ n
      grind
    object_lt := by
      intro a' n hn
      have := hi.object_lt a' n
      grind
    stack := by grind [hi.stack]
    fresh := by grind [hi.fresh]
    started := by
      intro n hn hc
      obtain ⟨a', ha'⟩ := hi.started n hn hc
      have hne : a' ≠ a := by rintro rfl; simp [ho] at ha'
      exact ⟨a', by simpa [hne] using ha'⟩ }

theorem destroy (hi : Inv L s own content priv) {a : α} {n : Nat} (ho : s.object a = some n)
    (hd : s.phase n = .constructed ∨ s.completed n ≠ 0) :
    Inv L { s with object := Function.update s.object a none } own content priv := by
  have htask := hi.task a n ho
  have hown : own a = .nobody := by
    cases h : own a with
    | nobody => rfl
    | starter t => simp_all [TaskOk]
    | bucket b => simp_all [TaskOk]
    | runner r => simp_all [TaskOk]
  exact { hi with
    owned := by grind [hi.owned]
    task := by
      intro a' n' hn
      have hne : a' ≠ a := by rintro rfl; simp at hn
      exact hi.task a' n' (by simpa [hne] using hn)
    object_inj := by
      intro a₁ a₂ k h₁ h₂
      have := hi.object_inj a₁ a₂ k
      grind
    object_lt := by
      intro a' k hk
      have := hi.object_lt a' k
      grind
    stack := by grind [hi.stack]
    started := by
      intro k hk hc
      obtain ⟨a', ha'⟩ := hi.started k hk hc
      refine ⟨a', ?_⟩
      have hne : a' ≠ a := by
        rintro rfl
        obtain rfl : n = k := by simpa [ho] using ha'
        rcases hd with hd | hd
        · simp [hd] at hk
        · exact hd hc
      simpa [hne] using ha' }

theorem scribble (hi : Inv L s own content priv) {a : α} {v : Option α}
    (ho : s.object a = none) : Inv L { s with heap := s.heap.setNext a v } own content priv := by
  have hown := hi.owned a ho
  obtain ⟨hb, hr⟩ := hi.chains_setNext (a := a) (v := v) (by simp [hown]) (by simp [hown])
  exact { hi with
    bucket_chain := hb
    unvisited := hr
    linked := fun t => hi.linked_setNext (by simp [hown]) }

/-! ## Steps of a starter -/

variable [DecidableEq τ]

omit [DecidableEq α] in
/-- A starter moves on without touching memory. -/
theorem starter_pc (hi : Inv L s own content priv) {t : τ} {pc : StarterPc α}
    (hh : pc.holds = (s.starter t).holds) (hl : pc.Linked s.heap.next) (k : Nat) :
    Inv L { s with storeBalance := k, starter := Function.update s.starter t pc }
      own content priv := by
  exact { hi with
    linked := by
      intro t'
      by_cases ht : t' = t
      · subst ht; simpa using hl
      · simpa [ht] using hi.linked t'
    holds := by
      intro t' a
      by_cases ht : t' = t
      · subst ht; simpa [hh] using hi.holds t' a
      · simpa [ht] using hi.holds t' a }

theorem start (hi : Inv L s own content priv) {t : τ} {a : α} {n : Nat}
    (ht : s.starter t = .idle) (ho : s.object a = some n) (hp : s.phase n = .constructed) :
    Inv L { s with
      starter := Function.update s.starter t (.fetchAdd a)
      phase := Function.update s.phase n .starting }
      (Function.update own a (.starter t)) content priv := by
  have htask := hi.task a n ho
  have hown : own a = .nobody := by
    cases h : own a with
    | nobody => rfl
    | starter t => simp_all [TaskOk]
    | bucket b => simp_all [TaskOk]
    | runner r => simp_all [TaskOk]
  have hc : s.completed n = 0 := hi.unstarted n (by simp [hp])
  exact { hi with
    linked := by
      intro t'
      by_cases h : t' = t
      · subst h; simp [StarterPc.Linked]
      · simpa [h] using hi.linked t'
    mem_content := by grind [hi.mem_content]
    mem_priv := by grind [hi.mem_priv]
    holds := by
      intro t' a'
      have hh := hi.holds t' a'
      have hh' := hi.holds t a'
      grind [StarterPc.holds]
    owned := by grind [hi.owned]
    task := by
      intro a' n' hn
      by_cases ha : a' = a
      · subst ha
        obtain rfl : n = n' := by simpa [ho] using hn
        simp [TaskOk, hc]
      · have hne := hi.task_ne ho hn ha
        have := hi.task a' n' hn
        cases h : own a' <;> simp_all [TaskOk]
    fresh := by
      intro k hk
      have hne := hi.fresh_ne ho hk
      simpa [hne] using hi.fresh k hk
    started := by grind [hi.started]
    unstarted := by grind [hi.unstarted] }

/-- `op->*Next = node`: only the starter looks at the field. -/
theorem push_write (hi : Inv L s own content priv) {t : τ} {op : α} {q : Bucket}
    {node : Option α} (ht : s.starter t = .push op q (.write node)) :
    Inv L { s with
      heap := s.heap.setNext op node
      starter := Function.update s.starter t (.push op q (.cas node)) } own content priv := by
  have hown : own op = .starter t := (hi.holds t op).mp (by simp [ht, StarterPc.holds])
  obtain ⟨hb, hr⟩ := hi.chains_setNext (a := op) (v := node) (by simp [hown]) (by simp [hown])
  exact { hi with
    bucket_chain := hb
    unvisited := hr
    linked := by
      intro t'
      by_cases h : t' = t
      · subst h; simp [StarterPc.Linked]
      · simp only [h, ne_eq, not_false_eq_true, Function.update_of_ne, Heap.setNext_next]
        exact hi.linked_setNext (by simpa [hown] using Ne.symm h)
    holds := by
      intro t' a
      have := hi.holds t' a
      have := hi.holds t a
      grind [StarterPc.holds] }

/-- A successful compare-exchange of `push`: the node becomes the top of the
bucket, whatever happened to the old top since it was loaded. -/
theorem push_cas (hi : Inv L s own content priv) {t : τ} {op : α} {q : Bucket}
    {node : Option α} {n : Nat} (ht : s.starter t = .push op q (.cas node))
    (hq : s.heap.head q = node) (ho : s.object op = some n) :
    Inv L { s with
      heap := s.heap.setHead q (some op)
      starter := Function.update s.starter t .idle
      phase := Function.update s.phase n .started }
      (Function.update own op (.bucket q)) (Function.update content q (op :: content q)) priv := by
  have hown : own op = .starter t := (hi.holds t op).mp (by simp [ht, StarterPc.holds])
  have hlink : s.heap.next op = node := by simpa [ht, StarterPc.Linked] using hi.linked t
  have hstarting : s.phase n = .starting ∧ s.completed n = 0 := by
    simpa [hown, TaskOk] using hi.task op n ho
  exact { hi with
    bucket_chain := by
      intro b
      by_cases hb : b = q
      · subst hb
        simpa [hlink, ← hq] using hi.bucket_chain b
      · simpa [hb] using hi.bucket_chain b
    linked := by
      intro t'
      by_cases h : t' = t
      · subst h; simp [StarterPc.Linked]
      · simpa [h] using hi.linked t'
    mem_content := by
      intro b a
      have := hi.mem_content b a
      grind
    mem_priv := by grind [hi.mem_priv]
    holds := by
      intro t' a
      have := hi.holds t' a
      have := hi.holds t a
      grind [StarterPc.holds]
    owned := by grind [hi.owned]
    task := by
      intro a' n' hn
      by_cases ha : a' = op
      · subst ha
        obtain rfl : n = n' := by simpa [ho] using hn
        simp [TaskOk, hstarting]
      · have hne := hi.task_ne ho hn ha
        have := hi.task a' n' hn
        cases h : own a' <;> simp_all [TaskOk]
    fresh := by
      intro k hk
      have hne := hi.fresh_ne ho hk
      simpa [hne] using hi.fresh k hk
    started := by grind [hi.started]
    unstarted := by grind [hi.unstarted] }

/-! ## Steps of a runner -/

variable [DecidableEq ρ]

omit [DecidableEq α] [DecidableEq τ] in
/-- A runner moves on, writing at most nodes that it owns or its own sentinel;
the nodes it has not visited stay the same up to their order. -/
theorem runner_pc (hi : Inv L s own content priv) {r : ρ} {pc : RunnerPc α}
    {h : Heap α Bucket} {l : List α} (hhead : h.head = s.heap.head)
    (hframe : ∀ a, a ∉ priv r → a ≠ L.sentinel r → h.next a = s.heap.next a)
    (hmem : ∀ a, a ∈ l ↔ a ∈ priv r) (hpc : Unvisited L h.next r l pc) :
    Inv L { s with heap := h, runner := Function.update s.runner r pc }
      own content (Function.update priv r l) := by
  have hown (a : α) (ha : own a ≠ .nobody) (har : own a ≠ .runner r) :
      h.next a = s.heap.next a := by
    apply hframe a fun hp => har ((hi.mem_priv r a).mp hp)
    rintro rfl
    exact ha (hi.sentinel_unowned r)
  exact { hi with
    bucket_chain := by
      intro b
      simp only [hhead]
      exact (hi.bucket_chain b).congr fun a ha => by
        have := (hi.mem_content b a).mp ha
        exact hown a (by simp [this]) (by simp [this])
    unvisited := by
      intro r'
      by_cases hr : r' = r
      · subst hr; simpa using hpc
      · simp only [ne_eq, hr, not_false_eq_true, Function.update_of_ne]
        exact (hi.unvisited r').congr fun a ha => by
          have := (hi.mem_priv r' a).mp ha
          exact hown a (by simp [this]) (by simpa [this] using hr)
    linked := by
      intro t
      have hl := hi.linked t
      have hh := hi.holds t
      cases hst : s.starter t with
      | idle => trivial
      | fetchAdd op => trivial
      | push op q pc =>
          cases pc with
          | load => trivial
          | write node => trivial
          | cas node =>
              have := (hh op).mp (by simp [hst, StarterPc.holds])
              simp only [hst, StarterPc.Linked] at hl ⊢
              rw [hown op (by simp [this]) (by simp [this]), hl]
    mem_priv := by
      intro r' a
      by_cases hr : r' = r
      · subst hr; simpa [hmem] using hi.mem_priv r' a
      · simpa [hr] using hi.mem_priv r' a }

omit [DecidableEq α] [DecidableEq τ] in
theorem launch (hi : Inv L s own content priv) {r : ρ} {pc : RunnerPc α}
    (hr : priv r = []) (hpc : Unvisited L s.heap.next r [] pc) :
    Inv L { s with runner := Function.update s.runner r pc } own content priv := by
  have h := hi.runner_pc (r := r) (h := s.heap) (l := priv r) rfl
    (fun _ _ _ => rfl) (fun _ => Iff.rfl) (hr ▸ hpc)
  simpa using h

omit [DecidableEq τ] in
/-- A successful compare-exchange of `move_all` hands the whole chain of the
bucket to the runner. -/
theorem moveAll_cas (hi : Inv L s own content priv) {r : ρ} {q : Bucket} {pc : RunnerPc α}
    (hr : priv r = []) (hpc : Unvisited L s.heap.next r (content q) pc) :
    Inv L { s with
      heap := s.heap.setHead q none
      runner := Function.update s.runner r pc }
      (fun a => if a ∈ content q then .runner r else own a)
      (Function.update content q []) (Function.update priv r (content q)) := by
  have hcontent (a : α) (ha : a ∈ content q) : own a = .bucket q := (hi.mem_content q a).mp ha
  exact { hi with
    bucket_chain := by
      intro b
      by_cases hb : b = q
      · subst hb; simp
      · simpa [hb] using hi.bucket_chain b
    unvisited := by
      intro r'
      by_cases h : r' = r
      · subst h; simpa using hpc
      · simpa [h] using hi.unvisited r'
    mem_content := by
      intro b a
      have := hi.mem_content b a
      have := hi.mem_content q a
      grind
    mem_priv := by
      intro r' a
      have := hi.mem_priv r' a
      have := hi.mem_priv r a
      have := hi.mem_content q a
      grind
    holds := by
      intro t a
      have := hi.holds t a
      have := hi.mem_content q a
      grind
    owned := by
      intro a ha
      have := hi.owned a ha
      have := hi.mem_content q a
      grind
    task := by
      intro a n hn
      have htask := hi.task a n hn
      by_cases ha : a ∈ content q
      · simpa [ha, hcontent a ha, TaskOk] using htask
      · cases h : own a <;> simp_all [TaskOk] }

omit [DecidableEq τ] in
/-- `complete` ends the visit of a node, and with it the runner's ownership. -/
theorem complete (hi : Inv L s own content priv) {r : ρ} {op : α} {rest : Option α} {n : Nat}
    (hr : s.runner r = .call op rest) (ho : s.object op = some n) :
    ∃ l', priv r = op :: l' ∧ Inv L { s with
      completed := Function.update s.completed n (s.completed n + 1)
      runner := Function.update s.runner r (.walk rest) }
      (Function.update own op .nobody) content (Function.update priv r l') := by
  have hu := hi.unvisited r
  rw [hr] at hu
  obtain ⟨l', hpriv, hop, hl'⟩ := hu
  have hown : own op = .runner r := (hi.mem_priv r op).mp (by simp [hpriv])
  have hqueued : s.phase n = .started ∧ s.completed n = 0 := by
    simpa [hown, TaskOk] using hi.task op n ho
  refine ⟨l', hpriv, { hi with
    unvisited := ?_, mem_content := ?_, mem_priv := ?_, holds := ?_, owned := ?_, task := ?_,
    fresh := ?_, started := ?_, completed_le := ?_, unstarted := ?_ }⟩
  · intro r'
    by_cases h : r' = r
    · subst h
      simpa [Unvisited] using hl'
    · simpa [h] using hi.unvisited r'
  · intro b a
    have := hi.mem_content b a
    grind
  · intro r' a
    have := hi.mem_priv r' a
    have := hi.mem_priv r a
    grind
  · intro t a
    have := hi.holds t a
    grind
  · grind [hi.owned]
  · intro a' n' hn
    by_cases ha : a' = op
    · subst ha
      obtain rfl : n = n' := by simpa [ho] using hn
      simp [TaskOk, hqueued]
    · have hne := hi.task_ne ho hn ha
      have := hi.task a' n' hn
      cases h : own a' <;> simp_all [TaskOk]
  · intro k hk
    have hne := hi.fresh_ne ho hk
    simpa [hne] using hi.fresh k hk
  · grind [hi.started]
  · intro k
    have := hi.completed_le k
    grind
  · grind [hi.unstarted]

end Inv

end IoUring.Exec.TaskMap
