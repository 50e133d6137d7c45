import IoUring.Coroutine.ContextOperation

/-!
# What `co_await` returns

`user_data.cqe` points into the CQ ring. When an operation is awaited after its CQE
was reaped, the slot may have been used again.
-/

namespace IoUring.Coroutine

variable {cfg : Config} {s s' : State} {l : Label} {a : Nat} {res : Int}

/-- `co_await` of an operation returns in the loop over the ring, or at once. -/
theorem Step.of_returned (hstep : Step cfg s l s') (hreturned : s'.returned = (a, res) :: s.returned) :
    (Reaping s ∧ (s.current cfg).data = some a ∧
      s'.returned = ((s.reaped cfg a).awaitResume a).returned) ∨
    a < s.next ∧ ((s.object a).userData.sqe = false ∨ (s.object a).userData.cqe ≠ none) ∧
      s'.returned = (s.awaitResume a).returned := by
  cases hstep with
  | @complete b hd hreap hres hdata halive hh hsuspended =>
      obtain ⟨d, res', heq⟩ := awaitResume_eq (s.reaped cfg b) b
      rw [heq] at hreturned
      obtain rfl : b = a := (Prod.mk.inj (List.cons.inj hreturned).1).1
      exact .inl ⟨hreap, hdata, rfl⟩
  | @ready b hb halive hfree hready =>
      obtain ⟨d, res', heq⟩ := awaitResume_eq { s with awaits := b :: s.awaits } b
      rw [heq] at hreturned
      obtain rfl : b = a := (Prod.mk.inj (List.cons.inj hreturned).1).1
      refine .inr ⟨hb, hready, ?_⟩
      simp only [State.awaitResume]
      split <;> rfl
  | construct hact hs' =>
      obtain ⟨sqes, o, hprep, -⟩ := constructStep_prepares (UserAct.prep_of_constructs hact) hs'
      rw [hprep.rest] at hreturned
      exact absurd hreturned.symm (List.cons_ne_self _ _)
  | link hs' =>
      obtain ⟨_, _, _, hprep, -⟩ := linkStep_prepares hs'
      rw [hprep.rest] at hreturned
      exact absurd hreturned.symm (List.cons_ne_self _ _)
  | _ => exact absurd hreturned.symm (List.cons_ne_self _ _)

/-- `co_await` of a plain operation, or of a chain, returns what is in the slot of
its CQE. -/
theorem returned_slot (hreach : (machine cfg).Reach (Spares a) s) (hstep : Step cfg s l s')
    (hreturned : s'.returned = (a, res) :: s.returned) (hplain : (s.object a).multishot = false)
    (hsqe : (s.object a).userData.sqe = true) : OperationOk cfg s a ∧ ∃ n c,
      s.posted[n]? = some c ∧ c.data = some a ∧ res = (s.ring.cqes (n % cfg.cqEntries)).res := by
  have haddress := reachable_address hreach
  have hring := reachable_ring hreach
  rcases hstep.of_returned hreturned with ⟨hreap, hdata, heq⟩ | ⟨ha, hready, heq⟩
  · have hcurrent := hring.current hreap
    have ha := haddress.lt_of_posted (List.mem_of_getElem? hcurrent) hdata
    rw [hreturned, awaitResume_plain (by simpa using hplain)] at heq
    obtain ⟨hhead, -⟩ := List.cons.inj heq
    have hres := (Prod.mk.inj hhead).2
    simp only [reaped_object, hsqe, if_true, Option.map_some, Option.getD_some] at hres
    exact ⟨haddress.operation ha hplain, _, _, hcurrent, hdata, hres⟩
  · have hop := haddress.operation ha hplain
    rw [hsqe] at hready
    obtain ⟨slot, hslot⟩ := Option.ne_none_iff_exists'.mp (hready.resolve_left (by decide))
    obtain ⟨n, c, -, hc, hdata, -, rfl⟩ := hop.cqe slot hslot
    rw [hreturned, awaitResume_plain hplain] at heq
    obtain ⟨hhead, -⟩ := List.cons.inj heq
    refine ⟨hop, n, c, hc, hdata, ?_⟩
    simpa [hsqe, hslot] using (Prod.mk.inj hhead).2

/-- Whenever `co_await` of an operation with an SQE returns, the operation has one
CQE, and its result is returned exactly when the CQE that was posted last into the
same slot has this result. No CQE of a cancellation carries the operation's address. -/
theorem awaited_result (hreach : (machine cfg).Reach (Spares a) s) (hstep : (machine cfg).step s l = some s')
    (hreturned : s'.returned = (a, res) :: s.returned) (hplain : (s.object a).multishot = false)
    (hsqe : (s.object a).userData.sqe = true) :
    (∃ c ∈ s.posted, c.data = some a) ∧
      ∀ (n : Nat) (c : Cqe), s.posted[n]? = some c → c.data = some a → (res = c.res ↔ ∃ c',
        s.posted[Slots.latest cfg.cqEntries s.posted.length n]? = some c' ∧ c'.res = c.res) := by
  obtain ⟨hop, n, c, hc, hdata, hres⟩ := returned_slot hreach (.of_step hstep) hreturned hplain hsqe
  refine ⟨⟨c, List.mem_of_getElem? hc, hdata⟩, fun m c' hc' hdata' => ?_⟩
  obtain rfl := hop.unique hc hc' hdata hdata'
  obtain ⟨hlt, -⟩ := List.getElem?_eq_some_iff.mp hc
  have hlatest := (reachable_ring hreach).slots.get_latest cfg.cqEntries_pos hlt
  simp [hlatest, hres]

/-- In particular, the result is the operation's own one as long as not more than a
ring of CQEs were posted from its CQE on. -/
theorem awaited_result_of_window (hreach : (machine cfg).Reach (Spares a) s)
    (hstep : (machine cfg).step s l = some s') (hreturned : s'.returned = (a, res) :: s.returned)
    (hplain : (s.object a).multishot = false) (hsqe : (s.object a).userData.sqe = true) {n : Nat}
    {c : Cqe} (hc : s.posted[n]? = some c) (hdata : c.data = some a)
    (hwindow : s.posted.length ≤ n + cfg.cqEntries) : res = c.res := by
  obtain ⟨hlt, -⟩ := List.getElem?_eq_some_iff.mp hc
  refine ((awaited_result hreach hstep hreturned hplain hsqe).2 n c hc hdata).mpr ⟨c, ?_, rfl⟩
  rw [Slots.latest_of_window hwindow hlt, hc]

section Result

/-- A coroutine creates two operations and awaits the second one. The CQE of the
first one is reaped before. -/
def eagerRun : List Label :=
  [.coSpawn, .runOnce false, .go, .user .asyncOperation, .user .asyncOperation, .user (.await 1), .go, .go,
    .finish 0 5 false false, .finish 1 7 false false, .go, .go]

theorem awaited_result_eager : ∃ s s', (machine smallConfig).Reach (Spares 0) s ∧
    (machine smallConfig).step s (.user (.await 0)) = some s' ∧
    s'.returned = (0, 5) :: s.returned ∧ ∃ c ∈ s.posted, c.data = some 0 := by
  have hrun : ∃ s s', ((machine smallConfig).restrict (Spares 0)).run .start eagerRun = some s ∧
      (machine smallConfig).step s (.user (.await 0)) = some s' ∧
      s'.returned = (0, 5) :: s.returned ∧ (s.object 0).multishot = false ∧
      (s.object 0).userData.sqe = true := ⟨_, _, rfl, rfl, rfl, rfl, rfl⟩
  obtain ⟨s, s', hs, hstep, hreturned, hplain, hsqe⟩ := hrun
  have hreach := Machine.Reach.restrict (.start init_start) hs
  exact ⟨s, s', hreach, hstep, hreturned, (awaited_result hreach hstep hreturned hplain hsqe).1⟩

/-- The smallest rings with two prepared entries. -/
def tinyConfig : Config where
  entries := 2
  cqEntries := 2
  cqEntries_pos := by decide

/-- The coroutine awaits a third operation in between. -/
def lateRun : List Label :=
  [.coSpawn, .runOnce false, .go, .user .asyncOperation, .user .asyncOperation, .user (.await 1), .go, .go,
    .finish 0 5 false false, .go, .go, .runOnce false, .go, .go, .finish 1 7 false false, .go,
    .user .asyncOperation, .user (.await 2), .go, .runOnce false, .go, .go, .finish 2 9 false false, .go]

/-- The slot of the first CQE was used again, and `co_await` returns the result of
the third operation. -/
theorem awaited_result_overwritten : ∃ s s', (machine tinyConfig).Reachable s ∧
    (machine tinyConfig).step s (.user (.await 0)) = some s' ∧
    s'.returned = (0, 9) :: s.returned ∧ (s.object 0).multishot = false ∧
    (s.object 0).userData.sqe = true ∧
    s.posted = [⟨some 0, 5, false⟩, ⟨some 1, 7, false⟩, ⟨some 2, 9, false⟩] := by
  have hrun : ∃ s s', (machine tinyConfig).run .start lateRun = some s ∧
      (machine tinyConfig).step s (.user (.await 0)) = some s' ∧
      s'.returned = (0, 9) :: s.returned ∧ (s.object 0).multishot = false ∧
      (s.object 0).userData.sqe = true ∧
      s.posted = [⟨some 0, 5, false⟩, ⟨some 1, 7, false⟩, ⟨some 2, 9, false⟩] :=
    ⟨_, _, rfl, rfl, rfl, rfl, rfl, rfl⟩
  obtain ⟨s, s', hs, hrest⟩ := hrun
  exact ⟨s, s', Machine.Reachable.of_run init_start hs, hrest⟩

end Result

end IoUring.Coroutine
