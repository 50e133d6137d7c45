import IoUring.Coroutine.ContextOperation

/-!
# Destruction of a multishot operation

The destructor runs in the loop over the ring, and CQEs of the operation may be in
the ring or still to come. The loop writes through the address in every CQE
without `-ECANCELED`, which may also be the address in the CQE of the cancellation.
-/

namespace IoUring.Coroutine

variable {cfg : Config} {s s' : State} {l : Label} {a : Nat}

/-- The loop does not use the address, or the operation is alive. -/
def State.harmless (s : State) (c : Cqe) : Prop :=
  c.res = -ECANCELED ∨ (c.data.map fun a => (s.object a).alive) ≠ some false

instance (s : State) (c : Cqe) : Decidable (s.harmless c) :=
  inferInstanceAs (Decidable (_ ∨ _))

/-- The operation that is destroyed. -/
def Label.drops : Label → Option Nat
  | .user (.dropOperation a) => some a
  | .user (.dropMultishot a _) => some a
  | _ => none

/-- When an operation is destroyed, the CQEs in the ring that carry its address are
cancelled ones, and from then on the kernel posts no others that do. The CQE of a
cancellation carries the address that was left in its entry. -/
def NoStale (s : State) (l : Label) : Prop :=
  (∀ c ∈ s.nextCqe l, s.harmless c) ∧
    ∀ a ∈ l.drops, ∀ c ∈ s.posted.drop s.seen, c.data = some a → c.res = -ECANCELED

instance (s : State) (l : Label) : Decidable (NoStale s l) :=
  inferInstanceAs (Decidable (_ ∧ _))

theorem Prepares.alive {sqes : List (Sqe Request)} {o : Awaitable} (hprep : Prepares s s' sqes o)
    (halive : (s.object a).alive = true) : (s'.object a).alive = true := by
  rw [hprep.object]
  split
  · rw [hprep.fresh]
  · exact halive

/-- Only a destructor ends the life of an operation. -/
theorem Step.alive (hstep : Step cfg s l s') (halive : (s.object a).alive = true) :
    (s'.object a).alive = true ∨ a ∈ l.drops := by
  have hset : ∀ (s : State) (b : Nat) (d : AsyncUserData), (s.object a).alive = true →
      ((s.setUserData b d).object a).alive = true := by
    intro s b d h
    simp only [State.setUserData, State.setObject, Function.update_apply]
    split
    · next hab => exact hab ▸ h
    · exact h
  have hresume : ∀ (s : State) (b : Nat), (s.object a).alive = true →
      ((s.awaitResume b).object a).alive = true := by
    intro s b h
    obtain ⟨d, res, heq⟩ := awaitResume_eq s b
    rw [heq]
    exact hset s b d h
  have hdrop : ∀ (s : State) (b : Nat), a ≠ b → (s.object a).alive = true →
      ((dropOperation s b).object a).alive = true := by
    intro s b hab h
    simpa [dropOperation, State.setObject, hab] using h
  cases hstep with
  | eager _ _ _ _ _ => exact .inl (hset s.passed _ _ halive)
  | complete _ _ _ _ _ _ => exact .inl (hresume _ _ (hset s.passed _ _ halive))
  | suspend _ _ _ _ _ _ => exact .inl (hset s _ _ halive)
  | @ready b _ _ _ _ => exact .inl (hresume { s with awaits := b :: s.awaits } b halive)
  | construct hact hs' =>
      obtain ⟨sqes, o, hprep, -⟩ := constructStep_prepares (UserAct.prep_of_constructs hact) hs'
      exact .inl (hprep.alive halive)
  | link hs' =>
      obtain ⟨_, _, _, hprep, -⟩ := linkStep_prepares hs'
      exact .inl (hprep.alive halive)
  | @discard b _ _ _ _ =>
      by_cases hab : a = b
      · exact .inr (by simp [Label.drops, hab])
      · exact .inl (hdrop s b hab halive)
  | @drop b stale _ _ _ _ =>
      by_cases hab : a = b
      · exact .inr (by simp [Label.drops, hab])
      · exact .inl (hdrop s b hab halive)
  | _ => exact .inl halive

/-- The loop accesses a destroyed operation through a CQE that is not harmless. -/
theorem Step.touches (hstep : Step cfg s l s') (htorn : s.torn = false) :
    s'.torn = false ∨ (Reaping s ∧ ¬s.harmless (s.current cfg)) := by
  cases hstep with
  | torn hreap hres hdata halive =>
      refine .inr ⟨hreap, ?_⟩
      simp [State.harmless, hres, hdata, halive]
  | @complete b hd _ _ _ _ _ _ =>
      obtain ⟨d, res, heq⟩ := awaitResume_eq (s.reaped cfg b) b
      rw [heq]
      exact .inl htorn
  | @ready b _ _ _ _ =>
      obtain ⟨d, res, heq⟩ := awaitResume_eq { s with awaits := b :: s.awaits } b
      rw [heq]
      exact .inl htorn
  | construct hact hs' =>
      obtain ⟨sqes, o, hprep, -⟩ := constructStep_prepares (UserAct.prep_of_constructs hact) hs'
      rw [hprep.rest]
      exact .inl htorn
  | link hs' =>
      obtain ⟨_, _, _, hprep, -⟩ := linkStep_prepares hs'
      rw [hprep.rest]
      exact .inl htorn
  | _ => exact .inl htorn

/-- The CQEs in the ring are harmless. -/
structure StaleOk (s : State) : Prop where
  torn : s.torn = false
  harmless : ∀ c ∈ s.posted.drop s.seen, s.harmless c

theorem StaleOk.step (h : StaleOk s) (hring : RingOk cfg s) (hok : NoStale s l)
    (hstep : Step cfg s l s') : StaleOk s' := by
  have hlen : s.seen ≤ s.posted.length := by rw [hring.tail]; exact hring.head
  have hkept : ∀ c, c ∈ s.posted.drop s.seen ∨ c ∈ s.nextCqe l → s'.harmless c := by
    intro c hc
    rcases hc.elim (h.harmless c) (hok.1 c) with hres | halive
    · exact .inl hres
    · cases hdata : c.data with
      | none => exact .inr (by simp [hdata])
      | some a =>
          have halive : (s.object a).alive = true := by simpa [hdata] using halive
          rcases hstep.alive halive with halive' | hdrop
          · exact .inr (by simp [hdata, halive'])
          · refine .inl (hok.2 a hdrop c (hc.resolve_right fun hnext => ?_) hdata)
            cases l <;> simp [Label.drops, State.nextCqe] at hdrop hnext
  constructor
  · rcases hstep.touches h.torn with htorn | ⟨hreap, hharmful⟩
    · exact htorn
    · have hcurrent : (s.posted.drop s.seen)[0]? = some (s.current cfg) := by
        rw [List.getElem?_drop, Nat.add_zero]
        exact hring.current hreap
      exact absurd (h.harmless _ (List.mem_of_getElem? hcurrent)) hharmful
  · rcases hstep.seen with ⟨hseen, hposted⟩ | ⟨-, -, hseen, hposted⟩
    · intro c hc
      rw [hseen, hposted, List.drop_append_of_le_length hlen] at hc
      exact hkept c ((List.mem_append.mp hc).imp_right Option.mem_toList.mp)
    · intro c hc
      rw [hseen, hposted] at hc
      exact hkept c (.inl (List.drop_subset_drop_left _ (Nat.le_succ _) hc))

/-- In every run that meets the condition, the loop over the ring writes to no
operation that is destroyed and resumes none of them. -/
theorem destroyed_untouched (h : (machine cfg).Reach NoStale s) : s.torn = false := by
  have hstale : StaleOk s := by
    refine h.invariant StaleOk (fun s hs => ?_) fun s l s' hreach ih hok hstep =>
      ih.step (reachable_ring hreach) hok (.of_step hstep)
    obtain ⟨-, -, -, -, -, -, -, -, -, -, -, hposted, -, -, -, -, -, htorn⟩ := hs
    exact ⟨htorn, by simp [hposted]⟩
  exact hstale.torn

section Multishot

/-- The third entry has the slot of the first one. -/
def slotConfig : Config where
  entries := 2
  cqEntries := 4
  cqEntries_pos := by decide

/-- A plain operation is finished before it is awaited, and a multishot operation resumes the
coroutine, which leaves some scopes and awaits a third operation. -/
def scopesRun (scopes : List UserAct) : List Label :=
  [.coSpawn, .runOnce false, .go, .user .asyncOperation, .user .asyncMultishotOperation,
    .user (.await 1), .go, .go, .finish 0 7 false false, .more 1 1, .go, .go] ++
    scopes.map .user ++ [.user .asyncOperation, .user (.await 2), .go]

/-- The kernel finishes the cancellation and the operation, and their CQEs are reaped. -/
def cancelledRun : List Label :=
  [.finish 2 (-2) true true, .finish 1 (-ECANCELED) true true, .runOnce false, .go, .go, .go, .go]

/-- The third operation and then the first one, whose result is that of the cancellation. -/
def restRun : List Label :=
  [.finish 3 9 false false, .go, .user (.await 0), .user (.dropOperation 2), .user (.dropOperation 0),
    .user .ret, .go]

/-- The entry of the cancellation has the address of the plain operation that was in the slot
before. -/
theorem destroyed_untouched_stale : ∃ s, (machine slotConfig).Reach NoStale s ∧
    s.posted = [⟨some 0, 7, false⟩, ⟨some 1, 1, true⟩, ⟨some 0, -2, false⟩,
      ⟨some 1, -ECANCELED, false⟩, ⟨some 2, 9, false⟩] ∧
    s.seen = 5 ∧ (∀ a ∈ [0, 1, 2], (s.object a).alive = false) ∧ s.torn = false := by
  have hrun : ∃ s, ((machine slotConfig).restrict NoStale).run .start
        (scopesRun [.dropMultishot 1 (some 0)] ++ cancelledRun ++ restRun) = some s ∧
      s.posted = [⟨some 0, 7, false⟩, ⟨some 1, 1, true⟩, ⟨some 0, -2, false⟩,
        ⟨some 1, -ECANCELED, false⟩, ⟨some 2, 9, false⟩] ∧
      s.seen = 5 ∧ ∀ a ∈ [0, 1, 2], (s.object a).alive = false := ⟨_, rfl, rfl, rfl, by decide⟩
  obtain ⟨s, hs, hposted, hseen, halive⟩ := hrun
  have hreach := Machine.Reach.restrict (.start init_start) hs
  exact ⟨s, hreach, hposted, hseen, halive, destroyed_untouched hreach⟩

/-- Where the plain operation is destroyed first, the CQE of the cancellation has the loop write
to it. -/
example : ∃ s, (machine slotConfig).run .start
    (scopesRun [.dropOperation 0, .dropMultishot 1 (some 0)] ++ cancelledRun) = some s ∧
    s.torn = true := ⟨_, rfl, rfl⟩

/-- Two CQEs are in the ring, and the first one makes the coroutine leave the scope of
the operation. -/
def scopeRun : List Label :=
  [.coSpawn, .runOnce false, .go, .user .asyncMultishotOperation, .user (.await 0), .go, .go, .more 0 1,
    .more 0 1, .go, .user (.dropMultishot 0 none), .user .ret, .go]

theorem destroyed_touched : ∃ s, (machine smallConfig).Reachable s ∧
    (s.object 0).alive = false ∧ s.posted = [⟨some 0, 1, true⟩, ⟨some 0, 1, true⟩] ∧
    s.torn = true := by
  have hrun : ∃ s, (machine smallConfig).run .start scopeRun = some s ∧ (s.object 0).alive = false ∧
      s.posted = [⟨some 0, 1, true⟩, ⟨some 0, 1, true⟩] ∧ s.torn = true := ⟨_, rfl, rfl, rfl, rfl⟩
  obtain ⟨s, hs, hrest⟩ := hrun
  exact ⟨s, Machine.Reachable.of_run init_start hs, hrest⟩

end Multishot

end IoUring.Coroutine
