import Mathlib.Data.Finset.Card
import IoUring.Coroutine.FramesOwned

/-!
# Frames over whole runs

Whatever the coroutines do with their `Task` objects and in whatever order their operations complete,
no frame is used after its end, and a coroutine that awaits a `Task` goes on once the callee
is gone.
-/

namespace IoUring.Coroutine.Frames

variable {s s' : State} {l : Label} {f g t : Nat}

namespace Inv

/-- `~Task` of an object that exists. -/
theorem destroyTask (h : Inv s) (ht : t ∉ s.dtors) (htask : s.task t ≠ none) :
    Inv (s.destroyTask t) := by
  obtain ⟨hinv, hfree⟩ := h.giveUp (t := t) (x := none) rfl (fun hmem => absurd hmem ht) fun _ => rfl
  rw [State.destroyTask]
  split
  · next f p hx =>
      have hhandle : s.handle t = some f := handle_eq_some.mpr ⟨p, hx⟩
      obtain ⟨hpoint, hcaller⟩ := h.unstarted (mem_refers_task.mpr hhandle) rfl
      exact hinv.destroy (hfree f hhandle) hpoint hcaller
  · exact hinv
  · next hnone => exact absurd hnone htask

/-- The next destructor. -/
theorem dtor (h : Inv s) {dtors : List Nat} (hdtors : s.dtors = t :: dtors) :
    Inv ({ s with dtors := dtors }.destroyTask t) := by
  have hnodup := h.dtors
  rw [hdtors, List.nodup_cons] at hnodup
  have hinv : Inv { s with dtors := dtors } := { h with
    dtors := hnodup.2
    story := fun g => (h.story g).same rfl rfl fun _ => id
    dying := fun t' ht' => h.dying t' (hdtors ▸ List.mem_cons_of_mem _ ht') }
  obtain ⟨x, -, hx, -⟩ := h.dying t (hdtors ▸ List.mem_cons_self)
  exact hinv.destroyTask hnodup.1 (by simp [hx])

/-- A coroutine awaits a `Task`, which may have been moved from. -/
theorem awaitTask (h : Inv s) (hcontrol : s.control = .running f) (t : Nat) :
    Inv (s.awaitTask f t) := by
  rw [State.awaitTask]
  split
  · exact h
  · next g hhandle =>
      obtain ⟨hpoint, hcaller⟩ := h.unstarted (mem_refers_task.mpr hhandle) rfl
      rw [if_neg (by simp [hpoint])]
      obtain ⟨hdetach, hfree⟩ := h.detach t
      obtain ⟨hpush, hfree', hpoint'⟩ := hdetach.push hcontrol (hfree g hhandle) hpoint hcaller
      exact hpush.resume hfree' (by rw [hpoint']; rfl) rfl

theorem act (h : Inv s) (hdtors : s.dtors = []) (hact : Frames.act s l = some s') : Inv s' := by
  have hnot : ∀ t, t ∉ s.dtors := by simp [hdtors]
  cases l with
  | create args =>
      simp only [Frames.act] at hact
      split at hact
      · split at hact
        · obtain rfl := Option.some.inj hact
          exact h.create hdtors args _
        · cases hact
      · cases hact
  | move t out =>
      simp only [Frames.act] at hact
      split at hact
      · split at hact
        · obtain rfl := Option.some.inj hact
          exact h.moveTask t _
        · cases hact
      · cases hact
  | destroy t =>
      simp only [Frames.act] at hact
      split at hact
      · next htask =>
          obtain rfl := Option.some.inj hact
          exact h.destroyTask (hnot t) htask.2
      · cases hact
  | dtor => cases hact
  | coSpawn t =>
      simp only [Frames.act] at hact
      split at hact
      · next _ f _ hf =>
          obtain rfl := Option.some.inj hact
          exact h.coSpawn hf
      · cases hact
  | awaitTask t =>
      simp only [Frames.act] at hact
      split at hact
      · next f hcontrol =>
          split at hact
          · obtain rfl := Option.some.inj hact
            exact h.awaitTask hcontrol t
          · cases hact
      · cases hact
  | awaitOperation sqe =>
      simp only [Frames.act] at hact
      split at hact
      · next f hcontrol =>
          obtain rfl := Option.some.inj hact
          split
          · exact h.awaitOperation hcontrol
          · exact h
      · cases hact
  | ret =>
      simp only [Frames.act] at hact
      split at hact
      · next f hcontrol =>
          split at hact
          · obtain rfl := Option.some.inj hact
            exact h.finalSuspend hcontrol
          · cases hact
      · cases hact
  | transfer =>
      simp only [Frames.act] at hact
      split at hact
      · next g hcontrol =>
          obtain rfl := Option.some.inj hact
          exact h.returned_outside hcontrol
      · next g f hcontrol =>
          obtain rfl := Option.some.inj hact
          obtain ⟨hinv, hfree, hpoint⟩ := h.returned hcontrol
          exact hinv.resume hfree (by simp [hpoint, Point.suspended]) rfl
      · cases hact
  | launch =>
      simp only [Frames.act] at hact
      split at hact
      · next f operations hcontrol hqueue =>
          obtain rfl := Option.some.inj hact
          obtain ⟨hinv, hfree⟩ := h.pop hqueue
          have hmem : f ∈ s.refers .queue := by simp [State.refers, hqueue]
          exact hinv.resume hfree (by simp [(h.unstarted hmem rfl).1, Point.suspended]) hcontrol
      · cases hact
  | reap o canceled =>
      simp only [Frames.act] at hact
      split at hact
      · next f hcontrol ho =>
          obtain rfl := Option.some.inj hact
          obtain ⟨hinv, hfree⟩ := h.reap ho
          split
          · exact hinv
          · have hpoint := h.fitted.fits (.operation o) f (by simp [State.refers, ho])
            have hsuspended : (s.frame f).point.suspended = true := by rw [hpoint]; rfl
            exact hinv.resume hfree hsuspended hcontrol
      · cases hact

theorem step (h : Inv s) (hstep : Frames.step s l = some s') : Inv s' := by
  simp only [Frames.step] at hstep
  split at hstep
  · next hdtors => exact h.act hdtors hstep
  · next t dtors hdtors =>
      split at hstep
      · obtain rfl := Option.some.inj hstep
        exact h.dtor hdtors
      · cases hstep

end Inv

theorem reachable_frames (h : machine.Reachable s) : Inv s := by
  refine h.invariant Inv (fun s hs => ?_) fun s l s' _ hinv _ hstep => hinv.step hstep
  obtain ⟨hframe, -, htask, -, hoperations, hh, -, hcontrol, hdtors, hlog, hfault⟩ := hs
  have hrefers : ∀ r, s.refers r = [] := by
    intro r
    cases r with
    | task t => simp [State.refers, State.handle, htask]
    | queue => exact hoperations
    | operation o => simp [State.refers, hh]
    | callee g => simp [State.refers, hframe]
    | running => simp [State.refers, Control.refers, hcontrol]
    | returning g => simp [State.refers, Control.refers, hcontrol]
  exact {
    fault := hfault
    fitted := ⟨⟨fun r => by simp [hrefers], fun r r' f hf => by simp [hrefers] at hf⟩,
      fun r f hf => by simp [hrefers] at hf⟩
    idle := fun r f hf => by simp [hrefers] at hf
    frames := fun f _ => ⟨hframe f, by simp [State.history, hlog]⟩
    tasks := fun t _ => htask t
    users := fun o _ => hh o
    story := fun g => .new (hframe g) (by simp [State.history, hlog])
    returning := fun g f hf => by simp [hcontrol] at hf
    dtors := by simp [hdtors]
    dying := by simp [hdtors] }

/-! ## The transfer to a caller -/

/-- The `Task` objects that exist. -/
def State.objects (s : State) : Finset Nat :=
  (Finset.range s.nextTask).filter fun t => s.task t ≠ none

theorem destroy_kept (s : State) (f : Nat) : (s.destroy f).task = s.task ∧
    (s.destroy f).nextTask = s.nextTask ∧ (s.destroy f).control = s.control := by
  rw [State.destroy]
  split
  · exact ⟨rfl, rfl, rfl⟩
  · exact ⟨rfl, rfl, rfl⟩

theorem destroyTask_kept (htask : s.task t ≠ none) :
    (s.destroyTask t).task = Function.update s.task t none ∧
      (s.destroyTask t).nextTask = s.nextTask ∧ (s.destroyTask t).control = s.control := by
  rw [State.destroyTask]
  split
  · exact destroy_kept _ _
  · exact ⟨rfl, rfl, rfl⟩
  · next hnone => exact absurd hnone htask

theorem objects_destroyTask (htask : s.task t ≠ none) :
    (s.destroyTask t).objects = s.objects.erase t := by
  obtain ⟨hupdate, hnext, -⟩ := destroyTask_kept htask
  ext t'
  rw [State.objects, hupdate, hnext, Finset.mem_erase, State.objects, Finset.mem_filter,
    Finset.mem_filter]
  by_cases ht : t' = t
  · simp [ht]
  · simp [ht]

namespace Inv

/-- The destructors come to an end, since each of them is of one more `Task` object. -/
theorem dtors_end (h : Inv s) : ∃ n s', machine.run s (List.replicate n .dtor) = some s' ∧
    Inv s' ∧ s'.dtors = [] ∧ s'.control = s.control := by
  induction hn : s.objects.card using Nat.strong_induction_on generalizing s with
  | h n ih =>
      cases hdtors : s.dtors with
      | nil => exact ⟨0, s, rfl, h, hdtors, rfl⟩
      | cons t dtors =>
          obtain ⟨x, -, hx, -⟩ := h.dying t (hdtors ▸ List.mem_cons_self)
          have htask : State.task { s with dtors := dtors } t ≠ none := by simp [hx]
          have hmem : t ∈ s.objects := by
            have hlt : t < s.nextTask := by
              by_contra hle
              exact htask (h.tasks t (Nat.le_of_not_lt hle))
            exact Finset.mem_filter.mpr ⟨Finset.mem_range.mpr hlt, htask⟩
          have hless : ({ s with dtors := dtors }.destroyTask t).objects.card < n := by
            rw [objects_destroyTask htask, ← hn]
            exact Finset.card_erase_lt_of_mem hmem
          obtain ⟨m, s', hrun, hinv, hnil, hcontrol⟩ := ih _ hless (h.dtor hdtors) rfl
          have hstep : machine.step s .dtor = some ({ s with dtors := dtors }.destroyTask t) := by
            simp [machine, Frames.step, hdtors]
          refine ⟨m + 1, s', ?_, hinv, hnil, hcontrol.trans (destroyTask_kept htask).2.2⟩
          rw [List.replicate_succ, machine.run_cons, hstep]
          exact hrun

/-- The caller is resumed after the destructors. -/
theorem transfers (h : Inv s) (hcontrol : s.control = .returning g (some f)) :
    ∃ n s', machine.run s (List.replicate n .dtor ++ [.transfer]) = some s' ∧
      s'.control = .running f := by
  obtain ⟨n, u, hrun, hinv, hdtors, hkept⟩ := h.dtors_end
  rw [hcontrol] at hkept
  obtain ⟨-, -, hpoint⟩ := hinv.returned hkept
  have hsuspended : (u.frame f).point.suspended = true := by rw [hpoint]; rfl
  have hstep : machine.step u .transfer =
      some ({ u with control := .outside, log := u.log ++ [Event.resumed f g] }.resume f) := by
    simp [machine, Frames.step, hdtors, Frames.act, hkept]
  have htransfer : machine.run s (List.replicate n .dtor ++ [.transfer]) = machine.run u [.transfer] := by
    rw [machine.run_append, hrun, Option.bind_some]
  rw [machine.run_cons, hstep] at htransfer
  exact ⟨n, _, htransfer, by simp [State.resume, hsuspended]⟩

end Inv

/-- Nothing else happens while a coroutine returns. -/
theorem step_returning {c : Option Nat} (hcontrol : s.control = .returning g c)
    (hstep : step s l = some s') : l = .dtor ∨ l = .transfer := by
  simp only [step] at hstep
  split at hstep
  · cases l with
    | dtor => exact .inl rfl
    | transfer => exact .inr rfl
    | _ => simp [act, State.here, hcontrol] at hstep
  · split at hstep
    · next hl => exact .inl hl
    · cases hstep

theorem mem_history {e : Event} (he : e ∈ s.log) (habout : e.about g = true) : e ∈ s.history g :=
  List.mem_filter.mpr ⟨he, habout⟩

theorem Story.of_destroyed (h : Story s g) (hmem : .destroyed g ∈ s.history g) :
    s.frame g = ⟨.gone, none⟩ := by
  cases h with
  | alive _ _ hlog =>
      rw [hlog] at hmem
      cases hcaller : (s.frame g).caller <;> simp [hcaller] at hmem
  | _ => assumption

/-- A callee that has finished. -/
theorem Story.of_finished (h : Story s g) (hcalled : .called f g ∈ s.history g)
    (hfinished : .finished g ∈ s.history g) : s.control = .returning g (some f) ∨
      s.history g = [.called f g, .finished g, .destroyed g, .resumed f g] := by
  cases h with
  | new _ hlog => simp [hlog] at hcalled
  | alive _ _ hlog =>
      rw [hlog] at hfinished
      cases hcaller : (s.frame g).caller <;> simp [hcaller] at hfinished
  | unused _ hlog => simp [hlog] at hcalled
  | ended _ hlog => simp [hlog] at hcalled
  | returning _ hcontrol hlog =>
      obtain rfl : f = _ := by simpa [hlog] using hcalled
      exact .inl hcontrol
  | returned _ hlog =>
      obtain rfl : f = _ := by simpa [hlog] using hcalled
      exact .inr hlog

theorem Story.of_resumed (h : Story s g) (hresumed : .resumed f g ∈ s.history g) :
    s.history g = [.called f g, .finished g, .destroyed g, .resumed f g] := by
  cases h with
  | returned _ hlog =>
      obtain rfl : f = _ := by simpa [hlog] using hresumed
      exact hlog
  | alive _ _ hlog =>
      rw [hlog] at hresumed
      cases hcaller : (s.frame g).caller <;> simp [hcaller] at hresumed
  | new _ hlog => simp [hlog] at hresumed
  | unused _ hlog => simp [hlog] at hresumed
  | ended _ hlog => simp [hlog] at hresumed
  | returning _ _ hlog => simp [hlog] at hresumed

/-- A `Task`, the queue, an operation whose CQE was not reaped, or the promise of a callee refers to
the frame. -/
def State.Referenced (s : State) (g : Nat) : Prop :=
  (∃ t, s.handle t = some g) ∨ g ∈ s.operations ∨ (∃ o, s.h o = some g) ∨
    ∃ f, (s.frame f).caller = some g

/-- Every handle that is resumed or destroyed is of a suspended coroutine, every frame is
destroyed once at most and not referred to from then on, a coroutine that awaits a `Task` stays
suspended until the callee is gone, and then it is resumed once, before anything else but
destructors is executed. -/
theorem frames_safe (h : machine.Reachable s) :
    s.fault = false ∧ (∀ g, s.log.count (.destroyed g) ≤ 1) ∧
      (∀ g, .destroyed g ∈ s.log → ¬s.Referenced g) ∧
      (∀ f g, (s.frame g).caller = some f → (s.frame f).point = .atTask g) ∧
      (∀ f g, .called f g ∈ s.log → .finished g ∈ s.log → s.control = .returning g (some f) ∨
        s.history g = [.called f g, .finished g, .destroyed g, .resumed f g]) ∧
      (∀ f g, .resumed f g ∈ s.log →
        s.history g = [.called f g, .finished g, .destroyed g, .resumed f g]) ∧
      (∀ f g, s.control = .returning g (some f) →
        (∃ n s', machine.run s (List.replicate n .dtor ++ [.transfer]) = some s' ∧
          s'.control = .running f) ∧
        ∀ l s', machine.step s l = some s' → l = .dtor ∨ l = .transfer) := by
  have hinv := reachable_frames h
  refine ⟨hinv.fault, fun g => ?_, fun g hdestroyed => ?_, fun f g hcaller => ?_,
    fun f g hcalled hfinished => ?_, fun f g hresumed => ?_, fun f g hcontrol => ?_⟩
  · have hcount : s.log.count (.destroyed g) = (s.history g).count (.destroyed g) := by
      rw [State.history, List.count_filter (by simp [Event.about])]
    rw [hcount]
    cases hinv.story g with
    | alive _ _ hlog =>
        rw [hlog]
        cases (s.frame g).caller <;> simp
    | _ => simp [*]
  · have hframe := (hinv.story g).of_destroyed (mem_history hdestroyed (by simp [Event.about]))
    have hfree : s.Free g := hinv.free_of_point fun r => by
      rw [hframe]
      cases r <;> simp [Ref.point]
    rintro (⟨t, ht⟩ | hqueue | ⟨o, ho⟩ | ⟨f, hf⟩)
    · exact hfree (.task t) (mem_refers_task.mpr ht)
    · exact hfree .queue hqueue
    · exact hfree (.operation o) (by simp [State.refers, ho])
    · exact hfree (.callee f) (by simp [State.refers, hf])
  · exact hinv.fitted.fits (.callee g) f (by simp [State.refers, hcaller])
  · exact (hinv.story g).of_finished (mem_history hcalled (by simp [Event.about]))
      (mem_history hfinished (by simp [Event.about]))
  · exact (hinv.story g).of_resumed (mem_history hresumed (by simp [Event.about]))
  · exact ⟨hinv.transfers hcontrol, fun l s' hstep => step_returning hcontrol hstep⟩

section Frames

/-- Coroutine 0 awaits coroutine 1, which awaits an operation, and then its `Task` again. Then it
creates coroutines 2 and 3, of which 3 has the `Task` of 2 as a parameter, and drops 3. -/
def nestedRun : List Label :=
  [.create [], .coSpawn 0, .launch, .create [], .awaitTask 1, .awaitOperation true, .reap 0 false, .ret,
    .transfer, .awaitTask 1, .create [], .create [2], .destroy 3, .dtor, .destroy 1, .destroy 2, .ret, .transfer]

theorem frames_safe_nested : ∃ s, machine.Reachable s ∧ s.fault = false ∧ s.control = .outside ∧
    s.log = [.called 0 1, .finished 1, .destroyed 1, .resumed 0 1, .destroyed 3, .destroyed 2,
      .finished 0, .destroyed 0] := by
  have hrun : ∃ s, machine.run .start nestedRun = some s ∧ s.control = .outside ∧
      s.log = [.called 0 1, .finished 1, .destroyed 1, .resumed 0 1, .destroyed 3, .destroyed 2,
        .finished 0, .destroyed 0] := ⟨_, rfl, rfl, rfl⟩
  obtain ⟨s, hs, hcontrol, hlog⟩ := hrun
  have hreach := Machine.Reachable.of_run init_start hs
  exact ⟨s, hreach, (frames_safe hreach).1, hcontrol, hlog⟩

end Frames

end IoUring.Coroutine.Frames
