import Mathlib.Logic.Relation
import IoUring.Base.Observe
import IoUring.Coroutine.FramesPlaced

/-!
# Frames are freed

Whoever can still resume or destroy a coroutine holds its frame: a `Task`, the queue, an
operation, the thread, or the callee that it awaits. `run_once()` passes over a CQE with `-ECANCELED`,
and then nobody holds the coroutine that waits for it. No other frame is lost, so when all the
others are done, what was not destroyed waits for an operation that was canceled.
-/

namespace IoUring.Coroutine.Frames

variable {s s' : State} {l : Label} {f g t : Nat} {canceled canceled' : List Nat}

/-- The history of the operations whose CQE had the result `-ECANCELED`. -/
def note (canceled : List Nat) (_ : State) (l : Label) (_ : State) : List Nat :=
  match l with
  | .reap o true => o :: canceled
  | _ => canceled

/-- The machine that remembers the canceled operations. -/
def canceling : Machine (State × List Nat) Label :=
  machine.observed [] note

/-- Who holds a frame, by the point where its coroutine is. -/
def Held (s : State) (canceled : List Nat) (f : Nat) : Point → Prop
  | .unstarted => (∃ t, s.handle t = some f) ∨ f ∈ s.operations
  | .running => s.control = .running f
  | .atOperation o => o < s.nextOperation ∧ (s.h o = some f ∨ o ∈ canceled)
  | .atTask g => (s.frame g).caller = some f ∨ s.control = .returning g (some f)
  | .final => False
  | .gone => f < s.nextFrame → .destroyed f ∈ s.log

/-- Coroutine `f` awaits the `Task` of coroutine `g`. -/
def State.Awaits (s : State) (f g : Nat) : Prop :=
  (s.frame g).caller = some f

/-- Every frame is held, and no coroutines await each other in a circle. -/
structure Kept (s : State) (canceled : List Nat) : Prop where
  held : ∀ f, Held s canceled f (s.frame f).point
  ranked : ∃ rank : Nat → Nat, ∀ f g, s.Awaits f g → rank g < rank f

/-- From `s` to `s'`, nobody lets go of frame `f`. -/
structure Knows (s s' : State) (canceled canceled' : List Nat) (f : Nat) : Prop where
  handle : ∀ t, s.handle t = some f → (∃ t, s'.handle t = some f) ∨ f ∈ s'.operations
  queue : f ∈ s.operations → f ∈ s'.operations
  running : s.control = .running f → s'.control = .running f
  operation : ∀ o, o < s.nextOperation → s.h o = some f ∨ o ∈ canceled →
    o < s'.nextOperation ∧ (s'.h o = some f ∨ o ∈ canceled')
  task : ∀ g, (s.frame g).caller = some f ∨ s.control = .returning g (some f) →
    (s'.frame g).caller = some f ∨ s'.control = .returning g (some f)
  gone : (f < s.nextFrame → .destroyed f ∈ s.log) → f < s'.nextFrame → .destroyed f ∈ s'.log

theorem Held.mono {p : Point} (hheld : Held s canceled f p) (h : Knows s s' canceled canceled' f) :
    Held s' canceled' f p := by
  cases p with
  | unstarted =>
      rcases hheld with ⟨t, ht⟩ | hqueue
      · exact h.handle t ht
      · exact .inr (h.queue hqueue)
  | running => exact h.running hheld
  | atOperation o => exact h.operation o hheld.1 hheld.2
  | atTask g => exact h.task g hheld
  | final => exact hheld
  | gone => exact h.gone hheld

theorem Kept.ranked_of (h : Kept s canceled) (hcaller : ∀ f g, s'.Awaits f g → s.Awaits f g) :
    ∃ rank : Nat → Nat, ∀ f g, s'.Awaits f g → rank g < rank f := by
  obtain ⟨rank, hrank⟩ := h.ranked
  exact ⟨rank, fun f g hfg => hrank f g (hcaller f g hfg)⟩

/-! ## `Task` objects that are made, moved and destroyed -/

namespace Kept

theorem moveTask (h : Kept s canceled) (hinv : Inv s) (t : Nat) (p : Place) : Kept (s.moveTask t p) canceled where
  held f := by
    refine (h.held f).mono ⟨fun t' ht' => .inl ?_, id, id, fun _ hlt hheld => ⟨hlt, hheld⟩, fun _ => id, id⟩
    by_cases htt : t' = t
    · subst htt
      exact ⟨s.nextTask, (handle_newTask _ _ _).trans ((if_pos rfl).trans ht')⟩
    · refine ⟨t', (handle_newTask _ _ _).trans ((if_neg fun hne => ?_).trans ?_)⟩
      · rw [hne] at ht'
        exact absurd ((handle_nextTask hinv).symm.trans ht') (by simp)
      · rw [handle_detach, if_neg htt, ht']
  ranked := h.ranked

theorem newCoroutine (h : Kept s canceled) (hinv : Inv s) (p : Place) : Kept (s.newCoroutine p) canceled := by
  have hframe : ∀ g, (s.newCoroutine p).frame g =
      if g = s.nextFrame then ⟨.unstarted, none⟩ else s.frame g := fun g => frame_setFrame s s.nextFrame g _
  have hhandle : ∀ t, (s.newCoroutine p).handle t =
      if t = s.nextTask then some s.nextFrame else s.handle t := fun t =>
    handle_newTask (s.setFrame s.nextFrame ⟨.unstarted, none⟩) ⟨some s.nextFrame, p⟩ t
  have hold : ∀ g f, (s.frame g).caller = some f → ((s.newCoroutine p).frame g).caller = some f := by
    intro g f hg
    rw [hframe, if_neg, hg]
    rintro rfl
    rw [(hinv.frames _ (Nat.le_refl _)).1] at hg
    cases hg
  refine ⟨fun f => ?_, h.ranked_of fun f g hfg => ?_⟩
  · rw [hframe]
    split
    · next hf => exact .inl ⟨s.nextTask, by rw [hhandle, if_pos rfl, hf]⟩
    · next hf =>
        refine (h.held f).mono ⟨fun t ht => .inl ⟨t, ?_⟩, id, id, fun _ hlt hheld => ⟨hlt, hheld⟩,
          fun g hg => hg.imp_left (hold g f), fun hgone hlt => ?_⟩
        · rw [hhandle, if_neg, ht]
          rintro rfl
          exact absurd ((handle_nextTask hinv).symm.trans ht) (by simp)
        · have hlt : f < s.nextFrame + 1 := hlt
          exact hgone (by omega)
  · rw [State.Awaits, hframe] at hfg
    split at hfg
    · cases hfg
    · exact hfg

theorem create (h : Kept s canceled) (hinv : Inv s) (hdtors : s.dtors = []) (args : List Nat) (p : Place) :
    Kept (s.create args p) canceled := by
  have hargs : ∀ (args : List Nat) (s' : State), Inv s' → Kept s' canceled →
      Kept (args.foldl (fun s' t => s'.moveTask t (.parameter s.nextFrame)) s') canceled := by
    intro args
    induction args with
    | nil => exact fun _ _ h => h
    | cons t args ih => exact fun s' hinv h => ih _ (hinv.moveTask t _) (h.moveTask hinv t _)
  exact hargs args _ (hinv.newCoroutine hdtors p) (h.newCoroutine hinv p)

theorem coSpawn (h : Kept s canceled) (hf : s.handle t = some f) :
    Kept { s.detach t with operations := s.operations ++ [f] } canceled where
  held g := by
    refine (h.held g).mono ⟨fun t' ht' => ?_, List.mem_append_left _, id, fun _ hlt hheld => ⟨hlt, hheld⟩,
      fun _ => id, id⟩
    by_cases htt : t' = t
    · subst htt
      obtain rfl := Option.some.inj (ht'.symm.trans hf)
      exact .inr (List.mem_append_right _ List.mem_cons_self)
    · exact .inl ⟨t', (handle_detach s t t').trans ((if_neg htt).trans ht')⟩
  ranked := h.ranked

/-- The frame of a coroutine that was not started is destroyed with its `Task`. -/
theorem destroyTask (h : Kept s canceled) (hinv : Inv s) (htask : s.task t ≠ none) :
    Kept (s.destroyTask t) canceled := by
  have hothers : ∀ g t', s.handle t ≠ some g → s.handle t' = some g → (s.setTask t none).handle t' = some g := by
    intro g t' hne ht'
    rw [handle_setTask, if_neg, ht']
    rintro rfl
    exact hne ht'
  rw [State.destroyTask]
  split
  · next f p hx =>
      have hhandle : s.handle t = some f := handle_eq_some.mpr ⟨p, hx⟩
      obtain ⟨hpoint, hcaller⟩ := hinv.unstarted (mem_refers_task.mpr hhandle) rfl
      have hsuspended : (((s.setTask t none).frame f).point).suspended = true := by
        rw [show (s.setTask t none).frame f = s.frame f from rfl, hpoint]
        rfl
      rw [destroy_eq (.inl hsuspended)]
      have hframe : ∀ g, ((s.setTask t none).setFrame f ⟨.gone, none⟩).frame g =
          if g = f then ⟨.gone, none⟩ else s.frame g := fun g => frame_setFrame _ f g _
      refine ⟨fun g => ?_, h.ranked_of fun g g' hg => ?_⟩
      · rw [show (_ : State).frame g = ((s.setTask t none).setFrame f ⟨.gone, none⟩).frame g from rfl, hframe]
        split
        · next hg => exact fun _ => List.mem_append_right _ (by rw [hg]; exact List.mem_cons_self)
        · next hg =>
            refine (h.held g).mono ⟨fun t' ht' => .inl ⟨t', hothers g t' ?_ ht'⟩, id, id,
              fun _ hlt hheld => ⟨hlt, hheld⟩, fun g' hg' => hg'.imp_left fun hg' => ?_,
              fun hgone hlt => List.mem_append_left _ (hgone hlt)⟩
            · rw [hhandle]
              exact fun heq => hg (Option.some.inj heq).symm
            · refine (congrArg Frame.caller ((hframe g').trans (if_neg fun hne => ?_))).trans hg'
              rw [hne, hcaller] at hg'
              cases hg'
      · have hg : (((s.setTask t none).setFrame f ⟨.gone, none⟩).frame g').caller = some g := hg
        rw [hframe] at hg
        split at hg
        · cases hg
        · exact hg
  · next p hx =>
      refine ⟨fun g => (h.held g).mono ⟨fun t' ht' => .inl ⟨t', hothers g t' ?_ ht'⟩, id, id,
        fun _ hlt hheld => ⟨hlt, hheld⟩, fun _ => id, id⟩, h.ranked⟩
      simp [State.handle, hx]
  · next hnone => exact absurd hnone htask

/-! ## Coroutines that are resumed and suspended -/

/-- The coroutine that is resumed is the only one that nobody held. -/
theorem resume_of (hheld : ∀ g, g ≠ f → Held s canceled g (s.frame g).point)
    (hranked : ∃ rank : Nat → Nat, ∀ f g, s.Awaits f g → rank g < rank f)
    (hsuspended : (s.frame f).point.suspended = true) (hcontrol : s.control = .outside) :
    Kept (s.resume f) canceled := by
  rw [resume_eq hsuspended]
  refine ⟨fun g => ?_, ?_⟩
  · rw [show (_ : State).frame g = (s.setPoint f .running).frame g from rfl, point_setPoint]
    split
    · next hg => rw [hg]; rfl
    · next hg =>
        refine (hheld g hg).mono ⟨fun t ht => .inl ⟨t, ht⟩, id, fun hrunning => ?_,
          fun _ hlt hheld => ⟨hlt, hheld⟩, fun g' hg' => .inl ?_, id⟩
        · rw [hcontrol] at hrunning
          cases hrunning
        · rw [hcontrol] at hg'
          exact (caller_setPoint s f g' .running).trans (hg'.resolve_right (by simp))
  · obtain ⟨rank, hrank⟩ := hranked
    exact ⟨rank, fun f' g hg => hrank f' g ((caller_setPoint s f g .running).symm.trans hg)⟩

theorem launch (h : Kept s canceled) {operations : List Nat} (hqueue : s.operations = f :: operations)
    (hsuspended : (s.frame f).point.suspended = true) (hcontrol : s.control = .outside) :
    Kept ({ s with operations := operations }.resume f) canceled := by
  refine resume_of (fun g hg => (h.held g).mono ⟨fun t ht => .inl ⟨t, ht⟩, fun hmem => ?_, id,
    fun _ hlt hheld => ⟨hlt, hheld⟩, fun _ => id, id⟩) h.ranked hsuspended hcontrol
  rw [hqueue] at hmem
  exact (List.mem_cons.mp hmem).resolve_left hg

theorem reap (h : Kept s canceled) {o : Nat} (ho : s.h o = some f)
    (hsuspended : (s.frame f).point.suspended = true) (hcontrol : s.control = .outside) :
    Kept (State.resume { s with h := Function.update s.h o none } f) canceled := by
  refine resume_of (fun g hg => (h.held g).mono ⟨fun t ht => .inl ⟨t, ht⟩, id, id,
    fun o' hlt hheld => ⟨hlt, hheld.imp_left fun ho' => ?_⟩, fun _ => id, id⟩) h.ranked hsuspended hcontrol
  have hne : o' ≠ o := by
    rintro rfl
    exact hg (Option.some.inj (ho'.symm.trans ho))
  exact (Function.update_of_ne hne _ _).trans ho'

theorem cancel (h : Kept s canceled) (o : Nat) :
    Kept { s with h := Function.update s.h o none } (o :: canceled) where
  held g := by
    refine (h.held g).mono ⟨fun t ht => .inl ⟨t, ht⟩, id, id, fun o' hlt hheld => ⟨hlt, ?_⟩, fun _ => id, id⟩
    by_cases hoo : o' = o
    · exact .inr (hoo ▸ List.mem_cons_self)
    · exact hheld.imp (Function.update_of_ne hoo _ _).trans (List.mem_cons_of_mem _)
  ranked := h.ranked

theorem transfer (h : Kept s canceled) (hcontrol : s.control = .returning g (some f))
    (hsuspended : (s.frame f).point.suspended = true) :
    Kept ({ s with control := .outside, log := s.log ++ [Event.resumed f g] }.resume f) canceled := by
  refine resume_of (fun g' hg' => (h.held g').mono ⟨fun t ht => .inl ⟨t, ht⟩, id, fun hrunning => ?_,
    fun _ hlt hheld => ⟨hlt, hheld⟩, fun _ hcaller => .inl (hcaller.resolve_right fun hreturning => ?_),
    fun hgone hlt => List.mem_append_left _ (hgone hlt)⟩) h.ranked hsuspended rfl
  · rw [hcontrol] at hrunning
    cases hrunning
  · rw [hcontrol] at hreturning
    exact hg' (Option.some.inj (Control.returning.inj hreturning).2).symm

theorem transfer_outside (h : Kept s canceled) (hcontrol : s.control = .returning g none) :
    Kept { s with control := .outside } canceled where
  held g' := by
    refine (h.held g').mono ⟨fun t ht => .inl ⟨t, ht⟩, id, fun hrunning => ?_,
      fun _ hlt hheld => ⟨hlt, hheld⟩, fun _ hcaller => .inl (hcaller.resolve_right fun hreturning => ?_), id⟩
    · rw [hcontrol] at hrunning
      cases hrunning
    · rw [hcontrol] at hreturning
      cases hreturning
  ranked := h.ranked

/-- A coroutine that awaits another one comes before it, in every circle there could be. -/
theorem push (h : Kept s canceled) (hinv : Inv s) (hcontrol : s.control = .running f)
    (hhandle : s.handle t = some g) :
    (∀ g', g' ≠ g → Held ((s.detach t).push f g) canceled g' (((s.detach t).push f g).frame g').point) ∧
      ∃ rank : Nat → Nat, ∀ f' g', ((s.detach t).push f g).Awaits f' g' → rank g' < rank f' := by
  obtain ⟨hpoint, hcaller⟩ := hinv.unstarted (mem_refers_task.mpr hhandle) rfl
  have hrunning := hinv.control_of_running hcontrol
  have hgf : g ≠ f := by
    rintro rfl
    simp [hpoint] at hrunning
  have hframe : ∀ g', ((s.detach t).push f g).frame g' =
      if g' = g then { s.frame g with caller := some f } else
        if g' = f then { s.frame f with point := .atTask g } else s.frame g' := by
    intro g'
    simp only [State.push, frame_setFrame, State.setPoint, if_neg hgf]
    rfl
  have hcallers : ∀ g', (((s.detach t).push f g).frame g').caller =
      if g' = g then some f else (s.frame g').caller := by
    intro g'
    rw [hframe]
    split
    · rfl
    · split
      · next hg => rw [hg]
      · rfl
  refine ⟨fun g' hg' => ?_, ?_⟩
  · rw [hframe, if_neg hg']
    split
    · next hf => exact .inl ((hcallers g).trans ((if_pos rfl).trans (by rw [hf])))
    · next hf =>
        refine (h.held g').mono ⟨fun t' ht' => .inl ⟨t', ?_⟩, id, fun hrunning' => ?_,
          fun _ hlt hheld => ⟨hlt, hheld⟩, fun g'' hg'' => .inl ?_,
          fun hgone hlt => List.mem_append_left _ (hgone hlt)⟩
        · refine (handle_detach s t t').trans ((if_neg ?_).trans ht')
          rintro rfl
          exact hg' (Option.some.inj (ht'.symm.trans hhandle))
        · rw [hcontrol] at hrunning'
          exact absurd (Control.running.inj hrunning').symm hf
        · rw [hcontrol] at hg''
          have hg'' := hg''.resolve_right (by simp)
          refine (hcallers g'').trans ((if_neg ?_).trans hg'')
          rintro rfl
          rw [hcaller] at hg''
          cases hg''
  · -- nobody is awaited by the callee yet, so it may be the last
    obtain ⟨rank, hrank⟩ := h.ranked
    refine ⟨fun x => if x = g then 0 else rank x + 1, fun f' g' hfg => ?_⟩
    have hawaits : (((s.detach t).push f g).frame g').caller = some f' := hfg
    rw [hcallers] at hawaits
    split at hawaits
    · next hg' =>
        obtain rfl := Option.some.inj hawaits
        simp only [hg', if_pos, if_neg hgf.symm]
        omega
    · next hg' =>
        have hne : f' ≠ g := by
          rintro rfl
          have hatTask : (s.frame f').point = .atTask g' :=
            hinv.fitted.fits (.callee g') f' (by simp [State.refers, hawaits])
          rw [hpoint] at hatTask
          cases hatTask
        have hless := hrank f' g' hawaits
        simp only [if_neg hg', if_neg hne]
        omega

theorem awaitTask (h : Kept s canceled) (hinv : Inv s) (hcontrol : s.control = .running f) (t : Nat) :
    Kept (s.awaitTask f t) canceled := by
  rw [State.awaitTask]
  split
  · exact h
  · next g hhandle =>
      obtain ⟨hpoint, hcaller⟩ := hinv.unstarted (mem_refers_task.mpr hhandle) rfl
      rw [if_neg (by simp [hpoint])]
      obtain ⟨hdetach, hfree⟩ := hinv.detach t
      obtain ⟨-, -, hpoint'⟩ := hdetach.push hcontrol (hfree g hhandle) hpoint hcaller
      obtain ⟨hheld, hranked⟩ := h.push hinv hcontrol hhandle
      exact resume_of hheld hranked (by rw [hpoint']; rfl) rfl

theorem awaitOperation (h : Kept s canceled) (hcontrol : s.control = .running f) :
    Kept (s.awaitOperation f) canceled := by
  refine ⟨fun g => ?_, ?_⟩
  · rw [show (s.awaitOperation f).frame g = (s.setPoint f (.atOperation s.nextOperation)).frame g from rfl,
      point_setPoint]
    split
    · next hg =>
        refine ⟨Nat.lt_succ_self _, .inl ?_⟩
        rw [hg]
        exact Function.update_self ..
    · next hg =>
        refine (h.held g).mono ⟨fun t ht => .inl ⟨t, ht⟩, id, fun hrunning => ?_, fun o hlt hheld => ?_,
          fun g' hg' => .inl ?_, id⟩
        · rw [hcontrol] at hrunning
          exact absurd (Control.running.inj hrunning).symm hg
        · refine ⟨Nat.lt_succ_of_lt hlt, hheld.imp_left fun ho => ?_⟩
          exact (Function.update_of_ne (Nat.ne_of_lt hlt) _ _).trans ho
        · rw [hcontrol] at hg'
          exact (caller_setPoint s f g' _).trans (hg'.resolve_right (by simp))
  · exact h.ranked_of fun f' g hg => (caller_setPoint s f g (.atOperation s.nextOperation)).symm.trans hg

theorem finalSuspend (h : Kept s canceled) (hcontrol : s.control = .running f) :
    Kept (s.finalSuspend f) canceled := by
  rw [Inv.finalSuspend_eq]
  have hframe : ∀ g, (s.setFrame f ⟨.gone, none⟩).frame g = if g = f then ⟨.gone, none⟩ else s.frame g :=
    fun g => frame_setFrame s f g _
  refine ⟨fun g => ?_, h.ranked_of fun f' g hg => ?_⟩
  · rw [show (_ : State).frame g = (s.setFrame f ⟨.gone, none⟩).frame g from rfl, hframe]
    split
    · next hg => exact fun _ => List.mem_append_right _ (by rw [hg]; exact List.mem_cons_self)
    · next hg =>
        refine (h.held g).mono ⟨fun t ht => .inl ⟨t, ht⟩, id, fun hrunning => ?_,
          fun _ hlt hheld => ⟨hlt, hheld⟩, fun g' hg' => ?_,
          fun hgone hlt => List.mem_append_left _ (List.mem_append_left _ (hgone hlt))⟩
        · rw [hcontrol] at hrunning
          exact absurd (Control.running.inj hrunning).symm hg
        · have hg' : (s.frame g').caller = some g := hg'.resolve_right (by simp [hcontrol])
          by_cases hgf : g' = f
          · subst hgf
            exact .inr (congrArg (Control.returning g') hg')
          · exact .inl ((congrArg Frame.caller ((hframe g').trans (if_neg hgf))).trans hg')
  · have hg : ((s.setFrame f ⟨.gone, none⟩).frame g).caller = some f' := hg
    rw [hframe] at hg
    split at hg
    · cases hg
    · exact hg

theorem act (h : Kept s canceled) (hinv : Inv s) (hdtors : s.dtors = []) (hact : Frames.act s l = some s') :
    Kept s' (note canceled s l s') := by
  cases l with
  | create args =>
      simp only [Frames.act] at hact
      split at hact
      · split at hact
        · obtain rfl := Option.some.inj hact
          exact h.create hinv hdtors args _
        · cases hact
      · cases hact
  | move t out =>
      simp only [Frames.act] at hact
      split at hact
      · split at hact
        · obtain rfl := Option.some.inj hact
          exact h.moveTask hinv t _
        · cases hact
      · cases hact
  | destroy t =>
      simp only [Frames.act] at hact
      split at hact
      · next htask =>
          obtain rfl := Option.some.inj hact
          exact h.destroyTask hinv htask.2
      · cases hact
  | dtor => cases hact
  | coSpawn t =>
      simp only [Frames.act] at hact
      split at hact
      · next _ f _ hf =>
          obtain rfl := Option.some.inj hact
          exact h.coSpawn hf
      · cases hact
  | awaitTask t =>
      simp only [Frames.act] at hact
      split at hact
      · next f hcontrol =>
          split at hact
          · obtain rfl := Option.some.inj hact
            exact h.awaitTask hinv hcontrol t
          · cases hact
      · cases hact
  | awaitOperation sqe =>
      simp only [Frames.act] at hact
      split at hact
      · next f hcontrol =>
          obtain rfl := Option.some.inj hact
          split
          · exact h.awaitOperation hcontrol
          · exact h
      · cases hact
  | ret =>
      simp only [Frames.act] at hact
      split at hact
      · next f hcontrol =>
          split at hact
          · obtain rfl := Option.some.inj hact
            exact h.finalSuspend hcontrol
          · cases hact
      · cases hact
  | transfer =>
      simp only [Frames.act] at hact
      split at hact
      · next g hcontrol =>
          obtain rfl := Option.some.inj hact
          exact h.transfer_outside hcontrol
      · next g f hcontrol =>
          obtain rfl := Option.some.inj hact
          obtain ⟨-, -, hpoint⟩ := hinv.returned hcontrol
          exact h.transfer hcontrol (by simp [hpoint, Point.suspended])
      · cases hact
  | launch =>
      simp only [Frames.act] at hact
      split at hact
      · next f operations hcontrol hqueue =>
          obtain rfl := Option.some.inj hact
          have hmem : f ∈ s.refers .queue := by simp [State.refers, hqueue]
          exact h.launch hqueue (by simp [(hinv.unstarted hmem rfl).1, Point.suspended]) hcontrol
      · cases hact
  | reap o isCanceled =>
      simp only [Frames.act] at hact
      split at hact
      · next f hcontrol ho =>
          obtain rfl := Option.some.inj hact
          cases isCanceled with
          | true => exact h.cancel o
          | false =>
              have hpoint : (s.frame f).point = .atOperation o :=
                hinv.fitted.fits (.operation o) f (by simp [State.refers, ho])
              exact h.reap ho (by rw [hpoint]; rfl) hcontrol
      · cases hact

theorem step (h : Kept s canceled) (hinv : Inv s) (hstep : Frames.step s l = some s') :
    Kept s' (note canceled s l s') := by
  simp only [Frames.step] at hstep
  split at hstep
  · next hdtors => exact h.act hinv hdtors hstep
  · next t dtors hdtors =>
      split at hstep
      · next hl =>
          obtain rfl := Option.some.inj hstep
          subst hl
          have hnodup := hinv.dtors
          rw [hdtors, List.nodup_cons] at hnodup
          have hinv' : Inv { s with dtors := dtors } := { hinv with
            dtors := hnodup.2
            story := fun g => (hinv.story g).same rfl rfl fun _ => id
            dying := fun t' ht' => hinv.dying t' (hdtors ▸ List.mem_cons_of_mem _ ht') }
          have hkept : Kept { s with dtors := dtors } canceled := ⟨fun g => (h.held g).mono
            ⟨fun t ht => .inl ⟨t, ht⟩, id, id, fun _ hlt hheld => ⟨hlt, hheld⟩, fun _ => id, id⟩, h.ranked⟩
          obtain ⟨x, -, hx, -⟩ := hinv.dying t (hdtors ▸ List.mem_cons_self)
          exact hkept.destroyTask hinv' (by simp [hx])
      · cases hstep

end Kept

theorem reachable_kept {x : State × List Nat} (h : canceling.Reachable x) : Kept x.1 x.2 := by
  refine h.invariant (fun x => Kept x.1 x.2) (fun x hx => ?_) fun x l y hreach hkept _ hstep => ?_
  · obtain ⟨⟨hframe, hnext, -⟩, -⟩ := hx
    refine ⟨fun f => ?_, fun _ => 0, fun f g hfg => ?_⟩
    · rw [hframe]
      intro hlt
      rw [hnext] at hlt
      exact absurd hlt (Nat.not_lt_zero f)
    · rw [State.Awaits, hframe] at hfg
      cases hfg
  · obtain ⟨hstep, hnote⟩ := Machine.observed_step.mp hstep
    rw [hnote]
    exact hkept.step (reachable_frames (Machine.Reachable.fst hreach)) hstep

/-! ## Who is waited for -/

/-- Coroutine `f` awaits coroutine `g`, or was not started and its `Task` is in the frame of `g`. -/
def State.Depends (s : State) (f g : Nat) : Prop :=
  s.Awaits f g ∨ ∃ t x, s.task t = some x ∧ x.handle = some f ∧ (x.place = .variable g ∨ x.place = .parameter g)

/-- The code outside of the coroutines has no `Task` objects left, and `run_once()` has nothing to
resume. -/
structure State.Quiet (s : State) : Prop where
  control : s.control = .outside
  dtors : s.dtors = []
  operations : s.operations = []
  h : ∀ o, s.h o = none
  task : ∀ t x, s.task t = some x → x.place ≠ .outside

theorem State.Depends.of_source (hinv : Inv s) (h : s.Depends f g) :
    (s.frame f).point = .atTask g ∨ (s.frame f).point = .unstarted := by
  rcases h with hawaits | ⟨t, x, hx, hhandle, -⟩
  · have hawaits : (s.frame g).caller = some f := hawaits
    have hpoint : (s.frame f).point = .atTask g := hinv.fitted.fits (.callee g) f (by simp [State.refers, hawaits])
    exact .inl hpoint
  · have hmem : s.handle t = some f := by rw [State.handle, hx]; exact hhandle
    exact .inr (hinv.unstarted (mem_refers_task.mpr hmem) rfl).1

namespace Kept

/-- The coroutine waits for a canceled operation, perhaps through others. -/
def Waits (s : State) (canceled : List Nat) (f : Nat) : Prop :=
  ∃ g, Relation.ReflTransGen s.Depends f g ∧ ∃ o ∈ canceled, (s.frame g).point = .atOperation o

theorem Waits.head (hfg : s.Depends f g) (h : Waits s canceled g) : Waits s canceled f := by
  obtain ⟨g', hgg', hcanceled⟩ := h
  exact ⟨g', .head hfg hgg', hcanceled⟩

/-- A coroutine that was started and has not returned waits for a canceled operation, or for another
such coroutine. -/
theorem started_next (h : Kept s canceled) (hinv : Inv s) (hquiet : s.Quiet)
    (hf : (s.frame f).point.started = true) : (∃ o ∈ canceled, (s.frame f).point = .atOperation o) ∨
      ∃ g, s.Awaits f g ∧ (s.frame g).point.started = true := by
  have hheld := h.held f
  cases hpoint : (s.frame f).point with
  | unstarted => simp [hpoint, Point.started] at hf
  | final => simp [hpoint, Point.started] at hf
  | gone => simp [hpoint, Point.started] at hf
  | running =>
      rw [hpoint] at hheld
      exact absurd (hquiet.control.symm.trans hheld) (by simp)
  | atOperation o =>
      rw [hpoint] at hheld
      exact .inl ⟨o, hheld.2.resolve_left (by simp [hquiet.h]), rfl⟩
  | atTask g =>
      rw [hpoint] at hheld
      have hcaller : (s.frame g).caller = some f := hheld.resolve_right (by simp [hquiet.control])
      refine .inr ⟨g, hcaller, ?_⟩
      have hheld' := h.held g
      cases hpoint' : (s.frame g).point with
      | unstarted =>
          -- the callee would be held as if nobody awaited it
          rw [hpoint'] at hheld'
          rcases hheld' with ⟨t, ht⟩ | hqueue
          · rw [(hinv.unstarted (mem_refers_task.mpr ht) rfl).2] at hcaller
            cases hcaller
          · simp [hquiet.operations] at hqueue
      | gone =>
          have hgone : s.frame g = ⟨.gone, none⟩ := by
            cases hinv.story g with
            | alive hlive _ _ => exact absurd hpoint' hlive
            | _ => assumption
          rw [hgone] at hcaller
          cases hcaller
      | final =>
          rw [hpoint'] at hheld'
          exact absurd hheld' id
      | _ => rfl

theorem started_waits (h : Kept s canceled) (hinv : Inv s) (hquiet : s.Quiet)
    (hf : (s.frame f).point.started = true) : Waits s canceled f := by
  obtain ⟨rank, hrank⟩ := h.ranked
  induction hn : rank f using Nat.strong_induction_on generalizing f with
  | h n ih =>
      rcases h.started_next hinv hquiet hf with hcanceled | ⟨g, hfg, hg⟩
      · exact ⟨f, .refl, hcanceled⟩
      · exact (ih _ (hn ▸ hrank f g hfg) hg rfl).head (.inl hfg)

/-- What was not destroyed waits for a canceled operation. A coroutine that was not started has its
`Task` in the frame of one that was, or is a parameter of a younger one. -/
theorem waits (h : Kept s canceled) (hinv : Inv s) (hplaced : Placed s) (hquiet : s.Quiet)
    (hf : (s.frame f).point ≠ .gone) : Waits s canceled f := by
  induction hn : s.nextFrame - f using Nat.strong_induction_on generalizing f with
  | h n ih =>
      by_cases hstarted : (s.frame f).point.started = true
      · exact h.started_waits hinv hquiet hstarted
      · have hheld := h.held f
        cases hpoint : (s.frame f).point with
        | gone => exact absurd hpoint hf
        | final =>
            rw [hpoint] at hheld
            exact absurd hheld id
        | unstarted =>
            rw [hpoint] at hheld
            rcases hheld with ⟨t, ht⟩ | hqueue
            · obtain ⟨p, hx⟩ := handle_eq_some.mp ht
              cases p with
              | outside => exact absurd rfl (hquiet.task t _ hx)
              | «variable» g =>
                  exact (h.started_waits hinv hquiet (hplaced.locals t _ g hx rfl)).head
                    (.inr ⟨t, _, hx, rfl, .inl rfl⟩)
              | parameter g =>
                  have hg : (s.frame g).point ≠ .gone :=
                    (hplaced.parameters t _ g hx rfl).resolve_right (by simp [hquiet.dtors])
                  have hless := hplaced.older t _ f g hx rfl rfl
                  have hlt : g < s.nextFrame := by
                    by_contra hle
                    exact hg (by rw [(hinv.frames g (Nat.le_of_not_lt hle)).1])
                  exact (ih _ (by omega) hg rfl).head (.inr ⟨t, _, hx, rfl, .inr rfl⟩)
            · simp [hquiet.operations] at hqueue
        | _ => simp [hpoint, Point.started] at hstarted

end Kept

theorem Story.count_destroyed (h : Story s g) : s.log.count (.destroyed g) ≤ 1 := by
  have hcount : s.log.count (.destroyed g) = (s.history g).count (.destroyed g) := by
    rw [State.history, List.count_filter (by simp [Event.about])]
  rw [hcount]
  cases h with
  | alive _ _ hlog =>
      rw [hlog]
      cases (s.frame g).caller <;> simp
  | _ => simp [*]

/-- When nothing is left to be resumed or destroyed, each frame was destroyed exactly once, except those
whose coroutine waits for an operation that was canceled, or awaits, or has its `Task` in the frame of,
a coroutine that does, perhaps through others. -/
theorem frames_freed {x : State × List Nat} (h : canceling.Reachable x) (hquiet : x.1.Quiet)
    (hf : f < x.1.nextFrame) : x.1.log.count (.destroyed f) = 1 ↔
      ¬∃ g, Relation.ReflTransGen x.1.Depends f g ∧ ∃ o ∈ x.2, (x.1.frame g).point = .atOperation o := by
  have hreach := Machine.Reachable.fst h
  have hinv := reachable_frames hreach
  have hkept := reachable_kept h
  have hcount := (hinv.story f).count_destroyed
  have hgone : (x.1.frame f).point = .gone ↔ x.1.log.count (.destroyed f) = 1 := by
    constructor
    · intro hpoint
      have hheld := hkept.held f
      rw [hpoint] at hheld
      have hpos := List.count_pos_iff.mpr (hheld hf)
      omega
    · intro hone
      have hmem : .destroyed f ∈ x.1.log := List.count_pos_iff.mp (by omega)
      rw [(hinv.story f).of_destroyed (mem_history hmem (by simp [Event.about]))]
  rw [← hgone]
  constructor
  · rintro hpoint ⟨g, hwaits, o, -, hg⟩
    cases hwaits using Relation.ReflTransGen.head_induction_on with
    | refl => simp [hpoint] at hg
    | head hdepends _ _ => simpa [hpoint] using hdepends.of_source hinv
  · intro hnone
    by_contra hpoint
    exact hnone (hkept.waits hinv (reachable_placed hreach) hquiet hpoint)

section Freed

/-- Coroutine 0 awaits an operation and returns. Coroutine 1 awaits coroutine 2, which has the `Task`
of coroutine 3 in its frame when its operation is canceled. -/
def canceledRun : List Label :=
  [.create [], .coSpawn 0, .create [], .coSpawn 1, .launch, .awaitOperation true, .launch, .create [], .awaitTask 2,
    .create [], .awaitOperation true, .reap 1 true, .reap 0 false, .ret, .transfer, .destroy 0, .destroy 1]

theorem frames_freed_canceled : ∃ x, canceling.Reachable x ∧ x.1.log.count (.destroyed 0) = 1 ∧
    ∃ g, Relation.ReflTransGen x.1.Depends 3 g ∧ ∃ o ∈ x.2, (x.1.frame g).point = .atOperation o := by
  obtain ⟨x, hx, hcontrol, hdtors, hoperations, hframes, htasks, husers, h0, h1, ht0, ht1, ht2, ht3, hlog⟩ : ∃ x,
      canceling.run (.start, []) canceledRun = some x ∧ x.1.control = .outside ∧ x.1.dtors = [] ∧
      x.1.operations = [] ∧ x.1.nextFrame = 4 ∧ x.1.nextTask = 4 ∧ x.1.nextOperation = 2 ∧ x.1.h 0 = none ∧
      x.1.h 1 = none ∧ x.1.task 0 = none ∧ x.1.task 1 = none ∧ x.1.task 2 = some ⟨none, .variable 1⟩ ∧
      x.1.task 3 = some ⟨some 3, .variable 2⟩ ∧ x.1.log = [.called 1 2, .finished 0, .destroyed 0] :=
    ⟨_, rfl, rfl, rfl, rfl, rfl, rfl, rfl, rfl, rfl, rfl, rfl, rfl, rfl, rfl⟩
  have hreach : canceling.Reachable x := Machine.Reachable.observed init_start hx
  have hinv := reachable_frames (Machine.Reachable.fst hreach)
  have hquiet : x.1.Quiet := by
    refine ⟨hcontrol, hdtors, hoperations, fun o => ?_, fun t y hy => ?_⟩
    · rcases Nat.lt_or_ge o 2 with hlt | hge
      · obtain rfl | rfl : o = 0 ∨ o = 1 := by omega
        · exact h0
        · exact h1
      · exact hinv.users o (husers ▸ hge)
    · rcases Nat.lt_or_ge t 4 with hlt | hge
      · obtain rfl | rfl | rfl | rfl : t = 0 ∨ t = 1 ∨ t = 2 ∨ t = 3 := by omega
        · simp [ht0] at hy
        · simp [ht1] at hy
        · obtain rfl := Option.some.inj (ht2.symm.trans hy)
          simp
        · obtain rfl := Option.some.inj (ht3.symm.trans hy)
          simp
      · rw [hinv.tasks t (htasks ▸ hge)] at hy
        cases hy
  have hlt : 3 < x.1.nextFrame := by
    rw [hframes]
    decide
  refine ⟨x, hreach, by rw [hlog]; decide, ?_⟩
  by_contra hnone
  have hthree := (frames_freed hreach hquiet hlt).mpr hnone
  rw [hlog] at hthree
  exact absurd hthree (by decide)

end Freed

end IoUring.Coroutine.Frames
