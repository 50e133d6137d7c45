import IoUring.Base.Placement
import IoUring.Coroutine.Frames

/-!
# Who refers to a frame

A frame has one reference at most: a `Task`, the queue of the context, an operation, the
promise of a callee, or the thread that executes it. Which of these it is says where the
coroutine is suspended, so nobody resumes or destroys a frame but the one that may.
-/

namespace IoUring.Coroutine.Frames

variable {s s' : State} {l : Label} {f g t o : Nat}

/-- What can refer to a frame. `returning g` is the transfer of `g` to its caller. -/
inductive Ref where
  | task (t : Nat)
  | queue
  | operation (o : Nat)
  | callee (g : Nat)
  | running
  | returning (g : Nat)
  deriving DecidableEq

/-- Where the coroutine is that is referred to. -/
def Ref.point : Ref → Point
  | .task _ => .unstarted
  | .queue => .unstarted
  | .operation o => .atOperation o
  | .callee g => .atTask g
  | .running => .running
  | .returning g => .atTask g

def Control.refers : Control → Ref → List Nat
  | .running f, .running => [f]
  | .returning g (some f), .returning g' => if g' = g then [f] else []
  | _, _ => []

def State.refers (s : State) : Ref → List Nat
  | .task t => (s.handle t).toList
  | .queue => s.operations
  | .operation o => (s.h o).toList
  | .callee g => (s.frame g).caller.toList
  | .running => s.control.refers .running
  | .returning g => s.control.refers (.returning g)

/-- The event is about this frame, and not only about its caller. -/
def Event.about (g : Nat) : Event → Bool
  | .called _ callee => callee == g
  | .finished f => f == g
  | .destroyed f => f == g
  | .resumed _ callee => callee == g

def State.history (s : State) (g : Nat) : List Event :=
  s.log.filter (Event.about g)

/-- A frame and what has happened to it. -/
inductive Story (s : State) (g : Nat) : Prop
  | new (hframe : s.frame g = ⟨.gone, none⟩) (hlog : s.history g = [])
  | alive (hgone : (s.frame g).point ≠ .gone) (hfinal : (s.frame g).point ≠ .final)
      (hlog : s.history g = ((s.frame g).caller.map (Event.called · g)).toList)
  | unused (hframe : s.frame g = ⟨.gone, none⟩) (hlog : s.history g = [.destroyed g])
  | ended (hframe : s.frame g = ⟨.gone, none⟩) (hlog : s.history g = [.finished g, .destroyed g])
  | returning {f : Nat} (hframe : s.frame g = ⟨.gone, none⟩) (hcontrol : s.control = .returning g (some f))
      (hlog : s.history g = [.called f g, .finished g, .destroyed g])
  | returned {f : Nat} (hframe : s.frame g = ⟨.gone, none⟩)
      (hlog : s.history g = [.called f g, .finished g, .destroyed g, .resumed f g])

structure Inv (s : State) : Prop where
  fault : s.fault = false
  fitted : Fitted Ref.point (fun f => (s.frame f).point) s.refers
  idle : ∀ r f, f ∈ s.refers r → r.point = .unstarted → (s.frame f).caller = none
  frames : ∀ f, s.nextFrame ≤ f → s.frame f = ⟨.gone, none⟩ ∧ s.history f = []
  tasks : ∀ t, s.nextTask ≤ t → s.task t = none
  users : ∀ o, s.nextOperation ≤ o → s.h o = none
  story : ∀ g, Story s g
  returning : ∀ g f, s.control = .returning g (some f) →
    s.history g = [.called f g, .finished g, .destroyed g]
  dtors : s.dtors.Nodup
  dying : ∀ t ∈ s.dtors, ∃ x f, s.task t = some x ∧ x.place = .parameter f ∧
    (s.frame f).point = .gone

/-- Nobody refers to the frame. -/
def State.Free (s : State) (f : Nat) : Prop :=
  ∀ r, f ∉ s.refers r

theorem Story.same (h : Story s g) (hframe : s'.frame g = s.frame g)
    (hlog : s'.history g = s.history g)
    (hcontrol : ∀ f, s.control = .returning g (some f) → s'.control = .returning g (some f)) :
    Story s' g := by
  cases h with
  | new hgone hnil => exact .new (hframe.trans hgone) (hlog.trans hnil)
  | alive hgone hfinal hcalled =>
      exact .alive (by rwa [hframe]) (by rwa [hframe]) (by rw [hlog, hframe, hcalled])
  | unused hgone hdestroyed => exact .unused (hframe.trans hgone) (hlog.trans hdestroyed)
  | ended hgone hended => exact .ended (hframe.trans hgone) (hlog.trans hended)
  | returning hgone hreturning hended =>
      exact .returning (hframe.trans hgone) (hcontrol _ hreturning) (hlog.trans hended)
  | returned hgone hreturned => exact .returned (hframe.trans hgone) (hlog.trans hreturned)

theorem Story.of_alive (h : Story s g) (hgone : (s.frame g).point ≠ .gone) :
    s.history g = ((s.frame g).caller.map (Event.called · g)).toList := by
  cases h with
  | alive _ _ hlog => exact hlog
  | new hframe _ => simp [hframe] at hgone
  | unused hframe _ => simp [hframe] at hgone
  | ended hframe _ => simp [hframe] at hgone
  | returning hframe _ _ => simp [hframe] at hgone
  | returned hframe _ => simp [hframe] at hgone

theorem Story.of_caller_none (h : Story s g) (hgone : (s.frame g).point ≠ .gone)
    (hcaller : (s.frame g).caller = none) : s.history g = [] := by
  rw [h.of_alive hgone, hcaller]
  rfl

/-- A coroutine goes on or is suspended. -/
theorem Story.moved (h : Story s g) (hgone : (s.frame g).point ≠ .gone) {p : Point}
    (hframe : s'.frame g = { s.frame g with point := p }) (hp : p ≠ .gone) (hp' : p ≠ .final)
    (hlog : s'.history g = s.history g) : Story s' g := by
  refine .alive ?_ ?_ ?_
  · rwa [hframe]
  · rwa [hframe]
  · rw [hlog, h.of_alive hgone, hframe]

theorem history_append {e : Event} (h : e.about g = true) (log : List Event) :
    (log ++ [e]).filter (Event.about g) = log.filter (Event.about g) ++ [e] := by
  simp [List.filter_append, h]

theorem history_append_of_ne {e : Event} (h : e.about g = false) (log : List Event) :
    (log ++ [e]).filter (Event.about g) = log.filter (Event.about g) := by
  simp [List.filter_append, h]

/-! ## What a change of the state refers to -/

@[simp] theorem refers_setTask (s : State) (t : Nat) (x : Option Task) (r : Ref) :
    (s.setTask t x).refers r =
      if r = .task t then (x.bind Task.handle).toList else s.refers r := by
  cases r with
  | task t' =>
      by_cases ht : t' = t
      · simp [State.refers, State.handle, State.setTask, ht]
      · simp [State.refers, State.handle, State.setTask, ht]
  | _ => rfl

@[simp] theorem refers_setFrame (s : State) (f : Nat) (x : Frame) (r : Ref) :
    (s.setFrame f x).refers r = if r = .callee f then x.caller.toList else s.refers r := by
  cases r with
  | callee g =>
      by_cases hg : g = f
      · simp [State.refers, State.setFrame, hg]
      · simp [State.refers, State.setFrame, hg]
  | _ => rfl

@[simp] theorem frame_setFrame (s : State) (f g : Nat) (x : Frame) :
    (s.setFrame f x).frame g = if g = f then x else s.frame g := by
  simp [State.setFrame, Function.update_apply]

@[simp] theorem refers_setPoint (s : State) (f : Nat) (p : Point) : (s.setPoint f p).refers = s.refers := by
  funext r
  rw [State.setPoint, refers_setFrame]
  split
  · next hr => rw [hr]; rfl
  · rfl

@[simp] theorem point_setPoint (s : State) (f g : Nat) (p : Point) :
    ((s.setPoint f p).frame g).point = if g = f then p else (s.frame g).point := by
  rw [State.setPoint, frame_setFrame]
  split <;> rfl

@[simp] theorem caller_setPoint (s : State) (f g : Nat) (p : Point) :
    ((s.setPoint f p).frame g).caller = (s.frame g).caller := by
  rw [State.setPoint, frame_setFrame]
  split
  · next hg => rw [hg]
  · rfl

theorem frame_setPoint_self (s : State) (f : Nat) (p : Point) :
    (s.setPoint f p).frame f = { s.frame f with point := p } := by
  rw [State.setPoint, frame_setFrame, if_pos rfl]

theorem frame_setPoint_of_gone (p : Point) (hf : (s.frame f).point ≠ .gone)
    (hg : (s.frame g).point = .gone) : (s.setPoint f p).frame g = s.frame g := by
  rw [State.setPoint, frame_setFrame, if_neg]
  rintro rfl
  exact hf hg

theorem frame_setPoint_of_ne (s : State) (p : Point) (h : g ≠ f) :
    (s.setPoint f p).frame g = s.frame g := by
  rw [State.setPoint, frame_setFrame, if_neg h]

theorem mem_refers_task : f ∈ s.refers (.task t) ↔ s.handle t = some f := by
  simp [State.refers]

theorem handle_eq_some : s.handle t = some f ↔ ∃ p, s.task t = some ⟨some f, p⟩ := by
  cases h : s.task t with
  | none => simp [State.handle, h]
  | some x =>
      obtain ⟨handle, p⟩ := x
      simp [State.handle, h]

theorem resume_eq (h : (s.frame f).point.suspended = true) : s.resume f =
    { s.setPoint f .running with control := .running f } :=
  if_pos h

theorem destroy_eq (h : (s.frame f).point.suspended = true ∨ (s.frame f).point = .final) :
    s.destroy f = { s.setFrame f ⟨.gone, none⟩ with
      dtors := s.parameters f ++ s.dtors
      log := s.log ++ [.destroyed f] } :=
  if_pos h

theorem mem_parameters : t ∈ s.parameters f ↔
    t < s.nextTask ∧ ∃ x, s.task t = some x ∧ x.place = .parameter f := by
  simp [State.parameters]

namespace Inv

/-- What holds of the frames that do not exist, and of the destructors that are to be executed, does
not depend on the other frames. -/
theorem frames_kept (h : Inv s) (hgone : ∀ g, (s.frame g).point = .gone → s'.frame g = s.frame g)
    (hlog : ∀ g, (s.frame g).point = .gone → s'.history g = s.history g) :
    ∀ g, s.nextFrame ≤ g → s'.frame g = ⟨.gone, none⟩ ∧ s'.history g = [] := by
  intro g hg
  obtain ⟨hframe, hnil⟩ := h.frames g hg
  have hpoint : (s.frame g).point = .gone := by rw [hframe]
  exact ⟨(hgone g hpoint).trans hframe, (hlog g hpoint).trans hnil⟩

theorem dying_kept (h : Inv s) (hgone : ∀ g, (s.frame g).point = .gone → s'.frame g = s.frame g)
    (htask : s'.task = s.task) : ∀ t ∈ s.dtors, ∃ x f, s'.task t = some x ∧
      x.place = .parameter f ∧ (s'.frame f).point = .gone := by
  intro t ht
  obtain ⟨x, f, hx, hplace, hpoint⟩ := h.dying t ht
  exact ⟨x, f, by rw [htask, hx], hplace, by rw [hgone f hpoint, hpoint]⟩

/-! ## References that are given up -/

/-- A `Task` object without a handle. -/
theorem giveUp (h : Inv s) {x : Option Task} (hx : x.bind Task.handle = none)
    (hdying : t ∈ s.dtors → x.map Task.place = (s.task t).map Task.place)
    (htask : s.task t = none → x = none) :
    Inv (s.setTask t x) ∧ ∀ f, s.handle t = some f → (s.setTask t x).Free f := by
  have hrefers : ∀ r, r ≠ .task t → (s.setTask t x).refers r = s.refers r :=
    fun r hr => by rw [refers_setTask, if_neg hr]
  have hnil : (s.setTask t x).refers (.task t) = [] := by rw [refers_setTask, if_pos rfl, hx]; rfl
  have hfitted : Fitted Ref.point (fun f => (s.frame f).point) (s.setTask t x).refers ∧
      ∀ f, s.handle t = some f → (s.setTask t x).Free f := by
    cases hhandle : s.handle t with
    | none =>
        have hsame : (s.setTask t x).refers = s.refers := by
          funext r
          by_cases hr : r = .task t
          · rw [hr, hnil]
            simp [State.refers, hhandle]
          · exact hrefers r hr
        exact ⟨hsame ▸ h.fitted, by simp⟩
    | some f =>
        obtain ⟨hfitted, hfree⟩ := h.fitted.remove (n := f) (p := .task t)
          (s.setTask t x).refers (fun f => (s.frame f).point)
          (by rw [hnil]; simp [State.refers, hhandle]) hrefers fun _ _ => rfl
        refine ⟨hfitted, fun g hg => ?_⟩
        obtain rfl := Option.some.inj hg
        exact hfree
  refine ⟨{ h with
    fitted := hfitted.1
    idle := fun r f hf => ?_
    tasks := fun t' ht' => ?_
    story := fun g => (h.story g).same rfl rfl fun _ => id
    dying := fun t' ht' => ?_ }, hfitted.2⟩
  · by_cases hr : r = .task t
    · rw [hr, hnil] at hf
      cases hf
    · rw [hrefers r hr] at hf
      exact h.idle r f hf
  · by_cases htt : t' = t
    · subst htt
      simpa [State.setTask] using htask (h.tasks t' ht')
    · simpa [State.setTask, htt] using h.tasks t' ht'
  · obtain ⟨y, f, hy, hplace, hgone⟩ := h.dying t' ht'
    by_cases htt : t' = t
    · subst htt
      have hmap := hdying ht'
      rw [hy, Option.map_some, Option.map_eq_some_iff] at hmap
      obtain ⟨x', rfl, hx'⟩ := hmap
      exact ⟨x', f, by simp [State.setTask], hx'.trans hplace, hgone⟩
    · exact ⟨y, f, by simpa [State.setTask, htt] using hy, hplace, hgone⟩

theorem detach (h : Inv s) (t : Nat) :
    Inv (s.detach t) ∧ ∀ f, s.handle t = some f → (s.detach t).Free f := by
  refine h.giveUp ?_ (fun _ => ?_) fun hnone => ?_
  · cases s.task t <;> rfl
  · cases s.task t <;> rfl
  · rw [hnone]
    rfl

/-- The front of the queue is taken. -/
theorem pop (h : Inv s) {operations : List Nat} (hqueue : s.operations = f :: operations) :
    Inv { s with operations := operations } ∧ State.Free { s with operations := operations } f := by
  obtain ⟨hfitted, hfree⟩ := h.fitted.remove (n := f) (p := .queue)
    (State.refers { s with operations := operations }) (fun f => (s.frame f).point)
    (by simp [State.refers, hqueue]) (fun r hr => by cases r <;> first | rfl | exact absurd rfl hr)
    fun _ _ => rfl
  refine ⟨{ h with
    fitted := hfitted
    idle := fun r g hg => h.idle r g ?_
    story := fun g => (h.story g).same rfl rfl fun _ => id }, hfree⟩
  cases r with
  | queue =>
      have hmem : g ∈ s.operations := by
        rw [hqueue]
        exact List.mem_cons_of_mem _ hg
      exact hmem
  | _ => exact hg

/-- The CQE of an operation is reaped. -/
theorem reap (h : Inv s) (ho : s.h o = some f) :
    Inv { s with h := Function.update s.h o none } ∧
      State.Free { s with h := Function.update s.h o none } f := by
  have hrefers : ∀ r, r ≠ .operation o →
      State.refers { s with h := Function.update s.h o none } r = s.refers r := by
    intro r hr
    cases r with
    | operation o' =>
        have hne : o' ≠ o := fun heq => hr (heq ▸ rfl)
        simp [State.refers, hne]
    | _ => rfl
  have hnil : State.refers { s with h := Function.update s.h o none } (.operation o) = [] := by
    simp [State.refers]
  obtain ⟨hfitted, hfree⟩ := h.fitted.remove (n := f) (p := .operation o)
    (State.refers { s with h := Function.update s.h o none }) (fun f => (s.frame f).point)
    (by rw [hnil]; simp [State.refers, ho]) hrefers fun _ _ => rfl
  refine ⟨{ h with
    fitted := hfitted
    idle := fun r g hg => ?_
    users := fun o' ho' => ?_
    story := fun g => (h.story g).same rfl rfl fun _ => id }, hfree⟩
  · by_cases hr : r = .operation o
    · rw [hr, hnil] at hg
      cases hg
    · rw [hrefers r hr] at hg
      exact h.idle r g hg
  · by_cases hoo : o' = o
    · simp [hoo]
    · simpa [hoo] using h.users o' ho'

/-- What a reference from a `Task` or from the queue says. -/
theorem unstarted (h : Inv s) {r : Ref} (hf : f ∈ s.refers r) (hr : r.point = .unstarted) :
    (s.frame f).point = .unstarted ∧ (s.frame f).caller = none :=
  ⟨(h.fitted.fits r f hf).trans hr, h.idle r f hf hr⟩

/-! ## References that are made -/

theorem newTask (h : Inv s) {x : Task} (hx : ∀ f, x.handle = some f →
    s.Free f ∧ (s.frame f).point = .unstarted ∧ (s.frame f).caller = none) : Inv (s.newTask x) := by
  have hold : s.task s.nextTask = none := h.tasks _ (Nat.le_refl _)
  have hrefers : ∀ r, (s.newTask x).refers r =
      if r = .task s.nextTask then x.handle.toList else s.refers r := fun r =>
    refers_setTask s s.nextTask (some x) r
  have hempty : s.refers (.task s.nextTask) = [] := by simp [State.refers, State.handle, hold]
  have hfitted : Fitted Ref.point (fun f => (s.frame f).point) (s.newTask x).refers := by
    cases hhandle : x.handle with
    | none =>
        have hsame : (s.newTask x).refers = s.refers := by
          funext r
          rw [hrefers, hhandle]
          split
          · next hr => rw [hr, hempty]; rfl
          · rfl
        exact hsame ▸ h.fitted
    | some f =>
        obtain ⟨hfree, hpoint, -⟩ := hx f hhandle
        have hfit : (s.frame f).point = Ref.point (.task s.nextTask) := hpoint
        refine h.fitted.add hfree ?_ (fun r hr => ?_) hfit fun _ _ => rfl
        · rw [hrefers, if_pos rfl, hempty, hhandle]
          rfl
        · rw [hrefers, if_neg hr]
  refine { h with
    fitted := hfitted
    idle := fun r f hf hr => ?_
    tasks := fun t ht => ?_
    story := fun g => (h.story g).same rfl rfl fun _ => id
    dying := fun t ht => ?_ }
  · rw [hrefers] at hf
    split at hf
    · exact (hx f (by simpa using hf)).2.2
    · exact h.idle r f hf hr
  · have ht : s.nextTask + 1 ≤ t := ht
    have hne : t ≠ s.nextTask := by omega
    simpa [State.newTask, State.setTask, hne] using h.tasks t (by omega)
  · obtain ⟨y, f, hy, hplace⟩ := h.dying t ht
    have hne : t ≠ s.nextTask := by
      rintro rfl
      simp [hold] at hy
    exact ⟨y, f, by simpa [State.newTask, State.setTask, hne] using hy, hplace⟩

theorem moveTask (h : Inv s) (t : Nat) (p : Place) : Inv (s.moveTask t p) := by
  obtain ⟨hinv, hfree⟩ := h.detach t
  refine hinv.newTask fun f hf => ⟨hfree f hf, h.unstarted (mem_refers_task.mpr hf) rfl⟩

/-- `co_spawn`. -/
theorem coSpawn (h : Inv s) (hf : s.handle t = some f) :
    Inv { s.detach t with operations := s.operations ++ [f] } := by
  obtain ⟨hinv, hfree⟩ := h.detach t
  obtain ⟨hpoint, hcaller⟩ := h.unstarted (mem_refers_task.mpr hf) rfl
  have hfit : (s.frame f).point = Ref.point .queue := hpoint
  have hqueue : (State.refers { s.detach t with operations := s.operations ++ [f] } .queue).Perm
      (f :: (s.detach t).refers .queue) := List.perm_append_singleton f s.operations
  have hrest : ∀ r, r ≠ .queue →
      State.refers { s.detach t with operations := s.operations ++ [f] } r = (s.detach t).refers r :=
    fun r hr => by cases r <;> first | rfl | exact absurd rfl hr
  refine { hinv with
    fitted := hinv.fitted.add (hfree f hf) hqueue hrest hfit fun _ _ => rfl
    idle := fun r g hg hr => ?_
    story := fun g => (hinv.story g).same rfl rfl fun _ => id }
  by_cases hr' : r = .queue
  · subst hr'
    rcases List.mem_cons.mp (hqueue.mem_iff.mp hg) with rfl | hg
    · exact hcaller
    · exact hinv.idle .queue g hg rfl
  · rw [hrest r hr'] at hg
    exact hinv.idle r g hg hr

/-- A call of a coroutine makes a frame and its `Task`. -/
theorem newCoroutine (h : Inv s) (hdtors : s.dtors = []) (p : Place) : Inv (s.newCoroutine p) := by
  obtain ⟨hframe, hlog⟩ := h.frames s.nextFrame (Nat.le_refl _)
  have hfree : s.Free s.nextFrame := fun r hr => by
    have hpoint := h.fitted.fits r _ hr
    simp only [hframe] at hpoint
    cases r <;> cases hpoint
  -- first the frame, to which nobody refers
  have hrefers : ∀ r, (s.setFrame s.nextFrame ⟨.unstarted, none⟩).refers r = s.refers r := by
    intro r
    rw [refers_setFrame]
    split
    · next hr => simp [hr, State.refers, hframe]
    · rfl
  have hfitted := h.fitted.of_free (fun f =>
    ((s.setFrame s.nextFrame ⟨.unstarted, none⟩).frame f).point) hfree hrefers fun f hf => by
      rw [frame_setFrame, if_neg hf]
  have hinv : Inv { s.setFrame s.nextFrame ⟨.unstarted, none⟩ with nextFrame := s.nextFrame + 1 } := {
    h with
    fitted := hfitted
    idle := fun r f hf hr => ?_
    frames := fun f hf => ?_
    story := fun g => ?_
    dying := by simp [State.setFrame, hdtors] }
  · exact hinv.newTask fun f hf => by
      obtain rfl : s.nextFrame = f := by simpa using hf
      refine ⟨fun r hr => hfree r (hrefers r ▸ hr), ?_, ?_⟩
      · simp [State.setFrame]
      · simp [State.setFrame]
  · have hf : f ∈ s.refers r := hrefers r ▸ hf
    have hne : f ≠ s.nextFrame := fun heq => hfree r (heq ▸ hf)
    simpa [State.setFrame, hne] using h.idle r f hf hr
  · have hf : s.nextFrame + 1 ≤ f := hf
    have hne : f ≠ s.nextFrame := by omega
    obtain ⟨hgone, hnil⟩ := h.frames f (by omega)
    exact ⟨by simpa [State.setFrame, hne] using hgone, hnil⟩
  · by_cases hg : g = s.nextFrame
    · subst hg
      refine .alive ?_ ?_ (hlog.trans ?_)
      · simp [State.setFrame]
      · simp [State.setFrame]
      · simp [State.setFrame]
    · exact (h.story g).same (by simp [State.setFrame, hg]) rfl fun _ => id

theorem create (h : Inv s) (hdtors : s.dtors = []) (args : List Nat) (p : Place) :
    Inv (s.create args p) := by
  have hargs : ∀ (args : List Nat) (s' : State), Inv s' →
      Inv (args.foldl (fun s' t => s'.moveTask t (.parameter s.nextFrame)) s') := by
    intro args
    induction args with
    | nil => exact fun _ h => h
    | cons t args ih => exact fun s' h => ih _ (h.moveTask t _)
  exact hargs args _ (h.newCoroutine hdtors p)

/-! ## Coroutines that are resumed and suspended -/

/-- Nobody executes, and nobody refers to a coroutine that is suspended. -/
theorem resume (h : Inv s) (hfree : s.Free f) (hsuspended : (s.frame f).point.suspended = true)
    (hcontrol : s.control = .outside) : Inv (s.resume f) := by
  rw [resume_eq hsuspended]
  have hlive : (s.frame f).point ≠ .gone := fun heq => by simp [heq, Point.suspended] at hsuspended
  have hrest : ∀ r, r ≠ .running → State.refers
      { s.setPoint f .running with control := .running f } r = s.refers r := by
    intro r hr
    rw [← refers_setPoint s f .running]
    cases r with
    | running => exact absurd rfl hr
    | returning g => simp [State.refers, Control.refers, State.setPoint, State.setFrame, hcontrol]
    | _ => rfl
  have hrunning : s.refers .running = [] := by simp [State.refers, Control.refers, hcontrol]
  have hgone := fun g => frame_setPoint_of_gone (s := s) (f := f) (g := g) .running hlive
  refine { h with
    fitted := h.fitted.add (n := f) (q := .running) hfree ?_ hrest ?_ fun g hg => ?_
    idle := fun r g hg hr => ?_
    frames := h.frames_kept hgone fun _ _ => rfl
    story := fun g => ?_
    returning := fun g f' hf' => by cases hf'
    dying := h.dying_kept hgone rfl }
  · rw [hrunning]
    exact .refl _
  · simp [Ref.point]
  · simp [hg]
  · have hne : r ≠ .running := by rintro rfl; cases hr
    rw [hrest r hne] at hg
    exact (caller_setPoint s f g .running).trans (h.idle r g hg hr)
  · by_cases hg : g = f
    · subst hg
      exact (h.story g).moved hlive (frame_setPoint_self s g .running) (by simp) (by simp) rfl
    · refine (h.story g).same (frame_setPoint_of_ne s .running hg) rfl fun f' hf' => ?_
      simp [hcontrol] at hf'

/-- What holds of the point at which nobody refers to a frame. -/
theorem free_of_point (h : Inv s) (hf : ∀ r : Ref, r.point ≠ (s.frame f).point) : s.Free f :=
  fun r hr => hf r (h.fitted.fits r f hr).symm

theorem control_of_running (h : Inv s) (hcontrol : s.control = .running f) :
    (s.frame f).point = .running :=
  h.fitted.fits .running f (by simp [State.refers, Control.refers, hcontrol])

/-- A coroutine waits for a `Task` that nobody else refers to. -/
theorem push (h : Inv s) (hcontrol : s.control = .running f) (hfree : s.Free g)
    (hpoint : (s.frame g).point = .unstarted) (hcaller : (s.frame g).caller = none) :
    Inv (s.push f g) ∧ (s.push f g).Free g ∧ ((s.push f g).frame g).point = .unstarted := by
  have hrunning := h.control_of_running hcontrol
  have hgf : g ≠ f := by
    rintro rfl
    simp [hpoint] at hrunning
  have hframe : ∀ g', (s.push f g).frame g' = if g' = g then { s.frame g with caller := some f } else
      if g' = f then { s.frame f with point := .atTask g } else s.frame g' := by
    intro g'
    simp only [State.push, frame_setFrame, State.setPoint, if_neg hgf]
  have hrefers : ∀ r, (s.push f g).refers r =
      if r = .callee g then [f] else if r = .running then [] else s.refers r := by
    intro r
    cases r with
    | callee g' => 
        simp only [State.refers, hframe]
        split
        · next hg => simp [hg]
        · next hg =>
            split
            · next hf => simp [hf, Ne.symm hgf]
            · simp [hg]
    | running => rfl
    | returning g' => simp [State.refers, State.push, Control.refers, hcontrol]
    | _ => rfl
  have hmoves : Moves s.refers (s.push f g).refers .running (.callee g) f := {
    ne := by simp
    source := by rw [hrefers]; simp [State.refers, Control.refers, hcontrol]
    target := by rw [hrefers]; simp [State.refers, hcaller]
    rest := fun r hr hr' => by rw [hrefers, if_neg hr', if_neg hr] }
  have hlog : ∀ g', g' ≠ g → (s.push f g).history g' = s.history g' := fun g' hg' =>
    history_append_of_ne (by simpa [Event.about] using Ne.symm hg') s.log
  have hlive : ∀ g', g' = g ∨ g' = f → (s.frame g').point ≠ .gone := by
    rintro g' (rfl | rfl)
    · simp [hpoint]
    · simp [hrunning]
  have hother : ∀ g', (s.frame g').point = .gone → (s.push f g).frame g' = s.frame g' := by
    intro g' hgone
    rw [hframe, if_neg fun hg => hlive g' (.inl hg) hgone, if_neg fun hf => hlive g' (.inr hf) hgone]
  refine ⟨{
    fault := h.fault
    fitted := h.fitted.move hmoves ?_ fun g' hg' => ?_
    idle := fun r g' hg' hr => ?_
    frames := h.frames_kept hother fun g' hgone => hlog g' fun hg => hlive g' (.inl hg) hgone
    tasks := h.tasks
    users := h.users
    story := fun g' => ?_
    returning := fun _ _ hreturning => by cases hreturning
    dtors := h.dtors
    dying := h.dying_kept hother rfl }, fun r => ?_, ?_⟩
  · simp [hframe, Ne.symm hgf, Ref.point]
  · rw [hframe, if_neg hg']
    split
    · next hg => rw [hg]
    · rfl
  · rw [hrefers] at hg'
    split at hg'
    · next hcallee => simp [hcallee, Ref.point] at hr
    · split at hg'
      · cases hg'
      · have hne : g' ≠ g := fun heq => hfree r (heq ▸ hg')
        rw [hframe, if_neg hne]
        split
        · next hf => exact hf ▸ h.idle r g' hg' hr
        · exact h.idle r g' hg' hr
  · by_cases hg : g' = g
    · subst hg
      have hnil := (h.story g').of_caller_none (hlive g' (.inl rfl)) hcaller
      refine .alive ?_ ?_ ?_
      · simp [hframe, hpoint]
      · simp [hframe, hpoint]
      · have hcalled : (s.push f g').history g' = s.history g' ++ [.called f g'] :=
          history_append (by simp [Event.about]) s.log
        rw [hcalled, hnil, hframe, if_pos rfl]
        rfl
    · by_cases hf : g' = f
      · subst hf
        have hmoved : (s.push g' g).frame g' = { s.frame g' with point := .atTask g } := by
          rw [hframe, if_neg hg, if_pos rfl]
        exact (h.story g').moved (hlive g' (.inr rfl)) hmoved (by simp) (by simp) (hlog g' hg)
      · refine (h.story g').same ?_ (hlog g' hg) fun f' hf' => ?_
        · rw [hframe, if_neg hg, if_neg hf]
        · simp [hcontrol] at hf'
  · rw [hrefers]
    split
    · simpa using hgf
    · split
      · exact List.not_mem_nil
      · exact hfree r
  · simp [hframe, hpoint]

/-- A coroutine waits for an operation. -/
theorem awaitOperation (h : Inv s) (hcontrol : s.control = .running f) :
    Inv (s.awaitOperation f) := by
  have hrunning := h.control_of_running hcontrol
  have hold : s.h s.nextOperation = none := h.users _ (Nat.le_refl _)
  have hrefers : ∀ r, (s.awaitOperation f).refers r =
      if r = .operation s.nextOperation then [f] else if r = .running then [] else s.refers r := by
    intro r
    rw [← refers_setPoint s f (.atOperation s.nextOperation)]
    cases r with
    | operation o =>
        by_cases ho : o = s.nextOperation
        · simp [State.refers, State.awaitOperation, ho]
        · simp [State.refers, State.awaitOperation, State.setPoint, State.setFrame, ho]
    | running => rfl
    | returning g =>
        simp [State.refers, State.awaitOperation, Control.refers, State.setPoint, State.setFrame, hcontrol]
    | _ => rfl
  have hmoves : Moves s.refers (s.awaitOperation f).refers .running (.operation s.nextOperation) f := {
    ne := by simp
    source := by rw [hrefers]; simp [State.refers, Control.refers, hcontrol]
    target := by rw [hrefers]; simp [State.refers, hold]
    rest := fun r hr hr' => by rw [hrefers, if_neg hr', if_neg hr] }
  have hlive : (s.frame f).point ≠ .gone := by simp [hrunning]
  have hgone := fun g =>
    frame_setPoint_of_gone (s := s) (f := f) (g := g) (.atOperation s.nextOperation) hlive
  refine {
    fault := h.fault
    fitted := h.fitted.move hmoves ?_ fun g hg => ?_
    idle := fun r g hg hr => ?_
    frames := h.frames_kept hgone fun _ _ => rfl
    tasks := h.tasks
    users := fun o ho => ?_
    story := fun g => ?_
    returning := fun _ _ hreturning => by cases hreturning
    dtors := h.dtors
    dying := h.dying_kept hgone rfl }
  · exact (point_setPoint s f f _).trans (if_pos rfl)
  · exact (point_setPoint s f g _).trans (if_neg hg)
  · rw [hrefers] at hg
    split at hg
    · next ho => simp [ho, Ref.point] at hr
    · split at hg
      · cases hg
      · exact (caller_setPoint s f g _).trans (h.idle r g hg hr)
  · have ho : s.nextOperation + 1 ≤ o := ho
    have hne : o ≠ s.nextOperation := by omega
    exact (Function.update_of_ne hne _ _).trans (h.users o (by omega))
  · by_cases hg : g = f
    · subst hg
      exact (h.story g).moved hlive (frame_setPoint_self s g _) (by simp) (by simp) rfl
    · refine (h.story g).same (frame_setPoint_of_ne s _ hg) rfl fun f' hf' => ?_
      simp [hcontrol] at hf'

/-- A coroutine has returned to its caller, which is suspended. -/
theorem returned (h : Inv s) (hcontrol : s.control = .returning g (some f)) :
    Inv { s with control := .outside, log := s.log ++ [.resumed f g] } ∧
      State.Free { s with control := .outside, log := s.log ++ [.resumed f g] } f ∧
      (s.frame f).point = .atTask g := by
  have hmem : f ∈ s.refers (.returning g) := by simp [State.refers, Control.refers, hcontrol]
  have hrest : ∀ r, r ≠ .returning g →
      State.refers { s with control := .outside, log := s.log ++ [.resumed f g] } r = s.refers r := by
    intro r hr
    cases r with
    | running => simp [State.refers, Control.refers, hcontrol]
    | returning g' =>
        have hne : g' ≠ g := fun heq => hr (heq ▸ rfl)
        simp [State.refers, Control.refers, hcontrol, hne]
    | _ => rfl
  obtain ⟨hfitted, hfree⟩ := h.fitted.remove (n := f) (p := .returning g)
    (State.refers { s with control := .outside, log := s.log ++ [.resumed f g] })
    (fun f => (s.frame f).point)
    (by simp [State.refers, Control.refers, hcontrol]) hrest fun _ _ => rfl
  have hlog : ∀ g', g' ≠ g → (s.log ++ [Event.resumed f g]).filter (Event.about g') = s.history g' :=
    fun g' hg' => history_append_of_ne (by simpa [Event.about] using Ne.symm hg') s.log
  have hhistory := h.returning g f hcontrol
  have hlog' : (s.log ++ [Event.resumed f g]).filter (Event.about g) =
      [.called f g, .finished g, .destroyed g, .resumed f g] := by
    rw [history_append (by simp [Event.about]), ← State.history, hhistory]
    rfl
  have hframe : s.frame g = ⟨.gone, none⟩ := by
    cases h.story g with
    | alive _ _ hcalled =>
        rw [hhistory] at hcalled
        cases hcaller : (s.frame g).caller <;> simp [hcaller] at hcalled
    | _ => assumption
  refine ⟨{ h with
    fitted := hfitted
    idle := fun r g' hg' hr => ?_
    frames := fun g' hg' => ?_
    story := fun g' => ?_
    returning := fun _ _ hreturning => by cases hreturning }, hfree, h.fitted.fits _ f hmem⟩
  · have hne : r ≠ .returning g := by rintro rfl; cases hr
    exact h.idle r g' (hrest r hne ▸ hg') hr
  · obtain ⟨hgone, hnil⟩ := h.frames g' hg'
    refine ⟨hgone, (hlog g' ?_).trans hnil⟩
    rintro rfl
    simp [hhistory] at hnil
  · by_cases hg : g' = g
    · subst hg
      exact .returned hframe hlog'
    · refine (h.story g').same rfl (hlog g' hg) fun f' hf' => ?_
      rw [hcontrol, Control.returning.injEq] at hf'
      exact absurd hf'.1.symm hg

/-- A coroutine without a caller has returned. -/
theorem returned_outside (h : Inv s) (hcontrol : s.control = .returning g none) :
    Inv { s with control := .outside } := by
  have hrefers : State.refers { s with control := .outside } = s.refers := by
    funext r
    cases r with
    | running => simp [State.refers, Control.refers, hcontrol]
    | returning g' => simp [State.refers, Control.refers, hcontrol]
    | _ => rfl
  exact { h with
    fitted := hrefers ▸ h.fitted
    idle := fun r f hf => h.idle r f (hrefers ▸ hf)
    story := fun g' => (h.story g').same rfl rfl fun f hf => by simp [hcontrol] at hf
    returning := fun _ _ hreturning => by cases hreturning }

/-! ## Frames that are destroyed -/

/-- The parameters of a destroyed frame are destroyed next, each once. -/
theorem dtors_destroy (h : Inv s) (hpoint : (s.frame f).point ≠ .gone) :
    (s.parameters f ++ s.dtors).Nodup ∧ ∀ t ∈ s.parameters f ++ s.dtors, ∃ x f', s.task t = some x ∧
      x.place = .parameter f' ∧ (f' = f ∨ (s.frame f').point = .gone) := by
  refine ⟨List.nodup_append.mpr ⟨List.nodup_range.filter _, h.dtors, ?_⟩, fun t ht => ?_⟩
  · rintro t ht t' ht' rfl
    obtain ⟨-, x, hx, hplace⟩ := mem_parameters.mp ht
    obtain ⟨x', f', hx', hplace', hgone⟩ := h.dying t ht'
    obtain rfl := Option.some.inj (hx.symm.trans hx')
    obtain rfl := Place.parameter.inj (hplace.symm.trans hplace')
    exact hpoint hgone
  · rcases List.mem_append.mp ht with ht | ht
    · obtain ⟨-, x, hx, hplace⟩ := mem_parameters.mp ht
      exact ⟨x, f, hx, hplace, .inl rfl⟩
    · obtain ⟨x, f', hx, hplace, hgone⟩ := h.dying t ht
      exact ⟨x, f', hx, hplace, .inr hgone⟩

theorem frames_destroy (h : Inv s) (hpoint : (s.frame f).point ≠ .gone) (hg : s.nextFrame ≤ g) :
    g ≠ f ∧ (s.setFrame f ⟨.gone, none⟩).frame g = ⟨.gone, none⟩ := by
  obtain ⟨hgone, -⟩ := h.frames g hg
  have hne : g ≠ f := by
    rintro rfl
    simp [hgone] at hpoint
  exact ⟨hne, by rw [frame_setFrame, if_neg hne, hgone]⟩

/-- A coroutine that was not started is destroyed. -/
theorem destroy (h : Inv s) (hfree : s.Free f) (hpoint : (s.frame f).point = .unstarted)
    (hcaller : (s.frame f).caller = none) : Inv (s.destroy f) := by
  have hsuspended : (s.frame f).point.suspended = true := by rw [hpoint]; rfl
  have hlive : (s.frame f).point ≠ .gone := by simp [hpoint]
  rw [destroy_eq (.inl hsuspended)]
  have hrefers : ∀ r, (s.setFrame f ⟨.gone, none⟩).refers r = s.refers r := by
    intro r
    rw [refers_setFrame]
    split
    · next hr => simp [hr, State.refers, hcaller]
    · rfl
  have hlog : ∀ g, g ≠ f → (s.log ++ [Event.destroyed f]).filter (Event.about g) = s.history g :=
    fun g hg => history_append_of_ne (by simpa [Event.about] using Ne.symm hg) s.log
  have hnil := (h.story f).of_caller_none hlive hcaller
  have hlog' : (s.log ++ [Event.destroyed f]).filter (Event.about f) = [.destroyed f] := by
    rw [history_append (by simp [Event.about]), ← State.history, hnil]
    rfl
  obtain ⟨hdtors, hdying⟩ := h.dtors_destroy hlive
  exact {
    fault := h.fault
    fitted := h.fitted.of_free _ hfree hrefers fun g hg => by
      exact congrArg Frame.point ((frame_setFrame s f g _).trans (if_neg hg))
    idle := by
      intro r g hg hr
      have hg : g ∈ s.refers r := (hrefers r) ▸ hg
      have hne : g ≠ f := fun heq => hfree r (heq ▸ hg)
      exact (congrArg Frame.caller ((frame_setFrame s f g _).trans (if_neg hne))).trans (h.idle r g hg hr)
    frames := by
      intro g hg
      obtain ⟨hne, hframe⟩ := h.frames_destroy hlive hg
      exact ⟨hframe, (hlog g hne).trans (h.frames g hg).2⟩
    tasks := h.tasks
    users := h.users
    story := by
      intro g
      by_cases hg : g = f
      · subst hg
        exact .unused ((frame_setFrame s g g _).trans (if_pos rfl)) hlog'
      · exact (h.story g).same ((frame_setFrame s f g _).trans (if_neg hg)) (hlog g hg) fun _ => id
    returning := by
      intro g f' hreturning
      have hhistory := h.returning g f' hreturning
      refine (hlog g ?_).trans hhistory
      rintro rfl
      simp [hnil] at hhistory
    dtors := hdtors
    dying := by
      intro t ht
      obtain ⟨x, f', hx, hplace, hgone⟩ := hdying t ht
      refine ⟨x, f', hx, hplace, ?_⟩
      rw [show (_ : State).frame f' = (s.setFrame f ⟨.gone, none⟩).frame f' from rfl, frame_setFrame]
      split
      · rfl
      · next hne => exact hgone.resolve_left hne }

theorem finalSuspend_eq (s : State) (f : Nat) : s.finalSuspend f =
    { s.setFrame f ⟨.gone, none⟩ with
      dtors := s.parameters f ++ s.dtors
      log := s.log ++ [.finished f] ++ [.destroyed f]
      control := .returning f (s.frame f).caller } := by
  simp [State.finalSuspend, State.destroy, State.setPoint, State.setFrame, State.parameters]

/-- The reference of the thread is given up, and the one of the callee goes to the transfer. -/
theorem refers_finalSuspend (h : Inv s) (hcontrol : s.control = .running f) :
    Fitted Ref.point (fun g => ((s.setFrame f ⟨.gone, none⟩).frame g).point) (State.refers
      { s.setFrame f ⟨.gone, none⟩ with control := .returning f (s.frame f).caller }) := by
  have hrunning := h.control_of_running hcontrol
  have hrefers : ∀ r, State.refers { s.setFrame f ⟨.gone, none⟩ with
      control := .returning f (s.frame f).caller } r = if r = .callee f then [] else
        if r = .returning f then (s.frame f).caller.toList else
          Function.update s.refers .running [] r := by
    intro r
    cases r with
    | callee g =>
        refine (refers_setFrame s f ⟨.gone, none⟩ (.callee g)).trans ?_
        split
        · rfl
        · simp
    | running => cases (s.frame f).caller <;> simp [State.refers, Control.refers]
    | returning g =>
        by_cases hg : g = f
        · subst hg
          cases (s.frame g).caller <;> simp [State.refers, Control.refers]
        · cases (s.frame f).caller <;> simp [State.refers, Control.refers, hcontrol, hg]
    | _ => rfl
  have hothers : ∀ g, g ≠ f → ((s.setFrame f ⟨.gone, none⟩).frame g).point = (s.frame g).point :=
    fun g hg => by rw [frame_setFrame, if_neg hg]
  obtain ⟨hleft, -⟩ := h.fitted.remove (n := f) (p := .running)
    (Function.update s.refers .running [])
    (fun g => ((s.setFrame f ⟨.gone, none⟩).frame g).point)
    (by simp [State.refers, Control.refers, hcontrol]) (fun r hr => Function.update_of_ne hr _ _) hothers
  have hcallee : s.refers (.callee f) = (s.frame f).caller.toList := rfl
  have hreturning : s.refers (.returning f) = [] := by simp [State.refers, Control.refers, hcontrol]
  cases hcaller : (s.frame f).caller with
  | none =>
      rw [hcaller] at hrefers hcallee
      have hsame : State.refers { s.setFrame f ⟨.gone, none⟩ with control := .returning f none } =
          Function.update s.refers .running [] := by
        funext r
        rw [hrefers]
        split
        · next hr => simp [hr, hcallee]
        · split
          · next hr => simp [hr, hreturning]
          · rfl
      exact hsame ▸ hleft
  | some c =>
      rw [hcaller] at hrefers hcallee
      have hpoint : (s.frame c).point = .atTask f := h.fitted.fits (.callee f) c (by simp [hcallee])
      have hne : c ≠ f := by
        rintro rfl
        simp [hpoint] at hrunning
      refine hleft.move (p := .callee f) (q := .returning f) (n := c) ⟨by simp, ?_, ?_, ?_⟩ ?_
        fun _ _ => rfl
      · rw [hrefers]
        simp [hcallee]
      · rw [hrefers]
        simp [hreturning]
      · intro r hr hr'
        rw [hrefers, if_neg hr, if_neg hr']
      · exact (hothers c hne).trans hpoint

/-- A coroutine returns: its frame is destroyed, and its caller is resumed next. -/
theorem finalSuspend (h : Inv s) (hcontrol : s.control = .running f) : Inv (s.finalSuspend f) := by
  have hrunning := h.control_of_running hcontrol
  have hlive : (s.frame f).point ≠ .gone := by simp [hrunning]
  have hfitted := h.refers_finalSuspend hcontrol
  rw [finalSuspend_eq]
  have hlog : ∀ g, g ≠ f → (s.log ++ [Event.finished f] ++ [Event.destroyed f]).filter
      (Event.about g) = s.history g := fun g hg =>
    (history_append_of_ne (by simpa [Event.about] using Ne.symm hg) _).trans
      (history_append_of_ne (by simpa [Event.about] using Ne.symm hg) _)
  have hlog' : (s.log ++ [Event.finished f] ++ [Event.destroyed f]).filter (Event.about f) =
      ((s.frame f).caller.map (Event.called · f)).toList ++ [.finished f, .destroyed f] := by
    rw [history_append (by simp [Event.about]), history_append (by simp [Event.about]),
      ← State.history, (h.story f).of_alive hlive, List.append_assoc]
    rfl
  obtain ⟨hdtors, hdying⟩ := h.dtors_destroy hlive
  exact {
    fault := h.fault
    fitted := hfitted
    idle := by
      intro r g hg hr
      have hmem : g ∈ s.refers r := by
        cases r with
        | task t => exact hg
        | queue => exact hg
        | _ => cases hr
      have hpoint := (h.unstarted hmem hr).1
      have hne : g ≠ f := fun heq => by
        rw [heq, hrunning] at hpoint
        cases hpoint
      exact (congrArg Frame.caller ((frame_setFrame s f g _).trans (if_neg hne))).trans
        (h.idle r g hmem hr)
    frames := by
      intro g hg
      obtain ⟨hne, hframe⟩ := h.frames_destroy hlive hg
      exact ⟨hframe, (hlog g hne).trans (h.frames g hg).2⟩
    tasks := h.tasks
    users := h.users
    story := by
      intro g
      by_cases hg : g = f
      · subst hg
        have hframe := (frame_setFrame s g g ⟨.gone, none⟩).trans (if_pos rfl)
        cases hcaller : (s.frame g).caller with
        | none => exact .ended hframe (by rw [State.history, hlog', hcaller]; rfl)
        | some c => exact .returning hframe rfl (by rw [State.history, hlog', hcaller]; rfl)
      · exact (h.story g).same ((frame_setFrame s f g _).trans (if_neg hg)) (hlog g hg) fun f' hf' => by
          simp [hcontrol] at hf'
    returning := by
      intro g c hreturning
      obtain ⟨rfl, hcaller⟩ := Control.returning.inj hreturning
      exact hlog'.trans (by rw [hcaller]; rfl)
    dtors := hdtors
    dying := by
      intro t ht
      obtain ⟨x, f', hx, hplace, hgone⟩ := hdying t ht
      refine ⟨x, f', hx, hplace, ?_⟩
      rw [show (_ : State).frame f' = (s.setFrame f ⟨.gone, none⟩).frame f' from rfl, frame_setFrame]
      split
      · rfl
      · next hne => exact hgone.resolve_left hne }

end Inv

end IoUring.Coroutine.Frames
