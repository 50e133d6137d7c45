import IoUring.Coroutine.ContextSwitch

/-!
# What holds in `switch_to`

A coroutine is at one place at a time. When the source has stored to `ok` before the
coroutine is resumed, `await_resume` reads what `await_suspend` returns.
-/

namespace IoUring.Coroutine.Switch

variable {C : Type*} {s s' : State C} {l : Label C} {k : C}

inductive Place (C : Type*) where
  | switchSpsc (k : C)
  | operations (k : C)
  | waiting (k : C)
  | thread (k : C)
  deriving DecidableEq

/-- The coroutine that only this thread may resume. -/
def Thread.handle : Thread → Option Nat
  | .running h | .push h _ | .store h _ false | .ret h _ false | .resume h _ _ => some h
  | _ => none

def Thread.awaiter : Thread → Option Nat
  | .push _ w | .store _ w _ | .ret _ w _ | .resume _ w _ => some w
  | _ => none

def State.content (s : State C) : Place C → List Nat
  | .switchSpsc k => s.switchSpsc k
  | .operations k => s.operations k
  | .waiting k => s.waiting k
  | .thread k => (s.thread k).handle.toList

/-- An awaiter that a thread in `await_suspend` or before `await_resume` works on. -/
def ThreadOk (s : State C) (k : C) : Thread → Prop
  | .idle => True
  | .running h => s.suspended h = none
  | .push h w => w < s.nextAwaiter ∧ (s.awaiter w).source = k ∧ (s.awaiter w).stored = false ∧
      (s.awaiter w).ok = false ∧ s.suspended h = some w
  | .store h w ok => w < s.nextAwaiter ∧ (s.awaiter w).source = k ∧ (s.awaiter w).stored = false ∧
      (s.awaiter w).ok = false ∧ (ok = false → s.suspended h = some w)
  | .ret h w ok => w < s.nextAwaiter ∧ (s.awaiter w).source = k ∧ (s.awaiter w).stored = true ∧
      (ok = false → (s.awaiter w).ok = false ∧ s.suspended h = some w)
  | .resume h w moved => w < s.nextAwaiter ∧ (s.awaiter w).stored = true ∧
      (s.awaiter w).ok = moved ∧ s.suspended h = none ∧
      (if moved then (s.awaiter w).dest = k else (s.awaiter w).source = k)

/-- An awaiter whose coroutine is in a queue of context `k`: its source has stored
true, or is about to. -/
structure QueuedOk (s : State C) (k : C) (w : Nat) : Prop where
  lt : w < s.nextAwaiter
  dest : (s.awaiter w).dest = k
  ok : (s.awaiter w).stored = true → (s.awaiter w).ok = true
  store : (s.awaiter w).stored = false → ∃ h, s.thread (s.awaiter w).source = .store h w true

/-- `co_await` returns whether the coroutine has moved. -/
structure ReturnOk (s : State C) (r : Return C) : Prop where
  lt : r.awaiter < s.nextAwaiter
  value : r.value = r.moved
  context : r.context = if r.moved then (s.awaiter r.awaiter).dest else (s.awaiter r.awaiter).source

structure Inv (s : State C) : Prop where
  apart : Apart s.content
  fresh : ∀ p, ∀ h ∈ s.content p, h < s.nextHandle
  unborn : ∀ h, s.nextHandle ≤ h → s.suspended h = none
  waiting : ∀ k, ∀ h ∈ s.waiting k, s.suspended h = none
  thread : ∀ k, ThreadOk s k (s.thread k)
  queued : ∀ k h w, h ∈ s.switchSpsc k ∨ h ∈ s.operations k → s.suspended h = some w →
    QueuedOk s k w
  resumed : ∀ w, w < s.nextAwaiter → (s.awaiter w).stored = false → (s.awaiter w).resumed = false
  late : s.late = false
  returned : ∀ r ∈ s.returned, ReturnOk s r

/-- The awaiter is as it was, but for the history of the resume. -/
structure SameAwaiter (s s' : State C) (w : Nat) : Prop where
  source : (s'.awaiter w).source = (s.awaiter w).source
  dest : (s'.awaiter w).dest = (s.awaiter w).dest
  ok : (s'.awaiter w).ok = (s.awaiter w).ok
  stored : (s'.awaiter w).stored = (s.awaiter w).stored

theorem ThreadOk.frame {pc : Thread} (h : ThreadOk s k pc) (hnext : s.nextAwaiter ≤ s'.nextAwaiter)
    (hsuspended : ∀ h ∈ pc.handle, s'.suspended h = s.suspended h)
    (hawaiter : ∀ w ∈ pc.awaiter, w < s.nextAwaiter → SameAwaiter s s' w) : ThreadOk s' k pc := by
  cases pc with
  | idle => trivial
  | running hd => exact (hsuspended hd rfl).trans h
  | push hd w =>
      obtain ⟨hlt, hsource, hstored, hok, hsus⟩ := h
      have hsame := hawaiter w rfl hlt
      exact ⟨Nat.lt_of_lt_of_le hlt hnext, hsame.source.trans hsource, hsame.stored.trans hstored,
        hsame.ok.trans hok, (hsuspended hd rfl).trans hsus⟩
  | store hd w ok =>
      obtain ⟨hlt, hsource, hstored, hok, hsus⟩ := h
      have hsame := hawaiter w rfl hlt
      refine ⟨Nat.lt_of_lt_of_le hlt hnext, hsame.source.trans hsource, hsame.stored.trans hstored,
        hsame.ok.trans hok, fun hfalse => ?_⟩
      subst hfalse
      exact (hsuspended hd rfl).trans (hsus rfl)
  | ret hd w ok =>
      obtain ⟨hlt, hsource, hstored, hrest⟩ := h
      have hsame := hawaiter w rfl hlt
      refine ⟨Nat.lt_of_lt_of_le hlt hnext, hsame.source.trans hsource, hsame.stored.trans hstored,
        fun hfalse => ?_⟩
      subst hfalse
      exact ⟨hsame.ok.trans (hrest rfl).1, (hsuspended hd rfl).trans (hrest rfl).2⟩
  | resume hd w moved =>
      obtain ⟨hlt, hstored, hok, hsus, hcontext⟩ := h
      have hsame := hawaiter w rfl hlt
      exact ⟨Nat.lt_of_lt_of_le hlt hnext, hsame.stored.trans hstored, hsame.ok.trans hok,
        (hsuspended hd rfl).trans hsus, by rw [hsame.dest, hsame.source]; exact hcontext⟩

theorem ReturnOk.frame {r : Return C} (h : ReturnOk s r) (hnext : s.nextAwaiter ≤ s'.nextAwaiter)
    (hsource : ∀ w, w < s.nextAwaiter → (s'.awaiter w).source = (s.awaiter w).source)
    (hdest : ∀ w, w < s.nextAwaiter → (s'.awaiter w).dest = (s.awaiter w).dest) : ReturnOk s' r where
  lt := Nat.lt_of_lt_of_le h.lt hnext
  value := h.value
  context := by rw [hsource _ h.lt, hdest _ h.lt]; exact h.context

theorem QueuedOk.frame {w : Nat} (h : QueuedOk s k w) (hnext : s.nextAwaiter ≤ s'.nextAwaiter)
    (hawaiter : w < s.nextAwaiter → SameAwaiter s s' w)
    (hstore : ∀ k' h, s.thread k' = .store h w true → s'.thread k' = .store h w true) :
    QueuedOk s' k w := by
  have hsame := hawaiter h.lt
  refine ⟨Nat.lt_of_lt_of_le h.lt hnext, hsame.dest.trans h.dest, ?_, ?_⟩
  · rw [hsame.stored, hsame.ok]
    exact h.ok
  · rw [hsame.stored, hsame.source]
    intro hstored
    obtain ⟨hd, hpc⟩ := h.store hstored
    exact ⟨hd, hstore _ _ hpc⟩

/-! ## Contents -/

theorem mem_thread {h : Nat} (hpc : (s.thread k).handle = some h) : h ∈ s.content (.thread k) := by
  simp [State.content, hpc]

variable [DecidableEq C]

@[simp] theorem content_setThread (s : State C) (k : C) (pc : Thread) :
    (s.setThread k pc).content = Function.update s.content (.thread k) pc.handle.toList := by
  funext p
  cases p with
  | thread k' =>
      by_cases hk : k' = k
      · simp [State.content, State.setThread, hk]
      · simp [State.content, State.setThread, hk]
  | _ => simp [State.content, State.setThread]

theorem content_operations (s : State C) (k : C) (l : List Nat) :
    ({ s with operations := Function.update s.operations k l } : State C).content =
      Function.update s.content (.operations k) l := by
  funext p
  cases p with
  | operations k' =>
      by_cases hk : k' = k
      · simp [State.content, hk]
      · simp [State.content, hk]
  | _ => simp [State.content]

theorem content_switchSpsc (s : State C) (k : C) (l : List Nat) :
    ({ s with switchSpsc := Function.update s.switchSpsc k l } : State C).content =
      Function.update s.content (.switchSpsc k) l := by
  funext p
  cases p with
  | switchSpsc k' =>
      by_cases hk : k' = k
      · simp [State.content, hk]
      · simp [State.content, hk]
  | _ => simp [State.content]

theorem content_waiting (s : State C) (k : C) (l : List Nat) :
    ({ s with waiting := Function.update s.waiting k l } : State C).content =
      Function.update s.content (.waiting k) l := by
  funext p
  cases p with
  | waiting k' =>
      by_cases hk : k' = k
      · simp [State.content, hk]
      · simp [State.content, hk]
  | _ => simp [State.content]

/-- Coroutines go to other places, and no awaiter changes. -/
theorem Inv.quiet (hinv : Inv s) (k : C)
    (hrest : s' = { s with
      switchSpsc := s'.switchSpsc, operations := s'.operations, waiting := s'.waiting
      thread := s'.thread, nextHandle := s'.nextHandle })
    (hapart : Apart s'.content) (hfresh : ∀ p, ∀ h ∈ s'.content p, h < s'.nextHandle)
    (hborn : s.nextHandle ≤ s'.nextHandle) (hthread : ∀ k', k' ≠ k → s'.thread k' = s.thread k')
    (hok : ThreadOk s k (s'.thread k)) (hwaiting : ∀ k', ∀ h ∈ s'.waiting k', s.suspended h = none)
    (hqueued : ∀ k' h w, h ∈ s'.switchSpsc k' ∨ h ∈ s'.operations k' → s.suspended h = some w →
      QueuedOk s' k' w) : Inv s' := by
  have hsuspended : s'.suspended = s.suspended := by rw [hrest]
  have hsame : ∀ w, SameAwaiter s s' w := by
    intro w
    rw [hrest]
    exact ⟨rfl, rfl, rfl, rfl⟩
  have hnext : s'.nextAwaiter = s.nextAwaiter := by rw [hrest]
  exact {
    apart := hapart
    fresh := hfresh
    unborn := by
      rw [hsuspended]
      exact fun h hle => hinv.unborn h (Nat.le_trans hborn hle)
    waiting := by rw [hsuspended]; exact hwaiting
    thread := by
      intro k'
      have hold : ThreadOk s k' (s'.thread k') := by
        by_cases hk : k' = k
        · exact hk ▸ hok
        · rw [hthread k' hk]
          exact hinv.thread k'
      exact hold.frame (Nat.le_of_eq hnext.symm) (fun h _ => by rw [hsuspended]) fun w _ _ => hsame w
    queued := by rw [hsuspended]; exact hqueued
    resumed := by rw [hrest]; exact hinv.resumed
    late := by rw [hrest]; exact hinv.late
    returned := by
      intro r hr
      rw [hrest] at hr
      exact (hinv.returned r hr).frame (Nat.le_of_eq hnext.symm) (fun w _ => (hsame w).source)
        fun w _ => (hsame w).dest }

omit [DecidableEq C] in
/-- A quiet step that leaves every thread in `await_suspend` alone. -/
theorem Inv.requeued (hinv : Inv s) {k' : C} {h w : Nat}
    (hmem : h ∈ s.switchSpsc k' ∨ h ∈ s.operations k') (hsuspended : s.suspended h = some w)
    (hnext : s'.nextAwaiter = s.nextAwaiter) (hawaiter : s'.awaiter = s.awaiter)
    (hstore : ∀ k' h, s.thread k' = .store h w true → s'.thread k' = .store h w true) :
    QueuedOk s' k' w :=
  (hinv.queued k' h w hmem hsuspended).frame (Nat.le_of_eq hnext.symm)
    (fun _ => by constructor <;> rw [hawaiter]) hstore

theorem Inv.fresh_of_moves (hinv : Inv s) {content : Place C → List Nat} {p q : Place C} {n : Nat}
    (hmoves : Moves s.content content p q n) (r : Place C) : ∀ h ∈ content r, h < s.nextHandle := by
  intro h hh
  obtain ⟨r', hr'⟩ := hmoves.mem hh
  exact hinv.fresh r' h hr'

theorem Inv.coSpawn (hinv : Inv s) (k : C) : Inv { s with
    operations := Function.update s.operations k (s.operations k ++ [s.nextHandle])
    nextHandle := s.nextHandle + 1 } := by
  have hcontent : ({ s with
      operations := Function.update s.operations k (s.operations k ++ [s.nextHandle])
      nextHandle := s.nextHandle + 1 } : State C).content =
      Function.update s.content (.operations k) (s.operations k ++ [s.nextHandle]) :=
    content_operations s k _
  refine hinv.quiet k rfl ?_ (fun p h hp => ?_) (Nat.le_succ _) (fun _ _ => rfl) (hinv.thread k)
    hinv.waiting fun k' h w hmem hsuspended => ?_
  · rw [hcontent]
    refine hinv.apart.add (n := s.nextHandle) (q := .operations k)
      (fun p hp => Nat.lt_irrefl _ (hinv.fresh p _ hp)) ?_ fun r hr => Function.update_of_ne hr _ _
    rw [Function.update_self]
    exact List.perm_append_singleton _ _
  · have hold := hinv.fresh
    have hlist : ∀ h ∈ s.operations k, h < s.nextHandle := hinv.fresh (.operations k)
    rw [hcontent] at hp
    grind [Function.update_apply]
  · have hunborn := hinv.unborn
    refine hinv.requeued ?_ hsuspended rfl rfl fun _ _ h => h
    grind [Function.update_apply]

theorem Inv.pop (hinv : Inv s) {h : Nat} {rest : List Nat} (hspsc : s.switchSpsc k = h :: rest) :
    Inv { s with
      switchSpsc := Function.update s.switchSpsc k rest
      operations := Function.update s.operations k (s.operations k ++ [h]) } := by
  have hcontent : ({ s with
      switchSpsc := Function.update s.switchSpsc k rest
      operations := Function.update s.operations k (s.operations k ++ [h]) } : State C).content =
      Function.update (Function.update s.content (.switchSpsc k) rest) (.operations k)
        (s.operations k ++ [h]) := by
    rw [← content_switchSpsc]
    exact content_operations { s with switchSpsc := Function.update s.switchSpsc k rest } k _
  have hmoves : Moves s.content ({ s with
      switchSpsc := Function.update s.switchSpsc k rest
      operations := Function.update s.operations k (s.operations k ++ [h]) } : State C).content
      (.switchSpsc k) (.operations k) h := by
    rw [hcontent]
    exact .update s.content (by simp) (.of_eq hspsc) (List.perm_append_singleton _ _)
  refine hinv.quiet k rfl (hinv.apart.move hmoves) (hinv.fresh_of_moves hmoves) (Nat.le_refl _)
    (fun _ _ => rfl) (hinv.thread k) hinv.waiting fun k' h' w hmem hsuspended => ?_
  refine hinv.requeued ?_ hsuspended rfl rfl fun _ _ h => h
  grind [Function.update_apply]

omit [DecidableEq C] in
theorem thread_ne {pc pc' : Thread} {k' : C} (hpc : s.thread k = pc) (hpc' : s.thread k' = pc')
    (hne : pc ≠ pc') : k' ≠ k := by
  rintro rfl
  exact hne (hpc.symm.trans hpc')

/-- An idle thread takes a coroutine out of `_operations`. -/
theorem operations_moves {h : Nat} {rest : List Nat} (pc : Thread) (hidle : s.thread k = .idle)
    (hoperations : s.operations k = h :: rest) (hpc : pc.handle = some h) : Moves s.content
      ({ s with operations := Function.update s.operations k rest }.setThread k pc).content
      (.operations k) (.thread k) h := by
  rw [content_setThread, content_operations]
  refine .update s.content (by simp) (.of_eq hoperations) (.of_eq ?_)
  rw [hpc]
  simp [State.content, hidle, Thread.handle]

/-- An idle thread goes on with a coroutine that is not in `switch_to`. -/
theorem Inv.resumePlain (hinv : Inv s) {h : Nat} {rest : List Nat} (hpc : s.thread k = .idle)
    (hoperations : s.operations k = h :: rest) (hfree : s.suspended h = none) :
    Inv ({ s with operations := Function.update s.operations k rest }.setThread k (.running h)) := by
  have hmoves := operations_moves (.running h) hpc hoperations rfl
  refine hinv.quiet k rfl (hinv.apart.move hmoves) (hinv.fresh_of_moves hmoves) (Nat.le_refl _)
    (fun k' hk => Function.update_of_ne hk _ _) ?_ hinv.waiting fun k' h' w hmem hsuspended => ?_
  · simp only [State.setThread, Function.update_self]
    exact hfree
  · refine hinv.requeued ?_ hsuspended rfl rfl fun k' h' hstore => ?_
    · simp only [State.setThread] at hmem
      grind [Function.update_apply]
    · exact (Function.update_of_ne (thread_ne hpc hstore (by simp)) _ _).trans hstore

theorem Inv.complete (hinv : Inv s) {h i : Nat} (hpc : s.thread k = .idle)
    (hwaiting : (s.waiting k)[i]? = some h) : Inv ({ s with
      waiting := Function.update s.waiting k ((s.waiting k).eraseIdx i) }.setThread k (.running h)) := by
  have hperm : (s.waiting k).Perm (h :: (s.waiting k).eraseIdx i) := by
    obtain ⟨hlt, hget⟩ := List.getElem?_eq_some_iff.mp hwaiting
    rw [← hget]
    exact (List.getElem_cons_eraseIdx_perm hlt).symm
  have hmoves : Moves s.content ({ s with
      waiting := Function.update s.waiting k ((s.waiting k).eraseIdx i) }.setThread k
        (.running h)).content (.waiting k) (.thread k) h := by
    rw [content_setThread, content_waiting]
    refine .update s.content (by simp) hperm (.of_eq ?_)
    simp [State.content, hpc, Thread.handle]
  refine hinv.quiet k rfl (hinv.apart.move hmoves) (hinv.fresh_of_moves hmoves) (Nat.le_refl _)
    (fun k' hk => Function.update_of_ne hk _ _) ?_ (fun k' h' hmem => ?_)
    fun k' h' w hmem hsuspended => ?_
  · simp only [State.setThread, Function.update_self]
    exact hinv.waiting k h (List.mem_of_getElem? hwaiting)
  · have hold := hinv.waiting
    have herase : h' ∈ (s.waiting k).eraseIdx i → h' ∈ s.waiting k := List.mem_of_mem_eraseIdx
    simp only [State.setThread] at hmem
    grind [Function.update_apply]
  · refine hinv.requeued hmem hsuspended rfl rfl fun k' h' hstore => ?_
    exact (Function.update_of_ne (thread_ne hpc hstore (by simp)) _ _).trans hstore

theorem Inv.wait (hinv : Inv s) {h : Nat} (hpc : s.thread k = .running h) : Inv ({ s with
    waiting := Function.update s.waiting k (s.waiting k ++ [h]) }.setThread k .idle) := by
  have hok := hinv.thread k
  rw [hpc] at hok
  have hfree : s.suspended h = none := hok
  have hmoves : Moves s.content ({ s with
      waiting := Function.update s.waiting k (s.waiting k ++ [h]) }.setThread k .idle).content
      (.thread k) (.waiting k) h := by
    rw [content_setThread, content_waiting, Function.update_comm (by simp)]
    refine .update s.content (by simp) ?_ (List.perm_append_singleton _ _)
    simp [State.content, hpc, Thread.handle]
  refine hinv.quiet k rfl (hinv.apart.move hmoves) (hinv.fresh_of_moves hmoves) (Nat.le_refl _)
    (fun k' hk => Function.update_of_ne hk _ _) ?_ (fun k' h' hmem => ?_)
    fun k' h' w hmem hsuspended => ?_
  · simp only [State.setThread, Function.update_self]
    trivial
  · have hold := hinv.waiting
    simp only [State.setThread] at hmem
    grind [Function.update_apply]
  · refine hinv.requeued hmem hsuspended rfl rfl fun k' h' hstore => ?_
    exact (Function.update_of_ne (thread_ne hpc hstore (by simp)) _ _).trans hstore

/-- A thread lets its coroutine go, or has let it go before. -/
theorem Inv.leave (hinv : Inv s) (hpc : ∀ h w, s.thread k ≠ .store h w true) :
    Inv (s.setThread k .idle) := by
  have hcontent := content_setThread s k .idle
  have hsub : ∀ p, ∀ h ∈ (s.setThread k .idle).content p, h ∈ s.content p := by
    intro p h hp
    rw [hcontent] at hp
    by_cases hk : p = .thread k
    · subst hk
      simp [Thread.handle] at hp
    · rwa [Function.update_of_ne hk] at hp
  refine hinv.quiet k rfl ⟨fun p => ?_, fun p q h hp hq => ?_⟩ (fun p h hp => hinv.fresh p h (hsub p h hp))
    (Nat.le_refl _) (fun k' hk => Function.update_of_ne hk _ _) ?_ hinv.waiting
    fun k' h' w hmem hsuspended => ?_
  · rw [hcontent]
    by_cases hk : p = .thread k
    · subst hk
      simp [Thread.handle]
    · rw [Function.update_of_ne hk]
      exact hinv.apart.nodup p
  · exact hinv.apart.unique p q h (hsub p h hp) (hsub q h hq)
  · simp only [State.setThread, Function.update_self]
    trivial
  · refine hinv.requeued hmem hsuspended rfl rfl fun k' h' hstore => ?_
    have hk : k' ≠ k := by rintro rfl; exact hpc _ _ hstore
    exact (Function.update_of_ne hk _ _).trans hstore

/-! ## Steps in `switch_to` -/

/-- Thread `k` works on its awaiter and on its coroutine. -/
theorem Inv.work (hinv : Inv s) (hapart : Apart s'.content)
    (hfresh : ∀ p, ∀ h ∈ s'.content p, h < s.nextHandle) (hborn : s'.nextHandle = s.nextHandle)
    (hnext : s.nextAwaiter ≤ s'.nextAwaiter)
    (hsuspended : ∀ h, s'.suspended h = s.suspended h ∨ h ∈ s'.content (.thread k))
    (hthread : ∀ k', k' ≠ k → s'.thread k' = s.thread k') (hok : ThreadOk s' k (s'.thread k))
    (hspsc : s'.switchSpsc = s.switchSpsc) (hwaiting : s'.waiting = s.waiting)
    (hoperations : ∀ k', ∀ h ∈ s'.operations k', h ∈ s.operations k')
    (hawaiter : ∀ k', k' ≠ k → ∀ w ∈ (s.thread k').awaiter, w < s.nextAwaiter → SameAwaiter s s' w)
    (hqueued : ∀ k' w, QueuedOk s k' w → QueuedOk s' k' w)
    (hresumed : ∀ w, w < s'.nextAwaiter → (s'.awaiter w).stored = false →
      (s'.awaiter w).resumed = false)
    (hlate : s'.late = false) (hreturned : ∀ r ∈ s'.returned, ReturnOk s' r) : Inv s' := by
  have hsame : ∀ p h, p ≠ .thread k → h ∈ s'.content p → s'.suspended h = s.suspended h :=
    fun p h hne hp => (hsuspended h).resolve_right fun hmem => hne (hapart.unique p _ h hp hmem)
  exact {
    apart := hapart
    fresh := by rw [hborn]; exact hfresh
    unborn := by
      intro h hle
      rw [hborn] at hle
      rcases hsuspended h with hsus | hmem
      · exact hsus.trans (hinv.unborn h hle)
      · exact absurd (hfresh _ h hmem) (Nat.not_lt.mpr hle)
    waiting := by
      intro k' h hmem
      rw [hsame (.waiting k') h (by simp) hmem]
      exact hinv.waiting k' h (hwaiting ▸ hmem)
    thread := by
      intro k'
      by_cases hk : k' = k
      · exact hk ▸ hok
      · have hold := hinv.thread k'
        rw [hthread k' hk]
        refine hold.frame hnext (fun h hhandle => ?_) (hawaiter k' hk)
        refine hsame (.thread k') h (by simpa using hk) (mem_thread ?_)
        rw [hthread k' hk]
        exact hhandle
    queued := by
      intro k' h w hmem hsus
      rcases hmem with hmem | hmem
      · rw [hsame (.switchSpsc k') h (by simp) hmem] at hsus
        exact hqueued k' w (hinv.queued k' h w (.inl (hspsc ▸ hmem)) hsus)
      · rw [hsame (.operations k') h (by simp) hmem] at hsus
        exact hqueued k' w (hinv.queued k' h w (.inr (hoperations k' h hmem)) hsus)
    resumed := hresumed
    late := hlate
    returned := hreturned }

/-- The thread keeps its coroutine. -/
theorem content_same {pc : Thread} (hpc : pc.handle = (s.thread k).handle) :
    (s.setThread k pc).content = s.content := by
  rw [content_setThread, hpc, Function.update_eq_self_iff]
  rfl

theorem Inv.switchTo (hinv : Inv s) {h : Nat} (hpc : s.thread k = .running h) (dest : C) :
    Inv ({ s.setAwaiter s.nextAwaiter { source := k, dest := dest } with
      suspended := Function.update s.suspended h (some s.nextAwaiter)
      nextAwaiter := s.nextAwaiter + 1 }.setThread k (.push h s.nextAwaiter)) := by
  have hcontent : ({ s.setAwaiter s.nextAwaiter { source := k, dest := dest } with
      suspended := Function.update s.suspended h (some s.nextAwaiter)
      nextAwaiter := s.nextAwaiter + 1 }.setThread k (.push h s.nextAwaiter)).content = s.content :=
    content_same (s := s) (by rw [hpc]; rfl)
  have hsame : ∀ w, w < s.nextAwaiter → SameAwaiter s
      ({ s.setAwaiter s.nextAwaiter { source := k, dest := dest } with
        suspended := Function.update s.suspended h (some s.nextAwaiter)
        nextAwaiter := s.nextAwaiter + 1 }.setThread k (.push h s.nextAwaiter)) w := by
    intro w hw
    constructor <;> simp [State.setThread, State.setAwaiter, Nat.ne_of_lt hw]
  refine hinv.work (by rw [hcontent]; exact hinv.apart) (by rw [hcontent]; exact hinv.fresh) rfl
    (Nat.le_succ _) (fun h' => ?_) (fun k' hk => Function.update_of_ne hk _ _) ?_ rfl rfl
    (fun _ _ hmem => hmem) (fun k' _ w _ hw => hsame w hw) (fun k' w hq => ?_) (fun w hw hstored => ?_)
    hinv.late fun r hr => ?_
  · by_cases hh : h' = h
    · subst hh
      exact .inr (by rw [hcontent]; exact mem_thread (by rw [hpc]; rfl))
    · exact .inl (Function.update_of_ne hh _ _)
  · simp [State.setThread, State.setAwaiter, ThreadOk]
  · refine hq.frame (Nat.le_succ _) (hsame w) fun k' h' hstore => ?_
    exact (Function.update_of_ne (thread_ne hpc hstore (by simp)) _ _).trans hstore
  · by_cases hnew : w = s.nextAwaiter
    · subst hnew
      simp [State.setThread, State.setAwaiter]
    · have hlt : w < s.nextAwaiter := by
        simp only [State.setThread] at hw
        omega
      simp only [State.setThread, State.setAwaiter, Function.update_of_ne hnew] at hstored ⊢
      exact hinv.resumed w hlt hstored
  · exact (hinv.returned r hr).frame (Nat.le_succ _) (fun w hw => (hsame w hw).source)
      fun w hw => (hsame w hw).dest

theorem Inv.push (hinv : Inv s) {h w : Nat} (hpc : s.thread k = .push h w) :
    Inv (pushToSwitch s k h w) := by
  have hok := hinv.thread k
  rw [hpc] at hok
  obtain ⟨hlt, hsource, hstored, hfalse, hsus⟩ := hok
  simp only [pushToSwitch]
  split
  · have hmoves : Moves s.content ({ s with
        switchSpsc := Function.update s.switchSpsc (s.awaiter w).dest
          (s.switchSpsc (s.awaiter w).dest ++ [h]) }.setThread k (.store h w true)).content
        (.thread k) (.switchSpsc (s.awaiter w).dest) h := by
      rw [content_setThread, content_switchSpsc, Function.update_comm (by simp)]
      refine .update s.content (by simp) ?_ (List.perm_append_singleton _ _)
      simp [State.content, hpc, Thread.handle]
    refine hinv.quiet k rfl (hinv.apart.move hmoves) (hinv.fresh_of_moves hmoves) (Nat.le_refl _)
      (fun k' hk => Function.update_of_ne hk _ _) ?_ hinv.waiting fun k' h' w' hmem hsuspended => ?_
    · simp only [State.setThread, Function.update_self]
      exact ⟨hlt, hsource, hstored, hfalse, by simp⟩
    · by_cases hh : h' = h ∧ k' = (s.awaiter w).dest
      · obtain ⟨rfl, rfl⟩ := hh
        obtain rfl := Option.some.inj (hsus.symm.trans hsuspended)
        refine ⟨hlt, rfl, ?_, fun _ => ⟨h', ?_⟩⟩
        · intro htrue
          exact absurd (hstored.symm.trans htrue) (by decide)
        · simp [State.setThread, hsource]
      · refine hinv.requeued ?_ hsuspended rfl rfl fun k' h' hstore => ?_
        · simp only [State.setThread] at hmem
          grind [Function.update_apply]
        · exact (Function.update_of_ne (thread_ne hpc hstore (by simp)) _ _).trans hstore
  · have hcontent : (s.setThread k (.store h w false)).content = s.content :=
      content_same (by rw [hpc]; rfl)
    refine hinv.quiet k rfl (by rw [hcontent]; exact hinv.apart) (by rw [hcontent]; exact hinv.fresh)
      (Nat.le_refl _) (fun k' hk => Function.update_of_ne hk _ _) ?_ hinv.waiting
      fun k' h' w' hmem hsuspended => ?_
    · simp only [State.setThread, Function.update_self]
      exact ⟨hlt, hsource, hstored, hfalse, fun _ => hsus⟩
    · refine hinv.requeued hmem hsuspended rfl rfl fun k' h' hstore => ?_
      exact (Function.update_of_ne (thread_ne hpc hstore (by simp)) _ _).trans hstore

omit [DecidableEq C] in
/-- No other thread works on an awaiter that is to be stored to. -/
theorem Inv.awaiter_ne (hinv : Inv s) {h w w' : Nat} {ok : Bool} {k' : C}
    (hpc : s.thread k = .store h w ok) (hk : k' ≠ k) (hw : w' ∈ (s.thread k').awaiter) : w' ≠ w := by
  rintro rfl
  have hok := hinv.thread k
  rw [hpc] at hok
  obtain ⟨-, hsource, hstored, -⟩ := hok
  have hother := hinv.thread k'
  cases hpc' : s.thread k' with
  | idle => simp [hpc', Thread.awaiter] at hw
  | running hd => simp [hpc', Thread.awaiter] at hw
  | push hd v =>
      rw [hpc'] at hother hw
      obtain rfl := Option.some.inj hw
      exact hk (hother.2.1.symm.trans hsource)
  | store hd v ok =>
      rw [hpc'] at hother hw
      obtain rfl := Option.some.inj hw
      exact hk (hother.2.1.symm.trans hsource)
  | ret hd v ok =>
      rw [hpc'] at hother hw
      obtain rfl := Option.some.inj hw
      exact hk (hother.2.1.symm.trans hsource)
  | resume hd v moved =>
      rw [hpc'] at hother hw
      obtain rfl := Option.some.inj hw
      simp [hother.2.1] at hstored

theorem Inv.store (hinv : Inv s) {h w : Nat} {ok : Bool} (hpc : s.thread k = .store h w ok) :
    Inv (storeOk s k h w ok) := by
  have hok := hinv.thread k
  rw [hpc] at hok
  obtain ⟨hlt, hsource, hstored, hfalse, hsus⟩ := hok
  have hcontent : (storeOk s k h w ok).content = s.content :=
    content_same (s := s) (by rw [hpc]; cases ok <;> rfl)
  have hsame : ∀ w', w' ≠ w → SameAwaiter s (storeOk s k h w ok) w' := by
    intro w' hw
    constructor <;> simp [storeOk, State.setThread, State.setAwaiter, hw]
  have hawaiter : (storeOk s k h w ok).awaiter w = { s.awaiter w with ok := ok, stored := true } := by
    simp [storeOk, State.setThread, State.setAwaiter]
  refine hinv.work (by rw [hcontent]; exact hinv.apart) (by rw [hcontent]; exact hinv.fresh) rfl
    (Nat.le_refl _) (fun _ => .inl rfl) (fun k' hk => Function.update_of_ne hk _ _) ?_ rfl rfl
    (fun _ _ hmem => hmem) (fun k' hk w' hw _ => hsame w' (hinv.awaiter_ne hpc hk hw))
    (fun k' w' hq => ?_) (fun w' hw hstored' => ?_) ?_ fun r hr => ?_
  · have hthread : (storeOk s k h w ok).thread k = .ret h w ok := Function.update_self _ _ _
    rw [hthread]
    refine ⟨hlt, by rw [hawaiter]; exact hsource, by rw [hawaiter], fun hno => ?_⟩
    subst hno
    exact ⟨by rw [hawaiter], hsus rfl⟩
  · by_cases hw : w' = w
    · subst hw
      obtain ⟨hd, hstore⟩ := hq.store hstored
      rw [hsource, hpc] at hstore
      obtain ⟨-, -, rfl⟩ := Thread.store.inj hstore
      refine ⟨hlt, by rw [hawaiter]; exact hq.dest, fun _ => by rw [hawaiter], fun hno => ?_⟩
      simp [hawaiter] at hno
    · refine hq.frame (Nat.le_refl _) (fun _ => hsame w' hw) fun k' h' hstore => ?_
      refine (Function.update_of_ne (thread_ne hpc hstore fun heq => ?_) _ _).trans hstore
      exact hw (Thread.store.inj heq).2.1.symm
  · by_cases hw' : w' = w
    · subst hw'
      simp [hawaiter] at hstored'
    · have hresumed : ((storeOk s k h w ok).awaiter w').resumed = (s.awaiter w').resumed := by
        simp [storeOk, State.setThread, State.setAwaiter, hw']
      rw [hresumed]
      exact hinv.resumed w' hw ((hsame w' hw').stored.symm.trans hstored')
  · have hresumed := hinv.resumed w hlt hstored
    simp [storeOk, State.setThread, hinv.late, hresumed]
  · refine (hinv.returned r hr).frame (Nat.le_refl _) (fun w' _ => ?_) fun w' _ => ?_
    · by_cases hw : w' = w
      · subst hw
        rw [hawaiter]
      · exact (hsame w' hw).source
    · by_cases hw : w' = w
      · subst hw
        rw [hawaiter]
      · exact (hsame w' hw).dest

/-- The queue was full, and the coroutine goes on in the source. -/
theorem Inv.stay (hinv : Inv s) {h w : Nat} (hpc : s.thread k = .ret h w false) :
    Inv ({ s with
      suspended := Function.update s.suspended h none }.setThread k (.resume h w false)) := by
  have hok := hinv.thread k
  rw [hpc] at hok
  obtain ⟨hlt, hsource, hstored, hrest⟩ := hok
  have hcontent : ({ s with
      suspended := Function.update s.suspended h none }.setThread k (.resume h w false)).content =
      s.content := content_same (s := s) (by rw [hpc]; rfl)
  refine hinv.work (by rw [hcontent]; exact hinv.apart) (by rw [hcontent]; exact hinv.fresh) rfl
    (Nat.le_refl _) (fun h' => ?_) (fun k' hk => Function.update_of_ne hk _ _) ?_ rfl rfl
    (fun _ _ hmem => hmem) (fun _ _ _ _ _ => ⟨rfl, rfl, rfl, rfl⟩) (fun k' w' hq => ?_) hinv.resumed
    hinv.late fun r hr => (hinv.returned r hr).frame (Nat.le_refl _) (fun _ _ => rfl) fun _ _ => rfl
  · by_cases hh : h' = h
    · subst hh
      exact .inr (by rw [hcontent]; exact mem_thread (by rw [hpc]; rfl))
    · exact .inl (Function.update_of_ne hh _ _)
  · simp only [State.setThread, Function.update_self]
    exact ⟨hlt, hstored, (hrest rfl).1, Function.update_self _ _ _, hsource⟩
  · refine hq.frame (Nat.le_refl _) (fun _ => ⟨rfl, rfl, rfl, rfl⟩) fun k' h' hstore => ?_
    exact (Function.update_of_ne (thread_ne hpc hstore (by simp)) _ _).trans hstore

theorem Inv.awaitResume (hinv : Inv s) {h w : Nat} {moved : Bool} (hpc : s.thread k = .resume h w moved) :
    Inv ({ s with
      returned := ⟨w, (s.awaiter w).ok, k, moved⟩ :: s.returned }.setThread k (.running h)) := by
  have hok := hinv.thread k
  rw [hpc] at hok
  obtain ⟨hlt, hstored, hvalue, hfree, hcontext⟩ := hok
  have hcontent : ({ s with
      returned := ⟨w, (s.awaiter w).ok, k, moved⟩ :: s.returned }.setThread k (.running h)).content =
      s.content := content_same (s := s) (by rw [hpc]; rfl)
  refine hinv.work (by rw [hcontent]; exact hinv.apart) (by rw [hcontent]; exact hinv.fresh) rfl
    (Nat.le_refl _) (fun _ => .inl rfl) (fun k' hk => Function.update_of_ne hk _ _) ?_ rfl rfl
    (fun _ _ hmem => hmem) (fun _ _ _ _ _ => ⟨rfl, rfl, rfl, rfl⟩) (fun k' w' hq => ?_) hinv.resumed
    hinv.late fun r hr => ?_
  · simp only [State.setThread, Function.update_self]
    exact hfree
  · refine hq.frame (Nat.le_refl _) (fun _ => ⟨rfl, rfl, rfl, rfl⟩) fun k' h' hstore => ?_
    exact (Function.update_of_ne (thread_ne hpc hstore (by simp)) _ _).trans hstore
  · rcases List.mem_cons.mp hr with rfl | hr
    · refine ⟨hlt, hvalue, ?_⟩
      cases moved with
      | true => exact hcontext.symm
      | false => exact hcontext.symm
    · exact (hinv.returned r hr).frame (Nat.le_refl _) (fun _ _ => rfl) fun _ _ => rfl

/-- The coroutine goes on in the destination, after the store of the source. -/
theorem Inv.resumeMoved (hinv : Inv s) {h w : Nat} {rest : List Nat} (hpc : s.thread k = .idle)
    (hoperations : s.operations k = h :: rest) (hsus : s.suspended h = some w)
    (hstored : (s.awaiter w).stored = true) :
    Inv (resumeAt { s with operations := Function.update s.operations k rest } k h) := by
  have hmem : h ∈ s.operations k := by simp [hoperations]
  have hq := hinv.queued k h w (.inr hmem) hsus
  have hresume : resumeAt { s with operations := Function.update s.operations k rest } k h =
      { { s with operations := Function.update s.operations k rest }.setAwaiter w
          { s.awaiter w with resumed := true } with
        suspended := Function.update s.suspended h none }.setThread k (.resume h w true) := by
    simp [resumeAt, hsus]
  have hmoves : Moves s.content
      (resumeAt { s with operations := Function.update s.operations k rest } k h).content
      (.operations k) (.thread k) h := by
    rw [hresume]
    exact operations_moves (.resume h w true) hpc hoperations rfl
  have hsame : ∀ w', SameAwaiter s
      (resumeAt { s with operations := Function.update s.operations k rest } k h) w' := by
    intro w'
    rw [hresume]
    by_cases hw : w' = w
    · subst hw
      constructor <;> simp [State.setThread, State.setAwaiter]
    · constructor <;> simp [State.setThread, State.setAwaiter, hw]
  refine hinv.work (k := k) (hinv.apart.move hmoves) (hinv.fresh_of_moves hmoves) (by rw [hresume]; rfl)
    (by rw [hresume]; exact Nat.le_refl _) (fun h' => ?_) (fun k' hk => ?_) ?_ (by rw [hresume]; rfl)
    (by rw [hresume]; rfl) (fun k' h' hmem' => ?_) (fun _ _ w' _ _ => hsame w') (fun k' w' hq' => ?_)
    (fun w' hw hstored' => ?_) (by rw [hresume]; exact hinv.late) fun r hr => ?_
  · by_cases hh : h' = h
    · subst hh
      exact .inr (hmoves.target.mem_iff.mpr List.mem_cons_self)
    · rw [hresume]
      exact .inl (Function.update_of_ne hh _ _)
  · rw [hresume]
    exact Function.update_of_ne hk _ _
  · have hthread : (resumeAt { s with operations := Function.update s.operations k rest } k h).thread k =
        .resume h w true := by
      rw [hresume]
      exact Function.update_self _ _ _
    rw [hthread]
    refine ⟨?_, (hsame w).stored.trans hstored, (hsame w).ok.trans (hq.ok hstored), ?_,
      (hsame w).dest.trans hq.dest⟩
    · rw [hresume]
      exact hq.lt
    · rw [hresume]
      exact Function.update_self _ _ _
  · rw [hresume] at hmem'
    simp only [State.setThread, State.setAwaiter] at hmem'
    grind [Function.update_apply]
  · refine hq'.frame (by rw [hresume]; exact Nat.le_refl _) (fun _ => hsame w') fun k' h' hstore => ?_
    rw [hresume]
    exact (Function.update_of_ne (thread_ne hpc hstore (by simp)) _ _).trans hstore
  · have hne : w' ≠ w := by
      rintro rfl
      rw [(hsame w').stored, hstored] at hstored'
      cases hstored'
    have hold := hinv.resumed w' (by rw [hresume] at hw; exact hw) ((hsame w').stored.symm.trans hstored')
    rw [hresume]
    simpa [State.setThread, State.setAwaiter, hne] using hold
  · rw [hresume] at hr
    exact (hinv.returned r hr).frame (by rw [hresume]; exact Nat.le_refl _)
      (fun w' _ => (hsame w').source) fun w' _ => (hsame w').dest

theorem Inv.go (hinv : Inv s) (hstep : goStep s k = some s') : Inv s' := by
  simp only [goStep] at hstep
  split at hstep
  · next hpc =>
      obtain rfl := Option.some.inj hstep
      exact hinv.push hpc
  · next hpc =>
      obtain rfl := Option.some.inj hstep
      exact hinv.store hpc
  · next hpc =>
      obtain rfl := Option.some.inj hstep
      exact hinv.leave (by simp [hpc])
  · next hpc =>
      obtain rfl := Option.some.inj hstep
      exact hinv.stay hpc
  · next hpc =>
      obtain rfl := Option.some.inj hstep
      exact hinv.awaitResume hpc
  · cases hstep

theorem Inv.step (hinv : Inv s) (hok : StoreFirst s l) (hstep : (machine C).step s l = some s') :
    Inv s' := by
  simp only [machine, Switch.step] at hstep
  cases l with
  | coSpawn k =>
      obtain rfl := Option.some.inj hstep
      exact hinv.coSpawn k
  | pop k =>
      simp only at hstep
      split at hstep
      · next hspsc =>
          obtain rfl := Option.some.inj hstep
          exact hinv.pop hspsc
      · cases hstep
  | resume k =>
      simp only at hstep
      split at hstep
      · next h rest hpc hoperations =>
          obtain rfl := Option.some.inj hstep
          cases hsus : s.suspended h with
          | none =>
              simp only [resumeAt, hsus]
              exact hinv.resumePlain hpc hoperations hsus
          | some w =>
              exact hinv.resumeMoved hpc hoperations hsus (hok h (by simp [hoperations]) w hsus)
      · cases hstep
  | complete k i =>
      simp only at hstep
      split at hstep
      · next hpc hwaiting =>
          obtain rfl := Option.some.inj hstep
          exact hinv.complete hpc hwaiting
      · cases hstep
  | switchTo k dest =>
      simp only at hstep
      split at hstep
      · next hpc =>
          obtain rfl := Option.some.inj hstep
          exact hinv.switchTo hpc dest
      · cases hstep
  | wait k =>
      simp only at hstep
      split at hstep
      · next hpc =>
          obtain rfl := Option.some.inj hstep
          exact hinv.wait hpc
      · cases hstep
  | finish k =>
      simp only at hstep
      split at hstep
      · next hpc =>
          obtain rfl := Option.some.inj hstep
          exact hinv.leave (by simp [hpc])
      · cases hstep
  | go k => exact hinv.go hstep

/-- In every run in which a context resumes a coroutine out of its switch queue only
after the source has stored to `ok`, `co_await` returns true exactly when the
coroutine goes on in the destination, and no source stores to an awaiter after its
coroutine was resumed elsewhere. -/
theorem switched (h : (machine C).Reach StoreFirst s) :
    (∀ r ∈ s.returned, (r.value = true ↔ r.moved = true) ∧
      r.context = if r.moved then (s.awaiter r.awaiter).dest else (s.awaiter r.awaiter).source) ∧
    s.late = false := by
  have hinv : Inv s := by
    refine h.invariant Inv (fun s hs => ?_) fun s l s' _ hinv hok hstep => hinv.step hok hstep
    obtain ⟨hspsc, hoperations, hwaiting, hthread, hnext, hsuspended, hreturned, hlate⟩ := hs
    have hcontent : ∀ p, s.content p = [] := by
      intro p
      cases p <;> simp [State.content, hspsc, hoperations, hwaiting, hthread, Thread.handle]
    exact {
      apart := ⟨by simp [hcontent], by simp [hcontent]⟩
      fresh := by simp [hcontent]
      unborn := fun h _ => hsuspended h
      waiting := fun _ h _ => hsuspended h
      thread := fun k => by rw [hthread]; trivial
      queued := by simp [hspsc, hoperations]
      resumed := by simp [hnext]
      late := hlate
      returned := by simp [hreturned] }
  refine ⟨fun r hr => ?_, hinv.late⟩
  have hreturn := hinv.returned r hr
  exact ⟨by rw [hreturn.value], hreturn.context⟩

section Switches

def pairStart : State Bool where
  switchSpsc := fun _ => []
  operations := fun _ => []
  waiting := fun _ => []
  thread := fun _ => .idle
  awaiter := fun _ => { source := false, dest := false }
  suspended := fun _ => none
  nextHandle := 0
  nextAwaiter := 0
  returned := []
  late := false

theorem pairStart_init : (machine Bool).init pairStart := by
  simp [machine, Init, pairStart]

/-- A coroutine starts on the first context and is in the queue of the second one. -/
def pushRun : List (Label Bool) :=
  [.coSpawn false, .resume false, .switchTo false true, .go false, .pop true]

theorem switched_late_resume : ∃ s, (machine Bool).Reach StoreFirst s ∧
    s.returned.map Return.value = [true] ∧ s.late = false := by
  have hrun : ∃ s, ((machine Bool).restrict StoreFirst).run pairStart
      (pushRun ++ [.go false, .resume true, .go true, .go false]) = some s ∧
      s.returned.map Return.value = [true] := ⟨_, rfl, rfl⟩
  obtain ⟨s, hs, hvalue⟩ := hrun
  have hreach := Machine.Reach.restrict (.start pairStart_init) hs
  exact ⟨s, hreach, hvalue, (switched hreach).2⟩

/-- The second context resumes the coroutine before the first one stores to `ok`:
`co_await` returns false in the second context, and the store comes late. -/
theorem not_switched : ∃ s, (machine Bool).Reachable s ∧
    (∃ r ∈ s.returned, r.value = false ∧ r.context = true ∧ r.moved = true) ∧ s.late = true := by
  have hrun : ∃ s, (machine Bool).run pairStart
      (pushRun ++ [.resume true, .go true, .go false]) = some s ∧
      s.returned = [⟨0, false, true, true⟩] ∧ s.late = true := ⟨_, rfl, rfl, rfl⟩
  obtain ⟨s, hs, hreturned, hlate⟩ := hrun
  exact ⟨s, Machine.Reachable.of_run pairStart_init hs, ⟨_, by rw [hreturned]; exact List.mem_cons_self,
    rfl, rfl, rfl⟩, hlate⟩

end Switches

end IoUring.Coroutine.Switch
