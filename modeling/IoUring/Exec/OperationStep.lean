import IoUring.Exec.Operation

/-!
# What one step can do

Each constructor is one way in which a label executes, with the guards that
select it and the state it leads to. Invariants are proved by cases on it.
-/

namespace IoUring.Exec.Operation

variable {O T S : Type*} [DecidableEq O] [DecidableEq T] [DecidableEq S]

inductive Step (cfg : Config O T S) (s : State O T S) : Label O T S → State O T S → Prop
  | start {t o} (hpc : s.thread t = .idle) (hopen : s.closed t = false)
      (hst : s.status o = .fresh) : Step cfg s (.start t o) (s.enterStart t o)
  | testStopped {t o c} (hpc : s.thread t = .test o) (hstop : s.stopRequested cfg o = true) :
      Step cfg s (.thread t c) ((s.signal o .setStopped).setThread t .idle)
  | testPassed {t o c} (hpc : s.thread t = .test o) (hstop : s.stopRequested cfg o = false) :
      Step cfg s (.thread t c) (s.setThread t (.getSqe o))
  | sqe {t o c r} (hpc : s.thread t = .getSqe o)
      (hr : (s.ring t).getSqe (cfg.entries t) (.request o) = some r) :
      Step cfg s (.thread t c) ({ s.issue t r (.request o) with
        status := Function.update s.status o (.onRing t) }.setThread t (.install o))
  | full {t o c} (hpc : s.thread t = .getSqe o)
      (hr : (s.ring t).getSqe (cfg.entries t) (.request o) = none) :
      Step cfg s (.thread t c) (s.setThread t (.spawn o))
  | installNothing {t o c} (hpc : s.thread t = .install o) (htok : cfg.token o = none) :
      Step cfg s (.thread t c) (s.setThread t .idle)
  | install {t o c src} (hpc : s.thread t = .install o) (htok : cfg.token o = some src) :
      Step cfg s (.thread t c) ({ s with
        localScheduler := Function.update s.localScheduler o t
        callback := Function.update s.callback o
          (if s.stopSource src then .running .load else .registered) }.setThread t .idle)
  | spawnThrows {t o} (hpc : s.thread t = .spawn o) :
      Step cfg s (.thread t true) (({ s with
        tasks := Function.update s.tasks o (s.tasks o ++ [Fate.unspawned]) }.signal o
          .setException).setThread t .idle)
  | spawn {t o} (hpc : s.thread t = .spawn o) :
      Step cfg s (.thread t false) ({ s with
        tasks := Function.update s.tasks o (s.tasks o ++ [Fate.pending])
        status := Function.update s.status o .waiting }.setThread t .idle)
  | reset {t o res pass c} (hpc : s.thread t = .uninstall o res pass .reset)
      (hcb : ∀ pc, s.callback o ≠ .running pc) :
      Step cfg s (.thread t c) ({ s with
        callback := Function.update s.callback o .none }.setThread t
          (.uninstall o res pass (.moveAll .load)))
  | moveAll {t o res pass c pc pc'} {h : Heap O (T × Bucket)}
      (hpc : s.thread t = .uninstall o res pass (.moveAll pc))
      (hm : moveAllStep s.heap (stoppingQueue cfg s o) c pc = (h, .running pc')) :
      Step cfg s (.thread t c) ({ s with heap := h }.setThread t
        (.uninstall o res pass (.moveAll pc')))
  | movedNothing {t o res pass c pc} {h : Heap O (T × Bucket)}
      (hpc : s.thread t = .uninstall o res pass (.moveAll pc))
      (hm : moveAllStep s.heap (stoppingQueue cfg s o) c pc = (h, .returned none)) :
      Step cfg s (.thread t c) ({ s with heap := h }.setThread t (.uninstall o res pass .deliver))
  | moved {t o res pass c pc op} {h : Heap O (T × Bucket)}
      (hpc : s.thread t = .uninstall o res pass (.moveAll pc))
      (hm : moveAllStep s.heap (stoppingQueue cfg s o) c pc = (h, .returned (some op))) :
      Step cfg s (.thread t c) ({ s with heap := h }.setThread t
        (.uninstall o res pass (.before (some op) .test)))
  | before {t o res pass c first pc pc'} {h : Heap O (T × Bucket)}
      (hpc : s.thread t = .uninstall o res pass (.before first pc))
      (hm : pushAllStep s.heap (stoppingQueue cfg s o) first (fun node => node ≠ o) c pc =
        (h, .running pc')) :
      Step cfg s (.thread t c) ({ s with heap := h }.setThread t
        (.uninstall o res pass (.before first pc')))
  | beforeDone {t o res pass c first pc u} {h : Heap O (T × Bucket)}
      (hpc : s.thread t = .uninstall o res pass (.before first pc))
      (hm : pushAllStep s.heap (stoppingQueue cfg s o) first (fun node => node ≠ o) c pc =
        (h, .returned u)) :
      Step cfg s (.thread t c) ({ s with heap := h }.setThread t (.uninstall o res pass .next))
  | next {t o res pass c} (hpc : s.thread t = .uninstall o res pass .next) :
      Step cfg s (.thread t c) (s.setThread t (.uninstall o res pass (.after (s.heap.next o) .test)))
  | after {t o res pass c first pc pc'} {h : Heap O (T × Bucket)}
      (hpc : s.thread t = .uninstall o res pass (.after first pc))
      (hm : pushAllStep s.heap (stoppingQueue cfg s o) first (fun _ => true) c pc =
        (h, .running pc')) :
      Step cfg s (.thread t c) ({ s with heap := h }.setThread t
        (.uninstall o res pass (.after first pc')))
  | afterDone {t o res pass c first pc u} {h : Heap O (T × Bucket)}
      (hpc : s.thread t = .uninstall o res pass (.after first pc))
      (hm : pushAllStep s.heap (stoppingQueue cfg s o) first (fun _ => true) c pc =
        (h, .returned u)) :
      Step cfg s (.thread t c) ({ s with heap := h }.setThread t (.uninstall o res pass .deliver))
  | restart {t o res pass c} (hpc : s.thread t = .uninstall o res pass .deliver)
      (hd : consumeOne pass (cfg.timer o) res = .restart) :
      Step cfg s (.thread t c) ({ s with
        ring := Function.update s.ring t ((s.ring t).advance 1)
        status := Function.update s.status o (.busy t) }.setThread t (.spawn o))
  | complete {t o res pass c sig} (hpc : s.thread t = .uninstall o res pass .deliver)
      (hd : consumeOne pass (cfg.timer o) res = .complete sig) :
      Step cfg s (.thread t c) (({ s with
        ring := Function.update s.ring t ((s.ring t).advance 1) }.signal o sig).setThread t .idle)
  | sweepMove {t b c pc pc'} {h : Heap O (T × Bucket)} (hpc : s.thread t = .sweepMove b pc)
      (hm : moveAllStep s.heap (t, b) c pc = (h, .running pc')) :
      Step cfg s (.thread t c) ({ s with heap := h }.setThread t (.sweepMove b pc'))
  | sweepMoved {t b c pc op} {h : Heap O (T × Bucket)} (hpc : s.thread t = .sweepMove b pc)
      (hm : moveAllStep s.heap (t, b) c pc = (h, .returned op)) :
      Step cfg s (.thread t c) ({ s with heap := h }.setThread t (.sweep b op))
  | sweepEnd {t b c} (hpc : s.thread t = .sweep b none) :
      Step cfg s (.thread t c) (s.setThread t .idle)
  | sweepCancel {t b c op r} (hpc : s.thread t = .sweep b (some op))
      (hr : (s.ring t).getSqe (cfg.entries t) (.cancel op) = some r) :
      Step cfg s (.thread t c) ({ s.issue t r (.cancel op) with
        heap := s.heap.setNext op none }.setThread t (.sweep b (s.heap.next op)))
  | sweepFull {t b c op} (hpc : s.thread t = .sweep b (some op))
      (hr : (s.ring t).getSqe (cfg.entries t) (.cancel op) = none) :
      Step cfg s (.thread t c) (s.setThread t (.sweepBack b (some op) .test))
  | sweepBack {t b c first pc pc'} {h : Heap O (T × Bucket)}
      (hpc : s.thread t = .sweepBack b first pc)
      (hm : pushAllStep s.heap (t, b) first (fun _ => true) c pc = (h, .running pc')) :
      Step cfg s (.thread t c) ({ s with heap := h }.setThread t (.sweepBack b first pc'))
  | sweepBackDone {t b c first pc u} {h : Heap O (T × Bucket)}
      (hpc : s.thread t = .sweepBack b first pc)
      (hm : pushAllStep s.heap (t, b) first (fun _ => true) c pc = (h, .returned u)) :
      Step cfg s (.thread t c) ({ s with heap := h }.setThread t .idle)
  | launch {t o} (hpc : s.thread t = .idle) (hopen : s.closed t = false)
      (hst : s.status o = .waiting) (hscope : s.scopeStopped = false) :
      Step cfg s (.launch t o) ((s.finishTask o .launched).enterStart t o)
  | launchStopped {t o} (hpc : s.thread t = .idle) (hopen : s.closed t = false)
      (hst : s.status o = .waiting) (hscope : s.scopeStopped = true) :
      Step cfg s (.launch t o) { s.finishTask o .stopped with
        status := Function.update s.status o .dropped }
  | cancelTask {t o} (hpc : s.thread t = .idle) (hopen : s.closed t = false)
      (hst : s.status o = .waiting) :
      Step cfg s (.cancelTask t o) { s.finishTask o .cancelled with
        status := Function.update s.status o .dropped }
  | requestStop {src} : Step cfg s (.requestStop src) { s with
      stopSource := Function.update s.stopSource src true }
  | stopScope : Step cfg s .stopScope { s with scopeStopped := true }
  | fire {o} (hcb : s.callback o = .registered) (hstop : s.stopRequested cfg o = true) :
      Step cfg s (.fire o) { s with callback := Function.update s.callback o (.running .load) }
  | push {o c pc pc'} {h : Heap O (T × Bucket)} (hcb : s.callback o = .running pc)
      (hm : pushStep s.heap (stoppingQueue cfg s o) o c pc = (h, .running pc')) :
      Step cfg s (.push o c) { s with
        heap := h
        callback := Function.update s.callback o (.running pc') }
  | pushed {o c pc u} {h : Heap O (T × Bucket)} (hcb : s.callback o = .running pc)
      (hm : pushStep s.heap (stoppingQueue cfg s o) o c pc = (h, .returned u)) :
      Step cfg s (.push o c) { s with
        heap := h
        callback := Function.update s.callback o .ran }
  | submit {t n} (hpc : s.thread t = .idle) (hopen : s.closed t = false) :
      Step cfg s (.submit t n) { s with ring := Function.update s.ring t ((s.ring t).submit n) }
  | cancelAny {t r} (hpc : s.thread t = .idle) (hopen : s.closed t = false)
      (hr : ((s.ring t).submit (s.ring t).sq.length).getSqe (cfg.entries t) .cancelAny = some r) :
      Step cfg s (.cancelAny t) (s.issue t (r.submit r.sq.length) .cancelAny)
  | post {t i res e r} (hr : (s.ring t).post i res = some (e, r)) :
      Step cfg s (.post t i res) { s with
        ring := Function.update s.ring t r
        effects := match e.data with
          | some o => if res = -ECANCELED then s.effects
              else Function.update s.effects o (s.effects o ++ [res])
          | none => s.effects }
  | consumeNoop {t pass res l} (hpc : s.thread t = .idle) (hopen : s.closed t = false)
      (hcq : (s.ring t).cq = ⟨none, res⟩ :: l) :
      Step cfg s (.consume t pass) { s with
        ring := Function.update s.ring t ((s.ring t).advance 1) }
  | consume {t pass o res l} (hpc : s.thread t = .idle) (hopen : s.closed t = false)
      (hcq : (s.ring t).cq = ⟨some o, res⟩ :: l) :
      Step cfg s (.consume t pass) (s.setThread t (.uninstall o res pass
        (if (cfg.token o).isSome then .reset else .deliver)))
  | sweep {t b} (hpc : s.thread t = .idle) (hopen : s.closed t = false) :
      Step cfg s (.sweep t b) (s.setThread t (.sweepMove b .load))
  | close {t} (hpc : s.thread t = .idle) (hopen : s.closed t = false) :
      Step cfg s (.close t) { s with closed := Function.update s.closed t true }

variable {cfg : Config O T S} {s s' : State O T S}

theorem Step.of_uninstallStep {t : T} {o : O} {res : Int} {pass : Pass} {c : Bool}
    {stage : Uninstall O} (hpc : s.thread t = .uninstall o res pass stage)
    (h : uninstallStep cfg s t o res pass c stage = some s') : Step cfg s (.thread t c) s' := by
  cases stage with
  | reset =>
      simp only [uninstallStep] at h
      split at h
      · cases h
      · next hcb =>
          obtain rfl := Option.some.inj h
          exact .reset hpc hcb
  | moveAll pc =>
      simp only [uninstallStep] at h
      split at h <;> obtain rfl := Option.some.inj h
      · next hm => exact .moveAll hpc hm
      · next hm => exact .movedNothing hpc hm
      · next hm => exact .moved hpc hm
  | before first pc =>
      simp only [uninstallStep] at h
      split at h <;> obtain rfl := Option.some.inj h
      · next hm => exact .before hpc hm
      · next hm => exact .beforeDone hpc hm
  | next =>
      obtain rfl := Option.some.inj h
      exact .next hpc
  | after first pc =>
      simp only [uninstallStep] at h
      split at h <;> obtain rfl := Option.some.inj h
      · next hm => exact .after hpc hm
      · next hm => exact .afterDone hpc hm
  | deliver =>
      simp only [uninstallStep] at h
      split at h <;> obtain rfl := Option.some.inj h
      · next hd => exact .restart hpc hd
      · next hd => exact .complete hpc hd

theorem Step.of_threadStep {t : T} {c : Bool} (h : threadStep cfg s t c = some s') :
    Step cfg s (.thread t c) s' := by
  simp only [threadStep] at h
  split at h
  · cases h
  · next o hpc =>
      split at h <;> obtain rfl := Option.some.inj h
      · next hstop => exact .testStopped hpc hstop
      · next hstop => exact .testPassed hpc (by simpa using hstop)
  · next o hpc =>
      split at h <;> obtain rfl := Option.some.inj h
      · next hr => exact .sqe hpc hr
      · next hr => exact .full hpc hr
  · next o hpc =>
      split at h <;> obtain rfl := Option.some.inj h
      · next htok => exact .installNothing hpc htok
      · next htok => exact .install hpc htok
  · next o hpc =>
      cases c <;> obtain rfl := Option.some.inj h
      · exact .spawn hpc
      · exact .spawnThrows hpc
  · next hpc => exact .of_uninstallStep hpc h
  · next hpc =>
      split at h <;> obtain rfl := Option.some.inj h
      · next hm => exact .sweepMove hpc hm
      · next hm => exact .sweepMoved hpc hm
  · next hpc =>
      obtain rfl := Option.some.inj h
      exact .sweepEnd hpc
  · next hpc =>
      split at h <;> obtain rfl := Option.some.inj h
      · next hr => exact .sweepCancel hpc hr
      · next hr => exact .sweepFull hpc hr
  · next hpc =>
      split at h <;> obtain rfl := Option.some.inj h
      · next hm => exact .sweepBack hpc hm
      · next hm => exact .sweepBackDone hpc hm

theorem Step.of_step {a : Label O T S} (h : (machine cfg).step s a = some s') :
    Step cfg s a s' := by
  simp only [machine, step] at h
  split at h
  · split at h
    · next hg =>
        obtain rfl := Option.some.inj h
        exact .start hg.1 hg.2.1 hg.2.2
    · cases h
  · exact .of_threadStep h
  · split at h
    · next hg =>
        obtain rfl := Option.some.inj h
        cases hscope : s.scopeStopped with
        | false => exact .launch hg.1 hg.2.1 hg.2.2 hscope
        | true => exact .launchStopped hg.1 hg.2.1 hg.2.2 hscope
    · cases h
  · split at h
    · next hg =>
        obtain rfl := Option.some.inj h
        exact .cancelTask hg.1 hg.2.1 hg.2.2
    · cases h
  · obtain rfl := Option.some.inj h
    exact .requestStop
  · obtain rfl := Option.some.inj h
    exact .stopScope
  · split at h
    · next hg =>
        obtain rfl := Option.some.inj h
        exact .fire hg.1 hg.2
    · cases h
  · split at h
    · next hcb =>
        split at h <;> obtain rfl := Option.some.inj h
        · next hm => exact .push hcb hm
        · next hm => exact .pushed hcb hm
    · cases h
  · split at h
    · next hg =>
        obtain rfl := Option.some.inj h
        exact .submit hg.1 hg.2
    · cases h
  · split at h
    · next hg =>
        split at h
        · next hr =>
            obtain rfl := Option.some.inj h
            exact .cancelAny hg.1 hg.2 hr
        · cases h
    · cases h
  · split at h
    · next hr =>
        obtain rfl := Option.some.inj h
        exact .post hr
    · cases h
  · split at h
    · next hg =>
        split at h
        · cases h
        · next hcq =>
            obtain rfl := Option.some.inj h
            exact .consumeNoop hg.1 hg.2 hcq
        · next hcq =>
            obtain rfl := Option.some.inj h
            exact .consume hg.1 hg.2 hcq
    · cases h
  · split at h
    · next hg =>
        obtain rfl := Option.some.inj h
        exact .sweep hg.1 hg.2
    · cases h
  · split at h
    · next hg =>
        obtain rfl := Option.some.inj h
        exact .close hg.1 hg.2
    · cases h

end IoUring.Exec.Operation
