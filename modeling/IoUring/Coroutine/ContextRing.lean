import IoUring.Base.Slots
import IoUring.Coroutine.ContextStep

/-!
# The rings of a context

A slot of the CQ ring holds the CQE that was posted last into it, so the loop over
the ring sees every CQE once and in order.
-/

namespace IoUring.Coroutine

variable {cfg : Config} {s s' : State}

/-! ## Submission -/

/-- The requests the kernel works on. -/
def Ring.requests (r : Ring) : List (Sqe Request) :=
  r.flight.flatMap Chain.members

theorem chainsOf_flatten {P : Type*} (sq : List (Sqe P)) : (chainsOf sq).flatten = sq := by
  induction sq with
  | nil => rfl
  | cons e es ih =>
      simp only [chainsOf]
      split
      · next c cs _ hcs =>
          rw [hcs, List.flatten_cons] at ih
          simp [ih]
      · simp [ih]

theorem Ring.requests_submit (r : Ring) : r.submit.requests = r.requests ++ r.sq := by
  have hmembers : ((chainsOf r.sq).map fun l => (⟨l, false⟩ : Chain)).flatMap Chain.members = r.sq := by
    rw [List.flatMap_map, List.flatMap_id', chainsOf_flatten]
  simp only [Ring.requests, Ring.submit, List.flatMap_append, hmembers]

/-- One request is taken out of its chain. -/
theorem requests_perm {flight : List Chain} {i : Nat} {e : Sqe Request} {rest : List (Sqe Request)}
    {severed : Bool} (severed' : Bool) (h : flight[i]? = some ⟨e :: rest, severed⟩) :
    (flight.flatMap Chain.members).Perm
      (e :: (flight.set i ⟨rest, severed'⟩).flatMap Chain.members) := by
  induction flight generalizing i with
  | nil => simp at h
  | cons c cs ih =>
      cases i with
      | zero =>
          obtain rfl : c = ⟨e :: rest, severed⟩ := by simpa using h
          simp
      | succ i =>
          have hcs := ih (i := i) (by simpa using h)
          simp only [List.flatMap_cons, List.set_cons_succ]
          exact (hcs.append_left c.members).trans List.perm_middle

theorem mem_requests {i : Nat} {e : Sqe Request} {rest : List (Sqe Request)} {severed : Bool}
    (h : s.ring.flight[i]? = some ⟨e :: rest, severed⟩) : e ∈ s.ring.requests :=
  (requests_perm severed h).mem_iff.mpr List.mem_cons_self

/-! ## Constructors -/

/-- New entries and new objects, the same on all addresses that were used. -/
structure Prepares (s s' : State) (sqes : List (Sqe Request)) (o : Awaitable) : Prop where
  sq : s'.ring = { s.ring with sq := s.ring.sq ++ sqes }
  next : s.next < s'.next
  object : ∀ a, s'.object a = if s.next ≤ a ∧ a < s'.next then o else s.object a
  fresh : o = { multishot := o.multishot, userData := { sqe := o.userData.sqe } }
  data : ∀ e ∈ sqes, ∃ a, e.data = some a ∧ s.next ≤ a ∧ a < s'.next
  count : ∀ a, (sqes.map Sqe.data).count (some a) ≤ 1
  prep : ∀ e ∈ sqes, e.prep = if o.multishot then .multishot else .oneshot
  rest : s' = { s with ring := s'.ring, next := s'.next, object := s'.object, chains := s'.chains }

theorem construct_prepares {r : SqRing Request} {o : Awaitable} {sqes : List (Sqe Request)}
    (hsq : r.sq = s.ring.sq ++ sqes) (hnext : s.next < r.next)
    (hfresh : o = { multishot := o.multishot, userData := { sqe := o.userData.sqe } })
    (hdata : ∀ e ∈ sqes, ∃ a, e.data = some a ∧ s.next ≤ a ∧ a < r.next)
    (hcount : ∀ a, (sqes.map Sqe.data).count (some a) ≤ 1)
    (hprep : ∀ e ∈ sqes, e.prep = if o.multishot then .multishot else .oneshot) :
    Prepares s (s.construct r o) sqes o :=
  ⟨by simp [State.construct, hsq], hnext, fun _ => rfl, hfresh, hdata, hcount, hprep, rfl⟩

/-- The constructors of single operations take at most one entry. -/
theorem constructStep_prepares {prep : Request} {drain : Bool}
    (hprep : prep = .oneshot ∨ prep = .multishot) (h : constructStep cfg s prep drain = some s') :
    ∃ sqes o, Prepares s s' sqes o ∧ s'.chains = s.chains ∧ s'.next = s.next + 1 ∧
      (o.multishot = true ↔ prep = .multishot) ∧
      (∀ e ∈ sqes, e.flags = { ioDrain := drain } ∧ e.data = some s.next) ∧
      (o.userData.sqe = true → sqes ≠ []) := by
  have hif : prep = if prep = .multishot then .multishot else .oneshot := by
    rcases hprep with rfl | rfl <;> rfl
  by_cases hroom : s.ring.sq.length < cfg.entries
  · have hstep : s' = s.construct
        ⟨cfg.entries, s.ring.sq ++ [⟨prep, { ioDrain := drain }, some s.next⟩], s.next + 1⟩
        { multishot := prep = .multishot, userData := { sqe := true } } := by
      have hmodify := modify_append_cons s.ring.sq [] (⟨prep, {}, some s.next⟩ : Sqe Request)
        fun e => { e with flags := { e.flags with ioDrain := true } }
      cases drain
      · simpa [constructStep, asyncOperation, State.sqRing, hroom] using h.symm
      · simpa [constructStep, asyncOperation, State.sqRing, hroom, hmodify] using h.symm
    subst hstep
    refine ⟨[⟨prep, { ioDrain := drain }, some s.next⟩], _, construct_prepares rfl (Nat.lt_succ_self _)
      rfl ?_ ?_ ?_, rfl, rfl, by simp, by simp, by simp⟩
    · simp
    · intro a
      exact List.count_le_length
    · simpa using hif
  · cases drain with
    | true => simp [constructStep, asyncOperation, State.sqRing, hroom] at h
    | false =>
        have hstep : s' = s.construct ⟨cfg.entries, s.ring.sq, s.next + 1⟩
            { multishot := prep = .multishot, userData := { sqe := false } } := by
          simpa [constructStep, asyncOperation, State.sqRing, hroom] using h.symm
        subst hstep
        exact ⟨[], _, construct_prepares (by simp) (Nat.lt_succ_self _) rfl (by simp) (by simp)
          (by simp), rfl, rfl, by simp, by simp, by simp⟩

theorem Sqe.linked_of_link {P : Type*} {e : Sqe P} {hard : Bool}
    (h : e.flags = SqeFlags.link hard {}) : e.linked = true := by
  rw [Sqe.linked, h]
  cases hard <;> rfl

theorem Sqe.linked_of_flags {P : Type*} {e : Sqe P} (h : e.flags = {}) : e.linked = false := by
  rw [Sqe.linked, h]
  rfl

theorem Sqe.operation_of_prep {e : Sqe Request} (h : e.prep = .oneshot ∨ e.prep = .multishot) :
    e.operation = e.data := by
  rw [Sqe.operation]
  rcases h with h | h <;> rw [h]

/-- The user data of a request of an operation is the address of the operation. -/
theorem Sqe.data_of_operation {e : Sqe Request} {a : Nat} (h : e.operation = some a) : e.data = some a := by
  rw [Sqe.operation] at h
  split at h
  · cases h
  · exact h

/-- Linked entries are linked to the next entry, together with those that lead to them. -/
theorem chainTo_append {P : Type*} (sq post : List (Sqe P)) {pre : List (Sqe P)} (last : Sqe P)
    (hpre : ∀ x ∈ pre, x.linked = true) : chainTo (sq ++ pre ++ last :: post) (sq ++ pre).length =
      sq.rtakeWhile Sqe.linked ++ (pre ++ [last]) := by
  have hwhile : (sq ++ pre).rtakeWhile Sqe.linked = sq.rtakeWhile Sqe.linked ++ pre := by
    rw [List.rtakeWhile, List.reverse_append, List.takeWhile_append_of_pos (by simpa using hpre),
      List.reverse_append, List.reverse_reverse, List.rtakeWhile]
  rw [chainTo, List.take_left, hwhile, List.getElem?_append_right (Nat.le_refl _), Nat.sub_self,
    List.getElem?_cons_zero, Option.toList_some, List.append_assoc]

/-- The entries of an expression: the one of the awaitable is not linked to the next one, and
all others are. Those before it are linked to it. -/
theorem linkStep_prepares {e : Expr Request} {order : Order} (h : linkStep cfg s e order = some s') :
    ∃ pre last post, Prepares s s' (pre ++ last :: post) { multishot := false, userData := { sqe := true } } ∧
      s'.chains = (s.ring.sq.rtakeWhile Sqe.linked ++ (pre ++ [last])) :: s.chains ∧
      (∀ x ∈ pre ++ post, x.linked = true) ∧ last.flags = {} ∧ last.data = some (s'.next - 1) := by
  simp only [linkStep] at h
  split at h
  · next hg =>
      split at h
      · next r op heval =>
          obtain rfl := Option.some.inj h
          have hop := e.evaluates_of_eval order _ heval (e.sqe_of_eval order _ hg.1 heval)
          have hle : s.next ≤ op.userData := hop.le
          have hnext := hop.next
          obtain ⟨pre, post, hsq, hsqe, hpre, hpost, hcount⟩ := hop.sq
          have hsq : r.sq = s.ring.sq ++ (pre ++ ⟨e.last, {}, some op.userData⟩ :: post) := by
            rw [hsq]
            simp [State.sqRing]
          have hsqe : op.sqe = some (s.ring.sq ++ pre).length := hsqe
          have hlinked : ∀ x ∈ pre ++ post, x.linked = true ∧ x.prep ∈ e.leaves := by
            intro x hx
            have hothers : (x.prep, x.flags) ∈ (e.others order).1 ∨ (x.prep, x.flags) ∈ (e.others order).2 := by
              rw [← hpre.ops, ← hpost.ops]
              exact (List.mem_append.mp hx).imp (List.mem_map_of_mem (f := fun x : Sqe Request => (x.prep, x.flags)))
                (List.mem_map_of_mem (f := fun x : Sqe Request => (x.prep, x.flags)))
            obtain ⟨hard, hflags⟩ := e.flags_of_others order hothers
            exact ⟨Sqe.linked_of_link hflags, e.mem_leaves_of_others order hothers⟩
          refine ⟨pre, ⟨e.last, {}, some op.userData⟩, post,
            { construct_prepares hsq (by omega) rfl ?_ ?_ ?_ with rest := rfl }, ?_,
            fun x hx => (hlinked x hx).1, rfl, ?_⟩
          · intro x hx
            rcases List.mem_append.mp hx with hx | hx
            · obtain ⟨a, ha, hlow, hhigh⟩ := hpre.data x hx
              exact ⟨a, ha, hlow, by omega⟩
            · rcases List.mem_cons.mp hx with rfl | hx
              · exact ⟨op.userData, rfl, hle, by omega⟩
              · obtain ⟨a, ha, hlow, hhigh⟩ := hpost.data x hx
                exact ⟨a, ha, hlow, by omega⟩
          · intro a
            have hone := hcount a
            simp only [List.map_append, List.map_cons, List.count_append, List.count_cons, beq_iff_eq,
              Option.some.injEq]
            by_cases ha : op.userData = a
            · have hzero := hpre.count_eq_zero (a := a) (.inr (by omega))
              have hzero' := hpost.count_eq_zero (a := a) (.inr (by omega))
              rw [if_pos ha]
              omega
            · rw [if_neg ha]
              omega
          · intro x hx
            refine hg.2 x.prep ?_
            rcases List.mem_append.mp hx with hx | hx
            · exact (hlinked x (List.mem_append_left _ hx)).2
            · rcases List.mem_cons.mp hx with rfl | hx
              · exact e.last_mem_leaves
              · exact (hlinked x (List.mem_append_right _ hx)).2
          · have hchain : chainTo r.sq (s.ring.sq ++ pre).length =
                s.ring.sq.rtakeWhile Sqe.linked ++ (pre ++ [⟨e.last, {}, some op.userData⟩]) := by
              rw [hsq, ← List.append_assoc]
              exact chainTo_append _ _ _ fun x hx => (hlinked x (List.mem_append_left _ hx)).1
            rw [hsqe, Option.toList_some, List.map_singleton, hchain]
            rfl
          · simp [State.construct, hnext]
      · cases h
  · cases h

/-! ## Destructors -/

/-- The ring is submitted, and cancellations are prepared. -/
inductive Drives (r : Ring) : Ring → Prop where
  | refl : Drives r r
  | submit {r' : Ring} : Drives r r' → Drives r r'.submit
  | cancel {r' : Ring} (a : Nat) (flags : SqeFlags) (stale : Option Nat) : flags.ioLink = false →
      flags.ioHardlink = false → Drives r r' →
      Drives r { r' with sq := r'.sq ++ [⟨.cancel a, flags, stale⟩] }

theorem Ring.cancel_drives (cfg : Config) (r : Ring) (a : Nat) (stale : Option Nat) :
    Drives r (r.cancel cfg a stale) := by
  have hretrieve : Drives r (r.retrieve cfg) := by
    rw [Ring.retrieve]
    split
    · exact .refl
    · exact .submit .refl
  simp only [Ring.cancel]
  split
  · exact .submit (.cancel a _ stale rfl rfl hretrieve)
  · exact hretrieve

theorem dropMultishot_drives (cfg : Config) (s : State) (a : Nat) (stale : Option Nat) :
    ∃ r, Drives s.ring r ∧ dropMultishot cfg s a stale = { dropOperation s a with ring := r } := by
  refine ⟨_, ?_, rfl⟩
  split
  · exact Ring.cancel_drives cfg s.ring a stale
  · exact .refl

theorem Drives.same {r r' : Ring} (h : Drives r r') :
    r'.khead = r.khead ∧ r'.ktail = r.ktail ∧ r'.cqes = r.cqes := by
  induction h with
  | refl => exact ⟨rfl, rfl, rfl⟩
  | submit _ ih => exact ih
  | cancel _ _ _ _ _ _ ih => exact ih

/-! ## What `await_resume()` changes -/

theorem awaitResume_eq (s : State) (a : Nat) : ∃ d res, s.awaitResume a =
    { s with
      object := Function.update s.object a { s.object a with userData := d }
      returned := (a, res) :: s.returned } := by
  simp only [State.awaitResume]
  split
  · exact ⟨_, _, rfl⟩
  · exact ⟨(s.object a).userData, _, by rw [Function.update_eq_self]⟩

/-- A plain operation is as it was. -/
theorem awaitResume_plain {a : Nat} (h : (s.object a).multishot = false) : s.awaitResume a =
    { s with returned := (a, if (s.object a).userData.sqe then
      (((s.object a).userData.cqe.map s.ring.cqes).map Cqe.res).getD 0 else -ENOMEM) :: s.returned } := by
  simp [State.awaitResume, h]

theorem setUserData_multishot (s : State) (a : Nat) (d : AsyncUserData) (a' : Nat) :
    ((s.setUserData a d).object a').multishot = (s.object a').multishot := by
  simp only [State.setUserData, State.setObject, Function.update_apply]
  split
  · next h => rw [h]
  · rfl

theorem setUserData_sqe (s : State) (a : Nat) (d : AsyncUserData)
    (h : d.sqe = (s.object a).userData.sqe) (a' : Nat) :
    ((s.setUserData a d).object a').userData.sqe = (s.object a').userData.sqe := by
  simp only [State.setUserData, State.setObject, Function.update_apply]
  split
  · next heq => rw [h, heq]
  · rfl

theorem dropOperation_multishot (s : State) (a a' : Nat) :
    ((dropOperation s a).object a').multishot = (s.object a').multishot := by
  simp only [dropOperation, State.setObject, Function.update_apply]
  split
  · next h => rw [h]
  · rfl

theorem dropOperation_sqe (s : State) (a a' : Nat) :
    ((dropOperation s a).object a').userData.sqe = (s.object a').userData.sqe := by
  simp only [dropOperation, State.setObject, Function.update_apply]
  split
  · next h => rw [h]
  · rfl

theorem awaitResume_multishot (s : State) (a a' : Nat) :
    ((s.awaitResume a).object a').multishot = (s.object a').multishot := by
  obtain ⟨d, res, heq⟩ := awaitResume_eq s a
  rw [heq]
  exact setUserData_multishot s a d a'

theorem awaitResume_sqe (s : State) (a a' : Nat) :
    ((s.awaitResume a).object a').userData.sqe = (s.object a').userData.sqe := by
  by_cases hmultishot : (s.object a).multishot = true
  · rw [State.awaitResume, if_pos hmultishot]
    refine setUserData_sqe _ a _ ?_ a'
    rfl
  · rw [awaitResume_plain (by simpa using hmultishot)]

/-! ## The CQ ring -/

structure RingOk (cfg : Config) (s : State) : Prop where
  tail : s.posted.length = s.ring.ktail
  head : s.ring.khead + s.phase.done ≤ s.ring.ktail
  room : s.ring.ktail ≤ s.ring.khead + cfg.cqEntries
  slots : Slots cfg.cqEntries s.ring.cqes s.posted

/-- The CQ ring is as it was. -/
structure SameCq (s s' : State) : Prop where
  khead : s'.ring.khead = s.ring.khead
  ktail : s'.ring.ktail = s.ring.ktail
  cqes : s'.ring.cqes = s.ring.cqes
  posted : s'.posted = s.posted

theorem RingOk.same (h : RingOk cfg s) (hs : SameCq s s')
    (hdone : s.ring.khead + s'.phase.done ≤ s.ring.ktail) : RingOk cfg s' where
  tail := by rw [hs.posted, hs.ktail, h.tail]
  head := by rw [hs.khead, hs.ktail]; exact hdone
  room := by rw [hs.khead, hs.ktail]; exact h.room
  slots := by rw [hs.posted, hs.cqes]; exact h.slots

/-- The loop looks at the CQEs in the order in which they were posted. -/
theorem RingOk.current (h : RingOk cfg s) (hreap : Reaping s) :
    s.posted[s.ring.khead + s.phase.done]? = some (s.current cfg) := by
  have hlt := hreap.lt
  have hroom := h.room
  rw [← h.tail] at hlt
  rw [List.getElem?_eq_getElem hlt, State.current,
    h.slots.get _ _ (List.getElem?_eq_getElem hlt) (by have := h.tail; omega)]

theorem RingOk.post (h : RingOk cfg s) (hroom : s.ring.hasRoom cfg) (c : Cqe) :
    RingOk cfg (s.post cfg c) where
  tail := by simp [State.post, h.tail]
  head := Nat.le_succ_of_le h.head
  room := hroom
  slots := by
    have hpush := h.slots.push c
    rwa [h.tail] at hpush

theorem Prepares.ringOk {sqes : List (Sqe Request)} {o : Awaitable} (hprep : Prepares s s' sqes o)
    (h : RingOk cfg s) : RingOk cfg s' := by
  have hcq : SameCq s s' := by
    rw [hprep.rest]
    exact ⟨by rw [hprep.sq], by rw [hprep.sq], by rw [hprep.sq], rfl⟩
  apply h.same hcq
  rw [hprep.rest]
  exact h.head

theorem RingOk.step {a : Label} (h : RingOk cfg s) (hstep : Step cfg s a s') : RingOk cfg s' := by
  have hzero : s.ring.khead ≤ s.ring.ktail := Nat.le_trans (Nat.le_add_right _ _) h.head
  cases hstep with
  | coSpawn _ => exact h.same ⟨rfl, rfl, rfl, rfl⟩ h.head
  | push _ => exact h.same ⟨rfl, rfl, rfl, rfl⟩ h.head
  | runOnce _ => exact h.same ⟨rfl, rfl, rfl, rfl⟩ hzero
  | launched _ _ => exact h.same ⟨rfl, rfl, rfl, rfl⟩ hzero
  | resume _ _ _ => exact h.same ⟨rfl, rfl, rfl, rfl⟩ hzero
  | submit _ _ =>
      refine h.same ⟨rfl, rfl, rfl, rfl⟩ ?_
      simp only [submitStep]
      split <;> exact hzero
  | skip hreap _ => exact h.same ⟨rfl, rfl, rfl, rfl⟩ hreap.lt
  | torn hreap _ _ _ => exact h.same ⟨rfl, rfl, rfl, rfl⟩ hreap.lt
  | eager hreap _ _ _ _ => exact h.same ⟨rfl, rfl, rfl, rfl⟩ hreap.lt
  | @complete a hd hreap _ _ _ _ _ =>
      obtain ⟨d, res, heq⟩ := awaitResume_eq (s.reaped cfg a) a
      rw [heq]
      exact h.same ⟨rfl, rfl, rfl, rfl⟩ hreap.lt
  | leave _ _ _ _ _ =>
      exact {
        tail := h.tail
        head := h.head
        room := Nat.le_trans h.room (by simp [State.left])
        slots := h.slots }
  | @posted i e rest o post hfinish hroom _ =>
      have hfinished : RingOk cfg (s.finished i e rest o) := h.same ⟨rfl, rfl, rfl, rfl⟩ h.head
      exact hfinished.post hroom _
  | silent _ _ => exact h.same ⟨rfl, rfl, rfl, rfl⟩ h.head
  | more _ _ hroom => exact h.post hroom _
  | construct hact hs' =>
      obtain ⟨sqes, o, hprep, -⟩ := constructStep_prepares (UserAct.prep_of_constructs hact) hs'
      exact hprep.ringOk h
  | link hs' =>
      obtain ⟨_, _, _, hprep, -⟩ := linkStep_prepares hs'
      exact hprep.ringOk h
  | suspend _ _ _ _ _ _ => exact h.same ⟨rfl, rfl, rfl, rfl⟩ h.head
  | @ready a _ _ _ _ =>
      obtain ⟨d, res, heq⟩ := awaitResume_eq { s with awaits := a :: s.awaits } a
      rw [heq]
      exact h.same ⟨rfl, rfl, rfl, rfl⟩ h.head
  | spawn => exact h.same ⟨rfl, rfl, rfl, rfl⟩ h.head
  | run _ _ => exact h.same ⟨rfl, rfl, rfl, rfl⟩ h.head
  | discard _ _ _ _ => exact h.same ⟨rfl, rfl, rfl, rfl⟩ h.head
  | @drop a stale _ _ _ _ =>
      obtain ⟨r, hdrives, heq⟩ := dropMultishot_drives cfg s a stale
      obtain ⟨hhead, htail, hcqes⟩ := hdrives.same
      rw [heq]
      exact h.same ⟨hhead, htail, hcqes, rfl⟩ h.head

theorem reachable_ring {ok : State → Label → Prop} (h : (machine cfg).Reach ok s) : RingOk cfg s := by
  refine h.invariant (RingOk cfg) (fun s hs => ?_) fun s a s' _ hring _ hstep =>
    hring.step (.of_step hstep)
  obtain ⟨-, -, -, hphase, -, -, -, hhead, htail, -, -, hposted, -⟩ := hs
  exact {
    tail := by simp [hposted, htail]
    head := by simp [hphase, hhead, htail, Phase.done]
    room := by simp [htail]
    slots := by rw [hposted]; exact .nil }

end IoUring.Coroutine
