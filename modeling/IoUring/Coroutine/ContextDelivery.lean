import IoUring.Coroutine.ContextOperation

/-!
# What a multishot operation delivers

One operation is awaited again and again, and each of its CQEs resumes the coroutine
from the loop over the ring. The coroutine is back at the operation before the loop
looks at the next CQE.
-/

namespace IoUring.Coroutine

variable {cfg : Config} {s s' : State} {l : Label} {a : Nat} {h : Handle}

/-- The CQEs of an operation that the loop over the ring has passed. -/
def State.passedCqes (s : State) (a : Nat) : List Cqe :=
  (s.posted.take s.seen).filter fun c => c.data = some a

/-- What the successive `co_await`s of an operation returned. -/
def State.delivered (s : State) (a : Nat) : List Int :=
  ((s.returned.filter fun r => r.1 = a).map Prod.snd).reverse

/-- `operator bool()` of an operation that exists. -/
def State.active (s : State) (a : Nat) : Prop :=
  a < s.next ∧ (s.object a).userData.uring = true

instance (s : State) (a : Nat) : Decidable (s.active a) :=
  inferInstanceAs (Decidable (_ ∧ _))

/-- The coroutine awaits nothing else, goes on, and keeps the operation. -/
def UserAct.stays (a : Nat) : UserAct → Bool
  | .await b => b == a
  | .call => false
  | .ret => false
  | .switchTo _ => false
  | .dropMultishot b _ => b != a
  | _ => true

/-- Coroutine `h` constructs the operation at `a` and awaits nothing but it as long as
it yields true, and nobody awaits it afterwards. Its CQEs are those of its request, and they
are not `-ECANCELED`. -/
def AwaitsOnly (a : Nat) (h : Handle) (s : State) (l : Label) : Prop :=
  Spares a s l ∧ (∀ c ∈ s.nextCqe l, c.data = some a → c.res ≠ -ECANCELED) ∧
    match l with
    | .user act =>
        (act = .asyncMultishotOperation → s.next = a → s.running = some h) ∧
          (s.active a → s.running = some h → act.stays a = true) ∧
          (act = .await a → s.active a)
    | _ => True

instance (a : Nat) (h : Handle) (s : State) : (l : Label) → Decidable (AwaitsOnly a h s l)
  | .user _ => inferInstanceAs (Decidable (_ ∧ _ ∧ _ ∧ _ ∧ _))
  | .coSpawn => inferInstanceAs (Decidable (_ ∧ _ ∧ True))
  | .push _ => inferInstanceAs (Decidable (_ ∧ _ ∧ True))
  | .runOnce _ => inferInstanceAs (Decidable (_ ∧ _ ∧ True))
  | .go => inferInstanceAs (Decidable (_ ∧ _ ∧ True))
  | .finish _ _ _ _ => inferInstanceAs (Decidable (_ ∧ _ ∧ True))
  | .more _ _ => inferInstanceAs (Decidable (_ ∧ _ ∧ True))

/-- A multishot operation with an SQE, and its coroutine. -/
structure MultishotOk (s : State) (a : Nat) (h : Handle) : Prop where
  live : (s.ring.live a).length ≤ 1
  last : ∀ (n : Nat) (c : Cqe), s.posted[n]? = some c → c.data = some a → c.more = false →
    s.ring.live a = [] ∧ ∀ (m : Nat) (c' : Cqe), s.posted[m]? = some c' → c'.data = some a → m ≤ n
  canceled : ∀ c ∈ s.posted, c.data = some a → c.res ≠ -ECANCELED
  cqe : (s.object a).userData.cqe = none
  uring : (s.object a).userData.uring = (s.passedCqes a).all Cqe.more
  delivered : s.delivered a = (s.passedCqes a).map Cqe.res
  alive : (s.object a).userData.uring = true → (s.object a).alive = true
  holder : (s.object a).userData.uring = true →
    s.suspended a = some h ∧ (s.object a).userData.h = some h ∨
      s.suspended a = none ∧ s.running = some h

/-! ## Frames -/

theorem filter_take_of_le {α : Type*} {p : α → Bool} {l : List α} {m n : Nat} (hmn : m ≤ n)
    (hp : ∀ i x, m ≤ i → i < n → l[i]? = some x → p x = false) :
    (l.take n).filter p = (l.take m).filter p := by
  induction hmn with
  | refl => rfl
  | @step n hmn ih =>
      have hlast : (l[n]?.toList).filter p = [] := by
        cases hx : l[n]? with
        | none => rfl
        | some x => simp [hp n x hmn (Nat.lt_succ_self n) hx]
      rw [List.take_add_one, List.filter_append, hlast, List.append_nil]
      exact ih fun i x hm hn => hp i x hm (Nat.lt_succ_of_lt hn)

/-- No step forgets what was returned, and one value is returned at most. -/
theorem Step.returned (hstep : Step cfg s l s') :
    s'.returned = s.returned ∨ ∃ b res, s'.returned = (b, res) :: s.returned := by
  cases hstep with
  | @complete b hd _ _ _ _ _ _ =>
      obtain ⟨d, res, heq⟩ := awaitResume_eq (s.reaped cfg b) b
      rw [heq]
      exact .inr ⟨b, res, rfl⟩
  | @ready b _ _ _ _ =>
      obtain ⟨d, res, heq⟩ := awaitResume_eq { s with awaits := b :: s.awaits } b
      rw [heq]
      exact .inr ⟨b, res, rfl⟩
  | construct hact hs' =>
      obtain ⟨sqes, o, hprep, -⟩ := constructStep_prepares (UserAct.prep_of_constructs hact) hs'
      rw [hprep.rest]
      exact .inl rfl
  | link hs' =>
      obtain ⟨_, _, _, hprep, -⟩ := linkStep_prepares hs'
      rw [hprep.rest]
      exact .inl rfl
  | _ => exact .inl rfl

theorem Same.delivered (hs : Same s s' a) (hstep : Step cfg s l s') :
    s'.delivered a = s.delivered a := by
  rcases hstep.returned with heq | ⟨b, res, heq⟩
  · rw [State.delivered, heq, State.delivered]
  · have hcount := hs.returned
    rw [heq, List.map_cons, List.count_cons] at hcount
    have hne : b ≠ a := by
      intro hba
      simp [hba] at hcount
    rw [State.delivered, heq, State.delivered, List.filter_cons_of_neg (by simpa using hne)]

theorem Same.passedCqes (hs : Same s s' a) (hring : RingOk cfg s)
    (hcanceled : ∀ c ∈ s.posted, c.data = some a → c.res ≠ -ECANCELED) :
    s'.passedCqes a = s.passedCqes a := by
  obtain ⟨cs, hposted, hcs⟩ := hs.posted
  have hlen : s.seen ≤ s.posted.length := by rw [hring.tail]; exact hring.head
  have htake : s.posted.take s.seen = s'.posted.take s.seen := by
    rw [hposted, List.take_append_of_le_length hlen]
  rw [State.passedCqes, State.passedCqes, htake]
  refine filter_take_of_le hs.le fun n c hle hlt hc => decide_eq_false fun hdata => ?_
  rw [hposted, List.getElem?_append] at hc
  split at hc
  · exact hcanceled c (List.mem_of_getElem? hc) hdata (hs.passed n c hle hlt hc hdata)
  · exact hcs c (List.mem_of_getElem? hc) hdata

/-- The coroutine that runs goes on, unless it waits for an operation, awaits something else or
ends. -/
theorem Step.running (hstep : Step cfg s l s') (hrun : s.running = some h)
    (hstays : ∀ act, l = .user act → act.stays a = true ∧ act ≠ .await a) :
    s'.running = some h := by
  cases hstep with
  | coSpawn _ => exact hrun
  | push _ => exact hrun
  | runOnce _ => exact hrun
  | posted _ _ _ => exact hrun
  | silent _ _ => exact hrun
  | more _ _ _ => exact hrun
  | spawn => exact hrun
  | construct hact hs' =>
      obtain ⟨sqes, o, hprep, -⟩ := constructStep_prepares (UserAct.prep_of_constructs hact) hs'
      rw [hprep.rest]
      exact hrun
  | link hs' =>
      obtain ⟨_, _, _, hprep, -⟩ := linkStep_prepares hs'
      rw [hprep.rest]
      exact hrun
  | @suspend b _ _ _ _ _ _ _ =>
      have hb := hstays _ rfl
      simp [UserAct.stays] at hb
  | @ready b _ _ _ _ =>
      have hb := hstays _ rfl
      simp [UserAct.stays] at hb
  | run hact _ =>
      have hb := (hstays _ rfl).1
      rcases hact with rfl | rfl | ⟨ok, rfl⟩ <;> simp [UserAct.stays] at hb
  | discard _ _ _ _ => exact hrun
  | drop _ _ _ _ => exact hrun
  | launched hnone _ => simp [hrun] at hnone
  | resume hnone _ _ => simp [hrun] at hnone
  | submit hnone _ => simp [hrun] at hnone
  | skip hreap _ => simp [hreap.running] at hrun
  | torn hreap _ _ _ => simp [hreap.running] at hrun
  | eager hreap _ _ _ _ => simp [hreap.running] at hrun
  | complete hreap _ _ _ _ _ => simp [hreap.running] at hrun
  | leave hnone _ _ _ _ => simp [hrun] at hnone

/-- A step of the kernel, or of nobody, leaves the passed CQEs. -/
theorem passedCqes_append (s' : State) (hring : RingOk cfg s) (hseen : s'.seen = s.seen) {cs : List Cqe}
    (hposted : s'.posted = s.posted ++ cs) : s'.passedCqes a = s.passedCqes a := by
  have hlen : s.seen ≤ s.posted.length := by rw [hring.tail]; exact hring.head
  rw [State.passedCqes, State.passedCqes, hseen, hposted, List.take_append_of_le_length hlen]

/-- The loop passes one more CQE of the operation. -/
theorem passedCqes_reaped (s' : State) (hring : RingOk cfg s) (hreap : Reaping s)
    (hdata : (s.current cfg).data = some a) (hseen : s'.seen = s.seen + 1)
    (hposted : s'.posted = s.posted) : s'.passedCqes a = s.passedCqes a ++ [s.current cfg] := by
  have hcurrent := hring.current hreap
  rw [← State.seen] at hcurrent
  rw [State.passedCqes, State.passedCqes, hseen, hposted, List.take_add_one, hcurrent,
    List.filter_append]
  simp [hdata]

theorem mem_passedCqes {c : Cqe} (hc : c ∈ s.passedCqes a) :
    ∃ n, n < s.seen ∧ s.posted[n]? = some c ∧ c.data = some a := by
  obtain ⟨hmem, hdata⟩ := List.mem_filter.mp hc
  obtain ⟨n, hn⟩ := List.mem_iff_getElem?.mp hmem
  rw [List.getElem?_take] at hn
  split at hn
  · next hlt => exact ⟨n, hlt, hn, by simpa using hdata⟩
  · cases hn

/-- `await_resume()` in the loop takes the result out of the CQE, and drops `uring` after the
last one. -/
theorem awaitResume_reaped (hmultishot : (s.object a).multishot = true)
    (hsqe : (s.object a).userData.sqe = true) : (s.reaped cfg a).awaitResume a =
      { s.passed with
        object := Function.update s.object a { s.object a with userData := { (s.object a).userData with
          uring := (s.object a).userData.uring && (s.current cfg).more, cqe := none } }
        returned := (a, (s.current cfg).res) :: s.returned } := by
  simp [State.awaitResume, State.reaped, State.passed, State.setUserData, State.setObject, State.current,
    hmultishot, hsqe]

/-- The loop resumes the coroutine that waits for the operation of its CQE. -/
theorem Step.step_complete (hreap : Reaping s) (hres : (s.current cfg).res ≠ -ECANCELED)
    (hdata : (s.current cfg).data = some a) (halive : (s.object a).alive = true)
    (hh : (s.object a).userData.h = some h) (hsuspended : s.suspended a = some h) :
    step cfg s .go = some { (s.reaped cfg a).awaitResume a with
      suspended := Function.update s.suspended a none
      running := some h } := by
  obtain ⟨done, hphase⟩ := hreap.phase
  have hlt := hreap.lt
  have hdone : s.phase.done = done := by rw [hphase]; rfl
  rw [State.current, hdone] at hres hdata
  rw [hdone] at hlt
  simp [step, hreap.running, goStep, hphase, reapStep, hlt, hres, hdata, completeStep, halive, hh,
    hsuspended, State.reaped, State.passed, Phase.done, State.setUserData, State.setObject]

/-! ## Steps -/

theorem Same.multishotOk (hs : Same s s' a) (hring : RingOk cfg s) (hstep : Step cfg s l s')
    (ha : a < s.next) (hok : AwaitsOnly a h s l) (hm : MultishotOk s a h) :
    MultishotOk s' a h := by
  obtain ⟨cs, hposted, hcs⟩ := hs.posted
  have hpassed := hs.passedCqes hring hm.canceled
  have hget : ∀ (n : Nat) (c : Cqe), s'.posted[n]? = some c → c.data = some a →
      s.posted[n]? = some c := by
    intro n c hc hdata
    rw [hposted, List.getElem?_append] at hc
    split at hc
    · exact hc
    · exact absurd hdata (hcs c (List.mem_of_getElem? hc))
  exact {
    live := by rw [← hs.live.length_eq]; exact hm.live
    last := by
      intro n c hc hdata hmore
      obtain ⟨hlive, hle⟩ := hm.last n c (hget n c hc hdata) hdata hmore
      have hnil := hs.live
      rw [hlive] at hnil
      exact ⟨hnil.symm.eq_nil, fun m c' hc' hdata' => hle m c' (hget m c' hc' hdata') hdata'⟩
    canceled := by
      intro c hc hdata
      rw [hposted] at hc
      rcases List.mem_append.mp hc with hc | hc
      · exact hm.canceled c hc hdata
      · exact absurd hdata (hcs c hc)
    cqe := by rw [hs.object]; exact hm.cqe
    uring := by rw [hs.object, hpassed]; exact hm.uring
    delivered := by rw [hs.delivered hstep, hpassed]; exact hm.delivered
    alive := by rw [hs.object]; exact hm.alive
    holder := by
      rw [hs.object, hs.suspended]
      intro huring
      refine (hm.holder huring).imp_right fun ⟨hfree, hrun⟩ => ⟨hfree, ?_⟩
      apply hstep.running (a := a) hrun
      intro act hact
      subst hact
      refine ⟨hok.2.2.2.1 ⟨ha, huring⟩ hrun, fun hawait => ?_⟩
      subst hawait
      -- an await of the operation is counted
      have hcount := hs.awaits
      cases hstep with
      | suspend _ _ _ _ _ _ => simp [State.suspend] at hcount
      | ready _ _ _ _ =>
          obtain ⟨d, res, heq⟩ := awaitResume_eq { s with awaits := a :: s.awaits } a
          rw [heq] at hcount
          simp at hcount
      | construct hact _ => simp [UserAct.constructs] at hact
      | run hact _ => rcases hact with h | h | ⟨_, h⟩ <;> cases h }

namespace MultishotOk

/-- The coroutine waits for the operation when the loop comes to one of its CQEs. -/
theorem waits (hm : MultishotOk s a h) (hring : RingOk cfg s) (hreap : Reaping s)
    (hdata : (s.current cfg).data = some a) :
    (s.object a).userData.uring = true ∧ (s.object a).alive = true ∧
      s.suspended a = some h ∧ (s.object a).userData.h = some h := by
  have hcurrent := hring.current hreap
  have huring : (s.object a).userData.uring = true := by
    rw [hm.uring, List.all_eq_true]
    intro c hc
    obtain ⟨n, hn, hposted, hown⟩ := mem_passedCqes hc
    by_contra hmore
    have hle := (hm.last n c hposted hown (by simpa using hmore)).2 _ _ hcurrent hdata
    exact absurd hle (Nat.not_le.mpr hn)
  rcases hm.holder huring with ⟨hsuspended, hh⟩ | ⟨-, hrun⟩
  · exact ⟨huring, hm.alive huring, hsuspended, hh⟩
  · simp [hreap.running] at hrun

/-- The request of the operation finishes. -/
theorem of_live (hm : MultishotOk s a h) {i : Nat} {e : Sqe Request} {rest : List (Sqe Request)}
    {o : Outcome} (hfinish : Finishes s i e rest o) (howner : e.operation = some a) :
    (s.finished i e rest o).ring.live a = [] ∧ s.ring.live a ≠ [] := by
  have hlive := (live_finished hfinish a).length_eq
  rw [if_pos howner, List.length_append, List.length_singleton] at hlive
  have honce := hm.live
  refine ⟨List.length_eq_zero_iff.mp (by omega), fun hnil => ?_⟩
  rw [hnil, List.length_nil] at hlive
  omega

/-- One more CQE is posted while the request is live. -/
theorem post (hm : MultishotOk s a h) (hring : RingOk cfg s) {c : Cqe}
    (hne : s.ring.live a ≠ []) (hres : c.res ≠ -ECANCELED)
    (hlive : s'.ring.live a = if c.more then s.ring.live a else [])
    (hposted : s'.posted = s.posted ++ [c]) (hseen : s'.seen = s.seen)
    (hobject : s'.object = s.object) (hsuspended : s'.suspended = s.suspended)
    (hreturned : s'.returned = s.returned) (hrunning : s'.running = s.running) :
    MultishotOk s' a h where
  live := by
    rw [hlive]
    split
    · exact hm.live
    · simp
  last := by
    intro n d hd hdata hmore
    rw [hposted, List.getElem?_append] at hd
    split at hd
    · exact absurd (hm.last n d hd hdata hmore).1 hne
    · next hn =>
        obtain rfl : c = d := List.mem_singleton.mp (List.mem_of_getElem? hd) |>.symm
        refine ⟨by simp [hlive, hmore], fun m c' hc' _ => ?_⟩
        obtain ⟨hlt, -⟩ := List.getElem?_eq_some_iff.mp hc'
        rw [hposted, List.length_append, List.length_singleton] at hlt
        omega
  canceled := by
    intro d hd hdata
    rw [hposted] at hd
    rcases List.mem_append.mp hd with hd | hd
    · exact hm.canceled d hd hdata
    · rw [List.mem_singleton.mp hd]
      exact hres
  cqe := by rw [hobject]; exact hm.cqe
  uring := by rw [hobject, passedCqes_append s' hring hseen hposted]; exact hm.uring
  delivered := by
    rw [State.delivered, hreturned, passedCqes_append s' hring hseen hposted]
    exact hm.delivered
  alive := by rw [hobject]; exact hm.alive
  holder := by rw [hobject, hsuspended, hrunning]; exact hm.holder

/-- The CQE resumes the coroutine, which gets its result. -/
theorem complete (hm : MultishotOk s a h) (hring : RingOk cfg s) (hreap : Reaping s)
    (hdata : (s.current cfg).data = some a) (hmultishot : (s.object a).multishot = true)
    (hsqe : (s.object a).userData.sqe = true) :
    MultishotOk { (s.reaped cfg a).awaitResume a with
      suspended := Function.update s.suspended a none
      running := some h } a h := by
  obtain ⟨huring, halive, -, -⟩ := hm.waits hring hreap hdata
  rw [awaitResume_reaped hmultishot hsqe]
  have hpassed := passedCqes_reaped { s.passed with
    object := Function.update s.object a { s.object a with userData := { (s.object a).userData with
      uring := (s.object a).userData.uring && (s.current cfg).more, cqe := none } }
    returned := (a, (s.current cfg).res) :: s.returned
    suspended := Function.update s.suspended a none
    running := some h } hring hreap hdata rfl rfl
  exact {
    live := hm.live
    last := hm.last
    canceled := hm.canceled
    cqe := by simp
    uring := by
      rw [hpassed, List.all_append, ← hm.uring]
      simp
    delivered := by
      rw [hpassed, List.map_append, ← hm.delivered]
      simp [State.delivered]
    alive := fun _ => by simpa using halive
    holder := fun _ => .inr ⟨Function.update_self _ _ _, rfl⟩ }

/-- A fresh operation of the coroutine that runs. -/
theorem fresh {sqes : List (Sqe Request)} {o : Awaitable} (hprep : Prepares s s' sqes o)
    (hlow : s.next ≤ a) (hhigh : a < s'.next) (hnil : s.ring.live a = []) (hblank : Blank s a)
    (hrun : s.running = some h) : MultishotOk s' a h := by
  have hobject := hprep.object a
  rw [if_pos ⟨hlow, hhigh⟩, hprep.fresh] at hobject
  have hlive := hprep.live a
  rw [hnil, List.nil_append] at hlive
  have hrest := hprep.rest
  have hposted : s'.posted = s.posted := by rw [hrest]
  have hnone : ∀ (n : Nat) (c : Cqe), s'.posted[n]? = some c → c.data ≠ some a := by
    rw [hposted]
    exact fun n c hc => hblank.posted c (List.mem_of_getElem? hc)
  have hpassed : s'.passedCqes a = [] := by
    rw [List.eq_nil_iff_forall_not_mem]
    intro c hc
    obtain ⟨n, -, hn, hdata⟩ := mem_passedCqes hc
    exact hnone n c hn hdata
  exact {
    live := by
      have hcount := hprep.count a
      rw [hlive, ← List.countP_eq_length_filter]
      simpa [List.count, List.countP_map, Function.comp_def, beq_eq_decide] using hcount
    last := fun n c hc hdata => absurd hdata (hnone n c hc)
    canceled := by
      intro c hc hdata
      exact absurd hdata (hblank.posted c (hposted ▸ hc))
    cqe := by rw [hobject]
    uring := by rw [hobject, hpassed]; rfl
    delivered := by
      have hreturned : s'.returned = s.returned := by rw [hrest]
      have hfilter : (s.returned.filter fun r => r.1 = a) = [] := by
        rw [List.filter_eq_nil_iff]
        intro r hr heq
        exact hblank.returned (List.mem_map.mpr ⟨r, hr, by simpa using heq⟩)
      rw [hpassed, State.delivered, hreturned, hfilter]
      rfl
    alive := fun _ => by rw [hobject]
    holder := by
      intro _
      rw [hrest]
      exact .inr ⟨hblank.suspended, hrun⟩ }

/-- A step about the operation. -/
theorem concerns (hm : MultishotOk s a h) (hring : RingOk cfg s) (ha : a < s.next)
    (hmultishot : (s.object a).multishot = true) (hsqe : (s.object a).userData.sqe = true)
    (hok : AwaitsOnly a h s l) (hstep : Concerns cfg s a l s') : MultishotOk s' a h := by
  cases hstep with
  | torn hreap _ hdata halive => simp [(hm.waits hring hreap hdata).2.1] at halive
  | eager hreap _ hdata hh => simp [(hm.waits hring hreap hdata).2.2.2] at hh
  | complete hreap _ hdata hh _ =>
      obtain rfl := Option.some.inj (hh.symm.trans (hm.waits hring hreap hdata).2.2.2)
      exact hm.complete hring hreap hdata hmultishot hsqe
  | @posted i e rest o post hfinish howner hposts =>
      obtain ⟨hlive, hne⟩ := hm.of_live hfinish howner
      have hres := hok.2.1 ⟨e.data, o.res, false⟩ (by simp [State.nextCqe, hfinish.chain, hposts])
        (Sqe.data_of_operation howner)
      exact hm.post hring hne hres hlive rfl rfl rfl rfl rfl rfl
  | @stray i e rest o post hfinish howner hdata hposts =>
      refine absurd hdata (hok.1 e ?_ howner ⟨e.data, o.res, false⟩ ?_)
      · simp [State.nextSqe, hfinish.chain]
      · simp [State.nextCqe, hfinish.chain, hposts]
  | silent hfinish howner =>
      obtain ⟨hlive, hne⟩ := hm.of_live hfinish howner
      refine { hm with
        live := ?_
        last := fun n c hc hown hmore => absurd (hm.last n c hc hown hmore).1 hne }
      rw [show Ring.live _ a = [] from hlive]
      simp
  | @more i res e rest severed hchain hprep hdata =>
      have hmem := List.mem_append_left s.ring.sq (mem_requests hchain)
      have hne : s.ring.live a ≠ [] :=
        List.ne_nil_of_mem (List.mem_filter.mpr ⟨hmem, by
          simpa using (Sqe.operation_of_prep (.inr hprep)).trans hdata⟩)
      have hres := hok.2.1 ⟨e.data, res, true⟩ (by simp [State.nextCqe, hchain]) hdata
      exact hm.post hring hne hres rfl rfl rfl rfl rfl rfl rfl
  | fresh _ hlow _ _ => omega
  | @suspend hd hrun _ hfree _ hcqe _ =>
      have hactive := hok.2.2.2.2 rfl
      obtain ⟨-, hrun'⟩ := (hm.holder hactive.2).resolve_left (by simp [hfree])
      obtain rfl := Option.some.inj (hrun.symm.trans hrun')
      have hobject : (s.suspend hd a).object a =
          { s.object a with userData := { (s.object a).userData with h := some hd } } := by
        simp [State.suspend, State.setUserData, State.setObject]
      exact {
        live := hm.live
        last := hm.last
        canceled := hm.canceled
        cqe := by rw [hobject]; exact hm.cqe
        uring := by rw [hobject]; exact hm.uring
        delivered := hm.delivered
        alive := by rw [hobject]; exact hm.alive
        holder := fun _ => .inl ⟨Function.update_self _ _ _, by rw [hobject]⟩ }
  | ready _ _ hready => simp [hsqe, hm.cqe] at hready
  | discard _ hplain _ => simp [hmultishot] at hplain
  | @drop stale _ _ hfree =>
      have huring : (s.object a).userData.uring = false := by
        by_contra htrue
        have htrue : (s.object a).userData.uring = true := by simpa using htrue
        obtain ⟨-, hrun⟩ := (hm.holder htrue).resolve_left (by simp [hfree])
        have hstays := hok.2.2.2.1 ⟨ha, htrue⟩ hrun
        simp [UserAct.stays] at hstays
      have hobject : (dropMultishot cfg s a stale).object a = { s.object a with alive := false } := by
        simp [dropMultishot, dropOperation, State.setObject]
      have hring' : (dropMultishot cfg s a stale).ring = s.ring := by simp [dropMultishot, huring]
      have hseen : (dropMultishot cfg s a stale).seen = s.seen := by
        rw [State.seen, hring']
        rfl
      have hpassed := passedCqes_append (a := a) (dropMultishot cfg s a stale) hring hseen
        (List.append_nil _).symm
      exact {
        live := by rw [hring']; exact hm.live
        last := by rw [hring']; exact hm.last
        canceled := hm.canceled
        cqe := by rw [hobject]; exact hm.cqe
        uring := by rw [hobject, hpassed]; exact hm.uring
        delivered := by rw [hpassed]; exact hm.delivered
        alive := by rw [hobject]; simp [huring]
        holder := by rw [hobject]; simp [huring] }

end MultishotOk

/-- Either an operation is constructed at the address, or it stays of its kind. -/
theorem Concerns.kept (hstep : Concerns cfg s a l s') :
    (s'.next = s.next ∧ (s'.object a).multishot = (s.object a).multishot ∧
      (s'.object a).userData.sqe = (s.object a).userData.sqe) ∨
    ∃ act sqes o, l = .user act ∧ Prepares s s' sqes o ∧ s.next ≤ a ∧ a < s'.next ∧
      (o.multishot = true → act = .asyncMultishotOperation ∧ s'.next = s.next + 1) := by
  cases hstep with
  | eager _ _ _ _ => exact .inl ⟨rfl, by simp, by simp⟩
  | complete _ _ _ _ _ =>
      have hnext : ((s.reaped cfg a).awaitResume a).next = s.next := by
        obtain ⟨d, res, heq⟩ := awaitResume_eq (s.reaped cfg a) a
        rw [heq]
        rfl
      exact .inl ⟨hnext, by simp [awaitResume_multishot], by simp [awaitResume_sqe]⟩
  | fresh hprep hlow hhigh hact => exact .inr ⟨_, _, _, rfl, hprep, hlow, hhigh, hact⟩
  | @suspend hd _ _ _ _ _ _ =>
      exact .inl ⟨rfl, setUserData_multishot s a _ a,
        setUserData_sqe s a { (s.object a).userData with h := some hd } rfl a⟩
  | ready _ _ _ =>
      obtain ⟨d, res, heq⟩ := awaitResume_eq { s with awaits := a :: s.awaits } a
      exact .inl ⟨by rw [heq], awaitResume_multishot _ a a, awaitResume_sqe _ a a⟩
  | discard _ _ _ => exact .inl ⟨rfl, dropOperation_multishot s a a, dropOperation_sqe s a a⟩
  | drop _ _ _ => exact .inl ⟨rfl, dropOperation_multishot s a a, dropOperation_sqe s a a⟩
  | _ => exact .inl ⟨rfl, rfl, rfl⟩

theorem reachable_multishot (hreach : (machine cfg).Reach (AwaitsOnly a h) s) (ha : a < s.next)
    (hmultishot : (s.object a).multishot = true) (hsqe : (s.object a).userData.sqe = true) :
    MultishotOk s a h := by
  revert ha hmultishot hsqe
  refine hreach.invariant (fun s => a < s.next → (s.object a).multishot = true →
    (s.object a).userData.sqe = true → MultishotOk s a h) (fun s hs ha _ _ => ?_)
    fun s l s' hreach hm hok hstep ha hmultishot hsqe => ?_
  · obtain ⟨-, -, -, -, -, -, -, -, -, hnext, -⟩ := hs
    omega
  · have hring := reachable_ring hreach
    have hstep : Step cfg s l s' := .of_step hstep
    rcases hstep.same_or_concerns hring a with ⟨hsame, hlt⟩ | hconcerns
    · have ha := hlt.mp ha
      rw [hsame.object] at hmultishot hsqe
      exact hsame.multishotOk hring hstep ha hok (hm ha hmultishot hsqe)
    · rcases hconcerns.kept with ⟨hnext, hkept, hsqe'⟩ | ⟨act, sqes, o, rfl, hprep, hlow, hhigh, hact⟩
      · rw [hnext] at ha
        rw [hkept] at hmultishot
        rw [hsqe'] at hsqe
        exact (hm ha hmultishot hsqe).concerns hring ha hmultishot hsqe hok hconcerns
      · rw [hprep.object, if_pos ⟨hlow, hhigh⟩] at hmultishot
        obtain ⟨rfl, hnext⟩ := hact hmultishot
        have hrun := hok.2.2.1 rfl (by omega)
        have haddress := reachable_address (hreach.mono fun _ _ hok => hok.1)
        exact .fresh hprep hlow hhigh ((reachable_live hreach a).blank hlow).1 (haddress.blank hlow) hrun

/-- What the successive `co_await`s of a multishot operation return are the results of
its CQEs in the order of the ring, each once, and the operation is true until the CQE
without `IORING_CQE_F_MORE`, which is the last one. When the loop comes to a CQE of the
operation, its coroutine is resumed with the result. -/
theorem multishot_delivers (hreach : (machine cfg).Reach (AwaitsOnly a h) s) (ha : a < s.next)
    (hmultishot : (s.object a).multishot = true) (hsqe : (s.object a).userData.sqe = true) :
    s.delivered a = (s.passedCqes a).map Cqe.res ∧
      ((s.object a).userData.uring = true ↔ ∀ c ∈ s.passedCqes a, c.more = true) ∧
      (∀ (m n : Nat) (c c' : Cqe), s.posted[m]? = some c → s.posted[n]? = some c' → c.data = some a →
        c'.data = some a → m < n → c.more = true) ∧
      (Reaping s → (s.current cfg).data = some a → ∃ s', (machine cfg).step s .go = some s' ∧
        s'.running = some h ∧ s'.returned = (a, (s.current cfg).res) :: s.returned) := by
  have hm := reachable_multishot hreach ha hmultishot hsqe
  have hring := reachable_ring hreach
  refine ⟨hm.delivered, by rw [hm.uring, List.all_eq_true], fun m n c c' hc hc' hdata hdata' hlt => ?_,
    fun hreap hdata => ?_⟩
  · by_contra hmore
    have hle := (hm.last m c hc hdata (by simpa using hmore)).2 n c' hc' hdata'
    omega
  · obtain ⟨-, halive, hsuspended, hh⟩ := hm.waits hring hreap hdata
    have hres := hm.canceled _ (List.mem_of_getElem? (hring.current hreap)) hdata
    refine ⟨_, Step.step_complete hreap hres hdata halive hh hsuspended, rfl, ?_⟩
    rw [awaitResume_reaped hmultishot hsqe]

section Delivery

/-- A coroutine awaits a multishot operation and another one a plain operation. The first batch
holds two CQEs of the former around the one of the latter, the second batch the last CQE. -/
def batchRun : List Label :=
  [.coSpawn, .coSpawn, .runOnce false, .go, .user .asyncMultishotOperation, .user (.await 0), .go,
    .user .asyncOperation, .user (.await 1), .go, .go, .more 0 5, .finish 1 1 false false, .more 0 7, .go,
    .user (.await 0), .go, .user .ret, .go, .user .coSpawn, .user (.await 0), .go, .runOnce false, .go, .user .ret,
    .go, .go, .finish 0 (-24) true false, .go]

theorem multishot_delivers_batch : ∃ s, (machine smallConfig).Reach (AwaitsOnly 0 ⟨0, []⟩) s ∧
    s.delivered 0 = (s.passedCqes 0).map Cqe.res ∧ s.delivered 0 = [5, 7, -24] ∧
    (s.object 0).userData.uring = false := by
  have hrun : ∃ s, ((machine smallConfig).restrict (AwaitsOnly 0 ⟨0, []⟩)).run .start batchRun = some s ∧
      0 < s.next ∧ (s.object 0).multishot = true ∧ (s.object 0).userData.sqe = true ∧
      s.delivered 0 = [5, 7, -24] ∧ (s.object 0).userData.uring = false :=
    ⟨_, rfl, by decide, rfl, rfl, rfl, rfl⟩
  obtain ⟨s, hs, ha, hmultishot, hsqe, hdelivered, huring⟩ := hrun
  have hreach := Machine.Reach.restrict (.start init_start) hs
  exact ⟨s, hreach, (multishot_delivers hreach ha hmultishot hsqe).1, hdelivered, huring⟩

end Delivery

end IoUring.Coroutine
