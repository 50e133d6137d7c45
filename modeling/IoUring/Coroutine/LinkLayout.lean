import IoUring.Coroutine.LinkOperation

/-!
# What an expression leaves on the SQ ring

The entries of an expression are consecutive. Each operator patches the entry of
the last operation of its left operand, and the entry of the last operation of
the whole carries the address of the awaitable.
-/

namespace IoUring.Coroutine

variable {P : Type*} {e l r : Expr P} {order : Order} {s s' s₁ s₂ : SqRing P}
  {op previous next : AsyncOperation} {hard : Bool} {sqes sqes' : List (Sqe P)}
  {ops ops' : List (P × SqeFlags)} {low low' high high' : Nat}

namespace Prepared

theorem nil : Prepared ([] : List (Sqe P)) [] low high :=
  ⟨rfl, by simp⟩

theorem mono (h : Prepared sqes ops low high) (hlow : low' ≤ low) (hhigh : high ≤ high') :
    Prepared sqes ops low' high' := by
  refine ⟨h.ops, fun x hx => ?_⟩
  obtain ⟨a, ha, hle, hlt⟩ := h.data x hx
  exact ⟨a, ha, Nat.le_trans hlow hle, Nat.lt_of_lt_of_le hlt hhigh⟩

theorem append (h : Prepared sqes ops low high) (h' : Prepared sqes' ops' low high) :
    Prepared (sqes ++ sqes') (ops ++ ops') low high := by
  refine ⟨by rw [List.map_append, h.ops, h'.ops], fun x hx => ?_⟩
  rcases List.mem_append.mp hx with hx | hx
  · exact h.data x hx
  · exact h'.data x hx

theorem cons {prep : P} {flags : SqeFlags} {a : Nat} (h : Prepared sqes ops low high)
    (hlow : low ≤ a) (hhigh : a < high) :
    Prepared (⟨prep, flags, some a⟩ :: sqes) ((prep, flags) :: ops) low high := by
  refine ⟨by rw [List.map_cons, h.ops], fun x hx => ?_⟩
  rcases List.mem_cons.mp hx with rfl | hx
  · exact ⟨a, rfl, hlow, hhigh⟩
  · exact h.data x hx

theorem count_eq_zero (h : Prepared sqes ops low high) {a : Nat} (ha : a < low ∨ high ≤ a) :
    (sqes.map Sqe.data).count (some a) = 0 := by
  apply List.count_eq_zero.mpr
  intro hmem
  obtain ⟨x, hx, hdata⟩ := List.mem_map.mp hmem
  obtain ⟨b, hb, hle, hlt⟩ := h.data x hx
  rw [hb, Option.some.injEq] at hdata
  omega

end Prepared

theorem modify_append_cons {α : Type*} (l r : List α) (x : α) (f : α → α) :
    (l ++ x :: r).modify l.length f = l ++ f x :: r := by
  rw [List.modify_eq_take_cons_drop (by simp)]
  simp

theorem asyncOperation_evaluates (prep : P) (hroom : s.sq.length < s.entries) :
    Evaluates (.op prep) order s (asyncOperation s prep).1 (asyncOperation s prep).2 := by
  simp only [asyncOperation, hroom, if_true]
  exact ⟨rfl, Nat.le_refl _, rfl, [], [], by simp [Expr.last], by simp, .nil, .nil, by simp⟩

/-- The entry `x` gets flags, and the later entry `y` the address of the awaitable. -/
theorem syncLinkOperation_leftFirst {x y : Sqe P} {pre mid post : List (Sqe P)}
    (hsq : s.sq = pre ++ x :: mid ++ y :: post) (hprevious : previous.sqe = some pre.length)
    (hnext : next.sqe = some (pre ++ x :: mid).length) :
    syncLinkOperation hard s previous next = some
      ({ s with
        sq := pre ++ { x with flags := x.flags.link hard } :: mid ++
          { y with data := some s.next } :: post
        next := s.next + 1 }, ⟨s.next, next.sqe⟩) := by
  have hflags := modify_append_cons pre (mid ++ y :: post) x
    fun e => { e with flags := e.flags.link hard }
  have hdata := modify_append_cons (pre ++ { x with flags := x.flags.link hard } :: mid) post y
    fun e => { e with data := some s.next }
  simp only [List.append_assoc, List.cons_append, List.length_append, List.length_cons] at hflags hdata
  simp [syncLinkOperation, hprevious, hnext, hsq, hflags, hdata]

/-- The right operand was evaluated first. -/
theorem syncLinkOperation_rightFirst {x y : Sqe P} {pre mid post : List (Sqe P)}
    (hsq : s.sq = pre ++ y :: mid ++ x :: post)
    (hprevious : previous.sqe = some (pre ++ y :: mid).length) (hnext : next.sqe = some pre.length) :
    syncLinkOperation hard s previous next = some
      ({ s with
        sq := pre ++ { y with data := some s.next } :: mid ++
          { x with flags := x.flags.link hard } :: post
        next := s.next + 1 }, ⟨s.next, next.sqe⟩) := by
  have hflags := modify_append_cons (pre ++ y :: mid) post x fun e => { e with flags := e.flags.link hard }
  have hdata := modify_append_cons pre (mid ++ { x with flags := x.flags.link hard } :: post) y
    fun e => { e with data := some s.next }
  simp only [List.append_assoc, List.cons_append, List.length_append, List.length_cons] at hflags hdata
  simp [syncLinkOperation, hprevious, hnext, hsq, hflags, hdata]

/-- The left operand has been evaluated first. -/
theorem Evaluates.leftFirst (hard : Bool) (horder : order [] = true)
    (hl : Evaluates l order.left s s₁ previous) (hr : Evaluates r order.right s₁ s₂ next) :
    ∃ s' op, syncLinkOperation hard s₂ previous next = some (s', op) ∧
      Evaluates (.link hard l r) order s s' op := by
  obtain ⟨pre, post, hsq, hsqe, hpre, hpost, hnodup⟩ := hl.sq
  obtain ⟨pre', post', hsq', hsqe', hpre', hpost', hnodup'⟩ := hr.sq
  obtain ⟨hle, hnext⟩ := And.intro hl.le hl.next
  obtain ⟨hle', hnext'⟩ := And.intro hr.le hr.next
  have hs₂ : s₂.sq = s.sq ++ pre ++ ⟨l.last, {}, some previous.userData⟩ :: (post ++ pre') ++
      ⟨r.last, {}, some next.userData⟩ :: post' := by
    rw [hsq', hsq]
    simp
  refine ⟨_, _, syncLinkOperation_leftFirst hs₂ hsqe (by rw [hsqe', hsq]; simp),
    ⟨hr.entries.trans hl.entries, by simp only; omega, rfl, ?_⟩⟩
  refine ⟨pre ++ ⟨l.last, SqeFlags.link hard {}, some previous.userData⟩ :: (post ++ pre'), post',
    by simp [Expr.last], by rw [hsqe', hsq]; simp, ?_, ?_, ?_⟩
  · simp only [Expr.others, horder, if_true, List.append_assoc, List.cons_append]
    refine (hpre.mono (Nat.le_refl _) (by omega)).append (.cons ?_ hle (by omega))
    exact (hpost.mono (Nat.le_refl _) (by omega)).append (hpre'.mono (by omega) (by omega))
  · simpa [Expr.others, horder] using hpost'.mono (by omega) (by omega)
  · intro a
    have hcount := hnodup a
    have hcount' := hnodup' a
    simp only [List.map_append, List.map_cons, List.count_append, List.count_cons, beq_iff_eq,
      Option.some.injEq]
    by_cases ha : a ≤ previous.userData
    · rw [hpre'.count_eq_zero (.inl (by omega)), hpost'.count_eq_zero (.inl (by omega))]
      split
      · have hzero := hpre.count_eq_zero (a := a) (.inr (by omega))
        have hzero' := hpost.count_eq_zero (a := a) (.inr (by omega))
        omega
      · omega
    · rw [hpre.count_eq_zero (.inr (by omega)), hpost.count_eq_zero (.inr (by omega)), if_neg (by omega)]
      omega

/-- The right operand has been evaluated first. -/
theorem Evaluates.rightFirst (hard : Bool) (horder : order [] = false)
    (hr : Evaluates r order.right s s₁ next) (hl : Evaluates l order.left s₁ s₂ previous) :
    ∃ s' op, syncLinkOperation hard s₂ previous next = some (s', op) ∧
      Evaluates (.link hard l r) order s s' op := by
  obtain ⟨pre, post, hsq, hsqe, hpre, hpost, hnodup⟩ := hr.sq
  obtain ⟨pre', post', hsq', hsqe', hpre', hpost', hnodup'⟩ := hl.sq
  obtain ⟨hle, hnext⟩ := And.intro hr.le hr.next
  obtain ⟨hle', hnext'⟩ := And.intro hl.le hl.next
  have hs₂ : s₂.sq = s.sq ++ pre ++ ⟨r.last, {}, some next.userData⟩ :: (post ++ pre') ++
      ⟨l.last, {}, some previous.userData⟩ :: post' := by
    rw [hsq', hsq]
    simp
  refine ⟨_, _, syncLinkOperation_rightFirst hs₂ (by rw [hsqe', hsq]; simp) hsqe,
    ⟨hl.entries.trans hr.entries, by simp only; omega, rfl, ?_⟩⟩
  refine ⟨pre, post ++ pre' ++ ⟨l.last, SqeFlags.link hard {}, some previous.userData⟩ :: post',
    by simp [Expr.last], hsqe, ?_, ?_, ?_⟩
  · simpa [Expr.others, horder] using hpre.mono (Nat.le_refl _) (by omega)
  · simp only [Expr.others, horder, if_false, Bool.false_eq_true, List.append_assoc]
    apply (hpost.mono (Nat.le_refl _) (by omega)).append
    exact (hpre'.mono (by omega) (by omega)).append
      (.cons (hpost'.mono (by omega) (by omega)) (by omega) (by omega))
  · intro a
    have hcount := hnodup a
    have hcount' := hnodup' a
    simp only [List.map_append, List.map_cons, List.count_append, List.count_cons, beq_iff_eq,
      Option.some.injEq]
    by_cases ha : a < next.userData
    · rw [hpre'.count_eq_zero (.inl (by omega)), hpost'.count_eq_zero (.inl (by omega)),
        if_neg (by omega)]
      omega
    · rw [hpre.count_eq_zero (.inr (by omega)), hpost.count_eq_zero (.inr (by omega))]
      split
      · have hzero := hpre'.count_eq_zero (a := a) (.inr (by omega))
        have hzero' := hpost'.count_eq_zero (a := a) (.inr (by omega))
        omega
      · omega

theorem Expr.length_others (e : Expr P) (order : Order) :
    (e.others order).1.length + (e.others order).2.length + 1 = e.leaves.length := by
  induction e generalizing order with
  | op prep => rfl
  | link hard l r ihl ihr =>
      have hl := ihl order.left
      have hr := ihr order.right
      simp only [Expr.others, Expr.leaves, List.length_append]
      split <;> simp only [List.length_append, List.length_cons] <;> omega

theorem Prepared.length (h : Prepared sqes ops low high) : sqes.length = ops.length := by
  rw [← h.ops, List.length_map]

theorem Evaluates.length (h : Evaluates e order s s' op) :
    s'.sq.length = s.sq.length + e.leaves.length := by
  obtain ⟨pre, post, hsq, -, hpre, hpost, -⟩ := h.sq
  have hcount := e.length_others order
  rw [hsq, ← hcount, ← hpre.length, ← hpost.length]
  simp only [List.length_append, List.length_cons]
  omega

/-- With enough free entries the evaluation goes through. -/
theorem Expr.eval_evaluates (e : Expr P) (order : Order) (s : SqRing P)
    (hroom : s.sq.length + e.leaves.length ≤ s.entries) :
    ∃ s' op, e.eval order s = some (s', op) ∧ Evaluates e order s s' op := by
  induction e generalizing order s with
  | op prep => exact ⟨_, _, rfl, asyncOperation_evaluates prep hroom⟩
  | link hard l r ihl ihr =>
      rw [Expr.leaves, List.length_append] at hroom
      cases horder : order [] with
      | true =>
          obtain ⟨s₁, previous, hevall, hl⟩ := ihl order.left s (by omega)
          have hlength := hl.length
          have hentries := hl.entries
          obtain ⟨s₂, next, hevalr, hr⟩ := ihr order.right s₁ (by omega)
          obtain ⟨s', op, hlink, hop⟩ := Evaluates.leftFirst hard horder hl hr
          exact ⟨s', op, by simp [Expr.eval, horder, hevall, hevalr, hlink], hop⟩
      | false =>
          obtain ⟨s₁, next, hevalr, hr⟩ := ihr order.right s (by omega)
          have hlength := hr.length
          have hentries := hr.entries
          obtain ⟨s₂, previous, hevall, hl⟩ := ihl order.left s₁ (by omega)
          obtain ⟨s', op, hlink, hop⟩ := Evaluates.rightFirst hard horder hr hl
          exact ⟨s', op, by simp [Expr.eval, horder, hevall, hevalr, hlink], hop⟩

/-- An evaluation that yields an entry has gone through. -/
theorem Expr.evaluates_of_eval (e : Expr P) (order : Order) (s : SqRing P)
    (heval : e.eval order s = some (s', op)) (hop : op.sqe.isSome) : Evaluates e order s s' op := by
  induction e generalizing order s s' op with
  | op prep =>
      have heq : asyncOperation s prep = (s', op) := Option.some.inj heval
      have hroom : s.sq.length < s.entries := by
        by_contra hfull
        simp only [asyncOperation, hfull, if_false, Prod.mk.injEq] at heq
        simp [← heq.2] at hop
      have h : Evaluates (.op prep) order s _ _ := asyncOperation_evaluates prep hroom
      rwa [heq] at h
  | link hard l r ihl ihr =>
      have hsome : ∀ {s : SqRing P} {previous next : AsyncOperation},
          syncLinkOperation hard s previous next = some (s', op) →
            previous.sqe.isSome ∧ next.sqe.isSome := fun h => by
        simp only [syncLinkOperation] at h
        split at h
        · next hprevious hnext => simp [hprevious, hnext]
        · cases h
      simp only [Expr.eval] at heval
      split at heval
      · next horder =>
          obtain ⟨⟨s₁, previous⟩, hevall, heval⟩ := Option.bind_eq_some_iff.mp heval
          obtain ⟨⟨s₂, next⟩, hevalr, hlink⟩ := Option.bind_eq_some_iff.mp heval
          obtain ⟨hprevious, hnext⟩ := hsome hlink
          obtain ⟨s₃, op', hlink', hop'⟩ := Evaluates.leftFirst hard horder
            (ihl _ _ hevall hprevious) (ihr _ _ hevalr hnext)
          obtain ⟨rfl, rfl⟩ := Prod.mk.inj (Option.some.inj (hlink.symm.trans hlink'))
          exact hop'
      · next horder =>
          obtain ⟨⟨s₁, next⟩, hevalr, heval⟩ := Option.bind_eq_some_iff.mp heval
          obtain ⟨⟨s₂, previous⟩, hevall, hlink⟩ := Option.bind_eq_some_iff.mp heval
          obtain ⟨hprevious, hnext⟩ := hsome hlink
          obtain ⟨s₃, op', hlink', hop'⟩ := Evaluates.rightFirst hard (by simpa using horder)
            (ihr _ _ hevalr hnext) (ihl _ _ hevall hprevious)
          obtain ⟨rfl, rfl⟩ := Prod.mk.inj (Option.some.inj (hlink.symm.trans hlink'))
          exact hop'

/-- An operator yields an entry, or it goes through a null pointer. -/
theorem Expr.sqe_of_eval (e : Expr P) (order : Order) (s : SqRing P) (he : e.operators ≠ [])
    (heval : e.eval order s = some (s', op)) : op.sqe.isSome := by
  have hsome : ∀ {hard : Bool} {s : SqRing P} {previous next : AsyncOperation},
      syncLinkOperation hard s previous next = some (s', op) → op.sqe.isSome := fun h => by
    simp only [syncLinkOperation] at h
    split at h
    · next hnext =>
        obtain ⟨-, rfl⟩ := Prod.mk.inj (Option.some.inj h)
        simp [hnext]
    · cases h
  cases e with
  | op prep => exact absurd rfl he
  | link hard l r =>
      simp only [Expr.eval] at heval
      split at heval <;>
        obtain ⟨_, _, heval⟩ := Option.bind_eq_some_iff.mp heval <;>
        obtain ⟨_, _, hlink⟩ := Option.bind_eq_some_iff.mp heval <;>
        exact hsome hlink

theorem Expr.flags_of_others (e : Expr P) (order : Order) {p : P × SqeFlags}
    (hp : p ∈ (e.others order).1 ∨ p ∈ (e.others order).2) : ∃ hard, p.2 = SqeFlags.link hard {} := by
  induction e generalizing order with
  | op prep => simp [Expr.others] at hp
  | link hard l r ihl ihr =>
      have hprevious : p ∈ (l.others order.left).1 ++
          (l.last, SqeFlags.link hard {}) :: (l.others order.left).2 →
            ∃ hard, p.2 = SqeFlags.link hard {} := fun hp => by
        rcases List.mem_append.mp hp with hp | hp
        · exact ihl order.left (.inl hp)
        · rcases List.mem_cons.mp hp with rfl | hp
          · exact ⟨hard, rfl⟩
          · exact ihl order.left (.inr hp)
      simp only [Expr.others] at hp
      split at hp
      · rcases hp with hp | hp
        · rcases List.mem_append.mp hp with hp | hp
          · exact hprevious hp
          · exact ihr order.right (.inl hp)
        · exact ihr order.right (.inr hp)
      · rcases hp with hp | hp
        · exact ihr order.right (.inl hp)
        · rcases List.mem_append.mp hp with hp | hp
          · exact ihr order.right (.inr hp)
          · exact hprevious hp

theorem Expr.last_mem_leaves (e : Expr P) : e.last ∈ e.leaves := by
  induction e with
  | op prep => exact List.mem_singleton_self prep
  | link hard l r _ ihr => exact List.mem_append_right _ ihr

theorem Expr.mem_leaves_of_others (e : Expr P) (order : Order) {p : P × SqeFlags}
    (hp : p ∈ (e.others order).1 ∨ p ∈ (e.others order).2) : p.1 ∈ e.leaves := by
  induction e generalizing order with
  | op prep => simp [Expr.others] at hp
  | link hard l r ihl ihr =>
      have hprevious : p ∈ (l.others order.left).1 ++
          (l.last, SqeFlags.link hard {}) :: (l.others order.left).2 → p.1 ∈ l.leaves := fun hp => by
        rcases List.mem_append.mp hp with hp | hp
        · exact ihl order.left (.inl hp)
        · rcases List.mem_cons.mp hp with rfl | hp
          · exact l.last_mem_leaves
          · exact ihl order.left (.inr hp)
      rw [Expr.leaves, List.mem_append]
      simp only [Expr.others] at hp
      split at hp
      · rcases hp with hp | hp
        · rcases List.mem_append.mp hp with hp | hp
          · exact .inl (hprevious hp)
          · exact .inr (ihr order.right (.inl hp))
        · exact .inr (ihr order.right (.inr hp))
      · rcases hp with hp | hp
        · exact .inr (ihr order.right (.inl hp))
        · rcases List.mem_append.mp hp with hp | hp
          · exact .inr (ihr order.right (.inr hp))
          · exact .inl (hprevious hp)

/-! ## Operands evaluated from left to right -/

/-- The flags of an operation, by the operator that stands after it. -/
def flagsBefore : Option Bool → SqeFlags
  | some hard => { ioLink := !hard, ioHardlink := hard, cqeSkipSuccess := true }
  | none => {}

theorem link_eq_flagsBefore (hard : Bool) : SqeFlags.link hard {} = flagsBefore (some hard) := by
  cases hard <;> rfl

theorem Expr.length_operators (e : Expr P) : e.operators.length + 1 = e.leaves.length := by
  induction e with
  | op prep => rfl
  | link hard l r ihl ihr =>
      simp only [Expr.operators, Expr.leaves, List.length_append, List.length_cons]
      omega

/-- The entries come in the written order, each with the flags of its operator. -/
theorem Expr.others_leftToRight (e : Expr P) (flags : SqeFlags) :
    (e.others leftToRight).2 = [] ∧ (e.others leftToRight).1 ++ [(e.last, flags)] =
      e.leaves.zip (e.operators.map (fun hard => flagsBefore (some hard)) ++ [flags]) := by
  induction e generalizing flags with
  | op prep => exact ⟨rfl, rfl⟩
  | link hard l r ihl ihr =>
      obtain ⟨hafter, hl⟩ := ihl (flagsBefore (some hard))
      obtain ⟨hafter', hr⟩ := ihr flags
      have hlength : l.leaves.length =
          (l.operators.map (fun hard => flagsBefore (some hard)) ++ [flagsBefore (some hard)]).length := by
        simp [← l.length_operators]
      refine ⟨hafter', ?_⟩
      calc (l.others leftToRight).1 ++ (l.last, SqeFlags.link hard {}) :: (l.others leftToRight).2 ++
            (r.others leftToRight).1 ++ [(r.last, flags)]
          = ((l.others leftToRight).1 ++ [(l.last, flagsBefore (some hard))]) ++
              ((r.others leftToRight).1 ++ [(r.last, flags)]) := by
            simp [hafter, link_eq_flagsBefore]
        _ = (l.leaves ++ r.leaves).zip
              ((l.operators.map (fun hard => flagsBefore (some hard)) ++ [flagsBefore (some hard)]) ++
                (r.operators.map (fun hard => flagsBefore (some hard)) ++ [flags])) := by
            rw [hl, hr, List.zip_append hlength]
        _ = _ := by simp [Expr.operators, Expr.leaves]

/-- The entries of an expression, the last one apart. -/
theorem Evaluates.chain (h : Evaluates e leftToRight s s' op) :
    ∃ pre, s'.sq = s.sq ++ (pre ++ [⟨e.last, {}, some op.userData⟩]) ∧
      pre.length + 1 = e.leaves.length ∧ (∀ x ∈ pre, x.data ≠ some op.userData) ∧
      (pre ++ [⟨e.last, {}, some op.userData⟩]).map (fun x : Sqe P => (x.prep, x.flags)) =
        e.leaves.zip (e.operators.map (fun hard => flagsBefore (some hard)) ++ [flagsBefore none]) := by
  obtain ⟨pre, post, hsq, -, hpre, hpost, -⟩ := h.sq
  obtain ⟨hafter, hbefore⟩ := e.others_leftToRight (flagsBefore none)
  have hcount := e.length_others leftToRight
  obtain rfl : post = [] := List.map_eq_nil_iff.mp (hpost.ops.trans hafter)
  refine ⟨pre, by simpa using hsq, ?_, fun x hx => ?_, ?_⟩
  · rw [hpre.length, ← hcount, hafter, List.length_nil]
  · obtain ⟨a, ha, -, hlt⟩ := hpre.data x hx
    simp only [ha, ne_eq, Option.some.injEq]
    omega
  · rw [List.map_append, hpre.ops, ← hbefore]
    rfl

/-- For every expression whose operands are evaluated from left to right, with
enough free entries: its entries are consecutive and in the written order; each but
the last carries `IOSQE_CQE_SKIP_SUCCESS` and the link flag of the operator after
it, the last carries none of these; and only the last has the address of the
`user_data` of the awaitable. -/
theorem link_layout (e : Expr P) (s : SqRing P)
    (hroom : s.sq.length + e.leaves.length ≤ s.entries) :
    ∃ s' op, ∃ chain : List (Sqe P), e.eval leftToRight s = some (s', op) ∧ s'.sq = s.sq ++ chain ∧
      chain.map Sqe.prep = e.leaves ∧
      (∀ (i : Nat) (x : Sqe P), chain[i]? = some x → x.flags = flagsBefore e.operators[i]?) ∧
      ∀ (i : Nat) (x : Sqe P), chain[i]? = some x →
        (x.data = some op.userData ↔ i + 1 = e.leaves.length) := by
  obtain ⟨s', op, heval, hop⟩ := e.eval_evaluates leftToRight s hroom
  obtain ⟨pre, hsq, hlength, hdata, hzip⟩ := hop.chain
  have hoperators := e.length_operators
  refine ⟨s', op, _, heval, hsq, ?_, fun i x hx => ?_, fun i x hx => ?_⟩
  · have hprep := congrArg (List.map Prod.fst) hzip
    rw [List.map_map, List.map_fst_zip (by simp; omega)] at hprep
    exact hprep
  · have hflags := congrArg (List.map Prod.snd) hzip
    rw [List.map_map, List.map_snd_zip (by simp; omega)] at hflags
    have hi := congrArg (fun l => l[i]?) hflags
    simp only [List.getElem?_map, hx, Option.map_some, Function.comp] at hi
    by_cases hlt : i < e.operators.length
    · simpa [List.getElem?_append_left, hlt] using hi
    · have hle : e.operators.length ≤ i := Nat.le_of_not_lt hlt
      obtain ⟨hi', -⟩ := List.getElem?_eq_some_iff.mp hx
      have hend : i = e.operators.length := by
        simp only [List.length_append, List.length_singleton] at hi'
        omega
      subst hend
      simpa [flagsBefore] using hi
  · by_cases hlt : i < pre.length
    · rw [List.getElem?_append_left hlt] at hx
      refine iff_of_false (hdata x (List.mem_of_getElem? hx)) (by omega)
    · obtain ⟨hi', -⟩ := List.getElem?_eq_some_iff.mp hx
      have hend : i = pre.length := by
        simp only [List.length_append, List.length_singleton] at hi'
        omega
      subst hend
      obtain rfl := by simpa using hx
      exact iff_of_true rfl hlength

section Written

/-- `a & (b | c)` on a ring that holds one entry. -/
def writtenExpr : Expr Nat :=
  .link false (.op 1) (.link true (.op 2) (.op 3))

def writtenRing : SqRing Nat where
  entries := 4
  sq := [⟨0, {}, some 0⟩]
  next := 1

theorem link_layout_written : writtenRing.sq.length + writtenExpr.leaves.length ≤ writtenRing.entries ∧
    ∃ s' op, ∃ chain : List (Sqe Nat), writtenExpr.eval leftToRight writtenRing = some (s', op) ∧
      s'.sq = writtenRing.sq ++ chain ∧ chain.map Sqe.prep = [1, 2, 3] := by
  have hroom : writtenRing.sq.length + writtenExpr.leaves.length ≤ writtenRing.entries := by decide
  obtain ⟨s', op, chain, heval, hsq, hprep, -⟩ := link_layout writtenExpr writtenRing hroom
  exact ⟨hroom, s', op, chain, heval, hsq, hprep⟩

end Written

/-! ## Operands evaluated in any order -/

/-- The operations with their flags, in the order of the ring. -/
def Expr.requests (e : Expr P) (order : Order) (s : SqRing P) : Option (List (P × SqeFlags)) :=
  (e.eval order s).map fun r => (r.1.sq.drop s.sq.length).map fun x => (x.prep, x.flags)

/-- Every operator evaluates its left operand first. -/
def Expr.LeftFirst : Expr P → Order → Prop
  | .op _, _ => True
  | .link _ l r, order => order [] = true ∧ l.LeftFirst order.left ∧ r.LeftFirst order.right

/-- The operations in the order of the ring. -/
def Expr.placed : Expr P → Order → List P
  | .op prep, _ => [prep]
  | .link _ l r, order =>
      if order [] then l.placed order.left ++ r.placed order.right
      else r.placed order.right ++ l.placed order.left

theorem Expr.requests_eq (e : Expr P) (order : Order) (s : SqRing P)
    (hroom : s.sq.length + e.leaves.length ≤ s.entries) :
    e.requests order s = some ((e.others order).1 ++ (e.last, {}) :: (e.others order).2) := by
  obtain ⟨s', op, heval, hop⟩ := e.eval_evaluates order s hroom
  obtain ⟨pre, post, hsq, -, hpre, hpost, -⟩ := hop.sq
  simp only [Expr.requests, heval, Option.map_some, hsq, List.append_assoc, List.drop_left,
    List.map_append, List.map_cons, hpre.ops, hpost.ops]

theorem Expr.placed_eq (e : Expr P) (order : Order) :
    e.placed order = (e.others order).1.map Prod.fst ++ e.last :: (e.others order).2.map Prod.fst := by
  induction e generalizing order with
  | op prep => rfl
  | link hard l r ihl ihr =>
      simp only [Expr.placed, Expr.others, Expr.last, ihl, ihr]
      split <;> simp

theorem Expr.placed_perm (e : Expr P) (order : Order) : (e.placed order).Perm e.leaves := by
  induction e generalizing order with
  | op prep => exact .refl _
  | link hard l r ihl ihr =>
      simp only [Expr.placed, Expr.leaves]
      split
      · exact (ihl _).append (ihr _)
      · exact List.perm_append_comm.trans ((ihl _).append (ihr _))

theorem Expr.leaves_ne_nil (e : Expr P) : e.leaves ≠ [] := by
  intro h
  simpa [h] using e.length_operators

/-- Different operations come in the written order if and only if every operator
evaluates its left operand first. -/
theorem Expr.placed_eq_leaves (e : Expr P) (order : Order) (hnodup : e.leaves.Nodup) :
    e.placed order = e.leaves ↔ e.LeftFirst order := by
  induction e generalizing order with
  | op prep => exact iff_of_true rfl trivial
  | link hard l r ihl ihr =>
      rw [Expr.leaves, List.nodup_append] at hnodup
      obtain ⟨hl, hr, hdisjoint⟩ := hnodup
      rw [Expr.placed, Expr.leaves, Expr.LeftFirst, ← ihl order.left hl, ← ihr order.right hr]
      cases horder : order [] with
      | true =>
          have hlength := (l.placed_perm order.left).length_eq
          simp only [if_true, true_and]
          exact ⟨fun h => List.append_inj h hlength, fun h => by rw [h.1, h.2]⟩
      | false =>
          simp only [Bool.false_eq_true, if_false, false_and, iff_false]
          intro h
          obtain ⟨x, xs, hx⟩ := List.exists_cons_of_ne_nil l.leaves_ne_nil
          obtain ⟨y, ys, hy⟩ := List.exists_cons_of_ne_nil r.leaves_ne_nil
          have hplaced : r.placed order.right ≠ [] := fun hnil => by
            have := (r.placed_perm order.right).length_eq
            simp [hnil, hy] at this
          obtain ⟨z, zs, hz⟩ := List.exists_cons_of_ne_nil hplaced
          have hzx : z = x := by
            rw [hz, hx] at h
            exact (List.cons.inj h).1
          have hmem : z ∈ r.leaves := (r.placed_perm order.right).mem_iff.mp (by simp [hz])
          exact hdisjoint x (by simp [hx]) z hmem hzx.symm

theorem Expr.LeftFirst.others {e : Expr P} (h : e.LeftFirst order) :
    e.others order = e.others leftToRight := by
  induction e generalizing order with
  | op prep => rfl
  | link hard l r ihl ihr =>
      obtain ⟨horder, hl, hr⟩ := h
      simp only [Expr.others, horder, ihl hl, ihr hr]
      rfl

/-- The operands of the outermost operator from right to left, the others from left
to right. -/
def rightAtRoot : Order := fun position => !position.isEmpty

/-- The entry of the whole comes last from left to right, and not last when the
right operand is evaluated first. -/
theorem Expr.others_rightAtRoot (hard : Bool) (l r : Expr P) :
    ((Expr.link hard l r).others rightAtRoot).2 =
      (l.others leftToRight).1 ++ [(l.last, flagsBefore (some hard))] := by
  have hl : rightAtRoot.left = leftToRight := rfl
  have hr : rightAtRoot.right = leftToRight := rfl
  simp only [Expr.others, hl, hr, (r.others_leftToRight {}).1, (l.others_leftToRight {}).1,
    link_eq_flagsBefore]
  simp [rightAtRoot]

/-- For every expression, with enough free entries: the requests in the ring are the
same for all orders of evaluation if and only if there is no operator; they are
those of an evaluation from left to right when every operator evaluates its left
operand first; and for different operations they come in the written order only
then. -/
theorem evaluation_order (e : Expr P) (s : SqRing P)
    (hroom : s.sq.length + e.leaves.length ≤ s.entries) :
    ((∀ order order', e.requests order s = e.requests order' s) ↔ e.operators = []) ∧
      (∀ order, e.LeftFirst order → e.requests order s = e.requests leftToRight s) ∧
      ∀ order, e.leaves.Nodup →
        ((e.requests order s).map (List.map Prod.fst) = some e.leaves ↔ e.LeftFirst order) := by
  refine ⟨⟨fun h => ?_, fun h => ?_⟩, fun order horder => ?_, fun order hnodup => ?_⟩
  · cases e with
    | op prep => rfl
    | link hard l r =>
        have heq := h leftToRight rightAtRoot
        have hafter := (Expr.others_leftToRight (.link hard l r) {}).1
        rw [Expr.requests_eq _ _ _ hroom, Expr.requests_eq _ _ _ hroom, hafter,
          Expr.others_rightAtRoot, Option.some.injEq] at heq
        have hlast := congrArg List.getLast? heq
        simp [List.getLast?_append, List.getLast?_cons, flagsBefore] at hlast
  · cases e with
    | op prep => exact fun _ _ => rfl
    | link hard l r => simp [Expr.operators] at h
  · rw [Expr.requests_eq _ _ _ hroom, Expr.requests_eq _ _ _ hroom, horder.others]
  · rw [Expr.requests_eq _ _ _ hroom, ← Expr.placed_eq_leaves _ _ hnodup, Expr.placed_eq]
    simp

theorem evaluation_order_written : writtenExpr.leaves.Nodup ∧
    (writtenExpr.requests leftToRight writtenRing).map (List.map Prod.fst) = some writtenExpr.leaves ∧
      ¬ writtenExpr.LeftFirst rightAtRoot := by
  have h := evaluation_order writtenExpr writtenRing (by decide)
  have hnodup : writtenExpr.leaves.Nodup := by decide
  refine ⟨hnodup, (h.2.2 leftToRight hnodup).mpr ⟨rfl, trivial, rfl, trivial, trivial⟩, fun hfirst => ?_⟩
  cases hfirst.1

/-- With the right operand of `1 & 2` evaluated first, 2 comes first and nothing
links the two. -/
theorem evaluation_order_matters :
    (Expr.link false (.op 1) (.op 2)).requests leftToRight writtenRing =
        some [(1, { ioLink := true, cqeSkipSuccess := true }), (2, {})] ∧
      (Expr.link false (.op 1) (.op 2)).requests rightAtRoot writtenRing =
        some [(2, {}), (1, { ioLink := true, cqeSkipSuccess := true })] := by
  decide

end IoUring.Coroutine
