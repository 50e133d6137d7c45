import Mathlib.Data.List.Nodup
import Mathlib.Logic.Function.Basic

/-!
# Tokens in places

Numbered tokens are pushed into places, moved from one place to another in
bulk, and taken out one by one. The record of where each token is agrees with the
contents of all places that are stored; other places, such as the one for tokens
that are used up, have no content.
-/

namespace IoUring

variable {P : Type*} [DecidableEq P] {stored : P → Prop} {content : P → List Nat}
  {place : Nat → Option P} {next : Nat} {p q d : P} {n : Nat}

/-- `next` is the number of the next token. -/
structure Placement (stored : P → Prop) (content : P → List Nat) (place : Nat → Option P)
    (next : Nat) : Prop where
  mem : ∀ p, stored p → ∀ n, place n = some p ↔ n ∈ content p
  nodup : ∀ p, (content p).Nodup
  fresh : ∀ n, next ≤ n → place n = none

namespace Placement

omit [DecidableEq P] in
theorem lt_next (h : Placement stored content place next) (hn : place n = some p) : n < next := by
  by_contra hle
  simp [h.fresh n (Nat.le_of_not_lt hle)] at hn

omit [DecidableEq P] in
/-- A token is in one place only. -/
theorem not_mem (h : Placement stored content place next) (hp : stored p) (hq : stored q)
    (hne : p ≠ q) (hn : n ∈ content p) : n ∉ content q := fun hn' => by
  have hplace := (h.mem p hp n).mpr hn
  rw [(h.mem q hq n).mpr hn', Option.some.injEq] at hplace
  exact hne hplace.symm

theorem push (h : Placement stored content place next) (hp : stored p) :
    Placement stored (Function.update content p (next :: content p))
      (Function.update place next (some p)) (next + 1) where
  mem := by
    intro q hq n
    by_cases hn : n = next
    · subst hn
      have hnone : ∀ q, stored q → n ∉ content q := fun q hq hmem => by
        have := h.lt_next ((h.mem q hq n).mpr hmem)
        omega
      by_cases hqp : q = p
      · simp [hqp]
      · simp [hqp, Ne.symm hqp, hnone q hq]
    · by_cases hqp : q = p
      · subst hqp
        simp [hn, h.mem q hq n]
      · simp [hn, hqp, h.mem q hq n]
  nodup := by
    intro q
    by_cases hqp : q = p
    · subst hqp
      rw [Function.update_self]
      refine List.nodup_cons.mpr ⟨fun hmem => ?_, h.nodup q⟩
      have := h.lt_next ((h.mem q hp next).mpr hmem)
      omega
    · rw [Function.update_of_ne hqp]
      exact h.nodup q
  fresh := by
    intro n hn
    rw [Function.update_of_ne (by omega)]
    exact h.fresh n (by omega)

/-- Everything at `p` goes to the empty place `q`, perhaps in another order. -/
theorem move (h : Placement stored content place next) (hp : stored p) (hq : stored q)
    (hne : p ≠ q) (hempty : content q = []) {l : List Nat} (hl : l.Perm (content p)) :
    Placement stored (Function.update (Function.update content p []) q l)
      (fun n => if n ∈ content p then some q else place n) next where
  mem := by
    intro r hr n
    by_cases hrq : r = q
    · subst hrq
      have hnot : place n ≠ some r := by simp [h.mem r hr n, hempty]
      by_cases hn : n ∈ content p <;> simp [hn, hl.mem_iff, hnot]
    · by_cases hrp : r = p
      · subst hrp
        by_cases hn : n ∈ content r
        · simp [hn, hne, Ne.symm hne]
        · simp [hn, hne, h.mem r hr n]
      · by_cases hn : n ∈ content p
        · simp [hn, hrq, hrp, Ne.symm hrq, h.not_mem hp hr (Ne.symm hrp) hn]
        · simp [hn, hrq, hrp, h.mem r hr n]
  nodup := by
    intro r
    by_cases hrq : r = q
    · subst hrq
      simpa using hl.nodup_iff.mpr (h.nodup p)
    · by_cases hrp : r = p
      · subst hrp
        simp [hrq]
      · simpa [hrq, hrp] using h.nodup r
  fresh := by
    intro n hn
    have hnone := h.fresh n hn
    have hnot : n ∉ content p := fun hmem => by simp [(h.mem p hp n).mpr hmem] at hnone
    simpa [hnot] using hnone

/-- The first token at `q` is used up. -/
theorem take (h : Placement stored content place next) (hq : stored q) (hd : ¬ stored d)
    {rest : List Nat} (hcons : content q = n :: rest) :
    Placement stored (Function.update content q rest) (Function.update place n (some d)) next where
  mem := by
    intro r hr m
    have hrd : r ≠ d := fun heq => hd (heq ▸ hr)
    have hnodup := h.nodup q
    rw [hcons, List.nodup_cons] at hnodup
    by_cases hm : m = n
    · subst hm
      by_cases hrq : r = q
      · subst hrq
        simp [hnodup.1, Ne.symm hrd]
      · have hnot := h.not_mem hq hr (Ne.symm hrq) (by rw [hcons]; exact List.mem_cons_self)
        simp [hrq, hnot, Ne.symm hrd]
    · by_cases hrq : r = q
      · subst hrq
        simp [hm, h.mem r hr m, hcons]
      · simp [hm, hrq, h.mem r hr m]
  nodup := by
    intro r
    by_cases hrq : r = q
    · subst hrq
      have hnodup := h.nodup r
      rw [hcons] at hnodup
      simpa using (List.nodup_cons.mp hnodup).2
    · simpa [hrq] using h.nodup r
  fresh := by
    intro m hm
    have hlt := h.lt_next ((h.mem q hq n).mpr (by rw [hcons]; exact List.mem_cons_self))
    rw [Function.update_of_ne (by omega)]
    exact h.fresh m hm

end Placement

/-! ## Tokens without a record of their places -/

/-- Every token is in one place at most. -/
structure Apart (content : P → List Nat) : Prop where
  nodup : ∀ p, (content p).Nodup
  unique : ∀ p q n, n ∈ content p → n ∈ content q → p = q

/-- Token `n` goes from `p` to `q`. -/
structure Moves (content content' : P → List Nat) (p q : P) (n : Nat) : Prop where
  ne : p ≠ q
  source : (content p).Perm (n :: content' p)
  target : (content' q).Perm (n :: content q)
  rest : ∀ r, r ≠ p → r ≠ q → content' r = content r

variable {content' : P → List Nat}

theorem Moves.update (content : P → List Nat) {l l' : List Nat} (hne : p ≠ q)
    (hp : (content p).Perm (n :: l)) (hq : l'.Perm (n :: content q)) :
    Moves content (Function.update (Function.update content p l) q l') p q n where
  ne := hne
  source := by rwa [Function.update_of_ne hne, Function.update_self]
  target := by rwa [Function.update_self]
  rest := by
    intro r hp hq
    rw [Function.update_of_ne hq, Function.update_of_ne hp]

theorem Moves.mem (h : Moves content content' p q n) {r : P} {m : Nat} (hm : m ∈ content' r) :
    ∃ r', m ∈ content r' := by
  have hn : n ∈ content p := h.source.mem_iff.mpr List.mem_cons_self
  by_cases hr : r = q
  · subst hr
    rcases List.mem_cons.mp (h.target.mem_iff.mp hm) with rfl | hm
    · exact ⟨p, hn⟩
    · exact ⟨r, hm⟩
  · by_cases hr' : r = p
    · subst hr'
      exact ⟨r, h.source.mem_iff.mpr (List.mem_cons_of_mem _ hm)⟩
    · exact ⟨r, h.rest r hr' hr ▸ hm⟩

namespace Apart

/-- A new token comes to `q`. -/
theorem add (h : Apart content) (hnew : ∀ p, n ∉ content p) (hq : (content' q).Perm (n :: content q))
    (hrest : ∀ r, r ≠ q → content' r = content r) : Apart content' := by
  have hmem : ∀ r m, m ∈ content' r → m ∈ content r ∨ r = q ∧ m = n := by
    intro r m hm
    by_cases hr : r = q
    · subst hr
      rcases List.mem_cons.mp (hq.mem_iff.mp hm) with rfl | hm
      · exact .inr ⟨rfl, rfl⟩
      · exact .inl hm
    · exact .inl (hrest r hr ▸ hm)
  refine ⟨fun r => ?_, fun r r' m hm hm' => ?_⟩
  · by_cases hr : r = q
    · subst hr
      exact hq.nodup_iff.mpr (List.nodup_cons.mpr ⟨hnew r, h.nodup r⟩)
    · rw [hrest r hr]
      exact h.nodup r
  · rcases hmem r m hm with hold | ⟨rfl, rfl⟩
    · rcases hmem r' m hm' with hold' | ⟨rfl, rfl⟩
      · exact h.unique r r' m hold hold'
      · exact absurd hold (hnew r)
    · rcases hmem r' m hm' with hold' | ⟨rfl, -⟩
      · exact absurd hold' (hnew r')
      · rfl

/-- A token leaves `p`, and is nowhere then. -/
theorem remove (h : Apart content) (hp : (content p).Perm (n :: content' p))
    (hrest : ∀ r, r ≠ p → content' r = content r) : Apart content' ∧ ∀ r, n ∉ content' r := by
  have hsub : ∀ r, ∀ m ∈ content' r, m ∈ content r := by
    intro r m hm
    by_cases hr : r = p
    · subst hr
      exact hp.mem_iff.mpr (List.mem_cons_of_mem _ hm)
    · exact hrest r hr ▸ hm
  have hnodup := hp.nodup_iff.mp (h.nodup p)
  refine ⟨⟨fun r => ?_, fun r r' m hm hm' => h.unique r r' m (hsub r m hm) (hsub r' m hm')⟩,
    fun r hn => ?_⟩
  · by_cases hr : r = p
    · subst hr
      exact (List.nodup_cons.mp hnodup).2
    · rw [hrest r hr]
      exact h.nodup r
  · by_cases hr : r = p
    · subst hr
      exact (List.nodup_cons.mp hnodup).1 hn
    · exact hr (h.unique r p n (hsub r n hn) (hp.mem_iff.mpr List.mem_cons_self))

/-- A token goes from `p` to `q`. -/
theorem move (h : Apart content) (hm : Moves content content' p q n) : Apart content' := by
  have hremoved : Apart (Function.update content p (content' p)) ∧
      ∀ r, n ∉ Function.update content p (content' p) r :=
    h.remove (by rw [Function.update_self]; exact hm.source) fun r hr => Function.update_of_ne hr _ _
  obtain ⟨hleft, hgone⟩ := hremoved
  refine hleft.add (q := q) hgone ?_ fun r hr => ?_
  · rw [Function.update_of_ne (Ne.symm hm.ne)]
    exact hm.target
  · by_cases hr' : r = p
    · rw [hr', Function.update_self]
    · rw [Function.update_of_ne hr', hm.rest r hr' hr]

end Apart

/-! ## Tokens that fit their places -/

/-- Every token is in one place at most, and every place holds tokens in one state only. -/
structure Fitted {L : Type*} (fit : P → L) (state : Nat → L) (content : P → List Nat) : Prop where
  apart : Apart content
  fits : ∀ p n, n ∈ content p → state n = fit p

namespace Fitted

variable {L : Type*} {fit : P → L} {state state' : Nat → L}

/-- A new token comes to `q`. -/
theorem add (h : Fitted fit state content) (hnew : ∀ p, n ∉ content p)
    (hq : (content' q).Perm (n :: content q)) (hrest : ∀ r, r ≠ q → content' r = content r)
    (hstate : state' n = fit q) (hothers : ∀ m, m ≠ n → state' m = state m) :
    Fitted fit state' content' where
  apart := h.apart.add hnew hq hrest
  fits := by
    intro r m hm
    by_cases hr : r = q
    · subst hr
      rcases List.mem_cons.mp (hq.mem_iff.mp hm) with rfl | hm
      · exact hstate
      · rw [hothers m fun hmn => hnew r (hmn ▸ hm)]
        exact h.fits r m hm
    · rw [hrest r hr] at hm
      rw [hothers m fun hmn => hnew r (hmn ▸ hm)]
      exact h.fits r m hm

/-- A token leaves `p`, and may be in any state then. -/
theorem remove (h : Fitted fit state content) (content' : P → List Nat) (state' : Nat → L)
    (hp : (content p).Perm (n :: content' p)) (hrest : ∀ r, r ≠ p → content' r = content r)
    (hothers : ∀ m, m ≠ n → state' m = state m) :
    Fitted fit state' content' ∧ ∀ r, n ∉ content' r := by
  obtain ⟨hapart, hgone⟩ := h.apart.remove hp hrest
  refine ⟨⟨hapart, fun r m hm => ?_⟩, hgone⟩
  have hold : m ∈ content r := by
    by_cases hr : r = p
    · subst hr
      exact hp.mem_iff.mpr (List.mem_cons_of_mem _ hm)
    · exact hrest r hr ▸ hm
  rw [hothers m fun hmn => hgone r (hmn ▸ hm)]
  exact h.fits r m hold

/-- A token goes from `p` to `q`. -/
theorem move (h : Fitted fit state content) (hm : Moves content content' p q n)
    (hstate : state' n = fit q) (hothers : ∀ m, m ≠ n → state' m = state m) :
    Fitted fit state' content' := by
  obtain ⟨hleft, hgone⟩ := h.remove (Function.update content p (content' p)) state
    (by rw [Function.update_self]; exact hm.source) (fun r hr => Function.update_of_ne hr _ _)
    fun _ _ => rfl
  refine hleft.add (q := q) hgone ?_ (fun r hr => ?_) hstate hothers
  · rw [Function.update_of_ne (Ne.symm hm.ne)]
    exact hm.target
  · by_cases hr' : r = p
    · rw [hr', Function.update_self]
    · rw [Function.update_of_ne hr', hm.rest r hr' hr]

omit [DecidableEq P] in
/-- A token that is in no place changes its state. -/
theorem of_free (h : Fitted fit state content) (state' : Nat → L) (hfree : ∀ r, n ∉ content r)
    (hcontent : ∀ r, content' r = content r) (hothers : ∀ m, m ≠ n → state' m = state m) :
    Fitted fit state' content' := by
  obtain rfl : content' = content := funext hcontent
  refine ⟨h.apart, fun r m hm => ?_⟩
  rw [hothers m fun hmn => hfree r (hmn ▸ hm)]
  exact h.fits r m hm

end Fitted

/-! ## Items with an owner -/

variable {α : Type*} {own : α → Option P} {contents : P → List α} {l rest : List α}

/-- `own` names the place of each item that has one, `contents` lists the items of each place. -/
def Owned (own : α → Option P) (contents : P → List α) : Prop :=
  ∀ p a, a ∈ contents p ↔ own a = some p

namespace Owned

omit [DecidableEq P] in
theorem disjoint (h : Owned own contents) (hne : p ≠ q) {a : α} (ha : a ∈ contents p) :
    a ∉ contents q := by
  intro ha'
  rw [h q, (h p a).mp ha] at ha'
  exact hne (Option.some.inj ha')

omit [DecidableEq P] in
theorem not_mem_of_none (h : Owned own contents) {a : α} (ha : own a = none) : a ∉ contents p := by
  simp [h p, ha]

variable [DecidableEq α]

/-- Items without a place come to `p`. -/
theorem add (h : Owned own contents) (hnew : ∀ a ∈ l, own a = none) :
    Owned (fun a => if a ∈ l then some p else own a)
      (Function.update contents p (l ++ contents p)) := by
  intro q a
  by_cases hq : q = p
  · subst hq
    by_cases ha : a ∈ l <;> simp [ha, h q]
  · by_cases ha : a ∈ l
    · simp [ha, hq, Ne.symm hq, h q, hnew a ha]
    · simp [ha, hq, h q]

/-- The first items of `p` leave it, and are at no place then. -/
theorem remove (h : Owned own contents) (hp : contents p = l ++ rest) (hnd : (contents p).Nodup) :
    Owned (fun a => if a ∈ l then none else own a) (Function.update contents p rest) := by
  have hout : ∀ a ∈ l, a ∉ rest := by
    rw [hp, List.nodup_append] at hnd
    exact fun a ha ha' => hnd.2.2 a ha a ha' rfl
  intro q a
  by_cases hq : q = p
  · subst hq
    by_cases ha : a ∈ l
    · simp [ha, hout a ha]
    · simp [ha, ← h q, hp]
  · by_cases ha : a ∈ l
    · have hap : a ∈ contents p := by simp [hp, ha]
      simp [ha, hq, h.disjoint (Ne.symm hq) hap]
    · simp [ha, hq, h q]

/-- The first items of `p` come to `q`. -/
theorem move (h : Owned own contents) (hne : p ≠ q) (hp : contents p = l ++ rest)
    (hnd : (contents p).Nodup) :
    Owned (fun a => if a ∈ l then some q else own a)
      (Function.update (Function.update contents p rest) q (l ++ contents q)) := by
  have hadd := (h.remove hp hnd).add (p := q) (l := l) fun a ha => if_pos ha
  rw [Function.update_of_ne (Ne.symm hne)] at hadd
  intro r a
  rw [hadd r a]
  by_cases ha : a ∈ l <;> simp [ha]

end Owned

end IoUring
