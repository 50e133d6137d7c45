import Mathlib.Data.Fintype.Card
import Mathlib.Data.List.Chain
import Mathlib.Data.Nat.ModEq

/-!
# Visits in a ring of residues

A walker visits the classes of `Fin n`, each visit at a distance from the one
before. `n` visits see every class exactly when no two of them meet, and two
visits meet exactly when the distances between them add up to a multiple of `n`.
Visits are listed newest first; `gap a` is the distance from the visit before `a`.
-/

namespace IoUring

variable {α : Type*} {n : Nat} {res : α → Fin n} {gap : α → Nat} {a b : α} {l seg rest : List α}

theorem forall_mem_iff_nodup {l : List (Fin n)} (h : l.length = n) : (∀ b, b ∈ l) ↔ l.Nodup := by
  constructor
  · intro hall
    have huniv : l.toFinset = Finset.univ := Finset.eq_univ_of_forall fun b => by simp [hall b]
    have hcard : l.toFinset.card = l.length := by rw [huniv, Finset.card_univ, Fintype.card_fin, h]
    exact Multiset.toFinset_card_eq_card_iff_nodup.mp hcard
  · intro hnodup b
    have hcard : l.toFinset.card = Fintype.card (Fin n) := by
      rw [List.toFinset_card_of_nodup hnodup, h, Fintype.card_fin]
    rw [← List.mem_toFinset, Finset.eq_univ_of_card _ hcard]
    exact Finset.mem_univ b

/-- The newer of two consecutive visits is `gap` classes ahead of the older one. -/
def Follows (res : α → Fin n) (gap : α → Nat) (newer older : α) : Prop :=
  (res newer).val = ((res older).val + gap newer) % n

theorem add_mod_eq_self {x k : Nat} (hx : x < n) : (x + k) % n = x ↔ k % n = 0 := by
  constructor
  · intro h
    have hmod : x + k ≡ x + 0 [MOD n] := by rw [Nat.ModEq, h, Nat.add_zero, Nat.mod_eq_of_lt hx]
    simpa [Nat.ModEq] using Nat.ModEq.add_left_cancel' x hmod
  · intro h
    rw [Nat.add_mod, h, Nat.add_zero, Nat.mod_mod, Nat.mod_eq_of_lt hx]

/-- The distances add up. -/
theorem isChain_follows_append (h : (a :: seg ++ b :: rest).IsChain (Follows res gap)) :
    (res a).val = ((res b).val + ((a :: seg).map gap).sum) % n := by
  induction seg generalizing a with
  | nil => simpa [Follows] using (List.isChain_cons_cons.mp h).1
  | cons c seg ih =>
      obtain ⟨hac, htail⟩ := List.isChain_cons_cons.mp h
      have hcb := ih htail
      have hsum : ((a :: c :: seg).map gap).sum = ((c :: seg).map gap).sum + gap a := by
        rw [List.map_cons, List.sum_cons, Nat.add_comm]
      rw [hac, hcb, Nat.mod_add_mod, hsum, Nat.add_assoc]

theorem isChain_follows_meet (h : (a :: seg ++ b :: rest).IsChain (Follows res gap)) :
    res b = res a ↔ ((a :: seg).map gap).sum % n = 0 := by
  rw [← add_mod_eq_self (res b).isLt, ← isChain_follows_append h, ← Fin.val_inj, eq_comm]

/-- A visit meets an older one when a stretch of distances that ends with its own
is a multiple of `n`. -/
theorem isChain_follows_mem (h : (a :: l).IsChain (Follows res gap)) :
    res a ∈ l.map res ↔ ∃ seg, seg ≠ [] ∧ seg <+: (a :: l).dropLast ∧ (seg.map gap).sum % n = 0 := by
  constructor
  · intro hmem
    obtain ⟨b, hb, hres⟩ := List.mem_map.mp hmem
    obtain ⟨seg, rest, rfl⟩ := List.append_of_mem hb
    refine ⟨a :: seg, by simp, ?_, (isChain_follows_meet h).mp hres⟩
    rw [← List.cons_append, List.dropLast_append_of_ne_nil (by simp)]
    exact List.prefix_append _ _
  · rintro ⟨seg, hne, ⟨tail, htail⟩, hsum⟩
    cases seg with
    | nil => exact absurd rfl hne
    | cons a' seg =>
        have hsplit := List.dropLast_append_getLast (List.cons_ne_nil a l)
        rw [← htail, List.append_assoc] at hsplit
        obtain ⟨b, rest, hrest⟩ := List.exists_cons_of_ne_nil
          (List.append_ne_nil_of_right_ne_nil tail (List.cons_ne_nil _ []))
        rw [hrest] at hsplit
        obtain ⟨rfl, rfl⟩ := List.cons.inj hsplit
        rw [← (isChain_follows_meet h).mpr hsum]
        simp

/-- No two visits meet when no stretch of distances between them is a multiple of `n`. -/
theorem nodup_iff_sum_gap (h : l.IsChain (Follows res gap)) : (l.map res).Nodup ↔
    ∀ seg, seg ≠ [] → seg <:+: l.dropLast → (seg.map gap).sum % n ≠ 0 := by
  induction l with
  | nil => simp +contextual
  | cons a l ih =>
      have htail := h.tail
      rw [List.map_cons, List.nodup_cons, ih htail, isChain_follows_mem h]
      cases l with
      | nil => simp +contextual
      | cons b l =>
          rw [List.dropLast_cons_cons]
          constructor
          · rintro ⟨hfirst, hinfix⟩ seg hne hseg hsum
            rcases List.infix_cons_iff.mp hseg with hseg | hseg
            · exact hfirst ⟨seg, hne, hseg, hsum⟩
            · exact hinfix seg hne hseg hsum
          · intro hall
            refine ⟨?_, fun seg hne hseg => hall seg hne (List.infix_cons_iff.mpr (.inr hseg))⟩
            rintro ⟨seg, hne, hseg, hsum⟩
            exact hall seg hne (List.infix_cons_iff.mpr (.inl hseg)) hsum

/-- `n` visits see every class when no stretch of distances is a multiple of `n`. -/
theorem forall_visited_iff (h : l.IsChain (Follows res gap)) (hlength : l.length = n) :
    (∀ c, ∃ a ∈ l, res a = c) ↔
      ∀ seg, seg ≠ [] → seg <:+: l.dropLast → (seg.map gap).sum % n ≠ 0 := by
  have hmap : (l.map res).length = n := by rw [List.length_map, hlength]
  rw [← nodup_iff_sum_gap h, ← forall_mem_iff_nodup hmap]
  simp only [List.mem_map]

end IoUring
