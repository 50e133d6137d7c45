import IoUring.Coroutine.ProvidedBuffers
import Mathlib.Data.List.Nodup
import Mathlib.Data.List.Perm.Subperm

/-!
# Conservation of provided buffers

The ring holds a window of all buffers that were ever added to it. While each CQE
carries a buffer exactly when it is no error, every buffer is in the window or with
one read; the first CQE that does not breaks this.
-/

namespace IoUring.Coroutine.ProvidedBuffers

variable {cfg : Config} {s s' : State} {a : Label} {i bid : Nat} {r : Read} {log : List Buf}
  {popped : Nat}

/-! ## Indices -/

namespace Config

theorem nentries_pos (cfg : Config) : 0 < cfg.nentries := by
  obtain ⟨k, -, hk⟩ := cfg.pow_two
  rw [hk]
  exact Nat.two_pow_pos k

theorem nentries_le (cfg : Config) : cfg.nentries ≤ 2 ^ 15 := by
  obtain ⟨k, hle, hk⟩ := cfg.pow_two
  rw [hk]
  exact Nat.pow_le_pow_right (by decide) hle

theorem and_mask (cfg : Config) (x : Nat) : x &&& cfg.mask = x % cfg.nentries := by
  obtain ⟨k, -, hk⟩ := cfg.pow_two
  rw [mask, hk, Nat.and_two_pow_sub_one_eq_mod]

/-- A counter of 16 bits is enough to find its slot. -/
theorem wrap_mod (cfg : Config) (x y : Nat) :
    (x % 2 ^ 16 + y) % cfg.nentries = (x + y) % cfg.nentries := by
  obtain ⟨k, hle, hk⟩ := cfg.pow_two
  have hdvd : cfg.nentries ∣ 2 ^ 16 := hk ▸ Nat.pow_dvd_pow 2 (by omega)
  rw [Nat.add_mod, Nat.mod_mod_of_dvd x hdvd, ← Nat.add_mod]

end Config

/-- The entry of a buffer in the ring. -/
def Config.buf (cfg : Config) (bid : Nat) : Buf :=
  ⟨cfg.buffer bid, cfg.perBufferSize % 2 ^ 32, bid⟩

/-- `log` are the entries that the kernel may see or has seen, of which the first
`popped` were picked; `next` is the one that is written and not committed. -/
structure RingOk (cfg : Config) (ring : BufRing) (log : List Buf) (popped : Nat)
    (next : List Buf) : Prop where
  head : ring.head = popped % 2 ^ 16
  tail : ring.tail = log.length % 2 ^ 16
  le : popped ≤ log.length
  room : (log ++ next).length ≤ popped + cfg.nentries
  slots : Slots cfg.nentries ring.bufs (log ++ next)

namespace RingOk

variable {ring : BufRing} {next : List Buf} {b : Buf}

theorem window_eq (h : RingOk cfg ring log popped next) : ring.window cfg.mask = log.drop popped := by
  have hle := cfg.nentries_le
  obtain ⟨hhead, htail, hpopped, hroom, hslots⟩ := h
  rw [List.length_append] at hroom
  have hlength : (ring.tail + 2 ^ 16 - ring.head) % 2 ^ 16 = log.length - popped := by
    rw [hhead, htail]
    omega
  rw [BufRing.window, hlength]
  apply List.ext_getElem (by simp)
  intro k hk _
  have hlt : popped + k < log.length := by
    rw [List.length_map, List.length_range] at hk
    omega
  rw [List.getElem_map, List.getElem_range, cfg.and_mask, hhead, cfg.wrap_mod, List.getElem_drop]
  refine hslots.get _ _ ?_ (by rw [List.length_append]; omega)
  rw [List.getElem?_append_left hlt, List.getElem?_eq_getElem hlt]

/-- The kernel picks the oldest entry. -/
theorem pick (h : RingOk cfg ring log popped next) (hne : ring.head ≠ ring.tail) :
    ∃ rest, log.drop popped = ring.bufs (ring.head &&& cfg.mask) :: rest ∧
      log.drop (popped + 1) = rest ∧
      RingOk cfg { ring with head := (ring.head + 1) % 2 ^ 16 } log (popped + 1) next := by
  obtain ⟨hhead, htail, hpopped, hroom, hslots⟩ := h
  have hlt : popped < log.length := by
    rcases Nat.lt_or_eq_of_le hpopped with hlt | heq
    · exact hlt
    · rw [hhead, htail, heq] at hne
      exact absurd rfl hne
  have hslot : ring.bufs (ring.head &&& cfg.mask) = log[popped] := by
    have hwrap := cfg.wrap_mod popped 0
    rw [Nat.add_zero, Nat.add_zero] at hwrap
    rw [cfg.and_mask, hhead, hwrap]
    refine hslots.get _ _ ?_ hroom
    rw [List.getElem?_append_left hlt, List.getElem?_eq_getElem hlt]
  refine ⟨_, by rw [hslot, List.drop_eq_getElem_cons hlt], rfl, ⟨?_, htail, hlt, by omega, hslots⟩⟩
  simp only [hhead, Nat.mod_add_mod]

/-- `io_uring_buf_ring_add`, at the offset `next.length` from the tail. -/
theorem add (h : RingOk cfg ring log popped next) (addr len bid : Nat)
    (hroom : (log ++ next).length < popped + cfg.nentries) :
    RingOk cfg (ring.add addr len bid cfg.mask next.length) log popped
      (next ++ [⟨addr, len % 2 ^ 32, bid % 2 ^ 16⟩]) := by
  refine ⟨h.head, h.tail, h.le, ?_, ?_⟩
  · rw [← List.append_assoc, List.length_append, List.length_singleton]
    exact hroom
  · have hslot : (ring.tail + next.length) &&& cfg.mask = (log ++ next).length % cfg.nentries := by
      rw [cfg.and_mask, h.tail, cfg.wrap_mod, List.length_append]
    rw [BufRing.add, hslot, ← List.append_assoc]
    exact h.slots.push _

/-- `io_uring_buf_ring_advance` over all that is written. -/
theorem advance (h : RingOk cfg ring log popped next) :
    RingOk cfg (ring.advance next.length) (log ++ next) popped [] := by
  refine ⟨h.head, ?_, ?_, by simpa using h.room, by rw [List.append_nil]; exact h.slots⟩
  · rw [BufRing.advance, h.tail, Nat.mod_add_mod, List.length_append]
  · rw [List.length_append]
    exact Nat.le_add_right_of_le h.le

end RingOk

/-- The loop of `make_provided_buffers`. -/
theorem makeProvidedBuffers_ok (cfg : Config) :
    RingOk cfg cfg.makeProvidedBuffers ((List.range cfg.nentries).map cfg.buf) 0 [] := by
  have hloop : ∀ m ≤ cfg.nentries, RingOk cfg ((List.range m).foldl
      (fun (r : BufRing) i => r.add (cfg.buffer i) cfg.perBufferSize i cfg.mask i) .init) [] 0
        ((List.range m).map cfg.buf) := by
    intro m hm
    induction m with
    | zero => exact ⟨rfl, rfl, Nat.le_refl _, by simp, .nil⟩
    | succ m ih =>
        have hbid : m % 2 ^ 16 = m := Nat.mod_eq_of_lt (by have := cfg.nentries_le; omega)
        have h := (ih (by omega)).add (cfg.buffer m) cfg.perBufferSize m
          (by simp; omega)
        simp only [List.length_map, List.length_range, hbid] at h
        simpa [List.range_succ, Config.buf] using h
  have h := (hloop cfg.nentries (Nat.le_refl _)).advance
  simpa [Config.makeProvidedBuffers] using h

/-! ## Reads -/

/-- The buffer that is between the two calls of `buffer_rejoin`. -/
def Read.next : Read → Option Nat
  | .rejoining bid => some bid
  | _ => none

/-- Every buffer is in the window or with one read. -/
structure Inv (cfg : Config) (s : State) (log : List Buf) (popped : Nat) : Prop where
  ring : RingOk cfg s.ring log popped ((s.reads.filterMap Read.next).map cfg.buf)
  single : (s.reads.filterMap Read.next).length ≤ 1
  log_buf : ∀ b ∈ log, b.bid < cfg.nentries ∧ b = cfg.buf b.bid
  reads : ∀ r ∈ s.reads, ∀ bid, r.bid = some bid → bid < cfg.nentries
  place : ∀ bid < cfg.nentries, ((log.drop popped).map Buf.bid).count bid +
    (s.reads.map Read.bid).count (some bid) = 1

/-- Different numbers below a bound. -/
theorem length_le_of_count {l : List Nat} {n : Nat} (hlt : ∀ x ∈ l, x < n)
    (hcount : ∀ x < n, l.count x ≤ 1) : l.length ≤ n := by
  have hnodup : l.Nodup := by
    apply List.nodup_iff_count_le_one.mpr
    intro x
    by_cases hx : x ∈ l
    · exact hcount x (hlt x hx)
    · simp [List.count_eq_zero.mpr hx]
  have hsub : l ⊆ List.range n := fun x hx => List.mem_range.mpr (hlt x hx)
  simpa using (hnodup.subperm hsub).length_le

/-- What a list holds once stands at one index. -/
theorem index_unique {l : List (Option Nat)} {x : Option Nat} {j : Nat} (hcount : l.count x ≤ 1)
    (hlt : i < j) (hi : l[i]? = some x) : l[j]? ≠ some x := by
  intro hj
  have hbefore : x ∈ l.take j := List.mem_of_getElem? (by rw [List.getElem?_take_of_lt hlt, hi])
  have hafter : x ∈ l.drop j := List.mem_of_getElem? (i := 0) (by rw [List.getElem?_drop, Nat.add_zero, hj])
  have hsplit : (l.take j ++ l.drop j).count x = (l.take j).count x + (l.drop j).count x :=
    List.count_append
  rw [List.take_append_drop] at hsplit
  have hpos := List.count_pos_iff.mpr hbefore
  have hpos' := List.count_pos_iff.mpr hafter
  omega

/-- A read and what takes its place. -/
theorem split_reads {reads : List Read} (h : reads[i]? = some r) (r' : Read) :
    ∃ before after, reads = before ++ r :: after ∧ reads.set i r' = before ++ r' :: after := by
  obtain ⟨hi, rfl⟩ := List.getElem?_eq_some_iff.mp h
  obtain ⟨before, after, hreads, -, hset⟩ : ∃ l₁ l₂, reads = l₁ ++ reads[i] :: l₂ ∧
      l₁.length = i ∧ reads.set i r' = l₁ ++ r' :: l₂ := List.exists_of_set hi
  exact ⟨before, after, hreads, hset⟩

namespace Inv

theorem window_lt (h : Inv cfg s log popped) : ∀ bid ∈ (log.drop popped).map Buf.bid, bid < cfg.nentries := by
  intro bid hbid
  obtain ⟨b, hb, rfl⟩ := List.mem_map.mp hbid
  exact (h.log_buf b (List.mem_of_mem_drop hb)).1

theorem conserved (h : Inv cfg s log popped) : Conserved cfg s := by
  have hwindow := h.ring.window_eq
  refine ⟨?_, ?_, ?_, ?_⟩
  · rw [hwindow]
    exact h.place
  · intro i j r r' bid hi hj hr hr'
    have hbid := h.reads r (List.mem_of_getElem? hi) bid hr
    have hcount := h.place bid hbid
    have hle : (s.reads.map Read.bid).count (some bid) ≤ 1 := by omega
    have hget : ∀ {k : Nat} {q : Read}, s.reads[k]? = some q → q.bid = some bid →
        (s.reads.map Read.bid)[k]? = some (some bid) := fun hk hq => by
      rw [List.getElem?_map, hk, Option.map_some, hq]
    rcases Nat.lt_trichotomy i j with hlt | heq | hlt
    · exact absurd (hget hj hr') (index_unique hle hlt (hget hi hr))
    · exact heq
    · exact absurd (hget hi hr) (index_unique hle hlt (hget hj hr'))
  · rw [hwindow]
    intro b hb
    obtain ⟨hlt, heq⟩ := h.log_buf b (List.mem_of_mem_drop hb)
    exact ⟨hlt, congrArg Buf.addr heq⟩
  · rw [hwindow, ← List.length_map (f := Buf.bid)]
    exact length_le_of_count h.window_lt fun bid hbid => by
      have := h.place bid hbid
      omega

/-- While a read has a buffer, the window has room for it. -/
theorem room (h : Inv cfg s log popped) (hr : r ∈ s.reads) (hbid : r.bid = some bid) :
    (log.drop popped).length < cfg.nentries := by
  have hlt := h.reads r hr bid hbid
  have hcount : 0 < (s.reads.map Read.bid).count (some bid) :=
    List.count_pos_iff.mpr (List.mem_map.mpr ⟨r, hr, hbid⟩)
  have hle : (bid :: (log.drop popped).map Buf.bid).length ≤ cfg.nentries := by
    refine length_le_of_count ?_ fun x hx => ?_
    · intro x hx
      rcases List.mem_cons.mp hx with rfl | hx
      · exact hlt
      · exact h.window_lt x hx
    · have hplace := h.place x hx
      rw [List.count_cons]
      by_cases hxb : bid = x
      · subst hxb
        rw [beq_self_eq_true, if_pos rfl]
        omega
      · rw [if_neg (by simpa using hxb)]
        omega
  rwa [List.length_cons, List.length_map] at hle

end Inv

theorem filterMap_next {before after : List Read} :
    (before ++ r :: after).filterMap Read.next =
      before.filterMap Read.next ++ (r.next.toList ++ after.filterMap Read.next) := by
  cases h : r.next <;> simp [h]

/-- The buffers of the reads after one of them has changed. -/
theorem count_set {reads : List Read} (h : reads[i]? = some r) (r' : Read) (bid : Nat) :
    ((reads.set i r').map Read.bid).count (some bid) + (if r.bid = some bid then 1 else 0) =
      (reads.map Read.bid).count (some bid) + (if r'.bid = some bid then 1 else 0) := by
  obtain ⟨before, after, hreads, hset⟩ := split_reads h r'
  rw [hset, hreads]
  simp only [List.map_append, List.map_cons, List.count_append, List.count_cons, beq_iff_eq]
  omega

theorem resume_eq (s : State) (i : Nat) (cqe : Cqe) :
    s.resume i cqe = s.setRead i
      (if cqe.res < 0 then .failed else .handed (if cqe.buffer then cqe.bid else 0)) := by
  simp only [State.resume, awaitResume]
  split
  · simp
  · split <;> simp

namespace Inv

/-- Read `i` changes, and buffers move only between it and the window. -/
theorem setRead (h : Inv cfg s log popped) (hi : s.reads[i]? = some r) {r' : Read} {ring : BufRing}
    {log' : List Buf} {popped' : Nat}
    (hring : RingOk cfg ring log' popped' (((s.reads.set i r').filterMap Read.next).map cfg.buf))
    (hsingle : ((s.reads.set i r').filterMap Read.next).length ≤ 1)
    (hlog : ∀ b ∈ log', b.bid < cfg.nentries ∧ b = cfg.buf b.bid)
    (hbid : ∀ bid, r'.bid = some bid → bid < cfg.nentries)
    (hplace : ∀ bid, ((log'.drop popped').map Buf.bid).count bid +
        (if r'.bid = some bid then 1 else 0) =
      ((log.drop popped).map Buf.bid).count bid + (if r.bid = some bid then 1 else 0)) :
    Inv cfg ⟨ring, s.reads.set i r'⟩ log' popped' where
  ring := hring
  single := hsingle
  log_buf := hlog
  reads := by
    intro q hq bid hqbid
    rcases List.mem_or_eq_of_mem_set hq with hq | rfl
    · exact h.reads q hq bid hqbid
    · exact hbid bid hqbid
  place := by
    intro bid hlt
    have hcount := count_set hi r' bid
    have hbefore := h.place bid hlt
    have hmove := hplace bid
    simp only
    omega

/-- A read that is not between the two calls of `buffer_rejoin` before or after. -/
theorem next_set {reads : List Read} (hi : reads[i]? = some r) {r' : Read} (hr : r.next = none)
    (hr' : r'.next = none) : (reads.set i r').filterMap Read.next = reads.filterMap Read.next := by
  obtain ⟨before, after, hreads, hset⟩ := split_reads hi r'
  rw [hset, hreads, filterMap_next, filterMap_next, hr, hr']

theorem read (h : Inv cfg s log popped) :
    Inv cfg { s with reads := s.reads ++ [.waiting] } log popped where
  ring := by simpa [List.filterMap_append, show [Read.waiting].filterMap Read.next = [] from rfl]
    using h.ring
  single := by simpa [List.filterMap_append, show [Read.waiting].filterMap Read.next = [] from rfl]
    using h.single
  log_buf := h.log_buf
  reads := by
    intro r hr bid hbid
    rcases List.mem_append.mp hr with hr | hr
    · exact h.reads r hr bid hbid
    · obtain rfl : r = .waiting := by simpa using hr
      cases hbid
  place := by
    intro bid hlt
    simpa [Read.bid] using h.place bid hlt

theorem pick (h : Inv cfg s log popped) (hi : s.reads[i]? = some .waiting)
    (hne : s.ring.head ≠ s.ring.tail) :
    Inv cfg { s.setRead i (.picked (s.ring.bufs (s.ring.head &&& cfg.mask)).bid) with
      ring := { s.ring with head := (s.ring.head + 1) % 2 ^ 16 } } log (popped + 1) := by
  obtain ⟨rest, hwindow, hrest, hring⟩ := h.ring.pick hne
  have hbuf : s.ring.bufs (s.ring.head &&& cfg.mask) ∈ log :=
    List.mem_of_mem_drop (hwindow ▸ List.mem_cons_self)
  refine h.setRead hi ?_ ?_ h.log_buf ?_ fun bid => ?_
  · rw [next_set hi rfl rfl]
    exact hring
  · rw [next_set hi rfl rfl]
    exact h.single
  · intro bid hbid
    obtain rfl := Option.some.inj hbid
    exact (h.log_buf _ hbuf).1
  · rw [hwindow, hrest, List.map_cons, List.count_cons]
    simp [Read.bid]

/-- A read gets its CQE. -/
theorem complete (h : Inv cfg s log popped) {cqe : Cqe} (hi : s.reads[i]? = some r)
    (hnext : r.next = none) (hbid : r.bid = if cqe.buffer then some cqe.bid else none)
    (hflag : 0 ≤ cqe.res ↔ cqe.buffer = true) : Inv cfg (s.resume i cqe) log popped := by
  have hread : s.resume i cqe = s.setRead i (if cqe.buffer then .handed cqe.bid else .failed) := by
    rw [resume_eq]
    by_cases hres : 0 ≤ cqe.res
    · simp [Int.not_lt.mpr hres, hflag.mp hres]
    · have hbuffer : cqe.buffer = false := by simpa using fun hb => hres (hflag.mpr hb)
      simp [Int.not_le.mp hres, hbuffer]
  rw [hread]
  have hnext' : (if cqe.buffer then Read.handed cqe.bid else .failed).next = none := by
    split <;> rfl
  have hbid' : (if cqe.buffer then Read.handed cqe.bid else .failed).bid = r.bid := by
    rw [hbid]
    split <;> rfl
  refine h.setRead hi ?_ ?_ h.log_buf ?_ fun bid => by rw [hbid']
  · rw [next_set hi hnext hnext']
    exact h.ring
  · rw [next_set hi hnext hnext']
    exact h.single
  · rw [hbid']
    exact h.reads r (List.mem_of_getElem? hi)

theorem add (h : Inv cfg s log popped) (hi : s.reads[i]? = some (.handed bid))
    (hnone : s.reads.any Read.isRejoining = false) :
    Inv cfg { s.setRead i (.rejoining bid) with
      ring := s.ring.add (cfg.buffer bid) cfg.perBufferSize bid cfg.mask 0 } log popped := by
  have hnext : s.reads.filterMap Read.next = [] := by
    apply List.filterMap_eq_nil_iff.mpr
    intro r hr
    have hr' := List.any_eq_false.mp hnone r hr
    cases r <;> simp_all [Read.next, Read.isRejoining]
  have hset : (s.reads.set i (.rejoining bid)).filterMap Read.next = [bid] := by
    obtain ⟨before, after, hreads, hset⟩ := split_reads hi (.rejoining bid)
    rw [hreads, filterMap_next] at hnext
    obtain ⟨hbefore, hafter⟩ := List.append_eq_nil_iff.mp hnext
    rw [hset, filterMap_next, hbefore, (List.append_eq_nil_iff.mp hafter).2]
    rfl
  have hmem := List.mem_of_getElem? hi
  have hlt := h.reads _ hmem bid rfl
  have hroom := h.room hmem rfl
  have hring := h.ring
  rw [hnext] at hring
  refine h.setRead hi ?_ (by simp [hset]) h.log_buf ?_ fun bid' => rfl
  · rw [hset]
    have hadd := hring.add (cfg.buffer bid) cfg.perBufferSize bid (by
      rw [List.length_drop] at hroom
      simp
      omega)
    have hbid : bid % 2 ^ 16 = bid := Nat.mod_eq_of_lt (by have := cfg.nentries_le; omega)
    rw [hbid] at hadd
    exact hadd
  · intro bid' hbid'
    obtain rfl := Option.some.inj hbid'
    exact hlt

theorem advance (h : Inv cfg s log popped) (hi : s.reads[i]? = some (.rejoining bid)) :
    Inv cfg { s.setRead i .rejoined with ring := s.ring.advance 1 } (log ++ [cfg.buf bid]) popped := by
  obtain ⟨before, after, hreads, hset⟩ := split_reads hi .rejoined
  have hlt := h.reads _ (List.mem_of_getElem? hi) bid rfl
  have hnil : before.filterMap Read.next = [] ∧ after.filterMap Read.next = [] := by
    have hsingle := h.single
    rw [hreads, filterMap_next] at hsingle
    simp only [Read.next, Option.toList_some, List.length_append, List.length_singleton] at hsingle
    exact ⟨List.length_eq_zero_iff.mp (by omega), List.length_eq_zero_iff.mp (by omega)⟩
  have hring := h.ring
  rw [hreads, filterMap_next, hnil.1, hnil.2] at hring
  have hnext : (s.reads.set i .rejoined).filterMap Read.next = [] := by
    rw [hset, filterMap_next, hnil.1, hnil.2]
    rfl
  refine h.setRead hi ?_ (by simp [hnext]) ?_ (fun _ hbid => by cases hbid) fun bid' => ?_
  · rw [hnext]
    exact hring.advance
  · intro b hb
    rcases List.mem_append.mp hb with hb | hb
    · exact h.log_buf b hb
    · obtain rfl := List.mem_singleton.mp hb
      exact ⟨hlt, rfl⟩
  · rw [List.drop_append_of_le_length h.ring.le, List.map_append, List.count_append]
    simp [Config.buf, Read.bid, List.count_singleton]

theorem init (cfg : Config) : Inv cfg ⟨cfg.makeProvidedBuffers, []⟩
    ((List.range cfg.nentries).map cfg.buf) 0 where
  ring := makeProvidedBuffers_ok cfg
  single := Nat.zero_le _
  log_buf := by
    intro b hb
    obtain ⟨i, hi, rfl⟩ := List.mem_map.mp hb
    exact ⟨List.mem_range.mp hi, rfl⟩
  reads := by simp
  place := by
    intro bid hlt
    have hbid : Buf.bid ∘ cfg.buf = id := rfl
    rw [List.drop_zero, List.map_map, hbid, List.map_id, List.map_nil, List.count_nil]
    exact List.count_eq_one_of_mem List.nodup_range (List.mem_range.mpr hlt)

end Inv

/-- While each CQE carries a buffer exactly when it is no error, every step keeps the
invariant. -/
theorem Inv.step (h : Inv cfg s log popped) (hstep : step cfg s a = some s') (hok : Flagged s a) :
    ∃ log popped, Inv cfg s' log popped := by
  cases a with
  | read =>
      obtain rfl := Option.some.inj hstep
      exact ⟨_, _, h.read⟩
  | pick i =>
      simp only [ProvidedBuffers.step] at hstep
      split at hstep
      · next hi =>
          split at hstep
          · next hne =>
              obtain rfl := Option.some.inj hstep
              exact ⟨_, _, h.pick hi hne⟩
          · cases hstep
      · cases hstep
  | complete i cqe =>
      simp only [ProvidedBuffers.step] at hstep
      split at hstep
      · next hi =>
          split at hstep
          · next hbuffer =>
              obtain rfl := Option.some.inj hstep
              exact ⟨_, _, h.complete hi rfl (by rw [hbuffer]; rfl) hok⟩
          · cases hstep
      · next hi =>
          split at hstep
          · next hbuffer =>
              obtain rfl := Option.some.inj hstep
              exact ⟨_, _, h.complete hi rfl (by rw [if_pos hbuffer.1, hbuffer.2]; rfl) hok⟩
          · cases hstep
      · cases hstep
  | add i =>
      simp only [ProvidedBuffers.step] at hstep
      split at hstep
      · next hi =>
          split at hstep
          · cases hstep
          · next hnone =>
              obtain rfl := Option.some.inj hstep
              exact ⟨_, _, h.add hi (by simpa using hnone)⟩
      · cases hstep
  | advance i =>
      simp only [ProvidedBuffers.step] at hstep
      split at hstep
      · next hi =>
          obtain rfl := Option.some.inj hstep
          exact ⟨_, _, h.advance hi⟩
      · cases hstep

/-- A read that changes alone keeps its buffer. -/
theorem Conserved.bid_iff (h : Conserved cfg s) (hi : s.reads[i]? = some r) {r' : Read}
    (h' : Conserved cfg (s.setRead i r')) (hlt : bid < cfg.nentries) :
    r.bid = some bid ↔ r'.bid = some bid := by
  have hbefore := h.place bid hlt
  have hafter := h'.place bid hlt
  have hcount := count_set hi r' bid
  simp only [State.setRead] at hafter
  constructor
  · intro hr
    rw [if_pos hr] at hcount
    by_contra hr'
    rw [if_neg hr'] at hcount
    omega
  · intro hr'
    rw [if_pos hr'] at hcount
    by_contra hr
    rw [if_neg hr] at hcount
    omega

/-- A CQE without the flag and without an error makes a buffer ID of its own, and one
with both takes a buffer away. -/
theorem Inv.flagged_of_conserved (h : Inv cfg s log popped) (hstep : ProvidedBuffers.step cfg s a = some s')
    (h' : Conserved cfg s') : Flagged s a := by
  cases a with
  | complete i cqe =>
      simp only [ProvidedBuffers.step] at hstep
      split at hstep
      · next hi =>
          split at hstep
          · next hbuffer =>
              obtain rfl := Option.some.inj hstep
              rw [resume_eq] at h'
              have hiff := h.conserved.bid_iff hi h' cfg.nentries_pos
              by_contra hflag
              have hres : ¬ cqe.res < 0 := by
                intro hlt
                exact hflag ⟨fun hle => absurd hlt (Int.not_lt.mpr hle), by simp [hbuffer]⟩
              simp [hres, hbuffer, Read.bid] at hiff
          · cases hstep
      · next bid hi =>
          split at hstep
          · next hbuffer =>
              obtain rfl := Option.some.inj hstep
              rw [resume_eq] at h'
              have hlt := h.reads _ (List.mem_of_getElem? hi) bid rfl
              have hiff := h.conserved.bid_iff hi h' hlt
              by_contra hflag
              have hres : cqe.res < 0 := by
                by_contra hle
                exact hflag ⟨fun _ => hbuffer.1, fun _ => Int.not_lt.mp hle⟩
              simp [hres, Read.bid] at hiff
          · cases hstep
      · cases hstep
  | _ => trivial

theorem reach_inv (h : (machine cfg).Reach Flagged s) : ∃ log popped, Inv cfg s log popped := by
  refine h.invariant (fun s => ∃ log popped, Inv cfg s log popped) ?_ ?_
  · rintro s rfl
    exact ⟨_, _, .init cfg⟩
  · rintro s a s' _ ⟨log, popped, hinv⟩ hok hs
    exact hinv.step hs hok

/-- For any power of two of buffers of any size and any number of reads: in every run in
which each CQE carries `IORING_CQE_F_BUFFER` exactly when it is no error, every buffer is in
one place at any moment; and the first CQE that does not breaks this. -/
theorem buffers_conserved (cfg : Config) (s : State) (h : (machine cfg).Reach Flagged s) :
    Conserved cfg s ∧ ∀ a s', (machine cfg).step s a = some s' → (Conserved cfg s' ↔ Flagged s a) := by
  obtain ⟨log, popped, hinv⟩ := reach_inv h
  refine ⟨hinv.conserved, fun a s' hs => ⟨hinv.flagged_of_conserved hs, fun hok => ?_⟩⟩
  obtain ⟨log', popped', hinv'⟩ := hinv.step hs hok
  exact hinv'.conserved

section Echo

/-- Two buffers of 4096 bytes. -/
def echoConfig : Config where
  nentries := 2
  perBufferSize := 4096
  base := 65536
  pow_two := ⟨1, by decide, rfl⟩

def echoStart : State :=
  ⟨echoConfig.makeProvidedBuffers, []⟩

/-- Two reads get both buffers, and the first one puts its buffer back. -/
def echoRun : List Label :=
  [.read, .read, .pick 1, .pick 0, .complete 0 ⟨5, 65537⟩, .complete 1 ⟨7, 1⟩, .add 0, .advance 0]

/-- A read completes with 0 and without a buffer, and its coroutine puts back what
`co_await` returned; then three more reads are given buffers. -/
def emptyReadRun : List Label :=
  [.read, .complete 0 ⟨0, 0⟩, .add 0, .advance 0, .read, .read, .read, .pick 1, .pick 2, .pick 3]

theorem buffers_conserved_echo : ∃ s, (machine echoConfig).Reach Flagged s ∧
    (s.ring.window echoConfig.mask).map Buf.bid = [1] ∧ s.reads = [.rejoined, .handed 0] ∧
      Conserved echoConfig s := by
  have hrun : ∃ s, ((machine echoConfig).restrict Flagged).run echoStart echoRun = some s ∧
      (s.ring.window echoConfig.mask).map Buf.bid = [1] ∧ s.reads = [.rejoined, .handed 0] := by
    exact ⟨_, rfl, by decide, rfl⟩
  obtain ⟨s, hs, hwindow, hreads⟩ := hrun
  have hreach := Machine.Reach.restrict (.start rfl) hs
  exact ⟨s, hreach, hwindow, hreads, (buffers_conserved echoConfig s hreach).1⟩

/-- Buffer 0 is in the ring twice, which holds three entries for two buffers; then two
reads have it. -/
theorem empty_read_repeats : ∃ s s', (machine echoConfig).run echoStart (emptyReadRun.take 4) = some s ∧
    (s.ring.window echoConfig.mask).map Buf.bid = [0, 1, 0] ∧
      (machine echoConfig).run s (emptyReadRun.drop 4) = some s' ∧
        s'.reads = [.rejoined, .picked 0, .picked 1, .picked 0] ∧
          ¬Conserved echoConfig s ∧ ¬Conserved echoConfig s' := by
  refine ⟨_, _, rfl, by decide, rfl, rfl, fun h => ?_, fun h => ?_⟩
  · exact absurd h.room (by decide)
  · exact absurd (h.owner 1 3 _ _ 0 rfl rfl rfl rfl) (by decide)

end Echo

end IoUring.Coroutine.ProvidedBuffers
