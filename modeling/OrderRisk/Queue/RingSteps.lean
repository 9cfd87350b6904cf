import OrderRisk.Queue.RingInvariant

/-!
# The ring's invariant is kept

One lemma for each kind of step of `try_push` and `try_pop`.  `RingInv.step` puts them together,
and `ringInv_of_reachable` is the run: it holds while there are fewer than `2 ^ 63` claims of
`tail_`.
-/

namespace OrderRisk.Queue

open OrderRisk.Lib

section

variable {ι T : Type*} [Inhabited T] {c c' : Core ι T} {pc : ι → RingPc T} {t u : ι} {x : T}
  {p q pos : ℕ}

variable [DecidableEq ι]

theorem pcOk_update {k : RingPc T} (h : ∀ u, PcOk c u (pc u)) (hk : ∀ u ≠ t, Keeps u c c')
    (ht : PcOk c' t k) (u : ι) : PcOk c' u (Function.update pc t k u) := by
  by_cases hu : u = t
  · subst hu
    simpa using ht
  · rw [Function.update_of_ne hu]
    exact (h u).keeps (hk u hu)

/-! ### The steps of `try_push` -/

namespace RingInv

theorem tailOwner_update (h : RingInv c pc) (ht : (pc t).ownsTail = false) (k : RingPc T) :
    ∀ (p : ℕ) u x, c.tailClaims[p]? = some ⟨u, x, false⟩ →
      Function.update pc t k u = .push x (.move p) ∨
        Function.update pc t k u = .push x (.publish p) := by
  intro p u x hp
  have hu : u ≠ t := by
    rintro rfl
    rcases h.tailOwner p u x hp with he | he <;> simp [he, RingPc.ownsTail] at ht
  rw [Function.update_of_ne hu]
  exact h.tailOwner p u x hp

theorem headOwner_update (h : RingInv c pc) (ht : (pc t).ownsHead = false) (k : RingPc T) :
    ∀ (p : ℕ) u o, c.headClaims[p]? = some ⟨u, o, false⟩ →
      Function.update pc t k u = .pop (.move p) ∨
        (∃ v, Function.update pc t k u = .pop (.clear p v)) ∨
        ∃ v, Function.update pc t k u = .pop (.publish p v) := by
  intro p u o hp
  have hu : u ≠ t := by
    rintro rfl
    rcases h.headOwner p u o hp with he | ⟨v, he⟩ | ⟨v, he⟩ <;> simp [he, RingPc.ownsHead] at ht
  rw [Function.update_of_ne hu]
  exact h.headOwner p u o hp

theorem read (h : RingInv c pc) {k : RingPc T} (ht : (pc t).ownsTail = false)
    (hh : (pc t).ownsHead = false) (hk : PcOk c t k) : RingInv c (Function.update pc t k) :=
  { h with
    pcOk := pcOk_update h.pcOk (fun u _ => .refl u c) hk
    tailOwner := h.tailOwner_update ht k
    headOwner := h.headOwner_update hh k }

theorem getElem?_append_claim {α : Type*} {l : List α} {a b : α} {p : ℕ}
    (h : (l ++ [a])[p]? = some b) : l[p]? = some b ∨ p = l.length ∧ b = a := by
  rcases Nat.lt_trichotomy p l.length with hp | rfl | hp
  · rw [List.getElem?_append_left hp] at h
    exact .inl h
  · simp at h
    exact .inr ⟨rfl, h.symm⟩
  · rw [List.getElem?_eq_none (by simp; omega)] at h
    cases h

theorem getElem?_append_of_some {α : Type*} {l : List α} {a b : α} {p : ℕ} (h : l[p]? = some b) :
    (l ++ [a])[p]? = some b := by
  rw [List.getElem?_append_left (List.getElem?_eq_some_iff.mp h).1, h]

/-- The CAS of `try_push` succeeds. -/
theorem claimTail (h : RingInv c pc) (hb : (c.claimTail t x pos).tailClaims.length < 2 ^ 63)
    (ht : pc t = .push x (.cas pos)) (hpos : c.ring.tail = pos) :
    RingInv (c.claimTail t x pos) (Function.update pc t (.push x (.move pos))) := by
  have hlen : c.tailClaims.length = pos := h.tail_eq.symm.trans hpos
  have hlen' : (c.claimTail t x pos).tailClaims.length = pos + 1 := by simp [Core.claimTail, hlen]
  have hcas : pos < c.ring.capacity ∨ c.released (pos - c.ring.capacity) = true := by
    have := h.pcOk t
    rwa [ht] at this
  have hnf : c.filled pos = false := by simp [Core.filled, hlen]
  have hnh : c.headClaims.length ≤ pos := hlen ▸ h.head_le
  have hnr : c.released pos = false := by simp [Core.released, hnh]
  have hcap := h.two_le_capacity
  refine ⟨h.pow, ?_, h.head_eq, ?_, ?_, ?_, ?_, ?_, ?_, h.gone, ?_, ?_, ?_, ?_⟩
  · show word (pos + 1) = _
    rw [word_of_lt (by omega), hlen']
  · intro p hp
    rw [hlen'] at hp
    change p + c.ring.capacity < pos + 1 at hp
    rw [Core.released_claimTail]
    rcases Nat.lt_succ_iff_lt_or_eq.mp hp with hp | hp
    · exact h.reuse p (by omega)
    · exact (by omega : pos - c.ring.capacity = p) ▸ hcas.resolve_left (by omega)
  · intro p hp
    rw [Core.filled_claimTail]
    exact h.ready p hp
  · intro p hp
    rw [Core.InLap, hlen'] at hp
    change _ ∧ pos + 1 ≤ p + c.ring.capacity at hp
    show (c.ring.cell p).seq = _
    have hs : (c.claimTail t x pos).seqOf p = c.seqOf p := by
      simp only [Core.seqOf, Core.released_claimTail, Core.filled_claimTail]
      rfl
    rw [hs]
    rcases Nat.lt_succ_iff_lt_or_eq.mp hp.1 with hp1 | rfl
    · exact h.seq p ⟨by omega, by omega⟩
    · -- the cell claimed now: fresh, or released a lap ago
      rw [Core.seqOf, hnr, hnf]
      by_cases hlt : p < c.ring.capacity
      · rw [h.fresh p hlen.le hlt]
        rfl
      · have hc := LockFreeRing.cell_add_capacity (p := p - c.ring.capacity) h.pow'
        rw [Nat.sub_add_cancel (by omega)] at hc
        rw [hc, h.seq (p - c.ring.capacity) ⟨by omega, by omega⟩, Core.seqOf,
          hcas.resolve_left hlt]
        simp
        omega
  · intro p hp hp'
    rw [hlen'] at hp
    exact h.fresh p (by omega) hp'
  · intro p k hp hk
    rcases getElem?_append_claim hp with hp | ⟨-, rfl⟩
    · exact h.data p k hp hk
    · cases hk
  · intro p k v hp hv
    have := h.taken p k v hp hv
    obtain ⟨a, ha, hv⟩ := Option.map_eq_some_iff.mp this
    exact Option.map_eq_some_iff.mpr ⟨a, getElem?_append_of_some ha, hv⟩
  · intro p hp hr
    rw [Core.InLap, hlen'] at hp
    change _ ∧ pos + 1 ≤ p + c.ring.capacity at hp
    rw [Core.released_claimTail] at hr
    have := Core.released_lt hr
    exact h.vacant p ⟨by omega, by omega⟩ hr
  · refine pcOk_update h.pcOk (fun u _ => ⟨rfl, by omega, le_rfl, fun p hp => by simpa using hp,
      fun _ => id, fun p x hp => getElem?_append_of_some hp, fun _ _ => id, fun _ _ _ => rfl,
      fun _ _ _ => rfl⟩) ?_
    simp [PcOk, Core.claimTail, hlen]
  · intro p u y hp
    rcases getElem?_append_claim hp with hp | ⟨rfl, he⟩
    · exact h.tailOwner_update (by simp [ht, RingPc.ownsTail]) _ p u y hp
    · cases he
      left
      simp [hlen]
  · exact h.headOwner_update (by simp [ht, RingPc.ownsHead]) _

omit [Inhabited T] [DecidableEq ι] in
theorem tailClaim_ne (hclaim : c.tailClaims[pos]? = some ⟨t, x, false⟩) (hu : u ≠ t) {y : T}
    (hp : c.tailClaims[p]? = some ⟨u, y, false⟩) : p ≠ pos := by
  rintro rfl
  rw [hclaim] at hp
  cases hp
  exact hu rfl

omit [Inhabited T] [DecidableEq ι] in
theorem headClaim_ne {o o' : Option T} (hclaim : c.headClaims[pos]? = some ⟨t, o, false⟩)
    (hu : u ≠ t) (hp : c.headClaims[p]? = some ⟨u, o', false⟩) : p ≠ pos := by
  rintro rfl
  rw [hclaim] at hp
  cases hp
  exact hu rfl

omit [DecidableEq ι] in
theorem tailClaim_ne_headClaim (h : RingInv c pc) {o : Option T}
    (hp : c.tailClaims[p]? = some ⟨t, x, false⟩) (hq : c.headClaims[q]? = some ⟨u, o, false⟩) :
    p ≠ q := by
  rintro rfl
  have hnf := (h.tailClaim hp).2.1
  rw [(h.headClaim hq).2.1] at hnf
  cases hnf

omit [DecidableEq ι] in
/-- **A thread that writes to the cell of its own claim leaves the cells of the others' claims.** -/
theorem cell_of_others (h : RingInv c pc)
    (hcell : ∀ q, c.InLap q → q ≠ pos → c'.ring.cell q = c.ring.cell q)
    (hown : (∃ x, c.tailClaims[pos]? = some ⟨t, x, false⟩) ∨
      ∃ o, c.headClaims[pos]? = some ⟨t, o, false⟩) (hu : u ≠ t) :
    (∀ (p : ℕ) y, c.tailClaims[p]? = some ⟨u, y, false⟩ →
      (c'.ring.cell p).data = (c.ring.cell p).data) ∧
    ∀ (p : ℕ) o, c.headClaims[p]? = some ⟨u, o, false⟩ →
      (c'.ring.cell p).data = (c.ring.cell p).data := by
  constructor
  · intro p y hp
    rw [hcell p (h.tailClaim hp).1]
    rcases hown with ⟨x, hx⟩ | ⟨o, ho⟩
    · exact tailClaim_ne hx hu hp
    · exact h.tailClaim_ne_headClaim hp ho
  · intro p o hp
    rw [hcell p (h.headClaim hp).1]
    rcases hown with ⟨x, hx⟩ | ⟨o', ho⟩
    · exact (h.tailClaim_ne_headClaim hx hp).symm
    · exact headClaim_ne ho hu hp

/-- `cell.data = std::move(item)`. -/
theorem fill (h : RingInv c pc) (ht : pc t = .push x (.move pos)) :
    RingInv (c.setData pos x) (Function.update pc t (.push x (.publish pos))) := by
  have hclaim : c.tailClaims[pos]? = some ⟨t, x, false⟩ := by
    have := h.pcOk t
    rwa [ht] at this
  obtain ⟨hlap, hnf, hnr, hle⟩ := h.tailClaim hclaim
  have hcell : ∀ q, c.InLap q → q ≠ pos → (c.setData pos x).ring.cell q = c.ring.cell q :=
    fun q hq hne => LockFreeRing.cell_setCell_of_ne (h.index_ne hq hlap hne)
  refine ⟨h.pow, h.tail_eq, h.head_eq, h.reuse, h.ready, ?_, ?_, ?_, h.taken, h.gone, ?_, ?_, ?_, ?_⟩
  · intro p hp
    rw [show (c.setData pos x).seqOf p = c.seqOf p from rfl, ← h.seq p hp]
    by_cases hpp : p = pos
    · subst hpp
      simp [Core.setData]
    · rw [hcell p hp hpp]
  · intro p hp hp'
    rw [← h.fresh p hp hp']
    exact LockFreeRing.cell_setCell_of_ne (h.index_ne_fresh hlap hp hp')
  · intro p k hp hk hout
    have hf : c.filled p = true := by simp [Core.filled, show c.tailClaims[p]? = some k from hp, hk]
    rw [hcell p (h.inLap (List.getElem?_eq_some_iff.mp hp).1 (h.not_released hout)) (by
      rintro rfl
      simp [hf] at hnf)]
    exact h.data p k hp hk hout
  · intro p hp hr
    rw [hcell p hp (by
      rintro rfl
      rw [Core.released_setData, hnr] at hr
      cases hr)]
    exact h.vacant p hp hr
  · refine pcOk_update h.pcOk (fun u hu => ⟨rfl, le_rfl, le_rfl, fun _ => id, fun _ => id,
      fun _ _ => id, fun _ _ => id, ?_, ?_⟩) ⟨hclaim, by simp [Core.setData]⟩
    · exact (h.cell_of_others hcell (.inl ⟨x, hclaim⟩) hu).1
    · exact (h.cell_of_others hcell (.inl ⟨x, hclaim⟩) hu).2
  · intro p u y hp
    by_cases hu : u = t
    · subst hu
      have := h.tailOwner p u y hp
      simp only [ht, RingPc.push.injEq, PushPc.move.injEq, reduceCtorEq, and_false, or_false] at this
      obtain ⟨rfl, rfl⟩ := this
      simp
    · rw [Function.update_of_ne hu]
      exact h.tailOwner p u y hp
  · exact h.headOwner_update (by simp [ht, RingPc.ownsHead]) _

theorem getElem?_modify_claim {α : Type*} {f : α → α} {l : List α} {b : α} {p q : ℕ}
    (h : (l.modify q f)[p]? = some b) (hf : ∀ a, f a ≠ b) : p ≠ q ∧ l[p]? = some b := by
  rw [List.getElem?_modify] at h
  by_cases hq : q = p
  · obtain ⟨a, -, ha⟩ := Option.map_eq_some_iff.mp h
    simp only [hq, if_true] at ha
    exact absurd ha (hf a)
  · simp only [hq, if_false] at h
    exact ⟨fun e => hq e.symm, by simpa using h⟩

/-- `cell.seq.store(pos + 1)`, and `try_push` returns true. -/
theorem publish (h : RingInv c pc) (hb : c.tailClaims.length < 2 ^ 63)
    (ht : pc t = .push x (.publish pos)) {k : RingPc T} (hk : k = .idle) :
    RingInv (c.publish pos x) (Function.update pc t k) := by
  subst hk
  obtain ⟨hclaim, hdata⟩ : c.tailClaims[pos]? = some ⟨t, x, false⟩ ∧ (c.ring.cell pos).data = x := by
    have := h.pcOk t
    rwa [ht] at this
  obtain ⟨hlap, hnf, hnr, hle⟩ := h.tailClaim hclaim
  have hcell : ∀ q, c.InLap q → q ≠ pos → (c.publish pos x).ring.cell q = c.ring.cell q :=
    fun q hq hne => LockFreeRing.cell_setCell_of_ne (h.index_ne hq hlap hne)
  have hself : (c.publish pos x).ring.cell pos = ⟨pos + 1, x⟩ := by
    have := hlap.1
    simp only [Core.publish, Core.setSeq, LockFreeRing.cell_setCell_self, hdata]
    rw [word_of_lt (by omega)]
  have hlen : (c.publish pos x).tailClaims.length = c.tailClaims.length := by simp [Core.publish]
  have hlap' : ∀ q, (c.publish pos x).InLap q ↔ c.InLap q := fun q => by
    rw [Core.InLap, Core.InLap, hlen]
    rfl
  have hfill : ∀ q, q ≠ pos → (c.publish pos x).filled q = c.filled q := fun q hq => by
    rw [Bool.eq_iff_iff, Core.filled_publish]
    simp [hq]
  have hkeep : ∀ (p : ℕ) (k : TailClaim ι T), p ≠ pos → c.tailClaims[p]? = some k →
      (c.publish pos x).tailClaims[p]? = some k := fun p k hp hk =>
    (List.getElem?_modify_ne _ _ (Ne.symm hp)).trans hk
  refine ⟨h.pow, ?_, h.head_eq, ?_, ?_, ?_, ?_, ?_, ?_, h.gone, ?_, ?_, ?_, ?_⟩
  · rw [hlen]
    exact h.tail_eq
  · intro p hp
    rw [hlen] at hp
    exact h.reuse p hp
  · intro p hp
    exact Core.filled_publish.mpr (.inl (h.ready p hp))
  · intro p hp
    rw [hlap'] at hp
    by_cases hpp : p = pos
    · subst hpp
      rw [hself, Core.seqOf, Core.released_publish, hnr, Core.filled_publish.mpr (.inr ⟨rfl, hp.1⟩)]
      rfl
    · rw [hcell p hp hpp, h.seq p hp, Core.seqOf, Core.seqOf, Core.released_publish, hfill p hpp]
      rfl
  · intro p hp hp'
    rw [hlen] at hp
    rw [← h.fresh p hp hp']
    exact LockFreeRing.cell_setCell_of_ne (h.index_ne_fresh hlap hp hp')
  · intro p k hp hk hout
    by_cases hpp : p = pos
    · subst hpp
      rw [hself]
      simp only [Core.publish, List.getElem?_modify_eq, hclaim, Option.map_eq_map, Option.map_some,
        Option.some.injEq] at hp
      rw [← hp]
    · have hp' : c.tailClaims[p]? = some k :=
        (List.getElem?_modify_ne _ _ (Ne.symm hpp)).symm.trans hp
      rw [hcell p (h.inLap (List.getElem?_eq_some_iff.mp hp').1 (h.not_released hout)) hpp]
      exact h.data p k hp' hk hout
  · intro p k v hp hv
    have := h.taken p k v hp hv
    have hlt : p ≠ pos := by
      have := (List.getElem?_eq_some_iff.mp hp).1
      have hl : (c.publish pos x).headClaims.length = c.headClaims.length := rfl
      omega
    obtain ⟨a, ha, hv⟩ := Option.map_eq_some_iff.mp this
    exact Option.map_eq_some_iff.mpr ⟨a, hkeep p a hlt ha, hv⟩
  · intro p hp hr
    rw [hlap'] at hp
    rw [hcell p hp (by
      rintro rfl
      rw [Core.released_publish, hnr] at hr
      cases hr)]
    exact h.vacant p hp hr
  · refine pcOk_update h.pcOk (fun u hu => ⟨rfl, hlen.ge, le_rfl,
      fun p hp => Core.filled_publish.mpr (.inl hp), fun _ => id, ?_, fun _ _ => id, ?_, ?_⟩) trivial
    · intro p y hp
      exact hkeep p _ (tailClaim_ne hclaim hu hp) hp
    · exact (h.cell_of_others hcell (.inl ⟨x, hclaim⟩) hu).1
    · exact (h.cell_of_others hcell (.inl ⟨x, hclaim⟩) hu).2
  · intro p u y hp
    obtain ⟨hpp, hp⟩ := getElem?_modify_claim hp (by simp)
    have hu : u ≠ t := by
      rintro rfl
      have := h.tailOwner p u y hp
      simp only [ht, RingPc.push.injEq, PushPc.publish.injEq, reduceCtorEq, and_false,
        false_or] at this
      exact hpp this.2.symm
    rw [Function.update_of_ne hu]
    exact h.tailOwner p u y hp
  · exact h.headOwner_update (by simp [ht, RingPc.ownsHead]) _

/-! ### The steps of `try_pop` -/

/-- The CAS of `try_pop` succeeds. -/
theorem claimHead (h : RingInv c pc) (hb : c.tailClaims.length < 2 ^ 63)
    (ht : pc t = .pop (.cas pos)) (hpos : c.ring.head = pos) :
    RingInv (c.claimHead t pos) (Function.update pc t (.pop (.move pos))) := by
  have hlen : c.headClaims.length = pos := h.head_eq.symm.trans hpos
  have hlen' : (c.claimHead t pos).headClaims.length = pos + 1 := by simp [Core.claimHead, hlen]
  have hf : c.filled pos = true := by
    have := h.pcOk t
    rwa [ht] at this
  have hlt := Core.filled_lt hf
  refine ⟨h.pow, h.tail_eq, ?_, ?_, ?_, ?_, h.fresh, ?_, ?_, ?_, ?_, ?_, ?_, ?_⟩
  · show word (pos + 1) = _
    rw [word_of_lt (by omega), hlen']
  · intro p hp
    rw [Core.released_claimHead]
    exact h.reuse p hp
  · intro p hp
    rw [hlen'] at hp
    rcases Nat.lt_succ_iff_lt_or_eq.mp hp with hp | rfl
    · exact h.ready p (by omega)
    · exact hf
  · intro p hp
    have hs : (c.claimHead t pos).seqOf p = c.seqOf p := by
      simp only [Core.seqOf, Core.released_claimHead, Core.filled_claimHead]
      rfl
    rw [hs]
    exact h.seq p hp
  · intro p k hp hk hout
    refine h.data p k hp hk fun k' hk' => hout k' (getElem?_append_of_some hk')
  · intro p k v hp hv
    rcases getElem?_append_claim hp with hp | ⟨-, rfl⟩
    · exact h.taken p k v hp hv
    · cases hv
  · intro p k hp hk
    rcases getElem?_append_claim hp with hp | ⟨-, rfl⟩
    · exact h.gone p k hp hk
    · cases hk
  · intro p hp hr
    rw [Core.released_claimHead] at hr
    exact h.vacant p hp hr
  · refine pcOk_update h.pcOk (fun u _ => ⟨rfl, le_rfl, by omega, fun _ => id,
      fun p hp => by simpa using hp, fun _ _ => id, fun p o hp => getElem?_append_of_some hp,
      fun _ _ _ => rfl, fun _ _ _ => rfl⟩) ?_
    simp [PcOk, Core.claimHead, hlen]
  · exact h.tailOwner_update (by simp [ht, RingPc.ownsTail]) _
  · intro p u o hp
    rcases getElem?_append_claim hp with hp | ⟨rfl, he⟩
    · exact h.headOwner_update (by simp [ht, RingPc.ownsHead]) _ p u o hp
    · cases he
      left
      simp [hlen]

theorem headOwner_next (h : RingInv c pc) (ht : (pc t).headPos = some pos)
    {k : RingPc T} (hk : ∃ v, k = .pop (.clear pos v) ∨ k = .pop (.publish pos v)) :
    ∀ (p : ℕ) u o, c.headClaims[p]? = some ⟨u, o, false⟩ →
      Function.update pc t k u = .pop (.move p) ∨
        (∃ v, Function.update pc t k u = .pop (.clear p v)) ∨
        ∃ v, Function.update pc t k u = .pop (.publish p v) := by
  intro p u o hp
  by_cases hu : u = t
  · subst hu
    have hpp : p = pos := by
      rcases h.headOwner p u o hp with he | ⟨v, he⟩ | ⟨v, he⟩ <;>
        simpa [he, RingPc.headPos] using ht
    subst hpp
    obtain ⟨v, rfl | rfl⟩ := hk
    · exact .inr (.inl ⟨v, Function.update_self ..⟩)
    · exact .inr (.inr ⟨v, Function.update_self ..⟩)
  · rw [Function.update_of_ne hu]
    exact h.headOwner p u o hp

/-- `out = std::move(cell.data)`. -/
theorem take (h : RingInv c pc) {residue : T} (ht : pc t = .pop (.move pos)) :
    RingInv (c.take pos residue)
      (Function.update pc t (.pop (.clear pos (c.ring.cell pos).data))) := by
  have hclaim : c.headClaims[pos]? = some ⟨t, none, false⟩ := by
    have := h.pcOk t
    rwa [ht] at this
  obtain ⟨hlap, hf, hnr⟩ := h.headClaim hclaim
  have hcell : ∀ q, c.InLap q → q ≠ pos → (c.take pos residue).ring.cell q = c.ring.cell q :=
    fun q hq hne => LockFreeRing.cell_setCell_of_ne (h.index_ne hq hlap hne)
  have hlen : (c.take pos residue).headClaims.length = c.headClaims.length := by simp [Core.take]
  -- the item that was put in
  obtain ⟨a, ha, har⟩ := (Option.any_eq_true _ _).mp hf
  have hitem : (c.ring.cell pos).data = a.item :=
    h.data pos a ha har fun k' hk' => by
      rw [hclaim] at hk'
      cases hk'
      rfl
  have hself : (c.take pos residue).headClaims[pos]? =
      some ⟨t, some (c.ring.cell pos).data, false⟩ := by
    simp [Core.take, hclaim]
  have hother : ∀ (p : ℕ), p ≠ pos → (c.take pos residue).headClaims[p]? = c.headClaims[p]? :=
    fun p hp => List.getElem?_modify_ne _ _ (Ne.symm hp)
  refine ⟨h.pow, h.tail_eq, ?_, ?_, ?_, ?_, ?_, ?_, ?_, ?_, ?_, ?_, ?_, ?_⟩
  · rw [hlen]
    exact h.head_eq
  · intro p hp
    rw [Core.released_take]
    exact h.reuse p hp
  · intro p hp
    rw [hlen] at hp
    exact h.ready p hp
  · intro p hp
    have hs : (c.take pos residue).seqOf p = c.seqOf p := by
      simp only [Core.seqOf, Core.released_take, Core.filled_take]
      rfl
    rw [hs, ← h.seq p hp]
    by_cases hpp : p = pos
    · subst hpp
      simp [Core.take, Core.setData]
    · rw [hcell p hp hpp]
  · intro p hp hp'
    rw [← h.fresh p hp hp']
    exact LockFreeRing.cell_setCell_of_ne (h.index_ne_fresh hlap hp hp')
  · intro p k hp hk hout
    have hpp : p ≠ pos := by
      rintro rfl
      have := hout _ hself
      cases this
    have hout' : ∀ k' : HeadClaim ι T, c.headClaims[p]? = some k' → k'.out = none :=
      fun k' hk' => hout k' ((hother p hpp).trans hk')
    rw [hcell p (h.inLap (List.getElem?_eq_some_iff.mp hp).1 (h.not_released hout')) hpp]
    exact h.data p k hp hk hout'
  · intro p k v hp hv
    by_cases hpp : p = pos
    · subst hpp
      rw [hself] at hp
      cases hp
      cases hv
      show (c.tailClaims[p]?).map TailClaim.item = _
      rw [ha, Option.map_some, hitem]
    · rw [hother p hpp] at hp
      exact h.taken p k v hp hv
  · intro p k hp hk
    by_cases hpp : p = pos
    · subst hpp
      rw [hself] at hp
      cases hp
      cases hk
    · rw [hother p hpp] at hp
      exact h.gone p k hp hk
  · intro p hp hr
    rw [Core.released_take] at hr
    rw [hcell p hp (by
      rintro rfl
      rw [hnr] at hr
      cases hr)]
    exact h.vacant p hp hr
  · refine pcOk_update h.pcOk (fun u hu => ⟨rfl, le_rfl, hlen.ge, fun _ => id,
      fun p hp => by simpa using hp, fun _ _ => id, ?_, ?_, ?_⟩) hself
    · intro p o hp
      rw [hother p (headClaim_ne hclaim hu hp)]
      exact hp
    · exact (h.cell_of_others hcell (.inr ⟨_, hclaim⟩) hu).1
    · exact (h.cell_of_others hcell (.inr ⟨_, hclaim⟩) hu).2
  · exact h.tailOwner_update (by simp [ht, RingPc.ownsTail]) _
  · intro p u o hp
    by_cases hpp : p = pos
    · subst hpp
      rw [hself] at hp
      cases hp
      exact .inr (.inl ⟨_, Function.update_self ..⟩)
    · rw [hother p hpp] at hp
      exact h.headOwner_next (by simp [ht, RingPc.headPos]) ⟨_, .inl rfl⟩ p u o hp

/-- `cell.data = T{}`. -/
theorem clear (h : RingInv c pc) {v : T} (ht : pc t = .pop (.clear pos v)) :
    RingInv (c.setData pos default) (Function.update pc t (.pop (.publish pos v))) := by
  have hclaim : c.headClaims[pos]? = some ⟨t, some v, false⟩ := by
    have := h.pcOk t
    rwa [ht] at this
  obtain ⟨hlap, hf, hnr⟩ := h.headClaim hclaim
  have hcell : ∀ q, c.InLap q → q ≠ pos → (c.setData pos default).ring.cell q = c.ring.cell q :=
    fun q hq hne => LockFreeRing.cell_setCell_of_ne (h.index_ne hq hlap hne)
  refine ⟨h.pow, h.tail_eq, h.head_eq, h.reuse, h.ready, ?_, ?_, ?_, h.taken, h.gone, ?_, ?_, ?_, ?_⟩
  · intro p hp
    rw [show (c.setData pos default).seqOf p = c.seqOf p from rfl, ← h.seq p hp]
    by_cases hpp : p = pos
    · subst hpp
      simp [Core.setData]
    · rw [hcell p hp hpp]
  · intro p hp hp'
    rw [← h.fresh p hp hp']
    exact LockFreeRing.cell_setCell_of_ne (h.index_ne_fresh hlap hp hp')
  · intro p k hp hk hout
    rw [hcell p (h.inLap (List.getElem?_eq_some_iff.mp hp).1 (h.not_released hout)) (by
      rintro rfl
      have := hout _ hclaim
      cases this)]
    exact h.data p k hp hk hout
  · intro p hp hr
    rw [hcell p hp (by
      rintro rfl
      rw [Core.released_setData, hnr] at hr
      cases hr)]
    exact h.vacant p hp hr
  · refine pcOk_update h.pcOk (fun u hu => ⟨rfl, le_rfl, le_rfl, fun _ => id, fun _ => id,
      fun _ _ => id, fun _ _ => id, ?_, ?_⟩) ⟨hclaim, by simp [Core.setData]⟩
    · exact (h.cell_of_others hcell (.inr ⟨_, hclaim⟩) hu).1
    · exact (h.cell_of_others hcell (.inr ⟨_, hclaim⟩) hu).2
  · exact h.tailOwner_update (by simp [ht, RingPc.ownsTail]) _
  · exact h.headOwner_next (by simp [ht, RingPc.headPos]) ⟨v, .inr rfl⟩

/-- `cell.seq.store(pos + mask_ + 1)`, and `try_pop` returns true. -/
theorem release (h : RingInv c pc) (hb : c.tailClaims.length < 2 ^ 63) {v : T}
    (ht : pc t = .pop (.publish pos v)) {k : RingPc T} (hk : k = .idle) :
    RingInv (c.release pos v) (Function.update pc t k) := by
  subst hk
  obtain ⟨hclaim, hdata⟩ :
      c.headClaims[pos]? = some ⟨t, some v, false⟩ ∧ (c.ring.cell pos).data = default := by
    have := h.pcOk t
    rwa [ht] at this
  obtain ⟨hlap, hf, hnr⟩ := h.headClaim hclaim
  have hpos := (List.getElem?_eq_some_iff.mp hclaim).1
  have hcell : ∀ q, c.InLap q → q ≠ pos → (c.release pos v).ring.cell q = c.ring.cell q :=
    fun q hq hne => LockFreeRing.cell_setCell_of_ne (h.index_ne hq hlap hne)
  have hself : (c.release pos v).ring.cell pos = ⟨pos + c.ring.capacity, default⟩ := by
    have h1 := hlap.1
    have h2 := h.capacity_le
    simp only [Core.release, Core.setSeq, LockFreeRing.cell_setCell_self, hdata]
    rw [show pos + c.ring.mask + 1 = pos + c.ring.capacity from rfl, word_of_lt (by omega)]
  have hlen : (c.release pos v).headClaims.length = c.headClaims.length := by simp [Core.release]
  have hother : ∀ (p : ℕ), p ≠ pos → (c.release pos v).headClaims[p]? = c.headClaims[p]? :=
    fun p hp => List.getElem?_modify_ne _ _ (Ne.symm hp)
  have hrel : ∀ q, q ≠ pos → (c.release pos v).released q = c.released q := fun q hq => by
    rw [Core.released, hother q hq]
    rfl
  have hout : ∀ (p : ℕ) (k : HeadClaim ι T), (c.release pos v).headClaims[p]? = some k →
      ∃ k' : HeadClaim ι T, c.headClaims[p]? = some k' ∧ k'.out = k.out := by
    intro p k hp
    by_cases hpp : p = pos
    · subst hpp
      simp only [Core.release, List.getElem?_modify_eq, hclaim, Option.map_eq_map, Option.map_some,
        Option.some.injEq] at hp
      exact ⟨_, hclaim, by rw [← hp]⟩
    · exact ⟨k, (hother p hpp).symm.trans hp, rfl⟩
  refine ⟨h.pow, h.tail_eq, ?_, ?_, ?_, ?_, ?_, ?_, ?_, ?_, ?_, ?_, ?_, ?_⟩
  · rw [hlen]
    exact h.head_eq
  · intro p hp
    exact Core.released_release.mpr (.inl (h.reuse p hp))
  · intro p hp
    rw [hlen] at hp
    exact h.ready p hp
  · intro p hp
    by_cases hpp : p = pos
    · subst hpp
      rw [hself, Core.seqOf, Core.released_release.mpr (.inr ⟨rfl, hpos⟩)]
      rfl
    · rw [hcell p hp hpp, h.seq p hp, Core.seqOf, Core.seqOf, hrel p hpp]
      rfl
  · intro p hp hp'
    rw [← h.fresh p hp hp']
    exact LockFreeRing.cell_setCell_of_ne (h.index_ne_fresh hlap hp hp')
  · intro p k hp hk ho
    have hpp : p ≠ pos := by
      rintro rfl
      have := ho ⟨t, some v, true⟩ (by simp [Core.release, hclaim])
      cases this
    have ho' : ∀ k' : HeadClaim ι T, c.headClaims[p]? = some k' → k'.out = none :=
      fun k' hk' => ho k' ((hother p hpp).trans hk')
    rw [hcell p (h.inLap (List.getElem?_eq_some_iff.mp hp).1 (h.not_released ho')) hpp]
    exact h.data p k hp hk ho'
  · intro p k w hp hw
    obtain ⟨k', hk', he⟩ := hout p k hp
    exact h.taken p k' w hk' (he.trans hw)
  · intro p k hp hk
    by_cases hpp : p = pos
    · subst hpp
      obtain ⟨k', hk', he⟩ := hout p k hp
      rw [hclaim] at hk'
      cases hk'
      rw [← he]
      rfl
    · rw [hother p hpp] at hp
      exact h.gone p k hp hk
  · intro p hp hr
    by_cases hpp : p = pos
    · subst hpp
      rw [hself]
    · rw [hcell p hp hpp]
      exact h.vacant p hp (by rwa [hrel p hpp] at hr)
  · refine pcOk_update h.pcOk (fun u hu => ⟨rfl, le_rfl, hlen.ge, fun _ => id,
      fun p hp => Core.released_release.mpr (.inl hp), fun _ _ => id, ?_, ?_, ?_⟩) trivial
    · intro p o hp
      rw [hother p (headClaim_ne hclaim hu hp)]
      exact hp
    · exact (h.cell_of_others hcell (.inr ⟨_, hclaim⟩) hu).1
    · exact (h.cell_of_others hcell (.inr ⟨_, hclaim⟩) hu).2
  · exact h.tailOwner_update (by simp [ht, RingPc.ownsTail]) _
  · intro p u o hp
    obtain ⟨hpp, hp⟩ := getElem?_modify_claim hp (by simp)
    have hu : u ≠ t := by
      rintro rfl
      rcases h.headOwner p u o hp with he | ⟨w, he⟩ | ⟨w, he⟩
      · simp [ht] at he
      · simp [ht] at he
      · simp only [ht, RingPc.pop.injEq, PopPc.publish.injEq] at he
        exact hpp he.1.symm
    rw [Function.update_of_ne hu]
    exact h.headOwner p u o hp

/-! ### One step, and a run -/

/-- **One step of one thread keeps the ring's invariant.** -/
theorem step (h : RingInv c pc) {spurious : Bool} {residue : T} {k : RingPc T}
    (hb : c'.tailClaims.length < 2 ^ 63)
    (hs : ringStep t spurious residue c (pc t) = some (c', k)) :
    RingInv c' (Function.update pc t k) := by
  have hpc := h.pcOk t
  obtain hp | ⟨x, _ | pos | pos | pos | pos, hp⟩ | ⟨_ | pos | pos | pos | ⟨pos, v⟩ | ⟨pos, v⟩, hp⟩ :
      pc t = .idle ∨ (∃ x p, pc t = .push x p) ∨ ∃ p, pc t = .pop p := by
    cases pc t <;> simp
  all_goals
    rw [hp] at hs hpc
    simp only [ringStep, pushStep, popStep, Option.some.injEq, Prod.mk.injEq, reduceCtorEq] at hs
    try obtain ⟨rfl, rfl⟩ := hs
  · exact h.read (by rw [hp]; rfl) (by rw [hp]; rfl) h.tail_eq.le
  · refine h.read (by rw [hp]; rfl) (by rw [hp]; rfl) ?_
    split_ifs with h0 h1
    · exact h.free_of_diff hb hpc h0
    · trivial
    · trivial
  · split_ifs at hb ⊢ with h0
    · exact h.claimTail hb hp h0.1
    · exact h.read (by rw [hp]; rfl) (by rw [hp]; rfl) h.tail_eq.le
  · exact h.fill hp
  · exact h.publish (by simpa [Core.publish] using hb) hp rfl
  · exact h.read (by rw [hp]; rfl) (by rw [hp]; rfl) h.head_eq.le
  · refine h.read (by rw [hp]; rfl) (by rw [hp]; rfl) ?_
    split_ifs with h0 h1
    · exact h.filled_of_diff hb hpc h0
    · trivial
    · trivial
  · split_ifs at hb ⊢ with h0
    · exact h.claimHead hb hp h0.1
    · exact h.read (by rw [hp]; rfl) (by rw [hp]; rfl) h.head_eq.le
  · exact h.take hp
  · exact h.clear hp
  · exact h.release hb hp rfl

end RingInv

end

/-! ### Runs -/

section

variable {ι T : Type*} [Inhabited T] {m : ℕ} {s s' : RingState ι T}

theorem ringStep_mono {t : ι} {spurious : Bool} {residue : T} {c c' : Core ι T} {k k' : RingPc T}
    (hs : ringStep t spurious residue c k = some (c', k')) :
    c.tailClaims.length ≤ c'.tailClaims.length := by
  obtain _ | ⟨x, _ | pos | pos | pos | pos⟩ | ⟨_ | pos | pos | pos | ⟨pos, v⟩ | ⟨pos, v⟩⟩ := k
  all_goals
    simp only [ringStep, pushStep, popStep, Option.some.injEq, Prod.mk.injEq, reduceCtorEq] at hs
    try obtain ⟨rfl, rfl⟩ := hs
  all_goals
    try split_ifs
    all_goals simp [Core.claimTail, Core.claimHead, Core.setData, Core.take, Core.publish,
      Core.release, Core.setSeq]

theorem ringStep_capacity {t : ι} {spurious : Bool} {residue : T} {c c' : Core ι T}
    {k k' : RingPc T} (hs : ringStep t spurious residue c k = some (c', k')) :
    c'.ring.capacity = c.ring.capacity := by
  obtain _ | ⟨x, _ | pos | pos | pos | pos⟩ | ⟨_ | pos | pos | pos | ⟨pos, v⟩ | ⟨pos, v⟩⟩ := k
  all_goals
    simp only [ringStep, pushStep, popStep, Option.some.injEq, Prod.mk.injEq, reduceCtorEq] at hs
    try obtain ⟨rfl, rfl⟩ := hs
  all_goals
    try split_ifs
    all_goals rfl

variable [DecidableEq ι]

/-- A step calls one of the functions, or is a step inside one. -/
theorem ringMachine_step_cases {a : RingAct ι T} (h : (ringMachine ι m).step s a = some s') :
    (∃ t k, s.pc t = .idle ∧ (k = .pop .load ∨ ∃ item, k = .push item .load) ∧
      s' = { s with pc := Function.update s.pc t k }) ∨
    ∃ t spurious residue c' k, ringStep t spurious residue s.core (s.pc t) = some (c', k) ∧
      s' = ⟨c', Function.update s.pc t k⟩ := by
  cases a with
  | tryPush t item =>
    simp only [ringMachine] at h
    split at h
    · exact .inl ⟨t, _, ‹_›, .inr ⟨item, rfl⟩, (Option.some.inj h).symm⟩
    · cases h
  | tryPop t =>
    simp only [ringMachine] at h
    split at h
    · exact .inl ⟨t, _, ‹_›, .inl rfl, (Option.some.inj h).symm⟩
    · cases h
  | step t spurious residue =>
    obtain ⟨⟨c', k⟩, hr, he⟩ := Option.map_eq_some_iff.mp h
    exact .inr ⟨t, spurious, residue, c', k, hr, he.symm⟩

/-- **In every run with fewer than `2 ^ 63` claims of `tail_` the invariant holds.** -/
theorem ringInv_of_reachable (h2 : 2 ≤ m) (h : (ringMachine ι m).Reachable s)
    (hb : s.core.tailClaims.length < 2 ^ 63) : RingInv s.core s.pc := by
  refine h.invariant_of_mono (P := fun s => RingInv s.core s.pc)
    (B := fun s => s.core.tailClaims.length < 2 ^ 63) ?_ ?_ ?_ hb
  · intro s a s' hs hb
    obtain ⟨t, k, -, -, rfl⟩ | ⟨t, sp, r, c', k, hr, rfl⟩ := ringMachine_step_cases hs
    · exact hb
    · exact lt_of_le_of_lt (ringStep_mono hr) hb
  · rintro s ⟨r, hr, rfl⟩
    exact RingInv.init h2 hr
  · intro s a s' hi _ hs hb
    obtain ⟨t, k, ht, hk, rfl⟩ | ⟨t, sp, r, c', k, hr, rfl⟩ := ringMachine_step_cases hs
    · refine hi.read (by rw [ht]; rfl) (by rw [ht]; rfl) ?_
      rcases hk with rfl | ⟨item, rfl⟩ <;> trivial
    · exact hi.step hb hr

end

end OrderRisk.Queue
