import OrderRisk.Queue.Delivery

/-!
# Who owns a cell

Between its successful CAS on `tail_` or `head_` and its store to `seq` a thread owns the cell of
the position it has claimed, and moves data in or out without synchronisation.  Every cell has at
most one owner, across laps, and a cell that has none and waits for a producer holds the empty
value (`one_owner`).
-/

namespace OrderRisk.Queue

open OrderRisk.Lib

variable {ι T : Type*}

/-- The position that the thread has claimed and whose `seq` it has not stored. -/
def RingPc.claimed : RingPc T → Option ℕ
  | .push _ (.move pos) => some pos
  | .push _ (.publish pos) => some pos
  | .pop (.move pos) => some pos
  | .pop (.clear pos _) => some pos
  | .pop (.publish pos _) => some pos
  | _ => none

/-- The thread is between its claim and its store to `seq`, for `cells_[i]`. -/
def RingState.Owns (s : RingState ι T) (t : ι) (i : ℕ) : Prop :=
  ∃ pos, (s.pc t).claimed = some pos ∧ pos &&& s.core.ring.mask = i

/-- The `seq` of `cells_[i]` is a position of that cell, the lap at which a producer may fill it
(and not one more than that). -/
def LockFreeRing.Free (r : LockFreeRing T) (i : ℕ) : Prop :=
  (r.cells i).seq &&& r.mask = i

section

variable [Inhabited T] {c : Core ι T} {pc : ι → RingPc T} {t u : ι} {i p q : ℕ}

namespace RingInv

theorem claim_of_claimed (h : RingInv c pc) (hp : (pc t).claimed = some p) :
    (∃ x, c.tailClaims[p]? = some ⟨t, x, false⟩) ∨ ∃ o, c.headClaims[p]? = some ⟨t, o, false⟩ := by
  have hpc := h.pcOk t
  generalize pc t = k at hp hpc
  obtain _ | ⟨x, _ | pos | pos | pos | pos⟩ | (_ | pos | pos | pos | ⟨pos, v⟩ | ⟨pos, v⟩) := k
  all_goals cases hp
  · exact .inl ⟨x, hpc⟩
  · exact .inl ⟨x, hpc.1⟩
  · exact .inr ⟨none, hpc⟩
  · exact .inr ⟨some v, hpc⟩
  · exact .inr ⟨some v, hpc.1⟩

theorem inLap_of_claimed (h : RingInv c pc) (hp : (pc t).claimed = some p) : c.InLap p := by
  rcases h.claim_of_claimed hp with ⟨x, hx⟩ | ⟨o, ho⟩
  · exact (h.tailClaim hx).1
  · exact (h.headClaim ho).1

theorem owner_unique (h : RingInv c pc) (hp : (pc t).claimed = some p)
    (hq : (pc u).claimed = some q) (he : p &&& c.ring.mask = q &&& c.ring.mask) : t = u := by
  -- within one lap the cell determines the position
  obtain rfl : p = q := by
    by_contra hne
    exact h.index_ne (h.inLap_of_claimed hp) (h.inLap_of_claimed hq) hne he
  rcases h.claim_of_claimed hp with ⟨x, hx⟩ | ⟨o, ho⟩ <;>
    rcases h.claim_of_claimed hq with ⟨y, hy⟩ | ⟨o', ho'⟩
  · rw [hx] at hy
    cases hy
    rfl
  · exact absurd rfl (h.tailClaim_ne_headClaim hx ho')
  · exact absurd rfl (h.tailClaim_ne_headClaim hy ho)
  · rw [ho] at ho'
    cases ho'
    rfl

theorem exists_claimed (h : RingInv c pc) (hp : c.InLap p) (hf : c.filled p = false) :
    ∃ t, (pc t).claimed = some p := by
  obtain ⟨⟨t, x, b⟩, hk⟩ : ∃ k, c.tailClaims[p]? = some k :=
    ⟨_, List.getElem?_eq_getElem hp.1⟩
  obtain rfl : b = false := by simpa [Core.filled, hk] using hf
  refine ⟨t, ?_⟩
  rcases h.tailOwner p t x hk with he | he <;> rw [he] <;> rfl

/-- A cell that nobody owns and that waits for a producer is empty, and waits for a lap to come. -/
theorem free_cell (h : RingInv c pc) (hi : i < c.ring.capacity)
    (hown : ∀ t p, (pc t).claimed = some p → p &&& c.ring.mask ≠ i) (hfree : c.ring.Free i) :
    c.ring.tail ≤ (c.ring.cells i).seq ∧ (c.ring.cells i).data = default := by
  have hci : c.ring.cell i = c.ring.cells i := by
    rw [LockFreeRing.cell, LockFreeRing.index_eq_mod h.pow', Nat.mod_eq_of_lt hi]
  rw [LockFreeRing.Free, LockFreeRing.index_eq_mod h.pow', ← hci] at hfree
  rw [h.tail_eq, ← hci]
  by_cases hlt : c.tailClaims.length ≤ i
  · -- no lap has come to it
    rw [h.fresh i hlt hi]
    exact ⟨hlt, rfl⟩
  obtain ⟨n, hlap, hseq⟩ := h.exists_inLap (by omega : i < c.tailClaims.length)
  have hcell : c.ring.cell (i + c.ring.capacity * n) = c.ring.cell i := by
    rw [LockFreeRing.cell, LockFreeRing.cell, LockFreeRing.index_eq_mod h.pow',
      LockFreeRing.index_eq_mod h.pow', Nat.add_mul_mod_self_left]
  cases hr : c.released (i + c.ring.capacity * n) with
  | true =>
    refine ⟨?_, hcell ▸ h.vacant _ hlap hr⟩
    rw [hseq, Core.seqOf, if_pos hr]
    exact hlap.2
  | false =>
    exfalso
    cases hf : c.filled (i + c.ring.capacity * n) with
    | false =>
      obtain ⟨t, ht⟩ := h.exists_claimed hlap hf
      refine hown t _ ht ?_
      rw [LockFreeRing.index_eq_mod h.pow', Nat.add_mul_mod_self_left, Nat.mod_eq_of_lt hi]
    | true =>
      -- the cell is full: its `seq` is one more than a position of it
      have h2 := h.two_le_capacity
      rw [hseq, Core.seqOf, if_neg (by simp [hr]), if_pos hf, Nat.add_right_comm,
        Nat.add_mul_mod_self_left] at hfree
      rcases Nat.lt_or_eq_of_le (by omega : i + 1 ≤ c.ring.capacity) with hlt | heq
      · rw [Nat.mod_eq_of_lt hlt] at hfree
        omega
      · rw [heq, Nat.mod_self] at hfree
        omega

end RingInv

end

section

variable [DecidableEq ι] [Inhabited T] {capacity : ℕ} {s : RingState ι T}

/-- **Cells have one owner, and free cells hold nothing**, for any threads and every interleaving
of their steps. -/
theorem one_owner {j : ℕ} (hcap : capacity = 2 ^ j) (h2 : 2 ≤ capacity)
    (h : (ringMachine ι capacity).Reachable s) (hb : s.core.tailClaims.length < 2 ^ 63) :
    (∀ t u i, s.Owns t i → s.Owns u i → t = u) ∧
    ∀ i < capacity, (∀ t, ¬ s.Owns t i) → s.core.ring.Free i →
      s.core.ring.tail ≤ (s.core.ring.cells i).seq ∧ (s.core.ring.cells i).data = default := by
  have hi := ringInv_of_reachable h2 h hb
  constructor
  · rintro t u i ⟨p, hp, rfl⟩ ⟨q, hq, he⟩
    exact hi.owner_unique hp hq he.symm
  · intro i hlt hown hfree
    rw [← capacity_of_reachable ⟨j, hcap⟩ h] at hlt
    exact hi.free_cell hlt (fun t p hp he => hown t ⟨p, hp, he⟩) hfree

/-- Two producers and a consumer on two cells, after all have returned. -/
theorem one_owner_contended :
    ∃ s, (ringMachine (Fin 3) 2).exec
        ⟨LockFreeRing.unused ⟨fun i => ⟨i, (0 : ℕ)⟩, 1, 0, 0⟩, fun _ => .idle⟩ contended = some s ∧
      (∀ t u i, s.Owns t i → s.Owns u i → t = u) ∧
      ∀ i < 2, (∀ t, ¬ s.Owns t i) → s.core.ring.Free i →
        s.core.ring.tail ≤ (s.core.ring.cells i).seq ∧ (s.core.ring.cells i).data = default := by
  obtain ⟨s, hs, hb⟩ := exec_contended
  exact ⟨s, hs, one_owner (j := 1) rfl (by decide)
    (Machine.Reachable.of_exec ⟨_, rfl, rfl⟩ hs) (by rw [hb]; decide)⟩

end

end OrderRisk.Queue
