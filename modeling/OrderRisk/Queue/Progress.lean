import OrderRisk.Queue.Delivery
import OrderRisk.Lib.Progress

/-!
# `try_push` and `try_pop` are lock-free

A thread goes round the loop of `try_push` because `tail_` has moved since it was read, or because a
CAS has failed for no reason; the same holds of `try_pop` and `head_`.  So the steps of a call are
bounded by the claims that are made meanwhile (`ring_lockFree`), and a thread whose competitors have
stopped, also between a claim and its publication, returns after a few.
-/

namespace OrderRisk.Queue

open OrderRisk.Lib

section

variable {T : Type*}

def RingPc.pushing : RingPc T → Bool
  | .push _ _ => true
  | _ => false

def RingPc.popping : RingPc T → Bool
  | .pop _ => true
  | _ => false

/-- The steps that a `try_push` has yet to make if `tail_` does not move. -/
def RingPc.pushSteps (tail : ℕ) : RingPc T → ℕ
  | .push _ .load => 5
  | .push _ (.loadSeq pos) => if pos = tail then 4 else 6
  | .push _ (.cas pos) => if pos = tail then 3 else 5
  | .push _ (.move _) => 2
  | .push _ (.publish _) => 1
  | _ => 0

/-- The steps that a `try_pop` has yet to make if `head_` does not move. -/
def RingPc.popSteps (head : ℕ) : RingPc T → ℕ
  | .pop .load => 6
  | .pop (.loadSeq pos) => if pos = head then 5 else 7
  | .pop (.cas pos) => if pos = head then 4 else 6
  | .pop (.move _) => 3
  | .pop (.clear _ _) => 2
  | .pop (.publish _ _) => 1
  | _ => 0

theorem RingPc.pushSteps_le (k : RingPc T) (tail : ℕ) : k.pushSteps tail ≤ 6 := by
  rcases k with _ | ⟨x, _ | pos | pos | pos | pos⟩ | p <;> simp only [pushSteps] <;>
    first | omega | (split <;> omega)

theorem RingPc.popSteps_le (k : RingPc T) (head : ℕ) : k.popSteps head ≤ 7 := by
  rcases k with _ | ⟨x, p⟩ | (_ | pos | pos | pos | ⟨pos, v⟩ | ⟨pos, v⟩) <;> simp only [popSteps] <;>
    first | omega | (split <;> omega)

theorem RingPc.pushSteps_move (k : RingPc T) (tail tail' : ℕ) :
    k.pushSteps tail' ≤ k.pushSteps tail + 2 := by
  rcases k with _ | ⟨x, _ | pos | pos | pos | pos⟩ | p <;> simp only [pushSteps] <;>
    first | omega | (split <;> split <;> omega)

theorem RingPc.popSteps_move (k : RingPc T) (head head' : ℕ) :
    k.popSteps head' ≤ k.popSteps head + 2 := by
  rcases k with _ | ⟨x, p⟩ | (_ | pos | pos | pos | ⟨pos, v⟩ | ⟨pos, v⟩) <;> simp only [popSteps] <;>
    first | omega | (split <;> split <;> omega)

end

/-! ### A thread's own steps -/

section

variable {ι T : Type*} [Inhabited T] {c c' : Core ι T} {pc : ι → RingPc T} {t : ι} {spurious : Bool}
  {residue : T} {k k' : RingPc T}

theorem diff_nonpos {a b : ℕ} (h : a ≤ b) (hb : b < a + 2 ^ 63) : diff a b ≤ 0 := by
  unfold diff
  rw [Int.bmod_eq_of_le (by omega) (by omega)]
  omega

/-- At `tail_`, `seq` is not ahead: a producer that has read the current `tail_` does not go round. -/
theorem RingInv.diff_tail (h : RingInv c pc) (hb : c.tailClaims.length < 2 ^ 63) :
    ¬ 0 < diff (c.ring.cell c.tailClaims.length).seq c.tailClaims.length := by
  have hcap := h.capacity_le
  rw [not_lt]
  obtain ⟨hs, -⟩ | ⟨hc, -, hs⟩ := h.seq_tail
  · rw [hs]
    exact diff_nonpos le_rfl (by omega)
  · rw [hs, Core.seqOf]
    have := h.two_le_capacity
    split_ifs <;> exact diff_nonpos (by omega) (by omega)

theorem RingInv.diff_head (h : RingInv c pc) (hb : c.tailClaims.length < 2 ^ 63) :
    ¬ 0 < diff (c.ring.cell c.headClaims.length).seq (word (c.headClaims.length + 1)) := by
  have hle := h.head_le
  have hcap := h.capacity_le
  have h2 := h.two_le_capacity
  rw [not_lt, word_of_lt (by omega)]
  have hr : c.released c.headClaims.length = false := by
    by_contra hr
    exact absurd (Core.released_lt (by simpa using hr)) (lt_irrefl _)
  rcases Nat.lt_or_eq_of_le hle with hlt | he
  · rw [h.seq _ (h.inLap hlt hr), Core.seqOf, if_neg (by simp [hr])]
    split_ifs <;> exact diff_nonpos (by omega) (by omega)
  · rw [he]
    obtain ⟨hs, -⟩ | ⟨hc, -, hs⟩ := h.seq_tail
    · rw [hs]
      exact diff_nonpos (by omega) (by omega)
    · -- the lap before has been claimed, so it was filled
      have hf : c.filled (c.tailClaims.length - c.ring.capacity) = true := h.ready _ (by omega)
      rw [hs, Core.seqOf, if_pos hf]
      split_ifs <;> exact diff_nonpos (by omega) (by omega)

/-- **A step of `try_push` is one less to make**, unless a CAS fails for no reason. -/
theorem RingInv.pushSteps_step (h : RingInv c pc) (hb : c.tailClaims.length < 2 ^ 63)
    (hpush : (pc t).pushing = true) (hs : ringStep t spurious residue c (pc t) = some (c', k)) :
    k.pushSteps c'.ring.tail + 1 ≤ (pc t).pushSteps c.ring.tail + if spurious then 2 else 0 := by
  have hdiff := h.diff_tail hb
  rw [← h.tail_eq] at hdiff
  obtain ⟨x, _ | pos | pos | pos | pos, hp⟩ : ∃ x p, pc t = .push x p := by
    cases hpc : pc t with
    | push x p => exact ⟨x, p, rfl⟩
    | _ =>
      rw [hpc] at hpush
      cases hpush
  all_goals
    rw [hp] at hs ⊢
    simp only [ringStep, pushStep, Option.some.injEq, Prod.mk.injEq] at hs
  · obtain ⟨rfl, rfl⟩ := hs
    simp [RingPc.pushSteps]
  · obtain ⟨rfl, rfl⟩ := hs
    by_cases h0 : diff (c.ring.cell pos).seq pos = 0
    · simp only [h0, if_true, Sum.elim_inl, RingPc.pushSteps]
      split <;> omega
    · by_cases h1 : diff (c.ring.cell pos).seq pos < 0
      · simp only [h0, h1, if_true, if_false, Sum.elim_inr, RingPc.pushSteps]
        split <;> omega
      · -- round the loop: `tail_` has moved
        have hpos : pos ≠ c.ring.tail := by
          rintro rfl
          omega
        simp only [h0, h1, hpos, if_false, Sum.elim_inl, RingPc.pushSteps]
        omega
  · by_cases hpos : c.ring.tail = pos
    · cases hsp : spurious with
      | false =>
        rw [if_pos ⟨hpos, hsp⟩] at hs
        obtain ⟨rfl, rfl⟩ := hs
        simp [RingPc.pushSteps, hpos]
      | true =>
        rw [if_neg (by simp [hsp])] at hs
        obtain ⟨rfl, rfl⟩ := hs
        simp [RingPc.pushSteps, hpos]
    · rw [if_neg (by simp [hpos])] at hs
      obtain ⟨rfl, rfl⟩ := hs
      simp [RingPc.pushSteps, Ne.symm hpos]
  · obtain ⟨rfl, rfl⟩ := hs
    simp [RingPc.pushSteps]
  · obtain ⟨rfl, rfl⟩ := hs
    simp [RingPc.pushSteps]

/-- **A step of `try_pop` is one less to make**, unless a CAS fails for no reason. -/
theorem RingInv.popSteps_step (h : RingInv c pc) (hb : c.tailClaims.length < 2 ^ 63)
    (hpop : (pc t).popping = true) (hs : ringStep t spurious residue c (pc t) = some (c', k)) :
    k.popSteps c'.ring.head + 1 ≤ (pc t).popSteps c.ring.head + if spurious then 2 else 0 := by
  have hdiff := h.diff_head hb
  rw [← h.head_eq] at hdiff
  obtain ⟨_ | pos | pos | pos | ⟨pos, v⟩ | ⟨pos, v⟩, hp⟩ : ∃ p, pc t = .pop p := by
    cases hpc : pc t with
    | pop p => exact ⟨p, rfl⟩
    | _ =>
      rw [hpc] at hpop
      cases hpop
  all_goals
    rw [hp] at hs ⊢
    simp only [ringStep, popStep, Option.some.injEq, Prod.mk.injEq] at hs
  · obtain ⟨rfl, rfl⟩ := hs
    simp [RingPc.popSteps]
  · obtain ⟨rfl, rfl⟩ := hs
    by_cases h0 : diff (c.ring.cell pos).seq (word (pos + 1)) = 0
    · simp only [h0, if_true, Sum.elim_inl, RingPc.popSteps]
      split <;> omega
    · by_cases h1 : diff (c.ring.cell pos).seq (word (pos + 1)) < 0
      · simp only [h0, h1, if_true, if_false, Sum.elim_inr, RingPc.popSteps]
        split <;> omega
      · -- round the loop: `head_` has moved
        have hpos : pos ≠ c.ring.head := by
          rintro rfl
          omega
        simp only [h0, h1, hpos, if_false, Sum.elim_inl, RingPc.popSteps]
        omega
  · by_cases hpos : c.ring.head = pos
    · cases hsp : spurious with
      | false =>
        rw [if_pos ⟨hpos, hsp⟩] at hs
        obtain ⟨rfl, rfl⟩ := hs
        simp [RingPc.popSteps, hpos]
      | true =>
        rw [if_neg (by simp [hsp])] at hs
        obtain ⟨rfl, rfl⟩ := hs
        simp [RingPc.popSteps, hpos]
    · rw [if_neg (by simp [hpos])] at hs
      obtain ⟨rfl, rfl⟩ := hs
      simp [RingPc.popSteps, Ne.symm hpos]
  all_goals
    obtain ⟨rfl, rfl⟩ := hs
    simp [RingPc.popSteps]

/-! ### The others' steps -/

theorem ringStep_counters (hs : ringStep t spurious residue c k = some (c', k')) :
    (c'.ring.tail = c.ring.tail ∧ c'.tailClaims.length = c.tailClaims.length ∨
      c'.tailClaims.length = c.tailClaims.length + 1) ∧
    (c'.ring.head = c.ring.head ∧ c'.headClaims.length = c.headClaims.length ∨
      c'.headClaims.length = c.headClaims.length + 1) := by
  obtain _ | ⟨x, _ | pos | pos | pos | pos⟩ | ⟨_ | pos | pos | pos | ⟨pos, v⟩ | ⟨pos, v⟩⟩ := k
  all_goals
    simp only [ringStep, pushStep, popStep, Option.some.injEq, Prod.mk.injEq, reduceCtorEq] at hs
    try obtain ⟨rfl, rfl⟩ := hs
  all_goals
    try split_ifs
    all_goals simp [Core.claimTail, Core.claimHead, Core.setData, Core.take, Core.publish,
      Core.release, Core.setSeq]

end

/-! ### Runs -/

section

variable {ι T : Type*} [Inhabited T] [DecidableEq ι] {m : ℕ} {s s' : RingState ι T} {t : ι}

def stepOf (t : ι) : RingAct ι T → Bool
  | .step u _ _ => decide (u = t)
  | _ => false

def isSpurious : RingAct ι T → Bool
  | .step _ spurious _ => spurious
  | _ => false

theorem ring_step_cases {a : RingAct ι T} (h : (ringMachine ι m).step s a = some s') :
    (∃ u k, s.pc u = .idle ∧ (∀ v, stepOf v a = false) ∧
      s' = { s with pc := Function.update s.pc u k }) ∨
    ∃ u spurious residue c' k, a = .step u spurious residue ∧
      ringStep u spurious residue s.core (s.pc u) = some (c', k) ∧
      s' = ⟨c', Function.update s.pc u k⟩ := by
  cases a with
  | tryPush u item =>
    simp only [ringMachine] at h
    split at h
    · exact .inl ⟨u, _, ‹_›, fun _ => rfl, (Option.some.inj h).symm⟩
    · cases h
  | tryPop u =>
    simp only [ringMachine] at h
    split at h
    · exact .inl ⟨u, _, ‹_›, fun _ => rfl, (Option.some.inj h).symm⟩
    · cases h
  | step u spurious residue =>
    obtain ⟨⟨c', k⟩, hr, he⟩ := Option.map_eq_some_iff.mp h
    exact .inr ⟨u, spurious, residue, c', k, rfl, hr, he.symm⟩

theorem ring_keep (a : RingAct ι T) (h : RingInv s.core s.pc)
    (hs : (ringMachine ι m).step s a = some s') (hb : s'.core.tailClaims.length < 2 ^ 63) :
    RingInv s'.core s'.pc := by
  obtain ⟨u, k, ht, hk, rfl⟩ | ⟨u, sp, r, c', k, hr, rfl⟩ := ringMachine_step_cases hs
  · refine h.read (by rw [ht]; rfl) (by rw [ht]; rfl) ?_
    rcases hk with rfl | ⟨item, rfl⟩ <;> trivial
  · exact h.step hb hr

theorem ring_tail_le {a : RingAct ι T} (hs : (ringMachine ι m).step s a = some s') :
    s.core.tailClaims.length ≤ s'.core.tailClaims.length := by
  obtain ⟨u, k, -, -, rfl⟩ | ⟨u, sp, r, c', k, hr, rfl⟩ := ringMachine_step_cases hs
  · exact le_rfl
  · exact ringStep_mono hr

/-- A call is paid for by its steps and the claims of the counter it is after. -/
theorem ring_paid (m : ℕ) (t : ι) {busy : RingPc T → Bool} (steps : ℕ → RingPc T → ℕ)
    (counter claims : Core ι T → ℕ) (hidle : busy .idle = false)
    (hmove : ∀ k pos pos', steps pos' k ≤ steps pos k + 2)
    (hclaims : ∀ {u c c' k k' spurious} {residue : T},
      ringStep u spurious residue c k = some (c', k') →
        counter c' = counter c ∧ claims c' = claims c ∨ claims c' = claims c + 1)
    (hstep : ∀ {c c' : Core ι T} {pc : ι → RingPc T} {k spurious} {residue : T}, RingInv c pc →
      c.tailClaims.length < 2 ^ 63 → busy (pc t) = true →
      ringStep t spurious residue c (pc t) = some (c', k) →
        steps (counter c') k + 1 ≤ steps (counter c) (pc t) + if spurious then 2 else 0) :
    (ringMachine (T := T) ι m).Paid (fun s => RingInv s.core s.pc)
      (fun s => s.core.tailClaims.length < 2 ^ 63) (fun s => busy (s.pc t) = true) (stepOf t)
      isSpurious (fun s => steps (counter s.core) (s.pc t)) (fun s => claims s.core) 2 where
  keep h hs hb := ring_keep _ h hs hb
  back hs hb := lt_of_le_of_lt (ring_tail_le hs) hb
  mono hs := by
    obtain ⟨u, k, -, -, rfl⟩ | ⟨u, sp, r, c', k, hr, rfl⟩ := ringMachine_step_cases hs
    · exact le_rfl
    · rcases hclaims hr with ⟨-, he⟩ | he <;> dsimp only <;> omega
  mine := by
    intro s a s' h hb hbusy hs ha
    obtain ⟨u, k, -, hne, rfl⟩ | ⟨u, sp, r, c', k, rfl, hr, rfl⟩ := ring_step_cases hs
    · rw [hne] at ha
      cases ha
    · obtain rfl : u = t := by simpa [stepOf] using ha
      dsimp only
      rw [Function.update_self]
      exact hstep h hb hbusy hr
  others := by
    intro s a s' hbusy hs ha
    obtain ⟨u, k, hu, -, rfl⟩ | ⟨u, sp, r, c', k, rfl, hr, rfl⟩ := ring_step_cases hs
    · have hut : t ≠ u := by
        rintro rfl
        rw [hu, hidle] at hbusy
        cases hbusy
      dsimp only
      rw [Function.update_of_ne hut]
    · have hut : t ≠ u := by
        rintro rfl
        simp [stepOf] at ha
      dsimp only
      rw [Function.update_of_ne hut]
      rcases hclaims hr with ⟨he, hlen⟩ | he
      · rw [he, hlen]
      · have := hmove (s.pc t) (counter s.core) (counter c')
        omega

theorem push_paid (m : ℕ) (t : ι) : (ringMachine (T := T) ι m).Paid
    (fun s => RingInv s.core s.pc) (fun s => s.core.tailClaims.length < 2 ^ 63)
    (fun s => (s.pc t).pushing = true) (stepOf t) isSpurious
    (fun s => (s.pc t).pushSteps s.core.ring.tail) (fun s => s.core.tailClaims.length) 2 :=
  ring_paid m t RingPc.pushSteps (fun c => c.ring.tail) (fun c => c.tailClaims.length) rfl
    RingPc.pushSteps_move (fun hs => (ringStep_counters hs).1)
    (fun h hb hbusy hs => h.pushSteps_step hb hbusy hs)

theorem pop_paid (m : ℕ) (t : ι) : (ringMachine (T := T) ι m).Paid
    (fun s => RingInv s.core s.pc) (fun s => s.core.tailClaims.length < 2 ^ 63)
    (fun s => (s.pc t).popping = true) (stepOf t) isSpurious
    (fun s => (s.pc t).popSteps s.core.ring.head) (fun s => s.core.headClaims.length) 2 :=
  ring_paid m t RingPc.popSteps (fun c => c.ring.head) (fun c => c.headClaims.length) rfl
    RingPc.popSteps_move (fun hs => (ringStep_counters hs).2)
    (fun h hb hbusy hs => h.popSteps_step hb hbusy hs)

omit [DecidableEq ι] in
theorem busy_ringStep {c c' : Core ι T} {k k' : RingPc T} {spurious : Bool} {residue : T}
    (hs : ringStep t spurious residue c k = some (c', k')) :
    (k.pushing = true → k'.pushing = true ∨ k' = .idle) ∧
      (k.popping = true → k'.popping = true ∨ k' = .idle) := by
  obtain _ | ⟨x, p⟩ | p := k
  · cases hs
  · cases hs
    refine ⟨fun _ => ?_, nofun⟩
    cases (pushStep t x spurious c p).2 with
    | inl p => exact .inl rfl
    | inr r => exact .inr rfl
  · cases hs
    refine ⟨nofun, fun _ => ?_⟩
    cases (popStep t spurious residue c p).2 with
    | inl p => exact .inl rfl
    | inr r => exact .inr rfl

/-- **The thread alone returns**, where its steps lower `rank`. -/
theorem ring_alone (busy : RingPc T → Bool) (rank : RingState ι T → ℕ) (h2 : 2 ≤ m) {residue : T}
    (hidle : busy .idle = false)
    (hgo : ∀ {c c' : Core ι T} {k k' : RingPc T}, ringStep t false residue c k = some (c', k') →
      busy k = true → busy k' = true ∨ k' = .idle)
    (hrank : ∀ {s : RingState ι T} {c' k}, RingInv s.core s.pc → s.core.tailClaims.length < 2 ^ 63 →
      busy (s.pc t) = true → ringStep t false residue s.core (s.pc t) = some (c', k) →
      rank ⟨c', Function.update s.pc t k⟩ + 1 ≤ rank s)
    (h : (ringMachine ι m).Reachable s) (ht : busy (s.pc t) = true)
    (hb : s.core.tailClaims.length + rank s < 2 ^ 63) :
    ∃ k ≤ rank s, ∃ s', (ringMachine ι m).exec s (List.replicate k (.step t false residue)) = some s' ∧
      s'.pc t = .idle := by
  have hstep : ∀ s : RingState ι T, ((ringMachine ι m).Reachable s ∧
      s.core.tailClaims.length + rank s < 2 ^ 63 ∧ (busy (s.pc t) = true ∨ s.pc t = .idle)) →
      busy (s.pc t) = true → ∃ s', (ringMachine ι m).step s (.step t false residue) = some s' ∧
        ((ringMachine ι m).Reachable s' ∧ s'.core.tailClaims.length + rank s' < 2 ^ 63 ∧
          (busy (s'.pc t) = true ∨ s'.pc t = .idle)) ∧ rank s' + 1 ≤ rank s := by
    rintro s ⟨hr, hb, -⟩ ht
    obtain ⟨⟨c', k⟩, hs⟩ : ∃ r, ringStep t false residue s.core (s.pc t) = some r := by
      cases hpc : s.pc t with
      | idle =>
        rw [hpc, hidle] at ht
        cases ht
      | _ => exact ⟨_, rfl⟩
    have hs' : (ringMachine ι m).step s (.step t false residue) =
        some ⟨c', Function.update s.pc t k⟩ := by simp [ringMachine, hs]
    have hinv := ringInv_of_reachable h2 hr (by omega)
    have hdec := hrank hinv (by omega) ht hs
    have hone : c'.tailClaims.length ≤ s.core.tailClaims.length + 1 := by
      rcases (ringStep_counters hs).1 with ⟨-, he⟩ | he <;> omega
    refine ⟨_, hs', ⟨hr.step trivial hs', by dsimp only at hdec ⊢; omega, ?_⟩, hdec⟩
    dsimp only
    rw [Function.update_self]
    exact hgo hs ht
  obtain ⟨k, hk, s', he, ⟨-, -, hq⟩, hend⟩ := Machine.alone (fun s : RingState ι T => busy (s.pc t) = true)
    rank hstep _ le_rfl ⟨h, hb, .inl ht⟩
  exact ⟨k, hk, s', he, hq.resolve_left hend⟩

/-- **`try_push` and `try_pop` are lock-free.**  In every run of any threads, while a thread is in a
`try_push` its steps are at most six, and two for each claim of `tail_` made meanwhile and for each of
its CASes that fails for no reason; for `try_pop`, seven and the claims of `head_`.  And from every
reachable state the thread alone returns within that many steps, wherever the others have stopped. -/
theorem ring_lockFree (h2 : 2 ≤ m) (h : (ringMachine ι m).Reachable s)
    (hb : s.core.tailClaims.length + 7 < 2 ^ 63) (residue : T) :
    ((s.pc t).pushing = true →
      (∀ as s', (ringMachine ι m).Meets (fun s _ => (s.pc t).pushing = true) s as →
        (ringMachine ι m).exec s as = some s' → s'.core.tailClaims.length < 2 ^ 63 →
        as.countP (stepOf t) + 2 * s.core.tailClaims.length ≤ 6 + 2 * s'.core.tailClaims.length +
          2 * as.countP fun a => stepOf t a && isSpurious a) ∧
      ∃ k ≤ 6, ∃ s', (ringMachine ι m).exec s (List.replicate k (.step t false residue)) = some s' ∧
        s'.pc t = .idle) ∧
    ((s.pc t).popping = true →
      (∀ as s', (ringMachine ι m).Meets (fun s _ => (s.pc t).popping = true) s as →
        (ringMachine ι m).exec s as = some s' → s'.core.tailClaims.length < 2 ^ 63 →
        as.countP (stepOf t) + 2 * s.core.headClaims.length ≤ 7 + 2 * s'.core.headClaims.length +
          2 * as.countP fun a => stepOf t a && isSpurious a) ∧
      ∃ k ≤ 7, ∃ s', (ringMachine ι m).exec s (List.replicate k (.step t false residue)) = some s' ∧
        s'.pc t = .idle) := by
  have hinv := ringInv_of_reachable h2 h (by omega)
  have hpush := (s.pc t).pushSteps_le s.core.ring.tail
  have hpop := (s.pc t).popSteps_le s.core.ring.head
  refine ⟨fun ht => ⟨fun as s' hm he hb' => ?_, ?_⟩, fun ht => ⟨fun as s' hm he hb' => ?_, ?_⟩⟩
  · have := (push_paid m t).own_steps_le hinv hm he hb'
    omega
  · obtain ⟨k, hk, hrun⟩ := ring_alone RingPc.pushing
      (fun s => (s.pc t).pushSteps s.core.ring.tail) h2 rfl
      (fun hs => (busy_ringStep hs).1) (fun hi hb ht hs => by
        dsimp only
        rw [Function.update_self]
        exact hi.pushSteps_step hb ht hs) h ht (by omega)
    exact ⟨k, hk.trans hpush, hrun⟩
  · have := (pop_paid m t).own_steps_le hinv hm he hb'
    omega
  · obtain ⟨k, hk, hrun⟩ := ring_alone RingPc.popping
      (fun s => (s.pc t).popSteps s.core.ring.head) h2 rfl
      (fun hs => (busy_ringStep hs).2) (fun hi hb ht hs => by
        dsimp only
        rw [Function.update_self]
        exact hi.popSteps_step hb ht hs) h ht (by omega)
    exact ⟨k, hk.trans hpop, hrun⟩

end

/-- The first producer of `contended`, from its call to its return. -/
theorem ring_lockFree_contended :
    ∃ s s', (ringMachine (Fin 3) 2).exec ⟨LockFreeRing.unused ⟨fun i => ⟨i, (0 : ℕ)⟩, 1, 0, 0⟩,
        fun _ => .idle⟩ (contended.take 2) = some s ∧
      (ringMachine (Fin 3) 2).exec s ((contended.take 15).drop 2) = some s' ∧
      8 + 2 * s.core.tailClaims.length ≤ 6 + 2 * s'.core.tailClaims.length + 2 * 1 ∧
      ∃ k ≤ 6, ∃ s', (ringMachine (Fin 3) 2).exec s (List.replicate k (.step 0 false 0)) = some s' ∧
        s'.pc 0 = .idle := by
  have h : ((ringMachine (Fin 3) 2).exec ⟨LockFreeRing.unused ⟨fun i => ⟨i, (0 : ℕ)⟩, 1, 0, 0⟩,
      fun _ => .idle⟩ (contended.take 2)).map (fun s => ((s.pc 0).pushing, s.core.tailClaims.length,
        decide ((ringMachine (Fin 3) 2).Meets (fun s _ => (s.pc 0).pushing = true) s
          ((contended.take 15).drop 2)),
        ((ringMachine (Fin 3) 2).exec s ((contended.take 15).drop 2)).map fun s' =>
          s'.core.tailClaims.length)) = some (true, 0, true, some 2) := by decide +kernel
  obtain ⟨s, hs, h⟩ := Option.map_eq_some_iff.mp h
  simp only [Prod.mk.injEq, decide_eq_true_eq] at h
  obtain ⟨ht, h0, hm, h'⟩ := h
  obtain ⟨s', hs', hb⟩ := Option.map_eq_some_iff.mp h'
  obtain ⟨hle, halone⟩ := (ring_lockFree le_rfl (Machine.Reachable.of_exec ⟨_, rfl, rfl⟩ hs)
    (by rw [h0]; decide) 0).1 ht
  have hown : ((contended.take 15).drop 2).countP (stepOf (0 : Fin 3)) = 8 := by decide +kernel
  have hspurious : (((contended.take 15).drop 2).countP fun a =>
      stepOf (0 : Fin 3) a && isSpurious a) = 1 := by decide +kernel
  exact ⟨s, s', hs, hs', hspurious ▸ hown ▸ hle _ s' hm hs' (by rw [hb]; decide), halone⟩

end OrderRisk.Queue
