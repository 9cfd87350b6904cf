import OrderRisk.Queue.Counters

/-!
# What the queue's steps do to the claims

Which position a push has claimed, until it returns, and how the claims of `tail_` and `head_`
grow.  Needed wherever the queue is compared with the ring below it.
-/

namespace OrderRisk.Queue

open OrderRisk.Lib

variable {ι T : Type*}

/-- The position a push has claimed, until the push returns. -/
def ThreadPc.claimed : ThreadPc T → Option ℕ
  | .push _ (.tryPush (.move pos)) => some pos
  | .push _ (.tryPush (.publish pos)) => some pos
  | .push _ (.leave pos) => some pos
  | .push _ (.readSleepers pos) => some pos
  | .push _ (.readSpinners pos) => some pos
  | .push _ (.lock pos) => some pos
  | .push _ (.unlock pos) => some pos
  | .push _ (.notify pos) => some pos
  | _ => none

section

variable [Inhabited T] {maxSpinners : ℤ} {t : ι} {g g' : Shared ι T} {k k' : ThreadPc T} {w : Wake}

omit [Inhabited T] in
theorem pushStep_claimed {x : T} {spurious : Bool} {c c' : Core ι T} {p p' : PushPc}
    (h : pushStep t x spurious c p = (c', .inl p')) :
    (c'.tailClaims.length = c.tailClaims.length ∧
      (ThreadPc.push x (.tryPush p')).claimed = (ThreadPc.push x (.tryPush p)).claimed) ∨
    (c'.tailClaims.length = c.tailClaims.length + 1 ∧ c.ring.tail = p'.pos ∧ p' = .move p'.pos ∧
      (ThreadPc.push x (.tryPush p)).claimed = none) := by
  cases p with
  | load =>
    cases h
    exact .inl ⟨rfl, rfl⟩
  | loadSeq pos =>
    simp only [pushStep, Prod.mk.injEq] at h
    obtain ⟨rfl, h⟩ := h
    split_ifs at h <;> cases h <;> exact .inl ⟨rfl, rfl⟩
  | cas pos =>
    simp only [pushStep] at h
    split_ifs at h with h0
    · cases h
      exact .inr ⟨by simp [Core.claimTail], h0.1, rfl, rfl⟩
    · cases h
      exact .inl ⟨rfl, rfl⟩
  | move pos =>
    cases h
    exact .inl ⟨rfl, rfl⟩
  | publish pos => cases h

theorem popStep_claims {spurious : Bool} {residue : T} {c c' : Core ι T} {p : PopPc T}
    {r : PopPc T ⊕ Option T} (h : popStep t spurious residue c p = (c', r)) :
    c'.tailClaims = c.tailClaims ∧ c.headClaims.length ≤ c'.headClaims.length := by
  cases p with
  | cas pos =>
    simp only [popStep] at h
    split_ifs at h <;> cases h
    · exact ⟨rfl, by simp [Core.claimHead]⟩
    · exact ⟨rfl, le_rfl⟩
  | _ =>
    cases h
    exact ⟨rfl, by simp [Core.take, Core.release, Core.setData, Core.setSeq]⟩

/-- What a thread's step does to the claims, and to the claim the thread itself is at. -/
theorem Local.claims (h : Local maxSpinners t g k g' k' w) :
    g.core.headClaims.length ≤ g'.core.headClaims.length ∧
    ((g'.core.tailClaims.length = g.core.tailClaims.length ∧
      (k'.claimed = k.claimed ∨ k'.claimed = none ∧ k' = .returned (.pushed true) ∧
        ∃ x pos, k.claimed = some pos ∧ (k = .push x (.readSleepers pos) ∧ g.sleepers ≤ 0 ∨
          k = .push x (.readSpinners pos) ∧ g.spinners ≠ 0 ∨
          k = .push x (.notify pos) ∧ w = .one))) ∨
    (g'.core.tailClaims.length = g.core.tailClaims.length + 1 ∧ k.claimed = none ∧
      k'.claimed = some g.core.ring.tail)) := by
  cases h
  case tryPush x spurious p p' core h =>
    have hh : core.headClaims = g.core.headClaims := by
      have := congrArg Prod.fst h
      simp only at this
      subst this
      cases p <;> simp only [pushStep] <;> (try split_ifs) <;> rfl
    refine ⟨by simp [hh], ?_⟩
    rcases pushStep_claimed h with ⟨h1, h2⟩ | ⟨h1, h2, h3, h4⟩
    · exact .inl ⟨h1, .inl h2⟩
    · refine .inr ⟨h1, h4, ?_⟩
      rw [h2, h3]
      rfl
  case tryPop site spurious residue p p' core h =>
    obtain ⟨h1, h2⟩ := popStep_claims h
    exact ⟨h2, .inl ⟨by simp [h1], .inl rfl⟩⟩
  case publish x pos => exact ⟨le_rfl, .inl ⟨by simp [Core.publish], .inl rfl⟩⟩
  case release site pos item =>
    refine ⟨by simp [Core.release], .inl ⟨rfl, .inl ?_⟩⟩
    cases site <;> rfl
  case empty site pos h =>
    refine ⟨le_rfl, .inl ⟨rfl, .inl ?_⟩⟩
    cases site <;> rfl
  case sawOpen x p hp h => rcases hp with rfl | rfl <;> exact ⟨le_rfl, .inl ⟨rfl, .inl rfl⟩⟩
  case sawClosed x p hp h => rcases hp with rfl | rfl <;> exact ⟨le_rfl, .inl ⟨rfl, .inl rfl⟩⟩
  case noSleeper x pos h =>
    exact ⟨le_rfl, .inl ⟨rfl, .inr ⟨rfl, rfl, x, pos, rfl, .inl ⟨rfl, h⟩⟩⟩⟩
  case skip x pos h =>
    exact ⟨le_rfl, .inl ⟨rfl, .inr ⟨rfl, rfl, x, pos, rfl, .inr (.inl ⟨rfl, h⟩)⟩⟩⟩
  case notify x pos =>
    exact ⟨le_rfl, .inl ⟨rfl, .inr ⟨rfl, rfl, x, pos, rfl, .inr (.inr ⟨rfl, rfl⟩)⟩⟩⟩
  all_goals exact ⟨le_rfl, .inl ⟨rfl, .inl rfl⟩⟩

theorem Local.tail_le (h : Local maxSpinners t g k g' k' w) :
    g.core.tailClaims.length ≤ g'.core.tailClaims.length := by
  rcases h.claims.2 with ⟨h, -⟩ | ⟨h, -⟩ <;> omega

end

section

variable [Inhabited T] [Fintype ι] [DecidableEq ι] {capacity : ℕ} {maxSpinners : ℤ}
  {s s' : State ι T} {a : Act ι T}

theorem claims_le (h : (queueMachine ι capacity maxSpinners).step s a = some s') :
    s.shared.core.tailClaims.length ≤ s'.shared.core.tailClaims.length ∧
      s.shared.core.headClaims.length ≤ s'.shared.core.headClaims.length := by
  obtain ⟨t, c, rfl, ht, rfl⟩ | ⟨t, ch, g', k, w, pc', rfl, hl, hw, rfl⟩ | ⟨t, r, rfl, ht, rfl⟩ :=
    step_cases h
  · exact ⟨le_rfl, le_rfl⟩
  · exact ⟨hl.tail_le, hl.claims.1⟩
  · exact ⟨le_rfl, le_rfl⟩

omit [Inhabited T] in
theorem Call.start_claimed (c : Call T) : c.start.claimed = none := by
  cases c <;> rfl

theorem bounded_of_step (h : (queueMachine ι capacity maxSpinners).step s a = some s')
    (hb : s'.shared.core.tailClaims.length < 2 ^ 63) :
    s.shared.core.tailClaims.length < 2 ^ 63 :=
  lt_of_le_of_lt (claims_le h).1 hb

/-- A push that holds a position has held it before, or it has just claimed the next one, and the
others hold what they held. -/
theorem claimed_of_step (hs : (queueMachine ι capacity maxSpinners).step s a = some s') {t : ι}
    {j : ℕ} (hj : (s'.pc t).claimed = some j) :
    (s.pc t).claimed = some j ∨
      s.shared.core.ring.tail = j ∧
        s'.shared.core.tailClaims.length = s.shared.core.tailClaims.length + 1 ∧
        ∀ u, u ≠ t → (s'.pc u).claimed = (s.pc u).claimed := by
  obtain ⟨u, c, rfl, hu, rfl⟩ | ⟨u, ch, g', k, w, pc', rfl, hl, hw, rfl⟩ | ⟨u, r, rfl, hu, rfl⟩ :=
    step_cases hs
  · rcases eq_or_ne t u with rfl | hne
    · simp only [Function.update_self, Call.start_claimed] at hj
      cases hj
    · simp only [Function.update_of_ne hne] at hj
      exact .inl hj
  · rcases eq_or_ne t u with rfl | hne
    · simp only [Function.update_self] at hj
      rcases hl.claims.2 with ⟨-, hk | ⟨hk, -⟩⟩ | ⟨hlen, -, hk⟩
      · exact .inl (hk ▸ hj)
      · rw [hk] at hj
        cases hj
      · rw [hk] at hj
        refine .inr ⟨Option.some.inj hj, hlen, fun v hv => ?_⟩
        simp only [Function.update_of_ne hv, hw.same (f := ThreadPc.claimed) rfl]
    · simp only [Function.update_of_ne hne, hw.same (f := ThreadPc.claimed) rfl] at hj
      exact .inl hj
  · rcases eq_or_ne t u with rfl | hne
    · simp only [Function.update_self] at hj
      cases hj
    · simp only [Function.update_of_ne hne] at hj
      exact .inl hj

/-- **A push that holds a position holds a claimed one.** -/
theorem claimed_lt (h2 : 2 ≤ capacity)
    (h : (queueMachine ι capacity maxSpinners).Reachable s)
    (hb : s.shared.core.tailClaims.length < 2 ^ 63) {t : ι} {j : ℕ}
    (hj : (s.pc t).claimed = some j) : j < s.shared.core.tailClaims.length := by
  induction h generalizing t with
  | init hi =>
    obtain ⟨r, -, rfl⟩ := hi
    cases hj
  | @step s s' a hr _ hs ih =>
    have hb' := bounded_of_step hs hb
    rcases claimed_of_step hs hj with hj | ⟨hj, hlen, -⟩
    · exact lt_of_lt_of_le (ih hb' hj) (claims_le hs).1
    · have htail := (ringInv h2 hr hb').tail_eq
      omega

/-- **No two pushes hold one position.** -/
theorem claimed_unique (h2 : 2 ≤ capacity)
    (h : (queueMachine ι capacity maxSpinners).Reachable s)
    (hb : s.shared.core.tailClaims.length < 2 ^ 63) {t u : ι} {j : ℕ}
    (ht : (s.pc t).claimed = some j) (hu : (s.pc u).claimed = some j) : t = u := by
  induction h with
  | init hi =>
    obtain ⟨r, -, rfl⟩ := hi
    cases ht
  | @step s s' a hr _ hs ih =>
    have hb' := bounded_of_step hs hb
    have htail := (ringInv h2 hr hb').tail_eq
    have hold : ∀ {v}, (s.pc v).claimed = some j → s.shared.core.ring.tail ≠ j := fun hv => by
      have := claimed_lt h2 hr hb' hv
      omega
    rcases claimed_of_step hs ht with ht' | ⟨hj, -, hothers⟩
    · rcases claimed_of_step hs hu with hu' | ⟨hj, -⟩
      · exact ih hb' ht' hu'
      · exact absurd hj (hold ht')
    · by_contra hne
      exact hold ((hothers u (Ne.symm hne)).symm.trans hu) hj

end

end OrderRisk.Queue
