import OrderRisk.Lib.Leads
import OrderRisk.Queue.Closing

/-!
# What the calls of the queue have left to do

`State.cost` is what all the calls have left to do.  No step inside the calls raises it (`Local.cost`),
and a thread that is `committed` lowers it with its next step; the others look for something: a `push`
for a cell, a `pop` for an item or for the end.  Whatever the state, `parkMtx_` can be given back
(`mutex_free`), and then a committed thread goes on (`committed_alone`).
-/

namespace OrderRisk.Queue

open OrderRisk.Lib

variable {ι T : Type*}

/-! ### What is left to do -/

def PushAt.cost : PushAt → ℕ
  | .tryPush (.move _) => 10
  | .tryPush (.publish _) => 9
  | .leave _ => 8
  | .readSleepers _ => 7
  | .readSpinners _ => 6
  | .lock _ => 5
  | .unlock _ => 4
  | .notify _ => 3
  | .reject => 2
  | _ => 19

def PopAt.cost : PopAt T → ℕ
  | .tryPop _ (.move _) => 9
  | .tryPop _ (.clear _ _) => 8
  | .tryPop _ (.publish _ _) => 7
  | .spinOk _ => 6
  | .recheckOk _ => 6
  | _ => 2

/-- What a thread has left to do; looking for a cell or an item does not count. -/
def ThreadPc.cost : ThreadPc T → ℕ
  | .idle => 0
  | .push _ p => p.cost
  | .pop p => p.cost
  | .shutdown .store => 5
  | .shutdown .lock => 4
  | .shutdown .unlock => 3
  | .shutdown .notifyAll => 2
  | .returned (.popped (some _)) => 5
  | .returned _ => 1

/-- The thread has found what it looks for. -/
def ThreadPc.committed : ThreadPc T → Bool
  | .push _ p => decide (p.cost < 19)
  | .pop p => decide (2 < p.cost)
  | .shutdown _ => true
  | _ => false

/-- Positions claimed by a push and by no pop. -/
def Core.pending (c : Core ι T) : ℕ := c.tailClaims.length - c.headClaims.length

/-- What the calls have left to do; each pending position will cost a pop. -/
def State.cost [Fintype ι] (s : State ι T) : ℕ :=
  ∑ t, (s.pc t).cost + 8 * s.shared.core.pending

section

variable [Inhabited T] {maxSpinners : ℤ} {t : ι} {g g' : Shared ι T} {k k' : ThreadPc T} {w : Wake}
  {pc : ι → RingPc T}

/-- **The cost of a step**: one at least, if the thread is committed; otherwise the thread finds
something, or only looks on. -/
theorem Local.cost (h : Local maxSpinners t g k g' k' w) (hr : RingInv g.core pc)
    (hk : pc t = k.ring) :
    k'.cost + 8 * g'.core.pending < k.cost + 8 * g.core.pending ∨
      k.committed = false ∧ k'.committed = false ∧ k'.cost = k.cost ∧ g'.core = g.core ∧
        w = .nobody := by
  have hle := hr.head_le
  cases h
  case tryPush x spurious p p' core h =>
    cases p with
    | load =>
      cases h
      exact .inr ⟨rfl, rfl, rfl, rfl, rfl⟩
    | loadSeq pos =>
      simp only [pushStep, Prod.mk.injEq] at h
      obtain ⟨rfl, h⟩ := h
      split_ifs at h <;> cases h <;> exact .inr ⟨rfl, rfl, rfl, rfl, rfl⟩
    | cas pos =>
      simp only [pushStep] at h
      split_ifs at h <;> cases h
      · left
        simp only [ThreadPc.cost, PushAt.cost, Core.pending, Core.claimTail, List.length_append,
          List.length_singleton]
        omega
      · exact .inr ⟨rfl, rfl, rfl, rfl, rfl⟩
    | move pos =>
      cases h
      exact .inl (by simp [ThreadPc.cost, PushAt.cost, Core.pending, Core.setData])
    | publish pos => cases h
  case publish x pos =>
    exact .inl (by simp [ThreadPc.cost, PushAt.cost, Core.pending, Core.publish, Core.setSeq])
  case sawOpen x p hp h => rcases hp with rfl | rfl <;> exact .inr ⟨rfl, rfl, rfl, rfl, rfl⟩
  case sawClosed x p hp h =>
    rcases hp with rfl | rfl <;> exact .inl (by simp [ThreadPc.cost, PushAt.cost])
  case popLock p hp h => rcases hp with rfl | rfl <;> exact .inr ⟨rfl, rfl, rfl, rfl, rfl⟩
  case tryPop site spurious residue p p' core h =>
    cases p with
    | load =>
      cases h
      exact .inr ⟨rfl, rfl, rfl, rfl, rfl⟩
    | loadSeq pos =>
      simp only [popStep, Prod.mk.injEq] at h
      obtain ⟨rfl, h⟩ := h
      split_ifs at h <;> cases h <;> exact .inr ⟨rfl, rfl, rfl, rfl, rfl⟩
    | cas pos =>
      simp only [popStep] at h
      split_ifs at h with hc <;> cases h
      · -- the claimed position has been filled
        have hf := hr.pcOk t
        rw [hk] at hf
        have hlt : pos < g.core.tailClaims.length := Core.filled_lt hf
        have hpos : g.core.headClaims.length = pos := by rw [← hr.head_eq, hc.1]
        left
        simp only [ThreadPc.cost, PopAt.cost, Core.pending, Core.claimHead, List.length_append,
          List.length_singleton]
        omega
      · exact .inr ⟨rfl, rfl, rfl, rfl, rfl⟩
    | move pos =>
      cases h
      exact .inl (by simp [ThreadPc.cost, PopAt.cost, Core.pending, Core.take, Core.setData])
    | clear pos v =>
      cases h
      exact .inl (by simp [ThreadPc.cost, PopAt.cost, Core.pending, Core.setData])
    | publish pos v => cases h
  case release site pos item =>
    left
    cases site <;>
      simp [Site.onItem, ThreadPc.cost, PopAt.cost, Core.pending, Core.release, Core.setSeq]
  case empty site pos h =>
    cases site
    case last => exact .inl (by simp [Site.onEmpty, ThreadPc.cost, PopAt.cost])
    all_goals exact .inr ⟨rfl, rfl, rfl, rfl, rfl⟩
  case enter => exact .inr ⟨rfl, rfl, rfl, rfl, rfl⟩
  case full => exact .inr ⟨rfl, rfl, rfl, rfl, rfl⟩
  all_goals first
    | exact .inr ⟨rfl, rfl, rfl, rfl, rfl⟩
    | exact .inl (by simp [ThreadPc.cost, PushAt.cost, PopAt.cost])

def ThreadPc.holdSteps : ThreadPc T → ℕ
  | .pop .loadTail => 4
  | .pop (.loadHead _) => 3
  | .pop (.predShutdown _) => 2
  | _ => 1

theorem Local.holdSteps (h : Local maxSpinners t g k g' k' w) (hk : k.holding = true)
    (hk' : k'.holding = true) : k'.holdSteps < k.holdSteps := by
  cases h
  case loadTail => exact Nat.lt_succ_self 3
  case sawWork tl h => exact Nat.one_lt_succ_succ 1
  case sawNone tl h => exact Nat.lt_succ_self 2
  case predTrue tl h => exact Nat.lt_succ_self 1
  case predFalse tl h => exact Nat.lt_succ_self 1
  case release site pos item => cases hk
  case empty site pos h => cases hk
  case popLock p hp h => rcases hp with rfl | rfl <;> cases hk
  all_goals first | (cases hk; done) | cases hk'

end

/-! ### Steps in which nothing goes wrong -/

def ThreadPc.inCall : ThreadPc T → Bool
  | .idle => false
  | .returned _ => false
  | _ => true

def ThreadPc.locking : ThreadPc T → Bool
  | .push _ (.lock _) => true
  | .pop .lock => true
  | .pop .woken => true
  | .shutdown .lock => true
  | _ => false

theorem ThreadPc.of_holding {k : ThreadPc T} (h : k.holding = true) :
    k.inCall = true ∧ k ≠ .pop .waiting ∧ k.locking = false ∧ k.trying = false := by
  unfold ThreadPc.holding at h
  split at h <;> first | exact ⟨rfl, by simp, rfl, rfl⟩ | cases h

theorem ThreadPc.of_committed {k : ThreadPc T} (h : k.committed = true) :
    k.inCall = true ∧ k ≠ .pop .waiting := by
  rcases k with _ | ⟨x, p⟩ | p | p | r
  · cases h
  · exact ⟨rfl, by simp⟩
  · refine ⟨rfl, fun he => ?_⟩
    cases he
    cases h
  · exact ⟨rfl, by simp⟩
  · cases h

theorem ThreadPc.committed_of_claimed {k : ThreadPc T} {pos : ℕ} (h : k.claimed = some pos) :
    k.committed = true := by
  unfold ThreadPc.claimed at h
  split at h <;> first | rfl | cases h

/-- A step inside a call: no CAS fails for no reason, and nobody wakes for no reason. -/
def Onward (s : State ι T) : Act ι T → Prop
  | .step t ch => ch.spurious = false ∧ s.pc t ≠ .pop .waiting
  | _ => False

section

variable [Inhabited T] {maxSpinners : ℤ} {t : ι} {g : Shared ι T} {k : ThreadPc T}

theorem threadStep_isSome (maxSpinners : ℤ) (t : ι) (hk : k.inCall = true) (hm : k.locking = true → g.parkMtx = none) :
    (threadStep maxSpinners t ⟨false, default, none⟩ g k).isSome = true := by
  rcases k with _ | ⟨x, p⟩ | p | p | r
  · cases hk
  · cases p with
    | lock pos => simp [threadStep, pushAtStep, hm rfl]
    | tryPush p =>
      simp only [threadStep, pushAtStep]
      split <;> rfl
    | _ => rfl
  · cases p with
    | lock => simp [threadStep, popAtStep, hm rfl]
    | woken => simp [threadStep, popAtStep, hm rfl]
    | tryPop site p =>
      simp only [threadStep, popAtStep]
      split <;> rfl
    | _ => rfl
  · cases p with
    | lock => simp [threadStep, shutdownAtStep, hm rfl]
    | _ => rfl
  · cases hk

theorem threadStep_wake (wake : Option ι) :
    threadStep maxSpinners t ⟨false, default, wake⟩ g k =
      threadStep maxSpinners t ⟨false, default, none⟩ g k := by
  rcases k with _ | ⟨x, p⟩ | p | p | r
  · rfl
  · cases p <;> rfl
  · cases p <;> rfl
  · rfl
  · rfl

end

section

variable [Fintype ι] [DecidableEq ι]

theorem exists_wakeUp (pc : ι → ThreadPc T) (w : Wake) : ∃ wake pc', wakeUp pc wake w = some pc' := by
  cases w with
  | nobody => exact ⟨none, pc, rfl⟩
  | one =>
    by_cases h : ∃ u, (pc u).isWaiting = true
    · obtain ⟨u, hu⟩ := h
      exact ⟨some u, _, if_pos hu⟩
    · refine ⟨none, pc, if_pos fun u => ?_⟩
      simpa using fun hu => h ⟨u, hu⟩
  | all => exact ⟨none, _, rfl⟩

theorem cost_update {s : State ι T} {t : ι} {g : Shared ι T} {k : ThreadPc T} {w : Wake}
    {pc' : ι → ThreadPc T} (hw : Woken s.pc w pc') :
    (⟨g, Function.update pc' t k⟩ : State ι T).cost + (s.pc t).cost + 8 * s.shared.core.pending =
      s.cost + k.cost + 8 * g.core.pending := by
  have h := sum_update_add ThreadPc.cost pc' t k
  have hs : ∑ u, (pc' u).cost = ∑ u, (s.pc u).cost := Finset.sum_congr rfl fun u _ => hw.same rfl u
  rw [hs, hw.same (f := ThreadPc.cost) rfl] at h
  unfold State.cost
  dsimp only
  omega

variable [Inhabited T] {capacity : ℕ} {maxSpinners : ℤ} {s : State ι T} {t : ι}

theorem exists_onward (capacity : ℕ) (maxSpinners : ℤ) (hk : (s.pc t).inCall = true) (hw : s.pc t ≠ .pop .waiting)
    (hm : (s.pc t).locking = true → s.shared.parkMtx = none) :
    ∃ a g' k w pc', Onward s a ∧
      (queueMachine ι capacity maxSpinners).step s a = some ⟨g', Function.update pc' t k⟩ ∧
      threadStep maxSpinners t ⟨false, default, none⟩ s.shared (s.pc t) = some (g', k, w) ∧
      Woken s.pc w pc' := by
  obtain ⟨⟨g', k, w⟩, hl⟩ := Option.isSome_iff_exists.mp
    (threadStep_isSome maxSpinners t hk hm)
  obtain ⟨wake, pc', hp⟩ := exists_wakeUp s.pc w
  refine ⟨.step t ⟨false, default, wake⟩, g', k, w, pc', ⟨rfl, hw⟩, ?_, hl, woken_of_wakeUp hp⟩
  simp [queueMachine, threadStep_wake, hl, hp]

theorem onward_cost (h2 : 2 ≤ capacity) (h : (queueMachine ι capacity maxSpinners).Reachable s)
    (hb : s.shared.core.tailClaims.length < 2 ^ 63) {g' : Shared ι T} {k : ThreadPc T} {w : Wake}
    {pc' : ι → ThreadPc T}
    (hl : Local maxSpinners t s.shared (s.pc t) g' k w) (hw : Woken s.pc w pc') :
    (⟨g', Function.update pc' t k⟩ : State ι T).cost < s.cost ∨
      (s.pc t).committed = false ∧ k.committed = false ∧ k.cost = (s.pc t).cost ∧
        g'.core = s.shared.core ∧ w = .nobody ∧
          (⟨g', Function.update pc' t k⟩ : State ι T).cost = s.cost := by
  have hu := cost_update (t := t) (g := g') (k := k) hw
  rcases hl.cost (ringInv h2 h hb) rfl with hlt | ⟨h1, h2, h3, h4, h5⟩
  · exact .inl (by omega)
  · rw [h3, h4] at hu
    exact .inr ⟨h1, h2, h3, h4, h5, by omega⟩

/-- **The mutex is given back**, and nothing has become more costly. -/
theorem mutex_free (h2 : 2 ≤ capacity) (h : (queueMachine ι capacity maxSpinners).Reachable s)
    (hb : s.shared.core.tailClaims.length < 2 ^ 63) :
    ∃ s', (queueMachine ι capacity maxSpinners).Leads Onward s s' ∧ s'.cost ≤ s.cost ∧
      s'.shared.parkMtx = none := by
  refine (Machine.Leads.of_rank (P := fun s' => (queueMachine ι capacity maxSpinners).Reachable s' ∧
    s'.shared.core.tailClaims.length < 2 ^ 63 ∧ s'.cost ≤ s.cost)
    (fun s' => (s'.shared.parkMtx).elim 0 fun v => (s'.pc v).holdSteps) ?_ ⟨h, hb, le_rfl⟩).imp
    fun s' ⟨hs', ⟨_, _, hle⟩, hm⟩ => ⟨hs', hle, hm⟩
  rintro s ⟨hr, hb, hle⟩ hm
  obtain ⟨v, hv⟩ := Option.ne_none_iff_exists'.mp hm
  have hc := counters_of_reachable hr
  have hhold := (hc.mutex v).mpr hv
  have hin := ThreadPc.of_holding hhold
  obtain ⟨a, g', k, w, pc', ha, hs, hl, hw⟩ := exists_onward capacity maxSpinners hin.1
    hin.2.1 (by simp [hin.2.2.1])
  have hl := local_of_threadStep hl
  have hcost := onward_cost h2 hr hb hl hw
  refine ⟨_, .single ha hs, ⟨hr.step trivial hs, ?_, ?_⟩, ?_⟩
  · dsimp only
    rw [hl.tailClaims_eq hin.2.2.2]
    exact hb
  · rcases hcost with hlt | ⟨-, -, -, -, -, he⟩ <;> omega
  · dsimp only
    rcases hl.mutex with ⟨h1, h2⟩ | ⟨h1, -⟩ | ⟨h1, -⟩
    · right
      rw [h1, hv, Option.elim_some, Option.elim_some, Function.update_self]
      exact hl.holdSteps hhold (h2.trans hhold)
    · exact absurd h1 hm
    · exact .inl h1

/-- **A committed thread goes on.** -/
theorem committed_alone (h2 : 2 ≤ capacity) (h : (queueMachine ι capacity maxSpinners).Reachable s)
    (hb : s.shared.core.tailClaims.length < 2 ^ 63) (hm : s.shared.parkMtx = none)
    (ht : (s.pc t).committed = true) :
    ∃ s', (queueMachine ι capacity maxSpinners).Leads Onward s s' ∧ s'.cost < s.cost := by
  have hin := ThreadPc.of_committed ht
  obtain ⟨a, g', k, w, pc', ha, hs, hl, hw⟩ := exists_onward capacity maxSpinners hin.1
    hin.2 (fun _ => hm)
  refine ⟨_, .single ha hs, (onward_cost h2 h hb (local_of_threadStep hl) hw).resolve_right ?_⟩
  rintro ⟨h1, -⟩
  rw [ht] at h1
  cases h1

end

end OrderRisk.Queue
