import OrderRisk.Queue.Closing
import OrderRisk.Queue.Wakeup

/-!
# Who looks at the ring, and who sleeps

A thread's `Role` forgets everything but its part in waiting for work, and `Shift` lists what a step
does to the roles, to the claims, and to the position that the thread's push has claimed.
-/

namespace OrderRisk.Queue

open OrderRisk.Lib

variable {ι T : Type*}

/-- A thread's part in waiting for work. -/
inductive Role where
  | bystander
  /-- In `pop`, awake, without an item, and about to look at the ring. -/
  | searching
  /-- In the wait predicate, with `tail_` loaded. -/
  | looking (tl : ℕ)
  /-- In the wait predicate, having found the ring empty. -/
  | stale (tl : ℕ)
  /-- Blocked in `wait`, not notified. -/
  | blocked
  deriving DecidableEq

def ThreadPc.role : ThreadPc T → Role
  | .pop (.tryPop _ (.move _)) => .bystander
  | .pop (.tryPop _ (.clear _ _)) => .bystander
  | .pop (.tryPop _ (.publish _ _)) => .bystander
  | .pop (.spinOk _) => .bystander
  | .pop (.recheckOk _) => .bystander
  | .pop (.loadHead tl) => .looking tl
  | .pop (.predShutdown tl) => .stale tl
  | .pop (.park tl) => .stale tl
  | .pop .waiting => .blocked
  | .pop _ => .searching
  | _ => .bystander

/-- What a step of a thread, from `k` to `k'`, does to its role, whom it wakes, and by how much the
claims of `tail_` and of `head_` grow. -/
inductive Shift (g : Shared ι T) (k k' : ThreadPc T) : Role → Role → Wake → ℕ → ℕ → Prop
  | stay (r : Role) (hk : k'.claimed = k.claimed) : Shift g k k' r r .nobody 0 0
  | claim (hk : k'.claimed = some g.core.ring.tail) : Shift g k k' .bystander .bystander .nobody 1 0
  | unseen (h : g.sleepers ≤ 0) : Shift g k k' .bystander .bystander .nobody 0 0
  | skip (x : T) (pos : ℕ) (hk : k = .push x (.readSpinners pos)) (h : g.spinners ≠ 0) :
      Shift g k k' .bystander .bystander .nobody 0 0
  | notify (pos : ℕ) (hk : k.locked = some pos) : Shift g k k' .bystander .bystander .one 0 0
  | taken (site : Site) (pos : ℕ) (hk : k = .pop (.tryPop site (.cas pos))) :
      Shift g k k' .searching .bystander .nobody 0 1
  | gaveUp (hk : k' = .returned (.popped none)) : Shift g k k' .searching .bystander .nobody 0 0
  | look (hk : k = .pop .loadTail) :
      Shift g k k' .searching (.looking g.core.ring.tail) .nobody 0 0
  | found (tl : ℕ) (h : g.core.ring.head < tl) : Shift g k k' (.looking tl) .searching .nobody 0 0
  | missed (tl : ℕ) (h : tl ≤ g.core.ring.head) :
      Shift g k k' (.looking tl) (.stale tl) .nobody 0 0
  | shut (tl : ℕ) : Shift g k k' (.stale tl) .searching .nobody 0 0
  | park (tl : ℕ) : Shift g k k' (.stale tl) .blocked .nobody 0 0
  | spurious : Shift g k k' .blocked .searching .nobody 0 0
  | notifyAll (hk : k'.claimed = k.claimed) : Shift g k k' .bystander .bystander .all 0 0

section

variable [Inhabited T] {maxSpinners : ℤ} {t : ι} {g g' : Shared ι T} {k k' : ThreadPc T} {w : Wake}

/-- **What a step does to the roles.** -/
theorem Local.shift (h : Local maxSpinners t g k g' k' w) :
    ∃ a b, g'.core.tailClaims.length = g.core.tailClaims.length + a ∧
      g'.core.headClaims.length = g.core.headClaims.length + b ∧
      Shift g k k' k.role k'.role w a b := by
  cases h
  case tryPush x spurious p p' core h =>
    cases p with
    | cas pos =>
      simp only [pushStep] at h
      split_ifs at h <;> cases h
      · next h0 => exact ⟨1, 0, by simp [Core.claimTail], rfl, .claim (congrArg some h0.1.symm)⟩
      · exact ⟨0, 0, rfl, rfl, .stay _ rfl⟩
    | loadSeq pos =>
      simp only [pushStep, Prod.mk.injEq] at h
      obtain ⟨rfl, h⟩ := h
      split_ifs at h <;> cases h <;> exact ⟨0, 0, rfl, rfl, .stay _ rfl⟩
    | publish pos => cases h
    | _ =>
      cases h
      exact ⟨0, 0, rfl, rfl, .stay _ rfl⟩
  case tryPop site spurious residue p p' core h =>
    cases p with
    | cas pos =>
      simp only [popStep] at h
      split_ifs at h <;> cases h
      · exact ⟨0, 1, rfl, by simp [Core.claimHead], .taken site pos rfl⟩
      · exact ⟨0, 0, rfl, rfl, .stay _ rfl⟩
    | loadSeq pos =>
      simp only [popStep, Prod.mk.injEq] at h
      obtain ⟨rfl, h⟩ := h
      split_ifs at h <;> cases h <;> exact ⟨0, 0, rfl, rfl, .stay _ rfl⟩
    | publish pos out => cases h
    | load =>
      cases h
      exact ⟨0, 0, rfl, rfl, .stay _ rfl⟩
    | move pos =>
      cases h
      exact ⟨0, 0, rfl, by simp [Core.take], .stay _ rfl⟩
    | clear pos out =>
      cases h
      exact ⟨0, 0, rfl, rfl, .stay _ rfl⟩
  case publish x pos => exact ⟨0, 0, by simp [Core.publish], rfl, .stay _ rfl⟩
  case release site pos item =>
    refine ⟨0, 0, rfl, by simp [Core.release], ?_⟩
    cases site <;> exact .stay _ rfl
  case empty site pos h =>
    cases site with
    | last => exact ⟨0, 0, rfl, rfl, .gaveUp rfl⟩
    | _ => exact ⟨0, 0, rfl, rfl, .stay _ rfl⟩
  case sawClosed x p hp h => rcases hp with rfl | rfl <;> exact ⟨0, 0, rfl, rfl, .stay _ rfl⟩
  case sawOpen x p hp h => rcases hp with rfl | rfl <;> exact ⟨0, 0, rfl, rfl, .stay _ rfl⟩
  case popLock p hp h => rcases hp with rfl | rfl <;> exact ⟨0, 0, rfl, rfl, .stay _ rfl⟩
  case noSleeper x pos h => exact ⟨0, 0, rfl, rfl, .unseen h⟩
  case skip x pos h => exact ⟨0, 0, rfl, rfl, .skip x pos rfl h⟩
  case notify x pos => exact ⟨0, 0, rfl, rfl, .notify pos rfl⟩
  case loadTail => exact ⟨0, 0, rfl, rfl, .look rfl⟩
  case sawWork tl h => exact ⟨0, 0, rfl, rfl, .found tl h⟩
  case sawNone tl h => exact ⟨0, 0, rfl, rfl, .missed tl h⟩
  case predTrue tl h => exact ⟨0, 0, rfl, rfl, .shut tl⟩
  case park tl => exact ⟨0, 0, rfl, rfl, .park tl⟩
  case spuriousWake => exact ⟨0, 0, rfl, rfl, .spurious⟩
  case notifyAll => exact ⟨0, 0, rfl, rfl, .notifyAll rfl⟩
  all_goals exact ⟨0, 0, rfl, rfl, .stay _ rfl⟩

theorem Local.role_of_waking (h : Local maxSpinners t g k g' k' w) (hw : w ≠ .nobody) :
    k.role = .bystander := by
  cases h <;> first | rfl | exact absurd rfl hw

end

theorem ThreadPc.claimed_of_role {k : ThreadPc T} (h : k.role ≠ .bystander) : k.claimed = none := by
  unfold ThreadPc.role at h
  split at h <;> first | rfl | exact absurd rfl h

theorem ThreadPc.role_eq_blocked {k : ThreadPc T} : k.role = .blocked ↔ k = .pop .waiting := by
  constructor
  · intro h
    unfold ThreadPc.role at h
    split at h <;> first | rfl | cases h
  · rintro rfl
    rfl

theorem ThreadPc.sawNone_of_role {k : ThreadPc T} {tl : ℕ} (h : k.role = .stale tl) :
    k.sawNone = some tl := by
  unfold ThreadPc.role at h
  split at h <;> cases h <;> rfl

theorem ThreadPc.popping_of_role {k : ThreadPc T} (h : k.role = .searching ∨
    ∃ tl, k.role = .looking tl) : k.popping = true := by
  unfold ThreadPc.role at h
  split at h <;> first | rfl | simp at h

/-- The `tail_` that a wait predicate under way has loaded. -/
def Role.look : Role → Option ℕ
  | .looking tl => some tl
  | .stale tl => some tl
  | _ => none

theorem ThreadPc.look_role (k : ThreadPc T) : k.role.look = k.looked := by
  cases k with
  | pop p =>
    cases p with
    | tryPop site p => cases p <;> rfl
    | _ => rfl
  | _ => rfl

/-- In the wait predicate, which will find work if `head_` stays what it is. -/
def Role.sees (head : ℕ) : Role → Bool
  | .looking tl => head < tl
  | _ => false

/-! ### Counting -/

section

variable [Fintype ι]

/-- How many threads have a role. -/
def count (p : Role → Bool) (pc : ι → ThreadPc T) : ℤ := weight (fun k => p k.role) pc

variable {pc pc' : ι → ThreadPc T} {p : Role → Bool} {t : ι} {k : ThreadPc T} {w : Wake}

theorem count_nonneg : 0 ≤ count p pc := weight_nonneg _ _

theorem count_pos (h : p (pc t).role = true) : 0 < count p pc :=
  weight_pos (p := fun k : ThreadPc T => p k.role) h

theorem count_update [DecidableEq ι] : count p (Function.update pc t k) =
    count p pc - (if p (pc t).role then 1 else 0) + (if p k.role then 1 else 0) :=
  weight_update _ pc t k

/-- Waking moves threads from one role to the other. -/
theorem Woken.counts [DecidableEq ι] (h : Woken pc w pc') : ∃ d : ℤ, 0 ≤ d ∧
    count (· = .searching) pc' = count (· = .searching) pc + d ∧
    count (· = .blocked) pc' = count (· = .blocked) pc - d ∧
    (∀ p : Role → Bool, p .blocked = p .searching → count p pc' = count p pc) ∧
    (w = .one → 0 < count (· = .blocked) pc → 0 < d) := by
  have hblocked : ∀ u, (pc' u).role = .blocked → (pc u).role = .blocked := by
    intro u hu
    rcases h.cases u with he | ⟨-, h2⟩
    · rwa [← he]
    · rw [h2] at hu
      cases hu
  have hsame : ∀ p : Role → Bool, p .blocked = p .searching →
      count p pc' = count p pc := by
    intro p hp
    have hrole : ∀ u, p (pc' u).role = p (pc u).role := by
      intro u
      rcases h.cases u with he | ⟨h1, h2⟩
      · rw [he]
      · rw [h1, h2]
        exact hp.symm
    exact Finset.sum_congr rfl fun u _ => by simp only [hrole u]
  have hdisj : ∀ k : ThreadPc T, decide (k.role = .searching) = true →
      decide (k.role = .blocked) = false := by
    intro k hk
    simp_all
  have hsum : ∀ q : ι → ThreadPc T, count (· = .searching) q + count (· = .blocked) q =
      count (fun r => r = .searching || r = .blocked) q := fun q => weight_add hdisj
  have h1 := hsum pc
  have h2 := hsum pc'
  rw [hsame (fun r => r = .searching || r = .blocked) rfl] at h2
  refine ⟨count (· = .blocked) pc - count (· = .blocked) pc', ?_, by omega, by omega, hsame, ?_⟩
  · have : count (· = .blocked) pc' ≤ count (· = .blocked) pc :=
      weight_mono fun u hu => by simpa using hblocked u (by simpa using hu)
    omega
  · intro hone hpos
    rcases h.one hone with ⟨u, hu, hu'⟩ | hn
    · have hle : count (· = .blocked) pc' ≤ count (· = .blocked) (Function.update pc u (.pop .woken)) := by
        refine weight_mono fun v hv => ?_
        rcases eq_or_ne v u with rfl | hne
        · simp [hu', ThreadPc.role] at hv
        · rw [Function.update_of_ne hne]
          simpa using hblocked v (by simpa using hv)
      rw [count_update, hu] at hle
      simp [ThreadPc.role] at hle
      omega
    · obtain ⟨u, hu⟩ := exists_of_weight_pos hpos
      exact absurd (ThreadPc.role_eq_blocked.mp (by simpa using hu)) (hn u)

end

end OrderRisk.Queue
