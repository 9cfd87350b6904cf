import OrderRisk.Queue.Claims

/-!
# No lost wake-up

Whoever may go to sleep without having seen position `k` of the ring is `asleep k`.  As long as
`k` is in the ring, some worker is not, or the push of `k` is still at its wake-up handshake
(`Attended.cover`): the push leaves it having seen no sleeper, or a spinner, or with a
notification sent behind the mutex.
-/

namespace OrderRisk.Queue

open OrderRisk.Lib

variable {ι T : Type*}

/-! ### What threads know of a position -/

/-- The push has taken the mutex for its notification. -/
def ThreadPc.locked : ThreadPc T → Option ℕ
  | .push _ (.unlock pos) => some pos
  | .push _ (.notify pos) => some pos
  | _ => none

/-- The `tail_` that a wait predicate under way has loaded. -/
def ThreadPc.looked : ThreadPc T → Option ℕ
  | .pop (.loadHead tl) => some tl
  | .pop (.predShutdown tl) => some tl
  | .pop (.park tl) => some tl
  | _ => none

def ThreadPc.sawNone : ThreadPc T → Option ℕ
  | .pop (.predShutdown tl) => some tl
  | .pop (.park tl) => some tl
  | _ => none

/-- Blocked, or may block without looking at position `j` again. -/
def ThreadPc.asleep (j : ℕ) (k : ThreadPc T) : Bool :=
  k.isWaiting || k.looked.any (· ≤ j)

def ThreadPc.popping : ThreadPc T → Bool
  | .pop _ => true
  | _ => false

/-- The item of position `j` has been pushed and not been taken out. -/
def State.InRing (s : State ι T) (j : ℕ) : Prop :=
  j < s.shared.core.tailClaims.length ∧
    ∀ k : HeadClaim ι T, s.shared.core.headClaims[j]? = some k → k.out = none

/-- The push that claimed position `j` has returned. -/
def State.PushReturned (s : State ι T) (j : ℕ) : Prop := ∀ t, (s.pc t).claimed ≠ some j

/-- `pop` is called by workers only. -/
def PopsBy (worker : ι → Prop) : State ι T → Act ι T → Prop
  | _, .call t .pop => worker t
  | _, _ => True

/-! ### Steps -/

section

variable [Inhabited T] {maxSpinners : ℤ} {t : ι} {g g' : Shared ι T} {k k' : ThreadPc T} {w : Wake}

theorem Local.popping (h : Local maxSpinners t g k g' k' w) (hk : k'.popping = true) :
    k.popping = true := by
  cases h
  case release site pos item => rfl
  case empty site pos h => rfl
  all_goals first | rfl | exact hk

/-- A thread falls asleep on position `j` by loading a `tail_` that is not past it, or by blocking
after a look that was. -/
theorem Local.asleep {j : ℕ} (h : Local maxSpinners t g k g' k' w) (hk : k.asleep j = false)
    (hk' : k'.asleep j = true) :
    g.core.ring.tail ≤ j ∨ ∃ tl, k.sawNone = some tl ∧ j < tl := by
  cases h
  case release site pos item => cases site <;> cases hk'
  case empty site pos h => cases site <;> cases hk'
  case loadTail =>
    left
    simpa [ThreadPc.asleep, ThreadPc.isWaiting, ThreadPc.looked] using hk'
  case park tl =>
    right
    refine ⟨tl, rfl, ?_⟩
    simpa [ThreadPc.asleep, ThreadPc.isWaiting, ThreadPc.looked] using hk
  case sawNone tl h =>
    exfalso
    simp only [ThreadPc.asleep, ThreadPc.isWaiting, ThreadPc.looked] at hk hk'
    rw [hk] at hk'
    cases hk'
  case predFalse tl h =>
    exfalso
    simp only [ThreadPc.asleep, ThreadPc.isWaiting, ThreadPc.looked] at hk hk'
    rw [hk] at hk'
    cases hk'
  all_goals cases hk'

theorem Local.sawNone_le {tl : ℕ} (h : Local maxSpinners t g k g' k' w)
    (hk' : k'.sawNone = some tl) : k.sawNone = some tl ∨ tl ≤ g.core.ring.head := by
  cases h
  case release site pos item => cases site <;> cases hk'
  case empty site pos h => cases site <;> cases hk'
  case sawNone tl' h =>
    cases hk'
    exact .inr h
  case predFalse tl' h => exact .inl hk'
  all_goals cases hk'

theorem Local.looked {tl : ℕ} (h : Local maxSpinners t g k g' k' w)
    (hk' : k'.looked = some tl) : k.looked = some tl ∨ tl = g.core.ring.tail := by
  cases h
  case release site pos item => cases site <;> cases hk'
  case empty site pos h => cases site <;> cases hk'
  case loadTail =>
    cases hk'
    exact .inr rfl
  case sawNone tl' h => exact .inl hk'
  case predFalse tl' h => exact .inl hk'
  all_goals cases hk'

theorem Local.locked {j : ℕ} (h : Local maxSpinners t g k g' k' w)
    (hk' : k'.locked = some j) : k.locked = some j ∨ k.claimed = some j ∧ g.parkMtx = none := by
  cases h
  case release site pos item => cases site <;> cases hk'
  case empty site pos h => cases site <;> cases hk'
  case pushLock x pos h =>
    cases hk'
    exact .inr ⟨rfl, h⟩
  case pushUnlock x pos => exact .inl hk'
  all_goals cases hk'

end

theorem ThreadPc.claimed_of_locked {k : ThreadPc T} {j : ℕ} (h : k.locked = some j) :
    k.claimed = some j := by
  unfold ThreadPc.locked at h
  split at h <;> first | exact h | cases h

theorem ThreadPc.looked_of_locked {k : ThreadPc T} {j : ℕ} (h : k.locked = some j) :
    k.looked = none := by
  unfold ThreadPc.locked at h
  split at h <;> first | rfl | cases h

section

variable {pc pc' : ι → ThreadPc T} {w : Wake}

theorem Woken.asleep (h : Woken pc w pc') {u : ι} {j : ℕ} (hu : (pc u).asleep j = false) :
    (pc' u).asleep j = false := by
  rcases h.cases u with he | ⟨-, h2⟩
  · rw [he]
    exact hu
  · rw [h2]
    rfl

end

/-! ### The invariant -/

/-- Every position in the ring is attended to. -/
structure Attended (worker : ι → Prop) (s : State ι T) : Prop where
  popper : ∀ t, (s.pc t).popping = true → worker t
  /-- A predicate that has found the ring empty loaded a `tail_` that `head_` has reached. -/
  sawNone : ∀ t tl, (s.pc t).sawNone = some tl → tl ≤ s.shared.core.headClaims.length
  /-- Behind the mutex, every look under way is one that sees the position. -/
  locked : ∀ t j, (s.pc t).locked = some j → ∀ u tl, (s.pc u).looked = some tl → j < tl
  cover : ∀ j, s.shared.core.headClaims.length ≤ j → j < s.shared.core.tailClaims.length →
    (∃ u, worker u ∧ (s.pc u).asleep j = false) ∨ ∃ t, (s.pc t).claimed = some j

theorem ThreadPc.popping_of_spinning {k : ThreadPc T} (h : k.spinning = true) (j : ℕ) :
    k.popping = true ∧ k.asleep j = false := by
  unfold ThreadPc.spinning at h
  split at h <;> first | exact ⟨rfl, rfl⟩ | cases h

theorem ThreadPc.sleeping_of_asleep {k : ThreadPc T} {j : ℕ} (h : k.asleep j = true) :
    k.sleeping = true := by
  unfold ThreadPc.asleep ThreadPc.isWaiting ThreadPc.looked at h
  split at h
  · rfl
  · split at h <;> first | rfl | cases h

theorem ThreadPc.looked_of_asleep {k : ThreadPc T} {j : ℕ} (h : k.asleep j = true)
    (hw : k ≠ .pop .waiting) : ∃ tl, k.looked = some tl ∧ tl ≤ j := by
  rw [ThreadPc.asleep, Bool.or_eq_true, isWaiting_iff, Option.any_eq_true] at h
  obtain ⟨tl, h1, h2⟩ := h.resolve_left hw
  exact ⟨tl, h1, by simpa using h2⟩

theorem ThreadPc.holding_of_looked {k : ThreadPc T} {tl : ℕ} (h : k.looked = some tl) :
    k.holding = true := by
  unfold ThreadPc.looked at h
  split at h <;> first | rfl | cases h

theorem ThreadPc.sleeping_of_looked {k : ThreadPc T} {tl : ℕ} (h : k.looked = some tl) :
    k.sleeping = true := by
  unfold ThreadPc.looked at h
  split at h <;> first | rfl | cases h

section

variable [Fintype ι] [DecidableEq ι] [Inhabited T] {worker : ι → Prop} {capacity : ℕ}
  {maxSpinners : ℤ} {s s' : State ι T} {a : Act ι T}

theorem Attended.init (h : (queueMachine ι capacity maxSpinners).init s) : Attended worker s := by
  obtain ⟨r, -, rfl⟩ := h
  exact ⟨nofun, nofun, nofun, fun j _ hj => by simp [Shared.fresh, LockFreeRing.unused] at hj⟩

omit [Fintype ι] [Inhabited T] in
/-- A step that neither claims nor wakes, of a thread that stays out of the ring. -/
theorem Attended.of_update (h : Attended worker s) {t : ι} {k : ThreadPc T}
    (hpop : k.popping = true → worker t) (hsaw : k.sawNone = none) (hlook : k.looked = none)
    (hlock : k.locked = none) (ht : (s.pc t).claimed = none) (hk : ∀ j, k.asleep j = false) :
    Attended worker { s with pc := Function.update s.pc t k } := by
  refine ⟨fun u hu => ?_, fun u tl hu => ?_, fun u j hu v tl hv => ?_, fun j h1 h2 => ?_⟩
  · rcases eq_or_ne u t with rfl | hne
    · exact hpop (by simpa using hu)
    · exact h.popper u (by simpa [hne] using hu)
  · rcases eq_or_ne u t with rfl | hne
    · simp [hsaw] at hu
    · exact h.sawNone u tl (by simpa [hne] using hu)
  · have hut : u ≠ t := by
      rintro rfl
      simp [hlock] at hu
    have hvt : v ≠ t := by
      rintro rfl
      simp [hlook] at hv
    exact h.locked u j (by simpa [hut] using hu) v tl (by simpa [hvt] using hv)
  · rcases h.cover j h1 h2 with ⟨u, hw, hu⟩ | ⟨u, hu⟩
    · refine .inl ⟨u, hw, ?_⟩
      rcases eq_or_ne u t with rfl | hne
      · simpa using hk j
      · simpa [hne] using hu
    · refine .inr ⟨u, ?_⟩
      have hne : u ≠ t := by
        rintro rfl
        simp [ht] at hu
      simpa [hne] using hu

omit [Inhabited T] in
/-- A push that leaves its handshake leaves somebody who will look. -/
theorem Attended.cover_leave (h : Attended worker s) (hc : Counters s) (hw0 : ∃ u, worker u)
    {t : ι} {x : T} {j : ℕ} {w : Wake} {pc' : ι → ThreadPc T} (hw : Woken s.pc w pc')
    (ht : s.pc t = .push x (.readSleepers j) ∧ s.shared.sleepers ≤ 0 ∨
      s.pc t = .push x (.readSpinners j) ∧ s.shared.spinners ≠ 0 ∨
      s.pc t = .push x (.notify j) ∧ w = .one) :
    ∃ u, worker u ∧ (Function.update pc' t (.returned (.pushed true)) u).asleep j = false := by
  have hother : ∀ u, (s.pc u).asleep j = false →
      (Function.update pc' t (.returned (.pushed true)) u).asleep j = false := by
    intro u hu
    rcases eq_or_ne u t with rfl | hne
    · rw [Function.update_self]
      rfl
    · rw [Function.update_of_ne hne]
      exact hw.asleep hu
  obtain ⟨w0, hw0⟩ := hw0
  rcases ht with ⟨ht, h0⟩ | ⟨ht, h0⟩ | ⟨ht, rfl⟩
  · -- nobody is counted as a sleeper
    refine ⟨w0, hw0, hother w0 ?_⟩
    rw [hc.sleepers] at h0
    have hz := weight_eq_zero.mp (le_antisymm h0 (weight_nonneg _ _))
    by_contra hs
    have := ThreadPc.sleeping_of_asleep (by simpa using hs : (s.pc w0).asleep j = true)
    simp [hz w0] at this
  · -- somebody is counted as a spinner
    rw [hc.spinners] at h0
    obtain ⟨u, hu⟩ := exists_of_weight_pos (lt_of_le_of_ne (weight_nonneg _ _) (Ne.symm h0))
    obtain ⟨hp, ha⟩ := ThreadPc.popping_of_spinning hu j
    exact ⟨u, h.popper u hp, hother u ha⟩
  · -- a notification: to a blocked thread, or there was none
    rcases hw.one rfl with ⟨u, hu, hu'⟩ | hn
    · refine ⟨u, h.popper u (by rw [hu]; rfl), ?_⟩
      have hne : u ≠ t := by
        rintro rfl
        simp [hu] at ht
      rw [Function.update_of_ne hne, hu']
      rfl
    · refine ⟨w0, hw0, hother w0 ?_⟩
      by_contra hs
      obtain ⟨tl, hl, hle⟩ := ThreadPc.looked_of_asleep (by simpa using hs) (hn w0)
      have := h.locked t j (by rw [ht]; rfl) w0 tl hl
      omega

/-- A thread's step keeps every position attended to. -/
theorem Attended.local (h : Attended worker s) (hc : Counters s) (hw0 : ∃ u, worker u)
    (hr : RingInv s.shared.core fun t => (s.pc t).ring)
    (hlt : ∀ t j, (s.pc t).claimed = some j → j < s.shared.core.tailClaims.length)
    {t : ι} {g' : Shared ι T} {k : ThreadPc T} {w : Wake} {pc' : ι → ThreadPc T}
    (hl : Local maxSpinners t s.shared (s.pc t) g' k w) (hw : Woken s.pc w pc') :
    Attended worker ⟨g', Function.update pc' t k⟩ := by
  obtain ⟨hhead, hclaims⟩ := hl.claims
  refine ⟨fun u hu => ?_, fun u tl hu => ?_, fun u j hu v tl hv => ?_, fun j h1 h2 => ?_⟩
  · dsimp only at hu
    rcases eq_or_ne u t with rfl | hne
    · exact h.popper u (hl.popping (by simpa using hu))
    · rw [Function.update_of_ne hne, hw.same (f := ThreadPc.popping) rfl] at hu
      exact h.popper u hu
  · dsimp only at hu
    refine le_trans ?_ hhead
    rcases eq_or_ne u t with rfl | hne
    · rw [Function.update_self] at hu
      rcases hl.sawNone_le hu with hu | hu
      · exact h.sawNone u tl hu
      · exact hr.head_eq ▸ hu
    · rw [Function.update_of_ne hne, hw.same (f := ThreadPc.sawNone) rfl] at hu
      exact h.sawNone u tl hu
  · dsimp only at hu hv
    rcases eq_or_ne u t with rfl | hut
    · rw [Function.update_self] at hu
      rcases eq_or_ne v u with rfl | hvu
      · rw [Function.update_self, ThreadPc.looked_of_locked hu] at hv
        cases hv
      · rw [Function.update_of_ne hvu, hw.same (f := ThreadPc.looked) rfl] at hv
        rcases hl.locked hu with hu | ⟨-, hm⟩
        · exact h.locked u j hu v tl hv
        · have := (hc.mutex v).mp (ThreadPc.holding_of_looked hv)
          simp [hm] at this
    · rw [Function.update_of_ne hut, hw.same (f := ThreadPc.locked) rfl] at hu
      rcases eq_or_ne v t with rfl | hvt
      · rw [Function.update_self] at hv
        rcases hl.looked hv with hv | rfl
        · exact h.locked u j hu v tl hv
        · rw [hr.tail_eq]
          exact hlt u j (ThreadPc.claimed_of_locked hu)
      · rw [Function.update_of_ne hvt, hw.same (f := ThreadPc.looked) rfl] at hv
        exact h.locked u j hu v tl hv
  · dsimp only at h1 h2 ⊢
    by_cases hj : j < s.shared.core.tailClaims.length
    · rcases h.cover j (by omega) hj with ⟨u, hwu, hu⟩ | ⟨u, hu⟩
      · refine .inl ⟨u, hwu, ?_⟩
        rcases eq_or_ne u t with rfl | hne
        · rw [Function.update_self]
          by_contra hk
          rcases hl.asleep hu (by simpa using hk) with htl | ⟨tl, hs, hjl⟩
          · rw [hr.tail_eq] at htl
            omega
          · have := h.sawNone u tl hs
            omega
        · rw [Function.update_of_ne hne]
          exact hw.asleep hu
      · rcases eq_or_ne u t with rfl | hne
        · rcases hclaims with ⟨-, hk | ⟨-, rfl, x, pos, hp, hex⟩⟩ | ⟨-, hn, -⟩
          · exact .inr ⟨u, by rw [Function.update_self, hk, hu]⟩
          · obtain rfl : pos = j := Option.some.inj (hp.symm.trans hu)
            exact .inl (h.cover_leave hc hw0 hw hex)
          · rw [hn] at hu
            cases hu
        · exact .inr ⟨u, by rw [Function.update_of_ne hne, hw.same (f := ThreadPc.claimed) rfl, hu]⟩
    · rcases hclaims with ⟨hlen, -⟩ | ⟨hlen, -, hk⟩
      · omega
      · refine .inr ⟨t, ?_⟩
        rw [Function.update_self, hk, hr.tail_eq]
        congr 1
        omega

theorem attended_of_within (h2 : 2 ≤ capacity) (hw0 : ∃ u, worker u)
    (h : (queueMachine ι capacity maxSpinners).Within (PopsBy worker) s)
    (hb : s.shared.core.tailClaims.length < 2 ^ 63) : Attended worker s := by
  induction h with
  | init hi => exact .init hi
  | @step s s' a hr hok hs ih =>
    have hb' := bounded_of_step hs hb
    have hi := ih hb'
    have hreach := hr.reachable
    obtain ⟨t, c, rfl, ht, rfl⟩ | ⟨t, ch, g', k, w, pc', rfl, hl, hw, rfl⟩ | ⟨t, r, rfl, ht, rfl⟩ :=
      step_cases hs
    · cases c with
      | push x => exact hi.of_update nofun rfl rfl rfl (by rw [ht]; rfl) fun _ => rfl
      | pop => exact hi.of_update (fun _ => hok) rfl rfl rfl (by rw [ht]; rfl) fun _ => rfl
      | shutdown => exact hi.of_update nofun rfl rfl rfl (by rw [ht]; rfl) fun _ => rfl
    · exact hi.local (counters_of_reachable hreach) hw0 (ringInv h2 hreach hb')
        (fun t j => claimed_lt h2 hreach hb') hl hw
    · exact hi.of_update nofun rfl rfl rfl (by rw [ht]; rfl) fun _ => rfl

end

/-! ### After `shutdown()` -/

/-- How far a `shutdown()` is: 1 with the store done, 2 past the lock, 3 returned. -/
def ThreadPc.stage : ThreadPc T → ℕ
  | .shutdown .lock => 1
  | .shutdown .unlock => 2
  | .shutdown .notifyAll => 2
  | .returned .shutDown => 3
  | _ => 0

/-- No thread is blocked, and none will block. -/
def State.Shut (s : State ι T) : Prop :=
  s.shared.shutdown = true ∧ (∀ u tl, s.pc u ≠ .pop (.park tl)) ∧ ∀ u, s.pc u ≠ .pop .waiting

/-- What the stages of `shutdown()` say. -/
structure Stages (s : State ι T) : Prop where
  stored : ∀ t, 1 ≤ (s.pc t).stage → s.shared.shutdown = true
  noPark : ∀ t, 2 ≤ (s.pc t).stage → ∀ u tl, s.pc u ≠ .pop (.park tl)
  noWait : ∀ t, 3 ≤ (s.pc t).stage → ∀ u, s.pc u ≠ .pop .waiting

section

variable [Inhabited T] {maxSpinners : ℤ} {t : ι} {g g' : Shared ι T} {k k' : ThreadPc T} {w : Wake}

theorem Local.blocks (h : Local maxSpinners t g k g' k' w) :
    (∀ tl, k' = .pop (.park tl) → g.shutdown = false) ∧
      (k' = .pop .waiting → ∃ tl, k = .pop (.park tl)) := by
  cases h
  case release site pos item => cases site <;> exact ⟨nofun, nofun⟩
  case empty site pos h => cases site <;> exact ⟨nofun, nofun⟩
  case predFalse tl h => exact ⟨fun _ _ => h, nofun⟩
  case park tl => exact ⟨nofun, fun _ => ⟨tl, rfl⟩⟩
  all_goals exact ⟨nofun, nofun⟩

theorem Local.stage (h : Local maxSpinners t g k g' k' w) :
    (1 ≤ k'.stage → g'.shutdown = true ∨ 1 ≤ k.stage) ∧
    (2 ≤ k'.stage → 2 ≤ k.stage ∨ 1 ≤ k.stage ∧ g.parkMtx = none) ∧
    (3 ≤ k'.stage → 2 ≤ k.stage ∧ w = .all) := by
  cases h
  case release site pos item => cases site <;> simp [Site.onItem, ThreadPc.stage]
  case empty site pos h => cases site <;> simp [Site.onEmpty, ThreadPc.stage]
  all_goals simp_all [ThreadPc.stage]

end

section

variable [Fintype ι] [DecidableEq ι] [Inhabited T] {worker : ι → Prop} {capacity : ℕ}
  {maxSpinners : ℤ} {s s' : State ι T} {a : Act ι T}

theorem State.Shut.step (h : s.Shut)
    (hs : (queueMachine ι capacity maxSpinners).step s a = some s') : s'.Shut := by
  obtain ⟨hsd, hpark, hwait⟩ := h
  obtain ⟨t, c, rfl, ht, rfl⟩ | ⟨t, ch, g', k, w, pc', rfl, hl, hw, rfl⟩ | ⟨t, r, rfl, ht, rfl⟩ :=
    step_cases hs
  · refine ⟨hsd, fun u tl => ?_, fun u => ?_⟩ <;> rcases eq_or_ne u t with rfl | hne
    · cases c <;> simp [Call.start]
    · simpa [hne] using hpark u tl
    · cases c <;> simp [Call.start]
    · simpa [hne] using hwait u
  · have hpc : pc' = s.pc := by
      funext u
      rcases hw.cases u with he | ⟨h1, -⟩
      · exact he
      · exact absurd h1 (hwait u)
    subst hpc
    refine ⟨hl.shutdown hsd, fun u tl hu => ?_, fun u hu => ?_⟩ <;> dsimp only at hu <;>
      rcases eq_or_ne u t with rfl | hne
    · rw [Function.update_self] at hu
      have := hl.blocks.1 tl hu
      simp [hsd] at this
    · exact hpark u tl (by simpa [hne] using hu)
    · rw [Function.update_self] at hu
      obtain ⟨tl, hk⟩ := hl.blocks.2 hu
      exact hpark u tl hk
    · exact hwait u (by simpa [hne] using hu)
  · refine ⟨hsd, fun u tl => ?_, fun u => ?_⟩ <;> rcases eq_or_ne u t with rfl | hne
    · simp
    · simpa [hne] using hpark u tl
    · simp
    · simpa [hne] using hwait u

theorem Stages.init (h : (queueMachine ι capacity maxSpinners).init s) : Stages s := by
  obtain ⟨r, -, rfl⟩ := h
  exact ⟨nofun, nofun, nofun⟩

omit [Fintype ι] [Inhabited T] in
theorem Stages.of_update (h : Stages s) {t : ι} {k : ThreadPc T} (hk : k.stage = 0)
    (hp : ∀ tl, k ≠ .pop (.park tl)) (hw : k ≠ .pop .waiting) :
    Stages { s with pc := Function.update s.pc t k } := by
  have hold : ∀ n u, n + 1 ≤ (Function.update s.pc t k u).stage →
      n + 1 ≤ (s.pc u).stage := by
    intro n u hu
    rcases eq_or_ne u t with rfl | hne
    · simp [hk] at hu
    · simpa [hne] using hu
  refine ⟨fun u hu => h.stored u (hold 0 u hu), fun u hu v tl => ?_, fun u hu v => ?_⟩ <;>
    rcases eq_or_ne v t with rfl | hne
  · simpa using hp tl
  · simpa [hne] using h.noPark u (hold 1 u hu) v tl
  · simpa using hw
  · simpa [hne] using h.noWait u (hold 2 u hu) v

theorem Stages.step (h : Stages s) (hc : Counters s)
    (hs : (queueMachine ι capacity maxSpinners).step s a = some s') : Stages s' := by
  obtain ⟨t, c, rfl, ht, rfl⟩ | ⟨t, ch, g', k, w, pc', rfl, hl, hw, rfl⟩ | ⟨t, r, rfl, ht, rfl⟩ :=
    step_cases hs
  · refine h.of_update ?_ (fun tl => ?_) ?_ <;> cases c <;> simp [Call.start, ThreadPc.stage]
  · have hstage : ∀ u, (pc' u).stage = (s.pc u).stage := hw.same rfl
    have hpark : ∀ u tl, pc' u = .pop (.park tl) → s.pc u = .pop (.park tl) := fun u tl hu => by
      rcases hw.cases u with he | ⟨-, h2⟩
      · rw [← he, hu]
      · rw [hu] at h2
        cases h2
    have hwait : ∀ u, pc' u = .pop .waiting → s.pc u = .pop .waiting := fun u hu => by
      rcases hw.cases u with he | ⟨-, h2⟩
      · rw [← he, hu]
      · rw [hu] at h2
        cases h2
    -- with the flag set nobody gets as far as blocking
    have hnopark : s.shared.shutdown = true → (∀ u tl, s.pc u ≠ .pop (.park tl)) →
        ∀ u tl, Function.update pc' t k u ≠ .pop (.park tl) := by
      intro hsd hp u tl hu
      rcases eq_or_ne u t with rfl | hne
      · rw [Function.update_self] at hu
        have := hl.blocks.1 tl hu
        simp [hsd] at this
      · rw [Function.update_of_ne hne] at hu
        exact hp u tl (hpark u tl hu)
    have hparks : ∀ u, 2 ≤ (s.pc u).stage → s.shared.shutdown = true ∧
        ∀ u tl, s.pc u ≠ .pop (.park tl) :=
      fun u hu => ⟨h.stored u (by omega), h.noPark u hu⟩
    refine ⟨fun u hu => ?_, fun u hu => ?_, fun u hu => ?_⟩ <;> dsimp only at hu ⊢ <;>
      rcases eq_or_ne u t with rfl | hne
    · rw [Function.update_self] at hu
      rcases hl.stage.1 hu with hg | hk
      · exact hg
      · exact hl.shutdown (h.stored u hk)
    · rw [Function.update_of_ne hne, hstage] at hu
      exact hl.shutdown (h.stored u hu)
    · rw [Function.update_self] at hu
      rcases hl.stage.2.1 hu with hk | ⟨hk, hm⟩
      · exact hnopark (hparks u hk).1 (hparks u hk).2
      · refine hnopark (h.stored u hk) fun v tl hv => ?_
        have := (hc.mutex v).mp (by rw [hv]; rfl)
        simp [hm] at this
    · rw [Function.update_of_ne hne, hstage] at hu
      exact hnopark (hparks u hu).1 (hparks u hu).2
    · rw [Function.update_self] at hu
      obtain ⟨hk, hall⟩ := hl.stage.2.2 hu
      intro v hv
      rcases eq_or_ne v u with rfl | hvu
      · rw [Function.update_self] at hv
        rw [hv] at hu
        cases hu
      · rw [Function.update_of_ne hvu] at hv
        exact hw.all hall v hv
    · rw [Function.update_of_ne hne, hstage] at hu
      intro v hv
      rcases eq_or_ne v t with rfl | hvt
      · rw [Function.update_self] at hv
        obtain ⟨tl, hk⟩ := hl.blocks.2 hv
        exact h.noPark u (by omega) v tl hk
      · rw [Function.update_of_ne hvt] at hv
        exact h.noWait u hu v (hwait v hv)
  · exact h.of_update rfl (by simp) (by simp)

theorem stages_of_reachable (h : (queueMachine ι capacity maxSpinners).Reachable s) : Stages s := by
  induction h with
  | init hi => exact .init hi
  | step hr _ hs ih => exact ih.step (counters_of_reachable hr) hs

omit [Fintype ι] [DecidableEq ι] in
/-- Who has claimed an item that is still in the ring is about to move it out. -/
theorem State.InRing.mover (hr : RingInv s.shared.core fun t => (s.pc t).ring) {j : ℕ}
    (hj : s.InRing j) (hlt : j < s.shared.core.headClaims.length) :
    ∃ u site, s.pc u = .pop (.tryPop site (.move j)) := by
  obtain ⟨⟨u, o, r⟩, hk⟩ : ∃ k, s.shared.core.headClaims[j]? = some k :=
    ⟨_, List.getElem?_eq_getElem hlt⟩
  obtain rfl : o = none := hj.2 _ hk
  have hnr : r = false := by
    by_contra hr'
    have := hr.gone j _ hk (by simpa using hr')
    cases this
  subst hnr
  have hpc := hr.pcOk u
  rcases hr.headOwner j u none hk with he | ⟨v, he⟩ | ⟨v, he⟩
  · obtain ⟨site, hp⟩ := ThreadPc.eq_of_ring_pop he
    exact ⟨u, site, hp⟩
  · rw [he, PcOk, hk] at hpc
    cases hpc
  · rw [he, PcOk, hk] at hpc
    cases hpc.1

/-- **No lost wake-up.**  With at least one worker, and `pop` called by workers: an item whose push
has returned is not in the ring while every worker is blocked un-notified; and once a `shutdown()`
has returned, no thread is ever blocked again. -/
theorem no_lost_wakeup (h2 : 2 ≤ capacity) (hw0 : ∃ u, worker u)
    (h : (queueMachine ι capacity maxSpinners).Within (PopsBy worker) s)
    (hb : s.shared.core.tailClaims.length < 2 ^ 63) :
    (∀ j, s.InRing j → s.PushReturned j → ∃ u, worker u ∧ s.pc u ≠ .pop .waiting) ∧
    ∀ t, s.pc t = .returned .shutDown → ∀ as s',
      (queueMachine ι capacity maxSpinners).exec s as = some s' → ∀ u, s'.pc u ≠ .pop .waiting := by
  have hi := attended_of_within h2 hw0 h hb
  refine ⟨fun j hj hret => ?_, fun t ht as s' he => ?_⟩
  · by_cases hhead : j < s.shared.core.headClaims.length
    · obtain ⟨u, site, hu⟩ := hj.mover (ringInv h2 h.reachable hb) hhead
      exact ⟨u, hi.popper u (by rw [hu]; rfl), by rw [hu]; simp⟩
    · rcases hi.cover j (by omega) hj.1 with ⟨u, hwu, hu⟩ | ⟨t, ht⟩
      · refine ⟨u, hwu, fun hwait => ?_⟩
        rw [hwait] at hu
        cases hu
      · exact absurd ht (hret t)
  · have hst := stages_of_reachable h.reachable
    have h3 : 3 ≤ (s.pc t).stage := by rw [ht]; exact le_rfl
    have hshut : s.Shut :=
      ⟨hst.stored t (by omega), hst.noPark t (by omega), hst.noWait t h3⟩
    exact (Machine.exec_invariant (fun _ _ _ h hs => State.Shut.step h hs) hshut he).2.2

end

/-! ### A push that skips its wake-up -/

def go (t : Fin 3) : Act (Fin 3) ℕ := .step t ⟨false, 0, none⟩

def twoCells : State (Fin 3) ℕ := ⟨.fresh ⟨fun i => ⟨i, 0⟩, 1, 0, 0⟩, fun _ => .idle⟩

/-- Thread 2 takes the only spin slot, thread 0 goes to sleep, thread 1 pushes an item, counts the
spinner and returns. -/
def skippedOver : List (Act (Fin 3) ℕ) :=
  .call 2 .pop :: go 2 :: .call 0 .pop :: List.replicate 11 (go 0) ++
    .call 1 (.push 7) :: List.replicate 10 (go 1)

theorem no_lost_wakeup_skippedOver :
    ∃ s, (queueMachine (Fin 3) 2 1).exec twoCells skippedOver = some s ∧
      (∀ j, s.InRing j → s.PushReturned j → ∃ u, u ≠ 1 ∧ s.pc u ≠ .pop .waiting) ∧
      ∀ t, s.pc t = .returned .shutDown → ∀ as s',
        (queueMachine (Fin 3) 2 1).exec s as = some s' → ∀ u, s'.pc u ≠ .pop .waiting := by
  obtain ⟨s, hs, hb⟩ : ∃ s, (queueMachine (Fin 3) 2 1).exec twoCells skippedOver = some s ∧
      s.shared.core.tailClaims.length = 1 := by
    have h : ((queueMachine (Fin 3) 2 1).exec twoCells skippedOver).map
        (fun s => s.shared.core.tailClaims.length) = some 1 := by decide +kernel
    obtain ⟨s, hs, hl⟩ := Option.map_eq_some_iff.mp h
    exact ⟨s, hs, hl⟩
  have hpops : ∀ a ∈ skippedOver, ∀ s, PopsBy (fun u : Fin 3 => u ≠ 1) s a := by
    simp [skippedOver, PopsBy, go]
  have hwithin : (queueMachine (Fin 3) 2 1).Within (PopsBy fun u => u ≠ 1) s :=
    .exec (.init ⟨_, rfl, rfl⟩) (Machine.meets_of_forall hpops) hs
  exact ⟨s, hs, no_lost_wakeup le_rfl ⟨0, by decide⟩ hwithin (by rw [hb]; decide)⟩

end OrderRisk.Queue
