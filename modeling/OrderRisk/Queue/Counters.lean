import OrderRisk.Queue.Moves

/-!
# The queue over its ring, and its counters

A run of the queue is, for the ring, a run of the ring's machine (`ring_reachable`), so the ring's
invariant holds in it.  `Counters`: each of the three counters is the number of threads in its
region, and the mutex is held by the thread that is in a critical section.
-/

namespace OrderRisk.Queue

open OrderRisk.Lib

variable {ι T : Type*}

/-! ### The ring below -/

def ThreadPc.ring : ThreadPc T → RingPc T
  | .push x (.tryPush p) => .push x p
  | .pop (.tryPop _ p) => .pop p
  | _ => .idle

def State.ring (s : State ι T) : RingState ι T := ⟨s.shared.core, fun t => (s.pc t).ring⟩

theorem ThreadPc.eq_of_ring_pop {k : ThreadPc T} {p : PopPc T} (h : k.ring = .pop p) :
    ∃ site, k = .pop (.tryPop site p) := by
  unfold ThreadPc.ring at h
  split at h
  · cases h
  · next site p' =>
    cases h
    exact ⟨site, rfl⟩
  · cases h

theorem ThreadPc.eq_of_ring_push {k : ThreadPc T} {x : T} {p : PushPc} (h : k.ring = .push x p) :
    k = .push x (.tryPush p) := by
  unfold ThreadPc.ring at h
  split at h <;> cases h
  rfl

theorem ring_onItem (site : Site) (item : T) : (site.onItem item).ring = .idle := by
  cases site <;> rfl

theorem ring_onEmpty (site : Site) : (site.onEmpty : ThreadPc T).ring = .idle := by
  cases site <;> rfl

theorem ring_update [DecidableEq ι] (pc : ι → ThreadPc T) (t : ι) (k : ThreadPc T) :
    (fun u => (Function.update pc t k u).ring) =
      Function.update (fun u => (pc u).ring) t k.ring :=
  Function.comp_update ThreadPc.ring pc t k

theorem Woken.ring {pc pc' : ι → ThreadPc T} {w : Wake} (h : Woken pc w pc') :
    (fun u => (pc' u).ring) = fun u => (pc u).ring :=
  funext (h.same rfl)

section

variable [Inhabited T] {maxSpinners : ℤ} {t : ι} {g g' : Shared ι T} {k k' : ThreadPc T} {w : Wake}

/-- For the ring, a thread's step is a step of the ring, the start of one of its functions, or
nothing. -/
theorem Local.ring (h : Local maxSpinners t g k g' k' w) :
    (g'.core = g.core ∧ k'.ring = k.ring) ∨
    (g'.core = g.core ∧ k.ring = .idle ∧
      (k'.ring = .pop .load ∨ ∃ x, k'.ring = .push x .load)) ∨
    ∃ spurious residue, ringStep t spurious residue g.core k.ring = some (g'.core, k'.ring) := by
  cases h
  case sawOpen x p hp h =>
    rcases hp with rfl | rfl
    · exact .inr (.inl ⟨rfl, rfl, .inr ⟨x, rfl⟩⟩)
    · exact .inr (.inl ⟨rfl, rfl, .inr ⟨x, rfl⟩⟩)
  case sawClosed x p hp h => rcases hp with rfl | rfl <;> exact .inl ⟨rfl, rfl⟩
  case popLock p hp h => rcases hp with rfl | rfl <;> exact .inl ⟨rfl, rfl⟩
  case tryPush x spurious p p' core h =>
    refine .inr (.inr ⟨spurious, default, ?_⟩)
    simp [ThreadPc.ring, ringStep, h]
  case publish x pos => exact .inr (.inr ⟨false, default, rfl⟩)
  case full x pos h =>
    refine .inr (.inr ⟨false, default, ?_⟩)
    simp only [ThreadPc.ring, ringStep, pushStep, if_neg h.ne, if_pos h]
    rfl
  case tryPop site spurious residue p p' core h =>
    refine .inr (.inr ⟨spurious, residue, ?_⟩)
    simp [ThreadPc.ring, ringStep, h]
  case release site pos item =>
    refine .inr (.inr ⟨false, default, ?_⟩)
    rw [ring_onItem]
    rfl
  case empty site pos h =>
    refine .inr (.inr ⟨false, default, ?_⟩)
    rw [ring_onEmpty]
    simp only [ThreadPc.ring, ringStep, popStep, if_neg h.ne, if_pos h]
    rfl
  case takeSlot h => exact .inr (.inl ⟨rfl, rfl, .inl rfl⟩)
  case spinAgain i h => exact .inr (.inl ⟨rfl, rfl, .inl rfl⟩)
  case announce => exact .inr (.inl ⟨rfl, rfl, .inl rfl⟩)
  case giveUp => exact .inr (.inl ⟨rfl, rfl, .inl rfl⟩)
  all_goals exact .inl ⟨rfl, rfl⟩

variable [Fintype ι] [DecidableEq ι] {capacity : ℕ} {s s' : State ι T} {a : Act ι T}

/-- **The ring's part of a run of the queue is a run of the ring.** -/
theorem ring_reachable (h : (queueMachine ι capacity maxSpinners).Reachable s) :
    (ringMachine ι capacity).Reachable s.ring := by
  refine h.project (f := State.ring) ?_ ?_
  · rintro s ⟨r, hr, rfl⟩
    exact ⟨r, hr, rfl⟩
  · intro s a s' _ _ hs
    obtain ⟨t, c, rfl, ht, rfl⟩ | ⟨t, ch, g', k, w, pc', rfl, hl, hw, rfl⟩ | ⟨t, r, rfl, ht, rfl⟩ :=
      step_cases hs
    · left
      simp only [State.ring, ring_update]
      congr
      refine Function.update_eq_self_iff.mpr ?_
      rw [ht]
      cases c <;> rfl
    · have hring : State.ring ⟨g', Function.update pc' t k⟩ =
          ⟨g'.core, Function.update s.ring.pc t k.ring⟩ := by
        simp only [State.ring, ring_update, hw.ring]
      rw [hring]
      rcases hl.ring with ⟨hc, hk⟩ | ⟨hc, hi, hk⟩ | ⟨sp, res, hr⟩
      · left
        rw [hc, hk]
        simp [State.ring]
      · right
        rcases hk with hk | ⟨x, hk⟩
        · refine ⟨.tryPop t, ?_⟩
          simp [ringMachine, State.ring, hi, hk, hc]
        · refine ⟨.tryPush t x, ?_⟩
          simp [ringMachine, State.ring, hi, hk, hc]
      · right
        refine ⟨.step t sp res, ?_⟩
        simp [ringMachine, State.ring, hr]
    · left
      simp only [State.ring, ring_update]
      congr
      refine Function.update_eq_self_iff.mpr ?_
      rw [ht]
      rfl

theorem ringInv (h2 : 2 ≤ capacity)
    (h : (queueMachine ι capacity maxSpinners).Reachable s)
    (hb : s.shared.core.tailClaims.length < 2 ^ 63) :
    RingInv s.shared.core fun t => (s.pc t).ring :=
  ringInv_of_reachable h2 (ring_reachable h) hb

end

/-! ### The counters -/

/-- Between `spinners_.fetch_add(1)` and the `fetch_sub(1)`. -/
def ThreadPc.spinning : ThreadPc T → Bool
  | .pop (.tryPop (.spin _) _) => true
  | .pop (.relax _) => true
  | .pop (.spinOk _) => true
  | .pop .giveSlot => true
  | _ => false

/-- Between `sleepers_.fetch_add(1)` and the `fetch_sub(1)`. -/
def ThreadPc.sleeping : ThreadPc T → Bool
  | .pop (.tryPop .recheck _) => true
  | .pop (.recheckOk _) => true
  | .pop .readShutdown => true
  | .pop .readInFlight => true
  | .pop .giveUp => true
  | .pop .lock => true
  | .pop .loadTail => true
  | .pop (.loadHead _) => true
  | .pop (.predShutdown _) => true
  | .pop (.park _) => true
  | .pop .waiting => true
  | .pop .woken => true
  | .pop .unlock => true
  | .pop .awake => true
  | _ => false

/-- Between `pushersInFlight_.fetch_add(1)` and the `fetch_sub(1)`. -/
def ThreadPc.inFlight : ThreadPc T → Bool
  | .push _ .checkShutdown => true
  | .push _ (.tryPush _) => true
  | .push _ .recheckShutdown => true
  | .push _ .reject => true
  | .push _ (.leave _) => true
  | _ => false

def ThreadPc.holding : ThreadPc T → Bool
  | .push _ (.unlock _) => true
  | .pop .loadTail => true
  | .pop (.loadHead _) => true
  | .pop (.predShutdown _) => true
  | .pop (.park _) => true
  | .pop .unlock => true
  | .shutdown .unlock => true
  | _ => false

section

variable {pc pc' : ι → ThreadPc T} {w : Wake} {t : ι} {maxSpinners : ℤ}

variable [Inhabited T]

/-- What a thread's step does to the counters is what it does to the regions. -/
theorem Local.counters {g g' : Shared ι T} {k k' : ThreadPc T}
    (h : Local maxSpinners t g k g' k' w) :
    g'.spinners = g.spinners - (if k.spinning then 1 else 0) + (if k'.spinning then 1 else 0) ∧
    g'.sleepers = g.sleepers - (if k.sleeping then 1 else 0) + (if k'.sleeping then 1 else 0) ∧
    g'.pushersInFlight =
      g.pushersInFlight - (if k.inFlight then 1 else 0) + (if k'.inFlight then 1 else 0) := by
  cases h
  case sawOpen x p hp h =>
    rcases hp with rfl | rfl <;>
      simp [ThreadPc.spinning, ThreadPc.sleeping, ThreadPc.inFlight]
  case sawClosed x p hp h =>
    rcases hp with rfl | rfl <;>
      simp [ThreadPc.spinning, ThreadPc.sleeping, ThreadPc.inFlight]
  case popLock p hp h =>
    rcases hp with rfl | rfl <;>
      simp [ThreadPc.spinning, ThreadPc.sleeping, ThreadPc.inFlight]
  case tryPop site _ _ p p' core h =>
    cases site <;> simp [ThreadPc.spinning, ThreadPc.sleeping, ThreadPc.inFlight]
  case release site pos item =>
    cases site <;>
      simp [Site.onItem, ThreadPc.spinning, ThreadPc.sleeping, ThreadPc.inFlight]
  case empty site pos h =>
    cases site <;>
      simp [Site.onEmpty, ThreadPc.spinning, ThreadPc.sleeping, ThreadPc.inFlight]
  all_goals simp [ThreadPc.spinning, ThreadPc.sleeping, ThreadPc.inFlight]

theorem Local.mutex {g g' : Shared ι T} {k k' : ThreadPc T}
    (h : Local maxSpinners t g k g' k' w) :
    (g'.parkMtx = g.parkMtx ∧ k'.holding = k.holding) ∨
    (g.parkMtx = none ∧ g'.parkMtx = some t ∧ k.holding = false ∧ k'.holding = true) ∨
    (g'.parkMtx = none ∧ k.holding = true ∧ k'.holding = false) := by
  cases h
  case sawOpen x p hp h => rcases hp with rfl | rfl <;> exact .inl ⟨rfl, rfl⟩
  case sawClosed x p hp h => rcases hp with rfl | rfl <;> exact .inl ⟨rfl, rfl⟩
  case popLock p hp h => rcases hp with rfl | rfl <;> exact .inr (.inl ⟨h, rfl, rfl, rfl⟩)
  case release site pos item => cases site <;> exact .inl ⟨rfl, rfl⟩
  case empty site pos h => cases site <;> exact .inl ⟨rfl, rfl⟩
  case pushLock x pos h => exact .inr (.inl ⟨h, rfl, rfl, rfl⟩)
  case shutdownLock h => exact .inr (.inl ⟨h, rfl, rfl, rfl⟩)
  case pushUnlock => exact .inr (.inr ⟨rfl, rfl, rfl⟩)
  case park => exact .inr (.inr ⟨rfl, rfl, rfl⟩)
  case popUnlock => exact .inr (.inr ⟨rfl, rfl, rfl⟩)
  case shutdownUnlock => exact .inr (.inr ⟨rfl, rfl, rfl⟩)
  all_goals exact .inl ⟨rfl, rfl⟩

end

section

variable [Fintype ι]

/-- **The counters are exact**, and the mutex excludes. -/
structure Counters (s : State ι T) : Prop where
  spinners : s.shared.spinners = weight ThreadPc.spinning s.pc
  sleepers : s.shared.sleepers = weight ThreadPc.sleeping s.pc
  inFlight : s.shared.pushersInFlight = weight ThreadPc.inFlight s.pc
  mutex : ∀ t, (s.pc t).holding = true ↔ s.shared.parkMtx = some t

variable [DecidableEq ι] {pc pc' : ι → ThreadPc T} {w : Wake} {t u : ι} {k : ThreadPc T}

theorem Woken.weight_update {p : ThreadPc T → Bool} (h : Woken pc w pc')
    (hp : p (.pop .waiting) = p (.pop .woken)) :
    weight p (Function.update pc' t k) =
      weight p pc - (if p (pc t) then 1 else 0) + (if p k then 1 else 0) := by
  have hr : weight p pc' = weight p pc := by
    unfold weight
    exact Finset.sum_congr rfl fun u _ => by rw [h.same hp u]
  rw [Lib.weight_update, hr, h.same hp t]

variable [Inhabited T] {capacity : ℕ} {maxSpinners : ℤ} {s s' : State ι T} {a : Act ι T}

theorem Counters.init (h : (queueMachine ι capacity maxSpinners).init s) : Counters s := by
  obtain ⟨r, -, rfl⟩ := h
  refine ⟨?_, ?_, ?_, fun t => ⟨nofun, nofun⟩⟩ <;> exact (weight_eq_zero.mpr fun _ => rfl).symm

theorem Counters.step (h : Counters s)
    (hs : (queueMachine ι capacity maxSpinners).step s a = some s') : Counters s' := by
  obtain ⟨t, c, rfl, ht, rfl⟩ | ⟨t, ch, g', k, w, pc', rfl, hl, hw, rfl⟩ | ⟨t, r, rfl, ht, rfl⟩ :=
    step_cases hs
  · refine ⟨?_, ?_, ?_, fun u => ?_⟩
    · rw [Lib.weight_update, ht]
      cases c <;> simpa [Call.start, ThreadPc.spinning] using h.spinners
    · rw [Lib.weight_update, ht]
      cases c <;> simpa [Call.start, ThreadPc.sleeping] using h.sleepers
    · rw [Lib.weight_update, ht]
      cases c <;> simpa [Call.start, ThreadPc.inFlight] using h.inFlight
    · dsimp only
      rcases eq_or_ne u t with rfl | hu
      · rw [← h.mutex u, ht, Function.update_self]
        cases c <;> rfl
      · rw [Function.update_of_ne hu]
        exact h.mutex u
  · obtain ⟨h1, h2, h3⟩ := hl.counters
    refine ⟨?_, ?_, ?_, fun u => ?_⟩
    · rw [hw.weight_update rfl, ← h.spinners, h1]
    · rw [hw.weight_update rfl, ← h.sleepers, h2]
    · rw [hw.weight_update rfl, ← h.inFlight, h3]
    · have hu := h.mutex u
      have ht := h.mutex t
      dsimp only
      rcases eq_or_ne u t with rfl | hne
      · rw [Function.update_self]
        rcases hl.mutex with ⟨hm, hk⟩ | ⟨-, hm, -, hk⟩ | ⟨hm, -, hk⟩
        · rw [hk, hm, hu]
        · simp [hk, hm]
        · simp [hk, hm]
      · rw [Function.update_of_ne hne, hw.same (f := ThreadPc.holding) rfl u, hu]
        rcases hl.mutex with ⟨hm, -⟩ | ⟨hn, hm, -, -⟩ | ⟨hm, hk, -⟩
        · rw [hm]
        · simp [hn, hm, hne.symm]
        · have hm' := ht.mp hk
          simp [hm, hm', hne.symm]
  · refine ⟨?_, ?_, ?_, fun u => ?_⟩
    · rw [Lib.weight_update, ht]
      simpa [ThreadPc.spinning] using h.spinners
    · rw [Lib.weight_update, ht]
      simpa [ThreadPc.sleeping] using h.sleepers
    · rw [Lib.weight_update, ht]
      simpa [ThreadPc.inFlight] using h.inFlight
    · dsimp only
      rcases eq_or_ne u t with rfl | hu
      · rw [← h.mutex u, ht, Function.update_self]
        rfl
      · rw [Function.update_of_ne hu]
        exact h.mutex u

theorem counters_of_reachable (h : (queueMachine ι capacity maxSpinners).Reachable s) :
    Counters s :=
  h.invariant (fun _ hi => .init hi) fun _ _ _ hi _ hs => hi.step hs

end

end OrderRisk.Queue
