import OrderRisk.Pool.CatchUp
import OrderRisk.Pool.Program

/-!
# Jobs that wait for room

`submit` blocks while the ring is full, and it may be a job that calls it.  When every worker is inside
such a job and the ring is full, nobody is left to make room: short of a `shutdown()` no job is called
or counted any more (`jammed_forever`).  So `can_catch_up` needs its hypothesis on the jobs.
-/

namespace OrderRisk.Pool

open OrderRisk.Lib OrderRisk.Queue

variable {ι T : Type*}

section

variable [Inhabited T] {maxSpinners : ℤ} {t : ι} {g g' : Shared ι T} {k k' : ThreadPc T} {w : Wake}

/-- A full ring is not claimed by a push, and a push that has no claim goes on without one. -/
theorem local_full {pc : ι → RingPc T} (hl : Local maxSpinners t g k g' k' w)
    (hr : RingInv g.core pc) (hk : pc t = k.ring)
    (hfull : g.core.tailClaims.length = g.core.headClaims.length + g.core.ring.capacity)
    (hpop : k.popping = false) (hopen : g.shutdown = false) :
    g'.core.tailClaims.length = g.core.tailClaims.length ∧
      g'.core.headClaims.length = g.core.headClaims.length ∧
      g'.core.ring.capacity = g.core.ring.capacity ∧ (unclaimed k = true → unclaimed k' = true) := by
  cases hl
  case tryPush x spurious p p' core h =>
    cases p with
    | cas pos =>
      simp only [pushStep] at h
      split_ifs at h with hc <;> cases h
      · -- the lap before has not been released
        have hok := hr.pcOk t
        rw [hk] at hok
        have hpos : g.core.tailClaims.length = pos := by rw [← hr.tail_eq, hc.1]
        rcases hok with hlt | hrel
        · omega
        · have := Core.released_lt hrel
          omega
      · exact ⟨rfl, rfl, rfl, fun _ => rfl⟩
    | loadSeq pos =>
      simp only [pushStep, Prod.mk.injEq] at h
      obtain ⟨rfl, h⟩ := h
      split_ifs at h <;> cases h <;> exact ⟨rfl, rfl, rfl, fun _ => rfl⟩
    | load =>
      cases h
      exact ⟨rfl, rfl, rfl, fun _ => rfl⟩
    | move pos =>
      cases h
      exact ⟨rfl, rfl, rfl, id⟩
    | publish pos => cases h
  case publish x pos => exact ⟨by simp [Core.publish, Core.setSeq], rfl, rfl, fun h => by cases h⟩
  case sawClosed x p hp h =>
    rw [hopen] at h
    cases h
  all_goals first
    | exact ⟨rfl, rfl, rfl, fun _ => rfl⟩
    | exact ⟨rfl, rfl, rfl, fun h => by cases h⟩
    | cases hpop

omit [Inhabited T] in
theorem fits_pop {p : PoolPc ι T} (h : Fits p k) (hk : k.popping = true) : p = .popping := by
  cases k with
  | pop q =>
    cases p with
    | popping => rfl
    | submitting job r => rcases h with ⟨_, h⟩ | ⟨_, h⟩ <;> cases h
    | closing => rcases h with ⟨_, h⟩ | h <;> cases h
    | _ => cases h
  | _ => cases hk

end

section

variable [Fintype ι] [DecidableEq ι] [DecidableEq T] [Inhabited T] {workers : List ι}
  {capacity : ℕ} {maxSpinners : ℤ} {s s' : State ι T}

/-- The ring is full, and every worker is inside a job that waits in `submit` for room in it. -/
structure Jammed (workers : List ι) (s : State ι T) : Prop where
  nested : ∀ u ∈ workers, (s.pc u).nested = true
  waits : ∀ u ∈ workers, unclaimed (s.queue.pc u) = true
  closing : ∀ t, s.pc t ≠ .closing
  shutdown : s.queue.shared.shutdown = false
  full : s.queue.shared.core.tailClaims.length =
    s.queue.shared.core.headClaims.length + s.queue.shared.core.ring.capacity

/-- Not a call of `shutdown()`. -/
def NoShutdown (_ : State ι T) : Act ι T → Prop
  | .shutdown _ => False
  | _ => True

omit [Fintype ι] [DecidableEq ι] [DecidableEq T] [Inhabited T] in
theorem Jammed.not_mem (h : Jammed workers s) {t : ι} (ht : (s.pc t).nested = false) :
    t ∉ workers := by
  intro hm
  rw [h.nested t hm] at ht
  cases ht

omit [Fintype ι] [DecidableEq T] [Inhabited T] in
theorem Jammed.move (h : Jammed workers s) {t : ι} {p : PoolPc ι T} {k : ThreadPc T}
    (ht : t ∉ workers) (hpc : s'.pc = Function.update s.pc t p)
    (hq : s'.queue.pc = Function.update s.queue.pc t k) (hshared : s'.queue.shared = s.queue.shared)
    (hp : p ≠ .closing) : Jammed workers s' := by
  have hne : ∀ u ∈ workers, u ≠ t := fun u hu he => ht (he ▸ hu)
  refine ⟨fun u hu => ?_, fun u hu => ?_, fun u => ?_, hshared ▸ h.shutdown, hshared ▸ h.full⟩
  · rw [hpc, Function.update_of_ne (hne u hu)]
    exact h.nested u hu
  · rw [hq, Function.update_of_ne (hne u hu)]
    exact h.waits u hu
  · rw [hpc]
    rcases eq_or_ne u t with rfl | hut
    · rwa [Function.update_self]
    · rw [Function.update_of_ne hut]
      exact h.closing u

omit [DecidableEq T] in
/-- A step inside the queue keeps the jam. -/
theorem Jammed.inQueue {t : ι} {ch : Choice ι T} {q : Queue.State ι T} (h : Jammed workers s)
    (hp : Placed workers s) (hr : RingInv s.queue.shared.core fun t => (s.queue.pc t).ring)
    (hq : (queueMachine ι capacity maxSpinners).step s.queue (.step t ch) = some q) :
    Jammed workers { s with queue := q } := by
  obtain ⟨u, c, he, -⟩ | ⟨u, ch', g', k, w, pc', he, hl, hw, rfl⟩ | ⟨u, r, he, -⟩ := step_cases hq
  · cases he
  · have hpop : (s.queue.pc u).popping = false := by
      by_contra hpop
      have hpc := fits_pop (hp.fits u) (by simpa using hpop)
      have := h.nested u (hp.worker u (by rw [hpc]; rfl))
      rw [hpc] at this
      cases this
    obtain ⟨h1, h2, h3, h4⟩ := local_full hl hr rfl h.full hpop h.shutdown
    refine ⟨h.nested, fun v hv => ?_, h.closing, ?_, ?_⟩
    · dsimp only
      rcases eq_or_ne v u with rfl | hvu
      · rw [Function.update_self]
        exact h4 (h.waits v hv)
      · rw [Function.update_of_ne hvu, hw.same (f := unclaimed) rfl]
        exact h.waits v hv
    · -- who stores the flag is in `shutdown()`
      by_contra hg
      rcases local_shutdown hl (by simpa using hg) with hg | hk
      · rw [h.shutdown] at hg
        cases hg
      · have hf := hp.fits u
        rw [hk] at hf
        exact h.closing u (fits_shutdown hf)
    · dsimp only
      rw [h1, h2, h3]
      exact h.full
  · cases he

/-- **A jam stays**, and in it no job is called or counted. -/
theorem Jammed.step {a : Act ι T} (h : Jammed workers s) (hp : Placed workers s)
    (hr : RingInv s.queue.shared.core fun t => (s.queue.pc t).ring) (ha : NoShutdown s a)
    (hs : (poolMachine workers capacity maxSpinners).step s a = some s') :
    Jammed workers s' ∧ s'.executed = s.executed ∧ s'.completed = s.completed := by
  -- the workers are nowhere else
  have hnot : ∀ {t}, (s.pc t).working = true → (s.pc t).nested ≠ false := by
    intro t ht he
    rw [h.nested t (hp.worker t ht)] at he
    cases he
  cases a with
  | shutdown t => cases ha
  | submit t job =>
    simp only [poolMachine] at hs
    split at hs
    · cases hs
    · split at hs
      · next hpc =>
        obtain ⟨-, rfl⟩ := call_eq_some hs
        exact ⟨h.move (t := t) (h.not_mem (by rw [hpc]; rfl)) rfl rfl rfl (by simp), rfl, rfl⟩
      · next r hpc => exact absurd (by rw [hpc]; rfl) (hnot (t := t) (by rw [hpc]; rfl))
      · cases hs
  | inQueue t ch =>
    obtain ⟨q, hq, rfl⟩ := Option.map_eq_some_iff.mp hs
    exact ⟨h.inQueue hp hr hq, rfl, rfl⟩
  | submitted t =>
    have hback : ∀ r : Option T, (PoolPc.back r : PoolPc ι T) ≠ .closing := by
      intro r
      cases r <;> simp [PoolPc.back]
    have ht : ∀ ok, s.queue.pc t = .returned (.pushed ok) → t ∉ workers := by
      intro ok hq hm
      have := h.waits t hm
      rw [hq] at this
      cases this
    simp only [poolMachine] at hs
    split at hs
    · next hq =>
      cases hs
      exact ⟨h.move (t := t) (ht _ hq) rfl rfl rfl (hback _), rfl, rfl⟩
    · next hq =>
      cases hs
      exact ⟨h.move (t := t) (ht _ hq) rfl rfl rfl (hback _), rfl, rfl⟩
    · cases hs
  | join t =>
    simp only [poolMachine] at hs
    split at hs
    · next hpc =>
      cases hs
      obtain ⟨hk, hupd⟩ := hp.idle (t := t) (by rw [hpc]; rfl)
      exact ⟨h.move (t := t) (h.not_mem (by rw [hpc]; rfl)) rfl hupd rfl (by simp), rfl, rfl⟩
    · next hpc =>
      obtain ⟨hk, hupd⟩ := hp.idle (t := t) (by rw [hpc]; rfl)
      split at hs
      · cases hs
        exact ⟨h.move (t := t) (h.not_mem (by rw [hpc]; rfl)) rfl hupd rfl (by simp), rfl, rfl⟩
      · cases hs
    · cases hs
  | closed t =>
    simp only [poolMachine] at hs
    split at hs
    · next hpc _ => exact absurd hpc (h.closing t)
    · cases hs
  | popped t =>
    simp only [poolMachine] at hs
    split at hs
    · next hpc _ => exact absurd (by rw [hpc]; rfl) (hnot (t := t) (by rw [hpc]; rfl))
    · next hpc _ => exact absurd (by rw [hpc]; rfl) (hnot (t := t) (by rw [hpc]; rfl))
    · cases hs
  | _ t =>
    simp only [poolMachine] at hs
    split at hs
    · next hpc => exact absurd (by rw [hpc]; rfl) (hnot (t := t) (by rw [hpc]; rfl))
    · cases hs

/-- **A jam is for ever.**  In a reachable state in which the ring is full and every worker is inside a
job that waits for room in it, whatever the threads do, short of a `shutdown()`: the jam stays, and no
job is called or counted any more. -/
theorem jammed_forever (h2 : 2 ≤ capacity)
    (h : (poolMachine workers capacity maxSpinners).Reachable s) (hj : Jammed workers s)
    (as : List (Act ι T)) (hm : (poolMachine workers capacity maxSpinners).Meets NoShutdown s as)
    (he : (poolMachine workers capacity maxSpinners).exec s as = some s')
    (hb : s'.queue.shared.core.tailClaims.length < 2 ^ 63) :
    Jammed workers s' ∧ s'.executed = s.executed ∧ s'.completed = s.completed := by
  induction as generalizing s with
  | nil =>
    cases he
    exact ⟨hj, rfl, rfl⟩
  | cons a as ih =>
    obtain ⟨m, hs, he⟩ := Option.bind_eq_some_iff.mp he
    have hr := h.step trivial hs
    have hle := Machine.exec_invariant (P := fun u : State ι T =>
      m.queue.shared.core.tailClaims.length ≤ u.queue.shared.core.tailClaims.length)
      (fun _ _ _ hu hs => hu.trans (tail_le hs)) le_rfl he
    have hb' := ((tail_le hs).trans hle).trans_lt hb
    obtain ⟨h1, h2, h3⟩ := hj.step (placed_and_ledger h2 h hb').1 (ringInv h2 (queue_reachable h) hb')
      hm.1 hs
    obtain ⟨h4, h5, h6⟩ := ih hr h1 (hm.2 m hs) he
    exact ⟨h4, h5.trans h2, h6.trans h3⟩

end

def oneWorker : State (Fin 3) ℕ := { idlePool with pc := fun t => if t = 1 then .head else .client }

theorem oneWorker_init : (poolMachine [(1 : Fin 3)] 2 1).init oneWorker := by
  refine ⟨idlePool.queue, ⟨_, rfl, rfl⟩, ?_⟩
  simp [oneWorker, idlePool]

def goOn (t : Fin 3) : Act (Fin 3) ℕ := .inQueue t ⟨false, 0, none⟩

/-- The worker takes job 7, two jobs fill the ring, and job 7 submits another one. -/
def crowded : List (Act (Fin 3) ℕ) :=
  [.pop 1, goOn 1, .submit 2 7] ++ List.replicate 9 (goOn 2) ++ [.submitted 2] ++
    List.replicate 7 (goOn 1) ++ [.popped 1, .submit 2 8] ++ List.replicate 9 (goOn 2) ++
    [.submitted 2, .submit 2 9] ++ List.replicate 9 (goOn 2) ++ [.submitted 2, .submit 1 10]

/-- Job 7 looks for a cell in vain, and so does another client. -/
def pressed : List (Act (Fin 3) ℕ) :=
  List.replicate 8 (goOn 1) ++ [.submit 0 11] ++ List.replicate 8 (goOn 0)

theorem jammed_forever_crowded :
    ∃ s s', (poolMachine [(1 : Fin 3)] 2 1).exec oneWorker crowded = some s ∧
      (poolMachine [(1 : Fin 3)] 2 1).exec s pressed = some s' ∧ s.executed = [7] ∧
      Jammed [1] s' ∧ s'.executed = s.executed ∧ s'.completed = s.completed := by
  have h : ((poolMachine [(1 : Fin 3)] 2 1).exec oneWorker crowded).bind (fun s =>
      ((poolMachine [(1 : Fin 3)] 2 1).exec s pressed).map fun s' =>
        (decide ((s.pc 1).nested = true ∧ unclaimed (s.queue.pc 1) = true ∧
          (∀ t, (s.pc t).ending = false) ∧ s.queue.shared.shutdown = false ∧
          s.queue.shared.core.tailClaims.length =
            s.queue.shared.core.headClaims.length + s.queue.shared.core.ring.capacity),
          s.executed, s'.queue.shared.core.tailClaims.length)) = some (true, [7], 3) := by
    decide +kernel
  obtain ⟨s, hs, h⟩ := Option.bind_eq_some_iff.mp h
  obtain ⟨s', hs', h⟩ := Option.map_eq_some_iff.mp h
  simp only [Prod.mk.injEq, decide_eq_true_eq] at h
  obtain ⟨⟨h1, h2, h3, h4, h5⟩, hex, htail⟩ := h
  have hj : Jammed [1] s := by
    refine ⟨fun u hu => ?_, fun u hu => ?_, fun t ht => ?_, h4, h5⟩
    · rwa [List.mem_singleton.mp hu]
    · rwa [List.mem_singleton.mp hu]
    · have := h3 t
      rw [ht] at this
      cases this
  have hm : (poolMachine [(1 : Fin 3)] 2 1).Meets NoShutdown s pressed :=
    Machine.meets_of_forall (by simp [pressed, goOn, NoShutdown])
  exact ⟨s, s', hs, hs', hex, jammed_forever le_rfl (.of_exec oneWorker_init hs) hj pressed hm hs'
    (by rw [htail]; norm_num)⟩

end OrderRisk.Pool
