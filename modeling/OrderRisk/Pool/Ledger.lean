import OrderRisk.Pool.Threads
import Mathlib.Tactic.Abel

/-!
# Where the pool's jobs are

`Ledger`: a job that was submitted has been rejected, or pushed, or is still undecided; one that
was pushed has been accepted, or its `submit` is about to return true; one that was popped has been
executed, or a worker holds it and is about to.  `completed_` counts the executed jobs but those a
worker has not counted yet.
-/

namespace OrderRisk.Pool

open OrderRisk.Lib OrderRisk.Queue

variable {ι T : Type*}

def published : ThreadPc T → Bool
  | .push _ (.leave _) => true
  | .push _ (.readSleepers _) => true
  | .push _ (.readSpinners _) => true
  | .push _ (.lock _) => true
  | .push _ (.unlock _) => true
  | .push _ (.notify _) => true
  | .returned (.pushed true) => true
  | _ => false

def undecided : PoolPc ι T × ThreadPc T → Multiset T
  | (.submitting job _, k) => if published k then 0 else {job}
  | _ => 0

/-- The job of a `submit` that has published it and is about to return true. -/
def accepting : PoolPc ι T × ThreadPc T → Multiset T
  | (.submitting job _, k) => if published k then {job} else 0
  | _ => 0

def held : PoolPc ι T × ThreadPc T → Multiset T
  | (_, .pop (.spinOk job)) => {job}
  | (_, .pop (.recheckOk job)) => {job}
  | (_, .returned (.popped (some job))) => {job}
  | _ => 0

/-- The worker has called its job and has not counted it. -/
def PoolPc.busy : PoolPc ι T → Bool
  | .run _ => true
  | .submitting _ r => r.isSome
  | .count => true
  | _ => false

/-- A step of the queue, as far as the jobs go. -/
theorem local_jobs [Inhabited T] {maxSpinners : ℤ} {t : ι} {g g' : Shared ι T}
    {k k' : ThreadPc T} {w : Wake} (hl : Local maxSpinners t g k g' k' w) (p : PoolPc ι T) :
    (g'.core.pushed = g.core.pushed ∧ published k' = published k ∨
      ∃ job q, k = .push job q ∧ g'.core.pushed = g.core.pushed ++ [job] ∧
        published k = false ∧ published k' = true) ∧
    ∃ out : List T, g'.core.popped = g.core.popped ++ out ∧ held (p, k') = held (p, k) + out := by
  cases hl
  case tryPush x spurious q q' core h =>
    have hc : core.pushed = g.core.pushed ∧ core.popped = g.core.popped := by
      cases q <;> simp only [pushStep] at h
      case cas pos => split_ifs at h <;> cases h <;> exact ⟨rfl, rfl⟩
      case publish pos => cases h
      all_goals
        obtain rfl := congrArg Prod.fst h
        exact ⟨rfl, rfl⟩
    exact ⟨.inl ⟨hc.1, rfl⟩, [], by simp [hc.2], rfl⟩
  case publish x pos =>
    exact ⟨.inr ⟨x, _, rfl, rfl, rfl, rfl⟩, [], by simp [Core.publish, Core.setSeq], rfl⟩
  case tryPop site spurious residue q q' core h =>
    have hc : core.pushed = g.core.pushed ∧ core.popped = g.core.popped := by
      cases q <;> simp only [popStep] at h
      case cas pos => split_ifs at h <;> cases h <;> exact ⟨rfl, rfl⟩
      case publish pos => cases h
      all_goals
        obtain rfl := congrArg Prod.fst h
        exact ⟨rfl, rfl⟩
    exact ⟨.inl ⟨hc.1, rfl⟩, [], by simp [hc.2], rfl⟩
  case release site pos item =>
    refine ⟨.inl ⟨rfl, ?_⟩, [item], rfl, ?_⟩ <;> cases site <;> rfl
  case empty site pos h =>
    refine ⟨.inl ⟨rfl, ?_⟩, [], by simp, ?_⟩ <;> cases site <;> rfl
  case sawClosed x q hq h => rcases hq with rfl | rfl <;> exact ⟨.inl ⟨rfl, rfl⟩, [], by simp, rfl⟩
  case sawOpen x q hq h => rcases hq with rfl | rfl <;> exact ⟨.inl ⟨rfl, rfl⟩, [], by simp, rfl⟩
  case popLock q hq h => rcases hq with rfl | rfl <;> exact ⟨.inl ⟨rfl, rfl⟩, [], by simp, rfl⟩
  all_goals exact ⟨.inl ⟨rfl, rfl⟩, [], by simp, by simp [held]⟩

theorem fits_push {p : PoolPc ι T} {job : T} {q : PushAt} (h : Fits p (.push job q)) :
    ∃ r, p = .submitting job r := by
  cases p with
  | submitting job' r =>
    rcases h with ⟨_, h⟩ | ⟨_, h⟩ <;> cases h
    exact ⟨r, rfl⟩
  | popping => rcases h with ⟨_, h⟩ | ⟨_, h⟩ <;> cases h
  | closing => rcases h with ⟨_, h⟩ | h <;> cases h
  | _ => cases h

theorem undecided_congr {p : PoolPc ι T} {k k' : ThreadPc T} (h : published k' = published k) :
    undecided (p, k') = undecided (p, k) := by
  cases p <;> simp [undecided, h]

theorem accepting_congr {p : PoolPc ι T} {k k' : ThreadPc T} (h : published k' = published k) :
    accepting (p, k') = accepting (p, k) := by
  cases p <;> simp [accepting, h]

/-- Both program counters of a thread. -/
def State.thread (s : State ι T) (t : ι) : PoolPc ι T × ThreadPc T := (s.pc t, s.queue.pc t)

section

variable [Fintype ι] {s s' : State ι T}

def State.total (s : State ι T) (f : PoolPc ι T × ThreadPc T → Multiset T) : Multiset T :=
  ∑ t, f (s.thread t)

/-- **Every job is accounted for.** -/
structure Ledger (s : State ι T) : Prop where
  nodup : s.submitted.Nodup
  submitted : (s.submitted : Multiset T) =
    s.rejected + s.queue.shared.core.pushed + s.total undecided
  pushed : (s.queue.shared.core.pushed : Multiset T) = s.accepted + s.total accepting
  popped : (s.queue.shared.core.popped : Multiset T) = s.executed + s.total held
  completed : ∃ n : ℕ, s.completed = word n ∧
    n + weight PoolPc.busy s.pc = (s.executed.length : ℤ)

variable [DecidableEq ι] {f : PoolPc ι T × ThreadPc T → Multiset T} {t : ι} {p : PoolPc ι T}
  {k : ThreadPc T}

theorem total_update (hpc : s'.pc = Function.update s.pc t p)
    (hq : s'.queue.pc = Function.update s.queue.pc t k) :
    s'.total f + f (s.thread t) = s.total f + f (p, k) := by
  have h : s'.thread = Function.update s.thread t (p, k) := by
    funext u
    rcases eq_or_ne u t with rfl | hut
    · simp [State.thread, hpc, hq]
    · simp [State.thread, hpc, hq, hut]
  rw [State.total, h]
  exact sum_update_add f s.thread t (p, k)

theorem total_inQueue {g : Shared ι T} {pc' : ι → ThreadPc T} {w : Wake}
    (hw : Woken s.queue.pc w pc')
    (hf : ∀ p, f (p, .pop .waiting) = f (p, .pop .woken)) :
    ({ s with queue := ⟨g, Function.update pc' t k⟩ } : State ι T).total f + f (s.thread t) =
      s.total f + f (s.pc t, k) := by
  have h1 : ∀ u, f (s.pc u, pc' u) = f (s.thread u) := by
    intro u
    rcases hw.cases u with he | ⟨h1, h2⟩
    · rw [he]
      rfl
    · rw [h2, State.thread, h1, hf]
  have h2 : ({ s with queue := ⟨g, Function.update pc' t k⟩ } : State ι T).thread =
      Function.update (fun u => (s.pc u, pc' u)) t (s.pc t, k) := by
    funext u
    rcases eq_or_ne u t with rfl | hut
    · simp [State.thread]
    · simp [State.thread, hut]
  have h3 := sum_update_add f (fun u => (s.pc u, pc' u)) t (s.pc t, k)
  rw [State.total, h2, State.total, ← Finset.sum_congr rfl fun u _ => h1 u, ← h1 t]
  exact h3

/-- A step outside the queue keeps the ledger when what it logs is what the thread's place loses. -/
theorem Ledger.move (h : Ledger s) (hpc : s'.pc = Function.update s.pc t p)
    (hq : s'.queue.pc = Function.update s.queue.pc t k)
    (hshared : s'.queue.shared = s.queue.shared) (sub acc rej exe : List T) (done : ℕ)
    (hsub : s'.submitted = s.submitted ++ sub) (hacc : s'.accepted = s.accepted ++ acc)
    (hrej : s'.rejected = s.rejected ++ rej) (hexe : s'.executed = s.executed ++ exe)
    (hnew : s'.submitted.Nodup)
    (hu : (sub : Multiset T) + undecided (s.thread t) = rej + undecided (p, k))
    (ha : accepting (s.thread t) = acc + accepting (p, k))
    (hh : held (s.thread t) = exe + held (p, k))
    (hdone : ∀ n, s.completed = word n → s'.completed = word (n + done))
    (hbusy : (done : ℤ) + (if p.busy then 1 else 0) =
      exe.length + if (s.pc t).busy then 1 else 0) : Ledger s' := by
  have tu := total_update (f := undecided) hpc hq
  have ta := total_update (f := accepting) hpc hq
  have th := total_update (f := held) hpc hq
  refine ⟨hnew, ?_, ?_, ?_, ?_⟩
  · rw [hshared, hsub, hrej, ← Multiset.coe_add, ← Multiset.coe_add, h.submitted]
    refine add_right_cancel (b := undecided (s.thread t)) ?_
    calc _ = s.rejected + s.queue.shared.core.pushed + s.total undecided +
          (sub + undecided (s.thread t)) := by abel
      _ = s.rejected + rej + s.queue.shared.core.pushed +
          (s.total undecided + undecided (p, k)) := by rw [hu]; abel
      _ = _ := by rw [← tu]; abel
  · rw [hshared, hacc, ← Multiset.coe_add, h.pushed]
    rw [ha] at ta
    refine add_right_cancel (b := accepting (p, k)) ?_
    rw [add_assoc, ← ta]
    abel
  · rw [hshared, hexe, ← Multiset.coe_add, h.popped]
    rw [hh] at th
    refine add_right_cancel (b := held (p, k)) ?_
    rw [add_assoc, ← th]
    abel
  · obtain ⟨n, hn, hw⟩ := h.completed
    refine ⟨n + done, hdone n hn, ?_⟩
    rw [hpc, weight_update, hexe, List.length_append]
    push_cast
    linarith

/-- The place of a thread at which there is no job of the ledger. -/
def Jobless (x : PoolPc ι T × ThreadPc T) : Prop :=
  undecided x = 0 ∧ accepting x = 0 ∧ held x = 0

theorem Ledger.quiet (h : Ledger s) (hpc : s'.pc = Function.update s.pc t p)
    (hq : s'.queue.pc = Function.update s.queue.pc t k)
    (hshared : s'.queue.shared = s.queue.shared)
    (hlists : s'.submitted = s.submitted ∧ s'.accepted = s.accepted ∧ s'.rejected = s.rejected ∧
      s'.executed = s.executed)
    (hj : Jobless (s.thread t)) (hj' : Jobless (p, k)) (done : ℕ)
    (hdone : ∀ n, s.completed = word n → s'.completed = word (n + done))
    (hbusy : (done : ℤ) + (if p.busy then 1 else 0) = if (s.pc t).busy then 1 else 0) :
    Ledger s' := by
  obtain ⟨h1, h2, h3, h4⟩ := hlists
  refine h.move hpc hq hshared [] [] [] [] done (by simp [h1]) (by simp [h2]) (by simp [h3])
    (by simp [h4]) (h1 ▸ h.nodup) ?_ ?_ ?_ hdone (by simpa using hbusy)
  · simp [hj.1, hj'.1]
  · simp [hj.2.1, hj'.2.1]
  · simp [hj.2.2, hj'.2.2]

variable [Inhabited T] {workers : List ι} {capacity : ℕ} {maxSpinners : ℤ}

theorem Ledger.inQueue (h : Ledger s) (hfit : Fits (s.pc t) (s.queue.pc t)) {g' : Shared ι T}
    {w : Wake} {pc' : ι → ThreadPc T}
    (hl : Local maxSpinners t s.queue.shared (s.queue.pc t) g' k w)
    (hw : Woken s.queue.pc w pc') :
    Ledger { s with queue := ⟨g', Function.update pc' t k⟩ } := by
  have tu := total_inQueue (g := g') (k := k) (t := t) (f := undecided) hw fun p => by
    cases p <;> rfl
  have ta := total_inQueue (g := g') (k := k) (t := t) (f := accepting) hw fun p => by
    cases p <;> rfl
  have th := total_inQueue (g := g') (k := k) (t := t) (f := held) hw fun _ => rfl
  obtain ⟨hpub, out, ho, hheld⟩ := local_jobs hl (s.pc t)
  refine ⟨h.nodup, ?_, ?_, ?_, h.completed⟩
  · rcases hpub with ⟨hc, hk⟩ | ⟨job, q, hq, hc, hk, hk'⟩
    · rw [undecided_congr hk] at tu
      dsimp only
      rw [add_right_cancel tu, hc]
      exact h.submitted
    · rw [hq] at hfit hk
      obtain ⟨r, hr⟩ := fits_push hfit
      simp only [State.thread, hr, hq, undecided, hk, hk', if_true] at tu
      dsimp only
      rw [hc, ← Multiset.coe_add, h.submitted, ← add_zero (s.total undecided), ← tu,
        Multiset.coe_singleton]
      simp only [Bool.false_eq_true, if_false]
      abel
  · rcases hpub with ⟨hc, hk⟩ | ⟨job, q, hq, hc, hk, hk'⟩
    · rw [accepting_congr hk] at ta
      dsimp only
      rw [add_right_cancel ta, hc]
      exact h.pushed
    · rw [hq] at hfit hk
      obtain ⟨r, hr⟩ := fits_push hfit
      simp only [State.thread, hr, hq, accepting, hk, hk', if_true, Bool.false_eq_true,
        if_false, add_zero] at ta
      dsimp only
      rw [hc, ← Multiset.coe_add, h.pushed, ta, Multiset.coe_singleton]
      abel
  · dsimp only
    rw [ho, ← Multiset.coe_add, h.popped]
    rw [hheld] at th
    refine add_right_cancel (b := held (s.pc t, s.queue.pc t)) ?_
    calc _ = s.executed + (s.total held + (held (s.pc t, s.queue.pc t) + out)) := by abel
      _ = _ := by rw [← th]; abel_nf; rfl

theorem Ledger.step (h : Ledger s) (hp : Placed workers s)
    (hs : Move workers capacity maxSpinners s s') : Ledger s' := by
  cases hs
  case submit t job r hpc hq hnew =>
    refine h.move (t := t) rfl rfl rfl [job] [] [] [] 0 rfl (by simp) (by simp) (by simp) ?_ ?_ ?_
      ?_ (fun n hn => hn) ?_
    · exact List.nodup_append.mpr ⟨h.nodup, List.nodup_singleton _, by
        simpa using fun x hx => ne_of_mem_of_not_mem hx hnew⟩
    · cases r <;> simp [State.thread, hpc, hq, PoolPc.back, undecided, published]
    · cases r <;> simp [State.thread, hpc, hq, PoolPc.back, accepting, published]
    · simp [State.thread, hq, held]
    · cases r <;> simp [hpc, PoolPc.back, PoolPc.busy]
  case inQueue t ch q hq =>
    obtain ⟨u, c, he, -⟩ | ⟨u, ch', g', k, w, pc', he, hl, hw, rfl⟩ | ⟨u, r, he, -⟩ := step_cases hq
    · cases he
    · exact h.inQueue (hp.fits u) hl hw
    · cases he
  case accepted t job r hpc hq =>
    refine h.move (t := t) rfl rfl rfl [] [job] [] [] 0 (by simp [State.take]) rfl
      (by simp [State.take]) (by simp [State.take]) h.nodup ?_ ?_ ?_ (fun n hn => hn) ?_
    · cases r <;> simp [State.thread, hpc, hq, PoolPc.back, undecided, published]
    · cases r <;> simp [State.thread, hpc, hq, PoolPc.back, accepting, published]
    · simp [State.thread, hq, held]
    · cases r <;> simp [hpc, PoolPc.back, PoolPc.busy]
  case rejected t job r hpc hq =>
    refine h.move (t := t) rfl rfl rfl [] [] [job] [] 0 (by simp [State.take]) (by simp [State.take])
      rfl (by simp [State.take]) h.nodup ?_ ?_ ?_ (fun n hn => hn) ?_
    · cases r <;> simp [State.thread, hpc, hq, PoolPc.back, undecided, published]
    · cases r <;> simp [State.thread, hpc, hq, PoolPc.back, accepting, published]
    · simp [State.thread, hq, held]
    · cases r <;> simp [hpc, PoolPc.back, PoolPc.busy]
  case popped t job hpc hq =>
    refine h.move (t := t) rfl rfl rfl [] [] [] [job] 0 (by simp [State.take]) (by simp [State.take])
      (by simp [State.take]) rfl h.nodup ?_ ?_ ?_ (fun n hn => hn) ?_
    · simp [State.thread, hpc, undecided]
    · simp [State.thread, hpc, accepting]
    · simp [State.thread, hq, held]
    · simp [hpc, PoolPc.busy]
  case pop t hpc hq =>
    exact h.quiet (t := t) (p := .popping) rfl rfl rfl ⟨rfl, rfl, rfl, rfl⟩
      (by simp [State.thread, hpc, hq, Jobless, undecided, accepting, held]) ⟨rfl, rfl, rfl⟩ 0
      (fun n hn => hn) (by simp [hpc, PoolPc.busy])
  case exit t hpc hq =>
    exact h.quiet (t := t) (p := .exited) rfl rfl rfl ⟨rfl, rfl, rfl, rfl⟩
      (by simp [State.thread, hpc, hq, Jobless, undecided, accepting, held]) ⟨rfl, rfl, rfl⟩ 0
      (fun n hn => hn) (by simp [hpc, PoolPc.busy])
  case finish t job hpc =>
    obtain ⟨hq, hq'⟩ := hp.idle (t := t) (by rw [hpc]; rfl)
    exact h.quiet (t := t) (p := .count) rfl hq' rfl ⟨rfl, rfl, rfl, rfl⟩
      (by simp [State.thread, hpc, hq, Jobless, undecided, accepting, held]) ⟨rfl, rfl, rfl⟩ 0
      (fun n hn => hn) (by simp [hpc, PoolPc.busy])
  case count t hpc =>
    obtain ⟨hq, hq'⟩ := hp.idle (t := t) (by rw [hpc]; rfl)
    refine h.quiet (t := t) (p := .head) rfl hq' rfl ⟨rfl, rfl, rfl, rfl⟩
      (by simp [State.thread, hpc, hq, Jobless, undecided, accepting, held]) ⟨rfl, rfl, rfl⟩ 1
      (fun n hn => ?_) (by simp [hpc, PoolPc.busy])
    simp [State.goto, hn, word]
  case lose => exact h
  case shutdown t hpc hq =>
    exact h.quiet (t := t) (p := .closing) rfl rfl rfl ⟨rfl, rfl, rfl, rfl⟩
      (by simp [State.thread, hpc, hq, Jobless, undecided, accepting, held]) ⟨rfl, rfl, rfl⟩ 0
      (fun n hn => hn) (by simp [hpc, PoolPc.busy])
  case closed t hpc hq =>
    exact h.quiet (t := t) (p := .joining workers) rfl rfl rfl ⟨rfl, rfl, rfl, rfl⟩
      (by simp [State.thread, hpc, hq, Jobless, undecided, accepting, held]) ⟨rfl, rfl, rfl⟩ 0
      (fun n hn => hn) (by simp [hpc, PoolPc.busy])
  case join t v us hpc hv =>
    obtain ⟨hq, hq'⟩ := hp.idle (t := t) (by rw [hpc]; rfl)
    exact h.quiet (t := t) (p := .joining us) rfl hq' rfl ⟨rfl, rfl, rfl, rfl⟩
      (by simp [State.thread, hpc, hq, Jobless, undecided, accepting, held]) ⟨rfl, rfl, rfl⟩ 0
      (fun n hn => hn) (by simp [hpc, PoolPc.busy])
  case joined t hpc =>
    obtain ⟨hq, hq'⟩ := hp.idle (t := t) (by rw [hpc]; rfl)
    exact h.quiet (t := t) (p := .client) rfl hq' rfl ⟨rfl, rfl, rfl, rfl⟩
      (by simp [State.thread, hpc, hq, Jobless, undecided, accepting, held]) ⟨rfl, rfl, rfl⟩ 0
      (fun n hn => hn) (by simp [hpc, PoolPc.busy])

end

end OrderRisk.Pool
