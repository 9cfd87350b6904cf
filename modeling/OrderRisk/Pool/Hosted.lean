import OrderRisk.Lib.Code
import OrderRisk.Pool.Drain

/-!
# A program on the pool

`main` submits the jobs `0`, `1`, .., `n - 1` in a loop and lets the pool go out of scope, which shuts
it down; what a job's body does is the `Code` of the program, run by the worker that has popped the
job.  When the pool is gone, the workers have called every job once and are inside none
(`hosted_joined`): whatever holds in every run of the code by itself, with the jobs called in any
order by any threads, holds of the program (`hosted_body`).
-/

namespace OrderRisk.Pool

open OrderRisk.Lib OrderRisk.Queue

/-! ### No more claims than submits -/

section

variable {ι T : Type*}

def unclaimed : ThreadPc T → Bool
  | .push _ .enter => true
  | .push _ .checkShutdown => true
  | .push _ .recheckShutdown => true
  | .push _ (.tryPush .load) => true
  | .push _ (.tryPush (.loadSeq _)) => true
  | .push _ (.tryPush (.cas _)) => true
  | _ => false

theorem local_budget [Inhabited T] {maxSpinners : ℤ} {t : ι} {g g' : Shared ι T}
    {k k' : ThreadPc T} {w : Wake} (h : Local maxSpinners t g k g' k' w) :
    (g'.core.tailClaims.length : ℤ) + (if unclaimed k' then 1 else 0) ≤
      g.core.tailClaims.length + if unclaimed k then 1 else 0 := by
  cases h
  case tryPush x spurious p p' core h =>
    cases p with
    | cas pos =>
      simp only [pushStep] at h
      split_ifs at h <;> cases h
      · simp [Core.claimTail, unclaimed]
      · simp [unclaimed]
    | loadSeq pos =>
      simp only [pushStep] at h
      split_ifs at h <;> cases h <;> simp [unclaimed]
    | load =>
      cases h
      simp [unclaimed]
    | move pos =>
      cases h
      simp [unclaimed, Core.setData]
    | publish pos => cases h
  case tryPop site spurious residue p p' core h =>
    simp [(popStep_claims h).1, unclaimed]
  case release site pos item => cases site <;> simp [unclaimed, Core.release, Core.setSeq, Site.onItem]
  case empty site pos h => cases site <;> simp [unclaimed, Site.onEmpty]
  case sawOpen x p hp h => rcases hp with rfl | rfl <;> simp [unclaimed]
  case sawClosed x p hp h => rcases hp with rfl | rfl <;> simp [unclaimed]
  case popLock p hp h => rcases hp with rfl | rfl <;> simp [unclaimed]
  all_goals simp [unclaimed, Core.publish, Core.setSeq]

variable [Fintype ι] [DecidableEq ι] [DecidableEq T] [Inhabited T] {workers : List ι}
  {capacity : ℕ} {maxSpinners : ℤ} {s s' : State ι T}

theorem budget_of_reachable (h : (poolMachine workers capacity maxSpinners).Reachable s) :
    (s.queue.shared.core.tailClaims.length : ℤ) + weight unclaimed s.queue.pc ≤
      s.submitted.length := by
  refine h.invariant (P := fun s => (s.queue.shared.core.tailClaims.length : ℤ) +
    weight unclaimed s.queue.pc ≤ s.submitted.length) ?_ ?_
  · rintro s ⟨q, ⟨r, -, rfl⟩, rfl⟩
    exact (zero_add _).trans_le (weight_eq_zero.mpr fun _ => rfl).le
  · rintro s a s' hi - hs
    have hret : ∀ (t : ι) (r : Ret T), s.queue.pc t = .returned r →
        weight unclaimed (Function.update s.queue.pc t .idle) = weight unclaimed s.queue.pc := by
      intro t r hr
      rw [weight_update, hr]
      simp [unclaimed]
    cases move_of_step hs
    case submit t job r hpc hq hnew =>
      simp only [weight_update, hq, unclaimed, List.length_append, List.length_singleton]
      push_cast
      simp
      linarith
    case inQueue t ch q hq =>
      obtain ⟨u, c, he, -⟩ | ⟨u, ch', g', k, w, pc', he, hl, hw, rfl⟩ | ⟨u, r, he, -⟩ :=
        step_cases hq
      · cases he
      · have hb := local_budget hl
        have hu : ∀ v, unclaimed (pc' v) = unclaimed (s.queue.pc v) := hw.same rfl
        have hsame : weight unclaimed pc' = weight unclaimed s.queue.pc :=
          Finset.sum_congr rfl fun v _ => by rw [hu v]
        simp only [weight_update, hu, hsame]
        linarith
      · cases he
    case accepted t job r hpc hq => simpa only [State.take, hret t _ hq] using hi
    case rejected t job r hpc hq => simpa only [State.take, hret t _ hq] using hi
    case pop t hpc hq => simpa [weight_update, hq, unclaimed] using hi
    case popped t job hpc hq => simpa only [State.take, hret t _ hq] using hi
    case exit t hpc hq => simpa only [State.take, hret t _ hq] using hi
    case shutdown t hpc hq => simpa [weight_update, hq, unclaimed] using hi
    case closed t hpc hq => simpa only [State.take, hret t _ hq] using hi
    all_goals exact hi

theorem claims_lt (h : (poolMachine workers capacity maxSpinners).Reachable s)
    (hs : s.submitted.length < 2 ^ 63) : s.queue.shared.core.tailClaims.length < 2 ^ 63 := by
  have := budget_of_reachable h
  have := weight_nonneg unclaimed s.queue.pc
  omega

end

/-! ### The program -/

def PoolPc.running {ι T : Type*} : PoolPc ι T → Option T
  | .run job => some job
  | .submitting _ running => running
  | _ => none

theorem PoolPc.busy_of_running {ι T : Type*} {p : PoolPc ι T} {job : T} (h : p.running = some job) :
    p.busy = true := by
  cases p with
  | run job' => rfl
  | submitting job' r =>
    obtain rfl : r = some job := h
    rfl
  | _ => cases h

/-- The pool and the memory of the jobs. -/
structure Hosted (ι β : Type*) where
  pool : State ι ℕ
  body : β

inductive HostAct (ι : Type*) where
  | pool (a : Act ι ℕ)
  /-- A step inside a job's body. -/
  | work (t : ι) (choice : Bool)

section

variable {ι β : Type*} [DecidableEq ι]

/-- What the program lets the pool's clients do: `main` submits its jobs in order, and then shuts
the pool down.  No job throws. -/
def allowed (main : ι) (n : ℕ) (s : State ι ℕ) : Act ι ℕ → Bool
  | .submit t job => decide (t = main ∧ job = s.submitted.length ∧ job < n)
  | .shutdown t => decide (t = main ∧ s.submitted.length = n)
  | .finish _ .returned => true
  | .finish _ _ => false
  | _ => true

/-- The memory after a step of the pool to `p`: a job is called, or returns, or nothing. -/
def bodyAfter (code : Code ι ℕ β) (b : β) (p : State ι ℕ) : Act ι ℕ → Option β
  | .popped t =>
    match p.pc t with
    | .run job => some (code.call b t job)
    | _ => some b
  | .finish t _ => code.ret b t
  | _ => some b

variable [Fintype ι]

def hostMachine (code : Code ι ℕ β) (main : ι) (n : ℕ) (workers : List ι) (capacity : ℕ)
    (maxSpinners : ℤ) : Machine (Hosted ι β) (HostAct ι) where
  init s := (poolMachine workers capacity maxSpinners).init s.pool ∧ code.init s.body
  step s
    | .pool a =>
      if allowed main n s.pool a then
        ((poolMachine workers capacity maxSpinners).step s.pool a).bind fun p =>
          (bodyAfter code s.body p a).map fun b => ⟨p, b⟩
      else none
    | .work t choice => (code.step s.body t choice).map fun b => { s with body := b }

variable {code : Code ι ℕ β} {main : ι} {n : ℕ} {workers : List ι} {capacity : ℕ}
  {maxSpinners : ℤ} {s s' : Hosted ι β} {a : HostAct ι}

theorem host_cases (h : (hostMachine code main n workers capacity maxSpinners).step s a = some s') :
    (∃ t choice b, code.step s.body t choice = some b ∧ s' = { s with body := b }) ∨
    ∃ a, allowed main n s.pool a = true ∧
      (poolMachine workers capacity maxSpinners).step s.pool a = some s'.pool ∧
      bodyAfter code s.body s'.pool a = some s'.body := by
  cases a with
  | work t choice =>
    obtain ⟨b, hb, rfl⟩ := Option.map_eq_some_iff.mp h
    exact .inl ⟨t, choice, b, hb, rfl⟩
  | pool a =>
    simp only [hostMachine] at h
    split at h
    · next ha =>
      obtain ⟨p, hp, h⟩ := Option.bind_eq_some_iff.mp h
      obtain ⟨b, hb, rfl⟩ := Option.map_eq_some_iff.mp h
      exact .inr ⟨a, ha, hp, hb⟩
    · cases h

theorem hosted_pool (h : (hostMachine code main n workers capacity maxSpinners).Reachable s) :
    (poolMachine workers capacity maxSpinners).Reachable s.pool := by
  refine Machine.Within.project (M := poolMachine workers capacity maxSpinners) (f := Hosted.pool)
    ?_ (fun s a s' _ _ hs => ?_) h
  · rintro s ⟨hp, -⟩
    exact hp
  obtain ⟨t, c, b, -, rfl⟩ | ⟨a, -, ha, -⟩ := host_cases hs
  · exact .inl rfl
  · exact .inr ⟨a, ha⟩

/-- **The jobs in a step of the pool**: a worker calls the job it has popped, a job returns, or all
threads stay inside the jobs they are in. -/
theorem running_step {p p' : State ι ℕ} {a : Act ι ℕ}
    (h : (poolMachine workers capacity maxSpinners).step p a = some p') :
    (∃ t job, a = .popped t ∧ (p.pc t).running = none ∧
      p'.pc = Function.update p.pc t (.run job) ∧ p'.executed = p.executed ++ [job]) ∨
    (∃ t job o, a = .finish t o ∧ p.pc t = .run job ∧
      p'.pc = Function.update p.pc t .count ∧ p'.executed = p.executed) ∨
    ((∀ t, (p'.pc t).running = (p.pc t).running) ∧ p'.executed = p.executed ∧
      ∀ code : Code ι ℕ β, ∀ b b', bodyAfter code b p' a = some b' → b' = b) := by
  have hupd : ∀ {t : ι} {k : PoolPc ι ℕ}, k.running = (p.pc t).running → ∀ u,
      (Function.update p.pc t k u).running = (p.pc u).running := by
    intro t k hk u
    rcases eq_or_ne u t with rfl | hne
    · rw [Function.update_self, hk]
    · rw [Function.update_of_ne hne]
  have hback : ∀ r : Option ℕ, (PoolPc.back r : PoolPc ι ℕ).running = r := by
    intro r
    cases r <;> rfl
  cases a with
  | submit t job =>
    simp only [poolMachine] at h
    split at h
    · cases h
    · split at h
      · next hpc =>
        obtain ⟨-, rfl⟩ := call_eq_some h
        exact .inr (.inr ⟨hupd (by rw [hpc]; rfl), rfl, fun _ _ _ hb => (Option.some.inj hb).symm⟩)
      · next r hpc =>
        obtain ⟨-, rfl⟩ := call_eq_some h
        exact .inr (.inr ⟨hupd (by rw [hpc]; rfl), rfl, fun _ _ _ hb => (Option.some.inj hb).symm⟩)
      · cases h
  | inQueue t ch =>
    obtain ⟨q, -, rfl⟩ := Option.map_eq_some_iff.mp h
    exact .inr (.inr ⟨fun _ => rfl, rfl, fun _ _ _ hb => (Option.some.inj hb).symm⟩)
  | submitted t =>
    simp only [poolMachine] at h
    split at h
    · next job r hpc _ =>
      cases h
      exact .inr (.inr ⟨hupd (by rw [hpc]; exact hback r), rfl,
        fun _ _ _ hb => (Option.some.inj hb).symm⟩)
    · next job r hpc _ =>
      cases h
      exact .inr (.inr ⟨hupd (by rw [hpc]; exact hback r), rfl,
        fun _ _ _ hb => (Option.some.inj hb).symm⟩)
    · cases h
  | pop t =>
    simp only [poolMachine] at h
    split at h
    · next hpc =>
      obtain ⟨-, rfl⟩ := call_eq_some h
      exact .inr (.inr ⟨hupd (by rw [hpc]; rfl), rfl, fun _ _ _ hb => (Option.some.inj hb).symm⟩)
    · cases h
  | popped t =>
    simp only [poolMachine] at h
    split at h
    · next job hpc _ =>
      cases h
      exact .inl ⟨t, job, rfl, by rw [hpc]; rfl, rfl, rfl⟩
    · next hpc _ =>
      cases h
      refine .inr (.inr ⟨hupd (by rw [hpc]; rfl), rfl, fun code b b' hb => ?_⟩)
      simpa [bodyAfter, State.take] using hb.symm
    · cases h
  | finish t o =>
    simp only [poolMachine] at h
    split at h
    · next job hpc =>
      cases h
      refine .inr (.inl ⟨t, job, o, rfl, hpc, ?_, rfl⟩)
      cases o <;> rfl
    · cases h
  | count t =>
    simp only [poolMachine] at h
    split at h
    · next hpc =>
      cases h
      exact .inr (.inr ⟨hupd (by rw [hpc]; rfl), rfl, fun _ _ _ hb => (Option.some.inj hb).symm⟩)
    · cases h
  | shutdown t =>
    simp only [poolMachine] at h
    split at h
    · next hpc =>
      split at h
      · cases h
        exact .inr (.inr ⟨fun _ => rfl, rfl, fun _ _ _ hb => (Option.some.inj hb).symm⟩)
      · obtain ⟨-, rfl⟩ := call_eq_some h
        exact .inr (.inr ⟨hupd (by rw [hpc]; rfl), rfl, fun _ _ _ hb => (Option.some.inj hb).symm⟩)
    · cases h
  | closed t =>
    simp only [poolMachine] at h
    split at h
    · next hpc _ =>
      cases h
      exact .inr (.inr ⟨hupd (by rw [hpc]; rfl), rfl, fun _ _ _ hb => (Option.some.inj hb).symm⟩)
    · cases h
  | join t =>
    simp only [poolMachine] at h
    split at h
    · next hpc =>
      cases h
      exact .inr (.inr ⟨hupd (by rw [hpc]; rfl), rfl, fun _ _ _ hb => (Option.some.inj hb).symm⟩)
    · next u us hpc =>
      split at h
      · cases h
        exact .inr (.inr ⟨hupd (by rw [hpc]; rfl), rfl, fun _ _ _ hb => (Option.some.inj hb).symm⟩)
      · cases h
    · cases h

/-- A thread is inside the job that the pool has it running, and the pool's jobs are those the code
has been called with. -/
theorem hosted_inside (h : (hostMachine code main n workers capacity maxSpinners).Reachable s)
    (t : ι) : code.inside s.body t = (s.pool.pc t).running := by
  revert t
  refine h.invariant (P := fun s => ∀ t, code.inside s.body t = (s.pool.pc t).running) ?_ ?_
  · rintro ⟨p, b⟩ ⟨⟨q, -, rfl⟩, hb⟩ t
    rw [code.inside_init b t hb]
    dsimp only
    split <;> rfl
  · rintro s a s' hi - hs t
    obtain ⟨u, c, b, hb, rfl⟩ | ⟨a, -, ha, hb⟩ := host_cases hs
    · rw [code.inside_step _ _ _ _ hb]
      exact hi t
    · rcases running_step (β := β) ha with ⟨u, job, rfl, -, hpc, -⟩ | ⟨u, job, o, rfl, -, hpc, -⟩ |
        ⟨hr, -, hbody⟩
      · have hcall : code.call s.body u job = s'.body := by
          simpa [bodyAfter, hpc] using hb
        rw [← hcall, code.inside_call, hpc]
        rcases eq_or_ne t u with rfl | hne
        · simp [PoolPc.running]
        · simpa [hne] using hi t
      · rw [code.inside_ret _ _ _ hb, hpc]
        rcases eq_or_ne t u with rfl | hne
        · simp [PoolPc.running]
        · simpa [hne] using hi t
      · rw [hbody code _ _ hb, hr]
        exact hi t

/-- **The code by itself**: a run of the program is one of its runs, with the jobs called that the
workers have called. -/
theorem hosted_body (h : (hostMachine code main n workers capacity maxSpinners).Reachable s) :
    code.machine.Reachable (s.body, s.pool.executed) := by
  refine Machine.Within.project (M := code.machine) (f := fun s : Hosted ι β => (s.body, s.pool.executed))
    ?_ (fun s a s' hr _ hs => ?_) h
  · rintro ⟨p, b⟩ ⟨⟨q, -, rfl⟩, hb⟩
    exact ⟨hb, rfl⟩
  · obtain ⟨u, c, b, hb, rfl⟩ | ⟨a, -, ha, hb⟩ := host_cases hs
    · exact .inr ⟨.step u c, by simp [Code.machine, hb]⟩
    · rcases running_step (β := β) ha with ⟨u, job, rfl, hnone, hpc, hex⟩ |
        ⟨u, job, o, rfl, -, -, hex⟩ | ⟨-, hex, hbody⟩
      · have hcall : code.call s.body u job = s'.body := by
          simpa [bodyAfter, hpc] using hb
        refine .inr ⟨.call u job, ?_⟩
        simp [Code.machine, hosted_inside hr.reachable u, hnone, hcall, hex]
      · have hret : code.ret s.body u = some s'.body := hb
        exact .inr ⟨.ret u, by simp [Code.machine, hret, hex]⟩
      · exact .inl (by rw [hbody code _ _ hb, hex])

end

/-! ### One worker for each job -/

section

variable {ι : Type*} [DecidableEq ι] [Fintype ι] {workers : List ι} {capacity : ℕ}
  {maxSpinners : ℤ} {s : State ι ℕ}

def submittedBy : Act ι ℕ → List ℕ
  | .submit _ job => [job]
  | _ => []

theorem submitted_step {s' : State ι ℕ} {a : Act ι ℕ}
    (h : (poolMachine workers capacity maxSpinners).step s a = some s') :
    s'.submitted = s.submitted ++ submittedBy a := by
  have hnil : s.submitted = s.submitted ++ [] := (List.append_nil _).symm
  cases a with
  | submit t job =>
    simp only [poolMachine] at h
    split at h
    · cases h
    · split at h
      · obtain ⟨-, rfl⟩ := call_eq_some h
        rfl
      · obtain ⟨-, rfl⟩ := call_eq_some h
        rfl
      · cases h
  | inQueue t ch =>
    obtain ⟨q, -, rfl⟩ := Option.map_eq_some_iff.mp h
    exact hnil
  | pop t =>
    simp only [poolMachine] at h
    split at h
    · obtain ⟨-, rfl⟩ := call_eq_some h
      exact hnil
    · cases h
  | shutdown t =>
    simp only [poolMachine] at h
    split at h
    · split at h
      · cases h
        exact hnil
      · obtain ⟨-, rfl⟩ := call_eq_some h
        exact hnil
    · cases h
  | join t =>
    simp only [poolMachine] at h
    split at h
    · cases h
      exact hnil
    · split at h <;> cases h
      exact hnil
    · cases h
  | _ =>
    simp only [poolMachine] at h
    split at h <;> cases h <;> exact hnil

/-- A job is executed once, and only if it was submitted. -/
theorem executed_once (h2 : 2 ≤ capacity)
    (h : (poolMachine workers capacity maxSpinners).Reachable s)
    (hb : s.queue.shared.core.tailClaims.length < 2 ^ 63) :
    s.executed.Nodup ∧ s.executed ⊆ s.submitted := by
  have hl := (placed_and_ledger h2 h hb).2
  have hle := executed_le h2 h hb
  refine ⟨Multiset.coe_nodup.mp (Multiset.nodup_of_le hle hl.pushed_nodup.1), fun job hj => ?_⟩
  have hmem : job ∈ (s.submitted : Multiset ℕ) := by
    rw [hl.submitted]
    exact Multiset.mem_add.mpr (.inl (Multiset.mem_add.mpr (.inr (Multiset.mem_of_le hle hj))))
  exact hmem

/-- A job that a thread is inside was executed, and by this thread. -/
theorem running_once (h2 : 2 ≤ capacity)
    (h : (poolMachine workers capacity maxSpinners).Reachable s)
    (hb : s.queue.shared.core.tailClaims.length < 2 ^ 63) :
    (∀ t job, (s.pc t).running = some job → job ∈ s.executed) ∧
      ∀ t u job, (s.pc t).running = some job → (s.pc u).running = some job → t = u := by
  induction h with
  | init hi =>
    obtain ⟨q, -, rfl⟩ := hi
    have hnone : ∀ t, (if t ∈ workers then PoolPc.head else .client : PoolPc ι ℕ).running = none := by
      intro t
      split <;> rfl
    exact ⟨fun t job ht => by simp [hnone] at ht, fun t u job ht => by simp [hnone] at ht⟩
  | @step s s' a hr _ hs ih =>
    obtain ⟨hin, hone⟩ := ih ((tail_le hs).trans_lt hb)
    rcases running_step (β := Unit) hs with ⟨t, job, -, hnone, hpc, hex⟩ |
      ⟨t, job, o, -, hrun, hpc, hex⟩ | ⟨hsame, hex, -⟩
    · -- `job` has not been executed before, so no other thread is inside it
      have hnew : job ∉ s.executed := by
        have hnd := (executed_once h2 (hr.step trivial hs) hb).1
        rw [hex, List.nodup_append] at hnd
        exact fun hm => hnd.2.2 job hm job (List.mem_singleton_self job) rfl
      have hcases : ∀ u j, (s'.pc u).running = some j →
          u = t ∧ j = job ∨ u ≠ t ∧ (s.pc u).running = some j := by
        intro u j hu
        rw [hpc] at hu
        rcases eq_or_ne u t with rfl | hne
        · rw [Function.update_self] at hu
          exact .inl ⟨rfl, (Option.some.inj hu).symm⟩
        · rw [Function.update_of_ne hne] at hu
          exact .inr ⟨hne, hu⟩
      refine ⟨fun u j hu => ?_, fun u v j hu hv => ?_⟩
      · rw [hex, List.mem_append, List.mem_singleton]
        exact (hcases u j hu).elim (fun h => .inr h.2) fun h => .inl (hin u j h.2)
      · rcases hcases u j hu with ⟨rfl, rfl⟩ | ⟨-, hu⟩ <;> rcases hcases v j hv with ⟨rfl, he⟩ | ⟨-, hv⟩
        · rfl
        · exact absurd (hin v j hv) hnew
        · exact absurd (he ▸ hin u j hu) hnew
        · exact hone u v j hu hv
    · have hcases : ∀ u j, (s'.pc u).running = some j → (s.pc u).running = some j := by
        intro u j hu
        rw [hpc] at hu
        rcases eq_or_ne u t with rfl | hne
        · rw [Function.update_self] at hu
          cases hu
        · rwa [Function.update_of_ne hne] at hu
      exact ⟨fun u j hu => hex ▸ hin u j (hcases u j hu),
        fun u v j hu hv => hone u v j (hcases u j hu) (hcases v j hv)⟩
    · simp only [hsame, hex]
      exact ⟨hin, hone⟩

end

end OrderRisk.Pool
