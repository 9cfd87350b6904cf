import OrderRisk.Pool.Hosted

/-!
# From the first `submit` to the last join

`Driven` is what `main`'s program order adds to the pool's own invariants: it is the only client, it
has submitted a beginning of its jobs, and it shuts the pool down behind the last one, so that no
`submit` is ever refused.  With the pool's drain that gives `hosted_joined`.
-/

namespace OrderRisk.Pool

open OrderRisk.Lib OrderRisk.Queue

section

variable {ι T : Type*}

def PoolPc.asClient : PoolPc ι T → Bool
  | .submitting _ _ => true
  | .closing => true
  | .joining _ => true
  | _ => false

def PoolPc.ending : PoolPc ι T → Bool
  | .closing => true
  | .joining _ => true
  | _ => false

def refused : ThreadPc T → Bool
  | .push _ .reject => true
  | .returned (.pushed false) => true
  | _ => false

theorem local_refused [Inhabited T] {maxSpinners : ℤ} {t : ι} {g g' : Shared ι T}
    {k k' : ThreadPc T} {w : Wake} (h : Local maxSpinners t g k g' k' w) (hk' : refused k' = true) :
    refused k = true ∨ (∃ x p, k = .push x p) ∧ g.shutdown = true := by
  cases h
  case sawClosed x p hp h => exact .inr ⟨⟨x, p, rfl⟩, h⟩
  case reject x => exact .inl rfl
  case release site pos item => cases site <;> cases hk'
  case empty site pos h => cases site <;> cases hk'
  all_goals cases hk'

theorem local_shutdown [Inhabited T] {maxSpinners : ℤ} {t : ι} {g g' : Shared ι T}
    {k k' : ThreadPc T} {w : Wake} (h : Local maxSpinners t g k g' k' w)
    (hg' : g'.shutdown = true) : g.shutdown = true ∨ k = .shutdown .store := by
  cases h
  case store => exact .inr rfl
  all_goals exact .inl hg'

theorem fits_shutdown {p : PoolPc ι T} {q : ShutdownAt} (h : Fits p (.shutdown q)) :
    p = .closing := by
  cases p with
  | closing => rfl
  | submitting job r => rcases h with ⟨_, h⟩ | ⟨_, h⟩ <;> cases h
  | popping => rcases h with ⟨_, h⟩ | ⟨_, h⟩ <;> cases h
  | _ => cases h

end

variable {ι β : Type*} [DecidableEq ι]

/-- **What `main`'s program order says about the pool.** -/
structure Driven (main : ι) (n : ℕ) (s : State ι ℕ) : Prop where
  submitted : s.submitted = List.range s.submitted.length
  le : s.submitted.length ≤ n
  mine : ∀ t, (s.pc t).asClient = true → t = main
  shut : s.shuttingDown = true →
    s.submitted.length = n ∧ ∀ job r, s.pc main ≠ .submitting job r
  ending : (s.pc main).ending = true → s.shuttingDown = true
  flag : s.queue.shared.shutdown = true → s.shuttingDown = true
  rejected : s.rejected = []
  kept : ∀ t, refused (s.queue.pc t) = false
  joined : s.joined = true → s.shuttingDown = true ∧ s.pc main = .client

section

variable {main : ι} {n : ℕ} {s s' : State ι ℕ} {t : ι} {k : PoolPc ι ℕ}

/-- Thread `t` goes to `k`, which is not in `submit`. -/
theorem Driven.move (h : Driven main n s) (hpc : s'.pc = Function.update s.pc t k)
    (hsub : s'.submitted = s.submitted) (hflag : s'.shuttingDown = s.shuttingDown)
    (hrej : s'.rejected = s.rejected) (hj : s'.joined = s.joined)
    (hshared : s'.queue.shared = s.queue.shared) (hq : ∀ u, refused (s'.queue.pc u) = false)
    (hmine : k.asClient = true → t = main) (hk : ∀ job r, k ≠ .submitting job r)
    (hend : k.ending = true → s.shuttingDown = true) (hne : s.pc t ≠ .client) :
    Driven main n s' := by
  refine ⟨hsub ▸ h.submitted, hsub ▸ h.le, fun u hu => ?_, fun hs => ?_, fun he => ?_, fun hs => ?_,
    hrej ▸ h.rejected, hq, fun hs => ?_⟩
  · rw [hpc] at hu
    rcases eq_or_ne u t with rfl | hut
    · exact hmine (by simpa using hu)
    · exact h.mine u (by simpa [hut] using hu)
  · rw [hflag] at hs
    refine ⟨hsub ▸ (h.shut hs).1, fun job r hp => ?_⟩
    rw [hpc] at hp
    rcases eq_or_ne main t with rfl | hut
    · exact hk job r (by simpa using hp)
    · exact (h.shut hs).2 job r (by simpa [hut] using hp)
  · rw [hpc] at he
    rw [hflag]
    rcases eq_or_ne main t with rfl | hut
    · exact hend (by simpa using he)
    · exact h.ending (by simpa [hut] using he)
  · rw [hflag]
    rw [hshared] at hs
    exact h.flag hs
  · rw [hj] at hs
    rw [hflag, hpc]
    obtain ⟨h1, h2⟩ := h.joined hs
    refine ⟨h1, ?_⟩
    rw [Function.update_of_ne]
    · exact h2
    · rintro rfl
      exact hne h2

theorem Driven.moveWorker (h : Driven main n s) (hpc : s'.pc = Function.update s.pc t k)
    (hsub : s'.submitted = s.submitted) (hflag : s'.shuttingDown = s.shuttingDown)
    (hrej : s'.rejected = s.rejected) (hj : s'.joined = s.joined)
    (hshared : s'.queue.shared = s.queue.shared) (hq : ∀ u, refused (s'.queue.pc u) = false)
    (hk : k.asClient = false) (hne : s.pc t ≠ .client) : Driven main n s' := by
  refine h.move hpc hsub hflag hrej hj hshared hq (fun hc => ?_) (fun job r he => ?_) (fun he => ?_) hne
  · rw [hk] at hc
    cases hc
  · rw [he] at hk
    cases hk
  · cases k with
    | closing => cases hk
    | joining left => cases hk
    | _ => cases he

theorem Driven.kept_update (h : Driven main n s) {q : ThreadPc ℕ} (hq : refused q = false) (u : ι) :
    refused (Function.update s.queue.pc t q u) = false := by
  rcases eq_or_ne u t with rfl | hut
  · rw [Function.update_self, hq]
  · rw [Function.update_of_ne hut]
    exact h.kept u

variable [Fintype ι] {workers : List ι} {capacity : ℕ} {maxSpinners : ℤ} {a : Act ι ℕ}

theorem Driven.init (h : (poolMachine workers capacity maxSpinners).init s) : Driven main n s := by
  obtain ⟨q, ⟨r, -, rfl⟩, rfl⟩ := h
  have hpc : ∀ t, (if t ∈ workers then PoolPc.head else .client : PoolPc ι ℕ) = .head ∨
      (if t ∈ workers then PoolPc.head else .client : PoolPc ι ℕ) = .client := by
    intro t
    split <;> simp
  refine ⟨rfl, Nat.zero_le n, fun t ht => ?_, nofun, fun he => ?_, nofun, rfl, fun t => rfl, nofun⟩
  · rcases hpc t with h | h <;> simp [h, PoolPc.asClient] at ht
  · rcases hpc main with h | h <;> simp [h, PoolPc.ending] at he

theorem Driven.submit {job : ℕ} (h : Driven main n s) (hp : allowed main n s (.submit t job) = true)
    (hs : (poolMachine workers capacity maxSpinners).step s (.submit t job) = some s') :
    Driven main n s' := by
  obtain ⟨rfl, rfl, hlt⟩ : t = main ∧ job = s.submitted.length ∧ job < n := by
    simpa [allowed] using hp
  have hopen : s.shuttingDown = false := by
    by_contra hd
    have := (h.shut (by simpa using hd)).1
    omega
  have hafter : ∀ r : Option ℕ, Driven t n { s with
      queue := { s.queue with
        pc := Function.update s.queue.pc t (.push s.submitted.length .enter) }
      pc := Function.update s.pc t (.submitting s.submitted.length r)
      submitted := s.submitted ++ [s.submitted.length] } := by
    intro r
    refine ⟨?_, ?_, fun u hu => ?_, fun hd => ?_, fun he => ?_, h.flag, h.rejected,
      h.kept_update rfl, fun hj => ?_⟩
    · rw [List.length_append, List.length_singleton, List.range_succ, ← h.submitted]
    · rw [List.length_append, List.length_singleton]
      exact hlt
    · rcases eq_or_ne u t with rfl | hut
      · rfl
      · exact h.mine u (by simpa [hut] using hu)
    · rw [hopen] at hd
      cases hd
    · simp [PoolPc.ending] at he
    · rw [(h.joined hj).1] at hopen
      cases hopen
  simp only [poolMachine] at hs
  split at hs
  · cases hs
  · split at hs
    · obtain ⟨-, rfl⟩ := call_eq_some hs
      exact hafter none
    · next r _ =>
      obtain ⟨-, rfl⟩ := call_eq_some hs
      exact hafter (some r)
    · cases hs

theorem Driven.inQueue {ch : Choice ι ℕ} (h : Driven main n s) (hplaced : Placed workers s)
    (hs : (poolMachine workers capacity maxSpinners).step s (.inQueue t ch) = some s') :
    Driven main n s' := by
  obtain ⟨q, hq, rfl⟩ := Option.map_eq_some_iff.mp hs
  obtain ⟨u, c, he, -⟩ | ⟨u, ch', g', k, w, pc', he, hl, hw, rfl⟩ | ⟨u, r, he, -⟩ := step_cases hq
  · cases he
  · have hfit := hplaced.fits u
    refine ⟨h.submitted, h.le, h.mine, h.shut, h.ending, fun hd => ?_, h.rejected, fun v => ?_,
      h.joined⟩
    · rcases local_shutdown hl hd with hd | hk
      · exact h.flag hd
      · -- who stores the flag is in `shutdown()`
        rw [hk] at hfit
        have hc := fits_shutdown hfit
        have hu := h.mine u (by rw [hc]; rfl)
        exact h.ending (by rw [← hu, hc]; rfl)
    · have hold : ∀ v, refused (pc' v) = false := fun v =>
        (hw.same (f := refused) rfl v).trans (h.kept v)
      dsimp only
      rcases eq_or_ne v u with rfl | hvu
      · rw [Function.update_self]
        by_contra hk
        rcases local_refused hl (by simpa using hk) with hk | ⟨⟨x, p, hk⟩, hd⟩
        · rw [h.kept] at hk
          cases hk
        · -- the flag is set behind the last `submit`
          rw [hk] at hfit
          obtain ⟨r, hr⟩ := fits_push hfit
          have hv := h.mine v (by rw [hr]; rfl)
          exact (h.shut (h.flag hd)).2 x r (by rw [← hv, hr])
      · rw [Function.update_of_ne hvu]
        exact hold v
  · cases he

theorem Driven.shutdown (h : Driven main n s) (hp : allowed main n s (.shutdown t) = true)
    (hs : (poolMachine workers capacity maxSpinners).step s (.shutdown t) = some s') :
    Driven main n s' := by
  obtain ⟨rfl, hlen⟩ : t = main ∧ s.submitted.length = n := by simpa [allowed] using hp
  simp only [poolMachine] at hs
  split at hs
  · next hpc =>
    split at hs
    · cases hs
      exact h
    · next hopen =>
      obtain ⟨-, rfl⟩ := call_eq_some hs
      refine ⟨h.submitted, h.le, fun u hu => ?_, fun _ => ⟨hlen, fun job r he => ?_⟩, fun _ => rfl,
        fun _ => rfl, h.rejected, h.kept_update rfl, fun hj => ?_⟩
      · rcases eq_or_ne u t with rfl | hut
        · rfl
        · exact h.mine u (by simpa [hut] using hu)
      · simp at he
      · exact absurd (h.joined hj).1 hopen
  · cases hs

theorem Driven.join (h : Driven main n s)
    (hs : (poolMachine workers capacity maxSpinners).step s (.join t) = some s') :
    Driven main n s' := by
  simp only [poolMachine] at hs
  split at hs
  · next hpc =>
    cases hs
    have ht := h.mine t (by rw [hpc]; rfl)
    subst ht
    have hd := h.ending (by rw [hpc]; rfl)
    refine ⟨h.submitted, h.le, fun u hu => ?_, fun _ => ⟨(h.shut hd).1, fun job r he => ?_⟩,
      fun _ => hd, h.flag, h.rejected, h.kept, fun _ => ⟨hd, ?_⟩⟩
    · rcases eq_or_ne u t with rfl | hut
      · rfl
      · exact h.mine u (by simpa [State.goto, hut] using hu)
    · simp [State.goto] at he
    · exact Function.update_self ..
  · next u us hpc =>
    split at hs
    · cases hs
      have ht := h.mine t (by rw [hpc]; rfl)
      exact h.move (t := t) (k := .joining us) rfl rfl rfl rfl rfl rfl h.kept (fun _ => ht) (by simp)
        (fun _ => h.ending (by rw [← ht, hpc]; rfl)) (by simp [hpc])
    · cases hs
  · cases hs

theorem Driven.step (h : Driven main n s) (hplaced : Placed workers s)
    (hp : allowed main n s a = true)
    (hs : (poolMachine workers capacity maxSpinners).step s a = some s') : Driven main n s' := by
  cases a with
  | submit t job => exact h.submit hp hs
  | inQueue t ch => exact h.inQueue hplaced hs
  | shutdown t => exact h.shutdown hp hs
  | join t => exact h.join hs
  | submitted t =>
    simp only [poolMachine] at hs
    split at hs
    · next job r hpc hq =>
      cases hs
      exact h.moveWorker (t := t) (k := .back r) rfl rfl rfl rfl rfl rfl (h.kept_update rfl)
        (by cases r <;> rfl) (by simp [hpc])
    · next job r hpc hq =>
      -- no `submit` is refused
      have := h.kept t
      rw [hq] at this
      cases this
    · cases hs
  | pop t =>
    simp only [poolMachine] at hs
    split at hs
    · next hpc =>
      obtain ⟨-, rfl⟩ := call_eq_some hs
      exact h.moveWorker (t := t) (k := .popping) rfl rfl rfl rfl rfl rfl (h.kept_update rfl)
        rfl (by simp [hpc])
    · cases hs
  | popped t =>
    simp only [poolMachine] at hs
    split at hs
    · next job hpc _ =>
      cases hs
      exact h.moveWorker (t := t) (k := .run job) rfl rfl rfl rfl rfl rfl (h.kept_update rfl)
        rfl (by simp [hpc])
    · next hpc _ =>
      cases hs
      exact h.moveWorker (t := t) (k := .exited) rfl rfl rfl rfl rfl rfl (h.kept_update rfl)
        rfl (by simp [hpc])
    · cases hs
  | finish t o =>
    simp only [poolMachine] at hs
    split at hs
    · next job hpc =>
      cases hs
      exact h.moveWorker (t := t) (k := o.next) rfl rfl rfl rfl rfl rfl h.kept
        (by cases o <;> rfl) (by simp [hpc])
    · cases hs
  | count t =>
    simp only [poolMachine] at hs
    split at hs
    · next hpc =>
      cases hs
      exact h.moveWorker (t := t) (k := .head) rfl rfl rfl rfl rfl rfl h.kept rfl
        (by simp [hpc])
    · cases hs
  | closed t =>
    simp only [poolMachine] at hs
    split at hs
    · next hpc _ =>
      cases hs
      have ht := h.mine t (by rw [hpc]; rfl)
      exact h.move (t := t) (k := .joining workers) rfl rfl rfl rfl rfl rfl (h.kept_update rfl)
        (fun _ => ht) (by simp) (fun _ => h.ending (by rw [← ht, hpc]; rfl)) (by simp [hpc])
    · cases hs

end

/-! ### Runs of the program -/

section

variable [Fintype ι] {code : Code ι ℕ β} {main : ι} {n : ℕ} {workers : List ι} {capacity : ℕ}
  {maxSpinners : ℤ} {s : Hosted ι β}

theorem driven_of_reachable (h2 : 2 ≤ capacity) (hn : n < 2 ^ 63)
    (h : (hostMachine code main n workers capacity maxSpinners).Reachable s) :
    Driven main n s.pool ∧ Placed workers s.pool ∧ Ledger s.pool := by
  have hrest : ∀ {s : Hosted ι β},
      (hostMachine code main n workers capacity maxSpinners).Reachable s → Driven main n s.pool →
      Placed workers s.pool ∧ Ledger s.pool := fun h hd =>
    placed_and_ledger h2 (hosted_pool h) (claims_lt (hosted_pool h) (hd.le.trans_lt hn))
  have hd : Driven main n s.pool := by
    induction h with
    | init hi => exact .init hi.1
    | step hr _ hs ih =>
      obtain ⟨t, c, b, -, rfl⟩ | ⟨a, hp, ha, -⟩ := host_cases hs
      · exact ih
      · exact ih.step (hrest hr ih).1 hp ha
  exact ⟨hd, hrest h hd⟩

/-- **When the pool is gone**, every job has been called exactly once and has returned, and
`completed_` has counted it. -/
theorem hosted_joined (h2 : 2 ≤ capacity) (hw : workers ≠ []) (hn : n < 2 ^ 63)
    (h : (hostMachine code main n workers capacity maxSpinners).Reachable s)
    (hj : s.pool.joined = true) : s.pool.executed.Perm (List.range n) ∧
      (∀ t, code.inside s.body t = none) ∧ s.pool.completed = n := by
  obtain ⟨hd, hp, hl⟩ := driven_of_reachable h2 hn h
  obtain ⟨hshut, hclient⟩ := hd.joined hj
  have hex := hp.joined hj
  have hlen := (hd.shut hshut).1
  -- nobody is in `submit`
  have hnone : ∀ t job r, s.pool.pc t ≠ .submitting job r := by
    intro t job r ht
    have := hd.mine t (by rw [ht]; rfl)
    rw [this, hclient] at ht
    cases ht
  have hzero : s.pool.total undecided = 0 := by
    refine Finset.sum_eq_zero fun t _ => ?_
    unfold undecided
    split
    · next job r k hk => exact absurd (congrArg Prod.fst hk) (hnone t _ _)
    · rfl
  obtain ⟨hacc, hcompleted⟩ := executed_eq_of_joined h2 hw (hosted_pool h)
    (claims_lt (hosted_pool h) (hd.le.trans_lt hn)) hj
  have hall : (s.pool.executed : Multiset ℕ) = List.range n := by
    have hsub := hl.submitted
    have hpush : (s.pool.queue.shared.core.pushed : Multiset ℕ) = s.pool.acceptedJobs := hl.pushed
    rw [hzero, hd.rejected, add_zero, Multiset.coe_nil, zero_add, hpush, ← hacc] at hsub
    rw [← hsub, hd.submitted, hlen]
  refine ⟨Multiset.coe_eq_coe.mp hall, fun t => ?_, ?_⟩
  · rw [hosted_inside h t]
    cases hpc : s.pool.pc t with
    | run job =>
      have := hex t (hp.worker t (by rw [hpc]; rfl))
      rw [hpc] at this
      cases this
    | submitting job r => exact absurd hpc (hnone t job r)
    | _ => rfl
  · rw [hcompleted, ← hacc, hall, Multiset.coe_card, List.length_range]

end

/-! ### A run with two workers -/

def idlePool : State (Fin 3) ℕ :=
  ⟨⟨.fresh ⟨fun i => ⟨i, 0⟩, 1, 0, 0⟩, fun _ => .idle⟩,
    fun t => if t ∈ [(0 : Fin 3), 1] then .head else .client, false, 0, [], [], [], [], false⟩

theorem idlePool_init : (poolMachine [(0 : Fin 3), 1] 2 1).init idlePool := ⟨_, ⟨_, rfl, rfl⟩, rfl⟩

def queueStep (t : Fin 3) : HostAct (Fin 3) := .pool (.inQueue t ⟨false, 0, none⟩)

/-- `main` submits a job for each entry of `steps` and shuts the pool down; worker 1 spins and serves
all jobs, each in as many steps as its entry says, while worker 0 is refused the spin slot; then both
exit and the shutdown joins them. -/
def drainedRun (steps : List ℕ) : List (HostAct (Fin 3)) :=
  [.pool (.pop 1), queueStep 1] ++
    (List.range steps.length).flatMap (fun job =>
      [.pool (.submit 2 job)] ++ List.replicate 9 (queueStep 2) ++ [.pool (.submitted 2)]) ++
    [.pool (.shutdown 2)] ++ List.replicate 4 (queueStep 2) ++ [.pool (.closed 2)] ++
    List.replicate 5 (queueStep 1) ++ [.pool (.pop 0), queueStep 0] ++
    List.replicate 2 (queueStep 1) ++ [.pool (.popped 1)] ++
    steps.flatMap (fun k =>
      List.replicate k (.work 1 false) ++ [.pool (.finish 1 .returned), .pool (.count 1),
        .pool (.pop 1)] ++ List.replicate 10 (queueStep 1) ++ [.pool (.popped 1)]) ++
    List.replicate 9 (queueStep 0) ++ [.pool (.popped 0)] ++ List.replicate 3 (.pool (.join 2))

end OrderRisk.Pool
