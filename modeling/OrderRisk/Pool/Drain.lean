import OrderRisk.Pool.Ledger

/-!
# Shutdown drains the pool

`Placed` and `Ledger` hold in every run.  With the ring's exactly-once delivery below and
`std::nullopt`'s finality, they give the result about `shutdown()`.
-/

namespace OrderRisk.Pool

open OrderRisk.Lib OrderRisk.Queue

variable {ι T : Type*}

section

variable [Fintype ι] [DecidableEq ι] [DecidableEq T] [Inhabited T] {workers : List ι}
  {capacity : ℕ} {maxSpinners : ℤ} {s s' : State ι T} {a : Act ι T}

theorem queue_reachable (h : (poolMachine workers capacity maxSpinners).Reachable s) :
    (queueMachine ι capacity maxSpinners).Reachable s.queue := by
  refine h.project (f := State.queue) ?_ fun s a s' _ _ hs => (move_of_step hs).queue
  rintro s ⟨q, hq, rfl⟩
  exact hq

theorem tail_le (h : (poolMachine workers capacity maxSpinners).step s a = some s') :
    s.queue.shared.core.tailClaims.length ≤ s'.queue.shared.core.tailClaims.length := by
  rcases (move_of_step h).queue with he | ⟨b, hb⟩
  · rw [he]
  · exact (claims_le hb).1

theorem closed_step (hc : s.queue.Closed)
    (h : (poolMachine workers capacity maxSpinners).step s a = some s') :
    s'.queue.Closed ∧ s'.queue.shared.core.tailClaims = s.queue.shared.core.tailClaims := by
  rcases (move_of_step h).queue with he | ⟨b, hb⟩
  · rw [he]
    exact ⟨hc, rfl⟩
  · exact hc.step hb

theorem Ledger.init (h : (poolMachine workers capacity maxSpinners).init s) : Ledger s := by
  obtain ⟨q, ⟨r, -, rfl⟩, rfl⟩ := h
  have hp : ∀ t, (if t ∈ workers then PoolPc.head else .client : PoolPc ι T) = .head ∨
      (if t ∈ workers then PoolPc.head else .client : PoolPc ι T) = .client := by
    intro t
    split <;> simp
  refine ⟨List.nodup_nil, ?_, ?_, ?_, 0, rfl, ?_⟩
  · refine (Finset.sum_eq_zero fun t _ => ?_).symm.trans (zero_add _).symm
    rcases hp t with h | h <;> simp [State.thread, h, undecided]
  · refine (Finset.sum_eq_zero fun t _ => ?_).symm.trans (zero_add _).symm
    rcases hp t with h | h <;> simp [State.thread, h, accepting]
  · exact (Finset.sum_eq_zero fun t _ => rfl).symm.trans (zero_add _).symm
  · rw [Nat.cast_zero, zero_add]
    refine weight_eq_zero.mpr fun t => ?_
    rcases hp t with h | h <;> simp [h, PoolPc.busy]

theorem Placed.init (h : (poolMachine workers capacity maxSpinners).init s) : Placed workers s := by
  obtain ⟨q, ⟨r, -, rfl⟩, rfl⟩ := h
  refine ⟨fun t => ?_, fun t ht => ?_, fun t ht => ?_, fun t left ht => ?_, nofun⟩ <;>
    by_cases hw : t ∈ workers
  · simp [hw, Fits, PoolPc.inCall]
  · simp [hw, Fits, PoolPc.inCall]
  · exact hw
  · simp [hw, PoolPc.working] at ht
  · simp [hw] at ht
  · simp [hw] at ht
  · simp [hw] at ht
  · simp [hw] at ht

theorem placed_and_ledger (h2 : 2 ≤ capacity)
    (h : (poolMachine workers capacity maxSpinners).Reachable s)
    (hb : s.queue.shared.core.tailClaims.length < 2 ^ 63) : Placed workers s ∧ Ledger s := by
  induction h with
  | init hi => exact ⟨.init hi, .init hi⟩
  | @step s s' a hr _ hs ih =>
    have hb' := lt_of_le_of_lt (tail_le hs) hb
    obtain ⟨hp, hl⟩ := ih hb'
    have hm := move_of_step hs
    have hq := queue_reachable hr
    have hq' := queue_reachable (hr.step trivial hs)
    refine ⟨hp.step hm (fun hd => ?_) fun t ht => drained_of_nullopt h2 hq hb' ht, hl.step hp hm⟩
    rcases hm.queue with he | ⟨b, hstep⟩
    · rw [he]
      exact hd
    · exact (hd.step (ringInv h2 hq' hb) hstep).1

theorem logged (h2 : 2 ≤ capacity)
    (h : (poolMachine workers capacity maxSpinners).Reachable s)
    (hb : s.queue.shared.core.tailClaims.length < 2 ^ 63) :
    Logged s.queue.shared.core ∧ RingInv s.queue.shared.core fun t => (s.queue.pc t).ring :=
  logged_of_reachable h2 (ring_reachable (queue_reachable h)) hb

theorem popped_le_pushed (h2 : 2 ≤ capacity)
    (h : (poolMachine workers capacity maxSpinners).Reachable s)
    (hb : s.queue.shared.core.tailClaims.length < 2 ^ 63) :
    (s.queue.shared.core.popped : Multiset T) ≤ s.queue.shared.core.pushed := by
  obtain ⟨hl, hi⟩ := logged h2 h hb
  rw [Multiset.coe_le]
  exact hl.popped.subperm.trans (hi.delivered.subperm.trans hl.pushed.symm.subperm)

/-- The jobs whose `submit` has returned true, or has published the job and can only do so. -/
def State.acceptedJobs (s : State ι T) : Multiset T := s.accepted + s.total accepting

omit [DecidableEq ι] [DecidableEq T] [Inhabited T] in
theorem Ledger.pushed_nodup (h : Ledger s) : (s.queue.shared.core.pushed : Multiset T).Nodup ∧
    Disjoint (s.rejected : Multiset T) s.queue.shared.core.pushed := by
  have hn : (s.submitted : Multiset T).Nodup := h.nodup
  rw [h.submitted, Multiset.nodup_add, Multiset.nodup_add] at hn
  exact ⟨hn.1.2.1, hn.1.2.2⟩

theorem executed_le (h2 : 2 ≤ capacity)
    (h : (poolMachine workers capacity maxSpinners).Reachable s)
    (hb : s.queue.shared.core.tailClaims.length < 2 ^ 63) :
    (s.executed : Multiset T) ≤ s.queue.shared.core.pushed := by
  refine le_trans ?_ (popped_le_pushed h2 h hb)
  rw [(placed_and_ledger h2 h hb).2.popped]
  exact Multiset.le_add_right _ _

/-- A job that was pushed is executed, or about to be, or in the ring. -/
theorem kept_of_pushed (h2 : 2 ≤ capacity)
    (h : (poolMachine workers capacity maxSpinners).Reachable s)
    (hb : s.queue.shared.core.tailClaims.length < 2 ^ 63) {job : T}
    (hj : job ∈ s.queue.shared.core.pushed) :
    job ∈ s.executed ∨ (∃ t, job ∈ held (s.thread t)) ∨
      ∃ p, (s.queue.shared.core.tailClaims[p]?).map TailClaim.item = some job ∧
        s.queue.shared.core.released p = false := by
  obtain ⟨hl, hi⟩ := logged h2 h hb
  obtain ⟨k, hk, hres⟩ := List.mem_filterMap.mp (hl.pushed.mem_iff.mp hj)
  obtain ⟨p, hp⟩ := List.mem_iff_getElem?.mp hk
  obtain ⟨hr, rfl⟩ : k.returned = true ∧ k.item = job := by simpa [TailClaim.result] using hres
  cases hrel : s.queue.shared.core.released p with
  | false => exact .inr (.inr ⟨p, by simp [hp], hrel⟩)
  | true =>
    -- its `try_pop` has returned it
    obtain ⟨k', hk', hr'⟩ : ∃ k', s.queue.shared.core.headClaims[p]? = some k' ∧
        k'.returned = true := by rwa [Core.released, Option.any_eq_true] at hrel
    obtain ⟨v, hv⟩ := Option.isSome_iff_exists.mp (hi.gone p k' hk' hr')
    have htaken := hi.taken p k' v hk' hv
    obtain rfl : k.item = v := by simpa [hp] using htaken
    have hpop : k.item ∈ (s.queue.shared.core.popped : Multiset T) :=
      hl.popped.mem_iff.mpr (List.mem_filterMap.mpr
        ⟨k', List.mem_of_getElem? hk', by simp [HeadClaim.result, hr', hv]⟩)
    rw [(placed_and_ledger h2 h hb).2.popped, Multiset.mem_add] at hpop
    rcases hpop with hx | hx
    · exact .inl hx
    · obtain ⟨t, -, ht⟩ := Multiset.mem_sum.mp hx
      exact .inr (.inl ⟨t, ht⟩)

omit [Fintype ι] [DecidableEq ι] [DecidableEq T] [Inhabited T] in
theorem Placed.noPop (h : Placed workers s) (hex : ∀ u ∈ workers, s.pc u = .exited) (t : ι) :
    (∀ p, s.queue.pc t ≠ .pop p) ∧ ∀ o, s.queue.pc t ≠ .returned (.popped o) := by
  have hne : s.pc t ≠ .popping := by
    intro ht
    have := hex t (h.worker t (by rw [ht]; rfl))
    rw [ht] at this
    cases this
  have hf := h.fits t
  unfold Fits at hf
  constructor <;> rintro p hp <;> rw [hp] at hf <;> cases hpc : s.pc t <;>
    simp [hpc, PoolPc.inCall, Inside] at hf hne

/-- What the workers leave: every job accepted is executed and counted. -/
theorem executed_eq_of_joined (h2 : 2 ≤ capacity) (hw : workers ≠ [])
    (h : (poolMachine workers capacity maxSpinners).Reachable s)
    (hb : s.queue.shared.core.tailClaims.length < 2 ^ 63) (hj : s.joined = true) :
    (s.executed : Multiset T) = s.acceptedJobs ∧ s.completed = s.acceptedJobs.card := by
  obtain ⟨hp, hl⟩ := placed_and_ledger h2 h hb
  obtain ⟨hlog, hi⟩ := logged h2 h hb
  have hex := hp.joined hj
  obtain ⟨u, hu⟩ := List.exists_mem_of_ne_nil workers hw
  have hdrained := hp.exited u (hex u hu)
  have hreturned : ∀ k ∈ s.queue.shared.core.headClaims, k.returned = true := by
    intro k hk
    obtain ⟨p, hkp⟩ := List.mem_iff_getElem?.mp hk
    by_contra hr
    obtain ⟨t, o, r⟩ := k
    obtain rfl : r = false := by simpa using hr
    rcases hi.headOwner p t o hkp with he | ⟨v, he⟩ | ⟨v, he⟩ <;>
      obtain ⟨site, hpc⟩ := ThreadPc.eq_of_ring_pop he <;> exact (hp.noPop hex t).1 _ hpc
  have hheld : s.total held = 0 := by
    refine Finset.sum_eq_zero fun t _ => ?_
    unfold held
    split
    · next hk => exact absurd (congrArg Prod.snd hk) ((hp.noPop hex t).1 _)
    · next hk => exact absurd (congrArg Prod.snd hk) ((hp.noPop hex t).1 _)
    · next hk => exact absurd (congrArg Prod.snd hk) ((hp.noPop hex t).2 _)
    · rfl
  have hexec : (s.executed : Multiset T) = s.queue.shared.core.pushed := by
    rw [← Multiset.coe_eq_coe.mpr (hi.delivered_all hlog hdrained.empty hreturned)]
    have := hl.popped
    rw [hheld, add_zero] at this
    exact this.symm
  have hacc : (s.executed : Multiset T) = s.acceptedJobs := hexec.trans hl.pushed
  have hbusy : weight PoolPc.busy s.pc = 0 := by
    refine weight_eq_zero.mpr fun t => ?_
    by_contra hbt
    have hwork : (s.pc t).working = true := by
      cases hpc : s.pc t <;> simp [hpc, PoolPc.busy, PoolPc.working] at hbt ⊢
      exact Option.isSome_iff_ne_none.mpr hbt
    have := hex t (hp.worker t hwork)
    simp [this, PoolPc.busy] at hbt
  refine ⟨hacc, ?_⟩
  obtain ⟨n, hn, hc⟩ := hl.completed
  have hlen : s.executed.length ≤ s.queue.shared.core.tailClaims.length := by
    have h1 := congrArg Multiset.card hexec
    have h2 := hlog.pushed.length_eq
    have h3 := List.length_filterMap_le TailClaim.result s.queue.shared.core.tailClaims
    simp only [Multiset.coe_card] at h1
    exact h1.le.trans (h2.le.trans h3)
  rw [hn, ← hacc, Multiset.coe_card, word_of_lt] <;> omega

/-- **Shutdown drains the pool.**  At any time no job has run twice, no rejected job has run, and
an accepted job has run, or is about to, or is in the ring; a worker that gets `std::nullopt` finds
the queue shut down and its ring empty for good; and when `shutdown()` has returned, every accepted
job has run exactly once and `completed_` is their number. -/
theorem shutdown_drains (h2 : 2 ≤ capacity) (hw : workers ≠ [])
    (h : (poolMachine workers capacity maxSpinners).Reachable s)
    (hb : s.queue.shared.core.tailClaims.length < 2 ^ 63) :
    (s.executed.Nodup ∧ (∀ job ∈ s.rejected, job ∉ s.executed) ∧
      ∀ job ∈ s.accepted, job ∈ s.executed ∨ (∃ t, job ∈ held (s.thread t)) ∨
        ∃ p, (s.queue.shared.core.tailClaims[p]?).map TailClaim.item = some job ∧
          s.queue.shared.core.released p = false) ∧
    (∀ t, s.queue.pc t = .returned (.popped none) → s.queue.shared.shutdown = true ∧
      s.queue.shared.core.headClaims.length = s.queue.shared.core.tailClaims.length ∧
      ∀ as s', (poolMachine workers capacity maxSpinners).exec s as = some s' →
        s'.queue.shared.core.tailClaims = s.queue.shared.core.tailClaims) ∧
    (s.joined = true → (∀ job ∈ s.accepted, s.executed.count job = 1) ∧
      (s.executed : Multiset T) = s.acceptedJobs ∧ s.completed = s.acceptedJobs.card) := by
  obtain ⟨hp, hl⟩ := placed_and_ledger h2 h hb
  obtain ⟨hnodup, hdisj⟩ := hl.pushed_nodup
  have hle := executed_le h2 h hb
  have hen : s.executed.Nodup := Multiset.coe_nodup.mp (Multiset.nodup_of_le hle hnodup)
  refine ⟨⟨hen, fun job hr he => ?_, fun job ha => ?_⟩, fun t ht => ?_, fun hj => ?_⟩
  · exact Multiset.disjoint_left.mp hdisj hr (Multiset.mem_of_le hle he)
  · refine kept_of_pushed h2 h hb ?_
    have : job ∈ (s.queue.shared.core.pushed : Multiset T) := by
      rw [hl.pushed]
      exact Multiset.mem_add.mpr (.inl ha)
    exact this
  · have hd := drained_of_nullopt h2 (queue_reachable h) hb ht
    refine ⟨hd.shutdown, hd.empty, fun as s' he => ?_⟩
    exact (Machine.exec_invariant (P := fun s' => s'.queue.Closed ∧
      s'.queue.shared.core.tailClaims = s.queue.shared.core.tailClaims)
      (fun m a m' hm hs => ⟨(closed_step hm.1 hs).1, (closed_step hm.1 hs).2.trans hm.2⟩)
      ⟨hd.toClosed, rfl⟩ he).2
  · obtain ⟨hacc, hcompleted⟩ := executed_eq_of_joined h2 hw h hb hj
    refine ⟨fun job ha => ?_, hacc, hcompleted⟩
    refine List.count_eq_one_of_mem hen ?_
    have : job ∈ (s.executed : Multiset T) := by
      rw [hacc]
      exact Multiset.mem_add.mpr (.inl ha)
    exact this

end

/-! ### Two workers, a job that throws and a late submitter -/

def go (t : Fin 4) : Act (Fin 4) ℕ := .inQueue t ⟨false, 0, none⟩

def twoWorkers : State (Fin 4) ℕ :=
  ⟨⟨.fresh ⟨fun i => ⟨i, 0⟩, 1, 0, 0⟩, fun _ => .idle⟩,
    fun t => if t ∈ [(0 : Fin 4), 1] then .head else .client, false, 0, [], [], [], [], false⟩

/-- Worker 1 spins and gets job 7, which throws; thread 2 shuts down while it runs, and thread 3's
job is rejected; both workers are refused the spin slot and exit; the shutdown joins them. -/
def lateSubmit : List (Act (Fin 4) ℕ) :=
  [.pop 1, go 1, .submit 2 7] ++ List.replicate 9 (go 2) ++ [.submitted 2] ++
    List.replicate 6 (go 1) ++ [.pop 0, go 0, go 1, .popped 1, .shutdown 2] ++
    List.replicate 4 (go 2) ++ [.closed 2, .submit 3 8] ++ List.replicate 3 (go 3) ++
    [.submitted 3, .finish 1 .stdException, .count 1, .pop 1] ++ List.replicate 10 (go 1) ++
    [.popped 1] ++ List.replicate 9 (go 0) ++ [.popped 0, .join 2, .join 2, .join 2]

theorem shutdown_drains_lateSubmit :
    ∃ s, (poolMachine [(0 : Fin 4), 1] 2 1).exec twoWorkers lateSubmit = some s ∧
      s.accepted = [7] ∧ s.rejected = [8] ∧ s.executed.count 7 = 1 ∧ 8 ∉ s.executed ∧
      s.completed = s.acceptedJobs.card := by
  obtain ⟨s, hs, hb, hj, ha, hr⟩ : ∃ s,
      (poolMachine [(0 : Fin 4), 1] 2 1).exec twoWorkers lateSubmit = some s ∧
        s.queue.shared.core.tailClaims.length = 1 ∧ s.joined = true ∧ s.accepted = [7] ∧
          s.rejected = [8] := by
    have h : ((poolMachine [(0 : Fin 4), 1] 2 1).exec twoWorkers lateSubmit).map
        (fun s => (s.queue.shared.core.tailClaims.length, s.joined, s.accepted, s.rejected)) =
          some (1, true, [7], [8]) := by decide +kernel
    obtain ⟨s, hs, hl⟩ := Option.map_eq_some_iff.mp h
    simp only [Prod.mk.injEq] at hl
    exact ⟨s, hs, hl⟩
  have h := shutdown_drains le_rfl (by simp : [(0 : Fin 4), 1] ≠ [])
    (.of_exec ⟨_, ⟨_, rfl, rfl⟩, rfl⟩ hs) (by rw [hb]; decide)
  exact ⟨s, hs, ha, hr, (h.2.2 hj).1 7 (by simp [ha]), h.1.2.1 8 (by simp [hr]), (h.2.2 hj).2.2⟩

end OrderRisk.Pool
