import OrderRisk.Harness.Tests
import OrderRisk.Harness.Slots
import OrderRisk.Pool.Ending
import OrderRisk.Risk.Onward

/-!
# The tests and the benchmark can come to their end

`main.cpp` cannot get stuck: from every reachable state of a test some schedule runs it to its end, with
the results of a sequential run (`test_ends`), and from every reachable state of the benchmark some
schedule does, with the latencies of all jobs (`benchmark_ends`).  A job of a test may have to wait for
the mutex of the collector; who holds it is at most two steps from giving it back.
-/

namespace OrderRisk.Harness

open OrderRisk.Lib OrderRisk.Account OrderRisk.Risk OrderRisk.Pool

/-! ### A job of the tests -/

section

variable {ι V : Type*} [DecidableEq ι] [Fintype ι] [Zero V] [NatCast V] [Mul V] [Sub V] [Add V]
  [LT V] [DecidableLT V] [LE V] [DecidableLE V] [DecidableEq V] {orders : List (Order V)}
  {store : AccountStore V} {main : ι} {workers : List ι} {capacity n : ℕ} {maxSpinners : ℤ}
  {s : Hosted ι (Bench ι V)} {t : ι}

/-- What a worker has left to do if nobody else changes its account. -/
def Bench.left (b : Bench ι V) (t : ι) : ℕ :=
  match b.pc t with
  | .outside => 0
  | .enter _ => 9
  | .validating _ => 3 + (b.risk.pc t).cost b.risk.store
  | .lock _ _ => 3
  | .pushBack _ _ => 2
  | .unlock _ => 1
  | .leave _ => 0

omit [Fintype ι] in
/-- A worker that is `validating` is inside `validate`. -/
theorem called_of_reachable {p : Bench ι V × List ℕ}
    (h : (benchCode ι orders store).machine.Reachable p) :
    ∀ t j, p.1.pc t = .validating j → p.1.risk.pc t ≠ .idle := by
  refine Code.invariant (P := fun b _ => ∀ t j, b.pc t = .validating j → b.risk.pc t ≠ .idle)
    (fun b hb t j ht => ?_) (fun b js u job hi _ t j ht => ?_) (fun b js u c b' hi hs t j ht => ?_)
    (fun b js u b' hi hs t j ht => ?_) h
  · obtain rfl : b = _ := hb
    cases ht
  · have ht : Function.update b.pc u (.enter job) t = .validating j := ht
    rcases eq_or_ne t u with rfl | hne
    · simp at ht
    · exact hi t j (by simpa [hne] using ht)
  · obtain ⟨i, o, r, hpc, -, hr, rfl⟩ | ⟨i, id, res, r, hpc, hret, hr, rfl⟩ | ⟨i, r, hpc, hr, rfl⟩ |
      ⟨i, res, hpc, -, rfl⟩ | ⟨i, res, hpc, rfl⟩ | ⟨i, hpc, rfl⟩ := benchStep_cases hs
    · obtain ⟨v, order, he, -, rfl⟩ | ⟨v, c, store', k, he, -⟩ | ⟨v, id, res, he, -⟩ :=
        Risk.step_cases hr
      · cases he
        rcases eq_or_ne t u with rfl | hne
        · simp
        · simpa [hne] using hi t j (by simpa [hne] using ht)
      · cases he
      · cases he
    · obtain ⟨v, order, he, -⟩ | ⟨v, c, store', k, he, -⟩ | ⟨v, id, res, he, -, rfl⟩ :=
        Risk.step_cases hr
      · cases he
      · cases he
      · cases he
        rcases eq_or_ne t u with rfl | hne
        · simp at ht
        · simpa [hne] using hi t j (by simpa [hne] using ht)
    · obtain ⟨v, order, he, -⟩ | ⟨v, c, store', k, he, hk, rfl⟩ | ⟨v, id, res, he, -⟩ :=
        Risk.step_cases hr
      · cases he
      · cases he
        rcases eq_or_ne t u with rfl | hne
        · simpa using threadStep_ne_idle hk
        · simpa [hne] using hi t j ht
      · cases he
    all_goals
      rcases eq_or_ne t u with rfl | hne
      · simp at ht
      · exact hi t j (by simpa [hne] using ht)
  · obtain ⟨i, hpc, rfl⟩ := benchRet_cases hs
    rcases eq_or_ne t u with rfl | hne
    · simp at ht
    · exact hi t j (by simpa [hne] using ht)

/-- **A worker can go on**, unless it waits for the mutex. -/
theorem exists_benchStep {b : Bench ι V} {js : List ℕ}
    (h : (benchCode ι orders store).machine.Reachable (b, js))
    (hjob : ∀ j, b.pc t = .enter j → j < orders.length) (hout : b.pc t ≠ .outside)
    (hleave : ∀ j, b.pc t ≠ .leave j) (hlock : ∀ j r, b.pc t = .lock j r → b.mtx = none) :
    ∃ b', benchStep orders store b t false = some b' ∧ b'.left t < b.left t := by
  have ht : Tallied orders store b js := tallied_of_reachable h
  cases hpc : b.pc t with
  | outside => exact absurd hpc hout
  | leave j => exact absurd hpc (hleave j)
  | enter j =>
    have hj := hjob j hpc
    have hidle := ht.idle t (by simp [hpc])
    refine ⟨_, by simp [benchStep, hpc, hj, Risk.machine, hidle]; rfl, ?_⟩
    simp [Bench.left, hpc, Risk.Pc.cost]
  | validating j =>
    cases hk : b.risk.pc t with
    | idle => exact absurd hk (called_of_reachable h t j hpc)
    | returned id r =>
      refine ⟨_, by simp [benchStep, hpc, hk, Risk.machine]; rfl, ?_⟩
      simp [Bench.left, hpc, hk, Risk.Pc.cost]
    | _ =>
      obtain ⟨store', k', hs, hlt⟩ := exists_threadStep ((Risk.inv_of_reachable ht.risk).pcOk t)
        (aimed_of_reachable ht.risk t) (by simp [hk]) (by simp [hk])
      rw [hk] at hs hlt
      refine ⟨_, by simp [benchStep, hpc, hk, Risk.machine, hs]; rfl, ?_⟩
      simpa [Bench.left, hpc, hk] using hlt
  | lock j r =>
    refine ⟨_, by simp [benchStep, hpc, hlock j r hpc]; rfl, ?_⟩
    simp [Bench.left, hpc]
  | pushBack j r =>
    refine ⟨_, by simp [benchStep, hpc]; rfl, ?_⟩
    simp [Bench.left, hpc]
  | unlock j =>
    refine ⟨_, by simp [benchStep, hpc]; rfl, ?_⟩
    simp [Bench.left, hpc]

/-- Who holds the mutex can give it back. -/
theorem leads_to_unlocked {u : ι} (hm : s.body.mtx = some u)
    (h : (hostMachine (benchCode ι orders store) main n workers capacity maxSpinners).Reachable s) :
    ∃ b, (hostMachine (benchCode ι orders store) main n workers capacity maxSpinners).Leads
      Hosted.Onward s { s with body := b } ∧ b.mtx = none ∧ ∀ t ≠ u, b.pc t = s.body.pc t := by
  have hu : (s.body.pc u).holding = true :=
    ((tallied_of_reachable (hosted_body h)).mutex u).mpr hm
  have hunlock : ∀ (v : Hosted ι (Bench ι V)) j, v.body.pc u = .unlock j →
      (hostMachine (benchCode ι orders store) main n workers capacity maxSpinners).Leads
        Hosted.Onward v { v with body := { v.body with
          mtx := none, pc := Function.update v.body.pc u (.leave j) } } :=
    fun v j hpc => leads_of_work (t := u) (by simp [benchCode, benchStep, hpc])
  cases hpc : s.body.pc u with
  | unlock j => exact ⟨_, hunlock s j hpc, rfl, fun t ht => Function.update_of_ne ht ..⟩
  | pushBack j r =>
    have hpush : (hostMachine (benchCode ι orders store) main n workers capacity maxSpinners).Leads
        Hosted.Onward s { s with body := { s.body with
          results := s.body.results ++ [r], pc := Function.update s.body.pc u (.unlock j) } } :=
      leads_of_work (t := u) (by simp [benchCode, benchStep, hpc])
    exact ⟨_, hpush.trans (hunlock _ j (Function.update_self ..)), rfl, fun t ht => by simp [ht]⟩
  | _ =>
    rw [hpc] at hu
    cases hu

/-- **A worker can run its job to the end.** -/
theorem bench_runs (h2 : 2 ≤ capacity) (hn : orders.length < 2 ^ 63) :
    Runs (benchCode ι orders store) main orders.length workers capacity maxSpinners := by
  refine .of_rank (fun t b => b.left t) fun s t job h hin hret => ?_
  have hleave : ∀ j, s.body.pc t ≠ .leave j := by
    intro j hj
    simp [benchCode, benchRet, hj] at hret
  -- the state behind the steps of others, and then one step of the worker
  have hgo : ∀ b : Bench ι V, (hostMachine (benchCode ι orders store) main orders.length workers
      capacity maxSpinners).Leads Hosted.Onward s { s with body := b } → b.left t = s.body.left t →
      (∀ j, b.pc t ≠ .leave j) → (∀ j r, b.pc t = .lock j r → b.mtx = none) →
      ∃ b', (hostMachine (benchCode ι orders store) main orders.length workers capacity
        maxSpinners).Leads Hosted.Onward s { s with body := b' } ∧ b'.left t < s.body.left t := by
    intro b hlead hleft hleave hlock
    have hr := hlead.reachable h
    have hin' : (b.pc t).job? = some job := by
      refine (hosted_inside hr t).trans ?_
      rw [← hin, hosted_inside h t]
    obtain ⟨b', hb, hlt⟩ := exists_benchStep (hosted_body hr)
      (fun j hj => inside_lt h2 hn hr (t := t) (congrArg BodyPc.job? hj)) (by
        intro ho
        rw [ho] at hin'
        cases hin') hleave hlock
    exact ⟨b', hlead.trans (leads_of_work hb), hleft ▸ hlt⟩
  by_cases hlock : ∀ j r, s.body.pc t = .lock j r → s.body.mtx = none
  · exact hgo s.body (.refl s) rfl hleave hlock
  -- somebody holds the mutex
  push Not at hlock
  obtain ⟨j, r, hpc, hm⟩ := hlock
  obtain ⟨v, hv⟩ := Option.ne_none_iff_exists'.mp hm
  have hne : t ≠ v := by
    rintro rfl
    have := ((tallied_of_reachable (hosted_body h)).mutex t).mpr hv
    dsimp only at this
    rw [hpc] at this
    cases this
  obtain ⟨b, hlead, hfree, hkeep⟩ := leads_to_unlocked hv h
  have hbt := hkeep t hne
  refine hgo b hlead ?_ (fun j => hbt ▸ hleave j) fun _ _ _ => hfree
  simp [Bench.left, hbt, hpc]

/-- **A test can always come to its end.**  From every reachable state, with nothing going wrong, some
schedule submits the orders that are left and joins the pool, with the results and the balances of the
orders taken one at a time. -/
theorem test_ends (h2 : 2 ≤ capacity) (hw : workers ≠ []) (hmain : main ∉ workers)
    (hn : orders.length < 2 ^ 63)
    (h : (hostMachine (benchCode ι orders store) main orders.length workers capacity
      maxSpinners).Reachable s) :
    ∃ s' l, (hostMachine (benchCode ι orders store) main orders.length workers capacity
        maxSpinners).Leads Hosted.Onward s s' ∧ s'.pool.joined = true ∧
      s'.pool.completed = orders.length ∧ l.Perm orders ∧
      s'.body.results.Perm ((validateAll store l).1.map Prod.snd) ∧
      s'.body.risk.store = (validateAll store l).2 := by
  obtain ⟨s', hs', hj⟩ := leads_to_joined h2 hw hmain hn (bench_runs h2 hn) h
  obtain ⟨l, hl, hres, hstore, hcomp⟩ := run_sequential h2 hw hn (hs'.reachable h) hj
  exact ⟨s', l, hs', hj, hcomp, hl, hres, hstore⟩

end

/-- The first job of the pair has been validated, and worker 1 holds the mutex of the collector. -/
theorem test_ends_onePair :
    ∃ s s', (hostMachine (benchCode (Fin 3) onePair (seedPairs 1 1000000 (.fin 10000))) 2 2 [0, 1] 2
        1).exec (beforeRun (seedPairs 1 1000000 (.fin 10000))) ((drainedRun [8, 7]).take 46) = some s ∧
      s.body.mtx = some 1 ∧ s.pool.completed = 0 ∧
      (hostMachine (benchCode (Fin 3) onePair (seedPairs 1 1000000 (.fin 10000))) 2 2 [0, 1] 2
        1).Leads Hosted.Onward s s' ∧ s'.pool.joined = true ∧ s'.pool.completed = 2 := by
  obtain ⟨s, hs, h⟩ := Option.map_eq_some_iff.mp (by decide +kernel :
    ((hostMachine (benchCode (Fin 3) onePair (seedPairs 1 1000000 (.fin 10000))) 2 2 [0, 1] 2
      1).exec (beforeRun (seedPairs 1 1000000 (.fin 10000))) ((drainedRun [8, 7]).take 46)).map
        (fun s => (s.body.mtx, s.pool.completed)) = some (some 1, 0))
  simp only [Prod.mk.injEq] at h
  have hlen : onePair.length = 2 := length_generateConflictingPairs 1 1 1000000
  have hr : (hostMachine (benchCode (Fin 3) onePair (seedPairs 1 1000000 (.fin 10000))) 2
      onePair.length [0, 1] 2 1).Reachable s := by
    rw [hlen]
    exact .of_exec (beforeRun_init _ _ _) hs
  obtain ⟨s', l, hs', hj, hcomp, -⟩ := test_ends le_rfl (List.cons_ne_nil _ _) (by decide)
    (by rw [hlen]; norm_num) hr
  rw [hlen] at hs' hcomp
  exact ⟨s, s', hs, h.1, h.2, hs', hj, hcomp⟩

/-! ### A job of the benchmark -/

section

variable {ι κ L : Type*} [DecidableEq ι] [DecidableEq κ] [Fintype ι] {kind : ℕ → κ}
  {latency : ℕ → L} {n m : ℕ} {main : ι} {workers : List ι} {capacity : ℕ} {maxSpinners : ℤ}
  {s : Hosted ι (Shards ι κ L)} {t : ι}

/-- The steps that a worker has left inside its job. -/
def SlotPc.left : SlotPc L → ℕ
  | .outside => 0
  | .readSlot _ => 5
  | .fetchAdd _ => 4
  | .validate _ => 3
  | .readEnd _ => 2
  | .writeEnd _ _ => 1
  | .leave _ => 0

/-- **A worker can go on**, while every slot that has been drawn is a place of the vectors. -/
theorem exists_slotStep {b : Shards ι κ L} {js : List ℕ} (h : Sharded kind latency m b js)
    (hroom : ∀ k, b.nextSlot k ≤ m) (hout : b.pc t ≠ .outside) (hleave : ∀ j, b.pc t ≠ .leave j) :
    ∃ b', slotStep kind latency b t = some b' ∧ (b'.pc t).left < (b.pc t).left := by
  have hplace : ∀ j, (b.pc t).pastSlot = some j →
      ∃ i, b.index t (kind j) = some i ∧ i < (b.latencies (kind j)).length := by
    intro j hj
    obtain ⟨i, hi, he⟩ := h.slot t (kind j) (h.owned t j hj)
    exact ⟨i, b.index_eq he, by rw [h.length]; exact hi.trans_le (hroom _)⟩
  cases hpc : b.pc t with
  | outside => exact absurd hpc hout
  | leave j => exact absurd hpc (hleave j)
  | readSlot j =>
    refine ⟨_, by simp [slotStep, hpc]; rfl, ?_⟩
    dsimp only
    rw [Function.update_self]
    split <;> simp [SlotPc.left]
  | fetchAdd j =>
    refine ⟨_, by simp [slotStep, hpc]; rfl, ?_⟩
    simp [SlotPc.left]
  | validate j =>
    refine ⟨_, by simp [slotStep, hpc]; rfl, ?_⟩
    simp [SlotPc.left]
  | readEnd j =>
    obtain ⟨i, hi, hlt⟩ := hplace j (by rw [hpc]; rfl)
    refine ⟨_, by simp [slotStep, hpc, hi, hlt]; rfl, ?_⟩
    simp [SlotPc.left]
  | writeEnd j v =>
    obtain ⟨i, hi, -⟩ := hplace j (by rw [hpc]; rfl)
    refine ⟨_, by simp [slotStep, hpc, hi]; rfl, ?_⟩
    simp [SlotPc.left]

/-- **A worker can run its job to the end.** -/
theorem slot_runs (h2 : 2 ≤ capacity) (hn : n < 2 ^ 63) (hcard : Fintype.card ι < 2 ^ 31) :
    Runs (slotCode ι kind latency workers.length) main n workers capacity maxSpinners := by
  refine .of_rank (fun t b => (b.pc t).left) fun s t job h hin hret => ?_
  have hin' : (s.body.pc t).job? = some job := hin
  obtain ⟨b, hb, hlt⟩ := exists_slotStep (t := t) (sharded_of_reachable hcard (hosted_body h))
    (fun k => nextSlot_le h2 hn hcard h)
    (by
      intro ho
      have ho : s.body.pc t = .outside := ho
      rw [ho] at hin'
      cases hin')
    (by
      intro j hj
      have hj : s.body.pc t = .leave j := hj
      simp [slotCode, slotRet, hj] at hret)
  exact ⟨b, leads_of_work hb, hlt⟩

/-- **The benchmark can always come to its end.**  From every reachable state, with nothing going wrong,
some schedule submits the jobs that are left and joins the pool, with the latency of every job once in
the vectors. -/
theorem benchmark_ends (h2 : 2 ≤ capacity) (hw : workers ≠ []) (hmain : main ∉ workers)
    (hn : n < 2 ^ 63) (hcard : Fintype.card ι < 2 ^ 31)
    (h : (hostMachine (slotCode ι kind latency workers.length) main n workers capacity
      maxSpinners).Reachable s) :
    ∃ s', (hostMachine (slotCode ι kind latency workers.length) main n workers capacity
        maxSpinners).Leads Hosted.Onward s s' ∧ s'.pool.joined = true ∧ s'.pool.completed = n ∧
      ∀ k, (s'.body.latencies k).flatten.Perm (latenciesOf kind latency k (List.range n)) := by
  obtain ⟨s', hs', hj⟩ := leads_to_joined h2 hw hmain hn (slot_runs h2 hn hcard) h
  have hr := hs'.reachable h
  exact ⟨s', hs', hj, (hosted_joined h2 hw hn hr hj).2.2, latencies_perm h2 hw hn hcard hr hj⟩

end

/-- Worker 1 is inside the trickle's job, and `main` inside `shutdown()`. -/
theorem benchmark_ends_burst :
    ∃ s s', (hostMachine burstCode 2 2 [0, 1] 2 1).exec burstStart ((drainedRun [5, 5]).take 42) =
        some s ∧ s.pool.executed = [0] ∧ s.pool.completed = 0 ∧
      (hostMachine burstCode 2 2 [0, 1] 2 1).Leads Hosted.Onward s s' ∧ s'.pool.joined = true ∧
      (s'.body.latencies true).flatten.Perm [2] := by
  obtain ⟨s, hs, h⟩ := Option.map_eq_some_iff.mp (by decide +kernel :
    ((hostMachine burstCode 2 2 [0, 1] 2 1).exec burstStart ((drainedRun [5, 5]).take 42)).map
      (fun s => (s.pool.executed, s.pool.completed)) = some ([0], 0))
  simp only [Prod.mk.injEq] at h
  have hr : (hostMachine burstCode 2 2 [0, 1] 2 1).Reachable s := .of_exec burstStart_init hs
  obtain ⟨s', hs', hj, -, hlat⟩ := benchmark_ends le_rfl (List.cons_ne_nil _ _) (by decide)
    (by norm_num) (by simp) hr
  have hone : latenciesOf (fun j => decide (1 ≤ j)) (fun j => (j + 1 : ℚ)) true (List.range 2) = [2] :=
    by decide +kernel
  exact ⟨s, s', hs, h.1, h.2, hs', hj, hone ▸ hlat true⟩

end OrderRisk.Harness
