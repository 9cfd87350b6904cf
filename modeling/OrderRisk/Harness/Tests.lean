import OrderRisk.Harness.Results
import OrderRisk.Lib.Double

/-!
# The tests of `main.cpp`

`OrderGenerator`, with what its `rng_` draws as a parameter, and the verdicts of the first two tests.
Both pass in every run: whatever the generator draws, and however the pool's threads interleave.
-/

namespace OrderRisk.Harness

open OrderRisk.Lib OrderRisk.Fix OrderRisk.Account OrderRisk.Risk OrderRisk.Pool

/-! ### `OrderGenerator` -/

structure Draw where
  symbolPick : Fin 4
  sidePick : Fin 2
  qty : ℕ
  price : Double

/-- `symbols`; the last one is invalid. -/
def symbols : Fin 4 → Bytes
  | 0 => txt "BTC-USD"
  | 1 => txt "ETH-USD"
  | 2 => txt "SOL-USD"
  | 3 => txt "DOGE-XYZ"

/-- `generateIndependent`, with `nextOrderId_` before and after. -/
def generateIndependent (draws : ℕ → Draw) (next count accountIdStart : ℕ) :
    List (Order Double) × ℕ :=
  (List.range count).foldl (fun g i =>
    (g.1 ++ [{ orderId := g.2
               accountId := sizeT (accountIdStart + i)
               symbol := symbols (draws i).symbolPick
               side := if (draws i).sidePick = 0 then .buy else .sell
               qty := (draws i).qty
               price := (draws i).price }], sizeT (g.2 + 1))) ([], next)

def conflictingOrder (orderId acct : ℕ) : Order Double where
  orderId := orderId
  accountId := acct
  symbol := txt "BTC-USD"
  side := .buy
  qty := 1
  price := .fin 6000

/-- `generateConflictingPairs`. -/
def generateConflictingPairs (next pairCount accountIdStart : ℕ) : List (Order Double) × ℕ :=
  (List.range pairCount).foldl (fun g i =>
    (List.range 2).foldl (fun g _ =>
      (g.1 ++ [conflictingOrder g.2 (sizeT (accountIdStart + i))], sizeT (g.2 + 1))) g) ([], next)

theorem length_generateIndependent (draws : ℕ → Draw) (next count start : ℕ) :
    (generateIndependent draws next count start).1.length = count := by
  unfold generateIndependent
  induction count with
  | zero => rfl
  | succ n ih => simp [List.range_succ, ih]

theorem accounts_generateIndependent (draws : ℕ → Draw) (next count start : ℕ) :
    (generateIndependent draws next count start).1.map Order.accountId =
      (List.range count).map fun i => sizeT (start + i) := by
  unfold generateIndependent
  induction count with
  | zero => rfl
  | succ n ih => simp [List.range_succ, ih]

theorem nodup_generateIndependent (draws : ℕ → Draw) (next : ℕ) {count start : ℕ}
    (h : start + count ≤ 2 ^ 64) :
    ((generateIndependent draws next count start).1.map Order.accountId).Nodup := by
  rw [accounts_generateIndependent]
  refine List.Nodup.map_on (fun i hi j hj he => ?_) List.nodup_range
  rw [List.mem_range] at hi hj
  unfold sizeT at he
  rw [Nat.mod_eq_of_lt (by omega), Nat.mod_eq_of_lt (by omega)] at he
  omega

theorem generateConflictingPairs_succ (next n start : ℕ) :
    (generateConflictingPairs next (n + 1) start).1 =
      (generateConflictingPairs next n start).1 ++
        [conflictingOrder (generateConflictingPairs next n start).2 (sizeT (start + n)),
          conflictingOrder (sizeT ((generateConflictingPairs next n start).2 + 1))
            (sizeT (start + n))] := by
  unfold generateConflictingPairs
  rw [List.range_succ (n := n), List.foldl_append]
  simp [List.range_succ]

theorem length_generateConflictingPairs (next pairCount start : ℕ) :
    (generateConflictingPairs next pairCount start).1.length = 2 * pairCount := by
  induction pairCount with
  | zero => rfl
  | succ n ih =>
    rw [generateConflictingPairs_succ, List.length_append, ih]
    rfl

theorem mem_generateConflictingPairs {next pairCount start : ℕ} {o : Order Double}
    (h : o ∈ (generateConflictingPairs next pairCount start).1) :
    ∃ id, ∃ i < pairCount, o = conflictingOrder id (sizeT (start + i)) := by
  induction pairCount with
  | zero => cases h
  | succ n ih =>
    rw [generateConflictingPairs_succ, List.mem_append, List.mem_pair] at h
    rcases h with h | rfl | rfl
    · obtain ⟨id, i, hi, ho⟩ := ih h
      exact ⟨id, i, by omega, ho⟩
    · exact ⟨_, n, by omega, rfl⟩
    · exact ⟨_, n, by omega, rfl⟩

def beforeRun (store : AccountStore Double) : Hosted (Fin 3) (Bench (Fin 3) Double) :=
  ⟨idlePool, ⟨⟨store, fun _ => .idle, [], []⟩, fun _ => .outside, none, []⟩⟩

theorem beforeRun_init (orders : List (Order Double)) (store : AccountStore Double) (n : ℕ) :
    (hostMachine (benchCode (Fin 3) orders store) 2 n [0, 1] 2 1).init (beforeRun store) :=
  ⟨idlePool_init, (rfl : (beforeRun store).body = _)⟩

/-! ### Test 1 -/

/-- `for (auto& o : orders) store.setBalance(o.accountId, balance)`. -/
def seedOrders (orders : List (Order Double)) (balance : Double) : AccountStore Double :=
  orders.foldl (fun store o => store.setBalance o.accountId balance) .empty

/-- The ids of the accepted orders. -/
def acceptedIds (results : List ValidationResult) : Finset ℕ :=
  ((results.filter ValidationResult.accepted).map ValidationResult.orderId).toFinset

/-- `testCorrectnessVsSequential`, given what the pool's collector holds. -/
def testCorrectnessVsSequential (orders : List (Order Double)) (pooled : List ValidationResult) :
    Bool :=
  acceptedIds ((validateAll (seedOrders orders (.fin 100000)) orders).1.map Prod.snd) =
    acceptedIds pooled

section

variable {ι : Type*} [DecidableEq ι] [Fintype ι] {main : ι} {workers : List ι} {capacity : ℕ}
  {maxSpinners : ℤ} {s : Hosted ι (Bench ι Double)}

theorem acceptedIds_perm {rs rs' : List ValidationResult} (h : rs.Perm rs') :
    acceptedIds rs = acceptedIds rs' :=
  List.toFinset_eq_of_perm _ _ ((h.filter _).map _)

/-- **Test 1 passes**: whatever the generator draws, in every run of the pool the accepted ids are
those of the sequential baseline. -/
theorem correctnessVsSequential_passes (draws : ℕ → Draw) {next count start : ℕ}
    (hc : count < 2 ^ 63) (hstart : start + count ≤ 2 ^ 64) (h2 : 2 ≤ capacity) (hw : workers ≠ [])
    (h : (hostMachine (benchCode ι (generateIndependent draws next count start).1
      (seedOrders (generateIndependent draws next count start).1 (.fin 100000))) main count workers
      capacity maxSpinners).Reachable s) (hj : s.pool.joined = true) :
    testCorrectnessVsSequential (generateIndependent draws next count start).1 s.body.results =
      true := by
  have hlen := length_generateIndependent draws next count start
  have hnd := nodup_generateIndependent draws next hstart
  have hc' : (generateIndependent draws next count start).1.length < 2 ^ 63 := by rwa [hlen]
  obtain ⟨l, hl, hres, -⟩ := run_sequential h2 hw hc' (by rw [hlen]; exact h) hj
  unfold testCorrectnessVsSequential
  rw [decide_eq_true_eq]
  refine acceptedIds_perm (List.Perm.trans ?_ hres.symm)
  exact (validateAll_perm hl.symm fun a _ => filter_touches_eq hl.symm hnd a).1.map Prod.snd

end

def oneOrder : List (Order Double) :=
  (generateIndependent (fun _ => ⟨⟨0, by norm_num⟩, ⟨0, by norm_num⟩, 1, .fin 100⟩) 1 1 1).1

theorem correctnessVsSequential_passes_oneOrder :
    ∃ s, (hostMachine (benchCode (Fin 3) oneOrder (seedOrders oneOrder (.fin 100000))) 2 1 [0, 1] 2
        1).exec (beforeRun (seedOrders oneOrder (.fin 100000))) (drainedRun [8]) = some s ∧
      testCorrectnessVsSequential oneOrder s.body.results = true := by
  obtain ⟨s, hs, hj⟩ := Option.map_eq_some_iff.mp (by decide +kernel :
    ((hostMachine (benchCode (Fin 3) oneOrder (seedOrders oneOrder (.fin 100000))) 2 1 [0, 1] 2
      1).exec (beforeRun (seedOrders oneOrder (.fin 100000))) (drainedRun [8])).map
        (fun s => s.pool.joined) = some true)
  exact ⟨s, hs, correctnessVsSequential_passes _ (by norm_num) (by norm_num) le_rfl
    (List.cons_ne_nil _ _) (.of_exec (beforeRun_init _ _ _) hs) hj⟩

/-! ### Test 2 -/

/-- The accounts of the pairs, with what each one starts with. -/
def seedPairs (pairCount accountStart : ℕ) (startingBalance : Double) : AccountStore Double :=
  (List.range pairCount).foldl
    (fun store i => store.setBalance (sizeT (accountStart + i)) startingBalance) .empty

/-- `acceptedPerAccount[acct]`. -/
def acceptedPerAccount (results : List ValidationResult) (acct : ℕ) : ℕ :=
  results.countP fun r => r.accepted && decide (r.accountId = acct)

/-- `testNoDoubleSpend`, given what the pool's collector and the store hold. -/
def testNoDoubleSpend (pairCount accountStart : ℕ) (results : List ValidationResult)
    (store : AccountStore Double) : Bool :=
  let anyDoubleSpend := results.any fun r => decide (1 < acceptedPerAccount results r.accountId)
  let anyNegative := (List.range pairCount).any fun i =>
    decide (store.getBalance (sizeT (accountStart + i)) < 0)
  !anyDoubleSpend && !anyNegative

theorem balances_seedPairs {pairCount start i : ℕ} {b : Double} (hi : i < pairCount) :
    (seedPairs pairCount start b).balances (sizeT (start + i)) = some b := by
  unfold seedPairs
  induction pairCount with
  | zero => cases hi
  | succ n ih =>
    rw [List.range_succ, List.foldl_append, List.foldl_cons, List.foldl_nil]
    by_cases he : sizeT (start + i) = sizeT (start + n)
    · rw [he, AccountStore.setBalance_self]
    · rw [AccountStore.setBalance_of_ne _ _ he]
      refine ih ?_
      have : i ≠ n := by
        rintro rfl
        exact he rfl
      omega

section

variable {q c : ℚ} {orders : List (Order Double)}

theorem debitAll_short (hq : q < c) (ho : ∀ o ∈ orders, o.cost = .fin c) :
    debitAll (some (.fin q)) orders =
      (orders.map fun o => (o, o.debited false), some (.fin q)) := by
  induction orders with
  | nil => rfl
  | cons o orders ih =>
    rw [List.forall_mem_cons] at ho
    have hlt : Double.fin q < o.cost := by
      rw [ho.1]
      exact Double.fin_lt_fin.mpr hq
    rw [debitAll, debit, if_pos hlt, ih ho.2]
    rfl

/-- **Where it covers one and not two**, at most one is accepted, and the balance stays above
zero. -/
theorem debitAll_once (h0 : 0 ≤ q) (h2 : q < c + c) (ho : ∀ o ∈ orders, o.cost = .fin c) :
    (debitAll (some (.fin q)) orders).1.countP (fun p => p.2.accepted) ≤ 1 ∧
      ∃ q', (debitAll (some (.fin q)) orders).2 = some (.fin q') ∧ 0 ≤ q' := by
  have hnone : ∀ l : List (Order Double), (l.map fun o => (o, o.debited false)).countP
      (fun p : Order Double × ValidationResult => p.2.accepted) = 0 := by
    intro l
    rw [List.countP_eq_zero]
    intro p hp
    obtain ⟨o, -, rfl⟩ := List.mem_map.mp hp
    exact Bool.false_ne_true
  by_cases hlt : q < c
  · rw [debitAll_short hlt ho]
    exact ⟨(hnone orders).trans_le (Nat.zero_le 1), q, rfl, h0⟩
  · cases orders with
    | nil => exact ⟨Nat.zero_le 1, q, rfl, h0⟩
    | cons o orders =>
      rw [List.forall_mem_cons] at ho
      have hlt' : ¬ Double.fin q < o.cost := by
        rw [ho.1]
        exact fun h => hlt (Double.fin_lt_fin.mp h)
      rw [debitAll, debit, if_neg hlt', ho.1, Double.fin_sub_fin,
        debitAll_short (by linarith) ho.2]
      refine ⟨?_, q - c, rfl, by linarith⟩
      rw [List.countP_cons, hnone]
      exact (Nat.zero_add _).trans_le (by split <;> decide)

end

/-- What `validateAll` lists are its orders, with results that name them. -/
theorem mem_validateAll {store : AccountStore Double} {l : List (Order Double)}
    {p : Order Double × ValidationResult} (h : p ∈ (validateAll store l).1) :
    p.1 ∈ l ∧ p.2.accountId = p.1.accountId := by
  induction l generalizing store with
  | nil => cases h
  | cons o l ih =>
    rw [validateAll_cons] at h
    rcases List.mem_cons.mp h with rfl | h
    · exact ⟨List.mem_cons_self, (validate_ids store o).2⟩
    · exact ⟨List.mem_cons_of_mem _ (ih h).1, (ih h).2⟩

theorem touches_conflictingOrder (id acct : ℕ) :
    touches acct (conflictingOrder id acct) = true ∧
      (conflictingOrder id acct).cost = .fin 6000 := by
  refine ⟨touches_iff.mpr ⟨?_, rfl⟩, ?_⟩
  · refine checks_eq_none.mpr ⟨⟨Nat.one_ne_zero, ?_, ?_⟩, rfl⟩
    · exact (by decide : ¬ (Double.fin 6000 ≤ 0))
    · exact (by decide : txt "BTC-USD" ∈ allowedSymbols)
  · show ((1 : ℕ) : Double) * .fin 6000 = .fin 6000
    rw [Double.natCast_eq, Double.fin_mul_fin]
    norm_num

section

variable {ι : Type*} [DecidableEq ι] [Fintype ι] {main : ι} {workers : List ι} {capacity : ℕ}
  {maxSpinners : ℤ} {s : Hosted ι (Bench ι Double)}

/-- **Test 2 passes**: with any number of pairs, in every run of the pool no account has two
accepted orders and no balance is negative. -/
theorem noDoubleSpend_passes {next pairCount start : ℕ} (hc : 2 * pairCount < 2 ^ 63)
    (h2 : 2 ≤ capacity) (hw : workers ≠ [])
    (h : (hostMachine (benchCode ι (generateConflictingPairs next pairCount start).1
      (seedPairs pairCount start (.fin 10000))) main (2 * pairCount) workers capacity
      maxSpinners).Reachable s) (hj : s.pool.joined = true) :
    testNoDoubleSpend pairCount start s.body.results s.body.risk.store = true := by
  have hlen := length_generateConflictingPairs next pairCount start
  have hc' : (generateConflictingPairs next pairCount start).1.length < 2 ^ 63 := by rwa [hlen]
  obtain ⟨l, hl, hres, hstore, -⟩ := run_sequential h2 hw hc' (by rw [hlen]; exact h) hj
  have hmem : ∀ o ∈ l, ∃ id, ∃ i < pairCount, o = conflictingOrder id (sizeT (start + i)) :=
    fun o ho => mem_generateConflictingPairs (hl.subset ho)
  have hcost : ∀ a, ∀ o ∈ l.filter (touches a), o.cost = .fin 6000 := by
    intro a o ho
    obtain ⟨id, i, -, rfl⟩ := hmem o (List.mem_of_mem_filter ho)
    exact (touches_conflictingOrder _ _).2
  have haccount : ∀ {i}, i < pairCount →
      (debitAll (some (.fin 10000)) (l.filter (touches (sizeT (start + i))))).1.countP
        (fun p => p.2.accepted) ≤ 1 ∧
      ∃ q', (debitAll (some (.fin 10000)) (l.filter (touches (sizeT (start + i))))).2 =
        some (.fin q') ∧ 0 ≤ q' :=
    fun _ => debitAll_once (by norm_num) (by norm_num) (hcost _)
  simp only [testNoDoubleSpend, Bool.and_eq_true, Bool.not_eq_true', List.any_eq_false,
    decide_eq_true_eq, not_lt]
  constructor
  · intro r hr
    obtain ⟨p, hp, rfl⟩ := List.mem_map.mp (hres.subset hr)
    obtain ⟨ho, hacct⟩ := mem_validateAll hp
    obtain ⟨id, i, hi, hpi⟩ := hmem p.1 ho
    have ha : p.2.accountId = sizeT (start + i) := by rw [hacct, hpi]; rfl
    rw [ha]
    unfold acceptedPerAccount
    rw [hres.countP_eq, List.countP_map]
    refine le_trans (List.countP_mono_left (q := fun p : Order Double × ValidationResult =>
      p.2.accepted && touches (sizeT (start + i)) p.1) fun p' hp' h' => ?_) ?_
    · -- an accepted order of the account
      obtain ⟨ho', hacct'⟩ := mem_validateAll hp'
      obtain ⟨id', i', -, hpi'⟩ := hmem p'.1 ho'
      rw [Function.comp_apply, Bool.and_eq_true, decide_eq_true_eq, hacct'] at h'
      obtain ⟨hacc, ha'⟩ := h'
      have ht := (touches_conflictingOrder id' (sizeT (start + i'))).1
      rw [hpi'] at ha'
      have he : sizeT (start + i') = sizeT (start + i) := ha'
      rw [he] at ht hpi'
      rw [hacc, hpi', ht]
      rfl
    · rw [← List.countP_filter (p := fun p : Order Double × ValidationResult => p.2.accepted),
        (validateAll_account _ l _).1, balances_seedPairs hi]
      exact (haccount hi).1
  · intro i hi
    rw [List.mem_range] at hi
    obtain ⟨q', hq', h0⟩ := (haccount hi).2
    rw [hstore, AccountStore.getBalance, (validateAll_account _ l _).2, balances_seedPairs hi, hq',
      Option.getD_some, Double.zero_eq, Double.fin_lt_fin]
    exact not_lt.mpr h0

end

def onePair : List (Order Double) := (generateConflictingPairs 1 1 1000000).1

theorem noDoubleSpend_passes_onePair :
    ∃ s, (hostMachine (benchCode (Fin 3) onePair (seedPairs 1 1000000 (.fin 10000))) 2 2 [0, 1] 2
        1).exec (beforeRun (seedPairs 1 1000000 (.fin 10000))) (drainedRun [8, 7]) = some s ∧
      testNoDoubleSpend 1 1000000 s.body.results s.body.risk.store = true := by
  obtain ⟨s, hs, hj⟩ := Option.map_eq_some_iff.mp (by decide +kernel :
    ((hostMachine (benchCode (Fin 3) onePair (seedPairs 1 1000000 (.fin 10000))) 2 2 [0, 1] 2
      1).exec (beforeRun (seedPairs 1 1000000 (.fin 10000))) (drainedRun [8, 7])).map
        (fun s => s.pool.joined) = some true)
  exact ⟨s, hs, noDoubleSpend_passes (by norm_num) le_rfl (List.cons_ne_nil _ _)
    (.of_exec (beforeRun_init _ _ _) hs) hj⟩

end OrderRisk.Harness
