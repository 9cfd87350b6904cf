import OrderRisk.Risk.Concurrent

/-!
# The schedule matters only within an account

`validateAll` takes a list of orders one at a time.  Seen from one account it is the list of the
orders that reach that account's balance, and nothing else (`debitAll`); two orders of one list
that agree on every account therefore give the same outcomes.  With the decisions of a run in the
place of the list, that is a statement about any two runs.
-/

namespace OrderRisk.Risk

open OrderRisk.Lib OrderRisk.Fix OrderRisk.Account

variable {V : Type*} [Zero V] [NatCast V] [Mul V] [Sub V] [LT V] [DecidableLT V] [LE V]
  [DecidableLE V]

/-- The orders one after the other: each with its result, and the store at the end. -/
def validateAll (store : AccountStore V) :
    List (Order V) → List (Order V × ValidationResult) × AccountStore V
  | [] => ([], store)
  | order :: orders =>
    let r := validate store order
    let rs := validateAll r.2 orders
    ((order, r.1) :: rs.1, rs.2)

/-- The order's result hangs on the balance of account `a`. -/
def touches (a : ℕ) (order : Order V) : Bool :=
  decide (order.checks = none ∧ order.accountId = a)

/-- `tryDebit` on one account, given by its balance, if it is registered. -/
def debit (bal : Option V) (order : Order V) : Bool × Option V :=
  match bal with
  | none => (false, none)
  | some cur => if cur < order.cost then (false, some cur) else (true, some (cur - order.cost))

/-- The orders of one account, one after the other. -/
def debitAll (bal : Option V) : List (Order V) → List (Order V × ValidationResult) × Option V
  | [] => ([], bal)
  | order :: orders =>
    let r := debit bal order
    let rs := debitAll r.2 orders
    ((order, order.debited r.1) :: rs.1, rs.2)

theorem validateAll_cons (store : AccountStore V) (order : Order V) (orders : List (Order V)) :
    validateAll store (order :: orders) =
      ((order, (validate store order).1) :: (validateAll (validate store order).2 orders).1,
        (validateAll (validate store order).2 orders).2) := rfl

/-! ### One account -/

omit [NatCast V] [Mul V] [Sub V] [LT V] [DecidableLT V] in
theorem touches_iff {a : ℕ} {order : Order V} :
    touches a order = true ↔ order.checks = none ∧ order.accountId = a := by
  unfold touches
  rw [decide_eq_true_iff]

theorem validate_of_touches {a : ℕ} {order : Order V} (h : touches a order = true)
    (store : AccountStore V) :
    (validate store order).1 = order.debited (debit (store.balances a) order).1 ∧
      (validate store order).2.balances a = (debit (store.balances a) order).2 := by
  obtain ⟨hc, rfl⟩ := touches_iff.mp h
  rw [validate_of_debit hc]
  unfold AccountStore.tryDebit debit
  cases hb : store.balances order.accountId with
  | none => exact ⟨rfl, hb⟩
  | some cur =>
    by_cases hlt : cur < order.cost
    · simp [hlt, hb]
    · simp [hlt]

theorem validate_of_not_touches {a : ℕ} {order : Order V} (h : touches a order = false)
    (store : AccountStore V) : (validate store order).2.balances a = store.balances a := by
  rcases validate_cases store order with ⟨hsame, -⟩ | ⟨cur, hadm, hside, -, -, hval⟩
  · rw [hsame]
  · have hne : a ≠ order.accountId := by
      rintro rfl
      rw [touches_iff.mpr ⟨checks_eq_none.mpr ⟨hadm, hside⟩, rfl⟩] at h
      cases h
    rw [hval]
    exact AccountStore.setBalance_of_ne _ _ hne

/-- **What one account sees of a run**: the orders that touch it. -/
theorem validateAll_account (a : ℕ) (orders : List (Order V)) (store : AccountStore V) :
    (validateAll store orders).1.filter (fun p => touches a p.1) =
        (debitAll (store.balances a) (orders.filter (touches a))).1 ∧
      (validateAll store orders).2.balances a =
        (debitAll (store.balances a) (orders.filter (touches a))).2 := by
  induction orders generalizing store with
  | nil => exact ⟨rfl, rfl⟩
  | cons order orders ih =>
    obtain ⟨ih1, ih2⟩ := ih (validate store order).2
    cases ht : touches a order with
    | true =>
      obtain ⟨h1, h2⟩ := validate_of_touches ht store
      rw [h2] at ih1 ih2
      rw [List.filter_cons_of_pos ht]
      constructor
      · rw [validateAll_cons]
        simp only [List.filter_cons, ht, if_true]
        rw [ih1, h1]
        rfl
      · exact ih2
    | false =>
      rw [validate_of_not_touches ht] at ih1 ih2
      rw [List.filter_cons_of_neg (by simp [ht])]
      constructor
      · rw [validateAll_cons]
        simp only [List.filter_cons, ht, Bool.false_eq_true, if_false]
        exact ih1
      · exact ih2

theorem validateAll_checks (orders : List (Order V)) (store : AccountStore V) :
    (validateAll store orders).1.filter (fun p => p.1.checks.isSome) =
      orders.filterMap fun order => order.checks.map fun r => (order, r) := by
  induction orders generalizing store with
  | nil => rfl
  | cons order orders ih =>
    rw [validateAll_cons]
    cases hc : order.checks with
    | none => simpa [List.filter_cons, hc] using ih (validate store order).2
    | some r =>
      have hv : (validate store order).1 = r := by rw [validate_of_checks hc]
      simpa [List.filter_cons, hc, hv] using ih (validate store order).2

omit [Zero V] [LE V] [DecidableLE V] in
theorem debitAll_none (orders : List (Order V)) :
    debitAll none orders = (orders.map fun order => (order, order.debited false), none) := by
  induction orders with
  | nil => rfl
  | cons order orders ih =>
    rw [debitAll, debit, ih]
    rfl

/-! ### Two orders of one list -/

theorem count_of_touches [DecidableEq V] {a : ℕ} {p : Order V × ValidationResult}
    (h : touches a p.1 = true) (orders : List (Order V)) (store : AccountStore V) :
    (validateAll store orders).1.count p =
      (debitAll (store.balances a) (orders.filter (touches a))).1.count p := by
  rw [← (validateAll_account a orders store).1]
  exact (List.count_filter (p := fun p : Order V × ValidationResult => touches a p.1) h).symm

/-- **Independence of the accounts.**  Two orders of a list with the same sequence on every
registered account give the same outcomes and the same balances. -/
theorem validateAll_perm [DecidableEq V] {store : AccountStore V} {l l' : List (Order V)}
    (hp : l.Perm l')
    (hsame : ∀ a, (store.balances a).isSome → l.filter (touches a) = l'.filter (touches a)) :
    (validateAll store l).1.Perm (validateAll store l').1 ∧
      (validateAll store l).2 = (validateAll store l').2 := by
  constructor
  · rw [List.perm_iff_count]
    intro p
    cases hc : p.1.checks with
    | some r =>
      have hcount : ∀ l, (validateAll store l).1.count p =
          (l.filterMap fun order => order.checks.map fun r => (order, r)).count p := by
        intro l
        rw [← validateAll_checks l store]
        exact (List.count_filter (p := fun p : Order V × ValidationResult => p.1.checks.isSome)
          (by simp [hc])).symm
      rw [hcount, hcount]
      exact (hp.filterMap _).count_eq p
    | none =>
      have ht : touches p.1.accountId p.1 = true := touches_iff.mpr ⟨hc, rfl⟩
      rw [count_of_touches ht, count_of_touches ht]
      cases hb : store.balances p.1.accountId with
      | none =>
        rw [debitAll_none, debitAll_none]
        exact ((hp.filter _).map _).count_eq p
      | some cur => rw [hsame _ (by rw [hb]; rfl)]
  · have hbal : (validateAll store l).2.balances = (validateAll store l').2.balances := by
      funext a
      rw [(validateAll_account a l store).2, (validateAll_account a l' store).2]
      cases hb : store.balances a with
      | none => rw [debitAll_none, debitAll_none]
      | some cur => rw [hsame a (by rw [hb]; rfl)]
    exact congrArg AccountStore.mk hbal

omit [NatCast V] [Mul V] [Sub V] [LT V] [DecidableLT V] in
/-- At most one order per account: any two orders of the list agree. -/
theorem filter_touches_eq {l l' : List (Order V)} (hp : l.Perm l')
    (hnd : (l.map Order.accountId).Nodup) (a : ℕ) :
    l.filter (touches a) = l'.filter (touches a) := by
  have hpf := hp.filter (touches a)
  cases hf : l.filter (touches a) with
  | nil =>
    rw [hf] at hpf
    exact hpf.nil_eq
  | cons x xs =>
    cases xs with
    | nil =>
      rw [hf] at hpf
      exact (List.singleton_perm.mp hpf).symm ▸ rfl
    | cons y ys =>
      -- two orders would share the account
      have hx : x.accountId = a := (touches_iff.mp (List.mem_filter.mp
        (hf ▸ List.mem_cons_self : x ∈ l.filter (touches a))).2).2
      have hy : y.accountId = a := (touches_iff.mp (List.mem_filter.mp
        (hf ▸ List.mem_cons_of_mem _ List.mem_cons_self : y ∈ l.filter (touches a))).2).2
      have hsub := ((List.filter_sublist (p := touches a) (l := l)).map Order.accountId).nodup hnd
      rw [hf, List.map_cons, List.map_cons, hx, hy] at hsub
      simp at hsub

/-! ### Two runs -/

section

variable [Add V] [DecidableEq V]

omit [Add V] [DecidableEq V] in
/-- A legal order of decisions is a run of `validateAll`. -/
theorem validateAll_of_legal {store s : AccountStore V}
    {log : List (Entry (Order V) ValidationResult)} (h : Legal validateOp store log s) :
    validateAll store (log.map Entry.arg) = (log.map Entry.label, s) := by
  induction h with
  | nil s => rfl
  | @cons store store₁ s e log he _ ih =>
    have hv : validate store e.arg = (e.result, store₁) := Option.some.inj he
    rw [List.map_cons, validateAll_cons, hv, ih]
    rfl

variable {ι κ : Type*} [DecidableEq ι] [DecidableEq κ] {store : AccountStore V}

def State.Finished (s : State ι V) : Prop := ∀ t, s.pc t = .idle

def State.orders (s : State ι V) : List (Order V) := (calls s.hist).map Prod.snd

/-- The successful debits and the decisive failed checks on an account, in the order of the steps
that made them. -/
def State.decisions (s : State ι V) (a : ℕ) : List (Order V) :=
  (s.log.map Entry.arg).filter (touches a)

/-- What a run answered is what `validateAll` answers in the order of the decisions. -/
theorem finished_of_reachable {s : State ι V} (h : (machine ι store).Reachable s)
    (hf : s.Finished) : s.orders.Perm (s.log.map Entry.arg) ∧
      (outcomes s.hist).Perm (validateAll store (s.log.map Entry.arg)).1 ∧
      s.store = (validateAll store (s.log.map Entry.arg)).2 := by
  have hi := inv_of_reachable h
  have hout : ∀ t, (Pc.place ∘ s.pc) t = .outside := by
    intro t
    rw [Function.comp_apply, hf t]
    rfl
  refine ⟨?_, ?_, ?_⟩
  · have := (hi.logged.calls_perm hout).map Prod.snd
    rwa [List.map_map] at this
  · rw [validateAll_of_legal hi.legal]
    exact hi.logged.outcomes_perm hout
  · rw [validateAll_of_legal hi.legal]

/-- **Schedule independence across accounts.** -/
theorem schedule_independent {s : State ι V} {s' : State κ V} {orders : List (Order V)}
    (h : (machine ι store).Reachable s) (hf : s.Finished) (ho : s.orders.Perm orders)
    (h' : (machine κ store).Reachable s') (hf' : s'.Finished) (ho' : s'.orders.Perm orders) :
    ((∀ a, (store.balances a).isSome → s.decisions a = s'.decisions a) →
      (outcomes s.hist).Perm (outcomes s'.hist) ∧ s.store = s'.store) ∧
    ((orders.map Order.accountId).Nodup → ∀ l, l.Perm orders →
      (outcomes s.hist).Perm (validateAll store l).1 ∧ s.store = (validateAll store l).2) := by
  obtain ⟨hl, hr, hs⟩ := finished_of_reachable h hf
  obtain ⟨hl', hr', hs'⟩ := finished_of_reachable h' hf'
  constructor
  · intro hsame
    have hp : (s.log.map Entry.arg).Perm (s'.log.map Entry.arg) :=
      (hl.symm.trans ho).trans (ho'.symm.trans hl')
    obtain ⟨h1, h2⟩ := validateAll_perm hp hsame
    exact ⟨(hr.trans h1).trans hr'.symm, by rw [hs, hs', h2]⟩
  · intro hnd l hlo
    have hp : l.Perm (s.log.map Entry.arg) := hlo.trans (ho.symm.trans hl)
    have hndl : (l.map Order.accountId).Nodup := (hlo.map Order.accountId).nodup_iff.mpr hnd
    obtain ⟨h1, h2⟩ := validateAll_perm hp fun a _ => filter_touches_eq hp hndl a
    exact ⟨hr.trans h1.symm, by rw [hs, h2]⟩

end

/-! ### Two orders on two accounts, in either order -/

/-- A covered BUY of account 7 and one of account 8 that is not covered. -/
def coveredBuy : Order ℚ := ⟨1, 7, txt "BTC-USD", .buy, 1, 6000⟩
def uncoveredBuy : Order ℚ := ⟨2, 8, txt "ETH-USD", .buy, 2, 6000⟩

def twoAccounts : AccountStore ℚ := (AccountStore.empty.setBalance 7 10000).setBalance 8 10000

/-- One after the other, .. -/
def inTurn : List (Act (Fin 2) ℚ) :=
  [.call 0 coveredBuy, .step 0 false, .step 0 false, .step 0 false, .ret 0,
    .call 0 uncoveredBuy, .step 0 false, .step 0 false, .ret 0]

/-- .. and the second order decided between the first one's load and its CAS. -/
def overlapping : List (Act (Fin 2) ℚ) :=
  [.call 0 coveredBuy, .call 1 uncoveredBuy, .step 0 false, .step 0 false, .step 1 false,
    .step 0 true, .step 1 false, .step 0 false, .ret 1, .ret 0]

theorem finished_of_exec {as : List (Act (Fin 2) ℚ)} {orders log : List (Order ℚ)}
    (h : ((machine (Fin 2) twoAccounts).exec ⟨twoAccounts, fun _ => .idle, [], []⟩ as).map
      (fun s => (s.orders, s.log.map Entry.arg, s.pc 0, s.pc 1)) =
      some (orders, log, .idle, .idle)) :
    ∃ s, (machine (Fin 2) twoAccounts).exec ⟨twoAccounts, fun _ => .idle, [], []⟩ as = some s ∧
      s.orders = orders ∧ s.log.map Entry.arg = log ∧ s.Finished := by
  obtain ⟨s, hs, hv⟩ := Option.map_eq_some_iff.mp h
  simp only [Prod.mk.injEq] at hv
  obtain ⟨ho, hl, h0, h1⟩ := hv
  exact ⟨s, hs, ho, hl, Fin.forall_fin_two.mpr ⟨h0, h1⟩⟩

theorem schedule_independent_twoAccounts :
    ∃ s s', (machine (Fin 2) twoAccounts).exec ⟨twoAccounts, fun _ => .idle, [], []⟩ inTurn =
        some s ∧
      (machine (Fin 2) twoAccounts).exec ⟨twoAccounts, fun _ => .idle, [], []⟩ overlapping =
        some s' ∧
      ((outcomes s.hist).Perm (outcomes s'.hist) ∧ s.store = s'.store) ∧
      (outcomes s'.hist).Perm (validateAll twoAccounts [coveredBuy, uncoveredBuy]).1 := by
  obtain ⟨s, hs, ho, hl, hf⟩ := @finished_of_exec inTurn
    [coveredBuy, uncoveredBuy] [coveredBuy, uncoveredBuy] (by decide +kernel)
  obtain ⟨s', hs', ho', hl', hf'⟩ := @finished_of_exec overlapping
    [coveredBuy, uncoveredBuy] [uncoveredBuy, coveredBuy] (by decide +kernel)
  have hr := Machine.Reachable.of_exec (M := machine (Fin 2) twoAccounts) rfl hs
  have hr' := Machine.Reachable.of_exec (M := machine (Fin 2) twoAccounts) rfl hs'
  have hnd : ([coveredBuy, uncoveredBuy].map Order.accountId).Nodup := by decide
  have hsame : ∀ a, s.decisions a = s'.decisions a := by
    intro a
    rw [State.decisions, State.decisions, hl, hl']
    exact filter_touches_eq (.swap ..) hnd a
  have hperm := schedule_independent hr hf (.of_eq ho) hr' hf' (.of_eq ho')
  have hseq := schedule_independent hr' hf' (.of_eq ho') hr hf (.of_eq ho)
  exact ⟨s, s', hs, hs', hperm.1 fun a _ => hsame a, (hseq.2 hnd _ (.refl _)).1⟩

end OrderRisk.Risk
