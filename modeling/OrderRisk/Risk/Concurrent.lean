import OrderRisk.Lib.Linear
import OrderRisk.Risk.Validator

/-!
# `validate` on many threads

A thread inside `validate` makes the checks that read nobody else's memory, and for a BUY then the
single atomic accesses of `tryDebit`, which are those of `callStep`.  An order is decided by one of
these steps: by the checks, by a load or a failed CAS that finds too little, or by the CAS that
succeeds.  `log` lists the orders as they are decided; in that order the plain `validate` gives the
same answers and the same balances.
-/

namespace OrderRisk.Risk

open OrderRisk.Lib OrderRisk.Fix OrderRisk.Account

inductive Pc (V : Type*) where
  | idle
  /-- In front of the checks of quantity, price, symbol and side. -/
  | checks (id : ℕ) (order : Order V)
  /-- Inside `tryDebit`. -/
  | debiting (id : ℕ) (order : Order V) (p : Account.Pc V)
  | returned (id : ℕ) (result : ValidationResult)
  deriving DecidableEq

/-- The store, the threads, what their callers have seen, and the orders in the order in which they
were decided. -/
structure State (ι V : Type*) where
  store : AccountStore V
  pc : ι → Pc V
  hist : List (Event (Order V) ValidationResult)
  log : List (Entry (Order V) ValidationResult)

inductive Act (ι V : Type*) where
  | call (t : ι) (order : Order V)
  | step (t : ι) (spurious : Bool)
  | ret (t : ι)

section

variable {V : Type*} [Zero V] [NatCast V] [Mul V] [Sub V] [Add V] [LT V] [DecidableLT V] [LE V]
  [DecidableLE V] [DecidableEq V]

/-- The checks that read no balance: the result, or `none` where `tryDebit` is to decide. -/
def Order.checks (order : Order V) : Option ValidationResult :=
  if order.qty = 0 then some (order.reject (txt "zero_quantity"))
  else if order.price ≤ 0 then some (order.reject (txt "invalid_price"))
  else if order.symbol ∉ allowedSymbols then some (order.reject (txt "unknown_symbol"))
  else match order.side with
    | .buy => none
    | .sell => some order.accept

/-- The result, once `tryDebit` has returned. -/
def Order.debited (order : Order V) (ok : Bool) : ValidationResult :=
  if ok then order.accept else order.reject (txt "insufficient_balance")

/-- A step of a thread inside `validate`. -/
def threadStep (store : AccountStore V) (spurious : Bool) : Pc V → Option (AccountStore V × Pc V)
  | .checks id order =>
    match order.checks with
    | some result => some (store, .returned id result)
    | none => some (store, .debiting id order (.enter (.tryDebit order.accountId order.cost)))
  | .debiting id order p =>
    (callStep store spurious p).map fun r =>
      match r.2.1 with
      | .done ok => (r.1, .returned id (order.debited ok))
      | p' => (r.1, .debiting id order p')
  | _ => none

/-- The decision a step makes. -/
def decided : Pc V → Pc V → List (Entry (Order V) ValidationResult)
  | .checks id order, .returned _ result => [⟨id, order, result⟩]
  | .debiting id order _, .returned _ result => [⟨id, order, result⟩]
  | _, _ => []

def machine (ι : Type*) [DecidableEq ι] (store : AccountStore V) :
    Machine (State ι V) (Act ι V) where
  init s := s = ⟨store, fun _ => .idle, [], []⟩
  step s
    | .call t order =>
      match s.pc t with
      | .idle => some { s with
          pc := Function.update s.pc t (.checks s.hist.length order)
          hist := s.hist ++ [.call s.hist.length order] }
      | _ => none
    | .step t spurious =>
      (threadStep s.store spurious (s.pc t)).map fun r =>
        ⟨r.1, Function.update s.pc t r.2, s.hist, s.log ++ decided (s.pc t) r.2⟩
    | .ret t =>
      match s.pc t with
      | .returned id result => some { s with
          pc := Function.update s.pc t .idle
          hist := s.hist ++ [.ret id result] }
      | _ => none

/-- The validator that takes one order at a time. -/
def validateOp (store : AccountStore V) (order : Order V) :
    Option (ValidationResult × AccountStore V) :=
  some (validate store order)

omit [Add V] [DecidableEq V] in
theorem validate_of_checks {store : AccountStore V} {order : Order V} {result : ValidationResult}
    (h : order.checks = some result) : validate store order = (result, store) := by
  unfold Order.checks at h
  unfold validate
  split_ifs at h ⊢ with h1 h2 h3
  · cases h
    rfl
  · cases h
    rfl
  · cases hs : order.side with
    | buy =>
      rw [hs] at h
      cases h
    | sell =>
      rw [hs] at h
      cases h
      rfl
  · cases h
    rfl

omit [NatCast V] [Mul V] [Sub V] [Add V] [LT V] [DecidableLT V] [DecidableEq V] in
theorem checks_eq_none {order : Order V} :
    order.checks = none ↔ order.Admissible ∧ order.side = .buy := by
  unfold Order.checks Order.Admissible
  constructor
  · intro h
    split_ifs at h with h1 h2 h3
    cases hs : order.side with
    | buy => exact ⟨⟨h1, h2, h3⟩, rfl⟩
    | sell =>
      rw [hs] at h
      cases h
  · rintro ⟨⟨h1, h2, h3⟩, hs⟩
    rw [if_neg h1, if_neg h2, if_neg (not_not.mpr h3), hs]

omit [Add V] [DecidableEq V] in
theorem validate_of_debit {store : AccountStore V} {order : Order V} (h : order.checks = none) :
    validate store order = (order.debited (store.tryDebit order.accountId order.cost).1,
      (store.tryDebit order.accountId order.cost).2) := by
  obtain ⟨⟨h1, h2, h3⟩, hs⟩ := checks_eq_none.mp h
  unfold validate
  rw [if_neg h1, if_neg h2, if_neg (not_not.mpr h3), hs]
  rcases store.tryDebit order.accountId order.cost with ⟨ok, store'⟩
  cases ok <;> rfl

/-! ### A thread inside `tryDebit` -/

/-- Inside `tryDebit accountId amount`: what it holds has passed the check. -/
def Debiting (accountId : ℕ) (amount : V) : Account.Pc V → Prop
  | .enter c => c = .tryDebit accountId amount
  | .debitCas a v cur => a = accountId ∧ v = amount ∧ ¬ cur < amount
  | _ => False

omit [Zero V] [NatCast V] [Mul V] [LE V] [DecidableLE V] in
/-- **The deciding step of `tryDebit`** is the step at which the plain `tryDebit` gives that answer;
the others only load. -/
theorem debiting_step {store store' : AccountStore V} {spurious : Bool} {a : ℕ} {v : V}
    {p p' : Account.Pc V} {m : Option (Account.Move V)} (hp : Debiting a v p)
    (h : callStep store spurious p = some (store', p', m)) :
    (∃ ok, p' = .done ok ∧ store.tryDebit a v = (ok, store')) ∨
    (store' = store ∧ Debiting a v p' ∧ ∀ ok, p' ≠ .done ok) := by
  have hcheck : ∀ {bal}, store.balances a = some bal →
      (∃ ok, debitCheck a v bal = .done ok ∧ store.tryDebit a v = (ok, store)) ∨
      (Debiting a v (debitCheck a v bal) ∧ ∀ ok, debitCheck a v bal ≠ .done ok) := by
    intro bal hb
    unfold debitCheck AccountStore.tryDebit
    by_cases hlt : bal < v
    · rw [hb, if_pos hlt]
      exact .inl ⟨false, rfl, by simp [hlt]⟩
    · rw [if_neg hlt]
      exact .inr ⟨⟨rfl, rfl, hlt⟩, nofun⟩
  obtain ⟨a', v', rfl, hb, rfl, rfl, -⟩ | ⟨a', v', bal, hp', hb, rfl, rfl, -⟩ |
    ⟨a', v', cur, rfl, hb, rfl, rfl, -⟩ | ⟨a', v', rfl, -⟩ | ⟨a', v', bal, hp', -⟩ |
    ⟨a', v', cur, rfl, -⟩ := callStep_cases h
  · -- not registered
    cases hp
    exact .inl ⟨false, rfl, by simp [AccountStore.tryDebit, hb]⟩
  · -- a load
    have heq : a' = a ∧ v' = v := by
      rcases hp' with rfl | ⟨cur, rfl⟩
      · cases hp
        exact ⟨rfl, rfl⟩
      · exact ⟨hp.1, hp.2.1⟩
    obtain ⟨rfl, rfl⟩ := heq
    rcases hcheck hb with h | h
    · exact .inl h
    · exact .inr ⟨rfl, h⟩
  · -- the CAS: the balance is still the value that passed the check
    obtain ⟨rfl, rfl, hlt⟩ := hp
    exact .inl ⟨true, rfl, by simp [AccountStore.tryDebit, hb, hlt]⟩
  · cases hp
  · rcases hp' with rfl | ⟨cur, rfl⟩
    · cases hp
    · exact hp.elim
  · exact hp.elim

/-! ### The invariant -/

def Pc.place : Pc V → Place (Order V) ValidationResult
  | .idle => .outside
  | .checks id order => .pending id order
  | .debiting id order _ => .pending id order
  | .returned id result => .decided id result

/-- `tryDebit` is called for the orders the checks leave to it. -/
def PcOk : Pc V → Prop
  | .debiting _ order p => order.checks = none ∧ Debiting order.accountId order.cost p
  | _ => True

structure Inv {ι : Type*} (store : AccountStore V) (s : State ι V) : Prop where
  logged : Logged s.hist s.log (Pc.place ∘ s.pc)
  legal : Legal validateOp store s.log s.store
  pcOk : ∀ t, PcOk (s.pc t)

variable {ι : Type*} [DecidableEq ι] {store : AccountStore V} {s s' : State ι V} {a : Act ι V}

/-- What a step inside `validate` does: it decides the order as the plain `validate` would at that
moment, or leaves the store alone. -/
theorem threadStep_cases {spurious : Bool} {k k' : Pc V} {store store' : AccountStore V}
    (hk : PcOk k) (h : threadStep store spurious k = some (store', k')) :
    (∃ id order result, k.place = .pending id order ∧ k' = .returned id result ∧
      decided k k' = [⟨id, order, result⟩] ∧ validate store order = (result, store')) ∨
    (store' = store ∧ k'.place = k.place ∧ decided k k' = [] ∧ PcOk k') := by
  cases k with
  | idle => cases h
  | returned id result => cases h
  | checks id order =>
    simp only [threadStep] at h
    split at h
    · next result hc =>
      cases h
      exact .inl ⟨id, order, result, rfl, rfl, rfl, validate_of_checks hc⟩
    · next hc =>
      cases h
      exact .inr ⟨rfl, rfl, rfl, hc, rfl⟩
  | debiting id order p =>
    obtain ⟨⟨store₁, p', m⟩, hstep, h⟩ := Option.map_eq_some_iff.mp h
    obtain ⟨hc, hp⟩ := hk
    rcases debiting_step hp hstep with ⟨ok, rfl, htry⟩ | ⟨rfl, hp', hne⟩
    · cases h
      refine .inl ⟨id, order, _, rfl, rfl, rfl, ?_⟩
      rw [validate_of_debit hc, htry]
    · have hk' : (store₁, Pc.debiting id order p') = (store', k') := by
        cases p' with
        | done ok => exact (hne ok rfl).elim
        | _ => exact h
      cases hk'
      exact .inr ⟨rfl, rfl, rfl, hc, hp'⟩

theorem step_cases (h : (machine ι store).step s a = some s') :
    (∃ t order, a = .call t order ∧ s.pc t = .idle ∧ s' = { s with
      pc := Function.update s.pc t (.checks s.hist.length order)
      hist := s.hist ++ [.call s.hist.length order] }) ∨
    (∃ t spurious store' k, a = .step t spurious ∧
      threadStep s.store spurious (s.pc t) = some (store', k) ∧
      s' = ⟨store', Function.update s.pc t k, s.hist, s.log ++ decided (s.pc t) k⟩) ∨
    (∃ t id result, a = .ret t ∧ s.pc t = .returned id result ∧ s' = { s with
      pc := Function.update s.pc t .idle
      hist := s.hist ++ [.ret id result] }) := by
  cases a with
  | call t order =>
    simp only [machine] at h
    split at h
    · next ht =>
      cases h
      exact .inl ⟨t, order, rfl, ht, rfl⟩
    · cases h
  | step t spurious =>
    obtain ⟨⟨store', k⟩, hr, rfl⟩ := Option.map_eq_some_iff.mp h
    exact .inr (.inl ⟨t, spurious, store', k, rfl, hr, rfl⟩)
  | ret t =>
    simp only [machine] at h
    split at h
    · next id result ht =>
      cases h
      exact .inr (.inr ⟨t, id, result, rfl, ht, rfl⟩)
    · cases h

omit [Add V] [DecidableEq V] [DecidableEq ι] in
theorem Inv.init : Inv store (⟨store, fun _ : ι => .idle, [], []⟩ : State ι V) where
  logged := .init
  legal := .nil _
  pcOk _ := trivial

omit [Sub V] [Add V] [DecidableLT V] [DecidableEq V] in
theorem pcOk_update {pc : ι → Pc V} {t : ι} {k : Pc V} (h : ∀ u, PcOk (pc u)) (hk : PcOk k) (u : ι) :
    PcOk (Function.update pc t k u) := by
  rcases eq_or_ne u t with rfl | hne
  · rw [Function.update_self]
    exact hk
  · rw [Function.update_of_ne hne]
    exact h u

theorem Inv.step (h : Inv store s) (hs : (machine ι store).step s a = some s') : Inv store s' := by
  obtain ⟨t, order, rfl, ht, rfl⟩ | ⟨t, spurious, store', k, rfl, hr, rfl⟩ |
    ⟨t, id, result, rfl, ht, rfl⟩ := step_cases hs
  · refine ⟨?_, h.legal, pcOk_update h.pcOk trivial⟩
    rw [Function.comp_update]
    exact h.logged.call (by rw [Function.comp_apply, ht]; rfl)
  · rcases threadStep_cases (h.pcOk t) hr with
      ⟨id, order, result, hp, rfl, hd, hv⟩ | ⟨rfl, hp, hd, hk⟩
    · refine ⟨?_, ?_, pcOk_update h.pcOk trivial⟩
      · rw [Function.comp_update, hd]
        exact h.logged.decide hp
      · rw [hd]
        exact h.legal.snoc (congrArg some hv)
    · rw [hd, List.append_nil]
      refine ⟨?_, h.legal, pcOk_update h.pcOk hk⟩
      rw [Function.comp_update, hp, ← Function.comp_apply (f := Pc.place), Function.update_eq_self]
      exact h.logged
  · refine ⟨?_, h.legal, pcOk_update h.pcOk trivial⟩
    rw [Function.comp_update]
    exact h.logged.ret (by rw [Function.comp_apply, ht]; rfl)

theorem inv_of_reachable (h : (machine ι store).Reachable s) : Inv store s :=
  h.invariant (fun _ hi => hi ▸ .init) fun _ _ _ hi _ hs => hi.step hs

/-- A step changes the store only where it accepts a BUY, and there only that order's account. -/
theorem Inv.store_step (h : Inv store s) (hs : (machine ι store).step s a = some s') :
    s'.store = s.store ∨ ∃ t id order p cur, s.pc t = .debiting id order p ∧
      s'.pc t = .returned id order.accept ∧ order.side = .buy ∧
      s.store.balances order.accountId = some cur ∧
      s'.store = s.store.setBalance order.accountId (cur - order.cost) := by
  obtain ⟨t, order, rfl, ht, rfl⟩ | ⟨t, spurious, store', k, rfl, hr, rfl⟩ |
    ⟨t, id, result, rfl, ht, rfl⟩ := step_cases hs
  · exact .inl rfl
  · rcases threadStep_cases (h.pcOk t) hr with
      ⟨id, order, result, hp, rfl, hd, hv⟩ | ⟨rfl, hp, hd, hk⟩
    · rcases validate_cases s.store order with ⟨hsame, -⟩ | ⟨cur, hadm, hside, hcur, -, hval⟩
      · rw [hv] at hsame
        exact .inl hsame
      · rw [hv] at hval
        cases hval
        refine .inr ⟨t, id, order, ?_⟩
        cases hpc : s.pc t with
        | idle =>
          rw [hpc] at hp
          cases hp
        | returned id' r =>
          rw [hpc] at hp
          cases hp
        | checks id' order' =>
          -- the checks decide no BUY that reaches the balance
          rw [hpc] at hp hr
          cases hp
          simp [threadStep, checks_eq_none.mpr ⟨hadm, hside⟩] at hr
        | debiting id' order' p =>
          rw [hpc] at hp
          cases hp
          exact ⟨p, cur, rfl, Function.update_self .., hside, hcur, rfl⟩
    · exact .inl rfl
  · exact .inl rfl

/-- **Concurrent validation is sequential validation in some order.** -/
theorem validate_linearizable (h : (machine ι store).Reachable s) :
    (∃ order, Linearizes validateOp store s.hist order s.store) ∧
    ∀ a s', (machine ι store).step s a = some s' →
      s'.store = s.store ∨ ∃ t id order p cur, s.pc t = .debiting id order p ∧
        s'.pc t = .returned id order.accept ∧ order.side = .buy ∧
        s.store.balances order.accountId = some cur ∧
        s'.store = s.store.setBalance order.accountId (cur - order.cost) := by
  have hi := inv_of_reachable h
  exact ⟨⟨s.log, hi.logged.recorded, hi.legal⟩, fun _ _ => hi.store_step⟩

end

/-! ### Two orders for one balance -/

def racingBuy (orderId : ℕ) : Order ℚ := ⟨orderId, 7, txt "BTC-USD", .buy, 1, 6000⟩

def racedAccount : AccountStore ℚ := AccountStore.empty.setBalance 7 10000

/-- Both orders pass the check on the same balance; the CAS of the second succeeds, the one of the
first fails and finds too little. -/
def racingOrders : List (Act (Fin 2) ℚ) :=
  [.call 0 (racingBuy 1), .call 1 (racingBuy 2), .step 0 false, .step 1 false, .step 0 false,
    .step 1 false, .step 1 false, .ret 1, .step 0 false, .ret 0]

theorem validate_linearizable_racingOrders :
    ∃ s, (machine (Fin 2) racedAccount).exec ⟨racedAccount, fun _ => .idle, [], []⟩
        racingOrders = some s ∧
      ∃ order, Linearizes validateOp racedAccount s.hist order s.store := by
  obtain ⟨s, hs⟩ : ∃ s, (machine (Fin 2) racedAccount).exec
      ⟨racedAccount, fun _ => .idle, [], []⟩ racingOrders = some s :=
    Option.isSome_iff_exists.mp (by decide +kernel)
  exact ⟨s, hs, (validate_linearizable (Machine.Reachable.of_exec rfl hs)).1⟩

end OrderRisk.Risk
