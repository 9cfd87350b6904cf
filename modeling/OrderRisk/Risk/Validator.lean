import OrderRisk.Account.Store
import OrderRisk.Fix.Text

/-!
# `Order` and `RiskValidator`

The clock fields (`enqueueTime`, `latencyMicros`) are left out: no decision reads them.
-/

namespace OrderRisk.Risk

open OrderRisk.Lib OrderRisk.Fix OrderRisk.Account

inductive Side where
  | buy
  | sell
  deriving DecidableEq

/-- `Order`. -/
structure Order (V : Type*) where
  orderId : ℕ
  accountId : ℕ
  symbol : Bytes
  side : Side
  qty : ℕ
  price : V
  deriving DecidableEq

/-- `ValidationResult`. -/
structure ValidationResult where
  orderId : ℕ
  accountId : ℕ
  accepted : Bool
  /-- Populated on rejection. -/
  reason : Bytes
  deriving DecidableEq

def Order.accept {V : Type*} (order : Order V) : ValidationResult :=
  ⟨order.orderId, order.accountId, true, []⟩

def Order.reject {V : Type*} (order : Order V) (reason : Bytes) : ValidationResult :=
  ⟨order.orderId, order.accountId, false, reason⟩

/-- `allowedSymbols_`. -/
def allowedSymbols : List Bytes := [txt "BTC-USD", txt "ETH-USD", txt "SOL-USD"]

instance decidableAllowed (symbol : Bytes) : Decidable (symbol ∈ allowedSymbols) := inferInstance

section Validate

variable {V : Type*} [Zero V] [NatCast V] [Mul V] [Sub V] [LT V] [DecidableLT V] [LE V]
  [DecidableLE V]

/-- The cost of an order: `static_cast<double>(order.qty) * order.price`. -/
def Order.cost (order : Order V) : V := order.qty * order.price

/-- `validate`, with no other thread in between. -/
def validate (store : AccountStore V) (order : Order V) : ValidationResult × AccountStore V :=
  if order.qty = 0 then (order.reject (txt "zero_quantity"), store)
  else if order.price ≤ 0 then (order.reject (txt "invalid_price"), store)
  else if order.symbol ∉ allowedSymbols then (order.reject (txt "unknown_symbol"), store)
  else match order.side with
    | .buy =>
      match store.tryDebit order.accountId order.cost with
      | (true, store') => (order.accept, store')
      | (false, store') => (order.reject (txt "insufficient_balance"), store')
    | .sell => (order.accept, store)

/-- The checks in front of the balance: quantity, price and symbol. -/
def Order.Admissible (order : Order V) : Prop :=
  order.qty ≠ 0 ∧ ¬ order.price ≤ 0 ∧ order.symbol ∈ allowedSymbols

/-- **What `validate` does**: nothing to the store, unless it is a BUY that passes every check and
is covered, which takes its cost out of its own account. -/
theorem validate_cases (store : AccountStore V) (order : Order V) :
    ((validate store order).2 = store ∧
      ((validate store order).1.accepted = true → order.side = .sell)) ∨
    ∃ cur, order.Admissible ∧ order.side = .buy ∧ store.balances order.accountId = some cur ∧
      ¬ cur < order.cost ∧ validate store order =
        (order.accept, store.setBalance order.accountId (cur - order.cost)) := by
  unfold validate
  by_cases h1 : order.qty = 0
  · simp [h1, Order.reject]
  by_cases h2 : order.price ≤ 0
  · simp [h1, h2, Order.reject]
  by_cases h3 : order.symbol ∉ allowedSymbols
  · simp [h1, h2, h3, Order.reject]
  rw [if_neg h1, if_neg h2, if_neg h3]
  cases h4 : order.side with
  | sell => simp
  | buy =>
    cases h5 : store.balances order.accountId with
    | none => simp [AccountStore.tryDebit, h5, Order.reject]
    | some cur =>
      by_cases h6 : cur < order.cost
      · simp [AccountStore.tryDebit, h5, h6, Order.reject]
      · right
        exact ⟨cur, ⟨h1, h2, not_not.mp h3⟩, rfl, rfl, h6, by simp [AccountStore.tryDebit, h5, h6]⟩

theorem validate_buy {store : AccountStore V} {order : Order V} {cur : V}
    (h : order.Admissible) (hs : order.side = .buy)
    (hb : store.balances order.accountId = some cur) (hc : ¬ cur < order.cost) :
    validate store order =
      (order.accept, store.setBalance order.accountId (cur - order.cost)) := by
  obtain ⟨h1, h2, h3⟩ := h
  simp [validate, h1, h2, h3, hs, AccountStore.tryDebit, hb, hc]

theorem validate_reason (store : AccountStore V) (order : Order V) :
    (validate store order).1.reason ∈ [[], txt "zero_quantity", txt "invalid_price",
      txt "unknown_symbol", txt "insufficient_balance"] := by
  unfold validate
  by_cases h1 : order.qty = 0
  · simp [h1, Order.reject]
  by_cases h2 : order.price ≤ 0
  · simp [h1, h2, Order.reject]
  by_cases h3 : order.symbol ∉ allowedSymbols
  · simp [h1, h2, h3, Order.reject]
  rw [if_neg h1, if_neg h2, if_neg h3]
  cases order.side with
  | sell => simp [Order.accept]
  | buy =>
    rcases store.tryDebit order.accountId order.cost with ⟨_ | _, store'⟩
    · simp [Order.reject]
    · simp [Order.accept]

theorem validate_ids (store : AccountStore V) (order : Order V) :
    (validate store order).1.orderId = order.orderId ∧
      (validate store order).1.accountId = order.accountId := by
  unfold validate
  split_ifs
  · exact ⟨rfl, rfl⟩
  · exact ⟨rfl, rfl⟩
  · cases order.side with
    | sell => exact ⟨rfl, rfl⟩
    | buy =>
      rcases store.tryDebit order.accountId order.cost with ⟨_ | _, store'⟩ <;> exact ⟨rfl, rfl⟩
  · exact ⟨rfl, rfl⟩

end Validate

end OrderRisk.Risk
