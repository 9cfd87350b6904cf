import OrderRisk.Lib.Machine
import Mathlib.Algebra.Order.Ring.Rat
import Mathlib.Tactic.Linarith

/-!
# `AccountStore`: balances, one compare-and-swap loop per account

The map's shape is fixed before trading starts, so a store is a function from account ids to
balances.  `tryDebit` and `credit` are given twice: as plain functions (one caller at a time),
and as the program counters `Pc` of a thread inside them, whose steps are the single atomic
accesses to `balances_`.  The number type `V` is a parameter: exact rationals where only the
schedule matters, doubles with their special values where the numbers come off the wire.
-/

namespace OrderRisk.Account

open OrderRisk.Lib

/-- `AccountStore`: `balances_` from the account id to its balance. -/
structure AccountStore (V : Type*) where
  balances : ℕ → Option V

namespace AccountStore

variable {V : Type*}

def empty : AccountStore V := ⟨fun _ => none⟩

/-- `setBalance`. -/
def setBalance (s : AccountStore V) (accountId : ℕ) (balance : V) : AccountStore V :=
  ⟨Function.update s.balances accountId (some balance)⟩

@[simp] theorem setBalance_self (s : AccountStore V) (a : ℕ) (b : V) :
    (s.setBalance a b).balances a = some b := by
  simp [setBalance]

@[simp] theorem setBalance_of_ne (s : AccountStore V) {a a' : ℕ} (b : V) (h : a' ≠ a) :
    (s.setBalance a b).balances a' = s.balances a' := by
  simp [setBalance, h]

/-- `getBalance`: an unregistered account reads as `0.0`. -/
def getBalance [Zero V] (s : AccountStore V) (accountId : ℕ) : V :=
  (s.balances accountId).getD 0

/-- `tryDebit` with no other thread in between. -/
def tryDebit [LT V] [DecidableLT V] [Sub V] (s : AccountStore V) (accountId : ℕ) (amount : V) :
    Bool × AccountStore V :=
  match s.balances accountId with
  | none => (false, s)
  | some cur =>
    if cur < amount then (false, s) else (true, s.setBalance accountId (cur - amount))

end AccountStore

/-! ### Threads inside `tryDebit` and `credit` -/

inductive Call (V : Type*) where
  | tryDebit (accountId : ℕ) (amount : V)
  | credit (accountId : ℕ) (amount : V)
  deriving DecidableEq

inductive Pc (V : Type*) where
  | idle
  /-- Before `find` and the initial load. -/
  | enter (c : Call V)
  /-- `cur < amount` was false of the value `cur` this thread holds; next the CAS. -/
  | debitCas (accountId : ℕ) (amount cur : V)
  | creditCas (accountId : ℕ) (amount cur : V)
  /-- Returned (`credit` returns nothing: `true`). -/
  | done (ok : Bool)
  deriving DecidableEq

/-- A change of a balance: one CAS that succeeded. -/
inductive Move (V : Type*) where
  | debit (accountId : ℕ) (amount : V)
  | credit (accountId : ℕ) (amount : V)
  deriving DecidableEq

section Step

variable {V : Type*} [LT V] [DecidableLT V] [DecidableEq V] [Sub V] [Add V]

/-- The head of `tryDebit`'s loop, run on the value just read: thread-local. -/
def debitCheck (accountId : ℕ) (amount cur : V) : Pc V :=
  if cur < amount then .done false else .debitCas accountId amount cur

/-- One atomic access of a thread inside a call; `spurious` makes a `compare_exchange_weak` fail
although the value is the expected one. -/
def callStep (s : AccountStore V) (spurious : Bool) :
    Pc V → Option (AccountStore V × Pc V × Option (Move V))
  | .enter (.tryDebit a v) =>
    match s.balances a with
    | none => some (s, .done false, none)
    | some bal => some (s, debitCheck a v bal, none)
  | .debitCas a v cur =>
    match s.balances a with
    | none => none
    | some bal =>
      if bal = cur ∧ spurious = false then
        some (s.setBalance a (cur - v), .done true, some (.debit a v))
      else some (s, debitCheck a v bal, none)
  | .enter (.credit a v) =>
    match s.balances a with
    | none => some (s.setBalance a v, .done true, none)
    | some bal => some (s, .creditCas a v bal, none)
  | .creditCas a v cur =>
    match s.balances a with
    | none => none
    | some bal =>
      if bal = cur ∧ spurious = false then
        some (s.setBalance a (cur + v), .done true, some (.credit a v))
      else some (s, .creditCas a v bal, none)
  | .idle => none
  | .done _ => none

/-- What one access inside a call can do: answer without a change, (re)load the balance, insert an
account, or move money with a CAS that succeeds. -/
theorem callStep_cases {s s' : AccountStore V} {spurious : Bool} {p p' : Pc V}
    {m : Option (Move V)} (h : callStep s spurious p = some (s', p', m)) :
    (∃ a v, p = .enter (.tryDebit a v) ∧ s.balances a = none ∧
      s' = s ∧ p' = .done false ∧ m = none) ∨
    (∃ a v bal, (p = .enter (.tryDebit a v) ∨ ∃ cur, p = .debitCas a v cur) ∧
      s.balances a = some bal ∧ s' = s ∧ p' = debitCheck a v bal ∧ m = none) ∨
    (∃ a v cur, p = .debitCas a v cur ∧ s.balances a = some cur ∧
      s' = s.setBalance a (cur - v) ∧ p' = .done true ∧ m = some (.debit a v)) ∨
    (∃ a v, p = .enter (.credit a v) ∧ s.balances a = none ∧
      s' = s.setBalance a v ∧ p' = .done true ∧ m = none) ∨
    (∃ a v bal, (p = .enter (.credit a v) ∨ ∃ cur, p = .creditCas a v cur) ∧
      s.balances a = some bal ∧ s' = s ∧ p' = .creditCas a v bal ∧ m = none) ∨
    (∃ a v cur, p = .creditCas a v cur ∧ s.balances a = some cur ∧
      s' = s.setBalance a (cur + v) ∧ p' = .done true ∧ m = some (.credit a v)) := by
  cases p with
  | idle => simp [callStep] at h
  | done ok => simp [callStep] at h
  | enter c =>
    cases c with
    | tryDebit a v =>
      cases hb : s.balances a with
      | none =>
        simp only [callStep, hb, Option.some.injEq, Prod.mk.injEq] at h
        exact .inl ⟨a, v, rfl, hb, h.1.symm, h.2.1.symm, h.2.2.symm⟩
      | some bal =>
        simp only [callStep, hb, Option.some.injEq, Prod.mk.injEq] at h
        exact .inr (.inl ⟨a, v, bal, .inl rfl, hb, h.1.symm, h.2.1.symm, h.2.2.symm⟩)
    | credit a v =>
      cases hb : s.balances a with
      | none =>
        simp only [callStep, hb, Option.some.injEq, Prod.mk.injEq] at h
        exact .inr (.inr (.inr (.inl ⟨a, v, rfl, hb, h.1.symm, h.2.1.symm, h.2.2.symm⟩)))
      | some bal =>
        simp only [callStep, hb, Option.some.injEq, Prod.mk.injEq] at h
        exact .inr (.inr (.inr (.inr (.inl
          ⟨a, v, bal, .inl rfl, hb, h.1.symm, h.2.1.symm, h.2.2.symm⟩))))
  | debitCas a v cur =>
    cases hb : s.balances a with
    | none => simp [callStep, hb] at h
    | some bal =>
      simp only [callStep, hb] at h
      split at h <;> simp only [Option.some.injEq, Prod.mk.injEq] at h
      · rename_i hc
        obtain ⟨rfl, -⟩ := hc
        exact .inr (.inr (.inl ⟨a, v, bal, rfl, hb, h.1.symm, h.2.1.symm, h.2.2.symm⟩))
      · exact .inr (.inl ⟨a, v, bal, .inr ⟨cur, rfl⟩, hb, h.1.symm, h.2.1.symm, h.2.2.symm⟩)
  | creditCas a v cur =>
    cases hb : s.balances a with
    | none => simp [callStep, hb] at h
    | some bal =>
      simp only [callStep, hb] at h
      split at h <;> simp only [Option.some.injEq, Prod.mk.injEq] at h
      · rename_i hc
        obtain ⟨rfl, -⟩ := hc
        exact .inr (.inr (.inr (.inr (.inr
          ⟨a, v, bal, rfl, hb, h.1.symm, h.2.1.symm, h.2.2.symm⟩))))
      · exact .inr (.inr (.inr (.inr (.inl
          ⟨a, v, bal, .inr ⟨cur, rfl⟩, hb, h.1.symm, h.2.1.symm, h.2.2.symm⟩))))

end Step

/-! ### The machine of all threads -/

/-- The shared store, every thread's position, and the CASes that succeeded so far (the last is a
record of the run, read by no thread). -/
structure State (ι V : Type*) where
  store : AccountStore V
  pc : ι → Pc V
  moves : List (Move V)

/-- Thread `t` starts a call, or makes its next atomic access. -/
inductive Act (ι V : Type*) where
  | call (t : ι) (c : Call V)
  | access (t : ι) (spurious : Bool)

/-- The machine: every thread, whenever it is in no call, may start any call. -/
def machine (ι : Type*) [DecidableEq ι] {V : Type*} [LT V] [DecidableLT V] [DecidableEq V]
    [Sub V] [Add V] (store : AccountStore V) : Machine (State ι V) (Act ι V) where
  init s := s = ⟨store, fun _ => .idle, []⟩
  step s
    | .call t c =>
      match s.pc t with
      | .idle | .done _ => some { s with pc := Function.update s.pc t (.enter c) }
      | _ => none
    | .access t spurious =>
      (callStep s.store spurious (s.pc t)).map fun r =>
        ⟨r.1, Function.update s.pc t r.2.1, s.moves ++ r.2.2.toList⟩

section Machine

variable {ι V : Type*} [DecidableEq ι] [LT V] [DecidableLT V] [DecidableEq V] [Sub V] [Add V]
  {store : AccountStore V}

theorem step_cases {s s' : State ι V} {act : Act ι V}
    (h : (machine ι store).step s act = some s') :
    (∃ t c, act = .call t c ∧ s' = { s with pc := Function.update s.pc t (.enter c) }) ∨
    (∃ t spurious r, act = .access t spurious ∧ callStep s.store spurious (s.pc t) = some r ∧
      s' = ⟨r.1, Function.update s.pc t r.2.1, s.moves ++ r.2.2.toList⟩) := by
  cases act with
  | call t c =>
    simp only [machine] at h
    split at h
    · exact .inl ⟨t, c, rfl, (Option.some.inj h).symm⟩
    · exact .inl ⟨t, c, rfl, (Option.some.inj h).symm⟩
    · cases h
  | access t spurious =>
    obtain ⟨r, hr, hs⟩ := Option.map_eq_some_iff.mp h
    exact .inr ⟨t, spurious, r, rfl, hr, hs.symm⟩

end Machine

end OrderRisk.Account
