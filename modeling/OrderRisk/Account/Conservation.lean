import OrderRisk.Account.Store
import OrderRisk.Lib.Leads
import Mathlib.Tactic.Ring

/-!
# No double spend

Over exact rationals, in every state of every interleaving, an account's balance is its initial
balance plus its successful credits minus its successful debits, and it is never negative.

`Conserves` is the invariant.  A thread's stale `cur` matters only through what its check has
established about it, `amount ≤ cur`; when its CAS succeeds the balance is that value again, no
matter how it got there, so a recurring value does no harm.
-/

namespace OrderRisk.Account

open OrderRisk.Lib

/-! ### Totals of a run -/

/-- What a successful CAS took out of account `a`. -/
def Move.debitOf (a : ℕ) : Move ℚ → ℚ
  | .debit a' v => if a' = a then v else 0
  | .credit _ _ => 0

/-- What a successful CAS put into account `a`. -/
def Move.creditOf (a : ℕ) : Move ℚ → ℚ
  | .debit _ _ => 0
  | .credit a' v => if a' = a then v else 0

def debits (a : ℕ) (moves : List (Move ℚ)) : ℚ := (moves.map (Move.debitOf a)).sum

def credits (a : ℕ) (moves : List (Move ℚ)) : ℚ := (moves.map (Move.creditOf a)).sum

@[simp] theorem debits_append (a : ℕ) (l l' : List (Move ℚ)) :
    debits a (l ++ l') = debits a l + debits a l' := by
  simp [debits]

@[simp] theorem credits_append (a : ℕ) (l l' : List (Move ℚ)) :
    credits a (l ++ l') = credits a l + credits a l' := by
  simp [credits]

@[simp] theorem debits_nil (a : ℕ) : debits a [] = 0 := rfl
@[simp] theorem credits_nil (a : ℕ) : credits a [] = 0 := rfl

@[simp] theorem debits_debit (a b : ℕ) (v : ℚ) :
    debits a [.debit b v] = if b = a then v else 0 := by
  simp [debits, Move.debitOf]

@[simp] theorem debits_credit (a b : ℕ) (v : ℚ) : debits a [.credit b v] = 0 := by
  simp [debits, Move.debitOf]

@[simp] theorem credits_credit (a b : ℕ) (v : ℚ) :
    credits a [.credit b v] = if b = a then v else 0 := by
  simp [credits, Move.creditOf]

@[simp] theorem credits_debit (a b : ℕ) (v : ℚ) : credits a [.debit b v] = 0 := by
  simp [credits, Move.creditOf]

/-! ### The calls considered -/

/-- Amounts are not negative, and `credit` is called on registered accounts only (a new account
is set-up-phase only, as `AccountStore` says). -/
def Call.Ok (store : AccountStore ℚ) : Call ℚ → Prop
  | .tryDebit _ v => 0 ≤ v
  | .credit a v => 0 ≤ v ∧ (store.balances a).isSome

instance (store : AccountStore ℚ) : DecidablePred (Call.Ok store) := fun c => by
  cases c <;> unfold Call.Ok <;> infer_instance

/-- Every call that is made is one of these. -/
def CallsOk {ι : Type*} (store : AccountStore ℚ) : Act ι ℚ → Prop
  | .call _ c => c.Ok store
  | .access _ _ => True

instance {ι : Type*} (store : AccountStore ℚ) : DecidablePred (CallsOk (ι := ι) store) := fun a => by
  cases a <;> unfold CallsOk <;> infer_instance

/-! ### The invariant -/

/-- What a thread's position says about the numbers it holds. -/
def PcOk (store : AccountStore ℚ) : Pc ℚ → Prop
  | .enter c => c.Ok store
  | .debitCas _ v cur => 0 ≤ v ∧ v ≤ cur
  | .creditCas _ v _ => 0 ≤ v
  | .idle => True
  | .done _ => True

theorem pcOk_debitCheck {store : AccountStore ℚ} {a : ℕ} {v cur : ℚ} (h : 0 ≤ v) :
    PcOk store (debitCheck a v cur) := by
  unfold debitCheck
  split
  · trivial
  · exact ⟨h, not_lt.mp ‹_›⟩

/-- **Conservation and solvency**, together with what every thread has checked. -/
structure Conserves {ι : Type*} (store : AccountStore ℚ) (s : State ι ℚ) : Prop where
  balance : ∀ a q, store.balances a = some q →
    s.store.balances a = some (q + credits a s.moves - debits a s.moves)
  nonneg : ∀ a q, s.store.balances a = some q → 0 ≤ q
  registered : ∀ a, store.balances a = none → s.store.balances a = none
  pc : ∀ t, PcOk store (s.pc t)

section

variable {ι : Type*} [DecidableEq ι] {store : AccountStore ℚ} {s s' : State ι ℚ}

theorem pcOk_update {t : ι} {p : Pc ℚ} (h : ∀ u, PcOk store (s.pc u)) (hp : PcOk store p) (u : ι) :
    PcOk store (Function.update s.pc t p u) := by
  by_cases hu : u = t
  · subst hu; simpa using hp
  · simpa [Function.update_of_ne hu] using h u

/-- A CAS that moved account `a` from `cur` by `d`, recorded as `m`. -/
theorem Conserves.move (h : Conserves store s) {a : ℕ} {cur d : ℚ} {m : Move ℚ} {t : ι}
    (hcur : s.store.balances a = some cur) (hd : 0 ≤ cur + d)
    (hm : ∀ b, credits b [m] - debits b [m] = if a = b then d else 0) :
    Conserves store ⟨s.store.setBalance a (cur + d), Function.update s.pc t (.done true),
      s.moves ++ [m]⟩ := by
  refine ⟨?_, ?_, ?_, pcOk_update (p := .done true) h.pc trivial⟩
  · intro b q hq
    have hb := h.balance b q hq
    have hmb := hm b
    by_cases hab : b = a
    · subst hab
      have hqc : q + credits b s.moves - debits b s.moves = cur :=
        Option.some.inj (hb.symm.trans hcur)
      simp only [if_true] at hmb
      simp only [AccountStore.setBalance_self, credits_append, debits_append, Option.some.injEq]
      linarith
    · have hne : ¬ a = b := fun e => hab e.symm
      simp only [hne, if_false] at hmb
      rw [AccountStore.setBalance_of_ne _ _ hab, hb]
      simp only [credits_append, debits_append, Option.some.injEq]
      linarith
  · intro b q hq
    by_cases hab : b = a
    · subst hab
      rw [AccountStore.setBalance_self] at hq
      exact Option.some.inj hq ▸ hd
    · rw [AccountStore.setBalance_of_ne _ _ hab] at hq
      exact h.nonneg b q hq
  · intro b hb
    have hnone := h.registered b hb
    have hab : b ≠ a := by
      rintro rfl
      rw [hnone] at hcur
      cases hcur
    rw [AccountStore.setBalance_of_ne _ _ hab, hnone]

omit [DecidableEq ι] in
theorem Conserves.init (hpos : ∀ a q, store.balances a = some q → 0 ≤ q) :
    Conserves store (⟨store, fun _ : ι => .idle, []⟩ : State ι ℚ) where
  balance a q hq := by simpa using hq
  nonneg := hpos
  registered _ h := h
  pc _ := trivial

/-- One atomic step keeps the invariant. -/
theorem Conserves.step {act : Act ι ℚ} (h : Conserves store s) (hok : CallsOk store act)
    (hs : (machine ι store).step s act = some s') : Conserves store s' := by
  obtain ⟨t, c, rfl, rfl⟩ | ⟨t, spurious, ⟨st, p, m⟩, rfl, hr, rfl⟩ := step_cases hs
  · exact ⟨h.balance, h.nonneg, h.registered, pcOk_update (p := .enter c) h.pc hok⟩
  · have hpc := h.pc t
    obtain ⟨a, v, hp, -, rfl, rfl, rfl⟩ | ⟨a, v, bal, hp, hb, rfl, rfl, rfl⟩ |
      ⟨a, v, cur, hp, hb, rfl, rfl, rfl⟩ | ⟨a, v, hp, hb, rfl, rfl, rfl⟩ |
      ⟨a, v, bal, hp, hb, rfl, rfl, rfl⟩ | ⟨a, v, cur, hp, hb, rfl, rfl, rfl⟩ := callStep_cases hr
    · -- the account is not registered
      simpa using ⟨h.balance, h.nonneg, h.registered, pcOk_update (p := .done false) h.pc trivial⟩
    · -- a load, or a CAS that failed: the store is unchanged and the check is repeated
      have hv : 0 ≤ v := by
        rcases hp with hp | ⟨cur, hp⟩ <;> rw [hp] at hpc
        · exact hpc
        · exact hpc.1
      simpa using ⟨h.balance, h.nonneg, h.registered,
        pcOk_update h.pc (pcOk_debitCheck hv)⟩
    · -- the debit's CAS
      rw [hp] at hpc
      have := h.move (t := t) (d := -v) (m := .debit a v) hb (by linarith [hpc.2]) (by
        intro b
        by_cases hab : a = b <;> simp [hab])
      simpa [sub_eq_add_neg] using this
    · -- a credit to an unregistered account is not one of the calls
      rw [hp] at hpc
      obtain ⟨q, hq⟩ := Option.isSome_iff_exists.mp hpc.2
      rw [h.balance a q hq] at hb
      cases hb
    · -- the credit's load, or its failed CAS
      have hv : 0 ≤ v := by
        rcases hp with hp | ⟨cur, hp⟩ <;> rw [hp] at hpc
        · exact hpc.1
        · exact hpc
      simpa using ⟨h.balance, h.nonneg, h.registered, pcOk_update (p := .creditCas a v bal) h.pc hv⟩
    · -- the credit's CAS
      rw [hp] at hpc
      have hv : (0 : ℚ) ≤ v := hpc
      have := h.move (t := t) (d := v) (m := .credit a v) hb
        (by linarith [h.nonneg a cur hb]) (by
          intro b
          by_cases hab : a = b <;> simp [hab])
      simpa using this

theorem conserves_of_within (hpos : ∀ a q, store.balances a = some q → 0 ≤ q)
    (h : (machine ι store).Within (fun _ => CallsOk store) s) : Conserves store s :=
  h.invariant (fun _ hi => hi ▸ .init hpos) fun _ _ _ hi hok hs => hi.step hok hs

/-! ### What a call returns -/

/-- What the call under way moves if its CAS succeeds. -/
def Pc.move {V : Type*} : Pc V → Option (Move V)
  | .enter (.tryDebit a v) => some (.debit a v)
  | .enter (.credit a v) => some (.credit a v)
  | .debitCas a v _ => some (.debit a v)
  | .creditCas a v _ => some (.credit a v)
  | _ => none

/-- An access records the move of its call and returns true, or does neither. -/
theorem recorded_of_access {t : ι} {spurious : Bool}
    (hpos : ∀ a q, store.balances a = some q → 0 ≤ q)
    (h : (machine ι store).Within (fun _ => CallsOk store) s)
    (hs : (machine ι store).step s (.access t spurious) = some s') :
    ∃ m, (s.pc t).move = some m ∧
      ((s'.pc t = .done true ∧ s'.moves = s.moves ++ [m]) ∨
        ((s'.pc t = .done false ∨ (s'.pc t).move = some m) ∧ s'.moves = s.moves)) := by
  obtain ⟨⟨st, p, m⟩, hr, rfl⟩ := Option.map_eq_some_iff.mp hs
  obtain ⟨a, v, hp, -, rfl, rfl, rfl⟩ | ⟨a, v, bal, hp, -, rfl, rfl, rfl⟩ |
    ⟨a, v, cur, hp, -, rfl, rfl, rfl⟩ | ⟨a, v, hp, hb, rfl, rfl, rfl⟩ |
    ⟨a, v, bal, hp, -, rfl, rfl, rfl⟩ | ⟨a, v, cur, hp, -, rfl, rfl, rfl⟩ := callStep_cases hr
  · exact ⟨.debit a v, by rw [hp]; rfl, .inr ⟨.inl (by simp), by simp⟩⟩
  · refine ⟨.debit a v, by rcases hp with hp | ⟨cur, hp⟩ <;> rw [hp] <;> rfl, .inr ⟨?_, by simp⟩⟩
    simp only [Function.update_self, debitCheck]
    split
    · exact .inl rfl
    · exact .inr rfl
  · exact ⟨.debit a v, by rw [hp]; rfl, .inl ⟨by simp, by simp⟩⟩
  · -- a credit to an unregistered account is not one of the calls
    have hc := conserves_of_within hpos h
    have hpc := hc.pc t
    rw [hp] at hpc
    obtain ⟨q, hq⟩ := Option.isSome_iff_exists.mp hpc.2
    rw [hc.balance a q hq] at hb
    cases hb
  · exact ⟨.credit a v, by rcases hp with hp | ⟨cur, hp⟩ <;> rw [hp] <;> rfl,
      .inr ⟨.inr (by simp [Pc.move]), by simp⟩⟩
  · exact ⟨.credit a v, by rw [hp]; rfl, .inl ⟨by simp, by simp⟩⟩

theorem callStep_done {st : AccountStore ℚ} {ok spurious : Bool} :
    callStep st spurious (.done ok) = none := rfl

/-- **A call that returned true is in the record**, behind what was there when it started. -/
theorem recorded_of_done (hpos : ∀ a q, store.balances a = some q → 0 ≤ q)
    (h : (machine ι store).Within (fun _ => CallsOk store) s) {t : ι} {m : Move ℚ}
    (hm : (s.pc t).move = some m)
    (hl : (machine ι store).Leads (fun _ a => CallsOk store a ∧ ∀ c, a ≠ .call t c) s s')
    (hd : s'.pc t = .done true) : ∃ l l', s'.moves = s.moves ++ l ++ m :: l' := by
  -- the call is under way, has returned false, or has returned true and is in the record
  have hkeep := hl.keep (P := fun u => (machine ι store).Within (fun _ => CallsOk store) u ∧
      s.moves <+: u.moves ∧ ((u.pc t).move = some m ∨ u.pc t = .done false ∨
        u.pc t = .done true ∧ ∃ l l', u.moves = s.moves ++ l ++ m :: l')) ?_
    ⟨h, List.prefix_rfl, .inl hm⟩
  · obtain ⟨-, -, hk | hk | ⟨-, hk⟩⟩ := hkeep
    · rw [hd] at hk
      cases hk
    · rw [hd] at hk
      cases hk
    · exact hk
  rintro u a u' ⟨hw, ⟨l, hl⟩, hu⟩ ⟨hok, ht⟩ hs
  refine ⟨hw.step hok hs, ?_⟩
  obtain ⟨v, c, rfl, rfl⟩ | ⟨v, spurious, r, rfl, hr, rfl⟩ := step_cases hs
  · have hne : t ≠ v := by
      rintro rfl
      exact ht c rfl
    simp only [Function.update_of_ne hne]
    exact ⟨⟨l, hl⟩, hu⟩
  · refine ⟨⟨l ++ r.2.2.toList, by simp [← hl]⟩, ?_⟩
    rcases eq_or_ne t v with rfl | hne
    · rcases hu with hu | hu | ⟨hu, -⟩
      · obtain ⟨m', hm', hrec⟩ := recorded_of_access hpos hw hs
        obtain rfl : m = m' := Option.some.inj (hu.symm.trans hm')
        rcases hrec with ⟨hdone, hmoves⟩ | ⟨hf | hmv, -⟩
        · exact .inr (.inr ⟨hdone, l, [], by simpa [← hl] using hmoves⟩)
        · exact .inr (.inl hf)
        · exact .inl hmv
      · rw [hu, callStep_done] at hr
        cases hr
      · rw [hu, callStep_done] at hr
        cases hr
    · simp only [Function.update_of_ne hne]
      refine hu.imp_right (Or.imp_right (And.imp_right ?_))
      rintro ⟨l₁, l₂, he⟩
      exact ⟨l₁, l₂ ++ r.2.2.toList, by simp [he]⟩

/-- **No double spend, and exact conservation, under any schedule.** -/
theorem no_double_spend (hpos : ∀ a q, store.balances a = some q → 0 ≤ q)
    (h : (machine ι store).Within (fun _ => CallsOk store) s) {a : ℕ} {q : ℚ}
    (hq : store.balances a = some q) :
    ∃ bal, s.store.balances a = some bal ∧
      bal = q + credits a s.moves - debits a s.moves ∧ 0 ≤ bal ∧
      debits a s.moves ≤ q + credits a s.moves := by
  have hc := conserves_of_within hpos h
  have hb := hc.balance a q hq
  have h0 := hc.nonneg a _ hb
  exact ⟨_, hb, rfl, h0, by linarith⟩

end

/-! ### Two threads on one account -/

def racedStore : AccountStore ℚ := AccountStore.empty.setBalance 7 10000

/-- Its two orders: debits of 6000 that both pass their check before either CAS; one CAS also
fails spuriously. -/
def racingPair : List (Act (Fin 2) ℚ) :=
  [.call 0 (.tryDebit 7 6000), .call 1 (.tryDebit 7 6000), .access 0 false, .access 1 false,
    .access 1 true, .access 0 false, .access 1 false]

theorem racedStore_nonneg (a : ℕ) (q : ℚ) (h : racedStore.balances a = some q) : 0 ≤ q := by
  by_cases ha : a = 7
  · subst ha
    cases h
    norm_num
  · rw [racedStore, AccountStore.setBalance_of_ne _ _ ha] at h
    cases h

theorem no_double_spend_racingPair :
    ∃ s, (machine (Fin 2) racedStore).exec ⟨racedStore, fun _ => .idle, []⟩ racingPair = some s ∧
      ∃ bal, s.store.balances 7 = some bal ∧ bal = 10000 + credits 7 s.moves - debits 7 s.moves ∧
        0 ≤ bal ∧ debits 7 s.moves ≤ 10000 + credits 7 s.moves := by
  obtain ⟨s, hs⟩ : ∃ s, (machine (Fin 2) racedStore).exec
      ⟨racedStore, fun _ => .idle, []⟩ racingPair = some s :=
    Option.isSome_iff_exists.mp (by decide +kernel)
  have hok : ∀ a ∈ racingPair, CallsOk racedStore a := by decide +kernel
  exact ⟨s, hs, no_double_spend racedStore_nonneg
    (.exec (.init rfl) (Machine.meets_of_forall fun a ha _ => hok a ha) hs) rfl⟩

end OrderRisk.Account
