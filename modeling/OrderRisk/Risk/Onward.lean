import OrderRisk.Account.LockFree
import OrderRisk.Risk.Concurrent

/-!
# A call of `validate` can go on

A call that has not decided has a next step that takes it closer to its result (`exists_threadStep`):
at most two accesses to the account when nobody else touches it, and the account that its CAS is aimed
at is there (`Aimed`).
-/

namespace OrderRisk.Risk

open OrderRisk.Lib OrderRisk.Account

/-- What a call of `validate` has left to do if nobody else changes its account. -/
def Pc.cost {V : Type*} [DecidableEq V] (store : AccountStore V) : Pc V → ℕ
  | .idle => 5
  | .checks _ _ => 4
  | .debiting _ _ p => 1 + p.accesses store
  | .returned _ _ => 1

/-- The account that a CAS inside `validate` is aimed at is registered. -/
def Aimed {V : Type*} (store : AccountStore V) : Pc V → Prop
  | .debiting _ _ p => ∀ b, p.casOn = some b → (store.balances b).isSome
  | _ => True

theorem Aimed.mono {V : Type*} {store store' : AccountStore V} {k : Pc V} (h : Aimed store k)
    (hkeep : ∀ b, (store.balances b).isSome → (store'.balances b).isSome) : Aimed store' k := by
  cases k with
  | debiting n order p => exact fun b hb => hkeep b (h b hb)
  | _ => trivial

section

variable {V : Type*} [Zero V] [NatCast V] [Mul V] [Sub V] [Add V] [LT V] [DecidableLT V] [LE V]
  [DecidableLE V] [DecidableEq V]

theorem aimed_threadStep {store store' : AccountStore V} {spurious : Bool} {k k' : Pc V}
    (h : threadStep store spurious k = some (store', k')) :
    (∀ b, (store.balances b).isSome → (store'.balances b).isSome) ∧ Aimed store' k' := by
  cases k with
  | idle => cases h
  | returned n result => cases h
  | checks n order =>
    simp only [threadStep] at h
    split at h <;> cases h
    · exact ⟨fun _ => id, trivial⟩
    · exact ⟨fun _ => id, fun _ hc => by cases hc⟩
  | debiting n order p =>
    obtain ⟨⟨st, p', m⟩, hs, h⟩ := Option.map_eq_some_iff.mp h
    obtain ⟨hkeep, hnew⟩ := isSome_callStep hs
    cases p' with
    | done ok =>
      cases h
      exact ⟨hkeep, trivial⟩
    | _ =>
      cases h
      exact ⟨hkeep, hnew⟩

theorem threadStep_ne_idle {store store' : AccountStore V} {spurious : Bool} {k k' : Pc V}
    (h : threadStep store spurious k = some (store', k')) : k' ≠ .idle := by
  cases k with
  | idle => cases h
  | returned n result => cases h
  | checks n order =>
    simp only [threadStep] at h
    split at h <;> cases h <;> simp
  | debiting n order p =>
    obtain ⟨⟨st, p', m⟩, -, h⟩ := Option.map_eq_some_iff.mp h
    cases p' with
    | done ok =>
      cases h
      simp
    | _ =>
      cases h
      simp

variable {ι : Type*} [DecidableEq ι] {store : AccountStore V} {s : State ι V}

theorem aimed_of_reachable (h : (machine ι store).Reachable s) : ∀ t, Aimed s.store (s.pc t) := by
  refine h.invariant (P := fun s => ∀ t, Aimed s.store (s.pc t)) ?_ ?_
  · rintro s rfl t
    trivial
  · rintro s a s' hi - hs t
    obtain ⟨u, order, -, -, rfl⟩ | ⟨u, sp, store', k, -, hr, rfl⟩ | ⟨u, id, result, -, -, rfl⟩ :=
      step_cases hs
    · dsimp only
      rcases eq_or_ne t u with rfl | hne
      · rw [Function.update_self]
        trivial
      · rw [Function.update_of_ne hne]
        exact hi t
    · obtain ⟨hkeep, hk⟩ := aimed_threadStep hr
      dsimp only
      rcases eq_or_ne t u with rfl | hne
      · rw [Function.update_self]
        exact hk
      · rw [Function.update_of_ne hne]
        exact (hi t).mono hkeep
    · dsimp only
      rcases eq_or_ne t u with rfl | hne
      · rw [Function.update_self]
        trivial
      · rw [Function.update_of_ne hne]
        exact hi t

omit [DecidableEq ι] in
/-- A call of `validate` that has not decided gets closer to its result. -/
theorem exists_threadStep {store : AccountStore V} {k : Pc V} (hk : PcOk k) (ha : Aimed store k)
    (hidle : k ≠ .idle) (hret : ∀ id result, k ≠ .returned id result) :
    ∃ store' k', threadStep store false k = some (store', k') ∧ k'.cost store' < k.cost store := by
  cases k with
  | idle => exact absurd rfl hidle
  | returned id result => exact absurd rfl (hret id result)
  | checks id order =>
    cases hc : order.checks with
    | some result => exact ⟨store, .returned id result, by simp [threadStep, hc], by simp [Pc.cost]⟩
    | none =>
      exact ⟨store, .debiting id order (.enter (.tryDebit order.accountId order.cost)),
        by simp [threadStep, hc], by simp [Pc.cost, Account.Pc.accesses]⟩
  | debiting id order p =>
    obtain ⟨-, hp⟩ := hk
    have hacc : p.accountId = some order.accountId := by
      cases p with
      | enter c =>
        obtain rfl : c = _ := hp
        rfl
      | debitCas a v cur => exact congrArg some hp.1
      | _ => exact hp.elim
    obtain ⟨⟨st, p', m⟩, hs⟩ := Option.isSome_iff_exists.mp (callStep_isSome hacc ha)
    have hle := accesses_callStep hs
    simp only [Bool.false_eq_true, if_false, add_zero] at hle
    cases p' with
    | done ok =>
      refine ⟨st, .returned id (order.debited ok), by simp [threadStep, hs], ?_⟩
      simp only [Pc.cost]
      omega
    | idle => exact ⟨st, _, by simp [threadStep, hs]; rfl, by simp only [Pc.cost]; omega⟩
    | enter c => exact ⟨st, _, by simp [threadStep, hs]; rfl, by simp only [Pc.cost]; omega⟩
    | debitCas a v cur => exact ⟨st, _, by simp [threadStep, hs]; rfl, by simp only [Pc.cost]; omega⟩
    | creditCas a v cur => exact ⟨st, _, by simp [threadStep, hs]; rfl, by simp only [Pc.cost]; omega⟩

end

end OrderRisk.Risk
