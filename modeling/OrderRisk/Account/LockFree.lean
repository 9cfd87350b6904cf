import OrderRisk.Account.Conservation
import OrderRisk.Lib.Progress

/-!
# `tryDebit` and `credit` are lock-free

A CAS of the loops fails because the balance has changed since it was read, which another thread's
CAS on the account has done, or for no reason.  So the accesses of a call are bounded by the moves
made on its account meanwhile (`call_lockFree`), and a thread whose competitors have stopped, wherever
that is, returns after two.
-/

namespace OrderRisk.Account

open OrderRisk.Lib

section

variable {V : Type*}

def Call.accountId : Call V → ℕ
  | .tryDebit a _ => a
  | .credit a _ => a

def Move.accountId : Move V → ℕ
  | .debit a _ => a
  | .credit a _ => a

/-- The account of the call that a thread is in. -/
def Pc.accountId : Pc V → Option ℕ
  | .idle => none
  | .enter c => some c.accountId
  | .debitCas a _ _ => some a
  | .creditCas a _ _ => some a
  | .done _ => none

def Pc.casOn : Pc V → Option ℕ
  | .debitCas a _ _ => some a
  | .creditCas a _ _ => some a
  | _ => none

/-- The accesses that the call has yet to make if nothing happens to its account. -/
def Pc.accesses [DecidableEq V] (s : AccountStore V) : Pc V → ℕ
  | .idle => 0
  | .enter _ => 2
  | .debitCas a _ cur => if s.balances a = some cur then 1 else 2
  | .creditCas a _ cur => if s.balances a = some cur then 1 else 2
  | .done _ => 0

/-- The moves made on an account. -/
def movesOn (a : ℕ) (moves : List (Move V)) : ℕ := moves.countP (·.accountId = a)

end

section

variable {V : Type*} [LT V] [DecidableLT V] [DecidableEq V] [Sub V] [Add V] {s s' : AccountStore V}
  {p p' : Pc V} {m : Option (Move V)} {spurious : Bool}

omit [Sub V] [Add V] in
theorem accesses_debitCheck {a : ℕ} {v bal : V} (h : s.balances a = some bal) :
    (debitCheck a v bal).accesses s ≤ 1 := by
  unfold debitCheck
  split
  · exact Nat.zero_le 1
  · simp [Pc.accesses, h]

/-- A call's own access. -/
theorem accesses_callStep (h : callStep s spurious p = some (s', p', m)) :
    p'.accesses s' + 1 ≤ p.accesses s + if spurious then 1 else 0 := by
  cases p with
  | idle => cases h
  | done ok => cases h
  | enter c =>
    cases c with
    | tryDebit a v =>
      simp only [callStep] at h
      split at h
      · cases h
        exact Nat.le_add_right_of_le (Nat.le_succ 1)
      · next bal hb =>
        cases h
        exact Nat.le_add_right_of_le (Nat.succ_le_succ (accesses_debitCheck hb))
    | credit a v =>
      simp only [callStep] at h
      split at h
      · cases h
        exact Nat.le_add_right_of_le (Nat.le_succ 1)
      · next bal hb =>
        cases h
        simp [Pc.accesses, hb]
  | debitCas a v cur =>
    simp only [callStep] at h
    split at h
    · cases h
    · next bal hb =>
      split at h
      · next hc =>
        cases h
        simp [Pc.accesses, hb, hc]
      · next hc =>
        cases h
        have hr : (debitCheck a v bal).accesses s ≤ 1 := accesses_debitCheck hb
        have hcas : (Pc.debitCas a v cur).accesses s = if some bal = some cur then 1 else 2 := by
          rw [← hb]
          rfl
        rw [hcas]
        by_cases hcur : bal = cur
        · have : spurious = true := by simpa [hcur] using hc
          rw [if_pos (congrArg some hcur), if_pos this]
          omega
        · rw [if_neg fun he => hcur (Option.some.inj he)]
          omega
  | creditCas a v cur =>
    simp only [callStep] at h
    split at h
    · cases h
    · next bal hb =>
      split at h
      · next hc =>
        cases h
        simp [Pc.accesses, hb, hc]
      · next hc =>
        cases h
        by_cases hcur : bal = cur
        · have : spurious = true := by simpa [hcur] using hc
          simp [Pc.accesses, hb, hcur, this]
        · have : ¬ some bal = some cur := fun he => hcur (Option.some.inj he)
          simp [Pc.accesses, hb, this]

end

section

variable {ι V : Type*} [DecidableEq ι] [LT V] [DecidableLT V] [DecidableEq V] [Sub V] [Add V]
  {store : AccountStore V} {s s' : State ι V} {t : ι} {a : ℕ}

def accessOf (t : ι) : Act ι V → Bool
  | .access u _ => decide (u = t)
  | .call _ _ => false

def isSpurious : Act ι V → Bool
  | .access _ spurious => spurious
  | .call _ _ => false

theorem accountId_of_call {c : Call V} (h : (machine ι store).step s (.call t c) = some s') :
    (s.pc t).accountId = none := by
  simp only [machine] at h
  split at h
  · next hpc => rw [hpc]; rfl
  · next hpc => rw [hpc]; rfl
  · cases h

omit [DecidableEq ι] [DecidableEq V] [Sub V] [Add V] [LT V] [DecidableLT V] in
theorem movesOn_append (moves moves' : List (Move V)) :
    movesOn a (moves ++ moves') = movesOn a moves + movesOn a moves' :=
  List.countP_append

omit [DecidableEq ι] [LT V] [DecidableLT V] [Sub V] [Add V] in
theorem accesses_le (p : Pc V) (st : AccountStore V) : p.accesses st ≤ 2 := by
  cases p <;> simp only [Pc.accesses] <;> first | omega | (split <;> omega)

/-- **What others do to a call**: it has one access more to make for a move on its account. -/
theorem accesses_others {p q p' : Pc V} {m : Option (Move V)} {spurious : Bool}
    {st st' : AccountStore V} (hp : p.accountId = some a)
    (h : callStep st spurious q = some (st', p', m)) :
    p.accesses st' ≤ p.accesses st + movesOn a m.toList := by
  -- no access changes the balance without a move, but for the account's first
  have hbal : st'.balances a = st.balances a ∨ st.balances a = none ∨ movesOn a m.toList = 1 := by
    rcases callStep_cases h with ⟨b, v, -, -, rfl, -, -⟩ | ⟨b, v, bal, -, -, rfl, -, -⟩ |
      ⟨b, v, cur, -, -, rfl, -, rfl⟩ | ⟨b, v, -, hb, rfl, -, -⟩ | ⟨b, v, bal, -, -, rfl, -, -⟩ |
      ⟨b, v, cur, -, -, rfl, -, rfl⟩
    · exact .inl rfl
    · exact .inl rfl
    · rcases eq_or_ne a b with rfl | hne
      · exact .inr (.inr (by simp [movesOn, Move.accountId]))
      · exact .inl (AccountStore.setBalance_of_ne _ _ hne)
    · rcases eq_or_ne a b with rfl | hne
      · exact .inr (.inl hb)
      · exact .inl (AccountStore.setBalance_of_ne _ _ hne)
    · exact .inl rfl
    · rcases eq_or_ne a b with rfl | hne
      · exact .inr (.inr (by simp [movesOn, Move.accountId]))
      · exact .inl (AccountStore.setBalance_of_ne _ _ hne)
  cases p with
  | idle => cases hp
  | done ok => cases hp
  | enter c => exact Nat.le_add_right 2 _
  | debitCas b v cur =>
    cases hp
    rcases hbal with he | hn | hm
    · simp [Pc.accesses, he]
    · refine (accesses_le _ st').trans (Nat.le_add_right_of_le ?_)
      simp [Pc.accesses, hn]
    · rw [hm]
      refine (accesses_le _ st').trans (Nat.succ_le_succ ?_)
      simp only [Pc.accesses]
      split <;> omega
  | creditCas b v cur =>
    cases hp
    rcases hbal with he | hn | hm
    · simp [Pc.accesses, he]
    · refine (accesses_le _ st').trans (Nat.le_add_right_of_le ?_)
      simp [Pc.accesses, hn]
    · rw [hm]
      refine (accesses_le _ st').trans (Nat.succ_le_succ ?_)
      simp only [Pc.accesses]
      split <;> omega

/-- A call on the account `a` is paid for by its accesses and the moves on `a`. -/
theorem call_paid (store : AccountStore V) (t : ι) (a : ℕ) : (machine ι store).Paid (fun _ => True)
    (fun _ => True) (fun s => (s.pc t).accountId = some a) (accessOf t) isSpurious
    (fun s => (s.pc t).accesses s.store) (fun s => movesOn a s.moves) 1 where
  keep _ _ _ := trivial
  back _ _ := trivial
  mono := by
    intro s act s' hs
    obtain ⟨u, c, -, rfl⟩ | ⟨u, sp, r, -, -, rfl⟩ := step_cases hs
    · exact le_rfl
    · exact (Nat.le_add_right _ _).trans (movesOn_append _ _).ge
  mine := by
    intro s act s' _ _ _ hs ha
    obtain ⟨u, c, rfl, rfl⟩ | ⟨u, sp, ⟨st, p, m⟩, rfl, hr, rfl⟩ := step_cases hs
    · cases ha
    · obtain rfl : u = t := by simpa [accessOf] using ha
      dsimp only
      rw [Function.update_self]
      exact accesses_callStep hr
  others := by
    intro s act s' hb hs ha
    obtain ⟨u, c, rfl, rfl⟩ | ⟨u, sp, ⟨st, p, m⟩, rfl, hr, rfl⟩ := step_cases hs
    · have hut : t ≠ u := by
        rintro rfl
        rw [accountId_of_call hs] at hb
        cases hb
      dsimp only
      rw [Function.update_of_ne hut]
    · have hut : t ≠ u := by
        rintro rfl
        simp [accessOf] at ha
      have := accesses_others hb hr
      dsimp only
      rw [Function.update_of_ne hut, movesOn_append]
      omega

omit [DecidableEq ι] [LT V] [DecidableLT V] [DecidableEq V] [Sub V] [Add V] in
theorem isSome_setBalance {st : AccountStore V} {b : ℕ} (v : V) (h : (st.balances a).isSome) :
    ((st.setBalance b v).balances a).isSome := by
  rcases eq_or_ne a b with rfl | hne
  · rw [AccountStore.setBalance_self]
    rfl
  · rwa [AccountStore.setBalance_of_ne _ _ hne]

/-- An access keeps the accounts, and goes on to a CAS on a registered one. -/
theorem isSome_callStep {st st' : AccountStore V} {p p' : Pc V} {m : Option (Move V)}
    {spurious : Bool} (h : callStep st spurious p = some (st', p', m)) :
    (∀ b, (st.balances b).isSome → (st'.balances b).isSome) ∧
      ∀ b, p'.casOn = some b → (st'.balances b).isSome := by
  rcases callStep_cases h with ⟨c, v, -, -, rfl, rfl, -⟩ | ⟨c, v, bal, -, hb, rfl, rfl, -⟩ |
    ⟨c, v, cur, -, -, rfl, rfl, -⟩ | ⟨c, v, -, -, rfl, rfl, -⟩ | ⟨c, v, bal, -, hb, rfl, rfl, -⟩ |
    ⟨c, v, cur, -, -, rfl, rfl, -⟩
  · exact ⟨fun _ => id, fun _ => nofun⟩
  · refine ⟨fun _ => id, fun b hc => ?_⟩
    unfold debitCheck at hc
    split at hc
    · cases hc
    · cases hc
      rw [hb]
      rfl
  · exact ⟨fun _ => isSome_setBalance _, fun _ => nofun⟩
  · exact ⟨fun _ => isSome_setBalance _, fun _ => nofun⟩
  · refine ⟨fun _ => id, fun b hc => ?_⟩
    cases hc
    rw [hb]
    rfl
  · exact ⟨fun _ => isSome_setBalance _, fun _ => nofun⟩

theorem registered_of_reachable (h : (machine ι store).Reachable s) :
    ∀ t b, (s.pc t).casOn = some b → (s.store.balances b).isSome := by
  refine h.invariant (P := fun s => ∀ t b, (s.pc t).casOn = some b → (s.store.balances b).isSome)
    ?_ ?_
  · rintro s rfl t b hc
    cases hc
  · rintro s act s' hi - hs t b hc
    obtain ⟨u, c, -, rfl⟩ | ⟨u, sp, ⟨st, p, m⟩, -, hr, rfl⟩ := step_cases hs
    · dsimp only at hc ⊢
      rcases eq_or_ne t u with rfl | hut
      · rw [Function.update_self] at hc
        cases hc
      · rw [Function.update_of_ne hut] at hc
        exact hi t b hc
    · obtain ⟨hkeep, hnew⟩ := isSome_callStep hr
      dsimp only at hc ⊢
      rcases eq_or_ne t u with rfl | hut
      · rw [Function.update_self] at hc
        exact hnew b hc
      · rw [Function.update_of_ne hut] at hc
        exact hkeep b (hi t b hc)

omit [DecidableEq ι] in
theorem callStep_isSome {st : AccountStore V} {p : Pc V} (hp : p.accountId = some a)
    (hc : ∀ b, p.casOn = some b → (st.balances b).isSome) : (callStep st false p).isSome := by
  cases p with
  | idle => cases hp
  | done ok => cases hp
  | enter c => cases c <;> simp only [callStep] <;> split <;> rfl
  | debitCas b v cur =>
    obtain ⟨bal, hb⟩ := Option.isSome_iff_exists.mp (hc b rfl)
    simp only [callStep, hb]
    split <;> rfl
  | creditCas b v cur =>
    obtain ⟨bal, hb⟩ := Option.isSome_iff_exists.mp (hc b rfl)
    simp only [callStep, hb]
    split <;> rfl

theorem accountId_callStep {st st' : AccountStore V} {p p' : Pc V} {m : Option (Move V)}
    {spurious : Bool} (h : callStep st spurious p = some (st', p', m)) :
    p'.accountId = p.accountId ∨ ∃ ok, p' = .done ok := by
  rcases callStep_cases h with ⟨c, v, -, -, -, rfl, -⟩ | ⟨c, v, bal, hp, -, -, rfl, -⟩ |
    ⟨c, v, cur, -, -, -, rfl, -⟩ | ⟨c, v, -, -, -, rfl, -⟩ | ⟨c, v, bal, hp, -, -, rfl, -⟩ |
    ⟨c, v, cur, -, -, -, rfl, -⟩
  · exact .inr ⟨_, rfl⟩
  · unfold debitCheck
    split
    · exact .inr ⟨_, rfl⟩
    · rcases hp with rfl | ⟨cur, rfl⟩ <;> exact .inl rfl
  · exact .inr ⟨_, rfl⟩
  · exact .inr ⟨_, rfl⟩
  · rcases hp with rfl | ⟨cur, rfl⟩ <;> exact .inl rfl
  · exact .inr ⟨_, rfl⟩

/-- **`tryDebit` and `credit` are lock-free.**  In every run, while a thread is in a call on an
account, its accesses are at most two, and one for each CAS on that account that succeeds meanwhile
and each of its own that fails for no reason; and from every reachable state the thread alone comes to
the end of its call with two accesses, wherever the others have stopped. -/
theorem call_lockFree (h : (machine ι store).Reachable s) (ht : (s.pc t).accountId = some a) :
    (∀ as s', (machine ι store).Meets (fun s _ => (s.pc t).accountId = some a) s as →
      (machine ι store).exec s as = some s' →
      as.countP (accessOf t) + movesOn a s.moves ≤
        2 + movesOn a s'.moves + as.countP fun act => accessOf t act && isSpurious act) ∧
    ∃ k ≤ 2, ∃ s', (machine ι store).exec s (List.replicate k (.access t false)) = some s' ∧
      ∃ ok, s'.pc t = .done ok := by
  refine ⟨fun as s' hm he => ?_, ?_⟩
  · have hle := (call_paid store t a).own_steps_le trivial hm he trivial
    have := accesses_le (s.pc t) s.store
    omega
  · -- the thread alone, until it is done
    have hstep : ∀ m, ((machine ι store).Reachable m ∧
        ((m.pc t).accountId = some a ∨ ∃ ok, m.pc t = .done ok)) → (m.pc t).accountId = some a →
        ∃ m', (machine ι store).step m (.access t false) = some m' ∧
          ((machine ι store).Reachable m' ∧
            ((m'.pc t).accountId = some a ∨ ∃ ok, m'.pc t = .done ok)) ∧
          (m'.pc t).accesses m'.store + 1 ≤ (m.pc t).accesses m.store := by
      rintro m ⟨hm, -⟩ hb
      obtain ⟨⟨st, p, mv⟩, hr⟩ := Option.isSome_iff_exists.mp
        (callStep_isSome hb (registered_of_reachable hm t))
      have hs : (machine ι store).step m (.access t false) =
          some ⟨st, Function.update m.pc t p, m.moves ++ mv.toList⟩ := by
        simp [machine, hr]
      refine ⟨_, hs, ⟨hm.step trivial hs, ?_⟩, ?_⟩
      · dsimp only
        rw [Function.update_self]
        exact (accountId_callStep hr).imp_left fun he => he.trans hb
      · dsimp only
        rw [Function.update_self]
        exact accesses_callStep hr
    obtain ⟨k, hk, s', he, ⟨-, hq⟩, hend⟩ := Machine.alone (fun m : State ι V => (m.pc t).accountId = some a)
      (fun m => (m.pc t).accesses m.store) hstep 2 (accesses_le _ _) ⟨h, .inl ht⟩
    exact ⟨k, hk.trans (accesses_le _ _), s', he, hq.resolve_left hend⟩

end

/-- The second of the two debits, from its first access on. -/
theorem call_lockFree_racingPair :
    ∃ s s', (machine (Fin 2) racedStore).exec ⟨racedStore, fun _ => .idle, []⟩
        (racingPair.take 2) = some s ∧
      (machine (Fin 2) racedStore).exec s (racingPair.drop 2) = some s' ∧
      3 + movesOn 7 s.moves ≤ 2 + movesOn 7 s'.moves + 1 ∧
      ∃ k ≤ 2, ∃ s', (machine (Fin 2) racedStore).exec s
        (List.replicate k (.access 1 false)) = some s' ∧ ∃ ok, s'.pc 1 = .done ok := by
  have h : ((machine (Fin 2) racedStore).exec ⟨racedStore, fun _ => .idle, []⟩
      (racingPair.take 2)).map (fun s => ((s.pc 1).accountId,
        decide ((machine (Fin 2) racedStore).Meets (fun s _ => (s.pc 1).accountId = some 7) s
          (racingPair.drop 2)), ((machine (Fin 2) racedStore).exec s (racingPair.drop 2)).isSome)) =
        some (some 7, true, true) := by decide +kernel
  obtain ⟨s, hs, h⟩ := Option.map_eq_some_iff.mp h
  simp only [Prod.mk.injEq, decide_eq_true_eq] at h
  obtain ⟨ht, hm, hs'⟩ := h
  obtain ⟨s', hs'⟩ := Option.isSome_iff_exists.mp hs'
  obtain ⟨hle, halone⟩ := call_lockFree (.of_exec rfl hs) ht
  have hown : (racingPair.drop 2).countP (accessOf (1 : Fin 2)) = 3 := by decide +kernel
  have hspurious : ((racingPair.drop 2).countP fun act => accessOf (1 : Fin 2) act && isSpurious act) = 1 := by
    decide +kernel
  exact ⟨s, s', hs, hs', hspurious ▸ hown ▸ hle _ s' hm hs', halone⟩

end OrderRisk.Account
