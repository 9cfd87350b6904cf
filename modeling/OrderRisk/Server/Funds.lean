import OrderRisk.Server.Answers

/-!
# The balances behind the server

Whatever the interleaving, the balances are those of the decided orders taken one after the other,
and those came in messages; so `Solvent.serve` carries over from one message at a time to all
connections at once.  A balance leaves the range between zero and what it was (`InFunds`) exactly if
an order that spoils it was decided.
-/

namespace OrderRisk.Server.Engine

open OrderRisk.Lib OrderRisk.Fix OrderRisk.Account OrderRisk.Risk

/-- `nextOrderId_`, the balances, and what was decided, in the order of the decisions. -/
def State.ledger (s : State) : Risk.Server :=
  ⟨s.nextOrderId, s.risk.store, s.risk.log.map Entry.label⟩

/-- **The orders that break a store**: to buy a positive quantity of a listed symbol on a
registered account, at a price that is NaN. -/
structure Spoils (store : AccountStore Double) (o : Order Double) : Prop where
  price : o.price = .nan
  side : o.side = .buy
  qty : o.qty ≠ 0
  symbol : o.symbol ∈ allowedSymbols
  account : (store.balances o.accountId).isSome

/-- Every balance of `store` is a finite number in `st`, between zero and what it was. -/
def InFunds (store st : AccountStore Double) : Prop :=
  ∀ a q₀, store.balances a = some (.fin q₀) →
    ∃ q, st.balances a = some (.fin q) ∧ 0 ≤ q ∧ q ≤ q₀

variable {erange : ℚ → Bool} {store st st' : AccountStore Double} {o : Order Double}
  {l : List (Entry (Order Double) ValidationResult)} {e : Entry (Order Double) ValidationResult}

/-! ### Orders and their messages -/

theorem spoils_iff {m : Bytes} {n next : ℕ} (h : parseOrder erange n m = .ok (.ok o, next)) :
    Spoils store o ↔ Poisons store m := by
  constructor
  · rintro ⟨hp, hs, hq, hsym, hreg⟩
    exact poisons_of_parseOrder h hp hs hq hsym hreg
  · intro hp
    obtain ⟨o', next', h', hprice, hs, hq, hsym, hreg⟩ := hp.parseOrder erange n
    rw [h] at h'
    cases h'
    exact ⟨hprice, hs, hq, hsym, hreg⟩

/-- Every decided order has a message it was parsed from. -/
def Parsed (erange : ℚ → Bool) (l : List (Entry (Order Double) ValidationResult)) : Prop :=
  ∀ e ∈ l, ∃ m next, parseOrder erange e.arg.orderId m = .ok (.ok e.arg, next)

theorem legal_snoc (h : Legal validateOp store (l ++ [e]) st) :
    ∃ st₁, Legal validateOp store l st₁ ∧ validate st₁ e.arg = (e.result, st) := by
  obtain ⟨st₁, h1, h2⟩ := h.split
  cases h2 with
  | cons he hs =>
    cases hs
    exact ⟨st₁, h1, Option.some.inj he⟩

/-- The decisions as messages served one after the other. -/
theorem solvent_of_legal {n : ℕ} (hf : Funded store) (h : Legal validateOp store l st)
    (hp : Parsed erange l) : SameAccounts store ⟨n, st, l.map Entry.label⟩ ∧
      ((∀ e ∈ l, ¬ Spoils store e.arg) → Solvent store ⟨n, st, l.map Entry.label⟩) := by
  induction l using List.reverseRecOn generalizing st n with
  | nil =>
    cases h
    exact ⟨fun _ => Iff.rfl, fun _ => solvent_start hf n⟩
  | append_singleton l e ih =>
    obtain ⟨st₁, h1, hv⟩ := legal_snoc h
    obtain ⟨m, next, hm⟩ := hp e (by simp)
    obtain ⟨hacc, hsol⟩ := ih (n := e.arg.orderId) h1 fun e he => hp e (List.mem_append_left _ he)
    have hserve : serve erange ⟨e.arg.orderId, st₁, l.map Entry.label⟩ m =
        ⟨next, st, (l ++ [e]).map Entry.label⟩ := by
      simp [serve, hm, hv, Entry.label]
    have hacc' : SameAccounts store (serve erange ⟨e.arg.orderId, st₁, l.map Entry.label⟩ m) :=
      hacc.serve
    rw [hserve] at hacc'
    refine ⟨hacc', fun hns => ?_⟩
    have hpm : ¬ Poisons store m := fun hpm => hns e (by simp) ((spoils_iff hm).mpr hpm)
    have hsol' : Solvent store (serve erange ⟨e.arg.orderId, st₁, l.map Entry.label⟩ m) :=
      (hsol fun e he => hns e (List.mem_append_left _ he)).serve hf hacc hpm
    rw [hserve] at hsol'
    exact hsol'

/-- An order that spoils nothing takes a part of its balance, or nothing. -/
theorem InFunds.validate (h : InFunds store st)
    (hreg : ∀ a, (st.balances a).isSome → (store.balances a).isSome) (hns : ¬ Spoils store o) :
    InFunds store (Risk.validate st o).2 := by
  rcases validate_cases st o with ⟨hsame, -⟩ | ⟨cur, ⟨hq, hpos, hsym⟩, hside, hcur, hcov, hval⟩
  · rw [hsame]
    exact h
  · have hprice : o.price ≠ .nan := fun hn =>
      hns ⟨hn, hside, hq, hsym, hreg o.accountId (by simp [hcur])⟩
    intro a q₀ hq₀
    rw [hval]
    by_cases ha : a = o.accountId
    · subst ha
      obtain ⟨b, hb, h0, hle⟩ := h _ q₀ hq₀
      obtain rfl : cur = .fin b := by simpa [hcur] using hb
      obtain ⟨c, hcost, hc0, hcb⟩ := Order.cost_of_covered hq hpos hprice hcov
      refine ⟨b - c, ?_, by linarith, by linarith⟩
      rw [AccountStore.setBalance_self, hcost, Double.fin_sub_fin]
    · rw [AccountStore.setBalance_of_ne _ _ ha]
      exact h a q₀ hq₀

theorem inFunds_of_legal (hf : Funded store) (h : Legal validateOp store l st)
    (hp : Parsed erange l) (hns : ∀ e ∈ l, ¬ Spoils store e.arg) : InFunds store st := by
  induction l using List.reverseRecOn generalizing st with
  | nil =>
    cases h
    intro a q₀ hq₀
    obtain ⟨q, hq, h0⟩ := hf a _ hq₀
    cases hq
    exact ⟨q₀, hq₀, h0, le_rfl⟩
  | append_singleton l e ih =>
    obtain ⟨st₁, h1, hv⟩ := legal_snoc h
    have hpl : Parsed erange l := fun e he => hp e (List.mem_append_left _ he)
    have hacc := (solvent_of_legal (n := 0) hf h1 hpl).1
    have hi := (ih h1 hpl fun e he => hns e (List.mem_append_left _ he)).validate
      (fun a => (hacc a).mp) (hns e (by simp))
    rwa [hv] at hi

/-! ### A NaN stays -/

theorem validate_nan {a : ℕ} (h : st.balances a = some .nan) (o : Order Double) :
    (validate st o).2.balances a = some .nan := by
  rcases validate_cases st o with ⟨hsame, -⟩ | ⟨cur, -, -, hcur, -, hval⟩
  · rw [hsame]
    exact h
  · rw [hval]
    by_cases ha : a = o.accountId
    · subst ha
      rw [h] at hcur
      cases hcur
      rw [AccountStore.setBalance_self, Double.nan_sub]
    · rw [AccountStore.setBalance_of_ne _ _ ha]
      exact h

theorem nan_of_spoils {n : ℕ} (hf : Funded store) (h : Legal validateOp store l st)
    (hp : Parsed erange l) (he : e ∈ l) (hs : Spoils store e.arg) :
    st.balances e.arg.accountId = some .nan := by
  induction l using List.reverseRecOn generalizing st with
  | nil => cases he
  | append_singleton l f ih =>
    obtain ⟨st₁, h1, hv⟩ := legal_snoc h
    have hpl : Parsed erange l := fun e he => hp e (List.mem_append_left _ he)
    rw [List.mem_append, List.mem_singleton] at he
    have hst : st = (validate st₁ f.arg).2 := by rw [hv]
    rcases he with he | rfl
    · rw [hst]
      exact validate_nan (ih h1 hpl he) f.arg
    · obtain ⟨cur, hcur⟩ := Option.isSome_iff_exists.mp
        (((solvent_of_legal (n := n) hf h1 hpl).1 e.arg.accountId).mpr hs.account)
      have hcost : e.arg.cost = .nan := by rw [Order.cost, hs.price, Double.mul_nan]
      rw [hst, validate_buy ⟨hs.qty, by simp [hs.price], hs.symbol⟩ hs.side hcur (by simp [hcost]),
        AccountStore.setBalance_self, hcost, Double.sub_nan]

/-! ### The server -/

variable {s : State}

theorem parsed_of_reachable (h : (engine erange store).Reachable s) : Parsed erange s.risk.log := by
  intro e he
  obtain ⟨-, -, m, next, -, hp, -⟩ := (linked_of_reachable h).source e.id e.arg
    ((Risk.inv_of_reachable (risk_reachable h)).logged.recorded.called e he)
  exact ⟨m, next, hp⟩

theorem not_spoils_of_fin (hf : Funded store) (h : Legal validateOp store l st)
    (hp : Parsed erange l)
    (hfin : ∀ a q₀, store.balances a = some (.fin q₀) → ∃ q, st.balances a = some (.fin q)) :
    ∀ e ∈ l, ¬ Spoils store e.arg := by
  intro e he hspoils
  obtain ⟨b, hb⟩ := Option.isSome_iff_exists.mp hspoils.account
  obtain ⟨q₀, rfl, -⟩ := hf _ _ hb
  obtain ⟨q, hq⟩ := hfin _ q₀ hb
  rw [nan_of_spoils (n := 0) hf h hp he hspoils] at hq
  cases hq

/-- **Solvency of the server.**  In every reachable state, with any number of connections and jobs:
the registered accounts are those it started with; every balance is a finite number between zero and
what it was exactly if no spoiling order was decided, and then what is gone from it is what the
accepted BUY orders of its account cost; and none was decided if no poisonous message was
dispatched. -/
theorem server_solvent_iff (hf : Funded store) (h : (engine erange store).Reachable s) :
    SameAccounts store s.ledger ∧
      (InFunds store s.risk.store ↔ ∀ e ∈ s.risk.log, ¬ Spoils store e.arg) ∧
      (Solvent store s.ledger ↔ ∀ e ∈ s.risk.log, ¬ Spoils store e.arg) ∧
      ((∀ k, ∀ m ∈ (s.tapes k).dispatched, ¬ Poisons store m) →
        ∀ e ∈ s.risk.log, ¬ Spoils store e.arg) := by
  have hrisk := Risk.inv_of_reachable (risk_reachable h)
  have hp := parsed_of_reachable h
  obtain ⟨hacc, hsol⟩ := solvent_of_legal (n := s.nextOrderId) hf hrisk.legal hp
  have hns := not_spoils_of_fin hf hrisk.legal hp
  refine ⟨hacc, ⟨fun hi => hns fun a q₀ ha => ?_, inFunds_of_legal hf hrisk.legal hp⟩,
    ⟨fun hs => hns fun a q₀ ha => ?_, hsol⟩, fun hm e he hspoils => ?_⟩
  · obtain ⟨q, hq, -⟩ := hi a q₀ ha
    exact ⟨q, hq⟩
  · obtain ⟨q, hq, -⟩ := hs a q₀ ha
    exact ⟨q, hq⟩
  · obtain ⟨k, i, m, next, hd, hparse, -⟩ := (linked_of_reachable h).source e.id e.arg
      (hrisk.logged.recorded.called e he)
    exact hm k m (List.mem_of_getElem? hd) ((spoils_iff hparse).mp hspoils)

theorem funded_raceStore : Funded raceStore := by
  intro a b hb
  by_cases ha : a = 1
  · subst ha
    cases hb
    exact ⟨10000, rfl, by norm_num⟩
  · rw [raceStore, AccountStore.setBalance_of_ne _ _ ha] at hb
    cases hb

theorem server_solvent_iff_race :
    ∃ s, (engine (fun _ => false) raceStore).exec (fresh raceStore) race = some s ∧
      ((s.tapes 0).answers, (s.tapes 1).answers) = raceAnswers ∧
      SameAccounts raceStore s.ledger ∧
      (InFunds raceStore s.risk.store ↔ ∀ e ∈ s.risk.log, ¬ Spoils raceStore e.arg) := by
  obtain ⟨s, hs, ha, -⟩ := exists_race
  obtain ⟨h1, h2, -⟩ := server_solvent_iff funded_raceStore
    (Machine.Reachable.of_exec (M := engine (fun _ => false) raceStore) rfl hs)
  exact ⟨s, hs, ha, h1, h2⟩

end OrderRisk.Server.Engine
