import OrderRisk.Fix.Parser
import OrderRisk.Risk.Validator

/-!
# From the wire to the store

Raw messages, one after the other, through `parseOrder` and `validate`.  `stod` accepts `nan`, and
a NaN price passes `price <= 0.0` and `cur < amount` alike, so such an order is accepted and leaves
a NaN balance behind (`nanOrder_not_solvent`).  It is the only way: the store stays solvent exactly
as long as no message is a BUY of that kind on a registered account (`solvent_iff`).
-/

namespace OrderRisk.Risk

open OrderRisk.Lib OrderRisk.Fix OrderRisk.Account

/-- The server between two messages: `nextOrderId_`, the store, and what was decided so far. -/
structure Server where
  nextOrderId : ℕ
  store : AccountStore Double
  log : List (Order Double × ValidationResult)

/-- One message through `parseOrder` and, if it yields an order, through `validate`. -/
def serve (erange : ℚ → Bool) (srv : Server) (raw : Bytes) : Server :=
  match parseOrder erange srv.nextOrderId raw with
  | .error _ => srv
  | .ok (.error _, next) => { srv with nextOrderId := next }
  | .ok (.ok o, next) =>
    ⟨next, (validate srv.store o).2, srv.log ++ [(o, (validate srv.store o).1)]⟩

/-- The messages in order, from a fresh start on `store`. -/
def serveAll (erange : ℚ → Bool) (store : AccountStore Double) (msgs : List Bytes) : Server :=
  msgs.foldl (serve erange) ⟨1, store, []⟩

/-- Was it an accepted BUY on account `a`? -/
def boughtOn (a : ℕ) (p : Order Double × ValidationResult) : Bool :=
  p.2.accepted && decide (p.1.side = .buy) && decide (p.1.accountId = a)

/-- The total cost of the accepted BUY orders of account `a`. -/
def spent (a : ℕ) (log : List (Order Double × ValidationResult)) : Double :=
  ((log.filter (boughtOn a)).map fun p => p.1.cost).foldl (· + ·) 0

/-- Every registered balance is a finite number that is not negative, and what the accepted BUY
orders of the account cost is what is gone from it. -/
def Solvent (store : AccountStore Double) (srv : Server) : Prop :=
  ∀ a q₀, store.balances a = some (.fin q₀) →
    ∃ q, srv.store.balances a = some (.fin q) ∧ 0 ≤ q ∧ spent a srv.log = .fin (q₀ - q)

/-- The initial store: every registered balance finite and not negative. -/
def Funded (store : AccountStore Double) : Prop :=
  ∀ a b, store.balances a = some b → ∃ q, b = .fin q ∧ 0 ≤ q

/-! ### The texts `strtod` reads as NaN -/

/-- Behind white space and a sign stands `nan`, in either case. -/
def IsNan (t : Bytes) : Prop := startsWith (txt "nan") (readSign (t.dropWhile isSpace)).2 = true

theorem readUnsigned_eq_nan {s : Bytes} : readUnsigned s = some .nan ↔
    startsWith (txt "nan") s = true := by
  unfold readUnsigned
  by_cases hi : startsWith (txt "inf") s = true
  · have hn : ¬ startsWith (txt "nan") s = true := by
      unfold startsWith at *
      rw [List.isPrefixOf_iff_prefix] at *
      intro h
      have h3 := List.prefix_of_prefix_length_le hi h (by decide)
      revert h3
      decide
    simp [hi, hn]
  · by_cases hn : startsWith (txt "nan") s = true
    · simp [hi, hn]
    · simp only [hi, hn, if_false, iff_false, Bool.false_eq_true]
      split <;> simp

theorem scanDouble_eq_nan {t : Bytes} : scanDouble t = some .nan ↔ IsNan t := by
  show (readUnsigned (readSign (t.dropWhile isSpace)).2).map
    (fun d => if (readSign (t.dropWhile isSpace)).1 then -d else d) = some .nan ↔ IsNan t
  unfold IsNan
  rw [← readUnsigned_eq_nan]
  generalize readUnsigned (readSign (t.dropWhile isSpace)).2 = d
  rcases d with _ | d
  · simp
  · have hneg : ∀ e : Double, -e = .nan ↔ e = .nan := by
      intro e
      cases e <;> simp [Neg.neg, Double.neg]
    by_cases hs : (readSign (t.dropWhile isSpace)).1 = true <;> simp [hs, hneg]

theorem stod_nan {erange : ℚ → Bool} {t : Bytes} : stod erange t = .ok .nan ↔ IsNan t := by
  rw [← scanDouble_eq_nan]
  unfold stod
  generalize scanDouble t = d
  rcases d with _ | _ | _ | q
  · simp
  · simp
  · simp
  · by_cases hq : erange q = true <;> simp [hq]

/-! ### What a message must be to yield an order -/

theorem readOrder_ok {erange : ℚ → Bool} {fields : Fields} {i : ℕ} {o : Order Double}
    (h : readOrder erange fields i = .ok o) :
    stoull ((fields 1).getD []) = .ok o.accountId ∧ o.symbol = (fields 55).getD [] ∧
      o.side = (if (fields 54).getD [] = txt "1" then .buy else .sell) ∧
      (∃ n, stoul ((fields 38).getD []) = .ok n ∧ o.qty = n % 2 ^ 32) ∧
      stod erange ((fields 44).getD []) = .ok o.price := by
  unfold readOrder at h
  cases h1 : stoull ((fields 1).getD []) with
  | error e => simp [h1, bind, Except.bind] at h
  | ok a =>
    cases h2 : stoul ((fields 38).getD []) with
    | error e => simp [h1, h2, bind, Except.bind] at h
    | ok n =>
      cases h3 : stod erange ((fields 44).getD []) with
      | error e => simp [h1, h2, h3, bind, Except.bind] at h
      | ok p =>
        simp only [h1, h2, h3, bind, Except.bind, pure, Except.pure, Except.ok.injEq] at h
        subst h
        exact ⟨rfl, rfl, rfl, ⟨n, rfl, rfl⟩, rfl⟩

theorem parseOrder_ok {erange : ℚ → Bool} {i j : ℕ} {raw : Bytes} {o : Order Double}
    (h : parseOrder erange i raw = .ok (.ok o, j)) :
    verifyChecksum raw = .ok true ∧ splitFields raw 35 = some (txt "D") ∧
      (splitFields raw 55).isSome ∧ (splitFields raw 54).isSome ∧ (splitFields raw 38).isSome ∧
      (splitFields raw 44).isSome ∧ (splitFields raw 1).isSome ∧
      readOrder erange (splitFields raw) i = .ok o := by
  unfold parseOrder at h
  cases hc : verifyChecksum raw with
  | error e => simp [hc, bind, Except.bind] at h
  | ok b =>
    simp only [hc, bind, Except.bind] at h
    split at h
    · cases h
    · rename_i hb
      split at h
      · cases h
      · rename_i h35
        split at h
        · cases h
        · rename_i hf
          simp only [not_or, ← Option.isSome_iff_ne_none] at hf
          obtain ⟨h55, h54, h38, h44, h1⟩ := hf
          split at h
          · cases h
          · rename_i o' ho
            cases h
            exact ⟨by simpa using hb, not_not.mp h35, h55, h54, h38, h44, h1, ho⟩

/-- **The messages that break a store**: with a right checksum, a NewOrderSingle to buy a positive
quantity of a listed symbol on a registered account, at a price that reads as NaN. -/
structure Poisons (store : AccountStore Double) (raw : Bytes) : Prop where
  checksum : verifyChecksum raw = .ok true
  msgType : splitFields raw 35 = some (txt "D")
  symbol : ∃ t ∈ allowedSymbols, splitFields raw 55 = some t
  side : splitFields raw 54 = some (txt "1")
  qty : ∃ t n, splitFields raw 38 = some t ∧ stoul t = .ok n ∧ n % 2 ^ 32 ≠ 0
  account : ∃ t a, splitFields raw 1 = some t ∧ stoull t = .ok a ∧ (store.balances a).isSome
  price : ∃ t, splitFields raw 44 = some t ∧ IsNan t

theorem Poisons.parseOrder {store : AccountStore Double} {raw : Bytes} (h : Poisons store raw)
    (erange : ℚ → Bool) (i : ℕ) :
    ∃ o j, parseOrder erange i raw = .ok (.ok o, j) ∧ o.price = .nan ∧ o.side = .buy ∧
      o.qty ≠ 0 ∧ o.symbol ∈ allowedSymbols ∧ (store.balances o.accountId).isSome := by
  obtain ⟨sym, hsym, h55⟩ := h.symbol
  obtain ⟨t38, n, h38, hn, hn0⟩ := h.qty
  obtain ⟨t1, a, h1, ha, hreg⟩ := h.account
  obtain ⟨t44, h44, hnan⟩ := h.price
  have hp := (@stod_nan erange _).mpr hnan
  have h54 := h.side
  have hro : readOrder erange (splitFields raw) i =
      .ok ⟨i, a, sym, .buy, n % 2 ^ 32, .nan⟩ := by
    simp [readOrder, h1, h38, h44, h54, h55, ha, hn, hp, bind, Except.bind, pure, Except.pure]
  refine ⟨⟨i, a, sym, .buy, n % 2 ^ 32, .nan⟩, sizeT (i + 1), ?_, rfl, rfl, hn0, hsym, hreg⟩
  unfold Fix.parseOrder
  simp [h.checksum, h.msgType, h55, h54, h38, h44, h1, hro, bind, Except.bind, pure, Except.pure]

theorem poisons_of_parseOrder {store : AccountStore Double} {raw : Bytes} {erange : ℚ → Bool}
    {i j : ℕ} {o : Order Double} (h : parseOrder erange i raw = .ok (.ok o, j))
    (hp : o.price = .nan) (hs : o.side = .buy) (hq : o.qty ≠ 0) (hsym : o.symbol ∈ allowedSymbols)
    (hreg : (store.balances o.accountId).isSome) : Poisons store raw := by
  obtain ⟨hc, h35, h55, h54, h38, h44, h1, ho⟩ := parseOrder_ok h
  obtain ⟨ha, hsy, hsi, ⟨n, hn, hqn⟩, hpr⟩ := readOrder_ok ho
  obtain ⟨t55, h55⟩ := Option.isSome_iff_exists.mp h55
  obtain ⟨t54, h54⟩ := Option.isSome_iff_exists.mp h54
  obtain ⟨t38, h38⟩ := Option.isSome_iff_exists.mp h38
  obtain ⟨t44, h44⟩ := Option.isSome_iff_exists.mp h44
  obtain ⟨t1, h1⟩ := Option.isSome_iff_exists.mp h1
  rw [h1] at ha
  rw [h55, Option.getD_some] at hsy
  rw [h54, hs] at hsi
  rw [h38] at hn
  rw [h44, hp] at hpr
  have hside : t54 = txt "1" := by
    by_contra hne
    simp [hne] at hsi
  exact ⟨hc, h35, ⟨t55, hsy ▸ hsym, h55⟩, hside ▸ h54, ⟨t38, n, h38, hn, hqn ▸ hq⟩,
    ⟨t1, _, h1, ha, hreg⟩, ⟨t44, h44, stod_nan.mp hpr⟩⟩

/-! ### Steps -/

theorem spent_append (a : ℕ) (log : List (Order Double × ValidationResult))
    (p : Order Double × ValidationResult) :
    spent a (log ++ [p]) = if boughtOn a p then spent a log + p.1.cost else spent a log := by
  unfold spent
  rw [List.filter_append]
  by_cases h : boughtOn a p = true <;> simp [h]

variable {erange : ℚ → Bool} {store : AccountStore Double} {srv : Server} {raw : Bytes}

theorem solvent_start (h : Funded store) (n : ℕ) : Solvent store ⟨n, store, []⟩ := by
  intro a q hq
  obtain ⟨q', hq', h0⟩ := h a _ hq
  cases hq'
  exact ⟨q, hq, h0, by simp [spent, Double.zero_eq]⟩

theorem Solvent.skip (h : Solvent store srv) {o : Order Double} {r : ValidationResult} {n : ℕ}
    (hr : r.accepted = true → o.side = .sell) :
    Solvent store ⟨n, srv.store, srv.log ++ [(o, r)]⟩ := by
  intro a q₀ hq₀
  obtain ⟨q, hq, h0, hsp⟩ := h a q₀ hq₀
  refine ⟨q, hq, h0, ?_⟩
  have : boughtOn a (o, r) = false := by
    unfold boughtOn
    cases hacc : r.accepted with
    | false => simp
    | true => simp [hr hacc]
  rw [spent_append, this]
  exact hsp

/-- A covered BUY at a finite price. -/
theorem Solvent.buy (h : Solvent store srv) {o : Order Double} {n : ℕ} {cur c : ℚ}
    (hs : o.side = .buy) (hb : srv.store.balances o.accountId = some (.fin cur))
    (hc : o.cost = .fin c) (hle : c ≤ cur) :
    Solvent store ⟨n, srv.store.setBalance o.accountId (.fin (cur - c)),
      srv.log ++ [(o, o.accept)]⟩ := by
  intro a q₀ hq₀
  obtain ⟨q, hq, h0, hsp⟩ := h a q₀ hq₀
  by_cases ha : o.accountId = a
  · subst ha
    rw [hb] at hq
    cases hq
    refine ⟨cur - c, by simp, by linarith, ?_⟩
    have : boughtOn o.accountId (o, o.accept) = true := by simp [boughtOn, Order.accept, hs]
    rw [spent_append, this, if_pos rfl, hsp]
    show Double.fin (q₀ - cur) + o.cost = _
    rw [hc, Double.fin_add_fin]
    congr 1
    linarith
  · have : boughtOn a (o, o.accept) = false := by simp [boughtOn, ha]
    refine ⟨q, ?_, h0, ?_⟩
    · rw [AccountStore.setBalance_of_ne _ _ fun e => ha e.symm]
      exact hq
    · rw [spent_append, this]
      exact hsp

theorem Solvent.fin_of_registered (hf : Funded store) (h : Solvent store srv)
    (hreg : ∀ a, (srv.store.balances a).isSome → (store.balances a).isSome) {a : ℕ} {b : Double}
    (hb : srv.store.balances a = some b) : ∃ q, b = .fin q ∧ 0 ≤ q := by
  obtain ⟨b₀, hb₀⟩ := Option.isSome_iff_exists.mp (hreg a (by simp [hb]))
  obtain ⟨q₀, rfl, -⟩ := hf a b₀ hb₀
  obtain ⟨q, hq, h0, -⟩ := h a q₀ hb₀
  rw [hb] at hq
  cases hq
  exact ⟨q, rfl, h0⟩

/-- The accounts of the current store are those of the initial one. -/
def SameAccounts (store : AccountStore Double) (srv : Server) : Prop :=
  ∀ a, (srv.store.balances a).isSome ↔ (store.balances a).isSome

theorem SameAccounts.serve (h : SameAccounts store srv) : SameAccounts store (serve erange srv raw) := by
  intro a
  unfold Risk.serve
  split
  · exact h a
  · exact h a
  · rename_i o next _
    rcases validate_cases srv.store o with ⟨h1, -⟩ | ⟨cur, -, -, hb, -, h1⟩
    · rw [h1]; exact h a
    · rw [h1]
      by_cases ha : a = o.accountId
      · subst ha
        rw [← h]
        simp [hb]
      · rw [AccountStore.setBalance_of_ne _ _ ha]
        exact h a

/-- An order that passes the checks and is covered by a finite balance has a finite cost, unless its
price is NaN: minus infinity is not positive, and plus infinity is not covered. -/
theorem Order.cost_of_covered {o : Order Double} {cur : ℚ} (hq : o.qty ≠ 0) (hpos : ¬ o.price ≤ 0)
    (hprice : o.price ≠ .nan) (hc : ¬ Double.fin cur < o.cost) :
    ∃ c, o.cost = .fin c ∧ 0 ≤ c ∧ c ≤ cur := by
  unfold Order.cost at hc ⊢
  cases hp : o.price with
  | nan => exact absurd hp hprice
  | inf negative =>
    cases negative with
    | true =>
      rw [hp] at hpos
      exact absurd (Double.negInf_le_fin 0) hpos
    | false =>
      rw [hp, Double.natCast_mul_posInf hq] at hc
      exact absurd (Double.fin_lt_posInf cur) hc
  | fin p =>
    rw [hp, Double.zero_eq, Double.fin_le_fin, not_le] at hpos
    rw [hp, Double.natCast_eq, Double.fin_mul_fin, Double.fin_lt_fin, not_lt] at hc
    exact ⟨o.qty * p, by rw [Double.natCast_eq, Double.fin_mul_fin], by positivity, hc⟩

/-- The step lemma: a message that is no poison keeps the store solvent. -/
theorem Solvent.serve (hf : Funded store) (hacc : SameAccounts store srv) (h : Solvent store srv)
    (hp : ¬ Poisons store raw) : Solvent store (serve erange srv raw) := by
  unfold Risk.serve
  split
  · exact h
  · exact h
  · rename_i o next ho
    rcases validate_cases srv.store o with ⟨h1, h2⟩ | ⟨cur, ⟨hq, hpr, hsym⟩, hs, hb, hc, h1⟩
    · rw [h1]
      exact h.skip h2
    · rw [h1]
      have hreg : (store.balances o.accountId).isSome := (hacc _).mp (by simp [hb])
      obtain ⟨cur, rfl, h0⟩ := h.fin_of_registered hf (fun a => (hacc a).mp) hb
      have hprice : o.price ≠ .nan := fun hn => hp (poisons_of_parseOrder ho hn hs hq hsym hreg)
      obtain ⟨c, hcost, -, hle⟩ := Order.cost_of_covered hq hpr hprice hc
      rw [hcost, Double.fin_sub_fin]
      exact h.buy hs hb hcost hle

/-- A poisonous message is accepted, and its account's balance is no number any more. -/
theorem Solvent.serve_poison (hacc : SameAccounts store srv) (hf : Funded store)
    (hp : Poisons store raw) : ¬ Solvent store (Risk.serve erange srv raw) := by
  obtain ⟨o, j, ho, hprice, hs, hq, hsym, hreg⟩ := hp.parseOrder erange srv.nextOrderId
  obtain ⟨cur, hcur⟩ := Option.isSome_iff_exists.mp ((hacc _).mpr hreg)
  obtain ⟨b₀, hb₀⟩ := Option.isSome_iff_exists.mp hreg
  obtain ⟨q₀, rfl, -⟩ := hf _ _ hb₀
  have hcost : o.cost = .nan := by rw [Order.cost, hprice, Double.mul_nan]
  have hv := validate_buy (⟨hq, by simp [hprice], hsym⟩ : o.Admissible) hs hcur
    (by simp [hcost])
  intro h
  obtain ⟨q, hq', -⟩ := h _ q₀ hb₀
  simp only [Risk.serve, ho, hv, hcost, Double.sub_nan, AccountStore.setBalance_self] at hq'
  cases hq'

/-! ### Whole sequences -/

theorem serveAll_append (msgs : List Bytes) :
    serveAll erange store (msgs ++ [raw]) = serve erange (serveAll erange store msgs) raw := by
  simp [serveAll]

theorem sameAccounts_serveAll (msgs : List Bytes) :
    SameAccounts store (serveAll erange store msgs) := by
  induction msgs using List.reverseRecOn with
  | nil => exact fun a => Iff.rfl
  | append_singleton msgs raw ih =>
    rw [serveAll_append]
    exact ih.serve

/-- **Solvency from the wire to the store**: after every message the store is solvent, if and only
if no message is a poisonous one. -/
theorem solvent_iff (erange : ℚ → Bool) (hf : Funded store) (msgs : List Bytes) :
    (∀ l, l <+: msgs → Solvent store (serveAll erange store l)) ↔
      ∀ raw ∈ msgs, ¬ Poisons store raw := by
  constructor
  · intro h raw hraw hp
    obtain ⟨l, r, rfl⟩ := List.append_of_mem hraw
    have h1 := h (l ++ [raw]) ⟨r, by simp⟩
    rw [serveAll_append] at h1
    exact Solvent.serve_poison (sameAccounts_serveAll l) hf hp h1
  · intro h l
    induction l using List.reverseRecOn with
    | nil => exact fun _ => solvent_start hf 1
    | append_singleton l raw ih =>
      intro hl
      rw [serveAll_append]
      have hmem : raw ∈ msgs := hl.subset (by simp)
      exact (ih ((List.prefix_append l [raw]).trans hl)).serve hf (sameAccounts_serveAll l)
        (h raw hmem)

/-! ### The message that does it -/

def seededStore : AccountStore Double := AccountStore.empty.setBalance 1 (.fin 100000)

theorem funded_seededStore : Funded seededStore := by
  intro a b hb
  by_cases ha : a = 1
  · subst ha
    cases hb
    exact ⟨100000, rfl, by norm_num⟩
  · rw [seededStore, AccountStore.setBalance_of_ne _ _ ha] at hb
    cases hb

/-- The body of a NewOrderSingle to buy one BTC-USD on account 1, with the price as given. -/
def buyBody (price : String) : Bytes :=
  txt "35=D" ++ [SOH] ++ txt "55=BTC-USD" ++ [SOH] ++ txt "54=1" ++ [SOH] ++ txt "38=1" ++ [SOH] ++
    txt "44=" ++ txt price ++ [SOH] ++ txt "1=1" ++ [SOH]

/-- An order at the price `nan`. -/
def nanOrder : Bytes := buildMessage (buyBody "nan")

theorem nanOrder_not_solvent :
    ¬ ∀ l, l <+: [nanOrder] → Solvent seededStore (serveAll (fun _ => false) seededStore l) := by
  intro h
  obtain ⟨q, hq, -⟩ := h [nanOrder] List.prefix_rfl 1 100000 (by decide +kernel)
  have : (serveAll (fun _ => false) seededStore [nanOrder]).store.balances 1 = some .nan := by
    decide +kernel
  rw [this] at hq
  cases hq

theorem solvent_iff_seeded :
    (∀ l, l <+: [buildMessage (buyBody "6000.0")] →
        Solvent seededStore (serveAll (fun _ => false) seededStore l)) ↔
      ∀ raw ∈ [buildMessage (buyBody "6000.0")], ¬ Poisons seededStore raw :=
  solvent_iff (fun _ => false) funded_seededStore _

end OrderRisk.Risk
