import OrderRisk.Fix.Fields
import OrderRisk.Fix.Stream
import OrderRisk.Risk.Wire
import Mathlib.Algebra.Order.Floor.Ring
import Mathlib.Data.Rat.Floor

/-!
# The client's order, and what the server reads

`buildNewOrderSingle` of `test_client.cpp`, and the round trip through `parseOrder`.  Prices are
printed as `std::to_string(double)` prints them, with six decimals; a price that is a multiple of
`10 ^ -6` survives.
-/

namespace OrderRisk.Fix

open OrderRisk.Lib OrderRisk.Risk

/-! ### Printing a price -/

/-- The nearest integer, and of two the even one. -/
def roundHalfEven (q : ℚ) : ℤ :=
  if q - ⌊q⌋ < 1 / 2 ∨ q - ⌊q⌋ = 1 / 2 ∧ ⌊q⌋ % 2 = 0 then ⌊q⌋ else ⌊q⌋ + 1

def sixDigits (m : ℕ) : Bytes :=
  [m / 100000, m / 10000, m / 1000, m / 100, m / 10, m].map fun d => UInt8.ofNat (48 + d % 10)

/-- `%f` of a number that is not negative. -/
def fixed6 (q : ℚ) : Bytes :=
  let n := (roundHalfEven (q * 10 ^ 6)).toNat
  decimal (n / 10 ^ 6) ++ byte '.' :: sixDigits (n % 10 ^ 6)

/-- `std::to_string(double)`. -/
def toStringDouble : Double → Bytes
  | .nan => txt "nan"
  | .inf negative => if negative then txt "-inf" else txt "inf"
  | .fin q => if q < 0 then byte '-' :: fixed6 (-q) else fixed6 q

/-- `buildNewOrderSingle`. -/
def buildNewOrderSingle (account : ℕ) (symbol : Bytes) (side : UInt8) (qty : ℕ) (price : Double)
    (clOrdId : Bytes) : Bytes :=
  buildMessage (txt "35=D" ++ [SOH] ++ txt "55=" ++ symbol ++ [SOH] ++ txt "54=" ++ [side] ++
    [SOH] ++ txt "38=" ++ decimal qty ++ [SOH] ++ txt "44=" ++ toStringDouble price ++ [SOH] ++
    txt "1=" ++ decimal account ++ [SOH] ++ txt "11=" ++ clOrdId ++ [SOH])

/-! ### Reading it back -/

theorem roundHalfEven_natCast (n : ℕ) : roundHalfEven n = n := by
  simp [roundHalfEven]

theorem toStringDouble_multiple (n : ℕ) : toStringDouble (.fin (n / 10 ^ 6)) =
    decimal (n / 10 ^ 6) ++ byte '.' :: sixDigits (n % 10 ^ 6) := by
  have h0 : ¬ (n / 10 ^ 6 : ℚ) < 0 := not_lt.mpr (by positivity)
  have h1 : (n / 10 ^ 6 : ℚ) * 10 ^ 6 = n := by field_simp
  simp only [toStringDouble, if_neg h0, fixed6, h1, roundHalfEven_natCast, Int.toNat_natCast]

theorem isDigit_of_mem_sixDigits {m : ℕ} {c : UInt8} (h : c ∈ sixDigits m) : isDigit c = true := by
  obtain ⟨d, -, rfl⟩ := List.mem_map.mp h
  exact isDigit_ofNat (Nat.mod_lt _ (by norm_num))

theorem readDigits_sixDigits {m : ℕ} (h : m < 10 ^ 6) : readDigits 10 digitVal (sixDigits m) = m := by
  simp only [sixDigits, List.map_cons, List.map_nil, readDigits, List.foldl_cons, List.foldl_nil,
    digitVal_ofNat (Nat.mod_lt _ (by norm_num : 0 < 10))]
  omega

theorem readDigits_append (a b : Bytes) : readDigits 10 digitVal (a ++ b) =
    readDigits 10 digitVal a * 10 ^ b.length + readDigits 10 digitVal b := by
  induction b using List.reverseRecOn with
  | nil => simp [readDigits]
  | append_singleton b c ih =>
    have hc : ∀ s : Bytes, readDigits 10 digitVal (s ++ [c]) =
        10 * readDigits 10 digitVal s + digitVal c := fun s => by simp [readDigits]
    rw [← List.append_assoc, hc, hc, ih, List.length_append, List.length_singleton, pow_succ]
    ring

theorem startsWith_letter {word s : Bytes} {c : UInt8} (hw : word.head? = some c)
    (hs : ∀ x, s.head? = some x → toLower x ≠ c) : startsWith word s = false := by
  obtain ⟨w, rfl⟩ : ∃ w, word = c :: w := by
    cases word with
    | nil => cases hw
    | cons x w =>
      cases hw
      exact ⟨w, rfl⟩
  cases s with
  | nil => rfl
  | cons x s =>
    simp only [startsWith, List.map_cons, List.isPrefixOf_cons_cons, Bool.and_eq_false_iff,
      beq_eq_false_iff_ne]
    exact .inl (hs x rfl).symm

theorem toLower_of_isDigit {c : UInt8} (h : isDigit c = true) : toLower c = c := by
  simp only [isDigit, Bool.and_eq_true, decide_eq_true_eq, UInt8.le_iff_toNat_le] at h
  have h2 : c.toNat ≤ 57 := h.2
  unfold toLower
  rw [if_neg]
  simp only [Bool.and_eq_true, decide_eq_true_eq, UInt8.le_iff_toNat_le, not_and]
  intro h3
  have : (65 : ℕ) ≤ c.toNat := h3
  omega

/-- `stod` reads six decimals. -/
theorem scanDouble_decimals (a : ℕ) {m : ℕ} (hm : m < 10 ^ 6) :
    scanDouble (decimal a ++ byte '.' :: sixDigits m) =
      some (.fin (((a * 10 ^ 6 + m : ℕ) : ℚ) / 10 ^ 6)) := by
  have hda : ∀ c ∈ decimal a, isDigit c = true := fun c => isDigit_of_mem_decimal
  obtain ⟨c, cs, hcs⟩ := List.exists_cons_of_ne_nil (decimal_ne_nil a)
  have hc : isDigit c = true := hda c (by simp [hcs])
  obtain ⟨h1, h2, h3, -, -⟩ := isDigit_cases hc
  have hlow := toLower_of_isDigit hc
  have hletter : ∀ x : UInt8, isDigit x = false → c ≠ x := by
    rintro x hx rfl
    rw [hc] at hx
    cases hx
  have hdrop : (decimal a ++ byte '.' :: sixDigits m).dropWhile isSpace =
      decimal a ++ byte '.' :: sixDigits m := by
    rw [hcs, List.cons_append, List.dropWhile_cons, h1]
    rfl
  have hsign : readSign (decimal a ++ byte '.' :: sixDigits m) =
      (false, decimal a ++ byte '.' :: sixDigits m) := by
    rw [hcs]
    simp [readSign, h2, h3]
  have hhead : ∀ x, (decimal a ++ byte '.' :: sixDigits m).head? = some x → x = c := by
    rw [hcs]
    simp
  have hinf : startsWith (txt "inf") (decimal a ++ byte '.' :: sixDigits m) = false :=
    startsWith_letter rfl fun x hx => by
      rw [hhead x hx, hlow]
      exact hletter _ (by decide)
  have hnan : startsWith (txt "nan") (decimal a ++ byte '.' :: sixDigits m) = false :=
    startsWith_letter rfl fun x hx => by
      rw [hhead x hx, hlow]
      exact hletter _ (by decide)
  have hhex : startsWith (txt "0x") (decimal a ++ byte '.' :: sixDigits m) = false := by
    -- the second character is a digit or the point
    have : startsWith (txt "x") (cs ++ byte '.' :: sixDigits m) = false :=
      startsWith_letter rfl fun x hx => by
        cases cs with
        | nil =>
          obtain rfl : byte '.' = x := by simpa using hx
          decide
        | cons d ds =>
          obtain rfl : d = x := by simpa using hx
          have hd : isDigit d = true := hda d (by simp [hcs])
          rw [toLower_of_isDigit hd]
          rintro rfl
          exact absurd hd (by decide)
    rw [hcs, List.cons_append]
    unfold startsWith at this ⊢
    rw [List.map_cons, show txt "0x" = byte '0' :: txt "x" from rfl, List.isPrefixOf_cons_cons, this,
      Bool.and_false]
  have htake : (decimal a ++ byte '.' :: sixDigits m).takeWhile isDigit = decimal a := by
    rw [List.takeWhile_append_of_pos hda, List.takeWhile_cons,
      show isDigit (byte '.') = false by decide]
    simp
  have hfp : (sixDigits m).takeWhile isDigit = sixDigits m := by
    have := @List.takeWhile_append_of_pos _ isDigit (sixDigits m) [] fun c =>
      isDigit_of_mem_sixDigits
    simpa using this
  have hne : decimal a ++ sixDigits m ≠ [] := by simp [hcs]
  have hval : readDigits 10 digitVal (decimal a ++ sixDigits m) = a * 10 ^ 6 + m := by
    rw [readDigits_append, readDigits_decimal, readDigits_sixDigits hm]
    rfl
  have hman : readMantissa isDigit digitVal 10 10 1 'e' (decimal a ++ byte '.' :: sixDigits m) =
      some (((a * 10 ^ 6 + m : ℕ) : ℚ) / 10 ^ 6) := by
    have hscale : ∀ k : ℕ, scale 10 k (-6) = (k : ℚ) / 10 ^ 6 := fun k => by simp [scale]
    have h6 : (0 : ℤ) - (1 * (sixDigits m).length : ℕ) = -6 := rfl
    simp only [readMantissa, htake, List.drop_left' rfl, List.head?_cons, if_true, List.tail_cons,
      hfp, List.drop_length, if_neg hne, readExponent, hval, h6, hscale]
  simp only [scanDouble, hdrop, hsign, readUnsigned, hinf, hnan, hhex, hman, Bool.false_eq_true,
    if_false, Option.map_some]

theorem stod_multiple {erange : ℚ → Bool} {n : ℕ} (h : erange (n / 10 ^ 6) = false) :
    stod erange (toStringDouble (.fin (n / 10 ^ 6))) = .ok (.fin (n / 10 ^ 6)) := by
  have e : n / 10 ^ 6 * 10 ^ 6 + n % 10 ^ 6 = n := Nat.div_add_mod' n _
  rw [toStringDouble_multiple, stod, scanDouble_decimals _ (Nat.mod_lt _ (by norm_num)), e]
  simp [h]

/-! ### The round trip -/

theorem soh_notMem_toStringDouble (n : ℕ) : SOH ∉ toStringDouble (.fin (n / 10 ^ 6)) := by
  rw [toStringDouble_multiple]
  simp only [List.mem_append, List.mem_cons, not_or]
  exact ⟨fun h => (isDigit_cases (isDigit_of_mem_decimal h)).2.2.2.1 rfl, by decide,
    fun h => (isDigit_cases (isDigit_of_mem_sixDigits h)).2.2.2.1 rfl⟩

section

variable {account qty n : ℕ} {symbol clOrdId : Bytes} {side : UInt8}

def newOrderFields (account qty n : ℕ) (hs : SOH ∉ symbol) (hside : side ≠ SOH)
    (hc : SOH ∉ clOrdId) : List TagValue :=
  [⟨35, txt "D", by omega, by decide⟩, ⟨55, symbol, by omega, hs⟩,
    ⟨54, [side], by omega, by simpa using hside.symm⟩,
    ⟨38, decimal qty, by omega, fun h => (isDigit_cases (isDigit_of_mem_decimal h)).2.2.2.1 rfl⟩,
    ⟨44, toStringDouble (.fin (n / 10 ^ 6)), by omega, soh_notMem_toStringDouble n⟩,
    ⟨1, decimal account, by omega,
      fun h => (isDigit_cases (isDigit_of_mem_decimal h)).2.2.2.1 rfl⟩,
    ⟨11, clOrdId, by omega, hc⟩]

theorem buildNewOrderSingle_eq (hs : SOH ∉ symbol) (hside : side ≠ SOH) (hc : SOH ∉ clOrdId) :
    buildNewOrderSingle account symbol side qty (.fin (n / 10 ^ 6)) clOrdId =
      buildMessage (encodeFields (newOrderFields account qty n hs hside hc)) := by
  have h35 : decimal 35 = txt "35" := by decide +kernel
  have h55 : decimal 55 = txt "55" := by decide +kernel
  have h54 : decimal 54 = txt "54" := by decide +kernel
  have h38 : decimal 38 = txt "38" := by decide +kernel
  have h44 : decimal 44 = txt "44" := by decide +kernel
  have h1 : decimal 1 = txt "1" := by decide +kernel
  have h11 : decimal 11 = txt "11" := by decide +kernel
  refine congrArg buildMessage ?_
  simp [encodeFields, newOrderFields, TagValue.field, Field.bytes, h35, h55, h54, h38, h44, h1,
    h11, txt]

/-- **New-order round trip**: the server reads the order that the client was given. -/
theorem parseOrder_buildNewOrderSingle {price : ℚ} {erange : ℚ → Bool} (next : ℕ)
    (ha : account < 2 ^ 64) (hq : qty < 2 ^ 32) (hn : price = n / 10 ^ 6)
    (hs : SOH ∉ symbol) (hc : SOH ∉ clOrdId) (hside : side = byte '1' ∨ side = byte '2')
    (he : erange price = false) :
    ∃ o next', parseOrder erange next
        (buildNewOrderSingle account symbol side qty (.fin price) clOrdId) = .ok (.ok o, next') ∧
      o.accountId = account ∧ o.symbol = symbol ∧ o.qty = qty ∧ o.price = .fin price ∧
      (o.side = .buy ↔ side = byte '1') := by
  subst hn
  have hsoh : side ≠ SOH := by
    rcases hside with rfl | rfl <;> decide
  rw [buildNewOrderSingle_eq hs hsoh hc]
  set body := encodeFields (newOrderFields account qty n hs hsoh hc) with hbody
  have hchk := verifyChecksum_buildMessage body
  -- every field of the order is read back
  have hnodup : ((header body ++ newOrderFields account qty n hs hsoh hc ++ [trailer body]).map
      TagValue.tag).Nodup := by
    simp [header, newOrderFields, trailer]
  have hread : ∀ p ∈ newOrderFields account qty n hs hsoh hc,
      splitFields (buildMessage body) p.tag = some p.value := by
    intro p hp
    rw [hbody, buildMessage_encodeFields, ← hbody]
    exact splitFields_encodeFields hnodup (by simp [hp])
  simp only [newOrderFields, List.forall_mem_cons] at hread
  push_cast at hread
  obtain ⟨h35, h55, h54, h38, h44, h1, -⟩ := hread
  have hacc := stoul_decimal ha
  have hqty := stoul_decimal (n := qty) (by omega)
  have hprice := stod_multiple he
  refine ⟨⟨next, account, symbol, if [side] = txt "1" then .buy else .sell, qty,
    .fin (n / 10 ^ 6)⟩, sizeT (next + 1), ?_, rfl, rfl, rfl, rfl, ?_⟩
  · have hro : readOrder erange (splitFields (buildMessage body)) next = .ok ⟨next, account, symbol,
        if [side] = txt "1" then .buy else .sell, qty, .fin (n / 10 ^ 6)⟩ := by
      simp only [readOrder, stoull, h1, h38, h44, h54, h55, hacc, hqty, hprice, Option.getD_some,
        Nat.mod_eq_of_lt hq, bind, Except.bind, pure, Except.pure]
    simp [parseOrder, hchk, h35, h55, h54, h38, h44, h1, hro, bind, Except.bind, pure, Except.pure]
  · dsimp only
    rcases hside with rfl | rfl <;> decide

end

/-- Two SOL-USD at 150 for account 5, with a `10=` in the client's order id. -/
theorem parseOrder_buildNewOrderSingle_sol :
    ∃ o next', parseOrder (fun _ => false) 1 (buildNewOrderSingle 5 (txt "SOL-USD") (byte '1') 2
        (.fin 150) (txt "a=10=7")) = .ok (.ok o, next') ∧
      o.accountId = 5 ∧ o.symbol = txt "SOL-USD" ∧ o.qty = 2 ∧ o.price = .fin 150 ∧
      (o.side = .buy ↔ byte '1' = byte '1') :=
  parseOrder_buildNewOrderSingle (n := 150000000) 1 (by norm_num) (by norm_num) (by norm_num)
    (by decide) (by decide) (.inl rfl) rfl

end OrderRisk.Fix
