import OrderRisk.Fix.Checksum

/-!
# Which messages become orders

`parseOrder` reads its numbers with `stoull`, `stoul` and `stod`, which skip white space, take a
sign and stop at the first character that does not belong to the number.  `exists_order_iff` says
which messages it accepts.  The quantity is stored in 32 bits, so of a larger one the order keeps
the remainder (`quantity_exact_iff`).  And every side but `1` is a SELL: the messages
that become an order other than the one that is written in them are the `Sloppy` ones
(`onlyWellFormed_iff`).
-/

namespace OrderRisk.Fix

open OrderRisk.Lib OrderRisk.Risk OrderRisk.Account

/-! ### What the number readers accept -/

/-- The digits behind white space and a sign. -/
def leadingDigits (t : Bytes) : Bytes := (readSign (t.dropWhile isSpace)).2.takeWhile isDigit

/-- The text begins with the digits of a number below `2 ^ 64`. -/
def BeginsUnsigned (t : Bytes) : Prop :=
  leadingDigits t ≠ [] ∧ readDigits 10 digitVal (leadingDigits t) < 2 ^ 64

/-- Behind white space and a sign stands `inf`, `nan`, a digit, or a point and a digit. -/
def BeginsNumber (t : Bytes) : Prop :=
  let s := (readSign (t.dropWhile isSpace)).2
  startsWith (txt "inf") s = true ∨ startsWith (txt "nan") s = true ∨
    (∃ c r, s = c :: r ∧ isDigit c = true) ∨ ∃ c r, s = byte '.' :: c :: r ∧ isDigit c = true

theorem scanInteger_eq (t : Bytes) : scanInteger t =
    if leadingDigits t = [] then none
    else some ((readSign (t.dropWhile isSpace)).1, readDigits 10 digitVal (leadingDigits t)) :=
  rfl

theorem stoul_ok_iff {t : Bytes} : (∃ n, stoul t = .ok n) ↔ BeginsUnsigned t := by
  unfold stoul BeginsUnsigned
  rw [scanInteger_eq]
  by_cases h : leadingDigits t = []
  · simp [h]
  · rw [if_neg h]
    dsimp only
    split
    · next hn =>
      constructor
      · rintro ⟨n, h'⟩
        cases h'
      · exact fun h' => absurd h'.2 (not_lt.mpr hn)
    · next hn => exact ⟨fun _ => ⟨h, not_le.mp hn⟩, fun _ => ⟨_, rfl⟩⟩

theorem takeWhile_ne_nil {s : Bytes} :
    s.takeWhile isDigit ≠ [] ↔ ∃ c r, s = c :: r ∧ isDigit c = true := by
  cases s with
  | nil => simp
  | cons c r =>
    rw [List.takeWhile_cons]
    by_cases h : isDigit c = true
    · simp [h]
    · simp [h]

/-- A decimal mantissa has a digit in front of the point or behind it. -/
theorem readMantissa_isSome {s : Bytes} :
    (readMantissa isDigit digitVal 10 10 1 'e' s).isSome ↔
      (∃ c r, s = c :: r ∧ isDigit c = true) ∨ ∃ c r, s = byte '.' :: c :: r ∧ isDigit c = true := by
  have hif : ∀ {p : Prop} [Decidable p] (q : ℚ), (if p then none else some q).isSome ↔ ¬ p := by
    intro p _ q
    split <;> simp [*]
  unfold readMantissa
  dsimp only
  rw [hif, ← takeWhile_ne_nil]
  by_cases h : s.takeWhile isDigit = []
  · rw [h, List.length_nil, List.drop_zero, List.nil_append]
    simp only [ne_eq, not_true_eq_false, false_or]
    cases s with
    | nil => simp
    | cons c r =>
      rw [List.head?_cons, List.tail_cons]
      by_cases hc : c = byte '.'
      · rw [if_pos (by rw [hc]), ← ne_eq, takeWhile_ne_nil, hc]
        simp
      · rw [if_neg (by simpa using hc)]
        simp [hc]
  · simp [h]

theorem toLower_eq_zero {c : UInt8} (h : toLower c = byte '0') : c = byte '0' := by
  unfold toLower at h
  split at h
  · next hc =>
    simp only [Bool.and_eq_true, decide_eq_true_eq, UInt8.le_iff_toNat_le] at hc
    have h1 : (65 : ℕ) ≤ c.toNat := hc.1
    have h2 : c.toNat ≤ 90 := hc.2
    have h3 := congrArg UInt8.toNat h
    rw [UInt8.toNat_add] at h3
    have h4 : (c.toNat + 32) % 2 ^ 8 = 48 := h3
    omega
  · exact h

theorem readUnsigned_isSome {s : Bytes} : (readUnsigned s).isSome ↔
    startsWith (txt "inf") s = true ∨ startsWith (txt "nan") s = true ∨
      (∃ c r, s = c :: r ∧ isDigit c = true) ∨ ∃ c r, s = byte '.' :: c :: r ∧ isDigit c = true := by
  rw [← readMantissa_isSome]
  unfold readUnsigned
  by_cases hi : startsWith (txt "inf") s = true
  · simp [hi]
  by_cases hn : startsWith (txt "nan") s = true
  · simp [hi, hn]
  simp only [hi, hn, Bool.false_eq_true, if_false, false_or]
  by_cases hx : startsWith (txt "0x") s = true
  · -- the zero is a digit, whether or not hexadecimal digits follow
    have hdec : (readMantissa isDigit digitVal 10 10 1 'e' s).isSome := by
      rw [readMantissa_isSome]
      cases s with
      | nil => simp [startsWith, txt] at hx
      | cons c r =>
        have hp : txt "0x" <+: (c :: r).map toLower := List.isPrefixOf_iff_prefix.mp hx
        rw [List.map_cons, show txt "0x" = byte '0' :: txt "x" from rfl,
          List.cons_prefix_cons] at hp
        obtain rfl := toLower_eq_zero hp.1.symm
        exact .inl ⟨_, _, rfl, rfl⟩
    rw [if_pos hx]
    cases readMantissa isHexDigit hexVal 16 2 4 'p' (s.drop 2) with
    | none => simp
    | some q => simp [hdec]
  · simp [hx]

theorem scanDouble_isSome {t : Bytes} : (scanDouble t).isSome ↔ BeginsNumber t := by
  unfold BeginsNumber
  rw [← readUnsigned_isSome, scanDouble, Option.isSome_map]

theorem stod_ok_iff {erange : ℚ → Bool} {t : Bytes} :
    (∃ d, stod erange t = .ok d) ↔ BeginsNumber t ∧ stod erange t ≠ .error .outOfRange := by
  rw [← scanDouble_isSome]
  unfold stod
  cases scanDouble t with
  | none => simp
  | some d =>
    cases d with
    | nan => simp
    | inf negative => simp
    | fin q => by_cases h : erange q = true <;> simp [h]

theorem leadingDigits_numeral {t : Bytes} (h : IsNumeral t) : leadingDigits t = t := by
  obtain ⟨hne, hd⟩ := h
  obtain ⟨c, cs, rfl⟩ := List.exists_cons_of_ne_nil hne
  obtain ⟨h1, h2, h3, -, -⟩ := isDigit_cases (hd c (by simp))
  have hall : (c :: cs).takeWhile isDigit = c :: cs := by
    have := @List.takeWhile_append_of_pos _ isDigit (c :: cs) [] hd
    simpa using this
  rw [leadingDigits, List.dropWhile_cons, h1]
  simp only [Bool.false_eq_true, if_false, readSign, h2, h3]
  exact hall

/-! ### Which messages become orders -/

/-- But for the quantity, nothing keeps the message from becoming an order. -/
structure Readable (erange : ℚ → Bool) (raw : Bytes) : Prop where
  checksum : verifyChecksum raw = .ok true
  msgType : splitFields raw 35 = some (txt "D")
  symbol : (splitFields raw 55).isSome
  side : (splitFields raw 54).isSome
  account : ∃ t, splitFields raw 1 = some t ∧ BeginsUnsigned t
  price : ∃ t, splitFields raw 44 = some t ∧ BeginsNumber t ∧ stod erange t ≠ .error .outOfRange

section

variable {erange : ℚ → Bool} {raw : Bytes}

theorem readable_of_parseOrder {next j : ℕ} {o : Order Double}
    (h : parseOrder erange next raw = .ok (.ok o, j)) :
    Readable erange raw ∧ ∃ t, splitFields raw 38 = some t ∧ BeginsUnsigned t := by
  obtain ⟨hc, h35, h55, h54, h38, h44, h1, ho⟩ := parseOrder_ok h
  obtain ⟨ha, -, -, ⟨n, hn, -⟩, hp⟩ := readOrder_ok ho
  obtain ⟨t38, h38⟩ := Option.isSome_iff_exists.mp h38
  obtain ⟨t44, h44⟩ := Option.isSome_iff_exists.mp h44
  obtain ⟨t1, h1⟩ := Option.isSome_iff_exists.mp h1
  rw [h1] at ha
  rw [h38] at hn
  rw [h44] at hp
  obtain ⟨hb, he⟩ := stod_ok_iff.mp ⟨_, hp⟩
  exact ⟨⟨hc, h35, h55, h54, ⟨t1, h1, stoul_ok_iff.mp ⟨_, ha⟩⟩, ⟨t44, h44, hb, he⟩⟩,
    t38, h38, stoul_ok_iff.mp ⟨n, hn⟩⟩

/-- **Which messages become orders.** -/
theorem exists_order_iff (next : ℕ) : (∃ o j, parseOrder erange next raw = .ok (.ok o, j)) ↔
    Readable erange raw ∧ ∃ t, splitFields raw 38 = some t ∧ BeginsUnsigned t := by
  constructor
  · rintro ⟨o, j, h⟩
    exact readable_of_parseOrder h
  · rintro ⟨hr, t38, h38, hq⟩
    obtain ⟨t55, h55⟩ := Option.isSome_iff_exists.mp hr.symbol
    obtain ⟨t54, h54⟩ := Option.isSome_iff_exists.mp hr.side
    obtain ⟨t1, h1, ha⟩ := hr.account
    obtain ⟨t44, h44, hb, he⟩ := hr.price
    obtain ⟨n, hn⟩ := stoul_ok_iff.mpr hq
    obtain ⟨a, ha⟩ := stoul_ok_iff.mpr ha
    obtain ⟨p, hp⟩ := stod_ok_iff.mpr ⟨hb, he⟩
    have hro : readOrder erange (splitFields raw) next =
        .ok ⟨next, a, t55, if t54 = txt "1" then .buy else .sell, n % 2 ^ 32, p⟩ := by
      simp [readOrder, stoull, h1, h38, h44, h54, h55, ha, hn, hp, bind, Except.bind, pure,
        Except.pure]
    refine ⟨⟨next, a, t55, if t54 = txt "1" then .buy else .sell, n % 2 ^ 32, p⟩,
      sizeT (next + 1), ?_⟩
    unfold parseOrder
    simp [hr.checksum, hr.msgType, h55, h54, h38, h44, h1, hro, bind, Except.bind, pure,
      Except.pure]

/-! ### The quantity -/

/-- Every order that the message becomes has quantity `n`, and an accepted BUY takes `n` times the
price out of its account. -/
def QuantityExact (erange : ℚ → Bool) (raw : Bytes) (n : ℕ) : Prop :=
  ∀ next o j, parseOrder erange next raw = .ok (.ok o, j) → o.qty = n ∧
    ∀ store : AccountStore Double, o.side = .buy → (validate store o).1.accepted = true →
      ∃ cur, store.balances o.accountId = some cur ∧
        (validate store o).2 = store.setBalance o.accountId (cur - n * o.price)

theorem qty_of_numeral {t : Bytes} (ht : splitFields raw 38 = some t) (hn : IsNumeral t)
    {next j : ℕ} {o : Order Double} (h : parseOrder erange next raw = .ok (.ok o, j)) :
    readDigits 10 digitVal t < 2 ^ 64 ∧ o.qty = readDigits 10 digitVal t % 2 ^ 32 := by
  obtain ⟨-, -, -, -, -, -, -, ho⟩ := parseOrder_ok h
  obtain ⟨-, -, -, ⟨n, hs, hq⟩, -⟩ := readOrder_ok ho
  rw [ht, Option.getD_some, stoul_numeral hn] at hs
  split at hs
  · cases hs
  · next hlt =>
    cases hs
    exact ⟨not_le.mp hlt, hq⟩

/-- **The quantity is exact** unless it has more than 32 and at most 64 bits in a message that
becomes an order. -/
theorem quantity_exact_iff {t : Bytes} (ht : splitFields raw 38 = some t) (hn : IsNumeral t) :
    QuantityExact erange raw (readDigits 10 digitVal t) ↔
      ¬ (2 ^ 32 ≤ readDigits 10 digitVal t ∧ readDigits 10 digitVal t < 2 ^ 64 ∧
        Readable erange raw) := by
  constructor
  · rintro hex ⟨hlo, hhi, hr⟩
    have hb : BeginsUnsigned t := by
      unfold BeginsUnsigned
      rw [leadingDigits_numeral hn]
      exact ⟨hn.1, hhi⟩
    obtain ⟨o, j, ho⟩ := (exists_order_iff 0).mpr ⟨hr, t, ht, hb⟩
    have h1 := (hex 0 o j ho).1
    rw [(qty_of_numeral ht hn ho).2] at h1
    omega
  · intro hno next o j ho
    obtain ⟨hlt, hq⟩ := qty_of_numeral ht hn ho
    have hr := (readable_of_parseOrder ho).1
    have h32 : readDigits 10 digitVal t < 2 ^ 32 := by
      by_contra hge
      exact hno ⟨not_lt.mp hge, hlt, hr⟩
    rw [Nat.mod_eq_of_lt h32] at hq
    refine ⟨hq, fun store hs hacc => ?_⟩
    rcases validate_cases store o with ⟨-, hsell⟩ | ⟨cur, -, -, hcur, -, hv⟩
    · rw [hsell hacc] at hs
      cases hs
    · refine ⟨cur, hcur, ?_⟩
      rw [hv, Order.cost, hq]

/-! ### Strictness -/

/-- An unsigned or negative decimal number: digits with at most one point among them. -/
def IsDecimalNumber (t : Bytes) : Prop :=
  ∃ sign ip fp, (sign = [] ∨ sign = txt "-") ∧ (∀ c ∈ ip ++ fp, isDigit c = true) ∧
    ip ++ fp ≠ [] ∧ (t = sign ++ ip ++ byte '.' :: fp ∨ t = sign ++ ip ∧ fp = [])

/-- Are these the fields of a NewOrderSingle? -/
structure WellFormed (fields : Fields) : Prop where
  msgType : fields 35 = some (txt "D")
  side : fields 54 = some (txt "1") ∨ fields 54 = some (txt "2")
  account : ∃ t, fields 1 = some t ∧ IsNumeral t
  qty : ∃ t, fields 38 = some t ∧ IsNumeral t
  price : ∃ t, fields 44 = some t ∧ IsDecimalNumber t

/-- The order has the side, the account and the quantity that the sender wrote. -/
structure AsWritten (fields : Fields) (o : Order Double) : Prop where
  side : o.side = .buy ↔ fields 54 = some (txt "1")
  account : ∃ t, fields 1 = some t ∧ o.accountId = readDigits 10 digitVal t
  qty : ∃ t, fields 38 = some t ∧ o.qty = readDigits 10 digitVal t

/-- `parseOrder` makes an order of well-formed fields only, with what is written in them; of all
others, it makes none, and says so. -/
structure OnlyWellFormed (erange : ℚ → Bool) (raw : Bytes) : Prop where
  order : ∀ next o j, parseOrder erange next raw = .ok (.ok o, j) →
    WellFormed (splitFields raw) ∧ AsWritten (splitFields raw) o
  rejected : verifyChecksum raw = .ok true → ¬ WellFormed (splitFields raw) → ∀ next,
    ∃ reason j, parseOrder erange next raw = .ok (.error reason, j) ∧
      (reason = txt "unsupported_msgtype" ∨ reason = txt "malformed_message")

/-- The side is neither `1` nor `2`, account, quantity or price are not the number they begin with
and nothing else, or the quantity is more than 32 bits hold. -/
def Misread (fields : Fields) : Prop :=
  (fields 54 ≠ some (txt "1") ∧ fields 54 ≠ some (txt "2")) ∨
    (∃ t, fields 1 = some t ∧ ¬ IsNumeral t) ∨
    (∃ t, fields 38 = some t ∧ (¬ IsNumeral t ∨ 2 ^ 32 ≤ readDigits 10 digitVal t)) ∨
    ∃ t, fields 44 = some t ∧ ¬ IsDecimalNumber t

/-- The message becomes an order, but not the one that is written in it. -/
structure Sloppy (erange : ℚ → Bool) (raw : Bytes) : Prop where
  readable : Readable erange raw
  qty : ∃ t, splitFields raw 38 = some t ∧ BeginsUnsigned t
  misread : Misread (splitFields raw)

theorem side_of_parseOrder {next j : ℕ} {o : Order Double}
    (h : parseOrder erange next raw = .ok (.ok o, j)) :
    o.side = .buy ↔ splitFields raw 54 = some (txt "1") := by
  obtain ⟨-, -, -, h54, -, -, -, ho⟩ := parseOrder_ok h
  obtain ⟨-, -, hs, -⟩ := readOrder_ok ho
  obtain ⟨t, ht⟩ := Option.isSome_iff_exists.mp h54
  rw [hs, ht, Option.getD_some, Option.some.injEq]
  by_cases h1 : t = txt "1" <;> simp [h1]

theorem account_of_numeral {t : Bytes} (ht : splitFields raw 1 = some t) (hn : IsNumeral t)
    {next j : ℕ} {o : Order Double} (h : parseOrder erange next raw = .ok (.ok o, j)) :
    o.accountId = readDigits 10 digitVal t := by
  obtain ⟨-, -, -, -, -, -, -, ho⟩ := parseOrder_ok h
  obtain ⟨ha, -⟩ := readOrder_ok ho
  rw [ht, Option.getD_some, stoull, stoul_numeral hn] at ha
  split at ha
  · cases ha
  · exact (Except.ok.inj ha).symm

/-- A message that becomes an order and is not sloppy is well formed, and read in full. -/
theorem asWritten_of_not_sloppy (hs : ¬ Sloppy erange raw) {next j : ℕ} {o : Order Double}
    (h : parseOrder erange next raw = .ok (.ok o, j)) :
    WellFormed (splitFields raw) ∧ AsWritten (splitFields raw) o := by
  obtain ⟨hr, hq⟩ := readable_of_parseOrder h
  have hno : ¬ Misread (splitFields raw) := fun hf => hs ⟨hr, hq, hf⟩
  simp only [Misread, not_or, not_and_or, not_not, not_exists] at hno
  obtain ⟨hside, hacc, hqty, hprice⟩ := hno
  obtain ⟨t1, h1, -⟩ := hr.account
  obtain ⟨t38, h38, -⟩ := hq
  obtain ⟨t44, h44, -⟩ := hr.price
  have n1 : IsNumeral t1 := (hacc t1).resolve_left fun hne => hne h1
  obtain ⟨n38, hlt⟩ := (hqty t38).resolve_left fun hne => hne h38
  have n44 : IsDecimalNumber t44 := (hprice t44).resolve_left fun hne => hne h44
  have hqv := (qty_of_numeral h38 n38 h).2
  rw [Nat.mod_eq_of_lt (not_le.mp hlt)] at hqv
  exact ⟨⟨hr.msgType, hside, ⟨t1, h1, n1⟩, ⟨t38, h38, n38⟩, ⟨t44, h44, n44⟩⟩,
    ⟨side_of_parseOrder h, ⟨t1, h1, account_of_numeral h1 n1 h⟩, ⟨t38, h38, hqv⟩⟩⟩

/-- **Only well-formed fields become orders**, unless the message is sloppy. -/
theorem onlyWellFormed_iff (erange : ℚ → Bool) (raw : Bytes) :
    OnlyWellFormed erange raw ↔ ¬ Sloppy erange raw := by
  constructor
  · rintro hw ⟨hr, ⟨t, ht, hq⟩, hf⟩
    obtain ⟨o, j, ho⟩ := (exists_order_iff 0).mpr ⟨hr, t, ht, hq⟩
    obtain ⟨hwf, has⟩ := hw.order 0 o j ho
    obtain ⟨t1, h1, n1⟩ := hwf.account
    obtain ⟨t38, h38, n38⟩ := hwf.qty
    obtain ⟨t44, h44, n44⟩ := hwf.price
    rcases hf with ⟨hb, hs⟩ | ⟨u, hu, hn⟩ | ⟨u, hu, hn⟩ | ⟨u, hu, hn⟩
    · exact hwf.side.elim hb hs
    · rw [h1, Option.some.injEq] at hu
      exact hn (hu ▸ n1)
    · rw [h38, Option.some.injEq] at hu
      subst hu
      rcases hn with hn | hge
      · exact hn n38
      · -- the order has the remainder
        obtain ⟨u, hu, hqv⟩ := has.qty
        rw [h38, Option.some.injEq] at hu
        subst hu
        have := (qty_of_numeral h38 n38 ho).2
        rw [hqv] at this
        have hlt := Nat.mod_lt (readDigits 10 digitVal t38) (by norm_num : 0 < 2 ^ 32)
        omega
    · rw [h44, Option.some.injEq] at hu
      exact hn (hu ▸ n44)
  · intro hs
    refine ⟨fun next o j ho => asWritten_of_not_sloppy hs ho, fun hc hw next => ?_⟩
    rcases parseOrder_cases erange next raw with ⟨hf, -⟩ | ⟨-, -, h⟩ | ⟨-, j, h⟩ | ⟨-, o, h⟩
    · rw [hc] at hf
      cases hf
    · exact ⟨_, _, h, .inl rfl⟩
    · exact ⟨_, _, h, .inr rfl⟩
    · exact absurd (asWritten_of_not_sloppy hs h).1 hw

end

/-! ### Two messages -/

def orderBody (side qty : String) : Bytes :=
  txt "35=D" ++ [SOH] ++ txt "55=BTC-USD" ++ [SOH] ++ txt "54=" ++ txt side ++ [SOH] ++
    txt "38=" ++ txt qty ++ [SOH] ++ txt "44=6000.0" ++ [SOH] ++ txt "1=1" ++ [SOH]

def hugeOrder : Bytes := buildMessage (orderBody "1" "4294967297")

/-- It becomes an order for one. -/
theorem hugeOrder_not_exact : ¬ ∀ (erange : ℚ → Bool) (raw t : Bytes),
    splitFields raw 38 = some t → IsNumeral t →
      QuantityExact erange raw (readDigits 10 digitVal t) := by
  intro h
  have ht : splitFields hugeOrder 38 = some (txt "4294967297") := by decide +kernel
  have hn : IsNumeral (txt "4294967297") := ⟨by decide, by decide +kernel⟩
  have hx : ∃ o j, parseOrder (fun _ => false) 1 hugeOrder = .ok (.ok o, j) ∧ o.qty = 1 :=
    ⟨⟨1, 1, txt "BTC-USD", .buy, 1, .fin 6000⟩, 2, by decide +kernel, rfl⟩
  obtain ⟨o, j, ho, hq⟩ := hx
  have := (h _ _ _ ht hn 1 o j ho).1
  rw [hq] at this
  exact absurd this (by decide +kernel)

theorem quantity_exact_iff_hugeOrder :
    QuantityExact (fun _ => false) hugeOrder (readDigits 10 digitVal (txt "4294967297")) ↔
      ¬ (2 ^ 32 ≤ readDigits 10 digitVal (txt "4294967297") ∧
        readDigits 10 digitVal (txt "4294967297") < 2 ^ 64 ∧
        Readable (fun _ => false) hugeOrder) :=
  quantity_exact_iff (by decide +kernel) ⟨by decide, by decide +kernel⟩

def shortOrder : Bytes := buildMessage (orderBody "5" "1")

/-- It becomes a SELL. -/
theorem shortOrder_not_onlyWellFormed :
    ¬ ∀ (erange : ℚ → Bool) (raw : Bytes), OnlyWellFormed erange raw := by
  intro h
  have hx : parseOrder (fun _ => false) 1 shortOrder =
      .ok (.ok ⟨1, 1, txt "BTC-USD", .sell, 1, .fin 6000⟩, 2) := by decide +kernel
  have h54 : splitFields shortOrder 54 = some (txt "5") := by decide +kernel
  obtain ⟨hwf, -⟩ := (h (fun _ => false) shortOrder).order 1 _ _ hx
  have hside := hwf.side
  rw [h54] at hside
  exact absurd hside (by decide)

end OrderRisk.Fix
