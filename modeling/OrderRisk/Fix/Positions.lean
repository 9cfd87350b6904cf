import OrderRisk.Fix.Checksum

/-!
# Positions are `size_t`

The parser once more, on 64-bit positions: `find` and `rfind` return `npos` where they find nothing,
sums and differences wrap, and `compare` and `substr` throw when the position lies behind the end.
On a string that fits into memory no position wraps and none is out of range outside a `try` block:
the functions are those of `Fix.Parser` (`tryExtractMessage_eq_nat` and its siblings), which
throw nothing.
-/

namespace OrderRisk.Fix.Positions

open OrderRisk.Lib OrderRisk.Risk

/-- `std::string::npos`. -/
def npos : UInt64 := UInt64.ofNat (2 ^ 64 - 1)

/-- `s.size()`. -/
def size (s : Bytes) : UInt64 := UInt64.ofNat s.length

def found : Option ℕ → UInt64
  | some i => UInt64.ofNat i
  | none => npos

def find (c : UInt8) (s : Bytes) (pos : UInt64) : UInt64 := found (findFrom c s pos.toNat)

def rfind (pat s : Bytes) : UInt64 := found (Lib.rfind pat s)

def substr (s : Bytes) (pos n : UInt64) : Except Exn Bytes := Lib.substr s pos.toNat n.toNat

def compareEq (s : Bytes) (pos n : UInt64) (t : Bytes) : Except Exn Bool :=
  Lib.compareEq s pos.toNat n.toNat t

/-! ### The functions of the parser -/

/-- `tryExtractMessage`. -/
def tryExtractMessage (buffer : Bytes) : Except Exn (Option Bytes × Bytes) :=
  if size buffer < 2 then .ok (none, buffer)
  else do
    let begins ← compareEq buffer 0 2 (txt "8=")
    if begins = false then return (none, buffer)
    else
      let firstSoh := find SOH buffer 0
      if firstSoh = npos then return (none, buffer)
      else
        let bodyLenTagStart := firstSoh + 1
        let tagIs9 ← compareEq buffer bodyLenTagStart 2 (txt "9=")
        if tagIs9 = false then return (none, buffer)
        else
          let bodyLenValStart := bodyLenTagStart + 2
          let bodyLenSoh := find SOH buffer bodyLenValStart
          if bodyLenSoh = npos then return (none, buffer)
          else match substr buffer bodyLenValStart (bodyLenSoh - bodyLenValStart) >>= stoul with
          | .error _ => return (none, buffer)
          | .ok bodyLength =>
            let bodyStart := bodyLenSoh + 1
            let checksumFieldLen := 7
            let totalMsgLen := bodyStart + UInt64.ofNat bodyLength + checksumFieldLen
            if size buffer < totalMsgLen then return (none, buffer)
            else
              let rawMessage ← substr buffer 0 totalMsgLen
              return (some rawMessage, buffer.drop totalMsgLen.toNat)

/-- The body of the `try` block of `splitFields`. -/
def readField (raw : Bytes) (pos eq soh : UInt64) : Except Exn (ℤ × Bytes) := do
  let tag ← substr raw pos (eq - pos) >>= stoi
  let value ← substr raw (eq + 1) (soh - eq - 1)
  return (tag, value)

/-- The loop of `splitFields`; `none` if it is still running after `fuel` rounds. -/
def splitLoop (raw : Bytes) : ℕ → UInt64 → Fields → Option Fields
  | 0, _, _ => none
  | fuel + 1, pos, fields =>
    if pos < size raw then
      let eq := find (byte '=') raw pos
      if eq = npos then some fields
      else
        let soh := find SOH raw eq
        if soh = npos then some fields
        else match readField raw pos eq soh with
        | .ok (tag, value) => splitLoop raw fuel (soh + 1) (Function.update fields tag (some value))
        | .error _ => splitLoop raw fuel (soh + 1) fields
    else some fields

/-- `splitFields`. -/
def splitFields (raw : Bytes) : Option Fields := splitLoop raw (raw.length + 1) 0 fun _ => none

/-- `verifyChecksum`. -/
def verifyChecksum (raw : Bytes) : Except Exn Bool :=
  let checksumTagPos := rfind (txt "10=") raw
  if checksumTagPos = npos then .ok false
  else
    let computed := byteSum (raw.take checksumTagPos.toNat)
    let valStart := checksumTagPos + 3
    let valEnd := find SOH raw valStart
    if valEnd = npos then .ok false
    else do
      let checksumStr ← substr raw valStart (valEnd - valStart)
      match stoi checksumStr with
      | .error _ => return false
      | .ok received => return (computed : ℤ) == received

/-- `parseOrder`; `none` if `splitFields` does not return. -/
def parseOrder (erange : ℚ → Bool) (nextOrderId : ℕ) (raw : Bytes) :
    Except Exn (Option (Except Bytes (Order Double) × ℕ)) := do
  if (← verifyChecksum raw) = false then
    return some (.error (txt "bad_checksum"), nextOrderId)
  else match splitFields raw with
  | none => return none
  | some fields =>
    if fields 35 ≠ some (txt "D") then
      return some (.error (txt "unsupported_msgtype"), nextOrderId)
    else if fields 55 = none ∨ fields 54 = none ∨ fields 38 = none ∨ fields 44 = none ∨
        fields 1 = none then
      return some (.error (txt "malformed_message"), nextOrderId)
    else match readOrder erange fields nextOrderId with
    | .error _ => return some (.error (txt "malformed_message"), sizeT (nextOrderId + 1))
    | .ok o => return some (.ok o, sizeT (nextOrderId + 1))

/-! ### Positions that do not wrap -/

section Wrap

variable {a b : UInt64} {i j k : ℕ}

theorem toNat_ofNat (h : i < 2 ^ 64) : (UInt64.ofNat i).toNat = i := by
  rw [UInt64.toNat_ofNat', Nat.mod_eq_of_lt h]

theorem toNat_add (a b : UInt64) : (a + b).toNat = sizeT (a.toNat + b.toNat) := UInt64.toNat_add a b

theorem toNat_add_ofNat (ha : a.toNat = i) (h : i + k < 2 ^ 64) :
    (a + UInt64.ofNat k).toNat = i + k := by
  rw [toNat_add, ha, toNat_ofNat (by omega), sizeT, Nat.mod_eq_of_lt h]

theorem toNat_sub (ha : a.toNat = i) (hb : b.toNat = j) (h : j ≤ i) : (a - b).toNat = i - j := by
  subst ha hb
  exact UInt64.toNat_sub_of_le _ _ (UInt64.le_iff_toNat_le.mpr h)

theorem found_none : found none = npos := rfl

theorem found_some (h : i < 2 ^ 63) : found (some i) ≠ npos ∧ (found (some i)).toNat = i := by
  have hi : (found (some i)).toNat = i := toNat_ofNat (by omega)
  refine ⟨fun e => ?_, hi⟩
  rw [e, npos, toNat_ofNat (by omega)] at hi
  omega

end Wrap

/-! ### The parser on strings that fit into memory -/

section Refines

variable {b : Bytes}

theorem size_toNat (h : b.length < 2 ^ 63) : (size b).toNat = b.length := toNat_ofNat (by omega)

/-- **`tryExtractMessage` is the one of the parser.** -/
theorem tryExtractMessage_eq_nat (h : b.length < 2 ^ 63) :
    tryExtractMessage b = Fix.tryExtractMessage b := by
  have hsize : size b < 2 ↔ b.length < 2 := by
    rw [UInt64.lt_iff_toNat_lt, size_toNat h]
    rfl
  unfold tryExtractMessage Fix.tryExtractMessage
  by_cases h0 : b.length < 2
  · rw [if_pos (hsize.mpr h0), if_pos h0]
  rw [if_neg (fun e => h0 (hsize.mp e)), if_neg h0]
  have hc : compareEq b 0 2 (txt "8=") = Lib.compareEq b 0 2 (txt "8=") := rfl
  rw [hc, compareEq_ok 2 _ (Nat.zero_le _)]
  simp only [bind, Except.bind]
  split
  · rfl
  have hfind : find SOH b 0 = found (findFrom SOH b 0) := rfl
  rw [hfind]
  cases hf : findFrom SOH b 0 with
  | none => rw [if_pos found_none]
  | some firstSoh =>
    have hlt := (findFrom_le_lt hf).2
    obtain ⟨hne, hnat⟩ := found_some (i := firstSoh) (by omega)
    rw [if_neg hne]
    -- the tag stands at most at the end of the buffer
    have h1 : (found (some firstSoh) + 1).toNat = firstSoh + 1 :=
      toNat_add_ofNat (k := 1) hnat (by omega)
    have hc' : compareEq b (found (some firstSoh) + 1) 2 (txt "9=") =
        Lib.compareEq b (firstSoh + 1) 2 (txt "9=") := by
      rw [compareEq, h1]
      rfl
    simp only [hc', compareEq_ok 2 (txt "9=") (by omega : firstSoh + 1 ≤ b.length)]
    split
    · rfl
    have h3 : (found (some firstSoh) + 1 + 2).toNat = firstSoh + 1 + 2 :=
      toNat_add_ofNat (k := 2) h1 (by omega)
    have hfind' : find SOH b (found (some firstSoh) + 1 + 2) =
        found (findFrom SOH b (firstSoh + 1 + 2)) := by
      rw [find, h3]
    rw [hfind']
    cases hl : findFrom SOH b (firstSoh + 1 + 2) with
    | none => rw [if_pos found_none]
    | some bodyLenSoh =>
      obtain ⟨hle, hlt'⟩ := findFrom_le_lt hl
      obtain ⟨hne', hnat'⟩ := found_some (i := bodyLenSoh) (by omega)
      rw [if_neg hne']
      have hsub : substr b (found (some firstSoh) + 1 + 2)
          (found (some bodyLenSoh) - (found (some firstSoh) + 1 + 2)) =
          Lib.substr b (firstSoh + 1 + 2) (bodyLenSoh - (firstSoh + 1 + 2)) := by
        rw [substr, toNat_sub hnat' h3 hle, h3]
      simp only [hsub, substr_ok _ (by omega : firstSoh + 1 + 2 ≤ b.length)]
      cases stoul ((b.drop (firstSoh + 1 + 2)).take (bodyLenSoh - (firstSoh + 1 + 2))) with
      | error e => rfl
      | ok n =>
        have htotal : (found (some bodyLenSoh) + 1 + UInt64.ofNat n + 7).toNat =
            sizeT (bodyLenSoh + 1 + n + 7) := by
          rw [toNat_add, toNat_add, toNat_add, hnat', UInt64.toNat_ofNat']
          show sizeT (sizeT (sizeT (bodyLenSoh + 1) + sizeT n) + 7) = _
          simp only [sizeT]
          omega
        have hsz : size b < found (some bodyLenSoh) + 1 + UInt64.ofNat n + 7 ↔
            b.length < sizeT (bodyLenSoh + 1 + n + 7) := by
          rw [UInt64.lt_iff_toNat_lt, size_toNat h, htotal]
        simp only [hsz, substr, htotal]
        rfl

theorem readField_eq_nat {pos eq soh : ℕ} (h : soh < 2 ^ 63) (hpos : pos ≤ eq)
    (heq : eq < soh) :
    readField b (UInt64.ofNat pos) (UInt64.ofNat eq) (UInt64.ofNat soh) =
      Fix.readField b pos eq soh := by
  have hp : (UInt64.ofNat pos).toNat = pos := toNat_ofNat (by omega)
  have he : (UInt64.ofNat eq).toNat = eq := toNat_ofNat (by omega)
  have hs : (UInt64.ofNat soh).toNat = soh := toNat_ofNat (by omega)
  have h1 : (UInt64.ofNat eq - UInt64.ofNat pos).toNat = eq - pos := toNat_sub he hp hpos
  have h2 : (UInt64.ofNat eq + 1).toNat = eq + 1 := toNat_add_ofNat (k := 1) he (by omega)
  have h3 : (UInt64.ofNat soh - UInt64.ofNat eq).toNat = soh - eq := toNat_sub hs he heq.le
  have h4 : (UInt64.ofNat soh - UInt64.ofNat eq - 1).toNat = soh - eq - 1 :=
    toNat_sub h3 rfl (by omega)
  simp only [readField, Fix.readField, substr, h1, h2, h4, hp]

theorem splitLoop_eq_nat (h : b.length < 2 ^ 63) (fuel : ℕ) {pos : ℕ} (fields : Fields)
    (hpos : pos ≤ b.length) (hf : b.length < pos + fuel) :
    splitLoop b fuel (UInt64.ofNat pos) fields = some (Fix.splitLoop b fuel pos fields) := by
  induction fuel generalizing pos fields with
  | zero => omega
  | succ fuel ih =>
    have hnat : (UInt64.ofNat pos).toNat = pos := toNat_ofNat (by omega)
    have hlt : UInt64.ofNat pos < size b ↔ pos < b.length := by
      rw [UInt64.lt_iff_toNat_lt, size_toNat h, hnat]
    rw [splitLoop, Fix.splitLoop]
    simp only [hlt, find, hnat]
    split
    · cases heq : findFrom (byte '=') b pos with
      | none => rw [if_pos found_none]
      | some eq =>
        have hle := findFrom_le_lt heq
        obtain ⟨hne, hnat'⟩ := found_some (i := eq) (by omega)
        rw [if_neg hne, hnat']
        dsimp only
        cases hsoh : findFrom SOH b eq with
        | none => rw [if_pos found_none]
        | some soh =>
          have hle' := findFrom_le_lt hsoh
          -- `=` is not SOH
          have hdiff : eq < soh := by
            apply lt_of_le_of_ne hle'.1
            rintro rfl
            have h1 := getElem?_of_findFrom heq
            rw [getElem?_of_findFrom hsoh] at h1
            exact absurd h1 (by decide)
          obtain ⟨hne'', -⟩ := found_some (i := soh) (by omega)
          rw [if_neg hne'']
          have hadd : found (some soh) + 1 = UInt64.ofNat (soh + 1) :=
            (UInt64.ofNat_add soh 1).symm
          have hread : readField b (UInt64.ofNat pos) (found (some eq)) (found (some soh)) =
              Fix.readField b pos eq soh := readField_eq_nat (by omega) hle.1 hdiff
          rw [hread, hadd]
          dsimp only
          cases Fix.readField b pos eq soh with
          | error e => exact ih _ (by omega) (by omega)
          | ok p => exact ih _ (by omega) (by omega)
    · rfl

/-- **`splitFields` is the one of the parser, and returns.** -/
theorem splitFields_eq_nat (h : b.length < 2 ^ 63) :
    splitFields b = some (Fix.splitFields b) := by
  rw [splitFields, Fix.splitFields,
    Fix.splitLoop_fuel b b.length (b.length + 1) 0 _ (by omega) (by omega)]
  exact @splitLoop_eq_nat b h (b.length + 1) 0 _ (by omega) (by omega)

/-- **`verifyChecksum` is the one of the parser.** -/
theorem verifyChecksum_eq_nat (h : b.length < 2 ^ 63) :
    verifyChecksum b = Fix.verifyChecksum b := by
  unfold verifyChecksum Fix.verifyChecksum rfind
  cases hp : Lib.rfind (txt "10=") b with
  | none => rw [if_pos found_none]
  | some p =>
    obtain ⟨hple, hpre⟩ := rfind_le_length hp
    have hlen : p + 3 ≤ b.length := by
      have h3 := hpre.length_le
      rw [List.length_drop] at h3
      have : (txt "10=").length = 3 := rfl
      omega
    obtain ⟨hne, hnat⟩ := found_some (i := p) (by omega)
    rw [if_neg hne]
    have h3 : (found (some p) + 3).toNat = p + 3 := toNat_add_ofNat (k := 3) hnat (by omega)
    simp only [find, h3, hnat]
    cases hv : findFrom SOH b (p + 3) with
    | none => rw [if_pos found_none]
    | some v =>
      have hle := findFrom_le_lt hv
      obtain ⟨hne', hnat'⟩ := found_some (i := v) (by omega)
      rw [if_neg hne']
      have hsub : substr b (found (some p) + 3) (found (some v) - (found (some p) + 3)) =
          Lib.substr b (p + 3) (v - (p + 3)) := by
        rw [substr, toNat_sub hnat' h3 hle.1, h3]
      exact hsub ▸ rfl

/-- **`parseOrder` is the one of the parser, and returns.** -/
theorem parseOrder_eq_nat (h : b.length < 2 ^ 63) (erange : ℚ → Bool) (next : ℕ) :
    parseOrder erange next b = (Fix.parseOrder erange next b).map some := by
  unfold parseOrder Fix.parseOrder
  rw [verifyChecksum_eq_nat h, splitFields_eq_nat h]
  cases Fix.verifyChecksum b with
  | error e => rfl
  | ok v =>
    simp only [bind, Except.bind]
    split
    · rfl
    · split
      · rfl
      · split
        · rfl
        · cases readOrder erange (Fix.splitFields b) next <;> rfl

end Refines

end OrderRisk.Fix.Positions
