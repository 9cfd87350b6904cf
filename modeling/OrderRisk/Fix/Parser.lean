import OrderRisk.Fix.Text
import OrderRisk.Lib.Framing
import OrderRisk.Risk.Validator

/-!
# `FixParser`

The functions of the class as the source has them: searches from the front and from the back,
positions, and the exceptions of `compare`, `substr` and the number readers (an `Except` where one
could leave the function).  `size_t` sums are reduced modulo `2 ^ 64` where a number from the wire
enters them; every other position is at most the size of the string.
-/

namespace OrderRisk.Fix

open OrderRisk.Lib OrderRisk.Risk

/-! ### `tryExtractMessage` -/

/-- `tryExtractMessage`: the message, if there is one, and the buffer it leaves behind. -/
def tryExtractMessage (buffer : Bytes) : Except Exn (Option Bytes × Bytes) :=
  if buffer.length < 2 then .ok (none, buffer)
  else do
    let begins ← compareEq buffer 0 2 (txt "8=")
    if begins = false then return (none, buffer)
    else match findFrom SOH buffer 0 with
    | none => return (none, buffer)
    | some firstSoh =>
      let bodyLenTagStart := firstSoh + 1
      let tagIs9 ← compareEq buffer bodyLenTagStart 2 (txt "9=")
      if tagIs9 = false then return (none, buffer)
      else
        let bodyLenValStart := bodyLenTagStart + 2
        match findFrom SOH buffer bodyLenValStart with
        | none => return (none, buffer)
        | some bodyLenSoh =>
          match substr buffer bodyLenValStart (bodyLenSoh - bodyLenValStart) >>= stoul with
          | .error _ => return (none, buffer)
          | .ok bodyLength =>
            let bodyStart := bodyLenSoh + 1
            let checksumFieldLen := 7
            let totalMsgLen := sizeT (bodyStart + bodyLength + checksumFieldLen)
            if buffer.length < totalMsgLen then return (none, buffer)
            else
              let rawMessage ← substr buffer 0 totalMsgLen
              return (some rawMessage, buffer.drop totalMsgLen)

/-- The total length that the head of a buffer announces, once the head is complete. -/
def totalLength (buffer : Bytes) : Option ℕ :=
  if (txt "8=").isPrefixOf buffer then
    (findFrom SOH buffer 0).bind fun firstSoh =>
      if (txt "9=").isPrefixOf (buffer.drop (firstSoh + 1)) then
        (findFrom SOH buffer (firstSoh + 3)).bind fun bodyLenSoh =>
          match stoul ((buffer.drop (firstSoh + 3)).take (bodyLenSoh - (firstSoh + 3))) with
          | .error _ => none
          | .ok bodyLength => some (sizeT (bodyLenSoh + 1 + bodyLength + 7))
      else none
  else none

theorem isPrefixOf_iff_take {pat s : Bytes} : pat.isPrefixOf s = (s.take pat.length == pat) := by
  rw [Bool.eq_iff_iff, List.isPrefixOf_iff_prefix, beq_iff_eq, List.prefix_iff_eq_take]
  exact eq_comm

/-- **`tryExtractMessage` throws nothing, and cuts the announced length off the front.** -/
theorem tryExtractMessage_eq (buffer : Bytes) : tryExtractMessage buffer = .ok
    (match Framing.extract totalLength buffer with
      | none => (none, buffer)
      | some (m, r) => (some m, r)) := by
  unfold tryExtractMessage Framing.extract totalLength
  by_cases h0 : buffer.length < 2
  · have : (txt "8=").isPrefixOf buffer = false := by
      rw [isPrefixOf_iff_take, beq_eq_false_iff_ne]
      intro h
      have := congrArg List.length h
      simp only [List.length_take] at this
      have h2 : (txt "8=").length = 2 := rfl
      omega
    simp [h0, this]
  rw [if_neg h0, compareEq_ok 2 _ (Nat.zero_le _)]
  have h2 : (txt "8=").isPrefixOf buffer = ((buffer.drop 0).take 2 == txt "8=") :=
    isPrefixOf_iff_take
  rw [← h2]
  cases hb : (txt "8=").isPrefixOf buffer with
  | false => rfl
  | true =>
    cases hf : findFrom SOH buffer 0 with
    | none => simp [bind, Except.bind, pure, Except.pure]
    | some firstSoh =>
      have hlt := (findFrom_le_lt hf).2
      have h9 : (txt "9=").isPrefixOf (buffer.drop (firstSoh + 1)) =
          ((buffer.drop (firstSoh + 1)).take 2 == txt "9=") := isPrefixOf_iff_take
      simp only [bind, Except.bind, compareEq_ok 2 (txt "9=") (by omega : firstSoh + 1 ≤ buffer.length),
        ← h9, Option.bind_some, if_true, Bool.true_eq_false, if_false]
      cases hp : (txt "9=").isPrefixOf (buffer.drop (firstSoh + 1)) with
      | false => simp [pure, Except.pure]
      | true =>
        cases hl : findFrom SOH buffer (firstSoh + 3) with
        | none => simp [pure, Except.pure]
        | some bodyLenSoh =>
          obtain ⟨hle, hlt'⟩ := findFrom_le_lt hl
          simp only [Option.bind_some, Bool.true_eq_false, if_false, if_true,
            substr_ok _ (by omega : firstSoh + 1 + 2 ≤ buffer.length)]
          cases hst : stoul ((buffer.drop (firstSoh + 3)).take (bodyLenSoh - (firstSoh + 3))) with
          | error e => simp [pure, Except.pure]
          | ok n =>
            simp only [substr_ok _ (Nat.zero_le _), pure, Except.pure]
            split <;> simp_all

/-! ### `splitFields` -/

/-- The map from tags to values. -/
abbrev Fields := ℤ → Option Bytes

/-- The body of the `try` block of `splitFields`. -/
def readField (raw : Bytes) (pos eq soh : ℕ) : Except Exn (ℤ × Bytes) := do
  let tag ← substr raw pos (eq - pos) >>= stoi
  let value ← substr raw (eq + 1) (soh - eq - 1)
  return (tag, value)

/-- The loop of `splitFields`; `fuel` bounds its rounds. -/
def splitLoop (raw : Bytes) : ℕ → ℕ → Fields → Fields
  | 0, _, fields => fields
  | fuel + 1, pos, fields =>
    if pos < raw.length then
      match findFrom (byte '=') raw pos with
      | none => fields
      | some eq =>
        match findFrom SOH raw eq with
        | none => fields
        | some soh =>
          match readField raw pos eq soh with
          | .ok (tag, value) => splitLoop raw fuel (soh + 1) (Function.update fields tag (some value))
          | .error _ => splitLoop raw fuel (soh + 1) fields
    else fields

/-- `splitFields`: the last value of a tag wins. -/
def splitFields (raw : Bytes) : Fields := splitLoop raw raw.length 0 fun _ => none

theorem splitLoop_fuel (raw : Bytes) : ∀ (k k' pos : ℕ) (fields : Fields),
    raw.length ≤ pos + k → raw.length ≤ pos + k' →
    splitLoop raw k pos fields = splitLoop raw k' pos fields
  | 0, 0, _, _, _, _ => rfl
  | 0, k' + 1, pos, fields, h, _ => by
    rw [splitLoop, splitLoop, if_neg (by omega)]
  | k + 1, 0, pos, fields, _, h => by
    rw [splitLoop, splitLoop, if_neg (by omega)]
  | k + 1, k' + 1, pos, fields, h, h' => by
    rw [splitLoop, splitLoop]
    split
    · split
      · rfl
      · rename_i eq heq
        have h1 := (findFrom_le_lt heq).1
        split
        · rfl
        · rename_i soh hsoh
          have h2 := (findFrom_le_lt hsoh).1
          split <;> exact splitLoop_fuel raw k k' _ _ (by omega) (by omega)
    · rfl

/-! ### `verifyChecksum` -/

/-- The sum of all bytes, modulo 256. -/
def byteSum (s : Bytes) : ℕ := sizeT (s.map UInt8.toNat).sum % 256

/-- `verifyChecksum`. -/
def verifyChecksum (raw : Bytes) : Except Exn Bool :=
  match rfind (txt "10=") raw with
  | none => .ok false
  | some checksumTagPos =>
    let computed := byteSum (raw.take checksumTagPos)
    let valStart := checksumTagPos + 3
    match findFrom SOH raw valStart with
    | none => .ok false
    | some valEnd => do
      let checksumStr ← substr raw valStart (valEnd - valStart)
      match stoi checksumStr with
      | .error _ => return false
      | .ok received => return (computed : ℤ) == received

/-! ### `parseOrder` -/

/-- The body of the `try` block of `parseOrder`, behind the order id. -/
def readOrder (erange : ℚ → Bool) (fields : Fields) (orderId : ℕ) : Except Exn (Order Double) := do
  let accountId ← stoull ((fields 1).getD [])
  let symbol := (fields 55).getD []
  let side := if (fields 54).getD [] = txt "1" then Side.buy else Side.sell
  let qty ← stoul ((fields 38).getD [])
  let price ← stod erange ((fields 44).getD [])
  return ⟨orderId, accountId, symbol, side, qty % 2 ^ 32, price⟩

/-- `parseOrder`, with `nextOrderId_` before and after: an order, or the reason of the rejection. -/
def parseOrder (erange : ℚ → Bool) (nextOrderId : ℕ) (raw : Bytes) :
    Except Exn (Except Bytes (Order Double) × ℕ) := do
  if (← verifyChecksum raw) = false then return (.error (txt "bad_checksum"), nextOrderId)
  else
    let fields := splitFields raw
    if fields 35 ≠ some (txt "D") then return (.error (txt "unsupported_msgtype"), nextOrderId)
    else if fields 55 = none ∨ fields 54 = none ∨ fields 38 = none ∨ fields 44 = none ∨
        fields 1 = none then
      return (.error (txt "malformed_message"), nextOrderId)
    else match readOrder erange fields nextOrderId with
      | .error _ => return (.error (txt "malformed_message"), sizeT (nextOrderId + 1))
      | .ok o => return (.ok o, sizeT (nextOrderId + 1))

/-! ### `buildMessage` -/

def pad3 (n : ℕ) : Bytes :=
  [UInt8.ofNat (48 + n / 100 % 10), UInt8.ofNat (48 + n / 10 % 10), UInt8.ofNat (48 + n % 10)]

/-- `buildMessage`. -/
def buildMessage (body : Bytes) : Bytes :=
  let withLen := txt "9=" ++ decimal body.length ++ [SOH] ++ body
  let head := txt "8=FIX.4.2" ++ [SOH]
  let msgNoChecksum := head ++ withLen
  msgNoChecksum ++ txt "10=" ++ pad3 (byteSum msgNoChecksum) ++ [SOH]

end OrderRisk.Fix
