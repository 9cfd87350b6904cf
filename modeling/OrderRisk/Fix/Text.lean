import OrderRisk.Lib.Str
import OrderRisk.Lib.Double
import Mathlib.Data.Nat.Digits.Lemmas
import Mathlib.Algebra.Order.Ring.Rat
import Mathlib.Tactic.NormNum

/-!
# Bytes, and the number readers and printers the parser uses

A `std::string` is a list of bytes.  `stoul`, `stoull`, `stoi` and `stod` read as C's `strto*` do:
leading white space, an optional sign, the longest prefix that is a number, the rest ignored.
`decimal` is `std::to_string` of an unsigned integer.
-/

namespace OrderRisk.Fix

open OrderRisk.Lib

/-- A `std::string`. -/
abbrev Bytes := List UInt8

def byte (c : Char) : UInt8 := UInt8.ofNat c.toNat

def txt (s : String) : Bytes := s.toList.map byte

/-- `SOH`, the field separator. -/
def SOH : UInt8 := 1

def sizeT (x : ℕ) : ℕ := x % 2 ^ 64

/-! ### Characters -/

def isSpace (c : UInt8) : Bool := c == 32 || (9 ≤ c && c ≤ 13)

def isDigit (c : UInt8) : Bool := 48 ≤ c && c ≤ 57

def digitVal (c : UInt8) : ℕ := c.toNat - 48

def toLower (c : UInt8) : UInt8 := if 65 ≤ c && c ≤ 90 then c + 32 else c

def isHexDigit (c : UInt8) : Bool := isDigit c || (97 ≤ toLower c && toLower c ≤ 102)

def hexVal (c : UInt8) : ℕ := if isDigit c then digitVal c else (toLower c).toNat - 87

/-- The number a string of digits denotes, base `b`. -/
def readDigits (b : ℕ) (val : UInt8 → ℕ) (ds : Bytes) : ℕ := ds.foldl (fun n c => b * n + val c) 0

/-! ### Integers -/

/-- An optional sign: is it a minus, and what follows. -/
def readSign : Bytes → Bool × Bytes
  | [] => (false, [])
  | c :: s => if c = byte '-' then (true, s) else if c = byte '+' then (false, s) else (false, c :: s)

/-- The sign and magnitude that `strtol` and `strtoul` (base 10) find in front of a text; `none` if
there are no digits. -/
def scanInteger (s : Bytes) : Option (Bool × ℕ) :=
  let p := readSign (s.dropWhile isSpace)
  let ds := p.2.takeWhile isDigit
  if ds = [] then none else some (p.1, readDigits 10 digitVal ds)

/-- `std::stoul` (64 bits): a negated value wraps around. -/
def stoul (s : Bytes) : Except Exn ℕ :=
  match scanInteger s with
  | none => .error .invalidArgument
  | some (negative, n) =>
    if 2 ^ 64 ≤ n then .error .outOfRange else .ok (if negative then sizeT (2 ^ 64 - n) else n)

/-- `std::stoull`: `unsigned long long` has the 64 bits of `unsigned long`. -/
def stoull (s : Bytes) : Except Exn ℕ := stoul s

/-- `std::stoi`. -/
def stoi (s : Bytes) : Except Exn ℤ :=
  match scanInteger s with
  | none => .error .invalidArgument
  | some (negative, n) =>
    let v : ℤ := if negative then -n else n
    if v < -2 ^ 31 ∨ 2 ^ 31 ≤ v then .error .outOfRange else .ok v

/-- `std::to_string` of an unsigned integer. -/
def decimal (n : ℕ) : Bytes :=
  if n = 0 then [48] else ((Nat.digits 10 n).map fun d => UInt8.ofNat (48 + d)).reverse

/-! ### Doubles -/

/-- `n * b ^ e`. -/
def scale (b n : ℕ) (e : ℤ) : ℚ := if 0 ≤ e then n * b ^ e.toNat else n / b ^ (-e).toNat

def startsWith (word s : Bytes) : Bool := word.isPrefixOf (s.map toLower)

/-- The exponent after the letter `c`, if one stands there: sign and digits. -/
def readExponent (c : Char) (s : Bytes) : ℤ :=
  match s with
  | [] => 0
  | x :: s =>
    if toLower x = byte c then
      let p := readSign s
      let n : ℤ := readDigits 10 digitVal (p.2.takeWhile isDigit)
      if p.1 then -n else n
    else 0

/-- A mantissa of digits with at most one point, and an exponent; `none` if there are no digits.
One digit of the mantissa is worth `b`, one digit behind the point weighs `w` in the exponent. -/
def readMantissa (isD : UInt8 → Bool) (val : UInt8 → ℕ) (b expBase w : ℕ) (expChar : Char)
    (s : Bytes) : Option ℚ :=
  let ip := s.takeWhile isD
  let s := s.drop ip.length
  let fp := if s.head? = some (byte '.') then s.tail.takeWhile isD else []
  let s := if s.head? = some (byte '.') then s.tail.drop fp.length else s
  if ip ++ fp = [] then none
  else some (scale expBase (readDigits b val (ip ++ fp))
    (readExponent expChar s - (w * fp.length : ℕ)))

/-- The number of a text without sign. -/
def readUnsigned (s : Bytes) : Option Double :=
  if startsWith (txt "inf") s then some (.inf false)
  else if startsWith (txt "nan") s then some .nan
  else
    let hex := if startsWith (txt "0x") s then
        readMantissa isHexDigit hexVal 16 2 4 'p' (s.drop 2)
      else none
    match hex with
    | some q => some (.fin q)
    | none => (readMantissa isDigit digitVal 10 10 1 'e' s).map .fin

/-- What `strtod` finds in front of a text: decimal or hexadecimal, `inf`/`infinity`, `nan`. -/
def scanDouble (s : Bytes) : Option Double :=
  let p := readSign (s.dropWhile isSpace)
  (readUnsigned p.2).map fun d => if p.1 then -d else d

/-- `std::stod`.  Rounding is ignored; `erange` says which exact values are reported as out of the
range of a double. -/
def stod (erange : ℚ → Bool) (s : Bytes) : Except Exn Double :=
  match scanDouble s with
  | none => .error .invalidArgument
  | some (.fin q) => if erange q then .error .outOfRange else .ok (.fin q)
  | some d => .ok d

/-! ### Reading back what was printed -/

theorem isDigit_ofNat {d : ℕ} (h : d < 10) : isDigit (UInt8.ofNat (48 + d)) = true := by
  interval_cases d <;> rfl

theorem digitVal_ofNat {d : ℕ} (h : d < 10) : digitVal (UInt8.ofNat (48 + d)) = d := by
  interval_cases d <;> rfl

theorem readDigits_reverse (b : ℕ) (val : UInt8 → ℕ) (ds : Bytes) :
    readDigits b val ds.reverse = Nat.ofDigits b (ds.map val) := by
  unfold readDigits
  rw [List.foldl_reverse]
  induction ds with
  | nil => rfl
  | cons d ds ih =>
    simp only [List.foldr_cons, List.map_cons, Nat.ofDigits_cons, ih]
    rw [Nat.add_comm]

theorem decimal_ne_nil (n : ℕ) : decimal n ≠ [] := by
  unfold decimal
  split
  · simp
  · simpa [Nat.digits_eq_nil_iff_eq_zero] using ‹_›

theorem isDigit_of_mem_decimal {n : ℕ} {c : UInt8} (h : c ∈ decimal n) : isDigit c = true := by
  unfold decimal at h
  split at h
  · simp only [List.mem_singleton] at h
    subst h
    rfl
  · simp only [List.mem_reverse, List.mem_map] at h
    obtain ⟨d, hd, rfl⟩ := h
    exact isDigit_ofNat (Nat.digits_lt_base (by norm_num) hd)

theorem readDigits_decimal (n : ℕ) : readDigits 10 digitVal (decimal n) = n := by
  unfold decimal
  split
  · subst n; rfl
  · rw [readDigits_reverse, List.map_map]
    have : (Nat.digits 10 n).map (digitVal ∘ fun d => UInt8.ofNat (48 + d)) = Nat.digits 10 n := by
      conv_rhs => rw [← List.map_id (Nat.digits 10 n)]
      exact List.map_congr_left fun d hd =>
        digitVal_ofNat (Nat.digits_lt_base (by norm_num) hd)
    rw [this, Nat.ofDigits_digits]

theorem isDigit_cases {c : UInt8} (h : isDigit c = true) :
    isSpace c = false ∧ c ≠ byte '-' ∧ c ≠ byte '+' ∧ c ≠ SOH ∧ c ≠ byte '=' := by
  simp only [isDigit, Bool.and_eq_true, decide_eq_true_eq, UInt8.le_iff_toNat_le] at h
  have h1 : (48 : ℕ) ≤ c.toNat := h.1
  have h2 : c.toNat ≤ 57 := h.2
  refine ⟨?_, ?_, ?_, ?_, ?_⟩
  · simp only [isSpace, Bool.or_eq_false_iff, beq_eq_false_iff_ne, Bool.and_eq_false_iff,
      decide_eq_false_iff_not, UInt8.le_iff_toNat_le]
    refine ⟨fun e => ?_, .inr fun e => ?_⟩
    · subst e; simp at h1
    · have : c.toNat ≤ 13 := e
      omega
  all_goals
    rintro rfl
    revert h1 h2
    decide

theorem scanInteger_digits {ds rest : Bytes} (hne : ds ≠ []) (hd : ∀ c ∈ ds, isDigit c = true)
    (hrest : ∀ c, rest.head? = some c → isDigit c = false) :
    scanInteger (ds ++ rest) = some (false, readDigits 10 digitVal ds) := by
  obtain ⟨c, cs, rfl⟩ := List.exists_cons_of_ne_nil hne
  obtain ⟨h1, h2, h3, -, -⟩ := isDigit_cases (hd c (by simp))
  have hdrop : ((c :: cs) ++ rest).dropWhile isSpace = (c :: cs) ++ rest := by
    rw [List.cons_append, List.dropWhile_cons, h1]
    rfl
  have hsign : readSign ((c :: cs) ++ rest) = (false, (c :: cs) ++ rest) := by
    simp [readSign, h2, h3]
  have htake : ((c :: cs) ++ rest).takeWhile isDigit = c :: cs := by
    rw [List.takeWhile_append_of_pos hd]
    cases rest with
    | nil => simp
    | cons r rs => simp [hrest r rfl]
  simp only [scanInteger, hdrop, hsign, htake]
  simp

theorem stoul_decimal {n : ℕ} (h : n < 2 ^ 64) : stoul (decimal n) = .ok n := by
  have := @scanInteger_digits (decimal n) [] (decimal_ne_nil n) (fun c => isDigit_of_mem_decimal)
    (by simp)
  rw [List.append_nil, readDigits_decimal] at this
  simp only [stoul, this]
  rw [if_neg (by omega)]
  rfl

end OrderRisk.Fix
