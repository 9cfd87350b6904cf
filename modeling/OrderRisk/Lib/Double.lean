import Mathlib.Algebra.Order.Ring.Rat
import Mathlib.Tactic.Linarith

/-!
# Doubles without rounding

A double is NaN, an infinity or an exact rational.  Ordered comparisons with NaN are false,
arithmetic on NaN gives NaN, and so do `inf - inf` and `0 * inf`.  Equality of `Double` is equality
of the stored value, as a compare-and-swap sees it (NaN equals itself), not the `==` of C++.
-/

namespace OrderRisk.Lib

inductive Double where
  | nan
  | inf (negative : Bool)
  | fin (q : ℚ)
  deriving DecidableEq

namespace Double

instance : Zero Double := ⟨fin 0⟩
instance : NatCast Double := ⟨fun n => fin n⟩

def ltb : Double → Double → Bool
  | nan, _ => false
  | _, nan => false
  | inf true, inf true => false
  | inf true, _ => true
  | inf false, _ => false
  | fin _, inf negative => !negative
  | fin a, fin b => decide (a < b)

def leb : Double → Double → Bool
  | nan, _ => false
  | _, nan => false
  | inf true, _ => true
  | inf false, inf negative => !negative
  | inf false, fin _ => false
  | fin _, inf negative => !negative
  | fin a, fin b => decide (a ≤ b)

instance : LT Double := ⟨fun a b => ltb a b = true⟩
instance : LE Double := ⟨fun a b => leb a b = true⟩
instance : DecidableLT Double := fun a b => inferInstanceAs (Decidable (ltb a b = true))
instance : DecidableLE Double := fun a b => inferInstanceAs (Decidable (leb a b = true))

def neg : Double → Double
  | nan => nan
  | inf negative => inf !negative
  | fin q => fin (-q)

def add : Double → Double → Double
  | nan, _ => nan
  | _, nan => nan
  | inf a, inf b => if a = b then inf a else nan
  | inf a, fin _ => inf a
  | fin _, inf b => inf b
  | fin a, fin b => fin (a + b)

def mul : Double → Double → Double
  | nan, _ => nan
  | _, nan => nan
  | inf a, inf b => inf (a != b)
  | inf a, fin q => if q = 0 then nan else inf (a != decide (q < 0))
  | fin q, inf b => if q = 0 then nan else inf (b != decide (q < 0))
  | fin a, fin b => fin (a * b)

instance : Neg Double := ⟨neg⟩
instance : Add Double := ⟨add⟩
instance : Sub Double := ⟨fun a b => add a (neg b)⟩
instance : Mul Double := ⟨mul⟩

@[simp] theorem fin_lt_fin {a b : ℚ} : fin a < fin b ↔ a < b := by
  show ltb _ _ = true ↔ _
  simp [ltb]

@[simp] theorem fin_le_fin {a b : ℚ} : fin a ≤ fin b ↔ a ≤ b := by
  show leb _ _ = true ↔ _
  simp [leb]

@[simp] theorem fin_lt_posInf (a : ℚ) : fin a < inf false := rfl
@[simp] theorem not_lt_nan (a : Double) : ¬ a < nan := by
  show ¬ ltb _ _ = true
  cases a <;> simp [ltb]
@[simp] theorem not_nan_le (a : Double) : ¬ nan ≤ a := by
  show ¬ leb _ _ = true
  simp [leb]
@[simp] theorem negInf_le_fin (a : ℚ) : inf true ≤ fin a := rfl

@[simp] theorem fin_sub_fin (a b : ℚ) : fin a - fin b = fin (a - b) := by
  show fin (a + -b) = _
  rw [sub_eq_add_neg]

@[simp] theorem fin_add_fin (a b : ℚ) : fin a + fin b = fin (a + b) := rfl
@[simp] theorem fin_mul_fin (a b : ℚ) : fin a * fin b = fin (a * b) := rfl
@[simp] theorem sub_nan (a : Double) : a - nan = nan := by
  cases a <;> rfl
theorem nan_sub (a : Double) : nan - a = nan := rfl
@[simp] theorem mul_nan (a : Double) : a * nan = nan := by
  cases a <;> rfl

theorem zero_eq : (0 : Double) = fin 0 := rfl
theorem natCast_eq (n : ℕ) : (n : Double) = fin n := rfl

theorem natCast_mul_posInf {n : ℕ} (h : n ≠ 0) : (n : Double) * inf false = inf false := by
  show mul (fin n) (inf false) = _
  have h1 : (n : ℚ) ≠ 0 := by exact_mod_cast h
  have h2 : ¬ (n : ℚ) < 0 := not_lt.mpr (by exact_mod_cast Nat.zero_le n)
  simp [mul, h1, h2]

end Double

end OrderRisk.Lib
