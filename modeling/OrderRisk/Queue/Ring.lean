import OrderRisk.Lib.Machine
import Mathlib.Algebra.Order.Ring.Int
import Mathlib.Data.Nat.Bitwise
import Mathlib.Data.Nat.Log
import Mathlib.Tactic.NormNum

/-!
# `LockFreeRing`

`try_push` and `try_pop` one atomic access at a time: a load, a CAS (which may fail spuriously), a
move of the data or a store of `seq` is one step.  A ring comes with ghost lists (`Core`), above
all the successful claims of `tail_` and of `head_` in order; the code never reads them.

`ringStep` is a thread's step; `ringMachine` lets any threads call the two functions in any order.
-/

namespace OrderRisk.Queue

open OrderRisk.Lib

def word (x : ℕ) : ℕ := x % 2 ^ 64

/-- `static_cast<intptr_t>(a) - static_cast<intptr_t>(b)`; where the subtraction overflows, from
`2 ^ 63` pushes on, in two's complement. -/
def diff (a b : ℕ) : ℤ := ((a : ℤ) - b).bmod (2 ^ 64)

/-! ### The data structure -/

/-- `Cell`. -/
structure Cell (T : Type*) where
  seq : ℕ
  data : T

/-- `LockFreeRing`.  The array `cells_` has the indices up to `mask`. -/
structure LockFreeRing (T : Type*) where
  cells : ℕ → Cell T
  mask : ℕ
  tail : ℕ
  head : ℕ

namespace LockFreeRing

variable {T : Type*}

/-- `while (cap < minCapacity) cap <<= 1`; `none` when it has not ended within the fuel. -/
def growCap (minCapacity : ℕ) : ℕ → ℕ → Option ℕ
  | 0, _ => none
  | fuel + 1, cap =>
    if cap < minCapacity then growCap minCapacity fuel (word (cap <<< 1)) else some cap

/-- The constructor; `none` when its loop does not end. -/
def make [Inhabited T] (minCapacity : ℕ) : Option (LockFreeRing T) :=
  (growCap minCapacity 65 1).map fun cap => ⟨fun i => ⟨i, default⟩, cap - 1, 0, 0⟩

/-- `cells_[pos & mask_]`. -/
def cell (r : LockFreeRing T) (pos : ℕ) : Cell T := r.cells (pos &&& r.mask)

/-- Assign to `cells_[pos & mask_]`. -/
def setCell (r : LockFreeRing T) (pos : ℕ) (c : Cell T) : LockFreeRing T :=
  { r with cells := Function.update r.cells (pos &&& r.mask) c }

def capacity (r : LockFreeRing T) : ℕ := r.mask + 1

end LockFreeRing

/-! ### Claims -/

/-- A successful CAS on `tail_`: by whom, for which item, and has its `try_push` returned? -/
structure TailClaim (ι T : Type*) where
  thread : ι
  item : T
  returned : Bool

/-- A successful CAS on `head_`: by whom, the value moved out of the cell, and has its `try_pop`
released the cell and returned? -/
structure HeadClaim (ι T : Type*) where
  thread : ι
  out : Option T
  returned : Bool

/-- A ring, the claims made on it, and what has been returned: the items whose `try_push` returned
true and the values of the `try_pop`s that returned true, in order of return. -/
structure Core (ι T : Type*) where
  ring : LockFreeRing T
  tailClaims : List (TailClaim ι T)
  headClaims : List (HeadClaim ι T)
  pushed : List T
  popped : List T

def LockFreeRing.unused {ι T : Type*} (ring : LockFreeRing T) : Core ι T := ⟨ring, [], [], [], []⟩

namespace Core

variable {ι T : Type*} (c : Core ι T)

def setSeq (pos seq : ℕ) : Core ι T :=
  { c with ring := c.ring.setCell pos { c.ring.cell pos with seq } }

def setData (pos : ℕ) (data : T) : Core ι T :=
  { c with ring := c.ring.setCell pos { c.ring.cell pos with data } }

def claimTail (t : ι) (item : T) (pos : ℕ) : Core ι T :=
  { c with
    ring := { c.ring with tail := word (pos + 1) }
    tailClaims := c.tailClaims ++ [⟨t, item, false⟩] }

def claimHead (t : ι) (pos : ℕ) : Core ι T :=
  { c with
    ring := { c.ring with head := word (pos + 1) }
    headClaims := c.headClaims ++ [⟨t, none, false⟩] }

def publish (pos : ℕ) (item : T) : Core ι T :=
  { c.setSeq pos (word (pos + 1)) with
    tailClaims := c.tailClaims.modify pos fun k => { k with returned := true }
    pushed := c.pushed ++ [item] }

/-- `out = std::move(cell.data)`, which leaves `residue` in the cell. -/
def take (pos : ℕ) (residue : T) : Core ι T :=
  { c.setData pos residue with
    headClaims := c.headClaims.modify pos fun k => { k with out := some (c.ring.cell pos).data } }

def release (pos : ℕ) (out : T) : Core ι T :=
  { c.setSeq pos (word (pos + c.ring.mask + 1)) with
    headClaims := c.headClaims.modify pos fun k => { k with returned := true }
    popped := c.popped ++ [out] }

end Core

/-! ### `try_push` and `try_pop` -/

/-- Where a thread is in `try_push`. -/
inductive PushPc where
  | load
  | loadSeq (pos : ℕ)
  | cas (pos : ℕ)
  | move (pos : ℕ)
  | publish (pos : ℕ)
  deriving DecidableEq

/-- Where a thread is in `try_pop`. -/
inductive PopPc (T : Type*) where
  | load
  | loadSeq (pos : ℕ)
  | cas (pos : ℕ)
  | move (pos : ℕ)
  | clear (pos : ℕ) (out : T)
  | publish (pos : ℕ) (out : T)
  deriving DecidableEq

section Steps

variable {ι T : Type*}

/-- One step of `try_push(item)`: it goes on, or returns. -/
def pushStep (t : ι) (item : T) (spurious : Bool) (c : Core ι T) :
    PushPc → Core ι T × (PushPc ⊕ Bool)
  | .load => (c, .inl (.loadSeq c.ring.tail))
  | .loadSeq pos =>
    (c, if diff (c.ring.cell pos).seq pos = 0 then .inl (.cas pos)
      else if diff (c.ring.cell pos).seq pos < 0 then .inr false
      else .inl .load)
  | .cas pos =>
    if c.ring.tail = pos ∧ spurious = false then (c.claimTail t item pos, .inl (.move pos))
    else (c, .inl (.loadSeq c.ring.tail))
  | .move pos => (c.setData pos item, .inl (.publish pos))
  | .publish pos => (c.publish pos item, .inr true)

/-- One step of `try_pop(out)`: it goes on, or returns what it has popped. -/
def popStep [Inhabited T] (t : ι) (spurious : Bool) (residue : T) (c : Core ι T) :
    PopPc T → Core ι T × (PopPc T ⊕ Option T)
  | .load => (c, .inl (.loadSeq c.ring.head))
  | .loadSeq pos =>
    (c, if diff (c.ring.cell pos).seq (word (pos + 1)) = 0 then .inl (.cas pos)
      else if diff (c.ring.cell pos).seq (word (pos + 1)) < 0 then .inr none
      else .inl .load)
  | .cas pos =>
    if c.ring.head = pos ∧ spurious = false then (c.claimHead t pos, .inl (.move pos))
    else (c, .inl (.loadSeq c.ring.head))
  | .move pos => (c.take pos residue, .inl (.clear pos (c.ring.cell pos).data))
  | .clear pos out => (c.setData pos default, .inl (.publish pos out))
  | .publish pos out => (c.release pos out, .inr (some out))

/-- Where a thread is, as far as the ring goes. -/
inductive RingPc (T : Type*) where
  | idle
  | push (item : T) (p : PushPc)
  | pop (p : PopPc T)

/-- One step of a thread inside one of the two functions. -/
def ringStep [Inhabited T] (t : ι) (spurious : Bool) (residue : T) (c : Core ι T) :
    RingPc T → Option (Core ι T × RingPc T)
  | .idle => none
  | .push item p =>
    some ((pushStep t item spurious c p).1,
      (pushStep t item spurious c p).2.elim (.push item) fun _ => .idle)
  | .pop p =>
    some ((popStep t spurious residue c p).1,
      (popStep t spurious residue c p).2.elim .pop fun _ => .idle)

end Steps

/-! ### Any threads on one ring -/

structure RingState (ι T : Type*) where
  core : Core ι T
  pc : ι → RingPc T

inductive RingAct (ι T : Type*) where
  | tryPush (t : ι) (item : T)
  | tryPop (t : ι)
  | step (t : ι) (spurious : Bool) (residue : T)

/-- The machine of a ring made by `LockFreeRing(minCapacity)`. -/
def ringMachine (ι : Type*) {T : Type*} [DecidableEq ι] [Inhabited T] (minCapacity : ℕ) :
    Machine (RingState ι T) (RingAct ι T) where
  init s := ∃ r, LockFreeRing.make minCapacity = some r ∧ s = ⟨r.unused, fun _ => .idle⟩
  step s
    | .tryPush t item =>
      match s.pc t with
      | .idle => some { s with pc := Function.update s.pc t (.push item .load) }
      | _ => none
    | .tryPop t =>
      match s.pc t with
      | .idle => some { s with pc := Function.update s.pc t (.pop .load) }
      | _ => none
    | .step t spurious residue =>
      (ringStep t spurious residue s.core (s.pc t)).map fun r =>
        ⟨r.1, Function.update s.pc t r.2⟩

/-! ### The constructor -/

namespace LockFreeRing

theorem growCap_eq {m : ℕ} (hm : m ≤ 2 ^ 63) : ∀ (fuel j : ℕ), j + fuel = 65 → j ≤ 63 →
    (∀ i < j, 2 ^ i < m) → growCap m fuel (2 ^ j) = some (2 ^ Nat.clog 2 m) := by
  intro fuel
  induction fuel with
  | zero => omega
  | succ fuel ih =>
    intro j hj hj63 hlt
    rw [growCap]
    by_cases h : 2 ^ j < m
    · have hj' : j ≠ 63 := by
        rintro rfl
        omega
      have hw : word (2 ^ j <<< 1) = 2 ^ (j + 1) := by
        rw [Nat.shiftLeft_eq, ← pow_succ, word]
        exact Nat.mod_eq_of_lt (Nat.pow_lt_pow_right (by omega) (by omega))
      rw [if_pos h, hw]
      refine ih (j + 1) (by omega) (by omega) fun i hi => ?_
      rcases Nat.lt_succ_iff_lt_or_eq.mp hi with hi | rfl
      · exact hlt i hi
      · exact h
    · rw [if_neg h]
      congr 2
      refine le_antisymm ?_ ((Nat.clog_le_iff_le_pow (by omega)).mpr (by omega))
      by_contra hcon
      have h1 := hlt (Nat.clog 2 m) (by omega)
      have h2 := Nat.le_pow_clog (by omega : 1 < 2) m
      omega

/-- **The constructor returns, with the least power of two that is large enough.** -/
theorem make_eq {T : Type*} [Inhabited T] {m : ℕ} (hm : m ≤ 2 ^ 63) :
    make m = some (⟨fun i => ⟨i, default⟩, 2 ^ Nat.clog 2 m - 1, 0, 0⟩ : LockFreeRing T) := by
  rw [make, show (1 : ℕ) = 2 ^ 0 from rfl, growCap_eq hm 65 0 rfl (by omega) (by omega)]
  rfl

theorem growCap_none {m : ℕ} (hm : 2 ^ 63 < m) : ∀ (fuel cap : ℕ),
    (cap = 0 ∨ ∃ j ≤ 63, cap = 2 ^ j) → growCap m fuel cap = none := by
  intro fuel
  induction fuel with
  | zero => exact fun _ _ => rfl
  | succ fuel ih =>
    intro cap hcap
    have hlt : cap < m := by
      rcases hcap with rfl | ⟨j, hj, rfl⟩
      · omega
      · exact lt_of_le_of_lt (Nat.pow_le_pow_right (by omega) hj) hm
    rw [growCap, if_pos hlt]
    apply ih
    rcases hcap with rfl | ⟨j, hj, rfl⟩
    · exact .inl rfl
    · rw [Nat.shiftLeft_eq, ← pow_succ, word]
      rcases Nat.lt_or_eq_of_le hj with hj | rfl
      · exact .inr ⟨j + 1, hj, Nat.mod_eq_of_lt (Nat.pow_lt_pow_right (by omega) (by omega))⟩
      · exact .inl rfl

theorem le_of_make {T : Type*} [Inhabited T] {m : ℕ} {r : LockFreeRing T} (h : make m = some r) :
    m ≤ 2 ^ 63 := by
  by_contra hm
  rw [make, growCap_none (by omega) 65 1 (.inr ⟨0, by omega, rfl⟩)] at h
  cases h

end LockFreeRing

/-! ### One cell at a time -/

theorem diff_eq_zero {a b : ℕ} (ha : a < 2 ^ 64) (hb : b < 2 ^ 64) : diff a b = 0 ↔ a = b := by
  unfold diff
  rw [← Int.dvd_iff_bmod_eq_zero]
  omega

theorem word_of_lt {x : ℕ} (h : x < 2 ^ 64) : word x = x := Nat.mod_eq_of_lt h

namespace LockFreeRing

variable {T : Type*} {r : LockFreeRing T} {p q : ℕ} {x : Cell T}

@[simp] theorem setCell_mask : (r.setCell p x).mask = r.mask := rfl
@[simp] theorem setCell_tail : (r.setCell p x).tail = r.tail := rfl
@[simp] theorem setCell_head : (r.setCell p x).head = r.head := rfl
@[simp] theorem setCell_capacity : (r.setCell p x).capacity = r.capacity := rfl

@[simp] theorem cell_setCell_self : (r.setCell p x).cell p = x := by simp [cell, setCell]

theorem cell_setCell_of_ne (h : q &&& r.mask ≠ p &&& r.mask) :
    (r.setCell p x).cell q = r.cell q := by
  simp [cell, setCell, h]

theorem index_eq_mod (hr : ∃ k, r.capacity = 2 ^ k) : p &&& r.mask = p % r.capacity := by
  obtain ⟨k, hk⟩ := hr
  have : r.mask = 2 ^ k - 1 := by rw [← hk]; rfl
  rw [this, Nat.and_two_pow_sub_one_eq_mod, hk]

theorem index_inj (hr : ∃ k, r.capacity = 2 ^ k) (h : p &&& r.mask = q &&& r.mask)
    (h1 : p < q + r.capacity) (h2 : q < p + r.capacity) : p = q := by
  rw [index_eq_mod hr, index_eq_mod hr] at h
  obtain h3 | h3 := Nat.le_total p q
  · have h0 := Nat.sub_mod_eq_zero_of_mod_eq h.symm
    rw [Nat.mod_eq_of_lt (by omega)] at h0
    omega
  · have h0 := Nat.sub_mod_eq_zero_of_mod_eq h
    rw [Nat.mod_eq_of_lt (by omega)] at h0
    omega

theorem cell_add_capacity (hr : ∃ k, r.capacity = 2 ^ k) : r.cell (p + r.capacity) = r.cell p := by
  rw [cell, cell, index_eq_mod hr, index_eq_mod hr, Nat.add_mod_right]

end LockFreeRing

end OrderRisk.Queue
