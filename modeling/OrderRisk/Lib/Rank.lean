import Mathlib.Data.List.Sort
import Mathlib.Order.Defs.LinearOrder

/-!
# Ranks

`Ranked l i x`: `x` is what a sorted arrangement of `l` has at place `i`.  The definition speaks of
how many elements are below and not above `x`, so it does not depend on the arrangement; at each
place there is one such element (`ranked_unique`), and they grow with the place (`ranked_mono`).
-/

namespace OrderRisk.Lib

section

variable {α : Type*} [LinearOrder α]

/-- At most `i` elements are below `x`, and more than `i` are not above it. -/
structure Ranked (l : List α) (i : ℕ) (x : α) : Prop where
  below : l.countP (fun y => decide (y < x)) ≤ i
  upTo : i < l.countP fun y => decide (y ≤ x)

variable {l l' : List α} {i j : ℕ} {x y : α}

theorem Ranked.perm (h : Ranked l i x) (hp : l.Perm l') : Ranked l' i x :=
  ⟨hp.countP_eq _ ▸ h.below, hp.countP_eq _ ▸ h.upTo⟩

theorem ranked_mono (hx : Ranked l i x) (hy : Ranked l j y) (h : i ≤ j) : x ≤ y := by
  by_contra hlt
  rw [not_le] at hlt
  have hle : (l.countP fun z => decide (z ≤ y)) ≤ l.countP fun z => decide (z < x) := by
    refine List.countP_mono_left fun z _ hz => ?_
    rw [decide_eq_true_eq] at hz ⊢
    exact hz.trans_lt hlt
  have := hx.below
  have := hy.upTo
  omega

theorem ranked_unique (hx : Ranked l i x) (hy : Ranked l i y) : x = y :=
  le_antisymm (ranked_mono hx hy le_rfl) (ranked_mono hy hx le_rfl)

theorem getElem_le_getElem (h : l.Pairwise (· ≤ ·)) (hj : j < l.length) (hij : i ≤ j) :
    l[i] ≤ l[j] := by
  rcases hij.eq_or_lt with rfl | hlt
  · exact le_rfl
  · exact List.pairwise_iff_getElem.mp h i j (hij.trans_lt hj) hj hlt

/-- The place of a sorted list. -/
theorem ranked_getElem (h : l.Pairwise (· ≤ ·)) (hi : i < l.length) : Ranked l i l[i] := by
  constructor
  · -- what is below is before the place
    have hdrop : (l.drop i).countP (fun y => decide (y < l[i])) = 0 := by
      rw [List.countP_eq_zero]
      intro y hy
      rw [decide_eq_true_eq, not_lt]
      obtain ⟨k, hk, rfl⟩ := List.mem_iff_getElem.mp hy
      rw [List.getElem_drop]
      rw [List.length_drop] at hk
      exact getElem_le_getElem h (by omega) (Nat.le_add_right i k)
    calc l.countP (fun y => decide (y < l[i]))
        = (l.take i ++ l.drop i).countP fun y => decide (y < l[i]) := by rw [List.take_append_drop]
      _ = (l.take i).countP fun y => decide (y < l[i]) := by rw [List.countP_append, hdrop, Nat.add_zero]
      _ ≤ (l.take i).length := List.countP_le_length
      _ ≤ i := List.length_take_le i l
  · -- everything up to the place is not above
    have htake : (l.take (i + 1)).countP (fun y => decide (y ≤ l[i])) = (l.take (i + 1)).length := by
      rw [List.countP_eq_length]
      intro y hy
      rw [decide_eq_true_eq]
      obtain ⟨k, hk, rfl⟩ := List.mem_iff_getElem.mp hy
      rw [List.getElem_take]
      rw [List.length_take] at hk
      exact getElem_le_getElem h hi (by omega)
    calc i < (l.take (i + 1)).length := by rw [List.length_take]; omega
      _ = (l.take (i + 1)).countP fun y => decide (y ≤ l[i]) := htake.symm
      _ ≤ l.countP fun y => decide (y ≤ l[i]) := (List.take_sublist _ _).countP_le

theorem Ranked.le (h : Ranked l 0 x) (hy : y ∈ l) : x ≤ y := by
  by_contra hlt
  have := List.countP_eq_zero.mp (Nat.le_zero.mp h.below) y hy
  exact this (by simpa using hlt)

theorem Ranked.ge (h : Ranked l (l.length - 1) x) (hy : y ∈ l) : y ≤ x := by
  have hle := List.countP_le_length (p := fun y => decide (y ≤ x)) (l := l)
  have hpos := List.length_pos_of_mem hy
  have := h.upTo
  have hall := List.countP_eq_length.mp (le_antisymm hle (by omega)) y hy
  rwa [decide_eq_true_eq] at hall

theorem Ranked.mem (h : Ranked l i x) : x ∈ l := by
  by_contra hx
  have : (l.countP fun y => decide (y ≤ x)) ≤ l.countP fun y => decide (y < x) := by
    refine List.countP_mono_left fun y hy h => ?_
    rw [decide_eq_true_eq] at h ⊢
    exact lt_of_le_of_ne h fun he => hx (he ▸ hy)
  have := h.below
  have := h.upTo
  omega

end

end OrderRisk.Lib
