import OrderRisk.Lib.Rank
import Mathlib.Algebra.Order.Floor.Semiring
import Mathlib.Data.Rat.Floor
import Mathlib.Tactic.NormNum
import Mathlib.Tactic.Linarith
import Mathlib.Algebra.Order.BigOperators.Group.List

/-!
# `computeLatencyStats`

The samples are exact numbers; what the arithmetic on doubles rounds to is a parameter, of which only
that it is monotone and exact on the whole numbers up to `2 ^ 53` is used.
-/

namespace OrderRisk.Harness

open OrderRisk.Lib

/-- The rounding of a double operation. -/
structure Rounding where
  round : ℚ → ℚ
  mono : Monotone round
  exact : ∀ n : ℕ, n ≤ 2 ^ 53 → round n = n

def Rounding.none : Rounding := ⟨id, monotone_id, fun _ _ => rfl⟩

structure LatencyStats where
  min : ℚ
  p50 : ℚ
  p99 : ℚ
  p999 : ℚ
  max : ℚ
  avg : ℚ
  deriving DecidableEq

variable (R : Rounding)

/-- `static_cast<size_t>(p * (samplesMicros.size() - 1))`. -/
def percentileIndex (size : ℕ) (p : ℚ) : ℕ :=
  ⌊R.round (R.round p * R.round (size - 1 : ℕ))⌋₊

/-- `pct`; `none`: the index is out of range. -/
def pct (sorted : List ℚ) (p : ℚ) : Option ℚ := sorted[percentileIndex R sorted.length p]?

/-- `computeLatencyStats`. -/
def computeLatencyStats (samplesMicros : List ℚ) : Option LatencyStats :=
  let sorted := samplesMicros.mergeSort
  if samplesMicros = [] then some ⟨0, 0, 0, 0, 0, 0⟩
  else do
    let min ← sorted.head?
    let max ← sorted.getLast?
    let p50 ← pct R sorted (1 / 2)
    let p99 ← pct R sorted (99 / 100)
    let p999 ← pct R sorted (999 / 1000)
    let sum := sorted.foldl (fun sum v => R.round (sum + v)) 0
    some ⟨min, p50, p99, p999, max, R.round (sum / R.round sorted.length)⟩

variable {R} {size : ℕ} {p q : ℚ} {samples samples' : List ℚ} {s s' : LatencyStats}

/-! ### The indices -/

theorem Rounding.nonneg (h : 0 ≤ p) : 0 ≤ R.round p := by
  have := R.mono h
  rwa [show R.round 0 = 0 by exact_mod_cast R.exact 0 (by norm_num)] at this

theorem Rounding.le_one (h : p ≤ 1) : R.round p ≤ 1 := by
  have := R.mono h
  rwa [show R.round 1 = 1 by exact_mod_cast R.exact 1 (by norm_num)] at this

theorem percentileIndex_mono (h : p ≤ q) : percentileIndex R size p ≤ percentileIndex R size q := by
  refine Nat.floor_mono (R.mono ?_)
  exact mul_le_mul_of_nonneg_right (R.mono h) (R.nonneg (Nat.cast_nonneg _))

theorem percentileIndex_le (hsize : size ≤ 2 ^ 53) (hp : p ≤ 1) :
    percentileIndex R size p ≤ size - 1 := by
  have hround := R.exact (size - 1) (by omega)
  refine Nat.floor_le_of_le ?_
  calc R.round (R.round p * R.round (size - 1 : ℕ))
      ≤ R.round (size - 1 : ℕ) := by
        refine R.mono ?_
        rw [hround]
        exact mul_le_of_le_one_left (Nat.cast_nonneg _) (R.le_one hp)
    _ = (size - 1 : ℕ) := hround

/-! ### The statistics -/

theorem pairwise_sorted (l : List ℚ) : l.mergeSort.Pairwise (· ≤ ·) :=
  List.pairwise_mergeSort' _ l

theorem pct_ranked (hne : samples ≠ []) (hsize : samples.length ≤ 2 ^ 53) (hp : p ≤ 1) :
    ∃ x, pct R samples.mergeSort p = some x ∧
      Ranked samples (percentileIndex R samples.length p) x := by
  have hlen : samples.mergeSort.length = samples.length := List.length_mergeSort _
  have hlt : percentileIndex R samples.length p < samples.mergeSort.length := by
    have hidx : percentileIndex R samples.length p ≤ samples.length - 1 :=
      percentileIndex_le hsize hp
    have := List.length_pos_iff.mpr hne
    omega
  refine ⟨_, ?_, (ranked_getElem (pairwise_sorted samples) hlt).perm (List.mergeSort_perm _ _)⟩
  rw [pct, hlen, List.getElem?_eq_getElem hlt]

/-- What the statistics are: the samples at five places, whatever the arrangement, and the mean. -/
structure Describes (R : Rounding) (samples : List ℚ) (s : LatencyStats) : Prop where
  min : Ranked samples 0 s.min
  p50 : Ranked samples (percentileIndex R samples.length (1 / 2)) s.p50
  p99 : Ranked samples (percentileIndex R samples.length (99 / 100)) s.p99
  p999 : Ranked samples (percentileIndex R samples.length (999 / 1000)) s.p999
  max : Ranked samples (samples.length - 1) s.max
  avg : R = .none → s.avg = samples.sum / samples.length

theorem foldl_none (l : List ℚ) (x : ℚ) :
    l.foldl (fun sum v => Rounding.none.round (sum + v)) x = x + l.sum := by
  induction l generalizing x with
  | nil => simp
  | cons v l ih =>
    rw [List.foldl_cons, ih, List.sum_cons, ← add_assoc]
    rfl

/-- No index is out of range, and each statistic is what it is called. -/
theorem exists_describes (hne : samples ≠ []) (hsize : samples.length ≤ 2 ^ 53) :
    ∃ s, computeLatencyStats R samples = some s ∧ Describes R samples s := by
  have hperm := List.mergeSort_perm samples (fun a b => decide (a ≤ b))
  have hlen : samples.mergeSort.length = samples.length := List.length_mergeSort _
  have hpos := List.length_pos_iff.mpr hne
  obtain ⟨p50, h50, hr50⟩ := pct_ranked (R := R) hne hsize (by norm_num : (1 / 2 : ℚ) ≤ 1)
  obtain ⟨p99, h99, hr99⟩ := pct_ranked (R := R) hne hsize (by norm_num : (99 / 100 : ℚ) ≤ 1)
  obtain ⟨p999, h999, hr999⟩ := pct_ranked (R := R) hne hsize (by norm_num : (999 / 1000 : ℚ) ≤ 1)
  have hsorted := pairwise_sorted samples
  have hfirst : 0 < samples.mergeSort.length := by omega
  have hlast : samples.length - 1 < samples.mergeSort.length := by omega
  obtain ⟨min, hmin, hrmin⟩ : ∃ x, samples.mergeSort.head? = some x ∧ Ranked samples 0 x :=
    ⟨samples.mergeSort[0], List.head?_eq_getElem?.trans (List.getElem?_eq_getElem _),
      (ranked_getElem hsorted _).perm hperm⟩
  obtain ⟨max, hmax, hrmax⟩ : ∃ x, samples.mergeSort.getLast? = some x ∧
      Ranked samples (samples.length - 1) x := by
    have he := List.getLast?_eq_getElem? (l := samples.mergeSort)
    rw [hlen] at he
    exact ⟨samples.mergeSort[samples.length - 1], he.trans (List.getElem?_eq_getElem _),
      (ranked_getElem hsorted _).perm hperm⟩
  refine ⟨⟨min, p50, p99, p999, max, R.round (samples.mergeSort.foldl (fun sum v => R.round (sum + v)) 0 /
    R.round samples.length)⟩, ?_, hrmin, hr50, hr99, hr999, hrmax, ?_⟩
  · rw [computeLatencyStats, if_neg hne, hmin, hmax, h50, h99, h999, hlen]
    rfl
  · rintro rfl
    rw [foldl_none, zero_add, hperm.sum_eq]
    rfl

theorem Describes.ordered (h : Describes R samples s) (hsize : samples.length ≤ 2 ^ 53) :
    (s.min ≤ s.p50 ∧ s.p50 ≤ s.p99 ∧ s.p99 ≤ s.p999 ∧ s.p999 ≤ s.max) ∧
      (∀ x ∈ samples, s.min ≤ x ∧ x ≤ s.max) ∧
      ∀ x ∈ [s.min, s.p50, s.p99, s.p999, s.max], x ∈ samples := by
  refine ⟨⟨ranked_mono h.min h.p50 (Nat.zero_le _), ranked_mono h.p50 h.p99 ?_,
    ranked_mono h.p99 h.p999 ?_, ranked_mono h.p999 h.max ?_⟩, fun x hx => ⟨h.min.le hx, h.max.ge hx⟩,
    ?_⟩
  · exact percentileIndex_mono (by norm_num)
  · exact percentileIndex_mono (by norm_num)
  · exact percentileIndex_le hsize (by norm_num)
  · simp [h.min.mem, h.p50.mem, h.p99.mem, h.p999.mem, h.max.mem]

theorem Describes.perm (h : Describes R samples s) (hp : samples.Perm samples') :
    Describes R samples' s := by
  have hlen := hp.length_eq
  refine ⟨h.min.perm hp, hlen ▸ h.p50.perm hp, hlen ▸ h.p99.perm hp, hlen ▸ h.p999.perm hp,
    hlen ▸ h.max.perm hp, fun hR => ?_⟩
  rw [h.avg hR, hp.sum_eq, hlen]

theorem Describes.unique (h : Describes R samples s) (h' : Describes R samples s') :
    s' = { s with avg := s'.avg } := by
  rw [ranked_unique h.min h'.min, ranked_unique h.p50 h'.p50, ranked_unique h.p99 h'.p99,
    ranked_unique h.p999 h'.p999, ranked_unique h.max h'.max]

end OrderRisk.Harness
