import Mathlib.Data.Finset.Basic
import Mathlib.Algebra.BigOperators.Group.Finset.Basic
import Mathlib.Algebra.BigOperators.Group.Finset.Piecewise
import Mathlib.Algebra.BigOperators.Ring.Finset
import Mathlib.Algebra.Order.BigOperators.Group.Finset
import Mathlib.Data.Fintype.BigOperators
import Mathlib.Tactic.Linarith
import Mathlib.Tactic.Ring

/-!
# Machines that take one atomic step at a time

A `Machine` is a set of initial states and a partial step function on labels; an interleaving of
threads is a list of labels.  `Within C` are the states reached by runs all of whose steps meet
the condition `C`, and `Within.invariant` is the one induction every safety result goes through.

The second half counts threads: a shared counter that equals the number of threads in a region
of their code stays equal to it when one thread moves (`weight_update`).
-/

namespace OrderRisk.Lib

/-- A machine: the states it may start in, and what one labelled step does (`none`: the step is
not enabled). -/
structure Machine (σ α : Type*) where
  init : σ → Prop
  step : σ → α → Option σ

namespace Machine

variable {σ α τ β : Type*} (M : Machine σ α)

/-- Take the steps of a schedule in order. -/
def exec (s : σ) : List α → Option σ
  | [] => some s
  | a :: as => (M.step s a).bind fun s' => exec s' as

/-- Every step of the schedule, started in `s`, meets `C` in the state it is taken in. -/
def Meets (C : σ → α → Prop) (s : σ) : List α → Prop
  | [] => True
  | a :: as => C s a ∧ ∀ s' ∈ M.step s a, Meets C s' as

instance decidableMeets (C : σ → α → Prop) [∀ s a, Decidable (C s a)] :
    ∀ (as : List α) (s : σ), Decidable (M.Meets C s as)
  | [], _ => inferInstanceAs (Decidable True)
  | a :: as, s =>
    have : DecidablePred fun s' => M.Meets C s' as := fun s' => decidableMeets C as s'
    inferInstanceAs (Decidable (C s a ∧ ∀ s' ∈ M.step s a, M.Meets C s' as))

/-- The states of the runs all of whose steps meet `C`. -/
inductive Within (C : σ → α → Prop) : σ → Prop
  | init {s : σ} : M.init s → Within C s
  | step {s s' : σ} {a : α} : Within C s → C s a → M.step s a = some s' → Within C s'

/-- The states of all runs. -/
abbrev Reachable : σ → Prop := M.Within fun _ _ => True

variable {M}

/-- **The invariant rule.** -/
theorem Within.invariant {C : σ → α → Prop} {P : σ → Prop} (h0 : ∀ s, M.init s → P s)
    (hstep : ∀ s a s', P s → C s a → M.step s a = some s' → P s') {s : σ} (h : M.Within C s) :
    P s := by
  induction h with
  | init hi => exact h0 _ hi
  | step _ hc hs ih => exact hstep _ _ _ ih hc hs

theorem Within.mono {C D : σ → α → Prop} (hCD : ∀ s a, C s a → D s a) {s : σ}
    (h : M.Within C s) : M.Within D s := by
  induction h with
  | init hi => exact .init hi
  | step _ hc hs ih => exact .step ih (hCD _ _ hc) hs

theorem Within.reachable {C : σ → α → Prop} {s : σ} (h : M.Within C s) : M.Reachable s :=
  h.mono fun _ _ _ => trivial

/-- A step back is still in the run: what holds backwards along steps holds in every state
before. -/
theorem Within.invariant_of_mono {C : σ → α → Prop} {B P : σ → Prop}
    (hB : ∀ s a s', M.step s a = some s' → B s' → B s) (h0 : ∀ s, M.init s → P s)
    (hstep : ∀ s a s', P s → C s a → M.step s a = some s' → B s' → P s') {s : σ}
    (h : M.Within C s) : B s → P s := by
  induction h with
  | init hi => exact fun _ => h0 _ hi
  | step _ hc hs ih => exact fun hb => hstep _ _ _ (ih (hB _ _ _ hs hb)) hc hs hb

theorem Within.exec {C : σ → α → Prop} : ∀ {as : List α} {s s' : σ}, M.Within C s →
    M.Meets C s as → M.exec s as = some s' → M.Within C s'
  | [], s, s', h, _, he => by
    cases he
    exact h
  | a :: as, s, s', h, hm, he => by
    obtain ⟨m, hm1, hm2⟩ := Option.bind_eq_some_iff.mp he
    exact Within.exec (.step h hm.1 hm1) (hm.2 m hm1) hm2

theorem meets_true : ∀ (as : List α) (s : σ), M.Meets (fun _ _ => True) s as
  | [], _ => trivial
  | _ :: as, _ => ⟨trivial, fun s' _ => meets_true as s'⟩

theorem meets_of_forall {C : σ → α → Prop} : ∀ {as : List α} {s : σ}, (∀ a ∈ as, ∀ s, C s a) →
    M.Meets C s as
  | [], _, _ => trivial
  | _ :: _, _, h => ⟨h _ (by simp) _, fun _ _ => meets_of_forall fun a ha => h a (by simp [ha])⟩

theorem Meets.mono {C D : σ → α → Prop} (hCD : ∀ s a, C s a → D s a) : ∀ {as : List α} {s : σ},
    M.Meets C s as → M.Meets D s as
  | [], _, _ => trivial
  | _ :: _, _, h => ⟨hCD _ _ h.1, fun s' hs => Meets.mono hCD (h.2 s' hs)⟩

theorem Reachable.of_exec {s s' : σ} {as : List α} (h : M.init s) (he : M.exec s as = some s') :
    M.Reachable s' :=
  Within.exec (.init h) (meets_true as s) he

theorem exec_append {s : σ} {as bs : List α} :
    M.exec s (as ++ bs) = (M.exec s as).bind fun s' => M.exec s' bs := by
  induction as generalizing s with
  | nil => rfl
  | cons a as ih =>
    simp only [List.cons_append, Machine.exec]
    cases M.step s a with
    | none => rfl
    | some s' => simpa using ih

theorem exec_append_some {s m s' : σ} {as bs : List α} (h1 : M.exec s as = some m)
    (h2 : M.exec m bs = some s') : M.exec s (as ++ bs) = some s' := by
  rw [exec_append, h1]
  exact h2

theorem exec_invariant {P : σ → Prop} (hstep : ∀ s a s', P s → M.step s a = some s' → P s') :
    ∀ {as : List α} {s s' : σ}, P s → M.exec s as = some s' → P s'
  | [], s, s', h, he => by
    cases he
    exact h
  | a :: as, s, s', h, he => by
    obtain ⟨m, hm1, hm2⟩ := Option.bind_eq_some_iff.mp he
    exact exec_invariant hstep (hstep _ _ _ h hm1) hm2

/-- **Projection.**  If each step of `N` is, under `f`, a step of `M` or no step at all, then the
image of a reachable state is reachable. -/
theorem Within.project {N : Machine τ β} {C : τ → β → Prop} {f : τ → σ}
    (h0 : ∀ t, N.init t → M.init (f t))
    (hstep : ∀ t b t', N.Within C t → C t b → N.step t b = some t' →
      f t' = f t ∨ ∃ a, M.step (f t) a = some (f t')) {t : τ}
    (h : N.Within C t) : M.Reachable (f t) := by
  induction h with
  | init hi => exact .init (h0 _ hi)
  | step hw hc hs ih =>
    rcases hstep _ _ _ hw hc hs with he | ⟨a, ha⟩
    · rw [he]; exact ih
    · exact .step ih trivial ha

end Machine

/-! ### The threads of a fixed schedule -/

instance neZero_two : NeZero 2 := ⟨by decide⟩
instance neZero_three : NeZero 3 := ⟨by decide⟩

/-! ### Threads in a region of their code -/

section Weight

variable {ι κ : Type*} [Fintype ι]

/-- The number of threads whose program counter satisfies `p`. -/
def weight (p : κ → Bool) (pc : ι → κ) : ℤ := ∑ t, if p (pc t) then 1 else 0

theorem sum_update_add [DecidableEq ι] {M : Type*} [AddCommMonoid M] (f : κ → M) (pc : ι → κ)
    (t : ι) (k : κ) : ∑ u, f (Function.update pc t k u) + f (pc t) = ∑ u, f (pc u) + f k := by
  rw [← Finset.add_sum_erase _ (fun u => f (Function.update pc t k u)) (Finset.mem_univ t),
    ← Finset.add_sum_erase _ (fun u => f (pc u)) (Finset.mem_univ t)]
  have h : ∑ u ∈ Finset.univ.erase t, f (Function.update pc t k u) =
      ∑ u ∈ Finset.univ.erase t, f (pc u) :=
    Finset.sum_congr rfl fun u hu => by rw [Function.update_of_ne (Finset.ne_of_mem_erase hu)]
  rw [h, Function.update_self]
  ac_rfl

theorem weight_update [DecidableEq ι] (p : κ → Bool) (pc : ι → κ) (t : ι) (k : κ) :
    weight p (Function.update pc t k) =
      weight p pc - (if p (pc t) then 1 else 0) + (if p k then 1 else 0) := by
  have h := sum_update_add (fun k => if p k then (1 : ℤ) else 0) pc t k
  unfold weight
  linarith

theorem weight_nonneg (p : κ → Bool) (pc : ι → κ) : 0 ≤ weight p pc :=
  Finset.sum_nonneg fun t _ => by split <;> simp

theorem weight_pos {p : κ → Bool} {pc : ι → κ} {t : ι} (h : p (pc t) = true) :
    0 < weight p pc := by
  have h1 : (if p (pc t) then (1 : ℤ) else 0) ≤ weight p pc :=
    Finset.single_le_sum (f := fun u => if p (pc u) then (1 : ℤ) else 0)
      (fun u _ => by split <;> simp) (Finset.mem_univ t)
  rw [if_pos h] at h1
  omega

theorem exists_of_weight_pos {p : κ → Bool} {pc : ι → κ} (h : 0 < weight p pc) :
    ∃ t, p (pc t) = true := by
  by_contra hne
  push Not at hne
  have : weight p pc = 0 := Finset.sum_eq_zero fun t _ => by simp [hne t]
  omega

theorem weight_eq_zero {p : κ → Bool} {pc : ι → κ} :
    weight p pc = 0 ↔ ∀ t, p (pc t) = false := by
  constructor
  · intro h t
    by_contra ht
    have := weight_pos (p := p) (t := t) (by simpa using ht)
    omega
  · intro h
    exact Finset.sum_eq_zero fun t _ => by simp [h t]

theorem weight_mono {p q : κ → Bool} {pc pc' : ι → κ}
    (h : ∀ t, p (pc' t) = true → q (pc t) = true) : weight p pc' ≤ weight q pc := by
  refine Finset.sum_le_sum fun t _ => ?_
  by_cases ht : p (pc' t) = true
  · rw [if_pos ht, if_pos (h t ht)]
  · rw [if_neg ht]
    split <;> simp

theorem weight_add {p q : κ → Bool} {pc : ι → κ} (h : ∀ k, p k = true → q k = false) :
    weight p pc + weight q pc = weight (fun k => p k || q k) pc := by
  unfold weight
  rw [← Finset.sum_add_distrib]
  refine Finset.sum_congr rfl fun t _ => ?_
  cases hp : p (pc t) with
  | true => simp [hp, h _ hp]
  | false => simp [hp]

/-- Threads that hold different elements of a set are no more than there are. -/
theorem weight_le_card {β : Type*} {p : κ → Bool} {pc : ι → κ} {f : κ → β} {s : Finset β}
    (hf : ∀ t, p (pc t) = true → f (pc t) ∈ s)
    (hinj : ∀ t u, p (pc t) = true → p (pc u) = true → f (pc t) = f (pc u) → t = u) :
    weight p pc ≤ s.card := by
  have hcard : weight p pc = (Finset.univ.filter fun t => p (pc t) = true).card :=
    (Finset.natCast_card_filter _ _).symm
  rw [hcard, Nat.cast_le]
  refine Finset.card_le_card_of_injOn (fun t => f (pc t)) (fun t ht => ?_) fun t ht u hu he => ?_
  · exact hf t (by simpa using ht)
  · exact hinj t u (by simpa using ht) (by simpa using hu) he

end Weight

end OrderRisk.Lib
