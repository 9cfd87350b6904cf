import Mathlib.Data.List.Basic
import Mathlib.Data.List.Induction
import Mathlib.Logic.Function.Basic
import Mathlib.Tactic.Common

/-!
# Writes to a map, one after the other

A write has a key, or none if it is void; the last write of a key wins.  A write between others is
`Idle` if it makes no difference there, and two runs that differ in one place lead to the same map
exactly when what differs is idle (`final_insert_iff`, `final_retag_iff`, `final_split_iff`).
-/

namespace OrderRisk.Lib

variable {κ ν : Type*} [DecidableEq κ]

abbrev Write (κ ν : Type*) := Option κ × ν

def put (m : κ → Option ν) (w : Write κ ν) : κ → Option ν :=
  match w.1 with
  | none => m
  | some k => Function.update m k (some w.2)

def final (ws : List (Write κ ν)) : κ → Option ν := ws.foldl put fun _ => none

omit [DecidableEq κ] in
/-- One of the writes has key `k`. -/
def Writes (ws : List (Write κ ν)) (k : κ) : Prop := ∃ w ∈ ws, w.1 = some k

/-- Between `ws` and `ws'`, the write makes no difference: it is void, a later one has its key, or
the value stands there already. -/
def Idle (ws ws' : List (Write κ ν)) (w : Write κ ν) : Prop :=
  ∀ k, w.1 = some k → Writes ws' k ∨ final ws k = some w.2

variable {ws ws' l l' : List (Write κ ν)} {w : Write κ ν} {k : κ}

theorem put_of_ne {m : κ → Option ν} (h : w.1 ≠ some k) : put m w k = m k := by
  obtain ⟨_ | j, v⟩ := w
  · rfl
  · refine Function.update_of_ne ?_ _ _
    rintro rfl
    exact h rfl

theorem put_self {m : κ → Option ν} (h : w.1 = some k) : put m w k = some w.2 := by
  simp [put, h]

omit [DecidableEq κ] in
@[simp] theorem writes_nil : ¬ Writes ([] : List (Write κ ν)) k := by simp [Writes]

omit [DecidableEq κ] in
theorem writes_cons : Writes (w :: ws) k ↔ w.1 = some k ∨ Writes ws k := by simp [Writes]

/-! ### The last write wins -/

theorem foldl_put_of_writes (h : Writes ws k) (m m' : κ → Option ν) :
    ws.foldl put m k = ws.foldl put m' k := by
  induction ws using List.reverseRecOn with
  | nil => exact absurd h writes_nil
  | append_singleton ws w ih =>
    rw [List.foldl_append, List.foldl_append, List.foldl_cons, List.foldl_nil, List.foldl_cons,
      List.foldl_nil]
    by_cases hw : w.1 = some k
    · rw [put_self hw, put_self hw]
    · obtain ⟨v, hv, hk⟩ := h
      rw [put_of_ne hw, put_of_ne hw]
      refine ih ⟨v, ?_, hk⟩
      rcases List.mem_append.mp hv with hv | hv
      · exact hv
      · rw [List.mem_singleton.mp hv] at hk
        exact absurd hk hw

theorem foldl_put_of_not_writes (h : ¬ Writes ws k) (m : κ → Option ν) :
    ws.foldl put m k = m k := by
  induction ws generalizing m with
  | nil => rfl
  | cons w ws ih =>
    rw [writes_cons, not_or] at h
    rw [List.foldl_cons, ih h.2, put_of_ne h.1]

theorem final_append_of_writes (h : Writes ws' k) : final (ws ++ ws') k = final ws' k := by
  rw [final, List.foldl_append]
  exact foldl_put_of_writes h _ _

theorem final_append_of_not_writes (h : ¬ Writes ws' k) : final (ws ++ ws') k = final ws k := by
  rw [final, List.foldl_append]
  exact foldl_put_of_not_writes h _

theorem final_concat_self (h : w.1 = some k) : final (ws ++ [w]) k = some w.2 := by
  rw [final, List.foldl_append]
  exact put_self h

theorem final_concat_of_ne (h : w.1 ≠ some k) : final (ws ++ [w]) k = final ws k := by
  rw [final, List.foldl_append]
  exact put_of_ne h

theorem final_append_inj : final (l ++ ws) = final (l' ++ ws) ↔
    ∀ k, Writes ws k ∨ final l k = final l' k := by
  constructor
  · intro h k
    by_cases hk : Writes ws k
    · exact .inl hk
    · have := congrFun h k
      rw [final_append_of_not_writes hk, final_append_of_not_writes hk] at this
      exact .inr this
  · intro h
    funext k
    by_cases hk : Writes ws k
    · rw [final_append_of_writes hk, final_append_of_writes hk]
    · rw [final_append_of_not_writes hk, final_append_of_not_writes hk]
      exact (h k).resolve_left hk

/-! ### Runs that differ in one place -/

theorem final_insert_iff : final (ws ++ w :: ws') = final (ws ++ ws') ↔ Idle ws ws' w := by
  have e : ws ++ w :: ws' = (ws ++ [w]) ++ ws' := by simp
  rw [e, final_append_inj]
  constructor
  · intro h k hk
    refine (h k).imp_right fun hf => ?_
    rw [final_concat_self hk] at hf
    exact hf.symm
  · intro h k
    by_cases hk : w.1 = some k
    · refine (h k hk).imp_right fun hf => ?_
      rw [final_concat_self hk, hf]
    · exact .inr (final_concat_of_ne hk)

/-- The same value under another key. -/
theorem final_retag_iff {t t' : Option κ} {v : ν} :
    final (ws ++ (t, v) :: ws') = final (ws ++ (t', v) :: ws') ↔
      t = t' ∨ Idle ws ws' (t, v) ∧ Idle ws ws' (t', v) := by
  have e : ∀ w : Write κ ν, ws ++ w :: ws' = (ws ++ [w]) ++ ws' := fun w => by simp
  rw [e, e, final_append_inj]
  constructor
  · intro h
    by_cases ht : t = t'
    · exact .inl ht
    · refine .inr ⟨fun k hk => (h k).imp_right fun hf => ?_, fun k hk => (h k).imp_right fun hf => ?_⟩
      · have hne : (t', v).1 ≠ some k := fun hk' => ht (hk.trans hk'.symm)
        rw [final_concat_self hk, final_concat_of_ne hne] at hf
        exact hf.symm
      · have hne : (t, v).1 ≠ some k := fun hk' => ht (hk'.trans hk.symm)
        rw [final_concat_self hk, final_concat_of_ne hne] at hf
        exact hf
  · rintro (rfl | ⟨h1, h2⟩) k
    · exact .inr rfl
    · rw [← final_insert_iff, e, final_append_inj] at h1 h2
      rcases h1 k with hw | h1
      · exact .inl hw
      · exact (h2 k).imp_right fun h2 => h1.trans h2.symm

/-- A key gets another value, and the write behind it is new. -/
theorem final_split_iff {t t' : Option κ} {v v' : ν} :
    final (ws ++ (t, v') :: (t', v) :: ws') = final (ws ++ (t, v) :: ws') ↔
      t = t' ∨ Idle ws ws' (t', v) ∧ (v' = v ∨ ∀ k, t = some k → Writes ws' k) := by
  have e : ws ++ (t, v') :: (t', v) :: ws' = (ws ++ [(t, v'), (t', v)]) ++ ws' := by simp
  have e' : ws ++ (t, v) :: ws' = (ws ++ [(t, v)]) ++ ws' := by simp
  have e'' : ws ++ [(t, v'), (t', v)] = (ws ++ [(t, v')]) ++ [(t', v)] := by simp
  rw [e, e', final_append_inj, e'']
  constructor
  · intro h
    by_cases ht : t = t'
    · exact .inl ht
    · refine .inr ⟨fun k hk => (h k).imp_right fun hf => ?_, ?_⟩
      · have hne : (t, v).1 ≠ some k := fun hk' => ht (hk'.trans hk.symm)
        rw [final_concat_self hk, final_concat_of_ne hne] at hf
        exact hf.symm
      · by_cases hv : v' = v
        · exact .inl hv
        · refine .inr fun k hk => (h k).resolve_right fun hf => ?_
          have hne : (t', v).1 ≠ some k := fun hk' => ht (hk.trans hk'.symm)
          have hself : (t, v').1 = some k := hk
          have hself' : (t, v).1 = some k := hk
          rw [final_concat_of_ne hne, final_concat_self hself, final_concat_self hself',
            Option.some.injEq] at hf
          exact hv hf
  · rintro (rfl | ⟨h1, h2⟩) k
    · right
      by_cases hk : (t, v).1 = some k
      · rw [final_concat_self hk, final_concat_self hk]
      · have hk' : (t, v').1 ≠ some k := hk
        rw [final_concat_of_ne hk, final_concat_of_ne hk', final_concat_of_ne hk]
    · by_cases hk' : (t', v).1 = some k
      · refine (h1 k hk').imp_right fun hf => ?_
        rw [final_concat_self hk']
        by_cases hk : (t, v).1 = some k
        · rw [final_concat_self hk]
        · rw [final_concat_of_ne hk, hf]
      · rw [final_concat_of_ne hk']
        by_cases hk : (t, v).1 = some k
        · have hself : (t, v').1 = some k := hk
          rw [final_concat_self hk, final_concat_self hself]
          rcases h2 with rfl | h2
          · exact .inr rfl
          · exact .inl (h2 k hk)
        · have hk'' : (t, v').1 ≠ some k := hk
          exact .inr (by rw [final_concat_of_ne hk, final_concat_of_ne hk''])

end OrderRisk.Lib
