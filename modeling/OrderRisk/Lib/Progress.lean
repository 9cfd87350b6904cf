import OrderRisk.Lib.Machine

/-!
# Lock-freedom

One thread is inside an operation in the `busy` states.  `Paid` says what its steps cost: an own step
lowers the `rank`, unless the environment spoils it, and the others raise the rank only together with
`events`, a count of what they have completed.  So a thread that goes on for long without coming to
an end has been overtaken as often (`Paid.own_steps_le`), and a thread that is left alone comes to an
end (`alone`), wherever the others have stopped.
-/

namespace OrderRisk.Lib.Machine

variable {σ α : Type*} {M : Machine σ α}

/-- The steps of an operation are paid for: `P` holds along the runs that stay within `bound`. -/
structure Paid (M : Machine σ α) (P bound busy : σ → Prop) (own spoiled : α → Bool)
    (rank events : σ → ℕ) (c : ℕ) : Prop where
  keep : ∀ {s a s'}, P s → M.step s a = some s' → bound s' → P s'
  back : ∀ {s a s'}, M.step s a = some s' → bound s' → bound s
  mono : ∀ {s a s'}, M.step s a = some s' → events s ≤ events s'
  mine : ∀ {s a s'}, P s → bound s → busy s → M.step s a = some s' → own a = true →
    rank s' + 1 ≤ rank s + if spoiled a then c else 0
  others : ∀ {s a s'}, busy s → M.step s a = some s' → own a = false →
    rank s' + c * events s ≤ rank s + c * events s'

variable {P bound busy : σ → Prop} {own spoiled : α → Bool} {rank events : σ → ℕ} {c : ℕ}

theorem Paid.step (h : M.Paid P bound busy own spoiled rank events c) {s s' : σ} {a : α} (hp : P s)
    (hbound : bound s) (hb : busy s) (hs : M.step s a = some s') :
    (if own a then 1 else 0) + rank s' + c * events s ≤
      rank s + c * events s' + if own a && spoiled a then c else 0 := by
  have hmono : c * events s ≤ c * events s' := Nat.mul_le_mul_left c (h.mono hs)
  cases ha : own a with
  | true =>
    have := h.mine hp hbound hb hs ha
    simp only [if_true, Bool.true_and]
    omega
  | false =>
    have := h.others hb hs ha
    simp only [Bool.false_eq_true, if_false, Bool.false_and]
    omega

theorem Paid.exec_back (h : M.Paid P bound busy own spoiled rank events c) :
    ∀ {as : List α} {s s' : σ}, M.exec s as = some s' → bound s' → bound s
  | [], s, s', he, hb => by
    cases he
    exact hb
  | a :: as, s, s', he, hb => by
    obtain ⟨m, hm1, hm2⟩ := Option.bind_eq_some_iff.mp he
    exact h.back hm1 (h.exec_back hm2 hb)

/-- **Long operations are overtaken often.**  While the thread is busy, its own steps are at most the
rank it had, and `c` for each event and each spoiled step. -/
theorem Paid.own_steps_le (h : M.Paid P bound busy own spoiled rank events c) :
    ∀ {as : List α} {s s' : σ}, P s → M.Meets (fun s _ => busy s) s as → M.exec s as = some s' →
      bound s' → as.countP own + rank s' + c * events s ≤
        rank s + c * events s' + c * as.countP fun a => own a && spoiled a
  | [], s, s', _, _, he, _ => by
    cases he
    simp
  | a :: as, s, s', hp, hm, he, hb => by
    obtain ⟨m, hm1, hm2⟩ := Option.bind_eq_some_iff.mp he
    have hbm := h.exec_back hm2 hb
    have h1 := h.step hp (h.back hm1 hbm) hm.1 hm1
    have h2 := Paid.own_steps_le h (h.keep hp hm1 hbm) (hm.2 m hm1) hm2 hb
    rw [List.countP_cons, List.countP_cons, Nat.mul_add]
    have h3 : c * (if (own a && spoiled a) = true then 1 else 0) =
        if own a && spoiled a then c else 0 := by split <;> simp
    rw [h3]
    omega

/-- **A thread that is left alone comes to an end**, in as many steps as its rank. -/
theorem alone (busy : σ → Prop) (rank : σ → ℕ) {Q : σ → Prop} {a : α} (hstep : ∀ s, Q s → busy s →
      ∃ s', M.step s a = some s' ∧ Q s' ∧ rank s' + 1 ≤ rank s) :
    ∀ (n : ℕ) {s : σ}, rank s ≤ n → Q s →
      ∃ k ≤ rank s, ∃ s', M.exec s (List.replicate k a) = some s' ∧ Q s' ∧ ¬ busy s' := by
  intro n
  induction n with
  | zero =>
    intro s hn hq
    refine ⟨0, Nat.zero_le _, s, rfl, hq, fun hb => ?_⟩
    obtain ⟨s', -, -, hr⟩ := hstep s hq hb
    omega
  | succ n ih =>
    intro s hn hq
    by_cases hb : busy s
    · obtain ⟨s', hs, hq', hr⟩ := hstep s hq hb
      obtain ⟨k, hk, s'', he, hend⟩ := ih (by omega) hq'
      exact ⟨k + 1, by omega, s'', by rw [List.replicate_succ, exec, hs]; exact he, hend⟩
    · exact ⟨0, Nat.zero_le _, s, rfl, hq, hb⟩

end OrderRisk.Lib.Machine
