import OrderRisk.Queue.Counters

/-!
# The counters between the calls, and the limit on spinning

`spinners_` also counts the threads that were refused a slot, until they have taken their increment
back, so it can exceed `maxSpinners_`.  The threads inside the spin loop cannot: each of them found
fewer than `maxSpinners_` counted when it entered (`counters_exact`).
-/

namespace OrderRisk.Queue

open OrderRisk.Lib

variable {ι T : Type*}

/-- `maxSpinners_`. -/
def maxSpinners (hardwareConcurrency : ℕ) : ℤ := max 1 (hardwareConcurrency / 2 : ℕ)

/-- Inside the spin loop: the `for` of `pop`, up to the `fetch_sub` on the way out of it. -/
def ThreadPc.inLoop : ThreadPc T → Bool
  | .pop (.tryPop (.spin _) _) => true
  | .pop (.relax _) => true
  | .pop (.spinOk _) => true
  | _ => false

def State.NoCall (s : State ι T) : Prop := ∀ t, s.pc t = .idle ∨ ∃ r, s.pc t = .returned r

theorem ThreadPc.spinning_of_inLoop {k : ThreadPc T} (h : k.inLoop = true) : k.spinning = true := by
  unfold ThreadPc.inLoop at h
  split at h
  · rfl
  · rfl
  · rfl
  · cases h

section

variable [Inhabited T] {m : ℤ} {t : ι} {g g' : Shared ι T} {k k' : ThreadPc T} {w : Wake}

theorem Local.inLoop (h : Local m t g k g' k' w) (hk : k'.inLoop = true) :
    k.inLoop = true ∨ k.inLoop = false ∧ g.spinners < m := by
  cases h
  case takeSlot hlt => exact .inr ⟨rfl, hlt⟩
  case tryPop site _ _ p p' core _ => cases site <;> first | exact .inl rfl | cases hk
  case release site pos item => cases site <;> first | exact .inl rfl | cases hk
  case empty site pos _ => cases site <;> first | exact .inl rfl | cases hk
  case spinAgain i _ => exact .inl rfl
  all_goals cases hk

end

section

variable [Fintype ι] [DecidableEq ι] [Inhabited T] {capacity : ℕ} {m : ℤ} {s s' : State ι T}
  {a : Act ι T}

/-- The step lemma. -/
theorem inLoop_step (hc : Counters s) (h : weight ThreadPc.inLoop s.pc ≤ m)
    (hs : (queueMachine ι capacity m).step s a = some s') : weight ThreadPc.inLoop s'.pc ≤ m := by
  obtain ⟨t, c, rfl, ht, rfl⟩ | ⟨t, ch, g', k, w, pc', rfl, hl, hw, rfl⟩ | ⟨t, r, rfl, ht, rfl⟩ :=
    step_cases hs
  · have hk : c.start.inLoop = false := by cases c <;> rfl
    rw [Lib.weight_update, ht, hk]
    simpa [ThreadPc.inLoop] using h
  · rw [hw.weight_update rfl]
    have hle : weight ThreadPc.inLoop s.pc ≤ s.shared.spinners := by
      rw [hc.spinners]
      exact weight_mono fun t => ThreadPc.spinning_of_inLoop
    cases hk : k.inLoop with
    | false =>
      simp only [Bool.false_eq_true, if_false]
      split <;> omega
    | true =>
      rcases hl.inLoop hk with h1 | ⟨h1, hlt⟩
      · simpa [h1] using h
      · simp only [h1, Bool.false_eq_true, if_false, if_true]
        omega
  · rw [Lib.weight_update, ht]
    simpa [ThreadPc.inLoop] using h

/-- **The counters are exact on every path**: in every reachable state each is the number of
threads between its increment and its decrement, all are 0 when no call is in progress, and at most
`maxSpinners_` threads are inside the spin loop. -/
theorem counters_exact (hardwareConcurrency : ℕ)
    (h : (queueMachine ι capacity (maxSpinners hardwareConcurrency)).Reachable s) :
    s.shared.spinners = weight ThreadPc.spinning s.pc ∧
    s.shared.sleepers = weight ThreadPc.sleeping s.pc ∧
    s.shared.pushersInFlight = weight ThreadPc.inFlight s.pc ∧
    (s.NoCall → s.shared.spinners = 0 ∧ s.shared.sleepers = 0 ∧ s.shared.pushersInFlight = 0) ∧
    weight ThreadPc.inLoop s.pc ≤ maxSpinners hardwareConcurrency := by
  have hc := counters_of_reachable h
  have hzero : s.NoCall → ∀ p : ThreadPc T → Bool, p .idle = false →
      (∀ r, p (.returned r) = false) → weight p s.pc = 0 := by
    intro hno p hidle hret
    refine weight_eq_zero.mpr fun t => ?_
    rcases hno t with ht | ⟨r, ht⟩
    · rw [ht, hidle]
    · rw [ht, hret]
  refine ⟨hc.spinners, hc.sleepers, hc.inFlight, fun hno => ⟨?_, ?_, ?_⟩, ?_⟩
  · rw [hc.spinners]
    exact hzero hno _ rfl fun _ => rfl
  · rw [hc.sleepers]
    exact hzero hno _ rfl fun _ => rfl
  · rw [hc.inFlight]
    exact hzero hno _ rfl fun _ => rfl
  · have h0 : 0 ≤ maxSpinners hardwareConcurrency :=
      le_trans (by omega) (le_max_left 1 _)
    refine (h.invariant (P := fun s => Counters s ∧
      weight ThreadPc.inLoop s.pc ≤ maxSpinners hardwareConcurrency) ?_ ?_).2
    · intro s hi
      refine ⟨.init hi, ?_⟩
      obtain ⟨r, -, rfl⟩ := hi
      rw [weight_eq_zero.mpr fun _ => rfl]
      exact h0
    · exact fun s a s' hi _ hs => ⟨hi.1.step hs, inLoop_step hi.1 hi.2 hs⟩

end

/-! ### One slot, two workers -/

/-- On one hardware thread a worker takes the only spin slot; the other is refused. -/
def refused : List (Act (Fin 2) ℕ) :=
  let ch : Choice (Fin 2) ℕ := ⟨false, 0, none⟩
  [.call 0 .pop, .call 1 .pop, .step 0 ch, .step 1 ch]

theorem counters_exact_refused :
    ∃ s, (queueMachine (Fin 2) 2 (maxSpinners 1)).exec
        ⟨.fresh ⟨fun i => ⟨i, (0 : ℕ)⟩, 1, 0, 0⟩, fun _ => .idle⟩ refused = some s ∧
      s.shared.spinners = 2 ∧ s.shared.spinners = weight ThreadPc.spinning s.pc ∧
      weight ThreadPc.inLoop s.pc ≤ 1 := by
  have h : ((queueMachine (Fin 2) 2 (maxSpinners 1)).exec
      ⟨.fresh ⟨fun i => ⟨i, (0 : ℕ)⟩, 1, 0, 0⟩, fun _ => .idle⟩ refused).map
        (fun s => s.shared.spinners) = some 2 := by
    decide +kernel
  obtain ⟨s, hs, h2⟩ := Option.map_eq_some_iff.mp h
  obtain ⟨h1, -, -, -, hle⟩ := counters_exact 1 (Machine.Reachable.of_exec ⟨_, rfl, rfl⟩ hs)
  exact ⟨s, hs, h2, h1, hle⟩

end OrderRisk.Queue
