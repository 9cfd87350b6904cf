import OrderRisk.Queue.Claims

/-!
# The end of the queue

A consumer that has read `shutdown_` and then `pushersInFlight_ == 0` knows that the queue is
`Closed`: no push is between its shutdown check and its publication, and none will be.  Its last
`try_pop` then finds the ring empty for good (`Drained`), and that is what `std::nullopt` says
(`drained_of_nullopt`).
-/

namespace OrderRisk.Queue

open OrderRisk.Lib

variable {ι T : Type*}

def ThreadPc.trying : ThreadPc T → Bool
  | .push _ (.tryPush _) => true
  | _ => false

/-- In `pop`, having found nobody in flight after the shutdown. -/
def ThreadPc.exiting : ThreadPc T → Bool
  | .pop .giveUp => true
  | .pop (.tryPop .last _) => true
  | _ => false

/-- Nothing more can enter the ring. -/
structure State.Closed (s : State ι T) : Prop where
  shutdown : s.shared.shutdown = true
  trying : ∀ t, (s.pc t).trying = false

/-- Nothing more can enter the ring, and all that did has been claimed. -/
structure State.Drained (s : State ι T) : Prop extends s.Closed where
  empty : s.shared.core.headClaims.length = s.shared.core.tailClaims.length

section

variable [Inhabited T] {maxSpinners : ℤ} {t : ι} {g g' : Shared ι T} {k k' : ThreadPc T} {w : Wake}

theorem Local.trying (h : Local maxSpinners t g k g' k' w) (hk' : k'.trying = true) :
    k.trying = true ∨ g.shutdown = false := by
  cases h
  case sawOpen x p hp h => exact .inr h
  case tryPush => exact .inl rfl
  case release site pos item => cases site <;> cases hk'
  case empty site pos h => cases site <;> cases hk'
  all_goals cases hk'

theorem Local.tailClaims_eq (h : Local maxSpinners t g k g' k' w) (hk : k.trying = false) :
    g'.core.tailClaims = g.core.tailClaims := by
  cases h
  case tryPush => cases hk
  case publish => cases hk
  case tryPop site spurious residue p p' core h => exact (popStep_claims h).1
  all_goals rfl

theorem Local.readInFlight (h : Local maxSpinners t g k g' k' w) (hk' : k' = .pop .readInFlight) :
    g.shutdown = true := by
  subst hk'
  generalize hk : ThreadPc.pop .readInFlight = k' at h
  cases h
  case readShutdownTrue h => exact h
  case release site pos item => cases site <;> cases hk
  case empty site pos h => cases site <;> cases hk
  all_goals cases hk

theorem Local.exiting (h : Local maxSpinners t g k g' k' w) (hk' : k'.exiting = true) :
    k.exiting = true ∨ k = .pop .readInFlight ∧ g.pushersInFlight = 0 := by
  cases h
  case nobodyInFlight h => exact .inr ⟨rfl, h⟩
  case giveUp => exact .inl rfl
  case tryPop site _ _ _ _ _ _ =>
    cases site with
    | last => exact .inl rfl
    | _ => cases hk'
  case release site pos item => cases site <;> cases hk'
  case empty site pos h => cases site <;> cases hk'
  all_goals cases hk'

theorem Local.nullopt (h : Local maxSpinners t g k g' k' w)
    (hk' : k' = .returned (.popped none)) :
    g' = g ∧ ∃ pos, k = .pop (.tryPop .last (.loadSeq pos)) ∧
      diff (g.core.ring.cell pos).seq (word (pos + 1)) < 0 := by
  subst hk'
  generalize hk : ThreadPc.returned (.popped none) = k' at h
  cases h
  case release site pos item => cases site <;> cases hk
  case empty site pos h =>
    cases site with
    | spin i => cases hk
    | recheck => cases hk
    | last => exact ⟨rfl, pos, rfl, h⟩
  all_goals cases hk

end

section

variable [Fintype ι] [DecidableEq ι] [Inhabited T] {capacity : ℕ} {maxSpinners : ℤ}
  {s s' : State ι T} {a : Act ι T}

/-- **A closed queue stays closed, with the claims of `tail_` that it has.** -/
theorem State.Closed.step (h : s.Closed)
    (hs : (queueMachine ι capacity maxSpinners).step s a = some s') :
    s'.Closed ∧ s'.shared.core.tailClaims = s.shared.core.tailClaims := by
  obtain ⟨t, c, rfl, ht, rfl⟩ | ⟨t, ch, g', k, w, pc', rfl, hl, hw, rfl⟩ | ⟨t, r, rfl, ht, rfl⟩ :=
    step_cases hs
  · refine ⟨⟨h.shutdown, fun u => ?_⟩, rfl⟩
    rcases eq_or_ne u t with rfl | hne
    · cases c <;> simp [Call.start, ThreadPc.trying]
    · simpa [hne] using h.trying u
  · refine ⟨⟨hl.shutdown h.shutdown, fun u => ?_⟩, hl.tailClaims_eq (h.trying t)⟩
    dsimp only
    rcases eq_or_ne u t with rfl | hne
    · rw [Function.update_self]
      by_contra hk
      rcases hl.trying (by simpa using hk) with hk | hk
      · simp [h.trying u] at hk
      · simp [h.shutdown] at hk
    · rw [Function.update_of_ne hne, hw.same (f := ThreadPc.trying) rfl, h.trying u]
  · refine ⟨⟨h.shutdown, fun u => ?_⟩, rfl⟩
    rcases eq_or_ne u t with rfl | hne
    · simp [ThreadPc.trying]
    · simpa [hne] using h.trying u

/-- What consumers on their way out know. -/
structure Leaving (s : State ι T) : Prop where
  readInFlight : ∀ t, s.pc t = .pop .readInFlight → s.shared.shutdown = true
  exiting : ∀ t, (s.pc t).exiting = true → s.Closed
  nullopt : ∀ t, s.pc t = .returned (.popped none) → s.Drained

omit [DecidableEq ι] [Inhabited T] in
theorem Counters.trying (h : Counters s) (h0 : s.shared.pushersInFlight = 0) (t : ι) :
    (s.pc t).trying = false := by
  rw [h.inFlight] at h0
  have ht := weight_eq_zero.mp h0 t
  by_contra hk
  unfold ThreadPc.trying at hk
  split at hk
  · next hp =>
    rw [hp] at ht
    cases ht
  · exact hk rfl

omit [Fintype ι] [DecidableEq ι] in
/-- In a closed queue, a `try_pop` that fails at `head_` has found all the claims taken. -/
theorem State.Closed.drained (h : s.Closed) (hr : RingInv s.shared.core fun t => (s.pc t).ring)
    (hb : s.shared.core.tailClaims.length < 2 ^ 63) {t : ι} {site : Site} {pos : ℕ}
    (ht : s.pc t = .pop (.tryPop site (.loadSeq pos)))
    (hd : diff (s.shared.core.ring.cell pos).seq (word (pos + 1)) < 0) : s.Drained := by
  have hpos : pos ≤ s.shared.core.headClaims.length := by
    have := hr.pcOk t
    rwa [ht] at this
  obtain ⟨rfl, hf⟩ := hr.empty_of_diff hb hpos hd
  refine ⟨h, ?_⟩
  by_contra hne
  have hlt : s.shared.core.headClaims.length < s.shared.core.tailClaims.length :=
    lt_of_le_of_ne hr.head_le hne
  -- the claim there would be of a push still in `try_push`
  obtain ⟨⟨u, x, r⟩, hk⟩ : ∃ k, s.shared.core.tailClaims[s.shared.core.headClaims.length]? = some k :=
    ⟨_, List.getElem?_eq_getElem hlt⟩
  have hr0 : r = false := by simpa [Core.filled, hk] using hf
  subst hr0
  have hu := h.trying u
  rcases hr.tailOwner _ u x hk with hp | hp <;>
    rw [ThreadPc.eq_of_ring_push hp] at hu <;> cases hu

theorem State.Drained.step (h : s.Drained) (hr : RingInv s'.shared.core fun t => (s'.pc t).ring)
    (hs : (queueMachine ι capacity maxSpinners).step s a = some s') :
    s'.Drained ∧ s'.shared.core.tailClaims = s.shared.core.tailClaims := by
  obtain ⟨hc, he⟩ := h.toClosed.step hs
  have h1 := (claims_le hs).2
  have h2 := hr.head_le
  refine ⟨⟨hc, ?_⟩, he⟩
  rw [he] at h2 ⊢
  have := h.empty
  omega

theorem leaving_of_reachable (h2 : 2 ≤ capacity)
    (h : (queueMachine ι capacity maxSpinners).Reachable s)
    (hb : s.shared.core.tailClaims.length < 2 ^ 63) : Leaving s := by
  induction h with
  | init hi =>
    obtain ⟨r, -, rfl⟩ := hi
    exact ⟨nofun, nofun, nofun⟩
  | @step s s' a hr _ hs ih =>
    have hb' := bounded_of_step hs hb
    have hi := ih hb'
    have hring' := ringInv h2 (hr.step trivial hs) hb
    have hclosed : s.Closed → s'.Closed := fun h => (h.step hs).1
    have hdrained : s.Drained → s'.Drained := fun h => (h.step hring' hs).1
    obtain ⟨t, c, rfl, ht, rfl⟩ | ⟨t, ch, g', k, w, pc', rfl, hl, hw, rfl⟩ | ⟨t, r, rfl, ht, rfl⟩ :=
      step_cases hs
    · refine ⟨fun u hu => ?_, fun u hu => ?_, fun u hu => ?_⟩ <;> dsimp only at hu <;>
        rcases eq_or_ne u t with rfl | hne
      · cases c <;> simp [Call.start] at hu
      · exact hi.readInFlight u (by simpa [hne] using hu)
      · cases c <;> simp [Call.start, ThreadPc.exiting] at hu
      · exact hclosed (hi.exiting u (by simpa [hne] using hu))
      · cases c <;> simp [Call.start] at hu
      · exact hdrained (hi.nullopt u (by simpa [hne] using hu))
    · refine ⟨fun u hu => ?_, fun u hu => ?_, fun u hu => ?_⟩ <;> dsimp only at hu <;>
        rcases eq_or_ne u t with rfl | hne
      · exact hl.shutdown (hl.readInFlight (by simpa using hu))
      · rw [Function.update_of_ne hne] at hu
        refine hl.shutdown (hi.readInFlight u ?_)
        rcases hw.cases u with he | ⟨-, he⟩ <;> rw [he] at hu
        · exact hu
        · cases hu
      · rcases hl.exiting (by simpa using hu) with hk | ⟨hk, h0⟩
        · exact hclosed (hi.exiting u hk)
        · exact hclosed ⟨hi.readInFlight u hk, (counters_of_reachable hr).trying h0⟩
      · rw [Function.update_of_ne hne, hw.same (f := ThreadPc.exiting) rfl] at hu
        exact hclosed (hi.exiting u hu)
      · -- the last `try_pop` has failed
        obtain ⟨rfl, pos, hk, hd⟩ := hl.nullopt (by simpa using hu)
        refine hdrained ((hi.exiting u (by rw [hk]; rfl)).drained (ringInv h2 hr hb') hb' hk hd)
      · rw [Function.update_of_ne hne] at hu
        refine hdrained (hi.nullopt u ?_)
        rcases hw.cases u with he | ⟨-, he⟩ <;> rw [he] at hu
        · exact hu
        · cases hu
    · refine ⟨fun u hu => ?_, fun u hu => ?_, fun u hu => ?_⟩ <;> dsimp only at hu <;>
        rcases eq_or_ne u t with rfl | hne
      · simp at hu
      · exact hi.readInFlight u (by simpa [hne] using hu)
      · simp [ThreadPc.exiting] at hu
      · exact hclosed (hi.exiting u (by simpa [hne] using hu))
      · simp at hu
      · exact hdrained (hi.nullopt u (by simpa [hne] using hu))

/-- **`std::nullopt` is final**: the queue is shut down, its ring is empty, and no push adds to it
in any continuation. -/
theorem drained_of_nullopt (h2 : 2 ≤ capacity)
    (h : (queueMachine ι capacity maxSpinners).Reachable s)
    (hb : s.shared.core.tailClaims.length < 2 ^ 63) {t : ι}
    (ht : s.pc t = .returned (.popped none)) : s.Drained :=
  (leaving_of_reachable h2 h hb).nullopt t ht

end

end OrderRisk.Queue
