import OrderRisk.Pool.ThreadPool

/-!
# Where the pool's threads are

`Fits`: a thread is inside the call of the queue that its place in the pool says, and outside the
queue otherwise.  `Placed` adds what the pool knows: a worker exits with the queue `Drained`, and a
`shutdown()` that has returned has seen all the workers exit.
-/

namespace OrderRisk.Pool

open OrderRisk.Lib OrderRisk.Queue

variable {ι T : Type*}

def Inside : Call T → ThreadPc T → Prop
  | .push job, k => (∃ p, k = .push job p) ∨ ∃ ok, k = .returned (.pushed ok)
  | .pop, k => (∃ p, k = .pop p) ∨ ∃ o, k = .returned (.popped o)
  | .shutdown, k => (∃ p, k = .shutdown p) ∨ k = .returned .shutDown

def PoolPc.inCall : PoolPc ι T → Option (Call T)
  | .submitting job _ => some (.push job)
  | .popping => some .pop
  | .closing => some .shutdown
  | _ => none

/-- The thread is where the pool has it. -/
def Fits (p : PoolPc ι T) (k : ThreadPc T) : Prop :=
  match p.inCall with
  | some c => Inside c k
  | none => k = .idle

/-- The thread runs `workerLoop`. -/
def PoolPc.working : PoolPc ι T → Bool
  | .head => true
  | .popping => true
  | .run _ => true
  | .submitting _ r => r.isSome
  | .count => true
  | .exited => true
  | _ => false

theorem inside_start (c : Call T) : Inside c c.start := by
  cases c <;> exact .inl ⟨_, rfl⟩

theorem inside_local [Inhabited T] {maxSpinners : ℤ} {t : ι} {g g' : Shared ι T}
    {k k' : ThreadPc T} {w : Wake} {c : Call T} (hl : Local maxSpinners t g k g' k' w)
    (h : Inside c k) : Inside c k' := by
  cases c with
  | push job =>
    rcases h with ⟨p, rfl⟩ | ⟨ok, rfl⟩ <;> cases hl <;> first | exact .inl ⟨_, rfl⟩ | exact .inr ⟨_, rfl⟩
  | pop =>
    rcases h with ⟨p, rfl⟩ | ⟨ok, rfl⟩ <;> cases hl
    case release site pos item => cases site <;> first | exact .inl ⟨_, rfl⟩ | exact .inr ⟨_, rfl⟩
    case empty site pos h => cases site <;> first | exact .inl ⟨_, rfl⟩ | exact .inr ⟨_, rfl⟩
    all_goals first | exact .inl ⟨_, rfl⟩ | exact .inr ⟨_, rfl⟩
  | shutdown =>
    rcases h with ⟨p, rfl⟩ | rfl <;> cases hl <;> first | exact .inl ⟨_, rfl⟩ | exact .inr rfl

theorem fits_local [Inhabited T] {maxSpinners : ℤ} {t : ι} {g g' : Shared ι T}
    {k k' : ThreadPc T} {w : Wake} {p : PoolPc ι T} (hl : Local maxSpinners t g k g' k' w)
    (h : Fits p k) : Fits p k' := by
  unfold Fits at h ⊢
  cases hp : p.inCall with
  | none =>
    rw [hp] at h
    obtain rfl : k = .idle := h
    cases hl
  | some c =>
    rw [hp] at h
    exact inside_local hl h

theorem fits_woken {pc pc' : ι → ThreadPc T} {w : Wake} {p : PoolPc ι T} (hw : Woken pc w pc')
    {u : ι} (h : Fits p (pc u)) : Fits p (pc' u) := by
  rcases hw.cases u with he | ⟨h1, h2⟩
  · rwa [he]
  · rw [h1] at h
    rw [h2]
    unfold Fits at h ⊢
    cases hp : p.inCall with
    | none =>
      rw [hp] at h
      cases h
    | some c =>
      rw [hp] at h
      cases c with
      | pop => exact .inl ⟨_, rfl⟩
      | push job => rcases h with ⟨_, h⟩ | ⟨_, h⟩ <;> cases h
      | shutdown => rcases h with ⟨_, h⟩ | h <;> cases h

section

variable [Fintype ι] [DecidableEq ι] [Inhabited T] {workers : List ι} {capacity : ℕ}
  {maxSpinners : ℤ} {s s' : State ι T}

theorem Move.queue (h : Move workers capacity maxSpinners s s') :
    s'.queue = s.queue ∨ ∃ a, (queueMachine ι capacity maxSpinners).step s.queue a = some s'.queue := by
  cases h
  case submit t job r hpc hq hnew => exact .inr ⟨.call t (.push job), by simp [queueMachine, hq, Call.start]⟩
  case inQueue t ch q hq => exact .inr ⟨_, hq⟩
  case accepted t job r hpc hq => exact .inr ⟨.ret t, by simp [queueMachine, hq, State.take]⟩
  case rejected t job r hpc hq => exact .inr ⟨.ret t, by simp [queueMachine, hq, State.take]⟩
  case pop t hpc hq => exact .inr ⟨.call t .pop, by simp [queueMachine, hq, Call.start]⟩
  case popped t job hpc hq => exact .inr ⟨.ret t, by simp [queueMachine, hq, State.take]⟩
  case exit t hpc hq => exact .inr ⟨.ret t, by simp [queueMachine, hq, State.take]⟩
  case shutdown t hpc hq => exact .inr ⟨.call t .shutdown, by simp [queueMachine, hq, Call.start]⟩
  case closed t hpc hq => exact .inr ⟨.ret t, by simp [queueMachine, hq, State.take]⟩
  all_goals exact .inl rfl

/-- What the pool knows of its threads. -/
structure Placed (workers : List ι) (s : State ι T) : Prop where
  fits : ∀ t, Fits (s.pc t) (s.queue.pc t)
  worker : ∀ t, (s.pc t).working = true → t ∈ workers
  exited : ∀ t, s.pc t = .exited → s.queue.Drained
  joining : ∀ t left, s.pc t = .joining left → ∀ u ∈ workers, u ∈ left ∨ s.pc u = .exited
  joined : s.joined = true → ∀ u ∈ workers, s.pc u = .exited

omit [Fintype ι] [Inhabited T] in
/-- A thread moves, and is where it should be. -/
theorem Placed.move (h : Placed workers s) {t : ι} {k : PoolPc ι T}
    (hpc : s'.pc = Function.update s.pc t k) (hfits : ∀ u, Fits (s'.pc u) (s'.queue.pc u))
    (hd : s.queue.Drained → s'.queue.Drained) (hne : s.pc t ≠ .exited)
    (hwork : k.working = true → (s.pc t).working = true) (hexit : k = .exited → s'.queue.Drained)
    (hjoin : ∀ left, k = .joining left → ∀ u ∈ workers, u ∈ left ∨ s.pc u = .exited)
    (hjoined : s'.joined = true → ∀ u ∈ workers, s.pc u = .exited) : Placed workers s' := by
  have hkeep : ∀ u, s.pc u = .exited → s'.pc u = .exited := by
    intro u hu
    have : u ≠ t := by
      rintro rfl
      exact hne hu
    rw [hpc, Function.update_of_ne this, hu]
  refine ⟨hfits, fun u hu => ?_, fun u hu => ?_, fun u left hu v hv => ?_, fun hj v hv => ?_⟩
  · rw [hpc] at hu
    rcases eq_or_ne u t with rfl | hut
    · exact h.worker u (hwork (by simpa using hu))
    · exact h.worker u (by simpa [hut] using hu)
  · rw [hpc] at hu
    rcases eq_or_ne u t with rfl | hut
    · exact hexit (by simpa using hu)
    · exact hd (h.exited u (by simpa [hut] using hu))
  · rw [hpc] at hu
    rcases eq_or_ne u t with rfl | hut
    · exact (hjoin left (by simpa using hu) v hv).imp_right (hkeep v)
    · exact (h.joining u left (by simpa [hut] using hu) v hv).imp_right (hkeep v)
  · exact hkeep v (hjoined hj v hv)

omit [Fintype ι] [Inhabited T] in
theorem Placed.fits_update (h : Placed workers s) {t : ι} {p : PoolPc ι T} {k : ThreadPc T}
    (hf : Fits p k) (u : ι) :
    Fits (Function.update s.pc t p u) (Function.update s.queue.pc t k u) := by
  rcases eq_or_ne u t with rfl | hut
  · simpa using hf
  · simpa [hut] using h.fits u

omit [Fintype ι] [Inhabited T] in
theorem Placed.idle (h : Placed workers s) {t : ι} (ht : (s.pc t).inCall = none) :
    s.queue.pc t = .idle ∧ s.queue.pc = Function.update s.queue.pc t .idle := by
  have hq := h.fits t
  rw [Fits, ht] at hq
  exact ⟨hq, (Function.update_eq_self_iff.mpr hq.symm).symm⟩

omit [Fintype ι] [Inhabited T] in
theorem Placed.fits_goto (h : Placed workers s) {t : ι} {p : PoolPc ι T}
    (ht : (s.pc t).inCall = none) (hp : p.inCall = none) (u : ι) :
    Fits (Function.update s.pc t p u) (s.queue.pc u) := by
  rcases eq_or_ne u t with rfl | hut
  · have hq := h.fits u
    rw [Fits, ht] at hq
    rw [Function.update_self, Fits, hp]
    exact hq
  · simpa [hut] using h.fits u

theorem Placed.step (h : Placed workers s) (hs : Move workers capacity maxSpinners s s')
    (hd : s.queue.Drained → s'.queue.Drained)
    (hnull : ∀ t, s.queue.pc t = .returned (.popped none) → s.queue.Drained) :
    Placed workers s' := by
  cases hs
  case submit t job r hpc hq hnew =>
    refine h.move (t := t) rfl (h.fits_update (inside_start (.push job))) hd ?_ ?_ nofun nofun h.joined
    · cases r <;> simp [hpc, PoolPc.back]
    · cases r <;> simp [hpc, PoolPc.back, PoolPc.working]
  case inQueue t ch q hq =>
    obtain ⟨u, c, he, -⟩ | ⟨u, ch', g', k, w, pc', he, hl, hw, rfl⟩ | ⟨u, r, he, -⟩ := step_cases hq
    · cases he
    · refine ⟨fun v => ?_, h.worker, fun v hv => hd (h.exited v hv), h.joining, h.joined⟩
      dsimp only
      rcases eq_or_ne v u with rfl | hvu
      · rw [Function.update_self]
        exact fits_local hl (h.fits v)
      · rw [Function.update_of_ne hvu]
        exact fits_woken hw (h.fits v)
    · cases he
  case accepted t job r hpc hq =>
    refine h.move (t := t) rfl (h.fits_update ?_) hd (by simp [hpc]) ?_ ?_ ?_ h.joined
    all_goals cases r <;> simp [hpc, PoolPc.back, PoolPc.working, Fits, PoolPc.inCall]
  case rejected t job r hpc hq =>
    refine h.move (t := t) rfl (h.fits_update ?_) hd (by simp [hpc]) ?_ ?_ ?_ h.joined
    all_goals cases r <;> simp [hpc, PoolPc.back, PoolPc.working, Fits, PoolPc.inCall]
  case pop t hpc hq =>
    exact h.move (t := t) rfl (h.fits_update (inside_start .pop)) hd (by simp [hpc])
      (by simp [hpc, PoolPc.working]) nofun nofun h.joined
  case popped t job hpc hq =>
    exact h.move (t := t) rfl (h.fits_update rfl) hd (by simp [hpc])
      (by simp [hpc, PoolPc.working]) nofun nofun h.joined
  case exit t hpc hq =>
    exact h.move (t := t) rfl (h.fits_update rfl) hd (by simp [hpc])
      (by simp [hpc, PoolPc.working]) (fun _ => hd (hnull t hq)) nofun h.joined
  case finish t job hpc =>
    exact h.move (t := t) rfl (h.fits_goto (by rw [hpc]; rfl) rfl) hd (by simp [hpc])
      (by simp [hpc, PoolPc.working]) nofun nofun h.joined
  case count t hpc =>
    exact h.move (t := t) rfl (h.fits_goto (by rw [hpc]; rfl) rfl) hd (by simp [hpc])
      (by simp [hpc, PoolPc.working]) nofun nofun h.joined
  case lose hs => exact h
  case shutdown t hpc hq =>
    exact h.move (t := t) rfl (h.fits_update (inside_start .shutdown)) hd (by simp [hpc])
      nofun nofun nofun h.joined
  case closed t hpc hq =>
    refine h.move (t := t) rfl (h.fits_update rfl) hd (by simp [hpc]) nofun nofun ?_ h.joined
    rintro left ⟨⟩ u hu
    exact .inl hu
  case join t v us hpc hv =>
    refine h.move (t := t) rfl (h.fits_goto (by rw [hpc]; rfl) rfl) hd (by simp [hpc]) nofun nofun
      ?_ h.joined
    rintro left ⟨⟩ u hu
    rcases h.joining t _ hpc u hu with hm | he
    · rcases List.mem_cons.mp hm with rfl | hm
      · exact .inr hv
      · exact .inl hm
    · exact .inr he
  case joined t hpc =>
    refine h.move (t := t) rfl (h.fits_goto (by rw [hpc]; rfl) rfl) hd (by simp [hpc]) nofun nofun
      nofun ?_
    intro _ u hu
    exact (h.joining t _ hpc u hu).resolve_left (by simp)

end

end OrderRisk.Pool
