import OrderRisk.Pool.Hosted
import OrderRisk.Queue.Alone

/-!
# The pool can always catch up

From every reachable state in which no job is inside `submit`, some schedule brings all calls to their
end without a new one: every `submit` returns, every accepted job is called, returns and is counted,
and a `shutdown()` that has begun joins its workers (`can_catch_up`).  The steps are ones that the
threads are ready to make: no CAS fails for no reason, no blocked worker wakes for no reason, and no
job throws.

What is left to do is the queue's cost and that of the places outside the queue; from every state that
is not at rest some schedule lowers it (`lower`).
-/

namespace OrderRisk.Pool

open OrderRisk.Lib OrderRisk.Queue

variable {ι T : Type*}

/-- What a thread has left to do outside the queue's functions. -/
def PoolPc.cost (workers : ℕ) : PoolPc ι T → ℕ
  | .client => 0
  | .submitting _ none => 0
  | .submitting _ (some _) => 4
  | .head => 2
  | .popping => 0
  | .run _ => 4
  | .count => 3
  | .exited => 0
  | .closing => workers + 1
  | .joining left => left.length + 1

/-- A job that is inside `submit`. -/
def PoolPc.nested : PoolPc ι T → Bool
  | .submitting _ r => r.isSome
  | _ => false

/-- A step that goes on with what has begun: no new call, and nothing goes wrong. -/
def Onward (s : State ι T) : Act ι T → Prop
  | .submit _ _ => False
  | .inQueue t ch => Queue.Onward s.queue (.step t ch)
  | .finish _ o => o = .returned
  | .shutdown _ => False
  | _ => True

/-! ### Who works, and who joins -/

section

variable [Fintype ι] [DecidableEq ι] [DecidableEq T] [Inhabited T] {workers : List ι}
  {capacity : ℕ} {maxSpinners : ℤ} {s s' : State ι T}

/-- What the pool knows of its workers and of its `shutdown()`. -/
structure Manned (workers : List ι) (s : State ι T) : Prop where
  working : ∀ u ∈ workers, (s.pc u).working = true
  left : ∀ t left, s.pc t = .joining left → left ⊆ workers
  closed : ∀ t left, s.pc t = .joining left → s.queue.shared.shutdown = true
  ending : s.shuttingDown = true →
    s.joined = true ∨ ∃ t, s.pc t = .closing ∨ ∃ left, s.pc t = .joining left

omit [Fintype ι] [DecidableEq T] [Inhabited T] in
/-- A thread moves, and nobody joins. -/
theorem Manned.move (h : Manned workers s) {t : ι} {k : PoolPc ι T}
    (hpc : s'.pc = Function.update s.pc t k) (hwork : (s.pc t).working = true → k.working = true)
    (hleft : ∀ left, k = .joining left → left ⊆ workers ∧ s'.queue.shared.shutdown = true)
    (hq : s.queue.shared.shutdown = true → s'.queue.shared.shutdown = true)
    (hend : s'.shuttingDown = true → s'.joined = true ∨ k = .closing ∨ (∃ left, k = .joining left) ∨
      s.shuttingDown = true ∧ (s.joined = true → s'.joined = true) ∧ s.pc t ≠ .closing ∧
        ∀ left, s.pc t ≠ .joining left) : Manned workers s' := by
  refine ⟨fun u hu => ?_, fun u left hu => ?_, fun u left hu => ?_, fun hd => ?_⟩
  · rw [hpc]
    rcases eq_or_ne u t with rfl | hut
    · rw [Function.update_self]
      exact hwork (h.working u hu)
    · rw [Function.update_of_ne hut]
      exact h.working u hu
  · rw [hpc] at hu
    rcases eq_or_ne u t with rfl | hut
    · exact (hleft left (by simpa using hu)).1
    · exact h.left u left (by simpa [hut] using hu)
  · rw [hpc] at hu
    rcases eq_or_ne u t with rfl | hut
    · exact (hleft left (by simpa using hu)).2
    · exact hq (h.closed u left (by simpa [hut] using hu))
  · rcases hend hd with hj | hk | ⟨left, hk⟩ | ⟨hd, hj, hc, hl⟩
    · exact .inl hj
    · exact .inr ⟨t, .inl (by rw [hpc, Function.update_self, hk])⟩
    · exact .inr ⟨t, .inr ⟨left, by rw [hpc, Function.update_self, hk]⟩⟩
    · refine (h.ending hd).imp hj fun ⟨u, hu⟩ => ⟨u, ?_⟩
      have hut : u ≠ t := by
        rintro rfl
        rcases hu with hu | ⟨left, hu⟩
        · exact hc hu
        · exact hl left hu
      rwa [hpc, Function.update_of_ne hut]

theorem Manned.init (h : (poolMachine workers capacity maxSpinners).init s) : Manned workers s := by
  obtain ⟨q, -, rfl⟩ := h
  have hpc : ∀ t left, (if t ∈ workers then PoolPc.head else .client : PoolPc ι T) ≠ .joining left := by
    intro t left
    split <;> simp
  exact ⟨fun u hu => by simp [hu, PoolPc.working], fun t left ht => absurd ht (hpc t left),
    fun t left ht => absurd ht (hpc t left), fun hd => by cases hd⟩

theorem Manned.step {a : Act ι T} (h : Manned workers s)
    (hst : Stages s.queue) (hs : (poolMachine workers capacity maxSpinners).step s a = some s') :
    Manned workers s' := by
  cases move_of_step hs
  case submit t job r hpc hq hnew =>
    refine h.move (t := t) rfl ?_ (by simp) id fun hd => .inr (.inr (.inr ⟨hd, id, ?_⟩))
    · cases r <;> simp [hpc, PoolPc.back, PoolPc.working]
    · cases r <;> simp [hpc, PoolPc.back]
  case inQueue t ch q hq =>
    refine ⟨h.working, h.left, fun u left hu => ?_, h.ending⟩
    obtain ⟨u, c, he, -⟩ | ⟨u, ch', g', k, w, pc', he, hl, hw, rfl⟩ | ⟨u, r, he, -⟩ := step_cases hq
    · cases he
    · exact hl.shutdown (h.closed _ left hu)
    · cases he
  case accepted t job r hpc hq =>
    refine h.move (t := t) rfl ?_ ?_ id fun hd => .inr (.inr (.inr ⟨hd, id, by simp [hpc]⟩))
    · cases r <;> simp [hpc, PoolPc.back, PoolPc.working]
    · cases r <;> simp [PoolPc.back]
  case rejected t job r hpc hq =>
    refine h.move (t := t) rfl ?_ ?_ id fun hd => .inr (.inr (.inr ⟨hd, id, by simp [hpc]⟩))
    · cases r <;> simp [hpc, PoolPc.back, PoolPc.working]
    · cases r <;> simp [PoolPc.back]
  case pop t hpc hq =>
    exact h.move (t := t) rfl (fun _ => rfl) (by simp) id
      fun hd => .inr (.inr (.inr ⟨hd, id, by simp [hpc]⟩))
  case popped t job hpc hq =>
    exact h.move (t := t) rfl (fun _ => rfl) (by simp) id
      fun hd => .inr (.inr (.inr ⟨hd, id, by simp [hpc]⟩))
  case exit t hpc hq =>
    exact h.move (t := t) rfl (fun _ => rfl) (by simp) id
      fun hd => .inr (.inr (.inr ⟨hd, id, by simp [hpc]⟩))
  case finish t job hpc =>
    exact h.move (t := t) rfl (fun _ => rfl) (by simp) id
      fun hd => .inr (.inr (.inr ⟨hd, id, by simp [hpc]⟩))
  case count t hpc =>
    exact h.move (t := t) rfl (fun _ => rfl) (by simp) id
      fun hd => .inr (.inr (.inr ⟨hd, id, by simp [hpc]⟩))
  case lose hs => exact h
  case shutdown t hpc hq =>
    exact h.move (t := t) rfl (by simp [hpc, PoolPc.working]) (by simp) id
      fun _ => .inr (.inl rfl)
  case closed t hpc hq =>
    refine h.move (t := t) rfl (by simp [hpc, PoolPc.working]) (fun left hl => ?_) id
      fun _ => .inr (.inr (.inl ⟨_, rfl⟩))
    cases hl
    exact ⟨List.Subset.refl _, hst.stored t (by rw [hq]; simp [ThreadPc.stage])⟩
  case join t u us hpc hu =>
    refine h.move (t := t) rfl (by simp [hpc, PoolPc.working]) (fun left hl => ?_) id
      fun _ => .inr (.inr (.inl ⟨_, rfl⟩))
    cases hl
    exact ⟨fun v hv => h.left t _ hpc (List.mem_cons_of_mem u hv), h.closed t _ hpc⟩
  case joined t hpc =>
    exact h.move (t := t) rfl (by simp [hpc, PoolPc.working]) (by simp) id fun _ => .inl rfl

theorem manned_of_reachable (h : (poolMachine workers capacity maxSpinners).Reachable s) :
    Manned workers s := by
  induction h with
  | init hi => exact .init hi
  | step hr _ hs ih => exact ih.step (stages_of_reachable (queue_reachable hr)) hs

/-- Only workers call `pop`. -/
theorem queue_popsBy (h2 : 2 ≤ capacity)
    (h : (poolMachine workers capacity maxSpinners).Reachable s)
    (hb : s.queue.shared.core.tailClaims.length < 2 ^ 63) :
    (queueMachine ι capacity maxSpinners).Within (PopsBy (· ∈ workers)) s.queue := by
  induction h with
  | init hi =>
    obtain ⟨q, hq, rfl⟩ := hi
    exact .init hq
  | @step s s' a hr _ hs ih =>
    have hb' := lt_of_le_of_lt (tail_le hs) hb
    have hi := ih hb'
    have hplaced := (placed_and_ledger h2 hr hb').1
    cases move_of_step hs
    case submit t job r hpc hq hnew =>
      exact hi.step (a := .call t (.push job)) trivial (by simp [queueMachine, hq, Call.start])
    case inQueue t ch q hq => exact hi.step (a := .step t ch) trivial hq
    case pop t hpc hq =>
      exact hi.step (a := .call t .pop) (hplaced.worker t (by rw [hpc]; rfl))
        (by simp [queueMachine, hq, Call.start])
    case shutdown t hpc hq =>
      exact hi.step (a := .call t .shutdown) trivial (by simp [queueMachine, hq, Call.start])
    case accepted t job r hpc hq =>
      exact hi.step (a := .ret t) trivial (by simp [queueMachine, hq, State.take])
    case rejected t job r hpc hq =>
      exact hi.step (a := .ret t) trivial (by simp [queueMachine, hq, State.take])
    case popped t job hpc hq =>
      exact hi.step (a := .ret t) trivial (by simp [queueMachine, hq, State.take])
    case exit t hpc hq =>
      exact hi.step (a := .ret t) trivial (by simp [queueMachine, hq, State.take])
    case closed t hpc hq =>
      exact hi.step (a := .ret t) trivial (by simp [queueMachine, hq, State.take])
    all_goals exact hi

/-! ### What is left to do -/

/-- What the pool's calls, its workers and its jobs have left to do. -/
def State.cost (workers : List ι) (s : State ι T) : ℕ :=
  s.queue.cost + ∑ t, (s.pc t).cost workers.length

omit [DecidableEq T] [Inhabited T] in
theorem cost_move (workers : List ι) {m : State ι T} {t : ι} {p : PoolPc ι T} {k : ThreadPc T}
    (hpc : m.pc = Function.update s.pc t p) (hq : m.queue.pc = Function.update s.queue.pc t k)
    (hshared : m.queue.shared = s.queue.shared) :
    m.cost workers + (s.pc t).cost workers.length + (s.queue.pc t).cost =
      s.cost workers + p.cost workers.length + k.cost := by
  have h1 := sum_update_add (PoolPc.cost workers.length) s.pc t p
  have h2 := sum_update_add ThreadPc.cost s.queue.pc t k
  unfold State.cost Queue.State.cost
  rw [hpc, hq, hshared]
  omega

theorem leads_inQueue {q : Queue.State ι T}
    (h : (queueMachine ι capacity maxSpinners).Leads Queue.Onward s.queue q) :
    (poolMachine workers capacity maxSpinners).Leads Onward s { s with queue := q } := by
  have hstep : ∀ (u : State ι T) a q, u = { s with queue := u.queue } → Queue.Onward u.queue a →
      (queueMachine ι capacity maxSpinners).step u.queue a = some q →
      ∃ u', (poolMachine workers capacity maxSpinners).Leads Onward u u' ∧
        u' = { s with queue := u'.queue } ∧ u'.queue = q := by
    intro u a q hu ha hq
    cases a with
    | step t ch =>
      refine ⟨{ u with queue := q }, .single (a := .inQueue t ch) ha ?_, by rw [hu], rfl⟩
      exact Option.map_eq_some_iff.mpr ⟨q, hq, rfl⟩
    | call t c => cases ha
    | ret t => cases ha
  obtain ⟨s', hs', he, rfl⟩ := Machine.Leads.lift (f := State.queue) hstep rfl h
  rwa [he] at hs'

theorem lower_inQueue (workers : List ι)
    (h : ∃ q, (queueMachine ι capacity maxSpinners).Leads Queue.Onward s.queue q ∧
    q.cost < s.queue.cost) : ∃ s', (poolMachine workers capacity maxSpinners).Leads Onward s s' ∧
      s'.cost workers < s.cost workers := by
  obtain ⟨q, hq, hlt⟩ := h
  exact ⟨_, leads_inQueue hq, Nat.add_lt_add_right hlt _⟩

theorem lower_move {m : State ι T} {t : ι} {a : Act ι T} {p : PoolPc ι T} {k : ThreadPc T}
    (ha : Onward s a) (hs : (poolMachine workers capacity maxSpinners).step s a = some m)
    (hpc : m.pc = Function.update s.pc t p) (hq : m.queue.pc = Function.update s.queue.pc t k)
    (hshared : m.queue.shared = s.queue.shared)
    (hlt : p.cost workers.length + k.cost < (s.pc t).cost workers.length + (s.queue.pc t).cost) :
    ∃ s', (poolMachine workers capacity maxSpinners).Leads Onward s s' ∧
      s'.cost workers < s.cost workers := by
  have := cost_move workers hpc hq hshared
  exact ⟨m, .single ha hs, by omega⟩

/-- Who has a result takes it. -/
theorem lower_returned (h : Placed workers s) {t : ι} {r : Ret T}
    (ht : s.queue.pc t = .returned r) : ∃ s', (poolMachine workers capacity maxSpinners).Leads Onward
      s s' ∧ s'.cost workers < s.cost workers := by
  have hf := h.fits t
  rw [ht] at hf
  cases hpc : s.pc t with
  | submitting job c =>
    rw [hpc] at hf
    obtain ⟨_, hf⟩ | ⟨ok, hf⟩ := hf <;> cases hf
    have hlt : (PoolPc.back c : PoolPc ι T).cost workers.length + (ThreadPc.idle : ThreadPc T).cost <
        (s.pc t).cost workers.length + (s.queue.pc t).cost := by
      rw [hpc, ht]
      cases c <;> simp [PoolPc.back, PoolPc.cost, ThreadPc.cost]
    cases ok with
    | true =>
      exact lower_move (a := .submitted t) trivial
        (m := ({ s with accepted := s.accepted ++ [job] } : State ι T).take t (.back c))
        (by simp [poolMachine, hpc, ht]) rfl rfl rfl hlt
    | false =>
      exact lower_move (a := .submitted t) trivial
        (m := ({ s with rejected := s.rejected ++ [job] } : State ι T).take t (.back c))
        (by simp [poolMachine, hpc, ht]) rfl rfl rfl hlt
  | popping =>
    rw [hpc] at hf
    obtain ⟨_, hf⟩ | ⟨o, hf⟩ := hf <;> cases hf
    cases o with
    | some job =>
      exact lower_move (a := .popped t) trivial
        (m := ({ s with executed := s.executed ++ [job] } : State ι T).take t (.run job))
        (by simp [poolMachine, hpc, ht]) rfl rfl rfl
        (by simp [hpc, ht, PoolPc.cost, ThreadPc.cost])
    | none =>
      exact lower_move (a := .popped t) trivial (m := s.take t .exited)
        (by simp [poolMachine, hpc, ht]) rfl rfl rfl
        (by simp [hpc, ht, PoolPc.cost, ThreadPc.cost])
  | closing =>
    rw [hpc] at hf
    obtain ⟨_, hf⟩ | hf := hf <;> cases hf
    exact lower_move (a := .closed t) trivial (m := s.take t (.joining workers))
      (by simp [poolMachine, hpc, ht]) rfl rfl rfl
      (by simp [hpc, ht, PoolPc.cost, ThreadPc.cost])
  | _ =>
    rw [hpc] at hf
    cases hf

theorem lower_running (h : Placed workers s) {t : ι}
    (ht : (∃ job, s.pc t = .run job) ∨ s.pc t = .count) :
    ∃ s', (poolMachine workers capacity maxSpinners).Leads Onward s s' ∧
      s'.cost workers < s.cost workers := by
  obtain ⟨job, hpc⟩ | hpc := ht
  · obtain ⟨hk, hupd⟩ := h.idle (t := t) (by rw [hpc]; rfl)
    exact lower_move (a := .finish t .returned) rfl (m := s.goto t .count)
      (by simp [poolMachine, hpc, Outcome.next]) rfl hupd rfl
      (by simp [hpc, hk, PoolPc.cost, ThreadPc.cost])
  · obtain ⟨hk, hupd⟩ := h.idle (t := t) (by rw [hpc]; rfl)
    exact lower_move (a := .count t) trivial
      (m := ({ s with completed := word (s.completed + 1) } : State ι T).goto t .head)
      (by simp [poolMachine, hpc]) rfl hupd rfl (by simp [hpc, hk, PoolPc.cost, ThreadPc.cost])

theorem lower_joining (h : Placed workers s) {t : ι} {left : List ι}
    (ht : s.pc t = .joining left) (hl : ∀ u ∈ left.head?, s.pc u = .exited) :
    ∃ s', (poolMachine workers capacity maxSpinners).Leads Onward s s' ∧
      s'.cost workers < s.cost workers := by
  obtain ⟨hk, hupd⟩ := h.idle (t := t) (by rw [ht]; rfl)
  cases left with
  | nil =>
    exact lower_move (a := .join t) trivial
      (m := ({ s with joined := true } : State ι T).goto t .client)
      (by simp [poolMachine, ht]) rfl hupd rfl (by simp [ht, hk, PoolPc.cost, ThreadPc.cost])
  | cons u us =>
    exact lower_move (a := .join t) trivial (m := s.goto t (.joining us))
      (by simp [poolMachine, ht, hl u rfl]) rfl hupd rfl
      (by simp [ht, hk, PoolPc.cost, ThreadPc.cost])

/-- Nobody is in a call but the workers, and they find nothing. -/
structure State.AtRest (s : State ι T) : Prop where
  place : ∀ t, s.pc t = .client ∨ s.pc t = .head ∨ s.pc t = .popping ∨ s.pc t = .exited
  committed : ∀ t, (s.queue.pc t).committed = false
  returned : ∀ t r, s.queue.pc t ≠ .returned r
  empty : s.queue.shared.core.headClaims.length = s.queue.shared.core.tailClaims.length

/-- A worker at the head of its loop calls `pop`. -/
theorem enter_pop (capacity : ℕ) (maxSpinners : ℤ) (h : Placed workers s) {u : ι}
    (hu : s.pc u = .head ∨ s.pc u = .popping)
    (hret : ∀ r, s.queue.pc u ≠ .returned r) :
    ∃ s' p, (poolMachine workers capacity maxSpinners).Leads Onward s s' ∧
      s'.cost workers = s.cost workers ∧ s'.queue.shared = s.queue.shared ∧
      s'.queue.pc u = .pop p ∧ (s.queue.pc u = .pop p ∨ p = .takeSlot) ∧
      ∀ v ≠ u, s'.queue.pc v = s.queue.pc v := by
  rcases hu with hu | hu
  · have hk := (h.idle (t := u) (by rw [hu]; rfl)).1
    refine ⟨{ s with
      queue := { s.queue with pc := Function.update s.queue.pc u (.pop .takeSlot) }
      pc := Function.update s.pc u .popping }, .takeSlot, .single (a := .pop u) trivial ?_, ?_, rfl,
      Function.update_self .., .inr rfl, fun v hv => Function.update_of_ne hv ..⟩
    · simp [poolMachine, hu, State.call, hk, Call.start]
    · have := cost_move workers (s := s) (t := u) (p := .popping) (k := .pop .takeSlot)
        (m := { s with
          queue := { s.queue with pc := Function.update s.queue.pc u (.pop .takeSlot) }
          pc := Function.update s.pc u .popping }) rfl rfl rfl
      simp only [hu, hk, PoolPc.cost, ThreadPc.cost, PopAt.cost] at this
      dsimp only at this ⊢
      omega
  · have hf := h.fits u
    rw [hu] at hf
    obtain ⟨p, hp⟩ | ⟨o, ho⟩ := hf
    · exact ⟨s, p, .refl s, rfl, rfl, hp, .inl hp, fun _ _ => rfl⟩
    · exact absurd ho (hret _)

/-- What can be said when nobody has anything to do for sure. -/
structure Still (workers : List ι) (s : State ι T) : Prop where
  placed : Placed workers s
  manned : Manned workers s
  committed : ∀ t, (s.queue.pc t).committed = false
  returned : ∀ t r, s.queue.pc t ≠ .returned r
  free : s.queue.shared.parkMtx = none
  running : ∀ t, (∀ job, s.pc t ≠ .run job) ∧ s.pc t ≠ .count
  plain : ∀ t, (s.pc t).nested = false

omit [Fintype ι] [DecidableEq ι] [DecidableEq T] [Inhabited T] in
/-- A worker that has not exited is looking for a job. -/
theorem Still.seeking (hs : Still workers s) {u : ι} (hu : u ∈ workers) (he : s.pc u ≠ .exited) :
    s.pc u = .head ∨ s.pc u = .popping := by
  have hwork := hs.manned.working u hu
  cases hpc : s.pc u with
  | head => exact .inl rfl
  | popping => exact .inr rfl
  | exited => exact absurd hpc he
  | run job => exact absurd hpc ((hs.running u).1 job)
  | count => exact absurd hpc (hs.running u).2
  | submitting job r =>
    have hplain := hs.plain u
    rw [hpc] at hwork hplain
    cases r with
    | none => cases hwork
    | some r => cases hplain
  | _ =>
    rw [hpc] at hwork
    cases hwork

/-- A worker that is not asleep finds what it looks for. -/
theorem lower_worker (h : (poolMachine workers capacity maxSpinners).Reachable s)
    (hs : Still workers s) {u : ι} (hu : s.pc u = .head ∨ s.pc u = .popping)
    (hfind : ∀ q p, (queueMachine ι capacity maxSpinners).Reachable q →
      q.shared = s.queue.shared → q.Quiet u → q.pc u = .pop p → (q.pc u).committed = false →
      (s.queue.pc u = .pop p ∨ p = .takeSlot) → (∀ v ≠ u, q.pc v = s.queue.pc v) →
      ∃ q', (queueMachine ι capacity maxSpinners).Leads Queue.Onward q q' ∧ q'.cost < q.cost) :
    ∃ s', (poolMachine workers capacity maxSpinners).Leads Onward s s' ∧
      s'.cost workers < s.cost workers := by
  obtain ⟨m, p, hm, hcost, hshared, hp, hor, hother⟩ := enter_pop capacity maxSpinners
    hs.placed hu (hs.returned u)
  have hr := queue_reachable (hm.reachable h)
  have hcom : ∀ v, (m.queue.pc v).committed = false := by
    intro v
    rcases eq_or_ne v u with rfl | hv
    · rcases hor with hor | rfl
      · rw [hp, ← hor]
        exact hs.committed v
      · rw [hp]
        rfl
    · rw [hother v hv]
      exact hs.committed v
  have hq := quiet_of_free (counters_of_reachable hr) (by rw [hshared]; exact hs.free) hcom u
  obtain ⟨s', hs', hlt⟩ := lower_inQueue workers
    (hfind m.queue p hr hshared hq hp (hcom u) hor hother)
  exact ⟨s', hm.trans hs', by omega⟩

/-- An item in the ring finds a worker. -/
theorem lower_pending (h2 : 2 ≤ capacity) (hw : workers ≠ [])
    (h : (poolMachine workers capacity maxSpinners).Reachable s)
    (hb : s.queue.shared.core.tailClaims.length < 2 ^ 63) (hs : Still workers s)
    (hlt : s.queue.shared.core.headClaims.length < s.queue.shared.core.tailClaims.length) :
    ∃ s', (poolMachine workers capacity maxSpinners).Leads Onward s s' ∧
      s'.cost workers < s.cost workers := by
  have hatt := attended_of_within h2 (List.exists_mem_of_ne_nil workers hw) (queue_popsBy h2 h hb) hb
  obtain ⟨u, hu, ha⟩ | ⟨t, ht⟩ := hatt.cover _ le_rfl hlt
  · have hpc := hs.seeking hu fun he => (hs.placed.exited u he).empty.not_lt hlt
    refine lower_worker h hs hpc fun q p hr hshared hq hp hc hor _ => ?_
    refine pop_alone h2 hr (by rw [hshared]; exact hb) hq hp hc ?_ (by rw [hshared]; exact hlt)
    rw [hshared]
    rcases hor with hor | rfl
    · exact hatt.alert hor ha
    · rfl
  · have hc := hs.committed t
    rw [ThreadPc.committed_of_claimed ht] at hc
    cases hc

theorem lower_submitting (h2 : 2 ≤ capacity)
    (h : (poolMachine workers capacity maxSpinners).Reachable s)
    (hb : s.queue.shared.core.tailClaims.length < 2 ^ 63) (hs : Still workers s)
    (he : s.queue.shared.core.headClaims.length = s.queue.shared.core.tailClaims.length) {t : ι}
    {job : T} {r : Option T} (ht : s.pc t = .submitting job r) :
    ∃ s', (poolMachine workers capacity maxSpinners).Leads Onward s s' ∧
      s'.cost workers < s.cost workers := by
  have hr := queue_reachable h
  have hring := ringInv h2 hr hb
  have hf := hs.placed.fits t
  rw [ht] at hf
  obtain ⟨p, hp⟩ | ⟨ok, hok⟩ := hf
  · refine lower_inQueue workers (push_alone h2 hr hb
      (quiet_of_free (counters_of_reachable hr) hs.free hs.committed t) hp (hs.committed t) ?_)
    have := hring.two_le_capacity
    unfold Core.pending
    omega
  · exact absurd hok (hs.returned t _)

/-- A `shutdown()` that waits for a worker gets it. -/
theorem lower_last (h2 : 2 ≤ capacity) (h : (poolMachine workers capacity maxSpinners).Reachable s)
    (hb : s.queue.shared.core.tailClaims.length < 2 ^ 63) (hs : Still workers s)
    (hsub : ∀ t job r, s.pc t ≠ .submitting job r) {t : ι} {left : List ι}
    (ht : s.pc t = .joining left) :
    ∃ s', (poolMachine workers capacity maxSpinners).Leads Onward s s' ∧
      s'.cost workers < s.cost workers := by
  have hr := queue_reachable h
  by_cases hl : ∀ u ∈ left.head?, s.pc u = .exited
  · exact lower_joining hs.placed ht hl
  push Not at hl
  obtain ⟨u, hu, hne⟩ := hl
  have hsd := hs.manned.closed t left ht
  have hpc := hs.seeking (hs.manned.left t left ht (List.mem_of_mem_head? hu)) hne
  -- no `shutdown()` of the queue is at work any more
  have hshut : s.queue.Shut := by
    refine (shut_of_reachable hr hsd).resolve_right ?_
    rintro ⟨v, p, hv⟩
    have := hs.committed v
    rw [hv] at this
    cases this
  have h0 : s.queue.shared.pushersInFlight = 0 := by
    rw [(counters_of_reachable hr).inFlight]
    refine weight_eq_zero.mpr fun v => ?_
    have hf := hs.placed.fits v
    by_contra hv
    cases hk : s.queue.pc v with
    | push job p =>
      rw [hk] at hf
      obtain ⟨r, hr⟩ := fits_push hf
      exact hsub v job r hr
    | _ =>
      rw [hk] at hv
      exact hv rfl
  refine lower_worker h hs hpc fun q p hr hshared hq hp hc hor _ => ?_
  refine exit_alone h2 hr (by rw [hshared]; exact hb) hq hp hc ?_ ?_ (by rw [hshared]; exact hsd)
    (by rw [hshared]; exact h0)
  · rintro rfl
    exact hor.elim (hshut.2.2 u) (by simp)
  · rintro tl rfl
    exact hor.elim (hshut.2.1 u tl) (by simp)

/-- **From a state that is not at rest some schedule lowers the cost.** -/
theorem lower (h2 : 2 ≤ capacity) (hw : workers ≠ [])
    (h : (poolMachine workers capacity maxSpinners).Reachable s)
    (hb : s.queue.shared.core.tailClaims.length < 2 ^ 63) (hm : s.queue.shared.parkMtx = none)
    (hplain : ∀ t, (s.pc t).nested = false) (hrest : ¬ s.AtRest) :
    ∃ s', (poolMachine workers capacity maxSpinners).Leads Onward s s' ∧
      s'.cost workers < s.cost workers := by
  have hr := queue_reachable h
  have hplaced := (placed_and_ledger h2 h hb).1
  by_cases hcom : ∃ t, (s.queue.pc t).committed = true
  · obtain ⟨t, ht⟩ := hcom
    exact lower_inQueue workers (committed_alone h2 hr hb hm ht)
  by_cases hret : ∃ t r, s.queue.pc t = .returned r
  · obtain ⟨t, r, ht⟩ := hret
    exact lower_returned hplaced ht
  by_cases hrun : ∃ t, (∃ job, s.pc t = .run job) ∨ s.pc t = .count
  · obtain ⟨t, ht⟩ := hrun
    exact lower_running hplaced ht
  push Not at hcom hret hrun
  have hs : Still workers s := ⟨hplaced, manned_of_reachable h, fun t => by simpa using hcom t, hret,
    hm, hrun, hplain⟩
  have hle := (ringInv h2 hr hb).head_le
  rcases Nat.lt_or_eq_of_le hle with hlt | he
  · exact lower_pending h2 hw h hb hs hlt
  by_cases hsub : ∃ t job r, s.pc t = .submitting job r
  · obtain ⟨t, job, r, ht⟩ := hsub
    exact lower_submitting h2 h hb hs he ht
  push Not at hsub
  by_cases hjoin : ∃ t left, s.pc t = .joining left
  · obtain ⟨t, left, ht⟩ := hjoin
    exact lower_last h2 h hb hs hsub ht
  push Not at hjoin
  refine absurd ⟨fun t => ?_, hs.committed, hret, he⟩ hrest
  cases hpc : s.pc t with
  | client => exact .inl rfl
  | head => exact .inr (.inl rfl)
  | popping => exact .inr (.inr (.inl rfl))
  | exited => exact .inr (.inr (.inr rfl))
  | submitting job r => exact absurd hpc (hsub t job r)
  | run job => exact absurd hpc ((hrun t).1 job)
  | count => exact absurd hpc (hrun t).2
  | joining left => exact absurd hpc (hjoin t left)
  | closing =>
    have hf := hplaced.fits t
    rw [hpc] at hf
    obtain ⟨p, hp⟩ | hp := hf
    · have := hs.committed t
      rw [hp] at this
      cases this
    · exact absurd hp (hret t _)

/-! ### At rest -/

/-- Nothing new has begun. -/
structure Continues (s s' : State ι T) : Prop where
  submitted : s'.submitted = s.submitted
  shuttingDown : s'.shuttingDown = s.shuttingDown
  plain : (∀ t, (s.pc t).nested = false) → ∀ t, (s'.pc t).nested = false

omit [Fintype ι] [DecidableEq T] [Inhabited T] in
theorem Continues.move {t : ι} {k : PoolPc ι T} (hpc : s'.pc = Function.update s.pc t k)
    (hsub : s'.submitted = s.submitted) (hsd : s'.shuttingDown = s.shuttingDown)
    (hk : k.nested = false) : Continues s s' := by
  refine ⟨hsub, hsd, fun h u => ?_⟩
  rw [hpc]
  rcases eq_or_ne u t with rfl | hut
  · rw [Function.update_self, hk]
  · rw [Function.update_of_ne hut]
    exact h u

theorem continues_step {a : Act ι T} (ha : Onward s a)
    (hs : (poolMachine workers capacity maxSpinners).step s a = some s') : Continues s s' := by
  have hback : ∀ r : Option T, (PoolPc.back r : PoolPc ι T).nested = false := by
    intro r
    cases r <;> rfl
  cases a with
  | submit t job => cases ha
  | shutdown t => cases ha
  | inQueue t ch =>
    obtain ⟨q, -, rfl⟩ := Option.map_eq_some_iff.mp hs
    exact ⟨rfl, rfl, id⟩
  | submitted t =>
    simp only [poolMachine] at hs
    split at hs
    · cases hs
      exact .move (t := t) rfl rfl rfl (hback _)
    · cases hs
      exact .move (t := t) rfl rfl rfl (hback _)
    · cases hs
  | pop t =>
    simp only [poolMachine] at hs
    split at hs
    · obtain ⟨-, rfl⟩ := call_eq_some hs
      exact .move (t := t) rfl rfl rfl rfl
    · cases hs
  | popped t =>
    simp only [poolMachine] at hs
    split at hs
    · cases hs
      exact .move (t := t) rfl rfl rfl rfl
    · cases hs
      exact .move (t := t) rfl rfl rfl rfl
    · cases hs
  | finish t o =>
    simp only [poolMachine] at hs
    split at hs
    · cases hs
      exact .move (t := t) rfl rfl rfl (by cases o <;> rfl)
    · cases hs
  | count t =>
    simp only [poolMachine] at hs
    split at hs
    · cases hs
      exact .move (t := t) rfl rfl rfl rfl
    · cases hs
  | closed t =>
    simp only [poolMachine] at hs
    split at hs
    · cases hs
      exact .move (t := t) rfl rfl rfl rfl
    · cases hs
  | join t =>
    simp only [poolMachine] at hs
    split at hs
    · cases hs
      exact .move (t := t) rfl rfl rfl rfl
    · split at hs
      · cases hs
        exact .move (t := t) rfl rfl rfl rfl
      · cases hs
    · cases hs

/-- **At rest everything is done**: each job is rejected, or has been called and counted, and a
`shutdown()` that has begun has returned. -/
theorem State.AtRest.done (hrest : s.AtRest) (h2 : 2 ≤ capacity)
    (h : (poolMachine workers capacity maxSpinners).Reachable s)
    (hb : s.queue.shared.core.tailClaims.length < 2 ^ 63) :
    (∀ t ∉ workers, s.pc t = .client) ∧ (s.executed : Multiset T) = s.accepted ∧
      (s.submitted : Multiset T) = s.rejected + s.accepted ∧ s.completed = s.executed.length ∧
      (s.shuttingDown = true → s.joined = true) := by
  obtain ⟨hp, hl⟩ := placed_and_ledger h2 h hb
  obtain ⟨hlog, hi⟩ := logged h2 h hb
  have hpc : ∀ t, (∀ job r, s.pc t ≠ .submitting job r) ∧ (s.pc t).busy = false ∧
      s.pc t ≠ .closing ∧ ∀ left, s.pc t ≠ .joining left := by
    intro t
    rcases hrest.place t with ht | ht | ht | ht <;> rw [ht] <;> simp [PoolPc.busy]
  have hundecided : s.total undecided = 0 := by
    refine Finset.sum_eq_zero fun t _ => ?_
    unfold undecided
    split
    · next hk => exact absurd (congrArg Prod.fst hk) ((hpc t).1 _ _)
    · rfl
  have haccepting : s.total accepting = 0 := by
    refine Finset.sum_eq_zero fun t _ => ?_
    unfold accepting
    split
    · next hk => exact absurd (congrArg Prod.fst hk) ((hpc t).1 _ _)
    · rfl
  have hheld : s.total held = 0 := by
    refine Finset.sum_eq_zero fun t _ => ?_
    have hc : (s.thread t).2.committed = false := hrest.committed t
    unfold held
    split
    · next hk =>
      rw [congrArg Prod.snd hk] at hc
      cases hc
    · next hk =>
      rw [congrArg Prod.snd hk] at hc
      cases hc
    · next hk => exact absurd (congrArg Prod.snd hk) (hrest.returned t _)
    · rfl
  have hreturned : ∀ k ∈ s.queue.shared.core.headClaims, k.returned = true := by
    intro k hk
    obtain ⟨p, hkp⟩ := List.mem_iff_getElem?.mp hk
    have := hi.released_of_quiet hrest.committed (List.getElem?_eq_some_iff.mp hkp).1
    simpa [Core.released, hkp] using this
  have hpushed : (s.queue.shared.core.pushed : Multiset T) = s.accepted := by
    rw [hl.pushed, haccepting, add_zero]
  have hexec : (s.executed : Multiset T) = s.queue.shared.core.pushed := by
    rw [← Multiset.coe_eq_coe.mpr (hi.delivered_all hlog hrest.empty hreturned), hl.popped, hheld,
      add_zero]
  refine ⟨fun t ht => ?_, hexec.trans hpushed, ?_, ?_, fun hd => ?_⟩
  · have hwork : (s.pc t).working = false := by
      by_contra hwork
      exact ht (hp.worker t (by simpa using hwork))
    rcases hrest.place t with hc | hc | hc | hc
    · exact hc
    all_goals
      rw [hc] at hwork
      cases hwork
  · rw [hl.submitted, hundecided, add_zero, hpushed]
  · obtain ⟨n, hn, hc⟩ := hl.completed
    have hbusy : weight PoolPc.busy s.pc = 0 := weight_eq_zero.mpr fun t => (hpc t).2.1
    have hlen : s.executed.length ≤ s.queue.shared.core.tailClaims.length := by
      have h1 := congrArg Multiset.card hexec
      simp only [Multiset.coe_card] at h1
      exact h1.le.trans (hlog.pushed.length_eq.le.trans (List.length_filterMap_le _ _))
    rw [hn, word_of_lt] <;> omega
  · refine ((manned_of_reachable h).ending hd).resolve_right ?_
    rintro ⟨t, ht | ⟨left, ht⟩⟩
    · exact (hpc t).2.2.1 ht
    · exact (hpc t).2.2.2 left ht

/-- A state at rest can be reached. -/
theorem leads_to_rest (h2 : 2 ≤ capacity) (hw : workers ≠ [])
    (h : (poolMachine workers capacity maxSpinners).Reachable s)
    (hlen : s.submitted.length < 2 ^ 63) (hplain : ∀ t, (s.pc t).nested = false) :
    ∃ s', (poolMachine workers capacity maxSpinners).Leads Onward s s' ∧ Continues s s' ∧
      s'.AtRest := by
  have hkeep : ∀ {u u' : State ι T}, Continues s u →
      (poolMachine workers capacity maxSpinners).Leads Onward u u' → Continues s u' := by
    intro u u' hu hl
    refine hl.keep (P := Continues s) (fun v a v' hv ha hs => ?_) hu
    have hc := continues_step ha hs
    exact ⟨hc.submitted.trans hv.submitted, hc.shuttingDown.trans hv.shuttingDown,
      fun hp => hc.plain (hv.plain hp)⟩
  refine (Machine.Leads.of_rank (P := fun u =>
    (poolMachine workers capacity maxSpinners).Reachable u ∧ Continues s u) (State.cost workers) ?_
    ⟨h, rfl, rfl, id⟩).imp fun u ⟨h1, ⟨_, h2⟩, h3⟩ => ⟨h1, h2, h3⟩
  rintro u ⟨hr, hc⟩ hrest
  have hbound : ∀ {v : State ι T}, (poolMachine workers capacity maxSpinners).Reachable v →
      Continues s v → v.queue.shared.core.tailClaims.length < 2 ^ 63 := fun hr hc =>
    claims_lt hr (by rw [hc.submitted]; exact hlen)
  -- first the mutex is given back
  obtain ⟨q, hq, hle, hm⟩ := mutex_free h2 (queue_reachable hr) (hbound hr hc)
  have hlead : (poolMachine workers capacity maxSpinners).Leads Onward u { u with queue := q } :=
    leads_inQueue hq
  have hr' := hlead.reachable hr
  have hc' := hkeep hc hlead
  by_cases hrest' : ({ u with queue := q } : State ι T).AtRest
  · exact ⟨_, hlead, ⟨hr', hc'⟩, .inl hrest'⟩
  obtain ⟨v, hv, hlt⟩ := lower h2 hw hr' (hbound hr' hc') hm (hc'.plain hplain) hrest'
  refine ⟨v, hlead.trans hv, ⟨hv.reachable hr', hkeep hc' hv⟩, .inr (hlt.trans_le ?_)⟩
  exact Nat.add_le_add_right hle _

/-- **The pool can always catch up.**  From every reachable state in which no job is inside `submit`,
without a new call and without anything going wrong, some schedule comes to a state in which all calls
have returned: every job is rejected, or has been called and counted, and a `shutdown()` that had begun
has joined its workers. -/
theorem can_catch_up (h2 : 2 ≤ capacity) (hw : workers ≠ [])
    (h : (poolMachine workers capacity maxSpinners).Reachable s)
    (hlen : s.submitted.length < 2 ^ 63) (hplain : ∀ t, (s.pc t).nested = false) :
    ∃ s', (poolMachine workers capacity maxSpinners).Leads Onward s s' ∧
      (∀ t ∉ workers, s'.pc t = .client) ∧ s'.submitted = s.submitted ∧
      (s'.submitted : Multiset T) = s'.rejected + s'.accepted ∧
      (s'.executed : Multiset T) = s'.accepted ∧ s'.completed = s'.executed.length ∧
      (s.shuttingDown = true → s'.joined = true ∧ ∀ u ∈ workers, s'.pc u = .exited) := by
  obtain ⟨s', hs', hc, hrest⟩ := leads_to_rest h2 hw h hlen hplain
  have hr := hs'.reachable h
  have hb := claims_lt hr (by rw [hc.submitted]; exact hlen)
  obtain ⟨h3, h4, h5, h6, h7⟩ := hrest.done h2 hr hb
  refine ⟨s', hs', h3, hc.submitted, h5, h4, h6, fun hd => ?_⟩
  have hj := h7 (by rw [hc.shuttingDown, hd])
  exact ⟨hj, (placed_and_ledger h2 hr hb).1.joined hj⟩

end

/-- Where `lateSubmit` has come to while job 7 runs: thread 2 is inside `shutdown()`, thread 3 inside
`submit`, and worker 0 is about to look for a job. -/
theorem can_catch_up_lateSubmit :
    ∃ s s', (poolMachine [(0 : Fin 4), 1] 2 1).exec twoWorkers (lateSubmit.take 30) = some s ∧
      (poolMachine [(0 : Fin 4), 1] 2 1).Leads Onward s s' ∧ s.completed = 0 ∧
      s'.completed = s'.executed.length ∧ s'.joined = true := by
  have h : ((poolMachine [(0 : Fin 4), 1] 2 1).exec twoWorkers (lateSubmit.take 30)).map
      (fun s => (s.submitted.length, s.completed, s.shuttingDown, s.joined,
        decide (∀ t, (s.pc t).nested = false))) =
          some (2, 0, true, false, true) := by decide +kernel
  obtain ⟨s, hs, h⟩ := Option.map_eq_some_iff.mp h
  simp only [Prod.mk.injEq, decide_eq_true_eq] at h
  obtain ⟨hlen, h0, hd, -, hplain⟩ := h
  obtain ⟨s', hs', -, -, -, -, hcomp, hj⟩ := can_catch_up le_rfl (by simp : [(0 : Fin 4), 1] ≠ [])
    (.of_exec ⟨_, ⟨_, rfl, rfl⟩, rfl⟩ hs) (by rw [hlen]; norm_num) hplain
  exact ⟨s, s', hs, hs', h0, hcomp, (hj hd).1⟩

end OrderRisk.Pool
