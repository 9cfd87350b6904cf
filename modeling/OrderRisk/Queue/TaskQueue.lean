import OrderRisk.Queue.LockFree

/-!
# `TaskQueue`

The mutex queue.  Each function runs one critical section under `mtx_`, which `wait` may leave
without a result; the sections are functions of the queue's data (`push`, `pop`, `close`).  A
notification is a step of its own, after the unlock: `notify_one` wakes one thread that is blocked
on the condition variable if there is one, and a blocked thread may wake for no reason.  A woken
thread runs the section again.

The lists of what was accepted, taken out and returned are ghosts.
-/

namespace OrderRisk.Queue

open OrderRisk.Lib

variable {ι T : Type*}

/-- `TaskQueue`, the mutex and the condition variables aside. -/
structure TaskQueue (T : Type*) where
  queue : List T
  capacity : ℕ
  shutdown : Bool
  deriving DecidableEq

namespace TaskQueue

/-! ### The critical sections -/

/-- The critical section of `push`: the result, or `none` while it would wait. -/
def push (q : TaskQueue T) (item : T) : Option (TaskQueue T × Bool) :=
  if q.queue.length < q.capacity ∨ q.shutdown then
    if q.shutdown then some (q, false)
    else some ({ q with queue := q.queue ++ [item] }, true)
  else none

/-- The critical section of `pop`. -/
def pop (q : TaskQueue T) : Option (TaskQueue T × Option T) :=
  match q.queue with
  | [] => if q.shutdown then some (q, none) else none
  | item :: queue => some ({ q with queue }, some item)

/-- The critical section of `shutdown`. -/
def close (q : TaskQueue T) : TaskQueue T := { q with shutdown := true }

/-- `size`. -/
def size (q : TaskQueue T) : ℕ := q.queue.length

def fresh (capacity : ℕ) : TaskQueue T := ⟨[], capacity, false⟩

theorem push_cases {q q' : TaskQueue T} {x : T} {ok : Bool} (h : q.push x = some (q', ok)) :
    (ok = true ∧ q.queue.length < q.capacity ∧ q.shutdown = false ∧
      q' = { q with queue := q.queue ++ [x] }) ∨
    (ok = false ∧ q.shutdown = true ∧ q' = q) := by
  unfold push at h
  split_ifs at h with h1 h2
  · cases h
    exact .inr ⟨rfl, h2, rfl⟩
  · cases h
    exact .inl ⟨rfl, h1.resolve_right h2, by simpa using h2, rfl⟩

theorem push_none {q : TaskQueue T} {x : T} (h : q.push x = none) :
    q.capacity ≤ q.queue.length ∧ q.shutdown = false := by
  unfold push at h
  split_ifs at h with h1
  simp only [not_or, not_lt, Bool.not_eq_true] at h1
  exact h1

theorem pop_cases {q q' : TaskQueue T} {r : Option T} (h : q.pop = some (q', r)) :
    (∃ x, r = some x ∧ q.queue = x :: q'.queue ∧ q' = { q with queue := q'.queue }) ∨
    (r = none ∧ q.queue = [] ∧ q.shutdown = true ∧ q' = q) := by
  unfold pop at h
  split at h
  · next hq =>
    split_ifs at h with hs
    cases h
    exact .inr ⟨rfl, hq, hs, rfl⟩
  · next x xs hq =>
    cases h
    exact .inl ⟨x, rfl, hq, rfl⟩

theorem pop_none {q : TaskQueue T} (h : q.pop = none) : q.queue = [] ∧ q.shutdown = false := by
  unfold pop at h
  split at h
  · next hq =>
    split_ifs at h with hs
    exact ⟨hq, by simpa using hs⟩
  · cases h

/-! ### Threads -/

/-- The condition variables. -/
inductive Cond where
  | notEmpty
  | notFull
  deriving DecidableEq

/-- Where a thread is. -/
inductive Pc (T : Type*) where
  | idle
  /-- In `push`, about to take the mutex, for the first time or after a wake-up. -/
  | push (item : T)
  /-- Blocked in `notFull_.wait`, not notified. -/
  | pushWaiting (item : T)
  /-- `notEmpty_.notify_one(); return true`. -/
  | pushed
  /-- In `pop`, about to take the mutex. -/
  | pop
  /-- Blocked in `notEmpty_.wait`, not notified. -/
  | popWaiting
  /-- `notFull_.notify_one(); return item`. -/
  | popped (item : T)
  | shutdown
  /-- `notEmpty_.notify_all()`. -/
  | notifyEmpty
  /-- `notFull_.notify_all()`. -/
  | notifyFull
  | returned (r : Ret T)

def Pc.start : Call T → Pc T
  | .push item => .push item
  | .pop => .pop
  | .shutdown => .shutdown

def Pc.waits : Cond → Pc T → Bool
  | .notEmpty, .popWaiting => true
  | .notFull, .pushWaiting _ => true
  | _, _ => false

def Pc.wake : Pc T → Pc T
  | .pushWaiting item => .push item
  | .popWaiting => .pop
  | k => k

/-- What a step notifies. -/
inductive Notify where
  | nothing
  | one (c : Cond)
  | all (c : Cond)

/-- A step of a thread inside a call, blocked threads aside. -/
def threadStep (q : TaskQueue T) : Pc T → Option (TaskQueue T × Pc T × Notify)
  | .push item =>
    match q.push item with
    | none => some (q, .pushWaiting item, .nothing)
    | some (q', true) => some (q', .pushed, .nothing)
    | some (q', false) => some (q', .returned (.pushed false), .nothing)
  | .pushed => some (q, .returned (.pushed true), .one .notEmpty)
  | .pop =>
    match q.pop with
    | none => some (q, .popWaiting, .nothing)
    | some (q', some item) => some (q', .popped item, .nothing)
    | some (q', none) => some (q', .returned (.popped none), .nothing)
  | .popped item => some (q, .returned (.popped (some item)), .one .notFull)
  | .shutdown => some (q.close, .notifyEmpty, .nothing)
  | .notifyEmpty => some (q, .notifyFull, .all .notEmpty)
  | .notifyFull => some (q, .returned .shutDown, .all .notFull)
  | _ => none

def added : Pc T → Pc T → List T
  | .push item, .pushed => [item]
  | _, _ => []

def removed : Pc T → Pc T → List T
  | .pop, .popped item => [item]
  | _, _ => []

/-- `accepted` and `taken` are in the order of the critical sections, `delivered` in the order of
the returns. -/
structure State (ι T : Type*) where
  q : TaskQueue T
  pc : ι → Pc T
  accepted : List T
  taken : List T
  delivered : List T

inductive Act (ι T : Type*) where
  | call (t : ι) (c : Call T)
  /-- `wake`: whom a `notify_one` wakes. -/
  | step (t : ι) (wake : Option ι)
  /-- A blocked thread wakes for no reason. -/
  | spurious (t : ι)
  | ret (t : ι)

def Ret.item : Ret T → List T
  | .popped (some x) => [x]
  | _ => []

section

variable [Fintype ι] [DecidableEq ι]

/-- The threads after a notification; `none` when `wake` is not possible. -/
def notify (pc : ι → Pc T) (wake : Option ι) : Notify → Option (ι → Pc T)
  | .nothing => some pc
  | .one c =>
    match wake with
    | some u => if (pc u).waits c then some (Function.update pc u (pc u).wake) else none
    | none => if ∀ u, (pc u).waits c = false then some pc else none
  | .all c => some fun u => if (pc u).waits c then (pc u).wake else pc u

/-- The machine of a queue of the given capacity. -/
def machine (ι T : Type*) [Fintype ι] [DecidableEq ι] (capacity : ℕ) :
    Machine (State ι T) (Act ι T) where
  init s := s = ⟨fresh capacity, fun _ => .idle, [], [], []⟩
  step s
    | .call t c =>
      match s.pc t with
      | .idle => some { s with pc := Function.update s.pc t (.start c) }
      | _ => none
    | .step t wake =>
      (threadStep s.q (s.pc t)).bind fun r =>
        (notify s.pc wake r.2.2).map fun pc =>
          ⟨r.1, Function.update pc t r.2.1, s.accepted ++ added (s.pc t) r.2.1,
            s.taken ++ removed (s.pc t) r.2.1, s.delivered⟩
    | .spurious t =>
      if (s.pc t).waits .notEmpty ∨ (s.pc t).waits .notFull then
        some { s with pc := Function.update s.pc t (s.pc t).wake }
      else none
    | .ret t =>
      match s.pc t with
      | .returned r =>
        some { s with pc := Function.update s.pc t .idle, delivered := s.delivered ++ Ret.item r }
      | _ => none

end

/-! ### What a step can do -/

/-- A thread's step from `k` to `k'`, with what it finds in the queue. -/
inductive Move (q : TaskQueue T) : Pc T → TaskQueue T → Pc T → Notify → Prop
  | full (x : T) (h : q.capacity ≤ q.queue.length) (hs : q.shutdown = false) :
      Move q (.push x) q (.pushWaiting x) .nothing
  | accept (x : T) (h : q.queue.length < q.capacity) (hs : q.shutdown = false) :
      Move q (.push x) { q with queue := q.queue ++ [x] } .pushed .nothing
  | reject (x : T) (hs : q.shutdown = true) :
      Move q (.push x) q (.returned (.pushed false)) .nothing
  | pushed : Move q .pushed q (.returned (.pushed true)) (.one .notEmpty)
  | empty (h : q.queue = []) (hs : q.shutdown = false) : Move q .pop q .popWaiting .nothing
  | take (x : T) (xs : List T) (h : q.queue = x :: xs) :
      Move q .pop { q with queue := xs } (.popped x) .nothing
  | drained (h : q.queue = []) (hs : q.shutdown = true) :
      Move q .pop q (.returned (.popped none)) .nothing
  | popped (x : T) : Move q (.popped x) q (.returned (.popped (some x))) (.one .notFull)
  | close : Move q .shutdown q.close .notifyEmpty .nothing
  | notifyEmpty : Move q .notifyEmpty q .notifyFull (.all .notEmpty)
  | notifyFull : Move q .notifyFull q (.returned .shutDown) (.all .notFull)

theorem move_of_threadStep {q q' : TaskQueue T} {k k' : Pc T} {n : Notify}
    (h : threadStep q k = some (q', k', n)) : Move q k q' k' n := by
  cases k with
  | push x =>
    simp only [threadStep] at h
    split at h
    · next hp =>
      cases h
      exact .full x (push_none hp).1 (push_none hp).2
    · next q₁ hp =>
      cases h
      obtain ⟨-, hlt, hs, rfl⟩ | ⟨hf, -⟩ := push_cases hp
      · exact .accept x hlt hs
      · cases hf
    · next q₁ hp =>
      cases h
      obtain ⟨hf, -⟩ | ⟨-, hs, rfl⟩ := push_cases hp
      · cases hf
      · exact .reject x hs
  | pop =>
    simp only [threadStep] at h
    split at h
    · next hp =>
      cases h
      exact .empty (pop_none hp).1 (pop_none hp).2
    · next q₁ x hp =>
      cases h
      obtain ⟨y, hy, hq, he⟩ | ⟨hf, -⟩ := pop_cases hp
      · cases hy
        rw [he]
        exact .take x _ hq
      · cases hf
    · next q₁ hp =>
      cases h
      obtain ⟨y, hy, -⟩ | ⟨-, hq, hs, rfl⟩ := pop_cases hp
      · cases hy
      · exact .drained hq hs
  | pushed =>
    cases h
    exact .pushed
  | popped x =>
    cases h
    exact .popped x
  | shutdown =>
    cases h
    exact .close
  | notifyEmpty =>
    cases h
    exact .notifyEmpty
  | notifyFull =>
    cases h
    exact .notifyFull
  | _ => cases h

theorem Move.fifo {q q' : TaskQueue T} {k k' : Pc T} {n : Notify} (h : Move q k q' k' n) :
    q.queue ++ added k k' = removed k k' ++ q'.queue := by
  cases h with
  | take x xs h => simp [added, removed, h]
  | accept x h hs => rfl
  | _ => exact List.append_nil _

theorem Move.capacity_eq {q q' : TaskQueue T} {k k' : Pc T} {n : Notify} (h : Move q k q' k' n) :
    q'.capacity = q.capacity := by
  cases h <;> rfl

theorem Move.bounded {q q' : TaskQueue T} {k k' : Pc T} {n : Notify} (h : Move q k q' k' n)
    (hb : q.queue.length ≤ q.capacity) : q'.queue.length ≤ q'.capacity := by
  cases h with
  | accept x hlt hs =>
    rw [List.length_append, List.length_singleton]
    exact hlt
  | take x xs he =>
    rw [he, List.length_cons] at hb
    exact Nat.le_of_succ_le hb
  | _ => exact hb

theorem Move.closed {q q' : TaskQueue T} {k k' : Pc T} {n : Notify} (h : Move q k q' k' n)
    (hs : q.shutdown = true) : q'.shutdown = true ∧ added k k' = [] := by
  cases h with
  | accept x hlt ho =>
    rw [hs] at ho
    cases ho
  | close => exact ⟨rfl, rfl⟩
  | _ => exact ⟨hs, rfl⟩

theorem Move.empty_of_closed {q q' : TaskQueue T} {k k' : Pc T} {n : Notify}
    (h : Move q k q' k' n) (hs : q.shutdown = true) (he : q.queue = []) : q'.queue = [] := by
  have hf := h.fifo
  rw [(h.closed hs).2, he] at hf
  exact (List.append_eq_nil_iff.mp hf.symm).2

section

variable [Fintype ι] [DecidableEq ι] {capacity : ℕ} {s s' : State ι T} {a : Act ι T}

/-- **What a step of the queue can be.** -/
theorem step_cases (h : (machine ι T capacity).step s a = some s') :
    (∃ t c, a = .call t c ∧ s.pc t = .idle ∧
      s' = { s with pc := Function.update s.pc t (.start c) }) ∨
    (∃ t wake q' k n pc', a = .step t wake ∧ Move s.q (s.pc t) q' k n ∧
      notify s.pc wake n = some pc' ∧
      s' = ⟨q', Function.update pc' t k, s.accepted ++ added (s.pc t) k,
        s.taken ++ removed (s.pc t) k, s.delivered⟩) ∨
    (∃ t c, a = .spurious t ∧ (s.pc t).waits c = true ∧
      s' = { s with pc := Function.update s.pc t (s.pc t).wake }) ∨
    (∃ t r, a = .ret t ∧ s.pc t = .returned r ∧
      s' = { s with pc := Function.update s.pc t .idle, delivered := s.delivered ++ Ret.item r }) := by
  cases a with
  | call t c =>
    simp only [machine] at h
    split at h
    · next ht =>
      cases h
      exact .inl ⟨t, c, rfl, ht, rfl⟩
    · cases h
  | step t wake =>
    obtain ⟨⟨q', k, n⟩, hl, h⟩ := Option.bind_eq_some_iff.mp h
    obtain ⟨pc', hn, rfl⟩ := Option.map_eq_some_iff.mp h
    exact .inr (.inl ⟨t, wake, q', k, n, pc', rfl, move_of_threadStep hl, hn, rfl⟩)
  | spurious t =>
    simp only [machine] at h
    split_ifs at h with hw
    cases h
    rcases hw with hw | hw
    · exact .inr (.inr (.inl ⟨t, _, rfl, hw, rfl⟩))
    · exact .inr (.inr (.inl ⟨t, _, rfl, hw, rfl⟩))
  | ret t =>
    simp only [machine] at h
    split at h
    · next r hr =>
      cases h
      exact .inr (.inr (.inr ⟨t, r, rfl, hr, rfl⟩))
    · cases h

end

end TaskQueue

end OrderRisk.Queue
