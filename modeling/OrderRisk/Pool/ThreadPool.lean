import OrderRisk.Queue.Closing
import OrderRisk.Queue.Delivery
import Mathlib.Algebra.Order.Group.Multiset

/-!
# `ThreadPool`

Workers loop on `pop` and run what they get; other threads, and running jobs, call `submit`; one
`shutdown()` closes the queue and joins the workers.  Each step of the pool is a step of the queue
below it, or a step of a thread outside the queue.  A job is known by its identity: every `submit`
brings a new one.

The ghost lists record which jobs were submitted, accepted (`submit` returned true), rejected, and
executed (the worker has called the job, which may return or throw).
-/

namespace OrderRisk.Pool

open OrderRisk.Lib OrderRisk.Queue

variable {ι T : Type*}

/-- Where a thread is, outside the queue's functions. -/
inductive PoolPc (ι T : Type*) where
  /-- Not a worker, in none of the pool's functions. -/
  | client
  /-- In `queue_.push(job)`; `running` is the job whose body called `submit`, if one did. -/
  | submitting (job : T) (running : Option T)
  /-- `workerLoop`: about to call `queue_.pop()`. -/
  | head
  | popping
  /-- In `(*job)()`. -/
  | run (job : T)
  /-- About to do `completed_.fetch_add(1)`. -/
  | count
  /-- `workerLoop` has returned. -/
  | exited
  /-- In `queue_.shutdown()`. -/
  | closing
  /-- `for (auto& t : workers_) t.join()`, with these left. -/
  | joining (left : List ι)

/-- How `(*job)()` ends. -/
inductive Outcome where
  | returned
  | stdException
  | otherException

/-- Both handlers print, and go on. -/
def Outcome.next : Outcome → PoolPc ι T
  | .returned => .count
  | .stdException => .count
  | .otherException => .count

/-- After `submit`: back to the client's code, or to the job's. -/
def PoolPc.back : Option T → PoolPc ι T
  | none => .client
  | some job => .run job

structure State (ι T : Type*) where
  queue : Queue.State ι T
  pc : ι → PoolPc ι T
  shuttingDown : Bool
  completed : ℕ
  submitted : List T
  accepted : List T
  rejected : List T
  executed : List T
  /-- The `shutdown()` that closed the queue has returned. -/
  joined : Bool

inductive Act (ι T : Type*) where
  | submit (t : ι) (job : T)
  /-- A step inside `queue_`'s functions. -/
  | inQueue (t : ι) (ch : Choice ι T)
  | submitted (t : ι)
  | pop (t : ι)
  | popped (t : ι)
  | finish (t : ι) (o : Outcome)
  | count (t : ι)
  | shutdown (t : ι)
  | closed (t : ι)
  | join (t : ι)

section

variable [DecidableEq ι]

def State.call (s : State ι T) (t : ι) (c : Call T) (k : PoolPc ι T) : Option (State ι T) :=
  match s.queue.pc t with
  | .idle => some { s with
      queue := { s.queue with pc := Function.update s.queue.pc t c.start }
      pc := Function.update s.pc t k }
  | _ => none

def State.take (s : State ι T) (t : ι) (k : PoolPc ι T) : State ι T :=
  { s with
    queue := { s.queue with pc := Function.update s.queue.pc t .idle }
    pc := Function.update s.pc t k }

def State.goto (s : State ι T) (t : ι) (k : PoolPc ι T) : State ι T :=
  { s with pc := Function.update s.pc t k }

variable [Fintype ι] [DecidableEq T] [Inhabited T]

/-- The machine of `ThreadPool(workers, capacity)`. -/
def poolMachine (workers : List ι) (capacity : ℕ) (maxSpinners : ℤ) :
    Machine (State ι T) (Act ι T) where
  init s := ∃ q, (queueMachine ι capacity maxSpinners).init q ∧
    s = ⟨q, fun t => if t ∈ workers then .head else .client, false, 0, [], [], [], [], false⟩
  step s
    | .submit t job =>
      if job ∈ s.submitted then none else
      match s.pc t with
      | .client => ({ s with submitted := s.submitted ++ [job] } : State ι T).call t (.push job)
          (.submitting job none)
      | .run r => ({ s with submitted := s.submitted ++ [job] } : State ι T).call t (.push job)
          (.submitting job (some r))
      | _ => none
    | .inQueue t ch =>
      ((queueMachine ι capacity maxSpinners).step s.queue (.step t ch)).map fun q =>
        { s with queue := q }
    | .submitted t =>
      match s.pc t, s.queue.pc t with
      | .submitting job r, .returned (.pushed true) =>
        some (({ s with accepted := s.accepted ++ [job] } : State ι T).take t (.back r))
      | .submitting job r, .returned (.pushed false) =>
        some (({ s with rejected := s.rejected ++ [job] } : State ι T).take t (.back r))
      | _, _ => none
    | .pop t =>
      match s.pc t with
      | .head => s.call t .pop .popping
      | _ => none
    | .popped t =>
      match s.pc t, s.queue.pc t with
      | .popping, .returned (.popped (some job)) =>
        some (({ s with executed := s.executed ++ [job] } : State ι T).take t (.run job))
      | .popping, .returned (.popped none) => some (s.take t .exited)
      | _, _ => none
    | .finish t o =>
      match s.pc t with
      | .run _ => some (s.goto t o.next)
      | _ => none
    | .count t =>
      match s.pc t with
      | .count => some (({ s with completed := word (s.completed + 1) } : State ι T).goto t .head)
      | _ => none
    | .shutdown t =>
      match s.pc t with
      | .client =>
        -- `compare_exchange_strong`: who loses returns at once
        if s.shuttingDown then some s
        else ({ s with shuttingDown := true } : State ι T).call t .shutdown .closing
      | _ => none
    | .closed t =>
      match s.pc t, s.queue.pc t with
      | .closing, .returned .shutDown => some (s.take t (.joining workers))
      | _, _ => none
    | .join t =>
      match s.pc t with
      | .joining [] => some (({ s with joined := true } : State ι T).goto t .client)
      | .joining (u :: us) =>
        match s.pc u with
        | .exited => some (s.goto t (.joining us))
        | _ => none
      | _ => none

end

/-! ### What a step can be -/

section

variable [Fintype ι] [DecidableEq ι] [Inhabited T]

/-- The steps of the pool. -/
inductive Move (workers : List ι) (capacity : ℕ) (maxSpinners : ℤ) (s : State ι T) :
    State ι T → Prop
  | submit (t : ι) (job : T) (r : Option T) (hpc : s.pc t = .back r) (hq : s.queue.pc t = .idle)
      (hnew : job ∉ s.submitted) : Move workers capacity maxSpinners s
      { s with
        queue := { s.queue with pc := Function.update s.queue.pc t (.push job .enter) }
        pc := Function.update s.pc t (.submitting job r)
        submitted := s.submitted ++ [job] }
  | inQueue (t : ι) (ch : Choice ι T) (q : Queue.State ι T)
      (hq : (queueMachine ι capacity maxSpinners).step s.queue (.step t ch) = some q) :
      Move workers capacity maxSpinners s { s with queue := q }
  | accepted (t : ι) (job : T) (r : Option T) (hpc : s.pc t = .submitting job r)
      (hq : s.queue.pc t = .returned (.pushed true)) : Move workers capacity maxSpinners s
      (({ s with accepted := s.accepted ++ [job] } : State ι T).take t (.back r))
  | rejected (t : ι) (job : T) (r : Option T) (hpc : s.pc t = .submitting job r)
      (hq : s.queue.pc t = .returned (.pushed false)) : Move workers capacity maxSpinners s
      (({ s with rejected := s.rejected ++ [job] } : State ι T).take t (.back r))
  | pop (t : ι) (hpc : s.pc t = .head) (hq : s.queue.pc t = .idle) :
      Move workers capacity maxSpinners s
      { s with
        queue := { s.queue with pc := Function.update s.queue.pc t (.pop .takeSlot) }
        pc := Function.update s.pc t .popping }
  | popped (t : ι) (job : T) (hpc : s.pc t = .popping)
      (hq : s.queue.pc t = .returned (.popped (some job))) : Move workers capacity maxSpinners s
      (({ s with executed := s.executed ++ [job] } : State ι T).take t (.run job))
  | exit (t : ι) (hpc : s.pc t = .popping) (hq : s.queue.pc t = .returned (.popped none)) :
      Move workers capacity maxSpinners s (s.take t .exited)
  | finish (t : ι) (job : T) (hpc : s.pc t = .run job) :
      Move workers capacity maxSpinners s (s.goto t .count)
  | count (t : ι) (hpc : s.pc t = .count) : Move workers capacity maxSpinners s
      (({ s with completed := word (s.completed + 1) } : State ι T).goto t .head)
  | lose (h : s.shuttingDown = true) : Move workers capacity maxSpinners s s
  | shutdown (t : ι) (hpc : s.pc t = .client) (hq : s.queue.pc t = .idle) :
      Move workers capacity maxSpinners s
      { s with
        queue := { s.queue with pc := Function.update s.queue.pc t (.shutdown .store) }
        pc := Function.update s.pc t .closing
        shuttingDown := true }
  | closed (t : ι) (hpc : s.pc t = .closing) (hq : s.queue.pc t = .returned .shutDown) :
      Move workers capacity maxSpinners s (s.take t (.joining workers))
  | join (t u : ι) (us : List ι) (hpc : s.pc t = .joining (u :: us)) (hu : s.pc u = .exited) :
      Move workers capacity maxSpinners s (s.goto t (.joining us))
  | joined (t : ι) (hpc : s.pc t = .joining []) :
      Move workers capacity maxSpinners s (({ s with joined := true } : State ι T).goto t .client)

omit [Fintype ι] [Inhabited T] in
theorem call_eq_some {s s' : State ι T} {t : ι} {c : Call T} {k : PoolPc ι T}
    (h : s.call t c k = some s') : s.queue.pc t = .idle ∧ s' = { s with
      queue := { s.queue with pc := Function.update s.queue.pc t c.start }
      pc := Function.update s.pc t k } := by
  unfold State.call at h
  split at h
  · next hq =>
    cases h
    exact ⟨hq, rfl⟩
  · cases h

variable [DecidableEq T] {workers : List ι} {capacity : ℕ} {maxSpinners : ℤ}
  {s s' : State ι T} {a : Act ι T}

theorem move_of_step (h : (poolMachine workers capacity maxSpinners).step s a = some s') :
    Move workers capacity maxSpinners s s' := by
  cases a with
  | submit t job =>
    simp only [poolMachine] at h
    split at h
    · cases h
    · next hnew =>
      split at h
      · next hpc =>
        obtain ⟨hq, rfl⟩ := call_eq_some h
        exact .submit t job none hpc hq hnew
      · next r hpc =>
        obtain ⟨hq, rfl⟩ := call_eq_some h
        exact .submit t job (some r) hpc hq hnew
      · cases h
  | inQueue t ch =>
    obtain ⟨q, hq, rfl⟩ := Option.map_eq_some_iff.mp h
    exact .inQueue t ch q hq
  | submitted t =>
    simp only [poolMachine] at h
    split at h
    · next job r hpc hq =>
      cases h
      exact .accepted t job r hpc hq
    · next job r hpc hq =>
      cases h
      exact .rejected t job r hpc hq
    · cases h
  | pop t =>
    simp only [poolMachine] at h
    split at h
    · next hpc =>
      obtain ⟨hq, rfl⟩ := call_eq_some h
      exact .pop t hpc hq
    · cases h
  | popped t =>
    simp only [poolMachine] at h
    split at h
    · next job hpc hq =>
      cases h
      exact .popped t job hpc hq
    · next hpc hq =>
      cases h
      exact .exit t hpc hq
    · cases h
  | finish t o =>
    simp only [poolMachine] at h
    split at h
    · next job hpc =>
      cases h
      cases o <;> exact .finish t job hpc
    · cases h
  | count t =>
    simp only [poolMachine] at h
    split at h
    · next hpc =>
      cases h
      exact .count t hpc
    · cases h
  | shutdown t =>
    simp only [poolMachine] at h
    split at h
    · next hpc =>
      split at h
      · next hs =>
        cases h
        exact .lose hs
      · obtain ⟨hq, rfl⟩ := call_eq_some h
        exact .shutdown t hpc hq
    · cases h
  | closed t =>
    simp only [poolMachine] at h
    split at h
    · next hpc hq =>
      cases h
      exact .closed t hpc hq
    · cases h
  | join t =>
    simp only [poolMachine] at h
    split at h
    · next hpc =>
      cases h
      exact .joined t hpc
    · next u us hpc =>
      split at h
      · next hu =>
        cases h
        exact .join t u us hpc hu
      · cases h
    · cases h

end

end OrderRisk.Pool
