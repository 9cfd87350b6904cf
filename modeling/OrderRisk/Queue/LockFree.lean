import OrderRisk.Queue.RingSteps

/-!
# `LockFreeTaskQueue`

`push`, `pop` and `shutdown` one atomic step at a time, over the ring's steps.  `parkMtx_` and its
condition variable are as the standard has them: `wait` releases the mutex and blocks in one step,
a blocked thread may wake spuriously, and `notify_one` wakes one blocked thread if there is one.
A thread's position (`ThreadPc`) also carries, as ghosts, the ring position its `push` has claimed
and the `tail_` its wait predicate has loaded.

Any thread may call any of the three functions (`queueMachine`).
-/

namespace OrderRisk.Queue

open OrderRisk.Lib

variable {ι T : Type*}

/-- `kSpins`. -/
def kSpins : ℕ := 4096

/-! ### Where a thread is -/

/-- Inside `push(item)`.  `pos` is the position the push has claimed. -/
inductive PushAt where
  /-- `pushersInFlight_.fetch_add(1)`. -/
  | enter
  | checkShutdown
  | tryPush (p : PushPc)
  /-- `shutdown_.load()` after a `try_push` that found the ring full. -/
  | recheckShutdown
  /-- `pushersInFlight_.fetch_sub(1); return false`. -/
  | reject
  /-- `pushersInFlight_.fetch_sub(1)` after a successful `try_push`. -/
  | leave (pos : ℕ)
  /-- `sleepers_.fetch_add(0) > 0`. -/
  | readSleepers (pos : ℕ)
  | readSpinners (pos : ℕ)
  | lock (pos : ℕ)
  | unlock (pos : ℕ)
  | notify (pos : ℕ)
  deriving DecidableEq

/-- Which of `pop`'s three `try_pop`s it is: round `i` of the spin loop, the one after announcing
to sleep, or the one before giving up. -/
inductive Site where
  | spin (i : ℕ)
  | recheck
  | last
  deriving DecidableEq

/-- Inside `pop()`.  `t` is the `tail_` the predicate has loaded. -/
inductive PopAt (T : Type*) where
  /-- `spinners_.fetch_add(1) < maxSpinners_`. -/
  | takeSlot
  | tryPop (site : Site) (p : PopPc T)
  | relax (i : ℕ)
  /-- `spinners_.fetch_sub(1); return item`. -/
  | spinOk (item : T)
  /-- `spinners_.fetch_sub(1)`. -/
  | giveSlot
  /-- `sleepers_.fetch_add(1)`. -/
  | announce
  /-- `sleepers_.fetch_sub(1); return item`. -/
  | recheckOk (item : T)
  | readShutdown
  | readInFlight
  /-- `sleepers_.fetch_sub(1)`, on the way out. -/
  | giveUp
  | lock
  /-- The predicate: `approx_size()` loads `tail_`, then `head_`; then `shutdown_`. -/
  | loadTail
  | loadHead (t : ℕ)
  | predShutdown (t : ℕ)
  /-- The predicate was false: about to block. -/
  | park (t : ℕ)
  | waiting
  /-- Notified, or woken for no reason; about to take the mutex again. -/
  | woken
  | unlock
  /-- `sleepers_.fetch_sub(1)`, and back to the head of the loop. -/
  | awake

/-- Inside `shutdown()`. -/
inductive ShutdownAt where
  | store
  | lock
  | unlock
  | notifyAll
  deriving DecidableEq

inductive Ret (T : Type*) where
  | pushed (ok : Bool)
  | popped (item : Option T)
  | shutDown

inductive Call (T : Type*) where
  | push (item : T)
  | pop
  | shutdown

/-- Where a thread is. -/
inductive ThreadPc (T : Type*) where
  | idle
  | push (item : T) (p : PushAt)
  | pop (p : PopAt T)
  | shutdown (p : ShutdownAt)
  | returned (r : Ret T)

def Call.start : Call T → ThreadPc T
  | .push item => .push item .enter
  | .pop => .pop .takeSlot
  | .shutdown => .shutdown .store

def Site.onItem (item : T) : Site → ThreadPc T
  | .spin _ => .pop (.spinOk item)
  | .recheck => .pop (.recheckOk item)
  | .last => .returned (.popped (some item))

def Site.onEmpty : Site → ThreadPc T
  | .spin i => .pop (.relax i)
  | .recheck => .pop .readShutdown
  | .last => .returned (.popped none)

def PushPc.pos : PushPc → ℕ
  | .load => 0
  | .loadSeq pos => pos
  | .cas pos => pos
  | .move pos => pos
  | .publish pos => pos

/-! ### Steps -/

/-- `LockFreeTaskQueue`'s members, the condition variable aside: who waits is in the threads'
positions. -/
structure Shared (ι T : Type*) where
  core : Core ι T
  shutdown : Bool
  sleepers : ℤ
  spinners : ℤ
  pushersInFlight : ℤ
  parkMtx : Option ι

def Shared.fresh (ring : LockFreeRing T) : Shared ι T := ⟨ring.unused, false, 0, 0, 0, none⟩

/-- What the environment chooses: does a weak CAS fail, what does a move leave behind, and whom
does `notify_one` wake. -/
structure Choice (ι T : Type*) where
  spurious : Bool
  residue : T
  wake : Option ι

/-- What a step does to the threads blocked in `wait`. -/
inductive Wake where
  | nobody
  | one
  | all

section

variable [Inhabited T] (maxSpinners : ℤ) (t : ι) (ch : Choice ι T) (g : Shared ι T)

/-- A step of `push`. -/
def pushAtStep (item : T) : PushAt → Option (Shared ι T × ThreadPc T × Wake)
  | .enter =>
    some ({ g with pushersInFlight := g.pushersInFlight + 1 }, .push item .checkShutdown, .nobody)
  | .checkShutdown =>
    some (g, .push item (if g.shutdown then .reject else .tryPush .load), .nobody)
  | .tryPush p =>
    match pushStep t item ch.spurious g.core p with
    | (core, .inl p') => some ({ g with core }, .push item (.tryPush p'), .nobody)
    | (core, .inr true) => some ({ g with core }, .push item (.leave p.pos), .nobody)
    | (core, .inr false) => some ({ g with core }, .push item .recheckShutdown, .nobody)
  | .recheckShutdown =>
    some (g, .push item (if g.shutdown then .reject else .tryPush .load), .nobody)
  | .reject =>
    some ({ g with pushersInFlight := g.pushersInFlight - 1 }, .returned (.pushed false), .nobody)
  | .leave pos =>
    some ({ g with pushersInFlight := g.pushersInFlight - 1 }, .push item (.readSleepers pos),
      .nobody)
  | .readSleepers pos =>
    some (g, if 0 < g.sleepers then .push item (.readSpinners pos) else .returned (.pushed true),
      .nobody)
  | .readSpinners pos =>
    some (g, if g.spinners = 0 then .push item (.lock pos) else .returned (.pushed true), .nobody)
  | .lock pos =>
    match g.parkMtx with
    | none => some ({ g with parkMtx := some t }, .push item (.unlock pos), .nobody)
    | some _ => none
  | .unlock pos => some ({ g with parkMtx := none }, .push item (.notify pos), .nobody)
  | .notify _ => some (g, .returned (.pushed true), .one)

/-- A step of `pop`.  A step of a blocked thread is a spurious wake-up. -/
def popAtStep : PopAt T → Option (Shared ι T × ThreadPc T × Wake)
  | .takeSlot =>
    some ({ g with spinners := g.spinners + 1 },
      .pop (if g.spinners < maxSpinners then .tryPop (.spin 0) .load else .giveSlot), .nobody)
  | .tryPop site p =>
    match popStep t ch.spurious ch.residue g.core p with
    | (core, .inl p') => some ({ g with core }, .pop (.tryPop site p'), .nobody)
    | (core, .inr (some item)) => some ({ g with core }, site.onItem item, .nobody)
    | (core, .inr none) => some ({ g with core }, site.onEmpty, .nobody)
  | .relax i =>
    some (g, .pop (if i + 1 < kSpins then .tryPop (.spin (i + 1)) .load else .giveSlot), .nobody)
  | .spinOk item =>
    some ({ g with spinners := g.spinners - 1 }, .returned (.popped (some item)), .nobody)
  | .giveSlot => some ({ g with spinners := g.spinners - 1 }, .pop .announce, .nobody)
  | .announce => some ({ g with sleepers := g.sleepers + 1 }, .pop (.tryPop .recheck .load), .nobody)
  | .recheckOk item =>
    some ({ g with sleepers := g.sleepers - 1 }, .returned (.popped (some item)), .nobody)
  | .readShutdown => some (g, .pop (if g.shutdown then .readInFlight else .lock), .nobody)
  | .readInFlight => some (g, .pop (if g.pushersInFlight = 0 then .giveUp else .lock), .nobody)
  | .giveUp => some ({ g with sleepers := g.sleepers - 1 }, .pop (.tryPop .last .load), .nobody)
  | .lock =>
    match g.parkMtx with
    | none => some ({ g with parkMtx := some t }, .pop .loadTail, .nobody)
    | some _ => none
  | .loadTail => some (g, .pop (.loadHead g.core.ring.tail), .nobody)
  | .loadHead tl =>
    some (g, .pop (if g.core.ring.head < tl then .unlock else .predShutdown tl), .nobody)
  | .predShutdown tl => some (g, .pop (if g.shutdown then .unlock else .park tl), .nobody)
  | .park _ => some ({ g with parkMtx := none }, .pop .waiting, .nobody)
  | .waiting => some (g, .pop .woken, .nobody)
  | .woken =>
    match g.parkMtx with
    | none => some ({ g with parkMtx := some t }, .pop .loadTail, .nobody)
    | some _ => none
  | .unlock => some ({ g with parkMtx := none }, .pop .awake, .nobody)
  | .awake => some ({ g with sleepers := g.sleepers - 1 }, .pop .takeSlot, .nobody)

/-- A step of `shutdown`. -/
def shutdownAtStep : ShutdownAt → Option (Shared ι T × ThreadPc T × Wake)
  | .store => some ({ g with shutdown := true }, .shutdown .lock, .nobody)
  | .lock =>
    match g.parkMtx with
    | none => some ({ g with parkMtx := some t }, .shutdown .unlock, .nobody)
    | some _ => none
  | .unlock => some ({ g with parkMtx := none }, .shutdown .notifyAll, .nobody)
  | .notifyAll => some (g, .returned .shutDown, .all)

/-- A step of a thread inside a call. -/
def threadStep : ThreadPc T → Option (Shared ι T × ThreadPc T × Wake)
  | .idle => none
  | .push item p => pushAtStep t ch g item p
  | .pop p => popAtStep maxSpinners t ch g p
  | .shutdown p => shutdownAtStep t g p
  | .returned _ => none

end

def ThreadPc.isWaiting : ThreadPc T → Bool
  | .pop .waiting => true
  | _ => false

structure State (ι T : Type*) where
  shared : Shared ι T
  pc : ι → ThreadPc T

inductive Act (ι T : Type*) where
  | call (t : ι) (c : Call T)
  | step (t : ι) (ch : Choice ι T)
  /-- The caller takes the result. -/
  | ret (t : ι)

section

variable [Fintype ι] [DecidableEq ι]

/-- Whom a step wakes; `none` when the choice is not a possible one. -/
def wakeUp (pc : ι → ThreadPc T) (wake : Option ι) : Wake → Option (ι → ThreadPc T)
  | .nobody => some pc
  | .one =>
    match wake with
    | some u => if (pc u).isWaiting then some (Function.update pc u (.pop .woken)) else none
    | none => if ∀ u, (pc u).isWaiting = false then some pc else none
  | .all => some fun u => if (pc u).isWaiting then .pop .woken else pc u

/-- The machine of a queue of the given capacity. -/
def queueMachine (ι : Type*) {T : Type*} [Fintype ι] [DecidableEq ι] [Inhabited T]
    (capacity : ℕ) (maxSpinners : ℤ) : Machine (State ι T) (Act ι T) where
  init s := ∃ r, LockFreeRing.make capacity = some r ∧ s = ⟨.fresh r, fun _ => .idle⟩
  step s
    | .call t c =>
      match s.pc t with
      | .idle => some { s with pc := Function.update s.pc t c.start }
      | _ => none
    | .step t ch =>
      (threadStep maxSpinners t ch s.shared (s.pc t)).bind fun r =>
        (wakeUp s.pc ch.wake r.2.2).map fun pc => ⟨r.1, Function.update pc t r.2.1⟩
    | .ret t =>
      match s.pc t with
      | .returned _ => some { s with pc := Function.update s.pc t .idle }
      | _ => none

end

end OrderRisk.Queue
