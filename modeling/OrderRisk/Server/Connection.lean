import OrderRisk.Lib.Machine
import OrderRisk.Fix.Parser

/-!
# One connection: the event loop and the jobs it has dispatched

The atomic steps of `handleReadable`, `dispatchToWorker`, `safeSend` and `tryFinalize` on one
`Connection`, in runs where `stop()` is not called and the pool accepts every job.  The event loop
is one thread (`LoopPc`); a dispatched message is a job (`JobPc`), and any job may move at any
time, whatever the number of workers.
-/

namespace OrderRisk.Server

open OrderRisk.Lib OrderRisk.Fix

/-- `Connection`.  `closed` is the kernel's side: `close(fd)` has been executed. -/
structure Connection where
  recvBuffer : Bytes
  writeMutex : Bool
  alive : Bool
  pendingJobs : ℤ
  peerClosed : Bool
  fdClosed : Bool
  closed : Bool

def Connection.fresh : Connection := ⟨[], false, true, 0, false, false, false⟩

/-! ### `tryFinalize` -/

/-- Where a thread is inside `tryFinalize`. -/
inductive FinPc where
  | readPeer
  | readPending
  | cas
  | clearAlive
  | closeFd
  deriving DecidableEq

/-- One access of `tryFinalize`; `none`: it returns. -/
def finStep (c : Connection) : FinPc → Connection × Option FinPc
  | .readPeer => (c, if c.peerClosed then some .readPending else none)
  | .readPending => (c, if c.pendingJobs = 0 then some .cas else none)
  | .cas => if c.fdClosed then (c, none) else ({ c with fdClosed := true }, some .clearAlive)
  | .clearAlive => ({ c with alive := false }, some .closeFd)
  | .closeFd => ({ c with closed := true }, none)

/-! ### Jobs -/

/-- Where a dispatched job is.  `handed` records whether its response was handed to `send()`:
`false` once `safeSend` has found `alive` false. -/
inductive JobPc where
  /-- In the pool's queue. -/
  | queued (rawMsg : Bytes)
  /-- `safeSend(data)`, before `writeMutex`. -/
  | lock (data : Bytes)
  | check (data : Bytes)
  /-- In the loop, with `sent` bytes gone. -/
  | send (data : Bytes) (sent : ℕ)
  | unlock (handed : Bool)
  | decrement (handed : Bool)
  | finalize (handed : Bool) (p : FinPc)
  | done (handed : Bool)
  deriving DecidableEq

/-- One step of a running job.  `result` is what `::send` returns, if this is a `send`: a number
of bytes, or `none` for a value `<= 0`.  The last component: was a `::send` issued on an fd that
is closed? -/
def jobStep (c : Connection) (result : Option ℕ) : JobPc → Option (Connection × JobPc × Bool)
  | .queued _ => none
  | .lock data =>
    if c.writeMutex then none else some ({ c with writeMutex := true }, .check data, false)
  | .check data => some (c, if c.alive then .send data 0 else .unlock false, false)
  | .send data sent =>
    match result with
    | none => some (c, .unlock true, c.closed)
    | some n =>
      if 0 < n ∧ sent + n ≤ data.length then
        some (c, if sent + n < data.length then .send data (sent + n) else .unlock true, c.closed)
      else none
  | .unlock handed => some ({ c with writeMutex := false }, .decrement handed, false)
  | .decrement handed =>
    some ({ c with pendingJobs := c.pendingJobs - 1 }, .finalize handed .readPeer, false)
  | .finalize handed p =>
    some ((finStep c p).1, (finStep c p).2.elim (.done handed) (.finalize handed), false)
  | .done _ => none

/-! ### The event loop -/

/-- Where the event-loop thread is, as far as this connection goes. -/
inductive LoopPc where
  /-- Outside `handleReadable`. -/
  | wait
  /-- In the `recv` loop. -/
  | reading
  /-- `recv` has returned 0; next `peerClosed.store(true)`. -/
  | sawEof
  /-- Next `epoll_ctl(DEL)` and `connections_.erase`. -/
  | deregister
  /-- At the head of the extract loop; `peerClosed` is the local variable. -/
  | extract (peerClosed : Bool)
  /-- In `dispatchToWorker`, before `pendingJobs.fetch_add`. -/
  | fetchAdd (peerClosed : Bool) (rawMsg : Bytes)
  /-- Before `pool_.submit`. -/
  | submit (peerClosed : Bool) (rawMsg : Bytes)
  | finalize (p : FinPc)
  deriving DecidableEq

/-- What `recv` returns: bytes, 0, or an error (`EAGAIN`). -/
inductive RecvResult where
  | data (chunk : Bytes)
  | eof
  | again

/-- `routed`: `connections_` maps the fd to this connection.  `late`: a `::send` has been issued
after `close(fd)`. -/
structure State where
  conn : Connection
  routed : Bool
  loop : LoopPc
  jobs : List JobPc
  late : Bool

inductive Act where
  /-- `epoll_wait` reports the fd, `handleReadable` begins. -/
  | readable
  | recv (r : RecvResult)
  /-- The event loop's next step. -/
  | loop
  /-- A worker takes job `i`; parsing and validating yield the response `data`. -/
  | start (i : ℕ) (data : Bytes)
  /-- The next step of job `i`. -/
  | job (i : ℕ) (result : Option ℕ)

/-- The event loop's steps behind `recv`. -/
def loopStep (s : State) : Option State :=
  match s.loop with
  | .wait => none
  | .reading => none
  | .sawEof => some { s with conn := { s.conn with peerClosed := true }, loop := .deregister }
  | .deregister => some { s with routed := false, loop := .extract true }
  | .extract peerClosed =>
    match tryExtractMessage s.conn.recvBuffer with
    | .error _ => none
    | .ok (some rawMsg, rest) =>
      some { s with conn := { s.conn with recvBuffer := rest }, loop := .fetchAdd peerClosed rawMsg }
    | .ok (none, rest) =>
      some { s with
        conn := { s.conn with recvBuffer := rest }
        loop := if peerClosed then .finalize .readPeer else .wait }
  | .fetchAdd peerClosed rawMsg =>
    some { s with
      conn := { s.conn with pendingJobs := s.conn.pendingJobs + 1 }
      loop := .submit peerClosed rawMsg }
  | .submit peerClosed rawMsg =>
    some { s with jobs := s.jobs ++ [.queued rawMsg], loop := .extract peerClosed }
  | .finalize p =>
    some { s with
      conn := (finStep s.conn p).1
      loop := (finStep s.conn p).2.elim .wait .finalize }

def step (s : State) : Act → Option State
  | .readable => if s.loop = .wait ∧ s.routed then some { s with loop := .reading } else none
  | .recv r =>
    if s.loop = .reading then
      match r with
      | .data chunk => some { s with conn := { s.conn with recvBuffer := s.conn.recvBuffer ++ chunk } }
      | .eof => some { s with loop := .sawEof }
      | .again => some { s with loop := .extract false }
    else none
  | .loop => loopStep s
  | .start i data =>
    match s.jobs[i]? with
    | some (.queued _) =>
      if data = [] then none else some { s with jobs := s.jobs.set i (.lock data) }
    | _ => none
  | .job i result =>
    (s.jobs[i]?).bind fun p => (jobStep s.conn result p).map fun r =>
      { s with conn := r.1, jobs := s.jobs.set i r.2.1, late := s.late || r.2.2 }

def machine : Machine State Act where
  init s := s = ⟨.fresh, true, .wait, [], false⟩
  step := step

/-! ### What a job's position says -/

def JobPc.pending : JobPc → Bool
  | .finalize _ _ => false
  | .done _ => false
  | _ => true

def JobPc.isDone : JobPc → Bool
  | .done _ => true
  | _ => false

def JobPc.locked : JobPc → Bool
  | .check _ => true
  | .send _ _ => true
  | .unlock _ => true
  | _ => false

/-- A `::send` with the job's response has been issued. -/
def JobPc.handed : JobPc → Bool
  | .send _ sent => decide (0 < sent)
  | .unlock h => h
  | .decrement h => h
  | .finalize h _ => h
  | .done h => h
  | _ => false

/-- The job's `safeSend` has found `alive` false. -/
def JobPc.lost : JobPc → Bool
  | .unlock h => !h
  | .decrement h => !h
  | .finalize h _ => !h
  | .done h => !h
  | _ => false

/-- The event loop has extracted a message that is no job yet. -/
def LoopPc.carries : LoopPc → Bool
  | .fetchAdd _ _ => true
  | .submit _ _ => true
  | _ => false

end OrderRisk.Server
