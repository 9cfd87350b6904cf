import OrderRisk.Server.Closing

/-!
# All connections: `EventLoop`

The event loop with `connections_`, the file descriptors the kernel hands out, and the jobs of every
connection.  What happens on one connection are the steps of `Server.step` on its `view`; `onClient`
takes them over, erases the entry of `connections_` where `handleReadable` does, and counts the
executions of `close(fd)`.

`accept` returns a number that is not open: one whose connections have all been closed.
-/

namespace OrderRisk.Server.EventLoop

open OrderRisk.Lib OrderRisk.Fix

/-- A connection that was accepted, with its jobs.  `closes`: the executions of `close(fd)`. -/
structure Client where
  fd : ℕ
  conn : Connection
  jobs : List JobPc
  late : Bool
  closes : ℕ

/-- Where the event-loop thread is. -/
inductive Pc where
  | epollWait
  /-- `accept` has returned `clientFd`; next the entry in `connections_`. -/
  | insert (clientFd : ℕ)
  /-- In `handleReadable`, for the connection `k`. -/
  | handling (k : ℕ) (p : LoopPc)
  deriving DecidableEq

/-- `clients`: every connection there has been, in the order of their acceptance. -/
structure State where
  clients : List Client
  /-- `connections_`. -/
  connections : ℕ → Option ℕ
  loop : Pc

inductive Act where
  | accept (clientFd : ℕ)
  /-- `epoll_wait` reports the fd, and `connections_` has an entry for it. -/
  | readable (fd : ℕ)
  | recv (r : RecvResult)
  | loop
  | start (k i : ℕ) (data : Bytes)
  | job (k i : ℕ) (result : Option ℕ)

/-- Where the event loop is, as far as connection `k` goes. -/
def Pc.at (k : ℕ) : Pc → LoopPc
  | .handling k' p => if k' = k then p else .wait
  | _ => .wait

/-- One connection by itself. -/
def State.view (s : State) (k : ℕ) (c : Client) : Server.State where
  conn := c.conn
  routed := decide (s.connections c.fd = some k)
  loop := s.loop.at k
  jobs := c.jobs
  late := c.late

def executesClose (v : Server.State) : Server.Act → Bool
  | .loop => v.loop = .finalize .closeFd
  | .job i _ => (v.jobs[i]?).any fun p => match p with
    | .finalize _ .closeFd => true
    | _ => false
  | _ => false

def State.after (s : State) (k : ℕ) (c : Client) (a : Server.Act) (v : Server.State) : State where
  clients := s.clients.set k ⟨c.fd, v.conn, v.jobs, v.late,
    c.closes + if executesClose (s.view k c) a then 1 else 0⟩
  connections :=
    if s.loop = .handling k .deregister ∧ a.byJob = false then
      Function.update s.connections c.fd none
    else s.connections
  loop := if a.byJob then s.loop else if v.loop = .wait then .epollWait else .handling k v.loop

/-- A step on connection `k`, by the event loop or by one of its jobs. -/
def State.onClient (s : State) (k : ℕ) (a : Server.Act) : Option State :=
  (s.clients[k]?).bind fun c => (Server.step (s.view k c) a).map (s.after k c a)

def step (s : State) : Act → Option State
  | .accept fd =>
    if s.loop = .epollWait ∧ ∀ c ∈ s.clients, c.fd = fd → c.conn.closed = true then
      some { s with loop := .insert fd }
    else none
  | .readable fd =>
    if s.loop = .epollWait then (s.connections fd).bind fun k => s.onClient k .readable else none
  | .recv r =>
    match s.loop with
    | .handling k _ => s.onClient k (.recv r)
    | _ => none
  | .loop =>
    match s.loop with
    | .epollWait => none
    | .insert fd => some
        { clients := s.clients ++ [⟨fd, .fresh, [], false, 0⟩]
          connections := Function.update s.connections fd (some s.clients.length)
          loop := .epollWait }
    | .handling k _ => s.onClient k .loop
  | .start k i data => s.onClient k (.start i data)
  | .job k i result => s.onClient k (.job i result)

def machine : Machine State Act where
  init s := s = ⟨[], fun _ => none, .epollWait⟩
  step := step

end OrderRisk.Server.EventLoop
