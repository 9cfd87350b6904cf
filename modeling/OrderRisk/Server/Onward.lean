import OrderRisk.Server.Errand

/-!
# The event loop can go on

While the event loop handles a connection it has a next step, and a next step that takes it closer to
`epoll_wait` when nothing more comes in: the extract loop takes the messages off `recvBuffer`, each of
them one byte long at least.  With an empty message at its front it would not end, so the buffer has
to be free of those (`Pc.Proper`).  What the jobs do meanwhile is nothing to the event loop
(`frame_of_job`).
-/

namespace OrderRisk.Server

open OrderRisk.Lib OrderRisk.Fix OrderRisk.Account OrderRisk.Risk

/-! ### The event loop -/

/-- What the event loop has left to do behind the extraction of the last message. -/
def LoopPc.rank : LoopPc → ℕ
  | .wait => 0
  | .finalize .closeFd => 1
  | .finalize .clearAlive => 2
  | .finalize .cas => 3
  | .finalize .readPending => 4
  | .finalize .readPeer => 5
  | .extract _ => 6
  | .reading => 7
  | .deregister => 7
  | .submit _ _ => 7
  | .sawEof => 8
  | .fetchAdd _ _ => 8

def LoopPc.submits : LoopPc → Bool
  | .submit _ _ => true
  | _ => false

/-- The messages that are still to be dispatched are no more. -/
def backlog (l : LoopPc) (buffer : Bytes) : ℕ := buffer.length + if l.carries then 1 else 0

/-- **The event loop can go on**, on one connection. -/
theorem loop_onward {v : State} (hl : v.loop ≠ .wait)
    (hp : Framing.Proper totalLength v.conn.recvBuffer) :
    ∃ d v', (d = .loop ∨ d = .recv .again ∧ v.loop = .reading) ∧ machine.step v d = some v' ∧
      8 * v'.conn.recvBuffer.length + v'.loop.rank < 8 * v.conn.recvBuffer.length + v.loop.rank ∧
      Framing.Proper totalLength v'.conn.recvBuffer ∧ v'.loop ≠ .sawEof ∧
      backlog v'.loop v'.conn.recvBuffer + (if v.loop.submits then 1 else 0) ≤
        backlog v.loop v.conn.recvBuffer := by
  cases h : v.loop with
  | wait => exact absurd h hl
  | reading =>
    exact ⟨.recv .again, { v with loop := .extract false }, .inr ⟨rfl, rfl⟩,
      by simp [machine, step, h], by simp [LoopPc.rank], hp, by simp, le_rfl⟩
  | sawEof =>
    exact ⟨.loop, { v with conn := { v.conn with peerClosed := true }, loop := .deregister }, .inl rfl,
      by simp [machine, step, loopStep, h], by simp [LoopPc.rank], hp, by simp, le_rfl⟩
  | deregister =>
    exact ⟨.loop, { v with routed := false, loop := .extract true }, .inl rfl,
      by simp [machine, step, loopStep, h], by simp [LoopPc.rank], hp, by simp, le_rfl⟩
  | fetchAdd p m =>
    exact ⟨.loop, { v with
      conn := { v.conn with pendingJobs := v.conn.pendingJobs + 1 }
      loop := .submit p m }, .inl rfl, by simp [machine, step, loopStep, h], by simp [LoopPc.rank], hp,
      by simp, le_rfl⟩
  | submit p m =>
    exact ⟨.loop, { v with jobs := v.jobs ++ [.queued m], loop := .extract p }, .inl rfl,
      by simp [machine, step, loopStep, h], by simp [LoopPc.rank], hp, by simp, le_rfl⟩
  | finalize f =>
    refine ⟨.loop, { v with
      conn := (finStep v.conn f).1
      loop := (finStep v.conn f).2.elim .wait .finalize }, .inl rfl,
      by simp [machine, step, loopStep, h], ?_, ?_, ?_, ?_⟩
    · dsimp only
      rw [finStep_recvBuffer]
      cases f <;> simp only [finStep] <;> (try split) <;> simp [LoopPc.rank]
    · rwa [finStep_recvBuffer]
    · cases (finStep v.conn f).2 <;> simp
    · dsimp only
      rw [finStep_recvBuffer]
      cases (finStep v.conn f).2 <;> exact le_rfl
  | extract p =>
    cases he : nextMessage v.conn.recvBuffer with
    | none =>
      refine ⟨.loop, { v with loop := if p then .finalize .readPeer else .wait }, .inl rfl, ?_, ?_, hp,
        ?_, ?_⟩
      · simp [machine, step, loopStep, h, tryExtractMessage_eq, he]
      · cases p <;> simp [LoopPc.rank]
      · cases p <;> simp
      · cases p <;> exact le_rfl
    | some r =>
      obtain ⟨m, r⟩ := r
      have hlt := hp.lt_length he
      refine ⟨.loop, { v with
        conn := { v.conn with recvBuffer := r }
        loop := .fetchAdd p m }, .inl rfl, ?_, ?_, hp.tail he, by simp, ?_⟩
      · simp [machine, step, loopStep, h, tryExtractMessage_eq, he]
      · simp only [LoopPc.rank]
        omega
      · simp only [backlog, LoopPc.carries, LoopPc.submits, Bool.false_eq_true, if_false, if_true]
        omega

namespace EventLoop

def State.buffer (s : State) (k : ℕ) : Bytes := (s.clients[k]?).elim [] fun c => c.conn.recvBuffer

/-- What the event loop has left to do, when nothing more comes in. -/
def Pc.errands (buffer : ℕ → Bytes) : Pc → ℕ
  | .epollWait => 0
  | .insert _ => 1
  | .handling k p => 8 * (buffer k).length + p.rank

/-- The messages it will dispatch are no more. -/
def Pc.backlog (buffer : ℕ → Bytes) : Pc → ℕ
  | .handling k p => Server.backlog p (buffer k)
  | _ => 0

/-- The extract loop will find no empty message. -/
def Pc.Proper (buffer : ℕ → Bytes) : Pc → Prop
  | .handling k _ => Framing.Proper totalLength (buffer k)
  | _ => True

theorem buffer_of_client {s : State} {k : ℕ} {c : Client} (hc : s.clients[k]? = some c) :
    s.buffer k = c.conn.recvBuffer := by
  simp [State.buffer, hc]

/-- The event loop handles a connection that was accepted. -/
theorem handled_of_reachable {s : State} (h : machine.Reachable s) :
    ∀ k p, s.loop = .handling k p → ∃ c, s.clients[k]? = some c := by
  refine h.invariant (P := fun s => ∀ k p, s.loop = .handling k p → ∃ c, s.clients[k]? = some c) ?_ ?_
  · rintro s rfl k p hl
    cases hl
  · rintro s a s' hi - hs k p hl
    have hkeep : ∀ k : ℕ, (∃ c, s.clients[k]? = some c) → ∃ c, s'.clients[k]? = some c := by
      rintro k ⟨c, hc⟩
      exact ⟨_, List.getElem?_eq_getElem
        ((List.getElem?_eq_some_iff.mp hc).1.trans_le (clients_length_le hs))⟩
    obtain ⟨fd, -, -, rfl⟩ | ⟨fd, -, rfl⟩ | ⟨j, b, hb, -, -⟩ := step_cases hs
    · cases hl
    · cases hl
    · obtain ⟨c, v, hc, -, rfl⟩ := onClient_cases hb
      have hor : s.loop = .handling k p ∨ k = j := by
        simp only [State.after] at hl
        split at hl
        · exact .inl hl
        · split at hl
          · cases hl
          · cases hl
            exact .inr rfl
      rcases hor with hl | rfl
      · exact hkeep k (hi k p hl)
      · exact hkeep k ⟨c, hc⟩

/-- **The event loop can go on.** -/
theorem loop_onward {s : State} (h : machine.Reachable s) (hl : s.loop ≠ .epollWait)
    (hp : s.loop.Proper s.buffer) :
    ∃ b s', (b = .loop ∨ b = .recv .again ∧ s.submitting = none) ∧ machine.step s b = some s' ∧
      (s'.loop = .epollWait ∨ s'.loop.errands s'.buffer < s.loop.errands s.buffer) ∧
      s'.loop.Proper s'.buffer ∧ (∀ k, s'.loop ≠ .handling k .sawEof) ∧
      s'.loop.backlog s'.buffer + (if s.submitting.isSome then 1 else 0) ≤
        s.loop.backlog s.buffer := by
  cases hpc : s.loop with
  | epollWait => exact absurd hpc hl
  | insert fd =>
    refine ⟨.loop, { clients := s.clients ++ [⟨fd, .fresh, [], false, 0⟩]
                     connections := Function.update s.connections fd (some s.clients.length)
                     loop := .epollWait }, .inl rfl, by simp [machine, step, hpc], .inl rfl, trivial,
      by simp, ?_⟩
    simp [State.submitting, hpc, Pc.backlog]
  | handling k p =>
    obtain ⟨c, hc⟩ := handled_of_reachable h k p hpc
    have hat : (s.view k c).loop = p := by simp [State.view, hpc, Pc.at]
    have hbuf := buffer_of_client hc
    rw [hpc] at hp
    have hp' : Framing.Proper totalLength c.conn.recvBuffer := by
      rw [← hbuf]
      exact hp
    obtain ⟨d, v, hd, hv, hrank, hproper, hsaw, hback⟩ := Server.loop_onward (v := s.view k c)
      (by rw [hat]; exact (inv_of_reachable h).handling k p hpc) hp'
    rw [hat] at hd hrank hback
    have hbuf' : (s.after k c d v).buffer k = v.conn.recvBuffer := by
      simp [State.buffer, State.after, List.getElem?_set_self (List.getElem?_eq_some_iff.mp hc).1]
    have hloop : (s.after k c d v).loop =
        if v.loop = .wait then .epollWait else .handling k v.loop := by
      rcases hd with rfl | ⟨rfl, -⟩ <;> rfl
    have hsub : s.submitting.isSome = p.submits := by
      unfold State.submitting
      rw [hpc]
      cases p <;> rfl
    have hstep : s.onClient k d = some (s.after k c d v) := by
      have hv' : Server.step (s.view k c) d = some v := hv
      rw [State.onClient, hc, Option.bind_some, hv', Option.map_some]
    have hback' : (s.after k c d v).loop.backlog (s.after k c d v).buffer ≤
        Server.backlog v.loop v.conn.recvBuffer := by
      rw [hloop]
      split
      · exact Nat.zero_le _
      · rw [Pc.backlog, hbuf']
    obtain ⟨b, hb, hbs⟩ : ∃ b, (b = .loop ∨ b = .recv .again ∧ s.submitting = none) ∧
        machine.step s b = s.onClient k d := by
      rcases hd with rfl | ⟨rfl, rfl⟩
      · exact ⟨.loop, .inl rfl, by simp only [machine, step, hpc]⟩
      · exact ⟨.recv .again, .inr ⟨rfl, by simp [State.submitting, hpc]⟩,
          by simp only [machine, step, hpc]⟩
    refine ⟨b, s.after k c d v, hb, hbs.trans hstep, ?_, ?_, fun k' => ?_, ?_⟩
    · rw [hloop]
      split
      · exact .inl rfl
      · refine .inr ?_
        simp only [Pc.errands, hbuf', hbuf]
        exact hrank
    · rw [hloop]
      split
      · trivial
      · rw [Pc.Proper, hbuf']
        exact hproper
    · rw [hloop]
      split
      · simp
      · intro he
        injection he with _ he
        exact hsaw he
    · rw [hsub, Pc.backlog, hbuf]
      exact (Nat.add_le_add_right hback' _).trans hback

/-- **A job's step** leaves the event loop and what it has read alone. -/
theorem frame_of_job {s s' : State} {b : Act} (h : machine.step s b = some s')
    (hb : b.job?.isSome = true) : s'.loop = s.loop ∧ s'.buffer = s.buffer := by
  obtain ⟨k, d, hd, hon⟩ : ∃ k d, d.byJob = true ∧ s.onClient k d = some s' := by
    cases b with
    | start k i data => exact ⟨k, _, rfl, h⟩
    | job k i result => exact ⟨k, _, rfl, h⟩
    | _ => cases hb
  obtain ⟨c, v, hc, hv, rfl⟩ := onClient_cases hon
  have hlt := (List.getElem?_eq_some_iff.mp hc).1
  have hbuf : v.conn.recvBuffer = c.conn.recvBuffer := by
    cases d with
    | start i data =>
      simp only [Server.machine, Server.step] at hv
      split at hv
      · split at hv <;> cases hv
        rfl
      · cases hv
    | job i result =>
      obtain ⟨p, -, hv⟩ := Option.bind_eq_some_iff.mp hv
      obtain ⟨r, hr, rfl⟩ := Option.map_eq_some_iff.mp hv
      exact jobMove_recvBuffer (jobMove_of_jobStep hr)
    | _ => cases hd
  refine ⟨by simp [State.after, hd], funext fun k' => ?_⟩
  rcases eq_or_ne k' k with rfl | hne
  · simp [State.buffer, State.after, List.getElem?_set_self hlt, hc, hbuf]
  · simp [State.buffer, State.after, List.getElem?_set_ne hne.symm]

end EventLoop

namespace Engine

variable {erange : ℚ → Bool} {store : AccountStore Double} {s s' : State} {a : Act} {k : ℕ}

theorem frame_of_job (hs : (engine erange store).step s a = some s') (ha : a.job?.isSome = true) :
    s'.net.loop = s.net.loop ∧ s'.net.buffer = s.net.buffer := by
  rcases (move_of_step hs).net_step with ⟨he, -⟩ | ⟨b, hb, -, rfl | ⟨k, i, data, rfl⟩⟩
  · rw [he]
    exact ⟨rfl, rfl⟩
  · exact EventLoop.frame_of_job hb ha
  · exact EventLoop.frame_of_job hb rfl

theorem onward_net {b : EventLoop.Act} (hb : b = .loop ∨ b = .recv .again) : Onward s (.net b) := by
  rcases hb with rfl | rfl
  · exact Or.inl rfl
  · exact Or.inr rfl

/-- Nothing is received. -/
theorem received_of_onward (ha : Onward s a) (hs : (engine erange store).step s a = some s') :
    (s'.tapes k).received = (s.tapes k).received := by
  obtain ⟨-, he⟩ | ⟨b, -, he, hb⟩ := (move_of_step hs).net_step
  · rw [he]
  rw [he]
  have hdata : ∀ chunk, b ≠ .recv (.data chunk) := by
    rintro chunk rfl
    rcases hb with rfl | ⟨_, _, _, hb⟩
    · rcases ha with ha | ha <;> cases ha
    · cases hb
  by_cases hon : ∃ d, b.on s.net = some (k, d)
  · obtain ⟨d, hon⟩ := hon
    cases hc : s.net.clients[k]? with
    | none =>
      have hsame : s.record b = s.tapes := by simp [State.record, hon, hc]
      rw [hsame]
    | some c =>
      rw [record_of_on hon hc, Function.update_self]
      cases d with
      | readable => rfl
      | recv r =>
        cases r with
        | data chunk =>
          refine absurd ?_ (hdata chunk)
          cases b with
          | recv r =>
            simp only [EventLoop.Act.on] at hon
            split at hon <;> cases hon
            rfl
          | accept fd => cases hon
          | readable fd =>
            obtain ⟨_, -, hon⟩ := Option.map_eq_some_iff.mp hon
            cases hon
          | loop =>
            simp only [EventLoop.Act.on] at hon
            split at hon <;> cases hon
          | start k' i data => cases hon
          | job k' i r => cases hon
        | eof => rfl
        | again => rfl
      | loop =>
        simp only [Tape.record, Tape.recordLoop]
        split <;> rfl
      | start i data => rfl
      | job i result =>
        simp only [Tape.record]
        cases (s.net.view k c).jobs[i]? with
        | none => rfl
        | some p => exact (recordJob_intake _ i result p).1
  · rw [record_of_ne fun d hd => hon ⟨d, hd⟩]

/-- Where nothing goes wrong, nothing goes wrong on the wire. -/
theorem smooth_of_onward (ha : Onward s a) (hl : a = .net .loop → s.net.loop ≠ .handling k .sawEof) :
    OnClient Smooth k s a := by
  cases a with
  | net b =>
    intro c d hc hon
    refine ⟨fun hsaw hd => ?_, fun i hd data sent hj => ?_⟩
    · obtain rfl := (EventLoop.on_job hon).2.1.mpr hd
      exact absurd (EventLoop.handling_of_at hsaw (by simp)) (hl rfl)
    · subst hd
      cases b with
      | job k' i' r =>
        cases hon
        have := ha data sent (EventLoop.job_eq_some.mpr ⟨c, hc, hj⟩)
        cases this
      | accept fd => cases hon
      | readable fd =>
        obtain ⟨_, -, hon⟩ := Option.map_eq_some_iff.mp hon
        cases hon
      | recv r =>
        simp only [EventLoop.Act.on] at hon
        split at hon <;> cases hon
      | loop =>
        simp only [EventLoop.Act.on] at hon
        split at hon <;> cases hon
      | start k' i data => cases hon
  | _ => trivial

end Engine

end OrderRisk.Server
