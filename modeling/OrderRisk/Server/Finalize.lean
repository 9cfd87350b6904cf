import OrderRisk.Server.Connection

/-!
# Closing a connection

When is every extracted message's response handed to `send()` before `close(fd)`?  `Safe` says so
of a state.  The event loop announces the peer as closed before it dispatches what is left in the
buffer, so a worker whose job brings `pendingJobs` to 0 in between closes the connection.

`responses_kept_iff` gives the exact condition on the state in which the announcement is made:
no complete message is left, or exactly one and every earlier job has returned (`Harmless`).
One direction is an invariant (`Calm`); for the other, `Doomed` states are driven to the close by
letting every dispatched job run to its end before the event loop moves again.
-/

namespace OrderRisk.Server

open OrderRisk.Lib OrderRisk.Fix

/-- The message at the front of the buffer, and what is behind it. -/
abbrev nextMessage (buffer : Bytes) : Option (Bytes × Bytes) :=
  Framing.extract totalLength buffer

/-- Nothing of what was extracted is lost, and nothing is sent on a closed fd. -/
structure Safe (s : State) : Prop where
  closed : s.conn.closed = true → (∀ j ∈ s.jobs, j.handed = true) ∧ s.loop.carries = false
  kept : ∀ j ∈ s.jobs, j.lost = false
  onTime : s.late = false

/-- The states in which announcing the end of the stream does no harm. -/
def Harmless (s : State) : Prop :=
  nextMessage s.conn.recvBuffer = none ∨
    ∃ m r, nextMessage s.conn.recvBuffer = some (m, r) ∧ nextMessage r = none ∧
      ∀ j ∈ s.jobs, j.isDone = true

/-- The announcement, wherever it is made, is made in a harmless state. -/
def AnnouncesHarmlessly (s : State) (a : Act) : Prop :=
  s.loop = .sawEof → a = .loop → Harmless s

/-! ### Regions of the code -/

/-- Past the reads of `tryFinalize`. -/
def FinPc.closing : FinPc → Bool
  | .readPeer => false
  | .readPending => false
  | _ => true

def JobPc.closing : JobPc → Bool
  | .finalize _ p => p.closing
  | _ => false

/-- In `tryFinalize`, past the read of `peerClosed`. -/
def JobPc.sawPeerClosed : JobPc → Bool
  | .finalize _ p => p != .readPeer
  | _ => false

def LoopPc.closing : LoopPc → Bool
  | .finalize p => p.closing
  | _ => false

/-- Only a `handleReadable` that has seen the end of the stream gets here. -/
def LoopPc.ending : LoopPc → Bool
  | .deregister => true
  | .extract p => p
  | .fetchAdd p _ => p
  | .submit p _ => p
  | .finalize _ => true
  | _ => false

/-- In a `handleReadable` that has not announced the end of the stream. -/
def LoopPc.receiving : LoopPc → Bool
  | .reading => true
  | .sawEof => true
  | .extract p => !p
  | .fetchAdd p _ => !p
  | .submit p _ => !p
  | _ => false

/-- `pendingJobs` counts a job that is not submitted yet. -/
def LoopPc.counted : LoopPc → Bool
  | .submit _ _ => true
  | _ => false

/-- The close has begun. -/
def Connection.Closing (c : Connection) : Prop :=
  c.fdClosed = true ∨ c.alive = false ∨ c.closed = true

/-- Some thread has decided to close. -/
def State.Closing (s : State) : Prop :=
  s.conn.Closing ∨ (∃ j ∈ s.jobs, j.closing = true) ∨ s.loop.closing = true

/-! ### What a step does -/

/-- What a job does to the connection when it moves: something up to its response, its decrement,
or a step of `tryFinalize`.  The last index: was a `::send` issued on a closed fd? -/
inductive JobMove (c : Connection) : JobPc → Connection → JobPc → Bool → Prop
  | respond {p q : JobPc} {late : Bool} (w : Bool) (hp : p.pending = true) (hq : q.pending = true)
      (hlost : q.lost = true → p.lost = true ∨ c.alive = false)
      (hlate : late = true → c.closed = true)
      (hmutex : w = true → q.locked = true ∨ c.writeMutex = true ∧ p.locked = false) :
      JobMove c p { c with writeMutex := w } q late
  | decrement (handed : Bool) :
      JobMove c (.decrement handed) { c with pendingJobs := c.pendingJobs - 1 }
        (.finalize handed .readPeer) false
  | finalize (handed : Bool) (f : FinPc) :
      JobMove c (.finalize handed f) (finStep c f).1
        ((finStep c f).2.elim (.done handed) (.finalize handed)) false

theorem jobMove_of_jobStep {c c' : Connection} {result : Option ℕ} {p q : JobPc} {late : Bool}
    (h : jobStep c result p = some (c', q, late)) : JobMove c p c' q late := by
  cases p with
  | queued m => cases h
  | lock data =>
    cases hm : c.writeMutex with
    | true => simp [jobStep, hm] at h
    | false =>
      simp only [jobStep, hm, Bool.false_eq_true, if_false, Option.some.injEq, Prod.mk.injEq] at h
      obtain ⟨rfl, rfl, rfl⟩ := h
      exact .respond true rfl rfl (by simp [JobPc.lost]) (by simp) (fun _ => .inl rfl)
  | check data =>
    simp only [jobStep, Option.some.injEq, Prod.mk.injEq] at h
    obtain ⟨rfl, rfl, rfl⟩ := h
    refine .respond c.writeMutex rfl ?_ ?_ (by simp) fun _ => .inl ?_ <;> cases c.alive <;>
      simp [JobPc.pending, JobPc.lost, JobPc.locked]
  | send data sent =>
    cases result with
    | none =>
      simp only [jobStep, Option.some.injEq, Prod.mk.injEq] at h
      obtain ⟨rfl, rfl, rfl⟩ := h
      exact .respond c.writeMutex rfl rfl (by simp [JobPc.lost]) id (fun _ => .inl rfl)
    | some n =>
      simp only [jobStep] at h
      split at h
      · simp only [Option.some.injEq, Prod.mk.injEq] at h
        obtain ⟨rfl, rfl, rfl⟩ := h
        refine .respond c.writeMutex rfl ?_ ?_ id fun _ => .inl ?_ <;> split <;>
          simp [JobPc.pending, JobPc.lost, JobPc.locked]
      · cases h
  | unlock handed =>
    simp only [jobStep, Option.some.injEq, Prod.mk.injEq] at h
    obtain ⟨rfl, rfl, rfl⟩ := h
    exact .respond false rfl rfl (fun h => .inl h) (by simp) (by simp)
  | decrement handed =>
    simp only [jobStep, Option.some.injEq, Prod.mk.injEq] at h
    obtain ⟨rfl, rfl, rfl⟩ := h
    exact .decrement handed
  | finalize handed f =>
    simp only [jobStep, Option.some.injEq, Prod.mk.injEq] at h
    obtain ⟨rfl, rfl, rfl⟩ := h
    exact .finalize handed f
  | done handed => cases h

theorem JobMove.not_done {c c' : Connection} {p q : JobPc} {late : Bool}
    (h : JobMove c p c' q late) : p.isDone = false := by
  cases h with
  | respond w hp => cases p <;> first | rfl | cases hp
  | decrement handed => rfl
  | finalize handed f => rfl

theorem finStep_cases (c : Connection) (f : FinPc) :
    (f = .readPeer ∧ c.peerClosed = false ∧ finStep c f = (c, none)) ∨
    (f = .readPeer ∧ c.peerClosed = true ∧ finStep c f = (c, some .readPending)) ∨
    (f = .readPending ∧ c.pendingJobs ≠ 0 ∧ finStep c f = (c, none)) ∨
    (f = .readPending ∧ c.pendingJobs = 0 ∧ finStep c f = (c, some .cas)) ∨
    (f = .cas ∧ c.fdClosed = true ∧ finStep c f = (c, none)) ∨
    (f = .cas ∧ c.fdClosed = false ∧ finStep c f = ({ c with fdClosed := true }, some .clearAlive)) ∨
    (f = .clearAlive ∧ finStep c f = ({ c with alive := false }, some .closeFd)) ∨
    (f = .closeFd ∧ finStep c f = ({ c with closed := true }, none)) := by
  cases f with
  | readPeer => cases h : c.peerClosed <;> simp [finStep, h]
  | readPending => by_cases h : c.pendingJobs = 0 <;> simp [finStep, h]
  | cas => cases h : c.fdClosed <;> simp [finStep, h]
  | clearAlive => simp [finStep]
  | closeFd => simp [finStep]

/-- The event loop's steps behind `recv`. -/
theorem loopStep_cases {s s' : State} (h : loopStep s = some s') :
    (s.loop = .sawEof ∧
      s' = { s with conn := { s.conn with peerClosed := true }, loop := .deregister }) ∨
    (s.loop = .deregister ∧ s' = { s with routed := false, loop := .extract true }) ∨
    (∃ p m r, s.loop = .extract p ∧ nextMessage s.conn.recvBuffer = some (m, r) ∧
      s' = { s with conn := { s.conn with recvBuffer := r }, loop := .fetchAdd p m }) ∨
    (∃ p, s.loop = .extract p ∧ nextMessage s.conn.recvBuffer = none ∧
      s' = { s with loop := if p then .finalize .readPeer else .wait }) ∨
    (∃ p m, s.loop = .fetchAdd p m ∧ s' = { s with
      conn := { s.conn with pendingJobs := s.conn.pendingJobs + 1 }, loop := .submit p m }) ∨
    (∃ p m, s.loop = .submit p m ∧
      s' = { s with jobs := s.jobs ++ [.queued m], loop := .extract p }) ∨
    (∃ f, s.loop = .finalize f ∧ s' = { s with
      conn := (finStep s.conn f).1
      loop := (finStep s.conn f).2.elim .wait .finalize }) := by
  unfold loopStep at h
  cases hl : s.loop with
  | wait => simp [hl] at h
  | reading => simp [hl] at h
  | sawEof => simp_all
  | deregister => simp_all
  | extract p =>
    simp only [hl, tryExtractMessage_eq] at h
    cases hx : Framing.extract totalLength s.conn.recvBuffer with
    | none => simp_all
    | some mr =>
      obtain ⟨m, r⟩ := mr
      simp_all
  | fetchAdd p m => simp_all
  | submit p m => simp_all
  | finalize f => simp_all

/-- A step is a turn of the `recv` loop, a later step of the event loop, or a job's move. -/
theorem step_cases {s s' : State} {a : Act} (h : step s a = some s') :
    ((s.loop = .wait ∧ s.routed = true ∧ s' = { s with loop := .reading }) ∨
      (s.loop = .reading ∧ ∃ chunk,
        s' = { s with conn := { s.conn with recvBuffer := s.conn.recvBuffer ++ chunk } }) ∨
      (s.loop = .reading ∧ s' = { s with loop := .sawEof }) ∨
      (s.loop = .reading ∧ s' = { s with loop := .extract false })) ∨
    (a = .loop ∧ loopStep s = some s') ∨
    (a ≠ .loop ∧ ∃ i p c' q late, s.jobs[i]? = some p ∧ JobMove s.conn p c' q late ∧
      s' = { s with conn := c', jobs := s.jobs.set i q, late := s.late || late }) := by
  cases a with
  | readable =>
    simp only [step] at h
    split at h
    · simp_all
    · cases h
  | recv r =>
    simp only [step] at h
    split at h
    · next hl =>
      left
      cases r with
      | data chunk => exact .inr (.inl ⟨hl, chunk, (Option.some.inj h).symm⟩)
      | eof => exact .inr (.inr (.inl ⟨hl, (Option.some.inj h).symm⟩))
      | again => exact .inr (.inr (.inr ⟨hl, (Option.some.inj h).symm⟩))
    · cases h
  | loop => exact .inr (.inl ⟨rfl, h⟩)
  | start i data =>
    simp only [step] at h
    split at h
    · next m hm =>
      split at h
      · cases h
      · simp only [Option.some.injEq] at h
        subst h
        refine .inr (.inr ⟨nofun, i, _, s.conn, .lock data, false, hm, ?_, by simp⟩)
        exact .respond s.conn.writeMutex rfl rfl (by simp [JobPc.lost]) (by simp)
          (fun hw => .inr ⟨hw, rfl⟩)
    · cases h
  | job i result =>
    obtain ⟨p, hp, h⟩ := Option.bind_eq_some_iff.mp h
    obtain ⟨⟨c', q, late⟩, hj, rfl⟩ := Option.map_eq_some_iff.mp h
    exact .inr (.inr ⟨nofun, i, p, c', q, late, hp, jobMove_of_jobStep hj, rfl⟩)

/-! ### One job among the others -/

section Jobs

variable {l : List JobPc} {i : ℕ} {p q : JobPc}

theorem forall_mem_set {P : JobPc → Prop} (h : ∀ j ∈ l, P j) (hq : P q) : ∀ j ∈ l.set i q, P j := by
  intro j hj
  rcases List.mem_or_eq_of_mem_set hj with hj | rfl
  · exact h j hj
  · exact hq

theorem mem_set_self (hp : l[i]? = some p) : q ∈ l.set i q :=
  List.mem_set (List.getElem?_eq_some_iff.mp hp).1 q

theorem exists_mem_set {P : JobPc → Prop} (h : ∃ j ∈ l, P j) (hp : l[i]? = some p) (hn : ¬ P p) :
    ∃ j ∈ l.set i q, P j := by
  obtain ⟨j, hj, hP⟩ := h
  obtain ⟨k, hk⟩ := List.getElem?_of_mem hj
  have hik : i ≠ k := by
    rintro rfl
    rw [hp] at hk
    exact hn (Option.some.inj hk ▸ hP)
  exact ⟨j, List.mem_of_getElem? ((List.getElem?_set_ne hik).trans hk), hP⟩

theorem countP_set_add (f : JobPc → Bool) (hp : l[i]? = some p) :
    ((l.set i q).countP f : ℤ) =
      l.countP f - (if f p then 1 else 0) + (if f q then 1 else 0) := by
  obtain ⟨hi, rfl⟩ := List.getElem?_eq_some_iff.mp hp
  have h1 := List.countP_set (p := f) (a := q) hi
  have h2 : f l[i] = true → 0 < l.countP f := fun h =>
    List.countP_pos_iff.mpr ⟨_, List.getElem_mem hi, h⟩
  split_ifs at h1 ⊢ <;> simp_all

end Jobs

section Fin

variable (c : Connection) (f : FinPc)

@[simp] theorem finStep_pendingJobs : (finStep c f).1.pendingJobs = c.pendingJobs := by
  cases f <;> simp [finStep, apply_ite]

@[simp] theorem finStep_peerClosed : (finStep c f).1.peerClosed = c.peerClosed := by
  cases f <;> simp [finStep, apply_ite]

@[simp] theorem finStep_recvBuffer : (finStep c f).1.recvBuffer = c.recvBuffer := by
  cases f <;> simp [finStep, apply_ite]

@[simp] theorem finStep_writeMutex : (finStep c f).1.writeMutex = c.writeMutex := by
  cases f <;> simp [finStep, apply_ite]

theorem closing_of_finStep {c : Connection} {f : FinPc}
    (h : (finStep c f).1.Closing ∨ ∃ f', (finStep c f).2 = some f' ∧ f'.closing = true) :
    (c.Closing ∨ f.closing = true) ∨ c.pendingJobs = 0 := by
  cases f with
  | readPeer =>
    cases hp : c.peerClosed <;> simp_all [finStep, FinPc.closing]
  | readPending =>
    by_cases h0 : c.pendingJobs = 0
    · exact .inr h0
    · simp_all [finStep, FinPc.closing]
  | cas => exact .inl (.inr rfl)
  | clearAlive => exact .inl (.inr rfl)
  | closeFd => exact .inl (.inr rfl)

theorem finStep_unseen {c : Connection} (h : c.peerClosed = false) :
    finStep c .readPeer = (c, none) := by
  simp [finStep, h]

end Fin

/-! ### What holds in every run -/

/-- The counter, what a connection whose end was not announced looks like, and the mutex. -/
structure Books (s : State) : Prop where
  pending : s.conn.pendingJobs =
    s.jobs.countP JobPc.pending + (if s.loop.counted then 1 else 0)
  unseen : s.conn.peerClosed = false → s.loop.ending = false ∧ s.conn.fdClosed = false ∧
    s.conn.alive = true ∧ s.conn.closed = false ∧ ∀ j ∈ s.jobs, j.sawPeerClosed = false
  routed : s.routed = true → s.loop ≠ .deregister → s.conn.peerClosed = false
  receiving : s.loop.receiving = true → s.conn.peerClosed = false
  mutex : s.conn.writeMutex = true → ∃ j ∈ s.jobs, j.locked = true

theorem sawPeerClosed_of_pending {p : JobPc} (h : p.pending = true) : p.sawPeerClosed = false := by
  cases p <;> simp_all [JobPc.pending, JobPc.sawPeerClosed]

theorem Books.init {s : State} (h : machine.init s) : Books s := by
  obtain rfl : s = _ := h
  exact ⟨rfl, fun _ => ⟨rfl, rfl, rfl, rfl, by simp⟩, fun _ _ => rfl, fun _ => rfl, by
    simp [Connection.fresh]⟩

theorem Books.loopStep {s s' : State} (h : Books s) (hs : loopStep s = some s') : Books s' := by
  obtain ⟨hp, hu, hr, hv, hm⟩ := h
  obtain ⟨hl, rfl⟩ | ⟨hl, rfl⟩ | ⟨p, m, r, hl, -, rfl⟩ | ⟨p, hl, -, rfl⟩ | ⟨p, m, hl, rfl⟩ |
    ⟨p, m, hl, rfl⟩ | ⟨f, hl, rfl⟩ := loopStep_cases hs <;>
    simp only [hl, LoopPc.counted, LoopPc.ending, LoopPc.receiving] at hp hu hr hv
  · exact ⟨by simpa [LoopPc.counted] using hp, by simp, by simp, by simp [LoopPc.receiving], hm⟩
  · exact ⟨hp, fun h => by simpa using hu h, by simp, by simp [LoopPc.receiving], hm⟩
  · exact ⟨hp, hu, fun h _ => hr h (by simp), hv, hm⟩
  · cases p with
    | false => exact ⟨hp, hu, fun h _ => hr h (by simp), by simp [LoopPc.receiving], hm⟩
    | true => exact ⟨hp, hu, fun h _ => hr h (by simp), by simp [LoopPc.receiving], hm⟩
  · exact ⟨by simpa [LoopPc.counted] using hp, hu, fun h _ => hr h (by simp), hv, hm⟩
  · refine ⟨?_, ?_, fun h _ => hr h (by simp), hv, ?_⟩
    · simpa [LoopPc.counted, JobPc.pending] using hp
    · intro h
      obtain ⟨h1, h2, h3, h4, h5⟩ := hu h
      refine ⟨h1, h2, h3, h4, fun j hj => ?_⟩
      rcases List.mem_append.mp hj with hj | hj
      · exact h5 j hj
      · obtain rfl := List.mem_singleton.mp hj
        rfl
    · intro h
      obtain ⟨j, hj, hjl⟩ := hm h
      exact ⟨j, List.mem_append_left _ hj, hjl⟩
  · have hpc : s.conn.peerClosed = true := by
      by_contra h
      simpa using (hu (by simpa using h)).1
    refine ⟨?_, by simp [hpc], ?_, ?_, by simpa using hm⟩
    · rw [finStep_pendingJobs, hp]
      cases (finStep s.conn f).2 <;> rfl
    · intro h _
      simpa [hpc] using hr h (by simp)
    · cases (finStep s.conn f).2 <;> simp [LoopPc.receiving]

theorem Books.jobMove {s : State} {i : ℕ} {p q : JobPc} {c' : Connection} {late : Bool}
    (h : Books s) (hi : s.jobs[i]? = some p) (hj : JobMove s.conn p c' q late) :
    Books { s with conn := c', jobs := s.jobs.set i q, late := s.late || late } := by
  obtain ⟨hp, hu, hr, hv, hm⟩ := h
  cases hj with
  | respond w hpp hqp _ _ hw =>
    refine ⟨?_, fun h => ?_, hr, hv, fun h => ?_⟩
    · simpa [countP_set_add _ hi, hpp, hqp] using hp
    · obtain ⟨h1, h2, h3, h4, h5⟩ := hu h
      exact ⟨h1, h2, h3, h4, forall_mem_set h5 (sawPeerClosed_of_pending hqp)⟩
    · rcases hw h with hq | ⟨hc, hpl⟩
      · exact ⟨q, mem_set_self hi, hq⟩
      · exact exists_mem_set (hm hc) hi (by simp [hpl])
  | decrement handed =>
    refine ⟨?_, fun h => ?_, hr, hv, fun h => ?_⟩
    · simp [countP_set_add _ hi, JobPc.pending, hp]
      omega
    · obtain ⟨h1, h2, h3, h4, h5⟩ := hu h
      exact ⟨h1, h2, h3, h4, forall_mem_set h5 rfl⟩
    · exact exists_mem_set (hm h) hi (by simp [JobPc.locked])
  | finalize handed f =>
    refine ⟨?_, fun h => ?_, by simpa using hr, by simpa using hv, fun h => ?_⟩
    · cases (finStep s.conn f).2 <;> simp [countP_set_add _ hi, JobPc.pending, hp]
    · rw [finStep_peerClosed] at h
      obtain ⟨h1, h2, h3, h4, h5⟩ := hu h
      have hf : f = .readPeer := by simpa [JobPc.sawPeerClosed] using h5 _ (List.mem_of_getElem? hi)
      subst hf
      rw [finStep_unseen h]
      exact ⟨h1, h2, h3, h4, forall_mem_set h5 rfl⟩
    · rw [finStep_writeMutex] at h
      exact exists_mem_set (hm h) hi (by simp [JobPc.locked])

theorem Books.goto {s : State} {l : LoopPc} (h : Books s) (hpc : s.conn.peerClosed = false)
    (hc : l.counted = s.loop.counted) (he : l.ending = false) : Books { s with loop := l } where
  pending := by
    dsimp only
    rw [hc]
    exact h.pending
  unseen _ := ⟨he, (h.unseen hpc).2⟩
  routed _ _ := hpc
  receiving _ := hpc
  mutex := h.mutex

theorem Books.step {s s' : State} {a : Act} (h : Books s) (hs : machine.step s a = some s') :
    Books s' := by
  obtain (⟨hl, hr, rfl⟩ | ⟨hl, chunk, rfl⟩ | ⟨hl, rfl⟩ | ⟨hl, rfl⟩) | ⟨-, hs⟩ |
    ⟨hne, i, p, c', q, late, hi, hj, rfl⟩ := step_cases hs
  · exact h.goto (h.routed hr (by simp [hl])) (by rw [hl]; rfl) rfl
  · exact ⟨h.pending, h.unseen, h.routed, h.receiving, h.mutex⟩
  · exact h.goto (h.receiving (by simp [hl, LoopPc.receiving])) (by rw [hl]; rfl) rfl
  · exact h.goto (h.receiving (by simp [hl, LoopPc.receiving])) (by rw [hl]; rfl) rfl
  · exact h.loopStep hs
  · exact h.jobMove hi hj

theorem books_of_reachable {s : State} (h : machine.Reachable s) : Books s :=
  h.invariant (fun _ hi => .init hi) fun _ _ _ hi _ hs => hi.step hs

theorem Books.peerClosed_of_ending {s : State} (h : Books s) (hl : s.loop.ending = true) :
    s.conn.peerClosed = true := by
  by_contra hn
  simpa [hl] using (h.unseen (by simpa using hn)).1

/-! ### Runs whose announcements are harmless -/

/-- Nothing is left to dispatch. -/
def State.Quiet (s : State) : Prop :=
  nextMessage s.conn.recvBuffer = none ∧ s.loop.carries = false

/-- One message is left to dispatch, and no job is there to close the connection meanwhile. -/
structure State.Single (s : State) : Prop where
  done : ∀ j ∈ s.jobs, j.isDone = true
  open_ : ¬ s.Closing
  left : ((s.loop = .deregister ∨ s.loop = .extract true) ∧
      ∃ m r, nextMessage s.conn.recvBuffer = some (m, r) ∧ nextMessage r = none) ∨
    ((∃ m, s.loop = .fetchAdd true m ∨ s.loop = .submit true m) ∧
      nextMessage s.conn.recvBuffer = none)

/-- The invariant of the harmless runs: who decides to close has seen the peer closed, no job
pending and nothing left to dispatch. -/
structure Calm (s : State) : Prop extends Books s where
  closing : s.Closing → s.conn.peerClosed = true ∧ s.conn.pendingJobs = 0 ∧ s.Quiet
  ended : s.conn.peerClosed = true → s.Quiet ∨ s.Single
  kept : ∀ j ∈ s.jobs, j.lost = false
  onTime : s.late = false

theorem not_closing_of_unseen {s : State} (h : Books s) (hp : s.conn.peerClosed = false) :
    ¬ s.Closing := by
  obtain ⟨h1, h2, h3, h4, h5⟩ := h.unseen hp
  rintro ((h | h | h) | ⟨j, hj, h⟩ | h)
  · simp [h2] at h
  · simp [h3] at h
  · simp [h4] at h
  · have := h5 j hj
    cases j <;> simp_all [JobPc.closing, JobPc.sawPeerClosed, FinPc.closing]
  · cases hl : s.loop <;> simp_all [LoopPc.ending, LoopPc.closing]

theorem not_pending_of_closing {s : State} (h : Calm s) (hc : s.Closing) {j : JobPc}
    (hj : j ∈ s.jobs) : j.pending = false := by
  by_contra hp
  have h0 := (h.closing hc).2.1
  have h1 := h.pending
  have h2 : 0 < s.jobs.countP JobPc.pending := List.countP_pos_iff.mpr ⟨j, hj, by simpa using hp⟩
  split at h1 <;> omega

/-- **Calm states are safe.** -/
theorem Calm.safe {s : State} (h : Calm s) : Safe s := by
  refine ⟨fun hc => ⟨fun j hj => ?_, ?_⟩, h.kept, h.onTime⟩
  · have h1 := not_pending_of_closing h (.inl (.inr (.inr hc))) hj
    have h2 := h.kept j hj
    cases j <;> simp_all [JobPc.pending, JobPc.lost, JobPc.handed]
  · exact (h.closing (.inl (.inr (.inr hc)))).2.2.2

theorem Calm.init {s : State} (h : machine.init s) : Calm s := by
  have hb := Books.init h
  obtain rfl : s = _ := h
  refine ⟨hb, fun hc => ?_, fun hp => by simp [Connection.fresh] at hp, by simp, rfl⟩
  exact absurd hc (not_closing_of_unseen hb rfl)

theorem Calm.single_of_carries {s : State} (h : Calm s) (he : s.loop.ending = true)
    (hl : s.loop.carries = true) : s.Single :=
  (h.ended (h.toBooks.peerClosed_of_ending he)).resolve_left fun hq => by simp [hq.2] at hl

theorem State.Single.next_of_carries {s : State} (h : s.Single) (hl : s.loop.carries = true) :
    nextMessage s.conn.recvBuffer = none := by
  rcases h.left with ⟨hl' | hl', -⟩ | ⟨-, hn⟩
  · simp [hl', LoopPc.carries] at hl
  · simp [hl', LoopPc.carries] at hl
  · exact hn

theorem Calm.of_unseen {s : State} (hb : Books s) (hp : s.conn.peerClosed = false)
    (hk : ∀ j ∈ s.jobs, j.lost = false) (hl : s.late = false) : Calm s :=
  ⟨hb, fun hc => absurd hc (not_closing_of_unseen hb hp), fun h => by simp [hp] at h, hk, hl⟩

theorem Calm.loopStep {s s' : State} (h : Calm s) (hc : s.loop = .sawEof → Harmless s)
    (hs : loopStep s = some s') : Calm s' := by
  have hb := h.toBooks.loopStep hs
  obtain ⟨hl, rfl⟩ | ⟨hl, rfl⟩ | ⟨p, m, r, hl, hn, rfl⟩ | ⟨p, hl, hn, rfl⟩ | ⟨p, m, hl, rfl⟩ |
    ⟨p, m, hl, rfl⟩ | ⟨f, hl, rfl⟩ := loopStep_cases hs
  · -- the announcement
    have hnc := not_closing_of_unseen h.toBooks (h.receiving (by simp [hl, LoopPc.receiving]))
    have hnc' : ¬ State.Closing
        { s with conn := { s.conn with peerClosed := true }, loop := .deregister } := by
      simpa [State.Closing, Connection.Closing, hl, LoopPc.closing] using hnc
    refine ⟨hb, fun hcl => absurd hcl hnc', fun _ => ?_, h.kept, h.onTime⟩
    rcases hc hl with hn | ⟨m, r, hn, hr, hd⟩
    · exact .inl ⟨hn, rfl⟩
    · exact .inr ⟨hd, hnc', .inl ⟨.inl rfl, m, r, hn, hr⟩⟩
  · have hpc := h.toBooks.peerClosed_of_ending (by simp [hl, LoopPc.ending])
    refine ⟨hb, fun hcl => ?_, fun _ => ?_, h.kept, h.onTime⟩
    · have := h.closing (by simpa [State.Closing, hl, LoopPc.closing] using hcl)
      exact ⟨this.1, this.2.1, this.2.2.1, rfl⟩
    · rcases h.ended hpc with hq | hq
      · exact .inl ⟨hq.1, rfl⟩
      · refine .inr ⟨hq.done, by simpa [State.Closing, hl, LoopPc.closing] using hq.open_, ?_⟩
        simpa [hl] using hq.left
  · -- a message is extracted: the last one, or the end is not announced
    cases p with
    | false =>
      exact .of_unseen hb (h.receiving (by simp [hl, LoopPc.receiving])) h.kept h.onTime
    | true =>
      have hq : s.Single := by
        refine (h.ended (h.toBooks.peerClosed_of_ending (by simp [hl, LoopPc.ending]))).resolve_left
          fun hq => ?_
        simp [hq.1] at hn
      have hnc : ¬ State.Closing { s with
          conn := { s.conn with recvBuffer := r }, loop := .fetchAdd true m } := by
        simpa [State.Closing, Connection.Closing, hl, LoopPc.closing] using hq.open_
      refine ⟨hb, fun hcl => absurd hcl hnc, fun _ => .inr ⟨hq.done, hnc, ?_⟩, h.kept, h.onTime⟩
      rcases hq.left with ⟨-, m', r', hn', hr'⟩ | ⟨⟨m', hl' | hl'⟩, -⟩
      · obtain ⟨rfl, rfl⟩ : m = m' ∧ r = r' := by simpa [hn] using hn'
        exact .inr ⟨⟨m, .inl rfl⟩, hr'⟩
      · simp [hl] at hl'
      · simp [hl] at hl'
  · -- nothing left to extract
    cases p with
    | false =>
      exact .of_unseen hb (h.receiving (by simp [hl, LoopPc.receiving])) h.kept h.onTime
    | true =>
      have hpc := h.toBooks.peerClosed_of_ending (by simp [hl, LoopPc.ending])
      refine ⟨hb, fun hcl => ?_, fun _ => .inl ⟨hn, rfl⟩, h.kept, h.onTime⟩
      have := h.closing (by simpa [State.Closing, hl, LoopPc.closing, FinPc.closing] using hcl)
      exact ⟨this.1, this.2.1, hn, rfl⟩
  · cases p with
    | false =>
      exact .of_unseen hb (h.receiving (by simp [hl, LoopPc.receiving])) h.kept h.onTime
    | true =>
      have hq := h.single_of_carries (by simp [hl, LoopPc.ending]) (by simp [hl, LoopPc.carries])
      have hnc : ¬ State.Closing { s with
          conn := { s.conn with pendingJobs := s.conn.pendingJobs + 1 },
          loop := .submit true m } := by
        simpa [State.Closing, Connection.Closing, hl, LoopPc.closing] using hq.open_
      exact ⟨hb, fun hcl => absurd hcl hnc, fun _ => .inr ⟨hq.done, hnc,
        .inr ⟨⟨m, .inr rfl⟩, hq.next_of_carries (by simp [hl, LoopPc.carries])⟩⟩, h.kept, h.onTime⟩
  · have hk : ∀ j ∈ s.jobs ++ [JobPc.queued m], j.lost = false := by
      intro j hj
      rcases List.mem_append.mp hj with hj | hj
      · exact h.kept j hj
      · obtain rfl := List.mem_singleton.mp hj
        rfl
    cases p with
    | false => exact .of_unseen hb (h.receiving (by simp [hl, LoopPc.receiving])) hk h.onTime
    | true =>
      have hq := h.single_of_carries (by simp [hl, LoopPc.ending]) (by simp [hl, LoopPc.carries])
      refine ⟨hb, fun hcl => absurd hcl ?_, fun _ => .inl ⟨hq.next_of_carries
        (by simp [hl, LoopPc.carries]), rfl⟩, hk, h.onTime⟩
      have hno := hq.open_
      simp only [State.Closing, hl, LoopPc.closing, List.mem_append, List.mem_singleton] at hno ⊢
      rintro (h | ⟨j, hj | rfl, h⟩ | h)
      · exact hno (.inl h)
      · exact hno (.inr (.inl ⟨j, hj, h⟩))
      · cases h
      · cases h
  · -- the event loop's own `tryFinalize`
    have hpc := h.toBooks.peerClosed_of_ending (by simp [hl, LoopPc.ending])
    have hq : s.Quiet := by
      refine (h.ended hpc).resolve_right fun hq => ?_
      rcases hq.left with ⟨hl' | hl', -⟩ | ⟨⟨m, hl' | hl'⟩, -⟩ <;> simp [hl] at hl'
    have hq' : State.Quiet { s with
        conn := (finStep s.conn f).1, loop := (finStep s.conn f).2.elim .wait .finalize } := by
      refine ⟨by simpa using hq.1, ?_⟩
      cases (finStep s.conn f).2 <;> rfl
    refine ⟨hb, fun hcl => ⟨by simpa using hpc, ?_, hq'⟩, fun _ => .inl hq', h.kept, h.onTime⟩
    rw [finStep_pendingJobs]
    have hcs : s.Closing ∨ s.conn.pendingJobs = 0 := by
      rcases hcl with hcl | hcl | hcl
      · exact (closing_of_finStep (.inl hcl)).imp_left (.imp_right fun hf => .inr (by
          simpa [hl, LoopPc.closing] using hf))
      · exact .inl (.inr (.inl hcl))
      · refine (closing_of_finStep (.inr ?_)).imp_left (.imp_right fun hf => .inr (by
          simpa [hl, LoopPc.closing] using hf))
        cases hf : (finStep s.conn f).2 with
        | none => simp [hf, LoopPc.closing] at hcl
        | some f' => exact ⟨f', rfl, by simpa [hf, LoopPc.closing] using hcl⟩
    rcases hcs with hcs | h0
    · exact (h.closing hcs).2.1
    · exact h0

theorem Calm.jobMove {s : State} {i : ℕ} {p q : JobPc} {c' : Connection} {late : Bool}
    (h : Calm s) (hi : s.jobs[i]? = some p) (hj : JobMove s.conn p c' q late) :
    Calm { s with conn := c', jobs := s.jobs.set i q, late := s.late || late } := by
  have hb := h.toBooks.jobMove hi hj
  have hip := List.mem_of_getElem? hi
  have hended : s.conn.peerClosed = true → s.Quiet := fun hpc =>
    (h.ended hpc).resolve_right fun hs => by
      have hd := hs.done p hip
      rw [hj.not_done] at hd
      cases hd
  cases hj with
  | respond w hpp hqp hl hlt hw =>
    have hnc : ¬ s.Closing := fun hc => by
      rw [not_pending_of_closing h hc hip] at hpp
      cases hpp
    refine ⟨hb, fun hc => absurd ?_ hnc, fun hpc => .inl (hended hpc), ?_, ?_⟩
    · rcases hc with hc | ⟨j, hjm, hjc⟩ | hc
      · exact .inl hc
      · rcases List.mem_or_eq_of_mem_set hjm with hjm | rfl
        · exact .inr (.inl ⟨j, hjm, hjc⟩)
        · cases j <;> simp_all [JobPc.pending, JobPc.closing]
      · exact .inr (.inr hc)
    · refine forall_mem_set h.kept ?_
      by_contra hq
      rcases hl (by simpa using hq) with hpl | ha
      · simp [h.kept p hip] at hpl
      · exact hnc (.inl (.inr (.inl ha)))
    · rw [h.onTime, Bool.false_or]
      by_contra hq
      exact hnc (.inl (.inr (.inr (hlt (by simpa using hq)))))
  | decrement handed =>
    have hnc : ¬ s.Closing := fun hc => by
      have := not_pending_of_closing h hc hip
      cases this
    have hk := h.kept _ hip
    refine ⟨hb, fun hc => absurd ?_ hnc, fun hpc => .inl (hended hpc),
      forall_mem_set h.kept (by exact hk), by simp [h.onTime]⟩
    rcases hc with hc | ⟨j, hjm, hjc⟩ | hc
    · exact .inl hc
    · rcases List.mem_or_eq_of_mem_set hjm with hjm | rfl
      · exact .inr (.inl ⟨j, hjm, hjc⟩)
      · cases hjc
    · exact .inr (.inr hc)
  | finalize handed f =>
    have hquiet : s.conn.peerClosed = true → State.Quiet { s with
        conn := (finStep s.conn f).1,
        jobs := s.jobs.set i ((finStep s.conn f).2.elim (.done handed) (.finalize handed)),
        late := s.late || false } := fun hpc => ⟨by simpa using (hended hpc).1, (hended hpc).2⟩
    have hcs : State.Closing { s with
        conn := (finStep s.conn f).1,
        jobs := s.jobs.set i ((finStep s.conn f).2.elim (.done handed) (.finalize handed)),
        late := s.late || false } →
        s.Closing ∨ s.conn.pendingJobs = 0 ∧ s.conn.peerClosed = true := by
      intro hc
      have hcl : s.Closing ∨ s.conn.pendingJobs = 0 := by
        have hup : s.conn.Closing ∨ f.closing = true → s.Closing :=
          .imp_right fun hf => .inl ⟨_, hip, hf⟩
        rcases hc with hc | ⟨j, hjm, hjc⟩ | hc
        · exact (closing_of_finStep (.inl hc)).imp_left hup
        · rcases List.mem_or_eq_of_mem_set hjm with hjm | rfl
          · exact .inl (.inr (.inl ⟨j, hjm, hjc⟩))
          · refine (closing_of_finStep (.inr ?_)).imp_left hup
            cases hf : (finStep s.conn f).2 with
            | none => simp [hf, JobPc.closing] at hjc
            | some f' => exact ⟨f', rfl, by simpa [hf, JobPc.closing] using hjc⟩
        · exact .inl (.inr (.inr hc))
      by_cases hpc : s.conn.peerClosed = true
      · exact hcl.imp_right fun h0 => ⟨h0, hpc⟩
      · -- nobody is closing after the step either
        have hpc : s.conn.peerClosed = false := by simpa using hpc
        exact absurd hc (not_closing_of_unseen hb (by simpa using hpc))
    refine ⟨hb, fun hc => ?_, fun hpc => .inl (hquiet (by simpa using hpc)), ?_, by simp [h.onTime]⟩
    · rcases hcs hc with hc | ⟨h0, hpc⟩
      · have := h.closing hc
        exact ⟨by simpa using this.1, by simpa using this.2.1, hquiet this.1⟩
      · exact ⟨by simpa using hpc, by simpa using h0, hquiet hpc⟩
    · refine forall_mem_set h.kept ?_
      have := h.kept _ hip
      cases (finStep s.conn f).2 <;> exact this

theorem Calm.step {s s' : State} {a : Act} (h : Calm s) (hc : AnnouncesHarmlessly s a)
    (hs : machine.step s a = some s') : Calm s' := by
  have hb := h.toBooks.step hs
  obtain (⟨hl, hr, rfl⟩ | ⟨hl, chunk, rfl⟩ | ⟨hl, rfl⟩ | ⟨hl, rfl⟩) | ⟨ha, hs⟩ |
    ⟨hne, i, p, c', q, late, hi, hj, rfl⟩ := step_cases hs
  · exact .of_unseen hb (h.routed hr (by simp [hl])) h.kept h.onTime
  · exact .of_unseen hb (h.receiving (by simp [hl, LoopPc.receiving])) h.kept h.onTime
  · exact .of_unseen hb (h.receiving (by simp [hl, LoopPc.receiving])) h.kept h.onTime
  · exact .of_unseen hb (h.receiving (by simp [hl, LoopPc.receiving])) h.kept h.onTime
  · exact h.loopStep (fun hl => hc hl ha) hs
  · exact h.jobMove hi hj

theorem calm_of_within {s : State} (h : machine.Within AnnouncesHarmlessly s) : Calm s :=
  h.invariant (fun _ hi => .init hi) fun _ _ _ hi hc hs => hi.step hc hs

/-! ### Driving a connection to its close -/

/-- In `tryFinalize`, before the CAS has decided. -/
def JobPc.deciding : JobPc → Bool
  | .finalize _ .readPeer => true
  | .finalize _ .readPending => true
  | .finalize _ .cas => true
  | _ => false

def JobPc.clearing : JobPc → Bool
  | .finalize _ .clearAlive => true
  | .finalize _ .closeFd => true
  | _ => false

/-- The jobs alone will close the connection. -/
def State.Fated (s : State) : Prop :=
  s.conn.closed = true ∨ (∃ j ∈ s.jobs, j.clearing = true) ∨
    (s.conn.fdClosed = false ∧
      (0 < s.conn.pendingJobs ∨ s.conn.pendingJobs = 0 ∧ ∃ j ∈ s.jobs, j.deciding = true))

/-- The event loop, between two of its steps, has announced the end and has a message left to
extract, and the jobs will close the connection if it waits. -/
structure Doomed (s : State) : Prop extends Books s where
  announced : s.conn.peerClosed = true
  extracting : s.loop = .extract true
  more : nextMessage s.conn.recvBuffer ≠ none
  fated : s.Fated

/-- The event loop, between two of its steps, has announced the end, and the jobs will close the
connection if it waits at `p`. -/
structure Left (p : LoopPc) (s : State) : Prop extends Books s where
  announced : s.conn.peerClosed = true
  waiting : s.loop = p
  uncounted : p.counted = false
  fated : s.Fated

theorem Doomed.left {s : State} (h : Doomed s) : Left (.extract true) s :=
  ⟨h.toBooks, h.announced, h.extracting, rfl, h.fated⟩

theorem JobMove.preserves {c c' : Connection} {p q : JobPc} {late : Bool}
    (h : JobMove c p c' q late) :
    c'.peerClosed = c.peerClosed ∧ c'.recvBuffer = c.recvBuffer ∧
      (c.closed = true → c'.closed = true) := by
  cases h with
  | respond w => exact ⟨rfl, rfl, id⟩
  | decrement handed => exact ⟨rfl, rfl, id⟩
  | finalize handed f =>
    refine ⟨finStep_peerClosed c f, finStep_recvBuffer c f, ?_⟩
    cases f <;> simp only [finStep]
    · exact id
    · exact id
    · split <;> exact id
    · exact id
    · exact fun _ => trivial

theorem Left.fated_jobMove {l : LoopPc} {s : State} {i : ℕ} {p q : JobPc} {c' : Connection}
    {late : Bool} (h : Left l s) (hi : s.jobs[i]? = some p) (hj : JobMove s.conn p c' q late) :
    State.Fated { s with conn := c', jobs := s.jobs.set i q, late := s.late || late } := by
  rcases h.fated with hcl | hcl | ⟨hfd, hpd⟩
  · exact .inl (hj.preserves.2.2 hcl)
  · -- somebody is past the CAS
    cases hj with
    | respond w hp =>
      refine .inr (.inl (exists_mem_set hcl hi ?_))
      cases p <;> simp_all [JobPc.pending, JobPc.clearing]
    | decrement handed => exact .inr (.inl (exists_mem_set hcl hi (by simp [JobPc.clearing])))
    | finalize handed f =>
      cases f with
      | clearAlive => exact .inr (.inl ⟨_, mem_set_self hi, rfl⟩)
      | closeFd => exact .inl rfl
      | readPeer => exact .inr (.inl (exists_mem_set hcl hi (by simp [JobPc.clearing])))
      | readPending => exact .inr (.inl (exists_mem_set hcl hi (by simp [JobPc.clearing])))
      | cas => exact .inr (.inl (exists_mem_set hcl hi (by simp [JobPc.clearing])))
  · -- the fd is open, and a job is pending or about to look
    have hcount : s.conn.pendingJobs = s.jobs.countP JobPc.pending := by
      simpa [h.waiting, h.uncounted] using h.pending
    cases hj with
    | respond w hp hq =>
      refine .inr (.inr ⟨hfd, hpd.imp_right fun ⟨h0, hd⟩ => ⟨h0, exists_mem_set hd hi ?_⟩⟩)
      cases p <;> simp_all [JobPc.pending, JobPc.deciding]
    | decrement handed =>
      have hpos : 0 < s.jobs.countP JobPc.pending :=
        List.countP_pos_iff.mpr ⟨_, List.mem_of_getElem? hi, rfl⟩
      refine .inr (.inr ⟨hfd, ?_⟩)
      rcases (by omega : 0 < s.conn.pendingJobs - 1 ∨ s.conn.pendingJobs - 1 = 0) with h1 | h1
      · exact .inl h1
      · exact .inr ⟨h1, _, mem_set_self hi, rfl⟩
    | finalize handed f =>
      obtain ⟨rfl, hp, -⟩ | ⟨rfl, hp, he⟩ | ⟨rfl, hp, he⟩ | ⟨rfl, hp, he⟩ | ⟨rfl, hp, -⟩ |
        ⟨rfl, hp, he⟩ | ⟨rfl, he⟩ | ⟨rfl, he⟩ := finStep_cases s.conn f
      · simp [h.announced] at hp
      · rw [he]
        exact .inr (.inr ⟨hfd, hpd.imp_right fun ⟨h0, _⟩ => ⟨h0, _, mem_set_self hi, rfl⟩⟩)
      · rw [he]
        exact .inr (.inr ⟨hfd, .inl (hpd.resolve_right fun h0 => hp h0.1)⟩)
      · rw [he]
        exact .inr (.inr ⟨hfd, .inr ⟨hp, _, mem_set_self hi, rfl⟩⟩)
      · simp [hfd] at hp
      · rw [he]
        exact .inr (.inl ⟨_, mem_set_self hi, rfl⟩)
      · rw [he]
        exact .inr (.inl ⟨_, mem_set_self hi, rfl⟩)
      · rw [he]
        exact .inl rfl

theorem Left.jobMove {l : LoopPc} {s : State} {i : ℕ} {p q : JobPc} {c' : Connection} {late : Bool}
    (h : Left l s) (hi : s.jobs[i]? = some p) (hj : JobMove s.conn p c' q late) :
    Left l { s with conn := c', jobs := s.jobs.set i q, late := s.late || late } where
  toBooks := h.toBooks.jobMove hi hj
  announced := hj.preserves.1.trans h.announced
  waiting := h.waiting
  uncounted := h.uncounted
  fated := h.fated_jobMove hi hj

def Act.byJob : Act → Bool
  | .start _ _ => true
  | .job _ _ => true
  | _ => false

/-- How many steps a job is from its end, if every `::send` gives up. -/
def JobPc.rank : JobPc → ℕ
  | .queued _ => 11
  | .lock _ => 10
  | .check _ => 9
  | .send _ _ => 8
  | .unlock _ => 7
  | .decrement _ => 6
  | .finalize _ .readPeer => 5
  | .finalize _ .readPending => 4
  | .finalize _ .cas => 3
  | .finalize _ .clearAlive => 2
  | .finalize _ .closeFd => 1
  | .done _ => 0

/-- A job that does not wait for the mutex can move on. -/
theorem exists_step_of_not_done {s : State} {i : ℕ} {p : JobPc} (hi : s.jobs[i]? = some p)
    (hd : p.isDone = false) (hw : p.locked = false → s.conn.writeMutex = false) :
    ∃ a c' q late, a.byJob = true ∧ JobMove s.conn p c' q late ∧ q.rank < p.rank ∧
      machine.step s a =
        some { s with conn := c', jobs := s.jobs.set i q, late := s.late || late } := by
  have hjob : ∀ {c' q late}, jobStep s.conn none p = some (c', q, late) → q.rank < p.rank →
      ∃ a c' q late, a.byJob = true ∧ JobMove s.conn p c' q late ∧ q.rank < p.rank ∧
        machine.step s a =
          some { s with conn := c', jobs := s.jobs.set i q, late := s.late || late } := by
    intro c' q late h hr
    exact ⟨.job i none, c', q, late, rfl, jobMove_of_jobStep h, hr,
      by simp [machine, step, hi, h]⟩
  cases p with
  | queued m =>
    refine ⟨.start i [0], s.conn, .lock [0], false, rfl, ?_, by simp [JobPc.rank], ?_⟩
    · exact .respond s.conn.writeMutex rfl rfl (by simp [JobPc.lost]) (by simp)
        (fun hw => .inr ⟨hw, rfl⟩)
    · simp [machine, step, hi]
  | lock data => exact hjob (by rw [jobStep, hw rfl]; rfl) (by simp [JobPc.rank])
  | check data => exact hjob rfl (by split <;> simp [JobPc.rank])
  | send data sent => exact hjob rfl (by simp [JobPc.rank])
  | unlock handed => exact hjob rfl (by simp [JobPc.rank])
  | decrement handed => exact hjob rfl (by simp [JobPc.rank])
  | finalize handed f =>
    refine hjob rfl ?_
    cases f <;> simp only [finStep] <;> (try split) <;> simp [JobPc.rank]
  | done handed => cases hd

def State.work (s : State) : ℕ := (s.jobs.map JobPc.rank).sum

theorem sum_map_set_lt (f : JobPc → ℕ) {p q : JobPc} (hlt : f q < f p) :
    ∀ {l : List JobPc} {i : ℕ}, l[i]? = some p → ((l.set i q).map f).sum < (l.map f).sum
  | [], i, h => by simp at h
  | a :: l, 0, h => by
    obtain rfl : a = p := by simpa using h
    simpa using hlt
  | a :: l, i + 1, h => by
    have := sum_map_set_lt f hlt (l := l) (i := i) (by simpa using h)
    simpa using this

/-- **While the event loop waits, the jobs run to their end.** -/
theorem Left.drive {l : LoopPc} : ∀ (n : ℕ) {s : State}, Left l s → s.work ≤ n →
    ∃ as s', (∀ a ∈ as, a.byJob = true) ∧ machine.exec s as = some s' ∧ Left l s' ∧
      s'.conn.recvBuffer = s.conn.recvBuffer ∧ ∀ j ∈ s'.jobs, j.isDone = true := by
  intro n
  induction n with
  | zero =>
    intro s h hn
    refine ⟨[], s, nofun, rfl, h, rfl, fun j hj => ?_⟩
    have h0 : (s.jobs.map JobPc.rank).sum = 0 := Nat.le_zero.mp hn
    have := List.sum_eq_zero_iff.mp h0 j.rank (List.mem_map_of_mem hj)
    cases j with
    | done handed => rfl
    | finalize handed f => cases f <;> simp [JobPc.rank] at this
    | _ => simp [JobPc.rank] at this
  | succ n ih =>
    intro s h hn
    by_cases hd : ∀ j ∈ s.jobs, j.isDone = true
    · exact ⟨[], s, nofun, rfl, h, rfl, hd⟩
    · -- the holder of the mutex moves first
      have hex : ∃ j ∈ s.jobs, j.isDone = false ∧ (j.locked = false → s.conn.writeMutex = false) := by
        cases hw : s.conn.writeMutex with
        | true =>
          obtain ⟨j, hj, hl⟩ := h.mutex hw
          refine ⟨j, hj, ?_, by simp [hl]⟩
          cases j <;> simp_all [JobPc.locked, JobPc.isDone]
        | false =>
          push Not at hd
          obtain ⟨j, hj, hjd⟩ := hd
          exact ⟨j, hj, by simpa using hjd, fun _ => rfl⟩
      obtain ⟨j, hj, hjd, hjw⟩ := hex
      obtain ⟨i, hi⟩ := List.getElem?_of_mem hj
      obtain ⟨a, c', q, late, ha, hm, hr, hs⟩ := exists_step_of_not_done hi hjd hjw
      have hlt := sum_map_set_lt JobPc.rank hr hi
      obtain ⟨as, s', has, he, hs', hb, hd'⟩ := ih (h.jobMove hi hm) (by
        have : (s.jobs.map JobPc.rank).sum ≤ n + 1 := hn
        simp only [State.work]
        omega)
      refine ⟨a :: as, s', ?_, by simp only [Machine.exec, hs, Option.bind_some, he], hs',
        hb.trans hm.preserves.2.1, hd'⟩
      intro a' ha'
      rcases List.mem_cons.mp ha' with rfl | ha'
      · exact ha
      · exact has a' ha'

/-- When they have, the fd is closed. -/
theorem Left.closed_of_done {l : LoopPc} {s : State} (h : Left l s)
    (hd : ∀ j ∈ s.jobs, j.isDone = true) : s.conn.closed = true := by
  rcases h.fated with hcl | ⟨j, hj, hc⟩ | ⟨-, h0 | ⟨-, j, hj, hc⟩⟩
  · exact hcl
  · have := hd j hj
    cases j <;> simp_all [JobPc.isDone, JobPc.clearing]
  · have hp := h.pending
    rw [h.waiting, h.uncounted] at hp
    simp only [Bool.false_eq_true, if_false] at hp
    obtain ⟨j, hj, hjp⟩ := List.countP_pos_iff.mp
      (by omega : 0 < s.jobs.countP JobPc.pending)
    have := hd j hj
    cases j <;> simp_all [JobPc.isDone, JobPc.pending]
  · have := hd j hj
    cases j <;> simp_all [JobPc.isDone, JobPc.deciding]

/-- **A doomed connection can be closed with a message still to answer.** -/
theorem Doomed.exists_not_safe {s : State} (h : Doomed s) :
    ∃ as s', machine.exec s as = some s' ∧ ¬ Safe s' := by
  obtain ⟨as, s', -, he, hs', hb, hd⟩ := h.left.drive _ le_rfl
  have hcl := hs'.closed_of_done hd
  obtain ⟨⟨m, r⟩, hn⟩ := Option.ne_none_iff_exists'.mp h.more
  rw [← hb] at hn
  have hl : machine.step s' .loop = some { s' with
      conn := { s'.conn with recvBuffer := r }, loop := .fetchAdd true m } := by
    simp only [machine, step, loopStep, hs'.waiting, tryExtractMessage_eq]
    rw [show Framing.extract totalLength s'.conn.recvBuffer = some (m, r) from hn]
  refine ⟨as ++ [.loop], _, Machine.exec_append_some he (by rw [Machine.exec, hl]; rfl), ?_⟩
  intro hsafe
  have := (hsafe.closed hcl).2
  cases this

/-! ### When no response is lost -/

theorem watching_of_not_done {s : State} (hb : Books s) (hl : s.loop = .sawEof)
    (hd : ∃ j ∈ s.jobs, j.isDone = false) :
    0 < s.conn.pendingJobs ∨ s.conn.pendingJobs = 0 ∧ ∃ j ∈ s.jobs, j.deciding = true := by
  obtain ⟨-, -, -, -, hsaw⟩ := hb.unseen (hb.receiving (by simp [hl, LoopPc.receiving]))
  obtain ⟨j, hj, hjd⟩ := hd
  have hcount := hb.pending
  simp only [hl, LoopPc.counted, Bool.false_eq_true, if_false, add_zero] at hcount
  rcases Nat.eq_zero_or_pos (s.jobs.countP JobPc.pending) with h0 | h0
  · refine .inr ⟨by simp [hcount, h0], j, hj, ?_⟩
    have hjp : j.pending = false := by
      simpa using List.countP_eq_zero.mp h0 j hj
    have hjs := hsaw j hj
    cases j with
    | finalize handed f => cases f <;> simp_all [JobPc.sawPeerClosed, JobPc.deciding]
    | done handed => simp [JobPc.isDone] at hjd
    | _ => simp [JobPc.pending] at hjp
  · exact .inl (by simp only [hcount]; omega)

/-- Two messages left, or one and a job that has not returned: the schedule in which the jobs
overtake the event loop. -/
theorem exists_doomed {s : State} (hb : Books s) (hl : s.loop = .sawEof) (hh : ¬ Harmless s) :
    ∃ as s', machine.exec s as = some s' ∧ Doomed s' := by
  have hpc := hb.receiving (by simp [hl, LoopPc.receiving])
  obtain ⟨-, hfd, -⟩ := hb.unseen hpc
  obtain ⟨hn, hmore⟩ : nextMessage s.conn.recvBuffer ≠ none ∧ _ := not_or.mp hh
  obtain ⟨⟨m, r⟩, hn⟩ := Option.ne_none_iff_exists'.mp hn
  -- after the announcement and the deregistration
  have h1 : machine.exec s [.loop, .loop] = some { s with
      conn := { s.conn with peerClosed := true }, routed := false, loop := .extract true } := by
    simp [Machine.exec, machine, step, loopStep, hl]
  have hb1 : Books { s with
      conn := { s.conn with peerClosed := true }, routed := false, loop := .extract true } :=
    Machine.exec_invariant (fun _ _ _ h hs => Books.step h hs) hb h1
  by_cases hd : ∀ j ∈ s.jobs, j.isDone = true
  · -- every earlier job has returned: the first message's job will close
    have hr : nextMessage r ≠ none := fun hr => hmore ⟨m, r, hn, hr, hd⟩
    have hr' : nextMessage ({ s.conn with recvBuffer := r } : Connection).recvBuffer ≠ none := hr
    have h2 : machine.exec s ([.loop, .loop] ++ [.loop, .loop, .loop]) = some { s with
        conn := { s.conn with
          peerClosed := true, recvBuffer := r, pendingJobs := s.conn.pendingJobs + 1 }
        routed := false, jobs := s.jobs ++ [.queued m], loop := .extract true } := by
      refine Machine.exec_append_some h1 ?_
      have hn' : Framing.extract totalLength s.conn.recvBuffer = some (m, r) := hn
      simp [Machine.exec, machine, step, loopStep, tryExtractMessage_eq, hn']
    have hb2 := Machine.exec_invariant (fun _ _ _ h hs => Books.step h hs) hb h2
    refine ⟨_, _, h2, ⟨hb2, rfl, rfl, hr, .inr (.inr ⟨hfd, .inl ?_⟩)⟩⟩
    have := hb.pending
    simp only [hl, LoopPc.counted] at this
    simp only [Bool.false_eq_true, if_false] at this
    show 0 < s.conn.pendingJobs + 1
    omega
  · -- an earlier job will close
    refine ⟨_, _, h1, ⟨hb1, rfl, rfl, by simp [hn], .inr (.inr ⟨hfd, ?_⟩)⟩⟩
    push Not at hd
    obtain ⟨j, hj, hjd⟩ := hd
    have hw := watching_of_not_done hb hl ⟨j, hj, by simpa using hjd⟩
    exact hw

/-- Before the announcement every run is one whose announcements are harmless. -/
theorem within_of_unseen {s : State} (h : machine.Reachable s) :
    s.conn.peerClosed = false → machine.Within AnnouncesHarmlessly s := by
  induction h with
  | init hi => exact fun _ => .init hi
  | @step s s' a hr _ hs ih =>
    intro hpc
    have hback : s.conn.peerClosed = false ∧ (s.loop = .sawEof → a ≠ .loop) := by
      obtain (⟨hl, -, rfl⟩ | ⟨hl, chunk, rfl⟩ | ⟨hl, rfl⟩ | ⟨hl, rfl⟩) | ⟨ha, hs⟩ |
        ⟨hne, i, p, c', q, late, hi, hj, rfl⟩ := step_cases hs
      · exact ⟨hpc, by simp [hl]⟩
      · exact ⟨hpc, by simp [hl]⟩
      · exact ⟨hpc, by simp [hl]⟩
      · exact ⟨hpc, by simp [hl]⟩
      · obtain ⟨hl, rfl⟩ | ⟨hl, rfl⟩ | ⟨p, m, r, hl, -, rfl⟩ | ⟨p, hl, -, rfl⟩ | ⟨p, m, hl, rfl⟩ |
          ⟨p, m, hl, rfl⟩ | ⟨f, hl, rfl⟩ := loopStep_cases hs <;> simp_all
      · exact ⟨hj.preserves.1.symm.trans hpc, fun _ => hne⟩
    exact .step (ih hback.1) (fun hl ha => absurd ha (hback.2 hl)) hs

theorem peerClosed_step {s s' : State} {a : Act} (h : s.conn.peerClosed = true)
    (hs : machine.step s a = some s') : s'.conn.peerClosed = true := by
  obtain (⟨hl, -, rfl⟩ | ⟨hl, chunk, rfl⟩ | ⟨hl, rfl⟩ | ⟨hl, rfl⟩) | ⟨ha, hs⟩ |
    ⟨hne, i, p, c', q, late, hi, hj, rfl⟩ := step_cases hs
  · exact h
  · exact h
  · exact h
  · exact h
  · obtain ⟨hl, rfl⟩ | ⟨hl, rfl⟩ | ⟨p, m, r, hl, -, rfl⟩ | ⟨p, hl, -, rfl⟩ | ⟨p, m, hl, rfl⟩ |
      ⟨p, m, hl, rfl⟩ | ⟨f, hl, rfl⟩ := loopStep_cases hs <;> simp [h]
  · exact hj.preserves.1.trans h

/-- A run that announces the end, or is about to, and does so harmlessly. -/
structure Ending (s : State) : Prop where
  calm : Calm s
  harmless : s.loop = .sawEof → Harmless s
  ending : s.loop = .sawEof ∨ s.conn.peerClosed = true

theorem Ending.step {s s' : State} {a : Act} (h : Ending s) (hs : machine.step s a = some s') :
    Ending s' := by
  have hcalm := h.calm.step (fun hl _ => h.harmless hl) hs
  rcases h.ending with hl | hpc
  · obtain (⟨hl', -, rfl⟩ | ⟨hl', chunk, rfl⟩ | ⟨hl', rfl⟩ | ⟨hl', rfl⟩) | ⟨ha, hs⟩ |
      ⟨hne, i, p, c', q, late, hi, hj, rfl⟩ := step_cases hs
    · simp [hl] at hl'
    · simp [hl] at hl'
    · simp [hl] at hl'
    · simp [hl] at hl'
    · have hs' : s' = { s with conn := { s.conn with peerClosed := true }, loop := .deregister } := by
        simpa [loopStep, hl] using hs.symm
      subst hs'
      exact ⟨hcalm, nofun, .inr rfl⟩
    · refine ⟨hcalm, fun _ => ?_, .inl hl⟩
      rcases h.harmless hl with hn | ⟨m, r, -, -, hd⟩
      · exact .inl (by rw [← hn, ← hj.preserves.2.1])
      · have := hd p (List.mem_of_getElem? hi)
        rw [hj.not_done] at this
        cases this
  · have hpc' := peerClosed_step hpc hs
    refine ⟨hcalm, fun hl => ?_, .inr hpc'⟩
    have := hcalm.receiving (by simp [hl, LoopPc.receiving])
    simp [hpc'] at this

/-- **When every response is handed to `send()` before the close**: in the runs whose
announcements are harmless; and a reachable state that is about to announce the end is the start
of safe runs only if and only if it is harmless. -/
theorem responses_kept_iff {s : State} (h : machine.Reachable s) :
    (machine.Within AnnouncesHarmlessly s → Safe s) ∧
    (s.loop = .sawEof →
      ((∀ as s', machine.exec s as = some s' → Safe s') ↔ Harmless s)) := by
  refine ⟨fun hw => (calm_of_within hw).safe, fun hl => ⟨fun hsafe => ?_, fun hh => ?_⟩⟩
  · by_contra hn
    obtain ⟨as, s', he, hd⟩ := exists_doomed (books_of_reachable h) hl hn
    obtain ⟨bs, s'', he', hns⟩ := hd.exists_not_safe
    exact hns (hsafe _ _ (Machine.exec_append_some he he'))
  · intro as s' he
    have hpc := (books_of_reachable h).receiving (by simp [hl, LoopPc.receiving])
    have hend : Ending s := ⟨calm_of_within (within_of_unseen h hpc), fun _ => hh, .inl hl⟩
    exact (Machine.exec_invariant (fun _ _ _ h hs => Ending.step h hs) hend he).calm.safe

/-- One order and a disconnect: nothing can be lost. -/
theorem responses_kept_oneOrder :
    ∃ s, machine.exec ⟨.fresh, true, .wait, [], false⟩
        [.readable, .recv (.data (buildMessage (txt "35=D"))), .recv .eof] = some s ∧
      ∀ as s', machine.exec s as = some s' → Safe s' := by
  obtain ⟨s, hs, hl, hh⟩ : ∃ s, machine.exec ⟨.fresh, true, .wait, [], false⟩
      [.readable, .recv (.data (buildMessage (txt "35=D"))), .recv .eof] = some s ∧
      s.loop = .sawEof ∧ Harmless s :=
    ⟨_, rfl, rfl, .inr ⟨buildMessage (txt "35=D"), [], by decide +kernel, by decide +kernel,
      by simp⟩⟩
  exact ⟨s, hs, ((responses_kept_iff (.of_exec rfl hs)).2 hl).mpr hh⟩

/-! ### Two orders and a disconnect -/

/-- A client that sends two messages at once and closes its side. -/
def twoOrders : Bytes :=
  buildMessage (txt "35=D") ++ buildMessage (txt "35=D")

/-- The first job runs to its decrement before the event loop has dispatched the second message,
sees the peer closed and no job pending, and closes; the second job finds `alive` false. -/
def overtaken : List Act :=
  [.readable, .recv (.data twoOrders), .recv .eof, .loop, .loop, .loop, .loop, .loop,
    .start 0 [79], .job 0 none, .job 0 none, .job 0 (some 1), .job 0 none, .job 0 none,
    .job 0 none, .job 0 none, .job 0 none, .job 0 none, .job 0 none,
    .loop, .loop, .loop, .start 1 [79], .job 1 none, .job 1 none]

theorem twoOrders_not_safe : ¬ ∀ s, machine.Reachable s → Safe s := by
  intro hsafe
  obtain ⟨s, hs, hl⟩ : ∃ s, machine.exec ⟨.fresh, true, .wait, [], false⟩ overtaken = some s ∧
      s.jobs.any JobPc.lost = true := by
    have h : ((machine.exec ⟨.fresh, true, .wait, [], false⟩ overtaken).map
        fun s => s.jobs.any JobPc.lost) = some true := by decide +kernel
    obtain ⟨s, hs, hl⟩ := Option.map_eq_some_iff.mp h
    exact ⟨s, hs, hl⟩
  obtain ⟨j, hj, hjl⟩ := List.any_eq_true.mp hl
  have := (hsafe s (Machine.Reachable.of_exec rfl hs)).kept j hj
  simp [hjl] at this

end OrderRisk.Server
