import OrderRisk.Server.Finalize

/-!
# Who closes the fd

Facts about one connection that the descriptors of all connections rest on: one thread at most is
on its way to `close(fd)` (`Attended.once`), and once the end is announced somebody still has a
`tryFinalize` to make until the fd is taken (`Attended.watched`).  `Undisturbed` is the invariant of
the runs in which no job is left when the end is announced: the fd is not closed while
`connections_` maps it to the connection.
-/

namespace OrderRisk.Server

open OrderRisk.Lib OrderRisk.Fix

/-- The event loop's CAS on `fdClosed` has succeeded. -/
def LoopPc.clearing : LoopPc → Bool
  | .finalize .clearAlive => true
  | .finalize .closeFd => true
  | _ => false

/-- In `handleReadable`, not past the deregistration. -/
def LoopPc.entered : LoopPc → Bool
  | .wait => false
  | .deregister => true
  | p => !p.ending

structure Attended (s : State) : Prop where
  entered : s.loop.entered = true → s.routed = true
  once : (s.jobs.countP JobPc.clearing : ℤ) + (if s.loop.clearing then 1 else 0) +
    (if s.conn.closed then 1 else 0) = if s.conn.fdClosed then 1 else 0
  watched : s.conn.peerClosed = true →
    s.conn.fdClosed = true ∨ s.loop.ending = true ∨ ∃ j ∈ s.jobs, j.isDone = false

theorem Attended.init {s : State} (h : machine.init s) : Attended s := by
  obtain rfl : s = _ := h
  exact ⟨nofun, rfl, nofun⟩

theorem exists_not_done_of_pending {s : State} (hb : Books s) (hl : s.loop.counted = false)
    (h : s.conn.pendingJobs ≠ 0) : ∃ j ∈ s.jobs, j.pending = true := by
  have hp := hb.pending
  rw [hl] at hp
  simp only [Bool.false_eq_true, if_false, add_zero] at hp
  exact List.countP_pos_iff.mp (by omega)

theorem Attended.loopStep {s s' : State} (h : Attended s) (hb : Books s)
    (hs : loopStep s = some s') : Attended s' := by
  obtain ⟨he, ho, hw⟩ := h
  obtain ⟨hl, rfl⟩ | ⟨hl, rfl⟩ | ⟨p, m, r, hl, -, rfl⟩ | ⟨p, hl, -, rfl⟩ | ⟨p, m, hl, rfl⟩ |
    ⟨p, m, hl, rfl⟩ | ⟨f, hl, rfl⟩ := loopStep_cases hs <;>
    simp only [hl, LoopPc.entered, LoopPc.clearing, LoopPc.ending] at he ho hw
  · exact ⟨fun _ => he rfl, ho, fun _ => .inr (.inl rfl)⟩
  · exact ⟨(absurd · Bool.false_ne_true), ho, fun _ => .inr (.inl rfl)⟩
  · exact ⟨he, ho, hw⟩
  · cases p with
    | false => exact ⟨(absurd · Bool.false_ne_true), ho, hw⟩
    | true => exact ⟨(absurd · Bool.false_ne_true), ho, fun _ => .inr (.inl rfl)⟩
  · exact ⟨he, ho, hw⟩
  · refine ⟨he, ?_, fun hp => ?_⟩
    · simpa [LoopPc.clearing, JobPc.clearing] using ho
    · exact .inr (.inr ⟨.queued m, by simp, rfl⟩)
  · have hpc := hb.peerClosed_of_ending (by rw [hl]; rfl)
    obtain ⟨rfl, hp, he'⟩ | ⟨rfl, hp, he'⟩ | ⟨rfl, hp, he'⟩ | ⟨rfl, hp, he'⟩ | ⟨rfl, hp, he'⟩ |
      ⟨rfl, hp, he'⟩ | ⟨rfl, he'⟩ | ⟨rfl, he'⟩ := finStep_cases s.conn f <;>
      simp only [he', Option.elim_none, Option.elim_some]
    · rw [hpc] at hp
      cases hp
    · exact ⟨(absurd · Bool.false_ne_true), ho, fun _ => .inr (.inl rfl)⟩
    · -- a pending job will look again
      refine ⟨(absurd · Bool.false_ne_true), ho, fun _ => .inr (.inr ?_)⟩
      obtain ⟨j, hj, hjp⟩ := exists_not_done_of_pending hb (by rw [hl]; rfl) hp
      exact ⟨j, hj, by cases j <;> first | rfl | cases hjp⟩
    · exact ⟨(absurd · Bool.false_ne_true), ho, fun _ => .inr (.inl rfl)⟩
    · exact ⟨(absurd · Bool.false_ne_true), ho, fun _ => .inl hp⟩
    · refine ⟨(absurd · Bool.false_ne_true), ?_, fun _ => .inl rfl⟩
      simp only [hp, Bool.false_eq_true, if_false] at ho
      simp only [LoopPc.clearing, if_true]
      omega
    · exact ⟨(absurd · Bool.false_ne_true), ho, fun _ => .inr (.inl rfl)⟩
    · refine ⟨(absurd · Bool.false_ne_true), ?_, fun _ => ?_⟩
      · simp only [if_true] at ho
        have h0 : (0 : ℤ) ≤ s.jobs.countP JobPc.clearing := Int.natCast_nonneg _
        simp only [LoopPc.clearing, Bool.false_eq_true, if_false, if_true]
        split_ifs at ho ⊢ <;> omega
      · -- the thread had taken the fd
        refine .inl ?_
        by_contra hfd
        simp only [if_true, Bool.not_eq_true] at ho hfd
        simp only [hfd, Bool.false_eq_true, if_false] at ho
        have h0 : (0 : ℤ) ≤ s.jobs.countP JobPc.clearing := Int.natCast_nonneg _
        split_ifs at ho <;> omega

theorem Attended.once_set {s : State} {i : ℕ} {p q : JobPc} (h : Attended s) (hi : s.jobs[i]? = some p)
    (hc : q.clearing = p.clearing) :
    ((s.jobs.set i q).countP JobPc.clearing : ℤ) + (if s.loop.clearing then 1 else 0) +
      (if s.conn.closed then 1 else 0) = if s.conn.fdClosed then 1 else 0 := by
  rw [countP_set_add _ hi, hc, sub_add_cancel]
  exact h.once

theorem Attended.goesOn {s : State} {i : ℕ} {p q : JobPc} {c' : Connection} {late : Bool}
    (h : Attended s) (hi : s.jobs[i]? = some p) (hc : q.clearing = p.clearing)
    (hd : q.isDone = false) (hfd : c'.fdClosed = s.conn.fdClosed)
    (hcl : c'.closed = s.conn.closed) :
    Attended { s with conn := c', jobs := s.jobs.set i q, late } := by
  refine ⟨h.entered, ?_, fun _ => .inr (.inr ⟨q, mem_set_self hi, hd⟩)⟩
  dsimp only
  rw [hfd, hcl]
  exact h.once_set hi hc

theorem Attended.jobMove {s : State} {i : ℕ} {p q : JobPc} {c' : Connection} {late : Bool}
    (h : Attended s) (hb : Books s) (hi : s.jobs[i]? = some p) (hj : JobMove s.conn p c' q late) :
    Attended { s with conn := c', jobs := s.jobs.set i q, late := s.late || late } := by
  have ho := h.once
  cases hj with
  | respond w hpp hqp =>
    have hpc : p.clearing = false := by cases p <;> first | rfl | cases hpp
    have hqc : q.clearing = false := by cases q <;> first | rfl | cases hqp
    have hqd : q.isDone = false := by cases q <;> first | rfl | cases hqp
    exact h.goesOn hi (hqc.trans hpc.symm) hqd rfl rfl
  | decrement handed => exact h.goesOn hi rfl rfl rfl rfl
  | finalize handed f =>
    obtain ⟨rfl, hp, he'⟩ | ⟨rfl, hp, he'⟩ | ⟨rfl, hp, he'⟩ | ⟨rfl, hp, he'⟩ | ⟨rfl, hp, he'⟩ |
      ⟨rfl, hp, he'⟩ | ⟨rfl, he'⟩ | ⟨rfl, he'⟩ := finStep_cases s.conn f <;>
      simp only [he', Option.elim_none, Option.elim_some]
    · refine ⟨h.entered, h.once_set hi rfl, fun hpc => ?_⟩
      rw [hp] at hpc
      cases hpc
    · exact h.goesOn hi rfl rfl rfl rfl
    · refine ⟨h.entered, h.once_set hi rfl, fun _ => ?_⟩
      cases hc : s.loop.counted with
      | true =>
        -- the message about to be submitted will be a job
        have hpc : s.loop.ending = true := by
          have hr := hb.receiving
          cases hl : s.loop with
          | submit p m =>
            cases p with
            | true => rfl
            | false =>
              have := hr (by rw [hl]; rfl)
              simp_all
          | _ => simp [hl, LoopPc.counted] at hc
        exact .inr (.inl hpc)
      | false =>
        obtain ⟨j, hj, hjp⟩ := exists_not_done_of_pending hb hc hp
        obtain ⟨j', hj', hjp'⟩ := exists_mem_set (P := fun j => j.pending = true)
          (q := .done handed) ⟨j, hj, hjp⟩ hi (by simp [JobPc.pending])
        exact .inr (.inr ⟨j', hj', by cases j' <;> first | rfl | cases hjp'⟩)
    · exact h.goesOn hi rfl rfl rfl rfl
    · exact ⟨h.entered, h.once_set hi rfl, fun _ => .inl hp⟩
    · refine ⟨h.entered, ?_, fun _ => .inl rfl⟩
      simp only [hp, Bool.false_eq_true, if_false] at ho
      simp only [countP_set_add _ hi, JobPc.clearing, Bool.false_eq_true, if_false, if_true]
      omega
    · exact h.goesOn hi rfl rfl rfl rfl
    · have hpos : 0 < s.jobs.countP JobPc.clearing :=
        List.countP_pos_iff.mpr ⟨_, List.mem_of_getElem? hi, rfl⟩
      have hl : (0 : ℤ) ≤ if s.loop.clearing then 1 else 0 := by split <;> omega
      refine ⟨h.entered, ?_, fun _ => .inl ?_⟩
      · simp only [countP_set_add _ hi, JobPc.clearing, Bool.false_eq_true, if_false, if_true]
        split_ifs at ho ⊢ <;> omega
      · by_contra hfd
        simp only [Bool.not_eq_true] at hfd
        simp only [hfd, Bool.false_eq_true, if_false] at ho
        split_ifs at ho <;> omega

theorem Attended.goto {s : State} {l : LoopPc} (h : Attended s) (hr : s.routed = true)
    (hc : l.clearing = s.loop.clearing) (he : l.ending = s.loop.ending) :
    Attended { s with loop := l } := by
  refine ⟨fun _ => hr, ?_, ?_⟩
  · dsimp only
    rw [hc]
    exact h.once
  · dsimp only
    rw [he]
    exact h.watched

theorem Attended.step {s s' : State} {a : Act} (h : Attended s) (hb : Books s)
    (hs : machine.step s a = some s') : Attended s' := by
  obtain (⟨hl, hr, rfl⟩ | ⟨hl, chunk, rfl⟩ | ⟨hl, rfl⟩ | ⟨hl, rfl⟩) | ⟨-, hs⟩ |
    ⟨-, i, p, c', q, late, hi, hj, rfl⟩ := step_cases hs
  · exact h.goto hr (by rw [hl]; rfl) (by rw [hl]; rfl)
  · exact ⟨h.entered, h.once, h.watched⟩
  · exact h.goto (h.entered (by rw [hl]; rfl)) (by rw [hl]; rfl) (by rw [hl]; rfl)
  · exact h.goto (h.entered (by rw [hl]; rfl)) (by rw [hl]; rfl) (by rw [hl]; rfl)
  · exact h.loopStep hb hs
  · exact h.jobMove hb hi hj

theorem attended_of_reachable {s : State} (h : machine.Reachable s) : Attended s := by
  have hboth : Books s ∧ Attended s :=
    h.invariant (P := fun s => Books s ∧ Attended s) (fun _ hi => ⟨.init hi, .init hi⟩)
      fun _ _ _ hi _ hs => ⟨hi.1.step hs, hi.2.step hi.1 hs⟩
  exact hboth.2

/-- **Nobody is left to close it and it is not closed: this does not happen.** -/
theorem closed_of_finished {s : State} (h : machine.Reachable s) (hp : s.conn.peerClosed = true)
    (hl : s.loop = .wait) (hd : ∀ j ∈ s.jobs, j.isDone = true) : s.conn.closed = true := by
  obtain ⟨-, ho, hw⟩ := attended_of_reachable h
  have hfd : s.conn.fdClosed = true := by
    rcases hw hp with hfd | he | ⟨j, hj, hjd⟩
    · exact hfd
    · rw [hl] at he
      cases he
    · rw [hd j hj] at hjd
      cases hjd
  have hc : s.jobs.countP JobPc.clearing = 0 := by
    rw [List.countP_eq_zero]
    intro j hj
    have := hd j hj
    cases j with
    | done handed => simp [JobPc.clearing]
    | _ => cases this
  rw [hl, hfd, hc] at ho
  by_contra hcl
  simp [LoopPc.clearing, hcl] at ho

theorem open_of_clearing {s : State} (h : Attended s)
    (hc : s.loop.clearing = true ∨ ∃ j ∈ s.jobs, j.clearing = true) : s.conn.closed = false := by
  have ho := h.once
  by_contra hcl
  rw [Bool.not_eq_false] at hcl
  rw [hcl] at ho
  rcases hc with hc | ⟨j, hj, hjc⟩
  · rw [hc] at ho
    simp only [if_true] at ho
    split_ifs at ho <;> omega
  · have hpos : 0 < s.jobs.countP JobPc.clearing := List.countP_pos_iff.mpr ⟨j, hj, hjc⟩
    simp only [if_true] at ho
    split_ifs at ho <;> omega

/-! ### Runs in which no job is left at the announcement -/

/-- As long as `connections_` maps the fd to the connection it is open, and in front of the
deregistration there is no job that could close it. -/
structure Undisturbed (s : State) : Prop where
  open_ : s.routed = true → s.conn.closed = false
  idle : s.loop = .deregister → ∀ j ∈ s.jobs, j.isDone = true

theorem Undisturbed.of_unseen {s : State} (hb : Books s) (hp : s.conn.peerClosed = false) :
    Undisturbed s where
  open_ _ := (hb.unseen hp).2.2.2.1
  idle hl := by
    have := hb.peerClosed_of_ending (by rw [hl]; rfl)
    rw [hp] at this
    cases this

theorem Undisturbed.step {s s' : State} {a : Act} (h : Undisturbed s) (hb : Books s)
    (hc : s.loop = .sawEof → a = .loop → ∀ j ∈ s.jobs, j.isDone = true)
    (hs : machine.step s a = some s') : Undisturbed s' := by
  have hb' := hb.step hs
  cases hpc : s'.conn.peerClosed with
  | false => exact .of_unseen hb' hpc
  | true =>
    obtain (⟨hl, hr, rfl⟩ | ⟨hl, chunk, rfl⟩ | ⟨hl, rfl⟩ | ⟨hl, rfl⟩) | ⟨ha, hs⟩ |
      ⟨-, i, p, c', q, late, hi, hj, rfl⟩ := step_cases hs
    · exact ⟨h.open_, nofun⟩
    · exact ⟨h.open_, fun hl' => h.idle hl'⟩
    · exact ⟨h.open_, nofun⟩
    · exact ⟨h.open_, nofun⟩
    · obtain ⟨hl, rfl⟩ | ⟨hl, rfl⟩ | ⟨p, m, r, hl, -, rfl⟩ | ⟨p, hl, -, rfl⟩ | ⟨p, m, hl, rfl⟩ |
        ⟨p, m, hl, rfl⟩ | ⟨f, hl, rfl⟩ := loopStep_cases hs
      · exact ⟨h.open_, fun _ => hc hl ha⟩
      · exact ⟨nofun, nofun⟩
      · exact ⟨h.open_, nofun⟩
      · exact ⟨h.open_, by split <;> exact nofun⟩
      · exact ⟨h.open_, nofun⟩
      · exact ⟨h.open_, nofun⟩
      · refine ⟨fun hr => ?_, fun hl' => ?_⟩
        · -- `tryFinalize` comes after the deregistration
          have hne : s.loop ≠ .deregister := by
            rw [hl]
            exact nofun
          have h1 := hb.routed hr hne
          have h2 := hb.peerClosed_of_ending (by rw [hl]; rfl)
          rw [h1] at h2
          cases h2
        · cases hf : (finStep s.conn f).2 <;> simp [hf] at hl'
    · refine ⟨fun hr => ?_, fun hl => ?_⟩
      · by_cases hl : s.loop = .deregister
        · have := h.idle hl p (List.mem_of_getElem? hi)
          rw [hj.not_done] at this
          cases this
        · have := hb'.routed hr hl
          rw [hpc] at this
          cases this
      · have := h.idle hl p (List.mem_of_getElem? hi)
        rw [hj.not_done] at this
        cases this

theorem announced_of_idle {s s' : State} {a : Act} (hl : s.loop = .sawEof)
    (hd : ∀ j ∈ s.jobs, j.isDone = true) (hs : machine.step s a = some s') :
    s'.conn.peerClosed = true := by
  obtain (⟨hl', -, rfl⟩ | ⟨hl', chunk, rfl⟩ | ⟨hl', rfl⟩ | ⟨hl', rfl⟩) | ⟨-, hs⟩ |
    ⟨-, i, p, c', q, late, hi, hj, rfl⟩ := step_cases hs
  · simp [hl] at hl'
  · simp [hl] at hl'
  · simp [hl] at hl'
  · simp [hl] at hl'
  · have hs' : s' = { s with conn := { s.conn with peerClosed := true }, loop := .deregister } := by
      simpa [loopStep, hl] using hs.symm
    rw [hs']
  · have := hd p (List.mem_of_getElem? hi)
    rw [hj.not_done] at this
    cases this

/-- **The overtaken deregistration.**  A job that has not returned when the end is announced can
close the fd before the event loop deregisters it. -/
theorem exists_closed_routed {s : State} (hb : Books s) (hl : s.loop = .sawEof)
    (hd : ∃ j ∈ s.jobs, j.isDone = false) : ∃ s₁ as s', machine.step s .loop = some s₁ ∧
      (∀ a ∈ as, a.byJob = true) ∧ machine.exec s₁ as = some s' ∧ s'.conn.closed = true := by
  have hpc := hb.receiving (by simp [hl, LoopPc.receiving])
  have hfd := (hb.unseen hpc).2.1
  have h1 : machine.step s .loop = some { s with
      conn := { s.conn with peerClosed := true }, loop := .deregister } := by
    simp [machine, step, loopStep, hl]
  have hw := watching_of_not_done hb hl hd
  have hleft : Left .deregister { s with
      conn := { s.conn with peerClosed := true }, loop := .deregister } :=
    ⟨hb.step h1, rfl, rfl, rfl, .inr (.inr ⟨hfd, hw⟩)⟩
  obtain ⟨as, s', has, he, hs', -, hdone⟩ := hleft.drive _ le_rfl
  exact ⟨_, as, s', h1, has, he, hs'.closed_of_done hdone⟩

end OrderRisk.Server
