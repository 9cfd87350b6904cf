import OrderRisk.Server.EventLoop

/-!
# The descriptors of all connections

Each connection's `view` is a reachable state of the machine of one connection (`Inv.view`), so what
holds of one connection by itself holds here.  What the connections share is `connections_`: an entry
belongs to a connection with that number, and the event loop has the entry of the connection it
handles up to the deregistration.

`close(fd)` is executed at most once for each connection, a connection that is finished is closed,
and an accepted number never has an entry.  `connections_` maps no number to a closed connection
either, in the runs that announce the end of a connection when all its jobs have returned; a job
that has not returned can close the fd between the announcement and the deregistration.
-/

namespace OrderRisk.Server.EventLoop

open OrderRisk.Lib OrderRisk.Fix

/-! ### What a step can do -/

theorem onClient_cases {s s' : State} {k : ℕ} {a : Server.Act} (h : s.onClient k a = some s') :
    ∃ c v, s.clients[k]? = some c ∧ Server.machine.step (s.view k c) a = some v ∧
      s' = s.after k c a v := by
  obtain ⟨c, hc, h⟩ := Option.bind_eq_some_iff.mp h
  obtain ⟨v, hv, h⟩ := Option.map_eq_some_iff.mp h
  exact ⟨c, v, hc, hv, h.symm⟩

/-- **What a step of the server can be**: a number accepted, a connection entered, or a step on one
connection, which is the event loop's only if it is waiting or handles that connection. -/
theorem step_cases {s s' : State} {a : Act} (h : machine.step s a = some s') :
    (∃ fd, s.loop = .epollWait ∧ (∀ c ∈ s.clients, c.fd = fd → c.conn.closed = true) ∧
      s' = { s with loop := .insert fd }) ∨
    (∃ fd, s.loop = .insert fd ∧ s' =
      { clients := s.clients ++ [⟨fd, .fresh, [], false, 0⟩]
        connections := Function.update s.connections fd (some s.clients.length)
        loop := .epollWait }) ∨
    (∃ k b, s.onClient k b = some s' ∧ (b = .loop → a = .loop) ∧
      (b.byJob = false → s.loop = .epollWait ∨ ∃ p, s.loop = .handling k p)) := by
  cases a with
  | accept fd =>
    simp only [machine, step] at h
    split at h
    · next hc => exact .inl ⟨fd, hc.1, hc.2, (Option.some.inj h).symm⟩
    · cases h
  | readable fd =>
    simp only [machine, step] at h
    split at h
    · next hl =>
      obtain ⟨k, -, h⟩ := Option.bind_eq_some_iff.mp h
      exact .inr (.inr ⟨k, _, h, nofun, fun _ => .inl hl⟩)
    · cases h
  | recv r =>
    simp only [machine, step] at h
    split at h
    · next k p hl => exact .inr (.inr ⟨k, _, h, nofun, fun _ => .inr ⟨p, hl⟩⟩)
    · cases h
  | loop =>
    simp only [machine, step] at h
    split at h
    · cases h
    · next fd hl => exact .inr (.inl ⟨fd, hl, (Option.some.inj h).symm⟩)
    · next k p hl => exact .inr (.inr ⟨k, _, h, fun _ => rfl, fun _ => .inr ⟨p, hl⟩⟩)
  | start k i data => exact .inr (.inr ⟨k, _, h, nofun, nofun⟩)
  | job k i result => exact .inr (.inr ⟨k, _, h, nofun, nofun⟩)

/-- What a step on one connection leaves alone: a job's step the event loop and `connections_`, and
the event loop's step all but the deregistration. -/
theorem server_step_frame {v v' : Server.State} {a : Server.Act}
    (h : Server.machine.step v a = some v') :
    (a.byJob = true → v'.loop = v.loop ∧ v'.routed = v.routed) ∧
    (a.byJob = false → v'.routed = if v.loop = .deregister then false else v.routed) := by
  cases a with
  | start i data =>
    refine ⟨fun _ => ?_, (absurd · Bool.false_ne_true.symm)⟩
    simp only [Server.machine, Server.step] at h
    split at h
    · split at h <;> cases h
      exact ⟨rfl, rfl⟩
    · cases h
  | job i result =>
    refine ⟨fun _ => ?_, (absurd · Bool.false_ne_true.symm)⟩
    simp only [Server.machine, Server.step] at h
    obtain ⟨p, hp, h⟩ := Option.bind_eq_some_iff.mp h
    obtain ⟨r, hr, rfl⟩ := Option.map_eq_some_iff.mp h
    exact ⟨rfl, rfl⟩
  | readable =>
    refine ⟨(absurd · Bool.false_ne_true), fun _ => ?_⟩
    simp only [Server.machine, Server.step] at h
    split at h
    · next hc =>
      cases h
      simp [hc.1]
    · cases h
  | recv r =>
    refine ⟨(absurd · Bool.false_ne_true), fun _ => ?_⟩
    simp only [Server.machine, Server.step] at h
    split at h
    · next hl => cases r <;> cases h <;> simp [hl]
    · cases h
  | loop =>
    refine ⟨(absurd · Bool.false_ne_true), fun _ => ?_⟩
    obtain ⟨hl, rfl⟩ | ⟨hl, rfl⟩ | ⟨p, m, r, hl, -, rfl⟩ | ⟨p, hl, -, rfl⟩ | ⟨p, m, hl, rfl⟩ |
      ⟨p, m, hl, rfl⟩ | ⟨f, hl, rfl⟩ := Server.loopStep_cases h <;> simp [hl]

/-- `closed` says whether `close(fd)` has been executed. -/
theorem closed_step {v v' : Server.State} {a : Server.Act}
    (h : Server.machine.step v a = some v') :
    v'.conn.closed = (v.conn.closed || executesClose v a) := by
  have hfin : ∀ f, (finStep v.conn f).1.closed = (v.conn.closed || decide (f = .closeFd)) := by
    intro f
    cases f <;> simp [finStep, apply_ite]
  cases a with
  | start i data =>
    simp only [Server.machine, Server.step] at h
    split at h
    · split at h <;> cases h
      simp [executesClose]
    · cases h
  | job i result =>
    simp only [Server.machine, Server.step] at h
    obtain ⟨p, hp, h⟩ := Option.bind_eq_some_iff.mp h
    obtain ⟨⟨c', q, late⟩, hr, rfl⟩ := Option.map_eq_some_iff.mp h
    simp only [executesClose, hp, Option.any_some]
    cases p with
    | finalize handed f =>
      cases hr
      rw [hfin]
      cases f <;> rfl
    | queued m => cases hr
    | done handed => cases hr
    | lock data =>
      simp only [jobStep] at hr
      split at hr <;> cases hr
      simp
    | send data sent =>
      simp only [jobStep] at hr
      split at hr
      · cases hr
        simp
      · split at hr <;> cases hr
        simp
    | _ =>
      cases hr
      simp
  | readable =>
    simp only [Server.machine, Server.step] at h
    split at h <;> cases h
    simp [executesClose]
  | recv r =>
    simp only [Server.machine, Server.step] at h
    split at h
    · cases r <;> cases h <;> simp [executesClose]
    · cases h
  | loop =>
    obtain ⟨hl, rfl⟩ | ⟨hl, rfl⟩ | ⟨p, m, r, hl, -, rfl⟩ | ⟨p, hl, -, rfl⟩ | ⟨p, m, hl, rfl⟩ |
      ⟨p, m, hl, rfl⟩ | ⟨f, hl, rfl⟩ := Server.loopStep_cases h <;> simp [executesClose, hl]
    exact hfin f

theorem clearing_of_executesClose {v : Server.State} {a : Server.Act}
    (h : executesClose v a = true) :
    v.loop.clearing = true ∨ ∃ j ∈ v.jobs, j.clearing = true := by
  cases a with
  | loop =>
    have hl : v.loop = .finalize .closeFd := by simpa [executesClose] using h
    exact .inl (by rw [hl]; rfl)
  | job i result =>
    simp only [executesClose, Option.any_eq_true] at h
    obtain ⟨p, hp, h⟩ := h
    refine .inr ⟨p, List.mem_of_getElem? hp, ?_⟩
    split at h
    · rfl
    · cases h
  | _ => cases h

/-! ### The invariant -/

structure Inv (s : State) : Prop where
  view : ∀ k c, s.clients[k]? = some c → Server.machine.Reachable (s.view k c)
  entry : ∀ fd k, s.connections fd = some k → ∃ c, s.clients[k]? = some c ∧ c.fd = fd
  handling : ∀ k p, s.loop = .handling k p → p ≠ .wait
  insert : ∀ fd, s.loop = .insert fd → s.connections fd = none
  closes : ∀ c ∈ s.clients, c.closes = if c.conn.closed then 1 else 0

section

variable {s s' : State} {k : ℕ} {c : Client} {a : Server.Act} {v : Server.State}

theorem at_of_ne {l : Pc} {j : ℕ} (hl : l = .epollWait ∨ ∃ p, l = .handling k p) (hj : j ≠ k) :
    l.at j = .wait := by
  rcases hl with rfl | ⟨p, rfl⟩
  · rfl
  · exact if_neg hj.symm

theorem handling_of_at {l : Pc} {p : LoopPc} (hp : l.at k = p) (hne : p ≠ .wait) :
    l = .handling k p := by
  cases l with
  | epollWait => exact (hne hp.symm).elim
  | insert fd => exact (hne hp.symm).elim
  | handling k' p' =>
    simp only [Pc.at] at hp
    split at hp
    · next hk => rw [hk, hp]
    · exact (hne hp.symm).elim

/-- A step on one connection, as it looks from there .. -/
theorem view_self (hv : Server.machine.step (s.view k c) a = some v) (n : ℕ) :
    (s.after k c a v).view k ⟨c.fd, v.conn, v.jobs, v.late, n⟩ = v := by
  obtain ⟨hjob, hloop⟩ := server_step_frame hv
  unfold State.after
  cases ha : a.byJob with
  | true =>
    obtain ⟨h1, h2⟩ := hjob ha
    simp only [State.view, if_true, Bool.true_eq_false, and_false, if_false]
    exact congrArg₂ (fun r l => (⟨v.conn, r, l, v.jobs, v.late⟩ : Server.State)) h2.symm h1.symm
  | false =>
    have hr := hloop ha
    have hat : Pc.at k (if v.loop = .wait then .epollWait else .handling k v.loop) = v.loop := by
      split
      · next hw => rw [hw]; rfl
      · simp [Pc.at]
    have hrouted : decide ((if s.loop = .handling k .deregister then
        Function.update s.connections c.fd none else s.connections) c.fd = some k) = v.routed := by
      rw [hr]
      by_cases hd : s.loop = .handling k .deregister
      · have : (s.view k c).loop = .deregister := by simp [State.view, hd, Pc.at]
        simp [hd, this]
      · have : (s.view k c).loop ≠ .deregister := fun he => hd (handling_of_at he nofun)
        rw [if_neg hd, if_neg this]
        rfl
    simp only [State.view, Bool.false_eq_true, if_false, and_true]
    exact congrArg₂ (fun r l => (⟨v.conn, r, l, v.jobs, v.late⟩ : Server.State)) hrouted hat

/-- .. and from the others. -/
theorem view_other {j : ℕ} (hj : j ≠ k)
    (hl : a.byJob = false → s.loop = .epollWait ∨ ∃ p, s.loop = .handling k p)
    (hd : s.loop = .handling k .deregister → s.connections c.fd = some k) (d : Client) :
    (s.after k c a v).view j d = s.view j d := by
  have hat : (s.after k c a v).loop.at j = s.loop.at j := by
    unfold State.after
    cases ha : a.byJob with
    | true => rfl
    | false =>
      simp only [Bool.false_eq_true, if_false]
      rw [at_of_ne (hl ha) hj]
      split
      · rfl
      · exact if_neg hj.symm
  have hrouted : ((s.after k c a v).connections d.fd = some j) ↔ (s.connections d.fd = some j) := by
    unfold State.after
    simp only
    split
    · next hc =>
      by_cases hfd : d.fd = c.fd
      · rw [hfd, Function.update_self, hd hc.1]
        simp [hj.symm]
      · rw [Function.update_of_ne hfd]
    · rfl
  unfold State.view
  rw [hat]
  simp only [hrouted]

theorem Inv.routed_of_deregister (h : Inv s) (hc : s.clients[k]? = some c)
    (hl : s.loop = .handling k .deregister) : s.connections c.fd = some k := by
  have := (attended_of_reachable (h.view k c hc)).entered
    (by simp [State.view, hl, Pc.at, LoopPc.entered])
  exact of_decide_eq_true this

/-- **Each connection by itself**: a step accepts it, leaves it alone, or is one of its steps. -/
theorem Inv.view_step {a : Act} (h : Inv s) (hs : machine.step s a = some s')
    (hc : s'.clients[k]? = some c) :
    s.clients[k]? = none ∧ Server.machine.init (s'.view k c) ∨
      ∃ d, s.clients[k]? = some d ∧ (s'.view k c = s.view k d ∨
      ∃ b, Server.machine.step (s.view k d) b = some (s'.view k c) ∧ (b = .loop → a = .loop)) := by
  obtain ⟨fd, hl, -, rfl⟩ | ⟨fd, hl, rfl⟩ | ⟨j, b, hb, hba, hl⟩ := step_cases hs
  · refine .inr ⟨c, hc, .inl ?_⟩
    unfold State.view
    rw [hl]
    rfl
  · simp only at hc
    rcases lt_or_ge k s.clients.length with hk | hk
    · rw [List.getElem?_append_left hk] at hc
      refine .inr ⟨c, hc, .inl ?_⟩
      have hrouted : (Function.update s.connections fd (some s.clients.length) c.fd = some k) ↔
          (s.connections c.fd = some k) := by
        by_cases hfd : c.fd = fd
        · rw [hfd, Function.update_self, h.insert fd hl]
          simp only [Option.some.injEq, reduceCtorEq, iff_false]
          omega
        · rw [Function.update_of_ne hfd]
      unfold State.view
      simp only [hrouted, hl]
      rfl
    · rw [List.getElem?_append_right hk] at hc
      have hk' : k = s.clients.length := by
        have := (List.getElem?_eq_some_iff.mp hc).1
        simp only [List.length_singleton] at this
        omega
      subst hk'
      rw [Nat.sub_self] at hc
      cases hc
      refine .inl ⟨List.getElem?_eq_none le_rfl, ?_⟩
      simp [State.view, Server.machine, Pc.at]
  · obtain ⟨d, v, hd, hv, rfl⟩ := onClient_cases hb
    rcases eq_or_ne k j with rfl | hne
    · rw [State.after, List.getElem?_set_self (List.getElem?_eq_some_iff.mp hd).1] at hc
      cases hc
      refine .inr ⟨d, hd, .inr ⟨b, ?_, hba⟩⟩
      rw [view_self hv]
      exact hv
    · rw [State.after, List.getElem?_set_ne hne.symm] at hc
      exact .inr ⟨c, hc, .inl (view_other hne hl (h.routed_of_deregister hd) c)⟩

/-- The fields but the first, when connection `k` steps. -/
theorem Inv.onClient (h : Inv s) (hc : s.clients[k]? = some c)
    (hv : Server.machine.step (s.view k c) a = some v) :
    (∀ fd j, (s.after k c a v).connections fd = some j →
      ∃ d, (s.after k c a v).clients[j]? = some d ∧ d.fd = fd) ∧
    (∀ j p, (s.after k c a v).loop = .handling j p → p ≠ .wait) ∧
    (∀ fd, (s.after k c a v).loop = .insert fd → (s.after k c a v).connections fd = none) ∧
    ∀ d ∈ (s.after k c a v).clients, d.closes = if d.conn.closed then 1 else 0 := by
  have hlt := (List.getElem?_eq_some_iff.mp hc).1
  refine ⟨fun fd j hj => ?_, fun j p hp => ?_, fun fd hfd => ?_, fun d hd => ?_⟩
  · have hj' : s.connections fd = some j := by
      unfold State.after at hj
      simp only at hj
      split at hj
      · by_cases hfd : fd = c.fd
        · rw [hfd, Function.update_self] at hj
          cases hj
        · rwa [Function.update_of_ne hfd] at hj
      · exact hj
    obtain ⟨d, hd, hdfd⟩ := h.entry fd j hj'
    rcases eq_or_ne j k with rfl | hne
    · rw [hc] at hd
      cases hd
      exact ⟨_, List.getElem?_set_self hlt, hdfd⟩
    · exact ⟨d, (List.getElem?_set_ne hne.symm).trans hd, hdfd⟩
  · unfold State.after at hp
    simp only at hp
    split at hp
    · exact h.handling j p hp
    · split at hp
      · cases hp
      · next hne =>
        cases hp
        exact hne
  · unfold State.after at hfd ⊢
    simp only at hfd ⊢
    split at hfd
    · next ha =>
      rw [if_neg (by simp [ha])]
      exact h.insert fd hfd
    · split at hfd <;> cases hfd
  · rcases List.mem_or_eq_of_mem_set hd with hd | rfl
    · exact h.closes d hd
    · have hcl := h.closes c (List.mem_of_getElem? hc)
      have hstep : v.conn.closed = (c.conn.closed || executesClose (s.view k c) a) := closed_step hv
      simp only [hcl, hstep]
      cases he : executesClose (s.view k c) a with
      | false => simp
      | true =>
        have hopen : c.conn.closed = false :=
          open_of_clearing (attended_of_reachable (h.view k c hc)) (clearing_of_executesClose he)
        simp [hopen]

theorem Inv.open_of_entry (h : Inv s) (hc : s.clients[k]? = some c)
    (he : s.connections c.fd = some k) (hl : s.loop.at k = .wait) : c.conn.closed = false := by
  have hb := books_of_reachable (h.view k c hc)
  have hp : c.conn.peerClosed = false := hb.routed (decide_eq_true he) (by
    show s.loop.at k ≠ .deregister
    rw [hl]
    exact nofun)
  exact (hb.unseen hp).2.2.2.1

/-- **An accepted number has no entry**: the entry would be an open connection with the number. -/
theorem Inv.accept {fd : ℕ} (h : Inv s) (hl : s.loop = .epollWait)
    (hfd : ∀ c ∈ s.clients, c.fd = fd → c.conn.closed = true) : s.connections fd = none := by
  cases he : s.connections fd with
  | none => rfl
  | some k =>
    obtain ⟨c, hc, rfl⟩ := h.entry fd k he
    have hopen := h.open_of_entry hc he (by rw [hl]; rfl)
    rw [hfd c (List.mem_of_getElem? hc) rfl] at hopen
    cases hopen

theorem Inv.step {a : Act} (h : Inv s) (hs : machine.step s a = some s') : Inv s' := by
  have hview : ∀ k c, s'.clients[k]? = some c → Server.machine.Reachable (s'.view k c) := by
    intro k c hc
    rcases h.view_step hs hc with ⟨-, h0⟩ | ⟨d, hd, heq | ⟨b, hb, -⟩⟩
    · exact .init h0
    · rw [heq]
      exact h.view k d hd
    · exact (h.view k d hd).step trivial hb
  obtain ⟨fd, hl, hfd, rfl⟩ | ⟨fd, hl, rfl⟩ | ⟨k, b, hb, -, hl⟩ := step_cases hs
  · refine ⟨hview, h.entry, nofun, fun fd' hfd' => ?_, h.closes⟩
    cases hfd'
    exact h.accept hl hfd
  · refine ⟨hview, fun fd' k hk => ?_, nofun, nofun, fun c hc => ?_⟩
    · by_cases hfd : fd' = fd
      · subst hfd
        simp only [Function.update_self] at hk
        cases hk
        exact ⟨_, List.getElem?_concat_length, rfl⟩
      · simp only [Function.update_of_ne hfd] at hk
        obtain ⟨c, hc, hcfd⟩ := h.entry fd' k hk
        have hlt := (List.getElem?_eq_some_iff.mp hc).1
        exact ⟨c, (List.getElem?_append_left hlt).trans hc, hcfd⟩
    · rcases List.mem_append.mp hc with hc | hc
      · exact h.closes c hc
      · rw [List.mem_singleton.mp hc]
        rfl
  · obtain ⟨c, v, hc, hv, rfl⟩ := onClient_cases hb
    obtain ⟨h1, h2, h3, h4⟩ := h.onClient hc hv
    exact ⟨hview, h1, h2, h3, h4⟩

theorem inv_of_reachable (h : machine.Reachable s) : Inv s :=
  h.invariant (fun _ hi => by
    obtain rfl : _ = _ := hi
    exact ⟨nofun, nofun, nofun, fun _ _ => rfl, nofun⟩) fun _ _ _ hi _ hs => hi.step hs

/-! ### What holds of the descriptors -/

/-- `connections_` has entries for connection `k` only while its fd is open. -/
def State.RoutesTo (s : State) (k : ℕ) : Prop :=
  ∀ fd, s.connections fd = some k →
    ∃ c, s.clients[k]? = some c ∧ c.fd = fd ∧ c.conn.closed = false

/-- **Closed exactly once, and never routed after closing.** -/
structure State.Sound (s : State) : Prop where
  once : ∀ c ∈ s.clients, c.closes ≤ 1
  routes : ∀ k, s.RoutesTo k
  unused : ∀ fd, s.loop = .insert fd → s.connections fd = none
  finished : ∀ k c, s.clients[k]? = some c → c.conn.peerClosed = true → s.loop.at k = .wait →
    (∀ j ∈ c.jobs, j.isDone = true) → c.conn.closed = true

/-- The end of a connection is announced when all its jobs have returned. -/
def AnnouncesIdle (s : State) (a : Act) : Prop :=
  ∀ k c, s.loop = .handling k .sawEof → a = .loop → s.clients[k]? = some c →
    ∀ j ∈ c.jobs, j.isDone = true

theorem Inv.once (h : Inv s) : ∀ c ∈ s.clients, c.closes ≤ 1 := by
  intro c hc
  rw [h.closes c hc]
  split <;> omega

theorem Inv.finished (h : Inv s) (hc : s.clients[k]? = some c) (hp : c.conn.peerClosed = true)
    (hl : s.loop.at k = .wait) (hd : ∀ j ∈ c.jobs, j.isDone = true) : c.conn.closed = true :=
  closed_of_finished (h.view k c hc) hp hl hd

theorem Inv.routesTo (h : Inv s) (hu : ∀ c, s.clients[k]? = some c → Undisturbed (s.view k c)) :
    s.RoutesTo k := by
  intro fd he
  obtain ⟨c, hc, rfl⟩ := h.entry fd k he
  exact ⟨c, hc, rfl, (hu c hc).open_ (decide_eq_true he)⟩

theorem undisturbed_step {a : Act} (h : Inv s)
    (hu : ∀ c, s.clients[k]? = some c → Undisturbed (s.view k c))
    (ha : s.loop = .handling k .sawEof → a = .loop → ∀ c, s.clients[k]? = some c →
      ∀ j ∈ c.jobs, j.isDone = true)
    (hs : machine.step s a = some s') (c : Client) (hc : s'.clients[k]? = some c) :
    Undisturbed (s'.view k c) := by
  rcases h.view_step hs hc with ⟨-, h0⟩ | ⟨d, hd, heq | ⟨b, hb, hba⟩⟩
  · exact .of_unseen (.init h0) (by rw [h0]; rfl)
  · rw [heq]
    exact hu d hd
  · refine (hu d hd).step (books_of_reachable (h.view k d hd)) (fun hl hb' => ?_) hb
    exact ha (handling_of_at hl nofun) (hba hb') d hd

theorem routesTo_of_within (h : machine.Within AnnouncesIdle s) (k : ℕ) : s.RoutesTo k := by
  have hboth : Inv s ∧ ∀ k c, s.clients[k]? = some c → Undisturbed (s.view k c) := by
    refine h.invariant
      (P := fun s => Inv s ∧ ∀ k c, s.clients[k]? = some c → Undisturbed (s.view k c)) ?_ ?_
    · intro s hi
      refine ⟨inv_of_reachable (.init hi), ?_⟩
      obtain rfl : s = _ := hi
      exact nofun
    · intro s a s' hi ha hs
      refine ⟨hi.1.step hs, fun k => undisturbed_step hi.1 (hi.2 k) ?_ hs⟩
      exact fun hl hal c hc => ha k c hl hal hc
  exact hboth.1.routesTo (hboth.2 k)

/-- The end of connection `k` is announced, or is about to be without a job that has not returned. -/
structure Settled (s : State) (k : ℕ) : Prop where
  inv : Inv s
  undisturbed : ∀ c, s.clients[k]? = some c → Undisturbed (s.view k c)
  accepted : k < s.clients.length
  ended : ∀ c, s.clients[k]? = some c →
    c.conn.peerClosed = true ∨ s.loop.at k = .sawEof ∧ ∀ j ∈ c.jobs, j.isDone = true

theorem clients_length_le {a : Act} (hs : machine.step s a = some s') :
    s.clients.length ≤ s'.clients.length := by
  obtain ⟨fd, -, -, rfl⟩ | ⟨fd, -, rfl⟩ | ⟨k, b, hb, -⟩ := step_cases hs
  · exact le_rfl
  · simp
  · obtain ⟨c, v, -, -, rfl⟩ := onClient_cases hb
    simp [State.after]

theorem Settled.step {a : Act} (h : Settled s k) (hs : machine.step s a = some s') :
    Settled s' k := by
  obtain ⟨hi, hu, hk, he⟩ := h
  have hunseen : ∀ {c}, s.clients[k]? = some c → s.loop.at k = .sawEof → c.conn.peerClosed = false := by
    intro c hc hl
    refine (books_of_reachable (hi.view k c hc)).receiving ?_
    show (s.loop.at k).receiving = true
    rw [hl]
    rfl
  refine ⟨hi.step hs, undisturbed_step hi hu ?_ hs, hk.trans_le (clients_length_le hs), ?_⟩
  · intro hl _ c hc
    have hat : s.loop.at k = .sawEof := by rw [hl]; exact if_pos rfl
    rcases he c hc with hp | ⟨-, hd⟩
    · rw [hunseen hc hat] at hp
      cases hp
    · exact hd
  · intro c hc
    rcases hi.view_step hs hc with ⟨hnone, -⟩ | ⟨d, hd, heq | ⟨b, hb, -⟩⟩
    · have := List.getElem?_eq_none_iff.mp hnone
      omega
    · have hconn : c.conn = d.conn := congrArg Server.State.conn heq
      have hloop : s'.loop.at k = s.loop.at k := congrArg Server.State.loop heq
      have hjobs : c.jobs = d.jobs := congrArg Server.State.jobs heq
      rw [hconn, hloop, hjobs]
      exact he d hd
    · rcases he d hd with hp | ⟨hl, hdone⟩
      · have hp' : (s.view k d).conn.peerClosed = true := hp
        exact .inl (peerClosed_step hp' hb)
      · have hl' : (s.view k d).loop = .sawEof := hl
        exact .inl (announced_of_idle hl' hdone hb)

/-- The steps of the jobs of one connection are steps of the server that leave `connections_` and
the number alone. -/
theorem exec_jobs : ∀ {as : List Server.Act} {s : State} {c : Client}, s.clients[k]? = some c →
    (∀ a ∈ as, a.byJob = true) → Server.machine.exec (s.view k c) as = some v →
    ∃ bs s' c', machine.exec s bs = some s' ∧ s'.clients[k]? = some c' ∧ s'.view k c' = v ∧
      s'.connections = s.connections ∧ c'.fd = c.fd
  | [], s, c, hc, _, he => by
    cases he
    exact ⟨[], s, c, rfl, hc, rfl, rfl, rfl⟩
  | a :: as, s, c, hc, has, he => by
    obtain ⟨v₁, hv₁, he⟩ := Option.bind_eq_some_iff.mp he
    have ha := has a List.mem_cons_self
    have hact : ∃ b, machine.step s b = some (s.after k c a v₁) := by
      have hon : s.onClient k a = some (s.after k c a v₁) := by
        have hv : Server.step (s.view k c) a = some v₁ := hv₁
        rw [State.onClient, hc, Option.bind_some, hv, Option.map_some]
      cases a with
      | start i data => exact ⟨.start k i data, hon⟩
      | job i result => exact ⟨.job k i result, hon⟩
      | _ => cases ha
    obtain ⟨b, hb⟩ := hact
    have hc₁ : (s.after k c a v₁).clients[k]? = some ⟨c.fd, v₁.conn, v₁.jobs, v₁.late,
        c.closes + if executesClose (s.view k c) a then 1 else 0⟩ :=
      List.getElem?_set_self (List.getElem?_eq_some_iff.mp hc).1
    rw [← view_self hv₁ (c.closes + if executesClose (s.view k c) a then 1 else 0)] at he
    obtain ⟨bs, s', c', he', hc', hv', hconn, hfd⟩ :=
      exec_jobs hc₁ (fun a' ha' => has a' (List.mem_cons_of_mem _ ha')) he
    refine ⟨b :: bs, s', c', ?_, hc', hv', ?_, hfd⟩
    · rw [Machine.exec, hb]
      exact he'
    · rw [hconn, State.after, ha]
      simp

/-- **A job that has not returned when the end is announced** can close the fd while
`connections_` still has its entry. -/
theorem exists_not_routesTo (h : Inv s) (hl : s.loop = .handling k .sawEof)
    (hc : s.clients[k]? = some c) (hd : ∃ j ∈ c.jobs, j.isDone = false) :
    ∃ as s', machine.exec s as = some s' ∧ ¬ s'.RoutesTo k := by
  have hview := h.view k c hc
  have hat : (s.view k c).loop = .sawEof := by
    show s.loop.at k = .sawEof
    rw [hl]
    exact if_pos rfl
  have hrouted : s.connections c.fd = some k :=
    of_decide_eq_true ((attended_of_reachable hview).entered (by rw [hat]; rfl))
  obtain ⟨v₁, as, v', hv₁, has, he, hcl⟩ :=
    exists_closed_routed (books_of_reachable hview) hat hd
  have h1 : machine.step s .loop = some (s.after k c .loop v₁) := by
    have hv : Server.step (s.view k c) .loop = some v₁ := hv₁
    simp only [machine, step, hl, State.onClient, hc, Option.bind_some, hv, Option.map_some]
  have hc₁ : (s.after k c .loop v₁).clients[k]? = some ⟨c.fd, v₁.conn, v₁.jobs, v₁.late,
      c.closes + if executesClose (s.view k c) .loop then 1 else 0⟩ :=
    List.getElem?_set_self (List.getElem?_eq_some_iff.mp hc).1
  rw [← view_self hv₁ (c.closes + if executesClose (s.view k c) .loop then 1 else 0)] at he
  obtain ⟨bs, s', c', he', hc', hv', hconn, hfd⟩ := exec_jobs hc₁ has he
  refine ⟨.loop :: bs, s', by rw [Machine.exec, h1]; exact he', fun hr => ?_⟩
  have hsame : (s.after k c .loop v₁).connections = s.connections := if_neg (by rw [hl]; simp)
  have hentry : s'.connections c.fd = some k := by
    rw [hconn, hsame]
    exact hrouted
  obtain ⟨d, hd, -, hopen⟩ := hr c.fd hentry
  rw [hc'] at hd
  cases hd
  have hclosed : (s'.view k c').conn.closed = true := by rw [hv', hcl]
  rw [show c'.conn.closed = true from hclosed] at hopen
  cases hopen

/-- **The descriptors**, in every run: closed at most once, accepted numbers without an entry, no
finished connection left open.  `connections_` has no entry of a closed connection in the runs that
announce the end of a connection without jobs; and from a state that is about to announce it, there
will be none if and only if every job has returned. -/
theorem descriptors_iff (h : machine.Reachable s) :
    (∀ c ∈ s.clients, c.closes ≤ 1) ∧
    (∀ fd, s.loop = .insert fd → s.connections fd = none) ∧
    (∀ k c, s.clients[k]? = some c → c.conn.peerClosed = true → s.loop.at k = .wait →
      (∀ j ∈ c.jobs, j.isDone = true) → c.conn.closed = true) ∧
    (machine.Within AnnouncesIdle s → s.Sound) ∧
    ∀ k c, s.loop = .handling k .sawEof → s.clients[k]? = some c →
      ((∀ as s', machine.exec s as = some s' → s'.RoutesTo k) ↔
        ∀ j ∈ c.jobs, j.isDone = true) := by
  have hi := inv_of_reachable h
  have hfin := fun k c => hi.finished (k := k) (c := c)
  refine ⟨hi.once, hi.insert, hfin, fun hw => ?_, fun k c hl hc => ⟨fun hr => ?_, fun hd => ?_⟩⟩
  · exact ⟨hi.once, routesTo_of_within hw, hi.insert, hfin⟩
  · by_contra hn
    push Not at hn
    obtain ⟨j, hj, hjd⟩ := hn
    obtain ⟨as, s', he, hnr⟩ := exists_not_routesTo hi hl hc ⟨j, hj, by simpa using hjd⟩
    exact hnr (hr as s' he)
  · intro as s' he
    have hat : s.loop.at k = .sawEof := by rw [hl]; exact if_pos rfl
    have hset : Settled s k := by
      refine ⟨hi, fun d hd' => ?_, (List.getElem?_eq_some_iff.mp hc).1, fun d hd' => ?_⟩
      · have hb := books_of_reachable (hi.view k d hd')
        refine .of_unseen hb (hb.receiving ?_)
        show (s.loop.at k).receiving = true
        rw [hat]
        rfl
      · rw [hc] at hd'
        cases hd'
        exact .inr ⟨hat, hd⟩
    have hset' := Machine.exec_invariant (fun _ _ _ h hs => Settled.step h hs) hset he
    exact hset'.inv.routesTo hset'.undisturbed

end

/-! ### A client that sends nothing -/

def started : State := ⟨[], fun _ => none, .epollWait⟩

theorem descriptors_iff_silent :
    ∃ s, machine.exec started [.accept 5, .loop, .readable 5, .recv .eof] = some s ∧
      (∀ c ∈ s.clients, c.closes ≤ 1) ∧
      ∀ as s', machine.exec s as = some s' → s'.RoutesTo 0 := by
  obtain ⟨s, hs, hl, hc⟩ : ∃ s, machine.exec started
      [.accept 5, .loop, .readable 5, .recv .eof] = some s ∧ s.loop = .handling 0 .sawEof ∧
      ∃ c, s.clients[0]? = some c ∧ c.jobs = [] :=
    ⟨_, rfl, rfl, _, rfl, rfl⟩
  obtain ⟨c, hc, hjobs⟩ := hc
  obtain ⟨honce, -, -, -, hiff⟩ := descriptors_iff (Machine.Reachable.of_exec rfl hs)
  exact ⟨s, hs, honce, (hiff 0 c hl hc).mpr (by simp [hjobs])⟩

/-! ### A job that returns late -/

/-- Connection 5 sends a message; its job has sent the response when the client disconnects, and
makes its `tryFinalize` between the announcement and the deregistration. -/
def beforeEof : List Act :=
  [.accept 5, .loop, .readable 5, .recv (.data (buildMessage (txt "35=D"))), .recv .again,
    .loop, .loop, .loop, .loop, .start 0 0 [79], .job 0 0 none, .job 0 0 none,
    .job 0 0 (some 1), .job 0 0 none, .job 0 0 none, .readable 5, .recv .eof]

def lateJob : List Act :=
  beforeEof ++ [.loop, .job 0 0 none, .job 0 0 none, .job 0 0 none, .job 0 0 none, .job 0 0 none]

theorem lateJob_not_sound : ¬ ∀ s, machine.Reachable s → s.Sound := by
  intro hsound
  have h : ((machine.exec started lateJob).map
      fun s => (s.connections 5, s.clients[0]?.map fun c => c.conn.closed)) =
      some (some 0, some true) := by
    decide +kernel
  obtain ⟨s, hs, hv⟩ := Option.map_eq_some_iff.mp h
  simp only [Prod.mk.injEq] at hv
  obtain ⟨h5, h0⟩ := hv
  obtain ⟨c, hc, -, hopen⟩ := (hsound s (Machine.Reachable.of_exec rfl hs)).routes 0 5 h5
  rw [hc, Option.map_some, hopen] at h0
  cases h0

end OrderRisk.Server.EventLoop
