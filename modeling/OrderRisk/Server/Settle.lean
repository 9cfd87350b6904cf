import OrderRisk.Pool.Ending
import OrderRisk.Server.Onward

/-!
# The server can always answer what it has

From every reachable state of the server on its pool some schedule, in which nothing new comes in and
nothing goes wrong, takes the event loop back to `epoll_wait` and every dispatched job to its end
(`can_settle`); and a client on whose wire nothing has gone wrong then has a complete answer to each
complete message it has sent (`can_serve`).

The pool catches up as it does by itself (`Pool.leads_to_rest`); where it waits for a job, the job's
worker runs it to its end.  With the pool at rest the event loop makes its next step.  `recvBuffer` has
to be free of empty messages: with one at its front the extract loop does not end.
-/

namespace OrderRisk.Server.Deployed

open OrderRisk.Lib OrderRisk.Fix OrderRisk.Account OrderRisk.Risk

variable {ι : Type*} [DecidableEq ι] [Fintype ι] {erange : ℚ → Bool} {store : AccountStore Double}
  {main : ι} {workers : List ι} {capacity : ℕ} {maxSpinners : ℤ} {s s' : State ι} {a : Act ι}
  {k : ℕ} {j : ℕ × ℕ}

/-- A step of the pool's threads at which nothing goes wrong. -/
def Working (s : State ι) : Act ι → Prop
  | .pool b => Pool.Onward s.pool b
  | .work _ b => Engine.Onward s.engine b
  | _ => False

/-- A step at which nothing goes wrong, of the event loop's thread with nothing new coming in. -/
def Onward (s : State ι) : Act ι → Prop
  | .loop b => b = .loop ∨ b = .recv .again
  | .submit => True
  | .pool b => Pool.Onward s.pool b
  | .work _ b => Engine.Onward s.engine b

/-- The same, and the end of the stream is not announced on connection `k`. -/
def Quietly (k : ℕ) (s : State ι) (a : Act ι) : Prop :=
  Onward s a ∧ (a = .loop .loop ∨ a = .submit → s.engine.net.loop ≠ .handling k .sawEof)

omit [DecidableEq ι] [Fintype ι] in
theorem Working.quietly (h : Working s a) : Quietly k s a := by
  cases a with
  | pool b => exact ⟨h, by simp⟩
  | work t b => exact ⟨h, by simp⟩
  | _ => exact h.elim

/-! ### The pool without a `shutdown()` -/

/-- The event loop's thread is the pool's only client, and does not shut it down. -/
theorem driven (h2 : 2 ≤ capacity)
    (h : (deployed erange store main workers capacity maxSpinners).Reachable s)
    (hlen : s.jobs.length < 2 ^ 63) {n : ℕ} (hn : s.jobs.length ≤ n) :
    Pool.Driven main n s.pool := by
  induction h with
  | init hi => exact .init hi.2.1
  | @step s s' a hr _ hs ih =>
    have hle := jobs_length_le hs
    have hd := ih (hle.trans_lt hlen) (hle.trans hn)
    have hb := bound_of_reachable h2 hr (hle.trans_lt hlen)
    have hplaced := (Pool.placed_and_ledger h2 (pool_reachable hr)
      (claims_lt hr hb (hle.trans_lt hlen))).1
    cases move_of_step hs with
    | loop b e hb he => exact hd
    | work t b j e hj ht he => exact hd
    | pool b p hb hp =>
      refine hd.step hplaced ?_ hp
      cases b with
      | submit t job => cases hb
      | shutdown t => cases hb
      | finish t o => cases o <;> first | rfl | cases hb
      | _ => rfl
    | submit k c e p hk hc he hp =>
      refine hd.step hplaced ?_ hp
      have hlt : s.jobs.length < n := by simpa using hn
      simp [Pool.allowed, hb.submitted, hlt]

theorem unshut (h2 : 2 ≤ capacity) (hmain : main ∉ workers)
    (h : (deployed erange store main workers capacity maxSpinners).Reachable s)
    (hlen : s.jobs.length < 2 ^ 63) :
    s.pool.rejected = [] ∧ s.pool.joined = false ∧ (∀ t, (s.pool.pc t).nested = false) := by
  have hb := bound_of_reachable h2 h hlen
  have hd := driven h2 h hlen (Nat.le_succ _)
  have hopen : s.pool.shuttingDown = false := by
    by_contra hsd
    have := (hd.shut (by simpa using hsd)).1
    rw [hb.submitted, List.length_range] at this
    omega
  refine ⟨hd.rejected, ?_, fun t => ?_⟩
  · by_contra hj
    rw [(hd.joined (by simpa using hj)).1] at hopen
    cases hopen
  · exact hd.plain (Pool.placed_and_ledger h2 (pool_reachable h) (claims_lt h hb hlen)).1 hmain t

/-! ### A worker runs its job -/

theorem leads_of_job {t : ι} {e : Engine.State} (ht : s.inside t = some j)
    (h : (Engine.engine erange store).Leads (Engine.By j) s.engine e) :
    (deployed erange store main workers capacity maxSpinners).Leads Working s
      { s with engine := e } := by
  have hstep : ∀ (u : State ι) b e', u = { s with engine := u.engine } → Engine.By j u.engine b →
      (Engine.engine erange store).step u.engine b = some e' →
      ∃ u', (deployed erange store main workers capacity maxSpinners).Leads Working u u' ∧
        u' = { s with engine := u'.engine } ∧ u'.engine = e' := by
    intro u b e' hu hb he
    refine ⟨{ u with engine := e' }, .single (a := .work t b) hb.2 ?_, by rw [hu], rfl⟩
    have hin : u.inside t = some j := by
      rw [hu]
      exact ht
    simp [deployed, hb.1, hin, he]
  obtain ⟨s', hs', he, rfl⟩ := Machine.Leads.lift (f := State.engine) hstep rfl h
  rwa [he] at hs'

omit [DecidableEq ι] [Fintype ι] in
/-- A job that has begun and not returned is some worker's. -/
theorem Bound.worker (h : Bound s) {p : JobPc} (hp : s.engine.net.job j = some p)
    (hq : p.isQueued = false) (hd : p.isDone = false) : ∃ t, s.inside t = some j := by
  obtain ⟨n, hn⟩ := List.mem_iff_getElem?.mp ((h.mem j).mpr (by rw [hp]; rfl))
  by_contra hno
  push Not at hno
  by_cases hex : n ∈ s.pool.executed
  · have := h.returned n j hn hex fun t ht => hno t (inside_eq_some.mpr ⟨n, ht, hn⟩)
    rw [hp, Option.any_some, hd] at this
    cases this
  · have := (h.waiting n j hn hex).1
    rw [hp, Option.any_some, hq] at this
    cases this

/-- **A worker can run its job to the end**, once who holds the mutex of the job's connection has given
it back. -/
theorem leads_to_done (h2 : 2 ≤ capacity)
    (h : (deployed erange store main workers capacity maxSpinners).Reachable s)
    (hlen : s.jobs.length < 2 ^ 63) {t : ι} (ht : s.inside t = some j) :
    ∃ s', (deployed erange store main workers capacity maxSpinners).Leads Working s s' ∧
      s'.pool = s.pool ∧ s'.jobs = s.jobs ∧ (s'.engine.net.job j).any JobPc.isDone = true := by
  have hrank := Machine.Leads.of_rank
    (M := deployed erange store main workers capacity maxSpinners) (C := Working)
    (P := fun u => (deployed erange store main workers capacity maxSpinners).Reachable u ∧
      u.pool = s.pool ∧ u.jobs = s.jobs)
    (G := fun u => (u.engine.net.job j).any JobPc.isDone = true) (fun u => u.engine.left j)
    (fun u hu hg => ?_) ⟨h, rfl, rfl⟩
  · obtain ⟨s', h1, ⟨-, h3, h4⟩, h5⟩ := hrank
    exact ⟨s', h1, h3, h4, h5⟩
  obtain ⟨hr, hpool, hjobs⟩ := hu
  have hin : ∀ e : Engine.State, ({ u with engine := e } : State ι).inside t = some j := by
    intro e
    simpa only [State.inside, hpool, hjobs] using ht
  have hb := bound_of_reachable h2 hr (by rw [hjobs]; exact hlen)
  obtain ⟨n, -, hn⟩ := inside_eq_some.mp (hin u.engine)
  obtain ⟨p, hp⟩ := Option.isSome_iff_exists.mp ((hb.mem j).mp (List.mem_of_getElem? hn))
  have hd : p.isDone = false := by simpa [hp] using hg
  -- the state behind the steps of others, and then one step of the job
  have hgo : ∀ e : Engine.State, (deployed erange store main workers capacity maxSpinners).Leads
      Working u { u with engine := e } → e.net.job j = some p → e.left j = u.engine.left j →
      (∀ data c, p = .lock data → e.net.clients[j.1]? = some c → c.conn.writeMutex = false) →
      ∃ s', (deployed erange store main workers capacity maxSpinners).Leads Working u s' ∧
        ((deployed erange store main workers capacity maxSpinners).Reachable s' ∧
          s'.pool = s.pool ∧ s'.jobs = s.jobs) ∧
        ((s'.engine.net.job j).any JobPc.isDone = true ∨ s'.engine.left j < u.engine.left j) := by
    intro e hlead he hleft hlock
    obtain ⟨b, e', hbj, hbo, hbs, hlt⟩ :=
      Engine.exists_errand (engine_reachable (hlead.reachable hr)) he hd hlock
    have hlead' := hlead.trans (leads_of_job (hin e) (.single ⟨hbj, hbo⟩ hbs))
    exact ⟨_, hlead', ⟨hlead'.reachable hr, hpool, hjobs⟩, .inr (hleft ▸ hlt)⟩
  by_cases hlock : ∀ data c, p = .lock data → u.engine.net.clients[j.1]? = some c →
      c.conn.writeMutex = false
  · exact hgo u.engine (.refl u) hp rfl hlock
  -- somebody holds the mutex
  push Not at hlock
  obtain ⟨data, c, rfl, hc, hm⟩ := hlock
  have hinv := EventLoop.inv_of_reachable (Engine.net_reachable (engine_reachable hr))
  have hm' : (u.engine.net.view j.1 c).conn.writeMutex = true := Bool.eq_true_of_not_eq_false hm
  obtain ⟨q, hq, hql⟩ := (books_of_reachable (hinv.view j.1 c hc)).mutex hm'
  obtain ⟨i, hi⟩ := List.mem_iff_getElem?.mp hq
  have hqj : u.engine.net.job (j.1, i) = some q := EventLoop.job_eq_some.mpr ⟨c, hc, hi⟩
  have hne : j ≠ (j.1, i) := by
    intro he
    rw [← he, hp] at hqj
    cases hqj
    cases hql
  obtain ⟨v, hv⟩ := hb.worker hqj (by cases q <;> first | rfl | cases hql)
    (by cases q <;> first | rfl | cases hql)
  obtain ⟨e, c', hlead, hc', hfree⟩ := Engine.leads_to_free (engine_reachable hr) hqj hql
  have hjob : e.net.job j = u.engine.net.job j :=
    hlead.keep (P := fun e => e.net.job j = u.engine.net.job j)
      (fun x b y hx hb hs => (hb.keeps hs hne).trans hx) rfl
  rw [hp] at hjob
  refine hgo e (leads_of_job hv hlead) hjob ?_ fun d c'' _ hc'' => ?_
  · rw [Engine.left_of_job hjob rfl, Engine.left_of_job hp rfl]
  · rw [hc'] at hc''
    cases hc''
    exact hfree

/-! ### The pool catches up -/

/-- What the pool can do, it can do with its jobs. -/
theorem leads_to_rest (h2 : 2 ≤ capacity) (hw : workers ≠ []) (hmain : main ∉ workers)
    (h : (deployed erange store main workers capacity maxSpinners).Reachable s)
    (hlen : s.jobs.length < 2 ^ 63) :
    ∃ s', (deployed erange store main workers capacity maxSpinners).Leads Working s s' ∧
      s'.jobs = s.jobs ∧ s'.pool.AtRest := by
  have hb := bound_of_reachable h2 h hlen
  obtain ⟨p, hp, -, hrest⟩ := Pool.leads_to_rest h2 hw (pool_reachable h)
    (by rw [hb.submitted, List.length_range]; exact hlen) (unshut h2 hmain h hlen).2.2
  have hstep : ∀ (u : State ι) b p, (deployed erange store main workers capacity maxSpinners).Reachable
      u ∧ u.jobs = s.jobs → Pool.Onward u.pool b →
      (Pool.poolMachine workers capacity maxSpinners).step u.pool b = some p →
      ∃ u', (deployed erange store main workers capacity maxSpinners).Leads Working u u' ∧
        ((deployed erange store main workers capacity maxSpinners).Reachable u' ∧ u'.jobs = s.jobs) ∧
        u'.pool = p := by
    rintro u b p ⟨hr, hjobs⟩ hbo hbs
    have hlen' : u.jobs.length < 2 ^ 63 := by rw [hjobs]; exact hlen
    -- a step of the pool, behind those of the job it waits for
    have hgo : ∀ v : State ι, (deployed erange store main workers capacity maxSpinners).Leads Working u
        v → v.pool = u.pool → v.jobs = u.jobs → v.allows b = true →
        ∃ u', (deployed erange store main workers capacity maxSpinners).Leads Working u u' ∧
          ((deployed erange store main workers capacity maxSpinners).Reachable u' ∧
            u'.jobs = s.jobs) ∧ u'.pool = p := by
      intro v hv hvp hvj hallow
      have hbv : Working v (.pool b) := by
        show Pool.Onward v.pool b
        rw [hvp]
        exact hbo
      have hsv : (deployed erange store main workers capacity maxSpinners).step v (.pool b) =
          some { v with pool := p } := by simp [deployed, hallow, hvp, hbs]
      have hlead := hv.trans (.single hbv hsv)
      exact ⟨_, hlead, ⟨hlead.reachable hr, hvj.trans hjobs⟩, rfl⟩
    cases b with
    | submit t job => cases hbo
    | shutdown t => cases hbo
    | finish t o =>
      obtain rfl : o = .returned := hbo
      obtain ⟨n, hrun⟩ : ∃ n, u.pool.pc t = .run n := by
        simp only [Pool.poolMachine] at hbs
        split at hbs
        · exact ⟨_, ‹_›⟩
        · cases hbs
      have hbu := bound_of_reachable h2 hr hlen'
      have hlt := claims_lt hr hbu hlen'
      have hn := (Pool.executed_once h2 (pool_reachable hr) hlt).2
        ((Pool.running_once h2 (pool_reachable hr) hlt).1 t n (by rw [hrun]; rfl))
      rw [hbu.submitted, List.mem_range] at hn
      have hin : u.inside t = some u.jobs[n] :=
        inside_eq_some.mpr ⟨n, by rw [hrun]; rfl, List.getElem?_eq_getElem hn⟩
      obtain ⟨v, hv, hvp, hvj, hdone⟩ := leads_to_done h2 hr hlen' hin
      refine hgo v hv hvp hvj ?_
      have hin' : v.inside t = some u.jobs[n] := by
        simpa only [State.inside, hvp, hvj] using hin
      simp only [State.allows, hin', Option.any_some]
      exact hdone
    | _ => exact hgo u (.refl u) rfl rfl rfl
  obtain ⟨s', hs', ⟨-, hjobs⟩, rfl⟩ := Machine.Leads.lift (f := State.pool) hstep ⟨h, rfl⟩ hp
  exact ⟨s', hs', hjobs, hrest⟩

theorem frame_of_working (ha : Working s a)
    (hs : (deployed erange store main workers capacity maxSpinners).step s a = some s') :
    s'.engine.net.loop = s.engine.net.loop ∧ s'.engine.net.buffer = s.engine.net.buffer := by
  cases move_of_step hs with
  | loop b e hb he => cases ha
  | submit k c e p hk hc he hp => cases ha
  | pool b p hb hp => exact ⟨rfl, rfl⟩
  | work t b j e hj ht he => exact Engine.frame_of_job he (by rw [hj]; rfl)

/-! ### The event loop goes on -/

/-- With the pool at rest, the event loop's thread makes its next step. -/
theorem exists_loop (h2 : 2 ≤ capacity) (hmain : main ∉ workers)
    (h : (deployed erange store main workers capacity maxSpinners).Reachable s)
    (hlen : s.jobs.length < 2 ^ 63) (hrest : s.pool.AtRest) {b : EventLoop.Act}
    {n : EventLoop.State} (hb : b = .loop ∨ b = .recv .again ∧ s.engine.net.submitting = none)
    (hn : EventLoop.machine.step s.engine.net b = some n) :
    ∃ a s', Onward s a ∧
      (deployed erange store main workers capacity maxSpinners).step s a = some s' ∧
      s'.engine.net = n ∧
      s'.jobs.length = s.jobs.length + if s.engine.net.submitting.isSome then 1 else 0 := by
  have hbound := bound_of_reachable h2 h hlen
  have hlt := claims_lt h hbound hlen
  have hclient : s.pool.pc main = .client :=
    (hrest.done h2 (pool_reachable h) hlt).1 main hmain
  have hidle : s.pool.queue.pc main = .idle :=
    ((Pool.placed_and_ledger h2 (pool_reachable h) hlt).1.idle (t := main) (by rw [hclient]; rfl)).1
  obtain ⟨hjob, hbo, hnet⟩ : b.job? = none ∧ (b = .loop ∨ b = .recv .again) ∧
      (Engine.engine erange store).step s.engine (.net b) =
        some { s.engine with net := n, tapes := s.engine.record b } := by
    rcases hb with rfl | ⟨rfl, -⟩
    · exact ⟨rfl, .inl rfl, by simp [Engine.engine, Engine.State.netStep, hn]⟩
    · exact ⟨rfl, .inr rfl, by simp [Engine.engine, Engine.State.netStep, hn]⟩
  cases hsub : s.engine.net.submitting with
  | none =>
    refine ⟨.loop b, { s with engine := { s.engine with net := n, tapes := s.engine.record b } }, hbo,
      ?_, rfl, rfl⟩
    have hloops : s.loops main b = true := by
      rcases hbo with rfl | rfl <;> simp [State.loops, hclient, hsub, EventLoop.Act.job?]
    simp only [deployed, hloops, if_true, hnet, Option.map_some]
  | some k =>
    obtain rfl : b = .loop := hb.resolve_right fun hr => by
      rw [hr.2] at hsub
      cases hsub
    -- the pool takes the job
    obtain ⟨c, hc⟩ : ∃ c, s.engine.net.clients[k]? = some c := by
      have hr := Engine.net_reachable (engine_reachable h)
      unfold EventLoop.State.submitting at hsub
      split at hsub
      · next k' p m hl =>
        cases hsub
        exact EventLoop.handled_of_reachable hr k _ hl
      · cases hsub
    obtain ⟨p, hp⟩ : ∃ p, (Pool.poolMachine workers capacity maxSpinners).step s.pool
        (.submit main s.jobs.length) = some p := by
      have hnew : s.jobs.length ∉ s.pool.submitted := by simp [hbound.submitted]
      simp [Pool.poolMachine, hnew, hclient, Pool.State.call, hidle]
    refine ⟨.submit, ⟨{ s.engine with net := n, tapes := s.engine.record .loop }, p,
      s.jobs ++ [(k, c.jobs.length)]⟩, trivial, ?_, rfl, by simp⟩
    simp [deployed, hsub, hc, hnet, hp]

/-- **The server settles**: the event loop comes back to `epoll_wait`, and the pool to rest. -/
theorem settle (h2 : 2 ≤ capacity) (hw : workers ≠ []) (hmain : main ∉ workers)
    (h : (deployed erange store main workers capacity maxSpinners).Reachable s)
    (hlen : s.jobs.length + s.engine.net.loop.backlog s.engine.net.buffer < 2 ^ 63)
    (hproper : s.engine.net.loop.Proper s.engine.net.buffer)
    (hsaw : s.engine.net.loop ≠ .handling k .sawEof) :
    ∃ s', (deployed erange store main workers capacity maxSpinners).Leads (Quietly k) s s' ∧
      s'.engine.net.loop = .epollWait ∧ s'.pool.AtRest ∧ s'.jobs.length < 2 ^ 63 := by
  have hrank := Machine.Leads.of_rank
    (M := deployed erange store main workers capacity maxSpinners) (C := Quietly k)
    (P := fun u => (deployed erange store main workers capacity maxSpinners).Reachable u ∧
      u.jobs.length + u.engine.net.loop.backlog u.engine.net.buffer < 2 ^ 63 ∧
      u.engine.net.loop.Proper u.engine.net.buffer ∧ u.engine.net.loop ≠ .handling k .sawEof)
    (G := fun u => u.engine.net.loop = .epollWait ∧ u.pool.AtRest)
    (fun u => u.engine.net.loop.errands u.engine.net.buffer + 1 -
      if u.engine.net.loop = .epollWait then 1 else 0) (fun u hu hg => ?_) ⟨h, hlen, hproper, hsaw⟩
  · obtain ⟨s', h1, ⟨-, h3, -, -⟩, h5, h6⟩ := hrank
    exact ⟨s', h1, h5, h6, (Nat.le_add_right _ _).trans_lt h3⟩
  obtain ⟨hr, hlen, hproper, hsaw⟩ := hu
  -- first the pool comes to rest
  obtain ⟨m, hm, hjobs, hrest⟩ :=
    leads_to_rest h2 hw hmain hr ((Nat.le_add_right _ _).trans_lt hlen)
  obtain ⟨hloop, hbuf⟩ : m.engine.net.loop = u.engine.net.loop ∧
      m.engine.net.buffer = u.engine.net.buffer :=
    hm.keep (P := fun v : State ι => v.engine.net.loop = u.engine.net.loop ∧
      v.engine.net.buffer = u.engine.net.buffer) (fun v b v' hv hb hs =>
        ⟨(frame_of_working hb hs).1.trans hv.1, (frame_of_working hb hs).2.trans hv.2⟩) ⟨rfl, rfl⟩
  have hmr := hm.reachable hr
  have hmq := hm.mono fun _ _ hb => hb.quietly (k := k)
  rw [← hloop] at hsaw
  rw [← hloop, ← hbuf] at hproper
  rw [← hloop, ← hbuf, ← hjobs] at hlen
  by_cases hepoll : m.engine.net.loop = .epollWait
  · exact ⟨m, hmq, ⟨hmr, hlen, hproper, hsaw⟩, .inl ⟨hepoll, hrest⟩⟩
  -- then the event loop makes a step
  obtain ⟨b, n, hb, hn, hlt, hproper', hsaw', hback⟩ :=
    EventLoop.loop_onward (Engine.net_reachable (engine_reachable hmr)) hepoll hproper
  obtain ⟨a, v, ha, hs, rfl, hj⟩ := exists_loop h2 hmain hmr
    ((Nat.le_add_right _ _).trans_lt hlen) hrest hb hn
  refine ⟨v, hmq.trans (.single ⟨ha, fun _ => hsaw⟩ hs),
    ⟨hmr.step trivial hs, ?_, hproper', hsaw' k⟩, .inr ?_⟩
  · rw [hj]
    omega
  · rw [← hloop, ← hbuf]
    simp only [hepoll, if_false]
    rcases hlt with he | hlt
    · simp only [he, EventLoop.Pc.errands, if_true]
      omega
    · split <;> omega

theorem completed_at_rest (h2 : 2 ≤ capacity) (hmain : main ∉ workers)
    (h : (deployed erange store main workers capacity maxSpinners).Reachable s)
    (hlen : s.jobs.length < 2 ^ 63) (hrest : s.pool.AtRest) :
    s.pool.completed = s.jobs.length := by
  have hb := bound_of_reachable h2 h hlen
  obtain ⟨-, hexec, hsub, hcomp, -⟩ := hrest.done h2 (pool_reachable h) (claims_lt h hb hlen)
  rw [(unshut h2 hmain h hlen).1, Multiset.coe_nil, zero_add, ← hexec] at hsub
  have := congrArg Multiset.card hsub
  rw [Multiset.coe_card, Multiset.coe_card, hb.submitted, List.length_range] at this
  rw [hcomp, this]

/-- **The server can always settle.**  From every reachable state, with nothing new coming in and
nothing going wrong, some schedule takes the event loop back to `epoll_wait`, no `recvBuffer` holds a
complete message any more, and every job that has been dispatched by then has returned and is
counted. -/
theorem can_settle (h2 : 2 ≤ capacity) (hw : workers ≠ []) (hmain : main ∉ workers)
    (h : (deployed erange store main workers capacity maxSpinners).Reachable s)
    (hlen : s.jobs.length + s.engine.net.loop.backlog s.engine.net.buffer < 2 ^ 63)
    (hproper : s.engine.net.loop.Proper s.engine.net.buffer) :
    ∃ s', (deployed erange store main workers capacity maxSpinners).Leads Onward s s' ∧
      s'.engine.net.loop = .epollWait ∧
      (∀ (k : ℕ) (c : EventLoop.Client), s'.engine.net.clients[k]? = some c →
        tryExtractMessage c.conn.recvBuffer = .ok (none, c.conn.recvBuffer)) ∧
      s'.pool.completed = s'.jobs.length ∧
      ∀ j p, s'.engine.net.job j = some p → p.isDone = true := by
  -- a connection that the event loop does not handle
  obtain ⟨k, hk⟩ : ∃ k, s.engine.net.loop ≠ .handling k .sawEof := by
    by_contra hno
    push Not at hno
    have h01 := (hno 0).symm.trans (hno 1)
    cases h01
  obtain ⟨s', hs', hl, hrest, hlen'⟩ := settle h2 hw hmain h hlen hproper hk
  have hr := hs'.reachable h
  have hcomp := completed_at_rest h2 hmain hr hlen' hrest
  refine ⟨s', hs'.mono fun _ _ ha => ha.1, hl, fun k c hc => ?_, hcomp,
    fun j p hj => all_done h2 hr hlen' hcomp hj⟩
  exact Engine.drained_of_through (engine_reachable hr) hc
    (by simp [hl, EventLoop.Pc.at, LoopPc.through])

theorem received_of_onward {c : EventLoop.Client} (ha : Onward s a)
    (hs : (deployed erange store main workers capacity maxSpinners).step s a = some s')
    (hc : s.engine.net.clients[k]? = some c) :
    (s'.engine.tapes k).received = (s.engine.tapes k).received ∧
      ∃ c', s'.engine.net.clients[k]? = some c' := by
  have hengine : ∀ {b e}, Engine.Onward s.engine b →
      (Engine.engine erange store).step s.engine b = some e →
      (e.tapes k).received = (s.engine.tapes k).received ∧ ∃ c', e.net.clients[k]? = some c' := by
    intro b e hb he
    refine ⟨Engine.received_of_onward hb he, ?_⟩
    rcases (Engine.move_of_step he).net_step with ⟨hn, -⟩ | ⟨d, hd, -⟩
    · exact ⟨c, hn ▸ hc⟩
    · exact ⟨_, List.getElem?_eq_getElem ((List.getElem?_eq_some_iff.mp hc).1.trans_le
        (EventLoop.clients_length_le hd))⟩
  cases move_of_step hs with
  | loop b e hb he => exact hengine (Engine.onward_net ha) he
  | submit k c e p hk hc he hp => exact hengine (Engine.onward_net (.inl rfl)) he
  | pool b p hb hp => exact ⟨rfl, c, hc⟩
  | work t b j e hj ht he => exact hengine ha he

/-- **Every client can get its answers.**  In every run of the server in which nothing goes wrong on the
wire of connection `k`, unless the event loop is about to announce the end of its stream: with nothing
new coming in, some schedule gives the client one complete answer to each of the messages that it has
completely sent, and not a byte more. -/
theorem can_serve (h2 : 2 ≤ capacity) (hw : workers ≠ []) (hmain : main ∉ workers)
    (h : (deployed erange store main workers capacity maxSpinners).Within
      (OnEngine fun e b => Engine.OnClient Smooth k e b) s)
    (hlen : s.jobs.length + s.engine.net.loop.backlog s.engine.net.buffer < 2 ^ 63)
    (hproper : s.engine.net.loop.Proper s.engine.net.buffer)
    (hsaw : s.engine.net.loop ≠ .handling k .sawEof) {c : EventLoop.Client}
    (hc : s.engine.net.clients[k]? = some c) :
    ∃ s' rest, ∃ (messages : List Bytes) (replies : List (ℕ × Bytes)),
      (deployed erange store main workers capacity maxSpinners).Leads Onward s s' ∧
      (∀ fuel, messages.length < fuel →
        extractLoop fuel (s.engine.tapes k).received = .ok (some (messages, rest)) ∧
        extractLoop fuel (s'.engine.tapes k).output = .ok (some (replies.map Prod.snd, []))) ∧
      (replies.map Prod.fst).Perm (List.range messages.length) ∧
      ∀ i data, (i, data) ∈ replies → ∃ m, messages[i]? = some m ∧
        Engine.Reply erange s'.engine.risk.log s'.engine.drawn (k, i) m data := by
  obtain ⟨s', hs', hl, hrest, hlen'⟩ := settle h2 hw hmain h.reachable hlen hproper hsaw
  have hr := hs'.reachable h.reachable
  -- on the wire of `k` nothing goes wrong
  have hw' : (deployed erange store main workers capacity maxSpinners).Within
      (OnEngine fun e b => Engine.OnClient Smooth k e b) s' := by
    refine (hs'.mono_of_step fun u b u' hb hs => ?_).within h
    obtain ⟨hb, hquiet⟩ := hb
    cases b with
    | loop b =>
      refine Engine.smooth_of_onward (Engine.onward_net hb) fun he => hquiet (.inl ?_)
      injection he with he
      rw [he]
    | submit => exact Engine.smooth_of_onward (Engine.onward_net (.inl rfl)) fun _ => hquiet (.inr rfl)
    | pool b => trivial
    | work t b =>
      refine Engine.smooth_of_onward hb fun he => ?_
      subst he
      cases hs
  obtain ⟨hrec, c', hc'⟩ : (s'.engine.tapes k).received = (s.engine.tapes k).received ∧
      ∃ c', s'.engine.net.clients[k]? = some c' :=
    hs'.keep (P := fun u : State ι => (u.engine.tapes k).received = (s.engine.tapes k).received ∧
      ∃ c', u.engine.net.clients[k]? = some c') (fun u b u' hu hb hs => by
        obtain ⟨c, hc⟩ := hu.2
        exact (received_of_onward hb.1 hs hc).imp_left fun he => he.trans hu.1) ⟨rfl, c, hc⟩
  have hcomp := completed_at_rest h2 hmain hr hlen' hrest
  have hquiet : Quiet (s'.engine.net.view k c') := by
    refine ⟨by simp [EventLoop.State.view, hl, EventLoop.Pc.at, LoopPc.through], fun p hp => ?_⟩
    obtain ⟨i, hi⟩ := List.mem_iff_getElem?.mp hp
    exact all_done h2 hr hlen' hcomp (j := (k, i)) (EventLoop.job_eq_some.mpr ⟨c', hc', hi⟩)
  obtain ⟨replies, he⟩ := Engine.exchanged_at_rest (engine_within hw') hc' hquiet
  exact ⟨s', _, _, replies, hs'.mono fun _ _ ha => ha.1, hrec ▸ he.extracted, he.each, he.reply⟩

theorem length_read : (buildMessage (buyBody "6000.0")).length < 2 ^ 62 := by decide +kernel

theorem proper_read : Framing.Proper totalLength (buildMessage (buyBody "6000.0")) := by
  have h : (Framing.drain totalLength 2 (buildMessage (buyBody "6000.0"))).any
      (fun p => decide ([] ∉ p.1)) = true := by decide +kernel
  obtain ⟨⟨ms, r⟩, hd, h⟩ := Option.any_eq_true _ _ |>.mp h
  exact Framing.proper_of_drain hd (of_decide_eq_true h)

theorem exists_read : ∃ s c, demo.exec idleServer (takenUp.take 7) = some s ∧ s.jobs = [] ∧
    s.engine.net.clients[0]? = some c ∧ s.engine.net.loop = .handling 0 (.extract false) ∧
    s.jobs.length + s.engine.net.loop.backlog s.engine.net.buffer < 2 ^ 63 ∧
    s.engine.net.loop.Proper s.engine.net.buffer := by
  have h : (demo.exec idleServer (takenUp.take 7)).bind (fun s => (s.engine.net.clients[0]?).map
      fun _ => (s.jobs, s.engine.net.loop, s.engine.net.buffer 0)) =
        some ([], .handling 0 (.extract false), buildMessage (buyBody "6000.0")) := by
    decide +kernel
  obtain ⟨s, hs, h⟩ := Option.bind_eq_some_iff.mp h
  obtain ⟨c, hc, h⟩ := Option.map_eq_some_iff.mp h
  simp only [Prod.mk.injEq] at h
  obtain ⟨hjobs, hl, hbuf⟩ := h
  refine ⟨s, c, hs, hjobs, hc, hl, ?_, ?_⟩
  · have := length_read
    rw [hl, EventLoop.Pc.backlog, hbuf, hjobs]
    simp only [backlog, LoopPc.carries, List.length_nil]
    norm_num at this ⊢
    omega
  · rw [hl, EventLoop.Pc.Proper, hbuf]
    exact proper_read

theorem can_settle_read : ∃ s s', demo.exec idleServer (takenUp.take 7) = some s ∧ s.jobs = [] ∧
    demo.Leads Onward s s' ∧ s'.engine.net.loop = .epollWait ∧
      (∀ (k : ℕ) (c : EventLoop.Client), s'.engine.net.clients[k]? = some c →
        tryExtractMessage c.conn.recvBuffer = .ok (none, c.conn.recvBuffer)) ∧
      s'.pool.completed = s'.jobs.length := by
  obtain ⟨s, c, hs, hjobs, -, -, hlen, hproper⟩ := exists_read
  obtain ⟨s', h1, h2, h3, h4, -⟩ := can_settle le_rfl (by simp) (by decide)
    (.of_exec idleServer_init hs) hlen hproper
  exact ⟨s, s', hs, hjobs, h1, h2, h3, h4⟩

theorem can_serve_read : ∃ s s', demo.exec idleServer (takenUp.take 7) = some s ∧ s.jobs = [] ∧
    demo.Leads Onward s s' ∧ ∃ (messages : List Bytes) (replies : List (ℕ × Bytes)) (rest : Bytes),
      (∀ fuel, messages.length < fuel →
        extractLoop fuel (s.engine.tapes 0).received = .ok (some (messages, rest)) ∧
        extractLoop fuel (s'.engine.tapes 0).output = .ok (some (replies.map Prod.snd, []))) ∧
      (replies.map Prod.fst).Perm (List.range messages.length) := by
  obtain ⟨s, c, hs, hjobs, hc, hl, hlen, hproper⟩ := exists_read
  have hmeets : demo.Meets (fun s a => smoothly s a = true) idleServer (takenUp.take 7) := by
    decide +kernel
  have hw : demo.Within (OnEngine fun e b => Engine.OnClient Smooth 0 e b) s :=
    Machine.Within.exec (.init idleServer_init) (hmeets.mono fun _ _ h => onEngine_of_smoothly h) hs
  obtain ⟨s', rest, messages, replies, h1, h2, h3, -⟩ := can_serve le_rfl (by simp) (by decide) hw
    hlen hproper (by simp [hl]) hc
  exact ⟨s, s', hs, hjobs, h1, messages, replies, rest, h2, h3⟩

end OrderRisk.Server.Deployed
