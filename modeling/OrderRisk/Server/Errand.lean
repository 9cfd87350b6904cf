import OrderRisk.Lib.Leads
import OrderRisk.Risk.Onward
import OrderRisk.Server.Deployed
import OrderRisk.Server.Robust

/-!
# A job can go on

A job that has not returned has a next step, unless it waits for the `writeMutex` of its connection,
and a next step that takes it closer to its end (`exists_errand`); who holds the mutex can give it back
(`leads_to_free`).  In front of `safeSend` that is a step of `validate`.

`Onward` are the steps at which nothing goes wrong: `::send` takes what it is given, and no CAS fails
for no reason.
-/

namespace OrderRisk.Server

open OrderRisk.Lib OrderRisk.Fix OrderRisk.Account OrderRisk.Risk

/-! ### On the connection -/

namespace EventLoop

theorem job_on {s : State} {k i : ℕ} {c : Client} {b : Server.Act} {v : Server.State} {q : JobPc}
    (hc : s.clients[k]? = some c) (hv : Server.machine.step (s.view k c) b = some v)
    (hi : v.jobs[i]? = some q) (hne : ∀ i' ≠ i, v.jobs[i']? = c.jobs[i']?) :
    s.onClient k b = some (s.after k c b v) ∧
      (s.after k c b v).job = Function.update s.job (k, i) (some q) ∧
      ∃ c', (s.after k c b v).clients[k]? = some c' ∧ c'.conn = v.conn := by
  have hself : ∃ c', (s.after k c b v).clients[k]? = some c' ∧ c'.conn = v.conn :=
    ⟨_, List.getElem?_set_self (List.getElem?_eq_some_iff.mp hc).1, rfl⟩
  have hv' : Server.step (s.view k c) b = some v := hv
  refine ⟨?_, job_after hc hi hne, hself⟩
  rw [State.onClient, hc, Option.bind_some, hv', Option.map_some]

theorem job_eq_some {s : State} {k i : ℕ} {p : JobPc} :
    s.job (k, i) = some p ↔ ∃ c, s.clients[k]? = some c ∧ c.jobs[i]? = some p :=
  Option.bind_eq_some_iff

theorem start_onward {s : State} {k i : ℕ} {m data : Bytes} (hp : s.job (k, i) = some (.queued m))
    (hd : data ≠ []) : ∃ n, machine.step s (.start k i data) = some n ∧
      n.job = Function.update s.job (k, i) (some (.lock data)) := by
  obtain ⟨c, hc, hi⟩ := job_eq_some.mp hp
  have hlt := (List.getElem?_eq_some_iff.mp hi).1
  obtain ⟨hon, hjob, -⟩ := job_on (b := .start i data) (q := .lock data)
    (v := { s.view k c with jobs := c.jobs.set i (.lock data) }) hc
    (by simp [Server.machine, Server.step, State.view, hi, hd])
    (List.getElem?_set_self hlt) fun i' hne => List.getElem?_set_ne hne.symm
  exact ⟨_, hon, hjob⟩

theorem job_onward {s : State} {k i : ℕ} {c : Client} {p q : JobPc} {result : Option ℕ}
    {conn : Connection} {late : Bool} (hp : s.job (k, i) = some p) (hc : s.clients[k]? = some c)
    (hj : jobStep c.conn result p = some (conn, q, late)) :
    ∃ n, machine.step s (.job k i result) = some n ∧
      n.job = Function.update s.job (k, i) (some q) ∧
      ∃ c', n.clients[k]? = some c' ∧ c'.conn = conn := by
  obtain ⟨d, hd, hi⟩ := job_eq_some.mp hp
  rw [hc] at hd
  cases hd
  have hlt := (List.getElem?_eq_some_iff.mp hi).1
  obtain ⟨hon, hjob, hconn⟩ := job_on (b := .job i result) (q := q)
    (v := { s.view k c with conn := conn, jobs := c.jobs.set i q, late := c.late || late }) hc
    (by simp [Server.machine, Server.step, State.view, hi, hj])
    (List.getElem?_set_self hlt) fun i' hne => List.getElem?_set_ne hne.symm
  exact ⟨_, hon, hjob, hconn⟩

end EventLoop

/-- What `::send` returns when it takes what it is given. -/
def JobPc.taken : JobPc → Option ℕ
  | .send data sent => some (data.length - sent)
  | _ => none

/-- The next step of a job that does not wait. -/
theorem jobStep_onward {c : Connection} {p : JobPc} (hq : p.isQueued = false) (hd : p.isDone = false)
    (hlock : ∀ data, p = .lock data → c.writeMutex = false)
    (hsend : ∀ data sent, p = .send data sent → sent < data.length) :
    ∃ c' q late, jobStep c p.taken p = some (c', q, late) ∧ q.isQueued = false ∧ q.rank < p.rank ∧
      (p.locked = true → q.locked = true ∨ c'.writeMutex = false) := by
  cases p with
  | queued m => cases hq
  | done handed => cases hd
  | lock data =>
    exact ⟨_, _, _, by simp only [jobStep, hlock data rfl]; rfl, rfl, by simp [JobPc.rank],
      fun h => by cases h⟩
  | check data =>
    refine ⟨_, _, _, rfl, ?_, ?_, fun _ => .inl ?_⟩ <;> split <;>
      simp [JobPc.rank, JobPc.isQueued, JobPc.locked]
  | send data sent =>
    have hlt := hsend data sent rfl
    have he : sent + (data.length - sent) = data.length := by omega
    refine ⟨c, .unlock true, c.closed, ?_, rfl, by simp [JobPc.rank], fun _ => .inl rfl⟩
    simp only [jobStep, JobPc.taken, he, lt_irrefl, if_false]
    rw [if_pos ⟨by omega, le_rfl⟩]
  | unlock handed => exact ⟨_, _, _, rfl, rfl, by simp [JobPc.rank], fun _ => .inr rfl⟩
  | decrement handed => exact ⟨_, _, _, rfl, rfl, by simp [JobPc.rank], fun h => by cases h⟩
  | finalize handed f =>
    refine ⟨_, _, _, rfl, ?_, ?_, fun h => by cases h⟩
    · cases (finStep c f).2 <;> rfl
    · cases f <;> simp only [finStep] <;> (try split) <;> simp [JobPc.rank]

/-! ### The whole job -/

namespace Engine

variable {erange : ℚ → Bool} {store : AccountStore Double} {s s' : State} {a : Act} {j : ℕ × ℕ}
  {p : JobPc}

/-- A step at which nothing goes wrong and nothing new comes in. -/
def Onward (s : State) : Act → Prop
  | .net (.job k i result) =>
    ∀ data sent, s.net.job (k, i) = some (.send data sent) → result = some (data.length - sent)
  | .net b => b = .loop ∨ b = .recv .again
  | .validate _ _ spurious => spurious = false
  | _ => True

def State.left (s : State) (j : ℕ × ℕ) : ℕ :=
  match s.net.job j with
  | none => 0
  | some (.queued _) => 11 + (s.risk.pc j).cost s.risk.store
  | some p => p.rank

theorem left_of_job (hp : s.net.job j = some p) (hq : p.isQueued = false) : s.left j = p.rank := by
  unfold State.left
  rw [hp]
  cases p <;> first | rfl | cases hq

theorem left_of_queued {m : Bytes} (hp : s.net.job j = some (.queued m)) :
    s.left j = 11 + (s.risk.pc j).cost s.risk.store := by
  unfold State.left
  rw [hp]

theorem lt_of_send (h : (engine erange store).Reachable s) {k i : ℕ} {data : Bytes} {sent : ℕ}
    (hp : s.net.job (k, i) = some (.send data sent)) : sent < data.length := by
  obtain ⟨c, hc, hi⟩ := EventLoop.job_eq_some.mp hp
  obtain ⟨-, -, pieces, hw⟩ := spoken_of_reachable ((taped_reachable h k).1 c hc)
  exact (hw.current i data sent hi).1

/-- **A job's next step.** -/
theorem exists_job (h : (engine erange store).Reachable s) {k i : ℕ} {c : EventLoop.Client}
    (hp : s.net.job (k, i) = some p) (hc : s.net.clients[k]? = some c) (hq : p.isQueued = false)
    (hd : p.isDone = false) (hlock : ∀ data, p = .lock data → c.conn.writeMutex = false) :
    ∃ a s' q, a.job? = some (k, i) ∧ Onward s a ∧ (engine erange store).step s a = some s' ∧
      s'.net.job (k, i) = some q ∧ q.isQueued = false ∧ q.rank < p.rank ∧
      (p.locked = true → q.locked = true ∨
        ∃ c', s'.net.clients[k]? = some c' ∧ c'.conn.writeMutex = false) := by
  obtain ⟨conn, q, late, hj, hqq, hlt, hm⟩ := jobStep_onward hq hd hlock fun data sent he =>
    lt_of_send h (he ▸ hp)
  obtain ⟨n, hn, hjob, c', hc', rfl⟩ := EventLoop.job_onward hp hc hj
  refine ⟨.net (.job k i p.taken), { s with net := n, tapes := s.record (.job k i p.taken) }, q, rfl,
    fun data sent he => ?_, by simp [engine, State.netStep, hn], ?_, hqq, hlt,
    fun hl => (hm hl).imp_right fun hf => ⟨c', hc', hf⟩⟩
  · rw [hp] at he
    cases he
    rfl
  · dsimp only
    rw [hjob, Function.update_self]

/-- **A job can go on**, unless it waits for the mutex. -/
theorem exists_errand (h : (engine erange store).Reachable s) (hp : s.net.job j = some p)
    (hd : p.isDone = false)
    (hlock : ∀ data c, p = .lock data → s.net.clients[j.1]? = some c → c.conn.writeMutex = false) :
    ∃ a s', a.job? = some j ∧ Onward s a ∧ (engine erange store).step s a = some s' ∧
      s'.left j < s.left j := by
  obtain ⟨k, i⟩ := j
  by_cases hq : p.isQueued = false
  · obtain ⟨c, hc, -⟩ := EventLoop.job_eq_some.mp hp
    obtain ⟨a, s', q, ha, ho, hs, hp', hq', hlt, -⟩ :=
      exists_job h hp hc hq hd fun data he => hlock data c he hc
    exact ⟨a, s', ha, ho, hs, by rwa [left_of_job hp' hq', left_of_job hp hq]⟩
  obtain ⟨m, rfl⟩ : ∃ m, p = .queued m := by cases p <;> first | exact ⟨_, rfl⟩ | exact absurd rfl hq
  have hm : s.message k i = some m := message_eq_some.mpr (EventLoop.job_eq_some.mp hp)
  have hr := risk_reachable h
  have hleft := left_of_queued hp
  -- at `safeSend` less is left than in front of the validator
  have hsend : ∀ {t : State} (data : Bytes), t.net.job (k, i) = some (.lock data) →
      t.left (k, i) < s.left (k, i) := by
    intro t data ht
    rw [left_of_job ht rfl, hleft]
    exact Nat.lt_add_right _ (Nat.lt_succ_self 10)
  cases hpc : s.risk.pc (k, i) with
  | idle =>
    obtain ⟨⟨_ | order, next⟩, hparse⟩ := parseOrder_returns erange s.nextOrderId m
    · next reason =>
      obtain ⟨n, hn, hjob⟩ := EventLoop.start_onward hp (buildMessage_ne_nil (rejectBody reason))
      refine ⟨.parse k i, { s.draw (k, i) next with
        net := n
        tapes := s.record (.start k i (buildMessage (rejectBody reason))) }, rfl, trivial, ?_, ?_⟩
      · simp only [engine, hm, hpc, hparse]
        exact Option.map_eq_some_iff.mpr ⟨n, hn, rfl⟩
      · refine hsend (buildMessage (rejectBody reason)) ?_
        dsimp only
        rw [hjob, Function.update_self]
    · refine ⟨.parse k i, { s.draw (k, i) next with risk := { s.risk with
        pc := Function.update s.risk.pc (k, i) (.checks s.risk.hist.length order)
        hist := s.risk.hist ++ [.call s.risk.hist.length order] } }, rfl, trivial, ?_, ?_⟩
      · simp only [engine, hm, hpc, hparse]
        simp [Risk.machine, hpc]
      · rw [hleft, hpc]
        refine lt_of_eq_of_lt (left_of_queued hp) ?_
        dsimp only
        rw [Function.update_self]
        exact Nat.lt_succ_self 15
  | returned id result =>
    obtain ⟨n, hn, hjob⟩ := EventLoop.start_onward hp (buildMessage_ne_nil (reportBody result))
    refine ⟨.answer k i, { s with
      net := n
      tapes := s.record (.start k i (buildMessage (reportBody result)))
      risk := { s.risk with
        pc := Function.update s.risk.pc (k, i) .idle
        hist := s.risk.hist ++ [.ret id result] } }, rfl, trivial, ?_, ?_⟩
    · simp only [engine, hpc]
      simp only [Risk.machine, hpc, Option.bind_some]
      exact Option.map_eq_some_iff.mpr ⟨n, hn, rfl⟩
    · refine hsend (buildMessage (reportBody result)) ?_
      dsimp only
      rw [hjob, Function.update_self]
  | _ =>
    obtain ⟨store', pc', hs, hlt⟩ := exists_threadStep ((inv_of_reachable hr).pcOk (k, i))
      (aimed_of_reachable hr (k, i)) (by simp [hpc]) (by simp [hpc])
    refine ⟨.validate k i false, { s with risk := ⟨store', Function.update s.risk.pc (k, i) pc',
      s.risk.hist, s.risk.log ++ decided (s.risk.pc (k, i)) pc'⟩ }, rfl, rfl, ?_, ?_⟩
    · simp [engine, Risk.machine, hs]
    · rw [hleft]
      refine lt_of_eq_of_lt (left_of_queued hp) ?_
      dsimp only
      rw [Function.update_self]
      omega

/-- A step of job `j` at which nothing goes wrong. -/
def By (j : ℕ × ℕ) (s : State) (a : Act) : Prop := a.job? = some j ∧ Onward s a

/-- **Who holds a mutex can give it back.** -/
theorem leads_to_free (h : (engine erange store).Reachable s) {k i : ℕ}
    (hp : s.net.job (k, i) = some p) (hl : p.locked = true) :
    ∃ s' c', (engine erange store).Leads (By (k, i)) s s' ∧ s'.net.clients[k]? = some c' ∧
      c'.conn.writeMutex = false := by
  refine (Machine.Leads.of_rank (M := engine erange store) (C := By (k, i))
    (P := fun t => (engine erange store).Reachable t ∧
      ((∃ q, t.net.job (k, i) = some q ∧ q.locked = true) ∨
        ∃ c', t.net.clients[k]? = some c' ∧ c'.conn.writeMutex = false))
    (G := fun t => ∃ c', t.net.clients[k]? = some c' ∧ c'.conn.writeMutex = false)
    (fun t => t.left (k, i)) ?_ ⟨h, .inl ⟨p, hp, hl⟩⟩).imp fun t ⟨h1, _, c', h2⟩ => ⟨c', h1, h2⟩
  rintro t ⟨hr, hq | hf⟩ hg
  · obtain ⟨q, hq, hql⟩ := hq
    obtain ⟨c, hc, -⟩ := EventLoop.job_eq_some.mp hq
    obtain ⟨a, t', q', ha, ho, hs, hq', hnq, hlt, hm⟩ := exists_job hr hq hc
      (by cases q <;> first | rfl | cases hql) (by cases q <;> first | rfl | cases hql)
      (fun data he => by rw [he] at hql; cases hql)
    refine ⟨t', .single ⟨ha, ho⟩ hs, ⟨hr.step trivial hs, ?_⟩, .inr ?_⟩
    · exact (hm hql).imp_left fun hl => ⟨q', hq', hl⟩
    · rw [left_of_job hq' hnq, left_of_job hq (by cases q <;> first | rfl | cases hql)]
      exact hlt
  · exact absurd hf hg

theorem By.keeps {j' : ℕ × ℕ} (ha : By j s a) (hs : (engine erange store).step s a = some s')
    (hne : j' ≠ j) : s'.net.job j' = s.net.job j' := by
  rcases (move_of_step hs).job_step with ⟨j'', hj, h1, -⟩ | ⟨rfl, -⟩ | ⟨hj, -⟩
  · rw [ha.1] at hj
    cases hj
    exact (h1 j' hne).1
  · cases ha.1
  · rw [ha.1] at hj
    cases hj

end Engine

end OrderRisk.Server
