import OrderRisk.Server.Engine

/-!
# The answers of the server

`Linked` ties the parts of the server together in every run: a job that is inside `validate` is
there with the order its message parses to, under an id it alone has drawn, and an answer is the
`Reply` to the message of its job.

So whatever the interleaving of the event loop, the connections and the jobs, the server answers as
if one thread had validated the orders one after the other (`answers_linearize`), and no order id
is used twice (`orderIds_unique`).
-/

namespace OrderRisk.Server.Engine

open OrderRisk.Lib OrderRisk.Fix OrderRisk.Account OrderRisk.Risk

/-! ### `parseOrder` and its counter -/

theorem sizeT_succ_ne (n : ℕ) : sizeT (n + 1) ≠ n := by
  unfold sizeT
  intro h
  have := Nat.mod_lt (n + 1) (by norm_num : 0 < 2 ^ 64)
  have hn : n < 2 ^ 64 := by omega
  rcases Nat.lt_or_ge (n + 1) (2 ^ 64) with hlt | hge
  · rw [Nat.mod_eq_of_lt hlt] at h
    omega
  · have he : n + 1 = 2 ^ 64 := by omega
    rw [he, Nat.mod_self] at h
    omega

theorem parseOrder_next {erange : ℚ → Bool} {n next : ℕ} {raw : Bytes}
    {r : Except Bytes (Order Double)} (h : parseOrder erange n raw = .ok (r, next)) :
    next = n ∨ next = sizeT (n + 1) := by
  obtain ⟨b, hb⟩ : ∃ b, verifyChecksum raw = .ok b := ⟨_, verifyChecksum_eq raw⟩
  simp only [parseOrder, hb, bind, Except.bind, pure, Except.pure] at h
  split at h
  · cases h
    exact .inl rfl
  · split at h
    · cases h
      exact .inl rfl
    · split at h
      · cases h
        exact .inl rfl
      · cases hr : readOrder erange (splitFields raw) n <;> rw [hr] at h <;> cases h <;>
          exact .inr rfl

theorem parseOrder_orderId {erange : ℚ → Bool} {n next : ℕ} {raw : Bytes} {o : Order Double}
    (h : parseOrder erange n raw = .ok (.ok o, next)) : o.orderId = n ∧ next = sizeT (n + 1) := by
  have ho := (parseOrder_ok h).2.2.2.2.2.2.2
  constructor
  · unfold readOrder at ho
    simp only [bind, Except.bind] at ho
    repeat' split at ho
    all_goals cases ho
    all_goals rfl
  · rcases parseOrder_cases erange n raw with ⟨-, h'⟩ | ⟨-, -, h'⟩ | ⟨-, next', h'⟩ | ⟨-, o', h'⟩ <;>
      rw [h] at h' <;> cases h'
    rfl

/-! ### What the parts keep -/

theorem queued_step {v v' : Server.State} {b : Server.Act} {i : ℕ} {m : Bytes}
    (h : Server.machine.step v b = some v') (hi : v.jobs[i]? = some (.queued m))
    (hb : ∀ data, b ≠ .start i data) : v'.jobs[i]? = some (.queued m) := by
  cases b with
  | readable =>
    simp only [Server.machine, Server.step] at h
    split at h <;> cases h
    exact hi
  | recv r =>
    simp only [Server.machine, Server.step] at h
    split at h
    · cases r <;> cases h <;> exact hi
    · cases h
  | loop =>
    obtain ⟨hl, rfl⟩ | ⟨hl, rfl⟩ | ⟨p, m', r, hl, -, rfl⟩ | ⟨p, hl, -, rfl⟩ | ⟨p, m', hl, rfl⟩ |
      ⟨p, m', hl, rfl⟩ | ⟨f, hl, rfl⟩ := Server.loopStep_cases h
    all_goals first
      | exact hi
      | exact (List.getElem?_append_left (List.getElem?_eq_some_iff.mp hi).1).trans hi
  | start j data =>
    simp only [Server.machine, Server.step] at h
    split at h
    · split at h <;> cases h
      rw [List.getElem?_set_ne]
      · exact hi
      · rintro rfl
        exact hb data rfl
    · cases h
  | job j result =>
    obtain ⟨p, hp, h⟩ := Option.bind_eq_some_iff.mp h
    obtain ⟨r, hr, rfl⟩ := Option.map_eq_some_iff.mp h
    rw [List.getElem?_set_ne]
    · exact hi
    · rintro rfl
      rw [hi] at hp
      cases hp
      cases hr

/-- The answer that a step starts to send. -/
def answerOf : Server.Act → List (ℕ × Bytes)
  | .start i data => [(i, data)]
  | _ => []

theorem recordJob_answers (tp : Tape) (i : ℕ) (result : Option ℕ) (p : JobPc) :
    (tp.recordJob i result p).answers = tp.answers := by
  unfold Tape.recordJob
  split <;> rfl

theorem recordLoop_answers (tp : Tape) (l : LoopPc) : (tp.recordLoop l).answers = tp.answers := by
  unfold Tape.recordLoop
  split <;> rfl

theorem record_answers (tp : Tape) (v : Server.State) (b : Server.Act) :
    (tp.record v b).answers = tp.answers ++ answerOf b := by
  cases b with
  | readable => exact (List.append_nil _).symm
  | recv r => cases r <;> exact (List.append_nil _).symm
  | loop => exact (recordLoop_answers tp v.loop).trans (List.append_nil _).symm
  | start i data => rfl
  | job i result =>
    simp only [Tape.record, answerOf, List.append_nil]
    cases v.jobs[i]? with
    | none => rfl
    | some p => exact recordJob_answers tp i result p

theorem record_dispatched (tp : Tape) (v : Server.State) (b : Server.Act) :
    tp.dispatched <+: (tp.record v b).dispatched := by
  cases b with
  | readable => exact List.prefix_rfl
  | recv r => cases r <;> exact List.prefix_rfl
  | loop =>
    simp only [Tape.record, Tape.recordLoop]
    split
    · exact List.prefix_append _ _
    · exact List.prefix_rfl
  | start i data => exact List.prefix_rfl
  | job i result =>
    simp only [Tape.record]
    cases v.jobs[i]? with
    | none => exact List.prefix_rfl
    | some p =>
      simp only [Option.elim_some]
      rw [(recordJob_intake tp i result p).2]

variable {erange : ℚ → Bool} {store : AccountStore Double} {s t : State} {a : Act} {k i : ℕ}
  {m data : Bytes}

theorem message_eq_some : s.message k i = some m ↔
    ∃ c, s.net.clients[k]? = some c ∧ c.jobs[i]? = some (.queued m) := by
  unfold State.message
  rw [Option.bind_eq_some_iff]
  refine exists_congr fun c => and_congr_right fun _ => ?_
  rw [Option.bind_eq_some_iff]
  constructor
  · rintro ⟨p, hp, h⟩
    split at h
    · cases h
      exact hp
    · cases h
  · intro h
    exact ⟨_, h, rfl⟩

theorem on_start {b : EventLoop.Act} {n : EventLoop.State}
    (h : b.on n = some (k, .start i data)) : b = .start k i data := by
  cases b with
  | start k' i' d =>
    cases h
    rfl
  | accept fd => cases h
  | readable fd =>
    obtain ⟨k', -, he⟩ := Option.map_eq_some_iff.mp h
    cases he
  | recv r =>
    simp only [EventLoop.Act.on] at h
    split at h <;> cases h
  | loop =>
    simp only [EventLoop.Act.on] at h
    split at h <;> cases h
  | job k' i' r => cases h

section Net

variable {b : EventLoop.Act} (hn : EventLoop.machine.step s.net b = some t.net)
  (ht : t.tapes = s.record b)

include hn in
theorem message_step (hinv : EventLoop.Inv s.net) (hm : s.message k i = some m)
    (hb : ∀ data, b ≠ .start k i data) : t.message k i = some m := by
  obtain ⟨c, hc, hi⟩ := message_eq_some.mp hm
  have hlt := (List.getElem?_eq_some_iff.mp hc).1
  obtain ⟨c', hc'⟩ : ∃ c', t.net.clients[k]? = some c' :=
    ⟨_, List.getElem?_eq_getElem (hlt.trans_le (EventLoop.clients_length_le hn))⟩
  refine message_eq_some.mpr ⟨c', hc', ?_⟩
  rcases hinv.view_on hn hc' with ⟨hnone, -⟩ | ⟨d, hd, hv⟩
  · rw [hc] at hnone
    cases hnone
  · rw [hc] at hd
    cases hd
    rcases hv with ⟨-, hv⟩ | ⟨b', hon, hst⟩
    · exact (congrArg (fun v : Server.State => v.jobs[i]?) hv).trans hi
    · exact queued_step hst hi fun data he => hb data (on_start (he ▸ hon))

include ht in
theorem tape_step (k : ℕ) : (s.tapes k).dispatched <+: (t.tapes k).dispatched ∧
    ((t.tapes k).answers = (s.tapes k).answers ∨ ∃ i data, b = .start k i data ∧
      (t.tapes k).answers = (s.tapes k).answers ++ [(i, data)]) := by
  rw [ht]
  by_cases hon : ∃ d, b.on s.net = some (k, d)
  · obtain ⟨d, hon⟩ := hon
    cases hc : s.net.clients[k]? with
    | none =>
      have hsame : s.record b = s.tapes := by simp [State.record, hon, hc]
      rw [hsame]
      exact ⟨List.prefix_rfl, .inl rfl⟩
    | some c =>
      rw [record_of_on hon hc, Function.update_self, record_answers]
      refine ⟨record_dispatched _ _ _, ?_⟩
      cases d with
      | start i data => exact .inr ⟨i, data, on_start hon, rfl⟩
      | _ => exact .inl (List.append_nil _)
  · rw [record_of_ne fun d hd => hon ⟨d, hd⟩]
    exact ⟨List.prefix_rfl, .inl rfl⟩

end Net

theorem answers_start {n : EventLoop.State}
    (hn : EventLoop.machine.step s.net (.start k i data) = some n) :
    (s.record (.start k i data) k).answers = (s.tapes k).answers ++ [(i, data)] := by
  obtain ⟨c, v, hc, -⟩ := EventLoop.onClient_cases hn
  rw [record_of_on (k := k) (d := .start i data) rfl hc, Function.update_self, record_answers]
  rfl

theorem dispatched_of_message (h : (engine erange store).Reachable s) (hm : s.message k i = some m) :
    (s.tapes k).dispatched[i]? = some m ∧ i ∉ (s.tapes k).answers.map Prod.fst := by
  obtain ⟨c, hc, hi⟩ := message_eq_some.mp hm
  exact (spoken_of_reachable ((taped_reachable h k).1 c hc)).answered.queued i m hi

/-! ### The invariant -/

/-- The answer `data` to `rawMsg`: the Reject of what `parseOrder` has found wrong with it, or the
report of the decision in `log` on the order in it, whose id is the one that `job` has drawn. -/
inductive Reply (erange : ℚ → Bool) (log : List (Entry (Order Double) ValidationResult))
    (drawn : List ((ℕ × ℕ) × ℕ)) (job : ℕ × ℕ) (rawMsg : Bytes) : Bytes → Prop
  | reject (reason : Bytes) (next next' : ℕ)
      (h : parseOrder erange next rawMsg = .ok (.error reason, next')) :
      Reply erange log drawn job rawMsg (buildMessage (rejectBody reason))
  | report (e : Entry (Order Double) ValidationResult) (next' : ℕ) (he : e ∈ log)
      (hd : (job, e.arg.orderId) ∈ drawn)
      (h : parseOrder erange e.arg.orderId rawMsg = .ok (.ok e.arg, next')) :
      Reply erange log drawn job rawMsg (buildMessage (reportBody e.result))

theorem Reply.mono {log log' : List (Entry (Order Double) ValidationResult)}
    {drawn drawn' : List ((ℕ × ℕ) × ℕ)} {job : ℕ × ℕ} (h : Reply erange log drawn job m data)
    (hl : log <+: log') (hd : drawn <+: drawn') : Reply erange log' drawn' job m data := by
  cases h with
  | reject reason next next' h => exact .reject reason next next' h
  | report e next' he hdr h => exact .report e next' (hl.subset he) (hd.subset hdr) h

theorem getElem?_of_isPrefix {α : Type*} {l l' : List α} {x : α} {i : ℕ} (h : l <+: l')
    (hi : l[i]? = some x) : l'[i]? = some x := by
  obtain ⟨t, rfl⟩ := h
  exact (List.getElem?_append_left (List.getElem?_eq_some_iff.mp hi).1).trans hi

/-- What holds between the parts in every run. -/
structure Linked (erange : ℚ → Bool) (s : State) : Prop where
  /-- A job inside `validate` is there with its message's order. -/
  working : ∀ k i id, (s.risk.pc (k, i)).place.id? = some id → ∃ m o next',
    s.message k i = some m ∧ Event.call id o ∈ s.risk.hist ∧
      parseOrder erange o.orderId m = .ok (.ok o, next') ∧ ((k, i), o.orderId) ∈ s.drawn
  answered : ∀ k i data, (i, data) ∈ (s.tapes k).answers → ∃ m,
    (s.tapes k).dispatched[i]? = some m ∧ Reply erange s.risk.log s.drawn (k, i) m data
  drawn : ∀ k i, (k, i) ∈ s.drawn.map Prod.fst →
    (s.risk.pc (k, i)).place.id? ≠ none ∨ i ∈ (s.tapes k).answers.map Prod.fst
  once : (s.drawn.map Prod.fst).Nodup
  ids : s.drawn.map Prod.snd = (List.range s.drawn.length).map fun j => sizeT (1 + j)
  next : s.nextOrderId = sizeT (1 + s.drawn.length)
  /-- The orders were called for in the order of their ids. -/
  calls : ((calls s.risk.hist).map fun c => c.2.orderId).Sublist (s.drawn.map Prod.snd)
  /-- No order is made up. -/
  source : ∀ id o, Event.call id o ∈ s.risk.hist → ∃ k i m next',
    (s.tapes k).dispatched[i]? = some m ∧ parseOrder erange o.orderId m = .ok (.ok o, next') ∧
      ((k, i), o.orderId) ∈ s.drawn

theorem Linked.init (h : (engine erange store).init s) : Linked erange s := by
  obtain rfl : s = _ := h
  exact ⟨nofun, nofun, nofun, List.nodup_nil, rfl,
    (by decide : (1 : ℕ) = sizeT (1 + 0)), .slnil, nofun⟩

theorem call_unique {hist : List (Event (Order Double) ValidationResult)} {id : ℕ}
    {o o' : Order Double} (h : ((calls hist).map Prod.fst).Nodup) (ho : Event.call id o ∈ hist)
    (ho' : Event.call id o' ∈ hist) : o = o' :=
  congrArg Prod.snd (List.inj_on_of_nodup_map h (mem_calls.mpr ho) (mem_calls.mpr ho') rfl)

section Draw

variable {next : ℕ} {raw : Bytes} {res : Except Bytes (Order Double)}

theorem drawn_draw (s : State) (job : ℕ × ℕ) (next : ℕ) : s.drawn <+: (s.draw job next).drawn := by
  unfold State.draw
  dsimp only
  split
  · exact List.prefix_rfl
  · exact List.prefix_append _ _

theorem mem_drawn_draw {job job' : ℕ × ℕ} (h : job' ∈ (s.draw job next).drawn.map Prod.fst) :
    job' ∈ s.drawn.map Prod.fst ∨ job' = job := by
  unfold State.draw at h
  dsimp only at h
  split at h
  · exact .inl h
  · simpa using h

/-- A job draws at most once, and the ids come one after the other. -/
theorem Linked.draw (h : Linked erange s) {job : ℕ × ℕ} (hnew : job ∉ s.drawn.map Prod.fst)
    (hp : parseOrder erange s.nextOrderId raw = .ok (res, next)) :
    ((s.draw job next).drawn.map Prod.fst).Nodup ∧
      (s.draw job next).drawn.map Prod.snd =
        ((List.range (s.draw job next).drawn.length).map fun j => sizeT (1 + j)) ∧
      next = sizeT (1 + (s.draw job next).drawn.length) := by
  rcases parseOrder_next hp with rfl | rfl
  · have hd : (s.draw job s.nextOrderId).drawn = s.drawn := if_pos rfl
    rw [hd]
    exact ⟨h.once, h.ids, h.next⟩
  · have hd : (s.draw job (sizeT (s.nextOrderId + 1))).drawn = s.drawn ++ [(job, s.nextOrderId)] :=
      if_neg (sizeT_succ_ne _)
    rw [hd]
    refine ⟨?_, ?_, ?_⟩
    · rw [List.map_append, List.map_singleton, List.nodup_append]
      refine ⟨h.once, List.nodup_singleton _, fun a ha b hb => ?_⟩
      rw [List.mem_singleton] at hb
      rw [hb]
      exact ne_of_mem_of_not_mem ha hnew
    · rw [List.map_append, h.ids, List.length_append, List.length_singleton, List.range_succ,
        List.map_append, List.map_singleton, List.map_singleton, h.next]
    · rw [List.length_append, List.length_singleton, h.next]
      unfold sizeT
      omega

end Draw

theorem Linked.not_drawn (h : Linked erange s) (hr : (engine erange store).Reachable s)
    (hm : s.message k i = some m) (hpc : s.risk.pc (k, i) = .idle) :
    (k, i) ∉ s.drawn.map Prod.fst := by
  intro hd
  rcases h.drawn k i hd with hid | ha
  · rw [hpc] at hid
    exact hid rfl
  · exact (dispatched_of_message hr hm).2 ha

theorem Linked.answered_mono (h : Linked erange s)
    (hd : ∀ k, (s.tapes k).dispatched <+: (t.tapes k).dispatched)
    (ha : ∀ k, (t.tapes k).answers = (s.tapes k).answers) (hl : s.risk.log <+: t.risk.log)
    (hdr : s.drawn <+: t.drawn) {k i : ℕ} {data : Bytes}
    (hmem : (i, data) ∈ (t.tapes k).answers) : ∃ m, (t.tapes k).dispatched[i]? = some m ∧
      Reply erange t.risk.log t.drawn (k, i) m data := by
  rw [ha] at hmem
  obtain ⟨m, hm, hrep⟩ := h.answered k i data hmem
  exact ⟨m, getElem?_of_isPrefix (hd k) hm, hrep.mono hl hdr⟩

theorem Linked.source_mono (h : Linked erange s)
    (hd : ∀ k, (s.tapes k).dispatched <+: (t.tapes k).dispatched) (hdr : s.drawn <+: t.drawn)
    (id : ℕ) (o : Order Double) (hc : Event.call id o ∈ s.risk.hist) : ∃ k i m next',
      (t.tapes k).dispatched[i]? = some m ∧ parseOrder erange o.orderId m = .ok (.ok o, next') ∧
        ((k, i), o.orderId) ∈ t.drawn := by
  obtain ⟨k, i, m, next', hm, hp, hmem⟩ := h.source id o hc
  exact ⟨k, i, m, next', getElem?_of_isPrefix (hd k) hm, hp, hdr.subset hmem⟩

theorem Linked.net {b : EventLoop.Act} {n : EventLoop.State} (h : Linked erange s)
    (hr : (engine erange store).Reachable s) (hb : ∀ k i data, b ≠ .start k i data)
    (hn : EventLoop.machine.step s.net b = some n) :
    Linked erange { s with net := n, tapes := s.record b } := by
  have hinv := EventLoop.inv_of_reachable (net_reachable hr)
  have ht := tape_step (t := { s with net := n, tapes := s.record b }) (b := b) rfl
  have ha : ∀ k, (s.record b k).answers = (s.tapes k).answers := fun k =>
    (ht k).2.resolve_right fun ⟨i, data, he, _⟩ => hb k i data he
  refine ⟨fun k i id hid => ?_, fun k i data hmem => ?_, fun k i hd => ?_, h.once, h.ids, h.next,
    h.calls, h.source_mono (fun k => (ht k).1) List.prefix_rfl⟩
  · obtain ⟨m, o, next', hm, hrest⟩ := h.working k i id hid
    exact ⟨m, o, next', message_step hn hinv hm (hb k i), hrest⟩
  · exact h.answered_mono (fun k => (ht k).1) ha List.prefix_rfl List.prefix_rfl hmem
  · rw [ha]
    exact h.drawn k i hd

/-- A job gets its answer: `t` is the state behind it. -/
theorem Linked.start (h : Linked erange s) (hr : (engine erange store).Reachable s)
    (hm : s.message k i = some m) (hn : EventLoop.machine.step s.net (.start k i data) = some t.net)
    (ht : t.tapes = s.record (.start k i data))
    (hpc : ∀ job, job ≠ (k, i) → t.risk.pc job = s.risk.pc job)
    (hidle : t.risk.pc (k, i) = .idle) (hhist : s.risk.hist <+: t.risk.hist)
    (hlog : t.risk.log = s.risk.log) (hdrawn : s.drawn <+: t.drawn)
    (hnew : ∀ job ∈ t.drawn.map Prod.fst, job ∈ s.drawn.map Prod.fst ∨ job = (k, i))
    (hrep : Reply erange t.risk.log t.drawn (k, i) m data) :
    (∀ k' i' id, (t.risk.pc (k', i')).place.id? = some id → ∃ m o next',
      t.message k' i' = some m ∧ Event.call id o ∈ t.risk.hist ∧
        parseOrder erange o.orderId m = .ok (.ok o, next') ∧ ((k', i'), o.orderId) ∈ t.drawn) ∧
    (∀ k' i' d, (i', d) ∈ (t.tapes k').answers → ∃ m,
      (t.tapes k').dispatched[i']? = some m ∧ Reply erange t.risk.log t.drawn (k', i') m d) ∧
    ∀ k' i', (k', i') ∈ t.drawn.map Prod.fst →
      (t.risk.pc (k', i')).place.id? ≠ none ∨ i' ∈ (t.tapes k').answers.map Prod.fst := by
  have hinv := EventLoop.inv_of_reachable (net_reachable hr)
  have hstep := tape_step (t := t) ht
  have hdisp := (dispatched_of_message hr hm).1
  have hmine : (t.tapes k).answers = (s.tapes k).answers ++ [(i, data)] := by
    rw [ht]
    exact answers_start hn
  refine ⟨fun k' i' id hid => ?_, fun k' i' d hmem => ?_, fun k' i' hd => ?_⟩
  · have hne : (k', i') ≠ (k, i) := by
      intro he
      rw [he, hidle] at hid
      cases hid
    rw [hpc _ hne] at hid
    obtain ⟨m', o, next', hm', hc, hp, hd⟩ := h.working k' i' id hid
    refine ⟨m', o, next', message_step hn hinv hm' fun d he => hne ?_, hhist.subset hc, hp,
      hdrawn.subset hd⟩
    cases he
    rfl
  · rcases (hstep k').2 with ha | ⟨j, d', he, ha⟩
    · rw [ha] at hmem
      obtain ⟨m', hm', hrep'⟩ := h.answered k' i' d hmem
      exact ⟨m', getElem?_of_isPrefix (hstep k').1 hm', hrep'.mono (hlog ▸ List.prefix_rfl) hdrawn⟩
    · cases he
      rw [ha, List.mem_append, List.mem_singleton] at hmem
      rcases hmem with hmem | hmem
      · obtain ⟨m', hm', hrep'⟩ := h.answered k i' d hmem
        exact ⟨m', getElem?_of_isPrefix (hstep k).1 hm',
          hrep'.mono (hlog ▸ List.prefix_rfl) hdrawn⟩
      · cases hmem
        exact ⟨m, getElem?_of_isPrefix (hstep k).1 hdisp, hrep⟩
  · by_cases hme : (k', i') = (k, i)
    · cases hme
      rw [hmine]
      exact .inr (by simp)
    · rw [hpc _ hme]
      refine (h.drawn k' i' ((hnew _ hd).resolve_right hme)).imp_right fun hans => ?_
      rcases (hstep k').2 with ha | ⟨j, d', -, ha⟩ <;> rw [ha]
      · exact hans
      · rw [List.map_append]
        exact List.mem_append_left _ hans

theorem Linked.reject {reason : Bytes} {next : ℕ} {n : EventLoop.State} (h : Linked erange s)
    (hr : (engine erange store).Reachable s) (hm : s.message k i = some m)
    (hpc : s.risk.pc (k, i) = .idle)
    (hp : parseOrder erange s.nextOrderId m = .ok (.error reason, next))
    (hn : EventLoop.machine.step s.net (.start k i (buildMessage (rejectBody reason))) = some n) :
    Linked erange { s.draw (k, i) next with
      net := n
      tapes := s.record (.start k i (buildMessage (rejectBody reason))) } := by
  obtain ⟨honce, hids, hnext⟩ := h.draw (h.not_drawn hr hm hpc) hp
  have hgrow := drawn_draw s (k, i) next
  obtain ⟨hw, ha, hd⟩ := h.start (t := { s.draw (k, i) next with
      net := n
      tapes := s.record (.start k i (buildMessage (rejectBody reason))) })
    hr hm hn rfl (fun _ _ => rfl) hpc List.prefix_rfl rfl hgrow (fun _ hj => mem_drawn_draw hj)
    (.reject reason _ _ hp)
  exact ⟨hw, ha, hd, honce, hids, hnext, h.calls.trans (hgrow.sublist.map _),
    h.source_mono (fun j => (tape_step (t := { s.draw (k, i) next with
      net := n
      tapes := s.record (.start k i (buildMessage (rejectBody reason))) })
      (b := .start k i (buildMessage (rejectBody reason))) rfl j).1) hgrow⟩

theorem Linked.call {o : Order Double} {next : ℕ} {r : Risk.State (ℕ × ℕ) Double}
    (h : Linked erange s) (hr : (engine erange store).Reachable s) (hm : s.message k i = some m)
    (hpc : s.risk.pc (k, i) = .idle)
    (hp : parseOrder erange s.nextOrderId m = .ok (.ok o, next))
    (hs : (Risk.machine (ℕ × ℕ) store).step s.risk (.call (k, i) o) = some r) :
    Linked erange { s.draw (k, i) next with risk := r } := by
  obtain ⟨hid, hne⟩ := parseOrder_orderId hp
  have hnew := h.not_drawn hr hm hpc
  obtain ⟨honce, hids, hnext⟩ := h.draw hnew hp
  have hd : (s.draw (k, i) next).drawn = s.drawn ++ [((k, i), s.nextOrderId)] :=
    if_neg (hne ▸ sizeT_succ_ne _)
  have hrisk : r = { s.risk with
      pc := Function.update s.risk.pc (k, i) (.checks s.risk.hist.length o)
      hist := s.risk.hist ++ [.call s.risk.hist.length o] } := by
    simp only [Risk.machine, hpc] at hs
    exact (Option.some.inj hs).symm
  subst hrisk
  refine ⟨fun k' i' id hid' => ?_, fun k' i' data hmem => ?_, fun k' i' hmem => ?_, honce, hids,
    hnext, ?_, fun id o' hc => ?_⟩
  · dsimp only at hid'
    rw [hd]
    by_cases hme : (k', i') = (k, i)
    · cases hme
      rw [Function.update_self] at hid'
      cases hid'
      exact ⟨m, o, next, hm, by simp, hid ▸ hp, by simp [hid]⟩
    · rw [Function.update_of_ne hme] at hid'
      obtain ⟨m', o', next', hm', hc, hp', hd'⟩ := h.working k' i' id hid'
      exact ⟨m', o', next', hm', List.mem_append_left _ hc, hp', List.mem_append_left _ hd'⟩
  · exact h.answered_mono (t := { s.draw (k, i) next with risk := _ }) (fun _ => List.prefix_rfl)
      (fun _ => rfl) List.prefix_rfl (drawn_draw s (k, i) next) hmem
  · dsimp only
    by_cases hme : (k', i') = (k, i)
    · cases hme
      rw [Function.update_self]
      exact .inl fun hid => by cases hid
    · rw [Function.update_of_ne hme]
      exact h.drawn k' i' ((mem_drawn_draw hmem).resolve_right hme)
  · have hcalls : Lib.calls (s.risk.hist ++ [.call s.risk.hist.length o]) =
        Lib.calls s.risk.hist ++ [(s.risk.hist.length, o)] := List.filterMap_append ..
    dsimp only
    rw [hd, hcalls, List.map_append, List.map_append, List.map_singleton, List.map_singleton, hid]
    exact h.calls.append (List.Sublist.refl _)
  · rcases List.mem_append.mp hc with hc | hc
    · exact h.source_mono (t := { s.draw (k, i) next with risk := _ }) (fun _ => List.prefix_rfl)
        (drawn_draw s (k, i) next) id o' hc
    · -- the new one
      cases List.mem_singleton.mp hc
      refine ⟨k, i, m, next, (dispatched_of_message hr hm).1, hid ▸ hp, ?_⟩
      dsimp only
      rw [hd, hid]
      simp

theorem Linked.validate {spurious : Bool} {r : Risk.State (ℕ × ℕ) Double} (h : Linked erange s)
    (hr : (engine erange store).Reachable s)
    (hs : (Risk.machine (ℕ × ℕ) store).step s.risk (.step (k, i) spurious) = some r) :
    Linked erange { s with risk := r } := by
  have hrisk := Risk.inv_of_reachable (risk_reachable hr)
  obtain ⟨⟨store', p⟩, hstep, rfl⟩ := Option.map_eq_some_iff.mp hs
  have hplace : p.place.id? = (s.risk.pc (k, i)).place.id? := by
    rcases threadStep_cases (hrisk.pcOk (k, i)) hstep with
      ⟨id, o, result, hp, rfl, -, -⟩ | ⟨-, hp, -, -⟩
    · rw [hp]
      rfl
    · rw [hp]
  have hid : ∀ job, (Function.update s.risk.pc (k, i) p job).place.id? =
      (s.risk.pc job).place.id? := by
    intro job
    by_cases hme : job = (k, i)
    · rw [hme, Function.update_self, hplace]
    · rw [Function.update_of_ne hme]
  refine ⟨fun k' i' id hid' => ?_, fun k' i' data hmem => ?_, fun k' i' hmem => ?_, h.once, h.ids,
    h.next, h.calls, h.source⟩
  · exact h.working k' i' id ((hid _).symm.trans hid')
  · exact h.answered_mono (t := { s with risk := ⟨store', Function.update s.risk.pc (k, i) p,
        s.risk.hist, s.risk.log ++ decided (s.risk.pc (k, i)) p⟩ })
      (fun _ => List.prefix_rfl) (fun _ => rfl) (List.prefix_append _ _) List.prefix_rfl hmem
  · dsimp only
    rw [hid]
    exact h.drawn k' i' hmem

theorem Linked.report {id : ℕ} {result : ValidationResult} {r : Risk.State (ℕ × ℕ) Double}
    {n : EventLoop.State} (h : Linked erange s) (hr : (engine erange store).Reachable s)
    (hpc : s.risk.pc (k, i) = .returned id result)
    (hs : (Risk.machine (ℕ × ℕ) store).step s.risk (.ret (k, i)) = some r)
    (hn : EventLoop.machine.step s.net (.start k i (buildMessage (reportBody result))) = some n) :
    Linked erange { s with
      net := n
      tapes := s.record (.start k i (buildMessage (reportBody result)))
      risk := r } := by
  have hrisk : r = { s.risk with
      pc := Function.update s.risk.pc (k, i) .idle
      hist := s.risk.hist ++ [.ret id result] } := by
    simp only [Risk.machine, hpc] at hs
    exact (Option.some.inj hs).symm
  subst hrisk
  obtain ⟨m, o, next, hm, hc, hp, hdr⟩ := h.working k i id (by rw [hpc]; rfl)
  have hlog := (Risk.inv_of_reachable (risk_reachable hr)).logged
  obtain ⟨-, e, he, hid, rfl⟩ := hlog.decided (k, i) id result (by rw [Function.comp_apply, hpc]; rfl)
  obtain rfl : e.arg = o := by
    have hce := hlog.recorded.called e he
    rw [hid] at hce
    exact call_unique hlog.calls hce hc
  obtain ⟨hw, ha, hd⟩ := h.start (t := { s with
      net := n
      tapes := s.record (.start k i (buildMessage (reportBody e.result)))
      risk := { s.risk with
        pc := Function.update s.risk.pc (k, i) .idle
        hist := s.risk.hist ++ [.ret id e.result] } })
    hr hm hn rfl (fun job hne => Function.update_of_ne hne ..) (Function.update_self ..)
    (List.prefix_append _ _) rfl List.prefix_rfl (fun _ hj => .inl hj) (.report e next he hdr hp)
  refine ⟨hw, ha, hd, h.once, h.ids, h.next, ?_, fun id' o hc' => ?_⟩
  · have hcalls : Lib.calls (s.risk.hist ++ [.ret id e.result]) = Lib.calls s.risk.hist :=
      (List.filterMap_append ..).trans (List.append_nil _)
    dsimp only
    rw [hcalls]
    exact h.calls
  · have hold : Event.call id' o ∈ s.risk.hist := by simpa using hc'
    exact h.source_mono (t := { s with
      net := n
      tapes := s.record (.start k i (buildMessage (reportBody e.result)))
      risk := _ })
      (fun j => (tape_step (b := .start k i (buildMessage (reportBody e.result))) rfl j).1)
      List.prefix_rfl id' o hold

theorem linked_of_reachable (h : (engine erange store).Reachable s) : Linked erange s := by
  induction h with
  | init hi => exact .init hi
  | step hr _ hs ih =>
    cases move_of_step hs with
    | net b n hb hn => exact ih.net hr hb hn
    | reject k i m reason next n hm hpc hp hn => exact ih.reject hr hm hpc hp hn
    | call k i m o next r hm hpc hp hrs => exact ih.call hr hm hpc hp hrs
    | validate k i spurious r hrs => exact ih.validate hr hrs
    | report k i id result r n hpc hrs hn => exact ih.report hr hpc hrs hn

/-! ### As if one thread had validated the orders -/

/-- **The answers of the server**: there is one order of the orders in which the plain `validate`
decides them as the server did, with the balances the server has; every answer is the Reject of its
message or the report of its order's decision, and every order that was decided came in a
message. -/
theorem answers_linearize (h : (engine erange store).Reachable s) :
    ∃ order, Linearizes validateOp store s.risk.hist order s.risk.store ∧
      (∀ k i data, (i, data) ∈ (s.tapes k).answers → ∃ m, (s.tapes k).dispatched[i]? = some m ∧
        Reply erange order s.drawn (k, i) m data) ∧
      ∀ e ∈ order, ∃ k i m next, (s.tapes k).dispatched[i]? = some m ∧
        parseOrder erange e.arg.orderId m = .ok (.ok e.arg, next) ∧
          ((k, i), e.arg.orderId) ∈ s.drawn := by
  have hrisk := Risk.inv_of_reachable (risk_reachable h)
  have hl := linked_of_reachable h
  refine ⟨s.risk.log, ⟨hrisk.logged.recorded, hrisk.legal⟩, hl.answered, fun e he => ?_⟩
  exact hl.source e.id e.arg (hrisk.logged.recorded.called e he)

/-! ### The ids -/

theorem Linked.ids_nodup (h : Linked erange s) (hlen : s.drawn.length ≤ 2 ^ 64) :
    (s.drawn.map Prod.snd).Nodup := by
  rw [h.ids]
  refine List.Nodup.map_on (fun i hi j hj he => ?_) List.nodup_range
  rw [List.mem_range] at hi hj
  unfold sizeT at he
  omega

theorem exists_validate {l : List (Entry (Order Double) ValidationResult)}
    {st st' : AccountStore Double} (h : Legal validateOp st l st')
    {e : Entry (Order Double) ValidationResult} (he : e ∈ l) :
    ∃ st₁, e.result = (validate st₁ e.arg).1 := by
  induction h with
  | nil => cases he
  | @cons st st₁ st' f l hf hs ih =>
    rcases List.mem_cons.mp he with rfl | he
    · exact ⟨st, (congrArg Prod.fst (Option.some.inj hf)).symm⟩
    · exact ih he

theorem decimal_injective {m n : ℕ} (h : decimal m = decimal n) : m = n := by
  rw [← readDigits_decimal m, h, readDigits_decimal]

theorem drawn_of_report (h : (engine erange store).Reachable s)
    (ha : (i, data) ∈ (s.tapes k).answers) (hd : splitFields data 35 = some (txt "8")) :
    ∃ id, splitFields data 37 = some (decimal id) ∧ ((k, i), id) ∈ s.drawn := by
  obtain ⟨m, -, hrep⟩ := (linked_of_reachable h).answered k i data ha
  cases hrep with
  | reject reason next next' hp =>
    have hr : SOH ∉ reason := by
      rcases parseOrder_cases erange next m with ⟨-, h'⟩ | ⟨-, -, h'⟩ | ⟨-, next', h'⟩ | ⟨-, o, h'⟩ <;>
        rw [hp] at h' <;> cases h' <;> decide
    rw [(readsReject hr).msgType] at hd
    exact absurd hd (by decide)
  | report e next' he hmem hp =>
    obtain ⟨st, hst⟩ := exists_validate (Risk.inv_of_reachable (risk_reachable h)).legal he
    refine ⟨e.arg.orderId, ?_, hmem⟩
    rw [hst, (readsReport (soh_notMem_reason st e.arg)).orderId, (validate_ids st e.arg).1]

/-- **No order id is used twice**, as long as at most `2 ^ 64` have been drawn: not by two jobs, not
by two calls of `validate`, and no two ExecutionReports on any connections carry the same one. -/
theorem orderIds_unique (h : (engine erange store).Reachable s) (hlen : s.drawn.length ≤ 2 ^ 64) :
    (s.drawn.map Prod.fst).Nodup ∧ (s.drawn.map Prod.snd).Nodup ∧
      ((calls s.risk.hist).map fun c => c.2.orderId).Nodup ∧
      ∀ k i data k' i' data', (i, data) ∈ (s.tapes k).answers → (i', data') ∈ (s.tapes k').answers →
        splitFields data 35 = some (txt "8") → splitFields data' 35 = some (txt "8") →
        splitFields data 37 = splitFields data' 37 → (k, i) = (k', i') := by
  have hl := linked_of_reachable h
  have hids := hl.ids_nodup hlen
  refine ⟨hl.once, hids, hl.calls.nodup hids, fun k i data k' i' data' ha ha' hd hd' he => ?_⟩
  obtain ⟨id, hid, hmem⟩ := drawn_of_report h ha hd
  obtain ⟨id', hid', hmem'⟩ := drawn_of_report h ha' hd'
  rw [hid, hid'] at he
  obtain rfl := decimal_injective (Option.some.inj he)
  exact congrArg Prod.fst (List.inj_on_of_nodup_map hids hmem hmem' rfl)

/-! ### Two connections, one balance -/

def fresh (store : AccountStore Double) : State :=
  ⟨⟨[], fun _ => none, .epollWait⟩, fun _ => .blank, 1, ⟨store, fun _ => .idle, [], []⟩, []⟩

def arrives (fd : ℕ) (rawMsg : Bytes) : List Act :=
  [.net (.accept fd), .net .loop, .net (.readable fd), .net (.recv (.data rawMsg)),
    .net (.recv .again), .net .loop, .net .loop, .net .loop, .net .loop]

/-- Two clients buy for 6000 on the account that holds 10000; the second to draw an id is the first
to debit. -/
def race : List Act :=
  arrives 5 (buildMessage (buyBody "6000.0")) ++ arrives 6 (buildMessage (buyBody "6000.0")) ++
    [.parse 1 0, .parse 0 0, .validate 0 0 false, .validate 1 0 false, .validate 0 0 false,
      .validate 1 0 false, .validate 0 0 false, .validate 1 0 false, .answer 1 0, .answer 0 0]

def raceStore : AccountStore Double := AccountStore.empty.setBalance 1 (.fin 10000)

def raceAnswers : List (ℕ × Bytes) × List (ℕ × Bytes) :=
  ([(0, buildMessage (reportBody ⟨2, 1, true, []⟩))],
    [(0, buildMessage (reportBody ⟨1, 1, false, txt "insufficient_balance"⟩))])

theorem exists_race : ∃ s, (engine (fun _ => false) raceStore).exec (fresh raceStore) race = some s ∧
    ((s.tapes 0).answers, (s.tapes 1).answers) = raceAnswers ∧ s.drawn.length = 2 := by
  have h : ((engine (fun _ => false) raceStore).exec (fresh raceStore) race).map
      (fun s => (((s.tapes 0).answers, (s.tapes 1).answers), s.drawn.length)) =
      some (raceAnswers, 2) := by decide +kernel
  obtain ⟨s, hs, hv⟩ := Option.map_eq_some_iff.mp h
  exact ⟨s, hs, congrArg Prod.fst hv, congrArg Prod.snd hv⟩

theorem answers_linearize_race :
    ∃ s, (engine (fun _ => false) raceStore).exec (fresh raceStore) race = some s ∧
      ((s.tapes 0).answers, (s.tapes 1).answers) = raceAnswers ∧
      ∃ order, Linearizes validateOp raceStore s.risk.hist order s.risk.store ∧
        (∀ k i data, (i, data) ∈ (s.tapes k).answers → ∃ m, (s.tapes k).dispatched[i]? = some m ∧
          Reply (fun _ => false) order s.drawn (k, i) m data) ∧
        ∀ e ∈ order, ∃ k i m next, (s.tapes k).dispatched[i]? = some m ∧
          parseOrder (fun _ => false) e.arg.orderId m = .ok (.ok e.arg, next) ∧
            ((k, i), e.arg.orderId) ∈ s.drawn := by
  obtain ⟨s, hs, ha, -⟩ := exists_race
  exact ⟨s, hs, ha, answers_linearize (.of_exec rfl hs)⟩

theorem orderIds_unique_race :
    ∃ s, (engine (fun _ => false) raceStore).exec (fresh raceStore) race = some s ∧
      ((s.tapes 0).answers, (s.tapes 1).answers) = raceAnswers ∧
      (s.drawn.map Prod.snd).Nodup := by
  obtain ⟨s, hs, ha, hlen⟩ := exists_race
  exact ⟨s, hs, ha, (orderIds_unique (.of_exec rfl hs) (by rw [hlen]; norm_num)).2.1⟩

end OrderRisk.Server.Engine
