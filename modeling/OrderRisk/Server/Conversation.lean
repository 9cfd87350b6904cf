import OrderRisk.Server.Funds
import OrderRisk.Server.Output

/-!
# A connection from one end of the wire to the other

Where nothing goes wrong on the wire (`Smooth`), a connection that has come to rest has answered
every message: the peer that takes messages off what it was sent, the way the server does, gets one
complete answer for each message it has sent, and nothing else (`conversation`).
-/

namespace OrderRisk.Server

open OrderRisk.Lib OrderRisk.Fix OrderRisk.Account OrderRisk.Risk

/-- A step at which nothing goes wrong on the wire: the end of the stream is announced where it does
no harm, and `::send` takes something. -/
structure Smooth (p : State × Tape) (a : Act) : Prop where
  harmless : AnnouncesHarmlessly p.1 a
  sends : ∀ i, a = .job i none → ∀ data sent, p.1.jobs[i]? ≠ some (.send data sent)

/-- The event loop is through with what it has read, and every job has returned. -/
structure Quiet (s : State) : Prop where
  loop : s.loop.through = true
  jobs : ∀ p ∈ s.jobs, p.isDone = true

/-! ### Nothing is lost -/

theorem cut_step {p p' : State × Tape} {a : Act} (hs : tapedMachine.step p a = some p')
    (hsm : Smooth p a) : p'.2.cut = p.2.cut := by
  rw [(taped_step hs).2]
  cases a with
  | readable => rfl
  | recv r => cases r <;> rfl
  | loop =>
    simp only [Tape.record, Tape.recordLoop]
    split <;> rfl
  | start i data => rfl
  | job i result =>
    simp only [Tape.record]
    cases hj : p.1.jobs[i]? with
    | none => rfl
    | some q =>
      simp only [Option.elim_some, Tape.recordJob]
      split
      · rfl
      · next data sent => exact (hsm.sends i rfl data sent hj).elim
      · rfl

theorem uncut_of_within {p : State × Tape} (h : tapedMachine.Within Smooth p) : p.2.cut = [] := by
  refine h.invariant (P := fun p => p.2.cut = []) ?_ ?_
  · rintro ⟨s, tp⟩ ⟨-, rfl⟩
    rfl
  · intro p a p' hp hsm hs
    rw [cut_step hs hsm]
    exact hp

theorem within_of_taped {p : State × Tape} (h : tapedMachine.Within Smooth p) :
    machine.Within AnnouncesHarmlessly p.1 := by
  induction h with
  | init hi => exact .init hi.1
  | step _ hsm hs ih => exact .step ih hsm.harmless (taped_step hs).1

theorem answered_at_rest {p : State × Tape} (h : tapedMachine.Within Smooth p) (hq : Quiet p.1) :
    (p.2.answers.map Prod.fst).Perm (List.range p.2.dispatched.length) := by
  obtain ⟨-, hans, -⟩ := spoken_of_reachable h.reachable
  refine (List.perm_ext_iff_of_nodup hans.nodup List.nodup_range).mpr fun i => ?_
  rw [List.mem_range, ← hans.length]
  constructor
  · intro hi
    obtain ⟨a, ha, rfl⟩ := List.mem_map.mp hi
    exact hans.job a ha
  · intro hi
    have hdone := hq.jobs _ (List.getElem_mem hi)
    refine hans.started i _ (List.getElem?_eq_getElem hi) ?_
    cases hp : p.1.jobs[i] with
    | queued m =>
      rw [hp] at hdone
      cases hdone
    | _ => rfl

/-- .. and the output is made of the answers. -/
theorem output_at_rest {p : State × Tape} (h : tapedMachine.Within Smooth p) (hq : Quiet p.1) :
    ∃ replies : List (ℕ × Bytes), replies.Perm p.2.answers ∧
      p.2.output = (replies.map Prod.snd).flatten := by
  obtain ⟨-, hans, pieces, hw⟩ := spoken_of_reachable h.reachable
  have hcut := uncut_of_within h
  have hsafe := (calm_of_within (within_of_taped h)).safe
  have hsub : ∀ x ∈ pieces, x ∈ p.2.answers := by
    intro x hx
    rcases hw.whole x hx with hx | hx | ⟨data, sent, hj⟩
    · exact hx
    · rw [hcut] at hx
      cases hx
    · cases hq.jobs _ (List.mem_of_getElem? hj)
  refine ⟨pieces, ?_, hw.output⟩
  refine (List.perm_ext_iff_of_nodup (.of_map _ hw.nodup) (.of_map _ hans.nodup)).mpr fun a =>
    ⟨hsub a, fun ha => ?_⟩
  -- the job of `a` got to `::send`, so it has a piece
  have hlt := hans.job a ha
  have hjob := List.getElem?_eq_getElem hlt
  have hmem := List.getElem_mem hlt
  have hdone := hq.jobs _ hmem
  have hkept := hsafe.kept _ hmem
  have hbegun : p.1.jobs[a.1].begun = true := by
    cases hp : p.1.jobs[a.1] with
    | done handed =>
      rw [hp] at hkept
      simpa [JobPc.lost, JobPc.begun] using hkept
    | _ =>
      rw [hp] at hdone
      cases hdone
  obtain ⟨x, hx, he⟩ := List.mem_map.mp ((hw.begun a.1 _ hjob).mpr hbegun)
  rwa [← List.inj_on_of_nodup_map hans.nodup (hsub x hx) ha he]

/-- What has been dispatched by the time the event loop is through is what the extract loop takes
off the stream. -/
theorem Intake.extractLoop_received {s : State} {tp : Tape} (h : Intake s tp)
    (hl : s.loop.through = true) {fuel : ℕ} (hf : tp.dispatched.length < fuel) :
    extractLoop fuel tp.received = .ok (some (tp.dispatched, s.conn.recvBuffer)) := by
  have he := h.extracts
  have hnone : s.loop.inHand = [] := by
    cases hp : s.loop with
    | wait => rfl
    | finalize f => rfl
    | _ =>
      rw [hp] at hl
      cases hl
  rw [hnone, List.append_nil] at he
  rw [extractLoop_eq]
  exact congrArg Except.ok
    (Framing.drain_of_comes (extracts_iff_comes.mp he) (h.drained hl) fuel hf)

namespace Engine

/-! ### The answers are messages -/

theorem length_rejectBody {reason : Bytes} (h : reason.length ≤ 20) :
    (rejectBody reason).length < 2 ^ 63 := by
  have h1 : (txt "35=3").length = 4 := rfl
  have h2 : (txt "58=").length = 3 := rfl
  simp only [rejectBody, List.length_append, List.length_singleton, h1, h2]
  omega

theorem length_reportBody {r : ValidationResult} (hid : r.orderId < 2 ^ 64)
    (h : r.reason.length ≤ 20) : (reportBody r).length < 2 ^ 63 := by
  have h1 : (txt "35=8").length = 4 := rfl
  have h2 : (txt "37=").length = 3 := rfl
  have h3 : (txt "39=0").length = 4 := rfl
  have h4 : (txt "39=8").length = 4 := rfl
  have h5 : (txt "58=").length = 3 := rfl
  have hd := length_decimal_le (k := 20) (by norm_num) (hid.trans (by norm_num))
  unfold reportBody
  split_ifs <;> simp only [List.length_append, List.length_singleton, h1, h2, h3, h4, h5] <;> omega

variable {erange : ℚ → Bool} {store : AccountStore Double} {s : State} {k : ℕ}

/-- An answer is a message with a short body. -/
theorem exists_body (h : (engine erange store).Reachable s) {i : ℕ} {data : Bytes}
    (ha : (i, data) ∈ (s.tapes k).answers) :
    ∃ body : Bytes, body.length < 2 ^ 63 ∧ data = buildMessage body := by
  have hl := linked_of_reachable h
  obtain ⟨m, -, hrep⟩ := hl.answered k i data ha
  cases hrep with
  | reject reason next next' hp =>
    refine ⟨_, length_rejectBody ?_, rfl⟩
    rcases parseOrder_cases erange next m with ⟨-, h'⟩ | ⟨-, -, h'⟩ | ⟨-, next', h'⟩ | ⟨-, o, h'⟩ <;>
      rw [hp] at h' <;> cases h' <;> decide
  | report e next' he hmem hp =>
    obtain ⟨st, hst⟩ := exists_validate (Risk.inv_of_reachable (risk_reachable h)).legal he
    refine ⟨_, length_reportBody ?_ ?_, rfl⟩
    · have hid : e.arg.orderId ∈ s.drawn.map Prod.snd := List.mem_map_of_mem hmem
      rw [hl.ids] at hid
      obtain ⟨j, -, hj⟩ := List.mem_map.mp hid
      rw [hst, (validate_ids st e.arg).1, ← hj]
      exact Nat.mod_lt _ (by norm_num)
    · have hreasons : ∀ r ∈ [[], txt "zero_quantity", txt "invalid_price", txt "unknown_symbol",
          txt "insufficient_balance"], r.length ≤ 20 := by decide
      rw [hst]
      exact hreasons _ (validate_reason st e.arg)

/-- The output of a connection at rest comes apart into its answers. -/
theorem extractLoop_output (h : (engine erange store).Reachable s) {replies : List (ℕ × Bytes)}
    (hperm : replies.Perm (s.tapes k).answers)
    (hout : (s.tapes k).output = (replies.map Prod.snd).flatten) {fuel : ℕ}
    (hf : replies.length < fuel) :
    extractLoop fuel (s.tapes k).output = .ok (some (replies.map Prod.snd, [])) := by
  obtain ⟨bodies, hb, hbodies⟩ : ∃ bodies : List Bytes, (∀ b ∈ bodies, b.length < 2 ^ 63) ∧
      replies.map Prod.snd = bodies.map buildMessage := by
    have hall : ∀ x ∈ replies, ∃ body : Bytes, body.length < 2 ^ 63 ∧ x.2 = buildMessage body :=
      fun x hx => exists_body h (hperm.subset hx)
    choose! f hf using hall
    refine ⟨replies.map fun x => f x, ?_, ?_⟩
    · intro b hb
      obtain ⟨x, hx, rfl⟩ := List.mem_map.mp hb
      exact (hf x hx).1
    · rw [List.map_map]
      exact List.map_congr_left fun x hx => (hf x hx).2
  have hlen := congrArg List.length hbodies
  simp only [List.length_map] at hlen
  have hex := extractLoop_whole (r := []) hb (.inl rfl) (hlen ▸ hf : bodies.length < fuel)
  rw [List.append_nil, ← hbodies, ← hout] at hex
  exact hex

/-- What has gone each way on connection `k`: the messages dispatched, down to `rest`, and the
replies to them. -/
structure Exchanged (erange : ℚ → Bool) (s : State) (k : ℕ) (rest : Bytes)
    (replies : List (ℕ × Bytes)) : Prop where
  extracted : ∀ fuel, (s.tapes k).dispatched.length < fuel →
    extractLoop fuel (s.tapes k).received = .ok (some ((s.tapes k).dispatched, rest)) ∧
    extractLoop fuel (s.tapes k).output = .ok (some (replies.map Prod.snd, []))
  each : (replies.map Prod.fst).Perm (List.range (s.tapes k).dispatched.length)
  reply : ∀ i data, (i, data) ∈ replies → ∃ m, (s.tapes k).dispatched[i]? = some m ∧
    Reply erange s.risk.log s.drawn (k, i) m data

/-- Where nothing goes wrong on the wire, a connection at rest has answered everything. -/
theorem exchanged_at_rest {c : EventLoop.Client}
    (h : (engine erange store).Within (OnClient Smooth k) s) (hc : s.net.clients[k]? = some c)
    (hq : Quiet (s.net.view k c)) : ∃ replies, Exchanged erange s k c.conn.recvBuffer replies := by
  have hsm : ∀ p i data, Smooth p (.start i data) := fun _ _ _ => ⟨fun _ => nofun, nofun⟩
  have hw := (taped_within hsm h).1 c hc
  obtain ⟨replies, hperm, hout⟩ := output_at_rest hw hq
  have heach := (hperm.map Prod.fst).trans (answered_at_rest hw hq)
  have hlen := heach.length_eq
  rw [List.length_map, List.length_range] at hlen
  exact ⟨replies, fun fuel hf => ⟨(intake_of_reachable hw.reachable).extractLoop_received hq.loop hf,
    extractLoop_output h.reachable hperm hout (hlen ▸ hf)⟩, heach, fun i data hmem =>
      (linked_of_reachable h.reachable).answered k i data (hperm.subset hmem)⟩

theorem drained_of_through {c : EventLoop.Client} (h : (engine erange store).Reachable s)
    (hc : s.net.clients[k]? = some c) (hl : (s.net.loop.at k).through = true) :
    tryExtractMessage c.conn.recvBuffer = .ok (none, c.conn.recvBuffer) := by
  have hnone : nextMessage c.conn.recvBuffer = none :=
    (intake_of_reachable ((taped_reachable h k).1 c hc)).drained hl
  rw [tryExtractMessage_eq]
  simp only [nextMessage] at hnone
  rw [hnone]

/-- **One complete answer for each message.**  In every run in which nothing goes wrong on the wire
of connection `k`, whatever the other connections and all the jobs do: when the connection is at
rest, the peer that takes messages off its input gets the answers to the messages that come off its
own stream, in some order, each once and complete, and no byte more. -/
theorem conversation {c : EventLoop.Client} (h : (engine erange store).Within (OnClient Smooth k) s)
    (hc : s.net.clients[k]? = some c) (hq : Quiet (s.net.view k c)) :
    ∃ (messages : List Bytes) (replies : List (ℕ × Bytes)),
      (∀ fuel, messages.length < fuel →
        extractLoop fuel (s.tapes k).received = .ok (some (messages, c.conn.recvBuffer)) ∧
        extractLoop fuel (s.tapes k).output = .ok (some (replies.map Prod.snd, []))) ∧
      (replies.map Prod.fst).Perm (List.range messages.length) ∧
      ∀ i data, (i, data) ∈ replies → ∃ m, messages[i]? = some m ∧
        Reply erange s.risk.log s.drawn (k, i) m data := by
  obtain ⟨replies, he⟩ := exchanged_at_rest h hc hq
  exact ⟨_, replies, he.extracted, he.each, he.reply⟩

/-! ### Two clients to the end -/

/-- A test for the steps that are smooth for connection 0. -/
def smoothly (s : State) : Act → Bool
  | .net a => match a.on s.net, s.net.clients[0]? with
    | some (0, b), some c =>
      (decide ((s.net.view 0 c).loop ≠ .sawEof) ||
        decide (nextMessage c.conn.recvBuffer = none)) &&
      match b with
      | .job i none => (c.jobs[i]?).all fun p => p.text.isNone || decide (p.begun = false)
      | _ => true
    | _, _ => true
  | _ => true

theorem onClient_of_smoothly {a : Act} (h : smoothly s a = true) : OnClient Smooth 0 s a := by
  cases a with
  | net a =>
    intro c b hc hon
    simp only [smoothly, hon, hc, Bool.and_eq_true, Bool.or_eq_true, decide_eq_true_eq] at h
    obtain ⟨hl, hb⟩ := h
    refine ⟨fun hs _ => ?_, fun i hi data sent hj => ?_⟩
    · exact .inl (hl.resolve_left fun hne => hne hs)
    · subst hi
      have hj' : c.jobs[i]? = some (.send data sent) := hj
      simp [hj', JobPc.text, JobPc.begun] at hb
  | _ => trivial

/-- After the race the first client gets its answer, in two pieces, and closes. -/
def farewell : List Act :=
  race ++ [.net (.job 0 0 none), .net (.job 0 0 none), .net (.job 0 0 (some 10)),
    .net (.job 0 0 (some 27)), .net (.job 0 0 none), .net (.job 0 0 none), .net (.job 0 0 none),
    .net (.readable 5), .net (.recv .eof), .net .loop, .net .loop, .net .loop, .net .loop,
    .net .loop, .net .loop, .net .loop, .net .loop]

theorem conversation_farewell :
    ∃ s c, (engine (fun _ => false) raceStore).exec (fresh raceStore) farewell = some s ∧
      s.net.clients[0]? = some c ∧ c.conn.closed = true ∧
      ∃ (messages : List Bytes) (replies : List (ℕ × Bytes)),
        (∀ fuel, messages.length < fuel →
          extractLoop fuel (s.tapes 0).received = .ok (some (messages, c.conn.recvBuffer)) ∧
          extractLoop fuel (s.tapes 0).output = .ok (some (replies.map Prod.snd, []))) ∧
        (replies.map Prod.fst).Perm (List.range messages.length) ∧
        ∀ i data, (i, data) ∈ replies → ∃ m, messages[i]? = some m ∧
          Reply (fun _ => false) s.risk.log s.drawn (0, i) m data := by
  have hmeets : (engine (fun _ => false) raceStore).Meets (fun s a => smoothly s a = true)
      (fresh raceStore) farewell := by decide +kernel
  have h : ((engine (fun _ => false) raceStore).exec (fresh raceStore) farewell).bind
      (fun s => (s.net.clients[0]?).map fun c => (c.conn.closed, (s.net.view 0 c).loop.through,
        c.jobs.all JobPc.isDone)) = some (true, true, true) := by decide +kernel
  obtain ⟨s, hs, h⟩ := Option.bind_eq_some_iff.mp h
  obtain ⟨c, hc, h⟩ := Option.map_eq_some_iff.mp h
  simp only [Prod.mk.injEq, List.all_eq_true] at h
  obtain ⟨hclosed, hl, hj⟩ := h
  have hw : (engine (fun _ => false) raceStore).Within (OnClient Smooth 0) s :=
    Machine.Within.exec (.init rfl) (hmeets.mono fun _ _ h => onClient_of_smoothly h) hs
  exact ⟨s, c, hs, hc, hclosed, conversation hw hc ⟨hl, hj⟩⟩

end Engine

end OrderRisk.Server
