import OrderRisk.Risk.Concurrent
import OrderRisk.Server.Descriptors
import OrderRisk.Server.Response
import OrderRisk.Server.Talk

/-!
# The whole server

The event loop with all its connections, the jobs' work between the pool and `safeSend`, and what
the jobs share: `nextOrderId_`, which `parseOrder` draws from, and the `AccountStore` behind the
validator.  A job makes one access to the first and the single steps of `validate` to the second;
everything else of its work is its own.

`engine` is built from the machines of the parts, and every run of it is a run of each of them:
of the event loop (`net_reachable`), of each connection with its tape (`taped_within`), and of the
validator (`risk_reachable`).
-/

namespace OrderRisk.Server

open OrderRisk.Lib OrderRisk.Fix OrderRisk.Account OrderRisk.Risk

namespace EventLoop

def Act.on (s : State) : Act → Option (ℕ × Server.Act)
  | .accept _ => none
  | .readable fd => (s.connections fd).map fun k => (k, .readable)
  | .recv r => match s.loop with
    | .handling k _ => some (k, .recv r)
    | _ => none
  | .loop => match s.loop with
    | .handling k _ => some (k, .loop)
    | _ => none
  | .start k i data => some (k, .start i data)
  | .job k i result => some (k, .job i result)

/-- A step is on no connection, or on the one that `on` says. -/
theorem step_on {s s' : State} {a : Act} (h : machine.step s a = some s') :
    (a.on s = none ∧ ((∃ fd, s.loop = .epollWait ∧ s' = { s with loop := .insert fd }) ∨
      ∃ fd, s.loop = .insert fd ∧ s' =
        { clients := s.clients ++ [⟨fd, .fresh, [], false, 0⟩]
          connections := Function.update s.connections fd (some s.clients.length)
          loop := .epollWait })) ∨
    ∃ k b, a.on s = some (k, b) ∧ s.onClient k b = some s' ∧
      (b.byJob = false → s.loop = .epollWait ∨ ∃ p, s.loop = .handling k p) := by
  cases a with
  | accept fd =>
    simp only [machine, step] at h
    split at h
    · next hc => exact .inl ⟨rfl, .inl ⟨fd, hc.1, (Option.some.inj h).symm⟩⟩
    · cases h
  | readable fd =>
    simp only [machine, step] at h
    split at h
    · next hl =>
      obtain ⟨k, hk, h⟩ := Option.bind_eq_some_iff.mp h
      exact .inr ⟨k, _, by simp [Act.on, hk], h, fun _ => .inl hl⟩
    · cases h
  | recv r =>
    simp only [machine, step] at h
    split at h
    · next k p hl => exact .inr ⟨k, _, by simp [Act.on, hl], h, fun _ => .inr ⟨p, hl⟩⟩
    · cases h
  | loop =>
    simp only [machine, step] at h
    split at h
    · cases h
    · next fd hl => exact .inl ⟨by simp [Act.on, hl], .inr ⟨fd, hl, (Option.some.inj h).symm⟩⟩
    · next k p hl => exact .inr ⟨k, _, by simp [Act.on, hl], h, fun _ => .inr ⟨p, hl⟩⟩
  | start k i data => exact .inr ⟨k, _, rfl, h, fun hb => by cases hb⟩
  | job k i result => exact .inr ⟨k, _, rfl, h, fun hb => by cases hb⟩

/-- **A step as one connection sees it**: it has just been accepted, the step is on it, or nothing
has happened to it. -/
theorem Inv.view_on {s s' : State} {a : Act} {k : ℕ} {c : Client} (h : Inv s)
    (hs : machine.step s a = some s') (hc : s'.clients[k]? = some c) :
    (s.clients[k]? = none ∧ a.on s = none ∧ Server.machine.init (s'.view k c)) ∨
    ∃ d, s.clients[k]? = some d ∧
      ((∀ b, a.on s ≠ some (k, b)) ∧ s'.view k c = s.view k d ∨
        ∃ b, a.on s = some (k, b) ∧ Server.machine.step (s.view k d) b = some (s'.view k c)) := by
  obtain ⟨hon, ⟨fd, hl, rfl⟩ | ⟨fd, hl, rfl⟩⟩ | ⟨j, b, hon, hb, hl⟩ := step_on hs
  · refine .inr ⟨c, hc, .inl ⟨by simp [hon], ?_⟩⟩
    unfold State.view
    rw [hl]
    rfl
  · -- the entry of the new connection is nobody else's
    rcases getElem?_concat_cases hc with hc | ⟨rfl, rfl⟩
    · have hlt := (List.getElem?_eq_some_iff.mp hc).1
      refine .inr ⟨c, hc, .inl ⟨by simp [hon], ?_⟩⟩
      have hrouted : (Function.update s.connections fd (some s.clients.length) c.fd = some k) ↔
          (s.connections c.fd = some k) := by
        by_cases hfd : c.fd = fd
        · rw [hfd, Function.update_self, h.insert fd hl]
          simp only [Option.some.injEq, reduceCtorEq, iff_false]
          omega
        · rw [Function.update_of_ne hfd]
      unfold State.view
      simp only [hrouted, hl]
      rfl
    · refine .inl ⟨List.getElem?_eq_none le_rfl, hon, ?_⟩
      simp [State.view, Server.machine, Pc.at]
  · obtain ⟨d, v, hd, hv, rfl⟩ := onClient_cases hb
    rcases eq_or_ne k j with rfl | hne
    · rw [State.after, List.getElem?_set_self (List.getElem?_eq_some_iff.mp hd).1] at hc
      cases hc
      refine .inr ⟨d, hd, .inr ⟨b, hon, ?_⟩⟩
      rw [view_self hv]
      exact hv
    · rw [State.after, List.getElem?_set_ne hne.symm] at hc
      refine .inr ⟨c, hc, .inl ⟨fun b' hb' => ?_, view_other hne hl (h.routed_of_deregister hd) c⟩⟩
      rw [hon] at hb'
      exact hne (congrArg Prod.fst (Option.some.inj hb')).symm

end EventLoop

namespace Engine

/-! ### The machine -/

/-- `tapes`: what has crossed the wire of each connection.  `drawn`: the jobs that have drawn an
order id, with the id, in the order of the `fetch_add`s. -/
structure State where
  net : EventLoop.State
  tapes : ℕ → Tape
  nextOrderId : ℕ
  risk : Risk.State (ℕ × ℕ) Double
  drawn : List ((ℕ × ℕ) × ℕ)

/-- Job `i` of connection `k` makes a step: up to `parseOrder`'s `fetch_add` and behind it to the
next access to shared memory, inside `validate`, or from there to `safeSend`. -/
inductive Act where
  | net (a : EventLoop.Act)
  | parse (k i : ℕ)
  | validate (k i : ℕ) (spurious : Bool)
  | answer (k i : ℕ)

/-- The tapes after a step of the event loop or of a job that is sending. -/
def State.record (s : State) (a : EventLoop.Act) : ℕ → Tape :=
  (a.on s.net).elim s.tapes fun kb =>
    (s.net.clients[kb.1]?).elim s.tapes fun c =>
      Function.update s.tapes kb.1 ((s.tapes kb.1).record (s.net.view kb.1 c) kb.2)

/-- A step of the event loop and its connections. -/
def State.netStep (s : State) (a : EventLoop.Act) : Option State :=
  (EventLoop.machine.step s.net a).map fun n => { s with net := n, tapes := s.record a }

/-- The message of job `i` of connection `k`, as long as its work has no answer. -/
def State.message (s : State) (k i : ℕ) : Option Bytes :=
  (s.net.clients[k]?).bind fun c => (c.jobs[i]?).bind fun
    | .queued rawMsg => some rawMsg
    | _ => none

def State.draw (s : State) (job : ℕ × ℕ) (next : ℕ) : State :=
  { s with
    nextOrderId := next
    drawn := if next = s.nextOrderId then s.drawn else s.drawn ++ [(job, s.nextOrderId)] }

/-- The server on the accounts of `store`. -/
def engine (erange : ℚ → Bool) (store : AccountStore Double) : Machine State Act where
  init s := s = ⟨⟨[], fun _ => none, .epollWait⟩, fun _ => .blank, 1,
    ⟨store, fun _ => .idle, [], []⟩, []⟩
  step s
    | .net (.start _ _ _) => none
    | .net a => s.netStep a
    | .parse k i =>
      match s.message k i, s.risk.pc (k, i) with
      | some rawMsg, .idle =>
        match parseOrder erange s.nextOrderId rawMsg with
        | .error _ => none
        | .ok (.error rejectReason, next) =>
          (s.draw (k, i) next).netStep (.start k i (buildMessage (rejectBody rejectReason)))
        | .ok (.ok order, next) =>
          ((Risk.machine (ℕ × ℕ) store).step s.risk (.call (k, i) order)).map fun r =>
            { s.draw (k, i) next with risk := r }
      | _, _ => none
    | .validate k i spurious =>
      ((Risk.machine (ℕ × ℕ) store).step s.risk (.step (k, i) spurious)).map fun r =>
        { s with risk := r }
    | .answer k i =>
      match s.risk.pc (k, i) with
      | .returned _ result =>
        ((Risk.machine (ℕ × ℕ) store).step s.risk (.ret (k, i))).bind fun r =>
          ({ s with risk := r } : State).netStep (.start k i (buildMessage (reportBody result)))
      | _ => none

/-! ### What a step can be -/

/-- **The steps of the server.** -/
inductive Move (erange : ℚ → Bool) (store : AccountStore Double) (s : State) :
    Act → State → Prop
  | net (a : EventLoop.Act) (n : EventLoop.State) (ha : ∀ k i data, a ≠ .start k i data)
      (hn : EventLoop.machine.step s.net a = some n) :
      Move erange store s (.net a) { s with net := n, tapes := s.record a }
  | reject (k i : ℕ) (rawMsg reason : Bytes) (next : ℕ) (n : EventLoop.State)
      (hm : s.message k i = some rawMsg) (hpc : s.risk.pc (k, i) = .idle)
      (hp : parseOrder erange s.nextOrderId rawMsg = .ok (.error reason, next))
      (hn : EventLoop.machine.step s.net
        (.start k i (buildMessage (rejectBody reason))) = some n) :
      Move erange store s (.parse k i) { s.draw (k, i) next with
        net := n
        tapes := s.record (.start k i (buildMessage (rejectBody reason))) }
  | call (k i : ℕ) (rawMsg : Bytes) (order : Order Double) (next : ℕ)
      (r : Risk.State (ℕ × ℕ) Double) (hm : s.message k i = some rawMsg)
      (hpc : s.risk.pc (k, i) = .idle)
      (hp : parseOrder erange s.nextOrderId rawMsg = .ok (.ok order, next))
      (hr : (Risk.machine (ℕ × ℕ) store).step s.risk (.call (k, i) order) = some r) :
      Move erange store s (.parse k i) { s.draw (k, i) next with risk := r }
  | validate (k i : ℕ) (spurious : Bool) (r : Risk.State (ℕ × ℕ) Double)
      (hr : (Risk.machine (ℕ × ℕ) store).step s.risk (.step (k, i) spurious) = some r) :
      Move erange store s (.validate k i spurious) { s with risk := r }
  | report (k i id : ℕ) (result : ValidationResult) (r : Risk.State (ℕ × ℕ) Double)
      (n : EventLoop.State) (hpc : s.risk.pc (k, i) = .returned id result)
      (hr : (Risk.machine (ℕ × ℕ) store).step s.risk (.ret (k, i)) = some r)
      (hn : EventLoop.machine.step s.net
        (.start k i (buildMessage (reportBody result))) = some n) :
      Move erange store s (.answer k i) { s with
        net := n
        tapes := s.record (.start k i (buildMessage (reportBody result)))
        risk := r }

variable {erange : ℚ → Bool} {store : AccountStore Double} {s s' : State} {a : Act}

theorem move_of_step (h : (engine erange store).step s a = some s') : Move erange store s a s' := by
  cases a with
  | net a =>
    cases a with
    | start k i data => cases h
    | _ =>
      obtain ⟨n, hn, rfl⟩ := Option.map_eq_some_iff.mp h
      exact .net _ n nofun hn
  | parse k i =>
    simp only [engine] at h
    split at h
    · next rawMsg hm hpc =>
      split at h
      · cases h
      · next reason next hp =>
        obtain ⟨n, hn, rfl⟩ := Option.map_eq_some_iff.mp h
        exact .reject k i rawMsg reason next n hm hpc hp hn
      · next order next hp =>
        obtain ⟨r, hr, rfl⟩ := Option.map_eq_some_iff.mp h
        exact .call k i rawMsg order next r hm hpc hp hr
    · cases h
  | validate k i spurious =>
    obtain ⟨r, hr, rfl⟩ := Option.map_eq_some_iff.mp h
    exact .validate k i spurious r hr
  | answer k i =>
    simp only [engine] at h
    split at h
    · next id result hpc =>
      obtain ⟨r, hr, h⟩ := Option.bind_eq_some_iff.mp h
      obtain ⟨n, hn, rfl⟩ := Option.map_eq_some_iff.mp h
      exact .report k i id result r n hpc hr hn
    · cases h

/-! ### A run of the server is a run of its parts -/

theorem Move.net_step (h : Move erange store s a s') :
    s'.net = s.net ∧ s'.tapes = s.tapes ∨ ∃ b, EventLoop.machine.step s.net b = some s'.net ∧
      s'.tapes = s.record b ∧ (a = .net b ∨ ∃ k i data, b = .start k i data) := by
  cases h
  case net b n ha hn => exact .inr ⟨b, hn, rfl, .inl rfl⟩
  case reject k i rawMsg reason next n hm hpc hp hn => exact .inr ⟨_, hn, rfl, .inr ⟨_, _, _, rfl⟩⟩
  case call => exact .inl ⟨rfl, rfl⟩
  case validate => exact .inl ⟨rfl, rfl⟩
  case report k i id result r n hpc hr hn => exact .inr ⟨_, hn, rfl, .inr ⟨_, _, _, rfl⟩⟩

theorem Move.risk_step (h : Move erange store s a s') :
    s'.risk = s.risk ∨ ∃ b, (Risk.machine (ℕ × ℕ) store).step s.risk b = some s'.risk := by
  cases h
  case net => exact .inl rfl
  case reject => exact .inl rfl
  case call k i rawMsg order next r hm hpc hp hr => exact .inr ⟨_, hr⟩
  case validate k i spurious r hr => exact .inr ⟨_, hr⟩
  case report k i id result r n hpc hr hn => exact .inr ⟨_, hr⟩

theorem net_reachable (h : (engine erange store).Reachable s) : EventLoop.machine.Reachable s.net := by
  refine Machine.Within.project (M := EventLoop.machine) (f := State.net) ?_ ?_ h
  · rintro s rfl
    rfl
  · intro s a s' _ _ hs
    exact (move_of_step hs).net_step.imp And.left fun ⟨b, hb, _⟩ => ⟨b, hb⟩

theorem risk_reachable (h : (engine erange store).Reachable s) :
    (Risk.machine (ℕ × ℕ) store).Reachable s.risk := by
  refine Machine.Within.project (M := Risk.machine (ℕ × ℕ) store) (f := State.risk) ?_ ?_ h
  · rintro s rfl
    rfl
  · intro s a s' _ _ hs
    exact (move_of_step hs).risk_step

/-- A condition on the steps of connection `k`, with its tape, as one on the steps of the server. -/
def OnClient (D : Server.State × Tape → Server.Act → Prop) (k : ℕ) (s : State) : Act → Prop
  | .net a => ∀ c b, s.net.clients[k]? = some c → a.on s.net = some (k, b) →
      D (s.net.view k c, s.tapes k) b
  | _ => True

theorem record_of_on {b : EventLoop.Act} {k : ℕ} {c : EventLoop.Client} {d : Server.Act}
    (hb : b.on s.net = some (k, d)) (hc : s.net.clients[k]? = some c) :
    s.record b = Function.update s.tapes k ((s.tapes k).record (s.net.view k c) d) := by
  simp [State.record, hb, hc]

theorem record_of_ne {b : EventLoop.Act} {k : ℕ} (hb : ∀ d, b.on s.net ≠ some (k, d)) :
    s.record b k = s.tapes k := by
  unfold State.record
  cases ho : b.on s.net with
  | none => rfl
  | some kb =>
    obtain ⟨j, d⟩ := kb
    have hjk : k ≠ j := by
      rintro rfl
      exact hb d ho
    simp only [Option.elim_some]
    cases s.net.clients[j]? with
    | none => rfl
    | some c => exact Function.update_of_ne hjk _ _

/-- The connection `k` and its tape have a run that meets `D`, or there is no such connection. -/
def Taped (D : Server.State × Tape → Server.Act → Prop) (k : ℕ) (s : State) : Prop :=
  (∀ c, s.net.clients[k]? = some c → tapedMachine.Within D (s.net.view k c, s.tapes k)) ∧
    (s.net.clients[k]? = none → s.tapes k = .blank)

theorem Taped.step {D : Server.State × Tape → Server.Act → Prop} {k : ℕ} (h : Taped D k s)
    (hinv : EventLoop.Inv s.net) {b : EventLoop.Act}
    (hn : EventLoop.machine.step s.net b = some s'.net) (ht : s'.tapes = s.record b)
    (hD : ∀ c d, s.net.clients[k]? = some c → b.on s.net = some (k, d) →
      D (s.net.view k c, s.tapes k) d) : Taped D k s' := by
  constructor
  · intro c hc
    rw [ht]
    rcases hinv.view_on hn hc with ⟨hnone, hon, hi⟩ | ⟨d, hd, ⟨hne, hv⟩ | ⟨d', hon, hst⟩⟩
    · refine .init ⟨hi, ?_⟩
      rw [record_of_ne fun d => by simp [hon]]
      exact h.2 hnone
    · rw [record_of_ne hne, hv]
      exact h.1 d hd
    · refine .step (h.1 d hd) (hD d d' hd hon) ?_
      rw [record_of_on hon hd, Function.update_self]
      simp [tapedMachine, hst]
  · intro hnone
    have hlen := EventLoop.clients_length_le hn
    have hnone' : s.net.clients[k]? = none :=
      List.getElem?_eq_none (hlen.trans (List.getElem?_eq_none_iff.mp hnone))
    rw [ht, record_of_ne fun d hd => ?_]
    · exact h.2 hnone'
    · -- a step on a connection needs the connection
      obtain ⟨hon, -⟩ | ⟨j, e, hon, he, -⟩ := EventLoop.step_on hn
      · rw [hon] at hd
        cases hd
      · rw [hon] at hd
        cases hd
        obtain ⟨c, v, hc, -⟩ := EventLoop.onClient_cases he
        rw [hnone'] at hc
        cases hc

/-- **Each connection with its tape.** -/
theorem taped_within {D : Server.State × Tape → Server.Act → Prop} {k : ℕ}
    (hD : ∀ p i data, D p (.start i data)) (h : (engine erange store).Within (OnClient D k) s) :
    Taped D k s := by
  induction h with
  | init hi =>
    obtain rfl : _ = _ := hi
    exact ⟨by simp, fun _ => rfl⟩
  | @step s s' a hw hc hs ih =>
    have hm := move_of_step hs
    have hinv := EventLoop.inv_of_reachable (net_reachable hw.reachable)
    rcases hm.net_step with ⟨hn, ht⟩ | ⟨b, hn, ht, hb⟩
    · unfold Taped
      rw [hn, ht]
      exact ih
    · refine ih.step hinv hn ht fun c d hc' hon => ?_
      rcases hb with rfl | ⟨j, i, data, rfl⟩
      · exact hc c d hc' hon
      · cases hon
        exact hD _ _ _

theorem taped_reachable (h : (engine erange store).Reachable s) (k : ℕ) :
    Taped (fun _ _ => True) k s :=
  taped_within (fun _ _ _ => trivial) (h.mono fun _ a _ => by cases a <;> simp [OnClient])

end Engine

end OrderRisk.Server
