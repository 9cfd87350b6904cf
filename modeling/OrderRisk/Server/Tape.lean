import OrderRisk.Fix.Loop
import OrderRisk.Server.Finalize

/-!
# What crosses the wire of a connection

A `Tape` records a run of one connection from outside: the bytes `recv` has returned, the messages
that were dispatched, the answers of their jobs, and the bytes `::send` has taken.  What is dispatched
(`Intake`) are the messages that `tryExtractMessage` takes off the received stream, in order,
whatever the batches were.
-/

namespace OrderRisk.Server

open OrderRisk.Lib OrderRisk.Fix

/-! ### The tape -/

/-- `answers`: the jobs by their number, with the response each one has built.  `cut`: the jobs
whose `::send` has failed. -/
structure Tape where
  received : Bytes
  dispatched : List Bytes
  answers : List (ℕ × Bytes)
  output : Bytes
  cut : List ℕ

def Tape.blank : Tape := ⟨[], [], [], [], []⟩

/-- What the event loop's step behind `recv` adds. -/
def Tape.recordLoop (tp : Tape) : LoopPc → Tape
  | .submit _ rawMsg => { tp with dispatched := tp.dispatched ++ [rawMsg] }
  | _ => tp

def Tape.recordJob (tp : Tape) (i : ℕ) : Option ℕ → JobPc → Tape
  | some n, .send data sent => { tp with output := tp.output ++ (data.drop sent).take n }
  | none, .send _ _ => { tp with cut := tp.cut ++ [i] }
  | _, _ => tp

/-- What a step taken in `s` adds. -/
def Tape.record (tp : Tape) (s : State) : Act → Tape
  | .readable => tp
  | .recv (.data chunk) => { tp with received := tp.received ++ chunk }
  | .recv _ => tp
  | .loop => tp.recordLoop s.loop
  | .start i data => { tp with answers := tp.answers ++ [(i, data)] }
  | .job i result => (s.jobs[i]?).elim tp (tp.recordJob i result)

/-- The machine of one connection, with its tape. -/
def tapedMachine : Machine (State × Tape) Act where
  init p := machine.init p.1 ∧ p.2 = .blank
  step p a := (machine.step p.1 a).map fun s => (s, p.2.record p.1 a)

theorem taped_step {p p' : State × Tape} {a : Act} (h : tapedMachine.step p a = some p') :
    machine.step p.1 a = some p'.1 ∧ p'.2 = p.2.record p.1 a := by
  obtain ⟨s, hs, rfl⟩ := Option.map_eq_some_iff.mp h
  exact ⟨hs, rfl⟩

/-! ### The way in -/

/-- The message that is extracted and no job yet. -/
def LoopPc.inHand : LoopPc → List Bytes
  | .fetchAdd _ rawMsg => [rawMsg]
  | .submit _ rawMsg => [rawMsg]
  | _ => []

/-- Outside `handleReadable`, or past its extract loop. -/
def LoopPc.through : LoopPc → Bool
  | .wait => true
  | .finalize _ => true
  | _ => false

/-- **The way in**: what was dispatched, and what is about to be, is what comes off the front of
the received stream, and `recvBuffer` is the rest. -/
structure Intake (s : State) (tp : Tape) : Prop where
  extracts : Extracts tp.received (tp.dispatched ++ s.loop.inHand) s.conn.recvBuffer
  drained : s.loop.through = true → nextMessage s.conn.recvBuffer = none

theorem Intake.init {s : State} (h : machine.init s) : Intake s .blank := by
  obtain rfl : s = _ := h
  exact ⟨.nil [], fun _ => by decide +kernel⟩

theorem Intake.congr {s s' : State} {tp tp' : Tape} (h : Intake s tp)
    (hr : tp'.received = tp.received) (hd : tp'.dispatched = tp.dispatched)
    (hb : s'.conn.recvBuffer = s.conn.recvBuffer) (hh : s'.loop.inHand = s.loop.inHand)
    (hw : s'.loop.through = true → nextMessage s.conn.recvBuffer = none) : Intake s' tp' := by
  refine ⟨?_, fun hl => by rw [hb]; exact hw hl⟩
  rw [hr, hd, hb, hh]
  exact h.extracts

theorem Intake.loopStep {s s' : State} {tp : Tape} (h : Intake s tp) (hs : loopStep s = some s') :
    Intake s' (tp.recordLoop s.loop) := by
  obtain ⟨hl, rfl⟩ | ⟨hl, rfl⟩ | ⟨p, m, r, hl, hn, rfl⟩ | ⟨p, hl, hn, rfl⟩ | ⟨p, m, hl, rfl⟩ |
    ⟨p, m, hl, rfl⟩ | ⟨f, hl, rfl⟩ := loopStep_cases hs <;> rw [hl]
  · exact h.congr rfl rfl rfl (by rw [hl]; rfl) nofun
  · exact h.congr rfl rfl rfl (by rw [hl]; rfl) nofun
  · -- a message comes off the front
    refine ⟨?_, nofun⟩
    have he := h.extracts
    simp only [hl, LoopPc.inHand, List.append_nil] at he
    exact he.trans (.cons (tryExtractMessage_eq_some.mpr hn) (.nil r))
  · refine h.congr rfl rfl rfl ?_ fun _ => hn
    rw [hl]
    cases p <;> rfl
  · exact h.congr rfl rfl rfl (by rw [hl]; rfl) nofun
  · -- the message in hand becomes a job
    refine ⟨?_, nofun⟩
    have he := h.extracts
    simp only [hl, LoopPc.inHand] at he
    simpa [LoopPc.inHand, Tape.recordLoop] using he
  · refine h.congr rfl rfl (by simp) ?_ fun _ => h.drained (by rw [hl]; rfl)
    rw [hl]
    cases (finStep s.conn f).2 <;> rfl

theorem jobMove_recvBuffer {c c' : Connection} {p q : JobPc} {late : Bool}
    (h : JobMove c p c' q late) : c'.recvBuffer = c.recvBuffer := by
  cases h with
  | respond w => rfl
  | decrement handed => rfl
  | finalize handed f => exact finStep_recvBuffer c f

theorem recordJob_intake (tp : Tape) (i : ℕ) (result : Option ℕ) (p : JobPc) :
    (tp.recordJob i result p).received = tp.received ∧
      (tp.recordJob i result p).dispatched = tp.dispatched := by
  unfold Tape.recordJob
  split <;> exact ⟨rfl, rfl⟩

theorem Intake.step {s s' : State} {tp : Tape} {a : Act} (h : Intake s tp)
    (hs : machine.step s a = some s') : Intake s' (tp.record s a) := by
  cases a with
  | readable =>
    simp only [machine, Server.step] at hs
    split at hs
    · next hl =>
      cases hs
      exact h.congr rfl rfl rfl (by rw [hl.1]; rfl) fun ht => by cases ht
    · cases hs
  | recv r =>
    simp only [machine, Server.step] at hs
    split at hs
    · next hl =>
      have he := h.extracts
      rw [hl] at he
      cases r with
      | data chunk =>
        cases hs
        refine ⟨?_, fun ht => by rw [hl] at ht; cases ht⟩
        rw [hl]
        exact he.append_right chunk
      | eof =>
        cases hs
        exact h.congr rfl rfl rfl (by rw [hl]; rfl) fun ht => by cases ht
      | again =>
        cases hs
        exact h.congr rfl rfl rfl (by rw [hl]; rfl) fun ht => by cases ht
    · cases hs
  | loop => exact h.loopStep hs
  | start i data =>
    simp only [machine, Server.step] at hs
    split at hs
    · split at hs
      · cases hs
      · cases hs
        exact h.congr rfl rfl rfl rfl h.drained
    · cases hs
  | job i result =>
    obtain ⟨p, hp, hs⟩ := Option.bind_eq_some_iff.mp hs
    obtain ⟨⟨c', q, late⟩, hj, rfl⟩ := Option.map_eq_some_iff.mp hs
    simp only [Tape.record, hp, Option.elim_some]
    obtain ⟨hr, hd⟩ := recordJob_intake tp i result p
    exact h.congr hr hd (jobMove_recvBuffer (jobMove_of_jobStep hj)) rfl h.drained

theorem intake_of_reachable {p : State × Tape} (h : tapedMachine.Reachable p) : Intake p.1 p.2 := by
  refine h.invariant (P := fun p => Intake p.1 p.2) ?_ ?_
  · rintro ⟨s, tp⟩ ⟨hi, rfl⟩
    exact .init hi
  · rintro p a p' hp - hs
    obtain ⟨h1, h2⟩ := taped_step hs
    rw [h2]
    exact hp.step h1

end OrderRisk.Server
