import OrderRisk.Fix.Positions
import OrderRisk.Server.Finalize
import OrderRisk.Server.Response

/-!
# No input stops the server

The only code of the server that could throw on received bytes is the parser.  It does not, so the
extract loop of `handleReadable` always has a next step, a job always gets to its answer, and
`pendingJobs` counts the jobs that have not come to their decrement.
-/

namespace OrderRisk.Server

open OrderRisk.Lib OrderRisk.Fix OrderRisk.Account OrderRisk.Risk

/-- The functions of the parser return on `raw`, without an exception. -/
structure Returns (raw : Bytes) : Prop where
  tryExtractMessage : ∃ r, Positions.tryExtractMessage raw = .ok r
  splitFields : ∃ fields, Positions.splitFields raw = some fields
  verifyChecksum : ∃ b, Positions.verifyChecksum raw = .ok b
  parseOrder : ∀ (erange : ℚ → Bool) (next : ℕ),
    ∃ r, Positions.parseOrder erange next raw = .ok (some r)

theorem parseOrder_returns (erange : ℚ → Bool) (next : ℕ) (raw : Bytes) :
    ∃ r, parseOrder erange next raw = .ok r := by
  rcases parseOrder_cases erange next raw with ⟨-, h⟩ | ⟨-, -, h⟩ | ⟨-, next', h⟩ | ⟨-, o, h⟩
  all_goals exact ⟨_, h⟩

theorem returns {raw : Bytes} (h : raw.length < 2 ^ 63) : Returns raw where
  tryExtractMessage := ⟨_, (Positions.tryExtractMessage_eq_nat h).trans (tryExtractMessage_eq raw)⟩
  splitFields := ⟨_, Positions.splitFields_eq_nat h⟩
  verifyChecksum := ⟨_, (Positions.verifyChecksum_eq_nat h).trans (verifyChecksum_eq raw)⟩
  parseOrder erange next := by
    obtain ⟨r, hr⟩ := parseOrder_returns erange next raw
    exact ⟨r, by rw [Positions.parseOrder_eq_nat h, hr]; rfl⟩

/-- What the connection does with `raw`, in every run: the event loop gets over it as the content
of `recvBuffer`, and a job gets over it as its message. -/
structure Survived (s : State) (raw : Bytes) : Prop where
  loop : ∀ peerClosed, s.loop = .extract peerClosed → s.conn.recvBuffer = raw →
    Positions.tryExtractMessage raw = tryExtractMessage raw ∧ ∃ s', machine.step s .loop = some s'
  job : ∀ i, s.jobs[i]? = some (.queued raw) →
    ∀ (erange : ℚ → Bool) (next : ℕ) (store : AccountStore Double),
      Positions.parseOrder erange next raw = (parseOrder erange next raw).map some ∧
      ∃ data r s', respond erange next store raw = .ok (data, r) ∧
        machine.step s (.start i data) = some s' ∧ s'.jobs[i]? = some (.lock data)
  pending : s.conn.pendingJobs =
    s.jobs.countP JobPc.pending + (if s.loop.counted then 1 else 0)

theorem loop_step {s : State} {peerClosed : Bool} (hl : s.loop = .extract peerClosed) :
    ∃ s', machine.step s .loop = some s' := by
  show ∃ s', loopStep s = some s'
  rw [loopStep, hl]
  dsimp only
  rw [tryExtractMessage_eq]
  cases Framing.extract totalLength s.conn.recvBuffer with
  | none => exact ⟨_, rfl⟩
  | some p => exact ⟨_, rfl⟩

theorem buildMessage_ne_nil (body : Bytes) : buildMessage body ≠ [] := by
  intro h
  have := length_buildMessage body
  rw [h, List.length_nil] at this
  omega

theorem respond_returns (erange : ℚ → Bool) (next : ℕ) (store : AccountStore Double) (raw : Bytes) :
    ∃ data r, data ≠ [] ∧ respond erange next store raw = .ok (data, r) := by
  rcases respond_cases erange next store raw with ⟨_, _, -, -, h⟩ | ⟨_, _, -, h⟩
  all_goals exact ⟨_, _, buildMessage_ne_nil _, h⟩

theorem start_step {s : State} {i : ℕ} {raw data : Bytes} (hi : s.jobs[i]? = some (.queued raw))
    (hd : data ≠ []) :
    ∃ s', machine.step s (.start i data) = some s' ∧ s'.jobs[i]? = some (.lock data) := by
  obtain ⟨hlt, -⟩ := List.getElem?_eq_some_iff.mp hi
  refine ⟨{ s with jobs := s.jobs.set i (.lock data) }, ?_, ?_⟩
  · simp [machine, step, hi, hd]
  · rw [List.getElem?_set_self hlt]

/-- **No input makes the parser throw**, and none stops the event loop or keeps a job from its
decrement. -/
theorem parser_never_throws {raw : Bytes} (h : raw.length < 2 ^ 63) :
    Returns raw ∧ ∀ s : State, machine.Reachable s → Survived s raw := by
  refine ⟨returns h, fun s hs => ⟨fun peerClosed hl _ => ?_, fun i hi erange next store => ?_, ?_⟩⟩
  · exact ⟨Positions.tryExtractMessage_eq_nat h, loop_step hl⟩
  · obtain ⟨data, r, hd, hr⟩ := respond_returns erange next store raw
    obtain ⟨s', hs', hj⟩ := start_step hi hd
    exact ⟨Positions.parseOrder_eq_nat h erange next, data, r, s', hr, hs', hj⟩
  · exact (books_of_reachable hs).pending

def hostile : Bytes :=
  txt "8=" ++ [SOH] ++ txt "9=-18" ++ [SOH] ++ txt "10="

theorem parser_never_throws_hostile :
    Returns hostile ∧ ∀ s : State, machine.Reachable s → Survived s hostile :=
  parser_never_throws (by decide +kernel)

end OrderRisk.Server
