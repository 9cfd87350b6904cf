import OrderRisk.Fix.Stream
import OrderRisk.Server.Connection

/-!
# The output of a connection

The responses of all jobs go to one socket, one `safeSend` after the other.  A `safeSend` whose
`::send` fails drops the rest of its message, and the next one starts all the same: the peer then
finds a message where the missing bytes should be (`cutOutput_not_framed`).  As long as nothing is
handed over behind a message that was cut, the output is framed (`output_framed`).
-/

namespace OrderRisk.Server

open OrderRisk.Lib OrderRisk.Fix

/-! ### `safeSend` -/

/-- The `::send` calls of a job at `p`, with their results: the bytes handed over, and the results
that are left.  `none`: `::send` cannot return this.  If the results are used up, the call has not
returned yet. -/
def sending (c : Connection) : JobPc → List (Option ℕ) → Option (Bytes × List (Option ℕ))
  | .send data sent, r :: results =>
    (jobStep c r (.send data sent)).bind fun (_, q, _) =>
      (sending c q results).map fun (bytes, rest) =>
        ((data.drop sent).take (r.getD 0) ++ bytes, rest)
  | _, results => some ([], results)

def safeSend (c : Connection) (data : Bytes) (results : List (Option ℕ)) :
    Option (Bytes × List (Option ℕ)) :=
  (jobStep c none (.check data)).bind fun (_, q, _) => sending c q results

/-- One `safeSend` after the other, each with the connection as it finds it and the body of its
message: what each one hands over. -/
def sendAll : List (Connection × Bytes) → List (Option ℕ) → Option (List Bytes)
  | [], _ => some []
  | (c, body) :: calls, results =>
    (safeSend c (buildMessage body) results).bind fun (piece, rest) =>
      (sendAll calls rest).map fun pieces => piece :: pieces

@[simp] theorem sending_unlock (c : Connection) (handed : Bool) (results : List (Option ℕ)) :
    sending c (.unlock handed) results = some ([], results) := by
  cases results <;> rfl

theorem isPrefix_of_sending {c : Connection} {data bytes : Bytes} {sent : ℕ}
    {results rest : List (Option ℕ)}
    (h : sending c (.send data sent) results = some (bytes, rest)) : bytes <+: data.drop sent := by
  induction results generalizing sent bytes with
  | nil =>
    obtain ⟨rfl, -⟩ := Prod.mk.inj (Option.some.inj h)
    exact List.nil_prefix
  | cons r results ih =>
    cases r with
    | none =>
      simp only [sending, jobStep, Option.bind_some, Option.map_some, Option.some.injEq,
        Prod.mk.injEq] at h
      rw [← h.1]
      exact List.nil_prefix
    | some n =>
      simp only [sending, jobStep] at h
      split at h
      · simp only [Option.bind_some, Option.getD_some] at h
        obtain ⟨⟨bytes', rest'⟩, hs, he⟩ := Option.map_eq_some_iff.mp h
        obtain ⟨rfl, rfl⟩ := Prod.mk.inj he
        have hb : bytes' <+: data.drop (sent + n) := by
          split at hs
          · exact ih hs
          · rw [sending_unlock] at hs
            obtain ⟨rfl, -⟩ := Prod.mk.inj (Option.some.inj hs)
            exact List.nil_prefix
        obtain ⟨t, ht⟩ := hb
        refine ⟨t, ?_⟩
        rw [List.append_assoc, ht, ← List.drop_drop, List.take_append_drop]
      · cases h

theorem isPrefix_of_safeSend {c : Connection} {data piece : Bytes} {results rest : List (Option ℕ)}
    (h : safeSend c data results = some (piece, rest)) : piece <+: data := by
  simp only [safeSend, jobStep, Option.bind_some] at h
  split at h
  · exact isPrefix_of_sending h
  · rw [sending_unlock] at h
    obtain ⟨rfl, -⟩ := Prod.mk.inj (Option.some.inj h)
    exact List.nil_prefix

theorem isPrefix_of_sendAll {calls : List (Connection × Bytes)} {results : List (Option ℕ)}
    {pieces : List Bytes} (h : sendAll calls results = some pieces) :
    List.Forall₂ (fun call piece => piece <+: buildMessage call.2) calls pieces := by
  induction calls generalizing results pieces with
  | nil =>
    obtain rfl := Option.some.inj h
    exact .nil
  | cons call calls ih =>
    obtain ⟨⟨piece, rest⟩, h1, h2⟩ := Option.bind_eq_some_iff.mp h
    obtain ⟨pieces', h3, rfl⟩ := Option.map_eq_some_iff.mp h2
    exact .cons (isPrefix_of_safeSend h1) (ih h3)

/-! ### Framed output -/

/-- Complete messages, in the order of the calls, then at most one that is not complete; and
a peer that runs `tryExtractMessage` gets exactly the complete ones. -/
def Framed (bodies : List Bytes) (output : Bytes) : Prop :=
  ∃ (whole : List Bytes) (r : Bytes), output = (whole.map buildMessage).flatten ++ r ∧ whole.Sublist bodies ∧
    (r = [] ∨ ∃ body ∈ bodies, r <+: buildMessage body ∧ r ≠ buildMessage body) ∧
    ∀ fuel, whole.length < fuel →
      extractLoop fuel output = .ok (some (whole.map buildMessage, r))

/-- No byte is handed over behind a message that was cut. -/
def NoneBehindCut (bodies pieces : List Bytes) : Prop :=
  (bodies.zip pieces).Pairwise fun p q => p.2 ≠ [] → p.2 ≠ buildMessage p.1 → q.2 = []

instance decidableNoneBehindCut (bodies pieces : List Bytes) :
    Decidable (NoneBehindCut bodies pieces) :=
  inferInstanceAs (Decidable (List.Pairwise _ _))

/-- The pieces are complete messages and at most one that is not. -/
theorem exists_whole {bodies pieces : List Bytes}
    (h : List.Forall₂ (fun body piece => piece <+: buildMessage body) bodies pieces)
    (hn : NoneBehindCut bodies pieces) :
    ∃ (whole : List Bytes) (r : Bytes), pieces.flatten = (whole.map buildMessage).flatten ++ r ∧
      whole.Sublist bodies ∧
      (r = [] ∨ ∃ body ∈ bodies, r <+: buildMessage body ∧ r ≠ buildMessage body) := by
  induction h with
  | nil => exact ⟨[], [], rfl, .slnil, .inl rfl⟩
  | @cons body piece bodies pieces hp hps ih =>
    obtain ⟨hhead, htail⟩ := List.pairwise_cons.mp hn
    by_cases hcut : piece ≠ [] ∧ piece ≠ buildMessage body
    · -- the others hand over nothing
      have hnil : ∀ q ∈ pieces, q = [] := by
        intro q hq
        obtain ⟨i, hi, rfl⟩ := List.mem_iff_getElem.mp hq
        have hlen := hps.length_eq
        exact hhead (bodies[i], pieces[i])
          (List.mem_iff_getElem.mpr ⟨i, by simp; omega, by simp⟩) hcut.1 hcut.2
      refine ⟨[], piece, ?_, List.nil_sublist _, .inr ⟨body, by simp, hp, hcut.2⟩⟩
      rw [List.flatten_cons, List.flatten_eq_nil_iff.mpr hnil]
      simp
    · obtain ⟨whole, r, he, hs, hr⟩ := ih htail
      have hr' : r = [] ∨ ∃ b ∈ body :: bodies, r <+: buildMessage b ∧ r ≠ buildMessage b :=
        hr.imp_right fun ⟨b, hb, h⟩ => ⟨b, List.mem_cons_of_mem _ hb, h⟩
      by_cases h0 : piece = []
      · exact ⟨whole, r, by rw [List.flatten_cons, h0, he]; rfl, hs.cons _, hr'⟩
      · have hw : piece = buildMessage body := not_not.mp fun h => hcut ⟨h0, h⟩
        exact ⟨body :: whole, r, by rw [List.flatten_cons, hw, he]; simp, hs.cons_cons _, hr'⟩

/-- A peer takes the complete messages off, and the incomplete one stays. -/
theorem extractLoop_whole {whole : List Bytes} {r : Bytes} (hw : ∀ b ∈ whole, b.length < 2 ^ 63)
    (hr : r = [] ∨ ∃ body : Bytes, body.length < 2 ^ 63 ∧ r <+: buildMessage body ∧
      r ≠ buildMessage body) {fuel : ℕ} (hf : whole.length < fuel) :
    extractLoop fuel ((whole.map buildMessage).flatten ++ r) =
      .ok (some (whole.map buildMessage, r)) := by
  obtain ⟨body, hb, hpre, hne⟩ : ∃ body : Bytes, body.length < 2 ^ 63 ∧ r <+: buildMessage body ∧
      r ≠ buildMessage body := by
    rcases hr with rfl | hr
    · refine ⟨[], by decide, List.nil_prefix, fun h => ?_⟩
      have := length_buildMessage []
      rw [← h, List.length_nil] at this
      omega
    · exact hr
  rw [extractLoop_eq]
  congr 1
  refine Framing.drain_encoded stable_totalLength (totalLength_buildMessage hb) hpre hne
    (fun g hg => ?_) fuel (by simpa using hf)
  obtain ⟨b, hbm, rfl⟩ := List.mem_map.mp hg
  exact totalLength_buildMessage (hw b hbm)

/-- **The output stays framed** as long as nothing is handed over behind a message that was cut. -/
theorem output_framed {calls : List (Connection × Bytes)} {results : List (Option ℕ)}
    {pieces : List Bytes} (hlen : ∀ call ∈ calls, call.2.length < 2 ^ 63)
    (h : sendAll calls results = some pieces) (hn : NoneBehindCut (calls.map Prod.snd) pieces) :
    Framed (calls.map Prod.snd) pieces.flatten := by
  have hpre : List.Forall₂ (fun body piece => piece <+: buildMessage body) (calls.map Prod.snd)
      pieces := List.forall₂_map_left_iff.mpr (isPrefix_of_sendAll h)
  have hbody : ∀ b ∈ calls.map Prod.snd, b.length < 2 ^ 63 := by
    intro b hb
    obtain ⟨call, hc, rfl⟩ := List.mem_map.mp hb
    exact hlen call hc
  obtain ⟨whole, r, he, hs, hr⟩ := exists_whole hpre hn
  refine ⟨whole, r, he, hs, hr, fun fuel hf => ?_⟩
  rw [he]
  exact extractLoop_whole (fun b hb => hbody b (hs.subset hb))
    (hr.imp_right fun ⟨b, hb, h⟩ => ⟨b, hbody b hb, h⟩) hf

/-- Two responses: the first goes out in two parts, the second is cut. -/
theorem output_framed_two :
    ∃ pieces, sendAll [(.fresh, txt "35=3"), (.fresh, txt "35=8")] [some 3, some 22, some 5, none] =
        some pieces ∧
      Framed [txt "35=3", txt "35=8"] pieces.flatten := by
  refine ⟨[buildMessage (txt "35=3"), txt "8=FIX"], by decide +kernel, ?_⟩
  exact @output_framed [(.fresh, txt "35=3"), (.fresh, txt "35=8")]
    [some 3, some 22, some 5, none] _ (by decide) (by decide +kernel) (by decide +kernel)

/-- After three bytes of the first response `::send` fails; the second goes out whole. -/
theorem cutOutput_not_framed :
    ¬ ∀ (calls : List (Connection × Bytes)) (results : List (Option ℕ)) (pieces : List Bytes),
      (∀ call ∈ calls, call.2.length < 2 ^ 63) → sendAll calls results = some pieces →
      Framed (calls.map Prod.snd) pieces.flatten := by
  intro h
  have hx : sendAll [(.fresh, txt "35=3"), (.fresh, txt "35=8")] [some 3, none, some 25] =
      some [txt "8=F", buildMessage (txt "35=8")] := by decide +kernel
  obtain ⟨whole, r, he, -, hr, -⟩ := h _ _ _ (by decide) hx
  have hhead : ∀ body, (buildMessage body).take 4 = txt "8=FI" := fun body => by
    rw [buildMessage_eq]
    rfl
  -- the fourth byte is that of no message
  have h4 : ([txt "8=F", buildMessage (txt "35=8")].flatten).take 4 ≠ txt "8=FI" := by
    decide +kernel
  refine h4 ?_
  cases whole with
  | nil =>
    rw [List.map_nil, List.flatten_nil, List.nil_append] at he
    rcases hr with rfl | ⟨body, -, hpre, -⟩
    · exact absurd he (by decide +kernel)
    · rw [← he] at hpre
      rw [← hhead body]
      obtain ⟨t, ht⟩ := hpre
      rw [← ht]
      exact (List.take_append_of_le_length (by decide +kernel)).symm
  | cons body whole =>
    have hle := length_buildMessage body
    rw [he, List.map_cons, List.flatten_cons, List.append_assoc,
      List.take_append_of_le_length (by omega), hhead]

end OrderRisk.Server
