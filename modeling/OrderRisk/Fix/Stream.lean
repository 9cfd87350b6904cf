import OrderRisk.Fix.Parser

/-!
# The receive side of a connection as a stream

`extractLoop` is the `while (true)` of `handleReadable` that takes messages off `recvBuffer`.  It
computes `Framing.drain` of the length a buffer's head announces, and that length is stable under
appending, so the general results on framings apply: the cuts of the TCP stream do not matter
(`framing_of_chunks`), and what `buildMessage` encodes is decoded again (`framing_of_frames`).
-/

namespace OrderRisk.Fix

open OrderRisk.Lib

/-! ### The loop -/

/-- The extract loop of `handleReadable`: the messages it dispatches, and the buffer it leaves;
`none` if it is still running after `fuel` rounds. -/
def extractLoop : ℕ → Bytes → Except Exn (Option (List Bytes × Bytes))
  | 0, _ => .ok none
  | fuel + 1, recvBuffer => do
    match ← tryExtractMessage recvBuffer with
    | (none, rest) => return some ([], rest)
    | (some rawMsg, rest) => return (← extractLoop fuel rest).map fun p => (rawMsg :: p.1, p.2)

/-- Append the chunks to `recvBuffer` one by one, and run the loop after those that are marked. -/
def receive (fuel : ℕ) : Bytes → List (Bytes × Bool) → Except Exn (Option (List Bytes × Bytes))
  | recvBuffer, [] => .ok (some ([], recvBuffer))
  | recvBuffer, (chunk, false) :: cs => receive fuel (recvBuffer ++ chunk) cs
  | recvBuffer, (chunk, true) :: cs => do
    match ← extractLoop fuel (recvBuffer ++ chunk) with
    | none => return none
    | some (ms, rest) => return (← receive fuel rest cs).map fun p => (ms ++ p.1, p.2)

/-- The messages that repeated calls of `tryExtractMessage` take off `buffer`, down to `rest`. -/
inductive Extracts : Bytes → List Bytes → Bytes → Prop
  | nil (buffer : Bytes) : Extracts buffer [] buffer
  | cons {buffer m buffer' rest : Bytes} {ms : List Bytes} :
      tryExtractMessage buffer = .ok (some m, buffer') → Extracts buffer' ms rest →
      Extracts buffer (m :: ms) rest

theorem tryExtractMessage_eq_some {buffer m rest : Bytes} :
    tryExtractMessage buffer = .ok (some m, rest) ↔
      Framing.extract totalLength buffer = some (m, rest) := by
  rw [tryExtractMessage_eq]
  cases h : Framing.extract totalLength buffer with
  | none => simp
  | some p => obtain ⟨m', r'⟩ := p; simp

theorem extracts_iff_comes {buffer rest : Bytes} {ms : List Bytes} :
    Extracts buffer ms rest ↔ Framing.Comes totalLength buffer ms rest := by
  constructor
  · intro h
    induction h with
    | nil b => exact .nil b
    | cons he _ ih => exact .cons (tryExtractMessage_eq_some.mp he) ih
  · intro h
    induction h with
    | nil b => exact .nil b
    | cons he _ ih => exact .cons (tryExtractMessage_eq_some.mpr he) ih

theorem extractLoop_eq : ∀ (fuel : ℕ) (b : Bytes),
    extractLoop fuel b = .ok (Framing.drain totalLength fuel b)
  | 0, _ => rfl
  | fuel + 1, b => by
    rw [extractLoop, tryExtractMessage_eq, Framing.drain]
    cases Framing.extract totalLength b with
    | none => rfl
    | some p => simp [extractLoop_eq fuel p.2, bind, Except.bind, pure, Except.pure]

theorem receive_eq (fuel : ℕ) : ∀ (cs : List (Bytes × Bool)) (b : Bytes),
    receive fuel b cs = .ok (Framing.feed totalLength fuel b cs)
  | [], _ => rfl
  | (c, false) :: cs, b => by
    rw [receive, Framing.feed, receive_eq fuel cs]
  | (c, true) :: cs, b => by
    rw [receive, Framing.feed, extractLoop_eq]
    cases Framing.drain totalLength fuel (b ++ c) with
    | none => rfl
    | some p => simp [receive_eq fuel cs, bind, Except.bind, pure, Except.pure]

/-! ### The announced length is stable -/

theorem stable_totalLength : Framing.Stable totalLength := by
  intro b c n h
  unfold totalLength at h ⊢
  split at h
  · rename_i h8
    have h8' : (txt "8=").isPrefixOf (b ++ c) = true := by
      rw [List.isPrefixOf_iff_prefix] at h8 ⊢
      exact h8.trans (List.prefix_append b c)
    obtain ⟨firstSoh, hf, h⟩ := Option.bind_eq_some_iff.mp h
    have hlt := (findFrom_le_lt hf).2
    rw [if_pos h8', findFrom_append c hf, Option.bind_some]
    split at h
    · rename_i h9
      have h9' : (txt "9=").isPrefixOf ((b ++ c).drop (firstSoh + 1)) = true := by
        rw [List.drop_append_of_le_length (by omega)]
        rw [List.isPrefixOf_iff_prefix] at h9 ⊢
        exact h9.trans (List.prefix_append _ c)
      obtain ⟨bodyLenSoh, hl, h⟩ := Option.bind_eq_some_iff.mp h
      obtain ⟨hle, hlt'⟩ := findFrom_le_lt hl
      rw [if_pos h9', findFrom_append c hl, Option.bind_some]
      have htake : ((b ++ c).drop (firstSoh + 3)).take (bodyLenSoh - (firstSoh + 3)) =
          (b.drop (firstSoh + 3)).take (bodyLenSoh - (firstSoh + 3)) := by
        rw [List.drop_append_of_le_length (by omega),
          List.take_append_of_le_length (by rw [List.length_drop]; omega)]
      rw [htake]
      exact h
    · cases h
  · cases h

/-- **Framing does not depend on how TCP cuts the stream.** -/
theorem framing_of_chunks {s : Bytes} (hs : ∀ ms r, Extracts s ms r → [] ∉ ms)
    {cs : List (Bytes × Bool)} (hcs : (cs.map Prod.fst).flatten = s)
    (hlast : ∀ p, cs.getLast? = some p → p.2 = true) :
    ∃ ms r, ∀ fuel, s.length < fuel →
      extractLoop fuel s = .ok (some (ms, r)) ∧ receive fuel [] cs = .ok (some (ms, r)) := by
  have hp : Framing.Proper totalLength s := fun ms r hc => hs ms r (extracts_iff_comes.mpr hc)
  obtain ⟨ms, r, h⟩ := Framing.feed_eq_drain stable_totalLength hp hcs hlast
  refine ⟨ms, r, fun fuel hf => ?_⟩
  obtain ⟨h1, h2⟩ := h fuel hf
  exact ⟨by rw [extractLoop_eq, h1], by rw [receive_eq, h2]⟩

def cutStream : List (Bytes × Bool) :=
  [(txt "8=F" ++ [SOH] ++ txt "9", true), (txt "=1", true), (txt "1" ++ [SOH] ++ txt "35=", false),
    (txt "D" ++ [SOH] ++ txt "58=x" ++ [SOH] ++ txt "=10=000", true), ([SOH] ++ txt "8=F", true)]

theorem framing_of_chunks_cutStream :
    ∃ ms r, ∀ fuel, ((cutStream.map Prod.fst).flatten).length < fuel →
      extractLoop fuel (cutStream.map Prod.fst).flatten = .ok (some (ms, r)) ∧
      receive fuel [] cutStream = .ok (some (ms, r)) := by
  refine framing_of_chunks (fun ms r h => ?_) rfl (by decide)
  have hd : Framing.drain totalLength 3 (cutStream.map Prod.fst).flatten =
      some ([((cutStream.map Prod.fst).flatten).take 27], txt "8=F") := by decide +kernel
  exact Framing.proper_of_drain hd (by decide +kernel) ms r (extracts_iff_comes.mp h)

/-! ### What `buildMessage` encodes -/

theorem length_decimal_le {n k : ℕ} (hk : 0 < k) (h : n < 10 ^ k) : (decimal n).length ≤ k := by
  unfold decimal
  split
  · exact hk
  · rw [List.length_reverse, List.length_map]
    exact (Nat.digits_length_le_iff (by norm_num) n).mpr h

def frameHead (n : ℕ) : Bytes := txt "8=FIX.4.2" ++ [SOH] ++ txt "9=" ++ decimal n ++ [SOH]

theorem buildMessage_eq (body : Bytes) : buildMessage body =
    frameHead body.length ++ body ++
      (txt "10=" ++ pad3 (byteSum (frameHead body.length ++ body)) ++ [SOH]) := by
  simp [buildMessage, frameHead, List.append_assoc]

theorem length_buildMessage (body : Bytes) :
    (buildMessage body).length = 20 + (decimal body.length).length + body.length := by
  have h1 : (txt "8=FIX.4.2").length = 9 := rfl
  have h2 : (txt "9=").length = 2 := rfl
  have h3 : (txt "10=").length = 3 := rfl
  simp only [buildMessage, List.length_append, h1, h2, h3, pad3, List.length_cons, List.length_nil]
  omega

theorem soh_notMem_decimal (n : ℕ) : SOH ∉ decimal n :=
  fun h => (isDigit_cases (isDigit_of_mem_decimal h)).2.2.2.1 rfl

/-- The head of a frame announces the frame's length. -/
theorem totalLength_buildMessage {body : Bytes} (h : body.length < 2 ^ 63) :
    totalLength (buildMessage body) = some (buildMessage body).length := by
  have hlen := length_buildMessage body
  set tail := body ++ (txt "10=" ++ pad3 (byteSum (frameHead body.length ++ body)) ++ [SOH])
    with htail
  have e1 : buildMessage body =
      [] ++ txt "8=FIX.4.2" ++ SOH :: (txt "9=" ++ decimal body.length ++ SOH :: tail) := by
    rw [buildMessage_eq]
    simp [frameHead, htail]
  have e2 : buildMessage body =
      (txt "8=FIX.4.2" ++ [SOH] ++ txt "9=") ++ decimal body.length ++ SOH :: tail := by
    rw [e1]
    simp
  have f1 : findFrom SOH (buildMessage body) 0 = some 9 := by
    rw [e1]
    exact findFrom_stretch (p := []) (u := txt "8=FIX.4.2") (by decide)
  have f2 : findFrom SOH (buildMessage body) 12 = some (12 + (decimal body.length).length) := by
    rw [e2]
    exact findFrom_stretch (p := txt "8=FIX.4.2" ++ [SOH] ++ txt "9=") (soh_notMem_decimal _)
  have p8 : (txt "8=").isPrefixOf (buildMessage body) = true := by
    rw [e1]
    rfl
  have d10 : (buildMessage body).drop 10 = txt "9=" ++ (decimal body.length ++ SOH :: tail) := by
    rw [e2, List.append_assoc]
    rfl
  have d12 : (buildMessage body).drop 12 = decimal body.length ++ SOH :: tail := by
    rw [e2, List.append_assoc]
    rfl
  have p9 : (txt "9=").isPrefixOf ((buildMessage body).drop 10) = true := by
    rw [d10, List.isPrefixOf_iff_prefix]
    exact List.prefix_append _ _
  have hdec := length_decimal_le (k := 19) (by norm_num) (h.trans (by norm_num))
  unfold totalLength
  rw [if_pos p8, f1, Option.bind_some, if_pos p9, f2, Option.bind_some, d12]
  have ht : (decimal body.length ++ SOH :: tail).take
      (12 + (decimal body.length).length - (9 + 3)) = decimal body.length :=
    List.take_left' (by omega)
  rw [ht, stoul_decimal (by omega)]
  show some (sizeT _) = _
  rw [hlen, sizeT, Nat.mod_eq_of_lt (by omega)]
  congr 1
  omega

theorem isDigit_pad3 {n : ℕ} {c : UInt8} (h : c ∈ pad3 n) : isDigit c = true := by
  simp only [pad3, List.mem_cons, List.not_mem_nil, or_false] at h
  rcases h with rfl | rfl | rfl <;> exact isDigit_ofNat (Nat.mod_lt _ (by norm_num))

theorem stoi_pad3 : ∀ n < 256, stoi (pad3 n) = .ok (n : ℤ) := by decide +kernel

theorem byteSum_lt (s : Bytes) : byteSum s < 256 := Nat.mod_lt _ (by norm_num)

theorem rfind_buildMessage (body : Bytes) :
    rfind (txt "10=") (buildMessage body) = some (frameHead body.length ++ body).length := by
  rw [buildMessage_eq]
  have hd : byte '=' ∉ pad3 (byteSum (frameHead body.length ++ body)) ++ [SOH] := by
    simp only [List.mem_append, List.mem_singleton, not_or]
    exact ⟨fun h => (isDigit_cases (isDigit_pad3 h)).2.2.2.2 rfl, by decide⟩
  have h0 := rfind_eq_none (by decide : byte '=' ∈ txt "10=") hd
  have h1 : rfind (txt "10=")
      (txt "10=" ++ pad3 (byteSum (frameHead body.length ++ body)) ++ [SOH]) = some 0 := by
    have e : txt "10=" ++ pad3 (byteSum (frameHead body.length ++ body)) ++ [SOH] =
        byte '1' :: byte '0' :: byte '=' :: (pad3 (byteSum (frameHead body.length ++ body)) ++ [SOH]) :=
      rfl
    rw [e, rfind, rfind, rfind, h0]
    rfl
  exact rfind_append h1 _

/-- **The checksum of a frame is right.** -/
theorem verifyChecksum_buildMessage (body : Bytes) :
    verifyChecksum (buildMessage body) = .ok true := by
  unfold verifyChecksum
  rw [rfind_buildMessage]
  set pre := frameHead body.length ++ body with hpre
  have e : buildMessage body = pre ++ txt "10=" ++ pad3 (byteSum pre) ++ SOH :: [] := by
    rw [buildMessage_eq, ← hpre]
    simp
  have hsoh : SOH ∉ pad3 (byteSum pre) :=
    fun h => (isDigit_cases (isDigit_pad3 h)).2.2.2.1 rfl
  have hf : findFrom SOH (buildMessage body) (pre.length + 3) = some (pre.length + 3 + 3) := by
    have := findFrom_stretch (p := pre ++ txt "10=") (t := []) hsoh
    rw [List.length_append] at this
    rw [e]
    exact this
  have htake : (buildMessage body).take pre.length = pre := by
    rw [e, List.append_assoc, List.append_assoc]
    exact List.take_left' rfl
  have hdrop : ((buildMessage body).drop (pre.length + 3)).take 3 = pad3 (byteSum pre) := by
    rw [e, List.append_assoc, List.drop_left' (by simp; rfl)]
    rfl
  have hle : pre.length + 3 ≤ (buildMessage body).length := by
    rw [e]
    simp [pad3]
  simp only [hf, htake, substr_ok _ hle, Nat.add_sub_cancel_left, hdrop,
    stoi_pad3 _ (byteSum_lt pre), bind, Except.bind, pure, Except.pure, beq_self_eq_true]

/-- **Framing decodes what `buildMessage` encodes, over whole streams.** -/
theorem framing_of_frames {bodies : List Bytes} (h : (bodies.map List.length).sum < 2 ^ 63)
    {body r : Bytes} (hb : body.length < 2 ^ 63) (hr : r <+: buildMessage body)
    (hne : r ≠ buildMessage body) :
    (∀ fuel, bodies.length < fuel →
      extractLoop fuel ((bodies.map buildMessage).flatten ++ r) =
        .ok (some (bodies.map buildMessage, r))) ∧
    ∀ m ∈ bodies.map buildMessage, verifyChecksum m = .ok true := by
  constructor
  · intro fuel hf
    rw [extractLoop_eq]
    congr 1
    refine Framing.drain_encoded stable_totalLength (totalLength_buildMessage hb) hr hne
      (fun g hg => ?_) fuel (by simpa using hf)
    obtain ⟨b, hbm, rfl⟩ := List.mem_map.mp hg
    have : b.length ≤ (bodies.map List.length).sum :=
      List.single_le_sum (fun x _ => Nat.zero_le x) _ (List.mem_map_of_mem hbm)
    exact totalLength_buildMessage (by omega)
  · intro m hm
    obtain ⟨b, -, rfl⟩ := List.mem_map.mp hm
    exact verifyChecksum_buildMessage b

def delimiterBodies : List Bytes := [txt "8=10=" ++ [SOH] ++ txt "9=3", []]

theorem framing_of_frames_delimiterBodies :
    (∀ fuel, delimiterBodies.length < fuel →
      extractLoop fuel ((delimiterBodies.map buildMessage).flatten ++ txt "8=FIX") =
        .ok (some (delimiterBodies.map buildMessage, txt "8=FIX"))) ∧
    ∀ m ∈ delimiterBodies.map buildMessage, verifyChecksum m = .ok true :=
  @framing_of_frames delimiterBodies (by decide +kernel) [] (txt "8=FIX") (by decide)
    (by decide +kernel) (by decide +kernel)

end OrderRisk.Fix
