import OrderRisk.Fix.Grammar

/-!
# Does the extract loop end, and does the buffer ever get stuck?

`Leads s t` says that taking announced messages off the front of `s` gets to `t`.  The loop of
`handleReadable` ends unless it gets to a head that announces 0 bytes, a length that has wrapped
around `2 ^ 64` (`extractLoop_ends_iff`).  And what it leaves in the buffer can still become a
message unless it gets to bytes that no head begins with (`neverWedged_iff`).
-/

namespace OrderRisk.Fix

open OrderRisk.Lib

/-- Taking announced messages off the front of `s` gets to `t`. -/
inductive Leads : Bytes → Bytes → Prop
  | refl (s : Bytes) : Leads s s
  | next {s t : Bytes} {n : ℕ} : Announces s n → n ≤ s.length → Leads (s.drop n) t → Leads s t

theorem leads_iff_extracts {s t : Bytes} : Leads s t ↔ ∃ ms, Extracts s ms t := by
  constructor
  · intro h
    induction h with
    | refl s => exact ⟨[], .nil s⟩
    | @next s t n ha hn _ ih =>
      obtain ⟨ms, hms⟩ := ih
      exact ⟨s.take n :: ms, .cons (ha.extract hn) hms⟩
  · rintro ⟨ms, h⟩
    induction h with
    | nil s => exact .refl s
    | @cons s m s' t ms hx _ ih =>
      obtain ⟨rfl, ha⟩ := tryExtractMessage_some_iff.mp hx
      refine .next ha (by simp) ?_
      rwa [List.drop_left' rfl]

/-! ### Termination -/

/-- Every message the loop takes off shortens the buffer, so the loop ends, with at most as many
messages as the buffer had bytes. -/
structure LoopEnds (b : Bytes) : Prop where
  shorter : ∀ ms b' m rest, Extracts b ms b' → tryExtractMessage b' = .ok (some m, rest) →
    rest.length < b'.length
  ends : ∃ fuel ms rest, extractLoop fuel b = .ok (some (ms, rest)) ∧ ms.length ≤ b.length

theorem proper_iff {b : Bytes} :
    Framing.Proper totalLength b ↔ ¬ ∃ t, Leads b t ∧ Announces t 0 := by
  constructor
  · rintro hp ⟨t, hl, ha⟩
    obtain ⟨ms, hms⟩ := leads_iff_extracts.mp hl
    have h0 : Extracts t [[]] t := .cons (tryExtractMessage_some_iff.mpr ⟨rfl, ha⟩) (.nil t)
    have := (extracts_iff_comes.mp hms).trans (extracts_iff_comes.mp h0)
    exact hp _ _ this (by simp)
  · intro h ms r hc
    induction hc with
    | nil b => simp
    | @cons b m b' r ms he _ ih =>
      rw [List.mem_cons, not_or]
      obtain ⟨rfl, ha⟩ := Framing.extract_eq_some he
      rw [totalLength_eq_some] at ha
      constructor
      · rintro rfl
        exact h ⟨_, .refl _, ha⟩
      · refine ih fun ⟨t, hl, h0⟩ => h ⟨t, .next ha (by simp) ?_, h0⟩
        rwa [List.drop_left' rfl]

/-- **The extract loop ends, unless it gets to a head whose length has wrapped to 0.** -/
theorem extractLoop_ends_iff (b : Bytes) :
    LoopEnds b ↔ ¬ ∃ t, Leads b t ∧ Announces t 0 := by
  constructor
  · rintro ⟨hs, -⟩ ⟨t, hl, ha⟩
    obtain ⟨ms, hms⟩ := leads_iff_extracts.mp hl
    have := hs ms t [] t hms (tryExtractMessage_some_iff.mpr ⟨rfl, ha⟩)
    omega
  · intro h
    have hp := proper_iff.mpr h
    constructor
    · intro ms b' m rest hms hx
      exact (hp.of_comes (extracts_iff_comes.mp hms)).lt_length (tryExtractMessage_eq_some.mp hx)
    · obtain ⟨ms, r, hc, hr⟩ := Framing.exists_comes hp
      have hle := Framing.Proper.length_le hc hp
      refine ⟨ms.length + 1, ms, r, ?_, by omega⟩
      rw [extractLoop_eq, Framing.drain_of_comes hc hr _ (by omega)]

/-- The length `-16` makes the sum with the nine bytes of the head and the seven of the trailer
0. -/
def wrappedLength : Bytes := txt "8=" ++ [SOH] ++ txt "9=-16" ++ [SOH]

theorem wrappedLength_not_loopEnds : ¬ ∀ b, LoopEnds b := by
  intro h
  have hx : tryExtractMessage wrappedLength = .ok (some [], wrappedLength) := by decide +kernel
  have := (h wrappedLength).shorter [] _ _ _ (.nil _) hx
  omega

/-! ### Wedging -/

/-- What is in `recvBuffer` when the extract loop has ended, after the stream `s` has been
received, in any batches, with the loop run after each. -/
inductive Residue : Bytes → Bytes → Prop
  | start : Residue [] []
  | batch {s b chunk r : Bytes} {ms : List Bytes} : Residue s b → Extracts (b ++ chunk) ms r →
      tryExtractMessage r = .ok (none, r) → Residue (s ++ chunk) r

/-- Some continuation makes `tryExtractMessage` succeed. -/
def Completable (r : Bytes) : Prop :=
  ∃ e m rest, tryExtractMessage (r ++ e) = .ok (some m, rest)

/-- The same, to a string of less than `n` bytes. -/
def CompletableIn (n : ℕ) (r : Bytes) : Prop :=
  ∃ e m rest, (r ++ e).length < n ∧ tryExtractMessage (r ++ e) = .ok (some m, rest)

/-- However the stream is batched, what stays in the buffer can be completed. -/
def NeverWedged (s : Bytes) : Prop := ∀ p r, p <+: s → Residue p r → Completable r

def NeverWedgedIn (n : ℕ) (s : Bytes) : Prop := ∀ p r, p <+: s → Residue p r → CompletableIn n r

/-- The bytes begin with a head whose length text reads as a number, or are the beginning of
one. -/
def Headlike (t : Bytes) : Prop :=
  ∃ (h : Head) (u : Bytes) (k : ℕ), stoul h.lengthText = .ok k ∧ t <+: h.bytes ++ u

/-- The same, and the message that the head announces has less than `n` bytes. -/
def HeadlikeIn (n : ℕ) (t : Bytes) : Prop :=
  ∃ (h : Head) (u : Bytes) (k : ℕ), stoul h.lengthText = .ok k ∧ t <+: h.bytes ++ u ∧
    h.bytes.length < n ∧ sizeT (h.bytes.length + k + 7) < n

theorem completable_iff {r : Bytes} : Completable r ↔ Headlike r := by
  constructor
  · rintro ⟨e, m, rest, hx⟩
    obtain ⟨-, h, u, k, hb, hk, -⟩ := tryExtractMessage_some_iff.mp hx
    exact ⟨h, u, k, hk, hb ▸ List.prefix_append r e⟩
  · rintro ⟨h, u, k, hk, e, he⟩
    -- enough bytes behind the head make any announced length good
    obtain ⟨pad, hpad⟩ : ∃ pad : Bytes, pad.length = 2 ^ 64 :=
      ⟨List.replicate _ 0, List.length_replicate⟩
    have ha : Announces (r ++ (e ++ pad)) (sizeT (h.bytes.length + k + 7)) :=
      ⟨h, u ++ pad, k, by rw [← List.append_assoc, he, List.append_assoc], hk, rfl⟩
    refine ⟨e ++ pad, _, _, ha.extract ?_⟩
    have : sizeT (h.bytes.length + k + 7) < 2 ^ 64 := Nat.mod_lt _ (by omega)
    rw [List.length_append, List.length_append, hpad]
    omega

theorem completableIn_iff {n : ℕ} {r : Bytes} (hr : r.length < n) :
    CompletableIn n r ↔ HeadlikeIn n r := by
  constructor
  · rintro ⟨e, m, rest, hlen, hx⟩
    obtain ⟨hb, h, u, k, hh, hk, hm⟩ := tryExtractMessage_some_iff.mp hx
    refine ⟨h, u, k, hk, hh ▸ List.prefix_append r e, lt_of_le_of_lt ?_ hlen,
      lt_of_le_of_lt ?_ hlen⟩
    · rw [hh, List.length_append]
      exact Nat.le_add_right _ _
    · rw [← hm, hb, List.length_append]
      exact Nat.le_add_right _ _
  · rintro ⟨h, u, k, hk, hp, hhn, hn⟩
    -- the longer of `r` and the head ..
    obtain ⟨e, v, he, hlen⟩ : ∃ e v, r ++ e = h.bytes ++ v ∧ (h.bytes ++ v).length < n := by
      rcases Nat.le_total r.length h.bytes.length with hle | hle
      · obtain ⟨e, he⟩ := List.prefix_of_prefix_length_le hp (List.prefix_append _ u) hle
        exact ⟨e, [], by rw [he, List.append_nil], by rwa [List.append_nil]⟩
      · obtain ⟨v, hv⟩ := List.prefix_of_prefix_length_le (List.prefix_append _ u) hp hle
        exact ⟨[], v, by rw [hv, List.append_nil], by rwa [hv]⟩
    -- .. and then up to the announced length
    obtain ⟨pad, hpad⟩ : ∃ pad : Bytes,
        pad.length = sizeT (h.bytes.length + k + 7) - (h.bytes ++ v).length :=
      ⟨List.replicate _ 0, List.length_replicate⟩
    have hb : r ++ (e ++ pad) = h.bytes ++ (v ++ pad) := by
      rw [← List.append_assoc, he, List.append_assoc]
    have ha : Announces (r ++ (e ++ pad)) (sizeT (h.bytes.length + k + 7)) :=
      ⟨h, v ++ pad, k, hb, hk, rfl⟩
    rw [List.length_append] at hlen hpad
    refine ⟨e ++ pad, _, _, ?_, ha.extract ?_⟩ <;>
      rw [hb, List.length_append, List.length_append] <;> omega

theorem Extracts.append_right {b r : Bytes} {ms : List Bytes} (h : Extracts b ms r) (c : Bytes) :
    Extracts (b ++ c) ms (r ++ c) :=
  extracts_iff_comes.mpr ((extracts_iff_comes.mp h).append_right stable_totalLength c)

theorem Extracts.trans {b b' r : Bytes} {ms ms' : List Bytes} (h : Extracts b ms b')
    (h' : Extracts b' ms' r) : Extracts b (ms ++ ms') r :=
  extracts_iff_comes.mpr ((extracts_iff_comes.mp h).trans (extracts_iff_comes.mp h'))

/-- What the loop leaves in the buffer comes behind messages of the stream. -/
theorem Residue.extracts {s r : Bytes} (h : Residue s r) : ∃ ms, Extracts s ms r := by
  induction h with
  | start => exact ⟨[], .nil []⟩
  | batch _ hx _ ih =>
    obtain ⟨ms, hms⟩ := ih
    exact ⟨_, (hms.append_right _).trans hx⟩

theorem Leads.length_le {s t : Bytes} (h : Leads s t) : t.length ≤ s.length := by
  induction h with
  | refl s => exact le_rfl
  | next _ _ _ ih => exact ih.trans (by rw [List.length_drop]; exact Nat.sub_le _ _)

/-- What stays in the buffer meets `C` in every batching exactly if the bytes that the stream gets
to all meet `H`: `C` asks for what `H` says, `H` holds of the beginnings of what it holds of, and
where it fails nothing is taken off. -/
theorem residues_iff {C H : Bytes → Prop} {s : Bytes} (hC : ∀ r, r.length ≤ s.length → (C r ↔ H r))
    (hH : ∀ t t', H t' → t <+: t' → H t)
    (hnone : ∀ t, t.length ≤ s.length → (∃ n ≤ t.length, Announces t n) → H t) :
    (∀ p r, p <+: s → Residue p r → C r) ↔ ∀ t, Leads s t → H t := by
  constructor
  · intro h t hl
    by_contra hno
    have hle := hl.length_le
    obtain ⟨ms, hms⟩ := leads_iff_extracts.mp hl
    have hres : Residue s t := by
      have hms' : Extracts ([] ++ s) ms t := hms
      exact Residue.batch .start hms'
        (tryExtractMessage_none fun n hn ha => hno (hnone t hle ⟨n, hn, ha⟩))
    exact hno ((hC t hle).mp (h s t List.prefix_rfl hres))
  · rintro h p r ⟨q, rfl⟩ hres
    obtain ⟨ms, hms⟩ := hres.extracts
    have hl := leads_iff_extracts.mpr ⟨ms, hms.append_right q⟩
    have hle := hl.length_le
    rw [List.length_append] at hle
    exact (hC r (by omega)).mpr (hH r _ (h _ hl) (List.prefix_append r q))

/-- **A connection is never wedged, unless the stream gets to bytes that no head begins with.**  With
strings of less than `n` bytes only, the message announced has to fit too. -/
theorem neverWedged_iff (s : Bytes) : (NeverWedged s ↔ ∀ t, Leads s t → Headlike t) ∧
    ∀ n, s.length < n → (NeverWedgedIn n s ↔ ∀ t, Leads s t → HeadlikeIn n t) := by
  refine ⟨residues_iff (fun r _ => completable_iff) ?_ ?_,
    fun n hn => residues_iff (fun r hr => completableIn_iff (by omega)) ?_ ?_⟩
  · rintro t t' ⟨h, u, k, hk, hp⟩ ht
    exact ⟨h, u, k, hk, ht.trans hp⟩
  · rintro t - ⟨m, -, h, u, k, rfl, hk, -⟩
    exact ⟨h, u, k, hk, List.prefix_rfl⟩
  · rintro t t' ⟨h, u, k, hk, hp, hh, hm⟩ ht
    exact ⟨h, u, k, hk, ht.trans hp, hh, hm⟩
  · rintro t ht ⟨m, hm, h, u, k, rfl, hk, rfl⟩
    refine ⟨h, u, k, hk, List.prefix_rfl, ?_, by omega⟩
    rw [List.length_append] at ht
    omega

/-- The beginning of a head, in a string that can hold what it announces. -/
theorem neverWedged_iff_head : NeverWedgedIn (2 ^ 63) (txt "8=FIX.4.2" ++ [SOH] ++ txt "9=100") ↔
    ∀ t, Leads (txt "8=FIX.4.2" ++ [SOH] ++ txt "9=100") t → HeadlikeIn (2 ^ 63) t :=
  (neverWedged_iff _).2 _ (by decide)

/-- One byte that is no `8` is enough. -/
theorem garbage_wedges : ¬ ∀ s, NeverWedged s := by
  intro h
  have hx : tryExtractMessage (txt "X") = .ok (none, txt "X") := by decide +kernel
  have hres : Residue ([] ++ txt "X") (txt "X") := .batch .start (.nil _) hx
  obtain ⟨e, m, rest, he⟩ := h _ _ _ List.prefix_rfl hres
  obtain ⟨-, hd, r, k, hb, -⟩ := tryExtractMessage_some_iff.mp he
  rw [Head.bytes_append] at hb
  have := congrArg List.head? hb
  revert this
  simp [txt]
  decide

end OrderRisk.Fix
