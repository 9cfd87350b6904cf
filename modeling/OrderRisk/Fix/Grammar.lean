import OrderRisk.Fix.Stream

/-!
# The frame grammar

The head of a frame, `8=` version SOH `9=` length SOH, is the part of the wire format that
`tryExtractMessage` looks at: the length that a buffer announces is the one its head announces
(`totalLength_eq_some`), and a buffer has at most one head (`Head.bytes_inj`).

A whole `Frame` has a length that is a plain numeral and the count of the body's bytes, and a
checksum field behind the body.  The reader of the length is more lenient than that, and the last
seven bytes are not looked at: `exactlyFrames_iff` says on which buffers the two agree.
-/

namespace OrderRisk.Fix

open OrderRisk.Lib

/-! ### Heads -/

/-- What stands in front of a body. -/
structure Head where
  version : Bytes
  lengthText : Bytes
  version_soh : SOH ∉ version
  lengthText_soh : SOH ∉ lengthText

namespace Head

def bytes (h : Head) : Bytes :=
  txt "8=" ++ h.version ++ SOH :: (txt "9=" ++ h.lengthText ++ SOH :: [])

theorem bytes_append (h : Head) (r : Bytes) :
    h.bytes ++ r = txt "8=" ++ (h.version ++ SOH :: (txt "9=" ++ (h.lengthText ++ SOH :: r))) := by
  simp [bytes]

theorem length_bytes (h : Head) :
    h.bytes.length = h.version.length + h.lengthText.length + 6 := by
  have h8 : (txt "8=").length = 2 := rfl
  have h9 : (txt "9=").length = 2 := rfl
  simp only [bytes, List.length_append, List.length_cons, List.length_nil, h8, h9]
  omega

theorem bytes_inj {h h' : Head} {r r' : Bytes} (he : h.bytes ++ r = h'.bytes ++ r') :
    h = h' ∧ r = r' := by
  rw [bytes_append, bytes_append, List.append_cancel_left_eq] at he
  obtain ⟨hv, he⟩ := stretch_inj h.version_soh h'.version_soh he
  rw [List.append_cancel_left_eq] at he
  obtain ⟨hl, rfl⟩ := stretch_inj h.lengthText_soh h'.lengthText_soh he
  obtain ⟨v, l, _, _⟩ := h
  obtain ⟨v', l', _, _⟩ := h'
  obtain rfl : v = v' := hv
  obtain rfl : l = l' := hl
  exact ⟨rfl, rfl⟩

end Head

/-- The buffer begins with a head whose length text reads as a number, and that makes `n` bytes
for the whole message. -/
def Announces (b : Bytes) (n : ℕ) : Prop :=
  ∃ (h : Head) (r : Bytes) (k : ℕ), b = h.bytes ++ r ∧ stoul h.lengthText = .ok k ∧
    n = sizeT (h.bytes.length + k + 7)

theorem totalLength_head {h : Head} {k : ℕ} (hk : stoul h.lengthText = .ok k) (r : Bytes) :
    totalLength (h.bytes ++ r) = some (sizeT (h.bytes.length + k + 7)) := by
  have hlen := h.length_bytes
  have h8 : (txt "8=").isPrefixOf (h.bytes ++ r) = true := by
    rw [Head.bytes_append, List.isPrefixOf_iff_prefix]
    exact List.prefix_append _ _
  have hf : findFrom SOH (h.bytes ++ r) 0 = some (h.version.length + 2) := by
    have e : h.bytes ++ r =
        [] ++ (txt "8=" ++ h.version) ++ SOH :: (txt "9=" ++ (h.lengthText ++ SOH :: r)) := by
      simp [Head.bytes]
    have hsoh : SOH ∉ txt "8=" ++ h.version := by
      rw [List.mem_append, not_or]
      exact ⟨by decide, h.version_soh⟩
    have h2 : (txt "8=" ++ h.version).length = h.version.length + 2 := by
      rw [List.length_append, Nat.add_comm]
      rfl
    have := findFrom_stretch (p := []) (t := txt "9=" ++ (h.lengthText ++ SOH :: r)) hsoh
    rw [← e, h2, List.length_nil, Nat.zero_add] at this
    exact this
  have hp : (txt "8=" ++ h.version ++ SOH :: txt "9=").length = h.version.length + 2 + 3 := by
    have h8 : (txt "8=").length = 2 := rfl
    have h9 : (txt "9=").length = 2 := rfl
    simp only [List.length_append, List.length_cons, h8, h9]
    omega
  have e : h.bytes ++ r =
      (txt "8=" ++ h.version ++ SOH :: txt "9=") ++ h.lengthText ++ SOH :: r := by
    simp [Head.bytes]
  have h9 : (txt "9=").isPrefixOf ((h.bytes ++ r).drop (h.version.length + 2 + 1)) = true := by
    have e9 : h.bytes ++ r =
        (txt "8=" ++ h.version ++ [SOH]) ++ (txt "9=" ++ (h.lengthText ++ SOH :: r)) := by
      simp [Head.bytes]
    rw [e9, List.drop_left' (by simp [txt]), List.isPrefixOf_iff_prefix]
    exact List.prefix_append _ _
  have hl := findFrom_stretch (p := txt "8=" ++ h.version ++ SOH :: txt "9=") (t := r)
    h.lengthText_soh
  rw [← e, hp] at hl
  have htake : ((h.bytes ++ r).drop (h.version.length + 2 + 3)).take
      (h.version.length + 2 + 3 + h.lengthText.length - (h.version.length + 2 + 3)) =
      h.lengthText := by
    rw [e, List.append_assoc, List.drop_left' hp, Nat.add_sub_cancel_left]
    exact List.take_left' rfl
  unfold totalLength
  rw [if_pos h8, hf, Option.bind_some, if_pos h9, hl, Option.bind_some, htake, hk]
  show some (sizeT _) = _
  congr 2
  omega

theorem totalLength_eq_some {b : Bytes} {n : ℕ} : totalLength b = some n ↔ Announces b n := by
  constructor
  · intro h
    unfold totalLength at h
    split at h
    · next h8 =>
      obtain ⟨firstSoh, hf, h⟩ := Option.bind_eq_some_iff.mp h
      split at h
      · next h9 =>
        obtain ⟨bodyLenSoh, hl, h⟩ := Option.bind_eq_some_iff.mp h
        split at h
        · cases h
        · next k hk =>
          obtain ⟨t, rfl⟩ := List.isPrefixOf_iff_prefix.mp h8
          have hlt := (findFrom_le_lt hf).2
          -- the version, up to the first SOH
          obtain ⟨u, t', hu, hsoh, rfl⟩ := exists_stretch_of_findFrom hf
          rw [List.take_zero, List.nil_append] at hu
          obtain ⟨v, rfl⟩ : ∃ v, u = txt "8=" ++ v := by
            rcases List.append_eq_append_iff.mp hu with ⟨c, rfl, -⟩ | ⟨c, hc, hc'⟩
            · exact ⟨c, rfl⟩
            · have : SOH ∉ txt "8=" := by decide
              cases c with
              | nil => exact ⟨[], by simpa using hc.symm⟩
              | cons x c =>
                simp only [List.cons_append, List.cons.injEq] at hc'
                rw [hc, hc'.1] at this
                simp at this
          rw [hu] at h9 hl hk hlt
          rw [Nat.zero_add] at h9 hl hk
          rw [List.append_assoc, ← List.singleton_append, ← List.append_assoc,
            ← List.append_assoc] at h9
          rw [List.drop_left' (by simp [Nat.add_assoc])] at h9
          obtain ⟨w, rfl⟩ := List.isPrefixOf_iff_prefix.mp h9
          -- the length, up to the second SOH
          have hp : (txt "8=" ++ v ++ SOH :: txt "9=").length = (txt "8=" ++ v).length + 3 := by
            simp [txt]
          have e : txt "8=" ++ v ++ SOH :: (txt "9=" ++ w) =
              (txt "8=" ++ v ++ SOH :: txt "9=") ++ w := by
            simp
          rw [e, ← hp] at hl hk
          obtain ⟨l, r, hw, hl', rfl⟩ := exists_stretch_of_findFrom hl
          rw [List.take_left' rfl] at hw
          obtain rfl : w = l ++ SOH :: r :=
            List.append_cancel_left (hw.trans (List.append_assoc ..))
          rw [List.drop_left' rfl, Nat.add_sub_cancel_left, List.take_left' rfl] at hk
          have hv : SOH ∉ v := fun hm => hsoh (List.mem_append_right _ hm)
          refine ⟨⟨v, l, hv, hl'⟩, r, k, ?_, hk, ?_⟩
          · rw [hu]
            simp [Head.bytes]
          · rw [← Option.some.inj h, Head.length_bytes, hp]
            congr 1
            simp [txt]
            omega
      · cases h
    · cases h
  · rintro ⟨h, r, k, rfl, hk, rfl⟩
    exact totalLength_head hk r

theorem tryExtractMessage_some_iff {b m r : Bytes} :
    tryExtractMessage b = .ok (some m, r) ↔ b = m ++ r ∧ Announces b m.length := by
  rw [tryExtractMessage_eq_some, ← totalLength_eq_some]
  constructor
  · exact Framing.extract_eq_some
  · rintro ⟨rfl, h⟩
    exact Framing.extract_of_len h

theorem Announces.extract {b : Bytes} {n : ℕ} (h : Announces b n) (hn : n ≤ b.length) :
    tryExtractMessage b = .ok (some (b.take n), b.drop n) :=
  tryExtractMessage_some_iff.mpr
    ⟨(List.take_append_drop n b).symm, by rwa [List.length_take_of_le hn]⟩

theorem tryExtractMessage_none {b : Bytes} (h : ∀ n ≤ b.length, ¬ Announces b n) :
    tryExtractMessage b = .ok (none, b) := by
  have he : Framing.extract totalLength b = none := by
    by_contra hne
    obtain ⟨⟨m, r⟩, hm⟩ := Option.ne_none_iff_exists'.mp hne
    obtain ⟨hb, ha⟩ := tryExtractMessage_some_iff.mp (tryExtractMessage_eq_some.mpr hm)
    refine h m.length ?_ ha
    rw [hb, List.length_append]
    omega
  rw [tryExtractMessage_eq, he]

/-! ### Frames -/

/-- `10=`, three digits, SOH. -/
def IsTrailer (t : Bytes) : Prop :=
  ∃ d1 d2 d3, isDigit d1 = true ∧ isDigit d2 = true ∧ isDigit d3 = true ∧
    t = txt "10=" ++ [d1, d2, d3, SOH]

/-- An unsigned decimal numeral. -/
def IsNumeral (s : Bytes) : Prop := s ≠ [] ∧ ∀ c ∈ s, isDigit c = true

/-- A message of the documented wire format. -/
structure Frame extends Head where
  body : Bytes
  trailer : Bytes
  numeral : IsNumeral lengthText
  length_eq : readDigits 10 digitVal lengthText = body.length
  isTrailer : IsTrailer trailer

def Frame.whole (f : Frame) : Bytes := f.bytes ++ (f.body ++ f.trailer)

/-- `tryExtractMessage` takes off `b` the frame that `b` begins with, and nothing else. -/
structure ExactlyFrames (b : Bytes) : Prop where
  some_iff : ∀ m r, tryExtractMessage b = .ok (some m, r) ↔
    (∃ f : Frame, f.whole = m) ∧ b = m ++ r
  none_of : (∀ f : Frame, ¬ f.whole <+: b) → tryExtractMessage b = .ok (none, b)

/-- If the head of the buffer has a length text that the reader accepts, and the message this makes
has arrived, then the text is a numeral and a checksum field stands behind the body. -/
def Plain (b : Bytes) : Prop :=
  ∀ (h : Head) (r : Bytes) (k : ℕ), b = h.bytes ++ r → stoul h.lengthText = .ok k →
    sizeT (h.bytes.length + k + 7) ≤ b.length →
    IsNumeral h.lengthText ∧ IsTrailer ((r.drop k).take 7)

theorem IsTrailer.length {t : Bytes} (h : IsTrailer t) : t.length = 7 := by
  obtain ⟨d1, d2, d3, -, -, -, rfl⟩ := h
  rfl

theorem stoul_numeral {s : Bytes} (h : IsNumeral s) : stoul s =
    if 2 ^ 64 ≤ readDigits 10 digitVal s then .error .outOfRange
    else .ok (readDigits 10 digitVal s) := by
  have hs : scanInteger (s ++ []) = some (false, readDigits 10 digitVal s) :=
    scanInteger_digits h.1 h.2 (by simp)
  rw [List.append_nil] at hs
  simp [stoul, hs]

theorem Frame.announces (f : Frame) {r : Bytes} (h : (f.whole ++ r).length < 2 ^ 63) :
    Announces (f.whole ++ r) f.whole.length := by
  have h7 := f.isTrailer.length
  have hlen : f.whole.length = f.bytes.length + f.body.length + 7 := by
    rw [Frame.whole, List.length_append, List.length_append, h7, Nat.add_assoc]
  rw [List.length_append] at h
  refine ⟨f.toHead, f.body ++ f.trailer ++ r, f.body.length, by simp [Frame.whole], ?_, ?_⟩
  · rw [stoul_numeral f.numeral, f.length_eq, if_neg (by omega)]
  · rw [hlen, sizeT, Nat.mod_eq_of_lt (by omega)]

/-- **On which buffers the framer accepts exactly the frames.** -/
theorem exactlyFrames_iff {b : Bytes} (hb : b.length < 2 ^ 63) : ExactlyFrames b ↔ Plain b := by
  constructor
  · rintro ⟨hs, -⟩ h r k rfl hk hle
    -- the framer takes something off: it is a frame, with this head
    have hann : Announces (h.bytes ++ r) (sizeT (h.bytes.length + k + 7)) := ⟨h, r, k, rfl, hk, rfl⟩
    obtain ⟨f, hf⟩ := ((hs _ _).mp (hann.extract hle)).1
    obtain ⟨t, ht⟩ : f.whole <+: h.bytes ++ r := hf ▸ List.take_prefix _ _
    rw [Frame.whole, List.append_assoc] at ht
    obtain ⟨he, rfl⟩ := Head.bytes_inj ht
    rw [← he] at hk ⊢
    refine ⟨f.numeral, ?_⟩
    rw [stoul_numeral f.numeral, f.length_eq] at hk
    split at hk <;> cases hk
    rw [List.append_assoc, List.drop_left' rfl, List.take_left' f.isTrailer.length]
    exact f.isTrailer
  · intro hp
    have hsome : ∀ m r, tryExtractMessage b = .ok (some m, r) →
        (∃ f : Frame, f.whole = m) ∧ b = m ++ r := by
      intro m r h
      obtain ⟨hbm, hd, r', k, hbh, hk, hm⟩ := tryExtractMessage_some_iff.mp h
      refine ⟨?_, hbm⟩
      have hle : sizeT (hd.bytes.length + k + 7) ≤ b.length := by
        rw [← hm, hbm, List.length_append]
        omega
      obtain ⟨hnum, htr⟩ := hp hd r' k hbh hk hle
      have h7 := htr.length
      rw [List.length_take, List.length_drop] at h7
      have hlen : b.length = hd.bytes.length + r'.length := by rw [hbh, List.length_append]
      rw [sizeT, Nat.mod_eq_of_lt (by omega)] at hm
      rw [stoul_numeral hnum] at hk
      split at hk <;> cases hk
      refine ⟨⟨hd, r'.take (readDigits 10 digitVal hd.lengthText), _, hnum, ?_, htr⟩, ?_⟩
      · rw [List.length_take]
        omega
      · have hmt : m = b.take m.length := by rw [hbm, List.take_left' rfl]
        rw [hmt, hm, hbh, Nat.add_assoc, List.take_length_add_append, List.take_add]
        rfl
    refine ⟨fun m r => ⟨hsome m r, ?_⟩, fun hno => ?_⟩
    · rintro ⟨⟨f, rfl⟩, rfl⟩
      exact tryExtractMessage_some_iff.mpr ⟨rfl, f.announces hb⟩
    · refine tryExtractMessage_none fun n hn ha => ?_
      obtain ⟨⟨f, hf⟩, -⟩ := hsome _ _ (ha.extract hn)
      exact hno f (hf ▸ List.take_prefix n b)

/-- A field of seven bytes stands where the checksum field should. -/
def noTrailer : Bytes :=
  txt "8=FIX.4.2" ++ [SOH] ++ txt "9=5" ++ [SOH] ++ txt "35=D" ++ [SOH] ++ txt "58=bye" ++ [SOH]

theorem noTrailer_not_exactlyFrames :
    ¬ ∀ b : Bytes, b.length < 2 ^ 63 → ExactlyFrames b := by
  intro h
  have hx : tryExtractMessage noTrailer = .ok (some noTrailer, []) := by decide +kernel
  obtain ⟨⟨f, hf⟩, -⟩ := ((h noTrailer (by decide)).some_iff _ _).mp hx
  obtain ⟨d1, d2, d3, -, -, -, ht⟩ := f.isTrailer
  have hlast : (txt "10=" ++ [d1, d2, d3, SOH]) <:+ noTrailer := by
    rw [← ht, ← hf, Frame.whole, ← List.append_assoc]
    exact List.suffix_append _ _
  have h3 := congrArg (List.take 3) (List.suffix_iff_eq_drop.mp hlast)
  have h1 : List.take 3 (txt "10=" ++ [d1, d2, d3, SOH]) = txt "10=" := rfl
  have h2 : (txt "10=" ++ [d1, d2, d3, SOH]).length = 7 := rfl
  rw [h1, h2] at h3
  exact absurd h3 (by decide)

theorem exactlyFrames_iff_heartbeat :
    ExactlyFrames (buildMessage (txt "35=0" ++ [SOH])) ↔
      Plain (buildMessage (txt "35=0" ++ [SOH])) :=
  exactlyFrames_iff (by decide +kernel)

end OrderRisk.Fix
