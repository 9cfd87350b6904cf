import OrderRisk.Fix.Grammar
import OrderRisk.Fix.Fields
import OrderRisk.Risk.Wire

/-!
# What an accepted checksum covers

The checksum field is the one behind the last `10=`.  Nothing ahead of it can change by one byte
without being noticed (`corruption_detected`).  That it is the field at the end of a framed
message, and that no value the order is read from reaches behind it, holds of a message if and
only if its last seven bytes begin with `10=` and do not stand in a field of the order
(`covered_iff`).
-/

namespace OrderRisk.Fix

open OrderRisk.Lib OrderRisk.Risk

/-! ### The checksum field -/

/-- The number `verifyChecksum` reads behind `10=`, if there is one in front of a SOH. -/
def readChecksum (t : Bytes) : Option ℤ :=
  (findFrom SOH t 0).bind fun valEnd =>
    match stoi (t.take valEnd) with
    | .error _ => none
    | .ok received => some received

theorem verifyChecksum_eq (raw : Bytes) : verifyChecksum raw = .ok
    (match rfind (txt "10=") raw with
      | none => false
      | some p => readChecksum (raw.drop (p + 3)) == some (byteSum (raw.take p) : ℤ)) := by
  unfold verifyChecksum
  cases hp : rfind (txt "10=") raw with
  | none => rfl
  | some p =>
    have hf : findFrom SOH raw (p + 3) =
        (findFrom SOH (raw.drop (p + 3)) 0).map (· + (p + 3)) := by
      simp [findFrom]
    have hle : p + 3 ≤ raw.length := by
      obtain ⟨hp1, hp2⟩ := rfind_le_length hp
      have := hp2.length_le
      rw [List.length_drop] at this
      have h3 : (txt "10=").length = 3 := rfl
      omega
    simp only [hf, readChecksum]
    cases findFrom SOH (raw.drop (p + 3)) 0 with
    | none => rfl
    | some v =>
      simp only [Option.map_some, Option.bind_some, substr_ok _ hle, Nat.add_sub_cancel, bind,
        Except.bind, pure, Except.pure]
      cases stoi ((raw.drop (p + 3)).take v) with
      | error e => rfl
      | ok n =>
        have : ((byteSum (raw.take p) : ℤ) == n) = (some n == some (byteSum (raw.take p) : ℤ)) := by
          rw [Bool.eq_iff_iff, beq_iff_eq, beq_iff_eq, Option.some.injEq, eq_comm]
        simp only [this]

theorem verifyChecksum_true {raw : Bytes} : verifyChecksum raw = .ok true ↔
    ∃ p, rfind (txt "10=") raw = some p ∧
      readChecksum (raw.drop (p + 3)) = some (byteSum (raw.take p) : ℤ) := by
  rw [verifyChecksum_eq]
  cases rfind (txt "10=") raw with
  | none => simp
  | some p => simp

theorem parseOrder_bad_checksum {raw : Bytes} (h : verifyChecksum raw = .ok false)
    (erange : ℚ → Bool) (next : ℕ) :
    parseOrder erange next raw = .ok (.error (txt "bad_checksum"), next) := by
  simp [parseOrder, h, bind, Except.bind, pure, Except.pure]

/-- **What `parseOrder` does**: it throws nothing, and rejects for one of three reasons. -/
theorem parseOrder_cases (erange : ℚ → Bool) (next : ℕ) (raw : Bytes) :
    (verifyChecksum raw = .ok false ∧
      parseOrder erange next raw = .ok (.error (txt "bad_checksum"), next)) ∨
    (verifyChecksum raw = .ok true ∧ splitFields raw 35 ≠ some (txt "D") ∧
      parseOrder erange next raw = .ok (.error (txt "unsupported_msgtype"), next)) ∨
    (verifyChecksum raw = .ok true ∧
      ∃ next', parseOrder erange next raw = .ok (.error (txt "malformed_message"), next')) ∨
    (verifyChecksum raw = .ok true ∧
      ∃ o, parseOrder erange next raw = .ok (.ok o, sizeT (next + 1))) := by
  obtain ⟨b, hb⟩ : ∃ b, verifyChecksum raw = .ok b := ⟨_, verifyChecksum_eq raw⟩
  cases b with
  | false => exact .inl ⟨hb, parseOrder_bad_checksum hb erange next⟩
  | true =>
    right
    simp only [hb, true_and, parseOrder, bind, Except.bind, Bool.true_eq_false, if_false]
    split
    · next h35 => exact .inl ⟨h35, rfl⟩
    · split
      · exact .inr (.inl ⟨_, rfl⟩)
      · cases readOrder erange (splitFields raw) next with
        | error e => exact .inr (.inl ⟨_, rfl⟩)
        | ok o => exact .inr (.inr ⟨o, rfl⟩)

/-! ### One changed byte -/

theorem byteSum_eq (s : Bytes) : byteSum s = (s.map UInt8.toNat).sum % 256 :=
  Nat.mod_mod_of_dvd _ (by norm_num)

theorem byteSum_ne (a b : Bytes) {x y : UInt8} (h : x ≠ y) :
    byteSum (a ++ x :: b) ≠ byteSum (a ++ y :: b) := by
  have hx := x.toNat_lt
  have hy := y.toNat_lt
  have hne : x.toNat ≠ y.toNat := fun e => h (UInt8.toNat_inj.mp e)
  simp only [byteSum_eq, List.map_append, List.map_cons, List.sum_append, List.sum_cons]
  omega

/-- **A single changed byte ahead of the checksum field is detected.** -/
theorem corruption_detected {raw raw' : Bytes} {p i : ℕ} (hv : verifyChecksum raw = .ok true)
    (hp : rfind (txt "10=") raw = some p) (hi : i < p) (hlen : raw'.length = raw.length)
    (hne : raw'[i]? ≠ raw[i]?) (hsame : ∀ j, j ≠ i → raw'[j]? = raw[j]?) :
    verifyChecksum raw' = .ok false ∧ ∀ (erange : ℚ → Bool) (next : ℕ),
      parseOrder erange next raw' = .ok (.error (txt "bad_checksum"), next) := by
  have hdrop : ∀ j, i < j → raw'.drop j = raw.drop j := fun j hj =>
    List.ext_getElem? fun k => by
      rw [List.getElem?_drop, List.getElem?_drop, hsame _ (by omega)]
  -- the search from the back ends where it did
  have hp' : rfind (txt "10=") raw' = some p := by
    rw [rfind_eq_some_iff (by decide)] at hp ⊢
    rw [hdrop p hi]
    exact ⟨hp.1, fun j hj => by rw [hdrop j (by omega)]; exact hp.2 j hj⟩
  have hple := (rfind_le_length hp).1
  have htake : raw'.take i = raw.take i := by
    refine List.ext_getElem? fun k => ?_
    rw [List.getElem?_take, List.getElem?_take]
    split
    · exact hsame k (by omega)
    · rfl
  obtain ⟨d, hd⟩ : ∃ d, p = i + (d + 1) := ⟨p - i - 1, by omega⟩
  have hsplit : ∀ s : Bytes, (h : i < s.length) →
      s.take p = s.take i ++ s[i] :: (s.drop (i + 1)).take d := fun s h => by
    rw [hd, List.take_add, List.drop_eq_getElem_cons h, List.take_succ_cons]
  have hb : byteSum (raw'.take p) ≠ byteSum (raw.take p) := by
    rw [hsplit raw' (by omega), hsplit raw (by omega), htake, hdrop (i + 1) (by omega)]
    refine byteSum_ne _ _ fun e => hne ?_
    rw [List.getElem?_eq_getElem (by omega), List.getElem?_eq_getElem (by omega), e]
  have hfalse : verifyChecksum raw' = .ok false := by
    obtain ⟨q, hq, hread⟩ := verifyChecksum_true.mp hv
    rw [hp] at hq
    cases hq
    rw [verifyChecksum_eq, hp']
    dsimp only
    rw [hdrop (p + 3) (by omega), hread]
    simpa using fun e => hb (by exact_mod_cast e.symm)
  exact ⟨hfalse, parseOrder_bad_checksum hfalse⟩

/-- A heartbeat, with one byte of its message type changed. -/
theorem corruption_detected_heartbeat :
    verifyChecksum ((buildMessage (txt "35=0" ++ [SOH])).set 18 (byte '1')) = .ok false ∧
      ∀ (erange : ℚ → Bool) (next : ℕ),
        parseOrder erange next ((buildMessage (txt "35=0" ++ [SOH])).set 18 (byte '1')) =
          .ok (.error (txt "bad_checksum"), next) :=
  @corruption_detected (buildMessage (txt "35=0" ++ [SOH])) _ _ 18 (verifyChecksum_buildMessage _)
    (rfind_buildMessage _) (by decide +kernel) (by simp) (by decide +kernel)
    fun j hj => by rw [List.getElem?_set_ne (by omega)]

/-! ### The checksum field of a framed message -/

/-- In `raw`, the value that `splitFields` has for `tag` is `v`, and ends at position `e`. -/
def ValueAt (raw : Bytes) (tag : ℤ) (v : Bytes) (e : ℕ) : Prop :=
  ∃ (fs : List Field) (f : Field) (fs' : List Field) (r : Bytes),
    raw = fieldBytes fs ++ (f.bytes ++ (fieldBytes fs' ++ r)) ∧ Unfinished r ∧
      stoi f.tag = .ok tag ∧ (∀ g ∈ fs', stoi g.tag ≠ .ok tag) ∧ f.value = v ∧
      e + 1 = (fieldBytes fs ++ f.bytes).length

theorem foldl_addField_of_forall {tag : ℤ} : ∀ {fs : List Field} {fields : Fields},
    (∀ g ∈ fs, stoi g.tag ≠ .ok tag) → fs.foldl addField fields tag = fields tag
  | [], _, _ => rfl
  | f :: fs, fields, h => by
    rw [List.foldl_cons, foldl_addField_of_forall fun g hg => h g (List.mem_cons_of_mem _ hg)]
    unfold addField
    cases ht : stoi f.tag with
    | error e => rfl
    | ok t =>
      refine Function.update_of_ne ?_ ..
      rintro rfl
      exact h f (by simp) ht

theorem ValueAt.splitFields {raw v : Bytes} {tag : ℤ} {e : ℕ} (h : ValueAt raw tag v e) :
    splitFields raw tag = some v := by
  obtain ⟨fs, f, fs', r, rfl, hr, ht, hlast, rfl, -⟩ := h
  have e : fieldBytes fs ++ (f.bytes ++ (fieldBytes fs' ++ r)) = fieldBytes (fs ++ f :: fs') ++ r := by
    simp [fieldBytes_append]
  rw [e, splitFields_eq _ hr, List.foldl_append, List.foldl_cons, foldl_addField_of_forall hlast]
  simp [addField, ht]

/-- The tags that `parseOrder` reads. -/
def orderTags : List ℤ := [35, 55, 54, 38, 44, 1]

/-- The checksum field that was verified is the last seven bytes, and every value of the order
stands ahead of it. -/
structure Covered (m : Bytes) : Prop where
  field : ∃ p, rfind (txt "10=") m = some p ∧ p + 7 = m.length
  values : ∀ tag ∈ orderTags, ∀ v e, ValueAt m tag v e → e + 7 ≤ m.length

/-- The last seven bytes begin with `10=`, and the field in which that stands, as the fields are
split, is not one that the order is read from. -/
structure Sealed (m : Bytes) : Prop where
  trailer : ∃ a w, m = a ++ (txt "10=" ++ w) ∧ w.length = 4
  tag : ∀ (fs : List Field) (f : Field) (z : Bytes), m = fieldBytes fs ++ (f.bytes ++ z) →
    (fieldBytes fs).length + 7 ≤ m.length → m.length < (fieldBytes fs ++ f.bytes).length + 7 →
    ∀ t ∈ [(55 : ℤ), 54, 38, 44, 1], stoi f.tag ≠ .ok t

theorem exists_of_readChecksum {t : Bytes} {n : ℤ} (h : readChecksum t = some n) :
    ∃ d u, t = d ++ SOH :: u ∧ SOH ∉ d ∧ stoi d = .ok n := by
  obtain ⟨v, hv, h⟩ := Option.bind_eq_some_iff.mp h
  obtain ⟨d, u, ht, hd, rfl⟩ := exists_stretch_of_findFrom hv
  rw [List.take_zero, List.nil_append] at ht
  subst ht
  rw [Nat.zero_add, List.take_left' rfl] at h
  refine ⟨d, u, rfl, hd, ?_⟩
  split at h
  · cases h
  · next n' hn =>
    cases h
    exact hn

theorem ne_nil_of_stoi {s : Bytes} {n : ℤ} (h : stoi s = .ok n) : s ≠ [] := by
  rintro rfl
  cases h

theorem Field.three_le {f : Field} {n : ℤ} (h : stoi f.tag = .ok n) : 3 ≤ f.bytes.length := by
  have := List.length_pos_iff.mpr (ne_nil_of_stoi h)
  rw [f.length_bytes]
  omega

theorem getElem?_fieldEnd (x : Bytes) (f : Field) (z : Bytes) :
    (x ++ (f.bytes ++ z))[(x ++ f.bytes).length - 1]? = some SOH := by
  have e : x ++ (f.bytes ++ z) = (x ++ f.tag ++ byte '=' :: f.value) ++ SOH :: z := by
    simp [Field.bytes]
  have hl : (x ++ f.bytes).length - 1 = (x ++ f.tag ++ byte '=' :: f.value).length := by
    simp only [List.length_append, f.length_bytes, List.length_cons]
    omega
  rw [e, hl, List.getElem?_append_right le_rfl, Nat.sub_self]
  rfl

section Trailer

variable {a w d u : Bytes}

theorem getElem?_trailer_ne (hw : w = d ++ SOH :: u) (hd : SOH ∉ d) (hne : d ≠ []) {k : ℕ}
    (h1 : a.length ≤ k) (h2 : k ≤ a.length + 3) : (a ++ (txt "10=" ++ w))[k]? ≠ some SOH := by
  obtain ⟨c, d, rfl⟩ := List.exists_cons_of_ne_nil hne
  have hc : c ≠ SOH := fun e => hd (by simp [e])
  rw [List.getElem?_append_right h1]
  obtain h | h | h | h : k - a.length = 0 ∨ k - a.length = 1 ∨ k - a.length = 2 ∨
      k - a.length = 3 := by omega
  all_goals rw [h]
  · show some (byte '1') ≠ some SOH
    decide
  · show some (byte '0') ≠ some SOH
    decide
  · show some (byte '=') ≠ some SOH
    decide
  · rw [hw]
    show some c ≠ some SOH
    simpa using hc

/-- If the last seven bytes begin with `10=`, that is the checksum field that is verified. -/
theorem trailer_of_verifyChecksum (hv : verifyChecksum (a ++ (txt "10=" ++ w)) = .ok true)
    (hw : w.length = 4) : rfind (txt "10=") (a ++ (txt "10=" ++ w)) = some a.length ∧
      ∃ (d u : Bytes) (n : ℤ), w = d ++ SOH :: u ∧ SOH ∉ d ∧ stoi d = .ok n := by
  obtain ⟨p, hp, hread⟩ := verifyChecksum_true.mp hv
  obtain ⟨hpre, hlast⟩ := (rfind_eq_some_iff (by decide)).mp hp
  obtain ⟨d, u, hdu, hd, hn⟩ := exists_of_readChecksum hread
  have hdpos := List.length_pos_iff.mpr (ne_nil_of_stoi hn)
  have hlen := congrArg List.length hdu
  have h3 : (txt "10=").length = 3 := rfl
  simp only [List.length_drop, List.length_append, h3, hw, List.length_cons] at hlen
  have hge : a.length ≤ p := by
    by_contra hlt
    refine hlast a.length (by omega) ?_
    rw [List.drop_left' rfl]
    exact List.prefix_append _ _
  -- neither the `0` nor the `=` of it begins another `10=`, and further on there is no room
  have hp0 : p = a.length := by
    by_contra hne
    obtain h | h : p = a.length + 1 ∨ p = a.length + 2 := by omega
    all_goals
      rw [h, List.drop_append, List.drop_of_length_le (by omega), Nat.add_sub_cancel_left] at hpre
      obtain ⟨t, ht⟩ := hpre
    · have : some (byte '1') = some (byte '0') := congrArg List.head? ht
      exact absurd this (by decide)
    · have : some (byte '1') = some (byte '=') := congrArg List.head? ht
      exact absurd this (by decide)
  subst hp0
  refine ⟨hp, d, u, _, ?_, hd, hn⟩
  rw [← hdu, List.drop_append, List.drop_of_length_le (by omega), Nat.add_sub_cancel_left]
  rfl

theorem le_of_getElem?_trailer (hw : w = d ++ SOH :: u) (hd : SOH ∉ d) (hne : d ≠ []) {k : ℕ}
    (hk : a.length ≤ k) (h : (a ++ (txt "10=" ++ w))[k]? = some SOH) : a.length + 4 ≤ k := by
  by_contra hcon
  exact getElem?_trailer_ne hw hd hne hk (by omega) h

/-- No field with a number for its tag begins inside the last seven bytes: the field ahead of it
ends behind the checksum's first byte, and that leaves no room. -/
theorem field_begins_ahead (hw : w = d ++ SOH :: u) (hd : SOH ∉ d) (hne : d ≠ [])
    (hw4 : w.length = 4) {fs : List Field} {f : Field} {z : Bytes} {n : ℤ}
    (hm : a ++ (txt "10=" ++ w) = fieldBytes fs ++ (f.bytes ++ z)) (ht : stoi f.tag = .ok n) :
    (fieldBytes fs).length ≤ a.length := by
  by_contra hlt
  obtain ⟨fs, g, rfl⟩ : ∃ fs₀ g, fs = fs₀ ++ [g] := by
    rcases List.eq_nil_or_concat fs with rfl | ⟨fs₀, g, rfl⟩
    · simp at hlt
    · exact ⟨fs₀, g, by simp⟩
  have hg : fieldBytes (fs ++ [g]) = fieldBytes fs ++ g.bytes := by simp [fieldBytes_append]
  rw [hg] at hm hlt
  have hend : (a ++ (txt "10=" ++ w))[(fieldBytes fs ++ g.bytes).length - 1]? = some SOH := by
    rw [hm, List.append_assoc]
    exact getElem?_fieldEnd (fieldBytes fs) g _
  have hsoh := le_of_getElem?_trailer hw hd hne (by omega) hend
  have hroom := Field.three_le ht
  have hlen := congrArg List.length hm
  have h3 : (txt "10=").length = 3 := rfl
  simp only [List.length_append, h3, hw4] at hlen hsoh
  omega

/-- A field with the value `D` that begins ahead of the trailer ends there, too: the text of the
trailer would be in its tag, or the checksum would be `D`. -/
theorem msgType_ends_ahead (hw : w = d ++ SOH :: u) (hd : SOH ∉ d) {n : ℤ} (hn : stoi d = .ok n)
    {fs : List Field} {f : Field} {z : Bytes} (hD : f.value = txt "D")
    (hm : a ++ (txt "10=" ++ w) = fieldBytes fs ++ (f.bytes ++ z))
    (hle : (fieldBytes fs).length ≤ a.length) :
    (fieldBytes fs ++ f.bytes).length < a.length + 5 := by
  by_contra hend
  have h3 : (txt "10=").length = 3 := rfl
  have hlen := f.length_bytes
  rw [hD, show (txt "D").length = 1 from rfl] at hlen
  rw [List.length_append] at hend
  have hm' : a ++ (txt "10=" ++ w) =
      fieldBytes fs ++ f.tag ++ (byte '=' :: (txt "D" ++ SOH :: z)) := by
    rw [hm, Field.bytes_append, hD, List.append_assoc]
  rcases Nat.lt_or_ge (a.length + 2) (fieldBytes fs ++ f.tag).length with hq | hq
  · -- the `=` of the trailer would be one of the tag's text
    have heq : (a ++ (txt "10=" ++ w))[a.length + 2]? = some (byte '=') := by
      rw [List.getElem?_append_right (by omega), Nat.add_sub_cancel_left]
      rfl
    rw [hm', List.getElem?_append_left hq, List.getElem?_append_right (by omega)] at heq
    exact f.tag_eq (List.mem_of_getElem? heq)
  · -- the checksum would be `D`
    rw [List.length_append] at hq
    have hdrop := congrArg (List.drop (a.length + 3)) hm'
    have e1 : a ++ (txt "10=" ++ w) = a ++ txt "10=" ++ w := (List.append_assoc ..).symm
    have e2 : fieldBytes fs ++ f.tag ++ (byte '=' :: (txt "D" ++ SOH :: z)) =
        fieldBytes fs ++ f.tag ++ [byte '='] ++ (txt "D" ++ SOH :: z) := by
      simp
    rw [e1, List.drop_left' (by simp [h3]), e2, List.drop_left' (by simp; omega), hw] at hdrop
    obtain ⟨rfl, -⟩ := stretch_inj hd (by decide) hdrop
    cases hn

end Trailer

/-- **When an accepted checksum covers the whole message.** -/
theorem covered_iff {m : Bytes} {erange : ℚ → Bool} {i j : ℕ} {o : Order Double}
    (h : parseOrder erange i m = .ok (.ok o, j)) : Covered m ↔ Sealed m := by
  obtain ⟨hv, h35, -⟩ := parseOrder_ok h
  have h3 : (txt "10=").length = 3 := rfl
  constructor
  · rintro ⟨⟨p, hp, hp7⟩, hval⟩
    obtain ⟨w, hw⟩ := ((rfind_eq_some_iff (by decide)).mp hp).1
    have hm : m = m.take p ++ (txt "10=" ++ w) := by rw [hw, List.take_append_drop]
    have hpl : (m.take p).length = p := List.length_take_of_le (by omega)
    have hw4 : w.length = 4 := by
      have := congrArg List.length hm
      rw [List.length_append, List.length_append, hpl, h3] at this
      omega
    refine ⟨⟨_, w, hm, hw4⟩, fun fs f z hfz hle hlt t ht htag => ?_⟩
    rw [hm] at hv
    obtain ⟨-, d, u, n, hdu, hd, hn⟩ := trailer_of_verifyChecksum hv hw4
    -- the field ends behind the first digit, so no other field with a tag comes after it
    have hend : p + 4 ≤ (fieldBytes fs ++ f.bytes).length - 1 := by
      have hsoh := getElem?_fieldEnd (fieldBytes fs) f z
      rw [← hfz, hm] at hsoh
      have := le_of_getElem?_trailer hdu hd (ne_nil_of_stoi hn) (by omega) hsoh
      omega
    obtain ⟨fs', r, hz, hr⟩ := exists_fields z
    have hlast : ∀ g ∈ fs', stoi g.tag ≠ .ok t := by
      intro g hg hgt
      obtain ⟨fs₁, fs₂, rfl⟩ := List.append_of_mem hg
      have hmg : m.take p ++ (txt "10=" ++ w) =
          fieldBytes (fs ++ f :: fs₁) ++ (g.bytes ++ (fieldBytes fs₂ ++ r)) := by
        rw [← hm, hfz, hz]
        simp [fieldBytes_append]
      have := field_begins_ahead hdu hd (ne_nil_of_stoi hn) hw4 hmg hgt
      simp only [fieldBytes_append, fieldBytes_cons, List.length_append] at this hend
      omega
    have hmem : t ∈ orderTags := List.mem_cons_of_mem _ ht
    have := hval t hmem f.value ((fieldBytes fs ++ f.bytes).length - 1)
      ⟨fs, f, fs', r, hz ▸ hfz, hr, htag, hlast, rfl, by omega⟩
    omega
  · rintro ⟨⟨a, w, rfl, hw4⟩, htags⟩
    obtain ⟨hp, d, u, n, hdu, hd, hn⟩ := trailer_of_verifyChecksum hv hw4
    have hlen : (a ++ (txt "10=" ++ w)).length = a.length + 7 := by
      rw [List.length_append, List.length_append, h3, hw4]
    refine ⟨⟨_, hp, hlen.symm⟩, fun tag htag v e hva => ?_⟩
    have hsplit := hva.splitFields
    obtain ⟨fs, f, fs', r, hm, hr, ht, hlast, rfl, he⟩ := hva
    by_contra hcon
    have hge := field_begins_ahead hdu hd (ne_nil_of_stoi hn) hw4 hm ht
    have hend : a.length + 4 ≤ (fieldBytes fs ++ f.bytes).length - 1 := by
      have hsoh := getElem?_fieldEnd (fieldBytes fs) f (fieldBytes fs' ++ r)
      rw [← hm] at hsoh
      exact le_of_getElem?_trailer hdu hd (ne_nil_of_stoi hn) (by omega) hsoh
    rcases List.mem_cons.mp htag with rfl | htag
    · have hD : f.value = txt "D" := by
        rw [hsplit] at h35
        exact Option.some.inj h35
      have := msgType_ends_ahead hdu hd hn hD hm hge
      omega
    · exact htags fs f _ hm (by omega) (by omega) tag htag ht

theorem covered_iff_buy :
    Covered (buildMessage (buyBody "6000.0")) ↔ Sealed (buildMessage (buyBody "6000.0")) :=
  @covered_iff _ (fun _ => false) 1 2 ⟨1, 1, txt "BTC-USD", .buy, 1, .fin 6000⟩
    (by decide +kernel)

/-- Ahead of the seven bytes that the framer takes for the trailer, a checksum field; and in them,
the account. -/
def accountBehind : Bytes :=
  let body := txt "35=D" ++ [SOH] ++ txt "55=BTC-USD" ++ [SOH] ++ txt "54=1" ++ [SOH] ++
    txt "38=1" ++ [SOH] ++ txt "44=6000.0" ++ [SOH]
  let covered := txt "8=FIX.4.2" ++ [SOH] ++ txt "9=" ++ decimal (body.length + 7) ++ [SOH] ++ body
  covered ++ txt "10=" ++ pad3 (byteSum covered) ++ [SOH] ++ txt "1=0042" ++ [SOH]

theorem accountBehind_not_covered :
    ¬ ∀ (b m r : Bytes) (erange : ℚ → Bool) (i j : ℕ) (o : Order Double),
      tryExtractMessage b = .ok (some m, r) → parseOrder erange i m = .ok (.ok o, j) →
        Covered m := by
  intro h
  have hx : tryExtractMessage accountBehind = .ok (some accountBehind, []) := by decide +kernel
  have hp : parseOrder (fun _ => false) 1 accountBehind =
      .ok (.ok ⟨1, 42, txt "BTC-USD", .buy, 1, .fin 6000⟩, 2) := by decide +kernel
  obtain ⟨p, hr, hlen⟩ := (h _ _ _ _ _ _ _ hx hp).field
  have : rfind (txt "10=") accountBehind = some 51 := by decide +kernel
  rw [this] at hr
  cases hr
  revert hlen
  decide +kernel

end OrderRisk.Fix
