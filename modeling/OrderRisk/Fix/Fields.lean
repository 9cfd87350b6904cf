import OrderRisk.Fix.Parser

/-!
# Fields

A raw message is a run of `Field`s and a rest that holds no further one (`exists_fields`), and
`splitFields` adds the fields of the run to the map one after the other (`splitFields_eq`).  A
field's tag ends at the first `=`, wherever that is: the search for it does not stop at SOH.
-/

namespace OrderRisk.Fix

open OrderRisk.Lib

/-- What one round of `splitFields` consumes: tag, `=`, value, SOH. -/
structure Field where
  tag : Bytes
  value : Bytes
  tag_eq : byte '=' ∉ tag
  value_soh : SOH ∉ value

def Field.bytes (f : Field) : Bytes := f.tag ++ byte '=' :: (f.value ++ [SOH])

def fieldBytes (fs : List Field) : Bytes := fs.flatMap Field.bytes

/-- No field stands in front. -/
def Unfinished (r : Bytes) : Prop := ∀ (f : Field) (t : Bytes), r ≠ f.bytes ++ t

/-- A round of `splitFields`: a field whose tag is no number is skipped. -/
def addField (fields : Fields) (f : Field) : Fields :=
  match stoi f.tag with
  | .ok tag => Function.update fields tag (some f.value)
  | .error _ => fields

@[simp] theorem fieldBytes_nil : fieldBytes [] = [] := rfl

@[simp] theorem fieldBytes_cons (f : Field) (fs : List Field) :
    fieldBytes (f :: fs) = f.bytes ++ fieldBytes fs := rfl

theorem fieldBytes_append (fs fs' : List Field) :
    fieldBytes (fs ++ fs') = fieldBytes fs ++ fieldBytes fs' :=
  List.flatMap_append

theorem Field.bytes_append (f : Field) (t : Bytes) :
    f.bytes ++ t = f.tag ++ byte '=' :: (f.value ++ SOH :: t) := by
  simp [Field.bytes]

theorem Field.length_bytes (f : Field) :
    f.bytes.length = f.tag.length + f.value.length + 2 := by
  simp only [Field.bytes, List.length_append, List.length_cons, List.length_nil]
  omega

theorem unfinished_nil : Unfinished [] := by
  intro f t h
  have := congrArg List.length h
  rw [List.length_append, f.length_bytes, List.length_nil] at this
  omega

/-! ### Rounds of the loop -/

/-- A round that finds a field. -/
theorem splitLoop_field (p : Bytes) (f : Field) (t : Bytes) (fuel : ℕ) (fields : Fields) :
    splitLoop (p ++ (f.bytes ++ t)) (fuel + 1) p.length fields =
      splitLoop (p ++ (f.bytes ++ t)) fuel (p ++ f.bytes).length (addField fields f) := by
  have hlen := f.length_bytes
  have hraw : (p ++ (f.bytes ++ t)).length = p.length + f.bytes.length + t.length := by
    simp only [List.length_append]
    omega
  have e1 : p ++ (f.bytes ++ t) = p ++ f.tag ++ byte '=' :: (f.value ++ SOH :: t) := by
    simp [Field.bytes]
  have e2 : p ++ (f.bytes ++ t) = (p ++ f.tag) ++ (byte '=' :: f.value) ++ SOH :: t := by
    simp [Field.bytes]
  have h1 : findFrom (byte '=') (p ++ (f.bytes ++ t)) p.length = some (p ++ f.tag).length := by
    rw [e1, findFrom_stretch f.tag_eq, List.length_append]
  have h2 : findFrom SOH (p ++ (f.bytes ++ t)) (p ++ f.tag).length =
      some ((p ++ f.tag).length + (f.value.length + 1)) := by
    have hsoh : SOH ∉ byte '=' :: f.value := by
      rw [List.mem_cons, not_or]
      exact ⟨by decide, f.value_soh⟩
    rw [e2, findFrom_stretch hsoh, List.length_cons]
  have h3 : ((p ++ (f.bytes ++ t)).drop p.length).take ((p ++ f.tag).length - p.length) =
      f.tag := by
    rw [List.drop_left' rfl, Field.bytes_append, List.length_append, Nat.add_sub_cancel_left]
    exact List.take_left' rfl
  have h4 : ((p ++ (f.bytes ++ t)).drop ((p ++ f.tag).length + 1)).take
      ((p ++ f.tag).length + (f.value.length + 1) - (p ++ f.tag).length - 1) = f.value := by
    have e : p ++ (f.bytes ++ t) = (p ++ f.tag ++ [byte '=']) ++ (f.value ++ SOH :: t) := by
      simp [Field.bytes]
    rw [e, List.drop_left' (by simp [Nat.add_assoc]), Nat.add_sub_cancel_left,
      Nat.add_sub_cancel]
    exact List.take_left' rfl
  have hle : (p ++ f.tag).length + 1 ≤ (p ++ (f.bytes ++ t)).length := by
    rw [hraw, List.length_append]
    omega
  have hend : (p ++ f.tag).length + (f.value.length + 1) + 1 = (p ++ f.bytes).length := by
    rw [List.length_append, List.length_append, hlen]
    omega
  rw [splitLoop, if_pos (by omega), h1]
  simp only [h2, readField, substr_ok _ (by omega : p.length ≤ (p ++ (f.bytes ++ t)).length), h3,
    substr_ok _ hle, h4, hend]
  have hbind : ((Except.ok f.tag : Except Exn Bytes) >>= stoi) = stoi f.tag := rfl
  rw [hbind, addField]
  cases stoi f.tag with
  | ok tag => rfl
  | error e => rfl

theorem exists_field {p r : Bytes} {eq soh : ℕ}
    (h1 : findFrom (byte '=') (p ++ r) p.length = some eq)
    (h2 : findFrom SOH (p ++ r) eq = some soh) : ∃ (f : Field) (t : Bytes), r = f.bytes ++ t := by
  obtain ⟨tag, v, hr, htag, rfl⟩ := exists_stretch_of_findFrom h1
  rw [List.take_left' rfl, List.append_assoc, List.append_cancel_left_eq] at hr
  subst hr
  obtain ⟨w, t, hw, hsoh, -⟩ := exists_stretch_of_findFrom h2
  have e : p ++ (tag ++ byte '=' :: v) = (p ++ tag) ++ byte '=' :: v := by simp
  rw [e, ← List.length_append, List.take_left' rfl, List.append_assoc (p ++ tag),
    List.append_cancel_left_eq] at hw
  -- the stretch begins with the `=`
  cases w with
  | nil =>
    rw [List.nil_append, List.cons.injEq] at hw
    exact absurd hw.1 (by decide)
  | cons x w =>
    rw [List.cons_append, List.cons.injEq] at hw
    obtain ⟨rfl, rfl⟩ := hw
    refine ⟨⟨tag, w, htag, fun h => hsoh (List.mem_cons_of_mem _ h)⟩, t, ?_⟩
    rw [Field.bytes_append]

theorem splitLoop_unfinished {p r : Bytes} (hr : Unfinished r) (fuel : ℕ) (fields : Fields) :
    splitLoop (p ++ r) fuel p.length fields = fields := by
  cases fuel with
  | zero => rfl
  | succ fuel =>
    rw [splitLoop]
    split
    · split
      · rfl
      · next eq h1 =>
        split
        · rfl
        · next soh h2 =>
          obtain ⟨f, t, rfl⟩ := exists_field h1 h2
          exact absurd rfl (hr f t)
    · rfl

theorem splitLoop_fields {r : Bytes} (hr : Unfinished r) : ∀ (fs : List Field) (p : Bytes)
    (fuel : ℕ) (fields : Fields), fs.length ≤ fuel →
    splitLoop (p ++ (fieldBytes fs ++ r)) fuel p.length fields = fs.foldl addField fields
  | [], p, fuel, fields, _ => splitLoop_unfinished hr fuel fields
  | f :: fs, p, 0, fields, h => by simp at h
  | f :: fs, p, fuel + 1, fields, h => by
    have e : p ++ (fieldBytes (f :: fs) ++ r) = p ++ (f.bytes ++ (fieldBytes fs ++ r)) := by simp
    have e' : p ++ (f.bytes ++ (fieldBytes fs ++ r)) = (p ++ f.bytes) ++ (fieldBytes fs ++ r) := by
      simp
    rw [e, splitLoop_field, e', List.foldl_cons]
    exact splitLoop_fields hr fs _ fuel _ (by simpa using h)

theorem length_le_fieldBytes (fs : List Field) : fs.length ≤ (fieldBytes fs).length := by
  induction fs with
  | nil => simp
  | cons f fs ih =>
    rw [fieldBytes_cons, List.length_append, f.length_bytes, List.length_cons]
    omega

/-- **`splitFields` adds the fields one after the other.** -/
theorem splitFields_eq (fs : List Field) {r : Bytes} (hr : Unfinished r) :
    splitFields (fieldBytes fs ++ r) = fs.foldl addField fun _ => none := by
  refine splitLoop_fields hr fs [] _ _ ?_
  have := length_le_fieldBytes fs
  rw [List.length_append]
  omega

/-- **Every message is a run of fields and a rest without one.** -/
theorem exists_fields (raw : Bytes) :
    ∃ (fs : List Field) (r : Bytes), raw = fieldBytes fs ++ r ∧ Unfinished r := by
  induction hn : raw.length using Nat.strong_induction_on generalizing raw with
  | _ n ih =>
    subst hn
    by_cases h : Unfinished raw
    · exact ⟨[], raw, rfl, h⟩
    · unfold Unfinished at h
      push Not at h
      obtain ⟨f, t, rfl⟩ := h
      obtain ⟨fs, r, rfl, hr⟩ := ih t.length (by rw [List.length_append, f.length_bytes]; omega) t rfl
      exact ⟨f :: fs, r, by simp, hr⟩

/-! ### Numbered fields -/

structure TagValue where
  tag : ℕ
  value : Bytes
  tag_lt : tag < 2 ^ 31
  value_soh : SOH ∉ value

def TagValue.field (p : TagValue) : Field :=
  ⟨decimal p.tag, p.value, fun h => (isDigit_cases (isDigit_of_mem_decimal h)).2.2.2.2 rfl,
    p.value_soh⟩

def encodeFields (l : List TagValue) : Bytes := fieldBytes (l.map TagValue.field)

theorem encodeFields_append (l l' : List TagValue) :
    encodeFields (l ++ l') = encodeFields l ++ encodeFields l' := by
  rw [encodeFields, List.map_append, fieldBytes_append]
  rfl

theorem stoi_decimal {n : ℕ} (h : n < 2 ^ 31) : stoi (decimal n) = .ok (n : ℤ) := by
  have hs := @scanInteger_digits (decimal n) [] (decimal_ne_nil n) (fun c => isDigit_of_mem_decimal)
    (by simp)
  rw [List.append_nil, readDigits_decimal] at hs
  simp only [stoi, hs, Bool.false_eq_true, if_false]
  rw [if_neg (by omega)]

/-- The value of a tag, when all its fields have the same. -/
theorem foldl_addField_eq {tag : ℤ} {v : Bytes} {fields : Fields} {fs : List Field}
    (hmem : ∃ f ∈ fs, stoi f.tag = .ok tag)
    (hall : ∀ f ∈ fs, stoi f.tag = .ok tag → f.value = v) :
    fs.foldl addField fields tag = some v := by
  induction fs using List.reverseRecOn with
  | nil => simp at hmem
  | append_singleton fs f ih =>
    rw [List.foldl_append, List.foldl_cons, List.foldl_nil]
    cases hf : stoi f.tag with
    | error e =>
      rw [addField, hf]
      refine ih ?_ fun g hg => hall g (by simp [hg])
      obtain ⟨g, hg, ht⟩ := hmem
      rcases List.mem_append.mp hg with hg | hg
      · exact ⟨g, hg, ht⟩
      · rw [List.mem_singleton.mp hg, hf] at ht
        cases ht
    | ok t =>
      rw [addField, hf]
      dsimp only
      rcases eq_or_ne tag t with rfl | hne
      · rw [Function.update_self, hall f (by simp) hf]
      · rw [Function.update_of_ne hne]
        refine ih ?_ fun g hg => hall g (by simp [hg])
        obtain ⟨g, hg, ht⟩ := hmem
        rcases List.mem_append.mp hg with hg | hg
        · exact ⟨g, hg, ht⟩
        · rw [List.mem_singleton.mp hg, hf] at ht
          cases ht
          exact absurd rfl hne

/-- **What was encoded is read back**, whatever the values contain besides SOH. -/
theorem splitFields_encodeFields {l : List TagValue} (hl : (l.map TagValue.tag).Nodup)
    {p : TagValue} (hp : p ∈ l) : splitFields (encodeFields l) p.tag = some p.value := by
  have := splitFields_eq (l.map TagValue.field) unfinished_nil
  rw [List.append_nil] at this
  rw [encodeFields, this]
  refine foldl_addField_eq ⟨p.field, List.mem_map_of_mem hp, stoi_decimal p.tag_lt⟩ fun f hf ht => ?_
  obtain ⟨q, hq, rfl⟩ := List.mem_map.mp hf
  have h1 : stoi q.field.tag = .ok (q.tag : ℤ) := stoi_decimal q.tag_lt
  rw [h1] at ht
  obtain rfl : q = p :=
    List.inj_on_of_nodup_map hl hq hp (by simpa using ht)
  rfl

theorem pad3_soh (n : ℕ) : SOH ∉ pad3 n := by
  have hd : ∀ m < 10, UInt8.ofNat (48 + m) ≠ SOH := by decide
  simp only [pad3, List.mem_cons, List.not_mem_nil, or_false, not_or]
  exact ⟨(hd _ (Nat.mod_lt _ (by omega))).symm, (hd _ (Nat.mod_lt _ (by omega))).symm,
    (hd _ (Nat.mod_lt _ (by omega))).symm⟩

def header (body : Bytes) : List TagValue :=
  [⟨8, txt "FIX.4.2", by omega, by decide⟩, ⟨9, decimal body.length, by omega,
    fun h => (isDigit_cases (isDigit_of_mem_decimal h)).2.2.2.1 rfl⟩]

/-- The checksum field that `buildMessage` puts behind it. -/
def trailer (body : Bytes) : TagValue :=
  ⟨10, pad3 (byteSum (encodeFields (header body) ++ body)), by omega, pad3_soh _⟩

/-- **A message is built from fields.** -/
theorem buildMessage_encodeFields (l : List TagValue) :
    buildMessage (encodeFields l) =
      encodeFields (header (encodeFields l) ++ l ++ [trailer (encodeFields l)]) := by
  have h8 : decimal 8 = txt "8" := by decide +kernel
  have h9 : decimal 9 = txt "9" := by decide +kernel
  have h10 : decimal 10 = txt "10" := by decide +kernel
  have hhead : ∀ b, encodeFields (header b) =
      txt "8=FIX.4.2" ++ [SOH] ++ txt "9=" ++ decimal b.length ++ [SOH] := by
    intro b
    simp [encodeFields, header, TagValue.field, Field.bytes, h8, h9, txt]
  have htail : ∀ b, encodeFields [trailer b] =
      txt "10=" ++ pad3 (byteSum (encodeFields (header b) ++ b)) ++ [SOH] := by
    intro b
    simp [encodeFields, trailer, TagValue.field, Field.bytes, h10, txt]
  rw [encodeFields_append, encodeFields_append, htail, hhead]
  simp [buildMessage]

end OrderRisk.Fix
