import OrderRisk.Fix.Checksum
import OrderRisk.Risk.Wire

/-!
# What a job answers

The work of a job between `dispatchToWorker` and `safeSend`: parse, validate, and build a Reject or
an ExecutionReport.  Numbered fields survive `buildMessage` and `splitFields` (`survives`), so a
peer that splits an answer reads what the job wrote into it.
-/

namespace OrderRisk.Server

open OrderRisk.Lib OrderRisk.Fix OrderRisk.Account OrderRisk.Risk

/-! ### The answers -/

def rejectBody (rejectReason : Bytes) : Bytes :=
  txt "35=3" ++ [SOH] ++ txt "58=" ++ rejectReason ++ [SOH]

def reportBody (result : ValidationResult) : Bytes :=
  let msgType := txt "35=8"
  let ordStatus := if result.accepted then txt "39=0" else txt "39=8"
  let body := msgType ++ [SOH] ++ txt "37=" ++ decimal result.orderId ++ [SOH] ++ ordStatus ++ [SOH]
  if result.accepted then body else body ++ txt "58=" ++ result.reason ++ [SOH]

/-- A job's answer to `rawMsg`, with `nextOrderId_` and the store before and after. -/
def respond (erange : ℚ → Bool) (next : ℕ) (store : AccountStore Double) (rawMsg : Bytes) :
    Except Exn (Bytes × ℕ × AccountStore Double) := do
  match ← parseOrder erange next rawMsg with
  | (.error rejectReason, next') => return (buildMessage (rejectBody rejectReason), next', store)
  | (.ok order, next') =>
    let (result, store') := validate store order
    return (buildMessage (reportBody result), next', store')

/-! ### Fields of a message -/

section Fields

variable {l : List TagValue}

/-- The fields of a message built from `l` have different tags. -/
theorem nodup_message (hl : (l.map TagValue.tag).Nodup)
    (ht : ∀ p ∈ l, p.tag ≠ 8 ∧ p.tag ≠ 9 ∧ p.tag ≠ 10) (body : Bytes) :
    ((header body ++ l ++ [trailer body]).map TagValue.tag).Nodup := by
  have h : ∀ k, (∀ p ∈ l, p.tag ≠ k) → k ∉ l.map TagValue.tag := by
    intro k hk hm
    obtain ⟨p, hp, rfl⟩ := List.mem_map.mp hm
    exact hk p hp rfl
  have h8 := h 8 fun p hp => (ht p hp).1
  have h9 := h 9 fun p hp => (ht p hp).2.1
  have h10 := h 10 fun p hp => (ht p hp).2.2
  rw [List.map_append, List.map_append, List.nodup_append, List.nodup_append]
  refine ⟨⟨by simp [header], hl, ?_⟩, by simp, ?_⟩
  · intro a ha b hb hab
    subst hab
    simp only [header, List.map_cons, List.map_nil, List.mem_cons, List.not_mem_nil,
      or_false] at ha
    rcases ha with rfl | rfl
    · exact h8 hb
    · exact h9 hb
  · intro a ha b hb hab
    subst hab
    simp only [trailer, List.map_cons, List.map_nil, List.mem_singleton] at hb
    subst hb
    rcases List.mem_append.mp ha with ha | ha
    · simp [header] at ha
    · exact h10 ha

theorem splitFields_buildMessage (hl : (l.map TagValue.tag).Nodup)
    (ht : ∀ p ∈ l, p.tag ≠ 8 ∧ p.tag ≠ 9 ∧ p.tag ≠ 10) {p : TagValue}
    (hp : p ∈ header (encodeFields l) ++ l ++ [trailer (encodeFields l)]) :
    splitFields (buildMessage (encodeFields l)) p.tag = some p.value := by
  rw [buildMessage_encodeFields]
  exact splitFields_encodeFields (nodup_message hl ht _) hp

theorem splitFields_encodeFields_none {k : ℤ} (h : ∀ p ∈ l, (p.tag : ℤ) ≠ k) :
    splitFields (encodeFields l) k = none := by
  have := splitFields_eq (l.map TagValue.field) unfinished_nil
  rw [List.append_nil] at this
  rw [encodeFields, this]
  clear this
  induction l using List.reverseRecOn with
  | nil => rfl
  | append_singleton l p ih =>
    have hp : stoi p.field.tag = .ok (p.tag : ℤ) := stoi_decimal p.tag_lt
    rw [List.map_append, List.foldl_append, List.map_singleton, List.foldl_cons, List.foldl_nil,
      addField, hp]
    dsimp only
    rw [Function.update_of_ne (h p (by simp)).symm]
    exact ih fun q hq => h q (by simp [hq])

theorem splitFields_buildMessage_none {k : ℤ} (h : ∀ p ∈ l, (p.tag : ℤ) ≠ k) (h8 : k ≠ 8)
    (h9 : k ≠ 9) (h10 : k ≠ 10) : splitFields (buildMessage (encodeFields l)) k = none := by
  rw [buildMessage_encodeFields]
  refine splitFields_encodeFields_none fun p hp => ?_
  simp only [header, trailer, List.mem_append, List.mem_cons, List.not_mem_nil, or_false] at hp
  rcases hp with ((rfl | rfl) | hp) | rfl
  · exact fun e => h8 e.symm
  · exact fun e => h9 e.symm
  · exact h p hp
  · exact fun e => h10 e.symm

end Fields

/-! ### Numbered fields as pairs -/

/-- `tag=value` and SOH, one after the other. -/
def fieldText (l : List (ℕ × Bytes)) : Bytes :=
  l.flatMap fun p => decimal p.1 ++ byte '=' :: (p.2 ++ [SOH])

/-- Tags and values that can be written as fields of a body. -/
structure Writable (l : List (ℕ × Bytes)) : Prop where
  nodup : (l.map Prod.fst).Nodup
  tag : ∀ p ∈ l, 1 ≤ p.1 ∧ p.1 < 2 ^ 31 ∧ p.1 ≠ 8 ∧ p.1 ≠ 9 ∧ p.1 ≠ 10
  value : ∀ p ∈ l, SOH ∉ p.2

/-- What `splitFields` makes of the message with the fields `l`: these, the three that
`buildMessage` adds, and no others. -/
structure Survives (l : List (ℕ × Bytes)) : Prop where
  fields : ∀ p ∈ l, splitFields (buildMessage (fieldText l)) p.1 = some p.2
  beginString : splitFields (buildMessage (fieldText l)) 8 = some (txt "FIX.4.2")
  bodyLength : splitFields (buildMessage (fieldText l)) 9 = some (decimal (fieldText l).length)
  checksum : splitFields (buildMessage (fieldText l)) 10 =
    some (pad3 (byteSum (frameHead (fieldText l).length ++ fieldText l)))
  others : ∀ k : ℤ, (∀ p ∈ l, (p.1 : ℤ) ≠ k) → k ≠ 8 → k ≠ 9 → k ≠ 10 →
    splitFields (buildMessage (fieldText l)) k = none

theorem exists_tagValues {l : List (ℕ × Bytes)} (h : ∀ p ∈ l, p.1 < 2 ^ 31 ∧ SOH ∉ p.2) :
    ∃ l' : List TagValue, l'.map (fun p => (p.tag, p.value)) = l ∧
      encodeFields l' = fieldText l := by
  induction l with
  | nil => exact ⟨[], rfl, rfl⟩
  | cons p l ih =>
    rw [List.forall_mem_cons] at h
    obtain ⟨l', rfl, hl'⟩ := ih h.2
    refine ⟨⟨p.1, p.2, h.1.1, h.1.2⟩ :: l', rfl, ?_⟩
    have e : ∀ q : TagValue, encodeFields (q :: l') = q.field.bytes ++ encodeFields l' :=
      fun _ => rfl
    rw [e, hl', fieldText, fieldText, List.flatMap_cons]
    rfl

theorem encodeFields_header (body : Bytes) : encodeFields (header body) = frameHead body.length := by
  have h8 : decimal 8 = txt "8" := by decide +kernel
  have h9 : decimal 9 = txt "9" := by decide +kernel
  simp [encodeFields, header, frameHead, TagValue.field, Field.bytes, h8, h9, txt]

/-- **Fields survive encoding.** -/
theorem survives {l : List (ℕ × Bytes)} (h : Writable l) : Survives l := by
  obtain ⟨l', hl', he⟩ := exists_tagValues fun p hp => ⟨(h.tag p hp).2.1, h.value p hp⟩
  have hmem : ∀ p ∈ l', (p.tag, p.value) ∈ l := fun p hp => by
    rw [← hl']
    exact List.mem_map_of_mem hp
  have hnd : (l'.map TagValue.tag).Nodup := by
    have := h.nodup
    rw [← hl', List.map_map] at this
    exact this
  have htags : ∀ p ∈ l', p.tag ≠ 8 ∧ p.tag ≠ 9 ∧ p.tag ≠ 10 :=
    fun p hp => (h.tag _ (hmem p hp)).2.2
  have hread : ∀ p ∈ header (encodeFields l') ++ l' ++ [trailer (encodeFields l')],
      splitFields (buildMessage (fieldText l)) p.tag = some p.value := by
    rw [← he]
    exact fun p hp => splitFields_buildMessage hnd htags hp
  constructor
  · intro p hp
    rw [← hl'] at hp
    obtain ⟨q, hq, rfl⟩ := List.mem_map.mp hp
    exact hread q (by simp [hq])
  · exact hread _ (List.mem_append_left _ (List.mem_append_left _ List.mem_cons_self))
  · rw [← he] at hread ⊢
    exact hread _ (List.mem_append_left _
      (List.mem_append_left _ (List.mem_cons_of_mem _ List.mem_cons_self)))
  · rw [← he] at hread ⊢
    rw [← encodeFields_header]
    exact hread _ (List.mem_append_right _ List.mem_cons_self)
  · intro k hk h8 h9 h10
    rw [← he]
    exact splitFields_buildMessage_none (fun p hp => hk _ (hmem p hp)) h8 h9 h10

/-! ### What a peer reads in an answer -/

def rejectFields (reason : Bytes) : List (ℕ × Bytes) := [(35, txt "3"), (58, reason)]

def reportFields (result : ValidationResult) : List (ℕ × Bytes) :=
  [(35, txt "8"), (37, decimal result.orderId),
    (39, if result.accepted then txt "0" else txt "8")] ++
  if result.accepted then [] else [(58, result.reason)]

theorem rejectBody_eq (reason : Bytes) : rejectBody reason = fieldText (rejectFields reason) := by
  have h35 : decimal 35 = txt "35" := by decide +kernel
  have h58 : decimal 58 = txt "58" := by decide +kernel
  simp [rejectBody, fieldText, rejectFields, h35, h58, txt]

theorem reportBody_eq (result : ValidationResult) :
    reportBody result = fieldText (reportFields result) := by
  have h35 : decimal 35 = txt "35" := by decide +kernel
  have h37 : decimal 37 = txt "37" := by decide +kernel
  have h39 : decimal 39 = txt "39" := by decide +kernel
  have h58 : decimal 58 = txt "58" := by decide +kernel
  unfold reportBody reportFields
  by_cases ha : result.accepted = true
  · simp [ha, fieldText, h35, h37, h39, txt]
  · simp [ha, fieldText, h35, h37, h39, h58, txt]

/-- `data` reads as a Reject for `reason`. -/
structure ReadsReject (data reason : Bytes) : Prop where
  msgType : splitFields data 35 = some (txt "3")
  text : splitFields data 58 = some reason

/-- `data` reads as the ExecutionReport of `result`. -/
structure ReadsReport (data : Bytes) (result : ValidationResult) : Prop where
  msgType : splitFields data 35 = some (txt "8")
  orderId : splitFields data 37 = some (decimal result.orderId)
  ordStatus : splitFields data 39 = some (if result.accepted then txt "0" else txt "8")
  text : splitFields data 58 = if result.accepted then none else some result.reason

theorem readsReject {reason : Bytes} (h : SOH ∉ reason) :
    ReadsReject (buildMessage (rejectBody reason)) reason := by
  have hs : Survives (rejectFields reason) := by
    refine survives ⟨by simp [rejectFields], by simp [rejectFields], ?_⟩
    simp only [rejectFields, List.forall_mem_cons]
    exact ⟨by decide, h, by simp⟩
  have hread := hs.fields
  rw [← rejectBody_eq] at hread
  simp only [rejectFields, List.forall_mem_cons] at hread
  push_cast at hread
  obtain ⟨h35, h58, -⟩ := hread
  exact ⟨h35, h58⟩

theorem readsReport {result : ValidationResult} (h : SOH ∉ result.reason) :
    ReadsReport (buildMessage (reportBody result)) result := by
  have hs : Survives (reportFields result) := by
    unfold reportFields
    by_cases ha : result.accepted = true
    · rw [if_pos ha, if_pos ha]
      refine survives ⟨by simp, by simp, ?_⟩
      simp only [List.append_nil, List.forall_mem_cons]
      exact ⟨by decide, soh_notMem_decimal _, by decide, by simp⟩
    · rw [if_neg ha, if_neg ha]
      refine survives ⟨by simp, by simp, ?_⟩
      simp only [List.cons_append, List.nil_append, List.forall_mem_cons]
      exact ⟨by decide, soh_notMem_decimal _, by decide, h, by simp⟩
  have hread := hs.fields
  rw [← reportBody_eq] at hread
  simp only [reportFields, List.forall_mem_append, List.forall_mem_cons] at hread
  push_cast at hread
  obtain ⟨⟨h35, h37, h39, -⟩, h58⟩ := hread
  refine ⟨h35, h37, h39, ?_⟩
  by_cases ha : result.accepted = true
  · rw [if_pos ha, reportBody_eq]
    refine hs.others 58 ?_ (by norm_num) (by norm_num) (by norm_num)
    simp [reportFields, ha]
  · rw [if_neg ha] at h58 ⊢
    exact h58 _ (List.mem_singleton_self _)

/-- **What a job does**: it throws nothing, and answers with a Reject that leaves the store as it
is, or with the report of the order's validation. -/
theorem respond_cases (erange : ℚ → Bool) (next : ℕ) (store : AccountStore Double) (raw : Bytes) :
    (∃ reason next', SOH ∉ reason ∧ parseOrder erange next raw = .ok (.error reason, next') ∧
      respond erange next store raw = .ok (buildMessage (rejectBody reason), next', store)) ∨
    ∃ o next', parseOrder erange next raw = .ok (.ok o, next') ∧
      respond erange next store raw = .ok (buildMessage (reportBody (validate store o).1), next',
        (validate store o).2) := by
  have herr : ∀ reason next', SOH ∉ reason →
      parseOrder erange next raw = .ok (.error reason, next') →
      respond erange next store raw = .ok (buildMessage (rejectBody reason), next', store) :=
    fun reason next' _ h => by simp [respond, h, bind, Except.bind, pure, Except.pure]
  rcases parseOrder_cases erange next raw with ⟨-, h⟩ | ⟨-, -, h⟩ | ⟨-, next', h⟩ | ⟨-, o, h⟩
  · exact .inl ⟨_, _, by decide, h, herr _ _ (by decide) h⟩
  · exact .inl ⟨_, _, by decide, h, herr _ _ (by decide) h⟩
  · exact .inl ⟨_, _, by decide, h, herr _ _ (by decide) h⟩
  · exact .inr ⟨o, _, h, by simp [respond, h, bind, Except.bind, pure, Except.pure]⟩

theorem soh_notMem_reason (store : AccountStore Double) (o : Order Double) :
    SOH ∉ (validate store o).1.reason := by
  have h := validate_reason store o
  have : ∀ r ∈ [[], txt "zero_quantity", txt "invalid_price", txt "unknown_symbol",
      txt "insufficient_balance"], SOH ∉ r := by decide
  exact this _ h

/-- **Fields survive encoding, and so does every answer of the server.** -/
theorem fields_survive {l : List (ℕ × Bytes)} (h : Writable l) :
    Survives l ∧
    ∀ (erange : ℚ → Bool) (next : ℕ) (store : AccountStore Double) (raw : Bytes),
      (∃ reason next' data, parseOrder erange next raw = .ok (.error reason, next') ∧
        respond erange next store raw = .ok (data, next', store) ∧ ReadsReject data reason) ∨
      ∃ o next' data, parseOrder erange next raw = .ok (.ok o, next') ∧
        respond erange next store raw = .ok (data, next', (validate store o).2) ∧
        ReadsReport data (validate store o).1 := by
  refine ⟨survives h, fun erange next store raw => ?_⟩
  rcases respond_cases erange next store raw with ⟨reason, next', hr, h, h'⟩ | ⟨o, next', h, h'⟩
  · exact .inl ⟨reason, next', _, h, h', readsReject hr⟩
  · exact .inr ⟨o, next', _, h, h', readsReport (soh_notMem_reason store o)⟩

def lookalikes : List (ℕ × Bytes) := [(58, txt "10=000|35=D"), (1, [])]

theorem fields_survive_lookalikes : Survives lookalikes ∧
    ∀ (erange : ℚ → Bool) (next : ℕ) (store : AccountStore Double) (raw : Bytes),
      (∃ reason next' data, parseOrder erange next raw = .ok (.error reason, next') ∧
        respond erange next store raw = .ok (data, next', store) ∧ ReadsReject data reason) ∨
      ∃ o next' data, parseOrder erange next raw = .ok (.ok o, next') ∧
        respond erange next store raw = .ok (data, next', (validate store o).2) ∧
        ReadsReport data (validate store o).1 :=
  fields_survive ⟨by decide, by decide, by decide⟩

end OrderRisk.Server
