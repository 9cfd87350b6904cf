import OrderRisk.Fix.Fields
import OrderRisk.Fix.Grammar
import OrderRisk.Lib.Overwrite
import Mathlib.Data.List.TakeWhile

/-!
# What a malformed segment does to its neighbours

A message as a list of SOH-terminated segments.  The search for `=` does not stop at SOH, so a
segment without `=` becomes a part of the tag of the next field, and `stoi` reads that tag from the
first segment without `=`; and of a tag text like `35x` it reads the number in front.  So a
malformed segment can take a field away, or put one in.  `insert_iff` says when it does neither.
-/

namespace OrderRisk.Fix

open OrderRisk.Lib

/-! ### Segments -/

/-- The text in front of a SOH. -/
structure Segment where
  text : Bytes
  text_soh : SOH ∉ text

namespace Segment

def tagText (s : Segment) : Bytes := s.text.takeWhile (· != byte '=')

def value (s : Segment) : Bytes := (s.text.dropWhile (· != byte '=')).tail

/-- Not of the form `tag=value` with a decimal tag in the range of `int`. -/
def Malformed (s : Segment) : Prop :=
  ¬ (byte '=' ∈ s.text ∧ IsNumeral s.tagText ∧ readDigits 10 digitVal s.tagText < 2 ^ 31)

theorem tagText_eq (s : Segment) : byte '=' ∉ s.tagText := by
  intro h
  have := List.mem_takeWhile_imp h
  simp at this

theorem text_eq {s : Segment} (h : byte '=' ∈ s.text) :
    s.text = s.tagText ++ byte '=' :: s.value := by
  have hne : s.text.dropWhile (· != byte '=') ≠ [] := by
    intro hnil
    have := List.dropWhile_eq_nil_iff.mp hnil _ h
    simp at this
  obtain ⟨c, r, hc⟩ := List.exists_cons_of_ne_nil hne
  have hhead : c = byte '=' := by
    have := List.head_dropWhile_not (· != byte '=') hne
    simpa [hc] using this
  have happ := List.takeWhile_append_dropWhile (p := (· != byte '=')) (l := s.text)
  rw [hc, hhead] at happ
  rw [tagText, value, hc]
  exact happ.symm

theorem tagText_of_notMem {s : Segment} (h : byte '=' ∉ s.text) : s.tagText = s.text := by
  rw [tagText, List.takeWhile_eq_self_iff]
  intro c hc
  simp only [bne_iff_ne]
  rintro rfl
  exact h hc

theorem value_soh (s : Segment) : SOH ∉ s.value := by
  intro h
  exact s.text_soh ((List.dropWhile_suffix _).subset (List.mem_of_mem_tail h))

end Segment

def joinSegments (l : List Segment) : Bytes := l.flatMap fun s => s.text ++ [SOH]

@[simp] theorem joinSegments_cons (s : Segment) (l : List Segment) :
    joinSegments (s :: l) = s.text ++ SOH :: joinSegments l := by
  simp [joinSegments]

/-! ### The number in front of a tag -/

/-- The tag that `splitFields` reads in a text, if it is not skipped. -/
def readTag (t : Bytes) : Option ℤ :=
  match stoi t with
  | .ok tag => some tag
  | .error _ => none

theorem takeWhile_stop {p : UInt8 → Bool} {c : UInt8} (hc : p c = false) (s t : Bytes) :
    (s ++ c :: t).takeWhile p = s.takeWhile p := by
  induction s with
  | nil => simp [hc]
  | cons x s ih => simp [List.takeWhile_cons, ih]

theorem dropWhile_stop {p : UInt8 → Bool} {c : UInt8} (hc : p c = false) (s t : Bytes) :
    (s ++ c :: t).dropWhile p = s.dropWhile p ++ c :: t := by
  induction s with
  | nil => simp [hc]
  | cons x s ih =>
    rw [List.cons_append, List.dropWhile_cons, List.dropWhile_cons]
    split
    · exact ih
    · rfl

theorem readTag_soh (s t : Bytes) : readTag (s ++ SOH :: t) = readTag s := by
  have hsign : ∀ u : Bytes, readSign (u ++ SOH :: t) = ((readSign u).1, (readSign u).2 ++ SOH :: t) := by
    intro u
    cases u with
    | nil => rfl
    | cons c u =>
      simp only [List.cons_append, readSign]
      split
      · rfl
      · split <;> rfl
  have hscan : scanInteger (s ++ SOH :: t) = scanInteger s := by
    unfold scanInteger
    rw [dropWhile_stop (by decide), hsign]
    dsimp only
    rw [takeWhile_stop (by decide)]
  rw [readTag, readTag, stoi, stoi, hscan]

theorem addField_eq_put (fields : Fields) (f : Field) :
    addField fields f = put fields (readTag f.tag, f.value) := by
  unfold addField readTag put
  cases stoi f.tag with
  | ok tag => rfl
  | error e => rfl

/-! ### What a list of segments writes -/

/-- The fields of the segments, as tag and value.  `pending` is the tag that was begun by segments
without `=`. -/
def writes : Option (Option ℤ) → List Segment → List (Write ℤ Bytes)
  | _, [] => []
  | pending, s :: ss =>
    let tag := pending.getD (readTag s.tagText)
    if byte '=' ∈ s.text then (tag, s.value) :: writes none ss else writes (some tag) ss

/-- The tag that the segments leave begun. -/
def pendingAfter : Option (Option ℤ) → List Segment → Option (Option ℤ)
  | pending, [] => pending
  | pending, s :: ss =>
    if byte '=' ∈ s.text then pendingAfter none ss
    else pendingAfter (some (pending.getD (readTag s.tagText))) ss

/-- The text `p` in front of the next field, and what it makes of its tag. -/
def Begun (p : Bytes) : Option (Option ℤ) → Prop
  | none => p = []
  | some tag => ∀ t, readTag (p ++ t) = tag

theorem Begun.readTag {p : Bytes} {pending : Option (Option ℤ)} (h : Begun p pending) (t : Bytes) :
    readTag (p ++ t) = pending.getD (readTag t) := by
  cases pending with
  | none =>
    obtain rfl : p = [] := h
    rfl
  | some tag => exact h t

theorem Begun.append {p : Bytes} {pending : Option (Option ℤ)} (h : Begun p pending) (s : Bytes) :
    Begun (p ++ s ++ [SOH]) (some (pending.getD (Fix.readTag s))) := by
  intro t
  have e : p ++ s ++ [SOH] ++ t = p ++ (s ++ SOH :: t) := by simp
  rw [e, h.readTag, readTag_soh]

theorem unfinished_of_notMem {p : Bytes} (h : byte '=' ∉ p) : Unfinished p := by
  intro f t he
  refine h ?_
  rw [he, Field.bytes_append]
  simp

/-- The fields of a run of segments. -/
theorem exists_fields_join (ss : List Segment) {p : Bytes} {pending : Option (Option ℤ)}
    (hp : byte '=' ∉ p) (hb : Begun p pending) : ∃ (fs : List Field) (r : Bytes),
      p ++ joinSegments ss = fieldBytes fs ++ r ∧ Unfinished r ∧
        (fs.map fun f => (readTag f.tag, f.value)) = writes pending ss := by
  induction ss generalizing p pending with
  | nil => exact ⟨[], p, by simp [joinSegments], unfinished_of_notMem hp, rfl⟩
  | cons s ss ih =>
    rw [writes]
    split
    · next heq =>
      -- the segment completes a field
      obtain ⟨fs, r, he, hr, hw⟩ := @ih [] none (by simp) rfl
      have htag : byte '=' ∉ p ++ s.tagText := by
        rw [List.mem_append, not_or]
        exact ⟨hp, s.tagText_eq⟩
      refine ⟨⟨p ++ s.tagText, s.value, htag, s.value_soh⟩ :: fs, r, ?_, hr, ?_⟩
      · rw [List.nil_append] at he
        rw [joinSegments_cons, he, Segment.text_eq heq, fieldBytes_cons, Field.bytes]
        simp
      · rw [List.map_cons, hw, hb.readTag]
    · next heq =>
      have hp' : byte '=' ∉ p ++ s.text ++ [SOH] := by
        simp only [List.mem_append, List.mem_singleton, not_or]
        exact ⟨⟨hp, heq⟩, by decide⟩
      have hb' := hb.append s.text
      rw [← Segment.tagText_of_notMem heq] at hb' hp'
      obtain ⟨fs, r, he, hr, hw⟩ := ih hp' hb'
      rw [Segment.tagText_of_notMem heq] at he
      refine ⟨fs, r, ?_, hr, hw⟩
      rw [← he, joinSegments_cons]
      simp

/-- **What `splitFields` makes of segments.** -/
theorem splitFields_join (ss : List Segment) :
    splitFields (joinSegments ss) = final (writes none ss) := by
  obtain ⟨fs, r, he, hr, hw⟩ := @exists_fields_join ss [] none (by simp) rfl
  rw [List.nil_append] at he
  rw [he, splitFields_eq fs hr, final, ← hw, List.foldl_map]
  congr 1
  funext fields f
  exact addField_eq_put fields f

/-! ### A segment more -/

/-- The first field has another tag. -/
def retag (tag : Option ℤ) : List (Write ℤ Bytes) → List (Write ℤ Bytes)
  | [] => []
  | w :: ws => (tag, w.2) :: ws

theorem writes_some (tag : Option ℤ) (ss : List Segment) (pending : Option (Option ℤ)) :
    writes (some tag) ss = retag tag (writes pending ss) := by
  induction ss generalizing pending with
  | nil => rfl
  | cons s ss ih =>
    rw [writes, writes]
    split
    · rfl
    · exact ih _

theorem writes_append (pending : Option (Option ℤ)) (l l' : List Segment) :
    writes pending (l ++ l') = writes pending l ++ writes (pendingAfter pending l) l' := by
  induction l generalizing pending with
  | nil => rfl
  | cons s l ih =>
    rw [List.cons_append, writes, writes, pendingAfter]
    split
    · rw [ih none, List.cons_append]
    · exact ih _

/-- When the segment `g` between `l` and `l'` changes no value.

Without `=`, it becomes a part of the next field's tag: behind another such segment it does not
matter, otherwise the tag must stay the same or the field make no difference under either tag.
With `=`, it is a field itself; behind a segment without `=` it takes over the tag that was begun. -/
def Harmless (l : List Segment) (g : Segment) (l' : List Segment) : Prop :=
  let before := writes none l
  let tag := readTag g.tagText
  match pendingAfter none l, decide (byte '=' ∈ g.text), writes none l' with
  | some _, false, _ => True
  | none, false, [] => True
  | none, false, (t, v) :: after => t = tag ∨ Idle before after (t, v) ∧ Idle before after (tag, v)
  | none, true, after => Idle before after (tag, g.value)
  | some t, true, [] => Idle before [] (t, g.value)
  | some t, true, (t', v) :: after =>
    t = t' ∨ Idle before after (t', v) ∧ (g.value = v ∨ ∀ k, t = some k → Writes after k)

/-- **A segment makes no difference exactly when it is harmless.** -/
theorem insert_iff (l : List Segment) (g : Segment) (l' : List Segment) :
    splitFields (joinSegments (l ++ g :: l')) = splitFields (joinSegments (l ++ l')) ↔
      Harmless l g l' := by
  rw [splitFields_join, splitFields_join, writes_append, writes_append, writes, Harmless]
  by_cases hg : byte '=' ∈ g.text
  · rw [if_pos hg, decide_eq_true hg]
    cases hp : pendingAfter none l with
    | none => exact final_insert_iff
    | some t =>
      rw [writes_some t l' none]
      cases writes none l' with
      | nil => exact final_insert_iff
      | cons w after => exact final_split_iff
  · rw [if_neg hg, decide_eq_false hg, writes_some _ l' none]
    cases hp : pendingAfter none l with
    | none =>
      cases writes none l' with
      | nil => simp [retag]
      | cons w after =>
        obtain ⟨t, v⟩ := w
        show final (_ ++ (readTag g.tagText, v) :: after) = final (_ ++ (t, v) :: after) ↔ _
        rw [eq_comm]
        exact final_retag_iff
    | some t =>
      rw [writes_some t l' none]
      simp

def garbage : Segment := ⟨txt "garbage", by decide⟩

/-- In front of the message type it takes the message type away. -/
theorem garbage_not_harmless :
    ¬ ∀ (l : List Segment) (g : Segment) (l' : List Segment), g.Malformed →
      splitFields (joinSegments (l ++ g :: l')) = splitFields (joinSegments (l ++ l')) := by
  intro h
  have hg : garbage.Malformed := fun hm => absurd hm.1 (by decide)
  have h35 := congrFun (h [] garbage [⟨txt "35=D", by decide⟩] hg) 35
  exact absurd h35 (by decide +kernel)

end OrderRisk.Fix
