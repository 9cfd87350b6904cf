import OrderRisk.Lib.Machine
import Mathlib.Data.List.Nodup
import Mathlib.Data.List.Perm.Basic
import Mathlib.Data.List.Perm.Lattice

/-!
# Histories of calls and returns, and their linearizations

A history is the list of a run's calls and returns, each under the identity of its call.  A
linearization of it (`Linearizes`) puts the answered calls, and some of those that are still
pending, in one order (`Recorded`) in which the sequential object gives the answers they got.

`Logged` is the invariant of a machine that writes down each call where it is decided: a thread is
outside, has a call that is not decided, or has one that is decided and not returned (`Place`), and
each of its steps is one of `Logged.call`, `Logged.decide` and `Logged.ret`.
-/

namespace OrderRisk.Lib

variable {α β σ ι : Type*}

/-- What the callers of an object see. -/
inductive Event (α β : Type*) where
  | call (id : ℕ) (arg : α)
  | ret (id : ℕ) (result : β)
  deriving DecidableEq

namespace Event

def id : Event α β → ℕ
  | .call i _ => i
  | .ret i _ => i

def called? : Event α β → Option (ℕ × α)
  | .call i a => some (i, a)
  | .ret _ _ => none

def answered? : Event α β → Option (ℕ × β)
  | .call _ _ => none
  | .ret i r => some (i, r)

end Event

def calls (hist : List (Event α β)) : List (ℕ × α) := hist.filterMap Event.called?

def answers (hist : List (Event α β)) : List (ℕ × β) := hist.filterMap Event.answered?

/-- The answered calls, with their answers. -/
def outcomes (hist : List (Event α β)) : List (α × β) :=
  (answers hist).filterMap fun l => ((calls hist).lookup l.1).map fun a => (a, l.2)

/-- A call with its answer. -/
structure Entry (α β : Type*) where
  id : ℕ
  arg : α
  result : β
  deriving DecidableEq

def Entry.label (e : Entry α β) : α × β := (e.arg, e.result)

/-- The call has returned. -/
def Returned (hist : List (Event α β)) (i : ℕ) : Prop := ∃ r, Event.ret i r ∈ hist

/-- The call `i` had returned when the call `j` was made. -/
def Before (hist : List (Event α β)) (i j : ℕ) : Prop :=
  ∃ r a, [Event.ret i r, Event.call j a].Sublist hist

/-- **An order of the calls of a history**: each once, none that was not made, every answer that was
given, and no call in front of one that had returned when it was made. -/
structure Recorded (hist : List (Event α β)) (order : List (Entry α β)) : Prop where
  nodup : (order.map Entry.id).Nodup
  called : ∀ e ∈ order, Event.call e.id e.arg ∈ hist
  answered : ∀ i r, Event.ret i r ∈ hist → ∃ e ∈ order, e.id = i ∧ e.result = r
  realTime : order.Pairwise fun e f => ¬ Before hist f.id e.id

/-- **What a sequential object can do**: `op` gives the answer of a call and the object afterwards,
or nothing where the call would block. -/
inductive Legal (op : σ → α → Option (β × σ)) : σ → List (Entry α β) → σ → Prop
  | nil (s : σ) : Legal op s [] s
  | cons {s s₁ s' : σ} {e : Entry α β} {order : List (Entry α β)}
      (h : op s e.arg = some (e.result, s₁)) (hs : Legal op s₁ order s') : Legal op s (e :: order) s'

/-- **Linearization**: in this order the sequential object gives every call its answer, and ends in
`s`. -/
structure Linearizes (op : σ → α → Option (β × σ)) (s₀ : σ) (hist : List (Event α β))
    (order : List (Entry α β)) (s : σ) : Prop where
  recorded : Recorded hist order
  legal : Legal op s₀ order s

section

variable {op : σ → α → Option (β × σ)} {s s₁ s' : σ} {e : Entry α β} {l l' : List (Entry α β)}

theorem Legal.append (h : Legal op s l s₁) (h' : Legal op s₁ l' s') : Legal op s (l ++ l') s' := by
  induction h with
  | nil s => exact h'
  | cons he _ ih => exact .cons he (ih h')

theorem Legal.snoc (h : Legal op s l s₁) (he : op s₁ e.arg = some (e.result, s')) :
    Legal op s (l ++ [e]) s' :=
  h.append (.cons he (.nil s'))

theorem Legal.split (h : Legal op s (l ++ l') s') : ∃ s₁, Legal op s l s₁ ∧ Legal op s₁ l' s' := by
  induction l generalizing s with
  | nil => exact ⟨s, .nil s, h⟩
  | cons e l ih =>
    cases h with
    | cons he h =>
      obtain ⟨s₁, h1, h2⟩ := ih h
      exact ⟨s₁, .cons he h1, h2⟩

end

/-! ### Events in a history -/

section

variable {hist : List (Event α β)} {i j k : ℕ} {a : α} {r : β}

theorem mem_calls : (i, a) ∈ calls hist ↔ Event.call i a ∈ hist := by
  unfold calls
  rw [List.mem_filterMap]
  constructor
  · rintro ⟨e, he, h⟩
    cases e with
    | call i' a' =>
      cases h
      exact he
    | ret i' r' => cases h
  · intro h
    exact ⟨_, h, rfl⟩

theorem mem_answers : (i, r) ∈ answers hist ↔ Event.ret i r ∈ hist := by
  unfold answers
  rw [List.mem_filterMap]
  constructor
  · rintro ⟨e, he, h⟩
    cases e with
    | call i' a' => cases h
    | ret i' r' =>
      cases h
      exact he
  · intro h
    exact ⟨_, h, rfl⟩

theorem pair_sublist_concat {γ : Type*} {x y z : γ} {l : List γ} :
    [x, y].Sublist (l ++ [z]) ↔ [x, y].Sublist l ∨ x ∈ l ∧ y = z := by
  induction l with
  | nil => simp [List.sublist_cons_iff]
  | cons w l ih =>
    rw [List.cons_append, List.sublist_cons_iff, ih, List.sublist_cons_iff]
    simp only [List.cons.injEq, List.mem_cons]
    constructor
    · rintro ((h | h) | ⟨_, ⟨rfl, rfl⟩, h⟩)
      · exact .inl (.inl h)
      · exact .inr ⟨.inr h.1, h.2⟩
      · rw [List.singleton_sublist, List.mem_append, List.mem_singleton] at h
        rcases h with h | h
        · exact .inl (.inr ⟨_, ⟨rfl, rfl⟩, List.singleton_sublist.mpr h⟩)
        · exact .inr ⟨.inl rfl, h⟩
    · rintro ((h | ⟨_, ⟨rfl, rfl⟩, h⟩) | ⟨h | h, rfl⟩)
      · exact .inl (.inl h)
      · exact .inr ⟨_, ⟨rfl, rfl⟩, h.trans (List.sublist_append_left ..)⟩
      · exact .inr ⟨_, ⟨h.symm ▸ rfl, rfl⟩, by simp⟩
      · exact .inl (.inr ⟨h, rfl⟩)

theorem before_call : Before (hist ++ [.call k a]) i j ↔ Before hist i j ∨ Returned hist i ∧ j = k := by
  unfold Before Returned
  simp only [pair_sublist_concat, Event.call.injEq]
  constructor
  · rintro ⟨r, b, h | ⟨h, rfl, -⟩⟩
    · exact .inl ⟨r, b, h⟩
    · exact .inr ⟨⟨r, h⟩, rfl⟩
  · rintro (⟨r, b, h⟩ | ⟨⟨r, h⟩, rfl⟩)
    · exact ⟨r, b, .inl h⟩
    · exact ⟨r, a, .inr ⟨h, rfl, rfl⟩⟩

theorem before_ret : Before (hist ++ [.ret k r]) i j ↔ Before hist i j := by
  unfold Before
  simp only [pair_sublist_concat, reduceCtorEq, and_false, or_false]

theorem Before.returned (h : Before hist i j) : Returned hist i := by
  obtain ⟨r, a, h⟩ := h
  exact ⟨r, h.subset (by simp)⟩

theorem returned_call : Returned (hist ++ [.call k a]) i ↔ Returned hist i := by
  simp [Returned]

theorem returned_ret : Returned (hist ++ [.ret k r]) i ↔ Returned hist i ∨ i = k := by
  unfold Returned
  simp only [List.mem_append, List.mem_singleton, Event.ret.injEq]
  constructor
  · rintro ⟨r', h | ⟨h, -⟩⟩
    · exact .inl ⟨r', h⟩
    · exact .inr h
  · rintro (⟨r', h⟩ | h)
    · exact ⟨r', .inl h⟩
    · exact ⟨r, .inr ⟨h, rfl⟩⟩

end

/-! ### Orders of a growing history -/

namespace Recorded

variable {hist : List (Event α β)} {order : List (Entry α β)} {k : ℕ} {a : α} {r : β}
  {e f : Entry α β}

theorem eq_of_id (h : Recorded hist order) (he : e ∈ order) (hf : f ∈ order) (hid : e.id = f.id) :
    e = f :=
  List.inj_on_of_nodup_map h.nodup he hf hid

theorem result_eq (h : Recorded hist order) (he : e ∈ order) (hr : .ret e.id r ∈ hist) :
    e.result = r := by
  obtain ⟨f, hf, hid, rfl⟩ := h.answered e.id r hr
  rw [h.eq_of_id hf he hid]

theorem call (h : Recorded hist order) (hk : ∀ e ∈ order, e.id ≠ k) :
    Recorded (hist ++ [.call k a]) order where
  nodup := h.nodup
  called e he := List.mem_append_left _ (h.called e he)
  answered i r hr := by
    rw [List.mem_append, List.mem_singleton] at hr
    exact h.answered i r (hr.resolve_right nofun)
  realTime := by
    refine h.realTime.imp_of_mem fun {e f} he _ hef hb => ?_
    rcases before_call.mp hb with hb | ⟨-, hk'⟩
    · exact hef hb
    · exact hk e he hk'

/-- A call is decided: nothing was called after it returned. -/
theorem snoc (h : Recorded hist order) (hc : .call e.id e.arg ∈ hist) (hr : ¬ Returned hist e.id)
    (hid : ∀ f ∈ order, f.id ≠ e.id) : Recorded hist (order ++ [e]) where
  nodup := by
    rw [List.map_append, List.nodup_append]
    refine ⟨h.nodup, List.nodup_singleton _, ?_⟩
    intro i hi j hj
    obtain ⟨f, hf, rfl⟩ := List.mem_map.mp hi
    rw [List.map_singleton, List.mem_singleton] at hj
    rw [hj]
    exact hid f hf
  called f hf := by
    rw [List.mem_append, List.mem_singleton] at hf
    rcases hf with hf | rfl
    · exact h.called f hf
    · exact hc
  answered i r hr := by
    obtain ⟨f, hf, h1⟩ := h.answered i r hr
    exact ⟨f, List.mem_append_left _ hf, h1⟩
  realTime := by
    rw [List.pairwise_append]
    refine ⟨h.realTime, List.pairwise_singleton .., ?_⟩
    intro f _ g hg hb
    rw [List.mem_singleton.mp hg] at hb
    exact hr hb.returned

theorem ret (h : Recorded hist order) (he : ∃ e ∈ order, e.id = k ∧ e.result = r) :
    Recorded (hist ++ [.ret k r]) order where
  nodup := h.nodup
  called e he := List.mem_append_left _ (h.called e he)
  answered i r' hr := by
    rw [List.mem_append, List.mem_singleton] at hr
    rcases hr with hr | hr
    · exact h.answered i r' hr
    · cases hr
      exact he
  realTime := h.realTime.imp fun hef hb => hef (before_ret.mp hb)

/-- **Calls moved to the front**: if none of the calls that `p` leaves behind had returned when one
that `p` moves over it was made. -/
theorem rearrange {γ : Type*} {entry : γ → Entry α β} {log : List γ}
    (h : Recorded hist (log.map entry)) (p : γ → Bool)
    (hp : log.Pairwise fun e f => p e = false → p f = true →
      ¬ Before hist (entry e).id (entry f).id) :
    Recorded hist ((log.filter p ++ log.filter fun e => !p e).map entry) := by
  have hperm : ((log.filter p ++ log.filter fun e => !p e).map entry).Perm (log.map entry) :=
    (List.filter_append_perm p log).map entry
  constructor
  · exact (hperm.map Entry.id).nodup_iff.mpr h.nodup
  · exact fun e he => h.called e (hperm.mem_iff.mp he)
  · intro i r hr
    obtain ⟨e, he, h1⟩ := h.answered i r hr
    exact ⟨e, hperm.mem_iff.mpr he, h1⟩
  · have hrt := List.pairwise_map.mp h.realTime
    rw [List.pairwise_map, List.pairwise_append]
    refine ⟨hrt.filter p, hrt.filter _, ?_⟩
    intro e he f hf hb
    obtain ⟨he, hpe⟩ := List.mem_filter.mp he
    obtain ⟨hf, hpf⟩ := List.mem_filter.mp hf
    have hpf : p f = false := by simpa using hpf
    -- in the old order one of the two came first
    obtain ⟨l₁, l₂, rfl⟩ := List.append_of_mem he
    rw [List.pairwise_append, List.pairwise_cons] at hp hrt
    rcases List.mem_append.mp hf with hf | hf
    · exact hp.2.2 f hf e List.mem_cons_self hpf hpe hb
    · rcases List.mem_cons.mp hf with rfl | hf
      · rw [hpe] at hpf
        cases hpf
      · exact hrt.2.1.1 f hf hb

end Recorded

/-! ### A machine that writes down its decisions -/

/-- Where a thread is, as its callers see it. -/
inductive Place (α β : Type*) where
  | outside
  | pending (id : ℕ) (arg : α)
  | decided (id : ℕ) (result : β)

def Place.id? : Place α β → Option ℕ
  | .outside => none
  | .pending i _ => some i
  | .decided i _ => some i

/-- The decisions `log` of the threads at `place`, with the history they have made. -/
structure Logged (hist : List (Event α β)) (log : List (Entry α β)) (place : ι → Place α β) :
    Prop where
  recorded : Recorded hist log
  fresh : ∀ e ∈ hist, e.id < hist.length
  calls : ((calls hist).map Prod.fst).Nodup
  answers : ((answers hist).map Prod.fst).Nodup
  pending : ∀ t i a, place t = .pending i a →
    .call i a ∈ hist ∧ ¬ Returned hist i ∧ ∀ e ∈ log, e.id ≠ i
  decided : ∀ t i r, place t = .decided i r →
    ¬ Returned hist i ∧ ∃ e ∈ log, e.id = i ∧ e.result = r
  distinct : ∀ t u i, (place t).id? = some i → (place u).id? = some i → t = u
  active : ∀ i a, Event.call i a ∈ hist → Returned hist i ∨ ∃ t, (place t).id? = some i

namespace Logged

variable {hist : List (Event α β)} {log : List (Entry α β)} {place place' : ι → Place α β} {t : ι}
  {i : ℕ} {a : α} {r : β} {e : Entry α β}

theorem init : Logged ([] : List (Event α β)) [] fun _ : ι => .outside where
  recorded := ⟨List.nodup_nil, nofun, nofun, .nil⟩
  fresh := nofun
  calls := List.nodup_nil
  answers := List.nodup_nil
  pending := nofun
  decided := nofun
  distinct := nofun
  active := nofun

theorem fresh_length (h : Logged hist log place) :
    ¬ Returned hist hist.length ∧ (∀ a, Event.call hist.length a ∉ hist) ∧
      ∀ e ∈ log, e.id ≠ hist.length := by
  refine ⟨fun ⟨r, hr⟩ => ?_, fun a ha => ?_, fun e he hid => ?_⟩
  · exact lt_irrefl _ (h.fresh _ hr)
  · exact lt_irrefl _ (h.fresh _ ha)
  · have := h.fresh _ (h.recorded.called e he)
    rw [← hid] at this
    exact lt_irrefl _ this

theorem called_of_id (h : Logged hist log place) (hid : (place t).id? = some i) :
    ∃ a, Event.call i a ∈ hist := by
  cases hp : place t with
  | outside =>
    rw [hp] at hid
    cases hid
  | pending j a =>
    rw [hp] at hid
    cases hid
    exact ⟨a, (h.pending t _ a hp).1⟩
  | decided j r =>
    rw [hp] at hid
    cases hid
    obtain ⟨-, e, he, rfl, -⟩ := h.decided t _ r hp
    exact ⟨e.arg, h.recorded.called e he⟩

variable [DecidableEq ι]

/-- A call. -/
theorem call (h : Logged hist log place) (ht : place t = .outside) :
    Logged (hist ++ [.call hist.length a]) log
      (Function.update place t (.pending hist.length a)) := by
  obtain ⟨hr, hc, hl⟩ := h.fresh_length
  have hne : ∀ {u j}, (place u).id? = some j → j ≠ hist.length := by
    rintro u j hj rfl
    obtain ⟨a, ha⟩ := h.called_of_id hj
    exact hc a ha
  constructor
  · exact h.recorded.call hl
  · intro e he
    rw [List.length_append, List.length_singleton]
    rw [List.mem_append, List.mem_singleton] at he
    rcases he with he | rfl
    · exact Nat.lt_succ_of_lt (h.fresh e he)
    · exact Nat.lt_succ_self _
  · have hcalls : Lib.calls (hist ++ [.call hist.length a]) =
        Lib.calls hist ++ [(hist.length, a)] := List.filterMap_append ..
    rw [hcalls, List.map_append, List.nodup_append]
    refine ⟨h.calls, List.nodup_singleton _, ?_⟩
    intro i hi j hj hij
    obtain ⟨⟨i, b⟩, hb, rfl⟩ := List.mem_map.mp hi
    rw [List.map_singleton, List.mem_singleton] at hj
    rw [hj] at hij
    cases hij
    exact hc b (mem_calls.mp hb)
  · have hans : Lib.answers (hist ++ [.call hist.length a]) = Lib.answers hist := by
      simp [Lib.answers, Event.answered?]
    rw [hans]
    exact h.answers
  · intro u j b hu
    rcases eq_or_ne u t with rfl | hut
    · rw [Function.update_self] at hu
      cases hu
      exact ⟨by simp, fun hr' => hr (returned_call.mp hr'), hl⟩
    · rw [Function.update_of_ne hut] at hu
      obtain ⟨h1, h2, h3⟩ := h.pending u j b hu
      exact ⟨List.mem_append_left _ h1, fun hr' => h2 (returned_call.mp hr'), h3⟩
  · intro u j r hu
    rcases eq_or_ne u t with rfl | hut
    · rw [Function.update_self] at hu
      cases hu
    · rw [Function.update_of_ne hut] at hu
      obtain ⟨h1, h2⟩ := h.decided u j r hu
      exact ⟨fun hr' => h1 (returned_call.mp hr'), h2⟩
  · intro u v j hu hv
    by_cases hut : u = t <;> by_cases hvt : v = t
    · rw [hut, hvt]
    · rw [hut, Function.update_self] at hu
      rw [Function.update_of_ne hvt] at hv
      cases hu
      exact (hne hv rfl).elim
    · rw [hvt, Function.update_self] at hv
      rw [Function.update_of_ne hut] at hu
      cases hv
      exact (hne hu rfl).elim
    · rw [Function.update_of_ne hut] at hu
      rw [Function.update_of_ne hvt] at hv
      exact h.distinct u v j hu hv
  · intro j b hj
    rw [List.mem_append, List.mem_singleton] at hj
    rcases hj with hj | hj
    · rcases h.active j b hj with hret | ⟨u, hu⟩
      · exact .inl (returned_call.mpr hret)
      · refine .inr ⟨u, ?_⟩
        rw [Function.update_of_ne]
        · exact hu
        · rintro rfl
          rw [ht] at hu
          cases hu
    · cases hj
      exact .inr ⟨t, by rw [Function.update_self]; rfl⟩

/-- The step that decides a call. -/
theorem decide (h : Logged hist log place) (ht : place t = .pending i a) :
    Logged hist (log ++ [⟨i, a, r⟩]) (Function.update place t (.decided i r)) := by
  obtain ⟨hc, hr, hl⟩ := h.pending t i a ht
  have hid : ∀ u, (Function.update place t (.decided i r) u).id? = (place u).id? := by
    intro u
    rcases eq_or_ne u t with rfl | hut
    · rw [Function.update_self, ht]
      rfl
    · rw [Function.update_of_ne hut]
  constructor
  · exact h.recorded.snoc hc hr hl
  · exact h.fresh
  · exact h.calls
  · exact h.answers
  · intro u j b hu
    have hut : u ≠ t := by
      rintro rfl
      rw [Function.update_self] at hu
      cases hu
    rw [Function.update_of_ne hut] at hu
    obtain ⟨h1, h2, h3⟩ := h.pending u j b hu
    refine ⟨h1, h2, fun e he => ?_⟩
    rw [List.mem_append, List.mem_singleton] at he
    rcases he with he | rfl
    · exact h3 e he
    · rintro rfl
      exact hut (h.distinct u t i (by rw [hu]; rfl) (by rw [ht]; rfl))
  · intro u j r' hu
    rcases eq_or_ne u t with rfl | hut
    · rw [Function.update_self] at hu
      cases hu
      exact ⟨hr, ⟨i, a, r⟩, by simp, rfl, rfl⟩
    · rw [Function.update_of_ne hut] at hu
      obtain ⟨h1, e, he, h2⟩ := h.decided u j r' hu
      exact ⟨h1, e, List.mem_append_left _ he, h2⟩
  · intro u v j hu hv
    rw [hid] at hu hv
    exact h.distinct u v j hu hv
  · intro j b hj
    simp only [hid]
    exact h.active j b hj

/-- A return. -/
theorem ret (h : Logged hist log place) (ht : place t = .decided i r) :
    Logged (hist ++ [.ret i r]) log (Function.update place t .outside) := by
  obtain ⟨hr, he⟩ := h.decided t i r ht
  have hne : ∀ {u j}, u ≠ t → (place u).id? = some j → j ≠ i := by
    rintro u j hut hu rfl
    exact hut (h.distinct u t j hu (by rw [ht]; rfl))
  constructor
  · exact h.recorded.ret he
  · intro e' he'
    rw [List.length_append, List.length_singleton]
    rw [List.mem_append, List.mem_singleton] at he'
    rcases he' with he' | rfl
    · exact Nat.lt_succ_of_lt (h.fresh e' he')
    · obtain ⟨e, he, rfl, -⟩ := he
      have := h.fresh _ (h.recorded.called e he)
      exact Nat.lt_succ_of_lt this
  · have hcalls : Lib.calls (hist ++ [.ret i r]) = Lib.calls hist := by
      simp [Lib.calls, Event.called?]
    rw [hcalls]
    exact h.calls
  · have hans : Lib.answers (hist ++ [.ret i r]) = Lib.answers hist ++ [(i, r)] :=
      List.filterMap_append ..
    rw [hans, List.map_append, List.nodup_append]
    refine ⟨h.answers, List.nodup_singleton _, ?_⟩
    intro j hj k hk hjk
    obtain ⟨⟨j, b⟩, hb, rfl⟩ := List.mem_map.mp hj
    rw [List.map_singleton, List.mem_singleton] at hk
    rw [hk] at hjk
    cases hjk
    exact hr ⟨b, mem_answers.mp hb⟩
  · intro u j b hu
    have hut : u ≠ t := by
      rintro rfl
      rw [Function.update_self] at hu
      cases hu
    rw [Function.update_of_ne hut] at hu
    obtain ⟨h1, h2, h3⟩ := h.pending u j b hu
    refine ⟨List.mem_append_left _ h1, fun hr' => ?_, h3⟩
    exact (returned_ret.mp hr').elim h2 (hne hut (by rw [hu]; rfl))
  · intro u j r' hu
    have hut : u ≠ t := by
      rintro rfl
      rw [Function.update_self] at hu
      cases hu
    rw [Function.update_of_ne hut] at hu
    obtain ⟨h1, h2⟩ := h.decided u j r' hu
    exact ⟨fun hr' => (returned_ret.mp hr').elim h1 (hne hut (by rw [hu]; rfl)), h2⟩
  · intro u v j hu hv
    have hplace : ∀ {w}, (Function.update place t .outside w).id? = some j → w ≠ t := by
      rintro w hw rfl
      rw [Function.update_self] at hw
      cases hw
    rw [Function.update_of_ne (hplace hu)] at hu
    rw [Function.update_of_ne (hplace hv)] at hv
    exact h.distinct u v j hu hv
  · intro j b hj
    rw [List.mem_append, List.mem_singleton] at hj
    rcases h.active j b (hj.resolve_right nofun) with hret | ⟨u, hu⟩
    · exact .inl (returned_ret.mpr (.inl hret))
    · rcases eq_or_ne u t with rfl | hut
      · rw [ht] at hu
        cases hu
        exact .inl (returned_ret.mpr (.inr rfl))
      · exact .inr ⟨u, by rw [Function.update_of_ne hut]; exact hu⟩

/-! ### When every call has returned -/

omit [DecidableEq ι] in
theorem returned_of_outside (h : Logged hist log place) (hout : ∀ t, place t = .outside)
    (hc : Event.call i a ∈ hist) : Returned hist i := by
  refine (h.active i a hc).resolve_right ?_
  rintro ⟨t, ht⟩
  rw [hout t] at ht
  cases ht

omit [DecidableEq ι] in
theorem nodup_log (h : Logged hist log place) {γ : Type*} (f : Entry α β → γ) :
    (log.map fun e => (e.id, f e)).Nodup :=
  List.Nodup.of_map Prod.fst (by simpa [Function.comp_def] using h.recorded.nodup)

omit [DecidableEq ι] in
theorem calls_perm (h : Logged hist log place) (hout : ∀ t, place t = .outside) :
    (Lib.calls hist).Perm (log.map fun e => (e.id, e.arg)) := by
  refine (List.perm_ext_iff_of_nodup (.of_map _ h.calls) (h.nodup_log Entry.arg)).mpr ?_
  rintro ⟨i, a⟩
  rw [mem_calls, List.mem_map]
  constructor
  · intro hc
    obtain ⟨r, hr⟩ := h.returned_of_outside hout hc
    obtain ⟨e, he, rfl, -⟩ := h.recorded.answered i r hr
    have := List.inj_on_of_nodup_map h.calls (mem_calls.mpr hc)
      (mem_calls.mpr (h.recorded.called e he)) rfl
    cases this
    exact ⟨e, he, rfl⟩
  · rintro ⟨e, he, hea⟩
    cases hea
    exact h.recorded.called e he

omit [DecidableEq ι] in
theorem answers_perm (h : Logged hist log place) (hout : ∀ t, place t = .outside) :
    (Lib.answers hist).Perm (log.map fun e => (e.id, e.result)) := by
  refine (List.perm_ext_iff_of_nodup (.of_map _ h.answers) (h.nodup_log Entry.result)).mpr ?_
  rintro ⟨i, r⟩
  rw [mem_answers, List.mem_map]
  constructor
  · intro hr
    obtain ⟨e, he, rfl, rfl⟩ := h.recorded.answered i r hr
    exact ⟨e, he, rfl⟩
  · rintro ⟨e, he, her⟩
    cases her
    obtain ⟨r', hr'⟩ := h.returned_of_outside hout (h.recorded.called e he)
    rwa [h.recorded.result_eq he hr']

omit [DecidableEq ι] in
theorem lookup_calls (h : Logged hist log place) (he : e ∈ log) :
    (Lib.calls hist).lookup e.id = some e.arg := by
  obtain ⟨l₁, l₂, hl⟩ := List.append_of_mem (mem_calls.mpr (h.recorded.called e he))
  rw [List.lookup_eq_some_iff]
  refine ⟨l₁, l₂, hl, fun p hp => ?_⟩
  have hnd := h.calls
  rw [hl, List.map_append, List.nodup_append] at hnd
  have := hnd.2.2 p.1 (List.mem_map_of_mem hp) e.id (by simp)
  simpa using Ne.symm this

omit [DecidableEq ι] in
theorem outcomes_perm (h : Logged hist log place) (hout : ∀ t, place t = .outside) :
    (outcomes hist).Perm (log.map Entry.label) := by
  have hmap : ((log.map fun e => (e.id, e.result)).filterMap fun l =>
      ((Lib.calls hist).lookup l.1).map fun a => (a, l.2)) = log.map Entry.label := by
    rw [List.filterMap_map, List.filterMap_eq_map_iff_forall_eq_some]
    intro e he
    rw [Function.comp_apply, h.lookup_calls he]
    rfl
  rw [← hmap]
  exact (h.answers_perm hout).filterMap _

end Logged

end OrderRisk.Lib
