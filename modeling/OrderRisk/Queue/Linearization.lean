import OrderRisk.Queue.Trace
import OrderRisk.Queue.Delivery

/-!
# `LockFreeTaskQueue` against `TaskQueue`

The decided calls of a run are a `Tracks` list (`Inv.tracks`), so they can be put into an order of
`TaskQueue` that accepts the late pushes before the shutdown.  What may stand in the way is the
order of the callers' returns and calls.  A push that is still accepted was made before the flag was
stored (`Inv.trying`), so only the pops that make room for it matter: `ClaimsInTime` asks that none
of them was made after the shutdown was known to the callers.
-/

namespace OrderRisk.Queue

open OrderRisk.Lib

variable {ι T : Type*}

/-- The call `i` was made after a `shutdown`, or a push that was turned away, had returned. -/
def Overdue (hist : List (Event (Call T) (Ret T))) (i : ℕ) : Prop :=
  ∃ j r a, Ret.closes r = true ∧ [Event.ret j r, .call i a].Sublist hist

/-- The position that a step claims for a push. -/
def Trace.claims (s : Trace ι T) : Act ι T → Option ℕ
  | .step t ch =>
    match s.queue.pc t with
    | .push _ (.tryPush (.cas pos)) =>
      if s.queue.shared.core.ring.tail = pos ∧ ch.spurious = false then some pos else none
    | _ => none
  | _ => none

/-- No push claims a cell that was freed by a pop made after the shutdown was known. -/
def ClaimsInTime (capacity : ℕ) (s : Trace ι T) (a : Act ι T) : Prop :=
  ∀ pos ∈ s.claims a, ∀ p ∈ s.log, p.takes.map (· + capacity) = some pos → ¬ Overdue s.hist p.id

section

variable {hist : List (Event (Call T) (Ret T))} {i k : ℕ}

theorem overdue_call {a : Call T} (h : Overdue (hist ++ [.call k a]) i) :
    Overdue hist i ∨ i = k := by
  obtain ⟨j, r, b, hr, h⟩ := h
  rcases pair_sublist_concat.mp h with h | ⟨-, h⟩
  · exact .inl ⟨j, r, b, hr, h⟩
  · cases h
    exact .inr rfl

theorem overdue_ret {r : Ret T} (h : Overdue (hist ++ [.ret k r]) i) : Overdue hist i := by
  obtain ⟨j, r', b, hr, h⟩ := h
  rcases pair_sublist_concat.mp h with h | ⟨-, h⟩
  · exact ⟨j, r', b, hr, h⟩
  · cases h

/-- In the order of the decisions, what returned before a call. -/
theorem overdue_of_before {order : List (Entry (Call T) (Ret T))} (h : Recorded hist order)
    {e : Entry (Call T) (Ret T)} (he : e ∈ order) (hc : e.result.closes = true)
    (hb : Before hist e.id i) : Overdue hist i := by
  obtain ⟨r, a, hb⟩ := hb
  have hr := h.result_eq he (hb.subset List.mem_cons_self)
  exact ⟨e.id, r, a, hr ▸ hc, hb⟩

theorem not_overdue_nil : ¬ Overdue ([] : List (Event (Call T) (Ret T))) i := by
  rintro ⟨j, r, a, -, h⟩
  cases h

theorem overdue_cons_call {a : Call T} : Overdue (.call k a :: hist) i ↔ Overdue hist i := by
  unfold Overdue
  constructor
  · rintro ⟨j, r, b, hr, h⟩
    cases h with
    | cons _ h => exact ⟨j, r, b, hr, h⟩
  · rintro ⟨j, r, b, hr, h⟩
    exact ⟨j, r, b, hr, h.cons _⟩

theorem overdue_cons_ret {r : Ret T} : Overdue (.ret k r :: hist) i ↔
    Overdue hist i ∨ r.closes = true ∧ i ∈ (calls hist).map Prod.fst := by
  unfold Overdue
  constructor
  · rintro ⟨j, r', b, hr, h⟩
    cases h with
    | cons _ h => exact .inl ⟨j, r', b, hr, h⟩
    | cons_cons _ h =>
      have hmem := mem_calls.mpr (List.singleton_sublist.mp h)
      exact .inr ⟨hr, List.mem_map_of_mem (f := Prod.fst) hmem⟩
  · rintro (⟨j, r', b, hr, h⟩ | ⟨hr, h⟩)
    · exact ⟨j, r', b, hr, h.cons _⟩
    · obtain ⟨⟨i, b⟩, hb, rfl⟩ := List.mem_map.mp h
      exact ⟨k, r, b, hr, (List.singleton_sublist.mpr (mem_calls.mp hb)).cons_cons _⟩

end

instance decidableOverdue (i : ℕ) :
    ∀ hist : List (Event (Call T) (Ret T)), Decidable (Overdue hist i)
  | [] => .isFalse not_overdue_nil
  | .call _ _ :: hist =>
    have := decidableOverdue i hist
    decidable_of_iff (Overdue hist i) overdue_cons_call.symm
  | .ret _ r :: hist =>
    have := decidableOverdue i hist
    decidable_of_iff (Overdue hist i ∨ r.closes = true ∧ i ∈ (calls hist).map Prod.fst)
      overdue_cons_ret.symm

instance decidableClaimsInTime (capacity : ℕ) (s : Trace ι T) (a : Act ι T) :
    Decidable (ClaimsInTime capacity s a) :=
  inferInstanceAs (Decidable (∀ pos ∈ s.claims a, ∀ p ∈ s.log,
    p.takes.map (· + capacity) = some pos → ¬ Overdue s.hist p.id))

/-! ### The invariant -/

/-- The track of a queue. -/
structure Matches (st : Track T) (q : State ι T) : Prop where
  items : st.items = q.shared.core.items
  heads : st.heads = q.shared.core.headClaims.length
  closed : st.closedAt.isSome = q.shared.shutdown
  drained : st.drained = true → q.Drained

structure Inv (capacity : ℕ) (s : Trace ι T) (st : Track T) : Prop where
  logged : Lib.Logged s.hist (s.log.map Point.entry) s.place
  tracks : Tracks capacity s.log st
  matched : Matches st s.queue
  /-- An accepted push was made before anything late had returned, .. -/
  accepted : ∀ e ∈ s.log, ∀ f ∈ s.log, e.early st.split = false → f.result = .pushed true →
    ¬ Before s.hist e.id f.id
  /-- .. and so was one that may still be accepted. -/
  trying : ∀ t, (s.queue.pc t).trying = true → ∀ e ∈ s.log, e.early st.split = false →
    ¬ Before s.hist e.id (s.id t)
  inTime : ∀ f ∈ s.log, ∀ r, f.takes = some r → r + capacity < st.items.length →
    ¬ Overdue s.hist f.id

section

variable {capacity : ℕ} {s : Trace ι T} {st st' : Track T} {t : ι}

theorem Tracks.early_of_open {log : List (Point T)} (h : Tracks capacity log st)
    (ho : st.closedAt.isSome = false) {e : Point T} (he : e ∈ log) : e.early st.split = true := by
  have hnd : st.drained = false := by
    by_contra hd
    have := (h.ok.drained (by simpa using hd)).1
    exact Bool.false_ne_true (ho.symm.trans this)
  have hsplit : st.split = st.heads := by
    unfold Track.split
    rw [Option.isSome_eq_false_iff, Option.isNone_iff_eq_none] at ho
    rw [ho]
    rfl
  rw [hsplit]
  rcases (h.known e he).cases hnd with he | ⟨-, hc⟩
  · exact he
  · exact (Bool.false_ne_true (ho.symm.trans hc)).elim

theorem Decides.split_le {p : Point T} (hp : Decides capacity st p st') : st.split ≤ st'.split := by
  cases hp with
  | pop i x h =>
    unfold Track.split
    cases st.closedAt with
    | none => exact Nat.le_succ _
    | some k => exact le_rfl
  | _ => exact le_rfl

theorem place_id {c : Core ι T} {id : ℕ} {k : ThreadPc T} {a : Call T} (hk : k.call? = some a) :
    (k.place c id).id? = some id := by
  unfold ThreadPc.place
  cases k.result c with
  | some r => rfl
  | none =>
    rw [hk]
    rfl

theorem Inv.id_lt (h : Inv capacity s st) {a : Call T} (ht : (s.queue.pc t).call? = some a) :
    s.id t < s.hist.length := by
  obtain ⟨b, hb⟩ := h.logged.called_of_id (t := t) (place_id ht)
  exact h.logged.fresh _ hb

theorem call_of_trying {k : ThreadPc T} (h : k.trying = true) : ∃ a, k.call? = some a := by
  unfold ThreadPc.trying at h
  split at h
  · exact ⟨_, rfl⟩
  · cases h

theorem Inv.quiet (h : Inv capacity s st) {q : State ι T} (hm : Matches st q)
    (hp : ∀ u, (q.pc u).place q.shared.core (s.id u) = s.place u)
    (htry : ∀ u, (q.pc u).trying = true → (s.queue.pc u).trying = true ∨
      s.queue.shared.shutdown = false) : Inv capacity ⟨q, s.hist, s.log, s.id⟩ st := by
  refine ⟨?_, h.tracks, hm, h.accepted, ?_, h.inTime⟩
  · convert h.logged using 1
    exact funext hp
  · intro u hu e he hle
    rcases htry u hu with hu | ho
    · exact h.trying u hu e he hle
    · rw [h.tracks.early_of_open (h.matched.closed.trans ho) he] at hle
      cases hle

variable [DecidableEq ι]

/-- A call. -/
theorem Inv.call (h : Inv capacity s st) {q : State ι T} {c : Call T}
    (ht : s.queue.pc t = .idle) (hq : q = { s.queue with pc := Function.update s.queue.pc t c.start })
    (hm : Matches st q) : Inv capacity ⟨q, s.hist ++ [.call s.hist.length c], s.log,
      Function.update s.id t s.hist.length⟩ st := by
  subst hq
  have hout : s.place t = .outside := by
    unfold Trace.place
    rw [ht]
    rfl
  have hfresh : ∀ f ∈ s.log, f.id ≠ s.hist.length := fun f hf =>
    h.logged.fresh_length.2.2 _ (List.mem_map_of_mem hf)
  refine ⟨?_, h.tracks, hm, ?_, ?_, ?_⟩
  · convert h.logged.call hout using 1
    funext u
    unfold Trace.place
    rcases eq_or_ne u t with rfl | hne
    · simp only [Function.update_self]
      cases c <;> rfl
    · simp only [Function.update_of_ne hne]
  · intro e he f hf hle hr hb
    rcases before_call.mp hb with hb | ⟨-, hk⟩
    · exact h.accepted e he f hf hle hr hb
    · exact hfresh f hf hk
  · intro u hu e he hle hb
    rcases eq_or_ne u t with rfl | hne
    · simp only [Function.update_self] at hu
      cases c <;> cases hu
    · simp only [Function.update_of_ne hne] at hu hb
      rcases before_call.mp hb with hb | ⟨-, hk⟩
      · exact h.trying u hu e he hle hb
      · obtain ⟨a, ha⟩ := call_of_trying hu
        have := h.id_lt ha
        omega
  · intro f hf r hr hlt ho
    rcases overdue_call ho with ho | hk
    · exact h.inTime f hf r hr hlt ho
    · exact hfresh f hf hk

/-- A return. -/
theorem Inv.ret (h : Inv capacity s st) {q : State ι T} {r : Ret T}
    (ht : s.queue.pc t = .returned r)
    (hq : q = { s.queue with pc := Function.update s.queue.pc t .idle }) (hm : Matches st q) :
    Inv capacity ⟨q, s.hist ++ [.ret (s.id t) r], s.log, s.id⟩ st := by
  subst hq
  have hdec : s.place t = .decided (s.id t) r := by
    unfold Trace.place
    rw [ht]
    rfl
  refine ⟨?_, h.tracks, hm, ?_, ?_, ?_⟩
  · convert h.logged.ret hdec using 1
    funext u
    unfold Trace.place
    rcases eq_or_ne u t with rfl | hne
    · simp only [Function.update_self]
      rfl
    · simp only [Function.update_of_ne hne]
  · intro e he f hf hle hr hb
    exact h.accepted e he f hf hle hr (before_ret.mp hb)
  · intro u hu e he hle hb
    rcases eq_or_ne u t with rfl | hne
    · simp only [Function.update_self] at hu
      cases hu
    · simp only [Function.update_of_ne hne] at hu
      exact h.trying u hu e he hle (before_ret.mp hb)
  · intro f hf r hr hlt ho
    exact h.inTime f hf r hr hlt (overdue_ret ho)

/-- A step that decides a call. -/
theorem Inv.decide (h : Inv capacity s st) {q : State ι T} {a : Call T} {r : Ret T} {pos : ℕ}
    (hp : s.place t = .pending (s.id t) a) (hd : Decides capacity st ⟨s.id t, a, r, pos⟩ st')
    (hm : Matches st' q)
    (hplace : ∀ u, (q.pc u).place q.shared.core (s.id u) =
      Function.update s.place t (.decided (s.id t) r) u)
    (hothers : ∀ u, u ≠ t → (q.pc u).trying = (s.queue.pc u).trying)
    (hself : (q.pc t).trying = true → (s.queue.pc t).trying = true)
    (hacc : r = .pushed true → (s.queue.pc t).trying = true)
    (htime : ∀ f ∈ s.log, ∀ r, f.takes = some r → st.items.length ≤ r + capacity →
      r + capacity < st'.items.length → ¬ Overdue s.hist f.id) :
    Inv capacity ⟨q, s.hist, s.log ++ [⟨s.id t, a, r, pos⟩], s.id⟩ st' := by
  obtain ⟨-, hret, -⟩ := h.logged.pending t _ a hp
  have hnew : ∀ {j}, ¬ Before s.hist (s.id t) j := fun hb => hret hb.returned
  have hlate : ∀ e : Point T, e.early st'.split = false → e.early st.split = false := by
    intro e he
    by_contra hs
    rw [Point.early_mono hd.split_le (by simpa using hs)] at he
    cases he
  have htry : ∀ u, (q.pc u).trying = true → (s.queue.pc u).trying = true := by
    intro u hu
    rcases eq_or_ne u t with rfl | hne
    · exact hself hu
    · rwa [hothers u hne] at hu
  refine ⟨?_, .snoc h.tracks hd, hm, ?_, ?_, ?_⟩
  · have hl := h.logged.decide (r := r) hp
    rw [← funext hplace] at hl
    rw [List.map_append]
    exact hl
  · intro e he f hf hle hr
    rcases List.mem_append.mp he with he | he
    · rcases List.mem_append.mp hf with hf | hf
      · exact h.accepted e he f hf (hlate e hle) hr
      · rw [List.mem_singleton.mp hf] at hr ⊢
        exact h.trying t (hacc hr) e he (hlate e hle)
    · rw [List.mem_singleton.mp he]
      exact hnew
  · intro u hu e he hle
    rcases List.mem_append.mp he with he | he
    · exact h.trying u (htry u hu) e he (hlate e hle)
    · rw [List.mem_singleton.mp he]
      exact hnew
  · intro f hf p hf' hlt
    rcases List.mem_append.mp hf with hf | hf
    · rcases Nat.lt_or_ge (p + capacity) st.items.length with hlt' | hge
      · exact h.inTime f hf p hf' hlt'
      · exact htime f hf p hf' hge hlt
    · -- a pop takes an item of the last lap
      rw [List.mem_singleton.mp hf] at hf'
      have hroom := h.tracks.ok.room
      cases hd with
      | pop i x hx =>
        cases hf'
        exact absurd hlt (Nat.not_lt_of_le hroom)
      | _ => cases hf'

theorem Inv.decide_other (h : Inv capacity s st) {q : State ι T} {a : Call T} {r : Ret T} {pos : ℕ}
    (hp : s.place t = .pending (s.id t) a) (hd : Decides capacity st ⟨s.id t, a, r, pos⟩ st')
    (hr : r ≠ .pushed true) (hm : Matches st' q)
    (hplace : ∀ u, (q.pc u).place q.shared.core (s.id u) =
      Function.update s.place t (.decided (s.id t) r) u)
    (hothers : ∀ u, u ≠ t → (q.pc u).trying = (s.queue.pc u).trying)
    (hself : (q.pc t).trying = false) :
    Inv capacity ⟨q, s.hist, s.log ++ [⟨s.id t, a, r, pos⟩], s.id⟩ st' := by
  have hitems : st'.items = st.items := by
    cases hd with
    | push i x hlt hnd => exact (hr rfl).elim
    | _ => rfl
  refine h.decide hp hd hm hplace hothers ?_ (fun hr' => (hr hr').elim) ?_
  · intro ht
    exact (Bool.false_ne_true (hself.symm.trans ht)).elim
  · intro f _ p _ hge hlt
    rw [hitems] at hlt
    omega

end

/-! ### Steps and runs -/

section

variable [Fintype ι] [DecidableEq ι] [Inhabited T] {capacity : ℕ} {maxSpinners : ℤ}
  {s s' : Trace ι T} {a : Act ι T} {st : Track T}

theorem not_spurious {q q' : State ι T} {t : ι} {ch : Choice ι T} {x : T} {pos pos' : ℕ}
    (hs : (queueMachine ι capacity maxSpinners).step q (.step t ch) = some q')
    (ht : q.pc t = .push x (.tryPush (.cas pos)))
    (ht' : q'.pc t = .push x (.tryPush (.move pos'))) : ch.spurious = false := by
  by_contra hch
  simp only [queueMachine, threadStep, ht, pushAtStep, pushStep, hch, and_false, if_false,
    Option.bind_some, wakeUp, Option.map_some, Option.some.injEq] at hs
  rw [← hs] at ht'
  simp at ht'

omit [Fintype ι] in
/-- What the others see of a step: nothing. -/
theorem place_of_effect {t : ι} {g' : Shared ι T} {k : ThreadPc T} {w : Wake}
    {pc' : ι → ThreadPc T} (hr : RingInv s.queue.shared.core fun t => (s.queue.pc t).ring)
    (he : Effect t s.queue.shared (s.queue.pc t) g' k) (hw : Woken s.queue.pc w pc') (u : ι) :
    (Function.update pc' t k u).place g'.core (s.id u) =
      Function.update s.place t (k.place g'.core (s.id t)) u := by
  rcases eq_or_ne u t with rfl | hne
  · rw [Function.update_self, Function.update_self]
  · rw [Function.update_of_ne hne, Function.update_of_ne hne, hw.same (f := fun k => k.place _ _) rfl]
    refine place_congr fun pos hpos => ?_
    obtain ⟨l, hl⟩ := he.items_le
    rw [← hl, List.getElem?_append_left (hr.headPos_lt hpos)]

omit [Fintype ι] [DecidableEq ι] in
/-- The claim of `tail_` finds room, since the cell was released, and nobody has seen the end. -/
theorem Inv.decides_push (h : Inv capacity s st)
    (hr : RingInv s.queue.shared.core fun t => (s.queue.pc t).ring)
    (hcap : s.queue.shared.core.ring.capacity = capacity) {t : ι} {x : T} {pos : ℕ}
    (hk : s.queue.pc t = .push x (.tryPush (.cas pos)))
    (htail : s.queue.shared.core.ring.tail = pos) :
    st.drained = false ∧ st.items.length = pos ∧
      Decides capacity st ⟨s.id t, .push x, .pushed true, pos⟩
        { st with items := st.items ++ [x] } := by
  obtain ⟨hitems, hheads, -, hdr⟩ := h.matched
  have hpc := hr.pcOk t
  simp only [hk, ThreadPc.ring, PcOk, hcap] at hpc
  have hlen : st.items.length = pos := by
    rw [hitems, ← htail, hr.tail_eq]
    exact List.length_map ..
  have hroom : st.items.length < st.heads + capacity := by
    rcases hpc with hpc | hpc
    · omega
    · have := Core.released_lt hpc
      omega
  have hnd : st.drained = false := by
    by_contra hd
    have := (hdr (by simpa using hd)).trying t
    rw [hk] at this
    cases this
  have hd := Decides.push (s.id t) x hroom hnd
  rw [hlen] at hd
  exact ⟨hnd, hlen, hd⟩

omit [Fintype ι] [DecidableEq ι] in
theorem Inv.decides_pop (h : Inv capacity s st)
    (hr : RingInv s.queue.shared.core fun t => (s.queue.pc t).ring) {t : ι} {site : Site} {pos : ℕ}
    (hk : s.queue.pc t = .pop (.tryPop site (.cas pos)))
    (hhead : s.queue.shared.core.ring.head = pos) :
    ∃ x, s.queue.shared.core.items[pos]? = some x ∧
      Decides capacity st ⟨s.id t, .pop, .popped (some x), pos⟩
        { st with heads := st.heads + 1 } := by
  have hpc := hr.pcOk t
  simp only [hk, ThreadPc.ring, PcOk] at hpc
  have hpos : st.heads = pos := by
    rw [h.matched.heads, ← hhead, hr.head_eq]
  obtain ⟨x, hx⟩ : ∃ x, s.queue.shared.core.items[pos]? = some x := by
    refine ⟨_, List.getElem?_eq_getElem ?_⟩
    unfold Core.items
    rw [List.length_map]
    exact Core.filled_lt hpc
  refine ⟨x, hx, ?_⟩
  subst hpos
  exact .pop (s.id t) x (h.matched.items ▸ hx)

/-- A thread's step: what it decides is recorded, and the rest stays as it was. -/
theorem Inv.local (h : Inv capacity s st) {t : ι} {ch : Choice ι T} {g' : Shared ι T}
    {k : ThreadPc T} {w : Wake} {pc' : ι → ThreadPc T} (hc : ClaimsInTime capacity s (.step t ch))
    (hq : (queueMachine ι capacity maxSpinners).step s.queue (.step t ch) =
      some ⟨g', Function.update pc' t k⟩)
    (hl : Local maxSpinners t s.queue.shared (s.queue.pc t) g' k w)
    (hw : Woken s.queue.pc w pc')
    (hr : RingInv s.queue.shared.core fun t => (s.queue.pc t).ring)
    (hcap : s.queue.shared.core.ring.capacity = capacity)
    (hdrained : st.drained = true → State.Drained ⟨g', Function.update pc' t k⟩)
    (hnull : k = .returned (.popped none) → State.Drained ⟨g', Function.update pc' t k⟩) :
    ∃ st', Inv capacity ⟨⟨g', Function.update pc' t k⟩, s.hist,
      s.log ++ decision (s.place t) (k.place g'.core (s.id t)) k.pos, s.id⟩ st' := by
  obtain ⟨hitems, hheads, hclosed, -⟩ := h.matched
  have he := hl.effect fun pos item hk => hr.out_eq (t := t) hk
  have hplace := place_of_effect hr he hw
  have hothers : ∀ u, u ≠ t → (Function.update pc' t k u).trying = (s.queue.pc u).trying := by
    intro u hne
    rw [Function.update_of_ne hne, hw.same (f := ThreadPc.trying) rfl]
  have hself : (Function.update pc' t k t).trying = k.trying := by rw [Function.update_self]
  generalize hk : s.queue.pc t = k₀ at he hl
  have hpl : s.place t = k₀.place s.queue.shared.core (s.id t) := by
    rw [← hk]
    rfl
  rw [hpl]
  cases he with
  | quiet hi hh hsd hp =>
    rw [hp, decision_self, List.append_nil]
    refine ⟨st, h.quiet ?_ ?_ fun u hu => ?_⟩
    · exact ⟨hitems.trans hi.symm, hheads.trans hh.symm, hclosed.trans hsd.symm, hdrained⟩
    · intro u
      rw [hplace, hp, ← hpl, Function.update_eq_self]
    · rcases eq_or_ne u t with rfl | hne
      · rw [hk]
        exact hl.trying (hself ▸ hu)
      · exact .inl ((hothers u hne).symm.trans hu)
  | accept x pos htail =>
    obtain ⟨hnd, hlen, hd⟩ := h.decides_push hr hcap hk htail
    have htrying : (s.queue.pc t).trying = true := by
      rw [hk]
      rfl
    refine ⟨_, h.decide hpl hd ?_ hplace hothers (fun _ => htrying) (fun _ => htrying) ?_⟩
    · refine ⟨?_, hheads, hclosed, fun hd => (Bool.false_ne_true (hnd.symm.trans hd)).elim⟩
      simp only [hitems, Core.items, Core.claimTail, List.map_append, List.map_singleton]
    · -- the position used again is that of a pop in time
      intro f hf r hfr hge hlt
      have hsp := not_spurious hq hk (Function.update_self ..)
      have hcl : pos ∈ s.claims (.step t ch) := by
        unfold Trace.claims
        simp only [hk, htail, hsp, and_self, if_true]
        rfl
      have hpos : r + capacity = pos := by
        simp only [List.length_append, List.length_singleton] at hlt
        omega
      exact hc pos hcl f hf (by rw [hfr, ← hpos]; rfl)
  | refuse x p hp hsd =>
    have hpl' : (ThreadPc.push x p).place s.queue.shared.core (s.id t) =
        .pending (s.id t) (.push x) := by
      rcases hp with rfl | rfl <;> rfl
    rw [hpl'] at hpl ⊢
    refine ⟨st, h.decide_other hpl (.refuse (s.id t) x (hclosed.trans hsd)) (by simp) ?_ hplace
      hothers hself⟩
    exact ⟨hitems, hheads, hclosed, hdrained⟩
  | take site pos hhead =>
    obtain ⟨x, hx, hd⟩ := h.decides_pop hr hk hhead
    have hres : (ThreadPc.pop (.tryPop site (.move pos))).place
        (s.queue.shared.core.claimHead t pos) (s.id t) = .decided (s.id t) (.popped (some x)) := by
      rw [← hx]
      rfl
    rw [hres] at hplace ⊢
    refine ⟨_, h.decide_other hpl hd (by simp) ?_ hplace hothers hself⟩
    refine ⟨hitems, ?_, hclosed, hdrained⟩
    simp [hheads, Core.claimHead]
  | nullopt pos =>
    have hend := hnull rfl
    have hempty : st.heads = st.items.length := by
      rw [hheads, hitems]
      exact hend.empty.trans (List.length_map ..).symm
    have hd : Decides capacity st ⟨s.id t, .pop, .popped none, 0⟩ { st with drained := true } :=
      .nullopt (s.id t) (hclosed.trans hend.shutdown) hempty
    refine ⟨_, h.decide_other hpl hd (by simp) ?_ hplace hothers hself⟩
    exact ⟨hitems, hheads, hclosed, fun _ => hend⟩
  | close =>
    refine ⟨_, h.decide_other hpl (.close (s.id t)) (by simp) ?_ hplace hothers hself⟩
    exact ⟨hitems, hheads, rfl, hdrained⟩

theorem Inv.step (h : Inv capacity s st) (hc : ClaimsInTime capacity s a)
    (hs : (traceMachine ι capacity maxSpinners).step s a = some s')
    (hr : RingInv s.queue.shared.core fun t => (s.queue.pc t).ring)
    (hr' : RingInv s'.queue.shared.core fun t => (s'.queue.pc t).ring)
    (hcap : s.queue.shared.core.ring.capacity = capacity)
    (hnull : ∀ t, s'.queue.pc t = .returned (.popped none) → s'.queue.Drained) :
    ∃ st', Inv capacity s' st' := by
  have hq := queue_step hs
  obtain ⟨hitems, hheads, hclosed, hdr⟩ := h.matched
  have hdrained : st.drained = true → s'.queue.Drained := fun hd => ((hdr hd).step hr' hq).1
  obtain ⟨t, c, rfl, ht, rfl⟩ | ⟨t, ch, g', k, w, pc', rfl, hl, hw, rfl⟩ | ⟨t, r, rfl, ht, rfl⟩ :=
    trace_step_cases hs
  · exact ⟨st, h.call ht rfl ⟨hitems, hheads, hclosed, hdrained⟩⟩
  · refine h.local hc hq hl hw hr hcap hdrained fun hk => hnull t ?_
    rw [← hk]
    exact Function.update_self ..
  · exact ⟨st, h.ret ht rfl ⟨hitems, hheads, hclosed, hdrained⟩⟩

theorem inv_of_within {j : ℕ} (hcap : capacity = 2 ^ j) (h2 : 2 ≤ capacity)
    (h : (traceMachine ι capacity maxSpinners).Within (ClaimsInTime capacity) s)
    (hb : s.queue.shared.core.tailClaims.length < 2 ^ 63) : ∃ st, Inv capacity s st := by
  induction h with
  | @init s hi =>
    obtain ⟨⟨r, hr, hq⟩, hs⟩ := hi
    rw [hs, hq]
    refine ⟨.start, Lib.Logged.init, .nil, ⟨rfl, rfl, rfl, ?_⟩, ?_, ?_, ?_⟩
    · exact fun hd => (Bool.false_ne_true hd).elim
    · exact fun e he => absurd he List.not_mem_nil
    · exact fun t ht => (Bool.false_ne_true ht).elim
    · exact fun f hf => absurd hf List.not_mem_nil
  | @step s s' a hw hc hs ih =>
    have hb' := bounded_of_step (queue_step hs) hb
    obtain ⟨st, hi⟩ := ih hb'
    have hr := queue_reachable hw
    have hr' := hr.step trivial (queue_step hs)
    exact hi.step hc hs (ringInv h2 hr hb') (ringInv h2 hr' hb)
      (capacity_of_reachable ⟨j, hcap⟩ (ring_reachable hr))
      fun t ht => drained_of_nullopt h2 hr' hb ht

/-- **`LockFreeTaskQueue` is a drop-in replacement for `TaskQueue`**, in the runs in which no push
claims a cell that was freed by a pop made after the shutdown was known: the calls can be put in an
order in which `TaskQueue` gives every one of them its answer. -/
theorem linearizes_of_claimsInTime {j : ℕ} (hcap : capacity = 2 ^ j) (h2 : 2 ≤ capacity)
    (h : (traceMachine ι capacity maxSpinners).Within (ClaimsInTime capacity) s)
    (hb : s.queue.shared.core.tailClaims.length < 2 ^ 63) :
    ∃ order q, Linearizes TaskQueue.op (TaskQueue.fresh capacity) s.hist order q := by
  obtain ⟨st, hi⟩ := inv_of_within hcap h2 h hb
  refine hi.tracks.linearizes hi.logged.recorded hi.accepted ?_
  intro e he f hf hc r hr hlt hb
  have he' : e.entry ∈ s.log.map Point.entry := List.mem_map_of_mem he
  exact hi.inTime f hf r hr hlt (overdue_of_before hi.logged.recorded he' hc hb)

end

/-! ### A push that is accepted after the shutdown -/

deriving instance DecidableEq for Call, Ret

def unusedTrace : Trace (Fin 2) ℕ :=
  ⟨⟨.fresh ⟨fun i => ⟨i, 0⟩, 1, 0, 0⟩, fun _ => .idle⟩, [], [], fun _ => 0⟩

theorem unusedTrace_init : (traceMachine (Fin 2) 2 1).init unusedTrace := ⟨⟨_, rfl, rfl⟩, rfl⟩

def steps (t : Fin 2) (n : ℕ) : List (Act (Fin 2) ℕ) := List.replicate n (.step t ⟨false, 0, none⟩)

/-- A call of the thread `t` that takes `n` steps, from its first to its return. -/
def wholeCall (t : Fin 2) (c : Call ℕ) (n : ℕ) : List (Act (Fin 2) ℕ) :=
  .call t c :: steps t n ++ [.ret t]

/-- The third push finds the ring full and then the queue open; the pop that makes room for it was
made before the shutdown, so the push can be put in front of the shutdown. -/
def acceptedInTime : List (Act (Fin 2) ℕ) :=
  [wholeCall 0 (.push 1) 9, wholeCall 0 (.push 2) 9, .call 1 (.push 3) :: steps 1 4,
    wholeCall 0 .pop 8, steps 1 1, wholeCall 0 .shutdown 4, steps 1 7, [.ret 1],
    wholeCall 0 .pop 8, wholeCall 1 (.push 4) 3].flatten

theorem linearizes_of_claimsInTime_acceptedInTime :
    ∃ s, (traceMachine (Fin 2) 2 1).exec unusedTrace acceptedInTime = some s ∧
      ∃ order q, Linearizes TaskQueue.op (TaskQueue.fresh 2) s.hist order q := by
  have hrun : ((traceMachine (Fin 2) 2 1).exec unusedTrace acceptedInTime).map
      (fun s => s.queue.shared.core.tailClaims.length) = some 3 := by decide +kernel
  obtain ⟨s, hs, hlen⟩ := Option.map_eq_some_iff.mp hrun
  have hmeets : (traceMachine (Fin 2) 2 1).Meets (ClaimsInTime 2) unusedTrace acceptedInTime := by
    decide +kernel
  have hwithin := Machine.Within.exec (.init unusedTrace_init) hmeets hs
  exact ⟨s, hs, linearizes_of_claimsInTime (j := 1) rfl le_rfl hwithin (by rw [hlen]; decide)⟩

/-- The third push sees the queue open; then comes a whole shutdown, and after it a pop that makes
room for the push. -/
def acceptedLate : List (Act (Fin 2) ℕ) :=
  [wholeCall 0 (.push 1) 9, wholeCall 0 (.push 2) 9, .call 1 (.push 3) :: steps 1 2,
    wholeCall 0 .shutdown 4, wholeCall 0 .pop 8, steps 1 7, [.ret 1]].flatten

/-- What its callers see. -/
def acceptedLateHist : List (Event (Call ℕ) (Ret ℕ)) :=
  [.call 0 (.push 1), .ret 0 (.pushed true), .call 2 (.push 2), .ret 2 (.pushed true),
    .call 4 (.push 3), .call 5 .shutdown, .ret 5 .shutDown, .call 7 .pop,
    .ret 7 (.popped (some 1)), .ret 4 (.pushed true)]

/-- The only pop is too late to make room for the third push. -/
theorem not_linearizes_acceptedLateHist {order : List (Entry (Call ℕ) (Ret ℕ))} {q : TaskQueue ℕ} :
    ¬ Linearizes TaskQueue.op (TaskQueue.fresh 2) acceptedLateHist order q := by
  intro h
  have hresult : ∀ e ∈ order, e.result.took = true → e.id = 7 := by
    intro e he ht
    have hcalled := h.recorded.called e he
    have hids : e.id = 7 ∨ .ret e.id (.pushed true) ∈ acceptedLateHist ∨
        .ret e.id .shutDown ∈ acceptedLateHist := by
      simp only [acceptedLateHist, List.mem_cons, Event.call.injEq, reduceCtorEq, List.not_mem_nil,
        or_false, false_or] at hcalled ⊢
      rcases hcalled with ⟨hid, -⟩ | ⟨hid, -⟩ | ⟨hid, -⟩ | ⟨hid, -⟩ | ⟨hid, -⟩ <;> simp [hid]
    rcases hids with hid | hr | hr
    · exact hid
    · rw [h.recorded.result_eq he hr] at ht
      cases ht
    · rw [h.recorded.result_eq he hr] at ht
      cases ht
  have hbefore : Before acceptedLateHist 5 7 := ⟨.shutDown, .pop, by decide⟩
  have hle := TaskQueue.accepted_le h (k := 5) (p := fun _ => false) (by decide) fun e he ht hb =>
    absurd (hresult e he ht ▸ hbefore) hb
  have hge : [0, 2, 4].length ≤ order.countP fun e => e.result.accepted :=
    TaskQueue.length_le_accepted h.recorded (by decide) (by decide)
  rw [List.countP_false, Function.const_apply] at hle
  simp only [List.length_cons, List.length_nil] at hge
  omega

theorem acceptedLate_not_linearizes :
    ∃ s, (traceMachine (Fin 2) 2 1).Reachable s ∧ s.hist = acceptedLateHist ∧
      ¬ ∃ order q, Linearizes TaskQueue.op (TaskQueue.fresh 2) s.hist order q := by
  have hrun : ((traceMachine (Fin 2) 2 1).exec unusedTrace acceptedLate).map Trace.hist =
      some acceptedLateHist := by decide +kernel
  obtain ⟨s, hs, hhist⟩ := Option.map_eq_some_iff.mp hrun
  refine ⟨s, Machine.Reachable.of_exec unusedTrace_init hs, hhist, ?_⟩
  rw [hhist]
  rintro ⟨order, q, h⟩
  exact not_linearizes_acceptedLateHist h

end OrderRisk.Queue
