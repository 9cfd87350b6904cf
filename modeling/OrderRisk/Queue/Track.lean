import OrderRisk.Queue.TaskQueue
import OrderRisk.Lib.Linear

/-!
# Decisions of a queue that may accept an item after its shutdown

`TaskQueue.op` is `TaskQueue` with one caller.  A push of `LockFreeTaskQueue` that has passed its
shutdown check may be accepted after the shutdown; `Tracks` are the lists of decisions that a
queue can make when that is all that may go wrong.  Such a list is turned into an order of
`TaskQueue` by moving to the front what the accepted items need (`Point.early`): all the accepted
pushes, and the pops that were made before the shutdown or that make room for them.
-/

namespace OrderRisk.Queue

open OrderRisk.Lib

variable {T : Type*}

/-- `TaskQueue` called by one thread: nothing where the call would wait. -/
def TaskQueue.op (q : TaskQueue T) : Call T → Option (Ret T × TaskQueue T)
  | .push item => (q.push item).map fun r => (.pushed r.2, r.1)
  | .pop => q.pop.map fun r => (.popped r.2, r.1)
  | .shutdown => some (.shutDown, q.close)

def Ret.closes : Ret T → Bool
  | .pushed ok => !ok
  | .popped _ => false
  | .shutDown => true

def Ret.accepted : Ret T → Bool
  | .pushed ok => ok
  | _ => false

def Ret.took : Ret T → Bool
  | .popped item => item.isSome
  | _ => false

namespace TaskQueue

variable {q q' : TaskQueue T} {a : Call T} {r : Ret T} {order : List (Entry (Call T) (Ret T))}

/-- What a call does to the queue. -/
theorem op_cases (h : q.op a = some (r, q')) :
    (∃ x, a = .push x ∧ r = .pushed true ∧ q.queue.length < q.capacity ∧ q.shutdown = false ∧
      q' = { q with queue := q.queue ++ [x] }) ∨
    (∃ x, a = .push x ∧ r = .pushed false ∧ q.shutdown = true ∧ q' = q) ∨
    (∃ x, a = .pop ∧ r = .popped (some x) ∧ q.queue = x :: q'.queue ∧
      q' = { q with queue := q'.queue }) ∨
    (a = .pop ∧ r = .popped none ∧ q.queue = [] ∧ q.shutdown = true ∧ q' = q) ∨
    (a = .shutdown ∧ r = .shutDown ∧ q' = q.close) := by
  cases a with
  | push x =>
    obtain ⟨⟨q₁, ok⟩, hp, h⟩ := Option.map_eq_some_iff.mp h
    cases h
    rcases push_cases hp with ⟨rfl, h1, h2, h3⟩ | ⟨rfl, h1, h2⟩
    · exact .inl ⟨x, rfl, rfl, h1, h2, h3⟩
    · exact .inr (.inl ⟨x, rfl, rfl, h1, h2⟩)
  | pop =>
    obtain ⟨⟨q₁, item⟩, hp, h⟩ := Option.map_eq_some_iff.mp h
    cases h
    rcases pop_cases hp with ⟨x, rfl, h1, h2⟩ | ⟨rfl, h1, h2, h3⟩
    · exact .inr (.inr (.inl ⟨x, rfl, rfl, h1, h2⟩))
    · exact .inr (.inr (.inr (.inl ⟨rfl, rfl, h1, h2, h3⟩)))
  | shutdown =>
    cases h
    exact .inr (.inr (.inr (.inr ⟨rfl, rfl, rfl⟩)))

theorem legal_balance (h : Legal op q order q') :
    q'.queue.length + order.countP (fun e => e.result.took) =
      q.queue.length + order.countP (fun e => e.result.accepted) := by
  induction h with
  | nil => rfl
  | cons he _ ih =>
    rw [List.countP_cons, List.countP_cons]
    obtain ⟨x, -, hr, -, -, rfl⟩ | ⟨x, -, hr, -, rfl⟩ | ⟨x, -, hr, hq, -⟩ | ⟨-, hr, -, -, rfl⟩ |
      ⟨-, hr, rfl⟩ := op_cases he
    · simp only [hr, Ret.took, Ret.accepted, List.length_append, List.length_singleton, if_true,
        Bool.false_eq_true, if_false] at ih ⊢
      omega
    · simpa [hr, Ret.took, Ret.accepted] using ih
    · simp only [hr, Ret.took, Ret.accepted, hq, List.length_cons, Option.isSome_some, if_true,
        Bool.false_eq_true, if_false] at ih ⊢
      omega
    · simpa [hr, Ret.took, Ret.accepted] using ih
    · simpa [hr, Ret.took, Ret.accepted, close] using ih

theorem legal_bounded (h : Legal op q order q') (hb : q.queue.length ≤ q.capacity) :
    q'.queue.length ≤ q.capacity ∧ q'.capacity = q.capacity := by
  induction h with
  | nil => exact ⟨hb, rfl⟩
  | cons he _ ih =>
    obtain ⟨x, -, -, hlt, -, rfl⟩ | ⟨x, -, -, -, rfl⟩ | ⟨x, -, -, hq, hq'⟩ | ⟨-, -, -, -, rfl⟩ |
      ⟨-, -, rfl⟩ := op_cases he
    · refine ih ?_
      rw [List.length_append, List.length_singleton]
      exact hlt
    · exact ih hb
    · have hcap := congrArg TaskQueue.capacity hq'
      rw [hq, List.length_cons] at hb
      dsimp only at hcap
      rw [hcap] at ih
      exact ih (Nat.le_of_succ_le hb)
    · exact ih hb
    · exact ih hb

theorem legal_closed (h : Legal op q order q') (hs : q.shutdown = true) :
    ∀ e ∈ order, e.result.accepted = false := by
  induction h with
  | nil => exact fun e he => absurd he List.not_mem_nil
  | cons he _ ih =>
    have hcl := op_cases he
    intro f hf
    obtain ⟨x, -, -, -, ho, -⟩ | ⟨x, -, hr, -, rfl⟩ | ⟨x, -, hr, -, hq'⟩ | ⟨-, hr, -, -, rfl⟩ |
      ⟨-, hr, rfl⟩ := hcl
    · exact (Bool.false_ne_true (ho.symm.trans hs)).elim
    all_goals
      rcases List.mem_cons.mp hf with rfl | hf
      · rw [hr]
        rfl
    · exact ih hs f hf
    · refine ih ?_ f hf
      rw [hq']
      exact hs
    · exact ih hs f hf
    · exact ih rfl f hf

/-- **All that a `TaskQueue` accepts fits in with what was taken before its shutdown**: of the pops
that take an item, those that were called after a `shutdown` had returned make no room. -/
theorem accepted_le {capacity k : ℕ} {hist : List (Event (Call T) (Ret T))}
    (h : Linearizes op (fresh capacity) hist order q) (hk : .ret k .shutDown ∈ hist)
    {p : Entry (Call T) (Ret T) → Bool}
    (hp : ∀ e ∈ order, e.result.took = true → ¬ Before hist k e.id → p e = true) :
    order.countP (fun e => e.result.accepted) ≤ capacity + order.countP p := by
  obtain ⟨e, he, rfl, hr⟩ := h.recorded.answered k _ hk
  obtain ⟨l₁, l₂, rfl⟩ := List.append_of_mem he
  obtain ⟨q₁, h1, h2⟩ := h.legal.split
  -- nothing is accepted behind the shutdown
  have hnone : (e :: l₂).countP (fun e => e.result.accepted) = 0 := by
    cases h2 with
    | cons he' h2 =>
      have hq : ∃ q₂, op q₁ e.arg = some (.shutDown, q₂) ∧ q₂.shutdown = true := by
        rw [hr] at he'
        obtain ⟨x, -, hr', -⟩ | ⟨x, -, hr', -⟩ | ⟨x, -, hr', -⟩ | ⟨-, hr', -⟩ | ⟨-, -, hq⟩ :=
          op_cases he'
        · cases hr'
        · cases hr'
        · cases hr'
        · cases hr'
        · exact ⟨_, he', by rw [hq]; rfl⟩
      obtain ⟨q₂, hq₂, hs⟩ := hq
      rw [hr, hq₂] at he'
      cases he'
      rw [List.countP_eq_zero]
      intro f hf
      rcases List.mem_cons.mp hf with rfl | hf
      · rw [hr]
        exact Bool.false_ne_true
      · rw [legal_closed h2 hs f hf]
        exact Bool.false_ne_true
  -- and no pop in front of it was called after it had returned
  have hfront : l₁.countP (fun e => e.result.took) ≤ l₁.countP p := by
    refine List.countP_mono_left fun f hf ht => hp f (List.mem_append_left _ hf) ht ?_
    have hrt := h.recorded.realTime
    rw [List.pairwise_append] at hrt
    exact hrt.2.2 f hf e List.mem_cons_self
  have hbal := legal_balance h1
  have hbnd := (legal_bounded h1 (Nat.zero_le _)).1
  rw [List.countP_append, List.countP_append, hnone]
  simp only [fresh, List.length_nil] at hbal hbnd
  omega

theorem length_le_accepted {hist : List (Event (Call T) (Ret T))} (h : Recorded hist order)
    {ids : List ℕ} (hnd : ids.Nodup) (hids : ∀ i ∈ ids, .ret i (.pushed true) ∈ hist) :
    ids.length ≤ order.countP fun e => e.result.accepted := by
  have hsub : ids ⊆ (order.filter fun e => e.result.accepted).map Entry.id := by
    intro i hi
    obtain ⟨e, he, rfl, hr⟩ := h.answered i _ (hids i hi)
    refine List.mem_map_of_mem (List.mem_filter.mpr ⟨he, ?_⟩)
    rw [hr]
    rfl
  have hle := (List.subperm_of_subset hnd hsub).length_le
  rwa [List.length_map, ← List.countP_eq_length_filter] at hle

end TaskQueue

/-- A decided call.  `pos` is the position of the item that it adds or takes. -/
structure Point (T : Type*) where
  id : ℕ
  arg : Call T
  result : Ret T
  pos : ℕ

def Point.entry (p : Point T) : Entry (Call T) (Ret T) := ⟨p.id, p.arg, p.result⟩

def Point.takes (p : Point T) : Option ℕ :=
  match p.result with
  | .popped (some _) => some p.pos
  | _ => none

/-- What has been decided: all the items accepted, how many were taken, how many of them before the
first shutdown, and has a pop found the queue empty for good? -/
structure Track (T : Type*) where
  items : List T
  heads : ℕ
  closedAt : Option ℕ
  drained : Bool

namespace Track

def start : Track T := ⟨[], 0, none, false⟩

/-- The items taken before the shutdown. -/
def split (st : Track T) : ℕ := st.closedAt.getD st.heads

end Track

/-- **What a decision may be.**  An accepted push finds room, but not always a queue that is open. -/
inductive Decides (capacity : ℕ) (st : Track T) : Point T → Track T → Prop
  | push (i : ℕ) (x : T) (h : st.items.length < st.heads + capacity) (hd : st.drained = false) :
      Decides capacity st ⟨i, .push x, .pushed true, st.items.length⟩
        { st with items := st.items ++ [x] }
  | refuse (i : ℕ) (x : T) (h : st.closedAt.isSome = true) :
      Decides capacity st ⟨i, .push x, .pushed false, 0⟩ st
  | pop (i : ℕ) (x : T) (h : st.items[st.heads]? = some x) :
      Decides capacity st ⟨i, .pop, .popped (some x), st.heads⟩ { st with heads := st.heads + 1 }
  | nullopt (i : ℕ) (h : st.closedAt.isSome = true) (he : st.heads = st.items.length) :
      Decides capacity st ⟨i, .pop, .popped none, 0⟩ { st with drained := true }
  | close (i : ℕ) :
      Decides capacity st ⟨i, .shutdown, .shutDown, 0⟩ { st with closedAt := some st.split }

/-- The decisions of a queue, from its first. -/
inductive Tracks (capacity : ℕ) : List (Point T) → Track T → Prop
  | nil : Tracks capacity [] .start
  | snoc {log : List (Point T)} {st st' : Track T} {p : Point T} (h : Tracks capacity log st)
      (hp : Decides capacity st p st') : Tracks capacity (log ++ [p]) st'

/-- An accepted push, or a pop of one of the first `m` items. -/
def Point.early (m : ℕ) (p : Point T) : Bool :=
  match p.result with
  | .pushed ok => ok
  | .popped (some _) => p.pos < m
  | _ => false

theorem Point.early_mono {m n : ℕ} (hmn : m ≤ n) {p : Point T} (h : p.early m = true) :
    p.early n = true := by
  unfold Point.early at h ⊢
  split at h
  · exact h
  · rw [decide_eq_true_eq] at h ⊢
    exact lt_of_lt_of_le h hmn
  · cases h

theorem Point.takes_of_early {m : ℕ} {p : Point T} (h : p.early m = true) :
    p.result = .pushed true ∨ ∃ r, p.takes = some r ∧ r < m := by
  unfold Point.early at h
  unfold Point.takes
  split at h
  · next ok hr =>
    rw [hr, h]
    exact .inl rfl
  · next x hr =>
    rw [hr]
    exact .inr ⟨p.pos, rfl, by simpa using h⟩
  · cases h

section

variable {capacity m : ℕ} {log : List (Point T)} {st st' : Track T} {p : Point T}

/-! ### What holds of a track -/

/-- The counts fit together. -/
structure Track.Ok (capacity : ℕ) (st : Track T) : Prop where
  head_le : st.heads ≤ st.items.length
  room : st.items.length ≤ st.heads + capacity
  split_le : st.split ≤ st.heads
  drained : st.drained = true → st.closedAt.isSome = true ∧ st.heads = st.items.length

theorem Decides.ok (hp : Decides capacity st p st') (h : st.Ok capacity) : st'.Ok capacity := by
  obtain ⟨h1, h2, h3, h4⟩ := h
  cases hp with
  | push i x hlt hd =>
    refine ⟨?_, ?_, h3, fun hd' => ?_⟩
    · simp only [List.length_append, List.length_singleton]
      omega
    · simp only [List.length_append, List.length_singleton]
      omega
    · exact (Bool.false_ne_true (hd.symm.trans hd')).elim
  | refuse i x hc => exact ⟨h1, h2, h3, h4⟩
  | pop i x hx =>
    have hlt := (List.getElem?_eq_some_iff.mp hx).1
    refine ⟨hlt, ?_, ?_, fun hd => ?_⟩
    · dsimp only
      omega
    · unfold Track.split at h3 ⊢
      cases hc : st.closedAt with
      | none => exact le_rfl
      | some k =>
        rw [hc] at h3
        exact Nat.le_succ_of_le h3
    · have := (h4 hd).2
      omega
  | nullopt i hc he => exact ⟨h1, h2, h3, fun _ => ⟨hc, he⟩⟩
  | close i => exact ⟨h1, h2, h3, fun hd => ⟨rfl, (h4 hd).2⟩⟩

theorem Tracks.ok (h : Tracks capacity log st) : st.Ok capacity := by
  induction h with
  | nil => exact ⟨le_rfl, Nat.zero_le _, le_rfl, fun hd => (Bool.false_ne_true hd).elim⟩
  | snoc _ hp ih => exact hp.ok ih

theorem Decides.items_le (hp : Decides capacity st p st') : st.items <+: st'.items := by
  cases hp with
  | push i x h hd => exact List.prefix_append ..
  | _ => exact List.prefix_rfl

theorem Decides.closed (hp : Decides capacity st p st') (h : st.closedAt.isSome = true) :
    st'.closedAt.isSome = true ∧ st'.split = st.split := by
  obtain ⟨k, hk⟩ := Option.isSome_iff_exists.mp h
  cases hp with
  | close i => exact ⟨rfl, rfl⟩
  | _ =>
    unfold Track.split
    simp [hk]

/-- What a decision says about the track after it. -/
def Point.Known (st : Track T) (p : Point T) : Prop :=
  match p.result with
  | .pushed true => True
  | .popped (some _) => p.pos < st.heads
  | .popped none => st.drained = true
  | _ => st.closedAt.isSome = true

theorem Decides.known (hp : Decides capacity st p st') : p.Known st' := by
  cases hp with
  | push i x h hd => trivial
  | refuse i x h => exact h
  | pop i x h => exact Nat.lt_succ_self _
  | nullopt i h he => rfl
  | close i => rfl

theorem Decides.known_of_mem (hp : Decides capacity st p st') {e : Point T} (he : e.Known st) :
    e.Known st' := by
  have hheads : st.heads ≤ st'.heads := by
    cases hp <;> simp
  have hdrained : st.drained = true → st'.drained = true := by
    cases hp <;> simp
  unfold Point.Known at he ⊢
  generalize e.result = r at he ⊢
  cases r with
  | pushed ok =>
    cases ok with
    | true => trivial
    | false => exact (hp.closed he).1
  | popped item =>
    cases item with
    | none => exact hdrained he
    | some x => exact lt_of_lt_of_le he hheads
  | shutDown => exact (hp.closed he).1

theorem Tracks.known (h : Tracks capacity log st) : ∀ e ∈ log, e.Known st := by
  induction h with
  | nil => exact fun e he => absurd he (List.not_mem_nil)
  | snoc _ hp ih =>
    intro e he
    rcases List.mem_append.mp he with he | he
    · exact hp.known_of_mem (ih e he)
    · rw [List.mem_singleton.mp he]
      exact hp.known

/-- A pop's position, against what was decided before it. -/
theorem Point.Known.cases {e : Point T} (he : e.Known st) (hnd : st.drained = false) :
    e.early st.heads = true ∨ e.result.closes = true ∧ st.closedAt.isSome = true := by
  unfold Point.Known at he
  unfold Point.early
  generalize e.result = r at he ⊢
  cases r with
  | pushed ok =>
    cases ok with
    | true => exact .inl rfl
    | false => exact .inr ⟨rfl, he⟩
  | popped item =>
    cases item with
    | none => exact (Bool.false_ne_true (hnd.symm.trans he)).elim
    | some x => exact .inl (decide_eq_true he)
  | shutDown => exact .inr ⟨rfl, he⟩

/-- **What stands before a pop**: accepted pushes, pops of older items, and what found the queue
shut down, if this pop came after the shutdown. -/
theorem Tracks.before_pop (h : Tracks capacity log st) :
    log.Pairwise fun e f => ∀ r, f.takes = some r → e.early r = true ∨
      e.result.closes = true ∧ st.closedAt.isSome = true ∧ st.split ≤ r := by
  induction h with
  | nil => exact .nil
  | @snoc log st st' p h hp ih =>
    have hok := h.ok
    rw [List.pairwise_append]
    refine ⟨ih.imp fun {e f} hef r hr => ?_, List.pairwise_singleton .., fun e he f hf r hr => ?_⟩
    · rcases hef r hr with he | ⟨h1, h2, h3⟩
      · exact .inl he
      · obtain ⟨h4, h5⟩ := hp.closed h2
        exact .inr ⟨h1, h4, h5 ▸ h3⟩
    · rw [List.mem_singleton.mp hf] at hr
      cases hp with
      | pop i x hx =>
        cases hr
        have hnd : st.drained = false := by
          by_contra hd
          have := (hok.drained (by simpa using hd)).2
          have := (List.getElem?_eq_some_iff.mp hx).1
          omega
        rcases (h.known e he).cases hnd with he | ⟨h1, h2⟩
        · exact .inl he
        · refine .inr ⟨h1, h2, ?_⟩
          obtain ⟨k, hk⟩ := Option.isSome_iff_exists.mp h2
          have := hok.split_le
          unfold Track.split at this ⊢
          rw [hk] at this ⊢
          exact this
      | _ => cases hr

/-! ### The order of `TaskQueue` -/

/-- **What moves to the front.**  While the queue is open it accepts every push, if it is left the
pops of the first `m` items. -/
theorem Tracks.legal_early (h : Tracks capacity log st) (hm : st.items.length ≤ m + capacity) :
    Legal TaskQueue.op (TaskQueue.fresh capacity) ((log.filter (Point.early m)).map Point.entry)
      ⟨st.items.drop (min st.heads m), capacity, false⟩ := by
  induction h with
  | nil => exact .nil _
  | @snoc log st st' p h hp ih =>
    have hok := h.ok
    have ih := ih (le_trans hp.items_le.length_le hm)
    rw [List.filter_append, List.map_append]
    cases hp with
    | push i x hlt hd =>
      refine ih.snoc ?_
      have hroom : (st.items.drop (min st.heads m)).length < capacity := by
        have hle := hok.head_le
        simp only [List.length_append, List.length_singleton] at hm
        rw [List.length_drop]
        omega
      have hdrop : min st.heads m ≤ st.items.length := le_trans (min_le_left ..) hok.head_le
      simp only [Point.entry, TaskQueue.op, TaskQueue.push, hroom, true_or, if_true,
        Bool.false_eq_true, if_false, Option.map_some, List.drop_append_of_le_length hdrop]
    | pop i x hx =>
      by_cases hlt : st.heads < m
      · have he : [(⟨i, .pop, .popped (some x), st.heads⟩ : Point T)].filter (Point.early m) =
            [⟨i, .pop, .popped (some x), st.heads⟩] :=
          List.filter_cons_of_pos (decide_eq_true hlt)
        rw [he]
        refine ih.snoc ?_
        obtain ⟨hx1, hx2⟩ := List.getElem?_eq_some_iff.mp hx
        rw [min_eq_left hlt.le, List.drop_eq_getElem_cons hx1, hx2, min_eq_left hlt]
        rfl
      · have he : [(⟨i, .pop, .popped (some x), st.heads⟩ : Point T)].filter (Point.early m) = [] :=
          List.filter_cons_of_neg (by simpa [Point.early] using hlt)
        rw [he, List.map_nil, List.append_nil, min_eq_right (by omega : m ≤ st.heads + 1)]
        rwa [min_eq_right (by omega : m ≤ st.heads)] at ih
    | refuse i x hc =>
      rw [List.filter_cons_of_neg (by simp [Point.early])]
      simpa using ih
    | nullopt i hc he =>
      rw [List.filter_cons_of_neg (by simp [Point.early])]
      simpa using ih
    | close i =>
      rw [List.filter_cons_of_neg (by simp [Point.early])]
      simpa using ih

/-- **What stays behind.**  With all the items accepted, the rest of the decisions is in order as
it is. -/
theorem Tracks.legal_late (h : Tracks capacity log st) {items : List T} (hi : st.items <+: items)
    (hd : st.drained = true → items = st.items) :
    Legal TaskQueue.op ⟨items.drop m, capacity, false⟩
      ((log.filter fun p => !p.early m).map Point.entry)
      ⟨items.drop (max st.heads m), capacity, st.closedAt.isSome⟩ := by
  induction h with
  | nil =>
    have h0 : max (Track.start : Track T).heads m = m := max_eq_right (Nat.zero_le m)
    rw [h0]
    exact .nil _
  | @snoc log st st' p h hp ih =>
    have ih := ih (hp.items_le.trans hi)
    rw [List.filter_append, List.map_append]
    cases hp with
    | push i x hlt hnd =>
      have he : [(⟨i, .push x, .pushed true, st.items.length⟩ : Point T)].filter
          (fun p => !p.early m) = [] := rfl
      rw [he, List.map_nil, List.append_nil]
      exact ih fun hd' => (Bool.false_ne_true (hnd.symm.trans hd')).elim
    | refuse i x hc =>
      refine (ih hd).snoc ?_
      simp [Point.entry, TaskQueue.op, TaskQueue.push, hc]
    | pop i x hx =>
      have ih := ih hd
      obtain ⟨hx1, hx2⟩ := List.getElem?_eq_some_iff.mp hx
      by_cases hlt : st.heads < m
      · have he : [(⟨i, .pop, .popped (some x), st.heads⟩ : Point T)].filter
            (fun p => !p.early m) = [] :=
          List.filter_cons_of_neg (by simpa [Point.early] using hlt)
        rw [he, List.map_nil, List.append_nil, max_eq_right hlt]
        rwa [max_eq_right hlt.le] at ih
      · have he : [(⟨i, .pop, .popped (some x), st.heads⟩ : Point T)].filter
            (fun p => !p.early m) = [⟨i, .pop, .popped (some x), st.heads⟩] :=
          List.filter_cons_of_pos (by simpa [Point.early] using hlt)
        rw [he]
        refine ih.snoc ?_
        have hlen := lt_of_lt_of_le hx1 hi.length_le
        have hle := Nat.le_of_not_lt hlt
        rw [max_eq_left hle, max_eq_left (Nat.le_succ_of_le hle), List.drop_eq_getElem_cons hlen,
          ← hi.getElem hx1, hx2]
        rfl
    | nullopt i hc he =>
      have hall : items = st.items := hd rfl
      refine (ih fun _ => hall).snoc ?_
      have hnil : items.drop (max st.heads m) = [] := by
        rw [List.drop_eq_nil_iff, hall, ← he]
        exact le_max_left ..
      simp [Point.entry, TaskQueue.op, TaskQueue.pop, hnil, hc]
    | close i => exact (ih hd).snoc rfl

/-- **The decisions in an order of `TaskQueue`.**  What came after the shutdown had not returned when
a push that was still accepted was made, nor had what closed the queue returned when a pop was made
whose cell was used again. -/
theorem Tracks.linearizes (h : Tracks capacity log st) {hist : List (Event (Call T) (Ret T))}
    (hr : Recorded hist (log.map Point.entry))
    (hpush : ∀ e ∈ log, ∀ f ∈ log, e.early st.split = false → f.result = .pushed true →
      ¬ Before hist e.id f.id)
    (hpop : ∀ e ∈ log, ∀ f ∈ log, e.result.closes = true → ∀ r, f.takes = some r →
      r + capacity < st.items.length → ¬ Before hist e.id f.id) :
    ∃ order q, Linearizes TaskQueue.op (TaskQueue.fresh capacity) hist order q := by
  have hok := h.ok
  -- the pops before the shutdown, and those that make room for the accepted pushes
  obtain ⟨m, hm1, hm2, hm3, hm4⟩ : ∃ m, st.split ≤ m ∧ st.items.length ≤ m + capacity ∧
      m ≤ st.heads ∧ ∀ r < m, st.split ≤ r → r + capacity < st.items.length := by
    have := hok.split_le
    have := hok.room
    refine ⟨max st.split (st.items.length - capacity), le_max_left .., ?_, ?_, fun r => ?_⟩ <;>
      omega
  have hearly := h.legal_early hm2
  rw [min_eq_right hm3] at hearly
  have hlegal := hearly.append (h.legal_late (m := m) List.prefix_rfl fun _ => rfl)
  rw [← List.map_append] at hlegal
  refine ⟨_, _, hr.rearrange (Point.early m) ?_, hlegal⟩
  refine h.before_pop.imp_of_mem fun {e f} he hf hef hpe hpf => ?_
  have hsplit : e.early st.split = false := by
    by_contra hs
    rw [Point.early_mono hm1 (by simpa using hs)] at hpe
    cases hpe
  rcases Point.takes_of_early hpf with hpush' | ⟨r, hr, hrm⟩
  · exact hpush e he f hf hsplit hpush'
  · rcases hef r hr with her | ⟨hc, -, hle⟩
    · rw [Point.early_mono hrm.le her] at hpe
      cases hpe
    · exact hpop e he f hf hc r hr (hm4 r hrm hle)

end

end OrderRisk.Queue
