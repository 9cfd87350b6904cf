import OrderRisk.Lib.Leads
import OrderRisk.Queue.TaskQueue
import Mathlib.Data.Multiset.AddSub

/-!
# The mutex queue is a bounded blocking queue

What a thread may still do for the others is its `Role`; `count` is how many threads have a role.
`Balanced` is the counting invariant of the two condition variables: as long as a consumer is
blocked, there are as many consumers about to look and notifications still to be sent as there are
items, and the same of producers and free slots; after a shutdown, a blocked thread has a
`notify_all` coming.
-/

namespace OrderRisk.Queue.TaskQueue

open OrderRisk.Lib

variable {ι T : Type*}

/-! ### Roles -/

/-- A thread's part in the protocol of the condition variables. -/
inductive Role where
  | bystander
  | pushing
  | pushWaiting
  | pushed
  | popping
  | popWaiting
  | popped
  | notifyEmpty
  | notifyFull
  deriving DecidableEq

def Pc.role : Pc T → Role
  | .push _ => .pushing
  | .pushWaiting _ => .pushWaiting
  | .pushed => .pushed
  | .pop => .popping
  | .popWaiting => .popWaiting
  | .popped _ => .popped
  | .notifyEmpty => .notifyEmpty
  | .notifyFull => .notifyFull
  | _ => .bystander

def count [Fintype ι] (r : Role) (pc : ι → Pc T) : ℤ := weight (fun k => decide (k.role = r)) pc

def Cond.waiting : Cond → Role
  | .notEmpty => .popWaiting
  | .notFull => .pushWaiting

def Cond.awake : Cond → Role
  | .notEmpty => .popping
  | .notFull => .pushing

theorem waits_iff {c : Cond} {k : Pc T} : k.waits c = true ↔ k.role = c.waiting := by
  cases c <;> cases k <;> simp [Pc.waits, Pc.role, Cond.waiting]

theorem role_wake {c : Cond} {k : Pc T} (h : k.waits c = true) : k.wake.role = c.awake := by
  cases c <;> cases k <;> simp [Pc.waits, Pc.wake, Pc.role, Cond.awake] at h ⊢

def Pc.hand : Pc T → Multiset T
  | .popped x => {x}
  | .returned r => (Ret.item r : Multiset T)
  | _ => 0

theorem hand_wake (k : Pc T) : k.wake.hand = k.hand := by
  cases k <;> rfl

section

variable [Fintype ι] [DecidableEq ι] {pc pc' : ι → Pc T} {t u : ι} {k : Pc T} {c : Cond} {r : Role}

omit [DecidableEq ι] in
theorem count_nonneg : 0 ≤ count r pc := weight_nonneg _ _

omit [DecidableEq ι] in
theorem count_pos (h : (pc t).role = r) : 0 < count r pc :=
  weight_pos (p := fun k : Pc T => decide (k.role = r)) (t := t) (by simpa using h)

theorem count_update : count r (Function.update pc t k) =
    count r pc - (if (pc t).role = r then 1 else 0) + (if k.role = r then 1 else 0) := by
  unfold count
  rw [weight_update]
  simp

/-- What a notification does to the threads. -/
inductive Notified (pc : ι → Pc T) : Notify → (ι → Pc T) → Prop
  | nothing : Notified pc .nothing pc
  | one (u : ι) (c : Cond) (h : (pc u).waits c = true) :
      Notified pc (.one c) (Function.update pc u (pc u).wake)
  | nobody (c : Cond) (h : count c.waiting pc = 0) : Notified pc (.one c) pc
  | all (c : Cond) : Notified pc (.all c) fun u => if (pc u).waits c then (pc u).wake else pc u

theorem notified_of_notify {wake : Option ι} {n : Notify} (h : notify pc wake n = some pc') :
    Notified pc n pc' := by
  cases n with
  | nothing =>
    cases h
    exact .nothing
  | one c =>
    cases wake with
    | some u =>
      simp only [notify] at h
      split_ifs at h with hu
      cases h
      exact .one u c hu
    | none =>
      simp only [notify] at h
      split_ifs at h with hn
      cases h
      refine .nobody c (weight_eq_zero.mpr fun u => ?_)
      rw [decide_eq_false_iff_not, ← waits_iff, hn u]
      simp
  | all c =>
    cases h
    exact .all c

theorem Notified.apply {n : Notify} (h : Notified pc n pc') (u : ι) :
    pc' u = pc u ∨ (∃ c, (pc u).waits c = true) ∧ pc' u = (pc u).wake := by
  cases h with
  | nothing => exact .inl rfl
  | one v c hv =>
    rcases eq_or_ne u v with rfl | hne
    · exact .inr ⟨⟨c, hv⟩, Function.update_self ..⟩
    · exact .inl (Function.update_of_ne hne ..)
  | nobody c h => exact .inl rfl
  | all c =>
    by_cases hu : (pc u).waits c = true
    · exact .inr ⟨⟨c, hu⟩, if_pos hu⟩
    · exact .inl (if_neg hu)

omit [DecidableEq ι] in
theorem count_all : count c.waiting (fun u => if (pc u).waits c then (pc u).wake else pc u) = 0 ∧
    ∀ r, r ≠ c.waiting → r ≠ c.awake →
      count r (fun u => if (pc u).waits c then (pc u).wake else pc u) = count r pc := by
  constructor
  · refine weight_eq_zero.mpr fun u => ?_
    rw [decide_eq_false_iff_not]
    split
    · next hu =>
      rw [role_wake hu]
      cases c <;> decide
    · next hu => rwa [← waits_iff]
  · intro r hw ha
    refine Finset.sum_congr rfl fun u _ => ?_
    by_cases hu : (pc u).waits c = true
    · simp [hu, role_wake hu, waits_iff.mp hu, hw.symm, ha.symm]
    · simp [hu]

theorem sum_hand_notified {n : Notify} (h : Notified pc n pc') :
    ∑ u, (pc' u).hand = ∑ u, (pc u).hand := by
  refine Finset.sum_congr rfl fun u _ => ?_
  rcases h.apply u with he | ⟨-, he⟩
  · rw [he]
  · rw [he, hand_wake]

end

/-! ### The invariant -/

section

variable [Fintype ι]

/-- The counting invariant: while the queue is open and while it is shut down. -/
structure Balanced (q : TaskQueue T) (pc : ι → Pc T) : Prop where
  consumers : q.shutdown = false → count .popWaiting pc = 0 ∨
    (q.queue.length : ℤ) ≤ count .popping pc + count .pushed pc
  producers : q.shutdown = false → count .pushWaiting pc = 0 ∨
    (q.capacity : ℤ) ≤ q.queue.length + count .pushing pc + count .popped pc
  closedConsumers : q.shutdown = true → count .popWaiting pc = 0 ∨ 0 < count .notifyEmpty pc
  closedProducers : q.shutdown = true → count .pushWaiting pc = 0 ∨
    0 < count .notifyEmpty pc + count .notifyFull pc

/-- **The invariant of the mutex queue.** -/
structure Inv (capacity : ℕ) (s : State ι T) : Prop where
  capacity_eq : s.q.capacity = capacity
  bounded : s.q.queue.length ≤ s.q.capacity
  fifo : s.accepted = s.taken ++ s.q.queue
  delivered : (s.taken : Multiset T) = s.delivered + ∑ t, (s.pc t).hand
  closing : ∀ t, (s.pc t).role = .notifyEmpty ∨ (s.pc t).role = .notifyFull → s.q.shutdown = true
  nullopt : ∀ t, s.pc t = .returned (.popped none) → s.q.shutdown = true ∧ s.q.queue = []
  balanced : Balanced s.q s.pc

variable [DecidableEq ι] {capacity : ℕ} {s s' : State ι T} {a : Act ι T} {q q' : TaskQueue T}
  {pc pc' : ι → Pc T} {t : ι} {k : Pc T} {n : Notify}

omit [DecidableEq ι] in
theorem counts_nonneg (pc : ι → Pc T) : 0 ≤ count .pushing pc ∧ 0 ≤ count .pushWaiting pc ∧
    0 ≤ count .pushed pc ∧ 0 ≤ count .popping pc ∧ 0 ≤ count .popWaiting pc ∧
    0 ≤ count .popped pc ∧ 0 ≤ count .notifyEmpty pc ∧ 0 ≤ count .notifyFull pc :=
  ⟨count_nonneg, count_nonneg, count_nonneg, count_nonneg, count_nonneg, count_nonneg,
    count_nonneg, count_nonneg⟩

omit [DecidableEq ι] in
theorem Balanced.mono (h : Balanced q pc) (h1 : count .popWaiting pc' ≤ count .popWaiting pc)
    (h2 : count .popping pc + count .pushed pc ≤ count .popping pc' + count .pushed pc')
    (h3 : count .pushWaiting pc' ≤ count .pushWaiting pc)
    (h4 : count .pushing pc + count .popped pc ≤ count .pushing pc' + count .popped pc')
    (h5 : count .notifyEmpty pc ≤ count .notifyEmpty pc')
    (h6 : count .notifyFull pc ≤ count .notifyFull pc') : Balanced q pc' := by
  have hnn := counts_nonneg pc'
  constructor
  · intro hs
    have := h.consumers hs
    omega
  · intro hs
    have := h.producers hs
    omega
  · intro hs
    have := h.closedConsumers hs
    omega
  · intro hs
    have := h.closedProducers hs
    omega

theorem Balanced.wake (h : Balanced q pc) {c : Cond} (ht : (pc t).waits c = true) :
    Balanced q (Function.update pc t (pc t).wake) := by
  have hk := role_wake ht
  have hr := waits_iff.mp ht
  apply h.mono
  all_goals
    simp only [count_update, hk, hr]
    cases c <;> simp only [Cond.waiting, Cond.awake, reduceCtorEq, if_true, if_false] <;> omega

theorem Balanced.outside (h : Balanced q pc) (ht : (pc t).role = .bystander)
    (hk : k.role = .bystander ∨ k.role = .pushing ∨ k.role = .popping) :
    Balanced q (Function.update pc t k) := by
  apply h.mono
  all_goals
    rcases hk with hk | hk | hk <;>
      simp only [count_update, hk, ht, reduceCtorEq, if_true, if_false] <;> omega

/-- A step that leaves the queue and the other threads as they are. -/
theorem Balanced.section (h : Balanced q pc) (hb : q.queue.length ≤ q.capacity)
    (hm : Move q (pc t) q' k .nothing) : Balanced q' (Function.update pc t k) := by
  have hnn := counts_nonneg pc
  obtain ⟨h1, h2, h3, h4⟩ := h
  generalize hp : pc t = k₀ at hm
  cases hm with
  | full x hf hs =>
    refine ⟨fun _ => ?_, fun _ => ?_, fun hc => ?_, fun hc => ?_⟩
    · have := h1 hs
      simp only [count_update, hp, Pc.role, reduceCtorEq, if_false]
      omega
    · have : 0 < count .pushing pc := count_pos (by rw [hp]; rfl)
      simp only [count_update, hp, Pc.role, reduceCtorEq, if_true, if_false]
      omega
    · simp [hs] at hc
    · simp [hs] at hc
  | accept x hf hs =>
    refine ⟨fun _ => ?_, fun _ => ?_, fun hc => ?_, fun hc => ?_⟩
    · have := h1 hs
      simp only [count_update, hp, Pc.role, reduceCtorEq, if_true, if_false, List.length_append,
        List.length_singleton]
      push_cast
      omega
    · have := h2 hs
      simp only [count_update, hp, Pc.role, reduceCtorEq, if_true, if_false, List.length_append,
        List.length_singleton]
      push_cast
      omega
    · simp [hs] at hc
    · simp [hs] at hc
  | reject x hs =>
    refine ⟨fun hc => ?_, fun hc => ?_, fun _ => ?_, fun _ => ?_⟩
    · simp [hs] at hc
    · simp [hs] at hc
    · have := h3 hs
      simp only [count_update, hp, Pc.role, reduceCtorEq, if_false]
      omega
    · have := h4 hs
      simp only [count_update, hp, Pc.role, reduceCtorEq, if_false]
      omega
  | empty he hs =>
    refine ⟨fun _ => ?_, fun _ => ?_, fun hc => ?_, fun hc => ?_⟩
    · have : 0 < count .popping pc := count_pos (by rw [hp]; rfl)
      simp only [count_update, hp, Pc.role, reduceCtorEq, if_true, if_false, he, List.length_nil]
      omega
    · have := h2 hs
      simp only [count_update, hp, Pc.role, reduceCtorEq, if_false]
      omega
    · simp [hs] at hc
    · simp [hs] at hc
  | take x xs he =>
    have hlen : q.queue.length = xs.length + 1 := by rw [he, List.length_cons]
    refine ⟨fun hs => ?_, fun hs => ?_, fun hs => ?_, fun hs => ?_⟩
    · have := h1 hs
      simp only [count_update, hp, Pc.role, reduceCtorEq, if_true, if_false]
      omega
    · have := h2 hs
      simp only [count_update, hp, Pc.role, reduceCtorEq, if_true, if_false]
      omega
    · have := h3 hs
      simp only [count_update, hp, Pc.role, reduceCtorEq, if_false]
      omega
    · have := h4 hs
      simp only [count_update, hp, Pc.role, reduceCtorEq, if_false]
      omega
  | drained he hs =>
    refine ⟨fun hc => ?_, fun hc => ?_, fun _ => ?_, fun _ => ?_⟩
    · simp [hs] at hc
    · simp [hs] at hc
    · have := h3 hs
      simp only [count_update, hp, Pc.role, reduceCtorEq, if_false]
      omega
    · have := h4 hs
      simp only [count_update, hp, Pc.role, reduceCtorEq, if_false]
      omega
  | close =>
    -- the notifications are still to come
    refine ⟨nofun, nofun, fun _ => .inr ?_, fun _ => .inr ?_⟩ <;>
      simp only [count_update, hp, Pc.role, reduceCtorEq, if_true, if_false] <;> omega

/-- `notify_one` replaces the notification that was still to be sent by a thread about to look. -/
theorem Balanced.notifyOne (h : Balanced q pc) {c : Cond}
    (ht : (pc t).role = match c with | .notEmpty => .pushed | .notFull => .popped)
    (hk : k.role = .bystander) (hn : Notified pc (.one c) pc') :
    Balanced q (Function.update pc' t k) := by
  have hnn := counts_nonneg pc
  obtain ⟨h1, h2, h3, h4⟩ := h
  cases hn with
  | one u c hu =>
    have hne : t ≠ u := by
      rintro rfl
      rw [waits_iff.mp hu] at ht
      cases c <;> cases ht
    have hw := role_wake hu
    have hr := waits_iff.mp hu
    have htu : Function.update pc u (pc u).wake t = pc t := Function.update_of_ne hne ..
    cases c <;> simp only [Cond.waiting, Cond.awake] at ht hw hr <;>
      refine ⟨fun hs => ?_, fun hs => ?_, fun hs => ?_, fun hs => ?_⟩ <;>
      simp only [count_update, htu, ht, hk, hw, hr, reduceCtorEq, if_true, if_false]
    · have := h1 hs
      have := count_pos hr
      omega
    · have := h2 hs
      omega
    · have := h3 hs
      have := count_pos hr
      omega
    · have := h4 hs
      omega
    · have := h1 hs
      omega
    · have := h2 hs
      have := count_pos hr
      omega
    · have := h3 hs
      omega
    · have := h4 hs
      have := count_pos hr
      omega
  | nobody c h0 =>
    cases c <;> simp only [Cond.waiting] at ht h0 <;>
      refine ⟨fun hs => ?_, fun hs => ?_, fun hs => ?_, fun hs => ?_⟩ <;>
      simp only [count_update, ht, hk, reduceCtorEq, if_true, if_false]
    · omega
    · have := h2 hs
      omega
    · omega
    · have := h4 hs
      omega
    · have := h1 hs
      omega
    · omega
    · have := h3 hs
      omega
    · omega

/-- `notify_all` leaves nobody blocked on the condition variable. -/
theorem Balanced.notifyAll (h : Balanced q pc) {c : Cond}
    (ht : (pc t).role = match c with | .notEmpty => .notifyEmpty | .notFull => .notifyFull)
    (hk : k.role = match c with | .notEmpty => .notifyFull | .notFull => .bystander)
    (hn : Notified pc (.all c) pc') (hs : q.shutdown = true) :
    Balanced q (Function.update pc' t k) := by
  have hnn := counts_nonneg pc
  obtain ⟨-, -, h3, h4⟩ := h
  have h3 := h3 hs
  have h4 := h4 hs
  cases hn
  obtain ⟨h0, hsame⟩ := @count_all _ _ _ pc c
  have htw : (pc t).waits c = false := by
    by_contra hw
    rw [Bool.not_eq_false, waits_iff, ht] at hw
    cases c <;> cases hw
  refine ⟨fun ho => ?_, fun ho => ?_, fun _ => ?_, fun _ => ?_⟩
  · rw [hs] at ho
    cases ho
  · rw [hs] at ho
    cases ho
  all_goals
    cases c <;> simp only [Cond.waiting, Cond.awake] at ht hk h0 hsame <;>
      simp only [count_update, htw, Bool.false_eq_true, if_false, ht, hk, reduceCtorEq, if_true]
  · omega
  · rw [hsame .popWaiting (by decide) (by decide), hsame .notifyEmpty (by decide) (by decide)]
    omega
  · rw [hsame .pushWaiting (by decide) (by decide), hsame .notifyEmpty (by decide) (by decide),
      hsame .notifyFull (by decide) (by decide)]
    have := count_pos ht
    omega
  · omega

theorem Balanced.move (h : Balanced q pc) (hb : q.queue.length ≤ q.capacity)
    (hnot : (pc t).role = .notifyEmpty ∨ (pc t).role = .notifyFull → q.shutdown = true)
    (hm : Move q (pc t) q' k n) (hn : Notified pc n pc') :
    Balanced q' (Function.update pc' t k) := by
  generalize hp : pc t = k₀ at hm
  cases hm with
  | pushed => exact h.notifyOne (by rw [hp]; rfl) rfl hn
  | popped x => exact h.notifyOne (by rw [hp]; rfl) rfl hn
  | notifyEmpty => exact h.notifyAll (by rw [hp]; rfl) rfl hn (hnot (.inl (by rw [hp]; rfl)))
  | notifyFull => exact h.notifyAll (by rw [hp]; rfl) rfl hn (hnot (.inr (by rw [hp]; rfl)))
  | full x hf hs =>
    cases hn
    exact h.section hb (hp ▸ .full x hf hs)
  | accept x hf hs =>
    cases hn
    exact h.section hb (hp ▸ .accept x hf hs)
  | reject x hs =>
    cases hn
    exact h.section hb (hp ▸ .reject x hs)
  | empty he hs =>
    cases hn
    exact h.section hb (hp ▸ .empty he hs)
  | take x xs he =>
    cases hn
    exact h.section hb (hp ▸ .take x xs he)
  | drained he hs =>
    cases hn
    exact h.section hb (hp ▸ .drained he hs)
  | close =>
    cases hn
    exact h.section hb (hp ▸ .close)

/-! ### Every step keeps it -/

omit [DecidableEq ι] in
theorem Inv.init : Inv (ι := ι) (T := T) capacity ⟨fresh capacity, fun _ => .idle, [], [], []⟩ where
  capacity_eq := rfl
  bounded := Nat.zero_le _
  fifo := rfl
  delivered := by simp [Pc.hand]
  closing := by
    intro t ht
    rcases ht with ht | ht <;> cases ht
  nullopt := nofun
  balanced :=
    have h0 : ∀ r, r ≠ .bystander → count r (fun _ : ι => (.idle : Pc T)) = 0 := fun r hr =>
      weight_eq_zero.mpr fun t => decide_eq_false hr.symm
    ⟨fun _ => .inl (h0 _ (by decide)), fun _ => .inl (h0 _ (by decide)), nofun, nofun⟩

theorem sum_hand_update : ∑ u, (Function.update pc t k u).hand + (pc t).hand =
    ∑ u, (pc u).hand + k.hand :=
  sum_update_add Pc.hand pc t k

omit [Fintype ι] [DecidableEq ι] in
theorem Move.hand (hm : Move q (pc t) q' k n) :
    k.hand = (pc t).hand + (removed (pc t) k : Multiset T) := by
  generalize pc t = k₀ at hm
  cases hm <;> simp [Pc.hand, removed, Ret.item]

theorem Inv.move {wake : Option ι} (h : Inv capacity s) (hm : Move s.q (s.pc t) q' k n)
    (hn : notify s.pc wake n = some pc') :
    Inv capacity ⟨q', Function.update pc' t k, s.accepted ++ added (s.pc t) k,
      s.taken ++ removed (s.pc t) k, s.delivered⟩ := by
  have hn := notified_of_notify hn
  constructor
  · rw [hm.capacity_eq, h.capacity_eq]
  · exact hm.bounded h.bounded
  · rw [h.fifo, List.append_assoc, hm.fifo, List.append_assoc]
  · -- the thread's own place is the one it had: a step does not wake the thread that takes it
    have hself : (pc' t).hand = (s.pc t).hand := by
      rcases hn.apply t with he | ⟨-, he⟩
      · rw [he]
      · rw [he, hand_wake]
    have hsum := @sum_hand_update _ _ _ _ pc' t k
    rw [sum_hand_notified hn, hself, hm.hand] at hsum
    have hsum : ∑ u, (Function.update pc' t k u).hand =
        ∑ u, (s.pc u).hand + (removed (s.pc t) k : Multiset T) := by
      rw [← add_assoc, add_right_comm] at hsum
      exact add_right_cancel hsum
    change ((s.taken ++ removed (s.pc t) k : List T) : Multiset T) = _
    rw [hsum, ← Multiset.coe_add, h.delivered, add_assoc]
  · intro u hu
    rcases eq_or_ne u t with rfl | hne
    · simp only [Function.update_self] at hu
      generalize hk : s.pc u = k₀ at hm
      cases hm with
      | close => rfl
      | notifyEmpty => exact h.closing u (.inl (by rw [hk]; rfl))
      | _ => rcases hu with hu | hu <;> cases hu
    · simp only [Function.update_of_ne hne] at hu
      refine (hm.closed (h.closing u ?_)).1
      rcases hn.apply u with he | ⟨⟨c, hw⟩, he⟩
      · rwa [he] at hu
      · rw [he, role_wake hw] at hu
        cases c <;> rcases hu with hu | hu <;> cases hu
  · intro u hu
    rcases eq_or_ne u t with rfl | hne
    · simp only [Function.update_self] at hu
      subst hu
      generalize s.pc u = k₀ at hm
      cases hm with
      | drained he hs => exact ⟨hs, he⟩
    · simp only [Function.update_of_ne hne] at hu
      have hpc : s.pc u = .returned (.popped none) := by
        rcases hn.apply u with he | ⟨⟨c, hw⟩, he⟩
        · rwa [he] at hu
        · have := role_wake hw
          rw [← he, hu] at this
          cases c <;> cases this
      obtain ⟨hs, he⟩ := h.nullopt u hpc
      exact ⟨(hm.closed hs).1, hm.empty_of_closed hs he⟩
  · exact h.balanced.move h.bounded (h.closing t) hm hn

/-- A thread that moves without touching the queue. -/
theorem Inv.outside (h : Inv capacity s) (hb : Balanced s.q (Function.update s.pc t k))
    (hk : k.role ≠ .notifyEmpty ∧ k.role ≠ .notifyFull ∧ k ≠ .returned (.popped none))
    {delivered : List T}
    (hd : (delivered : Multiset T) + k.hand = (s.delivered : Multiset T) + (s.pc t).hand) :
    Inv capacity { s with pc := Function.update s.pc t k, delivered } := by
  constructor
  · exact h.capacity_eq
  · exact h.bounded
  · exact h.fifo
  · have hsum := @sum_hand_update _ _ _ _ s.pc t k
    refine add_right_cancel (b := (s.pc t).hand) ?_
    calc (s.taken : Multiset T) + (s.pc t).hand
        = s.delivered + (s.pc t).hand + ∑ u, (s.pc u).hand := by
          rw [h.delivered, add_right_comm]
      _ = delivered + (∑ u, (s.pc u).hand + k.hand) := by
          rw [← hd, add_assoc, add_comm k.hand]
      _ = delivered + ∑ u, (Function.update s.pc t k u).hand + (s.pc t).hand := by
          rw [← hsum, add_assoc]
  · intro u hu
    rcases eq_or_ne u t with rfl | hne
    · simp only [Function.update_self] at hu
      exact (hu.elim hk.1 hk.2.1).elim
    · simp only [Function.update_of_ne hne] at hu
      exact h.closing u hu
  · intro u hu
    rcases eq_or_ne u t with rfl | hne
    · simp only [Function.update_self] at hu
      exact (hk.2.2 hu).elim
    · simp only [Function.update_of_ne hne] at hu
      exact h.nullopt u hu
  · exact hb

theorem Inv.step (h : Inv capacity s) (hs : (machine ι T capacity).step s a = some s') :
    Inv capacity s' := by
  obtain ⟨t, c, rfl, hp, rfl⟩ | ⟨t, wake, q', k, n, pc', rfl, hm, hn, rfl⟩ | ⟨t, c, rfl, hw, rfl⟩ |
    ⟨t, r, rfl, hp, rfl⟩ := step_cases hs
  · -- a call
    have hb := h.balanced.outside (t := t) (k := .start c) (by rw [hp]; rfl)
      (by cases c <;> simp [Pc.start, Pc.role])
    refine h.outside hb (by cases c <;> simp [Pc.start, Pc.role]) ?_
    rw [hp]
    cases c <;> rfl
  · exact h.move hm hn
  · -- a spurious wake-up
    have hr := role_wake hw
    refine h.outside (h.balanced.wake hw) ⟨?_, ?_, ?_⟩ (by rw [hand_wake])
    · rw [hr]
      cases c <;> decide
    · rw [hr]
      cases c <;> decide
    · intro hk
      rw [hk] at hr
      cases c <;> cases hr
  · -- a return
    have hb := h.balanced.outside (t := t) (k := .idle) (by rw [hp]; rfl) (.inl rfl)
    refine h.outside hb ⟨nofun, nofun, nofun⟩ ?_
    rw [hp, ← Multiset.coe_add]
    exact add_zero _

theorem inv_of_reachable (h : (machine ι T capacity).Reachable s) : Inv capacity s :=
  h.invariant (fun _ hi => hi ▸ .init) fun _ _ _ hi _ hs => hi.step hs

/-! ### What the queue guarantees -/

/-- No call still has a notification to issue. -/
def Quiet (pc : ι → Pc T) : Prop :=
  ∀ t, (pc t).role ≠ .pushed ∧ (pc t).role ≠ .popped ∧ (pc t).role ≠ .notifyEmpty ∧
    (pc t).role ≠ .notifyFull

omit [DecidableEq ι] in
theorem count_eq_zero {r : Role} (h : ∀ t, (pc t).role ≠ r) : count r pc = 0 :=
  weight_eq_zero.mpr fun t => decide_eq_false (h t)

theorem closed_of_step (h : s.q.shutdown = true)
    (hs : (machine ι T capacity).step s a = some s') :
    s'.q.shutdown = true ∧ s'.accepted = s.accepted := by
  obtain ⟨t, c, rfl, hp, rfl⟩ | ⟨t, wake, q', k, n, pc', rfl, hm, hn, rfl⟩ | ⟨t, c, rfl, hw, rfl⟩ |
    ⟨t, r, rfl, hp, rfl⟩ := step_cases hs
  · exact ⟨h, rfl⟩
  · obtain ⟨hc, ha⟩ := hm.closed h
    exact ⟨hc, by simp [ha]⟩
  · exact ⟨h, rfl⟩
  · exact ⟨h, rfl⟩

theorem closed_of_exec {as : List (Act ι T)} (h : s.q.shutdown = true)
    (hs : (machine ι T capacity).exec s as = some s') :
    s'.q.shutdown = true ∧ s'.accepted = s.accepted := by
  refine Machine.exec_invariant
    (P := fun s' => s'.q.shutdown = true ∧ s'.accepted = s.accepted) ?_ ⟨h, rfl⟩ hs
  intro s₁ a s₂ h1 h2
  obtain ⟨hc, ha⟩ := closed_of_step h1.1 h2
  exact ⟨hc, ha.trans h1.2⟩

omit [DecidableEq ι] in
/-- Nobody is left behind once the notifications are out. -/
theorem Inv.quiet (h : Inv capacity s) (hq : Quiet s.pc) :
    ((∃ t, (s.pc t).role = .popWaiting) → (s.q.queue.length : ℤ) ≤ count .popping s.pc) ∧
    ((∃ t, (s.pc t).role = .pushWaiting) →
      (s.q.capacity : ℤ) - s.q.queue.length ≤ count .pushing s.pc) ∧
    (s.q.shutdown = true → ∀ t, (s.pc t).role ≠ .popWaiting ∧ (s.pc t).role ≠ .pushWaiting) := by
  obtain ⟨h1, h2, h3, h4⟩ := h.balanced
  have hpushed := count_eq_zero fun t => (hq t).1
  have hpopped := count_eq_zero fun t => (hq t).2.1
  have hempty := count_eq_zero fun t => (hq t).2.2.1
  have hfull := count_eq_zero fun t => (hq t).2.2.2
  refine ⟨fun ⟨t, ht⟩ => ?_, fun ⟨t, ht⟩ => ?_, fun hs t => ⟨fun ht => ?_, fun ht => ?_⟩⟩
  · have hpos := count_pos ht
    cases hs : s.q.shutdown with
    | false =>
      have := h1 hs
      omega
    | true =>
      have := h3 hs
      omega
  · have hpos := count_pos ht
    cases hs : s.q.shutdown with
    | false =>
      have := h2 hs
      omega
    | true =>
      have := h4 hs
      omega
  · have hpos := count_pos ht
    have := h3 hs
    omega
  · have hpos := count_pos ht
    have := h4 hs
    omega

/-- Where a `push` of `x` is, and that it has been accepted behind `l₀` if it returns true. -/
inductive Pushed (x : T) (l₀ accepted : List T) : Pc T → Prop
  | push : Pushed x l₀ accepted (.push x)
  | waiting : Pushed x l₀ accepted (.pushWaiting x)
  | rejected : Pushed x l₀ accepted (.returned (.pushed false))
  | pushed (l l' : List T) (h : accepted = l₀ ++ l ++ x :: l') : Pushed x l₀ accepted .pushed
  | accepted (l l' : List T) (h : accepted = l₀ ++ l ++ x :: l') :
      Pushed x l₀ accepted (.returned (.pushed true))

section

variable {x : T} {l₀ acc : List T}

theorem Pushed.wake (h : Pushed x l₀ acc k) : Pushed x l₀ acc k.wake := by
  cases h with
  | push => exact .push
  | waiting => exact .push
  | rejected => exact .rejected
  | pushed l l' h => exact .pushed l l' h
  | accepted l l' h => exact .accepted l l' h

theorem Pushed.append (h : Pushed x l₀ acc k) (m : List T) : Pushed x l₀ (acc ++ m) k := by
  cases h with
  | push => exact .push
  | waiting => exact .waiting
  | rejected => exact .rejected
  | pushed l l' h => exact .pushed l (l' ++ m) (by simp [h])
  | accepted l l' h => exact .accepted l (l' ++ m) (by simp [h])

theorem Pushed.move {k' : Pc T} (h : Pushed x l₀ acc k) (hacc : l₀ <+: acc)
    (hm : Move q k q' k' n) : Pushed x l₀ (acc ++ added k k') k' := by
  cases h with
  | push =>
    cases hm with
    | full => exact .waiting
    | accept =>
      obtain ⟨l, rfl⟩ := hacc
      exact .pushed l [] rfl
    | reject => exact .rejected
  | pushed l l' h =>
    cases hm
    exact .accepted l l' (by simp [h, added])
  | _ => cases hm

end

/-- **A `push` that returned true is in the record**, behind what was there when it started. -/
theorem accepted_of_pushed {x : T} (hp : s.pc t = .push x)
    (hl : (machine ι T capacity).Leads (fun _ a => a ≠ .ret t) s s')
    (hr : s'.pc t = .returned (.pushed true)) :
    ∃ l l', s'.accepted = s.accepted ++ l ++ x :: l' := by
  have hkeep := hl.keep
    (P := fun u => s.accepted <+: u.accepted ∧ Pushed x s.accepted u.accepted (u.pc t)) ?_
    ⟨List.prefix_rfl, by rw [hp]; exact .push⟩
  · obtain ⟨-, hk⟩ := hkeep
    rw [hr] at hk
    cases hk with
    | accepted l l' h => exact ⟨l, l', h⟩
  rintro u a u' ⟨hacc, hu⟩ hne hs
  obtain ⟨v, c, rfl, hv, rfl⟩ | ⟨v, wake, q', k, n, pc', rfl, hm, hn, rfl⟩ | ⟨v, c, rfl, hv, rfl⟩ |
    ⟨v, r, rfl, hv, rfl⟩ := step_cases hs
  · have htv : t ≠ v := by
      rintro rfl
      rw [hv] at hu
      cases hu
    simpa only [Function.update_of_ne htv] using ⟨hacc, hu⟩
  · refine ⟨hacc.trans (List.prefix_append _ _), ?_⟩
    rcases eq_or_ne t v with rfl | htv
    · simpa only [Function.update_self] using hu.move hacc hm
    · simp only [Function.update_of_ne htv]
      rcases (notified_of_notify hn).apply t with he | ⟨-, he⟩ <;> rw [he]
      · exact hu.append _
      · exact hu.wake.append _
  · refine ⟨hacc, ?_⟩
    rcases eq_or_ne t v with rfl | htv
    · simpa only [Function.update_self] using hu.wake
    · simpa only [Function.update_of_ne htv] using hu
  · have htv : t ≠ v := by
      rintro rfl
      exact hne rfl
    simpa only [Function.update_of_ne htv] using ⟨hacc, hu⟩

/-- **The mutex queue is a bounded blocking queue.** -/
theorem bounded_blocking (h : (machine ι T capacity).Reachable s) :
    s.q.queue.length ≤ capacity ∧
    s.accepted = s.taken ++ s.q.queue ∧
    (s.taken : Multiset T) = s.delivered + ∑ t, (s.pc t).hand ∧
    (∀ t, s.pc t = .returned (.popped none) → s.q.shutdown = true ∧ s.q.queue = []) ∧
    (s.q.shutdown = true → ∀ as s', (machine ι T capacity).exec s as = some s' →
      s'.q.shutdown = true ∧ s'.accepted = s.accepted) ∧
    (Quiet s.pc →
      ((∃ t, (s.pc t).role = .popWaiting) → (s.q.queue.length : ℤ) ≤ count .popping s.pc) ∧
      ((∃ t, (s.pc t).role = .pushWaiting) →
        (capacity : ℤ) - s.q.queue.length ≤ count .pushing s.pc) ∧
      (s.q.shutdown = true →
        ∀ t, (s.pc t).role ≠ .popWaiting ∧ (s.pc t).role ≠ .pushWaiting)) := by
  have hi := inv_of_reachable h
  have hc := hi.capacity_eq
  refine ⟨hc ▸ hi.bounded, hi.fifo, hi.delivered, hi.nullopt, fun hs as s' => closed_of_exec hs,
    fun hq => ?_⟩
  have := hi.quiet hq
  rwa [hc] at this

end

/-! ### A consumer that is overtaken -/

/-- Thread 0 is blocked in `pop` when thread 1 accepts an item; before the notification thread 2
takes the item, and thread 0, woken, goes back to sleep. -/
def overtaken : List (Act (Fin 3) ℕ) :=
  [.call 0 .pop, .step 0 none, .call 1 (.push 7), .step 1 none, .call 2 .pop, .step 2 none,
    .step 1 (some 0), .step 0 none, .step 2 none, .ret 2]

theorem bounded_blocking_overtaken :
    ∃ s, (machine (Fin 3) ℕ 1).exec ⟨fresh 1, fun _ => .idle, [], [], []⟩ overtaken = some s ∧
      s.q.queue.length ≤ 1 ∧ s.accepted = s.taken ++ s.q.queue ∧
      (s.taken : Multiset ℕ) = s.delivered + ∑ t, (s.pc t).hand ∧
      (Quiet s.pc → (∃ t, (s.pc t).role = .popWaiting) →
        (s.q.queue.length : ℤ) ≤ count .popping s.pc) := by
  obtain ⟨s, hs⟩ : ∃ s, (machine (Fin 3) ℕ 1).exec ⟨fresh 1, fun _ => .idle, [], [], []⟩
      overtaken = some s :=
    Option.isSome_iff_exists.mp (by decide +kernel)
  obtain ⟨h1, h2, h3, -, -, h6⟩ := bounded_blocking (Machine.Reachable.of_exec rfl hs)
  exact ⟨s, hs, h1, h2, h3, fun hq => (h6 hq).1⟩

end OrderRisk.Queue.TaskQueue
