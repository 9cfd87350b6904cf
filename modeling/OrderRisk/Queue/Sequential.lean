import OrderRisk.Queue.Ring
import Mathlib.Order.Bounds.Basic

/-!
# The ring in one thread

A sequence of `try_push` and `try_pop` calls with no other thread in between.  The positions are
`size_t`s and may wrap around any number of times.  With two cells or more the results are those of
a plain queue with room for `capacity` items; a single cell has the same `seq` when it is full in
one lap and free in the next, and is filled a second time (`boundedFifo_iff`).
-/

namespace OrderRisk.Queue

open OrderRisk.Lib

variable {T : Type*}

/-! ### Calls -/

inductive RingCall (T : Type*) where
  | tryPush (item : T)
  | tryPop

inductive RingRet (T : Type*) where
  | pushed (ok : Bool)
  | popped (item : Option T)
  deriving DecidableEq

/-- A call with what the environment chooses in it: how many attempts of its weak CAS fail for no
reason before one does not, and what a move leaves behind. -/
structure Invocation (T : Type*) where
  call : RingCall T
  failures : ℕ
  residue : T

/-- `try_push(item)` from `p` on; `none` when it has not returned within the fuel. -/
def runPush (item : T) : ℕ → ℕ → Core Unit T → PushPc → Option (Core Unit T × Bool)
  | 0, _, _, _ => none
  | fuel + 1, failures, c, p =>
    match pushStep () item (decide (0 < failures)) c p with
    | (c', .inl p') =>
      runPush item fuel (match p with | .cas _ => failures - 1 | _ => failures) c' p'
    | (c', .inr ok) => some (c', ok)

def runPop [Inhabited T] (residue : T) :
    ℕ → ℕ → Core Unit T → PopPc T → Option (Core Unit T × Option T)
  | 0, _, _, _ => none
  | fuel + 1, failures, c, p =>
    match popStep () (decide (0 < failures)) residue c p with
    | (c', .inl p') =>
      runPop residue fuel (match p with | .cas _ => failures - 1 | _ => failures) c' p'
    | (c', .inr out) => some (c', out)

section

variable [Inhabited T]

def runCall (fuel : ℕ) (c : Core Unit T) (inv : Invocation T) : Option (Core Unit T × RingRet T) :=
  match inv.call with
  | .tryPush item => (runPush item fuel inv.failures c .load).map fun r => (r.1, .pushed r.2)
  | .tryPop => (runPop inv.residue fuel inv.failures c .load).map fun r => (r.1, .popped r.2)

def runCalls (fuel : ℕ) : Core Unit T → List (Invocation T) → Option (Core Unit T × List (RingRet T))
  | c, [] => some (c, [])
  | c, inv :: invs =>
    (runCall fuel c inv).bind fun r => (runCalls fuel r.1 invs).map fun q => (q.1, r.2 :: q.2)

end

/-! ### A plain queue -/

def plainCall (cap : ℕ) (held : List T) : RingCall T → List T × RingRet T
  | .tryPush item =>
    if held.length = cap then (held, .pushed false) else (held ++ [item], .pushed true)
  | .tryPop =>
    match held with
    | [] => ([], .popped none)
    | x :: xs => (xs, .popped (some x))

def plainCalls (cap : ℕ) : List T → List (RingCall T) → List (RingRet T)
  | _, [] => []
  | held, call :: calls => (plainCall cap held call).2 :: plainCalls cap (plainCall cap held call).1 calls

/-- The ring is a queue with room for `cap` items: every call returns, the results are those of the
plain queue, and a call that returns false changes nothing. -/
structure BoundedFifo [Inhabited T] (r : LockFreeRing T) (cap : ℕ) : Prop where
  results : ∀ invs : List (Invocation T), ∃ c n, ∀ fuel ≥ n,
    runCalls fuel r.unused invs = some (c, plainCalls cap [] (invs.map Invocation.call))
  unchanged : ∀ (invs : List (Invocation T)) (inv : Invocation T) (fuel : ℕ) (c c' : Core Unit T)
    (rets : List (RingRet T)), runCalls fuel r.unused invs = some (c, rets) →
    runCall fuel c inv = some (c', .pushed false) ∨ runCall fuel c inv = some (c', .popped none) →
    c' = c

/-! ### Positions as words -/

theorem diff_word (a b : ℕ) : diff (word a) (word b) = ((a : ℤ) - b).bmod (2 ^ 64) := by
  unfold diff word
  rw [Int.natCast_mod, Int.natCast_mod]
  exact (Int.emod_sub_bmod _ _).trans (Int.sub_emod_bmod _ _)

theorem diff_word_neg {a b : ℕ} (h1 : a < b) (h2 : b ≤ a + 2 ^ 63) : diff (word a) (word b) < 0 := by
  rw [diff_word, Int.bmod_eq_of_le (by omega) (by omega)]
  omega

theorem word_word_add (a b : ℕ) : word (word a + b) = word (a + b) := Nat.mod_add_mod a _ b

namespace LockFreeRing

variable {r : LockFreeRing T}

theorem index_word (hr : ∃ k ≤ 63, r.capacity = 2 ^ k) (p : ℕ) : word p &&& r.mask = p &&& r.mask := by
  obtain ⟨k, hk63, hk⟩ := hr
  rw [index_eq_mod ⟨k, hk⟩, index_eq_mod ⟨k, hk⟩, hk]
  exact Nat.mod_mod_of_dvd p (pow_dvd_pow 2 (by omega))

end LockFreeRing

/-! ### One call -/

theorem diff_self (a : ℕ) : diff a a = 0 := by
  rw [diff, sub_self]
  rfl

def afterPush (c : Core Unit T) (pos : ℕ) (item : T) : Core Unit T :=
  ((c.claimTail () item pos).setData pos item).publish pos item

def afterPop [Inhabited T] (c : Core Unit T) (pos : ℕ) (residue : T) : Core Unit T :=
  (((c.claimHead () pos).take pos residue).setData pos default).release pos (c.ring.cell pos).data

theorem runPush_cas {c : Core Unit T} {item : T} {pos : ℕ} (ht : c.ring.tail = pos)
    (hs : (c.ring.cell pos).seq = pos) (fuel : ℕ) : ∀ failures : ℕ,
    runPush item (fuel + (2 * failures + 4)) failures c (.loadSeq pos) =
      some (afterPush c pos item, true)
  | 0 => by
    simp [runPush, pushStep, hs, ht, diff_self, afterPush]
  | failures + 1 => by
    have ih : runPush item (fuel + (2 * failures + 4)) failures c (.loadSeq pos) =
        some (afterPush c pos item, true) := runPush_cas ht hs fuel failures
    rw [show fuel + (2 * (failures + 1) + 4) = fuel + (2 * failures + 4) + 1 + 1 by omega]
    simpa [runPush, pushStep, hs, ht, diff_self] using ih

theorem runPush_free {c : Core Unit T} (item : T) {pos : ℕ} (ht : c.ring.tail = pos)
    (hs : (c.ring.cell pos).seq = pos) {fuel failures : ℕ} (hf : 2 * failures + 5 ≤ fuel) :
    runPush item fuel failures c .load = some (afterPush c pos item, true) := by
  have h : runPush item (fuel - (2 * failures + 5) + (2 * failures + 4)) failures c (.loadSeq pos) =
      some (afterPush c pos item, true) := runPush_cas ht hs _ failures
  rw [show fuel = fuel - (2 * failures + 5) + (2 * failures + 4) + 1 by omega]
  simpa [runPush, pushStep, ht] using h

theorem runPush_full {c : Core Unit T} (item : T)
    (hd : diff (c.ring.cell c.ring.tail).seq c.ring.tail < 0) {fuel failures : ℕ} (hf : 2 ≤ fuel) :
    runPush item fuel failures c .load = some (c, false) := by
  rw [show fuel = fuel - 2 + 1 + 1 by omega]
  simp [runPush, pushStep, hd, hd.ne]

section

variable [Inhabited T]

theorem runPop_cas {c : Core Unit T} (residue : T) {pos : ℕ} (ht : c.ring.head = pos)
    (hs : (c.ring.cell pos).seq = word (pos + 1)) (fuel : ℕ) : ∀ failures : ℕ,
    runPop residue (fuel + (2 * failures + 5)) failures c (.loadSeq pos) =
      some (afterPop c pos residue, some (c.ring.cell pos).data)
  | 0 => by
    simp only [runPop, popStep, hs, ht, diff_self, if_true, Nat.lt_irrefl, decide_false, and_self]
    rfl
  | failures + 1 => by
    have ih := runPop_cas residue ht hs fuel failures
    rw [show fuel + (2 * (failures + 1) + 5) = fuel + (2 * failures + 5) + 1 + 1 by omega]
    simpa [runPop, popStep, hs, ht, diff_self] using ih

theorem runPop_full {c : Core Unit T} (residue : T) {pos : ℕ} (ht : c.ring.head = pos)
    (hs : (c.ring.cell pos).seq = word (pos + 1)) {fuel failures : ℕ}
    (hf : 2 * failures + 6 ≤ fuel) : runPop residue fuel failures c .load =
      some (afterPop c pos residue, some (c.ring.cell pos).data) := by
  have h := runPop_cas residue ht hs (fuel - (2 * failures + 6)) failures
  rw [show fuel = fuel - (2 * failures + 6) + (2 * failures + 5) + 1 by omega]
  simpa [runPop, popStep, ht] using h

theorem runPop_empty {c : Core Unit T} (residue : T)
    (hd : diff (c.ring.cell c.ring.head).seq (word (c.ring.head + 1)) < 0) {fuel failures : ℕ}
    (hf : 2 ≤ fuel) : runPop residue fuel failures c .load = some (c, none) := by
  rw [show fuel = fuel - 2 + 1 + 1 by omega]
  simp [runPop, popStep, hd, hd.ne]

/-! ### A call that returns false -/

omit [Inhabited T] in
theorem runPush_false {item : T} {fuel failures : ℕ} {c c' : Core Unit T} {p : PushPc}
    (h : runPush item fuel failures c p = some (c', false)) : c' = c := by
  induction fuel generalizing failures p with
  | zero => cases h
  | succ fuel ih =>
    cases p with
    | load => exact ih h
    | loadSeq pos =>
      simp only [runPush, pushStep] at h
      split_ifs at h
      · exact ih h
      · cases h
        rfl
      · exact ih h
    | cas pos =>
      simp only [runPush, pushStep] at h
      split_ifs at h
      · -- once it has claimed a position it returns true
        obtain _ | _ | fuel := fuel <;> cases h
      · exact ih h
    | move pos => obtain _ | fuel := fuel <;> cases h
    | publish pos => cases h

theorem runPop_none {residue : T} {fuel failures : ℕ} {c c' : Core Unit T} {p : PopPc T}
    (h : runPop residue fuel failures c p = some (c', none)) : c' = c := by
  induction fuel generalizing failures p with
  | zero => cases h
  | succ fuel ih =>
    cases p with
    | load => exact ih h
    | loadSeq pos =>
      simp only [runPop, popStep] at h
      split_ifs at h
      · exact ih h
      · cases h
        rfl
      · exact ih h
    | cas pos =>
      simp only [runPop, popStep] at h
      split_ifs at h
      · obtain _ | _ | _ | fuel := fuel <;> cases h
      · exact ih h
    | move pos => obtain _ | _ | fuel := fuel <;> cases h
    | clear pos out => obtain _ | fuel := fuel <;> cases h
    | publish pos out => cases h

theorem runCall_unchanged {fuel : ℕ} {c c' : Core Unit T} {inv : Invocation T}
    (h : runCall fuel c inv = some (c', .pushed false) ∨
      runCall fuel c inv = some (c', .popped none)) : c' = c := by
  obtain ⟨call, failures, residue⟩ := inv
  cases call with
  | tryPush item =>
    simp only [runCall, Option.map_eq_some_iff, Prod.mk.injEq, reduceCtorEq, and_false,
      exists_false, or_false, RingRet.pushed.injEq] at h
    obtain ⟨⟨c₁, ok⟩, hrun, rfl, rfl⟩ := h
    exact runPush_false hrun
  | tryPop =>
    simp only [runCall, Option.map_eq_some_iff, Prod.mk.injEq, reduceCtorEq, and_false,
      exists_false, false_or, RingRet.popped.injEq] at h
    obtain ⟨⟨c₁, out⟩, hrun, rfl, rfl⟩ := h
    exact runPop_none hrun

end

/-! ### The ring holds a queue -/

/-- The ring holds these items, the oldest of them at position `h`, which counts the pops. -/
structure Holds (r : LockFreeRing T) (h : ℕ) (held : List T) : Prop where
  pow : ∃ k, 1 ≤ k ∧ k ≤ 63 ∧ r.capacity = 2 ^ k
  tail_eq : r.tail = word (h + held.length)
  head_eq : r.head = word h
  le : held.length ≤ r.capacity
  full : ∀ (i : ℕ) (x : T), held[i]? = some x → r.cell (h + i) = ⟨word (h + i + 1), x⟩
  free : ∀ i, held.length ≤ i → i < r.capacity → (r.cell (h + i)).seq = word (h + i)

namespace Holds

variable {r : LockFreeRing T} {h : ℕ} {held : List T}

theorem pow' (hr : Holds r h held) : ∃ k, r.capacity = 2 ^ k :=
  let ⟨k, _, _, hk⟩ := hr.pow
  ⟨k, hk⟩

theorem two_le_capacity (hr : Holds r h held) : 2 ≤ r.capacity := by
  obtain ⟨k, hk1, -, hk⟩ := hr.pow
  rw [hk]
  calc 2 = 2 ^ 1 := rfl
    _ ≤ 2 ^ k := Nat.pow_le_pow_right (by omega) hk1

theorem capacity_le (hr : Holds r h held) : r.capacity ≤ 2 ^ 63 := by
  obtain ⟨k, -, hk63, hk⟩ := hr.pow
  rw [hk]
  exact Nat.pow_le_pow_right (by omega) hk63

theorem cell_word (hr : Holds r h held) (p : ℕ) : r.cell (word p) = r.cell p := by
  obtain ⟨k, -, hk63, hk⟩ := hr.pow
  rw [LockFreeRing.cell, LockFreeRing.cell, LockFreeRing.index_word ⟨k, hk63, hk⟩]

theorem cell_setCell (hr : Holds r h held) {i j : ℕ} (hi : i < r.capacity) (hj : j < r.capacity)
    (hne : i ≠ j) (x : Cell T) : (r.setCell (h + j) x).cell (h + i) = r.cell (h + i) := by
  refine LockFreeRing.cell_setCell_of_ne fun he => hne ?_
  have := LockFreeRing.index_inj hr.pow' he (by omega) (by omega)
  omega

theorem init [Inhabited T] {m : ℕ} (h2 : 2 ≤ m) (hr : LockFreeRing.make m = some r) :
    Holds r 0 [] := by
  have hm := LockFreeRing.le_of_make hr
  rw [LockFreeRing.make_eq hm, Option.some.injEq] at hr
  subst hr
  have hcap : ((⟨fun i => ⟨i, default⟩, 2 ^ Nat.clog 2 m - 1, 0, 0⟩ : LockFreeRing T)).capacity =
      2 ^ Nat.clog 2 m := Nat.sub_add_cancel Nat.one_le_two_pow
  have hle := Nat.clog_le_of_le_pow hm
  refine ⟨⟨_, Nat.clog_pos (by omega) h2, hle, hcap⟩, rfl, rfl, Nat.zero_le _, by simp, ?_⟩
  intro i _ hi
  rw [hcap] at hi
  have hi' : i < 2 ^ 64 :=
    lt_of_lt_of_le hi (Nat.pow_le_pow_right (by omega) (by omega))
  simp only [LockFreeRing.cell, Nat.zero_add, Nat.and_two_pow_sub_one_eq_mod, Nat.mod_eq_of_lt hi,
    word_of_lt hi']

theorem setCell_word (hr : Holds r h held) (p : ℕ) (x : Cell T) :
    r.setCell (word p) x = r.setCell p x := by
  obtain ⟨k, -, hk63, hk⟩ := hr.pow
  rw [LockFreeRing.setCell, LockFreeRing.setCell, LockFreeRing.index_word ⟨k, hk63, hk⟩]

theorem afterPush_ring {c : Core Unit T} (hr : Holds c.ring h held) (p : ℕ) (item : T) :
    (afterPush c (word p) item).ring =
      { c.ring.setCell p ⟨word (p + 1), item⟩ with tail := word (p + 1) } := by
  rw [← hr.setCell_word]
  simp [afterPush, Core.claimTail, Core.setData, Core.publish, Core.setSeq, LockFreeRing.setCell,
    LockFreeRing.cell, word_word_add]

theorem afterPop_ring [Inhabited T] {c : Core Unit T} (hr : Holds c.ring h held) (p : ℕ)
    (residue : T) : (afterPop c (word p) residue).ring =
      { c.ring.setCell p ⟨word (p + c.ring.capacity), default⟩ with head := word (p + 1) } := by
  rw [← hr.setCell_word]
  simp [afterPop, Core.claimHead, Core.take, Core.setData, Core.release, Core.setSeq,
    LockFreeRing.setCell, LockFreeRing.cell, LockFreeRing.capacity, word_word_add, Nat.add_assoc]

theorem push (hr : Holds r h held) (hlt : held.length < r.capacity) (item : T) :
    Holds { r.setCell (h + held.length) ⟨word (h + held.length + 1), item⟩ with
      tail := word (h + held.length + 1) } h (held ++ [item]) := by
  have hlen : (held ++ [item]).length = held.length + 1 := by simp
  refine ⟨hr.pow, by rw [hlen]; rfl, hr.head_eq, by rw [hlen]; exact hlt, ?_, ?_⟩
  · intro i x hx
    rcases Nat.lt_trichotomy i held.length with hi | rfl | hi
    · rw [List.getElem?_append_left hi] at hx
      exact (hr.cell_setCell (by omega) hlt hi.ne _).trans (hr.full i x hx)
    · simp at hx
      subst hx
      show (r.setCell (h + held.length) ⟨word (h + held.length + 1), item⟩).cell _ = _
      rw [LockFreeRing.cell_setCell_self]
    · rw [List.getElem?_eq_none (by omega)] at hx
      cases hx
  · intro i hi hic
    rw [hlen] at hi
    exact (congrArg Cell.seq (hr.cell_setCell hic hlt (by omega) _)).trans
      (hr.free i (by omega) hic)

/-- The ring without its oldest item. -/
theorem pop {x : T} (hr : Holds r h (x :: held)) (y : T) :
    Holds { r.setCell h ⟨word (h + r.capacity), y⟩ with head := word (h + 1) } (h + 1) held := by
  have hle := hr.le
  rw [List.length_cons] at hle
  have hcell : ∀ i, i + 1 < r.capacity →
      (r.setCell h ⟨word (h + r.capacity), y⟩).cell (h + 1 + i) = r.cell (h + (i + 1)) := by
    intro i hi
    rw [Nat.add_assoc, Nat.add_comm 1 i]
    exact hr.cell_setCell (j := 0) hi (by omega) (by omega) _
  refine ⟨hr.pow, ?_, rfl, (by omega : held.length ≤ r.capacity), ?_, ?_⟩
  · rw [Nat.add_right_comm]
    exact hr.tail_eq
  · intro i z hz
    have hi := (List.getElem?_eq_some_iff.mp hz).1
    refine (hcell i (by omega)).trans ((hr.full (i + 1) z (by simpa using hz)).trans ?_)
    rw [Nat.add_assoc h 1 i, Nat.add_comm 1 i]
  · intro i hi hic
    change i < r.capacity at hic
    rcases Nat.lt_or_eq_of_le (by omega : i + 1 ≤ r.capacity) with hlt | heq
    · refine (congrArg Cell.seq (hcell i hlt)).trans
        ((hr.free (i + 1) (by simpa using hi) hlt).trans ?_)
      rw [Nat.add_assoc h 1 i, Nat.add_comm 1 i]
    · -- the cell that was emptied is the last one that can be filled
      have hpos : h + 1 + i = h + r.capacity := by omega
      have hc : (r.setCell h ⟨word (h + r.capacity), y⟩).cell (h + r.capacity) =
          (r.setCell h ⟨word (h + r.capacity), y⟩).cell h :=
        LockFreeRing.cell_add_capacity (r := r.setCell h ⟨word (h + r.capacity), y⟩) hr.pow'
      rw [hpos]
      exact congrArg Cell.seq (hc.trans LockFreeRing.cell_setCell_self)

end Holds

/-! ### Sequences of calls -/

section

variable [Inhabited T] {c c' : Core Unit T} {h : ℕ} {held : List T}

/-- The step lemma: a call returns what the plain queue does, and the ring holds what it holds. -/
theorem runCall_plain (hr : Holds c.ring h held) (inv : Invocation T) : ∃ c' h' n,
    Holds c'.ring h' (plainCall c.ring.capacity held inv.call).1 ∧
    c'.ring.capacity = c.ring.capacity ∧
    ∀ fuel ≥ n, runCall fuel c inv = some (c', (plainCall c.ring.capacity held inv.call).2) := by
  obtain ⟨call, failures, residue⟩ := inv
  have hcap := hr.two_le_capacity
  cases call with
  | tryPush item =>
    by_cases hfull : held.length = c.ring.capacity
    · -- the cell of the next position holds the oldest item
      have hd : diff (c.ring.cell c.ring.tail).seq c.ring.tail < 0 := by
        obtain ⟨x, hx⟩ : ∃ x, held[0]? = some x := ⟨_, List.getElem?_eq_getElem (by omega)⟩
        have hc := hr.full 0 x hx
        rw [Nat.add_zero] at hc
        rw [hr.tail_eq, hr.cell_word, hfull, LockFreeRing.cell_add_capacity hr.pow', hc]
        exact diff_word_neg (by omega) (by have := hr.capacity_le; omega)
      refine ⟨c, h, 2, by simpa [plainCall, hfull] using hr, rfl, fun fuel hfuel => ?_⟩
      simp [runCall, plainCall, hfull, runPush_full item hd hfuel]
    · have hlt := lt_of_le_of_ne hr.le hfull
      have hseq : (c.ring.cell (word (h + held.length))).seq = word (h + held.length) := by
        rw [hr.cell_word]
        exact hr.free _ le_rfl hlt
      refine ⟨afterPush c (word (h + held.length)) item, h, 2 * failures + 5, ?_, rfl,
        fun fuel hfuel => ?_⟩
      · rw [hr.afterPush_ring]
        simpa [plainCall, hfull] using hr.push hlt item
      · simp [runCall, plainCall, hfull, runPush_free item hr.tail_eq hseq hfuel]
  | tryPop =>
    cases held with
    | nil =>
      have hd : diff (c.ring.cell c.ring.head).seq (word (c.ring.head + 1)) < 0 := by
        have hc := hr.free 0 le_rfl (by omega)
        rw [Nat.add_zero] at hc
        rw [hr.head_eq, hr.cell_word, word_word_add, hc]
        exact diff_word_neg (by omega) (by omega)
      refine ⟨c, h, 2, hr, rfl, fun fuel hfuel => ?_⟩
      simp [runCall, plainCall, runPop_empty residue hd hfuel]
    | cons x xs =>
      have hc : c.ring.cell (word h) = ⟨word (h + 1), x⟩ := by
        rw [hr.cell_word]
        exact hr.full 0 x rfl
      have hseq : (c.ring.cell (word h)).seq = word (word h + 1) := by rw [hc, word_word_add]
      refine ⟨afterPop c (word h) residue, h + 1, 2 * failures + 6, ?_, rfl, fun fuel hfuel => ?_⟩
      · rw [hr.afterPop_ring]
        exact hr.pop default
      · simp [runCall, plainCall, runPop_full residue hr.head_eq hseq hfuel, hc]

/-- The run lemma. -/
theorem runCalls_plain {cap : ℕ} : ∀ (invs : List (Invocation T)) {c : Core Unit T} {h : ℕ}
    {held : List T}, Holds c.ring h held → c.ring.capacity = cap → ∃ c' n, ∀ fuel ≥ n,
      runCalls fuel c invs = some (c', plainCalls cap held (invs.map Invocation.call))
  | [], c, _, _, _, _ => ⟨c, 0, fun _ _ => rfl⟩
  | inv :: invs, c, h, held, hr, hc => by
    subst hc
    obtain ⟨c₁, h₁, n₁, hr₁, hc₁, hrun₁⟩ := runCall_plain hr inv
    obtain ⟨c₂, n₂, hrun₂⟩ := runCalls_plain invs hr₁ hc₁
    refine ⟨c₂, max n₁ n₂, fun fuel hfuel => ?_⟩
    simp only [runCalls, hrun₁ fuel (le_trans (le_max_left ..) hfuel), Option.bind_some,
      hrun₂ fuel (le_trans (le_max_right ..) hfuel), Option.map_some, List.map_cons, plainCalls]

theorem capacity_of_isLeast {m cap : ℕ}
    (hcap : IsLeast {n | (∃ j, n = 2 ^ j) ∧ max 1 m ≤ n} cap) : cap = 2 ^ Nat.clog 2 m := by
  obtain ⟨⟨⟨j, rfl⟩, hj⟩, hleast⟩ := hcap
  refine le_antisymm (hleast ⟨⟨_, rfl⟩, ?_⟩) ?_
  · exact max_le Nat.one_le_two_pow (Nat.le_pow_clog (by omega) m)
  · exact Nat.pow_le_pow_right (by omega)
      ((Nat.clog_le_iff_le_pow (by omega)).mpr (le_trans (le_max_right 1 m) hj))

def twoPushes : List (Invocation T) := [⟨.tryPush default, 0, default⟩, ⟨.tryPush default, 0, default⟩]

/-- A ring of one cell takes a second item: behind the first one its `seq` is the next position. -/
theorem runCalls_twoPushes {m : ℕ} (hm : m ≤ 1) {r : LockFreeRing T}
    (hr : LockFreeRing.make m = some r) {fuel : ℕ} (hf : 5 ≤ fuel) :
    ∃ c, runCalls fuel r.unused twoPushes = some (c, [.pushed true, .pushed true]) := by
  rw [LockFreeRing.make_eq (by omega), Nat.clog_of_right_le_one hm, pow_zero, Nat.sub_self,
    Option.some.injEq] at hr
  subst hr
  set c : Core Unit T := LockFreeRing.unused ⟨fun i => ⟨i, default⟩, 0, 0, 0⟩ with hc
  have h1 : runPush default fuel 0 c .load = some (afterPush c 0 default, true) :=
    runPush_free default rfl (by simp [hc, LockFreeRing.unused, LockFreeRing.cell]) hf
  have h2 : runPush default fuel 0 (afterPush c 0 default) .load =
      some (afterPush (afterPush c 0 default) 1 default, true) :=
    runPush_free default rfl (by simp [hc, afterPush, Core.publish, Core.setSeq, Core.setData,
      Core.claimTail, LockFreeRing.unused, LockFreeRing.cell, LockFreeRing.setCell, word]) hf
  exact ⟨afterPush (afterPush c 0 default) 1 default, by
    simp only [twoPushes, runCalls, runCall, h1, h2, Option.map_some, Option.bind_some]⟩

/-- **On which rings the calls behave as on a bounded queue.** -/
theorem boundedFifo_iff {m cap : ℕ} (hm : m ≤ 2 ^ 62)
    (hcap : IsLeast {n | (∃ j, n = 2 ^ j) ∧ max 1 m ≤ n} cap) :
    ∃ r : LockFreeRing T, LockFreeRing.make m = some r ∧ (BoundedFifo r cap ↔ 2 ≤ m) := by
  obtain rfl := capacity_of_isLeast hcap
  have hmake : LockFreeRing.make m = some _ := LockFreeRing.make_eq (T := T) (m := m) (by omega)
  refine ⟨_, hmake, fun h => ?_, fun h2 => ⟨fun invs => ?_, fun _ _ _ _ _ _ _ => runCall_unchanged⟩⟩
  · by_contra hlt
    obtain ⟨c, n, hrun⟩ := h.results twoPushes
    obtain ⟨c', hrun'⟩ := runCalls_twoPushes (by omega) hmake (le_max_right n 5)
    rw [hrun _ (le_max_left n 5), Nat.clog_of_right_le_one (by omega)] at hrun'
    simp [twoPushes, plainCalls, plainCall] at hrun'
  · refine runCalls_plain invs (Holds.init h2 hmake) ?_
    exact Nat.sub_add_cancel Nat.one_le_two_pow

end

/-- A request for 256 cells. -/
theorem boundedFifo_iff_256 : ∃ r : LockFreeRing ℕ, LockFreeRing.make 256 = some r ∧
    (BoundedFifo r 256 ↔ 2 ≤ 256) := by
  refine boundedFifo_iff (by norm_num) ⟨⟨⟨8, by norm_num⟩, by norm_num⟩, ?_⟩
  rintro _ ⟨-, hn⟩
  exact le_trans (by norm_num) hn

/-- A request for one cell. -/
theorem oneCell_not_boundedFifo :
    ¬ ∀ (m cap : ℕ) (r : LockFreeRing ℕ), m ≤ 2 ^ 62 →
      IsLeast {n | (∃ j, n = 2 ^ j) ∧ max 1 m ≤ n} cap → LockFreeRing.make m = some r →
        BoundedFifo r cap := by
  intro h
  have hleast : IsLeast {n | (∃ j, n = 2 ^ j) ∧ max 1 1 ≤ n} 1 := by
    refine ⟨⟨⟨0, rfl⟩, le_rfl⟩, ?_⟩
    rintro _ ⟨-, hn⟩
    exact le_trans (by norm_num) hn
  have hmake : LockFreeRing.make 1 = some _ := LockFreeRing.make_eq (T := ℕ) (m := 1) (by norm_num)
  obtain ⟨c, n, hrun⟩ := (h 1 1 _ (by norm_num) hleast hmake).results twoPushes
  obtain ⟨c', hrun'⟩ := runCalls_twoPushes le_rfl hmake (le_max_right n 5)
  rw [hrun _ (le_max_left n 5)] at hrun'
  simp [twoPushes, plainCalls, plainCall] at hrun'

end OrderRisk.Queue
