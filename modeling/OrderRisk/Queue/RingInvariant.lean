import OrderRisk.Queue.Ring

/-!
# What holds of the ring in every interleaving

`RingInv` describes every cell relative to the claims: a position is claimed, then filled (its
`try_push` has returned), then released (the `try_pop` of its head claim has returned), and `seqOf`
is the value its cell's `seq` has at each stage.  A position counts while it is in the last lap
before `tail_` (`InLap`); there every position has its own cell, and what leaves the lap has been
released.
-/

namespace OrderRisk.Queue

open OrderRisk.Lib

variable {ι T : Type*}

/-! ### Stages of a position -/

namespace Core

variable (c : Core ι T)

/-- The `try_push` that claimed `p` has returned. -/
def filled (p : ℕ) : Bool := (c.tailClaims[p]?).any (·.returned)

/-- The `try_pop` that claimed `p` has returned. -/
def released (p : ℕ) : Bool := (c.headClaims[p]?).any (·.returned)

/-- The `seq` of position `p`'s cell while `p` is in the last lap. -/
def seqOf (p : ℕ) : ℕ :=
  if c.released p then p + c.ring.capacity else if c.filled p then p + 1 else p

/-- `p` is claimed, and no later lap of its cell is. -/
def InLap (p : ℕ) : Prop :=
  p < c.tailClaims.length ∧ c.tailClaims.length ≤ p + c.ring.capacity

variable {c} {t : ι} {item : T} {p pos : ℕ}

theorem filled_lt (h : c.filled p = true) : p < c.tailClaims.length := by
  by_contra hp
  rw [filled, List.getElem?_eq_none (by omega)] at h
  cases h

theorem released_lt (h : c.released p = true) : p < c.headClaims.length := by
  by_contra hp
  rw [released, List.getElem?_eq_none (by omega)] at h
  cases h

theorem any_append_of_false {α : Type*} {f : α → Bool} {l : List α} {a : α} (h : f a = false) :
    ((l ++ [a])[p]?).any f = (l[p]?).any f := by
  rcases Nat.lt_trichotomy p l.length with hp | rfl | hp
  · rw [List.getElem?_append_left hp]
  · simp [h]
  · rw [List.getElem?_eq_none (by simp; omega), List.getElem?_eq_none (by omega)]

theorem any_modify {α : Type*} {f : α → Bool} {g : α → α} {l : List α} (h : ∀ a, f (g a) = true) :
    ((l.modify pos g)[p]?).any f = true ↔ (l[p]?).any f = true ∨ p = pos ∧ pos < l.length := by
  rw [List.getElem?_modify]
  by_cases hp : pos = p
  · subst hp
    by_cases hl : pos < l.length
    · simp [hl, h]
    · simp [hl]
  · have : p ≠ pos := fun e => hp e.symm
    simp [hp, this]

@[simp] theorem filled_claimTail : (c.claimTail t item pos).filled p = c.filled p :=
  any_append_of_false rfl

@[simp] theorem released_claimTail : (c.claimTail t item pos).released p = c.released p := rfl

@[simp] theorem filled_claimHead : (c.claimHead t pos).filled p = c.filled p := rfl

@[simp] theorem released_claimHead : (c.claimHead t pos).released p = c.released p :=
  any_append_of_false rfl

@[simp] theorem filled_setData : (c.setData pos item).filled p = c.filled p := rfl

@[simp] theorem released_setData : (c.setData pos item).released p = c.released p := rfl

theorem filled_publish : (c.publish pos item).filled p = true ↔
    c.filled p = true ∨ p = pos ∧ pos < c.tailClaims.length :=
  any_modify fun _ => rfl

@[simp] theorem released_publish : (c.publish pos item).released p = c.released p := rfl

@[simp] theorem filled_take : (c.take pos item).filled p = c.filled p := rfl

@[simp] theorem released_take : (c.take pos item).released p = c.released p := by
  unfold released take
  rw [List.getElem?_modify]
  cases c.headClaims[p]? with
  | none => rfl
  | some k => by_cases h : pos = p <;> simp [h]

@[simp] theorem filled_release : (c.release pos item).filled p = c.filled p := rfl

theorem released_release : (c.release pos item).released p = true ↔
    c.released p = true ∨ p = pos ∧ pos < c.headClaims.length :=
  any_modify fun _ => rfl

end Core

/-! ### The invariant -/

/-- What a thread's position says. -/
def PcOk [Inhabited T] (c : Core ι T) (t : ι) : RingPc T → Prop
  | .idle => True
  | .push _ .load => True
  | .push _ (.loadSeq pos) => pos ≤ c.tailClaims.length
  | .push _ (.cas pos) => pos < c.ring.capacity ∨ c.released (pos - c.ring.capacity) = true
  | .push x (.move pos) => c.tailClaims[pos]? = some ⟨t, x, false⟩
  | .push x (.publish pos) =>
    c.tailClaims[pos]? = some ⟨t, x, false⟩ ∧ (c.ring.cell pos).data = x
  | .pop .load => True
  | .pop (.loadSeq pos) => pos ≤ c.headClaims.length
  | .pop (.cas pos) => c.filled pos = true
  | .pop (.move pos) => c.headClaims[pos]? = some ⟨t, none, false⟩
  | .pop (.clear pos v) => c.headClaims[pos]? = some ⟨t, some v, false⟩
  | .pop (.publish pos v) =>
    c.headClaims[pos]? = some ⟨t, some v, false⟩ ∧ (c.ring.cell pos).data = default

/-- **The ring's invariant.** -/
structure RingInv [Inhabited T] (c : Core ι T) (pc : ι → RingPc T) : Prop where
  pow : ∃ k, 1 ≤ k ∧ k ≤ 63 ∧ c.ring.capacity = 2 ^ k
  tail_eq : c.ring.tail = c.tailClaims.length
  head_eq : c.ring.head = c.headClaims.length
  /-- What has left the lap was released. -/
  reuse : ∀ p, p + c.ring.capacity < c.tailClaims.length → c.released p = true
  /-- What is claimed by a consumer was filled. -/
  ready : ∀ p < c.headClaims.length, c.filled p = true
  seq : ∀ p, c.InLap p → (c.ring.cell p).seq = c.seqOf p
  fresh : ∀ p, c.tailClaims.length ≤ p → p < c.ring.capacity → c.ring.cell p = ⟨p, default⟩
  /-- The item is in its cell until it is moved out. -/
  data : ∀ (p : ℕ) (k : TailClaim ι T), c.tailClaims[p]? = some k → k.returned = true →
    (∀ k' : HeadClaim ι T, c.headClaims[p]? = some k' → k'.out = none) → (c.ring.cell p).data = k.item
  /-- What is moved out is the item that was put in. -/
  taken : ∀ (p : ℕ) (k : HeadClaim ι T) v, c.headClaims[p]? = some k → k.out = some v →
    (c.tailClaims[p]?).map TailClaim.item = some v
  gone : ∀ (p : ℕ) (k : HeadClaim ι T), c.headClaims[p]? = some k → k.returned = true → k.out.isSome = true
  /-- A cell that waits for its next lap holds nothing. -/
  vacant : ∀ p, c.InLap p → c.released p = true → (c.ring.cell p).data = default
  pcOk : ∀ t, PcOk c t (pc t)
  tailOwner : ∀ (p : ℕ) t x, c.tailClaims[p]? = some ⟨t, x, false⟩ →
    pc t = .push x (.move p) ∨ pc t = .push x (.publish p)
  headOwner : ∀ (p : ℕ) t o, c.headClaims[p]? = some ⟨t, o, false⟩ →
    pc t = .pop (.move p) ∨ (∃ v, pc t = .pop (.clear p v)) ∨ ∃ v, pc t = .pop (.publish p v)

section

variable [Inhabited T] {c c' : Core ι T} {pc : ι → RingPc T} {t u : ι} {x : T} {p q pos : ℕ}

namespace RingInv

theorem pow' (h : RingInv c pc) : ∃ k, c.ring.capacity = 2 ^ k :=
  let ⟨k, _, _, hk⟩ := h.pow
  ⟨k, hk⟩

theorem two_le_capacity (h : RingInv c pc) : 2 ≤ c.ring.capacity := by
  obtain ⟨k, hk1, -, hk⟩ := h.pow
  rw [hk]
  calc 2 = 2 ^ 1 := rfl
    _ ≤ 2 ^ k := Nat.pow_le_pow_right (by omega) hk1

theorem capacity_le (h : RingInv c pc) : c.ring.capacity ≤ 2 ^ 63 := by
  obtain ⟨k, -, hk63, hk⟩ := h.pow
  rw [hk]
  exact Nat.pow_le_pow_right (by omega) hk63

theorem head_le (h : RingInv c pc) : c.headClaims.length ≤ c.tailClaims.length := by
  by_contra hlt
  have := Core.filled_lt (h.ready c.tailClaims.length (by omega))
  omega

theorem inLap (h : RingInv c pc) (hp : p < c.tailClaims.length) (hr : c.released p = false) :
    c.InLap p := by
  refine ⟨hp, ?_⟩
  by_contra hlt
  rw [h.reuse p (by omega)] at hr
  cases hr

theorem not_released (h : RingInv c pc)
    (ho : ∀ k : HeadClaim ι T, c.headClaims[p]? = some k → k.out = none) :
    c.released p = false := by
  by_contra hr
  rw [Bool.not_eq_false, Core.released, Option.any_eq_true] at hr
  obtain ⟨k, hk, hkr⟩ := hr
  have := h.gone p k hk hkr
  simp [ho k hk] at this

theorem index_ne (h : RingInv c pc) (hp : c.InLap p) (hq : c.InLap q) (hne : p ≠ q) :
    p &&& c.ring.mask ≠ q &&& c.ring.mask := fun he =>
  hne (LockFreeRing.index_inj h.pow' he (by have := hp.1; have := hq.2; omega)
    (by have := hq.1; have := hp.2; omega))

theorem index_ne_fresh (h : RingInv c pc) (hp : c.InLap p) (hq : c.tailClaims.length ≤ q)
    (hq' : q < c.ring.capacity) : q &&& c.ring.mask ≠ p &&& c.ring.mask := fun he => by
  have hp1 := hp.1
  have := LockFreeRing.index_inj h.pow' he (by omega) (by omega)
  omega

theorem tailClaim (h : RingInv c pc) (hp : c.tailClaims[p]? = some ⟨t, x, false⟩) :
    c.InLap p ∧ c.filled p = false ∧ c.released p = false ∧ c.headClaims.length ≤ p := by
  have hf : c.filled p = false := by simp [Core.filled, hp]
  have hle : c.headClaims.length ≤ p := by
    by_contra hlt
    rw [h.ready p (by omega)] at hf
    cases hf
  have hr : c.released p = false := by simp [Core.released, hle]
  exact ⟨h.inLap (List.getElem?_eq_some_iff.mp hp).1 hr, hf, hr, hle⟩

theorem headClaim (h : RingInv c pc) {o : Option T} (hp : c.headClaims[p]? = some ⟨t, o, false⟩) :
    c.InLap p ∧ c.filled p = true ∧ c.released p = false := by
  have hlt := (List.getElem?_eq_some_iff.mp hp).1
  have hr : c.released p = false := by simp [Core.released, hp]
  exact ⟨h.inLap (lt_of_lt_of_le hlt h.head_le) hr, h.ready p hlt, hr⟩

theorem init {r : LockFreeRing T} {m : ℕ} (h2 : 2 ≤ m) (hr : LockFreeRing.make m = some r) :
    RingInv (r.unused : Core ι T) fun _ => .idle := by
  have hm := LockFreeRing.le_of_make hr
  rw [LockFreeRing.make_eq hm, Option.some.injEq] at hr
  subst hr
  unfold LockFreeRing.unused
  have hcap : ((⟨fun i => ⟨i, default⟩, 2 ^ Nat.clog 2 m - 1, 0, 0⟩ : LockFreeRing T)).capacity =
      2 ^ Nat.clog 2 m := Nat.sub_add_cancel (Nat.one_le_two_pow)
  refine ⟨⟨_, Nat.clog_pos (by omega) h2, Nat.clog_le_of_le_pow hm, hcap⟩, rfl, rfl, by simp,
    by simp, ?_, ?_, by simp, by simp, by simp, ?_, fun _ => trivial, by simp, by simp⟩
  · rintro p ⟨hp, -⟩
    simp at hp
  · intro p _ hp
    rw [hcap] at hp
    simp only [LockFreeRing.cell, Nat.and_two_pow_sub_one_eq_mod, Nat.mod_eq_of_lt hp]
  · rintro p ⟨hp, -⟩
    simp at hp

/-! ### What the loads of `seq` say -/

theorem released_filled (h : RingInv c pc) (hr : c.released p = true) : c.filled p = true :=
  h.ready p (Core.released_lt hr)

theorem seqOf_lt (h : RingInv c pc) (hb : c.tailClaims.length < 2 ^ 63) (hp : c.InLap p) :
    c.seqOf p < 2 ^ 64 := by
  have h1 := hp.1
  have h2 := h.capacity_le
  unfold Core.seqOf
  split_ifs <;> omega

theorem seq_tail (h : RingInv c pc) :
    (c.ring.cell c.tailClaims.length).seq = c.tailClaims.length ∧
        c.tailClaims.length < c.ring.capacity ∨
      c.ring.capacity ≤ c.tailClaims.length ∧ c.InLap (c.tailClaims.length - c.ring.capacity) ∧
        (c.ring.cell c.tailClaims.length).seq =
          c.seqOf (c.tailClaims.length - c.ring.capacity) := by
  have h2 := h.two_le_capacity
  by_cases hlt : c.tailClaims.length < c.ring.capacity
  · exact .inl ⟨by rw [h.fresh _ le_rfl hlt], hlt⟩
  · have hlap : c.InLap (c.tailClaims.length - c.ring.capacity) := ⟨by omega, by omega⟩
    have hc := LockFreeRing.cell_add_capacity (p := c.tailClaims.length - c.ring.capacity) h.pow'
    rw [Nat.sub_add_cancel (by omega)] at hc
    exact .inr ⟨by omega, hlap, by rw [hc, h.seq _ hlap]⟩

/-- A producer that finds `seq == pos` finds the lap before released. -/
theorem free_of_diff (h : RingInv c pc) (hb : c.tailClaims.length < 2 ^ 63)
    (hpos : pos ≤ c.tailClaims.length) (hd : diff (c.ring.cell pos).seq pos = 0) :
    pos < c.ring.capacity ∨ c.released (pos - c.ring.capacity) = true := by
  by_cases hlt : pos < c.ring.capacity
  · exact .inl hlt
  refine .inr ?_
  rcases Nat.lt_or_eq_of_le hpos with hpos | rfl
  · exact h.reuse _ (by omega)
  · obtain ⟨-, hc⟩ | ⟨-, hlap, hs⟩ := h.seq_tail
    · exact absurd hc hlt
    · have h2 := h.two_le_capacity
      rw [hs, diff_eq_zero (h.seqOf_lt hb hlap) (by omega)] at hd
      by_contra hr
      rw [Core.seqOf, if_neg hr] at hd
      split at hd <;> omega

theorem filled_of_diff (h : RingInv c pc) (hb : c.tailClaims.length < 2 ^ 63)
    (hpos : pos ≤ c.headClaims.length) (hd : diff (c.ring.cell pos).seq (word (pos + 1)) = 0) :
    c.filled pos = true := by
  by_contra hf
  have hr : c.released pos = false := by
    by_contra hr
    exact hf (h.released_filled (by simpa using hr))
  have hle := h.head_le
  rw [word_of_lt (by omega)] at hd
  rcases Nat.lt_or_eq_of_le (le_trans hpos hle) with hlt | rfl
  · have hlap := h.inLap hlt hr
    rw [h.seq _ hlap, diff_eq_zero (h.seqOf_lt hb hlap) (by omega), Core.seqOf, if_neg (by simp [hr]),
      if_neg hf] at hd
    omega
  · have h2 := h.two_le_capacity
    obtain ⟨hs, -⟩ | ⟨hc, hlap, hs⟩ := h.seq_tail
    · rw [hs, diff_eq_zero (by omega) (by omega)] at hd
      omega
    · rw [hs, diff_eq_zero (h.seqOf_lt hb hlap) (by omega), Core.seqOf] at hd
      split_ifs at hd <;> omega

/-- Every claimed position's cell is used by a position of the lap, that one or a later one. -/
theorem exists_inLap (h : RingInv c pc) (hpos : pos < c.tailClaims.length) :
    ∃ n, c.InLap (pos + c.ring.capacity * n) ∧
      (c.ring.cell pos).seq = c.seqOf (pos + c.ring.capacity * n) := by
  have h2 := h.two_le_capacity
  refine ⟨(c.tailClaims.length - 1 - pos) / c.ring.capacity, ?_, ?_⟩
  · have h3 := Nat.div_mul_le_self (c.tailClaims.length - 1 - pos) c.ring.capacity
    have h4 := Nat.lt_div_mul_add (a := c.tailClaims.length - 1 - pos) (b := c.ring.capacity)
      (by omega)
    rw [Nat.mul_comm] at h3 h4
    exact ⟨by omega, by omega⟩
  · rw [← h.seq]
    · rw [LockFreeRing.cell, LockFreeRing.cell, LockFreeRing.index_eq_mod h.pow',
        LockFreeRing.index_eq_mod h.pow', Nat.add_mul_mod_self_left]
    · have h3 := Nat.div_mul_le_self (c.tailClaims.length - 1 - pos) c.ring.capacity
      have h4 := Nat.lt_div_mul_add (a := c.tailClaims.length - 1 - pos) (b := c.ring.capacity)
        (by omega)
      rw [Nat.mul_comm] at h3 h4
      exact ⟨by omega, by omega⟩

theorem diff_nonneg {a b : ℕ} (hb : b ≤ a) (ha : a < b + 2 ^ 63) : 0 ≤ diff a b := by
  unfold diff
  rw [Int.bmod_eq_of_le (by omega) (by omega)]
  omega

/-- **The emptiness verdict of one load**: a consumer that finds `seq < pos + 1` is at `head_`, and
the position is not filled. -/
theorem empty_of_diff (h : RingInv c pc) (hb : c.tailClaims.length < 2 ^ 63)
    (hpos : pos ≤ c.headClaims.length) (hd : diff (c.ring.cell pos).seq (word (pos + 1)) < 0) :
    pos = c.headClaims.length ∧ c.filled pos = false := by
  have hle := h.head_le
  have hnf : c.filled pos = false := by
    by_contra hf
    have hf : c.filled pos = true := by simpa using hf
    have hlt := Core.filled_lt hf
    obtain ⟨n, hlap, hs⟩ := h.exists_inLap hlt
    have h2 := h.two_le_capacity
    rw [word_of_lt (by omega), hs] at hd
    refine absurd hd (not_lt.mpr (diff_nonneg ?_ ?_))
    · -- a later lap's `seq` is larger
      rcases Nat.eq_zero_or_pos n with rfl | hn
      · simp only [Nat.mul_zero, Nat.add_zero, Core.seqOf, hf, if_true]
        split_ifs <;> omega
      · have : c.ring.capacity * 1 ≤ c.ring.capacity * n := Nat.mul_le_mul_left _ hn
        rw [Core.seqOf]
        split_ifs <;> omega
    · -- and not so large that the difference wraps
      obtain ⟨k, -, hk63, hk⟩ := h.pow
      obtain ⟨d, hd'⟩ : c.ring.capacity ∣ 2 ^ 63 := hk ▸ pow_dvd_pow 2 hk63
      have hlt' : pos + c.ring.capacity * n < 2 ^ 63 := lt_trans hlap.1 hb
      have hnd : n + 1 ≤ d := by
        by_contra hcon
        have : c.ring.capacity * d ≤ c.ring.capacity * n := Nat.mul_le_mul_left _ (by omega)
        omega
      have : c.ring.capacity * (n + 1) ≤ c.ring.capacity * d := Nat.mul_le_mul_left _ hnd
      rw [Nat.mul_succ] at this
      rw [Core.seqOf]
      split_ifs <;> omega
  refine ⟨?_, hnf⟩
  by_contra hne
  rw [h.ready pos (by omega)] at hnf
  cases hnf

end RingInv

/-! ### What a step leaves to the other threads -/

/-- `c'` keeps what a thread `u` that does not move knows. -/
structure Keeps (u : ι) (c c' : Core ι T) : Prop where
  capacity : c'.ring.capacity = c.ring.capacity
  tail : c.tailClaims.length ≤ c'.tailClaims.length
  head : c.headClaims.length ≤ c'.headClaims.length
  filled : ∀ p, c.filled p = true → c'.filled p = true
  released : ∀ p, c.released p = true → c'.released p = true
  tailClaim : ∀ (p : ℕ) x, c.tailClaims[p]? = some ⟨u, x, false⟩ → c'.tailClaims[p]? = some ⟨u, x, false⟩
  headClaim : ∀ (p : ℕ) o, c.headClaims[p]? = some ⟨u, o, false⟩ → c'.headClaims[p]? = some ⟨u, o, false⟩
  dataTail : ∀ (p : ℕ) x, c.tailClaims[p]? = some ⟨u, x, false⟩ →
    (c'.ring.cell p).data = (c.ring.cell p).data
  dataHead : ∀ (p : ℕ) o, c.headClaims[p]? = some ⟨u, o, false⟩ →
    (c'.ring.cell p).data = (c.ring.cell p).data

theorem PcOk.keeps {k : RingPc T} (h : PcOk c u k) (hk : Keeps u c c') : PcOk c' u k := by
  obtain _ | ⟨x, _ | pos | pos | pos | pos⟩ | (_ | pos | pos | pos | ⟨pos, v⟩ | ⟨pos, v⟩) := k
  · trivial
  · trivial
  · exact le_trans h hk.tail
  · rw [PcOk, hk.capacity]
    exact h.imp_right (hk.released _)
  · exact hk.tailClaim _ _ h
  · exact ⟨hk.tailClaim _ _ h.1, (hk.dataTail _ _ h.1).trans h.2⟩
  · trivial
  · exact le_trans h hk.head
  · exact hk.filled _ h
  · exact hk.headClaim _ _ h
  · exact hk.headClaim _ _ h
  · exact ⟨hk.headClaim _ _ h.1, (hk.dataHead _ _ h.1).trans h.2⟩

omit [Inhabited T] in
theorem Keeps.refl (u : ι) (c : Core ι T) : Keeps u c c :=
  ⟨rfl, le_rfl, le_rfl, fun _ => id, fun _ => id, fun _ _ => id, fun _ _ => id, fun _ _ _ => rfl,
    fun _ _ _ => rfl⟩

/-- The thread owns the cell of a claim of `tail_`. -/
def RingPc.ownsTail : RingPc T → Bool
  | .push _ (.move _) => true
  | .push _ (.publish _) => true
  | _ => false

/-- The thread owns the cell of a claim of `head_`. -/
def RingPc.ownsHead : RingPc T → Bool
  | .pop (.move _) => true
  | .pop (.clear _ _) => true
  | .pop (.publish _ _) => true
  | _ => false

/-- The position whose `head_` claim the thread is working on. -/
def RingPc.headPos : RingPc T → Option ℕ
  | .pop (.move pos) => some pos
  | .pop (.clear pos _) => some pos
  | .pop (.publish pos _) => some pos
  | _ => none

end

end OrderRisk.Queue
