import OrderRisk.Queue.RingSteps
import Mathlib.Data.List.Perm.Basic

/-!
# Exactly-once delivery

The `k`-th successful claim of `head_` delivers the item of the `k`-th successful claim of `tail_`.
What the calls have returned is compared with the claims (`Logged`): the values that `try_pop` has
returned are those of the head claims that have returned, each once.
-/

namespace OrderRisk.Queue

open OrderRisk.Lib

variable {ι T : Type*}

def TailClaim.result (k : TailClaim ι T) : Option T := if k.returned then some k.item else none

def HeadClaim.result (k : HeadClaim ι T) : Option T := if k.returned then k.out else none

/-- What was returned is what the claims say, each claim once. -/
structure Logged (c : Core ι T) : Prop where
  pushed : c.pushed.Perm (c.tailClaims.filterMap TailClaim.result)
  popped : c.popped.Perm (c.headClaims.filterMap HeadClaim.result)

theorem filterMap_modify_perm {α β : Type*} {f : α → Option β} {g : α → α} {a : α} {b : β}
    (hn : f a = none) (hs : f (g a) = some b) : ∀ {l : List α} {i : ℕ}, l[i]? = some a →
      ((l.modify i g).filterMap f).Perm (l.filterMap f ++ [b])
  | [], i, h => by simp at h
  | a' :: l, 0, h => by
    obtain rfl : a' = a := by simpa using h
    simp only [List.modify_zero_cons, List.filterMap_cons, hs, hn]
    exact (List.perm_append_singleton b _).symm
  | a' :: l, i + 1, h => by
    have ih := filterMap_modify_perm hn hs (l := l) (i := i) (by simpa using h)
    simp only [List.modify_succ_cons, List.filterMap_cons]
    cases f a' with
    | none => exact ih
    | some b' => exact ih.cons b'

theorem filterMap_modify_of_eq {α β : Type*} {f : α → Option β} {g : α → α} :
    ∀ {l : List α} {i : ℕ}, (∀ a, l[i]? = some a → f (g a) = f a) →
      (l.modify i g).filterMap f = l.filterMap f
  | [], i, h => by simp
  | a :: l, 0, h => by
    simp only [List.modify_zero_cons, List.filterMap_cons, h a rfl]
  | a :: l, i + 1, h => by
    have ih := filterMap_modify_of_eq (l := l) (i := i) fun a ha => h a (by simpa using ha)
    simp only [List.modify_succ_cons, List.filterMap_cons, ih]

theorem filterMap_sublist {α β γ : Type*} {f : α → Option γ} {g : β → Option γ} :
    ∀ {l : List α} {m : List β}, (∀ (p : ℕ) a v, l[p]? = some a → f a = some v →
      ∃ b, m[p]? = some b ∧ g b = some v) → (l.filterMap f).Sublist (m.filterMap g)
  | [], m, _ => List.nil_sublist _
  | a :: l, m, h => by
    have ih : ∀ b m', m = b :: m' → (l.filterMap f).Sublist (m'.filterMap g) := by
      rintro b m' rfl
      exact filterMap_sublist fun p a v ha hv => h (p + 1) a v (by simpa using ha) hv
    cases hf : f a with
    | none =>
      rw [List.filterMap_cons_none hf]
      cases m with
      | nil =>
        -- nothing of `l` has a value
        refine filterMap_sublist fun p a v ha hv => ?_
        obtain ⟨b, hb, -⟩ := h (p + 1) a v (by simpa using ha) hv
        cases hb
      | cons b m =>
        rw [List.filterMap_cons]
        cases g b with
        | none => exact ih b m rfl
        | some w => exact (ih b m rfl).cons w
    | some v =>
      obtain ⟨b, hb, hg⟩ := h 0 a v rfl hf
      cases m with
      | nil => cases hb
      | cons b' m =>
        obtain rfl : b' = b := by simpa using hb
        rw [List.filterMap_cons_some hf, List.filterMap_cons_some hg]
        exact (ih b' m rfl).cons_cons v

section

variable [Inhabited T] {c c' : Core ι T} {pc : ι → RingPc T} {t : ι}

theorem Logged.step (hl : Logged c) (h : RingInv c pc) {spurious : Bool} {residue : T}
    {k : RingPc T} (hs : ringStep t spurious residue c (pc t) = some (c', k)) : Logged c' := by
  have hpc := h.pcOk t
  obtain hp | ⟨x, _ | pos | pos | pos | pos, hp⟩ | ⟨_ | pos | pos | pos | ⟨pos, v⟩ | ⟨pos, v⟩, hp⟩ :
      pc t = .idle ∨ (∃ x p, pc t = .push x p) ∨ ∃ p, pc t = .pop p := by
    cases pc t <;> simp
  all_goals
    rw [hp] at hs hpc
    simp only [ringStep, pushStep, popStep, Option.some.injEq, Prod.mk.injEq, reduceCtorEq] at hs
    try obtain ⟨rfl, rfl⟩ := hs
  · exact hl
  · exact hl
  · split_ifs
    · exact ⟨by simpa [Core.claimTail, TailClaim.result] using hl.pushed, hl.popped⟩
    · exact hl
  · exact ⟨hl.pushed, hl.popped⟩
  · -- `try_push` returns
    refine ⟨?_, hl.popped⟩
    exact (hl.pushed.append_right [x]).trans
      (filterMap_modify_perm (b := x) (f := TailClaim.result) rfl rfl hpc.1).symm
  · exact hl
  · exact hl
  · split_ifs
    · exact ⟨hl.pushed, by simpa [Core.claimHead, HeadClaim.result] using hl.popped⟩
    · exact hl
  · -- a claim that has not returned says nothing yet
    refine ⟨hl.pushed, ?_⟩
    have : ∀ k : HeadClaim ι T, c.headClaims[pos]? = some k → HeadClaim.result
        { k with out := some (c.ring.cell pos).data } = HeadClaim.result k := by
      intro k hk
      rw [show c.headClaims[pos]? = some ⟨t, none, false⟩ from hpc] at hk
      cases hk
      rfl
    show c.popped.Perm ((c.headClaims.modify pos _).filterMap HeadClaim.result)
    rw [filterMap_modify_of_eq this]
    exact hl.popped
  · exact ⟨hl.pushed, hl.popped⟩
  · -- `try_pop` returns
    refine ⟨hl.pushed, ?_⟩
    exact (hl.popped.append_right [v]).trans
      (filterMap_modify_perm (b := v) (f := HeadClaim.result) rfl rfl hpc.1).symm

omit [Inhabited T] in
/-- `try_push` is recorded in the step that returns true, with its item, and in no other. -/
theorem pushStep_pushed {x : T} {spurious : Bool} {p : PushPc} {r : PushPc ⊕ Bool}
    (h : pushStep t x spurious c p = (c', r)) :
    c'.pushed = c.pushed ++ (if r = .inr true then [x] else []) ∧ c'.popped = c.popped := by
  cases p with
  | publish pos =>
    cases h
    exact ⟨rfl, rfl⟩
  | loadSeq pos =>
    cases h
    split_ifs <;> simp_all
  | cas pos =>
    simp only [pushStep] at h
    split_ifs at h <;> cases h <;> simp [Core.claimTail]
  | _ =>
    cases h
    simp [Core.setData]

/-- `try_pop` is recorded in the step that returns true, with what it has popped, and in no other. -/
theorem popStep_popped {spurious : Bool} {residue : T} {p : PopPc T} {r : PopPc T ⊕ Option T}
    (h : popStep t spurious residue c p = (c', r)) :
    c'.popped = c.popped ++ r.elim (fun _ => []) Option.toList ∧ c'.pushed = c.pushed := by
  cases p with
  | publish pos out =>
    cases h
    exact ⟨rfl, rfl⟩
  | loadSeq pos =>
    cases h
    split_ifs <;> simp
  | cas pos =>
    simp only [popStep] at h
    split_ifs at h <;> cases h <;> simp [Core.claimHead]
  | _ =>
    cases h
    simp [Core.setData, Core.take]

/-- What has been taken out is, in order, some of what has been put in. -/
theorem RingInv.delivered (h : RingInv c pc) :
    (c.headClaims.filterMap HeadClaim.result).Sublist
      (c.tailClaims.filterMap TailClaim.result) := by
  refine filterMap_sublist fun p k v hk hv => ?_
  obtain ⟨hr, ho⟩ : k.returned = true ∧ k.out = some v := by simpa [HeadClaim.result] using hv
  obtain ⟨k', hk', rfl⟩ := Option.map_eq_some_iff.mp (h.taken p k v hk ho)
  have hf := h.ready p (List.getElem?_eq_some_iff.mp hk).1
  rw [Core.filled, hk', Option.any_some] at hf
  exact ⟨k', hk', by simp [TailClaim.result, hf]⟩

/-- With no claim pending and none ahead of `head_`, all that was pushed has been popped. -/
theorem RingInv.delivered_all (h : RingInv c pc) (hl : Logged c)
    (he : c.headClaims.length = c.tailClaims.length) (hr : ∀ k ∈ c.headClaims, k.returned = true) :
    c.popped.Perm c.pushed := by
  refine hl.popped.trans (List.Perm.trans ?_ hl.pushed.symm)
  rw [h.delivered.eq_of_length_le]
  have hall : (c.headClaims.filterMap HeadClaim.result).length = c.headClaims.length := by
    refine List.filterMap_length_eq_length.mpr fun k hk => ?_
    obtain ⟨p, hp⟩ := List.mem_iff_getElem?.mp hk
    simpa [HeadClaim.result, hr k hk] using h.gone p k hp (hr k hk)
  rw [hall, he]
  exact List.length_filterMap_le _ _

/-- Never more than `capacity` claimed positions are unreleased. -/
theorem RingInv.unreleased_le (h : RingInv c pc) :
    c.tailClaims.length ≤ c.headClaims.countP HeadClaim.returned + c.ring.capacity := by
  by_contra hlt
  -- the first `n` positions have left the lap
  obtain ⟨n, hn⟩ : ∃ n, n + c.ring.capacity = c.tailClaims.length :=
    ⟨c.tailClaims.length - c.ring.capacity, by omega⟩
  have hrel : ∀ p < n, c.released p = true := fun p hp => h.reuse p (by omega)
  have hall : ∀ k ∈ c.headClaims.take n, k.returned = true := by
    intro k hk
    obtain ⟨p, hp, rfl⟩ := List.mem_iff_getElem.mp hk
    have := hrel p (by simp at hp; omega)
    rw [List.length_take] at hp
    rw [Core.released, List.getElem?_eq_getElem (by omega)] at this
    simpa using this
  have hlen : (c.headClaims.take n).length = n := by
    rcases Nat.eq_zero_or_pos n with rfl | hpos
    · simp
    · have := Core.released_lt (hrel (n - 1) (by omega))
      simp
      omega
  have hcount := List.Sublist.countP_le (p := HeadClaim.returned) (List.take_sublist n c.headClaims)
  rw [List.countP_eq_length.mpr hall, hlen] at hcount
  omega

end

section

variable [DecidableEq ι] [Inhabited T] {capacity : ℕ} {s s' : RingState ι T}

theorem capacity_of_reachable (hcap : ∃ j, capacity = 2 ^ j)
    (h : (ringMachine ι capacity).Reachable s) : s.core.ring.capacity = capacity := by
  refine h.invariant (P := fun s => s.core.ring.capacity = capacity) ?_ ?_
  · rintro s ⟨r, hr, rfl⟩
    rw [LockFreeRing.make_eq (LockFreeRing.le_of_make hr), Option.some.injEq] at hr
    subst hr
    obtain ⟨j, rfl⟩ := hcap
    rw [Nat.clog_pow 2 j (by omega)]
    exact Nat.sub_add_cancel Nat.one_le_two_pow
  · intro s a s' hi _ hs
    obtain ⟨t, k, -, -, rfl⟩ | ⟨t, sp, r, c', k, hr, rfl⟩ := ringMachine_step_cases hs
    · exact hi
    · exact (ringStep_capacity hr).trans hi

theorem logged_of_reachable (h2 : 2 ≤ capacity)
    (h : (ringMachine ι capacity).Reachable s) (hb : s.core.tailClaims.length < 2 ^ 63) :
    Logged s.core ∧ RingInv s.core s.pc := by
  refine ⟨?_, ringInv_of_reachable h2 h hb⟩
  induction h with
  | init hi =>
    obtain ⟨r, -, rfl⟩ := hi
    exact ⟨.nil, .nil⟩
  | @step s s' a hr _ hs ih =>
    obtain ⟨t, k, -, -, rfl⟩ | ⟨t, sp, r, c', k, hstep, rfl⟩ := ringMachine_step_cases hs
    · exact ih hb
    · have hb' := lt_of_le_of_lt (ringStep_mono hstep) hb
      exact (ih hb').step (ringInv_of_reachable h2 hr hb') hstep

/-- **Exactly-once FIFO delivery**, for any threads and every interleaving of their steps: the
`p`-th claim of `head_` takes out the item of the `p`-th claim of `tail_`; the values returned by
`try_pop` are those of the returned head claims, and the items accepted by `try_push` those of the
returned tail claims, each once; until its head claim has moved it out, an accepted item is in its
cell; and at most `capacity` claimed positions are unreleased. -/
theorem exactly_once_fifo {j : ℕ} (hcap : capacity = 2 ^ j) (h2 : 2 ≤ capacity)
    (h : (ringMachine ι capacity).Reachable s) (hb : s.core.tailClaims.length < 2 ^ 63) :
    (∀ (p : ℕ) (k : HeadClaim ι T) (v : T), s.core.headClaims[p]? = some k → k.out = some v →
      ∃ k', s.core.tailClaims[p]? = some k' ∧ k'.item = v) ∧
    s.core.popped.Perm (s.core.headClaims.filterMap HeadClaim.result) ∧
    s.core.pushed.Perm (s.core.tailClaims.filterMap TailClaim.result) ∧
    (∀ (p : ℕ) (k : TailClaim ι T), s.core.tailClaims[p]? = some k → k.returned = true →
      (∀ k' : HeadClaim ι T, s.core.headClaims[p]? = some k' → k'.out = none) →
      (s.core.ring.cell p).data = k.item) ∧
    s.core.headClaims.length ≤ s.core.tailClaims.length ∧
    s.core.tailClaims.length ≤ s.core.headClaims.countP HeadClaim.returned + capacity := by
  obtain ⟨hl, hi⟩ := logged_of_reachable h2 h hb
  refine ⟨fun p k v hp hv => ?_, hl.popped, hl.pushed, hi.data, hi.head_le, ?_⟩
  · exact Option.map_eq_some_iff.mp (hi.taken p k v hp hv)
  · have := hi.unreleased_le
    rwa [capacity_of_reachable ⟨j, hcap⟩ h] at this

end

/-! ### Two producers and a consumer on two cells -/

/-- Both producers read the same `tail_`; the first CAS fails spuriously, the second producer's
succeeds, the first is sent back and takes the other cell; the consumer pops one item. -/
def contended : List (RingAct (Fin 3) ℕ) :=
  [.tryPush 0 7, .tryPush 1 8, .step 0 false 0, .step 1 false 0, .step 0 false 0, .step 1 false 0,
    .step 0 true 0, .step 1 false 0, .step 0 false 0, .step 0 false 0, .step 0 false 0,
    .step 0 false 0, .step 1 false 0, .step 1 false 0, .step 0 false 0, .tryPop 2,
    .step 2 false 0, .step 2 false 0, .step 2 false 0, .step 2 false 5, .step 2 false 0,
    .step 2 false 0]

theorem exec_contended : ∃ s, (ringMachine (Fin 3) 2).exec
    ⟨LockFreeRing.unused ⟨fun i => ⟨i, (0 : ℕ)⟩, 1, 0, 0⟩, fun _ => .idle⟩ contended = some s ∧
    s.core.tailClaims.length = 2 := by
  have h : ((ringMachine (Fin 3) 2).exec ⟨LockFreeRing.unused ⟨fun i => ⟨i, (0 : ℕ)⟩, 1, 0, 0⟩,
      fun _ => .idle⟩ contended).map (fun s => s.core.tailClaims.length) = some 2 := by
    decide +kernel
  exact Option.map_eq_some_iff.mp h

theorem exactly_once_fifo_contended :
    ∃ s, (ringMachine (Fin 3) 2).exec
        ⟨LockFreeRing.unused ⟨fun i => ⟨i, (0 : ℕ)⟩, 1, 0, 0⟩, fun _ => .idle⟩ contended = some s ∧
      (∀ (p : ℕ) (k : HeadClaim (Fin 3) ℕ) (v : ℕ), s.core.headClaims[p]? = some k →
        k.out = some v → ∃ k', s.core.tailClaims[p]? = some k' ∧ k'.item = v) ∧
      s.core.popped.Perm (s.core.headClaims.filterMap HeadClaim.result) := by
  obtain ⟨s, hs, hb⟩ := exec_contended
  have := exactly_once_fifo (j := 1) rfl (by decide)
    (Machine.Reachable.of_exec ⟨_, rfl, rfl⟩ hs) (by rw [hb]; decide)
  exact ⟨s, hs, this.1, this.2.1⟩

end OrderRisk.Queue
