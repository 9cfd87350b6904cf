import OrderRisk.Queue.Delivery
import OrderRisk.Queue.Moves

/-!
# What `try_pop` returning false says, with one producer

A `try_pop` returns false when the `seq` it loads is behind the position it looks for.  That
position is then at `head_` and not filled.  With one producer the claims of `tail_` are filled in
order (`Serial`), so nothing that has been pushed is left behind it (`empty_verdict`).
-/

namespace OrderRisk.Queue

open OrderRisk.Lib

variable {ι T : Type*}

/-- Only `producer` calls `try_push`. -/
def OneProducer (producer : ι) : RingState ι T → RingAct ι T → Prop
  | _, .tryPush t _ => t = producer
  | _, .tryPop _ => True
  | _, .step _ _ _ => True

instance decidableOneProducer [DecidableEq ι] (producer : ι) (s : RingState ι T) :
    DecidablePred (OneProducer producer s) := fun a => by
  cases a <;> unfold OneProducer <;> infer_instance

/-- A `try_pop` of `t` that is in progress takes its last step, and returns false. -/
def ReturnsFalse [Inhabited T] (s : RingState ι T) (t : ι) (spurious : Bool) (residue : T) : Prop :=
  ∃ p, s.pc t = .pop p ∧ (popStep t spurious residue s.core p).2 = .inr none

instance decidableReturnsFalse [Inhabited T] [DecidableEq T] (s : RingState ι T) (t : ι)
    (spurious : Bool) (residue : T) : Decidable (ReturnsFalse s t spurious residue) :=
  match h : s.pc t with
  | .idle => isFalse fun ⟨_, hp, _⟩ => by rw [h] at hp; cases hp
  | .push _ _ => isFalse fun ⟨_, hp, _⟩ => by rw [h] at hp; cases hp
  | .pop p => decidable_of_iff ((popStep t spurious residue s.core p).2 = .inr none)
      ⟨fun hp => ⟨p, h, hp⟩, fun ⟨q, hq, hp⟩ => by
        obtain rfl : p = q := by simpa [h] using hq
        exact hp⟩

/-- Every item whose `try_push` has returned true has been claimed by a consumer. -/
def AllClaimed (s : RingState ι T) : Prop :=
  ∀ (p : ℕ) (k : TailClaim ι T), s.core.tailClaims[p]? = some k → k.returned = true →
    ∃ k', s.core.headClaims[p]? = some k'

/-- Whoever is in `try_push` is the producer, and at most its last claim is not filled. -/
structure Serial (producer : ι) (s : RingState ι T) : Prop where
  pushing : ∀ t x p, s.pc t = .push x p → t = producer
  last : ∀ p < s.core.tailClaims.length, s.core.filled p = false →
    p + 1 = s.core.tailClaims.length

section

variable [Inhabited T] {t producer : ι} {spurious : Bool} {residue : T} {c c' : Core ι T}
  {k k' : RingPc T}

theorem ringStep_tailClaims (hs : ringStep t spurious residue c k = some (c', k')) :
    (c'.tailClaims.length = c.tailClaims.length ∧
      ∀ p, c.filled p = true → c'.filled p = true) ∨
    ∃ x pos, k = .push x (.cas pos) ∧ c' = c.claimTail t x pos := by
  obtain _ | ⟨x, _ | pos | pos | pos | pos⟩ | ⟨_ | pos | pos | pos | ⟨pos, v⟩ | ⟨pos, v⟩⟩ := k
  all_goals
    simp only [ringStep, pushStep, popStep, Option.some.injEq, Prod.mk.injEq, reduceCtorEq] at hs
    try obtain ⟨rfl, -⟩ := hs
  case push.cas =>
    split_ifs
    · exact .inr ⟨x, pos, rfl, rfl⟩
    · exact .inl ⟨rfl, fun _ => id⟩
  case pop.cas =>
    split_ifs
    · exact .inl ⟨rfl, fun _ => id⟩
    · exact .inl ⟨rfl, fun _ => id⟩
  case push.publish =>
    exact .inl ⟨by simp [Core.publish], fun p hp => Core.filled_publish.mpr (.inl hp)⟩
  all_goals exact .inl ⟨rfl, fun _ => id⟩

theorem ringStep_pushing {x : T} {p : PushPc}
    (hs : ringStep t spurious residue c k = some (c', .push x p)) : ∃ q, k = .push x q := by
  cases k with
  | idle => cases hs
  | push y q =>
    simp only [ringStep, Option.some.injEq, Prod.mk.injEq] at hs
    cases hr : (pushStep t y spurious c q).2 with
    | inl q' =>
      rw [hr] at hs
      cases hs.2
      exact ⟨q, rfl⟩
    | inr b =>
      rw [hr] at hs
      cases hs.2
  | pop q =>
    simp only [ringStep, Option.some.injEq, Prod.mk.injEq] at hs
    cases hr : (popStep t spurious residue c q).2 with
    | inl q' =>
      rw [hr] at hs
      cases hs.2
    | inr b =>
      rw [hr] at hs
      cases hs.2

theorem Serial.filled_of_cas {s : RingState ι T} (h : Serial producer s) (hi : RingInv s.core s.pc)
    {x : T} {pos : ℕ} (ht : s.pc t = .push x (.cas pos)) {p : ℕ}
    (hp : p < s.core.tailClaims.length) : s.core.filled p = true := by
  obtain ⟨⟨u, y, b⟩, hk⟩ : ∃ k, s.core.tailClaims[p]? = some k := ⟨_, List.getElem?_eq_getElem hp⟩
  cases b with
  | true => simp [Core.filled, hk]
  | false =>
    -- the claim's thread would be another producer
    obtain rfl := h.pushing t x _ ht
    rcases hi.tailOwner p u y hk with hu | hu
    all_goals
      obtain rfl := h.pushing u y _ hu
      rw [ht] at hu
      cases hu

variable [DecidableEq ι] {m : ℕ} {s s' : RingState ι T} {a : RingAct ι T}

theorem Serial.step (h : Serial producer s) (hi : RingInv s.core s.pc) (ha : OneProducer producer s a)
    (hs : (ringMachine ι m).step s a = some s') : Serial producer s' := by
  have hcall : ∀ u k, (∀ x p, k = RingPc.push x p → u = producer) →
      Serial producer { s with pc := Function.update s.pc u k } := by
    refine fun u k hk => ⟨fun t x p ht => ?_, h.last⟩
    rcases eq_or_ne t u with rfl | hne
    · exact hk x p (by simpa using ht)
    · exact h.pushing t x p (by simpa [hne] using ht)
  cases a with
  | tryPush u item =>
    simp only [ringMachine] at hs
    split at hs
    · cases hs
      exact hcall u _ fun _ _ _ => ha
    · cases hs
  | tryPop u =>
    simp only [ringMachine] at hs
    split at hs
    · cases hs
      exact hcall u _ fun x p hk => by cases hk
    · cases hs
  | step u spurious residue =>
    obtain ⟨⟨c', k⟩, hr, rfl⟩ := Option.map_eq_some_iff.mp hs
    refine ⟨fun t x p ht => ?_, fun p hp hf => ?_⟩
    · rcases eq_or_ne t u with rfl | hne
      · obtain rfl : k = .push x p := by simpa using ht
        obtain ⟨q, hq⟩ := ringStep_pushing hr
        exact h.pushing t x q hq
      · exact h.pushing t x p (by simpa [hne] using ht)
    · dsimp only at hp hf ⊢
      rcases ringStep_tailClaims hr with ⟨hlen, hfill⟩ | ⟨x, pos, hk, rfl⟩
      · rw [hlen] at hp ⊢
        refine h.last p hp ?_
        by_contra hne
        rw [hfill p (by simpa using hne)] at hf
        cases hf
      · have hlen : (s.core.claimTail u x pos).tailClaims.length = s.core.tailClaims.length + 1 := by
          simp [Core.claimTail]
        rw [hlen] at hp ⊢
        rw [Core.filled_claimTail] at hf
        rcases Nat.lt_succ_iff_lt_or_eq.mp hp with hlt | rfl
        · rw [h.filled_of_cas hi hk hlt] at hf
          cases hf
        · rfl

theorem Serial.init (hs : (ringMachine ι m).init s) : Serial producer s := by
  obtain ⟨r, -, rfl⟩ := hs
  refine ⟨fun t x p ht => ?_, fun p hp => ?_⟩
  · cases ht
  · simp [LockFreeRing.unused] at hp

theorem serial_of_within (h2 : 2 ≤ m) (h : (ringMachine ι m).Within (OneProducer producer) s)
    (hb : s.core.tailClaims.length < 2 ^ 63) : Serial producer s ∧ RingInv s.core s.pc := by
  refine ⟨?_, ringInv_of_reachable h2 h.reachable hb⟩
  induction h with
  | init hi => exact .init hi
  | @step s s' a hw ha hs ih =>
    have hb' : s.core.tailClaims.length < 2 ^ 63 := by
      obtain ⟨t, k, -, -, rfl⟩ | ⟨t, sp, r, c', k, hr, rfl⟩ := ringMachine_step_cases hs
      · exact hb
      · exact lt_of_le_of_lt (ringStep_mono hr) hb
    exact (ih hb').step (ringInv_of_reachable h2 hw.reachable hb') ha hs

/-- **The emptiness verdict**: with one producer and any consumers, at the moment at which a
`try_pop` loads the `seq` that makes it return false, all that has been pushed is claimed. -/
theorem empty_verdict (h2 : 2 ≤ m)
    (h : (ringMachine ι m).Within (OneProducer producer) s)
    (hb : s.core.tailClaims.length < 2 ^ 63) (hf : ReturnsFalse s t spurious residue) :
    AllClaimed s := by
  obtain ⟨hserial, hi⟩ := serial_of_within h2 h hb
  obtain ⟨p, ht, hp⟩ := hf
  have hstep : popStep t spurious residue s.core p =
      ((popStep t spurious residue s.core p).1, .inr none) := Prod.ext rfl hp
  obtain ⟨pos, rfl, -, hd⟩ := popStep_none hstep
  have hle : pos ≤ s.core.headClaims.length := by
    have := hi.pcOk t
    rwa [ht] at this
  obtain ⟨hpos, hnf⟩ := hi.empty_of_diff hb hle hd
  intro q k hq hk
  have hqf : s.core.filled q = true := by simp [Core.filled, hq, hk]
  refine ⟨_, List.getElem?_eq_getElem ?_⟩
  -- a filled position from `head_` on would be behind one that is not filled
  have hqlt := Core.filled_lt hqf
  by_contra hge
  rcases Nat.lt_or_ge pos s.core.tailClaims.length with hlt | hge'
  · have := hserial.last pos hlt hnf
    obtain rfl : q = pos := by omega
    rw [hqf] at hnf
    cases hnf
  · omega

end

/-! ### A producer and a consumer on two cells -/

def drained : List (RingAct (Fin 2) ℕ) :=
  [.tryPush 0 7, .step 0 false 0, .step 0 false 0, .step 0 false 0, .step 0 false 0,
    .step 0 false 0, .tryPop 1, .step 1 false 0, .step 1 false 0, .step 1 false 0, .step 1 false 0,
    .step 1 false 0, .step 1 false 0, .tryPop 1, .step 1 false 0]

theorem empty_verdict_drained :
    ∃ s, (ringMachine (Fin 2) 2).exec
        ⟨LockFreeRing.unused ⟨fun i => ⟨i, (0 : ℕ)⟩, 1, 0, 0⟩, fun _ => .idle⟩ drained = some s ∧
      s.core.pushed = [7] ∧ ReturnsFalse s 1 false 0 ∧ AllClaimed s := by
  have h : ((ringMachine (Fin 2) 2).exec ⟨LockFreeRing.unused ⟨fun i => ⟨i, (0 : ℕ)⟩, 1, 0, 0⟩,
      fun _ => .idle⟩ drained).map (fun s => (s.core.tailClaims.length, s.core.pushed,
        decide (ReturnsFalse s 1 false 0))) = some (1, [7], true) := by
    decide +kernel
  obtain ⟨s, hs, hl⟩ := Option.map_eq_some_iff.mp h
  simp only [Prod.mk.injEq, decide_eq_true_eq] at hl
  obtain ⟨hlen, hpushed, hf⟩ := hl
  have hw : (ringMachine (Fin 2) 2).Within (OneProducer 0) s :=
    Machine.Within.exec (.init ⟨_, rfl, rfl⟩) (by decide +kernel) hs
  exact ⟨s, hs, hpushed, hf, empty_verdict (by decide) hw (by omega) hf⟩

end OrderRisk.Queue
