import OrderRisk.Queue.Balance

/-!
# Does an awake worker watch every item?

A push that counts a spinner skips its wake-up.  One spinner may be counted by several pushes, and
it is counted for a moment after it has taken its item, so an item can be left behind a running job
while a worker sleeps (`skippedTwice`).

Two steps can break the balance, a push that skips its wake-up and a worker that takes an item whose
push is still to decide whom to wake; both keep it where an item more can be left to the awake
workers (`Spared`, `covered_of_spared`).  Where the push that is still to decide counts, only the
skipped wake-up can break it (`SkipsSpared`).
-/

namespace OrderRisk.Queue

open OrderRisk.Lib

variable {ι T : Type*}

section

variable [Fintype ι] {owes : ThreadPc T → Option ℕ} {s s' : State ι T} {t : ι} {k : ThreadPc T}
  {maxSpinners : ℤ} [DecidableEq ι] [Inhabited T]

/-! ### Runs -/

/-- A push that skips its wake-up does so where an item more can be left to the awake workers: its
own, if that is unclaimed, or the one it counts for. -/
def SkipsSpared (owes : ThreadPc T → Option ℕ) (s : State ι T) : Act ι T → Prop
  | .step t _ =>
    match s.pc t with
    | .push _ (.readSpinners pos) =>
      s.shared.spinners ≠ 0 →
        s.shared.core.headClaims.length ≤ pos ∨ (owes (s.pc t)).isSome = true → s.CanSpare owes pos
    | _ => True
  | _ => True

/-- A worker that takes an item whose push has not returned, and does not count, can be spared. -/
def TakesSpared (owes : ThreadPc T → Option ℕ) (s : State ι T) : Act ι T → Prop
  | .step t ch =>
    match s.pc t with
    | .pop (.tryPop _ (.cas pos)) =>
      s.shared.core.ring.head = pos → ch.spurious = false → ¬ s.Offered owes pos →
        s.CanSpare owes pos
    | _ => True
  | _ => True

/-- Both, with no push in flight counted. -/
def Spared (s : State ι T) (a : Act ι T) : Prop :=
  SkipsSpared (fun _ => none) s a ∧ TakesSpared (fun _ => none) s a

variable {capacity : ℕ} {act : Act ι T} {ch : Choice ι T}

theorem headClaims_of_step
    (hs : (queueMachine ι capacity maxSpinners).step s (.step t ch) = some s')
    (hlt : s.shared.core.headClaims.length < s'.shared.core.headClaims.length) :
    ∃ site pos, s.pc t = .pop (.tryPop site (.cas pos)) ∧ s.shared.core.ring.head = pos ∧
      ch.spurious = false := by
  simp only [queueMachine, Option.bind_eq_some_iff, Option.map_eq_some_iff] at hs
  obtain ⟨⟨g', k, w⟩, hs, pc', -, rfl⟩ := hs
  obtain ⟨a, b, -, hb, hsh⟩ := (local_of_threadStep hs).shift
  dsimp only at hlt
  generalize (s.pc t).role = r, k.role = r' at hsh
  cases hsh
  case taken site pos hk =>
    refine ⟨site, pos, hk, ?_⟩
    by_contra hno
    simp only [hk, threadStep, popAtStep, popStep, if_neg hno, Option.some.injEq,
      Prod.mk.injEq] at hs
    obtain ⟨rfl, -⟩ := hs
    exact lt_irrefl _ hlt
  all_goals omega

theorem Balanced.init (h : (queueMachine ι capacity maxSpinners).init s) : Balanced owes s := by
  obtain ⟨r, -, rfl⟩ := h
  exact .of_awake (weight_eq_zero.mpr fun _ => rfl) fun _ => rfl

theorem Balanced.outside (ho : Owing ι owes) (h : Balanced owes s) (hc : (s.pc t).claimed = none)
    (hkc : k.claimed = none) (hr : (s.pc t).role = .bystander)
    (hk : k.role = .bystander ∨ k.role = .searching) :
    Balanced owes ⟨s.shared, Function.update s.pc t k⟩ := by
  have hw : Woken s.pc .nobody s.pc := ⟨fun _ => .inl rfl, fun _ => rfl, by simp, by simp⟩
  obtain ⟨d, hd, -, -, ht⟩ := hw.turn (t := t) s.shared k fun _ => hr
  refine h.keep hd ht rfl (fun tl => ?_) ?_
  · have hcard := Finset.card_le_card fun j hj => hw.mem_unseen (t := t) (j := j) s.shared k tl
      ho le_rfl hj fun hlt _ => ⟨hlt, by simp [hc]⟩
    have howed := hw.owed (t := t) s.shared k ho tl
    simp only [ho.of_unclaimed hc, ho.of_unclaimed hkc] at howed
    unfold State.unmet
    omega
  · rw [hr]
    exact hk.imp_right .inl

theorem balanced_of_within {C : State ι T → Act ι T → Prop} (ho : Owing ι owes) (h2 : 2 ≤ capacity)
    (hC : ∀ s a, RingInv s.shared.core (fun t => (s.pc t).ring) → C s a →
      SkipsSpared owes s a ∧ TakesSpared owes s a)
    (h : (queueMachine ι capacity maxSpinners).Within C s)
    (hb : s.shared.core.tailClaims.length < 2 ^ 63) : Balanced owes s := by
  induction h with
  | init hi => exact .init hi
  | @step s s' a hw hok hs ih =>
    have hb' := bounded_of_step hs hb
    have hi := ih hb'
    have hreach := hw.reachable
    have hreach' := hreach.step trivial hs
    have hr := ringInv h2 hreach hb'
    obtain ⟨hskip, htake⟩ := hC _ _ hr hok
    obtain ⟨t, c, rfl, ht, rfl⟩ | ⟨t, ch, g', k, w, pc', rfl, hl, hwake, rfl⟩ |
      ⟨t, r, rfl, ht, rfl⟩ := step_cases hs
    · refine hi.outside ho (by rw [ht]; rfl) (Call.start_claimed c) (by rw [ht]; rfl) ?_
      cases c with
      | pop => exact .inr rfl
      | push x => exact .inl rfl
      | shutdown => exact .inl rfl
    · have hatt : Attended (fun _ => True) s := attended_of_within h2 ⟨t, trivial⟩
        (hreach.mono fun s a _ => by unfold PopsBy; split <;> trivial) hb'
      refine hi.local ho (counters_of_reachable hreach) hatt hr hl hwake
        (ringInv h2 hreach' hb).head_le (fun hk => ?_) (fun x pos hk => ?_) fun hlt hoff => ?_
      · -- `std::nullopt` says that all has been claimed
        subst hk
        obtain ⟨rfl, -⟩ := hl.nullopt rfl
        exact (drained_of_nullopt h2 hreach' hb (t := t) (by simp)).empty
      · simpa only [SkipsSpared, hk] using hskip
      · obtain ⟨site, pos, hk, hpos, hsp⟩ := headClaims_of_step hs hlt
        simp only [TakesSpared, hk] at htake
        obtain rfl : s.shared.core.headClaims.length = pos := hr.head_eq ▸ hpos
        exact htake hpos hsp hoff
    · exact hi.outside ho (by rw [ht]; rfl) rfl (by rw [ht]; rfl) (.inl rfl)

end

theorem ThreadPc.owing_of_claimed {k : ThreadPc T} {pos : ℕ} (h : k.claimed = some pos) :
    k.owing = some pos ∨ ∃ x, k.ring = .push x (.move pos) ∨ k.ring = .push x (.publish pos) := by
  unfold ThreadPc.claimed at h
  split at h <;> cases h
  case h_1 x => exact .inr ⟨x, .inl rfl⟩
  case h_2 x => exact .inr ⟨x, .inr rfl⟩
  all_goals exact .inl rfl

/-- The item that a worker is about to claim is published, so its push counts. -/
theorem State.offered_of_cas [Inhabited T] {s : State ι T} {t : ι} {site : Site} {pos : ℕ}
    (hr : RingInv s.shared.core fun t => (s.pc t).ring)
    (ht : s.pc t = .pop (.tryPop site (.cas pos))) : s.Offered ThreadPc.owing pos := by
  intro u hu
  have hfilled : s.shared.core.filled pos = true := by
    have hpc := hr.pcOk t
    rw [ht] at hpc
    exact hpc
  rcases ThreadPc.owing_of_claimed hu with h | ⟨x, h⟩
  · exact h
  · have hclaim : s.shared.core.tailClaims[pos]? = some ⟨u, x, false⟩ := by
      have hpc := hr.pcOk u
      rcases h with h | h <;> rw [h] at hpc
      · exact hpc
      · exact hpc.1
    simp [(hr.tailClaim hclaim).2.1] at hfilled

/-- Thread `u` is inside `pop`, awake, and has not obtained an item: it will look at the ring again
before it runs a job or blocks, or it is about to move item `j` out. -/
def State.Attends (s : State ι T) (j : ℕ) (u : ι) : Prop :=
  (s.pc u).role = .searching ∨
    (∃ tl, (s.pc u).role = .looking tl ∧ s.shared.core.headClaims.length < tl) ∨
    ∃ site, s.pc u = .pop (.tryPop site (.move j))

/-- An item in the ring whose push has returned does not wait while a thread is blocked un-notified
and nobody else attends to the ring. -/
def State.Covered (s : State ι T) : Prop :=
  ∀ j, s.InRing j → s.PushReturned j → ∀ w, s.pc w = .pop .waiting → ∃ u, u ≠ w ∧ s.Attends j u

section

variable {s : State ι T}

theorem State.Attends.popping {j : ℕ} {u : ι} (h : s.Attends j u) : (s.pc u).popping = true := by
  rcases h with h | ⟨tl, h, -⟩ | ⟨site, h⟩
  · exact ThreadPc.popping_of_role (.inl h)
  · exact ThreadPc.popping_of_role (.inr ⟨tl, h⟩)
  · rw [h]
    rfl

theorem State.Attends.awake {j : ℕ} {u : ι} (h : s.Attends j u) : s.pc u ≠ .pop .waiting := by
  intro hu
  rcases h with h | ⟨tl, h, -⟩ | ⟨site, h⟩ <;> simp [hu, ThreadPc.role] at h

variable [Fintype ι] [Inhabited T] {capacity : ℕ} {maxSpinners : ℤ}

/-- If every push that counts has its item unclaimed, an item whose push has returned is one more
than they stand for. -/
theorem State.owed_lt {owes : ThreadPc T → Option ℕ} (ho : Owing ι owes)
    (hlt : ∀ u pos, (s.pc u).claimed = some pos → pos < s.shared.core.tailClaims.length)
    (hone : ∀ u v pos, (s.pc u).claimed = some pos → (s.pc v).claimed = some pos → u = v)
    (hbehind : ∀ u pos, owes (s.pc u) = some pos → s.shared.core.headClaims.length ≤ pos) {j : ℕ}
    (hj : s.shared.core.headClaims.length ≤ j ∧ j < s.shared.core.tailClaims.length)
    (hret : s.PushReturned j) : s.owed owes 0 < (s.unseen owes 0).card := by
  have hmem : j ∈ s.unseen owes 0 :=
    State.mem_unseen.mpr ⟨hj, Nat.zero_le j, fun u hu => absurd hu (hret u)⟩
  have hinto : ∀ u pos, owes (s.pc u) = some pos → pos ∈ (s.unseen owes 0).erase j := by
    intro u pos hu
    have hclaimed := ho.claimed _ _ hu
    refine Finset.mem_erase.mpr ⟨?_, State.mem_unseen.mpr
      ⟨⟨hbehind u pos hu, hlt u pos hclaimed⟩, Nat.zero_le pos, fun v hv => ?_⟩⟩
    · rintro rfl
      exact hret u hclaimed
    · rw [hone v u pos hv hclaimed, hu]
  have hsome : ∀ u, (owes (s.pc u)).any (0 ≤ ·) = true → ∃ pos, owes (s.pc u) = some pos :=
    fun u hu => by
      rw [Option.any_eq_true] at hu
      exact hu.imp fun pos h => h.1
  have hcard : s.owed owes 0 ≤ ((s.unseen owes 0).erase j).card := by
    refine weight_le_card (f := fun k => (owes k).getD 0) (fun u hu => ?_) fun u v hu hv he => ?_
    · obtain ⟨pos, hpos⟩ := hsome u hu
      simpa only [hpos, Option.getD_some] using hinto u pos hpos
    · obtain ⟨pos, hpos⟩ := hsome u hu
      obtain ⟨pos', hpos'⟩ := hsome v hv
      obtain rfl : pos = pos' := by simpa [hpos, hpos'] using he
      exact hone u v pos (ho.claimed _ _ hpos) (ho.claimed _ _ hpos')
  have := Finset.card_erase_lt_of_mem hmem
  omega

theorem Balanced.covered {owes : ThreadPc T → Option ℕ} (ho : Owing ι owes) (h : Balanced owes s)
    (hr : RingInv s.shared.core fun t => (s.pc t).ring)
    (hlt : ∀ u pos, (s.pc u).claimed = some pos → pos < s.shared.core.tailClaims.length)
    (hone : ∀ u v pos, (s.pc u).claimed = some pos → (s.pc v).claimed = some pos → u = v) :
    s.Covered ∨ ∃ u pos, owes (s.pc u) = some pos ∧ pos < s.shared.core.headClaims.length := by
  by_cases hex : ∃ u pos, owes (s.pc u) = some pos ∧ pos < s.shared.core.headClaims.length
  · exact .inr hex
  · push Not at hex
    refine .inl fun j hj hret w hw => ?_
    suffices ∃ u, s.Attends j u by
      obtain ⟨u, hu⟩ := this
      exact ⟨u, fun he => hu.awake (he ▸ hw), hu⟩
    rcases Nat.lt_or_ge j s.shared.core.headClaims.length with hlt' | hge
    · obtain ⟨u, site, hu⟩ := hj.mover hr hlt'
      exact ⟨u, .inr (.inr ⟨site, hu⟩)⟩
    · -- it is unclaimed, and the counts have somebody for it
      have hbl : 0 < s.blocked := count_pos (t := w) (by rw [hw]; rfl)
      have howed := State.owed_lt ho hlt hone hex ⟨hge, hj.1⟩ hret
      have hs : 0 ≤ s.searching := count_nonneg
      have hwatched := h.watched
      unfold State.Watched State.unmet at hwatched
      have hsome : 0 < s.searching ∨ 0 < s.sighted := by omega
      rcases hsome with hsome | hsome <;> obtain ⟨u, hu⟩ := exists_of_weight_pos hsome
      · exact ⟨u, .inl (by simpa using hu)⟩
      · cases hrole : (s.pc u).role <;> simp [hrole, Role.sees] at hu
        next tl => exact ⟨u, .inr (.inl ⟨tl, hrole, hu⟩)⟩

variable [DecidableEq ι]

/-- **No item waits behind a running job while a worker sleeps**, in the runs in which an item is
left to the awake workers only where one of them can be spared.  Where only the pushes that skip
their wake-up see to that, it may wait as long as a push whose item a worker has claimed is still to
decide whom to wake. -/
theorem covered_of_spared (h2 : 2 ≤ capacity) (hb : s.shared.core.tailClaims.length < 2 ^ 63) :
    ((queueMachine ι capacity maxSpinners).Within Spared s → s.Covered) ∧
      ((queueMachine ι capacity maxSpinners).Within (SkipsSpared ThreadPc.owing) s →
        s.Covered ∨ ∃ u pos, (s.pc u).owing = some pos ∧
          pos < s.shared.core.headClaims.length) := by
  have hcovered {owes : ThreadPc T → Option ℕ} (ho : Owing ι owes) (hbal : Balanced owes s)
      (hreach : (queueMachine ι capacity maxSpinners).Reachable s) :=
    hbal.covered ho (ringInv h2 hreach hb) (fun _ _ hu => claimed_lt h2 hreach hb hu)
      fun _ _ _ hu hv => claimed_unique h2 hreach hb hu hv
  refine ⟨fun h => ?_, fun h => ?_⟩
  · have hbal := balanced_of_within owing_none h2 (fun _ _ _ hC => hC) h hb
    exact (hcovered owing_none hbal h.reachable).resolve_right (by simp)
  · refine hcovered owing_owing (balanced_of_within owing_owing h2 (fun s a hr hC => ⟨hC, ?_⟩) h hb)
      h.reachable
    unfold TakesSpared
    split
    · split
      · next ht => exact fun _ _ hno => absurd (State.offered_of_cas hr ht) hno
      · trivial
    · trivial

end

/-! ### One skip that is spared, and one that is not -/

/-- An unclaimed item, a blocked thread, and nobody else inside `pop`. -/
theorem State.not_covered {s : State ι T} {j : ℕ} {w : ι}
    (hhead : s.shared.core.headClaims.length ≤ j) (htail : j < s.shared.core.tailClaims.length)
    (hret : s.PushReturned j) (hw : (s.pc w).isWaiting = true)
    (hno : ∀ u, u ≠ w → (s.pc u).popping = false) : ¬ s.Covered := by
  intro hcov
  have hring : s.InRing j := ⟨htail, fun k hk => by simp [hhead] at hk⟩
  obtain ⟨u, hu, hatt⟩ := hcov j hring hret w (isWaiting_iff.mp hw)
  have hpop := hatt.popping
  rw [hno u hu] at hpop
  cases hpop

section

variable [Fintype ι]

instance (s : State ι T) (j : ℕ) : Decidable (s.PushReturned j) :=
  inferInstanceAs (Decidable (∀ t, (s.pc t).claimed ≠ some j))

variable (owes : ThreadPc T → Option ℕ)

instance (s : State ι T) (j : ℕ) : Decidable (s.CanSpare owes j) :=
  decidable_of_iff ((s.blocked = 0 ∨ s.unmet owes 0 < s.searching + s.sighted) ∧
    ∀ u, ∀ tl ∈ (s.pc u).looked, tl ≤ j →
      s.unmet owes tl < 0 ∨ s.unmet owes tl + s.shown tl < s.searching)
    ⟨fun h => ⟨h.1, fun u tl hu => h.2 u tl hu⟩, fun h => ⟨h.watched, fun u tl hu => h.backed u tl hu⟩⟩

instance (s : State ι T) (a : Act ι T) : Decidable (SkipsSpared owes s a) := by
  unfold SkipsSpared
  split
  · split <;> infer_instance
  · infer_instance

instance (s : State ι T) (a : Act ι T) : Decidable (TakesSpared owes s a) := by
  unfold TakesSpared
  split
  · split <;> infer_instance
  · infer_instance

instance (s : State ι T) (a : Act ι T) : Decidable (Spared s a) :=
  inferInstanceAs (Decidable (_ ∧ _))

end

/-- A push has published an item and not returned when another push counts the spinner, which then
takes the first item and goes off to run its job. -/
def heldUp : List (Act (Bool × Bool) ℕ) :=
  let go t := .step t ⟨false, 0, none⟩
  .call (false, true) .pop :: go (false, true) :: .call (false, false) .pop ::
    List.replicate 11 (go (false, false)) ++ .call (true, false) (.push 7) ::
      List.replicate 7 (go (true, false)) ++ .call (true, true) (.push 8) ::
        List.replicate 10 (go (true, true)) ++ List.replicate 7 (go (false, true))

/-- The spinner of `skippedOver` is the one awake searcher for the one item; that of `heldUp` is one
for two items, and the other one's push has yet to wake somebody. -/
theorem covered_of_spared_skippedOver :
    (∃ s, (queueMachine (Fin 3) 2 1).exec twoCells skippedOver = some s ∧
      (s.pc 0).isWaiting = true ∧ s.Covered) ∧
    ∃ s, (queueMachine (Bool × Bool) 2 1).exec
        ⟨.fresh ⟨fun i => ⟨i, 0⟩, 1, 0, 0⟩, fun _ => .idle⟩ heldUp = some s ∧
      ¬ s.Covered ∧ ∃ u pos, (s.pc u).owing = some pos ∧
        pos < s.shared.core.headClaims.length := by
  constructor
  · have hmeets : (queueMachine (Fin 3) 2 1).Meets Spared twoCells skippedOver := by
      decide +kernel
    obtain ⟨s, hs, hb, hw⟩ : ∃ s, (queueMachine (Fin 3) 2 1).exec twoCells skippedOver = some s ∧
        s.shared.core.tailClaims.length = 1 ∧ (s.pc 0).isWaiting = true := by
      have h : ((queueMachine (Fin 3) 2 1).exec twoCells skippedOver).map
          (fun s => (s.shared.core.tailClaims.length, (s.pc 0).isWaiting)) = some (1, true) := by
        decide +kernel
      obtain ⟨s, hs, hl⟩ := Option.map_eq_some_iff.mp h
      simp only [Prod.mk.injEq] at hl
      exact ⟨s, hs, hl⟩
    exact ⟨s, hs, hw, (covered_of_spared le_rfl (by rw [hb]; decide)).1
      (.exec (.init ⟨_, rfl, rfl⟩) hmeets hs)⟩
  · have hmeets : (queueMachine (Bool × Bool) 2 1).Meets (SkipsSpared ThreadPc.owing)
        ⟨.fresh ⟨fun i => ⟨i, 0⟩, 1, 0, 0⟩, fun _ => .idle⟩ heldUp := by
      decide +kernel
    obtain ⟨s, hs, htail, hhead, hret, hw, hno⟩ : ∃ s, (queueMachine (Bool × Bool) 2 1).exec
        ⟨.fresh ⟨fun i => ⟨i, 0⟩, 1, 0, 0⟩, fun _ => .idle⟩ heldUp = some s ∧
          s.shared.core.tailClaims.length = 2 ∧ s.shared.core.headClaims.length = 1 ∧
            s.PushReturned 1 ∧ (s.pc (false, false)).isWaiting = true ∧
              ∀ u, u ≠ (false, false) → (s.pc u).popping = false := by
      have h : ((queueMachine (Bool × Bool) 2 1).exec
          ⟨.fresh ⟨fun i => ⟨i, 0⟩, 1, 0, 0⟩, fun _ => .idle⟩ heldUp).map
          (fun s => (s.shared.core.tailClaims.length, s.shared.core.headClaims.length,
            decide (s.PushReturned 1), (s.pc (false, false)).isWaiting,
              decide (∀ u, u ≠ (false, false) → (s.pc u).popping = false))) =
            some (2, 1, true, true, true) := by
        decide +kernel
      obtain ⟨s, hs, hl⟩ := Option.map_eq_some_iff.mp h
      simp only [Prod.mk.injEq, decide_eq_true_eq] at hl
      exact ⟨s, hs, hl⟩
    have hnot : ¬ s.Covered := State.not_covered (j := 1) (by omega) (by omega) hret hw hno
    exact ⟨s, hs, hnot, ((covered_of_spared le_rfl (by rw [htail]; decide)).2
      (.exec (.init ⟨_, rfl, rfl⟩) hmeets hs)).resolve_left hnot⟩

/-- The spinner takes the first item and is still counted when the second push looks: that push
returns too, and the spinner goes off to run its job. -/
def skippedTwice : List (Act (Fin 3) ℕ) :=
  skippedOver ++ List.replicate 6 (go 2) ++ [.ret 1, .call 1 (.push 8)] ++
    List.replicate 10 (go 1) ++ [go 2, .ret 2]

/-- No push is under way when the second item is left alone. -/
theorem skippedTwice_not_covered : ∃ s : State (Fin 3) ℕ,
    (queueMachine (Fin 3) 2 1).Reachable s ∧ (∀ t, (s.pc t).claimed = none) ∧ ¬ s.Covered := by
  obtain ⟨s, hs, htail, hhead, hwait, hclaimed, hno⟩ : ∃ s,
      (queueMachine (Fin 3) 2 1).exec twoCells skippedTwice = some s ∧
        s.shared.core.tailClaims.length = 2 ∧ s.shared.core.headClaims.length = 1 ∧
          (s.pc 0).isWaiting = true ∧ (∀ t, (s.pc t).claimed = none) ∧
            ∀ u, u ≠ 0 → (s.pc u).popping = false := by
    have h : ((queueMachine (Fin 3) 2 1).exec twoCells skippedTwice).map
        (fun s => (s.shared.core.tailClaims.length, s.shared.core.headClaims.length,
          (s.pc 0).isWaiting, decide (∀ t, (s.pc t).claimed = none),
            decide (∀ u, u ≠ 0 → (s.pc u).popping = false))) = some (2, 1, true, true, true) := by
      decide +kernel
    obtain ⟨s, hs, hl⟩ := Option.map_eq_some_iff.mp h
    simp only [Prod.mk.injEq, decide_eq_true_eq] at hl
    exact ⟨s, hs, hl⟩
  exact ⟨s, .of_exec ⟨_, rfl, rfl⟩ hs, hclaimed, State.not_covered (j := 1) (by omega) (by omega)
    (fun t => by rw [hclaimed t]; simp) hwait hno⟩

end OrderRisk.Queue
