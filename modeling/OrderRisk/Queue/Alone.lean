import OrderRisk.Queue.Cost
import OrderRisk.Queue.Progress
import OrderRisk.Queue.Wakeup

/-!
# What a call of the queue finds when its thread is left alone

When nobody is committed, no claim of the ring is under way, and the loads of `seq` say what the ring
holds.  So a thread that is left alone finds what it looks for: a `push` a cell (`push_alone`), a `pop`
an item that is there (`pop_alone`), or the end of a queue that is shut down (`exit_alone`).
-/

namespace OrderRisk.Queue

open OrderRisk.Lib

variable {ι T : Type*}

/-! ### What the ring looks like when nobody is committed -/

section

variable [Inhabited T] {c : Core ι T} {pc : ι → ThreadPc T} {pos : ℕ}

namespace RingInv

theorem full_of_diff {pc : ι → RingPc T} (h : RingInv c pc)
    (hd : diff (c.ring.cell c.tailClaims.length).seq c.tailClaims.length < 0) :
    c.ring.capacity ≤ c.tailClaims.length ∧
      c.released (c.tailClaims.length - c.ring.capacity) = false := by
  obtain ⟨hs, -⟩ | ⟨hle, -, hs⟩ := h.seq_tail
  · rw [hs] at hd
    exact absurd hd (not_lt.mpr (diff_nonneg le_rfl (by omega)))
  · refine ⟨hle, ?_⟩
    by_contra hr
    rw [hs, Core.seqOf, if_pos (by simpa using hr), Nat.sub_add_cancel hle] at hd
    exact absurd hd (not_lt.mpr (diff_nonneg le_rfl (by omega)))

theorem filled_of_quiet (h : RingInv c fun u => (pc u).ring)
    (hq : ∀ u, (pc u).committed = false) (hp : pos < c.tailClaims.length) : c.filled pos = true := by
  obtain ⟨⟨u, x, r⟩, hk⟩ : ∃ k, c.tailClaims[pos]? = some k := ⟨_, List.getElem?_eq_getElem hp⟩
  by_contra hf
  have hr : r = false := by simpa [Core.filled, hk] using hf
  subst hr
  have hu := hq u
  rcases h.tailOwner _ u x hk with he | he <;> rw [ThreadPc.eq_of_ring_push he] at hu <;> cases hu

theorem released_of_quiet (h : RingInv c fun u => (pc u).ring)
    (hq : ∀ u, (pc u).committed = false) (hp : pos < c.headClaims.length) : c.released pos = true := by
  obtain ⟨⟨u, o, r⟩, hk⟩ : ∃ k, c.headClaims[pos]? = some k := ⟨_, List.getElem?_eq_getElem hp⟩
  by_contra hf
  have hr : r = false := by simpa [Core.released, hk] using hf
  subst hr
  have hu := hq u
  rcases h.headOwner _ u o hk with he | ⟨v, he⟩ | ⟨v, he⟩ <;>
    obtain ⟨site, he⟩ := ThreadPc.eq_of_ring_pop he <;> rw [he] at hu <;> cases hu

theorem not_empty_of_quiet (h : RingInv c fun u => (pc u).ring)
    (hq : ∀ u, (pc u).committed = false) (hb : c.tailClaims.length < 2 ^ 63)
    (hlt : c.headClaims.length < c.tailClaims.length) (hpos : pos ≤ c.headClaims.length) :
    ¬ diff (c.ring.cell pos).seq (word (pos + 1)) < 0 := by
  intro hd
  obtain ⟨rfl, hf⟩ := h.empty_of_diff hb hpos hd
  rw [h.filled_of_quiet hq hlt] at hf
  cases hf

theorem not_full_of_quiet (h : RingInv c fun u => (pc u).ring)
    (hq : ∀ u, (pc u).committed = false)
    (hlt : c.pending < c.ring.capacity) :
    ¬ diff (c.ring.cell c.tailClaims.length).seq c.tailClaims.length < 0 := by
  intro hd
  obtain ⟨hle, hr⟩ := h.full_of_diff hd
  unfold Core.pending at hlt
  rw [h.released_of_quiet hq (by omega)] at hr
  cases hr

end RingInv

end

/-! ### A thread that is left alone -/

section

variable [Fintype ι] [DecidableEq ι] [Inhabited T] {capacity : ℕ} {maxSpinners : ℤ}
  {s : State ι T} {t : ι}

/-- The other threads look for something, or are in no call, and do not hold the mutex. -/
def State.Quiet (s : State ι T) (t : ι) : Prop :=
  ∀ u ≠ t, (s.pc u).committed = false ∧ (s.pc u).holding = false

omit [DecidableEq ι] [Inhabited T] in
theorem quiet_of_free (hc : Counters s) (hm : s.shared.parkMtx = none)
    (hq : ∀ u, (s.pc u).committed = false) (t : ι) : s.Quiet t := by
  refine fun u _ => ⟨hq u, ?_⟩
  by_contra hu
  have := (hc.mutex u).mp (by simpa using hu)
  rw [hm] at this
  cases this

/-- **The thread finds what it looks for**, when the steps of looking lower a rank. -/
theorem alone (h2 : 2 ≤ capacity) (ok : Shared ι T → ThreadPc T → Prop)
    (rank : Shared ι T → ThreadPc T → ℕ)
    (hcall : ∀ {g k}, ok g k → k.committed = false ∧ k.inCall = true ∧ k ≠ .pop .waiting)
    (hstep : ∀ {s : State ι T} {g' k'}, RingInv s.shared.core (fun u => (s.pc u).ring) →
      s.shared.core.tailClaims.length < 2 ^ 63 → (∀ u, (s.pc u).committed = false) →
      ok s.shared (s.pc t) → threadStep maxSpinners t ⟨false, default, none⟩ s.shared (s.pc t) =
        some (g', k', .nobody) → g'.core = s.shared.core → k'.committed = false →
      k'.cost = (s.pc t).cost → ok g' k' ∧ rank g' k' < rank s.shared (s.pc t))
    (h : (queueMachine ι capacity maxSpinners).Reachable s)
    (hb : s.shared.core.tailClaims.length < 2 ^ 63) (hq : s.Quiet t) (hok : ok s.shared (s.pc t)) :
    ∃ s', (queueMachine ι capacity maxSpinners).Leads Onward s s' ∧ s'.cost < s.cost := by
  refine (Machine.Leads.of_rank (P := fun s' => s'.cost < s.cost ∨
    (queueMachine ι capacity maxSpinners).Reachable s' ∧ s'.shared.core.tailClaims.length < 2 ^ 63 ∧
      s'.Quiet t ∧ ok s'.shared (s'.pc t) ∧ s'.cost = s.cost)
    (fun s' => rank s'.shared (s'.pc t)) ?_ (.inr ⟨h, hb, hq, hok, rfl⟩)).imp
    fun s' ⟨hs', _, hlt⟩ => ⟨hs', hlt⟩
  rintro s' (hlt | ⟨hr, hb, hq, hok, he⟩) hg
  · exact absurd hlt hg
  obtain ⟨h1, h2', h3⟩ := hcall hok
  have hc := counters_of_reachable hr
  have hm : (s'.pc t).locking = true → s'.shared.parkMtx = none := by
    intro hl
    by_contra hm
    obtain ⟨v, hv⟩ := Option.ne_none_iff_exists'.mp hm
    have hhold := (hc.mutex v).mpr hv
    rcases eq_or_ne v t with rfl | hne
    · rw [(ThreadPc.of_holding hhold).2.2.1] at hl
      cases hl
    · rw [(hq v hne).2] at hhold
      cases hhold
  obtain ⟨a, g', k, w, pc', ha, hs, hl, hw⟩ := exists_onward capacity maxSpinners h2' h3 hm
  refine ⟨_, .single ha hs, ?_⟩
  rcases onward_cost h2 hr hb (local_of_threadStep hl) hw with hlt | ⟨-, hk, hkc, hcore, rfl, hcost⟩
  · exact ⟨.inl (by omega), .inl (by omega)⟩
  · obtain rfl := hw.nobody rfl
    have hall : ∀ u, (s'.pc u).committed = false := by
      intro u
      rcases eq_or_ne u t with rfl | hne
      · exact h1
      · exact (hq u hne).1
    obtain ⟨hok', hlt⟩ := hstep (ringInv h2 hr hb) hb hall hok hl hcore hk hkc
    refine ⟨.inr ⟨hr.step trivial hs, by dsimp only; rw [hcore]; exact hb, fun u hu => ?_, ?_, ?_⟩,
      .inr ?_⟩
    · dsimp only
      rw [Function.update_of_ne hu]
      exact hq u hu
    · dsimp only
      rw [Function.update_self]
      exact hok'
    · omega
    · dsimp only
      rw [Function.update_self]
      exact hlt

/-! ### A push -/

/-- The steps up to the claim of a cell that is there, or to a refusal. -/
def enterSteps (g : Shared ι T) : ThreadPc T → ℕ
  | .push _ .enter => 12
  | .push _ .checkShutdown => 11
  | .push _ .recheckShutdown => 7
  | .push _ (.tryPush .load) => 5
  | .push _ (.tryPush (.loadSeq pos)) => if pos = g.core.ring.tail then 4 else 10
  | .push _ (.tryPush (.cas pos)) => if pos = g.core.ring.tail then 3 else 6
  | _ => 0

/-- A `push` that is left alone finds a cell if there is one, or finds the queue shut down. -/
theorem push_alone (h2 : 2 ≤ capacity) (h : (queueMachine ι capacity maxSpinners).Reachable s)
    (hb : s.shared.core.tailClaims.length < 2 ^ 63) (hq : s.Quiet t) {x : T} {p : PushAt}
    (ht : s.pc t = .push x p) (hc : (s.pc t).committed = false)
    (hroom : s.shared.core.pending < s.shared.core.ring.capacity) :
    ∃ s', (queueMachine ι capacity maxSpinners).Leads Onward s s' ∧ s'.cost < s.cost := by
  refine alone (t := t) h2 (fun g k => (∃ x p, k = .push x p) ∧ k.committed = false ∧
    g.core.pending < g.core.ring.capacity) enterSteps ?_ ?_ h hb hq
    ⟨⟨x, p, ht⟩, hc, hroom⟩
  · rintro g k ⟨⟨x, p, rfl⟩, hk, -⟩
    exact ⟨hk, rfl, by simp⟩
  rintro s g' k' hr hb hall ⟨⟨x, p, ht⟩, -, hroom⟩ hl hcore hk -
  have ht0 := hall t
  rw [ht] at hl ht0 ⊢
  cases p with
  | enter =>
    cases hl
    exact ⟨⟨⟨x, _, rfl⟩, rfl, hroom⟩, Nat.lt_succ_self 11⟩
  | checkShutdown =>
    cases hl
    cases hsd : s.shared.shutdown with
    | true => simp [hsd, ThreadPc.committed, PushAt.cost] at hk
    | false =>
      simp only [hsd, Bool.false_eq_true, if_false] at hk ⊢
      exact ⟨⟨⟨x, _, rfl⟩, hk, hroom⟩, by simp [enterSteps]⟩
  | recheckShutdown =>
    cases hl
    cases hsd : s.shared.shutdown with
    | true => simp [hsd, ThreadPc.committed, PushAt.cost] at hk
    | false =>
      simp only [hsd, Bool.false_eq_true, if_false] at hk ⊢
      exact ⟨⟨⟨x, _, rfl⟩, hk, hroom⟩, by simp [enterSteps]⟩
  | tryPush p =>
    have hdiff := hr.diff_tail hb
    rw [← hr.tail_eq] at hdiff
    cases p with
    | load =>
      cases hl
      exact ⟨⟨⟨x, _, rfl⟩, hk, hroom⟩, by simp [enterSteps]⟩
    | loadSeq pos =>
      simp only [threadStep, pushAtStep, pushStep] at hl
      by_cases h0 : diff (s.shared.core.ring.cell pos).seq pos = 0
      · rw [if_pos h0] at hl
        cases hl
        refine ⟨⟨⟨x, _, rfl⟩, hk, hroom⟩, ?_⟩
        simp only [enterSteps]
        split <;> omega
      · by_cases h1 : diff (s.shared.core.ring.cell pos).seq pos < 0
        · rw [if_neg h0, if_pos h1] at hl
          cases hl
          refine ⟨⟨⟨x, _, rfl⟩, hk, hroom⟩, ?_⟩
          simp only [enterSteps]
          -- the verdict was on a `tail_` that has moved
          have hpos : pos ≠ s.shared.core.ring.tail := by
            rintro rfl
            rw [hr.tail_eq] at h1
            exact hr.not_full_of_quiet hall hroom h1
          rw [if_neg hpos]
          omega
        · rw [if_neg h0, if_neg h1] at hl
          cases hl
          have hpos : pos ≠ s.shared.core.ring.tail := by
            rintro rfl
            omega
          exact ⟨⟨⟨x, _, rfl⟩, hk, hroom⟩, by simp [enterSteps, hpos]⟩
    | cas pos =>
      simp only [threadStep, pushAtStep, pushStep] at hl
      by_cases hpos : s.shared.core.ring.tail = pos
      · rw [if_pos ⟨hpos, trivial⟩] at hl
        cases hl
        cases hk
      · rw [if_neg fun h => hpos h.1] at hl
        cases hl
        exact ⟨⟨⟨x, _, rfl⟩, hk, hroom⟩, by simp [enterSteps, Ne.symm hpos]⟩
    | _ => cases ht0
  | _ => cases ht0

/-! ### A pop -/

/-- Not about to block on a ring with more claims than `head`. -/
def PopAt.alert (head : ℕ) : PopAt T → Bool
  | .loadHead tl => decide (head < tl)
  | .predShutdown _ => false
  | .park _ => false
  | .waiting => false
  | _ => true

omit [Fintype ι] [DecidableEq ι] [Inhabited T] in
theorem Attended.alert {worker : ι → Prop} (h : Attended worker s) {p : PopAt T}
    (ht : s.pc t = .pop p) (ha : (s.pc t).asleep s.shared.core.headClaims.length = false) :
    p.alert s.shared.core.headClaims.length = true := by
  have hsaw := h.sawNone t
  rw [ht] at ha hsaw
  cases p with
  | loadHead tl => simpa [ThreadPc.asleep, ThreadPc.isWaiting, ThreadPc.looked, PopAt.alert] using ha
  | predShutdown tl =>
    have := hsaw tl rfl
    simp [ThreadPc.asleep, ThreadPc.isWaiting, ThreadPc.looked] at ha
    omega
  | park tl =>
    have := hsaw tl rfl
    simp [ThreadPc.asleep, ThreadPc.isWaiting, ThreadPc.looked] at ha
    omega
  | waiting => cases ha
  | _ => rfl

/-- The steps up to the claim of an item that is there. -/
def seekSteps (g : Shared ι T) : ThreadPc T → ℕ
  | .pop .readShutdown => 20
  | .pop .readInFlight => 19
  | .pop .giveUp => 18
  | .pop .lock => 17
  | .pop .woken => 17
  | .pop .loadTail => 16
  | .pop (.loadHead _) => 15
  | .pop .unlock => 14
  | .pop .awake => 13
  | .pop .takeSlot => 12
  | .pop (.relax _) => 12
  | .pop .giveSlot => 11
  | .pop .announce => 10
  | .pop (.tryPop _ p) => (RingPc.pop p).popSteps g.core.ring.head
  | _ => 0

omit [Fintype ι] [DecidableEq ι] in
theorem popSteps_alone (hr : RingInv s.shared.core fun u => (s.pc u).ring)
    (hb : s.shared.core.tailClaims.length < 2 ^ 63) {site : Site} {p p' : PopPc T}
    (ht : s.pc t = .pop (.tryPop site p))
    (hp : popStep t false default s.shared.core p = (s.shared.core, .inl p')) :
    (RingPc.pop p').popSteps s.shared.core.ring.head <
      (RingPc.pop p).popSteps s.shared.core.ring.head := by
  have hring : ringStep t false default s.shared.core (s.pc t).ring =
      some (s.shared.core, .pop p') := by
    rw [ht]
    simp [ThreadPc.ring, ringStep, hp]
  have := hr.popSteps_step hb (t := t) (by rw [ht]; rfl) hring
  rw [ht] at this
  simpa [ThreadPc.ring, Nat.succ_le_iff] using this

/-- A `pop` that is left alone, and not about to block, finds an item if there is one. -/
theorem pop_alone (h2 : 2 ≤ capacity) (h : (queueMachine ι capacity maxSpinners).Reachable s)
    (hb : s.shared.core.tailClaims.length < 2 ^ 63) (hq : s.Quiet t) {p : PopAt T}
    (ht : s.pc t = .pop p) (hc : (s.pc t).committed = false)
    (hp : p.alert s.shared.core.headClaims.length = true)
    (hlt : s.shared.core.headClaims.length < s.shared.core.tailClaims.length) :
    ∃ s', (queueMachine ι capacity maxSpinners).Leads Onward s s' ∧ s'.cost < s.cost := by
  refine alone (t := t) h2 (fun g k => (∃ p, k = .pop p ∧
    p.alert g.core.headClaims.length = true) ∧ k.committed = false ∧
      g.core.headClaims.length < g.core.tailClaims.length) seekSteps ?_ ?_ h hb hq
    ⟨⟨p, ht, hp⟩, hc, hlt⟩
  · rintro g k ⟨⟨p, rfl, hp⟩, hk, -⟩
    refine ⟨hk, rfl, fun he => ?_⟩
    cases he
    cases hp
  rintro s g' k' hr hb hall ⟨⟨p, ht, hp⟩, -, hlt⟩ hl hcore hk -
  have ht0 := hall t
  have hseek : ∀ p', k' = .pop p' → p'.alert g'.core.headClaims.length = true →
      seekSteps g' k' < seekSteps s.shared (s.pc t) →
      ((∃ p, k' = .pop p ∧ p.alert g'.core.headClaims.length = true) ∧ k'.committed = false ∧
        g'.core.headClaims.length < g'.core.tailClaims.length) ∧
          seekSteps g' k' < seekSteps s.shared (s.pc t) :=
    fun p' he ha hs => ⟨⟨⟨p', he, ha⟩, hk, by rw [hcore]; exact hlt⟩, hs⟩
  rw [ht] at hl ht0 hseek ⊢
  cases p with
  | takeSlot =>
    cases hl
    refine hseek _ rfl ?_ ?_ <;> split <;> first | rfl | simp [seekSteps, RingPc.popSteps]
  | tryPop site p =>
    simp only [threadStep, popAtStep] at hl
    split at hl
    · next core p' hp' =>
      cases hl
      obtain rfl : core = s.shared.core := hcore
      exact hseek _ rfl rfl (popSteps_alone hr hb ht hp')
    · next core item hp' =>
      obtain ⟨pos, rfl, rfl⟩ := popStep_some hp'
      cases ht0
    · next core hp' =>
      obtain ⟨pos, rfl, rfl, hd⟩ := popStep_none hp'
      have hpos := hr.pcOk t
      rw [ht] at hpos
      exact absurd hd (hr.not_empty_of_quiet hall hb hlt hpos)
  | relax i =>
    cases hl
    refine hseek _ rfl ?_ ?_ <;> split <;> first | rfl | simp [seekSteps, RingPc.popSteps]
  | giveSlot =>
    cases hl
    exact hseek _ rfl rfl (Nat.lt_succ_self 10)
  | announce =>
    cases hl
    exact hseek _ rfl rfl (by simp [seekSteps, RingPc.popSteps])
  | readShutdown =>
    cases hl
    refine hseek _ rfl ?_ ?_ <;> split <;> first | rfl | simp [seekSteps]
  | readInFlight =>
    cases hl
    refine hseek _ rfl ?_ ?_ <;> split <;> first | rfl | simp [seekSteps]
  | giveUp =>
    cases hl
    exact hseek _ rfl rfl (by simp [seekSteps, RingPc.popSteps])
  | lock =>
    simp only [threadStep, popAtStep] at hl
    split at hl
    · cases hl
      exact hseek _ rfl rfl (Nat.lt_succ_self 16)
    · cases hl
  | loadTail =>
    cases hl
    refine hseek _ rfl ?_ (Nat.lt_succ_self 15)
    simpa [PopAt.alert, hr.tail_eq] using hlt
  | loadHead tl =>
    cases hl
    have htl : s.shared.core.ring.head < tl := by
      rw [hr.head_eq]
      simpa [PopAt.alert] using hp
    rw [if_pos htl] at hseek ⊢
    exact hseek _ rfl rfl (Nat.lt_succ_self 14)
  | woken =>
    simp only [threadStep, popAtStep] at hl
    split at hl
    · cases hl
      exact hseek _ rfl rfl (Nat.lt_succ_self 16)
    · cases hl
  | unlock =>
    cases hl
    exact hseek _ rfl rfl (Nat.lt_succ_self 13)
  | awake =>
    cases hl
    exact hseek _ rfl rfl (Nat.lt_succ_self 12)
  | spinOk item => cases ht0
  | recheckOk item => cases ht0
  | predShutdown tl => cases hp
  | park tl => cases hp
  | waiting => cases hp

/-! ### The last pop -/

/-- The steps behind a `try_pop` that finds the ring empty, up to the end. -/
def Site.after : Site → ℕ
  | .spin i => 20 + 9 * (kSpins - i)
  | .recheck => 10
  | .last => 0

/-- The steps up to the claim of an item, or to the end of a `pop` of a queue that is shut down. -/
def exitSteps (g : Shared ι T) : ThreadPc T → ℕ
  | .pop (.tryPop site p) => (RingPc.pop p).popSteps g.core.ring.head + site.after
  | .pop .giveUp => 8
  | .pop .readInFlight => 9
  | .pop .readShutdown => 10
  | .pop .announce => 18
  | .pop .giveSlot => 19
  | .pop (.relax i) => 20 + 9 * (kSpins - i)
  | .pop .takeSlot => 28 + 9 * kSpins
  | .pop .awake => 29 + 9 * kSpins
  | .pop .unlock => 30 + 9 * kSpins
  | .pop (.predShutdown _) => 31 + 9 * kSpins
  | .pop (.loadHead _) => 32 + 9 * kSpins
  | .pop .loadTail => 33 + 9 * kSpins
  | .pop .lock => 34 + 9 * kSpins
  | .pop .woken => 34 + 9 * kSpins
  | _ => 0

/-- A `pop` that is left alone, and not about to block, comes to an end when the queue is shut down and
nobody is in flight. -/
theorem exit_alone (h2 : 2 ≤ capacity) (h : (queueMachine ι capacity maxSpinners).Reachable s)
    (hb : s.shared.core.tailClaims.length < 2 ^ 63) (hq : s.Quiet t) {p : PopAt T}
    (ht : s.pc t = .pop p) (hc : (s.pc t).committed = false) (hw : p ≠ .waiting)
    (hp : ∀ tl, p ≠ .park tl) (hsd : s.shared.shutdown = true)
    (h0 : s.shared.pushersInFlight = 0) :
    ∃ s', (queueMachine ι capacity maxSpinners).Leads Onward s s' ∧ s'.cost < s.cost := by
  refine alone (t := t) h2 (fun g k => (∃ p, k = .pop p ∧ p ≠ .waiting ∧ ∀ tl, p ≠ .park tl) ∧
    k.committed = false ∧ g.shutdown = true ∧ g.pushersInFlight = 0) exitSteps ?_ ?_ h hb hq
    ⟨⟨p, ht, hw, hp⟩, hc, hsd, h0⟩
  · rintro g k ⟨⟨p, rfl, hw, -⟩, hk, -⟩
    exact ⟨hk, rfl, fun he => hw (ThreadPc.pop.inj he)⟩
  rintro s g' k' hr hb hall ⟨⟨p, ht, hw, hp⟩, -, hsd, h0⟩ hl hcore hk hcost
  have ht0 := hall t
  have hexit : ∀ p', k' = .pop p' → p' ≠ .waiting → (∀ tl, p' ≠ .park tl) → g'.shutdown = true →
      g'.pushersInFlight = 0 → exitSteps g' k' < exitSteps s.shared (s.pc t) →
      ((∃ p, k' = .pop p ∧ p ≠ .waiting ∧ ∀ tl, p ≠ .park tl) ∧ k'.committed = false ∧
        g'.shutdown = true ∧ g'.pushersInFlight = 0) ∧
          exitSteps g' k' < exitSteps s.shared (s.pc t) :=
    fun p' he h1 h2 h3 h4 hs => ⟨⟨⟨p', he, h1, h2⟩, hk, h3, h4⟩, hs⟩
  rw [ht] at hl ht0 hexit hcost ⊢
  cases p with
  | takeSlot =>
    cases hl
    refine hexit _ rfl ?_ (fun tl => ?_) hsd h0 ?_ <;> split <;>
      first | simp | (simp only [exitSteps, RingPc.popSteps, Site.after]; omega)
  | tryPop site p =>
    simp only [threadStep, popAtStep] at hl
    split at hl
    · next core p' hp' =>
      cases hl
      obtain rfl : core = s.shared.core := hcore
      refine hexit _ rfl (by simp) (by simp) hsd h0 ?_
      exact Nat.add_lt_add_right (popSteps_alone hr hb ht hp') _
    · next core item hp' =>
      obtain ⟨pos, rfl, rfl⟩ := popStep_some hp'
      cases ht0
    · next core hp' =>
      obtain ⟨pos, rfl, rfl, hd⟩ := popStep_none hp'
      cases hl
      have hpos : 5 ≤ (RingPc.pop (.loadSeq pos) : RingPc T).popSteps s.shared.core.ring.head := by
        simp only [RingPc.popSteps]
        split <;> omega
      cases site with
      | spin i =>
        refine hexit _ rfl (by simp) (by simp) hsd h0 ?_
        simp only [exitSteps, Site.onEmpty, Site.after]
        omega
      | recheck =>
        refine hexit _ rfl (by simp) (by simp) hsd h0 ?_
        simp only [exitSteps, Site.onEmpty, Site.after]
        omega
      | last => cases hcost
  | relax i =>
    cases hl
    refine hexit _ rfl ?_ (fun tl => ?_) hsd h0 ?_ <;> split <;>
      first | simp | (simp only [exitSteps, RingPc.popSteps, Site.after]; omega)
  | giveSlot =>
    cases hl
    exact hexit _ rfl (by simp) (by simp) hsd h0 (Nat.lt_succ_self 18)
  | announce =>
    cases hl
    exact hexit _ rfl (by simp) (by simp) hsd h0 (by simp [exitSteps, RingPc.popSteps, Site.after])
  | readShutdown =>
    cases hl
    rw [if_pos hsd] at hexit ⊢
    exact hexit _ rfl (by simp) (by simp) hsd h0 (Nat.lt_succ_self 9)
  | readInFlight =>
    cases hl
    rw [if_pos h0] at hexit ⊢
    exact hexit _ rfl (by simp) (by simp) hsd h0 (Nat.lt_succ_self 8)
  | giveUp =>
    cases hl
    exact hexit _ rfl (by simp) (by simp) hsd h0 (by simp [exitSteps, RingPc.popSteps, Site.after])
  | lock =>
    simp only [threadStep, popAtStep] at hl
    split at hl
    · cases hl
      refine hexit _ rfl (by simp) (by simp) hsd h0 ?_
      simp only [exitSteps]
      omega
    · cases hl
  | loadTail =>
    cases hl
    refine hexit _ rfl (by simp) (by simp) hsd h0 ?_
    simp only [exitSteps]
    omega
  | loadHead tl =>
    cases hl
    refine hexit _ rfl ?_ (fun tl => ?_) hsd h0 ?_ <;> split <;>
      first | simp | (simp only [exitSteps]; omega)
  | predShutdown tl =>
    cases hl
    rw [if_pos hsd] at hexit ⊢
    refine hexit _ rfl (by simp) (by simp) hsd h0 ?_
    simp only [exitSteps]
    omega
  | woken =>
    simp only [threadStep, popAtStep] at hl
    split at hl
    · cases hl
      refine hexit _ rfl (by simp) (by simp) hsd h0 ?_
      simp only [exitSteps]
      omega
    · cases hl
  | unlock =>
    cases hl
    refine hexit _ rfl (by simp) (by simp) hsd h0 ?_
    simp only [exitSteps]
    omega
  | awake =>
    cases hl
    refine hexit _ rfl (by simp) (by simp) hsd h0 ?_
    simp only [exitSteps]
    omega
  | spinOk item => cases ht0
  | recheckOk item => cases ht0
  | park tl => exact absurd rfl (hp tl)
  | waiting => exact absurd rfl hw

/-! ### After `shutdown()` -/

omit [Fintype ι] [DecidableEq ι] in
theorem Local.flag {g g' : Shared ι T} {k k' : ThreadPc T} {w : Wake}
    (h : Local maxSpinners t g k g' k' w) (hg' : g'.shutdown = true) :
    g.shutdown = true ∨ k' = .shutdown .lock := by
  cases h
  case store => exact .inr rfl
  all_goals exact .inl hg'

omit [Fintype ι] [DecidableEq ι] in
theorem Local.closing {g g' : Shared ι T} {k k' : ThreadPc T} {w : Wake} {p : ShutdownAt}
    (h : Local maxSpinners t g k g' k' w) (hk : k = .shutdown p) :
    (∃ p, k' = .shutdown p) ∨ k' = .returned .shutDown := by
  subst hk
  cases h <;> first | exact .inl ⟨_, rfl⟩ | exact .inr rfl

/-- With the flag set, nobody will block any more, or a `shutdown()` is still at work. -/
theorem shut_of_reachable (h : (queueMachine ι capacity maxSpinners).Reachable s)
    (hsd : s.shared.shutdown = true) : s.Shut ∨ ∃ t p, s.pc t = .shutdown p := by
  induction h with
  | init hi =>
    obtain ⟨r, -, rfl⟩ := hi
    cases hsd
  | @step s s' a hr _ hs ih =>
    have hstages := stages_of_reachable (hr.step trivial hs)
    have hkeep : s.shared.shutdown = true → s'.Shut ∨ ∃ t p, s.pc t = .shutdown p := fun h =>
      (ih h).imp_left fun h => h.step hs
    obtain ⟨t, c, rfl, ht, rfl⟩ | ⟨t, ch, g', k, w, pc', rfl, hl, hw, rfl⟩ | ⟨t, r, rfl, ht, rfl⟩ :=
      step_cases hs
    · refine (hkeep hsd).imp_right fun ⟨u, p, hu⟩ => ⟨u, p, ?_⟩
      have hne : u ≠ t := by
        rintro rfl
        rw [ht] at hu
        cases hu
      dsimp only
      rwa [Function.update_of_ne hne]
    · rcases hl.flag hsd with hold | hk
      · refine (hkeep hold).elim .inl fun ⟨u, p, hu⟩ => ?_
        rcases eq_or_ne u t with rfl | hne
        · rcases hl.closing hu with ⟨p', hk⟩ | hk
          · exact .inr ⟨u, p', by dsimp only; rw [Function.update_self, hk]⟩
          · -- this one has woken everybody
            have h3 : 3 ≤ (Function.update pc' u k u).stage := by
              rw [Function.update_self, hk]
              exact le_rfl
            exact .inl ⟨hsd, hstages.noPark u (by dsimp only; omega), hstages.noWait u h3⟩
        · refine .inr ⟨u, p, ?_⟩
          dsimp only
          rw [Function.update_of_ne hne]
          rcases hw.cases u with he | ⟨he, -⟩
          · rw [he, hu]
          · rw [hu] at he
            cases he
      · exact .inr ⟨t, .lock, by dsimp only; rw [Function.update_self, hk]⟩
    · refine (hkeep hsd).imp_right fun ⟨u, p, hu⟩ => ⟨u, p, ?_⟩
      have hne : u ≠ t := by
        rintro rfl
        rw [ht] at hu
        cases hu
      dsimp only
      rwa [Function.update_of_ne hne]

end

end OrderRisk.Queue
