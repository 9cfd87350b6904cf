import Mathlib.Order.Interval.Finset.Nat
import OrderRisk.Queue.Roles

/-!
# The balance of the items and the awake workers

`Balanced` is what keeps an item from being left behind a running job while a worker sleeps: as long
as somebody is blocked, the items that are left to the workers are at most the workers that will
look at the ring, and they will be so once the thread in the wait predicate has blocked too.

An item is left to the workers when its push has returned.  A push that is still under way may be
counted as a notification to come; then it stands for one item, its own or another one.  From where
on a push counts is the parameter `owes`.
-/

namespace OrderRisk.Queue

open OrderRisk.Lib

variable {ι T : Type*}

/-! ### The pushes that count -/

/-- The position whose item the push has published, until the push returns. -/
def ThreadPc.owing : ThreadPc T → Option ℕ
  | .push _ (.leave pos) => some pos
  | .push _ (.readSleepers pos) => some pos
  | .push _ (.readSpinners pos) => some pos
  | .push _ (.lock pos) => some pos
  | .push _ (.unlock pos) => some pos
  | .push _ (.notify pos) => some pos
  | _ => none

/-- `owes` counts pushes from some point behind their claim to their return. -/
structure Owing (ι : Type*) [Inhabited T] (owes : ThreadPc T → Option ℕ) : Prop where
  claimed : ∀ k pos, owes k = some pos → k.claimed = some pos
  kept : ∀ (maxSpinners : ℤ) (t : ι) g k g' k' w, Local maxSpinners t g k g' k' w →
    ∀ pos, owes k = some pos → k'.claimed = none ∨ owes k' = some pos
  late : ∀ (maxSpinners : ℤ) (t : ι) g k g' k' w, Local maxSpinners t g k g' k' w →
    k.claimed = none → owes k' = none

theorem Owing.of_unclaimed [Inhabited T] {owes : ThreadPc T → Option ℕ} (ho : Owing ι owes)
    {k : ThreadPc T} (h : k.claimed = none) : owes k = none :=
  Option.eq_none_iff_forall_ne_some.mpr fun pos hp => by simp [ho.claimed _ _ hp] at h

theorem owing_none [Inhabited T] : Owing ι (fun _ : ThreadPc T => none) :=
  ⟨by simp, by simp, by simp⟩

theorem owing_owing [Inhabited T] : Owing ι (ThreadPc.owing (T := T)) where
  claimed k pos h := by
    unfold ThreadPc.owing at h
    split at h <;> first | exact h | cases h
  kept maxSpinners t g k g' k' w hl pos h := by
    cases hl
    case release site pos item => cases site <;> exact .inr h
    case empty site pos hd => cases site <;> exact .inr h
    all_goals first | exact .inr h | exact .inl rfl | cases h
  late maxSpinners t g k g' k' w hl h := by
    cases hl
    case release site pos item => cases site <;> rfl
    case empty site pos hd => cases site <;> rfl
    all_goals first | rfl | cases h

/-! ### The balance -/

section

variable [Fintype ι]

/-- Threads that will look at the ring before they run a job or block. -/
def State.searching (s : State ι T) : ℤ := count (· = .searching) s.pc

/-- Threads in a wait predicate that is about to find work. -/
def State.sighted (s : State ι T) : ℤ := count (Role.sees s.shared.core.headClaims.length) s.pc

def State.blocked (s : State ι T) : ℤ := count (· = .blocked) s.pc

variable (owes : ThreadPc T → Option ℕ)

/-- The push that claimed position `j` has returned, or counts. -/
def State.Offered (s : State ι T) (j : ℕ) : Prop :=
  ∀ t, (s.pc t).claimed = some j → owes (s.pc t) = some j

instance (s : State ι T) (j : ℕ) : Decidable (s.Offered owes j) :=
  inferInstanceAs (Decidable (∀ t, (s.pc t).claimed = some j → owes (s.pc t) = some j))

/-- The unclaimed items that are offered, from position `tl` on. -/
def State.unseen (s : State ι T) (tl : ℕ) : Finset ℕ :=
  {j ∈ Finset.Ico s.shared.core.headClaims.length s.shared.core.tailClaims.length |
    tl ≤ j ∧ s.Offered owes j}

/-- The pushes that count, of positions from `tl` on. -/
def State.owed (s : State ι T) (tl : ℕ) : ℤ := weight (fun k => (owes k).any (tl ≤ ·)) s.pc

/-- The items from `tl` on that are left to the workers, and not to a push. -/
def State.unmet (s : State ι T) (tl : ℕ) : ℤ := (s.unseen owes tl).card - s.owed owes tl

/-- How many unclaimed positions a `tail_` loaded as `tl` shows. -/
def State.shown (s : State ι T) (tl : ℕ) : ℕ := tl - s.shared.core.headClaims.length

/-- Every item that is left to the workers has a thread that will look at the ring, or nobody is
blocked. -/
def State.Watched (s : State ι T) : Prop :=
  s.blocked = 0 ∨ s.unmet owes 0 ≤ s.searching + s.sighted

/-- The same, when the positions shown by `tl` have been taken and the thread that has loaded it is
blocked too. -/
def State.Backed (s : State ι T) (tl : ℕ) : Prop :=
  s.unmet owes tl ≤ 0 ∨ s.unmet owes tl + s.shown tl ≤ s.searching

structure Balanced (s : State ι T) : Prop where
  watched : s.Watched owes
  backed : ∀ u tl, (s.pc u).looked = some tl → s.Backed owes tl

/-- The item of position `j` can be left to the awake workers, or one of them to it. -/
structure State.CanSpare (s : State ι T) (j : ℕ) : Prop where
  watched : s.blocked = 0 ∨ s.unmet owes 0 < s.searching + s.sighted
  backed : ∀ u tl, (s.pc u).looked = some tl → tl ≤ j →
    s.unmet owes tl < 0 ∨ s.unmet owes tl + s.shown tl < s.searching

variable {owes} {s s' : State ι T} {t : ι} {g' : Shared ι T} {k : ThreadPc T} {w : Wake}
  {pc' : ι → ThreadPc T} {maxSpinners : ℤ} {tl : ℕ}

theorem State.mem_unseen {j : ℕ} : j ∈ s.unseen owes tl ↔
    (s.shared.core.headClaims.length ≤ j ∧ j < s.shared.core.tailClaims.length) ∧ tl ≤ j ∧
      s.Offered owes j := by
  simp [State.unseen]

theorem State.owed_nonneg (s : State ι T) (owes : ThreadPc T → Option ℕ) (tl : ℕ) :
    0 ≤ s.owed owes tl := weight_nonneg _ _

theorem State.owed_anti (s : State ι T) (owes : ThreadPc T → Option ℕ) {tl' : ℕ} (h : tl ≤ tl') :
    s.owed owes tl' ≤ s.owed owes tl :=
  weight_mono fun u hu => by
    rw [Option.any_eq_true] at hu
    obtain ⟨pos, hpos, hle⟩ := hu
    simp [hpos, h.trans (of_decide_eq_true hle)]

/-- All the unclaimed items are behind `head_`. -/
theorem State.unmet_le (s : State ι T) (owes : ThreadPc T → Option ℕ)
    (h : tl ≤ s.shared.core.headClaims.length) :
    s.unmet owes 0 ≤ s.unmet owes tl := by
  have hcard : s.unseen owes 0 ⊆ s.unseen owes tl := fun j hj => by
    obtain ⟨hin, -, hoff⟩ := mem_unseen.mp hj
    exact mem_unseen.mpr ⟨hin, h.trans hin.1, hoff⟩
  have := Finset.card_le_card hcard
  have := s.owed_anti owes (Nat.zero_le tl)
  unfold State.unmet
  omega

/-- Where `tl` or `head_` is behind all there is. -/
theorem State.unmet_nonpos (h : s.shared.core.tailClaims.length ≤ tl ∨
    s.shared.core.tailClaims.length ≤ s.shared.core.headClaims.length) :
    s.unmet owes tl ≤ 0 := by
  have hz : s.unseen owes tl = ∅ := Finset.eq_empty_of_forall_notMem fun j hj => by
    obtain ⟨hin, hle, -⟩ := mem_unseen.mp hj
    omega
  have := s.owed_nonneg owes tl
  rw [State.unmet, hz, Finset.card_empty]
  omega

theorem Counters.look (h : Counters s) {u : ι} {tl : ℕ} (hu : (s.pc u).looked = some tl) :
    s.shared.parkMtx = some u ∧ 0 < s.shared.sleepers := by
  refine ⟨(h.mutex u).mp (ThreadPc.holding_of_looked hu), ?_⟩
  rw [h.sleepers]
  exact weight_pos (ThreadPc.sleeping_of_looked hu)

theorem Counters.look_unique (h : Counters s) {u v : ι} {tl tl' : ℕ}
    (hu : (s.pc u).looked = some tl) (hv : (s.pc v).looked = some tl') : u = v := by
  have := (h.look hu).1.symm.trans (h.look hv).1
  simpa using this

/-! ### A step, as the counts see it -/

/-- Thread `t` goes from role `r` to role `r'` and wakes `d` threads. -/
structure Turn (s s' : State ι T) (t : ι) (r r' : Role) (d : ℤ) : Prop where
  before : (s.pc t).role = r
  after : (s'.pc t).role = r'
  others : ∀ u, u ≠ t → (s'.pc u).looked = (s.pc u).looked ∧
    ∀ head, (s'.pc u).role.sees head = (s.pc u).role.sees head
  searching : s'.searching =
    s.searching - (if r = .searching then 1 else 0) + (if r' = .searching then 1 else 0) + d
  blocked : s'.blocked =
    s.blocked - (if r = .blocked then 1 else 0) + (if r' = .blocked then 1 else 0) - d
  sighted : s'.shared.core.headClaims.length = s.shared.core.headClaims.length →
    s'.sighted = s.sighted - (if r.sees s.shared.core.headClaims.length then 1 else 0) +
      (if r'.sees s.shared.core.headClaims.length then 1 else 0)

section

variable [DecidableEq ι]

/-- A step is a turn; only who was in no part of `pop` wakes others. -/
theorem Woken.turn (g' : Shared ι T) (k : ThreadPc T) (hw : Woken s.pc w pc')
    (hwake : w ≠ .nobody → (s.pc t).role = .bystander) :
    ∃ d : ℤ, 0 ≤ d ∧ (w = .nobody → d = 0) ∧ (w = .one → 0 < s.blocked → 0 < d) ∧
      Turn s ⟨g', Function.update pc' t k⟩ t (s.pc t).role k.role d := by
  obtain ⟨d, hd, hs, hb, hsame, hone⟩ := hw.counts
  have hrole : (pc' t).role = (s.pc t).role := by
    rcases eq_or_ne w .nobody with rfl | hne
    · rw [hw.nobody rfl]
    · have hr := hwake hne
      rcases hw.cases t with he | ⟨he, -⟩
      · rw [he]
      · rw [he] at hr
        cases hr
  refine ⟨d, hd, ?_, hone, rfl, by simp, fun u hu => ?_, ?_, ?_, fun hh => ?_⟩
  · rintro rfl
    rw [hw.nobody rfl] at hs
    omega
  · simp only [Function.update_of_ne hu]
    exact ⟨hw.same rfl u, fun head => hw.same (f := fun k => k.role.sees head) rfl u⟩
  · simp only [State.searching, count_update, hs, hrole, decide_eq_true_eq]
    omega
  · simp only [State.blocked, count_update, hb, hrole, decide_eq_true_eq]
    omega
  · dsimp only at hh
    simp only [State.sighted, hh, count_update, hrole, hsame (Role.sees _) rfl]

theorem Woken.owed [Inhabited T] (g' : Shared ι T) (k : ThreadPc T) (ho : Owing ι owes)
    (hw : Woken s.pc w pc') (tl : ℕ) :
    State.owed owes ⟨g', Function.update pc' t k⟩ tl = s.owed owes tl -
      (if (owes (s.pc t)).any (tl ≤ ·) then 1 else 0) +
        if (owes k).any (tl ≤ ·) then 1 else 0 :=
  hw.weight_update (by rw [ho.of_unclaimed rfl, ho.of_unclaimed rfl])

/-- What is unseen after a step was so before, if the step did not make it so. -/
theorem Woken.mem_unseen [Inhabited T] (g' : Shared ι T) (k : ThreadPc T) (tl : ℕ)
    (ho : Owing ι owes) (hw : Woken s.pc w pc')
    (hhead : s.shared.core.headClaims.length ≤ g'.core.headClaims.length) {j : ℕ}
    (hj : j ∈ State.unseen owes ⟨g', Function.update pc' t k⟩ tl)
    (hself : j < g'.core.tailClaims.length → (k.claimed = some j → owes k = some j) →
      j < s.shared.core.tailClaims.length ∧
        ((s.pc t).claimed = some j → owes (s.pc t) = some j)) :
    j ∈ s.unseen owes tl := by
  obtain ⟨⟨hge, hlt⟩, hle, hoff⟩ := State.mem_unseen.mp hj
  obtain ⟨hlt, ht⟩ := hself hlt (by simpa using hoff t)
  refine State.mem_unseen.mpr ⟨⟨hhead.trans hge, hlt⟩, hle, fun u hu => ?_⟩
  rcases eq_or_ne u t with rfl | hne
  · exact ht hu
  · have := hoff u
    simp only [Function.update_of_ne hne, hw.same (f := ThreadPc.claimed) rfl,
      hw.same (f := owes) (by rw [ho.of_unclaimed rfl, ho.of_unclaimed rfl])] at this
    exact this hu

omit [DecidableEq ι] in
theorem State.card_unseen_le {p : ℕ}
    (h : ∀ j ∈ s'.unseen owes tl, j ≠ p → j ∈ s.unseen owes tl) :
    ((s'.unseen owes tl).card : ℤ) ≤ (s.unseen owes tl).card + if tl ≤ p then 1 else 0 := by
  split
  · have hsub : s'.unseen owes tl ⊆ insert p (s.unseen owes tl) := fun j hj => by
      rcases eq_or_ne j p with rfl | hne
      · exact Finset.mem_insert_self j _
      · exact Finset.mem_insert_of_mem (h j hj hne)
    exact_mod_cast (Finset.card_le_card hsub).trans (Finset.card_insert_le p _)
  · have hsub : s'.unseen owes tl ⊆ s.unseen owes tl := fun j hj =>
      h j hj (by have := (mem_unseen.mp hj).2.1; omega)
    simpa using Finset.card_le_card hsub

/-- A step leaves no more to the workers, but for a push that returns: its item is theirs now, or it
has stood for another one. -/
theorem Local.unmet [Inhabited T] (ho : Owing ι owes)
    (hl : Local maxSpinners t s.shared (s.pc t) g' k w) (hw : Woken s.pc w pc')
    (hr : RingInv s.shared.core fun t => (s.pc t).ring) :
    (∀ tl, State.unmet owes ⟨g', Function.update pc' t k⟩ tl ≤ s.unmet owes tl) ∨
      ∃ pos, (s.pc t).claimed = some pos ∧ k.claimed = none ∧
        (s.shared.core.headClaims.length ≤ pos ∨ (owes (s.pc t)).isSome = true) ∧
        ∀ tl, State.unmet owes ⟨g', Function.update pc' t k⟩ tl ≤
          s.unmet owes tl + if tl ≤ pos then 1 else 0 := by
  obtain ⟨hhead, hclaims⟩ := hl.claims
  have hmem := fun tl j => hw.mem_unseen (t := t) (j := j) g' k tl ho hhead
  have howed := fun tl => hw.owed (t := t) g' k ho tl
  rcases hclaims with ⟨hlen, hk | ⟨hk, -, x, pos, hpos, -⟩⟩ | ⟨hlen, hn, hk⟩
  · -- the push goes on: it may begin to count, and its item with it
    refine .inl fun tl => ?_
    cases hold : owes (s.pc t) with
    | some p =>
      have hclaimed := ho.claimed _ _ hold
      have hnew : owes k = some p := (ho.kept _ _ _ _ _ _ _ hl p hold).resolve_left
        (by simp [hk, hclaimed])
      have hcard := Finset.card_le_card fun j hj => hmem tl j hj fun hlt hoff =>
        ⟨hlen ▸ hlt, fun hc => hold.trans (hclaimed.symm.trans hc)⟩
      have := howed tl
      simp only [hold, hnew] at this
      unfold State.unmet
      omega
    | none =>
      cases hnew : owes k with
      | none =>
        have hcard := Finset.card_le_card fun j hj => hmem tl j hj fun hlt hoff =>
          ⟨hlen ▸ hlt, fun hc => by simp [hnew, hk, hc] at hoff⟩
        have := howed tl
        simp only [hold, hnew] at this
        unfold State.unmet
        omega
      | some p =>
        have hcard := State.card_unseen_le (p := p) fun j hj hne => hmem tl j hj fun hlt hoff =>
          ⟨hlen ▸ hlt, fun hc => by
            have := hoff (hk.trans hc)
            simp [hnew, hne.symm] at this⟩
        have := howed tl
        simp only [hold, hnew, Option.any_none, Option.any_some, decide_eq_true_eq,
          Bool.false_eq_true, if_false] at this
        unfold State.unmet
        omega
  · -- the push returns
    have hnew := ho.of_unclaimed hk
    cases hold : owes (s.pc t) with
    | some p =>
      obtain rfl : pos = p := by simpa [hpos] using ho.claimed _ _ hold
      refine .inr ⟨pos, hpos, hk, .inr rfl, fun tl => ?_⟩
      have hcard := Finset.card_le_card fun j hj => hmem tl j hj fun hlt hoff =>
        ⟨hlen ▸ hlt, fun hc => hold.trans (hpos.symm.trans hc)⟩
      have := howed tl
      simp only [hold, hnew, Option.any_none, Option.any_some, decide_eq_true_eq,
        Bool.false_eq_true, if_false] at this
      unfold State.unmet
      omega
    | none =>
      have hbut : ∀ tl, ∀ j ∈ State.unseen owes ⟨g', Function.update pc' t k⟩ tl, j ≠ pos →
          j ∈ s.unseen owes tl := fun tl j hj hne => hmem tl j hj fun hlt hoff =>
        ⟨hlen ▸ hlt, fun hc => by simp [hpos, hne.symm] at hc⟩
      have hsame : ∀ tl, State.owed owes ⟨g', Function.update pc' t k⟩ tl = s.owed owes tl :=
        fun tl => by simp [howed tl, hold, hnew]
      rcases Nat.lt_or_ge pos s.shared.core.headClaims.length with hlt | hge
      · -- its item has been claimed
        refine .inl fun tl => ?_
        have hcard := Finset.card_le_card fun j hj => hbut tl j hj (by
          have : g'.core.headClaims.length ≤ j := (State.mem_unseen.mp hj).1.1
          omega)
        have := hsame tl
        unfold State.unmet
        omega
      · refine .inr ⟨pos, hpos, hk, .inl hge, fun tl => ?_⟩
        have hcard := State.card_unseen_le (hbut tl)
        have := hsame tl
        unfold State.unmet
        omega
  · -- the push claims a position, and does not count yet
    refine .inl fun tl => ?_
    have hold := ho.of_unclaimed hn
    have hnew : owes k = none := ho.late _ _ _ _ _ _ _ hl hn
    have hcard := Finset.card_le_card fun j hj => hmem tl j hj fun hlt hoff => by
      rw [hk, hr.tail_eq, hnew] at hoff
      have : j ≠ s.shared.core.tailClaims.length := fun he => by simp [he] at hoff
      exact ⟨by omega, fun hc => by simp [hn] at hc⟩
    have := howed tl
    simp only [hold, hnew] at this
    unfold State.unmet
    omega

/-- A worker takes an item that is offered: one less from any position up to it. -/
theorem Local.unmet_taken [Inhabited T] (ho : Owing ι owes)
    (hl : Local maxSpinners t s.shared (s.pc t) g' k w) (hw : Woken s.pc w pc')
    (ht : (s.pc t).claimed = none)
    (htail : g'.core.tailClaims.length = s.shared.core.tailClaims.length)
    (hhead : g'.core.headClaims.length = s.shared.core.headClaims.length + 1)
    (hlt : s.shared.core.headClaims.length < s.shared.core.tailClaims.length)
    (hoff : s.Offered owes s.shared.core.headClaims.length)
    (hle : tl ≤ s.shared.core.headClaims.length) :
    State.unmet owes ⟨g', Function.update pc' t k⟩ tl + 1 ≤ s.unmet owes tl := by
  have hk : k.claimed = none := by
    rcases hl.claims.2 with ⟨-, hk | ⟨hk, -⟩⟩ | ⟨hlen, -⟩
    · rw [hk, ht]
    · exact hk
    · omega
  have howed := hw.owed (t := t) g' k ho tl
  simp only [ho.of_unclaimed ht, ho.of_unclaimed hk, Option.any_none, Bool.false_eq_true, if_false] at howed
  have hmem : s.shared.core.headClaims.length ∈ s.unseen owes tl :=
    State.mem_unseen.mpr ⟨⟨le_rfl, hlt⟩, hle, hoff⟩
  have hsub : State.unseen owes ⟨g', Function.update pc' t k⟩ tl ⊆
      (s.unseen owes tl).erase s.shared.core.headClaims.length := fun j hj => by
    have hge : g'.core.headClaims.length ≤ j := (State.mem_unseen.mp hj).1.1
    exact Finset.mem_erase.mpr ⟨by omega, hw.mem_unseen g' k tl ho (by omega) hj fun hlt _ =>
      ⟨by omega, fun hc => by simp [ht] at hc⟩⟩
  have hcard := Finset.card_le_card hsub
  rw [Finset.card_erase_of_mem hmem] at hcard
  have hpos := Finset.card_pos.mpr ⟨_, hmem⟩
  unfold State.unmet
  omega

end

/-! ### The kinds of step -/

variable {r r' : Role} {d : ℤ}

omit [Fintype ι] in
theorem State.shown_of_head (tl : ℕ)
    (hhead : s'.shared.core.headClaims.length = s.shared.core.headClaims.length) :
    s'.shown tl = s.shown tl := by
  rw [State.shown, State.shown, hhead]

theorem State.Watched.mono (h : s.Watched owes) (hu : s'.unmet owes 0 ≤ s.unmet owes 0)
    (hb : s'.blocked ≠ 0 → s.blocked ≠ 0)
    (hs : s.searching + s.sighted ≤ s'.searching + s'.sighted) : s'.Watched owes := by
  unfold State.Watched at h ⊢
  omega

theorem State.Backed.mono (h : s.Backed owes tl) (hu : s'.unmet owes tl ≤ s.unmet owes tl)
    (hhead : s'.shared.core.headClaims.length = s.shared.core.headClaims.length)
    (hs : s.searching ≤ s'.searching) : s'.Backed owes tl := by
  unfold State.Backed at h ⊢
  rw [State.shown_of_head tl hhead]
  omega

theorem Turn.looked (h : Turn s s' t r r' d) (hr : r'.look = none ∨ r'.look = r.look) {u : ι}
    {tl : ℕ} (hu : (s'.pc u).looked = some tl) : (s.pc u).looked = some tl := by
  rcases eq_or_ne u t with rfl | hne
  · rw [← ThreadPc.look_role, h.after] at hu
    rcases hr with hr | hr
    · rw [hr] at hu
      cases hu
    · rw [← ThreadPc.look_role, h.before, ← hr, hu]
  · rw [← (h.others u hne).1, hu]

/-- A step that leaves no more to the workers, of a thread that keeps its part, comes to look at the
ring, or finds it empty. -/
theorem Balanced.keep (h : Balanced owes s) (hd : 0 ≤ d) (ht : Turn s s' t r r' d)
    (hhead : s'.shared.core.headClaims.length = s.shared.core.headClaims.length)
    (hu : ∀ tl, s'.unmet owes tl ≤ s.unmet owes tl) (hr : r' = r ∨ r' = .searching ∨
      ∃ tl, r = .looking tl ∧ r' = .stale tl ∧ tl ≤ s.shared.core.headClaims.length) :
    Balanced owes s' := by
  have hS := ht.searching
  have hB := ht.blocked
  have hG := ht.sighted hhead
  have hB' : 0 ≤ s'.blocked := count_nonneg
  obtain ⟨hs, hg, hb, hl⟩ : s.searching ≤ s'.searching ∧
      s.searching + s.sighted ≤ s'.searching + s'.sighted ∧ s'.blocked ≤ s.blocked ∧
        (r'.look = none ∨ r'.look = r.look) := by
    rcases hr with rfl | rfl | ⟨tl, rfl, rfl, htl⟩
    · exact ⟨by omega, by omega, by omega, .inr rfl⟩
    · cases r <;> simp [Role.sees] at hS hB hG
      case looking tl =>
        split at hG <;> exact ⟨by omega, by omega, by omega, .inl rfl⟩
      all_goals exact ⟨by omega, by omega, by omega, .inl rfl⟩
    · simp [Role.sees, htl.not_gt] at hS hB hG
      exact ⟨by omega, by omega, by omega, .inr rfl⟩
  exact ⟨h.watched.mono (hu 0) (by omega) hg, fun u tl hlook =>
    (h.backed u tl (ht.looked hl hlook)).mono (hu tl) hhead hs⟩

theorem Balanced.of_empty (h : ∀ tl, s'.unmet owes tl ≤ 0) : Balanced owes s' := by
  have hs : 0 ≤ s'.searching := count_nonneg
  have hg : 0 ≤ s'.sighted := count_nonneg
  have h0 := h 0
  exact ⟨.inr (by omega), fun u tl _ => .inl (h tl)⟩

theorem Balanced.of_awake (hb : s'.blocked = 0) (hn : ∀ u, (s'.pc u).looked = none) :
    Balanced owes s' :=
  ⟨.inl hb, fun u tl hu => by simp [hn u] at hu⟩

/-- `tail_` is loaded: the look shows all there is. -/
theorem Balanced.look (h : Balanced owes s) (hc : Counters s)
    (ht : Turn s s' t .searching (.looking tl) 0) (htl : s'.shared.core.tailClaims.length = tl)
    (hhead : s'.shared.core.headClaims.length = s.shared.core.headClaims.length)
    (hmine : s.shared.parkMtx = some t) (hu : ∀ tl, s'.unmet owes tl ≤ s.unmet owes tl)
    (hle : s'.shared.core.headClaims.length ≤ tl) : Balanced owes s' := by
  rcases hle.eq_or_lt with heq | hlt
  · exact .of_empty fun _ => State.unmet_nonpos (.inr (by omega))
  · have hS := ht.searching
    have hB := ht.blocked
    have hG := ht.sighted hhead
    rw [hhead] at hlt
    simp [Role.sees, hlt] at hS hB hG
    refine ⟨h.watched.mono (hu 0) (by omega) (by omega), fun u tl' hlook => ?_⟩
    rcases eq_or_ne u t with rfl | hne
    · rw [← ThreadPc.look_role, ht.after] at hlook
      obtain rfl : tl = tl' := by simpa [Role.look] using hlook
      exact .inl (State.unmet_nonpos (.inl htl.le))
    · have := (hc.look (((ht.others u hne).1).symm.trans hlook)).1
      simp [hmine, hne.symm] at this

/-- The thread in the wait predicate blocks: it has been counted as blocked already. -/
theorem Balanced.park (h : Balanced owes s) (hc : Counters s)
    (ht : Turn s s' t (.stale tl) .blocked 0) (hu : ∀ tl, s'.unmet owes tl ≤ s.unmet owes tl)
    (htl : tl ≤ s.shared.core.headClaims.length) : Balanced owes s' := by
  have hmine : (s.pc t).looked = some tl := by
    rw [← ThreadPc.look_role, ht.before]
    rfl
  have hS := ht.searching
  have hg : 0 ≤ s'.sighted := count_nonneg
  have hs : 0 ≤ s.searching := count_nonneg
  simp at hS
  refine ⟨.inr ?_, fun u tl' hlook => ?_⟩
  · have h0 := hu 0
    have hall := s.unmet_le owes htl
    have hbacked := h.backed t tl hmine
    unfold State.Backed at hbacked
    omega
  · -- nobody else looks
    have hold := ht.looked (.inl rfl) hlook
    obtain rfl := hc.look_unique hold hmine
    rw [← ThreadPc.look_role, ht.after] at hlook
    cases hlook

/-- A push returns without a notification, and an item more can be left to the awake workers. -/
theorem Balanced.skip (h : Balanced owes s) {pos : ℕ} (ht : Turn s s' t .bystander .bystander 0)
    (hhead : s'.shared.core.headClaims.length = s.shared.core.headClaims.length)
    (hu : ∀ tl, s'.unmet owes tl ≤ s.unmet owes tl + if tl ≤ pos then 1 else 0)
    (hspare : s.CanSpare owes pos) : Balanced owes s' := by
  have hS := ht.searching
  have hB := ht.blocked
  have hG := ht.sighted hhead
  simp [Role.sees] at hS hB hG
  refine ⟨?_, fun u tl hlook => ?_⟩
  · have h0 := hu 0
    have := hspare.watched
    unfold State.Watched
    simp at h0
    omega
  · have hlook' := ht.looked (.inl rfl) hlook
    have htl := hu tl
    rcases Nat.lt_or_ge pos tl with hlt | hge
    · -- the look shows the item
      rw [if_neg hlt.not_ge] at htl
      exact (h.backed u tl hlook').mono (by omega) hhead hS.ge
    · have := hspare.backed u tl hlook' hge
      rw [if_pos hge] at htl
      unfold State.Backed
      rw [State.shown_of_head tl hhead]
      omega

/-- A push notifies, behind the mutex: every look under way shows its item. -/
theorem Balanced.notify (h : Balanced owes s) {pos : ℕ} (hd : 0 ≤ d) (hone : 0 < s.blocked → 0 < d)
    (ht : Turn s s' t .bystander .bystander d)
    (hhead : s'.shared.core.headClaims.length = s.shared.core.headClaims.length)
    (hu : ∀ tl, s'.unmet owes tl ≤ s.unmet owes tl + if tl ≤ pos then 1 else 0)
    (hlook : ∀ u tl, (s.pc u).looked = some tl → pos < tl) : Balanced owes s' := by
  have hS := ht.searching
  have hB := ht.blocked
  have hG := ht.sighted hhead
  have hB' : 0 ≤ s'.blocked := count_nonneg
  simp [Role.sees] at hS hB hG
  refine ⟨?_, fun u tl hl => ?_⟩
  · have h0 := hu 0
    have := h.watched
    unfold State.Watched at this ⊢
    simp at h0
    omega
  · have hl' := ht.looked (.inl rfl) hl
    have htl := hu tl
    rw [if_neg (hlook u tl hl').not_ge] at htl
    exact (h.backed u tl hl').mono (by omega) hhead (by omega)

/-- Who has seen more than the first unclaimed position still sees work when that is taken. -/
theorem Turn.sighted_le (ht : Turn s s' t .searching .bystander d)
    (hhead : s'.shared.core.headClaims.length = s.shared.core.headClaims.length + 1)
    (hno : ∀ u, (s.pc u).looked ≠ some (s.shared.core.headClaims.length + 1)) :
    s.sighted ≤ s'.sighted := by
  refine weight_mono fun u hu => ?_
  rcases eq_or_ne u t with rfl | hne
  · rw [ht.before] at hu
    cases hu
  · rw [(ht.others u hne).2, hhead]
    have hnu := hno u
    rw [← ThreadPc.look_role] at hnu
    cases hrole : (s.pc u).role <;> simp [hrole, Role.sees, Role.look] at hu hnu ⊢
    omega

/-- A worker takes an item.  If it is offered, there is one item less; if not, one worker less must
be enough for the others. -/
theorem Balanced.taken (h : Balanced owes s) (ht : Turn s s' t .searching .bystander 0)
    (hhead : s'.shared.core.headClaims.length = s.shared.core.headClaims.length + 1)
    (hu : ∀ tl, s'.unmet owes tl ≤ s.unmet owes tl)
    (hless : s.Offered owes s.shared.core.headClaims.length →
      ∀ tl ≤ s.shared.core.headClaims.length, s'.unmet owes tl + 1 ≤ s.unmet owes tl)
    (hspare : ¬ s.Offered owes s.shared.core.headClaims.length →
      s.CanSpare owes s.shared.core.headClaims.length) : Balanced owes s' := by
  have hS := ht.searching
  have hB := ht.blocked
  have hg : 0 ≤ s'.sighted := count_nonneg
  have hs : 0 < s.searching := count_pos (t := t) (by rw [ht.before]; rfl)
  simp at hS hB
  refine ⟨?_, fun u tl hlook => ?_⟩
  · by_cases hlast : ∃ u, (s.pc u).looked = some (s.shared.core.headClaims.length + 1)
    · -- what it shows is what was taken, so it may block
      obtain ⟨u, hlook⟩ := hlast
      have hall := s'.unmet_le owes hhead.ge
      have hrest := hu (s.shared.core.headClaims.length + 1)
      have hbacked := h.backed u _ hlook
      unfold State.Backed State.shown at hbacked
      right
      omega
    · have hG := ht.sighted_le hhead fun u hu => hlast ⟨u, hu⟩
      by_cases hoff : s.Offered owes s.shared.core.headClaims.length
      · have h0 := hless hoff 0 (Nat.zero_le _)
        have := h.watched
        unfold State.Watched at this ⊢
        omega
      · have h0 := hu 0
        have := (hspare hoff).watched
        unfold State.Watched
        omega
  · have hlook' := ht.looked (.inl rfl) hlook
    have htl := hu tl
    have hbacked := h.backed u tl hlook'
    unfold State.Backed State.shown at hbacked ⊢
    rcases Nat.lt_or_ge s.shared.core.headClaims.length tl with hin | hout
    · -- one of the positions shown
      omega
    · by_cases hoff : s.Offered owes s.shared.core.headClaims.length
      · have := hless hoff tl hout
        omega
      · have := (hspare hoff).backed u tl hlook' hout
        unfold State.shown at this
        omega

theorem Counters.blocked_eq_zero (hc : Counters s) (h : s.shared.sleepers ≤ 0) :
    s.blocked = 0 := by
  refine weight_eq_zero.mpr fun u => ?_
  by_contra hu
  have hwait : s.pc u = .pop .waiting := ThreadPc.role_eq_blocked.mp (by simpa using hu)
  have hpos : 0 < weight ThreadPc.sleeping s.pc := weight_pos (t := u) (by rw [hwait]; rfl)
  rw [← hc.sleepers] at hpos
  omega

variable [DecidableEq ι] [Inhabited T]

/-- **A thread's step keeps the balance**, if it may be spared where it has to be. -/
theorem Balanced.local (ho : Owing ι owes) (h : Balanced owes s) (hc : Counters s)
    (hatt : Attended (fun _ => True) s) (hr : RingInv s.shared.core fun t => (s.pc t).ring)
    (hl : Local maxSpinners t s.shared (s.pc t) g' k w) (hw : Woken s.pc w pc')
    (hle : g'.core.headClaims.length ≤ g'.core.tailClaims.length)
    (hgave : k = .returned (.popped none) →
      s.shared.core.headClaims.length = s.shared.core.tailClaims.length)
    (hskip : ∀ x pos, s.pc t = .push x (.readSpinners pos) → s.shared.spinners ≠ 0 →
      s.shared.core.headClaims.length ≤ pos ∨ (owes (s.pc t)).isSome = true →
        s.CanSpare owes pos)
    (htake : s.shared.core.headClaims.length < g'.core.headClaims.length →
      ¬ s.Offered owes s.shared.core.headClaims.length →
        s.CanSpare owes s.shared.core.headClaims.length) :
    Balanced owes ⟨g', Function.update pc' t k⟩ := by
  obtain ⟨a, b, ha, hb, hsh⟩ := hl.shift
  obtain ⟨d, hd, hd0, hone, ht⟩ := hw.turn g' k hl.role_of_waking
  have hun := hl.unmet ho hw hr
  -- only a push that returns leaves more to the workers
  have hkeep : ((s.pc t).claimed = none ∨ k.claimed ≠ none) →
      ∀ tl, State.unmet owes ⟨g', Function.update pc' t k⟩ tl ≤ s.unmet owes tl := fun hn => by
    rcases hun with hun | ⟨pos, hp, hk, -⟩
    · exact hun
    · rcases hn with hn | hn
      · simp [hp] at hn
      · exact absurd hk hn
  have hmore : ∀ pos, (s.pc t).claimed = some pos → ∀ tl,
      State.unmet owes ⟨g', Function.update pc' t k⟩ tl ≤
        s.unmet owes tl + if tl ≤ pos then 1 else 0 := fun pos hp tl => by
    rcases hun with hun | ⟨pos', hp', -, -, hun⟩
    · have := hun tl
      split <;> omega
    · obtain rfl : pos = pos' := by simpa [hp] using hp'
      exact hun tl
  have hpopping : (s.pc t).role ≠ .bystander →
      ∀ tl, State.unmet owes ⟨g', Function.update pc' t k⟩ tl ≤ s.unmet owes tl := fun hne =>
    hkeep (.inl (ThreadPc.claimed_of_role hne))
  have hless : (s.pc t).role ≠ .bystander → a = 0 → b = 1 →
      s.Offered owes s.shared.core.headClaims.length →
        ∀ tl ≤ s.shared.core.headClaims.length,
          State.unmet owes ⟨g', Function.update pc' t k⟩ tl + 1 ≤ s.unmet owes tl := by
    rintro hne rfl rfl hoff tl htl
    exact hl.unmet_taken ho hw (ThreadPc.claimed_of_role hne) ha hb (by omega) hoff htl
  have htail : (⟨g', Function.update pc' t k⟩ : State ι T).shared.core.tailClaims.length =
    s.shared.core.tailClaims.length + a := ha
  have hhead : (⟨g', Function.update pc' t k⟩ : State ι T).shared.core.headClaims.length =
    s.shared.core.headClaims.length + b := hb
  change (⟨g', Function.update pc' t k⟩ : State ι T).shared.core.headClaims.length ≤
    (⟨g', Function.update pc' t k⟩ : State ι T).shared.core.tailClaims.length at hle
  generalize (⟨g', Function.update pc' t k⟩ : State ι T) = s' at *
  generalize hr0 : (s.pc t).role = r at *
  generalize hr1 : k.role = r' at *
  cases hsh
  case stay hk =>
    refine h.keep hd ht hhead (hkeep ?_) (.inl rfl)
    rw [hk]
    exact Classical.em _
  case claim hk => exact h.keep hd ht hhead (hkeep (.inr (by simp [hk]))) (.inl rfl)
  case unseen hz =>
    -- nobody is counted as a sleeper, so nobody is blocked or looks
    have hb0 := hc.blocked_eq_zero hz
    refine .of_awake ?_ fun u => ?_
    · have hB := ht.blocked
      have hB' : 0 ≤ s'.blocked := count_nonneg
      simp [hb0] at hB
      omega
    · refine Option.eq_none_iff_forall_ne_some.mpr fun tl hu => ?_
      have := (hc.look (ht.looked (.inl rfl) hu)).2
      omega
  case skip x pos hk hsp =>
    obtain rfl := hd0 rfl
    rcases hun with hun | ⟨pos', hp, -, hcounts, hun⟩
    · exact h.keep hd ht hhead hun (.inl rfl)
    · obtain rfl : pos = pos' := by simpa [hk, ThreadPc.claimed] using hp
      exact h.skip ht hhead hun (hskip x pos hk hsp hcounts)
  case notify pos hk =>
    exact h.notify hd (hone rfl) ht hhead (hmore pos (ThreadPc.claimed_of_locked hk))
      (hatt.locked t pos hk)
  case taken site pos hk =>
    obtain rfl := hd0 rfl
    exact h.taken ht hhead (hpopping (by simp)) (hless (by simp) rfl rfl) (htake (by omega))
  case gaveUp hk =>
    refine .of_empty fun tl => (hpopping (by simp) tl).trans (State.unmet_nonpos (.inr ?_))
    exact (hgave hk).ge
  case look hk =>
    obtain rfl := hd0 rfl
    have htl := hr.tail_eq
    exact h.look hc ht (by omega) hhead ((hc.mutex t).mp (by rw [hk]; rfl)) (hpopping (by simp))
      (by omega)
  case found tl htl => exact h.keep hd ht hhead (hpopping (by simp)) (.inr (.inl rfl))
  case missed tl htl =>
    exact h.keep hd ht hhead (hpopping (by simp))
      (.inr (.inr ⟨tl, rfl, rfl, hr.head_eq ▸ htl⟩))
  case shut tl => exact h.keep hd ht hhead (hpopping (by simp)) (.inr (.inl rfl))
  case park tl =>
    obtain rfl := hd0 rfl
    exact h.park hc ht (hpopping (by simp)) (hatt.sawNone t tl (ThreadPc.sawNone_of_role hr0))
  case spurious => exact h.keep hd ht hhead (hpopping (by simp)) (.inr (.inl rfl))
  case notifyAll hk =>
    refine h.keep hd ht hhead (hkeep ?_) (.inl rfl)
    rw [hk]
    exact Classical.em _

end

end OrderRisk.Queue
