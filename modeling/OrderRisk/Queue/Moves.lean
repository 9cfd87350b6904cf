import OrderRisk.Queue.LockFree

/-!
# What a step of `LockFreeTaskQueue` can do

`Local` lists the steps of a thread inside a call, with every branch and its guard; `Woken` says
what a step does to the threads that are blocked.  Every invariant of the queue is proved by cases
on these two (`step_cases`).
-/

namespace OrderRisk.Queue

open OrderRisk.Lib

variable {ι T : Type*}

/-- A step of thread `t` in the shared state `g`: where it was, what it leaves, where it is, and
whom it wakes. -/
inductive Local [Inhabited T] (maxSpinners : ℤ) (t : ι) (g : Shared ι T) :
    ThreadPc T → Shared ι T → ThreadPc T → Wake → Prop
  -- push
  | enter (x : T) : Local maxSpinners t g (.push x .enter)
      { g with pushersInFlight := g.pushersInFlight + 1 } (.push x .checkShutdown) .nobody
  | sawClosed (x : T) (p : PushAt) (hp : p = .checkShutdown ∨ p = .recheckShutdown)
      (h : g.shutdown = true) : Local maxSpinners t g (.push x p) g (.push x .reject) .nobody
  | sawOpen (x : T) (p : PushAt) (hp : p = .checkShutdown ∨ p = .recheckShutdown)
      (h : g.shutdown = false) :
      Local maxSpinners t g (.push x p) g (.push x (.tryPush .load)) .nobody
  | tryPush (x : T) (spurious : Bool) (p p' : PushPc) (core : Core ι T)
      (h : pushStep t x spurious g.core p = (core, .inl p')) :
      Local maxSpinners t g (.push x (.tryPush p)) { g with core } (.push x (.tryPush p')) .nobody
  | publish (x : T) (pos : ℕ) : Local maxSpinners t g (.push x (.tryPush (.publish pos)))
      { g with core := g.core.publish pos x } (.push x (.leave pos)) .nobody
  | full (x : T) (pos : ℕ) (h : diff (g.core.ring.cell pos).seq pos < 0) :
      Local maxSpinners t g (.push x (.tryPush (.loadSeq pos))) g (.push x .recheckShutdown) .nobody
  | reject (x : T) : Local maxSpinners t g (.push x .reject)
      { g with pushersInFlight := g.pushersInFlight - 1 } (.returned (.pushed false)) .nobody
  | leave (x : T) (pos : ℕ) : Local maxSpinners t g (.push x (.leave pos))
      { g with pushersInFlight := g.pushersInFlight - 1 } (.push x (.readSleepers pos)) .nobody
  | noSleeper (x : T) (pos : ℕ) (h : g.sleepers ≤ 0) :
      Local maxSpinners t g (.push x (.readSleepers pos)) g (.returned (.pushed true)) .nobody
  | sleeper (x : T) (pos : ℕ) (h : 0 < g.sleepers) :
      Local maxSpinners t g (.push x (.readSleepers pos)) g (.push x (.readSpinners pos)) .nobody
  | noSpinner (x : T) (pos : ℕ) (h : g.spinners = 0) :
      Local maxSpinners t g (.push x (.readSpinners pos)) g (.push x (.lock pos)) .nobody
  | skip (x : T) (pos : ℕ) (h : g.spinners ≠ 0) :
      Local maxSpinners t g (.push x (.readSpinners pos)) g (.returned (.pushed true)) .nobody
  | pushLock (x : T) (pos : ℕ) (h : g.parkMtx = none) :
      Local maxSpinners t g (.push x (.lock pos)) { g with parkMtx := some t }
        (.push x (.unlock pos)) .nobody
  | pushUnlock (x : T) (pos : ℕ) : Local maxSpinners t g (.push x (.unlock pos))
      { g with parkMtx := none } (.push x (.notify pos)) .nobody
  | notify (x : T) (pos : ℕ) :
      Local maxSpinners t g (.push x (.notify pos)) g (.returned (.pushed true)) .one
  -- pop
  | takeSlot (h : g.spinners < maxSpinners) : Local maxSpinners t g (.pop .takeSlot)
      { g with spinners := g.spinners + 1 } (.pop (.tryPop (.spin 0) .load)) .nobody
  | refused (h : maxSpinners ≤ g.spinners) : Local maxSpinners t g (.pop .takeSlot)
      { g with spinners := g.spinners + 1 } (.pop .giveSlot) .nobody
  | tryPop (site : Site) (spurious : Bool) (residue : T) (p p' : PopPc T) (core : Core ι T)
      (h : popStep t spurious residue g.core p = (core, .inl p')) :
      Local maxSpinners t g (.pop (.tryPop site p)) { g with core } (.pop (.tryPop site p')) .nobody
  | release (site : Site) (pos : ℕ) (item : T) :
      Local maxSpinners t g (.pop (.tryPop site (.publish pos item)))
        { g with core := g.core.release pos item } (site.onItem item) .nobody
  | empty (site : Site) (pos : ℕ) (h : diff (g.core.ring.cell pos).seq (word (pos + 1)) < 0) :
      Local maxSpinners t g (.pop (.tryPop site (.loadSeq pos))) g site.onEmpty .nobody
  | spinAgain (i : ℕ) (h : i + 1 < kSpins) :
      Local maxSpinners t g (.pop (.relax i)) g (.pop (.tryPop (.spin (i + 1)) .load)) .nobody
  | spinEnd (i : ℕ) (h : kSpins ≤ i + 1) :
      Local maxSpinners t g (.pop (.relax i)) g (.pop .giveSlot) .nobody
  | spinOk (item : T) : Local maxSpinners t g (.pop (.spinOk item))
      { g with spinners := g.spinners - 1 } (.returned (.popped (some item))) .nobody
  | giveSlot : Local maxSpinners t g (.pop .giveSlot)
      { g with spinners := g.spinners - 1 } (.pop .announce) .nobody
  | announce : Local maxSpinners t g (.pop .announce)
      { g with sleepers := g.sleepers + 1 } (.pop (.tryPop .recheck .load)) .nobody
  | recheckOk (item : T) : Local maxSpinners t g (.pop (.recheckOk item))
      { g with sleepers := g.sleepers - 1 } (.returned (.popped (some item))) .nobody
  | readShutdownTrue (h : g.shutdown = true) :
      Local maxSpinners t g (.pop .readShutdown) g (.pop .readInFlight) .nobody
  | readShutdownFalse (h : g.shutdown = false) :
      Local maxSpinners t g (.pop .readShutdown) g (.pop .lock) .nobody
  | nobodyInFlight (h : g.pushersInFlight = 0) :
      Local maxSpinners t g (.pop .readInFlight) g (.pop .giveUp) .nobody
  | somebodyInFlight (h : g.pushersInFlight ≠ 0) :
      Local maxSpinners t g (.pop .readInFlight) g (.pop .lock) .nobody
  | giveUp : Local maxSpinners t g (.pop .giveUp)
      { g with sleepers := g.sleepers - 1 } (.pop (.tryPop .last .load)) .nobody
  | popLock (p : PopAt T) (hp : p = .lock ∨ p = .woken) (h : g.parkMtx = none) :
      Local maxSpinners t g (.pop p) { g with parkMtx := some t } (.pop .loadTail) .nobody
  | loadTail : Local maxSpinners t g (.pop .loadTail) g (.pop (.loadHead g.core.ring.tail)) .nobody
  | sawWork (tl : ℕ) (h : g.core.ring.head < tl) :
      Local maxSpinners t g (.pop (.loadHead tl)) g (.pop .unlock) .nobody
  | sawNone (tl : ℕ) (h : tl ≤ g.core.ring.head) :
      Local maxSpinners t g (.pop (.loadHead tl)) g (.pop (.predShutdown tl)) .nobody
  | predTrue (tl : ℕ) (h : g.shutdown = true) :
      Local maxSpinners t g (.pop (.predShutdown tl)) g (.pop .unlock) .nobody
  | predFalse (tl : ℕ) (h : g.shutdown = false) :
      Local maxSpinners t g (.pop (.predShutdown tl)) g (.pop (.park tl)) .nobody
  | park (tl : ℕ) : Local maxSpinners t g (.pop (.park tl))
      { g with parkMtx := none } (.pop .waiting) .nobody
  | spuriousWake : Local maxSpinners t g (.pop .waiting) g (.pop .woken) .nobody
  | popUnlock : Local maxSpinners t g (.pop .unlock)
      { g with parkMtx := none } (.pop .awake) .nobody
  | awake : Local maxSpinners t g (.pop .awake)
      { g with sleepers := g.sleepers - 1 } (.pop .takeSlot) .nobody
  -- shutdown
  | store : Local maxSpinners t g (.shutdown .store)
      { g with shutdown := true } (.shutdown .lock) .nobody
  | shutdownLock (h : g.parkMtx = none) : Local maxSpinners t g (.shutdown .lock)
      { g with parkMtx := some t } (.shutdown .unlock) .nobody
  | shutdownUnlock : Local maxSpinners t g (.shutdown .unlock)
      { g with parkMtx := none } (.shutdown .notifyAll) .nobody
  | notifyAll : Local maxSpinners t g (.shutdown .notifyAll) g (.returned .shutDown) .all

section

variable [Inhabited T] {maxSpinners : ℤ} {t : ι} {ch : Choice ι T} {g g' : Shared ι T}
  {k k' : ThreadPc T} {w : Wake}

omit [Inhabited T] in
theorem pushStep_true {x : T} {spurious : Bool} {c c' : Core ι T} {p : PushPc}
    (h : pushStep t x spurious c p = (c', .inr true)) :
    ∃ pos, p = .publish pos ∧ c' = c.publish pos x := by
  cases p with
  | load => cases h
  | loadSeq pos =>
    simp only [pushStep, Prod.mk.injEq] at h
    split_ifs at h <;> simp at h
  | cas pos =>
    simp only [pushStep] at h
    split_ifs at h <;> cases h
  | move pos => cases h
  | publish pos =>
    cases h
    exact ⟨pos, rfl, rfl⟩

omit [Inhabited T] in
theorem pushStep_false {x : T} {spurious : Bool} {c c' : Core ι T} {p : PushPc}
    (h : pushStep t x spurious c p = (c', .inr false)) :
    ∃ pos, p = .loadSeq pos ∧ c' = c ∧ diff (c.ring.cell pos).seq pos < 0 := by
  cases p with
  | load => cases h
  | loadSeq pos =>
    simp only [pushStep, Prod.mk.injEq] at h
    split_ifs at h with h0 h1
    · simp at h
    · exact ⟨pos, rfl, h.1.symm, h1⟩
    · simp at h
  | cas pos =>
    simp only [pushStep] at h
    split_ifs at h <;> cases h
  | move pos => cases h
  | publish pos => cases h

theorem popStep_some {spurious : Bool} {residue item : T} {c c' : Core ι T} {p : PopPc T}
    (h : popStep t spurious residue c p = (c', .inr (some item))) :
    ∃ pos, p = .publish pos item ∧ c' = c.release pos item := by
  cases p with
  | load => cases h
  | loadSeq pos =>
    simp only [popStep, Prod.mk.injEq] at h
    split_ifs at h <;> simp at h
  | cas pos =>
    simp only [popStep] at h
    split_ifs at h <;> cases h
  | move pos => cases h
  | clear pos out => cases h
  | publish pos out =>
    cases h
    exact ⟨pos, rfl, rfl⟩

theorem popStep_none {spurious : Bool} {residue : T} {c c' : Core ι T} {p : PopPc T}
    (h : popStep t spurious residue c p = (c', .inr none)) :
    ∃ pos, p = .loadSeq pos ∧ c' = c ∧ diff (c.ring.cell pos).seq (word (pos + 1)) < 0 := by
  cases p with
  | load => cases h
  | loadSeq pos =>
    simp only [popStep, Prod.mk.injEq] at h
    split_ifs at h with h0 h1
    · simp at h
    · exact ⟨pos, rfl, h.1.symm, h1⟩
    · simp at h
  | cas pos =>
    simp only [popStep] at h
    split_ifs at h <;> cases h
  | move pos => cases h
  | clear pos out => cases h
  | publish pos out => cases h

theorem local_of_pushAtStep {x : T} {p : PushAt} (h : pushAtStep t ch g x p = some (g', k', w)) :
    Local maxSpinners t g (.push x p) g' k' w := by
  cases p with
  | enter =>
    cases h
    exact .enter x
  | checkShutdown =>
    cases h
    cases hs : g.shutdown with
    | false => exact .sawOpen x _ (.inl rfl) hs
    | true => exact .sawClosed x _ (.inl rfl) hs
  | tryPush p =>
    simp only [pushAtStep] at h
    split at h
    · next core p' hp =>
      cases h
      exact .tryPush x _ p p' core hp
    · next core hp =>
      cases h
      obtain ⟨pos, rfl, rfl⟩ := pushStep_true hp
      exact .publish x pos
    · next core hp =>
      cases h
      obtain ⟨pos, rfl, rfl, hd⟩ := pushStep_false hp
      exact .full x pos hd
  | recheckShutdown =>
    cases h
    cases hs : g.shutdown with
    | false => exact .sawOpen x _ (.inr rfl) hs
    | true => exact .sawClosed x _ (.inr rfl) hs
  | reject =>
    cases h
    exact .reject x
  | leave pos =>
    cases h
    exact .leave x pos
  | readSleepers pos =>
    cases h
    split
    · exact .sleeper x pos ‹_›
    · exact .noSleeper x pos (by omega)
  | readSpinners pos =>
    cases h
    split
    · exact .noSpinner x pos ‹_›
    · exact .skip x pos ‹_›
  | lock pos =>
    simp only [pushAtStep] at h
    split at h
    · next hm =>
      cases h
      exact .pushLock x pos hm
    · cases h
  | unlock pos =>
    cases h
    exact .pushUnlock x pos
  | notify pos =>
    cases h
    exact .notify x pos

theorem local_of_popAtStep {p : PopAt T} (h : popAtStep maxSpinners t ch g p = some (g', k', w)) :
    Local maxSpinners t g (.pop p) g' k' w := by
  cases p with
  | takeSlot =>
    cases h
    split
    · exact .takeSlot ‹_›
    · exact .refused (by omega)
  | tryPop site p =>
    simp only [popAtStep] at h
    split at h
    · next core p' hp =>
      cases h
      exact .tryPop site _ _ p p' core hp
    · next core item hp =>
      cases h
      obtain ⟨pos, rfl, rfl⟩ := popStep_some hp
      exact .release site pos item
    · next core hp =>
      cases h
      obtain ⟨pos, rfl, rfl, hd⟩ := popStep_none hp
      exact .empty site pos hd
  | relax i =>
    cases h
    split
    · exact .spinAgain i ‹_›
    · exact .spinEnd i (by omega)
  | spinOk item =>
    cases h
    exact .spinOk item
  | giveSlot =>
    cases h
    exact .giveSlot
  | announce =>
    cases h
    exact .announce
  | recheckOk item =>
    cases h
    exact .recheckOk item
  | readShutdown =>
    cases h
    cases hs : g.shutdown with
    | false => exact .readShutdownFalse hs
    | true => exact .readShutdownTrue hs
  | readInFlight =>
    cases h
    split
    · exact .nobodyInFlight ‹_›
    · exact .somebodyInFlight ‹_›
  | giveUp =>
    cases h
    exact .giveUp
  | lock =>
    simp only [popAtStep] at h
    split at h
    · next hm =>
      cases h
      exact .popLock _ (.inl rfl) hm
    · cases h
  | loadTail =>
    cases h
    exact .loadTail
  | loadHead tl =>
    cases h
    split
    · exact .sawWork tl ‹_›
    · exact .sawNone tl (by omega)
  | predShutdown tl =>
    cases h
    cases hs : g.shutdown with
    | false => exact .predFalse tl hs
    | true => exact .predTrue tl hs
  | park tl =>
    cases h
    exact .park tl
  | waiting =>
    cases h
    exact .spuriousWake
  | woken =>
    simp only [popAtStep] at h
    split at h
    · next hm =>
      cases h
      exact .popLock _ (.inr rfl) hm
    · cases h
  | unlock =>
    cases h
    exact .popUnlock
  | awake =>
    cases h
    exact .awake

theorem local_of_threadStep (h : threadStep maxSpinners t ch g k = some (g', k', w)) :
    Local maxSpinners t g k g' k' w := by
  cases k with
  | idle => cases h
  | push x p => exact local_of_pushAtStep h
  | pop p => exact local_of_popAtStep h
  | shutdown p =>
    cases p with
    | store =>
      cases h
      exact .store
    | lock =>
      simp only [threadStep, shutdownAtStep] at h
      split at h
      · next hm =>
        cases h
        exact .shutdownLock hm
      · cases h
    | unlock =>
      cases h
      exact .shutdownUnlock
    | notifyAll =>
      cases h
      exact .notifyAll
  | returned r => cases h

theorem Local.shutdown (h : Local maxSpinners t g k g' k' w) (hg : g.shutdown = true) :
    g'.shutdown = true := by
  cases h <;> first | exact hg | rfl

end

/-! ### What a step does to the others -/

/-- `pc'` is `pc` after a step that wakes `w`. -/
structure Woken (pc : ι → ThreadPc T) (w : Wake) (pc' : ι → ThreadPc T) : Prop where
  cases : ∀ u, pc' u = pc u ∨ pc u = .pop .waiting ∧ pc' u = .pop .woken
  nobody : w = .nobody → pc' = pc
  one : w = .one → (∃ u, pc u = .pop .waiting ∧ pc' u = .pop .woken) ∨
    ∀ u, pc u ≠ .pop .waiting
  all : w = .all → ∀ u, pc' u ≠ .pop .waiting

theorem Woken.same {pc pc' : ι → ThreadPc T} {w : Wake} {β : Type*} {f : ThreadPc T → β}
    (h : Woken pc w pc') (hf : f (.pop .waiting) = f (.pop .woken)) (u : ι) : f (pc' u) = f (pc u) := by
  rcases h.cases u with he | ⟨h1, h2⟩
  · rw [he]
  · rw [h1, h2, hf]

theorem isWaiting_iff {k : ThreadPc T} : k.isWaiting = true ↔ k = .pop .waiting := by
  unfold ThreadPc.isWaiting
  split <;> simp_all

section

variable [Fintype ι] [DecidableEq ι]

theorem woken_of_wakeUp {pc pc' : ι → ThreadPc T} {wake : Option ι} {w : Wake}
    (h : wakeUp pc wake w = some pc') : Woken pc w pc' := by
  cases w with
  | nobody =>
    cases h
    exact ⟨fun _ => .inl rfl, fun _ => rfl, nofun, nofun⟩
  | one =>
    simp only [wakeUp] at h
    split at h
    · next u =>
      split at h
      · next hu =>
        cases h
        rw [isWaiting_iff] at hu
        refine ⟨fun v => ?_, nofun, fun _ => .inl ⟨u, hu, Function.update_self ..⟩, nofun⟩
        rcases eq_or_ne v u with rfl | hv
        · exact .inr ⟨hu, Function.update_self ..⟩
        · exact .inl (Function.update_of_ne hv ..)
      · cases h
    · split at h
      · next hn =>
        cases h
        refine ⟨fun _ => .inl rfl, nofun, fun _ => .inr fun u hu => ?_, nofun⟩
        rw [← isWaiting_iff, hn u] at hu
        cases hu
      · cases h
  | all =>
    cases h
    refine ⟨fun u => ?_, nofun, nofun, fun _ u hu => ?_⟩
    · by_cases hu : (pc u).isWaiting = true
      · exact .inr ⟨isWaiting_iff.mp hu, if_pos hu⟩
      · exact .inl (if_neg hu)
    · by_cases hw : (pc u).isWaiting = true
      · rw [if_pos hw] at hu
        cases hu
      · rw [if_neg hw] at hu
        exact hw (isWaiting_iff.mpr hu)

variable [Inhabited T] {capacity : ℕ} {maxSpinners : ℤ} {s s' : State ι T} {a : Act ι T}

/-- **What a step of the queue can be.** -/
theorem step_cases (h : (queueMachine ι capacity maxSpinners).step s a = some s') :
    (∃ t c, a = .call t c ∧ s.pc t = .idle ∧
      s' = { s with pc := Function.update s.pc t c.start }) ∨
    (∃ t ch g' k w pc', a = .step t ch ∧ Local maxSpinners t s.shared (s.pc t) g' k w ∧
      Woken s.pc w pc' ∧ s' = ⟨g', Function.update pc' t k⟩) ∨
    (∃ t r, a = .ret t ∧ s.pc t = .returned r ∧
      s' = { s with pc := Function.update s.pc t .idle }) := by
  cases a with
  | call t c =>
    simp only [queueMachine] at h
    split at h
    · next ht =>
      cases h
      exact .inl ⟨t, c, rfl, ht, rfl⟩
    · cases h
  | step t ch =>
    obtain ⟨⟨g', k, w⟩, hl, h⟩ := Option.bind_eq_some_iff.mp h
    obtain ⟨pc', hw, rfl⟩ := Option.map_eq_some_iff.mp h
    exact .inr (.inl ⟨t, ch, g', k, w, pc', rfl, local_of_threadStep hl, woken_of_wakeUp hw, rfl⟩)
  | ret t =>
    simp only [queueMachine] at h
    split at h
    · next r hr =>
      cases h
      exact .inr (.inr ⟨t, r, rfl, hr, rfl⟩)
    · cases h

end

end OrderRisk.Queue
