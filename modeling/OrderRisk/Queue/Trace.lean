import OrderRisk.Queue.Closing
import OrderRisk.Queue.Track

/-!
# Runs of `LockFreeTaskQueue` with their histories

`traceMachine` is `queueMachine` with three ghosts: the history its callers see, the calls that are
decided, in that order, and the identity of each thread's call.  A push is decided when it claims
`tail_` or sees the shutdown, a pop when it claims `head_` or its last `try_pop` fails, and a
shutdown when it stores the flag (`ThreadPc.result`).
-/

namespace OrderRisk.Queue

open OrderRisk.Lib

variable {ι T : Type*}

/-- The items in the order in which their pushes claimed `tail_`. -/
def Core.items (c : Core ι T) : List T := c.tailClaims.map TailClaim.item

/-! ### Decisions -/

def ThreadPc.call? : ThreadPc T → Option (Call T)
  | .push item _ => some (.push item)
  | .pop _ => some .pop
  | .shutdown _ => some .shutdown
  | _ => none

/-- What the thread's call is going to return, once that is decided. -/
def ThreadPc.result (c : Core ι T) : ThreadPc T → Option (Ret T)
  | .idle => none
  | .push _ .enter => none
  | .push _ .checkShutdown => none
  | .push _ .recheckShutdown => none
  | .push _ (.tryPush .load) => none
  | .push _ (.tryPush (.loadSeq _)) => none
  | .push _ (.tryPush (.cas _)) => none
  | .push _ .reject => some (.pushed false)
  | .push _ _ => some (.pushed true)
  | .pop (.spinOk item) => some (.popped (some item))
  | .pop (.recheckOk item) => some (.popped (some item))
  | .pop (.tryPop _ (.move pos)) => some (.popped c.items[pos]?)
  | .pop (.tryPop _ (.clear pos _)) => some (.popped c.items[pos]?)
  | .pop (.tryPop _ (.publish pos _)) => some (.popped c.items[pos]?)
  | .pop _ => none
  | .shutdown .store => none
  | .shutdown _ => some .shutDown
  | .returned r => some r

/-- A thread as its caller sees it. -/
def ThreadPc.place (c : Core ι T) (id : ℕ) (k : ThreadPc T) : Place (Call T) (Ret T) :=
  match k.result c with
  | some r => .decided id r
  | none =>
    match k.call? with
    | some a => .pending id a
    | none => .outside

def ThreadPc.pos : ThreadPc T → ℕ
  | .push _ (.tryPush (.move pos)) => pos
  | .pop (.tryPop _ (.move pos)) => pos
  | _ => 0

/-- What a step decides. -/
def decision (before after : Place (Call T) (Ret T)) (pos : ℕ) : List (Point T) :=
  match before, after with
  | .pending id a, .decided _ r => [⟨id, a, r, pos⟩]
  | _, _ => []

theorem decision_self (p : Place (Call T) (Ret T)) (pos : ℕ) : decision p p pos = [] := by
  cases p <;> rfl

/-! ### The machine -/

/-- A state of the queue, the history that led to it, the decided calls, and the identities of the
threads' calls. -/
structure Trace (ι T : Type*) where
  queue : State ι T
  hist : List (Event (Call T) (Ret T))
  log : List (Point T)
  id : ι → ℕ

namespace Trace

def place (s : Trace ι T) (t : ι) : Place (Call T) (Ret T) :=
  (s.queue.pc t).place s.queue.shared.core (s.id t)

variable [DecidableEq ι]

/-- What is written down of a step of the queue to `q`. -/
def record (s : Trace ι T) (a : Act ι T) (q : State ι T) : Trace ι T :=
  match a with
  | .call t c =>
    ⟨q, s.hist ++ [.call s.hist.length c], s.log, Function.update s.id t s.hist.length⟩
  | .step t _ =>
    ⟨q, s.hist, s.log ++ decision (s.place t) ((q.pc t).place q.shared.core (s.id t)) (q.pc t).pos,
      s.id⟩
  | .ret t =>
    match s.queue.pc t with
    | .returned r => ⟨q, s.hist ++ [.ret (s.id t) r], s.log, s.id⟩
    | _ => { s with queue := q }

@[simp] theorem record_queue (s : Trace ι T) (a : Act ι T) (q : State ι T) :
    (s.record a q).queue = q := by
  unfold record
  split
  · rfl
  · rfl
  · split <;> rfl

end Trace

/-- The queue with its history. -/
def traceMachine (ι : Type*) {T : Type*} [Fintype ι] [DecidableEq ι] [Inhabited T]
    (capacity : ℕ) (maxSpinners : ℤ) : Machine (Trace ι T) (Act ι T) where
  init s := (queueMachine ι capacity maxSpinners).init s.queue ∧ s = ⟨s.queue, [], [], fun _ => 0⟩
  step s a := ((queueMachine ι capacity maxSpinners).step s.queue a).map (s.record a)

section

variable [Fintype ι] [DecidableEq ι] [Inhabited T] {capacity : ℕ} {maxSpinners : ℤ}
  {s s' : Trace ι T} {a : Act ι T}

theorem queue_step (h : (traceMachine ι capacity maxSpinners).step s a = some s') :
    (queueMachine ι capacity maxSpinners).step s.queue a = some s'.queue := by
  obtain ⟨q, hq, rfl⟩ := Option.map_eq_some_iff.mp h
  rw [Trace.record_queue]
  exact hq

/-- **The history is only written**: the runs are those of the queue. -/
theorem queue_reachable {C : Trace ι T → Act ι T → Prop}
    (h : (traceMachine ι capacity maxSpinners).Within C s) :
    (queueMachine ι capacity maxSpinners).Reachable s.queue := by
  refine h.project (f := Trace.queue) ?_ ?_
  · intro s hi
    exact hi.1
  · intro s a s' _ _ hs
    exact .inr ⟨a, queue_step hs⟩

theorem exists_trace {q : State ι T} (h : (queueMachine ι capacity maxSpinners).Reachable q) :
    ∃ s : Trace ι T, (traceMachine ι capacity maxSpinners).Reachable s ∧ s.queue = q := by
  induction h with
  | @init q hi => exact ⟨⟨q, [], [], fun _ => 0⟩, .init ⟨hi, rfl⟩, rfl⟩
  | @step q q' a _ _ hs ih =>
    obtain ⟨s, hr, rfl⟩ := ih
    refine ⟨s.record a q', hr.step trivial (Option.map_eq_some_iff.mpr ⟨q', hs, rfl⟩), ?_⟩
    exact s.record_queue a q'

/-- **What a step can be**, with what is written down of it. -/
theorem trace_step_cases (h : (traceMachine ι capacity maxSpinners).step s a = some s') :
    (∃ t c, a = .call t c ∧ s.queue.pc t = .idle ∧
      s' = ⟨{ s.queue with pc := Function.update s.queue.pc t c.start },
        s.hist ++ [.call s.hist.length c], s.log, Function.update s.id t s.hist.length⟩) ∨
    (∃ t ch g' k w pc', a = .step t ch ∧
      Local maxSpinners t s.queue.shared (s.queue.pc t) g' k w ∧ Woken s.queue.pc w pc' ∧
      s' = ⟨⟨g', Function.update pc' t k⟩, s.hist,
        s.log ++ decision (s.place t) (k.place g'.core (s.id t)) k.pos, s.id⟩) ∨
    (∃ t r, a = .ret t ∧ s.queue.pc t = .returned r ∧
      s' = ⟨{ s.queue with pc := Function.update s.queue.pc t .idle },
        s.hist ++ [.ret (s.id t) r], s.log, s.id⟩) := by
  obtain ⟨q, hq, rfl⟩ := Option.map_eq_some_iff.mp h
  obtain ⟨t, c, rfl, ht, rfl⟩ | ⟨t, ch, g', k, w, pc', rfl, hl, hw, rfl⟩ | ⟨t, r, rfl, ht, rfl⟩ :=
    step_cases hq
  · exact .inl ⟨t, c, rfl, ht, rfl⟩
  · refine .inr (.inl ⟨t, ch, g', k, w, pc', rfl, hl, hw, ?_⟩)
    simp only [Trace.record, Function.update_self]
  · refine .inr (.inr ⟨t, r, rfl, ht, ?_⟩)
    simp only [Trace.record, ht]

end

/-! ### What a step decides -/

/-- What a thread's step decides, if anything: where it was, what it leaves and where it is. -/
inductive Effect (t : ι) (g : Shared ι T) : ThreadPc T → Shared ι T → ThreadPc T → Prop
  | quiet {k k' : ThreadPc T} {g' : Shared ι T} (hi : g'.core.items = g.core.items)
      (hh : g'.core.headClaims.length = g.core.headClaims.length)
      (hs : g'.shutdown = g.shutdown)
      (hp : ∀ id, k'.place g'.core id = k.place g.core id) : Effect t g k g' k'
  | accept (x : T) (pos : ℕ) (h : g.core.ring.tail = pos) :
      Effect t g (.push x (.tryPush (.cas pos))) { g with core := g.core.claimTail t x pos }
        (.push x (.tryPush (.move pos)))
  | refuse (x : T) (p : PushAt) (hp : p = .checkShutdown ∨ p = .recheckShutdown)
      (h : g.shutdown = true) : Effect t g (.push x p) g (.push x .reject)
  | take (site : Site) (pos : ℕ) (h : g.core.ring.head = pos) :
      Effect t g (.pop (.tryPop site (.cas pos))) { g with core := g.core.claimHead t pos }
        (.pop (.tryPop site (.move pos)))
  | nullopt (pos : ℕ) :
      Effect t g (.pop (.tryPop .last (.loadSeq pos))) g (.returned (.popped none))
  | close : Effect t g (.shutdown .store) { g with shutdown := true } (.shutdown .lock)

theorem items_modify {l : List (TailClaim ι T)} {pos : ℕ} :
    (l.modify pos fun k => { k with returned := true }).map TailClaim.item =
      l.map TailClaim.item := by
  apply List.ext_getElem?
  intro i
  rw [List.getElem?_map, List.getElem?_map, List.getElem?_modify]
  cases l[i]? with
  | none => rfl
  | some k =>
    dsimp only [Option.map_map, Option.map_some]
    split <;> rfl

section

variable [Inhabited T] {maxSpinners : ℤ} {t : ι} {g g' : Shared ι T} {k k' : ThreadPc T} {w : Wake}

omit [Inhabited T] in
theorem effect_of_pushStep {x : T} {spurious : Bool} {p p' : PushPc} {core : Core ι T}
    (h : pushStep t x spurious g.core p = (core, .inl p')) :
    Effect t g (.push x (.tryPush p)) { g with core } (.push x (.tryPush p')) := by
  cases p with
  | load =>
    cases h
    exact .quiet rfl rfl rfl fun _ => rfl
  | loadSeq pos =>
    simp only [pushStep, Prod.mk.injEq] at h
    obtain ⟨rfl, h⟩ := h
    split_ifs at h <;> cases h <;> exact .quiet rfl rfl rfl fun _ => rfl
  | cas pos =>
    simp only [pushStep] at h
    split_ifs at h with h0
    · cases h
      exact .accept x pos h0.1
    · cases h
      exact .quiet rfl rfl rfl fun _ => rfl
  | move pos =>
    cases h
    exact .quiet rfl rfl rfl fun _ => rfl
  | publish pos => cases h

theorem effect_of_popStep {site : Site} {spurious : Bool} {residue : T} {p p' : PopPc T}
    {core : Core ι T} (h : popStep t spurious residue g.core p = (core, .inl p')) :
    Effect t g (.pop (.tryPop site p)) { g with core } (.pop (.tryPop site p')) := by
  cases p with
  | load =>
    cases h
    exact .quiet rfl rfl rfl fun _ => rfl
  | loadSeq pos =>
    simp only [popStep, Prod.mk.injEq] at h
    obtain ⟨rfl, h⟩ := h
    split_ifs at h <;> cases h <;> exact .quiet rfl rfl rfl fun _ => rfl
  | cas pos =>
    simp only [popStep] at h
    split_ifs at h with h0
    · cases h
      exact .take site pos h0.1
    · cases h
      exact .quiet rfl rfl rfl fun _ => rfl
  | move pos =>
    cases h
    exact .quiet rfl (List.length_modify ..) rfl fun _ => rfl
  | clear pos out =>
    cases h
    exact .quiet rfl rfl rfl fun _ => rfl
  | publish pos out => cases h

/-- **Every step decides one call or none**, if what a `try_pop` returns is the item it claimed. -/
theorem Local.effect (h : Local maxSpinners t g k g' k' w)
    (hout : ∀ pos item, k.ring = .pop (.publish pos item) → g.core.items[pos]? = some item) :
    Effect t g k g' k' := by
  cases h
  case tryPush x spurious p p' core h => exact effect_of_pushStep h
  case tryPop site spurious residue p p' core h => exact effect_of_popStep h
  case publish x pos => exact .quiet items_modify rfl rfl fun _ => rfl
  case sawOpen x p hp h => rcases hp with rfl | rfl <;> exact .quiet rfl rfl rfl fun _ => rfl
  case sawClosed x p hp h => exact .refuse x p hp h
  case release site pos item =>
    have hitem := hout pos item rfl
    refine .quiet rfl (List.length_modify ..) rfl fun id => ?_
    cases site <;> simp only [Site.onItem, ThreadPc.place, ThreadPc.result, hitem]
  case empty site pos h =>
    cases site with
    | last => exact .nullopt pos
    | _ => exact .quiet rfl rfl rfl fun _ => rfl
  case popLock p hp h => rcases hp with rfl | rfl <;> exact .quiet rfl rfl rfl fun _ => rfl
  case store => exact .close
  all_goals exact .quiet rfl rfl rfl fun _ => rfl

omit [Inhabited T] in
theorem Effect.items_le (h : Effect t g k g' k') : g.core.items <+: g'.core.items := by
  cases h with
  | quiet hi => exact hi ▸ List.prefix_rfl
  | accept x pos h =>
    simp only [Core.items, Core.claimTail, List.map_append]
    exact List.prefix_append ..
  | _ => exact List.prefix_rfl

end

/-! ### What a step does not decide -/

theorem place_congr {c c' : Core ι T} {k : ThreadPc T} {id : ℕ}
    (h : ∀ pos, k.ring.headPos = some pos → c'.items[pos]? = c.items[pos]?) :
    k.place c' id = k.place c id := by
  have hr : k.result c' = k.result c := by
    unfold ThreadPc.result
    split <;> first | rfl | rw [h _ rfl]
  unfold ThreadPc.place
  rw [hr]

section

variable [Inhabited T] {c : Core ι T} {pc : ι → RingPc T} {t : ι}

theorem RingInv.headPos_lt (h : RingInv c pc) {pos : ℕ} (ht : (pc t).headPos = some pos) :
    pos < c.items.length := by
  have hle := h.head_le
  have hpc := h.pcOk t
  unfold Core.items
  rw [List.length_map]
  unfold RingPc.headPos at ht
  split at ht
  · next p hp =>
    cases ht
    rw [hp] at hpc
    exact lt_of_lt_of_le (List.getElem?_eq_some_iff.mp hpc).1 hle
  · next p v hp =>
    cases ht
    rw [hp] at hpc
    exact lt_of_lt_of_le (List.getElem?_eq_some_iff.mp hpc).1 hle
  · next p v hp =>
    cases ht
    rw [hp] at hpc
    exact lt_of_lt_of_le (List.getElem?_eq_some_iff.mp hpc.1).1 hle
  · cases ht

theorem RingInv.out_eq (h : RingInv c pc) {pos : ℕ} {item : T}
    (ht : pc t = .pop (.publish pos item)) : c.items[pos]? = some item := by
  have hpc := h.pcOk t
  rw [ht] at hpc
  unfold Core.items
  rw [List.getElem?_map]
  exact h.taken pos _ item hpc.1 rfl

end

end OrderRisk.Queue
