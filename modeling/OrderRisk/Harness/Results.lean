import OrderRisk.Pool.Program
import OrderRisk.Risk.Schedule

/-!
# Orders through the pool

The job of `main.cpp`'s tests, `collector.add(validator.validate(o))`: the steps of `validate`, and
the three of `ResultsCollector::add`.  When the pool is gone, the collector holds the results of the
orders taken one at a time, in some order, and the store their balances (`run_sequential`).
-/

namespace OrderRisk.Harness

open OrderRisk.Lib OrderRisk.Account OrderRisk.Risk OrderRisk.Pool

/-- Where a worker is inside a job. -/
inductive BodyPc where
  | outside
  /-- About to call `validate`. -/
  | enter (job : ℕ)
  | validating (job : ℕ)
  /-- In `add(r)`, before the `lock_guard`. -/
  | lock (job : ℕ) (r : ValidationResult)
  | pushBack (job : ℕ) (r : ValidationResult)
  | unlock (job : ℕ)
  /-- At the end of the body. -/
  | leave (job : ℕ)

def BodyPc.job? : BodyPc → Option ℕ
  | .outside => none
  | .enter j => some j
  | .validating j => some j
  | .lock j _ => some j
  | .pushBack j _ => some j
  | .unlock j => some j
  | .leave j => some j

/-- The validator, and the `ResultsCollector` with its mutex. -/
structure Bench (ι V : Type*) where
  risk : Risk.State ι V
  pc : ι → BodyPc
  mtx : Option ι
  results : List ValidationResult

section

variable {ι V : Type*} [DecidableEq ι]

def benchRet (b : Bench ι V) (t : ι) : Option (Bench ι V) :=
  match b.pc t with
  | .leave _ => some { b with pc := Function.update b.pc t .outside }
  | _ => none

theorem benchRet_cases {b b' : Bench ι V} {t : ι} (h : benchRet b t = some b') :
    ∃ j, b.pc t = .leave j ∧ b' = { b with pc := Function.update b.pc t .outside } := by
  unfold benchRet at h
  split at h
  · next j hpc =>
    cases h
    exact ⟨j, hpc, rfl⟩
  · cases h

theorem job?_update {pc : ι → BodyPc} {t : ι} {p : BodyPc} (h : p.job? = (pc t).job?) :
    (fun u => (Function.update pc t p u).job?) = fun u => (pc u).job? := by
  funext u
  rcases eq_or_ne u t with rfl | hut
  · rw [Function.update_self, h]
  · rw [Function.update_of_ne hut]

/-! ### Where the workers are -/

def BodyPc.holding : BodyPc → Bool
  | .pushBack _ _ => true
  | .unlock _ => true
  | _ => false

/-- The result that a worker is about to put into the collector. -/
def carrying : BodyPc → Multiset ValidationResult
  | .lock _ r => {r}
  | .pushBack _ r => {r}
  | _ => 0

variable {b : Bench ι V} {t : ι} {p : BodyPc}

theorem mutex_update (h : ∀ t, (b.pc t).holding = true ↔ b.mtx = some t)
    (hp : p.holding = (b.pc t).holding) (u : ι) :
    (Function.update b.pc t p u).holding = true ↔ b.mtx = some u := by
  rcases eq_or_ne u t with rfl | hut
  · rw [Function.update_self, hp]
    exact h u
  · rw [Function.update_of_ne hut]
    exact h u

theorem idle_update {pc : ι → Risk.Pc V}
    (h : ∀ u, (∀ j, b.pc u ≠ .validating j) → b.risk.pc u = .idle)
    (hpc : ∀ u, u ≠ t → pc u = b.risk.pc u)
    (ht : (∀ j, p ≠ .validating j) → pc t = .idle) (u : ι)
    (hu : ∀ j, Function.update b.pc t p u ≠ .validating j) : pc u = .idle := by
  rcases eq_or_ne u t with rfl | hut
  · exact ht (by simpa using hu)
  · rw [hpc u hut]
    exact h u (by simpa [hut] using hu)

theorem sum_move {α : Type*} [Fintype ι] (f : BodyPc → Multiset α) {pc : ι → BodyPc} {q : BodyPc}
    {x y : Multiset α} (h : pc t = q) (hx : f q = x) (hy : f p = y) :
    ∑ u, f (Function.update pc t p u) + x = ∑ u, f (pc u) + y := by
  rw [← hx, ← hy, ← h]
  exact sum_update_add f pc t p

end

section

variable {ι V : Type*} [DecidableEq ι] [Zero V] [NatCast V] [Mul V] [Sub V] [Add V] [LT V]
  [DecidableLT V] [LE V] [DecidableLE V] [DecidableEq V]

/-- A step of a worker inside its job. -/
def benchStep (orders : List (Order V)) (store : AccountStore V) (b : Bench ι V) (t : ι)
    (spurious : Bool) : Option (Bench ι V) :=
  match b.pc t with
  | .enter j => (orders[j]?).bind fun o =>
    ((Risk.machine ι store).step b.risk (.call t o)).map fun r =>
      { b with risk := r, pc := Function.update b.pc t (.validating j) }
  | .validating j =>
    match b.risk.pc t with
    | .returned _ r =>
      ((Risk.machine ι store).step b.risk (.ret t)).map fun s =>
        { b with risk := s, pc := Function.update b.pc t (.lock j r) }
    | _ =>
      ((Risk.machine ι store).step b.risk (.step t spurious)).map fun s => { b with risk := s }
  | .lock j r =>
    match b.mtx with
    | none => some { b with mtx := some t, pc := Function.update b.pc t (.pushBack j r) }
    | some _ => none
  | .pushBack j r => some { b with
      results := b.results ++ [r]
      pc := Function.update b.pc t (.unlock j) }
  | .unlock j => some { b with mtx := none, pc := Function.update b.pc t (.leave j) }
  | _ => none

/-- **What a step inside a job does.** -/
theorem benchStep_cases {orders : List (Order V)} {store : AccountStore V} {b b' : Bench ι V}
    {t : ι} {spurious : Bool} (h : benchStep orders store b t spurious = some b') :
    (∃ j o r, b.pc t = .enter j ∧ orders[j]? = some o ∧
      (Risk.machine ι store).step b.risk (.call t o) = some r ∧
      b' = { b with risk := r, pc := Function.update b.pc t (.validating j) }) ∨
    (∃ j id r s, b.pc t = .validating j ∧ b.risk.pc t = .returned id r ∧
      (Risk.machine ι store).step b.risk (.ret t) = some s ∧
      b' = { b with risk := s, pc := Function.update b.pc t (.lock j r) }) ∨
    (∃ j s, b.pc t = .validating j ∧
      (Risk.machine ι store).step b.risk (.step t spurious) = some s ∧ b' = { b with risk := s }) ∨
    (∃ j r, b.pc t = .lock j r ∧ b.mtx = none ∧
      b' = { b with mtx := some t, pc := Function.update b.pc t (.pushBack j r) }) ∨
    (∃ j r, b.pc t = .pushBack j r ∧
      b' = { b with results := b.results ++ [r], pc := Function.update b.pc t (.unlock j) }) ∨
    ∃ j, b.pc t = .unlock j ∧ b' = { b with mtx := none, pc := Function.update b.pc t (.leave j) } := by
  unfold benchStep at h
  split at h
  · next j hpc =>
    obtain ⟨o, ho, h⟩ := Option.bind_eq_some_iff.mp h
    obtain ⟨r, hr, rfl⟩ := Option.map_eq_some_iff.mp h
    exact .inl ⟨j, o, r, hpc, ho, hr, rfl⟩
  · next j hpc =>
    split at h
    · next id r hr =>
      obtain ⟨s, hs, rfl⟩ := Option.map_eq_some_iff.mp h
      exact .inr (.inl ⟨j, id, r, s, hpc, hr, hs, rfl⟩)
    · obtain ⟨s, hs, rfl⟩ := Option.map_eq_some_iff.mp h
      exact .inr (.inr (.inl ⟨j, s, hpc, hs, rfl⟩))
  · next j r hpc =>
    split at h
    · next hm =>
      cases h
      exact .inr (.inr (.inr (.inl ⟨j, r, hpc, hm, rfl⟩)))
    · cases h
  · next j r hpc =>
    cases h
    exact .inr (.inr (.inr (.inr (.inl ⟨j, r, hpc, rfl⟩))))
  · next j hpc =>
    cases h
    exact .inr (.inr (.inr (.inr (.inr ⟨j, hpc, rfl⟩))))
  · cases h

def benchCode (ι : Type*) [DecidableEq ι] (orders : List (Order V)) (store : AccountStore V) :
    Code ι ℕ (Bench ι V) where
  init b := b = ⟨⟨store, fun _ => .idle, [], []⟩, fun _ => .outside, none, []⟩
  call b t j := { b with pc := Function.update b.pc t (.enter j) }
  step := benchStep orders store
  ret := benchRet
  inside b t := (b.pc t).job?
  inside_init b t h := by
    rw [h]
    rfl
  inside_call b t j := by
    funext u
    rcases eq_or_ne u t with rfl | hut
    · simp [BodyPc.job?]
    · simp [hut]
  inside_step b t c b' h := by
    obtain ⟨j, o, r, hpc, -, -, rfl⟩ | ⟨j, id, r, s, hpc, -, -, rfl⟩ | ⟨j, s, hpc, -, rfl⟩ |
      ⟨j, r, hpc, -, rfl⟩ | ⟨j, r, hpc, rfl⟩ | ⟨j, hpc, rfl⟩ := benchStep_cases h
    · exact job?_update (by rw [hpc]; rfl)
    · exact job?_update (by rw [hpc]; rfl)
    · rfl
    · exact job?_update (by rw [hpc]; rfl)
    · exact job?_update (by rw [hpc]; rfl)
    · exact job?_update (by rw [hpc]; rfl)
  inside_ret b t b' h := by
    obtain ⟨j, hpc, rfl⟩ := benchRet_cases h
    funext u
    rcases eq_or_ne u t with rfl | hut
    · simp [BodyPc.job?]
    · simp [hut]

/-! ### Where the orders and the results are -/

/-- The order that a worker is about to validate. -/
def entering (orders : List (Order V)) : BodyPc → Multiset (Option (Order V))
  | .enter j => {orders[j]?}
  | _ => 0

variable [Fintype ι]

/-- **Every job's order is validated, and every result collected, once**; `js` are the jobs that were
called. -/
structure Tallied (orders : List (Order V)) (store : AccountStore V) (b : Bench ι V)
    (js : List ℕ) : Prop where
  risk : (Risk.machine ι store).Reachable b.risk
  calls : ((calls b.risk.hist).map fun c => some c.2 : Multiset (Option (Order V))) +
    ∑ t, entering orders (b.pc t) = js.map fun j => orders[j]?
  results : (b.results : Multiset ValidationResult) + ∑ t, carrying (b.pc t) =
    (answers b.risk.hist).map Prod.snd
  idle : ∀ t, (∀ j, b.pc t ≠ .validating j) → b.risk.pc t = .idle
  mutex : ∀ t, (b.pc t).holding = true ↔ b.mtx = some t

variable {orders : List (Order V)} {store : AccountStore V} {b b' : Bench ι V} {js : List ℕ}
  {t : ι} {p : BodyPc}

theorem Tallied.init (b : Bench ι V) (h : (benchCode ι orders store).init b) :
    Tallied orders store b [] := by
  obtain rfl : b = _ := h
  refine ⟨.init rfl, ?_, ?_, fun _ _ => rfl, fun t => ?_⟩
  · simp [Lib.calls, entering]
  · simp [Lib.answers, carrying]
  · simp [BodyPc.holding]

theorem Tallied.call (h : Tallied orders store b js) (job : ℕ) (hpc : b.pc t = .outside) :
    Tallied orders store ({ b with pc := Function.update b.pc t (.enter job) } : Bench ι V)
      (js ++ [job]) := by
  have he := sum_move (p := .enter job) (x := 0) (y := {orders[job]?}) (entering orders) hpc rfl rfl
  have hc := sum_move (p := .enter job) (x := 0) (y := 0) carrying hpc rfl rfl
  rw [add_zero] at he hc
  rw [add_zero] at hc
  refine ⟨h.risk, ?_, ?_, idle_update h.idle (fun _ _ => rfl) fun _ => ?_,
    mutex_update h.mutex (by rw [hpc]; rfl)⟩
  · dsimp only
    rw [he, ← add_assoc, h.calls, List.map_append, List.map_singleton, ← Multiset.coe_add]
    rfl
  · dsimp only
    rw [hc, h.results]
  · exact h.idle t (by rw [hpc]; nofun)

theorem Tallied.step {spurious : Bool} (h : Tallied orders store b js)
    (hs : benchStep orders store b t spurious = some b') : Tallied orders store b' js := by
  obtain ⟨j, o, r, hpc, ho, hr, rfl⟩ | ⟨j, id, res, s, hpc, hret, hr, rfl⟩ | ⟨j, s, hpc, hr, rfl⟩ |
    ⟨j, res, hpc, hm, rfl⟩ | ⟨j, res, hpc, rfl⟩ | ⟨j, hpc, rfl⟩ := benchStep_cases hs
  · -- the order is handed to `validate`
    have he := sum_move (p := .validating j) (x := {orders[j]?}) (y := 0) (entering orders) hpc rfl rfl
    have hc := sum_move (p := .validating j) (x := 0) (y := 0) carrying hpc rfl rfl
    rw [add_zero, ho] at he
    rw [add_zero, add_zero] at hc
    have hrisk := h.risk.step trivial hr
    have hidle := h.idle t (by simp [hpc])
    simp only [Risk.machine, hidle] at hr
    cases hr
    refine ⟨hrisk, ?_, ?_, idle_update h.idle (fun u hu => Function.update_of_ne hu ..) fun hv => ?_,
      mutex_update h.mutex (by rw [hpc]; rfl)⟩
    · have hcalls : Lib.calls (b.risk.hist ++ [.call b.risk.hist.length o]) =
          Lib.calls b.risk.hist ++ [(b.risk.hist.length, o)] := List.filterMap_append ..
      dsimp only
      rw [hcalls, List.map_append, List.map_singleton, ← Multiset.coe_add, ← h.calls, ← he,
        Multiset.coe_singleton]
      abel
    · have hans : Lib.answers (b.risk.hist ++ [.call b.risk.hist.length o]) =
          Lib.answers b.risk.hist := (List.filterMap_append ..).trans (List.append_nil _)
      dsimp only
      rw [hans, hc, h.results]
    · exact absurd rfl (hv j)
  · -- the result is carried to the collector
    have he := sum_move (p := .lock j res) (x := 0) (y := 0) (entering orders) hpc rfl rfl
    have hc := sum_move (p := .lock j res) (x := 0) (y := {res}) carrying hpc rfl rfl
    rw [add_zero, add_zero] at he
    rw [add_zero] at hc
    have hrisk := h.risk.step trivial hr
    simp only [Risk.machine, hret] at hr
    cases hr
    refine ⟨hrisk, ?_, ?_, idle_update h.idle (fun u hu => Function.update_of_ne hu ..) fun _ => ?_,
      mutex_update h.mutex (by rw [hpc]; rfl)⟩
    · have hcalls : Lib.calls (b.risk.hist ++ [.ret id res]) = Lib.calls b.risk.hist :=
        (List.filterMap_append ..).trans (List.append_nil _)
      dsimp only
      rw [hcalls, he, h.calls]
    · have hans : Lib.answers (b.risk.hist ++ [.ret id res]) =
          Lib.answers b.risk.hist ++ [(id, res)] := List.filterMap_append ..
      dsimp only
      rw [hans, List.map_append, List.map_singleton, ← Multiset.coe_add, ← h.results, hc,
        Multiset.coe_singleton]
      abel
    · exact Function.update_self ..
  · -- inside `validate`
    have hrisk := h.risk.step trivial hr
    obtain ⟨⟨store', k⟩, hk, rfl⟩ := Option.map_eq_some_iff.mp hr
    refine ⟨hrisk, h.calls, h.results, fun u hu => ?_, h.mutex⟩
    have hut : u ≠ t := by
      rintro rfl
      exact hu j hpc
    exact (Function.update_of_ne hut ..).trans (h.idle u hu)
  · have he := sum_move (p := .pushBack j res) (x := 0) (y := 0) (entering orders) hpc rfl rfl
    have hc := sum_move (p := .pushBack j res) (x := {res}) (y := {res}) carrying hpc rfl rfl
    rw [add_zero, add_zero] at he
    refine ⟨h.risk, ?_, ?_, idle_update h.idle (fun _ _ => rfl) fun _ => ?_, fun u => ?_⟩
    · dsimp only
      rw [he, h.calls]
    · dsimp only
      rw [add_right_cancel hc, h.results]
    · exact h.idle t (by simp [hpc])
    · rcases eq_or_ne u t with rfl | hut
      · simp [BodyPc.holding]
      · have := h.mutex u
        rw [hm] at this
        simpa [hut, hut.symm] using this
  · have he := sum_move (p := .unlock j) (x := 0) (y := 0) (entering orders) hpc rfl rfl
    have hc := sum_move (p := .unlock j) (x := {res}) (y := 0) carrying hpc rfl rfl
    rw [add_zero, add_zero] at he
    rw [add_zero] at hc
    refine ⟨h.risk, ?_, ?_, idle_update h.idle (fun _ _ => rfl) fun _ => ?_,
      mutex_update h.mutex (by rw [hpc]; rfl)⟩
    · dsimp only
      rw [he, h.calls]
    · dsimp only
      rw [← h.results, ← hc, ← Multiset.coe_add, Multiset.coe_singleton]
      abel
    · exact h.idle t (by simp [hpc])
  · have he := sum_move (p := .leave j) (x := 0) (y := 0) (entering orders) hpc rfl rfl
    have hc := sum_move (p := .leave j) (x := 0) (y := 0) carrying hpc rfl rfl
    rw [add_zero, add_zero] at he hc
    have hmine : b.mtx = some t := (h.mutex t).mp (by rw [hpc]; rfl)
    refine ⟨h.risk, ?_, ?_, idle_update h.idle (fun _ _ => rfl) fun _ => ?_, fun u => ?_⟩
    · dsimp only
      rw [he, h.calls]
    · dsimp only
      rw [hc, h.results]
    · exact h.idle t (by simp [hpc])
    · rcases eq_or_ne u t with rfl | hut
      · simp [BodyPc.holding]
      · have := h.mutex u
        rw [hmine] at this
        simpa [hut, hut.symm] using this

theorem Tallied.ret (h : Tallied orders store b js) (hs : benchRet b t = some b') :
    Tallied orders store b' js := by
  obtain ⟨j, hpc, rfl⟩ := benchRet_cases hs
  have he := sum_move (p := .outside) (x := 0) (y := 0) (entering orders) hpc rfl rfl
  have hc := sum_move (p := .outside) (x := 0) (y := 0) carrying hpc rfl rfl
  rw [add_zero, add_zero] at he hc
  refine ⟨h.risk, ?_, ?_, idle_update h.idle (fun _ _ => rfl) fun _ => ?_,
    mutex_update h.mutex (by rw [hpc]; rfl)⟩
  · dsimp only
    rw [he, h.calls]
  · dsimp only
    rw [hc, h.results]
  · exact h.idle t (by rw [hpc]; nofun)

theorem tallied_of_reachable {p : Bench ι V × List ℕ}
    (h : (benchCode ι orders store).machine.Reachable p) : Tallied orders store p.1 p.2 := by
  refine Code.invariant (P := Tallied orders store) .init (fun b js t job hi hin => ?_)
    (fun b js t c b' hi hs => hi.step hs) (fun b js t b' hi hs => hi.ret hs) h
  refine hi.call job ?_
  have hj : (b.pc t).job? = none := hin
  cases hpc : b.pc t with
  | outside => rfl
  | _ =>
    rw [hpc] at hj
    cases hj

/-! ### When the pool is gone -/

variable {main : ι} {workers : List ι} {capacity : ℕ} {maxSpinners : ℤ} {s : Hosted ι (Bench ι V)}

/-- **The pool's run is a sequential run**: when the pool is gone, there is an order of the orders
for which the collector holds the results of `validateAll`, and the store its balances. -/
theorem run_sequential (h2 : 2 ≤ capacity) (hw : workers ≠ []) (hn : orders.length < 2 ^ 63)
    (h : (hostMachine (benchCode ι orders store) main orders.length workers capacity
      maxSpinners).Reachable s) (hj : s.pool.joined = true) :
    ∃ l, l.Perm orders ∧ s.body.results.Perm ((validateAll store l).1.map Prod.snd) ∧
      s.body.risk.store = (validateAll store l).2 ∧ s.pool.completed = orders.length := by
  obtain ⟨hperm, hinside, hcompleted⟩ := hosted_joined h2 hw hn h hj
  have ht := tallied_of_reachable (hosted_body h)
  have hout : ∀ t, s.body.pc t = .outside := by
    intro t
    have hj : (s.body.pc t).job? = none := hinside t
    cases hpc : s.body.pc t with
    | outside => rfl
    | _ =>
      rw [hpc] at hj
      cases hj
  have hfin : s.body.risk.Finished := fun t => ht.idle t (by rw [hout t]; nofun)
  obtain ⟨hl, -, hstore⟩ := finished_of_reachable ht.risk hfin
  have hi := Risk.inv_of_reachable ht.risk
  have hplace : ∀ t, (Risk.Pc.place ∘ s.body.risk.pc) t = .outside := by
    intro t
    rw [Function.comp_apply, hfin t]
    rfl
  refine ⟨s.body.risk.log.map Entry.arg, hl.symm.trans ?_, ?_, hstore, hcompleted⟩
  · -- the orders that were called for
    have hcalls := ht.calls
    simp only [hout, entering, Finset.sum_const_zero, add_zero] at hcalls
    have hall : (s.pool.executed.map fun j => orders[j]?).Perm (orders.map some) := by
      refine (hperm.map _).trans (.of_eq ?_)
      exact List.ext_getElem (by simp) fun i _ _ => by simp
    have := (Multiset.coe_eq_coe.mp hcalls).trans hall
    have := this.filterMap (fun o => o)
    simpa [State.orders, List.filterMap_map, Function.comp_def] using this
  · have hres := ht.results
    simp only [hout, carrying, Finset.sum_const_zero, add_zero] at hres
    refine (Multiset.coe_eq_coe.mp hres).trans ?_
    have := (hi.logged.answers_perm hplace).map Prod.snd
    rw [validateAll_of_legal hi.legal]
    simpa [Function.comp_def, Entry.label] using this

end

end OrderRisk.Harness
