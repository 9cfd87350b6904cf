import OrderRisk.Pool.Program
import OrderRisk.Harness.Stats
import OrderRisk.Fix.Text

/-!
# The latencies of `runBenchmark` and `burstTest`

Each worker keeps the latencies of its jobs in a vector of its own, at the slot it has drawn from
`nextSlot` when it ran its first job of the kind; nothing locks the vectors.  No two workers draw one
slot, no slot is beyond the vectors (`slots_private`), and no latency is lost although `push_back`
reads the vector and writes it back later (`benchmark_latencies`).

A kind of job is one lambda of the source, with its own `static thread_local` and its own counter:
`runBenchmark` has one, `burstTest` two.  What `validate` does is left out here but for the latency
that it measures.
-/

namespace OrderRisk.Harness

open OrderRisk.Lib OrderRisk.Fix OrderRisk.Pool

/-- Where a worker is inside a job. -/
inductive SlotPc (L : Type*) where
  | outside
  /-- `mySlot == -1`. -/
  | readSlot (job : ℕ)
  /-- `nextSlot.fetch_add(1)`. -/
  | fetchAdd (job : ℕ)
  | validate (job : ℕ)
  /-- `push_back` looks at the vector, .. -/
  | readEnd (job : ℕ)
  /-- .. and has the element written behind what it has seen. -/
  | writeEnd (job : ℕ) (seen : List L)
  /-- At the end of the body. -/
  | leave (job : ℕ)

def SlotPc.job? {L : Type*} : SlotPc L → Option ℕ
  | .outside => none
  | .readSlot j => some j
  | .fetchAdd j => some j
  | .validate j => some j
  | .readEnd j => some j
  | .writeEnd j _ => some j
  | .leave j => some j

/-- `static_cast<int>` of a `size_t`. -/
def toInt (n : ℕ) : ℤ := Int.bmod n (2 ^ 32)

/-- The slots, the counters and the vectors of the kinds `κ`. -/
structure Shards (ι κ L : Type*) where
  mySlot : ι → κ → ℤ
  nextSlot : κ → ℕ
  latencies : κ → List (List L)
  pc : ι → SlotPc L

section

variable {ι κ L : Type*} [DecidableEq ι] [DecidableEq κ]

/-- The place of the thread's vector; `none` for a negative slot. -/
def Shards.index (b : Shards ι κ L) (t : ι) (k : κ) : Option ℕ := (b.mySlot t k).toNat?

/-- A step of a worker inside its job; `none` where it would read or write beyond the vectors. -/
def slotStep (kind : ℕ → κ) (latency : ℕ → L) (b : Shards ι κ L) (t : ι) : Option (Shards ι κ L) :=
  match b.pc t with
  | .readSlot j => some { b with
      pc := Function.update b.pc t
        (if b.mySlot t (kind j) = -1 then .fetchAdd j else .validate j) }
  | .fetchAdd j => some { b with
      mySlot := Function.update b.mySlot t
        (Function.update (b.mySlot t) (kind j) (toInt (b.nextSlot (kind j))))
      nextSlot := Function.update b.nextSlot (kind j) (sizeT (b.nextSlot (kind j) + 1))
      pc := Function.update b.pc t (.validate j) }
  | .validate j => some { b with pc := Function.update b.pc t (.readEnd j) }
  | .readEnd j => (b.index t (kind j)).bind fun i => (b.latencies (kind j))[i]?.map fun v =>
      { b with pc := Function.update b.pc t (.writeEnd j v) }
  | .writeEnd j v => (b.index t (kind j)).map fun i => { b with
      latencies := Function.update b.latencies (kind j)
        ((b.latencies (kind j)).set i (v ++ [latency j]))
      pc := Function.update b.pc t (.leave j) }
  | _ => none

def slotRet (b : Shards ι κ L) (t : ι) : Option (Shards ι κ L) :=
  match b.pc t with
  | .leave _ => some { b with pc := Function.update b.pc t .outside }
  | _ => none

variable {kind : ℕ → κ} {latency : ℕ → L} {b b' : Shards ι κ L} {t : ι}

/-- **What a step inside a job does.** -/
theorem slotStep_cases (h : slotStep kind latency b t = some b') :
    (∃ j, b.pc t = .readSlot j ∧ b.mySlot t (kind j) = -1 ∧
      b' = { b with pc := Function.update b.pc t (.fetchAdd j) }) ∨
    (∃ j, b.pc t = .readSlot j ∧ b.mySlot t (kind j) ≠ -1 ∧
      b' = { b with pc := Function.update b.pc t (.validate j) }) ∨
    (∃ j, b.pc t = .fetchAdd j ∧ b' = { b with
      mySlot := Function.update b.mySlot t
        (Function.update (b.mySlot t) (kind j) (toInt (b.nextSlot (kind j))))
      nextSlot := Function.update b.nextSlot (kind j) (sizeT (b.nextSlot (kind j) + 1))
      pc := Function.update b.pc t (.validate j) }) ∨
    (∃ j, b.pc t = .validate j ∧ b' = { b with pc := Function.update b.pc t (.readEnd j) }) ∨
    (∃ j i v, b.pc t = .readEnd j ∧ b.index t (kind j) = some i ∧
      (b.latencies (kind j))[i]? = some v ∧
      b' = { b with pc := Function.update b.pc t (.writeEnd j v) }) ∨
    ∃ j i v, b.pc t = .writeEnd j v ∧ b.index t (kind j) = some i ∧ b' = { b with
      latencies := Function.update b.latencies (kind j)
        ((b.latencies (kind j)).set i (v ++ [latency j]))
      pc := Function.update b.pc t (.leave j) } := by
  unfold slotStep at h
  split at h
  · next j hpc =>
    cases h
    by_cases hs : b.mySlot t (kind j) = -1
    · exact .inl ⟨j, hpc, hs, by rw [if_pos hs]⟩
    · exact .inr (.inl ⟨j, hpc, hs, by rw [if_neg hs]⟩)
  · next j hpc =>
    cases h
    exact .inr (.inr (.inl ⟨j, hpc, rfl⟩))
  · next j hpc =>
    cases h
    exact .inr (.inr (.inr (.inl ⟨j, hpc, rfl⟩)))
  · next j hpc =>
    obtain ⟨i, hi, h⟩ := Option.bind_eq_some_iff.mp h
    obtain ⟨v, hv, rfl⟩ := Option.map_eq_some_iff.mp h
    exact .inr (.inr (.inr (.inr (.inl ⟨j, i, v, hpc, hi, hv, rfl⟩))))
  · next j v hpc =>
    obtain ⟨i, hi, rfl⟩ := Option.map_eq_some_iff.mp h
    exact .inr (.inr (.inr (.inr (.inr ⟨j, i, v, hpc, hi, rfl⟩))))
  · cases h

omit [DecidableEq κ] in
theorem slotRet_cases (h : slotRet b t = some b') :
    ∃ j, b.pc t = .leave j ∧ b' = { b with pc := Function.update b.pc t .outside } := by
  unfold slotRet at h
  split at h
  · next j hpc =>
    cases h
    exact ⟨j, hpc, rfl⟩
  · cases h

theorem SlotPc.job?_update {pc : ι → SlotPc L} {p : SlotPc L} (h : p.job? = (pc t).job?) :
    (fun u => (Function.update pc t p u).job?) = fun u => (pc u).job? := by
  funext u
  rcases eq_or_ne u t with rfl | hut
  · rw [Function.update_self, h]
  · rw [Function.update_of_ne hut]

/-- The code of the jobs, with `n` vectors for each kind. -/
def slotCode (ι : Type*) [DecidableEq ι] (kind : ℕ → κ) (latency : ℕ → L) (n : ℕ) :
    Code ι ℕ (Shards ι κ L) where
  init b := b = ⟨fun _ _ => -1, fun _ => 0, fun _ => List.replicate n [], fun _ => .outside⟩
  call b t j := { b with pc := Function.update b.pc t (.readSlot j) }
  step b t _ := slotStep kind latency b t
  ret := slotRet
  inside b t := (b.pc t).job?
  inside_init b t h := by
    rw [h]
    rfl
  inside_call b t j := by
    funext u
    rcases eq_or_ne u t with rfl | hut
    · simp [SlotPc.job?]
    · simp [hut]
  inside_step b t c b' h := by
    obtain ⟨j, hpc, -, rfl⟩ | ⟨j, hpc, -, rfl⟩ | ⟨j, hpc, rfl⟩ | ⟨j, hpc, rfl⟩ |
      ⟨j, i, v, hpc, -, -, rfl⟩ | ⟨j, i, v, hpc, -, rfl⟩ := slotStep_cases h <;>
    exact SlotPc.job?_update (by rw [hpc]; rfl)
  inside_ret b t b' h := by
    obtain ⟨j, hpc, rfl⟩ := slotRet_cases h
    funext u
    rcases eq_or_ne u t with rfl | hut
    · simp [SlotPc.job?]
    · simp [hut]

end

/-! ### One slot for each worker -/

section

variable {ι κ L : Type*} [DecidableEq ι] [DecidableEq κ]

/-- The job whose latency the worker has yet to add. -/
def SlotPc.owing : SlotPc L → Option ℕ
  | .outside => none
  | .leave _ => none
  | .readSlot j => some j
  | .fetchAdd j => some j
  | .validate j => some j
  | .readEnd j => some j
  | .writeEnd j _ => some j

def latenciesOf (kind : ℕ → κ) (latency : ℕ → L) (k : κ) (js : List ℕ) : List L :=
  (js.filter (kind · = k)).map latency

/-- The worker has gone past `fetch_add` for a job. -/
def SlotPc.pastSlot : SlotPc L → Option ℕ
  | .validate j => some j
  | .readEnd j => some j
  | .writeEnd j _ => some j
  | _ => none

variable [Fintype ι]

/-- The workers that have a slot. -/
def Shards.owners (b : Shards ι κ L) (k : κ) : Finset ι := Finset.univ.filter (b.mySlot · k ≠ -1)

/-- **The slots are private**, and the latencies of the jobs `js` are in the vectors or on their way
there. -/
structure Sharded (kind : ℕ → κ) (latency : ℕ → L) (n : ℕ) (b : Shards ι κ L) (js : List ℕ) :
    Prop where
  slot : ∀ t k, b.mySlot t k ≠ -1 → ∃ i < b.nextSlot k, b.mySlot t k = i
  distinct : ∀ t u k, b.mySlot t k ≠ -1 → b.mySlot t k = b.mySlot u k → t = u
  counted : ∀ k, b.nextSlot k = (b.owners k).card
  fresh : ∀ t j, b.pc t = .fetchAdd j → b.mySlot t (kind j) = -1
  owned : ∀ t j, (b.pc t).pastSlot = some j → b.mySlot t (kind j) ≠ -1
  seen : ∀ t j v, b.pc t = .writeEnd j v →
    ∃ i, b.index t (kind j) = some i ∧ (b.latencies (kind j))[i]? = some v
  collected : ∀ k, ((b.latencies k).flatten : Multiset L) +
    ∑ t, (latenciesOf kind latency k (b.pc t).owing.toList : Multiset L) = latenciesOf kind latency k js
  length : ∀ k, (b.latencies k).length = n

variable {kind : ℕ → κ} {latency : ℕ → L} {n : ℕ} {b b' : Shards ι κ L} {js : List ℕ} {t : ι}
  {p : SlotPc L} {k : κ}

theorem Sharded.init (b : Shards ι κ L) (h : (slotCode ι kind latency n).init b) :
    Sharded kind latency n b [] := by
  obtain rfl : b = _ := h
  refine ⟨fun _ _ h => absurd rfl h, fun _ _ _ h => absurd rfl h, fun k => ?_, fun _ _ => nofun,
    fun _ _ => nofun, fun _ _ _ => nofun, fun k => ?_, fun k => List.length_replicate⟩
  · simp [Shards.owners]
  · simp [latenciesOf, SlotPc.owing]

omit [DecidableEq ι] [Fintype ι] in
theorem latenciesOf_append (l l' : List ℕ) : latenciesOf kind latency k (l ++ l') =
    latenciesOf kind latency k l ++ latenciesOf kind latency k l' := by
  rw [latenciesOf, List.filter_append, List.map_append]
  rfl

/-- A worker moves, and leaves the slots and the vectors as they are. -/
theorem Sharded.move (h : Sharded kind latency n b js) (howing : p.owing = (b.pc t).owing)
    (hfresh : ∀ j, p = .fetchAdd j → b.mySlot t (kind j) = -1)
    (howned : ∀ j, p.pastSlot = some j → b.mySlot t (kind j) ≠ -1)
    (hseen : ∀ j v, p = .writeEnd j v →
      ∃ i, b.index t (kind j) = some i ∧ (b.latencies (kind j))[i]? = some v) :
    Sharded kind latency n { b with pc := Function.update b.pc t p } js := by
  refine ⟨h.slot, h.distinct, h.counted, fun u j hu => ?_, fun u j hu => ?_, fun u j v hu => ?_,
    fun k => ?_, h.length⟩
  · rcases eq_or_ne u t with rfl | hut
    · exact hfresh j (by simpa using hu)
    · exact h.fresh u j (by simpa [hut] using hu)
  · rcases eq_or_ne u t with rfl | hut
    · exact howned j (by simpa using hu)
    · exact h.owned u j (by simpa [hut] using hu)
  · rcases eq_or_ne u t with rfl | hut
    · exact hseen j v (by simpa using hu)
    · exact h.seen u j v (by simpa [hut] using hu)
  · have hsum := sum_update_add (fun p : SlotPc L =>
      (latenciesOf kind latency k p.owing.toList : Multiset L)) b.pc t p
    rw [howing] at hsum
    rw [add_right_cancel hsum]
    exact h.collected k

theorem Sharded.call (h : Sharded kind latency n b js) (job : ℕ) (hpc : b.pc t = .outside) :
    Sharded kind latency n { b with pc := Function.update b.pc t (.readSlot job) } (js ++ [job]) := by
  refine ⟨h.slot, h.distinct, h.counted, fun u j hu => ?_, fun u j hu => ?_, fun u j v hu => ?_,
    fun k => ?_, h.length⟩
  · rcases eq_or_ne u t with rfl | hut
    · simp at hu
    · exact h.fresh u j (by simpa [hut] using hu)
  · rcases eq_or_ne u t with rfl | hut
    · simp [SlotPc.pastSlot] at hu
    · exact h.owned u j (by simpa [hut] using hu)
  · rcases eq_or_ne u t with rfl | hut
    · simp at hu
    · exact h.seen u j v (by simpa [hut] using hu)
  · have hsum := sum_update_add (fun p : SlotPc L =>
      (latenciesOf kind latency k p.owing.toList : Multiset L)) b.pc t (.readSlot job)
    have hnil : latenciesOf kind latency k (b.pc t).owing.toList = [] := by
      rw [hpc]
      rfl
    rw [hnil, Multiset.coe_nil, add_zero] at hsum
    rw [hsum, ← add_assoc, h.collected k, latenciesOf_append, Multiset.coe_add]
    rfl

theorem toInt_of_lt {m : ℕ} (h : m < 2 ^ 31) : toInt m = m := by
  refine Int.bmod_eq_of_le_mul_two ?_ ?_ <;> push_cast <;> omega

omit [DecidableEq ι] [DecidableEq κ] [Fintype ι] in
theorem Shards.index_eq (b : Shards ι κ L) {i : ℕ} (h : b.mySlot t k = i) : b.index t k = some i := by
  rw [Shards.index, h]
  rfl

omit [DecidableEq ι] [DecidableEq κ] [Fintype ι] in
theorem Shards.mySlot_eq (b : Shards ι κ L) {i : ℕ} (h : b.index t k = some i) :
    b.mySlot t k = i :=
  Int.mem_toNat?.mp h

omit [Fintype ι] in
theorem update_slot (f : ι → κ → ℤ) (t : ι) (k : κ) (x : ℤ) (u : ι) (l : κ) :
    Function.update f t (Function.update (f t) k x) u l = if u = t ∧ l = k then x else f u l := by
  rcases eq_or_ne u t with rfl | hut
  · rcases eq_or_ne l k with rfl | hlk
    · simp
    · simp [hlk]
  · simp [hut]

/-- A worker draws its slot. -/
theorem Sharded.draw (h : Sharded kind latency n b js) (hcard : Fintype.card ι < 2 ^ 31) {j : ℕ}
    (hpc : b.pc t = .fetchAdd j) (hslot : ∀ u k, b'.mySlot u k =
      if u = t ∧ k = kind j then toInt (b.nextSlot (kind j)) else b.mySlot u k)
    (hnext : b'.nextSlot =
      Function.update b.nextSlot (kind j) (sizeT (b.nextSlot (kind j) + 1)))
    (hlat : b'.latencies = b.latencies) (hpc' : b'.pc = Function.update b.pc t (.validate j)) :
    Sharded kind latency n b' js := by
  have hnone := h.fresh t j hpc
  have hlt : b.nextSlot (kind j) < Fintype.card ι := by
    rw [h.counted, ← Finset.card_univ]
    exact Finset.card_lt_card (Finset.filter_ssubset.mpr ⟨t, Finset.mem_univ t, by simpa using hnone⟩)
  have hint : toInt (b.nextSlot (kind j)) = b.nextSlot (kind j) := toInt_of_lt (by omega)
  have hsize : sizeT (b.nextSlot (kind j) + 1) = b.nextSlot (kind j) + 1 :=
    Nat.mod_eq_of_lt (by omega)
  rw [hsize] at hnext
  rw [hint] at hslot
  have hkept : ∀ u k, b.mySlot u k ≠ -1 → b'.mySlot u k = b.mySlot u k := by
    intro u k hu
    rw [hslot, if_neg]
    rintro ⟨rfl, rfl⟩
    exact hu hnone
  refine ⟨fun u k hu => ?_, fun u v k hu he => ?_, fun k => ?_, fun u i hu => ?_, fun u i hu => ?_,
    fun u i v hu => ?_, fun k => ?_, fun k => ?_⟩
  · rw [hslot] at hu ⊢
    rw [hnext]
    split at hu
    · next hut =>
      obtain ⟨rfl, rfl⟩ := hut
      exact ⟨b.nextSlot (kind j), by simp, by simp⟩
    · next hut =>
      obtain ⟨i, hi, he⟩ := h.slot u k hu
      refine ⟨i, ?_, by rw [if_neg hut, he]⟩
      rcases eq_or_ne k (kind j) with rfl | hk
      · rw [Function.update_self]
        omega
      · rwa [Function.update_of_ne hk]
  · -- a slot drawn before is below the new one
    have hbelow : ∀ u, b.mySlot u (kind j) ≠ b.nextSlot (kind j) := by
      intro u he
      obtain ⟨i, hi, hi'⟩ := h.slot u (kind j) (by omega)
      omega
    rw [hslot] at hu
    rw [hslot, hslot] at he
    by_cases hk : k = kind j
    · subst hk
      by_cases hut : u = t <;> by_cases hvt : v = t
      · rw [hut, hvt]
      · simp only [hut, hvt, true_and, false_and, if_true, if_false] at he
        exact absurd he.symm (hbelow v)
      · simp only [hut, hvt, true_and, false_and, if_true, if_false] at he
        exact absurd he (hbelow u)
      · simp only [hut, hvt, false_and, if_false] at hu he
        exact h.distinct u v _ hu he
    · simp only [hk, and_false, if_false] at hu he
      exact h.distinct u v k hu he
  · rcases eq_or_ne k (kind j) with rfl | hk
    · have howners : b'.owners (kind j) = insert t (b.owners (kind j)) := by
        ext u
        simp only [Shards.owners, Finset.mem_filter, Finset.mem_univ, true_and, Finset.mem_insert,
          hslot, and_true]
        by_cases hut : u = t
        · simp [hut]
        · simp [hut]
      rw [hnext, Function.update_self, howners, Finset.card_insert_of_notMem, h.counted]
      simpa [Shards.owners] using hnone
    · have howners : b'.owners k = b.owners k := by
        simp only [Shards.owners, hslot, hk, and_false, if_false]
      rw [hnext, Function.update_of_ne hk, howners, h.counted]
  · rw [hpc'] at hu
    rcases eq_or_ne u t with rfl | hut
    · simp at hu
    · rw [Function.update_of_ne hut] at hu
      rw [hslot, if_neg (by simp [hut]), h.fresh u i hu]
  · rw [hpc'] at hu
    rcases eq_or_ne u t with rfl | hut
    · obtain rfl : j = i := by simpa [SlotPc.pastSlot] using hu
      rw [hslot, if_pos ⟨rfl, rfl⟩]
      omega
    · rw [Function.update_of_ne hut] at hu
      have hi := h.owned u i hu
      rwa [hkept u _ hi]
  · rw [hpc'] at hu
    have hut : u ≠ t := by
      rintro rfl
      simp at hu
    rw [Function.update_of_ne hut] at hu
    rw [Shards.index, hkept u _ (h.owned u i (by rw [hu]; rfl)), hlat]
    exact h.seen u i v hu
  · have hsum := sum_update_add (fun p : SlotPc L =>
      (latenciesOf kind latency k p.owing.toList : Multiset L)) b.pc t (.validate j)
    rw [hpc, show (SlotPc.validate j : SlotPc L).owing = (SlotPc.fetchAdd j : SlotPc L).owing from rfl]
      at hsum
    rw [hpc', hlat, add_right_cancel hsum]
    exact h.collected k
  · rw [hlat]
    exact h.length k

omit [DecidableEq ι] [DecidableEq κ] [Fintype ι] in
theorem flatten_set_perm {ls : List (List L)} {i : ℕ} {v : List L} (x : L) (h : ls[i]? = some v) :
    (ls.set i (v ++ [x])).flatten.Perm (ls.flatten ++ [x]) := by
  induction ls generalizing i with
  | nil => cases h
  | cons l ls ih =>
    cases i with
    | zero =>
      obtain rfl : l = v := Option.some.inj h
      rw [List.set_cons_zero, List.flatten_cons, List.flatten_cons, List.append_assoc,
        List.append_assoc]
      exact List.perm_append_comm.append_left l
    | succ i =>
      rw [List.set_cons_succ, List.flatten_cons, List.flatten_cons, List.append_assoc]
      exact (ih h).append_left l

/-- A worker writes to its vector, which still is what it has seen. -/
theorem Sharded.write (h : Sharded kind latency n b js) {i j : ℕ} {v : List L}
    (hpc : b.pc t = .writeEnd j v) (hi : b.index t (kind j) = some i) :
    Sharded kind latency n { b with
      latencies := Function.update b.latencies (kind j)
        ((b.latencies (kind j)).set i (v ++ [latency j]))
      pc := Function.update b.pc t (.leave j) } js := by
  have hmine : b.mySlot t (kind j) = i := b.mySlot_eq hi
  have hv : (b.latencies (kind j))[i]? = some v := by
    obtain ⟨i', hi', hv⟩ := h.seen t j v hpc
    rw [hi] at hi'
    cases hi'
    exact hv
  refine ⟨h.slot, h.distinct, h.counted, fun u j' hu => ?_, fun u j' hu => ?_, fun u j' v' hu => ?_,
    fun k => ?_, fun k => ?_⟩
  · rcases eq_or_ne u t with rfl | hut
    · simp at hu
    · exact h.fresh u j' (by simpa [hut] using hu)
  · rcases eq_or_ne u t with rfl | hut
    · simp [SlotPc.pastSlot] at hu
    · exact h.owned u j' (by simpa [hut] using hu)
  · have hut : u ≠ t := by
      rintro rfl
      simp at hu
    have hu' : b.pc u = .writeEnd j' v' := by simpa [hut] using hu
    obtain ⟨i', hi', hv'⟩ := h.seen u j' v' hu'
    refine ⟨i', hi', ?_⟩
    dsimp only
    rcases eq_or_ne (kind j') (kind j) with hk | hk
    · -- the other worker's vector is another one
      rw [hk, Function.update_self, List.getElem?_set_ne, ← hk, hv']
      rintro rfl
      refine hut (h.distinct u t (kind j') (h.owned u j' (by rw [hu']; rfl)) ?_)
      rw [b.mySlot_eq hi', hk, hmine]
    · rw [Function.update_of_ne hk, hv']
  · have hsum := sum_update_add (fun p : SlotPc L =>
      (latenciesOf kind latency k p.owing.toList : Multiset L)) b.pc t (.leave j)
    have hnil : latenciesOf kind latency k (SlotPc.leave j : SlotPc L).owing.toList = [] := rfl
    have howing : (b.pc t).owing.toList = [j] := by
      rw [hpc]
      rfl
    rw [hnil, howing, Multiset.coe_nil, add_zero] at hsum
    dsimp only
    rw [← h.collected k, ← hsum]
    rcases eq_or_ne k (kind j) with rfl | hk
    · have hone : latenciesOf kind latency (kind j) [j] = [latency j] := by simp [latenciesOf]
      rw [Function.update_self, Multiset.coe_eq_coe.mpr (flatten_set_perm (latency j) hv), hone,
        ← Multiset.coe_add, add_assoc, add_comm (([latency j] : List L) : Multiset L)]
    · have hone : latenciesOf kind latency k [j] = [] := by simp [latenciesOf, hk.symm]
      rw [Function.update_of_ne hk, hone, Multiset.coe_nil, add_zero]
  · dsimp only
    rcases eq_or_ne k (kind j) with rfl | hk
    · rw [Function.update_self, List.length_set, h.length]
    · rw [Function.update_of_ne hk, h.length]

theorem Sharded.step (h : Sharded kind latency n b js) (hcard : Fintype.card ι < 2 ^ 31)
    (hs : slotStep kind latency b t = some b') : Sharded kind latency n b' js := by
  obtain ⟨j, hpc, hslot, rfl⟩ | ⟨j, hpc, hslot, rfl⟩ | ⟨j, hpc, rfl⟩ | ⟨j, hpc, rfl⟩ |
    ⟨j, i, v, hpc, hi, hv, rfl⟩ | ⟨j, i, v, hpc, hi, rfl⟩ := slotStep_cases hs
  · refine h.move (by rw [hpc]; rfl) (fun j' hj => ?_) (fun _ => nofun) fun _ _ => nofun
    cases hj
    exact hslot
  · refine h.move (by rw [hpc]; rfl) (fun _ => nofun) (fun j' hj => ?_) fun _ _ => nofun
    cases hj
    exact hslot
  · exact h.draw hcard hpc (fun u k => update_slot ..) rfl rfl rfl
  · refine h.move (by rw [hpc]; rfl) (fun _ => nofun) (fun j' hj => ?_) fun _ _ => nofun
    cases hj
    exact h.owned t j (by rw [hpc]; rfl)
  · refine h.move (by rw [hpc]; rfl) (fun _ => nofun) (fun j' hj => ?_) fun j' v' hj => ?_
    · cases hj
      exact h.owned t j (by rw [hpc]; rfl)
    · cases hj
      exact ⟨i, hi, hv⟩
  · exact h.write hpc hi

theorem Sharded.ret (h : Sharded kind latency n b js) (hs : slotRet b t = some b') :
    Sharded kind latency n b' js := by
  obtain ⟨j, hpc, rfl⟩ := slotRet_cases hs
  exact h.move (by rw [hpc]; rfl) (fun _ => nofun) (fun _ => nofun) fun _ _ => nofun

theorem sharded_of_reachable (hcard : Fintype.card ι < 2 ^ 31) {p : Shards ι κ L × List ℕ}
    (h : (slotCode ι kind latency n).machine.Reachable p) : Sharded kind latency n p.1 p.2 := by
  refine Code.invariant (P := Sharded kind latency n) .init (fun b js t job hi hin => ?_)
    (fun b js t c b' hi hs => hi.step hcard hs) (fun b js t b' hi hs => hi.ret hs) h
  refine hi.call job ?_
  have hj : (b.pc t).job? = none := hin
  cases hpc : b.pc t with
  | outside => rfl
  | _ =>
    rw [hpc] at hj
    cases hj

/-! ### The program -/

variable {main : ι} {workers : List ι} {capacity : ℕ} {maxSpinners : ℤ}
  {s : Hosted ι (Shards ι κ L)} {m : ℕ}

omit [Fintype ι] in
theorem mySlot_bodyAfter {p : State ι ℕ} {a : Act ι ℕ}
    (h : bodyAfter (slotCode ι kind latency m) b p a = some b') : b'.mySlot = b.mySlot := by
  cases a with
  | popped u =>
    simp only [bodyAfter] at h
    split at h <;> cases h <;> rfl
  | finish u o =>
    obtain ⟨j, -, rfl⟩ := slotRet_cases (show slotRet b u = some b' from h)
    rfl
  | _ =>
    cases h
    rfl

/-- Only workers have slots. -/
theorem mem_workers_of_slot (h2 : 2 ≤ capacity) (hn : n < 2 ^ 63)
    (h : (hostMachine (slotCode ι kind latency m) main n workers capacity maxSpinners).Reachable s)
    (hslot : s.body.mySlot t k ≠ -1) : t ∈ workers := by
  induction h generalizing t k with
  | @init s hi =>
    have hb : s.body = _ := hi.2
    rw [hb] at hslot
    exact absurd rfl hslot
  | @step s s' a hr _ hs ih =>
    obtain ⟨u, c, b, hb, rfl⟩ | ⟨a, -, -, hb⟩ := host_cases hs
    · rcases slotStep_cases hb with ⟨j, -, -, rfl⟩ | ⟨j, -, -, rfl⟩ | ⟨j, hpc, rfl⟩ | ⟨j, -, rfl⟩ |
        ⟨j, i, v, -, -, -, rfl⟩ | ⟨j, i, v, -, -, rfl⟩
      · exact ih hslot
      · exact ih hslot
      · dsimp only at hslot
        rw [update_slot] at hslot
        split at hslot
        · next hut =>
          -- a thread inside a job is a worker
          have hin : (s.body.pc u).job? = (s.pool.pc u).running := hosted_inside hr u
          rw [hpc] at hin
          rw [hut.1]
          refine (driven_of_reachable h2 hn hr).2.1.worker u ?_
          cases hk : s.pool.pc u with
          | run job => rfl
          | submitting job r =>
            rw [hk] at hin
            exact (congrArg Option.isSome hin).symm
          | _ =>
            rw [hk] at hin
            cases hin
        · exact ih hslot
      · exact ih hslot
      · exact ih hslot
      · exact ih hslot
    · rw [mySlot_bodyAfter hb] at hslot
      exact ih hslot

theorem nextSlot_le (h2 : 2 ≤ capacity) (hn : n < 2 ^ 63) (hcard : Fintype.card ι < 2 ^ 31)
    (h : (hostMachine (slotCode ι kind latency m) main n workers capacity maxSpinners).Reachable s) :
    s.body.nextSlot k ≤ workers.length := by
  rw [(sharded_of_reachable hcard (hosted_body h)).counted k]
  refine le_trans (Finset.card_le_card fun t ht => ?_) (List.toFinset_card_le workers)
  rw [List.mem_toFinset]
  exact mem_workers_of_slot h2 hn h (Finset.mem_filter.mp ht).2

end

/-- A trickle of one job and a burst of one, in the vectors of two workers. -/
def burstCode : Code (Fin 3) ℕ (Shards (Fin 3) Bool ℚ) :=
  slotCode (Fin 3) (fun j => decide (1 ≤ j)) (fun j => j + 1) 2

def burstStart : Hosted (Fin 3) (Shards (Fin 3) Bool ℚ) :=
  ⟨idlePool, ⟨fun _ _ => -1, fun _ => 0, fun _ => List.replicate 2 [], fun _ => .outside⟩⟩

theorem burstStart_init : (hostMachine burstCode 2 2 [0, 1] 2 1).init burstStart :=
  ⟨idlePool_init, (rfl : burstStart.body = _)⟩

section

variable {ι κ L : Type*} [DecidableEq ι] [DecidableEq κ] [Fintype ι] {kind : ℕ → κ}
  {latency : ℕ → L} {n m : ℕ} {main : ι} {workers : List ι} {capacity : ℕ} {maxSpinners : ℤ}
  {s : Hosted ι (Shards ι κ L)}

/-- **The slots are private**: with as many vectors of each kind as there are workers, in every
reachable state no two threads have one slot of a kind, every slot is a place of the vectors, and a
thread inside a job can always go on: it never reads or writes beyond the vectors. -/
theorem slots_private (h2 : 2 ≤ capacity) (hn : n < 2 ^ 63) (hcard : Fintype.card ι < 2 ^ 31)
    (h : (hostMachine (slotCode ι kind latency workers.length) main n workers capacity
      maxSpinners).Reachable s) :
    (∀ t u k, s.body.mySlot t k ≠ -1 → s.body.mySlot t k = s.body.mySlot u k → t = u) ∧
      (∀ t k, s.body.mySlot t k ≠ -1 → ∃ i < (s.body.latencies k).length, s.body.mySlot t k = i) ∧
      ∀ t, s.body.pc t ≠ .outside →
        (slotStep kind latency s.body t).isSome ∨ (slotRet s.body t).isSome := by
  have hsh := sharded_of_reachable hcard (hosted_body h)
  have hslot : ∀ t k, s.body.mySlot t k ≠ -1 →
      ∃ i < (s.body.latencies k).length, s.body.mySlot t k = i := by
    intro t k ht
    obtain ⟨i, hi, he⟩ := hsh.slot t k ht
    exact ⟨i, by rw [hsh.length k]; exact hi.trans_le (nextSlot_le h2 hn hcard h), he⟩
  refine ⟨hsh.distinct, hslot, fun t ht => ?_⟩
  cases hpc : s.body.pc t with
  | outside => exact absurd hpc ht
  | leave j => exact .inr (by simp [slotRet, hpc])
  | readEnd j =>
    obtain ⟨i, hi, he⟩ := hslot t (kind j) (hsh.owned t j (by rw [hpc]; rfl))
    exact .inl (by simp [slotStep, hpc, Shards.index_eq _ he, hi])
  | writeEnd j v =>
    obtain ⟨i, hi, he⟩ := hslot t (kind j) (hsh.owned t j (by rw [hpc]; rfl))
    exact .inl (by simp [slotStep, hpc, Shards.index_eq _ he])
  | _ => exact .inl (by simp [slotStep, hpc])

theorem slots_private_burst :
    ∃ s, (hostMachine burstCode 2 2 [0, 1] 2 1).exec burstStart (drainedRun [5, 5]) = some s ∧
      s.body.mySlot 1 false = 0 ∧ ∀ u, s.body.mySlot 1 false = s.body.mySlot u false → 1 = u := by
  obtain ⟨s, hs, hslot⟩ := Option.map_eq_some_iff.mp (by decide +kernel :
    ((hostMachine burstCode 2 2 [0, 1] 2 1).exec burstStart (drainedRun [5, 5])).map
      (fun s => s.body.mySlot 1 false) = some 0)
  have hr : (hostMachine burstCode 2 2 [0, 1] 2 1).Reachable s := .of_exec burstStart_init hs
  have h := slots_private le_rfl (by norm_num) (by simp) hr
  exact ⟨s, hs, hslot, fun u => h.1 1 u false (by rw [hslot]; decide)⟩

theorem latencies_perm (h2 : 2 ≤ capacity) (hw : workers ≠ []) (hn : n < 2 ^ 63)
    (hcard : Fintype.card ι < 2 ^ 31)
    (h : (hostMachine (slotCode ι kind latency m) main n workers capacity maxSpinners).Reachable s)
    (hj : s.pool.joined = true) (k : κ) :
    (s.body.latencies k).flatten.Perm (latenciesOf kind latency k (List.range n)) := by
  obtain ⟨hperm, hinside, -⟩ := hosted_joined h2 hw hn h hj
  have hsh := sharded_of_reachable hcard (hosted_body h)
  have hnil : ∀ t, latenciesOf kind latency k (s.body.pc t).owing.toList = [] := by
    intro t
    have hj : (s.body.pc t).job? = none := hinside t
    cases hpc : s.body.pc t with
    | outside => rfl
    | _ =>
      rw [hpc] at hj
      cases hj
  have hall := hsh.collected k
  simp only [hnil, Multiset.coe_nil, Finset.sum_const_zero, add_zero] at hall
  exact (Multiset.coe_eq_coe.mp hall).trans ((hperm.filter _).map _)

end

section

variable {ι κ : Type*} [DecidableEq ι] [Fintype ι] [DecidableEq κ] {kind : ℕ → κ} {latency : ℕ → ℚ}
  {main : ι} {workers : List ι} {capacity n m : ℕ} {maxSpinners : ℤ} {s : Hosted ι (Shards ι κ ℚ)}
  {R : Rounding} {k : κ}

/-- **What the benchmark reports**: in every run, the statistics of a kind of jobs that it computes
from the vectors are those of the latencies of all jobs of that kind, however the workers have shared
them (but for the rounding of their sum). -/
theorem reported_stats (h2 : 2 ≤ capacity) (hw : workers ≠ []) (hn : n ≤ 2 ^ 53)
    (hcard : Fintype.card ι < 2 ^ 31)
    (h : (hostMachine (slotCode ι kind latency m) main n workers capacity maxSpinners).Reachable s)
    (hj : s.pool.joined = true) (hk : ∃ j < n, kind j = k) :
    ∃ stats avg, computeLatencyStats R (s.body.latencies k).flatten = some stats ∧
      computeLatencyStats R (latenciesOf kind latency k (List.range n)) = some { stats with avg } ∧
      Describes R (latenciesOf kind latency k (List.range n)) stats ∧
      (stats.min ≤ stats.p50 ∧ stats.p50 ≤ stats.p99 ∧ stats.p99 ≤ stats.p999 ∧
        stats.p999 ≤ stats.max) ∧
      ∀ j < n, kind j = k → stats.min ≤ latency j ∧ latency j ≤ stats.max := by
  have hperm := latencies_perm h2 hw (by omega) hcard h hj k
  have hmem : ∀ j < n, kind j = k → latency j ∈ latenciesOf kind latency k (List.range n) := by
    intro j hj hkind
    exact List.mem_map_of_mem (List.mem_filter.mpr ⟨List.mem_range.mpr hj, by simpa using hkind⟩)
  have hlen : (latenciesOf kind latency k (List.range n)).length ≤ 2 ^ 53 := by
    rw [latenciesOf, List.length_map]
    exact (List.length_filter_le _ _).trans (by simpa using hn)
  obtain ⟨j, hj, hkind⟩ := hk
  have hne : (s.body.latencies k).flatten ≠ [] :=
    List.ne_nil_of_mem (hperm.mem_iff.mpr (hmem j hj hkind))
  obtain ⟨stats, hstats, hd⟩ := exists_describes (R := R) hne (hperm.length_eq.trans_le hlen)
  obtain ⟨stats', hstats', hd'⟩ :=
    exists_describes (R := R) (List.ne_nil_of_mem (hmem j hj hkind)) hlen
  have hd := hd.perm hperm
  obtain ⟨hord, hbounds, -⟩ := hd.ordered hlen
  exact ⟨stats, stats'.avg, hstats, by rw [hstats', ← hd.unique hd'], hd, hord,
    fun j hj hkind => hbounds _ (hmem j hj hkind)⟩

theorem reported_stats_burst :
    ∃ s, (hostMachine burstCode 2 2 [0, 1] 2 1).exec burstStart (drainedRun [5, 5]) = some s ∧
      ∃ stats, computeLatencyStats .none (s.body.latencies true).flatten = some stats ∧
        Describes .none [2] stats := by
  obtain ⟨s, hs, hj⟩ := Option.map_eq_some_iff.mp (by decide +kernel :
    ((hostMachine burstCode 2 2 [0, 1] 2 1).exec burstStart (drainedRun [5, 5])).map
      (fun s => s.pool.joined) = some true)
  obtain ⟨stats, -, hstats, -, hd, -⟩ := reported_stats (R := .none) (k := true) le_rfl
    (List.cons_ne_nil _ _) (by norm_num) (by simp) (.of_exec burstStart_init hs) hj
    ⟨1, by norm_num, rfl⟩
  have hone : latenciesOf (fun j => decide (1 ≤ j)) (fun j => (j + 1 : ℚ)) true (List.range 2) = [2] :=
    by decide +kernel
  exact ⟨s, hs, stats, hstats, hone ▸ hd⟩

end

end OrderRisk.Harness
