import OrderRisk.Server.Tape

/-!
# The way out

`writeMutex` keeps the responses of a connection apart (`Exclusive`).  So the output is made of one
piece for each job that got to `::send`, in the order in which they got the mutex (`Written`): a
piece is a beginning of its job's answer, and it is all of it unless `::send` gave up on the job or
the job still holds the mutex.
-/

namespace OrderRisk.Server

open OrderRisk.Lib OrderRisk.Fix

/-! ### One job at a time -/

/-- The job has got to `::send`. -/
def JobPc.begun : JobPc → Bool
  | .send _ _ => true
  | .unlock h => h
  | .decrement h => h
  | .finalize h _ => h
  | .done h => h
  | _ => false

def JobPc.text : JobPc → Option Bytes
  | .lock data => some data
  | .check data => some data
  | .send data _ => some data
  | _ => none

def JobPc.isQueued : JobPc → Bool
  | .queued _ => true
  | _ => false

/-- **What a job's step does**, as far as the mutex and the output go. -/
theorem jobStep_cases {c c' : Connection} {result : Option ℕ} {p q : JobPc} {late : Bool}
    (h : jobStep c result p = some (c', q, late)) :
    (∃ data, p = .lock data ∧ c.writeMutex = false ∧ c'.writeMutex = true ∧ q = .check data) ∨
    (∃ data, p = .check data ∧ c' = c ∧ q = if c.alive then .send data 0 else .unlock false) ∨
    (∃ data sent, p = .send data sent ∧ result = none ∧ c' = c ∧ q = .unlock true) ∨
    (∃ data sent n, p = .send data sent ∧ result = some n ∧ 0 < n ∧ sent + n ≤ data.length ∧
      c' = c ∧ q = if sent + n < data.length then .send data (sent + n) else .unlock true) ∨
    (∃ handed, p = .unlock handed ∧ c'.writeMutex = false ∧ q = .decrement handed) ∨
    (c'.writeMutex = c.writeMutex ∧ p.locked = false ∧ q.locked = false ∧ p.isQueued = false ∧
      q.isQueued = false ∧ q.begun = p.begun ∧ q.text = none ∧ ∀ data sent, p ≠ .send data sent) := by
  cases p with
  | queued m => cases h
  | lock data =>
    cases hm : c.writeMutex with
    | true => simp [jobStep, hm] at h
    | false =>
      simp only [jobStep, hm, Bool.false_eq_true, if_false, Option.some.injEq, Prod.mk.injEq] at h
      obtain ⟨rfl, rfl, rfl⟩ := h
      exact .inl ⟨data, rfl, rfl, rfl, rfl⟩
  | check data =>
    simp only [jobStep, Option.some.injEq, Prod.mk.injEq] at h
    obtain ⟨rfl, rfl, rfl⟩ := h
    exact .inr (.inl ⟨data, rfl, rfl, rfl⟩)
  | send data sent =>
    cases result with
    | none =>
      simp only [jobStep, Option.some.injEq, Prod.mk.injEq] at h
      obtain ⟨rfl, rfl, rfl⟩ := h
      exact .inr (.inr (.inl ⟨data, sent, rfl, rfl, rfl, rfl⟩))
    | some n =>
      simp only [jobStep] at h
      split at h
      · next hn =>
        simp only [Option.some.injEq, Prod.mk.injEq] at h
        obtain ⟨rfl, rfl, rfl⟩ := h
        exact .inr (.inr (.inr (.inl ⟨data, sent, n, rfl, rfl, hn.1, hn.2, rfl, rfl⟩)))
      · cases h
  | unlock handed =>
    simp only [jobStep, Option.some.injEq, Prod.mk.injEq] at h
    obtain ⟨rfl, rfl, rfl⟩ := h
    exact .inr (.inr (.inr (.inr (.inl ⟨handed, rfl, rfl, rfl⟩))))
  | decrement handed =>
    simp only [jobStep, Option.some.injEq, Prod.mk.injEq] at h
    obtain ⟨rfl, rfl, rfl⟩ := h
    exact .inr (.inr (.inr (.inr (.inr ⟨rfl, rfl, rfl, rfl, rfl, rfl, rfl, by simp⟩))))
  | finalize handed f =>
    simp only [jobStep, Option.some.injEq, Prod.mk.injEq] at h
    obtain ⟨rfl, rfl, rfl⟩ := h
    refine .inr (.inr (.inr (.inr (.inr ⟨finStep_writeMutex c f, rfl, ?_⟩))))
    cases (finStep c f).2 <;> exact ⟨rfl, rfl, rfl, rfl, rfl, by simp⟩
  | done handed => cases h

/-- `writeMutex` is held by the one job that is between `lock` and `unlock`. -/
structure Exclusive (c : Connection) (jobs : List JobPc) : Prop where
  held : ∀ (i : ℕ) (p : JobPc), jobs[i]? = some p → p.locked = true → c.writeMutex = true
  one : ∀ (i j : ℕ) (p q : JobPc), jobs[i]? = some p → jobs[j]? = some q → p.locked = true →
    q.locked = true → i = j

theorem getElem?_set_cases {l : List JobPc} {i j : ℕ} {q x : JobPc}
    (h : (l.set i q)[j]? = some x) : j = i ∧ x = q ∨ j ≠ i ∧ l[j]? = some x := by
  rcases eq_or_ne j i with rfl | hne
  · have hlt := (List.getElem?_eq_some_iff.mp h).1
    rw [List.length_set] at hlt
    rw [List.getElem?_set_self hlt] at h
    exact .inl ⟨rfl, (Option.some.inj h).symm⟩
  · rw [List.getElem?_set_ne hne.symm] at h
    exact .inr ⟨hne, h⟩

theorem getElem?_concat_cases {α : Type*} {l : List α} {j : ℕ} {m x : α}
    (h : (l ++ [m])[j]? = some x) : l[j]? = some x ∨ j = l.length ∧ x = m := by
  rcases lt_trichotomy j l.length with hj | rfl | hj
  · rw [List.getElem?_append_left hj] at h
    exact .inl h
  · rw [List.getElem?_concat_length] at h
    exact .inr ⟨rfl, (Option.some.inj h).symm⟩
  · have := (List.getElem?_eq_some_iff.mp h).1
    rw [List.length_append, List.length_singleton] at this
    omega

theorem Exclusive.set {c c' : Connection} {jobs : List JobPc} (h : Exclusive c jobs) (i : ℕ)
    {q : JobPc} (hq : q.locked = false)
    (hc : ∀ (j : ℕ) (x : JobPc), j ≠ i → jobs[j]? = some x → x.locked = true →
      c'.writeMutex = true) : Exclusive c' (jobs.set i q) := by
  have hset : ∀ {j x}, (jobs.set i q)[j]? = some x → x.locked = true →
      j ≠ i ∧ jobs[j]? = some x := by
    intro j x hj hx
    rcases getElem?_set_cases hj with ⟨-, rfl⟩ | hj
    · rw [hq] at hx
      cases hx
    · exact hj
  refine ⟨fun j x hj hx => ?_, fun j k x y hj hk hx hy => ?_⟩
  · obtain ⟨hne, hj⟩ := hset hj hx
    exact hc j x hne hj hx
  · exact h.one j k x y (hset hj hx).2 (hset hk hy).2 hx hy

theorem Exclusive.set_locked {c' : Connection} {jobs : List JobPc} {i : ℕ} {q : JobPc}
    (hc : c'.writeMutex = true)
    (hfree : ∀ (j : ℕ) (x : JobPc), j ≠ i → jobs[j]? = some x → x.locked = false) :
    Exclusive c' (jobs.set i q) := by
  have hset : ∀ {j x}, (jobs.set i q)[j]? = some x → x.locked = true → j = i := by
    intro j x hj hx
    rcases getElem?_set_cases hj with ⟨h, -⟩ | ⟨hne, hj⟩
    · exact h
    · rw [hfree j x hne hj] at hx
      cases hx
  exact ⟨fun _ _ _ _ => hc, fun j k x y hj hk hx hy => (hset hj hx).trans (hset hk hy).symm⟩

theorem Exclusive.jobStep {c c' : Connection} {jobs : List JobPc} {i : ℕ} {result : Option ℕ}
    {p q : JobPc} {late : Bool} (h : Exclusive c jobs) (hi : jobs[i]? = some p)
    (hs : jobStep c result p = some (c', q, late)) : Exclusive c' (jobs.set i q) := by
  have hmine : p.locked = true → c.writeMutex = true ∧
      ∀ (j : ℕ) (x : JobPc), j ≠ i → jobs[j]? = some x → x.locked = false := by
    intro hp
    refine ⟨h.held i p hi hp, fun j x hne hj => ?_⟩
    by_contra hx
    exact hne (h.one j i x p hj hi (by simpa using hx) hp)
  rcases jobStep_cases hs with ⟨data, rfl, hm, hm', rfl⟩ | ⟨data, rfl, rfl, rfl⟩ |
    ⟨data, sent, rfl, -, rfl, rfl⟩ | ⟨data, sent, n, rfl, -, -, -, rfl, rfl⟩ |
    ⟨handed, rfl, hm', rfl⟩ | ⟨hm, -, hq, -⟩
  · -- the mutex was free
    refine .set_locked hm' fun j x _ hj => ?_
    by_contra hx
    rw [h.held j x hj (by simpa using hx)] at hm
    cases hm
  · obtain ⟨hc, hfree⟩ := hmine rfl
    exact .set_locked hc hfree
  · obtain ⟨hc, hfree⟩ := hmine rfl
    exact .set_locked hc hfree
  · obtain ⟨hc, hfree⟩ := hmine rfl
    exact .set_locked hc hfree
  · obtain ⟨-, hfree⟩ := hmine rfl
    refine h.set i rfl fun j x hne hj hx => ?_
    rw [hfree j x hne hj] at hx
    cases hx
  · refine h.set i hq fun j x _ hj hx => ?_
    rw [hm]
    exact h.held j x hj hx

/-! ### The jobs and their answers -/

/-- Every job has its message, and, once it has been started, its answer. -/
structure Answered (s : State) (tp : Tape) : Prop where
  length : s.jobs.length = tp.dispatched.length
  nodup : (tp.answers.map Prod.fst).Nodup
  job : ∀ a ∈ tp.answers, a.1 < s.jobs.length
  nonempty : ∀ a ∈ tp.answers, a.2 ≠ []
  queued : ∀ (i : ℕ) (m : Bytes), s.jobs[i]? = some (.queued m) →
    tp.dispatched[i]? = some m ∧ i ∉ tp.answers.map Prod.fst
  started : ∀ (i : ℕ) (p : JobPc), s.jobs[i]? = some p → p.isQueued = false →
    i ∈ tp.answers.map Prod.fst
  text : ∀ (i : ℕ) (p : JobPc) (data : Bytes), s.jobs[i]? = some p → p.text = some data →
    (i, data) ∈ tp.answers

theorem Answered.congr {s s' : State} {tp tp' : Tape} (h : Answered s tp)
    (hd : tp'.dispatched = tp.dispatched) (ha : tp'.answers = tp.answers)
    (hj : s'.jobs = s.jobs) : Answered s' tp' := by
  obtain ⟨h1, h2, h3, h4, h5, h6, h7⟩ := h
  refine ⟨?_, ?_, ?_, ?_, ?_, ?_, ?_⟩ <;> simp only [hd, ha, hj] <;> assumption

theorem Answered.submit {s : State} {tp : Tape} (h : Answered s tp) (m : Bytes) {l : LoopPc} :
    Answered { s with jobs := s.jobs ++ [.queued m], loop := l }
      { tp with dispatched := tp.dispatched ++ [m] } := by
  have hnew : s.jobs.length ∉ tp.answers.map Prod.fst := by
    intro hm
    obtain ⟨a, ha, he⟩ := List.mem_map.mp hm
    have := h.job a ha
    omega
  refine ⟨by simp [h.length], h.nodup, fun a ha => ?_, h.nonempty, fun i m' hi => ?_,
    fun i p hi hp => ?_, fun i p data hi hp => ?_⟩
  · have := h.job a ha
    simp only [List.length_append, List.length_singleton]
    omega
  · rcases getElem?_concat_cases hi with hi | ⟨rfl, he⟩
    · obtain ⟨h1, h2⟩ := h.queued i m' hi
      have hlt := (List.getElem?_eq_some_iff.mp h1).1
      exact ⟨(List.getElem?_append_left hlt).trans h1, h2⟩
    · cases he
      refine ⟨?_, hnew⟩
      rw [h.length, List.getElem?_concat_length]
  · rcases getElem?_concat_cases hi with hi | ⟨-, rfl⟩
    · exact h.started i p hi hp
    · cases hp
  · rcases getElem?_concat_cases hi with hi | ⟨-, rfl⟩
    · exact h.text i p data hi hp
    · cases hp

theorem Answered.start {s : State} {tp : Tape} (h : Answered s tp) {i : ℕ} {m data : Bytes}
    (hi : s.jobs[i]? = some (.queued m)) (hd : data ≠ []) :
    Answered { s with jobs := s.jobs.set i (.lock data) }
      { tp with answers := tp.answers ++ [(i, data)] } := by
  have hlt := (List.getElem?_eq_some_iff.mp hi).1
  have hnew := (h.queued i m hi).2
  refine ⟨by simp [h.length], ?_, ?_, ?_, fun j m' hj => ?_, fun j p hj hp => ?_,
    fun j p d hj hp => ?_⟩
  · rw [List.map_append, List.nodup_append]
    refine ⟨h.nodup, List.nodup_singleton _, fun a ha b hb => ?_⟩
    rw [List.map_singleton, List.mem_singleton] at hb
    rw [hb]
    exact ne_of_mem_of_not_mem ha hnew
  · simp only [List.forall_mem_append, List.forall_mem_singleton, List.length_set]
    exact ⟨h.job, hlt⟩
  · simp only [List.forall_mem_append, List.forall_mem_singleton]
    exact ⟨h.nonempty, hd⟩
  · rcases getElem?_set_cases hj with ⟨-, he⟩ | ⟨hne, hj⟩
    · cases he
    · obtain ⟨h1, h2⟩ := h.queued j m' hj
      refine ⟨h1, ?_⟩
      rw [List.map_append, List.mem_append, List.map_singleton, List.mem_singleton]
      exact fun hm => hm.elim h2 hne
  · rw [List.map_append, List.mem_append, List.map_singleton, List.mem_singleton]
    rcases getElem?_set_cases hj with ⟨rfl, -⟩ | ⟨-, hj⟩
    · exact .inr rfl
    · exact .inl (h.started j p hj hp)
  · rw [List.mem_append, List.mem_singleton]
    rcases getElem?_set_cases hj with ⟨rfl, rfl⟩ | ⟨-, hj⟩
    · cases hp
      exact .inr rfl
    · exact .inl (h.text j p d hj hp)

theorem Answered.goesOn {s : State} {tp : Tape} (h : Answered s tp) {i : ℕ} {p q : JobPc}
    {c' : Connection} {late : Bool} (hi : s.jobs[i]? = some p) (hp : p.isQueued = false)
    (hq : q.isQueued = false) (ht : ∀ data, q.text = some data → p.text = some data) :
    Answered { s with conn := c', jobs := s.jobs.set i q, late := late } tp := by
  refine ⟨by simp [h.length], h.nodup, fun a ha => ?_, h.nonempty, fun j m hj => ?_,
    fun j x hj hx => ?_, fun j x d hj hx => ?_⟩
  · rw [List.length_set]
    exact h.job a ha
  · rcases getElem?_set_cases hj with ⟨-, rfl⟩ | ⟨-, hj⟩
    · cases hq
    · exact h.queued j m hj
  · rcases getElem?_set_cases hj with ⟨rfl, -⟩ | ⟨-, hj⟩
    · exact h.started j p hi hp
    · exact h.started j x hj hx
  · rcases getElem?_set_cases hj with ⟨rfl, rfl⟩ | ⟨-, hj⟩
    · exact h.text j p d hi (ht d hx)
    · exact h.text j x d hj hx

/-! ### The output and its pieces -/

/-- **The way out**: the pieces of the jobs that got to `::send`. -/
structure Written (s : State) (tp : Tape) (pieces : List (ℕ × Bytes)) : Prop where
  output : tp.output = (pieces.map Prod.snd).flatten
  nodup : (pieces.map Prod.fst).Nodup
  job : ∀ x ∈ pieces, x.1 < s.jobs.length
  begun : ∀ (i : ℕ) (p : JobPc), s.jobs[i]? = some p → (i ∈ pieces.map Prod.fst ↔ p.begun = true)
  begins : ∀ x ∈ pieces, ∃ data, (x.1, data) ∈ tp.answers ∧ x.2 <+: data
  /-- Who is at `::send` has the last piece. -/
  current : ∀ (i : ℕ) (data : Bytes) (sent : ℕ), s.jobs[i]? = some (.send data sent) →
    sent < data.length ∧ ∃ ps, pieces = ps ++ [(i, data.take sent)]
  whole : ∀ x ∈ pieces, x ∈ tp.answers ∨ x.1 ∈ tp.cut ∨
    ∃ data sent, s.jobs[x.1]? = some (.send data sent)

theorem Written.congr {s s' : State} {tp tp' : Tape} {pieces : List (ℕ × Bytes)}
    (h : Written s tp pieces) (ho : tp'.output = tp.output) (ha : tp'.answers = tp.answers)
    (hc : tp'.cut = tp.cut) (hj : s'.jobs = s.jobs) : Written s' tp' pieces := by
  obtain ⟨h1, h2, h3, h4, h5, h6, h7⟩ := h
  refine ⟨ho.trans h1, h2, ?_, ?_, ?_, ?_, ?_⟩ <;> simp only [ha, hc, hj] <;> assumption

theorem Written.submit {s : State} {tp : Tape} {pieces : List (ℕ × Bytes)}
    (h : Written s tp pieces) (m : Bytes) {l : LoopPc} :
    Written { s with jobs := s.jobs ++ [.queued m], loop := l }
      { tp with dispatched := tp.dispatched ++ [m] } pieces := by
  refine ⟨h.output, h.nodup, fun x hx => ?_, fun i p hi => ?_, h.begins, fun i data sent hi => ?_,
    fun x hx => ?_⟩
  · have := h.job x hx
    simp only [List.length_append, List.length_singleton]
    omega
  · rcases getElem?_concat_cases hi with hi | ⟨rfl, rfl⟩
    · exact h.begun i p hi
    · simp only [JobPc.begun, Bool.false_eq_true, iff_false]
      intro hm
      obtain ⟨x, hx, he⟩ := List.mem_map.mp hm
      have := h.job x hx
      omega
  · rcases getElem?_concat_cases hi with hi | ⟨-, he⟩
    · exact h.current i data sent hi
    · cases he
  · refine (h.whole x hx).imp_right (.imp_right ?_)
    rintro ⟨data, sent, hj⟩
    exact ⟨data, sent, (List.getElem?_append_left (h.job x hx)).trans hj⟩

/-- A job goes on that is not at `::send`, before or after. -/
theorem Written.goesOn {s : State} {tp : Tape} {pieces : List (ℕ × Bytes)}
    (h : Written s tp pieces) {i : ℕ} {p q : JobPc} {c' : Connection} {late : Bool}
    (hi : s.jobs[i]? = some p) (hb : q.begun = p.begun) (hp : ∀ data sent, p ≠ .send data sent)
    (hq : ∀ data sent, q ≠ .send data sent) :
    Written { s with conn := c', jobs := s.jobs.set i q, late := late } tp pieces := by
  refine ⟨h.output, h.nodup, fun x hx => ?_, fun j x hj => ?_, h.begins, fun j data sent hj => ?_,
    fun x hx => ?_⟩
  · rw [List.length_set]
    exact h.job x hx
  · rcases getElem?_set_cases hj with ⟨rfl, rfl⟩ | ⟨-, hj⟩
    · rw [hb]
      exact h.begun j p hi
    · exact h.begun j x hj
  · rcases getElem?_set_cases hj with ⟨-, he⟩ | ⟨-, hj⟩
    · exact (hq data sent he.symm).elim
    · exact h.current j data sent hj
  · refine (h.whole x hx).imp_right (.imp_right ?_)
    rintro ⟨data, sent, hj⟩
    refine ⟨data, sent, ?_⟩
    rw [List.getElem?_set_ne]
    · exact hj
    · rintro rfl
      rw [hi] at hj
      exact hp data sent (Option.some.inj hj)

theorem Written.answer {s : State} {tp : Tape} {pieces : List (ℕ × Bytes)}
    (h : Written s tp pieces) (a : ℕ × Bytes) :
    Written s { tp with answers := tp.answers ++ [a] } pieces where
  output := h.output
  nodup := h.nodup
  job := h.job
  begun := h.begun
  begins x hx := by
    obtain ⟨data, hd, hp⟩ := h.begins x hx
    exact ⟨data, List.mem_append_left _ hd, hp⟩
  current := h.current
  whole x hx := (h.whole x hx).imp_left (List.mem_append_left _)

section Speaking

variable {s : State} {tp : Tape} {pieces : List (ℕ × Bytes)} {i : ℕ} {data : Bytes} {sent : ℕ}
  {c' : Connection} {late : Bool}

/-- A job gets to `::send`: its piece begins. -/
theorem Written.begin (h : Written s tp pieces) (ha : Answered s tp)
    (hx : Exclusive s.conn s.jobs) (hi : s.jobs[i]? = some (.check data)) :
    Written { s with conn := c', jobs := s.jobs.set i (.send data 0), late := late } tp
      (pieces ++ [(i, [])]) := by
  have hlt := (List.getElem?_eq_some_iff.mp hi).1
  have hnew : i ∉ pieces.map Prod.fst := fun hm => by
    have := (h.begun i _ hi).mp hm
    cases this
  have hans := ha.text i _ data hi rfl
  refine ⟨?_, ?_, fun x hx => ?_, fun j x hj => ?_, ?_, fun j d n hj => ?_, fun x hx' => ?_⟩
  · simpa using h.output
  · rw [List.map_append, List.nodup_append]
    refine ⟨h.nodup, List.nodup_singleton _, fun a ha b hb => ?_⟩
    rw [List.map_singleton, List.mem_singleton] at hb
    rw [hb]
    exact ne_of_mem_of_not_mem ha hnew
  · rw [List.mem_append, List.mem_singleton] at hx
    rw [List.length_set]
    rcases hx with hx | rfl
    · exact h.job x hx
    · exact hlt
  · rw [List.map_append, List.mem_append, List.map_singleton, List.mem_singleton]
    rcases getElem?_set_cases hj with ⟨rfl, rfl⟩ | ⟨hne, hj⟩
    · simp [JobPc.begun]
    · rw [or_iff_left hne]
      exact h.begun j x hj
  · simp only [List.forall_mem_append, List.forall_mem_singleton]
    exact ⟨h.begins, data, hans, List.nil_prefix⟩
  · rcases getElem?_set_cases hj with ⟨rfl, he⟩ | ⟨hne, hj⟩
    · cases he
      exact ⟨List.length_pos_iff.mpr (ha.nonempty _ hans), pieces, rfl⟩
    · -- the other one would hold the mutex too
      exact (hne (hx.one j i _ _ hj hi rfl rfl)).elim
  · rw [List.mem_append, List.mem_singleton] at hx'
    rcases hx' with hx' | rfl
    · refine (h.whole x hx').imp_right (.imp_right ?_)
      rintro ⟨d, n, hj⟩
      refine ⟨d, n, ?_⟩
      rw [List.getElem?_set_ne]
      · exact hj
      · rintro rfl
        rw [hi] at hj
        cases hj
    · exact .inr (.inr ⟨data, 0, List.getElem?_set_self hlt⟩)

theorem Written.giveUp (h : Written s tp pieces) (hi : s.jobs[i]? = some (.send data sent)) :
    Written { s with conn := c', jobs := s.jobs.set i (.unlock true), late := late }
      { tp with cut := tp.cut ++ [i] } pieces := by
  refine ⟨h.output, h.nodup, fun x hx => ?_, fun j x hj => ?_, h.begins, fun j d n hj => ?_,
    fun x hx => ?_⟩
  · rw [List.length_set]
    exact h.job x hx
  · rcases getElem?_set_cases hj with ⟨rfl, rfl⟩ | ⟨-, hj⟩
    · rw [h.begun j _ hi]
      rfl
    · exact h.begun j x hj
  · rcases getElem?_set_cases hj with ⟨-, he⟩ | ⟨-, hj⟩
    · cases he
    · exact h.current j d n hj
  · rcases eq_or_ne x.1 i with he | hne
    · exact .inr (.inl (by simp [he]))
    · refine (h.whole x hx).imp_right (.imp (List.mem_append_left _) ?_)
      rintro ⟨d, n, hj⟩
      exact ⟨d, n, by rwa [List.getElem?_set_ne hne.symm]⟩

/-- Where `::send` has taken `n` bytes, the job goes. -/
def afterSend (data : Bytes) (sent n : ℕ) : JobPc :=
  if sent + n < data.length then .send data (sent + n) else .unlock true

/-- `::send` takes `n` bytes. -/
theorem Written.send (h : Written s tp pieces) (ha : Answered s tp)
    (hx : Exclusive s.conn s.jobs) (hi : s.jobs[i]? = some (.send data sent)) {n : ℕ}
    (hn : sent + n ≤ data.length) :
    ∃ pieces', Written { s with conn := c', jobs := s.jobs.set i (afterSend data sent n), late := late }
      { tp with output := tp.output ++ (data.drop sent).take n } pieces' := by
  obtain ⟨hlt, ps, rfl⟩ := h.current i data sent hi
  have hans := ha.text i _ data hi rfl
  have hil := (List.getElem?_eq_some_iff.mp hi).1
  have hfst : (ps ++ [(i, data.take (sent + n))]).map Prod.fst =
      (ps ++ [(i, data.take sent)]).map Prod.fst := by simp
  have hbegins := h.begins
  have hwhole := h.whole
  have hnodup := h.nodup
  simp only [List.forall_mem_append, List.forall_mem_singleton] at hbegins hwhole
  rw [List.map_append, List.nodup_append, List.map_singleton] at hnodup
  refine ⟨ps ++ [(i, data.take (sent + n))], ?_, ?_, fun x hx => ?_, fun j x hj => ?_, ?_,
    fun j d k hj => ?_, ?_⟩
  · simp [h.output, List.take_add]
  · rw [hfst]
    exact h.nodup
  · rw [List.length_set]
    rw [List.mem_append, List.mem_singleton] at hx
    rcases hx with hx | rfl
    · exact h.job x (List.mem_append_left _ hx)
    · exact hil
  · rw [hfst]
    rcases getElem?_set_cases hj with ⟨rfl, rfl⟩ | ⟨-, hj⟩
    · rw [h.begun j _ hi]
      unfold afterSend
      split <;> rfl
    · exact h.begun j x hj
  · simp only [List.forall_mem_append, List.forall_mem_singleton]
    exact ⟨hbegins.1, data, hans, List.take_prefix _ _⟩
  · rcases getElem?_set_cases hj with ⟨rfl, he⟩ | ⟨hne, hj⟩
    · unfold afterSend at he
      split at he
      · next hlt' =>
        cases he
        exact ⟨hlt', ps, rfl⟩
      · cases he
    · exact (hne (hx.one j i _ _ hj hi rfl rfl)).elim
  · simp only [List.forall_mem_append, List.forall_mem_singleton]
    constructor
    · intro x hx'
      have hne : x.1 ≠ i := hnodup.2.2 _ (List.mem_map_of_mem hx') i (by simp)
      refine (hwhole.1 x hx').imp_right (.imp_right ?_)
      rintro ⟨d, k, hj⟩
      exact ⟨d, k, by rwa [List.getElem?_set_ne hne.symm]⟩
    · by_cases hmore : sent + n < data.length
      · refine .inr (.inr ⟨data, sent + n, ?_⟩)
        rw [show afterSend data sent n = .send data (sent + n) from if_pos hmore]
        exact List.getElem?_set_self hil
      · -- that was the last of it
        rw [List.take_of_length_le (by omega)]
        exact .inl hans

end Speaking

/-! ### Runs -/

/-- What holds of a connection and its tape in every run. -/
structure Spoken (s : State) (tp : Tape) : Prop where
  exclusive : Exclusive s.conn s.jobs
  answered : Answered s tp
  written : ∃ pieces, Written s tp pieces

theorem Spoken.init {s : State} (h : machine.init s) : Spoken s .blank := by
  obtain rfl : s = _ := h
  refine ⟨⟨by simp, by simp⟩, ⟨rfl, List.nodup_nil, nofun, nofun, by simp, by simp, by simp⟩, [],
    ⟨rfl, List.nodup_nil, nofun, by simp, nofun, by simp, nofun⟩⟩

theorem Spoken.congr {s s' : State} {tp tp' : Tape} (h : Spoken s tp)
    (hd : tp'.dispatched = tp.dispatched) (ha : tp'.answers = tp.answers)
    (ho : tp'.output = tp.output) (hc : tp'.cut = tp.cut) (hj : s'.jobs = s.jobs)
    (hm : s'.conn.writeMutex = s.conn.writeMutex) : Spoken s' tp' := by
  obtain ⟨hx, hans, pieces, hw⟩ := h
  refine ⟨⟨?_, ?_⟩, hans.congr hd ha hj, pieces, hw.congr ho ha hc hj⟩
  · rw [hj, hm]
    exact hx.held
  · rw [hj]
    exact hx.one

theorem Spoken.loopStep {s s' : State} {tp : Tape} (h : Spoken s tp) (hs : loopStep s = some s') :
    Spoken s' (tp.recordLoop s.loop) := by
  obtain ⟨hl, rfl⟩ | ⟨hl, rfl⟩ | ⟨p, m, r, hl, -, rfl⟩ | ⟨p, hl, -, rfl⟩ | ⟨p, m, hl, rfl⟩ |
    ⟨p, m, hl, rfl⟩ | ⟨f, hl, rfl⟩ := loopStep_cases hs <;> rw [hl]
  · exact h.congr rfl rfl rfl rfl rfl rfl
  · exact h.congr rfl rfl rfl rfl rfl rfl
  · exact h.congr rfl rfl rfl rfl rfl rfl
  · exact h.congr rfl rfl rfl rfl rfl rfl
  · exact h.congr rfl rfl rfl rfl rfl rfl
  · obtain ⟨hx, hans, pieces, hw⟩ := h
    refine ⟨⟨fun i p hi hp => ?_, fun i j p q hi hj hp hq => ?_⟩, hans.submit m, pieces,
      hw.submit m⟩
    · rcases getElem?_concat_cases hi with hi | ⟨-, rfl⟩
      · exact hx.held i p hi hp
      · cases hp
    · rcases getElem?_concat_cases hi with hi | ⟨-, rfl⟩
      · rcases getElem?_concat_cases hj with hj | ⟨-, rfl⟩
        · exact hx.one i j p q hi hj hp hq
        · cases hq
      · cases hp
  · exact h.congr rfl rfl rfl rfl rfl (finStep_writeMutex s.conn f)

theorem recordJob_of_ne {tp : Tape} {i : ℕ} {result : Option ℕ} {p : JobPc}
    (h : ∀ data sent, p ≠ .send data sent) : tp.recordJob i result p = tp := by
  unfold Tape.recordJob
  split
  · next data sent => exact (h data sent rfl).elim
  · next data sent => exact (h data sent rfl).elim
  · rfl

theorem Spoken.jobStep {s : State} {tp : Tape} {i : ℕ} {result : Option ℕ} {p q : JobPc}
    {c' : Connection} {late : Bool} (h : Spoken s tp) (hi : s.jobs[i]? = some p)
    (hs : jobStep s.conn result p = some (c', q, late)) :
    Spoken { s with conn := c', jobs := s.jobs.set i q, late := s.late || late }
      (tp.recordJob i result p) := by
  obtain ⟨hx, hans, pieces, hw⟩ := h
  have hx' := hx.jobStep hi hs
  rcases jobStep_cases hs with ⟨data, rfl, -, -, rfl⟩ | ⟨data, rfl, -, rfl⟩ |
    ⟨data, sent, rfl, rfl, -, rfl⟩ | ⟨data, sent, n, rfl, rfl, -, hn, -, rfl⟩ |
    ⟨handed, rfl, -, rfl⟩ | ⟨-, hpl, hql, hpq, hqq, hb, ht, hne⟩
  · rw [recordJob_of_ne fun _ _ h => by cases h]
    exact ⟨hx', hans.goesOn hi rfl rfl fun _ h => h, pieces, hw.goesOn hi rfl nofun nofun⟩
  · rw [recordJob_of_ne fun _ _ h => by cases h]
    cases ha : s.conn.alive with
    | true =>
      rw [ha] at hx'
      exact ⟨hx', hans.goesOn hi rfl rfl fun _ h => h, _, hw.begin hans hx hi⟩
    | false =>
      rw [ha] at hx'
      exact ⟨hx', hans.goesOn hi rfl rfl (fun _ h => by cases h), pieces, hw.goesOn hi rfl nofun nofun⟩
  · exact ⟨hx', (hans.goesOn hi rfl rfl fun _ h => by cases h).congr rfl rfl rfl,
      pieces, hw.giveUp hi⟩
  · have hq : (afterSend data sent n).isQueued = false ∧
        ∀ d, (afterSend data sent n).text = some d → (JobPc.send data sent).text = some d := by
      unfold afterSend
      split
      · exact ⟨rfl, fun _ h => h⟩
      · exact ⟨rfl, fun d h => by cases h⟩
    exact ⟨hx', (hans.goesOn hi rfl hq.1 hq.2).congr rfl rfl rfl, hw.send hans hx hi hn⟩
  · rw [recordJob_of_ne fun _ _ h => by cases h]
    exact ⟨hx', hans.goesOn hi rfl rfl (fun _ h => by cases h), pieces, hw.goesOn hi rfl nofun nofun⟩
  · rw [recordJob_of_ne hne]
    refine ⟨hx', hans.goesOn hi hpq hqq fun d h => ?_, pieces, hw.goesOn hi hb hne fun d k he => ?_⟩
    · rw [ht] at h
      cases h
    · rw [he] at hql
      cases hql

theorem Spoken.step {s s' : State} {tp : Tape} {a : Act} (h : Spoken s tp)
    (hs : machine.step s a = some s') : Spoken s' (tp.record s a) := by
  cases a with
  | readable =>
    simp only [machine, Server.step] at hs
    split at hs
    · cases hs
      exact h.congr rfl rfl rfl rfl rfl rfl
    · cases hs
  | recv r =>
    simp only [machine, Server.step] at hs
    split at hs
    · cases r with
      | data chunk =>
        cases hs
        exact h.congr rfl rfl rfl rfl rfl rfl
      | eof =>
        cases hs
        exact h.congr rfl rfl rfl rfl rfl rfl
      | again =>
        cases hs
        exact h.congr rfl rfl rfl rfl rfl rfl
    · cases hs
  | loop => exact h.loopStep hs
  | start i data =>
    simp only [machine, Server.step] at hs
    split at hs
    · next m hm =>
      split at hs
      · cases hs
      · next hd =>
        cases hs
        obtain ⟨hx, hans, pieces, hw⟩ := h
        exact ⟨hx.set i rfl fun j x _ hj hl => hx.held j x hj hl, hans.start hm hd, pieces,
          (hw.goesOn (q := .lock data) hm rfl (by simp) (by simp)).answer (i, data)⟩
    · cases hs
  | job i result =>
    obtain ⟨p, hp, hs⟩ := Option.bind_eq_some_iff.mp hs
    obtain ⟨⟨c', q, late⟩, hj, rfl⟩ := Option.map_eq_some_iff.mp hs
    simp only [Tape.record, hp, Option.elim_some]
    exact h.jobStep hp hj

theorem spoken_of_reachable {p : State × Tape} (h : tapedMachine.Reachable p) : Spoken p.1 p.2 := by
  refine h.invariant (P := fun p => Spoken p.1 p.2) ?_ ?_
  · rintro ⟨s, tp⟩ ⟨hi, rfl⟩
    exact .init hi
  · rintro p a p' hp - hs
    obtain ⟨h1, h2⟩ := taped_step hs
    rw [h2]
    exact hp.step h1

end OrderRisk.Server
