import OrderRisk.Pool.CatchUp
import OrderRisk.Pool.Program

/-!
# The program can come to its end

From every reachable state of a program on the pool some schedule submits the jobs that are left, shuts
the pool down and joins its workers (`leads_to_joined`), provided that a worker can always run the job
it is inside to its end (`Runs`).  Between two steps of `main` the pool catches up; where it waits for a
job, the job's worker runs it.
-/

namespace OrderRisk.Pool

open OrderRisk.Lib OrderRisk.Queue

variable {ι β : Type*} [DecidableEq ι]

/-- A step of the program at which nothing goes wrong. -/
def Hosted.Onward (s : Hosted ι β) : HostAct ι → Prop
  | .pool (.submit _ _) => True
  | .pool (.shutdown _) => True
  | .pool a => Pool.Onward s.pool a
  | .work _ spurious => spurious = false

omit [DecidableEq ι] in
theorem Onward.hosted {s : Hosted ι β} {a : Act ι ℕ} (h : Pool.Onward s.pool a) :
    s.Onward (.pool a) := by
  cases a with
  | submit t job => trivial
  | shutdown t => trivial
  | _ => exact h

theorem Onward.allowed {p : State ι ℕ} {a : Act ι ℕ} (h : Pool.Onward p a) (main : ι) (n : ℕ) :
    allowed main n p a = true := by
  cases a with
  | submit t job => exact h.elim
  | shutdown t => exact h.elim
  | finish t o =>
    obtain rfl : o = .returned := h
    rfl
  | _ => rfl

omit [DecidableEq ι] in
theorem Driven.plain {main : ι} {n : ℕ} {workers : List ι} {p : State ι ℕ} (h : Driven main n p)
    (hplaced : Placed workers p) (hmain : main ∉ workers) (t : ι) : (p.pc t).nested = false := by
  cases hpc : p.pc t with
  | submitting job r =>
    cases r with
    | none => rfl
    | some r =>
      -- a job that submits would be a worker's
      have ht := h.mine t (by rw [hpc]; rfl)
      exact absurd (ht ▸ hplaced.worker t (by rw [hpc]; rfl)) hmain
  | _ => rfl

variable [Fintype ι] {code : Code ι ℕ β} {main : ι} {n : ℕ} {workers : List ι} {capacity : ℕ}
  {maxSpinners : ℤ} {s : Hosted ι β}

/-- A worker can run the job it is inside to its end, with the pool left alone. -/
def Runs (code : Code ι ℕ β) (main : ι) (n : ℕ) (workers : List ι) (capacity : ℕ)
    (maxSpinners : ℤ) : Prop :=
  ∀ s t job, (hostMachine code main n workers capacity maxSpinners).Reachable s →
    code.inside s.body t = some job →
    ∃ b, (hostMachine code main n workers capacity maxSpinners).Leads Hosted.Onward s
      { s with body := b } ∧ (code.ret b t).isSome

theorem inside_lt (h2 : 2 ≤ capacity) (hn : n < 2 ^ 63)
    (h : (hostMachine code main n workers capacity maxSpinners).Reachable s) {t : ι} {job : ℕ}
    (ht : code.inside s.body t = some job) : job < n := by
  have hd := (driven_of_reachable h2 hn h).1
  have hb := claims_lt (hosted_pool h) (hd.le.trans_lt hn)
  rw [hosted_inside h t] at ht
  have hmem := (executed_once h2 (hosted_pool h) hb).2
    ((running_once h2 (hosted_pool h) hb).1 t job ht)
  rw [hd.submitted, List.mem_range] at hmem
  exact hmem.trans_le hd.le

theorem leads_of_work {t : ι} {b : β} (hb : code.step s.body t false = some b) :
    (hostMachine code main n workers capacity maxSpinners).Leads Hosted.Onward s
      { s with body := b } :=
  .single (a := .work t false) rfl (by simp [hostMachine, hb])

/-- **The rank rule for jobs**: a worker whose job has not come to its end can lower what it has left. -/
theorem Runs.of_rank (left : ι → β → ℕ)
    (h : ∀ s t job, (hostMachine code main n workers capacity maxSpinners).Reachable s →
      code.inside s.body t = some job → code.ret s.body t = none →
      ∃ b, (hostMachine code main n workers capacity maxSpinners).Leads Hosted.Onward s
        { s with body := b } ∧ left t b < left t s.body) :
    Runs code main n workers capacity maxSpinners := by
  intro s t job hs hin
  have hrank := Machine.Leads.of_rank
    (M := hostMachine code main n workers capacity maxSpinners) (C := Hosted.Onward)
    (P := fun u => (hostMachine code main n workers capacity maxSpinners).Reachable u ∧
      u.pool = s.pool) (G := fun u => (code.ret u.body t).isSome) (fun u => left t u.body)
    (fun u hu hg => ?_) ⟨hs, rfl⟩
  · obtain ⟨⟨p, b⟩, h1, ⟨-, rfl⟩, h3⟩ := hrank
    exact ⟨b, h1, h3⟩
  obtain ⟨hr, hpool⟩ := hu
  have hin' : code.inside u.body t = some job := by
    rw [hosted_inside hr t, hpool, ← hosted_inside hs t, hin]
  obtain ⟨b, hb, hlt⟩ := h u t job hr hin' (by simpa using hg)
  exact ⟨_, hb, ⟨hb.reachable hr, hpool⟩, .inr hlt⟩

/-- A step of the pool, behind those of the job it waits for. -/
theorem leads_of_pool (hruns : Runs code main n workers capacity maxSpinners)
    (h : (hostMachine code main n workers capacity maxSpinners).Reachable s) {a : Act ι ℕ}
    {p : State ι ℕ} (ha : Pool.Onward s.pool a)
    (hp : (poolMachine workers capacity maxSpinners).step s.pool a = some p) :
    ∃ s', (hostMachine code main n workers capacity maxSpinners).Leads Hosted.Onward s s' ∧
      s'.pool = p := by
  obtain ⟨b, hb, b', hb'⟩ : ∃ b, (hostMachine code main n workers capacity maxSpinners).Leads
      Hosted.Onward s { s with body := b } ∧ ∃ b', bodyAfter code b p a = some b' := by
    cases a with
    | finish t o =>
      obtain ⟨job, hpc⟩ : ∃ job, s.pool.pc t = .run job := by
        simp only [poolMachine] at hp
        split at hp
        · exact ⟨_, ‹_›⟩
        · cases hp
      obtain ⟨b, hb, hret⟩ := hruns s t job h (by rw [hosted_inside h t, hpc]; rfl)
      exact ⟨b, hb, Option.isSome_iff_exists.mp hret⟩
    | popped t =>
      refine ⟨s.body, .refl s, ?_⟩
      simp only [bodyAfter]
      split <;> exact ⟨_, rfl⟩
    | _ => exact ⟨s.body, .refl s, _, rfl⟩
  have hs : (hostMachine code main n workers capacity maxSpinners).step { s with body := b }
      (.pool a) = some ⟨p, b'⟩ := by simp [hostMachine, ha.allowed, hp, hb']
  exact ⟨_, hb.trans (.single ha.hosted hs), rfl⟩

/-- **The program's pool catches up.** -/
theorem hosted_to_rest (h2 : 2 ≤ capacity) (hw : workers ≠ []) (hmain : main ∉ workers)
    (hn : n < 2 ^ 63) (hruns : Runs code main n workers capacity maxSpinners)
    (h : (hostMachine code main n workers capacity maxSpinners).Reachable s) :
    ∃ s', (hostMachine code main n workers capacity maxSpinners).Leads Hosted.Onward s s' ∧
      Continues s.pool s'.pool ∧ s'.pool.AtRest := by
  obtain ⟨hd, hplaced, -⟩ := driven_of_reachable h2 hn h
  obtain ⟨p, hp, hc, hrest⟩ := leads_to_rest h2 hw (hosted_pool h) (hd.le.trans_lt hn)
    (hd.plain hplaced hmain)
  obtain ⟨s', hs', -, rfl⟩ := Machine.Leads.lift (f := Hosted.pool)
    (P := (hostMachine code main n workers capacity maxSpinners).Reachable)
    (fun u a p hu ha hp => by
      obtain ⟨u', hu', hp'⟩ := leads_of_pool hruns hu ha hp
      exact ⟨u', hu', hu'.reachable hu, hp'⟩) h hp
  exact ⟨s', hs', hc, hrest⟩

/-- With the pool at rest and not shut down, `main` makes its next step. -/
theorem exists_main (h2 : 2 ≤ capacity) (hmain : main ∉ workers) (hn : n < 2 ^ 63)
    (h : (hostMachine code main n workers capacity maxSpinners).Reachable s)
    (hrest : s.pool.AtRest) (hopen : s.pool.shuttingDown = false) :
    ∃ s', (hostMachine code main n workers capacity maxSpinners).Leads Hosted.Onward s s' ∧
      (s.pool.submitted.length < n ∧ s'.pool.submitted.length = s.pool.submitted.length + 1 ∨
        s'.pool.submitted.length = s.pool.submitted.length ∧ s'.pool.shuttingDown = true) := by
  obtain ⟨hd, hplaced, -⟩ := driven_of_reachable h2 hn h
  have hpc : s.pool.pc main = .client :=
    (hrest.done h2 (hosted_pool h) (claims_lt (hosted_pool h) (hd.le.trans_lt hn))).1 main hmain
  have hidle : s.pool.queue.pc main = .idle := (hplaced.idle (t := main) (by rw [hpc]; rfl)).1
  rcases hd.le.lt_or_eq with hlt | heq
  · -- the next job
    have hnew : s.pool.submitted.length ∉ s.pool.submitted := by
      intro hmem
      rw [hd.submitted, List.length_range, List.mem_range] at hmem
      exact lt_irrefl _ hmem
    obtain ⟨p, hp⟩ : ∃ p, (poolMachine workers capacity maxSpinners).step s.pool
        (.submit main s.pool.submitted.length) = some p := by
      simp [poolMachine, hnew, hpc, State.call, hidle]
    have hs : (hostMachine code main n workers capacity maxSpinners).step s
        (.pool (.submit main s.pool.submitted.length)) = some ⟨p, s.body⟩ := by
      simp [hostMachine, allowed, hlt, hp, bodyAfter]
    exact ⟨_, .single (a := .pool (.submit main _)) trivial hs,
      .inl ⟨hlt, by simp [submitted_step hp, submittedBy]⟩⟩
  · -- the end of the scope
    obtain ⟨p, hp, hshut⟩ : ∃ p, (poolMachine workers capacity maxSpinners).step s.pool
        (.shutdown main) = some p ∧ p.shuttingDown = true := by
      simp [poolMachine, hpc, hopen, State.call, hidle]
    have hs : (hostMachine code main n workers capacity maxSpinners).step s
        (.pool (.shutdown main)) = some ⟨p, s.body⟩ := by
      simp [hostMachine, allowed, heq, hp, bodyAfter]
    exact ⟨_, .single (a := .pool (.shutdown main)) trivial hs,
      .inr ⟨by simp [submitted_step hp, submittedBy], hshut⟩⟩

/-- **The program can come to its end.** -/
theorem leads_to_joined (h2 : 2 ≤ capacity) (hw : workers ≠ []) (hmain : main ∉ workers)
    (hn : n < 2 ^ 63) (hruns : Runs code main n workers capacity maxSpinners)
    (h : (hostMachine code main n workers capacity maxSpinners).Reachable s) :
    ∃ s', (hostMachine code main n workers capacity maxSpinners).Leads Hosted.Onward s s' ∧
      s'.pool.joined = true := by
  -- the jobs that are left, and the call of `shutdown()`
  have hrank := Machine.Leads.of_rank
    (M := hostMachine code main n workers capacity maxSpinners) (C := Hosted.Onward)
    (P := (hostMachine code main n workers capacity maxSpinners).Reachable)
    (G := fun u => u.pool.joined = true)
    (fun u => n - u.pool.submitted.length + if u.pool.shuttingDown then 0 else 1)
    (fun u hu hg => ?_) h
  · exact hrank.imp fun s' h => ⟨h.1, h.2.2⟩
  obtain ⟨m, hm, hc, hrest⟩ := hosted_to_rest h2 hw hmain hn hruns hu
  have hmr := hm.reachable hu
  have hd := (driven_of_reachable h2 hn hmr).1
  cases hsd : m.pool.shuttingDown with
  | true =>
    exact ⟨m, hm, hmr, .inl ((hrest.done h2 (hosted_pool hmr)
      (claims_lt (hosted_pool hmr) (hd.le.trans_lt hn))).2.2.2.2 hsd)⟩
  | false =>
    obtain ⟨v, hv, hlt⟩ := exists_main h2 hmain hn hmr hrest hsd
    refine ⟨v, hm.trans hv, hv.reachable hmr, .inr ?_⟩
    rw [← hc.submitted, ← hc.shuttingDown, hsd]
    rcases hlt with ⟨hlt, hlen⟩ | ⟨hlen, hshut⟩
    · rw [hlen]
      simp only [Bool.false_eq_true, if_false]
      split <;> omega
    · simp [hlen, hshut]

end OrderRisk.Pool
