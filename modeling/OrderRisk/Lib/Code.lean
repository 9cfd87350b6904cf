import OrderRisk.Lib.Machine

/-!
# Code that threads call

`Code` is what the jobs of a program do to the memory they share: a thread calls a job, makes single
steps inside it, and returns.  `inside` says which job a thread is in, and the fields say that only
a call and a return change that.  Its machine lets any thread call any job at any time; a scheduler
that calls the jobs in its own way runs some of the runs of that machine.
-/

namespace OrderRisk.Lib

/-- The code of the jobs `J` on the memory `β`. -/
structure Code (ι J β : Type*) [DecidableEq ι] where
  init : β → Prop
  call : β → ι → J → β
  step : β → ι → Bool → Option β
  ret : β → ι → Option β
  inside : β → ι → Option J
  inside_init : ∀ b t, init b → inside b t = none
  inside_call : ∀ b t j, inside (call b t j) = Function.update (inside b) t (some j)
  inside_step : ∀ b t c b', step b t c = some b' → inside b' = inside b
  inside_ret : ∀ b t b', ret b t = some b' → inside b' = Function.update (inside b) t none

/-- A step of a thread. -/
inductive CodeAct (ι J : Type*) where
  | call (t : ι) (job : J)
  | step (t : ι) (choice : Bool)
  | ret (t : ι)

variable {ι J β : Type*} [DecidableEq ι]

/-- The machine of the code, with the jobs in the order in which they were called. -/
def Code.machine (code : Code ι J β) : Machine (β × List J) (CodeAct ι J) where
  init p := code.init p.1 ∧ p.2 = []
  step p
    | .call t job =>
      match code.inside p.1 t with
      | none => some (code.call p.1 t job, p.2 ++ [job])
      | some _ => none
    | .step t choice => (code.step p.1 t choice).map fun b => (b, p.2)
    | .ret t => (code.ret p.1 t).map fun b => (b, p.2)

theorem Code.step_cases {code : Code ι J β} {p p' : β × List J} {a : CodeAct ι J}
    (h : code.machine.step p a = some p') :
    (∃ t job, code.inside p.1 t = none ∧ p' = (code.call p.1 t job, p.2 ++ [job])) ∨
    (∃ t choice b, code.step p.1 t choice = some b ∧ p' = (b, p.2)) ∨
    ∃ t b, code.ret p.1 t = some b ∧ p' = (b, p.2) := by
  cases a with
  | call t job =>
    simp only [Code.machine] at h
    split at h
    · next hi => exact .inl ⟨t, job, hi, (Option.some.inj h).symm⟩
    · cases h
  | step t choice =>
    obtain ⟨b, hb, rfl⟩ := Option.map_eq_some_iff.mp h
    exact .inr (.inl ⟨t, choice, b, hb, rfl⟩)
  | ret t =>
    obtain ⟨b, hb, rfl⟩ := Option.map_eq_some_iff.mp h
    exact .inr (.inr ⟨t, b, hb, rfl⟩)

/-- **The invariant rule for code.** -/
theorem Code.invariant {code : Code ι J β} {P : β → List J → Prop}
    (h0 : ∀ b, code.init b → P b [])
    (hcall : ∀ b js t job, P b js → code.inside b t = none → P (code.call b t job) (js ++ [job]))
    (hstep : ∀ b js t c b', P b js → code.step b t c = some b' → P b' js)
    (hret : ∀ b js t b', P b js → code.ret b t = some b' → P b' js) {p : β × List J}
    (h : code.machine.Reachable p) : P p.1 p.2 := by
  refine h.invariant (P := fun p => P p.1 p.2) ?_ ?_
  · rintro ⟨b, js⟩ ⟨hb, rfl⟩
    exact h0 b hb
  · rintro ⟨b, js⟩ a p' hp - hs
    obtain ⟨t, job, hi, rfl⟩ | ⟨t, c, b', hb, rfl⟩ | ⟨t, b', hb, rfl⟩ := Code.step_cases hs
    · exact hcall b js t job hp hi
    · exact hstep b js t c b' hp hb
    · exact hret b js t b' hp hb

end OrderRisk.Lib
