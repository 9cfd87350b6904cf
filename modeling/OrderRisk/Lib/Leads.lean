import OrderRisk.Lib.Machine

/-!
# What a machine can still come to

`M.Leads C s s'`: some schedule whose steps all meet `C` takes `s` to `s'`.  That a goal can always be
reached is shown with a rank (`Leads.of_rank`): from every state that is not a goal some schedule lowers
it.  A machine that has another one as a part does what the part does when it can do its steps one by
one (`Leads.lift`).
-/

namespace OrderRisk.Lib.Machine

variable {σ α τ β : Type*}

/-- A schedule whose steps meet `C` takes `s` to `s'`. -/
def Leads (M : Machine σ α) (C : σ → α → Prop) (s s' : σ) : Prop :=
  ∃ as, M.Meets C s as ∧ M.exec s as = some s'

variable {M : Machine σ α} {C D : σ → α → Prop} {s m s' : σ}

theorem Leads.refl (s : σ) : M.Leads C s s := ⟨[], trivial, rfl⟩

theorem Leads.single {a : α} (hc : C s a) (hs : M.step s a = some s') : M.Leads C s s' :=
  ⟨[a], ⟨hc, fun _ _ => trivial⟩, by simp [exec, hs]⟩

theorem Meets.append : ∀ {as bs : List α} {s m : σ}, M.Meets C s as → M.exec s as = some m →
    M.Meets C m bs → M.Meets C s (as ++ bs)
  | [], _, _, _, _, he, hb => by
    cases he
    exact hb
  | a :: as, bs, s, m, ha, he, hb => by
    obtain ⟨n, hn, he⟩ := Option.bind_eq_some_iff.mp he
    refine ⟨ha.1, fun n' hn' => ?_⟩
    obtain rfl : n' = n := Option.some.inj (hn'.symm.trans hn)
    exact Meets.append (ha.2 n' hn') he hb

theorem Leads.trans (h1 : M.Leads C s m) (h2 : M.Leads C m s') : M.Leads C s s' := by
  obtain ⟨as, hm, he⟩ := h1
  obtain ⟨bs, hm', he'⟩ := h2
  exact ⟨as ++ bs, hm.append he hm', exec_append_some he he'⟩

theorem Leads.mono_of_step (hCD : ∀ s a s', C s a → M.step s a = some s' → D s a)
    (h : M.Leads C s s') : M.Leads D s s' := by
  obtain ⟨as, hm, he⟩ := h
  induction as generalizing s with
  | nil =>
    cases he
    exact .refl _
  | cons a as ih =>
    obtain ⟨n, hn, he⟩ := Option.bind_eq_some_iff.mp he
    exact .trans (.single (hCD s a n hm.1 hn) hn) (ih (hm.2 n hn) he)

theorem Leads.mono (hCD : ∀ s a, C s a → D s a) (h : M.Leads C s s') : M.Leads D s s' :=
  h.mono_of_step fun s a _ hc _ => hCD s a hc

theorem Leads.within (h : M.Leads C s s') (hs : M.Within C s) : M.Within C s' := by
  obtain ⟨as, hm, he⟩ := h
  exact hs.exec hm he

theorem Leads.reachable (h : M.Leads C s s') (hs : M.Reachable s) : M.Reachable s' :=
  (h.mono fun _ _ _ => trivial).within hs

theorem Leads.keep {P : σ → Prop} (hstep : ∀ s a s', P s → C s a → M.step s a = some s' → P s')
    (h : M.Leads C s s') (hs : P s) : P s' := by
  obtain ⟨as, hm, he⟩ := h
  induction as generalizing s with
  | nil =>
    cases he
    exact hs
  | cons a as ih =>
    obtain ⟨n, hn, he⟩ := Option.bind_eq_some_iff.mp he
    exact ih (hstep _ _ _ hs hm.1 hn) (hm.2 n hn) he

/-- **The rank rule.**  Where from every state that is not a goal some schedule lowers the rank, or comes
to a goal, a goal can be reached. -/
theorem Leads.of_rank {P G : σ → Prop} (rank : σ → ℕ)
    (h : ∀ s, P s → ¬ G s → ∃ s', M.Leads C s s' ∧ P s' ∧ (G s' ∨ rank s' < rank s))
    (hs : P s) : ∃ s', M.Leads C s s' ∧ P s' ∧ G s' := by
  induction hr : rank s using Nat.strong_induction_on generalizing s with
  | _ n ih =>
    subst hr
    by_cases hg : G s
    · exact ⟨s, .refl s, hs, hg⟩
    · obtain ⟨m, hm, hp, hg | hlt⟩ := h s hs hg
      · exact ⟨m, hm, hp, hg⟩
      · obtain ⟨s', hs', hp', hg'⟩ := ih _ hlt hp rfl
        exact ⟨s', hm.trans hs', hp', hg'⟩

/-- **A machine follows its part.**  `f` is the part's state; what the part can do in one step, the
whole can do in some. -/
theorem Leads.lift {N : Machine τ β} {E : τ → β → Prop} {P : τ → Prop} {f : τ → σ}
    (h : ∀ t a s', P t → C (f t) a → M.step (f t) a = some s' →
      ∃ t', N.Leads E t t' ∧ P t' ∧ f t' = s') {t : τ} (ht : P t) (hl : M.Leads C (f t) s') :
    ∃ t', N.Leads E t t' ∧ P t' ∧ f t' = s' := by
  obtain ⟨as, hm, he⟩ := hl
  induction as generalizing t with
  | nil =>
    cases he
    exact ⟨t, .refl t, ht, rfl⟩
  | cons a as ih =>
    obtain ⟨n, hn, he⟩ := Option.bind_eq_some_iff.mp he
    obtain ⟨u, hu, hp, rfl⟩ := h t a n ht hm.1 hn
    obtain ⟨t', ht', hp', rfl⟩ := ih hp (hm.2 _ hn) he
    exact ⟨t', hu.trans ht', hp', rfl⟩

end OrderRisk.Lib.Machine
