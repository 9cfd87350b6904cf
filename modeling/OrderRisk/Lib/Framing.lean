import Mathlib.Data.List.Basic
import Mathlib.Data.List.Infix
import Mathlib.Tactic.Common

/-!
# Cutting frames off the front of a stream

A framing is a partial function `len` from what has been received to the length of the first
frame.  It is `Stable` when bytes that arrive later do not change a length that could already be
read.  For a stable framing, how the stream was cut into chunks makes no difference to the frames
(`feed_eq_drain`), and a stream of encoded frames is cut back into them (`drain_encoded`).
-/

namespace OrderRisk.Lib.Framing

variable {α : Type*}

/-- Later bytes do not change a length that has been read. -/
def Stable (len : List α → Option ℕ) : Prop :=
  ∀ b c n, len b = some n → len (b ++ c) = some n

/-- One frame off the front: the frame and what is left, if the frame is complete. -/
def extract (len : List α → Option ℕ) (b : List α) : Option (List α × List α) :=
  match len b with
  | none => none
  | some n => if b.length < n then none else some (b.take n, b.drop n)

/-- Take frames off the front until there is none: the frames and what is left.  `none` if `fuel`
rounds were not enough. -/
def drain (len : List α → Option ℕ) : ℕ → List α → Option (List (List α) × List α)
  | 0, _ => none
  | fuel + 1, b =>
    match extract len b with
    | none => some ([], b)
    | some (m, r) => (drain len fuel r).map fun p => (m :: p.1, p.2)

/-- Append the chunks one by one, draining after those that are marked. -/
def feed (len : List α → Option ℕ) (fuel : ℕ) :
    List α → List (List α × Bool) → Option (List (List α) × List α)
  | b, [] => some ([], b)
  | b, (c, false) :: cs => feed len fuel (b ++ c) cs
  | b, (c, true) :: cs =>
    (drain len fuel (b ++ c)).bind fun p =>
      (feed len fuel p.2 cs).map fun q => (p.1 ++ q.1, q.2)

/-- The frames that come off the front of `b`, one after the other, down to `r`. -/
inductive Comes (len : List α → Option ℕ) : List α → List (List α) → List α → Prop
  | nil (b : List α) : Comes len b [] b
  | cons {b m b' r : List α} {ms : List (List α)} :
      extract len b = some (m, b') → Comes len b' ms r → Comes len b (m :: ms) r

/-- No frame that comes off the front of `b` is empty. -/
def Proper (len : List α → Option ℕ) (b : List α) : Prop :=
  ∀ ms r, Comes len b ms r → [] ∉ ms

variable {len : List α → Option ℕ}

/-! ### One frame -/

theorem extract_eq_some {b m r : List α} (h : extract len b = some (m, r)) :
    b = m ++ r ∧ len b = some m.length := by
  unfold extract at h
  split at h
  · cases h
  · rename_i n hn
    split at h
    · cases h
    · obtain ⟨rfl, rfl⟩ := Prod.mk.inj (Option.some.inj h)
      exact ⟨(List.take_append_drop n b).symm, by rw [hn, List.length_take]; congr 1; omega⟩

theorem extract_of_len {m r : List α} (h : len (m ++ r) = some m.length) :
    extract len (m ++ r) = some (m, r) := by
  unfold extract
  rw [h]
  simp

theorem extract_append {b m r : List α} (hs : Stable len) (c : List α)
    (h : extract len b = some (m, r)) : extract len (b ++ c) = some (m, r ++ c) := by
  obtain ⟨rfl, hl⟩ := extract_eq_some h
  rw [List.append_assoc]
  exact extract_of_len (by rw [← List.append_assoc]; exact hs _ c _ hl)

theorem extract_append_proper {f r : List α} (hs : Stable len) (hf : len f = some f.length)
    (hr : r <+: f) (hne : r ≠ f) : extract len r = none := by
  obtain ⟨e, rfl⟩ := hr
  unfold extract
  split
  · rfl
  · rename_i n hn
    have := hs r e n hn
    rw [hf] at this
    obtain rfl := Option.some.inj this
    have he : e ≠ [] := by
      rintro rfl
      simp at hne
    have := List.length_pos_iff.mpr he
    rw [if_pos (by simp; omega)]

theorem Proper.tail {b m r : List α} (h : Proper len b) (he : extract len b = some (m, r)) :
    Proper len r :=
  fun ms r' hc hm => h (m :: ms) r' (.cons he hc) (List.mem_cons_of_mem _ hm)

theorem Proper.lt_length {b m r : List α} (h : Proper len b) (he : extract len b = some (m, r)) :
    r.length < b.length := by
  obtain ⟨rfl, -⟩ := extract_eq_some he
  have hm : m ≠ [] := fun h0 => h [m] r (.cons he (.nil r)) (by simp [h0])
  have := List.length_pos_iff.mpr hm
  simp only [List.length_append]
  omega

/-! ### Draining -/

theorem Comes.append_right {b r : List α} {ms : List (List α)} (hs : Stable len) (c : List α)
    (h : Comes len b ms r) : Comes len (b ++ c) ms (r ++ c) := by
  induction h with
  | nil b => exact .nil _
  | cons he _ ih => exact .cons (extract_append hs c he) ih

theorem Comes.trans {b b' r : List α} {ms ms' : List (List α)} (h : Comes len b ms b')
    (h' : Comes len b' ms' r) : Comes len b (ms ++ ms') r := by
  induction h with
  | nil b => exact h'
  | cons he _ ih => exact .cons he (ih h')

/-- What draining returns came off the front, and no further frame does. -/
theorem comes_of_drain : ∀ {fuel : ℕ} {b r : List α} {ms : List (List α)},
    drain len fuel b = some (ms, r) → Comes len b ms r ∧ extract len r = none
  | fuel + 1, b, r, ms, h => by
    simp only [drain] at h
    split at h
    · rename_i he
      cases h
      exact ⟨.nil _, he⟩
    · rename_i m b' he
      obtain ⟨⟨ms', r'⟩, hd, hp⟩ := Option.map_eq_some_iff.mp h
      cases hp
      obtain ⟨h1, h2⟩ := comes_of_drain hd
      exact ⟨.cons he h1, h2⟩

theorem drain_of_comes {b r : List α} {ms : List (List α)} (h : Comes len b ms r)
    (hr : extract len r = none) : ∀ fuel : ℕ, ms.length < fuel →
      drain len fuel b = some (ms, r) := by
  induction h with
  | nil b =>
    intro fuel hf
    obtain ⟨k, rfl⟩ := Nat.exists_eq_succ_of_ne_zero (by omega : fuel ≠ 0)
    simp [drain, hr]
  | cons he _ ih =>
    intro fuel hf
    simp only [List.length_cons] at hf
    obtain ⟨k, rfl⟩ := Nat.exists_eq_succ_of_ne_zero (by omega : fuel ≠ 0)
    simp [drain, he, ih hr k (by omega)]

theorem Proper.length_le {b r : List α} {ms : List (List α)} (h : Comes len b ms r) :
    Proper len b → ms.length + r.length ≤ b.length := by
  induction h with
  | nil b => intro _; simp
  | cons he _ ih =>
    intro hp
    have h1 := hp.lt_length he
    have h2 := ih (hp.tail he)
    simp only [List.length_cons]
    omega

theorem exists_comes {b : List α} (hp : Proper len b) :
    ∃ ms r, Comes len b ms r ∧ extract len r = none := by
  induction hn : b.length using Nat.strong_induction_on generalizing b with
  | _ n ih =>
    subst hn
    cases he : extract len b with
    | none => exact ⟨[], b, .nil b, he⟩
    | some p =>
      obtain ⟨m, b'⟩ := p
      obtain ⟨ms, r, hc, hr⟩ := ih b'.length (hp.lt_length he) (hp.tail he) rfl
      exact ⟨m :: ms, r, .cons he hc, hr⟩

/-- The frames are determined: two ways down to where there is no more are the same. -/
theorem Comes.unique {b r r' : List α} {ms ms' : List (List α)} (h : Comes len b ms r)
    (hr : extract len r = none) (h' : Comes len b ms' r') (hr' : extract len r' = none) :
    ms = ms' ∧ r = r' := by
  induction h generalizing ms' with
  | nil b =>
    cases h' with
    | nil _ => exact ⟨rfl, rfl⟩
    | cons he _ => rw [hr] at he; cases he
  | cons he _ ih =>
    cases h' with
    | nil _ => rw [hr'] at he; cases he
    | cons he' h' =>
      rw [he] at he'
      obtain ⟨rfl, rfl⟩ := Prod.mk.inj (Option.some.inj he')
      obtain ⟨rfl, rfl⟩ := ih hr h'
      exact ⟨rfl, rfl⟩

theorem Comes.isPrefix {b r r' : List α} {ms ms' : List (List α)} (h : Comes len b ms r)
    (hr : extract len r = none) (h' : Comes len b ms' r') : ms' <+: ms := by
  induction h generalizing ms' with
  | nil b =>
    cases h' with
    | nil _ => exact List.nil_prefix
    | cons he _ => rw [hr] at he; cases he
  | cons he _ ih =>
    cases h' with
    | nil _ => exact List.nil_prefix
    | cons he' h' =>
      rw [he] at he'
      obtain ⟨rfl, rfl⟩ := Prod.mk.inj (Option.some.inj he')
      exact List.cons_prefix_cons.mpr ⟨rfl, ih hr h'⟩

theorem proper_of_drain {fuel : ℕ} {b r : List α} {ms : List (List α)}
    (h : drain len fuel b = some (ms, r)) (hm : [] ∉ ms) : Proper len b := by
  obtain ⟨hc, hr⟩ := comes_of_drain h
  exact fun ms' r' hc' hm' => hm ((hc.isPrefix hr hc').subset hm')

/-! ### Chunks -/

/-- Draining a prefix early takes frames that come off the front of the whole. -/
theorem Proper.of_comes {b r : List α} {ms : List (List α)} (h : Comes len b ms r) :
    Proper len b → Proper len r := by
  intro hp ms' r' hc hm
  exact hp (ms ++ ms') r' (h.trans hc) (List.mem_append_right _ hm)

theorem Proper.of_append {b c : List α} (hs : Stable len) (hp : Proper len (b ++ c)) :
    Proper len b :=
  fun ms _ hc => hp ms _ (hc.append_right hs c)

theorem comes_of_feed (hs : Stable len) (fuel : ℕ) : ∀ (cs : List (List α × Bool)) (b : List α),
    Proper len (b ++ (cs.map Prod.fst).flatten) → (b ++ (cs.map Prod.fst).flatten).length < fuel →
    ∃ ms r, feed len fuel b cs = some (ms, r) ∧ Comes len (b ++ (cs.map Prod.fst).flatten) ms r ∧
      ((∃ c, cs.getLast? = some (c, true)) → extract len r = none)
  | [], b, _, _ => ⟨[], b, rfl, by simpa using Comes.nil b, by simp⟩
  | (c, false) :: cs, b, hp, hf => by
    obtain ⟨ms, r, h1, h2, h3⟩ := comes_of_feed hs fuel cs (b ++ c) (by simpa using hp) (by simpa using hf)
    refine ⟨ms, r, h1, by simpa using h2, fun h => h3 ?_⟩
    cases cs with
    | nil => simp at h
    | cons d ds => simpa using h
  | (c, true) :: cs, b, hp, hf => by
    have hp' : Proper len ((b ++ c) ++ (cs.map Prod.fst).flatten) := by simpa using hp
    obtain ⟨ms, r, hc, hr⟩ := exists_comes (hp'.of_append hs)
    have hle := Proper.length_le hc (hp'.of_append hs)
    simp only [List.map_cons, List.flatten_cons, List.length_append] at hf hle
    have hd := drain_of_comes hc hr fuel (by omega)
    have hcr := hc.append_right hs (cs.map Prod.fst).flatten
    obtain ⟨ms', r', h1, h2, h3⟩ := comes_of_feed hs fuel cs r (hp'.of_comes hcr)
      (by simp only [List.length_append]; omega)
    refine ⟨ms ++ ms', r', by simp [feed, hd, h1], by simpa using hcr.trans h2, fun h => ?_⟩
    cases cs with
    | nil =>
      simp only [feed, Option.some.injEq, Prod.mk.injEq] at h1
      rw [← h1.2]
      exact hr
    | cons d ds => exact h3 (by simpa using h)

/-- **Chunks do not matter.**  If no frame of the whole stream is empty, then feeding it in any
chunks, draining after any of them that include the last, yields what draining it at once does. -/
theorem feed_eq_drain (hs : Stable len) {s : List α} (hp : Proper len s)
    {cs : List (List α × Bool)} (hcs : (cs.map Prod.fst).flatten = s)
    (hlast : ∀ p, cs.getLast? = some p → p.2 = true) :
    ∃ ms r, ∀ fuel, s.length < fuel →
      drain len fuel s = some (ms, r) ∧ feed len fuel [] cs = some (ms, r) := by
  obtain ⟨ms, r, hc, hr⟩ := exists_comes hp
  have hle := Proper.length_le hc hp
  refine ⟨ms, r, fun fuel hf => ⟨drain_of_comes hc hr fuel (by omega), ?_⟩⟩
  obtain ⟨ms', r', h1, h2, h3⟩ := comes_of_feed hs fuel cs []
    (by simpa [hcs] using hp) (by simpa [hcs] using hf)
  simp only [List.nil_append, hcs] at h2
  have hr' : extract len r' = none := by
    cases hl : cs.getLast? with
    | some p =>
      obtain ⟨c, d⟩ := p
      obtain rfl : d = true := hlast _ hl
      exact h3 ⟨c, hl⟩
    | none =>
      -- nothing was appended: the stream is empty, and so is what is left
      obtain rfl := List.getLast?_eq_none_iff.mp hl
      simp only [List.map_nil, List.flatten_nil] at hcs
      subst hcs
      cases hc with
      | nil _ =>
        cases h2 with
        | nil _ => exact hr
        | cons he _ => rw [hr] at he; cases he
      | cons he _ =>
        have := hp.lt_length he
        simp at this
  obtain ⟨rfl, rfl⟩ := hc.unique hr h2 hr'
  exact h1

/-- **Frames come back.**  A stream of frames whose lengths can be read, followed by a proper
prefix of one more, is drained into exactly these frames, and the prefix is left. -/
theorem drain_encoded (hs : Stable len) {f r : List α} (hf : len f = some f.length) (hr : r <+: f)
    (hne : r ≠ f) : ∀ {fs : List (List α)}, (∀ g ∈ fs, len g = some g.length) →
      ∀ fuel : ℕ, fs.length < fuel → drain len fuel (fs.flatten ++ r) = some (fs, r) := by
  intro fs hfs fuel hfuel
  refine drain_of_comes ?_ (extract_append_proper hs hf hr hne) fuel hfuel
  clear hfuel
  induction fs with
  | nil => exact .nil r
  | cons g fs ih =>
    rw [List.flatten_cons, List.append_assoc]
    exact .cons (extract_of_len (hs g _ _ (hfs g (by simp))))
      (ih fun x hx => hfs x (List.mem_cons_of_mem _ hx))

end OrderRisk.Lib.Framing
