import Mathlib.Data.List.Basic
import Mathlib.Data.List.Infix
import Mathlib.Tactic.Common

/-!
# The operations of `std::string`, on lists

`find`, `rfind`, `compare` and `substr` with positions, the last two with the exception they throw
when the position lies behind the end.  A position returned by `find` is stable under appending
(`findFrom_append`), which is what makes incremental parsing work.
-/

namespace OrderRisk.Lib

/-- The exceptions of the string and number functions. -/
inductive Exn where
  | outOfRange
  | invalidArgument
  deriving DecidableEq, Repr

variable {α : Type*} [DecidableEq α]

/-- `s.find(c, pos)`. -/
def findFrom (c : α) (s : List α) (pos : ℕ) : Option ℕ :=
  ((s.drop pos).findIdx? (· == c)).map (· + pos)

def rfind (pat : List α) : List α → Option ℕ
  | [] => if pat.isPrefixOf [] then some 0 else none
  | c :: s =>
    match rfind pat s with
    | some i => some (i + 1)
    | none => if pat.isPrefixOf (c :: s) then some 0 else none

def substr (s : List α) (pos n : ℕ) : Except Exn (List α) :=
  if s.length < pos then .error .outOfRange else .ok ((s.drop pos).take n)

/-- `s.compare(pos, n, t) == 0`. -/
def compareEq (s : List α) (pos n : ℕ) (t : List α) : Except Exn Bool :=
  (substr s pos n).map (· == t)

/-! ### `find` -/

theorem findFrom_le_lt {c : α} {s : List α} {pos i : ℕ} (h : findFrom c s pos = some i) :
    pos ≤ i ∧ i < s.length := by
  obtain ⟨j, hj, rfl⟩ := Option.map_eq_some_iff.mp h
  obtain ⟨hlt, -, -⟩ := List.findIdx?_eq_some_iff_getElem.mp hj
  rw [List.length_drop] at hlt
  omega

theorem getElem?_of_findFrom {c : α} {s : List α} {pos i : ℕ} (h : findFrom c s pos = some i) :
    s[i]? = some c := by
  obtain ⟨j, hj, rfl⟩ := Option.map_eq_some_iff.mp h
  obtain ⟨hlt, hc, -⟩ := List.findIdx?_eq_some_iff_getElem.mp hj
  have he : (s.drop pos)[j]? = some c := by
    rw [List.getElem?_eq_getElem hlt]
    simpa using hc
  rw [List.getElem?_drop, Nat.add_comm] at he
  exact he

theorem findFrom_append {c : α} {s : List α} {pos i : ℕ} (t : List α)
    (h : findFrom c s pos = some i) : findFrom c (s ++ t) pos = some i := by
  obtain ⟨hp, hi⟩ := findFrom_le_lt h
  obtain ⟨j, hj, rfl⟩ := Option.map_eq_some_iff.mp h
  unfold findFrom
  rw [List.drop_append_of_le_length (by omega), List.findIdx?_append, hj]
  rfl

theorem findFrom_stretch {c : α} {p u t : List α} (hu : c ∉ u) :
    findFrom c (p ++ u ++ c :: t) p.length = some (p.length + u.length) := by
  unfold findFrom
  rw [List.append_assoc, List.drop_left, List.findIdx?_append]
  have h1 : u.findIdx? (· == c) = none := by
    rw [List.findIdx?_eq_none_iff]
    intro x hx
    simp only [beq_eq_false_iff_ne]
    rintro rfl
    exact hu hx
  simp [h1, List.findIdx?_cons, Nat.add_comm]

theorem exists_stretch_of_findFrom {c : α} {s : List α} {pos i : ℕ}
    (h : findFrom c s pos = some i) :
    ∃ u t, s = s.take pos ++ u ++ c :: t ∧ c ∉ u ∧ i = pos + u.length := by
  obtain ⟨j, hj, rfl⟩ := Option.map_eq_some_iff.mp h
  obtain ⟨hlt, hc, hbefore⟩ := List.findIdx?_eq_some_iff_getElem.mp hj
  refine ⟨(s.drop pos).take j, (s.drop pos).drop (j + 1), ?_, ?_, ?_⟩
  · obtain rfl : (s.drop pos)[j] = c := by simpa using hc
    rw [List.append_assoc, ← List.drop_eq_getElem_cons hlt, List.take_append_drop,
      List.take_append_drop]
  · intro hmem
    obtain ⟨k, hk, he⟩ := List.mem_iff_getElem.mp hmem
    rw [List.length_take] at hk
    have := hbefore k (by omega)
    rw [List.getElem_take] at he
    simp [he] at this
  · rw [List.length_take]
    omega

omit [DecidableEq α] in
theorem stretch_inj {c : α} {u u' t t' : List α} (hu : c ∉ u) (hu' : c ∉ u')
    (h : u ++ c :: t = u' ++ c :: t') : u = u' ∧ t = t' := by
  induction u generalizing u' with
  | nil =>
    cases u' with
    | nil => simpa using h
    | cons y u' =>
      simp only [List.nil_append, List.cons_append, List.cons.injEq] at h
      simp [h.1] at hu'
  | cons x u ih =>
    cases u' with
    | nil =>
      simp only [List.nil_append, List.cons_append, List.cons.injEq] at h
      simp [h.1] at hu
    | cons y u' =>
      simp only [List.cons_append, List.cons.injEq] at h
      obtain ⟨rfl, rfl⟩ := ih (fun hc => hu (.tail _ hc)) (fun hc => hu' (.tail _ hc)) h.2
      exact ⟨by rw [h.1], rfl⟩

/-! ### `substr` and `compare` -/

omit [DecidableEq α] in
theorem substr_ok {s : List α} {pos : ℕ} (n : ℕ) (h : pos ≤ s.length) :
    substr s pos n = .ok ((s.drop pos).take n) := by
  rw [substr, if_neg (by omega)]

theorem compareEq_ok {s : List α} {pos : ℕ} (n : ℕ) (t : List α) (h : pos ≤ s.length) :
    compareEq s pos n t = .ok (((s.drop pos).take n) == t) := by
  rw [compareEq, substr_ok n h]
  rfl

/-! ### `rfind` -/

theorem rfind_eq_none {x : α} {pat : List α} (hx : x ∈ pat) :
    ∀ {s : List α}, x ∉ s → rfind pat s = none
  | [], _ => by
    have : pat ≠ [] := List.ne_nil_of_mem hx
    simp [rfind, this]
  | c :: s, h => by
    have h1 : rfind pat s = none := rfind_eq_none hx fun hs => h (List.mem_cons_of_mem _ hs)
    have h2 : ¬ pat <+: c :: s := fun hp => h (hp.subset hx)
    simp only [rfind, h1, List.isPrefixOf_iff_prefix, h2, if_false]

theorem rfind_append {pat t : List α} {i : ℕ} (h : rfind pat t = some i) :
    ∀ s : List α, rfind pat (s ++ t) = some (s.length + i)
  | [] => by simpa using h
  | c :: s => by
    have ih := rfind_append h s
    simp only [List.cons_append, rfind, ih, List.length_cons, Option.some.injEq]
    omega

theorem rfind_le_length {pat : List α} : ∀ {s : List α} {i : ℕ}, rfind pat s = some i →
    i ≤ s.length ∧ pat <+: s.drop i
  | [], i, h => by
    simp only [rfind] at h
    split at h <;> cases h
    simp_all
  | c :: s, i, h => by
    simp only [rfind] at h
    split at h
    · rename_i j hj
      cases h
      obtain ⟨h1, h2⟩ := rfind_le_length hj
      exact ⟨by simpa using h1, by simpa using h2⟩
    · split at h <;> cases h
      rename_i hp
      exact ⟨by simp, by simpa using hp⟩

theorem rfind_isSome {pat : List α} : ∀ {s : List α} {j : ℕ}, pat <+: s.drop j →
    (rfind pat s).isSome = true
  | [], j, h => by
    rw [List.drop_nil, List.prefix_nil] at h
    simp [rfind, h]
  | c :: s, 0, h => by
    rw [List.drop_zero] at h
    simp only [rfind]
    split <;> simp [h]
  | c :: s, j + 1, h => by
    obtain ⟨i, hi⟩ := Option.isSome_iff_exists.mp (rfind_isSome (s := s) (by simpa using h))
    simp [rfind, hi]

/-- `rfind` is the last occurrence. -/
theorem rfind_eq_some_iff {pat : List α} (hpat : pat ≠ []) : ∀ {s : List α} {i : ℕ},
    rfind pat s = some i ↔ pat <+: s.drop i ∧ ∀ j, i < j → ¬ pat <+: s.drop j
  | [], i => by simp [rfind, hpat]
  | c :: s, i => by
    have ih := fun i => @rfind_eq_some_iff pat hpat s i
    constructor
    · intro h
      refine ⟨(rfind_le_length h).2, fun j hj hp => ?_⟩
      obtain ⟨k, rfl⟩ : ∃ k, j = k + 1 := ⟨j - 1, by omega⟩
      rw [List.drop_succ_cons] at hp
      simp only [rfind] at h
      split at h
      · next i' hi' =>
        cases h
        exact ((ih i').mp hi').2 k (by omega) hp
      · next hn =>
        -- an occurrence further on would have been found
        have hl := rfind_isSome hp
        rw [hn] at hl
        cases hl
    · rintro ⟨hp, hlast⟩
      cases i with
      | zero =>
        have hn : rfind pat s = none := by
          by_contra hne
          obtain ⟨k, hk⟩ := Option.ne_none_iff_exists'.mp hne
          exact hlast (k + 1) (by omega) (by simpa using ((ih k).mp hk).1)
        rw [List.drop_zero] at hp
        simp [rfind, hn, hp]
      | succ i =>
        have := (ih i).mpr ⟨by simpa using hp, fun j hj h => hlast (j + 1) (by omega) (by simpa using h)⟩
        simp [rfind, this]

end OrderRisk.Lib
