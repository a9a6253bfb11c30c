-- Names that are given, taken back and given again, such as descriptors and
-- addresses. A table says what a name stands for. Each entry of it is held by
-- one member of a family, and the table follows what the members hold. Nothing
-- here knows a particular program.
import Mathlib.Logic.Function.Basic
import Mathlib.Tactic.Common

namespace holdings

variable {K S N E : Type*}

/-- A member of the family `σ` holds the name `n`, which stands for `e`. -/
def Holds (σ : K → Option S) (R : K → S → N → E → Prop) (n : N) (e : E) : Prop :=
  ∃ k x, σ k = some x ∧ R k x n e

/-- The table has the names that the family holds, and no others. -/
def Table (t : N → Option E) (σ : K → Option S) (R : K → S → N → E → Prop) : Prop :=
  ∀ n e, t n = some e ↔ Holds σ R n e

/-- What is shown of all members after one has changed. -/
theorem forall_update [DecidableEq K] {σ : K → Option S} {k : K} {y : S} {P : K → S → Prop}
    (hy : P k y) (hother : ∀ k' x, k' ≠ k → σ k' = some x → P k' x) :
    ∀ k' x, Function.update σ k (some y) k' = some x → P k' x := by
  intro k' x hx
  by_cases heq : k' = k
  · subst heq
    rw [Function.update_self] at hx
    rw [← Option.some.inj hx]
    exact hy
  · rw [Function.update_of_ne heq] at hx
    exact hother k' x heq hx

theorem isSome_update [DecidableEq K] {σ : K → Option S} {k k' : K} {x y : S} (hk : σ k = some x) :
    (Function.update σ k (some y) k').isSome = (σ k').isSome := by
  by_cases heq : k' = k
  · subst heq
    rw [Function.update_self, hk]
    rfl
  · rw [Function.update_of_ne heq]

namespace Table

variable {t : N → Option E} {σ : K → Option S} {R : K → S → N → E → Prop} {k k' : K} {x y : S}
  {n : N} {e e' : E}

theorem get (h : Table t σ R) (hk : σ k = some x) (hR : R k x n e) : t n = some e :=
  (h n e).mpr ⟨k, x, hk, hR⟩

/-- A name stands for one thing only, whoever holds it. -/
theorem unique (h : Table t σ R) (hk : σ k = some x) (hR : R k x n e) (hk' : σ k' = some y)
    (hR' : R k' y n e') : e = e' := by
  have he := h.get hk hR
  rw [h.get hk' hR'] at he
  exact (Option.some.inj he).symm

variable [DecidableEq K]

/-- What is held after one member has changed. -/
theorem holds_update :
    Holds (Function.update σ k (some y)) R n e ↔
      R k y n e ∨ ∃ k' z, k' ≠ k ∧ σ k' = some z ∧ R k' z n e := by
  constructor
  · rintro ⟨k', z, hk', hR⟩
    by_cases heq : k' = k
    · subst heq
      rw [Function.update_self] at hk'
      obtain rfl := Option.some.inj hk'
      exact Or.inl hR
    · rw [Function.update_of_ne heq] at hk'
      exact Or.inr ⟨k', z, heq, hk', hR⟩
  · rintro (hR | ⟨k', z, hne, hk', hR⟩)
    · exact ⟨k, y, Function.update_self .., hR⟩
    · exact ⟨k', z, by rw [Function.update_of_ne hne, hk'], hR⟩

/-- The same for what was held before the change. -/
theorem holds_split (hk : σ k = some x) :
    Holds σ R n e ↔ R k x n e ∨ ∃ k' z, k' ≠ k ∧ σ k' = some z ∧ R k' z n e := by
  have hσ : Function.update σ k (some x) = σ := by
    rw [← hk]
    exact Function.update_eq_self k σ
  rw [← hσ, holds_update, hσ]

/-- A member changes, and holds what it held. -/
theorem same (h : Table t σ R) (hk : σ k = some x) (hR : ∀ n e, R k y n e ↔ R k x n e) :
    Table t (Function.update σ k (some y)) R := by
  intro n e
  rw [h n e, holds_update, holds_split hk, hR]

/-- A new member holds nothing yet. -/
theorem enter (h : Table t σ R) (hk : σ k = none) (hR : ∀ n e, ¬ R k y n e) :
    Table t (Function.update σ k (some y)) R := by
  intro n e
  rw [h n e, holds_update]
  constructor
  · rintro ⟨k', z, hk', hy⟩
    refine Or.inr ⟨k', z, ?_, hk', hy⟩
    rintro rfl
    rw [hk] at hk'
    cases hk'
  · rintro (hn | ⟨k', z, -, hk', hy⟩)
    · exact absurd hn (hR n e)
    · exact ⟨k', z, hk', hy⟩

variable [DecidableEq N]

/-- A member is given a name that is free. -/
theorem give (h : Table t σ R) (hk : σ k = some x) (hn : t n = none)
    (hR : ∀ m e', R k y m e' ↔ R k x m e' ∨ m = n ∧ e' = e) :
    Table (Function.update t n (some e)) (Function.update σ k (some y)) R := by
  intro m e'
  rw [holds_update, hR, or_right_comm, ← holds_split hk, ← h m e']
  by_cases hm : m = n
  · subst hm
    rw [Function.update_self, hn]
    simp [eq_comm]
  · rw [Function.update_of_ne hm]
    simp [hm]

/-- A member gives a name back. Nobody else holds a name for the same thing. -/
theorem take (h : Table t σ R) (hk : σ k = some x) (hx : R k x n e)
    (hR : ∀ m e', R k y m e' ↔ R k x m e' ∧ m ≠ n)
    (hother : ∀ k' z m, k' ≠ k → σ k' = some z → ¬ R k' z m e) :
    Table (Function.update t n none) (Function.update σ k (some y)) R := by
  intro m e'
  have hothers : (∃ k' z, k' ≠ k ∧ σ k' = some z ∧ R k' z m e') → m ≠ n := by
    rintro ⟨k', z, hne, hk', hy⟩ rfl
    obtain rfl := h.unique hk hx hk' hy
    exact hother k' z m hne hk' hy
  rw [holds_update, hR]
  by_cases hm : m = n
  · subst hm
    rw [Function.update_self]
    simp only [ne_eq, not_true_eq_false, and_false, false_or, reduceCtorEq, false_iff]
    exact fun ho => hothers ho rfl
  · rw [Function.update_of_ne hm, h m e', holds_split hk]
    simp [hm]

end Table

end holdings
