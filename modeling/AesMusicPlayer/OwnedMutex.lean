-- A mutex that is known by its owner. An unlock frees it, whoever unlocks, so
-- the locks and unlocks of the threads decide who owns it. When each unlock
-- comes from the owner, each thread locks and unlocks in turn, and at most one
-- thread is between its lock and its unlock.
import Mathlib.Data.List.Basic
import Mathlib.Tactic.Common

namespace owned_mutex

variable {T : Type*}

inductive Op
  | lock | unlock
  deriving DecidableEq

/-- The owner that an operation of `t` leaves. -/
def Op.owner (t : T) : Op → Option T
  | .lock => some t
  | .unlock => none

/-- The operations of all threads, the oldest first. -/
abbrev History (T : Type*) := List (T × Op)

namespace History

/-- The owner after the operations of a mutex that was free. -/
def owner (h : History T) : Option T := h.getLast?.bind fun e => e.2.owner e.1

@[simp] theorem owner_nil : owner ([] : History T) = none := rfl

@[simp] theorem owner_append (h : History T) (t : T) (op : Op) :
    owner (h ++ [(t, op)]) = op.owner t := by
  simp [owner]

/-- A thread locks the free mutex, and only the owner unlocks. -/
inductive Kept : History T → Prop
  | nil : Kept []
  | lock {h : History T} (t : T) : Kept h → owner h = none → Kept (h ++ [(t, .lock)])
  | unlock {h : History T} (t : T) : Kept h → owner h = some t → Kept (h ++ [(t, .unlock)])

section Threads

variable [DecidableEq T]

/-- The operations of one thread. -/
def ops (t : T) (h : History T) : List Op := (h.filter fun e => e.1 = t).map Prod.snd

theorem ops_append_self (t : T) (h : History T) (op : Op) :
    ops t (h ++ [(t, op)]) = ops t h ++ [op] := by
  simp [ops]

theorem ops_append_other {t u : T} (hne : u ≠ t) (h : History T) (op : Op) :
    ops t (h ++ [(u, op)]) = ops t h := by
  simp [ops, hne]

/-- A lock and its unlock, `k` times. -/
def pairs (k : ℕ) : List Op := (List.replicate k [Op.lock, Op.unlock]).flatten

theorem pairs_succ (k : ℕ) : pairs (k + 1) = pairs k ++ [.lock, .unlock] := by
  simp [pairs, List.replicate_succ']

theorem length_pairs (k : ℕ) : (pairs k).length = 2 * k := by
  simp [pairs, Nat.mul_comm]

/-- Each lock of the thread has had its one unlock. -/
def Balanced (t : T) (h : History T) : Prop := ∃ k, ops t h = pairs k

/-- The thread has locked and not yet unlocked. -/
def Between (t : T) (h : History T) : Prop := ∃ k, ops t h = pairs k ++ [.lock]

theorem Balanced.not_between {t : T} {h : History T} (hb : Balanced t h) : ¬ Between t h := by
  rintro ⟨k, hk⟩
  obtain ⟨m, hm⟩ := hb
  have hlen : 2 * m = 2 * k + 1 := by
    rw [← length_pairs, ← hm, hk, List.length_append, length_pairs]
    rfl
  omega

/-- The owner is between its lock and its unlock, and every other thread is balanced. -/
theorem Kept.between_or_balanced {h : History T} (hk : Kept h) (t : T) :
    (owner h = some t ∧ Between t h) ∨ (owner h ≠ some t ∧ Balanced t h) := by
  induction hk with
  | nil => exact Or.inr ⟨by simp, 0, rfl⟩
  | @lock h u _ hfree ih =>
    rw [owner_append]
    by_cases hu : u = t
    · subst hu
      left
      obtain ⟨k, hk⟩ := (ih.resolve_left fun h1 => by rw [hfree] at h1; cases h1.1).2
      exact ⟨rfl, k, by rw [ops_append_self, hk]⟩
    · right
      obtain ⟨k, hk⟩ := (ih.resolve_left fun h1 => by rw [hfree] at h1; cases h1.1).2
      exact ⟨by simpa [Op.owner] using hu, k, by rw [ops_append_other hu, hk]⟩
  | @unlock h u _ howned ih =>
    rw [owner_append]
    right
    by_cases hu : u = t
    · subst hu
      obtain ⟨k, hk⟩ := (ih.resolve_right fun h1 => h1.1 howned).2
      refine ⟨by simp [Op.owner], k + 1, ?_⟩
      rw [ops_append_self, hk, pairs_succ, List.append_assoc]
      rfl
    · have hne : owner h ≠ some t := by
        rw [howned]
        simpa using hu
      obtain ⟨k, hk⟩ := (ih.resolve_left fun h1 => hne h1.1).2
      exact ⟨by simp [Op.owner], k, by rw [ops_append_other hu, hk]⟩

theorem Kept.between_iff {h : History T} (hk : Kept h) (t : T) :
    Between t h ↔ owner h = some t := by
  rcases hk.between_or_balanced t with ⟨ho, hb⟩ | ⟨ho, hb⟩
  · exact ⟨fun _ => ho, fun _ => hb⟩
  · exact ⟨fun h1 => absurd h1 hb.not_between, fun h1 => absurd h1 ho⟩

theorem Kept.balanced_of_not_owner {h : History T} (hk : Kept h) {t : T}
    (ht : owner h ≠ some t) : Balanced t h := by
  rcases hk.between_or_balanced t with ⟨ho, -⟩ | ⟨-, hb⟩
  · exact absurd ho ht
  · exact hb

/-- At most one thread is between its lock and its unlock. -/
theorem Kept.between_unique {h : History T} (hk : Kept h) {t u : T} (ht : Between t h)
    (hu : Between u h) : t = u := by
  have h1 := (hk.between_iff t).mp ht
  have h2 := (hk.between_iff u).mp hu
  rw [h1, Option.some.injEq] at h2
  exact h2

end Threads

end History

end owned_mutex
