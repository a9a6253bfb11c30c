-- Functions on blocks, applied to a list block by block, and padding to whole
-- blocks. There is nothing of the player in here.
import Mathlib.Data.List.Basic
import Mathlib.Order.Bounds.Basic
import Mathlib.Tactic.Common

namespace blockwise

variable {α : Type*}

/-- `f` on each of the first `n` blocks of `k` elements. -/
def onBlocks (k : ℕ) (f : List α → List α) : ℕ → List α → List α
  | 0, _ => []
  | n + 1, xs => f (xs.take k) ++ onBlocks k f n (xs.drop k)

variable {k : ℕ} {f g : List α → List α}

theorem length_onBlocks (hf : ∀ b, b.length = k → (f b).length = k) (n : ℕ) (xs : List α)
    (hlen : xs.length = n * k) : (onBlocks k f n xs).length = n * k := by
  induction n generalizing xs with
  | zero => simp [onBlocks]
  | succ n ih =>
    rw [Nat.succ_mul] at hlen ⊢
    have htake : (xs.take k).length = k := by rw [List.length_take]; omega
    have hdrop : (xs.drop k).length = n * k := by rw [List.length_drop]; omega
    rw [onBlocks, List.length_append, hf _ htake, ih _ hdrop]
    omega

/-- What undoes `f` on a block undoes it on whole lists. -/
theorem onBlocks_inverse (hf : ∀ b, b.length = k → (f b).length = k)
    (hgf : ∀ b, b.length = k → g (f b) = b) (n : ℕ) (xs : List α) (hlen : xs.length = n * k) :
    onBlocks k g n (onBlocks k f n xs) = xs := by
  induction n generalizing xs with
  | zero =>
    rw [Nat.zero_mul, List.length_eq_zero_iff] at hlen
    simp [onBlocks, hlen]
  | succ n ih =>
    rw [Nat.succ_mul] at hlen
    have htake : (xs.take k).length = k := by rw [List.length_take]; omega
    have hdrop : (xs.drop k).length = n * k := by rw [List.length_drop]; omega
    have hfb := hf _ htake
    rw [onBlocks, onBlocks, List.take_left' hfb, List.drop_left' hfb, hgf _ htake, ih _ hdrop,
      List.take_append_drop]

/-- A block of the result is `f` of the block at its place. -/
theorem onBlocks_block (hf : ∀ b, b.length = k → (f b).length = k) (n : ℕ) (xs : List α)
    (hlen : xs.length = n * k) {i : ℕ} (hi : i < n) :
    ((onBlocks k f n xs).drop (k * i)).take k = f ((xs.drop (k * i)).take k) := by
  induction n generalizing xs i with
  | zero => omega
  | succ n ih =>
    rw [Nat.succ_mul] at hlen
    have htake : (xs.take k).length = k := by rw [List.length_take]; omega
    have hdrop : (xs.drop k).length = n * k := by rw [List.length_drop]; omega
    have hfb := hf _ htake
    cases i with
    | zero => rw [onBlocks, Nat.mul_zero, List.drop_zero, List.drop_zero, List.take_left' hfb]
    | succ i =>
      rw [onBlocks, Nat.mul_succ, Nat.add_comm, ← List.drop_drop, List.drop_left' hfb,
        ih _ hdrop (by omega), List.drop_drop]

/-- The number of elements that fill the last block up. -/
def padding (k n : ℕ) : ℕ := (k - n % k) % k

theorem padding_lt (hk : 0 < k) (n : ℕ) : padding k n < k := Nat.mod_lt _ hk

theorem padding_eq_zero_iff (hk : 0 < k) (n : ℕ) : padding k n = 0 ↔ n % k = 0 := by
  have hlt := Nat.mod_lt n hk
  unfold padding
  constructor
  · intro h
    by_contra hne
    rw [Nat.mod_eq_of_lt (by omega)] at h
    omega
  · intro h
    rw [h, Nat.sub_zero, Nat.mod_self]

/-- A padded length is the length rounded up to whole blocks. -/
theorem add_padding (hk : 0 < k) (n : ℕ) : n + padding k n = (n + (k - 1)) / k * k := by
  have hlt := Nat.mod_lt n hk
  have hdiv := Nat.div_add_mod n k
  have hmul : k * (n / k) = n / k * k := Nat.mul_comm _ _
  unfold padding
  by_cases h0 : n % k = 0
  · have hq : (n + (k - 1)) / k = n / k := by
      rw [Nat.div_eq_iff hk]
      constructor <;> omega
    rw [h0, Nat.sub_zero, Nat.mod_self, hq]
    omega
  · have hq : (n + (k - 1)) / k = n / k + 1 := by
      rw [Nat.div_eq_iff hk, Nat.succ_mul]
      constructor <;> omega
    rw [hq, Nat.succ_mul, Nat.mod_eq_of_lt (by omega)]
    omega

/-- A padded length is the least multiple of `k` that is not less than the length. -/
theorem isLeast_add_padding (hk : 0 < k) (n : ℕ) :
    IsLeast {m | k ∣ m ∧ n ≤ m} (n + padding k n) := by
  refine ⟨⟨?_, Nat.le_add_right ..⟩, ?_⟩
  · rw [add_padding hk]
    exact Nat.dvd_mul_left ..
  · rintro m ⟨⟨q, rfl⟩, hle⟩
    have hq : (n + (k - 1)) / k ≤ q := by
      rw [Nat.div_le_iff_le_mul_add_pred hk]
      omega
    rw [add_padding hk, Nat.mul_comm k q]
    exact Nat.mul_le_mul_right k hq

end blockwise
