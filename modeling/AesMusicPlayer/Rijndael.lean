-- Ciphers whose state is a matrix: each round substitutes the entries, turns the
-- rows, mixes the columns and adds a round key, and the last round leaves the
-- columns unmixed. The inverse cipher undoes them with the round keys from
-- the last one to the first.
import Mathlib.Algebra.Group.Fin.Basic
import Mathlib.Data.Matrix.Mul

namespace rijndael

/-- A cipher over the ring `F`, with `r` rows and `c` columns. -/
structure Cipher (r c : ℕ) (F : Type*) [CommRing F] where
  sub : Equiv.Perm F
  /-- how far a row turns to the left -/
  offset : Fin r → Fin c
  mix : (Matrix (Fin r) (Fin r) F)ˣ

variable {r c : ℕ} {F : Type*} [CommRing F]

namespace Cipher

variable (P : Cipher r c F)

/-! ## The steps of a round -/

def subBytes (s : Matrix (Fin r) (Fin c) F) : Matrix (Fin r) (Fin c) F := s.map P.sub

def invSubBytes (s : Matrix (Fin r) (Fin c) F) : Matrix (Fin r) (Fin c) F := s.map P.sub.symm

def mixColumns (s : Matrix (Fin r) (Fin c) F) : Matrix (Fin r) (Fin c) F := P.mix.val * s

def invMixColumns (s : Matrix (Fin r) (Fin c) F) : Matrix (Fin r) (Fin c) F := P.mix⁻¹.val * s

@[simp] theorem invSubBytes_subBytes (s : Matrix (Fin r) (Fin c) F) :
    P.invSubBytes (P.subBytes s) = s := by
  ext i j
  simp [subBytes, invSubBytes]

@[simp] theorem subBytes_invSubBytes (s : Matrix (Fin r) (Fin c) F) :
    P.subBytes (P.invSubBytes s) = s := by
  ext i j
  simp [subBytes, invSubBytes]

@[simp] theorem invMixColumns_mixColumns (s : Matrix (Fin r) (Fin c) F) :
    P.invMixColumns (P.mixColumns s) = s := by
  rw [invMixColumns, mixColumns, ← Matrix.mul_assoc, Units.inv_mul, Matrix.one_mul]

@[simp] theorem mixColumns_invMixColumns (s : Matrix (Fin r) (Fin c) F) :
    P.mixColumns (P.invMixColumns s) = s := by
  rw [invMixColumns, mixColumns, ← Matrix.mul_assoc, Units.mul_inv, Matrix.one_mul]

section Rows

variable [NeZero c]

def shiftRows (s : Matrix (Fin r) (Fin c) F) : Matrix (Fin r) (Fin c) F :=
  Matrix.of fun i j => s i (j + P.offset i)

def invShiftRows (s : Matrix (Fin r) (Fin c) F) : Matrix (Fin r) (Fin c) F :=
  Matrix.of fun i j => s i (j - P.offset i)

@[simp] theorem invShiftRows_shiftRows (s : Matrix (Fin r) (Fin c) F) :
    P.invShiftRows (P.shiftRows s) = s := by
  ext i j
  simp only [shiftRows, invShiftRows, Matrix.of_apply, sub_add_cancel]

@[simp] theorem shiftRows_invShiftRows (s : Matrix (Fin r) (Fin c) F) :
    P.shiftRows (P.invShiftRows s) = s := by
  ext i j
  simp only [shiftRows, invShiftRows, Matrix.of_apply, add_sub_cancel_right]

/-! ## The rounds -/

/-- The state after `j` rounds with the round keys `rk`. -/
def rounds (rk : ℕ → Matrix (Fin r) (Fin c) F) (s : Matrix (Fin r) (Fin c) F) :
    ℕ → Matrix (Fin r) (Fin c) F
  | 0 => s + rk 0
  | j + 1 => P.mixColumns (P.shiftRows (P.subBytes (rounds rk s j))) + rk (j + 1)

/-- `n` rounds, and the last one. -/
def cipher (rk : ℕ → Matrix (Fin r) (Fin c) F) (n : ℕ) (s : Matrix (Fin r) (Fin c) F) :
    Matrix (Fin r) (Fin c) F :=
  P.shiftRows (P.subBytes (P.rounds rk s n)) + rk (n + 1)

/-- The state after the first `j` rounds of the inverse cipher. -/
def invRounds (rk : ℕ → Matrix (Fin r) (Fin c) F) (n : ℕ) (s : Matrix (Fin r) (Fin c) F) :
    ℕ → Matrix (Fin r) (Fin c) F
  | 0 => s - rk (n + 1)
  | j + 1 => P.invMixColumns (P.invSubBytes (P.invShiftRows (invRounds rk n s j)) - rk (n - j))

def invCipher (rk : ℕ → Matrix (Fin r) (Fin c) F) (n : ℕ) (s : Matrix (Fin r) (Fin c) F) :
    Matrix (Fin r) (Fin c) F :=
  P.invSubBytes (P.invShiftRows (P.invRounds rk n s n)) - rk 0

section Inverse

variable (rk : ℕ → Matrix (Fin r) (Fin c) F) (n : ℕ) (s : Matrix (Fin r) (Fin c) F)

/-- After `j` rounds the inverse cipher is back in the round `n - j` of the cipher. -/
theorem invRounds_cipher {j : ℕ} (hj : j ≤ n) :
    P.invRounds rk n (P.cipher rk n s) j = P.shiftRows (P.subBytes (P.rounds rk s (n - j))) := by
  induction j with
  | zero => rw [invRounds, cipher, Nat.sub_zero, add_sub_cancel_right]
  | succ j ih =>
    have hround : n - j = n - (j + 1) + 1 := by omega
    rw [invRounds, ih (by omega), invShiftRows_shiftRows, invSubBytes_subBytes, hround, rounds,
      add_sub_cancel_right, invMixColumns_mixColumns]

theorem invCipher_cipher : P.invCipher rk n (P.cipher rk n s) = s := by
  rw [invCipher, invRounds_cipher P rk n s (Nat.le_refl n), invShiftRows_shiftRows,
    invSubBytes_subBytes, Nat.sub_self, rounds, add_sub_cancel_right]

/-- After `j` rounds the cipher is back in the round `n - j` of the inverse cipher. -/
theorem rounds_invCipher {j : ℕ} (hj : j ≤ n) :
    P.rounds rk (P.invCipher rk n s) j =
      P.invSubBytes (P.invShiftRows (P.invRounds rk n s (n - j))) := by
  induction j with
  | zero => rw [rounds, invCipher, Nat.sub_zero, sub_add_cancel]
  | succ j ih =>
    have hround : n - j = n - (j + 1) + 1 := by omega
    have hkey : n - (n - (j + 1)) = j + 1 := by omega
    rw [rounds, ih (by omega), subBytes_invSubBytes, shiftRows_invShiftRows, hround, invRounds,
      mixColumns_invMixColumns, hkey, sub_add_cancel]

theorem cipher_invCipher : P.cipher rk n (P.invCipher rk n s) = s := by
  rw [cipher, rounds_invCipher P rk n s (Nat.le_refl n), subBytes_invSubBytes,
    shiftRows_invShiftRows, Nat.sub_self, invRounds, sub_add_cancel]

end Inverse

end Rows

/-! ## The key schedule -/

variable [NeZero r]

/-- The word with its entries turned by one and substituted, as every `nk`-th word takes it. -/
def subRot (v : Fin r → F) : Fin r → F := fun i => P.sub (v (i + 1))

/-- The words of the key schedule, from a key of `nk` words. The round constants are the
powers of `x`. -/
def keyWord (x : F) (nk : ℕ) [NeZero nk] (key : Fin nk → Fin r → F) (i : ℕ) : Fin r → F :=
  if h : i < nk then key ⟨i, h⟩
  else
    keyWord x nk key (i - nk) +
      if i % nk = 0 then P.subRot (keyWord x nk key (i - 1)) + Pi.single 0 (x ^ (i / nk - 1))
      else keyWord x nk key (i - 1)
termination_by i
decreasing_by all_goals have := NeZero.pos nk; omega

/-- The round keys: each one takes the next `c` words as its columns. -/
def roundKey (x : F) (nk : ℕ) [NeZero nk] (key : Fin nk → Fin r → F) (j : ℕ) :
    Matrix (Fin r) (Fin c) F :=
  Matrix.of fun i k => P.keyWord x nk key (c * j + k) i

section KeyWord

variable (x : F) (nk : ℕ) [NeZero nk] (key : Fin nk → Fin r → F)

theorem keyWord_lt {i : ℕ} (h : i < nk) : P.keyWord x nk key i = key ⟨i, h⟩ := by
  rw [keyWord, dif_pos h]

/-- The first word of the key number `j + 1`. -/
theorem keyWord_first (j : ℕ) : P.keyWord x nk key (nk * (j + 1)) = P.keyWord x nk key (nk * j) +
    (P.subRot (P.keyWord x nk key (nk * j + (nk - 1))) + Pi.single 0 (x ^ j)) := by
  have hpos := NeZero.pos nk
  have hle : ¬ nk * (j + 1) < nk := by
    rw [Nat.mul_succ]
    omega
  have hprev : nk * (j + 1) - nk = nk * j := by
    rw [Nat.mul_succ, Nat.add_sub_cancel]
  have hlast : nk * (j + 1) - 1 = nk * j + (nk - 1) := by
    rw [Nat.mul_succ]
    omega
  rw [keyWord, dif_neg hle, if_pos (Nat.mul_mod_right nk (j + 1)), hprev, hlast,
    Nat.mul_div_cancel_left (j + 1) hpos, Nat.add_sub_cancel]

/-- The other words of the key number `j + 1`. -/
theorem keyWord_succ (j : ℕ) {i : ℕ} (hi : i + 1 < nk) :
    P.keyWord x nk key (nk * (j + 1) + (i + 1)) =
      P.keyWord x nk key (nk * j + (i + 1)) + P.keyWord x nk key (nk * (j + 1) + i) := by
  have hle : ¬ nk * (j + 1) + (i + 1) < nk := by
    rw [Nat.mul_succ]
    omega
  have hprev : nk * (j + 1) + (i + 1) - nk = nk * j + (i + 1) := by
    rw [Nat.mul_succ]
    omega
  have hmod : (nk * (j + 1) + (i + 1)) % nk ≠ 0 := by
    rw [Nat.mul_add_mod, Nat.mod_eq_of_lt hi]
    omega
  have hlast : nk * (j + 1) + (i + 1) - 1 = nk * (j + 1) + i := rfl
  rw [keyWord, dif_neg hle, if_neg hmod, hprev, hlast]

end KeyWord

end Cipher

end rijndael
