-- AES with keys of 128 bits, in its own terms: the bytes are the elements of the
-- field of 256 elements, the S-box is the inverse with an affine map after it,
-- and a block is a matrix of four rows and four columns.
import Mathlib.Algebra.Group.Equiv.Basic
import Mathlib.Tactic.FinCases
import AesMusicPlayer.AesRounds
import AesMusicPlayer.BinaryField
import AesMusicPlayer.Rijndael

open aes_core binary_field Polynomial

namespace aes_standard

/-! ## The field -/

/-- The lower coefficients of the modulus. -/
def poly_low : Byte := 0x1b

abbrev GF := Residue poly_low

theorem modulus_poly_low : modulus poly_low = X ^ 8 + X ^ 4 + X ^ 3 + X + 1 := by
  simp only [modulus, poly, Finset.sum_range_succ, Finset.sum_range_zero]
  simp [poly_low]
  ring

/-- The polynomial `X` in the field. -/
noncomputable def alpha : GF := AdjoinRoot.root (modulus poly_low)

/-! ## The S-box -/

/-- Bit `i` is the sum of the bits `i`, `i + 4`, `i + 5`, `i + 6` and `i + 7` modulo 8, and of a
constant. -/
def affine_map (b : Byte) : Byte :=
  b ^^^ b.rotateRight 4 ^^^ b.rotateRight 5 ^^^ b.rotateRight 6 ^^^ b.rotateRight 7 ^^^ 0x63

def inv_affine_map (b : Byte) : Byte :=
  b.rotateRight 2 ^^^ b.rotateRight 5 ^^^ b.rotateRight 7 ^^^ 0x05

theorem inv_affine_map_affine_map : ∀ b, inv_affine_map (affine_map b) = b := by decide +kernel

theorem affine_map_inv_affine_map : ∀ b, affine_map (inv_affine_map b) = b := by decide +kernel

def affine : Equiv.Perm Byte :=
  ⟨affine_map, inv_affine_map, inv_affine_map_affine_map, affine_map_inv_affine_map⟩

/-- The inverses, read off the table of the core. -/
def inverse (b : Byte) : Byte := inv_affine_map (aes_sbox b)

theorem inverse_zero : inverse 0 = 0 := by decide

theorem mul_inverse : ∀ b : Byte, b ≠ 0 → mul poly_low (inverse b) b = 1 := by decide +kernel

/-- The table shows that the residues are a field. -/
instance : Fact (Irreducible (modulus poly_low)) :=
  ⟨irreducible_modulus (Nat.succ_pos 7) inverse mul_inverse⟩

theorem residue_inverse (b : Byte) : residue poly_low (inverse b) = (residue poly_low b)⁻¹ := by
  by_cases hb : b = 0
  · subst hb
    rw [inverse_zero, residue_zero, inv_zero]
  · apply eq_inv_of_mul_eq_one_left
    rw [← residue_mul, mul_inverse b hb]
    exact residue_one poly_low (Nat.succ_pos 7)

noncomputable def s_box : Equiv.Perm GF :=
  (Equiv.inv GF).trans ((equiv poly_low).symm.trans (affine.trans (equiv poly_low)))

/-! ## The columns -/

/-- The coefficients of MixColumns. -/
def mix_bytes : Matrix (Fin 4) (Fin 4) Byte := !![2, 3, 1, 1; 1, 2, 3, 1; 1, 1, 2, 3; 3, 1, 1, 2]

def inv_mix_bytes : Matrix (Fin 4) (Fin 4) Byte :=
  !![0x0e, 0x0b, 0x0d, 0x09; 0x09, 0x0e, 0x0b, 0x0d; 0x0d, 0x09, 0x0e, 0x0b; 0x0b, 0x0d, 0x09, 0x0e]

theorem mul_map_residue {A B : Matrix (Fin 4) (Fin 4) Byte}
    (h : ∀ i j, mul poly_low (A i 0) (B 0 j) ^^^ mul poly_low (A i 1) (B 1 j) ^^^
      mul poly_low (A i 2) (B 2 j) ^^^ mul poly_low (A i 3) (B 3 j) = if i = j then 1 else 0) :
    A.map (residue poly_low) * B.map (residue poly_low) = 1 := by
  ext i j
  simp only [Matrix.mul_apply, Matrix.map_apply, Fin.sum_univ_four, ← residue_mul, ← residue_xor, h,
    Matrix.one_apply]
  split_ifs
  · exact residue_one poly_low (Nat.succ_pos 7)
  · exact residue_zero poly_low

theorem mix_mul_inv_mix : mix_bytes.map (residue poly_low) * inv_mix_bytes.map (residue poly_low) = 1 :=
  mul_map_residue (by decide +kernel)

theorem inv_mix_mul_mix : inv_mix_bytes.map (residue poly_low) * mix_bytes.map (residue poly_low) = 1 :=
  mul_map_residue (by decide +kernel)

noncomputable def mix : (Matrix (Fin 4) (Fin 4) GF)ˣ :=
  ⟨mix_bytes.map (residue poly_low), inv_mix_bytes.map (residue poly_low), mix_mul_inv_mix,
    inv_mix_mul_mix⟩

/-! ## The cipher -/

noncomputable def aes : rijndael.Cipher 4 4 GF := ⟨s_box, id, mix⟩

/-- The state of a block: its bytes go down the columns, the byte of the upper bits first. -/
noncomputable def block (t : Word) : Matrix (Fin 4) (Fin 4) GF :=
  Matrix.of fun i j => residue poly_low (t.extractLsb' (120 - 8 * (i + 4 * j)) 8)

/-- The words of the key, one for each column. -/
noncomputable def key_words (k : Word) (j i : Fin 4) : GF := block k i j

noncomputable def round_key (k : Word) (j : ℕ) : Matrix (Fin 4) (Fin 4) GF :=
  aes.roundKey alpha 4 (key_words k) j

/-- Nine rounds and the last one. -/
noncomputable def cipher (k t : Word) : Matrix (Fin 4) (Fin 4) GF :=
  aes.cipher (round_key k) 9 (block t)

noncomputable def inv_cipher (k t : Word) : Matrix (Fin 4) (Fin 4) GF :=
  aes.invCipher (round_key k) 9 (block t)

end aes_standard
