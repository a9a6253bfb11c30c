-- Words of `w` bits as the polynomials over the field of two elements, modulo a
-- polynomial of degree `w` that is given by its lower coefficients. The sum is
-- the exclusive or, and the product is worked out one bit after the other.
import Mathlib.Algebra.CharP.Two
import Mathlib.Algebra.Field.ZMod
import Mathlib.Data.BitVec
import Mathlib.RingTheory.AdjoinRoot

open Polynomial

namespace binary_field

variable {w : ℕ}

/-! ## Words that are multiplied -/

/-- The product with the polynomial `X`. -/
def xtime (m b : BitVec w) : BitVec w := (b <<< 1) ^^^ (if b.getMsbD 0 then m else 0)

/-- The product of `a` and the `k` upper bits of `b`. -/
def horner (m a b : BitVec w) : ℕ → BitVec w
  | 0 => 0
  | k + 1 => xtime m (horner m a b k) ^^^ (if b.getMsbD k then a else 0)

def mul (m a b : BitVec w) : BitVec w := horner m a b w

/-! ## The polynomials -/

/-- The polynomial whose coefficients are the bits of the word. -/
noncomputable def poly (b : BitVec w) : (ZMod 2)[X] :=
  ∑ i ∈ Finset.range w, if b.getLsbD i then X ^ i else 0

noncomputable def modulus (m : BitVec w) : (ZMod 2)[X] := X ^ w + poly m

/-- The residues. -/
abbrev Residue (m : BitVec w) := AdjoinRoot (modulus m)

noncomputable def residue (m b : BitVec w) : Residue m := AdjoinRoot.mk (modulus m) (poly b)

theorem if_xor {R : Type*} [AddMonoid R] [IsLeftCancelAdd R] {x : R} (hx : x + x = 0)
    (p q : Bool) : (if p ^^ q then x else 0) = (if p then x else 0) + (if q then x else 0) := by
  cases p <;> cases q <;> simp [hx]

theorem coeff_poly (b : BitVec w) (i : ℕ) : (poly b).coeff i = if b.getLsbD i then 1 else 0 := by
  unfold poly
  rw [finsetSum_coeff]
  by_cases hi : i < w
  · rw [Finset.sum_eq_single i]
    · split_ifs <;> simp
    · intro j _ hne
      split_ifs
      · rw [coeff_X_pow, if_neg hne.symm]
      · exact coeff_zero i
    · intro hno
      exact absurd (Finset.mem_range.mpr hi) hno
  · rw [Finset.sum_eq_zero, BitVec.getLsbD_of_ge b i (Nat.le_of_not_lt hi)]
    · rfl
    · intro j hj
      have hne : i ≠ j := by
        rintro rfl
        exact hi (Finset.mem_range.mp hj)
      split_ifs
      · rw [coeff_X_pow, if_neg hne]
      · exact coeff_zero i

theorem poly_injective : Function.Injective (poly : BitVec w → (ZMod 2)[X]) := by
  intro a b hab
  apply BitVec.eq_of_getLsbD_eq
  intro i _
  have hcoeff := congrArg (fun p => p.coeff i) hab
  simp only [coeff_poly] at hcoeff
  cases ha : a.getLsbD i <;> cases hb : b.getLsbD i <;> simp_all

theorem poly_xor (a b : BitVec w) : poly (a ^^^ b) = poly a + poly b := by
  ext i
  rw [coeff_add, coeff_poly, coeff_poly, coeff_poly, BitVec.getLsbD_xor]
  exact if_xor (by decide) _ _

@[simp] theorem poly_zero : poly (0 : BitVec w) = 0 := by
  ext i
  simp [coeff_poly]

theorem degree_poly_lt (b : BitVec w) : (poly b).degree < w := by
  rw [degree_lt_iff_coeff_zero]
  intro i hi
  rw [coeff_poly, BitVec.getLsbD_of_ge b i hi]
  rfl

theorem monic_modulus (m : BitVec w) : (modulus m).Monic := monic_X_pow_add (degree_poly_lt m)

theorem degree_modulus (m : BitVec w) : (modulus m).degree = w := by
  unfold modulus
  rw [degree_add_eq_left_of_degree_lt, degree_X_pow]
  rw [degree_X_pow]
  exact degree_poly_lt m

/-- The word of a polynomial of a small degree. -/
noncomputable def word (w : ℕ) (p : (ZMod 2)[X]) : BitVec w :=
  (BitVec.ofBoolListLE (List.ofFn fun i : Fin w => decide (p.coeff i = 1))).cast List.length_ofFn

theorem poly_word {p : (ZMod 2)[X]} (hp : p.degree < w) : poly (word w p) = p := by
  have htwo : ∀ x : ZMod 2, (if x = 1 then 1 else 0) = x := by decide
  ext i
  rw [coeff_poly]
  by_cases hi : i < w
  · rw [← htwo (p.coeff i)]
    rw [word, BitVec.getLsbD_cast, BitVec.getLsbD_ofBoolListLE]
    simp [List.getD_eq_getElem?_getD, hi]
  · rw [BitVec.getLsbD_of_ge _ _ (Nat.le_of_not_lt hi),
      degree_lt_iff_coeff_zero p w |>.mp hp i (Nat.le_of_not_lt hi)]
    rfl

/-! ## Every residue is a word -/

theorem poly_shiftRight (b : BitVec w) :
    poly b = X * poly (b >>> 1) + if b.getLsbD 0 then 1 else 0 := by
  ext i
  rw [coeff_add, coeff_poly]
  cases i with
  | zero => cases b.getLsbD 0 <;> simp
  | succ i =>
    rw [coeff_X_mul, coeff_poly, BitVec.getLsbD_ushiftRight, Nat.add_comm 1 i]
    cases b.getLsbD 0 <;> simp [coeff_one]

theorem getMsbD_zero (b : BitVec w) : b.getMsbD 0 = b.getLsbD (w - 1) := by
  rw [BitVec.getMsbD_eq_getLsbD, Nat.sub_zero]
  rcases Nat.eq_zero_or_pos w with rfl | hw
  · rw [BitVec.getLsbD_of_ge b _ (Nat.zero_le _), Bool.and_false]
  · simp [hw]

theorem poly_shiftLeft (b : BitVec w) :
    X * poly b = poly (b <<< 1) + if b.getMsbD 0 then X ^ w else 0 := by
  ext i
  have htop : (if b.getMsbD 0 then (X ^ w : (ZMod 2)[X]) else 0).coeff i =
      if b.getLsbD (w - 1) then (if i = w then 1 else 0) else 0 := by
    rw [getMsbD_zero]
    split_ifs with hb hi <;> simp [coeff_X_pow, *]
  rw [coeff_add, coeff_poly, BitVec.getLsbD_shiftLeft, htop]
  cases i with
  | zero =>
    rcases Nat.eq_zero_or_pos w with rfl | hw
    · simp
    · simp [hw.ne]
  | succ i =>
    rw [coeff_X_mul, coeff_poly]
    by_cases hw : i + 1 = w
    · subst hw
      simp
    · rw [if_neg hw, ite_self, add_zero]
      by_cases hi : i + 1 < w
      · simp [hi]
      · rw [BitVec.getLsbD_of_ge b i (by omega), decide_eq_false hi]
        simp

theorem residue_xor (m a b : BitVec w) :
    residue m (a ^^^ b) = residue m a + residue m b := by
  simp only [residue, poly_xor, map_add]

@[simp] theorem residue_zero (m : BitVec w) : residue m 0 = 0 := by
  rw [residue, poly_zero, map_zero]

theorem residue_add_self (m b : BitVec w) : residue m b + residue m b = 0 := by
  rw [← residue_xor, BitVec.xor_self]
  exact residue_zero m

theorem mk_X_pow (m : BitVec w) : AdjoinRoot.mk (modulus m) (X ^ w) = residue m m := by
  have hself : AdjoinRoot.mk (modulus m) (X ^ w + poly m) = 0 := AdjoinRoot.mk_self
  rw [map_add] at hself
  calc AdjoinRoot.mk (modulus m) (X ^ w)
      = AdjoinRoot.mk (modulus m) (X ^ w) + (residue m m + residue m m) := by
        rw [residue_add_self, add_zero]
    _ = residue m m := by
        rw [← add_assoc]
        exact (congrArg (· + residue m m) hself).trans (zero_add _)

theorem residue_xtime (m b : BitVec w) :
    residue m (xtime m b) = AdjoinRoot.root (modulus m) * residue m b := by
  have hshift := congrArg (AdjoinRoot.mk (modulus m)) (poly_shiftLeft b)
  rw [map_mul, AdjoinRoot.mk_X, map_add] at hshift
  rw [xtime, residue_xor]
  refine Eq.trans ?_ hshift.symm
  rw [residue, residue]
  congr 1
  cases b.getMsbD 0
  · simp only [Bool.false_eq_true, if_false, poly_zero, map_zero]
  · simp only [if_true, mk_X_pow, residue]

/-! ## The product is the product of the residues -/

theorem residue_horner (m a b : BitVec w) (k : ℕ) (hk : k ≤ w) :
    residue m (horner m a b k) = residue m a * residue m (b >>> (w - k)) := by
  induction k with
  | zero =>
    have hnone : b >>> (w - 0) = 0 := by
      apply BitVec.eq_of_getLsbD_eq
      intro i _
      rw [BitVec.getLsbD_ushiftRight, BitVec.getLsbD_of_ge b _ (by omega)]
      simp
    rw [hnone, residue_zero, mul_zero]
    exact residue_zero m
  | succ k ih =>
    have hbit : (b >>> (w - (k + 1))).getLsbD 0 = b.getMsbD k := by
      rw [BitVec.getLsbD_ushiftRight, BitVec.getMsbD_eq_getLsbD, decide_eq_true (by omega)]
      simp [show w - (k + 1) = w - 1 - k by omega]
    have hrest : b >>> (w - (k + 1)) >>> 1 = b >>> (w - k) := by
      rw [← BitVec.shiftRight_add, show w - (k + 1) + 1 = w - k by omega]
    have hword := congrArg (AdjoinRoot.mk (modulus m)) (poly_shiftRight (b >>> (w - (k + 1))))
    rw [hbit, hrest, map_add, map_mul, AdjoinRoot.mk_X] at hword
    rw [horner, residue_xor, residue_xtime, ih (by omega)]
    refine Eq.trans ?_ (congrArg (residue m a * ·) hword.symm)
    rw [mul_add, mul_left_comm]
    congr 1
    cases b.getMsbD k
    · simp only [Bool.false_eq_true, if_false, residue_zero, map_zero, mul_zero]
    · simp only [if_true, map_one, mul_one]

theorem residue_mul (m a b : BitVec w) : residue m (mul m a b) = residue m a * residue m b := by
  rw [mul, residue_horner m a b w (Nat.le_refl w), Nat.sub_self, BitVec.ushiftRight_zero]

/-! ## Words and residues -/

theorem residue_injective (m : BitVec w) : Function.Injective (residue m) := by
  intro a b hab
  have hzero : residue m (a ^^^ b) = 0 := by rw [residue_xor, hab, residue_add_self]
  have hdvd : modulus m ∣ poly (a ^^^ b) := AdjoinRoot.mk_eq_zero.mp hzero
  have hpoly : poly (a ^^^ b) = 0 := by
    apply eq_zero_of_dvd_of_degree_lt hdvd
    rw [degree_modulus]
    exact degree_poly_lt _
  rw [← poly_zero] at hpoly
  exact BitVec.xor_eq_zero_iff.mp (poly_injective hpoly)

theorem residue_surjective (m : BitVec w) : Function.Surjective (residue m) := by
  intro x
  obtain ⟨p, rfl⟩ := AdjoinRoot.mk_surjective x
  have hdeg : (p %ₘ modulus m).degree < w := by
    rw [← degree_modulus m]
    exact degree_modByMonic_lt p (monic_modulus m)
  refine ⟨word w (p %ₘ modulus m), ?_⟩
  rw [residue, poly_word hdeg, AdjoinRoot.mk_eq_mk, modByMonic_eq_sub_mul_div p (modulus m)]
  exact ⟨-(p /ₘ modulus m), by ring⟩

/-- The words are the residues. -/
noncomputable def equiv (m : BitVec w) : BitVec w ≃ Residue m :=
  Equiv.ofBijective (residue m) ⟨residue_injective m, residue_surjective m⟩

@[simp] theorem equiv_apply (m b : BitVec w) : equiv m b = residue m b := rfl

theorem residue_one (m : BitVec w) (hw : 0 < w) : residue m 1#w = 1 := by
  have hone : poly 1#w = 1 := by
    ext i
    rw [coeff_poly, coeff_one, BitVec.getLsbD_one]
    cases i <;> simp [hw]
  rw [residue, hone, map_one]

/-- A table of inverses shows that the modulus is irreducible. -/
theorem irreducible_modulus {m : BitVec w} (hw : 0 < w) (inv : BitVec w → BitVec w)
    (hinv : ∀ b, b ≠ 0 → mul m (inv b) b = 1#w) : Irreducible (modulus m) := by
  have hne : modulus m ≠ 0 := (monic_modulus m).ne_zero
  have hfield : IsField (Residue m) := by
    refine ⟨⟨0, 1, ?_⟩, mul_comm, ?_⟩
    · rw [← residue_zero m, ← residue_one m hw]
      intro heq
      have hbit := congrArg (fun b => b.getLsbD 0) (residue_injective m heq)
      simp [hw] at hbit
    · intro x hx
      obtain ⟨b, rfl⟩ := residue_surjective m x
      have hb : b ≠ 0 := by
        rintro rfl
        exact hx (residue_zero m)
      refine ⟨residue m (inv b), ?_⟩
      rw [mul_comm, ← residue_mul, hinv b hb, residue_one m hw]
  have hmax := Ideal.Quotient.maximal_of_isField _ hfield
  exact ((Ideal.span_singleton_prime hne).mp hmax.isPrime).irreducible

end binary_field
