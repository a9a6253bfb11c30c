-- The two cores compute AES: their state bytes are the entries of the state, one
-- cycle of the key expander gives the next round key, and one cycle of the core
-- is one round.
import AesMusicPlayer.AesStandard

open aes_standard binary_field

namespace aes_core

/-! ## The bytes of a word -/

/-- The four parts of a word that was put together from equal ones. -/
theorem extract_append {w : ℕ} (a b c d : BitVec w) :
    (a ++ b ++ c ++ d).extractLsb' (w + w + w) w = a ∧
      (a ++ b ++ c ++ d).extractLsb' (w + w) w = b ∧
      (a ++ b ++ c ++ d).extractLsb' w w = c ∧ (a ++ b ++ c ++ d).extractLsb' 0 w = d := by
  refine ⟨?_, ?_, ?_, ?_⟩
  · rw [BitVec.extractLsb'_append_eq_of_le (by omega), BitVec.extractLsb'_append_eq_of_le (by omega),
      BitVec.extractLsb'_append_eq_of_le (by omega)]
    simp
  · rw [BitVec.extractLsb'_append_eq_of_le (by omega), BitVec.extractLsb'_append_eq_of_le (by omega),
      BitVec.extractLsb'_append_eq_of_add_le (by omega)]
    simp
  · rw [BitVec.extractLsb'_append_eq_of_le (by omega),
      BitVec.extractLsb'_append_eq_of_add_le (by omega)]
    simp
  · exact BitVec.extractLsb'_append_eq_right

/-- The bytes of a 32-bit word, from the upper bits down. -/
def bytes_of (v : BitVec 32) (i : Fin 4) : Byte := v.extractLsb' (24 - 8 * i) 8

theorem bytes_of_append (a b c d : Byte) (i : Fin 4) :
    bytes_of (a ++ b ++ c ++ d) i = ![a, b, c, d] i := by
  obtain ⟨ha, hb, hc, hd⟩ := extract_append a b c d
  fin_cases i
  · exact ha
  · exact hb
  · exact hc
  · exact hd

theorem bytes_of_xor (v v' : BitVec 32) (i : Fin 4) :
    bytes_of (v ^^^ v') i = bytes_of v i ^^^ bytes_of v' i :=
  BitVec.extractLsb'_xor

/-- The words of a block, from the upper bits down. -/
def words_of (t : Word) (j : Fin 4) : BitVec 32 := t.extractLsb' (96 - 32 * j) 32

theorem words_of_append (a b c d : BitVec 32) (j : Fin 4) :
    words_of (a ++ b ++ c ++ d) j = ![a, b, c, d] j := by
  obtain ⟨ha, hb, hc, hd⟩ := extract_append a b c d
  fin_cases j
  · exact ha
  · exact hb
  · exact hc
  · exact hd

theorem bytes_of_words_of (t : Word) (i j : Fin 4) :
    bytes_of (words_of t j) i = t.extractLsb' (120 - 8 * (i + 4 * j)) 8 := by
  have hi := i.isLt
  have hj := j.isLt
  apply BitVec.eq_of_getLsbD_eq
  intro n hn
  simp only [bytes_of, words_of, BitVec.getLsbD_extractLsb', hn, decide_true, Bool.true_and]
  rw [decide_eq_true (by omega), Bool.true_and]
  congr 1
  omega

theorem bytes_of_injective {v v' : BitVec 32} (h : ∀ i, bytes_of v i = bytes_of v' i) : v = v' := by
  apply BitVec.eq_of_getLsbD_eq
  intro n hn
  have hbit := congrArg (fun b => b.getLsbD (n % 8)) (h ⟨3 - n / 8, by omega⟩)
  have hpos : 24 - 8 * (3 - n / 8) + n % 8 = n := by omega
  simpa [bytes_of, hpos, Nat.mod_lt] using hbit

theorem words_of_injective {t t' : Word} (h : ∀ j, words_of t j = words_of t' j) : t = t' := by
  apply BitVec.eq_of_getLsbD_eq
  intro n hn
  have hbit := congrArg (fun v => v.getLsbD (n % 32)) (h ⟨3 - n / 32, by omega⟩)
  have hpos : 96 - 32 * (3 - n / 32) + n % 32 = n := by omega
  simpa [words_of, hpos, Nat.mod_lt] using hbit

/-- A word as a column of the state. -/
noncomputable def column (v : BitVec 32) (i : Fin 4) : GF := residue poly_low (bytes_of v i)

theorem column_xor (v v' : BitVec 32) : column (v ^^^ v') = column v + column v' := by
  funext i
  exact (congrArg _ (bytes_of_xor v v' i)).trans (residue_xor _ _ _)

theorem block_eq_column (t : Word) (i j : Fin 4) : block t i j = column (words_of t j) i := by
  rw [column, bytes_of_words_of]
  rfl

def RoundKey.word (w : RoundKey) (j : Fin 4) : BitVec 32 := ![w.w0, w.w1, w.w2, w.w3] j

noncomputable def RoundKey.state (w : RoundKey) : Matrix (Fin 4) (Fin 4) GF :=
  Matrix.of fun i j => column (w.word j) i

/-! ## The state bytes -/

namespace Sa

def bytes (s : Sa) : Matrix (Fin 4) (Fin 4) Byte :=
  !![s.sa00, s.sa01, s.sa02, s.sa03; s.sa10, s.sa11, s.sa12, s.sa13;
    s.sa20, s.sa21, s.sa22, s.sa23; s.sa30, s.sa31, s.sa32, s.sa33]

noncomputable def state (s : Sa) : Matrix (Fin 4) (Fin 4) GF := s.bytes.map (residue poly_low)

theorem bytes_sub (f : Byte → Byte) (s : Sa) : (s.sub f).bytes = s.bytes.map f := by
  ext i j
  fin_cases i <;> fin_cases j <;> rfl

theorem bytes_sr (s : Sa) (i j : Fin 4) : s.sr.bytes i j = s.bytes i (j + i) := by
  fin_cases i <;> fin_cases j <;> simp [bytes, sr]

theorem bytes_inv_sr (s : Sa) (i j : Fin 4) : s.inv_sr.bytes i j = s.bytes i (j - i) := by
  fin_cases i <;> fin_cases j <;> simp [bytes, inv_sr]

theorem bytes_of_text (t : Word) (i j : Fin 4) :
    (of_text t).bytes i j = t.extractLsb' (120 - 8 * (i + 4 * j)) 8 := by
  fin_cases i <;> fin_cases j <;> rfl

theorem bytes_columns (f : Byte → Byte → Byte → Byte → Column) (s : Sa) (i j : Fin 4) :
    (s.columns f).bytes i j =
      let c := f (s.bytes 0 j) (s.bytes 1 j) (s.bytes 2 j) (s.bytes 3 j)
      ![c.s0, c.s1, c.s2, c.s3] i := by
  fin_cases i <;> fin_cases j <;> rfl

theorem bytes_ark (s : Sa) (w : RoundKey) (i j : Fin 4) :
    (s.ark w).bytes i j = s.bytes i j ^^^ bytes_of (w.word j) i := by
  fin_cases i <;> fin_cases j <;> rfl

/-- The columns of the text are the columns of the state bytes. -/
theorem words_of_text (s : Sa) (j : Fin 4) :
    words_of s.text j = s.bytes 0 j ++ s.bytes 1 j ++ s.bytes 2 j ++ s.bytes 3 j := by
  refine (words_of_append _ _ _ _ j).trans ?_
  fin_cases j <;> rfl

theorem block_text (s : Sa) : block s.text = s.state := by
  ext i j
  rw [block_eq_column, column, words_of_text, bytes_of_append]
  fin_cases i <;> rfl

end Sa

/-! ## The steps of a round -/

theorem s_box_residue (b : Byte) : s_box (residue poly_low b) = residue poly_low (aes_sbox b) := by
  have hword : (equiv poly_low).symm (residue poly_low b)⁻¹ = inverse b := by
    rw [Equiv.symm_apply_eq, equiv_apply, residue_inverse]
  have haffine : affine (inverse b) = aes_sbox b := affine_map_inv_affine_map _
  simp only [s_box, Equiv.trans_apply, Equiv.inv_apply, hword, haffine, equiv_apply]

theorem aes_sbox_aes_inv_sbox : ∀ b, aes_sbox (aes_inv_sbox b) = b := by decide +kernel

theorem s_box_symm_residue (b : Byte) :
    s_box.symm (residue poly_low b) = residue poly_low (aes_inv_sbox b) := by
  rw [Equiv.symm_apply_eq, s_box_residue, aes_sbox_aes_inv_sbox]

theorem xtime_eq : ∀ b, xtime b = binary_field.xtime poly_low b := by decide +kernel

theorem residue_xtime (b : Byte) : residue poly_low (xtime b) = alpha * residue poly_low b := by
  rw [xtime_eq]
  exact binary_field.residue_xtime poly_low b

theorem residue_byte_one : residue poly_low 1#8 = 1 := residue_one poly_low (Nat.succ_pos 7)

theorem residue_pow (n : ℕ) : residue poly_low (xtime^[n] 1) = alpha ^ n := by
  induction n with
  | zero => exact residue_byte_one
  | succ n ih => rw [Function.iterate_succ_apply', residue_xtime, ih, pow_succ']

theorem residue_two : residue poly_low 2#8 = alpha := by
  rw [show 2#8 = xtime^[1] 1 by decide, residue_pow, pow_one]

theorem residue_three : residue poly_low 3#8 = alpha + 1 := by
  rw [show 3#8 = 2#8 ^^^ 1#8 by decide, residue_xor, residue_two, residue_byte_one]

theorem residue_nine : residue poly_low 9#8 = alpha ^ 3 + 1 := by
  rw [show 9#8 = xtime^[3] 1 ^^^ 1#8 by decide, residue_xor, residue_pow, residue_byte_one]

theorem residue_eleven : residue poly_low 11#8 = alpha ^ 3 + alpha + 1 := by
  rw [show 11#8 = xtime^[3] 1 ^^^ 3#8 by decide, residue_xor, residue_pow, residue_three, add_assoc]

theorem residue_thirteen : residue poly_low 13#8 = alpha ^ 3 + alpha ^ 2 + 1 := by
  rw [show 13#8 = xtime^[3] 1 ^^^ xtime^[2] 1 ^^^ 1#8 by decide, residue_xor, residue_xor,
    residue_pow, residue_pow, residue_byte_one]

theorem residue_fourteen : residue poly_low 14#8 = alpha ^ 3 + alpha ^ 2 + alpha := by
  rw [show 14#8 = xtime^[3] 1 ^^^ xtime^[2] 1 ^^^ 2#8 by decide, residue_xor, residue_xor,
    residue_pow, residue_pow, residue_two]

namespace Sa

theorem state_sub (s : Sa) : (s.sub aes_sbox).state = aes.subBytes s.state := by
  ext i j
  rw [state, bytes_sub]
  exact (s_box_residue (s.bytes i j)).symm

theorem state_inv_sub (s : Sa) : (s.sub aes_inv_sbox).state = aes.invSubBytes s.state := by
  ext i j
  rw [state, bytes_sub]
  exact (s_box_symm_residue (s.bytes i j)).symm

theorem state_sr (s : Sa) : s.sr.state = aes.shiftRows s.state := by
  ext i j
  exact congrArg (residue poly_low) (bytes_sr s i j)

theorem state_inv_sr (s : Sa) : s.inv_sr.state = aes.invShiftRows s.state := by
  ext i j
  exact congrArg (residue poly_low) (bytes_inv_sr s i j)

theorem state_mix_col (s : Sa) : (s.columns mix_col).state = aes.mixColumns s.state := by
  have hmix : aes.mixColumns s.state = mix_bytes.map (residue poly_low) * s.state := rfl
  ext i j
  rw [hmix, Matrix.mul_apply, Fin.sum_univ_four]
  simp only [state, Matrix.map_apply, bytes_columns, mix_col]
  fin_cases i <;>
    simp [mix_bytes, residue_xor, residue_xtime, residue_byte_one, residue_two, residue_three] <;>
    ring

theorem state_inv_mix_col (s : Sa) : (s.columns inv_mix_col).state = aes.invMixColumns s.state := by
  have hmix : aes.invMixColumns s.state = inv_mix_bytes.map (residue poly_low) * s.state := rfl
  ext i j
  rw [hmix, Matrix.mul_apply, Fin.sum_univ_four]
  simp only [state, Matrix.map_apply, bytes_columns, inv_mix_col, pmul_e, pmul_b, pmul_d, pmul_9]
  fin_cases i <;>
    simp [inv_mix_bytes, residue_xor, residue_xtime, residue_nine, residue_eleven,
      residue_thirteen, residue_fourteen] <;>
    ring

theorem state_of_text (t : Word) : (of_text t).state = block t := by
  ext i j
  exact congrArg (residue poly_low) (bytes_of_text t i j)

theorem state_ark (s : Sa) (w : RoundKey) : (s.ark w).state = s.state + w.state := by
  ext i j
  rw [state, Matrix.map_apply, bytes_ark, residue_xor]
  rfl

end Sa

/-! ## The key expander -/

namespace AesKeyExpand

theorem column_subword (e : AesKeyExpand) : column e.subword = aes.subRot (column e.w.w3) := by
  funext i
  rw [column, subword, bytes_of_append]
  refine Eq.trans ?_ (s_box_residue _).symm
  fin_cases i <;> rfl

/-- The constants of the rounds up to the tenth. -/
theorem column_frcon {j : ℕ} (hj : j ≤ 9) :
    column (frcon (BitVec.ofNat 4 j)) = Pi.single 0 (alpha ^ j) := by
  have hbytes : ∀ j, j < 10 → frcon (BitVec.ofNat 4 j) = xtime^[j] 1 ++ 0#8 ++ 0#8 ++ 0#8 := by
    decide
  funext i
  rw [column, hbytes j (by omega), bytes_of_append]
  fin_cases i
  · exact residue_pow j
  · exact residue_zero poly_low
  · exact residue_zero poly_low
  · exact residue_zero poly_low

/-- Each word takes in the one before it, and the first one the S-boxes and the constant. -/
theorem column_clock (key : Word) (e : AesKeyExpand) :
    let w' := (e.clock false key).w
    column w'.w0 = column e.w.w0 + (column e.subword + column e.r0.out) ∧
      column w'.w1 = column e.w.w1 + column w'.w0 ∧
      column w'.w2 = column e.w.w2 + column w'.w1 ∧
      column w'.w3 = column e.w.w3 + column w'.w2 := by
  simp only [clock, Bool.false_eq_true, if_false, column_xor]
  refine ⟨?_, ?_, ?_, ?_⟩ <;> abel

/-- The expander `j` cycles after its load holds the words of the round key `j`. -/
structure Holds (k : Word) (j : ℕ) (e : AesKeyExpand) : Prop where
  w0 : column e.w.w0 = aes.keyWord alpha 4 (key_words k) (4 * j + 0)
  w1 : column e.w.w1 = aes.keyWord alpha 4 (key_words k) (4 * j + 1)
  w2 : column e.w.w2 = aes.keyWord alpha 4 (key_words k) (4 * j + 2)
  w3 : column e.w.w3 = aes.keyWord alpha 4 (key_words k) (4 * j + 3)
  r0 : e.r0 = ⟨frcon (BitVec.ofNat 4 j), BitVec.ofNat 4 j⟩

theorem column_words_of (k : Word) (c : ℕ) (hc : c < 4) :
    column (words_of k ⟨c, hc⟩) = aes.keyWord alpha 4 (key_words k) c := by
  rw [aes.keyWord_lt alpha 4 (key_words k) hc]
  funext i
  exact (block_eq_column k i ⟨c, hc⟩).symm

theorem holds_load (k : Word) : Holds k 0 (power_up.clock true k) :=
  ⟨column_words_of k 0 (by decide), column_words_of k 1 (by decide), column_words_of k 2 (by decide),
    column_words_of k 3 (by decide), rfl⟩

theorem holds_clock {k key : Word} {j : ℕ} {e : AesKeyExpand} (hj : j ≤ 9) (h : Holds k j e) :
    Holds k (j + 1) (e.clock false key) := by
  obtain ⟨h0, h1, h2, h3⟩ := column_clock key e
  have hw0 : column (e.clock false key).w.w0 =
      aes.keyWord alpha 4 (key_words k) (4 * (j + 1)) := by
    rw [aes.keyWord_first, h0, column_subword, h.r0, column_frcon hj, h.w0, h.w3]
    rfl
  have hw1 : column (e.clock false key).w.w1 =
      aes.keyWord alpha 4 (key_words k) (4 * (j + 1) + 1) := by
    rw [h1, aes.keyWord_succ alpha 4 (key_words k) j (show 0 + 1 < 4 by decide), h.w1, hw0]
    rfl
  have hw2 : column (e.clock false key).w.w2 =
      aes.keyWord alpha 4 (key_words k) (4 * (j + 1) + 2) := by
    rw [h2, aes.keyWord_succ alpha 4 (key_words k) j (show 1 + 1 < 4 by decide), h.w2, hw1]
  have hw3 : column (e.clock false key).w.w3 =
      aes.keyWord alpha 4 (key_words k) (4 * (j + 1) + 3) := by
    rw [h3, aes.keyWord_succ alpha 4 (key_words k) j (show 2 + 1 < 4 by decide), h.w3, hw2]
  have hcnt : e.r0.rcnt_next = BitVec.ofNat 4 (j + 1) := by
    rw [AesRcon.rcnt_next, h.r0, BitVec.ofNat_add]
    rfl
  refine ⟨hw0, hw1, hw2, hw3, ?_⟩
  simp only [clock, AesRcon.clock, hcnt, Bool.false_eq_true, if_false]

/-- For the first ten cycles after a load the expander follows the key schedule. -/
theorem holds_iterate (k key : Word) {j : ℕ} (hj : j ≤ 10) :
    Holds k j ((fun e => e.clock false key)^[j] (power_up.clock true k)) := by
  induction j with
  | zero => exact holds_load k
  | succ j ih =>
    rw [Function.iterate_succ_apply']
    exact holds_clock (by omega) (ih (by omega))

theorem Holds.state {k : Word} {j : ℕ} {e : AesKeyExpand} (h : Holds k j e) :
    e.w.state = round_key k j := by
  ext i c
  fin_cases c
  · exact congrFun h.w0 i
  · exact congrFun h.w1 i
  · exact congrFun h.w2 i
  · exact congrFun h.w3 i

end AesKeyExpand

/-! ## The cipher core -/

theorem cipher_roundKey (k : Word) {j : ℕ} (hj : j ≤ 10) :
    (aes_cipher.roundKey k j).w.state = round_key k j :=
  (AesKeyExpand.holds_iterate k 0 hj).state

theorem cipher_rounds (k t : Word) {j : ℕ} (hj : j ≤ 9) :
    (aes_cipher.rounds k t j).state = aes.rounds (round_key k) (block t) j := by
  induction j with
  | zero =>
    rw [rijndael.Cipher.rounds, ← cipher_roundKey k (Nat.zero_le 10), ← Sa.state_of_text]
    exact Sa.state_ark _ _
  | succ j ih =>
    rw [rijndael.Cipher.rounds, ← ih (by omega), ← cipher_roundKey k (show j + 1 ≤ 10 by omega),
      ← Sa.state_sub, ← Sa.state_sr, ← Sa.state_mix_col]
    exact Sa.state_ark _ _

theorem block_encrypt (k t : Word) :
    block (aes_cipher.encrypt k t) = aes_standard.cipher k t := by
  rw [aes_standard.cipher, rijndael.Cipher.cipher, ← cipher_rounds k t (Nat.le_refl 9),
    ← cipher_roundKey k (Nat.le_refl 10), ← Sa.state_sub, ← Sa.state_sr, ← Sa.state_ark]
  exact Sa.block_text _

/-! ## The decipher core -/

theorem RoundKey.of_slot_slot (w : RoundKey) : RoundKey.of_slot w.slot = w := by
  obtain ⟨w0, w1, w2, w3⟩ := w
  obtain ⟨h3, h2, h1, h0⟩ := extract_append w3 w2 w1 w0
  exact (RoundKey.mk.injEq ..).mpr ⟨h0, h1, h2, h3⟩

theorem inv_cipher_roundKey (k : Word) {j : ℕ} (hj : j ≤ 10) :
    (RoundKey.of_slot (aes_inv_cipher.roundKey k j)).state = round_key k j := by
  rw [InvCipherRounds.roundKey]
  refine Eq.trans (congrArg RoundKey.state (RoundKey.of_slot_slot _)) ?_
  exact (AesKeyExpand.holds_iterate k 0 hj).state

/-- The field has characteristic two. -/
theorem sub_eq_add (x y : GF) : x - y = x + y := by
  obtain ⟨b, rfl⟩ := residue_surjective poly_low y
  rw [sub_eq_iff_eq_add, add_assoc, residue_add_self, add_zero]

theorem Sa.state_ark_sub (s : Sa) (w : RoundKey) : (s.ark w).state = s.state - w.state := by
  ext i j
  rw [state_ark, Matrix.add_apply, Matrix.sub_apply, sub_eq_add]

theorem inv_cipher_rounds (k t : Word) {j : ℕ} (hj : j ≤ 9) :
    (aes_inv_cipher.rounds (fun i => aes_inv_cipher.roundKey k (10 - i)) t j).state =
      aes.invRounds (round_key k) 9 (block t) j := by
  induction j with
  | zero =>
    rw [rijndael.Cipher.invRounds, ← inv_cipher_roundKey k (Nat.le_refl 10), ← Sa.state_of_text]
    exact Sa.state_ark_sub _ _
  | succ j ih =>
    rw [rijndael.Cipher.invRounds, ← ih (by omega), ← inv_cipher_roundKey k (show 9 - j ≤ 10 by omega),
      ← Sa.state_inv_sr, ← Sa.state_inv_sub, ← Sa.state_ark_sub]
    have hslot : 10 - (j + 1) = 9 - j := by omega
    rw [← hslot]
    exact Sa.state_inv_mix_col _

theorem block_decrypt (k t : Word) :
    block (aes_inv_cipher.decrypt k t) = aes_standard.inv_cipher k t := by
  rw [aes_standard.inv_cipher, rijndael.Cipher.invCipher, ← inv_cipher_rounds k t (Nat.le_refl 9),
    ← inv_cipher_roundKey k (Nat.zero_le 10), ← Sa.state_inv_sr, ← Sa.state_inv_sub,
    ← Sa.state_ark_sub]
  exact Sa.block_text _

/-! ## Both cores -/

/-- For every key and every block the cipher core computes AES, with the round keys made on
the way, and the decipher core computes the inverse of AES, with the round keys of its buffer. -/
theorem the_cores_compute_aes (k t : Word) :
    block (aes_cipher.encrypt k t) = aes_standard.cipher k t ∧
      block (aes_inv_cipher.decrypt k t) = aes_standard.inv_cipher k t :=
  ⟨block_encrypt k t, block_decrypt k t⟩

/-- The vector of the appendix of the standard. -/
example : aes_cipher.encrypt 0x2b7e151628aed2a6abf7158809cf4f3c 0x3243f6a8885a308d313198a2e0370734 =
    0x3925841d02dc09fbdc118597196a0b32 := by
  decide +kernel

theorem block_injective : Function.Injective block := by
  intro t t' h
  have hwords : ∀ j, words_of t j = words_of t' j := by
    intro j
    have hbytes : ∀ i, bytes_of (words_of t j) i = bytes_of (words_of t' j) i := by
      intro i
      apply residue_injective poly_low
      rw [bytes_of_words_of, bytes_of_words_of]
      exact congrFun (congrFun h i) j
    exact bytes_of_injective hbytes
  exact words_of_injective hwords

theorem decrypt_encrypt (k t : Word) : aes_inv_cipher.decrypt k (aes_cipher.encrypt k t) = t := by
  apply block_injective
  rw [block_decrypt, aes_standard.inv_cipher, block_encrypt, aes_standard.cipher,
    rijndael.Cipher.invCipher_cipher]

theorem encrypt_decrypt (k t : Word) : aes_cipher.encrypt k (aes_inv_cipher.decrypt k t) = t := by
  apply block_injective
  rw [block_encrypt, aes_standard.cipher, block_decrypt, aes_standard.inv_cipher,
    rijndael.Cipher.cipher_invCipher]

/-- Under each key the two cores are permutations of the blocks, inverse to each other. -/
theorem the_cores_invert_each_other (k t : Word) :
    aes_inv_cipher.decrypt k (aes_cipher.encrypt k t) = t ∧
      aes_cipher.encrypt k (aes_inv_cipher.decrypt k t) = t :=
  ⟨decrypt_encrypt k t, encrypt_decrypt k t⟩

end aes_core
