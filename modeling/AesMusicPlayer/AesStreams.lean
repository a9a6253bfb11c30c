-- Streams and files under the two cores as they are. A block that goes through
-- both engines under one key comes back, and so does a file: what stands in it
-- between its encryption and its decryption is AES, block by block.
import Mathlib.Data.List.GetD
import AesMusicPlayer.AesCores
import AesMusicPlayer.EngineBeats
import AesMusicPlayer.RoundTrip

open clocked blockwise

namespace aes_core

/-! ## Blocks that go through the engines -/

/-- The beat of cycle `c` is taken as a block, under the key that was taken in cycle `k`. -/
structure InputPort.BlockOf (p : InputPort) (k c : ℕ) : Prop where
  key : p.takesKey k = true
  block : p.takesData c = true
  lt : k < c
  last : ∀ j, k < j → j < c → ¬ p.takesKey j = true

namespace CipherEngine.IsRun

variable {Sa W : Type} {R : CipherRounds Sa W} {ins : ℕ → Inputs} {e : ℕ → CipherEngine Sa W}

/-- The result of a block that was captured with the key of cycle `k`, on the output port. -/
theorem result_of_block (h : IsRun R ins e) {k c r : ℕ} (hb : (inPort ins e).BlockOf k c)
    (hr : FirstHigh (fun n => (ins n).m_tready) (c + 15) r) :
    (e (r + 2)).maxis.tvalid = true ∧
      (e (r + 2)).maxis.tdata = R.encrypt (ins k).tdata (ins c).tdata := by
  have hc : Captured e c := (h.captured_iff c).mpr hb.block
  have hkey : (e c).saxis.key = (ins k).tdata :=
    loaded_last h.inPort_laws.key_step hb.key hb.lt hb.last
  have hdata : (e (c + 1)).saxis.data = (ins c).tdata := by
    have hstep := h.inPort_laws.data_step c
    rwa [if_pos hb.block] at hstep
  obtain ⟨hv, hd, -, -⟩ := h.pipe.port.presented (h.pipe.done_of_captured hb.block) hr
  refine ⟨hv, hd.trans ?_⟩
  rw [← hkey, ← hdata]
  exact (h.result_at_done hc).1

end CipherEngine.IsRun

namespace DecipherEngine.IsRun

variable {Sa W : Type} {R : InvCipherRounds Sa W} {ins : ℕ → Inputs}
  {e : ℕ → DecipherEngine Sa W}

theorem result_of_block (h : IsRun R ins e) {k c r : ℕ} (hb : (inPort ins e).BlockOf k c)
    (hr : FirstHigh (fun n => (ins n).m_tready) (c + 15) r) :
    (e (r + 2)).maxis.tvalid = true ∧
      (e (r + 2)).maxis.tdata = R.decrypt (ins k).tdata (ins c).tdata := by
  obtain ⟨hv, hd, -, -⟩ := h.pipe.port.presented (h.pipe.done_of_captured hb.block) hr
  exact ⟨hv, hd.trans (h.block_of_last_key hb.key hb.block hb.lt hb.last)⟩

end DecipherEngine.IsRun

/-- In every run of the cipher engine and every run of the decipher engine: what the cipher
engine presents for a block is AES of the block, and when the decipher engine takes it under
the same key, it presents the block. -/
theorem a_block_comes_back_through_both_engines {ins ins' : ℕ → Inputs}
    {e : ℕ → CipherEngine Sa AesKeyExpand} {e' : ℕ → DecipherEngine Sa AesKeyExpand}
    (h : CipherEngine.IsRun aes_cipher ins e) (h' : DecipherEngine.IsRun aes_inv_cipher ins' e')
    {k c r k' c' r' : ℕ} (hb : (CipherEngine.inPort ins e).BlockOf k c)
    (hb' : (DecipherEngine.inPort ins' e').BlockOf k' c')
    (hr : FirstHigh (fun n => (ins n).m_tready) (c + 15) r)
    (hr' : FirstHigh (fun n => (ins' n).m_tready) (c' + 15) r')
    (hkey : (ins' k').tdata = (ins k).tdata)
    (hsent : (ins' c').tdata = (e (r + 2)).maxis.tdata) :
    (e (r + 2)).maxis.tvalid = true ∧
      aes_standard.block (e (r + 2)).maxis.tdata =
        aes_standard.cipher (ins k).tdata (ins c).tdata ∧
      (e' (r' + 2)).maxis.tvalid = true ∧ (e' (r' + 2)).maxis.tdata = (ins c).tdata := by
  obtain ⟨hv, hd⟩ := h.result_of_block hb hr
  obtain ⟨hv', hd'⟩ := h'.result_of_block hb' hr'
  refine ⟨hv, ?_, hv', ?_⟩
  · rw [hd, block_encrypt]
  · rw [hd', hkey, hsent, hd, decrypt_encrypt]

/-! ### A key and a block -/

/-- The config bit is set in cycle 0 and cleared in cycle 3. The key is offered in the cycles 2
and 3, and the block in cycle 20. -/
def keyAndBlock (key block : Word) (n : ℕ) : Inputs where
  tvalid := n == 2 || n == 3 || n == 20
  tdata := if n < 20 then key else block
  tlast := false
  m_tready := true
  write := if n = 0 then some 1 else if n = 3 then some 0 else none

def Sa.low : Sa := ⟨0, 0, 0, 0, 0, 0, 0, 0, 0, 0, 0, 0, 0, 0, 0, 0⟩

def CipherEngine.aesRun (ins : ℕ → Inputs) : ℕ → CipherEngine Sa AesKeyExpand :=
  cycles aes_cipher (ins 0) (ins 0)
    { low with core := ⟨0, false, false, 0, 0, .low, .power_up⟩ } ins

def DecipherEngine.aesRun (ins : ℕ → Inputs) : ℕ → DecipherEngine Sa AesKeyExpand :=
  cycles aes_inv_cipher (ins 0) (ins 0)
    { low with core := ⟨0, false, false, false, 0, 0, .low, 0, .power_up, fun _ => 0, 0, false, false⟩ }
    ins

theorem CipherEngine.aesRun_isRun (ins : ℕ → Inputs) : IsRun aes_cipher ins (aesRun ins) :=
  cycles_isRun _ _ _ _ _

theorem DecipherEngine.aesRun_isRun (ins : ℕ → Inputs) : IsRun aes_inv_cipher ins (aesRun ins) :=
  cycles_isRun _ _ _ _ _

/-- The key 5 and the block 6. -/
def toCipher : ℕ → Inputs := keyAndBlock 5 6

/-- The key 5 and what the cipher engine presents for the block 6. -/
def toDecipher : ℕ → Inputs := keyAndBlock 5 (CipherEngine.aesRun toCipher 37).maxis.tdata

theorem CipherEngine.aesRun_block : (inPort toCipher (aesRun toCipher)).BlockOf 2 20 :=
  have hquiet : ∀ j, j < 20 → 2 < j → (inPort toCipher (aesRun toCipher)).takesKey j = false := by
    decide +kernel
  ⟨by decide +kernel, by decide +kernel, by decide, fun j h1 h2 => by simp [hquiet j h2 h1]⟩

theorem DecipherEngine.aesRun_block : (inPort toDecipher (aesRun toDecipher)).BlockOf 2 20 :=
  have hquiet : ∀ j, j < 20 → 2 < j →
      (inPort toDecipher (aesRun toDecipher)).takesKey j = false := by
    decide +kernel
  ⟨by decide +kernel, by decide +kernel, by decide, fun j h1 h2 => by simp [hquiet j h2 h1]⟩

theorem keyAndBlock_key (key block : Word) : (keyAndBlock key block 2).tdata = key := rfl

theorem keyAndBlock_block (key block : Word) : (keyAndBlock key block 20).tdata = block := rfl

theorem six_comes_back_through_both_engines :
    (CipherEngine.aesRun toCipher 37).maxis.tvalid = true ∧
      aes_standard.block (CipherEngine.aesRun toCipher 37).maxis.tdata =
        aes_standard.cipher (toCipher 2).tdata (toCipher 20).tdata ∧
      (DecipherEngine.aesRun toDecipher 37).maxis.tvalid = true ∧
      (DecipherEngine.aesRun toDecipher 37).maxis.tdata = (toCipher 20).tdata :=
  a_block_comes_back_through_both_engines (CipherEngine.aesRun_isRun toCipher)
    (DecipherEngine.aesRun_isRun toDecipher) CipherEngine.aesRun_block DecipherEngine.aesRun_block
    ⟨Nat.le_refl 35, rfl, fun k h1 h2 => by omega⟩ ⟨Nat.le_refl 35, rfl, fun k h1 h2 => by omega⟩
    ((keyAndBlock_key 5 _).trans (keyAndBlock_key 5 6).symm) (keyAndBlock_block 5 _)

end aes_core

namespace aes

/-! ## The bytes of a beat -/

/-- The beat that the DMA makes of 16 bytes: the byte of the lowest address is in the lowest bits. -/
def beat (b : Bytes) : BitVec 128 := b.foldr (fun x w => w <<< 8 ||| x.setWidth 128) 0

def beat_bytes (w : BitVec 128) : Bytes := List.ofFn fun i : Fin 16 => w.extractLsb' (8 * i) 8

theorem getLsbD_beat (b : Bytes) {n : ℕ} (hn : n < 128) :
    (beat b).getLsbD n = (b.getD (n / 8) 0).getLsbD (n % 8) := by
  induction b generalizing n with
  | nil => simp [beat]
  | cons x b ih =>
    have hcons : beat (x :: b) = beat b <<< 8 ||| x.setWidth 128 := rfl
    rw [hcons, BitVec.getLsbD_or, BitVec.getLsbD_shiftLeft, BitVec.getLsbD_setWidth]
    by_cases h8 : n < 8
    · simp [hn, h8, Nat.div_eq_of_lt h8, Nat.mod_eq_of_lt h8]
    · have hdiv : n / 8 = (n - 8) / 8 + 1 := by omega
      have hmod : n % 8 = (n - 8) % 8 := by omega
      rw [ih (by omega), hdiv, hmod, List.getD_cons_succ, BitVec.getLsbD_of_ge x n (by omega)]
      simp [hn, h8]

theorem length_beat_bytes (w : BitVec 128) : (beat_bytes w).length = 16 := List.length_ofFn

theorem beat_beat_bytes (w : BitVec 128) : beat (beat_bytes w) = w := by
  apply BitVec.eq_of_getLsbD_eq
  intro n hn
  have hbyte : (beat_bytes w).getD (n / 8) 0 = w.extractLsb' (8 * (n / 8)) 8 := by
    rw [List.getD_eq_getElem _ _ (by rw [length_beat_bytes]; omega)]
    exact List.getElem_ofFn _
  rw [getLsbD_beat _ hn, hbyte, BitVec.getLsbD_extractLsb', Nat.div_add_mod,
    decide_eq_true (Nat.mod_lt n (by decide)), Bool.true_and]

theorem beat_bytes_beat {b : Bytes} (hb : b.length = 16) : beat_bytes (beat b) = b := by
  apply List.ext_getElem (by rw [length_beat_bytes, hb])
  intro i h1 h2
  simp only [beat_bytes, List.getElem_ofFn]
  apply BitVec.eq_of_getLsbD_eq
  intro n hn
  rw [BitVec.getLsbD_extractLsb', getLsbD_beat b (by omega), decide_eq_true hn, Bool.true_and,
    Nat.mul_add_div (by decide), Nat.div_eq_of_lt hn, Nat.mul_add_mod, Nat.mod_eq_of_lt hn,
    Nat.add_zero, List.getD_eq_getElem b _ h2]

/-! ## Files under the two cores -/

open aes_core (aes_cipher aes_inv_cipher)

def cipher_core : BlockFunction :=
  ⟨fun key b => beat_bytes (aes_cipher.encrypt (beat key) (beat b)),
    fun _ _ _ => length_beat_bytes _⟩

def decipher_core : BlockFunction :=
  ⟨fun key b => beat_bytes (aes_inv_cipher.decrypt (beat key) (beat b)),
    fun _ _ _ => length_beat_bytes _⟩

theorem decipher_core_cipher_core (key b : Bytes) (hb : b.length = 16) :
    decipher_core.apply key (cipher_core.apply key b) = b := by
  simp only [decipher_core, cipher_core]
  rw [beat_beat_bytes, aes_core.decrypt_encrypt, beat_bytes_beat hb]

/-- The two cores as they are. -/
def cores : BlockCipher := ⟨cipher_core, decipher_core, decipher_core_cipher_core⟩

/-- The block number `i` of a file. -/
def block_at (content : Bytes) (i : ℕ) : Bytes := (content.drop (16 * i)).take 16

/-- Every file is encrypted block by block: with its zeros at the end, each block of the result
is AES of the block at its place, read from its last byte to its first. And the
decryption gives the file and its zeros back. -/
theorem files_are_encrypted_with_aes (key : Key) (content : Bytes)
    (hlen : content.length + 15 < 2 ^ 31) :
    let padded := content ++ List.replicate (padding 16 content.length) 0
    let result := transform cores.cipher key content
    result.length = padded.length ∧
      (∀ i, 16 * i < padded.length → aes_standard.block (beat (block_at result i)) =
        aes_standard.cipher (beat key.val) (beat (block_at padded i))) ∧
      transform cores.decipher key result = padded := by
  have hpad := add_padding (k := 16) (by decide) content.length
  have hsize : (content ++ List.replicate (padding 16 content.length) 0).length =
      (content.length + padding 16 content.length) / 16 * 16 := by
    rw [List.length_append, List.length_replicate, hpad]
    omega
  refine ⟨?_, ?_, decipher_cipher_padded cores key content hlen⟩
  · rw [transform_eq_result _ _ _ hlen, length_result, List.length_append, List.length_replicate]
  · intro i hi
    have hblock := onBlocks_block (cores.cipher.length_apply key.val) _ _ hsize
      (show i < (content.length + padding 16 content.length) / 16 by omega)
    rw [block_at, transform_eq_result _ _ _ hlen, result, hblock]
    refine Eq.trans ?_ (aes_core.block_encrypt _ _)
    exact congrArg aes_standard.block (beat_beat_bytes _)

/-- A file of three bytes, under the key of 16 zeros. -/
theorem a_file_of_three_bytes_is_encrypted_with_aes :
    let key : Key := ⟨List.replicate 16 0, rfl⟩
    let padded : Bytes := [1, 2, 3] ++ List.replicate (padding 16 3) 0
    let result := transform cores.cipher key [1, 2, 3]
    result.length = padded.length ∧
      (∀ i, 16 * i < padded.length → aes_standard.block (beat (block_at result i)) =
        aes_standard.cipher (beat key.val) (beat (block_at padded i))) ∧
      transform cores.decipher key result = padded :=
  files_are_encrypted_with_aes ⟨List.replicate 16 0, rfl⟩ [1, 2, 3] (by decide)

end aes
