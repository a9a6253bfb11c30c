-- The bytes of a transfer. The engine reads the key and the padded input from
-- the transmit buffer, and the callback delivers the receive buffer.
import AesMusicPlayer.Blockwise
import AesMusicPlayer.TransferErrors
import Mathlib.Algebra.Group.Int.Defs
import Mathlib.Algebra.Group.Nat.Defs

open blockwise

namespace aes

/-! ## Sizes -/

/-- Clearing the low four bits rounds down to a multiple of 16. -/
theorem toNat_clear_low (x : Size) : (x &&& ~~~15#32).toNat = x.toNat / 16 * 16 := by
  have hshift : x &&& ~~~15#32 = (x >>> 4) <<< 4 := by
    apply BitVec.eq_of_getLsbD_eq
    intro i hi
    simp only [BitVec.getLsbD_and, BitVec.getLsbD_not, BitVec.getLsbD_shiftLeft,
      BitVec.getLsbD_ushiftRight, hi, decide_true, Bool.true_and]
    by_cases h4 : i < 4
    · have hbit : (15#32).getLsbD i = true := by
        have : ∀ i, i < 4 → (15#32).getLsbD i = true := by decide
        exact this i h4
      simp [h4, hbit]
    · have hbit : (15#32).getLsbD i = false := by
        have : ∀ i, i < 32 → ¬ i < 4 → (15#32).getLsbD i = false := by decide
        exact this i hi h4
      simp [h4, hbit, show 4 + (i - 4) = i by omega]
  rw [hshift, BitVec.toNat_shiftLeft, BitVec.toNat_ushiftRight, Nat.shiftLeft_eq,
    Nat.shiftRight_eq_div_pow]
  have := x.isLt
  omega

theorem toNat_aligned_size (n : Size) :
    (aligned_size n AES_TEXT_WIDTH).toNat = (n.toNat + 15) % 2 ^ 32 / 16 * 16 := by
  have h : aligned_size n AES_TEXT_WIDTH = (n + 15) &&& ~~~15#32 := by
    have hsum : n + 16 - 1 = n + 15 := by bv_omega
    rw [aligned_size, AES_TEXT_WIDTH, hsum]
    rfl
  rw [h, toNat_clear_low, BitVec.toNat_add]
  rfl

/-- The aligned size is a whole number of blocks, also when the sum wraps. -/
theorem aligned_size_whole (n : Size) : (aligned_size n AES_TEXT_WIDTH).toNat % 16 = 0 := by
  rw [toNat_aligned_size]
  omega

/-- Short of a wrap the aligned size is the size with its padding. -/
theorem aligned_size_padded (n : ℕ) (hn : n + 15 < 2 ^ 32) :
    (aligned_size (BitVec.ofNat 32 n) AES_TEXT_WIDTH).toNat = n + padding 16 n := by
  rw [toNat_aligned_size, BitVec.toNat_ofNat, Nat.mod_eq_of_lt (show n < 2 ^ 32 by omega),
    Nat.mod_eq_of_lt hn, add_padding (by omega)]

/-! ## What the engine makes of the transmit buffer -/

/-- A function on blocks under a key, as an engine computes it. -/
structure BlockFunction where
  apply : Bytes → Bytes → Bytes
  length_apply : ∀ key b, b.length = 16 → (apply key b).length = 16

/-- The functions of the two engines. Under one key the decipher engine
inverts the cipher engine. -/
structure BlockCipher where
  cipher : BlockFunction
  decipher : BlockFunction
  decipher_cipher : ∀ key b, b.length = 16 → decipher.apply key (cipher.apply key b) = b

/-- The bytes that an engine sends back: the first block of the stream is the
key, and each block after it gives one block. -/
def BlockFunction.stream (f : BlockFunction) (tx : Bytes) : Bytes :=
  onBlocks 16 (f.apply (tx.take 16)) ((tx.length - 16) / 16) (tx.drop 16)

/-- What an engine makes of the transmit buffer of a whole input, with the sizes of the code. -/
def transform (f : BlockFunction) (key : Key) (content : Bytes) : Bytes :=
  f.stream (DmaState.tx_contents key content
    (aligned_size (BitVec.ofNat 32 content.length) AES_TEXT_WIDTH))

/-- The complete result of an operation: a block for each block of the input, the last one filled
up with zeros. -/
def result (f : BlockFunction) (key : Key) (content : Bytes) : Bytes :=
  onBlocks 16 (f.apply key.val) ((content.length + padding 16 content.length) / 16)
    (content ++ List.replicate (padding 16 content.length) 0)

theorem length_result (f : BlockFunction) (key : Key) (content : Bytes) :
    (result f key content).length = content.length + padding 16 content.length := by
  have hpad := add_padding (k := 16) (by omega) content.length
  rw [result, length_onBlocks (f.length_apply _)]
  · omega
  · rw [List.length_append, List.length_replicate]
    omega

/-- The complete decryption of a complete encryption is the padded plain text. -/
theorem result_result (C : BlockCipher) (key : Key) (content : Bytes) :
    result C.decipher key (result C.cipher key content) =
      content ++ List.replicate (padding 16 content.length) 0 := by
  have hpad := add_padding (k := 16) (by omega) content.length
  have hsize := length_result C.cipher key content
  have hnone : padding 16 (result C.cipher key content).length = 0 :=
    (padding_eq_zero_iff (by omega) _).mpr (by omega)
  rw [result, hnone, List.replicate_zero, List.append_nil, Nat.add_zero, hsize, result]
  refine onBlocks_inverse (C.cipher.length_apply _) (C.decipher_cipher _) _ _ ?_
  rw [List.length_append, List.length_replicate]
  omega

namespace DmaState

theorem length_padded (content : Bytes) (al : Size) : (padded content al).length = al.toNat := by
  have hint : al.toInt.toNat ≤ al.toNat := by
    rw [BitVec.toInt_eq_toNat_cond]
    split_ifs <;> omega
  simp only [padded, List.length_append, List.length_take, List.length_replicate]
  omega

/-- The input of a file that is not too long: its bytes, and zeros to the end
of the last block. -/
theorem padded_aligned (content : Bytes) (hn : content.length + 15 < 2 ^ 31) :
    padded content (aligned_size (BitVec.ofNat 32 content.length) AES_TEXT_WIDTH) =
      content ++ List.replicate (padding 16 content.length) 0 := by
  have hal := aligned_size_padded content.length (by omega)
  have hlt := padding_lt (k := 16) (by omega) content.length
  have hint : (aligned_size (BitVec.ofNat 32 content.length) AES_TEXT_WIDTH).toInt.toNat =
      content.length + padding 16 content.length := by
    rw [BitVec.toInt_eq_toNat_cond, if_pos (by omega), hal]
    omega
  simp only [padded, hint, hal]
  rw [List.take_of_length_le (by omega)]
  congr 2
  omega

end DmaState

theorem stream_tx_contents (f : BlockFunction) (key : Key) (content : Bytes) (al : Size) :
    f.stream (DmaState.tx_contents key content al) =
      onBlocks 16 (f.apply key.val) (al.toNat / 16) (DmaState.padded content al) := by
  have hkey := key.property
  have hlen := DmaState.length_padded content al
  rw [BlockFunction.stream, DmaState.tx_contents, List.take_left' hkey, List.drop_left' hkey,
    List.length_append, hkey, hlen, Nat.add_sub_cancel_left]

/-- One block of result for each block of input. -/
theorem length_transform (f : BlockFunction) (key : Key) (content : Bytes) :
    (transform f key content).length =
      (aligned_size (BitVec.ofNat 32 content.length) AES_TEXT_WIDTH).toNat := by
  have hwhole := aligned_size_whole (BitVec.ofNat 32 content.length)
  have hlen := DmaState.length_padded content
    (aligned_size (BitVec.ofNat 32 content.length) AES_TEXT_WIDTH)
  rw [transform, stream_tx_contents, length_onBlocks (f.length_apply _)] <;> omega

/-- The engine gets the whole input when no size of the code wraps or turns negative. -/
theorem transform_eq_result (f : BlockFunction) (key : Key) (content : Bytes)
    (hlen : content.length + 15 < 2 ^ 31) : transform f key content = result f key content := by
  rw [transform, stream_tx_contents, DmaState.padded_aligned _ hlen,
    aligned_size_padded _ (by omega), result]

/-! ## What the callback delivers -/

/-- The callback writes `(std::streamsize)rx_buff_size` bytes, none when this is negative. -/
def StreamWrite.of_size (size : Size) (w : StreamWrite) : StreamWrite :=
  w.map fun k => min k size.toInt.toNat

/-- A size that is not negative is no limit. -/
theorem StreamWrite.of_size_take {out : Bytes} {size : Size} (hout : out.length = size.toNat)
    (hsize : size.toNat < 2 ^ 31) (w : StreamWrite) :
    (w.of_size size).map out.take = w.map out.take := by
  have hint : size.toInt.toNat = size.toNat := by
    rw [BitVec.toInt_eq_toNat_cond, if_pos (by omega), Int.toNat_natCast]
  cases w with
  | none => rfl
  | some k =>
    simp only [of_size, Option.map_some, hint, ← hout, Option.some.injEq]
    rw [← List.take_take, List.take_length]

/-- For an input that is too long, less is written than its complete result has. -/
theorem written_lt_result (f : BlockFunction) (key : Key) (content : Bytes)
    (hlen : 2 ^ 31 ≤ content.length + 15) :
    (aligned_size (BitVec.ofNat 32 content.length) AES_TEXT_WIDTH).toInt.toNat <
      (result f key content).length := by
  rw [length_result, BitVec.toInt_eq_toNat_cond, toNat_aligned_size, BitVec.toNat_ofNat]
  split_ifs <;> omega

theorem find_memory_last {l : List (Size × Ptr)} {n m : Size} {p q : Ptr}
    (hl : ∀ e ∈ l, e.2 ≠ p) (hq : q ≠ p) :
    find_memory (l ++ [(m, q)] ++ [(n, p)]) p = some (n, p) := by
  have hnone : (l ++ [(m, q)]).find? (fun e => e.2 == p) = none := by
    rw [List.find?_eq_none]
    intro e he
    simp only [List.mem_append, List.mem_singleton] at he
    rcases he with he | rfl
    · simpa using hl e he
    · simpa using hq
  rw [find_memory, List.find?_append, hnone]
  simp

/-- The callback of a started transfer delivers the receive buffer of that
transfer to the output of its request. -/
theorem Starts.delivers {a : Answers} {r : Request} {s s' : DmaState} (h : Starts a r s s')
    (hw : s.WellFormed) (hf : a.Fresh s) (fl : Flight) (hfl : s'.in_flight = some fl)
    (out : Bytes) (hout : out.length = a.aligned.toNat) (w : StreamWrite) :
    (dma_callback w (complete fl out s')).1 =
      { file := if r.output_path ≠ "" then some (r.output_path, w.map out.take) else none
        buffer := if r.output_path = "" ∧ r.output_buffer ≠ 0 then some (r.output_buffer, out)
          else none
        invoked := if r.callback ≠ 0 then some (r.callback, true, r.callback_param)
          else none } := by
  have hapart := DmaState.apart_of_fresh hw hf
  cases h with
  | @started content _ _ _ hrx _ _ =>
    have hne : a.tx_malloc ≠ a.rx_malloc := by
      intro heq
      rcases hf.rx with h0 | hn
      · exact hrx h0
      · exact hn (heq ▸ List.mem_cons_self)
    simp only [Option.some.injEq] at hfl
    subst hfl
    have hfind : find_memory (ready_to_start a r content s).dma_memories a.rx_malloc =
        some (a.aligned, a.rx_malloc) :=
      find_memory_last (fun e he => (hapart e he).2) hne
    have hbytes : (complete ⟨a.tx_malloc, AES_KEY_WIDTH + a.aligned, a.rx_malloc, a.aligned⟩ out
        { ready_to_start a r content s with
          in_flight := some ⟨a.tx_malloc, AES_KEY_WIDTH + a.aligned, a.rx_malloc,
            a.aligned⟩ }).rx_bytes = out := by
      have hcur : (ready_to_start a r content s).current_transfer.rx_buffer = a.rx_malloc := rfl
      simp only [DmaState.rx_bytes, complete, hcur, hfind, Function.update_self]
      rw [List.take_of_length_le (by omega)]
    simp only [dma_callback, hbytes]
    rfl

end aes
