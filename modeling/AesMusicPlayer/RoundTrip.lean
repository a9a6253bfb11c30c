-- Encryption and decryption one after the other. The input is padded with
-- zeros to whole blocks, nothing records its length, and so the padding stays.
import AesMusicPlayer.FileReplace

open blockwise

namespace aes

/-- Every step of the operation succeeds. -/
structure Succeeds (t : AesThread) (x : Faults) (s : DmaState) (file : File) : Prop where
  thread : x.thread = true
  started : (x.answers (some file)).AllWell t.request s
  written : ∃ k, x.write = some k ∧ (x.answers (some file)).aligned.toNat ≤ k
  setxattr : x.setxattr = true
  rename : x.rename = true

/-- An operation that succeeds on a file that is not too long leaves the complete result. -/
theorem operate_succeeds (f : BlockFunction) {t : AesThread} {x : Faults} {s : DmaState}
    {fs : FileSystem} {file : File} (hs : Reachable s) (hf : (x.answers (some file)).Fresh s)
    (h : StartsOn t fs file) (hx : Succeeds t x s file)
    (hlen : file.content.length + 15 < 2 ^ 31) :
    operate f t x s fs t.input_path = some ⟨result f t.key file.content, !file.is_encrypted⟩ := by
  obtain ⟨k, hk, hle⟩ := hx.written
  rw [operate, if_pos hx.thread, h.input, h.run_started f hs.wellFormed hf hx.started, hk,
    hx.rename, hx.setxattr]
  simp only [h.handled]
  simp only [StreamWrite.of_size, Option.map_some, Bool.or_true, Bool.and_true, if_true,
    written_eq_result f k hx.started hlen hle]

/-- The decryption of an encryption is the padded plain text. -/
theorem decipher_cipher_padded (C : BlockCipher) (key : Key) (content : Bytes)
    (hlen : content.length + 15 < 2 ^ 31) :
    transform C.decipher key (transform C.cipher key content) =
      content ++ List.replicate (padding 16 content.length) 0 := by
  have hpad := add_padding (k := 16) (by omega) content.length
  have hsize := length_result C.cipher key content
  rw [transform_eq_result C.cipher key content hlen, transform_eq_result C.decipher key _ (by omega),
    result_result]

/-- A file that is encrypted and then decrypted with the same key is the
original with zeros up to the next multiple of 16, so it is the original itself
exactly when it was made of whole blocks. -/
theorem encrypted_and_decrypted_the_file_is_padded (C : BlockCipher) (enc dec : AesThread)
    (x y : Faults) (s s' : DmaState) (fs : FileSystem) (content : Bytes)
    (hlen : content.length + 15 < 2 ^ 31) (hkey : dec.key = enc.key)
    (hpath : dec.input_path = enc.input_path) (hs : Reachable s) (hs' : Reachable s')
    (h : StartsOn enc fs ⟨content, false⟩) (hop : dec.operation = .DECRYPT)
    (hunused : operate C.cipher enc x s fs dec.output_path = none) (hnamed : dec.output_path ≠ "")
    (hf : (x.answers (some ⟨content, false⟩)).Fresh s)
    (hf' : (y.answers (some ⟨transform C.cipher enc.key content, true⟩)).Fresh s')
    (hx : Succeeds enc x s ⟨content, false⟩)
    (hy : Succeeds dec y s' ⟨transform C.cipher enc.key content, true⟩) :
    let files := operate C.decipher dec y s' (operate C.cipher enc x s fs)
    files enc.input_path = some ⟨content ++ List.replicate (padding 16 content.length) 0, false⟩ ∧
      (files enc.input_path = some ⟨content, false⟩ ↔ content.length % 16 = 0) := by
  have henc := operate_succeeds C.cipher hs hf h hx hlen
  have hpad := add_padding (k := 16) (by omega) content.length
  have hsize := length_result C.cipher enc.key content
  have hsame := transform_eq_result C.cipher enc.key content hlen
  rw [hsame] at hf' hy
  have h' : StartsOn dec (operate C.cipher enc x s fs) ⟨result C.cipher enc.key content, true⟩ :=
    ⟨hop, by rw [hpath]; exact henc, hunused, hnamed⟩
  have hpadded : operate C.decipher dec y s' (operate C.cipher enc x s fs) enc.input_path =
      some ⟨content ++ List.replicate (padding 16 content.length) 0, false⟩ := by
    have hbound : (result C.cipher enc.key content).length + 15 < 2 ^ 31 := by omega
    rw [← hpath, operate_succeeds C.decipher hs' hf' h' hy hbound, hkey, result_result]
    rfl
  refine ⟨hpadded, ?_⟩
  rw [hpadded, ← padding_eq_zero_iff (by omega)]
  simp only [Option.some.injEq, File.mk.injEq, and_true]
  constructor
  · intro heq
    have := congrArg List.length heq
    simp only [List.length_append, List.length_replicate] at this
    omega
  · intro hzero
    rw [hzero, List.replicate_zero, List.append_nil]

/-! ### A song of three bytes -/

/-- An engine that adds `k` to each byte. -/
def shift (k : BitVec 8) : BlockFunction :=
  ⟨fun _ b => b.map (· + k), fun _ _ h => by rw [List.length_map, h]⟩

def shifts : BlockCipher where
  cipher := shift 1
  decipher := shift (-1)
  decipher_cipher _ b _ := by
    have hid : ∀ x : BitVec 8, x + 1#8 + 255#8 = x := by decide
    simp [shift, Function.comp_def, hid]

def decryptSong : AesThread :=
  { encryptSong with operation := .DECRYPT }

theorem succeeds_writes (t : AesThread) (file : File) (hop : t.request.output_buffer = 0)
    (hsize : file.content.length ≤ 16) : Succeeds t (writes 16) idle file := by
  have hpad := add_padding (k := 16) (by omega) file.content.length
  have hal : ((writes 16).answers (some file)).aligned =
      aligned_size (BitVec.ofNat 32 file.content.length) AES_TEXT_WIDTH := rfl
  refine ⟨rfl, ⟨rfl, rfl, ?_, ?_, ?_, ?_⟩, ⟨16, rfl, ?_⟩, rfl, rfl⟩
  · rintro (h0 | h0 | h0)
    · cases h0
    · simp [Request.too_small, hop] at h0
    · cases h0
  · simp [writes, Faults.answers]
  · simp [writes, Faults.answers]
  · simp [writes, Faults.answers]
  · rw [hal, aligned_size_padded _ (by omega), hpad]
    omega

/-- The song and its 13 zeros. -/
theorem the_song_is_padded :
    let files := operate shifts.decipher decryptSong (writes 16) idle
      (operate shifts.cipher encryptSong (writes 16) idle directory)
    files "song" = some ⟨[1, 2, 3] ++ List.replicate (padding 16 3) 0, false⟩ ∧
      (files "song" = some ⟨[1, 2, 3], false⟩ ↔ 3 % 16 = 0) :=
  encrypted_and_decrypted_the_file_is_padded shifts encryptSong decryptSong (writes 16) (writes 16)
    idle idle directory [1, 2, 3] (by decide) rfl rfl idle_reachable idle_reachable
    encryptSong_startsOn rfl (by decide +kernel) (by decide) (writes_fresh 16 _) (writes_fresh 16 _)
    (succeeds_writes _ _ rfl (by decide)) (succeeds_writes _ _ rfl (by decide +kernel))

/-- The song does not come back as it was. -/
theorem a_song_of_three_bytes_is_changed :
    directory "song" = some ⟨[1, 2, 3], false⟩ ∧
      operate shifts.decipher decryptSong (writes 16) idle
        (operate shifts.cipher encryptSong (writes 16) idle directory) "song" ≠
          some ⟨[1, 2, 3], false⟩ :=
  ⟨rfl, by decide +kernel⟩

end aes
