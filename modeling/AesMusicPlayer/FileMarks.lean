-- The attribute of a file and what the file holds: its plain text, or one encryption of it. The
-- padding of the first encryption stays, and later rounds add none.
import AesMusicPlayer.FileReplace

open blockwise

namespace aes

/-! ## The two engines -/

/-- The two DMA states of the class. -/
inductive Engine
  | cipher | decipher
  deriving DecidableEq, Repr

def Operation.engine : Operation → Engine
  | .ENCRYPT | .ENCRYPT_INTO => .cipher
  | .DECRYPT | .DECRYPT_INTO => .decipher

def BlockCipher.engine (C : BlockCipher) : Engine → BlockFunction
  | .cipher => C.cipher
  | .decipher => C.decipher

/-- The operation that a key press may start on the file. -/
def File.operation (file : File) : Operation := if file.is_encrypted then .DECRYPT else .ENCRYPT

/-! ## What the files should hold -/

section Contents

variable (C : BlockCipher) (key : Key)

/-- The plain text `x`, as it is or after rounds of encryption and decryption. -/
inductive Plain (x : Bytes) : Bytes → Prop
  | self : Plain x x
  | again {y : Bytes} : Plain x y → Plain x (result C.decipher key (result C.cipher key y))

/-- The input that an operation needs: plain text, or one encryption of it. -/
def Suits (x content : Bytes) : Operation → Prop
  | .ENCRYPT | .ENCRYPT_INTO => Plain C key x content
  | .DECRYPT | .DECRYPT_INTO => ∃ y, Plain C key x y ∧ content = result C.cipher key y

/-- A file is marked as encrypted exactly when it is one encryption of its plain text. -/
def Consistent (x : Bytes) (file : File) : Prop := Suits C key x file.content file.operation

variable {C key} {x : Bytes}

/-- The result of an operation on its right input is right again. -/
theorem consistent_result {content : Bytes} {op : Operation} (hop : op = .ENCRYPT ∨ op = .DECRYPT)
    (h : Suits C key x content op) :
    Consistent C key x ⟨result (C.engine op.engine) key content, op == .ENCRYPT⟩ := by
  rcases hop with rfl | rfl
  · exact ⟨content, h, rfl⟩
  · obtain ⟨y, hy, rfl⟩ := h
    exact .again hy

/-- Padding once more changes nothing. -/
theorem result_of_padded (f : BlockFunction) (key : Key) (x : Bytes) :
    result f key (x ++ List.replicate (padding 16 x.length) 0) = result f key x := by
  have hpad := add_padding (k := 16) (by omega) x.length
  have hlen : (x ++ List.replicate (padding 16 x.length) (0 : BitVec 8)).length =
      x.length + padding 16 x.length := by
    rw [List.length_append, List.length_replicate]
  have hnone : padding 16 (x.length + padding 16 x.length) = 0 :=
    (padding_eq_zero_iff (by omega) _).mpr (by omega)
  unfold result
  rw [hlen, hnone, List.replicate_zero, List.append_nil, Nat.add_zero]

theorem plain_cases {y : Bytes} (h : Plain C key x y) :
    y = x ∨ y = x ++ List.replicate (padding 16 x.length) 0 := by
  induction h with
  | self => exact Or.inl rfl
  | again _ ih =>
    right
    rcases ih with rfl | rfl
    · exact result_result C key _
    · rw [result_of_padded, result_result]

/-- The encryption is that of the plain text, also when the plain text has its padding. -/
theorem encrypted_eq {y : Bytes} (h : Plain C key x y) :
    result C.cipher key y = result C.cipher key x := by
  rcases plain_cases h with rfl | rfl
  · rfl
  · exact result_of_padded C.cipher key x

/-- All that the file ever holds has as many bytes, or those of the padding more. -/
theorem length_of_suits {content : Bytes} {op : Operation} (h : Suits C key x content op) :
    content.length = x.length ∨ content.length = x.length + padding 16 x.length := by
  have hplain : Plain C key x content →
      content.length = x.length ∨ content.length = x.length + padding 16 x.length := by
    intro hp
    rcases plain_cases hp with rfl | rfl
    · exact Or.inl rfl
    · rw [List.length_append, List.length_replicate]
      exact Or.inr rfl
  have henc : (∃ y, Plain C key x y ∧ content = result C.cipher key y) →
      content.length = x.length + padding 16 x.length := by
    rintro ⟨y, hy, rfl⟩
    rw [encrypted_eq hy, length_result]
  cases op with
  | ENCRYPT | ENCRYPT_INTO => exact hplain h
  | DECRYPT | DECRYPT_INTO => exact Or.inr (henc h)

/-- So it always has as many blocks. -/
theorem aligned_of_suits {content : Bytes} {op : Operation} (h : Suits C key x content op) :
    aligned_size (BitVec.ofNat 32 content.length) AES_TEXT_WIDTH =
      aligned_size (BitVec.ofNat 32 x.length) AES_TEXT_WIDTH := by
  have hpad := add_padding (k := 16) (by omega) x.length
  have hlen := length_of_suits h
  apply BitVec.eq_of_toNat_eq
  rw [toNat_aligned_size, toNat_aligned_size, BitVec.toNat_ofNat, BitVec.toNat_ofNat]
  omega

/-- The contents of a consistent file: the encryption of its plain text, or
the plain text with or without its padding. -/
theorem content_of_consistent {file : File} (h : Consistent C key x file) :
    if file.is_encrypted then file.content = result C.cipher key x
      else file.content = x ∨ file.content = x ++ List.replicate (padding 16 x.length) 0 := by
  unfold Consistent File.operation at h
  split_ifs at h ⊢ with henc
  · obtain ⟨y, hy, hc⟩ := h
    exact hc.trans (encrypted_eq hy)
  · exact plain_cases h

end Contents

end aes
