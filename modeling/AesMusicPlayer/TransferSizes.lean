-- The sizes of the two buffers of a call. The size of the file is narrowed to a
-- `size_t`, rounded up to whole blocks, and the size of the key is added. Nothing
-- of this is checked.
import AesMusicPlayer.FileCrypt
import AesMusicPlayer.TransferMemories
import AesMusicPlayer.TransferThreads

open blockwise

namespace aes

/-! ## Throws before the config register is written -/

/-- The step that throws. For `no_memory` it is the later one of two. -/
def Thrown.step : Thrown → CallStep
  | .not_initialized => .check_dev
  | .busy => .test_busy
  | .file_size | .too_small => .get_file_size
  | .no_memory => .malloc_rx
  | .no_input => .open_input
  | .not_started => .start

/-- The call throws, and has not written the config register. -/
def ThrowsFirst (a : Answers) (r : Request) (s : DmaState) : Prop :=
  ∃ t, (do_transfer a r s).1 = some t ∧ t.step < .key_loading_on

/-- One of the checks and allocations before the write fails. -/
def Refused (a : Answers) (r : Request) (s : DmaState) : Prop :=
  s.dev = false ∨ s.is_busy = true ∨ a.early r ∨ a.rx_malloc = 0

instance (a : Answers) (r : Request) (s : DmaState) : Decidable (Refused a r s) := by
  unfold Refused Answers.early
  exact inferInstance

section Throws

variable {a : Answers} {r : Request} {s : DmaState}

theorem refused_spec (h : Refused a r s) :
    ThrowsFirst a r s ∧ (do_transfer a r s).2.config = s.config := by
  unfold ThrowsFirst do_transfer try_transfer
  by_cases hdev : s.dev = false
  · rw [if_pos hdev]
    exact ⟨⟨_, rfl, by decide⟩, rfl⟩
  by_cases hbusy : s.is_busy = true
  · rw [if_neg hdev, if_pos hbusy]
    exact ⟨⟨_, rfl, by decide⟩, rfl⟩
  by_cases hsize : a.file_size = none
  · rw [if_neg hdev, if_neg hbusy, if_pos hsize]
    exact ⟨⟨_, rfl, by decide⟩, rfl⟩
  by_cases hsmall : r.too_small a.aligned = true
  · rw [if_neg hdev, if_neg hbusy, if_neg hsize, if_pos hsmall]
    exact ⟨⟨_, rfl, by decide⟩, rfl⟩
  by_cases htx : a.tx_malloc = 0
  · rw [if_neg hdev, if_neg hbusy, if_neg hsize, if_neg hsmall, if_pos htx]
    exact ⟨⟨_, rfl, by decide⟩, rfl⟩
  have hearly : ¬ a.early r := not_or.mpr ⟨hsize, not_or.mpr ⟨hsmall, htx⟩⟩
  have hrx := ((h.resolve_left hdev).resolve_left hbusy).resolve_left hearly
  rw [if_neg hdev, if_neg hbusy, if_neg hsize, if_neg hsmall, if_neg htx, if_pos hrx]
  exact ⟨⟨_, rfl, by decide⟩, rfl⟩

/-- What the config register is left with, by a call that comes to the input. -/
theorem not_refused_spec (h : ¬ Refused a r s) :
    ¬ ThrowsFirst a r s ∧
      (do_transfer a r s).2.config = if a.input = none then 0xFFFFFFFF else 0 := by
  obtain ⟨hdev, hrest⟩ := not_or.mp h
  obtain ⟨hbusy, hrest⟩ := not_or.mp hrest
  obtain ⟨hearly, hrx⟩ := not_or.mp hrest
  obtain ⟨hsize, hsmall, htx⟩ := Answers.of_late hearly
  unfold ThrowsFirst do_transfer try_transfer
  simp only [if_neg hdev, if_neg hbusy, if_neg hsize, if_neg hsmall, if_neg htx, if_neg hrx]
  cases a.input with
  | none =>
    refine ⟨?_, rfl⟩
    rintro ⟨t, ht, hlt⟩
    obtain rfl := Option.some.inj ht
    exact absurd hlt (by decide)
  | some content =>
    by_cases hret : a.twoway < 0
    · simp only [if_pos hret]
      refine ⟨?_, rfl⟩
      rintro ⟨t, ht, hlt⟩
      obtain rfl := Option.some.inj ht
      exact absurd hlt (by decide)
    · simp only [if_neg hret]
      refine ⟨?_, rfl⟩
      rintro ⟨t, ht, -⟩
      cases ht

theorem throwsFirst_iff : ThrowsFirst a r s ↔ Refused a r s := by
  by_cases h : Refused a r s
  · exact iff_of_true (refused_spec h).1 h
  · exact iff_of_false (not_refused_spec h).1 h

end Throws

/-! ## The sizes -/

/-- The sizes that the call uses for a file of `n` bytes, as numbers. -/
structure SizesRight (n : ℕ) (a : Answers) : Prop where
  rx : IsLeast {m | 16 ∣ m ∧ n ≤ m} a.aligned.toNat
  tx : a.tx_size.toNat = a.aligned.toNat + 16

theorem Answers.aligned_of_size {a : Answers} {n : ℕ} (hn : a.file_size = some n) :
    a.aligned = aligned_size (BitVec.ofNat 32 n) AES_TEXT_WIDTH := by
  unfold Answers.aligned
  rw [hn]
  rfl

theorem Answers.toNat_tx_size (a : Answers) :
    a.tx_size.toNat = (16 + a.aligned.toNat) % 2 ^ 32 := by
  unfold Answers.tx_size AES_KEY_WIDTH
  rw [BitVec.toNat_add]
  rfl

/-- No size wraps when there is room for the file, its padding and the key. -/
theorem sizesRight_iff {a : Answers} {n : ℕ} (hn : a.file_size = some n) :
    SizesRight n a ↔ n + 32 ≤ 2 ^ 32 := by
  have hwhole := aligned_size_whole (BitVec.ofNat 32 n)
  have hmax := a.aligned.isLt
  rw [← Answers.aligned_of_size hn] at hwhole
  constructor
  · rintro ⟨hrx, htx⟩
    -- the multiple of 16 below 2^32 leaves room for the key
    have hle := hrx.1.2
    rw [Answers.toNat_tx_size] at htx
    omega
  · intro hroom
    have hpad := aligned_size_padded n (by omega)
    rw [← Answers.aligned_of_size hn] at hpad
    have hlt := padding_lt (k := 16) (by omega) n
    refine ⟨?_, ?_⟩
    · rw [hpad]
      exact isLeast_add_padding (by omega) n
    · rw [Answers.toNat_tx_size]
      omega

/-- A call throws before it writes the config register or goes on with the right sizes,
exactly when it is refused or the file leaves room in a `size_t` for its padding and the key. -/
theorem sizes_are_right_iff {a : Answers} {r : Request} {s : DmaState} {n : ℕ}
    (hn : a.file_size = some n) :
    ThrowsFirst a r s ∨ SizesRight n a ↔ Refused a r s ∨ n ≤ 2 ^ 32 - 32 := by
  rw [throwsFirst_iff, sizesRight_iff hn]
  exact or_congr Iff.rfl (by omega)

/-- A file of 20 bytes takes two blocks. -/
theorem sizes_of_two_blocks :
    ThrowsFirst answers request idle ∨ SizesRight 20 answers :=
  (sizes_are_right_iff rfl).mpr (Or.inr (by decide))

/-- A file of 2^32 bytes and 20 more. -/
def large_file : Answers :=
  { answers with
    file_size := some (2 ^ 32 + 20), input := some (List.replicate (2 ^ 32 + 20) 7) }

/-- The transfer is started with the two blocks that the last 20 bytes would take. -/
theorem large_file_is_truncated :
    (do_transfer large_file request idle).1 = none ∧
      (do_transfer large_file request idle).2.in_flight = some ⟨1, 48, 2, 32⟩ ∧
      ¬ (ThrowsFirst large_file request idle ∨ SizesRight (2 ^ 32 + 20) large_file) := by
  refine ⟨rfl, rfl, ?_⟩
  rw [throwsFirst_iff, sizesRight_iff rfl]
  exact not_or.mpr ⟨by decide, by decide⟩

/-- A driver that maps nothing for a size of 0 refuses the files that make a size wrap to 0.
The files that are left are those of 2^32 bytes and more. -/
theorem refused_of_wrap {a : Answers} {r : Request} {s : DmaState} {n : ℕ}
    (hn : a.file_size = some n) (htx : a.tx_size = 0 → a.tx_malloc = 0)
    (hrx : a.aligned = 0 → a.rx_malloc = 0) (hlo : 2 ^ 32 - 32 < n) (hhi : n < 2 ^ 32) :
    Refused a r s := by
  have hal : a.aligned.toNat = (n + 15) % 2 ^ 32 / 16 * 16 := by
    rw [Answers.aligned_of_size hn, toNat_aligned_size, BitVec.toNat_ofNat, Nat.mod_eq_of_lt hhi]
  have h0 : (0 : Size).toNat = 0 := rfl
  by_cases hwrap : n + 15 < 2 ^ 32
  · -- the rounded size is 2^32 - 16, and the key makes it wrap
    have hzero : a.tx_size = 0 := by
      apply BitVec.eq_of_toNat_eq
      rw [a.toNat_tx_size, hal, h0]
      omega
    exact Or.inr (Or.inr (Or.inl (Or.inr (Or.inr (htx hzero)))))
  · have hzero : a.aligned = 0 := by
      apply BitVec.eq_of_toNat_eq
      rw [hal, h0]
      omega
    exact Or.inr (Or.inr (Or.inr (hrx hzero)))

end aes
