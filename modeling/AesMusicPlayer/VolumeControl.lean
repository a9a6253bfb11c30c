-- The volume of the class `adau1761`. `set_relative_volume` keeps it between 0
-- and `MAX_VOLUME`, and `_set_volume` puts it into the upper six bits of the two
-- headphone registers of the codec.
import AesMusicPlayer.SpiCommand
import AesMusicPlayer.Traces
import Mathlib.Logic.Function.Basic

namespace adau1761

/-! ## The volume -/

/-- An `int` of the processor. -/
abbrev CInt := BitVec 32

def MAX_VOLUME : CInt := 63

/-- The volume that `set_relative_volume` works out. The comparisons are those of
`int`, where the negative of the smallest one is itself. -/
def relative_volume (volume : Byte) (delta : CInt) : Byte :=
  let vol : CInt := volume.setWidth 32
  if (0 : CInt).slt delta ∧ (MAX_VOLUME - delta).slt vol then MAX_VOLUME.setWidth 8
  else if delta.slt 0 ∧ vol.slt (-delta) then 0
  else (vol + delta).setWidth 8

/-- The old volume and the difference, cut at 0 and 63. -/
def saturated (volume : Byte) (delta : CInt) : Int := max 0 (min 63 (volume.toNat + delta.toInt))

theorem int_of_byte (volume : Byte) : (volume.setWidth 32 : CInt).toInt = volume.toNat := by
  have hlt := volume.isLt
  rw [BitVec.toInt_eq_toNat_of_lt, BitVec.toNat_setWidth_of_le (by decide)]
  rw [BitVec.toNat_setWidth_of_le (by decide)]
  omega

theorem int_range (delta : CInt) : -2147483648 ≤ delta.toInt ∧ delta.toInt < 2147483648 :=
  ⟨delta.le_toInt, delta.toInt_lt⟩

/-- The first comparison finds the volumes that would be too large. -/
theorem over_iff {volume : Byte} (hv : volume.toNat ≤ 63) (delta : CInt) :
    ((0 : CInt).slt delta ∧ (MAX_VOLUME - delta).slt (volume.setWidth 32)) ↔
      63 < (volume.toNat : Int) + delta.toInt := by
  have hrange := int_range delta
  have h0 : (0 : CInt).toInt = 0 := rfl
  have h63 : MAX_VOLUME.toInt = 63 := rfl
  rw [BitVec.slt_iff_toInt_lt, BitVec.slt_iff_toInt_lt, int_of_byte, h0]
  by_cases hpos : 0 < delta.toInt
  · have hsub : (MAX_VOLUME - delta).toInt = 63 - delta.toInt := by
      rw [BitVec.toInt_sub, h63, Int.bmod_eq_of_le] <;> omega
    rw [hsub]
    omega
  · omega

/-- The second comparison finds those that would be negative. The smallest `int` has no
negative, and is not found. -/
theorem under_iff (volume : Byte) (delta : CInt) :
    (delta.slt 0 ∧ (volume.setWidth 32).slt (-delta)) ↔
      delta ≠ BitVec.intMin 32 ∧ (volume.toNat : Int) + delta.toInt < 0 := by
  have h0 : (0 : CInt).toInt = 0 := rfl
  rw [BitVec.slt_iff_toInt_lt, BitVec.slt_iff_toInt_lt, int_of_byte, h0]
  by_cases hmin : delta = BitVec.intMin 32
  · subst hmin
    have hneg : (-BitVec.intMin 32).toInt = -2147483648 := by decide
    rw [hneg]
    simp only [ne_eq, not_true_eq_false, false_and, iff_false]
    omega
  · rw [BitVec.toInt_neg_of_ne_intMin hmin]
    simp only [ne_eq, hmin, not_false_eq_true, true_and]
    omega

/-- A sum that is a volume is not changed by the narrowing. -/
theorem narrowed {volume : Byte} {delta : CInt} (hlo : 0 ≤ (volume.toNat : Int) + delta.toInt)
    (hhi : (volume.toNat : Int) + delta.toInt ≤ 63) :
    ((((volume.setWidth 32 : CInt) + delta).setWidth 8).toNat : Int) =
      volume.toNat + delta.toInt := by
  have hsum : ((volume.setWidth 32 : CInt) + delta).toInt = volume.toNat + delta.toInt := by
    rw [BitVec.toInt_add, int_of_byte, Int.bmod_eq_of_le] <;> omega
  have hnat := BitVec.toInt_eq_toNat_cond ((volume.setWidth 32 : CInt) + delta)
  have hlt := ((volume.setWidth 32 : CInt) + delta).isLt
  rw [hsum] at hnat
  rw [BitVec.toNat_setWidth]
  split at hnat <;> omega

theorem relative_volume_of_ne {volume : Byte} (hv : volume.toNat ≤ 63) {delta : CInt}
    (hd : delta ≠ BitVec.intMin 32) :
    ((relative_volume volume delta).toNat : Int) = saturated volume delta := by
  unfold relative_volume saturated
  simp only [over_iff hv, under_iff]
  split_ifs with hover hunder
  · have h63 : (MAX_VOLUME.setWidth 8).toNat = 63 := rfl
    rw [h63]
    omega
  · have h0 : (0 : Byte).toNat = 0 := rfl
    rw [h0]
    omega
  · have hlo := not_and.mp hunder hd
    rw [narrowed (by omega) (by omega)]
    omega

/-- With the smallest `int`, the volume stays. -/
theorem relative_volume_intMin (volume : Byte) :
    relative_volume volume (BitVec.intMin 32) = volume := by
  revert volume
  decide

theorem relative_volume_iff {volume : Byte} (hv : volume.toNat ≤ 63) (delta : CInt) :
    ((relative_volume volume delta).toNat : Int) = saturated volume delta ↔
      (delta = BitVec.intMin 32 → volume = 0) := by
  by_cases hmin : delta = BitVec.intMin 32
  · subst hmin
    have hd : (BitVec.intMin 32).toInt = -2147483648 := by decide
    have hsat : saturated volume (BitVec.intMin 32) = 0 := by
      unfold saturated
      rw [hd]
      omega
    rw [relative_volume_intMin, hsat]
    simp [← BitVec.toNat_inj]
  · simp [hmin, relative_volume_of_ne hv hmin]

theorem relative_volume_le {volume : Byte} (hv : volume.toNat ≤ 63) (delta : CInt) :
    (relative_volume volume delta).toNat ≤ 63 := by
  by_cases hmin : delta = BitVec.intMin 32
  · rw [hmin, relative_volume_intMin]
    exact hv
  · have heq := relative_volume_of_ne hv hmin
    unfold saturated at heq
    omega

/-! ## The headphone registers -/

def ADAU1761_REG_PLAYBACK_HEADPHONE_LEFT_VOL_CONTROL : BitVec 16 := 0x4023

def ADAU1761_REG_PLAYBACK_HEADPHONE_RIGHT_VOL_CONTROL : BitVec 16 := 0x4024

/-- What the codec holds in its registers. -/
abbrev Registers := BitVec 16 → Byte

/-- The register with another volume in its six upper bits. -/
def with_volume (volume data : Byte) : Byte :=
  (((volume.setWidth 32 &&& 0x3F) <<< 2) + (data.setWidth 32 &&& 0x3) : CInt).setWidth 8

theorem with_volume_toNat (volume data : Byte) :
    (with_volume volume data).toNat = volume.toNat % 64 * 4 + data.toNat % 4 := by
  have h63 : (0x3F : CInt).toNat = 2 ^ 6 - 1 := rfl
  have h3 : (0x3 : CInt).toNat = 2 ^ 2 - 1 := rfl
  have hv := volume.isLt
  have hd := data.isLt
  unfold with_volume
  rw [BitVec.toNat_setWidth, BitVec.toNat_add, BitVec.toNat_shiftLeft, BitVec.toNat_and,
    BitVec.toNat_and, BitVec.toNat_setWidth, BitVec.toNat_setWidth, h63, h3,
    Nat.and_two_pow_sub_one_eq_mod, Nat.and_two_pow_sub_one_eq_mod, Nat.shiftLeft_eq]
  omega

theorem with_volume_upper {volume : Byte} (hv : volume.toNat ≤ 63) (data : Byte) :
    with_volume volume data >>> 2 = volume := by
  apply BitVec.eq_of_toNat_eq
  rw [BitVec.toNat_ushiftRight, with_volume_toNat, Nat.shiftRight_eq_div_pow]
  omega

theorem with_volume_lower (volume data : Byte) : with_volume volume data &&& 3 = data &&& 3 := by
  apply BitVec.eq_of_toNat_eq
  have h3 : (3 : Byte).toNat = 2 ^ 2 - 1 := rfl
  rw [BitVec.toNat_and, BitVec.toNat_and, with_volume_toNat, h3, Nat.and_two_pow_sub_one_eq_mod,
    Nat.and_two_pow_sub_one_eq_mod]
  omega

/-- A write command for one byte. The register takes the last word, when there is a command. -/
def write_register (a : SpiAnswers) (addr : BitVec 16) (data : Byte) (registers : Registers) :
    Registers :=
  match (spi_command a addr 1 (some [data]) 0).written with
  | some ws => Function.update registers addr ((ws.getLastD 0).setWidth 8)
  | none => registers

/-- The byte that a read command gives. -/
def read_register (a : SpiAnswers) (addr : BitVec 16) : Byte := (spi_command a addr 1 none 0).value

theorem write_register_eq (a : SpiAnswers) (addr : BitVec 16) (data : Byte)
    (registers : Registers) :
    write_register a addr data registers =
      if a.calloc then Function.update registers addr data else registers := by
  unfold write_register spi_command
  split_ifs with hc
  · simp only
    have hlast : (tx_buffer addr 1 (some [data]) 0).getLastD 0 = data.setWidth 32 := rfl
    rw [hlast, BitVec.setWidth_setWidth_of_le _ (by decide), BitVec.setWidth_eq]
  · rfl

/-! ## `_set_volume` and `set_relative_volume` -/

/-- A call, with what the system answers to its four commands. -/
structure VolumeCall where
  delta : CInt
  read_left : SpiAnswers
  write_left : SpiAnswers
  read_right : SpiAnswers
  write_right : SpiAnswers

/-- The volume of the class, and the registers of the codec. -/
structure VolumeState where
  volume : Byte
  registers : Registers

/-- The volume of one channel: read, change, write. -/
def set_channel (read write : SpiAnswers) (addr : BitVec 16) (volume : Byte)
    (registers : Registers) : Registers :=
  write_register write addr (with_volume volume (read_register read addr)) registers

def set_volume (c : VolumeCall) (volume : Byte) (registers : Registers) : Registers :=
  set_channel c.read_right c.write_right ADAU1761_REG_PLAYBACK_HEADPHONE_RIGHT_VOL_CONTROL volume
    (set_channel c.read_left c.write_left ADAU1761_REG_PLAYBACK_HEADPHONE_LEFT_VOL_CONTROL volume
      registers)

/-- With the volume that is returned. -/
def VolumeState.set_relative_volume (c : VolumeCall) (s : VolumeState) : Byte × VolumeState :=
  let vol := relative_volume s.volume c.delta
  (vol, ⟨vol, set_volume c vol s.registers⟩)

/-- The calls one after the other. A register that is read gives what was written to it last. -/
def volume_control : traces.System VolumeState VolumeCall where
  next s c := (s.set_relative_volume c).2
  Enabled s c :=
    read_register c.read_left ADAU1761_REG_PLAYBACK_HEADPHONE_LEFT_VOL_CONTROL =
        s.registers ADAU1761_REG_PLAYBACK_HEADPHONE_LEFT_VOL_CONTROL ∧
      read_register c.read_right ADAU1761_REG_PLAYBACK_HEADPHONE_RIGHT_VOL_CONTROL =
        s.registers ADAU1761_REG_PLAYBACK_HEADPHONE_RIGHT_VOL_CONTROL

instance (s : VolumeState) (c : VolumeCall) : Decidable (volume_control.Enabled s c) :=
  inferInstanceAs (Decidable (_ ∧ _))

section Channel

variable {read write : SpiAnswers} {addr : BitVec 16} {registers : Registers}

theorem set_channel_eq (hread : read_register read addr = registers addr) (volume : Byte) :
    set_channel read write addr volume registers =
      if write.calloc then
        Function.update registers addr (with_volume volume (registers addr))
      else registers := by
  unfold set_channel
  rw [hread, write_register_eq]

theorem set_channel_other {addr' : BitVec 16} (hne : addr' ≠ addr) (volume : Byte) :
    set_channel read write addr volume registers addr' = registers addr' := by
  unfold set_channel
  rw [write_register_eq]
  split_ifs
  · exact Function.update_of_ne hne ..
  · rfl

/-- The lower bits of all registers stay. -/
theorem set_channel_lower (hread : read_register read addr = registers addr) (volume : Byte)
    (addr' : BitVec 16) :
    set_channel read write addr volume registers addr' &&& 3 = registers addr' &&& 3 := by
  by_cases haddr : addr' = addr
  · subst haddr
    rw [set_channel_eq hread]
    split_ifs
    · rw [Function.update_self, with_volume_lower]
    · rfl
  · rw [set_channel_other haddr]

/-- The upper bits are the volume when the command is sent, or when they were it before. -/
theorem set_channel_upper_iff (hread : read_register read addr = registers addr) {volume : Byte}
    (hv : volume.toNat ≤ 63) :
    set_channel read write addr volume registers addr >>> 2 = volume ↔
      write.calloc = true ∨ registers addr >>> 2 = volume := by
  rw [set_channel_eq hread]
  split_ifs with hc
  · simp [hc, with_volume_upper hv]
  · simp [hc]

end Channel

/-! ## The law -/

/-- The register has the volume in its upper six bits, and below it what was there at first. -/
structure Shows (registers₀ registers : Registers) (addr : BitVec 16) (volume : Byte) : Prop where
  upper : registers addr >>> 2 = volume
  lower : registers addr &&& 3 = registers₀ addr &&& 3

/-- What one call of a run from `s₀` is to do. -/
structure Follows (s₀ s : VolumeState) (c : VolumeCall) : Prop where
  stored : ((s.set_relative_volume c).2.volume.toNat : Int) = saturated s.volume c.delta
  returned : (s.set_relative_volume c).1 = (s.set_relative_volume c).2.volume
  left : Shows s₀.registers (s.set_relative_volume c).2.registers
    ADAU1761_REG_PLAYBACK_HEADPHONE_LEFT_VOL_CONTROL (s.set_relative_volume c).2.volume
  right : Shows s₀.registers (s.set_relative_volume c).2.registers
    ADAU1761_REG_PLAYBACK_HEADPHONE_RIGHT_VOL_CONTROL (s.set_relative_volume c).2.volume

/-- The smallest `int` comes to a volume of 0 only. Each channel is sent its new volume, or
has it already. -/
structure Heard (s : VolumeState) (c : VolumeCall) : Prop where
  negative : c.delta = BitVec.intMin 32 → s.volume = 0
  left : c.write_left.calloc = true ∨
    ((s.registers ADAU1761_REG_PLAYBACK_HEADPHONE_LEFT_VOL_CONTROL >>> 2).toNat : Int) =
      saturated s.volume c.delta
  right : c.write_right.calloc = true ∨
    ((s.registers ADAU1761_REG_PLAYBACK_HEADPHONE_RIGHT_VOL_CONTROL >>> 2).toNat : Int) =
      saturated s.volume c.delta

/-- What every call keeps, also the ones that go wrong. -/
structure Bounded (s₀ s : VolumeState) : Prop where
  volume : s.volume.toNat ≤ 63
  lower : ∀ addr, s.registers addr &&& 3 = s₀.registers addr &&& 3

section Runs

variable {s₀ s : VolumeState} {c : VolumeCall} {tr : List (VolumeState × VolumeCall)}

/-- The right channel is read after the left one is written. -/
theorem right_is_read (he : volume_control.Enabled s c) (volume : Byte) :
    read_register c.read_right ADAU1761_REG_PLAYBACK_HEADPHONE_RIGHT_VOL_CONTROL =
      set_channel c.read_left c.write_left ADAU1761_REG_PLAYBACK_HEADPHONE_LEFT_VOL_CONTROL volume
        s.registers ADAU1761_REG_PLAYBACK_HEADPHONE_RIGHT_VOL_CONTROL := by
  rw [set_channel_other (by decide)]
  exact he.2

theorem set_volume_lower (he : volume_control.Enabled s c) (volume : Byte) (addr : BitVec 16) :
    set_volume c volume s.registers addr &&& 3 = s.registers addr &&& 3 := by
  unfold set_volume
  rw [set_channel_lower (right_is_read he volume), set_channel_lower he.1]

theorem set_volume_left_iff (he : volume_control.Enabled s c) {volume : Byte}
    (hv : volume.toNat ≤ 63) :
    set_volume c volume s.registers ADAU1761_REG_PLAYBACK_HEADPHONE_LEFT_VOL_CONTROL >>> 2 =
        volume ↔
      c.write_left.calloc = true ∨
        s.registers ADAU1761_REG_PLAYBACK_HEADPHONE_LEFT_VOL_CONTROL >>> 2 = volume := by
  unfold set_volume
  rw [set_channel_other (by decide), set_channel_upper_iff he.1 hv]

theorem set_volume_right_iff (he : volume_control.Enabled s c) {volume : Byte}
    (hv : volume.toNat ≤ 63) :
    set_volume c volume s.registers ADAU1761_REG_PLAYBACK_HEADPHONE_RIGHT_VOL_CONTROL >>> 2 =
        volume ↔
      c.write_right.calloc = true ∨
        s.registers ADAU1761_REG_PLAYBACK_HEADPHONE_RIGHT_VOL_CONTROL >>> 2 = volume := by
  unfold set_volume
  rw [set_channel_upper_iff (right_is_read he volume) hv, set_channel_other (by decide)]

theorem Bounded.next (h : Bounded s₀ s) (he : volume_control.Enabled s c) :
    Bounded s₀ (volume_control.next s c) := by
  refine ⟨relative_volume_le h.volume c.delta, ?_⟩
  intro addr
  exact (set_volume_lower he _ addr).trans (h.lower addr)

theorem follows_iff (h : Bounded s₀ s) (he : volume_control.Enabled s c) :
    Follows s₀ s c ↔ Heard s c := by
  have hle := relative_volume_le h.volume c.delta
  have hlower : ∀ addr, set_volume c (relative_volume s.volume c.delta) s.registers addr &&& 3 =
      s₀.registers addr &&& 3 := (h.next he).lower
  have hbyte : ∀ b : Byte,
      ((relative_volume s.volume c.delta).toNat : Int) = saturated s.volume c.delta →
        (b = relative_volume s.volume c.delta ↔ (b.toNat : Int) = saturated s.volume c.delta) := by
    intro b hsat
    rw [← hsat, Int.natCast_inj, BitVec.toNat_inj]
  constructor
  · rintro ⟨hstored, -, hleft, hright⟩
    refine ⟨(relative_volume_iff h.volume c.delta).mp hstored, ?_, ?_⟩
    · rw [← hbyte _ hstored]
      exact (set_volume_left_iff he hle).mp hleft.upper
    · rw [← hbyte _ hstored]
      exact (set_volume_right_iff he hle).mp hright.upper
  · rintro ⟨hneg, hleft, hright⟩
    have hstored := (relative_volume_iff h.volume c.delta).mpr hneg
    rw [← hbyte _ hstored] at hleft hright
    exact ⟨hstored, rfl, ⟨(set_volume_left_iff he hle).mpr hleft, hlower _⟩,
      ⟨(set_volume_right_iff he hle).mpr hright, hlower _⟩⟩

/-- In every run from a volume of at most 63, each call saturates the volume and shows it in
both registers exactly when the difference is not the smallest `int` with a volume to lower,
and there is memory for the commands that change a register. -/
theorem volume_follows_iff (hv : s₀.volume.toNat ≤ 63)
    (h : traces.Run volume_control (fun _ _ => True) s₀ tr s) :
    (∀ e ∈ tr, Follows s₀ e.1 e.2) ↔ ∀ e ∈ tr, Heard e.1 e.2 := by
  apply h.forall_iff (I := Bounded s₀) ⟨hv, fun _ => rfl⟩
  · intro s c hb he _ _
    exact hb.next he
  · intro s c hb he _
    exact follows_iff hb he

end Runs

/-! ### Louder, softer, and the smallest difference -/

/-- A command that is sent, and whose read gives the byte. -/
def answer (b : Byte) : SpiAnswers := ⟨true, fun _ => some (b.setWidth 32)⟩

/-- A call that finds the bytes in the registers. -/
def call_with (delta : CInt) (left right : Byte) : VolumeCall :=
  ⟨delta, answer left, answer 0, answer right, answer 0⟩

/-- The registers and the volume after `init`. -/
def after_init : VolumeState := ⟨32, fun _ => 0x83⟩

/-- Up beyond the end, and down again. -/
def louder_and_softer : List VolumeCall :=
  [call_with 40 0x83 0x83, call_with (-3) 0xFF 0xFF]

theorem run_of_calls {calls : List VolumeCall} (h : volume_control.Enables after_init calls) :
    traces.Run volume_control (fun _ _ => True) after_init (volume_control.trace after_init calls)
      (volume_control.after after_init calls) :=
  traces.System.run_of_enables h fun _ _ => trivial

theorem volume_of_louder_and_softer :
    (volume_control.after after_init louder_and_softer).volume = 60 ∧
      ∀ e ∈ volume_control.trace after_init louder_and_softer, Follows after_init e.1 e.2 := by
  refine ⟨by decide, (volume_follows_iff (by decide) (run_of_calls (by decide))).mpr ?_⟩
  refine List.forall_mem_cons.mpr ⟨⟨by decide, Or.inl rfl, Or.inl rfl⟩, ?_⟩
  exact List.forall_mem_singleton.mpr ⟨by decide, Or.inl rfl, Or.inl rfl⟩

/-- The volume stays at 32, where it is to be 0. -/
theorem smallest_difference_is_lost :
    traces.Run volume_control (fun _ _ => True) after_init
        (volume_control.trace after_init [call_with (BitVec.intMin 32) 0x83 0x83])
        (volume_control.after after_init [call_with (BitVec.intMin 32) 0x83 0x83]) ∧
      (volume_control.after after_init [call_with (BitVec.intMin 32) 0x83 0x83]).volume = 32 ∧
      saturated after_init.volume (BitVec.intMin 32) = 0 ∧
      ¬ ∀ e ∈ volume_control.trace after_init [call_with (BitVec.intMin 32) 0x83 0x83],
        Follows after_init e.1 e.2 := by
  refine ⟨run_of_calls (by decide), by decide, by decide, ?_⟩
  intro h
  have hstored := (h _ List.mem_cons_self).stored
  exact absurd hstored (by decide)

end adau1761
