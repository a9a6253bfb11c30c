-- `_init_codec`: the commands that set the codec up, with the wait for its PLL between them, and
-- what its registers hold after all that has come over the line.
import AesMusicPlayer.SpiDialogs
import AesMusicPlayer.VolumeControl

open adau1761 axis_fifo clocked dialog serial spi_master

namespace codec_setup

/-! ## The commands -/

def ADAU1761_REG_CLOCK_CONTROL : BitVec 16 := 0x4000
def ADAU1761_REG_CLOCK_ENABLE_0 : BitVec 16 := 0x40F9
def ADAU1761_REG_CLOCK_ENABLE_1 : BitVec 16 := 0x40FA
def ADAU1761_REG_SERIAL_PORT_0 : BitVec 16 := 0x4015
def ADAU1761_REG_PLAYBACK_MONO_OUTPUT_CONTROL : BitVec 16 := 0x4027
def ADAU1761_REG_SERIAL_INPUT_ROUTE_CONTROL : BitVec 16 := 0x40F2
def ADAU1761_REG_PLAYBACK_POWER_MANAGEMENT : BitVec 16 := 0x4029
def ADAU1761_REG_DAC_CONTROL_0 : BitVec 16 := 0x402A
def ADAU1761_REG_PLAY_MIXER_LEFT_0 : BitVec 16 := 0x401C
def ADAU1761_REG_PLAY_MIXER_RIGHT_0 : BitVec 16 := 0x401E

abbrev Program := Dialog Request Byte

def read_one (addr : BitVec 16) : Program Byte := .request ⟨addr, 1, none, of_decide_eq_true rfl⟩

def write_one (addr : BitVec 16) (data : Byte) : Program Byte :=
  .request ⟨addr, 1, some [data], of_decide_eq_true rfl⟩

def read_pll : Program Byte :=
  .request ⟨ADAU1761_REG_PLL_CONTROL, 6, none, of_decide_eq_true rfl⟩

def write_pll (ws : List (BitVec 16)) : Program Byte :=
  .request ⟨ADAU1761_REG_PLL_CONTROL, 6, some (stored ws), of_decide_eq_true rfl⟩

/-- The wait for the PLL, at most so many polls of it. -/
def wait_for_lock : ℕ → Program Bool
  | 0 => pure false
  | polls + 1 => do
    let status ← read_pll
    if status &&& 0x02 ≠ 0 then pure true else wait_for_lock polls

/-- None when the PLL has not locked in the polls. -/
def set_sample_rate (polls : ℕ) (sample_rate : Int) : Program (Option Int) :=
  match find_divisors sample_rate with
  | none => pure (some (-1))
  | some d => do
    let _ ← write_pll d.words
    let _ ← write_pll d.words_on
    let locked ← wait_for_lock polls
    pure (if locked then some 0 else none)

def set_volume (volume : Byte) : Program Int := do
  let data ← read_one ADAU1761_REG_PLAYBACK_HEADPHONE_LEFT_VOL_CONTROL
  let _ ← write_one ADAU1761_REG_PLAYBACK_HEADPHONE_LEFT_VOL_CONTROL (with_volume volume data)
  let data ← read_one ADAU1761_REG_PLAYBACK_HEADPHONE_RIGHT_VOL_CONTROL
  let _ ← write_one ADAU1761_REG_PLAYBACK_HEADPHONE_RIGHT_VOL_CONTROL (with_volume volume data)
  pure 0

/-- What is written between the sample rate and the volume, in this order. -/
def setup : List (BitVec 16 × Byte) :=
  [(ADAU1761_REG_CLOCK_CONTROL, 0x0F),
   (ADAU1761_REG_CLOCK_ENABLE_0, 0x4B),
   (ADAU1761_REG_CLOCK_ENABLE_1, 0x03),
   (ADAU1761_REG_SERIAL_PORT_0, 0x01),
   (ADAU1761_REG_PLAYBACK_MONO_OUTPUT_CONTROL, 0x00),
   (ADAU1761_REG_SERIAL_INPUT_ROUTE_CONTROL, 0x01),
   (ADAU1761_REG_PLAYBACK_POWER_MANAGEMENT, 0x03),
   (ADAU1761_REG_DAC_CONTROL_0, 0x03),
   (ADAU1761_REG_PLAY_MIXER_LEFT_0, 0x21),
   (ADAU1761_REG_PLAY_MIXER_RIGHT_0, 0x41),
   (ADAU1761_REG_PLAYBACK_HEADPHONE_LEFT_VOL_CONTROL, 0x03),
   (ADAU1761_REG_PLAYBACK_HEADPHONE_RIGHT_VOL_CONTROL, 0x03)]

def write_all : List (BitVec 16 × Byte) → Program Unit
  | [] => pure ()
  | (addr, data) :: rs => do
    let _ ← write_one addr data
    write_all rs

def init_codec (polls : ℕ) (sample_rate : Int) (volume : Byte) : Program (Option Int) := do
  -- three reads switch the codec from I2C to SPI
  let _ ← read_one ADAU1761_REG_CLOCK_CONTROL
  let _ ← read_one ADAU1761_REG_CLOCK_CONTROL
  let _ ← read_one ADAU1761_REG_CLOCK_CONTROL
  match ← set_sample_rate polls sample_rate with
  | none => pure none
  | some ret =>
    if ret ≠ 0 then pure (some (-1))
    else do
      write_all setup
      let _ ← set_volume volume
      pure (some 0)

/-! ## The codec -/

/-- The codec at the end of the line. -/
structure Codec where
  registers : Registers
  /-- the packets so far -/
  packets : ℕ
  /-- the bytes of the packet that is on the line -/
  frame : List Byte

/-- The register of the byte number `i` of a packet. -/
def register (hi lo : Byte) (i : ℕ) : BitVec 16 := hi ++ lo + .ofNat 16 i

/-- What is read from a register. A bit of the last one of the PLL tells whether it is locked. -/
def Codec.value (c : Codec) (locked : Bool) (addr : BitVec 16) : Byte :=
  if addr = ADAU1761_REG_PLL_CONTROL + 5 then
    (c.registers addr &&& 0xFD) ||| (if locked then 0x02 else 0)
  else c.registers addr

/-- The codec listens from the fourth packet on, and the PLL is locked during the packets `lock`. -/
def codec (lock : ℕ → Bool) : Slave Codec where
  out c :=
    match c.frame with
    | chip :: hi :: lo :: rest =>
      if 3 ≤ c.packets ∧ chip.getLsbD 0 = true then
        c.value (lock c.packets) (register hi lo rest.length)
      else 0
    | _ => 0
  take c w :=
    let registers :=
      match c.frame with
      | chip :: hi :: lo :: rest =>
        if 3 ≤ c.packets ∧ chip.getLsbD 0 = false then
          Function.update c.registers (register hi lo rest.length) w.1
        else c.registers
      | _ => c.registers
    if w.2 then ⟨registers, c.packets + 1, []⟩ else ⟨registers, c.packets, c.frame ++ [w.1]⟩

/-! ## One command -/

theorem register_of_header (addr : BitVec 16) (i : ℕ) :
    register (((addr >>> 8).setWidth 32 &&& 0xFF).setWidth 8)
      ((addr.setWidth 32 &&& 0xFF).setWidth 8) i = addr + .ofNat 16 i := by
  have haddr : ((addr >>> 8).setWidth 32).extractLsb' 0 8 ++
      (addr.setWidth 32).extractLsb' 0 8 = addr := by
    ext j hj
    have hbit : addr.getLsbD j = addr[j] := BitVec.getLsbD_eq_getElem hj
    rw [BitVec.getElem_append]
    split_ifs with hlow
    · simp [hbit, show j < 32 by omega]
    · have hplace : 8 + (j - 8) = j := by omega
      simp [hplace, hbit, show j < 32 by omega]
  unfold register
  rw [low_byte, low_byte, haddr]

theorem register_succ (hi lo : Byte) (i : ℕ) : register hi lo (i + 1) = register hi lo i + 1 := by
  unfold register
  rw [BitVec.ofNat_add, ← BitVec.add_assoc]
  rfl

/-- The bytes in the registers one after the other. -/
def store (registers : Registers) (addr : BitVec 16) : List Byte → Registers
  | [] => registers
  | b :: bs => store (Function.update registers addr b) (addr + 1) bs

/-- What the bytes behind the header leave in the registers. -/
def Codec.stored (c : Codec) (chip : Byte) (addr : BitVec 16) (bs : List Byte) : Registers :=
  if 3 ≤ c.packets ∧ chip.getLsbD 0 = false then store c.registers addr bs else c.registers

variable (lock : ℕ → Bool)

theorem takes_inside {c : Codec} {chip hi lo : Byte} {t : List Byte}
    (hc : c.frame = chip :: hi :: lo :: t) (bs : List Byte) :
    (codec lock).takes c (bs.map fun b => (b, false)) =
      ⟨c.stored chip (register hi lo t.length) bs, c.packets, c.frame ++ bs⟩ := by
  induction bs generalizing c t with
  | nil => simp [Slave.takes, Codec.stored, store]
  | cons b bs ih =>
    have htake : (codec lock).take c (b, false) =
        ⟨c.stored chip (register hi lo t.length) [b], c.packets, c.frame ++ [b]⟩ := by
      simp only [codec, hc, Codec.stored, store, Bool.false_eq_true, if_false]
    have hrest := ih (c := (codec lock).take c (b, false)) (t := t ++ [b])
      (by rw [htake, hc]; rfl)
    rw [List.map_cons]
    refine hrest.trans ?_
    rw [htake, List.length_append, List.length_singleton, register_succ]
    simp only [Codec.stored, store, List.append_assoc, List.singleton_append]
    split_ifs <;> rfl

theorem frame_eq {ws : List FifoWord} {bs : List Byte} {b : Byte} (h : low_bytes ws = bs ++ [b]) :
    frame ws = bs.map (fun b => (b, false)) ++ [(b, true)] := by
  induction ws generalizing bs with
  | nil => simp [low_bytes] at h
  | cons w ws ih =>
    cases bs with
    | nil =>
      obtain ⟨rfl, hnil⟩ := List.cons_eq_cons.mp h
      obtain rfl : ws = [] := List.map_eq_nil_iff.mp hnil
      rfl
    | cons b' bs =>
      obtain ⟨rfl, hrest⟩ := List.cons_eq_cons.mp h
      have hne : ws.isEmpty = false := by
        cases ws with
        | nil => simp at hrest
        | cons => rfl
      rw [frame, ih hrest, hne]
      rfl

/-- A packet from its header to its last byte. -/
theorem exchange_eq {q : Request} {chip hi lo b : Byte} {bs : List Byte}
    (hq : low_bytes q.words = chip :: hi :: lo :: (bs ++ [b])) (r : Registers) (k : ℕ) :
    (codec lock).exchange q ⟨r, k, []⟩ =
      (if 3 ≤ k ∧ chip.getLsbD 0 = true then
          Codec.value ⟨r, k, []⟩ (lock k) (register hi lo bs.length) else 0,
        ⟨Codec.stored ⟨r, k, []⟩ chip (register hi lo 0) (bs ++ [b]), k + 1, []⟩) := by
  have hframe : frame q.words = (chip :: hi :: lo :: bs).map (fun b => (b, false)) ++ [(b, true)] :=
    frame_eq hq
  have hinside : ∀ bs, (codec lock).takes ⟨r, k, []⟩
      ((chip :: hi :: lo :: bs).map fun b => (b, false)) =
        ⟨Codec.stored ⟨r, k, []⟩ chip (register hi lo 0) bs, k, chip :: hi :: lo :: bs⟩ :=
    fun bs => takes_inside lock (c := ⟨r, k, [chip, hi, lo]⟩) rfl bs
  -- the registers are the same when the last byte is no last one
  have hlast : ((codec lock).take
      ⟨Codec.stored ⟨r, k, []⟩ chip (register hi lo 0) bs, k, chip :: hi :: lo :: bs⟩
        (b, true)).registers = Codec.stored ⟨r, k, []⟩ chip (register hi lo 0) (bs ++ [b]) := by
    have hall := hinside (bs ++ [b])
    rw [show chip :: hi :: lo :: (bs ++ [b]) = (chip :: hi :: lo :: bs) ++ [b] from rfl,
      List.map_append, Slave.takes_append, hinside] at hall
    exact congrArg Codec.registers hall
  unfold Slave.exchange
  simp only [hframe, List.dropLast_concat, Slave.takes_append, hinside]
  refine Prod.ext ?_ (congrArg (fun r => Codec.mk r (k + 1) []) hlast)
  by_cases hread : 3 ≤ k ∧ chip.getLsbD 0 = true
  · have hkeep : Codec.stored ⟨r, k, []⟩ chip (register hi lo 0) bs = r :=
      if_neg (by simp [hread.2])
    rw [if_pos hread, hkeep]
    exact if_pos hread
  · rw [if_neg hread]
    exact if_neg hread

theorem low_bytes_header (addr : BitVec 16) (is_read : Bool) (ws : List FifoWord) :
    low_bytes (header addr 0 is_read ++ ws) =
      (if is_read then (1 : Byte) else 0) :: (((addr >>> 8).setWidth 32 &&& 0xFF).setWidth 8 : Byte) ::
        ((addr.setWidth 32 &&& 0xFF).setWidth 8 : Byte) :: low_bytes ws := by
  cases is_read <;> rfl

theorem exchange_read (addr : BitVec 16) (data_len : ℕ) (fits : 4 * (data_len + 1 + 3) < 2 ^ 32)
    (r : Registers) (k : ℕ) :
    (codec lock).exchange ⟨addr, data_len + 1, none, fits⟩ ⟨r, k, []⟩ =
      (if 3 ≤ k then Codec.value ⟨r, k, []⟩ (lock k) (addr + .ofNat 16 data_len) else 0,
        ⟨r, k + 1, []⟩) := by
  have hbody : low_bytes (List.replicate (data_len + 1) 0) = List.replicate data_len 0 ++ [0] := by
    unfold low_bytes
    rw [List.map_replicate, List.replicate_succ']
    rfl
  have hwords : low_bytes (Request.words ⟨addr, data_len + 1, none, fits⟩) = _ :=
    (low_bytes_header addr true _).trans (by rw [hbody])
  rw [exchange_eq lock hwords, List.length_replicate, register_of_header, Codec.stored]
  simp

theorem exchange_write (addr : BitVec 16) {data : List Byte} {data_len : ℕ}
    (fits : 4 * (data_len + 1 + 3) < 2 ^ 32) {bs : List Byte}
    (hbs : low_bytes ((List.range (data_len + 1)).map (swapped data (data_len + 1))) = bs)
    (r : Registers) {k : ℕ} (hk : 3 ≤ k) :
    ((codec lock).exchange ⟨addr, data_len + 1, some data, fits⟩ ⟨r, k, []⟩).2 =
      ⟨store r addr bs, k + 1, []⟩ := by
  have hswap : Request.words ⟨addr, data_len + 1, some data, fits⟩ =
      header addr 0 false ++ (List.range (data_len + 1)).map (swapped data (data_len + 1)) :=
    swap_endianness_spec data (data_len + 1) _ (header_length ..)
  obtain rfl | ⟨bs, b, rfl⟩ := List.eq_nil_or_concat' bs
  · simp [low_bytes] at hbs
  · have hwords : low_bytes (Request.words ⟨addr, data_len + 1, some data, fits⟩) = _ :=
      (congrArg low_bytes hswap).trans ((low_bytes_header ..).trans (by rw [hbs]))
    rw [exchange_eq lock hwords, register_of_header, register_of_header, Codec.stored]
    simp [hk]

theorem eval_read_one (addr : BitVec 16) (r : Registers) (k : ℕ) :
    (read_one addr).eval (codec lock).exchange ⟨r, k, []⟩ =
      (if 3 ≤ k then Codec.value ⟨r, k, []⟩ (lock k) addr else 0, ⟨r, k + 1, []⟩) := by
  have heq := exchange_read lock addr 0 (of_decide_eq_true rfl) r k
  rw [show addr + BitVec.ofNat 16 0 = addr from BitVec.add_zero addr] at heq
  rw [read_one, Dialog.eval_request]
  exact heq

theorem eval_write_one (addr : BitVec 16) (data : Byte) (r : Registers) {k : ℕ} (hk : 3 ≤ k) :
    ((write_one addr data).eval (codec lock).exchange ⟨r, k, []⟩).2 =
      ⟨Function.update r addr data, k + 1, []⟩ := by
  have hone : low_bytes ((List.range 1).map (swapped [data] 1)) = [data] := by
    have hdata : (data.setWidth 32).setWidth 8 = data := by
      rw [BitVec.setWidth_setWidth_of_le _ (by decide), BitVec.setWidth_eq]
    exact congrArg (fun b => [b]) hdata
  rw [write_one, Dialog.eval_request]
  exact exchange_write lock addr (of_decide_eq_true rfl) hone r hk

theorem eval_read_pll (r : Registers) {k : ℕ} (hk : 3 ≤ k) :
    read_pll.eval (codec lock).exchange ⟨r, k, []⟩ =
      (Codec.value ⟨r, k, []⟩ (lock k) (ADAU1761_REG_PLL_CONTROL + 5), ⟨r, k + 1, []⟩) := by
  have heq := exchange_read lock ADAU1761_REG_PLL_CONTROL 5 (of_decide_eq_true rfl) r k
  rw [if_pos hk] at heq
  rw [read_pll, Dialog.eval_request]
  exact heq

/-- The bytes that come to the registers of the PLL. -/
def pll_bytes (ws : List (BitVec 16)) : List Byte :=
  low_bytes ((List.range 6).map (swapped (stored ws) 6))

theorem eval_write_pll (ws : List (BitVec 16)) (r : Registers) {k : ℕ} (hk : 3 ≤ k) :
    ((write_pll ws).eval (codec lock).exchange ⟨r, k, []⟩).2 =
      ⟨store r ADAU1761_REG_PLL_CONTROL (pll_bytes ws), k + 1, []⟩ := by
  have hbytes : low_bytes ((List.range (5 + 1)).map (swapped (stored ws) (5 + 1))) = pll_bytes ws :=
    rfl
  rw [write_pll, Dialog.eval_request]
  exact exchange_write lock ADAU1761_REG_PLL_CONTROL (of_decide_eq_true rfl) hbytes r hk

/-! ## The registers -/

theorem store_other {addr addr' : BitVec 16} {bs : List Byte} (r : Registers)
    (h : ∀ i, i < bs.length → addr' ≠ addr + .ofNat 16 i) : store r addr bs addr' = r addr' := by
  induction bs generalizing r addr with
  | nil => rfl
  | cons b bs ih =>
    have hne : addr' ≠ addr := by
      have h0 := h 0 (Nat.zero_lt_succ _)
      rwa [show addr + BitVec.ofNat 16 0 = addr from BitVec.add_zero addr] at h0
    rw [store, ih, Function.update_of_ne hne]
    intro i hi heq
    refine h (i + 1) (Nat.succ_lt_succ hi) ?_
    rw [heq, BitVec.ofNat_add, BitVec.add_assoc, BitVec.add_comm 1]
    rfl

theorem store_at {addr : BitVec 16} {bs : List Byte} (r : Registers) (hlen : bs.length ≤ 2 ^ 16)
    {i : ℕ} (hi : i < bs.length) : store r addr bs (addr + .ofNat 16 i) = bs[i] := by
  induction bs generalizing r addr i with
  | nil => cases hi
  | cons b bs ih =>
    rw [List.length_cons] at hlen
    cases i with
    | zero =>
      rw [store, show addr + BitVec.ofNat 16 0 = addr from BitVec.add_zero addr, store_other,
        Function.update_self]
      · rfl
      · intro j hj heq
        have hval := congrArg BitVec.toNat heq
        have hone : (1 : BitVec 16).toNat = 1 := rfl
        simp only [BitVec.toNat_add, BitVec.toNat_ofNat, hone] at hval
        have haddr := addr.isLt
        omega
    | succ i =>
      have hlt : i < bs.length := Nat.lt_of_succ_lt_succ hi
      have hnext : store (Function.update r addr b) (addr + 1) bs (addr + 1 + .ofNat 16 i) = bs[i] :=
        ih _ (by omega) hlt
      rw [BitVec.add_assoc, BitVec.add_comm 1] at hnext
      rw [store, BitVec.ofNat_add]
      exact hnext

/-- All of the writes. -/
def written (r : Registers) (es : List (BitVec 16 × Byte)) : Registers :=
  es.foldl (fun r e => Function.update r e.1 e.2) r

theorem written_other {es : List (BitVec 16 × Byte)} {addr : BitVec 16} (r : Registers)
    (h : addr ∉ es.map Prod.fst) : written r es addr = r addr := by
  induction es generalizing r with
  | nil => rfl
  | cons e es ih =>
    rw [List.map_cons, List.mem_cons, not_or] at h
    exact (ih (Function.update r e.1 e.2) h.2).trans (Function.update_of_ne h.1 ..)

theorem written_at {es : List (BitVec 16 × Byte)} {e : BitVec 16 × Byte} (r : Registers)
    (hnodup : (es.map Prod.fst).Nodup) (he : e ∈ es) : written r es e.1 = e.2 := by
  induction es generalizing r with
  | nil => cases he
  | cons e' es ih =>
    rw [List.map_cons, List.nodup_cons] at hnodup
    rcases List.mem_cons.mp he with rfl | he
    · exact (written_other (Function.update r e.1 e.2) hnodup.1).trans (Function.update_self ..)
    · exact ih (Function.update r e'.1 e'.2) hnodup.2 he

/-! ## The programs -/

/-- The bit of the status byte. -/
theorem status_iff (b : Byte) (locked : Bool) :
    ((b &&& 0xFD) ||| (if locked then 0x02 else 0)) &&& 0x02 ≠ 0 ↔ locked = true := by
  cases locked <;> revert b <;> decide

theorem eval_wait_for_lock (polls : ℕ) (r : Registers) {k : ℕ} (hk : 3 ≤ k) :
    (((wait_for_lock polls).eval (codec lock).exchange ⟨r, k, []⟩).1 = true ↔
      ∃ i, i < polls ∧ lock (k + i) = true) ∧
    ∃ k', 3 ≤ k' ∧ ((wait_for_lock polls).eval (codec lock).exchange ⟨r, k, []⟩).2 = ⟨r, k', []⟩ := by
  induction polls generalizing k with
  | zero => exact ⟨by simp [wait_for_lock, Dialog.eval_pure], k, hk, rfl⟩
  | succ polls ih =>
    rw [wait_for_lock, Dialog.eval_bind, eval_read_pll lock r hk]
    have hstatus : Codec.value ⟨r, k, []⟩ (lock k) (ADAU1761_REG_PLL_CONTROL + 5) &&& 0x02 ≠ 0 ↔
        lock k = true := status_iff _ _
    by_cases hl : lock k = true
    · rw [if_pos (hstatus.mpr hl), Dialog.eval_pure]
      exact ⟨⟨fun _ => ⟨0, Nat.zero_lt_succ _, hl⟩, fun _ => rfl⟩, k + 1, by omega, rfl⟩
    · rw [if_neg (mt hstatus.mp hl)]
      obtain ⟨hiff, hstate⟩ := ih (k := k + 1) (by omega)
      refine ⟨hiff.trans ⟨?_, ?_⟩, hstate⟩
      · rintro ⟨i, hi, hlock⟩
        exact ⟨i + 1, by omega, by rwa [← Nat.add_assoc, Nat.add_right_comm]⟩
      · rintro ⟨i, hi, hlock⟩
        cases i with
        | zero => exact absurd hlock hl
        | succ i => exact ⟨i, by omega, by rwa [Nat.add_right_comm, Nat.add_assoc]⟩

theorem eval_write_all (es : List (BitVec 16 × Byte)) (r : Registers) {k : ℕ} (hk : 3 ≤ k) :
    ((write_all es).eval (codec lock).exchange ⟨r, k, []⟩).2 =
      ⟨written r es, k + es.length, []⟩ := by
  induction es generalizing r k with
  | nil => rfl
  | cons e es ih =>
    rw [write_all, Dialog.eval_bind, eval_write_one lock e.1 e.2 r hk, ih _ (by omega)]
    rw [List.length_cons, Nat.add_assoc, Nat.add_comm 1]
    rfl

theorem eval_set_volume (volume : Byte) (r : Registers) {k : ℕ} (hk : 3 ≤ k) :
    ((set_volume volume).eval (codec lock).exchange ⟨r, k, []⟩).2 =
      ⟨written r [(ADAU1761_REG_PLAYBACK_HEADPHONE_LEFT_VOL_CONTROL,
          with_volume volume (r ADAU1761_REG_PLAYBACK_HEADPHONE_LEFT_VOL_CONTROL)),
        (ADAU1761_REG_PLAYBACK_HEADPHONE_RIGHT_VOL_CONTROL,
          with_volume volume (r ADAU1761_REG_PLAYBACK_HEADPHONE_RIGHT_VOL_CONTROL))],
        k + 4, []⟩ := by
  have hvalue : ∀ (r : Registers) (k : ℕ) (addr : BitVec 16), addr ≠ ADAU1761_REG_PLL_CONTROL + 5 →
      Codec.value ⟨r, k, []⟩ (lock k) addr = r addr := fun r k addr hne => if_neg hne
  have hright : Function.update r ADAU1761_REG_PLAYBACK_HEADPHONE_LEFT_VOL_CONTROL
      (with_volume volume (r ADAU1761_REG_PLAYBACK_HEADPHONE_LEFT_VOL_CONTROL))
      ADAU1761_REG_PLAYBACK_HEADPHONE_RIGHT_VOL_CONTROL =
        r ADAU1761_REG_PLAYBACK_HEADPHONE_RIGHT_VOL_CONTROL :=
    Function.update_of_ne (by decide) ..
  rw [set_volume, Dialog.eval_bind, eval_read_one, if_pos hk, hvalue _ _ _ (by decide),
    Dialog.eval_bind, eval_write_one lock _ _ _ (by omega), Dialog.eval_bind, eval_read_one,
    if_pos (by omega), hvalue _ _ _ (by decide), hright, Dialog.eval_bind,
    eval_write_one lock _ _ _ (by omega), Dialog.eval_pure]
  rfl

/-- None of the registers of the PLL. -/
def OutsidePll (addr : BitVec 16) : Prop :=
  ∀ i, i < 6 → addr ≠ ADAU1761_REG_PLL_CONTROL + .ofNat 16 i

/-- The registers of the PLL after its two commands. -/
def pll_written (d : PllDivisors) (r : Registers) : Registers :=
  store (store r ADAU1761_REG_PLL_CONTROL (pll_bytes d.words)) ADAU1761_REG_PLL_CONTROL
    (pll_bytes d.words_on)

theorem length_pll_bytes (ws : List (BitVec 16)) : (pll_bytes ws).length = 6 := by
  simp [pll_bytes, low_bytes]

theorem pll_written_other {addr : BitVec 16} (h : OutsidePll addr) (d : PllDivisors)
    (r : Registers) : pll_written d r addr = r addr := by
  have hother : ∀ (ws : List (BitVec 16)) (r : Registers),
      store r ADAU1761_REG_PLL_CONTROL (pll_bytes ws) addr = r addr := fun ws r =>
    store_other r (by rwa [length_pll_bytes])
  unfold pll_written
  rw [hother, hother]

theorem eval_set_sample_rate {sample_rate : Int} {d : PllDivisors}
    (hd : find_divisors sample_rate = some d) (polls : ℕ) (r : Registers) {k : ℕ} (hk : 3 ≤ k) :
    let e := (set_sample_rate polls sample_rate).eval (codec lock).exchange ⟨r, k, []⟩
    (e.1 = some 0 ∧ (∃ i, i < polls ∧ lock (k + 2 + i) = true) ∨
        e.1 = none ∧ ¬ ∃ i, i < polls ∧ lock (k + 2 + i) = true) ∧
      ∃ k', 3 ≤ k' ∧ e.2 = ⟨pll_written d r, k', []⟩ := by
  intro e
  obtain ⟨hiff, k', hk', hstate⟩ :=
    eval_wait_for_lock lock polls (pll_written d r) (show 3 ≤ k + 2 by omega)
  have he : e = (if ((wait_for_lock polls).eval (codec lock).exchange
      ⟨pll_written d r, k + 2, []⟩).1 then some 0 else none, ⟨pll_written d r, k', []⟩) := by
    rw [← hstate]
    simp only [e, set_sample_rate, hd]
    rw [Dialog.eval_bind, eval_write_pll lock _ _ hk, Dialog.eval_bind,
      eval_write_pll lock _ _ (by omega), Dialog.eval_bind, Dialog.eval_pure]
    rfl
  rw [he, ← hiff]
  refine ⟨?_, k', hk', rfl⟩
  cases ((wait_for_lock polls).eval (codec lock).exchange ⟨pll_written d r, k + 2, []⟩).1 with
  | true => exact .inl ⟨rfl, rfl⟩
  | false => exact .inr ⟨rfl, Bool.false_ne_true⟩

/-! ## The whole setup -/

/-- What the setup leaves in the registers `r`. -/
structure SetUp (d : PllDivisors) (volume : Byte) (r r' : Registers) : Prop where
  setup : ∀ e ∈ setup, e.1 ≠ ADAU1761_REG_PLAYBACK_HEADPHONE_LEFT_VOL_CONTROL →
    e.1 ≠ ADAU1761_REG_PLAYBACK_HEADPHONE_RIGHT_VOL_CONTROL → r' e.1 = e.2
  left : r' ADAU1761_REG_PLAYBACK_HEADPHONE_LEFT_VOL_CONTROL = with_volume volume 0x03
  right : r' ADAU1761_REG_PLAYBACK_HEADPHONE_RIGHT_VOL_CONTROL = with_volume volume 0x03
  pll : ∀ i, i < 6 → r' (ADAU1761_REG_PLL_CONTROL + .ofNat 16 i) = (pll_bytes d.words_on).getD i 0
  others : ∀ addr, addr ∉ codec_setup.setup.map Prod.fst → OutsidePll addr → r' addr = r addr

/-- What `init_codec` returns, and what it leaves in the registers `r`. -/
def Initialised (lock : ℕ → Bool) (polls : ℕ) (sample_rate : Int) (volume : Byte)
    (r : Registers) (ret : Option Int) (r' : Registers) : Prop :=
  match find_divisors sample_rate with
  | none => ret = some (-1) ∧ r' = r
  | some d =>
    (ret = some 0 ↔ ∃ i, i < polls ∧ lock (5 + i) = true) ∧
      (ret = some 0 → SetUp d volume r r') ∧
      (ret ≠ some 0 → ret = none ∧ ∀ addr, OutsidePll addr → r' addr = r addr)

theorem setup_nodup : (setup.map Prod.fst).Nodup := by decide

/-- No register of the setup is one of the PLL. -/
theorem setup_outside {addr : BitVec 16} (h : addr ∈ setup.map Prod.fst) : OutsidePll addr := by
  have hall : ∀ e ∈ setup, ∀ i, i < 6 → e.1 ≠ ADAU1761_REG_PLL_CONTROL + .ofNat 16 i :=
    List.forall_iff_forall_mem.mp (by decide)
  obtain ⟨e, he, rfl⟩ := List.mem_map.mp h
  exact hall e he

theorem volumes_nodup : [ADAU1761_REG_PLAYBACK_HEADPHONE_LEFT_VOL_CONTROL,
    ADAU1761_REG_PLAYBACK_HEADPHONE_RIGHT_VOL_CONTROL].Nodup := by decide

theorem volumes_in_setup {addr : BitVec 16}
    (h : addr ∈ [ADAU1761_REG_PLAYBACK_HEADPHONE_LEFT_VOL_CONTROL,
      ADAU1761_REG_PLAYBACK_HEADPHONE_RIGHT_VOL_CONTROL]) : addr ∈ setup.map Prod.fst := by
  rcases List.mem_pair.mp h with rfl | rfl <;> decide

theorem setUp_of_written (d : PllDivisors) (volume : Byte) (r : Registers) :
    let w := written (pll_written d r) setup
    SetUp d volume r (written w [(ADAU1761_REG_PLAYBACK_HEADPHONE_LEFT_VOL_CONTROL,
        with_volume volume (w ADAU1761_REG_PLAYBACK_HEADPHONE_LEFT_VOL_CONTROL)),
      (ADAU1761_REG_PLAYBACK_HEADPHONE_RIGHT_VOL_CONTROL,
        with_volume volume (w ADAU1761_REG_PLAYBACK_HEADPHONE_RIGHT_VOL_CONTROL))]) := by
  intro w
  have hw : ∀ e ∈ setup, w e.1 = e.2 := fun e he => written_at _ setup_nodup he
  have hother : ∀ addr, addr ∉ setup.map Prod.fst → w addr = pll_written d r addr :=
    fun addr h => written_other _ h
  have hleft : w ADAU1761_REG_PLAYBACK_HEADPHONE_LEFT_VOL_CONTROL = 0x03 :=
    hw (ADAU1761_REG_PLAYBACK_HEADPHONE_LEFT_VOL_CONTROL, 0x03) (by decide)
  have hright : w ADAU1761_REG_PLAYBACK_HEADPHONE_RIGHT_VOL_CONTROL = 0x03 :=
    hw (ADAU1761_REG_PLAYBACK_HEADPHONE_RIGHT_VOL_CONTROL, 0x03) (by decide)
  rw [hleft, hright]
  constructor
  · intro e he hl hr
    rw [written_other _ (by simp [hl, hr]), hw e he]
  · refine written_at (e := (ADAU1761_REG_PLAYBACK_HEADPHONE_LEFT_VOL_CONTROL, _)) w ?_
      (List.mem_cons_self ..)
    exact volumes_nodup
  · refine written_at (e := (ADAU1761_REG_PLAYBACK_HEADPHONE_RIGHT_VOL_CONTROL, _)) w ?_
      (List.mem_cons_of_mem _ (List.mem_singleton_self _))
    exact volumes_nodup
  · intro i hi
    have hout : ADAU1761_REG_PLL_CONTROL + BitVec.ofNat 16 i ∉ setup.map Prod.fst := fun h =>
      setup_outside h i hi rfl
    have hlt : i < (pll_bytes d.words_on).length := by rwa [length_pll_bytes]
    rw [written_other _ fun h => hout (volumes_in_setup h), hother _ hout, pll_written,
      store_at _ (by simp [length_pll_bytes]) hlt]
    simp [hlt]
  · intro addr hout hpll
    rw [written_other _ fun h => hout (volumes_in_setup h), hother _ hout,
      pll_written_other hpll]

theorem eval_init_codec (polls : ℕ) (sample_rate : Int) (volume : Byte) (r : Registers) :
    Initialised lock polls sample_rate volume r
      ((init_codec polls sample_rate volume).eval (codec lock).exchange ⟨r, 0, []⟩).1
      ((init_codec polls sample_rate volume).eval (codec lock).exchange ⟨r, 0, []⟩).2.registers := by
  unfold init_codec
  rw [Dialog.eval_bind, eval_read_one, Dialog.eval_bind, eval_read_one, Dialog.eval_bind,
    eval_read_one, Dialog.eval_bind]
  unfold Initialised
  cases hd : find_divisors sample_rate with
  | none =>
    have hrate : set_sample_rate polls sample_rate = pure (some (-1)) := by
      unfold set_sample_rate
      rw [hd]
    rw [hrate]
    exact ⟨rfl, rfl⟩
  | some d =>
    obtain ⟨hret, k, hk, hstate⟩ := eval_set_sample_rate lock hd polls r (Nat.le_refl 3)
    rw [hstate]
    rcases hret with ⟨hret, hlock⟩ | ⟨hret, hlock⟩
    · have hsetup := setUp_of_written d volume r
      rw [hret]
      simp only [ne_eq, not_true_eq_false, if_false]
      rw [Dialog.eval_bind, eval_write_all lock _ _ hk, Dialog.eval_bind,
        eval_set_volume lock _ _ (by omega), Dialog.eval_pure]
      exact ⟨iff_of_true rfl hlock, fun _ => hsetup, fun h => absurd rfl h⟩
    · rw [hret]
      refine ⟨iff_of_false ?_ hlock, ?_, fun _ => ⟨rfl, fun addr h => pll_written_other h d r⟩⟩
      · intro h
        cases h
      · intro h
        cases h

/-! ## Over the line -/

/-- What the codec puts out while the PLL and the volumes are read. -/
def setup_core : Core Echo := Echo.core fun p =>
  let ws := memory_words.words p
  if ws.take 3 = header ADAU1761_REG_PLL_CONTROL 0 true then
    [0x00, 0x00, 0x00, 0x06, 0x00, 0x04, 0x00, 0x19, 0x1B]
  else if ws.take 3 = header ADAU1761_REG_PLAYBACK_HEADPHONE_LEFT_VOL_CONTROL 0 true ∨
      ws.take 3 = header ADAU1761_REG_PLAYBACK_HEADPHONE_RIGHT_VOL_CONTROL 0 true then
    [0x00, 0x00, 0x00, 0x03]
  else ws.map fun _ => 0

/-- The PLL is locked during the packet that reads it. -/
def locked_codec : Slave Codec := codec fun k => k == 5

def setup_link : Link Echo :=
  ((init_codec 1 48000 32).run (link setup_core all_good) (.start (.of_depth 508) Echo.empty)).2.2

def blank : Codec := ⟨fun _ => 0, 0, []⟩

def setup_frames : List (Byte × Bool) := frames setup_link.core.view

theorem setup_well : ∀ e ∈ setup_link.log, WentWell e := by
  simp only [wentWell_iff]
  decide +kernel

theorem setup_last : setup_frames.getLast?.map Prod.snd = some true := by decide +kernel

theorem setup_packets : setup_link.core.view.arrived.map (·.getD 0 0) =
    locked_codec.outs blank setup_frames := by decide +kernel

theorem setup_lengths : ∀ p ∈ setup_link.core.view.arrived, p.length = 4 := by decide +kernel

theorem setup_words : setup_frames.length = (words_of (commands setup_link.log)).length := by
  decide +kernel

/-- When all words of `init_codec` are on the line, and its commands went well over the driver, the
core and the SPI master, then it has returned what `Initialised` tells, and the registers of the
codec hold it. -/
theorem the_codec_is_set_up {σ : Type} {C : Core σ} {view : σ → View} (hdoc : Documented C view)
    {ins : ℕ → Inputs master} {m : ℕ → Master master} (hrun : IsRun ins m) (f : Fifo) (x : σ)
    (hempty : Empty (view x)) (env : ℕ → Replies) (r : Registers) (polls : ℕ) (sample_rate : Int)
    (volume : Byte) (n : ℕ) :
    let e := (init_codec polls sample_rate volume).run (link C env) (.start f x)
    (∀ c ∈ e.2.2.log, WentWell c) → Framed ins m n (view e.2.2.core) →
      (codec lock).OnLine ⟨r, 0, []⟩ ins m n →
      (line ins m n).length = (words_of (commands e.2.2.log)).length →
        Initialised lock polls sample_rate volume r e.1
          ((codec lock).takes ⟨r, 0, []⟩ (line ins m n)).registers := by
  intro e hwell hframed hcodec hlen
  have hinit := eval_init_codec lock polls sample_rate volume r
  rw [eval_on_line hdoc hrun hempty hwell hframed hcodec hlen] at hinit
  dsimp only at hinit
  exact hinit

theorem the_codec_plays_48000 :
    let e := (init_codec 1 48000 32).run (link setup_core all_good)
      (.start (.of_depth 508) Echo.empty)
    e.1 = some 0 ∧ ∃ n, Initialised (fun k => k == 5) 1 48000 32 blank.registers e.1
      (locked_codec.takes blank (line (locked_codec.inputs blank setup_frames)
        (locked_codec.run blank setup_frames) n)).registers := by
  intro e
  obtain ⟨n, hline, hcodec, hframed⟩ :=
    locked_codec.framed_on_line blank setup_last setup_packets setup_lengths
  have hlen := congrArg List.length hline
  exact ⟨by decide +kernel, n, the_codec_is_set_up _ (Echo.documented _)
    (locked_codec.isRun blank setup_frames setup_last) (.of_depth 508) Echo.empty empty_echo
    all_good blank.registers 1 48000 32 n setup_well hframed hcodec (hlen.trans setup_words)⟩

end codec_setup
