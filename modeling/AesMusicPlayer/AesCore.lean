-- The registers of the AES peripheral `AXI_aes_core_v1_0`, one structure for
-- each Verilog module, and what a clock edge does to them. The block design
-- drives every clock of the peripheral from one net, and every reset too, so
-- an edge is an edge for all of them.
import Mathlib.Logic.Function.Basic
import AesMusicPlayer.Clocked

namespace aes_core

/-- A word of the 128-bit streams, keys and blocks. -/
abbrev Word := BitVec 128

/-- The values of a two-bit `state` register. -/
inductive Fsm
  | S0 | S1 | S2 | S3
  deriving DecidableEq, Repr

/-! ## The pulses -/

/-- A register and its copy of the cycle before. `S_AXI` makes the setup
request pulses from such a pair, and the top module the start pulses and the
key load pulse. -/
structure PulseGen where
  sig : Bool
  prev : Bool
  deriving DecidableEq, Repr

def PulseGen.clock (aresetn d : Bool) (p : PulseGen) : PulseGen :=
  if !aresetn then ⟨false, false⟩ else ⟨d, p.sig⟩

/-- `~prev & sig`: high for one cycle after `d` goes high. -/
def PulseGen.pulse (p : PulseGen) : Bool := !p.prev && p.sig

theorem PulseGen.clock_true (p : PulseGen) (d : Bool) : p.clock true d = ⟨d, p.sig⟩ := by
  simp [clock]

theorem PulseGen.pulse_clock (p : PulseGen) (d : Bool) :
    (p.clock true d).pulse = (!p.sig && d) := by
  simp [clock, pulse]

/-! ## The cipher core, `aes_cipher_top` -/

/-- The logic between the registers of `aes_cipher_top`: the key expander,
the first AddRoundKey, a round (`sa.._next`) and the last round. The laws
below hold for all such functions. -/
structure CipherRounds (Sa W : Type) where
  kld : Word → W
  next : W → W
  init : Word → W → Sa
  round : Sa → W → Sa
  last : Sa → W → Word

structure CipherTop (Sa W : Type) where
  dcnt : ℕ
  done : Bool
  ld_r : Bool
  text_in_r : Word
  text_out : Word
  sa : Sa
  w : W

/-- `dcnt` has four bits. It is loaded with 11 and stops at 0, so it never
wraps, and `!(|dcnt[3:1]) & dcnt[0]` says that it is 1. -/
def CipherTop.clock {Sa W : Type} (R : CipherRounds Sa W) (rst ld : Bool) (key text_in : Word)
    (c : CipherTop Sa W) : CipherTop Sa W where
  dcnt := if !rst then 0 else if ld then 11 else if c.dcnt ≠ 0 then c.dcnt - 1 else c.dcnt
  done := c.dcnt == 1 && !ld
  ld_r := ld
  text_in_r := if ld then text_in else c.text_in_r
  text_out := R.last c.sa c.w
  sa := if c.ld_r then R.init c.text_in_r c.w else R.round c.sa c.w
  w := if ld then R.kld key else R.next c.w

/-! ## The decipher core, `aes_inv_cipher_top` -/

/-- The logic between the registers of `aes_inv_cipher_top`. Its key expander
writes the round keys `wk` into the key buffer, and the rounds read them from
there. -/
structure InvCipherRounds (Sa W : Type) where
  kld : Word → W
  next : W → W
  wk : W → Word
  init : Word → Word → Sa
  round : Sa → Word → Sa
  last : Sa → Word → Word

structure InvCipherTop (Sa W : Type) where
  dcnt : ℕ
  go : Bool
  done : Bool
  ld_r : Bool
  text_in_r : Word
  text_out : Word
  sa : Sa
  w : Word
  expand : W
  kb : ℕ → Word
  kcnt : ℕ
  kdone : Bool
  kb_ld : Bool

/-- `dcnt` and `kcnt` have four bits. `kb` has the slots 0 to 10, and a write
to another slot is lost. -/
def InvCipherTop.clock {Sa W : Type} (R : InvCipherRounds Sa W) (rst kld ld : Bool)
    (key text_in : Word) (c : InvCipherTop Sa W) : InvCipherTop Sa W where
  dcnt := if !rst then 0 else if c.done then 0 else if ld then 1
    else if c.go then (c.dcnt + 1) % 16 else c.dcnt
  go := if !rst then false else if ld then true else if c.done then false else c.go
  done := c.dcnt == 11 && !ld
  ld_r := ld
  text_in_r := if ld then text_in else c.text_in_r
  text_out := R.last c.sa c.w
  sa := if c.ld_r then R.init c.text_in_r c.w else R.round c.sa c.w
  w := c.kb c.dcnt
  expand := if kld then R.kld key else R.next c.expand
  kb := if c.kb_ld && decide (c.kcnt ≤ 10) then Function.update c.kb c.kcnt (R.wk c.expand)
    else c.kb
  kcnt := if !rst then 10 else if kld then 10 else if c.kb_ld then (c.kcnt + 15) % 16 else c.kcnt
  kdone := c.kcnt == 0 && !kld
  kb_ld := if !rst then false else if kld then true else if c.kcnt = 0 then false else c.kb_ld

/-! ## The input state machines, `S_AXIS_cipher` and `S_AXIS_decipher` -/

/-- The inputs of an engine in one cycle. A write to the config register
gives the value that the AXI-Lite write leaves in it. -/
structure Inputs where
  tvalid : Bool
  tdata : Word
  tlast : Bool
  m_tready : Bool
  write : Option (BitVec 32)

structure SAxisCipher where
  tready : Bool
  data_valid : Bool
  data_last : Bool
  data : Word
  setup_done_reg : Bool
  key : Word
  cipher_discard_result : Bool
  state : Fsm

/-- `ctrl` is bit 0 of `cipher_ctrl_reg`, the setup request pulse. -/
def SAxisCipher.setup_needed (ctrl : Bool) (s : SAxisCipher) : Bool := ctrl || !s.setup_done_reg

def SAxisCipher.clock (aresetn ctrl finished busy : Bool) (i : Inputs) (s : SAxisCipher) :
    SAxisCipher :=
  if !aresetn then
    { s with tready := false, data_valid := false, data_last := false, setup_done_reg := true,
             key := 0, cipher_discard_result := false, state := .S0 }
  else match s.state with
  | .S0 =>
    let s' := { s with tready := s.setup_needed ctrl || !busy, data_valid := false,
                       data_last := false, cipher_discard_result := false, state := .S0 }
    if s.setup_needed ctrl then
      if i.tvalid then { s' with setup_done_reg := true, key := i.tdata }
      else { s' with setup_done_reg := false }
    else if !busy && i.tvalid then
      { s' with data := i.tdata, data_last := i.tlast, state := .S1 }
    else s'
  | .S1 =>
    let s' := { s with tready := s.setup_needed ctrl }
    if s.setup_needed ctrl then
      let s' := { s' with data_valid := false, cipher_discard_result := true }
      if !finished then { s' with setup_done_reg := false, tready := false, state := .S1 }
      else if i.tvalid then { s' with setup_done_reg := true, key := i.tdata, state := .S0 }
      else { s' with setup_done_reg := false, state := .S0 }
    else
      let s' := { s' with data_valid := true, cipher_discard_result := false }
      if !finished then { s' with state := .S1 } else { s' with state := .S0 }
  | _ =>
    { s with tready := false, data_valid := false, data_last := false, setup_done_reg := true,
             cipher_discard_result := false, state := .S0 }

structure SAxisDecipher where
  tready : Bool
  data_valid : Bool
  data_last : Bool
  data : Word
  key_valid : Bool
  setup_done_reg : Bool
  key : Word
  decipher_discard_result : Bool
  state : Fsm

/-- `ctrl` is bit 0 of `decipher_ctrl_reg`, the setup request pulse. -/
def SAxisDecipher.setup_needed (ctrl : Bool) (s : SAxisDecipher) : Bool :=
  ctrl || !s.setup_done_reg

/-- Unlike the cipher, the decipher has a state `S2`, in which it waits for
the key schedule. A setup request leaves no trace there. -/
def SAxisDecipher.clock (aresetn ctrl kdone finished busy : Bool) (i : Inputs)
    (s : SAxisDecipher) : SAxisDecipher :=
  if !aresetn then
    { s with tready := false, data_valid := false, data_last := false, setup_done_reg := true,
             key_valid := true, key := 0, decipher_discard_result := false, state := .S0 }
  else match s.state with
  | .S0 =>
    let s' := { s with tready := s.setup_needed ctrl || !busy, data_valid := false,
                       data_last := false, key_valid := true, decipher_discard_result := false,
                       state := .S0 }
    if s.setup_needed ctrl then
      if i.tvalid then
        { s' with setup_done_reg := true, key_valid := false, key := i.tdata, state := .S2 }
      else { s' with setup_done_reg := false }
    else if !busy && i.tvalid then
      { s' with data := i.tdata, data_last := i.tlast, state := .S1 }
    else s'
  | .S1 =>
    let s' := { s with tready := s.setup_needed ctrl, key_valid := true }
    if s.setup_needed ctrl then
      let s' := { s' with data_valid := false, decipher_discard_result := true }
      if !finished then { s' with setup_done_reg := false, tready := false, state := .S1 }
      else if i.tvalid then
        { s' with setup_done_reg := true, key_valid := false, key := i.tdata, state := .S2 }
      else { s' with setup_done_reg := false, state := .S0 }
    else
      let s' := { s' with data_valid := true, decipher_discard_result := false }
      if !finished then { s' with state := .S1 } else { s' with state := .S0 }
  | .S2 =>
    let s' := { s with tready := false, key_valid := false }
    if kdone then { s' with state := .S0, key_valid := true } else { s' with state := .S2 }
  | .S3 =>
    { s with tready := false, data_valid := false, data_last := false, setup_done_reg := true,
             decipher_discard_result := false, state := .S0 }

/-! ## The output state machine, `M_AXIS_cipher` and `M_AXIS_decipher` -/

structure MAxis where
  busy : Bool
  tvalid : Bool
  tdata : Word
  tlast : Bool
  state : Fsm

/-- The two modules have the same body. -/
def MAxis.clock (aresetn data_valid data_last : Bool) (data : Word) (tready : Bool) (m : MAxis) :
    MAxis :=
  if !aresetn then ⟨false, false, 0, false, .S0⟩
  else match m.state with
  | .S0 =>
    let m' := { m with tvalid := false, tlast := false, busy := !tready }
    if data_valid && tready then { m' with tdata := data, tlast := data_last, state := .S1 }
    else if data_valid then { m' with tdata := data, tlast := data_last, state := .S2 }
    else { m' with state := .S0 }
  | .S1 => { m with tvalid := true, busy := true, state := .S0 }
  | .S2 => { m with busy := true, state := if tready then .S1 else .S2 }
  | .S3 => ⟨false, false, 0, false, .S0⟩

end aes_core
