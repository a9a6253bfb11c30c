-- The I2S slave `I2S_slave_v1_0`: its registers, and what the edges of its two
-- clocks do to them. bclk is slower than S_AXIS_ACLK, so at most one edge of
-- bclk lies between two edges of S_AXIS_ACLK, and it is seen by its levels.
import AesMusicPlayer.Serial

open serial

namespace i2s_slave

/-- What stands on the inputs at an edge of S_AXIS_ACLK. -/
structure Inputs (W : ℕ) where
  bclk : Bool
  lrclk : Bool
  aresetn : Bool
  tvalid : Bool
  tdata : BitVec W

/-- The bits of `bclk_ctrl` and `lrclk_buff` are registers of their own. -/
structure Slave (W : ℕ) where
  bclk_ctrl_0 : Bool
  bclk_ctrl_1 : Bool
  lrclk_buff_0 : Bool
  lrclk_buff_1 : Bool
  busy : Bool
  data_buf : BitVec W
  tready : Bool

namespace Slave

variable {W : ℕ}

/-! ## The wires -/

def bclk_fall (s : Slave W) : Bool := s.bclk_ctrl_1 && !s.bclk_ctrl_0

/-- An edge of lrclk. -/
def lrclkp (s : Slave W) : Bool := s.lrclk_buff_1 ^^ s.lrclk_buff_0

/-- `lrclk_buff == 2'b01` -/
def lrclk_rise (s : Slave W) : Bool := !s.lrclk_buff_1 && s.lrclk_buff_0

/-- `data_buf` is declared with its first bit in front. -/
def sdata (s : Slave W) : Bool := s.data_buf.msb

/-- The slave is ready for a word: the condition that raises S_AXIS_TREADY. -/
def wants (s : Slave W) : Bool := s.lrclkp && !s.busy && !s.lrclk_rise

/-! ## One edge -/

def posedge_bclk (lrclk : Bool) (s : Slave W) : Slave W :=
  { s with lrclk_buff_1 := s.lrclk_buff_0, lrclk_buff_0 := lrclk }

def accepts (i : Inputs W) (s : Slave W) : Bool := s.tready && i.tvalid

/-- The three blocks of S_AXIS_ACLK. Each reads the registers `s`. -/
def posedge_aclk (i : Inputs W) (s : Slave W) : Slave W :=
  let s' := { s with bclk_ctrl_1 := s.bclk_ctrl_0, bclk_ctrl_0 := i.bclk }
  if !i.aresetn then { s' with busy := false, tready := false }
  else
    let s' := if s.accepts i then { s' with busy := true, data_buf := i.tdata } else s'
    let s' := if s.bclk_fall then
        if s.lrclkp then (if s.lrclk_rise then { s' with data_buf := s.data_buf <<< 1 } else s')
        else { s' with busy := false, data_buf := s.data_buf <<< 1 }
      else s'
    if s.accepts i then { s' with tready := false }
    else if s.wants then { s' with tready := true } else s'

/-- The edge of S_AXIS_ACLK, after the edge of bclk before it. -/
def cycle (i : Inputs W) (s : Slave W) : Slave W :=
  (if i.bclk && !s.bclk_ctrl_0 then s.posedge_bclk i.lrclk else s).posedge_aclk i

/-! ## One edge, register by register -/

variable {i : Inputs W} {s : Slave W}

/-- The samplers of the two clocks. -/
theorem posedge_aclk_samples (i : Inputs W) (s : Slave W) :
    (s.posedge_aclk i).bclk_ctrl_0 = i.bclk ∧ (s.posedge_aclk i).bclk_ctrl_1 = s.bclk_ctrl_0 ∧
      (s.posedge_aclk i).lrclk_buff_0 = s.lrclk_buff_0 ∧
      (s.posedge_aclk i).lrclk_buff_1 = s.lrclk_buff_1 := by
  unfold posedge_aclk
  generalize s.accepts i = a
  generalize s.bclk_fall = f
  generalize s.lrclkp = p
  generalize s.lrclk_rise = r
  generalize s.wants = w
  generalize i.aresetn = n
  cases n <;> cases a <;> cases f <;> cases p <;> cases r <;> cases w <;>
    exact ⟨rfl, rfl, rfl, rfl⟩

theorem cycle_bclk_ctrl (i : Inputs W) (s : Slave W) :
    (s.cycle i).bclk_ctrl_0 = i.bclk ∧ (s.cycle i).bclk_ctrl_1 = s.bclk_ctrl_0 := by
  unfold cycle
  obtain ⟨h0, h1, -⟩ := posedge_aclk_samples i
    (if i.bclk && !s.bclk_ctrl_0 then s.posedge_bclk i.lrclk else s)
  rw [h0, h1]
  split_ifs <;> exact ⟨rfl, rfl⟩

theorem cycle_lrclk_buff (i : Inputs W) (s : Slave W) :
    (s.cycle i).lrclk_buff_0 = (if i.bclk && !s.bclk_ctrl_0 then i.lrclk else s.lrclk_buff_0) ∧
      (s.cycle i).lrclk_buff_1 =
        (if i.bclk && !s.bclk_ctrl_0 then s.lrclk_buff_0 else s.lrclk_buff_1) := by
  unfold cycle
  obtain ⟨-, -, h0, h1⟩ := posedge_aclk_samples i
    (if i.bclk && !s.bclk_ctrl_0 then s.posedge_bclk i.lrclk else s)
  rw [h0, h1]
  split_ifs <;> exact ⟨rfl, rfl⟩

/-- The falling edge of lrclk is in `lrclk_buff`. -/
def lrclk_fall (s : Slave W) : Bool := s.lrclk_buff_1 && !s.lrclk_buff_0

theorem not_lrclk_fall (s : Slave W) : (!s.lrclk_fall) = (!s.lrclkp || s.lrclk_rise) := by
  unfold lrclkp lrclk_fall lrclk_rise
  cases s.lrclk_buff_0 <;> cases s.lrclk_buff_1 <;> rfl

theorem wants_eq (s : Slave W) : s.wants = (s.lrclk_fall && !s.busy) := by
  unfold wants lrclkp lrclk_rise lrclk_fall
  cases s.lrclk_buff_0 <;> cases s.lrclk_buff_1 <;> cases s.busy <;> rfl

/-- What an edge of S_AXIS_ACLK out of reset does. -/
theorem posedge_aclk_registers (hr : i.aresetn = true) (s : Slave W) :
    (s.posedge_aclk i).tready = (if s.accepts i then false else s.wants || s.tready) ∧
      (s.posedge_aclk i).busy =
        (if s.bclk_fall && !s.lrclkp then false else s.accepts i || s.busy) ∧
      (s.posedge_aclk i).data_buf =
        (if s.bclk_fall && (!s.lrclkp || s.lrclk_rise) then s.data_buf <<< 1
          else if s.accepts i then i.tdata else s.data_buf) := by
  unfold posedge_aclk
  rw [hr]
  generalize s.accepts i = a
  generalize s.bclk_fall = f
  generalize s.lrclkp = p
  generalize s.lrclk_rise = r
  generalize s.wants = w
  cases a <;> cases f <;> cases p <;> cases r <;> cases w <;> exact ⟨rfl, rfl, rfl⟩

/-- What an edge out of reset does, told with the channel that the edge of bclk before it brings. -/
structure Moves (i : Inputs W) (s s' : Slave W) : Prop where
  tready : s'.tready = if s.accepts i then false else (s'.lrclk_fall && !s.busy) || s.tready
  busy : s'.busy = if s.bclk_fall && !s'.lrclkp then false else s.accepts i || s.busy
  data_buf : s'.data_buf = if s.bclk_fall && !s'.lrclk_fall then s.data_buf <<< 1
    else if s.accepts i then i.tdata else s.data_buf

theorem posedge_aclk_moves (hr : i.aresetn = true) (s : Slave W) : Moves i s (s.posedge_aclk i) := by
  have hbuff : (s.posedge_aclk i).lrclk_fall = s.lrclk_fall ∧
      (s.posedge_aclk i).lrclkp = s.lrclkp := by
    obtain ⟨-, -, h0, h1⟩ := posedge_aclk_samples i s
    unfold lrclk_fall lrclkp
    rw [h0, h1]
    exact ⟨rfl, rfl⟩
  obtain ⟨htready, hbusy, hdata⟩ := posedge_aclk_registers hr s
  refine ⟨?_, ?_, ?_⟩
  · rw [htready, hbuff.1, wants_eq]
  · rw [hbusy, hbuff.2]
  · rw [hdata, hbuff.1, not_lrclk_fall]

/-- The edge of bclk before it changes `lrclk_buff` only. -/
theorem cycle_moves (hr : i.aresetn = true) (s : Slave W) : Moves i s (s.cycle i) := by
  unfold cycle
  split_ifs with hrise
  · obtain ⟨h1, h2, h3⟩ := posedge_aclk_moves hr (s.posedge_bclk i.lrclk)
    exact ⟨h1, h2, h3⟩
  · exact posedge_aclk_moves hr s

/-- What an edge out of reset does, with a word on the port. -/
structure Steps (i : Inputs W) (s s' : Slave W) : Prop where
  tready : s'.tready = (!s.tready && (s'.lrclk_fall && !s.busy))
  busy : s'.busy = if s.bclk_fall && !s'.lrclkp then false else s.tready || s.busy
  data_buf : s'.data_buf = if s.bclk_fall && !s'.lrclk_fall then s.data_buf <<< 1
    else if s.tready then i.tdata else s.data_buf

theorem cycle_steps (hr : i.aresetn = true) (hv : i.tvalid = true) (s : Slave W) :
    Steps i s (s.cycle i) := by
  have hacc : s.accepts i = s.tready := by
    unfold accepts
    rw [hv, Bool.and_true]
  obtain ⟨htready, hbusy, hdata⟩ := cycle_moves hr s
  rw [hacc] at htready hbusy hdata
  refine ⟨?_, hbusy, hdata⟩
  rw [htready]
  cases s.tready <;> simp

end Slave

end i2s_slave
