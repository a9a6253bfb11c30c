-- The SPI master `SPI_master_v1_0`: its registers, and what a clock edge does
-- to them. The state machine steps when the free-running counter is at
-- CLOCK_DIVISOR, and words are accepted at any edge.
import AesMusicPlayer.Clocked
import AesMusicPlayer.Serial

open clocked serial

namespace spi_master

/-- `$clog2`. -/
def clog2 (n : ℕ) : ℕ := if n ≤ 1 then 0 else Nat.log2 (n - 1) + 1

/-- The parameters of the module. The part selects stay inside the buses. -/
structure Params where
  WIDTH : ℕ
  CLOCK_DIVISOR : ℕ
  C_S_AXIS_TDATA_WIDTH : ℕ
  C_M_AXIS_TDATA_WIDTH : ℕ
  width_pos : 1 ≤ WIDTH
  divisor_pos : 1 ≤ CLOCK_DIVISOR
  s_axis_fits : WIDTH ≤ C_S_AXIS_TDATA_WIDTH
  m_axis_fits : WIDTH ≤ C_M_AXIS_TDATA_WIDTH

inductive Fsm
  | S0 | S1 | S2
  deriving DecidableEq, Repr

structure Inputs (p : Params) where
  aresetn : Bool
  miso : Bool
  s_axis_tvalid : Bool
  s_axis_tdata : BitVec p.C_S_AXIS_TDATA_WIDTH
  s_axis_tlast : Bool

/-- `rx_full_0` and `rx_full_1` are the bits of `rx_full`. -/
structure Master (p : Params) where
  mosi : Bool
  tx_buffer : BitVec p.WIDTH
  rx_buffer : BitVec p.WIDTH
  spi_ready : Bool
  last : Bool
  last_buff : Bool
  rx_full_0 : Bool
  rx_full_1 : Bool
  counter : BitVec (clog2 p.WIDTH + 1)
  clk_counter : BitVec (clog2 p.CLOCK_DIVISOR + 1)
  state : Fsm
  m_axis_tvalid : Bool
  m_axis_tdata : BitVec p.C_M_AXIS_TDATA_WIDTH

namespace Master

variable {p : Params}

/-! ## The outputs -/

def sclk (s : Master p) : Bool := s.state == .S2

/-- Active low. -/
def ss (s : Master p) : Bool := s.state == .S0

def s_axis_tready (s : Master p) : Bool := s.spi_ready

def m_axis_tlast (_ : Master p) : Bool := true

/-! ## One edge -/

/-- The state machine steps at this edge. -/
def steps (s : Master p) : Bool := s.clk_counter.toNat == p.CLOCK_DIVISOR

/-- A word is accepted at this edge. -/
def accepts (i : Inputs p) (s : Master p) : Bool := i.s_axis_tvalid && s.s_axis_tready

/-- The assignments before those of the state machine. -/
def shift (i : Inputs p) (s : Master p) : Master p :=
  let s' := if s.accepts i then
      { s with tx_buffer := i.s_axis_tdata.setWidth p.WIDTH, last := i.s_axis_tlast,
               spi_ready := false }
    else s
  { s' with rx_full_0 := false, rx_full_1 := s.rx_full_0,
            m_axis_tvalid := s.rx_full_0 && !s.rx_full_1, clk_counter := s.clk_counter + 1 }

/-- The part select of M_AXIS_TDATA is written, and the bits above it stay. -/
def put_rx (s : Master p) : BitVec p.C_M_AXIS_TDATA_WIDTH :=
  ((s.m_axis_tdata >>> p.WIDTH) <<< p.WIDTH) ||| s.rx_buffer.setWidth _

/-- The step of the state machine reads the registers `s` and overrides the assignments of
`s'` before it. -/
def fsm (i : Inputs p) (s s' : Master p) : Master p :=
  match s.state with
  | .S0 =>
    let s' := { s' with mosi := false, rx_full_0 := false }
    if !s.spi_ready then
      { s' with mosi := s.tx_buffer.msb, last_buff := s.last, counter := 1, state := .S1 }
    else s'
  | .S1 =>
    let s' := if s.counter.toNat ≠ p.WIDTH then { s' with tx_buffer := s.tx_buffer <<< 1 }
      else { s' with spi_ready := true }
    { s' with rx_buffer := shiftIn s.rx_buffer i.miso, rx_full_0 := false, state := .S2 }
  | .S2 =>
    let s' := { s' with mosi := s.tx_buffer.msb }
    if s.counter.toNat = p.WIDTH then
      let s' := { s' with m_axis_tdata := s.put_rx, rx_full_0 := true }
      if !s.spi_ready && !s.last_buff then
        { s' with last_buff := s.last, counter := 1, state := .S1 }
      else { s' with state := .S0 }
    else { s' with counter := s.counter + 1, state := .S1 }

def clock (i : Inputs p) (s : Master p) : Master p :=
  if !i.aresetn then { s with m_axis_tvalid := false, m_axis_tdata := 0, state := .S0 }
  else if s.steps then s.fsm i (s.shift i) else s.shift i

/-- The registers as they are declared. M_AXIS_TVALID has the value of its reset. -/
def initial (p : Params) : Master p where
  mosi := false
  tx_buffer := 0
  rx_buffer := 0
  spi_ready := true
  last := false
  last_buff := false
  rx_full_0 := false
  rx_full_1 := false
  counter := 0
  clk_counter := 0
  state := .S0
  m_axis_tvalid := false
  m_axis_tdata := 0

end Master

/-! ## What is seen of a run -/

/-- A word with its last flag. -/
structure Accepted (p : Params) where
  word : BitVec p.WIDTH
  last : Bool

/-- The word that an edge accepts, its `WIDTH` low bits. -/
def Master.accepted_word {p : Params} (i : Inputs p) (s : Master p) : Option (Accepted p) :=
  if s.accepts i then some ⟨i.s_axis_tdata.setWidth p.WIDTH, i.s_axis_tlast⟩ else none

section Run

variable {p : Params} (ins : ℕ → Inputs p) (s : ℕ → Master p)

/-- `sclk` rises at the edge of cycle `n`. -/
def rises (n : ℕ) : Bool := !(s n).sclk && (s (n + 1)).sclk

def mosi_at (n : ℕ) : Option Bool := if rises s n then some (s n).mosi else none

def miso_at (n : ℕ) : Option Bool := if rises s n then some (ins n).miso else none

/-- The word on M_AXIS in cycle `n`. -/
def delivered_at (n : ℕ) : Option (BitVec p.WIDTH) :=
  if (s n).m_axis_tvalid then some ((s n).m_axis_tdata.setWidth p.WIDTH) else none

/-- The words that are accepted before a cycle. -/
def accepted : ℕ → List (Accepted p) := events fun n => (s n).accepted_word (ins n)

/-- `mosi` at the rising edges of `sclk` before a cycle. -/
def mosi_bits : ℕ → List Bool := events (mosi_at s)

/-- `miso` at these edges. -/
def miso_bits : ℕ → List Bool := events (miso_at ins s)

/-- The words on M_AXIS before a cycle. -/
def delivered : ℕ → List (BitVec p.WIDTH) := events (delivered_at s)

end Run

end spi_master
