-- The AXI-Lite slave `AXI_aes_core_v1_0_S_AXI`, which holds the config registers of
-- the two engines. An address and its data are accepted together, one cycle after
-- both are offered, and the next pair only after the response of the last one.
import AesMusicPlayer.EngineBeats
import AesMusicPlayer.Serial

open clocked serial

namespace s_axi

/-! ## The slave -/

/-- The inputs in one cycle. The two status registers come from the top module. -/
structure Inputs where
  awaddr : BitVec 4
  awvalid : Bool
  wdata : BitVec 32
  wstrb : BitVec 4
  wvalid : Bool
  bready : Bool
  araddr : BitVec 4
  arvalid : Bool
  rready : Bool
  cipher_status_reg : BitVec 32
  decipher_status_reg : BitVec 32
  deriving DecidableEq, Repr

structure SlvRegs where
  slv_reg0 : BitVec 32
  slv_reg1 : BitVec 32
  slv_reg2 : BitVec 32
  slv_reg3 : BitVec 32
  deriving DecidableEq, Repr

structure SAxi where
  axi_awaddr : BitVec 4
  axi_awready : Bool
  axi_wready : Bool
  axi_bresp : BitVec 2
  axi_bvalid : Bool
  axi_araddr : BitVec 4
  axi_arready : Bool
  axi_rdata : BitVec 32
  axi_rresp : BitVec 2
  axi_rvalid : Bool
  regs : SlvRegs
  aw_en : Bool
  deriving DecidableEq, Repr

/-- The bytes of `wdata` that `wstrb` names, and those of the register elsewhere. -/
def strobe (reg wdata : BitVec 32) (wstrb : BitVec 4) : BitVec 32 :=
  let byte (k : ℕ) : BitVec 8 :=
    if wstrb.getLsbD k then wdata.extractLsb' (8 * k) 8 else reg.extractLsb' (8 * k) 8
  byte 3 ++ byte 2 ++ byte 1 ++ byte 0

/-- The bits 3 to 2 of an address. -/
def reg_index (addr : BitVec 4) : ℕ := (addr.extractLsb' 2 2).toNat

/-- The effect of one write on the registers. -/
def SlvRegs.write (addr : BitVec 4) (wdata : BitVec 32) (wstrb : BitVec 4) (r : SlvRegs) : SlvRegs :=
  match reg_index addr with
  | 0 => { r with slv_reg0 := strobe r.slv_reg0 wdata wstrb }
  | 1 => { r with slv_reg1 := strobe r.slv_reg1 wdata wstrb }
  | 2 => { r with slv_reg2 := strobe r.slv_reg2 wdata wstrb }
  | _ => { r with slv_reg3 := strobe r.slv_reg3 wdata wstrb }

/-- What a read gives: the addresses 2 and 3 give the status registers. -/
def SlvRegs.read (i : Inputs) (addr : BitVec 4) (r : SlvRegs) : BitVec 32 :=
  match reg_index addr with
  | 0 => r.slv_reg0
  | 1 => r.slv_reg1
  | 2 => i.cipher_status_reg
  | _ => i.decipher_status_reg

namespace SAxi

def slv_reg_wren (i : Inputs) (s : SAxi) : Bool :=
  s.axi_wready && i.wvalid && s.axi_awready && i.awvalid

def slv_reg_rden (i : Inputs) (s : SAxi) : Bool := s.axi_arready && i.arvalid && !s.axi_rvalid

def clock (aresetn : Bool) (i : Inputs) (s : SAxi) : SAxi :=
  if !aresetn then
    { axi_awaddr := 0, axi_awready := false, axi_wready := false, axi_bresp := 0,
      axi_bvalid := false, axi_araddr := 0, axi_arready := false, axi_rdata := 0, axi_rresp := 0,
      axi_rvalid := false, regs := ⟨0, 0, 0, 0⟩, aw_en := true }
  else
    let offered := !s.axi_awready && i.awvalid && i.wvalid && s.aw_en
    let answers := s.axi_awready && i.awvalid && !s.axi_bvalid && s.axi_wready && i.wvalid
    let reads := s.axi_arready && i.arvalid && !s.axi_rvalid
    { axi_awready := offered
      aw_en := if offered then false else if i.bready && s.axi_bvalid then true else s.aw_en
      axi_awaddr := if offered then i.awaddr else s.axi_awaddr
      axi_wready := !s.axi_wready && i.wvalid && i.awvalid && s.aw_en
      regs := if s.slv_reg_wren i then s.regs.write s.axi_awaddr i.wdata i.wstrb else s.regs
      axi_bvalid := if answers then true else if i.bready && s.axi_bvalid then false else s.axi_bvalid
      axi_bresp := if answers then 0 else s.axi_bresp
      axi_arready := !s.axi_arready && i.arvalid
      axi_araddr := if !s.axi_arready && i.arvalid then i.araddr else s.axi_araddr
      axi_rvalid := if reads then true else if s.axi_rvalid && i.rready then false else s.axi_rvalid
      axi_rresp := if reads then 0 else s.axi_rresp
      axi_rdata := if s.slv_reg_rden i then s.regs.read i s.axi_araddr else s.axi_rdata }

end SAxi

/-- The slave in each cycle after a reset. -/
def cycles (i : Inputs) (s₀ : SAxi) (ins : ℕ → Inputs) : ℕ → SAxi :=
  run (SAxi.clock true) (s₀.clock false i) ins

/-- A run of the slave from a reset. -/
structure IsRun (ins : ℕ → Inputs) (s : ℕ → SAxi) : Prop where
  start : ∃ i s₀, s 0 = SAxi.clock false i s₀
  step : ∀ n, s (n + 1) = (s n).clock true (ins n)

theorem cycles_isRun (i : Inputs) (s₀ : SAxi) (ins : ℕ → Inputs) : IsRun ins (cycles i s₀ ins) :=
  ⟨⟨i, s₀, rfl⟩, fun _ => rfl⟩

variable {ins : ℕ → Inputs} {s : ℕ → SAxi}

/-! ## Writes -/

/-- The address and the data of a write stay until they are accepted. -/
structure WritesStay (ins : ℕ → Inputs) (s : ℕ → SAxi) : Prop where
  aw : ∀ n, (ins n).awvalid = true → (s n).axi_awready = false →
    (ins (n + 1)).awvalid = true ∧ (ins (n + 1)).awaddr = (ins n).awaddr
  w : ∀ n, (ins n).wvalid = true → (s n).axi_wready = false →
    (ins (n + 1)).wvalid = true ∧ (ins (n + 1)).wdata = (ins n).wdata ∧
      (ins (n + 1)).wstrb = (ins n).wstrb

/-- The write channel in a cycle with the inputs `i`. -/
structure WritePhase (i : Inputs) (s : SAxi) : Prop where
  together : s.axi_wready = s.axi_awready
  aw_en : s.aw_en = (!s.axi_awready && !s.axi_bvalid)
  alone : s.axi_awready = true → s.axi_bvalid = false
  offered : s.axi_awready = true →
    i.awvalid = true ∧ i.wvalid = true ∧ s.axi_awaddr = i.awaddr

theorem writePhase_clock {i i' : Inputs} {s : SAxi} (h : WritePhase i s)
    (haw : i.awvalid = true → s.axi_awready = false →
      i'.awvalid = true ∧ i'.awaddr = i.awaddr)
    (hw : i.wvalid = true → s.axi_wready = false → i'.wvalid = true) :
    WritePhase i' (s.clock true i) := by
  obtain ⟨htog, hen, halone, hoff⟩ := h
  cases hready : s.axi_awready with
  | true =>
    obtain ⟨hav, hwv, -⟩ := hoff hready
    have hb := halone hready
    constructor <;> simp [SAxi.clock, htog, hen, hready, hav, hwv, hb]
  | false =>
    rw [hready] at htog hen haw
    cases hb : s.axi_bvalid with
    | true => constructor <;> cases hbr : i.bready <;> simp [SAxi.clock, htog, hen, hready, hb, hbr]
    | false =>
      cases hav : i.awvalid <;> cases hwv : i.wvalid
      case true.true =>
        obtain ⟨hav', haddr⟩ := haw hav rfl
        constructor <;>
          simp [SAxi.clock, htog, hen, hready, hb, hav, hwv, hav', haddr, hw hwv htog]
      all_goals constructor <;> simp [SAxi.clock, htog, hen, hready, hb, hav, hwv]

theorem IsRun.writePhase (h : IsRun ins s) (hm : WritesStay ins s) (n : ℕ) :
    WritePhase (ins n) (s n) := by
  induction n with
  | zero =>
    obtain ⟨i, s₀, h0⟩ := h.start
    constructor <;> simp [h0, SAxi.clock]
  | succ n ih =>
    rw [h.step]
    exact writePhase_clock ih (hm.aw n) fun hv hr => (hm.w n hv hr).1

/-- An address, the data and the strobes. -/
abbrev Write := BitVec 4 × BitVec 32 × BitVec 4

/-- The write whose address is accepted at the edge of cycle `n`, with the data in the same
cycle. -/
def written_at (ins : ℕ → Inputs) (s : ℕ → SAxi) (n : ℕ) : Option Write :=
  if (ins n).awvalid && (s n).axi_awready then some ((ins n).awaddr, (ins n).wdata, (ins n).wstrb)
  else none

/-- The response that is accepted at the edge of cycle `n`. -/
def responded_at (ins : ℕ → Inputs) (s : ℕ → SAxi) (n : ℕ) : Option (BitVec 2) :=
  if (s n).axi_bvalid && (ins n).bready then some (s n).axi_bresp else none

/-- The registers after some writes. -/
def after (ws : List Write) : SlvRegs :=
  ws.foldl (fun r w => r.write w.1 w.2.1 w.2.2) ⟨0, 0, 0, 0⟩

theorem after_append (ws : List Write) (o : Option Write) :
    after (ws ++ o.toList) = o.elim (after ws) fun w => (after ws).write w.1 w.2.1 w.2.2 := by
  cases o <;> simp [after]

/-- What the writes of a run give. The registers are those after the accepted writes, address,
data and strobes as they were at the edge that accepted them. There is one response for each,
no write is accepted while a response waits, and a write that is offered is accepted in the
next cycle, or the response of another one waits. -/
structure WritesInOrder (ins : ℕ → Inputs) (s : ℕ → SAxi) : Prop where
  regs : ∀ n, (s n).regs = after (events (written_at ins s) n)
  together : ∀ n, (written_at ins s n).isSome = ((ins n).wvalid && (s n).axi_wready)
  one_response : ∀ n, (events (written_at ins s) n).length =
    (events (responded_at ins s) n).length + (if (s n).axi_bvalid then 1 else 0)
  not_pending : ∀ n, (written_at ins s n).isSome = true → (s n).axi_bvalid = false
  soon : ∀ n, (ins n).awvalid = true → (ins n).wvalid = true →
    (written_at ins s n).isSome = true ∨ (s n).axi_bvalid = true ∨
      (written_at ins s (n + 1)).isSome = true

theorem isSome_written_at {n : ℕ} (h : WritePhase (ins n) (s n)) :
    (written_at ins s n).isSome = (s n).axi_awready := by
  unfold written_at
  cases hr : (s n).axi_awready with
  | false => simp
  | true => simp [(h.offered hr).1]

/-- In every run with a master that keeps its writes, the writes are done in order. -/
theorem each_write_is_done_once (h : IsRun ins s) (hm : WritesStay ins s) :
    WritesInOrder ins s := by
  have hph := h.writePhase hm
  refine ⟨?_, ?_, ?_, ?_, ?_⟩
  · intro n
    induction n with
    | zero =>
      obtain ⟨i, s₀, h0⟩ := h.start
      simp [h0, SAxi.clock, after]
    | succ n ih =>
      rw [events_succ, after_append, ← ih, h.step]
      cases hr : (s n).axi_awready with
      | false => simp [SAxi.clock, SAxi.slv_reg_wren, written_at, hr]
      | true =>
        obtain ⟨hav, hwv, haddr⟩ := (hph n).offered hr
        have hwr : (s n).axi_wready = true := (hph n).together.trans hr
        simp [SAxi.clock, SAxi.slv_reg_wren, written_at, hr, hav, hwv, hwr, haddr]
  · intro n
    rw [isSome_written_at (hph n), (hph n).together]
    cases hr : (s n).axi_awready with
    | false => simp
    | true => simp [((hph n).offered hr).2.1]
  · intro n
    induction n with
    | zero =>
      obtain ⟨i, s₀, h0⟩ := h.start
      simp [h0, SAxi.clock]
    | succ n ih =>
      rw [events_succ, events_succ, List.length_append, List.length_append, ih, h.step]
      cases hr : (s n).axi_awready with
      | false =>
        cases hb : (s n).axi_bvalid <;> cases hbr : (ins n).bready <;>
          simp [SAxi.clock, written_at, responded_at, hr, hb, hbr]
      | true =>
        obtain ⟨hav, hwv, -⟩ := (hph n).offered hr
        have hwr : (s n).axi_wready = true := (hph n).together.trans hr
        have hb := (hph n).alone hr
        simp [SAxi.clock, written_at, responded_at, hr, hb, hav, hwv, hwr]
  · intro n hw
    rw [isSome_written_at (hph n)] at hw
    exact (hph n).alone hw
  · intro n hav hwv
    rw [isSome_written_at (hph n), isSome_written_at (hph (n + 1)), h.step]
    cases hr : (s n).axi_awready with
    | true => exact Or.inl rfl
    | false =>
      right
      cases hb : (s n).axi_bvalid with
      | true => exact Or.inl rfl
      | false =>
        have hen : (s n).aw_en = true := by rw [(hph n).aw_en, hr, hb]; rfl
        right
        simp [SAxi.clock, hr, hav, hwv, hen]

/-- In the cycles 1 and 2 a write of ones to the register 0 and a read of the register 2 are
offered. -/
def oneWrite (n : ℕ) : Inputs where
  awaddr := 0
  awvalid := n == 1 || n == 2
  wdata := 0xffffffff
  wstrb := 0xf
  wvalid := n == 1 || n == 2
  bready := true
  araddr := 8
  arvalid := n == 1 || n == 2
  rready := true
  cipher_status_reg := 1
  decipher_status_reg := 1

/-- All registers low. -/
def low : SAxi := ⟨0, false, false, 0, false, 0, false, 0, 0, false, ⟨0, 0, 0, 0⟩, false⟩

def oneWriteRun : ℕ → SAxi := cycles (oneWrite 0) low oneWrite

theorem oneWrite_stays : WritesStay oneWrite oneWriteRun := by
  have hready : (oneWriteRun 2).axi_awready = true ∧ (oneWriteRun 2).axi_wready = true := by decide
  constructor
  · intro n hv hr
    have hn : n = 1 ∨ n = 2 := by simpa [oneWrite] using hv
    rcases hn with rfl | rfl
    · exact ⟨rfl, rfl⟩
    · rw [hready.1] at hr
      cases hr
  · intro n hv hr
    have hn : n = 1 ∨ n = 2 := by simpa [oneWrite] using hv
    rcases hn with rfl | rfl
    · exact ⟨rfl, rfl, rfl⟩
    · rw [hready.2] at hr
      cases hr

theorem one_write_is_done_once : WritesInOrder oneWrite oneWriteRun :=
  each_write_is_done_once (cycles_isRun _ _ _) oneWrite_stays

/-! ## Reads -/

/-- The address of a read stays until it is accepted. -/
def ReadsStay (ins : ℕ → Inputs) (s : ℕ → SAxi) : Prop :=
  ∀ n, (ins n).arvalid = true → (s n).axi_arready = false →
    (ins (n + 1)).arvalid = true ∧ (ins (n + 1)).araddr = (ins n).araddr

/-- An address is accepted one cycle after it is offered, whatever the read channel does. -/
theorem IsRun.read_offered (h : IsRun ins s) (hm : ReadsStay ins s) (n : ℕ)
    (hr : (s n).axi_arready = true) :
    (ins n).arvalid = true ∧ (s n).axi_araddr = (ins n).araddr := by
  cases n with
  | zero =>
    obtain ⟨i, s₀, h0⟩ := h.start
    simp [h0, SAxi.clock] at hr
  | succ n =>
    rw [h.step] at hr ⊢
    simp only [SAxi.clock, Bool.not_true, Bool.false_eq_true, if_false, Bool.and_eq_true,
      Bool.not_eq_eq_eq_not] at hr
    obtain ⟨hv, ha⟩ := hm n hr.2 hr.1
    simp [SAxi.clock, hr.1, hr.2, hv, ha]

/-- The address is accepted at the edge of cycle `n`, and the register had this value then. -/
def asked_at (ins : ℕ → Inputs) (s : ℕ → SAxi) (n : ℕ) : Option (BitVec 32) :=
  if (ins n).arvalid && (s n).axi_arready then some ((s n).regs.read (ins n) (ins n).araddr)
  else none

/-- The value that is handed over at the edge of cycle `n`. -/
def answered_at (ins : ℕ → Inputs) (s : ℕ → SAxi) (n : ℕ) : Option (BitVec 32) :=
  if (s n).axi_rvalid && (ins n).rready then some (s n).axi_rdata else none

/-- The value that waits to be handed over. -/
def SAxi.waiting (s : SAxi) : Option (BitVec 32) := if s.axi_rvalid then some s.axi_rdata else none

/-- Each read that was asked for is answered or waits, in order, with its value. -/
def Answered (ins : ℕ → Inputs) (s : ℕ → SAxi) (n : ℕ) : Prop :=
  events (asked_at ins s) n = events (answered_at ins s) n ++ (s n).waiting.toList

/-- What one edge adds to the reads, when it asks for none while an answer waits. -/
theorem IsRun.answered_step (h : IsRun ins s) (hm : ReadsStay ins s) {n : ℕ}
    (hfree : (asked_at ins s n).isSome = true → (s n).axi_rvalid = false)
    (ha : Answered ins s n) : Answered ins s (n + 1) := by
  unfold Answered at ha ⊢
  rw [events_succ, events_succ, ha, h.step, List.append_assoc, List.append_assoc]
  congr 1
  cases hr : (s n).axi_arready with
  | false =>
    cases hv : (s n).axi_rvalid <;> cases hrr : (ins n).rready <;>
      simp [SAxi.clock, SAxi.waiting, SAxi.slv_reg_rden, asked_at, answered_at, hr, hv, hrr]
  | true =>
    obtain ⟨hav, haddr⟩ := h.read_offered hm n hr
    have hv := hfree (by simp [asked_at, hr, hav])
    simp [SAxi.clock, SAxi.waiting, SAxi.slv_reg_rden, asked_at, answered_at, hr, hv, hav, haddr]

/-- A read that is accepted while an answer waits is dropped. -/
theorem IsRun.dropped (h : IsRun ins s) {n : ℕ} (ha : Answered ins s n)
    (hask : (asked_at ins s n).isSome = true) (hv : (s n).axi_rvalid = true) :
    ¬ Answered ins s (n + 1) := by
  obtain ⟨v, hask⟩ := Option.isSome_iff_exists.mp hask
  intro ha'
  unfold Answered at ha ha'
  have hlen := congrArg List.length ha'
  rw [events_succ, events_succ, ha, h.step, hask] at hlen
  cases hrr : (ins n).rready <;>
    simp [SAxi.clock, SAxi.waiting, answered_at, hv, hrr] at hlen

/-- In every run with a master that keeps its reads, each read is answered once, in order and with
the value of its register, exactly when none is accepted while the answer of another one waits. -/
theorem each_read_is_answered_iff (h : IsRun ins s) (hm : ReadsStay ins s) :
    (∀ n, Answered ins s n) ↔
      ∀ n, (asked_at ins s n).isSome = true → (s n).axi_rvalid = false := by
  constructor
  · intro hall n hask
    by_contra hv
    exact h.dropped (hall n) hask (by simpa using hv) (hall (n + 1))
  · intro hfree n
    induction n with
    | zero =>
      obtain ⟨i, s₀, h0⟩ := h.start
      simp [Answered, h0, SAxi.clock, SAxi.waiting]
    | succ n ih => exact h.answered_step hm (hfree n) ih

theorem oneWrite_reads_stay : ReadsStay oneWrite oneWriteRun := by
  have hready : (oneWriteRun 2).axi_arready = true := by decide
  intro n hv hr
  have hn : n = 1 ∨ n = 2 := by simpa [oneWrite] using hv
  rcases hn with rfl | rfl
  · exact ⟨rfl, rfl⟩
  · rw [hready] at hr
    cases hr

theorem one_read_is_answered_iff :
    (∀ n, Answered oneWrite oneWriteRun n) ↔
      ∀ n, (asked_at oneWrite oneWriteRun n).isSome = true → (oneWriteRun n).axi_rvalid = false :=
  each_read_is_answered_iff (cycles_isRun _ _ _) oneWrite_reads_stay

/-! ## The config registers of the engines -/

/-- What the edge of cycle `n` writes into the config register number `k`. -/
def config_write (ins : ℕ → Inputs) (s : ℕ → SAxi) (k : ℕ) (reg : SlvRegs → BitVec 32) (n : ℕ) :
    Option (BitVec 32) :=
  if (s n).slv_reg_wren (ins n) && reg_index (s n).axi_awaddr == k then
    some (strobe (reg (s n).regs) (ins n).wdata (ins n).wstrb)
  else none

/-- Bit 0 of a word with strobes. -/
theorem getLsbD_strobe (reg wdata : BitVec 32) (wstrb : BitVec 4) :
    (strobe reg wdata wstrb).getLsbD 0 =
      if wstrb.getLsbD 0 then wdata.getLsbD 0 else reg.getLsbD 0 := by
  simp only [strobe, BitVec.getLsbD_append, Nat.zero_lt_succ, if_true]
  cases wstrb.getLsbD 0 <;> simp

/-- A register of a run from a reset, as the engines take it over. -/
structure IsConfig (ins : ℕ → Inputs) (s : ℕ → SAxi) (k : ℕ) (reg : SlvRegs → BitVec 32) :
    Prop where
  start : reg (s 0).regs = 0
  step : ∀ n, reg (s (n + 1)).regs = (config_write ins s k reg n).getD (reg (s n).regs)

/-- `reg` is the register number `k`. -/
structure IsReg (k : ℕ) (reg : SlvRegs → BitVec 32) : Prop where
  reset : reg ⟨0, 0, 0, 0⟩ = 0
  write : ∀ r addr wdata wstrb, reg (SlvRegs.write addr wdata wstrb r) =
    if reg_index addr = k then strobe (reg r) wdata wstrb else reg r

theorem isReg_slv_reg0 : IsReg 0 SlvRegs.slv_reg0 := by
  refine ⟨rfl, fun r addr wdata wstrb => ?_⟩
  unfold SlvRegs.write
  rcases reg_index addr with _ | _ | _ | _ <;> simp

theorem isReg_slv_reg1 : IsReg 1 SlvRegs.slv_reg1 := by
  refine ⟨rfl, fun r addr wdata wstrb => ?_⟩
  unfold SlvRegs.write
  rcases reg_index addr with _ | _ | _ | _ <;> simp

theorem IsRun.isConfig (h : IsRun ins s) {k : ℕ} {reg : SlvRegs → BitVec 32} (hr : IsReg k reg) :
    IsConfig ins s k reg := by
  refine ⟨?_, fun n => ?_⟩
  · obtain ⟨i, s₀, h0⟩ := h.start
    rw [h0]
    exact hr.reset
  · rw [h.step]
    simp only [SAxi.clock, config_write]
    cases (s n).slv_reg_wren (ins n) with
    | false => simp
    | true => by_cases hk : reg_index (s n).axi_awaddr = k <;> simp [hr.write, hk]

/-- A copy of the register that starts at 0 and takes the same writes has its value. -/
theorem IsConfig.eq_copy {k : ℕ} {reg : SlvRegs → BitVec 32} (hc : IsConfig ins s k reg)
    {c : ℕ → BitVec 32} (h0 : c 0 = 0)
    (hstep : ∀ n, c (n + 1) = (config_write ins s k reg n).getD (c n)) (n : ℕ) :
    c n = reg (s n).regs := by
  induction n with
  | zero => rw [h0, hc.start]
  | succ n ih => rw [hstep, hc.step, ih]

/-- The write of cycle `m` raises bit 0 of the config register number `k`. -/
def Raises (ins : ℕ → Inputs) (s : ℕ → SAxi) (k : ℕ) (reg : SlvRegs → BitVec 32) (m : ℕ) : Prop :=
  ∃ w, written_at ins s m = some w ∧ reg_index w.1 = k ∧ w.2.2.getLsbD 0 = true ∧
    w.2.1.getLsbD 0 = true ∧ (reg (s m).regs).getLsbD 0 = false

theorem IsRun.raises_iff (h : IsRun ins s) (hm : WritesStay ins s) {k : ℕ}
    {reg : SlvRegs → BitVec 32} (hc : IsConfig ins s k reg) (m : ℕ) :
    Raises ins s k reg m ↔
      (reg (s m).regs).getLsbD 0 = false ∧ (reg (s (m + 1)).regs).getLsbD 0 = true := by
  have hph := h.writePhase hm m
  rw [hc.step, config_write]
  cases hr : (s m).axi_awready with
  | false => simp [Raises, written_at, SAxi.slv_reg_wren, hr]
  | true =>
    obtain ⟨hav, hwv, haddr⟩ := hph.offered hr
    have hwr : (s m).axi_wready = true := hph.together.trans hr
    simp only [Raises, written_at, SAxi.slv_reg_wren, hr, hav, hwv, hwr, haddr, Bool.and_true,
      Bool.true_and, if_true, Option.some.injEq, exists_eq_left']
    by_cases hk : reg_index (ins m).awaddr = k
    · simp only [hk, beq_self_eq_true, if_true, Option.getD_some, getLsbD_strobe, true_and]
      cases (ins m).wstrb.getLsbD 0 <;> simp [and_comm]
    · simp [hk]

end s_axi

namespace aes_core

/-- The pulse comes two cycles after the register that it is made from was raised. -/
theorem PulseGen.pulse_iff {p : ℕ → PulseGen} {d : ℕ → Bool} (h0 : p 0 = ⟨false, false⟩)
    (hd : d 0 = false) (hstep : ∀ n, p (n + 1) = (p n).clock true (d n)) (n : ℕ) :
    (p n).pulse = true ↔ ∃ m, n = m + 2 ∧ d m = false ∧ d (m + 1) = true := by
  rcases n with _ | _ | m
  · simp [h0, pulse]
  · rw [hstep, pulse_clock, h0, hd]
    simp
  · rw [hstep, pulse_clock, hstep, clock_true]
    simp

open s_axi in
/-- The slave and the two engines, wired as in the top module. -/
structure Wired (axi : ℕ → s_axi.Inputs) (s : ℕ → SAxi) (ins ins' : ℕ → Inputs) : Prop where
  slave : s_axi.IsRun axi s
  cipher : ∀ n, (ins n).write = config_write axi s 0 SlvRegs.slv_reg0 n
  decipher : ∀ n, (ins' n).write = config_write axi s 1 SlvRegs.slv_reg1 n

section Wired

open s_axi

variable {Sa W Sa' W' : Type} {R : CipherRounds Sa W} {R' : InvCipherRounds Sa' W'}
  {axi : ℕ → s_axi.Inputs} {s : ℕ → SAxi} {ins ins' : ℕ → Inputs} {e : ℕ → CipherEngine Sa W}
  {e' : ℕ → DecipherEngine Sa' W'}

/-- The pulse generator behind a copy of a config register gives the writes that raise it. -/
theorem pulse_iff_raises (hs : s_axi.IsRun axi s) (hm : WritesStay axi s) {k : ℕ}
    {reg : SlvRegs → BitVec 32} (hr : IsReg k reg) {p : ℕ → PulseGen} {c : ℕ → BitVec 32}
    (hp : p 0 = ⟨false, false⟩) (hstep : ∀ n, p (n + 1) = (p n).clock true ((c n).getLsbD 0))
    (hc : c 0 = 0) (hcopy : ∀ n, c (n + 1) = (config_write axi s k reg n).getD (c n)) (n : ℕ) :
    (p n).pulse = true ↔ ∃ m, n = m + 2 ∧ Raises axi s k reg m := by
  have hconfig := hs.isConfig hr
  have hpulse := PulseGen.pulse_iff (d := fun n => (c n).getLsbD 0) hp
    (by rw [hc]; exact BitVec.getLsbD_zero) hstep n
  simp only [hconfig.eq_copy hc hcopy] at hpulse
  simp only [hs.raises_iff hm hconfig]
  exact hpulse

/-- In every run of the peripheral with a master that keeps its writes, the setup requests of
each engine are the accepted writes that raise bit 0 of its config register, two cycles later. -/
theorem setup_requests_are_the_raising_writes (hw : Wired axi s ins ins')
    (hm : WritesStay axi s) (h : CipherEngine.IsRun R ins e) (h' : DecipherEngine.IsRun R' ins' e')
    (n : ℕ) :
    ((e n).setup_pulse = true ↔ ∃ m, n = m + 2 ∧ Raises axi s 0 SlvRegs.slv_reg0 m) ∧
      ((e' n).setup_pulse = true ↔ ∃ m, n = m + 2 ∧ Raises axi s 1 SlvRegs.slv_reg1 m) := by
  obtain ⟨i₁, i₂, e₀, h0⟩ := h.start
  obtain ⟨i₁', i₂', e₀', h0'⟩ := h'.start
  constructor
  · refine pulse_iff_raises (p := fun n => (e n).setup_req) (c := fun n => (e n).slv_reg0) hw.slave
      hm isReg_slv_reg0 (by rw [h0]; rfl) (fun n => by rw [h.step]; rfl) (by rw [h0]; rfl)
      (fun n => ?_) n
    rw [h.step, ← hw.cipher]
    rfl
  · refine pulse_iff_raises (p := fun n => (e' n).setup_req) (c := fun n => (e' n).slv_reg1)
      hw.slave hm isReg_slv_reg1 (by rw [h0']; rfl) (fun n => by rw [h'.step]; rfl)
      (by rw [h0']; rfl) (fun n => ?_) n
    rw [h'.step, ← hw.decipher]
    rfl

/-- The write of ones to the config register of the cipher, with no beats on the streams. -/
def oneConfigWrite (k : ℕ) (reg : SlvRegs → BitVec 32) (n : ℕ) : Inputs :=
  ⟨false, 0, false, true, config_write oneWrite oneWriteRun k reg n⟩

theorem oneWrite_wired : Wired oneWrite oneWriteRun (oneConfigWrite 0 SlvRegs.slv_reg0)
    (oneConfigWrite 1 SlvRegs.slv_reg1) :=
  ⟨cycles_isRun _ _ _, fun _ => rfl, fun _ => rfl⟩

theorem one_setup_request_is_the_raising_write :
    let e := CipherEngine.plainRun (oneConfigWrite 0 SlvRegs.slv_reg0)
    let e' := DecipherEngine.plainRun (oneConfigWrite 1 SlvRegs.slv_reg1)
    ((e 4).setup_pulse = true ↔
        ∃ m, 4 = m + 2 ∧ Raises oneWrite oneWriteRun 0 SlvRegs.slv_reg0 m) ∧
      ((e' 4).setup_pulse = true ↔
        ∃ m, 4 = m + 2 ∧ Raises oneWrite oneWriteRun 1 SlvRegs.slv_reg1 m) :=
  setup_requests_are_the_raising_writes oneWrite_wired oneWrite_stays
    (CipherEngine.plainRun_isRun _) (DecipherEngine.plainRun_isRun _) 4

end Wired

end aes_core
