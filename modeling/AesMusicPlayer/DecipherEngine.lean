-- The decipher engine, wired as in the top module. It has the ages of the
-- cipher engine, and between two blocks it may wait in S2 for the key
-- schedule of a new key.
import AesMusicPlayer.BlockPipe

open clocked

namespace aes_core

structure DecipherEngine (Sa W : Type) where
  slv_reg1 : BitVec 32
  /-- `decipher_setup_req_sig` and `decipher_prev_setup_req_sig` -/
  setup_req : PulseGen
  saxis : SAxisDecipher
  /-- `decipher_start` and `decipher_start_prev` -/
  start : PulseGen
  /-- `decipher_kload` and `decipher_kload_prev` -/
  kload : PulseGen
  core : InvCipherTop Sa W
  maxis : MAxis

namespace DecipherEngine

variable {Sa W : Type}

/-- Bit 0 of `decipher_ctrl_reg`. -/
def setup_pulse (e : DecipherEngine Sa W) : Bool := e.setup_req.pulse

def setup_needed (e : DecipherEngine Sa W) : Bool := e.saxis.setup_needed e.setup_pulse

def decipher_start_pulse (e : DecipherEngine Sa W) : Bool := e.start.pulse

def decipher_kload_pulse (e : DecipherEngine Sa W) : Bool := e.kload.pulse

/-- The reset of the output FIFO, active low. -/
def decipher_fifo_rst (aresetn : Bool) (e : DecipherEngine Sa W) : Bool :=
  !e.slv_reg1.getLsbD 0 && aresetn

def decipher_bsy (aresetn : Bool) (e : DecipherEngine Sa W) : Bool :=
  e.maxis.busy || !e.decipher_fifo_rst aresetn

/-- One edge. `decipher_discard_result` drives nothing: its use in
`decipher_text_out_valid` is commented out. -/
def clock (R : InvCipherRounds Sa W) (aresetn : Bool) (i : Inputs) (e : DecipherEngine Sa W) :
    DecipherEngine Sa W where
  slv_reg1 := if !aresetn then 0 else i.write.getD e.slv_reg1
  setup_req := e.setup_req.clock aresetn (e.slv_reg1.getLsbD 0)
  saxis := e.saxis.clock aresetn e.setup_pulse e.core.kdone e.core.done (e.decipher_bsy aresetn) i
  start := e.start.clock aresetn e.saxis.data_valid
  kload := e.kload.clock aresetn (!e.saxis.key_valid)
  core := e.core.clock R aresetn e.decipher_kload_pulse e.decipher_start_pulse e.saxis.key
    e.saxis.data
  maxis := e.maxis.clock aresetn e.core.done e.saxis.data_last e.core.text_out i.m_tready

/-- The engine after two edges in reset, from any registers. -/
def reset (R : InvCipherRounds Sa W) (i₁ i₂ : Inputs) (e : DecipherEngine Sa W) :
    DecipherEngine Sa W :=
  (e.clock R false i₁).clock R false i₂

end DecipherEngine

/-! ## One edge of the input state machine -/

theorem SAxisDecipher.clock_S0 {ctrl kdone fin busy : Bool} {i : Inputs} {s : SAxisDecipher}
    (h : s.state = .S0) :
    s.clock true ctrl kdone fin busy i =
      let need := s.setup_needed ctrl
      let take := !need && !busy && i.tvalid
      { tready := need || !busy, data_valid := false, data_last := take && i.tlast,
        data := if take then i.tdata else s.data,
        key_valid := !(need && i.tvalid),
        setup_done_reg := if need then i.tvalid else s.setup_done_reg,
        key := if need && i.tvalid then i.tdata else s.key,
        decipher_discard_result := false,
        state := if need && i.tvalid then .S2 else if take then .S1 else .S0 } := by
  simp only [clock, h, Bool.not_true, Bool.false_eq_true, if_false]
  cases s.setup_needed ctrl <;> cases busy <;> cases i.tvalid <;> simp

theorem SAxisDecipher.clock_S1 {ctrl kdone busy : Bool} {i : Inputs} {s : SAxisDecipher}
    (h : s.state = .S1) :
    s.clock true ctrl kdone false busy i =
      { s with tready := false, data_valid := !s.setup_needed ctrl, key_valid := true,
               setup_done_reg := s.setup_done_reg && !s.setup_needed ctrl,
               decipher_discard_result := s.setup_needed ctrl, state := .S1 } := by
  simp only [clock, h, Bool.not_true, Bool.false_eq_true, if_false]
  cases hn : s.setup_needed ctrl <;> simp

theorem SAxisDecipher.clock_S1_finished {ctrl kdone busy : Bool} {i : Inputs} {s : SAxisDecipher}
    (h : s.state = .S1) :
    s.clock true ctrl kdone true busy i =
      let need := s.setup_needed ctrl
      { s with tready := need, data_valid := !need, key_valid := !(need && i.tvalid),
               setup_done_reg := if need then i.tvalid else s.setup_done_reg,
               key := if need && i.tvalid then i.tdata else s.key,
               decipher_discard_result := need,
               state := if need && i.tvalid then .S2 else .S0 } := by
  simp only [clock, h, Bool.not_true, Bool.false_eq_true, if_false]
  cases s.setup_needed ctrl <;> cases i.tvalid <;> simp

theorem SAxisDecipher.clock_S2 {ctrl kdone fin busy : Bool} {i : Inputs} {s : SAxisDecipher}
    (h : s.state = .S2) :
    s.clock true ctrl kdone fin busy i =
      { s with tready := false, key_valid := kdone, state := if kdone then .S0 else .S2 } := by
  simp only [clock, h, Bool.not_true, Bool.false_eq_true, if_false]
  cases kdone <;> simp

namespace DecipherEngine

variable {Sa W : Type} {R : InvCipherRounds Sa W}

/-! ## The age of a block -/

/-- The control registers `a` cycles after a capture, or with no block in the
engine when `a` is 0. -/
structure Phase (a : ℕ) (e : DecipherEngine Sa W) : Prop where
  age_le : a ≤ 15
  state : 1 ≤ a → e.saxis.state = .S1
  idle : a = 0 → e.saxis.state = .S0 ∨ e.saxis.state = .S2
  /-- Only the wait for the key schedule lowers `key_valid`. -/
  key_valid : e.saxis.key_valid = (e.saxis.state != .S2)
  key_wait : e.saxis.state = .S2 → e.saxis.data_valid = false
  no_setup : a = 1 → e.setup_needed = false
  start : StartPhase a e.saxis.data_valid e.start
  dropped : 3 ≤ a → e.saxis.data_valid = false → e.saxis.setup_done_reg = false
  dcnt : e.core.dcnt = if 4 ≤ a then a - 3 else 0
  go : e.core.go = decide (4 ≤ a)
  done : e.core.done = (a == 15)
  ready_first : a = 1 → e.saxis.tready = true
  ready_low : 2 ≤ a → e.saxis.tready = false
  port : PortPhase a e.maxis

/-- The FSM steps from S0 to S1 at this edge. -/
def captures (i : Inputs) (e : DecipherEngine Sa W) : Bool :=
  e.saxis.state == .S0 && (!e.setup_needed && !e.decipher_bsy true && i.tvalid)

theorem phase_reset (i₁ i₂ : Inputs) (e : DecipherEngine Sa W) : Phase 0 (e.reset R i₁ i₂) := by
  refine ⟨by omega, by omega, fun _ => Or.inl ?_, ?_, ?_, by omega,
    ⟨by omega, by omega, by omega, ?_, ?_⟩, by omega, ?_, ?_, ?_, by omega, by omega,
    PortPhase.init _ ?_⟩ <;>
    simp [reset, clock, SAxisDecipher.clock, MAxis.clock, InvCipherTop.clock, PulseGen.clock,
      PulseGen.pulse]

/-- The input state machine while a block is in the core. -/
theorem saxis_waits {e : DecipherEngine Sa W} (i : Inputs) (hs : e.saxis.state = .S1)
    (hd : e.core.done = false) :
    (e.clock R true i).saxis =
      { e.saxis with tready := false, data_valid := !e.setup_needed, key_valid := true,
                     setup_done_reg := e.saxis.setup_done_reg && !e.setup_needed,
                     decipher_discard_result := e.setup_needed, state := .S1 } := by
  simp only [clock, hd]
  exact SAxisDecipher.clock_S1 hs

/-- A request that came at age 2 or later is not forgotten before `done`. -/
theorem needed_of_dropped {a : ℕ} {e : DecipherEngine Sa W} (h : Phase a e) (h3 : 3 ≤ a)
    (hv : e.saxis.data_valid = false) : e.setup_needed = true := by
  simp [setup_needed, SAxisDecipher.setup_needed, h.dropped h3 hv]

/-- The registers of the core follow the age. -/
theorem core_clock {a a' : ℕ} {e : DecipherEngine Sa W} (h : Phase a e) (i : Inputs)
    (hnext : a' = a + 1 ∨ a' ≤ 1 ∧ (a = 0 ∨ a = 15)) (hle : a' ≤ 15) :
    (e.clock R true i).core.dcnt = (if 4 ≤ a' then a' - 3 else 0) ∧
      (e.clock R true i).core.go = decide (4 ≤ a') ∧
      (e.clock R true i).core.done = (a' == 15) := by
  have hle := h.age_le
  simp only [clock, InvCipherTop.clock, decipher_start_pulse, h.start.pulse, h.dcnt, h.go, h.done]
  rcases (by omega : a < 3 ∨ a = 3 ∨ (4 ≤ a ∧ a ≤ 14) ∨ a = 15) with h3 | rfl | ⟨h4, h14⟩ | rfl
  · rw [show (a == 3) = false by simp; omega, show (a == 15) = false by simp; omega,
      show (a' == 15) = false by simp; omega, if_neg (by omega : ¬ 4 ≤ a),
      if_neg (by omega : ¬ 4 ≤ a'), decide_eq_false (by omega : ¬ 4 ≤ a),
      decide_eq_false (by omega : ¬ 4 ≤ a')]
    exact ⟨rfl, rfl, rfl⟩
  · obtain rfl : a' = 4 := by omega
    exact ⟨rfl, rfl, rfl⟩
  · obtain rfl : a' = a + 1 := by omega
    rw [show (a == 3) = false by simp; omega, show (a == 15) = false by simp; omega,
      if_pos h4, if_pos (by omega : 4 ≤ a + 1), decide_eq_true h4,
      decide_eq_true (by omega : 4 ≤ a + 1)]
    refine ⟨?_, rfl, ?_⟩
    · simp only [Bool.not_true, Bool.false_eq_true, if_false, if_true]
      omega
    · rw [Bool.eq_iff_iff]
      simp only [Bool.not_false, Bool.and_true, beq_iff_eq]
      omega
  · rw [show (a' == 15) = false by simp; omega, if_neg (by omega : ¬ 4 ≤ a'),
      decide_eq_false (by omega : ¬ 4 ≤ a')]
    exact ⟨rfl, rfl, rfl⟩

/-- An age from 1 to 14 grows, whatever the inputs do. -/
theorem phase_grow {a : ℕ} {e : DecipherEngine Sa W} (h : Phase a e) (i : Inputs) (h1 : 1 ≤ a)
    (h14 : a ≤ 14) : Phase (a + 1) (e.clock R true i) := by
  have hst := h.state h1
  have hdone : e.core.done = false := by rw [h.done]; simp; omega
  have hs := saxis_waits (R := R) i hst hdone
  obtain ⟨hdcnt, hgo, hdone'⟩ := core_clock (R := R) h i (Or.inl rfl) (by omega)
  have hport : PortPhase (nextAge 15 False a) (e.clock R true i).maxis := by
    simp only [clock, h.done]
    exact h.port.clock (fun _ hf => hf.elim) _ _ _
  rw [nextAge, if_neg (by omega), if_neg (by omega)] at hport
  have hkey : (e.clock R true i).saxis.state ≠ .S2 := by simp [hs]
  constructor
  case age_le => omega
  case state => exact fun _ => by rw [hs]
  case idle => omega
  case key_valid => rw [hs]; rfl
  case key_wait => exact fun h2 => absurd h2 hkey
  case no_setup => omega
  case start =>
    rw [hs]
    refine h.start.clock (Or.inl rfl) (by omega) ?_ ?_
    · intro h2
      simp [h.no_setup (by omega)]
    · intro h3 hv
      rcases (by omega : a = 2 ∨ 3 ≤ a) with rfl | h3
      · exact h.start.valid_high rfl
      · by_contra hlow
        have := needed_of_dropped h h3 (by simpa using hlow)
        simp [this] at hv
  case dropped =>
    intro _ hv
    rw [hs] at hv ⊢
    simp only [Bool.not_eq_eq_eq_not, Bool.not_false] at hv
    simp [hv]
  case dcnt => exact hdcnt
  case go => exact hgo
  case done => exact hdone'
  case ready_first => omega
  case ready_low => exact fun _ => by rw [hs]
  case port => exact hport

/-- The edge of a cycle with no block in the engine, in S0. -/
theorem phase_empty {e : DecipherEngine Sa W} (h : Phase 0 e) (hst : e.saxis.state = .S0)
    (i : Inputs) : Phase (nextAge 15 (e.captures i = true) 0) (e.clock R true i) := by
  have hcap : e.captures i = (!e.setup_needed && !e.decipher_bsy true && i.tvalid) := by
    simp [captures, hst, Bool.and_assoc]
  have hs : (e.clock R true i).saxis = e.saxis.clock true e.setup_pulse e.core.kdone e.core.done
      (e.decipher_bsy true) i := rfl
  rw [SAxisDecipher.clock_S0 hst] at hs
  have hage : ∀ a, 1 ≤ a → nextAge 15 (e.captures i = true) 0 = a →
      e.setup_needed = false ∧ e.decipher_bsy true = false ∧ i.tvalid = true := by
    intro a ha hc
    have hcap1 : e.captures i = true := by
      by_contra hn
      simp [nextAge, hn] at hc
      omega
    rw [hcap] at hcap1
    simpa [and_assoc] using hcap1
  have hle : nextAge 15 (e.captures i = true) 0 ≤ 1 := by
    rw [nextAge, if_pos rfl]
    split_ifs <;> omega
  obtain ⟨hdcnt, hgo, hdone⟩ := core_clock (R := R) h i (Or.inr ⟨hle, Or.inl rfl⟩) (by omega)
  have hport : PortPhase (nextAge 15 (e.captures i = true) 0) (e.clock R true i).maxis := by
    simp only [clock, h.done]
    refine h.port.clock (fun _ hc => ?_) _ _ _
    rw [hcap] at hc
    simp only [decipher_bsy, Bool.and_eq_true, Bool.not_eq_eq_eq_not, Bool.not_true,
      Bool.or_eq_false_iff] at hc
    exact hc.1.2.1
  have hvalid : (e.clock R true i).saxis.data_valid = false := by rw [hs]
  constructor
  case age_le => omega
  case state =>
    intro hc
    obtain ⟨hneed, hbsy, hv⟩ := hage _ hc rfl
    simp only [setup_needed] at hneed
    rw [hs]
    simp [hneed, hbsy, hv]
  case idle =>
    intro hc
    have hcap0 : e.captures i = false := by
      by_contra hn
      simp [nextAge, hn] at hc
    rw [hcap] at hcap0
    simp only [setup_needed] at hcap0
    rw [hs]
    simp only [hcap0]
    cases (e.saxis.setup_needed e.setup_pulse && i.tvalid) <;> simp
  case key_valid =>
    rw [hs]
    simp only
    cases e.saxis.setup_needed e.setup_pulse <;> cases i.tvalid <;> cases e.decipher_bsy true <;> rfl
  case key_wait => exact fun _ => hvalid
  case no_setup =>
    intro hc
    obtain ⟨hneed, hbsy, -⟩ := hage 1 (by omega) hc
    -- the config bit is low, so it makes no pulse in the next cycle
    have hbit : e.slv_reg1.getLsbD 0 = false := by
      simp only [decipher_bsy, decipher_fifo_rst, Bool.or_eq_false_iff] at hbsy
      simpa using hbsy.2
    simp only [setup_needed, SAxisDecipher.setup_needed, Bool.or_eq_false_iff] at hneed
    rw [setup_needed, hs]
    simp only [SAxisDecipher.setup_needed, setup_pulse, clock, PulseGen.pulse_clock, hbit]
    simp only [setup_pulse, Bool.not_eq_eq_eq_not, Bool.not_false] at hneed
    simp [hneed.1, hneed.2]
  case start =>
    rw [hvalid]
    refine h.start.clock ?_ (fun _ => rfl) (by omega) (fun _ hv => by cases hv)
    omega
  case dropped => omega
  case dcnt => exact hdcnt
  case go => exact hgo
  case done => exact hdone
  case ready_first =>
    intro hc
    obtain ⟨-, hbsy, -⟩ := hage 1 (by omega) hc
    rw [hs]
    simp [hbsy]
  case ready_low => omega
  case port => exact hport

/-- The edge of a cycle in S2. -/
theorem phase_key_wait {e : DecipherEngine Sa W} (h : Phase 0 e) (hst : e.saxis.state = .S2)
    (i : Inputs) : Phase 0 (e.clock R true i) := by
  have hs : (e.clock R true i).saxis = e.saxis.clock true e.setup_pulse e.core.kdone e.core.done
      (e.decipher_bsy true) i := rfl
  rw [SAxisDecipher.clock_S2 hst] at hs
  obtain ⟨hdcnt, hgo, hdone⟩ := core_clock (R := R) h i
    (Or.inr ⟨Nat.zero_le 1, Or.inl rfl⟩) (Nat.zero_le 15)
  have hport : PortPhase (nextAge 15 False 0) (e.clock R true i).maxis := by
    simp only [clock, h.done]
    exact h.port.clock (fun _ hf => hf.elim) _ _ _
  have hvalid : (e.clock R true i).saxis.data_valid = false := by rw [hs]; exact h.key_wait hst
  constructor
  case age_le => omega
  case state => omega
  case idle =>
    intro _
    rw [hs]
    cases e.core.kdone <;> simp
  case key_valid =>
    rw [hs]
    cases e.core.kdone <;> rfl
  case key_wait => exact fun _ => hvalid
  case no_setup => omega
  case start =>
    rw [hvalid]
    exact h.start.clock (Or.inr ⟨rfl, Or.inl rfl⟩) (fun _ => rfl) (by omega)
      (fun _ hv => by cases hv)
  case dropped => omega
  case dcnt => exact hdcnt
  case go => exact hgo
  case done => exact hdone
  case ready_first => omega
  case ready_low => omega
  case port => exact hport

/-- The edge that ends a block. -/
theorem phase_finish {e : DecipherEngine Sa W} (h : Phase 15 e) (i : Inputs) :
    Phase 0 (e.clock R true i) := by
  have hst : e.saxis.state = .S1 := h.state (by omega)
  have hdone : e.core.done = true := h.done
  have hs : (e.clock R true i).saxis = e.saxis.clock true e.setup_pulse e.core.kdone true
      (e.decipher_bsy true) i := by simp [clock, hdone]
  rw [SAxisDecipher.clock_S1_finished hst] at hs
  obtain ⟨hdcnt, hgo, hdone'⟩ := core_clock (R := R) h i
    (Or.inr ⟨Nat.zero_le 1, Or.inr rfl⟩) (Nat.zero_le 15)
  have hport : PortPhase (nextAge 15 False 15) (e.clock R true i).maxis := by
    simp only [clock, h.done]
    exact h.port.clock (fun h0 => absurd h0 (by decide)) _ _ _
  constructor
  case age_le => omega
  case state => omega
  case idle =>
    intro _
    rw [hs]
    cases e.saxis.setup_needed e.setup_pulse <;> cases i.tvalid <;> simp
  case key_valid =>
    rw [hs]
    cases e.saxis.setup_needed e.setup_pulse <;> cases i.tvalid <;> rfl
  case key_wait =>
    rw [hs]
    cases e.saxis.setup_needed e.setup_pulse <;> cases i.tvalid <;> simp
  case no_setup => omega
  case start =>
    refine h.start.clock (Or.inr ⟨rfl, Or.inr (by omega)⟩) (by omega) (by omega) ?_
    intro _ hv
    rw [hs] at hv
    by_contra hlow
    have := needed_of_dropped h (show 3 ≤ 15 by omega) (by simpa using hlow)
    simp only [setup_needed] at this
    simp [this] at hv
  case dropped => omega
  case dcnt => exact hdcnt
  case go => exact hgo
  case done => exact hdone'
  case ready_first => omega
  case ready_low => omega
  case port => exact hport

/-- One edge takes the age of the block to its next age. -/
theorem phase_clock {a : ℕ} {e : DecipherEngine Sa W} (h : Phase a e) (i : Inputs) :
    Phase (nextAge 15 (e.captures i = true) a) (e.clock R true i) := by
  by_cases h0 : a = 0
  · subst h0
    rcases h.idle rfl with hst | hst
    · exact phase_empty h hst i
    · have hcap : ¬ e.captures i = true := by simp [captures, hst]
      rw [nextAge, if_pos rfl, if_neg hcap]
      exact phase_key_wait h hst i
  · by_cases h15 : a = 15
    · subst h15; exact phase_finish h i
    · have := h.age_le
      rw [nextAge, if_neg h0, if_neg h15]
      exact phase_grow h i (by omega) (by omega)

/-! ## The runs -/

/-- The engine in each cycle after a reset. -/
def cycles (R : InvCipherRounds Sa W) (i₁ i₂ : Inputs) (e₀ : DecipherEngine Sa W)
    (ins : ℕ → Inputs) : ℕ → DecipherEngine Sa W :=
  run (clock R true) (e₀.reset R i₁ i₂) ins

/-- A run of the engine from a reset. -/
structure IsRun (R : InvCipherRounds Sa W) (ins : ℕ → Inputs) (e : ℕ → DecipherEngine Sa W) :
    Prop where
  start : ∃ i₁ i₂ e₀, e 0 = reset R i₁ i₂ e₀
  step : ∀ n, e (n + 1) = (e n).clock R true (ins n)

theorem cycles_isRun (R : InvCipherRounds Sa W) (i₁ i₂ : Inputs) (e₀ : DecipherEngine Sa W)
    (ins : ℕ → Inputs) : IsRun R ins (cycles R i₁ i₂ e₀ ins) :=
  ⟨⟨i₁, i₂, e₀, rfl⟩, fun _ => rfl⟩

/-- The age of the block in the engine. -/
def blockAge (ins : ℕ → Inputs) (e : ℕ → DecipherEngine Sa W) : ℕ → ℕ
  | 0 => 0
  | n + 1 => nextAge 15 ((e n).captures (ins n) = true) (blockAge ins e n)

/-- Rounds that keep the block as it is. -/
def plainInvRounds : InvCipherRounds Word Word where
  kld k := k
  next k := k
  wk k := k
  init t _ := t
  round t _ := t
  last t _ := t

/-- All registers low. -/
def low : DecipherEngine Word Word where
  slv_reg1 := 0
  setup_req := ⟨false, false⟩
  saxis := ⟨false, false, false, 0, false, false, 0, false, .S0⟩
  start := ⟨false, false⟩
  kload := ⟨false, false⟩
  core := ⟨0, false, false, false, 0, 0, 0, 0, 0, fun _ => 0, 0, false, false⟩
  maxis := ⟨false, false, 0, false, .S0⟩

namespace IsRun

variable {ins : ℕ → Inputs} {e : ℕ → DecipherEngine Sa W}

theorem phase (h : IsRun R ins e) (n : ℕ) : Phase (blockAge ins e n) (e n) := by
  induction n with
  | zero =>
    obtain ⟨i₁, i₂, e₀, h0⟩ := h.start
    rw [h0]
    exact phase_reset i₁ i₂ e₀
  | succ n ih =>
    rw [h.step]
    exact phase_clock ih (ins n)

theorem age_of_captures (h : IsRun R ins e) {n : ℕ} (hc : (e n).captures (ins n) = true) :
    blockAge ins e n = 0 := by
  by_contra hne
  have hst := (h.phase n).state (by omega)
  simp [captures, hst] at hc

/-- The blocks of the run. -/
def pipe (h : IsRun R ins e) : BlockPipe where
  captured n := (e n).captures (ins n)
  age := blockAge ins e
  start_pulse n := (e n).decipher_start_pulse
  done n := (e n).core.done
  last n := (e n).saxis.data_last
  text n := (e n).core.text_out
  ready n := (ins n).m_tready
  maxis n := (e n).maxis
  one_item := ⟨Nat.succ_pos _, rfl, fun _ => rfl, fun _ hn => h.age_of_captures hn⟩
  start_eq n := (h.phase n).start.pulse
  done_eq n := (h.phase n).done
  port_phase n := (h.phase n).port
  port_start := by
    obtain ⟨i₁, i₂, e₀, h0⟩ := h.start
    simp only [h0]
    simp [reset, clock, MAxis.clock]
  port_step n := by rw [h.step]; rfl
  not_busy n hn := by
    simp only [captures, decipher_bsy, Bool.and_eq_true, Bool.not_eq_eq_eq_not, Bool.not_true,
      Bool.or_eq_false_iff] at hn
    exact hn.2.1.2.1

end IsRun

end DecipherEngine

end aes_core
