-- The cipher engine: the config register, the input state machine, the start
-- pulse, the core and the output port, wired as in the top module. A captured
-- block has an age, the cycles since its capture, and the age fixes the
-- control registers of the whole engine.
import Mathlib.Logic.Function.Iterate
import AesMusicPlayer.BlockPipe

open clocked

namespace aes_core

structure CipherEngine (Sa W : Type) where
  slv_reg0 : BitVec 32
  /-- `cipher_setup_req_sig` and `cipher_prev_setup_req_sig` -/
  setup_req : PulseGen
  saxis : SAxisCipher
  /-- `cipher_start` and `cipher_start_prev` -/
  start : PulseGen
  core : CipherTop Sa W
  maxis : MAxis

namespace CipherEngine

variable {Sa W : Type}

/-- Bit 0 of `cipher_ctrl_reg`. -/
def setup_pulse (e : CipherEngine Sa W) : Bool := e.setup_req.pulse

def setup_needed (e : CipherEngine Sa W) : Bool := e.saxis.setup_needed e.setup_pulse

def cipher_start_pulse (e : CipherEngine Sa W) : Bool := e.start.pulse

/-- The reset of the output FIFO, active low. -/
def cipher_fifo_rst (aresetn : Bool) (e : CipherEngine Sa W) : Bool :=
  !e.slv_reg0.getLsbD 0 && aresetn

def cipher_bsy (aresetn : Bool) (e : CipherEngine Sa W) : Bool :=
  e.maxis.busy || !e.cipher_fifo_rst aresetn

/-- One edge. `cipher_discard_result` drives nothing: its use in
`cipher_text_out_valid` is commented out. -/
def clock (R : CipherRounds Sa W) (aresetn : Bool) (i : Inputs) (e : CipherEngine Sa W) :
    CipherEngine Sa W where
  slv_reg0 := if !aresetn then 0 else i.write.getD e.slv_reg0
  setup_req := e.setup_req.clock aresetn (e.slv_reg0.getLsbD 0)
  saxis := e.saxis.clock aresetn e.setup_pulse e.core.done (e.cipher_bsy aresetn) i
  start := e.start.clock aresetn e.saxis.data_valid
  core := e.core.clock R aresetn e.cipher_start_pulse e.saxis.key e.saxis.data
  maxis := e.maxis.clock aresetn e.core.done e.saxis.data_last e.core.text_out i.m_tready

/-- The engine after two edges in reset, from any registers. The second edge
clears `done`, which has no reset of its own. -/
def reset (R : CipherRounds Sa W) (i₁ i₂ : Inputs) (e : CipherEngine Sa W) : CipherEngine Sa W :=
  (e.clock R false i₁).clock R false i₂

end CipherEngine

/-! ## One edge of the input state machine -/

theorem SAxisCipher.clock_S0 {ctrl fin busy : Bool} {i : Inputs} {s : SAxisCipher}
    (h : s.state = .S0) :
    s.clock true ctrl fin busy i =
      let need := s.setup_needed ctrl
      let take := !need && !busy && i.tvalid
      { tready := need || !busy, data_valid := false, data_last := take && i.tlast,
        data := if take then i.tdata else s.data,
        setup_done_reg := if need then i.tvalid else s.setup_done_reg,
        key := if need && i.tvalid then i.tdata else s.key,
        cipher_discard_result := false, state := if take then .S1 else .S0 } := by
  simp only [clock, h, Bool.not_true, Bool.false_eq_true, if_false]
  cases s.setup_needed ctrl <;> cases busy <;> cases i.tvalid <;> simp

theorem SAxisCipher.clock_S1 {ctrl busy : Bool} {i : Inputs} {s : SAxisCipher}
    (h : s.state = .S1) :
    s.clock true ctrl false busy i =
      { s with tready := false, data_valid := !s.setup_needed ctrl,
               setup_done_reg := s.setup_done_reg && !s.setup_needed ctrl,
               cipher_discard_result := s.setup_needed ctrl, state := .S1 } := by
  simp only [clock, h, Bool.not_true, Bool.false_eq_true, if_false]
  cases hn : s.setup_needed ctrl <;> simp

theorem SAxisCipher.clock_S1_finished {ctrl busy : Bool} {i : Inputs} {s : SAxisCipher}
    (h : s.state = .S1) :
    s.clock true ctrl true busy i =
      let need := s.setup_needed ctrl
      { s with tready := need, data_valid := !need,
               setup_done_reg := if need then i.tvalid else s.setup_done_reg,
               key := if need && i.tvalid then i.tdata else s.key,
               cipher_discard_result := need, state := .S0 } := by
  simp only [clock, h, Bool.not_true, Bool.false_eq_true, if_false]
  cases s.setup_needed ctrl <;> cases i.tvalid <;> simp

namespace CipherEngine

variable {Sa W : Type} {R : CipherRounds Sa W}

/-! ## The age of a block -/

/-- The control registers `a` cycles after a capture, or with no block in the
engine when `a` is 0. -/
structure Phase (a : ℕ) (e : CipherEngine Sa W) : Prop where
  age_le : a ≤ 15
  state : e.saxis.state = if a = 0 then .S0 else .S1
  /-- The config bit makes the engine busy a cycle before it makes the pulse,
  so no setup request comes in the cycle after a capture. -/
  no_setup : a = 1 → e.setup_needed = false
  start : StartPhase a e.saxis.data_valid e.start
  dropped : 3 ≤ a → e.saxis.data_valid = false → e.saxis.setup_done_reg = false
  dcnt : e.core.dcnt = if 4 ≤ a then 15 - a else 0
  done : e.core.done = (a == 15)
  ready_first : a = 1 → e.saxis.tready = true
  ready_low : 2 ≤ a → e.saxis.tready = false
  port : PortPhase a e.maxis

/-- The FSM steps from S0 to S1 at this edge. -/
def captures (i : Inputs) (e : CipherEngine Sa W) : Bool :=
  e.saxis.state == .S0 && (!e.setup_needed && !e.cipher_bsy true && i.tvalid)

theorem phase_reset (i₁ i₂ : Inputs) (e : CipherEngine Sa W) : Phase 0 (e.reset R i₁ i₂) := by
  refine ⟨by omega, ?_, by omega, ⟨by omega, by omega, by omega, ?_, ?_⟩, by omega, ?_, ?_,
    by omega, by omega, PortPhase.init _ ?_⟩ <;>
    simp [reset, clock, SAxisCipher.clock, MAxis.clock, CipherTop.clock, PulseGen.clock,
      PulseGen.pulse]

/-- The input state machine while a block is in the core. -/
theorem saxis_waits {e : CipherEngine Sa W} (i : Inputs) (hs : e.saxis.state = .S1)
    (hd : e.core.done = false) :
    (e.clock R true i).saxis =
      { e.saxis with tready := false, data_valid := !e.setup_needed,
                     setup_done_reg := e.saxis.setup_done_reg && !e.setup_needed,
                     cipher_discard_result := e.setup_needed, state := .S1 } := by
  simp only [clock, hd]
  exact SAxisCipher.clock_S1 hs

theorem dcnt_clock (e : CipherEngine Sa W) (i : Inputs) :
    (e.clock R true i).core.dcnt =
      if e.cipher_start_pulse then 11 else e.core.dcnt - 1 := by
  simp only [clock, CipherTop.clock]
  split_ifs <;> simp_all

theorem done_clock (e : CipherEngine Sa W) (i : Inputs) :
    (e.clock R true i).core.done = (e.core.dcnt == 1 && !e.cipher_start_pulse) := rfl

/-- A request that came at age 2 or later is not forgotten before `done`. -/
theorem needed_of_dropped {a : ℕ} {e : CipherEngine Sa W} (h : Phase a e) (h3 : 3 ≤ a)
    (hv : e.saxis.data_valid = false) : e.setup_needed = true := by
  simp [setup_needed, SAxisCipher.setup_needed, h.dropped h3 hv]

/-- The pulses of the core follow the age. -/
theorem core_clock {a a' : ℕ} {e : CipherEngine Sa W} (h : Phase a e) (i : Inputs)
    (hnext : a' = a + 1 ∨ a' ≤ 1 ∧ (a = 0 ∨ a = 15)) (hle : a' ≤ 15) :
    (e.clock R true i).core.dcnt = (if 4 ≤ a' then 15 - a' else 0) ∧
      (e.clock R true i).core.done = (a' == 15) := by
  have hle := h.age_le
  rw [dcnt_clock, done_clock, cipher_start_pulse, h.start.pulse, h.dcnt]
  rcases (by omega : a < 3 ∨ a = 3 ∨ 4 ≤ a) with h3 | rfl | h4
  · rw [show (a == 3) = false by simp; omega, show (a' == 15) = false by simp; omega,
      if_neg (by omega : ¬ 4 ≤ a), if_neg (by omega : ¬ 4 ≤ a')]
    exact ⟨rfl, rfl⟩
  · obtain rfl : a' = 4 := by omega
    exact ⟨rfl, rfl⟩
  · rw [show (a == 3) = false by simp; omega, if_pos h4]
    refine ⟨?_, ?_⟩
    · simp only [Bool.false_eq_true, if_false]
      split_ifs <;> omega
    · by_cases h14 : a = 14
      · subst h14
        rw [show (a' == 15) = true by simp; omega]
        rfl
      · rw [show (15 - a == 1) = false by simp; omega, show (a' == 15) = false by simp; omega]
        rfl

/-- An age from 1 to 14 grows, whatever the inputs do. -/
theorem phase_grow {a : ℕ} {e : CipherEngine Sa W} (h : Phase a e) (i : Inputs) (h1 : 1 ≤ a)
    (h14 : a ≤ 14) : Phase (a + 1) (e.clock R true i) := by
  have hst : e.saxis.state = .S1 := by rw [h.state, if_neg (by omega)]
  have hdone : e.core.done = false := by rw [h.done]; simp; omega
  have hs := saxis_waits (R := R) i hst hdone
  obtain ⟨hdcnt, hdone'⟩ := core_clock (R := R) h i (Or.inl rfl) (by omega)
  have hport : PortPhase (nextAge 15 False a) (e.clock R true i).maxis := by
    simp only [clock, h.done]
    exact h.port.clock (fun _ hf => hf.elim) _ _ _
  rw [nextAge, if_neg (by omega), if_neg (by omega)] at hport
  constructor
  case age_le => omega
  case state =>
    rw [hs, if_neg (by omega)]
  case no_setup => omega
  case start =>
    rw [hs]
    refine h.start.clock (Or.inl rfl) (by omega) ?_ ?_
    · intro h2
      simp [h.no_setup (by omega)]
    · intro h3 hv
      rcases (by omega : a = 2 ∨ 3 ≤ a) with rfl | h3
      · exact h.start.valid_high rfl
      · by_contra hlow
        have := needed_of_dropped h h3 (by simpa using hlow)
        simp [this] at hv
  case dropped =>
    intro _ hv
    rw [hs] at hv ⊢
    simp only [Bool.not_eq_eq_eq_not, Bool.not_false] at hv
    simp [hv]
  case dcnt => exact hdcnt
  case done => exact hdone'
  case ready_first => omega
  case ready_low => exact fun _ => by rw [hs]
  case port => exact hport

/-- The edge of a cycle with no block in the engine. -/
theorem phase_empty {e : CipherEngine Sa W} (h : Phase 0 e) (i : Inputs) :
    Phase (nextAge 15 (e.captures i = true) 0) (e.clock R true i) := by
  have hst : e.saxis.state = .S0 := h.state
  have hcap : e.captures i = (!e.setup_needed && !e.cipher_bsy true && i.tvalid) := by
    simp [captures, hst, Bool.and_assoc]
  have hs : (e.clock R true i).saxis = e.saxis.clock true e.setup_pulse e.core.done
      (e.cipher_bsy true) i := rfl
  rw [SAxisCipher.clock_S0 hst] at hs
  have hle : nextAge 15 (e.captures i = true) 0 ≤ 1 := by
    rw [nextAge, if_pos rfl]
    split_ifs <;> omega
  obtain ⟨hdcnt, hdone⟩ := core_clock (R := R) h i
    (Or.inr ⟨hle, Or.inl rfl⟩) (by omega)
  have hidle : e.captures i = true → e.setup_needed = false ∧ e.cipher_bsy true = false := by
    intro hc
    rw [hcap] at hc
    simp only [Bool.and_eq_true, Bool.not_eq_eq_eq_not, Bool.not_true] at hc
    exact hc.1
  have hport : PortPhase (nextAge 15 (e.captures i = true) 0) (e.clock R true i).maxis := by
    simp only [clock, h.done]
    refine h.port.clock (fun _ hc => ?_) _ _ _
    have := (hidle hc).2
    simp only [cipher_bsy, Bool.or_eq_false_iff] at this
    exact this.1
  have hvalid : (e.clock R true i).saxis.data_valid = false := by rw [hs]
  constructor
  case age_le => omega
  case state =>
    rw [hs, nextAge, if_pos rfl, hcap]
    simp only [setup_needed]
    split_ifs <;> simp_all
  case no_setup =>
    intro hc
    have hcap1 : e.captures i = true := by
      by_contra hn
      simp [nextAge, hn] at hc
    obtain ⟨hneed, hbsy⟩ := hidle hcap1
    -- the config bit is low, so it makes no pulse in the next cycle
    have hbit : e.slv_reg0.getLsbD 0 = false := by
      simp only [cipher_bsy, cipher_fifo_rst, Bool.or_eq_false_iff] at hbsy
      simpa using hbsy.2
    simp only [setup_needed, SAxisCipher.setup_needed, Bool.or_eq_false_iff] at hneed
    rw [setup_needed, hs]
    simp only [SAxisCipher.setup_needed, setup_pulse, clock, PulseGen.pulse_clock, hbit]
    simp only [setup_pulse, Bool.not_eq_eq_eq_not, Bool.not_false] at hneed
    simp [hneed.1, hneed.2]
  case start =>
    rw [hvalid]
    refine h.start.clock ?_ (fun _ => rfl) (by omega) (fun _ hv => by cases hv)
    omega
  case dropped => omega
  case dcnt => exact hdcnt
  case done => exact hdone
  case ready_first =>
    intro hc
    have hcap1 : e.captures i = true := by
      by_contra hn
      simp [nextAge, hn] at hc
    obtain ⟨-, hbsy⟩ := hidle hcap1
    rw [hs]
    simp [hbsy]
  case ready_low => omega
  case port => exact hport

/-- The edge that ends a block. -/
theorem phase_finish {e : CipherEngine Sa W} (h : Phase 15 e) (i : Inputs) :
    Phase 0 (e.clock R true i) := by
  have hst : e.saxis.state = .S1 := h.state
  have hdone : e.core.done = true := h.done
  have hs : (e.clock R true i).saxis = e.saxis.clock true e.setup_pulse true
      (e.cipher_bsy true) i := by simp [clock, hdone]
  rw [SAxisCipher.clock_S1_finished hst] at hs
  obtain ⟨hdcnt, hdone'⟩ := core_clock (R := R) h i
    (Or.inr ⟨Nat.zero_le 1, Or.inr rfl⟩) (Nat.zero_le 15)
  have hport : PortPhase (nextAge 15 False 15) (e.clock R true i).maxis := by
    simp only [clock, h.done]
    exact h.port.clock (fun h0 => absurd h0 (by decide)) _ _ _
  constructor
  case age_le => omega
  case state =>
    rw [hs]
    rfl
  case no_setup => omega
  case start =>
    refine h.start.clock (Or.inr ⟨rfl, Or.inr (by omega)⟩) (by omega) (by omega) ?_
    intro _ hv
    rw [hs] at hv
    by_contra hlow
    have := needed_of_dropped h (show 3 ≤ 15 by omega) (by simpa using hlow)
    simp only [setup_needed] at this
    simp [this] at hv
  case dropped => omega
  case dcnt => exact hdcnt
  case done => exact hdone'
  case ready_first => omega
  case ready_low => omega
  case port => exact hport

/-- One edge takes the age of the block to its next age. -/
theorem phase_clock {a : ℕ} {e : CipherEngine Sa W} (h : Phase a e) (i : Inputs) :
    Phase (nextAge 15 (e.captures i = true) a) (e.clock R true i) := by
  by_cases h0 : a = 0
  · subst h0; exact phase_empty h i
  · by_cases h15 : a = 15
    · subst h15; exact phase_finish h i
    · have := h.age_le
      rw [nextAge, if_neg h0, if_neg h15]
      exact phase_grow h i (by omega) (by omega)

end CipherEngine

/-! ## The rounds of a block -/

namespace CipherRounds

variable {Sa W : Type} (R : CipherRounds Sa W)

/-- The key expander `j` cycles after it was loaded with the key `k`. -/
def roundKey (k : Word) (j : ℕ) : W := R.next^[j] (R.kld k)

/-- The state bytes of the block `t` after `j` rounds. -/
def rounds (k t : Word) : ℕ → Sa
  | 0 => R.init t (R.roundKey k 0)
  | j + 1 => R.round (rounds k t j) (R.roundKey k (j + 1))

/-- The block that the core makes of `t` under the key `k`. -/
def encrypt (k t : Word) : Word := R.last (R.rounds k t 9) (R.roundKey k 10)

theorem roundKey_succ (k : Word) (j : ℕ) : R.roundKey k (j + 1) = R.next (R.roundKey k j) :=
  Function.iterate_succ_apply' _ _ _

end CipherRounds

namespace CipherEngine

variable {Sa W : Type} {R : CipherRounds Sa W}

/-- What the core has made of the block in `data` at age `a`. -/
structure Progress (R : CipherRounds Sa W) (a : ℕ) (e : CipherEngine Sa W) : Prop where
  loaded : a = 4 → e.core.ld_r = true ∧ e.core.text_in_r = e.saxis.data ∧
    e.core.w = R.roundKey e.saxis.key 0
  rounds : ∀ j, j ≤ 9 → a = j + 5 → e.core.ld_r = false ∧
    e.core.sa = R.rounds e.saxis.key e.saxis.data j ∧ e.core.w = R.roundKey e.saxis.key (j + 1)
  out : a = 15 → e.core.text_out = R.encrypt e.saxis.key e.saxis.data

/-- Key, block and last flag stay as they are until `done`. -/
theorem saxis_keeps {a : ℕ} {e : CipherEngine Sa W} (h : Phase a e) (i : Inputs) (h1 : 1 ≤ a)
    (h14 : a ≤ 14) :
    (e.clock R true i).saxis.key = e.saxis.key ∧ (e.clock R true i).saxis.data = e.saxis.data ∧
      (e.clock R true i).saxis.data_last = e.saxis.data_last := by
  have hst : e.saxis.state = .S1 := by rw [h.state, if_neg (by omega)]
  have hdone : e.core.done = false := by rw [h.done]; simp; omega
  rw [saxis_waits i hst hdone]
  exact ⟨rfl, rfl, rfl⟩

theorem progress_clock {a : ℕ} {e : CipherEngine Sa W} (h : Phase a e) (hp : Progress R a e)
    (i : Inputs) : Progress R (nextAge 15 (e.captures i = true) a) (e.clock R true i) := by
  rcases (by have := h.age_le; omega : a = 0 ∨ a = 15 ∨ (1 ≤ a ∧ a ≤ 14)) with rfl | rfl | ⟨h1, h14⟩
  · rw [nextAge, if_pos rfl]
    split_ifs <;> exact ⟨by omega, fun j _ h => by omega, by omega⟩
  · rw [nextAge, if_neg (by omega), if_pos rfl]
    exact ⟨by omega, fun j _ h => by omega, by omega⟩
  · rw [nextAge, if_neg (by omega), if_neg (by omega)]
    obtain ⟨hk, hd, -⟩ := saxis_keeps (R := R) h i h1 h14
    have hld : e.cipher_start_pulse = (a == 3) := h.start.pulse
    constructor
    · intro h4
      obtain rfl : a = 3 := by omega
      rw [hk, hd]
      simp [clock, CipherTop.clock, hld, CipherRounds.roundKey]
    · intro j hj hj5
      rw [hk, hd]
      have hlow : e.cipher_start_pulse = false := by rw [hld]; simp; omega
      cases j with
      | zero =>
        obtain ⟨h1, h2, h3⟩ := hp.loaded (by omega)
        simp [clock, CipherTop.clock, hlow, h1, h2, h3, CipherRounds.rounds,
          CipherRounds.roundKey_succ]
      | succ j =>
        obtain ⟨h1, h2, h3⟩ := hp.rounds j (by omega) (by omega)
        simp [clock, CipherTop.clock, hlow, h1, h2, h3, CipherRounds.rounds,
          CipherRounds.roundKey_succ]
    · intro h15
      rw [hk, hd]
      obtain ⟨-, h2, h3⟩ := hp.rounds 9 (by omega) (by omega)
      simp [clock, CipherTop.clock, h2, h3, CipherRounds.encrypt]

end CipherEngine

end aes_core
