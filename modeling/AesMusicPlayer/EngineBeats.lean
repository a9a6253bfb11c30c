-- The laws of the beats of both engines: which beats reach the key register
-- or the data register once, and which are lost or taken twice.
import AesMusicPlayer.CipherBlocks
import AesMusicPlayer.DecipherEngine
import AesMusicPlayer.InputPort

open clocked

namespace aes_core

/-! ## The registers that take a beat -/

namespace SAxisCipher

variable {ctrl fin busy : Bool} {i : Inputs} {s : SAxisCipher}

theorem key_clock (h : s.state = .S0 ∨ s.state = .S1) :
    (s.clock true ctrl fin busy i).key =
      if s.setup_needed ctrl && i.tvalid && (s.state == .S0 || (s.state == .S1 && fin))
        then i.tdata else s.key := by
  rcases h with h | h
  · rw [clock_S0 h]
    simp [h]
  · cases fin
    · rw [clock_S1 h]
      simp [h]
    · rw [clock_S1_finished h]
      simp [h]

theorem data_clock (h : s.state = .S0 ∨ s.state = .S1) :
    (s.clock true ctrl fin busy i).data =
      if s.state == .S0 && (!s.setup_needed ctrl && !busy && i.tvalid) then i.tdata
        else s.data := by
  rcases h with h | h
  · rw [clock_S0 h]
    simp [h]
  · cases fin
    · rw [clock_S1 h]
      simp [h]
    · rw [clock_S1_finished h]
      simp [h]

theorem ready_of_key
    (ht : (s.setup_needed ctrl && i.tvalid && (s.state == .S0 || (s.state == .S1 && fin))) = true) :
    (s.clock true ctrl fin busy i).tready = true := by
  simp only [Bool.and_eq_true, Bool.or_eq_true, beq_iff_eq] at ht
  rcases ht.2 with h0 | ⟨h1, rfl⟩
  · rw [clock_S0 h0]
    simp [ht.1.1]
  · rw [clock_S1_finished h1]
    exact ht.1.1

theorem ready_of_data
    (ht : (s.state == .S0 && (!s.setup_needed ctrl && !busy && i.tvalid)) = true) :
    (s.clock true ctrl fin busy i).tready = true ∧
      (s.clock true ctrl fin busy i).data_last = i.tlast := by
  simp only [Bool.and_eq_true, beq_iff_eq, Bool.not_eq_eq_eq_not, Bool.not_true] at ht
  rw [clock_S0 ht.1]
  simp [ht.2.1.1, ht.2.1.2, ht.2.2]

end SAxisCipher

namespace SAxisDecipher

variable {ctrl kdone fin busy : Bool} {i : Inputs} {s : SAxisDecipher}

theorem key_clock (h : s.state = .S0 ∨ s.state = .S1 ∨ s.state = .S2) :
    (s.clock true ctrl kdone fin busy i).key =
      if s.setup_needed ctrl && i.tvalid && (s.state == .S0 || (s.state == .S1 && fin))
        then i.tdata else s.key := by
  rcases h with h | h | h
  · rw [clock_S0 h]
    simp [h]
  · cases fin
    · rw [clock_S1 h]
      simp [h]
    · rw [clock_S1_finished h]
      simp [h]
  · rw [clock_S2 h]
    simp [h]

theorem data_clock (h : s.state = .S0 ∨ s.state = .S1 ∨ s.state = .S2) :
    (s.clock true ctrl kdone fin busy i).data =
      if s.state == .S0 && (!s.setup_needed ctrl && !busy && i.tvalid) then i.tdata
        else s.data := by
  rcases h with h | h | h
  · rw [clock_S0 h]
    simp [h]
  · cases fin
    · rw [clock_S1 h]
      simp [h]
    · rw [clock_S1_finished h]
      simp [h]
  · rw [clock_S2 h]
    simp [h]

theorem ready_of_key
    (ht : (s.setup_needed ctrl && i.tvalid && (s.state == .S0 || (s.state == .S1 && fin))) = true) :
    (s.clock true ctrl kdone fin busy i).tready = true := by
  simp only [Bool.and_eq_true, Bool.or_eq_true, beq_iff_eq] at ht
  rcases ht.2 with h0 | ⟨h1, rfl⟩
  · rw [clock_S0 h0]
    simp [ht.1.1]
  · rw [clock_S1_finished h1]
    exact ht.1.1

theorem ready_of_data
    (ht : (s.state == .S0 && (!s.setup_needed ctrl && !busy && i.tvalid)) = true) :
    (s.clock true ctrl kdone fin busy i).tready = true ∧
      (s.clock true ctrl kdone fin busy i).data_last = i.tlast := by
  simp only [Bool.and_eq_true, beq_iff_eq, Bool.not_eq_eq_eq_not, Bool.not_true] at ht
  rw [clock_S0 ht.1]
  simp [ht.2.1.1, ht.2.1.2, ht.2.2]

/-- The FSM enters S2 only with a key. -/
theorem key_of_S2 (h : s.state = .S0 ∨ s.state = .S1)
    (h2 : (s.clock true ctrl kdone fin busy i).state = .S2) :
    (s.setup_needed ctrl && i.tvalid && (s.state == .S0 || (s.state == .S1 && fin))) = true := by
  rcases h with h | h
  · rw [clock_S0 h] at h2
    revert h2
    cases s.setup_needed ctrl <;> cases i.tvalid <;> cases busy <;> simp [h]
  · cases fin
    · rw [clock_S1 h] at h2
      cases h2
    · rw [clock_S1_finished h] at h2
      revert h2
      cases s.setup_needed ctrl <;> cases i.tvalid <;> simp [h]

end SAxisDecipher

/-! ## The port of the cipher engine -/

namespace CipherEngine

variable {Sa W : Type} {R : CipherRounds Sa W} {ins : ℕ → Inputs} {e : ℕ → CipherEngine Sa W}

def inPort (ins : ℕ → Inputs) (e : ℕ → CipherEngine Sa W) : InputPort where
  ins := ins
  state n := (e n).saxis.state
  tready n := (e n).saxis.tready
  setup_needed n := (e n).setup_needed
  busy n := (e n).cipher_bsy true
  finished n := (e n).core.done
  key n := (e n).saxis.key
  data n := (e n).saxis.data
  data_last n := (e n).saxis.data_last

namespace IsRun

theorem saxis_step (h : IsRun R ins e) (n : ℕ) :
    (e (n + 1)).saxis = (e n).saxis.clock true (e n).setup_pulse (e n).core.done
      ((e n).cipher_bsy true) (ins n) := by
  rw [h.step]
  rfl

theorem state_cases (h : IsRun R ins e) (n : ℕ) :
    (e n).saxis.state = .S0 ∨ (e n).saxis.state = .S1 := by
  rw [(h.phase n).state]
  split_ifs <;> simp

/-- Outside S0 the port is open at age 1 only. -/
theorem age_of_open (h : IsRun R ins e) {n : ℕ} (hs : (e n).saxis.state ≠ .S0)
    (hr : (e n).saxis.tready = true) : blockAge ins e n = 1 := by
  have hne : blockAge ins e n ≠ 0 := by
    intro h0
    have hst := (h.phase n).state
    rw [if_pos h0] at hst
    exact hs hst
  by_contra h1
  have hlow := (h.phase n).ready_low (by omega)
  rw [hlow] at hr
  cases hr

theorem inPort_laws (h : IsRun R ins e) : (inPort ins e).Laws where
  key_step n :=
    (congrArg SAxisCipher.key (h.saxis_step n)).trans (SAxisCipher.key_clock (h.state_cases n))
  data_step n :=
    (congrArg SAxisCipher.data (h.saxis_step n)).trans (SAxisCipher.data_clock (h.state_cases n))
  last_step n ht :=
    (congrArg SAxisCipher.data_last (h.saxis_step n)).trans (SAxisCipher.ready_of_data ht).2
  ready_of_take n ht := by
    simp only [InputPort.sink, Bool.or_eq_true] at ht
    simp only [inPort, h.saxis_step]
    rcases ht with ht | ht
    · exact SAxisCipher.ready_of_key ht
    · exact (SAxisCipher.ready_of_data ht).1
  open_outside n hs hr := by
    have hage := h.age_of_open hs hr
    have hd := (h.phase n).done
    rw [hage] at hd
    obtain ⟨m, hm, hn⟩ := (h.pipe.one_item.age_eq_iff (by omega) (by omega)).mp hage
    have ht : (inPort ins e).takesData m = true := hm
    exact ⟨hd, m, hn, by simp [InputPort.sink, ht]⟩
  leaves_S0 n ht := by
    have hc := ((h.captured_iff n).mpr ht).2
    simp only [inPort]
    rw [hc]
    decide

end IsRun

end CipherEngine

/-! ## The port of the decipher engine -/

namespace DecipherEngine

variable {Sa W : Type} {R : InvCipherRounds Sa W} {ins : ℕ → Inputs}
  {e : ℕ → DecipherEngine Sa W}

def inPort (ins : ℕ → Inputs) (e : ℕ → DecipherEngine Sa W) : InputPort where
  ins := ins
  state n := (e n).saxis.state
  tready n := (e n).saxis.tready
  setup_needed n := (e n).setup_needed
  busy n := (e n).decipher_bsy true
  finished n := (e n).core.done
  key n := (e n).saxis.key
  data n := (e n).saxis.data
  data_last n := (e n).saxis.data_last

namespace IsRun

theorem saxis_step (h : IsRun R ins e) (n : ℕ) :
    (e (n + 1)).saxis = (e n).saxis.clock true (e n).setup_pulse (e n).core.kdone
      (e n).core.done ((e n).decipher_bsy true) (ins n) := by
  rw [h.step]
  rfl

theorem state_cases (h : IsRun R ins e) (n : ℕ) :
    (e n).saxis.state = .S0 ∨ (e n).saxis.state = .S1 ∨ (e n).saxis.state = .S2 := by
  rcases Nat.eq_zero_or_pos (blockAge ins e n) with h0 | hpos
  · rcases (h.phase n).idle h0 with hs | hs
    · exact Or.inl hs
    · exact Or.inr (Or.inr hs)
  · exact Or.inr (Or.inl ((h.phase n).state hpos))

theorem age_of_S2 (h : IsRun R ins e) {n : ℕ} (hs : (e n).saxis.state = .S2) :
    blockAge ins e n = 0 := by
  by_contra hne
  rw [(h.phase n).state (by omega)] at hs
  cases hs

theorem age_of_S1 (h : IsRun R ins e) {n : ℕ} (hs : (e n).saxis.state = .S1) :
    1 ≤ blockAge ins e n := by
  by_contra hne
  rcases (h.phase n).idle (by omega) with h0 | h2
  · rw [hs] at h0; cases h0
  · rw [hs] at h2; cases h2

/-- In S2 the port is open in the cycle after the key only. -/
theorem key_of_open (h : IsRun R ins e) {n : ℕ} (hs : (e n).saxis.state = .S2)
    (hr : (e n).saxis.tready = true) : ∃ m, n = m + 1 ∧ (inPort ins e).takesKey m = true := by
  cases n with
  | zero =>
    obtain ⟨i₁, i₂, e₀, h0⟩ := h.start
    rw [h0] at hs
    simp [reset, clock, SAxisDecipher.clock] at hs
  | succ m =>
    refine ⟨m, rfl, ?_⟩
    rw [h.saxis_step] at hs hr
    rcases h.state_cases m with h0 | h1 | h2
    · exact SAxisDecipher.key_of_S2 (Or.inl h0) hs
    · exact SAxisDecipher.key_of_S2 (Or.inr h1) hs
    · rw [SAxisDecipher.clock_S2 h2] at hr
      cases hr

theorem inPort_laws (h : IsRun R ins e) : (inPort ins e).Laws where
  key_step n :=
    (congrArg SAxisDecipher.key (h.saxis_step n)).trans (SAxisDecipher.key_clock (h.state_cases n))
  data_step n :=
    (congrArg SAxisDecipher.data (h.saxis_step n)).trans (SAxisDecipher.data_clock (h.state_cases n))
  last_step n ht :=
    (congrArg SAxisDecipher.data_last (h.saxis_step n)).trans (SAxisDecipher.ready_of_data ht).2
  ready_of_take n ht := by
    simp only [InputPort.sink, Bool.or_eq_true] at ht
    simp only [inPort, h.saxis_step]
    rcases ht with ht | ht
    · exact SAxisDecipher.ready_of_key ht
    · exact (SAxisDecipher.ready_of_data ht).1
  open_outside n hs hr := by
    have hd := (h.phase n).done
    rcases h.state_cases n with h0 | h1 | h2
    · exact absurd h0 hs
    · have hpos := h.age_of_S1 h1
      have hage : blockAge ins e n = 1 := by
        by_contra hne
        have hlow := (h.phase n).ready_low (by omega)
        have hhigh : (e n).saxis.tready = true := hr
        rw [hlow] at hhigh
        cases hhigh
      rw [hage] at hd
      obtain ⟨m, hm, hn⟩ := (h.pipe.one_item.age_eq_iff (by omega) (by omega)).mp hage
      have ht : (inPort ins e).takesData m = true := hm
      exact ⟨hd, m, hn, by simp [InputPort.sink, ht]⟩
    · rw [h.age_of_S2 h2] at hd
      obtain ⟨m, hn, ht⟩ := h.key_of_open h2 hr
      exact ⟨hd, m, hn, by simp [InputPort.sink, ht]⟩
  leaves_S0 n ht := by
    have hage := h.age_of_captures ht
    have hph := (h.phase (n + 1)).state
    have ht' : (e n).captures (ins n) = true := ht
    rw [blockAge, hage, nextAge, if_pos rfl, if_pos ht'] at hph
    simp only [inPort]
    rw [hph (Nat.le_refl 1)]
    decide

end IsRun

end DecipherEngine

/-! ## The laws -/

/-- In every run of either engine with a sender that conforms, each beat that
is handed over is taken once exactly when the FSM is in step with each of them. -/
theorem each_beat_is_taken_once_iff_in_step {Sa W Sa' W' : Type} (R : CipherRounds Sa W)
    (R' : InvCipherRounds Sa' W') (ins : ℕ → Inputs) :
    (∀ e, CipherEngine.IsRun R ins e → (CipherEngine.inPort ins e).Conforms →
      ((CipherEngine.inPort ins e).EachBeatOnce ↔
        ∀ n, (CipherEngine.inPort ins e).sink.accepted n = true →
          (CipherEngine.inPort ins e).InStep n)) ∧
    (∀ e, DecipherEngine.IsRun R' ins e → (DecipherEngine.inPort ins e).Conforms →
      ((DecipherEngine.inPort ins e).EachBeatOnce ↔
        ∀ n, (DecipherEngine.inPort ins e).sink.accepted n = true →
          (DecipherEngine.inPort ins e).InStep n)) := by
  refine ⟨?_, ?_⟩
  · intro e h hc
    exact InputPort.eachBeatOnce_iff h.inPort_laws hc
  · intro e h hc
    exact InputPort.eachBeatOnce_iff h.inPort_laws hc

/-- No config writes, M_AXIS_TREADY high, and a beat in the cycles that `offer` names. -/
def offers (offer : ℕ → Bool) (n : ℕ) : Inputs := ⟨offer n, n, false, true, none⟩

/-- A cipher engine that starts from low registers. -/
def CipherEngine.plainRun (ins : ℕ → Inputs) : ℕ → CipherEngine Word Unit :=
  cycles plainRounds (ins 0) (ins 0) low ins

/-- A decipher engine that starts from low registers. -/
def DecipherEngine.plainRun (ins : ℕ → Inputs) : ℕ → DecipherEngine Word Word :=
  cycles plainInvRounds (ins 0) (ins 0) low ins

theorem CipherEngine.plainRun_isRun (ins : ℕ → Inputs) : IsRun plainRounds ins (plainRun ins) :=
  cycles_isRun _ _ _ _ _

theorem DecipherEngine.plainRun_isRun (ins : ℕ → Inputs) :
    IsRun plainInvRounds ins (plainRun ins) :=
  cycles_isRun _ _ _ _ _

def CipherEngine.plainPort (ins : ℕ → Inputs) : InputPort := inPort ins (plainRun ins)

def DecipherEngine.plainPort (ins : ℕ → Inputs) : InputPort := inPort ins (plainRun ins)

/-- A key is offered in cycle 2 and handed over in cycle 3. The blocks are handed over in the
cycles 20, 37 and 60, and the second one waits from cycle 30 on. -/
def keyAndBlocks (n : ℕ) : Inputs where
  tvalid := n == 2 || n == 3 || n == 20 || decide (30 ≤ n ∧ n ≤ 37) || n == 60
  tdata := if n < 20 then 7 else if n < 30 then 8 else if n < 60 then 9 else 10
  tlast := n == 60
  m_tready := true
  write := if n = 0 then some 1 else if n = 3 then some 0 else none

/-- The sender of these beats waits for S_AXIS_TREADY. -/
theorem keyAndBlocks_conforms {p : InputPort} (hins : p.ins = keyAndBlocks)
    (hready : ∀ n, n ∈ [3, 20, 37, 60] → p.tready n = true) : p.Conforms := by
  intro n hv hr
  have hn : n = 2 ∨ n = 3 ∨ n = 20 ∨ (30 ≤ n ∧ n ≤ 37) ∨ n = 60 := by
    simpa [hins, keyAndBlocks, or_assoc] using hv
  have hlow : n ∉ [3, 20, 37, 60] := fun hmem => by
    rw [hready n hmem] at hr
    cases hr
  rw [hins]
  simp only [List.mem_cons, List.not_mem_nil, or_false, not_or] at hlow
  rcases hn with rfl | rfl | rfl | hn | rfl
  · exact ⟨rfl, rfl, rfl⟩
  · exact absurd rfl hlow.1
  · exact absurd rfl hlow.2.1
  · have hlt : n < 37 := by omega
    unfold keyAndBlocks
    have hoffered : 30 ≤ n + 1 ∧ n + 1 ≤ 37 := by omega
    refine ⟨by simp [hoffered], ?_, ?_⟩
    · dsimp only
      split_ifs <;> first | rfl | omega
    · dsimp only
      rw [beq_false_of_ne (by omega), beq_false_of_ne (by omega)]
  · exact absurd rfl hlow.2.2.2

theorem three_blocks_are_taken_once_iff_in_step :
    ((CipherEngine.plainPort keyAndBlocks).EachBeatOnce ↔
      ∀ n, (CipherEngine.plainPort keyAndBlocks).sink.accepted n = true →
        (CipherEngine.plainPort keyAndBlocks).InStep n) ∧
    ((DecipherEngine.plainPort keyAndBlocks).EachBeatOnce ↔
      ∀ n, (DecipherEngine.plainPort keyAndBlocks).sink.accepted n = true →
        (DecipherEngine.plainPort keyAndBlocks).InStep n) := by
  have hlaw := each_beat_is_taken_once_iff_in_step CipherEngine.plainRounds
    DecipherEngine.plainInvRounds keyAndBlocks
  exact ⟨hlaw.1 _ (CipherEngine.plainRun_isRun _) (keyAndBlocks_conforms rfl (by decide +kernel)),
    hlaw.2 _ (DecipherEngine.plainRun_isRun _) (keyAndBlocks_conforms rfl (by decide +kernel))⟩

/-- Two beats back to back, in the cycles 1 and 2. -/
def twoBeats : ℕ → Inputs := offers fun n => n == 1 || n == 2

/-- Of two beats back to back the second one is lost: the FSM of the cipher
has left S0 and S_AXIS_TREADY is still high. -/
theorem a_beat_back_to_back_is_lost :
    (CipherEngine.plainPort twoBeats).Conforms ∧
      (CipherEngine.plainPort twoBeats).sink.accepted 2 = true ∧
      ¬ (CipherEngine.plainPort twoBeats).EachBeatOnce := by
  have hconf : (CipherEngine.plainPort twoBeats).Conforms := by
    intro n hv hr
    have hready : ∀ k, k = 1 ∨ k = 2 → (CipherEngine.plainPort twoBeats).tready k = true := by
      rintro k (rfl | rfl) <;> rfl
    have hn : n = 1 ∨ n = 2 := by
      simpa [CipherEngine.plainPort, CipherEngine.inPort, twoBeats, offers] using hv
    rw [hready n hn] at hr
    cases hr
  refine ⟨hconf, rfl, ?_⟩
  intro hall
  have hlaws : (CipherEngine.plainPort twoBeats).Laws :=
    (CipherEngine.plainRun_isRun _).inPort_laws
  have hstep := (InputPort.eachBeatOnce_iff hlaws hconf).mp hall 2 rfl
  have hout : (CipherEngine.plainPort twoBeats).state 2 ≠ .S0 := by decide
  rw [InputPort.InStep, if_neg hout] at hstep
  have hacc : (CipherEngine.plainPort twoBeats).sink.accepted 1 = true := rfl
  rw [hstep 1 rfl] at hacc
  cases hacc

end aes_core
