-- What the SPI master is doing, told without its registers: the words it has
-- sent, the one that is on the line, and the one that waits. Each edge of the
-- master is a step of this.
import AesMusicPlayer.SpiMaster

open clocked serial

namespace spi_master

/-! ## The counter of the clock -/

theorem le_two_pow_clog2 (n : ℕ) : n ≤ 2 ^ clog2 n := by
  unfold clog2
  split
  · omega
  · have := Nat.lt_log2_self (n := n - 1)
    omega

theorem lt_two_pow_clog2 {n : ℕ} (hn : 1 ≤ n) : n < 2 ^ (clog2 n + 1) := by
  have := le_two_pow_clog2 n
  rw [Nat.pow_succ]
  omega

/-- The number of cycles between two steps of the state machine. -/
def Params.period (p : Params) : ℕ := 2 ^ (clog2 p.CLOCK_DIVISOR + 1)

theorem Params.divisor_lt (p : Params) : p.CLOCK_DIVISOR < p.period :=
  lt_two_pow_clog2 p.divisor_pos

variable {p : Params}

namespace Master

/-- The state machine has stepped at the edge before. -/
def just_stepped (s : Master p) : Prop :=
  s.clk_counter.toNat = (p.CLOCK_DIVISOR + 1) % p.period

/-- It does not step twice in a row. -/
theorem not_steps_of_just_stepped {s : Master p} (h : s.just_stepped) : s.steps = false := by
  have hlt := p.divisor_lt
  have hpos := p.divisor_pos
  unfold just_stepped at h
  unfold steps
  rw [h, beq_eq_false_iff_ne]
  rcases Nat.lt_or_ge (p.CLOCK_DIVISOR + 1) p.period with hc | hc
  · rw [Nat.mod_eq_of_lt hc]
    omega
  · rw [show p.CLOCK_DIVISOR + 1 = p.period by omega, Nat.mod_self]
    omega

end Master

/-! ## The phases -/

/-- The words that are sent, the word on the line with its bits that are out, and the
word that waits. -/
inductive Phase (p : Params)
  | idle (sent : List (Accepted p))
  | loaded (sent : List (Accepted p)) (w : Accepted p)
  | setup (sent : List (Accepted p)) (w : Accepted p) (c : ℕ)
  | hold (sent : List (Accepted p)) (w : Accepted p) (c : ℕ)
  | ending (sent : List (Accepted p)) (w : Accepted p)
  | queued (sent : List (Accepted p)) (w w' : Accepted p)

namespace Phase

/-- The words before the one on the line. -/
def sent : Phase p → List (Accepted p)
  | .idle sent | .loaded sent _ | .setup sent _ _ | .hold sent _ _ | .ending sent _
  | .queued sent _ _ => sent

def accepted : Phase p → List (Accepted p)
  | .idle sent => sent
  | .loaded sent w | .setup sent w _ | .hold sent w _ | .ending sent w => sent ++ [w]
  | .queued sent w w' => sent ++ [w, w']

def words (ws : List (Accepted p)) : List (BitVec p.WIDTH) := ws.map Accepted.word

/-- The bits that are out. -/
def bits : Phase p → List Bool
  | .idle sent | .loaded sent _ => wordBits (words sent)
  | .setup sent w c => wordBits (words sent) ++ (serial.bits w.word).take (c - 1)
  | .hold sent w c => wordBits (words sent) ++ (serial.bits w.word).take c
  | .ending sent w | .queued sent w _ => wordBits (words (sent ++ [w]))

/-- One edge, with a step of the state machine and with a word that is accepted. -/
def next (steps : Bool) (a : Option (Accepted p)) : Phase p → Phase p
  | .idle sent =>
    match a with
    | some w => .loaded sent w
    | none => .idle sent
  | .loaded sent w => if steps then .setup sent w 1 else .loaded sent w
  | .setup sent w c =>
    if steps then (if c = p.WIDTH then .ending sent w else .hold sent w c) else .setup sent w c
  | .hold sent w c => if steps then .setup sent w (c + 1) else .hold sent w c
  | .ending sent w =>
    match a with
    | some w' => if steps then .loaded (sent ++ [w]) w' else .queued sent w w'
    | none => if steps then .idle (sent ++ [w]) else .ending sent w
  | .queued sent w w' =>
    if steps then (if w.last then .loaded (sent ++ [w]) w' else .setup (sent ++ [w]) w' 1)
    else .queued sent w w'

/-- A word can be accepted. -/
def ready : Phase p → Bool
  | .idle _ | .ending _ _ => true
  | _ => false

/-- The words end with the last word of a packet, if there are any. -/
def Ended (ws : List (Accepted p)) : Prop := ∀ ws' w, ws = ws' ++ [w] → w.last = true

theorem ended_append {ws : List (Accepted p)} {w : Accepted p} (hw : w.last = true) :
    Ended (ws ++ [w]) := by
  intro ws' v heq
  obtain ⟨-, hv⟩ := List.append_inj' heq rfl
  rw [List.singleton_inj] at hv
  rw [← hv, hw]

/-- The last accepted word does not end its packet. -/
def InPacket (ws : List (Accepted p)) : Prop := ∃ ws' w, ws = ws' ++ [w] ∧ w.last = false

end Phase

/-- The registers of a phase. -/
def Shows (s : Master p) : Phase p → Prop
  | .idle sent => s.state = .S0 ∧ s.spi_ready = true ∧ Phase.Ended sent
  | .loaded sent w => s.state = .S0 ∧ s.spi_ready = false ∧ s.tx_buffer = w.word ∧
      s.last = w.last ∧ Phase.Ended sent
  | .setup _ w c => s.state = .S1 ∧ s.spi_ready = false ∧ 1 ≤ c ∧ c ≤ p.WIDTH ∧
      s.counter.toNat = c ∧ s.mosi = w.word.getMsbD (c - 1) ∧
      s.tx_buffer = w.word <<< (c - 1) ∧ s.last_buff = w.last
  | .hold _ w c => s.state = .S2 ∧ s.spi_ready = false ∧ 1 ≤ c ∧ c < p.WIDTH ∧
      s.counter.toNat = c ∧ s.tx_buffer = w.word <<< c ∧ s.last_buff = w.last
  | .ending _ w => s.state = .S2 ∧ s.spi_ready = true ∧ s.counter.toNat = p.WIDTH ∧
      s.last_buff = w.last ∧ (w.last = false → s.just_stepped)
  | .queued _ w w' => s.state = .S2 ∧ s.spi_ready = false ∧ s.counter.toNat = p.WIDTH ∧
      s.last_buff = w.last ∧ s.tx_buffer = w'.word ∧ s.last = w'.last

/-- The registers of a phase, whatever packets the words are in. -/
def Holds (s : Master p) : Phase p → Prop
  | .idle _ => s.state = .S0 ∧ s.spi_ready = true
  | .loaded _ w => s.state = .S0 ∧ s.spi_ready = false ∧ s.tx_buffer = w.word ∧ s.last = w.last
  | .setup _ w c => s.state = .S1 ∧ s.spi_ready = false ∧ 1 ≤ c ∧ c ≤ p.WIDTH ∧
      s.counter.toNat = c ∧ s.mosi = w.word.getMsbD (c - 1) ∧
      s.tx_buffer = w.word <<< (c - 1) ∧ s.last_buff = w.last
  | .hold _ w c => s.state = .S2 ∧ s.spi_ready = false ∧ 1 ≤ c ∧ c < p.WIDTH ∧
      s.counter.toNat = c ∧ s.tx_buffer = w.word <<< c ∧ s.last_buff = w.last
  | .ending _ w => s.state = .S2 ∧ s.spi_ready = true ∧ s.counter.toNat = p.WIDTH ∧
      s.last_buff = w.last
  | .queued _ w w' => s.state = .S2 ∧ s.spi_ready = false ∧ s.counter.toNat = p.WIDTH ∧
      s.last_buff = w.last ∧ s.tx_buffer = w'.word ∧ s.last = w'.last

/-- What a sender that offers words until a packet is through adds to it. -/
def InPackets (s : Master p) : Phase p → Prop
  | .idle sent | .loaded sent _ => Phase.Ended sent
  | .ending _ w => w.last = false → s.just_stepped
  | _ => True

theorem shows_iff {s : Master p} {ph : Phase p} : Shows s ph ↔ Holds s ph ∧ InPackets s ph := by
  cases ph with
  | idle sent => simp [Shows, Holds, InPackets, and_assoc]
  | loaded sent w => simp [Shows, Holds, InPackets, and_assoc]
  | setup sent w c => simp [Shows, Holds, InPackets]
  | hold sent w c => simp [Shows, Holds, InPackets]
  | ending sent w => simp [Shows, Holds, InPackets, and_assoc]
  | queued sent w w' => simp [Shows, Holds, InPackets]

theorem Shows.holds {s : Master p} {ph : Phase p} (h : Shows s ph) : Holds s ph := (shows_iff.mp h).1

/-! ## One edge -/

namespace Master

variable {i : Inputs p} {s : Master p}

theorem clock_of_steps (hr : i.aresetn = true) (h : s.steps = true) :
    s.clock i = s.fsm i (s.shift i) := by
  unfold clock
  rw [if_neg (by simp [hr]), if_pos h]

theorem clock_of_not_steps (hr : i.aresetn = true) (h : s.steps = false) :
    s.clock i = s.shift i := by
  unfold clock
  rw [if_neg (by simp [hr]), if_neg (by simp [h])]

/-- With no word accepted, the edge keeps all registers but those of the counter and `rx_full`. -/
theorem shift_of_not_accepts (h : s.accepts i = false) :
    s.shift i = { s with rx_full_0 := false, rx_full_1 := s.rx_full_0,
                         m_axis_tvalid := s.rx_full_0 && !s.rx_full_1,
                         clk_counter := s.clk_counter + 1 } := by
  unfold shift
  rw [if_neg (by simp [h])]

theorem shift_of_accepts (h : s.accepts i = true) :
    s.shift i = { s with tx_buffer := i.s_axis_tdata.setWidth p.WIDTH, last := i.s_axis_tlast,
                         spi_ready := false, rx_full_0 := false, rx_full_1 := s.rx_full_0,
                         m_axis_tvalid := s.rx_full_0 && !s.rx_full_1,
                         clk_counter := s.clk_counter + 1 } := by
  unfold shift
  rw [if_pos h]

theorem shift_tdata (i : Inputs p) (s : Master p) : (s.shift i).m_axis_tdata = s.m_axis_tdata := by
  unfold shift
  cases s.accepts i <;> rfl

theorem shift_rx_buffer (i : Inputs p) (s : Master p) : (s.shift i).rx_buffer = s.rx_buffer := by
  unfold shift
  cases s.accepts i <;> rfl

theorem not_accepts_of_not_ready (h : s.spi_ready = false) : s.accepts i = false := by
  unfold accepts s_axis_tready
  rw [h, Bool.and_false]

theorem accepts_of_ready (h : s.spi_ready = true) : s.accepts i = i.s_axis_tvalid := by
  unfold accepts s_axis_tready
  rw [h, Bool.and_true]

theorem clk_counter_clock (i : Inputs p) (s : Master p) (hr : i.aresetn = true) :
    (s.clock i).clk_counter = s.clk_counter + 1 := by
  have hshift : (s.shift i).clk_counter = s.clk_counter + 1 := rfl
  cases h : s.steps with
  | false => rw [clock_of_not_steps hr h, hshift]
  | true =>
    rw [clock_of_steps hr h]
    unfold fsm
    cases s.state <;> simp only <;> split_ifs <;> exact hshift

theorem just_stepped_clock (hr : i.aresetn = true) (h : s.steps = true) :
    (s.clock i).just_stepped := by
  unfold just_stepped
  rw [clk_counter_clock i s hr, BitVec.toNat_add, (beq_iff_eq.mp h : s.clk_counter.toNat = _)]
  simp [Params.period]

/-! ## One step of the state machine -/

theorem fsm_S0_idle (hs : s.state = .S0) (hready : s.spi_ready = true) (s' : Master p) :
    s.fsm i s' = { s' with mosi := false, rx_full_0 := false } := by
  unfold fsm
  simp [hs, hready]

theorem fsm_S0_loaded (hs : s.state = .S0) (hready : s.spi_ready = false) (s' : Master p) :
    s.fsm i s' = { s' with mosi := s.tx_buffer.msb, rx_full_0 := false, last_buff := s.last,
                           counter := 1, state := .S1 } := by
  unfold fsm
  simp [hs, hready]

theorem fsm_S1 (hs : s.state = .S1) (hc : s.counter.toNat ≠ p.WIDTH) (s' : Master p) :
    s.fsm i s' = { s' with tx_buffer := s.tx_buffer <<< 1, rx_full_0 := false,
                           rx_buffer := shiftIn s.rx_buffer i.miso, state := .S2 } := by
  unfold fsm
  simp [hs, hc]

theorem fsm_S1_end (hs : s.state = .S1) (hc : s.counter.toNat = p.WIDTH) (s' : Master p) :
    s.fsm i s' = { s' with spi_ready := true, rx_full_0 := false,
                           rx_buffer := shiftIn s.rx_buffer i.miso, state := .S2 } := by
  unfold fsm
  simp [hs, hc]

theorem fsm_S2 (hs : s.state = .S2) (hc : s.counter.toNat ≠ p.WIDTH) (s' : Master p) :
    s.fsm i s' = { s' with mosi := s.tx_buffer.msb, counter := s.counter + 1, state := .S1 } := by
  unfold fsm
  simp [hs, hc]

theorem fsm_S2_next (hs : s.state = .S2) (hc : s.counter.toNat = p.WIDTH)
    (hready : s.spi_ready = false) (hlast : s.last_buff = false) (s' : Master p) :
    s.fsm i s' = { s' with mosi := s.tx_buffer.msb, m_axis_tdata := s.put_rx, rx_full_0 := true,
                           last_buff := s.last, counter := 1, state := .S1 } := by
  unfold fsm
  simp [hs, hc, hready, hlast]

theorem fsm_S2_end (hs : s.state = .S2) (hc : s.counter.toNat = p.WIDTH)
    (h : s.spi_ready = true ∨ s.last_buff = true) (s' : Master p) :
    s.fsm i s' = { s' with mosi := s.tx_buffer.msb, m_axis_tdata := s.put_rx, rx_full_0 := true,
                           state := .S0 } := by
  unfold fsm
  rcases h with h | h <;> simp [hs, hc, h]

/-- The bit counter does not wrap. -/
theorem counter_one : ((1 : BitVec (clog2 p.WIDTH + 1)).toNat) = 1 := by
  have hlt : 1 < 2 ^ (clog2 p.WIDTH + 1) := Nat.one_lt_two_pow (Nat.succ_ne_zero _)
  exact Nat.mod_eq_of_lt hlt

theorem counter_succ (h : s.counter.toNat < p.WIDTH) :
    (s.counter + 1).toNat = s.counter.toNat + 1 := by
  have := lt_two_pow_clog2 p.width_pos
  rw [BitVec.toNat_add, counter_one, Nat.mod_eq_of_lt (by omega)]

end Master

/-! ## The registers of the next phase -/

section Clock

variable {i : Inputs p} {s : Master p}

theorem holds_idle {sent : List (Accepted p)} (hr : i.aresetn = true) (h : Holds s (.idle sent)) :
    Holds (s.clock i) (Phase.next s.steps (s.accepted_word i) (.idle sent)) := by
  obtain ⟨hs, hready⟩ := h
  unfold Master.accepted_word Phase.next
  cases ha : s.accepts i <;> cases hst : s.steps <;>
    simp only [Bool.false_eq_true, if_false, if_true]
  · rw [Master.clock_of_not_steps hr hst, Master.shift_of_not_accepts ha]
    exact ⟨hs, hready⟩
  · rw [Master.clock_of_steps hr hst, Master.fsm_S0_idle hs hready, Master.shift_of_not_accepts ha]
    exact ⟨hs, hready⟩
  · rw [Master.clock_of_not_steps hr hst, Master.shift_of_accepts ha]
    exact ⟨hs, rfl, rfl, rfl⟩
  · rw [Master.clock_of_steps hr hst, Master.fsm_S0_idle hs hready, Master.shift_of_accepts ha]
    exact ⟨hs, rfl, rfl, rfl⟩

theorem holds_loaded {sent : List (Accepted p)} {w : Accepted p} (hr : i.aresetn = true)
    (h : Holds s (.loaded sent w)) :
    Holds (s.clock i) (Phase.next s.steps (s.accepted_word i) (.loaded sent w)) := by
  obtain ⟨hs, hready, htx, hlast⟩ := h
  have ha := Master.not_accepts_of_not_ready (i := i) hready
  unfold Phase.next
  cases hst : s.steps <;> simp only [Bool.false_eq_true, if_false, if_true]
  · rw [Master.clock_of_not_steps hr hst, Master.shift_of_not_accepts ha]
    exact ⟨hs, hready, htx, hlast⟩
  · rw [Master.clock_of_steps hr hst, Master.fsm_S0_loaded hs hready,
      Master.shift_of_not_accepts ha]
    refine ⟨rfl, hready, Nat.le_refl 1, p.width_pos, Master.counter_one, ?_, ?_, hlast⟩
    · simp only [htx, BitVec.msb_eq_getMsbD_zero]
    · simp only [htx, Nat.sub_self, BitVec.shiftLeft_zero]

theorem holds_setup {sent : List (Accepted p)} {w : Accepted p} {c : ℕ} (hr : i.aresetn = true)
    (h : Holds s (.setup sent w c)) :
    Holds (s.clock i) (Phase.next s.steps (s.accepted_word i) (.setup sent w c)) := by
  obtain ⟨hs, hready, h1, hW, hc, hmosi, htx, hlast⟩ := h
  have ha := Master.not_accepts_of_not_ready (i := i) hready
  unfold Phase.next
  cases hst : s.steps <;> simp only [Bool.false_eq_true, if_false, if_true]
  · rw [Master.clock_of_not_steps hr hst, Master.shift_of_not_accepts ha]
    exact ⟨hs, hready, h1, hW, hc, hmosi, htx, hlast⟩
  · rw [Master.clock_of_steps hr hst]
    by_cases hcW : c = p.WIDTH
    · rw [if_pos hcW, Master.fsm_S1_end hs (hc.trans hcW), Master.shift_of_not_accepts ha]
      exact ⟨rfl, rfl, hc.trans hcW, hlast⟩
    · rw [if_neg hcW, Master.fsm_S1 hs (by rw [hc]; exact hcW), Master.shift_of_not_accepts ha]
      refine ⟨rfl, hready, h1, by omega, hc, ?_, hlast⟩
      simp only [htx]
      rw [← BitVec.shiftLeft_add, Nat.sub_add_cancel h1]

theorem holds_hold {sent : List (Accepted p)} {w : Accepted p} {c : ℕ} (hr : i.aresetn = true)
    (h : Holds s (.hold sent w c)) :
    Holds (s.clock i) (Phase.next s.steps (s.accepted_word i) (.hold sent w c)) := by
  obtain ⟨hs, hready, h1, hW, hc, htx, hlast⟩ := h
  have ha := Master.not_accepts_of_not_ready (i := i) hready
  unfold Phase.next
  cases hst : s.steps <;> simp only [Bool.false_eq_true, if_false, if_true]
  · rw [Master.clock_of_not_steps hr hst, Master.shift_of_not_accepts ha]
    exact ⟨hs, hready, h1, hW, hc, htx, hlast⟩
  · rw [Master.clock_of_steps hr hst, Master.fsm_S2 hs (by omega), Master.shift_of_not_accepts ha]
    refine ⟨rfl, hready, by omega, by omega, ?_, ?_, ?_, hlast⟩
    · simp only
      rw [Master.counter_succ (by omega), hc]
    · simp only [htx, Nat.add_sub_cancel]
      exact msb_shiftLeft w.word c
    · simp only [htx, Nat.add_sub_cancel]

theorem holds_ending {sent : List (Accepted p)} {w : Accepted p} (hr : i.aresetn = true)
    (h : Holds s (.ending sent w)) :
    Holds (s.clock i) (Phase.next s.steps (s.accepted_word i) (.ending sent w)) := by
  obtain ⟨hs, hready, hc, hlast⟩ := h
  unfold Master.accepted_word Phase.next
  cases ha : s.accepts i <;> cases hst : s.steps <;>
    simp only [Bool.false_eq_true, if_false, if_true]
  · rw [Master.clock_of_not_steps hr hst, Master.shift_of_not_accepts ha]
    exact ⟨hs, hready, hc, hlast⟩
  · rw [Master.clock_of_steps hr hst, Master.fsm_S2_end hs hc (Or.inl hready),
      Master.shift_of_not_accepts ha]
    exact ⟨rfl, hready⟩
  · rw [Master.clock_of_not_steps hr hst, Master.shift_of_accepts ha]
    exact ⟨hs, rfl, hc, hlast, rfl, rfl⟩
  · rw [Master.clock_of_steps hr hst, Master.fsm_S2_end hs hc (Or.inl hready),
      Master.shift_of_accepts ha]
    exact ⟨rfl, rfl, rfl, rfl⟩

theorem holds_queued {sent : List (Accepted p)} {w w' : Accepted p} (hr : i.aresetn = true)
    (h : Holds s (.queued sent w w')) :
    Holds (s.clock i) (Phase.next s.steps (s.accepted_word i) (.queued sent w w')) := by
  obtain ⟨hs, hready, hc, hlast, htx, hlast'⟩ := h
  have ha := Master.not_accepts_of_not_ready (i := i) hready
  unfold Phase.next
  cases hst : s.steps <;> simp only [Bool.false_eq_true, if_false, if_true]
  · rw [Master.clock_of_not_steps hr hst, Master.shift_of_not_accepts ha]
    exact ⟨hs, hready, hc, hlast, htx, hlast'⟩
  · rw [Master.clock_of_steps hr hst]
    cases hw : w.last with
    | true =>
      rw [if_pos rfl, Master.fsm_S2_end hs hc (Or.inr (hlast.trans hw)),
        Master.shift_of_not_accepts ha]
      exact ⟨rfl, hready, htx, hlast'⟩
    | false =>
      rw [if_neg (by simp), Master.fsm_S2_next hs hc hready (hlast.trans hw),
        Master.shift_of_not_accepts ha]
      refine ⟨rfl, hready, Nat.le_refl 1, p.width_pos, Master.counter_one, ?_, ?_, hlast'⟩
      · simp only [htx, BitVec.msb_eq_getMsbD_zero]
      · simp only [htx, Nat.sub_self, BitVec.shiftLeft_zero]

/-- Every edge of the master is a step of its phase. -/
theorem holds_clock {ph : Phase p} (hr : i.aresetn = true) (h : Holds s ph) :
    Holds (s.clock i) (ph.next s.steps (s.accepted_word i)) := by
  cases ph with
  | idle sent => exact holds_idle hr h
  | loaded sent w => exact holds_loaded hr h
  | setup sent w c => exact holds_setup hr h
  | hold sent w c => exact holds_hold hr h
  | ending sent w => exact holds_ending hr h
  | queued sent w w' => exact holds_queued hr h

/-- A word that ends no packet is followed by the next one at once. -/
theorem inPackets_ending {sent : List (Accepted p)} {w : Accepted p}
    (hsend : Phase.InPacket (sent ++ [w]) → i.s_axis_tvalid = true)
    (h : Holds s (.ending sent w)) (hin : InPackets s (.ending sent w)) :
    InPackets (s.clock i) (Phase.next s.steps (s.accepted_word i) (.ending sent w)) := by
  have hended : s.steps = true → Phase.Ended (sent ++ [w]) := by
    intro hst
    apply Phase.ended_append
    by_contra hno
    rw [Master.not_steps_of_just_stepped (hin (by simpa using hno))] at hst
    cases hst
  unfold Master.accepted_word Phase.next
  cases ha : s.accepts i <;> cases hst : s.steps <;>
    simp only [Bool.false_eq_true, if_false, if_true]
  · intro hno
    rw [Master.accepts_of_ready h.2.1, hsend ⟨sent, w, rfl, hno⟩] at ha
    cases ha
  · exact hended hst
  · trivial
  · exact hended hst

theorem inPackets_clock {ph : Phase p} (hr : i.aresetn = true)
    (hsend : Phase.InPacket ph.accepted → i.s_axis_tvalid = true) (h : Holds s ph)
    (hin : InPackets s ph) : InPackets (s.clock i) (ph.next s.steps (s.accepted_word i)) := by
  cases ph with
  | idle sent =>
    unfold Phase.next
    cases s.accepted_word i <;> exact hin
  | loaded sent w =>
    unfold Phase.next
    cases s.steps with
    | false => exact hin
    | true => trivial
  | setup sent w c =>
    cases hst : s.steps with
    | false => trivial
    | true =>
      simp only [Phase.next, if_true]
      split_ifs with hcW
      · exact fun _ => Master.just_stepped_clock hr hst
      · trivial
  | hold sent w c =>
    unfold Phase.next
    cases s.steps <;> trivial
  | ending sent w => exact inPackets_ending hsend h hin
  | queued sent w w' =>
    cases s.steps with
    | false => trivial
    | true =>
      simp only [Phase.next, if_true]
      split_ifs with hw
      · exact Phase.ended_append hw
      · trivial

end Clock

end spi_master
