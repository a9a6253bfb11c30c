-- The three M_AXIS ports of the hardware: the two of the AES peripheral and
-- the one of the SPI master. Each raises M_AXIS_TVALID for one cycle, two
-- cycles after it has looked at M_AXIS_TREADY, or without a look at it.
import AesMusicPlayer.EngineBeats
import AesMusicPlayer.SpiPhases
import AesMusicPlayer.StreamSource

open clocked serial stream

/-! ## The ports of the AES peripheral -/

namespace aes_core

/-- The wires of an output port. -/
def MAxis.source (st : ℕ → MAxis) (ready : ℕ → Bool) : Source (Word × Bool) where
  tvalid n := (st n).tvalid
  tready := ready
  beat n := ((st n).tdata, (st n).tlast)

/-- The result that the port has taken and that was not on its wires before this cycle. -/
def MAxis.pending (m : MAxis) : List (Word × Bool) :=
  if m.tvalid || m.state != .S0 then [(m.tdata, m.tlast)] else []

namespace PortRun

variable {valid last ready : ℕ → Bool} {data : ℕ → Word} {st : ℕ → MAxis}

/-- The results that a port is given. -/
def results (valid last : ℕ → Bool) (data : ℕ → Word) (n : ℕ) : Option (Word × Bool) :=
  if valid n then some (data n, last n) else none

theorem state_of_tvalid (h : PortRun valid last data ready st) {n : ℕ}
    (hv : (st n).tvalid = true) : (st n).state = .S0 := by
  rcases h.state_cases n with h0 | ⟨-, hlow, -⟩ | ⟨-, hlow, -⟩
  · exact h0
  · rw [hlow] at hv; cases hv
  · rw [hlow] at hv; cases hv

theorem tvalid_single (h : PortRun valid last data ready st) (n : ℕ)
    (hv : (st n).tvalid = true) : (st (n + 1)).tvalid = false := by
  rw [h.step, MAxis.clock_S0 (h.state_of_tvalid hv)]

/-- A port that is busy is given no result. -/
theorem not_valid (h : PortRun valid last data ready st) {n : ℕ} (hne : (st n).state ≠ .S0) :
    valid n = false := by
  by_contra hv
  exact hne (h.idle n (by simpa using hv))

/-- Every result is shown, or in the port. -/
theorem results_eq (h : PortRun valid last data ready st) (n : ℕ) :
    events (results valid last data) n =
      (MAxis.source st ready).shown n ++ (st n).pending := by
  induction n with
  | zero =>
    have hnone : (st 0).pending = [] := by
      unfold MAxis.pending
      rw [h.start.1, h.start.2]
      rfl
    rw [hnone]
    rfl
  | succ n ih =>
    have hshown : (MAxis.source st ready).shown (n + 1) = (MAxis.source st ready).shown n ++
        (if (st n).tvalid then some ((st n).tdata, (st n).tlast) else none).toList := rfl
    rw [events_succ, ih, hshown, List.append_assoc, List.append_assoc]
    congr 1
    unfold results MAxis.pending
    rw [h.step]
    rcases h.state_cases n with h0 | ⟨h1, hlow, -⟩ | ⟨h2, hlow, -⟩
    · rw [MAxis.clock_S0 h0, h0]
      cases valid n <;> cases ready n <;> cases (st n).tvalid <;> simp
    · have hv := h.not_valid (n := n) (by rw [h1]; exact nofun)
      rw [MAxis.clock_S1 h1, h1, hlow, hv]
      rfl
    · have hv := h.not_valid (n := n) (by rw [h2]; exact nofun)
      rw [MAxis.clock_S2 h2, h2, hlow, hv]
      cases ready n <;> rfl

/-- A port that waits for M_AXIS_TREADY is free again after it. -/
theorem exists_S0 (h : PortRun valid last data ready st) {n k : ℕ} (hk : n ≤ k)
    (hr : ready k = true) : ∃ m, n ≤ m ∧ (st m).state = .S0 := by
  rcases h.state_cases n with h0 | ⟨h1, -, -⟩ | ⟨-, -, f, hf, hlt, hlow⟩
  · exact ⟨n, Nat.le_refl n, h0⟩
  · refine ⟨n + 1, Nat.le_succ n, ?_⟩
    rw [h.step, MAxis.clock_S1 h1]
  · obtain ⟨r, hfirst⟩ := exists_firstHigh (show f ≤ k by omega) hr
    have hnr : n ≤ r := by
      by_contra hlt'
      have hrr := hfirst.2.1
      rw [hlow r hfirst.1 (by omega)] at hrr
      cases hrr
    exact ⟨r + 2, by omega, (h.presented hf hfirst).2.2.2⟩

theorem pulses (h : PortRun valid last data ready st) :
    (MAxis.source st ready).Pulses (results valid last data) where
  single := h.tvalid_single
  only n := by
    rw [h.results_eq]
    exact List.prefix_append _ _
  all n k hle hr := by
    obtain ⟨m, hnm, h0⟩ := h.exists_S0 hle hr
    refine ⟨m + 1, (events_mono _ hnm).trans ?_⟩
    rw [h.results_eq m]
    unfold Source.shown
    rw [events_succ]
    unfold MAxis.pending Source.shown_at MAxis.source
    rw [h0]
    cases hv : (st m).tvalid <;> simp [hv]

theorem readyWhenShown_iff (h : PortRun valid last data ready st) :
    (MAxis.source st ready).ReadyWhenShown ↔
      ∀ f r, valid f = true → FirstHigh ready f r → ready (r + 2) = true := by
  constructor
  · intro hall f r hf hr
    exact hall (r + 2) ((h.tvalid_iff (r + 2)).mpr ⟨f, hf, r, hr, rfl⟩)
  · intro hall n hv
    obtain ⟨f, hf, r, hr, rfl⟩ := (h.tvalid_iff n).mp hv
    exact hall f r hf hr

end PortRun

end aes_core

/-! ## The port of the SPI master -/

namespace spi_master

variable {p : Params}

/-- The state machine completes a word at this edge. -/
def Master.completes (s : Master p) : Bool :=
  s.steps && (s.state == .S2 && s.counter.toNat == p.WIDTH)

/-- The wires of M_AXIS. -/
def source (s : ℕ → Master p) (ready : ℕ → Bool) :
    Source (BitVec p.C_M_AXIS_TDATA_WIDTH × Bool) where
  tvalid n := (s n).m_axis_tvalid
  tready := ready
  beat n := ((s n).m_axis_tdata, (s n).m_axis_tlast)

/-- The completed words. -/
def results (s : ℕ → Master p) (n : ℕ) : Option (BitVec p.C_M_AXIS_TDATA_WIDTH × Bool) :=
  if (s n).completes then some ((s n).rx_buffer.setWidth _, true) else none

/-- The master in each cycle after a reset, from any registers. -/
def cycles (i₀ : Inputs p) (s₀ : Master p) (ins : ℕ → Inputs p) : ℕ → Master p :=
  run (fun i s => s.clock { i with aresetn := true }) (s₀.clock { i₀ with aresetn := false }) ins

/-- The reset has left the mark of a completed word. -/
def Master.stale (s : Master p) : Bool := s.rx_full_0 && !s.rx_full_1

namespace Master

variable {i : Inputs p} {s : Master p}

/-- What an edge does to `rx_full` and M_AXIS. -/
theorem m_axis_clock (hr : i.aresetn = true) :
    (s.clock i).rx_full_0 = s.completes ∧ (s.clock i).rx_full_1 = s.rx_full_0 ∧
      (s.clock i).m_axis_tvalid = (s.rx_full_0 && !s.rx_full_1) ∧
      (s.clock i).m_axis_tdata = if s.completes then s.put_rx else s.m_axis_tdata := by
  have htdata := shift_tdata i s
  unfold completes
  cases hst : s.steps with
  | false =>
    rw [clock_of_not_steps hr hst]
    exact ⟨rfl, rfl, rfl, htdata⟩
  | true =>
    rw [clock_of_steps hr hst]
    unfold fsm
    cases hs : s.state with
    | S0 =>
      rw [show (Fsm.S0 == Fsm.S2) = false from rfl, Bool.false_and, Bool.and_false]
      simp only [Bool.false_eq_true, if_false]
      split_ifs <;> exact ⟨rfl, rfl, rfl, htdata⟩
    | S1 =>
      rw [show (Fsm.S1 == Fsm.S2) = false from rfl, Bool.false_and, Bool.and_false]
      simp only [Bool.false_eq_true, if_false]
      split_ifs <;> exact ⟨trivial, rfl, rfl, htdata⟩
    | S2 =>
      by_cases hc : s.counter.toNat = p.WIDTH
      · simp only [hc, if_true, beq_self_eq_true, Bool.and_true]
        split_ifs <;> exact ⟨rfl, rfl, rfl, rfl⟩
      · have hcb : (s.counter.toNat == p.WIDTH) = false := by simpa using hc
        simp only [hc, if_false, hcb, Bool.and_false, Bool.false_eq_true]
        exact ⟨rfl, rfl, rfl, htdata⟩

/-- No word is completed right after a word. -/
theorem not_completes_after (hr : i.aresetn = true) (h : s.completes = true) :
    (s.clock i).completes = false := by
  unfold completes at h ⊢
  rw [Bool.and_eq_true] at h
  rw [not_steps_of_just_stepped (just_stepped_clock hr h.1), Bool.false_and]

end Master

/-- The bits above the word. -/
def Master.clear (s : Master p) : Prop := s.m_axis_tdata >>> p.WIDTH = 0

theorem Master.put_rx_of_clear {s : Master p} (h : s.clear) :
    s.put_rx = s.rx_buffer.setWidth p.C_M_AXIS_TDATA_WIDTH := by
  unfold clear at h
  unfold put_rx
  rw [h]
  simp

theorem shiftRight_setWidth (r : BitVec p.WIDTH) :
    (r.setWidth p.C_M_AXIS_TDATA_WIDTH) >>> p.WIDTH = 0 := by
  apply BitVec.eq_of_getLsbD_eq
  intro k hk
  simp [BitVec.getLsbD_setWidth]

section Cycles

variable (i₀ : Inputs p) (s₀ : Master p) (ins : ℕ → Inputs p)

theorem cycles_succ (n : ℕ) : cycles i₀ s₀ ins (n + 1) =
    (cycles i₀ s₀ ins n).clock { ins n with aresetn := true } := rfl

theorem clear_cycles (n : ℕ) : (cycles i₀ s₀ ins n).clear := by
  induction n with
  | zero => exact BitVec.zero_ushiftRight
  | succ n ih =>
    unfold Master.clear
    rw [cycles_succ, (Master.m_axis_clock rfl).2.2.2]
    split_ifs
    · rw [Master.put_rx_of_clear ih]
      exact shiftRight_setWidth _
    · exact ih

theorem completes_zero : (cycles i₀ s₀ ins 0).completes = false := by
  have hs : (cycles i₀ s₀ ins 0).state = .S0 := rfl
  unfold Master.completes
  rw [hs]
  exact Bool.and_false _

/-- The first edge after the reset completes nothing, and leaves the state machine
before S2. -/
theorem completes_one : (cycles i₀ s₀ ins 1).completes = false := by
  cases hst : (cycles i₀ s₀ ins 0).steps with
  | true =>
    have hjust := Master.just_stepped_clock (i := { ins 0 with aresetn := true }) rfl hst
    unfold Master.completes
    rw [cycles_succ, Master.not_steps_of_just_stepped hjust, Bool.false_and]
  | false =>
    have hs : (cycles i₀ s₀ ins 1).state = .S0 := by
      rw [cycles_succ, Master.clock_of_not_steps rfl hst]
      unfold Master.shift
      cases (cycles i₀ s₀ ins 0).accepts _ <;> rfl
    unfold Master.completes
    rw [hs]
    exact Bool.and_false _

theorem tvalid_one : (cycles i₀ s₀ ins 1).m_axis_tvalid = (cycles i₀ s₀ ins 0).stale := by
  rw [cycles_succ, (Master.m_axis_clock rfl).2.2.1]
  rfl

/-- M_AXIS_TVALID is high two cycles after each completed word, and at no other time later. -/
theorem tvalid_add_two (n : ℕ) :
    (cycles i₀ s₀ ins (n + 2)).m_axis_tvalid = (cycles i₀ s₀ ins n).completes := by
  obtain ⟨hfull, hfull1, -⟩ := Master.m_axis_clock (s := cycles i₀ s₀ ins n)
    (i := { ins n with aresetn := true }) rfl
  rw [cycles_succ i₀ s₀ ins (n + 1), (Master.m_axis_clock rfl).2.2.1, cycles_succ i₀ s₀ ins n,
    hfull, hfull1]
  cases hc : (cycles i₀ s₀ ins n).completes with
  | false => rfl
  | true =>
    have hlow : (cycles i₀ s₀ ins n).rx_full_0 = false := by
      cases n with
      | zero => rw [completes_zero] at hc; cases hc
      | succ n =>
        rw [cycles_succ, (Master.m_axis_clock rfl).1]
        by_contra hprev
        have hnot := Master.not_completes_after (i := { ins n with aresetn := true }) rfl
          (show (cycles i₀ s₀ ins n).completes = true by simpa using hprev)
        rw [cycles_succ] at hc
        rw [hnot] at hc
        cases hc
    rw [hlow]
    rfl

theorem shown_add_two (ready : ℕ → Bool) (n : ℕ) :
    (source (cycles i₀ s₀ ins) ready).shown_at (n + 2) = results (cycles i₀ s₀ ins) n := by
  have hat : (source (cycles i₀ s₀ ins) ready).shown_at (n + 2) =
      if (cycles i₀ s₀ ins (n + 2)).m_axis_tvalid then
        some ((cycles i₀ s₀ ins (n + 2)).m_axis_tdata, true) else none := rfl
  rw [hat, tvalid_add_two]
  unfold results
  cases hc : (cycles i₀ s₀ ins n).completes with
  | false => rfl
  | true =>
    have hnot := Master.not_completes_after (i := { ins n with aresetn := true }) rfl hc
    rw [← cycles_succ] at hnot
    have hdata : (cycles i₀ s₀ ins (n + 2)).m_axis_tdata =
        (cycles i₀ s₀ ins n).rx_buffer.setWidth _ := by
      rw [cycles_succ i₀ s₀ ins (n + 1), (Master.m_axis_clock rfl).2.2.2,
        if_neg (by rw [hnot]; simp), cycles_succ i₀ s₀ ins n, (Master.m_axis_clock rfl).2.2.2,
        if_pos hc]
      exact Master.put_rx_of_clear (clear_cycles i₀ s₀ ins n)
    rw [if_pos rfl, if_pos rfl, hdata]

theorem tvalid_single (n : ℕ) (hv : (cycles i₀ s₀ ins n).m_axis_tvalid = true) :
    (cycles i₀ s₀ ins (n + 1)).m_axis_tvalid = false := by
  match n with
  | 0 => cases hv
  | 1 => rw [tvalid_add_two, completes_zero]
  | n + 2 =>
    rw [tvalid_add_two] at hv
    rw [show n + 2 + 1 = n + 1 + 2 from rfl, tvalid_add_two, cycles_succ]
    exact Master.not_completes_after rfl hv

variable {i₀ s₀ ins} {ready : ℕ → Bool}

theorem pulses (h : (cycles i₀ s₀ ins 0).stale = false) :
    (source (cycles i₀ s₀ ins) ready).Pulses (results (cycles i₀ s₀ ins)) := by
  have hshown : ∀ n, (source (cycles i₀ s₀ ins) ready).shown (n + 2) =
      events (results (cycles i₀ s₀ ins)) n := by
    apply events_delay
    · intro k hk
      unfold Source.shown_at source
      rcases (by omega : k = 0 ∨ k = 1) with rfl | rfl
      · rfl
      · simp only [tvalid_one, h]
        rfl
    · exact shown_add_two i₀ s₀ ins ready
  refine ⟨tvalid_single i₀ s₀ ins, ?_, ?_⟩
  · intro n
    rw [← hshown]
    exact events_mono _ (Nat.le_add_right n 2)
  · intro n k _ _
    exact ⟨n + 2, by rw [hshown]⟩

/-- The mark that a reset leaves comes out as a word. -/
theorem not_delivers_of_stale (h : (cycles i₀ s₀ ins 0).stale = true) :
    ¬ (source (cycles i₀ s₀ ins) ready).Delivers (results (cycles i₀ s₀ ins)) := by
  apply Source.not_delivers_of_shown (n := 1) (tvalid_single i₀ s₀ ins)
  · exact (tvalid_one i₀ s₀ ins).trans h
  · unfold results
    rw [events_succ, events_succ, events_zero]
    simp [completes_zero, completes_one]

theorem delivers_iff :
    (source (cycles i₀ s₀ ins) ready).Delivers (results (cycles i₀ s₀ ins)) ↔
      (cycles i₀ s₀ ins 0).stale = false ∧
        ∀ f, (cycles i₀ s₀ ins f).completes = true → ready (f + 2) = true := by
  cases hs : (cycles i₀ s₀ ins 0).stale with
  | true => simp [not_delivers_of_stale hs]
  | false =>
    rw [(pulses hs).delivers_iff]
    simp only [true_and]
    constructor
    · intro hall f hf
      exact hall (f + 2) ((tvalid_add_two i₀ s₀ ins f).trans hf)
    · intro hall n hv
      have hv' : (cycles i₀ s₀ ins n).m_axis_tvalid = true := hv
      match n with
      | 0 => cases hv'
      | 1 => rw [tvalid_one, hs] at hv'; cases hv'
      | n + 2 =>
        rw [tvalid_add_two] at hv'
        exact hall n hv'

end Cycles

end spi_master

/-! ## The three ports -/

namespace master_ports

open aes_core

/-- Each port delivers each result exactly once for the receivers that are ready when it is
on the wires. For the ports of the AES peripheral this is two cycles after the first
M_AXIS_TREADY. -/
theorem results_are_delivered_iff {Sa W Sa' W' : Type} (R : CipherRounds Sa W)
    (R' : InvCipherRounds Sa' W') (p : spi_master.Params) :
    (∀ (i₁ i₂ : aes_core.Inputs) (e₀ : CipherEngine Sa W) (ins : ℕ → aes_core.Inputs),
      let e := CipherEngine.cycles R i₁ i₂ e₀ ins
      (MAxis.source (fun n => (e n).maxis) fun n => (ins n).m_tready).Delivers
          (PortRun.results (fun n => (e n).core.done) (fun n => (e n).saxis.data_last)
            fun n => (e n).core.text_out) ↔
        ∀ f r, (e f).core.done = true → FirstHigh (fun n => (ins n).m_tready) f r →
          (ins (r + 2)).m_tready = true) ∧
    (∀ (i₁ i₂ : aes_core.Inputs) (e₀ : DecipherEngine Sa' W') (ins : ℕ → aes_core.Inputs),
      let e := DecipherEngine.cycles R' i₁ i₂ e₀ ins
      (MAxis.source (fun n => (e n).maxis) fun n => (ins n).m_tready).Delivers
          (PortRun.results (fun n => (e n).core.done) (fun n => (e n).saxis.data_last)
            fun n => (e n).core.text_out) ↔
        ∀ f r, (e f).core.done = true → FirstHigh (fun n => (ins n).m_tready) f r →
          (ins (r + 2)).m_tready = true) ∧
    (∀ (i₀ : spi_master.Inputs p) (s₀ : spi_master.Master p) (ins : ℕ → spi_master.Inputs p)
        (ready : ℕ → Bool),
      let s := spi_master.cycles i₀ s₀ ins
      (spi_master.source s ready).Delivers (spi_master.results s) ↔
        (s 0).stale = false ∧ ∀ f, (s f).completes = true → ready (f + 2) = true) := by
  refine ⟨?_, ?_, ?_⟩
  · intro i₁ i₂ e₀ ins e
    have hport := (CipherEngine.cycles_isRun R i₁ i₂ e₀ ins).pipe.port
    exact hport.pulses.delivers_iff.trans hport.readyWhenShown_iff
  · intro i₁ i₂ e₀ ins e
    have hport := (DecipherEngine.cycles_isRun R' i₁ i₂ e₀ ins).pipe.port
    exact hport.pulses.delivers_iff.trans hport.readyWhenShown_iff
  · intro i₀ s₀ ins ready s
    exact spi_master.delivers_iff

/-- One block in cycle 1, and a receiver that is not ready in cycle 18. -/
def misses_a_cycle (n : ℕ) : aes_core.Inputs := ⟨n == 1, n, true, n != 18, none⟩

/-- The port looks at M_AXIS_TREADY in cycle 16, and shows the result in cycle 18 only. -/
theorem a_result_is_not_delivered :
    let e := CipherEngine.plainRun misses_a_cycle
    (e 18).maxis.tvalid = true ∧ (misses_a_cycle 18).m_tready = false ∧
      (e 19).maxis.tvalid = false ∧
      ¬ (MAxis.source (fun n => (e n).maxis) fun n => (misses_a_cycle n).m_tready).Delivers
          (PortRun.results (fun n => (e n).core.done) (fun n => (e n).saxis.data_last)
            fun n => (e n).core.text_out) := by
  intro e
  have hhigh : (e 18).maxis.tvalid = true := by decide +kernel
  have hlow : (e 19).maxis.tvalid = false := by decide +kernel
  refine ⟨hhigh, rfl, hlow, ?_⟩
  intro hd
  obtain ⟨hnext, -⟩ := hd.stable 18 hhigh rfl
  exact absurd (hlow.symm.trans hnext) Bool.false_ne_true

end master_ports
