-- What the two engines share. A captured block has an age, the cycles since
-- its capture: the start pulse comes at age 3, `done` at age 15, and the
-- output port is free for it. From this follow the results of a whole run.
import AesMusicPlayer.OutputPort

open clocked

namespace aes_core

/-! ## The registers of a block by its age -/

/-- `data_valid` and the start pulse `a` cycles after a capture, or with no
block in the engine when `a` is 0. -/
structure StartPhase (a : ℕ) (data_valid : Bool) (start : PulseGen) : Prop where
  valid_low : a = 1 → data_valid = false
  valid_high : a = 2 → data_valid = true
  sig_low : a = 2 → start.sig = false
  pulse : start.pulse = (a == 3)
  valid_sig : a = 0 ∨ 3 ≤ a → data_valid = true → start.sig = true

/-- `data_valid` rises once for a block, at age 2. After that it can only
fall, and it is low for a cycle before the next block. -/
theorem StartPhase.clock {a a' : ℕ} {v v' : Bool} {start : PulseGen} (h : StartPhase a v start)
    (hnext : a' = a + 1 ∨ a' = 0 ∧ (a = 0 ∨ 3 ≤ a)) (h1 : a' = 1 → v' = false)
    (h2 : a' = 2 → v' = true) (hfall : a' = 0 ∨ 3 ≤ a' → v' = true → v = true) :
    StartPhase a' v' (start.clock true v) := by
  refine ⟨h1, h2, ?_, ?_, ?_⟩
  · intro ha
    rw [PulseGen.clock_true]
    exact h.valid_low (by omega)
  · rw [PulseGen.pulse_clock]
    rcases (by omega : a = 1 ∨ a = 2 ∨ (a = 0 ∨ 3 ≤ a)) with rfl | rfl | ha
    · rw [show (a' == 3) = false by simp; omega]
      simp [h.valid_low rfl]
    · rw [show (a' == 3) = true by simp; omega]
      simp [h.valid_high rfl, h.sig_low rfl]
    · rw [show (a' == 3) = false by simp; omega]
      have := h.valid_sig ha
      cases v <;> simp_all
  · intro ha hv
    rw [PulseGen.clock_true]
    exact hfall ha hv

/-- The output port `a` cycles after a capture. -/
structure PortPhase (a : ℕ) (m : MAxis) : Prop where
  free : 1 ≤ a → m.state = .S0
  busy : m.state = .S2 → m.busy = true
  range : m.state ≠ .S3

theorem PortPhase.init (m : MAxis) (h : m.state = .S0) : PortPhase 0 m :=
  ⟨by omega, by simp [h], by simp [h]⟩

/-- The port takes a result at age 15 only, and is not busy at a capture. -/
theorem PortPhase.clock {a : ℕ} {m : MAxis} (h : PortPhase a m) {enter : Prop} [Decidable enter]
    (hfree : a = 0 → enter → m.busy = false) (l r : Bool) (d : Word) :
    PortPhase (nextAge 15 enter a) (m.clock true (a == 15) l d r) := by
  have hrange : (m.clock true (a == 15) l d r).state ≠ .S3 ∧
      ((m.clock true (a == 15) l d r).state = .S2 →
        (m.clock true (a == 15) l d r).busy = true) := by
    rcases hs : m.state with _ | _ | _ | _
    · rw [MAxis.clock_S0 hs]
      cases (a == 15) <;> cases r <;> simp
    · rw [MAxis.clock_S1 hs]; simp
    · rw [MAxis.clock_S2 hs]
      cases r <;> simp
    · exact absurd hs h.range
  refine ⟨?_, hrange.2, hrange.1⟩
  intro hpos
  unfold nextAge at hpos
  have hne : (a == 15) = false := by
    simp only [beq_eq_false_iff_ne]
    rintro rfl
    simp at hpos
  rw [hne]
  by_cases h0 : a = 0
  · have henter : enter := by
      by_contra hn
      simp [h0, hn] at hpos
    rcases hs : m.state with _ | _ | _ | _
    · rw [MAxis.clock_S0 hs]; rfl
    · rw [MAxis.clock_S1 hs]
    · have hb := h.busy hs
      rw [hfree h0 henter] at hb
      cases hb
    · exact absurd hs h.range
  · rw [MAxis.clock_S0 (h.free (by omega))]
    rfl

/-! ## The blocks of a run -/

/-- The part of a run that the blocks see: the captures, the age of the block
in the engine, the pulses, and the output port with what feeds it. -/
structure BlockPipe where
  captured : ℕ → Bool
  age : ℕ → ℕ
  start_pulse : ℕ → Bool
  done : ℕ → Bool
  last : ℕ → Bool
  text : ℕ → Word
  ready : ℕ → Bool
  maxis : ℕ → MAxis
  one_item : OneItem 15 (fun n => captured n = true) age
  start_eq : ∀ n, start_pulse n = (age n == 3)
  done_eq : ∀ n, done n = (age n == 15)
  port_phase : ∀ n, PortPhase (age n) (maxis n)
  port_start : (maxis 0).state = .S0 ∧ (maxis 0).tvalid = false
  port_step : ∀ n, maxis (n + 1) =
    (maxis n).clock true (done n) (last n) (text n) (ready n)
  not_busy : ∀ n, captured n = true → (maxis n).busy = false

namespace BlockPipe

variable (p : BlockPipe)

theorem start_pulse_iff (n : ℕ) :
    p.start_pulse n = true ↔ ∃ c, p.captured c = true ∧ n = c + 3 := by
  rw [p.start_eq, beq_iff_eq, p.one_item.age_eq_iff (by omega) (by omega)]

theorem done_iff (n : ℕ) : p.done n = true ↔ ∃ c, p.captured c = true ∧ n = c + 15 := by
  rw [p.done_eq, beq_iff_eq, p.one_item.age_eq_iff (by omega) (by omega)]

theorem done_of_captured {c : ℕ} (hc : p.captured c = true) : p.done (c + 15) = true :=
  (p.done_iff _).mpr ⟨c, hc, rfl⟩

theorem done_finds_S0 (n : ℕ) (hd : p.done n = true) : (p.maxis n).state = .S0 := by
  rw [p.done_eq, beq_iff_eq] at hd
  exact (p.port_phase n).free (by omega)

/-- The port of the engine, fed by `done`. -/
theorem port : PortRun p.done p.last p.text p.ready p.maxis :=
  ⟨p.port_start, p.port_step, p.done_finds_S0⟩

/-- The engine holds a block for the 15 cycles after its capture, and no other. -/
theorem age_ne_zero_iff (n : ℕ) :
    p.age n ≠ 0 ↔ ∃ c, p.captured c = true ∧ c < n ∧ n ≤ c + 15 := by
  constructor
  · intro hne
    have hle := p.one_item.le n
    obtain ⟨c, hc, hn⟩ := p.one_item.enter_of_age n hne
    exact ⟨c, hc, by omega, by omega⟩
  · rintro ⟨c, hc, hlt, hle⟩
    have hage := p.one_item.age_add hc (n - c) (by omega) (by omega)
    rw [show c + (n - c) = n by omega] at hage
    omega

theorem tvalid_iff (g : ℕ) :
    (p.maxis g).tvalid = true ↔
      ∃ c, p.captured c = true ∧ ∃ r, FirstHigh p.ready (c + 15) r ∧ g = r + 2 := by
  rw [p.port.tvalid_iff]
  constructor
  · rintro ⟨f, hf, r, hr, hg⟩
    obtain ⟨c, hc, rfl⟩ := (p.done_iff f).mp hf
    exact ⟨c, hc, r, hr, hg⟩
  · rintro ⟨c, hc, r, hr, hg⟩
    exact ⟨c + 15, p.done_of_captured hc, r, hr, hg⟩

theorem spaced {c c' : ℕ} (hc : p.captured c = true) (hc' : p.captured c' = true) (hlt : c < c') :
    c + 15 < c' := p.one_item.spaced hc hc' hlt

/-- A block is captured only when the result before it has left the port. -/
theorem result_before_capture {c c' r : ℕ} (hc : p.captured c = true) (hc' : p.captured c' = true)
    (hlt : c < c') (hr : FirstHigh p.ready (c + 15) r) : r < c' := by
  by_contra hle
  have hwait := (p.port.waiting (p.done_of_captured hc) (p.spaced hc hc' hlt)
    (fun k h1 h2 => hr.2.2 k h1 (by omega))).1
  have hbusy := (p.port_phase c').busy hwait
  rw [p.not_busy c' hc'] at hbusy
  cases hbusy

theorem results_in_order {c c' r r' : ℕ} (hc : p.captured c = true) (hc' : p.captured c' = true)
    (hlt : c < c') (hr : FirstHigh p.ready (c + 15) r) (hr' : FirstHigh p.ready (c' + 15) r') :
    r < r' := by
  have := p.result_before_capture hc hc' hlt hr
  have := hr'.1
  omega

/-! ## The block on the port -/

/-- The block on the port in cycle `g` was captured in cycle `c`: `done` gave
its result to the port, which held it until two cycles after the first
M_AXIS_TREADY. -/
def Gives (c g : ℕ) : Prop :=
  p.captured c = true ∧ ∃ r, FirstHigh p.ready (c + 15) r ∧ g = r + 2

/-- Each cycle with M_AXIS_TVALID high gives one block. -/
theorem exists_gives {g : ℕ} (hg : (p.maxis g).tvalid = true) : ∃ c, p.Gives c g := by
  obtain ⟨c, hc, r, hr, he⟩ := (p.tvalid_iff g).mp hg
  exact ⟨c, hc, r, hr, he⟩

theorem gives_unique {c c' g : ℕ} (h : p.Gives c g) (h' : p.Gives c' g) : c = c' := by
  obtain ⟨hc, r, hr, hg⟩ := h
  obtain ⟨hc', r', hr', hg'⟩ := h'
  rcases Nat.lt_trichotomy c c' with hlt | heq | hgt
  · have := p.results_in_order hc hc' hlt hr hr'
    omega
  · exact heq
  · have := p.results_in_order hc' hc hgt hr' hr
    omega

theorem tdata_of_gives {c g : ℕ} (h : p.Gives c g) : (p.maxis g).tdata = p.text (c + 15) := by
  obtain ⟨hc, r, hr, rfl⟩ := h
  exact (p.port.presented (p.done_of_captured hc) hr).2.1

/-- When the core is empty, the port is idle and no block is captured, every
block that is given later is captured later. -/
theorem captured_later {a c g : ℕ} (hage : p.age a = 0) (hidle : (p.maxis a).state = .S0)
    (hcap : p.captured a = false) (h : p.Gives c g) (hlt : a < g) : a < c := by
  obtain ⟨hc, r, hr, rfl⟩ := h
  by_contra hle
  have hne : c ≠ a := by
    rintro rfl
    rw [hcap] at hc
    cases hc
  have hpast : c + 15 < a := by
    by_contra hin
    exact (p.age_ne_zero_iff a).mpr ⟨c, hc, by omega, by omega⟩ hage
  have hd := p.done_of_captured hc
  rcases Nat.lt_or_ge r a with hra | hra
  · -- the result passes through the port at this very edge
    have hS1 := (p.port.passing hd hr).1
    rw [show r + 1 = a by omega, hidle] at hS1
    cases hS1
  · have hS2 := (p.port.waiting hd hpast (fun k h1 h2 => hr.2.2 k h1 (by omega))).1
    rw [hidle] at hS2
    cases hS2

end BlockPipe

end aes_core
