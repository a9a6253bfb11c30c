-- The laws of the blocks of the cipher engine: each captured block starts the
-- core once, is done once, and is on the output port once, under the key of
-- its capture and in the order of the captures.
import AesMusicPlayer.CipherEngine

open clocked

namespace aes_core

namespace CipherEngine

variable {Sa W : Type}

/-- The engine in each cycle after a reset. -/
def cycles (R : CipherRounds Sa W) (i₁ i₂ : Inputs) (e₀ : CipherEngine Sa W) (ins : ℕ → Inputs) :
    ℕ → CipherEngine Sa W :=
  run (clock R true) (e₀.reset R i₁ i₂) ins

/-- A run of the engine from a reset. -/
structure IsRun (R : CipherRounds Sa W) (ins : ℕ → Inputs) (e : ℕ → CipherEngine Sa W) : Prop where
  start : ∃ i₁ i₂ e₀, e 0 = reset R i₁ i₂ e₀
  step : ∀ n, e (n + 1) = (e n).clock R true (ins n)

theorem cycles_isRun (R : CipherRounds Sa W) (i₁ i₂ : Inputs) (e₀ : CipherEngine Sa W)
    (ins : ℕ → Inputs) : IsRun R ins (cycles R i₁ i₂ e₀ ins) :=
  ⟨⟨i₁, i₂, e₀, rfl⟩, fun _ => rfl⟩

/-- The input FSM steps from S0 to S1 at the edge of cycle `c`. -/
def Captured (e : ℕ → CipherEngine Sa W) (c : ℕ) : Prop :=
  (e c).saxis.state = .S0 ∧ (e (c + 1)).saxis.state = .S1

/-- The age of the block in the engine. -/
def blockAge (ins : ℕ → Inputs) (e : ℕ → CipherEngine Sa W) : ℕ → ℕ
  | 0 => 0
  | n + 1 => nextAge 15 ((e n).captures (ins n) = true) (blockAge ins e n)

namespace IsRun

variable {R : CipherRounds Sa W} {ins : ℕ → Inputs} {e : ℕ → CipherEngine Sa W}

theorem phase (h : IsRun R ins e) (n : ℕ) : Phase (blockAge ins e n) (e n) := by
  induction n with
  | zero =>
    obtain ⟨i₁, i₂, e₀, h0⟩ := h.start
    rw [h0]
    exact phase_reset i₁ i₂ e₀
  | succ n ih =>
    rw [h.step]
    exact phase_clock ih (ins n)

theorem progress (h : IsRun R ins e) (n : ℕ) : Progress R (blockAge ins e n) (e n) := by
  induction n with
  | zero =>
    simp only [blockAge]
    exact ⟨by omega, fun j _ h => by omega, by omega⟩
  | succ n ih =>
    rw [h.step]
    exact progress_clock (h.phase n) ih (ins n)

theorem age_of_S0 (h : IsRun R ins e) {n : ℕ} (hs : (e n).saxis.state = .S0) :
    blockAge ins e n = 0 := by
  by_contra hne
  rw [(h.phase n).state, if_neg hne] at hs
  cases hs

theorem captured_iff (h : IsRun R ins e) (c : ℕ) :
    Captured e c ↔ (e c).captures (ins c) = true := by
  have hph := h.phase (c + 1)
  constructor
  · rintro ⟨h0, h1⟩
    by_contra hcap
    have hstate := hph.state
    rw [blockAge, h.age_of_S0 h0, nextAge, if_pos rfl, if_neg hcap, h1] at hstate
    simp at hstate
  · intro hcap
    have h0 : (e c).saxis.state = .S0 := by
      simp only [captures, Bool.and_eq_true, beq_iff_eq] at hcap
      exact hcap.1
    refine ⟨h0, ?_⟩
    rw [hph.state, blockAge, h.age_of_S0 h0, nextAge, if_pos rfl, if_pos hcap]
    rfl

/-- The blocks of the run. -/
def pipe (h : IsRun R ins e) : BlockPipe where
  captured n := (e n).captures (ins n)
  age := blockAge ins e
  start_pulse n := (e n).cipher_start_pulse
  done n := (e n).core.done
  last n := (e n).saxis.data_last
  text n := (e n).core.text_out
  ready n := (ins n).m_tready
  maxis n := (e n).maxis
  one_item := ⟨Nat.succ_pos _, rfl, fun _ => rfl, fun n hn => h.age_of_S0 ((h.captured_iff n).mpr hn).1⟩
  start_eq n := (h.phase n).start.pulse
  done_eq n := (h.phase n).done
  port_phase n := (h.phase n).port
  port_start := by
    obtain ⟨i₁, i₂, e₀, h0⟩ := h.start
    simp only [h0]
    simp [reset, clock, MAxis.clock]
  port_step n := by rw [h.step]; rfl
  not_busy n hn := by
    simp only [captures, cipher_bsy, Bool.and_eq_true, Bool.not_eq_eq_eq_not, Bool.not_true,
      Bool.or_eq_false_iff] at hn
    exact hn.2.1.2.1

theorem captured_def (h : IsRun R ins e) (c : ℕ) : h.pipe.captured c = true ↔ Captured e c :=
  (h.captured_iff c).symm

/-- The input FSM is in S1 for the 15 cycles after a capture, and only then. -/
theorem S1_iff (h : IsRun R ins e) (n : ℕ) :
    (e n).saxis.state = .S1 ↔ ∃ c, Captured e c ∧ c < n ∧ n ≤ c + 15 := by
  have hage : (e n).saxis.state = .S1 ↔ blockAge ins e n ≠ 0 := by
    rw [(h.phase n).state]
    split_ifs <;> simp_all
  rw [hage]
  have := h.pipe.age_ne_zero_iff n
  simp only [h.captured_def] at this
  exact this

/-- A block captured in cycle `c` has age `a` in cycle `c + a`. -/
theorem age_add (h : IsRun R ins e) {c a : ℕ} (hc : Captured e c) (h1 : 1 ≤ a) (h15 : a ≤ 15) :
    blockAge ins e (c + a) = a :=
  h.pipe.one_item.age_add ((h.captured_def c).mpr hc) a h1 h15

/-- The registers of the block at its capture are those at its `done`. -/
theorem held_until_done (h : IsRun R ins e) {c : ℕ} (hc : Captured e c) (a : ℕ) (h1 : 1 ≤ a)
    (h15 : a ≤ 15) :
    (e (c + a)).saxis.key = (e c).saxis.key ∧
      (e (c + a)).saxis.data = (e (c + 1)).saxis.data ∧
      (e (c + a)).saxis.data_last = (e (c + 1)).saxis.data_last := by
  induction a, h1 using Nat.le_induction with
  | base =>
    refine ⟨?_, rfl, rfl⟩
    have hcap := (h.captured_iff c).mp hc
    simp only [captures, Bool.and_eq_true, Bool.not_eq_eq_eq_not, Bool.not_true] at hcap
    have hneed := hcap.2.1.1
    simp only [setup_needed] at hneed
    rw [h.step]
    simp only [clock]
    rw [SAxisCipher.clock_S0 hc.1]
    simp [hneed]
  | succ a h1 ih =>
    have hage := h.age_add hc h1 (by omega)
    have hph := h.phase (c + a)
    rw [hage] at hph
    obtain ⟨hk, hd, hl⟩ := saxis_keeps (R := R) hph (ins (c + a)) h1 (by omega)
    obtain ⟨ihk, ihd, ihl⟩ := ih (by omega)
    rw [← Nat.add_assoc, h.step, hk, hd, hl]
    exact ⟨ihk, ihd, ihl⟩

/-- What `done` hands to the port is the captured block, enciphered. -/
theorem result_at_done (h : IsRun R ins e) {c : ℕ} (hc : Captured e c) :
    (e (c + 15)).core.text_out = R.encrypt (e c).saxis.key (e (c + 1)).saxis.data ∧
      (e (c + 15)).saxis.data_last = (e (c + 1)).saxis.data_last := by
  have hage := h.age_add hc (Nat.le_add_left 1 14) (Nat.le_refl 15)
  have hout := (h.progress (c + 15)).out hage
  obtain ⟨hk, hd, hl⟩ := h.held_until_done hc 15 (by omega) (by omega)
  rw [hout, hk, hd]
  exact ⟨rfl, hl⟩

end IsRun

/-! ## The laws -/

/-- What the blocks of a run give. Captures and start pulses, captures and
`done` pulses, and captures and cycles with M_AXIS_TVALID high go together one
to one, but the last only from the first M_AXIS_TREADY on: a block whose
`done` is followed by no M_AXIS_TREADY stays in the port. -/
structure OneResultPerBlock (R : CipherRounds Sa W) (ins : ℕ → Inputs)
    (e : ℕ → CipherEngine Sa W) : Prop where
  one_start : ∀ n, (e n).cipher_start_pulse = true ↔ ∃ c, Captured e c ∧ n = c + 3
  one_done : ∀ n, (e n).core.done = true ↔ ∃ c, Captured e c ∧ n = c + 15
  one_result : ∀ g, (e g).maxis.tvalid = true ↔
    ∃ c, Captured e c ∧ ∃ r, FirstHigh (fun n => (ins n).m_tready) (c + 15) r ∧ g = r + 2
  a_result : ∀ c k, Captured e c → c + 15 ≤ k → (ins k).m_tready = true →
    ∃! r, FirstHigh (fun n => (ins n).m_tready) (c + 15) r
  payload : ∀ c r, Captured e c → FirstHigh (fun n => (ins n).m_tready) (c + 15) r →
    (e (r + 2)).maxis.tdata = R.encrypt (e c).saxis.key (e (c + 1)).saxis.data ∧
      (e (r + 2)).maxis.tlast = (e (c + 1)).saxis.data_last
  in_order : ∀ c c' r r', Captured e c → Captured e c' → c < c' →
    FirstHigh (fun n => (ins n).m_tready) (c + 15) r →
    FirstHigh (fun n => (ins n).m_tready) (c' + 15) r' → r < r'
  alone : ∀ c c', Captured e c → Captured e c' → c < c' → c + 15 < c'
  waits : ∀ n, (e n).saxis.state = .S1 ↔ ∃ c, Captured e c ∧ c < n ∧ n ≤ c + 15
  free_port : ∀ n, (e n).core.done = true → (e n).maxis.state = .S0

/-- From any reset, with any inputs, each captured block starts the core once,
is done once, and gives one result, enciphered under the key of its capture,
in the order of the captures. -/
theorem each_block_gives_one_result (R : CipherRounds Sa W) (i₁ i₂ : Inputs)
    (e₀ : CipherEngine Sa W) (ins : ℕ → Inputs) :
    OneResultPerBlock R ins (cycles R i₁ i₂ e₀ ins) := by
  have h := cycles_isRun R i₁ i₂ e₀ ins
  generalize cycles R i₁ i₂ e₀ ins = e at h
  have hcap := h.captured_def
  refine ⟨?_, ?_, ?_, ?_, ?_, ?_, ?_, h.S1_iff, h.pipe.done_finds_S0⟩
  · intro n
    have := h.pipe.start_pulse_iff n
    simp only [hcap] at this
    exact this
  · intro n
    have := h.pipe.done_iff n
    simp only [hcap] at this
    exact this
  · intro g
    have := h.pipe.tvalid_iff g
    simp only [hcap] at this
    exact this
  · intro c k _ hk hready
    obtain ⟨r, hr⟩ := @exists_firstHigh (fun n => (ins n).m_tready) _ _ hk hready
    exact ⟨r, hr, fun r' hr' => hr'.unique hr⟩
  · intro c r hc hr
    obtain ⟨-, hd, hl, -⟩ := h.pipe.port.presented (h.pipe.done_of_captured ((hcap c).mpr hc)) hr
    obtain ⟨hout, hlast⟩ := h.result_at_done hc
    exact ⟨hd.trans hout, hl.trans hlast⟩
  · intro c c' r r' hc hc' hlt hr hr'
    exact h.pipe.results_in_order ((hcap c).mpr hc) ((hcap c').mpr hc') hlt hr hr'
  · intro c c' hc hc' hlt
    exact h.pipe.spaced ((hcap c).mpr hc) ((hcap c').mpr hc') hlt

/-! ### A block with no M_AXIS_TREADY -/

/-- Rounds that keep the block as it is. -/
def plainRounds : CipherRounds Word Unit where
  kld _ := ()
  next _ := ()
  init t _ := t
  round t _ := t
  last t _ := t

/-- All registers low. -/
def low : CipherEngine Word Unit where
  slv_reg0 := 0
  setup_req := ⟨false, false⟩
  saxis := ⟨false, false, false, 0, false, 0, false, .S0⟩
  start := ⟨false, false⟩
  core := ⟨0, false, false, 0, 0, 0, ()⟩
  maxis := ⟨false, false, 0, false, .S0⟩

/-- A beat is always offered, and M_AXIS_TREADY never comes. -/
def stalled : Inputs := ⟨true, 0, false, false, none⟩

/-- The block captured in cycle 0 is never on the port. -/
theorem a_stalled_block_gives_no_result :
    Captured (cycles plainRounds stalled stalled low fun _ => stalled) 0 ∧
      ¬ ∃ g, 0 < g ∧
        (cycles plainRounds stalled stalled low (fun _ => stalled) g).maxis.tvalid = true := by
  have h := cycles_isRun plainRounds stalled stalled low (fun _ => stalled)
  refine ⟨⟨rfl, rfl⟩, ?_⟩
  rintro ⟨g, -, hg⟩
  obtain ⟨c, -, r, ⟨-, hready, -⟩, -⟩ := (h.pipe.tvalid_iff g).mp hg
  cases hready

end CipherEngine

end aes_core
