-- The setup requests of the decipher engine. A request that finds the FSM in
-- S0 or S1 waits there for its key, and the next beat that is handed over is
-- that key. A request that comes in S2 is forgotten.
import AesMusicPlayer.EngineBeats

open clocked

namespace aes_core

/-! ## A request that waits -/

namespace SAxisDecipher

variable {ctrl kdone fin busy : Bool} {i : Inputs} {s : SAxisDecipher}

/-- A request that gets no key at this edge is remembered in `setup_done_reg`. -/
theorem request_kept (h : s.state = .S0 ∨ s.state = .S1) (hn : s.setup_needed ctrl = true)
    (ht : (i.tvalid && (s.state == .S0 || (s.state == .S1 && fin))) = false) :
    (s.clock true ctrl kdone fin busy i).setup_done_reg = false ∧
      (s.clock true ctrl kdone fin busy i).state ≠ .S2 := by
  rcases h with h | h
  · rw [clock_S0 h]
    simp only [h, beq_self_eq_true, Bool.true_or, Bool.and_true] at ht
    simp [hn, ht]
  · cases fin
    · rw [clock_S1 h]
      simp [hn]
    · rw [clock_S1_finished h]
      simp only [h, beq_self_eq_true, Bool.and_true, Bool.or_true] at ht
      simp [hn, ht]

/-- The FSM goes to S2 with a key, and lowers `key_valid`. -/
theorem goes_to_S2
    (ht : (s.setup_needed ctrl && i.tvalid && (s.state == .S0 || (s.state == .S1 && fin))) = true) :
    (s.clock true ctrl kdone fin busy i).state = .S2 ∧
      (s.clock true ctrl kdone fin busy i).key_valid = false := by
  simp only [Bool.and_eq_true, Bool.or_eq_true, beq_iff_eq] at ht
  rcases ht.2 with h0 | ⟨h1, rfl⟩
  · rw [clock_S0 h0]
    simp [ht.1.1, ht.1.2]
  · rw [clock_S1_finished h1]
    simp [ht.1.1, ht.1.2]

end SAxisDecipher

namespace DecipherEngine

variable {Sa W : Type} {R : InvCipherRounds Sa W} {ins : ℕ → Inputs}
  {e : ℕ → DecipherEngine Sa W}

/-- A setup request waits for its key. -/
def Waits (e : ℕ → DecipherEngine Sa W) (n : ℕ) : Prop :=
  (e n).saxis.state ≠ .S2 ∧ (e n).setup_needed = true

namespace IsRun

theorem S2_of_key (h : IsRun R ins e) {m : ℕ} (hk : (inPort ins e).takesKey m = true) :
    (e (m + 1)).saxis.state = .S2 ∧ (e (m + 1)).saxis.key_valid = false := by
  rw [h.saxis_step]
  exact SAxisDecipher.goes_to_S2 hk

theorem waits_step (h : IsRun R ins e) (n : ℕ) (hw : Waits e n)
    (hk : ¬ (inPort ins e).takesKey n = true) : Waits e (n + 1) := by
  obtain ⟨hs, hn⟩ := hw
  have hst : (e n).saxis.state = .S0 ∨ (e n).saxis.state = .S1 := by
    rcases h.state_cases n with h0 | h1 | h2
    · exact Or.inl h0
    · exact Or.inr h1
    · exact absurd h2 hs
  simp only [InputPort.takesKey, inPort, hn, Bool.true_and, Bool.not_eq_true] at hk
  obtain ⟨hreg, hne⟩ : (e (n + 1)).saxis.setup_done_reg = false ∧
      (e (n + 1)).saxis.state ≠ .S2 := by
    rw [h.saxis_step]
    exact SAxisDecipher.request_kept hst hn hk
  exact ⟨hne, by simp [setup_needed, SAxisDecipher.setup_needed, hreg]⟩

/-- No request waits in the cycle after a capture. -/
theorem not_waits_after_capture (h : IsRun R ins e) {m : ℕ}
    (hm : (inPort ins e).takesData m = true) : ¬ Waits e (m + 1) := by
  rintro ⟨-, hn⟩
  have hage : blockAge ins e (m + 1) = 1 :=
    h.pipe.one_item.age_add hm 1 (Nat.le_refl 1) (by omega)
  rw [(h.phase (m + 1)).no_setup hage] at hn
  cases hn

/-- The port takes the beat of a waiting request as its key. -/
theorem takes_waiting (h : IsRun R ins e) {n : ℕ} (hw : Waits e n)
    (ha : (inPort ins e).sink.accepted n = true) : (inPort ins e).takesKey n = true := by
  simp only [Sink.accepted, Bool.and_eq_true] at ha
  have hs : (e n).saxis.state = .S0 := by
    by_contra hne
    obtain ⟨-, m, rfl, ht⟩ := h.inPort_laws.open_outside n hne ha.2
    simp only [InputPort.sink, Bool.or_eq_true] at ht
    rcases ht with hk | hd
    · exact hw.1 (h.S2_of_key hk).1
    · exact h.not_waits_after_capture hd hw
  have hv : (ins n).tvalid = true := ha.1
  simp [InputPort.takesKey, inPort, hw.2, hv, hs]

end IsRun

/-! ## The key of a request -/

/-- The beat that the edge of cycle `n` hands over is a key: one edge from
cycle `p` on stores it in the key register, two cycles later the key
load pulse starts the key schedule with it, and no edge stores it as data. -/
structure IsKeyBeat (R : InvCipherRounds Sa W) (ins : ℕ → Inputs) (e : ℕ → DecipherEngine Sa W)
    (p n : ℕ) : Prop where
  loaded : ∃ m, p ≤ m ∧ (m = n ∨ m + 1 = n) ∧ (inPort ins e).takesKey m = true ∧
    (e (m + 1)).saxis.key = (ins n).tdata ∧ (e (m + 2)).decipher_kload_pulse = true ∧
    (e (m + 3)).core.expand = R.kld (ins n).tdata
  not_data : ∀ m, (inPort ins e).takesData m = true →
    (inPort ins e).sink.beat m ≠ (inPort ins e).sink.beat n

namespace IsRun

/-- A key starts its key schedule two cycles after the edge that stores it. -/
theorem schedule_of_key (h : IsRun R ins e) {m : ℕ} (hk : (inPort ins e).takesKey m = true) :
    (e (m + 1)).saxis.key = (ins m).tdata ∧ (e (m + 2)).decipher_kload_pulse = true ∧
      (e (m + 3)).core.expand = R.kld (ins m).tdata := by
  have hkey : (e (m + 1)).saxis.key = (ins m).tdata := by
    have := h.inPort_laws.key_step m
    rw [if_pos hk] at this
    exact this
  obtain ⟨hS2, hlow⟩ := h.S2_of_key hk
  have hhigh : (e m).saxis.key_valid = true := by
    have hne : (e m).saxis.state ≠ .S2 := by
      intro h2
      simp [InputPort.takesKey, inPort, h2] at hk
    rw [(h.phase m).key_valid]
    simpa using hne
  have hpulse : (e (m + 2)).decipher_kload_pulse = true := by
    rw [h.step, decipher_kload_pulse]
    simp only [clock, PulseGen.pulse_clock, hlow]
    rw [h.step]
    simp [clock, PulseGen.clock_true, hhigh]
  have hkey2 : (e (m + 2)).saxis.key = (ins m).tdata := by
    rw [h.saxis_step, SAxisDecipher.clock_S2 hS2]
    exact hkey
  refine ⟨hkey, hpulse, ?_⟩
  rw [h.step]
  simp [clock, InvCipherTop.clock, hpulse, hkey2]

/-- The data register gets no beat that the key register gets. -/
theorem key_not_data (h : IsRun R ins e) (hc : (inPort ins e).Conforms) {m n : ℕ}
    (ha : (inPort ins e).sink.accepted n = true) (hmn : m = n ∨ m + 1 = n)
    (hw : Waits e m) (hk : (inPort ins e).takesKey m = true) (j : ℕ)
    (hj : (inPort ins e).takesData j = true) :
    (inPort ins e).sink.beat j ≠ (inPort ins e).sink.beat n := by
  intro hb
  have htake : (inPort ins e).sink.take j = true := by simp [InputPort.sink, hj]
  have hnot : ∀ i, ¬ ((inPort ins e).takesKey i = true ∧ (inPort ins e).takesData i = true) :=
    InputPort.key_or_data
  rcases Sink.take_of_beat (InputPort.orderly h.inPort_laws hc) ha htake hb with rfl | ⟨hj1, -⟩
  · rcases hmn with rfl | rfl
    · exact hnot m ⟨hk, hj⟩
    · -- the edge after a key is in S2
      have hS2 := (h.S2_of_key hk).1
      simp [InputPort.takesData, inPort, hS2] at hj
  · rcases hmn with rfl | hm1
    · subst hj1
      exact h.not_waits_after_capture hj hw
    · obtain rfl : m = j := by omega
      exact hnot m ⟨hk, hj⟩

end IsRun

/-! ## The law -/

/-- In every run with a sender that conforms, the first beat handed over from
a request on is its key, unless the request came in S2. -/
theorem a_request_outside_S2_gets_its_key (R : InvCipherRounds Sa W) (ins : ℕ → Inputs)
    (e : ℕ → DecipherEngine Sa W) (h : IsRun R ins e) (hc : (inPort ins e).Conforms) (p n : ℕ)
    (hp : (e p).setup_pulse = true) (hS2 : (e p).saxis.state ≠ .S2)
    (hn : FirstHigh (inPort ins e).sink.accepted p n) : IsKeyBeat R ins e p n := by
  obtain ⟨hle, ha, hfirst⟩ := hn
  have hwait : Waits e p := ⟨hS2, by simp [setup_needed, SAxisDecipher.setup_needed, hp]⟩
  have horder := InputPort.orderly h.inPort_laws hc
  -- the key is stored at the edge that hands it over, or at the edge before
  have hkey : ∃ m, p ≤ m ∧ (m = n ∨ m + 1 = n) ∧ Waits e m ∧ (inPort ins e).takesKey m = true := by
    rcases holds_unless h.waits_step hwait hle with hw | ⟨m, hpm, hmn, hw, hk⟩
    · exact ⟨n, hle, Or.inl rfl, hw, h.takes_waiting hw ha⟩
    · refine ⟨m, hpm, Or.inr ?_, hw, hk⟩
      have htake : (inPort ins e).sink.take m = true := by simp [InputPort.sink, hk]
      have hheld : (inPort ins e).sink.held (m + 1) = true := by
        have hlow := InputPort.not_ready_of_take htake (hfirst m hpm hmn)
        simp only [Sink.held, htake, Bool.true_and, Bool.not_eq_true']
        exact hlow
      by_contra hne
      have hnext := Sink.accepted_of_held horder hheld
      rw [hfirst (m + 1) (by omega) (by omega)] at hnext
      cases hnext
  obtain ⟨m, hpm, hmn, hw, hk⟩ := hkey
  have htake : (inPort ins e).sink.take m = true := by simp [InputPort.sink, hk]
  have hdata : (ins m).tdata = (ins n).tdata := by
    rcases hmn with rfl | rfl
    · rfl
    · have hlow := InputPort.not_ready_of_take htake (hfirst m hpm (Nat.lt_succ_self m))
      exact (hc m (InputPort.valid_of_take htake) hlow).2.1.symm
  obtain ⟨h1, h2, h3⟩ := h.schedule_of_key hk
  rw [hdata] at h1 h3
  exact ⟨⟨m, hpm, hmn, hk, h1, h2, h3⟩, h.key_not_data hc ha hmn hw hk⟩

/-- The config bit is set in the cycles 0 and 5 and cleared in the cycles 3
and 8. A key is offered in cycle 2 and handed over in cycle 3, and one more
beat is handed over in cycle 20. -/
def twoRequests (n : ℕ) : Inputs where
  tvalid := n == 2 || n == 3 || n == 20
  tdata := if n < 20 then 7 else 9
  tlast := false
  m_tready := true
  write := if n = 0 ∨ n = 5 then some 1 else if n = 3 ∨ n = 8 then some 0 else none

theorem twoRequests_conforms : (plainPort twoRequests).Conforms := by
  have hready : (plainPort twoRequests).tready 3 = true ∧
      (plainPort twoRequests).tready 20 = true := by decide +kernel
  intro n hv hr
  have hn : n = 2 ∨ n = 3 ∨ n = 20 := by
    simpa [plainPort, inPort, twoRequests, or_assoc] using hv
  rcases hn with rfl | rfl | rfl
  · exact ⟨rfl, rfl, rfl⟩
  · rw [hready.1] at hr; cases hr
  · rw [hready.2] at hr; cases hr

/-- The first request gets its key. -/
theorem the_first_request_gets_its_key :
    IsKeyBeat plainInvRounds twoRequests (plainRun twoRequests) 2 3 :=
  a_request_outside_S2_gets_its_key _ _ _ (plainRun_isRun _) twoRequests_conforms 2 3
    (by decide +kernel) (by decide +kernel)
    ⟨by decide, by decide +kernel, fun k h1 h2 => by
      obtain rfl : k = 2 := by omega
      decide +kernel⟩

/-- The second request comes in S2, and the next beat is taken as data. -/
theorem a_request_in_S2_gets_no_key :
    (plainPort twoRequests).Conforms ∧ (plainRun twoRequests 7).setup_pulse = true ∧
      (plainRun twoRequests 7).saxis.state = .S2 ∧
      FirstHigh (plainPort twoRequests).sink.accepted 7 20 ∧
      ¬ IsKeyBeat plainInvRounds twoRequests (plainRun twoRequests) 7 20 := by
  have hquiet : ∀ k, k < 20 → 7 ≤ k → (plainPort twoRequests).sink.accepted k = false := by
    decide +kernel
  refine ⟨twoRequests_conforms, by decide +kernel, by decide +kernel,
    ⟨by decide, by decide +kernel, fun k h1 h2 => hquiet k h2 h1⟩, ?_⟩
  intro h
  exact h.not_data 20 (by decide +kernel) rfl

end DecipherEngine

end aes_core
