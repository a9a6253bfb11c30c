-- The results around a new key. Nothing discards the result of a block that
-- was in the engine when the setup request came, so a new stream is clean
-- only when the output port is idle as the new key is handed over.
import AesMusicPlayer.KeyRequests

open clocked

namespace aes_core

/-- The edge of cycle `a` hands a key over: the key register takes the beat at
that edge, or took it at the edge before. -/
def InputPort.KeyAccepted (p : InputPort) (a : ℕ) : Prop :=
  p.sink.accepted a = true ∧ (p.takesKey a = true ∨ p.keyHeld a = true)

/-- A key that is handed over outside S0 was taken at the edge before. -/
theorem InputPort.takesKey_S0 {p : InputPort} (h : p.Laws) {a : ℕ}
    (ha : p.sink.accepted a = true) (hk : p.takesKey a = true) : p.state a = .S0 := by
  simp only [Sink.accepted, Bool.and_eq_true] at ha
  by_contra hne
  have htake := take_outside h hne ha.2
  simp [sink, hk] at htake

theorem InputPort.exists_of_keyHeld {p : InputPort} {a : ℕ} (h : p.keyHeld a = true) :
    ∃ m, a = m + 1 ∧ p.takesKey m = true := by
  cases a with
  | zero => simp [keyHeld] at h
  | succ m =>
    simp only [keyHeld, Bool.and_eq_true] at h
    exact ⟨m, rfl, h.1⟩

/-- The stream after each new key holds blocks of that stream only. -/
def CleanStreams (p : InputPort) (b : BlockPipe) : Prop :=
  ∀ a g, p.KeyAccepted a → a < g → (b.maxis g).tvalid = true → b.ready g = true →
    ∃ c, a < c ∧ b.Gives c g ∧ (b.maxis g).tdata = b.text (c + 15)

/-- Each new key finds the output port idle, and is not taken as data too. -/
def KeysFindPortIdle (p : InputPort) (b : BlockPipe) : Prop :=
  ∀ a, p.KeyAccepted a → (b.maxis a).state = .S0 ∧ p.takesData a = false

/-- The core is empty when a key is handed over, so only the port can hold a
block of the old stream. -/
theorem cleanStreams_of_idle {p : InputPort} {b : BlockPipe}
    (hcap : ∀ a, b.captured a = p.takesData a) (hage : ∀ a, p.KeyAccepted a → b.age a = 0)
    (hidle : KeysFindPortIdle p b) : CleanStreams p b := by
  intro a g ha hlt hv _
  obtain ⟨c, hc⟩ := b.exists_gives hv
  obtain ⟨hS0, hdata⟩ := hidle a ha
  have hlater := b.captured_later (hage a ha) hS0 (by rw [hcap, hdata]) hc hlt
  exact ⟨c, hlater, hc, b.tdata_of_gives hc⟩

namespace CipherEngine

variable {Sa W : Type} {R : CipherRounds Sa W} {ins : ℕ → Inputs} {e : ℕ → CipherEngine Sa W}

theorem IsRun.S0_of_key (h : IsRun R ins e) {m : ℕ} (hk : (inPort ins e).takesKey m = true) :
    (e (m + 1)).saxis.state = .S0 := by
  simp only [InputPort.takesKey, inPort, setup_needed, Bool.and_eq_true, Bool.or_eq_true,
    beq_iff_eq] at hk
  rw [h.saxis_step]
  rcases hk.2 with h0 | ⟨h1, hd⟩
  · rw [SAxisCipher.clock_S0 h0]
    simp [hk.1.1]
  · rw [hd, SAxisCipher.clock_S1_finished h1]

theorem IsRun.empty_at_key (h : IsRun R ins e) (a : ℕ) (ha : (inPort ins e).KeyAccepted a) :
    h.pipe.age a = 0 := by
  obtain ⟨hacc, hk | hheld⟩ := ha
  · exact h.age_of_S0 (InputPort.takesKey_S0 h.inPort_laws hacc hk)
  · obtain ⟨m, rfl, hk⟩ := InputPort.exists_of_keyHeld hheld
    exact h.age_of_S0 (h.S0_of_key hk)

end CipherEngine

namespace DecipherEngine

variable {Sa W : Type} {R : InvCipherRounds Sa W} {ins : ℕ → Inputs}
  {e : ℕ → DecipherEngine Sa W}

theorem IsRun.age_of_S0 (h : IsRun R ins e) {n : ℕ} (hs : (e n).saxis.state = .S0) :
    blockAge ins e n = 0 := by
  by_contra hne
  rw [(h.phase n).state (by omega)] at hs
  cases hs

theorem IsRun.empty_at_key (h : IsRun R ins e) (a : ℕ) (ha : (inPort ins e).KeyAccepted a) :
    h.pipe.age a = 0 := by
  obtain ⟨hacc, hk | hheld⟩ := ha
  · exact h.age_of_S0 (InputPort.takesKey_S0 h.inPort_laws hacc hk)
  · obtain ⟨m, rfl, hk⟩ := InputPort.exists_of_keyHeld hheld
    exact h.age_of_S2 (h.S2_of_key hk).1

end DecipherEngine

/-! ## The law -/

/-- In every run of either engine in which each new key finds the output port
idle, every block handed over after the key was captured after the key. -/
theorem streams_are_clean_when_keys_find_the_port_idle {Sa W Sa' W' : Type} (ins : ℕ → Inputs)
    (R : CipherRounds Sa W) (R' : InvCipherRounds Sa' W') :
    (∀ e, (h : CipherEngine.IsRun R ins e) →
      KeysFindPortIdle (CipherEngine.inPort ins e) h.pipe →
      CleanStreams (CipherEngine.inPort ins e) h.pipe) ∧
    (∀ e, (h : DecipherEngine.IsRun R' ins e) →
      KeysFindPortIdle (DecipherEngine.inPort ins e) h.pipe →
      CleanStreams (DecipherEngine.inPort ins e) h.pipe) := by
  refine ⟨?_, ?_⟩
  · intro e h hidle
    exact cleanStreams_of_idle (fun _ => rfl) h.empty_at_key hidle
  · intro e h hidle
    exact cleanStreams_of_idle (fun _ => rfl) h.empty_at_key hidle

theorem keysFindPortIdle_of_valid {p : InputPort} {b : BlockPipe} {offered : List ℕ}
    (hvalid : ∀ a, (p.ins a).tvalid = true → a ∈ offered)
    (hidle : ∀ a ∈ offered, p.takesKey a = true ∨ p.keyHeld a = true →
      (b.maxis a).state = .S0 ∧ p.takesData a = false) : KeysFindPortIdle p b := by
  rintro a ⟨hacc, hk⟩
  have hv : (p.ins a).tvalid = true := by
    simp only [Sink.accepted, Bool.and_eq_true] at hacc
    exact hacc.1
  exact hidle a (hvalid a hv) hk

/-- A key is handed over in cycle 3 and a block in cycle 20. Two cycles after its result comes a
second request, whose key is handed over in cycle 40, and the next block in cycle 60. -/
def blockBetween (n : ℕ) : Inputs where
  tvalid := n == 2 || n == 3 || n == 20 || n == 39 || n == 40 || n == 60
  tdata := if n < 20 then 7 else if n < 39 then 8 else if n < 60 then 9 else 10
  tlast := false
  m_tready := true
  write := if n = 0 ∨ n = 37 then some 1 else if n = 3 ∨ n = 41 then some 0 else none

theorem valid_blockBetween {n : ℕ} (h : (blockBetween n).tvalid = true) :
    n ∈ [2, 3, 20, 39, 40, 60] := by
  simpa [blockBetween, or_assoc] using h

/-- The result of the first block is on the port in cycle 37, and not in the second stream. -/
theorem a_block_between_gives_clean_streams :
    ((CipherEngine.plainRun_isRun blockBetween).pipe.maxis 37).tvalid = true ∧
    CleanStreams (CipherEngine.plainPort blockBetween)
      (CipherEngine.plainRun_isRun blockBetween).pipe ∧
    ((DecipherEngine.plainRun_isRun blockBetween).pipe.maxis 37).tvalid = true ∧
    CleanStreams (DecipherEngine.plainPort blockBetween)
      (DecipherEngine.plainRun_isRun blockBetween).pipe := by
  have hlaw := streams_are_clean_when_keys_find_the_port_idle blockBetween
    CipherEngine.plainRounds DecipherEngine.plainInvRounds
  exact ⟨by decide +kernel, hlaw.1 _ (CipherEngine.plainRun_isRun _)
      (keysFindPortIdle_of_valid (fun _ => valid_blockBetween) (by decide +kernel)),
    by decide +kernel, hlaw.2 _ (DecipherEngine.plainRun_isRun _)
      (keysFindPortIdle_of_valid (fun _ => valid_blockBetween) (by decide +kernel))⟩

/-- A block is captured in cycle 1, a setup request comes in cycle 7 and its
key in cycle 20. M_AXIS_TREADY is low in the cycles 10 to 40. -/
def parked (n : ℕ) : Inputs where
  tvalid := n == 1 || n == 20
  tdata := n
  tlast := false
  m_tready := decide (n < 10 ∨ 40 < n)
  write := if n = 5 then some 1 else if n = 25 then some 0 else none

/-- The result of the block waits in the port while the key comes, and is
handed over in cycle 43. -/
theorem a_parked_result_enters_the_new_stream :
    (CipherEngine.plainPort parked).KeyAccepted 20 ∧
      (CipherEngine.plainRun_isRun parked).pipe.Gives 1 43 ∧
      ¬ CleanStreams (CipherEngine.plainPort parked) (CipherEngine.plainRun_isRun parked).pipe := by
  have hkey : (CipherEngine.plainPort parked).KeyAccepted 20 :=
    ⟨by decide +kernel, Or.inl (by decide +kernel)⟩
  have hgives : (CipherEngine.plainRun_isRun parked).pipe.Gives 1 43 := by
    refine ⟨by decide +kernel, 41, ⟨by decide, rfl, ?_⟩, rfl⟩
    intro k h1 h2
    simp only [CipherEngine.IsRun.pipe, parked, decide_eq_false_iff_not]
    omega
  refine ⟨hkey, hgives, ?_⟩
  intro hclean
  obtain ⟨c, hlt, hc, -⟩ := hclean 20 43 hkey (by decide) (by decide +kernel) rfl
  have := BlockPipe.gives_unique _ hgives hc
  omega

end aes_core
