-- The receiving side of the SPI master: the bits of `miso` go through
-- `rx_buffer` into M_AXIS_TDATA, word by word.
import AesMusicPlayer.SpiFrames

open clocked serial

namespace spi_master

variable {p : Params}

/-- All bits of the word on the line are out. -/
def Phase.word_done : Phase p → Bool
  | .ending _ _ | .queued _ _ _ => true
  | _ => false

/-- The words that are in M_AXIS_TDATA and were not on M_AXIS yet. -/
def Master.waiting (s : Master p) : List (BitVec p.WIDTH) :=
  if s.rx_full_0 || s.m_axis_tvalid then [s.m_axis_tdata.setWidth p.WIDTH] else []

/-- The word on M_AXIS. -/
def Master.shown (s : Master p) : Option (BitVec p.WIDTH) :=
  if s.m_axis_tvalid then some (s.m_axis_tdata.setWidth p.WIDTH) else none

/-- The receiving registers, after the samples `S` and the words `D`. -/
structure Receives (s : Master p) (ph : Phase p) (S : List Bool) (D : List (BitVec p.WIDTH)) :
    Prop where
  length : S.length = ph.bits.length
  buffer : bits s.rx_buffer = (List.replicate p.WIDTH false ++ S).drop S.length
  full : s.rx_full_0 = true →
    s.just_stepped ∧ s.rx_full_1 = false ∧ s.m_axis_tvalid = false
  quiet : ph.word_done = true → s.rx_full_0 = false ∧ s.m_axis_tvalid = false
  words : wordBits D ++ wordBits s.waiting = S.take (p.WIDTH * ph.sent.length)

/-! ## One edge -/

section Clock

variable {i : Inputs p} {s s' : Master p} {ph : Phase p} {S : List Bool}
  {D : List (BitVec p.WIDTH)}

/-- What an edge does to `rx_full` and M_AXIS when it completes no word. -/
structure Carries (s s' : Master p) : Prop where
  full_0 : s'.rx_full_0 = false
  tvalid : s'.m_axis_tvalid = (s.rx_full_0 && !s.rx_full_1)
  tdata : s'.m_axis_tdata = s.m_axis_tdata

/-- A waiting word is not lost and not doubled. -/
theorem Carries.words (h : Receives s ph S D) (hc : Carries s s') :
    wordBits (D ++ s.shown.toList) ++ wordBits s'.waiting = wordBits D ++ wordBits s.waiting := by
  unfold Master.waiting Master.shown
  rw [hc.full_0, hc.tvalid, hc.tdata]
  cases h0 : s.rx_full_0 with
  | true =>
    obtain ⟨-, h1, hv⟩ := h.full h0
    simp [h1, hv]
  | false => cases hv : s.m_axis_tvalid <;> simp

theorem take_sample {b : List Bool} (h : p.WIDTH * ph.sent.length ≤ S.length) :
    (S ++ b).take (p.WIDTH * ph.sent.length) = S.take (p.WIDTH * ph.sent.length) :=
  List.take_append_of_le_length h

theorem sent_le_bits (ph : Phase p) : p.WIDTH * ph.sent.length ≤ ph.bits.length := by
  have hpre : wordBits (Phase.words ph.sent) <+: ph.bits := by
    cases ph with
    | idle sent => exact List.prefix_refl _
    | loaded sent w => exact List.prefix_refl _
    | setup sent w c => exact List.prefix_append _ _
    | hold sent w c => exact List.prefix_append _ _
    | ending sent w => exact wordBits_prefix ((List.prefix_append _ _).map Accepted.word)
    | queued sent w w' => exact wordBits_prefix ((List.prefix_append _ _).map Accepted.word)
  have hlen := hpre.length_le
  rw [wordBits_length] at hlen
  simpa [Phase.words] using hlen

/-- An edge that completes no word and takes the sample `b`, or none. -/
theorem Receives.carry {ph' : Phase p} {b : Option Bool} (h : Receives s ph S D)
    (hc : Carries s s') (hlen : ph'.bits.length = ph.bits.length + b.toList.length)
    (hbuf : s'.rx_buffer = b.elim s.rx_buffer (shiftIn s.rx_buffer))
    (hsent : ph'.sent = ph.sent) (hquiet : ph'.word_done = true → s'.m_axis_tvalid = false) :
    Receives s' ph' (S ++ b.toList) (D ++ s.shown.toList) := by
  refine ⟨?_, ?_, ?_, fun hd => ⟨hc.full_0, hquiet hd⟩, ?_⟩
  · rw [List.length_append, hlen, h.length]
  · rw [hbuf]
    cases b with
    | none => simpa using h.buffer
    | some b => exact bits_shiftIn_drop b p.width_pos List.length_replicate h.buffer
  · intro h0
    rw [hc.full_0] at h0
    cases h0
  · rw [hc.words h, h.words, hsent, take_sample]
    rw [h.length]
    exact sent_le_bits ph

/-- The part select of M_AXIS_TDATA is the receive buffer. -/
theorem put_rx_low (s : Master p) : s.put_rx.setWidth p.WIDTH = s.rx_buffer := by
  apply BitVec.eq_of_getLsbD_eq
  intro k hk
  have hfit := p.m_axis_fits
  have hkC : k < p.C_M_AXIS_TDATA_WIDTH := by omega
  unfold Master.put_rx
  simp [hk, hkC]

/-- The edge that completes a word moves it into M_AXIS_TDATA. -/
theorem Receives.complete {ph' : Phase p} (h : Receives s ph S D) (hdone : ph.word_done = true)
    (hfull : s'.rx_full_0 = true) (hfull1 : s'.rx_full_1 = s.rx_full_0)
    (hvalid : s'.m_axis_tvalid = (s.rx_full_0 && !s.rx_full_1))
    (hdata : s'.m_axis_tdata = s.put_rx) (hbuf : s'.rx_buffer = s.rx_buffer)
    (hjust : s'.just_stepped) (hbits : ph'.bits.length = ph.bits.length)
    (hsent : ph'.sent.length = ph.sent.length + 1)
    (hall : ph.bits.length = p.WIDTH * (ph.sent.length + 1)) (hdone' : ph'.word_done = false) :
    Receives s' ph' S (D ++ s.shown.toList) := by
  obtain ⟨hq0, hqv⟩ := h.quiet hdone
  have hshown : s.shown = none := by
    unfold Master.shown
    rw [hqv]
    rfl
  have hwait : s.waiting = [] := by
    unfold Master.waiting
    rw [hq0, hqv]
    rfl
  have hwait' : s'.waiting = [s.rx_buffer] := by
    unfold Master.waiting
    rw [hfull, hdata, put_rx_low]
    rfl
  have hlen : S.length = p.WIDTH * ph.sent.length + p.WIDTH := by
    rw [h.length, hall, Nat.mul_add, Nat.mul_one]
  refine ⟨?_, ?_, fun _ => ⟨hjust, ?_, ?_⟩, ?_, ?_⟩
  · rw [h.length, hbits]
  · rw [hbuf, h.buffer]
  · rw [hfull1, hq0]
  · rw [hvalid, hq0, Bool.false_and]
  · intro hd
    rw [hdone'] at hd
    cases hd
  · have hwords := h.words
    rw [hwait, wordBits_nil, List.append_nil] at hwords
    -- the last WIDTH samples are behind the words that were complete before
    rw [hshown, Option.toList_none, List.append_nil, hwait', hwords, wordBits_singleton,
      bits_eq_drop List.length_replicate hlen h.buffer, hsent, Nat.mul_add, Nat.mul_one, ← hlen,
      List.take_length, List.take_append_drop]

/-- An edge without a step of the state machine. -/
theorem receives_of_not_steps (hr : i.aresetn = true) (hst : s.steps = false)
    (h : Receives s ph S D) :
    Receives (s.clock i) (ph.next false (s.accepted_word i)) S (D ++ s.shown.toList) := by
  have hclock := Master.clock_of_not_steps hr hst
  have hcarry : Carries s (s.clock i) := by
    rw [hclock]
    exact ⟨rfl, rfl, Master.shift_tdata i s⟩
  have hbuf : (s.clock i).rx_buffer = s.rx_buffer := by
    rw [hclock]
    exact Master.shift_rx_buffer i s
  have hsame : (ph.next false (s.accepted_word i)).bits = ph.bits ∧
      (ph.next false (s.accepted_word i)).sent = ph.sent ∧
      ((ph.next false (s.accepted_word i)).word_done = true → ph.word_done = true) := by
    cases ph with
    | idle sent => cases s.accepted_word i <;> exact ⟨rfl, rfl, id⟩
    | ending sent w => cases s.accepted_word i <;> exact ⟨rfl, rfl, id⟩
    | _ => exact ⟨rfl, rfl, id⟩
  have hnext := h.carry (b := none) hcarry (by rw [hsame.1]; rfl) hbuf hsame.2.1 (fun hd => by
    rw [hcarry.tvalid, (h.quiet (hsame.2.2 hd)).1, Bool.false_and])
  rwa [Option.toList_none, List.append_nil] at hnext

/-- A step of the state machine that completes no word. -/
theorem receives_of_steps (hst : s.steps = true) (h : Receives s ph S D) {ph' : Phase p}
    {b : Option Bool} (hcarry : Carries s s')
    (hlen : ph'.bits.length = ph.bits.length + b.toList.length)
    (hbuf : s'.rx_buffer = b.elim s.rx_buffer (shiftIn s.rx_buffer)) (hsent : ph'.sent = ph.sent) :
    Receives s' ph' (S ++ b.toList) (D ++ s.shown.toList) := by
  apply h.carry hcarry hlen hbuf hsent
  intro _
  have h0 : s.rx_full_0 = false := by
    by_contra hne
    rw [Master.not_steps_of_just_stepped (h.full (by simpa using hne)).1] at hst
    cases hst
  rw [hcarry.tvalid, h0, Bool.false_and]

/-- The receiving registers after one edge. -/
theorem receives_clock (hr : i.aresetn = true) (hshows : Shows s ph) (h : Receives s ph S D) :
    Receives (s.clock i) (ph.next s.steps (s.accepted_word i))
      (S ++ ((ph.out s.steps).map fun _ => i.miso).toList) (D ++ s.shown.toList) := by
  cases hst : s.steps with
  | false =>
    have hout : ph.out false = none := by cases ph <;> rfl
    rw [hout, Option.map_none, Option.toList_none, List.append_nil]
    exact receives_of_not_steps hr hst h
  | true =>
    have hlen := congrArg List.length (Phase.bits_next hshows.holds true (s.accepted_word i))
    rw [List.length_append] at hlen
    have hclock := Master.clock_of_steps hr hst
    have hjust := Master.just_stepped_clock hr hst
    have htdata := Master.shift_tdata i s
    have hrx := Master.shift_rx_buffer i s
    cases ph with
    | idle sent =>
      rw [Master.fsm_S0_idle hshows.1 hshows.2.1] at hclock
      rw [hclock]
      refine receives_of_steps hst h ⟨rfl, rfl, htdata⟩ hlen hrx ?_
      cases s.accepted_word i <;> rfl
    | loaded sent w =>
      rw [Master.fsm_S0_loaded hshows.1 hshows.2.1] at hclock
      rw [hclock]
      exact receives_of_steps hst h ⟨rfl, rfl, htdata⟩ hlen hrx rfl
    | setup sent w c =>
      obtain ⟨hs, -, -, -, hc, -⟩ := hshows
      have hsent : (Phase.next true (s.accepted_word i) (.setup sent w c)).sent = sent := by
        simp only [Phase.next, if_true]
        split_ifs <;> rfl
      by_cases hcW : c = p.WIDTH
      · rw [Master.fsm_S1_end hs (hc.trans hcW)] at hclock
        rw [hclock]
        exact receives_of_steps hst h ⟨rfl, rfl, htdata⟩ hlen rfl hsent
      · rw [Master.fsm_S1 hs (by rw [hc]; exact hcW)] at hclock
        rw [hclock]
        exact receives_of_steps hst h ⟨rfl, rfl, htdata⟩ hlen rfl hsent
    | hold sent w c =>
      obtain ⟨hs, -, -, hW, hc, -⟩ := hshows
      rw [Master.fsm_S2 hs (by omega)] at hclock
      rw [hclock]
      exact receives_of_steps hst h ⟨rfl, rfl, htdata⟩ hlen hrx rfl
    | ending sent w =>
      obtain ⟨hs, hready, hc, -, -⟩ := hshows
      rw [Master.fsm_S2_end hs hc (Or.inl hready)] at hclock
      rw [hclock] at hjust ⊢
      rw [show (Phase.ending sent w).out true = none from rfl, Option.map_none,
        Option.toList_none, List.append_nil]
      refine h.complete rfl rfl rfl rfl rfl hrx hjust hlen ?_ ?_ ?_
      · cases s.accepted_word i <;> simp [Phase.next, Phase.sent]
      · simp [Phase.bits, Phase.sent, Phase.words, Nat.mul_add]
      · cases s.accepted_word i <;> rfl
    | queued sent w w' =>
      obtain ⟨hs, hready, hc, hlast, -, -⟩ := hshows
      rw [show (Phase.queued sent w w').out true = none from rfl, Option.map_none,
        Option.toList_none, List.append_nil]
      cases hw : w.last with
      | true =>
        rw [Master.fsm_S2_end hs hc (Or.inr (hlast.trans hw))] at hclock
        rw [hclock] at hjust ⊢
        refine h.complete rfl rfl rfl rfl rfl hrx hjust hlen ?_ ?_ ?_
        · simp [Phase.next, Phase.sent, hw]
        · simp [Phase.bits, Phase.sent, Phase.words, Nat.mul_add]
        · simp [Phase.next, Phase.word_done, hw]
      | false =>
        rw [Master.fsm_S2_next hs hc hready (hlast.trans hw)] at hclock
        rw [hclock] at hjust ⊢
        refine h.complete rfl rfl rfl rfl rfl hrx hjust hlen ?_ ?_ ?_
        · simp [Phase.next, Phase.sent, hw]
        · simp [Phase.bits, Phase.sent, Phase.words, Nat.mul_add]
        · simp [Phase.next, Phase.word_done, hw]

end Clock

/-! ## The runs -/

theorem Phase.not_done_of_step {ph : Phase p} (h : ph.word_done = true)
    (a : Option (Accepted p)) : (ph.next true a).word_done = false := by
  cases ph with
  | ending sent w => cases a <;> rfl
  | queued sent w w' => cases hw : w.last <;> simp [Phase.next, Phase.word_done, hw]
  | _ => cases h

/-- While bits of the word on the line are missing, the complete words are those before it. -/
theorem Shows.bits_div {s : Master p} {ph : Phase p} (h : Shows s ph)
    (hdone : ph.word_done = false) : ph.bits.length / p.WIDTH = ph.sent.length := by
  have hW := p.width_pos
  have hpart : ∀ k, k < p.WIDTH → (p.WIDTH * ph.sent.length + k) / p.WIDTH = ph.sent.length := by
    intro k hk
    rw [Nat.mul_add_div (by omega), Nat.div_eq_of_lt hk, Nat.add_zero]
  cases ph with
  | idle sent => simpa [Phase.bits, Phase.sent, Phase.words] using hpart 0 (by omega)
  | loaded sent w => simpa [Phase.bits, Phase.sent, Phase.words] using hpart 0 (by omega)
  | setup sent w c =>
    obtain ⟨-, -, h1, hc, -⟩ := h
    have hk := hpart (c - 1) (by omega)
    rw [← Nat.min_eq_left (show c - 1 ≤ p.WIDTH by omega)] at hk
    simpa [Phase.bits, Phase.sent, Phase.words] using hk
  | hold sent w c =>
    obtain ⟨-, -, h1, hc, -⟩ := h
    have hk := hpart c hc
    rw [← Nat.min_eq_left (show c ≤ p.WIDTH by omega)] at hk
    simpa [Phase.bits, Phase.sent, Phase.words] using hk
  | ending sent w => cases hdone
  | queued sent w w' => cases hdone

namespace IsRun

variable {ins : ℕ → Inputs p} {s : ℕ → Master p}

theorem miso_at_eq (h : IsRun ins s) (n : ℕ) :
    miso_at ins s n = ((phase ins s n).out (s n).steps).map fun _ => (ins n).miso := by
  rw [← h.fromIdle.mosi_at_eq]
  unfold miso_at mosi_at
  split_ifs <;> rfl

theorem receives (h : IsRun ins s) (n : ℕ) :
    Receives (s n) (phase ins s n) (miso_bits ins s n) (delivered s n) := by
  induction n with
  | zero =>
    rw [h.start]
    refine ⟨rfl, ?_, ?_, fun _ => ⟨rfl, rfl⟩, ?_⟩
    · apply List.ext_getElem
      · simp [miso_bits]
      · intro k h1 h2
        rw [bits_getElem]
        simp [miso_bits, Master.initial]
    · intro hf
      cases hf
    · rfl
  | succ n ih =>
    have hnext := receives_clock (i := ins n) (h.no_reset n) (h.shows n) ih
    rw [← h.miso_at_eq, ← h.step] at hnext
    exact hnext

/-- A waiting word is on M_AXIS at most one cycle later. -/
theorem deliver_waiting (h : IsRun ins s) (n : ℕ) :
    ∃ m, wordBits (delivered s m) = wordBits (delivered s n) ++ wordBits (s n).waiting := by
  have hnow := h.receives n
  have hone : ∀ k, delivered s (k + 1) = delivered s k ++ (s k).shown.toList := fun _ => rfl
  cases hf : (s n).rx_full_0 with
  | false =>
    refine ⟨n + 1, ?_⟩
    rw [hone, wordBits_append]
    unfold Master.shown Master.waiting
    rw [hf]
    cases (s n).m_axis_tvalid <;> rfl
  | true =>
    obtain ⟨hjust, hf1, hv⟩ := hnow.full hf
    have hclock := Master.clock_of_not_steps (h.no_reset n)
      (Master.not_steps_of_just_stepped hjust)
    rw [← h.step] at hclock
    have hshown : (s n).shown = none := by
      unfold Master.shown
      rw [hv]
      rfl
    have hshown' : (s (n + 1)).shown = some ((s n).m_axis_tdata.setWidth p.WIDTH) := by
      unfold Master.shown
      rw [hclock, show ((s n).shift (ins n)).m_axis_tvalid = ((s n).rx_full_0 && !(s n).rx_full_1)
        from rfl, hf, hf1, Master.shift_tdata]
      rfl
    refine ⟨n + 1 + 1, ?_⟩
    rw [hone, hone, hshown, hshown']
    unfold Master.waiting
    rw [hf]
    simp

/-- The last bit of a word does not wait for the word. -/
theorem exists_not_done (h : IsRun ins s) (n : ℕ) :
    ∃ m, n ≤ m ∧ (phase ins s m).word_done = false := by
  obtain ⟨m, hle, hst, -⟩ := h.fromIdle.exists_steps n
  cases hdone : (phase ins s m).word_done with
  | false => exact ⟨m, hle, hdone⟩
  | true =>
    refine ⟨m + 1, by omega, ?_⟩
    rw [phase, show (s m).steps = true from hst]
    exact Phase.not_done_of_step hdone _

/-- What comes on M_AXIS: nothing but the words of the samples, and all that are complete. -/
theorem miso_law (h : IsRun ins s) (n : ℕ) :
    wordBits (delivered s n) <+: miso_bits ins s n ∧
      ∃ m, (miso_bits ins s n).take (p.WIDTH * ((miso_bits ins s n).length / p.WIDTH)) <+:
        wordBits (delivered s m) := by
  refine ⟨?_, ?_⟩
  · have hwords := (h.receives n).words
    exact (List.prefix_append _ _).trans (hwords ▸ List.take_prefix _ _)
  · obtain ⟨k, hle, hdone⟩ := h.exists_not_done n
    obtain ⟨m, hm⟩ := h.deliver_waiting k
    have hk := h.receives k
    have hpre : miso_bits ins s n <+: miso_bits ins s k := events_mono _ hle
    have hdiv : (miso_bits ins s k).length / p.WIDTH = (phase ins s k).sent.length := by
      rw [hk.length]
      exact (h.shows k).bits_div hdone
    refine ⟨m, ?_⟩
    rw [hm, hk.words, List.prefix_take_iff, ← hdiv]
    refine ⟨(List.take_prefix _ _).trans hpre, ?_⟩
    rw [List.length_take]
    have hmono := Nat.div_le_div_right (c := p.WIDTH) hpre.length_le
    exact Nat.le_trans (Nat.min_le_left _ _) (Nat.mul_le_mul_left _ hmono)

end IsRun

/-! ## The exchange -/

/-- What the two sides of the line see. The receiver of M_AXIS is always ready, as the
master does not read M_AXIS_TREADY. -/
structure Exchanges (ins : ℕ → Inputs p) (s : ℕ → Master p) : Prop where
  mosi : ∀ n, mosi_bits s n <+: wordBits (Phase.words (accepted ins s n)) ∧
    ∃ m, wordBits (Phase.words (accepted ins s n)) <+: mosi_bits s m
  ss_low : ∀ n, rises s n = true → (s n).ss = false ∧ (s (n + 1)).ss = false
  ss_in_packet : ∀ n m k, rises s n = true → rises s m = true →
    packets ins s n = packets ins s m → n ≤ k → k ≤ m → (s k).ss = false
  ss_between : ∀ n m, rises s n = true → rises s m = true → n < m →
    packets ins s n ≠ packets ins s m → ∃ k, n < k ∧ k < m ∧ (s k).ss = true
  miso : ∀ n, wordBits (delivered s n) <+: miso_bits ins s n ∧
    ∃ m, (miso_bits ins s n).take (p.WIDTH * ((miso_bits ins s n).length / p.WIDTH)) <+:
      wordBits (delivered s m)

theorem packets_are_exchanged {ins : ℕ → Inputs p} {s : ℕ → Master p} (h : IsRun ins s) :
    Exchanges ins s where
  mosi := h.fromIdle.mosi_law
  ss_low := fun _ hr => h.ss_low_of_rises hr
  ss_in_packet := fun _ _ _ hn hm heq hnk hkm => h.ss_stays_low hn hm heq hnk hkm
  ss_between := fun _ _ hn hm hlt hne => h.ss_goes_high hn hm hlt hne
  miso := h.miso_law

section Example

/-- The parameters of the example, with words of two bits. -/
def two_bits : Params := ⟨2, 1, 8, 8, by omega, by omega, by omega, by omega⟩

/-- The word 01, and then words 10 with the flag of a last one. -/
def pair (n : ℕ) : Inputs two_bits :=
  ⟨true, decide (n % 12 = 3), true, if n = 0 then 0xfd else 0xfe, decide (0 < n)⟩

def pair_run : ℕ → Master two_bits := run Master.clock (Master.initial two_bits) pair

theorem pair_isRun : IsRun pair pair_run :=
  ⟨rfl, fun _ => rfl, fun _ => rfl, fun _ _ => rfl⟩

/-- The first packet has two words. -/
theorem two_words_are_exchanged :
    mosi_bits pair_run 20 = [false, true, true, false] ∧
      miso_bits pair pair_run 20 = [true, false, false, true] ∧ delivered pair_run 21 = [2, 1] ∧
      packets pair pair_run 20 = 1 ∧ Exchanges pair pair_run :=
  ⟨by decide +kernel, by decide +kernel, by decide +kernel, by decide +kernel,
    packets_are_exchanged pair_isRun⟩

end Example

end spi_master
