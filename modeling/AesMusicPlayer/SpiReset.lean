-- A reset of the SPI master. It clears M_AXIS and the state machine, and leaves
-- the ready flag, the buffers and `rx_full` as they are. What comes after it is
-- new when no word waits in `tx_buffer` and `rx_full` marks no word.
import AesMusicPlayer.MasterPorts
import AesMusicPlayer.SpiReceive

open clocked serial

namespace spi_master

variable {p : Params}

/-! ## What is new -/

/-- No reset comes in the first `n` cycles. -/
def Quiet (ins : ℕ → Inputs p) (n : ℕ) : Prop := ∀ m, m < n → (ins m).aresetn = true

/-- Until the next reset, the line and M_AXIS carry nothing but the words that are accepted
from cycle 0 on: the bits on `mosi` are bits of these words, the slave is not selected
before the first of them, and the words on M_AXIS are bits that came back for them. -/
structure OnlyNew (ins : ℕ → Inputs p) (s : ℕ → Master p) : Prop where
  mosi : ∀ n, Quiet ins n → mosi_bits s n <+: wordBits (Phase.words (accepted ins s n))
  ss : ∀ n, Quiet ins n → (s n).ss = false → accepted ins s n ≠ []
  miso : ∀ n, Quiet ins n → wordBits (delivered s n) <+: miso_bits ins s n

/-! ## The reset -/

/-- The registers after an edge with ARESETN low. -/
def Master.reset (s : Master p) : Master p :=
  { s with m_axis_tvalid := false, m_axis_tdata := 0, state := .S0 }

theorem Master.clock_reset (i : Inputs p) (s : Master p) :
    s.clock { i with aresetn := false } = s.reset := rfl

/-- ARESETN is low for `k` edges. -/
def resets (i : ℕ → Inputs p) (s₀ : Master p) (k : ℕ) : Master p :=
  run Master.clock s₀ (fun n => { i n with aresetn := false }) k

/-- More edges in the reset change nothing. -/
theorem resets_succ (i : ℕ → Inputs p) (s₀ : Master p) (k : ℕ) :
    resets i s₀ (k + 1) = s₀.reset := by
  induction k with
  | zero => rfl
  | succ k ih =>
    have hstep : resets i s₀ (k + 1 + 1) = (resets i s₀ (k + 1)).reset :=
      Master.clock_reset (i (k + 1)) _
    rw [hstep, ih]
    rfl

/-! ## The receive buffer -/

section Samples

variable {i : Inputs p} {s : Master p}

/-- The step that raises `sclk`, and no other edge, takes a bit of `miso`. -/
theorem Master.sample_clock (hr : i.aresetn = true) :
    (s.clock i).rx_buffer =
        (if s.steps && s.state == .S1 then shiftIn s.rx_buffer i.miso else s.rx_buffer) ∧
      (!s.sclk && (s.clock i).sclk) = (s.steps && s.state == .S1) := by
  have hrx := shift_rx_buffer i s
  have hstate : (s.shift i).state = s.state := by
    unfold shift
    cases s.accepts i <;> rfl
  unfold sclk
  cases hst : s.steps with
  | false =>
    rw [clock_of_not_steps hr hst, hrx, hstate]
    cases s.state <;> exact ⟨rfl, rfl⟩
  | true =>
    rw [clock_of_steps hr hst]
    cases hs : s.state with
    | S0 =>
      cases hready : s.spi_ready with
      | true =>
        rw [fsm_S0_idle hs hready]
        exact ⟨hrx, congrArg (· == Fsm.S2) (hstate.trans hs)⟩
      | false =>
        rw [fsm_S0_loaded hs hready]
        exact ⟨hrx, rfl⟩
    | S1 =>
      by_cases hc : s.counter.toNat = p.WIDTH
      · rw [fsm_S1_end hs hc]
        exact ⟨rfl, rfl⟩
      · rw [fsm_S1 hs hc]
        exact ⟨rfl, rfl⟩
    | S2 =>
      refine ⟨?_, rfl⟩
      unfold fsm
      rw [hs]
      simp only
      split_ifs <;> first | exact hrx | contradiction

end Samples

namespace Released

variable {ins : ℕ → Inputs p} {s : ℕ → Master p}

/-- The samples have been shifted into `rx_buffer`. -/
theorem rx_buffer_eq (h : Released ins s) (n : ℕ) :
    bits (s n).rx_buffer =
      (bits (s 0).rx_buffer ++ miso_bits ins s n).drop (miso_bits ins s n).length := by
  induction n with
  | zero => exact (List.append_nil _).symm
  | succ n ih =>
    obtain ⟨hrx, hrises⟩ := Master.sample_clock (s := s n) (h.no_reset n)
    have hnext : miso_bits ins s (n + 1) = miso_bits ins s n ++ (miso_at ins s n).toList := rfl
    rw [hnext]
    unfold miso_at rises
    rw [h.step, hrx, hrises]
    cases hsample : (s n).steps && (s n).state == .S1 with
    | false =>
      rw [if_neg Bool.false_ne_true, if_neg Bool.false_ne_true, Option.toList_none,
        List.append_nil]
      exact ih
    | true =>
      rw [if_pos rfl, if_pos rfl, Option.toList_some]
      exact bits_shiftIn_drop _ p.width_pos (bits_length _) ih

end Released

/-- There is one sample for each bit. -/
theorem miso_bits_length (ins : ℕ → Inputs p) (s : ℕ → Master p) (n : ℕ) :
    (miso_bits ins s n).length = (mosi_bits s n).length := by
  induction n with
  | zero => rfl
  | succ n ih =>
    unfold miso_bits mosi_bits at ih ⊢
    rw [events_succ, events_succ, List.length_append, List.length_append, ih]
    unfold miso_at mosi_at
    split_ifs <;> rfl

/-! ## The words that are complete -/

/-- The words that the state machine has completed before a cycle. -/
def completed (s : ℕ → Master p) : ℕ → List (BitVec p.WIDTH) :=
  events fun n => if (s n).completes then some (s n).rx_buffer else none

theorem Phase.sent_next (ph : Phase p) (t : Bool) (a : Option (Accepted p)) :
    (ph.next t a).sent.length = ph.sent.length + if t && ph.word_done then 1 else 0 := by
  cases ph with
  | idle ws => cases a <;> cases t <;> rfl
  | loaded ws w => cases t <;> rfl
  | setup ws w c =>
    cases t with
    | false => rfl
    | true => by_cases hc : c = p.WIDTH <;> simp [next, sent, word_done, hc]
  | hold ws w c => cases t <;> rfl
  | ending ws w => cases a <;> cases t <;> simp [next, sent, word_done]
  | queued ws w w' =>
    cases t with
    | false => rfl
    | true => cases hw : w.last <;> simp [next, sent, word_done, hw]

theorem Phase.bits_of_done {ph : Phase p} (h : ph.word_done = true) :
    ph.bits.length = p.WIDTH * ph.sent.length + p.WIDTH := by
  cases ph with
  | ending ws w => simp [bits, sent, words]
  | queued ws w w' => simp [bits, sent, words]
  | _ => cases h

theorem Holds.completes_eq {s : Master p} {ph : Phase p} (h : Holds s ph) :
    s.completes = (s.steps && ph.word_done) := by
  unfold Master.completes
  congr 1
  cases ph with
  | idle sent => rw [h.1]; rfl
  | loaded sent w => rw [h.1]; rfl
  | setup sent w c => rw [h.1]; rfl
  | hold sent w c =>
    obtain ⟨hs, -, -, hW, hc, -⟩ := h
    rw [hs, hc]
    simp [Phase.word_done]
    omega
  | ending sent w =>
    obtain ⟨hs, -, hc, -⟩ := h
    rw [hs, hc]
    simp [Phase.word_done]
  | queued sent w w' =>
    obtain ⟨hs, -, hc, -⟩ := h
    rw [hs, hc]
    simp [Phase.word_done]

namespace FromIdle

variable {ins : ℕ → Inputs p} {s : ℕ → Master p}

theorem miso_length (h : FromIdle ins s) (n : ℕ) :
    (miso_bits ins s n).length = (phase ins s n).bits.length := by
  rw [miso_bits_length, h.mosi_bits_eq]

/-- The complete words are the samples, `WIDTH` at a time. -/
theorem completed_eq (h : FromIdle ins s) (n : ℕ) :
    wordBits (completed s n) =
      (miso_bits ins s n).take (p.WIDTH * (phase ins s n).sent.length) := by
  induction n with
  | zero => rfl
  | succ n ih =>
    have hpre : miso_bits ins s n <+: miso_bits ins s (n + 1) := events_mono _ (Nat.le_succ n)
    obtain ⟨S, hS⟩ := hpre
    have hlen := h.miso_length n
    have hle := sent_le_bits (phase ins s n)
    have hnext : completed s (n + 1) = completed s n ++
        (if (s n).completes then some (s n).rx_buffer else none).toList := rfl
    rw [hnext, wordBits_append, ih, phase, Phase.sent_next, (h.holds n).completes_eq, ← hS]
    cases hdone : (s n).steps && (phase ins s n).word_done with
    | false =>
      rw [if_neg Bool.false_ne_true, if_neg Bool.false_ne_true, Option.toList_none, wordBits_nil,
        List.append_nil, Nat.add_zero, List.take_append_of_le_length (by omega)]
    | true =>
      -- the last WIDTH samples are the word
      rw [Bool.and_eq_true] at hdone
      have hall := Phase.bits_of_done hdone.2
      rw [← hlen] at hall
      rw [if_pos rfl, if_pos rfl, Option.toList_some, wordBits_singleton,
        bits_eq_drop (bits_length _) hall (h.rx_buffer_eq n), List.take_append_drop, Nat.mul_add,
        Nat.mul_one, ← hall, List.take_left']
      rfl

end FromIdle

/-! ## After a reset -/

/-- The same inputs without a reset. -/
def up (ins : ℕ → Inputs p) (n : ℕ) : Inputs p := { ins n with aresetn := true }

section After

variable {i₀ : Inputs p} {s₀ : Master p} {ins : ℕ → Inputs p}

theorem cycles_released (i₀ : Inputs p) (s₀ : Master p) (ins : ℕ → Inputs p) :
    Released (up ins) (cycles i₀ s₀ ins) := ⟨fun _ => rfl, fun _ => rfl⟩

theorem cycles_fromIdle (hready : s₀.spi_ready = true) :
    FromIdle (up ins) (cycles i₀ s₀ ins) := ⟨cycles_released i₀ s₀ ins, rfl, hready⟩

/-- The completed words are on M_AXIS two cycles later. -/
theorem delivered_cycles (hstale : s₀.stale = false) (n : ℕ) :
    delivered (cycles i₀ s₀ ins) (n + 2) = completed (cycles i₀ s₀ ins) n := by
  have hat : ∀ k, delivered_at (cycles i₀ s₀ ins) k =
      ((source (cycles i₀ s₀ ins) fun _ => true).shown_at k).map fun b => b.1.setWidth p.WIDTH := by
    intro k
    unfold delivered_at stream.Source.shown_at source
    split_ifs <;> rfl
  apply events_delay
  · intro k hk
    have hlow : (cycles i₀ s₀ ins k).m_axis_tvalid = false := by
      rcases (by omega : k = 0 ∨ k = 1) with rfl | rfl
      · rfl
      · exact (tvalid_one i₀ s₀ ins).trans hstale
    unfold delivered_at
    rw [hlow]
    rfl
  · intro k
    rw [hat, shown_add_two]
    unfold results
    cases (cycles i₀ s₀ ins k).completes with
    | false => rfl
    | true =>
      simp only [if_true, Option.map_some]
      rw [BitVec.setWidth_setWidth_of_le _ p.m_axis_fits, BitVec.setWidth_eq]

theorem new_miso (hready : s₀.spi_ready = true) (hstale : s₀.stale = false) (n : ℕ) :
    wordBits (delivered (cycles i₀ s₀ ins) n) <+: miso_bits (up ins) (cycles i₀ s₀ ins) n := by
  have hidle : FromIdle (up ins) (cycles i₀ s₀ ins) := cycles_fromIdle hready
  have hlate : ∀ k, wordBits (delivered (cycles i₀ s₀ ins) (k + 2)) <+:
      miso_bits (up ins) (cycles i₀ s₀ ins) k := by
    intro k
    rw [delivered_cycles hstale, hidle.completed_eq]
    exact List.take_prefix _ _
  rcases Nat.lt_or_ge n 2 with hlt | hge
  · have hfirst : wordBits (delivered (cycles i₀ s₀ ins) n) <+:
        wordBits (delivered (cycles i₀ s₀ ins) (0 + 2)) :=
      wordBits_prefix (events_mono _ (by omega))
    exact (hfirst.trans (hlate 0)).trans (events_mono _ (Nat.zero_le n))
  · obtain ⟨k, rfl⟩ := Nat.exists_eq_add_of_le' hge
    exact (hlate k).trans (events_mono _ (Nat.le_add_right k 2))

theorem Phase.accepted_ne_nil {ph : Phase p} (h : ph.fsm ≠ .S0) : ph.accepted ≠ [] := by
  cases ph with
  | idle sent => exact absurd rfl h
  | loaded sent w => exact absurd rfl h
  | _ => simp [accepted]

theorem new_ss {s : ℕ → Master p} (h : FromIdle ins s) {n : ℕ} (hss : (s n).ss = false) :
    accepted ins s n ≠ [] := by
  rw [h.accepted_eq]
  apply Phase.accepted_ne_nil
  rw [← (h.holds n).state]
  simpa [Master.ss] using hss

/-- What is seen before cycle `n` is a matter of the registers up to there. -/
theorem seen_congr (ins : ℕ → Inputs p) {s s' : ℕ → Master p} {n : ℕ} (h : ∀ m, m ≤ n → s m = s' m) :
    mosi_bits s n = mosi_bits s' n ∧ miso_bits ins s n = miso_bits ins s' n ∧
      accepted ins s n = accepted ins s' n ∧ delivered s n = delivered s' n := by
  refine ⟨events_congr fun k hk => ?_, events_congr fun k hk => ?_, events_congr fun k hk => ?_,
    events_congr fun k hk => ?_⟩
  · unfold mosi_at rises
    rw [h k (by omega), h (k + 1) (by omega)]
  · unfold miso_at rises
    rw [h k (by omega), h (k + 1) (by omega)]
  · rw [h k (by omega)]
  · unfold delivered_at
    rw [h k (by omega)]

theorem run_eq_cycles (i₀ : Inputs p) (s₀ : Master p) {n : ℕ} (hquiet : Quiet ins n) {m : ℕ}
    (hm : m ≤ n) :
    run Master.clock s₀.reset ins m = cycles i₀ s₀ ins m := by
  induction m with
  | zero => rfl
  | succ m ih =>
    have hup : up ins m = ins m := by
      unfold up
      rw [← hquiet m (by omega)]
    rw [cycles_succ, ← ih (by omega)]
    unfold up at hup
    rw [hup]
    rfl

/-- Until the next reset the run looks like the one without a reset. -/
theorem seen_cycles (i₀ : Inputs p) (s₀ : Master p) {n : ℕ} (hquiet : Quiet ins n) :
    mosi_bits (run Master.clock s₀.reset ins) n = mosi_bits (cycles i₀ s₀ ins) n ∧
      miso_bits ins (run Master.clock s₀.reset ins) n = miso_bits ins (cycles i₀ s₀ ins) n ∧
      accepted ins (run Master.clock s₀.reset ins) n = accepted ins (cycles i₀ s₀ ins) n ∧
      delivered (run Master.clock s₀.reset ins) n = delivered (cycles i₀ s₀ ins) n :=
  seen_congr ins fun _ hm => run_eq_cycles i₀ s₀ hquiet hm

/-- A reset with no word left behind. -/
theorem new_after_reset (hready : s₀.spi_ready = true) (hstale : s₀.stale = false)
    (ins : ℕ → Inputs p) : OnlyNew ins (run Master.clock s₀.reset ins) := by
  have hidle : FromIdle (up ins) (cycles (ins 0) s₀ ins) := cycles_fromIdle hready
  constructor
  case mosi =>
    intro n hquiet
    obtain ⟨hmosi, -, hacc, -⟩ := seen_cycles (ins 0) s₀ hquiet
    rw [hmosi, hacc]
    exact hidle.mosi_prefix n
  case ss =>
    intro n hquiet hss
    obtain ⟨-, -, hacc, -⟩ := seen_cycles (ins 0) s₀ hquiet
    rw [run_eq_cycles (ins 0) s₀ hquiet (Nat.le_refl n)] at hss
    rw [hacc]
    exact new_ss hidle hss
  case miso =>
    intro n hquiet
    obtain ⟨-, hmiso, -, hdel⟩ := seen_cycles (ins 0) s₀ hquiet
    rw [hmiso, hdel]
    exact new_miso hready hstale n

/-! ## What a reset leaves behind -/

theorem accepted_of_not_ready {s : ℕ → Master p} {n : ℕ} (h : (s n).spi_ready = false) :
    accepted ins s (n + 1) = accepted ins s n := by
  have hnext : accepted ins s (n + 1) =
      accepted ins s n ++ ((s n).accepted_word (ins n)).toList := rfl
  rw [hnext]
  unfold Master.accepted_word
  rw [Master.not_accepts_of_not_ready h]
  exact List.append_nil _

/-- A word that waits in `tx_buffer` selects the slave, whatever the inputs are. -/
theorem selects_for_old_word {s : ℕ → Master p} (h : Released ins s) (hs : (s 0).state = .S0)
    (hready : (s 0).spi_ready = false) : ∃ n, (s n).ss = false ∧ accepted ins s n = [] := by
  obtain ⟨m, -, hst, hlow⟩ := h.exists_steps 0
  have hwait : ∀ k, k ≤ m →
      (s k).state = .S0 ∧ (s k).spi_ready = false ∧ accepted ins s k = [] := by
    intro k hk
    induction k with
    | zero => exact ⟨hs, hready, rfl⟩
    | succ k ih =>
      obtain ⟨hs', hready', hacc⟩ := ih (by omega)
      have ha := Master.not_accepts_of_not_ready (i := ins k) hready'
      rw [accepted_of_not_ready hready', h.step,
        Master.clock_of_not_steps (h.no_reset k) (hlow k (Nat.zero_le k) hk),
        Master.shift_of_not_accepts ha]
      exact ⟨hs', hready', hacc⟩
  obtain ⟨hs', hready', hacc⟩ := hwait m (Nat.le_refl m)
  refine ⟨m + 1, ?_, ?_⟩
  · rw [h.step, Master.clock_of_steps (h.no_reset m) hst, Master.fsm_S0_loaded hs' hready']
    rfl
  · rw [accepted_of_not_ready hready', hacc]

/-- A sender with no word. -/
def silent (p : Params) : ℕ → Inputs p := fun _ => ⟨true, false, false, 0, false⟩

theorem accepted_silent (s : ℕ → Master p) (n : ℕ) : accepted (silent p) s n = [] :=
  events_eq_nil fun _ _ => rfl

/-- A mark in `rx_full` brings a word to M_AXIS for which nothing came back. -/
theorem delivers_old_word (i₀ : Inputs p) (hready : s₀.spi_ready = true) (hstale : s₀.stale = true) :
    ¬ wordBits (delivered (cycles i₀ s₀ (silent p)) 2) <+:
      miso_bits (silent p) (cycles i₀ s₀ (silent p)) 2 := by
  intro hpre
  have hidle : FromIdle (silent p) (cycles i₀ s₀ (silent p)) :=
    show FromIdle (up (silent p)) _ from cycles_fromIdle hready
  have hmosi := (hidle.mosi_prefix 2).length_le
  rw [accepted_silent, Phase.words, List.map_nil, wordBits_length, ← miso_bits_length (silent p)]
    at hmosi
  have hlen := hpre.length_le
  have hshown : delivered (cycles i₀ s₀ (silent p)) 2 =
      delivered (cycles i₀ s₀ (silent p)) 1 ++
        [(cycles i₀ s₀ (silent p) 1).m_axis_tdata.setWidth p.WIDTH] := by
    have hv : (cycles i₀ s₀ (silent p) 1).m_axis_tvalid = true :=
      (tvalid_one i₀ s₀ (silent p)).trans hstale
    unfold delivered
    rw [events_succ, delivered_at, hv]
    rfl
  rw [hshown, wordBits_length, List.length_append, List.length_singleton, Nat.mul_add] at hlen
  have hW := p.width_pos
  simp only [List.length_nil, Nat.mul_zero] at hmosi
  omega

end After

/-! ## The law of the reset -/

/-- After a reset of any length, from any registers, the master carries only new words for all
inputs that follow, if and only if the reset finds no word that waits to be sent and no mark of
a word that was just received. -/
theorem reset_leaves_nothing_iff (i : ℕ → Inputs p) (s₀ : Master p) (k : ℕ) :
    (∀ ins, OnlyNew ins (run Master.clock (resets i s₀ (k + 1)) ins)) ↔
      s₀.spi_ready = true ∧ s₀.stale = false := by
  rw [resets_succ]
  constructor
  · intro hall
    have hnew := hall (silent p)
    have hquiet : ∀ n, Quiet (silent p) n := fun _ _ _ => rfl
    have hready : s₀.spi_ready = true := by
      by_contra hno
      have hwaits : s₀.spi_ready = false := by simpa using hno
      have hrun : Released (silent p) (run Master.clock s₀.reset (silent p)) :=
        ⟨fun _ => rfl, fun _ => rfl⟩
      obtain ⟨n, hss, hacc⟩ := selects_for_old_word hrun rfl hwaits
      exact hnew.ss n (hquiet n) hss hacc
    refine ⟨hready, ?_⟩
    by_contra hno
    have hmarked : s₀.stale = true := by simpa using hno
    exact delivers_old_word (silent p 0) hready hmarked (hnew.miso 2 (hquiet 2))
  · rintro ⟨hready, hstale⟩ ins
    exact new_after_reset hready hstale ins

/-- The word 01 in packets of one word. -/
def ones : ℕ → Inputs two_bits := fun _ => ⟨true, true, true, 0xfd, true⟩

def ones_run : ℕ → Master two_bits := run Master.clock (Master.initial two_bits) ones

/-- The word 01 has one bit out when the reset comes. After the reset its other bit goes out,
with a zero behind it, and what comes back is delivered. -/
theorem old_word_is_sent :
    let s := run Master.clock (resets ones (ones_run 4) 1) (silent two_bits)
    accepted (silent two_bits) s 12 = [] ∧ mosi_bits s 12 = [true, false] ∧
      delivered s 12 = [0] ∧ ¬ OnlyNew (silent two_bits) s := by
  intro s
  have hmosi : mosi_bits s 12 = [true, false] := by decide +kernel
  refine ⟨accepted_silent s 12, hmosi, by decide +kernel, fun h => ?_⟩
  have hpre := h.mosi 12 fun _ _ => rfl
  rw [hmosi, accepted_silent] at hpre
  exact absurd hpre.length_le (by decide)

end spi_master
