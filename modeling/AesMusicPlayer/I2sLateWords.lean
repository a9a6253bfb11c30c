-- Words that come late to the I2S slave. S_AXIS_TREADY stays high after the
-- start of a frame, so a word can be taken at any edge, and some edges are the
-- edges that shift. A word is sent when it is taken after the last shift before
-- a frame and before the first bit of the frame.
import AesMusicPlayer.Clocked
import AesMusicPlayer.I2sFrames

open clocked serial

namespace i2s_slave

variable {W : ℕ}

/-! ## What is sent -/

/-- The edge of cycle `n` comes after the last shift before a frame, and before the rising edge
of bclk that reads the first bit of the frame. -/
def InTime (b : Bus) (W n : ℕ) : Prop :=
  ∃ f, b.fall (frame W f) + 1 < n ∧ n < b.rise (frame W f + 1)

/-- The bits of a word stand on sdata at the rising edges of bclk of frame `f`. -/
def Carries (b : Bus) (s : ℕ → Slave W) (f : ℕ) (w : BitVec W) : Prop :=
  (List.range W).map (fun j => (s (b.rise (frame W f + 1 + j))).sdata) = bits w

/-- Every word that is accepted from cycle `n₀` on is carried by a frame of its own, which
begins after the word is accepted, and the frames carry the words in their order. -/
def SendsAll (b : Bus) (ins : ℕ → Inputs W) (s : ℕ → Slave W) (n₀ : ℕ) : Prop :=
  ∃ frameOf : ℕ → ℕ,
    (∀ n, n₀ ≤ n → (s n).accepts (ins n) = true →
      n < b.rise (frame W (frameOf n) + 1) ∧ Carries b s (frameOf n) (ins n).tdata) ∧
    ∀ m n, n₀ ≤ m → m < n → (s m).accepts (ins m) = true → (s n).accepts (ins n) = true →
      frameOf m < frameOf n

namespace OnBus

variable {b : Bus} {ins : ℕ → Inputs W} {s : ℕ → Slave W} {n₀ : ℕ}

/-! ## A word that is taken in time -/

/-- Around the start of a frame an edge shifts nothing, and leaves `busy`. -/
theorem no_shift (h : OnBus b ins s n₀) {f n : ℕ} (h1 : b.fall (frame W f) + 1 < n)
    (h2 : n < b.rise (frame W f + 1)) :
    ((s n).bclk_fall && !(s (n + 1)).lrclkp) = false ∧
      ((s n).bclk_fall && !(s (n + 1)).lrclk_fall) = false := by
  obtain ⟨k, hk, hhigh, hlow⟩ := exists_frame_start h.even h.four_le f
  rw [hk] at h1 h2
  replace h2 : n < b.rise (k + 2) := h2
  have hh := b.high_half k
  cases hf : (s n).bclk_fall with
  | false => exact ⟨rfl, rfl⟩
  | true =>
    -- the fall that is seen is the one within the frame
    have hafter : b.rise (k + 1) < n := by
      by_contra hle
      have := (h.bclk_fall_iff (k := k) (by omega) (show n ≤ b.rise (k + 1) by omega)).mp hf
      omega
    obtain ⟨hwf, hwp⟩ := h.lrclk_wires (k := k) (n := n + 1) (by omega) (by omega)
    rw [hwf, hwp, hhigh, hlow]
    exact ⟨rfl, rfl⟩

/-- The word stays in `data_buf` until the first rising edge of the frame, and no other word
is taken. -/
theorem holds_word (h : OnBus b ins s n₀) {f n m : ℕ} (hn : n₀ ≤ n)
    (h1 : b.fall (frame W f) + 1 < n) (ha : (s n).accepts (ins n) = true) (hnm : n < m)
    (h2 : m ≤ b.rise (frame W f + 1)) :
    (s m).tready = false ∧ (s m).busy = true ∧ (s m).data_buf = (ins n).tdata := by
  induction m, hnm using Nat.le_induction with
  | base =>
    obtain ⟨hbusy, hshift⟩ := h.no_shift h1 (show n < b.rise (frame W f + 1) by omega)
    obtain ⟨ht, hb, hd⟩ := h.moves hn
    rw [ht, hb, hd, hbusy, hshift, ha]
    exact ⟨rfl, rfl, rfl⟩
  | succ m hnm ih =>
    obtain ⟨iht, ihb, ihd⟩ := ih (by omega)
    obtain ⟨hbusy, hshift⟩ := h.no_shift (f := f) (n := m) (by omega) (by omega)
    obtain ⟨ht, hb, hd⟩ := h.waits (by omega) iht
    rw [ht, hb, hd, hbusy, hshift, ihb, ihd, Bool.not_true, Bool.and_false]
    exact ⟨rfl, rfl, rfl⟩

/-- A word that is taken in time is sent by the frame, and it is the only one until the next
frame starts. -/
theorem sends_word (h : OnBus b ins s n₀) {f n : ℕ} (hn : n₀ ≤ n)
    (h1 : b.fall (frame W f) + 1 < n) (h2 : n < b.rise (frame W f + 1))
    (ha : (s n).accepts (ins n) = true) :
    Carries b s f (ins n).tdata ∧
      ∀ m, n < m → m ≤ b.rise (frame W (f + 1)) → (s m).tready = false := by
  have hW := h.four_le
  obtain ⟨ht, -, hd⟩ := h.holds_word hn h1 ha h2 (Nat.le_refl _)
  have hshifts := fun j hj => h.frame_shifts (f := f) (j := j) (by omega) ht hj
  constructor
  · unfold Carries bits
    apply List.map_congr_left
    intro j hj
    obtain ⟨-, -, hshift⟩ := hshifts j (List.mem_range.mp hj)
    unfold Slave.sdata
    rw [hshift, hd, msb_shiftLeft]
  · intro m hnm hm
    obtain ⟨hquiet, -, -⟩ := hshifts (W - 1) (by omega)
    rw [show frame W f + 1 + (W - 1) = frame W (f + 1) by rw [frame_succ]; omega] at hquiet
    rcases Nat.lt_or_ge m (b.rise (frame W f + 1)) with hlt | hge
    · exact (h.holds_word hn h1 ha hnm (by omega)).1
    · exact hquiet m hge hm

theorem sends_all (h : OnBus b ins s n₀)
    (hin : ∀ n, n₀ ≤ n → (s n).accepts (ins n) = true → InTime b W n) :
    SendsAll b ins s n₀ := by
  choose! frameOf hfall hrise using hin
  refine ⟨frameOf, fun n hn ha => ?_, fun m n hm hmn ha ha' => ?_⟩
  · exact ⟨hrise n hn ha, (h.sends_word hn (hfall n hn ha) (hrise n hn ha) ha).1⟩
  · obtain ⟨-, hquiet⟩ := h.sends_word hm (hfall m hm ha) (hrise m hm ha) ha
    -- TREADY is low until the next frame starts, so the next word is for a later frame
    by_contra hle
    have hW := h.four_le
    have hframe : frame W (frameOf n) + 1 ≤ frame W (frameOf m + 1) := by
      have hmul := Nat.mul_le_mul_right W (show frameOf n ≤ frameOf m by omega)
      rw [frame_succ]
      unfold frame
      omega
    have hlow := hquiet n hmn (by
      have := b.rise_mono hframe
      have := hrise n (by omega) ha'
      omega)
    unfold Slave.accepts at ha'
    rw [hlow] at ha'
    cases ha'

/-! ## A word that is late -/

/-- The low `t` bits of `data_buf` have been shifted in. -/
def Shifted (t : ℕ) (v : BitVec W) : Prop := ∃ u : BitVec W, v = u <<< t

theorem Shifted.zero (t : ℕ) : Shifted t (0 : BitVec W) := ⟨0, by simp⟩

theorem Shifted.shift {t : ℕ} {v : BitVec W} (h : Shifted t v) : Shifted (t + 1) (v <<< 1) := by
  obtain ⟨u, rfl⟩ := h
  exact ⟨u, (BitVec.shiftLeft_add u t 1).symm⟩

theorem Shifted.of_succ {t : ℕ} {v : BitVec W} (h : Shifted (t + 1) v) : Shifted t v := by
  obtain ⟨u, rfl⟩ := h
  exact ⟨u <<< 1, by rw [← BitVec.shiftLeft_add, Nat.add_comm]⟩

/-- No bit of the word is left. -/
theorem Shifted.msb {v : BitVec W} (h : Shifted W v) : v.msb = false := by
  obtain ⟨u, rfl⟩ := h
  rw [msb_shiftLeft]
  exact BitVec.getMsbD_of_ge u W (Nat.le_refl W)

theorem shifted_fall (h : OnBus b ins s n₀) {n t : ℕ} (hn : n₀ ≤ n)
    (hs : Shifted t (s n).data_buf) (hf : (s n).bclk_fall = true)
    (hc : (s (n + 1)).lrclk_fall = false) : Shifted (t + 1) (s (n + 1)).data_buf := by
  obtain ⟨-, -, hd⟩ := h.moves hn
  rw [hd, hf, hc]
  exact hs.shift

/-- An edge that takes no word but zeros. -/
theorem shifted_step (h : OnBus b ins s n₀) {n t : ℕ} (hn : n₀ ≤ n)
    (hz : (s n).accepts (ins n) = true → (ins n).tdata = 0) (hs : Shifted t (s n).data_buf) :
    Shifted t (s (n + 1)).data_buf := by
  obtain ⟨-, -, hd⟩ := h.moves hn
  rw [hd]
  split_ifs with hshift ha
  · exact hs.shift.of_succ
  · rw [hz ha]
    exact Shifted.zero t
  · exact hs

section Zeros

variable {a : ℕ}

theorem shifted_until (h : OnBus b ins s n₀) (ha : n₀ ≤ a)
    (hz : ∀ n, a ≤ n → (s n).accepts (ins n) = true → (ins n).tdata = 0) {m n t : ℕ}
    (hm : a ≤ m) (hmn : m ≤ n) (hs : Shifted t (s m).data_buf) : Shifted t (s n).data_buf := by
  induction n, hmn using Nat.le_induction with
  | base => exact hs
  | succ n hmn ih => exact h.shifted_step (by omega) (hz n (by omega)) ih

/-- A period after which lrclk has not just fallen shifts once more. -/
theorem shifted_period (h : OnBus b ins s n₀) (ha : n₀ ≤ a)
    (hz : ∀ n, a ≤ n → (s n).accepts (ins n) = true → (ins n).tdata = 0) {k t : ℕ}
    (hk : a ≤ b.rise (k + 1)) (hfall : (channel W k && !channel W (k + 1)) = false)
    (hs : Shifted t (s (b.rise (k + 1))).data_buf) :
    Shifted (t + 1) (s (b.rise (k + 2))).data_buf := by
  obtain ⟨hh, hl⟩ := b.halves k
  have hbefore := h.shifted_until ha hz hk (show b.rise (k + 1) ≤ b.fall (k + 2) + 1 by omega) hs
  have hedge : (s (b.fall (k + 2) + 1)).bclk_fall = true := h.bclk_fall_at (k + 1)
  have hwire := (h.lrclk_wires (k := k) (n := b.fall (k + 2) + 1 + 1) (by omega) (by omega)).1
  rw [hfall] at hwire
  exact h.shifted_until ha hz (by omega) (by omega) (h.shifted_fall (by omega) hbefore hedge hwire)

/-- From the first rising edge of a frame on, each edge of bclk reads behind one more shift. -/
theorem shifted_frame (h : OnBus b ins s n₀) (ha : n₀ ≤ a)
    (hz : ∀ n, a ≤ n → (s n).accepts (ins n) = true → (ins n).tdata = 0) {f t : ℕ}
    (hf : a ≤ b.rise (frame W f + 1)) (hs : Shifted t (s (b.rise (frame W f + 1))).data_buf)
    {j : ℕ} (hj : j < W) : Shifted (t + j) (s (b.rise (frame W f + 1 + j))).data_buf := by
  induction j with
  | zero => exact hs
  | succ j ih =>
    have hle := b.rise_mono (show frame W f + 1 ≤ frame W f + 1 + j by omega)
    have hbefore := ih (by omega)
    rw [show frame W f + 1 + j = frame W f + j + 1 by omega] at hle hbefore
    rw [show frame W f + 1 + (j + 1) = frame W f + j + 2 by omega]
    exact h.shifted_period ha hz (by omega) (h.frame_channels f hj).1 hbefore

end Zeros

/-- The last shift before a frame, with or without a word at the same edge. -/
theorem shifted_before_frame (h : OnBus b ins s n₀) {f : ℕ} (hn : n₀ ≤ b.fall (frame W f) + 1) :
    Shifted 1 (s (b.fall (frame W f) + 2)).data_buf := by
  obtain ⟨k, hk, hc, hc'⟩ := exists_before_frame h.four_le f
  rw [hk] at hn ⊢
  obtain ⟨hh, hl⟩ := b.halves k
  have hwire := (h.lrclk_wires (k := k) (n := b.fall (k + 2) + 2) (by omega) (by omega)).1
  rw [hc, hc'] at hwire
  exact h.shifted_fall hn ⟨_, (BitVec.shiftLeft_zero _).symm⟩ (h.bclk_fall_at (k + 1)) hwire

/-- After a word that is taken before the last shift of a frame and nothing but zeros after it,
the last bit of the next frame is a zero. -/
theorem last_bit_low (h : OnBus b ins s n₀) {f n : ℕ} (hn : n₀ ≤ n)
    (hlate : n ≤ b.fall (frame W f) + 1)
    (hz : ∀ m, n < m → (s m).accepts (ins m) = true → (ins m).tdata = 0) :
    (s (b.rise (frame W f + 1 + (W - 1)))).sdata = false := by
  have hW := h.four_le
  have hzeros : ∀ m, b.fall (frame W f) + 2 ≤ m → (s m).accepts (ins m) = true →
      (ins m).tdata = 0 := fun m hm => hz m (by omega)
  have hl := b.low_half (frame W f)
  have hmono := b.rise_mono (show frame W f ≤ frame W f + 1 by omega)
  have hfirst : Shifted 1 (s (b.rise (frame W f + 1))).data_buf :=
    h.shifted_until (by omega) hzeros (Nat.le_refl _) (by omega)
      (h.shifted_before_frame (by omega))
  have hlast := h.shifted_frame (by omega) hzeros (by omega) hfirst (show W - 1 < W by omega)
  rw [show 1 + (W - 1) = W by omega] at hlast
  exact hlast.msb

/-- A word of ones that is late and followed by zeros is not sent. -/
theorem late_word_lost (h : OnBus b ins s n₀) {n : ℕ} (hn : n₀ ≤ n)
    (ha : (s n).accepts (ins n) = true) (hlate : ¬ InTime b W n)
    (hones : (ins n).tdata = BitVec.allOnes W)
    (hz : ∀ m, n < m → (s m).accepts (ins m) = true → (ins m).tdata = 0) :
    ¬ SendsAll b ins s n₀ := by
  rintro ⟨frameOf, hsent, -⟩
  obtain ⟨hbefore, hcarries⟩ := hsent n hn ha
  have hW := h.four_le
  have hle : n ≤ b.fall (frame W (frameOf n)) + 1 := by
    by_contra hgt
    exact hlate ⟨frameOf n, by omega, hbefore⟩
  have hlow := h.last_bit_low hn hle hz
  rw [hones] at hcarries
  unfold Carries bits at hcarries
  have hbit := List.map_inj_left.mp hcarries (W - 1) (List.mem_range.mpr (by omega))
  rw [hlow] at hbit
  simp only [BitVec.getMsbD_allOnes, decide_eq_false_iff_not, Bool.false_eq] at hbit
  omega

end OnBus

/-! ## The words do not steer the slave -/

/-- The same clocks and the same valid line, with other words. -/
def carrying (ins : ℕ → Inputs W) (d : ℕ → BitVec W) (n : ℕ) : Inputs W := { ins n with tdata := d n }

/-- A word that stands on the port stays there until it is taken. -/
def Steady (ins : ℕ → Inputs W) (s : ℕ → Slave W) (d : ℕ → BitVec W) : Prop :=
  ∀ n, (ins n).tvalid = true → (s n).tready = false → d (n + 1) = d n

namespace Slave

theorem posedge_aclk_with (i : Inputs W) (s : Slave W) (v d : BitVec W) :
    ∃ v', ({ s with data_buf := v } : Slave W).posedge_aclk { i with tdata := d } =
      { s.posedge_aclk i with data_buf := v' } := by
  have hacc : ({ s with data_buf := v } : Slave W).accepts { i with tdata := d } = s.accepts i := rfl
  have hfall : ({ s with data_buf := v } : Slave W).bclk_fall = s.bclk_fall := rfl
  have hedge : ({ s with data_buf := v } : Slave W).lrclkp = s.lrclkp := rfl
  have hrise : ({ s with data_buf := v } : Slave W).lrclk_rise = s.lrclk_rise := rfl
  have hwants : ({ s with data_buf := v } : Slave W).wants = s.wants := rfl
  unfold posedge_aclk
  rw [hacc, hfall, hedge, hrise, hwants]
  generalize s.accepts i = a
  generalize s.bclk_fall = f
  generalize s.lrclkp = p
  generalize s.lrclk_rise = r
  generalize s.wants = w
  cases hn : i.aresetn <;> cases a <;> cases f <;> cases p <;> cases r <;> cases w <;>
    exact ⟨_, rfl⟩

theorem cycle_with (i : Inputs W) (s : Slave W) (v d : BitVec W) :
    ∃ v', ({ s with data_buf := v } : Slave W).cycle { i with tdata := d } =
      { s.cycle i with data_buf := v' } := by
  unfold cycle
  cases hrise : i.bclk && !s.bclk_ctrl_0 with
  | false => exact posedge_aclk_with i s v d
  | true => exact posedge_aclk_with i (s.posedge_bclk i.lrclk) v d

/-- The registers as they are declared. -/
def initial (W : ℕ) : Slave W := ⟨false, false, false, false, false, 0, false⟩

end Slave

theorem run_carrying (s₀ : Slave W) (ins : ℕ → Inputs W) (d : ℕ → BitVec W) (n : ℕ) :
    ∃ v, run Slave.cycle s₀ (carrying ins d) n =
      { run Slave.cycle s₀ ins n with data_buf := v } := by
  induction n with
  | zero => exact ⟨s₀.data_buf, rfl⟩
  | succ n ih =>
    obtain ⟨v, hv⟩ := ih
    unfold run
    rw [hv]
    exact Slave.cycle_with (ins n) (run Slave.cycle s₀ ins n) v (d n)

theorem tready_carrying (s₀ : Slave W) (ins : ℕ → Inputs W) (d : ℕ → BitVec W) (n : ℕ) :
    (run Slave.cycle s₀ (carrying ins d) n).tready = (run Slave.cycle s₀ ins n).tready := by
  obtain ⟨v, hv⟩ := run_carrying s₀ ins d n
  rw [hv]

theorem accepts_carrying (s₀ : Slave W) (ins : ℕ → Inputs W) (d : ℕ → BitVec W) (n : ℕ) :
    (run Slave.cycle s₀ (carrying ins d) n).accepts (carrying ins d n) =
      (run Slave.cycle s₀ ins n).accepts (ins n) := by
  unfold Slave.accepts
  rw [tready_carrying]
  rfl

section Law

variable {b : Bus} {s₀ : Slave W} {ins : ℕ → Inputs W} {n₀ : ℕ}

theorem OnBus.carrying (h : OnBus b ins (run Slave.cycle s₀ ins) n₀) (d : ℕ → BitVec W) :
    OnBus b (carrying ins d) (run Slave.cycle s₀ (carrying ins d)) n₀ :=
  ⟨h.even, h.four_le, fun _ => rfl, h.low, h.high, h.lrclk, h.released⟩

/-- What the sender and the slave do with the port. -/
def port (s₀ : Slave W) (ins : ℕ → Inputs W) : Sink where
  valid n := (ins n).tvalid
  ready n := (run Slave.cycle s₀ ins n).tready
  take n := (run Slave.cycle s₀ ins n).accepts (ins n)

theorem port_accepted (s₀ : Slave W) (ins : ℕ → Inputs W) (n : ℕ) :
    (port s₀ ins).accepted n = (run Slave.cycle s₀ ins n).accepts (ins n) := Bool.and_comm _ _

/-- The sender whose word at cycle `n` has only ones, and all others only zeros. -/
def ones_at (s₀ : Slave W) (ins : ℕ → Inputs W) (n m : ℕ) : BitVec W :=
  if (port s₀ ins).beat m = (port s₀ ins).beat n then BitVec.allOnes W else 0

theorem ones_at_steady (s₀ : Slave W) (ins : ℕ → Inputs W) (n : ℕ) :
    Steady ins (run Slave.cycle s₀ (carrying ins (ones_at s₀ ins n))) (ones_at s₀ ins n) := by
  intro m _ hready
  rw [tready_carrying] at hready
  have hacc : (port s₀ ins).accepted m = false := by
    rw [port_accepted]
    unfold Slave.accepts
    rw [hready, Bool.false_and]
  unfold ones_at
  rw [Sink.beat_succ hacc]

/-! ## The law of late words -/

/-- Whatever the words are, they are all sent, if and only if every word is taken in time. -/
theorem words_are_sent_iff (h : OnBus b ins (run Slave.cycle s₀ ins) n₀) :
    (∀ d, Steady ins (run Slave.cycle s₀ (carrying ins d)) d →
        SendsAll b (carrying ins d) (run Slave.cycle s₀ (carrying ins d)) n₀) ↔
      ∀ n, n₀ ≤ n → (run Slave.cycle s₀ ins n).accepts (ins n) = true → InTime b W n := by
  constructor
  · intro hall n hn ha
    by_contra hlate
    apply (h.carrying (ones_at s₀ ins n)).late_word_lost hn _ hlate _ _
      (hall _ (ones_at_steady s₀ ins n))
    · rw [accepts_carrying]
      exact ha
    · exact if_pos rfl
    · intro m hm ham
      have hlt := Sink.beat_lt (k := port s₀ ins) hm (by rw [port_accepted]; exact ha)
      exact if_neg (by omega)
  · intro hin d _
    apply (h.carrying d).sends_all
    intro n hn ha
    rw [accepts_carrying] at ha
    exact hin n hn ha

end Law

/-! ### A word in the middle of a frame -/

/-- The sender of one word, which comes in cycle `c`. -/
def late_inputs (c n : ℕ) : Inputs 4 :=
  ⟨decide (4 ≤ n % 8), channel 4 (n / 8), true, decide (n = c), 15⟩

theorem late_onBus (c : ℕ) :
    OnBus slow_bus (late_inputs c) (run Slave.cycle (.initial 4) (late_inputs c)) 0 where
  even := rfl
  four_le := Nat.le_refl 4
  step _ := rfl
  low := slow_isRun.low
  high := slow_isRun.high
  lrclk := slow_isRun.lrclk
  released _ _ := rfl

theorem words_of_a_late_sender :
    (∀ d, Steady (late_inputs 24) (run Slave.cycle (.initial 4) (carrying (late_inputs 24) d)) d →
        SendsAll slow_bus (carrying (late_inputs 24) d)
          (run Slave.cycle (.initial 4) (carrying (late_inputs 24) d)) 0) ↔
      ∀ n, 0 ≤ n → (run Slave.cycle (.initial 4) (late_inputs 24) n).accepts (late_inputs 24 n) = true →
        InTime slow_bus 4 n :=
  words_are_sent_iff (late_onBus 24)

/-- The word that comes with the shift after the first bit of a frame. The sender holds it
until it is taken, at the same edge. -/
theorem word_lost_in_a_shift :
    OnBus slow_bus (late_inputs 33) (run Slave.cycle (.initial 4) (late_inputs 33)) 0 ∧
      (∀ n, (late_inputs 33 n).tvalid = true →
        (run Slave.cycle (.initial 4) (late_inputs 33) n).accepts (late_inputs 33 n) = true) ∧
      (run Slave.cycle (.initial 4) (late_inputs 33) 33).bclk_fall = true ∧
      ¬ SendsAll slow_bus (late_inputs 33) (run Slave.cycle (.initial 4) (late_inputs 33)) 0 := by
  have htaken : (run Slave.cycle (.initial 4) (late_inputs 33) 33).accepts (late_inputs 33 33) =
      true := by decide +kernel
  have honly : ∀ n, (late_inputs 33 n).tvalid = true → n = 33 := fun n hn => of_decide_eq_true hn
  refine ⟨late_onBus 33, fun n hn => ?_, by decide +kernel, ?_⟩
  · rw [honly n hn]
    exact htaken
  · apply (late_onBus 33).late_word_lost (Nat.zero_le 33) htaken _ rfl
    · intro m hm ha
      have hvalid : (late_inputs 33 m).tvalid = true := by
        unfold Slave.accepts at ha
        exact (Bool.and_eq_true _ _ ▸ ha).2
      have := honly m hvalid
      omega
    · rintro ⟨f, h1, h2⟩
      simp only [slow_bus, frame] at h1 h2
      omega

end i2s_slave
