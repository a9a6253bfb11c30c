-- The law of the I2S slave over whole runs: each frame carries one accepted
-- word, its first half in one channel slot and its second half in the other.
-- From one rising edge of bclk to the next, the slave takes at most one word
-- and shifts at most once.
import AesMusicPlayer.I2sSlave

open serial

namespace i2s_slave

/-! ## The clocks of the bus -/

/-- The edge of S_AXIS_ACLK that is the first one after each edge of bclk. -/
structure Bus where
  fall : ℕ → ℕ
  rise : ℕ → ℕ
  low_half : ∀ k, fall k + 4 ≤ rise k
  high_half : ∀ k, rise k + 4 ≤ fall (k + 1)

/-- The two halves of a period that starts with a rising edge. -/
theorem Bus.halves (b : Bus) (k : ℕ) :
    b.rise (k + 1) + 4 ≤ b.fall (k + 2) ∧ b.fall (k + 2) + 4 ≤ b.rise (k + 2) :=
  ⟨b.high_half (k + 1), b.low_half (k + 2)⟩

theorem Bus.rise_mono (b : Bus) {k l : ℕ} (h : k ≤ l) : b.rise k ≤ b.rise l := by
  induction l, h using Nat.le_induction with
  | base => exact Nat.le_refl _
  | succ l _ ih =>
    have hl := b.low_half (l + 1)
    have hh := b.high_half l
    omega

theorem Bus.fall_after (b : Bus) {k l : ℕ} (h : k < l) : b.rise k + 4 ≤ b.fall l := by
  obtain ⟨m, rfl⟩ : ∃ m, l = m + 1 := ⟨l - 1, by omega⟩
  have hh := b.high_half m
  have hm := b.rise_mono (show k ≤ m by omega)
  omega

theorem Bus.fall_mono (b : Bus) {k l : ℕ} (h : k ≤ l) : b.fall k ≤ b.fall l := by
  rcases Nat.eq_or_lt_of_le h with rfl | hlt
  · exact Nat.le_refl _
  · have hl := b.low_half k
    have hf := b.fall_after hlt
    omega

/-- lrclk in the `k`-th period of bclk, which starts with a falling edge: `W / 2` periods
each way. -/
def channel (W k : ℕ) : Bool := decide (k % W < W / 2)

/-- The period of bclk that starts with the `f`-th falling edge of lrclk. -/
def frame (W f : ℕ) : ℕ := W / 2 + f * W

/-- A run on the bus, from any registers, with the reset released from `n₀` on. -/
structure OnBus {W : ℕ} (b : Bus) (ins : ℕ → Inputs W) (s : ℕ → Slave W) (n₀ : ℕ) : Prop where
  even : W % 2 = 0
  four_le : 4 ≤ W
  step : ∀ n, s (n + 1) = (s n).cycle (ins n)
  low : ∀ k n, b.fall k ≤ n → n < b.rise k → (ins n).bclk = false
  high : ∀ k n, b.rise k ≤ n → n < b.fall (k + 1) → (ins n).bclk = true
  lrclk : ∀ k n, b.fall k ≤ n → n < b.fall (k + 1) → (ins n).lrclk = channel W k
  released : ∀ n, n₀ ≤ n → (ins n).aresetn = true

/-- A run from any registers, with the reset released at least one period of bclk before
frame `f₀`, and a word on the port from then on. -/
structure IsRun {W : ℕ} (b : Bus) (ins : ℕ → Inputs W) (s : ℕ → Slave W) (n₀ f₀ : ℕ) : Prop
    extends OnBus b ins s n₀ where
  valid : ∀ n, n₀ ≤ n → (ins n).tvalid = true
  before : n₀ ≤ b.fall (frame W f₀ - 1)

/-- The word that an edge accepts. -/
def word_at {W : ℕ} (ins : ℕ → Inputs W) (s : ℕ → Slave W) (n : ℕ) : Option (BitVec W) :=
  if (s n).accepts (ins n) then some (ins n).tdata else none

/-- The words that are accepted from cycle `m` on, before a cycle. -/
def accepted_from {W : ℕ} (ins : ℕ → Inputs W) (s : ℕ → Slave W) (m : ℕ) : ℕ → List (BitVec W) :=
  events fun n => if m ≤ n then word_at ins s n else none

/-! ## The channels -/

section Channel

variable {W : ℕ}

theorem frame_succ (W f : ℕ) : frame W (f + 1) = frame W f + W := by
  unfold frame
  rw [Nat.succ_mul, Nat.add_assoc]

theorem channel_frame (heven : W % 2 = 0) (f : ℕ) {j : ℕ} (hj : j < W) :
    channel W (frame W f + j) = decide (W / 2 ≤ j) := by
  have hmod : (frame W f + j) % W = (W / 2 + j) % W := by
    unfold frame
    rw [show W / 2 + f * W + j = W / 2 + j + f * W by omega, Nat.add_mul_mod_self_right]
  unfold channel
  rw [hmod, decide_eq_decide]
  rcases Nat.lt_or_ge j (W / 2) with hlt | hge
  · rw [Nat.mod_eq_of_lt (by omega)]
    omega
  · rw [Nat.mod_eq_sub_mod (by omega), Nat.mod_eq_of_lt (by omega)]
    omega

theorem channel_before (hW : 4 ≤ W) (f : ℕ) {j : ℕ} (h1 : 1 ≤ j) (h2 : j ≤ 2) :
    channel W (frame W f - j) = true := by
  unfold channel frame
  rw [show W / 2 + f * W - j = W / 2 - j + f * W by omega, Nat.add_mul_mod_self_right,
    Nat.mod_eq_of_lt (by omega), decide_eq_true_eq]
  omega

/-- The two periods before a frame have lrclk high. -/
theorem exists_before_frame (hW : 4 ≤ W) (f : ℕ) :
    ∃ k, frame W f = k + 2 ∧ channel W k = true ∧ channel W (k + 1) = true := by
  obtain ⟨k, hk⟩ : ∃ k, frame W f = k + 2 := ⟨frame W f - 2, by unfold frame; omega⟩
  have hc := channel_before hW f (show 1 ≤ 2 by omega) (Nat.le_refl 2)
  have hc' := channel_before hW f (Nat.le_refl 1) (show 1 ≤ 2 by omega)
  rw [hk] at hc hc'
  exact ⟨k, hk, hc, hc'⟩

/-- A frame starts with a falling edge of lrclk. -/
theorem exists_frame_start (heven : W % 2 = 0) (hW : 4 ≤ W) (f : ℕ) :
    ∃ k, frame W f = k + 1 ∧ channel W k = true ∧ channel W (k + 1) = false := by
  obtain ⟨k, hk⟩ : ∃ k, frame W f = k + 1 := ⟨frame W f - 1, by unfold frame; omega⟩
  have hhigh := channel_before hW f (Nat.le_refl 1) (by omega)
  have hlow := channel_frame heven f (show 0 < W by omega)
  rw [Nat.add_zero, decide_eq_false (by omega)] at hlow
  rw [hk] at hhigh hlow
  exact ⟨k, hk, hhigh, hlow⟩

end Channel

/-- The slave takes no word while it is busy or while lrclk has not fallen. -/
def IsRun.Quiet {W : ℕ} (s : Slave W) : Prop :=
  s.tready = false ∧ (s.lrclk_fall = true → s.busy = true)

theorem IsRun.Quiet.of_not_fall {W : ℕ} {s : Slave W} (ht : s.tready = false)
    (hf : s.lrclk_fall = false) : IsRun.Quiet s := by
  refine ⟨ht, fun hl => ?_⟩
  rw [hf] at hl
  cases hl

namespace OnBus

variable {W : ℕ} {b : Bus} {ins : ℕ → Inputs W} {s : ℕ → Slave W} {n₀ : ℕ}

/-! ## The samplers -/

theorem ctrl_0 (h : OnBus b ins s n₀) (n : ℕ) : (s (n + 1)).bclk_ctrl_0 = (ins n).bclk := by
  rw [h.step]
  exact (Slave.cycle_bclk_ctrl _ _).1

theorem ctrl_1 (h : OnBus b ins s n₀) (n : ℕ) : (s (n + 2)).bclk_ctrl_1 = (ins n).bclk := by
  rw [h.step, (Slave.cycle_bclk_ctrl _ _).2, h.ctrl_0]

/-- bclk_fall comes one cycle after the first low level. -/
theorem bclk_fall_iff (h : OnBus b ins s n₀) {k n : ℕ} (h1 : b.rise k ≤ n)
    (h2 : n ≤ b.rise (k + 1)) : (s n).bclk_fall = true ↔ n = b.fall (k + 1) + 1 := by
  have hl := b.low_half k
  have hh := b.high_half k
  have hl' := b.low_half (k + 1)
  obtain ⟨m, rfl⟩ : ∃ m, n = m + 2 := ⟨n - 2, by omega⟩
  unfold Slave.bclk_fall
  rw [h.ctrl_1, h.ctrl_0, Bool.and_eq_true, Bool.not_eq_eq_eq_not, Bool.not_true]
  constructor
  · rintro ⟨hm, hm1⟩
    by_contra hne
    rcases (by omega : m < b.rise k ∨ (b.rise k ≤ m ∧ m + 1 < b.fall (k + 1)) ∨
      b.fall (k + 1) ≤ m) with hlt | ⟨hr, hf⟩ | hf
    · rw [h.low k m (by omega) hlt] at hm
      cases hm
    · rw [h.high k (m + 1) (by omega) hf] at hm1
      cases hm1
    · rw [h.low (k + 1) m hf (by omega)] at hm
      cases hm
  · intro hn
    exact ⟨h.high k m (by omega) (by omega), h.low (k + 1) (m + 1) (by omega) (by omega)⟩

theorem bclk_fall_at (h : OnBus b ins s n₀) (k : ℕ) : (s (b.fall (k + 1) + 1)).bclk_fall = true := by
  have hl := b.low_half (k + 1)
  have hh := b.high_half k
  exact (h.bclk_fall_iff (k := k) (by omega)
    (show b.fall (k + 1) + 1 ≤ b.rise (k + 1) by omega)).mpr rfl

/-- `lrclk_buff` changes at the rising edges of bclk. -/
theorem lrclk_buff_step (h : OnBus b ins s n₀) {k n : ℕ} (h1 : b.rise k ≤ n)
    (h2 : n < b.rise (k + 1)) :
    (s (n + 1)).lrclk_buff_0 = (if n = b.rise k then channel W k else (s n).lrclk_buff_0) ∧
      (s (n + 1)).lrclk_buff_1 =
        (if n = b.rise k then (s n).lrclk_buff_0 else (s n).lrclk_buff_1) := by
  have hl := b.low_half k
  have hh := b.high_half k
  obtain ⟨m, rfl⟩ : ∃ m, n = m + 1 := ⟨n - 1, by omega⟩
  have hpos : ((ins (m + 1)).bclk && !(s (m + 1)).bclk_ctrl_0) = decide (m + 1 = b.rise k) := by
    rw [h.ctrl_0]
    rcases (by omega : m + 1 = b.rise k ∨ (b.rise k ≤ m ∧ m + 1 < b.fall (k + 1)) ∨
      b.fall (k + 1) ≤ m + 1) with heq | ⟨hr, hf⟩ | hf
    · rw [h.high k (m + 1) (by omega) (by omega), h.low k m (by omega) (by omega), decide_eq_true heq]
      rfl
    · rw [h.high k m hr (by omega), decide_eq_false (by omega)]
      exact Bool.and_false _
    · rw [h.low (k + 1) (m + 1) hf (by omega), decide_eq_false (by omega)]
      rfl
  obtain ⟨h0, h1'⟩ := Slave.cycle_lrclk_buff (ins (m + 1)) (s (m + 1))
  rw [h.step, h0, h1', hpos]
  by_cases heq : m + 1 = b.rise k
  · rw [if_pos (by simpa using heq), if_pos heq, if_pos (by simpa using heq), if_pos heq,
      h.lrclk k (m + 1) (by omega) (by omega)]
    exact ⟨rfl, rfl⟩
  · rw [if_neg (by simpa using heq), if_neg heq, if_neg (by simpa using heq), if_neg heq]
    exact ⟨rfl, rfl⟩

theorem lrclk_buff_0 (h : OnBus b ins s n₀) {k n : ℕ} (h1 : b.rise k < n)
    (h2 : n ≤ b.rise (k + 1)) : (s n).lrclk_buff_0 = channel W k := by
  induction n, h1 using Nat.le_induction with
  | base => rw [(h.lrclk_buff_step (Nat.le_refl _) h2).1, if_pos rfl]
  | succ n hn ih => rw [(h.lrclk_buff_step (by omega) h2).1, if_neg (by omega), ih (by omega)]

theorem lrclk_buff_1 (h : OnBus b ins s n₀) {k n : ℕ} (h1 : b.rise (k + 1) < n)
    (h2 : n ≤ b.rise (k + 2)) : (s n).lrclk_buff_1 = channel W k := by
  have hl := b.low_half (k + 1)
  have hh := b.high_half k
  induction n, h1 using Nat.le_induction with
  | base =>
    rw [(h.lrclk_buff_step (Nat.le_refl _) h2).2, if_pos rfl,
      h.lrclk_buff_0 (k := k) (by omega) (Nat.le_refl _)]
  | succ n hn ih => rw [(h.lrclk_buff_step (by omega) h2).2, if_neg (by omega), ih (by omega)]

/-- `lrclk_buff` from a rising edge of bclk to the next. -/
theorem lrclk_wires (h : OnBus b ins s n₀) {k n : ℕ} (h1 : b.rise (k + 1) < n)
    (h2 : n ≤ b.rise (k + 2)) :
    (s n).lrclk_fall = (channel W k && !channel W (k + 1)) ∧
      (s n).lrclkp = (channel W k ^^ channel W (k + 1)) := by
  unfold Slave.lrclk_fall Slave.lrclkp
  rw [h.lrclk_buff_0 h1 h2, h.lrclk_buff_1 h1 h2]
  exact ⟨rfl, rfl⟩

/-! ## One period of bclk -/

theorem moves (h : OnBus b ins s n₀) {n : ℕ} (hn : n₀ ≤ n) :
    Slave.Moves (ins n) (s n) (s (n + 1)) := by
  rw [h.step]
  exact Slave.cycle_moves (h.released n hn) (s n)

/-- An edge with S_AXIS_TREADY low takes no word. -/
theorem waits (h : OnBus b ins s n₀) {n : ℕ} (hn : n₀ ≤ n) (ht : (s n).tready = false) :
    (s (n + 1)).tready = ((s (n + 1)).lrclk_fall && !(s n).busy) ∧
      (s (n + 1)).busy =
        (if (s n).bclk_fall && !(s (n + 1)).lrclkp then false else (s n).busy) ∧
      (s (n + 1)).data_buf =
        if (s n).bclk_fall && !(s (n + 1)).lrclk_fall then (s n).data_buf <<< 1
        else (s n).data_buf := by
  obtain ⟨htready, hbusy, hdata⟩ := h.moves hn
  have hacc : (s n).accepts (ins n) = false := by
    unfold Slave.accepts
    rw [ht, Bool.false_and]
  rw [hacc] at htready hbusy hdata
  refine ⟨?_, hbusy, hdata⟩
  rw [htready, ht, Bool.or_false, if_neg Bool.false_ne_true]

/-- An edge with S_AXIS_TREADY low and without bclk_fall. -/
theorem still (h : OnBus b ins s n₀) {n : ℕ} (hn : n₀ ≤ n) (ht : (s n).tready = false)
    (hf : (s n).bclk_fall = false) :
    (s (n + 1)).busy = (s n).busy ∧ (s (n + 1)).data_buf = (s n).data_buf := by
  obtain ⟨-, hb, hd⟩ := h.waits hn ht
  rw [hb, hd, hf]
  simp

theorem quiet_step (h : OnBus b ins s n₀) {n : ℕ} (hn : n₀ ≤ n) (hq : IsRun.Quiet (s n))
    (hw : (s (n + 1)).lrclk_fall = (s n).lrclk_fall) : IsRun.Quiet (s (n + 1)) := by
  obtain ⟨hq1, hq2⟩ := hq
  obtain ⟨ht, hb, -⟩ := h.waits hn hq1
  refine ⟨?_, ?_⟩
  · rw [ht, hw]
    cases hl : (s n).lrclk_fall with
    | false => simp
    | true => rw [hq2 hl]; simp
  · intro hl
    have hp : (s (n + 1)).lrclkp = true := by
      unfold Slave.lrclk_fall at hl
      unfold Slave.lrclkp
      revert hl
      cases (s (n + 1)).lrclk_buff_0 <;> cases (s (n + 1)).lrclk_buff_1 <;> simp
    rw [hb, hp, hq2 (hw ▸ hl)]
    simp

theorem quiet_until (h : OnBus b ins s n₀) {k m n : ℕ} (hm : n₀ ≤ m) (h1 : b.rise (k + 1) < m)
    (hmn : m ≤ n) (h2 : n ≤ b.rise (k + 2)) (hq : IsRun.Quiet (s m)) : IsRun.Quiet (s n) := by
  induction n, hmn using Nat.le_induction with
  | base => exact hq
  | succ n hmn ih =>
    apply h.quiet_step (by omega) (ih (by omega))
    rw [(h.lrclk_wires (k := k) (by omega) h2).1,
      (h.lrclk_wires (k := k) (n := n) (by omega) (by omega)).1]

/-- A quiet slave keeps its registers until bclk_fall. -/
theorem kept_until (h : OnBus b ins s n₀) {k m n : ℕ} (hm : n₀ ≤ m) (h1 : b.rise (k + 1) < m)
    (hmn : m ≤ n) (h2 : n ≤ b.rise (k + 2)) (hq : IsRun.Quiet (s m))
    (hno : ∀ j, m ≤ j → j < n → j ≠ b.fall (k + 2) + 1) :
    (s n).busy = (s m).busy ∧ (s n).data_buf = (s m).data_buf := by
  induction n, hmn using Nat.le_induction with
  | base => exact ⟨rfl, rfl⟩
  | succ n hmn ih =>
    have hfall : (s n).bclk_fall = false := by
      by_contra hf
      have hn := (h.bclk_fall_iff (k := k + 1) (by omega) (show n ≤ b.rise (k + 2) by omega)).mp
        (by simpa using hf)
      exact hno n hmn (Nat.lt_succ_self n) hn
    obtain ⟨hb, hd⟩ := h.still (by omega)
      (h.quiet_until hm h1 hmn (by omega) hq).1 hfall
    obtain ⟨ihb, ihd⟩ := ih (by omega) (fun j hj1 hj2 => hno j hj1 (by omega))
    exact ⟨hb.trans ihb, hd.trans ihd⟩

/-- The half of a period with bclk low: one shift, unless lrclk has just fallen. -/
theorem low_half (h : OnBus b ins s n₀) {k m : ℕ} (hm : n₀ ≤ m) (h1 : b.rise (k + 1) < m)
    (h2 : m ≤ b.fall (k + 2) + 1) (hq : IsRun.Quiet (s m)) :
    IsRun.Quiet (s (b.rise (k + 2))) ∧
      (s (b.rise (k + 2))).busy =
        (if channel W k ^^ channel W (k + 1) then (s m).busy else false) ∧
      (s (b.rise (k + 2))).data_buf =
        if channel W k && !channel W (k + 1) then (s m).data_buf else (s m).data_buf <<< 1 := by
  obtain ⟨hh, hl⟩ := b.halves k
  have hquiet := fun n hn hn' => h.quiet_until (n := n) hm h1 hn hn' hq
  -- until bclk_fall, at bclk_fall, and after it
  obtain ⟨hb, hd⟩ := h.kept_until hm h1 h2 (by omega) hq (fun j _ _ => by omega)
  have hfall : (s (b.fall (k + 2) + 1)).bclk_fall = true := h.bclk_fall_at (k + 1)
  obtain ⟨-, hb', hd'⟩ := h.waits (n := b.fall (k + 2) + 1) (by omega) (hquiet _ h2 (by omega)).1
  obtain ⟨hwf, hwp⟩ := h.lrclk_wires (k := k) (n := b.fall (k + 2) + 1 + 1) (by omega) (by omega)
  rw [hfall, hwp, hb] at hb'
  rw [hfall, hwf, hd] at hd'
  obtain ⟨hb'', hd''⟩ := h.kept_until (m := b.fall (k + 2) + 1 + 1) (n := b.rise (k + 2)) (by omega)
    (by omega) (by omega) (Nat.le_refl _) (hquiet _ (by omega) (by omega)) (fun j _ _ => by omega)
  refine ⟨hquiet _ (by omega) (Nat.le_refl _), ?_, ?_⟩
  · rw [hb'', hb']
    cases channel W k ^^ channel W (k + 1) <;> simp
  · rw [hd'', hd']
    cases channel W k && !channel W (k + 1) <;> simp

theorem not_bclk_fall (h : OnBus b ins s n₀) {k n : ℕ} (h1 : b.rise (k + 1) ≤ n)
    (h2 : n ≤ b.rise (k + 1) + 1) : (s n).bclk_fall = false := by
  obtain ⟨hh, hl⟩ := b.halves k
  by_contra hf
  have hn : n = b.fall (k + 2) + 1 :=
    (h.bclk_fall_iff (k := k + 1) h1 (show n ≤ b.rise (k + 2) by omega)).mp (by simpa using hf)
  omega

/-- A period after which lrclk has not just fallen: no word is taken, and one bit goes out. -/
theorem period_shifts (h : OnBus b ins s n₀) {k : ℕ} (hn : n₀ ≤ b.rise (k + 1))
    (ht : (s (b.rise (k + 1))).tready = false)
    (hfall : (channel W k && !channel W (k + 1)) = false) :
    (∀ n, b.rise (k + 1) < n → n ≤ b.rise (k + 2) → (s n).tready = false) ∧
      (s (b.rise (k + 2))).busy =
        (if channel W k ^^ channel W (k + 1) then (s (b.rise (k + 1))).busy else false) ∧
      (s (b.rise (k + 2))).data_buf = (s (b.rise (k + 1))).data_buf <<< 1 := by
  obtain ⟨hh, hl⟩ := b.halves k
  have hw := (h.lrclk_wires (k := k) (n := b.rise (k + 1) + 1) (by omega) (by omega)).1
  rw [hfall] at hw
  obtain ⟨htready, -, -⟩ := h.waits hn ht
  rw [hw] at htready
  have hq : IsRun.Quiet (s (b.rise (k + 1) + 1)) := .of_not_fall htready hw
  obtain ⟨hb, hd⟩ := h.still hn ht (h.not_bclk_fall (Nat.le_refl _) (Nat.le_succ _))
  obtain ⟨-, hb', hd'⟩ := h.low_half (k := k) (m := b.rise (k + 1) + 1) (by omega) (by omega)
    (by omega) hq
  rw [hb] at hb'
  rw [hd, hfall] at hd'
  exact ⟨fun n h1 h2 => (h.quiet_until (k := k) (by omega) (Nat.lt_succ_self _) h1 h2 hq).1, hb', hd'⟩

/-! ## The bits of a frame -/

/-- Within a frame lrclk does not fall, and it keeps its level in the first period. -/
theorem frame_channels (h : OnBus b ins s n₀) (f : ℕ) {j : ℕ} (hj : j + 1 < W) :
    (channel W (frame W f + j) && !channel W (frame W f + j + 1)) = false ∧
      (j = 0 → (channel W (frame W f + j) ^^ channel W (frame W f + j + 1)) = false) := by
  have hW := h.four_le
  rw [Nat.add_assoc, channel_frame h.even f (show j < W by omega), channel_frame h.even f hj]
  constructor
  · simp
    omega
  · rintro rfl
    rw [decide_eq_false (by omega), decide_eq_false (by omega)]
    rfl

/-- A slave that waits for no word at the first rising edge of a frame sends what it holds. -/
theorem frame_shifts (h : OnBus b ins s n₀) {f : ℕ} (hn : n₀ ≤ b.rise (frame W f + 1))
    (ht : (s (b.rise (frame W f + 1))).tready = false) {j : ℕ} (hj : j < W) :
    (∀ n, b.rise (frame W f + 1) ≤ n → n ≤ b.rise (frame W f + 1 + j) → (s n).tready = false) ∧
      (0 < j → (s (b.rise (frame W f + 1 + j))).busy = false) ∧
      (s (b.rise (frame W f + 1 + j))).data_buf =
        (s (b.rise (frame W f + 1))).data_buf <<< j := by
  induction j with
  | zero =>
    refine ⟨fun n h1 h2 => ?_, fun hpos => absurd hpos (Nat.lt_irrefl 0), ?_⟩
    · rw [Nat.le_antisymm h2 h1]
      exact ht
    · rw [BitVec.shiftLeft_zero, Nat.add_zero]
  | succ j ih =>
    obtain ⟨ihr, ihb, ihd⟩ := ih (by omega)
    have hle := b.rise_mono (show frame W f + 1 ≤ frame W f + 1 + j by omega)
    have hlow := ihr _ hle (Nat.le_refl _)
    obtain ⟨hfall, hedge⟩ := h.frame_channels f hj
    rw [show frame W f + 1 + j = frame W f + j + 1 by omega] at *
    rw [show frame W f + 1 + (j + 1) = frame W f + j + 2 by omega]
    obtain ⟨hquiet, hb, hd⟩ := h.period_shifts (k := frame W f + j) (by omega) hlow hfall
    refine ⟨fun n h1 h2 => ?_, fun _ => ?_, ?_⟩
    · rcases Nat.lt_or_ge (b.rise (frame W f + j + 1)) n with hlt | hge
      · exact hquiet n hlt h2
      · exact ihr n h1 hge
    · rw [hb]
      rcases Nat.eq_zero_or_pos j with hj0 | hpos
      · rw [hedge hj0, if_neg Bool.false_ne_true]
      · rw [ihb hpos, ite_self]
    · rw [hd, ihd, BitVec.shiftLeft_add]

end OnBus

namespace IsRun

variable {W : ℕ} {b : Bus} {ins : ℕ → Inputs W} {s : ℕ → Slave W} {n₀ f₀ : ℕ}

theorem steps (h : IsRun b ins s n₀ f₀) {n : ℕ} (hn : n₀ ≤ n) :
    Slave.Steps (ins n) (s n) (s (n + 1)) := by
  rw [h.step]
  exact Slave.cycle_steps (h.released n hn) (h.valid n hn) (s n)

/-- The period that sees lrclk low for the first time: a word is taken. -/
theorem period_loads (h : IsRun b ins s n₀ f₀) {k : ℕ} (hn : n₀ ≤ b.rise (k + 1))
    (ht : (s (b.rise (k + 1))).tready = false) (hbusy : (s (b.rise (k + 1))).busy = false)
    (hhigh : channel W k = true) (hlow : channel W (k + 1) = false) :
    (∀ n, b.rise (k + 1) < n → n ≤ b.rise (k + 2) →
        ((s n).tready = true ↔ n = b.rise (k + 1) + 1)) ∧
      (s (b.rise (k + 2))).busy = true ∧
      (s (b.rise (k + 2))).data_buf = (ins (b.rise (k + 1) + 1)).tdata := by
  obtain ⟨hh, hl⟩ := b.halves k
  have hw : ∀ n, b.rise (k + 1) < n → n ≤ b.rise (k + 2) → (s n).lrclk_fall = true := by
    intro n h1 h2
    rw [(h.toOnBus.lrclk_wires h1 h2).1, hhigh, hlow]
    rfl
  -- S_AXIS_TREADY goes up at the first edge, and the word comes at the second one
  obtain ⟨htready, -, -⟩ := h.steps hn
  rw [ht, hbusy, hw _ (by omega) (by omega)] at htready
  obtain ⟨hb, -⟩ := h.toOnBus.still hn ht (h.toOnBus.not_bclk_fall (Nat.le_refl _) (Nat.le_succ _))
  obtain ⟨htready', hb', hd'⟩ := h.steps (n := b.rise (k + 1) + 1) (by omega)
  rw [htready] at htready' hb' hd'
  rw [h.toOnBus.not_bclk_fall (k := k) (by omega) (Nat.le_refl _)] at hb' hd'
  have hq : Quiet (s (b.rise (k + 1) + 1 + 1)) := ⟨htready', fun _ => hb'⟩
  obtain ⟨-, hb'', hd''⟩ := h.toOnBus.low_half (k := k) (m := b.rise (k + 1) + 1 + 1) (by omega)
    (by omega) (by omega) hq
  rw [hhigh, hlow] at hb'' hd''
  refine ⟨?_, hb''.trans hb', hd''.trans hd'⟩
  intro n h1 h2
  constructor
  · intro hr
    by_contra hne
    have hlow := (h.toOnBus.quiet_until (k := k) (n := n) (by omega) (by omega) (by omega) h2 hq).1
    rw [hlow] at hr
    cases hr
  · rintro rfl
    exact htready

/-! ## The frames -/

/-- The word of a frame. -/
def wordOf (b : Bus) (ins : ℕ → Inputs W) (f : ℕ) : BitVec W :=
  (ins (b.rise (frame W f) + 1)).tdata

/-- The slave waits for the word of a frame. -/
def Ready (b : Bus) (s : ℕ → Slave W) (f : ℕ) : Prop :=
  (∀ n, b.fall (frame W f) ≤ n → n ≤ b.rise (frame W f) → (s n).tready = false) ∧
    (s (b.rise (frame W f))).busy = false

/-- The registers at the first rising edge of a frame. -/
theorem frame_loads (h : IsRun b ins s n₀ f₀) {f : ℕ} (hn : n₀ ≤ b.rise (frame W f))
    (hr : Ready b s f) :
    (∀ n, b.rise (frame W f) < n → n ≤ b.rise (frame W f + 1) →
        ((s n).tready = true ↔ n = b.rise (frame W f) + 1)) ∧
      (s (b.rise (frame W f + 1))).busy = true ∧
      (s (b.rise (frame W f + 1))).data_buf = wordOf b ins f := by
  obtain ⟨k, hk, hhigh, hlow⟩ := exists_frame_start h.even h.four_le f
  have ht := hr.1 _ (by have := b.low_half (frame W f); omega) (Nat.le_refl _)
  have hb := hr.2
  unfold wordOf
  rw [hk] at hn ht hb ⊢
  exact h.period_loads hn ht hb hhigh hlow

/-- The registers at the rising edges of a frame, `j` periods after its first one. -/
theorem frame_rise (h : IsRun b ins s n₀ f₀) {f : ℕ} (hn : n₀ ≤ b.rise (frame W f))
    (hr : Ready b s f) {j : ℕ} (hj : j < W) :
    (s (b.rise (frame W f + 1 + j))).busy = decide (j = 0) ∧
      (s (b.rise (frame W f + 1 + j))).data_buf = wordOf b ins f <<< j ∧
      ∀ n, b.rise (frame W f) < n → n ≤ b.rise (frame W f + 1 + j) →
        ((s n).tready = true ↔ n = b.rise (frame W f) + 1) := by
  obtain ⟨hready, hbusy, hdata⟩ := h.frame_loads hn hr
  have hf := b.fall_after (show frame W f < frame W f + 1 by omega)
  have hl := b.low_half (frame W f + 1)
  have ht : (s (b.rise (frame W f + 1))).tready = false := by
    by_contra hne
    have := (hready _ (by omega) (Nat.le_refl _)).mp (by simpa using hne)
    omega
  obtain ⟨hlow, hidle, hshift⟩ := h.toOnBus.frame_shifts (by omega) ht hj
  refine ⟨?_, ?_, fun n h1 h2 => ?_⟩
  · rcases Nat.eq_zero_or_pos j with rfl | hpos
    · exact hbusy
    · rw [hidle hpos, decide_eq_false (by omega)]
  · rw [hshift, hdata]
  · rcases Nat.lt_or_ge n (b.rise (frame W f + 1)) with hlt | hge
    · exact hready n h1 (by omega)
    · rw [hlow n hge h2]
      constructor
      · intro hc
        cases hc
      · intro hc
        omega

/-- After the reset the slave is ready for the first frame. -/
theorem ready_first (h : IsRun b ins s n₀ f₀) : Ready b s f₀ := by
  obtain ⟨k, hk, hc, hc'⟩ := exists_before_frame h.four_le f₀
  have hbefore := h.before
  unfold Ready
  rw [hk] at hbefore ⊢
  rw [show k + 2 - 1 = k + 1 by omega] at hbefore
  have hl := b.low_half (k + 1)
  obtain ⟨hh, hl'⟩ := b.halves k
  -- lrclk has been high for two rising edges of bclk
  have hw := (h.toOnBus.lrclk_wires (k := k) (n := b.rise (k + 1) + 1) (by omega)
    (by omega)).1
  rw [hc, hc'] at hw
  obtain ⟨htready, -, -⟩ := h.steps (n := b.rise (k + 1)) (by omega)
  rw [hw, Bool.not_true, Bool.and_false, Bool.false_and, Bool.and_false] at htready
  have hq : Quiet (s (b.rise (k + 1) + 1)) := .of_not_fall htready hw
  obtain ⟨-, hb, -⟩ := h.toOnBus.low_half (k := k) (by omega) (Nat.lt_succ_self _) (by omega) hq
  rw [hc, hc'] at hb
  exact ⟨fun n h1 h2 =>
    (h.toOnBus.quiet_until (k := k) (by omega) (Nat.lt_succ_self _) (by omega) h2 hq).1, hb⟩

theorem released_at (h : IsRun b ins s n₀ f₀) (f : ℕ) : n₀ ≤ b.rise (frame W (f₀ + f)) := by
  have hbefore := h.before
  have hl := b.low_half (frame W f₀ - 1)
  have hm := b.rise_mono (show frame W f₀ - 1 ≤ frame W (f₀ + f) by
    unfold frame
    rw [Nat.add_mul]
    omega)
  omega

/-- A frame leaves the slave ready for the next one. -/
theorem ready_next (h : IsRun b ins s n₀ f₀) {f : ℕ} (hn : n₀ ≤ b.rise (frame W f))
    (hr : Ready b s f) : Ready b s (f + 1) := by
  have hW := h.four_le
  obtain ⟨hb, -, ht⟩ := h.frame_rise hn hr (show W - 1 < W by omega)
  rw [decide_eq_false (by omega)] at hb
  unfold Ready
  rw [show frame W f + 1 + (W - 1) = frame W (f + 1) by rw [frame_succ]; omega] at hb ht
  refine ⟨fun n h1 h2 => ?_, hb⟩
  have hf := b.fall_after (show frame W f < frame W (f + 1) by rw [frame_succ]; omega)
  by_contra hne
  have := (ht n (by omega) h2).mp (by simpa using hne)
  omega

theorem ready (h : IsRun b ins s n₀ f₀) (f : ℕ) : Ready b s (f₀ + f) := by
  induction f with
  | zero => exact h.ready_first
  | succ f ih => exact h.ready_next (h.released_at f) ih

/-- From the falling edge of lrclk on, one word is accepted for each frame. -/
theorem accepted_words (h : IsRun b ins s n₀ f₀) (f : ℕ) :
    accepted_from ins s (b.fall (frame W f₀)) (b.fall (frame W (f₀ + f))) =
      (List.range f).map fun i => wordOf b ins (f₀ + i) := by
  have hW := h.four_le
  induction f with
  | zero =>
    apply events_eq_nil
    intro n hn
    rw [if_neg (by simpa using hn)]
  | succ f ih =>
    have hr := h.ready f
    have hl := b.low_half (frame W (f₀ + f))
    have hnext := b.fall_after (show frame W (f₀ + f) < frame W (f₀ + (f + 1)) by
      rw [← Nat.add_assoc, frame_succ]
      omega)
    have hl' := b.low_half (frame W (f₀ + (f + 1)))
    obtain ⟨-, -, ht⟩ := h.frame_rise (h.released_at f) hr (show W - 1 < W by omega)
    rw [show frame W (f₀ + f) + 1 + (W - 1) = frame W (f₀ + (f + 1)) by
      rw [← Nat.add_assoc, frame_succ]; omega] at ht
    have hstart := b.fall_mono (show frame W f₀ ≤ frame W (f₀ + f) by
      unfold frame
      rw [Nat.add_mul]
      omega)
    have hword : word_at ins s (b.rise (frame W (f₀ + f)) + 1) =
        some (wordOf b ins (f₀ + f)) := by
      have hrel := h.released_at f
      unfold word_at Slave.accepts
      rw [(ht (b.rise (frame W (f₀ + f)) + 1) (by omega) (by omega)).mpr rfl,
        h.valid (b.rise (frame W (f₀ + f)) + 1) (by omega)]
      rfl
    unfold accepted_from at ih ⊢
    rw [events_of_one (a := b.fall (frame W (f₀ + f))) (c := b.rise (frame W (f₀ + f)) + 1)
      (by omega) (by omega), ih, if_pos (by omega), hword, List.range_succ, List.map_append]
    · rfl
    · intro n h1 h2 hne
      have hlow : (s n).tready = false := by
        rcases Nat.lt_or_ge (b.rise (frame W (f₀ + f))) n with hlt | hge
        · by_contra hx
          exact hne ((ht n hlt (by omega)).mp (by simpa using hx))
        · exact hr.1 n h1 hge
      unfold word_at Slave.accepts
      rw [hlow]
      simp

end IsRun

/-! ## The law -/

/-- Each frame carries one word, from the second rising edge of bclk after the falling edge of
lrclk on, and the frames carry the words in the order in which they are accepted. -/
theorem each_frame_carries_a_word {W : ℕ} {b : Bus} {ins : ℕ → Inputs W} {s : ℕ → Slave W}
    {n₀ f₀ : ℕ} (h : IsRun b ins s n₀ f₀) :
    ∃ w : ℕ → BitVec W, ∀ f,
      accepted_from ins s (b.fall (frame W f₀)) (b.fall (frame W (f₀ + f))) =
          (List.range f).map w ∧
        (List.range W).map (fun j => (s (b.rise (frame W (f₀ + f) + 1 + j))).sdata) =
          bits (w f) := by
  refine ⟨fun f => IsRun.wordOf b ins (f₀ + f), fun f => ⟨h.accepted_words f, ?_⟩⟩
  unfold bits
  apply List.map_congr_left
  intro j hj
  obtain ⟨-, hd, -⟩ := h.frame_rise (h.released_at f) (h.ready f) (List.mem_range.mp hj)
  unfold Slave.sdata
  rw [hd, msb_shiftLeft]

/-! ### A bus with words of four bits -/

/-- Each half of a period of bclk has four edges of S_AXIS_ACLK. -/
def slow_bus : Bus := ⟨fun k => 8 * k, fun k => 8 * k + 4, fun _ => by omega, fun _ => by omega⟩

def slow_inputs (n : ℕ) : Inputs 4 := ⟨decide (4 ≤ n % 8), channel 4 (n / 8), true, true, n⟩

def slow_run : ℕ → Slave 4
  | 0 => ⟨false, false, false, false, false, 0, false⟩
  | n + 1 => (slow_run n).cycle (slow_inputs n)

theorem slow_isRun : IsRun slow_bus slow_inputs slow_run 0 0 where
  even := rfl
  four_le := Nat.le_refl 4
  step _ := rfl
  low k n h1 h2 := by
    simp only [slow_bus] at h1 h2
    simp only [slow_inputs, decide_eq_false_iff_not]
    omega
  high k n h1 h2 := by
    simp only [slow_bus] at h1 h2
    simp only [slow_inputs, decide_eq_true_eq]
    omega
  lrclk k n h1 h2 := by
    simp only [slow_bus] at h1 h2
    simp only [slow_inputs]
    rw [show n / 8 = k by omega]
  released _ _ := rfl
  valid _ _ := rfl
  before := Nat.zero_le _

theorem the_slow_bus_carries_words :
    ∃ w : ℕ → BitVec 4, ∀ f,
      accepted_from slow_inputs slow_run (slow_bus.fall (frame 4 0))
          (slow_bus.fall (frame 4 (0 + f))) = (List.range f).map w ∧
        (List.range 4).map (fun j => (slow_run (slow_bus.rise (frame 4 (0 + f) + 1 + j))).sdata) =
          bits (w f) :=
  each_frame_carries_a_word slow_isRun

end i2s_slave
