-- The key schedule of the decipher engine. A captured key has an age, the
-- cycles since its capture: the key load pulse comes at age 2, the slots of the
-- key buffer are written at the ages 3 to 13, and `kdone` ends S2 at age 14.
import AesMusicPlayer.KeyRequests

open clocked

namespace aes_core

/-! ## The round keys -/

namespace InvCipherRounds

variable {Sa W : Type} (R : InvCipherRounds Sa W)

/-- The round key that the key expander gives `j` cycles after it was loaded with `k`. -/
def roundKey (k : Word) (j : ℕ) : Word := R.wk (R.next^[j] (R.kld k))

/-- The state bytes of the block `t` after `j` rounds with the key buffer `kb`. -/
def rounds (kb : ℕ → Word) (t : Word) : ℕ → Sa
  | 0 => R.init t (kb 0)
  | j + 1 => R.round (rounds kb t j) (kb (j + 1))

def decipher (kb : ℕ → Word) (t : Word) : Word := R.last (R.rounds kb t 9) (kb 10)

/-- The block that the core makes of `t` with the round keys of `k`, the last one first. -/
def decrypt (k t : Word) : Word := R.decipher (fun i => R.roundKey k (10 - i)) t

variable {R}

theorem rounds_congr {kb kb' : ℕ → Word} {j : ℕ} (h : ∀ i, i ≤ j → kb i = kb' i) (t : Word) :
    R.rounds kb t j = R.rounds kb' t j := by
  induction j with
  | zero => rw [rounds, rounds, h 0 (Nat.le_refl 0)]
  | succ j ih => rw [rounds, rounds, h (j + 1) (Nat.le_refl _), ih fun i hi => h i (by omega)]

theorem decipher_congr {kb kb' : ℕ → Word} (h : ∀ i, i ≤ 10 → kb i = kb' i) (t : Word) :
    R.decipher kb t = R.decipher kb' t := by
  unfold decipher
  rw [rounds_congr (fun i hi => h i (by omega)), h 10 (Nat.le_refl 10)]

end InvCipherRounds

namespace DecipherEngine

variable {Sa W : Type} {R : InvCipherRounds Sa W}

/-! ## The age of a key -/

/-- The registers of the key load `b` cycles after a key was captured, or with no key load
when `b` is 0. -/
structure KeyPhase (R : InvCipherRounds Sa W) (b : ℕ) (e : DecipherEngine Sa W) : Prop where
  age_le : b ≤ 14
  state : e.saxis.state = .S2 ↔ b ≠ 0
  sig_low : b = 1 → e.kload.sig = false
  sig_high : 2 ≤ b → e.kload.sig = true
  pulse : e.decipher_kload_pulse = (b == 2)
  kcnt : 3 ≤ b → b ≤ 13 → e.core.kcnt = 13 - b
  quiet : b ≤ 2 ∨ b = 14 → e.core.kcnt ≠ 0
  kb_ld : e.core.kb_ld = decide (3 ≤ b ∧ b ≤ 13)
  kdone : e.core.kdone = (b == 14)
  expand : 3 ≤ b → b ≤ 13 → e.core.expand = R.next^[b - 3] (R.kld e.saxis.key)

/-- The slots of the key buffer that are written at age `b`. -/
def Filled (R : InvCipherRounds Sa W) (b : ℕ) (e : DecipherEngine Sa W) : Prop :=
  ∀ i, i ≤ 10 → b = 0 ∨ 14 ≤ b + i → e.core.kb i = R.roundKey e.saxis.key (10 - i)

theorem keyPhase_reset (i₁ i₂ : Inputs) (e : DecipherEngine Sa W) :
    KeyPhase R 0 (e.reset R i₁ i₂) := by
  refine ⟨by omega, ?_, by omega, by omega, ?_, by omega, fun _ => ?_, ?_, ?_, by omega⟩ <;>
    simp [reset, clock, SAxisDecipher.clock, InvCipherTop.clock, PulseGen.clock,
      decipher_kload_pulse, PulseGen.pulse]

section Clock

variable {b : ℕ} {e : DecipherEngine Sa W}

theorem kload_clock (i : Inputs) :
    (e.clock R true i).kload.sig = !e.saxis.key_valid ∧
      (e.clock R true i).decipher_kload_pulse = (!e.kload.sig && !e.saxis.key_valid) := by
  refine ⟨?_, PulseGen.pulse_clock _ _⟩
  simp only [clock, PulseGen.clock_true]

/-- The key load pulse follows the age. -/
theorem KeyPhase.pulse_clock {c : ℕ} (h : KeyPhase R b e)
    (hvalid : e.saxis.key_valid = (e.saxis.state != .S2)) (i : Inputs)
    (hnext : c = b + 1 ∨ c = 0 ∧ (b = 0 ∨ b = 14)) :
    (c = 1 → (e.clock R true i).kload.sig = false) ∧
      (2 ≤ c → (e.clock R true i).kload.sig = true) ∧
      (e.clock R true i).decipher_kload_pulse = (c == 2) := by
  obtain ⟨hsig, hpulse⟩ := kload_clock (R := R) (e := e) i
  have hkey : (!e.saxis.key_valid) = decide (b ≠ 0) := by
    rw [hvalid, Bool.eq_iff_iff]
    simpa using h.state
  rw [hsig, hpulse, hkey]
  refine ⟨?_, ?_, ?_⟩
  · intro h1
    have h0 : b = 0 := by omega
    simp [h0]
  · intro h2
    have h0 : b ≠ 0 := by omega
    simp [h0]
  · rcases (by omega : b = 0 ∨ b = 1 ∨ 2 ≤ b) with rfl | rfl | h2
    · have hb : c ≠ 2 := by omega
      simp [hb]
    · have hb : c = 2 := by omega
      simp [hb, h.sig_low rfl]
    · have hb : c ≠ 2 := by omega
      simp [hb, h.sig_high h2]

theorem kcnt_clock (i : Inputs) : (e.clock R true i).core.kcnt =
    if e.decipher_kload_pulse then 10
    else if e.core.kb_ld then (e.core.kcnt + 15) % 16 else e.core.kcnt := rfl

theorem kb_ld_clock (i : Inputs) : (e.clock R true i).core.kb_ld =
    if e.decipher_kload_pulse then true
    else if e.core.kcnt = 0 then false else e.core.kb_ld := rfl

theorem kdone_clock (i : Inputs) : (e.clock R true i).core.kdone =
    (e.core.kcnt == 0 && !e.decipher_kload_pulse) := rfl

/-- The slot counter follows the age. -/
theorem KeyPhase.kcnt_clock {c : ℕ} (h : KeyPhase R b e) (i : Inputs)
    (hnext : c = b + 1 ∧ b ≤ 13 ∨ c = 0 ∧ (b = 0 ∨ b = 14)) :
    (3 ≤ c → c ≤ 13 → (e.clock R true i).core.kcnt = 13 - c) ∧
      (c ≤ 2 ∨ c = 14 → (e.clock R true i).core.kcnt ≠ 0) ∧
      (e.clock R true i).core.kb_ld = decide (3 ≤ c ∧ c ≤ 13) ∧
      (e.clock R true i).core.kdone = (c == 14) := by
  rw [DecipherEngine.kcnt_clock, kb_ld_clock, kdone_clock, h.pulse, h.kb_ld]
  rcases (by omega : b = 2 ∨ (b < 2 ∨ b = 14) ∨ (3 ≤ b ∧ b ≤ 13)) with rfl | hq | ⟨h3, h13⟩
  · obtain rfl : c = 3 := by omega
    have hne : e.core.kcnt ≠ 0 := h.quiet (by omega)
    simp
  · have hne : e.core.kcnt ≠ 0 := h.quiet (by omega)
    have hb : (b == 2) = false := by simp; omega
    have hld : decide (3 ≤ b ∧ b ≤ 13) = false := by simp; omega
    have hld' : decide (3 ≤ c ∧ c ≤ 13) = false := by simp; omega
    have hdone' : (c == 14) = false := by simp; omega
    rw [hb, hld, hld', hdone']
    refine ⟨by omega, fun _ => by simpa using hne, by simp, by simp [hne]⟩
  · have hb : (b == 2) = false := by simp; omega
    have hld : decide (3 ≤ b ∧ b ≤ 13) = true := by simp; omega
    obtain rfl : c = b + 1 := by omega
    rw [hb, hld, h.kcnt h3 h13]
    refine ⟨fun _ h13' => ?_, fun hq => ?_, ?_, ?_⟩
    · simp only [Bool.false_eq_true, if_false, if_true]
      omega
    · simp only [Bool.false_eq_true, if_false, if_true]
      omega
    · simp only [Bool.false_eq_true, if_false]
      split_ifs <;> simp <;> omega
    · rw [Bool.eq_iff_iff]
      simp
      omega

theorem expand_clock (i : Inputs) : (e.clock R true i).core.expand =
    if e.decipher_kload_pulse then R.kld e.saxis.key else R.next e.core.expand := rfl

theorem kb_clock (i : Inputs) : (e.clock R true i).core.kb =
    if e.core.kb_ld && decide (e.core.kcnt ≤ 10) then
      Function.update e.core.kb e.core.kcnt (R.wk e.core.expand)
    else e.core.kb := rfl

theorem kb_clock_of_low (i : Inputs) (h : e.core.kb_ld = false) :
    (e.clock R true i).core.kb = e.core.kb := by
  rw [kb_clock, h]
  simp

/-- The key register stays as it is in S2. -/
theorem saxis_S2 (i : Inputs) (h : e.saxis.state = .S2) :
    (e.clock R true i).saxis.key = e.saxis.key ∧
      (e.clock R true i).saxis.state = if e.core.kdone then .S0 else .S2 := by
  have hs : (e.clock R true i).saxis = e.saxis.clock true e.setup_pulse e.core.kdone e.core.done
      (e.decipher_bsy true) i := rfl
  rw [hs, SAxisDecipher.clock_S2 h]
  exact ⟨rfl, rfl⟩

/-- An age from 1 to 14 grows or ends, whatever the inputs do. -/
theorem KeyPhase.clock_S2 (h : KeyPhase R b e)
    (hvalid : e.saxis.key_valid = (e.saxis.state != .S2)) (i : Inputs) (hb : b ≠ 0) :
    KeyPhase R (if b = 14 then 0 else b + 1) (e.clock R true i) := by
  have hle := h.age_le
  obtain ⟨hkey, hstate⟩ := saxis_S2 (R := R) i (h.state.mpr hb)
  obtain ⟨h1, h2, hpulse⟩ := h.pulse_clock hvalid i
    (c := if b = 14 then 0 else b + 1) (by split_ifs <;> omega)
  obtain ⟨hkcnt, hquiet, hld, hdone⟩ := h.kcnt_clock i
    (c := if b = 14 then 0 else b + 1) (by split_ifs <;> omega)
  refine ⟨by split_ifs <;> omega, ?_, h1, h2, hpulse, hkcnt, hquiet, hld, hdone, ?_⟩
  · rw [hstate, h.kdone]
    by_cases h14 : b = 14 <;> simp [h14]
  · intro h3 h13
    have hne : b ≠ 14 := by
      rintro rfl
      rw [if_pos rfl] at h3
      omega
    rw [if_neg hne] at h3 h13 ⊢
    rw [hkey, expand_clock, h.pulse]
    by_cases hb2 : b = 2
    · rw [hb2]
      rfl
    · rw [if_neg (by simpa using hb2), h.expand (by omega) (by omega),
        show b + 1 - 3 = (b - 3) + 1 by omega, Function.iterate_succ_apply']

/-- Each age writes its slot. -/
theorem Filled.clock_S2 (h : KeyPhase R b e) (hf : Filled R b e) (i : Inputs) (hb : b ≠ 0) :
    Filled R (if b = 14 then 0 else b + 1) (e.clock R true i) := by
  have hle := h.age_le
  obtain ⟨hkey, -⟩ := saxis_S2 (R := R) i (h.state.mpr hb)
  intro j hj hage
  rw [hkey]
  by_cases hw : 3 ≤ b ∧ b ≤ 13
  · rw [if_neg (by omega)] at hage
    have hk := h.kcnt hw.1 hw.2
    rw [kb_clock, h.kb_ld, decide_eq_true hw, decide_eq_true (by omega : e.core.kcnt ≤ 10), hk]
    simp only [Bool.and_self, if_true]
    by_cases hnew : j = 13 - b
    · rw [hnew, Function.update_self, h.expand hw.1 hw.2]
      unfold InvCipherRounds.roundKey
      rw [show 10 - (13 - b) = b - 3 by omega]
    · rw [Function.update_of_ne hnew]
      exact hf j hj (by omega)
  · rw [kb_clock_of_low i (by rw [h.kb_ld]; simpa using hw)]
    apply hf j hj
    by_cases h14 : b = 14
    · omega
    · rw [if_neg h14] at hage
      omega

end Clock

/-! ## The runs -/

section Runs

variable {ins : ℕ → Inputs} {e : ℕ → DecipherEngine Sa W}

/-- The age of the key that is loaded. -/
def keyAge (ins : ℕ → Inputs) (e : ℕ → DecipherEngine Sa W) : ℕ → ℕ
  | 0 => 0
  | n + 1 => nextAge 14 ((inPort ins e).takesKey n = true) (keyAge ins e n)

/-- A key was captured before cycle `n`. -/
def Keyed (ins : ℕ → Inputs) (e : ℕ → DecipherEngine Sa W) (n : ℕ) : Prop :=
  ∃ k, k < n ∧ (inPort ins e).takesKey k = true

namespace IsRun

/-- The FSM goes to S2 with a key only. -/
theorem S2_iff_key (h : IsRun R ins e) {n : ℕ} (hs : (e n).saxis.state ≠ .S2) :
    (e (n + 1)).saxis.state = .S2 ↔ (inPort ins e).takesKey n = true := by
  constructor
  · intro h2
    rw [h.saxis_step] at h2
    apply SAxisDecipher.key_of_S2 _ h2
    rcases h.state_cases n with h0 | h1 | h2
    · exact Or.inl h0
    · exact Or.inr h1
    · exact absurd h2 hs
  · exact fun hk => (h.S2_of_key hk).1

theorem not_S2_of_key {n : ℕ} (hk : (inPort ins e).takesKey n = true) :
    (e n).saxis.state ≠ .S2 := by
  intro h2
  simp [InputPort.takesKey, inPort, h2] at hk

theorem keyPhase (h : IsRun R ins e) (n : ℕ) : KeyPhase R (keyAge ins e n) (e n) := by
  induction n with
  | zero =>
    obtain ⟨i₁, i₂, e₀, h0⟩ := h.start
    rw [h0]
    exact keyPhase_reset i₁ i₂ e₀
  | succ n ih =>
    have hvalid := (h.phase n).key_valid
    by_cases hb : keyAge ins e n = 0
    · rw [keyAge, nextAge, if_pos hb]
      have hs := h.S2_iff_key (n := n) (fun h2 => ih.state.mp h2 hb)
      rw [hb] at ih
      obtain ⟨h1, h2, hpulse⟩ := ih.pulse_clock hvalid (ins n)
        (c := if (inPort ins e).takesKey n = true then 1 else 0) (by split_ifs <;> omega)
      obtain ⟨hkcnt, hquiet, hld, hdone⟩ := ih.kcnt_clock (ins n)
        (c := if (inPort ins e).takesKey n = true then 1 else 0) (by split_ifs <;> omega)
      rw [← h.step] at h1 h2 hpulse hkcnt hquiet hld hdone
      refine ⟨by split_ifs <;> omega, ?_, h1, h2, hpulse, hkcnt, hquiet, hld, hdone, ?_⟩
      · rw [hs]
        split_ifs with hk <;> simp [hk]
      · intro h3
        split_ifs at h3 <;> omega
    · rw [keyAge, nextAge, if_neg hb, h.step]
      exact ih.clock_S2 hvalid (ins n) hb

/-- Once a key was captured, the key buffer is that of the key register, as far as it is
written. -/
theorem filled (h : IsRun R ins e) (n : ℕ) (hk : Keyed ins e n) :
    Filled R (keyAge ins e n) (e n) := by
  induction n with
  | zero =>
    obtain ⟨k, hlt, -⟩ := hk
    omega
  | succ n ih =>
    by_cases hnew : (inPort ins e).takesKey n = true
    · have hb : keyAge ins e n = 0 := by
        by_contra hne
        exact not_S2_of_key hnew ((h.keyPhase n).state.mpr hne)
      rw [keyAge, nextAge, if_pos hb, if_pos hnew]
      intro i hi hage
      omega
    · have hold : Keyed ins e n := by
        obtain ⟨k, hlt, hk⟩ := hk
        refine ⟨k, ?_, hk⟩
        by_contra hge
        obtain rfl : k = n := by omega
        exact hnew hk
      have hf := ih hold
      by_cases hb : keyAge ins e n = 0
      · rw [keyAge, nextAge, if_pos hb, if_neg hnew]
        have hld : (e n).core.kb_ld = false := by
          rw [(h.keyPhase n).kb_ld, hb]
          rfl
        have hkey : (e (n + 1)).saxis.key = (e n).saxis.key := by
          have hstep := h.inPort_laws.key_step n
          rw [if_neg hnew] at hstep
          exact hstep
        intro i hi _
        rw [hkey, h.step, kb_clock_of_low _ hld]
        exact hf i hi (Or.inl hb)
      · rw [keyAge, nextAge, if_neg hb, h.step]
        exact hf.clock_S2 (h.keyPhase n) (ins n) hb

theorem keyLine (h : IsRun R ins e) :
    OneItem 14 (fun n => (inPort ins e).takesKey n = true) (keyAge ins e) where
  pos := by omega
  start := rfl
  step _ := rfl
  empty n hk := by
    by_contra hne
    exact not_S2_of_key hk ((h.keyPhase n).state.mpr hne)

/-- The age of a block and that of a key are never both there. -/
theorem keyAge_of_block (h : IsRun R ins e) {n : ℕ} (ha : 1 ≤ blockAge ins e n) :
    keyAge ins e n = 0 := by
  by_contra hne
  have h2 := (h.keyPhase n).state.mpr hne
  rw [(h.phase n).state ha] at h2
  cases h2

theorem age_of_start (h : IsRun R ins e) {n : ℕ} (hp : (e n).decipher_start_pulse = true) :
    blockAge ins e n = 3 := by
  have hage := (h.phase n).start.pulse
  unfold decipher_start_pulse at hp
  rw [hage, beq_iff_eq] at hp
  exact hp

/-- The FSM leaves S2 after all slots were written for the key that brought it there. -/
theorem slots_written (h : IsRun R ins e) {n : ℕ} (hs : (e n).saxis.state = .S2)
    (hs' : (e (n + 1)).saxis.state ≠ .S2) :
    ∃ c, c < n ∧ (inPort ins e).takesKey c = true ∧
      (∀ j, c < j → j ≤ n → (e j).saxis.state = .S2) ∧
      ∀ i, i ≤ 10 → ∃ k, c < k ∧ k < n ∧ (e k).core.kb_ld = true ∧ (e k).core.kcnt = i := by
  have hb := (h.keyPhase n).state.mp hs
  have hb' : keyAge ins e (n + 1) = 0 := by
    by_contra hne
    exact hs' ((h.keyPhase (n + 1)).state.mpr hne)
  have h14 : keyAge ins e n = 14 := by
    rw [keyAge, nextAge, if_neg hb] at hb'
    split_ifs at hb'
    assumption
  obtain ⟨c, hc, hn⟩ := (h.keyLine.age_eq_iff (by omega) (by omega)).mp h14
  refine ⟨c, by omega, hc, ?_, ?_⟩
  · intro j hcj hjn
    have hage := h.keyLine.age_add hc (j - c) (by omega) (by omega)
    rw [show c + (j - c) = j by omega] at hage
    apply (h.keyPhase j).state.mpr
    omega
  · intro i hi
    have hage := h.keyLine.age_add hc (13 - i) (by omega) (by omega)
    have hk := h.keyPhase (c + (13 - i))
    rw [hage] at hk
    refine ⟨c + (13 - i), by omega, by omega, ?_, ?_⟩
    · rw [hk.kb_ld]
      simp
      omega
    · rw [hk.kcnt (by omega) (by omega)]
      omega

end IsRun

end Runs

/-! ## The rounds of a block -/

/-- What the core has made of the block in `data` at age `a`, with its key buffer. -/
structure Progress (R : InvCipherRounds Sa W) (a : ℕ) (e : DecipherEngine Sa W) : Prop where
  loaded : a = 4 → e.core.ld_r = true ∧ e.core.text_in_r = e.saxis.data ∧
    e.core.w = e.core.kb 0
  rounds : ∀ j, j ≤ 9 → a = j + 5 → e.core.ld_r = false ∧
    e.core.sa = R.rounds e.core.kb e.saxis.data j ∧ e.core.w = e.core.kb (j + 1)
  out : a = 15 → e.core.text_out = R.decipher e.core.kb e.saxis.data

theorem progress_clock {a : ℕ} {e : DecipherEngine Sa W} (h : Phase a e)
    (hld : 1 ≤ a → e.core.kb_ld = false) (hp : Progress R a e) (i : Inputs) :
    Progress R (nextAge 15 (e.captures i = true) a) (e.clock R true i) := by
  rcases (by have := h.age_le; omega : a = 0 ∨ a = 15 ∨ (1 ≤ a ∧ a ≤ 14)) with rfl | rfl | ⟨h1, h14⟩
  · rw [nextAge, if_pos rfl]
    split_ifs <;> exact ⟨by omega, fun j _ h => by omega, by omega⟩
  · rw [nextAge, if_neg (by omega), if_pos rfl]
    exact ⟨by omega, fun j _ h => by omega, by omega⟩
  · rw [nextAge, if_neg (by omega), if_neg (by omega)]
    have hkb := kb_clock_of_low (R := R) i (hld h1)
    have hdone : e.core.done = false := by rw [h.done]; simp; omega
    have hdata : (e.clock R true i).saxis.data = e.saxis.data := by
      rw [saxis_waits i (h.state h1) hdone]
    have hw : (e.clock R true i).core.w = e.core.kb e.core.dcnt := rfl
    have hpulse : e.decipher_start_pulse = (a == 3) := h.start.pulse
    constructor
    · intro h4
      obtain rfl : a = 3 := by omega
      rw [hkb, hdata, hw, h.dcnt]
      simp [clock, InvCipherTop.clock, hpulse]
    · intro j hj hj5
      have hlow : e.decipher_start_pulse = false := by rw [hpulse]; simp; omega
      rw [hkb, hdata, hw, h.dcnt, if_pos (by omega), show a - 3 = j + 1 by omega]
      cases j with
      | zero =>
        obtain ⟨h1, h2, h3⟩ := hp.loaded (by omega)
        simp [clock, InvCipherTop.clock, hlow, h1, h2, h3, InvCipherRounds.rounds]
      | succ j =>
        obtain ⟨h1, h2, h3⟩ := hp.rounds j (by omega) (by omega)
        simp [clock, InvCipherTop.clock, hlow, h1, h2, h3, InvCipherRounds.rounds]
    · intro h15
      obtain ⟨-, h2, h3⟩ := hp.rounds 9 (by omega) (by omega)
      rw [hkb, hdata]
      simp [clock, InvCipherTop.clock, h2, h3, InvCipherRounds.decipher]

namespace IsRun

variable {ins : ℕ → Inputs} {e : ℕ → DecipherEngine Sa W}

theorem progress (h : IsRun R ins e) (n : ℕ) : Progress R (blockAge ins e n) (e n) := by
  induction n with
  | zero =>
    rw [blockAge]
    exact ⟨by omega, fun j _ h => by omega, by omega⟩
  | succ n ih =>
    rw [blockAge, h.step]
    refine progress_clock (h.phase n) (fun ha => ?_) ih (ins n)
    rw [(h.keyPhase n).kb_ld, h.keyAge_of_block ha]
    rfl

theorem age_of_capture (h : IsRun R ins e) {c : ℕ} (hc : (inPort ins e).takesData c = true) (a : ℕ)
    (h1 : 1 ≤ a) (h15 : a ≤ 15) : blockAge ins e (c + a) = a :=
  h.pipe.one_item.age_add hc a h1 h15

/-- No key is captured from the capture of a block to its `done`. -/
theorem no_key_of_block (h : IsRun R ins e) {c n : ℕ} (hc : (inPort ins e).takesData c = true)
    (hcn : c ≤ n) (hn : n < c + 15) : ¬ (inPort ins e).takesKey n = true := by
  intro hk
  rcases Nat.eq_or_lt_of_le hcn with rfl | hlt
  · exact InputPort.key_or_data c ⟨hk, hc⟩
  · have hage := h.age_of_capture hc (n - c) (by omega) (by omega)
    rw [show c + (n - c) = n by omega] at hage
    have hdone := (h.phase n).done
    have hst := (h.phase n).state (by rw [hage]; omega)
    rw [hage] at hdone
    have hlow : (e n).core.done = false := by
      rw [hdone]
      simp
      omega
    simp [InputPort.takesKey, inPort, hst, hlow] at hk

/-- A block stays in the data register until its `done`. -/
theorem data_until_done (h : IsRun R ins e) {c : ℕ} (hc : (inPort ins e).takesData c = true)
    (a : ℕ) (h1 : 1 ≤ a) (h15 : a ≤ 15) : (e (c + a)).saxis.data = (ins c).tdata := by
  apply loaded_last h.inPort_laws.data_step hc (by omega)
  intro j hcj hj hd
  have hspaced := h.pipe.one_item.spaced hc hd hcj
  omega

/-- The key register holds the last captured key. -/
theorem key_of_last (h : IsRun R ins e) {k n : ℕ} (hk : (inPort ins e).takesKey k = true)
    (hlt : k < n) (hlast : ∀ j, k < j → j < n → ¬ (inPort ins e).takesKey j = true) :
    (e n).saxis.key = (ins k).tdata :=
  loaded_last h.inPort_laws.key_step hk hlt hlast

/-- The result of a block that was captured with the key of cycle `k`. -/
theorem block_of_last_key (h : IsRun R ins e) {k c : ℕ} (hk : (inPort ins e).takesKey k = true)
    (hc : (inPort ins e).takesData c = true) (hkc : k < c)
    (hlast : ∀ j, k < j → j < c → ¬ (inPort ins e).takesKey j = true) :
    (e (c + 15)).core.text_out = R.decrypt (ins k).tdata (ins c).tdata := by
  have hage := h.age_of_capture hc 15 (by omega) (by omega)
  have hout := (h.progress (c + 15)).out hage
  have hkey : (e (c + 15)).saxis.key = (ins k).tdata := by
    apply h.key_of_last hk (by omega)
    intro j h1 h2
    rcases Nat.lt_or_ge j c with hjc | hcj
    · exact hlast j h1 hjc
    · exact h.no_key_of_block hc hcj h2
  have hblock : 1 ≤ blockAge ins e (c + 15) := by
    rw [hage]
    omega
  have hfill := h.filled (c + 15) ⟨k, by omega, hk⟩
  rw [h.keyAge_of_block hblock] at hfill
  rw [hout, h.data_until_done hc 15 (by omega) (by omega)]
  apply InvCipherRounds.decipher_congr
  intro i hi
  rw [hfill i hi (Or.inl rfl), hkey]

end IsRun

/-! ## The law -/

/-- The key buffer and the blocks of a run are in step. -/
structure KeysInStep (R : InvCipherRounds Sa W) (ins : ℕ → Inputs)
    (e : ℕ → DecipherEngine Sa W) : Prop where
  no_load : ∀ n, (e n).decipher_start_pulse = true →
    (e n).decipher_kload_pulse = false ∧ (e n).core.kb_ld = false
  all_slots : ∀ n, (e n).saxis.state = .S2 → (e (n + 1)).saxis.state ≠ .S2 →
    ∃ c, c < n ∧ (inPort ins e).takesKey c = true ∧
      (∀ j, c < j → j ≤ n → (e j).saxis.state = .S2) ∧
      ∀ i, i ≤ 10 → ∃ k, c < k ∧ k < n ∧ (e k).core.kb_ld = true ∧ (e k).core.kcnt = i
  round_keys : ∀ n, (e n).decipher_start_pulse = true → Keyed ins e n →
    ∀ i, i ≤ 10 → (e n).core.kb i = R.roundKey (e n).saxis.key (10 - i)
  one_key : ∀ k c, (inPort ins e).takesKey k = true → (inPort ins e).takesData c = true → k < c →
    (∀ j, k < j → j < c → ¬ (inPort ins e).takesKey j = true) →
    (e (c + 15)).core.done = true ∧
      (e (c + 15)).core.text_out = R.decrypt (ins k).tdata (ins c).tdata

/-- From any reset, with any inputs, each block is decrypted under the last key before it. -/
theorem each_block_has_the_last_key (R : InvCipherRounds Sa W) (i₁ i₂ : Inputs)
    (e₀ : DecipherEngine Sa W) (ins : ℕ → Inputs) : KeysInStep R ins (cycles R i₁ i₂ e₀ ins) := by
  have h := cycles_isRun R i₁ i₂ e₀ ins
  generalize cycles R i₁ i₂ e₀ ins = e at h
  have hload : ∀ n, (e n).decipher_start_pulse = true → keyAge ins e n = 0 := by
    intro n hp
    apply h.keyAge_of_block
    rw [h.age_of_start hp]
    omega
  refine ⟨?_, fun n hs hs' => h.slots_written hs hs', ?_, ?_⟩
  · intro n hp
    have hk := h.keyPhase n
    rw [hk.pulse, hk.kb_ld, hload n hp]
    exact ⟨rfl, rfl⟩
  · intro n hp hkeyed i hi
    exact h.filled n hkeyed i hi (Or.inl (hload n hp))
  · intro k c hk hc hkc hlast
    refine ⟨?_, h.block_of_last_key hk hc hkc hlast⟩
    rw [(h.phase (c + 15)).done, h.age_of_capture hc 15 (by omega) (by omega)]
    rfl

end DecipherEngine

end aes_core
