-- The laws of the SPI master over whole runs: what stands on `mosi` and `ss`
-- at the edges of `sclk`, and what comes back on M_AXIS.
import AesMusicPlayer.SpiPhases

open clocked serial

namespace spi_master

variable {p : Params}

namespace Phase

/-- The bit on `mosi` at an edge at which `sclk` rises. -/
def out (steps : Bool) : Phase p → Option Bool
  | .setup _ w c => if steps then some (w.word.getMsbD (c - 1)) else none
  | _ => none

theorem words_append (ws vs : List (Accepted p)) : words (ws ++ vs) = words ws ++ words vs :=
  List.map_append

theorem accepted_next {ph : Phase p} {t : Bool} {a : Option (Accepted p)}
    (ha : a ≠ none → ph.ready = true) : (ph.next t a).accepted = ph.accepted ++ a.toList := by
  have hnone : ph.ready = false → a = none := by
    intro hno
    by_contra hne
    rw [ha hne] at hno
    cases hno
  cases ph with
  | idle sent => cases a <;> simp [next, accepted]
  | ending sent w => cases a <;> cases t <;> simp [next, accepted]
  | loaded sent w =>
    obtain rfl := hnone rfl
    cases t <;> simp [next, accepted]
  | setup sent w c =>
    obtain rfl := hnone rfl
    simp only [next]
    split_ifs <;> simp [accepted]
  | hold sent w c =>
    obtain rfl := hnone rfl
    cases t <;> simp [next, accepted]
  | queued sent w w' =>
    obtain rfl := hnone rfl
    simp only [next]
    split_ifs <;> simp [accepted]

/-- A step from `setup` puts one more bit out, and no other edge does. -/
theorem bits_next {ph : Phase p} {s : Master p} (h : Holds s ph) (t : Bool)
    (a : Option (Accepted p)) : (ph.next t a).bits = ph.bits ++ (ph.out t).toList := by
  cases ph with
  | idle sent => cases a <;> simp [next, bits, out]
  | loaded sent w => cases t <;> simp [next, bits, out]
  | setup sent w c =>
    obtain ⟨-, -, h1, hW, -⟩ := h
    cases t with
    | false => simp [next, bits, out]
    | true =>
      have htake := take_bits_succ w.word (show c - 1 < p.WIDTH by omega)
      rw [Nat.sub_add_cancel h1] at htake
      simp only [next, if_true]
      by_cases hcW : c = p.WIDTH
      · rw [if_pos hcW]
        have hall : (serial.bits w.word).take c = serial.bits w.word := by
          rw [hcW]
          exact take_bits_self w.word
        simp only [bits, out, words_append, wordBits_append, if_true, Option.toList_some,
          List.append_assoc]
        rw [← htake, hall]
        simp [words]
      · rw [if_neg hcW]
        simp only [bits, out, if_true, Option.toList_some, List.append_assoc]
        rw [htake]
  | hold sent w c => cases t <;> simp [next, bits, out]
  | ending sent w => cases a <;> cases t <;> simp [next, bits, out]
  | queued sent w w' =>
    simp only [next]
    split_ifs <;> simp [bits, out]

/-- The bits that are out are the first bits of the accepted words. -/
theorem bits_prefix (ph : Phase p) : ph.bits <+: wordBits (words ph.accepted) := by
  cases ph with
  | idle sent => exact List.prefix_refl _
  | loaded sent w => exact wordBits_prefix ((List.prefix_append _ _).map Accepted.word)
  | setup sent w c =>
    simp only [bits, accepted, words_append, wordBits_append]
    rw [List.prefix_append_right_inj]
    simpa [words] using List.take_prefix (c - 1) (serial.bits w.word)
  | hold sent w c =>
    simp only [bits, accepted, words_append, wordBits_append]
    rw [List.prefix_append_right_inj]
    simpa [words] using List.take_prefix c (serial.bits w.word)
  | ending sent w => exact List.prefix_refl _
  | queued sent w w' =>
    have hpre : sent ++ [w] <+: sent ++ [w, w'] := ⟨[w'], by simp⟩
    exact wordBits_prefix (hpre.map Accepted.word)

end Phase

/-! ## The runs -/

/-- A run from the initial registers without a reset, with a sender that offers words until
a packet is through. -/
structure IsRun (ins : ℕ → Inputs p) (s : ℕ → Master p) : Prop where
  start : s 0 = Master.initial p
  step : ∀ n, s (n + 1) = (s n).clock (ins n)
  no_reset : ∀ n, (ins n).aresetn = true
  sender : ∀ n, Phase.InPacket (accepted ins s n) → (ins n).s_axis_tvalid = true

/-- The phase in each cycle. -/
def phase (ins : ℕ → Inputs p) (s : ℕ → Master p) : ℕ → Phase p
  | 0 => .idle []
  | n + 1 => (phase ins s n).next (s n).steps ((s n).accepted_word (ins n))

theorem Holds.ready_of_accepts {s : Master p} {ph : Phase p} (h : Holds s ph) (i : Inputs p) :
    s.accepted_word i ≠ none → ph.ready = true := by
  intro hne
  unfold Master.accepted_word at hne
  have hready : s.spi_ready = true := by
    by_contra hno
    rw [if_neg] at hne
    · exact hne rfl
    · rw [Master.not_accepts_of_not_ready (by simpa using hno)]
      simp
  cases ph with
  | idle _ | ending _ _ => rfl
  | loaded _ _ | setup _ _ _ | hold _ _ _ | queued _ _ _ => rw [h.2.1] at hready; cases hready

/-- The state register of a phase. -/
def Phase.fsm : Phase p → Fsm
  | .idle _ | .loaded _ _ => .S0
  | .setup _ _ _ => .S1
  | .hold _ _ _ | .ending _ _ | .queued _ _ _ => .S2

theorem Holds.state {s : Master p} {ph : Phase p} (h : Holds s ph) : s.state = ph.fsm := by
  cases ph <;> exact h.1

/-- A step that leaves `setup` is the one that raises `sclk`. -/
theorem Phase.rises_iff (ph : Phase p) (t : Bool) (a : Option (Accepted p)) :
    (ph.fsm ≠ .S2 ∧ (ph.next t a).fsm = .S2) ↔ (ph.out t).isSome = true := by
  cases ph with
  | idle sent => cases a <;> simp [next, fsm, out]
  | loaded sent w => cases t <;> simp [next, fsm, out]
  | setup sent w c =>
    simp only [next, out]
    split_ifs <;> simp [fsm]
  | hold sent w c => simp [fsm, out]
  | ending sent w => simp [fsm, out]
  | queued sent w w' => simp [fsm, out]

/-! ## Any sender -/

/-- A run without a reset, from any registers. -/
structure Released (ins : ℕ → Inputs p) (s : ℕ → Master p) : Prop where
  step : ∀ n, s (n + 1) = (s n).clock (ins n)
  no_reset : ∀ n, (ins n).aresetn = true

/-- A run without a reset, from registers that hold no word. -/
structure FromIdle (ins : ℕ → Inputs p) (s : ℕ → Master p) : Prop extends Released ins s where
  start : Holds (s 0) (.idle [])

/-! ### The steps go on -/

namespace Released

variable {ins : ℕ → Inputs p} {s : ℕ → Master p}

theorem clk_counter_add (h : Released ins s) (n k : ℕ) :
    (s (n + k)).clk_counter.toNat = ((s n).clk_counter.toNat + k) % p.period := by
  induction k with
  | zero => exact (Nat.mod_eq_of_lt (s n).clk_counter.isLt).symm
  | succ k ih =>
    rw [← Nat.add_assoc, h.step, Master.clk_counter_clock _ _ (h.no_reset _), BitVec.toNat_add, ih]
    have hone : (1 : BitVec (clog2 p.CLOCK_DIVISOR + 1)).toNat = 1 := by
      have hlt : 1 < 2 ^ (clog2 p.CLOCK_DIVISOR + 1) := Nat.one_lt_two_pow (Nat.succ_ne_zero _)
      exact Nat.mod_eq_of_lt hlt
    rw [hone]
    unfold Params.period
    rw [Nat.mod_add_mod, Nat.add_assoc]

theorem exists_steps (h : Released ins s) (n : ℕ) :
    ∃ m, FirstHigh (fun k => (s k).steps) n m := by
  have hc := (s n).clk_counter.isLt
  have hD := p.divisor_lt
  have hk : (s (n + (p.CLOCK_DIVISOR + p.period - (s n).clk_counter.toNat))).steps = true := by
    have hc' : (s n).clk_counter.toNat < p.period := hc
    unfold Master.steps
    rw [h.clk_counter_add, beq_iff_eq]
    rw [show (s n).clk_counter.toNat + (p.CLOCK_DIVISOR + p.period - (s n).clk_counter.toNat) =
      p.CLOCK_DIVISOR + p.period by omega, Nat.add_mod_right, Nat.mod_eq_of_lt hD]
  exact @exists_firstHigh (fun k => (s k).steps) _ _ (Nat.le_add_right n _) hk

end Released

/-- A word is loaded or on the line. -/
def IsRun.Pending : Phase p → Prop
  | .idle _ | .ending _ _ => False
  | _ => True

namespace FromIdle

variable {ins : ℕ → Inputs p} {s : ℕ → Master p}

theorem holds (h : FromIdle ins s) (n : ℕ) : Holds (s n) (phase ins s n) := by
  induction n with
  | zero => exact h.start
  | succ n ih =>
    rw [h.step]
    exact holds_clock (h.no_reset n) ih

theorem accepted_eq (h : FromIdle ins s) (n : ℕ) :
    accepted ins s n = (phase ins s n).accepted := by
  induction n with
  | zero => rfl
  | succ n ih =>
    rw [phase, Phase.accepted_next ((h.holds n).ready_of_accepts (ins n)), ← ih]
    rfl

/-- `sclk` rises when a step leaves `setup`. -/
theorem mosi_at_eq (h : FromIdle ins s) (n : ℕ) :
    mosi_at s n = (phase ins s n).out (s n).steps := by
  have hrises : rises s n = true ↔ ((phase ins s n).out (s n).steps).isSome = true := by
    have hnext := (h.holds (n + 1)).state
    rw [phase] at hnext
    rw [← Phase.rises_iff _ _ ((s n).accepted_word (ins n)), ← (h.holds n).state, ← hnext]
    unfold rises Master.sclk
    simp
  unfold mosi_at
  cases hout : (phase ins s n).out (s n).steps with
  | none =>
    rw [hout] at hrises
    rw [if_neg (by rw [hrises]; simp)]
  | some b =>
    rw [hout] at hrises
    rw [if_pos (hrises.mpr rfl)]
    have hnow := h.holds n
    revert hnow hout
    cases phase ins s n with
    | setup sent w c =>
      intro hout hnow
      rw [hnow.2.2.2.2.2.1]
      simp only [Phase.out] at hout
      split_ifs at hout
      exact hout
    | _ => intro hout; cases hout

theorem mosi_bits_eq (h : FromIdle ins s) (n : ℕ) : mosi_bits s n = (phase ins s n).bits := by
  induction n with
  | zero => rfl
  | succ n ih =>
    rw [phase, Phase.bits_next (h.holds n), ← ih, ← h.mosi_at_eq]
    rfl

/-- Nothing but the accepted words is on `mosi`. -/
theorem mosi_prefix (h : FromIdle ins s) (n : ℕ) :
    mosi_bits s n <+: wordBits (Phase.words (accepted ins s n)) := by
  rw [h.mosi_bits_eq, h.accepted_eq]
  exact Phase.bits_prefix _

/-! ## All words come out -/

/-- Such a phase stays until the next step. -/
theorem phase_until_step {n m : ℕ} (hp : IsRun.Pending (phase ins s n))
    (hm : FirstHigh (fun k => (s k).steps) n m) : phase ins s m = phase ins s n := by
  obtain ⟨hle, -, hlow⟩ := hm
  induction m, hle using Nat.le_induction with
  | base => rfl
  | succ m hle ih =>
    have hm := ih fun k h1 h2 => hlow k h1 (Nat.lt_succ_of_lt h2)
    have hst : (s m).steps = false := hlow m hle (Nat.lt_succ_self m)
    rw [phase, hm, hst]
    cases hph : phase ins s n with
    | idle sent => rw [hph] at hp; cases hp
    | ending sent w => rw [hph] at hp; cases hp
    | _ => rfl

/-- The phase after the next step. -/
theorem phase_after_step (h : FromIdle ins s) {n : ℕ} (hp : IsRun.Pending (phase ins s n)) :
    ∃ m, n ≤ m ∧ phase ins s (m + 1) =
      (phase ins s n).next true ((s m).accepted_word (ins m)) := by
  obtain ⟨m, hm⟩ := h.exists_steps n
  refine ⟨m, hm.1, ?_⟩
  rw [phase, phase_until_step hp hm, show (s m).steps = true from hm.2.1]

theorem more_of_setup (h : FromIdle ins s) {n : ℕ} {sent : List (Accepted p)} {w : Accepted p} {c : ℕ}
    (hph : phase ins s n = .setup sent w c) :
    ∃ m, n ≤ m ∧ (mosi_bits s n).length < (mosi_bits s m).length := by
  obtain ⟨m, hle, hm⟩ := h.phase_after_step (n := n) (by rw [hph]; trivial)
  refine ⟨m + 1, by omega, ?_⟩
  rw [h.mosi_bits_eq, h.mosi_bits_eq, hm, Phase.bits_next (h.holds n), List.length_append, hph]
  exact Nat.lt_add_of_pos_right (Nat.zero_lt_one)

theorem more_of_step (h : FromIdle ins s) {n : ℕ} (hp : IsRun.Pending (phase ins s n))
    (hnext : ∀ a, ∃ sent w c, (phase ins s n).next true a = .setup sent w c) :
    ∃ m, n ≤ m ∧ (mosi_bits s n).length < (mosi_bits s m).length := by
  obtain ⟨m, hle, hm⟩ := h.phase_after_step hp
  obtain ⟨sent, w, c, hset⟩ := hnext ((s m).accepted_word (ins m))
  obtain ⟨k, hk, hlt⟩ := h.more_of_setup (hm.trans hset)
  have hmono := (events_mono (mosi_at s) (show n ≤ m + 1 by omega)).length_le
  exact ⟨k, by omega, Nat.lt_of_le_of_lt hmono hlt⟩

/-- While a word is pending, one more bit comes out. -/
theorem more (h : FromIdle ins s) {n : ℕ} (hp : IsRun.Pending (phase ins s n)) :
    ∃ m, n ≤ m ∧ (mosi_bits s n).length < (mosi_bits s m).length := by
  cases hph : phase ins s n with
  | idle sent => rw [hph] at hp; cases hp
  | ending sent w => rw [hph] at hp; cases hp
  | setup sent w c => exact h.more_of_setup hph
  | loaded sent w =>
    apply h.more_of_step hp
    rw [hph]
    exact fun _ => ⟨sent, w, 1, rfl⟩
  | hold sent w c =>
    apply h.more_of_step hp
    rw [hph]
    exact fun _ => ⟨sent, w, c + 1, rfl⟩
  | queued sent w w' =>
    cases hlast : w.last with
    | false =>
      apply h.more_of_step hp
      rw [hph]
      intro a
      refine ⟨sent ++ [w], w', 1, ?_⟩
      simp only [Phase.next, hlast, Bool.false_eq_true, if_false, if_true]
    | true =>
      obtain ⟨m, hle, hm⟩ := h.phase_after_step hp
      have hload : phase ins s (m + 1) = .loaded (sent ++ [w]) w' := by
        rw [hm, hph]
        simp only [Phase.next, hlast, if_true]
      obtain ⟨k, hk, hlt⟩ := h.more_of_step (n := m + 1) (by rw [hload]; trivial) (by
        rw [hload]
        exact fun _ => ⟨_, _, 1, rfl⟩)
      have hmono := (events_mono (mosi_at s) (show n ≤ m + 1 by omega)).length_le
      exact ⟨k, by omega, Nat.lt_of_le_of_lt hmono hlt⟩

theorem pending_of_lt (h : FromIdle ins s) {n : ℕ}
    (hlt : (mosi_bits s n).length < p.WIDTH * (accepted ins s n).length) :
    IsRun.Pending (phase ins s n) := by
  rw [h.mosi_bits_eq, h.accepted_eq] at hlt
  cases hph : phase ins s n with
  | idle sent =>
    rw [hph] at hlt
    simp [Phase.bits, Phase.accepted, Phase.words] at hlt
  | ending sent w =>
    rw [hph] at hlt
    simp only [Phase.bits, Phase.accepted, wordBits_length, Phase.words, List.length_map] at hlt
    exact absurd hlt (Nat.lt_irrefl _)
  | _ => trivial

/-- The bits of the first `k` accepted words come out. -/
theorem exists_sent (h : FromIdle ins s) (k : ℕ) {n : ℕ} (hk : k ≤ (accepted ins s n).length) :
    ∃ m, n ≤ m ∧ p.WIDTH * k ≤ (mosi_bits s m).length := by
  -- by the number of bits that are missing
  induction hd : p.WIDTH * k - (mosi_bits s n).length using Nat.strong_induction_on
    generalizing n with
  | _ d ih =>
    by_cases hdone : p.WIDTH * k ≤ (mosi_bits s n).length
    · exact ⟨n, Nat.le_refl n, hdone⟩
    · have hmul := Nat.mul_le_mul_left p.WIDTH hk
      obtain ⟨m, hle, hlt⟩ := h.more (h.pending_of_lt (n := n) (by omega))
      have hmono := (events_mono (fun n => (s n).accepted_word (ins n)) hle).length_le
      obtain ⟨m', hle', hm'⟩ := ih _ (by omega) (Nat.le_trans hk hmono) rfl
      exact ⟨m', by omega, hm'⟩

/-- What stands on `mosi` at the edges of `sclk`: nothing but the accepted words, and all of
them. -/
theorem mosi_law (h : FromIdle ins s) (n : ℕ) :
    mosi_bits s n <+: wordBits (Phase.words (accepted ins s n)) ∧
      ∃ m, wordBits (Phase.words (accepted ins s n)) <+: mosi_bits s m := by
  refine ⟨h.mosi_prefix n, ?_⟩
  obtain ⟨m, hle, hm⟩ := h.exists_sent _ (Nat.le_refl (accepted ins s n).length)
  refine ⟨m, List.prefix_of_prefix_length_le ?_ (h.mosi_prefix m) ?_⟩
  · exact wordBits_prefix ((events_mono _ hle).map Accepted.word)
  · rw [wordBits_length]
    simpa [Phase.words] using hm

end FromIdle

namespace IsRun

variable {ins : ℕ → Inputs p} {s : ℕ → Master p}

theorem fromIdle (h : IsRun ins s) : FromIdle ins s := by
  refine ⟨⟨h.step, h.no_reset⟩, ?_⟩
  rw [h.start]
  exact ⟨rfl, rfl⟩

theorem inPackets (h : IsRun ins s) (n : ℕ) : InPackets (s n) (phase ins s n) := by
  induction n with
  | zero =>
    intro ws' w heq
    exact absurd heq.symm (List.append_ne_nil_of_right_ne_nil _ (List.cons_ne_nil _ _))
  | succ n ih =>
    rw [h.step]
    apply inPackets_clock (h.no_reset n) _ (h.fromIdle.holds n) ih
    rw [← h.fromIdle.accepted_eq]
    exact h.sender n

theorem shows (h : IsRun ins s) (n : ℕ) : Shows (s n) (phase ins s n) :=
  shows_iff.mpr ⟨h.fromIdle.holds n, h.inPackets n⟩

theorem accepted_eq (h : IsRun ins s) (n : ℕ) : accepted ins s n = (phase ins s n).accepted :=
  h.fromIdle.accepted_eq n

theorem mosi_bits_eq (h : IsRun ins s) (n : ℕ) : mosi_bits s n = (phase ins s n).bits :=
  h.fromIdle.mosi_bits_eq n

end IsRun

/-! ## The packets -/

/-- The packets that have ended among the words that are out. -/
def packets (ins : ℕ → Inputs p) (s : ℕ → Master p) (n : ℕ) : ℕ :=
  ((accepted ins s n).take ((mosi_bits s n).length / p.WIDTH)).countP Accepted.last

/-- The packets that have ended before the word on the line. -/
def Phase.ended (ph : Phase p) : ℕ := ph.sent.countP Accepted.last

/-- While the master does not pass S0, the word that is done ends no packet. -/
theorem Phase.ended_next {s : Master p} {ph : Phase p} (h : Shows s ph) {t : Bool}
    {a : Option (Accepted p)} (hS0 : ph.fsm ≠ .S0) (hS0' : (ph.next t a).fsm ≠ .S0) :
    (ph.next t a).ended = ph.ended := by
  cases ph with
  | idle sent => exact absurd rfl hS0
  | loaded sent w => exact absurd rfl hS0
  | setup sent w c =>
    simp only [next]
    split_ifs <;> rfl
  | hold sent w c => cases t <;> rfl
  | ending sent w =>
    cases a with
    | none =>
      cases t with
      | false => rfl
      | true => exact absurd rfl hS0'
    | some w' =>
      cases t with
      | false => rfl
      | true => exact absurd rfl hS0'
  | queued sent w w' =>
    cases t with
    | false => rfl
    | true =>
      cases hlast : w.last with
      | true => exact absurd (by simp [next, fsm, hlast]) hS0'
      | false =>
        simp only [next, hlast, if_true, Bool.false_eq_true, if_false]
        simp [ended, Phase.sent, hlast]

namespace IsRun

variable {ins : ℕ → Inputs p} {s : ℕ → Master p}

/-- `sclk` rises in `setup` only. -/
theorem setup_of_rises (h : IsRun ins s) {n : ℕ} (hr : rises s n = true) :
    ∃ sent w c, phase ins s n = .setup sent w c := by
  have hout := h.fromIdle.mosi_at_eq n
  unfold mosi_at at hout
  rw [if_pos hr] at hout
  cases hph : phase ins s n with
  | setup sent w c => exact ⟨sent, w, c, rfl⟩
  | _ => rw [hph] at hout; cases hout

/-- At an edge of `sclk`, the packets before the word on the line have ended. -/
theorem packets_of_rises (h : IsRun ins s) {n : ℕ} (hr : rises s n = true) :
    packets ins s n = (phase ins s n).ended := by
  obtain ⟨sent, w, c, hph⟩ := h.setup_of_rises hr
  have hshows := h.shows n
  rw [hph] at hshows
  obtain ⟨-, -, h1, hW, -⟩ := hshows
  have hlen : (Phase.setup sent w c).bits.length = p.WIDTH * sent.length + (c - 1) := by
    simp only [Phase.bits, List.length_append, wordBits_length, Phase.words, List.length_map,
      List.length_take, bits_length]
    omega
  have hdiv : (p.WIDTH * sent.length + (c - 1)) / p.WIDTH = sent.length := by
    rw [Nat.mul_add_div (by omega), Nat.div_eq_of_lt (by omega), Nat.add_zero]
  unfold packets
  rw [h.mosi_bits_eq, h.accepted_eq, hph, hlen, hdiv]
  simp [Phase.accepted, Phase.ended, Phase.sent]

theorem ss_of_S0 (h : IsRun ins s) {n : ℕ} (hss : (s n).ss = true) :
    mosi_bits s n = wordBits (Phase.words (phase ins s n).sent) ∧
      (phase ins s n).sent <+: accepted ins s n ∧ Phase.Ended (phase ins s n).sent := by
  have hshows := h.shows n
  have hst : (phase ins s n).fsm = .S0 := by
    rw [← hshows.holds.state]
    simpa [Master.ss] using hss
  rw [h.mosi_bits_eq, h.accepted_eq]
  revert hshows hst
  cases phase ins s n with
  | idle sent => exact fun hshows _ => ⟨rfl, List.prefix_refl _, hshows.2.2⟩
  | loaded sent w => exact fun hshows _ => ⟨rfl, List.prefix_append _ _, hshows.2.2.2.2⟩
  | _ => intro _ hst; cases hst

/-- `ss` is low at an edge of `sclk`, and while `sclk` is high. -/
theorem ss_low_of_rises {n : ℕ} (h : IsRun ins s) (hr : rises s n = true) :
    (s n).ss = false ∧ (s (n + 1)).ss = false := by
  obtain ⟨sent, w, c, hph⟩ := h.setup_of_rises hr
  have hS1 : (s n).state = .S1 := by
    rw [(h.fromIdle.holds n).state, hph]
    rfl
  have hS2 : (s (n + 1)).state = .S2 := by
    unfold rises Master.sclk at hr
    simp only [Bool.and_eq_true, beq_iff_eq] at hr
    exact hr.2
  unfold Master.ss
  rw [hS1, hS2]
  exact ⟨rfl, rfl⟩

theorem bits_lt_of_rises {n m : ℕ} (hr : rises s n = true) (hlt : n < m) :
    (mosi_bits s n).length < (mosi_bits s m).length := by
  have hone : (mosi_bits s (n + 1)).length = (mosi_bits s n).length + 1 := by
    unfold mosi_bits
    rw [events_succ, List.length_append]
    unfold mosi_at
    rw [if_pos hr]
    rfl
  have hmono := (events_mono (mosi_at s) (show n + 1 ≤ m from hlt)).length_le
  unfold mosi_bits at hone ⊢
  omega

/-- Between two edges of one packet `ss` stays low. -/
theorem ss_stays_low (h : IsRun ins s) {n m k : ℕ} (hn : rises s n = true) (hm : rises s m = true)
    (heq : packets ins s n = packets ins s m) (hnk : n ≤ k) (hkm : k ≤ m) : (s k).ss = false := by
  by_contra hss
  have hhigh : (s k).ss = true := by simpa using hss
  have hnlow := (h.ss_low_of_rises hn).1
  have hmlow := (h.ss_low_of_rises hm).1
  have hnk' : n < k := by
    rcases Nat.eq_or_lt_of_le hnk with rfl | hlt
    · exact absurd hnlow hss
    · exact hlt
  obtain ⟨hbits, hpre, hend⟩ := h.ss_of_S0 hhigh
  generalize (phase ins s k).sent = sent at hbits hpre hend
  have hlt := bits_lt_of_rises (s := s) hn hnk'
  have hmono := (events_mono (mosi_at s) hkm).length_le
  have hW := p.width_pos
  -- some words are out in cycle k, and the last of them ends a packet
  have hlen : (mosi_bits s k).length = p.WIDTH * sent.length := by
    rw [hbits, wordBits_length]
    simp [Phase.words]
  have hbefore : (mosi_bits s n).length / p.WIDTH < sent.length :=
    Nat.div_lt_of_lt_mul (by omega)
  have hafter : sent.length ≤ (mosi_bits s m).length / p.WIDTH := by
    rw [Nat.le_div_iff_mul_le (by omega), Nat.mul_comm, ← hlen]
    exact hmono
  obtain ⟨front, w, rfl⟩ : ∃ front w, sent = front ++ [w] := by
    rcases List.eq_nil_or_concat sent with rfl | ⟨front, w, rfl⟩
    · exact absurd hbefore (Nat.not_lt_zero _)
    · exact ⟨front, w, List.concat_eq_append⟩
  have hw := hend front w rfl
  rw [List.length_append, List.length_singleton] at hbefore hafter
  have hA : ∀ {j : ℕ}, j ≤ m → accepted ins s j <+: accepted ins s m := fun hj =>
    events_mono _ hj
  have hnpre : (accepted ins s n).take ((mosi_bits s n).length / p.WIDTH) <+: front := by
    apply List.prefix_of_prefix_length_le
      (((List.take_prefix _ _).trans (hA (by omega : n ≤ m))))
      ((List.prefix_append front _).trans (hpre.trans (hA hkm)))
    have := List.length_take_le ((mosi_bits s n).length / p.WIDTH) (accepted ins s n)
    omega
  have hmpre : front ++ [w] <+: (accepted ins s m).take ((mosi_bits s m).length / p.WIDTH) := by
    rw [List.prefix_take_iff]
    refine ⟨hpre.trans (hA hkm), ?_⟩
    simpa using hafter
  have h1 := hnpre.sublist.countP_le (p := Accepted.last)
  have h2 := hmpre.sublist.countP_le (p := Accepted.last)
  rw [List.countP_append, List.countP_singleton, if_pos hw] at h2
  unfold packets at heq
  omega

/-- Between edges of two packets `ss` is high for a while. -/
theorem ss_goes_high (h : IsRun ins s) {n m : ℕ} (hn : rises s n = true) (hm : rises s m = true)
    (hlt : n < m) (hne : packets ins s n ≠ packets ins s m) :
    ∃ k, n < k ∧ k < m ∧ (s k).ss = true := by
  by_contra hno
  have hlow : ∀ k, n ≤ k → k ≤ m → (phase ins s k).fsm ≠ .S0 := by
    intro k hk1 hk2 hS0
    have hss : (s k).ss = true := by
      unfold Master.ss
      rw [(h.fromIdle.holds k).state, hS0]
      rfl
    have hnlow := (h.ss_low_of_rises hn).1
    have hmlow := (h.ss_low_of_rises hm).1
    refine hno ⟨k, ?_, ?_, hss⟩
    · rcases Nat.eq_or_lt_of_le hk1 with rfl | h1
      · rw [hnlow] at hss; cases hss
      · exact h1
    · rcases Nat.eq_or_lt_of_le hk2 with rfl | h1
      · rw [hmlow] at hss; cases hss
      · exact h1
  have hsame : ∀ k, n ≤ k → k ≤ m → (phase ins s k).ended = (phase ins s n).ended := by
    intro k hk1
    induction k, hk1 using Nat.le_induction with
    | base => exact fun _ => rfl
    | succ k hk1 ih =>
      intro hk2
      have hnext := hlow (k + 1) (by omega) hk2
      rw [phase] at hnext ⊢
      rw [Phase.ended_next (h.shows k) (hlow k hk1 (by omega)) hnext]
      exact ih (by omega)
  apply hne
  rw [h.packets_of_rises hn, h.packets_of_rises hm]
  exact (hsame m (by omega) (Nat.le_refl m)).symm

end IsRun

end spi_master
