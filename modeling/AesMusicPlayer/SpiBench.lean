-- The SPI master between a sender that holds each word of a list until it is accepted, and
-- something at the other end of the line that has an answer to each word. All of the words go out,
-- and all of the answers come in.
import AesMusicPlayer.SpiReceive

open clocked serial

namespace spi_master

variable {p : Params}

/-! ## A word that is offered is accepted -/

section Ready

variable {ins : ℕ → Inputs p} {s : ℕ → Master p}

theorem accepted_stays {n m : ℕ} (hle : n ≤ m)
    (hnone : ∀ k, n ≤ k → (s k).accepted_word (ins k) = none) :
    accepted ins s m = accepted ins s n := by
  induction m, hle using Nat.le_induction with
  | base => rfl
  | succ m hle ih =>
    unfold accepted at ih ⊢
    rw [events_succ, ih, hnone m hle, Option.toList_none, List.append_nil]

/-- While no word can be accepted, bits of those that were are missing. -/
theorem FromIdle.bits_lt (h : FromIdle ins s) {n : ℕ} (hready : (s n).spi_ready = false) :
    (mosi_bits s n).length < p.WIDTH * (accepted ins s n).length := by
  have hnow := h.holds n
  have hW := p.width_pos
  rw [h.mosi_bits_eq, h.accepted_eq]
  revert hnow
  cases phase ins s n with
  | idle sent =>
    intro hnow
    rw [hnow.2] at hready
    cases hready
  | ending sent w =>
    intro hnow
    rw [hnow.2.1] at hready
    cases hready
  | loaded sent w =>
    intro _
    simp [Phase.bits, Phase.accepted, Phase.words, Nat.mul_add]
    omega
  | setup sent w c =>
    rintro ⟨-, -, h1, hc, -⟩
    simp [Phase.bits, Phase.accepted, Phase.words, Nat.mul_add]
    omega
  | hold sent w c =>
    rintro ⟨-, -, h1, hc, -⟩
    simp [Phase.bits, Phase.accepted, Phase.words, Nat.mul_add]
    omega
  | queued sent w w' =>
    intro _
    simp [Phase.bits, Phase.accepted, Phase.words, Nat.mul_add]
    omega

theorem FromIdle.exists_ready (h : FromIdle ins s) (n : ℕ) :
    ∃ m, n ≤ m ∧ (s m).spi_ready = true := by
  by_contra hno
  have hready : ∀ m, n ≤ m → (s m).spi_ready = false := fun m hle => by
    by_contra hne
    exact hno ⟨m, hle, by simpa using hne⟩
  have hnone : ∀ m, n ≤ m → (s m).accepted_word (ins m) = none := fun m hle => by
    unfold Master.accepted_word
    rw [Master.not_accepts_of_not_ready (hready m hle)]
    simp
  obtain ⟨m, hle, hm⟩ := h.exists_sent _ (Nat.le_refl (accepted ins s n).length)
  have hlt := h.bits_lt (hready m hle)
  rw [accepted_stays hle hnone] at hlt
  omega

end Ready

/-! ## The bench -/

/-- The words that the master has accepted and those that it has not, and the number of bits that it
has sampled. -/
structure Bench (p : Params) where
  master : Master p
  sent : List (Accepted p)
  rest : List (Accepted p)
  samples : ℕ

section Runs

variable (answer : List (Accepted p) → BitVec p.WIDTH)

/-- The first of the words is offered, and the bit of the answer to the words before it is on
`miso`. -/
def Bench.inputs (b : Bench p) : Inputs p where
  aresetn := true
  miso := (answer (b.sent.take (b.samples / p.WIDTH))).getMsbD (b.samples % p.WIDTH)
  s_axis_tvalid := !b.rest.isEmpty
  s_axis_tdata := (b.rest.head?.elim 0 Accepted.word).setWidth _
  s_axis_tlast := b.rest.head?.elim false Accepted.last

def Bench.next (b : Bench p) : Bench p :=
  let m := b.master.clock (b.inputs answer)
  let taken := (b.master.accepted_word (b.inputs answer)).toList
  ⟨m, b.sent ++ taken, b.rest.drop taken.length,
    if !b.master.sclk && m.sclk then b.samples + 1 else b.samples⟩

def bench (ws : List (Accepted p)) : ℕ → Bench p
  | 0 => ⟨.initial p, [], ws, 0⟩
  | n + 1 => (bench ws n).next answer

variable (ws : List (Accepted p))

def bench_inputs (n : ℕ) : Inputs p := (bench answer ws n).inputs answer

def bench_run (n : ℕ) : Master p := (bench answer ws n).master

/-- The answers to all of the words. -/
def answered : List (BitVec p.WIDTH) := (List.range ws.length).map fun i => answer (ws.take i)

theorem bench_sent (n : ℕ) :
    (bench answer ws n).sent = accepted (bench_inputs answer ws) (bench_run answer ws) n := by
  induction n with
  | zero => rfl
  | succ n ih =>
    unfold accepted at ih ⊢
    rw [events_succ, ← ih]
    rfl

theorem bench_samples (n : ℕ) : (bench answer ws n).samples =
    (miso_bits (bench_inputs answer ws) (bench_run answer ws) n).length := by
  induction n with
  | zero => rfl
  | succ n ih =>
    have hnext : (bench answer ws (n + 1)).samples =
        if rises (bench_run answer ws) n then (bench answer ws n).samples + 1
        else (bench answer ws n).samples := rfl
    unfold miso_bits at ih ⊢
    rw [events_succ, List.length_append, ← ih, hnext]
    unfold miso_at
    split_ifs <;> rfl

/-- A word is accepted from the front of those that are left. -/
theorem accepted_front (b : Bench p) {a : Accepted p}
    (ha : b.master.accepted_word (b.inputs answer) = some a) :
    ∃ rest, b.rest = a :: rest := by
  unfold Master.accepted_word at ha
  split_ifs at ha with hacc
  cases hrest : b.rest with
  | nil => simp [Master.accepts, Bench.inputs, hrest] at hacc
  | cons w rest =>
    refine ⟨rest, congrArg (· :: rest) ?_⟩
    rw [← Option.some.inj ha]
    simp [Bench.inputs, hrest, BitVec.setWidth_setWidth_of_le _ p.s_axis_fits]

theorem Bench.split_next (b : Bench p) :
    (b.next answer).sent ++ (b.next answer).rest = b.sent ++ b.rest := by
  unfold next
  cases ha : b.master.accepted_word (b.inputs answer) with
  | none => simp
  | some a =>
    obtain ⟨rest, hrest⟩ := accepted_front answer b ha
    simp [hrest]

theorem bench_split (n : ℕ) :
    accepted (bench_inputs answer ws) (bench_run answer ws) n ++ (bench answer ws n).rest = ws := by
  rw [← bench_sent]
  induction n with
  | zero => rfl
  | succ n ih => exact (Bench.split_next answer _).trans ih

/-- The sender stops behind a last word. -/
theorem bench_isRun (hends : Phase.Ended ws) :
    IsRun (bench_inputs answer ws) (bench_run answer ws) := by
  refine ⟨rfl, fun _ => rfl, fun _ => rfl, fun n hin => ?_⟩
  obtain ⟨ws', w, heq, hw⟩ := hin
  have hsplit := bench_split answer ws n
  cases hrest : (bench answer ws n).rest with
  | nil =>
    rw [hrest, List.append_nil, heq] at hsplit
    rw [hends ws' w hsplit.symm] at hw
    cases hw
  | cons w rest => simp [bench_inputs, Bench.inputs, hrest]

/-- The answer whose bit is sampled next. -/
theorem answer_at {n j : ℕ}
    (hj : j ≤ p.WIDTH * (accepted (bench_inputs answer ws) (bench_run answer ws) n).length)
    (hlt : j < p.WIDTH * ws.length) :
    (wordBits (answered answer ws))[j]? =
      some ((answer ((bench answer ws n).sent.take (j / p.WIDTH))).getMsbD (j % p.WIDTH)) := by
  have hsplit := bench_split answer ws n
  rw [← bench_sent] at hj hsplit
  have htake : ((bench answer ws n).sent ++ (bench answer ws n).rest).take (j / p.WIDTH) =
      (bench answer ws n).sent.take (j / p.WIDTH) :=
    List.take_append_of_le_length (Nat.div_le_of_le_mul hj)
  have hword : (answered answer ws)[j / p.WIDTH]? = some (answer (ws.take (j / p.WIDTH))) := by
    unfold answered
    rw [List.getElem?_map, List.getElem?_range (Nat.div_lt_of_lt_mul hlt), Option.map_some]
  have hbit := bit_at_place hword (Nat.mod_lt j p.width_pos)
  rw [Nat.div_add_mod] at hbit
  rw [hbit, ← htake, hsplit]

theorem prefix_concat {α : Type*} {l l' : List α} {a : α} (h : l <+: l')
    (ha : l'[l.length]? = some a) : l ++ [a] <+: l' := by
  obtain ⟨rest, rfl⟩ := h
  rw [List.getElem?_append_right (Nat.le_refl _), Nat.sub_self] at ha
  cases rest with
  | nil => cases ha
  | cons b rest =>
    obtain rfl : b = a := Option.some.inj ha
    exact ⟨rest, List.append_assoc ..⟩

section Run

variable {answer ws} (h : IsRun (bench_inputs answer ws) (bench_run answer ws))
include h

/-- The word at the front is accepted. -/
theorem accepted_next (n : ℕ) (hne : (bench answer ws n).rest ≠ []) :
    ∃ m, (accepted (bench_inputs answer ws) (bench_run answer ws) n).length + 1 ≤
      (accepted (bench_inputs answer ws) (bench_run answer ws) m).length := by
  obtain ⟨m, hle, hready⟩ := h.fromIdle.exists_ready n
  have hmono := (events_mono (fun n => (bench_run answer ws n).accepted_word
    (bench_inputs answer ws n)) hle).length_le
  by_cases hmore : (bench answer ws m).rest = []
  · -- all are accepted, and one was not
    refine ⟨m, ?_⟩
    have hn := congrArg List.length (bench_split answer ws n)
    have hm := congrArg List.length (bench_split answer ws m)
    have hpos := List.length_pos_of_ne_nil hne
    rw [hmore] at hm
    rw [List.length_append] at hn hm
    rw [List.length_nil] at hm
    omega
  · refine ⟨m + 1, ?_⟩
    have hacc : (bench_run answer ws m).accepts (bench_inputs answer ws m) = true := by
      unfold Master.accepts Master.s_axis_tready
      rw [hready]
      simp [bench_inputs, Bench.inputs, hmore]
    unfold accepted at hmono ⊢
    rw [events_succ, List.length_append]
    unfold Master.accepted_word at hmono ⊢
    rw [if_pos hacc]
    exact Nat.add_le_add_right hmono 1

theorem all_accepted :
    ∃ n, accepted (bench_inputs answer ws) (bench_run answer ws) n = ws := by
  have hall : ∀ k, k ≤ ws.length →
      ∃ n, k ≤ (accepted (bench_inputs answer ws) (bench_run answer ws) n).length := by
    intro k
    induction k with
    | zero => exact fun _ => ⟨0, Nat.zero_le _⟩
    | succ k ih =>
      intro hk
      obtain ⟨n, hn⟩ := ih (Nat.le_of_succ_le hk)
      by_cases hrest : (bench answer ws n).rest = []
      · have hsplit := bench_split answer ws n
        rw [hrest, List.append_nil] at hsplit
        exact ⟨n, by rwa [hsplit]⟩
      · obtain ⟨m, hm⟩ := accepted_next h n hrest
        exact ⟨m, by omega⟩
  obtain ⟨n, hn⟩ := hall ws.length (Nat.le_refl _)
  exact ⟨n, List.IsPrefix.eq_of_length_le ⟨_, bench_split answer ws n⟩ hn⟩

theorem samples_le (n : ℕ) :
    (miso_bits (bench_inputs answer ws) (bench_run answer ws) n).length ≤
      p.WIDTH * (accepted (bench_inputs answer ws) (bench_run answer ws) n).length := by
  have hle := (h.fromIdle.mosi_prefix n).length_le
  rw [wordBits_length, Phase.words, List.length_map] at hle
  rwa [(h.receives n).length, ← h.mosi_bits_eq]

/-- What is sampled are the bits of the answers. -/
theorem samples_are_answers (n : ℕ) :
    miso_bits (bench_inputs answer ws) (bench_run answer ws) n <+:
      wordBits (answered answer ws) := by
  induction n with
  | zero => exact List.nil_prefix
  | succ n ih =>
    have hle := samples_le h n
    have hle' := samples_le h (n + 1)
    have hall := Nat.mul_le_mul_left p.WIDTH
      (List.IsPrefix.length_le ⟨_, bench_split answer ws (n + 1)⟩)
    have hsamples := bench_samples answer ws n
    unfold miso_bits at ih hle hle' hsamples ⊢
    rw [events_succ, miso_at] at hle' ⊢
    by_cases hr : rises (bench_run answer ws) n = true
    · rw [if_pos hr, Option.toList_some] at hle' ⊢
      rw [List.length_append, List.length_singleton] at hle'
      have hnext := answer_at answer ws hle (by omega)
      rw [← hsamples] at hnext
      apply prefix_concat ih
      rw [← hsamples]
      exact hnext
    · rw [if_neg hr, Option.toList_none, List.append_nil]
      exact ih

/-- All words have come through, and all answers. -/
theorem all_delivered :
    ∃ n, accepted (bench_inputs answer ws) (bench_run answer ws) n = ws ∧
      miso_bits (bench_inputs answer ws) (bench_run answer ws) n = wordBits (answered answer ws) ∧
      delivered (bench_run answer ws) n = answered answer ws := by
  obtain ⟨n, hn⟩ := all_accepted h
  obtain ⟨m, hm⟩ := (h.fromIdle.mosi_law n).2
  -- in cycle m all bits are out, and so many have been sampled
  have hout := hm.length_le
  rw [hn, wordBits_length, Phase.words, List.length_map, h.mosi_bits_eq,
    ← (h.receives m).length] at hout
  have hmiso : ∀ k, m ≤ k →
      miso_bits (bench_inputs answer ws) (bench_run answer ws) k =
        wordBits (answered answer ws) := by
    intro k hk
    have hmono := events_mono (miso_at (bench_inputs answer ws) (bench_run answer ws)) hk
    apply (samples_are_answers h k).eq_of_length_le
    rw [wordBits_length, answered, List.length_map, List.length_range]
    exact Nat.le_trans hout hmono.length_le
  obtain ⟨k, hk⟩ := (h.miso_law m).2
  rw [hmiso m (Nat.le_refl m), wordBits_length, Nat.mul_div_cancel_left _ p.width_pos,
    List.take_of_length_le (Nat.le_of_eq (wordBits_length _))] at hk
  refine ⟨max n (max m k), ?_, hmiso _ (by omega), ?_⟩
  · have hmono : accepted _ _ n <+: _ := events_mono (fun n => (bench_run answer ws n).accepted_word
      (bench_inputs answer ws n)) (Nat.le_max_left n (max m k))
    rw [hn] at hmono
    exact (hmono.eq_of_length_le (List.IsPrefix.length_le ⟨_, bench_split answer ws _⟩)).symm
  · apply eq_of_wordBits_eq p.width_pos
    have hpre := (h.miso_law (max n (max m k))).1
    rw [hmiso _ (by omega)] at hpre
    have hmono : delivered _ _ <+: delivered _ _ := events_mono (delivered_at (bench_run answer ws))
      (show k ≤ max n (max m k) by omega)
    have hall := hk.trans <| wordBits_prefix hmono
    exact hpre.eq_of_length_le hall.length_le

end Run

end Runs

end spi_master
