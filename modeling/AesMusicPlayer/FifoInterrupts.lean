-- The interrupt handler of the FIFO driver: a loop that handles one interrupt at each pass and
-- clears it, while others come in. It ends, it handles what is enabled, and it leaves the rest.
import AesMusicPlayer.MemoryWords
import Mathlib.Data.Nat.Bitwise
import Mathlib.Data.Nat.Find

open memory_words

namespace axis_fifo_irq

/-! ## The handler -/

/-- What a branch does beside the write to the status register. -/
inductive Effect
  | wake_read_queue | wake_write_queue | wake_read_wait | wake_write_wait
  | reset_receive | reset_transmit
  deriving DecidableEq

/-- A branch of the handler, for the interrupts of its mask. -/
structure Branch where
  mask : Word
  effects : List Effect
  deriving DecidableEq

def XLLF_INT_ALL_MASK : Word := 0xfff80000

/-- The branches in their order, from `XLLF_INT_RC_MASK` to `XLLF_INT_TSE_MASK`. -/
def branches : List Branch :=
  [⟨0x04000000, [.wake_read_queue, .wake_read_wait]⟩,
   ⟨0x08000000, [.wake_write_queue, .wake_write_wait]⟩,
   ⟨0x00400000, []⟩,
   ⟨0x00200000, [.wake_write_wait]⟩,
   ⟨0x00100000, [.wake_read_wait]⟩,
   ⟨0x00080000, []⟩,
   ⟨0x01000000, []⟩,
   ⟨0x00800000, []⟩,
   ⟨0x80000000, [.reset_receive]⟩,
   ⟨0x40000000, [.reset_receive]⟩,
   ⟨0x20000000, [.reset_receive]⟩,
   ⟨0x10000000, [.reset_transmit]⟩,
   ⟨0x02000000, []⟩]

/-- The branch of a pass. The last one is for the interrupts that no other takes. -/
def branch (pending : Word) : Option Branch :=
  match branches.find? fun b => pending &&& b.mask != 0 with
  | some b => some b
  | none => if pending != 0 then some ⟨XLLF_INT_ALL_MASK, []⟩ else none

/-- The core takes the bits of `w` out of its status register. -/
def clear (isr w : Word) : Word := isr &&& ~~~w

section Handler

variable (ier isr : Word) (arrive : ℕ → Word)

/-- The status register before the read of a pass, when the interrupts `arrive n` come in
between the passes. -/
def status : ℕ → Word
  | 0 => isr ||| arrive 0
  | n + 1 =>
    match branch (ier &&& status n) with
    | some b => clear (status n) (b.mask &&& XLLF_INT_ALL_MASK) ||| arrive (n + 1)
    | none => status n ||| arrive (n + 1)

def pending (n : ℕ) : Word := ier &&& status ier isr arrive n

/-- The branches of the first passes. -/
def handled : ℕ → List Branch
  | 0 => []
  | n + 1 => handled n ++ (branch (pending ier isr arrive n)).toList

/-- The loop ends with the first pass that finds nothing. -/
structure EndsAt (n : ℕ) : Prop where
  none : pending ier isr arrive n = 0
  first : ∀ m, m < n → pending ier isr arrive m ≠ 0

/-- All that was set in the status register at the start or came in up to pass `n`. -/
def seen : ℕ → Word
  | 0 => isr ||| arrive 0
  | n + 1 => seen n ||| arrive (n + 1)

end Handler

/-! ## The bits -/

/-- The bit of a branch. -/
def Branch.bit (b : Branch) : ℕ := b.mask.toNat.log2

/-- Each branch has one bit, and each bit above the reserved ones has a branch. -/
theorem branches_bits : (∀ b ∈ branches, b.mask = BitVec.twoPow 32 b.bit ∧ 19 ≤ b.bit ∧ b.bit < 32) ∧
    ∀ i, i < 32 → 19 ≤ i → ∃ b ∈ branches, b.bit = i := by
  decide

theorem branches_apart : ∀ b ∈ branches, ∀ b' ∈ branches, b.bit = b'.bit → b = b' := by
  decide

theorem all_mask_bit : ∀ i, i < 32 → XLLF_INT_ALL_MASK.getLsbD i = decide (19 ≤ i) := by
  decide

/-- No reserved bit is set. -/
theorem reserved_iff (w : Word) :
    w &&& ~~~XLLF_INT_ALL_MASK = 0 ↔ ∀ i, i < 19 → w.getLsbD i = false := by
  constructor
  · intro h i hi
    have hbit := congrArg (fun v => v.getLsbD i) h
    rw [BitVec.getLsbD_and, BitVec.getLsbD_not, all_mask_bit i (by omega),
      decide_eq_false (by omega : ¬ 19 ≤ i), decide_eq_true (by omega : i < 32)] at hbit
    simpa using hbit
  · intro h
    apply BitVec.eq_of_getLsbD_eq
    intro i hi
    rw [BitVec.getLsbD_and, BitVec.getLsbD_not, all_mask_bit i hi]
    by_cases hlow : i < 19
    · rw [h i hlow, Bool.false_and]
      exact BitVec.getLsbD_zero.symm
    · rw [decide_eq_true (by omega : 19 ≤ i), Bool.not_true, Bool.and_false, Bool.and_false]
      exact BitVec.getLsbD_zero.symm

theorem and_twoPow_ne_zero (w : Word) {i : ℕ} (hi : i < 32) :
    (w &&& BitVec.twoPow 32 i != 0) = w.getLsbD i := by
  have hne : BitVec.twoPow 32 i ≠ 0#32 := by
    intro h
    have hbit := congrArg (fun v => v.getLsbD i) h
    simp [hi] at hbit
  rw [BitVec.and_twoPow]
  cases w.getLsbD i <;> simp [hne]

/-- Taking out the mask of a branch takes out its bit. -/
theorem clear_branch {b : Branch} (hb : b ∈ branches) (w : Word) {i : ℕ} (hi : i < 32) :
    (clear w (b.mask &&& XLLF_INT_ALL_MASK)).getLsbD i = (w.getLsbD i && decide (i ≠ b.bit)) := by
  obtain ⟨hmask, hlow, hlt⟩ := branches_bits.1 b hb
  unfold clear
  rw [hmask, BitVec.getLsbD_and, BitVec.getLsbD_not, BitVec.getLsbD_and, BitVec.getLsbD_twoPow,
    all_mask_bit i hi]
  by_cases heq : i = b.bit
  · simp [heq, hlow, hlt]
  · simp [hi, heq, Ne.symm heq]

/-- A pass that finds a known interrupt takes the branch of one. -/
theorem branch_known {p : Word} {i : ℕ} (hi : i < 32) (hlow : 19 ≤ i) (hp : p.getLsbD i = true) :
    ∃ b ∈ branches, branch p = some b ∧ p.getLsbD b.bit = true := by
  obtain ⟨b₀, hb₀, hbit₀⟩ := branches_bits.2 i hi hlow
  have htest : ∀ b ∈ branches, (p &&& b.mask != 0) = p.getLsbD b.bit := by
    intro b hb
    obtain ⟨hmask, -, hlt⟩ := branches_bits.1 b hb
    rw [hmask]
    exact and_twoPow_ne_zero p hlt
  have hsome : (branches.find? fun b => p &&& b.mask != 0).isSome := by
    rw [List.find?_isSome]
    exact ⟨b₀, hb₀, by rw [htest b₀ hb₀, hbit₀, hp]⟩
  obtain ⟨b, hb⟩ := Option.isSome_iff_exists.mp hsome
  have hmem := List.mem_of_find?_eq_some hb
  refine ⟨b, hmem, by unfold branch; rw [hb], ?_⟩
  rw [← htest b hmem]
  exact List.find?_some (p := fun b : Branch => p &&& b.mask != 0) hb

/-! ## A pass -/

section Passes

variable {ier isr : Word} {arrive : ℕ → Word}

theorem getLsbD_pending (n i : ℕ) : (pending ier isr arrive n).getLsbD i =
    (ier.getLsbD i && (status ier isr arrive n).getLsbD i) := BitVec.getLsbD_and

/-- A reserved bit is never taken out. -/
theorem reserved_stays {i : ℕ} (hi : i < 19) (h : isr.getLsbD i = true) (n : ℕ) :
    (status ier isr arrive n).getLsbD i = true := by
  induction n with
  | zero =>
    unfold status
    rw [BitVec.getLsbD_or, h, Bool.true_or]
  | succ n ih =>
    unfold status
    split
    · have hmask : XLLF_INT_ALL_MASK.getLsbD i = false := by
        rw [all_mask_bit i (by omega)]
        exact decide_eq_false (by omega)
      unfold clear
      rw [BitVec.getLsbD_or, BitVec.getLsbD_and, BitVec.getLsbD_not, BitVec.getLsbD_and, ih, hmask,
        Bool.and_false, decide_eq_true (by omega : i < 32)]
      rfl
    · rw [BitVec.getLsbD_or, ih, Bool.true_or]

/-- What holds after `n` passes. -/
structure Keeps (ier isr : Word) (arrive : ℕ → Word) (n : ℕ) : Prop where
  known : ∀ i, i < 19 → (pending ier isr arrive n).getLsbD i = false
  seen : ∀ i, i < 32 → (status ier isr arrive n).getLsbD i = true →
    (seen isr arrive n).getLsbD i = true
  taken : ∀ i, i < 32 → (axis_fifo_irq.seen isr arrive n).getLsbD i = true →
    (status ier isr arrive n).getLsbD i = false → ∃ b ∈ handled ier isr arrive n, b.bit = i
  handled : ∀ b ∈ handled ier isr arrive n, b ∈ branches ∧ ier.getLsbD b.bit = true ∧
    (axis_fifo_irq.seen isr arrive n).getLsbD b.bit = true

theorem pending_cases {n : ℕ} (h : Keeps ier isr arrive n) :
    pending ier isr arrive n = 0 ∧ branch (pending ier isr arrive n) = none ∨
      ∃ b ∈ branches, branch (pending ier isr arrive n) = some b ∧
        (pending ier isr arrive n).getLsbD b.bit = true := by
  by_cases h0 : pending ier isr arrive n = 0
  · left
    rw [h0]
    exact ⟨rfl, by decide⟩
  · right
    have hbit : ∃ i, i < 32 ∧ (pending ier isr arrive n).getLsbD i = true := by
      by_contra hno
      apply h0
      apply BitVec.eq_of_getLsbD_eq
      intro i hi
      have hi' : ¬ (pending ier isr arrive n).getLsbD i = true := fun hb => hno ⟨i, hi, hb⟩
      simpa using hi'
    obtain ⟨i, hi, hb⟩ := hbit
    have hlow : 19 ≤ i := by
      by_contra hlt
      rw [h.known i (by omega)] at hb
      cases hb
    exact branch_known hi hlow hb

theorem status_none {n : ℕ} (h : branch (pending ier isr arrive n) = none) :
    status ier isr arrive (n + 1) = status ier isr arrive n ||| arrive (n + 1) := by
  unfold pending at h
  rw [status, h]

theorem status_some {n : ℕ} {b : Branch} (h : branch (pending ier isr arrive n) = some b)
    (hb : b ∈ branches) {i : ℕ} (hi : i < 32) :
    (status ier isr arrive (n + 1)).getLsbD i =
      ((status ier isr arrive n).getLsbD i && decide (i ≠ b.bit) ||
        (arrive (n + 1)).getLsbD i) := by
  unfold pending at h
  rw [status, h]
  dsimp only
  rw [BitVec.getLsbD_or, clear_branch hb _ hi]

theorem getLsbD_seen_succ (n i : ℕ) : (seen isr arrive (n + 1)).getLsbD i =
    ((seen isr arrive n).getLsbD i || (arrive (n + 1)).getLsbD i) := BitVec.getLsbD_or

theorem handled_none {n : ℕ} (h : branch (pending ier isr arrive n) = none) :
    handled ier isr arrive (n + 1) = handled ier isr arrive n := by
  rw [handled, h]
  exact List.append_nil _

theorem handled_some {n : ℕ} {b : Branch} (h : branch (pending ier isr arrive n) = some b) :
    handled ier isr arrive (n + 1) = handled ier isr arrive n ++ [b] := by
  rw [handled, h]
  rfl

theorem keeps_zero (hisr : ∀ i, i < 19 → (ier &&& isr).getLsbD i = false)
    (harr : ∀ n i, i < 19 → (arrive n).getLsbD i = false) : Keeps ier isr arrive 0 where
  known i hi := by
    have h := hisr i hi
    rw [BitVec.getLsbD_and] at h
    rw [getLsbD_pending, status, BitVec.getLsbD_or, harr 0 i hi, Bool.or_false, h]
  seen _ _ h := h
  taken i _ h h' := by
    rw [show status ier isr arrive 0 = axis_fifo_irq.seen isr arrive 0 from rfl, h] at h'
    cases h'
  handled _ hb := absurd hb List.not_mem_nil

theorem keeps_succ (harr : ∀ n i, i < 19 → (arrive n).getLsbD i = false) {n : ℕ}
    (h : Keeps ier isr arrive n) : Keeps ier isr arrive (n + 1) := by
  rcases pending_cases h with ⟨-, hnone⟩ | ⟨b, hb, hsome, hpend⟩
  · have hst : ∀ i, (status ier isr arrive (n + 1)).getLsbD i =
        ((status ier isr arrive n).getLsbD i || (arrive (n + 1)).getLsbD i) := by
      intro i
      rw [status_none hnone, BitVec.getLsbD_or]
    refine ⟨?_, ?_, ?_, ?_⟩
    · intro i hi
      have hk := h.known i hi
      rw [getLsbD_pending] at hk
      rw [getLsbD_pending, hst, harr _ i hi, Bool.or_false, hk]
    · intro i hi hs
      rw [hst, Bool.or_eq_true] at hs
      rw [getLsbD_seen_succ, Bool.or_eq_true]
      exact hs.imp (h.seen i hi) id
    · intro i hi hs hn
      rw [hst, Bool.or_eq_false_iff] at hn
      rw [getLsbD_seen_succ, hn.2, Bool.or_false] at hs
      rw [handled_none hnone]
      exact h.taken i hi hs hn.1
    · intro b hb
      rw [handled_none hnone] at hb
      obtain ⟨hmem, hier, hs⟩ := h.handled b hb
      refine ⟨hmem, hier, ?_⟩
      rw [getLsbD_seen_succ, hs, Bool.true_or]
  · obtain ⟨-, hlow, hlt⟩ := branches_bits.1 b hb
    rw [getLsbD_pending, Bool.and_eq_true] at hpend
    refine ⟨?_, ?_, ?_, ?_⟩
    · intro i hi
      have hk := h.known i hi
      rw [getLsbD_pending] at hk
      rw [getLsbD_pending, status_some hsome hb (by omega), harr _ i hi, Bool.or_false,
        ← Bool.and_assoc, hk, Bool.false_and]
    · intro i hi hs
      rw [status_some hsome hb hi, Bool.or_eq_true, Bool.and_eq_true] at hs
      rw [getLsbD_seen_succ, Bool.or_eq_true]
      exact hs.imp (fun hs => h.seen i hi hs.1) id
    · intro i hi hs hn
      rw [status_some hsome hb hi, Bool.or_eq_false_iff, Bool.and_eq_false_iff] at hn
      rw [getLsbD_seen_succ, hn.2, Bool.or_false] at hs
      rw [handled_some hsome]
      rcases hn.1 with hn | hn
      · obtain ⟨b', hb', hbit⟩ := h.taken i hi hs hn
        exact ⟨b', List.mem_append_left _ hb', hbit⟩
      · exact ⟨b, List.mem_append_right _ (List.mem_singleton_self b),
          (by simpa using hn : i = b.bit).symm⟩
    · intro b' hb'
      rw [handled_some hsome, List.mem_append, List.mem_singleton] at hb'
      rw [getLsbD_seen_succ, Bool.or_eq_true]
      rcases hb' with hb' | rfl
      · obtain ⟨hmem, hier, hs⟩ := h.handled b' hb'
        exact ⟨hmem, hier, .inl hs⟩
      · exact ⟨hb, hpend.1, .inl (h.seen _ hlt hpend.2)⟩

theorem keeps (hisr : ∀ i, i < 19 → (ier &&& isr).getLsbD i = false)
    (harr : ∀ n i, i < 19 → (arrive n).getLsbD i = false) (n : ℕ) : Keeps ier isr arrive n := by
  induction n with
  | zero => exact keeps_zero hisr harr
  | succ n ih => exact keeps_succ harr ih

/-! ## The end of the loop -/

/-- A word without one of its bits is smaller. -/
theorem toNat_lt {p p' : Word} {k : ℕ} (hp : p.getLsbD k = true) (hp' : p'.getLsbD k = false)
    (h : ∀ i, k < i → p'.getLsbD i = p.getLsbD i) : p'.toNat < p.toNat :=
  Nat.lt_of_testBit k hp' hp h

/-- When nothing new comes in, there is less to handle after each pass. -/
theorem pending_lt {n : ℕ} (h : Keeps ier isr arrive n) (hquiet : arrive (n + 1) = 0)
    (hne : pending ier isr arrive n ≠ 0) :
    (pending ier isr arrive (n + 1)).toNat < (pending ier isr arrive n).toNat := by
  rcases pending_cases h with ⟨h0, -⟩ | ⟨b, hb, hsome, hpend⟩
  · exact absurd h0 hne
  · have hnext : ∀ i, i < 32 → (pending ier isr arrive (n + 1)).getLsbD i =
        ((pending ier isr arrive n).getLsbD i && decide (i ≠ b.bit)) := by
      intro i hi
      rw [getLsbD_pending, getLsbD_pending, status_some hsome hb hi, hquiet,
        show (0 : Word).getLsbD i = false from BitVec.getLsbD_zero, Bool.or_false, Bool.and_assoc]
    have hlt := (branches_bits.1 b hb).2.2
    apply toNat_lt hpend
    · rw [hnext _ hlt]
      simp
    · intro i hi
      by_cases hi32 : i < 32
      · rw [hnext i hi32, decide_eq_true (by omega : i ≠ b.bit), Bool.and_true]
      · rw [BitVec.getLsbD_of_ge _ _ (by omega), BitVec.getLsbD_of_ge _ _ (by omega)]

/-- The loop ends some passes after the last interrupt has come in. -/
theorem exists_none (hkeeps : ∀ n, Keeps ier isr arrive n) {N : ℕ}
    (hquiet : ∀ n, N ≤ n → arrive n = 0) : ∃ n, pending ier isr arrive n = 0 := by
  suffices h : ∀ k n, N ≤ n → (pending ier isr arrive n).toNat = k →
      ∃ m, pending ier isr arrive m = 0 from h _ N (Nat.le_refl N) rfl
  intro k
  induction k using Nat.strong_induction_on with
  | _ k ih =>
    intro n hn hk
    by_cases h0 : pending ier isr arrive n = 0
    · exact ⟨n, h0⟩
    · have hlt := pending_lt (hkeeps n) (hquiet (n + 1) (by omega)) h0
      exact ih _ (hk ▸ hlt) (n + 1) (by omega) rfl

theorem exists_endsAt (h : ∃ n, pending ier isr arrive n = 0) : ∃ n, EndsAt ier isr arrive n := by
  classical
  exact ⟨Nat.find h, Nat.find_spec h, fun m hm => Nat.find_min h hm⟩

theorem handled_length {n : ℕ} (hkeeps : ∀ n, Keeps ier isr arrive n)
    (hne : ∀ m, m < n → pending ier isr arrive m ≠ 0) : (handled ier isr arrive n).length = n := by
  induction n with
  | zero => rfl
  | succ n ih =>
    have hn := ih fun m hm => hne m (Nat.lt_succ_of_lt hm)
    rcases pending_cases (hkeeps n) with ⟨h0, -⟩ | ⟨b, -, hsome, -⟩
    · exact absurd h0 (hne n (Nat.lt_succ_self n))
    · rw [handled_some hsome, List.length_append, hn]
      rfl

/-- At its end the loop has handled the enabled interrupts, one at each pass, and the others are
as they were. -/
structure HandledAll (ier isr : Word) (arrive : ℕ → Word) (n : ℕ) : Prop where
  handled : ∀ b ∈ branches, b ∈ handled ier isr arrive n ↔
    ier &&& seen isr arrive n &&& b.mask ≠ 0
  passes : (axis_fifo_irq.handled ier isr arrive n).length = n
  status : status ier isr arrive n = seen isr arrive n &&& ~~~ier

theorem handledAll (hkeeps : ∀ n, Keeps ier isr arrive n) {n : ℕ}
    (hend : EndsAt ier isr arrive n) : HandledAll ier isr arrive n := by
  have h := hkeeps n
  have hnone : ∀ i, ier.getLsbD i = true → (status ier isr arrive n).getLsbD i = false := by
    intro i hier
    have hp : (pending ier isr arrive n).getLsbD i =
        (ier.getLsbD i && (status ier isr arrive n).getLsbD i) := getLsbD_pending n i
    rw [hend.none, hier, Bool.true_and] at hp
    exact hp.symm.trans BitVec.getLsbD_zero
  refine ⟨?_, handled_length hkeeps hend.first, ?_⟩
  · intro b hb
    obtain ⟨hmask, -, hlt⟩ := branches_bits.1 b hb
    rw [hmask, ← bne_iff_ne, and_twoPow_ne_zero _ hlt, BitVec.getLsbD_and, Bool.and_eq_true]
    constructor
    · intro hmem
      exact (h.handled b hmem).2
    · rintro ⟨hier, hseen⟩
      obtain ⟨b', hb', hbit⟩ := h.taken b.bit hlt hseen (hnone _ hier)
      exact branches_apart b' (h.handled b' hb').1 b hb hbit ▸ hb'
  · apply BitVec.eq_of_getLsbD_eq
    intro i hi
    rw [BitVec.getLsbD_and, BitVec.getLsbD_not, decide_eq_true hi, Bool.true_and]
    cases hier : ier.getLsbD i with
    | true => rw [hnone i hier, Bool.not_true, Bool.and_false]
    | false =>
      rw [Bool.not_false, Bool.and_true]
      cases hseen : (seen isr arrive n).getLsbD i with
      | false =>
        cases hst : (status ier isr arrive n).getLsbD i with
        | false => rfl
        | true => rw [h.seen i hi hst] at hseen; cases hseen
      | true =>
        cases hst : (status ier isr arrive n).getLsbD i with
        | true => rfl
        | false =>
          -- a bit that was taken out is enabled
          obtain ⟨b, hb, hbit⟩ := h.taken i hi hseen hst
          rw [← hbit, (h.handled b hb).2.1] at hier
          cases hier

/-- The handler ends exactly when no reserved bit is set and enabled. It has then handled each
enabled interrupt that was there or came in while it ran, and it leaves the others set. -/
theorem handler_ends_iff (ier isr : Word) (arrive : ℕ → Word)
    (harr : ∀ n, arrive n &&& ~~~XLLF_INT_ALL_MASK = 0) (hfin : ∃ N, ∀ n, N ≤ n → arrive n = 0) :
    ((∃ n, EndsAt ier isr arrive n) ↔ ier &&& isr &&& ~~~XLLF_INT_ALL_MASK = 0) ∧
      ∀ n, EndsAt ier isr arrive n → HandledAll ier isr arrive n := by
  have harr' := fun n => (reserved_iff _).mp (harr n)
  obtain ⟨N, hquiet⟩ := hfin
  have hreserved : ∀ n, EndsAt ier isr arrive n → ∀ i, i < 19 → (ier &&& isr).getLsbD i = false := by
    intro n hend i hi
    rw [BitVec.getLsbD_and]
    cases hisr : isr.getLsbD i with
    | false => exact Bool.and_false _
    | true =>
      have hp : (pending ier isr arrive n).getLsbD i =
        (ier.getLsbD i && (status ier isr arrive n).getLsbD i) := getLsbD_pending n i
      rw [hend.none, reserved_stays hi hisr n, Bool.and_true] at hp
      rw [← hp, Bool.and_true]
      exact BitVec.getLsbD_zero
  refine ⟨⟨?_, ?_⟩, ?_⟩
  · rintro ⟨n, hend⟩
    exact (reserved_iff _).mpr (hreserved n hend)
  · intro hisr
    exact exists_endsAt (exists_none (keeps ((reserved_iff _).mp hisr) harr') hquiet)
  · intro n hend
    exact handledAll (keeps (hreserved n hend) harr') hend

end Passes

/-- A packet has come in, and one pass later a packet is sent and the receive FIFO gets full. -/
def one_later (n : ℕ) : Word := if n = 1 then 0x08100000 else 0

theorem one_later_is_handled :
    ((∃ n, EndsAt 0xfe000000 0x04000000 one_later n) ↔
        (0xfe000000 : Word) &&& 0x04000000 &&& ~~~XLLF_INT_ALL_MASK = 0) ∧
      ∀ n, EndsAt 0xfe000000 0x04000000 one_later n →
        HandledAll 0xfe000000 0x04000000 one_later n := by
  apply handler_ends_iff
  · intro n
    unfold one_later
    split <;> decide
  · exact ⟨2, fun n hn => if_neg (by omega)⟩

end axis_fifo_irq
