-- Clocked machines, with nothing of the player in them. One clock edge takes
-- a state and the inputs of the cycle to the next state, and a run gives the
-- state of every cycle. A delay line holds one item for a fixed number of
-- cycles, and a stream sink takes the beats that a sender offers.
import Mathlib.Data.Nat.Count
import Mathlib.Tactic.Common

namespace clocked

/-! ## Runs -/

section Runs

variable {S I : Type*} (clock : I → S → S)

/-- The state in cycle `n`, from the state `s` in cycle 0. -/
def run (s : S) (ins : ℕ → I) : ℕ → S
  | 0 => s
  | n + 1 => clock (ins n) (run s ins n)

variable {clock} {s : S} {ins : ℕ → I}

end Runs

/-! ## A line that holds one item -/

/-- The age of the item on the line after one more cycle. Age 0 is an empty
line, and an item leaves after age `L`. -/
def nextAge (L : ℕ) (enter : Prop) [Decidable enter] (age : ℕ) : ℕ :=
  if age = 0 then (if enter then 1 else 0) else if age = L then 0 else age + 1

/-- The ages of a line that an item enters only when the line is empty. -/
structure OneItem (L : ℕ) (enter : ℕ → Prop) [DecidablePred enter] (age : ℕ → ℕ) : Prop where
  pos : 0 < L
  start : age 0 = 0
  step : ∀ n, age (n + 1) = nextAge L (enter n) (age n)
  empty : ∀ n, enter n → age n = 0

namespace OneItem

variable {L : ℕ} {enter : ℕ → Prop} [DecidablePred enter] {age : ℕ → ℕ}

theorem le (h : OneItem L enter age) (n : ℕ) : age n ≤ L := by
  induction n with
  | zero => rw [h.start]; omega
  | succ n ih =>
    have := h.pos
    rw [h.step, nextAge]
    split_ifs <;> omega

/-- An item that enters in cycle `c` has age `a` in cycle `c + a`. -/
theorem age_add (h : OneItem L enter age) {c : ℕ} (hc : enter c) (a : ℕ) (h1 : 1 ≤ a)
    (hL : a ≤ L) : age (c + a) = a := by
  induction a, h1 using Nat.le_induction with
  | base => rw [h.step, h.empty c hc, nextAge, if_pos rfl, if_pos hc]
  | succ a h1 ih =>
    rw [← Nat.add_assoc, h.step, ih (by omega), nextAge, if_neg (by omega), if_neg (by omega)]

theorem enter_of_age (h : OneItem L enter age) (n : ℕ) :
    age n ≠ 0 → ∃ c, enter c ∧ n = c + age n := by
  induction n with
  | zero => intro hn; exact absurd h.start hn
  | succ n ih =>
    rw [h.step, nextAge]
    split_ifs with h0 hc hL
    · intro _; exact ⟨n, hc, rfl⟩
    · intro hn; exact absurd rfl hn
    · intro hn; exact absurd rfl hn
    · intro _
      obtain ⟨c, hc, hn⟩ := ih h0
      exact ⟨c, hc, by omega⟩

theorem age_eq_iff (h : OneItem L enter age) {n a : ℕ} (h1 : 1 ≤ a) (hL : a ≤ L) :
    age n = a ↔ ∃ c, enter c ∧ n = c + a := by
  constructor
  · intro hn
    obtain ⟨c, hc, he⟩ := h.enter_of_age n (by omega)
    exact ⟨c, hc, by omega⟩
  · rintro ⟨c, hc, rfl⟩
    exact h.age_add hc a h1 hL

/-- The next item enters only after the item before it has left. -/
theorem spaced (h : OneItem L enter age) {c c' : ℕ} (hc : enter c) (hc' : enter c')
    (hlt : c < c') : c + L < c' := by
  by_contra hle
  have hage := h.age_add hc (c' - c) (by omega) (by omega)
  rw [show c + (c' - c) = c' by omega, h.empty c' hc'] at hage
  omega

end OneItem

/-! ## Waiting for a level -/

/-- `r` is the first cycle from `f` on in which `ready` is high. -/
def FirstHigh (ready : ℕ → Bool) (f r : ℕ) : Prop :=
  f ≤ r ∧ ready r = true ∧ ∀ k, f ≤ k → k < r → ready k = false

theorem FirstHigh.unique {ready : ℕ → Bool} {f r r' : ℕ} (h : FirstHigh ready f r)
    (h' : FirstHigh ready f r') : r = r' := by
  obtain ⟨h1, h2, h3⟩ := h
  obtain ⟨h1', h2', h3'⟩ := h'
  rcases Nat.lt_trichotomy r r' with hlt | heq | hgt
  · rw [h3' r h1 hlt] at h2; cases h2
  · exact heq
  · rw [h3 r' h1' hgt] at h2'; cases h2'

theorem exists_firstHigh {ready : ℕ → Bool} {f k : ℕ} (hk : f ≤ k) (hr : ready k = true) :
    ∃ r, FirstHigh ready f r := by
  have hex : ∃ r, f ≤ r ∧ ready r = true := ⟨k, hk, hr⟩
  obtain ⟨h1, h2⟩ := Nat.find_spec hex
  refine ⟨Nat.find hex, h1, h2, ?_⟩
  intro j hj hlt
  have hmin := Nat.find_min hex hlt
  cases hrj : ready j
  · rfl
  · exact absurd ⟨hj, hrj⟩ hmin

/-- What an edge keeps unless `Q` happens holds until `Q` has happened. -/
theorem holds_unless {P Q : ℕ → Prop} (hstep : ∀ n, P n → ¬ Q n → P (n + 1)) {p n : ℕ}
    (hp : P p) (hle : p ≤ n) : P n ∨ ∃ m, p ≤ m ∧ m < n ∧ P m ∧ Q m := by
  induction n, hle using Nat.le_induction with
  | base => exact Or.inl hp
  | succ n hn ih =>
    rcases ih with hP | ⟨m, h1, h2, h3⟩
    · by_cases hQ : Q n
      · exact Or.inr ⟨n, hn, Nat.lt_succ_self n, hP, hQ⟩
      · exact Or.inl (hstep n hP hQ)
    · exact Or.inr ⟨m, h1, by omega, h3⟩

/-! ## A register that is loaded -/

/-- It holds what it was loaded with last. -/
theorem loaded_last {α : Type*} {reg val : ℕ → α} {load : ℕ → Bool}
    (hstep : ∀ n, reg (n + 1) = if load n then val n else reg n) {k n : ℕ} (hk : load k = true)
    (hlt : k < n) (hlast : ∀ j, k < j → j < n → ¬ load j = true) : reg n = val k := by
  induction n, hlt using Nat.le_induction with
  | base => rw [hstep, if_pos hk]
  | succ n hkn ih =>
    rw [hstep, if_neg (hlast n hkn (Nat.lt_succ_self n))]
    exact ih fun j h1 h2 => hlast j h1 (by omega)

/-! ## The beats of a stream -/

/-- What a receiver does with a stream, cycle by cycle: the sender offers a
beat while `valid` is high, the edge hands the beat over when `ready` is high
too, and `take` says that the receiver stores the offered beat at that edge. -/
structure Sink where
  valid : ℕ → Bool
  ready : ℕ → Bool
  take : ℕ → Bool

namespace Sink

variable (k : Sink)

/-- The edge of cycle `n` hands a beat over. -/
def accepted (n : ℕ) : Bool := k.valid n && k.ready n

/-- The number of the beat that stands on the stream in cycle `n`. -/
def beat (n : ℕ) : ℕ := Nat.count (fun m => k.accepted m = true) n

/-- The receiver stored the offered beat one cycle ago, with `ready` low. -/
def held : ℕ → Bool
  | 0 => false
  | n + 1 => k.take n && !k.ready n

/-- A beat on the stream stays there until the edge that hands it over, the
receiver takes only beats that are offered, and a beat that it takes with
`ready` low is handed over by the next edge. -/
structure Orderly : Prop where
  stays : ∀ n, k.valid n = true → k.ready n = false → k.valid (n + 1) = true
  offered : ∀ n, k.take n = true → k.valid n = true
  raised : ∀ n, k.take n = true → k.ready n = false → k.ready (n + 1) = true

/-- Each accepted beat is stored once, at one edge, and the stores come in the
order of the beats. -/
structure TakesEachOnce : Prop where
  once : ∀ n, k.accepted n = true → ∃! m, k.take m = true ∧ k.beat m = k.beat n
  order : ∀ m m', k.take m = true → k.take m' = true → m < m' → k.beat m < k.beat m'

variable {k}

theorem beat_mono {m n : ℕ} (h : m ≤ n) : k.beat m ≤ k.beat n := Nat.count_monotone _ h

theorem beat_lt {m n : ℕ} (h : m < n) (ha : k.accepted m = true) : k.beat m < k.beat n := by
  have hs : k.beat (m + 1) = k.beat m + 1 := by
    rw [beat, Nat.count_succ, if_pos ha]
    rfl
  have := beat_mono (k := k) (show m + 1 ≤ n from h)
  omega

theorem beat_succ {n : ℕ} (ha : k.accepted n = false) : k.beat (n + 1) = k.beat n := by
  rw [beat, Nat.count_succ, if_neg (by rw [ha]; simp)]
  rfl

theorem accepted_of_held (h : k.Orderly) {n : ℕ} (hn : k.held n = true) :
    k.accepted n = true := by
  cases n with
  | zero => simp [held] at hn
  | succ n =>
    simp only [held, Bool.and_eq_true, Bool.not_eq_eq_eq_not, Bool.not_true] at hn
    have hv := h.stays n (h.offered n hn.1) hn.2
    have hr := h.raised n hn.1 hn.2
    simp [accepted, hv, hr]

/-- The stores of the beat that the edge of cycle `n` hands over: one at that
edge, one at the edge before it with `ready` low, or both. -/
theorem take_of_beat (h : k.Orderly) {m n : ℕ} (ha : k.accepted n = true)
    (hm : k.take m = true) (hb : k.beat m = k.beat n) :
    m = n ∨ (m + 1 = n ∧ k.held n = true) := by
  have hmn : m ≤ n := by
    by_contra hlt
    have := beat_lt (k := k) (m := n) (n := m) (by omega) ha
    omega
  rcases Nat.lt_or_ge m n with hlt | hge
  · right
    have hna : k.accepted m = false := by
      cases hc : k.accepted m
      · rfl
      · have := beat_lt hlt hc; omega
    have hr : k.ready m = false := by
      simpa [accepted, h.offered m hm] using hna
    have hheld : k.held (m + 1) = true := by simp [held, hm, hr]
    have hnext := accepted_of_held h hheld
    have heq : m + 1 = n := by
      by_contra hne
      have h1 := beat_lt (k := k) (m := m + 1) (n := n) (by omega) hnext
      have h2 := beat_succ hna
      omega
    exact ⟨heq, heq ▸ hheld⟩
  · left; omega

theorem beat_of_held {n : ℕ} (hn : k.held (n + 1) = true) : k.beat n = k.beat (n + 1) := by
  simp only [held, Bool.and_eq_true, Bool.not_eq_eq_eq_not, Bool.not_true] at hn
  rw [beat_succ]
  simp [accepted, hn.2]

/-- The receiver takes each accepted beat once exactly when, at each edge that
hands a beat over, either it takes the beat there or it holds it already. -/
theorem takesEachOnce_iff (h : k.Orderly) :
    k.TakesEachOnce ↔ ∀ n, k.accepted n = true → (k.take n ^^ k.held n) = true := by
  constructor
  · rintro ⟨hone, -⟩ n ha
    obtain ⟨m, ⟨hm, hb⟩, huniq⟩ := hone n ha
    cases hheld : k.held n
    · rcases take_of_beat h ha hm hb with rfl | ⟨-, hc⟩
      · simp [hm]
      · rw [hheld] at hc; cases hc
    · cases ht : k.take n
      · rfl
      · -- taken at both edges: the two stores would be one
        cases n with
        | zero => simp [held] at hheld
        | succ n =>
          have hb' := beat_of_held hheld
          simp only [held, Bool.and_eq_true] at hheld
          have e1 := huniq (n + 1) ⟨ht, rfl⟩
          have e2 := huniq n ⟨hheld.1, hb'⟩
          omega
  · intro hall
    have hone : ∀ n, k.accepted n = true → ∃! m, k.take m = true ∧ k.beat m = k.beat n := by
      intro n ha
      have hx := hall n ha
      cases ht : k.take n
      · rw [ht, Bool.false_xor] at hx
        cases n with
        | zero => simp [held] at hx
        | succ n =>
          have hb := beat_of_held hx
          have htn : k.take n = true := by
            simp only [held, Bool.and_eq_true] at hx
            exact hx.1
          refine ⟨n, ⟨htn, hb⟩, ?_⟩
          rintro m ⟨hm, hbm⟩
          rcases take_of_beat h ha hm hbm with rfl | ⟨he, -⟩
          · rw [ht] at hm; cases hm
          · omega
      · rw [ht, Bool.true_xor, Bool.not_eq_true'] at hx
        refine ⟨n, ⟨ht, rfl⟩, ?_⟩
        rintro m ⟨hm, hbm⟩
        rcases take_of_beat h ha hm hbm with rfl | ⟨-, hc⟩
        · rfl
        · rw [hx] at hc; cases hc
    refine ⟨hone, ?_⟩
    intro m m' hm hm' hlt
    have hle := beat_mono (k := k) (show m ≤ m' by omega)
    by_contra hnot
    have heq : k.beat m = k.beat m' := by omega
    -- a taken beat is handed over at this edge or at the next one
    have hacc : ∃ n, k.accepted n = true ∧ k.beat n = k.beat m' := by
      cases hr : k.ready m'
      · have hheld : k.held (m' + 1) = true := by simp [held, hm', hr]
        exact ⟨m' + 1, accepted_of_held h hheld, (beat_of_held hheld).symm⟩
      · exact ⟨m', by simp [accepted, h.offered m' hm', hr], rfl⟩
    obtain ⟨n, ha, hb⟩ := hacc
    obtain ⟨j, -, huniq⟩ := hone n ha
    have e1 := huniq m ⟨hm, by omega⟩
    have e2 := huniq m' ⟨hm', by omega⟩
    omega

end Sink

end clocked
