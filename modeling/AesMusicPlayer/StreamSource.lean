-- The sender of a stream with a valid and a ready wire. The rule of the
-- handshake, what is transferred, and the senders that show each result for
-- one cycle. Nothing here knows a particular port.
import AesMusicPlayer.Serial

open serial

namespace stream

/-- The wires of a sender in each cycle. A beat is the data with its last flag. -/
structure Source (α : Type*) where
  tvalid : ℕ → Bool
  tready : ℕ → Bool
  beat : ℕ → α

namespace Source

variable {α : Type*} (P : Source α)

/-- What is offered stays as it is until the receiver is ready. -/
def Stable : Prop :=
  ∀ n, P.tvalid n = true → P.tready n = false →
    P.tvalid (n + 1) = true ∧ P.beat (n + 1) = P.beat n

def transferred_at (n : ℕ) : Option α :=
  if P.tvalid n && P.tready n then some (P.beat n) else none

def shown_at (n : ℕ) : Option α := if P.tvalid n then some (P.beat n) else none

/-- The beats that the receiver has taken before a cycle. -/
def transferred : ℕ → List α := events P.transferred_at

/-- The beats that were on the wires before a cycle, one for each cycle. -/
def shown : ℕ → List α := events P.shown_at

/-- Each result is transferred exactly once and in order. A receiver that is never ready
again takes nothing. -/
structure Delivers (results : ℕ → Option α) : Prop where
  stable : P.Stable
  only : ∀ n, P.transferred n <+: events results n
  all : ∀ n k, n ≤ k → P.tready k = true → ∃ m, events results n <+: P.transferred m

/-- Each result is shown for one cycle, whatever the receiver does in it. -/
structure Pulses (results : ℕ → Option α) : Prop where
  single : ∀ n, P.tvalid n = true → P.tvalid (n + 1) = false
  only : ∀ n, P.shown n <+: events results n
  all : ∀ n k, n ≤ k → P.tready k = true → ∃ m, events results n <+: P.shown m

/-- The receiver is ready in each cycle in which something is shown. -/
def ReadyWhenShown : Prop := ∀ n, P.tvalid n = true → P.tready n = true

variable {P} {results : ℕ → Option α}

theorem stable_of_ready (h : P.ReadyWhenShown) : P.Stable := by
  intro n hv hr
  rw [h n hv] at hr
  cases hr

/-- A pulse does not wait. -/
theorem ready_of_stable (h : P.Stable)
    (hsingle : ∀ n, P.tvalid n = true → P.tvalid (n + 1) = false) : P.ReadyWhenShown := by
  intro n hv
  by_contra hr
  obtain ⟨hnext, -⟩ := h n hv (by simpa using hr)
  rw [hsingle n hv] at hnext
  cases hnext

theorem transferred_eq_shown (h : P.ReadyWhenShown) (n : ℕ) : P.transferred n = P.shown n := by
  have hat : P.transferred_at = P.shown_at := by
    funext k
    unfold transferred_at shown_at
    cases hv : P.tvalid k with
    | false => rfl
    | true => rw [h k hv, Bool.and_true]
  unfold transferred shown
  rw [hat]

/-- Such a sender delivers its results to the receivers that are ready in time, and to no
others. -/
theorem Pulses.delivers_iff (h : P.Pulses results) : P.Delivers results ↔ P.ReadyWhenShown := by
  constructor
  · intro hd
    exact ready_of_stable hd.stable h.single
  · intro hr
    refine ⟨stable_of_ready hr, ?_, ?_⟩
    · intro n
      rw [transferred_eq_shown hr]
      exact h.only n
    · intro n k hle hk
      obtain ⟨m, hm⟩ := h.all n k hle hk
      refine ⟨m, ?_⟩
      rw [transferred_eq_shown hr]
      exact hm

/-- Something that is shown and is no result breaks the delivery. -/
theorem not_delivers_of_shown (hsingle : ∀ n, P.tvalid n = true → P.tvalid (n + 1) = false) {n : ℕ}
    (hv : P.tvalid n = true) (hnone : events results (n + 1) = []) : ¬ P.Delivers results := by
  intro hd
  have hr := ready_of_stable hd.stable hsingle n hv
  have hpre := hd.only (n + 1)
  unfold transferred at hpre
  rw [hnone, events_succ, show P.transferred_at n = some (P.beat n) by
    unfold transferred_at; rw [hv, hr]; rfl] at hpre
  have hlen := hpre.length_le
  rw [List.length_append] at hlen
  exact absurd hlen (Nat.not_succ_le_zero _)

end Source

end stream
