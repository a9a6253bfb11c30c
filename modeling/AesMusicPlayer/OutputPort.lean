-- The run of an M_AXIS port. A result that finds the port in S0 waits there
-- for the first cycle with M_AXIS_TREADY high, and is on the port two cycles
-- after that one, for one cycle.
import AesMusicPlayer.AesCore

open clocked

namespace aes_core

/-! ## One edge -/

theorem MAxis.clock_S0 {v l r : Bool} {d : Word} {m : MAxis} (h : m.state = .S0) :
    MAxis.clock true v l d r m =
      { busy := !r, tvalid := false, tdata := if v then d else m.tdata, tlast := v && l,
        state := if v then (if r then .S1 else .S2) else .S0 } := by
  cases v <;> cases r <;> simp [MAxis.clock, h]

theorem MAxis.clock_S1 {v l r : Bool} {d : Word} {m : MAxis} (h : m.state = .S1) :
    MAxis.clock true v l d r m = { m with tvalid := true, busy := true, state := .S0 } := by
  simp [MAxis.clock, h]

theorem MAxis.clock_S2 {v l r : Bool} {d : Word} {m : MAxis} (h : m.state = .S2) :
    MAxis.clock true v l d r m = { m with busy := true, state := if r then .S1 else .S2 } := by
  simp [MAxis.clock, h]

/-! ## The run -/

/-- The run of a port whose results `valid` find it in S0. -/
structure PortRun (valid last : ℕ → Bool) (data : ℕ → Word) (ready : ℕ → Bool)
    (st : ℕ → MAxis) : Prop where
  start : (st 0).state = .S0 ∧ (st 0).tvalid = false
  step : ∀ n, st (n + 1) = MAxis.clock true (valid n) (last n) (data n) (ready n) (st n)
  idle : ∀ n, valid n = true → (st n).state = .S0

namespace PortRun

variable {valid last ready : ℕ → Bool} {data : ℕ → Word} {st : ℕ → MAxis}

/-- The state of the port, told from the results and M_AXIS_TREADY. -/
theorem state_cases (h : PortRun valid last data ready st) (n : ℕ) :
    ((st n).state = .S0) ∨
    ((st n).state = .S1 ∧ (st n).tvalid = false ∧
      ∃ f, valid f = true ∧ ∃ r, FirstHigh ready f r ∧ n = r + 1) ∨
    ((st n).state = .S2 ∧ (st n).tvalid = false ∧
      ∃ f, valid f = true ∧ f < n ∧ ∀ k, f ≤ k → k < n → ready k = false) := by
  induction n with
  | zero => exact Or.inl h.start.1
  | succ n ih =>
    rw [h.step]
    rcases ih with h0 | ⟨h1, -, -⟩ | ⟨h2, hv, f, hf, hlt, hwait⟩
    · rw [MAxis.clock_S0 h0]
      cases hv : valid n
      · left; simp
      · cases hr : ready n
        · right; right
          refine ⟨by simp, rfl, n, hv, by omega, ?_⟩
          intro k hk hkn
          rw [show k = n by omega, hr]
        · right; left
          exact ⟨by simp, rfl, n, hv, n, ⟨Nat.le_refl n, hr, fun k h1 h2 => by omega⟩, rfl⟩
    · rw [MAxis.clock_S1 h1]
      exact Or.inl rfl
    · rw [MAxis.clock_S2 h2]
      cases hr : ready n
      · right; right
        refine ⟨by simp, hv, f, hf, by omega, ?_⟩
        intro k hk hkn
        rcases Nat.lt_or_ge k n with hc | hc
        · exact hwait k hk hc
        · rw [show k = n by omega, hr]
      · right; left
        exact ⟨by simp, hv, f, hf, n, ⟨by omega, hr, hwait⟩, rfl⟩

/-- A result that waits for M_AXIS_TREADY is in the port, in S2. -/
theorem waiting (h : PortRun valid last data ready st) {f n : ℕ} (hf : valid f = true)
    (hlt : f < n) (hwait : ∀ k, f ≤ k → k < n → ready k = false) :
    (st n).state = .S2 ∧ (st n).tdata = data f ∧ (st n).tlast = last f := by
  induction n, hlt using Nat.le_induction with
  | base => rw [h.step, MAxis.clock_S0 (h.idle f hf)]; simp [hf, hwait f (by omega) (by omega)]
  | succ n hn ih =>
    obtain ⟨hs, hd, hl⟩ := ih (fun k h1 h2 => hwait k h1 (by omega))
    rw [h.step, MAxis.clock_S2 hs, hwait n (by omega) (by omega)]
    exact ⟨by simp, hd, hl⟩

/-- After the first cycle with M_AXIS_TREADY high the port is in S1. -/
theorem passing (h : PortRun valid last data ready st) {f r : ℕ} (hf : valid f = true)
    (hr : FirstHigh ready f r) :
    (st (r + 1)).state = .S1 ∧ (st (r + 1)).tdata = data f ∧ (st (r + 1)).tlast = last f := by
  obtain ⟨hle, hhigh, hwait⟩ := hr
  rcases Nat.lt_or_ge f r with hlt | hge
  · obtain ⟨hs, hd, hl⟩ := h.waiting hf hlt hwait
    rw [h.step, MAxis.clock_S2 hs, hhigh]
    exact ⟨by simp, hd, hl⟩
  · obtain rfl : f = r := by omega
    rw [h.step, MAxis.clock_S0 (h.idle f hf)]
    simp [hf, hhigh]

/-- The result is on the port two cycles after that one. -/
theorem presented (h : PortRun valid last data ready st) {f r : ℕ} (hf : valid f = true)
    (hr : FirstHigh ready f r) :
    (st (r + 2)).tvalid = true ∧ (st (r + 2)).tdata = data f ∧ (st (r + 2)).tlast = last f ∧
      (st (r + 2)).state = .S0 := by
  obtain ⟨hs, hd, hl⟩ := h.passing hf hr
  rw [show r + 2 = r + 1 + 1 from rfl, h.step, MAxis.clock_S1 hs]
  exact ⟨rfl, hd, hl, rfl⟩

/-- M_AXIS_TVALID is high only for a result, two cycles after the first
M_AXIS_TREADY. -/
theorem tvalid_iff (h : PortRun valid last data ready st) (g : ℕ) :
    (st g).tvalid = true ↔
      ∃ f, valid f = true ∧ ∃ r, FirstHigh ready f r ∧ g = r + 2 := by
  constructor
  · intro hg
    cases g with
    | zero => rw [h.start.2] at hg; cases hg
    | succ n =>
      rw [h.step] at hg
      rcases h.state_cases n with h0 | ⟨h1, -, f, hf, r, hr, hn⟩ | ⟨h2, hv, -⟩
      · rw [MAxis.clock_S0 h0] at hg; cases hg
      · exact ⟨f, hf, r, hr, by omega⟩
      · rw [MAxis.clock_S2 h2] at hg
        rw [hv] at hg; cases hg
  · rintro ⟨f, hf, r, hr, rfl⟩
    exact (h.presented hf hr).1

end PortRun

end aes_core
