-- The S_AXIS port of an engine. The FSM looks at S_AXIS_TVALID only, while
-- the edges that hand a beat over need the registered S_AXIS_TREADY too, so a
-- beat may be taken at the edge before the one that hands it over.
import AesMusicPlayer.AesCore

open clocked

namespace aes_core

/-- The signals of an S_AXIS port in each cycle of a run. -/
structure InputPort where
  ins : ℕ → Inputs
  state : ℕ → Fsm
  tready : ℕ → Bool
  setup_needed : ℕ → Bool
  busy : ℕ → Bool
  finished : ℕ → Bool
  key : ℕ → Word
  data : ℕ → Word
  data_last : ℕ → Bool

namespace InputPort

variable (p : InputPort)

/-- The edge of cycle `n` stores S_AXIS_TDATA in the key register. -/
def takesKey (n : ℕ) : Bool :=
  p.setup_needed n && (p.ins n).tvalid &&
    (p.state n == .S0 || (p.state n == .S1 && p.finished n))

/-- The edge of cycle `n` stores S_AXIS_TDATA in the data register. -/
def takesData (n : ℕ) : Bool :=
  p.state n == .S0 && (!p.setup_needed n && !p.busy n && (p.ins n).tvalid)

def sink : Sink where
  valid n := (p.ins n).tvalid
  ready := p.tready
  take n := p.takesKey n || p.takesData n

/-- S_AXIS_TVALID, once high, stays high with the same beat until an edge with
S_AXIS_TREADY high. -/
def Conforms : Prop :=
  ∀ n, (p.ins n).tvalid = true → p.tready n = false →
    (p.ins (n + 1)).tvalid = true ∧ (p.ins (n + 1)).tdata = (p.ins n).tdata ∧
      (p.ins (n + 1)).tlast = (p.ins n).tlast

/-- The registers change at the edges that take a beat, and only there. -/
structure Stores : Prop where
  key_step : ∀ n, p.key (n + 1) = if p.takesKey n then (p.ins n).tdata else p.key n
  data_step : ∀ n, p.data (n + 1) = if p.takesData n then (p.ins n).tdata else p.data n
  last_step : ∀ n, p.takesData n = true → p.data_last (n + 1) = (p.ins n).tlast

/-- What the input state machines of both engines do. -/
structure Laws : Prop extends p.Stores where
  ready_of_take : ∀ n, p.sink.take n = true → p.tready (n + 1) = true
  /-- Outside S0 the port is open in the cycle after a take only, and takes nothing there. -/
  open_outside : ∀ n, p.state n ≠ .S0 → p.tready n = true →
    p.finished n = false ∧ ∃ m, n = m + 1 ∧ p.sink.take m = true
  leaves_S0 : ∀ n, p.takesData n = true → p.state (n + 1) ≠ .S0

/-- The key register got the offered beat one cycle ago, with S_AXIS_TREADY low. -/
def keyHeld : ℕ → Bool
  | 0 => false
  | n + 1 => p.takesKey n && !p.tready n

/-- The FSM is in step with the beat that the edge of cycle `n` hands over. In
S0 it passes over the beat exactly when the beat is the key that it has taken
already, and outside S0 no beat was handed over at the edge before. -/
def InStep (n : ℕ) : Prop :=
  if p.state n = .S0 then
    (p.setup_needed n = false ∧ p.busy n = true ↔ p.keyHeld n = true)
  else ∀ m, n = m + 1 → p.sink.accepted m = false

variable {p}

/-- No beat goes to both registers at one edge. -/
theorem key_or_data (n : ℕ) : ¬ (p.takesKey n = true ∧ p.takesData n = true) := by
  rintro ⟨hk, hd⟩
  simp only [takesKey, takesData, Bool.and_eq_true, Bool.not_eq_eq_eq_not, Bool.not_true] at hk hd
  rw [hk.1.1] at hd
  cases hd.2.1.1

theorem valid_of_take {n : ℕ} (h : p.sink.take n = true) : (p.ins n).tvalid = true := by
  simp only [sink, takesKey, takesData, Bool.or_eq_true, Bool.and_eq_true] at h
  rcases h with h | h
  · exact h.1.2
  · exact h.2.2

theorem orderly (h : p.Laws) (hc : p.Conforms) : p.sink.Orderly where
  stays n hv hr := (hc n hv hr).1
  offered _ ht := valid_of_take ht
  raised n ht _ := h.ready_of_take n ht

theorem not_ready_of_take {n : ℕ} (ht : p.sink.take n = true) (ha : p.sink.accepted n = false) :
    p.tready n = false := by
  have hv : p.sink.valid n = true := valid_of_take ht
  rw [Sink.accepted, hv, Bool.true_and] at ha
  exact ha

/-- What is taken of a beat is the beat that is handed over. -/
theorem taken_beat (h : p.Laws) (hc : p.Conforms) {m n : ℕ} (ha : p.sink.accepted n = true)
    (ht : p.sink.take m = true) (hb : p.sink.beat m = p.sink.beat n) :
    (p.ins m).tdata = (p.ins n).tdata ∧ (p.ins m).tlast = (p.ins n).tlast := by
  rcases Sink.take_of_beat (orderly h hc) ha ht hb with rfl | ⟨rfl, hheld⟩
  · exact ⟨rfl, rfl⟩
  · simp only [Sink.held, Bool.and_eq_true, Bool.not_eq_eq_eq_not, Bool.not_true] at hheld
    obtain ⟨-, hd, hl⟩ := hc m (valid_of_take ht) hheld.2
    exact ⟨hd.symm, hl.symm⟩

theorem take_S0 {n : ℕ} (hs : p.state n = .S0) (hv : (p.ins n).tvalid = true) :
    p.sink.take n = (p.setup_needed n || !p.busy n) := by
  simp only [sink, takesKey, takesData, hs, hv]
  cases p.setup_needed n <;> simp

theorem held_S0 (h : p.Laws) {n : ℕ} (hs : p.state n = .S0) : p.sink.held n = p.keyHeld n := by
  cases n with
  | zero => rfl
  | succ n =>
    have hd : p.takesData n = false := by
      cases hd : p.takesData n
      · rfl
      · exact absurd hs (h.leaves_S0 n hd)
    simp [Sink.held, keyHeld, sink, hd]

/-- Outside S0 the port takes nothing, so the beat must be held. -/
theorem take_outside (h : p.Laws) {n : ℕ} (hs : p.state n ≠ .S0) (hr : p.tready n = true) :
    p.sink.take n = false := by
  obtain ⟨hf, -⟩ := h.open_outside n hs hr
  simp [sink, takesKey, takesData, hf, hs]

theorem held_outside (h : p.Laws) {n : ℕ} (hs : p.state n ≠ .S0) (hr : p.tready n = true) :
    p.sink.held n = true ↔ ∀ m, n = m + 1 → p.sink.accepted m = false := by
  obtain ⟨-, m, rfl, ht⟩ := h.open_outside n hs hr
  have hv : p.sink.valid m = true := valid_of_take ht
  have hr : p.sink.accepted m = p.sink.ready m := by simp [Sink.accepted, hv]
  simp [Sink.held, ht, hr]

theorem inStep_iff (h : p.Laws) {n : ℕ} (ha : p.sink.accepted n = true) :
    (p.sink.take n ^^ p.sink.held n) = true ↔ p.InStep n := by
  have hv : (p.ins n).tvalid = true := by
    simp only [Sink.accepted, Bool.and_eq_true] at ha
    exact ha.1
  have hr : p.tready n = true := by
    simp only [Sink.accepted, Bool.and_eq_true] at ha
    exact ha.2
  unfold InStep
  split_ifs with hs
  · rw [take_S0 hs hv, held_S0 h hs]
    cases p.setup_needed n <;> cases p.busy n <;> cases p.keyHeld n <;> simp
  · rw [take_outside h hs hr, Bool.false_xor]
    exact held_outside h hs hr

/-- The promise of the port: each beat that is handed over is taken once, as a
key or as data, with its own content, and in order. -/
structure EachBeatOnce (p : InputPort) : Prop where
  taken : p.sink.TakesEachOnce
  stores : p.Stores
  apart : ∀ n, ¬ (p.takesKey n = true ∧ p.takesData n = true)
  content : ∀ m n, p.sink.accepted n = true → p.sink.take m = true →
    p.sink.beat m = p.sink.beat n →
    (p.ins m).tdata = (p.ins n).tdata ∧ (p.ins m).tlast = (p.ins n).tlast

/-- With a sender that conforms, each beat is taken once exactly when the FSM
is in step with each beat that is handed over. -/
theorem eachBeatOnce_iff (h : p.Laws) (hc : p.Conforms) :
    p.EachBeatOnce ↔ ∀ n, p.sink.accepted n = true → p.InStep n := by
  have hsink := Sink.takesEachOnce_iff (orderly h hc)
  constructor
  · intro hall n ha
    exact (inStep_iff h ha).mp (hsink.mp hall.taken n ha)
  · intro hall
    refine ⟨hsink.mpr fun n ha => (inStep_iff h ha).mpr (hall n ha), h.toStores, key_or_data, ?_⟩
    intro m n ha ht hb
    exact taken_beat h hc ha ht hb

end InputPort

end aes_core
