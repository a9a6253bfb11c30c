-- What the UI and its workers hand over: the list of descriptors, the results,
-- the ends of the pipes and the objects. The worker gives its object away with
-- the message, and then still reads a field of it.
import AesMusicPlayer.AesResults
import Mathlib.Data.Set.Finite.Lattice
import Mathlib.Data.Set.Function
import Mathlib.Order.Interval.Set.Nat

open traces holdings

namespace ui_thread

/-! ## What the log says -/

/-- What the sessions have come past. -/
def Past (σ : ℕ → Option Session) (ev : Event) : Prop :=
  Holds σ (fun k x ev (_ : Unit) => Session.Done k x ev) ev ()

/-- The log holds what the sessions have come past, each once. -/
structure Logged (tr : List (State × Action)) (σ : ℕ → Option Session) : Prop where
  nodup : (log tr).Nodup
  past : ∀ ev, ev ∈ log tr ↔ Past σ ev

theorem log_append (tr : List (State × Action)) (s : State) (a : Action) :
    log (tr ++ [(s, a)]) = log tr ++ events s a := by
  simp [log]

theorem nodup_events (s : State) (a : Action) : (events s a).Nodup := by
  unfold events
  split <;> split <;> simp

/-- An event is of one session. -/
theorem Session.Done.unique {k k' : ℕ} {x y : Session} {ev : Event} (h : x.Done k ev)
    (h' : y.Done k' ev) : k = k' := by
  cases h <;> cases h' <;> rfl

/-- What a session has come past stays behind it. -/
theorem Session.Step.done {k : ℕ} {x y : Session} {ev : Event} (h : Session.Step x y)
    (hd : x.Done k ev) : y.Done k ev := by
  cases hd with
  | handled hs => cases h <;> refine .handled ?_ <;> simp_all [Stage.served]
  | read hs => cases h <;> refine .read ?_ <;> simp_all
  | write hp => cases h <;> refine .write ?_ <;> simp_all

theorem Logged.next {tr : List (State × Action)} {s : State} {a : Action}
    {σ σ' : ℕ → Option Session} (h : Logged tr σ) (hm : Moves s a σ σ') :
    Logged (tr ++ [(s, a)]) σ' := by
  cases hm with
  | none hev =>
    refine ⟨?_, ?_⟩ <;> rw [log_append, hev, List.append_nil]
    · exact h.nodup
    · exact h.past
  | begins k x hk hst hp hev =>
    refine ⟨?_, ?_⟩ <;> rw [log_append, hev, List.append_nil]
    · exact h.nodup
    · intro ev
      have hno : ¬ Session.Done k x ev := by
        rintro (hs | hs | hs)
        · rw [hst] at hs
          cases hs
        · rw [hst] at hs
          cases hs
        · rw [hp] at hs
          cases hs
      rw [h.past]
      unfold Past
      rw [Table.holds_update]
      constructor
      · rintro ⟨k', z, hz, hd⟩
        refine Or.inr ⟨k', z, ?_, hz, hd⟩
        rintro rfl
        rw [hk] at hz
        cases hz
      · rintro (hd | ⟨k', z, -, hz, hd⟩)
        · exact absurd hd hno
        · exact ⟨k', z, hz, hd⟩
  | one k x y hk hstep hev =>
    refine ⟨?_, ?_⟩ <;> rw [log_append]
    · refine List.nodup_append.mpr ⟨h.nodup, nodup_events s a, ?_⟩
      rintro ev hold _ hnew rfl
      obtain ⟨hy, hx⟩ := (hev ev).mp hnew
      obtain ⟨k', z, hz, hd⟩ := (h.past ev).mp hold
      obtain rfl := hd.unique hy
      rw [hk] at hz
      rw [Option.some.inj hz] at hx
      exact hx hd
    · intro ev
      rw [List.mem_append, h.past, hev]
      unfold Past
      rw [Table.holds_update, Table.holds_split hk]
      have hmono : x.Done k ev → y.Done k ev := hstep.done
      constructor
      · rintro ((hd | hd) | ⟨hd, -⟩)
        · exact Or.inl (hmono hd)
        · exact Or.inr hd
        · exact Or.inl hd
      · rintro (hd | hd)
        · by_cases hx : x.Done k ev
          · exact Or.inl (Or.inl hx)
          · exact Or.inr ⟨hd, hx⟩
        · exact Or.inl (Or.inr hd)

/-- A run in time is a run of sessions. -/
theorem sessions_of_run {tr : List (State × Action)} {s : State}
    (h : Run system InTime .initial tr s) : ∃ σ, Fits s σ ∧ Logged tr σ := by
  apply h.inv_trace (I := fun tr s => ∃ σ, Fits s σ ∧ Logged tr σ)
  · refine ⟨fun _ => none, fits_initial, List.nodup_nil, fun ev => ⟨nofun, ?_⟩⟩
    rintro ⟨_, _, hk, _⟩
    cases hk
  · rintro tr s a ⟨σ, hf, hl⟩ he ho
    obtain ⟨σ', hf', hm⟩ := hf.next he ho
    exact ⟨σ', hf', hl.next hm⟩

/-! ## What is handed over -/

/-- The worker is there, and its result is not handled yet. -/
def Unhandled (tr : List (State × Action)) (s : State) (k : ℕ) : Prop :=
  (s.worker k).isSome = true ∧ .handled (some k) ∉ log tr

/-- Nothing brings the UI out of its `select` but the keyboard, the player or `main`. -/
def Waits (s : State) : Prop :=
  s.ui = .exited ∨ s.ui = .select ∧ ∀ fd ∈ s.aes_to_ui_read_pipe_fds, s.readable fd = false

/-- The steps of the UI up to its next `select`, at most, with `n` descriptors on the list. -/
def UiStep.turns (n : ℕ) : UiStep → ℕ
  | .select | .exited => 0
  | .results _ it => 4 * (n - it) + 4
  | .handle _ it _ => 4 * (n - it) + 3
  | .delete _ it _ => 4 * (n - it) + 2
  | .close _ it => 4 * (n - it) + 1
  | .stdin => 3
  | .new _ => 2
  | .start _ => 1
  | .exit fds => fds.length + 1

def State.turns (s : State) : ℕ := s.ui.turns s.aes_to_ui_read_pipe_fds.length

/-- Outside of `start_aes_thread` and of the handling of a result, the list has one descriptor
for each worker whose result is not handled, and each open end has its owner. Whenever, what
is handled or closed is handled or closed once, nothing else is closed, and a worker that
still reads fields finds its own object. The UI comes back to its `select`, and waits there
only when all results are handled. -/
structure HandedOver (tr : List (State × Action)) (s : State) : Prop where
  one_to_one : s.ui.busy = false → ∃ of : Fd → ℕ,
    Set.BijOn of {fd | fd ∈ s.aes_to_ui_read_pipe_fds} {k | Unhandled tr s k} ∧
      ∀ fd ∈ s.aes_to_ui_read_pipe_fds, s.fds fd = some (.read (of fd))
  nodup : s.aes_to_ui_read_pipe_fds.Nodup
  read_open : ∀ fd k, s.fds fd = some (.read k) → fd ∈ s.aes_to_ui_read_pipe_fds
  write_open : s.ui.busy = false → ∀ fd k, s.fds fd = some (.write k) →
    ∃ w, s.worker k = some w ∧ w.pc ≠ .exited
  once : (log tr).Nodup
  handled : ∀ o, .handled o ∈ log tr →
    ∃ k w, o = some k ∧ s.worker k = some w ∧ w.pc.sent = true
  none_left : Waits s → ∀ k w, s.worker k = some w → w.pc.sent = true →
    .handled (some k) ∈ log tr
  closed : .closed none ∉ log tr
  write_closed : ∀ k, .closed (some (.write k)) ∈ log tr ↔
    ∃ w, s.worker k = some w ∧ w.pc = .exited
  read_closed : s.ui.busy = false → ∀ k, .closed (some (.read k)) ∈ log tr ↔
    .handled (some k) ∈ log tr
  objects : ∀ k w, s.worker k = some w → w.pc.loaded = false →
    ∃ o, s.heap w.this = some o ∧ o.id = k
  goes_on : s.ui ≠ .select → s.ui ≠ .exited →
    (∃ o, UiEnabled o s) ∧ ∀ o, (ui_step o s).turns < s.turns

section

variable {tr : List (State × Action)} {s : State} {σ : ℕ → Option Session} {k : ℕ} {x : Session}

theorem Logged.handled_iff (h : Logged tr σ) (hk : σ k = some x) :
    .handled (some k) ∈ log tr ↔ x.stage.served = true := by
  rw [h.past]
  constructor
  · rintro ⟨k', z, hz, hd⟩
    cases hd with
    | handled hs =>
      rw [hk] at hz
      rw [Option.some.inj hz]
      exact hs
  · exact fun hs => ⟨k, x, hk, .handled hs⟩

theorem Logged.read_iff (h : Logged tr σ) (hk : σ k = some x) :
    .closed (some (.read k)) ∈ log tr ↔ x.stage = .closed := by
  rw [h.past]
  constructor
  · rintro ⟨k', z, hz, hd⟩
    cases hd with
    | read hs =>
      rw [hk] at hz
      rw [Option.some.inj hz]
      exact hs
  · exact fun hs => ⟨k, x, hk, .read hs⟩

/-- What the log names has a session. -/
theorem Logged.session (h : Logged tr σ) {ev : Event} (he : ev ∈ log tr) :
    ∃ k x, σ k = some x ∧ x.Done k ev :=
  (h.past ev).mp he

namespace Fits

theorem stage_of_listed (h : Fits s σ) (hb : s.ui.busy = false) (hk : σ k = some x)
    (hl : x.stage.listed = true) : x.stage = .waiting := by
  have hidle := h.idle_of_not_busy hb hk
  cases hst : x.stage <;> simp_all [Stage.idle, Stage.listed]

/-- A descriptor of the list is the read end of a session. -/
theorem of_mem (h : Fits s σ) {fd : Fd} (hfd : fd ∈ s.aes_to_ui_read_pipe_fds) :
    ∃ k x, σ k = some x ∧ x.stage.listed = true ∧ x.read_fd = fd ∧ s.fds fd = some (.read k) := by
  obtain ⟨k, hread⟩ := (h.list fd).mp hfd
  obtain ⟨_, x, hk, hx⟩ := (h.fds _ _).mp hread
  cases hx with
  | read hl => exact ⟨k, x, hk, hl, rfl, hread⟩

theorem one_to_one (h : Fits s σ) (hl : Logged tr σ) (hb : s.ui.busy = false) :
    ∃ of : Fd → ℕ, Set.BijOn of {fd | fd ∈ s.aes_to_ui_read_pipe_fds} {k | Unhandled tr s k} ∧
      ∀ fd ∈ s.aes_to_ui_read_pipe_fds, s.fds fd = some (.read (of fd)) := by
  have hof : ∀ fd, ∃ k, fd ∈ s.aes_to_ui_read_pipe_fds → s.fds fd = some (.read k) := by
    intro fd
    by_cases hfd : fd ∈ s.aes_to_ui_read_pipe_fds
    · obtain ⟨k, hread⟩ := (h.list fd).mp hfd
      exact ⟨k, fun _ => hread⟩
    · exact ⟨0, fun hno => absurd hno hfd⟩
  choose of hof using hof
  refine ⟨of, ⟨?_, ?_, ?_⟩, hof⟩
  · intro fd hfd
    obtain ⟨k, x, hk, hx, -, hread⟩ := h.of_mem hfd
    have heq : of fd = k := by
      have hr := hof fd hfd
      rw [hread] at hr
      cases hr
      rfl
    have hst := h.stage_of_listed hb hk hx
    refine ⟨?_, ?_⟩
    · rw [heq, h.worker_of hk (by rw [hst]; rfl)]
      rfl
    · rw [heq, hl.handled_iff hk, hst]
      exact nofun
  · intro fd hfd fd' hfd' heq
    obtain ⟨k, x, hk, hx, rfl, hread⟩ := h.of_mem hfd
    obtain ⟨k', y, hk', hy, rfl, hread'⟩ := h.of_mem hfd'
    have hr := hof _ hfd
    have hr' := hof _ hfd'
    rw [hread] at hr
    rw [hread', ← heq, ← hr] at hr'
    cases hr'
    rw [Option.some.inj (hk.symm.trans hk')]
  · rintro k ⟨hw, hno⟩
    obtain ⟨w, hw⟩ := Option.isSome_iff_exists.mp hw
    obtain ⟨x, hk, hs, -⟩ := h.of_worker hw
    rw [hl.handled_iff hk] at hno
    have hidle := h.idle_of_not_busy hb hk
    have hst : x.stage = .waiting := by
      cases hst : x.stage <;> simp_all [Stage.idle, Stage.served]
    have hread := h.read_fd hk (by rw [hst]; rfl)
    have hmem := (h.list _).mpr ⟨k, hread⟩
    refine ⟨x.read_fd, hmem, ?_⟩
    have hr := hof _ hmem
    rw [hread] at hr
    cases hr
    rfl

theorem write_open (h : Fits s σ) (hb : s.ui.busy = false) {fd : Fd}
    (hw : s.fds fd = some (.write k)) : ∃ w, s.worker k = some w ∧ w.pc ≠ .exited := by
  obtain ⟨_, x, hk, hx⟩ := (h.fds _ _).mp hw
  cases hx with
  | write hp =>
    have hidle := h.idle_of_not_busy hb hk
    have hs : x.stage.started = true := by
      cases hst : x.stage <;> simp_all [Stage.idle, Stage.started]
    exact ⟨_, h.worker_of hk hs, hp⟩

/-- What is handled has been sent. -/
theorem handled_sent (h : Fits s σ) (hl : Logged tr σ) {o : Option ℕ}
    (ho : .handled o ∈ log tr) : ∃ k w, o = some k ∧ s.worker k = some w ∧ w.pc.sent = true := by
  obtain ⟨k, x, hk, hd⟩ := hl.session ho
  cases hd with
  | handled hs =>
    have hstarted : x.stage.started = true := by
      cases hst : x.stage <;> simp_all [Stage.served, Stage.started]
    have htaken : x.stage.taken = true := by
      cases hst : x.stage <;> simp_all [Stage.served, Stage.taken]
    exact ⟨k, _, rfl, h.worker_of hk hstarted, (h.ok k x hk).sent htaken⟩

theorem none_left (h : Fits s σ) (hl : Logged tr σ) (hwait : Waits s) {w : Worker}
    (hw : s.worker k = some w) (hsent : w.pc.sent = true) : .handled (some k) ∈ log tr := by
  obtain ⟨x, hk, hs, rfl⟩ := h.of_worker hw
  rw [hl.handled_iff hk]
  have hb : s.ui.busy = false := by
    rcases hwait with hui | ⟨hui, -⟩ <;> rw [hui] <;> rfl
  have hidle := h.idle_of_not_busy hb hk
  by_contra hno
  have hst : x.stage = .waiting := by
    cases hst : x.stage <;> simp_all [Stage.idle, Stage.served]
  have hread := h.read_fd hk (by rw [hst]; rfl)
  have hmem := (h.list _).mpr ⟨k, hread⟩
  rcases hwait with hui | ⟨-, hnone⟩
  · rw [h.leaves (by rw [hui]; rfl)] at hmem
    cases hmem
  · have hr := hnone _ hmem
    unfold State.readable at hr
    rw [hread] at hr
    simp [h.pipes k x hk, Session.pipe, hst, hsent] at hr

theorem write_closed (h : Fits s σ) (hl : Logged tr σ) (k : ℕ) :
    .closed (some (.write k)) ∈ log tr ↔ ∃ w, s.worker k = some w ∧ w.pc = .exited := by
  constructor
  · intro hev
    obtain ⟨_, x, hk, hd⟩ := hl.session hev
    cases hd with
    | write hp =>
      have hs : x.stage.started = true := by
        by_contra hno
        have hrun := (h.ok k x hk).fresh (Bool.not_eq_true _ ▸ hno)
        rw [hp] at hrun
        cases hrun
      exact ⟨_, h.worker_of hk hs, hp⟩
  · rintro ⟨w, hw, hp⟩
    obtain ⟨x, hk, -, rfl⟩ := h.of_worker hw
    exact (hl.past _).mpr ⟨k, x, hk, .write hp⟩

theorem read_closed (h : Fits s σ) (hl : Logged tr σ) (hb : s.ui.busy = false) (k : ℕ) :
    .closed (some (.read k)) ∈ log tr ↔ .handled (some k) ∈ log tr := by
  cases hk : σ k with
  | none =>
    constructor
    · intro hev
      obtain ⟨_, x, hk', hd⟩ := hl.session hev
      cases hd
      rw [hk] at hk'
      cases hk'
    · intro hev
      obtain ⟨_, x, hk', hd⟩ := hl.session hev
      cases hd
      rw [hk] at hk'
      cases hk'
  | some x =>
    rw [hl.read_iff hk, hl.handled_iff hk]
    have hidle := h.idle_of_not_busy hb hk
    cases hst : x.stage <;> simp_all [Stage.idle, Stage.served]

theorem objects (h : Fits s σ) {w : Worker} (hw : s.worker k = some w)
    (hload : w.pc.loaded = false) : ∃ o, s.heap w.this = some o ∧ o.id = k := by
  obtain ⟨x, hk, hs, rfl⟩ := h.of_worker hw
  exact ⟨_, h.object hk (h.alive_of_not_loaded hk hs hload), rfl⟩

theorem closed_some (hl : Logged tr σ) : .closed none ∉ log tr := by
  intro hev
  obtain ⟨k, x, -, hd⟩ := hl.session hev
  cases hd

/-! ## The UI goes on -/

/-- There is an address without an object. -/
theorem exists_free (h : Fits s σ) : ∃ p, s.heap p = none := by
  have hfin : {p | s.heap p ≠ none}.Finite := by
    refine ((Set.finite_le_nat s.starts).image fun k => (σ k).elim 0 Session.this).subset ?_
    intro p hp
    obtain ⟨o, ho⟩ := Option.ne_none_iff_exists'.mp hp
    obtain ⟨k, x, hk, hx⟩ := (h.heap _ _).mp ho
    have hle : k ≤ s.starts := by
      rcases (h.starts k).mp (by rw [hk]; rfl) with hlt | ⟨heq, -⟩
      · exact hlt.le
      · exact heq.le
    refine ⟨k, hle, ?_⟩
    cases hx
    simp only [hk, Option.elim_some]
  obtain ⟨p, hp⟩ := hfin.exists_notMem
  exact ⟨p, by simpa using hp⟩

theorem ui_enabled (h : Fits s σ) (hsel : s.ui ≠ .select) (hex : s.ui ≠ .exited) :
    ∃ o, UiEnabled o s := by
  let o : Outside := ⟨false, false, false, none, 0, true⟩
  cases hui : s.ui with
  | select => exact absurd hui hsel
  | exited => exact absurd hui hex
  | results r it =>
    refine ⟨o, ?_⟩
    unfold UiEnabled
    rw [hui]
    intro fd hfd hmem
    obtain ⟨k, x, hk, hl, rfl, hread⟩ := h.of_mem (List.mem_of_getElem? hfd)
    have hst := h.stage_of_listed (by rw [hui]; rfl) hk hl
    have hready := h.ready
    rw [hui] at hready
    have hsent := hready _ hmem k x hk rfl hst
    unfold State.blocks
    rw [hread]
    simp [h.pipes k x hk, Session.pipe, hst, hsent]
  | new p1 =>
    obtain ⟨p, hp⟩ := h.exists_free
    refine ⟨{ o with t := p }, ?_⟩
    unfold UiEnabled
    rw [hui]
    exact hp
  | stdin =>
    refine ⟨o, ?_⟩
    unfold UiEnabled
    rw [hui]
    rintro _ ⟨⟩
  | _ =>
    refine ⟨o, ?_⟩
    unfold UiEnabled
    rw [hui]
    trivial

/-- Each step brings the UI closer to its next `select`. -/
theorem turns_lt (h : Fits s σ) (hsel : s.ui ≠ .select) (hex : s.ui ≠ .exited) (o : Outside) :
    (ui_step o s).turns < s.turns := by
  have hattended := h.attends
  unfold State.turns ui_step
  cases hui : s.ui with
  | select => exact absurd hui hsel
  | exited => exact absurd hui hex
  | results r it =>
    dsimp only
    cases hget : s.aes_to_ui_read_pipe_fds[it]? with
    | none => cases o.key <;> simp [UiStep.turns]
    | some fd =>
      obtain ⟨hlt, -⟩ := List.getElem?_eq_some_iff.mp hget
      have hread : (s.read fd).2.aes_to_ui_read_pipe_fds = s.aes_to_ui_read_pipe_fds := by
        unfold State.read
        split <;> rfl
      dsimp only
      by_cases hmem : fd ∈ r
      · rw [if_pos hmem]
        rcases hr : s.read fd with ⟨_ | p, s'⟩
        · rw [hr] at hread
          change s'.aes_to_ui_read_pipe_fds = s.aes_to_ui_read_pipe_fds at hread
          simp only [hread, UiStep.turns]
          omega
        · rw [hr] at hread
          change s'.aes_to_ui_read_pipe_fds = s.aes_to_ui_read_pipe_fds at hread
          simp only [hread, UiStep.turns]
          omega
      · rw [if_neg hmem]
        simp only [UiStep.turns]
        omega
  | handle r it p => exact Nat.lt_succ_self _
  | delete r it p => exact Nat.lt_succ_self _
  | close r it =>
    obtain ⟨k, x, -, ha⟩ := hattended (by rw [hui]; rfl)
    unfold Attends at ha
    rw [hui] at ha
    obtain ⟨-, hget⟩ := ha
    obtain ⟨hlt, -⟩ := List.getElem?_eq_some_iff.mp hget
    dsimp only
    rw [hget]
    simp only [List.length_eraseIdx, hlt, if_true, UiStep.turns]
    omega
  | stdin =>
    dsimp only
    rcases o.pipe with _ | ⟨p0, p1⟩
    · exact Nat.zero_lt_succ 2
    · exact Nat.lt_succ_self 2
  | new p1 => exact Nat.lt_succ_self 1
  | start p => cases o.started <;> exact Nat.lt_succ_self 0
  | exit fds =>
    cases fds with
    | nil => exact Nat.lt_succ_self 0
    | cons fd fds => exact Nat.lt_succ_self _

end Fits

end

/-! ## The runs -/

/-- In a run in which no thread fails to start, no object is deleted before its worker has read
the descriptor that it closes, and the UI is told to exit when no worker is left. -/
theorem workers_are_handed_over {tr : List (State × Action)} {s : State}
    (h : Run system InTime .initial tr s) : Along HandedOver tr s := by
  apply h.along
  intro tr s hr
  obtain ⟨σ, hf, hl⟩ := sessions_of_run hr
  exact {
    one_to_one := hf.one_to_one hl
    nodup := hf.nodup
    read_open := fun fd k hread => (hf.list fd).mpr ⟨k, hread⟩
    write_open := fun hb _ _ => hf.write_open hb
    once := hl.nodup
    handled := fun _ => hf.handled_sent hl
    none_left := fun hw _ _ => hf.none_left hl hw
    closed := Fits.closed_some hl
    write_closed := hf.write_closed hl
    read_closed := hf.read_closed hl
    objects := fun _ _ => hf.objects
    goes_on := fun hsel hex => ⟨hf.ui_enabled hsel hex, hf.turns_lt hsel hex⟩ }

/-- A step of the UI, with a key that starts a worker as long as `key` is set. -/
def turn (key : Bool) (fds : Fd × Fd) (started : Bool) : Action :=
  .ui ⟨false, true, key, some fds, 100, started⟩

/-- Two workers one after the other. The second has the descriptor 3 and the address of the
first, whose write end is still open. -/
def two_workers : List Action :=
  List.replicate 5 (turn true (3, 4) true) ++ List.replicate 4 (.worker 0 0) ++
    List.replicate 9 (turn true (3, 5) true) ++ List.replicate 1 (.worker 0 0) ++
    List.replicate 4 (.worker 1 0) ++ List.replicate 6 (turn false (3, 4) true) ++
    List.replicate 1 (.worker 1 0)

theorem two_workers_are_handed_over :
    log (system.trace .initial two_workers) =
        [.handled (some 0), .closed (some (.read 0)), .closed (some (.write 0)),
          .handled (some 1), .closed (some (.read 1)), .closed (some (.write 1))] ∧
      (system.after .initial two_workers).ui = .select ∧
      Along HandedOver (system.trace .initial two_workers) (system.after .initial two_workers) :=
  ⟨by decide, by decide, workers_are_handed_over (System.run_of_enables (by decide) (by decide))⟩

/-- The UI deletes the object between the write and the close. -/
def deleted_early : List Action :=
  List.replicate 5 (turn true (3, 4) true) ++ List.replicate 3 (.worker 0 0) ++
    List.replicate 4 (turn false (3, 4) true)

/-- The thread does not start. -/
def not_started : List Action :=
  List.replicate 4 (turn true (3, 4) true) ++ [turn true (3, 4) false]

/-- A worker that reads a field has no object any more, and a start that fails leaves a
descriptor without a worker on the list. -/
theorem some_workers_are_not_handed_over :
    (Run system (fun _ _ => True) .initial (system.trace .initial deleted_early)
        (system.after .initial deleted_early) ∧
      ¬ HandedOver (system.trace .initial deleted_early) (system.after .initial deleted_early)) ∧
    (Run system (fun _ _ => True) .initial (system.trace .initial not_started)
        (system.after .initial not_started) ∧
      ¬ HandedOver (system.trace .initial not_started) (system.after .initial not_started)) := by
  refine ⟨⟨System.run_of_enables (by decide) (by decide), fun h => ?_⟩,
    ⟨System.run_of_enables (by decide) (by decide), fun h => ?_⟩⟩
  · have hw : (system.after .initial deleted_early).worker 0 = some ⟨100, .finish⟩ := by decide
    have hheap : (system.after .initial deleted_early).heap 100 = none := by decide
    obtain ⟨o, ho, -⟩ := h.objects 0 _ hw rfl
    rw [hheap] at ho
    cases ho
  · have hmem : 3 ∈ (system.after .initial not_started).aes_to_ui_read_pipe_fds := by decide
    have hworker : ∀ k, (system.after .initial not_started).worker k = none := fun _ => rfl
    obtain ⟨of, hof, -⟩ := h.one_to_one (by decide)
    have hsome := (hof.mapsTo hmem).1
    rw [hworker] at hsome
    cases hsome

end ui_thread
