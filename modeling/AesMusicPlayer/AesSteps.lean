-- Each step of the UI and of a worker is a step of one session, as long as no
-- thread fails to start, no object is deleted under its worker, and the UI
-- leaves no worker behind.
import AesMusicPlayer.AesSessions

open traces holdings

namespace ui_thread

/-- No thread fails to start, an object is deleted when its worker does not read it any more,
and the UI is told to exit when no worker is left. -/
def InTime (s : State) : Action → Prop
  | .ui x =>
    match s.ui with
    | .start _ => x.started = true
    | .delete _ _ aes_t =>
      ∀ k < s.starts, ∀ w ∈ s.worker k, w.this = aes_t → w.pc.loaded = true
    | .select => x.main_to_ui = true → s.aes_to_ui_read_pipe_fds = []
    | _ => True
  | .worker .. => True

instance (s : State) : (a : Action) → Decidable (InTime s a)
  | .ui _ => by
    obtain ⟨ui⟩ := s
    cases ui <;> unfold InTime <;> exact inferInstance
  | .worker .. => inferInstanceAs (Decidable True)

/-! ## What a step is seen to do -/

/-- The UI handles the result of an object, or an end is closed. A close of a number that is
not in use closes none. -/
inductive Event
  | handled (k : Option ℕ)
  | closed (e : Option PipeEnd)
  deriving DecidableEq

def events (s : State) : Action → List Event
  | .ui _ =>
    match s.ui with
    | .handle _ _ aes_t => [.handled ((s.heap aes_t).map AesThread.id)]
    | .close _ it => [.closed (s.aes_to_ui_read_pipe_fds[it]?.bind s.fds)]
    | .exit (fd :: _) => [.closed (s.fds fd)]
    | _ => []
  | .worker k _ =>
    match (s.worker k).map Worker.pc with
    | some (.close fd) => [.closed (s.fds fd)]
    | _ => []

def log (tr : List (State × Action)) : List Event := tr.flatMap fun e => events e.1 e.2

/-- What the session has come past. -/
inductive Session.Done (k : ℕ) (x : Session) : Event → Prop
  | handled : x.stage.served = true → Done k x (.handled (some k))
  | read : x.stage = .closed → Done k x (.closed (some (.read k)))
  | write : x.pc = .exited → Done k x (.closed (some (.write k)))

/-- A step of the worker is seen when it closes its end. -/
theorem done_work {k : ℕ} {x : Session} (hp : x.pc ≠ .exited) (ev : Event) :
    Session.Done k { x with pc := x.work } ev ∧ ¬ x.Done k ev ↔
      x.work = .exited ∧ ev = .closed (some (.write k)) := by
  constructor
  · rintro ⟨hs | hs | hw, hno⟩
    · exact absurd (.handled hs) hno
    · exact absurd (.read hs) hno
    · exact ⟨hw, rfl⟩
  · rintro ⟨hw, rfl⟩
    exact ⟨.write hw, fun | .write hx => hp hx⟩

/-- One step of the whole: no session moves, one begins, or one makes a step, and the events
are what this session has done by it. -/
inductive Moves (s : State) (a : Action) (σ : ℕ → Option Session) :
    (ℕ → Option Session) → Prop
  | none : events s a = [] → Moves s a σ σ
  | begins (k : ℕ) (x : Session) :
      σ k = none → x.stage = .pushed → x.pc = .run → events s a = [] →
      Moves s a σ (Function.update σ k (some x))
  | one (k : ℕ) (x y : Session) :
      σ k = some x → Session.Step x y →
      (∀ ev, ev ∈ events s a ↔ y.Done k ev ∧ ¬ x.Done k ev) →
      Moves s a σ (Function.update σ k (some y))

variable {s s' : State} {σ : ℕ → Option Session} {k : ℕ} {x y : Session}

/-! ## Looking up a session -/

theorem Attends.congr (h : Attends s k x) (hui : s'.ui = s.ui)
    (hlist : s'.aes_to_ui_read_pipe_fds = s.aes_to_ui_read_pipe_fds)
    (hstarts : s'.starts = s.starts) (pc : WorkerStep) : Attends s' k { x with pc := pc } := by
  unfold Attends at h ⊢
  rw [hui, hlist, hstarts]
  exact h

theorem Attends.busy (h : Attends s k x) : s.ui.busy = true := by
  unfold Attends at h
  cases hui : s.ui <;> simp_all [UiStep.busy]

namespace Fits

theorem of_worker (h : Fits s σ) {w : Worker} (hw : s.worker k = some w) :
    ∃ x, σ k = some x ∧ x.stage.started = true ∧ w = ⟨x.this, x.pc⟩ := by
  rw [h.worker k] at hw
  obtain ⟨x, hk, hx⟩ := Option.bind_eq_some_iff.mp hw
  unfold Session.worker at hx
  split at hx
  · next hs => exact ⟨x, hk, hs, (Option.some.inj hx).symm⟩
  · cases hx

theorem worker_of (h : Fits s σ) (hk : σ k = some x) (hs : x.stage.started = true) :
    s.worker k = some ⟨x.this, x.pc⟩ := by
  rw [h.worker k, hk]
  exact if_pos hs

theorem read_fd (h : Fits s σ) (hk : σ k = some x) (hx : x.stage.listed = true) :
    s.fds x.read_fd = some (.read k) :=
  h.fds.get hk (.read hx)

theorem object (h : Fits s σ) (hk : σ k = some x) (hx : x.stage.alive = true) :
    s.heap x.this = some ⟨k, x.write_fd⟩ :=
  h.heap.get hk (.mk hx)

/-- A descriptor of the list is the read end of one session. -/
theorem eq_of_read_fd (h : Fits s σ) {k' : ℕ} (hk : σ k = some x) (hx : x.stage.listed = true)
    (hk' : σ k' = some y) (hy : y.stage.listed = true) (heq : x.read_fd = y.read_fd) : k = k' := by
  have hread := h.read_fd hk hx
  rw [heq, h.read_fd hk' hy] at hread
  cases hread
  rfl

/-- A place of the list is the place of one session. -/
theorem eq_of_place (h : Fits s σ) {k' it : ℕ} (hk : σ k = some x) (hx : x.stage.listed = true)
    (hxit : s.aes_to_ui_read_pipe_fds[it]? = some x.read_fd) (hk' : σ k' = some y)
    (hy : y.stage.listed = true) (hyit : s.aes_to_ui_read_pipe_fds[it]? = some y.read_fd) :
    k = k' := by
  rw [hxit] at hyit
  exact h.eq_of_read_fd hk hx hk' hy (Option.some.inj hyit)

theorem idle_of_not_busy (h : Fits s σ) (hb : s.ui.busy = false) (hk : σ k = some x) :
    x.stage.idle = true := by
  rcases h.idle k x hk with hi | ha
  · exact hi
  · rw [ha.busy] at hb
    cases hb

/-- A session that a worker works in has an object as long as the worker reads its fields. -/
theorem alive_of_not_loaded (h : Fits s σ) (hk : σ k = some x) (hs : x.stage.started = true)
    (hl : x.pc.loaded = false) : x.stage.alive = true := by
  have hload := (h.ok k x hk).loaded
  cases hst : x.stage <;> simp_all [Stage.alive, Stage.started, Stage.disposed]

/-- The UI is busy with one session only. -/
theorem attends_unique (h : Fits s σ) {k' : ℕ} (hk : σ k = some x) (hx : Attends s k x)
    (hk' : σ k' = some y) (hy : Attends s k' y) : k = k' := by
  unfold Attends at hx hy
  cases hui : s.ui with
  | new _ | start _ =>
    rw [hui] at hx hy
    exact hx.1.trans hy.1.symm
  | handle r it a | delete r it a =>
    rw [hui] at hx hy
    obtain ⟨hsx, -, hlx⟩ := hx
    obtain ⟨hsy, -, hly⟩ := hy
    exact h.eq_of_place hk (by rw [hsx]; rfl) hlx hk' (by rw [hsy]; rfl) hly
  | close r it =>
    rw [hui] at hx hy
    obtain ⟨hsx, hlx⟩ := hx
    obtain ⟨hsy, hly⟩ := hy
    exact h.eq_of_place hk (by rw [hsx]; rfl) hlx hk' (by rw [hsy]; rfl) hly
  | _ =>
    rw [hui] at hx
    exact hx.elim

/-- The other sessions are idle while the UI is busy with one. -/
theorem idle_of_ne (h : Fits s σ) {k' : ℕ} (hk : σ k = some x) (hx : Attends s k x)
    (hk' : σ k' = some y) (hne : k' ≠ k) : y.stage.idle = true := by
  rcases h.idle k' y hk' with hi | ha
  · exact hi
  · exact absurd (h.attends_unique hk' ha hk hx) hne

/-! ## The steps of a worker -/

/-- The worker makes its step: its own entries of the tables change with it. -/
theorem work (h : Fits s σ) (hk : σ k = some x) (hs : x.stage.started = true)
    (hp : x.pc ≠ .exited) (hui : s'.ui = s.ui)
    (hlist : s'.aes_to_ui_read_pipe_fds = s.aes_to_ui_read_pipe_fds)
    (hstarts : s'.starts = s.starts) (hheap : s'.heap = s.heap)
    (hfds : s'.fds = if x.work = .exited then Function.update s.fds x.write_fd none else s.fds)
    (hpipes : s'.pipes = Function.update s.pipes k { x with pc := x.work }.pipe)
    (hworker : s'.worker = Function.update s.worker k (some ⟨x.this, x.work⟩)) :
    Fits s' (Function.update σ k (some { x with pc := x.work })) := by
  have hstep : Session.Step x { x with pc := x.work } := .work x hs hp
  constructor
  case fds =>
    rw [hfds]
    split
    · next hw =>
      have hread : x.stage.listed = true → x.read_fd ≠ x.write_fd := by
        intro hl heq
        have hr := h.read_fd hk hl
        rw [heq, h.fds.get hk (.write hp)] at hr
        cases hr
      refine h.fds.take hk (.write hp) (fun fd e => ⟨?_, ?_⟩) ?_
      · rintro (hl | hne)
        · exact ⟨.read hl, hread hl⟩
        · exact absurd hw hne
      · rintro ⟨hl | _, hne⟩
        · exact .read hl
        · exact absurd rfl hne
      · rintro k' y fd hne hy hw
        cases hw
        exact hne rfl
    · next hw =>
      refine h.fds.same hk fun fd e => ⟨?_, ?_⟩
      · rintro (hl | _)
        · exact .read hl
        · exact .write hp
      · rintro (hl | _)
        · exact .read hl
        · exact .write hw
  case heap =>
    rw [hheap]
    refine h.heap.same hk fun p o => ⟨?_, ?_⟩ <;> rintro ⟨ha⟩ <;> exact .mk ha
  case pipes =>
    rw [hpipes]
    refine forall_update (Function.update_self ..) ?_
    intro k' z hne hz
    rw [Function.update_of_ne hne]
    exact h.pipes k' z hz
  case worker =>
    intro k'
    rw [hworker]
    by_cases heq : k' = k
    · subst heq
      rw [Function.update_self, Function.update_self]
      exact (if_pos hs).symm
    · rw [Function.update_of_ne heq, Function.update_of_ne heq]
      exact h.worker k'
  case nodup =>
    rw [hlist]
    exact h.nodup
  case list =>
    intro fd
    rw [hlist, h.list fd, hfds]
    split
    · have hw := h.fds.get hk (.write hp)
      by_cases heq : fd = x.write_fd
      · subst heq
        rw [Function.update_self, hw]
        simp
      · rw [Function.update_of_ne heq]
    · rfl
  case starts =>
    intro k'
    rw [hstarts, hui, ← h.starts k', isSome_update hk]
  case idle =>
    refine forall_update ?_ ?_
    · exact (h.idle k x hk).imp id fun ha => ha.congr hui hlist hstarts x.work
    · intro k' z _ hz
      exact (h.idle k' z hz).imp id fun ha => ha.congr hui hlist hstarts z.pc
  case attends =>
    intro hb
    rw [hui] at hb
    obtain ⟨k', z, hz, ha⟩ := h.attends hb
    by_cases heq : k' = k
    · subst heq
      obtain rfl := Option.some.inj (hk.symm.trans hz)
      exact ⟨k', _, Function.update_self .., ha.congr hui hlist hstarts x.work⟩
    · exact ⟨k', z, by rw [Function.update_of_ne heq, hz], ha.congr hui hlist hstarts z.pc⟩
  case ready =>
    intro fd hfd
    rw [hui] at hfd
    refine forall_update ?_ fun k' z _ => h.ready fd hfd k' z
    intro hread hst
    exact x.sent_work (h.ready fd hfd k x hk hread hst)
  case leaves =>
    rw [hui, hlist]
    exact h.leaves
  case exit =>
    rw [hui]
    exact h.exit
  case ok =>
    exact forall_update (hstep.ok (h.ok k x hk)) fun k' z _ => h.ok k' z

/-- A step that only the worker itself sees. -/
theorem work_alone (h : Fits s σ) (hk : σ k = some x) (hs : x.stage.started = true)
    (hp : x.pc ≠ .exited) (hne : x.work ≠ .exited) (hsent : x.work.sent = x.pc.sent) :
    Fits (s.setWorker k ⟨x.this, x.work⟩) (Function.update σ k (some { x with pc := x.work })) := by
  refine h.work hk hs hp rfl rfl rfl rfl (if_neg hne).symm ?_ rfl
  have hpipe : Session.pipe { x with pc := x.work } = s.pipes k := by
    rw [h.pipes k x hk]
    unfold Session.pipe
    simp [hsent, hne, hp]
  rw [hpipe, Function.update_eq_self]
  rfl

theorem field_of_session (h : Fits s σ) (hk : σ k = some x) (hs : x.stage.started = true)
    (hl : x.pc.loaded = false) (garbage : Fd) : s.field x.this garbage = x.write_fd := by
  unfold State.field
  rw [h.object hk (h.alive_of_not_loaded hk hs hl)]
  rfl

/-- The write puts the address of the object in the pipe. -/
theorem work_write (h : Fits s σ) (hk : σ k = some x) (hs : x.stage.started = true)
    (hp : x.pc = .write x.write_fd) :
    Fits ((s.write x.write_fd x.this).setWorker k ⟨x.this, .finish⟩)
      (Function.update σ k (some { x with pc := .finish })) := by
  have hne : x.pc ≠ .exited := by rw [hp]; rintro ⟨⟩
  have hw : x.work = .finish := by unfold Session.work; rw [hp]
  have hst : x.stage = .waiting := by
    have hsent := (h.ok k x hk).sent
    cases hst : x.stage <;> simp_all [Stage.started, Stage.taken, WorkerStep.sent]
  have hwrite : s.write x.write_fd x.this =
      s.setPipe k fun q => { q with data := q.data ++ [x.this] } := by
    unfold State.write
    rw [h.fds.get hk (.write hne)]
    simp only [h.pipes k x hk]
    simp [Session.pipe, hst, Stage.listed]
  rw [hwrite, ← hw]
  refine h.work hk hs hne rfl rfl rfl rfl ?_ ?_ rfl
  · rw [if_neg (by rw [hw]; rintro ⟨⟩)]
    rfl
  · unfold State.setPipe State.setWorker
    simp [h.pipes k x hk, Session.pipe, hst, hp, hw, WorkerStep.sent, Stage.listed]

theorem work_close (h : Fits s σ) (hk : σ k = some x) (hs : x.stage.started = true)
    (hp : x.pc = .close x.write_fd) :
    Fits ((s.close x.write_fd).setWorker k ⟨x.this, .exited⟩)
      (Function.update σ k (some { x with pc := .exited })) := by
  have hne : x.pc ≠ .exited := by rw [hp]; rintro ⟨⟩
  have hw : x.work = .exited := by unfold Session.work; rw [hp]
  have hclose : s.close x.write_fd =
      { s with fds := Function.update s.fds x.write_fd none }.setPipe k
        fun q => { q with write_open := false } := by
    unfold State.close
    rw [h.fds.get hk (.write hne)]
  rw [hclose, ← hw]
  refine h.work hk hs hne rfl rfl rfl rfl ?_ ?_ rfl
  · rw [if_pos hw]
    rfl
  · unfold State.setPipe State.setWorker
    simp [h.pipes k x hk, Session.pipe, hp, hw, WorkerStep.sent]

theorem events_worker (h : Fits s σ) (hk : σ k = some x) (hs : x.stage.started = true)
    (hp : x.pc ≠ .exited) (garbage : Fd) : events s (.worker k garbage) =
      if x.work = .exited then [.closed (some (.write k))] else [] := by
  have hw := h.fds.get hk (.write hp)
  have hfd := (h.ok k x hk).fd
  simp only [events, h.worker_of hk hs, Option.map_some]
  unfold Session.work
  cases hpc : x.pc with
  | close fd =>
    obtain rfl := hfd fd (Or.inr hpc)
    simp [hw]
  | exited => exact absurd hpc hp
  | _ => simp

theorem worker_step (h : Fits s σ) {w : Worker} (hw : s.worker k = some w) (hp : w.pc ≠ .exited)
    (garbage : Fd) : ∃ σ', Fits (worker_step k w garbage s) σ' ∧
      Moves s (.worker k garbage) σ σ' := by
  obtain ⟨x, hk, hs, rfl⟩ := h.of_worker hw
  refine ⟨Function.update σ k (some { x with pc := x.work }), ?_, ?_⟩
  · unfold ui_thread.worker_step
    cases hpc : x.pc with
    | run =>
      have hwork : x.work = .send := by unfold Session.work; rw [hpc]
      have hfits := h.work_alone hk hs hp (by rw [hwork]; rintro ⟨⟩) (by rw [hwork, hpc]; rfl)
      rw [hwork] at hfits ⊢
      exact hfits
    | send =>
      have hwork : x.work = .write x.write_fd := by unfold Session.work; rw [hpc]
      have hfits := h.work_alone hk hs hp (by rw [hwork]; rintro ⟨⟩) (by rw [hwork, hpc]; rfl)
      rw [hwork] at hfits ⊢
      simp only [h.field_of_session hk hs (by rw [hpc]; rfl)]
      exact hfits
    | write fd =>
      obtain rfl := (h.ok k x hk).fd fd (Or.inl hpc)
      have hwork : x.work = .finish := by unfold Session.work; rw [hpc]
      rw [hwork]
      exact h.work_write hk hs hpc
    | finish =>
      have hwork : x.work = .close x.write_fd := by unfold Session.work; rw [hpc]
      have hfits := h.work_alone hk hs hp (by rw [hwork]; rintro ⟨⟩) (by rw [hwork, hpc]; rfl)
      rw [hwork] at hfits ⊢
      simp only [h.field_of_session hk hs (by rw [hpc]; rfl)]
      exact hfits
    | close fd =>
      obtain rfl := (h.ok k x hk).fd fd (Or.inr hpc)
      have hwork : x.work = .exited := by unfold Session.work; rw [hpc]
      rw [hwork]
      exact h.work_close hk hs hpc
    | exited => exact absurd hpc hp
  · refine .one k x _ hk (.work x hs hp) fun ev => ?_
    rw [h.events_worker hk hs hp garbage, done_work hp]
    split <;> simp_all

end Fits

end ui_thread
