-- The steps of the UI: it starts workers, reads their results, deletes their
-- objects and closes their pipes, each a step of the session it is busy with.
import AesMusicPlayer.AesSteps
import Mathlib.Data.List.Nodup

open traces holdings

namespace ui_thread

variable {s s' : State} {σ : ℕ → Option Session} {k : ℕ} {x y : Session}

namespace Fits

/-! ## Steps of the UI alone -/

/-- The UI goes on, and nothing else changes. -/
theorem goto (h : Fits s σ) {u : UiStep} (hs : s.ui.busy = false) (hu : u.busy = false)
    (hready : ∀ fd ∈ u.read_fds, ∀ k x, σ k = some x → x.read_fd = fd → x.stage = .waiting →
      x.pc.sent = true)
    (hleaves : u.leaves = true → s.aes_to_ui_read_pipe_fds = [])
    (hexit : ∀ fds, u = .exit fds → fds = []) : Fits { s with ui := u } σ := by
  have hstart : ∀ v : UiStep, v.busy = false → v.starting = false := by
    intro v hv
    cases v <;> first | rfl | cases hv
  constructor
  case fds => exact h.fds
  case heap => exact h.heap
  case pipes => exact h.pipes
  case worker => exact h.worker
  case nodup => exact h.nodup
  case list => exact h.list
  case starts =>
    intro k'
    rw [h.starts k', hstart s.ui hs, hstart u hu]
  case idle =>
    intro k' z hz
    exact Or.inl (h.idle_of_not_busy hs hz)
  case attends =>
    intro hb
    rw [hu] at hb
    cases hb
  case ready => exact hready
  case leaves => exact hleaves
  case exit => exact hexit
  case ok => exact h.ok

/-- The UI goes on, and stays in its loop. -/
theorem stays (h : Fits s σ) {u : UiStep} (hs : s.ui.busy = false) (hu : u.busy = false)
    (hready : ∀ fd ∈ u.read_fds, ∀ k x, σ k = some x → x.read_fd = fd → x.stage = .waiting →
      x.pc.sent = true) (hleaves : u.leaves = false) : Fits { s with ui := u } σ := by
  refine h.goto hs hu hready (fun hl => ?_) fun fds heq => ?_
  · rw [hleaves] at hl
    cases hl
  · rw [heq] at hleaves
    cases hleaves

/-- What `select` finds has sent its result. -/
theorem sent_of_readable (h : Fits s σ) (hk : σ k = some x) (hst : x.stage = .waiting)
    (hr : s.readable x.read_fd = true) : x.pc.sent = true := by
  unfold State.readable at hr
  rw [h.read_fd hk (by rw [hst]; rfl)] at hr
  simp only [h.pipes k x hk, Session.pipe, hst] at hr
  by_contra hno
  have hne : x.pc ≠ .exited := fun he => hno (by rw [he]; rfl)
  simp [hno, hne] at hr

theorem select (h : Fits s σ) (hui : s.ui = .select) (o : Outside) (ho : InTime s (.ui o)) :
    Fits (ui_step o s) σ := by
  unfold InTime at ho
  rw [hui] at ho
  unfold ui_step
  rw [hui]
  have hbusy : s.ui.busy = false := by rw [hui]; rfl
  dsimp only
  split
  · next hm =>
    refine h.goto hbusy rfl (List.forall_mem_nil _) (fun _ => ho hm) ?_
    rintro fds heq
    cases heq
    exact ho hm
  · refine h.stays hbusy rfl ?_ rfl
    rintro fd hfd k x hk rfl hst
    exact h.sent_of_readable hk hst (List.mem_filter.mp hfd).2

/-! ## Steps of one session -/

/-- The UI makes a step of the session `k`, while the others are idle. -/
theorem advance (h : Fits s σ) (hk : σ k = some x) (hstep : Session.Step x y)
    (hothers : ∀ k' z, k' ≠ k → σ k' = some z → z.stage.idle = true)
    (hfds : Table s'.fds (Function.update σ k (some y)) Session.HoldsFd)
    (hheap : Table s'.heap (Function.update σ k (some y)) Session.HoldsObject)
    (hpipes : s'.pipes = Function.update s.pipes k y.pipe)
    (hworker : ∀ k', s'.worker k' = (Function.update σ k (some y) k').bind Session.worker)
    (hnodup : s'.aes_to_ui_read_pipe_fds.Nodup)
    (hlist : ∀ fd, fd ∈ s'.aes_to_ui_read_pipe_fds ↔ ∃ k, s'.fds fd = some (.read k))
    (hstarts : ∀ k', (k' < s'.starts ∨ k' = s'.starts ∧ s'.ui.starting = true) ↔
      (k' < s.starts ∨ k' = s.starts ∧ s.ui.starting = true))
    (hy : y.stage.idle = true ∧ s'.ui.busy = false ∨ Attends s' k y)
    (hready : ∀ fd ∈ s'.ui.read_fds, fd ∈ s.ui.read_fds ∧ y.stage ≠ .waiting)
    (hleaves : s'.ui.leaves = false) : Fits s' (Function.update σ k (some y)) := by
  constructor
  case fds => exact hfds
  case heap => exact hheap
  case pipes =>
    rw [hpipes]
    refine forall_update (Function.update_self ..) ?_
    intro k' z hne hz
    rw [Function.update_of_ne hne]
    exact h.pipes k' z hz
  case worker => exact hworker
  case nodup => exact hnodup
  case list => exact hlist
  case starts =>
    intro k'
    rw [isSome_update hk, h.starts k', hstarts]
  case idle =>
    refine forall_update ?_ fun k' z hne hz => Or.inl (hothers k' z hne hz)
    exact hy.imp And.left id
  case attends =>
    intro hb
    rcases hy with ⟨-, hno⟩ | ha
    · rw [hno] at hb
      cases hb
    · exact ⟨k, y, Function.update_self .., ha⟩
  case ready =>
    intro fd hfd
    obtain ⟨hold, hne⟩ := hready fd hfd
    refine forall_update ?_ fun k' z _ => h.ready fd hold k' z
    intro _ hst
    exact absurd hst hne
  case leaves =>
    intro hl
    rw [hleaves] at hl
    cases hl
  case exit =>
    intro fds hf
    rw [hf] at hleaves
    cases hleaves
  case ok =>
    exact forall_update (hstep.ok (h.ok k x hk)) fun k' z _ => h.ok k' z

theorem starts_same (hs : s'.starts = s.starts) (hui : s'.ui.starting = s.ui.starting) (k' : ℕ) :
    (k' < s'.starts ∨ k' = s'.starts ∧ s'.ui.starting = true) ↔
      (k' < s.starts ∨ k' = s.starts ∧ s.ui.starting = true) := by
  rw [hs, hui]

/-- The worker table does not see a step that leaves the thread alone. -/
theorem worker_same (h : Fits s σ) (hk : σ k = some x) (hw : y.worker = x.worker) (k' : ℕ) :
    s.worker k' = (Function.update σ k (some y) k').bind Session.worker := by
  rw [h.worker k']
  by_cases heq : k' = k
  · subst heq
    rw [Function.update_self, hk]
    exact hw.symm
  · rw [Function.update_of_ne heq]

theorem pipes_same (h : Fits s σ) (hk : σ k = some x) (hp : y.pipe = x.pipe) :
    s.pipes = Function.update s.pipes k y.pipe := by
  rw [hp, ← h.pipes k x hk, Function.update_eq_self]

theorem fds_same (h : Fits s σ) (hk : σ k = some x) (hl : y.stage.listed = x.stage.listed)
    (hr : y.read_fd = x.read_fd) (hw : y.write_fd = x.write_fd) (hp : y.pc = x.pc) :
    Table s.fds (Function.update σ k (some y)) Session.HoldsFd := by
  refine h.fds.same hk fun fd e => ⟨?_, ?_⟩
  · rintro (hl' | hp')
    · rw [hr]
      exact .read (hl ▸ hl')
    · rw [hw]
      exact .write (hp ▸ hp')
  · rintro (hl' | hp')
    · rw [← hr]
      exact .read (hl ▸ hl')
    · rw [← hw]
      exact .write (hp ▸ hp')

theorem heap_same (h : Fits s σ) (hk : σ k = some x) (ha : y.stage.alive = x.stage.alive)
    (ht : y.this = x.this) (hw : y.write_fd = x.write_fd) :
    Table s.heap (Function.update σ k (some y)) Session.HoldsObject := by
  refine h.heap.same hk fun p o => ⟨?_, ?_⟩
  · rintro ⟨ha'⟩
    rw [ht, hw]
    exact .mk (ha ▸ ha')
  · rintro ⟨ha'⟩
    rw [← ht, ← hw]
    exact .mk (ha ▸ ha')

/-- The session that the UI is busy with. The others are idle. -/
theorem attended (h : Fits s σ) (hb : s.ui.busy = true) : ∃ k x, σ k = some x ∧ Attends s k x ∧
    ∀ k' z, k' ≠ k → σ k' = some z → z.stage.idle = true := by
  obtain ⟨k, x, hk, ha⟩ := h.attends hb
  exact ⟨k, x, hk, ha, fun k' z hne hz => h.idle_of_ne hk ha hz hne⟩

/-- What is seen of a step of the UI. -/
theorem done_stage (x : Session) (t : Ptr) (st : Stage) (ev : Event) :
    Session.Done k { x with this := t, stage := st } ev ∧ ¬ x.Done k ev ↔
      (st.served = true ∧ x.stage.served = false ∧ ev = .handled (some k)) ∨
        (st = .closed ∧ x.stage ≠ .closed ∧ ev = .closed (some (.read k))) := by
  constructor
  · rintro ⟨hs | hs | hw, hno⟩
    · exact Or.inl ⟨hs, Bool.not_eq_true _ ▸ fun hx => hno (.handled hx), rfl⟩
    · exact Or.inr ⟨hs, fun hx => hno (.read hx), rfl⟩
    · exact absurd (.write hw) hno
  · rintro (⟨hs, hx, rfl⟩ | ⟨hs, hx, rfl⟩)
    · refine ⟨.handled hs, fun | .handled h' => ?_⟩
      rw [hx] at h'
      cases h'
    · exact ⟨.read hs, fun | .read h' => hx h'⟩

/-! ## The results -/

/-- A descriptor of the list is read when it has a result. -/
theorem results (h : Fits s σ) {r : List Fd} {it : ℕ} (hui : s.ui = .results r it) (o : Outside) :
    ∃ σ', Fits (ui_step o s) σ' ∧ Moves s (.ui o) σ σ' := by
  have hbusy : s.ui.busy = false := by rw [hui]; rfl
  have hev : events s (.ui o) = [] := by simp [events, hui]
  unfold ui_step
  rw [hui]
  dsimp only
  cases hget : s.aes_to_ui_read_pipe_fds[it]? with
  | none =>
    refine ⟨σ, ?_, .none hev⟩
    cases o.key
    · exact h.stays hbusy rfl (List.forall_mem_nil _) rfl
    · exact h.stays hbusy rfl (List.forall_mem_nil _) rfl
  | some fd =>
    have hready := h.ready
    rw [hui] at hready
    dsimp only
    split
    · next hmem =>
      obtain ⟨k, hread⟩ := (h.list fd).mp (List.mem_of_getElem? hget)
      obtain ⟨_, x, hk, hx⟩ := (h.fds _ _).mp hread
      cases hx with
      | read hl =>
        have hst : x.stage = .waiting := by
          have hidle := h.idle_of_not_busy hbusy hk
          cases hst : x.stage <;> simp_all [Stage.idle, Stage.listed]
        have hsent := hready _ hmem k x hk rfl hst
        have hpipe := h.pipes k x hk
        unfold Session.pipe at hpipe
        rw [if_pos ⟨hst, hsent⟩] at hpipe
        have hs : s.read x.read_fd =
            (some x.this, s.setPipe k fun q => { q with data := q.data.tail }) := by
          unfold State.read
          rw [hread]
          simp only [hpipe, List.head?_cons]
        rw [hs]
        refine ⟨Function.update σ k (some { x with stage := .read }), ?_,
          .one k x _ hk (.read x hst hsent) ?_⟩
        · refine h.advance hk (.read x hst hsent) ?_ ?_ ?_ ?_ ?_ h.nodup h.list ?_ ?_ ?_ rfl
          · exact fun k' z _ hz => h.idle_of_not_busy hbusy hz
          · exact h.fds_same hk (by rw [hst]; rfl) rfl rfl rfl
          · exact h.heap_same hk (by rw [hst]; rfl) rfl rfl
          · unfold State.setPipe
            simp [hpipe, Session.pipe, hst, Stage.listed]
          · exact h.worker_same hk (by simp [Session.worker, hst, Stage.started])
          · exact starts_same rfl (by rw [hui]; rfl)
          · exact Or.inr ⟨rfl, rfl, hget⟩
          · intro fd hfd
            rw [hui]
            exact ⟨hfd, by rintro ⟨⟩⟩
        · intro ev
          rw [hev, done_stage]
          simp [Stage.served]
    · exact ⟨σ, h.stays hbusy rfl hready rfl, .none hev⟩

/-- The UI handles the result. -/
theorem handle (h : Fits s σ) {r : List Fd} {it : ℕ} {p : Ptr} (hui : s.ui = .handle r it p)
    (o : Outside) : ∃ σ', Fits (ui_step o s) σ' ∧ Moves s (.ui o) σ σ' := by
  obtain ⟨k, x, hk, ha, hothers⟩ := h.attended (by rw [hui]; rfl)
  unfold Attends at ha
  rw [hui] at ha
  obtain ⟨hst, rfl, hget⟩ := ha
  refine ⟨Function.update σ k (some { x with stage := .handled }), ?_,
    .one k x _ hk (.handle x hst) ?_⟩
  · unfold ui_step
    rw [hui]
    refine h.advance hk (.handle x hst) hothers ?_ ?_ ?_ ?_ h.nodup h.list ?_ ?_ ?_ rfl
    · exact h.fds_same hk (by rw [hst]; rfl) rfl rfl rfl
    · exact h.heap_same hk (by rw [hst]; rfl) rfl rfl
    · exact h.pipes_same hk (by simp [Session.pipe, hst, Stage.listed])
    · exact h.worker_same hk (by simp [Session.worker, hst, Stage.started])
    · exact starts_same rfl (by rw [hui]; rfl)
    · exact Or.inr ⟨rfl, rfl, hget⟩
    · intro fd hfd
      rw [hui]
      exact ⟨hfd, by rintro ⟨⟩⟩
  · intro ev
    rw [done_stage]
    simp [events, hui, h.object hk (by rw [hst]; rfl), hst, Stage.served]

/-- The object is deleted. -/
theorem delete (h : Fits s σ) {r : List Fd} {it : ℕ} {p : Ptr} (hui : s.ui = .delete r it p)
    (o : Outside) (ho : InTime s (.ui o)) :
    ∃ σ', Fits (ui_step o s) σ' ∧ Moves s (.ui o) σ σ' := by
  obtain ⟨k, x, hk, ha, hothers⟩ := h.attended (by rw [hui]; rfl)
  unfold Attends at ha
  rw [hui] at ha
  obtain ⟨hst, rfl, hget⟩ := ha
  have hlt : k < s.starts := by
    rcases (h.starts k).mp (by rw [hk]; rfl) with hlt | ⟨-, hs⟩
    · exact hlt
    · rw [hui] at hs
      cases hs
  have hload : x.pc.loaded = true := by
    unfold InTime at ho
    rw [hui] at ho
    exact ho k hlt _ (h.worker_of hk (by rw [hst]; rfl)) rfl
  refine ⟨Function.update σ k (some { x with stage := .deleted }), ?_,
    .one k x _ hk (.delete x hst hload) ?_⟩
  · unfold ui_step
    rw [hui]
    refine h.advance hk (.delete x hst hload) hothers ?_ ?_ ?_ ?_ h.nodup h.list ?_ ?_ ?_ rfl
    · exact h.fds_same hk (by rw [hst]; rfl) rfl rfl rfl
    · refine h.heap.take hk (.mk (by rw [hst]; rfl)) (fun m o => ⟨by rintro ⟨⟨⟩⟩, ?_⟩) ?_
      · rintro ⟨⟨-⟩, hne⟩
        exact absurd rfl hne
      · intro k' z m hne _ ho
        exact hne ho.id_eq.symm
    · exact h.pipes_same hk (by simp [Session.pipe, hst, Stage.listed])
    · exact h.worker_same hk (by simp [Session.worker, hst, Stage.started])
    · exact starts_same rfl (by rw [hui]; rfl)
    · exact Or.inr ⟨rfl, hget⟩
    · intro fd hfd
      rw [hui]
      exact ⟨hfd, by rintro ⟨⟩⟩
  · intro ev
    rw [done_stage]
    simp [events, hui, hst, Stage.served]

/-- The read end is closed, and its entry on the list is erased. -/
theorem close (h : Fits s σ) {r : List Fd} {it : ℕ} (hui : s.ui = .close r it) (o : Outside) :
    ∃ σ', Fits (ui_step o s) σ' ∧ Moves s (.ui o) σ σ' := by
  obtain ⟨k, x, hk, ha, hothers⟩ := h.attended (by rw [hui]; rfl)
  unfold Attends at ha
  rw [hui] at ha
  obtain ⟨hst, hget⟩ := ha
  have hl : x.stage.listed = true := by rw [hst]; rfl
  have hread := h.read_fd hk hl
  have hclose : s.close x.read_fd =
      { s with fds := Function.update s.fds x.read_fd none }.setPipe k
        fun q => { q with read_open := false } := by
    unfold State.close
    rw [hread]
  refine ⟨Function.update σ k (some { x with stage := .closed }), ?_,
    .one k x _ hk (.close x hst) ?_⟩
  · unfold ui_step
    rw [hui]
    dsimp only
    rw [hget]
    dsimp only
    rw [hclose]
    refine h.advance hk (.close x hst) hothers ?_ ?_ ?_ ?_ (h.nodup.eraseIdx it) ?_ ?_ ?_ ?_ rfl
    · refine h.fds.take hk (.read hl) (fun fd e => ⟨?_, ?_⟩) ?_
      · rintro (hno | hp)
        · cases hno
        · refine ⟨.write hp, fun heq => ?_⟩
          have hw := h.fds.get hk (.write hp)
          rw [heq, hread] at hw
          cases hw
      · rintro ⟨_ | hp, hne⟩
        · exact absurd rfl hne
        · exact .write hp
      · rintro k' z fd hne hz ⟨-⟩
        exact hne rfl
    · exact h.heap_same hk (by rw [hst]; rfl) rfl rfl
    · unfold State.setPipe
      simp [h.pipes k x hk, Session.pipe, hst, Stage.listed]
    · exact h.worker_same hk (by simp [Session.worker, hst, Stage.started])
    · intro fd
      obtain ⟨hlt, hfd⟩ := List.getElem?_eq_some_iff.mp hget
      have herase : s.aes_to_ui_read_pipe_fds.eraseIdx it =
          s.aes_to_ui_read_pipe_fds.erase x.read_fd := by
        rw [← hfd, h.nodup.erase_getElem]
      change fd ∈ s.aes_to_ui_read_pipe_fds.eraseIdx it ↔
        ∃ k, Function.update s.fds x.read_fd none fd = some (.read k)
      rw [herase, h.nodup.mem_erase_iff, h.list fd]
      by_cases heq : fd = x.read_fd
      · subst heq
        simp
      · rw [Function.update_of_ne heq]
        simp [heq]
    · exact starts_same rfl (by rw [hui]; rfl)
    · exact Or.inl ⟨rfl, rfl⟩
    · intro fd hfd
      rw [hui]
      exact ⟨hfd, by rintro ⟨⟩⟩
  · intro ev
    rw [done_stage]
    simp [events, hui, hget, hread, hst, Stage.served]

/-! ## A new worker -/

/-- The ends of a new pipe, one after the other. -/
theorem fds_pipe (h : Fits s σ) {p0 p1 : Fd} (hk : σ k = none) (hne : p0 ≠ p1)
    (h0 : s.fds p0 = none) (h1 : s.fds p1 = none) :
    Table (Function.update (Function.update s.fds p0 (some (.read k))) p1 (some (.write k)))
      (Function.update σ k (some ⟨0, p0, p1, .pushed, .run⟩)) Session.HoldsFd := by
  have hnone : Table s.fds (Function.update σ k (some ⟨0, p0, p1, .closed, .exited⟩))
      Session.HoldsFd := by
    refine h.fds.enter hk ?_
    rintro fd e (hl | hp)
    · cases hl
    · exact hp rfl
  have hread : Table (Function.update s.fds p0 (some (.read k)))
      (Function.update σ k (some ⟨0, p0, p1, .pushed, .exited⟩)) Session.HoldsFd := by
    have hgive := hnone.give (Function.update_self ..) h0 (e := .read k)
      (y := ⟨0, p0, p1, .pushed, .exited⟩) fun fd e' => ⟨?_, ?_⟩
    · rw [Function.update_idem] at hgive
      exact hgive
    · rintro (hl | hp)
      · exact Or.inr ⟨rfl, rfl⟩
      · exact absurd rfl hp
    · rintro (ho | ⟨rfl, rfl⟩)
      · cases ho with
        | read hl => cases hl
        | write hp => exact absurd rfl hp
      · exact .read rfl
  have hgive := hread.give (Function.update_self ..) (by rw [Function.update_of_ne hne.symm, h1])
    (e := .write k) (y := ⟨0, p0, p1, .pushed, .run⟩) fun fd e' => ⟨?_, ?_⟩
  · rw [Function.update_idem] at hgive
    exact hgive
  · rintro (hl | hp)
    · exact Or.inl (.read rfl)
    · exact Or.inr ⟨rfl, rfl⟩
  · rintro (ho | ⟨rfl, rfl⟩)
    · cases ho with
      | read hl => exact .read rfl
      | write hp => exact absurd rfl hp
    · exact .write (by rintro ⟨⟩)

/-- The pipe of a new start. -/
theorem stdin (h : Fits s σ) (hui : s.ui = .stdin) (o : Outside) (he : Enabled s (.ui o)) :
    ∃ σ', Fits (ui_step o s) σ' ∧ Moves s (.ui o) σ σ' := by
  have hbusy : s.ui.busy = false := by rw [hui]; rfl
  have hev : events s (.ui o) = [] := by simp [events, hui]
  unfold Enabled UiEnabled at he
  rw [hui] at he
  unfold ui_step
  rw [hui]
  dsimp only
  cases hp : o.pipe with
  | none => exact ⟨σ, h.stays hbusy rfl (List.forall_mem_nil _) rfl, .none hev⟩
  | some p =>
    obtain ⟨p0, p1⟩ := p
    obtain ⟨hne, h0, h1⟩ := he (p0, p1) hp
    have hk : σ s.starts = none := by
      have hno : ¬ (σ s.starts).isSome = true := by
        rw [h.starts, hui]
        simp [UiStep.starting]
      simpa using hno
    have hnew : ∀ k' z, σ k' = some z → k' ≠ s.starts := by
      rintro k' z hz rfl
      rw [hk] at hz
      cases hz
    refine ⟨Function.update σ s.starts (some ⟨0, p0, p1, .pushed, .run⟩), ?_,
      .begins _ _ hk rfl rfl hev⟩
    constructor
    case fds => exact h.fds_pipe hk hne h0 h1
    case heap =>
      refine h.heap.enter hk ?_
      rintro m e ⟨hal⟩
      cases hal
    case pipes =>
      refine forall_update (Function.update_self ..) ?_
      intro k' z hne' hz
      simp only [Function.update_of_ne hne']
      exact h.pipes k' z hz
    case worker =>
      intro k'
      by_cases heq : k' = s.starts
      · subst heq
        rw [Function.update_self, h.worker s.starts, hk]
        rfl
      · rw [Function.update_of_ne heq]
        exact h.worker k'
    case nodup =>
      refine List.nodup_append.mpr ⟨h.nodup, List.nodup_singleton p0, ?_⟩
      rintro fd hfd fd' hfd' rfl
      rw [List.mem_singleton.mp hfd', h.list, h0] at hfd
      obtain ⟨_, hno⟩ := hfd
      cases hno
    case list =>
      intro fd
      change fd ∈ s.aes_to_ui_read_pipe_fds ++ [p0] ↔ ∃ k, Function.update
        (Function.update s.fds p0 (some (.read s.starts))) p1 (some (.write s.starts)) fd =
          some (.read k)
      rw [List.mem_append, List.mem_singleton, h.list]
      by_cases hf1 : fd = p1
      · subst hf1
        simp [h1, hne.symm]
      · rw [Function.update_of_ne hf1]
        by_cases hf0 : fd = p0
        · subst hf0
          simp
        · rw [Function.update_of_ne hf0]
          simp [hf0]
    case starts =>
      intro k'
      change _ ↔ k' < s.starts ∨ k' = s.starts ∧ true = true
      by_cases heq : k' = s.starts
      · subst heq
        simp
      · rw [Function.update_of_ne heq, h.starts, hui]
        simp [heq, UiStep.starting]
    case idle =>
      refine forall_update (Or.inr ⟨rfl, rfl, rfl⟩) ?_
      exact fun k' z _ hz => Or.inl (h.idle_of_not_busy hbusy hz)
    case attends =>
      exact fun _ => ⟨_, _, Function.update_self .., rfl, rfl, rfl⟩
    case ready => exact List.forall_mem_nil _
    case leaves => rintro ⟨⟩
    case exit => rintro _ ⟨⟩
    case ok =>
      refine forall_update ⟨by rintro ⟨⟩, by rintro ⟨⟩, ?_, fun _ => rfl⟩ fun k' z _ => h.ok k' z
      rintro fd (hno | hno) <;> cases hno

theorem new (h : Fits s σ) {p1 : Fd} (hui : s.ui = .new p1) (o : Outside)
    (he : Enabled s (.ui o)) : ∃ σ', Fits (ui_step o s) σ' ∧ Moves s (.ui o) σ σ' := by
  obtain ⟨k, x, hk, ha, hothers⟩ := h.attended (by rw [hui]; rfl)
  unfold Attends at ha
  rw [hui] at ha
  obtain ⟨rfl, hst, rfl⟩ := ha
  unfold Enabled UiEnabled at he
  rw [hui] at he
  refine ⟨Function.update σ s.starts (some { x with this := o.t, stage := .created }), ?_,
    .one _ x _ hk (.new x o.t hst) ?_⟩
  · unfold ui_step
    rw [hui]
    refine h.advance hk (.new x o.t hst) hothers ?_ ?_ ?_ ?_ h.nodup h.list ?_ ?_ (List.forall_mem_nil _) rfl
    · exact h.fds_same hk (by rw [hst]; rfl) rfl rfl rfl
    · refine h.heap.give hk he fun m e => ⟨?_, ?_⟩
      · rintro ⟨-⟩
        exact Or.inr ⟨rfl, rfl⟩
      · rintro (ho | ⟨rfl, rfl⟩)
        · cases ho with
          | mk hal =>
            rw [hst] at hal
            cases hal
        · exact .mk rfl
    · exact h.pipes_same hk (by simp [Session.pipe, hst, Stage.listed])
    · exact h.worker_same hk (by simp [Session.worker, hst, Stage.started])
    · exact starts_same rfl (by rw [hui]; rfl)
    · exact Or.inr ⟨rfl, rfl, rfl⟩
  · intro ev
    rw [done_stage]
    simp [events, hui, Stage.served]

/-- The thread is started. -/
theorem start (h : Fits s σ) {p : Ptr} (hui : s.ui = .start p) (o : Outside)
    (ho : InTime s (.ui o)) : ∃ σ', Fits (ui_step o s) σ' ∧ Moves s (.ui o) σ σ' := by
  obtain ⟨k, x, hk, ha, hothers⟩ := h.attended (by rw [hui]; rfl)
  unfold Attends at ha
  rw [hui] at ha
  obtain ⟨rfl, hst, rfl⟩ := ha
  unfold InTime at ho
  rw [hui] at ho
  have hpc : x.pc = .run := (h.ok _ x hk).fresh (by rw [hst]; rfl)
  refine ⟨Function.update σ s.starts (some { x with stage := .waiting }), ?_,
    .one _ x _ hk (.start x hst) ?_⟩
  · unfold ui_step
    rw [hui]
    dsimp only
    rw [if_pos ho]
    refine h.advance hk (.start x hst) hothers ?_ ?_ ?_ ?_ h.nodup h.list ?_ ?_ (List.forall_mem_nil _) rfl
    · exact h.fds_same hk (by rw [hst]; rfl) rfl rfl rfl
    · exact h.heap_same hk (by rw [hst]; rfl) rfl rfl
    · exact h.pipes_same hk (by simp [Session.pipe, hst, hpc, WorkerStep.sent, Stage.listed])
    · intro k'
      unfold State.setWorker
      by_cases heq : k' = s.starts
      · subst heq
        simp [Session.worker, Stage.started, hpc]
      · simp only [Function.update_of_ne heq]
        exact h.worker k'
    · intro k'
      rw [hui]
      change k' < s.starts + 1 ∨ k' = s.starts + 1 ∧ false = true ↔
        k' < s.starts ∨ k' = s.starts ∧ true = true
      simp only [Bool.false_eq_true, and_false, or_false, and_true]
      exact Nat.lt_succ_iff_lt_or_eq
    · exact Or.inl ⟨rfl, rfl⟩
  · intro ev
    rw [done_stage]
    simp [events, hui, Stage.served]

/-! ## Every step -/

theorem next (h : Fits s σ) {a : Action} (he : Enabled s a) (ho : InTime s a) :
    ∃ σ', Fits (next s a) σ' ∧ Moves s a σ σ' := by
  cases a with
  | worker k garbage =>
    obtain ⟨w, hw, hp⟩ := he
    rw [Option.mem_def] at hw
    simp only [ui_thread.next, hw, Option.elim_some]
    exact h.worker_step hw hp garbage
  | ui o =>
    unfold ui_thread.next
    cases hui : s.ui with
    | select => exact ⟨σ, h.select hui o ho, .none (by simp [events, hui])⟩
    | results r it => exact h.results hui o
    | handle r it p => exact h.handle hui o
    | delete r it p => exact h.delete hui o ho
    | close r it => exact h.close hui o
    | stdin => exact h.stdin hui o he
    | new p1 => exact h.new hui o he
    | start p => exact h.start hui o ho
    | exit fds =>
      obtain rfl := h.exit fds hui
      refine ⟨σ, ?_, .none (by simp [events, hui])⟩
      unfold ui_step
      rw [hui]
      refine h.goto (by rw [hui]; rfl) rfl (List.forall_mem_nil _) (fun _ => ?_) (by rintro _ ⟨⟩)
      exact h.leaves (by rw [hui]; rfl)
    | exited =>
      unfold Enabled UiEnabled at he
      rw [hui] at he
      exact he.elim

end Fits

end ui_thread
