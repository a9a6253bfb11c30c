-- The heap buffers that the UI allocates for playback. The pointer to one goes
-- from the UI to a worker and back, and through the pipe to the player.
import AesMusicPlayer.Ledger
import AesMusicPlayer.PlayerMessages

open ledger traces

namespace play_buffers

/-! ## The state -/

/-- A buffer, with its size. -/
abbrev Buffer (P : Type*) := ℕ × P

/-- Where the UI is: at its `select`, or in a playback request with its buffer: before the file
is opened, before the worker is started, before the write of the `PLAY` command, or before the
write of the pointer. -/
inductive UiStep (P : Type*)
  | select
  | open_file (b : Buffer P)
  | start_aes_thread (b : Buffer P)
  | play (b : Buffer P)
  | pointer (b : Buffer P)
  deriving DecidableEq

namespace UiStep

variable {P : Type*}

def at_open_file : UiStep P → Bool
  | .open_file _ => true
  | _ => false

def at_start : UiStep P → Bool
  | .start_aes_thread _ => true
  | _ => false

def at_write : UiStep P → Bool
  | .play _ | .pointer _ => true
  | _ => false

theorem of_at_open_file {u : UiStep P} (h : u.at_open_file = true) : ∃ b, u = .open_file b := by
  cases u with
  | open_file b => exact ⟨b, rfl⟩
  | _ => cases h

theorem of_at_start {u : UiStep P} (h : u.at_start = true) : ∃ b, u = .start_aes_thread b := by
  cases u with
  | start_aes_thread b => exact ⟨b, rfl⟩
  | _ => cases h

theorem of_at_write {u : UiStep P} (h : u.at_write = true) :
    ∃ b, u = .play b ∨ u = .pointer b := by
  cases u with
  | play b => exact ⟨b, .inl rfl⟩
  | pointer b => exact ⟨b, .inr rfl⟩
  | _ => cases h

end UiStep

/-- What a worker with the operation `DECRYPT_INTO` has come to. -/
inductive Outcome
  | SUCCESS | FAILED | BUSY | exception
  deriving DecidableEq, Repr

/-- What is written to the pipe to the player. The payload of `PLAY` is the size. -/
inductive Item (P : Type*)
  | PLAY (payload : ℕ)
  | pointer (p : P)
  | STOP
  | VOLUME (payload : Int)
  deriving DecidableEq

/-- Where the player is: at its `select`, before it reads the pointer, before it opens the song,
before it frees the buffer, or before the write of its reply. -/
inductive PlayerStep (P : Type*)
  | select
  | play (payload : ℕ)
  | load (b : Buffer P)
  | free (b : Buffer P) (result : player_thread.Result)
  | reply (m : player_thread.Message)
  deriving DecidableEq

def PlayerStep.reads {P : Type*} : PlayerStep P → Bool
  | .select | .play _ => true
  | _ => false

structure State (P : Type*) where
  /-- the calls of `malloc` and `free` -/
  log : List (Call P ℕ)
  ui : UiStep P
  /-- the workers that run -/
  running : List (Buffer P)
  /-- the workers that have sent their result -/
  finished : List (Buffer P × Outcome)
  pipe : List (Item P)
  player : PlayerStep P

variable {P : Type*}

def State.start : State P := ⟨[], .select, [], [], [], .select⟩

inductive Action (P : Type*)
  | malloc (is_encrypted : Bool) (taken : Option (Buffer P))
  | open_file (ok : Bool)
  | start_aes_thread (ok : Bool)
  | write
  | stop
  | volume (delta : Int)
  | finish (b : Buffer P) (outcome : Outcome)
  | result (b : Buffer P) (outcome : Outcome)
  | player (opened requested played : Bool)
  deriving DecidableEq

/-! ## The steps -/

namespace State

/-- A space on an entry, up to the check of the buffer. -/
def malloc (is_encrypted : Bool) (taken : Option (Buffer P)) (s : State P) : State P :=
  match taken with
  | some b => { s with
      log := s.log ++ [.malloc b.2 b.1]
      ui := if is_encrypted then .start_aes_thread b else .open_file b }
  | none => s

/-- A file that does not open throws. -/
def open_file (ok : Bool) (s : State P) : State P :=
  match s.ui with
  | .open_file b => { s with ui := if ok then .play b else .select }
  | _ => s

def start_aes_thread (ok : Bool) (s : State P) : State P :=
  match s.ui with
  | .start_aes_thread b =>
    if ok then { s with ui := .select, running := b :: s.running } else { s with ui := .select }
  | _ => s

/-- The two writes of `_start_playing`. -/
def write (s : State P) : State P :=
  match s.ui with
  | .play b => { s with ui := .pointer b, pipe := s.pipe ++ [.PLAY b.1] }
  | .pointer b => { s with ui := .select, pipe := s.pipe ++ [.pointer b.2] }
  | _ => s

variable [DecidableEq P]

def finish (b : Buffer P) (outcome : Outcome) (s : State P) : State P :=
  { s with running := s.running.erase b, finished := (b, outcome) :: s.finished }

/-- The result of a worker: with the status `SUCCESS` its buffer is played. -/
def result (b : Buffer P) (outcome : Outcome) (s : State P) : State P :=
  let finished := s.finished.erase (b, outcome)
  match outcome with
  | .SUCCESS => { s with finished, ui := .play b }
  | .FAILED | .BUSY | .exception => { s with finished }

/-- The flags are the outcomes of `sf_open_virtual`, `request_buffer` and `play`. -/
def player_step (opened requested played : Bool) (s : State P) : State P :=
  match s.player with
  | .select =>
    match s.pipe with
    | .PLAY payload :: pipe => { s with pipe, player := .play payload }
    | .STOP :: pipe => { s with pipe, player := .reply .STOP }
    | .VOLUME _ :: pipe => { s with pipe }
    | _ => s
  | .play payload =>
    match s.pipe with
    | .pointer p :: pipe => { s with pipe, player := .load (payload, p) }
    | _ => s
  | .load b =>
    { s with player := .free b (if opened && requested && played then .SUCCESS else .FAILURE) }
  | .free b r => { s with log := s.log ++ [.free b.2 b.1], player := .reply (.PLAY r) }
  | .reply _ => { s with player := .select }

def next (s : State P) : Action P → State P
  | .malloc is_encrypted taken => s.malloc is_encrypted taken
  | .open_file ok => s.open_file ok
  | .start_aes_thread ok => s.start_aes_thread ok
  | .write => s.write
  | .stop => { s with pipe := s.pipe ++ [.STOP] }
  | .volume delta => { s with pipe := s.pipe ++ [.VOLUME delta] }
  | .finish b outcome => s.finish b outcome
  | .result b outcome => s.result b outcome
  | .player opened requested played => s.player_step opened requested played

/-- The UI is at the step. The player waits where it reads from the pipe. -/
def Enabled (s : State P) : Action P → Prop
  | .malloc _ taken => s.ui = .select ∧ ∀ b ∈ taken, Fresh (live s.log) b.2
  | .open_file _ => s.ui.at_open_file = true
  | .start_aes_thread _ => s.ui.at_start = true
  | .write => s.ui.at_write = true
  | .stop | .volume _ => s.ui = .select
  | .finish b _ => b ∈ s.running
  | .result b outcome => s.ui = .select ∧ (b, outcome) ∈ s.finished
  | .player _ _ _ => s.player.reads = true → s.pipe ≠ []

instance (s : State P) (a : Action P) : Decidable (s.Enabled a) := by
  cases a <;> unfold Enabled <;> exact inferInstance

end State

/-- The two threads and the workers. A step that cannot come yet waits. -/
def system (P : Type*) [DecidableEq P] : System (State P) (Action P) := ⟨State.next, State.Enabled⟩

instance [DecidableEq P] (s : State P) (a : Action P) : Decidable ((system P).Enabled s a) :=
  inferInstanceAs (Decidable (s.Enabled a))

/-! ## Who has a buffer -/

def UiStep.held : UiStep P → List (Buffer P)
  | .select => []
  | .open_file b | .start_aes_thread b | .play b | .pointer b => [b]

/-- The size that is written without its pointer. -/
def UiStep.pending : UiStep P → Option ℕ
  | .pointer b => some b.1
  | _ => none

def PlayerStep.held : PlayerStep P → List (Buffer P)
  | .load b | .free b _ => [b]
  | _ => []

/-- The size that is read without its pointer. -/
def PlayerStep.pending : PlayerStep P → Option ℕ
  | .play payload => some payload
  | _ => none

/-- The buffers in the pipe, each from a `PLAY` and the pointer behind it. -/
def carried : Option ℕ → List (Item P) → List (Buffer P)
  | _, [] => []
  | _, .PLAY payload :: pipe => carried (some payload) pipe
  | some payload, .pointer p :: pipe => (payload, p) :: carried none pipe
  | none, .pointer _ :: pipe => carried none pipe
  | o, .STOP :: pipe => carried o pipe
  | o, .VOLUME _ :: pipe => carried o pipe

namespace State

/-- The buffers of the UI, the workers, the pipe and the player. -/
def held (s : State P) : List (Buffer P) :=
  s.ui.held ++ (s.running ++ (s.finished.map Prod.fst ++
    (carried s.player.pending s.pipe ++ s.player.held)))

/-- Both threads are idle, and the pipe and the workers are drained. -/
structure Drained (s : State P) : Prop where
  ui : s.ui = .select
  running : s.running = []
  finished : s.finished = []
  pipe : s.pipe = []
  player : s.player = .select

variable [DecidableEq P]

/-- Each buffer is freed at most once, with its size, and each one that is not freed yet is with
one holder, who frees it or hands it on. -/
structure Accounted (s : State P) : Prop where
  freed : Kept s.log
  held : Lists s.held (live s.log)
  drained : s.Drained → live s.log = []

/-- The step hands a buffer on: the file opens, the worker starts, and its result is a success. -/
def HandsOn (_ : State P) : Action P → Prop
  | .open_file ok => ok = true
  | .start_aes_thread ok => ok = true
  | .result _ outcome => outcome = .SUCCESS
  | _ => True

end State

/-! ## The pipe -/

/-- Every `PLAY` has its pointer behind it, save for the size that is pending at the end. -/
inductive Paired : Option ℕ → List (Item P) → Option ℕ → Prop
  | nil (o : Option ℕ) : Paired o [] o
  | PLAY {payload : ℕ} {pipe : List (Item P)} {o : Option ℕ} :
      Paired (some payload) pipe o → Paired none (.PLAY payload :: pipe) o
  | pointer {payload : ℕ} {p : P} {pipe : List (Item P)} {o : Option ℕ} :
      Paired none pipe o → Paired (some payload) (.pointer p :: pipe) o
  | STOP {pipe : List (Item P)} {o : Option ℕ} : Paired none pipe o → Paired none (.STOP :: pipe) o
  | VOLUME {delta : Int} {pipe : List (Item P)} {o : Option ℕ} :
      Paired none pipe o → Paired none (.VOLUME delta :: pipe) o

namespace Paired

variable {o o' : Option ℕ} {pipe tail : List (Item P)}

theorem append (h : Paired o pipe o') {o'' : Option ℕ} (h' : Paired o' tail o'') :
    Paired o (pipe ++ tail) o'' := by
  induction h with
  | nil o => exact h'
  | PLAY _ ih => exact .PLAY (ih h')
  | pointer _ ih => exact .pointer (ih h')
  | STOP _ ih => exact .STOP (ih h')
  | VOLUME _ ih => exact .VOLUME (ih h')

theorem carried_append (h : Paired o pipe o') (tail : List (Item P)) :
    carried o (pipe ++ tail) = carried o pipe ++ carried o' tail := by
  induction h with
  | nil o =>
    cases o <;> rfl
  | PLAY _ ih => exact ih
  | pointer _ ih => exact congrArg (_ :: ·) ih
  | STOP _ ih => exact ih
  | VOLUME _ ih => exact ih

end Paired

/-! ## One step -/

namespace State

/-- What every run keeps while all buffers are handed on. -/
structure Inv [DecidableEq P] (s : State P) : Prop where
  sound : Sound s.log
  held : Lists s.held (live s.log)
  paired : Paired s.player.pending s.pipe s.ui.pending

theorem held_of_drained {s : State P} (h : s.Drained) : s.held = [] := by
  obtain ⟨hui, hrunning, hfinished, hpipe, hplayer⟩ := h
  unfold held
  rw [hui, hrunning, hfinished, hpipe, hplayer]
  rfl

section Step

variable [DecidableEq P] {s s' : State P} {b : Buffer P}

theorem Inv.accounted (h : s.Inv) : s.Accounted := by
  refine ⟨h.sound.kept, h.held, ?_⟩
  intro hdrained
  have hlists := h.held
  rw [held_of_drained hdrained] at hlists
  exact hlists.eq_nil

theorem inv_start : (start : State P).Inv := ⟨.nil, .nil, .nil none⟩

/-- A buffer goes from one holder to another. -/
theorem Inv.move (h : s.Inv) (hlog : s'.log = s.log) (hheld : s.held.Perm s'.held)
    (hpaired : Paired s'.player.pending s'.pipe s'.ui.pending) : s'.Inv := by
  refine ⟨?_, ?_, hpaired⟩
  · rw [hlog]
    exact h.sound
  · rw [hlog]
    exact h.held.perm hheld

theorem inv_malloc (h : s.Inv) {is_encrypted : Bool} {taken : Option (Buffer P)}
    (hui : s.ui = .select) (hfresh : ∀ b ∈ taken, Fresh (live s.log) b.2) :
    (s.malloc is_encrypted taken).Inv := by
  cases taken with
  | none => exact h
  | some b =>
    have hb := hfresh b rfl
    have hheld := h.held
    have hpaired := h.paired
    unfold held at hheld
    rw [hui] at hheld hpaired
    have hnew : Lists (b :: (s.running ++ (s.finished.map Prod.fst ++
        (carried s.player.pending s.pipe ++ s.player.held)))) (live s.log ++ [b]) :=
      (hheld.malloc hb b.1).perm (List.perm_append_singleton _ _)
    unfold malloc
    refine ⟨h.sound.snoc hb, ?_, ?_⟩
    · rw [live_malloc]
      cases is_encrypted <;> exact hnew
    · cases is_encrypted <;> exact hpaired

theorem inv_open_file (h : s.Inv) (hui : s.ui = .open_file b) : (s.open_file true).Inv := by
  have hpaired := h.paired
  unfold open_file
  rw [hui] at hpaired ⊢
  refine h.move rfl ?_ hpaired
  unfold held
  rw [hui]
  exact .refl _

theorem inv_start_aes_thread (h : s.Inv) (hui : s.ui = .start_aes_thread b) :
    (s.start_aes_thread true).Inv := by
  have hpaired := h.paired
  unfold start_aes_thread
  rw [hui] at hpaired ⊢
  refine h.move rfl ?_ hpaired
  unfold held
  rw [hui]
  exact .refl _

theorem inv_write_play (h : s.Inv) (hui : s.ui = .play b) : s.write.Inv := by
  have hpaired := h.paired
  unfold write
  rw [hui] at hpaired ⊢
  refine h.move rfl ?_ (hpaired.append (.PLAY (.nil _)))
  unfold held
  rw [hui]
  simp only
  rw [hpaired.carried_append]
  simp only [carried, UiStep.held, List.append_nil]
  exact .refl _

theorem inv_write_pointer (h : s.Inv) (hui : s.ui = .pointer b) : s.write.Inv := by
  have hpaired := h.paired
  unfold write
  rw [hui] at hpaired ⊢
  refine h.move rfl ?_ (hpaired.append (.pointer (.nil _)))
  unfold held
  rw [hui]
  simp only
  rw [hpaired.carried_append]
  simp only [carried, UiStep.held, UiStep.pending, List.nil_append, List.singleton_append,
    List.append_assoc]
  refine List.perm_middle.symm.trans (List.Perm.append_left _ ?_)
  exact List.perm_middle.symm.trans (List.Perm.append_left _ List.perm_middle.symm)

theorem inv_send (h : s.Inv) {x : Item P} (hui : s.ui = .select)
    (hx : Paired none [x] none ∧ carried none [x] = []) :
    { s with pipe := s.pipe ++ [x] }.Inv := by
  have hpaired := h.paired
  rw [hui] at hpaired
  refine h.move rfl ?_ ?_
  · unfold held
    simp only
    rw [hpaired.carried_append]
    show List.Perm _ (_ ++ (_ ++ (_ ++ ((_ ++ carried none [x]) ++ _))))
    rw [hx.2, List.append_nil]
  · simp only
    rw [hui]
    exact hpaired.append hx.1

theorem inv_finish (h : s.Inv) {outcome : Outcome} (hb : b ∈ s.running) :
    (s.finish b outcome).Inv := by
  refine h.move rfl ?_ h.paired
  unfold held finish
  simp only
  refine List.Perm.append_left _ ?_
  rw [List.map_cons, List.cons_append]
  exact ((List.perm_cons_erase hb).append_right _).trans List.perm_middle.symm

theorem inv_result (h : s.Inv) (hui : s.ui = .select) (hb : (b, .SUCCESS) ∈ s.finished) :
    (s.result b .SUCCESS).Inv := by
  have hpaired := h.paired
  rw [hui] at hpaired
  refine h.move rfl ?_ hpaired
  unfold held result
  simp only
  rw [hui]
  simp only [UiStep.held, List.nil_append, List.singleton_append]
  have hfin := ((List.perm_cons_erase hb).map Prod.fst).append_right
    (carried s.player.pending s.pipe ++ s.player.held)
  exact (hfin.append_left _).trans List.perm_middle

theorem inv_player_select (h : s.Inv) {opened requested played : Bool}
    (hplayer : s.player = .select) : (s.player_step opened requested played).Inv := by
  have hpaired := h.paired
  unfold player_step
  rw [hplayer] at hpaired ⊢
  rcases hpipe : s.pipe with _ | ⟨_ | _ | _ | _, pipe⟩
  · exact h
  case PLAY payload =>
    rw [hpipe] at hpaired
    cases hpaired with
    | PLAY hrest =>
      refine h.move rfl ?_ hrest
      unfold held
      rw [hplayer, hpipe]
      exact .refl _
  case pointer p => exact h
  case STOP =>
    rw [hpipe] at hpaired
    cases hpaired with
    | STOP hrest =>
      refine h.move rfl ?_ hrest
      unfold held
      rw [hplayer, hpipe]
      exact .refl _
  case VOLUME delta =>
    rw [hpipe] at hpaired
    cases hpaired with
    | VOLUME hrest =>
      refine h.move rfl ?_ hrest
      unfold held
      rw [hplayer, hpipe]
      exact .refl _

theorem inv_player_play (h : s.Inv) {opened requested played : Bool} {payload : ℕ}
    (hplayer : s.player = .play payload) : (s.player_step opened requested played).Inv := by
  have hpaired := h.paired
  unfold player_step
  rw [hplayer] at hpaired ⊢
  rcases hpipe : s.pipe with _ | ⟨_ | _ | _ | _, pipe⟩
  case cons.pointer p =>
    rw [hpipe] at hpaired
    cases hpaired with
    | pointer hrest =>
      refine h.move rfl ?_ hrest
      unfold held
      rw [hplayer, hpipe]
      refine List.Perm.append_left _ (List.Perm.append_left _ (List.Perm.append_left _ ?_))
      simp only [carried, PlayerStep.pending, PlayerStep.held, List.append_nil]
      exact (List.perm_append_singleton _ _).symm
  all_goals exact h

/-- The player frees the buffer that it holds. -/
theorem inv_player_free (h : s.Inv) {opened requested played : Bool}
    {r : player_thread.Result} (hplayer : s.player = .free b r) :
    (s.player_step opened requested played).Inv := by
  have hpaired := h.paired
  have hheld := h.held
  unfold player_step
  unfold held at hheld
  rw [hplayer] at hpaired hheld ⊢
  have hfront : Lists (b :: (s.ui.held ++ (s.running ++ (s.finished.map Prod.fst ++
      (carried none s.pipe ++ []))))) (live s.log) := by
    refine hheld.perm ?_
    simp only [PlayerStep.held, PlayerStep.pending, List.append_nil, ← List.append_assoc]
    exact List.perm_append_singleton _ _
  have herase := hfront.erase b.2
  rw [List.eraseP_cons_of_pos (by simp)] at herase
  refine ⟨h.sound.snoc ((hfront.exact b).mp List.mem_cons_self), ?_, hpaired⟩
  rw [live_free]
  exact herase

theorem inv_player (h : s.Inv) {opened requested played : Bool} :
    (s.player_step opened requested played).Inv := by
  cases hplayer : s.player with
  | select => exact inv_player_select h hplayer
  | play payload => exact inv_player_play h hplayer
  | load b =>
    have hpaired := h.paired
    unfold player_step
    rw [hplayer] at hpaired ⊢
    refine h.move rfl ?_ hpaired
    unfold held
    rw [hplayer]
    exact .refl _
  | free b r => exact inv_player_free h hplayer
  | reply m =>
    have hpaired := h.paired
    unfold player_step
    rw [hplayer] at hpaired ⊢
    refine h.move rfl ?_ hpaired
    unfold held
    rw [hplayer]
    exact .refl _

theorem inv_next (h : s.Inv) {a : Action P} (he : s.Enabled a) (hon : s.HandsOn a) :
    (s.next a).Inv := by
  cases a with
  | malloc is_encrypted taken => exact inv_malloc h he.1 he.2
  | open_file ok =>
    obtain ⟨b, hui⟩ := UiStep.of_at_open_file he
    obtain rfl : ok = true := hon
    exact inv_open_file h hui
  | start_aes_thread ok =>
    obtain ⟨b, hui⟩ := UiStep.of_at_start he
    obtain rfl : ok = true := hon
    exact inv_start_aes_thread h hui
  | write =>
    obtain ⟨b, hui | hui⟩ := UiStep.of_at_write he
    · exact inv_write_play h hui
    · exact inv_write_pointer h hui
  | stop => exact inv_send h he ⟨.STOP (.nil none), rfl⟩
  | volume delta => exact inv_send h he ⟨.VOLUME (.nil none), rfl⟩
  | finish b outcome => exact inv_finish h he
  | result b outcome =>
    obtain rfl : outcome = .SUCCESS := hon
    exact inv_result h he.1 he.2
  | player opened requested played => exact inv_player h

/-- A buffer that a step drops stays live with no holder. -/
theorem not_accounted_of_dropped (h : s.Inv) (hlog : s'.log = s.log)
    (hheld : s.held.Perm (b :: s'.held)) : ¬ s'.Accounted := by
  intro hacc
  have hlists := hacc.held
  rw [hlog] at hlists
  exact (h.held.perm hheld).not_lists_of_cons hlists

theorem handsOn_of_accounted (h : s.Inv) {a : Action P} (he : s.Enabled a)
    (hacc : (s.next a).Accounted) : s.HandsOn a := by
  cases a with
  | open_file ok =>
    obtain ⟨b, hui⟩ := UiStep.of_at_open_file he
    cases ok with
    | true => rfl
    | false =>
      refine absurd hacc (not_accounted_of_dropped (b := b) h ?_ ?_)
      · unfold next open_file
        rw [hui]
      · unfold next open_file held
        rw [hui]
        exact .refl _
  | start_aes_thread ok =>
    obtain ⟨b, hui⟩ := UiStep.of_at_start he
    cases ok with
    | true => rfl
    | false =>
      refine absurd hacc (not_accounted_of_dropped (b := b) h ?_ ?_)
      · unfold next start_aes_thread
        rw [hui]
        rfl
      · unfold next start_aes_thread held
        rw [hui]
        exact .refl _
  | result b outcome =>
    by_contra hdrops
    have hnext : s.next (.result b outcome) =
        { s with finished := s.finished.erase (b, outcome) } := by
      cases outcome with
      | SUCCESS => exact absurd rfl hdrops
      | _ => rfl
    rw [hnext] at hacc
    refine absurd hacc (not_accounted_of_dropped (b := b) h rfl ?_)
    unfold held
    simp only
    have hfin := ((List.perm_cons_erase he.2).map Prod.fst).append_right
      (carried s.player.pending s.pipe ++ s.player.held)
    refine ((hfin.append_left _).append_left _).trans ?_
    exact (List.perm_middle.append_left _).trans List.perm_middle
  | _ => trivial

end Step

end State

/-! ## All runs -/

/-- In every run, each buffer is freed once or is on its way, and none is left when all is
drained, exactly when each step that has a buffer hands it on. -/
theorem buffers_are_freed_iff [DecidableEq P] {tr : List (State P × Action P)} {s : State P}
    (h : Run (system P) (fun _ _ => True) .start tr s) :
    Along (fun _ s => s.Accounted) tr s ↔ ∀ e ∈ tr, e.1.HandsOn e.2 :=
  h.along_iff (I := State.Inv) (Q := State.Accounted) State.inv_start (fun _ => State.Inv.accounted)
    (fun _ _ hs he _ hon => State.inv_next hs he hon)
    (fun _ _ hs he _ hacc => State.handsOn_of_accounted hs he hacc)

/-! ## A file that does not open -/

/-- An encrypted file and a plain one are played. -/
def two_songs : List (Action ℕ) :=
  [.malloc true (some (4, 1)), .start_aes_thread true, .malloc false (some (6, 2)),
    .open_file true, .write, .finish (4, 1) .SUCCESS, .player true true true, .write,
    .result (4, 1) .SUCCESS, .player true true true, .write, .write,
    .player true true true, .player true true true, .player true true true,
    .player true true true, .player true true true, .player true true true,
    .player true true true, .player true true true]

/-- The file is gone when it is opened. -/
def missing_file : List (Action ℕ) := [.malloc false (some (4, 1)), .open_file false]

theorem run_of_actions {actions : List (Action ℕ)}
    (h : (system ℕ).Enables .start actions) :
    Run (system ℕ) (fun _ _ => True) .start ((system ℕ).trace .start actions)
      ((system ℕ).after .start actions) :=
  System.run_of_enables h fun _ _ => trivial

theorem enables_two_songs : (system ℕ).Enables .start two_songs := by
  decide

theorem buffers_of_two_songs :
    (Along (fun _ s => s.Accounted) ((system ℕ).trace .start two_songs)
        ((system ℕ).after .start two_songs) ↔
      ∀ e ∈ (system ℕ).trace .start two_songs, e.1.HandsOn e.2) ∧
      ((system ℕ).after .start two_songs).log =
        [.malloc 1 4, .malloc 2 6, .free 2 6, .free 1 4] :=
  ⟨buffers_are_freed_iff (run_of_actions enables_two_songs), by decide⟩

theorem enables_missing_file : (system ℕ).Enables .start missing_file := by
  decide

/-- All is drained, and the buffer is still allocated. -/
theorem buffer_of_a_missing_file :
    Run (system ℕ) (fun _ _ => True) .start ((system ℕ).trace .start missing_file)
        ((system ℕ).after .start missing_file) ∧
      ((system ℕ).after .start missing_file).Drained ∧
      live ((system ℕ).after .start missing_file).log = [(4, 1)] ∧
      ¬ Along (fun _ s => s.Accounted) ((system ℕ).trace .start missing_file)
        ((system ℕ).after .start missing_file) := by
  have hdrained : ((system ℕ).after .start missing_file).Drained := ⟨rfl, rfl, rfl, rfl, rfl⟩
  refine ⟨run_of_actions enables_missing_file, hdrained, by decide, ?_⟩
  intro halong
  exact absurd (halong.1.drained hdrained) (by decide)

end play_buffers
