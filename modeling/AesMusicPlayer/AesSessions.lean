-- Each start of an AES worker as a session of its own: how far the worker has
-- come, and how far the UI has come with the result. No session knows of
-- another. What the process holds is what the sessions hold.
import AesMusicPlayer.AesWorkers
import AesMusicPlayer.Holdings

open traces holdings

namespace ui_thread

/-! ## One session -/

/-- What the UI has done for a start: the pipe, the object, the thread, and then the read of
the message, the handling, and the deletion of the object and the close. -/
inductive Stage
  | pushed | created | waiting | read | handled | deleted | closed
  deriving DecidableEq, Repr

namespace Stage

/-- The read end is open and on the list. -/
def listed : Stage → Bool
  | .closed => false
  | _ => true

/-- There is an object. -/
def alive : Stage → Bool
  | .created | .waiting | .read | .handled => true
  | _ => false

def started : Stage → Bool
  | .pushed | .created => false
  | _ => true

/-- The message is read. -/
def taken : Stage → Bool
  | .read | .handled | .deleted | .closed => true
  | _ => false

def served : Stage → Bool
  | .handled | .deleted | .closed => true
  | _ => false

def disposed : Stage → Bool
  | .deleted | .closed => true
  | _ => false

/-- The UI is not busy with the session. -/
def idle : Stage → Bool
  | .waiting | .closed => true
  | _ => false

end Stage

namespace WorkerStep

/-- The result is in the pipe, or was. -/
def sent : WorkerStep → Bool
  | .finish | .close _ | .exited => true
  | _ => false

/-- The worker does not read a field of its object any more. -/
def loaded : WorkerStep → Bool
  | .close _ | .exited => true
  | _ => false

end WorkerStep

structure Session where
  this : Ptr
  read_fd : Fd
  write_fd : Fd
  stage : Stage
  pc : WorkerStep
  deriving DecidableEq

namespace Session

/-- The next step of the worker, with the descriptor of its own object. -/
def work (x : Session) : WorkerStep :=
  match x.pc with
  | .run => .send
  | .send => .write x.write_fd
  | .write _ => .finish
  | .finish => .close x.write_fd
  | .close _ => .exited
  | .exited => .exited

theorem sent_work (x : Session) (h : x.pc.sent = true) : x.work.sent = true := by
  unfold work
  cases hp : x.pc <;> simp_all [WorkerStep.sent]

/-- The steps of a session. The message comes before its read, and the object is deleted when
the worker does not read it any more. -/
inductive Step : Session → Session → Prop
  | new (x : Session) (t : Ptr) :
      x.stage = .pushed → Step x { x with this := t, stage := .created }
  | start (x : Session) : x.stage = .created → Step x { x with stage := .waiting }
  | read (x : Session) :
      x.stage = .waiting → x.pc.sent = true → Step x { x with stage := .read }
  | handle (x : Session) : x.stage = .read → Step x { x with stage := .handled }
  | delete (x : Session) :
      x.stage = .handled → x.pc.loaded = true → Step x { x with stage := .deleted }
  | close (x : Session) : x.stage = .deleted → Step x { x with stage := .closed }
  | work (x : Session) : x.stage.started = true → x.pc ≠ .exited → Step x { x with pc := x.work }

structure Ok (x : Session) : Prop where
  sent : x.stage.taken = true → x.pc.sent = true
  loaded : x.stage.disposed = true → x.pc.loaded = true
  fd : ∀ fd, x.pc = .write fd ∨ x.pc = .close fd → fd = x.write_fd
  fresh : x.stage.started = false → x.pc = .run

theorem Step.ok {x y : Session} (h : Step x y) (hx : x.Ok) : y.Ok := by
  cases h with
  | new t hs => exact ⟨nofun, nofun, hx.fd, fun _ => hx.fresh (by rw [hs]; rfl)⟩
  | start hs => exact ⟨nofun, nofun, hx.fd, nofun⟩
  | read hs hp => exact ⟨fun _ => hp, nofun, hx.fd, nofun⟩
  | handle hs => exact ⟨fun _ => hx.sent (by rw [hs]; rfl), nofun, hx.fd, nofun⟩
  | delete hs hp => exact ⟨fun _ => hx.sent (by rw [hs]; rfl), fun _ => hp, hx.fd, nofun⟩
  | close hs =>
    exact ⟨fun _ => hx.sent (by rw [hs]; rfl), fun _ => hx.loaded (by rw [hs]; rfl), hx.fd, nofun⟩
  | work hs hp =>
    obtain ⟨h1, h2, h3, h4⟩ := hx
    refine ⟨?_, ?_, ?_, ?_⟩ <;> unfold Session.work <;> cases hpc : x.pc <;>
      simp_all [WorkerStep.sent, WorkerStep.loaded]

/-! ## What a session holds -/

/-- The descriptors of the session. -/
inductive HoldsFd (k : ℕ) (x : Session) : Fd → PipeEnd → Prop
  | read : x.stage.listed = true → HoldsFd k x x.read_fd (.read k)
  | write : x.pc ≠ .exited → HoldsFd k x x.write_fd (.write k)

/-- The object of the session. -/
inductive HoldsObject (k : ℕ) (x : Session) : Ptr → AesThread → Prop
  | mk : x.stage.alive = true → HoldsObject k x x.this ⟨k, x.write_fd⟩

theorem HoldsObject.id_eq {k : ℕ} {x : Session} {p : Ptr} {o : AesThread}
    (h : HoldsObject k x p o) : o.id = k := by
  cases h
  rfl

/-- The pipe of the session. -/
def pipe (x : Session) : Pipe :=
  ⟨if x.stage = .waiting ∧ x.pc.sent = true then [x.this] else [], x.stage.listed,
    decide (x.pc ≠ .exited)⟩

def worker (x : Session) : Option Worker :=
  if x.stage.started then some ⟨x.this, x.pc⟩ else none

end Session

/-- The session that the UI is busy with. -/
def Attends (s : State) (k : ℕ) (x : Session) : Prop :=
  match s.ui with
  | .new p1 => k = s.starts ∧ x.stage = .pushed ∧ x.write_fd = p1
  | .start t => k = s.starts ∧ x.stage = .created ∧ x.this = t
  | .handle _ it aes_t =>
    x.stage = .read ∧ x.this = aes_t ∧ s.aes_to_ui_read_pipe_fds[it]? = some x.read_fd
  | .delete _ it aes_t =>
    x.stage = .handled ∧ x.this = aes_t ∧ s.aes_to_ui_read_pipe_fds[it]? = some x.read_fd
  | .close _ it => x.stage = .deleted ∧ s.aes_to_ui_read_pipe_fds[it]? = some x.read_fd
  | _ => False

def UiStep.busy : UiStep → Bool
  | .new _ | .start _ | .handle .. | .delete .. | .close .. => true
  | _ => false

/-- In `start_aes_thread` the start number `starts` has a session already. -/
def UiStep.starting : UiStep → Bool
  | .new _ | .start _ => true
  | _ => false

/-- What `select` has found. -/
def UiStep.read_fds : UiStep → List Fd
  | .results read_fds _ | .handle read_fds .. | .delete read_fds .. | .close read_fds _ => read_fds
  | _ => []

/-- The UI leaves its loop. -/
def UiStep.leaves : UiStep → Bool
  | .exit _ | .exited => true
  | _ => false

/-- The state is what the sessions `σ` make of it. -/
structure Fits (s : State) (σ : ℕ → Option Session) : Prop where
  fds : Table s.fds σ Session.HoldsFd
  heap : Table s.heap σ Session.HoldsObject
  pipes : ∀ k x, σ k = some x → s.pipes k = x.pipe
  worker : ∀ k, s.worker k = (σ k).bind Session.worker
  nodup : s.aes_to_ui_read_pipe_fds.Nodup
  list : ∀ fd, fd ∈ s.aes_to_ui_read_pipe_fds ↔ ∃ k, s.fds fd = some (.read k)
  starts : ∀ k, (σ k).isSome = true ↔ k < s.starts ∨ k = s.starts ∧ s.ui.starting = true
  idle : ∀ k x, σ k = some x → x.stage.idle = true ∨ Attends s k x
  attends : s.ui.busy = true → ∃ k x, σ k = some x ∧ Attends s k x
  ready : ∀ fd ∈ s.ui.read_fds, ∀ k x, σ k = some x → x.read_fd = fd → x.stage = .waiting →
    x.pc.sent = true
  leaves : s.ui.leaves = true → s.aes_to_ui_read_pipe_fds = []
  exit : ∀ fds, s.ui = .exit fds → fds = []
  ok : ∀ k x, σ k = some x → x.Ok

theorem fits_initial : Fits .initial fun _ => none := by
  refine ⟨?_, ?_, nofun, fun _ => rfl, List.nodup_nil, ?_, ?_, nofun, nofun, nofun, nofun, nofun,
    nofun⟩
  · rintro fd e
    exact ⟨nofun, fun ⟨_, _, hk, _⟩ => by cases hk⟩
  · rintro p o
    exact ⟨nofun, fun ⟨_, _, hk, _⟩ => by cases hk⟩
  · intro fd
    exact ⟨nofun, nofun⟩
  · intro k
    simp [State.initial, UiStep.starting]

end ui_thread
