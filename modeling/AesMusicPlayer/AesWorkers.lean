-- The AES workers of the UI thread. Each start makes a pipe and an object, and
-- a thread that sends the address of its object through the pipe. The numbers
-- of descriptors and the addresses of objects are used again.
import AesMusicPlayer.Traces
import Mathlib.Logic.Function.Basic

open traces

namespace ui_thread

/-! ## The state -/

/-- A descriptor of the process. -/
abbrev Fd := ℕ

abbrev Ptr := ℕ

/-- An end of the pipe of the start number `k`. -/
inductive PipeEnd
  | read (k : ℕ)
  | write (k : ℕ)
  deriving DecidableEq, Repr

structure Pipe where
  data : List Ptr
  read_open : Bool
  write_open : Bool
  deriving DecidableEq

/-- What the thread and the UI read of an `aes_thread` object, and the start that made it. -/
structure AesThread where
  id : ℕ
  aes_to_ui_write_pipe_fd : Fd
  deriving DecidableEq

/-- The steps of `aes_thread::run`. In `run`, `send` and `finish` it reads fields of its
object. -/
inductive WorkerStep
  | run
  | send
  | write (fd : Fd)
  | finish
  | close (fd : Fd)
  | exited
  deriving DecidableEq, Repr

structure Worker where
  this : Ptr
  pc : WorkerStep
  deriving DecidableEq

/-- The steps of `ui_thread::run`. The results are a loop over the descriptors with the
iterator `it`, and `read_fds` are those that `select` has found. -/
inductive UiStep
  | select
  | results (read_fds : List Fd) (it : ℕ)
  | handle (read_fds : List Fd) (it : ℕ) (aes_t : Ptr)
  | delete (read_fds : List Fd) (it : ℕ) (aes_t : Ptr)
  | close (read_fds : List Fd) (it : ℕ)
  | stdin
  | new (p1 : Fd)
  | start (t : Ptr)
  | exit (fds : List Fd)
  | exited
  deriving DecidableEq, Repr

structure State where
  ui : UiStep
  aes_to_ui_read_pipe_fds : List Fd
  aes_threads : List Ptr
  fds : Fd → Option PipeEnd
  pipes : ℕ → Pipe
  heap : Ptr → Option AesThread
  worker : ℕ → Option Worker
  /-- how many starts are over -/
  starts : ℕ

def State.initial : State :=
  ⟨.select, [], [], fun _ => none, fun _ => ⟨[], false, false⟩, fun _ => none, fun _ => none, 0⟩

/-- What the UI is told from outside. -/
structure Outside where
  /-- `main` has closed its end of the pipe -/
  main_to_ui : Bool
  /-- the keyboard or the player has something -/
  other : Bool
  /-- a key calls `start_aes_thread` -/
  key : Bool
  /-- what `pipe` gives, none when it fails -/
  pipe : Option (Fd × Fd)
  /-- the address of the new object -/
  t : Ptr
  /-- `pthread_create` gives 0 -/
  started : Bool
  deriving DecidableEq

/-- A step of the UI, or of the worker `k`. What a worker reads from the memory of a deleted
object is `garbage`. -/
inductive Action
  | ui (x : Outside)
  | worker (k : ℕ) (garbage : Fd)
  deriving DecidableEq

/-! ## System calls -/

namespace State

def setPipe (k : ℕ) (f : Pipe → Pipe) (s : State) : State :=
  { s with pipes := Function.update s.pipes k (f (s.pipes k)) }

def close (fd : Fd) (s : State) : State :=
  let s' := { s with fds := Function.update s.fds fd none }
  match s.fds fd with
  | some (.read k) => s'.setPipe k fun p => { p with read_open := false }
  | some (.write k) => s'.setPipe k fun p => { p with write_open := false }
  | none => s

/-- `write` of an address. Without a reader it is lost. -/
def write (fd : Fd) (p : Ptr) (s : State) : State :=
  match s.fds fd with
  | some (.write k) =>
    if (s.pipes k).read_open then s.setPipe k fun q => { q with data := q.data ++ [p] } else s
  | _ => s

/-- What `select` says of a descriptor: there is data, or no writer any more. -/
def readable (s : State) (fd : Fd) : Bool :=
  match s.fds fd with
  | some (.read k) => (s.pipes k).data ≠ [] || !(s.pipes k).write_open
  | _ => false

/-- The address that `read` gives, none at the end of the file or with an error. -/
def read (fd : Fd) (s : State) : Option Ptr × State :=
  match s.fds fd with
  | some (.read k) =>
    ((s.pipes k).data.head?, s.setPipe k fun q => { q with data := q.data.tail })
  | _ => (none, s)

/-- The field `_aes_to_ui_write_pipe_fd` of the object at `p`. -/
def field (p : Ptr) (garbage : Fd) (s : State) : Fd :=
  (s.heap p).elim garbage AesThread.aes_to_ui_write_pipe_fd

def setWorker (k : ℕ) (w : Worker) (s : State) : State :=
  { s with worker := Function.update s.worker k (some w) }

end State

/-! ## The steps -/

def ui_step (x : Outside) (s : State) : State :=
  match s.ui with
  | .select =>
    if x.main_to_ui then { s with ui := .exit s.aes_to_ui_read_pipe_fds }
    else { s with ui := .results (s.aes_to_ui_read_pipe_fds.filter s.readable) 0 }
  | .results read_fds it =>
    match s.aes_to_ui_read_pipe_fds[it]? with
    | some fd =>
      if fd ∈ read_fds then
        match s.read fd with
        | (some aes_t, s') => { s' with ui := .handle read_fds it aes_t }
        | (none, s') => { s' with ui := .close read_fds it }
      else { s with ui := .results read_fds (it + 1) }
    | none => { s with ui := if x.key then .stdin else .select }
  | .handle read_fds it aes_t => { s with ui := .delete read_fds it aes_t }
  | .delete read_fds it aes_t =>
    { s with
      heap := Function.update s.heap aes_t none
      aes_threads := s.aes_threads.filter (· ≠ aes_t)
      ui := .close read_fds it }
  | .close read_fds it =>
    match s.aes_to_ui_read_pipe_fds[it]? with
    | some fd =>
      { s.close fd with
        aes_to_ui_read_pipe_fds := s.aes_to_ui_read_pipe_fds.eraseIdx it
        ui := .results read_fds it }
    | none => s
  | .stdin =>
    match x.pipe with
    | none => { s with ui := .select }
    | some (p0, p1) =>
      { s with
        fds := Function.update (Function.update s.fds p0 (some (.read s.starts))) p1
          (some (.write s.starts))
        pipes := Function.update s.pipes s.starts ⟨[], true, true⟩
        aes_to_ui_read_pipe_fds := s.aes_to_ui_read_pipe_fds ++ [p0]
        ui := .new p1 }
  | .new p1 =>
    { s with heap := Function.update s.heap x.t (some ⟨s.starts, p1⟩), ui := .start x.t }
  | .start t =>
    if x.started then
      { s.setWorker s.starts ⟨t, .run⟩ with
        aes_threads := s.aes_threads ++ [t], starts := s.starts + 1, ui := .select }
    else { s with starts := s.starts + 1, ui := .select }
  | .exit [] => { s with ui := .exited }
  | .exit (fd :: fds) => { s.close fd with ui := .exit fds }
  | .exited => s

def worker_step (k : ℕ) (w : Worker) (garbage : Fd) (s : State) : State :=
  match w.pc with
  | .run => s.setWorker k { w with pc := .send }
  | .send => s.setWorker k { w with pc := .write (s.field w.this garbage) }
  | .write fd => (s.write fd w.this).setWorker k { w with pc := .finish }
  | .finish => s.setWorker k { w with pc := .close (s.field w.this garbage) }
  | .close fd => (s.close fd).setWorker k { w with pc := .exited }
  | .exited => s

def next (s : State) : Action → State
  | .ui x => ui_step x s
  | .worker k garbage => (s.worker k).elim s fun w => worker_step k w garbage s

/-- A `read` that waits: the pipe is empty and has a writer. -/
def State.blocks (s : State) (fd : Fd) : Bool :=
  match s.fds fd with
  | some (.read k) => (s.pipes k).data = [] && (s.pipes k).write_open
  | _ => false

/-- When the UI can do its step. `pipe` gives numbers that are free, and `new` an address that
is free. -/
def UiEnabled (x : Outside) (s : State) : Prop :=
  match s.ui with
  | .select =>
    x.main_to_ui = true ∨ x.other = true ∨
      ∃ fd ∈ s.aes_to_ui_read_pipe_fds, s.readable fd = true
  | .results read_fds it =>
    ∀ fd ∈ s.aes_to_ui_read_pipe_fds[it]?, fd ∈ read_fds → s.blocks fd = false
  | .stdin => ∀ p ∈ x.pipe, p.1 ≠ p.2 ∧ s.fds p.1 = none ∧ s.fds p.2 = none
  | .new _ => s.heap x.t = none
  | .exited => False
  | _ => True

instance (x : Outside) (s : State) : Decidable (UiEnabled x s) := by
  unfold UiEnabled
  cases s.ui <;> exact inferInstance

def Enabled (s : State) : Action → Prop
  | .ui x => UiEnabled x s
  | .worker k _ => ∃ w ∈ s.worker k, w.pc ≠ .exited

instance (s : State) (a : Action) : Decidable (Enabled s a) := by
  cases a <;> unfold Enabled <;> exact inferInstance

def system : System State Action := ⟨next, Enabled⟩

instance (s : State) (a : Action) : Decidable (system.Enabled s a) :=
  inferInstanceAs (Decidable (Enabled s a))

end ui_thread
