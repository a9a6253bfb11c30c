-- Key presses, worker threads, signals and the UI in any order. The UI looks at
-- `user.is_encrypted` when the key is pressed. The worker asks for the size of the file, opens it
-- and reads it later, and the UI replaces it later still.
import AesMusicPlayer.FileMarks
import AesMusicPlayer.TransferSignals

open traces

namespace aes

/-! ## The state -/

/-- Where a worker thread is, from the key press to the handling of its result. -/
inductive Phase
  | created | called | reported
  deriving DecidableEq, Repr

structure Worker where
  thread : AesThread
  phase : Phase
  /-- the file behind the input stream, as it was when the stream was opened -/
  opened : Option File
  /-- the exception of the call, or the status that `_dma_complete_callback` has set -/
  told : Option (Except Thrown OperationResult)

structure Player where
  files : FileSystem
  engines : Engine → Signals
  workers : List Worker

/-- The thread of a key press. -/
def pressed (op : Operation) (key : Key) (path tmp : String) (id : Ptr) : AesThread :=
  ⟨op, key, path, tmp, 0, 0, ⟨1, Nat.one_ne_zero⟩, id⟩

inductive Action
  /-- 'e' or 'd' on `path`, with the temporary name `tmp` -/
  | press (op : Operation) (path tmp : String) (id : Ptr)
  /-- the worker calls `encrypt_file` or `decrypt_file` -/
  | call (id : Ptr)
  /-- the next step of a thread in `_do_transfer` or `_dma_callback` -/
  | step (k : Engine) (t : Thread) (x : Faults) (prepared : Bool)
  /-- the transfer of an engine completes, and its signal runs as `h` -/
  | complete (k : Engine) (h : Thread) (out : Bytes)
  /-- the worker sends its result to the UI -/
  | report (id : Ptr)
  /-- the UI reads the result of a worker -/
  | handle (id : Ptr) (setxattr rename : Bool)

/-! ## The steps -/

/-- The exception of a step that throws. -/
def CallStep.thrown (a : Answers) : CallStep → Thrown
  | .check_dev => .not_initialized
  | .test_busy => .busy
  | .get_file_size => if a.file_size = none then .file_size else .too_small
  | .open_input => .no_input
  | .start => .not_started
  | _ => .no_memory

/-- What the step of its call from `p` to `p'` leaves with a worker. -/
def Worker.step (file : Option File) (a : Answers) (p p' : Pc) (wk : Worker) : Worker :=
  match p, p' with
  | .call .open_input _, .call .read_input _ => { wk with opened := file }
  | .call l _, .call .free_tx _ => { wk with told := some (.error (l.thrown a)) }
  | .call .check_dev _, .outside => { wk with told := some (.error .not_initialized) }
  | _, _ => wk

namespace Player

/-- The worker whose `aes_thread` is at this address. Its thread has this number. -/
def worker (s : Player) (id : Ptr) : Option Worker := s.workers.find? fun wk => wk.thread.self == id

def change (id : Ptr) (f : Worker → Worker) (s : Player) : Player :=
  { s with workers := s.workers.map fun wk => if wk.thread.self = id then f wk else wk }

def setEngine (k : Engine) (e : Signals) (s : Player) : Player :=
  { s with engines := Function.update s.engines k e }

/-- The input file of a worker as it is now. -/
def input (s : Player) (id : Ptr) : Option File :=
  (s.worker id).bind fun wk => s.files wk.thread.input_path

/-- What the steps of a thread are answered. An input stream goes on to read the file that it was
opened on. -/
def outside (k : Engine) (t : Thread) (x : Faults) (s : Player) : Outside :=
  let p := (s.engines k).threads.pc t
  let a := x.answers (s.input t)
  { a with
    input := if p.at .read_input then (s.worker t).bind fun wk => wk.opened.map File.content
      else a.input
    stream := x.write.of_size p.rx_size
    throws := false }

/-- What an event of an engine does to the files and the workers. -/
def heed (s : Player) : Event → Player
  | .written path bytes => { s with files := s.files.write path bytes }
  | .invoked _ is_success callback_param =>
    s.change callback_param fun wk =>
      { wk with told := some (.ok (if is_success then .SUCCESS else .FAILED)) }
  | .started _ _ | .completed _ _ | .copied _ _ => s

def step (k : Engine) (t : Thread) (x : Faults) (prepared : Bool) (s : Player) : Player :=
  let e := s.engines k
  let e' := e.next ⟨.step t (s.outside k t x), prepared⟩
  let wk' := Worker.step (s.input t) (s.outside k t x).toAnswers (e.threads.pc t) (e'.threads.pc t)
  (e'.threads.log.drop e.threads.log.length).foldl heed ((s.change t wk').setEngine k e')

def next (key : Key) (s : Player) : Action → Player
  | .press op path tmp id =>
    { s with workers := s.workers ++ [⟨pressed op key path tmp id, .created, none, none⟩] }
  | .call id =>
    match s.worker id with
    | some wk =>
      let k := wk.thread.operation.engine
      (s.change id ({ · with phase := .called })).setEngine k
        ((s.engines k).next ⟨.call id wk.thread.request, false⟩)
    | none => s
  | .step k t x prepared => s.step k t x prepared
  | .complete k h out => s.setEngine k ((s.engines k).next ⟨.complete h out, false⟩)
  | .report id => s.change id ({ · with phase := .reported })
  | .handle id setxattr rename =>
    match s.worker id with
    | some wk =>
      { s with
        files := wk.told.elim s.files fun res => ui_handle wk.thread res setxattr rename s.files
        workers := s.workers.filter fun wk => wk.thread.self != id }
    | none => s

/-- When a step can come. A key press finds the attribute as the operation needs it, and gets a
temporary name and a thread that are not in use. A completion brings what the engine has made of
the transmit buffer. A worker that has a handler on top of it waits. -/
def Enabled (C : BlockCipher) (s : Player) : Action → Prop
  | .press op path tmp id =>
    (s.files path).map File.operation = some op ∧ (∀ wk ∈ s.workers, wk.thread.self ≠ id) ∧
      (s.engines .cipher).threads.pc id = .outside ∧
      (s.engines .decipher).threads.pc id = .outside ∧
      s.files tmp = none ∧ tmp ≠ "" ∧ ∀ wk ∈ s.workers, wk.thread.output_path ≠ tmp
  | .call id =>
    ∃ wk ∈ s.worker id, wk.phase = .created ∧
      (s.engines wk.thread.operation.engine).Enabled ⟨.call id wk.thread.request, false⟩
  | .step k t x prepared => (s.engines k).Enabled ⟨.step t (s.outside k t x), prepared⟩
  | .complete k h out =>
    (s.engines k).Enabled ⟨.complete h out, false⟩ ∧ (∀ wk ∈ s.workers, wk.thread.self ≠ h) ∧
      ∀ fl ∈ (s.engines k).threads.in_flight.head?,
        ((C.engine k).stream ((s.engines k).threads.dma.memory fl.tx_buffer)).take out.length <+:
          out
  | .report id =>
    ∃ wk ∈ s.worker id, wk.phase = .called ∧ wk.told.isSome = true ∧
      (s.engines wk.thread.operation.engine).threads.pc id = .outside ∧
      ¬ (s.engines wk.thread.operation.engine).Suspended id
  | .handle id _ _ => ∃ wk ∈ s.worker id, wk.phase = .reported

instance (C : BlockCipher) (s : Player) : (a : Action) → Decidable (s.Enabled C a)
  | .press _ _ _ _ => inferInstanceAs (Decidable (_ ∧ _))
  | .call _ => inferInstanceAs (Decidable (∃ wk ∈ s.worker _, _))
  | .step _ _ _ _ => inferInstanceAs (Decidable ((s.engines _).Enabled _))
  | .complete _ _ _ => inferInstanceAs (Decidable (_ ∧ _))
  | .report _ => inferInstanceAs (Decidable (∃ wk ∈ s.worker _, _))
  | .handle _ _ _ => inferInstanceAs (Decidable (∃ wk ∈ s.worker _, _))

end Player

def player (C : BlockCipher) (key : Key) : traces.System Player Action :=
  ⟨Player.next key, Player.Enabled C⟩

instance (C : BlockCipher) (key : Key) (s : Player) (a : Action) :
    Decidable ((player C key).Enabled s a) := inferInstanceAs (Decidable (s.Enabled C a))

end aes
