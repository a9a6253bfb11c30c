-- `_do_transfer` and `_dma_callback` step by step, run by any number of
-- threads on one DMA state. A step is a statement that touches the shared
-- state, with the local ones around it. The mutex is known by its owner: an
-- unlock frees it, whoever unlocks. A signal that runs `_dma_callback` counts
-- as a thread of its own here. `Signals` says which thread it runs on top of.
import AesMusicPlayer.OwnedMutex
import AesMusicPlayer.Traces
import AesMusicPlayer.Transfer

open owned_mutex

namespace aes

/-! ## The steps -/

abbrev Thread := ℕ

/-- The steps of `_do_transfer` in their order. The last five are the catch block. -/
inductive CallStep
  | check_dev
  | lock
  | test_busy
  | get_file_size
  | malloc_tx
  | store_tx
  | push_tx
  | malloc_rx
  | store_rx
  | push_rx
  | copy_key
  | key_loading_on
  | open_input
  | read_input
  | set_busy
  | set_file_path
  | set_buffer
  | set_buffer_size
  | set_user_callback
  | set_param
  | set_callback
  | key_loading_off
  | stop_tx
  | stop_rx
  | unlock
  | start
  | last_unlock
  | free_tx
  | free_rx
  | erase
  | clear_busy
  | catch_unlock
  deriving DecidableEq, Repr

/-- The steps of `_dma_callback` in their order. -/
inductive CallbackStep
  | find_rx
  | find_tx
  | test_path
  | write_file
  | test_buffer
  | copy_buffer
  | lock
  | free_rx
  | erase_rx
  | free_tx
  | erase_tx
  | clear_busy
  | test_callback
  | invoke
  | unlock
  deriving DecidableEq, Repr

/-- The steps come in the order of the source. -/
instance : LT CallStep := ⟨fun l m => l.ctorIdx < m.ctorIdx⟩

instance (l m : CallStep) : Decidable (l < m) := inferInstanceAs (Decidable (l.ctorIdx < m.ctorIdx))

instance : LT CallbackStep := ⟨fun l m => l.ctorIdx < m.ctorIdx⟩

instance (l m : CallbackStep) : Decidable (l < m) :=
  inferInstanceAs (Decidable (l.ctorIdx < m.ctorIdx))

/-- The arguments and local variables of a call. -/
structure Call where
  request : Request
  aligned : Size
  tx_buff : Ptr
  rx_buff : Ptr
  /-- for the proofs only: the throw came after the unlock before the start -/
  late : Bool

def Call.ofRequest (r : Request) : Call := ⟨r, 0, 0, 0, false⟩

def Call.tx_buff_size (c : Call) : Size := AES_KEY_WIDTH + c.aligned

/-- An iterator into `dma_memories`, and the size and the buffer that are read
from it. The end iterator leaves the buffer at `nullptr`. -/
structure Found where
  index : ℕ
  size : Size
  buff : Ptr
  deriving DecidableEq

def Found.nothing : Found := ⟨0, 0, 0⟩

/-- The local variables of a callback. -/
structure Callback where
  rx : Found
  tx : Found

/-- Where a thread is. -/
inductive Pc
  | outside
  | call (l : CallStep) (c : Call)
  | callback (l : CallbackStep) (b : Callback)

/-! ## The state -/

/-- What the steps do outside the DMA state. -/
inductive Event
  | started (r : Request) (fl : Flight)
  | completed (fl : Flight) (out : Bytes)
  /-- the output file and the bytes that are in it, none when it was not opened -/
  | written (path : String) (bytes : Option Bytes)
  | copied (p : Ptr) (bytes : Bytes)
  | invoked (user_callback : Ptr) (is_success : Bool) (callback_param : Ptr)

structure Threads where
  dma : DmaRecord
  /-- the transfers that the driver runs -/
  in_flight : List Flight
  /-- the driver has `_dma_callback` for the receive channel -/
  callback_set : Bool
  /-- the owner of `state_mutex` -/
  owner : Option Thread
  pc : Thread → Pc
  log : List Event

/-- What a step is answered from outside. Each step reads its own part. -/
structure Outside extends Answers where
  stream : StreamWrite
  /-- the user callback throws -/
  throws : Bool

namespace DmaRecord

def push (size : Size) (p : Ptr) (d : DmaRecord) : DmaRecord :=
  { d with dma_memories := d.dma_memories ++ [(size, p)] }

/-- `axidma_malloc`. -/
def map (p : Ptr) (d : DmaRecord) : DmaRecord := { d with mapped := p :: d.mapped }

/-- `axidma_free`. -/
def free (p : Ptr) (d : DmaRecord) : DmaRecord :=
  { d with mapped := d.mapped.filter (· != p) }

def assign (f : CurrentTransfer → CurrentTransfer) (d : DmaRecord) : DmaRecord :=
  { d with current_transfer := f d.current_transfer }

def write (p : Ptr) (f : Bytes → Bytes) (d : DmaRecord) : DmaRecord :=
  { d with memory := Function.update d.memory p (f (d.memory p)) }

/-- The `std::find_if` over `dma_memories`. -/
def lookup (p : Ptr) (d : DmaRecord) : Found :=
  let i := d.dma_memories.findIdx fun e => e.2 == p
  match d.dma_memories[i]? with
  | some (size, buff) => ⟨i, size, buff⟩
  | none => ⟨i, 0, 0⟩

/-- The bytes of a buffer that was found. -/
def bytes (f : Found) (d : DmaRecord) : Bytes := (d.memory f.buff).take f.size.toNat

end DmaRecord

namespace Threads

def goto (t : Thread) (p : Pc) (s : Threads) : Threads :=
  { s with pc := Function.update s.pc t p }

/-- The throw of a call, to its catch block. -/
def throw (t : Thread) (c : Call) (late : Bool) (s : Threads) : Threads :=
  s.goto t (.call .free_tx { c with late := late })

def on (f : DmaRecord → DmaRecord) (s : Threads) : Threads := { s with dma := f s.dma }

def say (e : Event) (s : Threads) : Threads := { s with log := s.log ++ [e] }

end Threads

/-! ## `_do_transfer` -/

def call_step (t : Thread) (x : Outside) (c : Call) (s : Threads) : CallStep → Threads
  | .check_dev => if s.dma.dev then s.goto t (.call .lock c) else s.goto t .outside
  | .lock => { s with owner := some t }.goto t (.call .test_busy c)
  | .test_busy => if s.dma.is_busy then s.throw t c false else s.goto t (.call .get_file_size c)
  | .get_file_size =>
    if x.file_size = none ∨ c.request.too_small x.aligned then s.throw t c false
    else s.goto t (.call .malloc_tx { c with aligned := x.aligned })
  | .malloc_tx =>
    if x.tx_malloc = 0 then s.throw t c false
    else (s.on (·.map x.tx_malloc)).goto t (.call .store_tx { c with tx_buff := x.tx_malloc })
  | .store_tx =>
    (s.on (·.assign ({ · with tx_buffer := c.tx_buff }))).goto t (.call .push_tx c)
  | .push_tx => (s.on (·.push c.tx_buff_size c.tx_buff)).goto t (.call .malloc_rx c)
  | .malloc_rx =>
    if x.rx_malloc = 0 then s.throw t c false
    else (s.on (·.map x.rx_malloc)).goto t (.call .store_rx { c with rx_buff := x.rx_malloc })
  | .store_rx =>
    (s.on (·.assign ({ · with rx_buffer := c.rx_buff }))).goto t (.call .push_rx c)
  | .push_rx => (s.on (·.push c.aligned c.rx_buff)).goto t (.call .copy_key c)
  | .copy_key =>
    (s.on (·.write c.tx_buff fun m => c.request.key.val ++ m.drop 16)).goto t
      (.call .key_loading_on c)
  | .key_loading_on => (s.on ({ · with config := 0xFFFFFFFF })).goto t (.call .open_input c)
  | .open_input =>
    if x.input = none then s.throw t c false else s.goto t (.call .read_input c)
  | .read_input =>
    (s.on (·.write c.tx_buff fun m =>
      m.take 16 ++ DmaState.padded (x.input.getD []) c.aligned)).goto t (.call .set_busy c)
  | .set_busy => (s.on ({ · with is_busy := true })).goto t (.call .set_file_path c)
  | .set_file_path =>
    (s.on (·.assign ({ · with output_file_path := c.request.output_path }))).goto t
      (.call .set_buffer c)
  | .set_buffer =>
    (s.on (·.assign ({ · with output_buffer := c.request.output_buffer }))).goto t
      (.call .set_buffer_size c)
  | .set_buffer_size =>
    (s.on (·.assign ({ · with output_buffer_size := c.request.output_buffer_size }))).goto t
      (.call .set_user_callback c)
  | .set_user_callback =>
    (s.on (·.assign ({ · with user_callback := c.request.callback }))).goto t
      (.call .set_param c)
  | .set_param =>
    (s.on (·.assign ({ · with callback_param := c.request.callback_param }))).goto t
      (.call .set_callback c)
  | .set_callback => { s with callback_set := true }.goto t (.call .key_loading_off c)
  | .key_loading_off => (s.on ({ · with config := 0 })).goto t (.call .stop_tx c)
  -- the receive side of a transfer may still complete when its transmit side is stopped
  | .stop_tx => s.goto t (.call .stop_rx c)
  | .stop_rx => { s with in_flight := [] }.goto t (.call .unlock c)
  | .unlock => { s with owner := none }.goto t (.call .start c)
  | .start =>
    if x.twoway < 0 then s.throw t c true
    else
      let fl : Flight := ⟨c.tx_buff, c.tx_buff_size, c.rx_buff, c.aligned⟩
      ({ s with in_flight := s.in_flight ++ [fl] }.say (.started c.request fl)).goto t
        (.call .last_unlock c)
  | .last_unlock => { s with owner := none }.goto t .outside
  | .free_tx =>
    (if c.tx_buff ≠ 0 then s.on (·.free c.tx_buff) else s).goto t (.call .free_rx c)
  | .free_rx =>
    (if c.rx_buff ≠ 0 then s.on (·.free c.rx_buff) else s).goto t (.call .erase c)
  | .erase =>
    (if c.rx_buff ≠ 0 ∨ c.tx_buff ≠ 0 then
      s.on fun d => { d with dma_memories :=
        d.dma_memories.filter fun e => !(e.2 == c.tx_buff || e.2 == c.rx_buff) }
      else s).goto t (.call .clear_busy c)
  | .clear_busy => (s.on ({ · with is_busy := false })).goto t (.call .catch_unlock c)
  | .catch_unlock => { s with owner := none }.goto t .outside

/-! ## `_dma_callback` -/

def callback_step (t : Thread) (x : Outside) (b : Callback) (s : Threads) :
    CallbackStep → Threads
  | .find_rx =>
    s.goto t (.callback .find_tx { b with rx := s.dma.lookup s.dma.current_transfer.rx_buffer })
  | .find_tx =>
    s.goto t (.callback .test_path { b with tx := s.dma.lookup s.dma.current_transfer.tx_buffer })
  | .test_path =>
    s.goto t (.callback
      (if s.dma.current_transfer.output_file_path ≠ "" then .write_file else .test_buffer) b)
  -- the stream does not throw, so `is_success` stays true
  | .write_file =>
    (s.say (.written s.dma.current_transfer.output_file_path
      (x.stream.map (s.dma.bytes b.rx).take))).goto t (.callback .lock b)
  | .test_buffer =>
    s.goto t (.callback (if s.dma.current_transfer.output_buffer ≠ 0 then .copy_buffer else .lock) b)
  | .copy_buffer =>
    (s.say (.copied s.dma.current_transfer.output_buffer (s.dma.bytes b.rx))).goto t
      (.callback .lock b)
  | .lock => { s with owner := some t }.goto t (.callback .free_rx b)
  | .free_rx =>
    if b.rx.buff ≠ 0 then (s.on (·.free b.rx.buff)).goto t (.callback .erase_rx b)
    else s.goto t (.callback .free_tx b)
  | .erase_rx =>
    (s.on fun d => { d with dma_memories := d.dma_memories.eraseIdx b.rx.index }).goto t
      (.callback .free_tx b)
  | .free_tx =>
    if b.tx.buff ≠ 0 then (s.on (·.free b.tx.buff)).goto t (.callback .erase_tx b)
    else s.goto t (.callback .clear_busy b)
  | .erase_tx =>
    (s.on fun d => { d with dma_memories := d.dma_memories.eraseIdx b.tx.index }).goto t
      (.callback .clear_busy b)
  | .clear_busy => (s.on ({ · with is_busy := false })).goto t (.callback .test_callback b)
  | .test_callback =>
    s.goto t (.callback (if s.dma.current_transfer.user_callback ≠ 0 then .invoke else .unlock) b)
  | .invoke =>
    (s.say (.invoked s.dma.current_transfer.user_callback true
      s.dma.current_transfer.callback_param)).goto t
      (if x.throws then .outside else .callback .unlock b)
  | .unlock => { s with owner := none }.goto t .outside

/-! ## Locks and unlocks -/

def CallStep.op : CallStep → Option Op
  | .lock => some .lock
  | .unlock | .last_unlock | .catch_unlock => some .unlock
  | _ => none

def CallbackStep.op : CallbackStep → Option Op
  | .lock => some .lock
  | .unlock => some .unlock
  | _ => none

def Pc.op : Pc → Option Op
  | .outside => none
  | .call l _ => l.op
  | .callback l _ => l.op

/-- The thread is in a call, at this step. -/
def Pc.at (l : CallStep) : Pc → Bool
  | .call m _ => m == l
  | .outside | .callback _ _ => false

/-- The thread is in a callback, at this step. -/
def Pc.at_callback (l : CallbackStep) : Pc → Bool
  | .callback m _ => m == l
  | .outside | .call _ _ => false

/-- The request of a call. -/
def Pc.request : Pc → Option Request
  | .call _ c => some c.request
  | .outside | .callback _ _ => none

/-- The size that a callback has found for its receive buffer. -/
def Pc.rx_size : Pc → Size
  | .callback _ b => b.rx.size
  | .outside | .call _ _ => 0

instance : (p : Pc) → Decidable (p = .outside)
  | .outside => isTrue rfl
  | .call _ _ => isFalse Pc.noConfusion
  | .callback _ _ => isFalse Pc.noConfusion

/-- The parts of `_do_transfer` that its locks and unlocks make. The catch block
belongs to the part that it was entered from. -/
inductive Region
  | before | locked | unlocked | handler
  deriving DecidableEq

def CallStep.region : CallStep → Region
  | .check_dev | .lock => .before
  | .start | .last_unlock => .unlocked
  | .free_tx | .free_rx | .erase | .clear_busy | .catch_unlock => .handler
  | _ => .locked

/-- The thread is between its lock and its first unlock, as the source is read. -/
def Pc.inside : Pc → Bool
  | .outside => false
  | .call l c =>
    match l.region with
    | .before | .unlocked => false
    | .locked => true
    | .handler => !c.late
  | .callback .find_rx _ | .callback .find_tx _ | .callback .test_path _
  | .callback .write_file _ | .callback .test_buffer _ | .callback .copy_buffer _
  | .callback .lock _ => false
  | .callback _ _ => true

/-- The call has unlocked before the start of its transfer. -/
def Pc.past : Pc → Bool
  | .call l c =>
    match l.region with
    | .before | .locked => false
    | .unlocked => true
    | .handler => c.late
  | .outside | .callback _ _ => false

/-! ## The system -/

inductive Act
  /-- a thread calls `encrypt_file` or `decrypt_file` -/
  | call (t : Thread) (r : Request)
  /-- the next step of a call or of a callback -/
  | step (t : Thread) (x : Outside)
  /-- a transfer completes, its receive buffer holds `out`, and the signal runs as `t` -/
  | complete (t : Thread) (out : Bytes)

def Act.thread : Act → Thread
  | .call t _ | .step t _ | .complete t _ => t

namespace Threads

def step (t : Thread) (x : Outside) (s : Threads) : Threads :=
  match s.pc t with
  | .outside => s
  | .call l c => call_step t x c s l
  | .callback l b => callback_step t x b s l

/-- The receive buffer of the transfer is filled. -/
def finish (fl : Flight) (rest : List Flight) (out : Bytes) (s : Threads) : Threads :=
  ({ s with in_flight := rest }.on (·.write fl.rx_buffer fun _ => out)).say (.completed fl out)

def complete (t : Thread) (out : Bytes) (s : Threads) : Threads :=
  match s.in_flight with
  | [] => s
  | fl :: rest =>
    if s.callback_set then
      (s.finish fl rest out).goto t (.callback .find_rx ⟨.nothing, .nothing⟩)
    else s.finish fl rest out

def next (s : Threads) : Act → Threads
  | .call t r => s.goto t (.call .check_dev (.ofRequest r))
  | .step t x => s.step t x
  | .complete t out => s.complete t out

/-- When a thread can step. A lock waits for the free mutex, and `axidma_malloc`
gives no buffer that is in use. -/
def Ready (x : Outside) (s : Threads) (p : Pc) : Prop :=
  p ≠ .outside ∧ (p.op = some .lock → s.owner = none) ∧
    (p.at .malloc_tx = true → x.tx_malloc = 0 ∨ x.tx_malloc ∉ s.dma.mapped) ∧
    (p.at .malloc_rx = true → x.rx_malloc = 0 ∨ x.rx_malloc ∉ s.dma.mapped)

instance (x : Outside) (s : Threads) (p : Pc) : Decidable (s.Ready x p) :=
  inferInstanceAs (Decidable (_ ∧ _))

/-- When an action can come. A completion fills the whole receive buffer. -/
def Enabled (s : Threads) : Act → Prop
  | .call t _ => s.pc t = .outside
  | .step t x => s.Ready x (s.pc t)
  | .complete t out =>
    s.pc t = .outside ∧ s.in_flight.head?.map (·.rx_size.toNat) = some out.length

instance (s : Threads) : (a : Act) → Decidable (s.Enabled a)
  | .call t _ => inferInstanceAs (Decidable (s.pc t = .outside))
  | .step t x => inferInstanceAs (Decidable (s.Ready x (s.pc t)))
  | .complete _ _ => inferInstanceAs (Decidable (_ ∧ _))

end Threads

def threads : traces.System Threads Act := ⟨Threads.next, Threads.Enabled⟩

instance (s : Threads) (a : Act) : Decidable (threads.Enabled s a) :=
  inferInstanceAs (Decidable (s.Enabled a))

/-- A state after `init`, before the first call. -/
structure Threads.Initial (s : Threads) : Prop where
  is_busy : s.dma.is_busy = false
  dma_memories : s.dma.dma_memories = []
  in_flight : s.in_flight = []
  owner : s.owner = none
  pc : ∀ t, s.pc t = .outside
  log : s.log = []

/-- What a step does with the mutex. -/
def mutex_op (s : Threads) : Act → Option Op
  | .step t _ => (s.pc t).op
  | .call _ _ | .complete _ _ => none

end aes
