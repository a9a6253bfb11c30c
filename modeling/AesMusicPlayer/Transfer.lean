-- One engine of the class `aes` as the application sees it: the DMA state,
-- a call of `_do_transfer` from its start to its end, and the completion
-- callback. A call here runs alone. The threads come later.
import Mathlib.Data.List.Basic
import Mathlib.Logic.Function.Basic
import Mathlib.Tactic.Common

namespace aes

/-! ## Sizes, pointers and bytes -/

abbrev Bytes := List (BitVec 8)

/-- A pointer. `nullptr` is 0. -/
abbrev Ptr := ℕ

/-- A `size_t` of the 32-bit processor. -/
abbrev Size := BitVec 32

def AES_TEXT_WIDTH : Size := 16

def AES_KEY_WIDTH : Size := 16

def aligned_size (size alignment : Size) : Size := (size + alignment - 1) &&& ~~~(alignment - 1)

/-- The key argument, `AES_KEY_WIDTH` bytes. -/
abbrev Key := { k : Bytes // k.length = 16 }

/-! ## The DMA state -/

structure CurrentTransfer where
  tx_buffer : Ptr
  rx_buffer : Ptr
  output_file_path : String
  output_buffer : Ptr
  output_buffer_size : Size
  user_callback : Ptr
  callback_param : Ptr
  deriving DecidableEq

/-- A transfer that the driver runs. -/
structure Flight where
  tx_buffer : Ptr
  tx_size : Size
  rx_buffer : Ptr
  rx_size : Size
  deriving DecidableEq

/-- `_dma_state_t` without its mutex, with what its pointers lead to. -/
structure DmaRecord where
  dev : Bool
  is_busy : Bool
  dma_memories : List (Size × Ptr)
  current_transfer : CurrentTransfer
  /-- the register behind `config_reg` -/
  config : BitVec 32
  /-- the buffers of `axidma_malloc` that are not freed -/
  mapped : List Ptr
  memory : Ptr → Bytes

/-- The record of one engine, and the transfer that the driver runs for it. -/
structure DmaState extends DmaRecord where
  in_flight : Option Flight

structure Request where
  key : Key
  input_path : String
  output_path : String
  output_buffer : Ptr
  output_buffer_size : Size
  callback : Ptr
  callback_param : Ptr

/-- What the file system and the driver answer during one call. -/
structure Answers where
  /-- `get_file_size`, none when it throws -/
  file_size : Option ℕ
  tx_malloc : Ptr
  rx_malloc : Ptr
  /-- the input file, none when it cannot be opened -/
  input : Option Bytes
  /-- the value of `axidma_twoway_transfer` -/
  twoway : Int

inductive Thrown
  | not_initialized | busy | file_size | too_small | no_memory | no_input | not_started
  deriving DecidableEq, Repr

/-- The text of the exception. That of `file_size` is the library's. -/
def Thrown.what : Thrown → Option String
  | .not_initialized => some "DMA device is not initialized."
  | .busy => some "DMA device is BUSY."
  | .file_size => none
  | .too_small => some "Output buffer size too small."
  | .no_memory => some "Unable to allocate continuous memory for transfer."
  | .no_input => some "Unable to open input file."
  | .not_started => some "Failed to start transfer."

/-! ## The steps of a call -/

namespace DmaState

def store_tx (size : Size) (p : Ptr) (s : DmaState) : DmaState :=
  { s with
    mapped := p :: s.mapped
    current_transfer := { s.current_transfer with tx_buffer := p }
    dma_memories := s.dma_memories ++ [(size, p)] }

def store_rx (size : Size) (p : Ptr) (s : DmaState) : DmaState :=
  { s with
    mapped := p :: s.mapped
    current_transfer := { s.current_transfer with rx_buffer := p }
    dma_memories := s.dma_memories ++ [(size, p)] }

def set_config (v : BitVec 32) (s : DmaState) : DmaState := { s with config := v }

/-- The input up to the aligned size, and zeros. `read` takes a signed count, so
a size of 2^31 or more reads nothing. -/
def padded (content : Bytes) (aligned : Size) : Bytes :=
  let read := content.take aligned.toInt.toNat
  read ++ List.replicate (aligned.toNat - read.length) 0

def tx_contents (key : Key) (content : Bytes) (aligned : Size) : Bytes :=
  key.val ++ padded content aligned

/-- The two copies into the transmit buffer, of the key and of the input. -/
def fill_tx (p : Ptr) (key : Key) (content : Bytes) (aligned : Size) (s : DmaState) : DmaState :=
  { s with memory := Function.update s.memory p (tx_contents key content aligned) }

def setup (r : Request) (s : DmaState) : DmaState :=
  { s with
    is_busy := true
    current_transfer := { s.current_transfer with
      output_file_path := r.output_path
      output_buffer := r.output_buffer
      output_buffer_size := r.output_buffer_size
      user_callback := r.callback
      callback_param := r.callback_param } }

/-- `axidma_stop_transfer` on both channels. -/
def stop (s : DmaState) : DmaState := { s with in_flight := none }

/-- The catch block. -/
def cleanup (tx_buff rx_buff : Ptr) (s : DmaState) : DmaState :=
  { s with
    mapped := s.mapped.filter fun p =>
      !((tx_buff != 0 && p == tx_buff) || (rx_buff != 0 && p == rx_buff))
    dma_memories := if rx_buff ≠ 0 ∨ tx_buff ≠ 0 then
        s.dma_memories.filter fun e => !(e.2 == tx_buff || e.2 == rx_buff)
      else s.dma_memories
    is_busy := false }

end DmaState

/-! ## `_do_transfer` -/

/-- How the try block ends. A throw leaves the local `tx_buff` and `rx_buff` to
the catch block. -/
inductive Attempt
  | threw (t : Thrown) (tx_buff rx_buff : Ptr) (s : DmaState)
  | started (s : DmaState)

def Answers.aligned (a : Answers) : Size :=
  aligned_size (BitVec.ofNat 32 (a.file_size.getD 0)) AES_TEXT_WIDTH

/-- The output buffer is given and does not hold the output. The comparison is signed. -/
def Request.too_small (r : Request) (aligned : Size) : Bool :=
  r.output_buffer != 0 && r.output_buffer_size.slt aligned

/-- The state after both buffers are stored and the engine waits for a key. -/
def with_buffers (a : Answers) (s : DmaState) : DmaState :=
  ((s.store_tx (AES_KEY_WIDTH + a.aligned) a.tx_malloc).store_rx a.aligned a.rx_malloc).set_config
    0xFFFFFFFF

/-- The state after the mutex is unlocked, before the transfer starts. -/
def ready_to_start (a : Answers) (r : Request) (content : Bytes) (s : DmaState) : DmaState :=
  ((((with_buffers a s).fill_tx a.tx_malloc r.key content a.aligned).setup r).set_config 0).stop

def try_transfer (a : Answers) (r : Request) (s : DmaState) : Attempt :=
  if s.is_busy then .threw .busy 0 0 s
  else if a.file_size = none then .threw .file_size 0 0 s
  else if r.too_small a.aligned then .threw .too_small 0 0 s
  else if a.tx_malloc = 0 then .threw .no_memory 0 0 s
  else if a.rx_malloc = 0 then
    .threw .no_memory a.tx_malloc 0 (s.store_tx (AES_KEY_WIDTH + a.aligned) a.tx_malloc)
  else match a.input with
  | none => .threw .no_input a.tx_malloc a.rx_malloc (with_buffers a s)
  | some content =>
    let s' := ready_to_start a r content s
    if a.twoway < 0 then .threw .not_started a.tx_malloc a.rx_malloc s'
    else .started { s' with
      in_flight := some ⟨a.tx_malloc, AES_KEY_WIDTH + a.aligned, a.rx_malloc, a.aligned⟩ }

/-- A call, and the exception it throws. -/
def do_transfer (a : Answers) (r : Request) (s : DmaState) : Option Thrown × DmaState :=
  if s.dev = false then (some .not_initialized, s)
  else match try_transfer a r s with
  | .threw t tx_buff rx_buff s' => (some t, s'.cleanup tx_buff rx_buff)
  | .started s' => (none, s')

/-! ## `_dma_callback` -/

/-- The lookup in `dma_memories` by address. -/
def find_memory (l : List (Size × Ptr)) (p : Ptr) : Option (Size × Ptr) :=
  l.find? fun e => e.2 == p

def erase_memory (l : List (Size × Ptr)) (p : Ptr) : List (Size × Ptr) :=
  l.eraseP fun e => e.2 == p

/-- What a callback delivers and whom it tells. -/
structure Delivery where
  /-- the output file and the bytes that are in it, none when it was not opened -/
  file : Option (String × Option Bytes)
  /-- the output buffer and the bytes that are copied there -/
  buffer : Option (Ptr × Bytes)
  /-- the user callback, its success flag and its parameter -/
  invoked : Option (Ptr × Bool × Ptr)

/-- How the output stream fares: not opened, or opened and so many bytes written. -/
abbrev StreamWrite := Option ℕ

/-- The bytes of the buffer found for the receive channel. -/
def DmaState.rx_bytes (s : DmaState) : Bytes :=
  match find_memory s.dma_memories s.current_transfer.rx_buffer with
  | some (size, p) => (s.memory p).take size.toNat
  | none => []

/-- The frees and erasures for a buffer that was found. -/
def DmaState.release (p : Ptr) (s : DmaState) : DmaState :=
  match find_memory s.dma_memories p with
  | some _ => { s with mapped := s.mapped.filter (· != p),
                       dma_memories := erase_memory s.dma_memories p }
  | none => s

/-- The stream does not throw, so `is_success` is always true. -/
def dma_callback (w : StreamWrite) (s : DmaState) : Delivery × DmaState :=
  let t := s.current_transfer
  let delivery : Delivery :=
    { file := if t.output_file_path ≠ "" then some (t.output_file_path, w.map s.rx_bytes.take)
        else none
      buffer := if t.output_file_path = "" ∧ t.output_buffer ≠ 0
        then some (t.output_buffer, s.rx_bytes) else none
      invoked := if t.user_callback ≠ 0 then some (t.user_callback, true, t.callback_param)
        else none }
  let s' := (s.release t.rx_buffer).release t.tx_buffer
  (delivery, { s' with is_busy := false })

/-- The transfer ends: the receive buffer holds `out`, and the driver signals. -/
def complete (f : Flight) (out : Bytes) (s : DmaState) : DmaState :=
  { s with in_flight := none, memory := Function.update s.memory f.rx_buffer out }

end aes
