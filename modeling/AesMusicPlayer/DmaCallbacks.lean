-- The way of a completion: the engine tells the driver, the driver sends a signal to the
-- process, and the handler of the library calls what is set for the channel. A process may
-- have several devices, and one signal serves them all.
import AesMusicPlayer.DmaChannels
import AesMusicPlayer.Traces
import Mathlib.Data.List.InsertIdx

open traces

namespace axidma

/-- A device that the process has opened. -/
structure Opened where
  dev : AxidmaDevice
  lib : AxidmaDev
  probed : ∃ b, probe_channels b dev = .ok lib

/-! ## Arrays that are indexed by an id -/

section Cells

variable {α : Type}

/-- The cell of an array, none outside of it. -/
def cell (xs : List α) (i : Int) : Option α := if 0 ≤ i then xs[i.toNat]? else none

/-- The array after a write to a cell, none when the write is outside of it. -/
def store (xs : List α) (i : Int) (x : α) : Option (List α) :=
  if 0 ≤ i ∧ i < xs.length then some (xs.set i.toNat x) else none

end Cells

/-! ## The state -/

/-- What the C library passes as `SIGRTMIN`. -/
def SIGRTMIN : Int := 34

/-- `VALID_NOTIFY_SIGNAL`, with the bounds of the kernel. -/
def valid_notify_signal (signal : Int) : Bool := 32 ≤ signal && signal ≤ 64

/-- `struct axidma_cb_data` of a transfer that nobody waits for. -/
structure CbData (D : Type) where
  channel_id : Int
  notify_signal : Int
  user_data : D

/-- The fields of a signal that the driver fills. -/
structure SigInfo (D : Type) where
  si_errno : Int
  si_ptr : D

/-- What the library, the driver and the engine have for a device. -/
structure Memory (D C : Type) where
  /-- the callbacks in the array `channels` of the library -/
  callbacks : List (Option C)
  /-- `cb_data`, none before its first use -/
  cb_data : List (Option (CbData D))
  /-- the transfers of a channel that are not issued yet -/
  submitted : Int → ℕ
  /-- the transfers of a channel that the engine works on -/
  issued : Int → ℕ

/-- `fault` is set by an access outside of an array, a null pointer or a failed assertion. -/
structure State (D C : Type) where
  mem : D → Memory D C
  /-- the signals that are sent and not taken -/
  signals : List (SigInfo D)
  calls : List (D × Int × C)
  fault : Bool

/-- How `axidma_prep_transfer` comes out. -/
inductive Prep
  | not_prepared | not_submitted | submitted
  deriving DecidableEq, Repr

/-- The calls of the library with what the driver answers, and what comes from outside. Nobody
waits for the transfers (`wait` is false), so each of them tells its end by a signal. The driver
refuses a transfer when its buffer is not one of the device. -/
inductive Action (D C : Type)
  | set_callback (d : D) (channel : Int) (callback : Option C)
  | oneway_transfer (d : D) (channel : Int) (refused : Bool) (prep : Prep)
  | twoway_transfer (d : D) (tx rx : Int) (refused : Bool) (tx_prep rx_prep : Prep)
  | stop_transfer (d : D) (channel : Int)
  /-- the engine is through with a transfer -/
  | complete (d : D) (channel : Int)
  /-- a thread takes one of the signals, which need not be the oldest of all threads -/
  | signal (k : ℕ)

section Steps

variable {D C : Type} [DecidableEq D]

namespace State

def set_mem (s : State D C) (d : D) (m : Memory D C) : State D C :=
  { s with mem := Function.update s.mem d m }

def failed (s : State D C) : State D C := { s with fault := true }

/-! ## The driver -/

/-- `dmaengine_terminate_all`. -/
def terminate_all (d : D) (channel : Int) (s : State D C) : State D C :=
  let m := s.mem d
  s.set_mem d { m with submitted := Function.update m.submitted channel 0
                       issued := Function.update m.issued channel 0 }

/-- The second part says whether the transfer is submitted. -/
def prep_transfer (d : D) (channel : Int) (prep : Prep) (s : State D C) : State D C × Bool :=
  match prep with
  | .not_prepared => (s.terminate_all d channel, false)
  | _ =>
    let m := s.mem d
    match store m.cb_data channel (some ⟨channel, SIGRTMIN, d⟩) with
    | none => (s.failed, false)
    | some cb_data =>
      let s := s.set_mem d { m with cb_data }
      if prep = .not_submitted then (s.terminate_all d channel, false)
      else
        let submitted := Function.update m.submitted channel (m.submitted channel + 1)
        (s.set_mem d { m with cb_data, submitted }, true)

/-- `dma_async_issue_pending`. -/
def start_transfer (d : D) (channel : Int) (s : State D C) : State D C :=
  let m := s.mem d
  s.set_mem d { m with
    issued := Function.update m.issued channel (m.issued channel + m.submitted channel)
    submitted := Function.update m.submitted channel 0 }

end State

def axidma_get_chan (dev : AxidmaDevice) (channel_id : Int) : Option AxidmaChan :=
  dev.channels.find? fun c => c.channel_id == channel_id

/-- The channel with this id and direction, as the transfers look for it. -/
def directed_chan (dev : AxidmaDevice) (channel_id : Int) (dir : AxidmaDir) : Option AxidmaChan :=
  (axidma_get_chan dev channel_id).filter fun c => c.dir == some dir

namespace State

/-- `axidma_read_transfer` and `axidma_write_transfer`. -/
def driver_oneway (o : Opened) (d : D) (channel : Int) (dir : AxidmaDir) (refused : Bool)
    (prep : Prep) (s : State D C) : State D C :=
  if (directed_chan o.dev channel dir).isNone || refused then s
  else
    let (s, ok) := s.prep_transfer d channel prep
    if ok then s.start_transfer d channel else s

def axidma_rw_transfer (o : Opened) (d : D) (tx rx : Int) (refused : Bool) (tx_prep rx_prep : Prep)
    (s : State D C) : State D C :=
  if (directed_chan o.dev tx .WRITE).isNone || (directed_chan o.dev rx .READ).isNone || refused
  then s
  else
    let (s, ok) := s.prep_transfer d tx tx_prep
    if !ok then s
    else
      let (s, ok) := s.prep_transfer d rx rx_prep
      if !ok then s else (s.start_transfer d tx).start_transfer d rx

/-- A channel that is not found is read through its null pointer. -/
def axidma_stop_channel (o : Opened) (d : D) (channel : Int) (s : State D C) : State D C :=
  match axidma_get_chan o.dev channel with
  | none => s.failed
  | some _ => s.terminate_all d channel

def axidma_dma_callback (d : D) (channel : Int) (s : State D C) : State D C :=
  match cell (s.mem d).cb_data channel with
  | some (some data) =>
    if valid_notify_signal data.notify_signal then
      { s with signals := s.signals ++ [⟨data.channel_id, data.user_data⟩] }
    else s
  | _ => s.failed

/-- The engine is through with the oldest transfer of the channel. -/
def complete (d : D) (channel : Int) (s : State D C) : State D C :=
  let m := s.mem d
  (s.set_mem d { m with
    issued := Function.update m.issued channel (m.issued channel - 1) }).axidma_dma_callback d channel

/-! ## The library -/

def axidma_set_callback (d : D) (channel : Int) (callback : Option C) (s : State D C) :
    State D C :=
  match store (s.mem d).callbacks channel callback with
  | none => s.failed
  | some callbacks => s.set_mem d { s.mem d with callbacks }

/-- The handler of the signal. -/
def axidma_callback (o : D → Opened) (i : SigInfo D) (s : State D C) : State D C :=
  if 0 ≤ i.si_errno ∧ i.si_errno < (o i.si_ptr).lib.channels.length then
    match cell (s.mem i.si_ptr).callbacks i.si_errno with
    | some (some callback) => { s with calls := s.calls ++ [(i.si_ptr, i.si_errno, callback)] }
    | some none => s
    | none => s.failed
  else s.failed

def take_signal (o : D → Opened) (k : ℕ) (s : State D C) : State D C :=
  match s.signals[k]? with
  | none => s
  | some i => axidma_callback o i { s with signals := s.signals.eraseIdx k }

/-- `dir_to_ioctl` gives the transfer of the direction that the library knows. -/
def axidma_oneway_transfer (o : Opened) (d : D) (channel : Int) (refused : Bool) (prep : Prep)
    (s : State D C) : State D C :=
  match find_channel o.lib channel with
  | none => s.failed
  | some c => s.driver_oneway o d channel c.dir refused prep

def next (o : D → Opened) (s : State D C) : Action D C → State D C
  | .set_callback d channel callback => s.axidma_set_callback d channel callback
  | .oneway_transfer d channel refused prep =>
    s.axidma_oneway_transfer (o d) d channel refused prep
  | .twoway_transfer d tx rx refused tx_prep rx_prep =>
    s.axidma_rw_transfer (o d) d tx rx refused tx_prep rx_prep
  | .stop_transfer d channel => s.axidma_stop_channel (o d) d channel
  | .complete d channel => s.complete d channel
  | .signal k => s.take_signal o k

/-- The library is called with the channels that it has given out, as its assertions ask. -/
def Enabled (o : D → Opened) (s : State D C) (a : Action D C) : Prop :=
  s.fault = false ∧
    match a with
    | .set_callback d channel _ | .oneway_transfer d channel _ _ | .stop_transfer d channel =>
      (find_channel (o d).lib channel).isSome = true
    | .twoway_transfer d tx rx _ _ _ =>
      (find_channel (o d).lib tx).map DmaChannel.dir = some .WRITE ∧
        (find_channel (o d).lib rx).map DmaChannel.dir = some .READ
    | .complete d channel => 0 < (s.mem d).issued channel
    | .signal k => k < s.signals.length

def initial (o : D → Opened) : State D C where
  mem d :=
    { callbacks := List.replicate (o d).lib.channels.length none
      cb_data := List.replicate (o d).dev.channels.length none
      submitted := fun _ => 0
      issued := fun _ => 0 }
  signals := []
  calls := []
  fault := false

end State

def system (o : D → Opened) : System (State D C) (Action D C) := ⟨State.next o, State.Enabled o⟩

/-! ## What a completion is for -/

/-- A completion waits until it is told to what is set for its own device and channel. -/
structure Told (D C : Type) where
  callback : D → Int → Option C
  waiting : List (D × Int)
  calls : List (D × Int × C)

namespace Told

def next (t : Told D C) : Action D C → Told D C
  | .set_callback d channel callback =>
    { t with callback :=
        Function.update t.callback d (Function.update (t.callback d) channel callback) }
  | .complete d channel => { t with waiting := t.waiting ++ [(d, channel)] }
  | .signal k =>
    match t.waiting[k]? with
    | none => t
    | some (d, channel) =>
      { t with
        waiting := t.waiting.eraseIdx k
        calls := t.calls ++ ((t.callback d channel).map fun c => (d, channel, c)).toList }
  | _ => t

def initial : Told D C := ⟨fun _ _ => none, [], []⟩

end Told

/-- What these steps have told. -/
def told (actions : List (Action D C)) : Told D C := actions.foldl Told.next Told.initial

theorem told_append (actions : List (Action D C)) (a : Action D C) :
    told (actions ++ [a]) = (told actions).next a := by
  simp [told]

/-! ## Ids in range -/

/-- The id is an index into the arrays of the device. -/
def Inside (o : Opened) (channel : Int) : Prop :=
  0 ≤ channel ∧ channel < o.dev.channels.length

theorem placed_ids {chans : List AxidmaChan} (h : ∀ c ∈ chans, c.kind.isSome = true) :
    (chans.filterMap dma_channel).map DmaChannel.channel_id =
      chans.map AxidmaChan.channel_id := by
  induction chans with
  | nil => rfl
  | cons c cs ih =>
    rw [List.forall_mem_cons] at h
    obtain ⟨k, hk⟩ := Option.isSome_iff_exists.mp h.1
    rw [List.filterMap_cons, dma_channel, hk, Option.map_some, List.map_cons, List.map_cons,
      ih h.2]

theorem probe_ok {b : ProbeAnswers} {dev : AxidmaDevice} {lib : AxidmaDev}
    (h : probe_channels b dev = .ok lib) :
    lib.channels = dev.channels.filterMap dma_channel ∧
      ∀ c ∈ dev.channels, c.kind.isSome = true := by
  unfold probe_channels at h
  split_ifs at h
  unfold categorize_channels at h
  split_ifs at h
  obtain ⟨hkinds, -, rfl⟩ := (place_channels_ok fun _ => Nat.zero_le _).mp h
  exact ⟨List.nil_append _, hkinds⟩

namespace Opened

variable (o : Opened)

/-- The library and the driver know the same channels. -/
theorem same_ids : o.lib.channels.map DmaChannel.channel_id =
    o.dev.channels.map AxidmaChan.channel_id := by
  obtain ⟨b, hb⟩ := o.probed
  obtain ⟨hlib, hkinds⟩ := probe_ok hb
  rw [hlib, placed_ids hkinds]

theorem same_length : o.lib.channels.length = o.dev.channels.length := by
  have h := congrArg List.length o.same_ids
  rwa [List.length_map, List.length_map] at h

theorem find_channel_isSome (channel : Int) :
    (find_channel o.lib channel).isSome = true ↔
      channel ∈ o.dev.channels.map AxidmaChan.channel_id := by
  rw [← o.same_ids]
  simp [find_channel]

theorem get_chan_isSome (channel : Int) :
    (axidma_get_chan o.dev channel).isSome = true ↔
      channel ∈ o.dev.channels.map AxidmaChan.channel_id := by
  simp [axidma_get_chan]

end Opened

/-! ## The arrays -/

section Cells

variable {α : Type} {xs ys : List α} {i j : Int} {x : α}

theorem store_isSome : (store xs i x).isSome = true ↔ 0 ≤ i ∧ i < xs.length := by
  unfold store
  split_ifs with h <;> simp [h]

theorem length_store (h : store xs i x = some ys) : ys.length = xs.length := by
  unfold store at h
  split_ifs at h
  cases h
  exact List.length_set

theorem cell_store_self (h : store xs i x = some ys) : cell ys i = some x := by
  unfold store at h
  split_ifs at h with hi
  cases h
  have hlt : i.toNat < xs.length := by omega
  simp [cell, hi.1, hlt]

theorem cell_store_of_ne (h : store xs i x = some ys) (hij : j ≠ i) : cell ys j = cell xs j := by
  unfold store at h
  split_ifs at h with hi
  cases h
  unfold cell
  split_ifs with hj
  · rw [List.getElem?_set_ne (by omega)]
  · rfl

/-- A cell that is there is inside. -/
theorem inside_of_cell (h : cell xs i = some x) : 0 ≤ i ∧ i < xs.length := by
  unfold cell at h
  split_ifs at h with hi
  have := (List.getElem?_eq_some_iff.mp h).1
  omega

end Cells

/-! ## One step -/

/-- The memory and the signals stand for what is told. A channel with a transfer has its own data
in `cb_data`. -/
structure Tells (o : D → Opened) (s : State D C) (t : Told D C) : Prop where
  fault : s.fault = false
  callbacks_length : ∀ d, (s.mem d).callbacks.length = (o d).dev.channels.length
  cb_data_length : ∀ d, (s.mem d).cb_data.length = (o d).dev.channels.length
  callbacks : ∀ d c, Inside (o d) c → cell (s.mem d).callbacks c = some (t.callback d c)
  cb_data : ∀ d c, 0 < (s.mem d).submitted c + (s.mem d).issued c →
    cell (s.mem d).cb_data c = some (some ⟨c, SIGRTMIN, d⟩)
  signals : s.signals.map (fun i => (i.si_ptr, i.si_errno)) = t.waiting
  inside : ∀ i ∈ s.signals, Inside (o i.si_ptr) i.si_errno
  calls : s.calls = t.calls

theorem set_mem_set_mem (s : State D C) (d : D) (m m' : Memory D C) :
    (s.set_mem d m).set_mem d m' = s.set_mem d m' := by
  simp [State.set_mem]

namespace Tells

variable {o : D → Opened} {s : State D C} {t : Told D C} {d : D} {channel : Int}

/-- A change that leaves the callbacks of a device. -/
theorem of_mem (h : Tells o s t) {m : Memory D C} (hcb : m.callbacks = (s.mem d).callbacks)
    (hlen : m.cb_data.length = (s.mem d).cb_data.length)
    (hdata : ∀ c, 0 < m.submitted c + m.issued c →
      cell m.cb_data c = some (some ⟨c, SIGRTMIN, d⟩)) :
    Tells o (s.set_mem d m) t := by
  have hmem : ∀ d', (s.set_mem d m).mem d' = if d' = d then m else s.mem d' := fun d' => by
    simp [State.set_mem, Function.update_apply]
  refine ⟨h.fault, fun d' => ?_, fun d' => ?_, fun d' c hc => ?_, fun d' c hc => ?_, h.signals,
    h.inside, h.calls⟩
  · rw [hmem]
    split_ifs with hd
    · rw [hcb, h.callbacks_length, hd]
    · exact h.callbacks_length d'
  · rw [hmem]
    split_ifs with hd
    · rw [hlen, h.cb_data_length, hd]
    · exact h.cb_data_length d'
  · rw [hmem]
    split_ifs with hd
    · subst hd
      rw [hcb]
      exact h.callbacks d' c hc
    · exact h.callbacks d' c hc
  · rw [hmem] at hc ⊢
    split_ifs at hc ⊢ with hd
    · rw [hd]
      exact hdata c hc
    · exact h.cb_data d' c hc

theorem terminate_all (h : Tells o s t) : Tells o (s.terminate_all d channel) t := by
  refine h.of_mem rfl rfl fun c hc => ?_
  dsimp only at hc ⊢
  by_cases hch : c = channel
  · subst hch
    simp at hc
  · rw [Function.update_of_ne hch, Function.update_of_ne hch] at hc
    exact h.cb_data d c hc

theorem start_transfer (h : Tells o s t) : Tells o (s.start_transfer d channel) t := by
  refine h.of_mem rfl rfl fun c hc => ?_
  dsimp only at hc ⊢
  apply h.cb_data d c
  by_cases hch : c = channel
  · subst hch
    rw [Function.update_self, Function.update_self] at hc
    omega
  · rwa [Function.update_of_ne hch, Function.update_of_ne hch] at hc

/-- The data of a channel may be written again, as it is the same for all its transfers. -/
theorem store_cb_data (h : Tells o s t) {cb_data : List (Option (CbData D))} {submitted : Int → ℕ}
    (hstore : store (s.mem d).cb_data channel (some ⟨channel, SIGRTMIN, d⟩) = some cb_data)
    (hsub : ∀ c, c ≠ channel → submitted c = (s.mem d).submitted c) :
    Tells o (s.set_mem d { s.mem d with cb_data, submitted }) t := by
  refine h.of_mem rfl (length_store hstore) fun c hc => ?_
  dsimp only at hc ⊢
  by_cases hch : c = channel
  · subst hch
    exact cell_store_self hstore
  · rw [hsub c hch] at hc
    rw [cell_store_of_ne hstore hch]
    exact h.cb_data d c hc

theorem prep_transfer (h : Tells o s t) (hin : Inside (o d) channel) (prep : Prep) :
    Tells o (s.prep_transfer d channel prep).1 t := by
  have hrange : 0 ≤ channel ∧ channel < (s.mem d).cb_data.length := by
    rw [h.cb_data_length]
    exact hin
  obtain ⟨cb_data, hstore⟩ := Option.isSome_iff_exists.mp
    (store_isSome (x := some (CbData.mk channel SIGRTMIN d)).mpr hrange)
  cases prep with
  | not_prepared => exact h.terminate_all
  | not_submitted =>
    simp only [State.prep_transfer, hstore]
    exact (h.store_cb_data hstore fun _ _ => rfl).terminate_all
  | submitted =>
    simp only [State.prep_transfer, hstore, set_mem_set_mem]
    exact h.store_cb_data hstore fun c hc => Function.update_of_ne hc _ _

theorem driver_oneway (h : Tells o s t) (hin : Inside (o d) channel) (dir : AxidmaDir)
    (refused : Bool) (prep : Prep) :
    Tells o (s.driver_oneway (o d) d channel dir refused prep) t := by
  have hprep := h.prep_transfer hin prep
  unfold State.driver_oneway
  dsimp only
  split_ifs
  · exact h
  · exact hprep.start_transfer
  · exact hprep

theorem rw_transfer (h : Tells o s t) {tx rx : Int} (htx : Inside (o d) tx)
    (hrx : Inside (o d) rx) (refused : Bool) (tx_prep rx_prep : Prep) :
    Tells o (s.axidma_rw_transfer (o d) d tx rx refused tx_prep rx_prep) t := by
  have hprep := h.prep_transfer htx tx_prep
  have hboth := hprep.prep_transfer hrx rx_prep
  unfold State.axidma_rw_transfer
  dsimp only
  split_ifs
  · exact h
  · exact hprep
  · exact hboth
  · exact hboth.start_transfer.start_transfer

theorem set_callback (h : Tells o s t) (hin : Inside (o d) channel) (callback : Option C) :
    Tells o (s.axidma_set_callback d channel callback)
      (t.next (.set_callback d channel callback)) := by
  have hrange : 0 ≤ channel ∧ channel < (s.mem d).callbacks.length := by
    rw [h.callbacks_length]
    exact hin
  obtain ⟨callbacks, hstore⟩ := Option.isSome_iff_exists.mp
    (store_isSome (x := callback).mpr hrange)
  unfold State.axidma_set_callback
  rw [hstore]
  have hmem : ∀ d', (s.set_mem d { s.mem d with callbacks }).mem d' =
      if d' = d then { s.mem d with callbacks } else s.mem d' := fun d' => by
    simp [State.set_mem, Function.update_apply]
  refine ⟨h.fault, fun d' => ?_, fun d' => ?_, fun d' c hc => ?_, fun d' c hc => ?_, h.signals,
    h.inside, h.calls⟩
  · rw [hmem]
    split_ifs with hd
    · rw [length_store hstore, h.callbacks_length, hd]
    · exact h.callbacks_length d'
  · rw [hmem]
    split_ifs with hd
    · rw [h.cb_data_length, hd]
    · exact h.cb_data_length d'
  · rw [hmem]
    dsimp only [Told.next]
    split_ifs with hd
    · subst hd
      rw [Function.update_self]
      by_cases hch : c = channel
      · rw [hch, Function.update_self]
        exact cell_store_self hstore
      · rw [Function.update_of_ne hch, cell_store_of_ne hstore hch]
        exact h.callbacks d' c hc
    · rw [Function.update_of_ne hd]
      exact h.callbacks d' c hc
  · rw [hmem] at hc ⊢
    split_ifs at hc ⊢ with hd
    · rw [hd]
      exact h.cb_data d c hc
    · exact h.cb_data d' c hc

theorem complete (h : Tells o s t) (hpos : 0 < (s.mem d).issued channel) :
    Tells o (s.complete d channel) (t.next (.complete d channel)) := by
  have hdata := h.cb_data d channel (by omega)
  have hless : Tells o (s.set_mem d { s.mem d with
      issued := Function.update (s.mem d).issued channel ((s.mem d).issued channel - 1) }) t := by
    refine h.of_mem rfl rfl fun c hc => ?_
    dsimp only at hc ⊢
    apply h.cb_data d c
    by_cases hch : c = channel
    · subst hch
      omega
    · rwa [Function.update_of_ne hch] at hc
  have hin : Inside (o d) channel := by
    have hrange := inside_of_cell hdata
    rwa [h.cb_data_length] at hrange
  unfold State.complete State.axidma_dma_callback
  simp only [State.set_mem, Function.update_self, hdata]
  rw [if_pos (by decide)]
  refine ⟨hless.fault, hless.callbacks_length, hless.cb_data_length, hless.callbacks,
    hless.cb_data, ?_, ?_, hless.calls⟩
  · rw [List.map_append, h.signals]
    rfl
  · rw [List.forall_mem_append, List.forall_mem_singleton]
    exact ⟨h.inside, hin⟩

theorem take_signal (h : Tells o s t) (k : ℕ) :
    Tells o (s.take_signal o k) (t.next (.signal k)) := by
  have hwaiting : t.waiting[k]? = s.signals[k]?.map fun i => (i.si_ptr, i.si_errno) := by
    rw [← h.signals, List.getElem?_map]
  unfold State.take_signal Told.next
  cases hsig : s.signals[k]? with
  | none =>
    rw [hsig] at hwaiting
    simp only [hwaiting, Option.map_none]
    exact h
  | some i =>
    rw [hsig] at hwaiting
    have hin : Inside (o i.si_ptr) i.si_errno := h.inside i (List.mem_of_getElem? hsig)
    have hcell := h.callbacks i.si_ptr i.si_errno hin
    have hrange : 0 ≤ i.si_errno ∧ i.si_errno < (o i.si_ptr).lib.channels.length := by
      rw [(o i.si_ptr).same_length]
      exact hin
    have hrest : (s.signals.eraseIdx k).map (fun i => (i.si_ptr, i.si_errno)) =
        t.waiting.eraseIdx k := by
      rw [← h.signals, List.eraseIdx_map]
    have hleft : ∀ i ∈ s.signals.eraseIdx k, Inside (o i.si_ptr) i.si_errno :=
      fun j hj => h.inside j (List.mem_of_mem_eraseIdx hj)
    simp only [hwaiting, Option.map_some, State.axidma_callback]
    rw [if_pos hrange, hcell]
    cases hcb : t.callback i.si_ptr i.si_errno with
    | none =>
      refine ⟨h.fault, h.callbacks_length, h.cb_data_length, h.callbacks, h.cb_data, hrest, hleft, ?_⟩
      simpa using h.calls
    | some c =>
      refine ⟨h.fault, h.callbacks_length, h.cb_data_length, h.callbacks, h.cb_data, hrest, hleft, ?_⟩
      simpa using h.calls

end Tells

/-! ## Every run -/

section Runs

variable (o : D → Opened)

/-- The ids of the channels are indices. -/
def InRange : Prop := ∀ d, ∀ c ∈ (o d).dev.channels, Inside (o d) c.channel_id

variable {o} {s : State D C} {t : Told D C}

omit [DecidableEq D] in
theorem InRange.inside (h : InRange o) {d : D} {channel : Int}
    (hf : (find_channel (o d).lib channel).isSome = true) : Inside (o d) channel := by
  rw [Opened.find_channel_isSome] at hf
  obtain ⟨c, hc, rfl⟩ := List.mem_map.mp hf
  exact h d c hc

omit [DecidableEq D] in
theorem tells_initial : Tells o (State.initial o : State D C) Told.initial := by
  refine ⟨rfl, fun d => ?_, fun d => ?_, fun d c hc => ?_, fun d c hc => ?_, rfl, ?_, rfl⟩
  · simp [State.initial, (o d).same_length]
  · simp [State.initial]
  · obtain ⟨hpos, hlt⟩ := hc
    have hlt' : c.toNat < (o d).lib.channels.length := by
      rw [(o d).same_length]
      omega
    simp [State.initial, Told.initial, cell, hpos, hlt']
  · simp [State.initial] at hc
  · simp [State.initial]

theorem tells_next (hin : InRange o) (h : Tells o s t) {a : Action D C} (ha : s.Enabled o a) :
    Tells o (s.next o a) (t.next a) := by
  obtain ⟨-, ha⟩ := ha
  cases a with
  | set_callback d channel callback => exact h.set_callback (hin.inside ha) callback
  | oneway_transfer d channel refused prep =>
    obtain ⟨c, hc⟩ := Option.isSome_iff_exists.mp ha
    simp only [State.next, State.axidma_oneway_transfer, hc]
    exact h.driver_oneway (hin.inside ha) c.dir refused prep
  | twoway_transfer d tx rx refused tx_prep rx_prep =>
    have htx : (find_channel (o d).lib tx).isSome = true := by
      rw [← Option.isSome_map, ha.1]
      rfl
    have hrx : (find_channel (o d).lib rx).isSome = true := by
      rw [← Option.isSome_map, ha.2]
      rfl
    exact h.rw_transfer (hin.inside htx) (hin.inside hrx) refused tx_prep rx_prep
  | stop_transfer d channel =>
    have hget := ((o d).get_chan_isSome channel).mpr (((o d).find_channel_isSome channel).mp ha)
    obtain ⟨c, hc⟩ := Option.isSome_iff_exists.mp hget
    simp only [State.next, State.axidma_stop_channel, hc]
    exact h.terminate_all
  | complete d channel => exact h.complete ha
  | signal k => exact h.take_signal k

/-- In all runs every completion is told once, to what is set for its own device and channel then,
and no access is outside of an array, exactly when the ids of the channels are indices. -/
theorem completions_find_their_callbacks_iff (o : D → Opened) :
    (∀ tr (s : State D C), Run (system o) (fun _ _ => True) (State.initial o) tr s →
      s.fault = false ∧ s.calls = (told (tr.map Prod.snd)).calls) ↔ InRange o := by
  constructor
  · intro h d c hc
    have hf : (find_channel (o d).lib c.channel_id).isSome = true :=
      ((o d).find_channel_isSome _).mpr (List.mem_map_of_mem hc)
    have hrun : Run (system o) (fun _ _ => True) (State.initial o : State D C) _ _ :=
      .step (.set_callback d c.channel_id none) .start ⟨rfl, hf⟩ trivial
    have hfault := (h _ _ hrun).1
    by_contra hout
    have hnone : store ((State.initial o : State D C).mem d).callbacks c.channel_id none = none := by
      rw [← Option.not_isSome_iff_eq_none, store_isSome]
      simp only [State.initial, List.length_replicate, (o d).same_length]
      exact hout
    simp only [system, State.next, State.axidma_set_callback, hnone, State.failed] at hfault
    cases hfault
  · intro hin tr s hr
    have htells : Tells o s (told (tr.map Prod.snd)) := by
      refine hr.inv_trace (I := fun tr s => Tells o s (told (tr.map Prod.snd))) tells_initial ?_
      intro tr s a h ha _
      rw [List.map_append, List.map_singleton, told_append]
      exact tells_next hin h ha
    exact ⟨htells.fault, htells.calls⟩

end Runs

end Steps

end axidma
