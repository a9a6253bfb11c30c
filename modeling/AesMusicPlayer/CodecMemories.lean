-- The DMA buffers of the class `adau1761`. Four operations free a buffer, and
-- `stop` is the one that leaves it in the list.
import AesMusicPlayer.Ledger
import AesMusicPlayer.SpiCommand
import AesMusicPlayer.Traces

namespace adau1761

open ledger

/-! ## The DMA state -/

/-- A pointer. `nullptr` is 0. -/
abbrev Ptr := ℕ

/-- A `size_t` of the 32-bit processor. -/
abbrev Size := BitVec 32

structure CurrentTransfer where
  tx_buffer : Ptr
  user_callback : Ptr
  callback_param : Ptr
  deriving DecidableEq

/-- `_dma_state_t`, and what its device has seen. -/
structure DmaState where
  is_busy : Bool
  sample_rate : Int
  dma_memories : List (Size × Ptr)
  current_transfer : CurrentTransfer
  /-- the calls of `axidma_malloc` and `axidma_free` -/
  calls : List (Call Ptr Size)
  /-- the buffer that the driver plays -/
  in_flight : Option Ptr
  /-- `destroy` has closed the device -/
  destroyed : Bool
  deriving DecidableEq

namespace DmaState

def axidma_free (p : Ptr) (size : Size) (s : DmaState) : DmaState :=
  { s with calls := s.calls ++ [.free p size] }

def axidma_stop_transfer (s : DmaState) : DmaState := { s with in_flight := none }

/-- The entry of the buffer in `dma_memories`. -/
def find (s : DmaState) (buffer : Ptr) : Option (Size × Ptr) :=
  s.dma_memories.find? fun e => e.2 == buffer

/-- The list without the entry that `find` gives. -/
def erase (buffer : Ptr) (s : DmaState) : DmaState :=
  { s with dma_memories := s.dma_memories.eraseP fun e => e.2 == buffer }

/-- A transfer of the buffer is stopped before the buffer is freed. -/
def stop_if_playing (buffer : Ptr) (s : DmaState) : DmaState :=
  if s.is_busy = true ∧ s.current_transfer.tx_buffer = buffer then s.axidma_stop_transfer else s

/-! ## The operations -/

def lookup_buffer (s : DmaState) (buffer : Ptr) : Size :=
  match s.find buffer with
  | some e => e.1
  | none => 0

/-- `answer` is what `axidma_malloc` gives. -/
def request_buffer (answer : Ptr) (buffer_size : Size) (s : DmaState) : Ptr × DmaState :=
  if buffer_size = 0 then (0, s)
  else if answer = 0 then (0, s)
  else (answer, { s with
    calls := s.calls ++ [.malloc answer buffer_size]
    dma_memories := s.dma_memories ++ [(buffer_size, answer)] })

def release_buffer (buffer : Ptr) (s : DmaState) : Int × DmaState :=
  match s.find buffer with
  | none => (-1, s)
  | some e => (0, ((s.stop_if_playing buffer).axidma_free e.2 e.1).erase buffer)

/-- `started` says whether the driver takes the transfer. `play` does not look at it. -/
def play (buffer : Ptr) (sample_rate : Int) (callback callback_param : Ptr) (started : Bool)
    (s : DmaState) : Int × DmaState :=
  if s.lookup_buffer buffer = 0 then (-1, s)
  else if s.sample_rate ≠ sample_rate ∧ set_sample_rate sample_rate ≠ 0 then (-1, s)
  else (0, { s.axidma_stop_transfer with
    sample_rate
    is_busy := true
    current_transfer := ⟨buffer, callback, callback_param⟩
    in_flight := if started then some buffer else none })

/-- The lookup and the free of `stop`. -/
def free_playing (s : DmaState) : DmaState :=
  if 0 < s.lookup_buffer s.current_transfer.tx_buffer then
    s.axidma_free s.current_transfer.tx_buffer (s.lookup_buffer s.current_transfer.tx_buffer)
  else s

def stop (s : DmaState) : DmaState :=
  if s.is_busy then { s.axidma_stop_transfer.free_playing with is_busy := false } else s

/-- The cleanup of `_dma_callback`. -/
def cleanup (s : DmaState) : DmaState :=
  match s.find s.current_transfer.tx_buffer with
  | some e => if e.2 ≠ 0 then (s.axidma_free e.2 e.1).erase s.current_transfer.tx_buffer else s
  | none => s

/-- With the user callback that is invoked, and its parameter. -/
def dma_callback (s : DmaState) : Option (Ptr × Ptr) × DmaState :=
  let t := s.current_transfer
  (if t.user_callback ≠ 0 then some (t.user_callback, t.callback_param) else none,
    { s.cleanup with is_busy := false })

/-- One pass of the loop of `destroy`. -/
def destroy_memory (s : DmaState) (e : Size × Ptr) : DmaState :=
  (s.stop_if_playing e.2).axidma_free e.2 e.1

def destroy (s : DmaState) : DmaState :=
  { s.dma_memories.foldl destroy_memory s with destroyed := true }

end DmaState

/-- An operation, with what the system answers. -/
inductive Op
  | request_buffer (answer : Ptr) (buffer_size : Size)
  | release_buffer (buffer : Ptr)
  | play (buffer : Ptr) (sample_rate : Int) (callback callback_param : Ptr) (started : Bool)
  | stop
  | dma_callback
  | destroy
  deriving DecidableEq

/-- The operations one after the other. `axidma_malloc` may fail or give any address that is
not mapped, and the callback comes when the transfer in flight has ended. -/
def codec : traces.System DmaState Op where
  next s
    | .request_buffer answer buffer_size => (s.request_buffer answer buffer_size).2
    | .release_buffer buffer => (s.release_buffer buffer).2
    | .play buffer rate callback param started => (s.play buffer rate callback param started).2
    | .stop => s.stop
    | .dma_callback => ({ s with in_flight := none } : DmaState).dma_callback.2
    | .destroy => s.destroy
  Enabled s op := s.destroyed = false ∧
    match op with
    | .request_buffer answer _ => answer = 0 ∨ Fresh (live s.calls) answer
    | .dma_callback => s.in_flight ≠ none
    | _ => True

instance (s : DmaState) : (op : Op) → Decidable (codec.Enabled s op)
  | .request_buffer answer _ =>
    inferInstanceAs (Decidable (s.destroyed = false ∧ (answer = 0 ∨ Fresh (live s.calls) answer)))
  | .dma_callback => inferInstanceAs (Decidable (s.destroyed = false ∧ s.in_flight ≠ none))
  | .release_buffer _ | .play _ _ _ _ _ | .stop | .destroy =>
    inferInstanceAs (Decidable (s.destroyed = false ∧ True))

/-- A state after `init`. -/
structure DmaState.Initial (s : DmaState) : Prop where
  is_busy : s.is_busy = false
  dma_memories : s.dma_memories = []
  calls : s.calls = []
  in_flight : s.in_flight = none
  destroyed : s.destroyed = false

/-! ## What is kept -/

namespace DmaState

/-- The calls fit each other, and the list holds what is mapped until `destroy` frees it. -/
structure Inv (s : DmaState) : Prop where
  sound : Sound s.calls
  sized : ∀ e ∈ s.dma_memories, e.1 ≠ 0
  nonnull : ∀ e ∈ s.dma_memories, e.2 ≠ 0
  lists : s.destroyed = false → Lists s.dma_memories (live s.calls)
  gone : s.destroyed = true → live s.calls = []

/-- The invariant before `destroy`. -/
theorem Inv.of_mapped {s : DmaState} (hd : s.destroyed = false) (hsound : Sound s.calls)
    (hsized : ∀ e ∈ s.dma_memories, e.1 ≠ 0) (hnonnull : ∀ e ∈ s.dma_memories, e.2 ≠ 0)
    (hlists : Lists s.dma_memories (live s.calls)) : s.Inv := by
  refine ⟨hsound, hsized, hnonnull, fun _ => hlists, fun hd' => ?_⟩
  rw [hd] at hd'
  cases hd'

theorem Initial.inv {s : DmaState} (h : s.Initial) : s.Inv := by
  refine .of_mapped h.destroyed ?_ ?_ ?_ ?_
  · rw [h.calls]
    exact .nil
  · simp [h.dma_memories]
  · simp [h.dma_memories]
  · rw [h.dma_memories, h.calls]
    exact Lists.nil

/-- The other fields do not matter. -/
theorem Inv.congr {s s' : DmaState} (h : s.Inv) (hm : s'.dma_memories = s.dma_memories)
    (hc : s'.calls = s.calls) (hd : s'.destroyed = s.destroyed) : s'.Inv := by
  refine ⟨?_, ?_, ?_, ?_, ?_⟩
  · rw [hc]
    exact h.sound
  · rw [hm]
    exact h.sized
  · rw [hm]
    exact h.nonnull
  · rw [hm, hc, hd]
    exact h.lists
  · rw [hc, hd]
    exact h.gone

/-- A buffer that is found is listed under its address. -/
theorem find_spec {s : DmaState} {p : Ptr} {e : Size × Ptr} (h : s.find p = some e) :
    e ∈ s.dma_memories ∧ e.2 = p := by
  unfold find at h
  exact ⟨List.mem_of_find?_eq_some h, by simpa using List.find?_some h⟩

/-- A listed buffer is freed and leaves the list. -/
theorem Inv.free_erase {s : DmaState} (h : s.Inv) (hd : s.destroyed = false) {p : Ptr}
    {e : Size × Ptr} (hf : s.find p = some e) : ((s.axidma_free e.2 e.1).erase p).Inv := by
  obtain ⟨hmem, hp⟩ := find_spec hf
  subst hp
  have hlists := h.lists hd
  have hsub : ∀ x ∈ ((s.axidma_free e.2 e.1).erase e.2).dma_memories, x ∈ s.dma_memories :=
    fun x hx => List.mem_of_mem_eraseP hx
  refine .of_mapped hd (h.sound.snoc ((hlists.exact e).mp hmem)) (fun x hx => h.sized x (hsub x hx))
    (fun x hx => h.nonnull x (hsub x hx)) ?_
  unfold axidma_free erase
  rw [live_free]
  exact hlists.erase e.2

theorem Inv.stop_if_playing {s : DmaState} (h : s.Inv) (p : Ptr) : (s.stop_if_playing p).Inv := by
  unfold DmaState.stop_if_playing
  split
  · exact h.congr rfl rfl rfl
  · exact h

theorem stop_if_playing_find (s : DmaState) (p q : Ptr) :
    (s.stop_if_playing p).find q = s.find q := by
  unfold stop_if_playing
  split <;> rfl

theorem stop_if_playing_destroyed (s : DmaState) (p : Ptr) :
    (s.stop_if_playing p).destroyed = s.destroyed := by
  unfold stop_if_playing
  split <;> rfl

theorem Inv.request_buffer {s : DmaState} (h : s.Inv) (hd : s.destroyed = false) {answer : Ptr}
    (ha : answer = 0 ∨ Fresh (live s.calls) answer) (buffer_size : Size) :
    (s.request_buffer answer buffer_size).2.Inv := by
  unfold DmaState.request_buffer
  by_cases hsize : buffer_size = 0
  · rw [if_pos hsize]
    exact h
  rw [if_neg hsize]
  by_cases h0 : answer = 0
  · rw [if_pos h0]
    exact h
  rw [if_neg h0]
  have hfresh := ha.resolve_left h0
  refine .of_mapped hd (h.sound.snoc hfresh) ?_ ?_ ?_
  · intro e he
    rcases List.mem_append.mp he with he | he
    · exact h.sized e he
    · rw [List.mem_singleton.mp he]
      exact hsize
  · intro e he
    rcases List.mem_append.mp he with he | he
    · exact h.nonnull e he
    · rw [List.mem_singleton.mp he]
      exact h0
  · rw [live_malloc]
    exact (h.lists hd).malloc hfresh buffer_size

theorem Inv.release_buffer {s : DmaState} (h : s.Inv) (hd : s.destroyed = false) (p : Ptr) :
    (s.release_buffer p).2.Inv := by
  unfold DmaState.release_buffer
  cases hf : s.find p with
  | none => exact h
  | some e =>
    apply (h.stop_if_playing p).free_erase
    · rw [stop_if_playing_destroyed, hd]
    · rw [stop_if_playing_find, hf]

theorem Inv.play {s : DmaState} (h : s.Inv) (p : Ptr) (rate : Int) (callback param : Ptr)
    (started : Bool) : (s.play p rate callback param started).2.Inv := by
  unfold DmaState.play
  split_ifs
  · exact h
  · exact h
  · exact h.congr rfl rfl rfl
  · exact h.congr rfl rfl rfl

/-- `stop` does not free, so the list stays right. -/
theorem Inv.stop {s : DmaState} (h : s.Inv)
    (hk : s.is_busy = true → s.lookup_buffer s.current_transfer.tx_buffer = 0) : s.stop.Inv := by
  unfold DmaState.stop
  by_cases hb : s.is_busy = true
  · have hnot : ¬ 0 < s.lookup_buffer s.current_transfer.tx_buffer := by
      rw [hk hb]
      exact BitVec.lt_irrefl _
    have hnone : s.axidma_stop_transfer.free_playing = s.axidma_stop_transfer := if_neg hnot
    rw [if_pos hb, hnone]
    exact h.congr rfl rfl rfl
  · rw [if_neg hb]
    exact h

theorem Inv.cleanup {s : DmaState} (h : s.Inv) (hd : s.destroyed = false) : s.cleanup.Inv := by
  unfold DmaState.cleanup
  cases hf : s.find s.current_transfer.tx_buffer with
  | none => exact h
  | some e =>
    simp only
    rw [if_pos (h.nonnull e (find_spec hf).1)]
    exact h.free_erase hd hf

theorem Inv.dma_callback {s : DmaState} (h : s.Inv) (hd : s.destroyed = false) :
    s.dma_callback.2.Inv :=
  (h.cleanup hd).congr rfl rfl rfl

theorem destroy_memory_spec (s : DmaState) (e : Size × Ptr) :
    (destroy_memory s e).calls = s.calls ++ [.free e.2 e.1] ∧
      (destroy_memory s e).dma_memories = s.dma_memories := by
  unfold destroy_memory stop_if_playing
  split <;> exact ⟨rfl, rfl⟩

theorem destroy_memories_spec (l : List (Size × Ptr)) (s : DmaState) :
    (l.foldl destroy_memory s).calls = s.calls ++ l.map (fun e => .free e.2 e.1) ∧
      (l.foldl destroy_memory s).dma_memories = s.dma_memories := by
  induction l generalizing s with
  | nil => exact ⟨(List.append_nil _).symm, rfl⟩
  | cons e l ih =>
    obtain ⟨hc, hm⟩ := ih (destroy_memory s e)
    obtain ⟨hc', hm'⟩ := destroy_memory_spec s e
    rw [List.foldl_cons, hc, hm, hc', hm', List.map_cons, List.append_assoc]
    exact ⟨rfl, rfl⟩

theorem destroy_calls (s : DmaState) :
    s.destroy.calls = s.calls ++ s.dma_memories.map fun e => .free e.2 e.1 :=
  (destroy_memories_spec s.dma_memories s).1

theorem destroy_dma_memories (s : DmaState) : s.destroy.dma_memories = s.dma_memories :=
  (destroy_memories_spec s.dma_memories s).2

theorem Inv.destroy {s : DmaState} (h : s.Inv) (hd : s.destroyed = false) : s.destroy.Inv := by
  obtain ⟨hsound, hlive⟩ := h.sound.free_all (h.lists hd)
  refine ⟨?_, ?_, ?_, fun hd' => absurd hd' (by simp [DmaState.destroy]), fun _ => ?_⟩
  · rw [destroy_calls]
    exact hsound
  · rw [destroy_dma_memories]
    exact h.sized
  · rw [destroy_dma_memories]
    exact h.nonnull
  · rw [destroy_calls]
    exact hlive

end DmaState

/-! ## The law -/

/-- A `stop` that would free finds nothing to free. -/
def StopKeeps (s : DmaState) (op : Op) : Prop :=
  op = .stop → s.is_busy = true → s.lookup_buffer s.current_transfer.tx_buffer = 0

instance (s : DmaState) (op : Op) : Decidable (StopKeeps s op) :=
  inferInstanceAs (Decidable (_ → _ → _))

/-- The destroyed list is empty. -/
def DestroyKeeps (s : DmaState) (op : Op) : Prop := op = .destroy → s.dma_memories = []

/-- The list is the mapped buffers, each once with its size, and so is the lookup. -/
structure DmaState.Exact (s : DmaState) : Prop where
  lists : Lists s.dma_memories (live s.calls)
  lookup : ∀ p size, (size, p) ∈ live s.calls → s.lookup_buffer p = size
  lookup_other : ∀ p, Fresh (live s.calls) p → s.lookup_buffer p = 0

/-- Each buffer is freed at most once and with its size, and once when the object is destroyed. -/
structure DmaState.Freed (s : DmaState) : Prop where
  kept : Kept s.calls
  all : s.destroyed = true → live s.calls = [] ∧ ∀ calls₁ p size calls₂,
    s.calls = calls₁ ++ .malloc p size :: calls₂ → frees p calls₂ = [size]

theorem DmaState.exact_of_lists {s : DmaState} (h : Lists s.dma_memories (live s.calls)) :
    s.Exact := by
  refine ⟨h, ?_, ?_⟩
  · intro p size hl
    unfold lookup_buffer find
    rw [h.find_eq_some.mpr ⟨hl, rfl⟩]
  · intro p hp
    unfold lookup_buffer find
    rw [h.find_eq_none.mpr hp]

theorem DmaState.Inv.freed {s : DmaState} (h : s.Inv) : s.Freed := by
  refine ⟨h.sound.kept, fun hd => ⟨h.gone hd, ?_⟩⟩
  exact h.sound.kept.all (h.gone hd)

theorem DmaState.Inv.next {s : DmaState} {op : Op} (h : s.Inv) (he : codec.Enabled s op)
    (hk : StopKeeps s op) : (codec.next s op).Inv := by
  obtain ⟨hd, hop⟩ := he
  cases op with
  | request_buffer answer size => exact h.request_buffer hd hop size
  | release_buffer p => exact h.release_buffer hd p
  | play p rate callback param started => exact h.play p rate callback param started
  | stop => exact h.stop (hk rfl)
  | dma_callback => exact DmaState.Inv.dma_callback (h.congr rfl rfl rfl) hd
  | destroy => exact h.destroy hd

theorem cleanup_destroyed (s : DmaState) : s.cleanup.destroyed = s.destroyed := by
  unfold DmaState.cleanup
  split
  · split <;> rfl
  · rfl

theorem free_playing_destroyed (s : DmaState) : s.free_playing.destroyed = s.destroyed := by
  unfold DmaState.free_playing
  split <;> rfl

theorem DmaState.stop_dma_memories (s : DmaState) : s.stop.dma_memories = s.dma_memories := by
  unfold DmaState.stop DmaState.free_playing
  split_ifs <;> rfl

theorem DmaState.stop_sample_rate (s : DmaState) : s.stop.sample_rate = s.sample_rate := by
  unfold DmaState.stop DmaState.free_playing
  split_ifs <;> rfl

theorem next_destroyed {s : DmaState} {op : Op} (hop : op ≠ .destroy) :
    (codec.next s op).destroyed = s.destroyed := by
  cases op with
  | request_buffer answer size =>
    unfold codec DmaState.request_buffer
    simp only
    split_ifs <;> rfl
  | release_buffer p =>
    unfold codec DmaState.release_buffer
    simp only
    split
    · rfl
    · exact s.stop_if_playing_destroyed p
  | play p rate callback param started =>
    unfold codec DmaState.play
    simp only
    split_ifs <;> rfl
  | stop =>
    unfold codec DmaState.stop
    simp only
    split_ifs
    · exact free_playing_destroyed s.axidma_stop_transfer
    · rfl
  | dma_callback => exact cleanup_destroyed _
  | destroy => exact absurd rfl hop

/-- No step puts an entry without a size into the list. -/
theorem memories_next {s : DmaState} {op : Op} {e : Size × Ptr} (he : e ∈ (codec.next s op).dma_memories) :
    e ∈ s.dma_memories ∨ e.1 ≠ 0 := by
  have herase : ∀ {p} {s' : DmaState}, e ∈ (s'.erase p).dma_memories → e ∈ s'.dma_memories :=
    fun h => List.mem_of_mem_eraseP h
  cases op with
  | request_buffer answer n =>
    unfold codec DmaState.request_buffer at he
    simp only at he
    split_ifs at he with hn ha
    · exact Or.inl he
    · exact Or.inl he
    · rcases List.mem_append.mp he with he | he
      · exact Or.inl he
      · rw [List.mem_singleton.mp he]
        exact Or.inr hn
  | release_buffer p =>
    unfold codec DmaState.release_buffer at he
    simp only at he
    split at he
    · exact Or.inl he
    · have hmem := herase he
      unfold DmaState.axidma_free DmaState.stop_if_playing at hmem
      split_ifs at hmem <;> exact Or.inl hmem
  | play p rate callback param started =>
    unfold codec DmaState.play at he
    simp only at he
    split_ifs at he <;> exact Or.inl he
  | stop =>
    unfold codec at he
    simp only [s.stop_dma_memories] at he
    exact Or.inl he
  | dma_callback =>
    unfold codec DmaState.dma_callback DmaState.cleanup at he
    simp only at he
    split at he
    · split_ifs at he
      · exact Or.inl (herase he)
      · exact Or.inl he
    · exact Or.inl he
  | destroy =>
    unfold codec at he
    simp only [DmaState.destroy_dma_memories] at he
    exact Or.inl he

/-- A `stop` that frees leaves the freed buffer in the list. -/
theorem stop_not_exact {s : DmaState} (hb : s.is_busy = true)
    (hsize : s.lookup_buffer s.current_transfer.tx_buffer ≠ 0) : ¬ s.stop.Exact := by
  intro hx
  have hpos : 0 < s.lookup_buffer s.current_transfer.tx_buffer := by
    simpa [BitVec.lt_def, Nat.pos_iff_ne_zero, BitVec.toNat_eq] using hsize
  obtain ⟨e, hf⟩ : ∃ e, s.find s.current_transfer.tx_buffer = some e := by
    cases hf : s.find s.current_transfer.tx_buffer with
    | none => exact absurd (by unfold DmaState.lookup_buffer; rw [hf]) hsize
    | some e => exact ⟨e, rfl⟩
  obtain ⟨hmem, hp⟩ := DmaState.find_spec hf
  have hfree : s.axidma_stop_transfer.free_playing = s.axidma_stop_transfer.axidma_free
      s.current_transfer.tx_buffer (s.lookup_buffer s.current_transfer.tx_buffer) := if_pos hpos
  unfold DmaState.stop at hx
  rw [if_pos hb, hfree] at hx
  have hlive := (hx.lists.exact e).mp hmem
  unfold DmaState.axidma_free at hlive
  rw [live_free, List.mem_filter] at hlive
  exact of_decide_eq_true hlive.2 hp

theorem DmaState.Inv.exact_of_destroyed {s : DmaState} (h : s.Inv) (hd : s.destroyed = true) :
    s.Exact ↔ s.dma_memories = [] := by
  constructor
  · intro hx
    have hlists := hx.lists
    rw [h.gone hd] at hlists
    exact hlists.nil_of_nil
  · intro hnil
    apply exact_of_lists
    rw [h.gone hd, hnil]
    exact Lists.nil

/-- One step keeps the list exact when it frees nothing that it leaves listed. -/
theorem next_exact_iff {s : DmaState} {op : Op} (h : s.Inv) (he : codec.Enabled s op) :
    (codec.next s op).Exact ∧ (codec.next s op).Freed ↔ StopKeeps s op ∧ DestroyKeeps s op := by
  constructor
  · rintro ⟨hx, -⟩
    refine ⟨?_, ?_⟩
    · rintro rfl hb
      by_contra hsize
      exact stop_not_exact hb hsize hx
    · rintro rfl
      have hempty := ((h.destroy he.1).exact_of_destroyed rfl).mp hx
      rwa [DmaState.destroy_dma_memories] at hempty
  · rintro ⟨hstop, hdestroy⟩
    have hnext := h.next he hstop
    refine ⟨?_, hnext.freed⟩
    by_cases hop : op = .destroy
    · subst hop
      rw [show (codec.next s .destroy) = s.destroy from rfl]
      rw [DmaState.Inv.exact_of_destroyed (h.destroy he.1) rfl, DmaState.destroy_dma_memories]
      exact hdestroy rfl
    · apply DmaState.exact_of_lists
      apply hnext.lists
      rw [next_destroyed hop]
      exact he.1

section Runs

variable {s₀ s : DmaState} {tr : List (DmaState × Op)}

/-- Whatever `destroy` finds, the invariant holds while `stop` frees nothing. -/
theorem inv_of_stopKeeps (h₀ : s₀.Initial) (h : traces.Run codec StopKeeps s₀ tr s) : s.Inv :=
  h.inv h₀.inv fun _ _ hi he hk => hi.next he hk

theorem exact_along_iff (h₀ : s₀.Initial) (h : traces.Run codec (fun _ _ => True) s₀ tr s) :
    traces.Along (fun _ s => s.Exact ∧ s.Freed) tr s ↔
      ∀ e ∈ tr, StopKeeps e.1 e.2 ∧ DestroyKeeps e.1 e.2 := by
  have hstart : s₀.Exact ∧ s₀.Freed :=
    ⟨DmaState.exact_of_lists (h₀.inv.lists h₀.destroyed), h₀.inv.freed⟩
  refine h.along_iff (I := fun s => s.Inv ∧ s.Exact ∧ s.Freed)
    (C := fun s op => StopKeeps s op ∧ DestroyKeeps s op) ⟨h₀.inv, hstart⟩ (fun _ hs => hs.2) ?_ ?_
  · rintro s op ⟨hinv, -⟩ he - hk
    exact ⟨hinv.next he hk.1, (next_exact_iff hinv he).mpr hk⟩
  · rintro s op ⟨hinv, -⟩ he - hx
    exact (next_exact_iff hinv he).mp hx

/-- In every run, the list is the mapped buffers in every state, and each buffer is freed
once and with its size, exactly when no `stop` frees a buffer and the final `destroy`
finds an empty list. A `destroy` that finds buffers frees each of them once, and leaves
them in the list of the destroyed object. -/
theorem memories_are_exact_iff (h₀ : s₀.Initial)
    (h : traces.Run codec (fun _ _ => True) s₀ tr s) :
    (traces.Along (fun _ s => s.Exact ∧ s.Freed) tr s ↔
        ∀ e ∈ tr, StopKeeps e.1 e.2 ∧ DestroyKeeps e.1 e.2) ∧
      ((∀ e ∈ tr, StopKeeps e.1 e.2) →
        traces.Along (fun _ s => (s.destroyed = false → s.Exact) ∧ s.Freed) tr s) := by
  refine ⟨exact_along_iff h₀ h, fun hk => ?_⟩
  apply (h.restrict hk).along
  intro tr s hr
  have hinv := inv_of_stopKeeps h₀ hr
  exact ⟨fun hd => DmaState.exact_of_lists (hinv.lists hd), hinv.freed⟩

end Runs

/-! ### A song is stopped -/

/-- A codec after `init`. -/
def silent : DmaState where
  is_busy := false
  sample_rate := 48000
  dma_memories := []
  current_transfer := ⟨0, 0, 0⟩
  calls := []
  in_flight := none
  destroyed := false

theorem silent_initial : silent.Initial := ⟨rfl, rfl, rfl, rfl, rfl⟩

/-- A buffer is played, stopped by the user, and the object is destroyed. -/
def stopped_song : List Op :=
  [.request_buffer 1 4, .play 1 48000 7 0 true, .stop, .destroy]

/-- A buffer is played to its end, another one is released, and one is left to `destroy`. -/
def finished_song : List Op :=
  [.request_buffer 1 4, .play 1 48000 7 0 true, .request_buffer 2 6, .dma_callback, .stop,
    .request_buffer 3 8, .release_buffer 3, .destroy]

theorem run_of {ops : List Op} (h : codec.Enables silent ops) :
    traces.Run codec (fun _ _ => True) silent (codec.trace silent ops) (codec.after silent ops) :=
  traces.System.run_of_enables h fun _ _ => trivial

theorem a_finished_song_is_freed_once :
    (codec.after silent finished_song).calls =
        [.malloc 1 4, .malloc 2 6, .free 1 4, .malloc 3 8, .free 3 8, .free 2 6] ∧
      traces.Along (fun _ s => (s.destroyed = false → s.Exact) ∧ s.Freed)
        (codec.trace silent finished_song) (codec.after silent finished_song) :=
  ⟨by decide, (memories_are_exact_iff silent_initial (run_of (by decide))).2 (by decide)⟩

theorem a_stopped_song_is_freed_twice :
    traces.Run codec (fun _ _ => True) silent (codec.trace silent stopped_song)
        (codec.after silent stopped_song) ∧
      (codec.after silent stopped_song).calls = [.malloc 1 4, .free 1 4, .free 1 4] ∧
      ¬ (codec.after silent stopped_song).Freed ∧
      ¬ traces.Along (fun _ s => s.Exact ∧ s.Freed) (codec.trace silent stopped_song)
        (codec.after silent stopped_song) := by
  have hfreed : ¬ (codec.after silent stopped_song).Freed := by
    intro h
    rcases h.kept.once [] 1 4 [.free 1 4, .free 1 4] rfl with hf | ⟨hf, -⟩
    · exact absurd hf (by decide)
    · exact absurd hf (by decide)
  exact ⟨run_of (by decide), by decide, hfreed, fun h => hfreed h.1.2⟩

end adau1761
