-- The `PLAY` of the player, from the stop of the old song to the reply. The size
-- of the buffer comes from the header of the file, and is narrowed on the way.
-- What the driver answers to the start of the transfer is not looked at.
import AesMusicPlayer.CodecMemories
import AesMusicPlayer.PlayerMessages
import Mathlib.Algebra.Group.Int.Defs
import Mathlib.Algebra.Group.Nat.Defs

open adau1761 ledger

namespace player_thread

/-! ## The sound file -/

/-- The fields of `SF_INFO` that are read, as libsndfile gives them. -/
structure SfInfo where
  frames : BitVec 64
  samplerate : BitVec 32
  channels : BitVec 32
  frames_nonneg : 0 ≤ frames.toInt
  channels_pos : 1 ≤ channels.toInt

namespace SfInfo

/-- `frames * channels`, a product of 64 bits. -/
def items (info : SfInfo) : BitVec 64 := info.frames * info.channels.signExtend 64

/-- `frames * channels * sizeof(short)`, narrowed to a `size_t`. -/
def buffer_size (info : SfInfo) : Size := (info.items * 2).setWidth 32

theorem toInt_frames (info : SfInfo) : info.frames.toInt = info.frames.toNat := by
  have h := info.frames_nonneg
  rw [BitVec.toInt_eq_toNat_cond] at h ⊢
  split at * <;> omega

theorem toInt_channels (info : SfInfo) : info.channels.toInt = info.channels.toNat := by
  have h := info.channels_pos
  rw [BitVec.toInt_eq_toNat_cond] at h ⊢
  split at * <;> omega

theorem toNat_items (info : SfInfo) :
    info.items.toNat = info.frames.toNat * info.channels.toNat % 2 ^ 64 := by
  have hext : (info.channels.signExtend 64).toNat = info.channels.toNat := by
    have hint : (info.channels.signExtend 64).toInt = info.channels.toInt :=
      BitVec.toInt_signExtend_of_le (by decide)
    rw [toInt_channels, BitVec.toInt_eq_toNat_cond] at hint
    have hlt := info.channels.isLt
    split at hint <;> omega
  unfold items
  rw [BitVec.toNat_mul, hext]

theorem toNat_buffer_size (info : SfInfo) :
    info.buffer_size.toNat = info.frames.toNat * info.channels.toNat * 2 % 2 ^ 32 := by
  unfold buffer_size
  have h2 : (2 : BitVec 64).toNat = 2 := rfl
  rw [BitVec.toNat_setWidth, BitVec.toNat_mul, toNat_items, h2]
  generalize info.frames.toNat * info.channels.toNat = n
  omega

/-- The narrowed size is the right one, and four bytes for each frame, when the song is stereo
and the size fits. -/
theorem buffer_size_iff {info : SfInfo} (h0 : info.buffer_size ≠ 0) :
    (info.buffer_size.toNat : Int) = info.frames.toInt * info.channels.toInt * 2 ∧
        (info.buffer_size.toNat : Int) = 4 * info.frames.toInt ↔
      info.channels = 2 ∧ 4 * info.frames.toInt < 2 ^ 32 := by
  have hsize := info.toNat_buffer_size
  have hlt := info.buffer_size.isLt
  have hpos : info.buffer_size.toNat ≠ 0 := fun h => h0 (BitVec.eq_of_toNat_eq h)
  rw [toInt_frames, toInt_channels]
  constructor
  · rintro ⟨hbytes, hwords⟩
    have hframes : (info.frames.toNat : Int) ≠ 0 := by omega
    have hmul : (info.frames.toNat : Int) * (info.channels.toNat * 2) = info.frames.toNat * 4 := by
      rw [← Int.mul_assoc, ← hbytes, hwords, Int.mul_comm]
    have hchannels := Int.eq_of_mul_eq_mul_left hframes hmul
    refine ⟨BitVec.eq_of_toNat_eq ?_, by omega⟩
    have h2 : (2 : BitVec 32).toNat = 2 := rfl
    rw [h2]
    omega
  · rintro ⟨hchannels, hfits⟩
    have h2 : info.channels.toNat = 2 := by rw [hchannels]; rfl
    rw [h2] at hsize ⊢
    omega

/-- `sf_read_short` does not write beyond such a buffer. -/
theorem items_le {info : SfInfo} (hchannels : info.channels = 2)
    (hfits : 4 * info.frames.toInt < 2 ^ 32) : 2 * info.items.toInt ≤ info.buffer_size.toNat := by
  have h2 : info.channels.toNat = 2 := by rw [hchannels]; rfl
  have hitems := info.toNat_items
  have hsize := info.toNat_buffer_size
  rw [toInt_frames] at hfits
  rw [h2] at hitems hsize
  rw [BitVec.toInt_eq_toNat_cond]
  split <;> omega

end SfInfo

/-! ## `PLAY` -/

/-- What the system, libsndfile and the driver answer to one `PLAY`. -/
structure PlayAnswers where
  /-- the pointer to the content of the file is read from the pipe -/
  pointer : Bool
  /-- the opened sound file -/
  snd_file : Option SfInfo
  dma_buff : Ptr
  /-- the address of the function that is called when the song is over -/
  callback : Ptr
  /-- `axidma_oneway_transfer` starts the transfer -/
  started : Bool

/-- The reply, and what was done for it. -/
structure PlayReply where
  result : Result
  /-- the count that `sf_read_short` is given -/
  items : Option (BitVec 64)
  codec : DmaState

def play_request (a : PlayAnswers) (s : DmaState) : PlayReply :=
  let s := s.stop
  if a.pointer then
    match a.snd_file with
    | none => ⟨.FAILURE, none, s⟩
    | some info =>
      let (dma_buff, s) := s.request_buffer a.dma_buff info.buffer_size
      if dma_buff ≠ 0 then
        let (ret, s) := s.play dma_buff info.samplerate.toInt a.callback 0 a.started
        if ret ≠ 0 then ⟨.FAILURE, some info.items, (s.release_buffer dma_buff).2⟩
        else ⟨.SUCCESS, some info.items, s⟩
      else ⟨.FAILURE, none, s⟩
  else ⟨.FAILURE, none, s⟩

/-! ## What the codec does for it -/

section Codec

variable (s : DmaState)

/-- What the list says of a new buffer: an older entry of its address, or its own. -/
def entry (p : Ptr) (n : Size) : Size × Ptr := (s.find p).getD (n, p)

theorem entry_address (p : Ptr) (n : Size) : (entry s p n).2 = p := by
  unfold entry
  cases hf : s.find p with
  | none => rfl
  | some e => exact (DmaState.find_spec hf).2

/-- The codec plays at this rate, or can be set to it. -/
def Accepts (rate : Int) : Prop := s.sample_rate = rate ∨ set_sample_rate rate = 0

instance (rate : Int) : Decidable (Accepts s rate) := inferInstanceAs (Decidable (_ ∨ _))

/-- The state with a new buffer of the request. -/
def requested (p : Ptr) (n : Size) : DmaState :=
  { s.stop with
    calls := s.stop.calls ++ [.malloc p n]
    dma_memories := s.stop.dma_memories ++ [(n, p)] }

theorem stop_request {p : Ptr} {n : Size} (hn : n ≠ 0) (hp : p ≠ 0) :
    s.stop.request_buffer p n = (p, requested s p n) := by
  unfold DmaState.request_buffer
  rw [if_neg hn, if_neg hp]
  rfl

theorem find_requested (p : Ptr) (n : Size) : (requested s p n).find p = some (entry s p n) := by
  unfold requested DmaState.find entry DmaState.find
  rw [s.stop_dma_memories, List.find?_append]
  cases s.dma_memories.find? fun e => e.2 == p with
  | none => simp
  | some e => rfl

/-- The size that `play` gives to the driver. -/
theorem lookup_requested (p : Ptr) (n : Size) :
    (requested s p n).lookup_buffer p = (entry s p n).1 := by
  unfold DmaState.lookup_buffer
  rw [find_requested]

theorem play_accepted {p : Ptr} {n : Size} {rate : Int} (hlisted : (entry s p n).1 ≠ 0)
    (hrate : Accepts s rate) (callback param : Ptr) (started : Bool) :
    ((requested s p n).play p rate callback param started).1 = 0 ∧
      ((requested s p n).play p rate callback param started).2.calls =
        s.stop.calls ++ [.malloc p n] ∧
      ((requested s p n).play p rate callback param started).2.in_flight =
        (if started then some p else none) ∧
      ((requested s p n).play p rate callback param started).2.is_busy = true := by
  have hset : ¬ ((requested s p n).sample_rate ≠ rate ∧ set_sample_rate rate ≠ 0) := by
    rintro ⟨hne, hno⟩
    exact hrate.elim (fun heq => hne (s.stop_sample_rate.trans heq)) hno
  unfold DmaState.play
  rw [lookup_requested, if_neg hlisted, if_neg hset]
  exact ⟨rfl, rfl, rfl, rfl⟩

theorem play_refused {p : Ptr} {n : Size} {rate : Int}
    (hno : ¬ ((entry s p n).1 ≠ 0 ∧ Accepts s rate)) (callback param : Ptr) (started : Bool) :
    (requested s p n).play p rate callback param started = (-1, requested s p n) := by
  unfold DmaState.play
  rw [lookup_requested]
  by_cases hlisted : (entry s p n).1 = 0
  · rw [if_pos hlisted]
  · have hrate := not_or.mp fun h => hno ⟨hlisted, h⟩
    rw [if_neg hlisted, if_pos]
    exact ⟨fun heq => hrate.1 (s.stop_sample_rate.symm.trans heq), hrate.2⟩

theorem stop_is_busy : s.stop.is_busy = false := by
  unfold DmaState.stop
  split_ifs with hbusy
  · rfl
  · exact Bool.eq_false_iff.mpr hbusy

theorem release_requested (p : Ptr) (n : Size) :
    ((requested s p n).release_buffer p).2.calls =
        s.stop.calls ++ [.malloc p n, .free p (entry s p n).1] ∧
      ((requested s p n).release_buffer p).2.is_busy = false := by
  have hstopped : ((requested s p n).stop_if_playing p).calls = s.stop.calls ++ [.malloc p n] ∧
      ((requested s p n).stop_if_playing p).is_busy = false := by
    unfold DmaState.stop_if_playing
    split_ifs <;> exact ⟨rfl, stop_is_busy s⟩
  unfold DmaState.release_buffer DmaState.axidma_free DmaState.erase
  rw [find_requested]
  simp only [hstopped, entry_address, List.append_assoc, List.singleton_append, and_self]

end Codec

/-! ## The reply -/

/-- The codec is asked for a buffer and gets it. -/
structure Requests (a : PlayAnswers) (info : SfInfo) : Prop where
  pointer : a.pointer = true
  snd_file : a.snd_file = some info
  size : info.buffer_size ≠ 0
  dma_buff : a.dma_buff ≠ 0

section Reply

variable {a : PlayAnswers} {info : SfInfo} {s : DmaState}

theorem play_request_of_requests (h : Requests a info) :
    play_request a s =
      let played := (requested s a.dma_buff info.buffer_size).play a.dma_buff info.samplerate.toInt
        a.callback 0 a.started
      if played.1 ≠ 0 then
        ⟨.FAILURE, some info.items, (played.2.release_buffer a.dma_buff).2⟩
      else ⟨.SUCCESS, some info.items, played.2⟩ := by
  unfold play_request
  simp only [h.pointer, h.snd_file, stop_request s h.size h.dma_buff, if_true, ne_eq, h.dma_buff,
    not_false_eq_true]

theorem no_buffer_of_not_requests (hpointer : a.pointer = true) (hfile : a.snd_file = some info)
    (h : ¬ Requests a info) : info.buffer_size = 0 ∨ a.dma_buff = 0 := by
  by_contra hboth
  obtain ⟨hsize, hbuff⟩ := not_or.mp hboth
  exact h ⟨hpointer, hfile, hsize, hbuff⟩

theorem request_fails {p : Ptr} {n : Size} (h : n = 0 ∨ p = 0) (s : DmaState) :
    s.request_buffer p n = (0, s) := by
  unfold DmaState.request_buffer
  by_cases hn : n = 0
  · rw [if_pos hn]
  · rw [if_neg hn, if_pos (h.resolve_left hn)]

/-- Without a buffer there is nothing to give back. -/
theorem play_request_of_not_requests (h : ∀ info, ¬ Requests a info) :
    play_request a s = ⟨.FAILURE, none, s.stop⟩ := by
  unfold play_request
  by_cases hpointer : a.pointer = true
  · rw [if_pos hpointer]
    cases hfile : a.snd_file with
    | none => rfl
    | some info =>
      simp only [request_fails (no_buffer_of_not_requests hpointer hfile (h info))]
      rfl
  · rw [if_neg hpointer]

theorem play_request_of_refused (h : Requests a info)
    (hno : ¬ ((entry s a.dma_buff info.buffer_size).1 ≠ 0 ∧ Accepts s info.samplerate.toInt)) :
    play_request a s = ⟨.FAILURE, some info.items,
      ((requested s a.dma_buff info.buffer_size).release_buffer a.dma_buff).2⟩ := by
  rw [play_request_of_requests h, play_refused s hno]
  rfl

theorem play_request_of_accepted (h : Requests a info)
    (hlisted : (entry s a.dma_buff info.buffer_size).1 ≠ 0)
    (hrate : Accepts s info.samplerate.toInt) :
    play_request a s = ⟨.SUCCESS, some info.items,
      ((requested s a.dma_buff info.buffer_size).play a.dma_buff info.samplerate.toInt
        a.callback 0 a.started).2⟩ := by
  rw [play_request_of_requests h]
  simp only [(play_accepted s hlisted hrate a.callback 0 a.started).1, ne_eq, not_true_eq_false,
    if_false]

/-- The calls of `axidma_malloc` and `axidma_free` for the new song. -/
def calls_of (a : PlayAnswers) (s : DmaState) : List (Call Ptr Size) :=
  (play_request a s).codec.calls.drop s.stop.calls.length

/-- The song plays from the buffer `p` of `n` bytes, which is taken for it and not given back. -/
structure Plays (a : PlayAnswers) (s : DmaState) (info : SfInfo) (p : Ptr) (n : Size) : Prop where
  taken : ∃ log₁ log₂, calls_of a s = log₁ ++ .malloc p n :: log₂ ∧ frees p log₂ = []
  started : (play_request a s).codec.in_flight = some p
  bytes : (n.toNat : Int) = info.frames.toInt * info.channels.toInt * 2
  words : (n.toNat : Int) = 4 * info.frames.toInt
  items : ∃ count, (play_request a s).items = some count ∧ 2 * count.toInt ≤ n.toNat

/-- What the reply is to say. -/
structure Honest (a : PlayAnswers) (s : DmaState) : Prop where
  success : (play_request a s).result = .SUCCESS →
    ∃ info p n, a.snd_file = some info ∧ Plays a s info p n
  failure : (play_request a s).result = .FAILURE → GivenBack (calls_of a s)

/-- The driver starts the transfer of a stereo song that fits a `size_t`. A buffer that is not
played is known by its own size. -/
structure Served (a : PlayAnswers) (s : DmaState) (info : SfInfo) : Prop where
  listed : (entry s a.dma_buff info.buffer_size).1 ≠ 0
  played : Accepts s info.samplerate.toInt →
    a.started = true ∧ info.channels = 2 ∧ 4 * info.frames.toInt < 2 ^ 32
  released : ¬ Accepts s info.samplerate.toInt →
    (entry s a.dma_buff info.buffer_size).1 = info.buffer_size

/-- The calls with a buffer that is played, and with one that is not. -/
theorem calls_of_requests {log : List (Call Ptr Size)}
    (hcalls : (play_request a s).codec.calls = s.stop.calls ++ log) : calls_of a s = log := by
  unfold calls_of
  rw [hcalls, List.drop_left]

theorem honest_of_not_requests (h : ∀ info, ¬ Requests a info) : Honest a s := by
  have heq := play_request_of_not_requests (s := s) h
  have hnone : calls_of a s = [] := calls_of_requests (by rw [heq, List.append_nil])
  refine ⟨fun hs => ?_, fun _ => ?_⟩
  · rw [heq] at hs
    cases hs
  · rw [hnone]
    exact givenBack_nil

theorem honest_of_refused_iff (h : Requests a info)
    (hno : ¬ ((entry s a.dma_buff info.buffer_size).1 ≠ 0 ∧ Accepts s info.samplerate.toInt)) :
    Honest a s ↔ (entry s a.dma_buff info.buffer_size).1 = info.buffer_size := by
  have heq := play_request_of_refused h hno
  have hcalls : calls_of a s = [.malloc a.dma_buff info.buffer_size,
      .free a.dma_buff (entry s a.dma_buff info.buffer_size).1] := by
    apply calls_of_requests
    rw [heq, (release_requested s _ _).1]
  have hfailure : Honest a s ↔ GivenBack (calls_of a s) := by
    refine ⟨fun hh => hh.failure (by rw [heq]), fun hg => ⟨fun hs => ?_, fun _ => hg⟩⟩
    rw [heq] at hs
    cases hs
  rw [hfailure, hcalls, givenBack_pair_iff]

theorem honest_of_accepted_iff (h : Requests a info)
    (hlisted : (entry s a.dma_buff info.buffer_size).1 ≠ 0)
    (hrate : Accepts s info.samplerate.toInt) :
    Honest a s ↔ a.started = true ∧ info.channels = 2 ∧ 4 * info.frames.toInt < 2 ^ 32 := by
  obtain ⟨-, hcodec, hflight, -⟩ := play_accepted s hlisted hrate a.callback 0 a.started
  have heq := play_request_of_accepted h hlisted hrate
  have hcalls : calls_of a s = [.malloc a.dma_buff info.buffer_size] := by
    apply calls_of_requests
    rw [heq, hcodec]
  constructor
  · intro hh
    obtain ⟨info', p, n, hfile, hplays⟩ := hh.success (by rw [heq])
    obtain rfl : info = info' := Option.some.inj (h.snd_file.symm.trans hfile)
    obtain ⟨log₁, log₂, hlog, -⟩ := hplays.taken
    rw [hcalls] at hlog
    obtain ⟨-, hmalloc, -⟩ := cons_eq_malloc (by simp) hlog
    obtain ⟨rfl, rfl⟩ := Call.malloc.inj hmalloc
    have hstarted := hplays.started
    rw [heq] at hstarted
    refine ⟨?_, (SfInfo.buffer_size_iff h.size).mp ⟨hplays.bytes, hplays.words⟩⟩
    by_contra hnot
    simp only [hflight, hnot, if_false] at hstarted
    cases hstarted
  · rintro ⟨hstarted, hchannels, hfits⟩
    obtain ⟨hbytes, hwords⟩ := (SfInfo.buffer_size_iff h.size).mpr ⟨hchannels, hfits⟩
    refine ⟨fun _ => ⟨info, a.dma_buff, info.buffer_size, h.snd_file,
      ⟨?_, ?_, hbytes, hwords, ?_⟩⟩, fun hf => ?_⟩
    · exact ⟨[], [], hcalls, rfl⟩
    · rw [heq]
      exact hflight.trans (if_pos hstarted)
    · exact ⟨info.items, by rw [heq], SfInfo.items_le hchannels hfits⟩
    · rw [heq] at hf
      cases hf

theorem honest_of_requests_iff (h : Requests a info) : Honest a s ↔ Served a s info := by
  by_cases hplay : (entry s a.dma_buff info.buffer_size).1 ≠ 0 ∧ Accepts s info.samplerate.toInt
  · rw [honest_of_accepted_iff h hplay.1 hplay.2]
    exact ⟨fun hh => ⟨hplay.1, fun _ => hh, fun hno => absurd hplay.2 hno⟩,
      fun hh => hh.played hplay.2⟩
  · rw [honest_of_refused_iff h hplay]
    constructor
    · intro hown
      have hlisted : (entry s a.dma_buff info.buffer_size).1 ≠ 0 := by
        rw [hown]
        exact h.size
      exact ⟨hlisted, fun hrate => absurd ⟨hlisted, hrate⟩ hplay, fun _ => hown⟩
    · intro hh
      exact hh.released fun hrate => hplay ⟨hh.listed, hrate⟩

/-- In every state and for every answer, the reply to `PLAY` is true exactly when a request that
gets its buffer is served. -/
theorem reply_is_true_iff (a : PlayAnswers) (s : DmaState) :
    Honest a s ↔ ∀ info, Requests a info → Served a s info := by
  by_cases hreq : ∃ info, Requests a info
  · obtain ⟨info, h⟩ := hreq
    rw [honest_of_requests_iff h]
    refine ⟨fun hs info' h' => ?_, fun hall => hall info h⟩
    obtain rfl : info = info' := Option.some.inj (h.snd_file.symm.trans h'.snd_file)
    exact hs
  · have hno := not_exists.mp hreq
    exact iff_of_true (honest_of_not_requests hno) fun info h => absurd h (hno info)

/-! ### The `load` of the player -/

/-- The codec is busy after a `PLAY` exactly when the reply is `SUCCESS`. -/
theorem is_busy_play_request (a : PlayAnswers) (s : DmaState) :
    (play_request a s).codec.is_busy = decide ((play_request a s).result = .SUCCESS) := by
  by_cases hreq : ∃ info, Requests a info
  · obtain ⟨info, h⟩ := hreq
    by_cases hplay : (entry s a.dma_buff info.buffer_size).1 ≠ 0 ∧
        Accepts s info.samplerate.toInt
    · obtain ⟨-, -, -, hbusy⟩ := play_accepted s hplay.1 hplay.2 a.callback 0 a.started
      rw [play_request_of_accepted h hplay.1 hplay.2]
      exact hbusy
    · rw [play_request_of_refused h hplay]
      exact (release_requested s _ _).2
  · rw [play_request_of_not_requests (not_exists.mp hreq)]
    exact stop_is_busy s

/-- The codec and the reply after a `PLAY` are those that `player_step` says of a `load`. -/
theorem load_agrees {P : Type*} [DecidableEq P] {m : State P} {path : P}
    (hm : m.player = .load path) (hcodec : m.codec = none) (a : PlayAnswers) (s : DmaState) :
    (m.player_step (decide ((play_request a s).result = .SUCCESS))).codec.isSome =
        (play_request a s).codec.is_busy ∧
      (m.player_step (decide ((play_request a s).result = .SUCCESS))).player =
        .reply (.PLAY (play_request a s).result) := by
  rw [is_busy_play_request]
  unfold State.player_step
  rw [hm]
  cases (play_request a s).result with
  | SUCCESS => exact ⟨rfl, rfl⟩
  | FAILURE => exact ⟨congrArg Option.isSome hcodec, rfl⟩

end Reply

/-! ## The request as steps of the codec -/

section Steps

variable {a : PlayAnswers} {s₀ s : DmaState} {tr : List (DmaState × Op)}

/-- In every state of a run, each entry of the list has a size, and so `play` finds a new buffer. -/
theorem listed_of_run (h₀ : s₀.Initial) (h : traces.Run codec (fun _ _ => True) s₀ tr s) (p : Ptr)
    {n : Size} (hn : n ≠ 0) : (entry s p n).1 ≠ 0 := by
  have hsized : ∀ e ∈ s.dma_memories, e.1 ≠ 0 := by
    refine h.inv (I := fun s => ∀ e ∈ s.dma_memories, e.1 ≠ 0) ?_ ?_
    · rw [h₀.dma_memories]
      exact nofun
    · intro s op hs _ _ e he
      exact (memories_next he).elim (hs e) id
  unfold entry
  cases hf : s.find p with
  | none => exact hn
  | some e => exact hsized e (DmaState.find_spec hf).1

/-- The steps of the codec in one `PLAY`. -/
def PlayAnswers.ops (a : PlayAnswers) (s : DmaState) : List Op :=
  .stop ::
    match a.pointer, a.snd_file with
    | true, some info =>
      .request_buffer a.dma_buff info.buffer_size ::
        if info.buffer_size = 0 ∨ a.dma_buff = 0 then []
        else .play a.dma_buff info.samplerate.toInt a.callback 0 a.started ::
          if (play_request a s).result = .SUCCESS then [] else [.release_buffer a.dma_buff]
    | _, _ => []

/-- One `PLAY` does the steps of the codec one after the other. -/
theorem play_request_codec (a : PlayAnswers) (s : DmaState) :
    (play_request a s).codec = codec.after s (a.ops s) := by
  have hstop : codec.next s .stop = s.stop := rfl
  unfold traces.System.after PlayAnswers.ops
  by_cases hreq : ∃ info, Requests a info
  · obtain ⟨info, h⟩ := hreq
    have hno : ¬ (info.buffer_size = 0 ∨ a.dma_buff = 0) := not_or.mpr ⟨h.size, h.dma_buff⟩
    have hnext : codec.next s.stop (.request_buffer a.dma_buff info.buffer_size) =
        requested s a.dma_buff info.buffer_size :=
      congrArg Prod.snd (stop_request s h.size h.dma_buff)
    simp only [h.pointer, h.snd_file, if_neg hno, play_request_of_requests h, List.foldl_cons,
      hstop, hnext]
    by_cases hret : ((requested s a.dma_buff info.buffer_size).play a.dma_buff
        info.samplerate.toInt a.callback 0 a.started).1 = 0
    · simp only [hret, ne_eq, not_true_eq_false, if_false, if_true]
      rfl
    · simp only [hret, ne_eq, not_false_eq_true, if_true, reduceCtorEq, if_false]
      rfl
  · have hnone := not_exists.mp hreq
    rw [play_request_of_not_requests hnone]
    cases hpointer : a.pointer with
    | false => rfl
    | true =>
      cases hfile : a.snd_file with
      | none => rfl
      | some info =>
        have hno := no_buffer_of_not_requests hpointer hfile (hnone info)
        have hfails : codec.next s.stop (.request_buffer a.dma_buff info.buffer_size) = s.stop :=
          congrArg Prod.snd (request_fails hno s.stop)
        simp only [if_pos hno, List.foldl_cons, List.foldl_nil, hstop, hfails]

/-- Each step of it can come, when the driver gives an address that is not mapped. -/
theorem enables_ops (hd : s.destroyed = false)
    (hfresh : a.dma_buff = 0 ∨ Fresh (live s.stop.calls) a.dma_buff) :
    codec.Enables s (a.ops s) := by
  have hkeep : ∀ {s : DmaState} {op : Op}, op ≠ .destroy → s.destroyed = false →
      (codec.next s op).destroyed = false := fun hop hs => (next_destroyed hop).trans hs
  have hstop : (codec.next s .stop).destroyed = false := hkeep nofun hd
  unfold PlayAnswers.ops
  refine ⟨⟨hd, trivial⟩, ?_⟩
  split
  · refine ⟨⟨hstop, hfresh⟩, ?_⟩
    split_ifs
    · trivial
    · exact ⟨⟨hkeep nofun hstop, trivial⟩, trivial⟩
    · exact ⟨⟨hkeep nofun hstop, trivial⟩, ⟨hkeep nofun (hkeep nofun hstop), trivial⟩, trivial⟩
  · trivial

/-- The state after a `PLAY` is one of a run, as the state before it is. -/
theorem run_play_request (h : traces.Run codec (fun _ _ => True) s₀ tr s)
    (hd : s.destroyed = false) (hfresh : a.dma_buff = 0 ∨ Fresh (live s.stop.calls) a.dma_buff) :
    traces.Run codec (fun _ _ => True) s₀ (tr ++ codec.trace s (a.ops s))
      (play_request a s).codec := by
  rw [play_request_codec]
  exact h.append (traces.System.run_of_enables (enables_ops hd hfresh) fun _ _ => trivial)

end Steps

/-! ### A header that is too large -/

/-- A song with so many frames, at 48 kHz. -/
def song (frames : BitVec 64) (h : 0 ≤ frames.toInt) : SfInfo := ⟨frames, 48000, 2, h, by decide⟩

/-- Everything goes well for the song. -/
def all_well (info : SfInfo) : PlayAnswers := ⟨true, some info, 5, 7, true⟩

/-- 2^30 frames and one more. Four bytes are left of the size. -/
def huge_song : SfInfo := song 0x40000001 (by decide)

/-- The player replies `SUCCESS`, after it has asked for 2^31 samples and two more in a
buffer of 4 bytes. It does so too when the driver does not start the transfer. -/
theorem huge_song_is_played :
    (play_request (all_well huge_song) silent).result = .SUCCESS ∧
      (play_request (all_well huge_song) silent).items = some 0x80000002 ∧
      calls_of (all_well huge_song) silent = [.malloc 5 4] ∧
      ¬ Honest (all_well huge_song) silent ∧
      (play_request { all_well (song 1 (by decide)) with started := false } silent).result =
        .SUCCESS ∧
      (play_request { all_well (song 1 (by decide)) with started := false } silent).codec.in_flight =
        none := by
  refine ⟨by decide, by decide, by decide, ?_, by decide, by decide⟩
  rw [honest_of_requests_iff ⟨rfl, rfl, by decide, by decide⟩]
  intro h
  exact absurd (h.played (by decide)).2.2 (by decide)

end player_thread
