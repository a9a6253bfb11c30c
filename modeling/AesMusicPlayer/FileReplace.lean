-- How an operation replaces a file: the worker thread writes the result to a
-- temporary file, and the UI thread sets its attribute and renames it over
-- the original.
import AesMusicPlayer.FileCrypt

open blockwise

namespace aes

/-! ## Files -/

/-- A file, and its extended attribute `user.is_encrypted`. -/
structure File where
  content : Bytes
  is_encrypted : Bool
  deriving DecidableEq

abbrev FileSystem := String → Option File

namespace FileSystem

/-- An output stream on `path` puts `bytes` there, or is not opened at all. -/
def write (path : String) (bytes : Option Bytes) (fs : FileSystem) : FileSystem :=
  match bytes with
  | some bytes =>
    Function.update fs path (some ⟨bytes, (fs path).elim false File.is_encrypted⟩)
  | none => fs

/-- `setxattr` with the value true, none when it fails. -/
def setxattr (ok : Bool) (path : String) (fs : FileSystem) : Option FileSystem :=
  match fs path with
  | some f => if ok then some (Function.update fs path (some { f with is_encrypted := true }))
    else none
  | none => none

def rename (ok : Bool) (old new : String) (fs : FileSystem) : FileSystem :=
  match fs old with
  | some f => if ok then Function.update (Function.update fs old none) new (some f) else fs
  | none => fs

def remove (path : String) (fs : FileSystem) : FileSystem := Function.update fs path none

variable {fs fs' : FileSystem} {p path old new : String} {ok : Bool}

theorem remove_of_ne (hp : p ≠ path) : fs.remove path p = fs p := Function.update_of_ne hp _ _

theorem setxattr_of_ne (h : fs.setxattr ok path = some fs') (hp : p ≠ path) : fs' p = fs p := by
  unfold setxattr at h
  cases hf : fs path with
  | none => rw [hf] at h; cases h
  | some f =>
    cases ok <;> simp only [hf, if_true, Bool.false_eq_true, if_false, Option.some.injEq,
      reduceCtorEq] at h
    rw [← h, Function.update_of_ne hp]

theorem rename_of_ne (hold : p ≠ old) (hnew : p ≠ new) : fs.rename ok old new p = fs p := by
  unfold rename
  cases fs old with
  | none => rfl
  | some f =>
    cases ok
    · rfl
    · simp only [if_true]
      rw [Function.update_of_ne hnew, Function.update_of_ne hold]

theorem rename_none (h : fs old = none) : fs.rename ok old new = fs := by
  simp [rename, h]

/-- The new name has its old file or the renamed one. -/
theorem rename_new (ok : Bool) {f : File} (h : fs old = some f) :
    fs.rename ok old new new = fs new ∨ fs.rename ok old new new = some f := by
  cases ok <;> simp [rename, h]

end FileSystem

/-! ## The worker thread -/

inductive Operation
  | ENCRYPT | ENCRYPT_INTO | DECRYPT | DECRYPT_INTO
  deriving DecidableEq, Repr

inductive OperationResult
  | SUCCESS | FAILED | BUSY
  deriving DecidableEq, Repr

structure AesThread where
  operation : Operation
  key : Key
  input_path : String
  output_path : String
  output_buffer : Ptr
  output_buffer_size : Size
  /-- the address of the local `cb` -/
  cb : { p : Ptr // p ≠ 0 }
  self : Ptr

/-- The arguments of the call that `run` makes. -/
def AesThread.request (t : AesThread) : Request :=
  match t.operation with
  | .ENCRYPT | .DECRYPT => ⟨t.key, t.input_path, t.output_path, 0, 0, t.cb, t.self⟩
  | .ENCRYPT_INTO | .DECRYPT_INTO =>
    ⟨t.key, t.input_path, "", t.output_buffer, t.output_buffer_size, t.cb, t.self⟩

/-- `_dma_complete_callback`, after the `BUSY` that `run` starts with. -/
def operation_status (d : Delivery) : OperationResult :=
  match d.invoked with
  | some (_, is_success, _) => if is_success then .SUCCESS else .FAILED
  | none => .BUSY

/-- A run of the thread: the exception or the status that `get_status` gives,
and the files after it. -/
def AesThread.run (f : BlockFunction) (t : AesThread) (a : Answers) (w : StreamWrite)
    (s : DmaState) (fs : FileSystem) : Except Thrown OperationResult × FileSystem :=
  match do_transfer a t.request s with
  | (some e, _) => (.error e, fs)
  | (none, s') =>
    match s'.in_flight with
    | some fl =>
      let out := f.stream (s'.memory fl.tx_buffer)
      let d := (dma_callback (w.of_size fl.rx_size) (complete fl out s')).1
      (.ok (operation_status d), match d.file with
        | some (path, bytes) => fs.write path bytes
        | none => fs)
    | none => (.ok .BUSY, fs)

/-! ## The UI thread -/

/-- What the UI does to the files when the thread has sent its result. -/
def ui_handle (t : AesThread) (res : Except Thrown OperationResult) (setxattr rename : Bool)
    (fs : FileSystem) : FileSystem :=
  match res with
  | .ok .SUCCESS =>
    match t.operation with
    | .ENCRYPT =>
      match fs.setxattr setxattr t.output_path with
      | some fs' => fs'.rename rename t.output_path t.input_path
      | none => fs.remove t.output_path
    | .DECRYPT => fs.rename rename t.output_path t.input_path
    | .ENCRYPT_INTO | .DECRYPT_INTO => fs
  | .ok .FAILED | .ok .BUSY | .error _ => fs

/-- The handling touches the two files of the thread only. -/
theorem ui_handle_frame (t : AesThread) (res : Except Thrown OperationResult) (sx rn : Bool)
    (fs : FileSystem) {p : String} (hin : p ≠ t.input_path) (hout : p ≠ t.output_path) :
    ui_handle t res sx rn fs p = fs p := by
  rcases res with e | _ | _ | _
  · rfl
  · cases hop : t.operation <;> simp only [ui_handle, hop]
    · rcases hsx : fs.setxattr sx t.output_path with _ | fs'
      · exact FileSystem.remove_of_ne hout
      · exact (FileSystem.rename_of_ne hout hin).trans (FileSystem.setxattr_of_ne hsx hout)
    · exact FileSystem.rename_of_ne hout hin
  · rfl
  · rfl

/-- With no temporary file the handling leaves the original alone. -/
theorem ui_handle_none (t : AesThread) (res : Except Thrown OperationResult) (sx rn : Bool)
    {fs : FileSystem} (hout : fs t.output_path = none) (hne : t.input_path ≠ t.output_path) :
    ui_handle t res sx rn fs t.input_path = fs t.input_path := by
  rcases res with e | _ | _ | _
  · rfl
  · cases hop : t.operation <;> simp only [ui_handle, hop]
    · have hsx : fs.setxattr sx t.output_path = none := by simp [FileSystem.setxattr, hout]
      rw [hsx]
      exact FileSystem.remove_of_ne hne
    · rw [FileSystem.rename_none hout]
  · rfl
  · rfl

/-- A result in the temporary file replaces the original, with the attribute of
its operation, or leaves it alone. -/
theorem ui_handle_some {t : AesThread} (hop : t.operation = .ENCRYPT ∨ t.operation = .DECRYPT)
    (sx rn : Bool) {fs : FileSystem} {out : Bytes} (hout : fs t.output_path = some ⟨out, false⟩)
    (hne : t.input_path ≠ t.output_path) :
    ui_handle t (.ok .SUCCESS) sx rn fs t.input_path = fs t.input_path ∨
      ui_handle t (.ok .SUCCESS) sx rn fs t.input_path =
        some ⟨out, t.operation == .ENCRYPT⟩ := by
  rcases hop with hop | hop <;> simp only [ui_handle, hop]
  · cases sx
    · left
      simp only [FileSystem.setxattr, hout]
      exact FileSystem.remove_of_ne hne
    · have hsx : fs.setxattr true t.output_path =
          some (Function.update fs t.output_path (some ⟨out, true⟩)) := by
        simp [FileSystem.setxattr, hout]
      rw [hsx]
      rcases FileSystem.rename_new rn (Function.update_self t.output_path
        (some (⟨out, true⟩ : File)) fs) with h | h
      · exact Or.inl (h.trans (Function.update_of_ne hne _ _))
      · exact Or.inr h
  · exact FileSystem.rename_new rn hout

/-- What may go wrong in an operation, besides what the file itself answers. -/
structure Faults where
  /-- `start_aes_thread` returns 0 -/
  thread : Bool
  file_size : Bool
  tx_malloc : Ptr
  rx_malloc : Ptr
  open_input : Bool
  twoway : Int
  write : StreamWrite
  setxattr : Bool
  rename : Bool

/-- What the call of `_do_transfer` meets. -/
def Faults.answers (x : Faults) (file : Option File) : Answers where
  file_size := if x.file_size then file.map (·.content.length) else none
  tx_malloc := x.tx_malloc
  rx_malloc := x.rx_malloc
  input := if x.open_input then file.map (·.content) else none
  twoway := x.twoway

/-- An operation from the start of its thread to the end of its handling. -/
def operate (f : BlockFunction) (t : AesThread) (x : Faults) (s : DmaState) (fs : FileSystem) :
    FileSystem :=
  if x.thread then
    let (res, fs') := t.run f (x.answers (fs t.input_path)) x.write s fs
    ui_handle t res x.setxattr x.rename fs'
  else fs

/-! ## The thread and its transfer -/

/-- The engine runs the transfer of the thread: when it completes, the callback
writes `out` to the output file and reports success to the thread. -/
def Delivers (f : BlockFunction) (s : DmaState) (t : AesThread) (out : Bytes) : Prop :=
  ∃ fl, s.in_flight = some fl ∧ fl.rx_size.toNat = out.length ∧
    ∀ w, (dma_callback w (complete fl (f.stream (s.memory fl.tx_buffer)) s)).1 =
      ⟨some (t.output_path, w.map out.take), none, some (t.cb, true, t.self)⟩

/-- A file operation as the UI starts it: encryption of a plain file or
decryption of an encrypted one, with a temporary name that is not in use. -/
structure StartsOn (t : AesThread) (fs : FileSystem) (file : File) : Prop where
  op : t.operation = if file.is_encrypted then .DECRYPT else .ENCRYPT
  input : fs t.input_path = some file
  unused : fs t.output_path = none
  named : t.output_path ≠ ""

/-- A call in which every step succeeds knows the size of its input. -/
theorem Faults.aligned_of_allWell {x : Faults} {r : Request} {s : DmaState} {file : File}
    (h : (x.answers (some file)).AllWell r s) :
    (x.answers (some file)).aligned =
      aligned_size (BitVec.ofNat 32 file.content.length) AES_TEXT_WIDTH := by
  have hsize : x.file_size = true := by
    by_contra hno
    exact h.late (Or.inl (by simp [Faults.answers, hno]))
  simp [Answers.aligned, Faults.answers, hsize]

/-- A thread that reads and writes files. -/
structure AesThread.OnFiles (t : AesThread) : Prop where
  op : t.operation = .ENCRYPT ∨ t.operation = .DECRYPT
  named : t.output_path ≠ ""

theorem AesThread.OnFiles.request_eq {t : AesThread} (h : t.OnFiles) :
    t.request = ⟨t.key, t.input_path, t.output_path, 0, 0, t.cb, t.self⟩ := by
  unfold AesThread.request
  rcases h.op with hop | hop <;> rw [hop]

/-- A call that starts its transfer leaves the engine with that transfer. -/
theorem AesThread.OnFiles.delivers {t : AesThread} (h : t.OnFiles) (f : BlockFunction)
    {x : Faults} {s : DmaState} {file : File} (hw : s.WellFormed)
    (hf : (x.answers (some file)).Fresh s)
    (ha : (x.answers (some file)).AllWell t.request s) :
    Delivers f (do_transfer (x.answers (some file)) t.request s).2 t
      (transform f t.key file.content) := by
  have hnone := (starts_iff _ _ _).mpr ha
  rcases do_transfer_cases (x.answers (some file)) t.request s with ⟨hne, -⟩ | ⟨-, hst⟩
  · exact absurd hnone hne
  have hal := Faults.aligned_of_allWell ha
  generalize (do_transfer (x.answers (some file)) t.request s).2 = s' at hst ⊢
  have hmem : ∃ fl, s'.in_flight = some fl ∧ fl.rx_size = (x.answers (some file)).aligned ∧
      s'.memory fl.tx_buffer =
        DmaState.tx_contents t.key file.content (x.answers (some file)).aligned := by
    cases hst with
    | @started content _ _ _ hrx hin _ =>
      refine ⟨_, rfl, rfl, ?_⟩
      have hcontent : content = file.content := by
        cases ho : x.open_input <;> simp [Faults.answers, ho] at hin
        exact hin.symm
      have hkey : t.request.key = t.key := by rw [h.request_eq]
      simp [ready_to_start, with_buffers, DmaState.fill_tx, DmaState.setup, DmaState.stop,
        DmaState.set_config, hcontent, hkey]
  obtain ⟨fl, hfl, hrx, htx⟩ := hmem
  have hout : f.stream (s'.memory fl.tx_buffer) = transform f t.key file.content := by
    rw [htx, transform, hal]
  have hlen : (transform f t.key file.content).length =
      (x.answers (some file)).aligned.toNat := by
    rw [hal]
    exact length_transform f t.key file.content
  refine ⟨fl, hfl, by rw [hrx, hlen], ?_⟩
  intro w
  have hcb : (t.cb : Ptr) ≠ 0 := t.cb.property
  have hdel := hst.delivers hw hf fl hfl (transform f t.key file.content) hlen w
  rw [h.request_eq] at hdel
  simp only [h.named, hcb, ne_eq, not_false_eq_true, if_true] at hdel
  rw [hout, hdel]
  simp

/-! ## The files after an operation -/

namespace StartsOn

variable {t : AesThread} {fs : FileSystem} {file : File}

theorem apart (h : StartsOn t fs file) : t.input_path ≠ t.output_path := by
  intro heq
  have := h.input
  rw [heq, h.unused] at this
  cases this

theorem onFiles (h : StartsOn t fs file) : t.OnFiles := by
  refine ⟨?_, h.named⟩
  have hop := h.op
  cases henc : file.is_encrypted <;> rw [henc] at hop
  · exact Or.inl hop
  · exact Or.inr hop

/-- A thread that does not start its transfer leaves the files alone. -/
theorem run_thrown (f : BlockFunction) (w : StreamWrite) (fs : FileSystem) {a : Answers}
    {s : DmaState} (ha : ¬ a.AllWell t.request s) : ∃ e, t.run f a w s fs = (.error e, fs) := by
  rw [← starts_iff] at ha
  unfold AesThread.run
  rcases hd : do_transfer a t.request s with ⟨e | e, s'⟩
  · rw [hd] at ha
    exact absurd rfl ha
  · exact ⟨e, rfl⟩

/-- A thread whose transfer starts always reports success, and leaves in the
temporary file what the stream wrote. -/
theorem run_started (h : StartsOn t fs file) (f : BlockFunction) {x : Faults} {s : DmaState}
    (hw : s.WellFormed) (hf : (x.answers (some file)).Fresh s)
    (ha : (x.answers (some file)).AllWell t.request s) :
    t.run f (x.answers (some file)) x.write s fs =
      (.ok .SUCCESS, fs.write t.output_path
        ((x.write.of_size (x.answers (some file)).aligned).map
          (transform f t.key file.content).take)) := by
  have hnone := (starts_iff _ _ _).mpr ha
  obtain ⟨fl, hfl, hsize, hdel⟩ := h.onFiles.delivers f hw hf ha
  have hrx : fl.rx_size = (x.answers (some file)).aligned := by
    apply BitVec.eq_of_toNat_eq
    rw [hsize, length_transform, Faults.aligned_of_allWell ha]
  rcases hd : do_transfer (x.answers (some file)) t.request s with ⟨e, s'⟩
  rw [hd] at hnone hfl hdel
  simp only at hnone hfl hdel
  subst hnone
  simp only [AesThread.run, hd, hfl, hdel, hrx, operation_status, if_true]

/-- What the UI makes of the original file, when the thread reports success. -/
theorem handled (h : StartsOn t fs file) (out : Bytes) (w : StreamWrite) (setxattr rename : Bool) :
    ui_handle t (.ok .SUCCESS) setxattr rename
        (fs.write t.output_path (w.map out.take)) t.input_path =
      match w with
      | some k => if rename && (file.is_encrypted || setxattr)
          then some ⟨out.take k, !file.is_encrypted⟩ else some file
      | none => some file := by
  have hne := h.apart
  have hin := h.input
  have hout := h.unused
  have hop := h.op
  unfold ui_handle
  cases henc : file.is_encrypted <;> rw [henc] at hop <;> simp only [hop]
  · -- encryption sets the attribute first, which fails when there is no temporary file
    cases w with
    | none => simp [FileSystem.write, FileSystem.setxattr, FileSystem.remove, hout, hin, hne]
    | some k =>
      cases setxattr <;> cases rename <;>
        simp [FileSystem.write, FileSystem.setxattr, FileSystem.remove, FileSystem.rename, hout,
          hin, hne]
  · cases w with
    | none => simp [FileSystem.write, FileSystem.rename, hout, hin]
    | some k =>
      cases rename <;> simp [FileSystem.write, FileSystem.rename, hout, hin, hne]

end StartsOn

/-! ## The law -/

/-- The file is the old one, or the complete result with its new attribute. -/
def OldOrComplete (f : BlockFunction) (t : AesThread) (file : File) (fs : FileSystem) : Prop :=
  fs t.input_path = some file ∨
    fs t.input_path = some ⟨result f t.key file.content, !file.is_encrypted⟩

/-- The transfer completes, the stream writes only a part of the result, which it cannot but do
for a size near `2 ^ 31` or above, and the steps of the UI succeed. -/
structure ShortReplacement (t : AesThread) (x : Faults) (s : DmaState) (file : File) : Prop where
  thread : x.thread = true
  started : (x.answers (some file)).AllWell t.request s
  short : ∃ k, x.write = some k ∧
    (k < (x.answers (some file)).aligned.toNat ∨ 2 ^ 31 ≤ file.content.length + 15)
  setxattr : file.is_encrypted = true ∨ x.setxattr = true
  rename : x.rename = true

section Written

variable (f : BlockFunction) {t : AesThread} {x : Faults} {s : DmaState} {file : File} (k : ℕ)

/-- What the write of `k` bytes at most leaves of the result of the engine. -/
theorem written_eq_result (ha : (x.answers (some file)).AllWell t.request s)
    (hlen : file.content.length + 15 < 2 ^ 31)
    (hk : (x.answers (some file)).aligned.toNat ≤ k) :
    (transform f t.key file.content).take
      (min k (x.answers (some file)).aligned.toInt.toNat) = result f t.key file.content := by
  rw [Faults.aligned_of_allWell ha] at hk ⊢
  have hal := aligned_size_padded file.content.length (by omega)
  have hlt := padding_lt (k := 16) (by omega) file.content.length
  have hpad := add_padding (k := 16) (by omega) file.content.length
  rw [transform_eq_result f t.key _ hlen, BitVec.toInt_eq_toNat_cond, if_pos (by omega),
    Int.toNat_natCast, Nat.min_eq_right hk, List.take_of_length_le]
  rw [length_result, hal]

theorem written_ne_result (ha : (x.answers (some file)).AllWell t.request s)
    (hshort : k < (x.answers (some file)).aligned.toNat ∨ 2 ^ 31 ≤ file.content.length + 15) :
    (transform f t.key file.content).take
      (min k (x.answers (some file)).aligned.toInt.toNat) ≠ result f t.key file.content := by
  intro heq
  have hle : (result f t.key file.content).length ≤
      min k (x.answers (some file)).aligned.toInt.toNat := by
    rw [← heq, List.length_take]
    exact Nat.min_le_left _ _
  rw [Faults.aligned_of_allWell ha] at hshort hle
  by_cases hlen : 2 ^ 31 ≤ file.content.length + 15
  · have hlt := written_lt_result f t.key _ hlen
    omega
  · rw [length_result] at hle
    rw [aligned_size_padded _ (by omega)] at hshort
    omega

end Written

/-- After an operation, whatever failed, the file is the old one or the
complete result exactly when no short result replaces it. -/
theorem the_file_is_old_or_complete_iff (f : BlockFunction) (t : AesThread) (x : Faults)
    (s : DmaState) (fs : FileSystem) (file : File) (hs : Reachable s)
    (hf : (x.answers (some file)).Fresh s) (h : StartsOn t fs file) :
    OldOrComplete f t file (operate f t x s fs) ↔ ¬ ShortReplacement t x s file := by
  unfold operate OldOrComplete
  cases hthread : x.thread
  · simp only [Bool.false_eq_true, if_false]
    refine ⟨fun _ hshort => ?_, fun _ => Or.inl h.input⟩
    have := hshort.thread
    rw [hthread] at this
    cases this
  simp only [if_true, h.input]
  by_cases ha : (x.answers (some file)).AllWell t.request s
  · rw [h.run_started f hs.wellFormed hf ha]
    simp only [h.handled]
    cases hwrite : x.write with
    | none =>
      refine ⟨fun _ hshort => ?_, fun _ => Or.inl rfl⟩
      obtain ⟨k, hk, -⟩ := hshort.short
      rw [hwrite] at hk
      cases hk
    | some k =>
      simp only [StreamWrite.of_size, Option.map_some]
      cases hdone : x.rename && (file.is_encrypted || x.setxattr)
      · refine ⟨fun _ hshort => ?_, fun _ => Or.inl rfl⟩
        have h1 := hshort.rename
        have h2 := hshort.setxattr
        rcases h2 with h2 | h2 <;> simp [h1, h2] at hdone
      · simp only [if_true, Option.some.injEq, File.mk.injEq, and_true]
        have hsteps : x.rename = true ∧ (file.is_encrypted = true ∨ x.setxattr = true) := by
          simpa using hdone
        constructor
        · rintro (hold | hnew) hshort
          · have := congrArg File.is_encrypted hold
            simp at this
          · obtain ⟨k', hk', hlt⟩ := hshort.short
            rw [hwrite, Option.some.injEq] at hk'
            subst hk'
            exact written_ne_result f k ha hlt hnew
        · intro hnot
          right
          apply written_eq_result f k ha
          · by_contra hlen
            exact hnot ⟨hthread, ha, ⟨k, hwrite, Or.inr (by omega)⟩, hsteps.2, hsteps.1⟩
          · by_contra hlt
            exact hnot ⟨hthread, ha, ⟨k, hwrite, Or.inl (by omega)⟩, hsteps.2, hsteps.1⟩
  · obtain ⟨e, he⟩ := StartsOn.run_thrown f x.write fs ha
    rw [he]
    exact ⟨fun _ hshort => ha hshort.started, fun _ => Or.inl h.input⟩

/-! ### A short write -/

/-- An engine that sends each block back as it is. -/
def echo : BlockFunction := ⟨fun _ b => b, fun _ _ h => h⟩

/-- One plain file of three bytes. -/
def song : File := ⟨[1, 2, 3], false⟩

def directory : FileSystem := fun path => if path = "song" then some song else none

def encryptSong : AesThread :=
  ⟨.ENCRYPT, request.key, "song", "tmp", 0, 0, ⟨1, by decide⟩, 2⟩

theorem encryptSong_startsOn : StartsOn encryptSong directory song :=
  ⟨rfl, rfl, rfl, by decide⟩

/-- All goes well but the write, which puts `k` bytes into the file. -/
def writes (k : ℕ) : Faults := ⟨true, true, 1, 2, true, 0, some k, true, true⟩

theorem writes_fresh (k : ℕ) (file : File) : ((writes k).answers (some file)).Fresh idle :=
  ⟨Or.inr (by simp [idle]), Or.inr (by simp [writes, Faults.answers, idle])⟩

/-- With all 16 bytes written the complete result replaces the file. -/
theorem a_full_write_is_old_or_complete_iff :
    OldOrComplete echo encryptSong song
        (operate echo encryptSong (writes 16) idle directory) ↔
      ¬ ShortReplacement encryptSong (writes 16) idle song :=
  the_file_is_old_or_complete_iff _ _ _ _ _ _ idle_reachable (writes_fresh 16 _)
    encryptSong_startsOn

/-- With no byte written an empty file, marked as encrypted, replaces the song. -/
theorem a_short_write_loses_the_file :
    operate echo encryptSong (writes 0) idle directory "song" = some ⟨[], true⟩ ∧
      ¬ OldOrComplete echo encryptSong song
        (operate echo encryptSong (writes 0) idle directory) := by
  have hlost : operate echo encryptSong (writes 0) idle directory "song" = some ⟨[], true⟩ := by
    decide +kernel
  have hlen : (result echo encryptSong.key song.content).length = 16 := by decide +kernel
  refine ⟨hlost, ?_⟩
  rintro (hold | hnew)
  · have := hlost.symm.trans hold
    simp [song] at this
  · have := hlost.symm.trans hnew
    simp only [Option.some.injEq, File.mk.injEq] at this
    rw [← this.1] at hlen
    cases hlen

end aes
