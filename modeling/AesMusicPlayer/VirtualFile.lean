-- The buffer that libsndfile reads as a file, `virtual_file_wrapper`, beside the
-- file that it stands for.
import AesMusicPlayer.Lockstep
import AesMusicPlayer.RandomAccess

open lockstep random_access

namespace virtual_file_wrapper

/-! ## The wrapper -/

inductive Whence
  | SEEK_SET | SEEK_CUR | SEEK_END
  deriving DecidableEq, Repr

/-- The bytes at `_buffer`, and the numbers, which do not overflow. -/
structure VirtualFile where
  buffer : List (BitVec 8)
  buffer_size : Int
  offset : Int
  size_eq : buffer_size = buffer.length

namespace VirtualFile

/-- `open`. -/
def opened (buffer : List (BitVec 8)) : VirtualFile := ⟨buffer, buffer.length, 0, rfl⟩

def get_filelen (w : VirtualFile) : Int := w.buffer_size

def seek (offset : Int) (whence : Whence) (w : VirtualFile) : Int × VirtualFile :=
  let w' := match whence with
    | .SEEK_SET => { w with offset := offset }
    | .SEEK_CUR => { w with offset := w.offset + offset }
    | .SEEK_END => { w with offset := w.buffer_size + offset }
  (if w'.offset < 0 ∨ w'.offset > w'.buffer_size then -1 else w'.offset, w')

/-- With the bytes that are copied to `ptr`. -/
def read (count : Int) (w : VirtualFile) : Int × List (BitVec 8) × VirtualFile :=
  if w.offset < 0 ∨ w.offset > w.buffer_size then (0, [], w)
  else
    let actual_count := min count (w.buffer_size - w.offset)
    (actual_count, (w.buffer.drop w.offset.toNat).take actual_count.toNat,
      { w with offset := w.offset + actual_count })

/-- The bytes at `ptr` are written, as many as there is room for. -/
def write (data : List (BitVec 8)) (w : VirtualFile) : Int × VirtualFile :=
  if h : w.offset < 0 ∨ w.offset > w.buffer_size then (0, w)
  else
    let actual_count := min (data.length : Int) (w.buffer_size - w.offset)
    (actual_count, { w with
      buffer := overwrite w.buffer w.offset.toNat (data.take actual_count.toNat)
      size_eq := by
        have hsize := w.size_eq
        rw [length_overwrite]
        · exact hsize
        · rw [List.length_take]
          omega })

def tell (w : VirtualFile) : Int := w.offset

end VirtualFile

/-! ## The calls -/

inductive Op
  | get_filelen
  | seek (offset : Int) (whence : Whence)
  | read (count : ℕ)
  | write (data : List (BitVec 8))
  | tell
  deriving DecidableEq

/-- What a call gives, and what it leaves behind. -/
structure Answer where
  result : Int
  bytes : List (BitVec 8)
  position : Int
  content : List (BitVec 8)
  deriving DecidableEq

def VirtualFile.answer (result : Int) (bytes : List (BitVec 8)) (w : VirtualFile) :
    Answer × VirtualFile :=
  (⟨result, bytes, w.offset, w.buffer⟩, w)

/-- The functions of `sf_virtual_io_wrapper`. -/
def wrapper : Machine VirtualFile Op Answer where
  step op w := match op with
    | .get_filelen => w.answer w.get_filelen []
    | .seek offset whence => (w.seek offset whence).2.answer (w.seek offset whence).1 []
    | .read count => (w.read count).2.2.answer (w.read count).1 (w.read count).2.1
    | .write data => (w.write data).2.answer (w.write data).1 []
    | .tell => w.answer w.tell []

/-! ## The file -/

/-- The position that a seek asks for. -/
def target (offset : Int) (size position : Int) : Whence → Int
  | .SEEK_SET => offset
  | .SEEK_CUR => position + offset
  | .SEEK_END => size + offset

def answer (result : Int) (bytes : List (BitVec 8)) (f : File (BitVec 8)) :
    Answer × File (BitVec 8) :=
  (⟨result, bytes, f.position, f.content⟩, f)

/-- A random-access file of a fixed size. -/
def file : Machine (File (BitVec 8)) Op Answer where
  step op f := match op with
    | .get_filelen => answer f.content.length [] f
    | .seek offset whence =>
      let r := f.seek (target offset f.content.length f.position whence)
      answer (r.1.elim (-1) Int.ofNat) [] r.2
    | .read count => answer (f.read count).1.length (f.read count).1 (f.read count).2
    | .write data => answer (f.write data).1 [] (f.write data).2
    | .tell => answer f.position [] f

/-- The wrapper is at the position of the file, with its content. -/
structure StandsFor (w : VirtualFile) (f : File (BitVec 8)) : Prop where
  buffer : w.buffer = f.content
  offset : w.offset = f.position

/-- A seek stays in the file, and a write finds no room or has nothing to write. -/
def Fits (w : VirtualFile) : Op → Prop
  | .seek offset whence =>
    0 ≤ target offset w.buffer_size w.offset whence ∧
      target offset w.buffer_size w.offset whence ≤ w.buffer_size
  | .write data => data = [] ∨ w.offset = w.buffer_size
  | _ => True

/-! ## One call -/

section Step

variable {w : VirtualFile} {f : File (BitVec 8)}

theorem StandsFor.size (h : StandsFor w f) : w.buffer_size = f.content.length := by
  rw [w.size_eq, h.buffer]

/-- The position of the file is one that `_read` and `_write` take. -/
theorem StandsFor.in_range (h : StandsFor w f) : ¬ (w.offset < 0 ∨ w.offset > w.buffer_size) := by
  have hin := f.in_file
  rw [h.offset, h.size]
  omega

/-- As many bytes are moved as there are from the position on. -/
theorem StandsFor.actual_count (h : StandsFor w f) (count : ℕ) :
    min (count : Int) (w.buffer_size - w.offset) = f.room count := by
  have hin := f.in_file
  rw [h.offset, h.size]
  unfold File.room
  omega

theorem StandsFor.answer (h : StandsFor w f) (result : Int) (bytes : List (BitVec 8)) :
    (w.answer result bytes).1 = (virtual_file_wrapper.answer result bytes f).1 ∧
      StandsFor (w.answer result bytes).2 (virtual_file_wrapper.answer result bytes f).2 := by
  refine ⟨?_, h⟩
  unfold VirtualFile.answer virtual_file_wrapper.answer
  rw [h.buffer, h.offset]

theorem seek_offset (offset : Int) (whence : Whence) (w : VirtualFile) :
    (w.seek offset whence).2.offset = target offset w.buffer_size w.offset whence := by
  cases whence <;> rfl

theorem seek_result (offset : Int) (whence : Whence) (w : VirtualFile) :
    (w.seek offset whence).1 =
      if target offset w.buffer_size w.offset whence < 0 ∨
          target offset w.buffer_size w.offset whence > w.buffer_size then -1
        else target offset w.buffer_size w.offset whence := by
  cases whence <;> rfl

theorem fits_seek {offset : Int} {whence : Whence} :
    Fits w (.seek offset whence) ↔ 0 ≤ target offset w.buffer_size w.offset whence ∧
      target offset w.buffer_size w.offset whence ≤ w.buffer_size :=
  Iff.rfl

theorem StandsFor.target (h : StandsFor w f) (offset : Int) (whence : Whence) :
    target offset w.buffer_size w.offset whence =
      virtual_file_wrapper.target offset f.content.length f.position whence := by
  rw [h.size, h.offset]

theorem seek_keeps (h : StandsFor w f) {offset : Int} {whence : Whence}
    (hfits : Fits w (.seek offset whence)) :
    (wrapper.step (.seek offset whence) w).1 = (file.step (.seek offset whence) f).1 ∧
      StandsFor (wrapper.step (.seek offset whence) w).2
        (file.step (.seek offset whence) f).2 := by
  rw [fits_seek] at hfits
  have hoff := seek_offset offset whence w
  have hres := seek_result offset whence w
  rw [if_neg (by omega)] at hres
  have hbuf : (w.seek offset whence).2.buffer = w.buffer := by
    cases whence <;> rfl
  rw [h.target, h.size] at hfits
  rw [h.target] at hoff hres
  obtain ⟨hsome, hcont, hpos⟩ := File.seek_of_mem hfits
  have hnext : StandsFor (w.seek offset whence).2
      (f.seek (virtual_file_wrapper.target offset f.content.length f.position whence)).2 :=
    ⟨by rw [hbuf, hcont, h.buffer], by rw [hoff, hpos]⟩
  simp only [wrapper, file]
  rw [hsome, Option.elim_some, Int.ofNat_eq_natCast, Int.toNat_of_nonneg hfits.1, hres]
  exact hnext.answer _ _

theorem read_keeps (h : StandsFor w f) (count : ℕ) :
    (wrapper.step (.read count) w).1 = (file.step (.read count) f).1 ∧
      StandsFor (wrapper.step (.read count) w).2 (file.step (.read count) f).2 := by
  have hread : w.read count = ((f.room count : Int), (f.read count).1,
      { w with offset := w.offset + f.room count }) := by
    unfold VirtualFile.read
    rw [if_neg h.in_range, h.actual_count]
    simp only [h.buffer, h.offset, Int.toNat_natCast]
    rfl
  have hlen : ((f.read count).1.length : Int) = f.room count := by
    have hle := f.room_le count
    unfold File.read
    rw [List.length_take, List.length_drop]
    omega
  have hnext : StandsFor { w with offset := w.offset + f.room count } (f.read count).2 := by
    refine ⟨h.buffer, ?_⟩
    simp only [h.offset]
    rfl
  simp only [wrapper, file]
  rw [hread, hlen]
  exact hnext.answer _ _

/-- A write leaves the buffer as it is when there is nothing to write. -/
theorem write_keeps (h : StandsFor w f) {data : List (BitVec 8)} (hfits : Fits w (.write data)) :
    (wrapper.step (.write data) w).1 = (file.step (.write data) f).1 ∧
      StandsFor (wrapper.step (.write data) w).2 (file.step (.write data) f).2 := by
  have hroom : f.room data.length = 0 := by
    rw [File.room_eq_zero, List.length_eq_zero_iff]
    refine hfits.imp id fun heq => ?_
    rw [h.offset, h.size] at heq
    exact Int.ofNat_inj.mp heq
  have hcount := h.actual_count data.length
  have hwrite : (w.write data).1 = 0 ∧ (w.write data).2.buffer = w.buffer ∧
      (w.write data).2.offset = w.offset := by
    unfold VirtualFile.write
    rw [dif_neg h.in_range]
    simp only [hcount, hroom, Int.natCast_zero, Int.toNat_zero, List.take_zero, overwrite_nil]
    exact ⟨trivial, trivial, trivial⟩
  have hfile : (f.write data).1 = 0 ∧ (f.write data).2.content = f.content ∧
      (f.write data).2.position = f.position := by
    unfold File.write
    simp only [hroom, List.take_zero, overwrite_nil, Nat.add_zero]
    exact ⟨trivial, trivial, trivial⟩
  have hnext : StandsFor (w.write data).2 (f.write data).2 :=
    ⟨by rw [hwrite.2.1, hfile.2.1, h.buffer], by rw [hwrite.2.2, hfile.2.2, h.offset]⟩
  simp only [wrapper, file]
  rw [hwrite.1, hfile.1]
  exact hnext.answer _ _

/-- A call that fits has the same effect on both. -/
theorem step_keeps (h : StandsFor w f) {op : Op} (hfits : Fits w op) :
    (wrapper.step op w).1 = (file.step op f).1 ∧
      StandsFor (wrapper.step op w).2 (file.step op f).2 := by
  cases op with
  | get_filelen =>
    simp only [wrapper, file, VirtualFile.get_filelen]
    rw [h.size]
    exact h.answer _ _
  | seek offset whence => exact seek_keeps h hfits
  | read count => exact read_keeps h count
  | write data => exact write_keeps h hfits
  | tell =>
    simp only [wrapper, file, VirtualFile.tell]
    rw [h.offset]
    exact h.answer _ _

/-- A seek out of the file moves the wrapper and not the file, and a write moves the file and
not the wrapper. -/
theorem fits_of_same_answer (h : StandsFor w f) {op : Op}
    (heq : (wrapper.step op w).1 = (file.step op f).1) : Fits w op := by
  have hpos := congrArg Answer.position heq
  cases op with
  | get_filelen => trivial
  | read count => trivial
  | tell => trivial
  | seek offset whence =>
    by_contra hno
    have hmove : (w.seek offset whence).2.offset =
        virtual_file_wrapper.target offset f.content.length f.position whence := by
      rw [seek_offset, h.target]
    rw [fits_seek, h.target, h.size] at hno
    simp only [wrapper, file, VirtualFile.answer, virtual_file_wrapper.answer] at hpos
    rw [hmove, File.seek_of_not_mem hno] at hpos
    have hin := f.in_file
    simp only at hpos
    omega
  | write data =>
    have hstay : (w.write data).2.offset = w.offset := by
      unfold VirtualFile.write
      rw [dif_neg h.in_range]
    simp only [wrapper, file, VirtualFile.answer, virtual_file_wrapper.answer] at hpos
    rw [hstay, h.offset] at hpos
    have hroom : f.room data.length = 0 := by
      have hadd : (f.write data).2.position = f.position + f.room data.length := rfl
      omega
    rw [File.room_eq_zero, List.length_eq_zero_iff] at hroom
    refine hroom.imp id fun hend => ?_
    rw [h.offset, h.size, hend]

end Step

/-! ## All calls -/

/-- The wrapper gives the results of a file of its size, with its position and its content
after each call, exactly when each seek stays in the file and no write has a byte to write. -/
theorem behaves_as_a_file_iff (buffer : List (BitVec 8)) (ops : List Op) :
    wrapper.answers (.opened buffer) ops = file.answers (.opened buffer) ops ↔
      ∀ e ∈ wrapper.finds (.opened buffer) ops, Fits e.1 e.2 :=
  answers_eq_iff (R := StandsFor) (fun _ _ _ h _ => step_keeps h)
    (fun _ _ _ h _ => fits_of_same_answer h) ⟨rfl, rfl⟩ fun _ _ => trivial

/-- The second byte is written over the first, and a seek out of the file is not forgotten. -/
theorem two_writes_and_a_seek :
    wrapper.answers (.opened [0, 0]) [.write [1], .write [2], .seek 3 .SEEK_SET, .tell] =
        [⟨1, [], 0, [1, 0]⟩, ⟨1, [], 0, [2, 0]⟩, ⟨-1, [], 3, [2, 0]⟩, ⟨3, [], 3, [2, 0]⟩] ∧
      file.answers (.opened [0, 0]) [.write [1], .write [2], .seek 3 .SEEK_SET, .tell] =
        [⟨1, [], 1, [1, 0]⟩, ⟨1, [], 2, [1, 2]⟩, ⟨-1, [], 2, [1, 2]⟩, ⟨2, [], 2, [1, 2]⟩] ∧
      wrapper.answers (.opened [0, 0]) [.write [1], .write [2], .seek 3 .SEEK_SET, .tell] ≠
        file.answers (.opened [0, 0]) [.write [1], .write [2], .seek 3 .SEEK_SET, .tell] := by
  decide

end virtual_file_wrapper
