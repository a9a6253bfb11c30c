-- Files of a fixed size with one position, for reads, writes and seeks. The
-- position stays in the file. Nothing here knows a particular program.
import Mathlib.Data.List.Basic
import Mathlib.Tactic.Common

namespace random_access

variable {α : Type*}

/-- `data` is copied over the elements from `place` on. -/
def overwrite (l : List α) (place : ℕ) (data : List α) : List α :=
  l.take place ++ data ++ l.drop (place + data.length)

theorem overwrite_nil (l : List α) (place : ℕ) : overwrite l place [] = l := by
  simp [overwrite]

theorem length_overwrite {l : List α} {place : ℕ} {data : List α}
    (h : place + data.length ≤ l.length) : (overwrite l place data).length = l.length := by
  simp only [overwrite, List.length_append, List.length_take, List.length_drop]
  omega

structure File (α : Type*) where
  content : List α
  position : ℕ
  in_file : position ≤ content.length

namespace File

def opened (content : List α) : File α := ⟨content, 0, Nat.zero_le _⟩

/-- How many of `count` elements there are from the position on. -/
def room (f : File α) (count : ℕ) : ℕ := min count (f.content.length - f.position)

theorem room_le (f : File α) (count : ℕ) : f.position + f.room count ≤ f.content.length := by
  have h := f.in_file
  unfold room
  omega

theorem room_eq_zero {f : File α} {count : ℕ} :
    f.room count = 0 ↔ count = 0 ∨ f.position = f.content.length := by
  have h := f.in_file
  unfold room
  omega

def read (count : ℕ) (f : File α) : List α × File α :=
  ((f.content.drop f.position).take (f.room count),
    ⟨f.content, f.position + f.room count, f.room_le count⟩)

theorem length_take_room (f : File α) (data : List α) :
    (data.take (f.room data.length)).length = f.room data.length := by
  unfold room
  rw [List.length_take, Nat.min_eq_left (Nat.min_le_left ..)]

def write (data : List α) (f : File α) : ℕ × File α :=
  (f.room data.length,
    ⟨overwrite f.content f.position (data.take (f.room data.length)),
      f.position + f.room data.length, by
        have hroom := f.room_le data.length
        rw [length_overwrite (by rw [length_take_room]; exact hroom)]
        exact hroom⟩)

/-- A seek outside the file fails. -/
def seek (target : Int) (f : File α) : Option ℕ × File α :=
  if h : 0 ≤ target ∧ target ≤ f.content.length then
    (some target.toNat, ⟨f.content, target.toNat, by omega⟩)
  else (none, f)

theorem seek_of_mem {f : File α} {target : Int}
    (h : 0 ≤ target ∧ target ≤ f.content.length) :
    (f.seek target).1 = some target.toNat ∧ (f.seek target).2.content = f.content ∧
      ((f.seek target).2.position : Int) = target := by
  unfold seek
  rw [dif_pos h]
  exact ⟨rfl, rfl, Int.toNat_of_nonneg h.1⟩

theorem seek_of_not_mem {f : File α} {target : Int}
    (h : ¬ (0 ≤ target ∧ target ≤ f.content.length)) : f.seek target = (none, f) := by
  unfold seek
  rw [dif_neg h]

end File

end random_access
