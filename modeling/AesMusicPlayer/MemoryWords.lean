-- Words of four bytes as they stand in memory, the low byte first. Nothing here knows a
-- particular system.
import Mathlib.Data.List.Basic
import Mathlib.Tactic.Common

namespace memory_words

abbrev Byte := BitVec 8

abbrev Word := BitVec 32

/-! ## One word -/

def word (a b c d : Byte) : Word := d ++ c ++ b ++ a

def bytes_of (w : Word) : List Byte :=
  [w.extractLsb' 0 8, w.extractLsb' 8 8, w.extractLsb' 16 8, w.extractLsb' 24 8]

@[simp] theorem length_bytes_of (w : Word) : (bytes_of w).length = 4 := rfl

theorem extract_low {n : ℕ} (x : BitVec n) (a : Byte) : (x ++ a).extractLsb' 0 8 = a := by
  rw [BitVec.extractLsb'_append_eq_right]

theorem extract_high {n : ℕ} (x : BitVec n) (a : Byte) (k : ℕ) :
    (x ++ a).extractLsb' (8 + k) 8 = x.extractLsb' k 8 := by
  rw [BitVec.extractLsb'_append_eq_of_le (by omega), Nat.add_sub_cancel_left]

@[simp] theorem bytes_of_word (a b c d : Byte) : bytes_of (word a b c d) = [a, b, c, d] := by
  have hb := extract_high (d ++ c ++ b) a 0
  have hc := (extract_high (d ++ c ++ b) a 8).trans (extract_high (d ++ c) b 0)
  have hd := (extract_high (d ++ c ++ b) a 16).trans
    ((extract_high (d ++ c) b 8).trans (extract_high d c 0))
  rw [extract_low] at hb hc
  unfold bytes_of word
  rw [extract_low, hb, hc, hd, BitVec.extractLsb'_eq_self]

theorem word_bytes_of (w : Word) : word (w.extractLsb' 0 8) (w.extractLsb' 8 8)
    (w.extractLsb' 16 8) (w.extractLsb' 24 8) = w := by
  have h₂ : w.extractLsb' 24 8 ++ w.extractLsb' 16 8 = w.extractLsb' 16 16 :=
    BitVec.extractLsb'_append_extractLsb'_eq_extractLsb' rfl
  have h₁ : w.extractLsb' 16 16 ++ w.extractLsb' 8 8 = w.extractLsb' 8 24 :=
    BitVec.extractLsb'_append_extractLsb'_eq_extractLsb' rfl
  have h₀ : w.extractLsb' 8 24 ++ w.extractLsb' 0 8 = w.extractLsb' 0 32 :=
    BitVec.extractLsb'_append_extractLsb'_eq_extractLsb' rfl
  unfold word
  rw [h₂, h₁, h₀, BitVec.extractLsb'_eq_self]

/-- The first bytes of the word are written over. -/
def put (bs : List Byte) (w : Word) : Word :=
  let cs := bs ++ (bytes_of w).drop bs.length
  word (cs.getD 0 0) (cs.getD 1 0) (cs.getD 2 0) (cs.getD 3 0)

theorem bytes_of_put {bs : List Byte} (w : Word) (h : bs.length ≤ 4) :
    bytes_of (put bs w) = bs ++ (bytes_of w).drop bs.length := by
  have hlen : (bs ++ (bytes_of w).drop bs.length).length = 4 := by
    rw [List.length_append, List.length_drop, length_bytes_of]
    omega
  unfold put
  generalize bs ++ (bytes_of w).drop bs.length = cs at hlen
  match cs, hlen with
  | [a, b, c, d], _ => exact bytes_of_word a b c d

/-! ## Many words -/

/-- The words in these bytes. What is left of a last word is left out. -/
def words : List Byte → List Word
  | a :: b :: c :: d :: bs => word a b c d :: words bs
  | _ => []

def bytes (ws : List Word) : List Byte := ws.flatMap bytes_of

@[simp] theorem bytes_nil : bytes [] = [] := rfl

@[simp] theorem bytes_cons (w : Word) (ws : List Word) : bytes (w :: ws) = bytes_of w ++ bytes ws :=
  List.flatMap_cons

@[simp] theorem bytes_append (ws vs : List Word) : bytes (ws ++ vs) = bytes ws ++ bytes vs :=
  List.flatMap_append

@[simp] theorem length_bytes (ws : List Word) : (bytes ws).length = 4 * ws.length := by
  induction ws with
  | nil => rfl
  | cons w ws ih =>
    rw [bytes_cons, List.length_append, ih, length_bytes_of, List.length_cons]
    omega

/-- Whole words come back. -/
theorem bytes_words (bs : List Byte) (h : bs.length % 4 = 0) : bytes (words bs) = bs := by
  induction bs using words.induct with
  | case1 a b c d bs ih =>
    simp only [List.length_cons] at h
    rw [words, bytes_cons, bytes_of_word, ih (by omega)]
    rfl
  | case2 bs hshort =>
    match bs, h with
    | [], _ => rfl
    | a :: b :: c :: d :: bs, _ => exact absurd rfl (hshort a b c d bs)

/-- And so do the words. -/
theorem words_bytes (ws : List Word) : words (bytes ws) = ws := by
  induction ws with
  | nil => rfl
  | cons w ws ih =>
    rw [bytes_cons]
    exact congrArg₂ List.cons (word_bytes_of w) ih

theorem length_words (bs : List Byte) : (words bs).length = bs.length / 4 := by
  induction bs using words.induct with
  | case1 a b c d bs ih =>
    rw [words, List.length_cons, ih]
    simp only [List.length_cons]
    omega
  | case2 bs hshort =>
    match bs with
    | [] | [_] | [_, _] | [_, _, _] => simp [words]
    | a :: b :: c :: d :: bs => exact absurd rfl (hshort a b c d bs)

end memory_words
