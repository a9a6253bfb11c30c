-- Words on a serial line, most significant bit first, and the list of what has
-- happened in a run up to a cycle. Nothing here knows a particular interface.
import Mathlib.Data.List.Basic
import Mathlib.Data.List.Infix
import Mathlib.Tactic.Common

namespace serial

/-! ## The bits of a word -/

section Bits

variable {W : ℕ}

/-- The bits of a word, most significant first. -/
def bits (w : BitVec W) : List Bool := (List.range W).map w.getMsbD

@[simp] theorem bits_length (w : BitVec W) : (bits w).length = W := by
  unfold bits
  rw [List.length_map, List.length_range]

theorem bits_getElem (w : BitVec W) (k : ℕ) (hk : k < (bits w).length) :
    (bits w)[k] = w.getMsbD k := by
  simp only [bits, List.getElem_map, List.getElem_range]

/-- One more bit is on the line. -/
theorem take_bits_succ (w : BitVec W) {c : ℕ} (hc : c < W) :
    (bits w).take (c + 1) = (bits w).take c ++ [w.getMsbD c] := by
  have hlen : c < (bits w).length := by rw [bits_length]; exact hc
  rw [List.take_add_one, List.getElem?_eq_getElem hlen, bits_getElem, Option.toList_some]

theorem take_bits_self (w : BitVec W) : (bits w).take W = bits w :=
  List.take_of_length_le (by rw [bits_length])

theorem eq_of_bits_eq {v w : BitVec W} (h : bits v = bits w) : v = w := by
  apply BitVec.eq_of_getMsbD_eq
  intro k hk
  have hv := bits_getElem v k (by rw [bits_length]; exact hk)
  have hw := bits_getElem w k (by rw [bits_length]; exact hk)
  rw [← hv, ← hw]
  simp only [h]

/-- The first bit of a word that was shifted `c` times. -/
theorem msb_shiftLeft (w : BitVec W) (c : ℕ) : (w <<< c).msb = w.getMsbD c := by
  rw [BitVec.msb_eq_getMsbD_zero, BitVec.getMsbD_shiftLeft, Nat.zero_add]

/-- A shift register takes one bit in at its low end. -/
def shiftIn (r : BitVec W) (b : Bool) : BitVec W := (r <<< 1) ||| (BitVec.ofBool b).setWidth W

theorem getMsbD_shiftIn (r : BitVec W) (b : Bool) {k : ℕ} (hk : k < W) :
    (shiftIn r b).getMsbD k = if k + 1 < W then r.getMsbD (k + 1) else b := by
  unfold shiftIn
  rw [BitVec.getMsbD_or, BitVec.getMsbD_shiftLeft]
  simp only [BitVec.getMsbD, BitVec.getLsbD_setWidth, BitVec.getLsbD_ofBool]
  by_cases hlast : k + 1 < W
  · have h0 : ¬ W - 1 - k = 0 := by omega
    simp [hlast, h0]
  · have h0 : W - 1 - k = 0 := by omega
    have hpos : 0 < W := by omega
    simp [hlast, hk, h0, hpos]

/-- The register holds the bits but the oldest, and the new one. -/
theorem bits_shiftIn (r : BitVec W) (b : Bool) (hW : 0 < W) :
    bits (shiftIn r b) = (bits r).drop 1 ++ [b] := by
  apply List.ext_getElem
  · rw [List.length_append, List.length_drop, bits_length, bits_length, List.length_singleton]
    omega
  · intro k h1 h2
    rw [bits_length] at h1
    rw [bits_getElem, getMsbD_shiftIn r b h1]
    by_cases hlast : k + 1 < W
    · have hk : k < ((bits r).drop 1).length := by rw [List.length_drop, bits_length]; omega
      rw [if_pos hlast, List.getElem_append_left hk, List.getElem_drop, bits_getElem, Nat.add_comm]
    · have hk : ((bits r).drop 1).length ≤ k := by rw [List.length_drop, bits_length]; omega
      rw [if_neg hlast, List.getElem_append_right hk, List.getElem_singleton]

/-- A shift register that began with the bits `R` and has taken in the bits `S`. -/
theorem bits_shiftIn_drop {r : BitVec W} {R S : List Bool} (b : Bool) (hW : 0 < W)
    (hR : R.length = W) (h : bits r = (R ++ S).drop S.length) :
    bits (shiftIn r b) = (R ++ (S ++ [b])).drop (S ++ [b]).length := by
  have hle : S.length + 1 ≤ (R ++ S).length := by
    rw [List.length_append]
    omega
  rw [bits_shiftIn r b hW, h, List.drop_drop, List.length_append, List.length_singleton,
    ← List.append_assoc, List.drop_append_of_le_length hle]

/-- When `W` bits and more are in, the register holds the last ones. -/
theorem bits_eq_drop {r : BitVec W} {R S : List Bool} {m : ℕ} (hR : R.length = W)
    (hS : S.length = m + W) (h : bits r = (R ++ S).drop S.length) : bits r = S.drop m := by
  rw [h, List.drop_append, List.drop_eq_nil_of_le (by omega), List.nil_append, hR, hS,
    Nat.add_sub_cancel]

/-- The bits of the words, one word after the other. -/
def wordBits (ws : List (BitVec W)) : List Bool := ws.flatMap bits

@[simp] theorem wordBits_nil : wordBits ([] : List (BitVec W)) = [] := rfl

@[simp] theorem wordBits_append (ws vs : List (BitVec W)) :
    wordBits (ws ++ vs) = wordBits ws ++ wordBits vs := List.flatMap_append

@[simp] theorem wordBits_singleton (w : BitVec W) : wordBits [w] = bits w := List.flatMap_singleton ..

@[simp] theorem wordBits_length (ws : List (BitVec W)) :
    (wordBits ws).length = W * ws.length := by
  induction ws with
  | nil => rfl
  | cons w ws ih =>
    rw [← List.singleton_append, wordBits_append, List.length_append, ih, wordBits_singleton,
      bits_length, List.length_append, List.length_singleton, Nat.mul_add, Nat.mul_one]

theorem wordBits_prefix {ws vs : List (BitVec W)} (h : ws <+: vs) : wordBits ws <+: wordBits vs := by
  obtain ⟨us, rfl⟩ := h
  rw [wordBits_append]
  exact List.prefix_append _ _

/-- A word of the line. -/
theorem bits_at_place {ws : List (BitVec W)} {bs : List Bool} (h : wordBits ws <+: bs)
    {k : ℕ} {w : BitVec W} (hk : ws[k]? = some w) : (bs.drop (W * k)).take W = bits w := by
  obtain ⟨rest, rfl⟩ := h
  have hlt : k < ws.length := (List.getElem?_eq_some_iff.mp hk).1
  have hsplit : ws = ws.take k ++ [w] ++ ws.drop (k + 1) := by
    have hw : ws[k] = w := (List.getElem?_eq_some_iff.mp hk).2
    rw [List.append_assoc, ← hw, List.singleton_append, List.getElem_cons_drop,
      List.take_append_drop]
  have hlen : (wordBits (ws.take k)).length = W * k := by
    rw [wordBits_length, List.length_take, Nat.min_eq_left (Nat.le_of_lt hlt)]
  rw [hsplit, wordBits_append, wordBits_append, wordBits_singleton, List.append_assoc,
    List.append_assoc, ← hlen, List.drop_left,
    List.take_append_of_le_length (Nat.le_of_eq (bits_length w).symm), take_bits_self]

/-- A bit of the line. -/
theorem bit_at_place {ws : List (BitVec W)} {k c : ℕ} {w : BitVec W} (hk : ws[k]? = some w)
    (hc : c < W) : (wordBits ws)[W * k + c]? = some (w.getMsbD c) := by
  have hword := bits_at_place (List.prefix_refl (wordBits ws)) hk
  have hbit : (bits w)[c]? = some (w.getMsbD c) := by
    rw [List.getElem?_eq_getElem (by rwa [bits_length]), bits_getElem]
  rw [← hword, List.getElem?_take_of_lt hc, List.getElem?_drop] at hbit
  exact hbit

theorem eq_of_wordBits_eq {ws vs : List (BitVec W)} (hW : 0 < W)
    (h : wordBits ws = wordBits vs) : ws = vs := by
  have hlen := congrArg List.length h
  rw [wordBits_length, wordBits_length] at hlen
  apply List.ext_getElem (Nat.eq_of_mul_eq_mul_left hW hlen)
  intro k h1 h2
  apply eq_of_bits_eq
  rw [← bits_at_place (List.prefix_refl _) (List.getElem?_eq_getElem h1), h,
    bits_at_place (List.prefix_refl _) (List.getElem?_eq_getElem h2)]

end Bits

/-! ## What has happened before a cycle -/

section Events

variable {α : Type*}

/-- What `f` has given in the cycles before `n`, oldest first. -/
def events (f : ℕ → Option α) : ℕ → List α
  | 0 => []
  | n + 1 => events f n ++ (f n).toList

@[simp] theorem events_zero (f : ℕ → Option α) : events f 0 = [] := rfl

theorem events_succ (f : ℕ → Option α) (n : ℕ) :
    events f (n + 1) = events f n ++ (f n).toList := rfl

theorem events_mono (f : ℕ → Option α) {n m : ℕ} (h : n ≤ m) : events f n <+: events f m := by
  induction m, h using Nat.le_induction with
  | base => exact List.prefix_refl _
  | succ m _ ih => exact ih.trans (List.prefix_append _ _)

theorem events_eq_nil {f : ℕ → Option α} {d : ℕ} (h : ∀ k, k < d → f k = none) :
    events f d = [] := by
  induction d with
  | zero => rfl
  | succ d ih =>
    rw [events_succ, ih fun k hk => h k (Nat.lt_succ_of_lt hk), h d (Nat.lt_succ_self d)]
    rfl

theorem events_congr {f g : ℕ → Option α} {n : ℕ} (h : ∀ k, k < n → f k = g k) :
    events f n = events g n := by
  induction n with
  | zero => rfl
  | succ n ih =>
    rw [events_succ, events_succ, ih fun k hk => h k (Nat.lt_succ_of_lt hk),
      h n (Nat.lt_succ_self n)]

/-- In the cycles from `a` on only cycle `c` counts. -/
theorem events_of_one {f : ℕ → Option α} {a b c : ℕ} (hac : a ≤ c) (hcb : c < b)
    (h : ∀ n, a ≤ n → n < b → n ≠ c → f n = none) :
    events f b = events f a ++ (f c).toList := by
  induction b, hcb using Nat.le_induction with
  | base =>
    rw [events_succ]
    congr 1
    induction c, hac using Nat.le_induction with
    | base => rfl
    | succ c hac ih =>
      rw [events_succ, h c hac (by omega) (by omega), Option.toList_none, List.append_nil]
      exact ih fun n h1 h2 h3 => h n h1 (by omega) (by omega)
  | succ b hcb ih =>
    rw [events_succ, h b (by omega) (Nat.lt_succ_self b) (by omega), Option.toList_none,
      List.append_nil]
    exact ih fun n h1 h2 h3 => h n h1 (by omega) h3

/-- What happens `d` cycles later, and not in the first `d` cycles. -/
theorem events_delay {f g : ℕ → Option α} {d : ℕ} (hlow : ∀ k, k < d → f k = none)
    (h : ∀ n, f (n + d) = g n) (n : ℕ) : events f (n + d) = events g n := by
  induction n with
  | zero =>
    rw [Nat.zero_add, events_zero]
    exact events_eq_nil hlow
  | succ n ih => rw [Nat.add_right_comm, events_succ, events_succ, ih, h]

end Events

end serial
