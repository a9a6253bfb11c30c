-- The commands that the class `adau1761` sends to the codec. `_spi_command`
-- swaps the bytes of the words it is given, and leaves out the low ones.
import Mathlib.Data.List.Basic
import Mathlib.Tactic.Common

namespace adau1761

abbrev Byte := BitVec 8

/-- A word of the command FIFO. -/
abbrev FifoWord := BitVec 32

/-! ## `_spi_command` -/

/-- One pass of the loop that swaps the endianness. -/
def swap_pass (data : List Byte) (data_len i : ℕ) (tx_buff : List FifoWord) : List FifoWord :=
  if i ≠ data_len - 1 ∧ i % 2 = 0 then tx_buff.set (i + 3) ((data.getD (i + 1) 0).setWidth 32)
  else if i = data_len - 1 then tx_buff.set (i + 3) ((data.getD i 0).setWidth 32)
  else tx_buff

def swap_endianness (data : List Byte) (data_len : ℕ) (tx_buff : List FifoWord) : List FifoWord :=
  (List.range data_len).foldl (fun tx_buff i => swap_pass data data_len i tx_buff) tx_buff

/-- The first three words of a command. The bit of the first one is set for a read. -/
def header (addr : BitVec 16) (chip_addr : BitVec 32) (is_read : Bool) : List FifoWord :=
  [((chip_addr <<< 1) ||| (if is_read then 1 else 0)) &&& 0xFF,
   (addr >>> 8).setWidth 32 &&& 0xFF,
   addr.setWidth 32 &&& 0xFF]

/-- The buffer that is written: `calloc` fills it with zeros. -/
def tx_buffer (addr : BitVec 16) (data_len : ℕ) (data : Option (List Byte))
    (chip_addr : BitVec 32) : List FifoWord :=
  let tx_buff := header addr chip_addr data.isNone ++ List.replicate data_len 0
  match data with
  | some data => swap_endianness data data_len tx_buff
  | none => tx_buff

/-- What the system answers during one command. -/
structure SpiAnswers where
  /-- `calloc` gives a buffer -/
  calloc : Bool
  /-- the word that each `read` gives, none when it fails -/
  read : ℕ → Option FifoWord

/-- What one command does. -/
structure SpiResult where
  /-- the words given to `write`, none when there was no call of it -/
  written : Option (List FifoWord)
  value : Byte

/-- `data` is the null pointer, or what it points to. -/
def spi_command (a : SpiAnswers) (addr : BitVec 16) (data_len : ℕ) (data : Option (List Byte))
    (chip_addr : BitVec 32) : SpiResult :=
  if a.calloc then
    let rx_val := (List.range (data_len + 3)).foldl (fun v i => (a.read i).getD v) 0
    ⟨some (tx_buffer addr data_len data chip_addr), (rx_val &&& 0xFF).setWidth 8⟩
  else ⟨none, 0⟩

/-! ## What the loop leaves -/

/-- The word behind the header at `i`. -/
def swapped (data : List Byte) (data_len i : ℕ) : FifoWord :=
  if i ≠ data_len - 1 ∧ i % 2 = 0 then (data.getD (i + 1) 0).setWidth 32
  else if i = data_len - 1 then (data.getD i 0).setWidth 32
  else 0

@[simp] theorem header_length (addr : BitVec 16) (chip_addr : BitVec 32) (b : Bool) :
    (header addr chip_addr b).length = 3 := rfl

/-- Writing the place after the words that are done. -/
theorem set_after (h done : List FifoWord) (k : ℕ) (v w : FifoWord) (hh : h.length = 3) :
    (h ++ done ++ w :: List.replicate k 0).set (done.length + 3) v =
      h ++ (done ++ [v]) ++ List.replicate k 0 := by
  have hlen : (h ++ done).length = done.length + 3 := by
    rw [List.length_append, hh, Nat.add_comm]
  rw [List.set_append_right _ _ (Nat.le_of_eq hlen), hlen, Nat.sub_self, List.set_cons_zero]
  simp only [List.append_assoc, List.cons_append, List.nil_append]

/-- After `i` passes the first `i` words are in place, and the others are zero. -/
theorem swap_passes (data : List Byte) (data_len : ℕ) (h : List FifoWord) (hh : h.length = 3)
    (i : ℕ) (hi : i ≤ data_len) :
    (List.range i).foldl (fun tx_buff i => swap_pass data data_len i tx_buff)
        (h ++ List.replicate data_len 0) =
      h ++ (List.range i).map (swapped data data_len) ++ List.replicate (data_len - i) 0 := by
  induction i with
  | zero => simp
  | succ i ih =>
    have hrest : List.replicate (data_len - i) (0 : FifoWord) =
        0 :: List.replicate (data_len - (i + 1)) 0 := by
      rw [← List.replicate_succ]
      congr 1
      omega
    have hset := fun v => set_after h ((List.range i).map (swapped data data_len))
      (data_len - (i + 1)) v 0 hh
    rw [List.length_map, List.length_range] at hset
    rw [List.range_succ, List.foldl_append, ih (by omega), hrest, List.map_append,
      List.foldl_cons, List.foldl_nil, List.map_singleton]
    unfold swap_pass swapped
    by_cases heven : i ≠ data_len - 1 ∧ i % 2 = 0
    · rw [if_pos heven, if_pos heven]
      exact hset _
    · rw [if_neg heven, if_neg heven]
      by_cases hlast : i = data_len - 1
      · rw [if_pos hlast, if_pos hlast]
        exact hset _
      · rw [if_neg hlast, if_neg hlast]
        -- the pass writes nothing, and the zero of `calloc` stays
        simp only [List.append_assoc, List.cons_append, List.nil_append]

theorem swap_endianness_spec (data : List Byte) (data_len : ℕ) (h : List FifoWord)
    (hh : h.length = 3) :
    swap_endianness data data_len (h ++ List.replicate data_len 0) =
      h ++ (List.range data_len).map (swapped data data_len) := by
  unfold swap_endianness
  rw [swap_passes data data_len h hh data_len (Nat.le_refl _), Nat.sub_self]
  simp

/-! ## Words in memory and on the wire -/

def high (w : BitVec 16) : Byte := (w >>> 8).setWidth 8

def low (w : BitVec 16) : Byte := w.setWidth 8

/-- The bytes of the words as the processor stores them, low byte first. -/
def stored (ws : List (BitVec 16)) : List Byte := ws.flatMap fun w => [low w, high w]

/-- The bytes of the words as the codec wants them, high byte first. -/
def big_endian (ws : List (BitVec 16)) : List FifoWord :=
  ws.flatMap fun w => [(high w).setWidth 32, (low w).setWidth 32]

/-- The list of all first and second parts, one place after the other. -/
theorem pairs_getElem? {α β : Type*} (f g : α → β) (l : List α) (i : ℕ) :
    (l.flatMap fun a => [f a, g a])[i]? =
      if i % 2 = 0 then l[i / 2]?.map f else l[i / 2]?.map g := by
  induction l generalizing i with
  | nil => simp
  | cons a l ih =>
    rw [List.flatMap_cons]
    match i with
    | 0 => simp
    | 1 => simp
    | i + 2 =>
      have hmod : (i + 2) % 2 = i % 2 := by omega
      have hdiv : (i + 2) / 2 = i / 2 + 1 := by omega
      simp only [List.cons_append, List.nil_append, List.getElem?_cons_succ, ih, hmod, hdiv]

@[simp] theorem big_endian_length (ws : List (BitVec 16)) :
    (big_endian ws).length = 2 * ws.length := by
  unfold big_endian
  induction ws with
  | nil => rfl
  | cons w ws ih => simp only [List.flatMap_cons, List.length_append, ih, List.length_cons,
      List.length_nil]; omega

theorem stored_odd (ws : List (BitVec 16)) (k : ℕ) (hk : k < ws.length) :
    (stored ws).getD (2 * k + 1) 0 = high ws[k] := by
  have hdiv : (2 * k + 1) / 2 = k := by omega
  unfold stored
  rw [List.getD_eq_getElem?_getD, pairs_getElem?, if_neg (by omega), hdiv,
    List.getElem?_eq_getElem hk]
  rfl

theorem big_endian_even (ws : List (BitVec 16)) (k : ℕ) (hk : k < ws.length) :
    (big_endian ws)[2 * k]? = some ((high ws[k]).setWidth 32) := by
  have hdiv : 2 * k / 2 = k := by omega
  unfold big_endian
  rw [pairs_getElem?, if_pos (by omega), hdiv, List.getElem?_eq_getElem hk]
  rfl

theorem big_endian_odd (ws : List (BitVec 16)) (k : ℕ) (hk : k < ws.length) :
    (big_endian ws)[2 * k + 1]? = some ((low ws[k]).setWidth 32) := by
  have hdiv : (2 * k + 1) / 2 = k := by omega
  unfold big_endian
  rw [pairs_getElem?, if_neg (by omega), hdiv, List.getElem?_eq_getElem hk]
  rfl

/-- The high byte of a word is written in its place. -/
theorem swapped_even (ws : List (BitVec 16)) (k : ℕ) (hk : k < ws.length) :
    swapped (stored ws) (2 * ws.length) (2 * k) = (high ws[k]).setWidth 32 := by
  unfold swapped
  rw [if_pos ⟨by omega, by omega⟩, stored_odd ws k hk]

/-- In the place of the low byte stands the high byte of the last word, or zero. -/
theorem swapped_odd (ws : List (BitVec 16)) (k : ℕ) (hk : k < ws.length) :
    swapped (stored ws) (2 * ws.length) (2 * k + 1) =
      if k + 1 = ws.length then (high ws[k]).setWidth 32 else 0 := by
  unfold swapped
  rw [if_neg (by omega)]
  by_cases hlast : k + 1 = ws.length
  · rw [if_pos (by omega), if_pos hlast, stored_odd ws k hk]
  · rw [if_neg (by omega), if_neg hlast]

/-! ## Which words arrive -/

/-- The low bytes are those that the loop leaves: zero, and in the last word the high byte. -/
def LowBytesFit (ws : List (BitVec 16)) : Prop :=
  ∀ k (hk : k < ws.length), low ws[k] = if k + 1 = ws.length then high ws[k] else 0

theorem setWidth_inj {a b : Byte} (h : a.setWidth 32 = b.setWidth 32) : a = b := by
  have hw := congrArg (BitVec.setWidth 8) h
  rwa [BitVec.setWidth_setWidth_of_le _ (by omega), BitVec.setWidth_setWidth_of_le _ (by omega),
    BitVec.setWidth_eq, BitVec.setWidth_eq] at hw

theorem swapped_eq_big_endian_iff (ws : List (BitVec 16)) :
    (List.range (2 * ws.length)).map (swapped (stored ws) (2 * ws.length)) = big_endian ws ↔
      LowBytesFit ws := by
  constructor
  · intro heq k hk
    have hodd := congrArg (fun l => l[2 * k + 1]?) heq
    simp only [big_endian_odd ws k hk, List.getElem?_map,
      List.getElem?_range (show 2 * k + 1 < 2 * ws.length by omega), Option.map_some,
      swapped_odd ws k hk, Option.some_inj] at hodd
    by_cases hlast : k + 1 = ws.length
    · rw [if_pos hlast] at hodd ⊢
      exact (setWidth_inj hodd).symm
    · rw [if_neg hlast] at hodd ⊢
      exact (setWidth_inj (a := 0) hodd).symm
  · intro hfit
    apply List.ext_getElem?
    intro i
    by_cases hi : i < 2 * ws.length
    · rw [List.getElem?_map, List.getElem?_range hi, Option.map_some]
      have hk : i / 2 < ws.length := by omega
      rcases Nat.mod_two_eq_zero_or_one i with hmod | hmod
      · have heven : i = 2 * (i / 2) := by omega
        rw [heven, swapped_even ws _ hk, big_endian_even ws _ hk]
      · have hodd : i = 2 * (i / 2) + 1 := by omega
        rw [hodd, swapped_odd ws _ hk, big_endian_odd ws _ hk, hfit _ hk]
        split <;> rfl
    · rw [List.getElem?_eq_none (by simpa using hi),
        List.getElem?_eq_none (by rw [big_endian_length]; omega)]

/-- The words of a command that carries `ws`. -/
def command_words (addr : BitVec 16) (chip_addr : BitVec 32) (ws : List (BitVec 16)) :
    List FifoWord :=
  header addr chip_addr false ++ big_endian ws

theorem tx_buffer_of_words (addr : BitVec 16) (chip_addr : BitVec 32) (ws : List (BitVec 16)) :
    tx_buffer addr (2 * ws.length) (some (stored ws)) chip_addr =
      header addr chip_addr false ++
        (List.range (2 * ws.length)).map (swapped (stored ws) (2 * ws.length)) := by
  unfold tx_buffer
  exact swap_endianness_spec _ _ _ rfl

theorem command_words_length (addr : BitVec 16) (chip_addr : BitVec 32) (ws : List (BitVec 16)) :
    (command_words addr chip_addr ws).length = 2 * ws.length + 3 := by
  unfold command_words
  rw [List.length_append, header_length, big_endian_length, Nat.add_comm]

theorem written_eq_iff (a : SpiAnswers) (addr : BitVec 16) (chip_addr : BitVec 32)
    (ws : List (BitVec 16)) :
    (spi_command a addr (2 * ws.length) (some (stored ws)) chip_addr).written =
      some (command_words addr chip_addr ws) ↔ a.calloc = true ∧ LowBytesFit ws := by
  unfold spi_command
  cases hc : a.calloc with
  | false => simp
  | true =>
    simp only [if_true, Option.some_inj, true_and]
    rw [tx_buffer_of_words, ← swapped_eq_big_endian_iff]
    unfold command_words
    rw [List.append_cancel_left_eq]

/-- A command writes its header and the words with the high byte first exactly when there
is memory for it and the low bytes are those that the loop leaves. -/
theorem words_arrive_iff (a : SpiAnswers) (addr : BitVec 16) (chip_addr : BitVec 32)
    (ws : List (BitVec 16)) :
    ((spi_command a addr (2 * ws.length) (some (stored ws)) chip_addr).written =
        some (command_words addr chip_addr ws) ∧
      (command_words addr chip_addr ws).length = 2 * ws.length + 3) ↔
      a.calloc = true ∧ LowBytesFit ws := by
  rw [written_eq_iff]
  exact and_iff_left (command_words_length addr chip_addr ws)

/-- The first command for 48 kHz, with the memory for it. -/
theorem words_of_48000_do_not_arrive :
    stored [1625, 1269, 0x1900] = [0x59, 0x06, 0xF5, 0x04, 0x00, 0x19] ∧
    (spi_command ⟨true, fun _ => some 0⟩ 0x4002 (2 * 3)
        (some (stored [1625, 1269, 0x1900])) 0).written =
      some [0x00, 0x40, 0x02, 0x06, 0x00, 0x04, 0x00, 0x19, 0x19] ∧
    command_words 0x4002 0 [1625, 1269, 0x1900] =
      [0x00, 0x40, 0x02, 0x06, 0x59, 0x04, 0xF5, 0x19, 0x00] ∧
    (spi_command ⟨true, fun _ => some 0⟩ 0x4002 (2 * 3)
        (some (stored [1625, 1269, 0x1900])) 0).written ≠
      some (command_words 0x4002 0 [1625, 1269, 0x1900]) := by
  decide

/-! ## `_set_sample_rate` -/

/-- The fields of an entry of `_pll_divisors`. -/
structure PllDivisors where
  x : ℕ
  r : ℕ
  m : ℕ
  n : ℕ

def pll_divisors : List (Int × PllDivisors) :=
  [(44100, ⟨1, 3, 8125, 3849⟩), (48000, ⟨1, 3, 1625, 1269⟩)]

def find_divisors (sample_rate : Int) : Option PllDivisors :=
  (pll_divisors.find? fun e => e.1 == sample_rate).map Prod.snd

/-- The words `M`, `N` and `R and X` of the first command. -/
def PllDivisors.words (d : PllDivisors) : List (BitVec 16) :=
  [.ofNat 16 d.m, .ofNat 16 d.n, .ofNat 16 ((d.r <<< 11) + ((d.x - 1) <<< 9) + (1 <<< 8) + 0)]

/-- The words of the second command, which turns the PLL on. -/
def PllDivisors.words_on (d : PllDivisors) : List (BitVec 16) :=
  [.ofNat 16 d.m, .ofNat 16 d.n, .ofNat 16 ((d.r <<< 11) + ((d.x - 1) <<< 9) + (1 <<< 8) + 0) ||| 1]

def ADAU1761_REG_PLL_CONTROL : BitVec 16 := 0x4002

/-- The value that is returned. The wait for the PLL does not change it. -/
def set_sample_rate (sample_rate : Int) : Int :=
  match find_divisors sample_rate with
  | none => -1
  | some _ => 0

/-- What the two commands write, for a rate of the table. -/
def pll_commands (a b : SpiAnswers) (sample_rate : Int) : Option (List (Option (List FifoWord))) :=
  (find_divisors sample_rate).map fun d =>
    [(spi_command a ADAU1761_REG_PLL_CONTROL 6 (some (stored d.words)) 0).written,
     (spi_command b ADAU1761_REG_PLL_CONTROL 6 (some (stored d.words_on)) 0).written]

theorem find_divisors_mem {sample_rate : Int} {d : PllDivisors}
    (h : find_divisors sample_rate = some d) : ∃ f, (f, d) ∈ pll_divisors := by
  unfold find_divisors at h
  rw [Option.map_eq_some_iff] at h
  obtain ⟨⟨f, d'⟩, hfind, rfl⟩ := h
  exact ⟨f, List.mem_of_find?_eq_some hfind⟩

/-- No rate of the table has its words written as the codec wants them. -/
theorem pll_words_do_not_arrive {a b : SpiAnswers} {sample_rate : Int} {d : PllDivisors}
    (h : find_divisors sample_rate = some d) :
    ∃ w w', pll_commands a b sample_rate = some [w, w'] ∧
      w ≠ some (command_words ADAU1761_REG_PLL_CONTROL 0 d.words) ∧
      w' ≠ some (command_words ADAU1761_REG_PLL_CONTROL 0 d.words_on) := by
  obtain ⟨f, hmem⟩ := find_divisors_mem h
  -- the first word, M, has a low byte
  have hlow : low (.ofNat 16 d.m) ≠ 0 := by
    unfold pll_divisors at hmem
    simp only [List.mem_cons, Prod.mk.injEq, List.not_mem_nil, or_false] at hmem
    rcases hmem with ⟨-, rfl⟩ | ⟨-, rfl⟩ <;> decide
  refine ⟨_, _, by unfold pll_commands; rw [h]; rfl, ?_, ?_⟩
  · intro hw
    exact hlow (((written_eq_iff a _ 0 d.words).mp hw).2 0 (Nat.zero_lt_succ _))
  · intro hw
    exact hlow (((written_eq_iff b _ 0 d.words_on).mp hw).2 0 (Nat.zero_lt_succ _))

end adau1761
