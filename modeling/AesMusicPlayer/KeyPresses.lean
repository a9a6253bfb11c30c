-- The keys that `ui_thread::run` reads from the terminal, one to three bytes at a
-- time, and the commands that it carries out for them.
import AesMusicPlayer.FileReplace
import AesMusicPlayer.Lockstep
import AesMusicPlayer.Navigator
import Mathlib.Data.List.Chain

open lockstep directory_navigator

namespace key_presses

abbrev Byte := BitVec 8

/-! ## The handler -/

inductive Command
  | play_or_stop
  | start_aes (operation : aes.Operation)
  | relative_navigate_to_entry (direction : Direction)
  | change_volume (delta : Int)
  deriving DecidableEq

/-- `stdin_buff` -/
structure StdinBuff where
  b₀ : Byte
  b₁ : Byte
  b₂ : Byte
  deriving DecidableEq

/-- `read`: the bytes that come are stored from the first one on. -/
def StdinBuff.store (buff : StdinBuff) : List Byte → StdinBuff
  | [] => buff
  | [x] => { buff with b₀ := x }
  | [x, y] => { buff with b₀ := x, b₁ := y }
  | x :: y :: z :: _ => ⟨x, y, z⟩

def space : Byte := 0x20

def letter_e : Byte := 0x65

def letter_d : Byte := 0x64

def left_bracket : Byte := 0x5B

/-- The last byte of an arrow key. -/
def arrow_command (b : Byte) : List Command :=
  if b = 0x42 then [.relative_navigate_to_entry .DOWN]
  else if b = 0x41 then [.relative_navigate_to_entry .UP]
  else if b = 0x44 then [.change_volume (-2)]
  else if b = 0x43 then [.change_volume 2]
  else []

/-- What is done after a `read` that returned `ret`. -/
def handle (selected : Bool) (ret : ℕ) (buff : StdinBuff) : List Command :=
  if ret > 0 ∧ selected = true then
    let b := if ret > 2 then buff.b₁ else buff.b₀
    if b = space then [.play_or_stop]
    else if b = letter_e ∨ b = letter_d then
      [.start_aes (if buff.b₀ = letter_e then .ENCRYPT else .DECRYPT)]
    else if b = left_bracket then
      if ret > 2 then arrow_command buff.b₂ else []
    else []
  else []

/-! ## The keys -/

inductive Arrow
  | UP | DOWN | RIGHT | LEFT
  deriving DecidableEq, Repr

def Arrow.letter : Arrow → Byte
  | .UP => 0x41
  | .DOWN => 0x42
  | .RIGHT => 0x43
  | .LEFT => 0x44

inductive Key
  | char (b : Byte)
  | arrow (a : Arrow)
  deriving DecidableEq

/-- A byte of the stream, with the key that it is of. -/
inductive Mark
  | char (b : Byte)
  | escape (a : Arrow)
  | bracket (a : Arrow)
  | last (a : Arrow)
  deriving DecidableEq

def Mark.byte : Mark → Byte
  | .char b => b
  | .escape _ => 0x1B
  | .bracket _ => left_bracket
  | .last a => a.letter

def Key.marks : Key → List Mark
  | .char b => [.char b]
  | .arrow a => [.escape a, .bracket a, .last a]

/-- The terminal as the UI reads it: each read with the commands that are carried out. -/
def terminal (selected : Bool) : Machine StdinBuff (List Mark) (List Command) where
  step read buff :=
    let buff := buff.store (read.map Mark.byte)
    (handle selected read.length buff, buff)

/-- What a key does in a read of its own. -/
def Key.alone (selected : Bool) (k : Key) : List Command :=
  handle selected k.marks.length (StdinBuff.store ⟨0, 0, 0⟩ (k.marks.map Mark.byte))

/-- The command of the key that is complete with this byte. -/
def Mark.completes (selected : Bool) : Mark → List Command
  | .char b => (Key.char b).alone selected
  | .last a => (Key.arrow a).alone selected
  | .escape _ | .bracket _ => []

/-! ## What a read is to do -/

/-- The bytes that may stand behind a byte of a stream. -/
def Mark.Precedes : Mark → Mark → Prop
  | .escape a, m => m = .bracket a
  | .bracket a, m => m = .last a
  | .char _, m | .last _, m => (∃ b, m = .char b) ∨ ∃ a, m = .escape a

namespace Mark

def Ends : Mark → Prop
  | .last _ => True
  | _ => False

/-- A key with a command that is one byte long. -/
def Acts (m : Mark) : Prop := m = .char space ∨ m = .char letter_e ∨ m = .char letter_d

end Mark

/-- The reads that are handled as their keys would be, one by one. -/
def Fits : List Mark → Prop
  | [m] => ¬ m.Ends
  | [m₁, m₂] => ¬ m₁.Ends ∧ ¬ m₂.Ends ∧ ¬ m₂.Acts
  | [m₁, m₂, m₃] =>
    m₃.Ends ∨
    (¬ m₁.Ends ∧ ¬ m₁.Acts ∧ ¬ m₂.Ends ∧ m₂ ≠ .char letter_e ∧ ¬ m₃.Acts ∧
      ¬ (m₂ = .char left_bracket ∧ arrow_command m₃.byte ≠ [])) ∨
    ∃ a, m₁ = .last a ∧ m₂ = .char left_bracket ∧ m₃ = .char a.letter
  | _ => True

section Read

variable {m m₁ m₂ m₃ : Mark}

/-- The command of a key of one byte. -/
def own (b : Byte) : List Command :=
  if b = space then [.play_or_stop]
  else if b = letter_e then [.start_aes .ENCRYPT]
  else if b = letter_d then [.start_aes .DECRYPT]
  else []

theorem completes_last (a : Arrow) : (Mark.last a).completes true = arrow_command a.letter := by
  cases a <;> decide

theorem completes_escape (a : Arrow) : (Mark.escape a).completes true = [] := rfl

theorem completes_bracket (a : Arrow) : (Mark.bracket a).completes true = [] := rfl

/-- A read of one or two bytes is handled by its first byte. -/
theorem handle_short {ret : ℕ} {buff : StdinBuff} (h : ret = 1 ∨ ret = 2) :
    handle true ret buff = own buff.b₀ := by
  have hret : ret > 0 ∧ ¬ ret > 2 := by
    omega
  unfold handle own
  rw [if_pos ⟨hret.1, rfl⟩, if_neg hret.2, if_neg hret.2]
  by_cases he : buff.b₀ = letter_e
  · simp only [he, true_or, if_true]
  · rw [if_neg he, if_neg he]
    simp only [he, false_or, ite_self]

/-- A read of three bytes is handled by the second. -/
theorem handle_long (b₀ b₁ b₂ : Byte) :
    handle true 3 ⟨b₀, b₁, b₂⟩ =
      if b₁ = space then [.play_or_stop]
      else if b₁ = letter_e ∨ b₁ = letter_d then
        [.start_aes (if b₀ = letter_e then .ENCRYPT else .DECRYPT)]
      else if b₁ = left_bracket then arrow_command b₂ else [] := by
  unfold handle
  simp only [Nat.reduceGT, and_self, if_true]

theorem completes_char (b : Byte) : (Mark.char b).completes true = own b :=
  handle_short (.inl rfl)

theorem own_eq_nil_iff {b : Byte} :
    own b = [] ↔ b ≠ space ∧ b ≠ letter_e ∧ b ≠ letter_d := by
  unfold own
  split
  · next h => simp [h]
  · next hs =>
    split
    · next h => simp [h]
    · next he =>
      split
      · next h => simp [h]
      · next hd => simp [hs, he, hd]

theorem completes_eq_nil_iff : m.completes true = [] ↔ ¬ m.Ends ∧ ¬ m.Acts := by
  cases m with
  | char b =>
    rw [completes_char, own_eq_nil_iff]
    simp [Mark.Ends, Mark.Acts]
  | last a =>
    rw [completes_last]
    cases a <;> simp [Mark.Ends, Arrow.letter, arrow_command]
  | escape a => simp [completes_escape, Mark.Ends, Mark.Acts]
  | bracket a => simp [completes_bracket, Mark.Ends, Mark.Acts]

/-- No other key has the first byte of an `e`. -/
theorem byte_ne_letter_e (h : m.completes true = []) : m.byte ≠ letter_e := by
  cases m with
  | char b =>
    rw [completes_char, own_eq_nil_iff] at h
    exact h.2.1
  | last a => cases a <;> decide
  | escape a => exact (by decide : (0x1B : Byte) ≠ letter_e)
  | bracket a => exact (by decide : left_bracket ≠ letter_e)

/-- A byte that is the last of an arrow is no other command. -/
theorem arrow_command_ne_nil {b : Byte} (h : arrow_command b ≠ []) :
    own b = [] ∧ ∃ a : Arrow, b = a.letter := by
  unfold arrow_command at h
  by_cases hdown : b = 0x42
  · rw [hdown]
    exact ⟨by decide, .DOWN, rfl⟩
  · by_cases hup : b = 0x41
    · rw [hup]
      exact ⟨by decide, .UP, rfl⟩
    · by_cases hleft : b = 0x44
      · rw [hleft]
        exact ⟨by decide, .LEFT, rfl⟩
      · by_cases hright : b = 0x43
        · rw [hright]
          exact ⟨by decide, .RIGHT, rfl⟩
        · rw [if_neg hdown, if_neg hup, if_neg hleft, if_neg hright] at h
          exact absurd rfl h

theorem arrow_command_injective {a a' : Arrow}
    (h : arrow_command a.letter = arrow_command a'.letter) : a = a' := by
  cases a <;> cases a' <;> first | rfl | exact absurd h (by decide)

theorem own_ne_arrow_command (b : Byte) (a : Arrow) : own b ≠ arrow_command a.letter := by
  unfold own
  split
  · cases a <;> decide
  · split
    · cases a <;> decide
    · split
      · cases a <;> decide
      · cases a <;> decide

theorem singleton_eq_append {c : Command} {l₁ l₂ : List Command} :
    [c] = l₁ ++ ([c] ++ l₂) ↔ l₁ = [] ∧ l₂ = [] := by
  constructor
  · intro heq
    have hlen := congrArg List.length heq
    simp only [List.length_append, List.length_singleton] at hlen
    exact ⟨List.eq_nil_of_length_eq_zero (by omega), List.eq_nil_of_length_eq_zero (by omega)⟩
  · rintro ⟨rfl, rfl⟩
    rfl

/-- Three bytes, the second of which has a command of its own and is no `e`. -/
theorem handle_acts_iff {b : Byte} (hacts : b = space ∨ b = letter_d) :
    handle true 3 ⟨m₁.byte, b, m₃.byte⟩ =
        m₁.completes true ++ (own b ++ m₃.completes true) ↔
      m₁.completes true = [] ∧ m₃.completes true = [] := by
  rw [handle_long]
  rcases hacts with rfl | rfl
  · rw [if_pos rfl]
    exact singleton_eq_append
  · rw [if_neg (by decide), if_pos (.inr rfl)]
    by_cases hnil : m₁.completes true = []
    · rw [if_neg (byte_ne_letter_e hnil)]
      exact singleton_eq_append
    · refine iff_of_false ?_ fun h => hnil h.1
      intro heq
      have hlen := congrArg List.length heq
      have hpos := List.length_pos_of_ne_nil hnil
      have hone : (own letter_d).length = 1 := by decide
      simp only [List.length_append, List.length_singleton] at hlen
      omega

/-- An `e` between two other bytes is taken for a `d`. -/
theorem handle_letter_e_ne :
    handle true 3 ⟨m₁.byte, letter_e, m₃.byte⟩ ≠
      m₁.completes true ++ (own letter_e ++ m₃.completes true) := by
  rw [handle_long]
  rw [if_neg (by decide), if_pos (.inl rfl)]
  intro heq
  have hone : own letter_e = [.start_aes .ENCRYPT] := by decide
  have hlen := congrArg List.length heq
  rw [hone] at hlen heq
  simp only [List.length_append, List.length_singleton] at hlen
  have hnil : m₁.completes true = [] := List.eq_nil_of_length_eq_zero (by omega)
  rw [if_neg (byte_ne_letter_e hnil), hnil] at heq
  simp at heq

/-- A bracket that is no part of an arrow is taken for one before a letter. -/
theorem handle_left_bracket_iff (h₃ : (∃ c, m₃ = .char c) ∨ ∃ a, m₃ = .escape a) :
    handle true 3 ⟨m₁.byte, left_bracket, m₃.byte⟩ =
        m₁.completes true ++ (own left_bracket ++ m₃.completes true) ↔
      (m₁.completes true = [] ∧ m₃.completes true = [] ∧ arrow_command m₃.byte = []) ∨
        ∃ a, m₁ = .last a ∧ m₃ = .char a.letter := by
  have hown : own left_bracket = [] := by decide
  rw [handle_long, hown, List.nil_append]
  rw [if_neg (by decide), if_neg (by decide), if_pos rfl]
  by_cases hletter : arrow_command m₃.byte = []
  · rw [hletter, eq_comm, List.append_eq_nil_iff]
    constructor
    · rintro ⟨hnil, hnil'⟩
      exact .inl ⟨hnil, hnil', rfl⟩
    · rintro (⟨hnil, hnil', _⟩ | ⟨a, _, rfl⟩)
      · exact ⟨hnil, hnil'⟩
      · cases a <;> exact absurd hletter (by decide)
  · obtain ⟨hno, a, ha⟩ := arrow_command_ne_nil hletter
    have hm₃ : m₃ = .char a.letter := by
      rcases h₃ with ⟨c, rfl⟩ | ⟨a', rfl⟩
      · exact congrArg Mark.char ha
      · have hescape : (0x1B : Byte) = a.letter := ha
        cases a <;> exact absurd hescape (by decide)
    subst hm₃
    have hnil : (Mark.char a.letter).completes true = [] := by
      rw [completes_char]
      exact hno
    rw [hnil, List.append_nil]
    constructor
    · intro heq
      refine .inr ⟨a, ?_, rfl⟩
      cases m₁ with
      | char x =>
        rw [completes_char] at heq
        exact absurd heq.symm (own_ne_arrow_command x a)
      | last a' =>
        rw [completes_last] at heq
        exact congrArg Mark.last (arrow_command_injective heq.symm)
      | escape a' => exact absurd heq hletter
      | bracket a' => exact absurd heq hletter
    · rintro (⟨_, _, hfalse⟩ | ⟨a', rfl, hsame⟩)
      · exact absurd hfalse hletter
      · have haa : a' = a := by
          injection hsame with hbyte
          exact (arrow_command_injective (congrArg arrow_command hbyte)).symm
        rw [completes_last, haa]
        rfl

theorem handle_other_iff (m₁ m₃ : Mark) {b : Byte} (hown : own b = []) (hb : b ≠ left_bracket) :
    handle true 3 ⟨m₁.byte, b, m₃.byte⟩ =
        m₁.completes true ++ (own b ++ m₃.completes true) ↔
      m₁.completes true = [] ∧ m₃.completes true = [] := by
  obtain ⟨hs, he, hd⟩ := own_eq_nil_iff.mp hown
  rw [handle_long, hown, List.nil_append]
  rw [if_neg hs, if_neg (not_or.mpr ⟨he, hd⟩), if_neg hb, eq_comm, List.append_eq_nil_iff]

/-- A byte alone does what its key does, save for the last of an arrow. -/
theorem own_byte_eq_iff {l : List Command} :
    own m.byte = m.completes true ++ l ↔ ¬ m.Ends ∧ l = [] := by
  cases m with
  | char b =>
    rw [completes_char, Mark.byte, List.self_eq_append_right]
    simp [Mark.Ends]
  | last a =>
    have hne : own a.letter ≠ arrow_command a.letter ++ l := by
      cases a <;> simp [own, Arrow.letter, arrow_command, space, letter_e, letter_d]
    rw [completes_last, Mark.byte]
    simp [Mark.Ends, hne]
  | escape a =>
    have hown : own (Mark.escape a).byte = [] := by
      cases a <;> decide
    rw [hown, completes_escape, List.nil_append, eq_comm]
    simp [Mark.Ends]
  | bracket a =>
    have hown : own (Mark.bracket a).byte = [] := by
      cases a <;> decide
    rw [hown, completes_bracket, List.nil_append, eq_comm]
    simp [Mark.Ends]

/-! ## One read -/

theorem precedes_bracket {a : Arrow} (h : m.Precedes (.bracket a)) : m = .escape a := by
  cases m with
  | escape a' =>
    injection h with ha
    rw [ha]
  | bracket a' => cases h
  | char x => rcases h with ⟨_, h⟩ | ⟨_, h⟩ <;> cases h
  | last a' => rcases h with ⟨_, h⟩ | ⟨_, h⟩ <;> cases h

theorem fits_char_iff {b : Byte} (h₃ : ¬ m₃.Ends) :
    Fits [m₁, .char b, m₃] ↔
      (m₁.completes true = [] ∧ b ≠ letter_e ∧ m₃.completes true = [] ∧
        ¬ (b = left_bracket ∧ arrow_command m₃.byte ≠ [])) ∨
      ∃ a, m₁ = .last a ∧ b = left_bracket ∧ m₃ = .char a.letter := by
  have hchar : ¬ (Mark.char b).Ends := id
  unfold Fits
  rw [completes_eq_nil_iff, completes_eq_nil_iff]
  simp only [Mark.char.injEq, ne_eq, h₃, hchar, not_false_eq_true, false_or, true_and, and_assoc]

theorem handle_char_iff {b : Byte} (h₃ : (∃ c, m₃ = .char c) ∨ ∃ a, m₃ = .escape a) :
    handle true 3 ⟨m₁.byte, b, m₃.byte⟩ =
        m₁.completes true ++ (own b ++ m₃.completes true) ↔
      Fits [m₁, .char b, m₃] := by
  have hends : ¬ m₃.Ends := by
    rcases h₃ with ⟨c, rfl⟩ | ⟨a, rfl⟩ <;> exact id
  rw [fits_char_iff hends]
  by_cases hb : b = left_bracket
  · subst hb
    rw [handle_left_bracket_iff h₃]
    have hne : left_bracket ≠ letter_e := by decide
    simp only [ne_eq, hne, not_false_eq_true, true_and, not_not]
  · by_cases he : b = letter_e
    · subst he
      refine iff_of_false handle_letter_e_ne ?_
      rintro (⟨_, hfalse, _⟩ | ⟨_, _, hfalse, _⟩)
      · exact hfalse rfl
      · exact hb hfalse
    · have hright : handle true 3 ⟨m₁.byte, b, m₃.byte⟩ =
          m₁.completes true ++ (own b ++ m₃.completes true) ↔
          m₁.completes true = [] ∧ m₃.completes true = [] := by
        by_cases hown : own b = []
        · exact handle_other_iff m₁ m₃ hown hb
        · refine handle_acts_iff ?_
          rw [own_eq_nil_iff] at hown
          by_contra hno
          rw [not_or] at hno
          exact hown ⟨hno.1, he, hno.2⟩
      rw [hright]
      simp only [ne_eq, he, hb, not_false_eq_true, true_and, false_and, and_false, and_true,
        exists_false, or_false]

theorem fits_three_iff (h₁₂ : m₁.Precedes m₂) (h₂₃ : m₂.Precedes m₃) :
    handle true 3 ⟨m₁.byte, m₂.byte, m₃.byte⟩ =
        m₁.completes true ++ (m₂.completes true ++ m₃.completes true) ↔
      Fits [m₁, m₂, m₃] := by
  cases m₂ with
  | char b =>
    rw [completes_char]
    exact handle_char_iff h₂₃
  | escape a =>
    have hm₃ : m₃ = .bracket a := h₂₃
    subst hm₃
    have hplain : own (Mark.escape a).byte = [] ∧ (Mark.escape a).byte ≠ left_bracket := by
      cases a <;> decide
    have hother := handle_other_iff m₁ (.bracket a) hplain.1 hplain.2
    have hown : own (Mark.escape a).byte = (Mark.escape a).completes true := by
      cases a <;> decide
    rw [hown] at hother
    rw [hother, completes_eq_nil_iff]
    simp [Fits, Mark.Ends, Mark.Acts, completes_bracket, Mark.byte]
  | bracket a =>
    obtain rfl := precedes_bracket h₁₂
    have hlast : m₃ = .last a := h₂₃
    subst hlast
    refine iff_of_true ?_ (.inl trivial)
    cases a <;> decide
  | last a =>
    have hends : ¬ m₃.Ends := by
      rcases h₂₃ with ⟨c, rfl⟩ | ⟨a', rfl⟩ <;> exact id
    refine iff_of_false ?_ ?_
    · rw [handle_long, completes_last]
      cases a <;> simp [Mark.byte, Arrow.letter, arrow_command, space, letter_e, letter_d,
        left_bracket]
    · rintro (hfalse | ⟨_, _, hfalse, _⟩ | ⟨_, _, hfalse, _⟩)
      · exact hends hfalse
      · exact hfalse trivial
      · cases hfalse

/-- A read does what its keys do, one by one, exactly when it fits. -/
theorem fits_iff {read : List Mark} (hchain : read.IsChain Mark.Precedes)
    (hlen : 1 ≤ read.length ∧ read.length ≤ 3) (buff : StdinBuff) :
    handle true read.length (buff.store (read.map Mark.byte)) =
        read.flatMap (Mark.completes true) ↔ Fits read := by
  match read, hlen with
  | [m], _ =>
    show handle true 1 (buff.store [m.byte]) = m.completes true ++ [] ↔ ¬ m.Ends
    rw [handle_short (.inl rfl)]
    exact own_byte_eq_iff.trans (and_iff_left rfl)
  | [m₁, m₂], _ =>
    show handle true 2 (buff.store [m₁.byte, m₂.byte]) =
      m₁.completes true ++ (m₂.completes true ++ []) ↔ ¬ m₁.Ends ∧ ¬ m₂.Ends ∧ ¬ m₂.Acts
    rw [handle_short (.inr rfl), List.append_nil, ← completes_eq_nil_iff]
    exact own_byte_eq_iff
  | [m₁, m₂, m₃], _ =>
    rw [List.isChain_cons_cons, List.isChain_cons_cons] at hchain
    have hthree := fits_three_iff hchain.1 hchain.2.1
    rw [← hthree, ← List.append_nil (m₃.completes true)]
    rfl

end Read

/-! ## All reads -/

/-- A key starts with a byte of its own, or with an escape. -/
theorem head_marks {keys : List Key} {m : Mark} (h : (keys.flatMap Key.marks).head? = some m) :
    (∃ b, m = .char b) ∨ ∃ a, m = .escape a := by
  cases keys with
  | nil => cases h
  | cons k keys =>
    cases k with
    | char b =>
      cases h
      exact .inl ⟨b, rfl⟩
    | arrow a =>
      cases h
      exact .inr ⟨a, rfl⟩

theorem chain_marks (keys : List Key) : (keys.flatMap Key.marks).IsChain Mark.Precedes := by
  induction keys with
  | nil => exact .nil
  | cons k keys ih =>
    rw [List.flatMap_cons, List.isChain_append]
    refine ⟨?_, ih, ?_⟩
    · cases k with
      | char b => exact .singleton _
      | arrow a => exact .cons_cons rfl (.cons_cons rfl (.singleton _))
    · intro m hm m' hm'
      have hhead := head_marks hm'
      cases k with
      | char b =>
        cases hm
        exact hhead
      | arrow a =>
        cases hm
        exact hhead

/-- The reads as their keys complete them. -/
def completed (selected : Bool) : Machine Unit (List Mark) (List Command) where
  step read _ := (read.flatMap (Mark.completes selected), ())

theorem completes_not_selected (m : Mark) : m.completes false = [] := by
  cases m with
  | char b => rfl
  | last a => rfl
  | _ => rfl

/-- All keys are complete when all bytes are read. -/
theorem flatMap_completes (selected : Bool) (keys : List Key) :
    (keys.flatMap Key.marks).flatMap (Mark.completes selected) =
      keys.flatMap (Key.alone selected) := by
  rw [List.flatMap_assoc]
  congr 1
  funext k
  cases k with
  | char b => exact List.append_nil _
  | arrow a => exact List.append_nil _

theorem answers_completed (selected : Bool) (reads : List (List Mark)) :
    (completed selected).answers () reads =
      reads.map fun read => read.flatMap (Mark.completes selected) := by
  induction reads with
  | nil => rfl
  | cons read reads ih =>
    rw [Machine.answers, List.map_cons, ← ih]
    rfl

theorem finds_terminal (selected : Bool) (buff : StdinBuff) {C : List Mark → Prop}
    {reads : List (List Mark)} :
    (∀ e ∈ (terminal selected).finds buff reads, C e.2) ↔ ∀ read ∈ reads, C read := by
  induction reads generalizing buff with
  | nil => exact iff_of_true (fun _ h => absurd h List.not_mem_nil) fun _ h =>
      absurd h List.not_mem_nil
  | cons read reads ih =>
    rw [Machine.finds, List.forall_mem_cons, List.forall_mem_cons, ih]

/-- The commands are those of the keys: after each read those of the keys that it completes, and
so in the end those of all keys, each in a read of its own. -/
structure Obeys (selected : Bool) (buff : StdinBuff) (keys : List Key)
    (reads : List (List Mark)) : Prop where
  so_far : ∀ n, ((terminal selected).answers buff (reads.take n)).flatten =
    (reads.take n).flatten.flatMap (Mark.completes selected)
  all : ((terminal selected).answers buff reads).flatten = keys.flatMap (Key.alone selected)

/-- With no selected entry no key does anything. -/
theorem answers_not_selected (buff : StdinBuff) (reads : List (List Mark)) :
    (terminal false).answers buff reads = (completed false).answers () reads := by
  refine (answers_eq_iff (R := fun _ _ => True) (C := fun _ _ => True) ?_
    (fun _ _ _ _ _ _ => trivial) trivial fun _ _ => trivial).mpr fun _ _ => trivial
  intro buff _ read _ _ _
  refine ⟨?_, trivial⟩
  have hnone : read.flatMap (Mark.completes false) = [] :=
    List.flatMap_eq_nil_iff.mpr fun m _ => completes_not_selected m
  exact (if_neg (by simp)).trans hnone.symm

theorem answers_selected_iff {buff : StdinBuff} {keys : List Key} {reads : List (List Mark)}
    (hsplit : reads.flatten = keys.flatMap Key.marks)
    (hsize : ∀ read ∈ reads, 1 ≤ read.length ∧ read.length ≤ 3) :
    (terminal true).answers buff reads = (completed true).answers () reads ↔
      ∀ read ∈ reads, Fits read := by
  rw [← finds_terminal true buff]
  refine answers_eq_iff (R := fun _ _ => True) (C := fun _ read => Fits read)
    (K := fun read => read.IsChain Mark.Precedes ∧ 1 ≤ read.length ∧ read.length ≤ 3)
    ?_ ?_ trivial ?_
  · intro buff _ read _ hok hfits
    exact ⟨(fits_iff hok.1 hok.2 buff).mpr hfits, trivial⟩
  · intro buff _ read _ hok heq
    exact (fits_iff hok.1 hok.2 buff).mp heq
  · intro read hread
    obtain ⟨front, back, heq⟩ := List.infix_of_mem_flatten hread
    have hchain := chain_marks keys
    rw [← hsplit, ← heq] at hchain
    exact ⟨hchain.left_of_append.right_of_append, hsize read hread⟩

/-- Every key has its command, and no other command comes, exactly when all reads fit (or when
no entry is selected, and no key does anything). -/
theorem keys_are_obeyed_iff {selected : Bool} {buff : StdinBuff} {keys : List Key}
    {reads : List (List Mark)} (hsplit : reads.flatten = keys.flatMap Key.marks)
    (hsize : ∀ read ∈ reads, 1 ≤ read.length ∧ read.length ≤ 3) :
    Obeys selected buff keys reads ↔ (selected = true → ∀ read ∈ reads, Fits read) := by
  have hflat : ∀ n, (reads.take n).flatten.flatMap (Mark.completes selected) =
      (((completed selected).answers () reads).take n).flatten := by
    intro n
    rw [answers_completed, ← List.map_take, ← List.flatMap_def, ← List.flatMap_id,
      List.flatMap_assoc]
    rfl
  have hsame : (terminal selected).answers buff reads = (completed selected).answers () reads ↔
      (selected = true → ∀ read ∈ reads, Fits read) := by
    cases selected with
    | false => exact iff_of_true (answers_not_selected buff reads) fun h => by cases h
    | true => exact (answers_selected_iff hsplit hsize).trans ⟨fun h _ => h, fun h => h rfl⟩
  have hlen : ((terminal selected).answers buff reads).length =
      ((completed selected).answers () reads).length := by
    rw [Machine.length_answers, Machine.length_answers]
  rw [← hsame, ← flatten_take_eq_iff hlen]
  constructor
  · rintro ⟨hfar, _⟩ n
    rw [← Machine.answers_take, hfar, hflat]
  · intro hall
    refine ⟨?_, ?_⟩
    · intro n
      rw [Machine.answers_take, hall, hflat]
    · have hlast := hall reads.length
      have htake := hflat reads.length
      rw [List.take_length, hsplit, flatMap_completes] at htake
      rw [htake, ← hlast, List.take_of_length_le]
      rw [Machine.length_answers]

/-! ## A read of three keys -/

/-- The reads of an arrow that is split after its first byte: the key does nothing. -/
theorem obeys_split_arrow :
    Obeys true ⟨0, 0, 0⟩ [.arrow .UP] [[.escape .UP], [.bracket .UP, .last .UP]] ↔
      (true = true → ∀ read ∈ [[Mark.escape .UP], [.bracket .UP, .last .UP]], Fits read) :=
  keys_are_obeyed_iff rfl (by decide)

/-- An `e` between two other keys is taken for a `d`, and of two keys in a read the second does
nothing. -/
theorem an_e_between_two_keys :
    (Key.char letter_e).alone true = [.start_aes .ENCRYPT] ∧
      (terminal true).answers ⟨0, 0, 0⟩ [[.char 0x78, .char letter_e, .char 0x78]] =
        [[.start_aes .DECRYPT]] ∧
      ¬ Obeys true ⟨0, 0, 0⟩ [.char 0x78, .char letter_e, .char 0x78]
        [[.char 0x78, .char letter_e, .char 0x78]] ∧
      ¬ Obeys true ⟨0, 0, 0⟩ [.char letter_d, .char space] [[.char letter_d, .char space]] := by
  refine ⟨by decide, by decide, ?_, ?_⟩
  · intro hobeys
    exact absurd hobeys.all (by decide)
  · intro hobeys
    exact absurd hobeys.all (by decide)

end key_presses
