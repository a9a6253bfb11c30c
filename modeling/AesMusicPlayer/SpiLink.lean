-- The commands of the class `adau1761` on their way: through the driver and the FIFO core to the
-- SPI master, and back. What a command returns is what the codec put on the line, some words
-- before it when reads have failed.
import AesMusicPlayer.FifoCalls
import AesMusicPlayer.SpiCommand
import AesMusicPlayer.SpiBench

open axis_fifo clocked memory_words serial spi_master

namespace adau1761

/-! ## A command as calls of the driver -/

theorem tx_buffer_length (addr : BitVec 16) (data_len : ℕ) (data : Option (List Byte))
    (chip_addr : BitVec 32) : (tx_buffer addr data_len data chip_addr).length = data_len + 3 := by
  unfold tx_buffer
  cases data with
  | none => simp [Nat.add_comm]
  | some data =>
    dsimp only
    rw [swap_endianness_spec data data_len _ (header_length ..)]
    simp [Nat.add_comm]

/-- A command with its arguments, and with what the kernel answers to its calls. -/
structure Command where
  addr : BitVec 16
  data_len : ℕ
  data : Option (List Byte)
  chip_addr : BitVec 32
  fits : 4 * (data_len + 3) < 2 ^ 32
  write : Answers
  tmp_buf : List Word
  read : ℕ → Answers

namespace Command

def words (c : Command) : List FifoWord := tx_buffer c.addr c.data_len c.data c.chip_addr

def packet (c : Command) : Packet := bytes c.words

theorem packet_fits (c : Command) : c.packet.length < 2 ^ 32 := by
  unfold packet words
  rw [length_bytes, tx_buffer_length]
  exact c.fits

/-- One `write`, and a `read` into `rx_val` for each word. -/
def calls (c : Command) : List Call :=
  .write c.write ⟨c.packet, c.packet_fits⟩ c.tmp_buf ::
    (List.range (c.data_len + 3)).map fun i => .read (c.read i) 4

end Command

/-- The word that a `read` copied. -/
def rx_word (d : Done) : Option FifoWord := if 0 < d.ret then some (put d.data 0) else none

/-- The driver answers a command. The first call is the `write`. -/
def answers (ds : List Done) : SpiAnswers := ⟨true, fun i => ds[i + 1]?.bind rx_word⟩

def Command.result (c : Command) (ds : List Done) : SpiResult :=
  spi_command (answers ds) c.addr c.data_len c.data c.chip_addr

/-! ## The value of a command -/

/-- A loop over the places of a list that keeps the last word. -/
theorem foldl_last {α β : Type*} (g : α → Option β) (l : List α) (v : β) :
    (List.range l.length).foldl (fun v i => (l[i]?.bind g).getD v) v =
      (l.filterMap g).getLast?.getD v := by
  induction l using List.reverseRecOn with
  | nil => rfl
  | append_singleton l a ih =>
    have hfirst : (List.range l.length).foldl (fun v i => ((l ++ [a])[i]?.bind g).getD v) v =
        (List.range l.length).foldl (fun v i => (l[i]?.bind g).getD v) v := by
      apply List.foldl_ext
      intro v i hi
      rw [List.getElem?_append_left (List.mem_range.mp hi)]
    rw [List.length_append, List.length_singleton, List.range_succ, List.foldl_append, hfirst, ih,
      List.filterMap_append]
    cases hg : g a <;> simp [hg]

theorem low_byte (w : FifoWord) : (w &&& 0xFF).setWidth 8 = w.extractLsb' 0 8 := by
  have hmask : ∀ i (hi : i < 8), (0xFF : BitVec 8)[i] = true := by decide
  ext i hi
  have hi' := hmask i hi
  simpa using fun _ => hi'

/-- The byte that `spi_command` returns is the first of the four. -/
theorem low_byte_of_put {p : Packet} (hp : p.length = 4) :
    (put p 0 &&& 0xFF).setWidth 8 = p.getD 0 0 := by
  match p, hp with
  | [a, b, c, d], _ =>
    rw [low_byte]
    exact congrArg (fun l => l.getD 0 0) (bytes_of_word a b c d)

theorem event_of_read {d : Done} {a : Answers} {len : ℕ} (hd : d.call = .read a len) :
    d.event = read_event ⟨d.ret, d.data⟩ := by
  unfold Done.event
  rw [hd]

/-- The words of the reads are the packets that were taken. -/
theorem rx_words {ds : List Done} (h : ∀ d ∈ ds, ∃ a len, d.call = .read a len) :
    ds.filterMap rx_word = (taken ds).map fun p => put p 0 := by
  induction ds with
  | nil => rfl
  | cons d ds ih =>
    obtain ⟨a, len, hd⟩ := h d (List.mem_cons_self ..)
    have hev := event_of_read hd
    have htaken : taken (d :: ds) = d.event.taken ++ taken ds := List.flatMap_cons
    rw [htaken, List.map_append, ← ih fun d hd => h d (List.mem_cons_of_mem _ hd), hev]
    unfold read_event rx_word
    by_cases hpos : 0 < d.ret
    · simp [hpos, Event.taken]
    · simp only [List.filterMap_cons, hpos, if_false]
      split <;> rfl

theorem result_value {c : Command} {d : Done} {ds : List Done} (hlen : ds.length = c.data_len + 3) :
    (c.result (d :: ds)).value =
      (((ds.filterMap rx_word).getLast?.getD 0) &&& 0xFF).setWidth 8 := by
  unfold Command.result spi_command answers
  simp only [if_true, List.getElem?_cons_succ]
  rw [← hlen, foldl_last]

/-! ## The line -/

/-- The SPI master with the parameters of its source. -/
@[reducible] def master : Params :=
  ⟨8, 4, 32, 32, Nat.le_add_left 1 7, Nat.le_add_left 1 3, Nat.le_add_left 8 24,
    Nat.le_add_left 8 24⟩

def low_bytes (ws : List FifoWord) : List Byte := ws.map (·.setWidth 8)

/-- The core hands the words of its packets to the SPI master, which takes the low byte of each,
and each word that the master delivers is a packet of one word for the core. -/
structure Wired (ins : ℕ → Inputs master) (m : ℕ → Master master) (n : ℕ) (v : View) : Prop where
  words : Phase.words (accepted ins m n) <+:
    low_bytes ((v.out ++ v.queued).flatMap memory_words.words)
  packets : v.arrived.map (·.getD 0 0) <+: delivered m n
  length : ∀ p ∈ v.arrived, p.length = 4

/-- Nothing went through the core yet. -/
structure Empty (v : View) : Prop extends v.Quiet where
  out : v.out = []
  queued : v.queued = []
  waiting : v.waiting = []
  arrived : v.arrived = []

theorem getElem?_of_prefix {α : Type*} {l l' : List α} (h : l <+: l') {k : ℕ} {a : α}
    (hk : l[k]? = some a) : l'[k]? = some a := by
  obtain ⟨rest, rfl⟩ := h
  rw [List.getElem?_append_left (List.getElem?_eq_some_iff.mp hk).1, hk]

/-- The words of all commands. -/
def words_of (cs : List Command) : List FifoWord := cs.flatMap Command.words

theorem words_of_packets (cs : List Command) :
    (cs.map Command.packet).flatMap memory_words.words = words_of cs := by
  unfold words_of
  rw [List.flatMap_map]
  exact congrArg (cs.flatMap ·) (funext fun c => words_bytes c.words)

theorem Command.length_calls (c : Command) : c.calls.length = 1 + c.words.length := by
  simp [calls, words, tx_buffer_length, Nat.add_comm]

theorem length_words_of (cs : List Command) :
    (cs.flatMap Command.calls).length = cs.length + (words_of cs).length := by
  induction cs with
  | nil => rfl
  | cons c cs ih =>
    rw [List.flatMap_cons, List.length_append, c.length_calls, ih]
    unfold words_of
    rw [List.flatMap_cons, List.length_append, List.length_cons]
    omega

/-- The number of the word whose answer a command returns: the words of all commands so far,
without the reads that failed. -/
theorem taken_length {σ : Type} {C : Core σ} (cs : List Command) (f : Fifo) (x : σ)
    (hno : NoReset (do_calls C f x (cs.flatMap Command.calls)).1)
    (hw : written (do_calls C f x (cs.flatMap Command.calls)).1 = cs.map Command.packet) :
    (taken (do_calls C f x (cs.flatMap Command.calls)).1).length =
      (words_of cs).length - failed (do_calls C f x (cs.flatMap Command.calls)).1 := by
  have hlen := congrArg List.length (do_calls_call C f x (cs.flatMap Command.calls))
  rw [List.length_map, length_words_of, length_eq hno, hw, List.length_map] at hlen
  omega

/-- The calls of a command: the `write`, and then the reads. -/
theorem command_calls {c : Command} {ds : List Done} (h : ds.map Done.call = c.calls) :
    ∃ d reads, ds = d :: reads ∧ reads.length = c.data_len + 3 ∧ d.event.taken = [] ∧
      ∀ d' ∈ reads, ∃ a len, d'.call = .read a len := by
  match ds, h with
  | d :: reads, h =>
    obtain ⟨hd, hreads⟩ := List.cons_eq_cons.mp h
    refine ⟨d, reads, rfl, ?_, ?_, ?_⟩
    · simpa using congrArg List.length hreads
    · unfold Done.event
      rw [hd]
      dsimp only [write_event]
      split
      · rfl
      · split <;> rfl
    · intro d' hd'
      have hmem : d'.call ∈ (List.range (c.data_len + 3)).map fun i => Call.read (c.read i) 4 :=
        hreads ▸ List.mem_map_of_mem hd'
      obtain ⟨i, -, hi⟩ := List.mem_map.mp hmem
      exact ⟨c.read i, 4, hi.symm⟩

/-- A command returns the first byte of the last packet that it took. -/
theorem value_of_taken {c : Command} {ds : List Done} (h : ds.map Done.call = c.calls)
    (hlen : ∀ p ∈ taken ds, p.length = 4) :
    (c.result ds).value = ((taken ds).getLast?.map (·.getD 0 0)).getD 0 := by
  obtain ⟨d, reads, rfl, hreads, hd, hcalls⟩ := command_calls h
  have htaken : taken (d :: reads) = taken reads := by
    unfold taken
    rw [List.flatMap_cons, hd, List.nil_append]
  rw [htaken] at hlen ⊢
  rw [result_value hreads, rx_words hcalls, List.getLast?_map]
  cases hlast : (taken reads).getLast? with
  | none => rfl
  | some p => exact low_byte_of_put (hlen p (List.mem_of_getLast? hlast))

section Link

variable {σ : Type} {C : Core σ} {view : σ → View} (hdoc : Documented C view)
include hdoc

/-- The packets of commands that were all written, and those that came in. -/
theorem link_spec (f : Fifo) (x : σ) (hempty : Empty (view x)) (calls : List Call)
    (hno : NoReset (do_calls C f x calls).1) :
    let r := do_calls C f x calls
    (view r.2.2).out ++ (view r.2.2).queued = written r.1 ∧
      taken r.1 <+: (view r.2.2).arrived := by
  obtain ⟨hsends, new, harr, hall⟩ := (do_calls_spec hdoc calls f x hempty.toQuiet).exact hno
  have hsent := hsends.all
  rw [hempty.out, hempty.queued, List.nil_append, List.nil_append] at hsent
  rw [hempty.arrived, List.nil_append] at harr
  rw [hempty.waiting, List.nil_append, ← harr] at hall
  exact ⟨hsent, _, hall⟩

end Link

/-! ## A core that is slow -/

theorem one_fits : 4 * (1 + 3) < 2 ^ 32 := of_decide_eq_true rfl

def one_byte : Command :=
  ⟨0x4015, 1, some [0xA5], 0, one_fits, .good, [], fun _ => .good⟩

def three_bytes : Command :=
  ⟨0x40F9, 3, some [0x12, 0x34, 0x56], 0, of_decide_eq_true rfl, .good, [], fun _ => .good⟩

/-- What comes back with the word number `i` is 17 times its number. -/
def numbered (ws : List (Accepted master)) : Byte := .ofNat 8 (17 * ws.length)

/-- For three words of each command, what comes back is there in time. -/
def slow_core : Core Echo := Echo.core fun p =>
  if p = one_byte.packet then [0x00, 0x11, 0x22] else [0x33, 0x44, 0x55]

theorem empty_echo : Empty Echo.empty.view := ⟨Echo.empty_quiet, rfl, rfl, rfl, rfl⟩

/-- The words of both commands, with the flag for the last one. -/
def both_words : List (Accepted master) :=
  [⟨0x00, false⟩, ⟨0x40, false⟩, ⟨0x15, false⟩, ⟨0xA5, true⟩, ⟨0x00, false⟩, ⟨0x40, false⟩,
    ⟨0xF9, false⟩, ⟨0x34, false⟩, ⟨0x00, false⟩, ⟨0x56, true⟩]

def both_inputs : ℕ → Inputs master := bench_inputs numbered both_words

def both_run : ℕ → Master master := bench_run numbered both_words

def both_calls : List Done × Fifo × Echo :=
  do_calls slow_core (.of_depth 508) Echo.empty
    ([one_byte, three_bytes].flatMap Command.calls)

theorem both_isRun : IsRun both_inputs both_run := by
  have hends : Phase.Ended (both_words.dropLast ++ [⟨0x56, true⟩]) := Phase.ended_append rfl
  exact bench_isRun numbered both_words hends

theorem both_no_reset : NoReset both_calls.1 := by
  unfold NoReset
  decide +kernel

theorem both_written :
    written both_calls.1 = [one_byte, three_bytes].map Command.packet := by
  decide +kernel

theorem both_wired : ∃ n, (accepted both_inputs both_run n).length = 10 ∧
    Wired both_inputs both_run n both_calls.2.2.view := by
  obtain ⟨n, hacc, -, hdel⟩ := all_delivered both_isRun
  refine ⟨n, congrArg List.length hacc, ?_, ?_, by decide +kernel⟩
  · have hwords : Phase.words both_words <+:
        low_bytes ((both_calls.2.2.view.out ++ both_calls.2.2.view.queued).flatMap
          memory_words.words) := by decide +kernel
    rwa [← hacc] at hwords
  · have hpackets : both_calls.2.2.view.arrived.map (·.getD 0 0) <+:
        answered numbered both_words := by decide +kernel
    rwa [← hdel] at hpackets

/-- When all commands are written, what is on `mosi` is their bytes in order, and all of them
come. -/
theorem mosi_carries_the_commands {σ : Type} {C : Core σ} {view : σ → View}
    (hdoc : Documented C view) {ins : ℕ → Inputs master} {m : ℕ → Master master}
    (hrun : IsRun ins m) (f : Fifo) (x : σ) (hempty : Empty (view x)) (cs : List Command) (n : ℕ) :
    let r := do_calls C f x (cs.flatMap Command.calls)
    NoReset r.1 → written r.1 = cs.map Command.packet → Wired ins m n (view r.2.2) →
      mosi_bits m n <+: wordBits (low_bytes (words_of cs)) ∧
      ((accepted ins m n).length = (words_of cs).length →
        ∃ n', wordBits (low_bytes (words_of cs)) <+: mosi_bits m n') := by
  intro r hno hw hwired
  have hsent := (link_spec hdoc f x hempty _ hno).1
  have hwords := hwired.words
  rw [hsent, hw, words_of_packets] at hwords
  obtain ⟨hpre, n', hall⟩ := hrun.fromIdle.mosi_law n
  refine ⟨hpre.trans <| wordBits_prefix hwords, fun hlen => ⟨n', ?_⟩⟩
  have heq : Phase.words (accepted ins m n) = low_bytes (words_of cs) := by
    apply hwords.eq_of_length
    unfold Phase.words low_bytes
    rw [List.length_map, List.length_map, hlen]
  rwa [heq] at hall

/-- Each byte comes from its high bit on. Of the three bytes the first one is not sent. -/
theorem two_commands_are_on_mosi :
    ∃ n', wordBits ([0x00, 0x40, 0x15, 0xA5, 0x00, 0x40, 0xF9, 0x34, 0x00, 0x56] : List Byte) <+:
      mosi_bits both_run n' := by
  obtain ⟨n, hlen, hwired⟩ := both_wired
  have hall := (mosi_carries_the_commands (Echo.documented _) both_isRun (.of_depth 508) Echo.empty
    empty_echo [one_byte, three_bytes] n both_no_reset both_written hwired).2 hlen
  rwa [show low_bytes (words_of [one_byte, three_bytes]) =
    [0x00, 0x40, 0x15, 0xA5, 0x00, 0x40, 0xF9, 0x34, 0x00, 0x56] by decide +kernel] at hall

/-- A command returns what the codec put on `miso` during one word of the commands so far. It is
its own last word when no read failed, and otherwise as many words before it as reads failed. -/
theorem value_is_on_miso {σ : Type} {C : Core σ} {view : σ → View}
    (hdoc : Documented C view) {ins : ℕ → Inputs master} {m : ℕ → Master master}
    (hrun : IsRun ins m) (f : Fifo) (x : σ) (hempty : Empty (view x)) (cs : List Command)
    (c : Command) (n : ℕ) :
    let r := do_calls C f x (cs.flatMap Command.calls)
    let r' := do_calls C r.2.1 r.2.2 c.calls
    let ds := r.1 ++ r'.1
    NoReset ds → written ds = (cs ++ [c]).map Command.packet → Wired ins m n (view r'.2.2) →
      (taken r'.1 = [] → (c.result r'.1).value = 0) ∧
      (taken r'.1 ≠ [] → ∃ k, k + 1 + failed ds = (words_of (cs ++ [c])).length ∧
        bits (c.result r'.1).value = ((miso_bits ins m n).drop (8 * k)).take 8) := by
  intro r r' ds hno hw hwired
  have happ : do_calls C f x ((cs ++ [c]).flatMap Command.calls) = (ds, r'.2) := by
    rw [List.flatMap_append, List.flatMap_singleton]
    exact do_calls_append C f x _ _
  have hall := link_spec hdoc f x hempty ((cs ++ [c]).flatMap Command.calls)
  have hcount := taken_length (C := C) (cs ++ [c]) f x
  rw [happ] at hall hcount
  obtain ⟨-, harr⟩ := hall hno
  have hcount : (taken ds).length = (words_of (cs ++ [c])).length - failed ds := hcount hno hw
  have hsplit : taken ds = taken r.1 ++ taken r'.1 := List.flatMap_append
  have hlen : ∀ p ∈ taken r'.1, p.length = 4 := fun p hp =>
    hwired.length p (harr.subset (hsplit ▸ List.mem_append_right _ hp))
  have hvalue := value_of_taken (do_calls_call C _ _ c.calls) hlen
  constructor
  · intro hnil
    rw [hvalue, hnil]
    rfl
  · intro hne
    obtain ⟨p, hp⟩ := Option.isSome_iff_exists.mp (List.getLast?_isSome.mpr hne)
    have hlast : (taken ds)[(taken ds).length - 1]? = some p := by
      rw [← List.getLast?_eq_getElem?, hsplit, List.getLast?_append, hp]
      rfl
    have hdel := getElem?_of_prefix hwired.packets
      (by rw [List.getElem?_map, getElem?_of_prefix harr hlast]; rfl)
    refine ⟨(taken ds).length - 1, ?_, ?_⟩
    · have hpos : 0 < (taken ds).length := by
        rw [hsplit, List.length_append]
        have hpos := List.length_pos_of_ne_nil hne
        omega
      omega
    · rw [hvalue, hp]
      exact (bits_at_place (hrun.miso_law n).1 hdel).symm

/-- What the calls of the second command did. -/
def three_bytes_calls : List Done :=
  let r := do_calls slow_core (.of_depth 508) Echo.empty one_byte.calls
  (do_calls slow_core r.2.1 r.2.2 three_bytes.calls).1

/-- Four reads failed, and the second command returns what came with the word 5 of 10. -/
theorem value_of_three_bytes : (three_bytes.result three_bytes_calls).value = 0x55 ∧
    ∃ n, bits (three_bytes.result three_bytes_calls).value =
      ((miso_bits both_inputs both_run n).drop 40).take 8 := by
  refine ⟨by decide +kernel, ?_⟩
  obtain ⟨n, -, hwired⟩ := both_wired
  have h := value_is_on_miso (Echo.documented _) both_isRun (.of_depth 508) Echo.empty empty_echo
    [one_byte] three_bytes n both_no_reset both_written hwired
  obtain ⟨k, hk, hbits⟩ := h.2 (by decide +kernel)
  have hk : k + 1 + failed both_calls.1 = (words_of [one_byte, three_bytes]).length := hk
  rw [show failed both_calls.1 = 4 by decide +kernel,
    show (words_of [one_byte, three_bytes]).length = 10 by decide +kernel] at hk
  obtain rfl : k = 5 := by omega
  exact ⟨n, hbits⟩

end adau1761
