-- Programs that send commands and go on with what they return. Over the driver, the core and the
-- SPI master they are the same as directly with the slave at the other end of the line, as long
-- as all commands are written and all reads give a word.
import AesMusicPlayer.Dialog
import AesMusicPlayer.SpiLink

open axis_fifo clocked dialog memory_words serial spi_master

namespace adau1761

/-! ## Over the driver -/

/-- The arguments of a command, with the default of `chip_addr`. -/
structure Request where
  addr : BitVec 16
  data_len : ℕ
  data : Option (List Byte)
  fits : 4 * (data_len + 3) < 2 ^ 32

/-- What the kernel answers to the calls of a command. -/
structure Replies where
  write : Answers
  tmp_buf : List Word
  read : ℕ → Answers

namespace Request

def words (q : Request) : List FifoWord := tx_buffer q.addr q.data_len q.data 0

def command (q : Request) (a : Replies) : Command :=
  ⟨q.addr, q.data_len, q.data, 0, q.fits, a.write, a.tmp_buf, a.read⟩

end Request

/-- The driver and the core, with all commands so far and what their calls did. -/
structure Link (σ : Type) where
  fifo : Fifo
  core : σ
  log : List (Command × List Done)

def Link.start {σ : Type} (f : Fifo) (x : σ) : Link σ := ⟨f, x, []⟩

/-- A command over the driver. The kernel answers the command number `i` with `env i`. -/
def link {σ : Type} (C : Core σ) (env : ℕ → Replies) : Machine Request Byte (Link σ) := fun q s =>
  let c := q.command (env s.log.length)
  let r := do_calls C s.fifo s.core c.calls
  ((c.result r.1).value, ⟨r.2.1, r.2.2, s.log ++ [(c, r.1)]⟩)

/-- The command is written, and each of its reads gives a word. -/
structure WentWell (e : Command × List Done) : Prop where
  written : axis_fifo.written e.2 = [e.1.packet]
  read : failed e.2 = 0
  no_reset : NoReset e.2

theorem wentWell_iff {e : Command × List Done} :
    WentWell e ↔ axis_fifo.written e.2 = [e.1.packet] ∧ failed e.2 = 0 ∧
      ∀ d ∈ e.2, d.event ≠ .reset :=
  ⟨fun h => ⟨h.written, h.read, h.no_reset⟩, fun ⟨hwritten, hread, hreset⟩ =>
    ⟨hwritten, hread, hreset⟩⟩

/-! ## Directly with the slave -/

/-- What is at the other end of the line. -/
structure Slave (κ : Type) where
  /-- what it puts on `miso` during the next word -/
  out : κ → Byte
  /-- a word has gone through, which was the last one of its packet or not -/
  take : κ → Byte × Bool → κ

/-- The low bytes of a packet. The flag is set for the last one. -/
def frame : List FifoWord → List (Byte × Bool)
  | [] => []
  | w :: ws => (w.setWidth 8, ws.isEmpty) :: frame ws

namespace Slave

variable {κ : Type} (S : Slave κ)

def takes (k : κ) (ws : List (Byte × Bool)) : κ := ws.foldl S.take k

/-- A command directly with the slave. Its value is what comes with its last word. -/
def exchange : Machine Request Byte κ := fun q k =>
  let ws := frame q.words
  (S.out (S.takes k ws.dropLast), S.takes k ws)

theorem takes_append (k : κ) (ws ws' : List (Byte × Bool)) :
    S.takes k (ws ++ ws') = S.takes (S.takes k ws) ws' := List.foldl_append

end Slave

/-- The words that the SPI master has accepted, with their flags. -/
def line (ins : ℕ → Inputs master) (m : ℕ → Master master) (n : ℕ) : List (Byte × Bool) :=
  (accepted ins m n).map fun a => (a.word, a.last)

/-- The slave hears the words on the line, and during each of them `miso` is what it puts out. -/
def Slave.OnLine {κ : Type} (S : Slave κ) (k : κ) (ins : ℕ → Inputs master) (m : ℕ → Master master)
    (n : ℕ) : Prop :=
  ∀ i, 8 * (i + 1) ≤ (miso_bits ins m n).length →
    ((miso_bits ins m n).drop (8 * i)).take 8 = bits (S.out (S.takes k ((line ins m n).take i)))

/-- The core tells the SPI master which word is the last one of its packet. -/
structure Framed (ins : ℕ → Inputs master) (m : ℕ → Master master) (n : ℕ) (v : View) : Prop
    extends Wired ins m n v where
  frames : line ins m n <+: (v.out ++ v.queued).flatMap fun p => frame (memory_words.words p)

theorem length_frame (ws : List FifoWord) : (frame ws).length = ws.length := by
  induction ws with
  | nil => rfl
  | cons w ws ih => exact congrArg Nat.succ ih

/-- The words of the commands on the line. -/
def frames_of (cs : List Command) : List (Byte × Bool) := cs.flatMap fun c => frame c.words

theorem length_frames_of (cs : List Command) : (frames_of cs).length = (words_of cs).length := by
  unfold frames_of words_of
  rw [List.length_flatMap, List.length_flatMap]
  exact congrArg List.sum (List.map_congr_left fun c _ => length_frame c.words)

theorem frames_of_packets (cs : List Command) :
    (cs.map Command.packet).flatMap (fun p => frame (memory_words.words p)) = frames_of cs := by
  unfold frames_of
  rw [List.flatMap_map]
  exact congrArg (cs.flatMap ·) (funext fun c => congrArg frame (words_bytes c.words))

/-! ## The log -/

section Log

variable {σ : Type} {C : Core σ} (env : ℕ → Replies) {f : Fifo} {x : σ} {s : Link σ}

def commands (es : List (Command × List Done)) : List Command := es.map Prod.fst

def dones (es : List (Command × List Done)) : List Done := es.flatMap Prod.snd

/-- The log is what the calls did, all from the start. -/
structure Logged (C : Core σ) (f : Fifo) (x : σ) (s : Link σ) : Prop where
  all : do_calls C f x ((commands s.log).flatMap Command.calls) = (dones s.log, s.fifo, s.core)
  each : ∀ e ∈ s.log, e.2.map Done.call = e.1.calls

theorem logged_start : Logged C f x (.start f x) := ⟨rfl, fun _ he => absurd he List.not_mem_nil⟩

theorem logged_link (h : Logged C f x s) (q : Request) : Logged C f x (link C env q s).2 := by
  constructor
  · have happ := do_calls_append C f x ((commands s.log).flatMap Command.calls)
      (q.command (env s.log.length)).calls
    rw [h.all] at happ
    simpa [link, commands, dones] using happ
  · intro e he
    rcases List.mem_append.mp he with he | he
    · exact h.each e he
    · rw [List.mem_singleton.mp he]
      exact do_calls_call C _ _ _

theorem logged_after (h : Logged C f x s) (tr : List (Request × Byte)) :
    Logged C f x (after (link C env) s tr) := by
  induction tr generalizing s with
  | nil => exact h
  | cons e tr ih => exact ih (logged_link env h e.1)

/-- The log goes on with a command for each request. -/
theorem log_after (tr : List (Request × Byte)) :
    ∃ es, (after (link C env) s tr).log = s.log ++ es ∧
      es.map (fun e => e.1.words) = tr.map (fun t => t.1.words) := by
  induction tr generalizing s with
  | nil => exact ⟨[], (List.append_nil _).symm, rfl⟩
  | cons t tr ih =>
    obtain ⟨es, hlog, hwords⟩ := ih (s := (link C env t.1 s).2)
    refine ⟨_ :: es, hlog.trans (List.append_assoc ..), ?_⟩
    rw [List.map_cons, List.map_cons, hwords]
    rfl

/-- The entry of a request stands behind those of the requests before it. -/
theorem log_at (tr₁ tr₂ : List (Request × Byte)) (q : Request) (a : Byte) :
    ∃ es₁ e es₂, (after (link C env) (.start f x) (tr₁ ++ (q, a) :: tr₂)).log = es₁ ++ e :: es₂ ∧
      es₁.map (fun e => e.1.words) = tr₁.map (fun t => t.1.words) ∧ e.1.words = q.words ∧
      (e.1.result e.2).value = (link C env q (after (link C env) (.start f x) tr₁)).1 := by
  obtain ⟨es₁, hlog₁, hwords₁⟩ := log_after (C := C) env (s := .start f x) tr₁
  rw [after_append]
  generalize after (link C env) (.start f x) tr₁ = s₁ at hlog₁
  obtain ⟨es₂, hlog₂, -⟩ := log_after env (s := (link C env q s₁).2) tr₂
  obtain rfl : s₁.log = es₁ := hlog₁
  exact ⟨s₁.log, _, es₂, hlog₂.trans (List.append_assoc ..), hwords₁, rfl, rfl⟩

end Log

/-! ## The values -/

/-- A command that went well took a packet for each of its words. -/
theorem WentWell.length_taken {e : Command × List Done} (he : WentWell e)
    (hc : e.2.map Done.call = e.1.calls) : (taken e.2).length = e.1.words.length := by
  have hlen := congrArg List.length hc
  have heq := length_eq he.no_reset
  rw [List.length_map, e.1.length_calls] at hlen
  rw [he.written, he.read, List.length_singleton] at heq
  omega

theorem taken_dones (es : List (Command × List Done)) :
    taken (dones es) = es.flatMap fun e => taken e.2 := List.flatMap_assoc ..

theorem written_dones {es : List (Command × List Done)} (h : ∀ e ∈ es, WentWell e) :
    written (dones es) = (commands es).map Command.packet := by
  induction es with
  | nil => rfl
  | cons e es ih =>
    have hrest := ih fun e' he' => h e' (List.mem_cons_of_mem _ he')
    have he := (h e (List.mem_cons_self ..)).written
    unfold written dones commands at *
    rw [List.flatMap_cons, List.flatMap_append, he, hrest]
    rfl

theorem no_reset_dones {es : List (Command × List Done)} (h : ∀ e ∈ es, WentWell e) :
    NoReset (dones es) := by
  intro d hd
  obtain ⟨e, he, hd⟩ := List.mem_flatMap.mp hd
  exact (h e he).no_reset d hd

theorem length_taken_dones {es : List (Command × List Done)} (h : ∀ e ∈ es, WentWell e)
    (hc : ∀ e ∈ es, e.2.map Done.call = e.1.calls) :
    (taken (dones es)).length = (words_of (commands es)).length := by
  unfold words_of commands
  rw [taken_dones, List.flatMap_map, List.length_flatMap, List.length_flatMap]
  exact congrArg List.sum (List.map_congr_left fun e he => (h e he).length_taken (hc e he))

/-- The bits that came in are as many as those that went out. -/
theorem miso_le_line {ins : ℕ → Inputs master} {m : ℕ → Master master} (hrun : IsRun ins m)
    {n i : ℕ} (hi : 8 * (i + 1) ≤ (miso_bits ins m n).length) : i < (line ins m n).length := by
  have hlen := (hrun.receives n).length
  have hsent := (hrun.fromIdle.mosi_prefix n).length_le
  rw [← hrun.mosi_bits_eq] at hlen
  rw [wordBits_length, Phase.words, List.length_map] at hsent
  have hW : master.WIDTH = 8 := rfl
  rw [line, List.length_map]
  rw [hW] at hsent
  omega

/-- The words before the last one of a command. -/
theorem frames_before (es₁ es₂ : List (Command × List Done)) (e : Command × List Done) :
    (frames_of (commands (es₁ ++ e :: es₂))).take
        ((words_of (commands es₁)).length + (e.1.words.length - 1)) =
      frames_of (commands es₁) ++ (frame e.1.words).dropLast := by
  have hsplit : frames_of (commands (es₁ ++ e :: es₂)) =
      frames_of (commands es₁) ++ (frame e.1.words ++ frames_of (commands es₂)) := by
    simp [frames_of, commands]
  rw [hsplit, ← length_frames_of, List.take_length_add_append, List.dropLast_eq_take, length_frame,
    List.take_append_of_le_length]
  rw [length_frame]
  exact Nat.sub_le ..

section Values

variable {σ κ : Type} {C : Core σ} {view : σ → View} (hdoc : Documented C view)
  {ins : ℕ → Inputs master} {m : ℕ → Master master} {f : Fifo} {x : σ}
  (hempty : Empty (view x)) {s : Link σ} (hlog : Logged C f x s) {n : ℕ}
  (hwell : ∀ e ∈ s.log, WentWell e) (hframed : Framed ins m n (view s.core))
include hdoc hempty hlog hwell hframed

/-- What is on the line are words of the commands, in their order. -/
theorem line_prefix : line ins m n <+: frames_of (commands s.log) := by
  have hall := hlog.all
  have hsent := link_spec hdoc f x hempty ((commands s.log).flatMap Command.calls)
    (by rw [hall]; exact no_reset_dones hwell)
  rw [hall] at hsent
  have hframes := hframed.frames
  rwa [hsent.1, written_dones hwell, frames_of_packets] at hframes

/-- The value of a command is what the slave puts out during its last word. -/
theorem value_on_line (hrun : IsRun ins m) {S : Slave κ} {k : κ} (hS : S.OnLine k ins m n)
    {es₁ es₂ : List (Command × List Done)} {e : Command × List Done}
    (heq : s.log = es₁ ++ e :: es₂) :
    (e.1.result e.2).value =
      S.out (S.takes k (frames_of (commands es₁) ++ (frame e.1.words).dropLast)) := by
  have hmem : e ∈ s.log := heq ▸ List.mem_append_right _ (List.mem_cons_self ..)
  have hall := hlog.all
  obtain ⟨-, harr⟩ := link_spec hdoc f x hempty ((commands s.log).flatMap Command.calls)
    (by rw [hall]; exact no_reset_dones hwell)
  rw [hall] at harr
  -- the last packet that the command took
  have hlen := (hwell e hmem).length_taken (hlog.each e hmem)
  have hpos : 0 < e.1.words.length := by
    rw [Command.words, tx_buffer_length]
    omega
  obtain ⟨p, hp⟩ := Option.isSome_iff_exists.mp
    (List.getLast?_isSome.mpr (List.ne_nil_of_length_pos (hlen ▸ hpos)))
  have hfour : ∀ p ∈ taken e.2, p.length = 4 := fun p hp =>
    hframed.length p (harr.subset (by rw [taken_dones]; exact List.mem_flatMap.mpr ⟨e, hmem, hp⟩))
  have hvalue := value_of_taken (hlog.each e hmem) hfour
  rw [hp] at hvalue
  -- its place among all packets, on the line and among the words of the commands
  have hplace : (taken (dones s.log))[(words_of (commands es₁)).length +
      (e.1.words.length - 1)]? = some p := by
    have hfirst : (taken (dones es₁)).length = (words_of (commands es₁)).length :=
      length_taken_dones (fun e' he' => hwell e' (heq ▸ List.mem_append_left _ he'))
        (fun e' he' => hlog.each e' (heq ▸ List.mem_append_left _ he'))
    rw [heq, taken_dones, List.flatMap_append, List.flatMap_cons, ← taken_dones, ← hfirst,
      List.getElem?_append_right (Nat.le_add_right ..), Nat.add_sub_cancel_left,
      List.getElem?_append_left (by omega), ← hp, List.getLast?_eq_getElem?, hlen]
  have hdel := getElem?_of_prefix hframed.packets
    (by rw [List.getElem?_map, getElem?_of_prefix harr hplace]; rfl)
  have hmiso := (hrun.miso_law n).1
  have hout := bits_at_place hmiso hdel
  have hle := hmiso.length_le
  have hlt := (List.getElem?_eq_some_iff.mp hdel).1
  rw [wordBits_length] at hle
  have hle : 8 * (delivered m n).length ≤ (miso_bits ins m n).length := hle
  have hwhole : 8 * ((words_of (commands es₁)).length + (e.1.words.length - 1) + 1) ≤
      (miso_bits ins m n).length := by
    omega
  rw [hvalue]
  apply eq_of_bits_eq
  refine hout.symm.trans ((hS _ hwhole).trans ?_)
  have hbefore := line_prefix hdoc hempty hlog hwell hframed
  obtain ⟨rest, hrest⟩ := hbefore
  rw [← frames_before es₁ es₂ e, ← heq, ← hrest,
    List.take_append_of_le_length (Nat.le_of_lt (miso_le_line hrun hwhole))]

end Values

/-! ## Programs -/

theorem after_exchange {κ : Type} (S : Slave κ) (k : κ) (tr : List (Request × Byte)) :
    after S.exchange k tr = S.takes k (tr.flatMap fun t => frame t.1.words) := by
  induction tr generalizing k with
  | nil => rfl
  | cons t tr ih =>
    rw [List.flatMap_cons, S.takes_append, ← ih]
    rfl

theorem frames_of_log {es : List (Command × List Done)} {tr : List (Request × Byte)}
    (h : es.map (fun e => e.1.words) = tr.map fun t => t.1.words) :
    frames_of (commands es) = tr.flatMap fun t => frame t.1.words := by
  have hframes := congrArg (List.flatMap frame) h
  rw [List.flatMap_map, List.flatMap_map] at hframes
  unfold frames_of commands
  rw [List.flatMap_map]
  exact hframes

section Programs

variable {σ κ R : Type} {C : Core σ} {view : σ → View} (hdoc : Documented C view)
  {ins : ℕ → Inputs master} {m : ℕ → Master master} (hrun : IsRun ins m) {f : Fifo} {x : σ}
  (hempty : Empty (view x)) {env : ℕ → Replies} {S : Slave κ} {k : κ} {p : Dialog Request Byte R}
  {n : ℕ}
include hdoc hrun hempty

/-- Directly with the slave the program makes the same requests and gets the same values. -/
theorem run_on_line (hwell : ∀ e ∈ (p.run (link C env) (.start f x)).2.2.log, WentWell e)
    (hframed : Framed ins m n (view (p.run (link C env) (.start f x)).2.2.core))
    (hS : S.OnLine k ins m n) :
    p.run S.exchange k =
      ((p.run (link C env) (.start f x)).1, (p.run (link C env) (.start f x)).2.1,
        S.takes k (frames_of (commands (p.run (link C env) (.start f x)).2.2.log))) := by
  obtain ⟨hgives, hstate⟩ := gives_run (m := link C env) p (.start f x)
  have hends := Dialog.ends_run (link C env) p (.start f x)
  rw [hstate] at hwell hframed ⊢
  generalize (p.run (link C env) (.start f x)).2.1 = tr at *
  have hlogged : Logged C f x _ := logged_after env logged_start tr
  have hgives' : Gives S.exchange k tr := by
    refine gives_iff.mpr fun tr₁ q a tr₂ heq => ?_
    obtain ⟨es₁, e, es₂, hlog, hwords₁, hwords, hlink⟩ :=
      log_at (C := C) env (f := f) (x := x) tr₁ tr₂ q a
    rw [← heq] at hlog
    have hvalue := value_on_line hdoc hempty hlogged hwell hframed hrun hS hlog
    rw [hlink, gives_iff.mp hgives tr₁ q a tr₂ heq, hwords, S.takes_append] at hvalue
    rw [after_exchange, ← frames_of_log hwords₁]
    exact hvalue.symm
  obtain ⟨es, hlog, hwords⟩ := log_after (C := C) env (s := .start f x) tr
  rw [Dialog.run_eq hends hgives', after_exchange, ← frames_of_log hwords]
  rw [show (after (link C env) (.start f x) tr).log = es from hlog]

/-- When all words are on the line, the slave has come to the state that the program leads to. -/
theorem eval_on_line (hwell : ∀ e ∈ (p.run (link C env) (.start f x)).2.2.log, WentWell e)
    (hframed : Framed ins m n (view (p.run (link C env) (.start f x)).2.2.core))
    (hS : S.OnLine k ins m n)
    (hlen : (line ins m n).length =
      (words_of (commands (p.run (link C env) (.start f x)).2.2.log)).length) :
    p.eval S.exchange k =
      ((p.run (link C env) (.start f x)).1, S.takes k (line ins m n)) := by
  have hlogged : Logged C f x (p.run (link C env) (.start f x)).2.2 := by
    rw [(gives_run (m := link C env) p (.start f x)).2]
    exact logged_after env logged_start _
  have hpre := line_prefix hdoc hempty hlogged hwell hframed
  rw [Dialog.eval, run_on_line hdoc hrun hempty hwell hframed hS,
    hpre.eq_of_length (by rw [hlen, length_frames_of])]

end Programs

/-! ## A slave on the bench -/

/-- The words of the packets that are through a core, or will be. -/
def frames (v : View) : List (Byte × Bool) :=
  (v.out ++ v.queued).flatMap fun p => frame (memory_words.words p)

theorem low_bytes_eq (ws : List FifoWord) : low_bytes ws = (frame ws).map Prod.fst := by
  induction ws with
  | nil => rfl
  | cons w ws ih => exact congrArg (w.setWidth 8 :: ·) ih

/-- The words of the line are those of the packets when their frames are. -/
theorem framed_of_frames {ins : ℕ → Inputs master} {m : ℕ → Master master} {n : ℕ} {v : View}
    (hframes : line ins m n <+: (v.out ++ v.queued).flatMap fun p => frame (memory_words.words p))
    (hpackets : v.arrived.map (·.getD 0 0) <+: delivered m n)
    (hlength : ∀ p ∈ v.arrived, p.length = 4) : Framed ins m n v := by
  refine ⟨⟨?_, hpackets, hlength⟩, hframes⟩
  have hwords := hframes.map Prod.fst
  unfold line at hwords
  simp only [List.map_flatMap, List.map_map, ← low_bytes_eq] at hwords
  unfold low_bytes at hwords ⊢
  rw [List.map_flatMap]
  exact hwords

namespace Slave

variable {κ : Type} (S : Slave κ) (k : κ)

/-- What the slave puts out during the word behind these. -/
def answer (ws : List (Accepted master)) : Byte :=
  S.out (S.takes k (ws.map fun a => (a.word, a.last)))

/-- What it puts out during each of the words. -/
def outs (fs : List (Byte × Bool)) : List Byte :=
  (List.range fs.length).map fun i => S.out (S.takes k (fs.take i))

variable (fs : List (Byte × Bool))

def inputs : ℕ → Inputs master := bench_inputs (S.answer k) (fs.map fun e => ⟨e.1, e.2⟩)

def run : ℕ → Master master := bench_run (S.answer k) (fs.map fun e => ⟨e.1, e.2⟩)

/-- The words end with the last one of a packet. -/
theorem isRun (hlast : fs.getLast?.map Prod.snd = some true) :
    IsRun (S.inputs k fs) (S.run k fs) := by
  refine bench_isRun _ _ fun ws w heq => ?_
  have hlast' := congrArg (fun ws => ws.getLast?.map Accepted.last) heq
  rw [List.getLast?_append, List.getLast?_singleton, List.getLast?_map, Option.map_map] at hlast'
  exact Option.some.inj (hlast'.symm.trans hlast)

theorem answered_eq : answered (S.answer k) (fs.map fun e => ⟨e.1, e.2⟩) = S.outs k fs := by
  unfold answered outs
  rw [List.length_map]
  refine List.map_congr_left fun i _ => ?_
  unfold answer
  rw [← List.map_take, List.map_map]
  exact congrArg (fun fs => S.out (S.takes k fs)) (List.map_id _)

/-- All of the words are on the line, with the slave at its other end. -/
theorem all_on_line (hlast : fs.getLast?.map Prod.snd = some true) :
    ∃ n, line (S.inputs k fs) (S.run k fs) n = fs ∧
      S.OnLine k (S.inputs k fs) (S.run k fs) n ∧ delivered (S.run k fs) n = S.outs k fs := by
  obtain ⟨n, hacc, hmiso, hdel⟩ := all_delivered (S.isRun k fs hlast)
  have hline : line (S.inputs k fs) (S.run k fs) n = fs := by
    unfold line
    rw [show accepted (S.inputs k fs) (S.run k fs) n = _ from hacc, List.map_map]
    exact List.map_id _
  have hmiso : miso_bits (S.inputs k fs) (S.run k fs) n = wordBits (S.outs k fs) := by
    rw [← S.answered_eq]
    exact hmiso
  refine ⟨n, hline, fun i hi => ?_, hdel.trans (S.answered_eq k fs)⟩
  rw [hline, hmiso]
  have hlt : i < fs.length := by
    rw [hmiso, wordBits_length, outs, List.length_map, List.length_range] at hi
    omega
  apply bits_at_place (List.prefix_refl _)
  unfold outs
  rw [List.getElem?_map, List.getElem?_range hlt, Option.map_some]

/-- The words of a core are on the line, and the slave has put out what came back to it. -/
theorem framed_on_line {v : View} (hlast : (frames v).getLast?.map Prod.snd = some true)
    (hpackets : v.arrived.map (·.getD 0 0) = S.outs k (frames v))
    (hlength : ∀ p ∈ v.arrived, p.length = 4) :
    ∃ n, line (S.inputs k (frames v)) (S.run k (frames v)) n = frames v ∧
      S.OnLine k (S.inputs k (frames v)) (S.run k (frames v)) n ∧
      Framed (S.inputs k (frames v)) (S.run k (frames v)) n v := by
  obtain ⟨n, hline, hslave, hdel⟩ := S.all_on_line k (frames v) hlast
  refine ⟨n, hline, hslave, framed_of_frames ?_ ?_ hlength⟩
  · rw [hline]
    exact List.prefix_refl _
  · rw [hdel, hpackets]

end Slave

/-! ## Two requests -/

def all_good (_ : ℕ) : Replies := ⟨.good, [], fun _ => .good⟩

/-- The second command writes what the first one has returned, and one more. -/
def two_requests : Dialog Request Byte Byte := do
  let value ← .request ⟨0x4015, 1, some [0xA5], one_fits⟩
  .request ⟨0x40F9, 2, some [value, value + 1], of_decide_eq_true rfl⟩

/-- A slave that puts out each byte of a packet during the next one. -/
def late_slave : Slave Byte := ⟨id, fun _ w => if w.2 then 0 else w.1⟩

/-- What comes back through the core. -/
def late_core : Core Echo := Echo.core fun p => 0 :: (memory_words.words p).dropLast

def two_requests_link : Link Echo :=
  (two_requests.run (link late_core all_good) (.start (.of_depth 508) Echo.empty)).2.2

theorem two_requests_well : ∀ e ∈ two_requests_link.log, WentWell e := by
  simp only [wentWell_iff]
  decide +kernel

def two_requests_frames : List (Byte × Bool) := frames two_requests_link.core.view

/-- Over the driver, the core and the SPI master, a program makes the requests and gets the values
that it does directly with the slave, when all commands go well. And when all of their words are on
the line, the slave has come to the same state. -/
theorem the_line_is_an_exchange {σ κ R : Type} {C : Core σ} {view : σ → View}
    (hdoc : Documented C view) {ins : ℕ → Inputs master} {m : ℕ → Master master}
    (hrun : IsRun ins m) (f : Fifo) (x : σ) (hempty : Empty (view x)) (env : ℕ → Replies)
    (S : Slave κ) (k : κ) (p : Dialog Request Byte R) (n : ℕ) :
    let r := p.run (link C env) (.start f x)
    let r' := p.run S.exchange k
    (∀ e ∈ r.2.2.log, WentWell e) → Framed ins m n (view r.2.2.core) → S.OnLine k ins m n →
      r.1 = r'.1 ∧ r.2.1 = r'.2.1 ∧
        ((line ins m n).length = (words_of (commands r.2.2.log)).length →
          S.takes k (line ins m n) = r'.2.2) := by
  intro r r' hwell hframed hS
  have heq : r' = _ := run_on_line hdoc hrun hempty hwell hframed hS
  refine ⟨?_, ?_, fun hlen => ?_⟩
  · rw [heq]
  · rw [heq]
  · exact (congrArg Prod.snd (eval_on_line hdoc hrun hempty hwell hframed hS hlen)).symm

theorem two_requests_are_an_exchange :
    let r := two_requests.run (link late_core all_good) (.start (.of_depth 508) Echo.empty)
    let r' := two_requests.run late_slave.exchange 0
    r.1 = 0x16 ∧ ∃ n, r.1 = r'.1 ∧ r.2.1 = r'.2.1 ∧
      late_slave.takes 0 (line (late_slave.inputs 0 two_requests_frames)
        (late_slave.run 0 two_requests_frames) n) = r'.2.2 := by
  intro r r'
  obtain ⟨n, hline, hslave, hframed⟩ := late_slave.framed_on_line 0
    (v := two_requests_link.core.view) (by decide +kernel) (by decide +kernel) (by decide +kernel)
  obtain ⟨hret, hvalues, hstate⟩ := the_line_is_an_exchange (Echo.documented _)
    (late_slave.isRun 0 two_requests_frames (by decide +kernel)) (.of_depth 508) Echo.empty
    empty_echo all_good late_slave 0 two_requests n two_requests_well hframed hslave
  have hlen := congrArg List.length hline
  exact ⟨by decide +kernel, n, hret, hvalues, hstate (hlen.trans (by decide +kernel))⟩

end adau1761
