-- The driver of the FIFO core: `write` sends a buffer as one packet, and `read` takes one
-- packet. Both go through a buffer of the kernel in parts.
import AesMusicPlayer.FifoCore
import Mathlib.Algebra.Group.Int.Defs
import Mathlib.Algebra.Group.Nat.Defs

open memory_words

namespace axis_fifo

def EINTR : Int := 4
def EIO : Int := 5
def EAGAIN : Int := 11
def EFAULT : Int := 14
def EINVAL : Int := 22
def ERESTARTSYS : Int := 512

def READ_BUF_SIZE : ℕ := 128

def WRITE_BUF_SIZE : ℕ := 128

/-! ## The calls -/

/-- `struct axis_fifo`, as far as these calls use it. A flag is set for `O_NONBLOCK`. -/
structure Fifo where
  has_tkeep : Bool
  tx_fifo_depth : ℕ
  write_nonblock : Bool
  read_nonblock : Bool
  tx_pkts : BitVec 32
  tx_bytes : BitVec 32
  rx_pkts : BitVec 32
  rx_bytes : BitVec 32

/-- How a wait ends that finds its condition false. -/
inductive WaitEnd
  | timeout | signal

def WaitEnd.ret : WaitEnd → Int
  | .timeout => 0
  | .signal => -ERESTARTSYS

/-- What the kernel answers during one call. -/
structure Answers where
  /-- how often the wait is woken up before its end -/
  wakeups : ℕ
  wait_end : WaitEnd
  /-- whether the copy fails that begins at this word of the user's buffer -/
  copy_fails : ℕ → Bool

/-- A buffer of the user, with a length that is a `size_t`. -/
structure Buffer where
  bytes : List Byte
  fits : bytes.length < 2 ^ 32

section Calls

variable {σ : Type} (C : Core σ) (a : Answers)

def reset_ip_core (s : σ) : σ :=
  let s := C.iowrite32 XLLF_RESET_MASK .SRR s
  let s := C.iowrite32 XLLF_RESET_MASK .TDFR s
  let s := C.iowrite32 XLLF_RESET_MASK .RDFR s
  let s := C.iowrite32 0xfe000000 .IER s
  C.iowrite32 0xfff80000 .ISR s

/-- The condition is evaluated again at each wakeup, and once more at the end. -/
def wait_event (cond : σ → Bool × σ) (wait_end : WaitEnd) : ℕ → σ → Int × σ
  | 0, s => if (cond s).1 then (1, (cond s).2) else (wait_end.ret, (cond s).2)
  | n + 1, s => if (cond s).1 then (1, (cond s).2) else wait_event cond wait_end n (cond s).2

/-- The part of both calls that comes before the first word, with the error that it returns. -/
def available (nonblock : Bool) (cond : σ → Bool × σ) (s : σ) : Option Int × σ :=
  if nonblock then (if (cond s).1 then none else some (-EAGAIN), (cond s).2)
  else
    let (ret, s) := wait_event cond a.wait_end a.wakeups s
    if ret = 0 then (some (-EAGAIN), s)
    else if ret = -ERESTARTSYS then (some (-EINTR), s)
    else if ret < 0 then (some ret, s)
    else (none, s)

def has_room (words : ℕ) (s : σ) : Bool × σ :=
  let (tdfv, s) := C.ioread32 .TDFV s
  (decide (words ≤ tdfv.toNat), s)

def has_packet (s : σ) : Bool × σ :=
  let (rdfo, s) := C.ioread32 .RDFO s
  (rdfo != 0, s)

def put_words (ws : List Word) (s : σ) : σ := ws.foldl (fun s w => C.iowrite32 w .TDFD s) s

/-- The loop of `axis_fifo_write`, with `tmp_buf` and whether it went to its end. -/
def write_loop (buf : List Byte) (copied words_to_write : ℕ) (tmp_buf : List Word) (s : σ) :
    Bool × List Word × σ :=
  if words_to_write = 0 then (true, tmp_buf, s)
  else if a.copy_fails copied then (false, tmp_buf, reset_ip_core C s)
  else
    let copy := min words_to_write WRITE_BUF_SIZE
    let part := words ((buf.drop (4 * copied)).take (4 * copy))
    write_loop buf (copied + copy) (words_to_write - copy) (part ++ tmp_buf.drop copy)
      (put_words C part s)
termination_by words_to_write
decreasing_by unfold WRITE_BUF_SIZE; omega

/-- `tmp_buf` is what is on the stack. -/
def axis_fifo_write (f : Fifo) (buf : Buffer) (tmp_buf : List Word) (s : σ) : Int × Fifo × σ :=
  let len := buf.bytes.length
  let words_to_write := len / 4
  let leftover := len % 4
  if !f.has_tkeep && leftover != 0 then (-EINVAL, f, s)
  else if (!f.has_tkeep && words_to_write == 0) || (f.has_tkeep && len == 0) then (-EINVAL, f, s)
  else if f.tx_fifo_depth < slots len then (-EINVAL, f, s)
  else
    match available a f.write_nonblock (has_room C (slots len)) s with
    | (some err, s) => (err, f, s)
    | (none, s) =>
      match write_loop C a buf.bytes 0 words_to_write tmp_buf s with
      | (false, _, s) => (-EFAULT, f, s)
      | (true, tmp_buf, s) =>
        if f.has_tkeep && leftover != 0 && a.copy_fails words_to_write then
          (-EFAULT, f, reset_ip_core C s)
        else
          let s := if f.has_tkeep && leftover != 0 then
              C.iowrite32 (put (buf.bytes.drop (4 * words_to_write)) (tmp_buf.getD 0 0)) .TDFD s
            else s
          let copiedBytes := if f.has_tkeep && leftover != 0 then 4 * words_to_write + leftover
            else 4 * words_to_write
          let s := C.iowrite32 (.ofNat 32 copiedBytes) .TLR s
          (copiedBytes, { f with tx_pkts := f.tx_pkts + 1,
                                 tx_bytes := f.tx_bytes + .ofNat 32 copiedBytes }, s)

def get_words : ℕ → σ → List Word × σ
  | 0, s => ([], s)
  | n + 1, s =>
    let (w, s) := C.ioread32 .RDFD s
    let (ws, s) := get_words n s
    (w :: ws, s)

/-- The loop of `axis_fifo_read`, with the bytes that it copied to the user and whether it went
to its end. -/
def read_loop (copied words_available : ℕ) (s : σ) : Bool × List Byte × σ :=
  if words_available = 0 then (true, [], s)
  else
    let copy := min words_available READ_BUF_SIZE
    let (tmp_buf, s) := get_words C copy s
    if a.copy_fails copied then (false, [], reset_ip_core C s)
    else
      let (ok, data, s) := read_loop (copied + copy) (words_available - copy) s
      (ok, bytes tmp_buf ++ data, s)
termination_by words_available
decreasing_by unfold READ_BUF_SIZE; omega

/-- What a `read` returns, and what it copied to the user. -/
structure ReadResult where
  ret : Int
  data : List Byte

def axis_fifo_read (f : Fifo) (len : ℕ) (s : σ) : ReadResult × Fifo × σ :=
  match available a f.read_nonblock (has_packet C) s with
  | (some err, s) => (⟨err, []⟩, f, s)
  | (none, s) =>
    let rlr := C.ioread32 .RLR s
    let s := rlr.2
    let bytes_available := rlr.1.toNat
    if bytes_available = 0 then (⟨- EIO, []⟩, f, reset_ip_core C s)
    else if len < bytes_available then (⟨-EINVAL, []⟩, f, reset_ip_core C s)
    else if !f.has_tkeep && bytes_available % 4 != 0 then (⟨- EIO, []⟩, f, reset_ip_core C s)
    else
      match read_loop C a 0 (bytes_available / 4) s with
      | (false, data, s) => (⟨-EFAULT, data⟩, f, s)
      | (true, data, s) =>
        let leftover := bytes_available % 4
        let last := if f.has_tkeep && leftover != 0 then get_words C 1 s else ([], s)
        let s := last.2
        if f.has_tkeep && leftover != 0 && a.copy_fails (bytes_available / 4) then
          (⟨-EFAULT, data⟩, f, reset_ip_core C s)
        else
          (⟨bytes_available, data ++ (bytes last.1).take leftover⟩,
            { f with rx_pkts := f.rx_pkts + 1,
                     rx_bytes := f.rx_bytes + .ofNat 32 bytes_available }, s)

end Calls

/-! ## What the parts of a call do -/

/-- The words `ws` are written, beside what the streams do. -/
structure Puts (ws : List Word) (v v' : View) : Prop where
  sends : v.Sends [] v'
  takes : v.Takes [] v'
  pending : v'.pending = v.pending ++ ws
  opened : v'.opened = v.opened
  room : v.room ≤ v'.room + ws.length

theorem Puts.of_moves {v v' : View} (h : v.Moves v') : Puts [] v v' :=
  ⟨h.sends, h.takes, by rw [h.pending, List.append_nil], h.opened, h.room⟩

theorem Puts.trans {ws ws' : List Word} {v v₁ v₂ : View} (h : Puts ws v v₁) (h' : Puts ws' v₁ v₂) :
    Puts (ws ++ ws') v v₂ := by
  refine ⟨h.sends.trans h'.sends, h.takes.trans h'.takes, ?_, h'.opened.trans h.opened, ?_⟩
  · rw [h'.pending, h.pending, List.append_assoc]
  · have hr := h.room
    have hr' := h'.room
    rw [List.length_append]
    omega

/-- The first `n` words of the packet are read. -/
structure Gets (n : ℕ) (v v' : View) : Prop where
  sends : v.Sends [] v'
  takes : v.Takes [] v'
  pending : v'.pending = v.pending
  opened : v'.opened = v.opened.drop n

theorem Gets.zero (v : View) : Gets 0 v v := ⟨.refl v, .refl v, rfl, rfl⟩

theorem Gets.trans {n m : ℕ} {v v₁ v₂ : View} (h : Gets n v v₁) (h' : Gets m v₁ v₂) :
    Gets (n + m) v v₂ := by
  refine ⟨h.sends.trans h'.sends, h.takes.trans h'.takes, h'.pending.trans h.pending, ?_⟩
  rw [h'.opened, h.opened, List.drop_drop]

section Waits

variable {σ : Type} {view : σ → View} {cond : σ → Bool × σ} {P : View → Prop}

/-- The condition only looks, and where it holds, `P` does. -/
def Tells (view : σ → View) (cond : σ → Bool × σ) (P : View → Prop) : Prop :=
  ∀ s, (view s).Moves (view (cond s).2) ∧ ((cond s).1 = true → P (view (cond s).2))

/-- The condition is evaluated until it holds, or until the wait ends. -/
theorem wait_event_spec (hcond : Tells view cond P) (wait_end : WaitEnd) (n : ℕ) (s : σ) :
    (view s).Moves (view (wait_event cond wait_end n s).2) ∧
      ((wait_event cond wait_end n s).1 = 1 ∧ P (view (wait_event cond wait_end n s).2) ∨
        (wait_event cond wait_end n s).1 = wait_end.ret) := by
  induction n generalizing s with
  | zero =>
    obtain ⟨hmoves, hholds⟩ := hcond s
    unfold wait_event
    split
    · exact ⟨hmoves, .inl ⟨rfl, hholds ‹_›⟩⟩
    · exact ⟨hmoves, .inr rfl⟩
  | succ n ih =>
    obtain ⟨hmoves, hholds⟩ := hcond s
    unfold wait_event
    split
    · exact ⟨hmoves, .inl ⟨rfl, hholds ‹_›⟩⟩
    · exact ⟨hmoves.trans (ih _).1, (ih _).2⟩

theorem available_spec (hcond : Tells view cond P) (a : Answers) (nonblock : Bool) (s : σ) :
    (view s).Moves (view (available a nonblock cond s).2) ∧
      match (available a nonblock cond s).1 with
      | none => P (view (available a nonblock cond s).2)
      | some err => err = -EAGAIN ∨ err = -EINTR := by
  unfold available
  cases nonblock with
  | true =>
    obtain ⟨hmoves, hholds⟩ := hcond s
    refine ⟨hmoves, ?_⟩
    cases hc : (cond s).1 with
    | true => exact hholds hc
    | false => exact .inl rfl
  | false =>
    obtain ⟨hmoves, hret⟩ := wait_event_spec hcond a.wait_end a.wakeups s
    generalize wait_event cond a.wait_end a.wakeups s = r at hmoves hret
    obtain ⟨ret, s'⟩ := r
    rcases hret with ⟨rfl, hholds⟩ | rfl
    · exact ⟨hmoves, hholds⟩
    · cases a.wait_end with
      | timeout => exact ⟨hmoves, .inl rfl⟩
      | signal => exact ⟨hmoves, .inr rfl⟩

end Waits

section Specs

variable {σ : Type} {C : Core σ} {view : σ → View} (hdoc : Documented C view) (a : Answers)
include hdoc

theorem emptied_srr (s : σ) : (view s).Emptied (view (C.iowrite32 XLLF_RESET_MASK .SRR s)) := by
  obtain ⟨v, hmoves, hw⟩ := hdoc.write XLLF_RESET_MASK .SRR s
  obtain ⟨room, hw⟩ := hw rfl
  rw [hw]
  exact .of_moves hmoves

theorem emptied_tdfr {v : View} {s : σ} (h : v.Emptied (view s)) :
    v.Emptied (view (C.iowrite32 XLLF_RESET_MASK .TDFR s)) := by
  obtain ⟨v', hmoves, hw⟩ := hdoc.write XLLF_RESET_MASK .TDFR s
  obtain ⟨room, hw⟩ := hw rfl
  have h' := h.moves hmoves
  rw [hw]
  exact ⟨h'.out, h'.all, rfl, h'.arrived, rfl, h'.opened⟩

theorem emptied_rdfr {v : View} {s : σ} (h : v.Emptied (view s)) :
    v.Emptied (view (C.iowrite32 XLLF_RESET_MASK .RDFR s)) := by
  obtain ⟨v', hmoves, hw⟩ := hdoc.write XLLF_RESET_MASK .RDFR s
  have h' := h.moves hmoves
  obtain ⟨lost, harr⟩ := h'.arrived
  rw [hw rfl]
  refine ⟨h'.out, h'.all, h'.queued, ⟨lost ++ v'.waiting, ?_⟩, h'.pending, rfl⟩
  rw [harr, List.append_nil, List.append_assoc]

/-- The registers of the interrupts hold nothing of the packets. -/
theorem emptied_interrupts {v : View} {s : σ} {w : Word} {r : Register}
    (hr : ∀ v v', Writes w r v v' → v' = v) (h : v.Emptied (view s)) :
    v.Emptied (view (C.iowrite32 w r s)) := by
  obtain ⟨v', hmoves, hw⟩ := hdoc.write w r s
  rw [hr _ _ hw]
  exact h.moves hmoves

theorem reset_emptied (s : σ) : (view s).Emptied (view (reset_ip_core C s)) := by
  have hreset := emptied_rdfr hdoc (emptied_tdfr hdoc (emptied_srr hdoc s))
  exact emptied_interrupts hdoc (fun _ _ h => h)
    (emptied_interrupts hdoc (fun _ _ h => h) hreset)

theorem has_room_spec (words : ℕ) : Tells view (has_room C words) fun v => words ≤ v.room := by
  intro s
  obtain ⟨v, hmoves, hle, hv⟩ := hdoc.read .TDFV s
  unfold has_room
  rw [show view (C.ioread32 .TDFV s).2 = v from hv]
  exact ⟨hmoves, fun h => (of_decide_eq_true h).trans hle⟩

theorem has_packet_spec : Tells view (has_packet C) fun v => v.waiting ≠ [] := by
  intro s
  obtain ⟨v, hmoves, hne, hv⟩ := hdoc.read .RDFO s
  unfold has_packet
  rw [show view (C.ioread32 .RDFO s).2 = v from hv]
  exact ⟨hmoves, fun h => hne (ne_of_beq_false (by simpa using h))⟩

theorem put_words_spec (ws : List Word) (s : σ) (hroom : ws.length ≤ (view s).room) :
    Puts ws (view s) (view (put_words C ws s)) := by
  induction ws generalizing s with
  | nil => exact .of_moves (.refl _)
  | cons w ws ih =>
    obtain ⟨v, hmoves, hw⟩ := hdoc.write w .TDFD s
    have hr := hmoves.room
    rw [List.length_cons] at hroom
    have hv := hw (by omega)
    have hput : Puts [w] (view s) (view (C.iowrite32 w .TDFD s)) := by
      rw [hv]
      exact ⟨⟨hmoves.sends.all, hmoves.sends.out⟩, hmoves.takes, by rw [← hmoves.pending], hmoves.opened,
        by simp only [List.length_singleton]; omega⟩
    have hroom' := hput.room
    rw [List.length_singleton] at hroom'
    exact hput.trans (ih _ (by omega))

theorem get_word_spec {s : σ} {w : Word} {ws : List Word} (hopen : (view s).opened = w :: ws) :
    (C.ioread32 .RDFD s).1 = w ∧ Gets 1 (view s) (view (C.ioread32 .RDFD s).2) := by
  obtain ⟨v, hmoves, hread⟩ := hdoc.read .RDFD s
  obtain ⟨hw, hv⟩ := hread w ws (hmoves.opened.trans hopen)
  refine ⟨hw, ?_⟩
  rw [hv]
  exact ⟨⟨hmoves.sends.all, hmoves.sends.out⟩, hmoves.takes, hmoves.pending, by rw [hopen]; rfl⟩

theorem get_words_spec (n : ℕ) (s : σ) (hopen : n ≤ (view s).opened.length) :
    (get_words C n s).1 = (view s).opened.take n ∧
      Gets n (view s) (view (get_words C n s).2) := by
  induction n generalizing s with
  | zero => exact ⟨rfl, .zero _⟩
  | succ n ih =>
    match hws : (view s).opened with
    | [] =>
      rw [hws] at hopen
      exact absurd hopen (Nat.not_succ_le_zero n)
    | w :: ws =>
      obtain ⟨hw, hgets⟩ := get_word_spec hdoc hws
      have hrest : (view (C.ioread32 .RDFD s).2).opened = ws := by
        rw [hgets.opened, hws]
        rfl
      rw [hws, List.length_cons] at hopen
      obtain ⟨hwords, hgets'⟩ := ih (C.ioread32 .RDFD s).2 (by rw [hrest]; omega)
      have hall := hgets.trans hgets'
      rw [Nat.add_comm] at hall
      exact ⟨congrArg₂ List.cons hw (hwords.trans (congrArg (List.take n) hrest)), hall⟩

/-- The loop puts the words of the buffer, or the core is reset. -/
theorem write_loop_spec (buf : List Byte) (copied n : ℕ) (tmp_buf : List Word) (s : σ)
    (hroom : n ≤ (view s).room) (hlen : 4 * copied + 4 * n ≤ buf.length) :
    match write_loop C a buf copied n tmp_buf s with
    | (true, _, s') => ∃ ws, bytes ws = (buf.drop (4 * copied)).take (4 * n) ∧
        Puts ws (view s) (view s')
    | (false, _, s') => (view s).Emptied (view s') := by
  fun_induction write_loop C a buf copied n tmp_buf s with
  | case1 => exact ⟨[], rfl, .of_moves (.refl _)⟩
  | case2 => exact reset_emptied hdoc _
  | case3 copied n tmp_buf s hn hcopy copy part ih =>
    have hle : copy ≤ n := Nat.min_le_left ..
    have hbytes : ((buf.drop (4 * copied)).take (4 * copy)).length = 4 * copy := by
      rw [List.length_take, List.length_drop]
      omega
    have hpart : part.length = copy := by
      rw [length_words, hbytes]
      omega
    have hput := put_words_spec hdoc part s (by omega)
    have hroom' := hput.room
    have hnext := ih (by omega) (by omega)
    generalize write_loop C a buf (copied + copy) (n - copy) (part ++ tmp_buf.drop copy)
      (put_words C part s) = r at hnext
    obtain ⟨ok, t, s'⟩ := r
    cases ok with
    | true =>
      obtain ⟨ws, hws, hput'⟩ := hnext
      refine ⟨part ++ ws, ?_, hput.trans hput'⟩
      have hsplit : 4 * n = 4 * copy + 4 * (n - copy) := by omega
      rw [bytes_append, bytes_words _ (by omega), hws, hsplit, List.take_add, List.drop_drop,
        Nat.mul_add]
    | false => exact .after hput.sends hput.takes hnext

/-- The loop copies the next words of the packet, or the core is reset. -/
theorem read_loop_spec (copied n : ℕ) (s : σ) (hopen : n ≤ (view s).opened.length) :
    match read_loop C a copied n s with
    | (true, data, s') => data = bytes ((view s).opened.take n) ∧ Gets n (view s) (view s')
    | (false, _, s') => (view s).Emptied (view s') := by
  fun_induction read_loop C a copied n s with
  | case1 => exact ⟨rfl, .zero _⟩
  | case2 copied n s hn copy tmp_buf s' hget hcopy =>
    obtain ⟨-, hgets⟩ := get_words_spec hdoc copy s ((Nat.min_le_left ..).trans hopen)
    rw [hget] at hgets
    exact .after hgets.sends hgets.takes (reset_emptied hdoc s')
  | case3 copied n s hn copy tmp_buf s' hget hcopy ok data s'' hloop ih =>
    have hle : copy ≤ n := Nat.min_le_left ..
    obtain ⟨hwords, hgets⟩ := get_words_spec hdoc copy s (hle.trans hopen)
    rw [hget] at hwords hgets
    have hrest : (view s').opened = (view s).opened.drop copy := hgets.opened
    have hbuf : tmp_buf = (view s).opened.take copy := hwords
    have hnext := ih (by rw [hrest, List.length_drop]; omega)
    rw [hloop] at hnext
    cases ok with
    | true =>
      obtain ⟨hdata, hgets'⟩ := hnext
      have hsplit : copy + (n - copy) = n := by omega
      refine ⟨?_, hsplit ▸ hgets.trans hgets'⟩
      rw [hdata, hbuf, hrest, ← bytes_append, ← List.take_add, hsplit]
    | false => exact .after hgets.sends hgets.takes hnext

end Specs

end axis_fifo
