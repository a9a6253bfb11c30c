-- What the calls of the FIFO driver are for its user: over all calls the packets go out as
-- they were written, and are read as they came in, until a call resets the core.
import AesMusicPlayer.FifoDriver

open memory_words

namespace axis_fifo

/-! ## What a call does -/

/-- What happened in a call. -/
inductive Event
  | wrote (p : Packet)
  | took (p : Packet)
  | failed
  | reset
  deriving DecidableEq

def write_event (buf : Buffer) (ret : Int) : Event :=
  if ret = buf.bytes.length then .wrote buf.bytes
  else if ret = -EFAULT then .reset
  else .failed

def read_event (r : ReadResult) : Event :=
  if 0 < r.ret then .took r.data
  else if r.ret = - EIO ∨ r.ret = -EINVAL ∨ r.ret = -EFAULT then .reset
  else .failed

namespace Event

def written : Event → List Packet
  | .wrote p => [p]
  | _ => []

def taken : Event → List Packet
  | .took p => [p]
  | _ => []

/-- What is sent and what is taken, or that the core was emptied. -/
def Step (v v' : View) : Event → Prop
  | .reset => v.Emptied v'
  | e => v.Sends e.written v' ∧ v.Takes e.taken v'

theorem Step.packets {e : Event} {v v' : View} (h : e.Step v v') (hne : e ≠ .reset) :
    v.Sends e.written v' ∧ v.Takes e.taken v' := by
  cases e with
  | reset => exact absurd rfl hne
  | wrote | took | failed => exact h

/-- The counters after it. -/
def count (f : Fifo) : Event → Fifo
  | .wrote p => { f with tx_pkts := f.tx_pkts + 1, tx_bytes := f.tx_bytes + .ofNat 32 p.length }
  | .took p => { f with rx_pkts := f.rx_pkts + 1, rx_bytes := f.rx_bytes + .ofNat 32 p.length }
  | .failed | .reset => f

end Event

/-- What a call leaves. -/
structure Leaves (e : Event) (f f' : Fifo) (v v' : View) : Prop where
  step : e.Step v v'
  quiet : v'.Quiet
  counted : f' = e.count f

theorem leaves_failed {f : Fifo} {v v' : View} (hq : v.Quiet) (h : v.Moves v') :
    Leaves .failed f f v v' :=
  ⟨⟨h.sends, h.takes⟩, hq.moves h, rfl⟩

theorem leaves_reset {f : Fifo} {v v' : View} (h : v.Emptied v') : Leaves .reset f f v v' :=
  ⟨h, ⟨h.pending, h.opened⟩, rfl⟩

theorem write_event_error {buf : Buffer} {err : Int} (hneg : err < 0) (h : err ≠ -EFAULT) :
    write_event buf err = .failed := by
  unfold write_event
  rw [if_neg (by omega), if_neg h]

theorem write_event_fault (buf : Buffer) : write_event buf (-EFAULT) = .reset := by
  unfold write_event EFAULT
  rw [if_neg (by omega), if_pos rfl]

theorem write_event_whole (buf : Buffer) : write_event buf buf.bytes.length = .wrote buf.bytes := by
  unfold write_event
  rw [if_pos rfl]

theorem read_event_error {err : Int} {data : List Byte} (h : err = -EAGAIN ∨ err = -EINTR) :
    read_event ⟨err, data⟩ = .failed := by
  rcases h with rfl | rfl <;> rfl

theorem read_event_reset {err : Int} (data : List Byte)
    (h : err = - EIO ∨ err = -EINVAL ∨ err = -EFAULT) : read_event ⟨err, data⟩ = .reset := by
  rcases h with rfl | rfl | rfl <;> rfl

theorem read_event_whole {p : Packet} (h : p.length ≠ 0) : read_event ⟨p.length, p⟩ = .took p := by
  unfold read_event
  rw [if_pos (by change (0 : Int) < p.length; omega)]

section Specs

variable {σ : Type} {C : Core σ} {view : σ → View} (hdoc : Documented C view) (a : Answers)
include hdoc

/-- The length makes the words that were put a packet. -/
theorem send_spec {v : View} {s : σ} {ws : List Word} (hq : v.Quiet) (hput : Puts ws v (view s))
    (buf : Buffer) (hlen : ws.length = slots buf.bytes.length)
    (hbytes : (bytes ws).take buf.bytes.length = buf.bytes) (f : Fifo) :
    Leaves (.wrote buf.bytes) f
      { f with tx_pkts := f.tx_pkts + 1, tx_bytes := f.tx_bytes + .ofNat 32 buf.bytes.length } v
      (view (C.iowrite32 (.ofNat 32 buf.bytes.length) .TLR s)) := by
  obtain ⟨v', hmoves, hw⟩ := hdoc.write (.ofNat 32 buf.bytes.length) .TLR s
  have hpend : v'.pending = ws := by
    rw [hmoves.pending, hput.pending, hq.pending, List.nil_append]
  have hnat : (BitVec.ofNat 32 buf.bytes.length).toNat = buf.bytes.length := by
    rw [BitVec.toNat_ofNat, Nat.mod_eq_of_lt buf.fits]
  have hsends := hput.sends.trans hmoves.sends
  have hall : v'.out ++ v'.queued = v.out ++ v.queued := hsends.all.trans (List.append_nil _)
  have hv := hw (by rw [hnat, hpend, hlen])
  rw [hnat, hpend, hbytes] at hv
  rw [hv]
  refine ⟨⟨⟨?_, hsends.out⟩, hput.takes.trans hmoves.takes⟩, ⟨rfl, ?_⟩, rfl⟩
  · change v'.out ++ (v'.queued ++ [buf.bytes]) = v.out ++ v.queued ++ [buf.bytes]
    rw [← List.append_assoc, hall]
  · exact (hmoves.opened.trans hput.opened).trans hq.opened

theorem axis_fifo_write_spec (f : Fifo) (buf : Buffer) (tmp_buf : List Word) (s : σ)
    (hq : (view s).Quiet) :
    match axis_fifo_write C a f buf tmp_buf s with
    | (ret, f', s') => Leaves (write_event buf ret) f f' (view s) (view s') ∧
        (ret = buf.bytes.length ∨ ret < 0) := by
  have hfail : ∀ err s', err < 0 → err ≠ -EFAULT → (view s).Moves (view s') →
      Leaves (write_event buf err) f f (view s) (view s') ∧
        (err = buf.bytes.length ∨ err < 0) := by
    intro err s' hneg hne hmoves
    rw [write_event_error hneg hne]
    exact ⟨leaves_failed hq hmoves, .inr hneg⟩
  have hfault : ∀ s', (view s).Emptied (view s') →
      Leaves (write_event buf (-EFAULT)) f f (view s) (view s') ∧
        (-EFAULT = buf.bytes.length ∨ -EFAULT < 0) := by
    intro s' h
    rw [write_event_fault]
    exact ⟨leaves_reset h, .inr (by unfold EFAULT; omega)⟩
  unfold axis_fifo_write
  dsimp only
  split
  · exact hfail (-EINVAL) s (by decide) (by decide) (.refl _)
  rename_i haligned
  split
  · exact hfail (-EINVAL) s (by decide) (by decide) (.refl _)
  split
  · exact hfail (-EINVAL) s (by decide) (by decide) (.refl _)
  obtain ⟨hmoves, hroom⟩ := available_spec (has_room_spec hdoc (slots buf.bytes.length)) a
    f.write_nonblock s
  generalize available a f.write_nonblock (has_room C (slots buf.bytes.length)) s = r
    at hmoves hroom
  obtain ⟨err, s₁⟩ := r
  cases err with
  | some err =>
    rcases hroom with rfl | rfl
    · exact hfail (-EAGAIN) s₁ (by decide) (by decide) hmoves
    · exact hfail (-EINTR) s₁ (by decide) (by decide) hmoves
  | none =>
    change slots buf.bytes.length ≤ (view s₁).room at hroom
    dsimp only
    have hloop := write_loop_spec hdoc a buf.bytes 0 (buf.bytes.length / 4) tmp_buf s₁
      (le_trans (div_le_slots _) hroom) (by omega)
    generalize write_loop C a buf.bytes 0 (buf.bytes.length / 4) tmp_buf s₁ = r at hloop
    obtain ⟨ok, tmp_buf', s₂⟩ := r
    cases ok with
    | false => exact hfault s₂ (.after hmoves.sends hmoves.takes hloop)
    | true =>
      obtain ⟨ws, hws, hput⟩ := hloop
      have hroom' := hput.room
      have hput := (Puts.of_moves hmoves).trans hput
      rw [List.nil_append] at hput
      rw [Nat.mul_zero, List.drop_zero] at hws
      have hlen := congrArg List.length hws
      rw [length_bytes, List.length_take] at hlen
      by_cases hleft : buf.bytes.length % 4 = 0
      · -- the words are the buffer
        have hslots := slots_of_whole hleft
        have hwhole : 4 * (buf.bytes.length / 4) = buf.bytes.length := by omega
        have hsent := send_spec hdoc hq hput buf (by omega)
          (by rw [hws, hwhole, List.take_length, List.take_length]) f
        simp only [hleft, bne_self_eq_false, Bool.and_false, Bool.false_and, Bool.false_eq_true,
          if_false, hwhole]
        rw [write_event_whole]
        exact ⟨hsent, .inl trivial⟩
      · -- the last word is written over the first of `tmp_buf`
        have hkeep : (f.has_tkeep && buf.bytes.length % 4 != 0) = true := by
          simpa [hleft] using haligned
        simp only [hkeep, Bool.true_and, if_true]
        split
        · exact hfault _ (.after hput.sends hput.takes (reset_emptied hdoc s₂))
        · have hslots := slots_of_rest hleft
          have hwhole : 4 * (buf.bytes.length / 4) + buf.bytes.length % 4 = buf.bytes.length :=
            Nat.div_add_mod ..
          rw [hwhole, write_event_whole]
          generalize hrest : buf.bytes.drop (4 * (buf.bytes.length / 4)) = rest
          have hrestlen : rest.length ≤ 4 := by
            rw [← hrest, List.length_drop]
            omega
          have hlast := put_words_spec hdoc [put rest (tmp_buf'.getD 0 0)] s₂
            (by rw [List.length_singleton]; omega)
          refine ⟨send_spec hdoc hq (hput.trans hlast) buf ?_ ?_ f, .inl rfl⟩
          · rw [List.length_append, List.length_singleton]
            omega
          · rw [bytes_append, hws, bytes_cons, bytes_nil, List.append_nil, bytes_of_put _ hrestlen,
              ← List.append_assoc, ← hrest, List.take_append_drop, List.take_left]

/-- Reading the length opens the first packet that waits. -/
theorem open_spec {s : σ} (hq : (view s).Quiet) (hwait : (view s).waiting ≠ []) :
    ∃ p ws, (C.ioread32 .RLR s).1.toNat = p.length ∧ Packs ws p ∧
      (view s).Sends [] (view (C.ioread32 .RLR s).2) ∧
      (view s).Takes [p] (view (C.ioread32 .RLR s).2) ∧
      (view (C.ioread32 .RLR s).2).pending = [] ∧ (view (C.ioread32 .RLR s).2).opened = ws := by
  obtain ⟨v, hmoves, hread⟩ := hdoc.read .RLR s
  obtain ⟨new, harr, hnew⟩ := hmoves.takes
  rw [List.nil_append] at hnew
  have hq' := hq.moves hmoves
  match hps : v.waiting with
  | [] =>
    rw [hps] at hnew
    exact absurd (List.append_eq_nil_iff.mp hnew.symm).1 hwait
  | p :: ps =>
    obtain ⟨hlen, ws, hpacks, hv⟩ := hread p ps hq'.opened hps
    refine ⟨p, ws, hlen, hpacks, ?_⟩
    rw [hv]
    exact ⟨⟨hmoves.sends.all, hmoves.sends.out⟩, ⟨new, harr, by rw [← hnew, hps]; rfl⟩,
      hq'.pending, rfl⟩

theorem axis_fifo_read_spec (f : Fifo) (len : ℕ) (s : σ) (hq : (view s).Quiet) :
    match axis_fifo_read C a f len s with
    | (r, f', s') => Leaves (read_event r) f f' (view s) (view s') ∧
        (r.ret = r.data.length ∨ r.ret < 0) := by
  unfold axis_fifo_read
  obtain ⟨hmoves, hwait⟩ := available_spec (has_packet_spec hdoc) a f.read_nonblock s
  generalize available a f.read_nonblock (has_packet C) s = r at hmoves hwait
  obtain ⟨err, s₁⟩ := r
  cases err with
  | some err =>
    refine ⟨?_, .inr (by rcases hwait with rfl | rfl <;> decide)⟩
    rw [read_event_error hwait]
    exact leaves_failed hq hmoves
  | none =>
    obtain ⟨p, ws, hlen, hpacks, hsends, htakes, hpend, hopen⟩ := open_spec hdoc (hq.moves hmoves) hwait
    have hsends := hmoves.sends.trans hsends
    have htakes := hmoves.takes.trans htakes
    dsimp only
    generalize C.ioread32 .RLR s₁ = r at hlen hsends htakes hpend hopen
    obtain ⟨rlr, s₂⟩ := r
    change rlr.toNat = p.length at hlen
    have hreset : ∀ (err : Int) (data : List Byte) (s' : σ),
        err = - EIO ∨ err = -EINVAL ∨ err = -EFAULT → (view s₂).Emptied (view s') →
        Leaves (read_event ⟨err, data⟩) f f (view s) (view s') ∧
          (err = data.length ∨ err < 0) := by
      intro err data s' herr h
      rw [read_event_reset data herr]
      exact ⟨leaves_reset (.after hsends htakes h),
        .inr (by rcases herr with rfl | rfl | rfl <;> decide)⟩
    simp only [hlen]
    split
    · exact hreset _ [] _ (.inl rfl) (reset_emptied hdoc s₂)
    split
    · exact hreset _ [] _ (.inr (.inl rfl)) (reset_emptied hdoc s₂)
    rename_i hpos _
    split
    · exact hreset _ [] _ (.inl rfl) (reset_emptied hdoc s₂)
    rename_i haligned
    change (view s₂).opened = ws at hopen
    have hloop := read_loop_spec hdoc a 0 (p.length / 4) s₂
      (by rw [hopen, hpacks.length]; exact div_le_slots _)
    generalize read_loop C a 0 (p.length / 4) s₂ = r at hloop
    obtain ⟨ok, data, s₃⟩ := r
    cases ok with
    | false => exact hreset _ data s₃ (.inr (.inr rfl)) hloop
    | true =>
      obtain ⟨hdata, hgets⟩ := hloop
      rw [hopen] at hdata
      -- all words are read, and the bytes are the packet
      have htaken : ∀ {n : ℕ} {all : List Byte} {s' : σ}, Gets n (view s₂) (view s') →
          n = slots p.length → all = p →
          Leaves (read_event ⟨p.length, all⟩) f
            { f with rx_pkts := f.rx_pkts + 1, rx_bytes := f.rx_bytes + .ofNat 32 p.length }
            (view s) (view s') ∧ ((p.length : Int) = all.length ∨ (p.length : Int) < 0) := by
        rintro n _ s' hgets rfl rfl
        rw [read_event_whole hpos]
        refine ⟨⟨⟨hsends.trans hgets.sends, htakes.trans hgets.takes⟩, ⟨?_, ?_⟩, rfl⟩, .inl rfl⟩
        · exact hgets.pending.trans hpend
        · rw [hgets.opened, hopen, ← hpacks.length, List.drop_length]
      by_cases hleft : p.length % 4 = 0
      · simp only [hleft, bne_self_eq_false, Bool.and_false, Bool.false_and, Bool.false_eq_true,
          if_false]
        refine htaken hgets (slots_of_whole hleft).symm ?_
        rw [hdata, hpacks.whole hleft, List.take_zero, List.append_nil]
      · have hkeep : (f.has_tkeep && p.length % 4 != 0) = true := by simpa [hleft] using haligned
        simp only [hkeep, Bool.true_and, if_true]
        obtain ⟨hlast, hgets'⟩ := get_words_spec hdoc 1 s₃ (by
          rw [hgets.opened, hopen, List.length_drop, hpacks.length, slots_of_rest hleft]
          omega)
        rw [hgets.opened, hopen] at hlast
        split
        · exact hreset _ data _ (.inr (.inr rfl)) (.after (hgets.trans hgets').sends
            (hgets.trans hgets').takes (reset_emptied hdoc _))
        · refine htaken (hgets.trans hgets') (slots_of_rest hleft).symm ?_
          rw [hdata, hlast, hpacks.rest hleft]

end Specs

/-! ## Runs of calls -/

inductive Call
  | write (a : Answers) (buf : Buffer) (tmp_buf : List Word)
  | read (a : Answers) (len : ℕ)

/-- A call with what it returned, and with what it copied to the user. -/
structure Done where
  call : Call
  ret : Int
  data : List Byte

namespace Done

def event (d : Done) : Event :=
  match d.call with
  | .write _ buf _ => write_event buf d.ret
  | .read .. => read_event ⟨d.ret, d.data⟩

/-- The length of all that is to be written, or of all that is read. -/
def len (d : Done) : ℕ :=
  match d.call with
  | .write _ buf _ => buf.bytes.length
  | .read .. => d.data.length

end Done

/-- The packets of the writes that went well. -/
def written (ds : List Done) : List Packet := ds.flatMap fun d => d.event.written

/-- The packets of the reads that went well. -/
def taken (ds : List Done) : List Packet := ds.flatMap fun d => d.event.taken

def NoReset (ds : List Done) : Prop := ∀ d ∈ ds, d.event ≠ .reset

section Runs

variable {σ : Type} (C : Core σ)

def do_call (f : Fifo) (s : σ) (c : Call) : Done × Fifo × σ :=
  match c with
  | .write a buf tmp_buf =>
    let r := axis_fifo_write C a f buf tmp_buf s
    (⟨c, r.1, []⟩, r.2)
  | .read a len =>
    let r := axis_fifo_read C a f len s
    (⟨c, r.1.ret, r.1.data⟩, r.2)

def do_calls (f : Fifo) (s : σ) : List Call → List Done × Fifo × σ
  | [] => ([], f, s)
  | c :: cs =>
    let (d, f, s) := do_call C f s c
    let (ds, f, s) := do_calls f s cs
    (d :: ds, f, s)

theorem do_call_call (f : Fifo) (s : σ) (c : Call) : (do_call C f s c).1.call = c := by
  cases c <;> rfl

theorem do_calls_call (f : Fifo) (s : σ) (cs : List Call) :
    (do_calls C f s cs).1.map Done.call = cs := by
  induction cs generalizing f s with
  | nil => rfl
  | cons c cs ih => exact congrArg₂ List.cons (do_call_call C f s c) (ih _ _)

theorem do_calls_append (f : Fifo) (s : σ) (cs cs' : List Call) :
    let r := do_calls C f s cs
    let r' := do_calls C r.2.1 r.2.2 cs'
    do_calls C f s (cs ++ cs') = (r.1 ++ r'.1, r'.2) := by
  induction cs generalizing f s with
  | nil => rfl
  | cons c cs ih =>
    have hrest := ih (do_call C f s c).2.1 (do_call C f s c).2.2
    simp only [List.cons_append, do_calls, hrest]

end Runs

/-- The calls that changed nothing. -/
def failed (ds : List Done) : ℕ := ds.countP fun d => d.event == .failed

theorem length_eq {ds : List Done} (h : NoReset ds) :
    ds.length = (written ds).length + (taken ds).length + failed ds := by
  induction ds with
  | nil => rfl
  | cons d ds ih =>
    have hrest := ih fun d hd => h d (List.mem_cons_of_mem _ hd)
    have hd := h d (List.mem_cons_self ..)
    unfold written taken failed at *
    rw [List.length_cons, List.flatMap_cons, List.flatMap_cons, List.countP_cons,
      List.length_append, List.length_append, hrest]
    cases he : d.event with
    | reset => exact absurd he hd
    | wrote p | took p | failed =>
      simp [Event.written, Event.taken]
      omega

/-- What the calls did to the packets. A reset can lose some, and all others are in order. -/
structure Passes (ds : List Done) (v v' : View) : Prop where
  out : v.out <+: v'.out
  sent : (v'.out ++ v'.queued).Sublist (v.out ++ v.queued ++ written ds)
  read : ∃ new, v'.arrived = v.arrived ++ new ∧
    (taken ds ++ v'.waiting).Sublist (v.waiting ++ new)

theorem Passes.refl (v : View) : Passes [] v v :=
  ⟨List.prefix_refl _, by simp [written], [], by simp, by simp [taken]⟩

theorem Passes.trans {ds ds' : List Done} {v v₁ v₂ : View} (h : Passes ds v v₁)
    (h' : Passes ds' v₁ v₂) : Passes (ds ++ ds') v v₂ := by
  obtain ⟨new, harr, hread⟩ := h.read
  obtain ⟨new', harr', hread'⟩ := h'.read
  refine ⟨h.out.trans h'.out, ?_, new ++ new', ?_, ?_⟩
  · refine h'.sent.trans ?_
    unfold written
    rw [List.flatMap_append, ← List.append_assoc]
    exact h.sent.append (.refl _)
  · rw [harr', harr, List.append_assoc]
  · unfold taken at *
    rw [List.flatMap_append, List.append_assoc, ← List.append_assoc v.waiting]
    refine (hread'.append_left _).trans ?_
    rw [← List.append_assoc]
    exact hread.append (.refl _)

theorem passes_one {d : Done} {v v' : View} (hs : v.Sends d.event.written v')
    (ht : v.Takes d.event.taken v') : Passes [d] v v' := by
  have hw : written [d] = d.event.written := List.flatMap_singleton ..
  have hr : taken [d] = d.event.taken := List.flatMap_singleton ..
  obtain ⟨new, harr, hall⟩ := ht
  refine ⟨hs.out, ?_, new, harr, ?_⟩
  · rw [hw, hs.all]
  · rw [hr, hall]

theorem passes_of_step {d : Done} {v v' : View} (h : d.event.Step v v') : Passes [d] v v' := by
  by_cases hd : d.event = .reset
  · rw [hd] at h
    have h : v.Emptied v' := h
    have hw : written [d] = [] := (List.flatMap_singleton ..).trans (congrArg Event.written hd)
    have hr : taken [d] = [] := (List.flatMap_singleton ..).trans (congrArg Event.taken hd)
    obtain ⟨lost, harr⟩ := h.arrived
    refine ⟨h.out, ?_, lost ++ v'.waiting, by rw [harr, List.append_assoc], ?_⟩
    · rw [hw, h.queued, List.append_nil, List.append_nil]
      exact h.all.sublist
    · rw [hr, List.nil_append]
      exact (List.sublist_append_right ..).trans (List.sublist_append_right ..)
  · obtain ⟨hs, ht⟩ := h.packets hd
    exact passes_one hs ht

/-- The counters go on by the packets `ws` that were written and the packets `rs` that were read. -/
structure Counts (ws rs : List Packet) (f f' : Fifo) : Prop where
  tx_pkts : f'.tx_pkts = f.tx_pkts + .ofNat 32 ws.length
  tx_bytes : f'.tx_bytes = f.tx_bytes + .ofNat 32 ws.flatten.length
  rx_pkts : f'.rx_pkts = f.rx_pkts + .ofNat 32 rs.length
  rx_bytes : f'.rx_bytes = f.rx_bytes + .ofNat 32 rs.flatten.length

theorem Counts.refl (f : Fifo) : Counts [] [] f f :=
  ⟨(BitVec.add_zero _).symm, (BitVec.add_zero _).symm, (BitVec.add_zero _).symm,
    (BitVec.add_zero _).symm⟩

theorem Counts.trans {ws ws' rs rs' : List Packet} {f f₁ f₂ : Fifo} (h : Counts ws rs f f₁)
    (h' : Counts ws' rs' f₁ f₂) : Counts (ws ++ ws') (rs ++ rs') f f₂ where
  tx_pkts := by rw [h'.tx_pkts, h.tx_pkts, List.length_append, BitVec.ofNat_add, BitVec.add_assoc]
  tx_bytes := by
    rw [h'.tx_bytes, h.tx_bytes, List.flatten_append, List.length_append, BitVec.ofNat_add,
      BitVec.add_assoc]
  rx_pkts := by rw [h'.rx_pkts, h.rx_pkts, List.length_append, BitVec.ofNat_add, BitVec.add_assoc]
  rx_bytes := by
    rw [h'.rx_bytes, h.rx_bytes, List.flatten_append, List.length_append, BitVec.ofNat_add,
      BitVec.add_assoc]

theorem counts_one (f : Fifo) (e : Event) : Counts e.written e.taken f (e.count f) := by
  cases e with
  | wrote p =>
    exact ⟨rfl, by simp [Event.written, Event.count], (BitVec.add_zero _).symm,
      (BitVec.add_zero _).symm⟩
  | took p =>
    exact ⟨(BitVec.add_zero _).symm, (BitVec.add_zero _).symm, rfl,
      by simp [Event.taken, Event.count]⟩
  | failed | reset => exact .refl f

/-- What calls leave: the packets, and the counters of what went well. -/
structure Run (ds : List Done) (f f' : Fifo) (v v' : View) : Prop where
  passes : Passes ds v v'
  quiet : v'.Quiet
  exact : NoReset ds → v.Sends (written ds) v' ∧ v.Takes (taken ds) v'
  whole : ∀ d ∈ ds, d.ret = d.len ∨ d.ret < 0
  counts : Counts (written ds) (taken ds) f f'

/-- The driver as it starts for a core of this depth without TKEEP. -/
def Fifo.of_depth (depth : ℕ) : Fifo := ⟨false, depth, false, false, 0, 0, 0, 0⟩

def Answers.good : Answers := ⟨0, .timeout, fun _ => false⟩

/-- Two words are written, and two are read. -/
def two_words : List Call :=
  [.write .good ⟨[1, 2, 3, 4, 5, 6, 7, 8], of_decide_eq_true rfl⟩ [], .read .good 4, .read .good 4]

structure Sent (ds : List Done) (f f' : Fifo) (v v' : View) : Prop where
  out : v.out <+: v'.out
  in_order : (v'.out ++ v'.queued).Sublist (v.out ++ v.queued ++ written ds)
  all : NoReset ds → v'.out ++ v'.queued = v.out ++ v.queued ++ written ds
  whole : ∀ d ∈ ds, d.ret = d.len ∨ d.ret < 0
  tx_pkts : f'.tx_pkts = f.tx_pkts + .ofNat 32 (written ds).length
  tx_bytes : f'.tx_bytes = f.tx_bytes + .ofNat 32 (written ds).flatten.length

structure Received (ds : List Done) (f f' : Fifo) (v v' : View) : Prop where
  in_order : ∃ new, v'.arrived = v.arrived ++ new ∧
    (taken ds ++ v'.waiting).Sublist (v.waiting ++ new)
  all : NoReset ds → ∃ new, v'.arrived = v.arrived ++ new ∧
    taken ds ++ v'.waiting = v.waiting ++ new
  whole : ∀ d ∈ ds, d.ret = d.len ∨ d.ret < 0
  rx_pkts : f'.rx_pkts = f.rx_pkts + .ofNat 32 (taken ds).length
  rx_bytes : f'.rx_bytes = f.rx_bytes + .ofNat 32 (taken ds).flatten.length

section Runs

variable {σ : Type} {C : Core σ} {view : σ → View} (hdoc : Documented C view)
include hdoc

theorem do_call_spec (f : Fifo) (s : σ) (c : Call) (hq : (view s).Quiet) :
    match do_call C f s c with
    | (d, f', s') => Leaves d.event f f' (view s) (view s') ∧ (d.ret = d.len ∨ d.ret < 0) := by
  cases c with
  | write a buf tmp_buf => exact axis_fifo_write_spec hdoc a f buf tmp_buf s hq
  | read a len => exact axis_fifo_read_spec hdoc a f len s hq

theorem do_calls_spec (cs : List Call) (f : Fifo) (s : σ) (hq : (view s).Quiet) :
    match do_calls C f s cs with
    | (ds, f', s') => Run ds f f' (view s) (view s') := by
  induction cs generalizing f s with
  | nil =>
    exact ⟨.refl _, hq, fun _ => ⟨.refl _, .refl _⟩, fun _ hd => absurd hd List.not_mem_nil, .refl f⟩
  | cons c cs ih =>
    obtain ⟨hleaves, hwhole⟩ := do_call_spec hdoc f s c hq
    have hrest := ih (do_call C f s c).2.1 (do_call C f s c).2.2 hleaves.quiet
    refine ⟨(passes_of_step hleaves.step).trans hrest.passes, hrest.quiet, ?_, ?_, ?_⟩
    · intro hno
      obtain ⟨hs, ht⟩ := hleaves.step.packets (hno _ (List.mem_cons_self ..))
      obtain ⟨hs', ht'⟩ := hrest.exact fun d hd => hno d (List.mem_cons_of_mem _ hd)
      exact ⟨hs.trans hs', ht.trans ht'⟩
    · intro d hd
      rcases List.mem_cons.mp hd with rfl | hd
      · exact hwhole
      · exact hrest.whole d hd
    · exact .trans (hleaves.counted ▸ counts_one f _) hrest.counts

end Runs

/-- Over any calls, a packet that goes out is the whole buffer of one write, and they go out in
the order of the writes. None is lost when no call resets the core, and the counters tell the
writes that went well. -/
theorem writes_are_sent_in_order {σ : Type} {C : Core σ} {view : σ → View}
    (hdoc : Documented C view) (cs : List Call) (f : Fifo) (s : σ) (hq : (view s).Quiet) :
    let r := do_calls C f s cs
    Sent r.1 f r.2.1 (view s) (view r.2.2) := by
  have hrun := do_calls_spec hdoc cs f s hq
  exact ⟨hrun.passes.out, hrun.passes.sent, fun hno => (hrun.exact hno).1.all, hrun.whole,
    hrun.counts.tx_pkts, hrun.counts.tx_bytes⟩

theorem two_words_are_sent :
    let r := do_calls (Echo.core words) (.of_depth 508) Echo.empty two_words
    Sent r.1 (.of_depth 508) r.2.1 Echo.empty.view r.2.2.view :=
  writes_are_sent_in_order (Echo.documented words) two_words (.of_depth 508) Echo.empty
    Echo.empty_quiet

/-- Over any calls, what a read copies is one whole packet that came in, and they are read in the
order in which they came. None is left out when no call resets the core. -/
theorem reads_are_what_came {σ : Type} {C : Core σ} {view : σ → View}
    (hdoc : Documented C view) (cs : List Call) (f : Fifo) (s : σ) (hq : (view s).Quiet) :
    let r := do_calls C f s cs
    Received r.1 f r.2.1 (view s) (view r.2.2) := by
  have hrun := do_calls_spec hdoc cs f s hq
  exact ⟨hrun.passes.read, fun hno => (hrun.exact hno).2, hrun.whole, hrun.counts.rx_pkts,
    hrun.counts.rx_bytes⟩

theorem two_words_are_read :
    let r := do_calls (Echo.core words) (.of_depth 508) Echo.empty two_words
    Received r.1 (.of_depth 508) r.2.1 Echo.empty.view r.2.2.view :=
  reads_are_what_came (Echo.documented words) two_words (.of_depth 508) Echo.empty
    Echo.empty_quiet

end axis_fifo
