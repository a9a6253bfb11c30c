-- What a call has set up by the time that it comes to a step, when no other
-- thread touches the record: the buffers it holds, the fields it has written,
-- the entries it has pushed.
import AesMusicPlayer.TransferMutex

namespace aes

/-! ## The order of the steps -/

theorem CallStep.eq_of_ctorIdx {l m : CallStep} (h : l.ctorIdx = m.ctorIdx) : l = m := by
  rw [← CallStep.ofNat_ctorIdx l, h, CallStep.ofNat_ctorIdx]

/-- The steps before the next one are this one and those before it. -/
theorem CallStep.lt_succ {l l' m : CallStep} (hl : l'.ctorIdx = l.ctorIdx + 1) :
    m < l' ↔ m < l ∨ m = l := by
  change m.ctorIdx < l'.ctorIdx ↔ m.ctorIdx < l.ctorIdx ∨ m = l
  constructor
  · intro h
    rcases Nat.lt_or_ge m.ctorIdx l.ctorIdx with h1 | h1
    · exact Or.inl h1
    · exact Or.inr (CallStep.eq_of_ctorIdx (by omega))
  · rintro (h | rfl) <;> omega

@[simp] theorem Threads.goto_pc_self (s : Threads) (t : Thread) (p : Pc) :
    (s.goto t p).pc t = p := Function.update_self ..

@[simp] theorem Threads.throw_pc_self (s : Threads) (t : Thread) (c : Call) (late : Bool) :
    (s.throw t c late).pc t = .call .free_tx { c with late := late } := Function.update_self ..

/-! ## The buffers of a call -/

/-- A call holds its buffers from their allocation on. The catch block may find
only the first, or none. -/
structure Sound (l : CallStep) (c : Call) : Prop where
  no_tx : ¬ .malloc_tx < l → c.tx_buff = 0
  no_rx : ¬ .malloc_rx < l → c.rx_buff = 0
  tx : .malloc_tx < l → ¬ .last_unlock < l → c.tx_buff ≠ 0
  rx : .malloc_rx < l → ¬ .last_unlock < l → c.rx_buff ≠ 0
  both : c.tx_buff = 0 → c.rx_buff = 0
  late : .last_unlock < l → c.late = true → c.tx_buff ≠ 0

def Pc.Sound : Pc → Prop
  | .call l c => aes.Sound l c
  | .outside | .callback _ _ => True

theorem Sound.succ {l l' : CallStep} {c : Call} (h : Sound l c)
    (hl : l'.ctorIdx = l.ctorIdx + 1) (h1 : l ≠ .malloc_tx) (h2 : l ≠ .malloc_rx)
    (h3 : l ≠ .last_unlock) : Sound l' c := by
  have hlt : ∀ m, m ≠ l → (m < l' ↔ m < l) := fun m hm => by
    rw [CallStep.lt_succ hl]
    exact or_iff_left hm
  refine ⟨?_, ?_, ?_, ?_, h.both, ?_⟩
  · rw [hlt _ h1.symm]; exact h.no_tx
  · rw [hlt _ h2.symm]; exact h.no_rx
  · rw [hlt _ h1.symm, hlt _ h3.symm]; exact h.tx
  · rw [hlt _ h2.symm, hlt _ h3.symm]; exact h.rx
  · rw [hlt _ h3.symm]; exact h.late

/-- The catch block of a throw before the unlock. -/
theorem Sound.early_throw {l : CallStep} {c : Call} (h : Sound l c) :
    Sound .free_tx { c with late := false } where
  no_tx hn := absurd (by decide) hn
  no_rx hn := absurd (by decide) hn
  tx _ hn := absurd (by decide) hn
  rx _ hn := absurd (by decide) hn
  both := h.both
  late _ hl := by cases hl

theorem call_step_sound {t : Thread} {x : Outside} {c : Call} {s : Threads} {l : CallStep}
    (h : Sound l c) : ((call_step t x c s l).pc t).Sound := by
  have hnext : ∀ l', l'.ctorIdx = l.ctorIdx + 1 → l ≠ .malloc_tx → l ≠ .malloc_rx →
      l ≠ .last_unlock → Sound l' c := fun l' => h.succ
  have hthrow := h.early_throw
  cases l with
  | get_file_size =>
    simp only [call_step]
    split_ifs
    · rw [Threads.throw_pc_self]
      exact hthrow
    · have hs := hnext .malloc_tx rfl (by rintro ⟨⟩) (by rintro ⟨⟩) (by rintro ⟨⟩)
      rw [Threads.goto_pc_self]
      exact ⟨hs.no_tx, hs.no_rx, hs.tx, hs.rx, hs.both, hs.late⟩
  | malloc_tx =>
    simp only [call_step]
    split_ifs with hp
    · rw [Threads.throw_pc_self]
      exact hthrow
    · rw [Threads.goto_pc_self]
      exact ⟨fun hn => absurd (by decide) hn, fun _ => h.no_rx (by decide), fun _ _ => hp,
        fun hn => absurd hn (by decide), fun h0 => absurd h0 hp, fun hn => absurd hn (by decide)⟩
  | malloc_rx =>
    have htx := h.tx (by decide) (by decide)
    simp only [call_step]
    split_ifs with hp
    · rw [Threads.throw_pc_self]
      exact hthrow
    · rw [Threads.goto_pc_self]
      exact ⟨fun hn => absurd (by decide) hn, fun hn => absurd (by decide) hn, fun _ _ => htx,
        fun _ _ => hp, fun h0 => absurd h0 htx, fun hn => absurd hn (by decide)⟩
  | start =>
    have htx := h.tx (by decide) (by decide)
    simp only [call_step]
    split_ifs
    · rw [Threads.throw_pc_self]
      exact { hthrow with late := fun _ _ => htx }
    · rw [Threads.goto_pc_self]
      exact hnext .last_unlock rfl (by rintro ⟨⟩) (by rintro ⟨⟩) (by rintro ⟨⟩)
  | check_dev =>
    simp only [call_step]
    split_ifs
    · rw [Threads.goto_pc_self]
      exact hnext .lock rfl (by rintro ⟨⟩) (by rintro ⟨⟩) (by rintro ⟨⟩)
    · rw [Threads.goto_pc_self]
      trivial
  | last_unlock | catch_unlock =>
    simp only [call_step, Threads.goto_pc_self]
    trivial
  | _ =>
    simp only [call_step]
    try split_ifs
    all_goals
      simp only [Threads.goto_pc_self, Threads.throw_pc_self]
      first | exact hnext _ rfl (by rintro ⟨⟩) (by rintro ⟨⟩) (by rintro ⟨⟩) | exact hthrow

/-! ## The record that a call prepares -/

/-- The output buffer does not hold the output, but the signed comparison lets it pass. -/
def Request.overflows (r : Request) (aligned : Size) : Prop :=
  r.output_buffer ≠ 0 ∧ r.too_small aligned = false ∧ r.output_buffer_size < aligned

/-- What step `m` of a call has seen to. -/
def Fact (s : Threads) (c : Call) : CallStep → Prop
  | .get_file_size => c.request.output_buffer ≠ 0 → c.aligned ≤ c.request.output_buffer_size
  | .malloc_tx => c.tx_buff ∈ s.dma.mapped
  | .store_tx => s.dma.current_transfer.tx_buffer = c.tx_buff
  | .malloc_rx => c.tx_buff ≠ c.rx_buff
  | .store_rx => s.dma.current_transfer.rx_buffer = c.rx_buff
  | .set_file_path => s.dma.current_transfer.output_file_path = c.request.output_path
  | .set_buffer => s.dma.current_transfer.output_buffer = c.request.output_buffer
  | .set_buffer_size =>
    s.dma.current_transfer.output_buffer_size = c.request.output_buffer_size
  | .set_user_callback => s.dma.current_transfer.user_callback = c.request.callback
  | .set_param => s.dma.current_transfer.callback_param = c.request.callback_param
  | .set_callback => s.callback_set = true
  | _ => True

/-- The entries that a call has pushed before step `l`. -/
def Call.memories (c : Call) (l : CallStep) : List (Size × Ptr) :=
  (if .push_tx < l then [(c.tx_buff_size, c.tx_buff)] else []) ++
    (if .push_rx < l then [(c.aligned, c.rx_buff)] else [])

structure Prepared (s : Threads) (l : CallStep) (c : Call) : Prop where
  fact : ∀ m, m < l → Fact s c m
  memories : s.dma.dma_memories = c.memories l

theorem Prepared.succ {s s' : Threads} {l l' : CallStep} {c c' : Call} (h : Prepared s l c)
    (hl : l'.ctorIdx = l.ctorIdx + 1) (hkeep : ∀ m, m < l → Fact s c m → Fact s' c' m)
    (hnew : Fact s' c' l) (hmem : s'.dma.dma_memories = c'.memories l') : Prepared s' l' c' where
  fact m hm := by
    rcases (CallStep.lt_succ hl).mp hm with h1 | rfl
    · exact hkeep m h1 (h.fact m h1)
    · exact hnew
  memories := hmem

/-- The record while a call that threw takes its buffers back. -/
structure Failing (s : Threads) (l : CallStep) (c : Call) : Prop where
  tx : c.tx_buff ≠ 0
  mine : ∀ e ∈ s.dma.dma_memories, e.2 = c.tx_buff ∨ e.2 = c.rx_buff
  erased : .erase < l → s.dma.dma_memories = []

/-- Where a step of a call that prepares its transfer leads. -/
inductive PreparesTo (t : Thread) (s' : Threads) : Prop
  | next {l' : CallStep} {c' : Call} : s'.pc t = .call l' c' → .test_busy < l' →
      l' < .last_unlock → Prepared s' l' c' → PreparesTo t s'
  | early {c' : Call} : s'.pc t = .call .free_tx c' → c'.tx_buff = 0 →
      s'.dma.dma_memories = [] → PreparesTo t s'
  | failing {c' : Call} : s'.pc t = .call .free_tx c' → Failing s' .free_tx c' →
      PreparesTo t s'

theorem PreparesTo.succ {t : Thread} {s' : Threads} {l l' : CallStep} {c' : Call}
    (hl : .test_busy < l) (hl' : l < .start) (hs : l'.ctorIdx = l.ctorIdx + 1)
    (hp : s'.pc t = .call l' c') (h : Prepared s' l' c') : PreparesTo t s' := by
  refine .next hp ((CallStep.lt_succ hs).mpr (Or.inl hl)) ?_ h
  change l'.ctorIdx < CallStep.start.ctorIdx + 1
  rw [hs]
  exact Nat.succ_lt_succ hl'

section Prepare

variable {t : Thread} {x : Outside} {c : Call} {s : Threads} {l : CallStep}

/-- The steps that see to nothing that is said above. -/
theorem Prepared.silent {s' : Threads} {l' : CallStep} (h : Prepared s l c)
    (hl : l'.ctorIdx = l.ctorIdx + 1) (hdma : s'.dma.dma_memories = s.dma.dma_memories)
    (hcur : s'.dma.current_transfer = s.dma.current_transfer)
    (hmap : s'.dma.mapped = s.dma.mapped) (hset : s'.callback_set = s.callback_set)
    (hnew : Fact s' c l) (hmem : c.memories l' = c.memories l) : Prepared s' l' c := by
  refine h.succ hl ?_ hnew (by rw [hdma, h.memories, hmem])
  intro m _ hm
  unfold Fact at hm ⊢
  rw [hcur, hmap, hset]
  exact hm

/-- A throw while the call holds a buffer. -/
theorem Prepared.throws (h : Prepared s l c) (late : Bool) (htx : c.tx_buff ≠ 0)
    (hs : (s.throw t c late).dma = s.dma) :
    PreparesTo t (s.throw t c late) := by
  refine .failing (Threads.throw_pc_self ..) ⟨htx, ?_, fun hn => absurd hn (by decide)⟩
  intro e he
  rw [hs, h.memories, Call.memories, List.mem_append] at he
  rcases he with he | he
  · split_ifs at he
    · rw [List.mem_singleton] at he
      exact Or.inl (by rw [he])
    · cases he
  · split_ifs at he
    · rw [List.mem_singleton] at he
      exact Or.inr (by rw [he])
    · cases he

/-- A throw before the call holds a buffer. -/
theorem Prepared.throws_early (h : Prepared s l c) (hl : ¬ .push_tx < l) (hl' : ¬ .push_rx < l)
    (htx : c.tx_buff = 0) : PreparesTo t (s.throw t c false) := by
  refine .early (Threads.throw_pc_self ..) htx ?_
  change s.dma.dma_memories = []
  rw [h.memories, Call.memories, if_neg hl, if_neg hl']
  rfl

/-- A step of a call that prepares its transfer, up to the start. -/
theorem Prepared.step (h : Prepared s l c) (hs : Sound l c) (hl : .test_busy < l)
    (hl' : l < .start) (hr : s.Ready x (.call l c))
    (hfit : l = .get_file_size → ¬ c.request.overflows x.aligned) :
    PreparesTo t (call_step t x c s l) := by
  cases l with
  | check_dev | lock | test_busy => exact absurd hl (by decide)
  | start | last_unlock | free_tx | free_rx | erase | clear_busy | catch_unlock =>
    exact absurd hl' (by decide)
  | get_file_size =>
    simp only [call_step]
    split_ifs with hbad
    · exact h.throws_early (by decide) (by decide) (hs.no_tx (by decide))
    · apply PreparesTo.succ hl hl' rfl (Threads.goto_pc_self ..)
      refine h.succ rfl ?_ ?_ h.memories
      · intro m hm
        cases m <;> first | exact id | exact absurd hm (by decide)
      · intro hbuf
        by_contra hlt
        exact hfit rfl ⟨hbuf, by simpa using (not_or.mp hbad).2, BitVec.not_le.mp hlt⟩
  | malloc_tx =>
    simp only [call_step]
    split_ifs with hp
    · exact h.throws_early (by decide) (by decide) (hs.no_tx (by decide))
    · apply PreparesTo.succ hl hl' rfl (Threads.goto_pc_self ..)
      refine h.succ rfl ?_ List.mem_cons_self h.memories
      intro m hm
      cases m <;> first | exact id | exact absurd hm (by decide)
  | malloc_rx =>
    simp only [call_step]
    split_ifs with hp
    · exact h.throws false (hs.tx (by decide) (by decide)) rfl
    · apply PreparesTo.succ hl hl' rfl (Threads.goto_pc_self ..)
      refine h.succ rfl ?_ ?_ h.memories
      · intro m hm
        cases m <;> first | exact id | exact List.mem_cons_of_mem _ | exact absurd hm (by decide)
      · rintro (heq : c.tx_buff = x.rx_malloc)
        have hmem : c.tx_buff ∈ s.dma.mapped := h.fact .malloc_tx (by decide)
        rw [heq] at hmem
        exact ((hr.2.2.2 rfl).resolve_left hp) hmem
  | store_tx | store_rx | set_file_path | set_buffer | set_buffer_size | set_user_callback
  | set_param | set_callback =>
    apply PreparesTo.succ hl hl' rfl (Threads.goto_pc_self ..)
    refine h.succ rfl ?_ rfl h.memories
    intro m hm
    cases m <;> first | exact id | exact absurd hm (by decide)
  | push_tx | push_rx =>
    apply PreparesTo.succ hl hl' rfl (Threads.goto_pc_self ..)
    refine h.succ rfl ?_ trivial ?_
    · intro m _
      cases m <;> exact id
    · exact congrArg (· ++ _) h.memories
  | open_input =>
    simp only [call_step]
    split_ifs
    · exact h.throws false (hs.tx (by decide) (by decide)) rfl
    · apply PreparesTo.succ hl hl' rfl (Threads.goto_pc_self ..)
      exact h.silent rfl rfl rfl rfl rfl trivial rfl
  | copy_key | key_loading_on | read_input | set_busy | key_loading_off | stop_tx | stop_rx
  | unlock =>
    apply PreparesTo.succ hl hl' rfl (Threads.goto_pc_self ..)
    exact h.silent rfl rfl rfl rfl rfl trivial rfl

end Prepare

/-! ## The record of a started transfer -/

def CurrentTransfer.of (r : Request) (fl : Flight) : CurrentTransfer :=
  ⟨fl.tx_buffer, fl.rx_buffer, r.output_path, r.output_buffer, r.output_buffer_size,
    r.callback, r.callback_param⟩

/-- The buffers of a transfer, and the size of its output. -/
structure Request.Suits (r : Request) (fl : Flight) : Prop where
  tx : fl.tx_buffer ≠ 0
  rx : fl.rx_buffer ≠ 0
  apart : fl.tx_buffer ≠ fl.rx_buffer
  fits : r.output_buffer ≠ 0 → fl.rx_size ≤ r.output_buffer_size

/-- The record is that of the transfer `fl` for the request `r`. -/
structure Recorded (d : DmaRecord) (r : Request) (fl : Flight) : Prop where
  suits : r.Suits fl
  current : d.current_transfer = .of r fl
  memories : d.dma_memories = [(fl.tx_size, fl.tx_buffer), (fl.rx_size, fl.rx_buffer)]

def Call.flight (c : Call) : Flight := ⟨c.tx_buff, c.tx_buff_size, c.rx_buff, c.aligned⟩

/-- A call that comes to its start has recorded its own transfer. -/
theorem Prepared.recorded {s : Threads} {c : Call} (h : Prepared s .start c)
    (hs : Sound .start c) : Recorded s.dma c.request c.flight where
  suits :=
    { tx := hs.tx (by decide) (by decide)
      rx := hs.rx (by decide) (by decide)
      apart := h.fact .malloc_rx (by decide)
      fits := h.fact .get_file_size (by decide) }
  current := by
    have h1 : s.dma.current_transfer.tx_buffer = c.tx_buff := h.fact .store_tx (by decide)
    have h2 : s.dma.current_transfer.rx_buffer = c.rx_buff := h.fact .store_rx (by decide)
    have h3 := h.fact .set_file_path (by decide)
    have h4 := h.fact .set_buffer (by decide)
    have h5 := h.fact .set_buffer_size (by decide)
    have h6 := h.fact .set_user_callback (by decide)
    have h7 := h.fact .set_param (by decide)
    unfold Fact at h3 h4 h5 h6 h7
    unfold CurrentTransfer.of
    rw [← h3, ← h4, ← h5, ← h6, ← h7]
    simp only [Call.flight]
    rw [← h1, ← h2]
  memories := h.memories

/-! ## The catch block -/

/-- A step of the catch block that frees or erases. -/
theorem Failing.step {t : Thread} {x : Outside} {c : Call} {s : Threads} {l : CallStep}
    (h : Failing s l c) (hl : .last_unlock < l) (hl' : l < .clear_busy) :
    ∃ l', (call_step t x c s l).pc t = .call l' c ∧ l'.ctorIdx = l.ctorIdx + 1 ∧
      Failing (call_step t x c s l) l' c := by
  have htx : c.rx_buff ≠ 0 ∨ c.tx_buff ≠ 0 := Or.inr h.tx
  cases l with
  | free_tx =>
    refine ⟨.free_rx, Threads.goto_pc_self .., rfl, h.tx, ?_, fun hn => absurd hn (by decide)⟩
    simp only [call_step, if_pos h.tx]
    exact h.mine
  | free_rx =>
    refine ⟨.erase, Threads.goto_pc_self .., rfl, h.tx, ?_, fun hn => absurd hn (by decide)⟩
    simp only [call_step]
    split_ifs <;> exact h.mine
  | erase =>
    have hnil : (call_step t x c s .erase).dma.dma_memories = [] := by
      simp only [call_step, if_pos htx]
      refine List.filter_eq_nil_iff.mpr ?_
      intro e he
      rcases h.mine e he with h1 | h1 <;> simp [h1]
    refine ⟨.clear_busy, Threads.goto_pc_self .., rfl, h.tx, ?_, fun _ => hnil⟩
    rw [hnil]
    exact fun e he => absurd he List.not_mem_nil
  | _ => first | exact absurd hl (by decide) | exact absurd hl' (by decide)

/-! ## The events of a transfer -/

/-- The output that goes to the file, or to the buffer. -/
def Request.delivery (r : Request) (out : Bytes) : List Event :=
  if r.output_path ≠ "" then [.written r.output_path (some out)]
  else if r.output_buffer ≠ 0 then [.copied r.output_buffer out] else []

def Request.invocation (r : Request) : List Event :=
  if r.callback ≠ 0 then [.invoked r.callback true r.callback_param] else []

/-- A transfer from its start to the call of its user callback. -/
def episode (r : Request) (fl : Flight) (out : Bytes) : List Event :=
  [.started r fl, .completed fl out] ++ r.delivery out ++ r.invocation

/-! ## `_dma_callback` -/

/-- The events of a transfer before step `l` of its callback. -/
def so_far (r : Request) (fl : Flight) (out : Bytes) (l : CallbackStep) : List Event :=
  [.started r fl, .completed fl out] ++ (if .copy_buffer < l then r.delivery out else []) ++
    (if .invoke < l then r.invocation else [])

/-- The entries that a callback has not erased before step `l`. -/
def remaining (fl : Flight) (l : CallbackStep) : List (Size × Ptr) :=
  (if .erase_tx < l then [] else [(fl.tx_size, fl.tx_buffer)]) ++
    (if .erase_rx < l then [] else [(fl.rx_size, fl.rx_buffer)])

/-- The branches that lead to a step. -/
def CallbackStep.Taken (r : Request) : CallbackStep → Prop
  | .write_file => r.output_path ≠ ""
  | .test_buffer => r.output_path = ""
  | .copy_buffer => r.output_path = "" ∧ r.output_buffer ≠ 0
  | .invoke => r.callback ≠ 0
  | _ => True

structure CallingBack (s : Threads) (l : CallbackStep) (b : Callback) (r : Request)
    (fl : Flight) (out : Bytes) (base : List Event) : Prop where
  suits : r.Suits fl
  full : out.length = fl.rx_size.toNat
  current : s.dma.current_transfer = .of r fl
  memories : s.dma.dma_memories = remaining fl l
  found_rx : .find_rx < l → b.rx = ⟨1, fl.rx_size, fl.rx_buffer⟩
  found_tx : .find_tx < l → b.tx = ⟨0, fl.tx_size, fl.tx_buffer⟩
  contents : l < .lock → s.dma.memory fl.rx_buffer = out
  taken : l.Taken r
  log : s.log = base ++ so_far r fl out l

inductive CallsBackTo (t : Thread) (s' : Threads) (r : Request) (fl : Flight) (out : Bytes)
    (base : List Event) : Prop
  | next {l' : CallbackStep} {b' : Callback} : s'.pc t = .callback l' b' →
      CallingBack s' l' b' r fl out base → CallsBackTo t s' r fl out base
  | done : s'.pc t = .outside → s'.dma.dma_memories = [] →
      s'.log = base ++ episode r fl out → CallsBackTo t s' r fl out base

section Callback

variable {t : Thread} {x : Outside} {b : Callback} {s : Threads} {l : CallbackStep}
  {r : Request} {fl : Flight} {out : Bytes} {base : List Event}

theorem so_far_delivered (hl : ¬ .copy_buffer < l) :
    so_far r fl out .lock = so_far r fl out l ++ r.delivery out := by
  have hl' : ¬ .invoke < l := fun h => hl (Nat.lt_trans (by decide) h)
  unfold so_far
  rw [if_pos (by decide), if_neg (by decide), if_neg hl, if_neg hl']
  simp

theorem so_far_invoked (hl : .copy_buffer < l) (hl' : ¬ .invoke < l) :
    so_far r fl out .unlock = so_far r fl out l ++ r.invocation := by
  unfold so_far
  rw [if_pos (by decide), if_pos (by decide), if_pos hl, if_neg hl']
  simp

/-- What a callback has found stays found. Once it has delivered, the contents of the
receive buffer no longer matter. -/
theorem CallingBack.later {s' : Threads} {l' : CallbackStep} (h : CallingBack s l b r fl out base)
    (hfound : .find_tx < l) (hcur : s'.dma.current_transfer = s.dma.current_transfer)
    (hmem : s'.dma.dma_memories = remaining fl l')
    (hcont : l' < .lock → s'.dma.memory fl.rx_buffer = out) (htaken : l'.Taken r)
    (hlog : s'.log = base ++ so_far r fl out l') : CallingBack s' l' b r fl out base where
  suits := h.suits
  full := h.full
  current := by rw [hcur, h.current]
  memories := hmem
  found_rx _ := h.found_rx (Nat.lt_of_succ_lt hfound)
  found_tx _ := h.found_tx hfound
  contents := hcont
  taken := htaken
  log := hlog

/-- A step that neither finds, erases nor says anything. -/
theorem CallingBack.silent {s' : Threads} {l' : CallbackStep}
    (h : CallingBack s l b r fl out base) (hdma : s'.dma.dma_memories = s.dma.dma_memories)
    (hcur : s'.dma.current_transfer = s.dma.current_transfer)
    (hmem : s'.dma.memory = s.dma.memory) (hlog : s'.log = s.log)
    (hrem : remaining fl l' = remaining fl l) (hfar : so_far r fl out l' = so_far r fl out l)
    (hfound : .find_tx < l) (hlock : l' < .lock → l < .lock) (htaken : l'.Taken r) :
    CallingBack s' l' b r fl out base := by
  refine h.later hfound hcur (by rw [hdma, h.memories, hrem]) ?_ htaken (by rw [hlog, h.log, hfar])
  intro hl
  rw [hmem]
  exact h.contents (hlock hl)

theorem lookup_rx (h : s.dma.dma_memories = remaining fl .find_rx)
    (hne : fl.tx_buffer ≠ fl.rx_buffer) :
    s.dma.lookup fl.rx_buffer = ⟨1, fl.rx_size, fl.rx_buffer⟩ := by
  have hmem : s.dma.dma_memories =
      [(fl.tx_size, fl.tx_buffer), (fl.rx_size, fl.rx_buffer)] := h
  have hindex : s.dma.dma_memories.findIdx (fun e => e.2 == fl.rx_buffer) = 1 := by
    simp [hmem, List.findIdx_cons, beq_eq_false_iff_ne.mpr hne]
  unfold DmaRecord.lookup
  simp only [hindex]
  rw [hmem]
  rfl

theorem lookup_tx (h : s.dma.dma_memories = remaining fl .find_tx) :
    s.dma.lookup fl.tx_buffer = ⟨0, fl.tx_size, fl.tx_buffer⟩ := by
  have hmem : s.dma.dma_memories =
      [(fl.tx_size, fl.tx_buffer), (fl.rx_size, fl.rx_buffer)] := h
  simp [DmaRecord.lookup, hmem, List.findIdx_cons]

/-- The callback delivers what the transfer has put into its receive buffer. -/
theorem CallingBack.bytes (h : CallingBack s l b r fl out base) (hrx : .find_rx < l)
    (hl : l < .lock) : s.dma.bytes b.rx = out := by
  rw [h.found_rx hrx]
  unfold DmaRecord.bytes
  rw [h.contents hl, ← h.full, List.take_length]

/-- A step of a callback for its own transfer. -/
theorem CallingBack.step (h : CallingBack s l b r fl out base)
    (hw : l = .write_file → ∃ k, x.stream = some k ∧ fl.rx_size.toNat ≤ k) :
    CallsBackTo t (callback_step t x b s l) r fl out base := by
  have hcur := h.current
  cases l with
  | find_rx =>
    refine .next (Threads.goto_pc_self ..)
      { h with found_rx := fun _ => ?_, found_tx := fun hn => absurd hn (by decide)
               contents := fun _ => h.contents (by decide), taken := trivial }
    simp only [hcur]
    exact lookup_rx h.memories h.suits.apart
  | find_tx =>
    refine .next (Threads.goto_pc_self ..)
      { h with found_rx := fun _ => h.found_rx (by decide), found_tx := fun _ => ?_
               contents := fun _ => h.contents (by decide), taken := trivial }
    simp only [hcur]
    exact lookup_tx h.memories
  | test_path =>
    apply CallsBackTo.next (Threads.goto_pc_self ..)
    rw [hcur]
    split_ifs with hpath
    · exact h.silent rfl rfl rfl rfl rfl rfl (by decide) (fun _ => by decide) hpath
    · exact h.silent rfl rfl rfl rfl rfl rfl (by decide) (fun _ => by decide)
        (not_not.mp hpath)
  | write_file =>
    have hpath : r.output_path ≠ "" := h.taken
    obtain ⟨k, hk, hle⟩ := hw rfl
    have htake : x.stream.map (s.dma.bytes b.rx).take = some out := by
      rw [h.bytes (by decide) (by decide), hk, Option.map_some, List.take_of_length_le]
      rw [h.full]
      exact hle
    refine .next (Threads.goto_pc_self ..)
      (h.later (by decide) rfl h.memories (fun hn => absurd hn (by decide)) trivial ?_)
    change s.log ++ [.written s.dma.current_transfer.output_file_path _] = _
    rw [htake, hcur, h.log, so_far_delivered (l := .write_file) (by decide),
      ← List.append_assoc, Request.delivery, if_pos hpath]
    rfl
  | test_buffer =>
    have hpath : r.output_path = "" := h.taken
    apply CallsBackTo.next (Threads.goto_pc_self ..)
    rw [hcur]
    split_ifs with hbuf
    · exact h.silent rfl rfl rfl rfl rfl rfl (by decide) (fun _ => by decide) ⟨hpath, hbuf⟩
    · have hnone : ¬ r.output_buffer ≠ 0 := hbuf
      refine h.silent rfl rfl rfl rfl rfl ?_ (by decide) (fun hn => absurd hn (by decide)) trivial
      rw [so_far_delivered (l := .test_buffer) (by decide), Request.delivery,
        if_neg (not_not.mpr hpath), if_neg hnone, List.append_nil]
  | copy_buffer =>
    obtain ⟨hpath, hbuf⟩ : r.output_path = "" ∧ r.output_buffer ≠ 0 := h.taken
    refine .next (Threads.goto_pc_self ..)
      (h.later (by decide) rfl h.memories (fun hn => absurd hn (by decide)) trivial ?_)
    change s.log ++ [.copied s.dma.current_transfer.output_buffer _] = _
    rw [h.bytes (by decide) (by decide), hcur, h.log,
      so_far_delivered (l := .copy_buffer) (by decide), ← List.append_assoc,
      Request.delivery, if_neg (not_not.mpr hpath), if_pos hbuf]
    rfl
  | lock | clear_busy =>
    exact .next (Threads.goto_pc_self ..) (h.silent rfl rfl rfl rfl rfl rfl (by decide)
      (fun hn => absurd hn (by decide)) trivial)
  | free_rx =>
    have hne : b.rx.buff ≠ 0 := by
      rw [h.found_rx (by decide)]
      exact h.suits.rx
    simp only [callback_step, if_pos hne]
    exact .next (Threads.goto_pc_self ..) (h.silent rfl rfl rfl rfl rfl rfl (by decide)
      (fun hn => absurd hn (by decide)) trivial)
  | free_tx =>
    have hne : b.tx.buff ≠ 0 := by
      rw [h.found_tx (by decide)]
      exact h.suits.tx
    simp only [callback_step, if_pos hne]
    exact .next (Threads.goto_pc_self ..) (h.silent rfl rfl rfl rfl rfl rfl (by decide)
      (fun hn => absurd hn (by decide)) trivial)
  | erase_rx =>
    refine .next (Threads.goto_pc_self ..)
      (h.later (by decide) rfl ?_ (fun hn => absurd hn (by decide)) trivial h.log)
    change s.dma.dma_memories.eraseIdx b.rx.index = _
    rw [h.memories, h.found_rx (by decide)]
    rfl
  | erase_tx =>
    refine .next (Threads.goto_pc_self ..)
      (h.later (by decide) rfl ?_ (fun hn => absurd hn (by decide)) trivial h.log)
    change s.dma.dma_memories.eraseIdx b.tx.index = _
    rw [h.memories, h.found_tx (by decide)]
    rfl
  | test_callback =>
    apply CallsBackTo.next (Threads.goto_pc_self ..)
    rw [hcur]
    split_ifs with hcall
    · exact h.silent rfl rfl rfl rfl rfl rfl (by decide) (fun hn => absurd hn (by decide)) hcall
    · have hnone : ¬ r.callback ≠ 0 := hcall
      refine h.silent rfl rfl rfl rfl rfl ?_ (by decide) (fun hn => absurd hn (by decide)) trivial
      rw [so_far_invoked (l := .test_callback) (by decide) (by decide),
        Request.invocation, if_neg hnone, List.append_nil]
  | invoke =>
    have hcall : r.callback ≠ 0 := h.taken
    have hlog : s.log ++ [.invoked s.dma.current_transfer.user_callback true
        s.dma.current_transfer.callback_param] = base ++ so_far r fl out .unlock := by
      rw [hcur, h.log, so_far_invoked (l := .invoke) (by decide) (by decide),
        ← List.append_assoc, Request.invocation, if_pos hcall]
      rfl
    simp only [callback_step]
    split_ifs
    · exact .done (Threads.goto_pc_self ..) h.memories hlog
    · exact .next (Threads.goto_pc_self ..)
        (h.later (by decide) rfl h.memories (fun hn => absurd hn (by decide)) trivial hlog)
  | unlock =>
    exact .done (Threads.goto_pc_self ..) h.memories h.log

end Callback

end aes
