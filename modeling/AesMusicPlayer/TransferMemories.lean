-- The DMA buffers of one engine of the class `aes`, over calls, callbacks and
-- the final `destroy`, one at a time. Two buffers are taken and recorded at
-- different points of a call, and the callback erases them by iterators that it
-- got before.
import AesMusicPlayer.Ledger
import AesMusicPlayer.Traces
import AesMusicPlayer.TransferErrors

namespace aes

open ledger

/-! ## The calls of the driver -/

abbrev MemoryCall := Call Ptr Size

def Answers.tx_size (a : Answers) : Size := AES_KEY_WIDTH + a.aligned

/-- The calls of the catch block with both buffers. -/
def Answers.free_both (a : Answers) : List MemoryCall :=
  [.free a.tx_malloc a.tx_size, .free a.rx_malloc a.aligned]

/-- The calls of `axidma_malloc` and `axidma_free` during one call of `_do_transfer`. -/
def do_transfer_calls (a : Answers) (r : Request) (s : DmaState) : List MemoryCall :=
  if s.dev = false then []
  else if s.is_busy then []
  else if a.file_size = none then []
  else if r.too_small a.aligned then []
  else if a.tx_malloc = 0 then []
  else if a.rx_malloc = 0 then
    [.malloc a.tx_malloc a.tx_size, .free a.tx_malloc a.tx_size]
  else [.malloc a.tx_malloc a.tx_size, .malloc a.rx_malloc a.aligned] ++
    match a.input with
    | none => a.free_both
    | some _ => if a.twoway < 0 then a.free_both else []

/-- The free for a buffer that the lookup finds. -/
def release_calls (l : List (Size × Ptr)) (p : Ptr) : List MemoryCall :=
  match find_memory l p with
  | some e => [.free e.2 e.1]
  | none => []

/-- Both lookups of `_dma_callback` come before its frees. -/
def dma_callback_calls (s : DmaState) : List MemoryCall :=
  release_calls s.dma_memories s.current_transfer.rx_buffer ++
    release_calls s.dma_memories s.current_transfer.tx_buffer

def destroy_calls (s : DmaState) : List MemoryCall :=
  s.dma_memories.map fun e => .free e.2 e.1

/-- The place that `std::find_if` gives. -/
def iterator (l : List (Size × Ptr)) (p : Ptr) : ℕ := l.findIdx fun e => e.2 == p

/-- What the two `erase` calls of `_dma_callback` leave, by the iterators from before them. -/
def erase_iterators (l : List (Size × Ptr)) (rx tx : Ptr) : List (Size × Ptr) :=
  let l' := if (find_memory l rx).isSome then l.eraseIdx (iterator l rx) else l
  if (find_memory l tx).isSome then l'.eraseIdx (iterator l tx) else l'

/-! ## Runs -/

/-- The state of an engine with the calls that its driver has seen. -/
structure Account where
  state : DmaState
  calls : List MemoryCall
  /-- `destroy` has closed the device -/
  destroyed : Bool

inductive MemoryOp
  | do_transfer (a : Answers) (r : Request)
  | dma_callback (out : Bytes) (w : StreamWrite)
  | destroy

/-- The transfer in flight ends, if there is one. -/
def finish (out : Bytes) (s : DmaState) : DmaState :=
  match s.in_flight with
  | some f => complete f out s
  | none => s

/-- `axidma_malloc` may fail or give any address that is not mapped. -/
def Answers.FreshFor (a : Answers) (l : List (Size × Ptr)) : Prop :=
  (a.tx_malloc = 0 ∨ ledger.Fresh l a.tx_malloc) ∧
    (a.rx_malloc = 0 ∨ ledger.Fresh l a.rx_malloc ∧ a.rx_malloc ≠ a.tx_malloc)

/-- Calls and callbacks in any order, and a final `destroy`. -/
def memories : traces.System Account MemoryOp where
  next c
    | .do_transfer a r =>
      ⟨(do_transfer a r c.state).2, c.calls ++ do_transfer_calls a r c.state, c.destroyed⟩
    | .dma_callback out w =>
      ⟨(dma_callback w (finish out c.state)).2,
        c.calls ++ dma_callback_calls (finish out c.state), c.destroyed⟩
    | .destroy => ⟨c.state, c.calls ++ destroy_calls c.state, true⟩
  Enabled c op := c.destroyed = false ∧
    match op with
    | .do_transfer a _ => a.FreshFor (live c.calls)
    | _ => True

instance (a : Answers) (l : List (Size × Ptr)) : Decidable (a.FreshFor l) :=
  inferInstanceAs (Decidable (_ ∧ _))

instance (c : Account) : (op : MemoryOp) → Decidable (memories.Enabled c op)
  | .do_transfer a _ =>
    inferInstanceAs (Decidable (c.destroyed = false ∧ a.FreshFor (live c.calls)))
  | .dma_callback _ _ | .destroy => inferInstanceAs (Decidable (c.destroyed = false ∧ True))

/-- An engine after `init`. -/
structure Account.Initial (c : Account) : Prop where
  state : c.state.Initial
  mapped : c.state.mapped = []
  calls : c.calls = []
  destroyed : c.destroyed = false

/-! ## The calls of a call -/

/-- What a call that throws takes, it gives back. -/
theorem Throws.calls {a : Answers} {r : Request} {s s' : DmaState} (h : Throws a r s s') :
    do_transfer_calls a r s = [] ∨
      a.tx_malloc ≠ 0 ∧ do_transfer_calls a r s =
        [.malloc a.tx_malloc a.tx_size, .free a.tx_malloc a.tx_size] ∨
      a.tx_malloc ≠ 0 ∧ a.rx_malloc ≠ 0 ∧ do_transfer_calls a r s =
        [.malloc a.tx_malloc a.tx_size, .malloc a.rx_malloc a.aligned,
          .free a.tx_malloc a.tx_size, .free a.rx_malloc a.aligned] := by
  unfold do_transfer_calls
  cases h with
  | uninitialized hdev =>
    rw [if_pos hdev]
    exact Or.inl rfl
  | busy hdev hbusy =>
    rw [if_pos hbusy, ite_self]
    exact Or.inl rfl
  | early hdev hidle hearly =>
    left
    split_ifs with h1 h2 h3 h4 h5 <;>
      first
        | rfl
        | exact absurd hearly (by simp [Answers.early, h3, h4, h5])
  | no_rx_memory hdev hidle hearly hrx =>
    obtain ⟨hfile, hsmall, htx⟩ := Answers.of_late hearly
    simp only [hdev, hidle, hfile, hsmall, htx, hrx, Bool.true_eq_false, Bool.false_eq_true, if_false,
      if_true]
    exact Or.inr (Or.inl ⟨htx, trivial⟩)
  | no_input hdev hidle hearly hrx hin =>
    obtain ⟨hfile, hsmall, htx⟩ := Answers.of_late hearly
    simp only [hdev, hidle, hfile, hsmall, htx, hrx, hin, Bool.true_eq_false, Bool.false_eq_true,
      if_false]
    exact Or.inr (Or.inr ⟨htx, hrx, rfl⟩)
  | not_started hdev hidle hearly hrx hin hret =>
    obtain ⟨hfile, hsmall, htx⟩ := Answers.of_late hearly
    simp only [hdev, hidle, hfile, hsmall, htx, hrx, hin, hret, Bool.true_eq_false,
      Bool.false_eq_true, if_false, if_true]
    exact Or.inr (Or.inr ⟨htx, hrx, rfl⟩)

theorem Starts.calls {a : Answers} {r : Request} {s s' : DmaState} (h : Starts a r s s') :
    a.tx_malloc ≠ 0 ∧ a.rx_malloc ≠ 0 ∧ do_transfer_calls a r s =
      [.malloc a.tx_malloc a.tx_size, .malloc a.rx_malloc a.aligned] := by
  unfold do_transfer_calls
  cases h with
  | started hdev hidle hearly hrx hin hret =>
    obtain ⟨hfile, hsmall, htx⟩ := Answers.of_late hearly
    simp only [hdev, hidle, hfile, hsmall, htx, hrx, hin, hret, Bool.true_eq_false,
      Bool.false_eq_true, if_false]
    exact ⟨htx, hrx, rfl⟩

/-! ## The buffers that are mapped -/

theorem DmaState.mem_cleanup_tx {s : DmaState} {tx p : Ptr} (htx : tx ≠ 0) :
    p ∈ (s.cleanup tx 0).mapped ↔ p ∈ s.mapped ∧ p ≠ tx := by
  unfold cleanup
  rw [List.mem_filter]
  simp [htx]

theorem DmaState.mem_cleanup {s : DmaState} {tx rx p : Ptr} (htx : tx ≠ 0) (hrx : rx ≠ 0) :
    p ∈ (s.cleanup tx rx).mapped ↔ p ∈ s.mapped ∧ p ≠ tx ∧ p ≠ rx := by
  unfold cleanup
  rw [List.mem_filter]
  simp [htx, hrx]

/-- The buffers that a call has taken are gone after the catch block. -/
theorem Throws.mapped_iff {a : Answers} {r : Request} {s s' : DmaState} (h : Throws a r s s')
    (hf : a.Fresh s) (p : Ptr) : p ∈ s'.mapped ↔ p ∈ s.mapped := by
  have htx : a.tx_malloc ≠ 0 → p ∈ s.mapped → p ≠ a.tx_malloc :=
    fun h0 hp heq => hf.tx.resolve_left h0 (heq ▸ hp)
  have hrx : a.rx_malloc ≠ 0 → p ∈ s.mapped → p ≠ a.rx_malloc :=
    fun h0 hp heq => hf.rx.resolve_left h0 (heq ▸ List.mem_cons_of_mem _ hp)
  have hboth : a.tx_malloc ≠ 0 → a.rx_malloc ≠ 0 →
      ((p ∈ a.rx_malloc :: a.tx_malloc :: s.mapped ∧ p ≠ a.tx_malloc ∧ p ≠ a.rx_malloc) ↔
        p ∈ s.mapped) := by
    intro h0 h1
    simp only [List.mem_cons]
    exact ⟨fun ⟨hp, ht, hr⟩ => (hp.resolve_left hr).resolve_left ht,
      fun hp => ⟨Or.inr (Or.inr hp), htx h0 hp, hrx h1 hp⟩⟩
  cases h with
  | uninitialized _ => exact Iff.rfl
  | busy _ _ => rw [DmaState.cleanup_nothing]
  | early _ _ _ => rw [DmaState.cleanup_nothing]
  | no_rx_memory _ _ hearly _ =>
    have h0 : a.tx_malloc ≠ 0 := (Answers.of_late hearly).2.2
    rw [DmaState.mem_cleanup_tx h0]
    unfold DmaState.store_tx
    simp only [List.mem_cons]
    exact ⟨fun ⟨hp, ht⟩ => hp.resolve_left ht, fun hp => ⟨Or.inr hp, htx h0 hp⟩⟩
  | no_input _ _ hearly h1 _ | not_started _ _ hearly h1 _ _ =>
    have h0 : a.tx_malloc ≠ 0 := (Answers.of_late hearly).2.2
    rw [DmaState.mem_cleanup h0 h1]
    exact hboth h0 h1

theorem Starts.mapped_iff {a : Answers} {r : Request} {s s' : DmaState} (h : Starts a r s s')
    (p : Ptr) : p ∈ s'.mapped ↔ p = a.rx_malloc ∨ p = a.tx_malloc ∨ p ∈ s.mapped := by
  cases h with
  | started _ _ _ _ _ _ =>
    unfold ready_to_start with_buffers DmaState.store_rx DmaState.store_tx DmaState.set_config
      DmaState.fill_tx DmaState.setup DmaState.stop
    simp only [List.mem_cons]

theorem Starts.dma_memories {a : Answers} {r : Request} {s s' : DmaState} (h : Starts a r s s') :
    s'.dma_memories =
      s.dma_memories ++ [(a.tx_size, a.tx_malloc)] ++ [(a.aligned, a.rx_malloc)] := by
  cases h with
  | started _ _ _ _ _ _ => rfl

/-! ## The two entries of a transfer -/

/-- When the callback finds both entries, the tx entry comes first. -/
def DmaState.Ordered (s : DmaState) : Prop :=
  (find_memory s.dma_memories s.current_transfer.rx_buffer).isSome →
    (find_memory s.dma_memories s.current_transfer.tx_buffer).isSome →
    iterator s.dma_memories s.current_transfer.tx_buffer <
      iterator s.dma_memories s.current_transfer.rx_buffer

theorem find_memory_none {l : List (Size × Ptr)} {p : Ptr} (h : ∀ e ∈ l, e.2 ≠ p) :
    find_memory l p = none := by
  unfold find_memory
  rw [List.find?_eq_none]
  intro e he
  simpa using h e he

theorem ordered_of_no_tx {s : DmaState}
    (h : ∀ e ∈ s.dma_memories, e.2 ≠ s.current_transfer.tx_buffer) : s.Ordered := by
  intro _ htx
  rw [find_memory_none h] at htx
  cases htx

theorem iterator_append {l l' : List (Size × Ptr)} {p : Ptr} (h : ∀ e ∈ l, e.2 ≠ p) :
    iterator (l ++ l') p = l.length + iterator l' p := by
  have hl : l.findIdx (fun e => e.2 == p) = l.length := by
    rw [List.findIdx_eq_length]
    intro e he
    simpa using h e he
  unfold iterator
  rw [List.findIdx_append, hl, if_neg (Nat.lt_irrefl _), Nat.add_comm]

theorem Throws.ordered {a : Answers} {r : Request} {s s' : DmaState} (h : Throws a r s s')
    (hw : s.WellFormed) (hf : a.Fresh s) (ho : s.Ordered) : s'.Ordered := by
  have hmem := h.dma_memories hw hf
  have hapart := DmaState.apart_of_fresh hw hf
  cases h with
  | uninitialized _ => exact ho
  | busy _ _ | early _ _ _ =>
    rw [DmaState.cleanup_nothing]
    exact ho
  | no_rx_memory _ _ _ _ | no_input _ _ _ _ _ | not_started _ _ _ _ _ _ =>
    apply ordered_of_no_tx
    rw [hmem]
    exact fun e he => (hapart e he).1

theorem Starts.ordered {a : Answers} {r : Request} {s s' : DmaState} (h : Starts a r s s')
    (hw : s.WellFormed) (hf : a.Fresh s) : s'.Ordered := by
  have hmem := h.dma_memories
  have hapart := DmaState.apart_of_fresh hw hf
  cases h with
  | started _ _ _ hrx _ _ =>
    have hne : a.tx_malloc ≠ a.rx_malloc := by
      intro heq
      exact hf.rx.resolve_left hrx (heq ▸ List.mem_cons_self)
    intro _ _
    rw [hmem, List.append_assoc]
    change iterator _ a.tx_malloc < iterator _ a.rx_malloc
    rw [iterator_append fun e he => (hapart e he).1, iterator_append fun e he => (hapart e he).2]
    have hbeq : (a.tx_malloc == a.rx_malloc) = false := by simpa using hne
    unfold iterator
    simp [List.findIdx_cons, hbeq]

/-! ## The callback -/

theorem find_memory_spec {l : List (Size × Ptr)} {p : Ptr} {e : Size × Ptr}
    (h : find_memory l p = some e) : e ∈ l ∧ e.2 = p := by
  unfold find_memory at h
  exact ⟨List.mem_of_find?_eq_some h, by simpa using List.find?_some h⟩

theorem find_memory_eq_none {l : List (Size × Ptr)} {p : Ptr} (h : find_memory l p = none) :
    ∀ e ∈ l, e.2 ≠ p := by
  unfold find_memory at h
  intro e he
  simpa using List.find?_eq_none.mp h e he

theorem erase_memory_none {l : List (Size × Ptr)} {p : Ptr} (h : find_memory l p = none) :
    erase_memory l p = l := by
  unfold erase_memory
  apply List.eraseP_of_forall_not
  intro e he
  simpa using find_memory_eq_none h e he

/-- Erasing another address does not change what a lookup finds. -/
theorem find_memory_erase {l : List (Size × Ptr)} {p q : Ptr} (hne : q ≠ p) :
    find_memory (erase_memory l q) p = find_memory l p := by
  unfold find_memory erase_memory
  induction l with
  | nil => rfl
  | cons e l ih =>
    by_cases hq : e.2 = q
    · have hp : (e.2 == p) = false := by simpa [hq] using hne
      rw [List.eraseP_cons_of_pos (by simp [hq]), List.find?_cons_of_neg (by simp [hp])]
    · rw [List.eraseP_cons_of_neg (by simp [hq]), List.find?_cons, List.find?_cons, ih]

theorem release_dma_memories (s : DmaState) (p : Ptr) :
    (s.release p).dma_memories = erase_memory s.dma_memories p := by
  unfold DmaState.release
  cases hf : find_memory s.dma_memories p with
  | none => exact (erase_memory_none hf).symm
  | some e => rfl

theorem mem_release {s : DmaState} {p q : Ptr} :
    q ∈ (s.release p).mapped ↔ q ∈ s.mapped ∧ ((find_memory s.dma_memories p).isSome → q ≠ p) := by
  unfold DmaState.release
  cases hf : find_memory s.dma_memories p with
  | none => simp
  | some e =>
    rw [List.mem_filter]
    simp

theorem release_current (s : DmaState) (p : Ptr) :
    (s.release p).current_transfer = s.current_transfer := by
  unfold DmaState.release
  split <;> rfl

section Callback

variable {log : List MemoryCall} {l : List (Size × Ptr)}

/-- One lookup with its free and its erasure. -/
theorem release_keeps (h : Sound log) (hl : Lists l (live log)) (p : Ptr) :
    Sound (log ++ release_calls l p) ∧
      Lists (erase_memory l p) (live (log ++ release_calls l p)) := by
  unfold release_calls
  cases hf : find_memory l p with
  | none =>
    rw [erase_memory_none hf, List.append_nil]
    exact ⟨h, hl⟩
  | some e =>
    obtain ⟨hmem, rfl⟩ := find_memory_spec hf
    refine ⟨h.snoc ((hl.exact e).mp hmem), ?_⟩
    rw [live_free]
    exact hl.erase e.2

/-- The second lookup finds the same before and after the first erasure. -/
theorem release_calls_erase {rx tx : Ptr}
    (ho : (find_memory l rx).isSome → (find_memory l tx).isSome → iterator l tx < iterator l rx) :
    release_calls (erase_memory l rx) tx = release_calls l tx := by
  unfold release_calls
  by_cases heq : rx = tx
  · subst heq
    cases hf : find_memory l rx with
    | none => rw [erase_memory_none hf, hf]
    | some e =>
      rw [hf] at ho
      exact absurd (ho rfl rfl) (Nat.lt_irrefl _)
  · rw [find_memory_erase heq]

/-- Erasing by the iterators from before is erasing by address. -/
theorem erase_iterators_eq {rx tx : Ptr}
    (ho : (find_memory l rx).isSome → (find_memory l tx).isSome → iterator l tx < iterator l rx) :
    erase_iterators l rx tx = erase_memory (erase_memory l rx) tx := by
  unfold erase_iterators
  cases hrx : find_memory l rx with
  | none =>
    rw [erase_memory_none hrx]
    cases htx : find_memory l tx with
    | none =>
      rw [erase_memory_none htx]
      rfl
    | some e => exact eraseIdx_findIdx _ l
  | some d =>
    rw [hrx] at ho
    cases htx : find_memory l tx with
    | none =>
      have hgone : find_memory (erase_memory l rx) tx = none := by
        apply find_memory_none
        intro e he
        exact find_memory_eq_none htx e (List.mem_of_mem_eraseP he)
      rw [erase_memory_none hgone]
      exact eraseIdx_findIdx _ l
    | some e =>
      rw [htx] at ho
      exact eraseIdx_eraseIdx (ho rfl rfl)

end Callback

theorem finish_dma_memories (out : Bytes) (s : DmaState) :
    (finish out s).dma_memories = s.dma_memories := by
  unfold finish
  split <;> rfl

theorem finish_current (out : Bytes) (s : DmaState) :
    (finish out s).current_transfer = s.current_transfer := by
  unfold finish
  split <;> rfl

theorem finish_mapped (out : Bytes) (s : DmaState) : (finish out s).mapped = s.mapped := by
  unfold finish
  split <;> rfl

theorem dma_callback_dma_memories (w : StreamWrite) (s : DmaState) :
    (dma_callback w s).2.dma_memories = erase_memory (erase_memory s.dma_memories
      s.current_transfer.rx_buffer) s.current_transfer.tx_buffer := by
  unfold dma_callback
  simp only [release_dma_memories]

/-! ## What is kept -/

/-- The calls fit each other, and the list holds what is mapped until `destroy` frees it. -/
structure Account.Inv (c : Account) : Prop where
  well : c.state.WellFormed
  ordered : c.state.Ordered
  sound : Sound c.calls
  lists : c.destroyed = false → Lists c.state.dma_memories (live c.calls)
  mapped : c.destroyed = false → ∀ p ∈ c.state.mapped, ∃ n, (n, p) ∈ live c.calls
  gone : c.destroyed = true → live c.calls = []

/-- The invariant before `destroy`. -/
theorem Account.Inv.of_mapped {c : Account} (hd : c.destroyed = false)
    (hwell : c.state.WellFormed) (hordered : c.state.Ordered) (hsound : Sound c.calls)
    (hlists : Lists c.state.dma_memories (live c.calls))
    (hmapped : ∀ p ∈ c.state.mapped, ∃ n, (n, p) ∈ live c.calls) : c.Inv := by
  refine ⟨hwell, hordered, hsound, fun _ => hlists, fun _ => hmapped, fun hd' => ?_⟩
  rw [hd] at hd'
  cases hd'

theorem Account.Initial.inv {c : Account} (h : c.Initial) : c.Inv := by
  refine .of_mapped h.destroyed ?_ ?_ ?_ ?_ ?_
  · refine ⟨?_, ?_, ?_⟩ <;> simp [h.state.dma_memories]
  · apply ordered_of_no_tx
    simp [h.state.dma_memories]
  · rw [h.calls]
    exact .nil
  · rw [h.state.dma_memories, h.calls]
    exact Lists.nil
  · intro p hp
    rw [h.mapped] at hp
    cases hp

/-- What is free for the log is free for the driver. -/
theorem Account.Inv.fresh {c : Account} (h : c.Inv) (hd : c.destroyed = false) {a : Answers}
    (hf : a.FreshFor (live c.calls)) : a.Fresh c.state := by
  have hnot : ∀ {p}, ledger.Fresh (live c.calls) p → p ∉ c.state.mapped := by
    intro p hp hmem
    obtain ⟨n, hn⟩ := h.mapped hd p hmem
    exact hp _ hn rfl
  refine ⟨hf.1.imp_right hnot, hf.2.imp_right ?_⟩
  rintro ⟨hp, hne⟩ hmem
  rcases List.mem_cons.mp hmem with heq | hmem
  · exact hne heq
  · exact hnot hp hmem

/-- A call that throws gives back what it took, to the driver and in the list. -/
theorem Account.Inv.throws {c : Account} (h : c.Inv) (hd : c.destroyed = false) {a : Answers}
    {r : Request} {s' : DmaState} (hf : a.FreshFor (live c.calls))
    (ht : Throws a r c.state s') (hw : s'.WellFormed) :
    Account.Inv ⟨s', c.calls ++ do_transfer_calls a r c.state, c.destroyed⟩ := by
  have hfresh := h.fresh hd hf
  have hcalls : Sound (c.calls ++ do_transfer_calls a r c.state) ∧
      live (c.calls ++ do_transfer_calls a r c.state) = live c.calls := by
    rcases ht.calls with hc | ⟨h0, hc⟩ | ⟨h0, h1, hc⟩ <;> rw [hc]
    · rw [List.append_nil]
      exact ⟨h.sound, rfl⟩
    · exact h.sound.taken_back (hf.1.resolve_left h0) _
    · obtain ⟨hrx, hne⟩ := hf.2.resolve_left h1
      exact h.sound.taken_back_both (hf.1.resolve_left h0) hrx hne _ _
  refine .of_mapped hd hw (ht.ordered h.well hfresh h.ordered) hcalls.1 ?_ fun p hp => ?_
  · rw [hcalls.2, ht.dma_memories h.well hfresh]
    exact h.lists hd
  · rw [hcalls.2]
    exact h.mapped hd p ((ht.mapped_iff hfresh p).mp hp)

theorem Account.Inv.starts {c : Account} (h : c.Inv) (hd : c.destroyed = false) {a : Answers}
    {r : Request} {s' : DmaState} (hf : a.FreshFor (live c.calls))
    (hs : Starts a r c.state s') (hw : s'.WellFormed) :
    Account.Inv ⟨s', c.calls ++ do_transfer_calls a r c.state, c.destroyed⟩ := by
  obtain ⟨h0, h1, hcalls⟩ := hs.calls
  obtain ⟨hrx, hne⟩ := hf.2.resolve_left h1
  have htx := hf.1.resolve_left h0
  obtain ⟨hsound, hlive⟩ := h.sound.taken_both htx hrx hne a.tx_size a.aligned
  refine .of_mapped hd hw (hs.ordered h.well (h.fresh hd hf)) ?_ ?_ fun p hp => ?_
  · rw [hcalls]
    exact hsound
  · rw [hcalls, hlive, hs.dma_memories]
    exact ((h.lists hd).malloc htx a.tx_size).malloc (hrx.snoc hne a.tx_size) a.aligned
  · rw [hcalls, hlive]
    rcases (hs.mapped_iff p).mp hp with rfl | rfl | hp
    · exact ⟨a.aligned, by simp⟩
    · exact ⟨a.tx_size, by simp⟩
    · obtain ⟨n, hn⟩ := h.mapped hd p hp
      exact ⟨n, by simp [hn]⟩

/-- A buffer that a release leaves mapped is left in the list. -/
theorem mem_erase_of_mem_release {s : DmaState} {p q : Ptr} (hq : q ∈ (s.release p).mapped)
    {n : Size} (hn : (n, q) ∈ s.dma_memories) : (n, q) ∈ (s.release p).dma_memories := by
  rw [release_dma_memories]
  have hne : q ≠ p := by
    intro heq
    cases hf : find_memory s.dma_memories p with
    | none => exact find_memory_eq_none hf _ hn heq
    | some e => exact (mem_release.mp hq).2 (by rw [hf]; rfl) heq
  unfold erase_memory
  rw [List.mem_eraseP_of_neg (by simpa using hne)]
  exact hn

theorem Account.Inv.dma_callback {c : Account} (h : c.Inv) (hd : c.destroyed = false) (out : Bytes)
    (w : StreamWrite) : (memories.next c (.dma_callback out w)).Inv := by
  have hw : (finish out c.state).WellFormed := by
    apply h.well.congr (finish_dma_memories out c.state)
    rw [finish_mapped]
    exact h.well.mapped
  have hlists : Lists (finish out c.state).dma_memories (live c.calls) := by
    rw [finish_dma_memories]
    exact h.lists hd
  have hmapped : ∀ p ∈ (finish out c.state).mapped, ∃ n, (n, p) ∈ live c.calls := by
    rw [finish_mapped]
    exact h.mapped hd
  have ho : (finish out c.state).Ordered := by
    unfold DmaState.Ordered
    rw [finish_dma_memories, finish_current]
    exact h.ordered
  change Account.Inv ⟨(aes.dma_callback w (finish out c.state)).2,
    c.calls ++ dma_callback_calls (finish out c.state), c.destroyed⟩
  generalize finish out c.state = s at hw hlists hmapped ho
  obtain ⟨hsound₁, hlists₁⟩ := release_keeps h.sound hlists s.current_transfer.rx_buffer
  obtain ⟨hsound₂, hlists₂⟩ := release_keeps hsound₁ hlists₁ s.current_transfer.tx_buffer
  rw [release_calls_erase ho, List.append_assoc] at hsound₂ hlists₂
  have hw₁ := hw.release s.current_transfer.rx_buffer
  have hw₂ := hw₁.release s.current_transfer.tx_buffer
  refine .of_mapped hd (hw₂.congr rfl hw₂.mapped) ?_ hsound₂ ?_ fun p hp => ?_
  · -- the tx entry is gone
    apply ordered_of_no_tx
    have hcurrent : (aes.dma_callback w s).2.current_transfer = s.current_transfer := by
      unfold aes.dma_callback
      simp only [release_current]
    rw [dma_callback_dma_memories, hcurrent]
    apply ne_of_mem_erase
    rw [← release_dma_memories]
    exact hw₁.distinct
  · rw [dma_callback_dma_memories]
    exact hlists₂
  · have hp₁ : p ∈ (s.release s.current_transfer.rx_buffer).mapped := (mem_release.mp hp).1
    obtain ⟨n, hn⟩ := hmapped p (mem_release.mp hp₁).1
    have hkeep := mem_erase_of_mem_release hp (mem_erase_of_mem_release hp₁ ((hlists.exact _).mpr hn))
    refine ⟨n, (hlists₂.exact _).mp ?_⟩
    rw [← release_dma_memories s, ← release_dma_memories]
    exact hkeep

theorem Account.Inv.destroy {c : Account} (h : c.Inv) (hd : c.destroyed = false) :
    (memories.next c .destroy).Inv := by
  obtain ⟨hsound, hlive⟩ := h.sound.free_all (h.lists hd)
  exact ⟨h.well, h.ordered, hsound, fun hd' => absurd hd' (by simp [memories]),
    fun hd' => absurd hd' (by simp [memories]), fun _ => hlive⟩

theorem Account.Inv.next {c : Account} {op : MemoryOp} (h : c.Inv) (he : memories.Enabled c op) :
    (memories.next c op).Inv := by
  obtain ⟨hd, hop⟩ := he
  cases op with
  | do_transfer a r =>
    have hw := h.well.do_transfer (r := r) (h.fresh hd hop)
    rcases do_transfer_cases a r c.state with ⟨-, ht⟩ | ⟨-, hs⟩
    · exact h.throws hd hop ht hw
    · exact h.starts hd hop hs hw
  | dma_callback out w => exact h.dma_callback hd out w
  | destroy => exact h.destroy hd

/-! ## The law -/

/-- Each buffer is freed at most once and with its size, and once when the object is destroyed. -/
structure Account.Freed (c : Account) : Prop where
  kept : Kept c.calls
  all : c.destroyed = true → live c.calls = [] ∧ ∀ calls₁ p size calls₂,
    c.calls = calls₁ ++ .malloc p size :: calls₂ → frees p calls₂ = [size]

/-- A callback that finds both entries finds the tx entry first, so erasing by its iterators
leaves what erasing by address leaves. -/
structure Account.Erasable (c : Account) : Prop where
  ordered : c.state.Ordered
  erased : ∀ out w, (dma_callback w (finish out c.state)).2.dma_memories =
    erase_iterators c.state.dma_memories c.state.current_transfer.rx_buffer
      c.state.current_transfer.tx_buffer

theorem Account.Inv.erasable {c : Account} (h : c.Inv) : c.Erasable := by
  refine ⟨h.ordered, fun out w => ?_⟩
  rw [dma_callback_dma_memories, finish_dma_memories, finish_current,
    erase_iterators_eq h.ordered]

theorem Account.Inv.freed {c : Account} (h : c.Inv) : c.Freed := by
  refine ⟨h.sound.kept, fun hd => ⟨h.gone hd, ?_⟩⟩
  exact h.sound.kept.all (h.gone hd)

/-- In every state of every run, the list is the mapped buffers, each once with its size,
until the object is destroyed. Each buffer is freed once and with its size, and the callback
may erase by its iterators. -/
theorem memories_are_kept {c₀ c : Account} {tr : List (Account × MemoryOp)} (h₀ : c₀.Initial)
    (h : traces.Run memories (fun _ _ => True) c₀ tr c) :
    traces.Along (fun _ c => (c.destroyed = false → Lists c.state.dma_memories (live c.calls)) ∧
      c.Freed ∧ c.Erasable) tr c := by
  apply h.along
  intro tr c hr
  have hinv : c.Inv := hr.inv h₀.inv fun _ _ hi he _ => hi.next he
  exact ⟨hinv.lists, hinv.freed, hinv.erasable⟩

/-! ### A transfer and the end -/

def untold : Account := ⟨idle, [], false⟩

theorem untold_initial : untold.Initial := ⟨⟨rfl, rfl, rfl⟩, rfl, rfl, rfl⟩

/-- A transfer, a rejected request, one that gets no second buffer, the callback and the end. -/
def mixed : List MemoryOp :=
  [.do_transfer answers request,
    .do_transfer { answers with tx_malloc := 3, rx_malloc := 0 } request,
    .do_transfer { answers with tx_malloc := 3, rx_malloc := 0 } request,
    .dma_callback [] none, .destroy]

/-- The buffer that the callback no longer knows is freed by `destroy`. -/
theorem mixed_requests_keep_the_list :
    (memories.after untold mixed).calls =
        [.malloc 1 48, .malloc 2 32, .malloc 3 48, .free 3 48, .free 2 32, .free 1 48] ∧
      traces.Along (fun _ c => (c.destroyed = false →
          Lists c.state.dma_memories (live c.calls)) ∧ c.Freed ∧ c.Erasable)
        (memories.trace untold mixed) (memories.after untold mixed) :=
  ⟨by decide, memories_are_kept untold_initial
    (traces.System.run_of_enables (by decide) fun _ _ => trivial)⟩

/-- An engine is destroyed with a transfer in flight. Its list still names the freed buffers. -/
theorem destroy_leaves_the_list :
    traces.Run memories (fun _ _ => True) untold
        (memories.trace untold [.do_transfer answers request, .destroy])
        (memories.after untold [.do_transfer answers request, .destroy]) ∧
      (memories.after untold [.do_transfer answers request, .destroy]).state.dma_memories =
        [(48, 1), (32, 2)] ∧
      live (memories.after untold [.do_transfer answers request, .destroy]).calls = [] ∧
      ¬ Lists (memories.after untold [.do_transfer answers request, .destroy]).state.dma_memories
        (live (memories.after untold [.do_transfer answers request, .destroy]).calls) := by
  refine ⟨traces.System.run_of_enables (by decide) fun _ _ => trivial, by decide, by decide, ?_⟩
  intro h
  have hlisted : ((48, 1) : Size × Ptr) ∈ (memories.after untold
      [.do_transfer answers request, .destroy]).state.dma_memories := by decide
  exact absurd ((h.exact _).mp hlisted) (by decide)

end aes
