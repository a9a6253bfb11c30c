-- What a call that throws leaves behind. One catch block serves every throw
-- of `_do_transfer`. It takes the buffers of the call back, but it clears
-- `is_busy` whoever set it, and it restores neither the fields of
-- `current_transfer` nor the config register.
import AesMusicPlayer.Transfer

namespace aes

/-! ## The states that are reached -/

/-- The memories of a state are buffers of the driver, each listed once. -/
structure DmaState.WellFormed (s : DmaState) : Prop where
  nonzero : ∀ e ∈ s.dma_memories, e.2 ≠ 0
  mapped : ∀ e ∈ s.dma_memories, e.2 ∈ s.mapped
  distinct : (s.dma_memories.map Prod.snd).Nodup

/-- `axidma_malloc` fails, or gives a buffer that is not in use. -/
structure Answers.Fresh (a : Answers) (s : DmaState) : Prop where
  tx : a.tx_malloc = 0 ∨ a.tx_malloc ∉ s.mapped
  rx : a.rx_malloc = 0 ∨ a.rx_malloc ∉ a.tx_malloc :: s.mapped

/-- A state after `init`. -/
structure DmaState.Initial (s : DmaState) : Prop where
  is_busy : s.is_busy = false
  dma_memories : s.dma_memories = []
  in_flight : s.in_flight = none

inductive Reachable : DmaState → Prop
  | init {s : DmaState} : s.Initial → Reachable s
  | call {a : Answers} {r : Request} {s : DmaState} :
      Reachable s → a.Fresh s → Reachable (do_transfer a r s).2
  | callback {f : Flight} {out : Bytes} {w : StreamWrite} {s : DmaState} :
      Reachable s → s.in_flight = some f → Reachable (dma_callback w (complete f out s)).2

/-! ## The throws of a call -/

/-- Nothing is allocated before the throw. -/
def Answers.early (a : Answers) (r : Request) : Prop :=
  a.file_size = none ∨ r.too_small a.aligned = true ∨ a.tx_malloc = 0

theorem Answers.of_late {a : Answers} {r : Request} (h : ¬ a.early r) :
    ¬ a.file_size = none ∧ ¬ r.too_small a.aligned = true ∧ ¬ a.tx_malloc = 0 := by
  obtain ⟨hfile, hrest⟩ := not_or.mp h
  exact ⟨hfile, not_or.mp hrest⟩

/-- The throws of a call from `s`, and the state that each leaves. -/
inductive Throws (a : Answers) (r : Request) (s : DmaState) : DmaState → Prop
  | uninitialized : s.dev = false → Throws a r s s
  | busy : s.dev = true → s.is_busy = true → Throws a r s (s.cleanup 0 0)
  | early : s.dev = true → s.is_busy = false → a.early r → Throws a r s (s.cleanup 0 0)
  | no_rx_memory : s.dev = true → s.is_busy = false → ¬ a.early r → a.rx_malloc = 0 →
      Throws a r s ((s.store_tx (AES_KEY_WIDTH + a.aligned) a.tx_malloc).cleanup a.tx_malloc 0)
  | no_input : s.dev = true → s.is_busy = false → ¬ a.early r → a.rx_malloc ≠ 0 →
      a.input = none → Throws a r s ((with_buffers a s).cleanup a.tx_malloc a.rx_malloc)
  | not_started {content : Bytes} : s.dev = true → s.is_busy = false → ¬ a.early r →
      a.rx_malloc ≠ 0 → a.input = some content → a.twoway < 0 →
      Throws a r s ((ready_to_start a r content s).cleanup a.tx_malloc a.rx_malloc)

/-- The state of a call that starts its transfer. -/
inductive Starts (a : Answers) (r : Request) (s : DmaState) : DmaState → Prop
  | started {content : Bytes} : s.dev = true → s.is_busy = false → ¬ a.early r →
      a.rx_malloc ≠ 0 → a.input = some content → ¬ a.twoway < 0 →
      Starts a r s { ready_to_start a r content s with
        in_flight := some ⟨a.tx_malloc, AES_KEY_WIDTH + a.aligned, a.rx_malloc, a.aligned⟩ }

/-- Every call throws or starts a transfer. -/
theorem do_transfer_cases (a : Answers) (r : Request) (s : DmaState) :
    ((do_transfer a r s).1 ≠ none ∧ Throws a r s (do_transfer a r s).2) ∨
      ((do_transfer a r s).1 = none ∧ Starts a r s (do_transfer a r s).2) := by
  unfold do_transfer
  by_cases hdev : s.dev = false
  · rw [if_pos hdev]
    exact Or.inl ⟨by simp, .uninitialized hdev⟩
  rw [if_neg hdev]
  have hdev' : s.dev = true := by simpa using hdev
  unfold try_transfer
  cases hbusy : s.is_busy
  · by_cases hearly : a.early r
    · left
      rcases hearly with h | h | h
      · simp only [Bool.false_eq_true, if_false, h, if_true]
        exact ⟨by simp, .early hdev' hbusy (Or.inl h)⟩
      · by_cases h1 : a.file_size = none
        · simp only [Bool.false_eq_true, if_false, h1, if_true]
          exact ⟨by simp, .early hdev' hbusy (Or.inl h1)⟩
        · simp only [Bool.false_eq_true, if_false, h1, h, if_true]
          exact ⟨by simp, .early hdev' hbusy (Or.inr (Or.inl h))⟩
      · simp only [Bool.false_eq_true, if_false]
        split_ifs <;> exact ⟨by simp, .early hdev' hbusy (Or.inr (Or.inr h))⟩
    · have hnot := Answers.of_late hearly
      simp only [Bool.false_eq_true, if_false, hnot.1, hnot.2.1, hnot.2.2]
      by_cases hrx : a.rx_malloc = 0
      · rw [if_pos hrx]
        exact Or.inl ⟨by simp, .no_rx_memory hdev' hbusy hearly hrx⟩
      rw [if_neg hrx]
      cases hin : a.input with
      | none => exact Or.inl ⟨by simp, .no_input hdev' hbusy hearly hrx hin⟩
      | some content =>
        simp only
        by_cases hret : a.twoway < 0
        · rw [if_pos hret]
          exact Or.inl ⟨by simp, .not_started hdev' hbusy hearly hrx hin hret⟩
        · rw [if_neg hret]
          exact Or.inr ⟨rfl, .started hdev' hbusy hearly hrx hin hret⟩
  · simp only [if_true]
    exact Or.inl ⟨by simp, .busy hdev' hbusy⟩

/-- Every step of the call succeeds. -/
structure Answers.AllWell (a : Answers) (r : Request) (s : DmaState) : Prop where
  dev : s.dev = true
  idle : s.is_busy = false
  late : ¬ a.early r
  rx : a.rx_malloc ≠ 0
  input : a.input ≠ none
  twoway : ¬ a.twoway < 0

theorem Throws.not_allWell {a : Answers} {r : Request} {s s' : DmaState} (h : Throws a r s s') :
    ¬ a.AllWell r s := by
  intro hw
  cases h with
  | uninitialized hdev => rw [hw.dev] at hdev; cases hdev
  | busy _ hbusy => rw [hw.idle] at hbusy; cases hbusy
  | early _ _ hearly => exact hw.late hearly
  | no_rx_memory _ _ _ hrx => exact hw.rx hrx
  | no_input _ _ _ _ hin => exact hw.input hin
  | not_started _ _ _ _ _ hret => exact hw.twoway hret

theorem Starts.allWell {a : Answers} {r : Request} {s s' : DmaState} (h : Starts a r s s') :
    a.AllWell r s := by
  cases h with
  | started hdev hidle hlate hrx hin hret =>
    exact ⟨hdev, hidle, hlate, hrx, by rw [hin]; simp, hret⟩

/-- A call starts its transfer exactly when every step succeeds. -/
theorem starts_iff (a : Answers) (r : Request) (s : DmaState) :
    (do_transfer a r s).1 = none ↔ a.AllWell r s := by
  rcases do_transfer_cases a r s with ⟨hne, h⟩ | ⟨he, h⟩
  · exact ⟨fun he => absurd he hne, fun hw => absurd hw h.not_allWell⟩
  · exact ⟨fun _ => h.allWell, fun _ => he⟩

/-! ## The memories of a state -/

namespace DmaState

theorem filter_fresh {l : List (Size × Ptr)} {tx rx : Ptr}
    (h : ∀ e ∈ l, e.2 ≠ tx ∧ e.2 ≠ rx) :
    l.filter (fun e => !(e.2 == tx || e.2 == rx)) = l := by
  rw [List.filter_eq_self]
  intro e he
  simp [h e he]

/-- The catch block takes out what the call has put in. -/
theorem cleanup_restores {s s' : DmaState} {tx rx : Ptr} {new : List (Size × Ptr)}
    (hs : s'.dma_memories = s.dma_memories ++ new)
    (hnew : ∀ e ∈ new, e.2 = tx ∨ e.2 = rx) (hnil : tx = 0 → rx = 0 → new = [])
    (hold : ∀ e ∈ s.dma_memories, e.2 ≠ tx ∧ e.2 ≠ rx) :
    (s'.cleanup tx rx).dma_memories = s.dma_memories := by
  simp only [cleanup, hs]
  split_ifs with h
  · rw [List.filter_append, filter_fresh hold]
    have hgone : new.filter (fun e => !(e.2 == tx || e.2 == rx)) = [] := by
      rw [List.filter_eq_nil_iff]
      intro e he
      rcases hnew e he with h1 | h1 <;> simp [h1]
    rw [hgone, List.append_nil]
  · have h0 : rx = 0 ∧ tx = 0 := by simpa [not_or] using h
    rw [hnil h0.2 h0.1, List.append_nil]

/-- What the memories of `s` have to do with the buffers of a call. -/
theorem apart_of_fresh {a : Answers} {s : DmaState} (hw : s.WellFormed) (hf : a.Fresh s) :
    ∀ e ∈ s.dma_memories, e.2 ≠ a.tx_malloc ∧ e.2 ≠ a.rx_malloc := by
  intro e he
  constructor
  · intro heq
    rcases hf.tx with h0 | hn
    · exact hw.nonzero e he (heq.trans h0)
    · exact hn (heq ▸ hw.mapped e he)
  · intro heq
    rcases hf.rx with h0 | hn
    · exact hw.nonzero e he (heq.trans h0)
    · exact hn (heq ▸ List.mem_cons_of_mem _ (hw.mapped e he))

theorem cleanup_nothing (s : DmaState) : s.cleanup 0 0 = { s with is_busy := false } := by
  simp [cleanup]

end DmaState

/-- A call that throws leaves the memories as they were. -/
theorem Throws.dma_memories {a : Answers} {r : Request} {s s' : DmaState} (h : Throws a r s s')
    (hw : s.WellFormed) (hf : a.Fresh s) : s'.dma_memories = s.dma_memories := by
  have hapart := DmaState.apart_of_fresh hw hf
  cases h with
  | uninitialized _ => rfl
  | busy _ _ => rw [DmaState.cleanup_nothing]
  | early _ _ _ => rw [DmaState.cleanup_nothing]
  | no_rx_memory _ _ hearly hrx =>
    have htx : a.tx_malloc ≠ 0 := (Answers.of_late hearly).2.2
    refine DmaState.cleanup_restores rfl (by simp) (fun h0 => absurd h0 htx) ?_
    intro e he
    exact ⟨(hapart e he).1, hw.nonzero e he⟩
  | no_input _ _ hearly hrx _ =>
    refine DmaState.cleanup_restores (List.append_assoc _ _ _) ?_ (fun _ h0 => absurd h0 hrx) hapart
    intro e he
    simp only [List.mem_append, List.mem_singleton] at he
    rcases he with rfl | rfl <;> simp
  | not_started _ _ hearly hrx _ _ =>
    refine DmaState.cleanup_restores (List.append_assoc _ _ _) ?_ (fun _ h0 => absurd h0 hrx) hapart
    intro e he
    simp only [List.mem_append, List.mem_singleton] at he
    rcases he with rfl | rfl <;> simp

/-! ## The memories of a run -/

/-- Of distinct memories, the one that is erased is gone. -/
theorem ne_of_mem_erase {l : List (Size × Ptr)} {p : Ptr} (hl : (l.map Prod.snd).Nodup) :
    ∀ e ∈ erase_memory l p, e.2 ≠ p := by
  induction l with
  | nil => simp [erase_memory]
  | cons a l ih =>
    simp only [List.map_cons, List.nodup_cons, List.mem_map, not_exists, not_and] at hl
    intro e he
    by_cases ha : a.2 = p
    · rw [erase_memory, List.eraseP_cons_of_pos (by simp [ha])] at he
      rw [← ha]
      exact hl.1 e he
    · rw [erase_memory, List.eraseP_cons_of_neg (by simp [ha])] at he
      rcases List.mem_cons.mp he with rfl | he
      · exact ha
      · exact ih hl.2 e he

theorem DmaState.WellFormed.release {s : DmaState} (h : s.WellFormed) (p : Ptr) :
    (s.release p).WellFormed := by
  unfold DmaState.release
  split
  · refine ⟨?_, ?_, ?_⟩
    · intro e he
      exact h.nonzero e (List.mem_of_mem_eraseP he)
    · intro e he
      simp only [List.mem_filter, bne_iff_ne]
      exact ⟨h.mapped e (List.mem_of_mem_eraseP he), ne_of_mem_erase h.distinct e he⟩
    · exact h.distinct.sublist ((List.eraseP_sublist).map Prod.snd)
  · exact h

/-- The states have the same memories and buffers. -/
theorem DmaState.WellFormed.congr {s s' : DmaState} (h : s.WellFormed)
    (hd : s'.dma_memories = s.dma_memories) (hm : ∀ e ∈ s.dma_memories, e.2 ∈ s'.mapped) :
    s'.WellFormed :=
  ⟨fun e he => h.nonzero e (hd ▸ he), fun e he => hm e (hd ▸ he), by rw [hd]; exact h.distinct⟩

theorem Throws.mapped {a : Answers} {r : Request} {s s' : DmaState} (h : Throws a r s s')
    (hw : s.WellFormed) (hf : a.Fresh s) : ∀ e ∈ s.dma_memories, e.2 ∈ s'.mapped := by
  intro e he
  have hm := hw.mapped e he
  have h0 := hw.nonzero e he
  obtain ⟨h1, h2⟩ := DmaState.apart_of_fresh hw hf e he
  cases h with
  | uninitialized _ => exact hm
  | busy _ _ => rw [DmaState.cleanup_nothing]; exact hm
  | early _ _ _ => rw [DmaState.cleanup_nothing]; exact hm
  | no_rx_memory _ _ _ _ =>
    simp [DmaState.cleanup, DmaState.store_tx, hm, h1]
  | no_input _ _ _ _ _ =>
    simp [DmaState.cleanup, with_buffers, DmaState.store_tx, DmaState.store_rx,
      DmaState.set_config, hm, h1, h2]
  | not_started _ _ _ _ _ _ =>
    simp [DmaState.cleanup, ready_to_start, with_buffers, DmaState.store_tx, DmaState.store_rx,
      DmaState.set_config, DmaState.fill_tx, DmaState.setup, DmaState.stop, hm, h1, h2]

theorem Starts.wellFormed {a : Answers} {r : Request} {s s' : DmaState} (h : Starts a r s s')
    (hw : s.WellFormed) (hf : a.Fresh s) : s'.WellFormed := by
  have hapart := DmaState.apart_of_fresh hw hf
  cases h with
  | started _ _ hearly hrx _ _ =>
    have htx : a.tx_malloc ≠ 0 := (Answers.of_late hearly).2.2
    have hne : a.tx_malloc ≠ a.rx_malloc := by
      intro heq
      rcases hf.rx with h0 | hn
      · exact hrx h0
      · exact hn (heq ▸ List.mem_cons_self)
    refine ⟨?_, ?_, ?_⟩
    · intro e he
      simp only [ready_to_start, with_buffers, DmaState.store_tx, DmaState.store_rx,
        DmaState.set_config, DmaState.fill_tx, DmaState.setup, DmaState.stop, List.mem_append,
        List.mem_singleton] at he
      rcases he with (he | rfl) | rfl
      · exact hw.nonzero e he
      · exact htx
      · exact hrx
    · intro e he
      simp only [ready_to_start, with_buffers, DmaState.store_tx, DmaState.store_rx,
        DmaState.set_config, DmaState.fill_tx, DmaState.setup, DmaState.stop, List.mem_append,
        List.mem_singleton] at he ⊢
      rcases he with (he | rfl) | rfl
      · exact List.mem_cons_of_mem _ (List.mem_cons_of_mem _ (hw.mapped e he))
      · simp
      · simp
    · simp only [ready_to_start, with_buffers, DmaState.store_tx, DmaState.store_rx,
        DmaState.set_config, DmaState.fill_tx, DmaState.setup, DmaState.stop, List.map_append,
        List.map_cons, List.map_nil, List.append_assoc, List.singleton_append]
      rw [List.nodup_append]
      refine ⟨hw.distinct, by simp [hne], ?_⟩
      intro x hx y hy
      obtain ⟨e, he, rfl⟩ := List.mem_map.mp hx
      simp only [List.mem_cons, List.not_mem_nil, or_false] at hy
      rcases hy with rfl | rfl
      · exact (hapart e he).1
      · exact (hapart e he).2

theorem DmaState.WellFormed.do_transfer {a : Answers} {r : Request} {s : DmaState}
    (h : s.WellFormed) (hf : a.Fresh s) : (do_transfer a r s).2.WellFormed := by
  rcases do_transfer_cases a r s with ⟨-, ht⟩ | ⟨-, hs⟩
  · exact h.congr (ht.dma_memories h hf) (ht.mapped h hf)
  · exact hs.wellFormed h hf

theorem DmaState.WellFormed.callback {s : DmaState} (h : s.WellFormed) (w : StreamWrite)
    (f : Flight) (out : Bytes) : (dma_callback w (complete f out s)).2.WellFormed := by
  have hc : (complete f out s).WellFormed := h.congr rfl h.mapped
  exact ((hc.release _).release _).congr rfl ((hc.release _).release _).mapped

/-- Every state that is reached is well formed. -/
theorem Reachable.wellFormed {s : DmaState} (h : Reachable s) : s.WellFormed := by
  induction h with
  | init hi => refine ⟨?_, ?_, ?_⟩ <;> simp [hi.dma_memories]
  | call _ hf ih => exact ih.do_transfer hf
  | callback _ _ ih => exact ih.callback _ _ _

/-! ## The law -/

/-- What a call that throws should leave as it was. -/
structure Unchanged (s s' : DmaState) : Prop where
  is_busy : s'.is_busy = s.is_busy
  dma_memories : s'.dma_memories = s.dma_memories
  current_transfer : s.in_flight ≠ none → s'.current_transfer = s.current_transfer
  config : s'.config = s.config

/-- No transfer is in flight, or its record is `t` anyway. -/
def DmaState.MayStore (s : DmaState) (t : CurrentTransfer) : Prop :=
  s.in_flight = none ∨ s.current_transfer = t

/-- The calls whose throw changes nothing. The engine must be idle. A throw
after an allocation must find no transfer in flight, and one after a write of
the config register must find the written value there. -/
def KeepsState (a : Answers) (r : Request) (s : DmaState) : Prop :=
  s.dev = false ∨ s.is_busy = false ∧
    (a.early r ∨
      if a.rx_malloc = 0 then s.MayStore { s.current_transfer with tx_buffer := a.tx_malloc }
      else if a.input = none then
        s.config = 0xFFFFFFFF ∧ s.MayStore { s.current_transfer with
          tx_buffer := a.tx_malloc, rx_buffer := a.rx_malloc }
      else
        s.config = 0 ∧ s.MayStore ⟨a.tx_malloc, a.rx_malloc, r.output_path, r.output_buffer,
          r.output_buffer_size, r.callback, r.callback_param⟩)

/-- `MayStore` is what the record of a transfer in flight needs. -/
theorem mayStore_iff {s : DmaState} {t : CurrentTransfer} :
    s.MayStore t ↔ (s.in_flight ≠ none → t = s.current_transfer) := by
  unfold DmaState.MayStore
  rw [← or_iff_not_imp_left, @eq_comm _ t]

theorem Throws.unchanged_iff {a : Answers} {r : Request} {s s' : DmaState} (h : Throws a r s s')
    (hw : s.WellFormed) (hf : a.Fresh s) : Unchanged s s' ↔ KeepsState a r s := by
  have hmem := h.dma_memories hw hf
  unfold KeepsState
  cases h with
  | uninitialized hdev => exact ⟨fun _ => Or.inl hdev, fun _ => ⟨rfl, rfl, fun _ => rfl, rfl⟩⟩
  | busy hdev hbusy =>
    constructor
    · intro hu
      have := hu.is_busy
      rw [DmaState.cleanup_nothing, hbusy] at this
      cases this
    · rintro (h0 | ⟨h0, -⟩)
      · rw [hdev] at h0; cases h0
      · rw [hbusy] at h0; cases h0
  | early hdev hidle hearly =>
    refine ⟨fun _ => Or.inr ⟨hidle, Or.inl hearly⟩, fun _ => ?_⟩
    rw [DmaState.cleanup_nothing]
    exact ⟨hidle.symm, rfl, fun _ => rfl, rfl⟩
  | no_rx_memory hdev hidle hearly hrx =>
    simp only [hdev, hidle, hearly, hrx, if_true, false_or, true_and, Bool.true_eq_false]
    rw [mayStore_iff]
    exact ⟨fun hu => hu.current_transfer, fun ht => ⟨hidle.symm, hmem, ht, rfl⟩⟩
  | no_input hdev hidle hearly hrx hin =>
    simp only [hdev, hidle, hearly, hrx, hin, if_true, if_false, false_or, true_and,
      Bool.true_eq_false]
    rw [mayStore_iff]
    exact ⟨fun hu => ⟨hu.config.symm, hu.current_transfer⟩,
      fun ht => ⟨hidle.symm, hmem, ht.2, ht.1.symm⟩⟩
  | not_started hdev hidle hearly hrx hin hret =>
    simp only [hdev, hidle, hearly, hrx, hin, if_false, false_or, true_and, Bool.true_eq_false,
      reduceCtorEq]
    rw [mayStore_iff]
    exact ⟨fun hu => ⟨hu.config.symm, hu.current_transfer⟩,
      fun ht => ⟨hidle.symm, hmem, ht.2, ht.1.symm⟩⟩

/-- In every state that is reached, a call that throws leaves the state as it
was exactly when `KeepsState` says so. -/
theorem a_throw_changes_nothing_iff (a : Answers) (r : Request) (s : DmaState) (t : Thrown)
    (hs : Reachable s) (hf : a.Fresh s) (ht : (do_transfer a r s).1 = some t) :
    Unchanged s (do_transfer a r s).2 ↔ KeepsState a r s := by
  rcases do_transfer_cases a r s with ⟨-, h⟩ | ⟨hnone, -⟩
  · exact h.unchanged_iff hs.wellFormed hf
  · rw [ht] at hnone; cases hnone

/-! ### A request while the engine is busy -/

/-- An engine after `init`. -/
def idle : DmaState where
  dev := true
  is_busy := false
  dma_memories := []
  current_transfer := ⟨0, 0, "", 0, 0, 0, 0⟩
  config := 0
  mapped := []
  memory := fun _ => []
  in_flight := none

theorem idle_reachable : Reachable idle := .init ⟨rfl, rfl, rfl⟩

/-- A file of 20 bytes, to be written to `out`. -/
def request : Request := ⟨⟨List.replicate 16 0, rfl⟩, "in", "out", 0, 0, 1, 2⟩

def answers : Answers := ⟨some 20, 1, 2, some (List.replicate 20 7), 0⟩

theorem answers_fresh : answers.Fresh idle := by
  refine ⟨Or.inr ?_, Or.inr ?_⟩ <;> simp [answers, idle]

/-- An engine with a transfer in flight. -/
def transferring : DmaState := (do_transfer answers request idle).2

theorem transferring_reachable : Reachable transferring := .call idle_reachable answers_fresh

/-- The memory of a second transfer. -/
def later_answers : Answers := { answers with tx_malloc := 3, rx_malloc := 4 }

/-- A second request was rejected, and the transfer is still in flight. -/
def rejected : DmaState := (do_transfer later_answers request transferring).2

theorem rejected_reachable : Reachable rejected :=
  .call transferring_reachable ⟨Or.inr (by decide), Or.inr (by decide)⟩

/-- A third request gets memory for its input and none for its output. Its input is in the record of
the transfer in flight. -/
theorem a_failed_allocation_in_flight_changes_nothing_iff : rejected.in_flight ≠ none ∧
    (do_transfer { later_answers with rx_malloc := 0 } request rejected).2.current_transfer ≠
      rejected.current_transfer ∧
    (Unchanged rejected (do_transfer { later_answers with rx_malloc := 0 } request rejected).2 ↔
      KeepsState { later_answers with rx_malloc := 0 } request rejected) :=
  ⟨by decide, by decide, a_throw_changes_nothing_iff _ _ _ .no_memory rejected_reachable
    ⟨Or.inr (by decide), Or.inl rfl⟩ (by decide)⟩

/-- A second request is rejected, and the engine is no longer marked busy. -/
theorem a_rejected_request_clears_busy :
    Reachable transferring ∧ transferring.in_flight ≠ none ∧ transferring.is_busy = true ∧
      (do_transfer answers request transferring).1 = some .busy ∧
      (do_transfer answers request transferring).2.is_busy = false ∧
      ¬ Unchanged transferring (do_transfer answers request transferring).2 := by
  refine ⟨transferring_reachable, by decide, by decide, by decide, by decide, ?_⟩
  intro h
  exact absurd h.is_busy (by decide)

end aes
