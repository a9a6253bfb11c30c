-- The steps of one thread, when no other thread comes between them. A call and
-- a callback that find the mutex free then do what `do_transfer` and
-- `dma_callback` say. Only the bytes of a buffer that is freed may differ.
import AesMusicPlayer.TransferSteps

open owned_mutex traces

namespace aes

/-! ## A thread alone -/

/-- The thread takes its steps, each answered by `x`, and no other thread does. -/
def Alone (t : Thread) (x : Outside) (s s' : Threads) : Prop :=
  ∃ tr, traces.Run threads (fun _ a => a = .step t x) s tr s'

/-- The shared state is that of `d`. -/
structure Threads.Is (s : Threads) (d : DmaState) : Prop where
  dma : s.dma = d.toDmaRecord
  in_flight : s.in_flight = d.in_flight.toList

/-- The same, but for the bytes of the buffers that are freed. -/
structure Threads.Shows (s : Threads) (d : DmaState) : Prop where
  record : ∃ m, s.dma = { d.toDmaRecord with memory := m } ∧ ∀ p ∈ d.mapped, m p = d.memory p
  in_flight : s.in_flight = d.in_flight.toList

/-- The thread, alone, comes to its end, with the mutex free and the state of `d`. -/
def Ends (t : Thread) (x : Outside) (s : Threads) (d : DmaState) (events : List Event) : Prop :=
  ∃ s', Alone t x s s' ∧ s'.pc t = .outside ∧ s'.owner = none ∧ s'.Shows d ∧
    s'.log = s.log ++ events

section Alone

variable {t : Thread} {x : Outside} {s : Threads} {d : DmaState} {events : List Event}

@[simp] theorem Threads.goto_dma (p : Pc) : (s.goto t p).dma = s.dma := rfl

@[simp] theorem Threads.goto_goto (p p' : Pc) : (s.goto t p).goto t p' = s.goto t p' := by
  unfold Threads.goto
  rw [Function.update_idem]

theorem Ends.here (hp : s.pc t = .outside) (ho : s.owner = none) (hs : s.Shows d) :
    Ends t x s d [] := ⟨s, ⟨[], .start⟩, hp, ho, hs, (List.append_nil _).symm⟩

theorem Ends.step {e : List Event} (he : s.Enabled (.step t x))
    (hlog : (s.step t x).log = s.log ++ e) (h : Ends t x (s.step t x) d events) :
    Ends t x s d (e ++ events) := by
  obtain ⟨s', ⟨tr, hrun⟩, hp, ho, hs, hl⟩ := h
  have hfirst : traces.Run threads (fun _ a => a = .step t x) s ([] ++ [(s, .step t x)])
      (s.step t x) := .step _ .start he rfl
  exact ⟨s', ⟨_, hfirst.append hrun⟩, hp, ho, hs, by rw [hl, hlog, List.append_assoc]⟩

theorem step_goto_call (l : CallStep) (c : Call) :
    (s.goto t (.call l c)).step t x = call_step t x c (s.goto t (.call l c)) l :=
  step_call x (Function.update_self ..)

/-- A step of a call. -/
theorem Ends.call {l : CallStep} {c : Call} {e : List Event} (hr : s.Ready x (.call l c))
    (hlog : (call_step t x c (s.goto t (.call l c)) l).log = s.log ++ e)
    (h : Ends t x (call_step t x c (s.goto t (.call l c)) l) d events) :
    Ends t x (s.goto t (.call l c)) d (e ++ events) := by
  have he : (s.goto t (.call l c)).Enabled (.step t x) := by
    change Threads.Ready x _ (Function.update s.pc t _ t)
    rw [Function.update_self]
    exact hr
  refine .step he ?_ ?_
  · rw [step_goto_call]
    exact hlog
  · rw [step_goto_call]
    exact h

section Ready

variable {c : Call}

theorem ready_lock (ho : s.owner = none) : s.Ready x (.call .lock c) :=
  ⟨by rintro ⟨⟩, fun _ => ho, by rintro ⟨⟩, by rintro ⟨⟩⟩

theorem ready_malloc_tx (h : x.tx_malloc = 0 ∨ x.tx_malloc ∉ s.dma.mapped) :
    s.Ready x (.call .malloc_tx c) :=
  ⟨by rintro ⟨⟩, by rintro ⟨⟩, fun _ => h, by rintro ⟨⟩⟩

theorem ready_malloc_rx (h : x.rx_malloc = 0 ∨ x.rx_malloc ∉ s.dma.mapped) :
    s.Ready x (.call .malloc_rx c) :=
  ⟨by rintro ⟨⟩, by rintro ⟨⟩, by rintro ⟨⟩, fun _ => h⟩

theorem ready_start : s.Ready x (.call .start c) :=
  ⟨by rintro ⟨⟩, by rintro ⟨⟩, by rintro ⟨⟩, by rintro ⟨⟩⟩

end Ready

/-- A step of a call that neither locks, allocates nor starts the transfer. -/
def CallStep.plain : CallStep → Bool
  | .lock | .malloc_tx | .malloc_rx | .start => false
  | _ => true

theorem Ends.plain {l : CallStep} {c : Call} (hl : l.plain = true)
    (h : Ends t x (call_step t x c (s.goto t (.call l c)) l) d events) :
    Ends t x (s.goto t (.call l c)) d events := by
  refine .call (e := []) ⟨by rintro ⟨⟩, ?_, ?_, ?_⟩ ?_ h
  · intro hop
    cases l <;> first | exact absurd hl Bool.false_ne_true | cases hop
  · intro hat
    cases l <;> first | exact absurd hl Bool.false_ne_true | cases hat
  · intro hat
    cases l <;> first | exact absurd hl Bool.false_ne_true | cases hat
  · rw [List.append_nil]
    cases l <;> simp only [call_step] <;> (try split_ifs) <;> first | rfl | cases hl

/-! ## The catch block -/

/-- The two frees of the catch block. -/
theorem filter_freed (tx rx : Ptr) (l : List Ptr) :
    (l.filter fun p => !((tx != 0 && p == tx) || (rx != 0 && p == rx))) =
      if rx ≠ 0 then (if tx ≠ 0 then l.filter (· != tx) else l).filter (· != rx)
      else if tx ≠ 0 then l.filter (· != tx) else l := by
  have hne : ∀ {q : Ptr}, q ≠ 0 → (q != 0) = true := bne_iff_ne.mpr
  have h0 : ((0 : Ptr) != 0) = false := rfl
  split_ifs with hrx htx htx
  · rw [List.filter_filter]
    simp only [hne hrx, hne htx, Bool.true_and, Bool.not_or]
    exact List.filter_congr fun p _ => Bool.and_comm ..
  · simp only [not_not.mp htx, h0, hne hrx, Bool.false_and, Bool.true_and, Bool.false_or]
    rfl
  · simp only [not_not.mp hrx, h0, hne htx, Bool.false_and, Bool.true_and, Bool.or_false]
    rfl
  · simp only [not_not.mp hrx, not_not.mp htx, h0, Bool.false_and, Bool.or_false, Bool.not_false,
      List.filter_true]

theorem catch_ends {c : Call} {late : Bool} {m : Ptr → Bytes}
    (hdma : s.dma = { d.toDmaRecord with memory := m })
    (hm : ∀ p ∈ (d.cleanup c.tx_buff c.rx_buff).mapped, m p = d.memory p)
    (hfl : s.in_flight = d.in_flight.toList) :
    Ends t x (s.throw t c late) (d.cleanup c.tx_buff c.rx_buff) [] := by
  unfold Threads.throw
  iterate 5
    apply Ends.plain rfl
    simp only [call_step]
  refine .here (Function.update_self ..) rfl ⟨⟨m, ?_, hm⟩, ?_⟩
  · simp only [DmaState.cleanup, filter_freed]
    split_ifs <;> simp_all [Threads.goto, Threads.on, DmaRecord.free]
  · split_ifs <;> exact hfl

/-! ## `_do_transfer` -/

variable {r : Request}

/-- The local variables of a call that holds both buffers. -/
def Answers.call (a : Answers) (r : Request) : Call :=
  ⟨r, a.aligned, a.tx_malloc, a.rx_malloc, false⟩

theorem start_fails {content : Bytes} (hs : s.Is (ready_to_start x.toAnswers r content d))
    (hret : x.twoway < 0) : Ends t x (s.goto t (.call .start (x.toAnswers.call r)))
      ((ready_to_start x.toAnswers r content d).cleanup x.tx_malloc x.rx_malloc) [] := by
  have hstep : call_step t x (x.toAnswers.call r) (s.goto t (.call .start (x.toAnswers.call r)))
      .start = (s.goto t (.call .start (x.toAnswers.call r))).throw t (x.toAnswers.call r) true :=
    if_pos hret
  refine .call (e := []) ready_start ?_ ?_
  · rw [hstep, List.append_nil]
    rfl
  · rw [hstep]
    exact catch_ends hs.dma (fun _ _ => rfl) hs.in_flight

theorem start_succeeds {content : Bytes} (hs : s.Is (ready_to_start x.toAnswers r content d))
    (hret : ¬ x.twoway < 0) : Ends t x (s.goto t (.call .start (x.toAnswers.call r)))
      { ready_to_start x.toAnswers r content d with
        in_flight := some (x.toAnswers.call r).flight }
      [.started r (x.toAnswers.call r).flight] := by
  change Ends t x _ _ ([.started r (x.toAnswers.call r).flight] ++ [])
  refine .call ready_start ?_ ?_
  · simp only [call_step, if_neg hret]
    rfl
  · simp only [call_step, if_neg hret]
    apply Ends.plain rfl
    simp only [call_step]
    refine .here (Function.update_self ..) rfl ⟨⟨_, hs.dma, fun _ _ => rfl⟩, ?_⟩
    change s.in_flight ++ _ = _
    rw [hs.in_flight]
    rfl

/-- The two copies into the transmit buffer, of the key and of the input. -/
theorem copies (key : Key) (content : Bytes) (aligned : Size) (m : Bytes) :
    (key.val ++ m.drop 16).take 16 ++ DmaState.padded content aligned =
      DmaState.tx_contents key content aligned := by
  unfold DmaState.tx_contents
  rw [List.take_left' key.property]

/-- The key is in the transmit buffer. -/
def Answers.keyed (a : Answers) (r : Request) (d : DmaState) : DmaState :=
  { with_buffers a d with
    memory := Function.update d.memory a.tx_malloc
      (r.key.val ++ (d.memory a.tx_malloc).drop 16) }

/-- From the call to the test of `is_busy`. -/
theorem locks {d' : DmaState} (hs : s.Is d) (ho : s.owner = none) (hdev : d.dev = true)
    (h : ∀ s' : Threads, s'.Is d →
      Ends t x (s'.goto t (.call .test_busy (.ofRequest r))) d' events) :
    Ends t x (s.goto t (.call .check_dev (.ofRequest r))) d' events := by
  have hdev' : s.dma.dev = true := by rw [hs.dma, hdev]
  apply Ends.plain rfl
  simp only [call_step, Threads.goto_dma, hdev', if_true, Threads.goto_goto]
  refine .call (e := []) (ready_lock ho) (List.append_nil _).symm ?_
  simp only [call_step]
  exact h _ ⟨hs.dma, hs.in_flight⟩

/-- The call is let in. -/
theorem not_busy {d' : DmaState} (hs : s.Is d) (hidle : d.is_busy = false)
    (h : ∀ s' : Threads, s'.Is d →
      Ends t x (s'.goto t (.call .get_file_size (.ofRequest r))) d' events) :
    Ends t x (s.goto t (.call .test_busy (.ofRequest r))) d' events := by
  have hidle' : ¬ s.dma.is_busy = true := by simp [hs.dma, hidle]
  apply Ends.plain rfl
  simp only [call_step, Threads.goto_dma, hidle']
  exact h _ ⟨hs.dma, hs.in_flight⟩

/-- From the file size to the first allocation. -/
theorem fits {d' : DmaState} (hs : s.Is d) (hsize : ¬ x.file_size = none)
    (hfits : ¬ r.too_small x.aligned = true)
    (h : ∀ s' : Threads, s'.Is d →
      Ends t x (s'.goto t (.call .malloc_tx ⟨r, x.aligned, 0, 0, false⟩)) d' events) :
    Ends t x (s.goto t (.call .get_file_size (.ofRequest r))) d' events := by
  have hnot : ¬ (x.file_size = none ∨ (Call.ofRequest r).request.too_small x.aligned = true) :=
    not_or.mpr ⟨hsize, hfits⟩
  apply Ends.plain rfl
  simp only [call_step, if_neg hnot]
  exact h _ ⟨hs.dma, hs.in_flight⟩

/-- The first allocation and its entries. -/
theorem allocates_tx {d' : DmaState} (hs : s.Is d) (htx : x.tx_malloc ≠ 0)
    (hfresh : x.tx_malloc ∉ d.mapped)
    (h : ∀ s' : Threads, s'.Is (d.store_tx (AES_KEY_WIDTH + x.aligned) x.tx_malloc) →
      Ends t x (s'.goto t (.call .malloc_rx ⟨r, x.aligned, x.tx_malloc, 0, false⟩)) d' events) :
    Ends t x (s.goto t (.call .malloc_tx ⟨r, x.aligned, 0, 0, false⟩)) d' events := by
  have hnew : x.tx_malloc ∉ s.dma.mapped := by rw [hs.dma]; exact hfresh
  refine .call (e := []) (ready_malloc_tx (.inr hnew)) ?_ ?_
  · simp only [call_step, if_neg htx, List.append_nil]
    rfl
  · simp only [call_step, if_neg htx]
    apply Ends.plain rfl
    simp only [call_step]
    apply Ends.plain rfl
    simp only [call_step]
    refine h _ ⟨?_, hs.in_flight⟩
    change DmaRecord.push _ _ (DmaRecord.assign _ (DmaRecord.map x.tx_malloc s.dma)) = _
    rw [hs.dma]
    rfl

/-- The second allocation, to the open of the input file. -/
theorem allocates_rx {d' : DmaState}
    (hs : s.Is (d.store_tx (AES_KEY_WIDTH + x.aligned) x.tx_malloc)) (hrx : x.rx_malloc ≠ 0)
    (hfresh : x.rx_malloc ∉ x.tx_malloc :: d.mapped)
    (h : ∀ s' : Threads, s'.Is (x.keyed r d) →
      Ends t x (s'.goto t (.call .open_input (x.toAnswers.call r))) d' events) :
    Ends t x (s.goto t (.call .malloc_rx ⟨r, x.aligned, x.tx_malloc, 0, false⟩)) d' events := by
  have hnew : x.rx_malloc ∉ s.dma.mapped := by rw [hs.dma]; exact hfresh
  refine .call (e := []) (ready_malloc_rx (.inr hnew)) ?_ ?_
  · simp only [call_step, if_neg hrx, List.append_nil]
    rfl
  · simp only [call_step, if_neg hrx]
    iterate 4
      apply Ends.plain rfl
      simp only [call_step]
    refine h _ ⟨?_, hs.in_flight⟩
    change { DmaRecord.write x.tx_malloc (r.key.val ++ ·.drop 16) (DmaRecord.push _ _
      (DmaRecord.assign _ (DmaRecord.map x.rx_malloc s.dma))) with config := 0xFFFFFFFF } = _
    rw [hs.dma]
    rfl

/-- From the open input file to the start. -/
theorem input_opens {d' : DmaState} {content : Bytes} (hin : x.input = some content)
    (hs : s.Is (x.keyed r d))
    (h : ∀ s' : Threads, s'.Is (ready_to_start x.toAnswers r content d) →
      Ends t x (s'.goto t (.call .start (x.toAnswers.call r))) d' events) :
    Ends t x (s.goto t (.call .open_input (x.toAnswers.call r))) d' events := by
  have hnot : ¬ x.input = none := by simp [hin]
  apply Ends.plain rfl
  simp only [call_step, if_neg hnot]
  iterate 12
    apply Ends.plain rfl
    simp only [call_step]
  refine h _ ⟨?_, rfl⟩
  change { s.dma with
    is_busy := true
    config := 0
    memory := Function.update s.dma.memory x.tx_malloc ((s.dma.memory x.tx_malloc).take 16 ++
      DmaState.padded (x.input.getD []) x.aligned)
    current_transfer := { s.dma.current_transfer with
      output_file_path := r.output_path
      output_buffer := r.output_buffer
      output_buffer_size := r.output_buffer_size
      user_callback := r.callback
      callback_param := r.callback_param } } = _
  rw [hs.dma, hin]
  simp only [Answers.keyed, Function.update_self, Function.update_idem, Option.getD_some, copies]
  rfl

/-- From the call to the second allocation. -/
theorem comes_to_malloc_rx {d' : DmaState} (hs : s.Is d) (ho : s.owner = none)
    (hdev : d.dev = true) (hidle : d.is_busy = false) (hlate : ¬ x.early r) (hfresh : x.Fresh d)
    (h : ∀ s' : Threads, s'.Is (d.store_tx (AES_KEY_WIDTH + x.aligned) x.tx_malloc) →
      Ends t x (s'.goto t (.call .malloc_rx ⟨r, x.aligned, x.tx_malloc, 0, false⟩)) d' events) :
    Ends t x (s.next (.call t r)) d' events := by
  obtain ⟨hsize, hfits, htx⟩ := Answers.of_late hlate
  refine locks hs ho hdev fun s₁ hs₁ => not_busy hs₁ hidle fun s₂ hs₂ => ?_
  refine fits hs₂ hsize hfits fun s₃ hs₃ => ?_
  exact allocates_tx hs₃ htx (hfresh.tx.resolve_left htx) h

/-- A call that throws, alone. -/
theorem throw_ends {d' : DmaState} (hs : s.Is d) (ho : s.owner = none) (hfresh : x.Fresh d)
    (h : Throws x.toAnswers r d d') : Ends t x (s.next (.call t r)) d' [] := by
  cases h with
  | uninitialized hdev =>
    have hdev' : ¬ s.dma.dev = true := by simp [hs.dma, hdev]
    apply Ends.plain rfl
    simp only [call_step, Threads.goto_dma, hdev']
    exact .here (Function.update_self ..) ho ⟨⟨_, hs.dma, fun _ _ => rfl⟩, hs.in_flight⟩
  | busy hdev hbusy =>
    refine locks hs ho hdev fun s₁ hs₁ => ?_
    have hbusy' : s₁.dma.is_busy = true := by rw [hs₁.dma, hbusy]
    apply Ends.plain rfl
    simp only [call_step, Threads.goto_dma, hbusy', if_true]
    exact catch_ends hs₁.dma (fun _ _ => rfl) hs₁.in_flight
  | early hdev hidle hearly =>
    refine locks hs ho hdev fun s₁ hs₁ => not_busy hs₁ hidle fun s₂ hs₂ => ?_
    by_cases hbad : x.file_size = none ∨ (Call.ofRequest r).request.too_small x.aligned = true
    · apply Ends.plain rfl
      simp only [call_step, if_pos hbad]
      exact catch_ends hs₂.dma (fun _ _ => rfl) hs₂.in_flight
    · obtain ⟨hsize, hfits⟩ := not_or.mp hbad
      have htx : x.tx_malloc = 0 := (hearly.resolve_left hsize).resolve_left hfits
      refine fits hs₂ hsize hfits fun s₃ hs₃ => ?_
      refine .call (e := []) (ready_malloc_tx (.inl htx)) ?_ ?_
      · simp only [call_step, if_pos htx, List.append_nil]
        rfl
      · simp only [call_step, if_pos htx]
        exact catch_ends hs₃.dma (fun _ _ => rfl) hs₃.in_flight
  | no_rx_memory hdev hidle hlate hrx =>
    refine comes_to_malloc_rx hs ho hdev hidle hlate hfresh fun s₁ hs₁ => ?_
    refine .call (e := []) (ready_malloc_rx (.inl hrx)) ?_ ?_
    · simp only [call_step, if_pos hrx, List.append_nil]
      rfl
    · simp only [call_step, if_pos hrx]
      exact catch_ends hs₁.dma (fun _ _ => rfl) hs₁.in_flight
  | no_input hdev hidle hlate hrx hin =>
    refine comes_to_malloc_rx hs ho hdev hidle hlate hfresh fun s₁ hs₁ => ?_
    refine allocates_rx hs₁ hrx (hfresh.rx.resolve_left hrx) fun s₂ hs₂ => ?_
    apply Ends.plain rfl
    simp only [call_step, if_pos hin]
    refine catch_ends hs₂.dma (fun p hp => Function.update_of_ne ?_ ..) hs₂.in_flight
    -- the transmit buffer, with the key in it, is freed
    rintro rfl
    have htx : x.tx_malloc ≠ 0 := (Answers.of_late hlate).2.2
    have hkept := (List.mem_filter.mp hp).2
    simp [Answers.call, htx] at hkept
  | not_started hdev hidle hlate hrx hin hret =>
    refine comes_to_malloc_rx hs ho hdev hidle hlate hfresh fun s₁ hs₁ => ?_
    refine allocates_rx hs₁ hrx (hfresh.rx.resolve_left hrx) fun s₂ hs₂ => ?_
    exact input_opens hin hs₂ fun s₃ hs₃ => start_fails hs₃ hret

/-- A call that starts its transfer, alone. -/
theorem start_ends {d' : DmaState} (hs : s.Is d) (ho : s.owner = none) (hfresh : x.Fresh d)
    (h : Starts x.toAnswers r d d') :
    Ends t x (s.next (.call t r)) d' [.started r (x.toAnswers.call r).flight] := by
  cases h with
  | started hdev hidle hlate hrx hin hret =>
    refine comes_to_malloc_rx hs ho hdev hidle hlate hfresh fun s₁ hs₁ => ?_
    refine allocates_rx hs₁ hrx (hfresh.rx.resolve_left hrx) fun s₂ hs₂ => ?_
    exact input_opens hin hs₂ fun s₃ hs₃ => start_succeeds hs₃ hret

/-- A call that runs alone does what `do_transfer` says. -/
theorem a_call_alone_is_do_transfer (hs : s.Is d) (ho : s.owner = none) (hfresh : x.Fresh d) :
    Ends t x (s.next (.call t r)) (do_transfer x.toAnswers r d).2
      (if (do_transfer x.toAnswers r d).1 = none then
        [.started r (x.toAnswers.call r).flight] else []) := by
  rcases do_transfer_cases x.toAnswers r d with ⟨hthrown, h⟩ | ⟨hnone, h⟩
  · rw [if_neg hthrown]
    exact throw_ends hs ho hfresh h
  · rw [if_pos hnone]
    exact start_ends hs ho hfresh h

/-! ## `_dma_callback` -/

/-- The events that a delivery stands for. -/
def Delivery.said (v : Delivery) : List Event :=
  (v.file.map fun f => Event.written f.1 f.2).toList ++
    (v.buffer.map fun b => Event.copied b.1 b.2).toList ++
    (v.invoked.map fun i => Event.invoked i.1 i.2.1 i.2.2).toList

/-- A step of a callback. -/
theorem Ends.callback {l : CallbackStep} {b : Callback} {e : List Event}
    (hfree : l = .lock → s.owner = none)
    (hlog : (callback_step t x b (s.goto t (.callback l b)) l).log = s.log ++ e)
    (h : Ends t x (callback_step t x b (s.goto t (.callback l b)) l) d events) :
    Ends t x (s.goto t (.callback l b)) d (e ++ events) := by
  have hpc : (s.goto t (.callback l b)).pc t = .callback l b := Function.update_self ..
  have hlock : (Pc.callback l b).op = some .lock → l = .lock := by
    intro hop
    cases l <;> first | rfl | cases hop
  have he : (s.goto t (.callback l b)).Enabled (.step t x) := by
    change Threads.Ready x _ (Function.update s.pc t _ t)
    rw [Function.update_self]
    exact ⟨by rintro ⟨⟩, fun hop => hfree (hlock hop), by rintro ⟨⟩, by rintro ⟨⟩⟩
  refine .step he ?_ ?_
  · rw [step_callback x hpc]
    exact hlog
  · rw [step_callback x hpc]
    exact h

/-- A step of a callback that neither locks nor says anything. -/
def CallbackStep.silent : CallbackStep → Bool
  | .lock | .write_file | .copy_buffer | .invoke => false
  | _ => true

theorem Ends.silent {l : CallbackStep} {b : Callback} (hl : l.silent = true)
    (h : Ends t x (callback_step t x b (s.goto t (.callback l b)) l) d events) :
    Ends t x (s.goto t (.callback l b)) d events := by
  refine .callback (e := []) ?_ ?_ h
  · rintro rfl
    cases hl
  · rw [List.append_nil]
    cases l <;> simp only [callback_step] <;> (try split_ifs) <;> first | rfl | cases hl

variable {fl : Flight}

/-- What a callback has found. -/
def Flight.found (fl : Flight) : Callback :=
  ⟨⟨1, fl.rx_size, fl.rx_buffer⟩, ⟨0, fl.tx_size, fl.tx_buffer⟩⟩

/-- Both buffers are found and freed. -/
theorem Recorded.released (hd : Recorded d.toDmaRecord r fl) :
    (d.release d.current_transfer.rx_buffer).release d.current_transfer.tx_buffer =
      { d with
        mapped := (d.mapped.filter (· != fl.rx_buffer)).filter (· != fl.tx_buffer)
        dma_memories := [] } := by
  have hne : (fl.tx_buffer == fl.rx_buffer) = false := beq_eq_false_iff_ne.mpr hd.suits.apart
  simp [DmaState.release, find_memory, erase_memory, hd.memories, hd.current,
    CurrentTransfer.of, hne]

/-- From the lock of a callback to its user callback. -/
theorem frees_both {d' : DmaState} (hs : s.Is d) (ho : s.owner = none)
    (hd : Recorded d.toDmaRecord r fl)
    (h : ∀ s' : Threads, s'.Is (dma_callback x.stream d).2 →
      Ends t x (s'.goto t (.callback .test_callback fl.found)) d' events) :
    Ends t x (s.goto t (.callback .lock fl.found)) d' events := by
  have hrx : fl.found.rx.buff ≠ 0 := hd.suits.rx
  have htx : fl.found.tx.buff ≠ 0 := hd.suits.tx
  refine .callback (e := []) (fun _ => ho) (List.append_nil _).symm ?_
  simp only [callback_step]
  apply Ends.silent rfl
  simp only [callback_step, if_pos hrx]
  apply Ends.silent rfl
  simp only [callback_step]
  apply Ends.silent rfl
  simp only [callback_step, if_pos htx]
  apply Ends.silent rfl
  simp only [callback_step]
  apply Ends.silent rfl
  simp only [callback_step]
  refine h _ ⟨?_, ?_⟩
  · change { s.dma with
      is_busy := false
      mapped := (s.dma.mapped.filter (· != fl.rx_buffer)).filter (· != fl.tx_buffer)
      dma_memories := (s.dma.dma_memories.eraseIdx 1).eraseIdx 0 } = _
    simp only [dma_callback, hd.released, hs.dma, hd.memories]
    rfl
  · simp only [dma_callback, hd.released]
    exact hs.in_flight

/-- From the test for a user callback to the end. -/
theorem tells {b : Callback} (hs : s.Is d) (hcur : d.current_transfer = .of r fl)
    (hthrows : x.throws = false) :
    Ends t x (s.goto t (.callback .test_callback b)) d r.invocation := by
  have hcur' : s.dma.current_transfer = .of r fl := by rw [hs.dma, hcur]
  apply Ends.silent rfl
  simp only [callback_step, Threads.goto_dma, hcur', Threads.goto_goto]
  unfold Request.invocation
  by_cases hcall : r.callback ≠ 0
  · have hcall' : (CurrentTransfer.of r fl).user_callback ≠ 0 := hcall
    rw [if_pos hcall, if_pos hcall']
    change Ends t x _ _ ([.invoked r.callback true r.callback_param] ++ [])
    refine .callback (by rintro ⟨⟩) ?_ ?_
    · change s.log ++ [.invoked s.dma.current_transfer.user_callback true
        s.dma.current_transfer.callback_param] = _
      rw [hcur']
      rfl
    · simp only [callback_step, hthrows]
      apply Ends.silent rfl
      simp only [callback_step]
      exact .here (Function.update_self ..) rfl ⟨⟨_, hs.dma, fun _ _ => rfl⟩, hs.in_flight⟩
  · have hcall' : ¬ (CurrentTransfer.of r fl).user_callback ≠ 0 := hcall
    rw [if_neg hcall, if_neg hcall']
    apply Ends.silent rfl
    simp only [callback_step]
    exact .here (Function.update_self ..) rfl ⟨⟨_, hs.dma, fun _ _ => rfl⟩, hs.in_flight⟩

/-- From the lock of a callback to its end. -/
theorem cleans_up (hs : s.Is d) (ho : s.owner = none) (hd : Recorded d.toDmaRecord r fl)
    (hthrows : x.throws = false) :
    Ends t x (s.goto t (.callback .lock fl.found)) (dma_callback x.stream d).2 r.invocation := by
  have hcur : (dma_callback x.stream d).2.current_transfer = .of r fl := by
    simp only [dma_callback, hd.released]
    exact hd.current
  exact frees_both hs ho hd fun s₁ hs₁ => tells hs₁ hcur hthrows

theorem Recorded.rx_bytes (hd : Recorded d.toDmaRecord r fl) :
    d.rx_bytes = (d.memory fl.rx_buffer).take fl.rx_size.toNat := by
  have hne : (fl.tx_buffer == fl.rx_buffer) = false := beq_eq_false_iff_ne.mpr hd.suits.apart
  simp [DmaState.rx_bytes, find_memory, hd.memories, hd.current, CurrentTransfer.of, hne]

theorem Recorded.said (hd : Recorded d.toDmaRecord r fl) (w : StreamWrite) :
    (dma_callback w d).1.said =
      (if r.output_path ≠ "" then [.written r.output_path (w.map d.rx_bytes.take)]
        else if r.output_buffer ≠ 0 then [.copied r.output_buffer d.rx_bytes] else []) ++
      r.invocation := by
  unfold dma_callback Delivery.said Request.invocation
  rw [hd.current]
  by_cases hpath : r.output_path = "" <;> by_cases hbuf : r.output_buffer = 0 <;>
    by_cases hcall : r.callback = 0 <;> simp [CurrentTransfer.of, hpath, hbuf, hcall]

/-- A callback finds the buffers of the transfer whose state is there. -/
theorem finds {d' : DmaState} (hs : s.Is d) (hd : Recorded d.toDmaRecord r fl)
    (h : Ends t x (s.goto t (.callback .test_path fl.found)) d' events) :
    Ends t x (s.goto t (.callback .find_rx ⟨.nothing, .nothing⟩)) d' events := by
  have hmem : s.dma.dma_memories = remaining fl .find_rx := by rw [hs.dma, hd.memories]; rfl
  have hcur : s.dma.current_transfer = .of r fl := by rw [hs.dma, hd.current]
  apply Ends.silent rfl
  simp only [callback_step, Threads.goto_dma, hcur, Threads.goto_goto]
  apply Ends.silent rfl
  simp only [callback_step, Threads.goto_dma, hcur, Threads.goto_goto]
  have hrx : s.dma.lookup (CurrentTransfer.of r fl).rx_buffer = fl.found.rx :=
    lookup_rx hmem hd.suits.apart
  have htx : s.dma.lookup (CurrentTransfer.of r fl).tx_buffer = fl.found.tx := lookup_tx hmem
  rw [hrx, htx]
  exact h

/-- A callback for the transfer whose state is there does, alone, what `dma_callback`
says. -/
theorem a_callback_alone_is_dma_callback (hs : s.Is d) (ho : s.owner = none)
    (hd : Recorded d.toDmaRecord r fl) (hthrows : x.throws = false) :
    Ends t x (s.goto t (.callback .find_rx ⟨.nothing, .nothing⟩)) (dma_callback x.stream d).2
      (dma_callback x.stream d).1.said := by
  have hcur : s.dma.current_transfer = .of r fl := by rw [hs.dma, hd.current]
  have hbytes : s.dma.bytes fl.found.rx = d.rx_bytes := by
    rw [hd.rx_bytes, hs.dma]
    rfl
  have hend : ∀ s' : Threads, s'.dma = s.dma → s'.in_flight = s.in_flight → s'.owner = none →
      Ends t x (s'.goto t (.callback .lock fl.found)) (dma_callback x.stream d).2 r.invocation :=
    fun s' hdma hfl ho' => cleans_up ⟨hdma.trans hs.dma, hfl.trans hs.in_flight⟩ ho' hd hthrows
  refine finds hs hd ?_
  rw [hd.said]
  apply Ends.silent rfl
  simp only [callback_step, Threads.goto_dma, hcur, Threads.goto_goto]
  by_cases hpath : r.output_path ≠ ""
  · have hpath' : (CurrentTransfer.of r fl).output_file_path ≠ "" := hpath
    rw [if_pos hpath, if_pos hpath']
    refine .callback (by rintro ⟨⟩) ?_ (hend _ rfl rfl ho)
    change s.log ++ [.written s.dma.current_transfer.output_file_path _] = _
    rw [Threads.goto_dma, hcur, hbytes]
    rfl
  · have hpath' : ¬ (CurrentTransfer.of r fl).output_file_path ≠ "" := hpath
    rw [if_neg hpath, if_neg hpath']
    apply Ends.silent rfl
    simp only [callback_step, Threads.goto_dma, hcur, Threads.goto_goto]
    by_cases hbuf : r.output_buffer ≠ 0
    · have hbuf' : (CurrentTransfer.of r fl).output_buffer ≠ 0 := hbuf
      rw [if_pos hbuf, if_pos hbuf']
      refine .callback (by rintro ⟨⟩) ?_ (hend _ rfl rfl ho)
      change s.log ++ [.copied s.dma.current_transfer.output_buffer _] = _
      rw [Threads.goto_dma, hcur, hbytes]
      rfl
    · have hbuf' : ¬ (CurrentTransfer.of r fl).output_buffer ≠ 0 := hbuf
      rw [if_neg hbuf, if_neg hbuf']
      exact hend s rfl rfl ho

end Alone

end aes
