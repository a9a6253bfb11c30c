-- What an engine holds of the input of each call, and whose transfer it has under way, while
-- workers come and go. The order of the transfers does not depend on what is in the log.
import AesMusicPlayer.FileWorkers

open blockwise traces

namespace aes

/-! ## Order without the log -/

def Threads.relog (log : List Event) (e : Threads) : Threads := { e with log := log }

/-- With another log the threads are orderly. -/
def Arranged (e : Threads) : Prop := ∃ log, Orderly (e.relog log)

/-- The log before a step, and what its stream writes, only show in the log after it. -/
theorem step_relog (e : Threads) (t : Thread) (x : Outside) (log : List Event) (w : StreamWrite) :
    ∃ log', (e.relog log).step t { x with stream := w } = (e.step t x).relog log' := by
  unfold Threads.step
  cases hp : e.pc t with
  | outside => exact ⟨log, by simp only [Threads.relog, hp]⟩
  | call l c =>
    simp only [Threads.relog, hp]
    cases l <;> simp only [call_step] <;> (try split_ifs) <;> exact ⟨_, rfl⟩
  | callback l b =>
    simp only [Threads.relog, hp]
    cases l <;> simp only [callback_step] <;> (try split_ifs) <;> exact ⟨_, rfl⟩

namespace Arranged

variable {e : Threads} {t : Thread} {x : Outside}

theorem initial (h : e.Initial) : Arranged e := ⟨e.log, orderly_initial h⟩

theorem call {r : Request} (h : Arranged e) (hp : e.pc t = .outside) :
    Arranged (e.next (.call t r)) := by
  obtain ⟨log, h⟩ := h
  exact ⟨log, orderly_next (a := .call t r) h hp trivial⟩

theorem step (h : Arranged e) (he : e.Enabled (.step t x))
    (hmarked : (e.pc t).at .lock = true → e.Still ∨ e.dma.is_busy = true)
    (hfree : (e.pc t).past = true → (e.pc t).op = some .unlock → e.owner = none)
    (hbuf : ∀ r ∈ (e.pc t).request, r.output_buffer = 0) : Arranged (e.step t x) := by
  obtain ⟨log, h⟩ := h
  obtain ⟨log', heq⟩ := step_relog e t x log (some (2 ^ 32))
  have hturn : StepInTurn (e.relog log) t { x with stream := some (2 ^ 32) } :=
    ⟨hmarked, fun _ r hr ho => ho.1 (hbuf r hr), hfree,
      fun _ => ⟨2 ^ 32, rfl, Nat.le_of_lt (BitVec.isLt _)⟩⟩
  have hnext : Orderly ((e.relog log).step t { x with stream := some (2 ^ 32) }) :=
    orderly_next (a := .step t { x with stream := some (2 ^ 32) }) h he hturn
  exact ⟨log', heq ▸ hnext⟩

theorem only (h : Arranged e) (ht : (e.pc t).active = true) : e.Only t := by
  obtain ⟨log, h⟩ := h
  exact h.stage.only ht

/-- A call between its test and the end of its transfer's start. -/
theorem prepared {l : CallStep} {c : Call} (h : Arranged e) (hp : e.pc t = .call l c)
    (hl : .test_busy < l) (hl' : l < .last_unlock) : Prepared e l c ∧ Sound l c := by
  obtain ⟨log, h⟩ := h
  have hact : ((e.relog log).pc t).active = true := by
    change (e.pc t).active = true
    rw [hp]
    exact active_of_prepares hl hl'
  have hs : Sound l c := by
    have := h.sound t
    change (e.pc t).Sound at this
    rw [hp] at this
    exact this
  cases h.stage with
  | still hs _ _ => rw [hs.2 t] at hact; cases hact
  | flying _ hnone _ _ _ _ => rw [hnone t] at hact; cases hact
  | @preparing u l₁ c₁ hu hp₁ _ _ hprep _ =>
    obtain rfl := hu.eq_of_active hact
    change e.pc u = _ at hp₁
    rw [hp, Pc.call.injEq] at hp₁
    obtain ⟨rfl, rfl⟩ := hp₁
    exact ⟨⟨hprep.fact, hprep.memories⟩, hs⟩
  | @failing u l₁ c₁ hu hp₁ hl₁ _ _ _ =>
    obtain rfl := hu.eq_of_active hact
    change e.pc u = _ at hp₁
    rw [hp, Pc.call.injEq] at hp₁
    obtain ⟨rfl, rfl⟩ := hp₁
    exact absurd hl' (Nat.lt_asymm hl₁)
  | @calling_back u _ _ _ _ _ _ hu hp₁ _ _ =>
    obtain rfl := hu.eq_of_active hact
    change e.pc u = _ at hp₁
    rw [hp] at hp₁
    cases hp₁

theorem calling_back {l : CallbackStep} {b : Callback} (h : Arranged e)
    (hp : e.pc t = .callback l b) :
    ∃ log r fl out base, CallingBack (e.relog log) l b r fl out base := by
  obtain ⟨log, h⟩ := h
  have hact : ((e.relog log).pc t).active = true := by
    change (e.pc t).active = true
    rw [hp]
    rfl
  cases h.stage with
  | still hs _ _ => rw [hs.2 t] at hact; cases hact
  | flying _ hnone _ _ _ _ => rw [hnone t] at hact; cases hact
  | @preparing u _ _ hu hp₁ _ _ _ _ | @failing u _ _ hu hp₁ _ _ _ _ =>
    obtain rfl := hu.eq_of_active hact
    change e.pc u = _ at hp₁
    rw [hp] at hp₁
    cases hp₁
  | @calling_back u _ _ _ _ _ _ hu hp₁ hcb _ =>
    obtain rfl := hu.eq_of_active hact
    change e.pc u = _ at hp₁
    rw [hp, Pc.callback.injEq] at hp₁
    obtain ⟨rfl, rfl⟩ := hp₁
    exact ⟨log, _, _, _, _, hcb⟩

/-- The transfer in flight is that of the record, and no thread works on one. -/
theorem flying (h : Arranged e) (hfl : e.in_flight ≠ []) :
    ∃ r fl, e.in_flight = [fl] ∧ (∀ t, (e.pc t).active = false) ∧ Recorded e.dma r fl ∧
      e.callback_set = true := by
  obtain ⟨log, h⟩ := h
  cases h.stage with
  | still hs _ _ => exact absurd hs.1 hfl
  | preparing ho _ _ _ _ _ | failing ho _ _ _ _ _ | calling_back ho _ _ _ =>
    exact absurd ho.1 hfl
  | flying hone hnone hrec hset _ _ => exact ⟨_, _, hone, hnone, hrec, hset⟩

theorem complete {out : Bytes} (h : Arranged e) (he : e.Enabled (.complete t out)) :
    Arranged (e.next (.complete t out)) := by
  obtain ⟨-, fl, rest, hfl, -⟩ := completes_of_enabled he
  obtain ⟨log, h⟩ := h
  have hnext := orderly_next (a := .complete t out) h he trivial
  have hfl' : (e.relog log).in_flight = fl :: rest := hfl
  change Orderly ((e.relog log).complete t out) at hnext
  refine ⟨log ++ [.completed fl out], ?_⟩
  change Orderly ((e.complete t out).relog _)
  rw [complete_cons hfl'] at hnext
  rw [complete_cons hfl]
  change Orderly (if e.callback_set then _ else _) at hnext
  split_ifs at hnext ⊢ <;> exact hnext

/-- A step of a thread that works on no transfer. -/
theorem inactive_step (h : Arranged e) (he : e.Enabled (.step t x))
    (hact : (e.pc t).active = false) :
    (e.step t x).dma.memory = e.dma.memory ∧
      (e.step t x).dma.current_transfer = e.dma.current_transfer ∧
      (e.step t x).in_flight = e.in_flight ∧
      ∀ l b, (e.step t x).pc t ≠ .callback l b := by
  obtain ⟨log, h⟩ := h
  obtain ⟨log', heq⟩ := step_relog e t x log x.stream
  have hstep := h.inactive_step (x := { x with stream := x.stream }) he hact
  rw [heq] at hstep
  rcases hstep with ⟨hpass, -⟩ | ⟨hat, hidle, c, hin⟩
  · refine ⟨?_, ?_, hpass.in_flight, fun l b hp => ?_⟩
    · have hmem : ((e.step t x).relog log').dma.memory = (e.relog log).dma.memory := by
        rw [hpass.dma]
      exact hmem
    · have hcur : ((e.step t x).relog log').dma.current_transfer =
          (e.relog log).dma.current_transfer := by rw [hpass.dma]
      exact hcur
    · have hafter := hpass.after
      change ((e.step t x).pc t).active = false at hafter
      rw [hp] at hafter
      cases hafter
  · have hnot : ¬ (e.relog log).dma.is_busy = true := by rw [hidle]; exact nofun
    simp only [call_step, if_neg hnot] at hin
    have hdma : ((e.step t x).relog log').dma = e.dma := by rw [hin]; rfl
    have hfl : ((e.step t x).relog log').in_flight = e.in_flight := by rw [hin]; rfl
    have hpc : ((e.step t x).relog log').pc t = .call .get_file_size c := by
      rw [hin, Threads.goto_pc_self]
    change (e.step t x).dma = e.dma at hdma
    change (e.step t x).in_flight = e.in_flight at hfl
    change (e.step t x).pc t = _ at hpc
    refine ⟨by rw [hdma], by rw [hdma], hfl, fun l b hp => ?_⟩
    rw [hpc] at hp
    cases hp

end Arranged

/-! ## The input of a call -/

/-- What step `m` of a call has made of the input, for a file of the plain text `x₀`. -/
def Loaded (x₀ : Bytes) (wk : Worker) (mem : Ptr → Bytes) (c : Call) : CallStep → Prop
  | .get_file_size => c.aligned = aligned_size (BitVec.ofNat 32 x₀.length) AES_TEXT_WIDTH
  | .copy_key => (mem c.tx_buff).take 16 = wk.thread.key.val
  | .open_input => wk.opened ≠ none
  | .read_input => ∃ file ∈ wk.opened,
      mem c.tx_buff = DmaState.tx_contents wk.thread.key file.content c.aligned
  | _ => True

@[simp] theorem Worker.step_thread (file : Option File) (a : Answers) (p p' : Pc) (wk : Worker) :
    (wk.step file a p p').thread = wk.thread := by
  unfold Worker.step
  split <;> rfl

@[simp] theorem Worker.step_phase (file : Option File) (a : Answers) (p p' : Pc) (wk : Worker) :
    (wk.step file a p p').phase = wk.phase := by
  unfold Worker.step
  split <;> rfl

theorem AesThread.request_key (t : AesThread) : t.request.key = t.key := by
  unfold AesThread.request
  split <;> rfl

section Loaded

variable {x₀ : Bytes} {wk : Worker} {e : Threads} {t : Thread} {a : Outside} {c c' : Call}
  {l l' : CallStep} {file : Option File}

theorem Loaded.succ {wk' : Worker} {mem mem' : Ptr → Bytes}
    (h : ∀ m, m < l → Loaded x₀ wk mem c m) (hl : l'.ctorIdx = l.ctorIdx + 1)
    (hkeep : ∀ m, m < l → Loaded x₀ wk mem c m → Loaded x₀ wk' mem' c' m)
    (hnew : Loaded x₀ wk' mem' c' l) : ∀ m, m < l' → Loaded x₀ wk' mem' c' m := by
  intro m hm
  rcases (CallStep.lt_succ hl).mp hm with h1 | rfl
  · exact hkeep m h1 (h m h1)
  · exact hnew

/-- A step of a call whose answers are about its input file. -/
theorem loaded_step
    (h : .test_busy < l → l < .last_unlock → ∀ m, m < l → Loaded x₀ wk e.dma.memory c m)
    (hkey : c.request.key = wk.thread.key)
    (hsize : ∀ n ∈ a.file_size, aligned_size (BitVec.ofNat 32 n) AES_TEXT_WIDTH =
      aligned_size (BitVec.ofNat 32 x₀.length) AES_TEXT_WIDTH)
    (hopen : l = .open_input → a.input ≠ none → file ≠ none)
    (hread : l = .read_input → a.input = wk.opened.map File.content)
    (hp : (call_step t a c e l).pc t = .call l' c') (hl : .test_busy < l')
    (hl' : l' < .last_unlock) :
    ∀ m, m < l' → Loaded x₀ (wk.step file a.toAnswers (.call l c) (.call l' c'))
      (call_step t a c e l).dma.memory c' m := by
  cases l with
  | check_dev =>
    simp only [call_step] at hp
    split_ifs at hp <;> rw [Threads.goto_pc_self] at hp
    · obtain ⟨rfl, rfl⟩ := Pc.call.inj hp
      exact absurd hl (by decide)
    · cases hp
  | lock =>
    rw [call_step, Threads.goto_pc_self] at hp
    obtain ⟨rfl, rfl⟩ := Pc.call.inj hp
    exact absurd hl (by decide)
  | test_busy =>
    simp only [call_step] at hp ⊢
    split_ifs at hp ⊢ <;> simp only [Threads.goto_pc_self, Threads.throw_pc_self] at hp
    · obtain ⟨rfl, rfl⟩ := Pc.call.inj hp
      exact absurd hl' (by decide)
    · obtain ⟨rfl, rfl⟩ := Pc.call.inj hp
      intro m hm
      cases m <;> trivial
  | get_file_size =>
    simp only [call_step] at hp ⊢
    split_ifs at hp ⊢ with hbad <;>
      simp only [Threads.goto_pc_self, Threads.throw_pc_self] at hp
    · obtain ⟨rfl, rfl⟩ := Pc.call.inj hp
      exact absurd hl' (by decide)
    · obtain ⟨rfl, rfl⟩ := Pc.call.inj hp
      refine Loaded.succ (h (by decide) (by decide)) rfl ?_ ?_
      · intro m hm
        cases m <;> first | exact id | exact absurd hm (by decide)
      · obtain ⟨n, hn⟩ := Option.ne_none_iff_exists'.mp (not_or.mp hbad).1
        change a.aligned = _
        rw [← hsize n hn, Answers.aligned, hn]
        rfl
  | malloc_tx =>
    simp only [call_step] at hp ⊢
    split_ifs at hp ⊢ <;> simp only [Threads.goto_pc_self, Threads.throw_pc_self] at hp
    · obtain ⟨rfl, rfl⟩ := Pc.call.inj hp
      exact absurd hl' (by decide)
    · obtain ⟨rfl, rfl⟩ := Pc.call.inj hp
      refine Loaded.succ (h (by decide) (by decide)) rfl ?_ trivial
      intro m hm
      cases m <;> first | exact id | exact absurd hm (by decide)
  | malloc_rx =>
    simp only [call_step] at hp ⊢
    split_ifs at hp ⊢ <;> simp only [Threads.goto_pc_self, Threads.throw_pc_self] at hp
    · obtain ⟨rfl, rfl⟩ := Pc.call.inj hp
      exact absurd hl' (by decide)
    · obtain ⟨rfl, rfl⟩ := Pc.call.inj hp
      refine Loaded.succ (h (by decide) (by decide)) rfl ?_ trivial
      intro m hm
      cases m <;> exact id
  | copy_key =>
    rw [call_step, Threads.goto_pc_self] at hp
    obtain ⟨rfl, rfl⟩ := Pc.call.inj hp
    refine Loaded.succ (h (by decide) (by decide)) rfl ?_ ?_
    · intro m hm
      cases m <;> first | exact id | exact absurd hm (by decide)
    · change (Function.update e.dma.memory c.tx_buff (c.request.key.val ++ _) c.tx_buff).take 16 = _
      rw [Function.update_self, hkey, List.take_left' wk.thread.key.property]
      rfl
  | open_input =>
    simp only [call_step] at hp ⊢
    split_ifs at hp ⊢ with hnone <;>
      simp only [Threads.goto_pc_self, Threads.throw_pc_self] at hp
    · obtain ⟨rfl, rfl⟩ := Pc.call.inj hp
      exact absurd hl' (by decide)
    · obtain ⟨rfl, rfl⟩ := Pc.call.inj hp
      refine Loaded.succ (h (by decide) (by decide)) rfl ?_ (hopen rfl hnone)
      intro m hm
      cases m <;> first | exact id | exact absurd hm (by decide)
  | read_input =>
    have hold := h (by decide) (by decide)
    have hcopied : (e.dma.memory c.tx_buff).take 16 = wk.thread.key.val :=
      hold .copy_key (by decide)
    obtain ⟨opened, hopened⟩ :=
      Option.ne_none_iff_exists'.mp (hold .open_input (by decide) : wk.opened ≠ none)
    have hinput : a.input = some opened.content := by rw [hread rfl, hopened]; rfl
    rw [call_step, Threads.goto_pc_self] at hp
    obtain ⟨rfl, rfl⟩ := Pc.call.inj hp
    have hmem : (call_step t a c e .read_input).dma.memory c.tx_buff =
        DmaState.tx_contents wk.thread.key opened.content c.aligned := by
      change Function.update e.dma.memory c.tx_buff (_ ++ _) c.tx_buff = _
      rw [Function.update_self, hcopied, hinput]
      rfl
    refine Loaded.succ hold rfl ?_ ⟨opened, hopened, hmem⟩
    intro m hm
    cases m <;> first | exact id | exact absurd hm (by decide) | skip
    intro _
    change ((call_step t a c e .read_input).dma.memory c.tx_buff).take 16 = _
    rw [hmem, DmaState.tx_contents, List.take_left' wk.thread.key.property]
    rfl
  | start =>
    simp only [call_step] at hp
    split_ifs at hp <;> simp only [Threads.goto_pc_self, Threads.throw_pc_self] at hp <;>
      obtain ⟨rfl, rfl⟩ := Pc.call.inj hp <;> exact absurd hl' (by decide)
  | last_unlock | catch_unlock =>
    rw [call_step, Threads.goto_pc_self] at hp
    cases hp
  | free_tx | free_rx | erase | clear_busy =>
    rw [call_step, Threads.goto_pc_self] at hp
    obtain ⟨rfl, rfl⟩ := Pc.call.inj hp
    exact absurd hl' (by decide)
  | store_tx | push_tx | store_rx | push_rx | key_loading_on | set_busy | set_file_path
  | set_buffer | set_buffer_size | set_user_callback | set_param | set_callback
  | key_loading_off | stop_tx | stop_rx | unlock =>
    rw [call_step, Threads.goto_pc_self] at hp
    obtain ⟨rfl, rfl⟩ := Pc.call.inj hp
    exact Loaded.succ (h (by decide) (by decide)) rfl (fun _ _ => id) trivial

end Loaded

/-! ## The workers of an engine -/

section Invariant

variable (C : BlockCipher) (key : Key) (plain : String → Option Bytes)

/-- The worker whose thread is in a call, and what the call has made of the input. -/
structure CallOf (ws : List Worker) (k : Engine) (mem : Ptr → Bytes) (t : Thread) (l : CallStep)
    (c : Call) (wk : Worker) : Prop where
  here : wk ∈ ws
  self : wk.thread.self = t
  engine : wk.thread.operation.engine = k
  phase : wk.phase = .called
  request : c.request = wk.thread.request
  told : l < .last_unlock → wk.told = none
  loaded : .test_busy < l → l < .last_unlock → ∀ x₀, plain wk.thread.input_path = some x₀ →
    ∀ m, m < l → Loaded x₀ wk mem c m

/-- The record is that of a worker, which waits for its transfer or is about to. -/
structure Waits (ws : List Worker) (k : Engine) (e : Threads) (wk : Worker) : Prop where
  here : wk ∈ ws
  engine : wk.thread.operation.engine = k
  phase : wk.phase = .called
  told : wk.told = none
  returns : (e.pc wk.thread.self).returns = true
  path : e.dma.current_transfer.output_file_path = wk.thread.output_path
  param : e.dma.current_transfer.callback_param = wk.thread.self

/-- What a worker needs, in a file that is not too long. -/
def Input (wk : Worker) (content : Bytes) : Prop :=
  (∃ x₀, plain wk.thread.input_path = some x₀ ∧ Suits C key x₀ content wk.thread.operation) ∧
    content.length + 15 < 2 ^ 31

/-- Each transfer of an engine is that of a worker, and works on the input that it needs. -/
structure EngineOk (ws : List Worker) (k : Engine) (e : Threads) : Prop where
  arranged : Arranged e
  calls : ∀ t l c, e.pc t = .call l c → ∃ wk, CallOf plain ws k e.dma.memory t l c wk
  flies : ∀ fl ∈ e.in_flight, ∃ wk content, Waits ws k e wk ∧ Input C key plain wk content ∧
    e.dma.memory fl.tx_buffer =
      key.val ++ (content ++ List.replicate (padding 16 content.length) 0) ∧
    fl.rx_size.toNat = (result (C.engine k) key content).length
  calls_back : ∀ t l b, e.pc t = .callback l b → l < .unlock →
    ∃ wk content, Waits ws k e wk ∧ Input C key plain wk content ∧
      (l < .lock → e.dma.memory e.dma.current_transfer.rx_buffer = result (C.engine k) key content)

variable {C key plain} {ws ws' : List Worker} {k : Engine} {e : Threads} {t : Thread}
  {a : Outside} {l : CallStep} {c : Call} {wk : Worker} {file : Option File}

/-- A worker waits on while its record stays. -/
theorem Waits.keep {e' : Threads} (h : Waits ws k e wk)
    (hcur : e'.dma.current_transfer = e.dma.current_transfer) (hhere : wk ∈ ws')
    (hret : (e'.pc wk.thread.self).returns = true) : Waits ws' k e' wk :=
  ⟨hhere, h.engine, h.phase, h.told, hret, by rw [hcur]; exact h.path,
    by rw [hcur]; exact h.param⟩

/-- Workers may come and go that neither run a call nor wait. -/
theorem EngineOk.workers (h : EngineOk C key plain ws k e)
    (hws : ∀ wk ∈ ws, wk.thread.operation.engine = k → wk.phase = .called →
      wk.told = none ∨ e.pc wk.thread.self ≠ .outside → wk ∈ ws') :
    EngineOk C key plain ws' k e := by
  have hwaits : ∀ {wk}, Waits ws k e wk → Waits ws' k e wk := fun hw =>
    hw.keep rfl (hws _ hw.here hw.engine hw.phase (Or.inl hw.told)) hw.returns
  refine ⟨h.arranged, ?_, ?_, ?_⟩
  · intro t l c hp
    obtain ⟨wk, hw⟩ := h.calls t l c hp
    refine ⟨wk, { hw with here := hws wk hw.here hw.engine hw.phase (Or.inr ?_) }⟩
    rw [hw.self, hp]
    rintro ⟨⟩
  · intro fl hfl
    obtain ⟨wk, content, hw, h'⟩ := h.flies fl hfl
    exact ⟨wk, content, hwaits hw, h'⟩
  · intro t l b hp hl
    obtain ⟨wk, content, hw, h'⟩ := h.calls_back t l b hp hl
    exact ⟨wk, content, hwaits hw, h'⟩

/-! ## The steps of an engine -/

/-- A worker calls. -/
theorem EngineOk.call {r : Request} (h : EngineOk C key plain ws k e) (hp : e.pc t = .outside)
    (hws : ∀ wk ∈ ws, wk.thread.self ≠ t ∨ wk.phase = .called → wk ∈ ws')
    (hwk : wk ∈ ws') (hr : r = wk.thread.request) (hself : wk.thread.self = t)
    (hengine : wk.thread.operation.engine = k) (hphase : wk.phase = .called) (htold : wk.told = none)
    (hcalled : ∀ wk ∈ ws, wk.thread.self = t → wk.phase ≠ .called) :
    EngineOk C key plain ws' k (e.next (.call t r)) := by
  have hwaits : ∀ {wk₁}, Waits ws k e wk₁ →
      Waits ws' k (e.next (.call t r)) wk₁ := by
    intro wk₁ hw
    refine hw.keep rfl (hws _ hw.here (Or.inr hw.phase)) ?_
    have hne : wk₁.thread.self ≠ t := fun heq => hcalled wk₁ hw.here heq hw.phase
    change (Function.update e.pc t _ wk₁.thread.self).returns = true
    rw [Function.update_of_ne hne]
    exact hw.returns
  refine ⟨h.arranged.call hp, ?_, ?_, ?_⟩
  · intro u l c hu
    change Function.update e.pc t _ u = _ at hu
    by_cases hut : u = t
    · subst hut
      rw [Function.update_self] at hu
      obtain ⟨rfl, rfl⟩ := Pc.call.inj hu
      exact ⟨wk, hwk, hself, hengine, hphase, hr, fun _ => htold,
        fun hl => absurd hl (by decide)⟩
    · rw [Function.update_of_ne hut] at hu
      obtain ⟨wk₁, hw⟩ := h.calls u l c hu
      exact ⟨wk₁, { hw with here := hws _ hw.here (Or.inr hw.phase) }⟩
  · intro fl hfl
    obtain ⟨wk₁, content, hw, h'⟩ := h.flies fl hfl
    exact ⟨wk₁, content, hwaits hw, h'⟩
  · intro u l b hu hl
    change Function.update e.pc t _ u = _ at hu
    have hut : u ≠ t := by
      rintro rfl
      rw [Function.update_self] at hu
      cases hu
    rw [Function.update_of_ne hut] at hu
    obtain ⟨wk₁, content, hw, h'⟩ := h.calls_back u l b hu hl
    exact ⟨wk₁, content, hwaits hw, h'⟩

/-- The request of a call stays. -/
theorem call_step_request {l' : CallStep} {c' : Call}
    (hp : (call_step t a c e l).pc t = .call l' c') : c'.request = c.request := by
  cases l <;> simp only [call_step] at hp <;> (try split_ifs at hp) <;>
    simp only [Threads.goto_pc_self, Threads.throw_pc_self] at hp <;> cases hp <;> rfl

theorem before_of_step {l' : CallStep} {c' : Call}
    (hp : (call_step t a c e l).pc t = .call l' c') (hl : l' < .last_unlock) :
    l < .last_unlock := by
  cases l <;> simp only [call_step] at hp <;> (try split_ifs at hp) <;>
    simp only [Threads.goto_pc_self, Threads.throw_pc_self] at hp <;> cases hp <;>
    first | decide | exact absurd hl (by decide)

theorem Worker.step_told {file : Option File} {a : Answers} {p : Pc} {l' : CallStep} {c' : Call}
    (hl : l' < .last_unlock) : (wk.step file a p (.call l' c')).told = wk.told := by
  unfold Worker.step
  split
  · rfl
  · rename_i heq
    obtain ⟨rfl, -⟩ := Pc.call.inj heq
    exact absurd hl (by decide)
  · rename_i heq
    cases heq
  · rfl

/-- The answers to a step of a call are about the input file of its worker. -/
structure Answered (C : BlockCipher) (key : Key) (plain : String → Option Bytes) (a : Outside)
    (file : Option File) (l : CallStep) (wk : Worker) : Prop where
  size : ∀ x₀, plain wk.thread.input_path = some x₀ → ∀ n ∈ a.file_size,
    aligned_size (BitVec.ofNat 32 n) AES_TEXT_WIDTH =
      aligned_size (BitVec.ofNat 32 x₀.length) AES_TEXT_WIDTH
  opens : l = .open_input → a.input ≠ none → file ≠ none
  reads : l = .read_input → a.input = wk.opened.map File.content
  starts : l = .start → 0 ≤ a.twoway → ∀ file ∈ wk.opened, Input C key plain wk file.content

/-- A call that starts its transfer has the input of its worker in its buffer. -/
theorem CallOf.flies (hw : CallOf plain ws k e.dma.memory t .start c wk)
    (ha : Answered C key plain a file .start wk) (ht : 0 ≤ a.twoway) (hkey : wk.thread.key = key)
    {x₀ : Bytes} (hx : plain wk.thread.input_path = some x₀) :
    ∃ content, Input C key plain wk content ∧
      e.dma.memory c.tx_buff =
        key.val ++ (content ++ List.replicate (padding 16 content.length) 0) ∧
      c.aligned.toNat = (result (C.engine k) key content).length := by
  have hloaded := hw.loaded (by decide) (by decide) x₀ hx
  have hal : c.aligned = aligned_size (BitVec.ofNat 32 x₀.length) AES_TEXT_WIDTH :=
    hloaded .get_file_size (by decide)
  obtain ⟨opened, hopened, hmem⟩ : ∃ file ∈ wk.opened,
      e.dma.memory c.tx_buff = DmaState.tx_contents wk.thread.key file.content c.aligned :=
    hloaded .read_input (by decide)
  have hinput := ha.starts rfl ht opened hopened
  obtain ⟨x₁, hx₁, hsuits⟩ := hinput.1
  have hlen := hinput.2
  rw [hx, Option.some.injEq] at hx₁
  subst hx₁
  have hsame : c.aligned = aligned_size (BitVec.ofNat 32 opened.content.length) AES_TEXT_WIDTH := by
    rw [hal, aligned_of_suits hsuits]
  refine ⟨opened.content, hinput, ?_, ?_⟩
  · rw [hmem, hkey, hsame, DmaState.tx_contents, DmaState.padded_aligned _ hlen]
  · rw [hsame, aligned_size_padded _ (by omega), length_result]

/-- The call after a step of it. -/
theorem CallOf.step {l' : CallStep} {c' : Call} (hw : CallOf plain ws k e.dma.memory t l c wk)
    (ha : Answered C key plain a file l wk) (hp : (call_step t a c e l).pc t = .call l' c')
    (hhere : wk.step file a.toAnswers (.call l c) (.call l' c') ∈ ws') :
    CallOf plain ws' k (call_step t a c e l).dma.memory t l' c'
      (wk.step file a.toAnswers (.call l c) (.call l' c')) := by
  refine ⟨hhere, ?_, ?_, ?_, ?_, ?_, ?_⟩
  · rw [Worker.step_thread]
    exact hw.self
  · rw [Worker.step_thread]
    exact hw.engine
  · rw [Worker.step_phase]
    exact hw.phase
  · rw [Worker.step_thread, call_step_request hp]
    exact hw.request
  · intro hl
    rw [Worker.step_told hl]
    exact hw.told (before_of_step hp hl)
  · intro hl hl' x₀ hx₀
    rw [Worker.step_thread] at hx₀
    exact loaded_step (fun h1 h2 => hw.loaded h1 h2 x₀ hx₀)
      (by rw [hw.request, AesThread.request_key]) (ha.size x₀ hx₀) ha.opens ha.reads hp hl hl'

/-- A step of a call of the worker `wk`. -/
theorem EngineOk.call_step (h : EngineOk C key plain ws k e)
    (hsel : (ws.map (·.thread.self)).Nodup) (he : e.Enabled (.step t a))
    (hp : e.pc t = .call l c) (hnext : Arranged (e.step t a))
    (hw : CallOf plain ws k e.dma.memory t l c wk) (ha : Answered C key plain a file l wk)
    (hws : ∀ u ∈ ws, u.thread.self ≠ t → u ∈ ws')
    (hwk : wk.step file a.toAnswers (e.pc t) ((e.step t a).pc t) ∈ ws')
    (hkey : wk.thread.key = key) (hon : wk.thread.OnFiles) {x₀ : Bytes}
    (hx : plain wk.thread.input_path = some x₀) : EngineOk C key plain ws' k (e.step t a) := by
  obtain ⟨p', hm⟩ := enabled_moves he
  change Moves e (e.step t a) _ p' at hm
  have hother : ∀ u, u ≠ t → (e.step t a).pc u = e.pc u := fun u hu => hm.pc_other hu
  have hstep : e.step t a = aes.call_step t a c e l := step_call a hp
  -- a worker that waits and steps leaves its call
  have hleaves : ∀ wk₁, Waits ws k e wk₁ →
      wk₁ ∈ ws' ∧ ((e.step t a).pc wk₁.thread.self).returns = true := by
    intro wk₁ h₁
    by_cases hut : wk₁.thread.self = t
    · obtain rfl : wk₁ = wk :=
        List.inj_on_of_nodup_map hsel h₁.here hw.here (hut.trans hw.self.symm)
      have hret := h₁.returns
      rw [hut, hp, Pc.returns, beq_iff_eq] at hret
      have hout : (e.step t a).pc t = .outside := by
        rw [hstep, hret, aes.call_step, Threads.goto_pc_self]
      rw [hp, hret, hout] at hwk
      exact ⟨hwk, by rw [hut, hout]; rfl⟩
    · exact ⟨hws _ h₁.here hut, by rw [hother _ hut]; exact h₁.returns⟩
  refine ⟨hnext, ?_, ?_, ?_⟩
  · intro u l₁ c₁ hu
    by_cases hut : u = t
    · subst hut
      have hu' : (aes.call_step u a c e l).pc u = .call l₁ c₁ := by rw [← hstep]; exact hu
      rw [hp, hu] at hwk
      rw [hstep]
      exact ⟨_, hw.step ha hu' hwk⟩
    · rw [hother u hut] at hu
      obtain ⟨wk₁, h₁⟩ := h.calls u l₁ c₁ hu
      refine ⟨wk₁, { h₁ with here := hws _ h₁.here (by rw [h₁.self]; exact hut), loaded := ?_ }⟩
      intro hl hl'
      have hact : (e.pc u).active = true := by
        rw [hu]
        exact active_of_prepares hl hl'
      rw [(h.arranged.inactive_step he ((h.arranged.only hact).2 t (Ne.symm hut))).1]
      exact h₁.loaded hl hl'
  · intro fl hfl
    cases hact : (e.pc t).active with
    | false =>
      obtain ⟨hmem, hcur, hsame, -⟩ := h.arranged.inactive_step he hact
      rw [hsame] at hfl
      obtain ⟨wk₁, content, h₁, hin, htx, hrx⟩ := h.flies fl hfl
      obtain ⟨hhere, hret⟩ := hleaves wk₁ h₁
      exact ⟨wk₁, content, h₁.keep hcur hhere hret, hin, by rw [hmem]; exact htx, hrx⟩
    | true =>
      have hnil := (h.arranged.only hact).1
      have hlstart : l = .start := by
        by_contra hne
        rw [hstep, (call_step_frame hne hnil).1] at hfl
        cases hfl
      subst hlstart
      have hok : ¬ a.twoway < 0 := by
        intro hneg
        rw [hstep, aes.call_step, if_pos hneg] at hfl
        change fl ∈ e.in_flight at hfl
        rw [hnil] at hfl
        cases hfl
      obtain ⟨content, hin, htx, hrx⟩ := hw.flies (C := C) ha (by omega) hkey hx
      obtain ⟨hprep, hs⟩ := h.arranged.prepared hp (by decide) (by decide)
      have hcur := (hprep.recorded hs).current
      have hdma : (e.step t a).dma = e.dma := by rw [hstep, aes.call_step, if_neg hok]; rfl
      have hpc : (e.step t a).pc t = .call .last_unlock c := by
        rw [hstep, aes.call_step, if_neg hok, Threads.goto_pc_self]
      have hone : fl = c.flight := by
        rw [hstep, aes.call_step, if_neg hok] at hfl
        change fl ∈ e.in_flight ++ [c.flight] at hfl
        rw [hnil, List.nil_append, List.mem_singleton] at hfl
        exact hfl
      subst hone
      rw [hp, hpc] at hwk
      have hreq : c.request = ⟨wk.thread.key, wk.thread.input_path, wk.thread.output_path, 0, 0,
          wk.thread.cb, wk.thread.self⟩ := by rw [hw.request, hon.request_eq]
      refine ⟨wk, content, ⟨hwk, hw.engine, hw.phase, hw.told (by decide), ?_, ?_, ?_⟩, hin, ?_,
        hrx⟩
      · rw [hw.self, hpc]; rfl
      · rw [hdma, hcur, hreq]; rfl
      · rw [hdma, hcur, hreq]; rfl
      · rw [hdma]; exact htx
  · intro u l₁ b hu hl
    have hut : u ≠ t := by
      rintro rfl
      obtain ⟨l₂, b₂, hcb⟩ := callback_of_step he hu
      rw [hp] at hcb
      cases hcb
    rw [hother u hut] at hu
    have hact : (e.pc u).active = true := by rw [hu]; rfl
    obtain ⟨hmem, hcur, -, -⟩ :=
      h.arranged.inactive_step he ((h.arranged.only hact).2 t (Ne.symm hut))
    obtain ⟨wk₁, content, h₁, hin, hrx⟩ := h.calls_back u l₁ b hu hl
    obtain ⟨hhere, hret⟩ := hleaves wk₁ h₁
    refine ⟨wk₁, content, h₁.keep hcur hhere hret, hin, ?_⟩
    rw [hmem, hcur]
    exact hrx

/-- What an engine makes of a padded input. -/
theorem stream_input (f : BlockFunction) (key : Key) (content : Bytes) :
    f.stream (key.val ++ (content ++ List.replicate (padding 16 content.length) 0)) =
      result f key content := by
  have hkey := key.property
  rw [BlockFunction.stream, List.take_left' hkey, List.drop_left' hkey, List.length_append, hkey,
    List.length_append, List.length_replicate, Nat.add_sub_cancel_left]
  rfl

/-- A transfer completes. -/
theorem EngineOk.complete {out : Bytes} (h : EngineOk C key plain ws k e)
    (he : e.Enabled (.complete t out))
    (hout : ∀ fl ∈ e.in_flight.head?,
      ((C.engine k).stream (e.dma.memory fl.tx_buffer)).take out.length <+: out)
    (hnew : ∀ wk ∈ ws, wk.thread.self ≠ t) :
    EngineOk C key plain ws k (e.next (.complete t out)) := by
  obtain ⟨-, fl, rest, hfl, hfull⟩ := completes_of_enabled he
  obtain ⟨r, fl₁, hone, hnone, hrec, hset⟩ :=
    h.arranged.flying (by rw [hfl]; exact List.cons_ne_nil _ _)
  obtain ⟨rfl, rfl⟩ : fl = fl₁ ∧ rest = [] := by
    rw [hfl, List.cons.injEq] at hone
    exact hone
  have hnext : e.next (.complete t out) =
      (e.finish fl [] out).goto t (.callback .find_rx ⟨.nothing, .nothing⟩) := by
    change e.complete t out = _
    rw [complete_cons hfl, if_pos hset]
  have hother : ∀ u, u ≠ t → (e.next (.complete t out)).pc u = e.pc u := by
    intro u hu
    rw [hnext]
    exact Function.update_of_ne hu _ _
  have hself : (e.next (.complete t out)).pc t = .callback .find_rx ⟨.nothing, .nothing⟩ := by
    rw [hnext, Threads.goto_pc_self]
  obtain ⟨wk, content, hw, hin, htx, hrx⟩ := h.flies fl (by rw [hfl]; exact List.mem_cons_self)
  -- what the engine has sent is the whole result
  have hresult : out = result (C.engine k) key content := by
    have hsent := hout fl (by rw [hfl]; rfl)
    have hlen : out.length = (result (C.engine k) key content).length := hfull.trans hrx
    rw [htx, stream_input, hlen, List.take_length] at hsent
    exact (hsent.eq_of_length hlen.symm).symm
  refine ⟨h.arranged.complete he, ?_, ?_, ?_⟩
  · intro u l c hu
    have hut : u ≠ t := by
      rintro rfl
      rw [hself] at hu
      cases hu
    rw [hother u hut] at hu
    obtain ⟨wk₁, h₁⟩ := h.calls u l c hu
    refine ⟨wk₁, { h₁ with loaded := fun hl hl' => ?_ }⟩
    have hact := hnone u
    rw [hu, active_of_prepares hl hl'] at hact
    cases hact
  · intro fl' hfl'
    rw [hnext] at hfl'
    cases hfl'
  · intro u l b hu _
    by_cases hut : u = t
    · refine ⟨wk, content, hw.keep (by rw [hnext]; rfl) hw.here ?_, hin, fun _ => ?_⟩
      · rw [hother _ (hnew wk hw.here)]
        exact hw.returns
      · rw [hnext, ← hresult]
        change Function.update e.dma.memory fl.rx_buffer out e.dma.current_transfer.rx_buffer = out
        rw [hrec.current]
        exact Function.update_self ..
    · rw [hother u hut] at hu
      have hact := hnone u
      rw [hu] at hact
      cases hact

section Callback

variable {l l' : CallbackStep} {b b' : Callback}

theorem callback_step_forward (hp : (callback_step t a b e l).pc t = .callback l' b') : l < l' := by
  cases l <;> simp only [callback_step] at hp <;> (try split_ifs at hp) <;>
    simp only [Threads.goto_pc_self] at hp <;> cases hp <;> decide

theorem callback_step_keeps (t : Thread) (a : Outside) (b : Callback) (e : Threads)
    (l : CallbackStep) :
    (callback_step t a b e l).dma.memory = e.dma.memory ∧
      (callback_step t a b e l).dma.current_transfer = e.dma.current_transfer := by
  cases l <;> simp only [callback_step] <;> (try split_ifs) <;> exact ⟨rfl, rfl⟩

/-- A step of a callback. Only the call of the user callback tells a worker. -/
theorem EngineOk.callback_step (h : EngineOk C key plain ws k e)
    (hsel : (ws.map (·.thread.self)).Nodup) (he : e.Enabled (.step t a))
    (hp : e.pc t = .callback l b) (hnext : Arranged (e.step t a))
    (hws : ∀ u ∈ ws, l ≠ .invoke ∨ u.thread.self ≠ e.dma.current_transfer.callback_param →
      u ∈ ws')
    (hwk : ∀ u ∈ ws, ∃ u' ∈ ws', u'.thread = u.thread ∧ u'.phase = u.phase) :
    EngineOk C key plain ws' k (e.step t a) := by
  obtain ⟨p', hm⟩ := enabled_moves he
  change Moves e (e.step t a) _ p' at hm
  have hother : ∀ u, u ≠ t → (e.step t a).pc u = e.pc u := fun u hu => hm.pc_other hu
  have hstep : e.step t a = aes.callback_step t a b e l := step_callback a hp
  have honly : e.Only t := h.arranged.only (by rw [hp]; rfl)
  obtain ⟨hmem, hcur⟩ := callback_step_keeps t a b e l
  rw [← hstep] at hmem hcur
  refine ⟨hnext, ?_, ?_, ?_⟩
  · intro u l₁ c hu
    have hut : u ≠ t := by
      rintro rfl
      have hat : ((e.step u a).pc u).at l₁ = false := by rw [hstep]; exact callback_not_at l₁
      rw [hu, Pc.at, beq_self_eq_true] at hat
      cases hat
    rw [hother u hut] at hu
    obtain ⟨wk₁, h₁⟩ := h.calls u l₁ c hu
    have hidle : ∀ {P : Prop}, .test_busy < l₁ → l₁ < .last_unlock → P := by
      intro P hl hl'
      have hact := honly.2 u hut
      rw [hu, active_of_prepares hl hl'] at hact
      cases hact
    by_cases hpar : l ≠ .invoke ∨ wk₁.thread.self ≠ e.dma.current_transfer.callback_param
    · exact ⟨wk₁, { h₁ with here := hws wk₁ h₁.here hpar, loaded := hidle }⟩
    · -- the worker that is told is about to leave its call
      obtain ⟨hlast, hsame⟩ := not_or.mp hpar
      obtain rfl := not_not.mp hlast
      obtain ⟨wk₂, -, h₂, -⟩ := h.calls_back t .invoke b hp (by decide)
      obtain rfl : wk₁ = wk₂ :=
        List.inj_on_of_nodup_map hsel h₁.here h₂.here ((not_not.mp hsame).trans h₂.param)
      have hret := h₂.returns
      rw [h₁.self, hu, Pc.returns, beq_iff_eq] at hret
      subst hret
      obtain ⟨wk', hhere, hthread, hphase⟩ := hwk wk₁ h₁.here
      refine ⟨wk', hhere, by rw [hthread]; exact h₁.self, by rw [hthread]; exact h₁.engine,
        by rw [hphase]; exact h₁.phase, by rw [hthread]; exact h₁.request,
        fun hl => absurd hl (by decide), hidle⟩
  · intro fl hfl
    rw [hstep, callback_step_in_flight, honly.1] at hfl
    cases hfl
  · intro u l₁ b₁ hu hl
    by_cases hut : u = t
    · subst hut
      rw [hstep] at hu
      have hlt := callback_step_forward hu
      have hne : l ≠ .invoke := by
        rintro rfl
        exact absurd hl (Nat.not_lt_of_le hlt)
      obtain ⟨wk, content, hw, hin, hrx⟩ := h.calls_back u l b hp (Nat.lt_trans hlt hl)
      have hself : wk.thread.self ≠ u := by
        intro heq
        have hret := hw.returns
        rw [heq, hp] at hret
        cases hret
      refine ⟨wk, content, hw.keep hcur (hws wk hw.here (Or.inl hne)) ?_, hin, fun hlock => ?_⟩
      · rw [hother _ hself]
        exact hw.returns
      · rw [hmem, hcur]
        exact hrx (Nat.lt_trans hlt hlock)
    · rw [hother u hut] at hu
      have hact := honly.2 u hut
      rw [hu] at hact
      cases hact

end Callback

end Invariant

end aes
