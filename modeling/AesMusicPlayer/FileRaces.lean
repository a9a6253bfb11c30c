-- What the marks of the files say in every run of key presses, workers, signals and the UI. A
-- worker that starts its transfer must find its file marked as the key press found it.
import AesMusicPlayer.FileEngines
import AesMusicPlayer.RoundTrip

open blockwise traces

namespace aes

/-! ## The workers -/

namespace Player

variable {s : Player} {id : Ptr} {f : Worker → Worker} {wk : Worker}

theorem mem_of_worker (h : s.worker id = some wk) : wk ∈ s.workers ∧ wk.thread.self = id :=
  ⟨List.mem_of_find?_eq_some h, by simpa using List.find?_some h⟩

theorem worker_eq (hsel : (s.workers.map (·.thread.self)).Nodup) (hw : wk ∈ s.workers)
    (hself : wk.thread.self = id) : s.worker id = some wk := by
  cases h : s.worker id with
  | none =>
    have hne := List.find?_eq_none.mp h wk hw
    rw [hself, beq_self_eq_true] at hne
    exact absurd rfl hne
  | some wk' =>
    obtain ⟨hw', hself'⟩ := mem_of_worker h
    rw [List.inj_on_of_nodup_map hsel hw' hw (hself'.trans hself.symm)]

theorem mem_change_of_ne (hw : wk ∈ s.workers) (hne : wk.thread.self ≠ id) :
    wk ∈ (s.change id f).workers :=
  List.mem_map.mpr ⟨wk, hw, if_neg hne⟩

theorem mem_change_self (hw : wk ∈ s.workers) (hself : wk.thread.self = id) :
    f wk ∈ (s.change id f).workers :=
  List.mem_map.mpr ⟨wk, hw, if_pos hself⟩

theorem of_mem_change (h : wk ∈ (s.change id f).workers) :
    wk ∈ s.workers ∧ wk.thread.self ≠ id ∨
      ∃ wk₀ ∈ s.workers, wk₀.thread.self = id ∧ wk = f wk₀ := by
  obtain ⟨wk₀, hw, heq⟩ := List.mem_map.mp h
  split_ifs at heq with hself
  · exact Or.inr ⟨wk₀, hw, hself, heq.symm⟩
  · subst heq
    exact Or.inl ⟨hw, hself⟩

/-- The threads stay. -/
theorem nodup_change {α : Type} (g : AesThread → α) (hf : ∀ wk, (f wk).thread = wk.thread)
    (h : (s.workers.map fun wk => g wk.thread).Nodup) :
    ((s.change id f).workers.map fun wk => g wk.thread).Nodup := by
  have hmap : (s.change id f).workers.map (fun wk => g wk.thread) =
      s.workers.map fun wk => g wk.thread := by
    unfold change
    rw [List.map_map]
    refine List.map_congr_left fun wk _ => ?_
    rw [Function.comp_apply]
    split_ifs
    · rw [hf]
    · rfl
  rw [hmap]
  exact h

/-- A worker that does not change. -/
theorem change_self (hf : ∀ wk, f wk = wk) : s.change id f = s := by
  have hmap : s.workers.map (fun wk => if wk.thread.self = id then f wk else wk) = s.workers := by
    refine (List.map_congr_left fun wk _ => ?_).trans (List.map_id s.workers)
    rw [hf, ite_self, id_eq]
  rw [change, hmap]

/-! ## The steps -/

variable {k : Engine} {t : Thread} {x : Faults} {prepared : Bool}

theorem step_call {l : CallStep} {c : Call} (hp : (s.engines k).threads.pc t = .call l c) :
    s.step k t x prepared =
      (s.change t (Worker.step (s.input t) (s.outside k t x).toAnswers
        ((s.engines k).threads.pc t)
        (((s.engines k).threads.step t (s.outside k t x)).pc t))).setEngine k
          ((s.engines k).next ⟨.step t (s.outside k t x), prepared⟩) := by
  have hnews : ∀ s' : Player, (((s.engines k).threads.step t (s.outside k t x)).log.drop
      (s.engines k).threads.log.length).foldl heed s' = s' := by
    intro s'
    rw [aes.step_call _ hp]
    cases l <;> simp only [call_step] <;> (try split_ifs) <;>
      first | exact congrArg (List.foldl heed s') (List.drop_length ..) |
        (change (List.drop _ (_ ++ [_])).foldl heed s' = s'; rw [List.drop_left]; rfl)
  exact hnews _

/-- What a step of a callback does besides its engine. -/
def callback_effect (s : Player) (e : Threads) (b : Callback) (a : Outside) :
    CallbackStep → Player
  | .write_file =>
    let path := e.dma.current_transfer.output_file_path
    { s with files := s.files.write path (a.stream.map (e.dma.bytes b.rx).take) }
  | .invoke => s.change e.dma.current_transfer.callback_param
      fun wk => { wk with told := some (.ok .SUCCESS) }
  | _ => s

theorem step_callback {l : CallbackStep} {b : Callback}
    (hp : (s.engines k).threads.pc t = .callback l b) :
    s.step k t x prepared =
      (s.callback_effect (s.engines k).threads b (s.outside k t x) l).setEngine k
        ((s.engines k).next ⟨.step t (s.outside k t x), prepared⟩) := by
  have hsame : s.change t (Worker.step (s.input t) (s.outside k t x).toAnswers
      ((s.engines k).threads.pc t)
      (((s.engines k).next ⟨.step t (s.outside k t x), prepared⟩).threads.pc t)) = s :=
    change_self fun wk => by rw [hp]; rfl
  have hnews : ∀ s' : Player, (((s.engines k).threads.step t (s.outside k t x)).log.drop
      (s.engines k).threads.log.length).foldl heed s' =
        s'.callback_effect (s.engines k).threads b (s.outside k t x) l := by
    intro s'
    rw [aes.step_callback _ hp]
    cases l <;> simp only [callback_step] <;> (try split_ifs) <;>
      first | exact congrArg (List.foldl heed s') (List.drop_length ..) |
        (change (List.drop _ (_ ++ [_])).foldl heed s' = _; rw [List.drop_left]; rfl)
  have hstep : s.step k t x prepared =
      (((s.engines k).threads.step t (s.outside k t x)).log.drop
        (s.engines k).threads.log.length).foldl heed
          (s.setEngine k ((s.engines k).next ⟨.step t (s.outside k t x), prepared⟩)) := by
    rw [step, hsame]
    rfl
  rw [hstep, hnews]
  cases l <;> rfl

end Player

/-! ## The invariant -/

theorem FileSystem.write_of_ne {path p : String} (bytes : Option Bytes) (fs : FileSystem)
    (hp : p ≠ path) : fs.write path bytes p = fs p := by
  cases bytes with
  | none => rfl
  | some bytes => exact Function.update_of_ne hp _ _

theorem Worker.step_opened (file : Option File) (a : Answers) (p p' : Pc) (wk : Worker) :
    (wk.step file a p p').opened = wk.opened ∨ (wk.step file a p p').opened = file := by
  unfold Worker.step
  split
  · exact Or.inr rfl
  all_goals exact Or.inl rfl

section Invariant

variable (C : BlockCipher) (key : Key) (plain : String → Option Bytes)

/-- A worker has opened a file that was in order, and its temporary file holds a result, not yet
marked, or is not there. -/
structure WorkerOk (fs : FileSystem) (wk : Worker) : Prop where
  same_key : wk.thread.key = key
  onFiles : wk.thread.OnFiles
  temp : plain wk.thread.output_path = none
  fresh : wk.phase = .created → wk.told = none
  contents : ∃ x, plain wk.thread.input_path = some x ∧
    (∀ file ∈ wk.opened, Consistent C key x file) ∧
    (fs wk.thread.output_path = none ∨ ∃ content, Suits C key x content wk.thread.operation ∧
      fs wk.thread.output_path =
        some ⟨result (C.engine wk.thread.operation.engine) key content, false⟩)

structure Inv (s : Player) : Prop where
  files : ∀ p x, plain p = some x → ∃ file, s.files p = some file ∧ Consistent C key x file
  worker : ∀ wk ∈ s.workers, WorkerOk C key plain s.files wk
  selves : (s.workers.map (·.thread.self)).Nodup
  apart : (s.workers.map (·.thread.output_path)).Nodup
  engine : ∀ k, EngineOk C key plain s.workers k (s.engines k).threads

/-! ## The condition -/

/-- What keeps the step of a thread in order. A call that locks while a transfer is under way finds
it marked as busy, a second unlock finds the mutex free, a temporary file that opens is written
completely, and a transfer starts on a file that was marked as its key press found it, and that is
not too long, when the call opened it. -/
structure StepInTime (s : Player) (k : Engine) (t : Thread) (x : Faults) : Prop where
  marked : ((s.engines k).threads.pc t).at .lock = true →
    (s.engines k).threads.Still ∨ (s.engines k).threads.dma.is_busy = true
  free : ((s.engines k).threads.pc t).past = true →
    ((s.engines k).threads.pc t).op = some .unlock → (s.engines k).threads.owner = none
  written : ((s.engines k).threads.pc t).at_callback .write_file = true →
    ∀ n ∈ x.write, ((s.engines k).threads.pc t).rx_size.toNat ≤ n
  suits : ((s.engines k).threads.pc t).at .start = true → 0 ≤ x.twoway →
    ∀ wk ∈ s.worker t, ∀ file ∈ wk.opened,
      file.operation = wk.thread.operation ∧ file.content.length + 15 < 2 ^ 31

/-- The steps of the threads are in time, and no key is pressed on a temporary file. -/
def InTime (s : Player) : Action → Prop
  | .press _ path _ _ => plain path ≠ none
  | .step k t x _ => StepInTime s k t x
  | .call _ | .complete _ _ _ | .report _ | .handle _ _ _ => True

variable {C key plain} {s : Player}

theorem WorkerOk.files_eq {fs fs' : FileSystem} {wk : Worker} (h : WorkerOk C key plain fs wk)
    (he : fs' wk.thread.output_path = fs wk.thread.output_path) : WorkerOk C key plain fs' wk := by
  refine { h with contents := ?_ }
  rw [he]
  exact h.contents

/-- A worker that is changed but for its thread. -/
theorem WorkerOk.change {fs : FileSystem} {wk wk' : Worker} (h : WorkerOk C key plain fs wk)
    (hthread : wk'.thread = wk.thread) (hphase : wk'.phase ≠ .created)
    (hopened : wk'.opened = wk.opened ∨ ∀ x, plain wk.thread.input_path = some x →
      ∀ file ∈ wk'.opened, Consistent C key x file) : WorkerOk C key plain fs wk' := by
  refine ⟨by rw [hthread]; exact h.same_key, by rw [hthread]; exact h.onFiles,
    by rw [hthread]; exact h.temp, fun hc => absurd hc hphase, ?_⟩
  obtain ⟨x, hx, hold, hout⟩ := h.contents
  rw [hthread]
  refine ⟨x, hx, ?_, hout⟩
  rcases hopened with heq | hnew
  · rw [heq]
    exact hold
  · exact hnew x hx

/-- No two workers have one thread. -/
theorem Inv.worker_unique (h : Inv C key plain s) {wk wk' : Worker} (hw : wk ∈ s.workers)
    (hw' : wk' ∈ s.workers) (heq : wk.thread.self = wk'.thread.self) : wk = wk' :=
  List.inj_on_of_nodup_map h.selves hw hw' heq

/-- One engine steps, and the workers of the others stay. -/
theorem engines_ok {k : Engine} {e : Signals} (hself : EngineOk C key plain s.workers k e.threads)
    (hother : ∀ k', k' ≠ k → EngineOk C key plain s.workers k' (s.engines k').threads)
    (k' : Engine) : EngineOk C key plain (s.setEngine k e).workers k'
      ((s.setEngine k e).engines k').threads := by
  change EngineOk C key plain s.workers k' (Function.update s.engines k e k').threads
  by_cases hk : k' = k
  · subst hk
    rw [Function.update_self]
    exact hself
  · rw [Function.update_of_ne hk]
    exact hother k' hk

/-- The workers of an engine stay while one of another engine changes. -/
theorem Inv.others_ok (h : Inv C key plain s) {f : Worker → Worker} {wk : Worker} {k' : Engine}
    (hw : wk ∈ s.workers) (hk : k' ≠ wk.thread.operation.engine) :
    EngineOk C key plain (s.change wk.thread.self f).workers k' (s.engines k').threads := by
  refine (h.engine k').workers fun wk₁ hw₁ hengine _ _ => ?_
  refine Player.mem_change_of_ne hw₁ fun heq => hk ?_
  rw [← h.worker_unique hw₁ hw heq, hengine]

/-- A worker changes, and its thread stays. -/
theorem Inv.change (h : Inv C key plain s) {s' : Player} {id : Ptr} {f : Worker → Worker}
    (hfiles : s'.files = s.files) (hworkers : s'.workers = (s.change id f).workers)
    (hf : ∀ wk, (f wk).thread = wk.thread)
    (hok : ∀ wk ∈ s.workers, wk.thread.self = id → WorkerOk C key plain s.files (f wk))
    (hengine : ∀ k, EngineOk C key plain s'.workers k (s'.engines k).threads) :
    Inv C key plain s' := by
  refine ⟨by rw [hfiles]; exact h.files, ?_, ?_, ?_, hengine⟩
  · intro wk' hw'
    rw [hworkers] at hw'
    rw [hfiles]
    rcases Player.of_mem_change hw' with ⟨hold, -⟩ | ⟨wk, hw, hself, rfl⟩
    · exact h.worker wk' hold
    · exact hok wk hw hself
  · rw [hworkers]
    exact Player.nodup_change AesThread.self hf h.selves
  · rw [hworkers]
    exact Player.nodup_change AesThread.output_path hf h.apart

/-! ## The steps of the invariant -/

theorem inv_press {op : Operation} {path tmp : String} {id : Ptr} (h : Inv C key plain s)
    (he : s.Enabled C (.press op path tmp id)) (ht : InTime plain s (.press op path tmp id)) :
    Inv C key plain (s.next key (.press op path tmp id)) := by
  obtain ⟨hfile, hid, -, -, htmp, hnamed, hfresh⟩ := he
  obtain ⟨file, -, hsuits⟩ := Option.map_eq_some_iff.mp hfile
  have hop : op = .ENCRYPT ∨ op = .DECRYPT := by
    rw [← hsuits, File.operation]
    cases file.is_encrypted <;> simp
  have htemp : plain tmp = none := by
    by_contra hne
    obtain ⟨x, hx⟩ := Option.ne_none_iff_exists'.mp hne
    obtain ⟨f, hf, -⟩ := h.files tmp x hx
    rw [htmp] at hf
    cases hf
  obtain ⟨x, hx⟩ := Option.ne_none_iff_exists'.mp ht
  refine ⟨h.files, ?_, ?_, ?_, ?_⟩
  · intro wk hw
    rcases List.mem_append.mp hw with hold | hnew
    · exact h.worker wk hold
    · rw [List.mem_singleton] at hnew
      subst hnew
      exact ⟨rfl, ⟨hop, hnamed⟩, htemp, fun _ => rfl, x, hx, nofun, Or.inl htmp⟩
  · change ((s.workers ++ [_]).map _).Nodup
    rw [List.map_append, List.nodup_append]
    refine ⟨h.selves, List.nodup_singleton _, ?_⟩
    intro a ha b hb
    obtain ⟨wk, hw, rfl⟩ := List.mem_map.mp ha
    rw [List.map_singleton, List.mem_singleton] at hb
    subst hb
    exact hid wk hw
  · change ((s.workers ++ [_]).map _).Nodup
    rw [List.map_append, List.nodup_append]
    refine ⟨h.apart, List.nodup_singleton _, ?_⟩
    intro a ha b hb
    obtain ⟨wk, hw, rfl⟩ := List.mem_map.mp ha
    rw [List.map_singleton, List.mem_singleton] at hb
    subst hb
    exact hfresh wk hw
  · intro k
    exact (h.engine k).workers fun wk hw _ _ _ => List.mem_append_left _ hw

theorem inv_call {id : Ptr} (h : Inv C key plain s) (he : s.Enabled C (.call id)) :
    Inv C key plain (s.next key (.call id)) := by
  obtain ⟨wk, hwk, hcreated, he⟩ := he
  obtain ⟨hw, rfl⟩ := Player.mem_of_worker hwk
  have hnext : s.next key (.call wk.thread.self) =
      (s.change wk.thread.self ({ · with phase := .called })).setEngine wk.thread.operation.engine
        ((s.engines wk.thread.operation.engine).next
          ⟨.call wk.thread.self wk.thread.request, false⟩) := by
    simp only [Player.next, show s.worker wk.thread.self = some wk from hwk]
  have hnot : ∀ wk₁ ∈ s.workers, wk₁.thread.self = wk.thread.self → wk₁.phase ≠ .called := by
    intro wk₁ hw₁ heq hcalled
    obtain rfl := h.worker_unique hw₁ hw heq
    rw [hcreated] at hcalled
    cases hcalled
  rw [hnext]
  refine h.change rfl rfl (fun _ => rfl) ?_ ?_
  · exact fun wk₁ hw₁ _ => (h.worker wk₁ hw₁).change rfl nofun (Or.inl rfl)
  · refine engines_ok ?_ fun k' hk => h.others_ok hw hk
    have hcalled : { wk with phase := .called } ∈
        (s.change wk.thread.self ({ · with phase := .called })).workers :=
      Player.mem_change_self hw rfl
    refine (h.engine _).call he.1 ?_ hcalled rfl rfl rfl rfl
      ((h.worker wk hw).fresh hcreated) hnot
    intro wk₁ hw₁ hcase
    refine Player.mem_change_of_ne hw₁ fun heq => ?_
    rcases hcase with hne | hphase
    · exact hne heq
    · exact hnot wk₁ hw₁ heq hphase

/-- The file of a worker is in order. -/
theorem Inv.input_eq (h : Inv C key plain s) {wk : Worker} (hw : wk ∈ s.workers) {x₀ : Bytes}
    (hx : plain wk.thread.input_path = some x₀) :
    ∃ file, s.input wk.thread.self = some file ∧ Consistent C key x₀ file := by
  obtain ⟨file, hfile, hcons⟩ := h.files _ _ hx
  refine ⟨file, ?_, hcons⟩
  rw [Player.input, Player.worker_eq h.selves hw rfl]
  exact hfile

/-- The answers to a call are about the file of its worker. -/
theorem Inv.answered (h : Inv C key plain s) {k : Engine} {t : Thread} {x : Faults} {l : CallStep}
    {c : Call} {wk : Worker} (hp : (s.engines k).threads.pc t = .call l c)
    (hw : CallOf plain s.workers k (s.engines k).threads.dma.memory t l c wk)
    (ht : StepInTime s k t x) : Answered C key plain (s.outside k t x) (s.input t) l wk := by
  have hself := hw.self
  subst hself
  have hworker := Player.worker_eq h.selves hw.here rfl
  obtain ⟨x₀, hx₀, hopened, -⟩ := (h.worker wk hw.here).contents
  obtain ⟨file, hfile, hcons⟩ := h.input_eq hw.here hx₀
  refine ⟨?_, ?_, ?_, ?_⟩
  · intro x₁ hx₁ n hn
    obtain rfl : x₀ = x₁ := Option.some.inj (hx₀.symm.trans hx₁)
    change n ∈ (if x.file_size then (s.input wk.thread.self).map (·.content.length) else none) at hn
    rw [hfile] at hn
    split_ifs at hn
    · obtain rfl : file.content.length = n := Option.some.inj hn
      exact aligned_of_suits hcons
    · cases hn
  · intro _ _
    rw [hfile]
    nofun
  · rintro rfl
    simp only [Player.outside, hp, Pc.at, hworker, beq_self_eq_true, if_true, Option.bind_some]
  · rintro rfl htwo opened hmem
    obtain ⟨hop, hlen⟩ := ht.suits (by rw [hp]; rfl) htwo wk hworker opened hmem
    refine ⟨⟨x₀, hx₀, ?_⟩, hlen⟩
    rw [← hop]
    exact hopened opened hmem

theorem inv_step_call {k : Engine} {t : Thread} {x : Faults} {prepared : Bool} {l : CallStep}
    {c : Call} (h : Inv C key plain s) (he : s.Enabled C (.step k t x prepared))
    (ht : StepInTime s k t x) (hp : (s.engines k).threads.pc t = .call l c) :
    Inv C key plain (s.next key (.step k t x prepared)) := by
  obtain ⟨wk, hw⟩ := (h.engine k).calls t l c hp
  have ha := h.answered hp hw ht
  have hwk := h.worker wk hw.here
  obtain ⟨x₀, hx₀, -⟩ := hwk.contents
  have hbuf : ∀ r ∈ ((s.engines k).threads.pc t).request, r.output_buffer = 0 := by
    intro r hr
    rw [hp] at hr
    obtain rfl : c.request = r := Option.some.inj hr
    rw [hw.request, hwk.onFiles.request_eq]
  have hnext : s.next key (.step k t x prepared) = s.step k t x prepared := rfl
  rw [hnext, Player.step_call hp]
  refine h.change rfl rfl (fun _ => Worker.step_thread ..) ?_ ?_
  · intro wk₁ hw₁ hself
    obtain rfl := h.worker_unique hw₁ hw.here (hself.trans hw.self.symm)
    refine (h.worker wk₁ hw₁).change (Worker.step_thread ..) ?_ ?_
    · rw [Worker.step_phase, hw.phase]
      nofun
    · refine (Worker.step_opened ..).imp_right fun heq x₁ hx₁ file hfile => ?_
      obtain ⟨file₁, hfile₁, hcons⟩ := h.input_eq hw₁ hx₁
      rw [heq, ← hself, hfile₁] at hfile
      obtain rfl := Option.some.inj hfile
      exact hcons
  · refine engines_ok ?_ fun k' hk => ?_
    · exact (h.engine k).call_step h.selves he.1 hp
        ((h.engine k).arranged.step he.1 ht.marked ht.free hbuf) hw ha
        (fun u hu hne => Player.mem_change_of_ne hu hne) (Player.mem_change_self hw.here hw.self)
        hwk.same_key hwk.onFiles hx₀
    · rw [← hw.self]
      exact h.others_ok hw.here (by rw [hw.engine]; exact hk)

/-- What a callback puts into the temporary file: the whole result, or the file is not opened. -/
theorem EngineOk.written {ws : List Worker} {k : Engine} {e : Threads} {t : Thread} {b : Callback}
    (h : EngineOk C key plain ws k e) (hp : e.pc t = .callback .write_file b) (w : StreamWrite)
    (hfull : ∀ n ∈ w, b.rx.size.toNat ≤ n) : ∃ wk content, Waits ws k e wk ∧
      Input C key plain wk content ∧ (w.of_size b.rx.size).map (e.dma.bytes b.rx).take =
        w.map fun _ => result (C.engine k) key content := by
  obtain ⟨wk, content, hw, hin, hrx⟩ := h.calls_back t .write_file b hp (by decide)
  obtain ⟨log, r, fl, out, base, hcb⟩ := h.arranged.calling_back hp
  have hbytes : e.dma.bytes b.rx = out := hcb.bytes (by decide) (by decide)
  have hout : out = result (C.engine k) key content := by
    have hmem : e.dma.memory fl.rx_buffer = out := hcb.contents (by decide)
    have hcur : e.dma.current_transfer = .of r fl := hcb.current
    rw [← hmem, ← hrx (by decide), hcur]
    rfl
  have hsize : out.length = b.rx.size.toNat := by
    rw [hcb.full, hcb.found_rx (by decide)]
  have hlen := length_result (C.engine k) key content
  have hpad := add_padding (k := 16) (by omega) content.length
  have hbound := hin.2
  refine ⟨wk, content, hw, hin, ?_⟩
  rw [hbytes, StreamWrite.of_size_take hsize (by rw [← hsize, hout, hlen]; omega), ← hout]
  cases w with
  | none => rfl
  | some n =>
    have hle := hfull n rfl
    rw [Option.map_some, Option.map_some, List.take_of_length_le (by omega)]

/-- The user callback tells the worker. -/
theorem inv_told {k : Engine} {t : Thread} {b : Callback} {a : Outside} {prepared : Bool}
    (h : Inv C key plain s) (he : (s.engines k).threads.Enabled (.step t a))
    (hp : (s.engines k).threads.pc t = .callback .invoke b)
    (hnext : Arranged ((s.engines k).threads.step t a)) :
    Inv C key plain ((s.callback_effect (s.engines k).threads b a .invoke).setEngine k
      ((s.engines k).next ⟨.step t a, prepared⟩)) := by
  obtain ⟨wk, content, hw, -, -⟩ := (h.engine k).calls_back t .invoke b hp (by decide)
  rw [Player.callback_effect, hw.param]
  refine h.change rfl rfl (fun _ => rfl) ?_ ?_
  · intro wk₁ hw₁ hself
    obtain rfl := h.worker_unique hw₁ hw.here hself
    refine (h.worker wk₁ hw₁).change rfl (fun hc => ?_) (Or.inl rfl)
    cases hw.phase.symm.trans hc
  · refine engines_ok ((h.engine k).callback_step h.selves he hp hnext ?_ ?_) fun k' hk => ?_
    · intro u hu hcase
      refine Player.mem_change_of_ne hu ?_
      rw [← hw.param]
      exact hcase.resolve_left (not_not.mpr rfl)
    · intro u hu
      by_cases heq : u.thread.self = wk.thread.self
      · exact ⟨_, Player.mem_change_self hu heq, rfl, rfl⟩
      · exact ⟨u, Player.mem_change_of_ne hu heq, rfl, rfl⟩
    · exact h.others_ok hw.here (by rw [hw.engine]; exact hk)

/-- The result, or nothing, goes into the temporary file of a worker. -/
theorem Inv.write (h : Inv C key plain s) {wk : Worker} {content : Bytes} (hw : wk ∈ s.workers)
    (hin : Input C key plain wk content) (w : StreamWrite) :
    Inv C key plain { s with files := s.files.write wk.thread.output_path
                               (w.map fun _ =>
                                 result (C.engine wk.thread.operation.engine) key content) } := by
  have htemp := (h.worker wk hw).temp
  refine ⟨?_, ?_, h.selves, h.apart, h.engine⟩
  · intro p y hy
    obtain ⟨file, hfile, hcons⟩ := h.files p y hy
    refine ⟨file, (FileSystem.write_of_ne _ s.files ?_).trans hfile, hcons⟩
    rintro rfl
    rw [htemp] at hy
    cases hy
  · intro wk' hw'
    by_cases heq : wk'.thread.output_path = wk.thread.output_path
    · obtain rfl := List.inj_on_of_nodup_map h.apart hw' hw heq
      have hold := h.worker wk' hw'
      refine { hold with contents := ?_ }
      obtain ⟨x₀, hx₀, hopened, hout⟩ := hold.contents
      obtain ⟨x₁, hx₁, hsuits⟩ := hin.1
      obtain rfl : x₀ = x₁ := Option.some.inj (hx₀.symm.trans hx₁)
      refine ⟨x₀, hx₀, hopened, ?_⟩
      cases w with
      | none => exact hout
      | some n =>
        -- a file that is there before is not marked
        have hmark : (s.files wk'.thread.output_path).elim false File.is_encrypted = false := by
          rcases hout with hnone | ⟨content', -, hsome⟩
          · rw [hnone]; rfl
          · rw [hsome]; rfl
        refine Or.inr ⟨content, hsuits, ?_⟩
        change Function.update s.files _ _ _ = _
        rw [Function.update_self, hmark]
    · exact (h.worker wk' hw').files_eq (FileSystem.write_of_ne _ s.files heq)

theorem inv_step_callback {k : Engine} {t : Thread} {x : Faults} {prepared : Bool}
    {l : CallbackStep} {b : Callback} (h : Inv C key plain s)
    (he : s.Enabled C (.step k t x prepared)) (ht : StepInTime s k t x)
    (hp : (s.engines k).threads.pc t = .callback l b) :
    Inv C key plain (s.next key (.step k t x prepared)) := by
  have harranged : Arranged ((s.engines k).threads.step t (s.outside k t x)) := by
    refine (h.engine k).arranged.step he.1 ht.marked ht.free fun r hr => ?_
    rw [hp] at hr
    cases hr
  have hnext : s.next key (.step k t x prepared) = s.step k t x prepared := rfl
  rw [hnext, Player.step_callback hp]
  -- a step that tells no worker
  have hquiet : l ≠ .invoke → ∀ s' : Player, Inv C key plain s' → s'.workers = s.workers →
      s'.engines = s.engines → Inv C key plain (s'.setEngine k
        ((s.engines k).next ⟨.step t (s.outside k t x), prepared⟩)) := by
    intro hne s' h' hws hes
    refine ⟨h'.files, h'.worker, h'.selves, h'.apart, engines_ok ?_ fun k' _ => h'.engine k'⟩
    rw [hws]
    exact (h.engine k).callback_step h.selves he.1 hp harranged (fun u hu _ => hu)
      (fun u hu => ⟨u, hu, rfl, rfl⟩)
  cases l with
  | invoke => exact inv_told h he.1 hp harranged
  | write_file =>
    have hsize : ((s.engines k).threads.pc t).rx_size = b.rx.size := by rw [hp]; rfl
    obtain ⟨wk, content, hw, hin, hbytes⟩ := (h.engine k).written hp x.write fun n hn => by
      have hle := ht.written (by rw [hp]; rfl) n hn
      rwa [hsize] at hle
    have hstream : (s.outside k t x).stream = x.write.of_size b.rx.size := by
      rw [Player.outside, hsize]
    refine hquiet nofun _ ?_ rfl rfl
    rw [Player.callback_effect, hstream, hbytes, hw.path, ← hw.engine]
    exact h.write hw.here hin x.write
  | _ => exact hquiet nofun s h rfl rfl

theorem inv_step {k : Engine} {t : Thread} {x : Faults} {prepared : Bool} (h : Inv C key plain s)
    (he : s.Enabled C (.step k t x prepared)) (ht : StepInTime s k t x) :
    Inv C key plain (s.next key (.step k t x prepared)) := by
  cases hp : (s.engines k).threads.pc t with
  | outside => exact absurd hp he.1.1
  | call l c => exact inv_step_call h he ht hp
  | callback l b => exact inv_step_callback h he ht hp

theorem inv_complete {k : Engine} {t : Thread} {out : Bytes} (h : Inv C key plain s)
    (he : s.Enabled C (.complete k t out)) :
    Inv C key plain (s.next key (.complete k t out)) :=
  ⟨h.files, h.worker, h.selves, h.apart,
    engines_ok ((h.engine k).complete he.1.1 he.2.2 he.2.1) fun k' _ => h.engine k'⟩

theorem inv_report {id : Ptr} (h : Inv C key plain s) (he : s.Enabled C (.report id)) :
    Inv C key plain (s.next key (.report id)) := by
  obtain ⟨wk, hwk, -, htold, hout, -⟩ := he
  obtain ⟨hw, rfl⟩ := Player.mem_of_worker hwk
  refine h.change rfl rfl (fun _ => rfl) ?_ ?_
  · exact fun wk₁ hw₁ _ => (h.worker wk₁ hw₁).change rfl nofun (Or.inl rfl)
  · intro k
    refine (h.engine k).workers fun wk₁ hw₁ hengine _ hbusy =>
      Player.mem_change_of_ne hw₁ fun heq => ?_
    obtain rfl := h.worker_unique hw₁ hw heq
    rcases hbusy with hnone | hin
    · rw [hnone] at htold
      cases htold
    · rw [hengine] at hout
      exact hin hout

/-- The handling leaves a file that is in order. -/
theorem WorkerOk.handled {fs : FileSystem} {wk : Worker} (h : WorkerOk C key plain fs wk)
    {p : String} {y : Bytes} (hy : plain p = some y) {file : File} (hfile : fs p = some file)
    (hcons : Consistent C key y file) (res : Except Thrown OperationResult) (sx rn : Bool) :
    ∃ file, ui_handle wk.thread res sx rn fs p = some file ∧ Consistent C key y file := by
  obtain ⟨x, hx, -, hout⟩ := h.contents
  have htemp := h.temp
  have hop := h.onFiles.op
  have hne : wk.thread.input_path ≠ wk.thread.output_path := by
    intro heq
    rw [heq, htemp] at hx
    cases hx
  by_cases hin : p = wk.thread.input_path
  · subst hin
    obtain rfl : x = y := Option.some.inj (hx.symm.trans hy)
    rcases hout with hnone | ⟨content, hsuits, hout⟩
    · exact ⟨file, (ui_handle_none wk.thread res sx rn hnone hne).trans hfile, hcons⟩
    · rcases res with e | _ | _ | _
      · exact ⟨file, hfile, hcons⟩
      · rcases ui_handle_some hop sx rn hout hne with hk | hk
        · exact ⟨file, hk.trans hfile, hcons⟩
        · exact ⟨_, hk, consistent_result hop hsuits⟩
      · exact ⟨file, hfile, hcons⟩
      · exact ⟨file, hfile, hcons⟩
  · have hnot : p ≠ wk.thread.output_path := by
      rintro rfl
      rw [htemp] at hy
      cases hy
    exact ⟨file, (ui_handle_frame wk.thread res sx rn fs hin hnot).trans hfile, hcons⟩

theorem inv_handle {id : Ptr} {sx rn : Bool} (h : Inv C key plain s)
    (he : s.Enabled C (.handle id sx rn)) : Inv C key plain (s.next key (.handle id sx rn)) := by
  obtain ⟨wk, hwk, hreported⟩ := he
  obtain ⟨hw, rfl⟩ := Player.mem_of_worker hwk
  have hwork := h.worker wk hw
  obtain ⟨x, hx, -⟩ := hwork.contents
  have hnext : s.next key (.handle wk.thread.self sx rn) =
      { s with
        files := wk.told.elim s.files fun res => ui_handle wk.thread res sx rn s.files
        workers := s.workers.filter fun wk' => wk'.thread.self != wk.thread.self } := by
    simp only [Player.next, show s.worker wk.thread.self = some wk from hwk]
  rw [hnext]
  refine ⟨?_, ?_, ?_, ?_, ?_⟩
  · intro p y hy
    obtain ⟨file, hfile, hcons⟩ := h.files p y hy
    cases wk.told with
    | none => exact ⟨file, hfile, hcons⟩
    | some res => exact hwork.handled hy hfile hcons res sx rn
  · intro wk' hw'
    obtain ⟨hw', hne⟩ := List.mem_filter.mp hw'
    have hne' : wk' ≠ wk := by
      rintro rfl
      simp at hne
    refine (h.worker wk' hw').files_eq ?_
    cases wk.told with
    | none => rfl
    | some res =>
      refine ui_handle_frame wk.thread res sx rn s.files ?_ ?_
      · intro heq
        have htemp := (h.worker wk' hw').temp
        rw [heq, hx] at htemp
        cases htemp
      · exact fun heq => hne' (List.inj_on_of_nodup_map h.apart hw' hw heq)
  · exact h.selves.sublist (List.filter_sublist.map _)
  · exact h.apart.sublist (List.filter_sublist.map _)
  · intro k
    refine (h.engine k).workers fun wk₁ hw₁ _ hphase _ => List.mem_filter.mpr ⟨hw₁, ?_⟩
    rw [bne_iff_ne]
    intro heq
    obtain rfl := h.worker_unique hw₁ hw heq
    rw [hreported] at hphase
    cases hphase

/-- Every step in time keeps the invariant. -/
theorem inv_next {a : Action} (h : Inv C key plain s) (he : s.Enabled C a)
    (ht : InTime plain s a) : Inv C key plain (s.next key a) := by
  cases a with
  | press op path tmp id => exact inv_press h he ht
  | call id => exact inv_call h he
  | step k t x prepared => exact inv_step h he ht
  | complete k t out => exact inv_complete h he
  | report id => exact inv_report h he
  | handle id sx rn => exact inv_handle h he

end Invariant

/-! ## The law -/

section Law

variable (C : BlockCipher) (key : Key) (plain : String → Option Bytes)

/-- A directory of plain and encrypted files, with no thread and no transfer. -/
structure Starting (s : Player) : Prop where
  files : ∀ p x, plain p = some x → s.files p = some ⟨x, false⟩ ∨
    s.files p = some ⟨result C.cipher key x, true⟩
  workers : s.workers = []
  engines : ∀ k, (s.engines k).Initial

variable {C key plain}

theorem EngineOk.initial {ws : List Worker} {k : Engine} {e : Threads} (h : e.Initial) :
    EngineOk C key plain ws k e := by
  refine ⟨.initial h, ?_, ?_, ?_⟩
  · intro t l c hp
    rw [h.pc] at hp
    cases hp
  · intro fl hfl
    rw [h.in_flight] at hfl
    cases hfl
  · intro t l b hp
    rw [h.pc] at hp
    cases hp

theorem Starting.inv {s : Player} (h : Starting C key plain s) : Inv C key plain s := by
  have hworkers := h.workers
  refine ⟨?_, ?_, ?_, ?_, fun k => .initial (h.engines k).threads⟩
  · intro p x hx
    rcases h.files p x hx with hf | hf
    · exact ⟨_, hf, .self⟩
    · exact ⟨_, hf, x, .self, rfl⟩
  · rw [hworkers]
    exact List.forall_mem_nil _
  · rw [hworkers]
    exact List.nodup_nil
  · rw [hworkers]
    exact List.nodup_nil

/-- In every run whose steps come in time, every file is marked as encrypted exactly when it is
one encryption of its plain text, and every transfer works on the input that its operation
needs. -/
theorem the_mark_tells_the_content {s₀ s : Player} {tr : List (Player × Action)}
    (h₀ : Starting C key plain s₀) (h : traces.Run (player C key) (InTime plain) s₀ tr s) :
    (∀ p x, plain p = some x → ∃ file, s.files p = some file ∧ Consistent C key x file ∧
      if file.is_encrypted then file.content = result C.cipher key x
      else file.content = x ∨ file.content = x ++ List.replicate (padding 16 x.length) 0) ∧
    (∀ k, ∀ fl ∈ (s.engines k).threads.in_flight, ∃ wk ∈ s.workers, ∃ x content,
      wk.thread.operation.engine = k ∧ plain wk.thread.input_path = some x ∧
        Suits C key x content wk.thread.operation ∧
        (s.engines k).threads.dma.memory fl.tx_buffer =
          key.val ++ (content ++ List.replicate (padding 16 content.length) 0)) := by
  have hinv : Inv C key plain s := h.inv h₀.inv fun _ _ => inv_next
  constructor
  · intro p x hx
    obtain ⟨file, hfile, hcons⟩ := hinv.files p x hx
    exact ⟨file, hfile, hcons, content_of_consistent hcons⟩
  · intro k fl hfl
    obtain ⟨wk, content, hw, hin, htx, -⟩ := (hinv.engine k).flies fl hfl
    obtain ⟨x, hx, hsuits⟩ := hin.1
    exact ⟨wk, hw.here, x, content, hw.engine, hx, hsuits, htx⟩

end Law

/-! ### One song -/

def onlySong (path : String) : Option Bytes := if path = "song" then some song.content else none

/-- A plain song, and two engines after `init`. -/
def atRest : Player := ⟨directory, fun _ => silent, []⟩

theorem atRest_starting : Starting shifts request.key onlySong atRest := by
  refine ⟨?_, rfl, fun _ => silent_initial⟩
  intro p x hx
  unfold onlySong at hx
  split_ifs at hx with hp
  · subst hp
    obtain rfl := Option.some.inj hx
    exact Or.inl rfl

/-- The steps of the thread `id` that encrypts, up to the start of its transfer. -/
def encrypting (id : Thread) (n : ℕ) : List Action :=
  List.replicate n (.step .cipher id (writes 16) true)

/-- The transfer sends `out`, its handler `h` runs, and the UI replaces the file. -/
def replacing (id h : Thread) (out : Bytes) : List Action :=
  [.complete .cipher h out] ++ List.replicate 13 (.step .cipher h (writes 16) false) ++
    [.report id, .handle id true true]

/-- In time, and not a lock. -/
def NoLock (s : Player) : Action → Prop
  | .press _ path _ _ => onlySong path ≠ none
  | .step k t x _ =>
    ((s.engines k).threads.pc t).at .lock = false ∧
      (((s.engines k).threads.pc t).past = true → ((s.engines k).threads.pc t).op = some .unlock →
        (s.engines k).threads.owner = none) ∧
      (((s.engines k).threads.pc t).at_callback .write_file = true →
        ∀ n ∈ x.write, ((s.engines k).threads.pc t).rx_size.toNat ≤ n) ∧
      (((s.engines k).threads.pc t).at .start = true → 0 ≤ x.twoway →
        ∀ wk ∈ s.worker t, ∀ file ∈ wk.opened,
          file.operation = wk.thread.operation ∧ file.content.length + 15 < 2 ^ 31)
  | .call _ | .complete _ _ _ | .report _ | .handle _ _ _ => True

instance (s : Player) : (a : Action) → Decidable (NoLock s a)
  | .press _ _ _ _ => inferInstanceAs (Decidable (_ ≠ _))
  | .step _ _ _ _ => inferInstanceAs (Decidable (_ ∧ _))
  | .call _ | .complete _ _ _ | .report _ | .handle _ _ _ => inferInstanceAs (Decidable True)

theorem NoLock.inTime {s : Player} {a : Action} (h : NoLock s a) : InTime onlySong s a := by
  cases a with
  | press op path tmp id => exact h
  | step k t x prepared =>
    refine ⟨fun hat => ?_, h.2.1, h.2.2.1, h.2.2.2⟩
    rw [h.1] at hat
    cases hat
  | call id => trivial
  | complete k t out => trivial
  | report id => trivial
  | handle id sx rn => trivial

/-- One key press, and its thread before the lock. -/
def beforeLock : Player := (player shifts request.key).after atRest
  ([.press .ENCRYPT "song" "tmp" 1, .call 1] ++ encrypting 1 1)

/-- The thread has locked, and the rest of its operation follows. -/
def replaced : Player :=
  (player shifts request.key).after
    (beforeLock.next request.key (.step .cipher 1 (writes 16) true))
    (encrypting 1 25 ++ replacing 1 3 (result shifts.cipher request.key song.content))

theorem beforeLock_still : (beforeLock.engines .cipher).threads.Still := by
  refine ⟨rfl, fun t => ?_⟩
  by_cases ht : t = 1
  · subst ht
    rfl
  · change (Function.update (Function.update (fun _ => Pc.outside) 1 _) 1 _ t).active = false
    rw [Function.update_of_ne ht, Function.update_of_ne ht]
    rfl

theorem replaced_run : ∃ tr,
    traces.Run (player shifts request.key) (InTime onlySong) atRest tr replaced := by
  have hbefore : traces.Run (player shifts request.key) NoLock atRest _ beforeLock :=
    System.run_of_enables (by decide +kernel) (by decide +kernel)
  have hlock : InTime onlySong beforeLock (.step .cipher 1 (writes 16) true) :=
    ⟨fun _ => Or.inl beforeLock_still, by decide +kernel, by decide +kernel, by decide +kernel⟩
  have hafter : traces.Run (player shifts request.key) NoLock
      (beforeLock.next request.key (.step .cipher 1 (writes 16) true)) _ replaced :=
    System.run_of_enables (by decide +kernel) (by decide +kernel)
  have hlocked := traces.Run.step (M := player shifts request.key) _
    (hbefore.mono fun _ _ => NoLock.inTime) (by decide +kernel) hlock
  exact ⟨_, hlocked.append (hafter.mono fun _ _ => NoLock.inTime)⟩

/-- With one key press the mark tells the content. -/
theorem one_press_keeps_the_mark :
    replaced.files "song" = some ⟨result shifts.cipher request.key song.content, true⟩ ∧
    (∀ p x, onlySong p = some x → ∃ file, replaced.files p = some file ∧
      Consistent shifts request.key x file ∧
      if file.is_encrypted then file.content = result shifts.cipher request.key x
      else file.content = x ∨ file.content = x ++ List.replicate (padding 16 x.length) 0) ∧
    (∀ k, ∀ fl ∈ (replaced.engines k).threads.in_flight, ∃ wk ∈ replaced.workers, ∃ x content,
      wk.thread.operation.engine = k ∧ onlySong wk.thread.input_path = some x ∧
        Suits shifts request.key x content wk.thread.operation ∧
        (replaced.engines k).threads.dma.memory fl.tx_buffer =
          request.key.val ++ (content ++ List.replicate (padding 16 content.length) 0)) := by
  obtain ⟨tr, hrun⟩ := replaced_run
  exact ⟨by decide +kernel, the_mark_tells_the_content atRest_starting hrun⟩

/-- Two key presses before the first thread opens the song. The second thread opens it when the
first result has replaced it. -/
def twice : List Action :=
  [.press .ENCRYPT "song" "tmp" 1, .press .ENCRYPT "song" "tmq" 2] ++
    (.call 1 :: encrypting 1 27) ++
    replacing 1 3 (result shifts.cipher request.key song.content) ++
    (.call 2 :: encrypting 2 27) ++
    replacing 2 4 (result shifts.cipher request.key
      (result shifts.cipher request.key song.content))

/-- The song is encrypted twice. -/
theorem two_presses_encrypt_twice :
    let s := (player shifts request.key).after atRest twice
    Starting shifts request.key onlySong atRest ∧
      traces.Run (player shifts request.key) (fun _ _ => True) atRest
        ((player shifts request.key).trace atRest twice) s ∧
      s.files "song" = some ⟨result shifts.cipher request.key
        (result shifts.cipher request.key song.content), true⟩ ∧
      ¬ ∃ file, s.files "song" = some file ∧
        Consistent shifts request.key song.content file := by
  intro s
  have hrun : traces.Run (player shifts request.key) (fun _ _ => True) atRest
      ((player shifts request.key).trace atRest twice) s :=
    System.run_of_enables (by decide +kernel) fun _ _ => trivial
  have hfile : s.files "song" = some ⟨result shifts.cipher request.key
      (result shifts.cipher request.key song.content), true⟩ := by decide +kernel
  refine ⟨atRest_starting, hrun, hfile, ?_⟩
  rintro ⟨file, hf, hcons⟩
  obtain rfl := Option.some.inj (hfile.symm.trans hf)
  have hcontent := content_of_consistent hcons
  revert hcontent
  decide +kernel

end aes
