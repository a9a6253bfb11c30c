-- The end of `aes_thread::run`: after it has started the transfer, it waits
-- for the callback. The driver sends the signal of the completion to this very
-- thread, so `_dma_callback` and `_dma_complete_callback` run on top of it.
import AesMusicPlayer.FileReplace
import AesMusicPlayer.Traces

open traces aes

namespace aes_thread

/-! ## The steps -/

/-- The boundaries between the instructions of `run`, from the start of the transfer on. In
`waiting` the thread is inside `pthread_cond_wait` without the mutex, in `wake` it takes the
mutex again. -/
inductive RunStep
  | start | test_ret | last_unlock | lock | test_status | wait | waiting | wake | unlock
  | send_results
  deriving DecidableEq, Repr

/-- The steps of the handler: `_dma_callback`, with `_dma_complete_callback` inside. -/
inductive HandlerStep
  | write_output | lock_state | free_memories | clear_busy | lock_aes | set_status | cond_signal
  | unlock_aes | unlock_state
  deriving DecidableEq, Repr

/-- The owner of a mutex: the code of `run`, the handler on top of it, or another thread. -/
inductive Owner
  | run | handler | other
  deriving DecidableEq, Repr

structure State where
  pc : RunStep
  handler : Option HandlerStep
  /-- what the callback is told, once the signal has come -/
  is_success : Option Bool
  operation_status : OperationResult
  aes_mutex : Option Owner
  state_mutex : Option Owner
  /-- a signal on `_aes_cond` that the wait has not taken yet -/
  woken : Bool
  deriving DecidableEq

/-- The transfer is started, and `state_mutex` is unlocked. -/
def State.initial : State := ⟨.start, none, none, .BUSY, none, none, false⟩

/-- What can happen: an instruction of `run` or of the handler, the signal with the outcome of
the transfer, a spurious wake-up, and what other threads do to `state_mutex`. -/
inductive Action
  | run | handler | signal (is_success : Bool) | spurious | other_lock | other_unlock
  deriving DecidableEq

def result (is_success : Bool) : OperationResult := if is_success then .SUCCESS else .FAILED

/-- `run` goes on only when no handler is on top of it. -/
def Enabled (s : State) : Action → Prop
  | .run => s.handler = none ∧
    match s.pc with
    | .lock | .wake => s.aes_mutex = none
    | .waiting => s.woken = true
    | .send_results => False
    | _ => True
  | .handler =>
    match s.handler with
    | none => False
    | some .lock_state => s.state_mutex = none
    | some .lock_aes => s.aes_mutex = none
    | some _ => True
  | .signal _ => s.is_success = none
  | .spurious => s.handler = none ∧ s.pc = .waiting ∧ s.woken = false
  | .other_lock => s.state_mutex = none
  | .other_unlock => True

instance (s : State) (a : Action) : Decidable (Enabled s a) := by
  unfold Enabled
  cases a
  · cases s.pc <;> exact inferInstance
  · rcases s.handler with _ | h
    · exact inferInstance
    · cases h <;> exact inferInstance
  all_goals exact inferInstance

/-- The unlock after the start is one too many. It frees the mutex, whoever owns it. -/
def run_step (s : State) : State :=
  match s.pc with
  | .start => { s with pc := .test_ret }
  | .test_ret => { s with pc := .last_unlock }
  | .last_unlock => { s with state_mutex := none, pc := .lock }
  | .lock => { s with aes_mutex := some .run, pc := .test_status }
  | .test_status => { s with pc := if s.operation_status = .BUSY then .wait else .unlock }
  | .wait => { s with aes_mutex := none, pc := .waiting }
  | .waiting => { s with woken := false, pc := .wake }
  | .wake => { s with aes_mutex := some .run, pc := .test_status }
  | .unlock => { s with aes_mutex := none, pc := .send_results }
  | .send_results => s

/-- A signal on `_aes_cond` is lost when nobody waits. -/
def handler_step (s : State) : HandlerStep → State
  | .write_output => { s with handler := some .lock_state }
  | .lock_state => { s with state_mutex := some .handler, handler := some .free_memories }
  | .free_memories => { s with handler := some .clear_busy }
  | .clear_busy => { s with handler := some .lock_aes }
  | .lock_aes => { s with aes_mutex := some .handler, handler := some .set_status }
  | .set_status =>
    { s with operation_status := result (s.is_success.getD false), handler := some .cond_signal }
  | .cond_signal => { s with woken := decide (s.pc = .waiting), handler := some .unlock_aes }
  | .unlock_aes => { s with aes_mutex := none, handler := some .unlock_state }
  | .unlock_state => { s with state_mutex := none, handler := none }

def next (s : State) : Action → State
  | .run => run_step s
  | .handler => s.handler.elim s (handler_step s)
  | .signal b => { s with is_success := some b, handler := some .write_output }
  | .spurious => { s with pc := .wake }
  | .other_lock => { s with state_mutex := some .other }
  | .other_unlock => { s with state_mutex := none }

def system : System State Action := ⟨next, Enabled⟩

instance (s : State) (a : Action) : Decidable (system.Enabled s a) :=
  inferInstanceAs (Decidable (Enabled s a))

/-! ## What can go wrong -/

/-- The handler waits for a mutex that the code below it owns. -/
def SelfDeadlock (s : State) : Prop :=
  (s.handler = some .lock_aes ∧ s.aes_mutex = some .run) ∨
    (s.handler = some .lock_state ∧ s.state_mutex = some .run)

/-- `run` waits, the status is set, and nobody wakes it up. -/
def LostWakeUp (s : State) : Prop :=
  s.pc = .waiting ∧ s.operation_status ≠ .BUSY ∧ s.woken = false ∧
    s.handler ≠ some .cond_signal

def LeftLoop (s : State) : Prop := s.pc = .unlock ∨ s.pc = .send_results

/-- The thread can do nothing. -/
def Stuck (s : State) : Prop := ¬ Enabled s .run ∧ ¬ Enabled s .handler

/-- The handler waits for another thread that owns `state_mutex`. -/
def WaitsForOther (s : State) : Prop := s.handler = some .lock_state ∧ s.state_mutex = some .other

structure Waits (s : State) : Prop where
  no_deadlock : ¬ SelfDeadlock s
  no_lost_wake_up : ¬ LostWakeUp s
  outcome : LeftLoop s → ∃ b, s.is_success = some b ∧ s.operation_status = result b
  ends : s.is_success ≠ none → Stuck s → ¬ WaitsForOther s → s.pc = .send_results

/-- The signal does not come while `run` owns `_aes_mutex`. -/
def Undisturbed (s : State) (a : Action) : Prop := ∀ b, a = .signal b → s.aes_mutex ≠ some .run

instance (s : State) (a : Action) : Decidable (Undisturbed s a) := by
  unfold Undisturbed
  infer_instance

/-! ## The invariant -/

/-- Where `run` owns `_aes_mutex`. -/
def RunStep.owns : RunStep → Bool
  | .test_status | .wait | .unlock => true
  | _ => false

def HandlerStep.owns : HandlerStep → Bool
  | .set_status | .cond_signal | .unlock_aes => true
  | _ => false

/-- Where the handler has locked `state_mutex`. -/
def HandlerStep.locked : HandlerStep → Bool
  | .write_output | .lock_state => false
  | _ => true

/-- The handler has set the status. -/
def HandlerStep.told : HandlerStep → Bool
  | .cond_signal | .unlock_aes | .unlock_state => true
  | _ => false

def HandlerStep.signalled : HandlerStep → Bool
  | .unlock_aes | .unlock_state => true
  | _ => false

def State.told (s : State) : Bool := s.handler.elim s.is_success.isSome HandlerStep.told

def State.signalled (s : State) : Bool := s.handler.elim s.is_success.isSome HandlerStep.signalled

structure Inv (s : State) : Prop where
  aes_mutex : s.aes_mutex = if s.pc.owns then some .run
    else if s.handler.elim false HandlerStep.owns then some .handler else none
  status : s.operation_status = if s.told then result (s.is_success.getD false) else .BUSY
  woken : s.woken = (decide (s.pc = .waiting) && s.signalled)
  state_mutex : s.state_mutex ≠ some .run
  held : s.state_mutex = some .handler → s.handler.elim false HandlerStep.locked = true
  on_top : s.handler ≠ none → s.is_success ≠ none ∧ s.pc.owns = false ∧ s.pc ≠ .send_results
  waits : s.pc = .wait → s.is_success = none
  left : LeftLoop s → s.is_success ≠ none ∧ s.handler = none

theorem inv_initial : Inv .initial := by
  refine ⟨rfl, rfl, rfl, by decide, by decide, by decide, fun _ => rfl, ?_⟩
  rintro (h | h) <;> cases h

theorem result_ne_busy (b : Bool) : result b ≠ .BUSY := by
  cases b <;> decide

/-! ### `run` alone -/

/-- The invariant while no handler is on top of `run`. -/
structure Alone (s : State) : Prop where
  handler : s.handler = none
  aes_mutex : s.aes_mutex = if s.pc.owns then some .run else none
  status : s.operation_status = s.is_success.elim .BUSY result
  woken : s.woken = (decide (s.pc = .waiting) && s.is_success.isSome)
  state_mutex : s.state_mutex = none ∨ s.state_mutex = some .other
  waits : s.pc = .wait → s.is_success = none
  left : LeftLoop s → s.is_success ≠ none

theorem Alone.inv {s : State} (h : Alone s) : Inv s := by
  constructor
  case aes_mutex =>
    rw [h.aes_mutex, h.handler]
    rfl
  case status =>
    unfold State.told
    rw [h.status, h.handler]
    cases s.is_success <;> rfl
  case woken =>
    unfold State.signalled
    rw [h.woken, h.handler]
    rfl
  case state_mutex =>
    rcases h.state_mutex with hs | hs <;> simp [hs]
  case held =>
    rcases h.state_mutex with hs | hs <;> simp [hs]
  case on_top =>
    intro hn
    exact absurd h.handler hn
  case waits => exact h.waits
  case left => exact fun hl => ⟨h.left hl, h.handler⟩

theorem Inv.alone {s : State} (h : Inv s) (hn : s.handler = none) : Alone s := by
  constructor
  case handler => exact hn
  case aes_mutex =>
    rw [h.aes_mutex, hn]
    rfl
  case status =>
    have hstatus := h.status
    unfold State.told at hstatus
    rw [hstatus, hn]
    cases s.is_success <;> rfl
  case woken =>
    have hwoken := h.woken
    unfold State.signalled at hwoken
    rw [hwoken, hn]
    rfl
  case state_mutex =>
    have hheld := h.held
    rw [hn] at hheld
    cases hs : s.state_mutex with
    | none => exact Or.inl rfl
    | some o =>
      cases o with
      | run => exact absurd hs h.state_mutex
      | handler => exact absurd (hheld hs) Bool.false_ne_true
      | other => exact Or.inr rfl
  case waits => exact h.waits
  case left => exact fun hl => (h.left hl).1

theorem not_left {s : State} (hu : s.pc ≠ .unlock) (hr : s.pc ≠ .send_results) : ¬ LeftLoop s :=
  fun hl => hl.elim hu hr

/-- An instruction of `run`. The test of the status decides whether the loop is left. -/
theorem Alone.run_step {s : State} (h : Alone s) (he : Enabled s .run) :
    Alone (run_step s) := by
  obtain ⟨hn, haes, hstatus, hwoken, hstate, hwaits, hleft⟩ := h
  obtain ⟨-, he⟩ := he
  unfold aes_thread.run_step
  cases hp : s.pc with
  | start | test_ret =>
    rw [hp] at haes hwoken
    exact ⟨hn, haes, hstatus, hwoken, hstate, nofun, fun hl => absurd hl (not_left nofun nofun)⟩
  | last_unlock =>
    rw [hp] at haes hwoken
    exact ⟨hn, haes, hstatus, hwoken, Or.inl rfl, nofun, fun hl => absurd hl (not_left nofun nofun)⟩
  | lock | wake =>
    rw [hp] at hwoken
    exact ⟨hn, rfl, hstatus, hwoken, hstate, nofun, fun hl => absurd hl (not_left nofun nofun)⟩
  | test_status =>
    rw [hp] at haes hwoken
    by_cases hb : s.operation_status = .BUSY
    · have hd : s.is_success = none := by
        by_contra hd
        obtain ⟨b, hd⟩ := Option.ne_none_iff_exists'.mp hd
        rw [hstatus, hd] at hb
        exact result_ne_busy b hb
      simp only [if_pos hb]
      exact ⟨hn, haes, hstatus, hwoken, hstate, fun _ => hd,
        fun hl => absurd hl (not_left nofun nofun)⟩
    · have hd : s.is_success ≠ none := by
        intro hd
        rw [hstatus, hd] at hb
        exact hb rfl
      simp only [if_neg hb]
      exact ⟨hn, haes, hstatus, hwoken, hstate, nofun, fun _ => hd⟩
  | wait =>
    rw [hp] at hwoken
    have hd := hwaits hp
    refine ⟨hn, rfl, hstatus, ?_, hstate, nofun, fun hl => absurd hl (not_left nofun nofun)⟩
    rw [hwoken, hd]
    rfl
  | waiting =>
    rw [hp] at haes
    exact ⟨hn, haes, hstatus, rfl, hstate, nofun, fun hl => absurd hl (not_left nofun nofun)⟩
  | unlock =>
    rw [hp] at hwoken
    exact ⟨hn, rfl, hstatus, hwoken, hstate, nofun, fun _ => hleft (Or.inl hp)⟩
  | send_results =>
    rw [hp] at he
    exact he.elim

theorem Alone.spurious {s : State} (h : Alone s) (he : Enabled s .spurious) :
    Alone (next s .spurious) := by
  obtain ⟨-, hp, hw⟩ := he
  have haes := h.aes_mutex
  rw [hp] at haes
  exact ⟨h.handler, haes, h.status, hw, h.state_mutex, nofun,
    fun hl => absurd hl (not_left nofun nofun)⟩

/-! ### The handler on top -/

/-- The invariant while the handler is at `l`. The code below it does not own `_aes_mutex`. -/
structure OnTop (s : State) (l : HandlerStep) : Prop where
  handler : s.handler = some l
  is_success : s.is_success ≠ none
  below : s.pc.owns = false
  running : s.pc ≠ .send_results
  aes_mutex : s.aes_mutex = if l.owns then some .handler else none
  status : s.operation_status = if l.told then result (s.is_success.getD false) else .BUSY
  woken : s.woken = (decide (s.pc = .waiting) && l.signalled)
  state_mutex : s.state_mutex ≠ some .run
  held : s.state_mutex = some .handler → l.locked = true

theorem ne_of_not_owns {l l' : RunStep} (h : l.owns = false) (h' : l'.owns = true) : l ≠ l' := by
  rintro rfl
  rw [h] at h'
  cases h'

theorem OnTop.inv {s : State} {l : HandlerStep} (h : OnTop s l) : Inv s := by
  have hwait : s.pc ≠ .wait := ne_of_not_owns h.below rfl
  have hleft : ¬ LeftLoop s := not_left (ne_of_not_owns h.below rfl) h.running
  constructor
  case aes_mutex =>
    rw [h.aes_mutex, h.below, h.handler]
    rfl
  case status =>
    unfold State.told
    rw [h.status, h.handler]
    rfl
  case woken =>
    unfold State.signalled
    rw [h.woken, h.handler]
    rfl
  case state_mutex => exact h.state_mutex
  case held =>
    rw [h.handler]
    exact h.held
  case on_top => exact fun _ => ⟨h.is_success, h.below, h.running⟩
  case waits => exact fun hp => absurd hp hwait
  case left => exact fun hl => absurd hl hleft

theorem Inv.at_step {s : State} (h : Inv s) {l : HandlerStep} (hl : s.handler = some l) :
    OnTop s l := by
  obtain ⟨hd, hbelow, hrunning⟩ := h.on_top (by rw [hl]; exact nofun)
  have haes := h.aes_mutex
  have hstatus := h.status
  have hwoken := h.woken
  have hheld := h.held
  unfold State.told at hstatus
  unfold State.signalled at hwoken
  rw [hbelow, hl] at haes
  rw [hl] at hstatus hwoken hheld
  exact ⟨hl, hd, hbelow, hrunning, haes, hstatus, hwoken, h.state_mutex, hheld⟩

/-- A step of the handler. After the last one `run` is alone again. -/
theorem OnTop.handler_step {s : State} {l : HandlerStep} (h : OnTop s l) :
    Inv (handler_step s l) := by
  obtain ⟨-, hd, hbelow, hrunning, haes, hstatus, hwoken, hstate, hheld⟩ := h
  unfold aes_thread.handler_step
  cases l with
  | write_output =>
    exact OnTop.inv ⟨rfl, hd, hbelow, hrunning, haes, hstatus, hwoken, hstate, hheld⟩
  | lock_state =>
    exact OnTop.inv ⟨rfl, hd, hbelow, hrunning, haes, hstatus, hwoken, nofun, fun _ => rfl⟩
  | free_memories | clear_busy =>
    exact OnTop.inv ⟨rfl, hd, hbelow, hrunning, haes, hstatus, hwoken, hstate, hheld⟩
  | lock_aes =>
    exact OnTop.inv ⟨rfl, hd, hbelow, hrunning, rfl, hstatus, hwoken, hstate, hheld⟩
  | set_status =>
    exact OnTop.inv ⟨rfl, hd, hbelow, hrunning, haes, rfl, hwoken, hstate, hheld⟩
  | cond_signal =>
    exact OnTop.inv ⟨rfl, hd, hbelow, hrunning, haes, hstatus, (Bool.and_true _).symm, hstate,
      hheld⟩
  | unlock_aes =>
    exact OnTop.inv ⟨rfl, hd, hbelow, hrunning, rfl, hstatus, hwoken, hstate, hheld⟩
  | unlock_state =>
    obtain ⟨b, hb⟩ := Option.ne_none_iff_exists'.mp hd
    refine Alone.inv ⟨rfl, ?_, ?_, ?_, Or.inl rfl, fun hp => ?_, fun _ => hd⟩
    · simp only [hbelow]
      exact haes
    · simp only [hstatus, hb]
      rfl
    · simp only [hwoken, hb]
      rfl
    · exact absurd hp (ne_of_not_owns hbelow rfl)

/-- There is no handler before the signal. -/
theorem Inv.no_handler {s : State} (h : Inv s) (hd : s.is_success = none) : s.handler = none := by
  by_contra hn
  exact (h.on_top hn).1 hd

/-- The signal comes while `run` does not own `_aes_mutex`. -/
theorem Inv.signal {s : State} (h : Inv s) (he : s.is_success = none)
    (ho : s.aes_mutex ≠ some .run) (b : Bool) : Inv (next s (.signal b)) := by
  have ha := h.alone (h.no_handler he)
  have hbelow : s.pc.owns = false := by
    by_contra howns
    rw [Bool.not_eq_false] at howns
    rw [ha.aes_mutex, howns] at ho
    exact ho rfl
  have hstatus := ha.status
  have hwoken := ha.woken
  have haes := ha.aes_mutex
  rw [he] at hstatus hwoken
  rw [hbelow] at haes
  refine OnTop.inv (l := .write_output) ⟨rfl, Option.some_ne_none b, hbelow, ?_, haes, hstatus,
    hwoken, h.state_mutex, ?_⟩
  · intro hp
    exact ha.left (Or.inr hp) he
  · intro hs
    rcases ha.state_mutex with hs' | hs' <;> exact absurd (hs.symm.trans hs') nofun

/-- A handler that can go on is at one of its steps. -/
theorem handler_of_enabled {s : State} (he : Enabled s .handler) :
    ∃ l, s.handler = some l ∧ aes_thread.next s .handler = handler_step s l := by
  unfold Enabled at he
  cases hl : s.handler with
  | none =>
    rw [hl] at he
    exact he.elim
  | some l =>
    refine ⟨l, rfl, ?_⟩
    unfold aes_thread.next
    rw [hl]
    rfl

/-! ### Every step -/

theorem Inv.next {s : State} {a : Action} (h : Inv s) (he : Enabled s a) (ho : Undisturbed s a) :
    Inv (next s a) := by
  cases a with
  | run => exact ((h.alone he.1).run_step he).inv
  | handler =>
    obtain ⟨l, hl, hnext⟩ := handler_of_enabled he
    rw [hnext]
    exact (h.at_step hl).handler_step
  | signal b => exact h.signal he (ho b rfl) b
  | spurious => exact ((h.alone he.1).spurious he).inv
  | other_lock | other_unlock =>
    exact ⟨h.aes_mutex, h.status, h.woken, by simp [aes_thread.next], by simp [aes_thread.next],
      h.on_top, h.waits, h.left⟩

theorem inv_of_run {tr : List (State × Action)} {s : State}
    (h : Run system Undisturbed .initial tr s) : Inv s := by
  apply h.inv inv_initial
  intro s a hs he ho
  exact hs.next he ho

/-! ## What the invariant says -/

theorem Inv.no_deadlock {s : State} (h : Inv s) : ¬ SelfDeadlock s := by
  rintro (⟨hl, hm⟩ | ⟨_, hm⟩)
  · have howns := (h.on_top (by simp [hl])).2.1
    rw [h.aes_mutex, hl] at hm
    simp [howns, HandlerStep.owns] at hm
  · exact h.state_mutex hm

theorem Inv.no_lost_wake_up {s : State} (h : Inv s) : ¬ LostWakeUp s := by
  rintro ⟨hp, hs, hw, hc⟩
  cases hl : s.handler with
  | none =>
    have ha := h.alone hl
    cases hd : s.is_success with
    | none =>
      rw [ha.status, hd] at hs
      exact hs rfl
    | some b =>
      have hwoken := ha.woken
      rw [hw, hp, hd] at hwoken
      cases hwoken
  | some l =>
    have ht := h.at_step hl
    have htold : l.told = true := by
      by_contra hno
      exact hs (by rw [ht.status, if_neg hno])
    have hwoken := ht.woken
    rw [hw, hp] at hwoken
    -- the status is set and the signal is not sent only at `cond_signal`
    cases l with
    | cond_signal => exact hc hl
    | unlock_aes | unlock_state => cases hwoken
    | _ => cases htold

theorem Inv.outcome {s : State} (h : Inv s) (hl : LeftLoop s) :
    ∃ b, s.is_success = some b ∧ s.operation_status = result b := by
  obtain ⟨hd, hn⟩ := h.left hl
  obtain ⟨b, hb⟩ := Option.ne_none_iff_exists'.mp hd
  refine ⟨b, hb, ?_⟩
  rw [h.status]
  simp [State.told, hn, hb]

/-- Once the signal has come, only another thread can hold up this one. -/
theorem Inv.ends {s : State} (h : Inv s) (hd : s.is_success ≠ none) (hstuck : Stuck s)
    (ho : ¬ WaitsForOther s) : s.pc = .send_results := by
  obtain ⟨hrun, hhandler⟩ := hstuck
  cases hl : s.handler with
  | none =>
    have ha := h.alone hl
    have haes := ha.aes_mutex
    have hwoken := ha.woken
    unfold Enabled at hrun
    cases hp : s.pc with
    | send_results => rfl
    | lock | wake =>
      rw [hp] at haes hrun
      exact absurd ⟨hl, haes⟩ hrun
    | waiting =>
      rw [hp, Option.isSome_iff_ne_none.mpr hd] at hwoken
      rw [hp] at hrun
      exact absurd ⟨hl, hwoken⟩ hrun
    | _ =>
      rw [hp] at hrun
      exact absurd ⟨hl, trivial⟩ hrun
  | some l =>
    have ht := h.at_step hl
    have haes := ht.aes_mutex
    exfalso
    unfold Enabled at hhandler
    rw [hl] at hhandler
    cases l with
    | lock_state =>
      cases hs : s.state_mutex with
      | none => exact hhandler hs
      | some o =>
        cases o with
        | run => exact ht.state_mutex hs
        | handler => exact absurd (ht.held hs) Bool.false_ne_true
        | other => exact ho ⟨hl, hs⟩
    | lock_aes => exact hhandler haes
    | _ => exact hhandler trivial

/-! ## The thread comes to an end -/

/-- How many instructions of `run` are left. Before the status is set, a wake-up leads back
to the wait. -/
def RunStep.left : RunStep → Bool → Nat
  | .start, busy => if busy then 10 else 6
  | .test_ret, busy => if busy then 9 else 5
  | .last_unlock, busy => if busy then 8 else 4
  | .lock, busy => if busy then 7 else 3
  | .wake, busy => if busy then 7 else 3
  | .test_status, busy => if busy then 6 else 2
  | .wait, _ => 5
  | .waiting, _ => 4
  | .unlock, _ => 1
  | .send_results, _ => 0

def HandlerStep.left : HandlerStep → Nat
  | .write_output => 9
  | .lock_state => 8
  | .free_memories => 7
  | .clear_busy => 6
  | .lock_aes => 5
  | .set_status => 4
  | .cond_signal => 3
  | .unlock_aes => 2
  | .unlock_state => 1

/-- The steps that the thread still has to do. -/
def State.left (s : State) : Nat :=
  s.pc.left (decide (s.operation_status = .BUSY)) +
    s.handler.elim (if s.is_success = none then 9 else 0) HandlerStep.left

/-- A step of the thread itself. -/
def Action.own : Action → Bool
  | .run | .handler => true
  | _ => false

def own_steps (tr : List (State × Action)) : Nat := tr.countP fun e => e.2.own

def spurious_wakeups (tr : List (State × Action)) : Nat := tr.countP fun e => e.2 = .spurious

theorem RunStep.left_le (l : RunStep) (busy : Bool) : l.left false ≤ l.left busy := by
  cases l <;> cases busy <;> decide

theorem run_step_keeps (s : State) : (aes_thread.run_step s).handler = s.handler ∧
    (aes_thread.run_step s).is_success = s.is_success ∧
    (aes_thread.run_step s).operation_status = s.operation_status := by
  unfold aes_thread.run_step
  split <;> exact ⟨rfl, rfl, rfl⟩

/-- The wait ends for good only after the status is set. -/
theorem Alone.not_busy {s : State} (h : Alone s) (he : Enabled s .run) (hp : s.pc = .waiting) :
    s.operation_status ≠ .BUSY := by
  have hwoken := h.woken
  have hw := he.2
  rw [hp] at hw hwoken
  rw [show s.woken = true from hw] at hwoken
  obtain ⟨b, hb⟩ := Option.isSome_iff_exists.mp hwoken.symm
  rw [h.status, hb]
  exact result_ne_busy b

theorem Alone.left_run {s : State} (h : Alone s) (he : Enabled s .run) :
    (aes_thread.run_step s).left + 1 ≤ s.left := by
  obtain ⟨hhandler, hd, hstatus⟩ := run_step_keeps s
  unfold State.left
  rw [hhandler, hd, hstatus, Nat.add_right_comm]
  apply Nat.add_le_add_right
  unfold aes_thread.run_step
  cases hp : s.pc with
  | test_status =>
    by_cases hb : s.operation_status = .BUSY <;> simp [hb, RunStep.left]
  | waiting => simp [h.not_busy he hp, RunStep.left]
  | send_results =>
    have hno := he.2
    rw [hp] at hno
    exact hno.elim
  | _ => cases decide (s.operation_status = .BUSY) <;> exact Nat.le_refl _

theorem left_handler {s : State} {l : HandlerStep} (hl : s.handler = some l)
    (hd : s.is_success ≠ none) : (handler_step s l).left + 1 ≤ s.left := by
  unfold State.left aes_thread.handler_step
  rw [hl]
  cases l with
  | set_status =>
    have hle := s.pc.left_le (decide (s.operation_status = .BUSY))
    simp only [result_ne_busy, decide_false]
    exact Nat.add_le_add_right hle 4
  | unlock_state => simp [hd, HandlerStep.left]
  | _ => exact Nat.le_refl _

/-- Each step of the thread itself is one less to do. A spurious wake-up adds three. -/
theorem Inv.left_next {s : State} {a : Action} (h : Inv s) (he : Enabled s a) :
    (aes_thread.next s a).left + (if a.own then 1 else 0) ≤
      s.left + (if a = .spurious then 3 else 0) := by
  cases a with
  | run => exact (h.alone he.1).left_run he
  | handler =>
    obtain ⟨l, hl, hnext⟩ := handler_of_enabled he
    rw [hnext]
    exact left_handler hl (h.on_top (by simp [hl])).1
  | signal b =>
    have hd : s.is_success = none := he
    unfold State.left aes_thread.next
    rw [h.no_handler hd, hd]
    exact Nat.le_refl _
  | spurious =>
    obtain ⟨_, hp, _⟩ := he
    unfold State.left aes_thread.next
    cases decide (s.operation_status = .BUSY) <;>
      simp [hp, RunStep.left, Action.own] <;> omega
  | other_lock => exact Nat.le_refl _
  | other_unlock => exact Nat.le_refl _

theorem own_steps_le {tr : List (State × Action)} {s : State}
    (h : Run system Undisturbed .initial tr s) :
    own_steps tr + s.left ≤ 19 + 3 * spurious_wakeups tr := by
  induction h with
  | start => decide
  | @step tr s a hr he ho ih =>
    have hleft := (inv_of_run hr).left_next he
    unfold own_steps spurious_wakeups at ih ⊢
    simp only [List.countP_append, List.countP_singleton, decide_eq_true_eq]
    change _ + (aes_thread.next s a).left ≤ _
    split at hleft <;> split at hleft <;> simp_all <;> omega

/-! ## The wait ends with the outcome -/

/-- When the signal does not come while `run` owns `_aes_mutex`, nothing goes wrong in any
state of the run, and the thread is done after a bounded number of its own steps. -/
theorem the_wait_ends_with_the_outcome {tr : List (State × Action)} {s : State}
    (h : Run system Undisturbed .initial tr s) :
    Along (fun tr s => Waits s ∧ own_steps tr ≤ 19 + 3 * spurious_wakeups tr) tr s := by
  apply h.along
  intro tr s hr
  have hinv := inv_of_run hr
  refine ⟨⟨hinv.no_deadlock, hinv.no_lost_wake_up, hinv.outcome, hinv.ends⟩, ?_⟩
  exact Nat.le_of_add_right_le (own_steps_le hr)

/-- The signal comes while the thread waits, after a spurious wake-up. -/
def waiting_steps : List Action :=
  List.replicate 6 .run ++ [.spurious] ++ List.replicate 3 .run ++ [.signal true] ++
    List.replicate 9 .handler ++ List.replicate 4 .run

theorem the_wait_ends_while_waiting :
    (system.after .initial waiting_steps).pc = .send_results ∧
      (system.after .initial waiting_steps).operation_status = .SUCCESS ∧
      Along (fun tr s => Waits s ∧ own_steps tr ≤ 19 + 3 * spurious_wakeups tr)
        (system.trace .initial waiting_steps) (system.after .initial waiting_steps) :=
  ⟨rfl, rfl, the_wait_ends_with_the_outcome (System.run_of_enables (by decide) (by decide))⟩

/-- The signal comes right after `run` has locked `_aes_mutex`. -/
def disturbed_steps : List Action :=
  List.replicate 4 .run ++ [.signal true] ++ List.replicate 4 .handler

/-- The handler waits for the mutex of the code below it, and the thread is stuck. -/
theorem the_handler_waits_for_itself :
    Run system (fun _ _ => True) .initial (system.trace .initial disturbed_steps)
        (system.after .initial disturbed_steps) ∧
      SelfDeadlock (system.after .initial disturbed_steps) ∧
      Stuck (system.after .initial disturbed_steps) ∧
      (system.after .initial disturbed_steps).pc = .test_status :=
  ⟨System.run_of_enables (by decide) (by decide), .inl ⟨rfl, rfl⟩, ⟨by decide, by decide⟩, rfl⟩

/-! ## A signal at another time -/

/-- From then on the thread does nothing, whatever comes. -/
structure Dead (s : State) : Prop where
  handler : s.handler = some .lock_aes
  aes_mutex : s.aes_mutex = some .run
  is_success : s.is_success ≠ none

theorem Dead.next {s : State} {a : Action} (h : Dead s) (he : Enabled s a) :
    Dead (aes_thread.next s a) ∧ (aes_thread.next s a).pc = s.pc := by
  obtain ⟨hl, hm, hd⟩ := h
  cases a with
  | run => exact absurd he.1 (by simp [hl])
  | handler =>
    unfold Enabled at he
    simp [hl, hm] at he
  | signal b => exact absurd he hd
  | spurious => exact absurd he.1 (by simp [hl])
  | other_lock | other_unlock => exact ⟨⟨hl, hm, hd⟩, rfl⟩

/-- A signal that comes while `run` owns `_aes_mutex` stops the thread for good. -/
theorem a_disturbing_signal_is_fatal {s : State} (b : Bool) (hd : s.is_success = none)
    (hs : s.state_mutex = none) (hm : s.aes_mutex = some .run) :
    system.Enables s (.signal b :: List.replicate 4 .handler) ∧
      Dead (system.after s (.signal b :: List.replicate 4 .handler)) := by
  constructor
  · refine ⟨hd, trivial, hs, trivial, trivial, trivial⟩
  · exact ⟨rfl, hm, Option.some_ne_none b⟩

theorem dead_of_run {tr : List (State × Action)} {s s' : State} (h : Dead s)
    (hr : Run system (fun _ _ => True) s tr s') : Dead s' ∧ s'.pc = s.pc := by
  apply hr.inv (I := fun s' => Dead s' ∧ s'.pc = s.pc) ⟨h, rfl⟩
  rintro s₁ a ⟨hd, hp⟩ he _
  obtain ⟨hd', hp'⟩ := hd.next he
  exact ⟨hd', hp'.trans hp⟩

end aes_thread
