-- The signal of a completion. The driver sends it to the thread of the last transfer, and
-- `_dma_callback` runs on top of this thread, which rests until its handler is over. When a
-- thread calls again with its own completion to come, it may own the mutex that its handler
-- waits for, and neither goes on.
import AesMusicPlayer.TransferProgress
import Mathlib.Data.Finset.Range

open owned_mutex traces

namespace aes

/-! ## The system -/

/-- The threads of a DMA state, and where their driver sends its signals. -/
structure Signals where
  threads : Threads
  /-- `cb_data->process`, the thread of the transfer that was prepared last -/
  process : Thread
  /-- the handlers that came so far, each with the thread that it runs on top of -/
  handlers : List (Thread × Thread)

structure SignalAct where
  act : Act
  /-- a start that fails has prepared its receive side before -/
  prepared : Bool

/-- The handler has begun. -/
def Pc.begun : Pc → Bool
  | .callback l _ => l != .find_rx
  | .outside | .call _ _ => false

namespace Signals

/-- A handler has begun on top of the thread, and masks the signals of the others. -/
def Suspended (s : Signals) (t : Thread) : Prop :=
  ∃ e ∈ s.handlers, e.2 = t ∧ (s.threads.pc e.1).begun = true

instance (s : Signals) (t : Thread) : Decidable (s.Suspended t) :=
  inferInstanceAs (Decidable (∃ e ∈ s.handlers, _))

def next (s : Signals) (a : SignalAct) : Signals where
  threads := s.threads.next a.act
  process :=
    match a.act with
    | .step t x =>
      if (s.threads.pc t).at .start && (a.prepared || decide (0 ≤ x.twoway)) then t else s.process
    | .call _ _ | .complete _ _ => s.process
  handlers :=
    match a.act with
    | .complete h _ => s.handlers ++ [(h, s.process)]
    | .call _ _ | .step _ _ => s.handlers

/-- A thread that has a handler on top of it waits, and a signal waits for the handler before it.
Each handler has a number of its own. -/
def Enabled (s : Signals) (a : SignalAct) : Prop :=
  s.threads.Enabled a.act ∧
    match a.act with
    | .call t _ => ¬ s.Suspended t ∧ ∀ e ∈ s.handlers, e.1 ≠ t
    | .step t _ => ¬ s.Suspended t ∧ ((s.threads.pc t).at_callback .find_rx = true →
        ∀ e ∈ s.handlers, e.1 = t → ¬ s.Suspended e.2)
    | .complete h _ => h ≠ s.process ∧ ∀ e ∈ s.handlers, e.1 ≠ h ∧ e.2 ≠ h

instance (s : Signals) : (a : SignalAct) → Decidable (s.Enabled a)
  | ⟨.call _ _, _⟩ => inferInstanceAs (Decidable (_ ∧ _ ∧ _))
  | ⟨.step _ _, _⟩ => inferInstanceAs (Decidable (_ ∧ _ ∧ _))
  | ⟨.complete _ _, _⟩ => inferInstanceAs (Decidable (_ ∧ _ ∧ _))

end Signals

def signals : traces.System Signals SignalAct := ⟨Signals.next, Signals.Enabled⟩

instance (s : Signals) (a : SignalAct) : Decidable (signals.Enabled s a) :=
  inferInstanceAs (Decidable (s.Enabled a))

/-- A state after `init`. -/
structure Signals.Initial (s : Signals) : Prop where
  threads : s.threads.Initial
  handlers : s.handlers = []

/-! ## The condition -/

/-- A transfer of the thread is in flight, or its handler is not over. -/
def Signals.Awaits (s : Signals) (t : Thread) : Prop :=
  s.process = t ∧ s.threads.in_flight ≠ [] ∨
    ∃ e ∈ s.handlers, e.2 = t ∧ s.threads.pc e.1 ≠ .outside

instance (s : Signals) (t : Thread) : Decidable (s.Awaits t) :=
  inferInstanceAs (Decidable (_ ∨ ∃ e ∈ s.handlers, _))

/-- The steps come in turn, and no thread calls before its own last transfer is served. -/
def CallsInTurn (s : Signals) (a : SignalAct) : Prop :=
  InTurn s.threads a.act ∧
    match a.act with
    | .call t _ => ¬ s.Awaits t
    | .step _ _ | .complete _ _ => True

/-! ## The threads below their handlers -/

/-- The thread is in no call, or about to leave one. -/
def Pc.returns : Pc → Bool
  | .outside => true
  | .call l _ => l == .last_unlock
  | .callback _ _ => false

section Steps

variable {s : Threads} {t : Thread} {x : Outside}

theorem outside_of_returns (h : (s.pc t).returns = true) (he : s.Enabled (.step t x)) :
    (s.step t x).pc t = .outside := by
  cases hp : s.pc t with
  | outside => exact absurd hp he.1
  | callback l b => rw [hp] at h; cases h
  | call l c =>
    rw [hp, Pc.returns, beq_iff_eq] at h
    subst h
    rw [step_call x hp, call_step, Threads.goto_pc_self]

/-- Only a callback goes on as one. -/
theorem callback_of_step {l : CallbackStep} {b : Callback} (he : s.Enabled (.step t x))
    (h : (s.step t x).pc t = .callback l b) : ∃ l b, s.pc t = .callback l b := by
  cases hp : s.pc t with
  | outside => exact absurd hp he.1
  | callback l b => exact ⟨l, b, rfl⟩
  | call l c =>
    rw [step_call x hp] at h
    cases l <;> simp only [call_step] at h <;> (try split_ifs at h) <;>
      simp only [Threads.goto_pc_self, Threads.throw_pc_self] at h <;> cases h

/-- Only a start brings a transfer. -/
theorem in_flight_of_step (hat : (s.pc t).at .start = false)
    (h : (s.step t x).in_flight ≠ []) : s.in_flight ≠ [] := by
  intro hnil
  apply h
  cases hp : s.pc t with
  | outside => simpa only [Threads.step, hp] using hnil
  | callback l b => rw [step_callback x hp, callback_step_in_flight, hnil]
  | call l c =>
    rw [step_call x hp]
    apply (call_step_frame _ hnil).1
    rintro rfl
    rw [hp] at hat
    cases hat

/-- Where a start leaves its thread. -/
theorem start_returns {c : Call} (hp : s.pc t = .call .start c) :
    ((s.step t x).pc t).returns = true ∧ 0 ≤ x.twoway ∨
      (s.step t x).in_flight = s.in_flight := by
  rw [step_call x hp]
  simp only [call_step]
  split_ifs with hneg
  · exact Or.inr rfl
  · refine Or.inl ⟨?_, by omega⟩
    rw [Threads.goto_pc_self]
    rfl

end Steps

/-- The thread of the transfer in flight, and those below a handler, are in no call or about to
leave it. -/
structure Hosted (s : Signals) : Prop where
  running : Running s.threads
  process : s.threads.in_flight ≠ [] → (s.threads.pc s.process).returns = true
  handlers : ∀ e ∈ s.handlers, ∀ l b, s.threads.pc e.1 = .callback l b →
    (s.threads.pc e.2).returns = true

theorem hosted_initial {s : Signals} (h : s.Initial) : Hosted s where
  running := running_initial h.threads
  process hne := absurd h.threads.in_flight hne
  handlers e he := by rw [h.handlers] at he; cases he

section Hosted

variable {s : Signals}

theorem hosted_call {t : Thread} {r : Request} {b : Bool} (h : Hosted s)
    (he : s.Enabled ⟨.call t r, b⟩) (ho : CallsInTurn s ⟨.call t r, b⟩) :
    Hosted (s.next ⟨.call t r, b⟩) where
  running := running_next h.running he.1 ho.1
  process hfl := by
    have hne : s.process ≠ t := fun heq => ho.2 (Or.inl ⟨heq, hfl⟩)
    change (Function.update s.threads.pc t _ s.process).returns = true
    rw [Function.update_of_ne hne]
    exact h.process hfl
  handlers := by
    intro e hmem l b' hp
    change Function.update s.threads.pc t _ e.1 = _ at hp
    rw [Function.update_of_ne (he.2.2 e hmem)] at hp
    have hne : e.2 ≠ t := by
      intro heq
      refine ho.2 (Or.inr ⟨e, hmem, heq, ?_⟩)
      rw [hp]
      rintro ⟨⟩
    change (Function.update s.threads.pc t _ e.2).returns = true
    rw [Function.update_of_ne hne]
    exact h.handlers e hmem l b' hp

theorem hosted_step {t : Thread} {x : Outside} {b : Bool} (h : Hosted s)
    (he : s.Enabled ⟨.step t x, b⟩) (ho : CallsInTurn s ⟨.step t x, b⟩) :
    Hosted (s.next ⟨.step t x, b⟩) := by
  have hstep : s.threads.Enabled (.step t x) := he.1
  obtain ⟨p', hm⟩ := enabled_moves hstep
  change Moves s.threads (s.threads.step t x) _ p' at hm
  have hkept : ∀ u, (s.threads.pc u).returns = true →
      ((s.threads.step t x).pc u).returns = true := by
    intro u hu
    by_cases hut : u = t
    · subst hut
      rw [outside_of_returns hu hstep]
      rfl
    · rw [hm.pc_other hut]
      exact hu
  refine ⟨running_next h.running he.1 ho.1, ?_, ?_⟩
  · intro hfl
    change (s.threads.step t x).in_flight ≠ [] at hfl
    change ((s.threads.step t x).pc (if _ then t else s.process)).returns = true
    cases hat : (s.threads.pc t).at .start with
    | false => exact hkept _ (h.process (in_flight_of_step hat hfl))
    | true =>
      obtain ⟨c, hp⟩ : ∃ c, s.threads.pc t = .call .start c := by
        cases hp : s.threads.pc t with
        | call l c =>
          rw [hp, Pc.at, beq_iff_eq] at hat
          exact ⟨c, by rw [hat]⟩
        | outside => rw [hp] at hat; cases hat
        | callback l b => rw [hp] at hat; cases hat
      have hnone : s.threads.in_flight = [] :=
        (h.running.orderly.stage.only (by rw [hp]; rfl)).1
      rcases start_returns (x := x) hp with ⟨hret, hok⟩ | hsame
      · simpa [hok] using hret
      · rw [hsame] at hfl
        exact absurd hnone hfl
  · intro e hmem l b' hp
    change (s.threads.step t x).pc e.1 = _ at hp
    apply hkept
    by_cases hut : e.1 = t
    · rw [hut] at hp
      obtain ⟨l₁, b₁, hp₁⟩ := callback_of_step hstep hp
      exact h.handlers e hmem l₁ b₁ (hut ▸ hp₁)
    · rw [hm.pc_other hut] at hp
      exact h.handlers e hmem l b' hp

theorem hosted_complete {t : Thread} {out : Bytes} {b : Bool} (h : Hosted s)
    (he : s.Enabled ⟨.complete t out, b⟩) (ho : CallsInTurn s ⟨.complete t out, b⟩) :
    Hosted (s.next ⟨.complete t out, b⟩) := by
  obtain ⟨p', hm⟩ := enabled_moves he.1
  change Moves s.threads (s.threads.complete t out) _ p' at hm
  obtain ⟨-, fl, rest, hfl, -⟩ := completes_of_enabled he.1
  have hone := h.running.orderly.oneByOne.one
  refine ⟨running_next h.running he.1 ho.1, ?_, ?_⟩
  · intro hne
    exfalso
    apply hne
    change (s.threads.complete t out).in_flight = []
    obtain rfl : rest = [] := by
      rw [hfl, List.length_cons] at hone
      exact List.eq_nil_of_length_eq_zero (by omega)
    rw [complete_cons hfl]
    split_ifs <;> rfl
  · intro e hmem l b' hp
    change (s.threads.complete t out).pc e.1 = _ at hp
    change ((s.threads.complete t out).pc e.2).returns = true
    rcases List.mem_append.mp hmem with hold | hnew
    · obtain ⟨h1, h2⟩ := he.2.2 e hold
      rw [hm.pc_other h1] at hp
      rw [hm.pc_other h2]
      exact h.handlers e hold l b' hp
    · rw [List.mem_singleton] at hnew
      subst hnew
      rw [hm.pc_other he.2.1.symm]
      exact h.process (by rw [hfl]; exact List.cons_ne_nil _ _)

theorem hosted_next {a : SignalAct} (h : Hosted s) (he : s.Enabled a) (ho : CallsInTurn s a) :
    Hosted (s.next a) := by
  obtain ⟨act, b⟩ := a
  cases act with
  | call t r => exact hosted_call h he ho
  | step t x => exact hosted_step h he ho
  | complete t out => exact hosted_complete h he ho

end Hosted

/-! ## The end of a transfer -/

section Progress

variable {s : Signals} {t : Thread}

/-- A thread in a call that goes on has no handler on top. -/
theorem Hosted.not_suspended (h : Hosted s) (ht : (s.threads.pc t).returns = false) :
    ¬ s.Suspended t := by
  rintro ⟨e, hmem, rfl, hb⟩
  cases hp : s.threads.pc e.1 with
  | outside => rw [hp] at hb; cases hb
  | call l c => rw [hp] at hb; cases hb
  | callback l b =>
    rw [h.handlers e hmem l b hp] at ht
    cases ht

theorem not_returns_of_inside {p : Pc} (h : p.inside = true) : p.returns = false := by
  cases p with
  | outside => cases h
  | call l c => cases l <;> first | rfl | cases h
  | callback l b => rfl

theorem not_returns_of_active {p : Pc} (h : p.active = true) : p.returns = false := by
  cases p with
  | outside => cases h
  | call l c => cases l <;> first | rfl | cases h
  | callback l b => rfl

/-- A thread that owns the mutex, or works on a transfer, is not kept by a signal. -/
theorem Hosted.can_step (h : Hosted s) {x : Outside} (he : s.threads.Enabled (.step t x))
    (ho : InTurn s.threads (.step t x))
    (ht : (s.threads.pc t).inside = true ∨ (s.threads.pc t).active = true) :
    s.Enabled ⟨.step t x, true⟩ ∧ CallsInTurn s ⟨.step t x, true⟩ := by
  have hret : (s.threads.pc t).returns = false := by
    rcases ht with hin | hact
    · exact not_returns_of_inside hin
    · exact not_returns_of_active hact
  refine ⟨⟨he, h.not_suspended hret, ?_⟩, ho, trivial⟩
  -- a second handler would work on a second transfer
  rintro hat e - - ⟨e', -, -, hb⟩
  have hbegun : ∀ {p : Pc}, p.begun = true → p.active = true := by
    rintro (_ | _ | _) hp <;> first | rfl | cases hp
  have hfind : (s.threads.pc t).active = true ∧ (s.threads.pc t).begun = false := by
    cases hp : s.threads.pc t with
    | outside => rw [hp] at hat; cases hat
    | call l c => rw [hp] at hat; cases hat
    | callback l b =>
      rw [hp, Pc.at_callback, beq_iff_eq] at hat
      subst hat
      exact ⟨rfl, rfl⟩
  have hon := h.running.orderly.stage.only hfind.1
  by_cases hne : e'.1 = t
  · rw [hne, hfind.2] at hb
    cases hb
  · have hact := hbegun hb
    rw [hon.2 _ hne] at hact
    cases hact

/-- A step comes before the rest of the run. -/
theorem run_of_step {s s' : Signals} {a : SignalAct} {tr : List (Signals × SignalAct)}
    (he : s.Enabled a) (ho : CallsInTurn s a)
    (h : traces.Run signals CallsInTurn (s.next a) tr s') :
    ∃ tr, traces.Run signals CallsInTurn s tr s' := by
  have hfirst : traces.Run signals CallsInTurn s ([] ++ [(s, a)]) (s.next a) :=
    .step _ .start he ho
  exact ⟨_, hfirst.append h⟩

/-- The thread that works on a transfer comes to its end. -/
theorem Hosted.ends_active (n : ℕ) (h : Hosted s) (hact : (s.threads.pc t).active = true)
    (hn : 40 * (s.threads.pc t).left + s.threads.waiting t ≤ n) :
    ∃ tr s', traces.Run signals CallsInTurn s tr s' ∧ s'.threads.Still := by
  induction n generalizing s with
  | zero =>
    have hleft := left_step (x := ending) (active_runs hact).1
    omega
  | succ n ih =>
    have hleft := left_step (x := ending) (active_runs hact).1
    by_cases hwait : (s.threads.pc t).op = some .lock ∧ s.threads.owner ≠ none
    · -- the owner of the mutex goes on
      obtain ⟨hlock, howned⟩ := hwait
      obtain ⟨u, hu⟩ := Option.ne_none_iff_exists'.mp howned
      obtain ⟨he, ho, ht, hless⟩ := h.running.owner_steps hact hlock hu
      have hin : (s.threads.pc u).inside = true := by
        refine (h.running.held u hu).resolve_right fun hs => ?_
        rw [hs.2 t] at hact
        cases hact
      obtain ⟨hes, hos⟩ := h.can_step he ho (Or.inl hin)
      obtain ⟨tr, s', hrun, hstill⟩ := ih (s := s.next ⟨.step u ending, true⟩)
        (hosted_next h hes hos)
        (by change ((s.threads.step u ending).pc t).active = true; rw [ht]; exact hact)
        (by
          change 40 * ((s.threads.step u ending).pc t).left + (s.threads.step u ending).waiting t ≤ n
          rw [ht]
          omega)
      obtain ⟨tr', hrun'⟩ := run_of_step hes hos hrun
      exact ⟨tr', s', hrun', hstill⟩
    · have hfree : (s.threads.pc t).op = some .lock → s.threads.owner = none := by
        intro hlock
        by_contra hne
        exact hwait ⟨hlock, hne⟩
      obtain ⟨he, ho, hnext⟩ := h.running.active_steps hact hfree
      obtain ⟨hes, hos⟩ := h.can_step he ho (Or.inr hact)
      rcases hnext with hstill | hact'
      · obtain ⟨tr', hrun'⟩ := run_of_step hes hos .start
        exact ⟨tr', _, hrun', hstill⟩
      · have hw := (s.threads.step t ending).waiting_le t
        obtain ⟨tr, s', hrun, hstill⟩ := ih (s := s.next ⟨.step t ending, true⟩)
          (hosted_next h hes hos) hact' (by
            change 40 * ((s.threads.step t ending).pc t).left +
              (s.threads.step t ending).waiting t ≤ n
            omega)
        obtain ⟨tr', hrun'⟩ := run_of_step hes hos hrun
        exact ⟨tr', s', hrun', hstill⟩

/-- There is always a number for one more handler. -/
theorem Hosted.spare (h : Hosted s) : ∃ n, s.threads.pc n = .outside ∧ n ≠ s.process ∧
    ∀ e ∈ s.handlers, e.1 ≠ n ∧ e.2 ≠ n := by
  obtain ⟨m, hm⟩ := h.running.spare
  obtain ⟨k, hk⟩ := Finset.exists_nat_subset_range
    (s.process :: s.handlers.map Prod.fst ++ s.handlers.map Prod.snd).toFinset
  have hne : ∀ n ∈ s.process :: s.handlers.map Prod.fst ++ s.handlers.map Prod.snd,
      n ≠ max m k := by
    intro n hn
    have hlt : n < k := Finset.mem_range.mp (hk (List.mem_toFinset.mpr hn))
    exact Nat.ne_of_lt (Nat.lt_of_lt_of_le hlt (Nat.le_max_right m k))
  refine ⟨max m k, hm _ (Nat.le_max_left m k), ?_, fun e he => ⟨hne _ ?_, hne _ ?_⟩⟩
  · exact (hne _ List.mem_cons_self).symm
  · exact List.mem_append_left _ (List.mem_cons_of_mem _ (List.mem_map_of_mem he))
  · exact List.mem_append_right _ (List.mem_map_of_mem he)

/-- The transfer under way can come to its end. -/
theorem Hosted.ends (h : Hosted s) :
    ∃ tr s', traces.Run signals CallsInTurn s tr s' ∧ s'.threads.Still := by
  cases h.running.orderly.stage with
  | still hs _ _ => exact ⟨[], s, .start, hs⟩
  | preparing _ hp hl hl' _ _ =>
    exact h.ends_active _ (by rw [hp]; exact active_of_prepares hl hl') (Nat.le_refl _)
  | failing _ hp hl hl' hf _ =>
    exact h.ends_active _ (by rw [hp]; exact active_of_fails hl hl' hf.tx) (Nat.le_refl _)
  | calling_back _ hp _ _ => exact h.ends_active _ (by rw [hp]; rfl) (Nat.le_refl _)
  | @flying r fl base hfl _ _ hset _ _ =>
    obtain ⟨n, hn, hproc, hspare⟩ := h.spare
    have he : s.Enabled ⟨.complete n (List.replicate fl.rx_size.toNat 0), true⟩ :=
      ⟨⟨hn, by rw [hfl, List.length_replicate]; rfl⟩, hproc, hspare⟩
    have ho : CallsInTurn s ⟨.complete n (List.replicate fl.rx_size.toNat 0), true⟩ :=
      ⟨trivial, trivial⟩
    have hact : ((s.next ⟨.complete n (List.replicate fl.rx_size.toNat 0), true⟩).threads.pc
        n).active = true := by
      change ((s.threads.complete n _).pc n).active = true
      rw [complete_cons hfl, if_pos hset, Threads.goto_pc_self]
      rfl
    obtain ⟨tr, s', hrun, hstill⟩ := (hosted_next h he ho).ends_active _ hact (Nat.le_refl _)
    obtain ⟨tr', hrun'⟩ := run_of_step he ho hrun
    exact ⟨tr', s', hrun', hstill⟩

end Progress

/-! ## Every transfer is served once -/

/-- In every run whose steps are in turn, and in which no thread calls before its own transfer is
served, the transfers are served one by one, and the one under way can still come to its end. -/
theorem every_transfer_is_served_once {s₀ s : Signals} {tr : List (Signals × SignalAct)}
    (h₀ : s₀.Initial) (h : traces.Run signals CallsInTurn s₀ tr s) :
    OneByOne s.threads ∧ ∃ tr' s', traces.Run signals CallsInTurn s tr' s' ∧ s'.threads.Still ∧
      s.threads.log <+: s'.threads.log ∧ Served s'.threads.log := by
  have hhosted : Hosted s := h.inv (hosted_initial h₀) fun _ _ => hosted_next
  refine ⟨hhosted.running.orderly.oneByOne, ?_⟩
  obtain ⟨tr', s', h', hstill⟩ := hhosted.ends
  have hhosted' : Hosted s' := h'.inv hhosted fun _ _ => hosted_next
  have hlog : s.threads.log <+: s'.threads.log :=
    h'.inv (I := fun s₁ => s.threads.log <+: s₁.threads.log) List.prefix_rfl
      fun s₁ a ih _ _ => ih.trans (log_grows s₁.threads a.act)
  exact ⟨tr', s', h', hstill, hlog, (hhosted'.running.orderly.stage.of_still hstill).2⟩

/-! ## A transfer in turn -/

/-- The steps with their starts answered at once. -/
def plainly (as : List Act) : List SignalAct := as.map fun a => ⟨a, false⟩

/-- An engine after `init`, with no signal so far. -/
def silent : Signals := ⟨untouched, 0, []⟩

theorem silent_initial : silent.Initial := ⟨untouched_initial, rfl⟩

theorem threads_run {s₀ s : Signals} {tr : List (Signals × SignalAct)}
    {ok : Signals → SignalAct → Prop} (h : traces.Run signals ok s₀ tr s) :
    traces.Run threads (fun _ _ => True) s₀.threads
      (tr.map fun e => (e.1.threads, e.2.act)) s.threads := by
  induction h with
  | start => exact .start
  | step a _ he _ ih =>
    rw [List.map_append]
    exact .step a.act ih he.1 trivial

/-- In turn, and not a lock that finds `is_busy` cleared. -/
def Marked (s : Threads) : Act → Prop
  | .step t x =>
    ((s.pc t).at .lock = true → s.dma.is_busy = true) ∧
      ((s.pc t).at .get_file_size = true → ∀ r ∈ (s.pc t).request, ¬ r.overflows x.aligned) ∧
      ((s.pc t).past = true → (s.pc t).op = some .unlock → s.owner = none) ∧
      ((s.pc t).at_callback .write_file = true → ∃ k ∈ x.stream, (s.pc t).rx_size.toNat ≤ k)
  | .call _ _ | .complete _ _ => True

instance (r : Request) (aligned : Size) : Decidable (r.overflows aligned) :=
  inferInstanceAs (Decidable (_ ∧ _))

instance (s : Threads) : (a : Act) → Decidable (Marked s a)
  | .step _ _ => inferInstanceAs (Decidable (_ ∧ _))
  | .call _ _ | .complete _ _ => inferInstanceAs (Decidable True)

/-- Marked, and not a call of a thread that awaits its handler. -/
def MarkedCalls (s : Signals) (a : SignalAct) : Prop :=
  Marked s.threads a.act ∧
    match a.act with
    | .call t _ => ¬ s.Awaits t
    | .step _ _ | .complete _ _ => True

instance (s : Signals) : (a : SignalAct) → Decidable (MarkedCalls s a)
  | ⟨.call _ _, _⟩ => inferInstanceAs (Decidable (_ ∧ _))
  | ⟨.step _ _, _⟩ => inferInstanceAs (Decidable (_ ∧ _))
  | ⟨.complete _ _, _⟩ => inferInstanceAs (Decidable (_ ∧ _))

theorem Marked.inTurn {s : Threads} {a : Act} (h : Marked s a) : InTurn s a := by
  cases a with
  | step t x => exact ⟨fun hl => Or.inr (h.1 hl), h.2.1, h.2.2.1, h.2.2.2⟩
  | call t r => trivial
  | complete t out => trivial

theorem MarkedCalls.inTurn {s : Signals} {a : SignalAct} (h : MarkedCalls s a) :
    CallsInTurn s a := ⟨h.1.inTurn, h.2⟩

/-- The rest of a call that has locked, to the handler of its transfer. A call that
comes while the transfer is in flight is rejected. -/
def after_the_lock : List SignalAct :=
  plainly (List.replicate 25 (.step 0 well) ++ calls 1 request 8 ++
    [.complete 2 (List.replicate 32 0)] ++ List.replicate 13 (.step 2 well))

def with_the_lock : Signals := signals.after silent (plainly (calls 0 request 2))

theorem the_lock_is_in_turn :
    ∃ tr, traces.Run signals CallsInTurn silent tr with_the_lock := by
  have hbefore : traces.Run signals MarkedCalls silent _ _ :=
    System.run_of_enables (by decide : signals.Enables silent (plainly (calls 0 request 1)))
      (by decide)
  have hstill : (signals.after silent (plainly (calls 0 request 1))).threads.Still := by
    refine ⟨rfl, fun t => ?_⟩
    by_cases ht : t = 0
    · rw [ht]
      rfl
    · have hout := outside_of_run (n := 1) (threads_run hbefore) (fun _ => rfl) (by decide)
        (Nat.one_le_iff_ne_zero.mpr ht)
      rw [hout]
      rfl
  have hturn : StepInTurn (signals.after silent (plainly (calls 0 request 1))).threads 0 well :=
    ⟨fun _ => Or.inl hstill, by decide, by decide, by decide⟩
  have hstep : CallsInTurn (signals.after silent (plainly (calls 0 request 1)))
      ⟨.step 0 well, false⟩ := ⟨hturn, trivial⟩
  exact ⟨_, .step _ (hbefore.mono fun _ _ => MarkedCalls.inTurn) (by decide) hstep⟩

/-- The state after a whole transfer, and a call that is rejected meanwhile. -/
def called_back : Signals := signals.after with_the_lock after_the_lock

theorem one_transfer_is_served_once :
    called_back.threads.log.flatMap Event.calls = [(1, 2)] ∧ OneByOne called_back.threads ∧
      ∃ tr' s', traces.Run signals CallsInTurn called_back tr' s' ∧ s'.threads.Still ∧
        called_back.threads.log <+: s'.threads.log ∧ Served s'.threads.log := by
  obtain ⟨tr, hlock⟩ := the_lock_is_in_turn
  have hafter : traces.Run signals MarkedCalls with_the_lock _ called_back :=
    System.run_of_enables (by decide) (by decide)
  exact ⟨rfl, every_transfer_is_served_once silent_initial
    (hlock.append (hafter.mono fun _ _ => MarkedCalls.inTurn))⟩

/-! ## A transfer under another's record -/

/-- The request of another thread, and the answers to it. -/
def other : Request := { request with output_path := "other", callback_param := 3 }

def also_well : Outside := { well with tx_malloc := 3, rx_malloc := 4 }

/-- The first call starts its transfer. The second is rejected, and clears `is_busy`,
so the third is let in. It has written its own record when the first transfer completes. -/
def overwriting : List SignalAct :=
  plainly (calls 0 request 27 ++ calls 1 request 8 ++
    (.call 2 other :: List.replicate 20 (.step 2 also_well)) ++
    [.complete 3 (List.replicate 32 0)] ++ List.replicate 5 (.step 2 also_well) ++
    List.replicate 13 (.step 3 well))

theorem not_callback {p : Pc} {l : CallbackStep} {b : Callback}
    (h : p = .outside ∨ p.request.isSome = true) : p ≠ .callback l b := by
  rintro rfl
  rcases h with h | h <;> cases h

/-- The state that these steps lead to. -/
def overwritten : Signals := signals.after silent overwriting

/-- The completion of the first transfer calls the user callback of the third call. -/
theorem a_transfer_calls_anothers_callback :
    silent.Initial ∧
      traces.Run signals (fun _ _ => True) silent (signals.trace silent overwriting)
        overwritten ∧
      overwritten.threads.log.flatMap Event.expects = [(1, 2)] ∧
      overwritten.threads.log.flatMap Event.calls = [(1, 3)] ∧
      ¬ OneByOne overwritten.threads := by
  have hrun : traces.Run signals (fun _ _ => True) silent
      (signals.trace silent overwriting) overwritten :=
    System.run_of_enables (by decide) fun _ _ => trivial
  refine ⟨silent_initial, hrun, rfl, rfl, fun h => ?_⟩
  have hnone : ∀ t l b, overwritten.threads.pc t ≠ .callback l b := by
    intro t l b
    refine not_callback ?_
    rcases Nat.lt_or_ge t 4 with ht | ht
    · have hfour : ∀ u < 4, overwritten.threads.pc u = .outside ∨
          (overwritten.threads.pc u).request.isSome = true := by decide
      exact hfour t ht
    · exact Or.inl (outside_of_run (threads_run hrun) (fun _ => rfl) (by decide) ht)
  exact absurd (h.served rfl hnone).calls (by decide)

/-! ## A thread that calls again -/

/-- The thread has not locked in its call. -/
def Pc.unlocked : Pc → Bool
  | .outside => true
  | .call l _ => l.region == .before
  | .callback _ _ => false

/-- Thread `u` owns the mutex, below its handler `t` that waits for it. -/
structure Stuck (s : Signals) (u t : Thread) : Prop where
  owner : s.threads.owner = some u
  handler : (t, u) ∈ s.handlers
  waits : (s.threads.pc t).at_callback .lock = true
  others : ∀ v, v ≠ u → v ≠ t → (s.threads.pc v).unlocked = true
  in_flight : s.threads.in_flight = []

namespace Stuck

variable {s : Signals} {u t : Thread}

theorem suspended (h : Stuck s u t) : s.Suspended u := by
  refine ⟨(t, u), h.handler, rfl, ?_⟩
  have hat := h.waits
  cases hp : s.threads.pc t with
  | outside => rw [hp] at hat; cases hat
  | call l c => rw [hp] at hat; cases hat
  | callback l b =>
    rw [hp, Pc.at_callback, beq_iff_eq] at hat
    rw [hat]
    rfl

/-- The thread and its handler take no step, and what the others do leaves them so. -/
theorem next (h : Stuck s u t) {a : SignalAct} (he : s.Enabled a) : Stuck (s.next a) u t := by
  obtain ⟨act, b⟩ := a
  have hwaits : s.threads.pc t ≠ .outside ∧ (s.threads.pc t).op = some .lock := by
    have hat := h.waits
    cases hp : s.threads.pc t with
    | outside => rw [hp] at hat; cases hat
    | call l c => rw [hp] at hat; cases hat
    | callback l b =>
      rw [hp, Pc.at_callback, beq_iff_eq] at hat
      subst hat
      refine ⟨?_, rfl⟩
      rintro ⟨⟩
  have hother : ∀ v p, v ≠ u → v ≠ t → p.unlocked = true →
      Stuck ⟨s.threads.goto v p, s.process, s.handlers⟩ u t := by
    intro v p hu ht hp
    refine ⟨h.owner, h.handler, ?_, fun w hwu hwt => ?_, h.in_flight⟩
    · change (Function.update s.threads.pc v p t).at_callback .lock = true
      rw [Function.update_of_ne ht.symm]
      exact h.waits
    · change (Function.update s.threads.pc v p w).unlocked = true
      by_cases hw : w = v
      · rw [hw, Function.update_self]
        exact hp
      · rw [Function.update_of_ne hw]
        exact h.others w hwu hwt
  cases act with
  | call v r =>
    obtain ⟨hout, hsus, -⟩ := he
    refine hother v _ ?_ ?_ rfl
    · rintro rfl
      exact hsus h.suspended
    · rintro rfl
      exact hwaits.1 hout
  | complete v out =>
    obtain ⟨-, fl, rest, hfl, -⟩ := completes_of_enabled he.1
    rw [h.in_flight] at hfl
    cases hfl
  | step v x =>
    obtain ⟨hready, hsus, -⟩ := he
    have hnolock : (s.threads.pc v).op ≠ some .lock := by
      intro hlock
      have hfree := hready.2.1 hlock
      rw [h.owner] at hfree
      cases hfree
    have hu : v ≠ u := by
      rintro rfl
      exact hsus h.suspended
    have ht : v ≠ t := by
      rintro rfl
      exact hnolock hwaits.2
    have hun := h.others v hu ht
    cases hp : s.threads.pc v with
    | outside => exact absurd hp hready.1
    | callback l b => rw [hp] at hun; cases hun
    | call l c =>
      rw [hp] at hun hnolock
      -- of the two steps before the lock, only the first one comes
      obtain rfl : l = .check_dev := by
        cases l <;> first | rfl | exact absurd rfl hnolock | cases hun
      have hstep : s.threads.step v x = s.threads.goto v (.call .lock c) ∨
          s.threads.step v x = s.threads.goto v .outside := by
        rw [step_call x hp, call_step]
        split_ifs
        · exact Or.inl rfl
        · exact Or.inr rfl
      have hsame : s.next ⟨.step v x, b⟩ = ⟨s.threads.step v x, s.process, s.handlers⟩ := by
        simp [Signals.next, Threads.next, hp, Pc.at]
      rw [hsame]
      rcases hstep with hs | hs <;> rw [hs]
      · exact hother v _ hu ht rfl
      · exact hother v _ hu ht rfl

end Stuck

/-- The thread of a transfer in flight calls again, and has locked when its handler begins. -/
def calling_again : List SignalAct :=
  plainly (List.replicate 25 (.step 0 well) ++ [.complete 1 (List.replicate 32 0)] ++
    calls 0 request 2 ++ List.replicate 4 (.step 1 well))

/-- All its steps are in turn, but the transfer never comes to an end. -/
theorem a_thread_waits_for_itself : ∃ tr s,
    traces.Run signals (fun s a => InTurn s.threads a.act) silent tr s ∧
      ∀ tr' s', traces.Run signals (fun _ _ => True) s tr' s' → ¬ s'.threads.Still := by
  obtain ⟨tr, hlock⟩ := the_lock_is_in_turn
  have hbefore : traces.Run signals (fun _ _ => True) silent _ with_the_lock :=
    System.run_of_enables (by decide) fun _ _ => trivial
  have hafter : traces.Run signals (fun s a => Marked s.threads a.act) with_the_lock _
      (signals.after with_the_lock calling_again) :=
    System.run_of_enables (by decide) (by decide)
  have hrun : traces.Run signals (fun s a => InTurn s.threads a.act) silent _ _ :=
    (hlock.mono fun _ _ ho => ho.1).append (hafter.mono fun _ _ ho => ho.inTurn)
  have hstuck : Stuck (signals.after with_the_lock calling_again) 0 1 := by
    refine ⟨by decide, by decide, by decide, fun v h0 h1 => ?_, by decide⟩
    rw [outside_of_run (n := 2) (threads_run (hbefore.append (hafter.mono fun _ _ _ => trivial)))
      (fun _ => rfl) (by decide) ((Nat.two_le_iff v).mpr ⟨h0, h1⟩)]
    rfl
  refine ⟨_, _, hrun, fun tr' s' hr hstill => ?_⟩
  have hend : Stuck s' 0 1 :=
    hr.inv (I := fun s => Stuck s 0 1) hstuck fun _ _ hs he _ => hs.next he
  have hwaits := hend.waits
  have hact := hstill.2 1
  cases hp : s'.threads.pc 1 with
  | callback l b => rw [hp] at hact; cases hact
  | outside => rw [hp] at hwaits; cases hwaits
  | call l c => rw [hp] at hwaits; cases hwaits

end aes
