-- Which transfer a completion belongs to. `is_busy` is to keep a second call
-- out while a transfer is under way, but a call that is rejected clears it.
-- In the runs where no other call slips through, the transfers are served one
-- after the other, each with its own record.
import AesMusicPlayer.TransferSteps

open owned_mutex traces

namespace aes

/-! ## Transfers under way -/

/-- The thread prepares a transfer, takes back what it has allocated for one, or
runs the callback of one. -/
def Pc.active : Pc → Bool
  | .outside => false
  | .call l c =>
    match l with
    | .check_dev | .lock | .test_busy | .last_unlock | .catch_unlock => false
    | .free_tx | .free_rx | .erase | .clear_busy => c.tx_buff != 0
    | _ => true
  | .callback _ _ => true

/-- No transfer is under way. -/
def Threads.Still (s : Threads) : Prop := s.in_flight = [] ∧ ∀ t, (s.pc t).active = false

/-- Only `t` works on a transfer. -/
def Threads.Only (s : Threads) (t : Thread) : Prop :=
  s.in_flight = [] ∧ ∀ u, u ≠ t → (s.pc u).active = false

/-- The events of transfers that came one after the other. Each delivered the whole
of its own receive buffer, which its own output buffer holds, and then called its own
user callback. -/
inductive Served : List Event → Prop
  | nil : Served []
  | append {log : List Event} {r : Request} {fl : Flight} {out : Bytes} :
      Served log → r.Suits fl → out.length = fl.rx_size.toNat →
      Served (log ++ episode r fl out)

/-- The user callback and the parameter that a started transfer is to call. -/
def Event.expects : Event → List (Ptr × Ptr)
  | .started r _ => if r.callback ≠ 0 then [(r.callback, r.callback_param)] else []
  | _ => []

/-- The user callback and the parameter that were called. -/
def Event.calls : Event → List (Ptr × Ptr)
  | .invoked user_callback _ callback_param => [(user_callback, callback_param)]
  | _ => []

theorem episode_calls (r : Request) (fl : Flight) (out : Bytes) :
    (episode r fl out).flatMap Event.calls = (episode r fl out).flatMap Event.expects := by
  unfold episode Request.delivery Request.invocation
  by_cases hcall : r.callback ≠ 0 <;> split_ifs <;> simp_all [Event.calls, Event.expects]

/-- Each started transfer has called its own user callback once, with its own
parameter, in the order of the starts. -/
theorem Served.calls {log : List Event} (h : Served log) :
    log.flatMap Event.calls = log.flatMap Event.expects := by
  induction h with
  | nil => rfl
  | @append log r fl out _ _ _ ih =>
    rw [List.flatMap_append, List.flatMap_append, ih, episode_calls]

/-- How far the transfer under way has come. -/
inductive Stage (s : Threads) : Prop
  | still : s.Still → s.dma.dma_memories = [] → Served s.log → Stage s
  | preparing {t : Thread} {l : CallStep} {c : Call} : s.Only t → s.pc t = .call l c →
      .test_busy < l → l < .last_unlock → Prepared s l c → Served s.log → Stage s
  | failing {t : Thread} {l : CallStep} {c : Call} : s.Only t → s.pc t = .call l c →
      .last_unlock < l → l < .catch_unlock → Failing s l c → Served s.log → Stage s
  | flying {r : Request} {fl : Flight} {base : List Event} : s.in_flight = [fl] →
      (∀ t, (s.pc t).active = false) → Recorded s.dma r fl → s.callback_set = true →
      Served base → s.log = base ++ [.started r fl] → Stage s
  | calling_back {t : Thread} {l : CallbackStep} {b : Callback} {r : Request} {fl : Flight}
      {out : Bytes} {base : List Event} : s.Only t → s.pc t = .callback l b →
      CallingBack s l b r fl out base → Served base → Stage s

theorem active_of_prepares {l : CallStep} {c : Call} (h : .test_busy < l) (h' : l < .last_unlock) :
    (Pc.call l c).active = true := by
  cases l <;> first | rfl | exact absurd h (by decide) | exact absurd h' (by decide)

theorem active_of_fails {l : CallStep} {c : Call} (h : .last_unlock < l) (h' : l < .catch_unlock)
    (hc : c.tx_buff ≠ 0) : (Pc.call l c).active = true := by
  cases l <;> first | exact bne_iff_ne.mpr hc | exact absurd h (by decide) |
    exact absurd h' (by decide)

theorem Threads.Only.eq_of_active {s : Threads} {t u : Thread} (h : s.Only u)
    (hact : (s.pc t).active = true) : u = t := by
  by_contra hne
  rw [h.2 t (Ne.symm hne)] at hact
  cases hact

/-- The thread that is active is the only one. -/
theorem Stage.only {s : Threads} {t : Thread} (h : Stage s) (hact : (s.pc t).active = true) :
    s.Only t := by
  have hone : ∀ u, s.Only u → s.Only t := fun u hu => hu.eq_of_active hact ▸ hu
  cases h with
  | still hs _ _ => rw [hs.2 t] at hact; cases hact
  | preparing ho _ _ _ _ _ => exact hone _ ho
  | failing ho _ _ _ _ _ => exact hone _ ho
  | flying _ hnone _ _ _ _ => rw [hnone t] at hact; cases hact
  | calling_back ho _ _ _ => exact hone _ ho

/-- When no transfer is under way, no memory is held and all transfers are served. -/
theorem Stage.of_still {s : Threads} (h : Stage s) (hs : s.Still) :
    s.dma.dma_memories = [] ∧ Served s.log := by
  have hnone : ∀ {u : Thread} {p : Pc}, s.pc u = p → p.active = true → False := by
    intro u p hu hp
    rw [← hu, hs.2 u] at hp
    cases hp
  cases h with
  | still _ hmem hlog => exact ⟨hmem, hlog⟩
  | preparing _ hp hl hl' _ _ => exact (hnone hp (active_of_prepares hl hl')).elim
  | failing _ hp hl hl' hf _ => exact (hnone hp (active_of_fails hl hl' hf.tx)).elim
  | flying hfl _ _ _ _ _ => rw [hs.1] at hfl; cases hfl
  | calling_back _ hp _ _ => exact (hnone hp rfl).elim

/-! ## Steps that leave the transfer under way alone -/

/-- A step of `t` that at most touches the mutex and `is_busy`. -/
structure Passive (t : Thread) (s s' : Threads) : Prop where
  dma : s'.dma = { s.dma with is_busy := s'.dma.is_busy }
  in_flight : s'.in_flight = s.in_flight
  callback_set : s'.callback_set = s.callback_set
  log : s'.log = s.log
  others : ∀ u, u ≠ t → s'.pc u = s.pc u
  before : (s.pc t).active = false
  after : (s'.pc t).active = false

namespace Passive

variable {t : Thread} {s s' : Threads}

theorem active (h : Passive t s s') (u : Thread) : (s'.pc u).active = (s.pc u).active := by
  by_cases hu : u = t
  · rw [hu, h.before, h.after]
  · rw [h.others u hu]

theorem still (h : Passive t s s') (hs : s.Still) : s'.Still :=
  ⟨h.in_flight.trans hs.1, fun u => (h.active u).trans (hs.2 u)⟩

theorem only (h : Passive t s s') {u : Thread} (hs : s.Only u) : s'.Only u :=
  ⟨h.in_flight.trans hs.1, fun v hv => (h.active v).trans (hs.2 v hv)⟩

theorem pc_of_active (h : Passive t s s') {u : Thread} {p : Pc} (hu : s.pc u = p)
    (hp : p.active = true) : s'.pc u = p := by
  rw [h.others u, hu]
  rintro rfl
  rw [← hu, h.before] at hp
  cases hp

theorem stage (h : Passive t s s') (hph : Stage s) : Stage s' := by
  have hmem : s'.dma.dma_memories = s.dma.dma_memories := by rw [h.dma]
  have hcur : s'.dma.current_transfer = s.dma.current_transfer := by rw [h.dma]
  have hmap : s'.dma.mapped = s.dma.mapped := by rw [h.dma]
  have hcont : s'.dma.memory = s.dma.memory := by rw [h.dma]
  cases hph with
  | still hs h1 h2 => exact .still (h.still hs) (hmem.trans h1) (h.log ▸ h2)
  | preparing ho hp hl hl' hprep hserved =>
    refine .preparing (h.only ho) (h.pc_of_active hp (active_of_prepares hl hl')) hl hl' ⟨?_, ?_⟩
      (h.log ▸ hserved)
    · intro m hm
      have hfact := hprep.fact m hm
      unfold Fact at hfact ⊢
      rw [hcur, hmap, h.callback_set]
      exact hfact
    · rw [hmem, hprep.memories]
  | failing ho hp hl hl' hf hserved =>
    refine .failing (h.only ho) (h.pc_of_active hp (active_of_fails hl hl' hf.tx)) hl hl'
      ⟨hf.tx, ?_, ?_⟩ (h.log ▸ hserved)
    · rw [hmem]
      exact hf.mine
    · rw [hmem]
      exact hf.erased
  | flying hfl hact hrec hset hserved hlog =>
    refine .flying (h.in_flight.trans hfl) (fun u => (h.active u).trans (hact u))
      ⟨hrec.suits, hcur.trans hrec.current, hmem.trans hrec.memories⟩
      (h.callback_set.trans hset) hserved (h.log.trans hlog)
  | calling_back ho hp hcb hserved =>
    refine .calling_back (h.only ho) (h.pc_of_active hp rfl)
      { hcb with current := hcur.trans hcb.current, memories := hmem.trans hcb.memories
                 contents := ?_, log := h.log.trans hcb.log } hserved
    rw [hcont]
    exact hcb.contents

end Passive

/-- A step of a call that is not active, and that is not let in. -/
theorem call_step_passive {t : Thread} {x : Outside} {c : Call} {s : Threads} {l : CallStep}
    (hp : s.pc t = .call l c) (hs : Sound l c) (hact : (s.pc t).active = false)
    (hb : l = .test_busy → s.dma.is_busy = true) :
    Passive t s (call_step t x c s l) ∧ ((call_step t x c s l).dma.is_busy = s.dma.is_busy ∨
      (s.pc t).inside = true) := by
  have hothers : ∀ s' : Threads, ∀ p', s'.pc = Function.update s.pc t p' →
      ∀ u, u ≠ t → s'.pc u = s.pc u := by
    intro s' p' hpc u hu
    rw [hpc, Function.update_of_ne hu]
  have htx : .last_unlock < l → l < .catch_unlock → c.tx_buff = 0 := by
    intro h h'
    by_contra hc
    rw [hp, active_of_fails h h' hc] at hact
    cases hact
  cases l with
  | check_dev =>
    simp only [call_step]
    split_ifs
    · exact ⟨⟨rfl, rfl, rfl, rfl, hothers _ _ rfl, hact, by rw [Threads.goto_pc_self]; rfl⟩,
        Or.inl rfl⟩
    · exact ⟨⟨rfl, rfl, rfl, rfl, hothers _ _ rfl, hact, by rw [Threads.goto_pc_self]; rfl⟩,
        Or.inl rfl⟩
  | lock | last_unlock | catch_unlock =>
    exact ⟨⟨rfl, rfl, rfl, rfl, hothers _ _ rfl, hact,
      by rw [call_step, Threads.goto_pc_self]; rfl⟩, Or.inl rfl⟩
  | test_busy =>
    have hno : (c.tx_buff != 0) = false := by rw [hs.no_tx (by decide)]; rfl
    simp only [call_step, if_pos (hb rfl)]
    exact ⟨⟨rfl, rfl, rfl, rfl, hothers _ _ rfl, hact, by rw [Threads.throw_pc_self]; exact hno⟩,
      Or.inl rfl⟩
  | free_tx =>
    have h0 := htx (by decide) (by decide)
    have hno : (c.tx_buff != 0) = false := by rw [h0]; rfl
    simp only [call_step, if_neg (not_not.mpr h0)]
    exact ⟨⟨rfl, rfl, rfl, rfl, hothers _ _ rfl, hact, by rw [Threads.goto_pc_self]; exact hno⟩,
      Or.inl rfl⟩
  | free_rx =>
    have h0 := htx (by decide) (by decide)
    have hno : (c.tx_buff != 0) = false := by rw [h0]; rfl
    simp only [call_step, if_neg (not_not.mpr (hs.both h0))]
    exact ⟨⟨rfl, rfl, rfl, rfl, hothers _ _ rfl, hact, by rw [Threads.goto_pc_self]; exact hno⟩,
      Or.inl rfl⟩
  | erase =>
    have h0 := htx (by decide) (by decide)
    have hno : (c.tx_buff != 0) = false := by rw [h0]; rfl
    have hnone : ¬ (c.rx_buff ≠ 0 ∨ c.tx_buff ≠ 0) := by
      rw [not_or, not_not, not_not]
      exact ⟨hs.both h0, h0⟩
    simp only [call_step, if_neg hnone]
    exact ⟨⟨rfl, rfl, rfl, rfl, hothers _ _ rfl, hact, by rw [Threads.goto_pc_self]; exact hno⟩,
      Or.inl rfl⟩
  | clear_busy =>
    have h0 := htx (by decide) (by decide)
    have hearly : c.late = false := by
      rw [Bool.eq_false_iff]
      exact fun hl => hs.late (by decide) hl h0
    refine ⟨⟨rfl, rfl, rfl, rfl, hothers _ _ rfl, hact,
      by rw [call_step, Threads.goto_pc_self]; rfl⟩, Or.inr ?_⟩
    rw [hp]
    exact congrArg (!·) hearly
  | _ => rw [hp] at hact; cases hact

/-! ## The invariant -/

/-- The condition on the steps of calls and callbacks. A call that locks while a
transfer is under way finds it marked as busy. No output that is too large slips past
the signed comparison. A call that has unlocked early finds the mutex free when it
unlocks again. The output file takes the whole output. -/
structure StepInTurn (s : Threads) (t : Thread) (x : Outside) : Prop where
  marked : (s.pc t).at .lock = true → s.Still ∨ s.dma.is_busy = true
  fits : (s.pc t).at .get_file_size = true → ∀ r ∈ (s.pc t).request, ¬ r.overflows x.aligned
  free : (s.pc t).past = true → (s.pc t).op = some .unlock → s.owner = none
  written : (s.pc t).at_callback .write_file = true →
    ∃ k ∈ x.stream, (s.pc t).rx_size.toNat ≤ k

def InTurn (s : Threads) : Act → Prop
  | .step t x => StepInTurn s t x
  | .call _ _ | .complete _ _ => True

structure Orderly (s : Threads) : Prop where
  inside : ∀ t, (s.pc t).inside = true → s.owner = some t
  sound : ∀ t, (s.pc t).Sound
  tested : ∀ t, (s.pc t).at .test_busy = true → s.dma.is_busy = false → s.Still
  stage : Stage s

theorem orderly_initial {s : Threads} (h : s.Initial) : Orderly s where
  inside t ht := by rw [h.pc t] at ht; cases ht
  sound t := by rw [h.pc t]; trivial
  tested t ht := by rw [h.pc t] at ht; cases ht
  stage := .still ⟨h.in_flight, fun t => by rw [h.pc t]; rfl⟩ h.dma_memories
    (by rw [h.log]; exact .nil)

/-- A thread inside owns the mutex, as long as a second unlock finds it free. -/
theorem Orderly.inside_next {s : Threads} {a : Act} (h : Orderly s) (he : s.Enabled a)
    (hfree : (s.pc a.thread).past = true → mutex_op s a = some .unlock → s.owner = none) :
    ∀ t, ((s.next a).pc t).inside = true → (s.next a).owner = some t := by
  intro t ht
  obtain ⟨p', hm⟩ := enabled_moves he
  rw [hm.owner]
  by_cases hu : t = a.thread
  · subst hu
    rw [hm.pc_self] at ht
    rcases hm.inside with hin | ⟨-, hin⟩
    · rw [ht] at hin
      cases hop : mutex_op s a with
      | none =>
        rw [hop] at hin
        exact h.inside _ hin.symm
      | some op =>
        rw [hop] at hin
        cases op with
        | lock => rfl
        | unlock => cases hin
    · rw [ht] at hin
      cases hin
  · rw [hm.pc_other hu] at ht
    have howner := h.inside t ht
    cases hop : mutex_op s a with
    | none => exact howner
    | some op =>
      exfalso
      cases op with
      | lock =>
        rw [free_of_lock he hop] at howner
        cases howner
      | unlock =>
        cases hpast : (s.pc a.thread).past with
        | true =>
          rw [hfree hpast hop] at howner
          cases howner
        | false =>
          have hmine := h.inside _ (inside_of_unlock (op_of_mutex_op hop) hpast)
          rw [howner, Option.some.injEq] at hmine
          exact hu hmine

theorem Orderly.sound_next {s : Threads} {a : Act} (h : Orderly s) (he : s.Enabled a) :
    ∀ t, ((s.next a).pc t).Sound := by
  intro t
  obtain ⟨p', hm⟩ := enabled_moves he
  by_cases hu : t = a.thread
  · subst hu
    cases a with
    | call t r =>
      change ((s.goto t _).pc t).Sound
      rw [Threads.goto_pc_self]
      exact ⟨fun _ => rfl, fun _ => rfl, fun hn => absurd hn (by decide),
        fun hn => absurd hn (by decide), fun _ => rfl, fun hn => absurd hn (by decide)⟩
    | step t x =>
      change ((s.step t x).pc t).Sound
      have hs := h.sound t
      cases hp : s.pc t with
      | outside => exact absurd hp he.1
      | call l c =>
        rw [hp] at hs
        rw [step_call x hp]
        exact call_step_sound hs
      | callback l b =>
        rw [step_callback x hp]
        cases l <;> simp only [callback_step] <;> (try split_ifs) <;>
          simp only [Threads.goto_pc_self] <;> trivial
    | complete t out =>
      obtain ⟨hp, fl, rest, hfl, -⟩ := completes_of_enabled he
      change ((s.complete t out).pc t).Sound
      rw [complete_cons hfl]
      split_ifs
      · rw [Threads.goto_pc_self]
        trivial
      · exact h.sound t
  · rw [hm.pc_other hu]
    exact h.sound t

/-! ## The steps of the transfer under way -/

theorem call_step_frame {t : Thread} {x : Outside} {c : Call} {s : Threads} {l : CallStep}
    (hl : l ≠ .start) (h : s.in_flight = []) :
    (call_step t x c s l).in_flight = [] ∧ (call_step t x c s l).log = s.log := by
  cases l <;> simp only [call_step] <;> (try split_ifs) <;>
    first | exact ⟨h, rfl⟩ | exact ⟨rfl, rfl⟩ | exact absurd rfl hl

theorem callback_step_in_flight (t : Thread) (x : Outside) (b : Callback) (s : Threads)
    (l : CallbackStep) : (callback_step t x b s l).in_flight = s.in_flight := by
  cases l <;> simp only [callback_step] <;> (try split_ifs) <;> rfl

theorem still_of_only {s : Threads} {t : Thread} (h : s.Only t) (ht : (s.pc t).active = false) :
    s.Still := by
  refine ⟨h.1, fun u => ?_⟩
  by_cases hu : u = t
  · rw [hu, ht]
  · exact h.2 u hu

theorem PreparesTo.stage {s : Threads} {t : Thread} (h : PreparesTo t s) (ho : s.Only t)
    (hlog : Served s.log) : Stage s := by
  cases h with
  | next hp hl hl' hprep => exact .preparing ho hp hl hl' hprep hlog
  | early hp htx hmem =>
    refine .still (still_of_only ho ?_) hmem hlog
    rw [hp, Pc.active, htx]
    rfl
  | failing hp hf => exact .failing ho hp (by decide) (by decide) hf hlog

theorem CallsBackTo.stage {s : Threads} {t : Thread} {r : Request} {fl : Flight} {out : Bytes}
    {base : List Event} (h : CallsBackTo t s r fl out base) (ho : s.Only t) (hb : Served base)
    (hsuits : r.Suits fl) (hfull : out.length = fl.rx_size.toNat) : Stage s := by
  cases h with
  | next hp hcb => exact .calling_back ho hp hcb hb
  | done hp hmem hlog =>
    refine .still (still_of_only ho (by rw [hp]; rfl)) hmem ?_
    rw [hlog]
    exact .append hb hsuits hfull

/-- A started transfer is in flight, and its record is its own. -/
theorem Prepared.flies {s : Threads} {t : Thread} {x : Outside} {c : Call}
    (h : Prepared s .start c) (hs : Sound .start c) (ho : s.Only t) (hlog : Served s.log) :
    Stage (call_step t x c s .start) := by
  have hothers : ∀ (s' : Threads) (p' : Pc), s'.pc = Function.update s.pc t p' →
      ∀ u, u ≠ t → (s'.pc u).active = false := by
    intro s' p' hpc u hu
    rw [hpc, Function.update_of_ne hu]
    exact ho.2 u hu
  simp only [call_step]
  split_ifs
  · exact (h.throws true (hs.tx (by decide) (by decide)) rfl).stage
      ⟨ho.1, hothers _ _ rfl⟩ hlog
  · have hrec := h.recorded hs
    have hone : s.in_flight ++ [c.flight] = [c.flight] := by rw [ho.1, List.nil_append]
    refine .flying hone ?_ ⟨hrec.suits, hrec.current, hrec.memories⟩
      (h.fact .set_callback (by decide)) hlog rfl
    intro u
    by_cases hu : u = t
    · rw [hu, Threads.goto_pc_self]
      rfl
    · exact hothers _ _ rfl u hu

/-- A completion belongs to the transfer whose record is there. -/
theorem Stage.complete {s : Threads} {t : Thread} {out : Bytes} (h : Stage s)
    (he : s.Enabled (.complete t out)) : Stage (s.complete t out) := by
  obtain ⟨hp, fl, rest, hfl, hfull⟩ := completes_of_enabled he
  cases h with
  | still hs _ _ => rw [hs.1] at hfl; cases hfl
  | preparing ho _ _ _ _ _ => rw [ho.1] at hfl; cases hfl
  | failing ho _ _ _ _ _ => rw [ho.1] at hfl; cases hfl
  | calling_back ho _ _ _ => rw [ho.1] at hfl; cases hfl
  | @flying r fl₁ base hone hact hrec hset hserved hlog =>
    rw [hone, List.cons.injEq] at hfl
    obtain ⟨rfl, rfl⟩ := hfl
    rw [complete_cons hone, if_pos hset]
    have honly : ((s.finish fl₁ [] out).goto t
        (.callback .find_rx ⟨.nothing, .nothing⟩)).Only t := by
      refine ⟨rfl, fun u hu => ?_⟩
      change (Function.update s.pc t _ u).active = false
      rw [Function.update_of_ne hu]
      exact hact u
    refine .calling_back honly (Threads.goto_pc_self ..)
      { suits := hrec.suits, full := hfull, current := hrec.current, memories := hrec.memories
        found_rx := fun hn => absurd hn (by decide)
        found_tx := fun hn => absurd hn (by decide)
        contents := fun _ => Function.update_self .., taken := trivial, log := ?_ } hserved
    change s.log ++ [.completed _ out] = _
    rw [hlog, List.append_assoc]
    rfl

/-- A step of the thread that works on the transfer. -/
theorem Orderly.active_step {s : Threads} {t : Thread} {x : Outside} (h : Orderly s)
    (he : s.Enabled (.step t x)) (ho : StepInTurn s t x) (hact : (s.pc t).active = true) :
    Stage (s.step t x) := by
  obtain ⟨p', hm⟩ := enabled_moves he
  change Moves s (s.step t x) _ p' at hm
  have hon := h.stage.only hact
  have honly : (s.step t x).in_flight = [] → (s.step t x).Only t := by
    intro hfl
    refine ⟨hfl, fun u hu => ?_⟩
    rw [hm.pc_other hu]
    exact hon.2 u hu
  -- the phase is that of the active thread
  cases h.stage with
  | still hs _ _ => rw [hs.2 t] at hact; cases hact
  | flying _ hnone _ _ _ _ => rw [hnone t] at hact; cases hact
  | @preparing u l c hu hp hl hl' hprep hserved =>
    obtain rfl := hu.eq_of_active hact
    have hs : Sound l c := by
      have := h.sound u
      rw [hp] at this
      exact this
    rw [step_call x hp] at honly ⊢
    by_cases hstart : l = .start
    · subst hstart
      exact hprep.flies hs hon hserved
    · have hframe := call_step_frame (t := u) (x := x) (c := c) hstart hon.1
      have hlt : l < .start :=
        ((CallStep.lt_succ (l := .start) rfl).mp hl').resolve_right hstart
      have hto : PreparesTo u (call_step u x c s l) := by
        refine hprep.step hs hl hlt ?_ ?_
        · rw [← hp]
          exact he
        · rintro rfl
          exact ho.fits (by rw [hp]; rfl) c.request (by rw [hp]; rfl)
      exact hto.stage (honly hframe.1) (by rw [hframe.2]; exact hserved)
  | @failing u l c hu hp hl hl' hf hserved =>
    obtain rfl := hu.eq_of_active hact
    have hne : l ≠ .start := by
      rintro rfl
      exact absurd hl (by decide)
    have hframe := call_step_frame (t := u) (x := x) (c := c) hne hon.1
    rw [step_call x hp] at honly ⊢
    by_cases hclear : l = .clear_busy
    · subst hclear
      refine .still (still_of_only (honly hframe.1) ?_) (hf.erased (by decide)) ?_
      · rw [call_step, Threads.goto_pc_self]
        rfl
      · rw [hframe.2]
        exact hserved
    · have hlt : l < .clear_busy :=
        ((CallStep.lt_succ (l := .clear_busy) rfl).mp hl').resolve_right hclear
      obtain ⟨l', hp', hl1, hf'⟩ := hf.step (t := u) (x := x) hl hlt
      refine .failing (honly hframe.1) hp' ((CallStep.lt_succ hl1).mpr (Or.inl hl)) ?_ hf'
        (by rw [hframe.2]; exact hserved)
      change l'.ctorIdx < _
      rw [hl1]
      exact Nat.succ_lt_succ hlt
  | @calling_back u l b r fl out base hu hp hcb hserved =>
    obtain rfl := hu.eq_of_active hact
    have hto : CallsBackTo u (callback_step u x b s l) r fl out base := by
      refine hcb.step ?_
      rintro rfl
      obtain ⟨k, hk, hle⟩ := ho.written (by rw [hp]; rfl)
      rw [hp, Pc.rx_size, hcb.found_rx (by decide)] at hle
      exact ⟨k, hk, hle⟩
    rw [step_callback x hp] at honly ⊢
    exact hto.stage (honly ((callback_step_in_flight ..).trans hon.1)) hserved hcb.suits
      hcb.full

/-! ## The other steps -/

theorem passive_call {s : Threads} {t : Thread} (r : Request) (hp : s.pc t = .outside) :
    Passive t s (s.next (.call t r)) where
  dma := rfl
  in_flight := rfl
  callback_set := rfl
  log := rfl
  others u hu := Function.update_of_ne hu ..
  before := by rw [hp]; rfl
  after := congrArg Pc.active (Threads.goto_pc_self ..)

/-- A call that is let in finds no transfer under way. -/
theorem let_in {s : Threads} {t : Thread} {x : Outside} {c : Call} (hph : Stage s)
    (hstill : s.Still) (hidle : s.dma.is_busy = false) :
    Stage (call_step t x c s .test_busy) := by
  have hquiet := hph.of_still hstill
  have hnot : ¬ s.dma.is_busy = true := by rw [hidle]; exact nofun
  simp only [call_step, if_neg hnot]
  refine .preparing (t := t) ⟨hstill.1, ?_⟩ (Threads.goto_pc_self ..) (by decide) (by decide)
    ⟨?_, hquiet.1⟩ hquiet.2
  · intro u hu
    change (Function.update s.pc t _ u).active = false
    rw [Function.update_of_ne hu]
    exact hstill.2 u
  · intro m hm
    cases m <;> first | exact absurd hm (by decide) | trivial

/-- A step of a thread that is not active is passive, or lets the thread in. -/
theorem Orderly.inactive_step {s : Threads} {t : Thread} {x : Outside} (h : Orderly s)
    (he : s.Enabled (.step t x)) (hact : (s.pc t).active = false) :
    (Passive t s (s.step t x) ∧
        ((s.step t x).dma.is_busy = s.dma.is_busy ∨ (s.pc t).inside = true)) ∨
      ((s.pc t).at .test_busy = true ∧ s.dma.is_busy = false ∧
        ∃ c, s.step t x = call_step t x c s .test_busy) := by
  cases hp : s.pc t with
  | outside => exact absurd hp he.1
  | callback l b => rw [hp] at hact; cases hact
  | call l c =>
    rw [step_call x hp]
    have hs : Sound l c := by
      have := h.sound t
      rw [hp] at this
      exact this
    by_cases hin : l = .test_busy ∧ s.dma.is_busy = false
    · obtain ⟨rfl, hidle⟩ := hin
      exact Or.inr ⟨rfl, hidle, c, rfl⟩
    · left
      rw [← hp]
      refine call_step_passive hp hs hact ?_
      rintro rfl
      simpa using hin

theorem Orderly.stage_next {s : Threads} {a : Act} (h : Orderly s) (he : s.Enabled a)
    (ho : InTurn s a) : Stage (s.next a) := by
  cases a with
  | call t r => exact (passive_call r he).stage h.stage
  | complete t out => exact h.stage.complete he
  | step t x =>
    cases hact : (s.pc t).active with
    | true => exact h.active_step he ho hact
    | false =>
      rcases h.inactive_step he hact with ⟨hpass, -⟩ | ⟨hat, hidle, c, hstep⟩
      · exact hpass.stage h.stage
      · change Stage (s.step t x)
        rw [hstep]
        exact let_in h.stage (h.tested t hat hidle) hidle

/-- Only a call that locks comes to the test. -/
theorem lock_of_test {t : Thread} {x : Outside} {c : Call} {s : Threads} {l : CallStep}
    (ht : ((call_step t x c s l).pc t).at .test_busy = true) : l = .lock := by
  cases l <;> simp only [call_step] at ht <;> (try split_ifs at ht) <;>
    simp only [Threads.goto_pc_self, Threads.throw_pc_self] at ht <;>
    first | rfl | cases ht

theorem callback_not_at {t : Thread} {x : Outside} {b : Callback} {s : Threads}
    {l : CallbackStep} (m : CallStep) : ((callback_step t x b s l).pc t).at m = false := by
  cases l <;> simp only [callback_step] <;> (try split_ifs) <;>
    simp only [Threads.goto_pc_self] <;> rfl

/-- Only `clear_busy` clears `is_busy`. -/
theorem clear_of_busy {t : Thread} {x : Outside} {c : Call} {s : Threads} {l : CallStep}
    (hb : s.dma.is_busy = true) (hb' : (call_step t x c s l).dma.is_busy = false) :
    l = .clear_busy := by
  cases l <;> simp only [call_step] at hb' <;> (try split_ifs at hb') <;>
    first | rfl | (change s.dma.is_busy = false at hb'; rw [hb] at hb'; cases hb') | cases hb'

theorem callback_clear_of_busy {t : Thread} {x : Outside} {b : Callback} {s : Threads}
    {l : CallbackStep} (hb : s.dma.is_busy = true)
    (hb' : (callback_step t x b s l).dma.is_busy = false) : l = .clear_busy := by
  cases l <;> simp only [callback_step] at hb' <;> (try split_ifs at hb') <;>
    first | rfl | (change s.dma.is_busy = false at hb'; rw [hb] at hb'; cases hb')

theorem inside_of_test {p : Pc} (h : p.at .test_busy = true) : p.inside = true := by
  cases p with
  | outside => cases h
  | call l c =>
    rw [Pc.at, beq_iff_eq] at h
    rw [h]
    rfl
  | callback l b => cases h

/-- Two threads are not inside. -/
theorem Orderly.inside_unique {s : Threads} {t u : Thread} (h : Orderly s)
    (ht : (s.pc t).inside = true) (hu : (s.pc u).inside = true) : t = u := by
  have howner := h.inside t ht
  rw [h.inside u hu, Option.some.injEq] at howner
  exact howner.symm

/-- A transfer completes only when no call that is at the test can be let in. -/
theorem Orderly.tested_complete {s : Threads} {t u : Thread} {out : Bytes} (h : Orderly s)
    (he : s.Enabled (.complete t out)) (hu : ((s.complete t out).pc u).at .test_busy = true) :
    (s.complete t out).dma.is_busy = true := by
  obtain ⟨hp, fl, rest, hfl, -⟩ := completes_of_enabled he
  have hkept : (s.pc u).at .test_busy = true ∧
      (s.complete t out).dma.is_busy = s.dma.is_busy := by
    rw [complete_cons hfl] at hu ⊢
    by_cases hne : u = t
    · subst hne
      split_ifs at hu
      · rw [Threads.goto_pc_self] at hu
        cases hu
      · change (s.pc u).at .test_busy = true at hu
        rw [hp] at hu
        cases hu
    · split_ifs at hu ⊢
      · change (Function.update s.pc t _ u).at .test_busy = true at hu
        rw [Function.update_of_ne hne] at hu
        exact ⟨hu, rfl⟩
      · exact ⟨hu, rfl⟩
  rw [hkept.2]
  by_contra hidle
  have hstill := h.tested u hkept.1 (by simpa using hidle)
  rw [hstill.1] at hfl
  cases hfl

/-- A call that locks comes to the test. -/
theorem Orderly.tested_lock {s : Threads} {t : Thread} {x : Outside} (h : Orderly s)
    (he : s.Enabled (.step t x)) (ho : StepInTurn s t x)
    (ht : ((s.step t x).pc t).at .test_busy = true) (hidle : (s.step t x).dma.is_busy = false) :
    (s.step t x).Still := by
  cases hp : s.pc t with
  | outside => exact absurd hp he.1
  | callback l b =>
    rw [step_callback x hp, callback_not_at] at ht
    cases ht
  | call l c =>
    rw [step_call x hp] at ht hidle ⊢
    obtain rfl := lock_of_test ht
    have hs := h.sound t
    rw [hp] at hs
    have hpass := (call_step_passive (x := x) hp hs (by rw [hp]; rfl) nofun).1
    refine hpass.still ((ho.marked (by rw [hp]; rfl)).resolve_right ?_)
    rw [show s.dma.is_busy = false from hidle]
    exact nofun

/-- A thread that is not inside clears `is_busy` only for its own transfer, which has
not started. -/
theorem Orderly.still_of_clear {s : Threads} {t : Thread} {x : Outside} (h : Orderly s)
    (he : s.Enabled (.step t x)) (hout : (s.pc t).inside = false) (hbusy : s.dma.is_busy = true)
    (hidle : (s.step t x).dma.is_busy = false) : (s.step t x).Still := by
  cases hp : s.pc t with
  | outside => exact absurd hp he.1
  | callback l b =>
    rw [step_callback x hp] at hidle
    obtain rfl := callback_clear_of_busy hbusy hidle
    rw [hp] at hout
    cases hout
  | call l c =>
    rw [step_call x hp] at hidle ⊢
    obtain rfl := clear_of_busy hbusy hidle
    have hlate : c.late = true := by
      rw [hp] at hout
      simpa [Pc.inside, CallStep.region] using hout
    have hs := h.sound t
    rw [hp] at hs
    have hact : (s.pc t).active = true := by
      rw [hp]
      exact bne_iff_ne.mpr (hs.late (by decide) hlate)
    have hon := h.stage.only hact
    refine still_of_only (t := t) ⟨hon.1, fun v hv => ?_⟩ ?_
    · change (Function.update s.pc t _ v).active = false
      rw [Function.update_of_ne hv]
      exact hon.2 v hv
    · rw [call_step, Threads.goto_pc_self]
      rfl

/-- A call at the test that finds `is_busy` cleared finds no transfer under way. -/
theorem Orderly.tested_next {s : Threads} {a : Act} (h : Orderly s) (he : s.Enabled a)
    (ho : InTurn s a) : ∀ u, ((s.next a).pc u).at .test_busy = true →
      (s.next a).dma.is_busy = false → (s.next a).Still := by
  intro u hu hidle
  obtain ⟨p', hm⟩ := enabled_moves he
  cases a with
  | call t r =>
    by_cases hne : u = t
    · subst hne
      change ((s.goto u _).pc u).at .test_busy = true at hu
      rw [Threads.goto_pc_self] at hu
      cases hu
    · rw [hm.pc_other hne] at hu
      exact (passive_call r he).still (h.tested u hu hidle)
  | complete t out =>
    change (s.complete t out).dma.is_busy = false at hidle
    rw [h.tested_complete he hu] at hidle
    cases hidle
  | step t x =>
    by_cases hne : u = t
    · subst hne
      exact h.tested_lock he ho hu hidle
    · rw [hm.pc_other hne] at hu
      have hout : (s.pc t).inside = false := by
        by_contra hin
        exact hne (h.inside_unique (inside_of_test hu) (by simpa using hin))
      cases hbusy : s.dma.is_busy with
      | true => exact h.still_of_clear he hout hbusy hidle
      | false =>
        have hstill := h.tested u hu hbusy
        rcases h.inactive_step he (hstill.2 t) with ⟨hpass, -⟩ | ⟨hat, -⟩
        · exact hpass.still hstill
        · rw [inside_of_test hat] at hout
          cases hout

theorem orderly_next {s : Threads} {a : Act} (h : Orderly s) (he : s.Enabled a)
    (ho : InTurn s a) : Orderly (s.next a) where
  inside := by
    refine h.inside_next he ?_
    intro hpast hop
    cases a with
    | call t r => cases hop
    | step t x => exact ho.free hpast hop
    | complete t out => cases hop
  sound := h.sound_next he
  tested := h.tested_next he ho
  stage := h.stage_next he ho

/-! ## The transfers are served one after the other -/

/-- At most one transfer is in flight, the one that was started last. The events are
those of the transfers served so far, and the first ones of the transfer under way.
When no transfer is in flight and no callback runs, all are served. -/
structure OneByOne (s : Threads) : Prop where
  one : s.in_flight.length ≤ 1
  last : ∀ fl ∈ s.in_flight, ∃ base r, Served base ∧ s.log = base ++ [.started r fl]
  events : ∃ base rest, s.log = base ++ rest ∧ Served base ∧
    (rest = [] ∨ ∃ (r : Request) (fl : Flight) (out : Bytes), r.Suits fl ∧
      out.length = fl.rx_size.toNat ∧ rest <+: episode r fl out)
  served : s.in_flight = [] → (∀ t l b, s.pc t ≠ .callback l b) → Served s.log

theorem so_far_prefix (r : Request) (fl : Flight) (out : Bytes) (l : CallbackStep) :
    so_far r fl out l <+: episode r fl out := by
  by_cases h1 : .invoke < l
  · have h2 : .copy_buffer < l := Nat.lt_trans (by decide) h1
    unfold so_far
    rw [if_pos h1, if_pos h2]
    exact List.prefix_rfl
  · by_cases h2 : .copy_buffer < l
    · refine ⟨r.invocation, ?_⟩
      rw [← so_far_invoked h2 h1]
      rfl
    · refine ⟨r.delivery out ++ r.invocation, ?_⟩
      rw [← List.append_assoc, ← so_far_delivered h2,
        ← so_far_invoked (l := .lock) (by decide) (by decide)]
      rfl

theorem Orderly.oneByOne {s : Threads} (h : Orderly s) : OneByOne s := by
  have hone : s.in_flight = [] → s.in_flight.length ≤ 1 := by
    intro hfl
    rw [hfl]
    exact Nat.zero_le 1
  have hlast : s.in_flight = [] → ∀ fl ∈ s.in_flight, ∃ base r, Served base ∧
      s.log = base ++ [.started r fl] := by
    intro hfl fl hmem
    rw [hfl] at hmem
    cases hmem
  have hquiet : s.in_flight = [] → Served s.log → OneByOne s := fun hfl hlog =>
    ⟨hone hfl, hlast hfl, ⟨s.log, [], (List.append_nil _).symm, hlog, Or.inl rfl⟩, fun _ _ => hlog⟩
  cases h.stage with
  | still hs _ hlog => exact hquiet hs.1 hlog
  | preparing ho _ _ _ _ hlog => exact hquiet ho.1 hlog
  | failing ho _ _ _ _ hlog => exact hquiet ho.1 hlog
  | @flying r fl base hfl _ hrec _ hserved hlog =>
    refine ⟨by rw [hfl]; exact Nat.le_refl 1, ?_, ⟨base, _, hlog, hserved, Or.inr ⟨r, fl,
      List.replicate fl.rx_size.toNat 0, hrec.suits, List.length_replicate, _, rfl⟩⟩, ?_⟩
    · intro fl' hmem
      rw [hfl, List.mem_singleton] at hmem
      subst hmem
      exact ⟨base, r, hserved, hlog⟩
    · intro hnil _
      rw [hfl] at hnil
      cases hnil
  | calling_back ho hp hcb hserved =>
    refine ⟨hone ho.1, hlast ho.1, ⟨_, _, hcb.log, hserved, Or.inr ⟨_, _, _, hcb.suits, hcb.full,
      so_far_prefix ..⟩⟩, ?_⟩
    intro _ hnone
    exact absurd hp (hnone _ _ _)

end aes
