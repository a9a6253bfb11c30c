-- The mutex of a DMA state. A call that comes to its start unlocks before it
-- and again at its end, when it no longer owns the mutex. The mutex is kept in
-- the runs in which no call comes to that second unlock and no user callback
-- throws, and in no others.
import AesMusicPlayer.TransferErrors
import AesMusicPlayer.TransferThreads

open owned_mutex traces

namespace aes

/-! ## What a step does -/

/-- The unlock before the start of a transfer. -/
def EarlyUnlock (s : Threads) : Act → Bool
  | .step t _ => (s.pc t).at .unlock
  | .call _ _ | .complete _ _ => false

/-- A user callback throws out of `_dma_callback`. -/
def CallbackThrows (s : Threads) : Act → Bool
  | .step t x => (s.pc t).at_callback .invoke && x.throws
  | .call _ _ | .complete _ _ => false

theorem of_callback_throws {s : Threads} {a : Act} (h : CallbackThrows s a = true) :
    ∃ t x b, a = .step t x ∧ s.pc t = .callback .invoke b ∧ x.throws = true := by
  cases a with
  | call t r => cases h
  | complete t out => cases h
  | step t x =>
    obtain ⟨hat, hx⟩ := (Bool.and_eq_true_iff).mp h
    cases hp : s.pc t with
    | outside => rw [hp] at hat; cases hat
    | call l c => rw [hp] at hat; cases hat
    | callback l b =>
      rw [hp, Pc.at_callback, beq_iff_eq] at hat
      exact ⟨t, x, b, rfl, hat ▸ hp, hx⟩

/-- What every action does with the mutex and with the place of its thread. -/
structure Moves (s s' : Threads) (a : Act) (p' : Pc) : Prop where
  pc : s'.pc = Function.update s.pc a.thread p'
  owner : s'.owner = (mutex_op s a).elim s.owner (Op.owner a.thread)
  inside : p'.inside = (mutex_op s a).elim (s.pc a.thread).inside (· == .lock) ∨
    (CallbackThrows s a = true ∧ p'.inside = false)
  past : p'.past = (EarlyUnlock s a || ((s.pc a.thread).past && (mutex_op s a).isNone))

section Steps

variable {s : Threads} {t : Thread}

theorem call_step_moves (x : Outside) {c : Call} {l : CallStep} (hp : s.pc t = .call l c) :
    ∃ p', Moves s (call_step t x c s l) (.step t x) p' := by
  cases l <;> simp only [call_step] <;> (try split_ifs) <;>
    refine ⟨_, rfl, ?_, Or.inl ?_, ?_⟩ <;>
    simp [mutex_op, Act.thread, EarlyUnlock, hp, Pc.op, CallStep.op] <;> rfl

theorem callback_step_moves (x : Outside) {b : Callback} {l : CallbackStep}
    (hp : s.pc t = .callback l b) : ∃ p', Moves s (callback_step t x b s l) (.step t x) p' := by
  cases l with
  | invoke =>
    cases hx : x.throws <;> simp only [callback_step, hx]
    · refine ⟨_, rfl, ?_, Or.inl ?_, ?_⟩ <;>
      simp [mutex_op, Act.thread, EarlyUnlock, hp, Pc.op, CallbackStep.op] <;> rfl
    · refine ⟨_, rfl, ?_, Or.inr ⟨?_, rfl⟩, ?_⟩ <;>
      simp [mutex_op, Act.thread, EarlyUnlock, CallbackThrows, hp, hx, Pc.op,
        CallbackStep.op] <;> rfl
  | _ =>
    simp only [callback_step]
    try split_ifs
    all_goals
      refine ⟨_, rfl, ?_, Or.inl ?_, ?_⟩ <;>
      simp [mutex_op, Act.thread, EarlyUnlock, hp, Pc.op, CallbackStep.op] <;> rfl

/-- A completion with its callback, or without when none is set. -/
theorem complete_cons {out : Bytes} {fl : Flight} {rest : List Flight}
    (h : s.in_flight = fl :: rest) : s.complete t out =
      if s.callback_set then
        (s.finish fl rest out).goto t (.callback .find_rx ⟨.nothing, .nothing⟩)
      else s.finish fl rest out := by
  unfold Threads.complete
  rw [h]

theorem step_call (x : Outside) {l : CallStep} {c : Call} (hp : s.pc t = .call l c) :
    s.step t x = call_step t x c s l := by
  unfold Threads.step
  rw [hp]

theorem step_callback (x : Outside) {l : CallbackStep} {b : Callback}
    (hp : s.pc t = .callback l b) : s.step t x = callback_step t x b s l := by
  unfold Threads.step
  rw [hp]

theorem completes_of_enabled {out : Bytes} (he : s.Enabled (.complete t out)) :
    s.pc t = .outside ∧
      ∃ fl rest, s.in_flight = fl :: rest ∧ out.length = fl.rx_size.toNat := by
  obtain ⟨hp, hlen⟩ := he
  cases hf : s.in_flight with
  | nil => rw [hf] at hlen; cases hlen
  | cons fl rest =>
    rw [hf, List.head?_cons, Option.map_some, Option.some.injEq] at hlen
    exact ⟨hp, fl, rest, rfl, hlen.symm⟩

theorem enabled_moves {a : Act} (he : s.Enabled a) : ∃ p', Moves s (s.next a) a p' := by
  cases a with
  | call t r =>
    have hp : s.pc t = .outside := he
    exact ⟨_, rfl, rfl, Or.inl (by rw [Act.thread, hp]; rfl),
      by rw [Act.thread, hp]; rfl⟩
  | step t x =>
    change ∃ p', Moves s (s.step t x) _ p'
    cases hp : s.pc t with
    | outside => exact absurd hp he.1
    | call l c => rw [step_call x hp]; exact call_step_moves x hp
    | callback l b => rw [step_callback x hp]; exact callback_step_moves x hp
  | complete t out =>
    obtain ⟨hp, fl, rest, hfl, -⟩ := completes_of_enabled he
    change ∃ p', Moves s (s.complete t out) _ p'
    rw [complete_cons hfl]
    have hinside : (s.pc t).inside = false := by rw [hp]; rfl
    have hpast : (s.pc t).past = false := by rw [hp]; rfl
    split_ifs
    · exact ⟨_, rfl, rfl, Or.inl hinside.symm, by rw [Act.thread, hpast]; rfl⟩
    · refine ⟨.outside, ?_, rfl, Or.inl hinside.symm, by rw [Act.thread, hpast]; rfl⟩
      change s.pc = Function.update s.pc t .outside
      rw [← hp, Function.update_eq_self]

/-- The places of the other threads stay. -/
theorem Moves.pc_other {s' : Threads} {a : Act} {p' : Pc} (h : Moves s s' a p') {u : Thread}
    (hu : u ≠ a.thread) : s'.pc u = s.pc u := by
  rw [h.pc, Function.update_of_ne hu]

theorem Moves.pc_self {s' : Threads} {a : Act} {p' : Pc} (h : Moves s s' a p') :
    s'.pc a.thread = p' := by
  rw [h.pc, Function.update_self]

/-- A lock waits for the free mutex. -/
theorem free_of_lock {a : Act} (he : s.Enabled a) (hop : mutex_op s a = some .lock) :
    s.owner = none := by
  cases a with
  | call t r => cases hop
  | step t x => exact he.2.1 hop
  | complete t out => cases hop

theorem unlock_of_early {a : Act} (h : EarlyUnlock s a = true) :
    mutex_op s a = some .unlock := by
  cases a with
  | call t r => cases h
  | step t x =>
    change (s.pc t).at .unlock = true at h
    change (s.pc t).op = some .unlock
    cases hp : s.pc t with
    | outside => rw [hp] at h; cases h
    | call l c =>
      rw [hp, Pc.at, beq_iff_eq] at h
      rw [h]
      rfl
    | callback l b => rw [hp] at h; cases h
  | complete t out => cases h

theorem not_lock_of_past {a : Act} (h : (s.pc a.thread).past = true) :
    mutex_op s a ≠ some .lock := by
  cases a with
  | call t r => exact nofun
  | step t x =>
    change (s.pc t).past = true at h
    change (s.pc t).op ≠ some .lock
    cases hp : s.pc t with
    | outside => exact nofun
    | call l c =>
      rw [hp] at h
      cases l <;> simp_all [Pc.past, Pc.op, CallStep.op, CallStep.region]
    | callback l b => rw [hp] at h; cases h
  | complete t out => exact nofun

theorem op_of_mutex_op {a : Act} {op : Op} (h : mutex_op s a = some op) :
    (s.pc a.thread).op = some op := by
  cases a with
  | call t r => cases h
  | step t x => exact h
  | complete t out => cases h

theorem inside_of_unlock {p : Pc} (hop : p.op = some .unlock) (hpast : p.past = false) :
    p.inside = true := by
  cases p with
  | outside => cases hop
  | call l c =>
    cases l <;> simp_all [Pc.op, CallStep.op, Pc.past, Pc.inside, CallStep.region]
  | callback l b => cases l <;> simp_all [Pc.op, CallbackStep.op, Pc.inside]

theorem not_inside_of_past {p : Pc} (h : p.past = true) : p.inside = false := by
  cases p with
  | outside => rfl
  | call l c =>
    cases l <;> first | rfl | exact absurd h Bool.false_ne_true |
      simpa [Pc.past, Pc.inside, CallStep.region] using h
  | callback l b => cases h

end Steps

/-- A call that has unlocked early does not own the mutex. -/
def PastFree (s : Threads) : Prop := ∀ t, (s.pc t).past = true → s.owner ≠ some t

theorem pastFree_initial {s : Threads} (h : s.Initial) : PastFree s := by
  intro t ht
  rw [h.pc t] at ht
  cases ht

/-- Whatever the threads do, it stays so. -/
theorem pastFree_next {s : Threads} {a : Act} (h : PastFree s) (he : s.Enabled a) :
    PastFree (s.next a) := by
  intro t ht
  obtain ⟨p', hm⟩ := enabled_moves he
  rw [hm.owner]
  by_cases hu : t = a.thread
  · subst hu
    rw [hm.pc_self, hm.past, Bool.or_eq_true, Bool.and_eq_true, Option.isNone_iff_eq_none] at ht
    rcases ht with hearly | ⟨hpast, hnone⟩
    · rw [unlock_of_early hearly]
      simp [Op.owner]
    · rw [hnone]
      exact h _ hpast
  · rw [hm.pc_other hu] at ht
    cases hop : mutex_op s a with
    | none => exact h t ht
    | some op =>
      cases op with
      | lock => simpa [Op.owner] using Ne.symm hu
      | unlock => simp [Op.owner]

/-! ## The locks and unlocks of a run -/

/-- The locks and unlocks of the steps. -/
def history (tr : List (Threads × Act)) : History Thread :=
  tr.filterMap fun e => (mutex_op e.1 e.2).map fun op => (e.2.thread, op)

theorem history_append (tr : List (Threads × Act)) (s : Threads) (a : Act) :
    history (tr ++ [(s, a)]) =
      history tr ++ ((mutex_op s a).map fun op => (a.thread, op)).toList := by
  unfold history
  rw [List.filterMap_append]
  cases h : mutex_op s a <;> simp [h]

theorem history_of_none {tr : List (Threads × Act)} {s : Threads} {a : Act}
    (h : mutex_op s a = none) : history (tr ++ [(s, a)]) = history tr := by
  rw [history_append, h]
  simp

theorem history_of_some {tr : List (Threads × Act)} {s : Threads} {a : Act} {op : Op}
    (h : mutex_op s a = some op) : history (tr ++ [(s, a)]) = history tr ++ [(a.thread, op)] := by
  rw [history_append, h]
  rfl

/-- Every unlock comes from the owner, every thread that has returned has unlocked
once for each lock, and at most one thread is between a lock and its unlock. -/
structure MutexKept (tr : List (Threads × Act)) (s : Threads) : Prop where
  owned : ∀ s' a, (s', a) ∈ tr → mutex_op s' a = some .unlock → s'.owner = some a.thread
  exits : ∀ t, s.pc t = .outside → (history tr).Balanced t
  alone : ∀ t u, (history tr).Between t → (history tr).Between u → t = u

/-- A call that has unlocked before its start unlocks again. -/
def SecondUnlock (s : Threads) : Act → Bool
  | .step t _ => (s.pc t).past && (s.pc t).op == some .unlock
  | .call _ _ | .complete _ _ => false

/-- The step is not a second unlock, and no user callback throws. -/
def UnlocksOnce (s : Threads) (a : Act) : Prop :=
  SecondUnlock s a = false ∧ CallbackThrows s a = false

instance (s : Threads) (a : Act) : Decidable (UnlocksOnce s a) :=
  inferInstanceAs (Decidable (_ ∧ _))

/-- The threads that own the mutex are those inside. -/
structure Guarded (tr : List (Threads × Act)) (s : Threads) : Prop where
  kept : (history tr).Kept
  owner : s.owner = (history tr).owner
  inside : ∀ t, (s.pc t).inside = true ↔ s.owner = some t
  owned : ∀ s' a, (s', a) ∈ tr → mutex_op s' a = some .unlock → s'.owner = some a.thread

theorem guarded_initial {s₀ : Threads} (h₀ : s₀.Initial) : Guarded [] s₀ where
  kept := .nil
  owner := h₀.owner
  inside t := by rw [h₀.pc t, h₀.owner]; simp [Pc.inside]
  owned _ _ h := absurd h List.not_mem_nil

/-- A first unlock comes from the owner. -/
theorem Guarded.owner_of_unlock {tr : List (Threads × Act)} {s : Threads} {a : Act}
    (h : Guarded tr s) (ho : SecondUnlock s a = false) (hop : mutex_op s a = some .unlock) :
    s.owner = some a.thread := by
  apply (h.inside a.thread).mp
  have hop' := op_of_mutex_op hop
  apply inside_of_unlock hop'
  cases a with
  | call t r => cases hop
  | complete t out => cases hop
  | step t x =>
    change (s.pc t).op = some .unlock at hop'
    change ((s.pc t).past && (s.pc t).op == some .unlock) = false at ho
    rw [hop', beq_self_eq_true, Bool.and_true] at ho
    exact ho

theorem guarded_next {tr : List (Threads × Act)} {s : Threads} {a : Act}
    (h : Guarded tr s) (he : s.Enabled a) (ho : UnlocksOnce s a) :
    Guarded (tr ++ [(s, a)]) (s.next a) := by
  obtain ⟨p', hm⟩ := enabled_moves he
  have hinside : p'.inside = (mutex_op s a).elim (s.pc a.thread).inside (· == .lock) :=
    hm.inside.resolve_right fun hthrow => by rw [ho.2] at hthrow; cases hthrow.1
  have howned : ∀ s' a', (s', a') ∈ tr ++ [(s, a)] → mutex_op s' a' = some .unlock →
      s'.owner = some a'.thread := by
    intro s' a' hmem hop
    rcases List.mem_append.mp hmem with h1 | h1
    · exact h.owned s' a' h1 hop
    · rw [List.mem_singleton, Prod.mk.injEq] at h1
      obtain ⟨rfl, rfl⟩ := h1
      exact h.owner_of_unlock ho.1 hop
  cases hop : mutex_op s a with
  | none =>
    rw [hop] at hinside
    have howner : (s.next a).owner = s.owner := by rw [hm.owner, hop]; rfl
    refine ⟨?_, ?_, ?_, howned⟩
    · rw [history_of_none hop]
      exact h.kept
    · rw [history_of_none hop, howner, h.owner]
    · intro t
      rw [howner]
      by_cases hu : t = a.thread
      · subst hu
        rw [hm.pc_self, hinside]
        exact h.inside _
      · rw [hm.pc_other hu]
        exact h.inside t
  | some op =>
    rw [hop] at hinside
    have howner : (s.next a).owner = op.owner a.thread := by rw [hm.owner, hop]; rfl
    refine ⟨?_, ?_, ?_, howned⟩
    · rw [history_of_some hop]
      cases op with
      | lock => exact .lock _ h.kept (by rw [← h.owner]; exact free_of_lock he hop)
      | unlock => exact .unlock _ h.kept (by rw [← h.owner]; exact h.owner_of_unlock ho.1 hop)
    · rw [history_of_some hop, howner, History.owner_append]
    · intro t
      rw [howner]
      by_cases hu : t = a.thread
      · subst hu
        rw [hm.pc_self, hinside]
        cases op <;> simp [Op.owner]
      · rw [hm.pc_other hu, h.inside t]
        cases op with
        | lock => simp [Op.owner, free_of_lock he hop, Ne.symm hu]
        | unlock => simp [Op.owner, h.owner_of_unlock ho.1 hop, Ne.symm hu]

theorem Guarded.mutexKept {tr : List (Threads × Act)} {s : Threads} (h : Guarded tr s) :
    MutexKept tr s where
  owned := h.owned
  exits t ht := by
    apply h.kept.balanced_of_not_owner
    rw [← h.owner]
    intro howner
    have hin := (h.inside t).mpr howner
    rw [ht] at hin
    cases hin
  alone _ _ := h.kept.between_unique

/-- A second unlock does not come from the owner. -/
theorem Guarded.not_second {tr : List (Threads × Act)} {s s' : Threads} {a : Act}
    (h : Guarded tr s) (hk : MutexKept (tr ++ [(s, a)]) s') : SecondUnlock s a = false := by
  by_contra hsecond
  cases a with
  | call t r => exact hsecond rfl
  | complete t out => exact hsecond rfl
  | step t x =>
    change ¬ ((s.pc t).past && (s.pc t).op == some .unlock) = false at hsecond
    rw [Bool.not_eq_false, Bool.and_eq_true, beq_iff_eq] at hsecond
    obtain ⟨hpast, hop⟩ := hsecond
    have howner := hk.owned s _ (List.mem_append_right _ (List.mem_singleton_self _)) hop
    have hin := (h.inside t).mpr howner
    rw [not_inside_of_past hpast] at hin
    cases hin

/-- A callback that throws has not unlocked. -/
theorem Guarded.not_throws {tr : List (Threads × Act)} {s : Threads} {a : Act}
    (h : Guarded tr s) (hk : MutexKept (tr ++ [(s, a)]) (s.next a)) :
    CallbackThrows s a = false := by
  by_contra hthrows
  obtain ⟨t, x, b, rfl, hp, hx⟩ := of_callback_throws (by simpa using hthrows)
  have howner : s.owner = some t := (h.inside t).mp (by rw [hp]; rfl)
  have hbetween : (history tr).Between t :=
    (h.kept.between_iff t).mpr (by rw [← h.owner]; exact howner)
  have hop : mutex_op s (.step t x) = none := by
    change (s.pc t).op = none
    rw [hp]
    rfl
  have hout : (s.next (.step t x)).pc t = .outside := by
    change (s.step t x).pc t = .outside
    rw [step_callback x hp, callback_step, if_pos hx]
    exact Function.update_self ..
  have hbalanced := hk.exits t hout
  rw [history_of_none hop] at hbalanced
  exact hbalanced.not_between hbetween

/-- The mutex is kept in every state of a run exactly when no call unlocks a second
time, and no user callback throws. -/
theorem the_mutex_is_kept_iff {s₀ s : Threads} {tr : List (Threads × Act)}
    {ok : Threads → Act → Prop} (h₀ : s₀.Initial) (h : traces.Run threads ok s₀ tr s) :
    Along MutexKept tr s ↔ ∀ e ∈ tr, UnlocksOnce e.1 e.2 := by
  have hinv : (Along MutexKept tr s → Guarded tr s ∧ ∀ e ∈ tr, UnlocksOnce e.1 e.2) ∧
      ((∀ e ∈ tr, UnlocksOnce e.1 e.2) → Guarded tr s ∧ Along MutexKept tr s) := by
    refine h.inv_trace (I := fun tr s =>
      (Along MutexKept tr s → Guarded tr s ∧ ∀ e ∈ tr, UnlocksOnce e.1 e.2) ∧
        ((∀ e ∈ tr, UnlocksOnce e.1 e.2) → Guarded tr s ∧ Along MutexKept tr s)) ?_ ?_
    · have hg := guarded_initial h₀
      exact ⟨fun _ => ⟨hg, fun e he => absurd he List.not_mem_nil⟩,
        fun _ => ⟨hg, along_nil.mpr hg.mutexKept⟩⟩
    · rintro tr s a ⟨hkept, honce⟩ he _
      constructor
      · intro hall
        obtain ⟨hbefore, hlast⟩ := along_append.mp hall
        obtain ⟨hg, hsteps⟩ := hkept hbefore
        have ho : UnlocksOnce s a := ⟨hg.not_second hlast, hg.not_throws hlast⟩
        refine ⟨guarded_next hg he ho, ?_⟩
        intro e hmem
        rcases List.mem_append.mp hmem with h1 | h1
        · exact hsteps e h1
        · rw [List.mem_singleton] at h1
          rw [h1]
          exact ho
      · intro hall
        obtain ⟨hg, hbefore⟩ := honce fun e hmem => hall e (List.mem_append_left _ hmem)
        have hnext := guarded_next hg he
          (hall (s, a) (List.mem_append_right _ (List.mem_singleton_self _)))
        exact ⟨hnext, along_append.mpr ⟨hbefore, hnext.mutexKept⟩⟩
  exact ⟨fun hall => (hinv.1 hall).2, fun hall => (hinv.2 hall).2⟩

/-! ## A start breaks the mutex -/

/-- An unlock of a thread that does not own the mutex. -/
def Surplus (tr : List (Threads × Act)) : Prop :=
  ∃ s a, (s, a) ∈ tr ∧ mutex_op s a = some .unlock ∧ s.owner ≠ some a.thread

/-- A call that unlocks early is on its way to its last unlock, or has had it. -/
theorem surplus_next {tr : List (Threads × Act)} {s : Threads} {a : Act} (hf : PastFree s)
    (h : ∀ e ∈ tr, EarlyUnlock e.1 e.2 = true → (s.pc e.2.thread).past = true ∨ Surplus tr)
    (he : s.Enabled a) :
    ∀ e ∈ tr ++ [(s, a)], EarlyUnlock e.1 e.2 = true →
      ((s.next a).pc e.2.thread).past = true ∨ Surplus (tr ++ [(s, a)]) := by
  obtain ⟨p', hm⟩ := enabled_moves he
  have hkeep : ∀ t, (s.pc t).past = true →
      ((s.next a).pc t).past = true ∨ Surplus (tr ++ [(s, a)]) := by
    intro t ht
    by_cases hu : t = a.thread
    · subst hu
      rw [hm.pc_self, hm.past, ht, Bool.true_and]
      cases hop : mutex_op s a with
      | none => exact Or.inl (by simp)
      | some op =>
        cases op with
        | lock => exact absurd hop (not_lock_of_past ht)
        | unlock =>
          exact Or.inr ⟨s, a, List.mem_append_right _ (List.mem_singleton_self _), hop, hf _ ht⟩
    · rw [hm.pc_other hu]
      exact Or.inl ht
  intro e hmem hearly
  rcases List.mem_append.mp hmem with h1 | h1
  · rcases h e h1 hearly with h2 | ⟨s', a', hin, h2⟩
    · exact hkeep _ h2
    · exact Or.inr ⟨s', a', List.mem_append_left _ hin, h2⟩
  · rw [List.mem_singleton] at h1
    subst h1
    left
    rw [hm.pc_self, hm.past, hearly]
    rfl

/-- When a call has come to the unlock before its start and all threads have returned,
an unlock came from a thread that was not the owner. -/
theorem a_start_breaks_the_mutex {s₀ s : Threads} {tr : List (Threads × Act)}
    {ok : Threads → Act → Prop} (h₀ : s₀.Initial) (h : traces.Run threads ok s₀ tr s)
    (hret : ∀ t, s.pc t = .outside) (hearly : ∃ e ∈ tr, EarlyUnlock e.1 e.2 = true) :
    ¬ MutexKept tr s := by
  have hinv : PastFree s ∧ ∀ e ∈ tr, EarlyUnlock e.1 e.2 = true →
      (s.pc e.2.thread).past = true ∨ Surplus tr := by
    refine h.inv_trace (I := fun tr s => PastFree s ∧ ∀ e ∈ tr, EarlyUnlock e.1 e.2 = true →
      (s.pc e.2.thread).past = true ∨ Surplus tr) ?_ ?_
    · exact ⟨pastFree_initial h₀, fun e he => absurd he List.not_mem_nil⟩
    · rintro tr s a ⟨hf, hs⟩ he _
      exact ⟨pastFree_next hf he, surplus_next hf hs he⟩
  obtain ⟨e, he, hearly⟩ := hearly
  rcases hinv.2 e he hearly with h1 | ⟨s', a, hmem, hop, hne⟩
  · rw [hret] at h1
    cases h1
  · exact fun hk => hne (hk.owned s' a hmem hop)

/-! ## Two threads between lock and unlock -/

/-- An engine after `init`, with all threads outside. -/
def untouched : Threads := ⟨idle.toDmaRecord, [], false, none, fun _ => .outside, []⟩

theorem untouched_initial : untouched.Initial := ⟨rfl, rfl, rfl, rfl, fun _ => rfl, rfl⟩

/-- All that is answered from outside is good. -/
def well : Outside := { answers with stream := some 32, throws := false }

/-- A thread calls `encrypt_file`, and takes `n` steps. -/
def calls (t : Thread) (r : Request) (n : ℕ) : List Act :=
  .call t r :: List.replicate n (.step t well)

/-- A call whose input cannot be opened, and a call that comes as far as its second
unlock, with the callback of its transfer. -/
def failing_and_serving : List Act :=
  (.call 0 request :: List.replicate 18 (.step 0 { well with input := none })) ++
    calls 1 request 26 ++ [.complete 2 (List.replicate 32 0)] ++ List.replicate 13 (.step 2 well)

theorem a_transfer_keeps_the_mutex :
    Along MutexKept (threads.trace untouched failing_and_serving)
      (threads.after untouched failing_and_serving) := by
  have hrun : traces.Run threads (fun _ _ => True) untouched _ _ :=
    System.run_of_enables (by decide : threads.Enables untouched failing_and_serving)
      fun _ _ => trivial
  exact (the_mutex_is_kept_iff untouched_initial hrun).mpr (by decide)

/-- The first call starts its transfer and unlocks for the second time after the
second thread has locked, so the third thread locks too. -/
def overtaking : List Act :=
  calls 0 request 26 ++ calls 1 request 2 ++ [.step 0 well] ++ calls 2 request 2

theorem two_threads_are_inside :
    untouched.Initial ∧
      traces.Run threads (fun _ _ => True) untouched (threads.trace untouched overtaking)
        (threads.after untouched overtaking) ∧
      ¬ MutexKept (threads.trace untouched overtaking) (threads.after untouched overtaking) := by
  refine ⟨untouched_initial, System.run_of_enables (by decide) fun _ _ => trivial, fun h => ?_⟩
  have h12 := h.alone 1 2 ⟨0, by decide⟩ ⟨0, by decide⟩
  cases h12

end aes
