-- The steps that bring a transfer under way to its end. A callback that waits for
-- the mutex waits for a call that is rejected, and that call needs nothing but
-- its own steps to unlock.
import AesMusicPlayer.TransferDelivery
import Mathlib.Algebra.Group.Nat.Defs

open owned_mutex traces

namespace aes

/-! ## The steps that are left -/

/-- More than the steps that a call or a callback still takes. -/
def Pc.left : Pc → ℕ
  | .outside => 0
  | .call l _ => 32 - l.ctorIdx
  | .callback l _ => 32 - l.ctorIdx

theorem Pc.left_le (p : Pc) : p.left ≤ 32 := by
  cases p with
  | outside => exact Nat.zero_le _
  | call l c => exact Nat.sub_le ..
  | callback l b => exact Nat.sub_le ..

section Steps

variable {s : Threads} {t : Thread} {x : Outside}

theorem left_step (hp : s.pc t ≠ .outside) : ((s.step t x).pc t).left < (s.pc t).left := by
  cases h : s.pc t with
  | outside => exact absurd h hp
  | call l c =>
    rw [step_call x h]
    cases l <;> simp only [call_step] <;> (try split_ifs) <;>
      simp only [Threads.goto_pc_self, Threads.throw_pc_self] <;>
      exact Nat.le_of_ble_eq_true rfl
  | callback l b =>
    rw [step_callback x h]
    cases l <;> simp only [callback_step] <;> (try split_ifs) <;>
      simp only [Threads.goto_pc_self] <;>
      exact Nat.le_of_ble_eq_true rfl

/-- A thread inside does not wait for the mutex, and has not unlocked early. -/
theorem inside_runs {p : Pc} (h : p.inside = true) :
    p ≠ .outside ∧ p.op ≠ some .lock ∧ p.past = false := by
  cases p with
  | outside => cases h
  | call l c =>
    refine ⟨by rintro ⟨⟩, ?_, ?_⟩
    · cases l <;> first | exact absurd h Bool.false_ne_true | rintro ⟨⟩
    · cases l <;> first | exact absurd h Bool.false_ne_true | rfl |
        simpa [Pc.inside, Pc.past, CallStep.region] using h
  | callback l b =>
    refine ⟨by rintro ⟨⟩, ?_, rfl⟩
    cases l <;> first | exact absurd h Bool.false_ne_true | rintro ⟨⟩

/-- A thread that is active does not come to its second unlock, and no call that is
active waits for the mutex. -/
theorem active_runs {p : Pc} (h : p.active = true) :
    p ≠ .outside ∧ (p.past = true → p.op ≠ some .unlock) ∧ p.at .lock = false := by
  cases p with
  | outside => cases h
  | call l c =>
    refine ⟨by rintro ⟨⟩, ?_, ?_⟩
    · intro hpast hop
      cases l <;> first | exact absurd h Bool.false_ne_true |
        exact absurd hpast Bool.false_ne_true | cases hop
    · cases l <;> first | exact absurd h Bool.false_ne_true | rfl
  | callback l b => exact ⟨by rintro ⟨⟩, by rintro ⟨⟩, rfl⟩

end Steps

/-! ## The owner of the mutex -/

/-- The owner of the mutex is inside. Only a user callback that throws leaves an
owner outside, when its transfer is over. Some threads never came. -/
structure Running (s : Threads) : Prop where
  orderly : Orderly s
  held : ∀ t, s.owner = some t → (s.pc t).inside = true ∨ s.Still
  spare : ∃ n, ∀ t, n ≤ t → s.pc t = .outside

theorem running_initial {s : Threads} (h : s.Initial) : Running s where
  orderly := orderly_initial h
  held t ht := by rw [h.owner] at ht; cases ht
  spare := ⟨0, fun t _ => h.pc t⟩

/-- A user callback that throws is the end of its transfer. -/
theorem Orderly.still_of_throw {s : Threads} {a : Act} (h : Orderly s)
    (ht : CallbackThrows s a = true) : (s.next a).Still := by
  obtain ⟨t, x, b, rfl, hp, hx⟩ := of_callback_throws ht
  change (s.step t x).Still
  have hon : s.Only t := h.stage.only (by rw [hp]; rfl)
  rw [step_callback x hp]
  refine still_of_only (t := t)
    ⟨(callback_step_in_flight t x b s .invoke).trans hon.1, fun u hu => ?_⟩ ?_
  · change (Function.update s.pc t _ u).active = false
    rw [Function.update_of_ne hu]
    exact hon.2 u hu
  · rw [callback_step, Threads.goto_pc_self, if_pos hx]
    rfl

/-- Behind an owner that is gone, no transfer begins. -/
theorem Orderly.still_next {s : Threads} {a : Act} {t : Thread} (h : Orderly s)
    (he : s.Enabled a) (hs : s.Still) (hown : s.owner = some t)
    (hgone : (s.pc t).inside = false) : (s.next a).Still := by
  cases a with
  | call u r => exact (passive_call r he).still hs
  | complete u out =>
    obtain ⟨-, fl, rest, hfl, -⟩ := completes_of_enabled he
    rw [hs.1] at hfl
    cases hfl
  | step u x =>
    rcases h.inactive_step he (hs.2 u) with ⟨hpass, -⟩ | ⟨hat, -⟩
    · exact hpass.still hs
    · have hin := inside_of_test hat
      have howner := h.inside u hin
      rw [hown, Option.some.injEq] at howner
      rw [← howner, hgone] at hin
      cases hin

theorem Running.held_next {s : Threads} {a : Act} {t : Thread} (h : Running s)
    (he : s.Enabled a) (ht : (s.next a).owner = some t) :
    ((s.next a).pc t).inside = true ∨ (s.next a).Still := by
  obtain ⟨p', hm⟩ := enabled_moves he
  rcases hm.inside with hinside | ⟨hthrow, -⟩
  · rw [hm.owner] at ht
    cases hop : mutex_op s a with
    | none =>
      rw [hop] at ht hinside
      cases hin : (s.pc t).inside with
      | false =>
        have hs := (h.held t ht).resolve_left (by rw [hin]; exact nofun)
        exact Or.inr (h.orderly.still_next he hs ht hin)
      | true =>
        left
        by_cases hu : t = a.thread
        · subst hu
          rw [hm.pc_self, hinside]
          exact hin
        · rw [hm.pc_other hu]
          exact hin
    | some op =>
      rw [hop] at ht hinside
      cases op with
      | lock =>
        obtain rfl : a.thread = t := Option.some.inj ht
        left
        rw [hm.pc_self, hinside]
        rfl
      | unlock => cases ht
  · exact Or.inr (h.orderly.still_of_throw hthrow)

theorem running_next {s : Threads} {a : Act} (h : Running s) (he : s.Enabled a)
    (ho : InTurn s a) : Running (s.next a) where
  orderly := orderly_next h.orderly he ho
  held _ ht := h.held_next he ht
  spare := by
    obtain ⟨n, hn⟩ := h.spare
    obtain ⟨p', hm⟩ := enabled_moves he
    refine ⟨max n (a.thread + 1), fun t ht => ?_⟩
    obtain ⟨hle, hlt⟩ := Nat.max_le.mp ht
    rw [hm.pc_other (Nat.ne_of_gt hlt)]
    exact hn t hle

/-! ## The end of a transfer -/

/-- The answers that let a call fail at the next occasion, and a stream write everything. -/
def ending : Outside := ⟨⟨none, 0, 0, none, -1⟩, some (2 ^ 32), false⟩

/-- A thread that does not wait can take its next step. -/
theorem can_step {s : Threads} {t : Thread} (hp : s.pc t ≠ .outside)
    (hlock : (s.pc t).op = some .lock → s.owner = none) (hat : (s.pc t).at .lock = false)
    (hfree : (s.pc t).past = true → (s.pc t).op = some .unlock → s.owner = none) :
    s.Enabled (.step t ending) ∧ InTurn s (.step t ending) := by
  refine ⟨⟨hp, hlock, fun _ => Or.inl rfl, fun _ => Or.inl rfl⟩,
    ⟨?_, fun _ => ?_, hfree, fun _ => ?_⟩⟩
  · intro h
    rw [hat] at h
    cases h
  · rintro r - ⟨-, -, hlt⟩
    exact BitVec.not_lt_zero hlt
  · exact ⟨2 ^ 32, rfl, Nat.le_of_lt (BitVec.isLt _)⟩

/-- The steps before the mutex is free for a thread that waits for it. -/
def Threads.waiting (s : Threads) (t : Thread) : ℕ :=
  if (s.pc t).op = some .lock then s.owner.elim 0 fun u => (s.pc u).left + 1 else 0

theorem in_flight_step {s : Threads} {t : Thread} (hp : s.pc t ≠ .outside)
    (h : s.in_flight = []) : (s.step t ending).in_flight = [] := by
  cases hpc : s.pc t with
  | outside => exact absurd hpc hp
  | callback l b => rw [step_callback ending hpc, callback_step_in_flight, h]
  | call l c =>
    rw [step_call ending hpc]
    by_cases hl : l = .start
    · subst hl
      exact h
    · exact (call_step_frame hl h).1

/-- While the thread of a transfer waits for the mutex, its owner can come closer to
its unlock. -/
theorem Running.owner_steps {s : Threads} {t u : Thread} (h : Running s)
    (hact : (s.pc t).active = true) (hlock : (s.pc t).op = some .lock) (hu : s.owner = some u) :
    s.Enabled (.step u ending) ∧ InTurn s (.step u ending) ∧
      (s.step u ending).pc t = s.pc t ∧ (s.step u ending).waiting t < s.waiting t := by
  have hin : (s.pc u).inside = true := by
    refine (h.held u hu).resolve_right fun hs => ?_
    rw [hs.2 t] at hact
    cases hact
  obtain ⟨hout, hnolock, hpast⟩ := inside_runs hin
  have hne : t ≠ u := by
    rintro rfl
    exact hnolock hlock
  have hat : (s.pc u).at .lock = false := by
    cases hp : s.pc u with
    | call l c => rw [hp] at hnolock; cases l <;> first | rfl | exact absurd rfl hnolock
    | outside => rfl
    | callback l b => rfl
  obtain ⟨he, ho⟩ := can_step hout (fun hl => absurd hl hnolock) hat
    (fun hp => by rw [hpast] at hp; cases hp)
  obtain ⟨p', hm⟩ := enabled_moves he
  change Moves s (s.step u ending) _ p' at hm
  have ht : (s.step u ending).pc t = s.pc t := hm.pc_other hne
  refine ⟨he, ho, ht, ?_⟩
  have hleft := left_step (x := ending) hout
  unfold Threads.waiting
  rw [ht, if_pos hlock, if_pos hlock, hm.owner, hu]
  change ((s.pc u).op.elim (some u) (Op.owner u)).elim 0 _ < (s.pc u).left + 1
  cases hop : (s.pc u).op with
  | none => exact Nat.succ_lt_succ hleft
  | some op =>
    cases op with
    | lock => exact absurd hop hnolock
    | unlock => exact Nat.succ_pos _

/-- The thread of a transfer can step when it need not wait. Then its transfer is over,
or it goes on. -/
theorem Running.active_steps {s : Threads} {t : Thread} (h : Running s)
    (hact : (s.pc t).active = true) (hfree : (s.pc t).op = some .lock → s.owner = none) :
    s.Enabled (.step t ending) ∧ InTurn s (.step t ending) ∧
      ((s.step t ending).Still ∨ ((s.step t ending).pc t).active = true) := by
  obtain ⟨hout, hlast, hat⟩ := active_runs hact
  have hon := h.orderly.stage.only hact
  obtain ⟨he, ho⟩ := can_step hout hfree hat (fun hp hop => absurd hop (hlast hp))
  obtain ⟨p', hm⟩ := enabled_moves he
  change Moves s (s.step t ending) _ p' at hm
  refine ⟨he, ho, ?_⟩
  cases hact' : ((s.step t ending).pc t).active with
  | true => exact Or.inr rfl
  | false =>
    refine Or.inl (still_of_only ⟨in_flight_step hout hon.1, fun u hu => ?_⟩ hact')
    rw [hm.pc_other hu]
    exact hon.2 u hu

theorem Threads.waiting_le (s : Threads) (t : Thread) : s.waiting t ≤ 33 := by
  unfold Threads.waiting
  split_ifs
  · cases s.owner with
    | none => exact Nat.zero_le _
    | some v => exact Nat.succ_le_succ (Pc.left_le _)
  · exact Nat.zero_le _

/-! ## What the steps leave -/

/-- No step takes an event back. -/
theorem log_grows (s : Threads) (a : Act) : s.log <+: (s.next a).log := by
  cases a with
  | call t r => exact List.prefix_rfl
  | complete t out =>
    change s.log <+: (s.complete t out).log
    unfold Threads.complete
    split
    · exact List.prefix_rfl
    · split_ifs <;> exact List.prefix_append ..
  | step t x =>
    change s.log <+: (s.step t x).log
    unfold Threads.step
    split
    · exact List.prefix_rfl
    · rename_i l c _
      cases l <;> simp only [call_step] <;> (try split_ifs) <;>
        first | exact List.prefix_rfl | exact List.prefix_append ..
    · rename_i l b _
      cases l <;> simp only [callback_step] <;> (try split_ifs) <;>
        first | exact List.prefix_rfl | exact List.prefix_append ..

/-- A thread that takes no step stays outside. -/
theorem outside_of_run {s₀ s : Threads} {tr : List (Threads × Act)} {n : ℕ} {t : Thread}
    {ok : Threads → Act → Prop} (h : traces.Run threads ok s₀ tr s)
    (h₀ : ∀ t, s₀.pc t = .outside) (htr : ∀ e ∈ tr, e.2.thread < n) (ht : n ≤ t) :
    s.pc t = .outside := by
  have hrun : traces.Run threads (fun _ a => a.thread < n) s₀ tr s := h.restrict htr
  refine hrun.inv (I := fun s => s.pc t = .outside) (h₀ t) fun s₁ a ih he ho => ?_
  obtain ⟨p', hm⟩ := enabled_moves he
  change (s₁.next a).pc t = .outside
  rw [hm.pc_other (Nat.ne_of_gt (Nat.lt_of_lt_of_le ho ht)), ih]

end aes
