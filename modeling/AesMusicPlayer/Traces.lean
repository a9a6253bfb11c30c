-- Runs of a system that steps when a step can come, with the steps that were
-- taken. A run meets a condition when each of its steps does. Nothing here
-- knows a particular system.
import Mathlib.Data.List.Basic
import Mathlib.Tactic.Common

namespace traces

variable {S A : Type*}

/-- States `S`, steps `A`, and when a step can come. -/
structure System (S A : Type*) where
  next : S → A → S
  Enabled : S → A → Prop

/-- The runs from `s₀` whose steps all meet `ok`, with the state before each step. -/
inductive Run (M : System S A) (ok : S → A → Prop) (s₀ : S) : List (S × A) → S → Prop
  | start : Run M ok s₀ [] s₀
  | step {tr : List (S × A)} {s : S} (a : A) :
      Run M ok s₀ tr s → M.Enabled s a → ok s a → Run M ok s₀ (tr ++ [(s, a)]) (M.next s a)

namespace Run

variable {M : System S A} {ok ok' : S → A → Prop} {s₀ s₁ s : S} {tr tr' : List (S × A)}

/-- What holds at the start and is kept by each step holds at the end. -/
theorem inv {I : S → Prop} (h₀ : I s₀)
    (hstep : ∀ s a, I s → M.Enabled s a → ok s a → I (M.next s a)) (h : Run M ok s₀ tr s) :
    I s := by
  induction h with
  | start => exact h₀
  | step a _ he ho ih => exact hstep _ a ih he ho

/-- The same for what is said of the steps taken so far, too. -/
theorem inv_trace {I : List (S × A) → S → Prop} (h₀ : I [] s₀)
    (hstep : ∀ tr s a, I tr s → M.Enabled s a → ok s a → I (tr ++ [(s, a)]) (M.next s a))
    (h : Run M ok s₀ tr s) : I tr s := by
  induction h with
  | start => exact h₀
  | step a _ he ho ih => exact hstep _ _ a ih he ho

theorem mono (hok : ∀ s a, ok s a → ok' s a) (h : Run M ok s₀ tr s) : Run M ok' s₀ tr s := by
  induction h with
  | start => exact .start
  | step a _ he ho ih => exact .step a ih he (hok _ _ ho)

theorem append (h : Run M ok s₀ tr s₁) (h' : Run M ok s₁ tr' s) :
    Run M ok s₀ (tr ++ tr') s := by
  induction h' with
  | start => rw [List.append_nil]; exact h
  | step a _ he ho ih =>
    rw [← List.append_assoc]
    exact .step a ih he ho

/-- A run whose steps all meet another condition is a run of that condition. -/
theorem restrict (h : Run M ok s₀ tr s) (h' : ∀ e ∈ tr, ok' e.1 e.2) : Run M ok' s₀ tr s := by
  induction h with
  | start => exact .start
  | @step tr s a _ he _ ih =>
    have hlast : (s, a) ∈ tr ++ [(s, a)] := List.mem_append_right _ (List.mem_singleton_self _)
    exact .step a (ih fun e hm => h' e (List.mem_append_left _ hm)) he (h' _ hlast)

/-- An invariant that is kept by the steps that meet `C` holds at the end of a run of such steps. -/
theorem inv_of_forall {I : S → Prop} {C : S → A → Prop} (h₀ : I s₀)
    (hkeep : ∀ s a, I s → M.Enabled s a → ok s a → C s a → I (M.next s a)) (h : Run M ok s₀ tr s)
    (hC : ∀ e ∈ tr, C e.1 e.2) : I s := by
  induction h with
  | start => exact h₀
  | @step tr s a _ he ho ih =>
    have hlast := hC (s, a) (List.mem_append_right _ (List.mem_singleton_self _))
    exact hkeep s a (ih fun e hm => hC e (List.mem_append_left _ hm)) he ho hlast

/-- A law of the single steps, where an invariant makes it the same as `C`. The invariant need
not survive a step that breaks `C`. -/
theorem forall_iff {I : S → Prop} {P C : S → A → Prop} (h₀ : I s₀)
    (hkeep : ∀ s a, I s → M.Enabled s a → ok s a → C s a → I (M.next s a))
    (hiff : ∀ s a, I s → M.Enabled s a → ok s a → (P s a ↔ C s a)) (h : Run M ok s₀ tr s) :
    (∀ e ∈ tr, P e.1 e.2) ↔ ∀ e ∈ tr, C e.1 e.2 := by
  induction h with
  | start =>
    have hnone : ∀ {P : S × A → Prop}, ∀ e ∈ ([] : List (S × A)), P e := List.forall_mem_nil _
    exact iff_of_true hnone hnone
  | @step tr s a hr he ho ih =>
    rw [List.forall_mem_append, List.forall_mem_append, List.forall_mem_singleton,
      List.forall_mem_singleton, ih]
    refine and_congr_right fun hC => ?_
    exact hiff s a (hr.inv_of_forall h₀ hkeep hC) he ho

end Run

/-! ## Every state of a run -/

/-- `P` holds of the last state and of the state before each step, each with the
steps that led to it. -/
def Along (P : List (S × A) → S → Prop) (tr : List (S × A)) (s : S) : Prop :=
  P tr s ∧ ∀ tr₁ e tr₂, tr = tr₁ ++ e :: tr₂ → P tr₁ e.1

section Along

variable {P : List (S × A) → S → Prop} {tr : List (S × A)} {s s' : S} {a : A}

theorem along_nil : Along P [] s ↔ P [] s := by
  refine ⟨fun h => h.1, fun h => ⟨h, ?_⟩⟩
  intro tr₁ e tr₂ heq
  exact absurd heq.symm (List.append_ne_nil_of_right_ne_nil _ (List.cons_ne_nil _ _))

theorem along_append :
    Along P (tr ++ [(s, a)]) s' ↔ Along P tr s ∧ P (tr ++ [(s, a)]) s' := by
  constructor
  · rintro ⟨hlast, hbefore⟩
    refine ⟨⟨hbefore tr (s, a) [] rfl, ?_⟩, hlast⟩
    intro tr₁ e tr₂ heq
    apply hbefore tr₁ e (tr₂ ++ [(s, a)])
    rw [heq, List.append_assoc, List.cons_append]
  · rintro ⟨⟨hs, hbefore⟩, hlast⟩
    refine ⟨hlast, ?_⟩
    intro tr₁ e tr₂ heq
    rcases List.eq_nil_or_concat tr₂ with rfl | ⟨tr₃, b, rfl⟩
    · obtain ⟨rfl, he⟩ := List.append_inj' heq rfl
      rw [List.singleton_inj] at he
      rw [← he]
      exact hs
    · rw [List.concat_eq_append, ← List.cons_append, ← List.append_assoc] at heq
      exact hbefore tr₁ e tr₃ (List.append_inj' heq rfl).1

/-- What is said of the states alone holds before each step. -/
theorem Along.before {Q : S → Prop} {e : S × A} (h : Along (fun _ s => Q s) tr s)
    (he : e ∈ tr) : Q e.1 := by
  obtain ⟨tr₁, tr₂, heq⟩ := List.append_of_mem he
  exact h.2 tr₁ e tr₂ heq

/-- What holds at the end of every run holds along each of them. -/
theorem Run.along {M : System S A} {ok : S → A → Prop} {s₀ : S} (h : Run M ok s₀ tr s)
    (hP : ∀ tr s, Run M ok s₀ tr s → P tr s) : Along P tr s := by
  induction h with
  | start => exact along_nil.mpr (hP _ _ .start)
  | step a hr he ho ih => exact along_append.mpr ⟨ih, hP _ _ (.step a hr he ho)⟩

/-- The states of a run are its start and what its steps lead to. -/
theorem Run.along_states_iff {M : System S A} {ok : S → A → Prop} {Q : S → Prop} {s₀ : S}
    (h : Run M ok s₀ tr s) :
    Along (fun _ s => Q s) tr s ↔ Q s₀ ∧ ∀ e ∈ tr, Q (M.next e.1 e.2) := by
  induction h with
  | start => exact along_nil.trans (and_iff_left fun e he => absurd he List.not_mem_nil).symm
  | step a _ _ _ ih =>
    rw [along_append, ih, List.forall_mem_append, List.forall_mem_singleton, and_assoc]

/-- A law that the steps of one kind keep and that any other step breaks: it holds along a run
exactly when all steps are of that kind. `I` is what the run is known to keep, too. -/
theorem Run.along_iff {M : System S A} {ok C : S → A → Prop} {I Q : S → Prop} {s₀ : S}
    (h₀ : I s₀) (hQ : ∀ s, I s → Q s)
    (hkeep : ∀ s a, I s → M.Enabled s a → ok s a → C s a → I (M.next s a))
    (hbreak : ∀ s a, I s → M.Enabled s a → ok s a → Q (M.next s a) → C s a)
    (h : Run M ok s₀ tr s) : Along (fun _ s => Q s) tr s ↔ ∀ e ∈ tr, C e.1 e.2 := by
  rw [h.along_states_iff, and_iff_right (hQ s₀ h₀)]
  refine h.forall_iff (P := fun s a => Q (M.next s a)) h₀ hkeep fun s a hI he ho => ?_
  exact ⟨hbreak s a hI he ho, fun hC => hQ _ (hkeep s a hI he ho hC)⟩

end Along

/-! ## Runs by a list of steps -/

namespace System

variable (M : System S A)

/-- The state after the steps of the list. -/
def after (s : S) (as : List A) : S := as.foldl M.next s

/-- The steps of the list, each with the state before it. -/
def trace : S → List A → List (S × A)
  | _, [] => []
  | s, a :: as => (s, a) :: trace (M.next s a) as

/-- The steps of the list can all come. -/
def Enables : S → List A → Prop
  | _, [] => True
  | s, a :: as => M.Enabled s a ∧ Enables (M.next s a) as

instance decidableEnables [∀ s a, Decidable (M.Enabled s a)] :
    (s : S) → (as : List A) → Decidable (M.Enables s as)
  | _, [] => isTrue trivial
  | s, a :: as => @instDecidableAnd _ _ _ (decidableEnables (M.next s a) as)

variable {M}

theorem run_of_enables {ok : S → A → Prop} {s : S} {as : List A} (h : M.Enables s as)
    (hok : ∀ e ∈ M.trace s as, ok e.1 e.2) : Run M ok s (M.trace s as) (M.after s as) := by
  induction as generalizing s with
  | nil => exact .start
  | cons a as ih =>
    have hfirst : Run M ok s ([] ++ [(s, a)]) (M.next s a) :=
      .step a .start h.1 (hok (s, a) List.mem_cons_self)
    exact hfirst.append (ih h.2 fun e he => hok e (List.mem_cons_of_mem _ he))

end System

end traces
