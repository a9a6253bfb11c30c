-- Machines that answer each input, and two of them side by side. They answer
-- alike exactly when no input takes them apart. Nothing here knows a
-- particular machine.
import Mathlib.Data.List.Basic
import Mathlib.Tactic.Common

namespace lockstep

/-- States `S`, inputs `I`, answers `O`. -/
structure Machine (S I O : Type*) where
  step : I → S → O × S

variable {S T I O : Type*}

namespace Machine

variable (M : Machine S I O)

/-- The answers to the inputs of a list. -/
def answers : S → List I → List O
  | _, [] => []
  | s, i :: is => (M.step i s).1 :: answers (M.step i s).2 is

/-- The inputs of a list, each with the state that it finds. -/
def finds : S → List I → List (S × I)
  | _, [] => []
  | s, i :: is => (s, i) :: finds (M.step i s).2 is

end Machine

namespace Machine

variable {M : Machine S I O}

theorem length_answers (s : S) (is : List I) : (M.answers s is).length = is.length := by
  induction is generalizing s with
  | nil => rfl
  | cons i is ih => exact congrArg (· + 1) (ih (M.step i s).2)

theorem answers_take (s : S) (is : List I) (n : ℕ) :
    M.answers s (is.take n) = (M.answers s is).take n := by
  induction is generalizing s n with
  | nil => rw [List.take_nil, answers, List.take_nil]
  | cons i is ih =>
    cases n with
    | zero => rfl
    | succ n =>
      rw [List.take_succ_cons, answers, answers, List.take_succ_cons, ih]

end Machine

/-- Inputs of one kind keep the two machines together, and any other input is answered
differently. `K` is what the inputs are known to meet. -/
theorem answers_eq_iff {M : Machine S I O} {N : Machine T I O} {R : S → T → Prop}
    {K : I → Prop} {C : S → I → Prop}
    (hkeep : ∀ s t i, R s t → K i → C s i →
      (M.step i s).1 = (N.step i t).1 ∧ R (M.step i s).2 (N.step i t).2)
    (hbreak : ∀ s t i, R s t → K i → (M.step i s).1 = (N.step i t).1 → C s i)
    {s : S} {t : T} (h : R s t) {is : List I} (his : ∀ i ∈ is, K i) :
    M.answers s is = N.answers t is ↔ ∀ e ∈ M.finds s is, C e.1 e.2 := by
  induction is generalizing s t with
  | nil => exact ⟨fun _ e he => absurd he List.not_mem_nil, fun _ => rfl⟩
  | cons i is ih =>
    rw [List.forall_mem_cons] at his
    unfold Machine.answers Machine.finds
    rw [List.cons.injEq, List.forall_mem_cons]
    constructor
    · rintro ⟨hfirst, hrest⟩
      have hC := hbreak s t i h his.1 hfirst
      exact ⟨hC, (ih (hkeep s t i h his.1 hC).2 his.2).mp hrest⟩
    · rintro ⟨hC, hrest⟩
      obtain ⟨hfirst, hnext⟩ := hkeep s t i h his.1 hC
      exact ⟨hfirst, (ih hnext his.2).mpr hrest⟩

/-- Lists of answers that agree when they are put together, after each input. -/
theorem flatten_take_eq_iff {os os' : List (List O)} (hlen : os.length = os'.length) :
    (∀ n, (os.take n).flatten = (os'.take n).flatten) ↔ os = os' := by
  constructor
  · intro hall
    apply List.ext_getElem hlen
    intro n hn hn'
    have hnext := hall (n + 1)
    rw [List.take_succ_eq_append_getElem hn, List.take_succ_eq_append_getElem hn',
      List.flatten_append, List.flatten_append, hall n] at hnext
    simpa using List.append_cancel_left hnext
  · rintro rfl n
    rfl

end lockstep
