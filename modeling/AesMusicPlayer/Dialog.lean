-- Programs that make one request after the other, each with what they know from the answers
-- before it. A machine answers them. Nothing here knows a particular system.
import Mathlib.Data.List.Basic

namespace dialog

/-- A program with the requests `Q` and the answers `A` that ends with a result. -/
inductive Dialog (Q A R : Type)
  | done (r : R)
  | ask (q : Q) (next : A → Dialog Q A R)

/-- The answer to a request, and the state after it. -/
abbrev Machine (Q A σ : Type) := Q → σ → A × σ

variable {Q A R R' σ : Type}

namespace Dialog

def bind : Dialog Q A R → (R → Dialog Q A R') → Dialog Q A R'
  | done r, f => f r
  | ask q next, f => ask q fun a => (next a).bind f

instance : Monad (Dialog Q A) where
  pure := done
  bind := bind

/-- One request, and its answer is the result. -/
def request (q : Q) : Dialog Q A A := ask q done

/-- The program with a machine: the result, all requests with their answers, and the state. -/
def run (m : Machine Q A σ) : Dialog Q A R → σ → R × List (Q × A) × σ
  | done r, s => (r, [], s)
  | ask q next, s =>
    let r := (next (m q s).1).run m (m q s).2
    (r.1, (q, (m q s).1) :: r.2.1, r.2.2)

/-- The result and the state that a machine leads to. -/
def eval (m : Machine Q A σ) (p : Dialog Q A R) (s : σ) : R × σ :=
  ((p.run m s).1, (p.run m s).2.2)

theorem eval_pure (m : Machine Q A σ) (r : R) (s : σ) :
    (pure r : Dialog Q A R).eval m s = (r, s) := rfl

theorem eval_request (m : Machine Q A σ) (q : Q) (s : σ) : (request q).eval m s = m q s := rfl

theorem eval_bind (m : Machine Q A σ) (p : Dialog Q A R) (f : R → Dialog Q A R') (s : σ) :
    (p >>= f).eval m s = (f (p.eval m s).1).eval m (p.eval m s).2 := by
  induction p generalizing s with
  | done r => rfl
  | ask q next ih => exact ih (m q s).1 (m q s).2

/-- Given these answers the program makes these requests, and ends with `r`. -/
inductive Ends : Dialog Q A R → List (Q × A) → R → Prop
  | done (r : R) : Ends (.done r) [] r
  | ask {q : Q} {next : A → Dialog Q A R} {a : A} {tr : List (Q × A)} {r : R}
      (h : Ends (next a) tr r) : Ends (.ask q next) ((q, a) :: tr) r

theorem ends_run (m : Machine Q A σ) (p : Dialog Q A R) (s : σ) :
    p.Ends (p.run m s).2.1 (p.run m s).1 := by
  induction p generalizing s with
  | done r => exact .done r
  | ask q next ih => exact .ask (ih (m q s).1 (m q s).2)

end Dialog

/-! ## The answers of a machine -/

variable (m : Machine Q A σ)

def after (s : σ) (tr : List (Q × A)) : σ := tr.foldl (fun s e => (m e.1 s).2) s

/-- The answers are those of the machine. -/
def Gives (s : σ) : List (Q × A) → Prop
  | [] => True
  | (q, a) :: tr => (m q s).1 = a ∧ Gives (m q s).2 tr

variable {m}

theorem after_append (s : σ) (tr tr' : List (Q × A)) :
    after m s (tr ++ tr') = after m (after m s tr) tr' := List.foldl_append

theorem gives_run (p : Dialog Q A R) (s : σ) :
    Gives m s (p.run m s).2.1 ∧ (p.run m s).2.2 = after m s (p.run m s).2.1 := by
  induction p generalizing s with
  | done r => exact ⟨trivial, rfl⟩
  | ask q next ih => exact ⟨⟨rfl, (ih _ _).1⟩, (ih _ _).2⟩

/-- A machine is told by its answers: it answers each request from the state that those before it
have led to. -/
theorem gives_iff {s : σ} {tr : List (Q × A)} :
    Gives m s tr ↔
      ∀ tr₁ q a tr₂, tr = tr₁ ++ (q, a) :: tr₂ → (m q (after m s tr₁)).1 = a := by
  constructor
  · intro h tr₁ q a tr₂ heq
    subst heq
    induction tr₁ generalizing s with
    | nil => exact h.1
    | cons e tr₁ ih => exact ih h.2
  · intro h
    induction tr generalizing s with
    | nil => trivial
    | cons e tr ih =>
      obtain ⟨q, a⟩ := e
      refine ⟨h [] q a tr rfl, ih fun tr₁ q' a' tr₂ heq => ?_⟩
      exact h ((q, a) :: tr₁) q' a' tr₂ (congrArg _ heq)

/-- Two machines that give the same answers lead a program through the same requests. -/
theorem Dialog.run_eq {p : Dialog Q A R} {s : σ} {tr : List (Q × A)} {r : R} (h : p.Ends tr r)
    (hg : Gives m s tr) : p.run m s = (r, tr, after m s tr) := by
  induction h generalizing s with
  | done r => rfl
  | ask h ih =>
    obtain ⟨rfl, hg⟩ := hg
    rw [run, ih hg]
    rfl

end dialog
