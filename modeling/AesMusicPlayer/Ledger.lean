-- The calls that take memory from a system and give it back. A log of calls is
-- sound when each of them fits the memory that is live before it. Then no
-- memory is given back twice, or with a size that is not its own. Nothing here
-- knows a particular program.
import Mathlib.Data.List.Basic
import Mathlib.Data.List.Nodup
import Mathlib.Tactic.Common

namespace ledger

/-- Addresses `P` and sizes `N`. A `malloc` that gives nothing is no call. -/
inductive Call (P N : Type*)
  | malloc (p : P) (n : N)
  | free (p : P) (n : N)
  deriving DecidableEq

variable {P N : Type*}

/-- An address is live with one size. -/
theorem size_unique {l : List (N × P)} (h : (l.map Prod.snd).Nodup) {p : P} {n m : N}
    (hn : (n, p) ∈ l) (hm : (m, p) ∈ l) : n = m := by
  have heq := List.inj_on_of_nodup_map h hn hm rfl
  exact (Prod.mk.inj heq).1

/-- `p` is the address of no memory of the list. -/
def Fresh (l : List (N × P)) (p : P) : Prop := ∀ e ∈ l, e.2 ≠ p

theorem Fresh.snoc {l : List (N × P)} {p q : P} (hq : Fresh l q) (hne : q ≠ p) (n : N) :
    Fresh (l ++ [(n, p)]) q := by
  intro e he
  rcases List.mem_append.mp he with he | he
  · exact hq e he
  · rw [List.mem_singleton.mp he]
    exact hne.symm

/-- The addresses stay distinct. -/
theorem Fresh.nodup {l : List (N × P)} {p : P} (hp : Fresh l p) (h : (l.map Prod.snd).Nodup)
    (n : N) : ((l ++ [(n, p)]).map Prod.snd).Nodup := by
  rw [List.map_append, List.nodup_append]
  refine ⟨h, List.nodup_singleton p, ?_⟩
  intro a ha b hb
  obtain ⟨e, he, rfl⟩ := List.mem_map.mp ha
  rw [List.map_singleton, List.mem_singleton] at hb
  rw [hb]
  exact hp e he

/-- The list holds the memory `l`, each once. -/
structure Lists (mem l : List (N × P)) : Prop where
  distinct : (mem.map Prod.snd).Nodup
  exact : ∀ e, e ∈ mem ↔ e ∈ l

namespace Lists

variable {mem l : List (N × P)}

theorem nil : Lists ([] : List (N × P)) [] := ⟨List.nodup_nil, fun _ => Iff.rfl⟩

theorem eq_nil (h : Lists [] l) : l = [] :=
  List.eq_nil_iff_forall_not_mem.mpr fun e he => List.not_mem_nil ((h.exact e).mpr he)

theorem nil_of_nil (h : Lists mem []) : mem = [] :=
  List.eq_nil_iff_forall_not_mem.mpr fun e he => List.not_mem_nil ((h.exact e).mp he)

theorem perm {mem' : List (N × P)} (h : Lists mem l) (hp : mem.Perm mem') : Lists mem' l :=
  ⟨(hp.map Prod.snd).nodup_iff.mp h.distinct, fun e => hp.mem_iff.symm.trans (h.exact e)⟩

/-- One memory of the list is live, and the others are not it. -/
theorem not_lists_of_cons {e : N × P} (h : Lists (e :: mem) l) : ¬ Lists mem l := by
  intro hmem
  have hnot := (List.nodup_cons.mp h.distinct).1
  have hlive := (h.exact e).mp List.mem_cons_self
  exact hnot (List.mem_map_of_mem ((hmem.exact e).mpr hlive))

theorem fresh (h : Lists mem l) {p : P} (hp : Fresh l p) : Fresh mem p :=
  fun e he => hp e ((h.exact e).mp he)

theorem malloc (h : Lists mem l) {p : P} (hp : Fresh l p) (n : N) :
    Lists (mem ++ [(n, p)]) (l ++ [(n, p)]) := by
  refine ⟨(h.fresh hp).nodup h.distinct n, ?_⟩
  intro e
  rw [List.mem_append, List.mem_append, h.exact e]

end Lists

/-- `p` is taken in the log. -/
def Takes (p : P) (log : List (Call P N)) : Prop := ∃ n, Call.malloc p n ∈ log

theorem takes_malloc {p q : P} {m : N} {log : List (Call P N)} :
    Takes p (log ++ [.malloc q m]) ↔ Takes p log ∨ q = p := by
  unfold Takes
  simp only [List.mem_append, List.mem_singleton, Call.malloc.injEq]
  constructor
  · rintro ⟨n, h | ⟨rfl, -⟩⟩
    · exact Or.inl ⟨n, h⟩
    · exact Or.inr rfl
  · rintro (⟨n, h⟩ | rfl)
    · exact ⟨n, Or.inl h⟩
    · exact ⟨m, Or.inr ⟨rfl, rfl⟩⟩

theorem takes_free {p q : P} {m : N} {log : List (Call P N)} :
    Takes p (log ++ [.free q m]) ↔ Takes p log := by
  unfold Takes
  simp

/-- The only `malloc` of a log is its first call. -/
theorem cons_eq_malloc {c : Call P N} {log log₁ log₂ : List (Call P N)} {p : P} {n : N}
    (hno : ∀ q m, Call.malloc q m ∉ log) (heq : c :: log = log₁ ++ .malloc p n :: log₂) :
    log₁ = [] ∧ c = .malloc p n ∧ log = log₂ := by
  cases log₁ with
  | nil =>
    obtain ⟨hc, hlog⟩ := List.cons.inj heq
    exact ⟨rfl, hc, hlog⟩
  | cons c' log₁ =>
    have hlog := (List.cons.inj heq).2
    exact absurd (hlog ▸ List.mem_append_right _ List.mem_cons_self) (hno p n)

variable [DecidableEq P]

instance (l : List (N × P)) (p : P) : Decidable (Fresh l p) :=
  inferInstanceAs (Decidable (∀ e ∈ l, e.2 ≠ p))

/-! ## The memory that is live -/

/-- The sizes and addresses that are live after one more call. -/
def Call.apply (l : List (N × P)) : Call P N → List (N × P)
  | .malloc p n => l ++ [(n, p)]
  | .free p _ => l.filter fun e => decide (e.2 ≠ p)

/-- What is taken and not given back. -/
def live (log : List (Call P N)) : List (N × P) := log.foldl Call.apply []

@[simp] theorem live_malloc (log : List (Call P N)) (p : P) (n : N) :
    live (log ++ [.malloc p n]) = live log ++ [(n, p)] := by
  unfold live
  rw [List.foldl_append]
  rfl

@[simp] theorem live_free (log : List (Call P N)) (p : P) (n : N) :
    live (log ++ [.free p n]) = (live log).filter fun e => decide (e.2 ≠ p) := by
  unfold live
  rw [List.foldl_append]
  rfl

/-- The call fits what is live before it. -/
def Call.Fits (l : List (N × P)) : Call P N → Prop
  | .malloc p _ => Fresh l p
  | .free p n => (n, p) ∈ l

/-- Each call of the log fits what is live before it. -/
inductive Sound : List (Call P N) → Prop
  | nil : Sound []
  | snoc {log : List (Call P N)} {c : Call P N} :
      Sound log → c.Fits (live log) → Sound (log ++ [c])

theorem Sound.distinct {log : List (Call P N)} (h : Sound log) :
    ((live log).map Prod.snd).Nodup := by
  induction h with
  | nil => exact List.nodup_nil
  | @snoc log c _ hc ih =>
    cases c with
    | malloc p n =>
      rw [live_malloc]
      exact Fresh.nodup hc ih n
    | free p n =>
      rw [live_free]
      exact ih.sublist (List.filter_sublist.map Prod.snd)

/-! ## Taken and given back -/

theorem filter_fresh {l : List (N × P)} {p : P} (hp : Fresh l p) :
    l.filter (fun e => decide (e.2 ≠ p)) = l := by
  rw [List.filter_eq_self]
  intro e he
  exact decide_eq_true (hp e he)

/-- Memory that is taken and given back again. -/
theorem Sound.taken_back {log : List (Call P N)} (h : Sound log) {p : P}
    (hp : Fresh (live log) p) (n : N) :
    Sound (log ++ [.malloc p n, .free p n]) ∧
      live (log ++ [.malloc p n, .free p n]) = live log := by
  have hmalloc : Sound (log ++ [.malloc p n]) := h.snoc hp
  have hmem : (n, p) ∈ live (log ++ [.malloc p n]) := by
    rw [live_malloc]
    exact List.mem_append_right _ (List.mem_singleton_self _)
  have hsplit : log ++ [.malloc p n, .free p n] = log ++ [.malloc p n] ++ [.free p n] := by simp
  rw [hsplit]
  refine ⟨hmalloc.snoc hmem, ?_⟩
  rw [live_free, live_malloc, List.filter_append, filter_fresh hp]
  simp

/-- Two memories are taken. -/
theorem Sound.taken_both {log : List (Call P N)} (h : Sound log) {p q : P}
    (hp : Fresh (live log) p) (hq : Fresh (live log) q) (hne : q ≠ p) (n m : N) :
    Sound (log ++ [.malloc p n, .malloc q m]) ∧
      live (log ++ [.malloc p n, .malloc q m]) = live log ++ [(n, p)] ++ [(m, q)] := by
  have hfresh : Fresh (live (log ++ [.malloc p n])) q := by
    rw [live_malloc]
    exact hq.snoc hne n
  have hsplit : log ++ [.malloc p n, .malloc q m] = log ++ [.malloc p n] ++ [.malloc q m] := by simp
  rw [hsplit]
  have hmalloc : Sound (log ++ [.malloc p n]) := h.snoc hp
  refine ⟨hmalloc.snoc hfresh, ?_⟩
  rw [live_malloc, live_malloc]

/-- Two memories are taken and given back in the same order. -/
theorem Sound.taken_back_both {log : List (Call P N)} (h : Sound log) {p q : P}
    (hp : Fresh (live log) p) (hq : Fresh (live log) q) (hne : q ≠ p) (n m : N) :
    Sound (log ++ [.malloc p n, .malloc q m, .free p n, .free q m]) ∧
      live (log ++ [.malloc p n, .malloc q m, .free p n, .free q m]) = live log := by
  obtain ⟨hboth, hlive⟩ := h.taken_both hp hq hne n m
  have hfirst : live (log ++ [.malloc p n, .malloc q m] ++ [.free p n]) =
      live log ++ [(m, q)] := by
    rw [live_free, hlive, List.filter_append, List.filter_append, filter_fresh hp]
    simp [hne]
  have hp' : Sound (log ++ [.malloc p n, .malloc q m] ++ [.free p n]) := by
    apply hboth.snoc
    rw [hlive]
    simp [Call.Fits]
  have hsplit : log ++ [.malloc p n, .malloc q m, .free p n, .free q m] =
      log ++ [.malloc p n, .malloc q m] ++ [.free p n] ++ [.free q m] := by simp
  rw [hsplit]
  refine ⟨hp'.snoc ?_, ?_⟩
  · rw [hfirst]
    exact List.mem_append_right _ (List.mem_singleton_self _)
  · rw [live_free, hfirst, List.filter_append, filter_fresh hq]
    simp

/-! ## Giving back once -/

/-- The sizes with which `p` is given back, up to the next time that it is taken. -/
def frees (p : P) : List (Call P N) → List N
  | [] => []
  | .malloc q _ :: log => if q = p then [] else frees p log
  | .free q n :: log => if q = p then n :: frees p log else frees p log

theorem frees_malloc (p q : P) (n : N) (log : List (Call P N)) :
    frees p (log ++ [.malloc q n]) = frees p log := by
  induction log with
  | nil => simp [frees]
  | cons c log ih => cases c <;> simp only [List.cons_append, frees, ih]

theorem frees_other {p q : P} (n : N) (log : List (Call P N)) (h : q ≠ p) :
    frees p (log ++ [.free q n]) = frees p log := by
  induction log with
  | nil => simp [frees, h]
  | cons c log ih => cases c <;> simp only [List.cons_append, frees, ih]

/-- A free counts for the last time that the memory was taken. -/
theorem frees_free_of_takes {p : P} {log : List (Call P N)} (n : N) (h : Takes p log) :
    frees p (log ++ [.free p n]) = frees p log := by
  obtain ⟨m, hm⟩ := h
  induction log with
  | nil => cases hm
  | cons c log ih =>
    cases c with
    | malloc q k =>
      by_cases hq : q = p
      · simp only [List.cons_append, frees, if_pos hq]
      · have hne : Call.malloc p m ≠ .malloc q k := fun heq => hq (Call.malloc.inj heq).1.symm
        simp only [List.cons_append, frees, if_neg hq,
          ih ((List.mem_cons.mp hm).resolve_left hne)]
    | free q k =>
      have hne : Call.malloc p m ≠ .free q k := fun heq => by cases heq
      simp only [List.cons_append, frees, ih ((List.mem_cons.mp hm).resolve_left hne)]

theorem frees_free {p : P} {log : List (Call P N)} (n : N) (h : ¬ Takes p log) :
    frees p (log ++ [.free p n]) = frees p log ++ [n] := by
  induction log with
  | nil => simp [frees]
  | cons c log ih =>
    have hrest : ¬ Takes p log := fun ⟨m, hm⟩ => h ⟨m, List.mem_cons_of_mem _ hm⟩
    cases c with
    | malloc q k =>
      have hq : q ≠ p := fun heq => h ⟨k, heq ▸ List.mem_cons_self⟩
      simp only [List.cons_append, frees, if_neg hq, ih hrest]
    | free q k =>
      simp only [List.cons_append, frees, ih hrest]
      split <;> simp

/-- Everything that is taken is given back once, with its size. -/
def GivenBack (log : List (Call P N)) : Prop :=
  ∀ log₁ p n log₂, log = log₁ ++ .malloc p n :: log₂ → frees p log₂ = [n]

theorem givenBack_nil : GivenBack ([] : List (Call P N)) := by
  intro log₁ p n log₂ heq
  exact absurd heq.symm (List.append_ne_nil_of_right_ne_nil _ (List.cons_ne_nil _ _))

/-- Memory that is taken and given back at once. -/
theorem givenBack_pair_iff {p : P} {n m : N} :
    GivenBack [.malloc p n, .free p m] ↔ m = n := by
  constructor
  · intro h
    have hf := h [] p n [.free p m] rfl
    simpa [frees] using hf
  · rintro rfl log₁ q k log₂ heq
    obtain ⟨-, hc, rfl⟩ := cons_eq_malloc (by simp) heq
    obtain ⟨rfl, rfl⟩ := Call.malloc.inj hc
    simp [frees]

/-- Nothing is given back that was not taken, and what was taken is given back
once, with its size, or is live and was not given back. -/
structure Kept (log : List (Call P N)) : Prop where
  taken : ∀ p, frees p log = []
  once : ∀ log₁ p n log₂, log = log₁ ++ .malloc p n :: log₂ →
    frees p log₂ = [n] ∨ frees p log₂ = [] ∧ (n, p) ∈ live log

/-- What one place of a sound log says of the calls behind it. -/
structure Owed (log log₂ : List (Call P N)) (p : P) (n : N) : Prop where
  freed : frees p log₂ = [n] ∨ frees p log₂ = [] ∧ ¬ Takes p log₂ ∧ (n, p) ∈ live log
  gone : frees p log₂ = [n] → ¬ Takes p log₂ → Fresh (live log) p

theorem Sound.takes_of_live {log : List (Call P N)} (h : Sound log) :
    ∀ e ∈ live log, Takes e.2 log := by
  induction h with
  | nil => intro e he; cases he
  | @snoc log c _ _ ih =>
    intro e he
    have hold : ∀ e ∈ live log, Takes e.2 (log ++ [c]) := by
      intro e he
      obtain ⟨m, hm⟩ := ih e he
      exact ⟨m, List.mem_append_left _ hm⟩
    cases c with
    | malloc p n =>
      rw [live_malloc, List.mem_append, List.mem_singleton] at he
      rcases he with he | rfl
      · exact hold e he
      · exact ⟨n, List.mem_append_right _ (List.mem_singleton_self _)⟩
    | free p n =>
      rw [live_free] at he
      exact hold e (List.mem_of_mem_filter he)

theorem Sound.frees_nil {log : List (Call P N)} (h : Sound log) (p : P) : frees p log = [] := by
  induction h with
  | nil => rfl
  | @snoc log c hs hc ih =>
    cases c with
    | malloc q n => rw [frees_malloc, ih]
    | free q n =>
      by_cases hq : q = p
      · subst hq
        rw [frees_free_of_takes n (hs.takes_of_live (n, q) hc), ih]
      · rw [frees_other n log hq, ih]

theorem Owed.malloc {log log₂ : List (Call P N)} {p q : P} {n : N} (m : N)
    (h : Owed log log₂ p n) (hq : Fresh (live log) q) :
    Owed (log ++ [.malloc q m]) (log₂ ++ [.malloc q m]) p n := by
  by_cases heq : q = p
  · subst heq
    -- the memory is taken again, so it was given back before
    refine ⟨Or.inl ?_, fun _ hno => absurd (takes_malloc.mpr (Or.inr rfl)) hno⟩
    rw [frees_malloc]
    rcases h.freed with hf | ⟨-, -, hl⟩
    · exact hf
    · exact absurd rfl (hq _ hl)
  · refine ⟨?_, ?_⟩ <;> rw [frees_malloc, live_malloc, takes_malloc]
    · rcases h.freed with hf | ⟨h0, hno, hl⟩
      · exact Or.inl hf
      · exact Or.inr ⟨h0, fun ht => ht.elim hno heq, List.mem_append_left _ hl⟩
    · intro hf hno e he
      rcases List.mem_append.mp he with he | he
      · exact h.gone hf (fun ht => hno (Or.inl ht)) e he
      · rw [List.mem_singleton] at he
        rw [he]
        exact heq

theorem Owed.free {log log₂ : List (Call P N)} {p q : P} {n m : N} (h : Owed log log₂ p n)
    (hd : ((live log).map Prod.snd).Nodup) (hq : (m, q) ∈ live log) :
    Owed (log ++ [.free q m]) (log₂ ++ [.free q m]) p n := by
  by_cases heq : q = p
  · subst heq
    have hgone : Fresh (live (log ++ [.free q m])) q := by
      intro e he
      rw [live_free] at he
      exact of_decide_eq_true (List.mem_filter.mp he).2
    refine ⟨Or.inl ?_, fun _ _ => hgone⟩
    by_cases ht : Takes q log₂
    · rw [frees_free_of_takes m ht]
      exact h.freed.resolve_right fun ⟨_, hno, _⟩ => hno ht
    · rw [frees_free m ht]
      rcases h.freed with hf | ⟨h0, -, hl⟩
      · exact absurd rfl (h.gone hf ht _ hq)
      · rw [h0, size_unique hd hq hl]
        rfl
  · refine ⟨?_, ?_⟩ <;> rw [frees_other m log₂ heq, live_free, takes_free]
    · rcases h.freed with hf | ⟨h0, hno, hl⟩
      · exact Or.inl hf
      · have hne : p ≠ q := fun h' => heq h'.symm
        exact Or.inr ⟨h0, hno, List.mem_filter.mpr ⟨hl, decide_eq_true hne⟩⟩
    · intro hf hno e he
      exact h.gone hf hno e (List.mem_of_mem_filter he)

theorem Sound.owed {log : List (Call P N)} (h : Sound log) :
    ∀ log₁ p n log₂, log = log₁ ++ .malloc p n :: log₂ → Owed log log₂ p n := by
  induction h with
  | nil =>
    intro log₁ p n log₂ heq
    exact absurd heq.symm (List.append_ne_nil_of_right_ne_nil _ (List.cons_ne_nil _ _))
  | @snoc log c hs hc ih =>
    intro log₁ p n log₂ heq
    rcases List.eq_nil_or_concat log₂ with rfl | ⟨log₃, b, rfl⟩
    · -- the memory is taken by the last call
      obtain ⟨rfl, hlast⟩ := List.append_inj' heq rfl
      rw [List.singleton_inj] at hlast
      subst hlast
      have htakes : ¬ Takes p ([] : List (Call P N)) := fun ⟨m, hm⟩ => by cases hm
      have hlive : (n, p) ∈ live (log ++ [.malloc p n]) := by
        rw [live_malloc]
        exact List.mem_append_right _ (List.mem_singleton_self _)
      exact ⟨Or.inr ⟨rfl, htakes, hlive⟩, fun hnil => by cases hnil⟩
    · rw [List.concat_eq_append] at heq ⊢
      rw [← List.cons_append, ← List.append_assoc] at heq
      obtain ⟨hlog, hb⟩ := List.append_inj' heq rfl
      rw [List.singleton_inj] at hb
      subst hb
      cases c with
      | malloc q m => exact (ih log₁ p n log₃ hlog).malloc m hc
      | free q m => exact (ih log₁ p n log₃ hlog).free hs.distinct hc

theorem Sound.kept {log : List (Call P N)} (h : Sound log) : Kept log := by
  refine ⟨h.frees_nil, ?_⟩
  intro log₁ p n log₂ heq
  rcases (h.owed log₁ p n log₂ heq).freed with hf | ⟨h0, -, hl⟩
  · exact Or.inl hf
  · exact Or.inr ⟨h0, hl⟩

/-- When nothing is live any more, everything was given back once. -/
theorem Kept.all {log : List (Call P N)} (h : Kept log) (hl : live log = []) : GivenBack log := by
  intro log₁ p n log₂ heq
  rcases h.once log₁ p n log₂ heq with hf | ⟨-, hm⟩
  · exact hf
  · rw [hl] at hm
    cases hm

/-! ## Erasing by places -/

/-- Erasing the place that a search gives is erasing what it finds. -/
theorem eraseIdx_findIdx {α : Type*} (F : α → Bool) (l : List α) :
    l.eraseIdx (l.findIdx F) = l.eraseP F := by
  rw [List.eraseP_eq_eraseIdx]
  cases hf : l.findIdx? F with
  | none =>
    rw [List.findIdx?_eq_none_iff_findIdx_eq] at hf
    exact List.eraseIdx_of_length_le (Nat.le_of_eq hf.symm)
  | some i => rw [(List.findIdx?_eq_some_iff_findIdx_eq.mp hf).2]

/-- The first erasure is behind the second place, so that place is still right. -/
theorem eraseIdx_eraseIdx {α : Type*} {F G : α → Bool} {l : List α}
    (h : l.findIdx F < l.findIdx G) :
    (l.eraseIdx (l.findIdx G)).eraseIdx (l.findIdx F) = (l.eraseP G).eraseP F := by
  induction l with
  | nil => rfl
  | cons a l ih =>
    rw [List.findIdx_cons, List.findIdx_cons] at h ⊢
    cases hG : G a with
    | true =>
      rw [hG] at h
      exact absurd h (Nat.not_lt_zero _)
    | false =>
      rw [hG] at h
      rw [List.eraseP_cons_of_neg (by simp [hG])]
      cases hF : F a with
      | true =>
        simp only [cond_true, cond_false, List.eraseIdx_cons_succ, List.eraseIdx_cons_zero]
        rw [List.eraseP_cons_of_pos hF, eraseIdx_findIdx]
      | false =>
        rw [hF] at h
        simp only [cond_false, List.eraseIdx_cons_succ] at h ⊢
        rw [List.eraseP_cons_of_neg (by simp [hF]), ih (by omega)]

/-! ## A list of the live memory -/

/-- Of distinct addresses, erasing the first is erasing all. -/
theorem eraseP_eq_filter {mem : List (N × P)} (h : (mem.map Prod.snd).Nodup) (p : P) :
    mem.eraseP (fun e => e.2 == p) = mem.filter fun e => decide (e.2 ≠ p) := by
  induction mem with
  | nil => rfl
  | cons e mem ih =>
    rw [List.map_cons, List.nodup_cons] at h
    by_cases he : e.2 = p
    · have hrest : mem.filter (fun e => decide (e.2 ≠ p)) = mem := by
        rw [List.filter_eq_self]
        intro e' he'
        apply decide_eq_true
        intro heq
        exact h.1 (List.mem_map.mpr ⟨e', he', heq.trans he.symm⟩)
      rw [List.eraseP_cons_of_pos (by simp [he]), List.filter_cons_of_neg (by simp [he]), hrest]
    · rw [List.eraseP_cons_of_neg (by simp [he]), List.filter_cons_of_pos (by simp [he]), ih h.2]

namespace Lists

variable {mem l : List (N × P)}

theorem erase (h : Lists mem l) (p : P) :
    Lists (mem.eraseP fun e => e.2 == p) (l.filter fun e => decide (e.2 ≠ p)) := by
  rw [eraseP_eq_filter h.distinct]
  refine ⟨h.distinct.sublist (List.filter_sublist.map Prod.snd), ?_⟩
  intro e
  rw [List.mem_filter, List.mem_filter, h.exact e]

/-- The lookup by address finds the memory with its size. -/
theorem find_eq_some (h : Lists mem l) {p q : P} {n : N} :
    mem.find? (fun e => e.2 == p) = some (n, q) ↔ (n, p) ∈ l ∧ q = p := by
  constructor
  · intro hf
    have hq : q = p := by simpa using List.find?_some hf
    exact ⟨hq ▸ (h.exact _).mp (List.mem_of_find?_eq_some hf), hq⟩
  · rintro ⟨hl, rfl⟩
    have hmem := (h.exact _).mpr hl
    cases hf : mem.find? (fun e => e.2 == q) with
    | none =>
      have hno := List.find?_eq_none.mp hf _ hmem
      simp at hno
    | some e =>
      obtain ⟨m, q'⟩ := e
      have hq' : q' = q := by simpa using List.find?_some hf
      have hm : (m, q) ∈ mem := hq' ▸ List.mem_of_find?_eq_some hf
      rw [hq', size_unique h.distinct hm hmem]

theorem find_eq_none (h : Lists mem l) {p : P} :
    mem.find? (fun e => e.2 == p) = none ↔ Fresh l p := by
  rw [List.find?_eq_none]
  constructor
  · intro hno e he heq
    exact hno e ((h.exact e).mpr he) (by simpa using heq)
  · intro hp e he
    have hne := hp e ((h.exact e).mp he)
    simpa using hne

end Lists

/-- Everything on the list is given back. -/
theorem Sound.free_all {log : List (Call P N)} {mem : List (N × P)} (h : Sound log)
    (hl : Lists mem (live log)) :
    Sound (log ++ mem.map fun e => .free e.2 e.1) ∧
      live (log ++ mem.map fun e => .free e.2 e.1) = [] := by
  induction mem generalizing log with
  | nil =>
    rw [List.map_nil, List.append_nil]
    exact ⟨h, hl.eq_nil⟩
  | cons e mem ih =>
    have hnext : Sound (log ++ [.free e.2 e.1]) :=
      h.snoc ((hl.exact e).mp List.mem_cons_self)
    have hrest : Lists mem (live (log ++ [.free e.2 e.1])) := by
      have herase := hl.erase e.2
      rw [List.eraseP_cons_of_pos (by simp)] at herase
      rw [live_free]
      exact herase
    rw [List.map_cons, ← List.singleton_append, ← List.append_assoc]
    exact ih hnext hrest

end ledger
