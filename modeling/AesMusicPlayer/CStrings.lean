-- Strings that end with a null element, one or several in a buffer. Nothing here
-- knows a particular program.
import Mathlib.Data.List.Basic
import Mathlib.Tactic.Common

namespace nul_terminated

variable {α : Type*} [DecidableEq α] {nul : α}

/-- The string at the start of the buffer. -/
def c_string (nul : α) (buffer : List α) : List α := buffer.takeWhile (· ≠ nul)

/-- The strings one behind the other, up to an empty one or to the end of the buffer. -/
def c_strings (nul : α) (buffer : List α) : List (List α) :=
  (buffer.splitOnP (· = nul)).takeWhile (· ≠ [])

section CString

variable {s rest : List α}

theorem c_string_cons (b : α) (rest : List α) :
    c_string nul (b :: rest) = if b = nul then [] else b :: c_string nul rest := by
  unfold c_string
  rw [List.takeWhile_cons]
  by_cases h : b = nul
  · rw [if_pos h, if_neg]
    simp [h]
  · rw [if_neg h, if_pos]
    simp [h]

theorem not_mem_c_string (buffer : List α) : nul ∉ c_string nul buffer := by
  induction buffer with
  | nil => exact List.not_mem_nil
  | cons b rest ih =>
    rw [c_string_cons]
    split
    · exact List.not_mem_nil
    · next hb =>
      rw [List.mem_cons, not_or]
      exact ⟨Ne.symm hb, ih⟩

/-- A buffer is one string, or a string, a null and the rest. -/
theorem c_string_cases (nul : α) (buffer : List α) :
    nul ∉ buffer ∧ c_string nul buffer = buffer ∨
      buffer = c_string nul buffer ++ nul :: buffer.drop ((c_string nul buffer).length + 1) := by
  induction buffer with
  | nil => exact .inl ⟨List.not_mem_nil, rfl⟩
  | cons b rest ih =>
    rw [c_string_cons]
    by_cases hb : b = nul
    · rw [if_pos hb, hb]
      exact .inr rfl
    · rw [if_neg hb]
      rcases ih with ⟨hno, heq⟩ | heq
      · refine .inl ⟨?_, by rw [heq]⟩
        rw [List.mem_cons, not_or]
        exact ⟨Ne.symm hb, hno⟩
      · refine .inr ?_
        rw [List.length_cons, List.drop_succ_cons, List.cons_append, ← heq]

end CString

section CStrings

variable {s rest : List α}

theorem c_strings_nil : c_strings nul ([] : List α) = [] := by
  unfold c_strings
  rw [List.splitOnP_nil]
  rfl

theorem c_strings_cons_nul : c_strings nul (nul :: rest) = [] := by
  unfold c_strings
  rw [← List.nil_append (nul :: rest), List.splitOnP_append_cons _ _ (by simp), List.splitOnP_nil]
  rfl

theorem c_strings_append (hs : s ≠ []) (h : nul ∉ s) :
    c_strings nul (s ++ nul :: rest) = s :: c_strings nul rest := by
  unfold c_strings
  have hsplit : s.splitOnP (· = nul) = [s] := by
    apply List.splitOnP_eq_singleton
    intro b hb
    exact decide_eq_false (ne_of_mem_of_not_mem hb h)
  rw [List.splitOnP_append_cons _ _ (by simp), hsplit, List.singleton_append,
    List.takeWhile_cons_of_pos (by simpa using hs)]

/-- Several strings, each with its null. -/
theorem c_strings_flatMap {ss : List (List α)} (h : ∀ s ∈ ss, s ≠ [] ∧ nul ∉ s) :
    c_strings nul (ss.flatMap (fun s => s ++ [nul]) ++ rest) = ss ++ c_strings nul rest := by
  induction ss with
  | nil => rfl
  | cons s ss ih =>
    rw [List.forall_mem_cons] at h
    rw [List.flatMap_cons, List.append_assoc, List.append_assoc, List.singleton_append,
      c_strings_append h.1.1 h.1.2, ih h.2, List.cons_append]

theorem c_strings_of_empty {buffer : List α} (h : c_string nul buffer = []) :
    c_strings nul buffer = [] := by
  rcases c_string_cases nul buffer with ⟨_, heq⟩ | heq
  · rw [← heq, h, c_strings_nil]
  · rw [heq, h, List.nil_append, c_strings_cons_nul]

/-- The first string of a buffer, and the strings behind its null. -/
theorem c_strings_eq_cons {buffer : List α} (h : c_string nul buffer ≠ []) :
    c_strings nul buffer = c_string nul buffer ::
      c_strings nul (buffer.drop ((c_string nul buffer).length + 1)) := by
  rcases c_string_cases nul buffer with ⟨hno, heq⟩ | heq
  · have hrest : buffer.drop ((c_string nul buffer).length + 1) = [] := by
      rw [heq]
      exact List.drop_eq_nil_of_le (Nat.le_succ _)
    have hsplit : buffer.splitOnP (· = nul) = [buffer] := by
      apply List.splitOnP_eq_singleton
      intro b hb
      exact decide_eq_false (ne_of_mem_of_not_mem hb hno)
    rw [hrest, c_strings_nil, heq]
    unfold c_strings
    rw [heq] at h
    rw [hsplit, List.takeWhile_cons_of_pos (by simpa using h), List.takeWhile_nil]
  · conv_lhs => rw [heq]
    exact c_strings_append h (not_mem_c_string buffer)

end CStrings

end nul_terminated
