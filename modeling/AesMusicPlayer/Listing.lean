-- The entries of `_get_dir_entries` beside the pre-order listing of the tree. The
-- limit is tested with `>`, and the list gets one entry more than it.
import AesMusicPlayer.DirEntries
import Mathlib.Data.List.Forall2

open nul_terminated

namespace directory_navigator

/-! ## The listing -/

/-- The path, the name with its levels, and whether it counts as a directory. -/
abbrev Item := Listed

mutual

/-- A node and what is below it. -/
def Node.preorder (node : Node) (dir : Text) (depth : ℕ) : List Item :=
  let path := entry_path dir node.d_name
  let item (is_directory : Bool) : Item := ⟨path, pre depth ++ node.d_name, is_directory⟩
  if is_dot node.d_name then []
  else match node with
    | .broken _ => [item false]
    | .file _ _ => [item false]
    | .unreadable _ => [item true, error_entry path]
    | .directory _ content => item true :: preorder_all content path (depth + 1)

def preorder_all : List Node → Text → ℕ → List Item
  | [], _, _ => []
  | node :: nodes, dir, depth => node.preorder dir depth ++ preorder_all nodes dir depth

end

/-- The pre-order listing of a directory. -/
def preorder (dir : Text) : Option (List Node) → List Item
  | none => [⟨dir, dir, true⟩, error_entry dir]
  | some content => ⟨dir, dir, true⟩ :: preorder_all content dir 0

/-- The entry is that of the item; behind the name of a file there may be key symbols. -/
structure Renders (item : Item) (entry : Listed) : Prop where
  path : entry.path = item.path
  is_directory : entry.is_directory = item.is_directory
  name : ∃ k, entry.name = item.name ++ (List.replicate k (text " 🔑 ")).flatten ∧
    (item.is_directory = true → k = 0)

/-! ## The entries with no limit -/

mutual

/-- What is appended for a node, with the buffers that it leaves behind. -/
def Node.listed (node : Node) (dir : Text) (depth : ℕ) (b : Buffers) : List Listed × Buffers :=
  let path := entry_path dir node.d_name
  if is_dot node.d_name then ([], b)
  else match node with
    | .broken d_name => ([⟨path, pre depth ++ d_name, false⟩], b)
    | .file d_name attributes =>
      ([⟨path, pre depth ++ d_name ++ (symbols attributes b).1, false⟩], (symbols attributes b).2)
    | .unreadable d_name => ([⟨path, pre depth ++ d_name, true⟩, error_entry path], b)
    | .directory d_name content =>
      (⟨path, pre depth ++ d_name, true⟩ :: listed_all content path (depth + 1) .cleared, b)

def listed_all : List Node → Text → ℕ → Buffers → List Listed
  | [], _, _, _ => []
  | node :: nodes, dir, depth, b =>
    (node.listed dir depth b).1 ++ listed_all nodes dir depth (node.listed dir depth b).2

end

/-- Everything that is appended for a directory that opens. -/
def listed (dir : Text) (content : List Node) : List Listed :=
  ⟨dir, dir, true⟩ :: listed_all content dir 0 .cleared

/-! ## The limit -/

section Limit

variable {max_entries depth : ℕ} {dir : Text} {entries : List Listed}

theorem take_append_take {l₁ l₂ : List Listed} {n : ℕ} (h : entries.length ≤ n) :
    entries ++ l₁.take (n - entries.length) ++
        l₂.take (n - (entries ++ l₁.take (n - entries.length)).length) =
      entries ++ (l₁ ++ l₂).take (n - entries.length) := by
  rw [List.append_assoc, List.take_append, List.length_append, List.length_take]
  congr 3
  omega

theorem enter_unreadable (hdepth : depth ≠ 0) :
    (enter max_entries dir depth none entries).2 =
      entries ++ [error_entry dir].take (max_entries + 1 - entries.length) := by
  unfold enter
  simp only [if_neg hdepth]
  split
  · next hfull =>
    rw [Nat.sub_eq_zero_of_le hfull, List.take_zero, List.append_nil]
  · next hroom =>
    rw [List.take_of_length_le]
    rw [List.length_singleton]
    omega

theorem enter_directory {loop : Loop → Loop} {l : List Listed} (hdepth : depth ≠ 0)
    (hloop : (loop ⟨entries, .cleared⟩).entries =
      entries ++ l.take (max_entries + 1 - entries.length)) :
    (enter max_entries dir depth (some loop) entries).2 =
      entries ++ l.take (max_entries + 1 - entries.length) := by
  unfold enter
  simp only [if_neg hdepth]
  split
  · next hfull =>
    rw [Nat.sub_eq_zero_of_le hfull, List.take_zero, List.append_nil]
  · exact hloop

mutual

/-- An entry appends what it does with no limit, as far as the limit lets it. -/
theorem read_entry_eq (node : Node) (dir : Text) (depth : ℕ) (s : Loop)
    (h : s.entries.length ≤ max_entries) :
    read_entry max_entries node dir depth s =
      ⟨s.entries ++ (node.listed dir depth s.buffers).1.take (max_entries + 1 - s.entries.length),
        (node.listed dir depth s.buffers).2⟩ := by
  have hone : ∀ l : Listed, (s.entries ++ [l]).length ≤ max_entries + 1 := by
    intro l
    rw [List.length_append, List.length_singleton]
    omega
  have htake : ∀ (l : Listed) (ls : List Listed), s.entries ++ [l] ++
      ls.take (max_entries + 1 - (s.entries ++ [l]).length) =
        s.entries ++ (l :: ls).take (max_entries + 1 - s.entries.length) := by
    intro l ls
    have hsucc : max_entries + 1 - s.entries.length = max_entries - s.entries.length + 1 := by
      omega
    rw [hsucc, List.take_succ_cons, List.append_assoc, List.singleton_append, List.length_append,
      List.length_singleton, Nat.add_sub_add_right]
  unfold read_entry Node.listed
  by_cases hdot : is_dot node.d_name
  · simp only [if_pos hdot, List.take_nil, List.append_nil]
  · simp only [if_neg hdot]
    cases node with
    | broken d_name =>
      simp only
      rw [← htake, List.take_nil, List.append_nil]
    | file d_name attributes =>
      simp only
      rw [← htake, List.take_nil, List.append_nil]
    | unreadable d_name =>
      simp only
      rw [enter_unreadable (Nat.succ_ne_zero _), htake]
    | directory d_name content =>
      simp only
      have hloop := read_dir_eq content (entry_path dir d_name) (depth + 1)
        ⟨s.entries ++ [⟨entry_path dir d_name, pre depth ++ d_name, true⟩], .cleared⟩ (hone _)
      rw [← htake]
      congr 1
      exact enter_directory (Nat.succ_ne_zero _) hloop

theorem read_dir_eq (nodes : List Node) (dir : Text) (depth : ℕ) (s : Loop)
    (h : s.entries.length ≤ max_entries + 1) :
    (read_dir max_entries nodes dir depth s).entries =
      s.entries ++ (listed_all nodes dir depth s.buffers).take
        (max_entries + 1 - s.entries.length) := by
  cases nodes with
  | nil =>
    unfold read_dir listed_all
    rw [List.take_nil, List.append_nil]
  | cons node nodes =>
    unfold read_dir listed_all
    split
    · next hfull =>
      rw [Nat.sub_eq_zero_of_le hfull, List.take_zero, List.append_nil]
    · next hroom =>
      have hle : s.entries.length ≤ max_entries := Nat.not_lt.mp hroom
      rw [read_dir_eq nodes dir depth, read_entry_eq node dir depth s hle]
      · exact take_append_take h
      · rw [read_entry_eq node dir depth s hle, List.length_append, List.length_take]
        omega

end

/-- A directory that opens lists one entry more than the limit. -/
theorem directory_entries_some (max_entries : ℕ) (dir : Text) (content : List Node) :
    directory_entries max_entries dir (some content) =
      (true, (listed dir content).take (max_entries + 1)) := by
  unfold directory_entries get_dir_entries enter
  rw [if_neg (by simp), if_pos rfl]
  simp only [Option.map_some]
  rw [read_dir_eq content dir 0 _ (by simp)]
  simp [listed]

theorem directory_entries_none (max_entries : ℕ) (dir : Text) :
    directory_entries max_entries dir none = (false, [⟨dir, dir, true⟩, error_entry dir]) := by
  unfold directory_entries get_dir_entries enter
  rw [if_neg (by simp), if_pos rfl]
  rfl

end Limit

/-! ## The key symbols -/

theorem symbol_eq (key : Text) :
    symbol key = if key = encrypted_name ++ [1] then text " 🔑 " else [] := by
  unfold symbol xattr_symbol_map
  rw [List.lookup_cons]
  by_cases h : key = encrypted_name ++ [1]
  · rw [if_pos h, beq_iff_eq.mpr h]
    show text " " ++ text "🔑" ++ text " " = text " 🔑 "
    decide
  · rw [if_neg h, beq_false_of_ne h]
    rfl

/-- Only key symbols are appended. -/
theorem exists_replicate_symbol (attributes : Option (List Attribute)) (xattr_name : Text)
    (fuel pos : ℕ) (xattr_val post : Text) :
    ∃ k, (read_names attributes xattr_name fuel pos xattr_val post).2 =
      post ++ (List.replicate k (text " 🔑 ")).flatten := by
  induction fuel generalizing pos xattr_val post with
  | zero => exact ⟨0, (List.append_nil _).symm⟩
  | succ fuel ih =>
    have hone : ∀ key, ∃ k, symbol key = (List.replicate k (text " 🔑 ")).flatten := by
      intro key
      rw [symbol_eq]
      split
      · exact ⟨1, by simp⟩
      · exact ⟨0, rfl⟩
    unfold read_names
    simp only
    split
    · obtain ⟨k, hk⟩ := hone (c_string 0 (xattr_name.drop pos) ++
        value_text attributes (c_string 0 (xattr_name.drop pos)) xattr_val)
      split
      · obtain ⟨m, hm⟩ := ih _ _ _
        refine ⟨k + m, ?_⟩
        rw [hm, hk, List.append_assoc, List.replicate_add, List.flatten_append]
      · exact ⟨k, congrArg (post ++ ·) hk⟩
    · exact ⟨0, (List.append_nil _).symm⟩

theorem symbols_replicate (attributes : Option (List Attribute)) (b : Buffers) :
    ∃ k, (symbols attributes b).1 = (List.replicate k (text " 🔑 ")).flatten := by
  unfold symbols
  split
  · exact exists_replicate_symbol ..
  · exact ⟨0, rfl⟩

/-! ## The entries are those of the listing -/

theorem renders_self (item : Item) : Renders item item :=
  ⟨rfl, rfl, 0, (List.append_nil _).symm, fun _ => rfl⟩

mutual

theorem forall₂_listed (node : Node) (dir : Text) (depth : ℕ) (b : Buffers) :
    List.Forall₂ Renders (node.preorder dir depth) (node.listed dir depth b).1 := by
  unfold Node.preorder Node.listed
  by_cases hdot : is_dot node.d_name
  · simp only [if_pos hdot]
    exact .nil
  · simp only [if_neg hdot]
    cases node with
    | broken d_name => exact .cons (renders_self _) .nil
    | file d_name attributes =>
      obtain ⟨k, hk⟩ := symbols_replicate attributes b
      refine .cons ⟨rfl, rfl, k, ?_, fun h => by cases h⟩ .nil
      rw [hk]
      rfl
    | unreadable d_name => exact .cons (renders_self _) (.cons (renders_self _) .nil)
    | directory d_name content =>
      exact .cons (renders_self _) (forall₂_listed_all content _ (depth + 1) .cleared)

theorem forall₂_listed_all (nodes : List Node) (dir : Text) (depth : ℕ) (b : Buffers) :
    List.Forall₂ Renders (preorder_all nodes dir depth) (listed_all nodes dir depth b) := by
  cases nodes with
  | nil => exact .nil
  | cons node nodes =>
    unfold preorder_all listed_all
    exact List.rel_append (forall₂_listed node dir depth b)
      (forall₂_listed_all nodes dir depth (node.listed dir depth b).2)

end

theorem forall₂_listed_root (dir : Text) (content : List Node) :
    List.Forall₂ Renders (preorder dir (some content)) (listed dir content) :=
  .cons (renders_self _) (forall₂_listed_all content dir 0 .cleared)

/-- How many entries there are. -/
theorem length_directory_entries (max_entries : ℕ) (dir : Text) (content : List Node) :
    (directory_entries max_entries dir (some content)).2.length =
      min (max_entries + 1) (preorder dir (some content)).length := by
  rw [directory_entries_some, List.length_take, (forall₂_listed_root dir content).length_eq]

/-- The entries are the first of the pre-order listing, as many as the limit says, exactly when
the limit does not cut the listing. -/
theorem entries_are_the_first_iff (max_entries : ℕ) (dir : Text) (content : Option (List Node)) :
    List.Forall₂ Renders ((preorder dir content).take max_entries)
        (directory_entries max_entries dir content).2 ↔
      (preorder dir content).length ≤ max_entries := by
  constructor
  · intro hall
    have hlen := hall.length_eq
    rw [List.length_take] at hlen
    cases content with
    | none =>
      rw [directory_entries_none] at hlen
      simp only [preorder, List.length_cons, List.length_nil] at hlen ⊢
      omega
    | some content =>
      rw [length_directory_entries] at hlen
      omega
  · intro hle
    rw [List.take_of_length_le hle]
    cases content with
    | none =>
      rw [directory_entries_none]
      exact .cons (renders_self _) (.cons (renders_self _) .nil)
    | some content =>
      have hall := forall₂_listed_root dir content
      rw [directory_entries_some, List.take_of_length_le]
      · exact hall
      · rw [← hall.length_eq]
        omega

/-- With a limit of one, the root and the first entry of its content. -/
theorem one_entry_too_many :
    (directory_entries 1 (text "/d") (some [.broken (text "a"), .broken (text "b")])).2 =
        [⟨text "/d", text "/d", true⟩, ⟨text "/d/a", text "  ╟─ a", false⟩] ∧
      (preorder (text "/d") (some [.broken (text "a"), .broken (text "b")])).length = 3 ∧
      ¬ List.Forall₂ Renders
        ((preorder (text "/d") (some [.broken (text "a"), .broken (text "b")])).take 1)
        (directory_entries 1 (text "/d") (some [.broken (text "a"), .broken (text "b")])).2 := by
  refine ⟨by decide, by decide, ?_⟩
  intro hall
  exact absurd hall.length_eq (by decide)

end directory_navigator
