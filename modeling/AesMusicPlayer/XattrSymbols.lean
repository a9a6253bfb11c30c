-- The key symbol of a file, beside `is_encrypted`. The files of a directory share
-- one buffer for the names and one for the values, and neither is cleared.
import AesMusicPlayer.Listing

open nul_terminated random_access

namespace directory_navigator

/-! ## The calls for one file -/

/-- The calls of `getxattr`, each with the value buffer before it. -/
def calls (attributes : Option (List Attribute)) : List Text → Text → List (Text × Text)
  | [], _ => []
  | name :: names, xattr_val =>
    (name, xattr_val) :: calls attributes names (value_buffer attributes name xattr_val)

/-- The calls for a file, with the buffers that it finds. -/
def calls_of (attributes : Option (List Attribute)) (b : Buffers) : List (Text × Text) :=
  match listxattr attributes XATTR_NAME_BUFF_SIZE with
  | some list => calls attributes (c_strings 0 (overwrite b.xattr_name 0 list)) b.xattr_val
  | none => []

/-- The name and the text that is read for it are the key of the symbol. -/
def Spells (attributes : Option (List Attribute)) (call : Text × Text) : Bool :=
  call.1 ++ value_text attributes call.1 call.2 = encrypted_name ++ [1]

section Calls

variable {attributes : Option (List Attribute)} {xattr_name xattr_val post : Text}

theorem read_names_eq {fuel pos : ℕ} (hsize : xattr_name.length ≤ XATTR_NAME_BUFF_SIZE)
    (hfuel : xattr_name.length ≤ pos + fuel) :
    (read_names attributes xattr_name fuel pos xattr_val post).2 =
      post ++ (calls attributes (c_strings 0 (xattr_name.drop pos)) xattr_val).flatMap
        fun call => symbol (call.1 ++ value_text attributes call.1 call.2) := by
  have hend : ∀ {n}, xattr_name.length ≤ n → c_strings 0 (xattr_name.drop n) = [] := by
    intro n hn
    rw [List.drop_eq_nil_of_le hn, c_strings_nil]
  induction fuel generalizing pos xattr_val post with
  | zero =>
    rw [hend (by omega)]
    exact (List.append_nil _).symm
  | succ fuel ih =>
    unfold read_names
    simp only
    split
    · next hlen =>
      have hne := List.ne_nil_of_length_pos hlen
      rw [c_strings_eq_cons hne, List.drop_drop, calls, List.flatMap_cons, ← List.append_assoc]
      split
      · rw [ih (by omega), Nat.add_assoc]
      · next hout =>
        have hover : xattr_name.length ≤
            pos + ((c_string 0 (xattr_name.drop pos)).length + 1) := by
          omega
        rw [hend hover]
        exact (List.append_nil _).symm
    · next hlen =>
      rw [c_strings_of_empty (List.eq_nil_of_length_eq_zero (Nat.eq_zero_of_not_pos hlen))]
      exact (List.append_nil _).symm

theorem spells_iff {call : Text × Text} : Spells attributes call = true ↔
    call.1 ++ value_text attributes call.1 call.2 = encrypted_name ++ [1] := decide_eq_true_iff

/-- One symbol for each call that spells the key. -/
theorem flatMap_symbol (cs : List (Text × Text)) :
    (cs.flatMap fun call => symbol (call.1 ++ value_text attributes call.1 call.2)) =
      (List.replicate (cs.countP (Spells attributes)) (text " 🔑 ")).flatten := by
  induction cs with
  | nil => rfl
  | cons call cs ih =>
    rw [List.flatMap_cons, ih, symbol_eq, List.countP_cons]
    by_cases h : Spells attributes call = true
    · rw [if_pos (spells_iff.mp h), if_pos h, Nat.add_comm, List.replicate_add,
        List.flatten_append]
      rfl
    · rw [if_neg (mt spells_iff.mpr h), if_neg h]
      rfl

theorem length_listxattr {list : Text}
    (h : listxattr attributes XATTR_NAME_BUFF_SIZE = some list) :
    list.length ≤ XATTR_NAME_BUFF_SIZE := by
  unfold listxattr at h
  exact of_decide_eq_true (Option.filter_eq_some_iff.mp h).2

theorem symbols_eq {b : Buffers} (hsize : b.xattr_name.length = XATTR_NAME_BUFF_SIZE) :
    (symbols attributes b).1 =
      (List.replicate ((calls_of attributes b).countP (Spells attributes))
        (text " 🔑 ")).flatten := by
  unfold symbols calls_of
  rcases hlist : listxattr attributes XATTR_NAME_BUFF_SIZE with _ | list
  · rfl
  · have hlen : (overwrite b.xattr_name 0 list).length = XATTR_NAME_BUFF_SIZE := by
      rw [length_overwrite, hsize]
      rw [Nat.zero_add, hsize]
      exact length_listxattr hlist
    simp only
    rw [read_names_eq (Nat.le_of_eq hlen) (by omega), List.nil_append, List.drop_zero,
      flatMap_symbol]

/-- The buffer of the names keeps its size. -/
theorem size_symbols {b : Buffers} (hsize : b.xattr_name.length = XATTR_NAME_BUFF_SIZE) :
    (symbols attributes b).2.xattr_name.length = XATTR_NAME_BUFF_SIZE := by
  unfold symbols
  split
  · next list hlist =>
    simp only
    rw [length_overwrite, hsize]
    rw [Nat.zero_add, hsize]
    exact length_listxattr hlist
  · exact hsize

theorem mem_calls (attributes : Option (List Attribute)) (xattr_val : Text) {names : List Text}
    {name : Text} (h : name ∈ names) :
    ∃ call ∈ calls attributes names xattr_val, call.1 = name := by
  induction names generalizing xattr_val with
  | nil => cases h
  | cons n names ih =>
    rcases List.mem_cons.mp h with rfl | h
    · exact ⟨_, List.mem_cons_self, rfl⟩
    · obtain ⟨call, hc, hname⟩ := ih (value_buffer attributes n xattr_val) h
      exact ⟨call, List.mem_cons_of_mem _ hc, hname⟩

end Calls

/-! ## One file -/

/-- Names without a null that fit into the buffer, and the value that the application writes. -/
structure Fits (attributes : Option (List Attribute)) : Prop where
  names : ∀ as, attributes = some as → ∀ a ∈ as, a.name ≠ [] ∧ 0 ∉ a.name
  room : ∀ as, attributes = some as →
    (as.flatMap fun a => a.name ++ [0]).length ≤ XATTR_NAME_BUFF_SIZE
  written : ∀ as, attributes = some as → ∀ a ∈ as, a.name = encrypted_name → a.value = [1]

/-- The call for the own value of `user.is_encrypted`: the first of its name. -/
def own (call : Text × Text) : Bool := call.1 = encrypted_name

/-- The value buffer has a text behind its first byte when the own value is read. -/
def Misread (attributes : Option (List Attribute)) (b : Buffers) : Prop :=
  ∃ call, (calls_of attributes b).find? own = some call ∧
    is_encrypted attributes = true ∧ c_string 0 (call.2.drop 1) ≠ []

/-- The other names in the buffer that spell the key with what is read for them. -/
def others (attributes : Option (List Attribute)) (b : Buffers) : ℕ :=
  ((calls_of attributes b).eraseP own).countP (Spells attributes)

/-- No other name spells the key and the own value is read as it is, or, by accident, the own
value is misread and one other name spells the key. -/
def Undisturbed (attributes : Option (List Attribute)) (b : Buffers) : Prop :=
  others attributes b = 0 ∧ ¬ Misread attributes b ∨ others attributes b = 1 ∧ Misread attributes b

section File

variable {attributes : Option (List Attribute)} {b : Buffers}

theorem mem_of_find {name : Text} {a : Attribute}
    (h : (attributes.bind fun as => as.find? fun a => a.name = name) = some a) :
    ∃ as, attributes = some as ∧ a ∈ as ∧ a.name = name := by
  obtain ⟨as, has, hfind⟩ := Option.bind_eq_some_iff.mp h
  have hname := List.find?_some hfind
  exact ⟨as, has, List.mem_of_find?_eq_some hfind, of_decide_eq_true hname⟩

theorem own_iff {call : Text × Text} : own call = true ↔ call.1 = encrypted_name :=
  decide_eq_true_iff

/-- A file has the attribute that the application writes, or it has none of the name. -/
theorem own_cases (hfit : Fits attributes) :
    (∃ as, attributes = some as ∧ encrypted_name ∈ as.map Attribute.name) ∧
        is_encrypted attributes = true ∧
        getxattr attributes encrypted_name (XATTR_VAL_BUFF_SIZE - 1) = some [1] ∨
      is_encrypted attributes = false ∧
        getxattr attributes encrypted_name (XATTR_VAL_BUFF_SIZE - 1) = none := by
  unfold is_encrypted getxattr
  rcases hfind : attributes.bind fun as => as.find? fun a => a.name = encrypted_name with _ | a
  · rw [hfind]
    exact .inr ⟨rfl, rfl⟩
  · obtain ⟨as, has, hmem, hname⟩ := mem_of_find hfind
    have hvalue := hfit.written as has a hmem hname
    refine .inl ⟨⟨as, has, hname ▸ List.mem_map_of_mem hmem⟩, ?_⟩
    rw [hfind, Option.map_some, hvalue]
    exact ⟨rfl, rfl⟩

theorem value_text_of_none {name v : Text}
    (h : getxattr attributes name (XATTR_VAL_BUFF_SIZE - 1) = none) :
    value_text attributes name v = [] := by
  unfold value_text
  rw [h]
  rfl

/-- The text of the own value goes on behind its byte. -/
theorem value_text_own {v : Text}
    (h : getxattr attributes encrypted_name (XATTR_VAL_BUFF_SIZE - 1) = some [1]) :
    value_text attributes encrypted_name v = 1 :: c_string 0 (v.drop 1) := by
  unfold value_text value_buffer
  rw [h]
  show c_string 0 (overwrite v 0 [1]) = _
  rw [overwrite, List.take_zero, List.nil_append, List.singleton_append, c_string_cons,
    if_neg (by decide), List.length_singleton]

theorem find_own (hfit : Fits attributes)
    (h : ∃ as, attributes = some as ∧ encrypted_name ∈ as.map Attribute.name) :
    ∃ call, (calls_of attributes b).find? own = some call := by
  obtain ⟨as, has, hmem⟩ := h
  have hlist : listxattr attributes XATTR_NAME_BUFF_SIZE =
      some ((as.map Attribute.name).flatMap fun s => s ++ [0]) := by
    rw [List.flatMap_map]
    unfold listxattr
    rw [has, Option.map_some, Option.filter_some, if_pos (decide_eq_true (hfit.room as has))]
  have hnames : ∀ s ∈ as.map Attribute.name, s ≠ [] ∧ 0 ∉ s := by
    intro s hs
    obtain ⟨a, ha, rfl⟩ := List.mem_map.mp hs
    exact hfit.names as has a ha
  unfold calls_of
  rw [hlist]
  simp only
  obtain ⟨call, hcall, hname⟩ := mem_calls attributes b.xattr_val (List.mem_append_left (c_strings 0 (b.xattr_name.drop
      (0 + ((as.map Attribute.name).flatMap fun s => s ++ [0]).length))) hmem)
  rw [overwrite, List.take_zero, List.nil_append, c_strings_flatMap hnames]
  apply Option.isSome_iff_exists.mp
  rw [List.find?_isSome]
  exact ⟨call, hcall, decide_eq_true hname⟩

/-- The call for the own value counts apart from the others. -/
theorem count_calls {call : Text × Text} (h : (calls_of attributes b).find? own = some call) :
    (calls_of attributes b).countP (Spells attributes) =
      others attributes b + if Spells attributes call = true then 1 else 0 := by
  obtain ⟨hown, l₁, l₂, heq, hbefore⟩ := List.find?_eq_some_iff_append.mp h
  have herase : (calls_of attributes b).eraseP own = l₁ ++ l₂ := by
    rw [heq, List.eraseP_append_right _ (by simpa using hbefore), List.eraseP_cons_of_pos hown]
  unfold others
  rw [herase, heq, List.countP_append, List.countP_append, List.countP_cons]
  omega

theorem count_calls_none (h : (calls_of attributes b).find? own = none) :
    (calls_of attributes b).countP (Spells attributes) = others attributes b := by
  unfold others
  rw [List.eraseP_of_forall_not (by simpa using List.find?_eq_none.mp h)]

theorem replicate_eq_iff {k : ℕ} {c : Prop} [Decidable c] :
    (List.replicate k (text " 🔑 ")).flatten = (if c then text " 🔑 " else []) ↔
      k = if c then 1 else 0 := by
  have hlen : (text " 🔑 ").length = 6 := by decide
  constructor
  · intro heq
    have hlens := congrArg List.length heq
    rw [List.length_flatten, List.map_replicate, List.sum_replicate_nat, hlen] at hlens
    split at hlens
    · next hc =>
      rw [if_pos hc]
      omega
    · next hc =>
      rw [if_neg hc]
      rw [List.length_nil] at hlens
      omega
  · rintro rfl
    split
    · simp
    · rfl

/-- The symbol is shown for the encrypted files alone exactly when the buffers do not disturb. -/
theorem symbols_right_iff (hfit : Fits attributes)
    (hsize : b.xattr_name.length = XATTR_NAME_BUFF_SIZE) :
    (symbols attributes b).1 = (if is_encrypted attributes = true then text " 🔑 " else []) ↔
      Undisturbed attributes b := by
  rw [symbols_eq hsize, replicate_eq_iff]
  unfold Undisturbed
  rcases own_cases hfit with ⟨hhas, henc, hvalue⟩ | ⟨henc, hvalue⟩
  · obtain ⟨call, hcall⟩ := find_own (b := b) hfit hhas
    have hname := own_iff.mp (List.find?_some hcall)
    have hmis : Misread attributes b ↔ ¬ Spells attributes call = true := by
      rw [spells_iff, hname, value_text_own hvalue]
      constructor
      · rintro ⟨call', hcall', -, htext⟩ heq
        rw [hcall] at hcall'
        cases hcall'
        exact htext (by simpa using heq)
      · intro hne
        refine ⟨call, hcall, henc, fun htext => hne (by rw [htext])⟩
    rw [count_calls hcall, if_pos henc, hmis]
    by_cases hs : Spells attributes call = true
    · simp [hs]
    · simp [hs]
  · have hmis : ¬ Misread attributes b := by
      rintro ⟨_, _, htrue, _⟩
      rw [henc] at htrue
      cases htrue
    have hcount : (calls_of attributes b).countP (Spells attributes) = others attributes b := by
      rcases hcall : (calls_of attributes b).find? own with _ | call
      · exact count_calls_none hcall
      · have hname := own_iff.mp (List.find?_some hcall)
        have hno : ¬ Spells attributes call = true := by
          rw [spells_iff, hname, value_text_of_none hvalue]
          decide
        rw [count_calls hcall, if_neg hno, Nat.add_zero]
    rw [hcount, henc, if_neg (by decide)]
    simp only [hmis, not_false_eq_true, and_true, and_false, or_false]

end File

/-! ## All files -/

mutual

/-- The listing, with the symbol for the encrypted files. -/
def Node.shown (node : Node) (dir : Text) (depth : ℕ) : List Listed :=
  let path := entry_path dir node.d_name
  let name := pre depth ++ node.d_name
  if is_dot node.d_name then []
  else match node with
    | .broken _ => [⟨path, name, false⟩]
    | .file _ attributes =>
      [⟨path, name ++ if is_encrypted attributes = true then text " 🔑 " else [], false⟩]
    | .unreadable _ => [⟨path, name, true⟩, error_entry path]
    | .directory _ content => ⟨path, name, true⟩ :: shown_all content path (depth + 1)

def shown_all : List Node → Text → ℕ → List Listed
  | [], _, _ => []
  | node :: nodes, dir, depth => node.shown dir depth ++ shown_all nodes dir depth

end

def shown (dir : Text) (content : List Node) : List Listed :=
  ⟨dir, dir, true⟩ :: shown_all content dir 0

/-- The buffers that a node leaves behind. -/
def Node.leaves (node : Node) (b : Buffers) : Buffers :=
  if is_dot node.d_name then b
  else match node with
    | .file _ attributes => (symbols attributes b).2
    | _ => b

mutual

/-- The attributes of the files, in all directories. -/
def Node.attributes : Node → List (Option (List Attribute))
  | .file _ attributes => [attributes]
  | .directory _ content => attributes_all content
  | _ => []

def attributes_all : List Node → List (Option (List Attribute))
  | [] => []
  | node :: nodes => node.attributes ++ attributes_all nodes

end

mutual

/-- No file is disturbed by the buffers that it finds. -/
def Node.Clean (node : Node) (b : Buffers) : Prop :=
  is_dot node.d_name = false → match node with
    | .file _ attributes => Undisturbed attributes b
    | .directory _ content => CleanAll content .cleared
    | _ => True

def CleanAll : List Node → Buffers → Prop
  | [], _ => True
  | node :: nodes, b => node.Clean b ∧ CleanAll nodes (node.leaves b)

end

theorem listed_leaves (node : Node) (dir : Text) (depth : ℕ) (b : Buffers) :
    (node.listed dir depth b).2 = node.leaves b := by
  unfold Node.listed Node.leaves
  split
  · rfl
  · cases node <;> rfl

theorem size_leaves {node : Node} {b : Buffers}
    (hsize : b.xattr_name.length = XATTR_NAME_BUFF_SIZE) :
    (node.leaves b).xattr_name.length = XATTR_NAME_BUFF_SIZE := by
  unfold Node.leaves
  split
  · exact hsize
  · cases node with
    | file d_name attributes => exact size_symbols hsize
    | _ => exact hsize

mutual

theorem length_shown (node : Node) (dir : Text) (depth : ℕ) :
    (node.shown dir depth).length = (node.preorder dir depth).length := by
  unfold Node.shown Node.preorder
  by_cases hdot : is_dot node.d_name = true
  · simp only [if_pos hdot]
  · simp only [if_neg hdot]
    cases node with
    | directory d_name content =>
      exact congrArg (· + 1) (length_shown_all content _ (depth + 1))
    | _ => rfl

theorem length_shown_all (nodes : List Node) (dir : Text) (depth : ℕ) :
    (shown_all nodes dir depth).length = (preorder_all nodes dir depth).length := by
  cases nodes with
  | nil =>
    unfold shown_all preorder_all
    rfl
  | cons node nodes =>
    unfold shown_all preorder_all
    rw [List.length_append, List.length_append, length_shown node, length_shown_all nodes]

end

theorem length_listed (node : Node) (dir : Text) (depth : ℕ) (b : Buffers) :
    (node.listed dir depth b).1.length = (node.shown dir depth).length := by
  rw [length_shown, (forall₂_listed node dir depth b).length_eq]

theorem size_cleared : Buffers.cleared.xattr_name.length = XATTR_NAME_BUFF_SIZE :=
  List.length_replicate

mutual

theorem listed_eq_shown_iff (node : Node) (dir : Text) (depth : ℕ) (b : Buffers)
    (hfits : ∀ as ∈ node.attributes, Fits as)
    (hsize : b.xattr_name.length = XATTR_NAME_BUFF_SIZE) :
    (node.listed dir depth b).1 = node.shown dir depth ↔ node.Clean b := by
  unfold Node.listed Node.shown Node.Clean
  by_cases hdot : is_dot node.d_name = true
  · simp [hdot]
  · rw [Bool.not_eq_true] at hdot
    simp only [hdot, Bool.false_eq_true, if_false, forall_const]
    cases node with
    | file d_name attributes =>
      have hfile := symbols_right_iff (hfits attributes (List.mem_singleton_self _)) hsize
      refine Iff.trans ?_ hfile
      simp only [Node.d_name, List.cons.injEq, Listed.mk.injEq, true_and, and_true,
        List.append_cancel_left_eq]
    | directory d_name content =>
      have hcontent := listed_all_eq_shown_iff content (entry_path dir d_name) (depth + 1)
        .cleared hfits size_cleared
      refine Iff.trans ?_ hcontent
      exact ⟨fun heq => (List.cons.inj heq).2, fun heq => congrArg (_ :: ·) heq⟩
    | _ => exact iff_of_true rfl trivial

theorem listed_all_eq_shown_iff (nodes : List Node) (dir : Text) (depth : ℕ) (b : Buffers)
    (hfits : ∀ as ∈ attributes_all nodes, Fits as)
    (hsize : b.xattr_name.length = XATTR_NAME_BUFF_SIZE) :
    listed_all nodes dir depth b = shown_all nodes dir depth ↔ CleanAll nodes b := by
  cases nodes with
  | nil =>
    unfold listed_all shown_all CleanAll
    exact iff_of_true rfl trivial
  | cons node nodes =>
    unfold attributes_all at hfits
    rw [List.forall_mem_append] at hfits
    unfold listed_all shown_all CleanAll
    have hnode := listed_eq_shown_iff node dir depth b hfits.1 hsize
    have hrest := listed_all_eq_shown_iff nodes dir depth (node.leaves b) hfits.2
      (size_leaves hsize)
    rw [listed_leaves, ← hnode, ← hrest]
    constructor
    · intro heq
      exact List.append_inj heq (length_listed node dir depth b)
    · rintro ⟨hfirst, hothers⟩
      rw [hfirst, hothers]

end

/-- For every limit, the entries are the first of the listing with the symbol for the encrypted
files alone, exactly when no file is disturbed by what the files before it left behind. -/
theorem symbols_are_right_iff (dir : Text) (content : List Node)
    (hfits : ∀ as ∈ attributes_all content, Fits as) :
    (∀ max_entries, (directory_entries max_entries dir (some content)).2 <+: shown dir content) ↔
      CleanAll content .cleared := by
  rw [← listed_all_eq_shown_iff content dir 0 .cleared hfits size_cleared]
  constructor
  · intro hall
    have hlast := hall (listed dir content).length
    rw [directory_entries_some, List.take_of_length_le (Nat.le_succ _)] at hlast
    have hlen : (listed dir content).length = (shown dir content).length := by
      rw [← (forall₂_listed_root dir content).length_eq]
      exact congrArg (· + 1) (length_shown_all content dir 0).symm
    exact (List.cons.inj (hlast.eq_of_length hlen)).2
  · intro heq max_entries
    rw [directory_entries_some]
    have hsame : listed dir content = shown dir content := congrArg (_ :: ·) heq
    rw [hsame]
    exact List.take_prefix ..

/-! ## Two files -/

def plain_file : Node := .file (text "a") (some [⟨text "user.x", text "ab"⟩])

def encrypted_file : Node := .file (text "b") (some [⟨encrypted_name, [1]⟩])

theorem fits_some {as : List Attribute} (hnames : ∀ a ∈ as, a.name ≠ [] ∧ 0 ∉ a.name)
    (hroom : (as.flatMap fun a => a.name ++ [0]).length ≤ XATTR_NAME_BUFF_SIZE)
    (hwritten : ∀ a ∈ as, a.name = encrypted_name → a.value = [1]) : Fits (some as) := by
  constructor
  · rintro _ ⟨⟩
    exact hnames
  · rintro _ ⟨⟩
    exact hroom
  · rintro _ ⟨⟩
    exact hwritten

theorem fits_two_files : Fits (some [⟨encrypted_name, [1]⟩]) ∧
    Fits (some [⟨text "user.x", text "ab"⟩]) :=
  ⟨fits_some (by decide) (by decide) (by decide), fits_some (by decide) (by decide) (by decide)⟩

theorem encrypted_file_first :
    (∀ max_entries, (directory_entries max_entries (text "/d")
        (some [encrypted_file, plain_file])).2 <+:
      shown (text "/d") [encrypted_file, plain_file]) ↔
      CleanAll [encrypted_file, plain_file] .cleared :=
  symbols_are_right_iff _ _ (List.forall_mem_cons.mpr
    ⟨fits_two_files.1, List.forall_mem_singleton.mpr fits_two_files.2⟩)

/-- The value of the file before it is left in the buffer: the encrypted file has no symbol. -/
theorem the_symbol_is_missing :
    (∀ as ∈ attributes_all [plain_file, encrypted_file], Fits as) ∧
      is_encrypted (some [⟨encrypted_name, [1]⟩]) = true ∧
      (directory_entries 10 (text "/d") (some [plain_file, encrypted_file])).2.map Listed.name =
        [text "/d", text "  ╟─ a", text "  ╟─ b"] ∧
      (directory_entries 10 (text "/d") (some [encrypted_file, plain_file])).2.map Listed.name =
        [text "/d", text "  ╟─ b 🔑 ", text "  ╟─ a"] ∧
      ¬ ∀ max_entries, (directory_entries max_entries (text "/d")
          (some [plain_file, encrypted_file])).2 <+:
        shown (text "/d") [plain_file, encrypted_file] := by
  refine ⟨?_, by decide, by decide, by decide, ?_⟩
  · exact List.forall_mem_cons.mpr
      ⟨fits_two_files.2, List.forall_mem_singleton.mpr fits_two_files.1⟩
  · intro hall
    exact absurd (hall 10) (by decide)

end directory_navigator
