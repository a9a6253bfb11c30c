-- `_get_dir_entries`: the recursion over a directory tree that appends to one list
-- of entries, and the symbols that it reads from the extended attributes.
import AesMusicPlayer.CStrings
import AesMusicPlayer.Navigator
import AesMusicPlayer.RandomAccess

open nul_terminated random_access

namespace directory_navigator

/-! ## Files -/

/-- An extended attribute. -/
structure Attribute where
  name : Text
  value : Text
  deriving DecidableEq

/-- What `readdir`, `stat`, `opendir` and the attribute calls find. `stat` fails for a broken
entry, `opendir` for an unreadable one, `listxattr` for a file with no attributes to list. -/
inductive Node
  | broken (d_name : Text)
  | file (d_name : Text) (attributes : Option (List Attribute))
  | unreadable (d_name : Text)
  | directory (d_name : Text) (content : List Node)

def Node.d_name : Node → Text
  | .broken d_name => d_name
  | .file d_name _ => d_name
  | .unreadable d_name => d_name
  | .directory d_name _ => d_name

/-- The names, each with its null, when there is room for them. -/
def listxattr (attributes : Option (List Attribute)) (size : ℕ) : Option Text :=
  (attributes.map fun as => as.flatMap fun a => a.name ++ [0]).filter fun list =>
    list.length ≤ size

/-- The value of the attribute, when there is one and room for it. -/
def getxattr (attributes : Option (List Attribute)) (name : Text) (size : ℕ) : Option Text :=
  ((attributes.bind fun as => as.find? fun a => a.name = name).map Attribute.value).filter
    fun value => value.length ≤ size

def encrypted_name : Text := text "user.is_encrypted"

/-- The function of `util.cpp`. -/
def is_encrypted (attributes : Option (List Attribute)) : Bool :=
  match getxattr attributes encrypted_name 1 with
  | some (xattr_val :: _) => xattr_val ≠ 0
  | _ => false

/-! ## The symbols of a file -/

def XATTR_NAME_BUFF_SIZE : ℕ := 256

def XATTR_VAL_BUFF_SIZE : ℕ := 256

def xattr_symbol_map : List (Text × Text) := [(encrypted_name ++ [1], text "🔑")]

/-- What is appended for a name with a value. -/
def symbol (key : Text) : Text :=
  ((xattr_symbol_map.lookup key).map fun s => text " " ++ s ++ text " ").getD []

/-- The value buffer after a call. -/
def value_buffer (attributes : Option (List Attribute)) (name xattr_val : Text) : Text :=
  ((getxattr attributes name (XATTR_VAL_BUFF_SIZE - 1)).map (overwrite xattr_val 0)).getD xattr_val

/-- `xattr_val_s` -/
def value_text (attributes : Option (List Attribute)) (name xattr_val : Text) : Text :=
  if (getxattr attributes name (XATTR_VAL_BUFF_SIZE - 1)).isSome then
    c_string 0 (value_buffer attributes name xattr_val)
  else []

/-- The loop over the names from `pos` on, with the value buffer and what is appended. Each turn
moves `pos`, so that as many turns as the buffer has bytes are enough. -/
def read_names (attributes : Option (List Attribute)) (xattr_name : Text) :
    ℕ → ℕ → Text → Text → Text × Text
  | 0, _, xattr_val, post => (xattr_val, post)
  | fuel + 1, pos, xattr_val, post =>
    let xattr_name_s := c_string 0 (xattr_name.drop pos)
    let len := xattr_name_s.length
    let pos := pos + len + 1
    if len > 0 then
      let post := post ++ symbol (xattr_name_s ++ value_text attributes xattr_name_s xattr_val)
      let xattr_val := value_buffer attributes xattr_name_s xattr_val
      if pos < XATTR_NAME_BUFF_SIZE then read_names attributes xattr_name fuel pos xattr_val post
      else (xattr_val, post)
    else (xattr_val, post)

/-- The buffers of one call, which all its files share. -/
structure Buffers where
  xattr_name : Text
  xattr_val : Text

def Buffers.cleared : Buffers :=
  ⟨List.replicate XATTR_NAME_BUFF_SIZE 0, List.replicate XATTR_VAL_BUFF_SIZE 0⟩

/-- What is appended to the name of a file. -/
def symbols (attributes : Option (List Attribute)) (b : Buffers) : Text × Buffers :=
  match listxattr attributes XATTR_NAME_BUFF_SIZE with
  | some list =>
    let xattr_name := overwrite b.xattr_name 0 list
    let r := read_names attributes xattr_name XATTR_NAME_BUFF_SIZE 0 b.xattr_val []
    (r.2, ⟨xattr_name, r.1⟩)
  | none => ([], b)

/-! ## The recursion -/

/-- The text before a name, by its depth. -/
def pre (depth : ℕ) : Text := (List.replicate depth (text "  ║")).flatten ++ text "  ╟─ "

def entry_path (dir d_name : Text) : Text := dir ++ text "/" ++ d_name

def error_entry (dir : Text) : Listed :=
  ⟨dir, text "[ Error opening directory " ++ dir ++ text " ]", true⟩

/-- The entries so far, and the buffers of the call. -/
structure Loop where
  entries : List Listed
  buffers : Buffers

/-- A call up to its loop, which runs when the directory opens. -/
def enter (max_entries : ℕ) (dir : Text) (depth : ℕ) (loop : Option (Loop → Loop))
    (entries : List Listed) : Bool × List Listed :=
  if entries.length > max_entries then (true, entries)
  else
    let entries := if depth = 0 then entries ++ [⟨dir, dir, true⟩] else entries
    match loop with
    | none => (false, entries ++ [error_entry dir])
    | some loop => (true, (loop ⟨entries, .cleared⟩).entries)

/-- The names that are left out. -/
def is_dot (d_name : Text) : Bool := d_name = text "." || d_name = text ".."

mutual

/-- The body of the loop, behind its first test. -/
def read_entry (max_entries : ℕ) (node : Node) (dir : Text) (depth : ℕ) (s : Loop) : Loop :=
  let path := entry_path dir node.d_name
  let add (name : Text) (is_directory : Bool) := s.entries ++ [⟨path, name, is_directory⟩]
  if is_dot node.d_name then s
  else match node with
    | .broken d_name => { s with entries := add (pre depth ++ d_name) false }
    | .file d_name attributes =>
      let r := symbols attributes s.buffers
      ⟨add (pre depth ++ d_name ++ r.1) false, r.2⟩
    | .unreadable d_name =>
      { s with entries := (enter max_entries path (depth + 1) none
          (add (pre depth ++ d_name) true)).2 }
    | .directory d_name content =>
      { s with entries := (enter max_entries path (depth + 1)
          (some fun s => read_dir max_entries content path (depth + 1) s)
          (add (pre depth ++ d_name) true)).2 }

/-- The loop over what `readdir` gives. -/
def read_dir (max_entries : ℕ) : List Node → Text → ℕ → Loop → Loop
  | [], _, _, s => s
  | node :: nodes, dir, depth, s =>
    if s.entries.length > max_entries then s
    else read_dir max_entries nodes dir depth (read_entry max_entries node dir depth s)

end

/-- The whole call. `content` is none when `opendir` fails. -/
def get_dir_entries (max_entries : ℕ) (dir : Text) (content : Option (List Node)) (depth : ℕ)
    (entries : List Listed) : Bool × List Listed :=
  enter max_entries dir depth
    (content.map fun nodes s => read_dir max_entries nodes dir depth s) entries

/-- The list that `open_directory` fills, and what it returns. -/
def directory_entries (max_entries : ℕ) (dir : Text) (content : Option (List Node)) :
    Bool × List Listed :=
  get_dir_entries max_entries dir content 0 []

end directory_navigator
