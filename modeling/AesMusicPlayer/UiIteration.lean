-- One iteration of `ui_thread::run`: the entries are printed, the selected one is
-- taken by reference, and after `select` come the message of the player, the
-- results of the workers and the key.
import AesMusicPlayer.KeyPresses
import AesMusicPlayer.PlayerMessages

open directory_navigator key_presses

namespace directory_navigator

/-! ## The screen -/

/-- The last place of a text in another. -/
def rfind (s t : Text) : Option ℕ :=
  (List.range (s.length + 1)).reverse.find? fun pos => t.isPrefixOf (s.drop pos)

def bracketed (s : Text) : Text := if s = [] then [] else text " [" ++ s ++ text "]"

/-- A line of the screen, and whether it is highlighted. -/
structure Line where
  content : Text
  highlighted : Bool
  deriving DecidableEq

namespace Navigator

variable {T : Type*}

/-- The line of the entry at `i`. -/
def line (tag_to_str : Option (T → Text)) (nav : Navigator T) (i : ℕ) (e : DirEntry T) : Line :=
  let str_tag := tag_to_str.elim [] fun to_str => to_str e.tag
  let after := bracketed e.suffix ++ bracketed str_tag
  match rfind e.name (text "─") with
  | some pos =>
    if nav.current_entry_ind > 0 then
      let current : Bool := (i : Int) = nav.current_entry_ind
      ⟨e.name.take pos ++ (if current then text "\x1b[1;31m" else []) ++ e.name.drop pos ++ after ++
        (if current then text "\x1b[0m" else []), current⟩
    else ⟨text "  " ++ e.name ++ after, false⟩
  | none => ⟨text "  " ++ e.name ++ after, false⟩

def max_height (nav : Navigator T) : ℕ := min nav.entries.length nav.scroll_height

def offset (nav : Navigator T) : ℕ := (nav.current_entry_ind - nav.max_height).toNat

/-- `operator<<`: the lines of the entries from `offset` on. -/
def printed (tag_to_str : Option (T → Text)) (nav : Navigator T) : List (ℕ × Line) :=
  let stop := min (nav.max_height + nav.offset + 1) nav.entries.length
  (List.range' nav.offset (stop - nav.offset)).filterMap fun i =>
    nav.entries[i]?.map fun e => (i, nav.line tag_to_str i e)

/-- The places of the lines that are highlighted. -/
def highlighted (tag_to_str : Option (T → Text)) (nav : Navigator T) : List ℕ :=
  ((nav.printed tag_to_str).filter fun l => l.2.highlighted).map Prod.fst

/-- The current entry is not the first, and its name has a branch. -/
def IsShown (nav : Navigator T) : Prop :=
  0 < nav.current_entry_ind ∧ ∃ e, nav.entry_at nav.current_entry_ind = some e ∧
    text "─" <:+: e.name

end Navigator

theorem rfind_isSome {s t : Text} : (rfind s t).isSome = true ↔ t <:+: s := by
  unfold rfind
  rw [List.find?_isSome]
  constructor
  · rintro ⟨pos, _, hpre⟩
    rw [List.isPrefixOf_iff_prefix] at hpre
    exact hpre.isInfix.trans (List.drop_suffix pos s).isInfix
  · intro hinfix
    obtain ⟨u, hpre, hsuf⟩ := List.infix_iff_prefix_suffix.mp hinfix
    refine ⟨s.length - u.length, ?_, ?_⟩
    · rw [List.mem_reverse, List.mem_range]
      omega
    · rw [List.isPrefixOf_iff_prefix, ← List.suffix_iff_eq_drop.mp hsuf]
      exact hpre

namespace Navigator

variable {T : Type*} {tag_to_str : Option (T → Text)} {nav : Navigator T}

theorem highlighted_line {i : ℕ} {e : DirEntry T} :
    (nav.line tag_to_str i e).highlighted = true ↔
      text "─" <:+: e.name ∧ 0 < nav.current_entry_ind ∧ (i : Int) = nav.current_entry_ind := by
  rw [← rfind_isSome]
  unfold line
  rcases rfind e.name (text "─") with _ | pos
  · simp
  · by_cases hpos : nav.current_entry_ind > 0
    · simp [hpos]
    · simp [hpos]

/-- The window reaches from above the current entry to it. -/
theorem current_in_window {i : ℕ} (hi : i < nav.entries.length)
    (hind : (i : Int) = nav.current_entry_ind) :
    nav.offset ≤ i ∧ i < min (nav.max_height + nav.offset + 1) nav.entries.length := by
  unfold offset
  omega

theorem mem_printed {i : ℕ} {l : Line} :
    (i, l) ∈ nav.printed tag_to_str ↔
      (nav.offset ≤ i ∧ i < min (nav.max_height + nav.offset + 1) nav.entries.length) ∧
        ∃ e, nav.entries[i]? = some e ∧ nav.line tag_to_str i e = l := by
  unfold printed
  rw [List.mem_filterMap]
  constructor
  · rintro ⟨k, hk, hline⟩
    obtain ⟨e, he, heq⟩ := Option.map_eq_some_iff.mp hline
    obtain ⟨rfl, hl⟩ := Prod.mk.inj heq
    rw [List.mem_range'_1] at hk
    exact ⟨by omega, e, he, hl⟩
  · rintro ⟨hwindow, e, he, hl⟩
    refine ⟨i, ?_, ?_⟩
    · rw [List.mem_range'_1]
      omega
    · rw [he, Option.map_some, hl]

/-- The current entry is highlighted when it is shown, and no other ever is. -/
theorem mem_highlighted {i : ℕ} :
    i ∈ nav.highlighted tag_to_str ↔ nav.IsShown ∧ (i : Int) = nav.current_entry_ind := by
  unfold highlighted
  rw [List.mem_map]
  constructor
  · rintro ⟨⟨j, l⟩, hmem, rfl⟩
    obtain ⟨hprinted, hlight⟩ := List.mem_filter.mp hmem
    obtain ⟨_, e, he, rfl⟩ := mem_printed.mp hprinted
    obtain ⟨hbranch, hpos, hind⟩ := highlighted_line.mp hlight
    refine ⟨⟨hpos, e, ?_, hbranch⟩, hind⟩
    rw [← hind, entry_at_nat]
    exact he
  · rintro ⟨⟨hpos, e, he, hbranch⟩, hind⟩
    rw [← hind, entry_at_nat] at he
    have hi := (List.getElem?_eq_some_iff.mp he).1
    refine ⟨(i, nav.line tag_to_str i e), ?_, rfl⟩
    rw [List.mem_filter]
    exact ⟨mem_printed.mpr ⟨current_in_window hi hind, e, he, rfl⟩,
      highlighted_line.mpr ⟨hbranch, hpos, hind⟩⟩

end Navigator

end directory_navigator

namespace ui_iteration

/-! ## The state -/

/-- `_file_status_string` -/
def file_status_string : FileStatus → Text
  | .PREPARING => text "preparing to play..."
  | .PLAYING => text "♪ playing ♪"
  | .STOPPED => []

/-- The navigator, and how often `open_directory` has replaced its list. -/
structure Ui where
  navigator : Navigator FileStatus
  generation : ℕ

/-- `std::reference_wrapper<const entry>`: a place in the list of a generation. -/
structure Reference where
  generation : ℕ
  index : Int
  deriving DecidableEq

/-- What a worker has sent, and what its handling meets: the status or the text of the exception,
whether `setxattr` succeeds, the text of the exception of `_start_playing`, and the directory. -/
structure Finished where
  operation : aes.Operation
  input_path : Text
  status : Except Text aes.OperationResult
  setxattr : Bool
  start_playing : Option Text
  memory : ℕ → FileStatus
  listing : List Listed

/-- The descriptors that one `select` finds ready. -/
structure Ready where
  exit : Bool
  player : Option player_thread.Message
  finished : List Finished
  stdin : Option (ℕ × StdinBuff)

namespace Ui

def update (change : Navigator FileStatus → Navigator FileStatus) (ui : Ui) : Ui :=
  { ui with navigator := change ui.navigator }

def set_entry_suffix (path suffix : Text) : Ui → Ui :=
  update fun nav => (nav.set_entry_suffix path suffix).2

def set_entry_tag (path : Text) (tag : FileStatus) : Ui → Ui :=
  update fun nav => (nav.set_entry_tag path tag).2

def open_directory (memory : ℕ → FileStatus) (listing : List Listed) (ui : Ui) : Ui :=
  ⟨ui.navigator.open_directory memory listing, ui.generation + 1⟩

/-- `directory_navigator.get_current_entry()` -/
def selected (ui : Ui) : Option Reference :=
  ui.navigator.get_current_entry.map fun index => ⟨ui.generation, index⟩

/-- The message of the player. -/
def player_message (ui : Ui) : Option player_thread.Message → Ui
  | some (.PLAY .SUCCESS) => ui.update (·.change_tags .PREPARING .PLAYING)
  | some (.PLAY .FAILURE) => ui.update (·.change_tags .PREPARING .STOPPED)
  | some .STOP => ui.update (·.change_tags .PLAYING .STOPPED)
  | none => ui

/-- The result of a worker. -/
def result (ui : Ui) (r : Finished) : Ui :=
  match r.status with
  | .ok .SUCCESS =>
    match r.operation with
    | .ENCRYPT =>
      (ui.set_entry_suffix r.input_path
        (if r.setxattr then [] else text "Error setting encrypted attribute.")).open_directory
          r.memory r.listing
    | .ENCRYPT_INTO => ui
    | .DECRYPT => (ui.open_directory r.memory r.listing).set_entry_suffix r.input_path []
    | .DECRYPT_INTO =>
      match r.start_playing with
      | none => ui.set_entry_tag r.input_path .PREPARING
      | some what => (ui.set_entry_suffix r.input_path what).set_entry_tag r.input_path .STOPPED
  | .ok .FAILED =>
    (if r.operation = .DECRYPT_INTO then ui.set_entry_tag r.input_path .STOPPED
      else ui).set_entry_suffix r.input_path (text "Something went wrong.")
  | .ok .BUSY => ui
  | .error what =>
    let ui := ui.set_entry_suffix r.input_path what
    if r.operation = .DECRYPT_INTO then ui.set_entry_tag r.input_path .STOPPED else ui

/-- The state that the key finds. -/
def at_key (ui : Ui) (ready : Ready) : Ui :=
  ready.finished.foldl result (ui.player_message ready.player)

/-- The reference is to an element of the list. -/
def Refers (ui : Ui) (r : Reference) : Prop :=
  r.generation = ui.generation ∧ ∃ e, ui.navigator.entry_at r.index = some e

end Ui

/-- The commands that look at the selected entry. -/
def uses_entry : Command → Bool
  | .play_or_stop | .start_aes _ => true
  | _ => false

/-- The reference that the key press acts on. -/
def acted_on (ui : Ui) (ready : Ready) : Option Reference :=
  match ready.exit, ready.stdin, ui.selected with
  | false, some (ret, buff), some r => if (handle true ret buff).any uses_entry then some r else none
  | _, _, _ => none

/-- The entry that the key acts on is in the list, is the highlighted one, and has its path. -/
structure ActsOnShown (ui : Ui) (ready : Ready) (r : Reference) : Prop where
  element : (ui.at_key ready).Refers r
  highlighted : ∃ i ∈ ui.navigator.highlighted (some file_status_string), (i : Int) = r.index
  same : ((ui.at_key ready).navigator.entry_at r.index).map DirEntry.path =
    (ui.navigator.entry_at r.index).map DirEntry.path

/-- The result of an encryption or a decryption of a file makes the UI read the directory. -/
def Finished.Rescans (r : Finished) : Prop :=
  r.status = .ok .SUCCESS ∧ (r.operation = .ENCRYPT ∨ r.operation = .DECRYPT)

/-! ## What is handled before the key -/

/-- The same files, in a list of the same generation. -/
structure SameList (ui ui' : Ui) : Prop where
  generation : ui'.generation = ui.generation
  paths : ui'.navigator.entries.map DirEntry.path = ui.navigator.entries.map DirEntry.path

namespace SameList

variable {ui ui' ui'' : Ui}

theorem refl (ui : Ui) : SameList ui ui := ⟨rfl, rfl⟩

theorem trans (h : SameList ui ui') (h' : SameList ui' ui'') : SameList ui ui'' :=
  ⟨h'.generation.trans h.generation, h'.paths.trans h.paths⟩

theorem path_at (h : SameList ui ui') (i : Int) :
    (ui'.navigator.entry_at i).map DirEntry.path =
      (ui.navigator.entry_at i).map DirEntry.path := by
  unfold Navigator.entry_at
  split
  · rfl
  · rw [← List.getElem?_map, ← List.getElem?_map, h.paths]

end SameList

section Handling

variable {ui : Ui} {ready : Ready} {f : Finished}

theorem paths_set_first {path : Text} {change : DirEntry FileStatus → DirEntry FileStatus}
    (hchange : ∀ e, (change e).path = e.path) (es : List (DirEntry FileStatus)) :
    (set_first path change es).2.map DirEntry.path = es.map DirEntry.path := by
  induction es with
  | nil => rfl
  | cons e es ih =>
    unfold set_first
    split
    · rw [List.map_cons, hchange, List.map_cons]
    · rw [List.map_cons, ih, List.map_cons]

theorem same_set_entry_suffix (path suffix : Text) :
    SameList ui (ui.set_entry_suffix path suffix) := by
  refine ⟨rfl, paths_set_first ?_ _⟩
  intro e
  rfl

theorem same_set_entry_tag (path : Text) (tag : FileStatus) :
    SameList ui (ui.set_entry_tag path tag) := by
  refine ⟨rfl, paths_set_first ?_ _⟩
  intro e
  rfl

theorem same_change_tags (old new : FileStatus) :
    SameList ui (ui.update (·.change_tags old new)) := by
  refine ⟨rfl, ?_⟩
  unfold Ui.update Navigator.change_tags
  rw [List.map_map]
  apply List.map_congr_left
  intro e _
  simp only [Function.comp_apply]
  split <;> rfl

theorem same_player_message (m : Option player_thread.Message) :
    SameList ui (ui.player_message m) := by
  match m with
  | some (.PLAY .SUCCESS) => exact same_change_tags ..
  | some (.PLAY .FAILURE) => exact same_change_tags ..
  | some .STOP => exact same_change_tags ..
  | none => exact .refl ui

theorem same_result (h : ¬ f.Rescans) : SameList ui (ui.result f) := by
  unfold Ui.result
  rcases hstatus : f.status with what | _ | _ | _
  · simp only
    split
    · exact (same_set_entry_suffix _ _).trans (same_set_entry_tag _ _)
    · exact same_set_entry_suffix _ _
  · simp only
    cases hop : f.operation with
    | ENCRYPT => exact absurd ⟨hstatus, .inl hop⟩ h
    | DECRYPT => exact absurd ⟨hstatus, .inr hop⟩ h
    | ENCRYPT_INTO => exact .refl ui
    | DECRYPT_INTO =>
      simp only
      split
      · exact same_set_entry_tag _ _
      · exact (same_set_entry_suffix _ _).trans (same_set_entry_tag _ _)
  · simp only
    split
    · exact (same_set_entry_tag _ _).trans (same_set_entry_suffix _ _)
    · exact same_set_entry_suffix _ _
  · exact .refl ui

theorem generation_of_rescans (h : f.Rescans) :
    (ui.result f).generation = ui.generation + 1 := by
  obtain ⟨hstatus, hop | hop⟩ := h
  · unfold Ui.result
    rw [hstatus, hop]
    rfl
  · unfold Ui.result
    rw [hstatus, hop]
    rfl

theorem generation_le_result : ui.generation ≤ (ui.result f).generation := by
  by_cases h : f.Rescans
  · rw [generation_of_rescans h]
    exact Nat.le_succ _
  · exact Nat.le_of_eq (same_result h).generation.symm

theorem generation_le_results (fs : List Finished) (ui : Ui) :
    ui.generation ≤ (fs.foldl Ui.result ui).generation := by
  induction fs generalizing ui with
  | nil => exact Nat.le_refl _
  | cons f fs ih => exact generation_le_result.trans (ih (ui.result f))

theorem same_results {fs : List Finished} (h : ∀ f ∈ fs, ¬ f.Rescans) :
    SameList ui (fs.foldl Ui.result ui) := by
  induction fs generalizing ui with
  | nil => exact .refl ui
  | cons f fs ih =>
    rw [List.forall_mem_cons] at h
    exact (same_result h.1).trans (ih h.2)

/-- The list is that of the selection as long as no result makes the UI read the directory. -/
theorem generation_results_iff (fs : List Finished) (ui : Ui) :
    (fs.foldl Ui.result ui).generation = ui.generation ↔ ∀ f ∈ fs, ¬ f.Rescans := by
  refine ⟨?_, fun h => (same_results h).generation⟩
  induction fs generalizing ui with
  | nil =>
    intro _ f hf
    cases hf
  | cons f fs ih =>
    intro heq
    have hfirst : ui.generation ≤ (ui.result f).generation := generation_le_result
    have hrest := generation_le_results fs (ui.result f)
    rw [List.foldl_cons] at heq
    have hf : ¬ f.Rescans := by
      intro h
      rw [generation_of_rescans h] at hrest
      omega
    rw [List.forall_mem_cons]
    exact ⟨hf, ih (ui.result f) (heq.trans (same_result hf).generation.symm)⟩

theorem generation_at_key_iff :
    (ui.at_key ready).generation = ui.generation ↔ ∀ f ∈ ready.finished, ¬ f.Rescans := by
  rw [← generation_results_iff ready.finished (ui.player_message ready.player),
    (same_player_message ready.player).generation]
  rfl

theorem same_at_key (h : ∀ f ∈ ready.finished, ¬ f.Rescans) : SameList ui (ui.at_key ready) :=
  (same_player_message ready.player).trans (same_results h)

/-- A key acts on the current entry, taken before the results. -/
theorem acted_on_some {r : Reference} (h : acted_on ui ready = some r) :
    ui.selected = some r := by
  unfold acted_on at h
  split at h
  · next hselected =>
    split at h
    · cases h
      exact hselected
    · cases h
  · cases h

theorem selected_some {r : Reference} (h : ui.selected = some r) :
    r = ⟨ui.generation, ui.navigator.current_entry_ind⟩ := by
  obtain ⟨i, hi, rfl⟩ := Option.map_eq_some_iff.mp h
  unfold Navigator.get_current_entry at hi
  split at hi
  · cases hi
  · cases hi
    rfl

theorem acts_on_shown_iff {r : Reference} (h : acted_on ui ready = some r) :
    ActsOnShown ui ready r ↔
      (∀ f ∈ ready.finished, ¬ f.Rescans) ∧ ui.navigator.IsShown := by
  obtain rfl := selected_some (acted_on_some h)
  constructor
  · rintro ⟨⟨hgeneration, _⟩, ⟨i, hi, _⟩, _⟩
    exact ⟨generation_at_key_iff.mp hgeneration.symm, (Navigator.mem_highlighted.mp hi).1⟩
  · rintro ⟨hrescans, hshown⟩
    have hsame : SameList ui (ui.at_key ready) := same_at_key hrescans
    obtain ⟨hpos, e, he, _⟩ := id hshown
    have hpath := hsame.path_at ui.navigator.current_entry_ind
    constructor
    case element =>
      refine ⟨hsame.generation.symm, ?_⟩
      rw [he, Option.map_some] at hpath
      obtain ⟨e', he', _⟩ := Option.map_eq_some_iff.mp hpath
      exact ⟨e', he'⟩
    case highlighted =>
      refine ⟨ui.navigator.current_entry_ind.toNat, ?_, Int.toNat_of_nonneg (Int.le_of_lt hpos)⟩
      exact Navigator.mem_highlighted.mpr ⟨hshown, by omega⟩
    case same => exact hpath

end Handling

/-- A key that acts on an entry acts on the highlighted one, and in the list as it is then,
exactly when no result of the same iteration has made the UI read the directory, and the current
entry is shown. -/
theorem key_acts_on_shown_iff (ui : Ui) (ready : Ready) :
    (∀ r, acted_on ui ready = some r → ActsOnShown ui ready r) ↔
      ((acted_on ui ready).isSome = true →
        (∀ f ∈ ready.finished, ¬ f.Rescans) ∧ ui.navigator.IsShown) := by
  constructor
  · intro hall hsome
    obtain ⟨r, hr⟩ := Option.isSome_iff_exists.mp hsome
    exact (acts_on_shown_iff hr).mp (hall r hr)
  · intro hall r hr
    exact (acts_on_shown_iff hr).mpr (hall (Option.isSome_iff_exists.mpr ⟨r, hr⟩))

/-! ## A key press with a finished encryption -/

/-- The second file is selected, and the first is being encrypted. -/
def before : Ui :=
  ⟨⟨[⟨text "/d", text "/d", [], true, .STOPPED⟩,
      ⟨text "/d/a", text "  ╟─ a", text "encrypting...", false, .STOPPED⟩,
      ⟨text "/d/b", text "  ╟─ b", [], false, .STOPPED⟩], 16, 2⟩, 0⟩

/-- The worker of the first file, and a space. -/
def finished_and_space : Ready :=
  ⟨false, none, [⟨.ENCRYPT, text "/d/a", .ok .SUCCESS, true, none, fun _ => .STOPPED,
    before.navigator.entries.map fun e => ⟨e.path, e.name, e.is_directory⟩⟩],
    some (1, ⟨space, 0, 0⟩)⟩

/-- The key acts on an entry of the list that was replaced. -/
theorem space_after_a_rescan :
    acted_on before finished_and_space = some ⟨0, 2⟩ ∧
      (before.at_key finished_and_space).generation = 1 ∧
      ¬ (∀ r, acted_on before finished_and_space = some r →
        ActsOnShown before finished_and_space r) := by
  have hacted : acted_on before finished_and_space = some ⟨0, 2⟩ := by decide
  refine ⟨hacted, by decide, ?_⟩
  intro hall
  exact absurd (hall _ hacted).element.1 (by decide)

end ui_iteration
