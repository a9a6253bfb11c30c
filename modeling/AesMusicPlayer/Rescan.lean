-- What `open_directory` keeps of the entries that it replaces: their tags, their
-- suffixes, and the entry that the index designates.
import AesMusicPlayer.Navigator

namespace directory_navigator

variable {T : Type*}

/-- What the constructor was given. -/
def DirEntry.listed (e : DirEntry T) : Listed := ⟨e.path, e.name, e.is_directory⟩

namespace Navigator

/-- The entry with the path that `set_entry_suffix` and `set_entry_tag` find. -/
def lookup (path : Text) (nav : Navigator T) : Option (DirEntry T) :=
  nav.entries.find? fun e => e.path = path

def Has (nav : Navigator T) (path : Text) : Prop := ∃ e ∈ nav.entries, e.path = path

/-- What a rescan is to keep. -/
structure Kept (nav nav' : Navigator FileStatus) : Prop where
  again : ∀ path e e', nav.lookup path = some e → nav'.lookup path = some e' →
    e'.tag = e.tag ∧ e'.suffix = e.suffix
  current : ∀ e, nav.entry_at nav.current_entry_ind = some e → nav'.Has e.path →
    (nav'.entry_at nav'.current_entry_ind).map DirEntry.path = some e.path
  newly : ∀ e ∈ nav'.entries, ¬ nav.Has e.path → e.tag = .STOPPED ∧ e.suffix = []
  unchanged : nav'.entries.map DirEntry.listed = nav.entries.map DirEntry.listed → nav' = nav

end Navigator

/-- The first place of the path in a listing. -/
def place_of (path : Text) (listing : List Listed) : ℕ := listing.findIdx fun l => l.path = path

namespace Navigator

/-- The entries that are listed again have no suffix, the selected one is at its place, and the
memory of the new entries has the tags that they are to have. -/
structure Fortunate (nav : Navigator FileStatus) (memory : ℕ → FileStatus)
    (listing : List Listed) : Prop where
  again : ∀ path e, nav.lookup path = some e → path ∈ listing.map Listed.path →
    memory (place_of path listing) = e.tag ∧ e.suffix = []
  current : ∀ e, nav.entry_at nav.current_entry_ind = some e →
    e.path ∈ listing.map Listed.path →
    listing[nav.current_entry_ind.toNat]?.map Listed.path = some e.path
  newly : ∀ i l, listing[i]? = some l → ¬ nav.Has l.path → memory i = .STOPPED
  unchanged : listing = nav.entries.map DirEntry.listed →
    ∀ i e, nav.entries[i]? = some e → memory i = e.tag ∧ e.suffix = []

section Rescan

variable {nav : Navigator T} {memory : ℕ → T} {listing : List Listed} {path : Text}

theorem entries_open_directory :
    (nav.open_directory memory listing).entries = constructed memory listing := rfl

theorem getElem?_constructed (i : ℕ) :
    (constructed memory listing)[i]? = listing[i]?.map fun l => l.entry (memory i) := by
  unfold constructed
  exact List.getElem?_mapIdx

theorem mem_constructed {e : DirEntry T} :
    e ∈ constructed memory listing ↔
      ∃ (i : ℕ) (l : Listed), listing[i]? = some l ∧ l.entry (memory i) = e := by
  rw [List.mem_iff_getElem?]
  simp only [getElem?_constructed, Option.map_eq_some_iff]

theorem listed_constructed (memory : ℕ → T) (listing : List Listed) :
    (constructed memory listing).map DirEntry.listed = listing := by
  apply List.ext_getElem?
  intro i
  rw [List.getElem?_map, getElem?_constructed, Option.map_map]
  exact Option.map_id_apply

theorem paths_constructed (memory : ℕ → T) (listing : List Listed) :
    (constructed memory listing).map DirEntry.path = listing.map Listed.path := by
  conv_rhs => rw [← listed_constructed memory listing, List.map_map]
  rfl

theorem has_iff : nav.Has path ↔ path ∈ nav.entries.map DirEntry.path := List.mem_map.symm

theorem has_open_directory :
    (nav.open_directory memory listing).Has path ↔ path ∈ listing.map Listed.path := by
  rw [has_iff, entries_open_directory, paths_constructed]

/-- An entry of the new list is looked up at the first place of its path in the listing. -/
theorem lookup_open_directory :
    (nav.open_directory memory listing).lookup path =
      listing[place_of path listing]?.map fun l => l.entry (memory (place_of path listing)) := by
  have hplace : (constructed memory listing).findIdx (fun e => e.path = path) =
      place_of path listing := by
    conv_rhs => rw [place_of, ← listed_constructed memory listing, List.findIdx_map]
    rfl
  unfold lookup
  rw [entries_open_directory, List.find?_eq_getElem?_findIdx, hplace, getElem?_constructed]

theorem getElem?_place_of (h : path ∈ listing.map Listed.path) :
    ∃ l, listing[place_of path listing]? = some l := by
  obtain ⟨l, hl, rfl⟩ := List.mem_map.mp h
  have hlt : place_of l.path listing < listing.length :=
    List.findIdx_lt_length_of_exists ⟨l, hl, by simp⟩
  exact ⟨_, List.getElem?_eq_getElem hlt⟩

theorem path_at_place_of {l : Listed} (h : listing[place_of path listing]? = some l) :
    l.path = path := by
  obtain ⟨hlt, rfl⟩ := List.getElem?_eq_some_iff.mp h
  have hsat := List.findIdx_getElem (w := hlt)
  exact of_decide_eq_true hsat

theorem lookup_again_iff {e : DirEntry T} (h : path ∈ listing.map Listed.path) :
    (∀ e', (nav.open_directory memory listing).lookup path = some e' →
      e'.tag = e.tag ∧ e'.suffix = e.suffix) ↔
      memory (place_of path listing) = e.tag ∧ e.suffix = [] := by
  obtain ⟨l, hl⟩ := getElem?_place_of h
  rw [lookup_open_directory, hl, Option.map_some]
  simp only [Option.some.injEq, forall_eq', Listed.entry, eq_comm (a := [])]

theorem not_lookup_again {e' : DirEntry T} (h : path ∉ listing.map Listed.path) :
    (nav.open_directory memory listing).lookup path ≠ some e' := by
  rw [lookup_open_directory]
  intro hlook
  obtain ⟨l, hl, rfl⟩ := Option.map_eq_some_iff.mp hlook
  have hpath := path_at_place_of hl
  exact h (List.mem_map.mpr ⟨l, List.mem_of_getElem? hl, hpath⟩)

theorem path_at_index (h : 0 ≤ nav.current_entry_ind) :
    ((nav.open_directory memory listing).entry_at
      (nav.open_directory memory listing).current_entry_ind).map DirEntry.path =
      listing[nav.current_entry_ind.toNat]?.map Listed.path := by
  have hind : (nav.open_directory memory listing).current_entry_ind = nav.current_entry_ind := rfl
  rw [hind, entry_at, if_neg (Int.not_lt.mpr h), entries_open_directory, getElem?_constructed,
    Option.map_map]
  rfl

/-- The list is the old one exactly when each entry of it is made as it was. -/
theorem open_directory_eq_iff (h : listing = nav.entries.map DirEntry.listed) :
    nav.open_directory memory listing = nav ↔
      ∀ (i : ℕ) (e : DirEntry T), nav.entries[i]? = some e → memory i = e.tag ∧ e.suffix = [] := by
  have hentry : ∀ (i : ℕ) (e : DirEntry T), nav.entries[i]? = some e →
      (constructed memory listing)[i]? = some (e.listed.entry (memory i)) := by
    intro i e he
    rw [getElem?_constructed, h, List.getElem?_map, he]
    rfl
  have hsame : ∀ (i : ℕ) (e : DirEntry T),
      e.listed.entry (memory i) = e ↔ memory i = e.tag ∧ e.suffix = [] := by
    rintro i ⟨path, name, suffix, is_directory, tag⟩
    simp only [DirEntry.listed, Listed.entry, DirEntry.mk.injEq, true_and]
    exact ⟨fun ⟨hs, ht⟩ => ⟨ht, hs.symm⟩, fun ⟨ht, hs⟩ => ⟨hs.symm, ht⟩⟩
  constructor
  · intro heq i e he
    have hi := hentry i e he
    have hnew : (nav.open_directory memory listing).entries = constructed memory listing :=
      entries_open_directory
    rw [← hnew, heq, he, Option.some.injEq] at hi
    exact (hsame i e).mp hi.symm
  · intro hall
    have hentries : constructed memory listing = nav.entries := by
      apply List.ext_getElem?
      intro i
      rcases he : nav.entries[i]? with _ | e
      · rw [getElem?_constructed, h, List.getElem?_map, he]
        rfl
      · rw [hentry i e he, (hsame i e).mpr (hall i e he)]
    unfold open_directory
    rw [hentries]

end Rescan

end Navigator

/-- A rescan keeps what it is to keep exactly when no entry that is listed again has a suffix,
the memory has the tags, and the selected entry is at its place. -/
theorem rescan_keeps_iff (nav : Navigator FileStatus) (memory : ℕ → FileStatus)
    (listing : List Listed) :
    Navigator.Kept nav (nav.open_directory memory listing) ↔ nav.Fortunate memory listing := by
  constructor
  · rintro ⟨hagain, hcurrent, hnewly, hunchanged⟩
    constructor
    case again =>
      intro path e he hpath
      exact (Navigator.lookup_again_iff hpath).mp fun e' => hagain path e e' he
    case current =>
      intro e he hpath
      rw [← Navigator.path_at_index (Navigator.entry_at_some he).1]
      exact hcurrent e he (Navigator.has_open_directory.mpr hpath)
    case newly =>
      intro i l hl hno
      exact (hnewly _ (Navigator.mem_constructed.mpr ⟨i, l, hl, rfl⟩) hno).1
    case unchanged =>
      intro hsame
      apply (Navigator.open_directory_eq_iff hsame).mp
      apply hunchanged
      rw [Navigator.entries_open_directory, Navigator.listed_constructed, hsame]
  · rintro ⟨hagain, hcurrent, hnewly, hunchanged⟩
    constructor
    case again =>
      intro path e e' he he'
      by_cases hpath : path ∈ listing.map Listed.path
      · exact (Navigator.lookup_again_iff hpath).mpr (hagain path e he hpath) e' he'
      · exact absurd he' (Navigator.not_lookup_again hpath)
    case current =>
      intro e he hhas
      rw [Navigator.path_at_index (Navigator.entry_at_some he).1]
      exact hcurrent e he (Navigator.has_open_directory.mp hhas)
    case newly =>
      intro e he hno
      obtain ⟨i, l, hl, rfl⟩ := Navigator.mem_constructed.mp he
      exact ⟨hnewly i l hl hno, rfl⟩
    case unchanged =>
      rw [Navigator.entries_open_directory, Navigator.listed_constructed]
      intro hsame
      exact (Navigator.open_directory_eq_iff hsame).mpr (hunchanged hsame)

/-! ## The tags alone -/

namespace Navigator

/-- The paths and the tags of the entries. -/
def tagged (nav : Navigator FileStatus) : List (Entry Text) :=
  nav.entries.map fun e => ⟨e.path, e.tag⟩

section Tagged

variable {nav : Navigator FileStatus} {path : Text}

theorem tagged_set_entry_tag {tag : FileStatus} :
    ((nav.set_entry_tag path tag).1, (nav.set_entry_tag path tag).2.tagged) =
      directory_navigator.set_entry_tag path tag nav.tagged := by
  unfold set_entry_tag tagged
  simp only
  induction nav.entries with
  | nil => rfl
  | cons e es ih =>
    unfold set_first
    rw [List.map_cons, directory_navigator.set_entry_tag]
    by_cases he : e.path = path
    · rw [if_pos he, if_pos he]
      rfl
    · rw [if_neg he, if_neg he, ← ih]
      rfl

theorem tagged_set_entry_suffix {suffix : Text} :
    (nav.set_entry_suffix path suffix).2.tagged = nav.tagged := by
  unfold set_entry_suffix tagged
  simp only
  induction nav.entries with
  | nil => rfl
  | cons e es ih =>
    unfold set_first
    by_cases he : e.path = path
    · rw [if_pos he]
      rfl
    · rw [if_neg he, List.map_cons, ih, List.map_cons]

theorem tagged_change_tags {old new : FileStatus} :
    (nav.change_tags old new).tagged = directory_navigator.change_tags old new nav.tagged := by
  unfold change_tags tagged directory_navigator.change_tags
  rw [List.map_map, List.map_map]
  apply List.map_congr_left
  intro e _
  simp only [Function.comp_apply]
  split <;> rfl

theorem has_any_tag_tagged {tag : FileStatus} :
    directory_navigator.has_any_tag tag nav.tagged = nav.has_any_tag tag := by
  unfold has_any_tag tagged directory_navigator.has_any_tag
  rw [List.any_map]
  rfl

/-- A rescan that lists the same paths, with the memory of each place by its path. -/
theorem tagged_open_directory {memory : ℕ → FileStatus} {listing : List Listed}
    {memory' : Text → FileStatus}
    (hpaths : listing.map Listed.path = nav.entries.map DirEntry.path)
    (hmemory : ∀ (i : ℕ) (e : DirEntry FileStatus), nav.entries[i]? = some e →
      memory' e.path = memory i) :
    (nav.open_directory memory listing).tagged =
      directory_navigator.open_directory memory' nav.tagged := by
  unfold tagged directory_navigator.open_directory
  rw [List.map_map, entries_open_directory]
  apply List.ext_getElem?
  intro i
  have hpath := congrArg (fun paths => paths[i]?) hpaths
  simp only [List.getElem?_map] at hpath
  rw [List.getElem?_map, List.getElem?_map, getElem?_constructed]
  rcases he : nav.entries[i]? with _ | e
  · rw [he, Option.map_none, Option.map_eq_none_iff] at hpath
    rw [hpath]
    rfl
  · rw [he, Option.map_some, Option.map_eq_some_iff] at hpath
    obtain ⟨l, hl, hpath⟩ := hpath
    rw [hl]
    simp only [Option.map_some, Function.comp_apply, Listed.entry, hmemory i e he, hpath]

end Tagged

end Navigator

/-! ## A rescan while a file is encrypted -/

/-- The second file is selected, and the first is being encrypted. -/
def two_files : Navigator FileStatus :=
  ⟨[⟨text "/d", text "/d", [], true, .STOPPED⟩,
      ⟨text "/d/a", text "  ╟─ a", text "encrypting...", false, .STOPPED⟩,
      ⟨text "/d/b", text "  ╟─ b", [], false, .PLAYING⟩], 16, 2⟩

/-- The same files, and a new one between them. -/
def three_files : List Listed :=
  [⟨text "/d", text "/d", true⟩, ⟨text "/d/c", text "  ╟─ c", false⟩,
    ⟨text "/d/a", text "  ╟─ a", false⟩, ⟨text "/d/b", text "  ╟─ b", false⟩]

/-- Nothing has changed in the directory, and the file loses its suffix. With a new file before
them, the index is that of another file. -/
theorem the_suffix_is_lost :
    let memory := fun i => if i = 2 then FileStatus.PLAYING else .STOPPED
    let rescanned := two_files.open_directory memory (two_files.entries.map DirEntry.listed)
    let shifted := two_files.open_directory memory three_files
    (rescanned.lookup (text "/d/a")).map DirEntry.suffix = some [] ∧
      ¬ two_files.Kept rescanned ∧
      (shifted.entry_at shifted.current_entry_ind).map DirEntry.path = some (text "/d/a") ∧
      shifted.Has (text "/d/b") ∧ ¬ two_files.Kept shifted := by
  intro memory rescanned shifted
  have hindex : (shifted.entry_at shifted.current_entry_ind).map DirEntry.path =
      some (text "/d/a") := by decide
  have hlisted : shifted.Has (text "/d/b") := Navigator.has_iff.mpr (by decide)
  refine ⟨by decide, ?_, hindex, hlisted, ?_⟩
  · intro hkept
    have hagain := (hkept.again (text "/d/a") _ _ rfl rfl).2
    exact absurd hagain (by decide)
  · intro hkept
    have hcurrent := hkept.current _ rfl hlisted
    rw [hindex] at hcurrent
    exact absurd hcurrent (by decide)

end directory_navigator
