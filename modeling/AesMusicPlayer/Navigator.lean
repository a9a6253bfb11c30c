-- The class `directory_navigator`: its entries, the index of the current one,
-- and the operations. The index is a number of its own, and `open_directory`
-- replaces the entries below it.
import AesMusicPlayer.DirectoryTags
import AesMusicPlayer.Traces

open traces

namespace directory_navigator

/-- The bytes of a `std::string`. -/
abbrev Text := List (BitVec 8)

/-- The bytes of a literal, in UTF-8. -/
def text (s : String) : Text := s.toByteArray.data.toList.map UInt8.toBitVec

/-! ## The entries -/

/-- What the constructor of an entry is given. -/
structure Listed where
  path : Text
  name : Text
  is_directory : Bool
  deriving DecidableEq

structure DirEntry (T : Type*) where
  path : Text
  name : Text
  suffix : Text
  is_directory : Bool
  tag : T
  deriving DecidableEq

variable {T : Type*}

/-- The constructor of an entry. It leaves the tag as the memory has it. -/
def Listed.entry (l : Listed) (memory : T) : DirEntry T :=
  ⟨l.path, l.name, [], l.is_directory, memory⟩

/-- Each new entry, with the tag that its memory has. -/
def constructed (memory : ℕ → T) (listing : List Listed) : List (DirEntry T) :=
  listing.mapIdx fun i l => l.entry (memory i)

/-- The first entry with the path is changed, and whether there is one. -/
def set_first (path : Text) (change : DirEntry T → DirEntry T) :
    List (DirEntry T) → Bool × List (DirEntry T)
  | [] => (false, [])
  | e :: es =>
    if e.path = path then (true, change e :: es)
    else ((set_first path change es).1, e :: (set_first path change es).2)

theorem length_set_first (path : Text) (change : DirEntry T → DirEntry T)
    (es : List (DirEntry T)) : (set_first path change es).2.length = es.length := by
  induction es with
  | nil => rfl
  | cons e es ih =>
    unfold set_first
    split
    · rfl
    · simp only [List.length_cons, ih]

/-! ## The navigator -/

inductive Direction
  | UP | DOWN
  deriving DecidableEq, Repr

structure Navigator (T : Type*) where
  entries : List (DirEntry T)
  scroll_height : ℕ
  current_entry_ind : Int

namespace Navigator

/-- `directory_navigator()`. -/
def default : Navigator T := ⟨[], 16, -1⟩

/-- What the directory lists is given. -/
def open_directory (memory : ℕ → T) (listing : List Listed) (nav : Navigator T) : Navigator T :=
  { nav with entries := constructed memory listing }

/-- `std::next(_entries.cbegin(), _current_entry_ind + 1)` -/
def forward_start (nav : Navigator T) : Int := nav.current_entry_ind + 1

/-- `_entries.crbegin() + (_entries.size() - _current_entry_ind)` -/
def reverse_start (nav : Navigator T) : Int := nav.entries.length - nav.current_entry_ind

/-- An iterator so many entries behind the first is one of the list, or its end. -/
def InList (nav : Navigator T) (start : Int) : Prop := 0 ≤ start ∧ start ≤ nav.entries.length

instance (nav : Navigator T) (start : Int) : Decidable (nav.InList start) :=
  inferInstanceAs (Decidable (_ ∧ _))

/-- With an iterator outside the list, nothing is known of the call. -/
def relative_navigate_to_entry (direction : Direction) (predicate : DirEntry T → Bool)
    (nav : Navigator T) : Option (Bool × Navigator T) :=
  match direction with
  | .DOWN =>
    if nav.InList nav.forward_start then
      match (nav.entries.drop nav.forward_start.toNat).findIdx? predicate with
      | some j => some (true, { nav with current_entry_ind := nav.forward_start + j })
      | none => some (false, nav)
    else none
  | .UP =>
    if nav.InList nav.reverse_start then
      match (nav.entries.reverse.drop nav.reverse_start.toNat).findIdx? predicate with
      | some j => some (true, { nav with
          current_entry_ind := nav.entries.length - 1 - (nav.reverse_start + j) })
      | none => some (false, nav)
    else none

def set_scroll_height (scroll_height : ℕ) (nav : Navigator T) : Navigator T :=
  { nav with scroll_height }

def set_entry_suffix (path suffix : Text) (nav : Navigator T) : Bool × Navigator T :=
  let r := set_first path (fun e => { e with suffix }) nav.entries
  (r.1, { nav with entries := r.2 })

def set_entry_tag (path : Text) (tag : T) (nav : Navigator T) : Bool × Navigator T :=
  let r := set_first path (fun e => { e with tag }) nav.entries
  (r.1, { nav with entries := r.2 })

def has_any_tag [DecidableEq T] (tag : T) (nav : Navigator T) : Bool :=
  nav.entries.any fun e => e.tag = tag

def change_tags [DecidableEq T] (old new : T) (nav : Navigator T) : Navigator T :=
  { nav with entries := nav.entries.map fun e => if e.tag = old then { e with tag := new } else e }

/-- The place that the reference is to. -/
def get_current_entry (nav : Navigator T) : Option Int :=
  if nav.current_entry_ind < 0 then none else some nav.current_entry_ind

/-- The navigator that the constructor with a path navigates in. -/
def opened (memory : ℕ → T) (listing : List Listed) (scroll_height : ℕ) : Navigator T :=
  { (default : Navigator T) with scroll_height }.open_directory memory listing

/-- A call of which nothing is known counts as one that does nothing. -/
def navigated (direction : Direction) (predicate : DirEntry T → Bool) (nav : Navigator T) :
    Navigator T :=
  ((nav.relative_navigate_to_entry direction predicate).map Prod.snd).getD nav

/-- The entry at a place. -/
def entry_at (nav : Navigator T) (i : Int) : Option (DirEntry T) :=
  if i < 0 then none else nav.entries[i.toNat]?

end Navigator

/-! ## The runs -/

inductive Op (T : Type*)
  | construct (memory : ℕ → T) (listing : List Listed) (predicate : DirEntry T → Bool)
      (scroll_height : ℕ)
  | open_directory (memory : ℕ → T) (listing : List Listed)
  | relative_navigate_to_entry (direction : Direction) (predicate : DirEntry T → Bool)
  | set_scroll_height (scroll_height : ℕ)
  | set_entry_suffix (path suffix : Text)
  | set_entry_tag (path : Text) (tag : T)
  | change_tags (old new : T)

def system (T : Type*) [DecidableEq T] : System (Navigator T) (Op T) where
  next nav
    | .construct memory listing predicate scroll_height =>
      (Navigator.opened memory listing scroll_height).navigated .DOWN predicate
    | .open_directory memory listing => nav.open_directory memory listing
    | .relative_navigate_to_entry direction predicate => nav.navigated direction predicate
    | .set_scroll_height scroll_height => nav.set_scroll_height scroll_height
    | .set_entry_suffix path suffix => (nav.set_entry_suffix path suffix).2
    | .set_entry_tag path tag => (nav.set_entry_tag path tag).2
    | .change_tags old new => nav.change_tags old new
  Enabled _ _ := True

/-! ## What the operations are to do -/

/-- `j` is further in the direction than `i`. -/
def Direction.Beyond : Direction → Int → Int → Prop
  | .DOWN, i, j => i < j
  | .UP, i, j => j < i

namespace Navigator

def InRange (nav : Navigator T) : Prop :=
  -1 ≤ nav.current_entry_ind ∧ nav.current_entry_ind < nav.entries.length

/-- The index is in range, and `get_current_entry` gives an entry or nothing. -/
structure Right (nav : Navigator T) : Prop where
  in_range : nav.InRange
  current : ∀ i, nav.get_current_entry = some i → ∃ e, nav.entry_at i = some e

/-- `j` is the place of the nearest entry in the direction that satisfies the predicate. -/
structure Nearest (nav : Navigator T) (direction : Direction) (predicate : DirEntry T → Bool)
    (j : Int) : Prop where
  satisfies : ∃ e, nav.entry_at j = some e ∧ predicate e = true
  beyond : direction.Beyond nav.current_entry_ind j
  nearest : ∀ k e, direction.Beyond nav.current_entry_ind k → direction.Beyond k j →
    nav.entry_at k = some e → predicate e = false

/-- The call has its iterators in the list, and moves to the nearest entry or not at all. -/
def Navigates (nav : Navigator T) (direction : Direction) (predicate : DirEntry T → Bool) : Prop :=
  (∃ nav', nav.relative_navigate_to_entry direction predicate = some (true, nav') ∧
      nav' = { nav with current_entry_ind := nav'.current_entry_ind } ∧
      nav.Nearest direction predicate nav'.current_entry_ind) ∨
    (nav.relative_navigate_to_entry direction predicate = some (false, nav) ∧
      ∀ j, ¬ nav.Nearest direction predicate j)

/-- A navigation does what it is to do. -/
def StepRight (nav : Navigator T) : Op T → Prop
  | .construct memory listing predicate scroll_height =>
    (opened memory listing scroll_height).Navigates .DOWN predicate
  | .relative_navigate_to_entry direction predicate => nav.Navigates direction predicate
  | _ => True

/-- The new list is longer than the index, and there is no way up from before the list. -/
def Keeps (nav : Navigator T) : Op T → Prop
  | .open_directory _ listing => nav.current_entry_ind < listing.length
  | .relative_navigate_to_entry .UP _ => 0 ≤ nav.current_entry_ind
  | _ => True

instance (nav : Navigator T) : DecidablePred nav.Keeps
  | .open_directory _ listing =>
    inferInstanceAs (Decidable (nav.current_entry_ind < listing.length))
  | .relative_navigate_to_entry .UP _ => inferInstanceAs (Decidable (0 ≤ nav.current_entry_ind))
  | .relative_navigate_to_entry .DOWN _ | .construct .. | .set_scroll_height _
  | .set_entry_suffix .. | .set_entry_tag .. | .change_tags .. => isTrue trivial

/-! ## A navigation -/

section Navigation

variable {nav : Navigator T} {direction : Direction} {predicate : DirEntry T → Bool}

theorem entry_at_nat (nav : Navigator T) (i : ℕ) : nav.entry_at i = nav.entries[i]? := by
  unfold entry_at
  rw [if_neg (Int.not_lt.mpr (Int.natCast_nonneg i)), Int.toNat_natCast]

theorem entry_at_neg {i : Int} (h : i < 0) : nav.entry_at i = none := if_pos h

end Navigation

end Navigator

/-- The place that comes after so many others in the direction. -/
def Direction.place : Direction → Int → ℕ → Int
  | .DOWN, i, j => i + 1 + j
  | .UP, i, j => i - 1 - j

namespace Direction

variable {d : Direction} {i k : Int} {a b : ℕ}

theorem beyond_down : DOWN.Beyond i k ↔ i < k := Iff.rfl

theorem beyond_up : UP.Beyond i k ↔ k < i := Iff.rfl

theorem place_down : DOWN.place i a = i + 1 + a := rfl

theorem place_up : UP.place i a = i - 1 - a := rfl

theorem beyond_place : d.Beyond i (d.place i a) := by
  cases d
  · rw [beyond_up, place_up]
    omega
  · rw [beyond_down, place_down]
    omega

theorem exists_place (h : d.Beyond i k) : ∃ j, k = d.place i j := by
  cases d
  · rw [beyond_up] at h
    refine ⟨(i - 1 - k).toNat, ?_⟩
    rw [place_up]
    omega
  · rw [beyond_down] at h
    refine ⟨(k - i - 1).toNat, ?_⟩
    rw [place_down]
    omega

theorem place_beyond_place : d.Beyond (d.place i a) (d.place i b) ↔ a < b := by
  cases d
  · rw [beyond_up, place_up, place_up]
    omega
  · rw [beyond_down, place_down, place_down]
    omega

end Direction

namespace Navigator

section Scan

variable {nav : Navigator T} {direction : Direction} {predicate : DirEntry T → Bool}

/-- The iterator that a navigation starts with. -/
def start (nav : Navigator T) : Direction → Int
  | .DOWN => nav.forward_start
  | .UP => nav.reverse_start

theorem start_down : nav.start .DOWN = nav.current_entry_ind + 1 := rfl

theorem start_up : nav.start .UP = nav.entries.length - nav.current_entry_ind := rfl

/-- The entries that a navigation looks at, in its order. -/
def scan (nav : Navigator T) : Direction → List (DirEntry T)
  | .DOWN => nav.entries.drop (nav.start .DOWN).toNat
  | .UP => nav.entries.reverse.drop (nav.start .UP).toNat

theorem start_in_list (h : nav.InRange) (hup : direction = .UP → 0 ≤ nav.current_entry_ind) :
    nav.InList (nav.start direction) := by
  obtain ⟨hlow, hhigh⟩ := h
  unfold InList
  cases direction with
  | UP =>
    have hnonneg := hup rfl
    rw [start_up]
    omega
  | DOWN =>
    rw [start_down]
    omega

/-- The scan meets the places in the direction one by one. -/
theorem entry_at_place (h : nav.InRange) (hup : direction = .UP → 0 ≤ nav.current_entry_ind)
    (j : ℕ) : nav.entry_at (direction.place nav.current_entry_ind j) =
      (nav.scan direction)[j]? := by
  obtain ⟨hlow, hhigh⟩ := h
  cases direction with
  | DOWN =>
    have hplace : Direction.DOWN.place nav.current_entry_ind j =
        (((nav.current_entry_ind + 1).toNat + j : ℕ) : Int) := by
      rw [Direction.place_down]
      omega
    rw [hplace, entry_at_nat, scan, List.getElem?_drop, start_down]
  | UP =>
    have hnonneg := hup rfl
    rw [scan, List.getElem?_drop, start_up, Direction.place_up]
    by_cases hin : ((nav.entries.length : Int) - nav.current_entry_ind).toNat + j
        < nav.entries.length
    · rw [List.getElem?_reverse hin, ← entry_at_nat]
      congr 1
      omega
    · rw [entry_at_neg (by omega), List.getElem?_eq_none]
      rw [List.length_reverse]
      omega

/-- What the call does: it takes the first entry of the scan that satisfies the predicate. -/
theorem relative_navigate_of_in_range (h : nav.InRange)
    (hup : direction = .UP → 0 ≤ nav.current_entry_ind) :
    nav.relative_navigate_to_entry direction predicate =
      match (nav.scan direction).findIdx? predicate with
      | some j => some (true, { nav with
          current_entry_ind := direction.place nav.current_entry_ind j })
      | none => some (false, nav) := by
  have hin := start_in_list h hup
  cases direction with
  | DOWN => exact if_pos hin
  | UP =>
    refine (if_pos hin).trans ?_
    have hplace : ∀ j : ℕ, (nav.entries.length : Int) - 1 - (nav.reverse_start + j) =
        Direction.UP.place nav.current_entry_ind j := by
      intro j
      rw [Direction.place_up, reverse_start]
      omega
    simp only [hplace]
    rfl

theorem nearest_place {j : ℕ} (h : nav.InRange)
    (hup : direction = .UP → 0 ≤ nav.current_entry_ind)
    (hfind : (nav.scan direction).findIdx? predicate = some j) :
    nav.Nearest direction predicate (direction.place nav.current_entry_ind j) := by
  obtain ⟨hj, hsat, hfirst⟩ := List.findIdx?_eq_some_iff_getElem.mp hfind
  refine ⟨⟨(nav.scan direction)[j], ?_, hsat⟩, Direction.beyond_place, ?_⟩
  · rw [entry_at_place h hup, List.getElem?_eq_getElem hj]
  · intro k e hk hkj hat
    obtain ⟨i, rfl⟩ := Direction.exists_place hk
    have hi : i < j := Direction.place_beyond_place.mp hkj
    rw [entry_at_place h hup, List.getElem?_eq_some_iff] at hat
    obtain ⟨_, rfl⟩ := hat
    exact Bool.eq_false_iff.mpr (hfirst i hi)

theorem not_nearest (h : nav.InRange) (hup : direction = .UP → 0 ≤ nav.current_entry_ind)
    (hfind : (nav.scan direction).findIdx? predicate = none) (k : Int) :
    ¬ nav.Nearest direction predicate k := by
  rintro ⟨⟨e, hat, hsat⟩, hbeyond, _⟩
  obtain ⟨j, rfl⟩ := Direction.exists_place hbeyond
  rw [entry_at_place h hup] at hat
  have hno := List.findIdx?_eq_none_iff.mp hfind e (List.mem_of_getElem? hat)
  rw [hsat] at hno
  cases hno

theorem navigates_of_in_range (h : nav.InRange)
    (hup : direction = .UP → 0 ≤ nav.current_entry_ind) :
    nav.Navigates direction predicate := by
  have hcall : nav.relative_navigate_to_entry direction predicate = _ :=
    relative_navigate_of_in_range h hup
  rcases hfind : (nav.scan direction).findIdx? predicate with _ | j
  · rw [hfind] at hcall
    exact .inr ⟨hcall, not_nearest h hup hfind⟩
  · rw [hfind] at hcall
    exact .inl ⟨_, hcall, rfl, nearest_place h hup hfind⟩

/-- A way up from before the list forms an iterator outside it. -/
theorem not_navigates_up (h : nav.current_entry_ind < 0) : ¬ nav.Navigates .UP predicate := by
  have hout : ¬ nav.InList nav.reverse_start := by
    rintro ⟨_, hle⟩
    unfold reverse_start at hle
    omega
  have hcall : nav.relative_navigate_to_entry .UP predicate = none := if_neg hout
  rintro (⟨nav', hsome, _⟩ | ⟨hsome, _⟩)
  · rw [hcall] at hsome
    cases hsome
  · rw [hcall] at hsome
    cases hsome

/-- The place of an entry is one of the list. -/
theorem entry_at_some {i : Int} {e : DirEntry T} (h : nav.entry_at i = some e) :
    0 ≤ i ∧ i < nav.entries.length := by
  unfold entry_at at h
  split at h
  · cases h
  · next hi =>
    have hlt := (List.getElem?_eq_some_iff.mp h).1
    omega

theorem right_iff : nav.Right ↔ nav.InRange := by
  refine ⟨Right.in_range, fun h => ⟨h, ?_⟩⟩
  intro i hi
  unfold get_current_entry at hi
  split at hi
  · cases hi
  · next hnonneg =>
    cases hi
    have hlt : nav.current_entry_ind.toNat < nav.entries.length := by
      have := h.2
      omega
    exact ⟨nav.entries[nav.current_entry_ind.toNat], by
      rw [entry_at, if_neg hnonneg, List.getElem?_eq_getElem hlt]⟩

theorem in_range_navigated (h : nav.InRange) : (nav.navigated direction predicate).InRange := by
  by_cases hup : direction = .UP → 0 ≤ nav.current_entry_ind
  · unfold navigated
    have hnav : nav.Navigates direction predicate := navigates_of_in_range h hup
    rcases hnav with
      ⟨nav', hcall, hsame, hnear⟩ | ⟨hcall, _⟩
    · rw [hcall]
      obtain ⟨e, hat, _⟩ := hnear.satisfies
      have hplace := entry_at_some hat
      have hlength : nav'.entries = nav.entries := by
        rw [hsame]
      refine ⟨?_, ?_⟩
      · show -1 ≤ nav'.current_entry_ind
        omega
      · show nav'.current_entry_ind < nav'.entries.length
        rw [hlength]
        exact hplace.2
    · rw [hcall]
      exact h
  · rw [Classical.not_imp] at hup
    obtain ⟨rfl, hneg⟩ := hup
    have hout : ¬ nav.InList nav.reverse_start := by
      rintro ⟨_, hle⟩
      unfold reverse_start at hle
      omega
    have hcall : nav.relative_navigate_to_entry .UP predicate = none := if_neg hout
    unfold navigated
    rw [hcall]
    exact h

end Scan

/-! ## Runs -/

theorem in_range_of_length {nav nav' : Navigator T} (h : nav.InRange)
    (hind : nav'.current_entry_ind = nav.current_entry_ind)
    (hlen : nav'.entries.length = nav.entries.length) : nav'.InRange := by
  unfold InRange
  rw [hind, hlen]
  exact h

theorem in_range_default : (default : Navigator T).InRange := by
  constructor
  · exact Int.le_refl _
  · exact Int.negSucc_lt_zero 0

theorem in_range_opened (memory : ℕ → T) (listing : List Listed) (scroll_height : ℕ) :
    (opened memory listing scroll_height).InRange := by
  unfold InRange opened open_directory default
  simp only
  omega

/-- The new list is longer than the index. -/
def LongEnough (nav : Navigator T) : Op T → Prop
  | .open_directory _ listing => nav.current_entry_ind < listing.length
  | _ => True

variable [DecidableEq T] {nav : Navigator T} {a : Op T}

theorem in_range_next (h : nav.InRange) (hlong : nav.LongEnough a) :
    ((system T).next nav a).InRange := by
  cases a with
  | construct memory listing predicate scroll_height =>
    exact in_range_navigated (in_range_opened memory listing scroll_height)
  | open_directory memory listing =>
    refine ⟨h.1, ?_⟩
    show nav.current_entry_ind < (constructed memory listing).length
    unfold constructed
    rw [List.length_mapIdx]
    exact hlong
  | relative_navigate_to_entry direction predicate => exact in_range_navigated h
  | set_scroll_height scroll_height => exact h
  | set_entry_suffix path suffix => exact in_range_of_length h rfl (length_set_first _ _ _)
  | set_entry_tag path tag => exact in_range_of_length h rfl (length_set_first _ _ _)
  | change_tags old new => exact in_range_of_length h rfl (List.length_map _)

theorem long_enough_of_in_range (h : ((system T).next nav a).InRange) : nav.LongEnough a := by
  cases a with
  | open_directory memory listing =>
    have hlt : nav.current_entry_ind < (constructed memory listing).length := h.2
    unfold constructed at hlt
    rw [List.length_mapIdx] at hlt
    exact hlt
  | _ => trivial

omit [DecidableEq T] in
theorem long_enough_of_keeps (h : nav.Keeps a) : nav.LongEnough a := by
  cases a with
  | open_directory memory listing => exact h
  | _ => trivial

omit [DecidableEq T] in
theorem keeps_iff (h : nav.InRange) : nav.Keeps a ↔ nav.LongEnough a ∧ nav.StepRight a := by
  cases a with
  | construct memory listing predicate scroll_height =>
    refine ⟨fun _ => ⟨trivial, ?_⟩, fun _ => trivial⟩
    exact navigates_of_in_range (in_range_opened memory listing scroll_height) (by simp)
  | open_directory memory listing => exact ⟨fun hk => ⟨hk, trivial⟩, And.left⟩
  | relative_navigate_to_entry direction predicate =>
    cases direction with
    | DOWN => exact ⟨fun _ => ⟨trivial, navigates_of_in_range h (by simp)⟩, fun _ => trivial⟩
    | UP =>
      refine ⟨fun hk => ⟨trivial, navigates_of_in_range h fun _ => hk⟩, ?_⟩
      rintro ⟨_, hright⟩
      by_contra hneg
      exact not_navigates_up (Int.not_le.mp hneg) hright
  | _ => exact ⟨fun _ => ⟨trivial, trivial⟩, fun _ => trivial⟩

end Navigator

/-- In every run, the index stays in the list and each navigation does what it is to do exactly
when each new list is longer than the index and no way up starts from before the list. -/
theorem stays_in_range_iff [DecidableEq T] {tr : List (Navigator T × Op T)} {nav : Navigator T}
    (h : Run (system T) (fun _ _ => True) .default tr nav) :
    (Along (fun _ s => s.Right) tr nav ∧ ∀ e ∈ tr, e.1.StepRight e.2) ↔
      ∀ e ∈ tr, e.1.Keeps e.2 := by
  have hindex := h.along_iff (I := Navigator.InRange) (Q := Navigator.Right)
    (C := Navigator.LongEnough) Navigator.in_range_default (fun _ => Navigator.right_iff.mpr)
    (fun _ _ hr _ _ hl => Navigator.in_range_next hr hl)
    (fun _ _ _ _ _ hr => Navigator.long_enough_of_in_range (Navigator.right_iff.mp hr))
  constructor
  · rintro ⟨hright, hsteps⟩ e he
    have hin := Navigator.right_iff.mp (hright.before he)
    exact (Navigator.keeps_iff hin).mpr ⟨hindex.mp hright e he, hsteps e he⟩
  · intro hkeeps
    have hright := hindex.mpr fun e he => Navigator.long_enough_of_keeps (hkeeps e he)
    refine ⟨hright, ?_⟩
    intro e he
    have hin := Navigator.right_iff.mp (hright.before he)
    exact ((Navigator.keeps_iff hin).mp (hkeeps e he)).2

/-! ## Two runs -/

/-- A directory with one file. -/
def one_file : List Listed := [⟨text "/d", text "/d", true⟩, ⟨text "/d/a", text "  ╟─ a", false⟩]

/-- The file is found, and then it is gone. -/
def file_removed : List (Op FileStatus) :=
  [.construct (fun _ => .STOPPED) one_file (fun e => !e.is_directory) 16,
    .open_directory (fun _ => .STOPPED) (one_file.take 1)]

/-- No file is found, and the way up starts from before the list. -/
def up_from_nothing : List (Op FileStatus) :=
  [.construct (fun _ => .STOPPED) (one_file.take 1) (fun e => !e.is_directory) 16,
    .relative_navigate_to_entry .UP fun e => !e.is_directory]

theorem run_of_ops (ops : List (Op FileStatus)) :
    Run (system FileStatus) (fun _ _ => True) .default ((system FileStatus).trace .default ops)
      ((system FileStatus).after .default ops) := by
  apply System.run_of_enables
  · generalize (Navigator.default : Navigator FileStatus) = nav
    induction ops generalizing nav with
    | nil => trivial
    | cons a ops ih => exact ⟨trivial, ih _⟩
  · intro e _
    trivial

/-- A directory with two files. -/
def files_a_and_b : List Listed := one_file ++ [⟨text "/d/b", text "  ╙─ b", false⟩]

/-- Down to the second file, up again, and then the second file is gone. -/
def down_and_up : List (Op FileStatus) :=
  [.construct (fun _ => .STOPPED) files_a_and_b (fun e => !e.is_directory) 16,
    .relative_navigate_to_entry .DOWN fun e => !e.is_directory,
    .set_scroll_height 1,
    .open_directory (fun _ => .STOPPED) files_a_and_b,
    .relative_navigate_to_entry .UP fun e => !e.is_directory,
    .open_directory (fun _ => .STOPPED) one_file,
    .relative_navigate_to_entry .DOWN fun e => !e.is_directory]

theorem stays_in_range_down_and_up :
    (Along (fun _ s => s.Right) ((system FileStatus).trace .default down_and_up)
        ((system FileStatus).after .default down_and_up) ∧
      ∀ e ∈ (system FileStatus).trace .default down_and_up, e.1.StepRight e.2) ∧
    ((system FileStatus).trace .default down_and_up).map (fun e => e.1.current_entry_ind) =
      [-1, 1, 2, 2, 2, 1, 1] := by
  refine ⟨(stays_in_range_iff (run_of_ops _)).mpr (by decide), by decide⟩

/-- The index is 1, in a list of one entry; and the second way up is outside the list. -/
theorem index_after_the_file_is_gone :
    Run (system FileStatus) (fun _ _ => True) .default
        ((system FileStatus).trace .default file_removed)
        ((system FileStatus).after .default file_removed) ∧
      ((system FileStatus).after .default file_removed).get_current_entry = some 1 ∧
      ((system FileStatus).after .default file_removed).entries.length = 1 ∧
      ¬ ((system FileStatus).after .default file_removed).Right ∧
    Run (system FileStatus) (fun _ _ => True) .default
        ((system FileStatus).trace .default up_from_nothing)
        ((system FileStatus).after .default up_from_nothing) ∧
      ¬ ∀ e ∈ (system FileStatus).trace .default up_from_nothing, e.1.StepRight e.2 := by
  refine ⟨run_of_ops _, by decide, by decide, ?_, run_of_ops _, ?_⟩
  · rintro ⟨⟨_, hlt⟩, _⟩
    exact absurd hlt (by decide)
  · intro hall
    refine Navigator.not_navigates_up ?_ (hall _ (List.mem_cons_of_mem _ List.mem_cons_self))
    decide

end directory_navigator
