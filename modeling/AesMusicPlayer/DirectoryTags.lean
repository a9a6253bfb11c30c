-- The tags of `directory_navigator`: the operations that set, change and test
-- them, and the two entries that they show, the one in preparation and the one
-- that plays.
import Mathlib.Data.List.Nodup
import Mathlib.Tactic.Common

namespace directory_navigator

/-! ## The operations -/

/-- `ui_thread::_file_status`. -/
inductive FileStatus
  | STOPPED | PREPARING | PLAYING
  deriving DecidableEq, Repr

/-- The path and the tag of an entry. -/
structure Entry (P : Type*) where
  path : P
  tag : FileStatus
  deriving DecidableEq

variable {P : Type*}

def has_any_tag (tag : FileStatus) (es : List (Entry P)) : Bool := es.any fun e => e.tag = tag

def change_tags (old new : FileStatus) (es : List (Entry P)) : List (Entry P) :=
  es.map fun e => if e.tag = old then { e with tag := new } else e

/-- The entries of the same files. The constructor of an entry leaves its tag as the memory
has it. -/
def open_directory (memory : P → FileStatus) (es : List (Entry P)) : List (Entry P) :=
  es.map fun e => { e with tag := memory e.path }

theorem paths_change_tags (a b : FileStatus) (es : List (Entry P)) :
    (change_tags a b es).map Entry.path = es.map Entry.path := by
  unfold change_tags
  rw [List.map_map]
  apply List.map_congr_left
  intro e _
  simp only [Function.comp_apply]
  split <;> rfl

/-- A scan that finds the tags in the memory as they were. -/
theorem open_directory_same {memory : P → FileStatus} {es : List (Entry P)}
    (hm : ∀ e ∈ es, memory e.path = e.tag) : open_directory memory es = es := by
  unfold open_directory
  conv_rhs => rw [← List.map_id es]
  apply List.map_congr_left
  intro e he
  rw [hm e he]
  rfl

variable [DecidableEq P]

/-- The first entry with the path is given the tag, and whether there is one. -/
def set_entry_tag (path : P) (tag : FileStatus) : List (Entry P) → Bool × List (Entry P)
  | [] => (false, [])
  | e :: es =>
    if e.path = path then (true, { e with tag := tag } :: es)
    else ((set_entry_tag path tag es).1, e :: (set_entry_tag path tag es).2)

/-- The tag of the entry with the path. -/
def tag_of (path : P) (es : List (Entry P)) : Option FileStatus :=
  (es.find? fun e => e.path = path).map Entry.tag

theorem paths_set_entry_tag (path : P) (tag : FileStatus) (es : List (Entry P)) :
    (set_entry_tag path tag es).2.map Entry.path = es.map Entry.path := by
  induction es with
  | nil => rfl
  | cons e es ih =>
    unfold set_entry_tag
    split
    · rfl
    · simp only [List.map_cons, ih]

/-- With distinct paths, the entry of the path has the tag and the others keep theirs. -/
theorem mem_set_entry_tag {path : P} {tag : FileStatus} {es : List (Entry P)}
    (h : (es.map Entry.path).Nodup) {e : Entry P} (he : e ∈ (set_entry_tag path tag es).2) :
    if e.path = path then e.tag = tag else e ∈ es := by
  induction es with
  | nil => cases he
  | cons x es ih =>
    rw [List.map_cons, List.nodup_cons] at h
    unfold set_entry_tag at he
    split at he
    · next hx =>
      rcases List.mem_cons.mp he with rfl | he
      · exact (if_pos hx).symm ▸ rfl
      · have hne : e.path ≠ path := by
          intro heq
          exact h.1 (List.mem_map.mpr ⟨e, he, heq.trans hx.symm⟩)
        rw [if_neg hne]
        exact List.mem_cons_of_mem _ he
    · next hx =>
      rcases List.mem_cons.mp he with rfl | he
      · rw [if_neg hx]
        exact List.mem_cons_self
      · have hrest := ih h.2 he
        split
        · next heq => rwa [if_pos heq] at hrest
        · next hne =>
          rw [if_neg hne] at hrest
          exact List.mem_cons_of_mem _ hrest

/-! ## What the tags show -/

/-- The entry in preparation and the entry that plays. -/
structure Shown (P : Type*) where
  preparing : Option P
  playing : Option P
  deriving DecidableEq

def Shown.status (v : Shown P) (p : P) : FileStatus :=
  if v.preparing = some p then .PREPARING else if v.playing = some p then .PLAYING else .STOPPED

/-- The tags show `v`, and nothing else. -/
structure Shows (es : List (Entry P)) (v : Shown P) : Prop where
  nodup : (es.map Entry.path).Nodup
  tags : ∀ e ∈ es, e.tag = v.status e.path
  preparing : ∀ p, v.preparing = some p → p ∈ es.map Entry.path
  playing : ∀ p, v.playing = some p → p ∈ es.map Entry.path
  apart : ∀ p, v.preparing = some p → v.playing ≠ some p

namespace Shown

variable {v : Shown P} {p : P}

theorem status_eq_preparing : v.status p = .PREPARING ↔ v.preparing = some p := by
  unfold status
  split
  · next h => simp [h]
  · next h => split <;> simp [h]

theorem status_eq_playing (h : ∀ p, v.preparing = some p → v.playing ≠ some p) :
    v.status p = .PLAYING ↔ v.playing = some p := by
  unfold status
  split
  · next hp => simp [h p hp]
  · split <;> simp [*]

end Shown

namespace Shows

variable {es : List (Entry P)} {v : Shown P} {p : P}

theorem tag_eq_preparing (h : Shows es v) {e : Entry P} (he : e ∈ es) :
    e.tag = .PREPARING ↔ v.preparing = some e.path := by
  rw [h.tags e he, Shown.status_eq_preparing]

theorem tag_eq_playing (h : Shows es v) {e : Entry P} (he : e ∈ es) :
    e.tag = .PLAYING ↔ v.playing = some e.path := by
  rw [h.tags e he, Shown.status_eq_playing h.apart]

theorem has_preparing (h : Shows es v) : has_any_tag .PREPARING es = v.preparing.isSome := by
  rw [Bool.eq_iff_iff]
  unfold has_any_tag
  rw [List.any_eq_true]
  constructor
  · rintro ⟨e, he, ht⟩
    rw [(h.tag_eq_preparing he).mp (of_decide_eq_true ht)]
    rfl
  · intro hs
    obtain ⟨p, hp⟩ := Option.isSome_iff_exists.mp hs
    obtain ⟨e, he, rfl⟩ := List.mem_map.mp (h.preparing p hp)
    exact ⟨e, he, decide_eq_true ((h.tag_eq_preparing he).mpr hp)⟩

theorem has_playing (h : Shows es v) : has_any_tag .PLAYING es = v.playing.isSome := by
  rw [Bool.eq_iff_iff]
  unfold has_any_tag
  rw [List.any_eq_true]
  constructor
  · rintro ⟨e, he, ht⟩
    rw [(h.tag_eq_playing he).mp (of_decide_eq_true ht)]
    rfl
  · intro hs
    obtain ⟨p, hp⟩ := Option.isSome_iff_exists.mp hs
    obtain ⟨e, he, rfl⟩ := List.mem_map.mp (h.playing p hp)
    exact ⟨e, he, decide_eq_true ((h.tag_eq_playing he).mpr hp)⟩

theorem tag_of_eq (h : Shows es v) (hp : p ∈ es.map Entry.path) :
    tag_of p es = some (v.status p) := by
  unfold tag_of
  obtain ⟨e, he, rfl⟩ := List.mem_map.mp hp
  cases hf : es.find? fun x => x.path = e.path with
  | none =>
    have hno := List.find?_eq_none.mp hf e he
    simp at hno
  | some x =>
    have hx : x.path = e.path := by simpa using List.find?_some hf
    rw [Option.map_some, h.tags x (List.mem_of_find?_eq_some hf), hx]

/-- At most one entry is in preparation, since the paths are distinct. -/
theorem count_preparing (h : Shows es v) : es.countP (fun e => e.tag = .PREPARING) ≤ 1 := by
  have hpath : ∀ e ∈ es, (decide (e.tag = .PREPARING)) = decide (v.preparing = some e.path) := by
    intro e he
    rw [decide_eq_decide]
    exact h.tag_eq_preparing he
  rw [List.countP_congr fun e he => by rw [hpath e he]]
  cases hv : v.preparing with
  | none => simp
  | some p =>
    have hcount := List.nodup_iff_count_le_one.mp h.nodup p
    rw [List.count, List.countP_map] at hcount
    refine Nat.le_trans (List.countP_mono_left ?_) hcount
    intro e _ he
    rw [decide_eq_true_eq, Option.some.injEq] at he
    rw [Function.comp_apply, beq_iff_eq]
    exact he.symm

/-! ## The operations on what is shown -/

/-- An entry that does not play is in preparation. -/
theorem prepare (h : Shows es v) (hp : p ∈ es.map Entry.path)
    (hv : v.preparing = none ∨ v.preparing = some p) (hne : v.playing ≠ some p) :
    Shows (set_entry_tag p .PREPARING es).2 ⟨some p, v.playing⟩ := by
  refine ⟨?_, ?_, ?_, ?_, ?_⟩
  · rw [paths_set_entry_tag]
    exact h.nodup
  · intro e he
    have hmem := mem_set_entry_tag h.nodup he
    unfold Shown.status
    split at hmem
    · next heq => rw [hmem, heq, if_pos rfl]
    · next hne' =>
      have hpe : some p ≠ some e.path := fun heq => hne' (Option.some.inj heq).symm
      rw [h.tags e hmem, Shown.status, if_neg hpe]
      rcases hv with hv | hv <;> simp [hv, Ne.symm hne']
  · rintro q hq
    obtain rfl := Option.some.inj hq
    rw [paths_set_entry_tag]
    exact hp
  · rw [paths_set_entry_tag]
    exact h.playing
  · rintro q hq
    obtain rfl := Option.some.inj hq
    exact hne

/-- The preparation is given up. -/
theorem give_up (h : Shows es v) (hv : v.preparing = some p) :
    Shows (set_entry_tag p .STOPPED es).2 ⟨none, v.playing⟩ := by
  refine ⟨?_, ?_, nofun, ?_, nofun⟩
  · rw [paths_set_entry_tag]
    exact h.nodup
  · intro e he
    have hmem := mem_set_entry_tag h.nodup he
    unfold Shown.status
    split at hmem
    · next heq =>
      rw [hmem, heq]
      simp [h.apart p hv]
    · next hne =>
      rw [h.tags e hmem, Shown.status]
      simp [hv, Ne.symm hne]
  · rw [paths_set_entry_tag]
    exact h.playing

/-- `change_tags` of the tags of all entries at once. -/
theorem change (h : Shows es v) {a b : FileStatus} {w : Shown P}
    (hw : ∀ p, w.status p = if v.status p = a then b else v.status p)
    (hprep : ∀ p, w.preparing = some p → v.preparing = some p)
    (hplay : ∀ p, w.playing = some p → v.playing = some p ∨ v.preparing = some p)
    (happart : ∀ p, w.preparing = some p → w.playing ≠ some p) :
    Shows (change_tags a b es) w := by
  refine ⟨?_, ?_, ?_, ?_, happart⟩
  · rw [paths_change_tags]
    exact h.nodup
  · intro e he
    obtain ⟨x, hx, rfl⟩ := List.mem_map.mp he
    have ht := h.tags x hx
    split
    · next hold => rw [hw, if_pos (ht ▸ hold)]
    · next hold => rw [hw, if_neg (ht ▸ hold), ht]
  · intro p hp
    rw [paths_change_tags]
    exact h.preparing p (hprep p hp)
  · intro p hp
    rw [paths_change_tags]
    exact (hplay p hp).elim (h.playing p) (h.preparing p)

theorem start_playing (h : Shows es v) (hv : v.playing = none) :
    Shows (change_tags .PREPARING .PLAYING es) ⟨none, v.preparing⟩ := by
  refine h.change (fun p => ?_) nofun (fun p hp => Or.inr hp) nofun
  unfold Shown.status
  split <;> simp_all

theorem fail_preparing (h : Shows es v) :
    Shows (change_tags .PREPARING .STOPPED es) ⟨none, v.playing⟩ := by
  refine h.change (fun p => ?_) nofun (fun p hp => Or.inl hp) nofun
  have hapart := h.apart p
  unfold Shown.status
  split <;> split <;> simp_all

theorem stop_playing (h : Shows es v) :
    Shows (change_tags .PLAYING .STOPPED es) ⟨v.preparing, none⟩ := by
  refine h.change (fun p => ?_) (fun p hp => hp) nofun nofun
  unfold Shown.status
  split <;> split <;> simp_all

end Shows

end directory_navigator
