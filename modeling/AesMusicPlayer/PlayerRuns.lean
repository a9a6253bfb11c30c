-- The keys and the results of the decryptions, and the runs of the UI and the
-- player: at most one entry is in preparation, and at rest the entry that is
-- shown to play is the one that plays.
import AesMusicPlayer.PlayerTags

open traces directory_navigator

namespace player_thread

variable {P : Type*}

theorem preparing_eq {v : Shown P} {s : State P} (hui : s.ui.at_tag = false) : s.preparing v = v.preparing := by
  unfold State.preparing
  cases hs : s.ui <;> simp_all [UiStep.at_tag]

/-- A stop is sent: it comes before the results of the decryptions. -/
theorem coming_stop (s : State P) : ∃ xs ys, s.coming = xs ++ ys ∧
    (s.send .STOP).coming = xs ++ .stop :: ys := by
  refine ⟨s.outbox.map Message.mark ++ s.player.marks ++ s.ui_to_player.flatMap Command.marks,
    s.decrypts.map fun _ => .play, rfl, ?_⟩
  unfold State.send State.coming
  simp only [List.flatMap_append, List.flatMap_singleton, Command.marks, List.append_assoc,
    List.singleton_append]
  rfl

variable [DecidableEq P]

namespace Agrees

variable {v : Shown P} {s : State P}

/-! ## The keys -/

/-- The UI goes on, and nothing else changes. -/
theorem goto (h : Agrees v s) (hui : s.ui.at_tag = false) {u : UiStep P} (hu : u.at_tag = false)
    (hspace : ∀ p, u = .space p → p ∈ s.entries.map Entry.path)
    (hstart : ∀ p, u = .start p → p ∈ s.entries.map Entry.path ∧ v.preparing = none ∧
      v.playing ≠ some p ∧ (v.playing = none ∨ .stop ∈ s.coming)) :
    Agrees v { s with ui := u } := by
  have hprep : State.preparing v { s with ui := u } = s.preparing v :=
    (preparing_eq (s := { s with ui := u }) hu).trans (preparing_eq hui).symm
  constructor
  case shows => exact h.shows
  case space => exact hspace
  case start => exact hstart
  case tag =>
    rintro p hp
    rw [show u = .tag p from hp] at hu
    cases hu
  case safe => exact h.safe
  all_goals rw [hprep]
  case waiting => exact h.waiting
  case decrypts => exact h.decrypts
  case commands => exact h.commands
  case player => exact h.player
  case codec => exact h.codec

/-- The UI goes back to its `select`. -/
theorem to_select (h : Agrees v s) (hui : s.ui.at_tag = false) :
    Agrees v { s with ui := .select } :=
  h.goto hui rfl nofun nofun

theorem scan (h : Agrees v s) (hui : s.ui.at_tag = false) {memory : P → FileStatus}
    (hm : ∀ e ∈ s.entries, memory e.path = e.tag) :
    Agrees v (s.next (.scan memory)) := by
  unfold State.next
  dsimp only
  rw [open_directory_same hm]
  exact (h.to_select hui).of_coming rfl rfl rfl rfl (h.to_select hui).commands
    (h.to_select hui).player (h.to_select hui).codec

theorem volume (h : Agrees v s) (delta : Int) : Agrees v (s.send (.VOLUME delta)) := by
  refine h.of_coming rfl rfl rfl ?_ ?_ h.player h.codec
  · unfold State.send State.coming
    simp only [List.flatMap_append, List.flatMap_singleton, Command.marks, List.append_nil]
    rfl
  · intro p hp
    rcases List.mem_append.mp hp with hp | hp
    · exact h.commands p hp
    · cases List.mem_singleton.mp hp

theorem send_stop (h : Agrees v s) : Agrees v (s.send .STOP) := by
  obtain ⟨xs, ys, hold, hnew⟩ := coming_stop s
  refine h.insert_stop hold hnew rfl rfl rfl rfl ?_ h.codec
  intro p hp
  rcases List.mem_append.mp hp with hp | hp
  · exact hp
  · cases List.mem_singleton.mp hp

/-- The UI is to start the selected entry. -/
theorem to_start (h : Agrees v s) (hui : s.ui.at_tag = false) {p : P}
    (hp : p ∈ s.entries.map Entry.path) (hprep : v.preparing = none) (hplay : v.playing ≠ some p)
    (hstop : v.playing = none ∨ .stop ∈ s.coming) : Agrees v { s with ui := .start p } := by
  refine h.goto hui rfl nofun ?_
  rintro q hq
  cases hq
  exact ⟨hp, hprep, hplay, hstop⟩

theorem decide (h : Agrees v s) {p : P} (hui : s.ui = .space p) : Agrees v (s.space_step p) := by
  have htag : s.ui.at_tag = false := by rw [hui]; rfl
  have hp := h.space p hui
  unfold State.space_step
  split
  · exact h.send_stop.to_select htag
  · next hne =>
    rw [h.shows.tag_of_eq hp, Option.some.injEq, Shown.status_eq_playing h.shows.apart] at hne
    rw [h.shows.has_preparing, h.shows.has_playing]
    split
    · exact h.to_select htag
    · next hprep =>
      have hnone : v.preparing = none := by simpa using hprep
      split
      · refine h.send_stop.to_start htag hp hnone hne (Or.inr ?_)
        obtain ⟨xs, ys, -, hnew⟩ := coming_stop s
        rw [hnew]
        exact List.mem_append_right _ List.mem_cons_self
      · next hplay =>
        exact h.to_start htag hp hnone hne (Or.inl (by simpa using hplay))

/-- A start is sent, or a decryption begins. Nothing else is in preparation. -/
theorem begin_play (h : Agrees v s) {s' : State P} {p : P} (hui : s.ui = .start p)
    (hui' : s'.ui = .tag p) (hentries : s'.entries = s.entries) (hplayer : s'.player = s.player)
    (houtbox : s'.outbox = s.outbox) (hcodec : s'.codec = s.codec)
    (hcoming : s'.coming = s.coming ++ [.play]) (hdecrypts : ∀ q ∈ s'.decrypts, q ∈ s.decrypts ∨ q = p)
    (hcommands : ∀ q, .PLAY q ∈ s'.ui_to_player → .PLAY q ∈ s.ui_to_player ∨ q = p) :
    Agrees v s' := by
  obtain ⟨hp, hnone, hne, hstop⟩ := h.start p hui
  have hold : s.preparing v = none := (preparing_eq (by rw [hui]; rfl)).trans hnone
  have hnew : s'.preparing v = some p := by
    unfold State.preparing
    rw [hui']
  have hno : .play ∉ s.coming := by
    intro hm
    have hs := h.waiting.mpr hm
    rw [hold] at hs
    cases hs
  constructor
  case shows =>
    rw [hentries]
    exact h.shows
  case space =>
    simp [hui']
  case start =>
    simp [hui']
  case tag =>
    intro q hq
    rw [hui'] at hq
    cases hq
    rw [hentries]
    exact ⟨hp, Or.inl hnone, hne⟩
  case safe =>
    rw [hcoming]
    exact Safe.append_play hno (hstop.imp (fun hn => by rw [hn]; rfl) id)
  case waiting =>
    rw [hnew, hcoming]
    simp
  case decrypts =>
    intro q hq
    rcases hdecrypts q hq with hq | rfl
    · exact absurd (mem_coming_of_decrypts hq) hno
    · exact hnew
  case commands =>
    intro q hq
    rcases hcommands q hq with hq | rfl
    · exact absurd (mem_coming_of_command hq) hno
    · exact hnew
  case player =>
    intro q hq
    rw [hplayer] at hq
    exact absurd (mem_coming_of_player hq) hno
  case codec =>
    have hstops : .play ∉ s.outbox.map Message.mark := by
      intro hm
      apply hno
      unfold State.coming
      simp [hm]
    rw [houtbox, hcodec, ← h.codec]
    exact foldl_stops_playing hstops rfl

theorem start_play (h : Agrees v s) {p : P} (hui : s.ui = .start p) (is_encrypted ok : Bool) :
    Agrees v (s.ui_start p is_encrypted ok) := by
  have hdecrypts : s.decrypts = [] := by
    rw [List.eq_nil_iff_forall_not_mem]
    intro q hq
    have hs := h.waiting.mpr (mem_coming_of_decrypts hq)
    rw [preparing_eq (by rw [hui]; rfl), (h.start p hui).2.1] at hs
    cases hs
  unfold State.ui_start
  cases ok with
  | false => exact h.to_select (by rw [hui]; rfl)
  | true =>
    cases is_encrypted with
    | true =>
      refine h.begin_play hui rfl rfl rfl rfl rfl ?_ ?_ fun q hq => Or.inl hq
      · unfold State.coming
        simp [hdecrypts, State.outbox, State.written]
      · intro q hq
        exact (List.mem_cons.mp hq).symm
    | false =>
      refine h.begin_play hui rfl rfl rfl rfl rfl ?_ (fun q hq => Or.inl hq) ?_
      · unfold State.coming
        simp [hdecrypts, State.outbox, State.written, State.send, Command.marks]
      · intro q hq
        rcases List.mem_append.mp hq with hq | hq
        · exact Or.inl hq
        · cases List.mem_singleton.mp hq
          exact Or.inr rfl

/-- The entry is tagged. -/
theorem tag_entry (h : Agrees v s) {p : P} (hui : s.ui = .tag p) :
    Agrees ⟨some p, v.playing⟩
      { s with entries := (set_entry_tag p .PREPARING s.entries).2, ui := .select } := by
  obtain ⟨hp, hv, hne⟩ := h.tag p hui
  have hold : s.preparing v = some p := by
    unfold State.preparing
    rw [hui]
  have hwaiting := h.waiting
  have hdecrypts := h.decrypts
  have hcommands := h.commands
  have hplayer := h.player
  have hcodec := h.codec
  rw [hold] at hwaiting hdecrypts hcommands hplayer hcodec
  exact ⟨h.shows.prepare hp hv hne, nofun, nofun, nofun, h.safe, hwaiting, hdecrypts, hcommands,
    hplayer, hcodec⟩

/-! ## The result of a decryption -/

/-- There is one decryption, and nothing else is in preparation. -/
theorem decrypts_eq (h : Agrees v s) {p : P} (hp : p ∈ s.decrypts) : s.decrypts = [p] ∧
    .play ∉ s.outbox.map Message.mark ++ s.player.marks ++
      s.ui_to_player.flatMap Command.marks := by
  have hsafe := h.safe
  unfold State.coming at hsafe
  cases hd : s.decrypts with
  | nil =>
    rw [hd] at hp
    cases hp
  | cons q qs =>
    rw [hd, List.map_cons] at hsafe
    obtain ⟨hx, hy⟩ := hsafe.once
    have hqs : qs = [] := by
      rw [List.eq_nil_iff_forall_not_mem]
      exact fun r hr => hy (List.mem_map.mpr ⟨r, hr, rfl⟩)
    rw [hd, hqs, List.mem_singleton] at hp
    rw [hqs, hp]
    exact ⟨rfl, hx⟩

/-- The decrypted content is sent. -/
theorem send_decrypted (h : Agrees v s) (hui : s.ui = .select) {p : P} (hp : p ∈ s.decrypts) :
    Agrees v { s with
      decrypts := [], ui_to_player := s.ui_to_player ++ [.PLAY p], ui := .tag p } := by
  obtain ⟨hd, -⟩ := h.decrypts_eq hp
  have hprep : s.preparing v = some p := h.decrypts p hp
  have hv : v.preparing = some p := (preparing_eq (by rw [hui]; rfl)).symm.trans hprep
  have hcoming : State.coming { s with
      decrypts := [], ui_to_player := s.ui_to_player ++ [.PLAY p], ui := .tag p } = s.coming := by
    unfold State.coming
    simp [hd, State.outbox, State.written, Command.marks]
  constructor
  case shows => exact h.shows
  case space => rintro _ ⟨⟩
  case start => rintro _ ⟨⟩
  case tag =>
    rintro q hq
    cases hq
    exact ⟨h.shows.preparing p hv, Or.inr hv, h.shows.apart p hv⟩
  case safe =>
    rw [hcoming]
    exact h.safe
  case waiting =>
    rw [hcoming, ← h.waiting, hprep]
    exact Iff.rfl
  case decrypts => exact List.forall_mem_nil _
  case commands =>
    intro q hq
    rcases List.mem_append.mp hq with hq | hq
    · exact hprep.symm.trans (h.commands q hq)
    · cases List.mem_singleton.mp hq
      rfl
  case player =>
    exact fun q hq => hprep.symm.trans (h.player q hq)
  case codec =>
    have hc := h.codec
    rw [hprep] at hc
    exact hc

/-- The decryption has failed. -/
theorem give_up_decrypted (h : Agrees v s) (hui : s.ui = .select) {p : P} (hp : p ∈ s.decrypts) :
    Agrees ⟨none, v.playing⟩ { s with
      decrypts := [], entries := (set_entry_tag p .STOPPED s.entries).2 } := by
  obtain ⟨-, hno⟩ := h.decrypts_eq hp
  have htag : s.ui.at_tag = false := by rw [hui]; rfl
  have hv : v.preparing = some p := (preparing_eq htag).symm.trans (h.decrypts p hp)
  have hcoming : State.coming { s with
      decrypts := [], entries := (set_entry_tag p .STOPPED s.entries).2 } =
        s.outbox.map Message.mark ++ s.player.marks ++ s.ui_to_player.flatMap Command.marks := by
    unfold State.coming
    simp [State.outbox, State.written]
  have hnone : State.preparing ⟨none, v.playing⟩ { s with
      decrypts := [], entries := (set_entry_tag p .STOPPED s.entries).2 } = none :=
    preparing_eq htag
  have hstops : .play ∉ s.outbox.map Message.mark := fun hm =>
    hno (List.mem_append_left _ (List.mem_append_left _ hm))
  constructor
  case shows => exact h.shows.give_up hv
  case space =>
    simp [hui]
  case start =>
    simp [hui]
  case tag =>
    simp [hui]
  case safe =>
    rw [hcoming]
    exact Safe.of_not_mem hno
  case waiting =>
    rw [hnone, hcoming]
    exact ⟨nofun, fun hm => absurd hm hno⟩
  case decrypts => exact nofun
  case commands =>
    intro q hq
    exact absurd (hcoming ▸ mem_coming_of_command hq) hno
  case player =>
    intro q hq
    exact absurd (hcoming ▸ mem_coming_of_player hq) hno
  case codec =>
    rw [hnone]
    change (s.outbox.foldl shown_after _).playing = s.codec
    rw [← h.codec]
    exact foldl_stops_playing hstops rfl

theorem result (h : Agrees v s) (hui : s.ui = .select) {p : P} (hp : p ∈ s.decrypts) (ok : Bool) :
    ∃ v', Agrees v' (s.result_step p ok) := by
  have herase : s.decrypts.erase p = [] := by
    rw [(h.decrypts_eq hp).1]
    simp
  unfold State.result_step
  rw [herase]
  cases ok with
  | true => exact ⟨_, h.send_decrypted hui hp⟩
  | false => exact ⟨_, h.give_up_decrypted hui hp⟩

end Agrees

/-! ## The runs -/

theorem Agrees.next {v : Shown P} {s : State P} (h : Agrees v s) {a : Action P}
    (he : s.Enabled a) (ho : InTime s a) : ∃ v', Agrees v' (s.next a) := by
  cases a with
  | scan memory =>
    refine ⟨v, h.scan ?_ ho⟩
    rcases he with hui | ⟨hui, -⟩ <;> rw [hui] <;> rfl
  | message =>
    obtain ⟨hui, hne⟩ := he
    obtain ⟨m, ms, hm⟩ := List.exists_cons_of_ne_nil hne
    refine ⟨shown_after v m, ?_⟩
    unfold State.next
    rw [hm]
    exact h.message hui hm
  | space p =>
    obtain ⟨hui, hp⟩ := he
    refine ⟨v, h.goto (by rw [hui]; rfl) rfl ?_ nofun⟩
    rintro q hq
    cases hq
    exact hp
  | volume delta => exact ⟨v, h.volume delta⟩
  | rewrite => exact ⟨v, h.of_coming rfl rfl rfl rfl h.commands h.player h.codec⟩
  | failure => exact ⟨v, h.of_coming rfl rfl rfl rfl h.commands h.player h.codec⟩
  | decide =>
    unfold State.next
    cases hui : s.ui with
    | space p => exact ⟨v, h.decide hui⟩
    | _ => exact ⟨v, h⟩
  | start is_encrypted ok =>
    unfold State.next
    cases hui : s.ui with
    | start p => exact ⟨v, h.start_play hui is_encrypted ok⟩
    | _ => exact ⟨v, h⟩
  | tag =>
    unfold State.next
    cases hui : s.ui with
    | tag p => exact ⟨_, h.tag_entry hui⟩
    | _ => exact ⟨v, h⟩
  | result p ok => exact h.result he.1 he.2 ok
  | player ok => exact ⟨v, h.player_step he.1 ok⟩
  | complete => exact ⟨v, h.complete he.1 he.2 ho⟩
  | completed => exact ⟨v, h.completed he⟩

theorem agrees_of_run {d : Directory P} {tr : List (State P × Action P)} {s : State P}
    (h : Run (system P) InTime (.initial d) tr s) : ∃ v, Agrees v s := by
  apply h.inv (I := fun s => ∃ v, Agrees v s) ⟨_, agrees_initial d⟩
  rintro s a ⟨v, hv⟩ he ho
  exact hv.next he ho

/-- In a run in which each scan finds the tags as they were, and no track is over before the
reply that says that it plays. -/
theorem tags_are_right {d : Directory P} {tr : List (State P × Action P)} {s : State P}
    (h : Run (system P) InTime (.initial d) tr s) : Along (fun _ s => TagsRight s) tr s := by
  apply h.along
  intro tr s hr
  obtain ⟨v, hv⟩ := agrees_of_run hr
  have hcodec : Quiet s → v.playing = s.codec := by
    rintro ⟨-, -, hp, hq, hh⟩
    have hc := hv.codec
    unfold State.outbox State.written at hc
    simpa [hp, hq, hh, PlayerStep.message] using hc
  refine ⟨hv.shows.count_preparing, ?_, ?_⟩
  · intro hquiet e he
    rw [← hcodec hquiet]
    exact hv.shows.tag_eq_playing he
  · intro hquiet p hp
    rw [← hcodec hquiet] at hp
    exact hv.shows.playing p hp

/-- Two files. -/
def two_files : Directory ℕ := ⟨[0, 1], by decide⟩

/-- The first file is selected and sent to the player, which reads it and starts it. -/
def play_first : List (Action ℕ) :=
  [.scan fun _ => .STOPPED, .space 0, .decide, .start false true, .tag] ++
    List.replicate 3 (.player true)

/-- The first file plays, another one is rewritten, and then the second file is decrypted and
played. -/
def play_both : List (Action ℕ) :=
  play_first ++ [.player true, .message, .rewrite,
      .scan fun p => if p = 0 then .PLAYING else .STOPPED, .space 1, .decide, .start true true,
      .tag] ++
    List.replicate 3 (.player true) ++ [.message, .result 1 true, .tag] ++
    List.replicate 4 (.player true) ++ [.message]

theorem tags_of_both_are_right :
    ((system ℕ).after (.initial two_files) play_both).codec = some 1 ∧
      ((system ℕ).after (.initial two_files) play_both).entries =
        [⟨0, .STOPPED⟩, ⟨1, .PLAYING⟩] ∧
      Along (fun _ s => TagsRight s) ((system ℕ).trace (.initial two_files) play_both)
        ((system ℕ).after (.initial two_files) play_both) :=
  ⟨by decide, by decide, tags_are_right (System.run_of_enables (by decide) (by decide))⟩

/-- The scan after a rewrite finds other tags in the memory. -/
def scanned : List (Action ℕ) :=
  play_first ++ [.player true, .message, .rewrite, .scan fun _ => .STOPPED]

/-- The track is over before the reply that says that it plays. -/
def overtaken : List (Action ℕ) :=
  play_first ++ [.complete, .completed, .player true, .message, .message]

/-- A scan leaves the entry that plays without its tag, and a track that is over before the
reply leaves the tag of an entry that does not play. -/
theorem some_tags_are_not_right :
    (Run (system ℕ) (fun _ _ => True) (.initial two_files)
        ((system ℕ).trace (.initial two_files) scanned)
        ((system ℕ).after (.initial two_files) scanned) ∧
      ¬ TagsRight ((system ℕ).after (.initial two_files) scanned)) ∧
    (Run (system ℕ) (fun _ _ => True) (.initial two_files)
        ((system ℕ).trace (.initial two_files) overtaken)
        ((system ℕ).after (.initial two_files) overtaken) ∧
      ¬ TagsRight ((system ℕ).after (.initial two_files) overtaken)) := by
  refine ⟨⟨System.run_of_enables (by decide) (by decide), fun h => ?_⟩,
    ⟨System.run_of_enables (by decide) (by decide), fun h => ?_⟩⟩
  · have hquiet : Quiet ((system ℕ).after (.initial two_files) scanned) :=
      ⟨rfl, rfl, rfl, rfl, rfl⟩
    have hplays := h.playing hquiet ⟨0, .STOPPED⟩ (by decide)
    exact absurd (hplays.mpr (by decide)) (by decide)
  · have hquiet : Quiet ((system ℕ).after (.initial two_files) overtaken) :=
      ⟨rfl, rfl, rfl, rfl, rfl⟩
    have hplays := h.playing hquiet ⟨0, .PLAYING⟩ (by decide)
    exact absurd (hplays.mp rfl) (by decide)

end player_thread
