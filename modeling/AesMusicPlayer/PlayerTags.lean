-- The tags of the UI and the codec. What the UI shows, changed by all the
-- messages on their way to it, is what the codec does. A track is only started
-- when everything that plays is told to stop before it.
import AesMusicPlayer.PlayerMessages

open traces directory_navigator

namespace player_thread

variable {P : Type*}

/-! ## What is on its way -/

/-- Something starts to play, or is stopped. -/
inductive Mark
  | play | stop
  deriving DecidableEq, Repr

/-- At most one start is coming, and nothing plays any more when it comes. -/
def Safe : Bool → List Mark → Prop
  | _, [] => True
  | _, .stop :: l => Safe false l
  | b, .play :: l => b = false ∧ .play ∉ l

namespace Safe

variable {b : Bool} {l xs ys : List Mark}

theorem mono (h : Safe b l) : Safe false l := by
  cases l with
  | nil => trivial
  | cons m l =>
    cases m with
    | play => exact ⟨rfl, h.2⟩
    | stop => exact h

theorem of_not_mem (h : .play ∉ l) : Safe b l := by
  induction l generalizing b with
  | nil => trivial
  | cons m l ih =>
    have htail : .play ∉ l := fun hm => h (List.mem_cons_of_mem _ hm)
    cases m with
    | play => exact absurd List.mem_cons_self h
    | stop => exact ih htail

theorem insert_stop (h : Safe b (xs ++ ys)) : Safe b (xs ++ .stop :: ys) := by
  induction xs generalizing b with
  | nil => exact h.mono
  | cons m xs ih =>
    cases m with
    | play =>
      have hrest : .play ∉ xs ++ ys := h.2
      refine ⟨h.1, fun hm => hrest ?_⟩
      rcases List.mem_append.mp hm with hm | hm
      · exact List.mem_append_left ys hm
      · exact List.mem_append_right xs ((List.mem_cons.mp hm).resolve_left nofun)
    | stop => exact ih h

theorem append_play (hp : .play ∉ l) (hb : b = false ∨ .stop ∈ l) : Safe b (l ++ [.play]) := by
  induction l generalizing b with
  | nil => exact ⟨hb.resolve_right List.not_mem_nil, List.not_mem_nil⟩
  | cons m l ih =>
    have htail : .play ∉ l := fun hm => hp (List.mem_cons_of_mem _ hm)
    cases m with
    | play => exact absurd List.mem_cons_self hp
    | stop => exact ih htail (Or.inl rfl)

/-- There is one start at most. -/
theorem once (h : Safe b (xs ++ .play :: ys)) : .play ∉ xs ∧ .play ∉ ys := by
  induction xs generalizing b with
  | nil => exact ⟨List.not_mem_nil, h.2⟩
  | cons m xs ih =>
    cases m with
    | play => exact absurd (List.mem_append_right xs List.mem_cons_self) h.2
    | stop =>
      obtain ⟨hx, hy⟩ := ih h
      exact ⟨fun hm => hx ((List.mem_cons.mp hm).resolve_left nofun), hy⟩

theorem stopped (h : Safe b (.play :: l)) : b = false := h.1

end Safe

def Message.mark : Message → Mark
  | .PLAY _ => .play
  | .STOP => .stop

def Command.marks : Command P → List Mark
  | .PLAY _ => [.play]
  | .STOP => [.stop]
  | .VOLUME _ => []

/-- The command that the player has read and not yet replied to. -/
def PlayerStep.marks : PlayerStep P → List Mark
  | .play _ | .load _ => [.play]
  | .stop => [.stop]
  | _ => []

def PlayerStep.message : PlayerStep P → List Message
  | .reply m => [m]
  | _ => []

namespace State

/-- The messages to the UI, with the one that the handler is still to write. -/
def written (s : State P) : List Message :=
  s.player_to_ui ++ if s.handler then [.STOP] else []

/-- The messages to the UI, with those that are still to be written. -/
def outbox (s : State P) : List Message := s.written ++ s.player.message

/-- All that the UI is still to be told, in the order in which it will be told. -/
def coming (s : State P) : List Mark :=
  s.outbox.map Message.mark ++ s.player.marks ++ s.ui_to_player.flatMap Command.marks ++
    s.decrypts.map fun _ => .play

/-- The entry in preparation, also when it is still to be tagged. -/
def preparing (v : Shown P) (s : State P) : Option P :=
  match s.ui with
  | .tag p => some p
  | _ => v.preparing

end State

/-- A start that is coming is seen in what is coming. -/
theorem mem_coming_of_decrypts {s : State P} {p : P} (hp : p ∈ s.decrypts) : .play ∈ s.coming :=
  List.mem_append_right _ (List.mem_map.mpr ⟨p, hp, rfl⟩)

theorem mem_coming_of_command {s : State P} {p : P} (hp : .PLAY p ∈ s.ui_to_player) : .play ∈ s.coming :=
  List.mem_append_left _
    (List.mem_append_right _ (List.mem_flatMap.mpr ⟨_, hp, List.mem_singleton_self _⟩))

theorem mem_coming_of_player {s : State P} {p : P} (hp : s.player = .play p ∨ s.player = .load p) :
    .play ∈ s.coming := by
  refine List.mem_append_left _ (List.mem_append_left _ (List.mem_append_right _ ?_))
  rcases hp with hp | hp <;> rw [hp] <;> exact List.mem_singleton_self _

/-- The player passes on what it reads. -/
theorem coming_player {s : State P} (hh : s.handler = false) (ok : Bool) :
    (s.player_step ok).coming = s.coming := by
  unfold State.player_step State.coming State.outbox State.written
  cases hp : s.player with
  | select =>
    cases hq : s.ui_to_player with
    | nil => simp [hh, hp, hq]
    | cons c cs => cases c <;> simp [hh, PlayerStep.message, PlayerStep.marks, Command.marks]
  | play p => simp [hh, PlayerStep.message, PlayerStep.marks]
  | load p => cases ok <;> simp [hh, PlayerStep.message, PlayerStep.marks, Message.mark]
  | stop => simp [hh, PlayerStep.message, PlayerStep.marks, Message.mark]
  | reply m => simp [hh, PlayerStep.message, PlayerStep.marks]

theorem preparing_congr {v : Shown P} {s s' : State P} (hui : s'.ui = s.ui) : s'.preparing v = s.preparing v := by
  unfold State.preparing
  rw [hui]

/-! ## What the messages do to what is shown -/

def shown_after (v : Shown P) : Message → Shown P
  | .PLAY .SUCCESS => ⟨none, v.preparing⟩
  | .PLAY .FAILURE => ⟨none, v.playing⟩
  | .STOP => ⟨v.preparing, none⟩

/-- Messages without a start only stop. -/
theorem foldl_stops {ms : List Message} (h : .play ∉ ms.map Message.mark) (v : Shown P) :
    ms.foldl shown_after v = if ms = [] then v else ⟨v.preparing, none⟩ := by
  induction ms generalizing v with
  | nil => rfl
  | cons m ms ih =>
    rw [List.map_cons, List.mem_cons, not_or] at h
    rw [List.foldl_cons, ih h.2, if_neg (List.cons_ne_nil m ms)]
    cases m with
    | PLAY r => exact absurd rfl h.1
    | STOP =>
      unfold shown_after
      split <;> rfl

/-- What they leave playing does not depend on what is in preparation. -/
theorem foldl_stops_playing {ms : List Message} (h : .play ∉ ms.map Message.mark) {v w : Shown P}
    (hvw : v.playing = w.playing) :
    (ms.foldl shown_after v).playing = (ms.foldl shown_after w).playing := by
  rw [foldl_stops h, foldl_stops h]
  split
  · exact hvw
  · rfl

/-- When a start comes next, nothing is shown to play any more. -/
theorem foldl_before_play {ms : List Message} {v : Shown P} {l : List Mark}
    (h : Safe v.playing.isSome (ms.map Message.mark ++ .play :: l)) :
    ms.foldl shown_after v = ⟨v.preparing, none⟩ := by
  rw [foldl_stops h.once.1]
  split
  · next hnil =>
    subst hnil
    have hnone : v.playing = none := by simpa using h.stopped
    rw [← hnone]
  · rfl

variable [DecidableEq P]

theorem shows_handle {es : List (Entry P)} {v : Shown P} {m : Message} {l : List Mark}
    (h : Shows es v) (hs : Safe v.playing.isSome (m.mark :: l)) :
    Shows (handle m es) (shown_after v m) := by
  cases m with
  | PLAY r =>
    have hnone : v.playing = none := by simpa using hs.stopped
    cases r with
    | SUCCESS => exact h.start_playing hnone
    | FAILURE => exact h.fail_preparing
  | STOP => exact h.stop_playing

/-! ## The invariant -/

/-- The tags show `v`, and `v` after all the messages has the codec. An entry is in preparation
when a start is coming, and then the start is of this entry. -/
structure Agrees (v : Shown P) (s : State P) : Prop where
  shows : Shows s.entries v
  space : ∀ p, s.ui = .space p → p ∈ s.entries.map Entry.path
  start : ∀ p, s.ui = .start p → p ∈ s.entries.map Entry.path ∧ v.preparing = none ∧
    v.playing ≠ some p ∧ (v.playing = none ∨ .stop ∈ s.coming)
  tag : ∀ p, s.ui = .tag p → p ∈ s.entries.map Entry.path ∧
    (v.preparing = none ∨ v.preparing = some p) ∧ v.playing ≠ some p
  safe : Safe v.playing.isSome s.coming
  waiting : (s.preparing v).isSome = true ↔ .play ∈ s.coming
  decrypts : ∀ p ∈ s.decrypts, s.preparing v = some p
  commands : ∀ p, .PLAY p ∈ s.ui_to_player → s.preparing v = some p
  player : ∀ p, s.player = .play p ∨ s.player = .load p → s.preparing v = some p
  codec : (s.outbox.foldl shown_after ⟨s.preparing v, v.playing⟩).playing = s.codec

theorem agrees_initial (d : Directory P) : Agrees ⟨none, none⟩ (.initial d) := by
  refine ⟨⟨?_, ?_, nofun, nofun, nofun⟩, nofun, nofun, nofun, trivial, ?_, nofun, nofun, ?_, rfl⟩
  · unfold State.initial
    rw [List.map_map]
    exact (List.map_id d.paths).symm ▸ d.nodup
  · intro e he
    obtain ⟨p, -, rfl⟩ := List.mem_map.mp he
    rfl
  · exact ⟨nofun, nofun⟩
  · rintro p (h | h) <;> cases h

namespace Agrees

variable {v : Shown P} {s : State P}

/-- What is coming stays as it is, and so does what is shown. -/
theorem of_coming {s' : State P} (h : Agrees v s) (hentries : s'.entries = s.entries)
    (hui : s'.ui = s.ui) (hdecrypts : s'.decrypts = s.decrypts) (hcoming : s'.coming = s.coming)
    (hcommands : ∀ p, .PLAY p ∈ s'.ui_to_player → s.preparing v = some p)
    (hplayer : ∀ p, s'.player = .play p ∨ s'.player = .load p → s.preparing v = some p)
    (hcodec : (s'.outbox.foldl shown_after ⟨s.preparing v, v.playing⟩).playing = s'.codec) :
    Agrees v s' := by
  have hprep := preparing_congr (v := v) hui
  constructor
  case shows =>
    rw [hentries]
    exact h.shows
  case space =>
    rw [hentries, hui]
    exact h.space
  case start =>
    rw [hentries, hui, hcoming]
    exact h.start
  case tag =>
    rw [hentries, hui]
    exact h.tag
  case safe =>
    rw [hcoming]
    exact h.safe
  case waiting =>
    rw [hprep, hcoming]
    exact h.waiting
  case decrypts =>
    rw [hprep, hdecrypts]
    exact h.decrypts
  case commands =>
    rw [hprep]
    exact hcommands
  case player =>
    rw [hprep]
    exact hplayer
  case codec =>
    rw [hprep]
    exact hcodec

/-- One more stop is coming. -/
theorem insert_stop {s' : State P} (h : Agrees v s) {xs ys : List Mark}
    (hold : s.coming = xs ++ ys) (hnew : s'.coming = xs ++ .stop :: ys)
    (hentries : s'.entries = s.entries) (hui : s'.ui = s.ui) (hdecrypts : s'.decrypts = s.decrypts)
    (hplayer : s'.player = s.player)
    (hcommands : ∀ p, .PLAY p ∈ s'.ui_to_player → .PLAY p ∈ s.ui_to_player)
    (hcodec : (s'.outbox.foldl shown_after ⟨s.preparing v, v.playing⟩).playing = s'.codec) :
    Agrees v s' := by
  have hprep := preparing_congr (v := v) hui
  constructor
  case shows =>
    rw [hentries]
    exact h.shows
  case space =>
    rw [hentries, hui]
    exact h.space
  case start =>
    rw [hentries, hui, hnew]
    intro p hp
    obtain ⟨h1, h2, h3, -⟩ := h.start p hp
    exact ⟨h1, h2, h3, Or.inr (List.mem_append_right xs List.mem_cons_self)⟩
  case tag =>
    rw [hentries, hui]
    exact h.tag
  case safe =>
    rw [hnew]
    exact Safe.insert_stop (hold ▸ h.safe)
  case waiting =>
    rw [hprep, h.waiting, hold, hnew]
    simp
  case decrypts =>
    rw [hprep, hdecrypts]
    exact h.decrypts
  case commands =>
    rw [hprep]
    exact fun p hp => h.commands p (hcommands p hp)
  case player =>
    rw [hprep, hplayer]
    exact h.player
  case codec =>
    rw [hprep]
    exact hcodec

/-- What has been told to the UI before a start. -/
theorem outbox_before_play (h : Agrees v s) (hp : .play ∈ s.player.marks) :
    s.outbox.foldl shown_after ⟨s.preparing v, v.playing⟩ = ⟨s.preparing v, none⟩ := by
  have hmarks : s.player.marks = [.play] := by
    cases hpl : s.player <;> simp_all [PlayerStep.marks]
  have hsafe := h.safe
  unfold State.coming at hsafe
  rw [hmarks, List.append_assoc, List.append_assoc, List.singleton_append] at hsafe
  exact foldl_before_play hsafe

theorem player_step (h : Agrees v s) (hh : s.handler = false) (ok : Bool) :
    Agrees v (s.player_step ok) := by
  have hcoming := coming_player hh ok
  have hcodec := h.codec
  have hbefore := h.outbox_before_play
  unfold State.player_step at hcoming ⊢
  unfold State.outbox at hcodec hbefore
  cases hp : s.player with
  | select =>
    rw [hp] at hcoming hcodec
    dsimp only at hcoming ⊢
    cases hq : s.ui_to_player with
    | nil => exact h
    | cons c cs =>
      have hcommands : ∀ p, .PLAY p ∈ cs → s.preparing v = some p := fun p hm =>
        h.commands p (hq ▸ List.mem_cons_of_mem c hm)
      rw [hq] at hcoming
      cases c with
      | PLAY path =>
        refine h.of_coming rfl rfl rfl hcoming hcommands ?_ hcodec
        rintro p (hpl | hpl) <;> cases hpl
        exact h.commands path (hq ▸ List.mem_cons_self)
      | STOP =>
        refine h.of_coming rfl rfl rfl hcoming hcommands ?_ hcodec
        rintro p (hpl | hpl) <;> cases hpl
      | VOLUME delta =>
        refine h.of_coming rfl rfl rfl hcoming hcommands ?_ hcodec
        rintro p (hpl | hpl) <;> cases hpl
  | play path =>
    rw [hp] at hcoming hbefore
    have hpath := h.player path (Or.inl hp)
    refine h.of_coming rfl rfl rfl hcoming h.commands ?_ ?_
    · rintro p (hpl | hpl) <;> cases hpl
      exact hpath
    · exact congrArg Shown.playing (hbefore List.mem_cons_self)
  | load path =>
    rw [hp] at hcoming hbefore hcodec
    have hpath := h.player path (Or.inr hp)
    have hfold : s.written.foldl shown_after ⟨s.preparing v, v.playing⟩ =
        ⟨s.preparing v, none⟩ := by
      rw [← hbefore List.mem_cons_self]
      simp [PlayerStep.message]
    have hidle : s.codec = none := by
      rw [← hcodec, hbefore List.mem_cons_self]
    cases ok with
    | true =>
      refine h.of_coming rfl rfl rfl hcoming h.commands ?_ ?_
      · rintro p (hpl | hpl) <;> cases hpl
      · change ((s.written ++ [Message.PLAY .SUCCESS]).foldl shown_after _).playing = some path
        rw [List.foldl_append, hfold]
        exact hpath
    | false =>
      refine h.of_coming rfl rfl rfl hcoming h.commands ?_ ?_
      · rintro p (hpl | hpl) <;> cases hpl
      · change ((s.written ++ [Message.PLAY .FAILURE]).foldl shown_after _).playing = s.codec
        rw [List.foldl_append, hfold, hidle]
        rfl
  | stop =>
    rw [hp] at hcoming
    refine h.of_coming rfl rfl rfl hcoming h.commands ?_ ?_
    · rintro p (hpl | hpl) <;> cases hpl
    · change ((s.written ++ [Message.STOP]).foldl shown_after _).playing = none
      rw [List.foldl_append]
      rfl
  | reply m =>
    rw [hp] at hcoming hcodec
    refine h.of_coming rfl rfl rfl hcoming h.commands ?_ ?_
    · rintro p (hpl | hpl) <;> cases hpl
    · rw [← hcodec]
      unfold State.outbox State.written
      simp [hh, PlayerStep.message]

/-! ## The end of a track -/

theorem message_of_busy (h : Agrees v s) (hh : s.handler = false) (hbusy : s.codec ≠ none)
    (hp : s.player ≠ .reply (.PLAY .SUCCESS)) : s.player.message = [] := by
  have hcodec := h.codec
  have hsafe := h.safe
  unfold State.outbox State.written at hcodec
  unfold State.coming State.outbox State.written at hsafe
  cases hpl : s.player with
  | reply m =>
    exfalso
    apply hbusy
    rw [hpl] at hp
    rw [← hcodec]
    simp only [hh, hpl, PlayerStep.message, Bool.false_eq_true, if_false, List.append_nil,
      List.foldl_append, List.foldl_cons, List.foldl_nil]
    cases m with
    | STOP => rfl
    | PLAY r =>
      cases r with
      | SUCCESS => exact absurd rfl hp
      | FAILURE =>
        simp only [hh, hpl, PlayerStep.message, Bool.false_eq_true, if_false, List.append_nil,
          List.map_append, List.map_cons, List.append_assoc, List.cons_append] at hsafe
        rw [foldl_before_play (v := ⟨s.preparing v, v.playing⟩) hsafe]
        rfl
  | _ => rfl

/-- The codec is idle, and the handler is to say so. -/
theorem complete (h : Agrees v s) (hh : s.handler = false) (hbusy : s.codec ≠ none)
    (hp : s.player ≠ .reply (.PLAY .SUCCESS)) :
    Agrees v { s with codec := none, handler := true } := by
  have hmessage := h.message_of_busy hh hbusy hp
  have hold : s.coming = s.player_to_ui.map Message.mark ++ (s.player.marks ++
      s.ui_to_player.flatMap Command.marks ++ s.decrypts.map fun _ => .play) := by
    unfold State.coming State.outbox State.written
    simp [hh, hmessage]
  have hnew : State.coming { s with codec := none, handler := true } =
      s.player_to_ui.map Message.mark ++ .stop :: (s.player.marks ++
        s.ui_to_player.flatMap Command.marks ++ s.decrypts.map fun _ => .play) := by
    unfold State.coming State.outbox State.written
    simp [hmessage, Message.mark]
  refine h.insert_stop hold hnew rfl rfl rfl rfl (fun _ hp => hp) ?_
  change ((s.player_to_ui ++ [Message.STOP] ++ s.player.message).foldl shown_after _).playing = none
  rw [hmessage, List.append_nil, List.foldl_append]
  rfl

theorem completed (h : Agrees v s) (hh : s.handler = true) :
    Agrees v { s with player_to_ui := s.player_to_ui ++ [.STOP], handler := false } := by
  have hwritten : State.written
      { s with player_to_ui := s.player_to_ui ++ [.STOP], handler := false } = s.written := by
    unfold State.written
    simp [hh]
  have houtbox : State.outbox
      { s with player_to_ui := s.player_to_ui ++ [.STOP], handler := false } = s.outbox := by
    unfold State.outbox
    rw [hwritten]
  refine h.of_coming rfl rfl rfl ?_ h.commands h.player ?_
  · unfold State.coming
    rw [houtbox]
  · rw [houtbox]
    exact h.codec

/-! ## The UI is told something -/

theorem message (h : Agrees v s) (hui : s.ui = .select) {m : Message} {ms : List Message}
    (hm : s.player_to_ui = m :: ms) :
    Agrees (shown_after v m) { s with player_to_ui := ms, entries := handle m s.entries } := by
  have hprep : s.preparing v = v.preparing := by
    unfold State.preparing
    rw [hui]
  have hcoming : s.coming = m.mark ::
      State.coming { s with player_to_ui := ms, entries := handle m s.entries } := by
    unfold State.coming State.outbox State.written
    simp [hm]
  have hsafe := h.safe
  have hwaiting := h.waiting
  have hcodec := h.codec
  rw [hcoming] at hsafe hwaiting
  rw [hprep] at hwaiting hcodec
  have houtbox : s.outbox = m ::
      State.outbox { s with player_to_ui := ms, entries := handle m s.entries } := by
    unfold State.outbox State.written
    simp [hm]
  rw [houtbox] at hcodec
  have hprep' : State.preparing (shown_after v m)
      { s with player_to_ui := ms, entries := handle m s.entries } =
        (shown_after v m).preparing := by
    unfold State.preparing
    simp only [hui]
  constructor
  case shows => exact shows_handle h.shows hsafe
  case space =>
    simp [hui]
  case start =>
    simp [hui]
  case tag =>
    simp [hui]
  case safe =>
    cases m with
    | STOP => exact hsafe
    | PLAY r => exact Safe.of_not_mem hsafe.2
  case waiting =>
    rw [hprep']
    cases m with
    | STOP => simpa [shown_after, Message.mark] using hwaiting
    | PLAY r => cases r <;> simpa [shown_after] using hsafe.2
  case decrypts =>
    intro p hp
    rw [hprep']
    cases m with
    | STOP => exact hprep ▸ h.decrypts p hp
    | PLAY r => exact absurd (mem_coming_of_decrypts hp) hsafe.2
  case commands =>
    intro p hp
    rw [hprep']
    cases m with
    | STOP => exact hprep ▸ h.commands p hp
    | PLAY r => exact absurd (mem_coming_of_command hp) hsafe.2
  case player =>
    intro p hp
    rw [hprep']
    cases m with
    | STOP => exact hprep ▸ h.player p hp
    | PLAY r => exact absurd (mem_coming_of_player hp) hsafe.2
  case codec =>
    rw [hprep']
    exact hcodec

end Agrees

end player_thread
