-- The UI and the player. The UI tags the entry that it has sent to the player,
-- and changes the tags by what comes back: the replies of the player, and a
-- message of the handler that runs on top of the player when a track is over.
import AesMusicPlayer.DirectoryTags
import AesMusicPlayer.Traces

open traces directory_navigator

namespace player_thread

/-! ## The state -/

/-- What the UI sends. A `PLAY` comes with the content of a file. -/
inductive Command (P : Type*)
  | PLAY (path : P)
  | STOP
  | VOLUME (delta : Int)
  deriving DecidableEq

inductive Result
  | SUCCESS | FAILURE
  deriving DecidableEq, Repr

/-- What the UI is sent. -/
inductive Message
  | PLAY (result : Result)
  | STOP
  deriving DecidableEq, Repr

/-- Where the UI is: before its first scan, at its `select`, or at an entry with a key press or
a result. In `tag` the entry is still to be tagged. -/
inductive UiStep (P : Type*)
  | opening
  | select
  | space (path : P)
  | start (path : P)
  | tag (path : P)
  deriving DecidableEq

namespace UiStep

variable {P : Type*}

def at_space : UiStep P → Bool
  | .space _ => true
  | _ => false

def at_start : UiStep P → Bool
  | .start _ => true
  | _ => false

def at_tag : UiStep P → Bool
  | .tag _ => true
  | _ => false

end UiStep

/-- Where the player is: at its `select`, before the `stop` of a command, before the `play`, or
before the write of a reply. -/
inductive PlayerStep (P : Type*)
  | select
  | play (path : P)
  | load (path : P)
  | stop
  | reply (m : Message)
  deriving DecidableEq

structure State (P : Type*) where
  entries : List (Entry P)
  ui : UiStep P
  ui_to_player : List (Command P)
  player : PlayerStep P
  player_to_ui : List Message
  /-- the codec is busy, with the content of this file -/
  codec : Option P
  /-- the handler has set the codec idle, and is still to write -/
  handler : Bool
  /-- the workers of `DECRYPT_INTO` -/
  decrypts : List P
  /-- how many workers of `ENCRYPT` and `DECRYPT` there are -/
  rewrites : ℕ

/-- The files of a directory have different paths. -/
structure Directory (P : Type*) where
  paths : List P
  nodup : paths.Nodup

variable {P : Type*}

def State.initial (d : Directory P) : State P :=
  ⟨d.paths.map fun p => ⟨p, .STOPPED⟩, .opening, [], .select, [], none, false, [], 0⟩

/-- The steps of the UI: a scan of the directory, first and after a rewritten file, the message
of the player, the keys, what follows a key, the failure of a rewrite, and the result of a
decryption. Then the step of the player, the end of a track, and the write of the handler. -/
inductive Action (P : Type*)
  | scan (memory : P → FileStatus)
  | message
  | space (path : P)
  | volume (delta : Int)
  | rewrite
  | failure
  | decide
  | start (is_encrypted ok : Bool)
  | tag
  | result (path : P) (ok : Bool)
  | player (ok : Bool)
  | complete
  | completed

/-! ## The steps -/

variable [DecidableEq P]

def handle : Message → List (Entry P) → List (Entry P)
  | .PLAY .SUCCESS => change_tags .PREPARING .PLAYING
  | .PLAY .FAILURE => change_tags .PREPARING .STOPPED
  | .STOP => change_tags .PLAYING .STOPPED

namespace State

def send (c : Command P) (s : State P) : State P :=
  { s with ui_to_player := s.ui_to_player ++ [c] }

/-- A space on the selected entry. -/
def space_step (path : P) (s : State P) : State P :=
  if tag_of path s.entries = some .PLAYING then { s.send .STOP with ui := .select }
  else if has_any_tag .PREPARING s.entries then { s with ui := .select }
  else if has_any_tag .PLAYING s.entries then { s.send .STOP with ui := .start path }
  else { s with ui := .start path }

def ui_start (path : P) (is_encrypted ok : Bool) (s : State P) : State P :=
  if ok then
    if is_encrypted then { s with decrypts := path :: s.decrypts, ui := .tag path }
    else { s.send (.PLAY path) with ui := .tag path }
  else { s with ui := .select }

def result_step (path : P) (ok : Bool) (s : State P) : State P :=
  let s' := { s with decrypts := s.decrypts.erase path }
  if ok then { s'.send (.PLAY path) with ui := .tag path }
  else { s' with entries := (set_entry_tag path .STOPPED s.entries).2 }

def player_step (ok : Bool) (s : State P) : State P :=
  match s.player with
  | .select =>
    match s.ui_to_player with
    | .PLAY path :: cs => { s with ui_to_player := cs, player := .play path }
    | .STOP :: cs => { s with ui_to_player := cs, player := .stop }
    | .VOLUME _ :: cs => { s with ui_to_player := cs }
    | [] => s
  | .play path => { s with codec := none, player := .load path }
  | .load path =>
    if ok then { s with codec := some path, player := .reply (.PLAY .SUCCESS) }
    else { s with player := .reply (.PLAY .FAILURE) }
  | .stop => { s with codec := none, player := .reply .STOP }
  | .reply m => { s with player_to_ui := s.player_to_ui ++ [m], player := .select }

def next (s : State P) : Action P → State P
  | .scan memory =>
    { s with
      entries := open_directory memory s.entries, ui := .select, rewrites := s.rewrites - 1 }
  | .message =>
    match s.player_to_ui with
    | m :: ms => { s with player_to_ui := ms, entries := handle m s.entries }
    | [] => s
  | .space path => { s with ui := .space path }
  | .volume delta => s.send (.VOLUME delta)
  | .rewrite => { s with rewrites := s.rewrites + 1 }
  | .failure => { s with rewrites := s.rewrites - 1 }
  | .decide =>
    match s.ui with
    | .space path => s.space_step path
    | _ => s
  | .start is_encrypted ok =>
    match s.ui with
    | .start path => s.ui_start path is_encrypted ok
    | _ => s
  | .tag =>
    match s.ui with
    | .tag path =>
      { s with entries := (set_entry_tag path .PREPARING s.entries).2, ui := .select }
    | _ => s
  | .result path ok => s.result_step path ok
  | .player ok => s.player_step ok
  | .complete => { s with codec := none, handler := true }
  | .completed => { s with player_to_ui := s.player_to_ui ++ [.STOP], handler := false }

/-- The player does nothing below its handler. A track is over when the codec is busy with it. -/
def Enabled (s : State P) : Action P → Prop
  | .scan _ => s.ui = .opening ∨ s.ui = .select ∧ 0 < s.rewrites
  | .message => s.ui = .select ∧ s.player_to_ui ≠ []
  | .space path => s.ui = .select ∧ path ∈ s.entries.map Entry.path
  | .volume _ | .rewrite => s.ui = .select
  | .failure => s.ui = .select ∧ 0 < s.rewrites
  | .decide => s.ui.at_space = true
  | .start _ _ => s.ui.at_start = true
  | .tag => s.ui.at_tag = true
  | .result path _ => s.ui = .select ∧ path ∈ s.decrypts
  | .player _ => s.handler = false ∧ (s.player = .select → s.ui_to_player ≠ [])
  | .complete => s.handler = false ∧ s.codec ≠ none
  | .completed => s.handler = true

instance (s : State P) (a : Action P) : Decidable (s.Enabled a) := by
  cases a <;> unfold Enabled <;> exact inferInstance

end State

def system (P : Type*) [DecidableEq P] : System (State P) (Action P) :=
  ⟨State.next, State.Enabled⟩

instance (s : State P) (a : Action P) : Decidable ((system P).Enabled s a) :=
  inferInstanceAs (Decidable (s.Enabled a))

/-! ## What the tags are to show -/

/-- Both pipes are empty, and nobody is in the middle of something. -/
structure Quiet (s : State P) : Prop where
  ui : s.ui = .select
  ui_to_player : s.ui_to_player = []
  player : s.player = .select
  player_to_ui : s.player_to_ui = []
  handler : s.handler = false

structure TagsRight (s : State P) : Prop where
  preparing : s.entries.countP (fun e => e.tag = .PREPARING) ≤ 1
  playing : Quiet s → ∀ e ∈ s.entries, e.tag = .PLAYING ↔ s.codec = some e.path
  codec : Quiet s → ∀ p, s.codec = some p → p ∈ s.entries.map Entry.path

/-- A scan finds the tags in the memory as they were, and no track is over before the reply that
says that it plays. -/
def InTime (s : State P) : Action P → Prop
  | .scan memory => ∀ e ∈ s.entries, memory e.path = e.tag
  | .complete => s.player ≠ .reply (.PLAY .SUCCESS)
  | _ => True

instance (s : State P) (a : Action P) : Decidable (InTime s a) := by
  cases a <;> unfold InTime <;> exact inferInstance

end player_thread
