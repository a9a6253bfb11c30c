-- The end of the program. SIGINT closes a pipe, the UI leaves its loop, sends EXIT to the
-- player and closes its ends of the pipes. Who writes to such a pipe after that gets a
-- SIGPIPE, which nothing handles, and the whole process is gone. The player sets up the codec
-- before its loop: this may throw, which nothing catches, or wait for a PLL that never locks.
import AesMusicPlayer.Traces
import Mathlib.Algebra.Ring.Nat

open traces

namespace shutdown

/-! ## The state -/

inductive Command
  | PLAY | STOP | EXIT | VOLUME
  deriving DecidableEq, Repr

/-- Where the UI is once it has read the end of the file: before the write of EXIT, before it closes
the pipes of the workers, or before it closes those of the player. -/
inductive UiStep
  | write_exit | close_workers | close_player | gone
  deriving DecidableEq, Repr

/-- Where the player is: in `codec.init()`, or at a point of its loop. -/
inductive PlayerStep
  | init | select | play | load | stop | reply | gone
  deriving DecidableEq, Repr

/-- How a step of the player ends. Where the devices are in it, it may find the PLL not locked and
read it again, or throw. -/
inductive Outcome
  | done (ok : Bool) | polls | throws
  deriving DecidableEq, Repr

/-- What `main` waits for, and that it has the terminal still to restore. -/
inductive MainStep
  | join_player | join_ui | restore | gone
  deriving DecidableEq, Repr

structure State where
  ui : UiStep
  ui_to_player : List Command
  player : PlayerStep
  /-- the codec is busy -/
  codec : Bool
  /-- the handler of a track that is over is still to write -/
  handler : Bool
  /-- the workers that are still to write their result -/
  workers : ℕ
  main : MainStep
  /-- a SIGPIPE has come, or the abort of an exception that nobody catches -/
  killed : Bool
  deriving DecidableEq, Repr

inductive Action
  | ui
  | player (o : Outcome)
  | complete
  | completed
  | worker
  | main
  deriving DecidableEq, Repr

namespace State

/-! ## The steps -/

def ui_step (s : State) : State :=
  match s.ui with
  | .write_exit => { s with ui_to_player := s.ui_to_player ++ [.EXIT], ui := .close_workers }
  | .close_workers => { s with ui := .close_player }
  | .close_player => { s with ui := .gone }
  | .gone => s

/-- A write to the pipe from the player to the UI. -/
def write_to_ui (s : State) : State := { s with killed := s.ui == .gone }

def player_step (o : Outcome) (s : State) : State :=
  match s.player with
  | .init =>
    match o with
    | .done _ => { s with player := .select }
    | .polls => s
    | .throws => { s with player := .gone, killed := true }
  | .select =>
    match s.ui_to_player with
    | .PLAY :: cs => { s with ui_to_player := cs, player := .play }
    | .STOP :: cs => { s with ui_to_player := cs, player := .stop }
    | .VOLUME :: cs => { s with ui_to_player := cs }
    | .EXIT :: cs => { s with ui_to_player := cs, codec := false, player := .gone }
    | [] => s
  | .play => { s with codec := false, player := .load }
  | .load =>
    match o with
    | .done ok => { s with codec := ok, player := .reply }
    | _ => s
  | .stop => { s with codec := false, player := .reply }
  | .reply => { s.write_to_ui with player := .select }
  | .gone => s

/-- A worker writes to a pipe of its own. -/
def worker_step (s : State) : State :=
  { s with workers := s.workers - 1, killed := s.ui == .close_player || s.ui == .gone }

def main_step (s : State) : State :=
  match s.main with
  | .join_player => { s with main := .join_ui }
  | .join_ui => { s with main := .restore }
  | .restore => { s with main := .gone }
  | .gone => s

def next (s : State) : Action → State
  | .ui => s.ui_step
  | .player o => s.player_step o
  | .complete => { s with codec := false, handler := true }
  | .completed => { s.write_to_ui with handler := false }
  | .worker => s.worker_step
  | .main => s.main_step

/-- What a step of the player can end with: `play` reads the PLL until it has locked, `init` does
so too, and throws when a device is not there. -/
def Ends (s : State) : Outcome → Prop
  | .done _ => True
  | .polls => s.player = .init ∨ s.player = .load
  | .throws => s.player = .init

/-- The player does nothing below its handler, and waits at its `select` for a command. -/
def Enabled (s : State) (a : Action) : Prop :=
  s.killed = false ∧
    match a with
    | .ui => s.ui ≠ .gone
    | .player o => s.handler = false ∧ s.player ≠ .gone ∧
        (s.player = .select → s.ui_to_player ≠ []) ∧ s.Ends o
    | .complete => s.handler = false ∧ s.codec = true
    | .completed => s.handler = true
    | .worker => 0 < s.workers
    | .main =>
      match s.main with
      | .join_player => s.player = .gone
      | .join_ui => s.ui = .gone
      | .restore => True
      | .gone => False

end State

def system : System State Action := ⟨State.next, State.Enabled⟩

/-- The UI has read the end of the file in this state. -/
structure Leaving (s : State) : Prop where
  ui : s.ui = .write_exit
  player : s.player ≠ .gone
  queue : .EXIT ∉ s.ui_to_player
  main : s.main = .join_player
  killed : s.killed = false

/-- Nothing that writes to the UI is under way, and the codec is set up. -/
structure Idle (s : State) : Prop where
  queue : ∀ c ∈ s.ui_to_player, c = .VOLUME
  player : s.player = .select
  codec : s.codec = false
  handler : s.handler = false
  workers : s.workers = 0

/-- All threads are gone, and `main` has restored the terminal before. -/
structure Over (s : State) : Prop where
  ui : s.ui = .gone
  player : s.player = .gone
  workers : s.workers = 0
  main : s.main = .gone

/-- In whatever order the threads run and whatever the devices answer, nothing kills the process
and all threads end, in a bounded time. -/
def EndsWell (s : State) : Prop :=
  ∃ n, ∀ tr s', Run system (fun _ _ => True) s tr s' →
    tr.length ≤ n ∧ s'.killed = false ∧ ((∀ a, ¬ system.Enabled s' a) → Over s')

/-- How often the run reads a PLL that has not locked. -/
def polls (tr : List (State × Action)) : ℕ := tr.countP fun e => e.2 == .player .polls

/-! ## Every run ends -/

/-- How many steps a command brings at most. -/
def Command.steps : Command → ℕ
  | .PLAY => 6
  | .STOP => 3
  | .EXIT | .VOLUME => 1

def UiStep.steps : UiStep → ℕ
  | .write_exit => 4
  | .close_workers => 2
  | .close_player => 1
  | .gone => 0

/-- A track that starts is over once, and its handler writes once. -/
def PlayerStep.steps : PlayerStep → ℕ
  | .play => 5
  | .load => 4
  | .stop => 2
  | .init | .reply => 1
  | .select | .gone => 0

def MainStep.steps : MainStep → ℕ
  | .join_player => 3
  | .join_ui => 2
  | .restore => 1
  | .gone => 0

/-- A bound of the steps that are left. -/
def remaining (s : State) : ℕ :=
  s.ui.steps + (s.ui_to_player.map Command.steps).sum + s.player.steps + 2 * s.codec.toNat +
    s.handler.toNat + s.workers + s.main.steps

theorem polls_stays {s : State} (h : s.Enabled (.player .polls)) :
    s.next (.player .polls) = s := by
  obtain ⟨-, -, -, -, hp | hp⟩ := h <;> simp [State.next, State.player_step, hp]

theorem remaining_next {s : State} {a : Action} (h : s.Enabled a) (hne : a ≠ .player .polls) :
    remaining (s.next a) < remaining s := by
  obtain ⟨-, h⟩ := h
  cases a with
  | ui =>
    cases hu : s.ui <;>
      simp_all [State.next, State.ui_step, remaining, UiStep.steps, Command.steps]
    omega
  | player o =>
    obtain ⟨hh, hg, hq, ho⟩ := h
    cases hp : s.player with
    | init =>
      cases o with
      | polls => exact absurd rfl hne
      | _ => simp [State.next, State.player_step, remaining, hp, PlayerStep.steps]
    | load =>
      cases o with
      | polls => exact absurd rfl hne
      | throws => simp [State.Ends, hp] at ho
      | done ok =>
        cases ok <;> cases s.codec <;>
          simp [State.next, State.player_step, remaining, hp, PlayerStep.steps] <;> omega
    | select =>
      cases hc : s.ui_to_player with
      | nil => exact absurd hc (hq hp)
      | cons c cs =>
        cases c <;> cases s.codec <;>
          simp [State.next, State.player_step, remaining, hp, hc, Command.steps, PlayerStep.steps] <;>
          omega
    | gone => exact absurd hp hg
    | reply =>
      simp [State.next, State.player_step, State.write_to_ui, remaining, hp, PlayerStep.steps]
    | _ =>
      cases s.codec <;>
        simp [State.next, State.player_step, remaining, hp, PlayerStep.steps] <;> omega
  | complete => simp [State.next, remaining, h.1, h.2]
  | completed => simp [State.next, State.write_to_ui, remaining, h]
  | worker =>
    simp only [State.next, State.worker_step, remaining]
    omega
  | main => cases hm : s.main <;> simp_all [State.next, State.main_step, remaining, MainStep.steps]

/-- A run has as many steps as `remaining` allows, beside its polls. -/
theorem length_le_remaining {ok : State → Action → Prop} {s s' : State}
    {tr : List (State × Action)} (h : Run system ok s tr s') :
    tr.length + remaining s' ≤ remaining s + polls tr := by
  induction h with
  | start => simp
  | step a _ he _ ih =>
    rw [List.length_append, List.length_singleton, polls, List.countP_append,
      List.countP_singleton]
    change _ + remaining (State.next _ a) ≤ _
    unfold polls at ih
    by_cases hp : a = .player .polls
    · subst hp
      rw [polls_stays he, if_pos (by simp)]
      omega
    · have hlt := remaining_next he hp
      omega

/-! ## With nothing under way -/

/-- What holds after the UI has left its loop with nothing under way. -/
structure Ending (s : State) : Prop where
  queue : ∀ c ∈ s.ui_to_player, c = .VOLUME ∨ c = .EXIT
  exit : s.ui ≠ .write_exit → s.player ≠ .gone → .EXIT ∈ s.ui_to_player
  player : s.player = .select ∨ s.player = .gone
  codec : s.codec = false
  handler : s.handler = false
  workers : s.workers = 0
  joined : s.main ≠ .join_player → s.player = .gone
  left : s.main = .restore ∨ s.main = .gone → s.ui = .gone
  killed : s.killed = false

theorem ending_of_idle {s : State} (hl : Leaving s) (h : Idle s) : Ending s where
  queue c hc := Or.inl (h.queue c hc)
  exit hne := absurd hl.ui hne
  player := Or.inl h.player
  codec := h.codec
  handler := h.handler
  workers := h.workers
  joined hne := absurd hl.main hne
  left hm := by
    rw [hl.main] at hm
    rcases hm with hm | hm <;> cases hm
  killed := hl.killed

theorem ending_next {s : State} {a : Action} (h : Ending s) (ha : s.Enabled a) :
    Ending (s.next a) := by
  obtain ⟨hqueue, hexit, hplayer, hcodec, hhandler, hworkers, hjoined, hleft, hkilled⟩ := h
  obtain ⟨-, ha⟩ := ha
  cases a with
  | ui =>
    cases hu : s.ui with
    | write_exit =>
      constructor <;> simp_all [State.next, State.ui_step]
      rintro c (hc | rfl)
      · exact hqueue c hc
      · exact Or.inr rfl
    | _ => constructor <;> simp_all [State.next, State.ui_step]
  | player o =>
    obtain ⟨-, hgone, hne, -⟩ := ha
    have hsel : s.player = .select := hplayer.resolve_right hgone
    cases hc : s.ui_to_player with
    | nil => exact absurd hc (hne hsel)
    | cons c cs =>
      rcases hqueue c (by rw [hc]; exact List.mem_cons_self) with rfl | rfl
      all_goals constructor <;> simp_all [State.next, State.player_step]
  | complete => simp [hcodec] at ha
  | completed => simp [hhandler] at ha
  | worker => omega
  | main => cases hm : s.main <;> constructor <;> simp_all [State.next, State.main_step]

/-- A state in which nothing moves is the end. -/
theorem over_of_stuck {s : State} (h : Ending s) (hstuck : ∀ a, ¬ s.Enabled a) : Over s := by
  have hui : s.ui = .gone := by
    by_contra hne
    exact hstuck .ui ⟨h.killed, hne⟩
  have hplayer : s.player = .gone := by
    by_contra hne
    have hexit := h.exit (by rw [hui]; rintro ⟨⟩) hne
    exact hstuck (.player (.done true))
      ⟨h.killed, h.handler, hne, fun _ => List.ne_nil_of_mem hexit, trivial⟩
  refine ⟨hui, hplayer, h.workers, ?_⟩
  cases hm : s.main with
  | gone => rfl
  | join_player => exact absurd ⟨h.killed, by simp [hm, hplayer]⟩ (hstuck .main)
  | join_ui => exact absurd ⟨h.killed, by simp [hm, hui]⟩ (hstuck .main)
  | restore => exact absurd ⟨h.killed, by simp [hm]⟩ (hstuck .main)

/-- The player reads no PLL on its way out. -/
theorem no_polls {s s' : State} {tr : List (State × Action)} (h : Ending s)
    (hr : Run system (fun _ _ => True) s tr s') : Ending s' ∧ polls tr = 0 := by
  refine hr.inv_trace (I := fun tr s => Ending s ∧ polls tr = 0) ⟨h, rfl⟩ ?_
  rintro tr s a ⟨hs, hnone⟩ he -
  refine ⟨ending_next hs he, ?_⟩
  rw [polls, List.countP_append, ← polls, hnone, List.countP_singleton, if_neg]
  intro ha
  obtain rfl : a = .player .polls := by simpa using ha
  obtain ⟨-, -, hgone, -, hp⟩ := he
  have hsel : s.player = .select := hs.player.resolve_right hgone
  rcases hp with hp | hp <;> rw [hsel] at hp <;> cases hp

theorem endsWell_of_idle {s : State} (hl : Leaving s) (h : Idle s) : EndsWell s := by
  refine ⟨remaining s, fun tr s' hr => ?_⟩
  obtain ⟨hend, hnone⟩ := no_polls (ending_of_idle hl h) hr
  have hlen := length_le_remaining hr
  exact ⟨by omega, hend.killed, over_of_stuck hend⟩

/-! ## With something under way -/

/-- A SIGPIPE or an abort can still come. -/
def Doomed (s : State) : Prop :=
  ∃ tr s', Run system (fun _ _ => True) s tr s' ∧ s'.killed = true

theorem doomed_of_step {s : State} (a : Action) (ha : s.Enabled a) (h : Doomed (s.next a)) :
    Doomed s := by
  obtain ⟨tr, s', hr, hk⟩ := h
  have hfirst : Run system (fun _ _ => True) s ([] ++ [(s, a)]) (s.next a) :=
    .step a .start ha trivial
  exact ⟨_, s', hfirst.append hr, hk⟩

theorem doomed_of_killed {s : State} (h : s.killed = true) : Doomed s := ⟨[], s, .start, h⟩

section Gone

variable {s : State}

theorem doomed_of_handler (hu : s.ui = .gone) (hk : s.killed = false) (hh : s.handler = true) :
    Doomed s := by
  refine doomed_of_step .completed ⟨hk, hh⟩ (doomed_of_killed ?_)
  simp [State.next, State.write_to_ui, hu]

theorem doomed_of_workers (hu : s.ui = .gone) (hk : s.killed = false) (hw : 0 < s.workers) :
    Doomed s := by
  refine doomed_of_step .worker ⟨hk, hw⟩ (doomed_of_killed ?_)
  simp [State.next, State.worker_step, hu]

theorem doomed_of_codec (hu : s.ui = .gone) (hk : s.killed = false) (hh : s.handler = false)
    (hc : s.codec = true) : Doomed s :=
  doomed_of_step .complete ⟨hk, hh, hc⟩ (doomed_of_handler hu hk rfl)

theorem doomed_of_reply (hu : s.ui = .gone) (hk : s.killed = false) (hh : s.handler = false)
    (hp : s.player = .reply) : Doomed s := by
  refine doomed_of_step (.player (.done true)) ⟨hk, hh, by simp [hp], by simp [hp], trivial⟩
    (doomed_of_killed ?_)
  simp [State.next, State.player_step, State.write_to_ui, hp, hu]

/-- Once it has left its `select` the player writes a reply, and before its loop it may throw. -/
theorem doomed_of_player (hu : s.ui = .gone) (hk : s.killed = false) (hh : s.handler = false)
    (hp : s.player ≠ .select) (hg : s.player ≠ .gone) : Doomed s := by
  have hload : ∀ s : State, s.ui = .gone → s.killed = false → s.handler = false →
      s.player = .load → Doomed s := by
    intro s hu hk hh hp
    apply doomed_of_step (.player (.done false)) ⟨hk, hh, by simp [hp], by simp [hp], trivial⟩
    apply doomed_of_reply <;> simp [State.next, State.player_step, hp, hu, hk, hh]
  cases hs : s.player with
  | select => exact absurd hs hp
  | gone => exact absurd hs hg
  | init =>
    refine doomed_of_step (.player .throws) ⟨hk, hh, hg, by simp [hs], hs⟩ (doomed_of_killed ?_)
    simp [State.next, State.player_step, hs]
  | reply => exact doomed_of_reply hu hk hh hs
  | load => exact hload s hu hk hh hs
  | play =>
    apply doomed_of_step (.player (.done true)) ⟨hk, hh, hg, by simp [hs], trivial⟩
    apply hload <;> simp [State.next, State.player_step, hs, hu, hk, hh]
  | stop =>
    apply doomed_of_step (.player (.done true)) ⟨hk, hh, hg, by simp [hs], trivial⟩
    apply doomed_of_reply <;> simp [State.next, State.player_step, hs, hu, hk, hh]

end Gone

/-- The first command that is answered comes before EXIT. -/
theorem doomed_of_queue {cs : List Command} : ∀ {s : State}, s.ui = .gone → s.killed = false →
    s.handler = false → s.player = .select → s.ui_to_player = cs ++ [.EXIT] → .EXIT ∉ cs →
    (∃ c ∈ cs, c ≠ .VOLUME) → Doomed s := by
  induction cs with
  | nil =>
    rintro s - - - - - - ⟨c, hc, -⟩
    cases hc
  | cons d cs ih =>
    rintro s hu hk hh hp hq hexit ⟨c, hc, hne⟩
    have hmove : s.Enabled (.player (.done true)) :=
      ⟨hk, hh, by simp [hp], by simp [hq], trivial⟩
    apply doomed_of_step (.player (.done true)) hmove
    cases d with
    | EXIT => exact absurd List.mem_cons_self hexit
    | PLAY =>
      apply doomed_of_player <;> simp [State.next, State.player_step, hp, hq, hu, hk, hh]
    | STOP =>
      apply doomed_of_player <;> simp [State.next, State.player_step, hp, hq, hu, hk, hh]
    | VOLUME =>
      have hrest : c ∈ cs := by
        rcases List.mem_cons.mp hc with rfl | hc
        · exact absurd rfl hne
        · exact hc
      refine ih ?_ ?_ ?_ ?_ ?_ (fun h => hexit (List.mem_cons_of_mem _ h)) ⟨c, hrest, hne⟩ <;>
        simp [State.next, State.player_step, hp, hq, hu, hk, hh]

/-- The UI can close everything before anybody else moves. -/
theorem doomed_of_left {s : State} (hl : Leaving s)
    (h : Doomed { s with ui_to_player := s.ui_to_player ++ [.EXIT], ui := .gone }) : Doomed s := by
  have hwrite : s.next .ui =
      { s with ui_to_player := s.ui_to_player ++ [.EXIT], ui := .close_workers } := by
    simp [State.next, State.ui_step, hl.ui]
  apply doomed_of_step .ui ⟨hl.killed, by simp [hl.ui]⟩
  rw [hwrite]
  refine doomed_of_step .ui ?_ (doomed_of_step .ui ?_ h)
  · exact ⟨hl.killed, by simp⟩
  · exact ⟨hl.killed, by simp [State.next, State.ui_step]⟩

theorem idle_of_not_doomed {s : State} (hl : Leaving s) (h : ¬ Doomed s) : Idle s := by
  have hleft := fun hd => h (doomed_of_left hl hd)
  have hhandler : s.handler = false := by
    by_contra hh
    exact hleft (doomed_of_handler rfl hl.killed (by simpa using hh))
  have hplayer : s.player = .select := by
    by_contra hp
    exact hleft (doomed_of_player rfl hl.killed hhandler hp hl.player)
  refine ⟨?_, hplayer, ?_, hhandler, ?_⟩
  · by_contra hq
    push Not at hq
    exact hleft (doomed_of_queue rfl hl.killed hhandler hplayer rfl hl.queue hq)
  · by_contra hc
    exact hleft (doomed_of_codec rfl hl.killed hhandler (by simpa using hc))
  · by_contra hw
    exact hleft (doomed_of_workers rfl hl.killed (Nat.pos_of_ne_zero hw))

/-- After SIGINT each run of the threads has an end, but for the reads of a PLL that never locks.
Whatever their order is and whatever the devices answer, the end is that all threads are gone and
the terminal is restored, with nothing that kills the process before it, exactly when nothing was
under way: no command that is answered, no track and no worker, and the codec was set up. -/
theorem program_ends_well_iff {s : State} (hl : Leaving s) :
    (∀ tr s', Run system (fun _ _ => True) s tr s' → tr.length ≤ remaining s + polls tr) ∧
      (EndsWell s ↔ Idle s) := by
  refine ⟨fun tr s' hr => ?_, ?_, endsWell_of_idle hl⟩
  · have := length_le_remaining hr
    omega
  · rintro ⟨n, h⟩
    apply idle_of_not_doomed hl
    rintro ⟨tr, s', hr, hk⟩
    rw [(h tr s' hr).2.1] at hk
    cases hk

/-- The UI leaves, and a track is playing. -/
def playing : State := ⟨.write_exit, [.VOLUME], .select, true, false, 0, .join_player, false⟩

theorem playing_ends_well_iff :
    (∀ tr s', Run system (fun _ _ => True) playing tr s' →
      tr.length ≤ remaining playing + polls tr) ∧
      (EndsWell playing ↔ Idle playing) :=
  program_ends_well_iff ⟨rfl, by decide, by decide, rfl, rfl⟩

end shutdown
